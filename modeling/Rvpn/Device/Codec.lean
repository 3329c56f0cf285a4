import Rvpn.Bridge.Control
import Rvpn.Device.Framing

/-!
# Three classes of datagrams (tap_client_udp.c, inject.c, linux_tap.c)

What the injected process sends is a control command, a frame or a registration. The bridge tells them
apart by the first two bytes.

* `dispatchWithin` — the handlers on the bytes behind the command byte and no others: `none` where one
  would read on;
* `codec` — a control command comes to its own handler with its own arguments, which end where the datagram
  ends; a frame comes to no handler; a registration comes to no handler and to no frame.
-/

namespace Rvpn

/-! ## The encoders -/

/-- A call of one of the `TapClientSet…` functions. -/
inductive TapClientCall where
  | setIPv4 (ip : Vector UInt8 4) (pfx : UInt8)
  | setIPv4Gateway (ip : Vector UInt8 4)
  | setIPv6 (ip : Vector UInt8 16) (pfx : UInt8)
  | setMAC (mac : Mac)
  | setLinkUp
  | setLinkDown

namespace TapClientCall

/-- The datagram it sends. -/
def datagram : TapClientCall → List UInt8
  | setIPv4 ip pfx => tapClientSetIPv4 ip pfx
  | setIPv4Gateway ip => tapClientSetIPv4Gateway ip
  | setIPv6 ip pfx => tapClientSetIPv6 ip pfx
  | setMAC mac => tapClientSetMAC mac
  | setLinkUp => tapClientSetLinkUp
  | setLinkDown => tapClientSetLinkDown

/-- The handler of the same name, with the arguments of the call. -/
def change : TapClientCall → IfaceChange
  | setIPv4 ip pfx => .setIpv4 ip.toList pfx
  | setIPv4Gateway ip => .setIpv4Gw ip.toList
  | setIPv6 ip pfx => .setIpv6 ip.toList pfx
  | setMAC mac => .setMac mac.toList
  | setLinkUp => .linkUp
  | setLinkDown => .linkDown

def cmd : TapClientCall → TapCtrl
  | setIPv4 .. => .setIpv4
  | setIPv4Gateway _ => .setIpv4Gw
  | setIPv6 .. => .setIpv6
  | setMAC _ => .setMac
  | setLinkUp => .linkUp
  | setLinkDown => .linkDown

/-- The argument bytes. -/
def args : TapClientCall → List UInt8
  | setIPv4 ip pfx => ip.toList ++ [pfx]
  | setIPv4Gateway ip => ip.toList
  | setIPv6 ip pfx => ip.toList ++ [pfx]
  | setMAC mac => mac.toList
  | setLinkUp | setLinkDown => []

theorem datagram_eq (c : TapClientCall) : c.datagram = sendControl c.cmd c.args := by
  cases c <;> rfl

/-- Every encoder sends the number of bytes its handler reads. -/
theorem length_args (c : TapClientCall) : c.args.length = c.cmd.argLen := by
  cases c <;> simp [args, cmd, TapCtrl.argLen]

end TapClientCall

/-! ## The handlers on a cut buffer -/

/-- `memcpy(_, data + off, n)` where only `data` may be read. -/
def readWithin (data : List UInt8) (off n : Nat) : Option (List UInt8) :=
  if off + n ≤ data.length then some ((data.drop off).take n) else none

/-- `dispatch`, or `none` if the handler reads past the end of `data`. -/
def dispatchWithin (cmd : UInt8) (data : List UInt8) : Option (Option IfaceChange) :=
  match TapCtrl.ofCode cmd with
  | none => some none
  | some .setIpv4 => do
    let addr ← readWithin data 0 4
    let pfx ← data[4]?
    return some (.setIpv4 addr pfx)
  | some .setIpv4Gw => do
    let gw ← readWithin data 0 4
    return some (.setIpv4Gw gw)
  | some .setIpv6 => do
    let addr ← readWithin data 0 16
    let pfx ← data[16]?
    return some (.setIpv6 addr pfx)
  | some .setMac => do
    let mac ← readWithin data 0 6
    return some (.setMac mac)
  | some .linkUp => some (some .linkUp)
  | some .linkDown => some (some .linkDown)

theorem readWithin_append {a b : List UInt8} {n : Nat} (h : a.length = n) : readWithin (a ++ b) 0 n = some a := by
  have hle : 0 + n ≤ (a ++ b).length := by
    rw [List.length_append]
    omega
  rw [readWithin, if_pos hle, List.drop_zero, List.take_left' h]

theorem readWithin_self {a : List UInt8} {n : Nat} (h : a.length = n) : readWithin a 0 n = some a := by
  simpa using readWithin_append (b := []) h

theorem take_of_readWithin {data r : List UInt8} {n : Nat} (h : readWithin data 0 n = some r) : data.take n = r := by
  unfold readWithin at h
  split_ifs at h
  simpa using h

theorem getD_of_getElem? {data : List UInt8} {k : Nat} {x : UInt8} (h : data[k]? = some x) : data.getD k 0 = x := by
  rw [List.getD_eq_getElem?_getD, h]
  rfl

/-- Where every read is inside, `dispatch` is the same. -/
theorem dispatch_of_within {cmd : UInt8} {data : List UInt8} {ch : Option IfaceChange}
    (h : dispatchWithin cmd data = some ch) : dispatch cmd data = ch := by
  unfold dispatchWithin at h
  unfold dispatch
  cases hc : TapCtrl.ofCode cmd with
  | none => simpa [hc] using h
  | some c =>
    rw [hc] at h
    cases c with
    | setIpv4 =>
      simp only [Option.bind_eq_bind, Option.pure_def, Option.bind_eq_some_iff, Option.some.injEq] at h
      obtain ⟨addr, haddr, pfx, hpfx, rfl⟩ := h
      simp only [Option.map_some, handleSetIpv4, take_of_readWithin haddr, getD_of_getElem? hpfx]
    | setIpv4Gw =>
      simp only [Option.bind_eq_bind, Option.pure_def, Option.bind_eq_some_iff, Option.some.injEq] at h
      obtain ⟨gw, hgw, rfl⟩ := h
      simp only [Option.map_some, handleSetIpv4Gw, take_of_readWithin hgw]
    | setIpv6 =>
      simp only [Option.bind_eq_bind, Option.pure_def, Option.bind_eq_some_iff, Option.some.injEq] at h
      obtain ⟨addr, haddr, pfx, hpfx, rfl⟩ := h
      simp only [Option.map_some, handleSetIpv6, take_of_readWithin haddr, getD_of_getElem? hpfx]
    | setMac =>
      simp only [Option.bind_eq_bind, Option.pure_def, Option.bind_eq_some_iff, Option.some.injEq] at h
      obtain ⟨mac, hmac, rfl⟩ := h
      simp only [Option.map_some, handleSetMac, take_of_readWithin hmac]
    | linkUp => simpa using h
    | linkDown => simpa using h

/-- **The handler reads back the arguments**, and finds all of them before the end of the datagram. -/
theorem dispatchWithin_args (c : TapClientCall) : dispatchWithin c.cmd.code c.args = some (some c.change) := by
  unfold dispatchWithin
  rw [TapCtrl.ofCode_code]
  cases c with
  | setIPv4 ip pfx =>
    simp [TapClientCall.cmd, TapClientCall.args, TapClientCall.change, readWithin_append]
  | setIPv4Gateway ip =>
    simp [TapClientCall.cmd, TapClientCall.args, TapClientCall.change, readWithin_self]
  | setIPv6 ip pfx =>
    simp [TapClientCall.cmd, TapClientCall.args, TapClientCall.change, readWithin_append]
  | setMAC mac =>
    simp [TapClientCall.cmd, TapClientCall.args, TapClientCall.change, readWithin_self]
  | setLinkUp => rfl
  | setLinkDown => rfl

/-! ## The datagrams in a round -/

variable {b : Bridge} {i : RoundIn}

/-- Only a frame datagram is written to the TAP. -/
theorem round_writes_of_ne {d : List UInt8} (h : Receives i d) (hd : ∀ f, d ≠ 0x00 :: f) :
    (round b i).writes = [] := by
  obtain ⟨src, hu⟩ := h.2
  rw [(round_udp h).2]
  cases d with
  | nil => rw [udpToTap_nil hu]
  | cons t f =>
    have h0 : t ≠ 0x00 := fun h => hd f (h ▸ rfl)
    by_cases h1 : t = 0x01
    · subst h1
      cases f with
      | nil => rw [udpToTap_noCmd hu]
      | cons cmd args => rw [udpToTap_control hu]
    · rw [udpToTap_other hu h0 h1]

theorem round_call (c : TapClientCall) (h : Receives i c.datagram) :
    (round b i).change = some c.change ∧ (round b i).writes = [] := by
  rw [TapClientCall.datagram_eq, sendControl] at h
  constructor
  · have hlong : ¬ ShortArgs (0x01 :: c.cmd.code :: c.args) := by
      rintro ⟨c', args, heq, hlt⟩
      simp only [List.cons.injEq, true_and] at heq
      have hcode := congrArg TapCtrl.ofCode heq.1
      rw [TapCtrl.ofCode_code, TapCtrl.ofCode_code, Option.some.injEq] at hcode
      rw [← heq.2, ← hcode, c.length_args] at hlt
      exact absurd hlt (lt_irrefl _)
    rw [change_of_long h hlong]
    exact dispatch_of_within (dispatchWithin_args c)
  · exact round_writes_of_ne h (by simp)

theorem round_frameDatagram {f : List UInt8} (h : Receives i (frameDatagram f)) : (round b i).change = none :=
  change_of_noControl h (by simp [frameDatagram])

theorem round_regPacket (h : Receives i regPacket) : (round b i).change = none ∧ (round b i).writes = [] := by
  constructor
  · rw [change_of_control h]
    rfl
  · exact round_writes_of_ne h (by simp [regPacket])

/-! ## What the hooks send -/

/-- Everything `Hook_WriteFile` puts on the wire is a frame datagram. -/
theorem wire_hookWriteFile {w w' : World} {h : Handle} {buf : List UInt8} {ov : Option OvPtr}
    {src : Option SockAddr} (hw : hookWriteFile w h buf ov src = some w') :
    ∃ ds, w'.wire = w.wire ++ ds ∧ ∀ x ∈ ds, ∃ f, x.2 = frameDatagram f := by
  obtain ⟨pkt, rfl, hpkt⟩ := hookWriteFile_spec hw
  refine ⟨pkt.toList, rfl, ?_⟩
  intro x hx
  exact (hpkt x (by simpa using hx)).2

/-- What `TapClientSendFrame` sends is a frame datagram. -/
theorem tapClientSendFrame_sent {active : Bool} {frame : Option (List UInt8)} {len : Int} {d : List UInt8}
    (h : tapClientSendFrame active frame len = some (some d)) : ∃ f, d = frameDatagram f := by
  unfold tapClientSendFrame at h
  split_ifs at h with ha hl
  · cases h
  · cases h
  · cases frame with
    | none => cases h
    | some bytes =>
      dsimp only at h
      split_ifs at h
      exact ⟨_, (Option.some.inj (Option.some.inj h)).symm⟩

/-- Everything `Hook_ReadFile` puts on the wire is a registration. -/
theorem wire_hookReadFile (w : World) (h : Handle) (ov : Option OvPtr) (buffer : Nat) (buflen : UInt32)
    (sk : Option (Socket × SockAddr)) :
    ∃ ds, (hookReadFile w h ov buffer buflen sk).wire = w.wire ++ ds ∧ ∀ x ∈ ds, x.2 = regPacket := by
  unfold hookReadFile
  cases hctx : getHandleContext w.handleList h with
  | none => exact ⟨[], by simp, by simp⟩
  | some ctx =>
    cases hact : w.tapActive with
    | false => exact ⟨[], by simp, by simp⟩
    | true =>
      cases ov with
      | none => exact ⟨[], by simp, by simp⟩
      | some ov =>
        refine ⟨(sk.map fun x => (x.2, regPacket)).toList, rfl, ?_⟩
        cases sk <;> simp

/-- **The codec.** In every state of the bridge: a control datagram comes to the handler of its name, which
reads the arguments and ends with the datagram; the frame datagrams of both senders come to no handler; the
registration comes to no handler and is not written. -/
theorem codec (b : Bridge) (i : RoundIn) :
    (∀ c : TapClientCall, dispatchWithin c.cmd.code c.args = some (some c.change) ∧
      c.datagram = [0x01, c.cmd.code] ++ c.args ∧
      (Receives i c.datagram → (round b i).change = some c.change ∧ (round b i).writes = [])) ∧
    (∀ f, Receives i (frameDatagram f) → (round b i).change = none) ∧
    (∀ w h buf ov src w', hookWriteFile w h buf ov src = some w' → ∃ ds, w'.wire = w.wire ++ ds ∧
      ∀ x ∈ ds, Receives i x.2 → (round b i).change = none) ∧
    (∀ active frame len d, tapClientSendFrame active frame len = some (some d) → Receives i d →
      (round b i).change = none) ∧
    (∀ w h ov buffer buflen sk, ∃ ds, (hookReadFile w h ov buffer buflen sk).wire = w.wire ++ ds ∧
      ∀ x ∈ ds, Receives i x.2 → (round b i).change = none ∧ (round b i).writes = []) := by
  refine ⟨?_, fun f => round_frameDatagram, ?_, ?_, ?_⟩
  · intro c
    exact ⟨dispatchWithin_args c, c.datagram_eq, round_call c⟩
  · intro w h buf ov src w' hw
    obtain ⟨ds, hwire, hds⟩ := wire_hookWriteFile hw
    refine ⟨ds, hwire, fun x hx hrecv => ?_⟩
    obtain ⟨f, hf⟩ := hds x hx
    rw [hf] at hrecv
    exact round_frameDatagram hrecv
  · intro active frame len d hd hrecv
    obtain ⟨f, rfl⟩ := tapClientSendFrame_sent hd
    exact round_frameDatagram hrecv
  · intro w h ov buffer buflen sk
    obtain ⟨ds, hwire, hds⟩ := wire_hookReadFile w h ov buffer buflen sk
    refine ⟨ds, hwire, fun x hx hrecv => ?_⟩
    rw [hds x hx] at hrecv
    exact round_regPacket hrecv

/-- `TapClientSetIPv4` of `26.1.2.3/8`, as the bridge executes it. -/
theorem codec_setIPv4 :
    (round (Bridge.init (RxBuf.filled 0)) (.datagram ⟨0x0100007F, 40001⟩ (tapClientSetIPv4 #v[26, 1, 2, 3] 8)
      fun _ => .ok 0)).change = some (.setIpv4 [26, 1, 2, 3] 8) :=
  (((codec _ _).1 (.setIPv4 #v[26, 1, 2, 3] 8)).2.2 (receives_datagram _ _ _)).1

end Rvpn
