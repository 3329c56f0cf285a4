import Rvpn.Lib.Refine
import Rvpn.Device.Codec

/-!
# What the application sends out (inject.c:380-453, tap_client_udp.c:151-184, linux_tap.c:293-367)

Every frame the application writes and every command about the interface travels in a datagram of its own, each from a
socket that is opened for it, among the registrations of pending reads. The bridge takes one datagram in a round. A round
may also fail before it comes to that, receive nothing, or end the bridge.

`Effect` is what can happen to the TAP interface: a frame is written, or a setting is changed. `taken` is what a call of
the application asks for at the time of the call, `served` is what a round of the bridge does. `outbound_fifo`: in every
run of the two programs, what has been done and what the wire still holds is what has been asked for, each once and in
order.
-/

namespace Rvpn

open Lts

inductive Effect where
  | frame (f : List UInt8)
  | change (c : IfaceChange)
deriving DecidableEq

/-- What a datagram asks for; a frame is cut to what the bridge receives. -/
def effectsOf : List UInt8 → List Effect
  | 0x00 :: f => [.frame (f.take maxFrame)]
  | 0x01 :: cmd :: args => ((dispatch cmd args).map Effect.change).toList
  | _ => []

/-- The call passes the checks of `Hook_WriteFile`, and its socket can be opened. -/
def Passes (w : World) (h : Handle) (buf : List UInt8) (src : Option SockAddr) : Prop :=
  (getHandleContext w.handleList h).isSome ∧ w.tapActive = true ∧ Accepts buf ∧
    (radminHeaderRead buf).toNat < maxUdpPayload ∧ src.isSome

instance (buf : List UInt8) : Decidable (Accepts buf) := inferInstanceAs (Decidable (_ ∧ _))

instance (w : World) (h : Handle) (buf : List UInt8) (src : Option SockAddr) : Decidable (Passes w h buf src) :=
  inferInstanceAs (Decidable (_ ∧ _ ∧ _ ∧ _ ∧ _))

def taken (w : World) : Act → List Effect
  | .writeFile h buf _ src => if Passes w h buf src then effectsOf (frameDatagram (announced buf)) else []
  | .control cmd args _ => effectsOf (sendControl cmd args)
  | _ => []

def RoundOut.effects (o : RoundOut) : List Effect := o.writes.map .frame ++ (o.change.map Effect.change).toList

def served (w : World) : Act → List Effect
  | .poll i => ((i.roundIn w.wire).map fun r => (round w.bridge r).effects).getD []
  | _ => []

/-- The length of a buffer is a `DWORD`, and `TapClientSet…` sends whole arguments. -/
def Act.Callable : Act → Prop
  | .writeFile _ buf _ _ => buf.length < 2 ^ 32
  | .control cmd args _ => args.length = cmd.argLen
  | _ => True

/-- Every control datagram on the wire has its whole argument. -/
def WholeArgs (w : World) : Prop := ∀ x ∈ w.wire, ¬ ShortArgs x.2

variable {w w' : World} {b : Bridge} {r : RoundIn} {i : PollIn} {h : Handle} {buf d : List UInt8} {ov : Option OvPtr}
  {src : Option SockAddr} {a : Act} {as : List Act}

/-! ## The calls -/

theorem not_shortArgs_frame (f : List UInt8) : ¬ ShortArgs (frameDatagram f) := by
  rintro ⟨c, args, he, -⟩
  simp [frameDatagram] at he

theorem not_shortArgs_regPacket : ¬ ShortArgs regPacket := by
  rintro ⟨c, args, he, -⟩
  cases c <;> simp [regPacket, TapCtrl.code] at he

theorem not_shortArgs_control {cmd : TapCtrl} {args : List UInt8} (hl : args.length = cmd.argLen) :
    ¬ ShortArgs (sendControl cmd args) := by
  rintro ⟨c, args', he, hlt⟩
  simp only [sendControl, List.cons.injEq, true_and] at he
  have hcode := congrArg TapCtrl.ofCode he.1
  rw [TapCtrl.ofCode_code, TapCtrl.ofCode_code, Option.some.injEq] at hcode
  rw [← he.2, ← hcode, hl] at hlt
  exact Nat.lt_irrefl _ hlt

/-- **`Hook_WriteFile`** puts the announced frame on the wire, or nothing. -/
theorem hookWriteFile_wire (hs : hookWriteFile w h buf ov src = some w') (hlen : buf.length < 2 ^ 32) :
    ∃ ds, w'.wire = w.wire ++ ds ∧ ds.flatMap (fun x => effectsOf x.2) = taken w (.writeFile h buf ov src) ∧
      ∀ x ∈ ds, ¬ ShortArgs x.2 := by
  by_cases hf : Passes w h buf src
  · obtain ⟨hopen, hact, hacc, hudp, hsrc⟩ := id hf
    obtain ⟨ctx, hctx⟩ := Option.isSome_iff_exists.1 hopen
    obtain ⟨addr, rfl⟩ := Option.isSome_iff_exists.1 hsrc
    obtain ⟨w₁, hw₁, hwire⟩ := hookWriteFile_accepts hctx hact hlen hacc ov addr
    obtain rfl : w₁ = w' := Option.some.inj (hw₁.symm.trans hs)
    rw [if_pos hudp] at hwire
    refine ⟨_, hwire, by simp [taken, hf], fun x hx => ?_⟩
    obtain rfl := List.mem_singleton.1 hx
    exact not_shortArgs_frame _
  · suffices hw : w'.wire = w.wire from ⟨[], by simp [hw], by simp [taken, hf], by simp⟩
    unfold hookWriteFile at hs
    split at hs
    · cases hs
      rfl
    · next ctx hctx =>
      dsimp only at hs
      split_ifs at hs with hcheck hread hudp
      · obtain ⟨hact, hsize, -⟩ := hcheck
        have hacc : Accepts buf := by
          refine ⟨?_, hread⟩
          have hle := UInt32.le_iff_toNat_le.1 hsize
          rwa [UInt32.toNat_ofNat_of_lt' hlen] at hle
        rw [show ((buf.drop radminHeaderSize).take (radminHeaderRead buf).toNat).length = (radminHeaderRead buf).toNat
          from length_announced hacc] at hudp
        -- only the socket can be missing
        cases src with
        | none =>
          cases hs
          cases ov <;> simp
        | some addr => exact absurd ⟨by rw [hctx]; rfl, hact, hacc, hudp, rfl⟩ hf
      · cases hs
        cases ov <;> simp
      · cases hs
        cases ov <;> rfl

/-! ## The rounds -/

theorem effectsOf_other (h0 : ∀ f, d ≠ 0x00 :: f) (h1 : ∀ cmd args, d ≠ 0x01 :: cmd :: args) : effectsOf d = [] := by
  unfold effectsOf
  split
  · exact absurd rfl (h0 _)
  · exact absurd rfl (h1 _ _)
  · rfl

/-- **What a round does** is what the datagram it receives asks for. -/
theorem round_effects (hd : ∀ x, r.udp = some (.ok x) → ¬ ShortArgs x.2) :
    (round b r).effects = match r.senderOf (round b r), r.udp with
      | some _, some (.ok x) => effectsOf x.2
      | _, _ => [] := by
  by_cases hreach : ReachesUdp r
  · obtain ⟨hp, ht⟩ := id hreach
    rcases htap : tapToUdp b r with ⟨b', sends, flow⟩
    obtain rfl : flow = .fall := by
      have := (tapToUdp_fall_iff (b := b)).2 ht
      rwa [htap] at this
    cases hu : r.udp with
    | none =>
      rw [round_of_fall hp htap]
      simp [RoundOut.effects, RoundIn.senderOf, udpToTap, hu]
    | some res =>
      cases res with
      | error e =>
        rw [round_of_fall hp htap]
        simp [RoundOut.effects, RoundIn.senderOf, udpToTap, hu]
      | ok x =>
        obtain ⟨from', d⟩ := x
        have hrec : Receives r d := ⟨hreach, from', hu⟩
        have hrecvd : (round b r).recvd = true := by
          rw [round_of_fall hp htap, hu]
          rfl
        have hsender : r.senderOf (round b r) = some from' := by
          rw [RoundIn.senderOf, hrecvd, hu]
        have hlong : ¬ ShortArgs d := hd (from', d) hu
        rw [hsender]
        by_cases h0 : ∃ f, d = 0x00 :: f
        · obtain ⟨f, rfl⟩ := h0
          rw [RoundOut.effects, round_frame (f := f) hu hrecvd, change_of_noControl hrec (by simp)]
          rfl
        · have hwrites : (round b r).writes = [] := round_writes_of_ne hrec fun f he => h0 ⟨f, he⟩
          by_cases h1 : ∃ cmd args, d = 0x01 :: cmd :: args
          · obtain ⟨cmd, args, rfl⟩ := h1
            rw [RoundOut.effects, hwrites, change_of_long hrec hlong]
            rfl
          · have hchange : (round b r).change = none := change_of_noControl hrec fun cmd args he => h1 ⟨cmd, args, he⟩
            rw [RoundOut.effects, hwrites, hchange]
            exact (effectsOf_other (fun f he => h0 ⟨f, he⟩) fun cmd args he => h1 ⟨cmd, args, he⟩).symm
  · have hnone : (round b r).effects = [] ∧ (round b r).recvd = false := by
      unfold round
      split
      · exact ⟨rfl, rfl⟩
      · next hp =>
        rcases htap : tapToUdp b r with ⟨b', sends, flow⟩
        cases flow with
        | fall => exact absurd ⟨hp, (tapToUdp_fall_iff (b := b)).1 (by rw [htap])⟩ hreach
        | cont => exact ⟨rfl, rfl⟩
        | brk => exact ⟨rfl, rfl⟩
    rw [hnone.1, RoundIn.senderOf, hnone.2]

/-- A round receives the first datagram of the wire. -/
theorem roundIn_udp {wire : List (SockAddr × List UInt8)} {x : SockAddr × List UInt8} (hr : i.roundIn wire = some r)
    (hx : r.udp = some (.ok x)) : ∃ rest, wire = x :: rest := by
  unfold PollIn.roundIn at hr
  split at hr <;> cases hr <;> cases hx
  exact ⟨_, rfl⟩

theorem pollRound_effects (hs : pollRound w i = some w') (hw : WholeArgs w) :
    WholeArgs w' ∧ served w (.poll i) ++ w'.wire.flatMap (fun x => effectsOf x.2) =
      w.wire.flatMap fun x => effectsOf x.2 := by
  unfold pollRound at hs
  split_ifs at hs
  obtain ⟨r, hr, rfl⟩ := Option.map_eq_some_iff.1 hs
  have heff : (round w.bridge r).effects = _ := round_effects fun x hx => by
    obtain ⟨rest, hwire⟩ := roundIn_udp hr hx
    exact hw x (by simp [hwire])
  refine ⟨fun x hx => hw x (List.mem_of_mem_drop hx), ?_⟩
  simp only [served, hr, Option.map_some, Option.getD_some, heff]
  cases hsender : r.senderOf (round w.bridge r) with
  | none => rfl
  | some addr =>
    obtain ⟨x, hx⟩ : ∃ x, r.udp = some (.ok x) := by
      unfold RoundIn.senderOf at hsender
      split at hsender
      · exact ⟨_, by assumption⟩
      · cases hsender
    obtain ⟨rest, hwire⟩ := roundIn_udp hr hx
    rw [hx, hwire]
    rfl

/-! ## Whole runs -/

theorem step_fifo (hw : WholeArgs w) (ha : a.Callable) (hs : step w a = some w') :
    WholeArgs w' ∧ served w a ++ w'.wire.flatMap (fun x => effectsOf x.2) =
      w.wire.flatMap (fun x => effectsOf x.2) ++ taken w a := by
  -- what is put on the wire, and no round
  have hput : ∀ ds : List (SockAddr × List UInt8), w'.wire = w.wire ++ ds →
      ds.flatMap (fun x => effectsOf x.2) = taken w a → (∀ x ∈ ds, ¬ ShortArgs x.2) → served w a = [] →
      WholeArgs w' ∧ served w a ++ w'.wire.flatMap (fun x => effectsOf x.2) =
        w.wire.flatMap (fun x => effectsOf x.2) ++ taken w a := by
    intro ds hwire htaken hwhole hserved
    refine ⟨fun x hx => ?_, by rw [hserved, List.nil_append, hwire, List.flatMap_append, htaken]⟩
    rw [hwire] at hx
    rcases List.mem_append.1 hx with hx | hx
    · exact hw x hx
    · exact hwhole x hx
  have hkeep : w'.wire = w.wire → taken w a = [] → served w a = [] →
      WholeArgs w' ∧ served w a ++ w'.wire.flatMap (fun x => effectsOf x.2) =
        w.wire.flatMap (fun x => effectsOf x.2) ++ taken w a := fun hwire htaken hserved =>
    hput [] (by rw [hwire, List.append_nil]) htaken.symm (by simp) hserved
  unfold step at hs
  split_ifs at hs
  cases a with
  | createFile =>
    cases hs
    exact hkeep rfl rfl rfl
  | closeHandle h =>
    cases hs
    refine hkeep ?_ rfl rfl
    unfold hookCloseHandle
    split <;> rfl
  | deviceIoControl h code input outSize ov =>
    cases hs
    refine hkeep ?_ rfl rfl
    unfold hookDeviceIoControl
    split <;> rfl
  | readFile h ov buffer buflen sk =>
    cases hs
    obtain ⟨ds, hwire, hds⟩ := wire_hookReadFile w h ov buffer buflen sk
    refine hput ds hwire ?_ (fun x hx => ?_) rfl
    · refine List.flatMap_eq_nil_iff.2 fun x hx => ?_
      rw [hds x hx]
      rfl
    · rw [hds x hx]
      exact not_shortArgs_regPacket
  | writeFile h buf ov src =>
    obtain ⟨ds, hwire, htaken, hwhole⟩ := hookWriteFile_wire hs ha
    exact hput ds hwire htaken hwhole rfl
  | getOverlappedResult h ov =>
    cases hs
    refine hkeep ?_ rfl rfl
    unfold hookGetOverlappedResult
    split
    · rfl
    · split_ifs
      · rfl
      · split
        · rfl
        · split <;> rfl
  | control cmd args src =>
    cases hs
    refine hput [(src, sendControl cmd args)] rfl (by simp [taken]) (fun x hx => ?_) rfl
    obtain rfl := List.mem_singleton.1 hx
    exact not_shortArgs_control ha
  | poll i =>
    obtain ⟨hw', hfifo⟩ := pollRound_effects hs hw
    exact ⟨hw', hfifo.trans (List.append_nil _).symm⟩

/-- **Once each, and in order.** In every run of the two programs from the start, the frames that have been passed to
`write` on the TAP and the settings that have been changed, followed by what the wire still holds, are the frames the
application has written and the settings it has sent. -/
theorem outbound_fifo {tapActive : Bool} {ov : OvPtr → Overlapped} {buf : RxBuf} (ha : ∀ a ∈ as, a.Callable)
    (hr : run step (World.init tapActive ov buf) as = some w) :
    Refine.performed step served (World.init tapActive ov buf) as ++ w.wire.flatMap (fun x => effectsOf x.2) =
      Refine.performed step taken (World.init tapActive ov buf) as := by
  have hstart : WholeArgs (World.init tapActive ov buf) := fun x hx => by cases hx
  have hg : Guarded step (fun _ a => a.Callable) (World.init tapActive ov buf) as := guarded_of_forall ha
  exact Refine.performed_fifo (I := WholeArgs) (fun _ _ _ hw ha hs => step_fifo hw ha hs) hg hstart hr

/-- A frame is written while the bridge is busy, then the link is set up; the bridge comes to the first of these. -/
def writeThenUp : List Act :=
  [.createFile, .writeFile 0x1001 (framed broadcastFrame) none (some ⟨0x0100007F, 40000⟩),
    .poll ⟨some .eintr, none, some none, fun f => .ok f.length⟩, .control .linkUp [] ⟨0x0100007F, 40001⟩, .poll .datagram]

theorem outbound_fifo_writeThenUp : ∃ w : World,
    run step (World.init true (fun _ => ⟨0, 0⟩) (RxBuf.filled 0)) writeThenUp = some w ∧
    Refine.performed step served (World.init true (fun _ => ⟨0, 0⟩) (RxBuf.filled 0)) writeThenUp ++
      w.wire.flatMap (fun x => effectsOf x.2) = [.frame broadcastFrame, .change .linkUp] ∧ w.wire.length = 1 := by
  have hbuf : (framed broadcastFrame).length < 2 ^ 32 := by decide
  have hcall : ∀ a ∈ writeThenUp, a.Callable := by
    simp only [writeThenUp, List.forall_mem_cons]
    exact ⟨trivial, hbuf, trivial, rfl, trivial, by simp⟩
  have hlen : (run step (World.init true (fun _ => ⟨0, 0⟩) (RxBuf.filled 0)) writeThenUp).map
      (fun w => w.wire.length) = some 1 := by rfl
  obtain ⟨w, hr, hw⟩ := Option.map_eq_some_iff.1 hlen
  exact ⟨w, hr, (outbound_fifo hcall hr).trans rfl, hw⟩

end Rvpn
