import Rvpn.Device.Sockets

/-!
# Frames through the three programs

A frame out: `Hook_WriteFile` checks the announced length against the buffer, `TapClientSendFrame` against
2048, and the bridge receives the datagram, with its type byte, in 2048 bytes. A frame in: the bridge
reads at most 2047 bytes behind the type byte, and `Hook_GetOverlappedResult` puts the header and the frame
into the caller's buffer, as far as it reaches.

* `outbound_iff` — what the bridge writes to the TAP is the announced frame exactly for frames of up to
  2047 bytes (and for those no datagram can carry);
* `inbound_iff` — what a completed read hands out is one framed message exactly if the caller's buffer
  holds the header and the frame.
-/

namespace Rvpn

open Lts

/-! ## Frames out -/

/-- `TapClientSendFrame` (`tap_client_udp.c:91-137`): the datagram it sends, or `none` inside where it returns
-1 before. `frame` is what is readable behind the pointer; the outer `none` is the read past it. -/
def tapClientSendFrame (active : Bool) (frame : Option (List UInt8)) (len : Int) : Option (Option (List UInt8)) :=
  if !active then some none
  else if len ≤ 0 ∨ 2048 < len then some none
  else match frame with
    | none => some none
    | some bytes =>
      if len.toNat ≤ bytes.length then some (some (frameDatagram (bytes.take len.toNat))) else none

/-- The frame a buffer announces to `Hook_WriteFile`. -/
def announced (buf : List UInt8) : List UInt8 := (buf.drop radminHeaderSize).take (radminHeaderRead buf).toNat

/-- `Hook_WriteFile` forwards the buffer, and the sum in its check does not wrap. -/
def Accepts (buf : List UInt8) : Prop :=
  radminHeaderSize ≤ buf.length ∧ radminHeaderSize + (radminHeaderRead buf).toNat ≤ buf.length

/-- A frame with its header in front. -/
def framed (f : List UInt8) : List UInt8 := radminHeaderWrite (UInt32.ofNat f.length) ++ f

/-- Every round of the bridge that receives the datagram passes exactly the frame to `write`. -/
def WritesIntact (d frame : List UInt8) : Prop :=
  ∀ b i src, i.udp = some (.ok (src, d)) → (round b i).recvd = true → (round b i).writes = [frame]

theorem length_announced {buf : List UInt8} (h : Accepts buf) :
    (announced buf).length = (radminHeaderRead buf).toNat := by
  obtain ⟨h1, h2⟩ := h
  rw [announced, List.length_take, List.length_drop]
  omega

@[simp] theorem length_framed (f : List UInt8) : (framed f).length = radminHeaderSize + f.length := by
  rw [framed, List.length_append, length_radminHeaderWrite]

/-- The header announces the frame behind it, whatever follows. -/
theorem radminHeaderRead_framed {f : List UInt8} (hf : f.length < 2 ^ 32) (rest : List UInt8) :
    (radminHeaderRead (framed f ++ rest)).toNat = f.length := by
  rw [framed, List.append_assoc, radminHeaderRead_write]
  exact UInt32.toNat_ofNat_of_lt' hf

theorem accepts_framed {f : List UInt8} (hf : f.length < 2 ^ 32) : Accepts (framed f) ∧ announced (framed f) = f := by
  have hread : (radminHeaderRead (framed f)).toNat = f.length := by
    simpa using radminHeaderRead_framed hf []
  refine ⟨⟨?_, ?_⟩, ?_⟩
  · rw [length_framed]
    omega
  · rw [length_framed, hread]
  · rw [announced, hread, framed, List.drop_left' (length_radminHeaderWrite _), List.take_length]

/-- What `Hook_WriteFile` sends for a buffer it accepts. -/
theorem hookWriteFile_accepts {w : World} {h : Handle} {ctx : HandleContext} {buf : List UInt8}
    (hctx : getHandleContext w.handleList h = some ctx) (hact : w.tapActive = true) (hlen : buf.length < 2 ^ 32)
    (ha : Accepts buf) (ov : Option OvPtr) (src : SockAddr) :
    ∃ w', hookWriteFile w h buf ov (some src) = some w' ∧ w'.wire = w.wire ++
      (if (radminHeaderRead buf).toNat < maxUdpPayload then [(src, frameDatagram (announced buf))] else []) := by
  have hfl := length_announced ha
  obtain ⟨h1, h2⟩ := id ha
  have hsize : radminHeaderSize = 8 := rfl
  have hn : (UInt32.ofNat buf.length).toNat = buf.length := UInt32.toNat_ofNat_of_lt' hlen
  have hcheck : w.tapActive = true ∧ UInt32.ofNat radminHeaderSize ≤ UInt32.ofNat buf.length ∧
      radminHeaderRead buf + UInt32.ofNat radminHeaderSize ≤ UInt32.ofNat buf.length := by
    refine ⟨hact, ?_, ?_⟩
    · rw [UInt32.le_iff_toNat_le, hn]
      exact h1
    · rw [UInt32.le_iff_toNat_le, hn, UInt32.toNat_add, hsize]
      have h8 : (UInt32.ofNat 8).toNat = 8 := rfl
      rw [h8]
      omega
  unfold hookWriteFile
  rw [hctx]
  simp only [if_pos hcheck, if_pos h2]
  refine ⟨_, rfl, ?_⟩
  have hfr : (buf.drop radminHeaderSize).take (radminHeaderRead buf).toNat = announced buf := rfl
  rw [hfr, hfl]
  cases ov <;> by_cases hu : (radminHeaderRead buf).toNat < maxUdpPayload <;> simp [hu]

/-- A round that receives a frame datagram writes the frame, as far as the buffer holds it. -/
theorem round_frame {b : Bridge} {i : RoundIn} {src : SockAddr} {f : List UInt8}
    (hu : i.udp = some (.ok (src, frameDatagram f))) (hr : (round b i).recvd = true) :
    (round b i).writes = [f.take maxFrame] := by
  cases hp : i.poll with
  | some e => simp [round, hp] at hr
  | none =>
    rcases ht : tapToUdp b i with ⟨b', sends, flow⟩
    cases flow with
    | fall =>
      rw [round_of_fall hp ht, udpToTap_frame hu]
    | cont => simp [round, hp, ht] at hr
    | brk => simp [round, hp, ht] at hr

/-- **The bridge's bound**: a frame of up to 2047 bytes passes, a longer one is cut. -/
theorem writesIntact_iff (f : List UInt8) : WritesIntact (frameDatagram f) f ↔ f.length ≤ maxFrame := by
  constructor
  · intro h
    let i : RoundIn := .datagram ⟨0, 0⟩ (frameDatagram f) fun _ => .ok 0
    have hw := h (Bridge.init (RxBuf.filled 0)) i ⟨0, 0⟩ rfl rfl
    have hcut : (round (Bridge.init (RxBuf.filled 0)) i).writes = [f.take maxFrame] := round_frame rfl rfl
    rw [hcut] at hw
    have hlen := congrArg List.length (List.cons.inj hw).1
    rw [List.length_take] at hlen
    omega
  · intro hle b i src hu hr
    rw [round_frame hu hr, List.take_of_length_le hle]

/-- **Outbound integrity**, for the two senders. -/
theorem outbound_iff (w : World) (h : Handle) (ctx : HandleContext) (buf : List UInt8) (ov : Option OvPtr) (src : SockAddr)
    (frame : List UInt8) (len : Int) (d : List UInt8) :
    (getHandleContext w.handleList h = some ctx → w.tapActive = true → buf.length < 2 ^ 32 → Accepts buf →
      ∃ w', hookWriteFile w h buf ov (some src) = some w' ∧ (announced buf).length = (radminHeaderRead buf).toNat ∧
        ((∀ d, w'.wire = w.wire ++ [(src, d)] → WritesIntact d (announced buf)) ↔
          (radminHeaderRead buf).toNat ≤ maxFrame ∨ maxUdpPayload ≤ (radminHeaderRead buf).toNat)) ∧
    (tapClientSendFrame true (some frame) len = some (some d) →
      (frame.take len.toNat).length = len.toNat ∧ (WritesIntact d (frame.take len.toNat) ↔ len ≤ maxFrame)) := by
  constructor
  · intro hctx hact hlen ha
    obtain ⟨w', hw', hwire⟩ := hookWriteFile_accepts hctx hact hlen ha ov src
    refine ⟨w', hw', length_announced ha, ?_⟩
    rw [hwire]
    by_cases hu : (radminHeaderRead buf).toNat < maxUdpPayload
    · rw [if_pos hu]
      have hd : ∀ d, w.wire ++ [(src, frameDatagram (announced buf))] = w.wire ++ [(src, d)] ↔
          d = frameDatagram (announced buf) := by
        intro d
        simp [eq_comm]
      simp only [hd, forall_eq, writesIntact_iff, length_announced ha]
      omega
    · rw [if_neg hu]
      have hno : ∀ d, ¬ w.wire ++ [] = w.wire ++ [(src, d)] := by
        intro d
        simp
      constructor
      · intro _
        exact .inr (Nat.le_of_not_lt hu)
      · intro _ d hd
        exact absurd hd (hno d)
  · intro hd
    have hsent : 0 < len ∧ len.toNat ≤ frame.length ∧ d = frameDatagram (frame.take len.toNat) := by
      by_cases hrange : len ≤ 0 ∨ 2048 < len
      · simp [tapClientSendFrame, hrange] at hd
      · by_cases hfit : len.toNat ≤ frame.length
        · simp only [tapClientSendFrame, Bool.not_true, Bool.false_eq_true, if_false, if_neg hrange, if_pos hfit,
            Option.some.injEq] at hd
          exact ⟨by omega, hfit, hd.symm⟩
        · simp only [tapClientSendFrame, Bool.not_true, Bool.false_eq_true, if_false, if_neg hrange, if_neg hfit] at hd
          cases hd
    obtain ⟨hpos, hfit, rfl⟩ := hsent
    have hlen : (frame.take len.toNat).length = len.toNat := by
      rw [List.length_take]
      omega
    refine ⟨hlen, ?_⟩
    rw [writesIntact_iff, hlen]
    omega

/-- A frame of 2047 bytes. -/
def longestWhole : List UInt8 := List.replicate 2047 0

/-- It passes through both senders. -/
theorem outbound_iff_longest :
    (∃ w', hookWriteFile filteredWorld 0x1001 (framed longestWhole) none (some ⟨0x0100007F, 40001⟩) = some w' ∧
      ∀ d, w'.wire = filteredWorld.wire ++ [(⟨0x0100007F, 40001⟩, d)] → WritesIntact d longestWhole) ∧
    ∀ d, tapClientSendFrame true (some longestWhole) 2047 = some (some d) → WritesIntact d longestWhole := by
  have hlen : longestWhole.length = 2047 := List.length_replicate
  obtain ⟨hacc, hann⟩ := accepts_framed (f := longestWhole) (by omega)
  have hread := length_announced hacc
  rw [hann, hlen] at hread
  constructor
  · obtain ⟨w', hw', -, hiff⟩ := (outbound_iff filteredWorld 0x1001 _ (framed longestWhole) none
      ⟨0x0100007F, 40001⟩ [] 0 []).1 rfl rfl (by rw [length_framed, hlen]; decide) hacc
    rw [hann, ← hread] at hiff
    exact ⟨w', hw', hiff.2 (.inl (by decide))⟩
  · intro d hd
    have htake : longestWhole.take (Int.toNat 2047) = longestWhole := List.take_of_length_le hlen.le
    have hiff := ((outbound_iff filteredWorld 0x1001 (.fresh 0x1001) [] none ⟨0x0100007F, 40001⟩ _ _ d).2 hd).2
    rw [htake] at hiff
    exact hiff.2 (by decide)

/-- A frame of 2048 bytes. -/
def shortestCut : List UInt8 := List.replicate 2048 0

/-- **A frame that is cut**: both senders send it, and the bridge does not write what was announced. -/
theorem shortest_cut :
    Accepts (framed shortestCut) ∧ announced (framed shortestCut) = shortestCut ∧
    (∃ w', hookWriteFile filteredWorld 0x1001 (framed shortestCut) none (some ⟨0x0100007F, 40001⟩) = some w' ∧
      w'.wire = filteredWorld.wire ++ [(⟨0x0100007F, 40001⟩, frameDatagram shortestCut)]) ∧
    tapClientSendFrame true (some shortestCut) 2048 = some (some (frameDatagram shortestCut)) ∧
    ¬ WritesIntact (frameDatagram shortestCut) shortestCut := by
  have hlen : shortestCut.length = 2048 := List.length_replicate
  obtain ⟨hacc, hann⟩ := accepts_framed (f := shortestCut) (by omega)
  have hread := length_announced hacc
  rw [hann, hlen] at hread
  refine ⟨hacc, hann, ?_, ?_, ?_⟩
  · obtain ⟨w', hw', hwire⟩ := hookWriteFile_accepts (w := filteredWorld) (h := 0x1001) rfl rfl
      (by rw [length_framed, hlen]; decide) hacc none ⟨0x0100007F, 40001⟩
    rw [← hread, if_pos (by decide), hann] at hwire
    exact ⟨w', hw', hwire⟩
  · have htake : shortestCut.take 2048 = shortestCut := List.take_of_length_le hlen.le
    simp [tapClientSendFrame, hlen, htake]
  · rw [writesIntact_iff, hlen]
    decide

/-! ## Frames in -/

/-- A frame of the TAP as the bridge reads it. -/
def TapFrame (f : List UInt8) : Prop := f ≠ [] ∧ f.length ≤ maxFrame

instance (f : List UInt8) : Decidable (TapFrame f) := inferInstanceAs (Decidable (_ ∧ _))

/-- What waits for the reads is frames of the TAP, as the bridge has read them. -/
structure FramesOnly (w : World) : Prop where
  tap : ∀ f ∈ w.tapLog, TapFrame f
  queues : ∀ r, ∀ d ∈ queueOf w.socks r, d.bytes = frameDatagram d.frame ∧ w.tapLog[d.seq]? = some d.frame

theorem FramesOnly.congr {w w' : World} (hf : FramesOnly w) (hlog : w'.tapLog = w.tapLog)
    (hq : ∀ r, ∀ d ∈ queueOf w'.socks r, ∃ r', d ∈ queueOf w.socks r') : FramesOnly w' where
  tap := by rw [hlog]; exact hf.tap
  queues r d hd := by
    obtain ⟨r', h⟩ := hq r d hd
    rw [hlog]
    exact hf.queues r' d h

theorem frameRead_tapFrame {i : RoundIn} {f : List UInt8} (h : i.frameRead = some f) : TapFrame f := by
  unfold RoundIn.frameRead at h
  split at h
  · next g _ _ =>
    split_ifs at h with hne
    cases h
    have hpos := List.length_pos_iff.2 hne
    refine ⟨?_, List.length_take_le _ _⟩
    rw [← List.length_pos_iff, List.length_take]
    have hmax : maxFrame = 2047 := rfl
    omega
  · cases h

theorem framesOnly_poll {w w' : World} (hf : FramesOnly w) {i : PollIn} (hs : pollRound w i = some w') :
    FramesOnly w' := by
  have htap : ∀ f ∈ w'.tapLog, TapFrame f := by
    unfold pollRound at hs
    split_ifs at hs
    obtain ⟨r, -, rfl⟩ := Option.map_eq_some_iff.1 hs
    intro f hmem
    rcases List.mem_append.1 hmem with hmem | hmem
    · exact hf.tap f hmem
    · exact frameRead_tapFrame (Option.mem_toList.1 hmem)
  obtain ⟨fr, src, hlog, hqueue, -⟩ := pollRound_spec hs
  refine ⟨htap, fun r d hd => ?_⟩
  rw [hqueue] at hd
  rw [hlog]
  rcases List.mem_append.1 hd with hd | hd
  · obtain ⟨hb, hget⟩ := hf.queues r d hd
    have hlt := (List.getElem?_eq_some_iff.1 hget).1
    exact ⟨hb, by rw [List.getElem?_append_left hlt, hget]⟩
  · unfold copyFor at hd
    split at hd
    · cases hd
    · split at hd
      · cases hd
      · split_ifs at hd
        · obtain rfl := List.mem_singleton.1 hd
          exact ⟨rfl, by simp [Dgram.frame, frameDatagram]⟩
        · cases hd

theorem framesOnly_step {w w' : World} (hf : FramesOnly w) {a : Act} (hs : step w a = some w') : FramesOnly w' := by
  unfold step at hs
  split_ifs at hs
  cases a with
  | createFile =>
    obtain rfl := Option.some.inj hs
    exact hf.congr rfl fun r d hd => ⟨r, hd⟩
  | closeHandle h =>
    obtain rfl := Option.some.inj hs
    unfold hookCloseHandle
    split
    · exact hf
    · exact hf.congr rfl fun r d hd => ⟨r, hd⟩
  | deviceIoControl h code input outSize ov =>
    obtain rfl := Option.some.inj hs
    unfold hookDeviceIoControl
    split
    · exact hf
    · exact hf.congr rfl fun r d hd => ⟨r, hd⟩
  | readFile h ov buffer buflen sk =>
    obtain rfl := Option.some.inj hs
    unfold hookReadFile
    split
    · exact hf
    · split_ifs
      · exact hf
      · cases ov with
        | none => exact hf
        | some ov => exact hf.congr rfl fun r d hd => ⟨r, by simpa only [queueOf_open] using hd⟩
  | writeFile h buf ov src =>
    obtain ⟨pkt, rfl, -⟩ := hookWriteFile_spec hs
    exact hf.congr rfl fun r d hd => ⟨r, hd⟩
  | getOverlappedResult h ov =>
    obtain rfl := Option.some.inj hs
    rcases getOverlappedResult_cases w h ov with he | ⟨ctx, req, rest, -, -, -, ⟨rx, hl, he⟩ | ⟨x, rx, -, he⟩⟩
    · rwa [he]
    · rw [he]
      refine hf.congr rfl fun r d hd => ?_
      simp only [gorIncomplete, queueOf_setRx] at hd
      split_ifs at hd
      · have hsuf := recvLoop_suffix ctx (queueOf w.socks req)
        rw [hl] at hsuf
        exact ⟨req, hsuf.subset hd⟩
      · exact ⟨r, hd⟩
    · rw [he]
      refine hf.congr rfl fun r d hd => ?_
      simp only [gorComplete, queueOf_closeSock] at hd
      split_ifs at hd
      · cases hd
      · exact ⟨r, hd⟩
  | control cmd args src =>
    obtain rfl := Option.some.inj hs
    exact hf.congr rfl fun r d hd => ⟨r, hd⟩
  | poll i => exact framesOnly_poll hf hs

theorem World.Reachable.framesOnly {w : World} (h : w.Reachable) : FramesOnly w := by
  obtain ⟨tapActive, ov, buf, as, hr⟩ := h
  have hinit : FramesOnly (World.init tapActive ov buf) := by
    refine ⟨by simp [World.init], fun r d hd => ?_⟩
    have hempty : queueOf (World.init tapActive ov buf).socks r = [] := by
      unfold queueOf sockOf
      cases r.sock <;> rfl
    rw [hempty] at hd
    cases hd
  exact run_invariant (I := FramesOnly) (fun _ _ _ hf hs => framesOnly_step hf hs) hinit hr

/-- The caller's memory after the bytes `copied` have been put in front of it. -/
def filled (copied old : List UInt8) : List UInt8 := copied ++ old.drop copied.length

/-- The first `T` bytes are a header and, behind it, the frame it announces. -/
def SelfConsistent (T : Nat) (buffer frame : List UInt8) : Prop :=
  T = radminHeaderSize + (radminHeaderRead buffer).toNat ∧ (buffer.take T).drop radminHeaderSize = frame

/-- `Hook_WriteFile` would take the `T` bytes and forward the frame. -/
def Resendable (T : Nat) (buffer frame : List UInt8) : Prop :=
  Accepts (buffer.take T) ∧ announced (buffer.take T) = frame

/-- **A message cut to `n` bytes** is consistent, and can be sent again, exactly if nothing was cut. -/
theorem cut_iff {f : List UInt8} (hf : TapFrame f) (n : Nat) (old : List UInt8) :
    (SelfConsistent ((framed f).take n).length (filled ((framed f).take n) old) f ↔ radminHeaderSize + f.length ≤ n) ∧
    (Resendable ((framed f).take n).length (filled ((framed f).take n) old) f ↔ radminHeaderSize + f.length ≤ n) := by
  have hlen : f.length < 2 ^ 32 := by
    have hle := hf.2
    have hmax : maxFrame = 2047 := rfl
    omega
  have htake : (filled ((framed f).take n) old).take ((framed f).take n).length = (framed f).take n := List.take_left
  by_cases hn : radminHeaderSize + f.length ≤ n
  · have hwhole : (framed f).take n = framed f := List.take_of_length_le (by rwa [length_framed])
    rw [hwhole] at htake ⊢
    refine ⟨iff_of_true ⟨?_, ?_⟩ hn, iff_of_true ?_ hn⟩
    · rw [filled, radminHeaderRead_framed hlen, length_framed]
    · rw [htake, framed, List.drop_left' (length_radminHeaderWrite _)]
    · rw [Resendable, htake]
      exact accepts_framed hlen
  · -- what is left of the frame is too short
    have hshort : (((framed f).take n).drop radminHeaderSize).length < f.length := by
      have hpos := List.length_pos_iff.2 hf.1
      rw [List.length_drop, List.length_take]
      omega
    refine ⟨iff_of_false ?_ hn, iff_of_false ?_ hn⟩
    · rintro ⟨-, hframe⟩
      rw [htake] at hframe
      rw [hframe] at hshort
      exact Nat.lt_irrefl _ hshort
    · rintro ⟨-, hframe⟩
      rw [htake] at hframe
      have hle := congrArg List.length hframe
      rw [announced, List.length_take] at hle
      omega

/-- **Inbound framing**: a completed read reports `T` bytes of a frame the TAP has delivered, and these are one
framed message, that `Hook_WriteFile` would forward again, exactly if the caller's buffer holds the header and
the frame. -/
theorem inbound_iff {w w' : World} (hw : w.Reachable) (h : Handle) (ov : OvPtr) {x : Delivery}
    (hs : step w (.getOverlappedResult h ov) = some w') (hx : w'.delivered = w.delivered ++ [x]) :
    ∃ ctx req rest, getHandleContext w.handleList h = some ctx ∧ unlinkReq ov ctx.pending = (some req, rest) ∧
      w.tapLog[x.seq]? = some x.frame ∧ 1 ≤ x.frame.length ∧ x.frame.length ≤ maxFrame ∧
      ∀ old, (SelfConsistent (w'.ov req.ov).internalHigh.toNat (filled x.copied old) x.frame ↔
          radminHeaderSize + x.frame.length ≤ req.buflen.toNat) ∧
        (Resendable (w'.ov req.ov).internalHigh.toNat (filled x.copied old) x.frame ↔
          radminHeaderSize + x.frame.length ≤ req.buflen.toNat) := by
  unfold step at hs
  split_ifs at hs
  obtain rfl := Option.some.inj hs
  rcases getOverlappedResult_cases w h ov with he | ⟨ctx, req, rest, hctx, -, hun, ⟨rx, -, he⟩ | ⟨d, rx, hl, he⟩⟩
  · rw [he] at hx
    simp at hx
  · rw [he] at hx
    simp [gorIncomplete] at hx
  · rw [he] at hx ⊢
    obtain rfl : deliveryOf ctx req d = x := by simpa [gorComplete] using hx
    obtain ⟨pre, hq, -, -⟩ := recvLoop_deliverable hl
    have hf := hw.framesOnly
    obtain ⟨hbytes, hget⟩ := hf.queues req d (by rw [hq]; simp)
    have htap : TapFrame d.frame := hf.tap _ (List.mem_of_getElem? hget)
    have hcopied : copyOut d req.buflen = (framed d.frame).take req.buflen.toNat := rfl
    have hT : (UInt32.ofNat ((framed d.frame).take req.buflen.toNat).length).toNat =
        ((framed d.frame).take req.buflen.toNat).length := by
      apply UInt32.toNat_ofNat_of_lt'
      have hle := htap.2
      have hmax : maxFrame = 2047 := rfl
      have hsize : radminHeaderSize = 8 := rfl
      have h32 : UInt32.size = 2 ^ 32 := rfl
      rw [List.length_take, length_framed]
      omega
    refine ⟨ctx, req, rest, hctx, hun, hget, List.length_pos_iff.2 htap.1, htap.2, fun old => ?_⟩
    simp only [gorComplete, Function.update_self, deliveryOf, hcopied, hT]
    exact cut_iff htap req.buflen.toNat old

/-- A read of 2048 bytes gets the broadcast frame whole. -/
theorem inbound_iff_whole : ∃ w w' x, step w (.getOverlappedResult 0x1001 1) = some w' ∧
    w'.delivered = w.delivered ++ [x] ∧ x.frame = broadcastFrame ∧
    ∀ old, SelfConsistent (w'.ov 1).internalHigh.toNat (filled x.copied old) x.frame ∧
      Resendable (w'.ov 1).internalHigh.toNat (filled x.copied old) x.frame := by
  have hreach : (waitingWorld 1).Reachable := by
    obtain ⟨t, ov, buf, hr⟩ := filteredWorld_reachable
    exact ⟨t, ov, buf, hr.trans ⟨registeredRead 1 40001 ++ [.poll (.frame broadcastFrame)], rfl⟩⟩
  refine ⟨waitingWorld 1, _, ⟨0x1001, 1, 0, broadcastFrame, framed broadcastFrame⟩, rfl, rfl, rfl, fun old => ?_⟩
  obtain ⟨ctx, req, rest, hctx, hun, -, -, -, hiff⟩ := inbound_iff (x := ⟨0x1001, 1, 0, broadcastFrame, framed broadcastFrame⟩)
    hreach 0x1001 1 rfl rfl
  cases hctx
  cases hun
  exact ⟨(hiff old).1.2 (by decide), (hiff old).2.2 (by decide)⟩

/-- A pending read of ten bytes with the broadcast frame waiting. -/
def shortRead : List Act :=
  [.readFile 0x1001 (some 1) 0 10 (some (1, ⟨0x0100007F, 40001⟩)), .poll .datagram, .poll (.frame broadcastFrame)]

/-- **A message that is cut**: the read reports ten bytes, and their header announces fourteen more. -/
theorem short_read_cut : ∃ w w', run step filteredWorld shortRead = some w ∧
    step w (.getOverlappedResult 0x1001 1) = some w' ∧ w'.delivered.map Delivery.frame = [broadcastFrame] ∧
    (w'.ov 1).internalHigh = 10 ∧ ∀ old x, w'.delivered = [x] →
      ¬ SelfConsistent (w'.ov 1).internalHigh.toNat (filled x.copied old) broadcastFrame ∧
      ¬ Resendable (w'.ov 1).internalHigh.toNat (filled x.copied old) broadcastFrame := by
  have hf : TapFrame broadcastFrame := by decide
  refine ⟨_, _, rfl, rfl, rfl, rfl, ?_⟩
  intro old x hx
  obtain rfl : _ = x := (List.cons.inj hx).1
  obtain ⟨h1, h2⟩ := cut_iff hf 10 old
  exact ⟨mt h1.1 (by decide), mt h2.1 (by decide)⟩

end Rvpn
