import Rvpn.Bridge.Main

/-!
# When the bridge stops (linux_tap.c:261-368)

`loop` runs the rounds until one of them breaks out. The exits the source means to have are
`PollFails` and `TapEnds`; `FatalWrite` is the third one, a datagram of type `0x00` whose frame the
TAP refuses with an error other than `EIO` and `ENETDOWN`.

* `round_goesOn_iff` — one round ends the loop exactly at these three;
* `loop_left_iff` — over a whole run, the loop is left only by the first two exactly when no
  `FatalWrite` comes before them.
-/

namespace Rvpn

/-- What a run of the loop comes to. -/
inductive LoopOut where
  | running (b : Bridge)
  /-- Left in the round with this input. -/
  | left (i : RoundIn)

def loop (b : Bridge) : List RoundIn → LoopOut
  | [] => .running b
  | i :: is => if (round b i).goesOn then loop (round b i).st is else .left i

/-- `poll` fails, other than by a signal. -/
def PollFails (i : RoundIn) : Prop := ∃ e, i.poll = some e ∧ e ≠ .eintr

/-- Reading the TAP fails for good, or gives nothing. -/
def TapEnds (i : RoundIn) : Prop :=
  i.poll = none ∧ ((∃ e, i.tap = some (.error e) ∧ tolerated e = false) ∨ i.tap = some (.ok []))

/-- The round comes to its UDP part. -/
def ReachesUdp (i : RoundIn) : Prop :=
  i.poll = none ∧ (i.tap = none ∨ ∃ f, i.tap = some (.ok f) ∧ f ≠ [])

/-- A frame datagram is received and the TAP refuses the frame, with neither `EIO` nor `ENETDOWN`. -/
def FatalWrite (i : RoundIn) : Prop :=
  ReachesUdp i ∧ ∃ src f e, i.udp = some (.ok (src, 0x00 :: f)) ∧
    i.write (f.take maxFrame) = .error e ∧ tolerated e = false

/-! ## One round -/

variable {b : Bridge} {i : RoundIn}

theorem tapToUdp_brk_iff : (tapToUdp b i).2.2 = .brk ↔
    (∃ e, i.tap = some (.error e) ∧ tolerated e = false) ∨ i.tap = some (.ok []) := by
  cases ht : i.tap with
  | none => simp [tapToUdp, ht]
  | some r =>
    cases r with
    | error e =>
      cases he : tolerated e <;> simp [tapToUdp, ht, he]
    | ok f =>
      by_cases hf : f = []
      · subst hf
        simp [tapToUdp, ht]
      · rw [tapToUdp_frame ht hf]
        simp [hf]

theorem tapToUdp_fall_iff : (tapToUdp b i).2.2 = .fall ↔
    i.tap = none ∨ ∃ f, i.tap = some (.ok f) ∧ f ≠ [] := by
  cases ht : i.tap with
  | none => simp [tapToUdp, ht]
  | some r =>
    cases r with
    | error e =>
      cases he : tolerated e <;> simp [tapToUdp, ht, he]
    | ok f =>
      by_cases hf : f = []
      · subst hf
        simp [tapToUdp, ht]
      · rw [tapToUdp_frame ht hf]
        simp [hf]

theorem udpToTap_brk_iff : (udpToTap b i).2.2.2 = .brk ↔
    ∃ src f e, i.udp = some (.ok (src, 0x00 :: f)) ∧ i.write (f.take maxFrame) = .error e ∧
      tolerated e = false := by
  cases hu : i.udp with
  | none => simp [udpToTap, hu]
  | some r =>
    rcases r with e | ⟨src, d⟩
    · simp [udpToTap, hu]
    cases d with
    | nil =>
      rw [udpToTap_nil hu]
      simp
    | cons t f =>
      by_cases h0 : t = 0x00
      · subst h0
        rw [udpToTap_frame hu]
        cases hw : i.write (f.take maxFrame) with
        | error e =>
          cases he : tolerated e <;> simp [he, hw]
        | ok k => simp [hw]
      · by_cases h1 : t = 0x01
        · subst h1
          cases f with
          | nil =>
            rw [udpToTap_noCmd hu]
            simp
          | cons cmd args =>
            rw [udpToTap_control hu]
            simp
        · rw [udpToTap_other hu h0 h1]
          simp [h0]

/-- **The three exits**: where one round leaves the loop. -/
theorem round_goesOn_iff : (round b i).goesOn = false ↔ PollFails i ∨ TapEnds i ∨ FatalWrite i := by
  unfold round PollFails TapEnds FatalWrite ReachesUdp
  cases hp : i.poll with
  | some e => simp
  | none =>
    rw [← tapToUdp_brk_iff (b := b), ← tapToUdp_fall_iff (b := b)]
    rcases hr : tapToUdp b i with ⟨b', sends, flow⟩
    cases flow with
    | fall =>
      rw [← udpToTap_brk_iff (b := b')]
      simp
    | cont => simp
    | brk => simp

theorem FatalWrite.not_others (h : FatalWrite i) : ¬ PollFails i ∧ ¬ TapEnds i := by
  obtain ⟨⟨hp, ht⟩, -⟩ := h
  constructor
  · rintro ⟨e, he, -⟩
    rw [hp] at he
    cases he
  · rintro ⟨-, ⟨e, he, -⟩ | he⟩
    · rcases ht with ht | ⟨f, ht, -⟩ <;> rw [ht] at he <;> cases he
    · rcases ht with ht | ⟨f, ht, hf⟩
      · rw [ht] at he
        cases he
      · rw [ht] at he
        cases he
        exact hf rfl

/-! ## A whole run -/

/-- **When the bridge stops**: a run of any length leaves the loop only by a poll failure or an ended
TAP exactly when, before the first of these, no frame datagram meets a write that fails for good. -/
theorem loop_left_iff (b : Bridge) (is : List RoundIn) :
    (∀ i, loop b is = .left i → PollFails i ∨ TapEnds i) ↔
      ∀ pre i post, is = pre ++ i :: post → (∀ j ∈ pre, ¬ PollFails j ∧ ¬ TapEnds j) → ¬ FatalWrite i := by
  induction is generalizing b with
  | nil =>
    constructor
    · intro _ pre i post h
      simp at h
    · intro _ i h
      cases h
  | cons j is ih =>
    cases hg : (round b j).goesOn with
    | false =>
      have hloop : loop b (j :: is) = .left j := by simp [loop, hg]
      constructor
      · intro h pre i post he hpre hw
        cases pre with
        | nil =>
          obtain ⟨rfl, -⟩ : j = i ∧ is = post := by simpa using he
          rcases h j hloop with h | h
          · exact hw.not_others.1 h
          · exact hw.not_others.2 h
        | cons k pre =>
          obtain ⟨rfl, -⟩ : j = k ∧ is = pre ++ i :: post := by simpa using he
          obtain ⟨hp, ht⟩ := hpre j (by simp)
          rcases h j hloop with h | h
          · exact hp h
          · exact ht h
      · intro h i hi
        obtain rfl : j = i := by simpa [hloop] using hi
        rcases round_goesOn_iff.1 hg with hp | ht | hw
        · exact .inl hp
        · exact .inr ht
        · exact absurd hw (h [] j is rfl (by simp))
    | true =>
      have hloop : loop b (j :: is) = loop (round b j).st is := by simp [loop, hg]
      have hnot : ¬ (PollFails j ∨ TapEnds j ∨ FatalWrite j) := by
        intro h
        rw [round_goesOn_iff.2 h] at hg
        cases hg
      rw [hloop, ih (round b j).st]
      constructor
      · intro h pre i post he hpre
        cases pre with
        | nil =>
          obtain ⟨rfl, -⟩ : j = i ∧ is = post := by simpa using he
          exact fun hw => hnot (.inr (.inr hw))
        | cons k pre =>
          obtain ⟨rfl, htl⟩ : j = k ∧ is = pre ++ i :: post := by simpa using he
          exact h pre i post htl fun m hm => hpre m (by simp [hm])
      · intro h pre i post he hpre
        refine h (j :: pre) i post (by simp [he]) fun m hm => ?_
        rcases List.mem_cons.1 hm with rfl | hm
        · exact ⟨fun hp => hnot (.inl hp), fun ht => hnot (.inr (.inl ht))⟩
        · exact hpre m hm

/-- One datagram of a single byte `0x00`: the empty frame is refused with `EINVAL`, and the loop is left. -/
theorem loop_left_by_datagram :
    ∃ i, loop (Bridge.init (RxBuf.filled 0)) [.datagram ⟨0x0100007F, 40000⟩ [0x00] fun _ => .error .einval] = .left i ∧
      ¬ (PollFails i ∨ TapEnds i) := by
  have hw : FatalWrite (.datagram ⟨0x0100007F, 40000⟩ [0x00] fun _ => .error .einval) :=
    ⟨⟨rfl, .inl rfl⟩, _, [], _, rfl, rfl, rfl⟩
  refine ⟨_, ?_, not_or.2 hw.not_others⟩
  unfold loop
  rw [round_goesOn_iff.2 (.inr (.inr hw))]
  rfl

end Rvpn
