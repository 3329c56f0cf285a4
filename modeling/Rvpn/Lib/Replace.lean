import Rvpn.Lib.Run
import Mathlib.Data.Fintype.Defs
import Mathlib.Logic.Function.Basic

/-!
# Replacing a file that several processes write

Every process writes a new content to the **same** temporary file, block by block, and then renames that file
to the target. The file system shares nothing: a file that is open for writing cannot be opened, renamed or
deleted by another process, and a file that is open for reading cannot be replaced. A process may be killed
at any moment; its files are then closed as they are.

`P` are the processes and `β` the bytes. What is proved:

* `Whole.step` — the target is at every moment what it was first or a content that somebody set out to write,
  and so is what every reader reads, provided that no write falls short and nobody is killed in the middle of
  writing while another process is about to rename (`Calm`), the second of which cannot be left out;
* `move_own` — a rename that succeeds has installed the content of its own process, unless the temporary file
  was created again in between.
-/

namespace Replace

variable {P β : Type}

/-! ## States and steps -/

/-- Where a process is. -/
inductive Pc (β : Type) where
  | idle
  /-- The temporary file is open; the blocks still to be written, and the whole content. -/
  | writing (left : List (List β)) (content : List β)
  /-- The temporary file is written and closed, the rename is next. -/
  | closed
  /-- The rename has failed, the temporary file is deleted next. -/
  | failed
  /-- The target is open, with this content. -/
  | reading (content : List β)
deriving DecidableEq

structure State (P β : Type) where
  target : Option (List β)
  tmp : Option (List β)
  /-- Who has the temporary file open. -/
  writer : Option P
  /-- Who has the target open. -/
  readers : List P
  pc : P → Pc β

/-- Nobody has a file open. -/
def State.start (target tmp : Option (List β)) : State P β := ⟨target, tmp, none, [], fun _ => .idle⟩

inductive Act (P β : Type) where
  /-- The temporary file is created anew; these blocks are to be written. -/
  | create (p : P) (blocks : List (List β))
  /-- The next block, of which at most so many bytes get into the file. -/
  | write (p : P) (written : Nat)
  | close (p : P)
  | move (p : P)
  | moveFails (p : P)
  | delete (p : P)
  | deleteFails (p : P)
  | openTarget (p : P)
  | closeTarget (p : P)
  | kill (p : P)
deriving DecidableEq

variable [DecidableEq P]

def State.to (s : State P β) (p : P) (c : Pc β) : State P β := { s with pc := Function.update s.pc p c }

def step (s : State P β) : Act P β → Option (State P β)
  | .create p blocks =>
    match s.pc p, s.writer with
    | .idle, none => some ({ s with tmp := some [], writer := some p }.to p (.writing blocks blocks.flatten))
    | _, _ => none
  | .write p n =>
    match s.pc p, s.tmp with
    | .writing (b :: bs) content, some done =>
      some ({ s with tmp := some (done ++ b.take n) }.to p (.writing bs content))
    | _, _ => none
  | .close p =>
    match s.pc p with
    | .writing [] _ => some ({ s with writer := none }.to p .closed)
    | _ => none
  | .move p =>
    match s.pc p, s.writer, s.readers, s.tmp with
    | .closed, none, [], some content => some ({ s with target := some content, tmp := none }.to p .idle)
    | _, _, _, _ => none
  | .moveFails p =>
    match s.pc p with
    | .closed => some (s.to p .failed)
    | _ => none
  | .delete p =>
    match s.pc p, s.writer with
    | .failed, none => some ({ s with tmp := none }.to p .idle)
    | _, _ => none
  | .deleteFails p =>
    match s.pc p with
    | .failed => some (s.to p .idle)
    | _ => none
  | .openTarget p =>
    match s.pc p, s.target with
    | .idle, some content => some ({ s with readers := p :: s.readers }.to p (.reading content))
    | _, _ => none
  | .closeTarget p =>
    match s.pc p with
    | .reading _ => some ({ s with readers := s.readers.erase p }.to p .idle)
    | _ => none
  | .kill p =>
    some ({ s with writer := if s.writer = some p then none else s.writer, readers := s.readers.erase p }.to p .idle)

/-! ## The contract -/

/-- The next block is no longer than `n` bytes. -/
def Pc.NextFits (n : Nat) : Pc β → Prop
  | .writing (b :: _) _ => b.length ≤ n
  | _ => True

instance (n : Nat) : (c : Pc β) → Decidable (c.NextFits n)
  | .writing (b :: _) _ => inferInstanceAs (Decidable (b.length ≤ n))
  | .writing [] _ | .idle | .closed | .failed | .reading _ => inferInstanceAs (Decidable True)

/-- No write falls short, and nobody who is writing is killed while another process is about to rename what the
temporary file holds. -/
def Calm (s : State P β) : Act P β → Prop
  | .write p n => (s.pc p).NextFits n
  | .kill p => s.writer = some p → ∀ q, s.pc q ≠ .closed
  | _ => True

instance [Fintype P] [DecidableEq β] (s : State P β) : (a : Act P β) → Decidable (Calm s a)
  | .write p n => inferInstanceAs (Decidable ((s.pc p).NextFits n))
  | .kill p => inferInstanceAs (Decidable (s.writer = some p → ∀ q, s.pc q ≠ .closed))
  | .create .. | .close _ | .move _ | .moveFails _ | .delete _ | .deleteFails _ | .openTarget _ | .closeTarget _ =>
    inferInstanceAs (Decidable True)

/-- The content that an action begins to write. -/
def Act.content : Act P β → Option (List β)
  | .create _ blocks => some blocks.flatten
  | _ => none

/-- **The invariant**, for a property `Q` of contents. The temporary file of a writer is the part written so far;
the temporary file that a closed process is about to rename is whole. -/
structure Whole (Q : List β → Prop) (init : Option (List β)) (s : State P β) : Prop where
  target : s.target = init ∨ ∃ c, s.target = some c ∧ Q c
  writing : ∀ {p left content}, s.pc p = .writing left content →
    s.writer = some p ∧ Q content ∧ ∃ done, s.tmp = some done ∧ done ++ left.flatten = content
  writer : ∀ {p}, s.writer = some p → ∃ left content, s.pc p = .writing left content
  closed : ∀ {p}, s.writer = none → s.pc p = .closed → ∀ c, s.tmp = some c → Q c
  reading : ∀ {p content}, s.pc p = .reading content → p ∈ s.readers ∧ s.target = some content

variable {Q : List β → Prop} {init : Option (List β)} {s t : State P β} {a : Act P β} {as : List (Act P β)} {p q : P}
  {c : Pc β}

@[simp] theorem to_target : (s.to p c).target = s.target := rfl
@[simp] theorem to_tmp : (s.to p c).tmp = s.tmp := rfl
@[simp] theorem to_writer : (s.to p c).writer = s.writer := rfl
@[simp] theorem to_readers : (s.to p c).readers = s.readers := rfl

theorem to_pc : (s.to p c).pc q = if q = p then c else s.pc q := Function.update_apply s.pc p c q

omit [DecidableEq P] in
theorem whole_start (tmp : Option (List β)) : Whole Q init (State.start init tmp : State P β) :=
  ⟨.inl rfl, fun h => by simp [State.start] at h, fun h => by simp [State.start] at h,
    fun _ h => by simp [State.start] at h, fun h => by simp [State.start] at h⟩

/-! ## Steps -/

section
variable (hw : Whole Q init s)
include hw

omit [DecidableEq P] in
/-- Only the writer writes. -/
theorem Whole.not_writing (hnone : s.writer = none) {left : List (List β)} {content : List β} :
    s.pc q ≠ .writing left content := by
  intro h
  have := (hw.writing h).1
  rw [hnone] at this
  cases this

theorem Whole.create {blocks : List (List β)} (hnone : s.writer = none) (hQ : Q blocks.flatten) :
    Whole Q init ({ s with tmp := some [], writer := some p }.to p (.writing blocks blocks.flatten)) where
  target := hw.target
  writing {q left content} h := by
    rw [to_pc] at h
    split at h
    · next hq =>
      cases h
      exact ⟨by rw [hq]; rfl, hQ, [], rfl, rfl⟩
    · exact absurd h (hw.not_writing hnone)
  writer h := by
    cases h
    exact ⟨blocks, _, by rw [to_pc, if_pos rfl]⟩
  closed h := by cases h
  reading {q content} h := by
    rw [to_pc] at h
    split at h
    · cases h
    · exact hw.reading h

theorem Whole.write {b : List β} {left : List (List β)} {content done : List β} (hpc : s.pc p = .writing (b :: left) content)
    (htmp : s.tmp = some done) : Whole Q init ({ s with tmp := some (done ++ b) }.to p (.writing left content)) where
  target := hw.target
  writing {q left' content'} h := by
    obtain ⟨hp, hQ, done', hd, hcontent⟩ := hw.writing hpc
    obtain rfl := Option.some.inj (htmp.symm.trans hd)
    rw [to_pc] at h
    split at h
    · next hq =>
      cases h
      exact ⟨by rw [hq]; exact hp, hQ, done ++ b, rfl, by rw [List.append_assoc]; exact hcontent⟩
    · next hq =>
      -- there is one writer only
      exact absurd (Option.some.inj ((hw.writing h).1.symm.trans hp)) hq
  writer {q} h := by
    obtain rfl : p = q := Option.some.inj ((hw.writing hpc).1.symm.trans h)
    exact ⟨left, content, by rw [to_pc, if_pos rfl]⟩
  closed h _ := by
    have := (hw.writing hpc).1
    rw [show s.writer = none from h] at this
    cases this
  reading {q content} h := by
    rw [to_pc] at h
    split at h
    · cases h
    · exact hw.reading h

theorem Whole.close {content : List β} (hpc : s.pc p = .writing [] content) :
    Whole Q init ({ s with writer := none }.to p .closed) where
  target := hw.target
  writing {q left content'} h := by
    rw [to_pc] at h
    split at h
    · cases h
    · next hq => exact absurd (Option.some.inj ((hw.writing h).1.symm.trans (hw.writing hpc).1)) hq
  writer h := by cases h
  closed _ _ d hd := by
    obtain ⟨-, hQ, done, htmp, hcontent⟩ := hw.writing hpc
    obtain rfl := Option.some.inj (htmp.symm.trans hd)
    rw [List.flatten_nil, List.append_nil] at hcontent
    exact hcontent ▸ hQ
  reading {q content} h := by
    rw [to_pc] at h
    split at h
    · cases h
    · exact hw.reading h

theorem Whole.move {content : List β} (hpc : s.pc p = .closed) (hnone : s.writer = none) (hreaders : s.readers = [])
    (htmp : s.tmp = some content) : Whole Q init ({ s with target := some content, tmp := none }.to p .idle) where
  target := .inr ⟨content, rfl, hw.closed hnone hpc content htmp⟩
  writing {q left content'} h := by
    rw [to_pc] at h
    split at h
    · cases h
    · exact absurd h (hw.not_writing hnone)
  writer {q} h := by
    rw [show s.writer = some q from h] at hnone
    cases hnone
  closed _ _ c hc := by cases hc
  reading {q content} h := by
    rw [to_pc] at h
    split at h
    · cases h
    · have := (hw.reading h).1
      rw [hreaders] at this
      cases this

/-- A process that neither writes nor reads, after the step as before it; the temporary file may be gone if nobody
writes. -/
theorem Whole.park {tmp : Option (List β)} (hnot : ∀ left content, s.pc p ≠ .writing left content)
    (hc : ∀ left content, c ≠ .writing left content) (hread : ∀ content, c ≠ .reading content)
    (hclosed : c = .closed → s.pc p = .closed) (htmp : tmp = s.tmp ∨ s.writer = none ∧ tmp = none) :
    Whole Q init ({ s with tmp := tmp }.to p c) where
  target := hw.target
  writing {q left content} h := by
    rw [to_pc] at h
    split at h
    · exact absurd h (hc left content)
    · rcases htmp with rfl | ⟨hnone, -⟩
      · exact hw.writing h
      · exact absurd h (hw.not_writing hnone)
  writer {q} h := by
    obtain ⟨left, content, hpc⟩ := hw.writer h
    refine ⟨left, content, ?_⟩
    rw [to_pc, if_neg]
    · exact hpc
    · rintro rfl
      exact hnot left content hpc
  closed {q} hnone h d hd := by
    rcases htmp with rfl | ⟨-, rfl⟩
    · rw [to_pc] at h
      split at h
      · exact hw.closed hnone (hclosed h) d hd
      · exact hw.closed hnone h d hd
    · cases hd
  reading {q content} h := by
    rw [to_pc] at h
    split at h
    · exact absurd h (hread content)
    · exact hw.reading h

theorem Whole.openTarget {content : List β} (hpc : s.pc p = .idle) (htarget : s.target = some content) :
    Whole Q init ({ s with readers := p :: s.readers }.to p (.reading content)) where
  target := hw.target
  writing {q left content'} h := by
    rw [to_pc] at h
    split at h
    · cases h
    · exact hw.writing h
  writer {q} h := by
    obtain ⟨left, content', hq⟩ := hw.writer h
    refine ⟨left, content', ?_⟩
    rw [to_pc, if_neg]
    · exact hq
    · rintro rfl
      rw [hpc] at hq
      cases hq
  closed {q} hnone h := by
    rw [to_pc] at h
    split at h
    · cases h
    · exact hw.closed hnone h
  reading {q content'} h := by
    rw [to_pc] at h
    split at h
    · next hq =>
      cases h
      exact ⟨by simp [hq], htarget⟩
    · exact ⟨List.mem_cons_of_mem _ (hw.reading h).1, (hw.reading h).2⟩

/-- A process that is gone: its files are closed. -/
theorem Whole.leave (hcalm : s.writer = some p → ∀ q, s.pc q ≠ .closed) :
    Whole Q init ({ s with writer := if s.writer = some p then none else s.writer,
                           readers := s.readers.erase p }.to p .idle) where
  target := hw.target
  writing {q left content} h := by
    rw [to_pc] at h
    split at h
    · cases h
    · next hq =>
      obtain ⟨hwr, hQ, hdone⟩ := hw.writing h
      refine ⟨?_, hQ, hdone⟩
      show (if s.writer = some p then none else s.writer) = some q
      rw [if_neg (fun hp => hq (Option.some.inj (hwr.symm.trans hp))), hwr]
  writer {q} h := by
    change (if s.writer = some p then none else s.writer) = some q at h
    split at h
    · cases h
    · next hp =>
      obtain ⟨left, content, hpc⟩ := hw.writer h
      refine ⟨left, content, ?_⟩
      rw [to_pc, if_neg]
      · exact hpc
      · rintro rfl
        exact hp h
  closed {q} hnone h d hd := by
    rw [to_pc] at h
    split at h
    · cases h
    · change (if s.writer = some p then none else s.writer) = none at hnone
      split at hnone
      · next hp => exact absurd h (hcalm hp q)
      · exact hw.closed hnone h d hd
  reading {q content} h := by
    rw [to_pc] at h
    split at h
    · cases h
    · next hq => exact ⟨(List.mem_erase_of_ne hq).2 (hw.reading h).1, (hw.reading h).2⟩

end

/-- **One step** of a calm run, whose new content has the property. -/
theorem Whole.step (hw : Whole Q init s) (hcalm : Calm s a) (hQ : ∀ content, a.content = some content → Q content)
    (h : Replace.step s a = some t) : Whole Q init t := by
  cases a with
  | create p blocks =>
    simp only [Replace.step] at h
    split at h
    · next hnone =>
      cases h
      exact hw.create hnone (hQ _ rfl)
    · cases h
  | write p n =>
    simp only [Replace.step] at h
    split at h
    · next b bs content done hpc htmp =>
      cases h
      have hlen : b.length ≤ n := by simpa only [Calm, hpc, Pc.NextFits] using hcalm
      rw [List.take_of_length_le hlen]
      exact hw.write hpc htmp
    · cases h
  | close p =>
    simp only [Replace.step] at h
    split at h
    · next content hpc =>
      cases h
      exact hw.close hpc
    · cases h
  | move p =>
    simp only [Replace.step] at h
    split at h
    · next content hpc hnone hreaders htmp =>
      cases h
      exact hw.move hpc hnone hreaders htmp
    · cases h
  | moveFails p =>
    simp only [Replace.step] at h
    split at h
    · next hpc =>
      cases h
      exact hw.park (by simp [hpc]) (by simp) (by simp) (by simp) (.inl rfl)
    · cases h
  | delete p =>
    simp only [Replace.step] at h
    split at h
    · next hpc hnone =>
      cases h
      exact hw.park (by simp [hpc]) (by simp) (by simp) (by simp) (.inr ⟨hnone, rfl⟩)
    · cases h
  | deleteFails p =>
    simp only [Replace.step] at h
    split at h
    · next hpc =>
      cases h
      exact hw.park (by simp [hpc]) (by simp) (by simp) (by simp) (.inl rfl)
    · cases h
  | openTarget p =>
    simp only [Replace.step] at h
    split at h
    · next content hpc htarget =>
      cases h
      exact hw.openTarget hpc htarget
    · cases h
  | closeTarget p =>
    simp only [Replace.step] at h
    split at h
    · next content hpc =>
      cases h
      have hnot : s.writer ≠ some p := by
        intro hp
        obtain ⟨left, content', hpc'⟩ := hw.writer hp
        rw [hpc] at hpc'
        cases hpc'
      have hleave := hw.leave (p := p) fun hp => absurd hp hnot
      rwa [if_neg hnot] at hleave
    · cases h
  | kill p =>
    simp only [Replace.step, Option.some.injEq] at h
    subst h
    exact hw.leave hcalm

/-- Who is writing a content has set out to write it, or was writing it before. -/
theorem content_of_step (h : Replace.step s a = some t) {left : List (List β)} {content : List β}
    (hpc : t.pc q = .writing left content) :
    (∃ left', s.pc q = .writing left' content) ∨ ∃ blocks, a = .create q blocks ∧ content = blocks.flatten := by
  have hkeep {s' : State P β} {p : P} {c : Pc β} (hs' : s'.pc = s.pc) (hc : ∀ left content, c ≠ .writing left content)
      (hq : (s'.to p c).pc q = .writing left content) : ∃ left', s.pc q = .writing left' content := by
    rw [to_pc, hs'] at hq
    split at hq
    · exact absurd hq (hc left content)
    · exact ⟨left, hq⟩
  cases a with
  | create p blocks =>
    simp only [Replace.step] at h
    split at h
    · cases h
      rw [to_pc] at hpc
      split at hpc
      · next hq =>
        cases hpc
        exact .inr ⟨left, by rw [hq], rfl⟩
      · exact .inl ⟨left, hpc⟩
    · cases h
  | write p n =>
    simp only [Replace.step] at h
    split at h
    · next b bs content' done hp _ =>
      cases h
      rw [to_pc] at hpc
      split at hpc
      · next hq =>
        cases hpc
        exact .inl ⟨b :: left, by rw [hq, hp]⟩
      · exact .inl ⟨left, hpc⟩
    · cases h
  | kill p =>
    simp only [Replace.step, Option.some.injEq] at h
    subst h
    exact .inl (hkeep rfl (by simp) hpc)
  | close p | move p | moveFails p | delete p | deleteFails p | openTarget p | closeTarget p =>
    simp only [Replace.step] at h
    split at h
    · cases h
      exact .inl (hkeep rfl (by simp) hpc)
    · cases h

/-- **Why `Calm`**: the first process has written its file and is about to rename it; the second one creates it anew
and is killed after a part. The target is then a part of a content. -/
example : ∃ t : State Bool Nat,
    Lts.run Replace.step (State.start none none)
      [.create false [[1], [2]], .write false 1, .write false 1, .close false,
       .create true [[3], [4]], .write true 1, .kill true, .move false] = some t ∧ t.target = some [3] :=
  ⟨_, rfl, rfl⟩

/-! ## Whose content the target has -/

/-- The temporary file holds this content, if it exists, and nobody is writing. -/
def Holds (content : List β) (s : State P β) : Prop :=
  (s.tmp = none ∨ s.tmp = some content) ∧ ∀ q left content', s.pc q ≠ .writing left content'

theorem Holds.to {content : List β} {s' : State P β} (hs : Holds content s) (htmp : s'.tmp = s.tmp ∨ s'.tmp = none)
    (hpc : s'.pc = s.pc) (hc : ∀ left content', c ≠ .writing left content') : Holds content (s'.to p c) := by
  constructor
  · rcases htmp with h | h
    · rw [to_tmp, h]
      exact hs.1
    · exact .inl h
  · intro q left content' h
    rw [to_pc] at h
    split at h
    · exact hc left content' h
    · rw [hpc] at h
      exact hs.2 q left content' h

/-- What nobody creates anew stays what it is, or goes. -/
theorem Holds.step {content : List β} (hs : Holds content s) (hno : a.content = none) (h : Replace.step s a = some t) :
    Holds content t := by
  cases a with
  | create p blocks => cases hno
  | write p n =>
    simp only [Replace.step] at h
    split at h
    · next hpc _ => exact absurd hpc (hs.2 _ _ _)
    · cases h
  | close p =>
    simp only [Replace.step] at h
    split at h
    · next hpc => exact absurd hpc (hs.2 _ _ _)
    · cases h
  | move p =>
    simp only [Replace.step] at h
    split at h
    · cases h
      exact hs.to (.inr rfl) rfl (by simp)
    · cases h
  | moveFails p =>
    simp only [Replace.step] at h
    split at h
    · cases h
      exact hs.to (.inl rfl) rfl (by simp)
    · cases h
  | delete p =>
    simp only [Replace.step] at h
    split at h
    · cases h
      exact hs.to (.inr rfl) rfl (by simp)
    · cases h
  | deleteFails p =>
    simp only [Replace.step] at h
    split at h
    · cases h
      exact hs.to (.inl rfl) rfl (by simp)
    · cases h
  | openTarget p =>
    simp only [Replace.step] at h
    split at h
    · cases h
      exact hs.to (.inl rfl) rfl (by simp)
    · cases h
  | closeTarget p =>
    simp only [Replace.step] at h
    split at h
    · cases h
      exact hs.to (.inl rfl) rfl (by simp)
    · cases h
  | kill p =>
    simp only [Replace.step, Option.some.injEq] at h
    subst h
    exact hs.to (.inl rfl) rfl (by simp)

/-- **A rename that succeeds** installs the content of its own process: the file was closed with it, and nobody has
created it anew since. -/
theorem move_own {content : List β} {s' u : State P β} (hw : Whole Q init s) (hpc : s.pc p = .writing [] content)
    (hclose : Replace.step s (.close p) = some s') (hno : ∀ a ∈ as, a.content = none)
    (hrun : Lts.run Replace.step s' as = some u) (hmove : Replace.step u (.move p) = some t) :
    t.target = some content := by
  obtain ⟨hp, -, done, htmp, hdone⟩ := hw.writing hpc
  rw [List.flatten_nil, List.append_nil] at hdone
  subst hdone
  have hs' : Holds done s' := by
    simp only [Replace.step, hpc, Option.some.injEq] at hclose
    subst hclose
    refine ⟨.inr htmp, fun q left content' h => ?_⟩
    rw [to_pc] at h
    split at h
    · cases h
    · next hq => exact hq (Option.some.inj ((hw.writing h).1.symm.trans hp))
  have hu : Holds done u := by
    clear hclose
    induction as generalizing s' with
    | nil =>
      cases hrun
      exact hs'
    | cons a as ih =>
      obtain ⟨v, hv, hrun⟩ := Lts.run_cons.1 hrun
      exact ih (fun b hb => hno b (by simp [hb])) hrun (hs'.step (hno a (by simp)) hv)
  simp only [Replace.step] at hmove
  split at hmove
  · next content _ _ _ htmp =>
    cases hmove
    rcases hu.1 with h | h
    · rw [htmp] at h
      cases h
    · rw [htmp] at h
      exact h
  · cases hmove

end Replace
