import Mathlib.Data.List.Count
import Rvpn.Lib.Cells

/-!
# Reference counts on a heap of cells

The cells of a heap may each hold one pointer (`f`) and carry a count (`count`). `ext p` is the number of
references to `p` held from outside the heap. A heap is `Balanced` when every live cell's count is the number of
references to it, from outside and from other cells, and the live cells are the referenced ones.

| rule | step | outside references |
| --- | --- | --- |
| `Balanced.rewrite` | a cell changes, not its count or its pointer | the same |
| `Balanced.retain`  | one more on a count           | one more |
| `Balanced.create`  | a new cell with count 1       | one more on it, that to its pointee is now held by the cell |
| `Balanced.drop`    | one less on a count, not to 0 | one less |
| `Balanced.destroy` | a cell with count 1 is freed  | one less, that of the cell to its pointee is now outside |
-/

namespace RefCount

open Cells

variable {α : Type}

/-- The number of live cells that point to `p`. -/
def inbound (f : α → Option Nat) (H : List (Option α)) (p : Nat) : Nat :=
  H.countP fun c => decide (c.bind f = some p)

/-- The references to `p`, from outside and from cells. -/
def refs (f : α → Option Nat) (H : List (Option α)) (ext : Nat → Nat) (p : Nat) : Nat := ext p + inbound f H p

variable {f : α → Option Nat} {H : List (Option α)} {p q : Nat} {a b : α}

theorem inbound_alloc : inbound f (alloc H a) p = inbound f H p + if f a = some p then 1 else 0 := by
  simp [inbound, alloc, List.countP_append, List.countP_singleton]

theorem getElem_of_deref (h : deref H p = some a) (hp : p < H.length) : H[p] = some a := by
  simpa [deref, List.getElem?_eq_getElem hp] using h

theorem inbound_pos (h : deref H p = some a) (hf : f a = some q) : 0 < inbound f H q := by
  apply List.countP_pos_iff.2
  refine ⟨some a, ?_, by simp [hf]⟩
  rw [← getElem_of_deref h (lt_of_deref h)]
  exact List.getElem_mem _

/-- What replacing a live cell does to the pointers: the old cell's goes, the new one's comes. -/
theorem inbound_set (c : Option α) (h : deref H p = some a) :
    inbound f (H.set p c) q + (if f a = some q then 1 else 0) =
      inbound f H q + if c.bind f = some q then 1 else 0 := by
  have hp := lt_of_deref h
  have hset := List.countP_set (p := fun c : Option α => decide (c.bind f = some q)) (a := c) hp
  simp only [getElem_of_deref h hp, Option.bind_some, decide_eq_true_eq] at hset
  have hpos : f a = some q → 0 < inbound f H q := inbound_pos h
  unfold inbound at hpos ⊢
  rw [hset]
  by_cases hf : f a = some q
  · have := hpos hf
    rw [if_pos hf]
    omega
  · rw [if_neg hf]
    omega

theorem inbound_write (h : deref H p = some a) (hf : f b = f a) : inbound f (write H p b) q = inbound f H q := by
  have hset := inbound_set (f := f) (q := q) (some b) h
  simp only [Option.bind_some, hf] at hset
  exact Nat.add_right_cancel hset

theorem inbound_free (h : deref H p = some a) :
    inbound f (free H p) q + (if f a = some q then 1 else 0) = inbound f H q := by
  have hset := inbound_set (f := f) (q := q) none h
  simpa [free] using hset

/-! ## The invariant and its rules -/

/-- Every count is the number of references, and exactly the referenced cells are live. -/
structure Balanced (f : α → Option Nat) (count : α → Int) (H : List (Option α)) (ext : Nat → Nat) : Prop where
  exact : ∀ p a, deref H p = some a → count a = refs f H ext p
  live : ∀ p, 0 < refs f H ext p ↔ ∃ a, deref H p = some a

section Rules

variable {count : α → Int} {ext ext' : Nat → Nat}

/-- A heap with the same references and counts. -/
theorem Balanced.rewrite (hB : Balanced f count H ext) (ha : deref H p = some a) (hf : f b = f a)
    (hc : count b = count a) : Balanced f count (write H p b) ext := by
  have hrefs : ∀ q, refs f (write H p b) ext q = refs f H ext q := fun q => by
    simp [refs, inbound_write ha hf]
  have hp := lt_of_deref ha
  refine ⟨fun q c hq => ?_, fun q => ?_⟩
  · rw [hrefs q]
    rcases deref_write_cases hq with ⟨rfl, rfl⟩ | ⟨-, hq⟩
    · rw [hc, hB.exact q a ha]
    · exact hB.exact q c hq
  · rw [hrefs q, hB.live q]
    by_cases e : q = p
    · subst e
      simp [deref_write_self hp, ha]
    · rw [deref_write_ne e]

theorem Balanced.retain (hB : Balanced f count H ext) (ha : deref H p = some a) (hf : f b = f a)
    (hc : count b = count a + 1) (hext : ∀ q, ext' q = ext q + if q = p then 1 else 0) :
    Balanced f count (write H p b) ext' := by
  have hrefs : ∀ q, refs f (write H p b) ext' q = refs f H ext q + if q = p then 1 else 0 := fun q => by
    simp only [refs, inbound_write ha hf, hext q]
    omega
  have hp := lt_of_deref ha
  refine ⟨fun q c hq => ?_, fun q => ?_⟩
  · rw [hrefs q]
    rcases deref_write_cases hq with ⟨rfl, rfl⟩ | ⟨hne, hq⟩
    · simp [hc, hB.exact q a ha]
    · simp [hne, hB.exact q c hq]
  · rw [hrefs q]
    by_cases e : q = p
    · subst e
      simp [deref_write_self hp]
    · rw [deref_write_ne e]
      simpa [e] using hB.live q

/-- The new cell starts with the reference of whoever created it, and takes over one to its pointee. -/
theorem Balanced.create (hB : Balanced f count H ext) (hc : count a = 1)
    (hext : ∀ q, ext' q + (if f a = some q then 1 else 0) = ext q + if q = H.length then 1 else 0) :
    Balanced f count (alloc H a) ext' := by
  have hrefs : ∀ q, refs f (alloc H a) ext' q = refs f H ext q + if q = H.length then 1 else 0 := fun q => by
    have := hext q
    simp only [refs, inbound_alloc]
    omega
  have hnew : refs f H ext H.length = 0 := by
    have hdead : ¬ ∃ a, deref H H.length = some a := by simp [deref_of_length_le]
    have := mt (hB.live H.length).1 hdead
    omega
  refine ⟨fun q c hq => ?_, fun q => ?_⟩
  · rw [hrefs q]
    rcases deref_alloc_cases hq with ⟨rfl, rfl⟩ | hq
    · simp [hc, hnew]
    · simp [hB.exact q c hq, Nat.ne_of_lt (lt_of_deref hq)]
  · rw [hrefs q]
    by_cases e : q = H.length
    · subst e
      simp
    · simp only [e, if_false, Nat.add_zero, hB.live q]
      constructor
      · rintro ⟨c, hq⟩
        exact ⟨c, deref_alloc_of_deref hq⟩
      · rintro ⟨c, hq⟩
        rcases deref_alloc_cases hq with ⟨rfl, -⟩ | hq
        · exact absurd rfl e
        · exact ⟨c, hq⟩

theorem Balanced.drop (hB : Balanced f count H ext) (ha : deref H p = some a) (hf : f b = f a)
    (hc : count b = count a - 1) (hne : count b ≠ 0) (hext : ∀ q, ext' q + (if q = p then 1 else 0) = ext q) :
    Balanced f count (write H p b) ext' := by
  have hrefs : ∀ q, refs f (write H p b) ext' q + (if q = p then 1 else 0) = refs f H ext q := fun q => by
    have := hext q
    simp only [refs, inbound_write ha hf]
    omega
  have hp := lt_of_deref ha
  refine ⟨fun q c hq => ?_, fun q => ?_⟩
  · have hq' := hrefs q
    rcases deref_write_cases hq with ⟨rfl, rfl⟩ | ⟨hne, hq⟩
    · have := hB.exact q a ha
      simp only [if_true] at hq'
      omega
    · simp only [hne, if_false, Nat.add_zero] at hq'
      rw [hq', hB.exact q c hq]
  · have hq' := hrefs q
    by_cases e : q = p
    · subst e
      have := hB.exact q a ha
      simp only [if_true] at hq'
      simp only [deref_write_self hp, Option.some.injEq, exists_eq', iff_true]
      omega
    · simp only [e, if_false, Nat.add_zero] at hq'
      rw [hq', deref_write_ne e, hB.live q]

/-- The last reference goes, the cell with it, and the cell's pointer is left to whoever frees it. -/
theorem Balanced.destroy (hB : Balanced f count H ext) (ha : deref H p = some a) (hc : count a = 1)
    (hext : ∀ q, ext' q + (if q = p then 1 else 0) = ext q + if f a = some q then 1 else 0) :
    Balanced f count (free H p) ext' := by
  have hrefs : ∀ q, refs f (free H p) ext' q + (if q = p then 1 else 0) = refs f H ext q := fun q => by
    have h := hext q
    have hin := inbound_free (f := f) (q := q) ha
    simp only [refs]
    omega
  have hself := hB.exact p a ha
  refine ⟨fun q c hq => ?_, fun q => ?_⟩
  · obtain ⟨hne, hq⟩ := deref_free_eq_some.1 hq
    have hq' := hrefs q
    simp only [hne, if_false, Nat.add_zero] at hq'
    rw [hq', hB.exact q c hq]
  · have hq' := hrefs q
    by_cases e : q = p
    · subst e
      simp only [if_true] at hq'
      simp only [deref_free_self, reduceCtorEq, exists_false, iff_false]
      omega
    · simp only [e, if_false, Nat.add_zero] at hq'
      rw [hq', deref_free_ne e, hB.live q]

/-- A pointer of a live cell leads to a live cell. -/
theorem Balanced.pointee (hB : Balanced f count H ext) (ha : deref H p = some a) (hf : f a = some q) :
    ∃ b, deref H q = some b :=
  (hB.live q).1 (Nat.lt_of_lt_of_le (inbound_pos ha hf) (Nat.le_add_left _ _))

theorem Balanced.of_ext (hB : Balanced f count H ext) (h : 0 < ext p) : ∃ a, deref H p = some a :=
  (hB.live p).1 (Nat.lt_of_lt_of_le h (Nat.le_add_right _ _))

end Rules

end RefCount
