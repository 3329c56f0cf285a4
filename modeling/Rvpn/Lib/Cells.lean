import Mathlib.Data.List.Basic
import Mathlib.Data.List.Forall2

/-!
# A heap of cells that can be freed

A heap is a list of cells; the address of a cell is its place in the list. `some a` is a live cell,
`none` one that has been freed. `alloc` puts a new cell at the end, so an address is never handed
out twice and a pointer to a freed cell is told from a pointer to a live one: `deref` of it is `none`.

| operation | effect on `deref` |
| --- | --- |
| `alloc H a`   | `a` at `H.length`, nothing else |
| `write H i a` | `a` at `i` (when `i` is an address), nothing else |
| `free H i`    | nothing at `i`, nothing else |

`mapM_total`, `mapM_mem` and `mem_mapM` are for reading several of them in a row.
-/

namespace Cells

variable {α : Type}

/-- The content of a live cell. -/
def deref (H : List (Option α)) (i : Nat) : Option α := H[i]?.join

def alloc (H : List (Option α)) (a : α) : List (Option α) := H ++ [some a]

def write (H : List (Option α)) (i : Nat) (a : α) : List (Option α) := H.set i (some a)

def free (H : List (Option α)) (i : Nat) : List (Option α) := H.set i none

variable {H : List (Option α)} {i j : Nat} {a b : α}

@[simp] theorem length_alloc : (alloc H a).length = H.length + 1 := by simp [alloc]

@[simp] theorem length_write : (write H i a).length = H.length := by simp [write]

@[simp] theorem length_free : (free H i).length = H.length := by simp [free]

theorem lt_of_deref (h : deref H i = some a) : i < H.length := by
  by_contra hi
  simp [deref, List.getElem?_eq_none (Nat.le_of_not_lt hi)] at h

theorem deref_of_length_le (h : H.length ≤ i) : deref H i = none := by
  simp [deref, List.getElem?_eq_none h]

@[simp] theorem deref_alloc_self : deref (alloc H a) H.length = some a := by simp [deref, alloc]

theorem deref_alloc_of_lt (h : i < H.length) : deref (alloc H a) i = deref H i := by
  simp [deref, alloc, List.getElem?_append_left h]

theorem deref_alloc_of_deref (h : deref H i = some b) : deref (alloc H a) i = some b := by
  rw [deref_alloc_of_lt (lt_of_deref h), h]

/-- A cell of the heap after an allocation is the new one or an old one. -/
theorem deref_alloc_cases (h : deref (alloc H a) i = some b) : (i = H.length ∧ b = a) ∨ deref H i = some b := by
  have hi := lt_of_deref h
  rw [length_alloc] at hi
  rcases Nat.lt_succ_iff_lt_or_eq.1 hi with hlt | rfl
  · rw [deref_alloc_of_lt hlt] at h
    exact .inr h
  · rw [deref_alloc_self] at h
    cases h
    exact .inl ⟨rfl, rfl⟩

theorem deref_write_self (h : i < H.length) : deref (write H i a) i = some a := by
  simp [deref, write, List.getElem?_set_self h]

theorem deref_write_ne (h : j ≠ i) : deref (write H i a) j = deref H j := by
  simp [deref, write, List.getElem?_set_ne (Ne.symm h)]

/-- A cell of the heap after a write is the one written or an old one. -/
theorem deref_write_cases (h : deref (write H i a) j = some b) :
    (j = i ∧ b = a) ∨ (j ≠ i ∧ deref H j = some b) := by
  by_cases hj : j = i
  · subst hj
    have hlt := lt_of_deref h
    rw [length_write] at hlt
    rw [deref_write_self hlt] at h
    cases h
    exact .inl ⟨rfl, rfl⟩
  · rw [deref_write_ne hj] at h
    exact .inr ⟨hj, h⟩

@[simp] theorem deref_free_self : deref (free H i) i = none := by
  by_cases h : i < H.length
  · simp [deref, free, List.getElem?_set_self h]
  · exact deref_of_length_le (by simpa using h)

theorem deref_free_ne (h : j ≠ i) : deref (free H i) j = deref H j := by
  simp [deref, free, List.getElem?_set_ne (Ne.symm h)]

theorem deref_free_eq_some : deref (free H i) j = some b ↔ j ≠ i ∧ deref H j = some b := by
  by_cases h : j = i
  · subst h
    simp
  · simp [deref_free_ne h, h]

theorem free_write_self : free (write H i a) i = free H i := by simp [free, write]

theorem free_free_comm : free (free H i) j = free (free H j) i := by
  by_cases h : i = j
  · rw [h]
  · simp [free, List.set_comm _ _ h]

theorem free_write_comm (h : j ≠ i) : free (write H i a) j = write (free H j) i a := by
  simp [free, write, List.set_comm _ _ h]

theorem write_alloc (h : i < H.length) : write (alloc H a) i b = alloc (write H i b) a := by
  simp [write, alloc, List.set_append_left _ _ h]

/-! ## Reading one after the other -/

section
variable {β γ : Type} {f : β → Option γ} {xs : List β} {ys : List γ}

theorem mapM_eq_some : xs.mapM f = some ys ↔ List.Forall₂ (fun x y => f x = some y) xs ys := by
  induction xs generalizing ys with
  | nil => simp [eq_comm]
  | cons x xs ih =>
    rw [List.mapM_cons, List.forall₂_cons_left_iff]
    simp only [Option.bind_eq_bind, Option.bind_eq_some_iff, ih, Option.pure_def, Option.some.injEq]
    constructor
    · rintro ⟨y, hy, zs, hzs, rfl⟩
      exact ⟨y, zs, hy, hzs, rfl⟩
    · rintro ⟨y, zs, hy, hzs, rfl⟩
      exact ⟨y, hy, zs, hzs, rfl⟩

theorem mapM_total (h : ∀ x ∈ xs, ∃ y, f x = some y) : ∃ ys, xs.mapM f = some ys := by
  induction xs with
  | nil => exact ⟨[], rfl⟩
  | cons x xs ih =>
    obtain ⟨y, hy⟩ := h x (by simp)
    obtain ⟨ys, hys⟩ := ih fun x hx => h x (by simp [hx])
    exact ⟨y :: ys, by simp [List.mapM_cons, hy, hys]⟩

/-- Each element has its result among the results. -/
theorem mapM_mem (h : xs.mapM f = some ys) {x : β} (hx : x ∈ xs) : ∃ y ∈ ys, f x = some y := by
  have h₂ := mapM_eq_some.1 h
  clear h
  induction h₂ with
  | nil => cases hx
  | cons hy _ ih =>
    rcases List.mem_cons.1 hx with rfl | hx
    · exact ⟨_, by simp, hy⟩
    · obtain ⟨y, hmem, hy⟩ := ih hx
      exact ⟨y, by simp [hmem], hy⟩

/-- Each result is that of an element. -/
theorem mem_mapM (h : xs.mapM f = some ys) {y : γ} (hy : y ∈ ys) : ∃ x ∈ xs, f x = some y := by
  have h₂ := mapM_eq_some.1 h
  clear h
  induction h₂ with
  | nil => cases hy
  | cons hx _ ih =>
    rcases List.mem_cons.1 hy with rfl | hy
    · exact ⟨_, by simp, hx⟩
    · obtain ⟨x, hmem, hx⟩ := ih hy
      exact ⟨x, by simp [hmem], hx⟩

end

end Cells
