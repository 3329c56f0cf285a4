import Mathlib.Data.List.Basic

/-!
# A fixed array with a count of used cells

`Slots α cap` is a C array of `cap` cells whose first `count` are in use (`live`). The loops over the used
cells (`search`, `collect`) go by index, and `memmove` takes its bounds as arguments. `live_append` and
`live_shift` are the two ways a queue of bounded length takes a new last entry.
-/

structure Slots (α : Type) (cap : Nat) where
  cells : List α
  length_eq : cells.length = cap
  count : Nat

namespace Slots

variable {α β : Type} {cap : Nat}

/-- Every cell `a`, none in use. -/
def filled (cap : Nat) (a : α) : Slots α cap := ⟨List.replicate cap a, List.length_replicate, 0⟩

/-- The cells in use. -/
def live (s : Slots α cap) : List α := s.cells.take s.count

/-- `cells[i] = a`. -/
def set (s : Slots α cap) (i : Nat) (a : α) : Slots α cap where
  cells := s.cells.set i a
  length_eq := by rw [List.length_set, s.length_eq]
  count := s.count

/-- `memmove(&cells[dst], &cells[src], n)`: what is read is read before anything is written. -/
def memmove (s : Slots α cap) (dst src n : Nat) (hd : dst + n ≤ cap) (hs : src + n ≤ cap) : Slots α cap where
  cells := s.cells.take dst ++ ((s.cells.drop src).take n ++ s.cells.drop (dst + n))
  length_eq := by
    have hlen := s.length_eq
    simp only [List.length_append, List.length_take, List.length_drop]
    omega
  count := s.count

/-- `for (…; k more times; i++) if (p(cells[i])) { found = 1; break; }`. -/
def searchFrom (p : α → Bool) (cells : List α) (i : Nat) : Nat → Bool
  | 0 => false
  | k + 1 => if (cells[i]?).any p then true else searchFrom p cells (i + 1) k

def search (s : Slots α cap) (p : α → Bool) : Bool := searchFrom p s.cells 0 s.count

/-- `for (…; k more times; i++) f(cells[i])`, the results in order. -/
def collectFrom (f : α → β) (cells : List α) (i : Nat) : Nat → List β
  | 0 => []
  | k + 1 => ((cells[i]?).map f).toList ++ collectFrom f cells (i + 1) k

def collect (s : Slots α cap) (f : α → β) : List β := collectFrom f s.cells 0 s.count

/-! ## The loops -/

theorem searchFrom_eq (p : α → Bool) (cells : List α) (i k : Nat) :
    searchFrom p cells i k = ((cells.drop i).take k).any p := by
  induction k generalizing i with
  | zero => simp [searchFrom]
  | succ k ih =>
    rw [searchFrom, ih]
    by_cases hi : i < cells.length
    · rw [List.drop_eq_getElem_cons hi, List.getElem?_eq_getElem hi, List.take_succ_cons, List.any_cons, Option.any_some]
      cases p cells[i] <;> rfl
    · rw [List.getElem?_eq_none (by omega), List.drop_of_length_le (by omega : cells.length ≤ i + 1),
        List.drop_of_length_le (by omega : cells.length ≤ i)]
      simp

theorem collectFrom_eq (f : α → β) (cells : List α) (i k : Nat) :
    collectFrom f cells i k = ((cells.drop i).take k).map f := by
  induction k generalizing i with
  | zero => simp [collectFrom]
  | succ k ih =>
    rw [collectFrom, ih]
    by_cases hi : i < cells.length
    · rw [List.drop_eq_getElem_cons hi, List.getElem?_eq_getElem hi, List.take_succ_cons, List.map_cons]
      rfl
    · rw [List.getElem?_eq_none (by omega), List.drop_of_length_le (by omega : cells.length ≤ i + 1),
        List.drop_of_length_le (by omega : cells.length ≤ i)]
      simp

theorem search_eq (s : Slots α cap) (p : α → Bool) : s.search p = s.live.any p := by
  rw [search, searchFrom_eq, List.drop_zero, live]

theorem collect_eq (s : Slots α cap) (f : α → β) : s.collect f = s.live.map f := by
  rw [collect, collectFrom_eq, List.drop_zero, live]

/-! ## Append and shift -/

@[simp] theorem live_filled (a : α) : (filled cap a).live = [] := rfl

theorem length_live {s : Slots α cap} (h : s.count ≤ cap) : s.live.length = s.count := by
  rw [live, List.length_take, s.length_eq]
  omega

/-- `cells[count++] = a`. -/
theorem live_append {s : Slots α cap} (h : s.count < cap) (a : α) :
    ({ s.set s.count a with count := s.count + 1 } : Slots α cap).live = s.live ++ [a] := by
  have hlt : s.count < s.cells.length := by
    rw [s.length_eq]
    exact h
  simp only [live, set]
  rw [List.take_succ_eq_append_getElem (by rw [List.length_set]; exact hlt), List.getElem_set_self,
    List.take_set_of_le (Nat.le_refl _)]

/-- Shifting a full array by one and writing the last cell. -/
theorem live_shift {s : Slots α cap} (hfull : s.count = cap) (hd : 0 + (cap - 1) ≤ cap) (hs : 1 + (cap - 1) ≤ cap)
    (a : α) : ((s.memmove 0 1 (cap - 1) hd hs).set (cap - 1) a).live = s.live.tail ++ [a] := by
  have hlen := s.length_eq
  have htail : (s.cells.drop 1).take (cap - 1) = s.cells.tail := by
    rw [List.drop_one, List.take_of_length_le (by rw [List.length_tail]; omega)]
  have hlast : s.cells.drop (0 + (cap - 1)) = [s.cells.get ⟨cap - 1, by omega⟩] := by
    have hsucc : s.cells.drop (cap - 1 + 1) = [] := List.drop_of_length_le (by omega)
    rw [Nat.zero_add, List.drop_eq_getElem_cons (by omega), hsucc]
    rfl
  have hall : s.cells.take cap = s.cells := List.take_of_length_le (Nat.le_of_eq hlen)
  have hset : cap - 1 - s.cells.tail.length = 0 := by
    rw [List.length_tail]
    omega
  simp only [live, set, memmove, hfull]
  rw [List.take_zero, List.nil_append, htail, hlast, hall, List.set_append_right _ _ (by rw [List.length_tail]; omega),
    hset, List.set_cons_zero]
  exact List.take_of_length_le (by rw [List.length_append, List.length_tail, List.length_singleton]; omega)

end Slots
