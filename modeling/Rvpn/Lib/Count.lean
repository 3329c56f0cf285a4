import Mathlib.Data.List.Count

/-!
# Counting what a list holds

An entry is in exactly one of several places when its counts there add up to one. These lemmas turn
the count over a list built with `filterMap` or `flatMap` into a sum that `omega` can work with.
-/

namespace Count

variable {α β : Type} [DecidableEq β]

theorem count_filterMap_cons (f : α → Option β) (c : α) (cs : List α) (b : β) :
    ((c :: cs).filterMap f).count b = (if f c = some b then 1 else 0) + (cs.filterMap f).count b := by
  cases hf : f c with
  | none => rw [List.filterMap_cons_none hf]; simp
  | some a =>
    rw [List.filterMap_cons_some hf, List.count_cons]
    by_cases e : a = b <;> simp [e, Nat.add_comm]

theorem count_flatMap_cons (f : α → List β) (c : α) (cs : List α) (b : β) :
    ((c :: cs).flatMap f).count b = (f c).count b + (cs.flatMap f).count b := by
  rw [List.flatMap_cons, List.count_append]

theorem count_flatMap_append (f : α → List β) (cs ds : List α) (b : β) :
    ((cs ++ ds).flatMap f).count b = (cs.flatMap f).count b + (ds.flatMap f).count b := by
  rw [List.flatMap_append, List.count_append]

end Count
