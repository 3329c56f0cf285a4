import Mathlib.Data.List.TakeDrop
import Mathlib.Tactic.Linarith
import Mathlib.Tactic.Ring
import Mathlib.Tactic.Positivity

/-!
# Decimal numerals at the front of a text

The characters are any type with a partial `digit` function. `span` splits the digits off the front of a text, as a
scanner does, `ofDigits` is their value, most significant digit first, and `numeral` is the value of a text that is
digits and nothing else.
-/

namespace Decimal

variable {α : Type} {digit digit' : α → Option (Fin 10)}

/-- The digits at the front, and what follows them. -/
def span (digit : α → Option (Fin 10)) : List α → List (Fin 10) × List α
  | [] => ([], [])
  | c :: s =>
    match digit c with
    | some d => (d :: (span digit s).1, (span digit s).2)
    | none => ([], c :: s)

def ofDigits (ds : List (Fin 10)) : Nat := ds.foldl (fun n d => 10 * n + d.val) 0

/-- The value of a text of digits. -/
def numeral (digit : α → Option (Fin 10)) (s : List α) : Option Nat :=
  if s ≠ [] ∧ (span digit s).2 = [] then some (ofDigits (span digit s).1) else none

/-! ## The digits at the front -/

@[simp] theorem span_nil : span digit [] = ([], []) := rfl

theorem span_cons_some {c : α} {d : Fin 10} (h : digit c = some d) (s : List α) :
    span digit (c :: s) = (d :: (span digit s).1, (span digit s).2) := by simp [span, h]

theorem span_cons_none {c : α} (h : digit c = none) (s : List α) : span digit (c :: s) = ([], c :: s) := by
  simp [span, h]

/-- A text that is all digits starts with one. -/
theorem digit_of_span_cons {c : α} {s : List α} {ds : List (Fin 10)} (h : span digit (c :: s) = (ds, [])) :
    ∃ d ds', ds = d :: ds' ∧ digit c = some d ∧ span digit s = (ds', []) := by
  cases hc : digit c with
  | none => simp [span_cons_none hc] at h
  | some d =>
    rw [span_cons_some hc, Prod.mk.injEq] at h
    exact ⟨d, _, h.1.symm, rfl, Prod.ext rfl h.2⟩

theorem span_append {s t : List α} {ds : List (Fin 10)} (hs : span digit s = (ds, [])) (ht : ∀ c ∈ t.head?, digit c = none) :
    span digit (s ++ t) = (ds, t) := by
  induction s generalizing ds with
  | nil =>
    cases hs
    cases t with
    | nil => rfl
    | cons c t => exact span_cons_none (ht c rfl) t
  | cons c s ih =>
    obtain ⟨d, ds', rfl, hc, hs'⟩ := digit_of_span_cons hs
    rw [List.cons_append, span_cons_some hc, ih hs']

theorem span_take {s : List α} {ds : List (Fin 10)} (hs : span digit s = (ds, [])) (n : Nat) :
    span digit (s.take n) = (ds.take n, []) := by
  induction s generalizing ds n with
  | nil =>
    cases hs
    simp
  | cons c s ih =>
    obtain ⟨d, ds', rfl, hc, hs'⟩ := digit_of_span_cons hs
    cases n with
    | zero => rfl
    | succ n => rw [List.take_succ_cons, span_cons_some hc, ih hs', List.take_succ_cons]

theorem length_of_span {s : List α} {ds : List (Fin 10)} (hs : span digit s = (ds, [])) : ds.length = s.length := by
  induction s generalizing ds with
  | nil =>
    cases hs
    rfl
  | cons c s ih =>
    obtain ⟨d, ds', rfl, -, hs'⟩ := digit_of_span_cons hs
    simp [ih hs']

theorem digit_of_mem {s : List α} {ds : List (Fin 10)} (hs : span digit s = (ds, [])) {c : α} (hc : c ∈ s) :
    ∃ d, digit c = some d := by
  induction s generalizing ds with
  | nil => cases hc
  | cons b s ih =>
    obtain ⟨d, ds', rfl, hb, hs'⟩ := digit_of_span_cons hs
    rcases List.mem_cons.1 hc with rfl | hc
    · exact ⟨d, hb⟩
    · exact ih hs' hc

/-- A scanner that knows more digits reads a numeral the same way. -/
theorem span_mono (hd : ∀ c d, digit c = some d → digit' c = some d) {s : List α} {ds : List (Fin 10)}
    (hs : span digit s = (ds, [])) : span digit' s = (ds, []) := by
  induction s generalizing ds with
  | nil => exact hs
  | cons c s ih =>
    obtain ⟨d, ds', rfl, hc, hs'⟩ := digit_of_span_cons hs
    rw [span_cons_some (hd c d hc), ih hs']

theorem numeral_eq_some {s : List α} {n : Nat} :
    numeral digit s = some n ↔ s ≠ [] ∧ ∃ ds, span digit s = (ds, []) ∧ ofDigits ds = n := by
  unfold numeral
  split
  · next h =>
    rw [Option.some.injEq]
    exact ⟨fun hn => ⟨h.1, _, Prod.ext rfl h.2, hn⟩, fun ⟨_, _, hds, hn⟩ => by rw [hds]; exact hn⟩
  · next h =>
    simp only [reduceCtorEq, false_iff]
    rintro ⟨hne, ds, hds, -⟩
    exact h ⟨hne, by rw [hds]⟩

/-! ## Values -/

theorem foldl_ofDigits (ds : List (Fin 10)) (k : Nat) :
    ds.foldl (fun n d => 10 * n + d.val) k = k * 10 ^ ds.length + ofDigits ds := by
  induction ds generalizing k with
  | nil => simp [ofDigits]
  | cons d ds ih =>
    have hd : ofDigits (d :: ds) = (10 * 0 + d.val) * 10 ^ ds.length + ofDigits ds := ih (10 * 0 + d.val)
    rw [List.foldl_cons, ih, hd, List.length_cons, Nat.pow_succ]
    ring

theorem ofDigits_append (ds es : List (Fin 10)) : ofDigits (ds ++ es) = ofDigits ds * 10 ^ es.length + ofDigits es := by
  rw [ofDigits, List.foldl_append, foldl_ofDigits]
  rfl

theorem ofDigits_lt (ds : List (Fin 10)) : ofDigits ds < 10 ^ ds.length := by
  induction ds with
  | nil => simp [ofDigits]
  | cons d ds ih =>
    have hd : ofDigits (d :: ds) = d.val * 10 ^ ds.length + ofDigits ds := by
      have h := ofDigits_append [d] ds
      simpa [ofDigits] using h
    have hlt := d.isLt
    rw [hd, List.length_cons, Nat.pow_succ]
    nlinarith

/-- Cutting off the last digits divides. -/
theorem ofDigits_take (ds : List (Fin 10)) (n : Nat) : ofDigits (ds.take n) = ofDigits ds / 10 ^ (ds.length - n) := by
  have happ := ofDigits_append (ds.take n) (ds.drop n)
  have hlt := ofDigits_lt (ds.drop n)
  rw [List.take_append_drop, List.length_drop] at happ
  rw [List.length_drop] at hlt
  rw [happ, Nat.mul_comm, Nat.mul_add_div (by positivity), Nat.div_eq_of_lt hlt, Nat.add_zero]

/-- A numeral reads the same without its last digits if there are none of them, or if it is zero. -/
theorem ofDigits_take_eq {ds : List (Fin 10)} {n : Nat} :
    ofDigits (ds.take n) = ofDigits ds ↔ ds.length ≤ n ∨ ofDigits ds = 0 := by
  rw [ofDigits_take]
  constructor
  · intro h
    by_contra hc
    push Not at hc
    have hpow : 1 < 10 ^ (ds.length - n) := Nat.one_lt_pow (by omega) (by omega)
    exact absurd h (Nat.ne_of_lt (Nat.div_lt_self (Nat.pos_of_ne_zero hc.2) hpow))
  · rintro (h | h)
    · rw [Nat.sub_eq_zero_of_le h, Nat.pow_zero, Nat.div_one]
    · rw [h, Nat.zero_div]

end Decimal
