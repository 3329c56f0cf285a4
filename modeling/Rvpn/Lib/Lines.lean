import Mathlib.Data.List.Basic

/-!
# Lines of a text, and reading it in pieces

A text is a list of characters, `nl` the one that ends a line. A line keeps its `nl`; the last one may have none.

* `lines` — the lines of a text; `lines_flatten` gives back any list of lines that is `Split`;
* `fgets`, `pieces` — reading up to `n` characters and no further than the end of the line, until nothing is left;
* `pieces_eq_flatMap` — a text is read line by line, each line in pieces of its own.
-/

namespace Lines

variable {α : Type} [DecidableEq α] {nl : α} {n : Nat} {b s ℓ : List α} {ls pre post : List (List α)}

/-! ## Lines -/

def lines (nl : α) : List α → List (List α)
  | [] => []
  | c :: s =>
    if c = nl then [c] :: lines nl s
    else match lines nl s with
      | [] => [[c]]
      | ℓ :: ls => (c :: ℓ) :: ls

/-- A line with its end. -/
def Full (nl : α) (ℓ : List α) : Prop := ∃ b, nl ∉ b ∧ ℓ = b ++ [nl]

/-- What a text can be split into: full lines, and possibly a last one without an end. -/
def Split (nl : α) : List (List α) → Prop
  | [] => True
  | ℓ :: ls => (Full nl ℓ ∧ Split nl ls) ∨ (ls = [] ∧ ℓ ≠ [] ∧ nl ∉ ℓ)

theorem lines_full (hb : nl ∉ b) : lines nl (b ++ nl :: s) = (b ++ [nl]) :: lines nl s := by
  induction b with
  | nil => simp [lines]
  | cons c b ih =>
    have hc : c ≠ nl := fun h => hb (h ▸ List.mem_cons_self)
    rw [List.cons_append, lines, if_neg hc, ih fun h => hb (List.mem_cons_of_mem _ h)]
    rfl

theorem lines_last (hs : nl ∉ s) (hne : s ≠ []) : lines nl s = [s] := by
  induction s with
  | nil => exact absurd rfl hne
  | cons c s ih =>
    have hc : c ≠ nl := fun h => hs (h ▸ List.mem_cons_self)
    rw [lines, if_neg hc]
    cases s with
    | nil => rfl
    | cons d s => rw [ih (fun h => hs (List.mem_cons_of_mem _ h)) (by simp)]

/-- A text ends in the middle of a line, or starts with a full one. -/
theorem notMem_or_full (nl : α) (s : List α) : nl ∉ s ∨ ∃ b t, nl ∉ b ∧ s = b ++ nl :: t := by
  induction s with
  | nil => simp
  | cons c s ih =>
    by_cases hc : c = nl
    · exact .inr ⟨[], s, by simp, by rw [hc]; rfl⟩
    · rcases ih with h | ⟨b, t, hb, rfl⟩
      · exact .inl (by simp [h, Ne.symm hc])
      · exact .inr ⟨c :: b, t, by simp [hb, Ne.symm hc], rfl⟩

variable (nl) in
/-- The lines of a text, by the line it starts with. -/
theorem lines_induction {P : List α → Prop} (hlast : ∀ s, nl ∉ s → P s)
    (hfull : ∀ b s, nl ∉ b → P s → P (b ++ nl :: s)) (s : List α) : P s := by
  induction hn : s.length using Nat.strongRecOn generalizing s with
  | _ k ih =>
    rcases notMem_or_full nl s with h | ⟨b, t, hb, rfl⟩
    · exact hlast s h
    · refine hfull b t hb (ih t.length ?_ t rfl)
      simp only [← hn, List.length_append, List.length_cons]
      omega

theorem flatten_lines (s : List α) : (lines nl s).flatten = s := by
  induction s using lines_induction nl with
  | hlast s hs =>
    by_cases hne : s = []
    · rw [hne]
      rfl
    · simp [lines_last hs hne]
  | hfull b s hb ih => simp [lines_full hb, ih]

theorem split_lines (s : List α) : Split nl (lines nl s) := by
  induction s using lines_induction nl with
  | hlast s hs =>
    by_cases hne : s = []
    · rw [hne]
      trivial
    · rw [lines_last hs hne]
      exact .inr ⟨rfl, hne, hs⟩
  | hfull b s hb ih =>
    rw [lines_full hb]
    exact .inl ⟨⟨b, hb, rfl⟩, ih⟩

theorem lines_flatten (h : Split nl ls) : lines nl ls.flatten = ls := by
  induction ls with
  | nil => rfl
  | cons ℓ ls ih =>
    rcases h with ⟨⟨b, hb, rfl⟩, h⟩ | ⟨rfl, hne, hs⟩
    · rw [List.flatten_cons, List.append_assoc, List.singleton_append, lines_full hb, ih h]
    · rw [List.flatten_singleton, lines_last hs hne]

omit [DecidableEq α] in
theorem Split.take (h : Split nl (pre ++ post)) : Split nl pre := by
  induction pre with
  | nil => trivial
  | cons ℓ pre ih =>
    rcases h with ⟨hf, h⟩ | ⟨hnil, hs⟩
    · exact .inl ⟨hf, ih h⟩
    · exact .inr ⟨(List.append_eq_nil_iff.1 hnil).1, hs⟩

omit [DecidableEq α] in
/-- A line can be taken out. -/
theorem Split.remove (h : Split nl (pre ++ ℓ :: post)) : Split nl (pre ++ post) := by
  induction pre with
  | nil =>
    rcases h with ⟨-, h⟩ | ⟨rfl, -⟩
    · exact h
    · trivial
  | cons k pre ih =>
    rcases h with ⟨hf, h⟩ | ⟨hnil, -⟩
    · exact .inl ⟨hf, ih h⟩
    · exact absurd hnil (by simp)

/-! ## Pieces -/

/-- `fgets` with room for `n` characters: what is read, and what is left. -/
def fgets (nl : α) : Nat → List α → List α × List α
  | 0, s => ([], s)
  | _, [] => ([], [])
  | n + 1, c :: s => if c = nl then ([c], s) else (c :: (fgets nl n s).1, (fgets nl n s).2)

/-- `while (fgets(...))`, with fuel. -/
def reads (nl : α) (n : Nat) : Nat → List α → List (List α)
  | 0, _ => []
  | fuel + 1, s => if s = [] then [] else (fgets nl n s).1 :: reads nl n fuel (fgets nl n s).2

/-- Each piece takes a character at least. -/
def pieces (nl : α) (n : Nat) (s : List α) : List (List α) := reads nl n s.length s

/-- A piece that does not reach the end of the line. -/
theorem fgets_room (hb : nl ∉ b) (hn : n ≤ b.length) : fgets nl n (b ++ s) = (b.take n, b.drop n ++ s) := by
  induction b generalizing n with
  | nil =>
    obtain rfl := Nat.le_zero.1 hn
    rfl
  | cons c b ih =>
    cases n with
    | zero => rfl
    | succ n =>
      have hc : c ≠ nl := fun h => hb (h ▸ List.mem_cons_self)
      have hfg := ih (fun h => hb (List.mem_cons_of_mem _ h)) (Nat.le_of_succ_le_succ hn)
      rw [List.cons_append, fgets, if_neg hc, hfg]
      rfl

theorem fgets_full (hb : nl ∉ b) (hn : b.length < n) : fgets nl n (b ++ nl :: s) = (b ++ [nl], s) := by
  induction b generalizing n with
  | nil =>
    obtain ⟨n, rfl⟩ := Nat.exists_eq_succ_of_ne_zero (by omega : n ≠ 0)
    simp [fgets]
  | cons c b ih =>
    obtain ⟨n, rfl⟩ := Nat.exists_eq_succ_of_ne_zero (by omega : n ≠ 0)
    have hc : c ≠ nl := fun h => hb (h ▸ List.mem_cons_self)
    simp only [List.length_cons] at hn
    rw [List.cons_append, fgets, if_neg hc, ih (fun h => hb (List.mem_cons_of_mem _ h)) (by omega)]
    rfl

theorem fgets_last (hs : nl ∉ s) (hn : s.length ≤ n) : fgets nl n s = (s, []) := by
  induction s generalizing n with
  | nil => cases n <;> rfl
  | cons c s ih =>
    obtain ⟨n, rfl⟩ := Nat.exists_eq_succ_of_ne_zero (show n ≠ 0 by rintro rfl; simp at hn)
    have hc : c ≠ nl := fun h => hs (h ▸ List.mem_cons_self)
    rw [fgets, if_neg hc, ih (fun h => hs (List.mem_cons_of_mem _ h)) (Nat.le_of_succ_le_succ hn)]

theorem length_fgets (hn : 0 < n) (hs : s ≠ []) : (fgets nl n s).2.length < s.length := by
  have hle : ∀ (n : Nat) (s : List α), (fgets nl n s).2.length ≤ s.length := by
    intro n s
    induction s generalizing n with
    | nil => cases n <;> simp [fgets]
    | cons c s ih =>
      cases n with
      | zero => simp [fgets]
      | succ n =>
        rw [fgets]
        split
        · simp
        · exact Nat.le_succ_of_le (ih n)
  cases s with
  | nil => exact absurd rfl hs
  | cons c s =>
    obtain ⟨n, rfl⟩ := Nat.exists_eq_succ_of_ne_zero (by omega : n ≠ 0)
    rw [fgets]
    split
    · simp
    · exact Nat.lt_succ_of_le (hle n s)

theorem reads_eq (hn : 0 < n) {fuel fuel' : Nat} (h : s.length ≤ fuel) (h' : s.length ≤ fuel') :
    reads nl n fuel s = reads nl n fuel' s := by
  induction fuel generalizing fuel' s with
  | zero =>
    obtain rfl := List.length_eq_zero_iff.1 (Nat.le_zero.1 h)
    cases fuel' <;> simp [reads]
  | succ fuel ih =>
    by_cases hs : s = []
    · cases fuel' <;> simp [reads, hs]
    · have hlt : (fgets nl n s).2.length < s.length := length_fgets hn hs
      cases fuel' with
      | zero => exact absurd (List.length_eq_zero_iff.1 (Nat.le_zero.1 h')) hs
      | succ fuel' =>
        rw [reads, reads, if_neg hs, if_neg hs, ih (by omega) (by omega : _ ≤ fuel')]

@[simp] theorem pieces_nil : pieces nl n [] = [] := rfl

theorem pieces_cons (hn : 0 < n) (hs : s ≠ []) :
    pieces nl n s = (fgets nl n s).1 :: pieces nl n (fgets nl n s).2 := by
  have hlt : (fgets nl n s).2.length < s.length := length_fgets hn hs
  obtain ⟨k, hk⟩ := Nat.exists_eq_succ_of_ne_zero (mt List.length_eq_zero_iff.1 hs)
  rw [pieces, hk, reads, if_neg hs, reads_eq hn (by omega : _ ≤ k) (Nat.le_refl _)]
  rfl

/-- **A full line is read before what follows it.** -/
theorem pieces_full (hn : 0 < n) (hb : nl ∉ b) :
    pieces nl n (b ++ nl :: s) = pieces nl n (b ++ [nl]) ++ pieces nl n s := by
  induction hk : b.length using Nat.strongRecOn generalizing b with
  | _ k ih =>
    rw [pieces_cons hn (by simp), pieces_cons hn (by simp : b ++ [nl] ≠ [])]
    by_cases hlt : b.length < n
    · rw [fgets_full hb hlt, fgets_full hb hlt]
      simp
    · -- the rest of the line is a full line again
      have hle : n ≤ b.length := Nat.le_of_not_lt hlt
      rw [fgets_room hb hle, fgets_room hb hle, List.cons_append]
      congr 1
      exact ih (b.drop n).length (by rw [List.length_drop]; omega) (fun h => hb (List.mem_of_mem_drop h)) rfl

/-- **A text is read line by line.** -/
theorem pieces_eq_flatMap (hn : 0 < n) (s : List α) : pieces nl n s = (lines nl s).flatMap (pieces nl n) := by
  induction s using lines_induction nl with
  | hlast s hs =>
    by_cases hne : s = []
    · rw [hne]
      rfl
    · rw [lines_last hs hne, List.flatMap_singleton]
  | hfull b s hb ih => rw [pieces_full hn hb, lines_full hb, List.flatMap_cons, ih]

/-- A line that fits is one piece. -/
theorem pieces_line (hℓ : Split nl [ℓ]) (hlen : ℓ.length ≤ n) : pieces nl n ℓ = [ℓ] := by
  rcases hℓ with ⟨⟨b, hb, rfl⟩, -⟩ | ⟨-, hne, hs⟩
  · simp only [List.length_append, List.length_singleton] at hlen
    rw [pieces_cons (by omega) (by simp), fgets_full hb (by omega)]
    rfl
  · have hpos : 0 < ℓ.length := List.length_pos_iff.2 hne
    rw [pieces_cons (by omega) hne, fgets_last hs hlen]
    rfl

/-- **A line in pieces**: its first `n` characters, and the pieces of the rest. -/
theorem pieces_take (hℓ : Split nl [ℓ]) (hn : 0 < n) : pieces nl n ℓ = ℓ.take n :: pieces nl n (ℓ.drop n) := by
  rcases hℓ with ⟨⟨b, hb, rfl⟩, -⟩ | ⟨-, hne, hs⟩
  · rw [pieces_cons hn (by simp)]
    by_cases hlt : b.length < n
    · have hle : (b ++ [nl]).length ≤ n := by
        rw [List.length_append]
        exact hlt
      rw [fgets_full hb hlt, List.take_of_length_le hle, List.drop_eq_nil_of_le hle]
    · have hle : n ≤ b.length := Nat.le_of_not_lt hlt
      rw [fgets_room hb hle, List.take_append_of_le_length hle, List.drop_append_of_le_length hle]
  · rw [pieces_cons hn hne]
    by_cases hle : ℓ.length ≤ n
    · rw [fgets_last hs hle, List.take_of_length_le hle, List.drop_eq_nil_of_le hle]
    · have hroom := fgets_room hs (s := []) (Nat.le_of_not_le hle)
      rw [List.append_nil, List.append_nil] at hroom
      rw [hroom]

/-- A list of lines of which none meets a condition, or the last one that does. -/
theorem last_or_none {β : Type} (P : β → Prop) (ls : List β) : (∀ ℓ ∈ ls, ¬ P ℓ) ∨
    ∃ pre ℓ post, ls = pre ++ ℓ :: post ∧ P ℓ ∧ ∀ k ∈ post, ¬ P k := by
  induction ls with
  | nil => exact .inl (by simp)
  | cons k ls ih =>
    rcases ih with hnone | ⟨pre, ℓ, post, rfl, hP, hpost⟩
    · by_cases hk : P k
      · exact .inr ⟨[], k, ls, rfl, hk, hnone⟩
      · exact .inl (List.forall_mem_cons.2 ⟨hk, hnone⟩)
    · exact .inr ⟨k :: pre, ℓ, post, rfl, hP, hpost⟩

end Lines
