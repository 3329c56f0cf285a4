import Mathlib.Algebra.Group.Nat.Defs
import Mathlib.Data.List.Basic

/-!
# Loops over an enumeration

`for (index = 0;; index++)` around a call that returns the entry at an index, and says behind the last one that there
are no more. The index has 32 bits. From some call on the call may fail, with the same error each time.

* `Source` — the entries, and the error; `answer` is what a call returns, `none` being "no more items";
* `scan` — the loop, with fuel;
* `scan_answer_eq_some` — the loop ends exactly if the last entry is behind the reach neither of the index nor of the
  error (`Source.Ends`) and every round ends; the output is then that of the rounds, in order (`collect`).
-/

namespace Scan

variable {β ω : Type}

structure Source (β : Type) where
  entries : List β
  fault : Option (Nat × β)

def Source.answer (s : Source β) (i : UInt32) : Option β :=
  match s.fault with
  | none => s.entries[i.toNat]?
  | some (first, e) => if first ≤ i.toNat then some e else s.entries[i.toNat]?

/-- Some call says that there are no more items. -/
def Source.Ends (s : Source β) : Prop := s.entries.length < 2 ^ 32 ∧ ∀ f ∈ s.fault, s.entries.length < f.1

def scan (next : UInt32 → Option β) (body : UInt32 → β → Option (List ω)) : Nat → UInt32 → Option (List ω)
  | 0, _ => none
  | n + 1, i =>
    match next i with
    | none => some []
    | some b => (body i b).bind fun out => (scan next body n (i + 1)).map (out ++ ·)

/-- The rounds on these entries, from index `i` on. -/
def collect (body : UInt32 → β → Option (List ω)) : UInt32 → List β → Option (List ω)
  | _, [] => some []
  | i, b :: bs => (body i b).bind fun out => (collect body (i + 1) bs).map (out ++ ·)

variable {s : Source β} {next : UInt32 → Option β} {body body' : UInt32 → β → Option (List ω)} {n m : Nat} {i : UInt32}
  {b : β} {bs : List β} {out : List ω}

/-! ## The loop -/

theorem answer_ne_none (h : ¬ s.Ends) (i : UInt32) : s.answer i ≠ none := by
  have hi : i.toNat < 2 ^ 32 := i.toNat_lt
  intro hnone
  apply h
  cases hf : s.fault with
  | none =>
    have hlen : s.entries.length ≤ i.toNat := by simpa [Source.answer, hf] using hnone
    exact ⟨by omega, by simp [hf]⟩
  | some f =>
    obtain ⟨first, e⟩ := f
    simp only [Source.answer, hf] at hnone
    split at hnone
    · cases hnone
    · have hlen : s.entries.length ≤ i.toNat := by simpa using hnone
      refine ⟨by omega, ?_⟩
      intro f hf'
      obtain rfl : (first, e) = f := by simpa [hf] using hf'
      simp only
      omega

/-- The answer within the entries of an enumeration that ends, and behind them. -/
theorem answer_of_ends (h : s.Ends) (hi : i.toNat ≤ s.entries.length) : s.answer i = s.entries[i.toNat]? := by
  cases hf : s.fault with
  | none => simp [Source.answer, hf]
  | some f =>
    have hlt : s.entries.length < f.1 := h.2 f (by simp [hf])
    simp only [Source.answer, hf]
    rw [if_neg (by omega)]

theorem scan_of_ne_none (h : ∀ i, next i ≠ none) : scan next body n i = none := by
  induction n generalizing i with
  | zero => rfl
  | succ n ih =>
    simp only [scan]
    cases hi : next i with
    | none => exact absurd hi (h i)
    | some b => simp [ih]

theorem scan_drop (h : s.Ends) (hi : i.toNat ≤ s.entries.length) (hd : s.entries.drop i.toNat = bs) :
    scan s.answer body n i = if bs.length < n then collect body i bs else none := by
  induction bs generalizing n i with
  | nil =>
    have hlen : s.entries.length ≤ i.toNat := List.drop_eq_nil_iff.1 hd
    have hnone : s.answer i = none := by simp [answer_of_ends h hi, hlen]
    cases n with
    | zero => rfl
    | succ n => simp [scan, hnone, collect]
  | cons b bs ih =>
    have hlt : i.toNat < s.entries.length := by
      by_contra hge
      simp [List.drop_eq_nil_of_le (Nat.le_of_not_lt hge)] at hd
    have hsome : s.answer i = some b := by
      rw [answer_of_ends h hi, ← List.head?_drop, hd]
      rfl
    have hsucc : (i + 1).toNat = i.toNat + 1 := by
      have := h.1
      rw [UInt32.toNat_add]
      simp only [UInt32.reduceToNat]
      omega
    cases n with
    | zero => rfl
    | succ n =>
      have htail : s.entries.drop (i + 1).toNat = bs := by rw [hsucc, ← List.drop_drop, hd, List.drop_one, List.tail_cons]
      simp only [scan, hsome, ih (by omega) htail, collect, List.length_cons, Nat.add_lt_add_iff_right]
      split
      · rfl
      · cases body i b <;> rfl

/-- **What a loop over an enumeration does.** -/
theorem scan_answer_eq_some :
    scan s.answer body n 0 = some out ↔ s.Ends ∧ s.entries.length < n ∧ collect body 0 s.entries = some out := by
  by_cases h : s.Ends
  · rw [scan_drop h (Nat.zero_le _) rfl]
    simp only [UInt32.toNat_zero, List.drop_zero, h, true_and]
    split
    · next hn => simp [hn]
    · next hn => simp [hn]
  · simp [scan_of_ne_none (answer_ne_none h), h]

theorem collect_mono (hb : ∀ i, ∀ b ∈ bs, ∀ x, body i b = some x → body' i b = some x) (h : collect body i bs = some out) :
    collect body' i bs = some out := by
  induction bs generalizing i out with
  | nil => exact h
  | cons b bs ih =>
    simp only [collect, Option.bind_eq_some_iff, Option.map_eq_some_iff] at h ⊢
    obtain ⟨x, hx, y, hy, he⟩ := h
    exact ⟨x, hb i b List.mem_cons_self x hx, y, ih (fun i b hm => hb i b (List.mem_cons_of_mem _ hm)) hy, he⟩

/-- More fuel, also within the rounds, changes nothing. -/
theorem scan_mono (hb : ∀ i b x, body i b = some x → body' i b = some x) (hn : n ≤ m)
    (h : scan s.answer body n 0 = some out) : scan s.answer body' m 0 = some out := by
  obtain ⟨hends, hlen, hc⟩ := scan_answer_eq_some.1 h
  exact scan_answer_eq_some.2 ⟨hends, by omega, collect_mono (fun i b _ x => hb i b x) hc⟩

/-! ## The rounds -/

/-- If rounds end with enough fuel, one amount of fuel is enough for all of them. -/
theorem exists_collect (body : Nat → UInt32 → β → Option (List ω))
    (hmono : ∀ n m i b x, n ≤ m → body n i b = some x → body m i b = some x)
    (h : ∀ i, ∀ b ∈ bs, ∃ n x, body n i b = some x) : ∃ n out, collect (body n) i bs = some out := by
  induction bs generalizing i with
  | nil => exact ⟨0, [], rfl⟩
  | cons b bs ih =>
    obtain ⟨n, x, hx⟩ := h i b List.mem_cons_self
    obtain ⟨m, y, hy⟩ := ih (i := i + 1) fun i b hm => h i b (List.mem_cons_of_mem _ hm)
    have hx' : body (max n m) i b = some x := hmono _ _ _ _ _ (Nat.le_max_left _ _) hx
    have hy' : collect (body (max n m)) (i + 1) bs = some y :=
      collect_mono (fun i b _ z hz => hmono _ _ _ _ _ (Nat.le_max_right _ _) hz) hy
    exact ⟨max n m, x ++ y, by simp [collect, hx', hy']⟩

theorem round_of_collect (h : collect body i bs = some out) (hb : b ∈ bs) : ∃ j x, body j b = some x := by
  induction bs generalizing i out with
  | nil => cases hb
  | cons a bs ih =>
    simp only [collect, Option.bind_eq_some_iff, Option.map_eq_some_iff] at h
    obtain ⟨x, hx, y, hy, -⟩ := h
    rcases List.mem_cons.1 hb with rfl | hb
    · exact ⟨i, x, hx⟩
    · exact ih hy hb

/-- **When a loop over an enumeration ends**: if the enumeration does, and each of the rounds. -/
theorem exists_scan (body : Nat → UInt32 → β → Option (List ω)) {good : β → Prop}
    (hmono : ∀ n m i b x, n ≤ m → body n i b = some x → body m i b = some x)
    (hgood : ∀ i, ∀ b ∈ s.entries, (∃ n x, body n i b = some x) ↔ good b) :
    (∃ n out, scan s.answer (body n) n 0 = some out) ↔ s.Ends ∧ ∀ b ∈ s.entries, good b := by
  constructor
  · rintro ⟨n, out, h⟩
    obtain ⟨hends, -, hc⟩ := scan_answer_eq_some.1 h
    refine ⟨hends, fun b hb => ?_⟩
    obtain ⟨j, x, hx⟩ := round_of_collect hc hb
    exact (hgood j b hb).1 ⟨n, x, hx⟩
  · rintro ⟨hends, hall⟩
    obtain ⟨n, out, hc⟩ := exists_collect (i := 0) body hmono fun i b hb => (hgood i b hb).2 (hall b hb)
    have hc' : collect (body (max n (s.entries.length + 1))) 0 s.entries = some out :=
      collect_mono (fun i b _ x hx => hmono _ _ _ _ _ (Nat.le_max_left _ _) hx) hc
    exact ⟨max n (s.entries.length + 1), out, scan_answer_eq_some.2 ⟨hends, by omega, hc'⟩⟩

/-- The same for rounds that need no fuel. -/
theorem exists_scan_plain {good : β → Prop} (hgood : ∀ i, ∀ b ∈ s.entries, (body i b).isSome ↔ good b) :
    (∃ n out, scan s.answer body n 0 = some out) ↔ s.Ends ∧ ∀ b ∈ s.entries, good b := by
  refine exists_scan (fun _ => body) (fun _ _ _ _ _ _ hx => hx) fun i b hb => ?_
  rw [← hgood i b hb, Option.isSome_iff_exists]
  exact ⟨fun ⟨_, hx⟩ => hx, fun hx => ⟨0, hx⟩⟩

/-- Whatever is put out comes from one of the rounds. -/
theorem mem_collect (h : collect body i bs = some out) {e : ω} (he : e ∈ out) :
    ∃ (k : Nat) (b : β) (j : UInt32) (x : List ω), bs[k]? = some b ∧ body j b = some x ∧ e ∈ x := by
  induction bs generalizing i out with
  | nil =>
    obtain rfl : [] = out := by simpa [collect] using h
    cases he
  | cons a bs ih =>
    simp only [collect, Option.bind_eq_some_iff, Option.map_eq_some_iff] at h
    obtain ⟨x, hx, y, hy, rfl⟩ := h
    rcases List.mem_append.1 he with he | he
    · exact ⟨0, a, i, x, rfl, hx, he⟩
    · obtain ⟨k, b, j, z, hk, hz, hez⟩ := ih hy he
      exact ⟨k + 1, b, j, z, hk, hz, hez⟩

/-- **One round stands in the output once**, and what stands before and behind it comes from the other rounds. -/
theorem collect_split (h : collect body i bs = some out) {k : Nat} (hk : bs[k]? = some b) :
    ∃ (j : UInt32) (pre x post : List ω), body j b = some x ∧ out = pre ++ x ++ post ∧
      ∀ e ∈ pre ++ post, ∃ (k' : Nat) (b' : β) (j' : UInt32) (y : List ω),
        k' ≠ k ∧ bs[k']? = some b' ∧ body j' b' = some y ∧ e ∈ y := by
  induction bs generalizing i out k with
  | nil => cases hk
  | cons a bs ih =>
    simp only [collect, Option.bind_eq_some_iff, Option.map_eq_some_iff] at h
    obtain ⟨x, hx, y, hy, rfl⟩ := h
    cases k with
    | zero =>
      obtain rfl : a = b := by simpa using hk
      refine ⟨i, [], x, y, hx, by simp, ?_⟩
      intro e he
      obtain ⟨k', b', j', z, hk', hz, hez⟩ := mem_collect hy (by simpa using he)
      exact ⟨k' + 1, b', j', z, by omega, hk', hz, hez⟩
    | succ k =>
      obtain ⟨j, pre, z, post, hz, rfl, hrest⟩ := ih hy (by simpa using hk)
      refine ⟨j, x ++ pre, z, post, hz, by simp, ?_⟩
      intro e he
      simp only [List.append_assoc] at he
      rcases List.mem_append.1 he with he | he
      · exact ⟨0, a, i, x, by omega, rfl, hx, he⟩
      · obtain ⟨k', b', j', w, hne, hk', hw, hew⟩ := hrest e he
        exact ⟨k' + 1, b', j', w, by omega, hk', hw, hew⟩

end Scan
