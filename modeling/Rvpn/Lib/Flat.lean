import Mathlib.Algebra.Group.Nat.Defs
import Mathlib.Data.List.Basic
import Mathlib.Logic.Function.Basic

/-!
# Flat memory, C strings and tables that end with a mark

A memory is a partial map from 32-bit addresses to bytes; reading where nothing is mapped is a fault, `none`.

* `read32`, `compare` — a little-endian word, and the loop of `strcmp` and `_stricmp` against a given string;
  `compare_of_strAt` says what it returns on a string that is there;
* `walk` — a loop over a table: each round stops, finds something, or goes on to the next entry. On a table of `es` it
  finds what `search` does, once there is fuel for all entries (`walk_of_tableAt`);
* `write32`, `write8`, `copy` — writing where something is mapped; `Mem.map` maps a piece of memory;
* `Mem.Sub`, `Mem.off` — memories compared away from the bytes that are written to; `InSpan` says which these are.
-/

namespace Flat

abbrev Addr := UInt32

abbrev Mem := Addr → Option UInt8

/-- A character of a string: a byte other than NUL. -/
abbrev AChar := {c : UInt8 // c ≠ 0}

abbrev AStr := List AChar

def read32 (m : Mem) (a : Addr) : Option UInt32 := do
  let b0 ← m a
  let b1 ← m (a + 1)
  let b2 ← m (a + 2)
  let b3 ← m (a + 3)
  some (b0.toUInt32 ||| (b1.toUInt32 <<< 8) ||| (b2.toUInt32 <<< 16) ||| (b3.toUInt32 <<< 24))

/-! ## Strings -/

/-- Whether the string at `a` is `s`, both seen through `f`. Nothing is read behind the first difference. -/
def compare (f : AChar → AChar) (m : Mem) (a : Addr) : AStr → Option Bool
  | [] => (m a).map fun b => b = 0
  | c :: s =>
    match m a with
    | none => none
    | some b => if h : b = 0 then some false else if f ⟨b, h⟩ = f c then compare f m (a + 1) s else some false

/-- The string `s` and its NUL are at `a`. -/
def StrAt (m : Mem) (a : Addr) : AStr → Prop
  | [] => m a = some 0
  | c :: s => m a = some c.1 ∧ StrAt m (a + 1) s

instance : ∀ (m : Mem) (a : Addr) (s : AStr), Decidable (StrAt m a s)
  | m, a, [] => inferInstanceAs (Decidable (m a = some 0))
  | m, a, c :: s =>
    have := instDecidableStrAt m (a + 1) s
    inferInstanceAs (Decidable (m a = some c.1 ∧ StrAt m (a + 1) s))

variable {f : AChar → AChar} {m : Mem} {a : Addr}

theorem compare_of_strAt {s t : AStr} (h : StrAt m a t) : compare f m a s = some (decide (t.map f = s.map f)) := by
  induction s generalizing a t with
  | nil =>
    cases t with
    | nil =>
      have ha : m a = some 0 := h
      simp [compare, ha]
    | cons d t => simp [compare, h.1, d.2]
  | cons c s ih =>
    cases t with
    | nil =>
      have ha : m a = some 0 := h
      simp [compare, ha]
    | cons d t =>
      simp only [compare, h.1, dif_neg d.2, List.map_cons, List.cons.injEq, ih h.2]
      split
      · next he => simp [he]
      · next he => simp [he]

/-! ## Tables -/

inductive Round (β : Type) where
  | stop
  | found (b : β)
  | next

variable {σ α β : Type}

/-- A round that goes on unless it finds something. -/
def Round.ofOption : Option β → Round β
  | some b => .found b
  | none => .next

/-- The loop, with fuel; `some none` is a loop that has stopped. -/
def walk (round : σ → Option (Round β)) (advance : σ → σ) : Nat → σ → Option (Option β)
  | 0, _ => none
  | n + 1, s =>
    match round s with
    | none => none
    | some .stop => some none
    | some (.found b) => some (some b)
    | some .next => walk round advance n (advance s)

/-- The entries `es` are where the loop passes, and the end mark behind them. -/
def TableAt (advance : σ → σ) (entry : σ → α → Prop) (mark : σ → Prop) : σ → List α → Prop
  | s, [] => mark s
  | s, e :: es => entry s e ∧ TableAt advance entry mark (advance s) es

instance {advance : σ → σ} {entry : σ → α → Prop} {mark : σ → Prop} [∀ s e, Decidable (entry s e)]
    [∀ s, Decidable (mark s)] : ∀ s es, Decidable (TableAt advance entry mark s es)
  | s, [] => inferInstanceAs (Decidable (mark s))
  | s, e :: es =>
    have := @instDecidableTableAt advance entry mark _ _ (advance s) es
    inferInstanceAs (Decidable (entry s e ∧ TableAt advance entry mark (advance s) es))

/-- What is found in the first entry that has something. -/
def search (advance : σ → σ) (find : σ → α → Option β) : σ → List α → Option β
  | _, [] => none
  | s, e :: es => (find s e).or (search advance find (advance s) es)

theorem exists_of_tableAt {advance : σ → σ} {entry : σ → α → Prop} {mark : σ → Prop} {es : List α} {s : σ}
    (h : TableAt advance entry mark s es) {e : α} (he : e ∈ es) : ∃ t, entry t e := by
  induction es generalizing s with
  | nil => cases he
  | cons d es ih =>
    rcases List.mem_cons.1 he with rfl | he
    · exact ⟨s, h.1⟩
    · exact ih h.2 he

/-- What is found may not depend on where it is. -/
theorem search_const {advance : σ → σ} {find : α → Option β} {s : σ} {es : List α} :
    search advance (fun _ e => find e) s es = es.findSome? find := by
  induction es generalizing s with
  | nil => rfl
  | cons e es ih =>
    rw [search, List.findSome?_cons, ih]
    cases find e <;> rfl

/-- **The walk rule**: a loop whose rounds look at one entry each searches the table. -/
theorem walk_of_tableAt {round : σ → Option (Round β)} {advance : σ → σ} {entry : σ → α → Prop} {mark : σ → Prop}
    (find : σ → α → Option β) (hmark : ∀ s, mark s → round s = some .stop) {es : List α}
    (hentry : ∀ s e, e ∈ es → entry s e → round s = some (.ofOption (find s e)))
    {s : σ} (h : TableAt advance entry mark s es) {n : Nat} (hn : es.length < n) :
    walk round advance n s = some (search advance find s es) := by
  induction es generalizing s n with
  | nil =>
    obtain ⟨n, rfl⟩ := Nat.exists_eq_succ_of_ne_zero (by omega : n ≠ 0)
    rw [walk, hmark s h, search]
  | cons e es ih =>
    obtain ⟨n, rfl⟩ := Nat.exists_eq_succ_of_ne_zero (by omega : n ≠ 0)
    rw [walk, hentry s e List.mem_cons_self h.1, search]
    cases find s e with
    | some b => rfl
    | none =>
      rw [List.length_cons] at hn
      exact ih (fun t d hd => hentry t d (List.mem_cons_of_mem _ hd)) h.2 (by omega)

theorem TableAt.imp {advance : σ → σ} {entry entry' : σ → α → Prop} {mark mark' : σ → Prop}
    (hentry : ∀ s e, entry s e → entry' s e) (hmark : ∀ s, mark s → mark' s) {es : List α} {s : σ}
    (h : TableAt advance entry mark s es) : TableAt advance entry' mark' s es := by
  induction es generalizing s with
  | nil => exact hmark s h
  | cons e es ih => exact ⟨hentry s e h.1, ih h.2⟩

/-! ## Writing -/

/-- The bytes of the word at `a`. -/
def cover (a : Addr) : List Addr := [a, a + 1, a + 2, a + 3]

def write32 (m : Mem) (a : Addr) (w : UInt32) : Option Mem :=
  if (m a).isSome ∧ (m (a + 1)).isSome ∧ (m (a + 2)).isSome ∧ (m (a + 3)).isSome then
    some fun b => if b = a then some w.toUInt8 else if b = a + 1 then some (w >>> 8).toUInt8
      else if b = a + 2 then some (w >>> 16).toUInt8 else if b = a + 3 then some (w >>> 24).toUInt8 else m b
  else none

def write8 (m : Mem) (a : Addr) (b : UInt8) : Option Mem :=
  if (m a).isSome then some (Function.update m a (some b)) else none

/-- `memcpy` of pieces that do not overlap. -/
def copy (m : Mem) (dst src : Addr) : Nat → Option Mem
  | 0 => some m
  | n + 1 => do
    let m' ← copy m dst src n
    let b ← m' (src + UInt32.ofNat n)
    write8 m' (dst + UInt32.ofNat n) b

/-- One of the `n` bytes from `a` on. -/
def InSpan (a : Addr) (n : Nat) (b : Addr) : Prop := (b - a).toNat < n

instance (a : Addr) (n : Nat) (b : Addr) : Decidable (InSpan a n b) := inferInstanceAs (Decidable (_ < _))

/-- `n` bytes, all zero, are mapped. -/
def Mem.map (m : Mem) (a : Addr) (n : Nat) : Mem := fun b => if InSpan a n b then some 0 else m b

/-- What is readable reads the same. -/
def Mem.Sub (m m' : Mem) : Prop := ∀ a b, m a = some b → m' a = some b

/-- The memory with some bytes taken away. -/
def Mem.off (m : Mem) (W : Addr → Prop) [DecidablePred W] : Mem := fun a => if W a then none else m a

section
variable {m m' : Mem} {a c : Addr} {w : UInt32}

/-- A word from its bytes, low byte first. -/
theorem word_bytes (w : UInt32) : (w.toUInt8.toUInt32 ||| ((w >>> 8).toUInt8.toUInt32 <<< 8) |||
    ((w >>> 16).toUInt8.toUInt32 <<< 16) ||| ((w >>> 24).toUInt8.toUInt32 <<< 24)) = w := by
  have hlt : ∀ i, 32 ≤ i → w.toNat.testBit i = false := fun i hi =>
    Nat.testBit_lt_two_pow (Nat.lt_of_lt_of_le w.toNat_lt (Nat.pow_le_pow_right (by decide) hi))
  apply UInt32.toNat_inj.1
  apply Nat.eq_of_testBit_eq
  intro i
  simp only [UInt32.toNat_or, UInt32.toNat_shiftLeft, UInt8.toNat_toUInt32, UInt32.toNat_toUInt8,
    UInt32.toNat_shiftRight, UInt32.reduceToNat, Nat.testBit_or, Nat.testBit_mod_two_pow, Nat.testBit_shiftLeft,
    Nat.testBit_shiftRight]
  rcases Nat.lt_or_ge i 32 with hi | hi
  · simp [hi]
    grind
  · have hw := hlt i hi
    simp [hw]
    omega

theorem read32_isSome : (read32 m a).isSome ↔ ∀ b ∈ cover a, (m b).isSome := by
  simp only [cover, List.mem_cons, List.not_mem_nil, or_false, forall_eq_or_imp, forall_eq, read32, Option.bind_eq_bind,
    Option.isSome_iff_exists]
  constructor
  · rintro ⟨w, hw⟩
    simp only [Option.bind_eq_some_iff] at hw
    obtain ⟨b0, h0, b1, h1, b2, h2, b3, h3, -⟩ := hw
    exact ⟨⟨b0, h0⟩, ⟨b1, h1⟩, ⟨b2, h2⟩, b3, h3⟩
  · rintro ⟨⟨b0, h0⟩, ⟨b1, h1⟩, ⟨b2, h2⟩, b3, h3⟩
    exact ⟨_, by rw [h0, h1, h2, h3]; rfl⟩

theorem read32_congr (h : ∀ b ∈ cover a, m' b = m b) : read32 m' a = read32 m a := by
  rw [read32, read32, h a (by simp [cover]), h (a + 1) (by simp [cover]), h (a + 2) (by simp [cover]),
    h (a + 3) (by simp [cover])]

/-- **A write** to a word that can be read changes that word and no other byte. -/
theorem write32_spec (h : (read32 m a).isSome) (w : UInt32) :
    ∃ m', write32 m a w = some m' ∧ read32 m' a = some w ∧ (∀ b ∉ cover a, m' b = m b) ∧ ∀ b, (m b).isSome → (m' b).isSome := by
  rw [read32_isSome] at h
  have hmapped : (m a).isSome ∧ (m (a + 1)).isSome ∧ (m (a + 2)).isSome ∧ (m (a + 3)).isSome := by
    simpa [cover] using h
  refine ⟨_, if_pos hmapped, ?_, fun b hb => ?_, fun b hb => ?_⟩
  · have h1 : a + 1 ≠ a := by grind
    have h2 : a + 2 ≠ a ∧ a + 2 ≠ a + 1 := ⟨by grind, by grind⟩
    have h3 : a + 3 ≠ a ∧ a + 3 ≠ a + 1 ∧ a + 3 ≠ a + 2 := ⟨by grind, by grind, by grind⟩
    simp only [read32, if_true, if_neg h1, if_neg h2.1, if_neg h2.2, if_neg h3.1, if_neg h3.2.1, if_neg h3.2.2,
      Option.bind_eq_bind, Option.bind_some, word_bytes]
  · simp only [cover, List.mem_cons, List.not_mem_nil, or_false, not_or] at hb
    rw [if_neg hb.1, if_neg hb.2.1, if_neg hb.2.2.1, if_neg hb.2.2.2]
  · split_ifs
    · rfl
    · rfl
    · rfl
    · rfl
    · exact hb

theorem Mem.Sub.read32 (h : m.Sub m') (hr : read32 m a = some w) : Flat.read32 m' a = some w := by
  simp only [Flat.read32, Option.bind_eq_bind, Option.bind_eq_some_iff] at hr ⊢
  obtain ⟨b0, h0, b1, h1, b2, h2, b3, h3, hw⟩ := hr
  exact ⟨b0, h _ _ h0, b1, h _ _ h1, b2, h _ _ h2, b3, h _ _ h3, hw⟩

theorem Mem.Sub.strAt (h : m.Sub m') {s : AStr} (hs : StrAt m a s) : StrAt m' a s := by
  induction s generalizing a with
  | nil => exact h _ _ hs
  | cons c s ih => exact ⟨h _ _ hs.1, ih hs.2⟩

theorem Mem.off_sub (m : Mem) (W : Addr → Prop) [DecidablePred W] : (m.off W).Sub m := by
  intro a b h
  rw [Mem.off] at h
  split at h
  · cases h
  · exact h

theorem Mem.off_congr {W : Addr → Prop} [DecidablePred W] (h : ∀ b, ¬ W b → m' b = m b) : m'.off W = m.off W := by
  funext b
  rw [Mem.off, Mem.off]
  split
  · rfl
  · next hb => exact h b hb

theorem write8_spec (h : (m a).isSome) (v : UInt8) :
    ∃ m', write8 m a v = some m' ∧ m' a = some v ∧ (∀ b ≠ a, m' b = m b) ∧ ∀ b, (m b).isSome → (m' b).isSome := by
  refine ⟨_, if_pos h, Function.update_self .., fun b hb => Function.update_of_ne hb .., fun b hb => ?_⟩
  by_cases hba : b = a
  · subst hba
    rw [Function.update_self]
    rfl
  · rw [Function.update_of_ne hba]
    exact hb

/-! ## Pieces of memory -/

variable {n : Nat}

theorem inSpan_iff (hn : n ≤ 2 ^ 32) {b : Addr} : InSpan a n b ↔ ∃ k < n, b = a + UInt32.ofNat k := by
  constructor
  · intro h
    refine ⟨(b - a).toNat, h, ?_⟩
    rw [UInt32.ofNat_toNat]
    grind
  · rintro ⟨k, hk, rfl⟩
    have hsub : a + UInt32.ofNat k - a = UInt32.ofNat k := by grind
    rw [InSpan, hsub, UInt32.toNat_ofNat']
    omega

theorem inSpan_add (hn : n ≤ 2 ^ 32) {k : Nat} (hk : k < n) : InSpan a n (a + UInt32.ofNat k) :=
  (inSpan_iff hn).2 ⟨k, hk, rfl⟩

theorem forall_inSpan (hn : n ≤ 2 ^ 32) {P : Addr → Prop} :
    (∀ b, InSpan a n b → P b) ↔ ∀ k < n, P (a + UInt32.ofNat k) := by
  constructor
  · exact fun h k hk => h _ (inSpan_add hn hk)
  · intro h b hb
    obtain ⟨k, hk, rfl⟩ := (inSpan_iff hn).1 hb
    exact h k hk

/-- Different offsets are different bytes. -/
theorem add_ofNat_inj {k j : Nat} (hk : k < 2 ^ 32) (hj : j < 2 ^ 32) (h : a + UInt32.ofNat k = a + UInt32.ofNat j) :
    k = j := by
  have hkj : UInt32.ofNat k = UInt32.ofNat j := by grind
  have := congrArg UInt32.toNat hkj
  rw [UInt32.toNat_ofNat', UInt32.toNat_ofNat'] at this
  omega

theorem mem_cover_iff {b : Addr} : b ∈ cover a ↔ InSpan a 4 b := by
  rw [inSpan_iff (by decide)]
  simp only [cover, List.mem_cons, List.not_mem_nil, or_false]
  constructor
  · rintro (rfl | rfl | rfl | rfl)
    · exact ⟨0, by decide, by simp⟩
    · exact ⟨1, by decide, rfl⟩
    · exact ⟨2, by decide, rfl⟩
    · exact ⟨3, by decide, rfl⟩
  · rintro ⟨k, hk, rfl⟩
    obtain rfl | rfl | rfl | rfl : k = 0 ∨ k = 1 ∨ k = 2 ∨ k = 3 := by omega
    · exact .inl (by simp)
    · exact .inr (.inl rfl)
    · exact .inr (.inr (.inl rfl))
    · exact .inr (.inr (.inr rfl))

/-- A word from the same bytes at another address. -/
theorem read32_moved {a' : Addr} (h : ∀ k < 4, m' (a' + UInt32.ofNat k) = m (a + UInt32.ofNat k)) :
    read32 m' a' = read32 m a := by
  have h0 : m' a' = m a := by simpa using h 0 (by decide)
  have h1 : m' (a' + 1) = m (a + 1) := h 1 (by decide)
  have h2 : m' (a' + 2) = m (a + 2) := h 2 (by decide)
  have h3 : m' (a' + 3) = m (a + 3) := h 3 (by decide)
  simp only [read32, h0, h1, h2, h3]

/-- **A copy** of bytes that can be read to bytes that are mapped. -/
theorem copy_spec {dst src : Addr} (hn : n ≤ 2 ^ 32) (hsrc : ∀ b, InSpan src n b → (m b).isSome)
    (hdst : ∀ b, InSpan dst n b → (m b).isSome) (hdis : ∀ b, InSpan src n b → ¬ InSpan dst n b) :
    ∃ m', copy m dst src n = some m' ∧ (∀ k < n, m' (dst + UInt32.ofNat k) = m (src + UInt32.ofNat k)) ∧
      (∀ b, ¬ InSpan dst n b → m' b = m b) ∧ ∀ b, (m b).isSome → (m' b).isSome := by
  induction n with
  | zero => exact ⟨m, rfl, fun k hk => absurd hk (Nat.not_lt_zero k), fun _ _ => rfl, fun _ h => h⟩
  | succ n ih =>
    have hup : ∀ {a b : Addr}, InSpan a n b → InSpan a (n + 1) b := fun h => Nat.lt_succ_of_lt h
    obtain ⟨m₁, hcopy, heq, hoff, hmapped⟩ :=
      ih (by omega) (fun b hb => hsrc b (hup hb)) (fun b hb => hdst b (hup hb)) fun b hb hb' => hdis b (hup hb) (hup hb')
    have hlast : InSpan src (n + 1) (src + UInt32.ofNat n) := inSpan_add hn (Nat.lt_succ_self n)
    have hread : m₁ (src + UInt32.ofNat n) = m (src + UInt32.ofNat n) := hoff _ fun h => hdis _ hlast (hup h)
    obtain ⟨v, hv⟩ := Option.isSome_iff_exists.1 (hsrc _ hlast)
    obtain ⟨m', hw, hself, hother, hmapped'⟩ :=
      write8_spec (hmapped _ (hdst _ (inSpan_add hn (Nat.lt_succ_self n)))) v
    refine ⟨m', by simp [copy, hcopy, hread, hv, hw], fun k hk => ?_, fun b hb => ?_, fun b hb => hmapped' b (hmapped b hb)⟩
    · rcases Nat.lt_succ_iff_lt_or_eq.1 hk with hk' | rfl
      · rw [hother _ fun he => Nat.ne_of_lt hk' (add_ofNat_inj (by omega) (by omega) he), heq k hk']
      · rw [hself, hv]
    · rw [hother b fun he => hb (he ▸ inSpan_add hn (Nat.lt_succ_self n)), hoff b fun h => hb (hup h)]

end

end Flat
