import Mathlib.Data.List.TakeWhile
import Mathlib.Tactic.IntervalCases
import Rvpn.Lib.Decimal
import Rvpn.Registry.Text

/-!
# Reading a netsh command line (emulate_driver_running.c:3636-3666, 3694-3842)

| here | there |
| --- | --- |
| `wcsstr`, `wcschr`   | the C functions, with the text found instead of a pointer to it |
| `copyUntil`          | `while (*p && … && i < n) dst[i++] = *p++` |
| `parseField`         | one `key=value` block of `ParseNetshCommand` |
| `scanUnsigned`, `scanQuad` | `swscanf_s(…, L"%u.%u.%u.%u", …)` |
| `wtoi`               | `_wtoi` |

What a digit and a space is, and what a number becomes that does not fit, is left to the C library (`Crt`), except that
`0` to `9` are digits with their values and numbers that fit are read exactly. `argument` and `dottedQuad` say what is
written, not what the code makes of it.
-/

namespace Rvpn.Netsh

open Registry (WChar WStr wide)

def dot : WChar := ⟨0x2E, by decide⟩
def colon : WChar := ⟨0x3A, by decide⟩
def slash : WChar := ⟨0x2F, by decide⟩
def quote : WChar := ⟨0x22, by decide⟩
def space : WChar := ⟨0x20, by decide⟩
def equals : WChar := ⟨0x3D, by decide⟩
def plusSign : WChar := ⟨0x2B, by decide⟩
def minusSign : WChar := ⟨0x2D, by decide⟩

/-! ## Finding and copying -/

/-- `wcsstr(s, t)`: `s` from the first occurrence of `t` on. -/
def wcsstr (s t : WStr) : Option WStr :=
  if t.isPrefixOf s then some s
  else match s with
    | [] => none
    | _ :: s => wcsstr s t

/-- Whether `wcsstr(s, t)` finds anything. -/
def contains (s t : WStr) : Bool := (wcsstr s t).isSome

def copyUntil (stop : WChar → Bool) : Nat → WStr → WStr
  | 0, _ => []
  | _, [] => []
  | n + 1, c :: s => if stop c then [] else c :: copyUntil stop n s

def isEnd (c : WChar) : Bool := c = space || c = quote

def skipQuote : WStr → WStr
  | [] => []
  | c :: s => if c = quote then s else c :: s

def parseField (cmd key : WStr) (n : Nat) : Option WStr :=
  (wcsstr cmd key).map fun p => copyUntil isEnd n (skipQuote (p.drop key.length))

/-- The argument of `key` as it is written in the command. -/
def argument (cmd key : WStr) : Option WStr :=
  (wcsstr cmd key).map fun p => (skipQuote (p.drop key.length)).takeWhile fun c => !isEnd c

theorem copyUntil_eq (stop : WChar → Bool) (n : Nat) (s : WStr) :
    copyUntil stop n s = (s.takeWhile fun c => !stop c).take n := by
  induction s generalizing n with
  | nil => cases n <;> simp [copyUntil]
  | cons c s ih =>
    cases n with
    | zero => simp [copyUntil]
    | succ n =>
      by_cases hc : stop c = true
      · simp [copyUntil, hc]
      · simp [copyUntil, hc, ih]

variable {k s t u v w x y : WStr} {c e : WChar}

theorem contains_iff : contains s t = true ↔ t <:+: s := by
  unfold contains
  induction s with
  | nil => cases t <;> simp [wcsstr]
  | cons c s ih =>
    rw [wcsstr.eq_def, List.infix_cons_iff, ← ih, ← List.isPrefixOf_iff_prefix]
    split
    · next h => simp [h]
    · next h => simp [h]

theorem wcsstr_of_prefix (h : t <+: u) : wcsstr u t = some u := by
  rw [wcsstr.eq_def, if_pos (List.isPrefixOf_iff_prefix.2 h)]

/-- Where the text does not start, the search goes on. -/
theorem wcsstr_append (h : ∀ w, w <:+ u → w ≠ [] → ¬ t <+: w ++ v) : wcsstr (u ++ v) t = wcsstr v t := by
  induction u with
  | nil => rfl
  | cons c u ih =>
    have hc : ¬ t <+: c :: (u ++ v) := h (c :: u) (List.suffix_refl _) (by simp)
    rw [List.cons_append, wcsstr.eq_def, if_neg (by rwa [List.isPrefixOf_iff_prefix])]
    apply ih
    intro w hw
    exact h w (hw.trans (List.suffix_cons c u))

/-- Up to the first `e` both texts are the same. -/
theorem prefix_at (hk : e ∉ k) (hw : e ∉ w) : k ++ e :: x <+: w ++ e :: y ↔ k = w ∧ x <+: y := by
  induction k generalizing w with
  | nil =>
    cases w with
    | nil => simp
    | cons a w => simp [show e ≠ a from fun h => hw (h ▸ List.mem_cons_self)]
  | cons b k ih =>
    have hb : b ≠ e := fun h => hk (h ▸ List.mem_cons_self)
    have hk' : e ∉ k := fun h => hk (List.mem_cons_of_mem _ h)
    cases w with
    | nil => simp [hb]
    | cons a w =>
      have hw' : e ∉ w := fun h => hw (List.mem_cons_of_mem _ h)
      simp [ih hk' hw', and_assoc]

/-- A text that has no `c` before its `e` does not start where a `c` comes first. -/
theorem not_prefix_at (hk : c ∉ k) (hce : c ≠ e) (hw : e ∉ w) : ¬ k ++ e :: x <+: w ++ c :: y := by
  induction k generalizing w with
  | nil =>
    cases w with
    | nil => simp [hce.symm]
    | cons a w => simp [show e ≠ a from fun h => hw (h ▸ List.mem_cons_self)]
  | cons b k ih =>
    have hb : b ≠ c := fun h => hk (h ▸ List.mem_cons_self)
    have hk' : c ∉ k := fun h => hk (List.mem_cons_of_mem _ h)
    cases w with
    | nil => simp [hb]
    | cons a w =>
      have hw' : e ∉ w := fun h => hw (List.mem_cons_of_mem _ h)
      simp [ih hk' hw']

/-- The code takes the first `n` characters of what is written. -/
theorem parseField_eq (cmd key : WStr) (n : Nat) : parseField cmd key n = (argument cmd key).map (List.take n) := by
  simp only [parseField, argument, Option.map_map, copyUntil_eq]
  rfl

/-! ## Numbers -/

def asciiDigit (c : WChar) : Option (Fin 10) :=
  if h : 0x30 ≤ c.1.toNat ∧ c.1.toNat ≤ 0x39 then some ⟨c.1.toNat - 0x30, by omega⟩ else none

/-- What the number readers of the C library make of characters and of numbers. -/
structure Crt where
  digit : WChar → Option (Fin 10)
  isSpace : WChar → Bool
  /-- The value `%u` stores for a number with this sign. -/
  unsignedOf : Bool → Nat → UInt32
  /-- The value `_wtoi` returns for it. -/
  intOf : Bool → Nat → Int32
  digit_ascii : ∀ c d, asciiDigit c = some d → digit c = some d
  digit_dot : digit dot = none
  space_ascii : ∀ c d, asciiDigit c = some d → isSpace c = false
  unsigned_exact : ∀ n < 2 ^ 32, unsignedOf false n = UInt32.ofNat n
  int_exact : ∀ n < 2 ^ 31, intOf false n = Int32.ofNat n

variable (C : Crt)

/-- Spaces, a sign and digits: whether the sign is minus, the digits, and the rest. -/
def number (s : WStr) : Bool × List (Fin 10) × WStr :=
  match s.dropWhile C.isSpace with
  | [] => (false, [], [])
  | c :: s =>
    if c = minusSign then (true, Decimal.span C.digit s)
    else if c = plusSign then (false, Decimal.span C.digit s)
    else (false, Decimal.span C.digit (c :: s))

/-- `%u`. -/
def scanUnsigned (s : WStr) : Option (UInt32 × WStr) :=
  let (neg, ds, rest) := number C s
  if ds = [] then none else some (C.unsignedOf neg (Decimal.ofDigits ds), rest)

/-- A character of the format that stands for itself. -/
def scanChar (c : WChar) : WStr → Option WStr
  | [] => none
  | d :: s => if d = c then some s else none

/-- `L"%u.%u.%u.%u"`, if all four are stored. -/
def scanQuad (s : WStr) : Option (UInt32 × UInt32 × UInt32 × UInt32) := do
  let (a, s) ← scanUnsigned C s
  let s ← scanChar dot s
  let (b, s) ← scanUnsigned C s
  let s ← scanChar dot s
  let (c, s) ← scanUnsigned C s
  let s ← scanChar dot s
  let (d, _) ← scanUnsigned C s
  some (a, b, c, d)

def wtoi (s : WStr) : Int32 :=
  let (neg, ds, _) := number C s
  if ds = [] then 0 else C.intOf neg (Decimal.ofDigits ds)

/-! ## Dotted quads -/

/-- One to three digits, 255 at most. -/
def octet (s : WStr) : Option UInt8 := do
  let n ← Decimal.numeral asciiDigit s
  if s.length ≤ 3 ∧ n ≤ 255 then some (UInt8.ofNat n) else none

/-- The four octets of a dotted-quad text. -/
def dottedQuad (s : WStr) : Option (Vector UInt8 4) :=
  match s.splitOn dot with
  | [a, b, c, d] => do
    let a ← octet a
    let b ← octet b
    let c ← octet c
    let d ← octet d
    some #v[a, b, c, d]
  | _ => none

/-- The octets as `swscanf_s` stores them. -/
def octetWords (o : Vector UInt8 4) : UInt32 × UInt32 × UInt32 × UInt32 :=
  (o[0].toUInt32, o[1].toUInt32, o[2].toUInt32, o[3].toUInt32)

/-- A text that is a decimal number. -/
def decimal (s : WStr) : Option Nat := Decimal.numeral asciiDigit s

variable {C} {s t : WStr} {o : Vector UInt8 4}

theorem octet_eq_some {n : UInt8} : octet s = some n ↔ decimal s = some n.toNat ∧ s.length ≤ 3 := by
  unfold octet decimal
  cases hn : Decimal.numeral asciiDigit s with
  | none => simp
  | some k =>
    simp only [Option.bind_eq_bind, Option.bind_some, Option.some.injEq]
    split
    · next h =>
      rw [Option.some.injEq]
      constructor
      · rintro rfl
        refine ⟨?_, h.1⟩
        simp only [UInt8.toNat_ofNat']
        omega
      · rintro ⟨rfl, -⟩
        simp
    · next h =>
      simp only [reduceCtorEq, false_iff]
      rintro ⟨rfl, hl⟩
      have := n.toNat_lt
      omega

theorem dottedQuad_eq_some : dottedQuad s = some o ↔ ∃ a b c d, s.splitOn dot = [a, b, c, d] ∧
    octet a = some o[0] ∧ octet b = some o[1] ∧ octet c = some o[2] ∧ octet d = some o[3] := by
  unfold dottedQuad
  constructor
  · intro h
    split at h
    · next a b c d hs =>
      simp only [Option.bind_eq_bind, Option.bind_eq_some_iff, Option.some.injEq] at h
      obtain ⟨a', ha, b', hb, c', hc, d', hd, rfl⟩ := h
      exact ⟨a, b, c, d, hs, ha, hb, hc, hd⟩
    · cases h
  · rintro ⟨a, b, c, d, hs, ha, hb, hc, hd⟩
    rw [hs]
    simp only [ha, hb, hc, hd, Option.bind_eq_bind, Option.bind_some, Option.some.injEq]
    ext i hi
    interval_cases i <;> rfl

/-- The text of a dotted quad. -/
theorem dottedQuad_text (h : dottedQuad s = some o) : ∃ a b c d, s = a ++ dot :: (b ++ dot :: (c ++ dot :: d)) ∧
    octet a = some o[0] ∧ octet b = some o[1] ∧ octet c = some o[2] ∧ octet d = some o[3] := by
  obtain ⟨a, b, c, d, hs, ha, hb, hc, hd⟩ := dottedQuad_eq_some.1 h
  refine ⟨a, b, c, d, ?_, ha, hb, hc, hd⟩
  have hj : [dot].intercalate (s.splitOn dot) = s := List.intercalate_splitOn dot
  rw [hs] at hj
  rw [← hj]
  simp [List.intercalate, List.intersperse]

theorem length_of_octet {n : UInt8} (h : octet s = some n) : s.length ≤ 3 := (octet_eq_some.1 h).2

/-- A dotted quad has at most 15 characters. -/
theorem length_of_dottedQuad (h : dottedQuad s = some o) : s.length ≤ 15 := by
  obtain ⟨a, b, c, d, rfl, ha, hb, hc, hd⟩ := dottedQuad_text h
  have ha := length_of_octet ha
  have hb := length_of_octet hb
  have hc := length_of_octet hc
  have hd := length_of_octet hd
  simp only [List.length_append, List.length_cons]
  omega

/-! ## Reading what is written -/

theorem asciiDigit_minus : asciiDigit minusSign = none := by decide
theorem asciiDigit_plus : asciiDigit plusSign = none := by decide

/-- The readers take a decimal number at the front of a text as it stands. -/
theorem number_of_decimal {n : Nat} (hs : decimal s = some n) (ht : ∀ c ∈ t.head?, C.digit c = none) :
    ∃ ds, number C (s ++ t) = (false, ds, t) ∧ ds ≠ [] ∧ Decimal.ofDigits ds = n := by
  obtain ⟨hne, ds, hds, hn⟩ := Decimal.numeral_eq_some.1 hs
  obtain ⟨c, s, rfl⟩ := List.exists_cons_of_ne_nil hne
  obtain ⟨d, ds', rfl, hc, -⟩ := Decimal.digit_of_span_cons hds
  have hminus : c ≠ minusSign := by
    rintro rfl
    simp [asciiDigit_minus] at hc
  have hplus : c ≠ plusSign := by
    rintro rfl
    simp [asciiDigit_plus] at hc
  have hspan := Decimal.span_append (Decimal.span_mono C.digit_ascii hds) ht
  refine ⟨d :: ds', ?_, by simp, hn⟩
  simp only [number, List.cons_append, List.dropWhile_cons, C.space_ascii c d hc, Bool.false_eq_true, if_false, hminus,
    hplus] at hspan ⊢
  rw [hspan]

theorem scanUnsigned_of_octet {n : UInt8} (hs : octet s = some n) (ht : ∀ c ∈ t.head?, C.digit c = none) :
    scanUnsigned C (s ++ t) = some (n.toUInt32, t) := by
  obtain ⟨ds, hnum, hne, hn⟩ := number_of_decimal (octet_eq_some.1 hs).1 ht
  have hlt : n.toNat < 2 ^ 32 := Nat.lt_trans n.toNat_lt (by decide)
  simp only [scanUnsigned, hnum, hne, if_false, hn, C.unsigned_exact _ hlt, Option.some.injEq, Prod.mk.injEq, and_true]
  apply UInt32.toNat_inj.1
  simp only [UInt32.toNat_ofNat', UInt8.toNat_toUInt32]
  omega

/-- **`swscanf_s` reads a dotted quad as its octets.** -/
theorem scanQuad_of_dottedQuad (h : dottedQuad s = some o) : scanQuad C s = some (octetWords o) := by
  obtain ⟨a, b, c, d, rfl, ha, hb, hc, hd⟩ := dottedQuad_text h
  have hdot : ∀ u : WStr, ∀ x ∈ (dot :: u).head?, C.digit x = none := fun u x hx => by
    cases hx
    exact C.digit_dot
  have hd' := scanUnsigned_of_octet (C := C) (t := []) hd (by simp)
  rw [List.append_nil] at hd'
  simp only [scanQuad, scanUnsigned_of_octet ha (hdot _), scanUnsigned_of_octet hb (hdot _),
    scanUnsigned_of_octet hc (hdot _), hd', scanChar, if_true, Option.bind_eq_bind, Option.bind_some]
  rfl

theorem wtoi_of_decimal {n : Nat} (hs : decimal s = some n) (hn : n < 2 ^ 31) : wtoi C s = Int32.ofNat n := by
  obtain ⟨ds, hnum, hne, hds⟩ := number_of_decimal (C := C) (t := []) hs (by simp)
  rw [List.append_nil] at hnum
  simp only [wtoi, hnum, hne, if_false, hds, C.int_exact n hn]

/-- `_wtoi` of the front of a decimal number: the number itself, if nothing is missing or it is zero. -/
theorem wtoi_take {n : Nat} (hs : decimal s = some n) (hn : n < 2 ^ 31) (m : Nat) :
    ∃ k, wtoi C (s.take m) = Int32.ofNat k ∧ k ≤ n ∧ (k = n ↔ s.length ≤ m ∨ n = 0) := by
  obtain ⟨hne, ds, hds, rfl⟩ := Decimal.numeral_eq_some.1 hs
  have hle : Decimal.ofDigits (ds.take m) ≤ Decimal.ofDigits ds := by
    rw [Decimal.ofDigits_take]
    exact Nat.div_le_self _ _
  refine ⟨Decimal.ofDigits (ds.take m), ?_, hle, ?_⟩
  · cases m with
    | zero => rfl
    | succ m =>
      have hne' : s.take (m + 1) ≠ [] := by simp [hne]
      exact wtoi_of_decimal (Decimal.numeral_eq_some.2 ⟨hne', _, Decimal.span_take hds _, rfl⟩)
        (Nat.lt_of_le_of_lt hle hn)
  · rw [Decimal.ofDigits_take_eq, Decimal.length_of_span hds]

end Rvpn.Netsh
