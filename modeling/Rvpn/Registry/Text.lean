import Mathlib.Data.List.Infix

/-!
# Wide strings and key paths

What `register.c` does to a path before it touches the tree.

| here | there |
| --- | --- |
| `WStr`                | a NUL-terminated `wchar_t*`: the characters before the NUL |
| `wcsicmp`             | `_wcsicmp(a, b) == 0` |
| `lstrcpynW`, `tokens` | the copy into `temp` and the `wcstok_s` loop over it |
| `redirectSubKey`      | `RedirectSubKey` (`register.c:87-135`) |

`_wcsicmp` compares lower-case forms character by character. Which characters it folds is left to the
C library (`CaseFold`), except that nothing but a backslash folds to one.
-/

namespace Rvpn.Registry

/-- A character of a string: a UTF-16 unit other than NUL. -/
abbrev WChar := {c : UInt16 // c ≠ 0}

abbrev WStr := List WChar

def bslash : WChar := ⟨0x5C, by decide⟩

/-- A wide string literal `L"…"`. -/
def wide (s : String) : WStr :=
  s.toList.filterMap fun c =>
    if h : UInt16.ofNat c.toNat ≠ 0 then some ⟨UInt16.ofNat c.toNat, h⟩ else none

/-! ## Comparing without case -/

/-- The lower-casing behind `_wcsicmp`. -/
structure CaseFold where
  lower : WChar → WChar
  lower_bslash : ∀ c, lower c = bslash ↔ c = bslash

/-- The form of a string that `_wcsicmp` compares. -/
def CaseFold.fold (F : CaseFold) (s : WStr) : WStr := s.map F.lower

/-- `_wcsicmp(a, b) == 0`. -/
def wcsicmp (F : CaseFold) (a b : WStr) : Bool := F.fold a = F.fold b

@[simp] theorem wcsicmp_eq_true {F : CaseFold} {a b : WStr} : wcsicmp F a b = true ↔ F.fold a = F.fold b := by
  simp [wcsicmp]

/-- The folding of the "C" locale: the letters `A` to `Z`. -/
def asciiFold : CaseFold where
  lower c :=
    if h : 0x41 ≤ c.1.toNat ∧ c.1.toNat ≤ 0x5A then
      ⟨UInt16.ofNat (c.1.toNat + 0x20), fun he => by
        have := congrArg UInt16.toNat he
        simp only [UInt16.toNat_ofNat', UInt16.toNat_ofNat] at this
        omega⟩
    else c
  lower_bslash c := by
    split
    · next h =>
      constructor
      · intro he
        have := congrArg (fun x : WChar => x.1.toNat) he
        simp only [bslash, UInt16.toNat_ofNat', UInt16.toNat_ofNat] at this
        omega
      · rintro rfl
        simp [bslash] at h
    · rfl

theorem bslash_mem_fold (F : CaseFold) {s : WStr} : bslash ∈ F.fold s ↔ bslash ∈ s := by
  rw [CaseFold.fold, List.mem_map]
  constructor
  · rintro ⟨x, hx, he⟩
    rwa [(F.lower_bslash x).1 he] at hx
  · exact fun hs => ⟨bslash, hs, (F.lower_bslash bslash).2 rfl⟩

/-! ## Tokens -/

/-- `lstrcpynW(temp, s, n)`: at most `n - 1` characters and the NUL. -/
def lstrcpynW (s : WStr) (n : Nat) : WStr := s.take (n - 1)

/-- What `wcstok_s(s, L"\\", &ctx)` returns call after call: the runs between backslashes, empty ones skipped. -/
def tokens (s : WStr) : List WStr := (s.splitOn bslash).filter (· ≠ [])

@[simp] theorem tokens_nil : tokens [] = [] := rfl

theorem tokens_append (a b : WStr) : tokens (a ++ bslash :: b) = tokens a ++ tokens b := by
  rw [tokens, List.splitOn_append_cons_self, List.filter_append]
  rfl

theorem tokens_single {s : WStr} (hne : s ≠ []) (hs : bslash ∉ s) : tokens s = [s] := by
  rw [tokens, List.splitOn_eq_singleton hs]
  simp [hne]

theorem bslash_notMem_splitOn {s t : WStr} (h : t ∈ s.splitOn bslash) : bslash ∉ t := by
  induction s generalizing t with
  | nil =>
    rw [List.splitOn_nil, List.mem_singleton] at h
    simp [h]
  | cons c s ih =>
    rw [List.splitOn_cons_eq_if_modifyHead] at h
    split at h
    · rcases List.mem_cons.1 h with rfl | h
      · simp
      · exact ih h
    · next hc =>
      cases hs : s.splitOn bslash with
      | nil => exact absurd hs (by simp)
      | cons u us =>
        rw [hs] at h ih
        rcases List.mem_cons.1 h with rfl | h
        · simp only [List.mem_cons, not_or]
          exact ⟨fun he => hc (by simp [he]), ih (by simp)⟩
        · exact ih (by simp [h])

/-- **A component** of a path is not empty and has no backslash. -/
theorem mem_tokens {s t : WStr} (h : t ∈ tokens s) : t ≠ [] ∧ bslash ∉ t := by
  obtain ⟨hs, hne⟩ := List.mem_filter.1 h
  exact ⟨by simpa using hne, bslash_notMem_splitOn hs⟩

theorem splitOn_fold (F : CaseFold) (s : WStr) :
    (F.fold s).splitOn bslash = (s.splitOn bslash).map F.fold := by
  induction s with
  | nil => rfl
  | cons c s ih =>
    have hc : (F.lower c == bslash) = (c == bslash) := by
      rw [Bool.eq_iff_iff, beq_iff_eq, beq_iff_eq, F.lower_bslash]
    rw [CaseFold.fold, List.map_cons, List.splitOn_cons_eq_if_modifyHead, ← CaseFold.fold, ih, hc,
      List.splitOn_cons_eq_if_modifyHead]
    split
    · rfl
    · cases s.splitOn bslash with
      | nil => rfl
      | cons u us => rfl

theorem tokens_fold (F : CaseFold) (s : WStr) : tokens (F.fold s) = (tokens s).map F.fold := by
  have hne : ∀ t : WStr, decide (F.fold t ≠ []) = decide (t ≠ []) := fun t => by simp [CaseFold.fold]
  rw [tokens, splitOn_fold, tokens, List.filter_map]
  congr 1
  exact List.filter_congr fun t _ => hne t

/-- Paths that `_wcsicmp` finds equal have pairwise equal components. -/
theorem tokens_of_fold_eq {F : CaseFold} {a b : WStr} (h : F.fold a = F.fold b) :
    (tokens a).map F.fold = (tokens b).map F.fold := by
  rw [← tokens_fold, ← tokens_fold, h]

/-! ## Redirection -/

abbrev HKEY := UInt32

def HKEY_CLASSES_ROOT : HKEY := 0x80000000
def HKEY_CURRENT_USER : HKEY := 0x80000001
def HKEY_LOCAL_MACHINE : HKEY := 0x80000002
def HKEY_USERS : HKEY := 0x80000003

/-- `RedirectSubKey`: under WOW64 a path below `HKLM\SOFTWARE` is sent to `SOFTWARE\WOW6432Node`,
unless it is there already. The remainder starts after as many characters as the first token has. -/
def redirectSubKey (F : CaseFold) (isWow64 : Bool) (hKey : HKEY) (lpSubKey : WStr) : WStr :=
  if hKey ≠ HKEY_LOCAL_MACHINE ∨ ¬ isWow64 then lpSubKey
  else
    match (tokens (lstrcpynW lpSubKey 512)).head? with
    | none => lpSubKey
    | some first =>
      if wcsicmp F first (wide "SOFTWARE") then
        let rest := lpSubKey.drop first.length
        let remainder := if rest.head? = some bslash then rest.tail else rest
        let redirected := wide "SOFTWARE" ++ bslash :: wide "WOW6432Node" ++
          if remainder = [] then [] else bslash :: remainder
        match (tokens (lstrcpynW remainder 256)).head? with
        | some second => if wcsicmp F second (wide "WOW6432Node") then lpSubKey else redirected
        | none => redirected
      else lpSubKey

end Rvpn.Registry
