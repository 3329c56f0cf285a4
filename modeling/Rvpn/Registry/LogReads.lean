import Rvpn.Registry.Values
import Rvpn.Registry.Accepted

/-!
# What the hooks read to log a value (register.c:956-993, 1096-1125)

`RegSetValueExW` and `RegQueryValueExW` write the data of a value to the log. Registry data is a block of bytes with a
size, but a string is printed with `%ls` and a list of strings is walked with `wcslen`: both stop at a terminator and
not at the size. A read that leaves the block is `none` here.

* `readString`, `readMulti` — the two walks, and the terminator each needs (`readString_isSome`, `readMulti_isSome`);
* `dataLog`, `returnedLog` — the two places; only the first looks at the size before it reads a `DWORD`;
* `reads_inside_iff` — the values both keep inside.

The store itself copies exactly the size it is given (`setValue`, `getValue`).
-/

namespace Rvpn.Registry

open Bytes Cells

variable {F : CaseFold} {σ τ υ : Store} {us rest : List UInt16} {data : List UInt8} {type : UInt32}

def REG_BINARY : UInt32 := 3
def REG_MULTI_SZ : UInt32 := 7
def REG_QWORD : UInt32 := 11

/-! ## Reads -/

/-- `%ls` and `wcslen`: the characters up to the NUL, and what stands behind it. -/
def readString : List UInt16 → Option (List UInt16 × List UInt16)
  | [] => none
  | u :: us => if u = 0 then some ([], us) else (readString us).map fun r => (u :: r.1, r.2)

/-- `while (*p) { ... p += wcslen(p) + 1; }`; each round passes one character at least. -/
def readMulti : Nat → List UInt16 → Option (List (List UInt16))
  | _, [] => none
  | 0, _ :: _ => none
  | n + 1, u :: us =>
    if u = 0 then some []
    else (readString (u :: us)).bind fun r => (readMulti n r.2).map (r.1 :: ·)

/-- A `DWORD` or `ULONGLONG` at the start of the block. -/
def readNumber (n : Nat) (data : List UInt8) : Option Nat :=
  if n ≤ data.length then some (ofLE (data.take n)) else none

/-- The bytes `LogHex` prints of the `len` it is given: three characters each, while there is room in `hex[512]`. -/
def logHex (data : List UInt8) (len : Nat) : Option (List UInt8) :=
  (List.range (min len 170)).mapM fun i => data[i]?

/-! ## The two places -/

/-- The lines of the log that show data. -/
inductive LogLine where
  | string (s : List UInt16)
  | dword (v : Nat)
  | badDword
  | qword (v : Nat)
  | badQword
  | multiString
  | item (s : List UInt16)
  | binary (size : Nat)
  | typed (type : UInt32) (size : Nat)
  | hex (len : Nat) (shown : List UInt8)
  | nothing
deriving DecidableEq

/-- The log of the data `RegSetValueExW` is given. -/
def dataLog (type : UInt32) (data : List UInt8) : Option (List LogLine) :=
  if data = [] then some [.nothing]
  else if type = REG_SZ ∨ type = REG_EXPAND_SZ then (readString (ofUnits data)).map fun r => [.string r.1]
  else if type = REG_DWORD then
    if 4 ≤ data.length then (readNumber 4 data).map fun v => [.dword v] else some [.badDword]
  else if type = REG_QWORD then
    if 8 ≤ data.length then (readNumber 8 data).map fun v => [.qword v] else some [.badQword]
  else if type = REG_MULTI_SZ then
    (readMulti data.length (ofUnits data)).map fun items => .multiString :: items.map .item
  else if type = REG_BINARY then
    (logHex data data.length).map fun shown => [.binary data.length, .hex data.length shown]
  else
    (logHex data (min data.length 64)).map fun shown =>
      [.typed type data.length, .hex (min data.length 64) shown]

/-- The log of the data `RegQueryValueExW` returns. The type alone decides what is read. -/
def returnedLog (type : UInt32) (data : List UInt8) : Option (List LogLine) :=
  if data = [] then some []
  else if type = REG_SZ ∨ type = REG_EXPAND_SZ then (readString (ofUnits data)).map fun r => [.string r.1]
  else if type = REG_DWORD then (readNumber 4 data).map fun v => [.dword v]
  else if type = REG_MULTI_SZ then
    (readMulti data.length (ofUnits data)).map fun items => .multiString :: items.map .item
  else if type = REG_BINARY then
    (logHex data data.length).map fun shown => [.binary data.length, .hex data.length shown]
  else some [.typed type data.length]

/-- `RegSetValueExW` logs the data once it has found the key. -/
def setValueLog (σ : Store) (hKey : HKEY) (dwType : UInt32) (lpData : List UInt8) : Option (List LogLine) :=
  match handleToKey σ hKey with
  | none => some []
  | some _ => dataLog dwType lpData

/-- `RegQueryValueExW` logs the data once it has written it to the buffer. -/
def queryValueLog (out : QueryOut) : Option (List LogLine) :=
  match out.status, out.lpType, out.lpData with
  | .success, some type, some data => returnedLog type data
  | _, _, _ => some []

/-! ## Terminators -/

/-- An empty string starts somewhere: at the front, or behind the end of another one. -/
def EmptyString (us : List UInt16) : Prop := us.head? = some 0 ∨ [0, 0] <:+: us

instance (us : List UInt16) : Decidable (EmptyString us) := inferInstanceAs (Decidable (_ ∨ _))

/-- The data ends inside its size, for what the two logs make of its type. -/
def Terminated (type : UInt32) (data : List UInt8) : Prop :=
  data = [] ∨
    ((type = REG_SZ ∨ type = REG_EXPAND_SZ → 0 ∈ ofUnits data) ∧ (type = REG_DWORD → 4 ≤ data.length) ∧
      (type = REG_MULTI_SZ → EmptyString (ofUnits data)))

instance (type : UInt32) (data : List UInt8) : Decidable (Terminated type data) :=
  inferInstanceAs (Decidable (_ ∨ _))

theorem readString_eq_some {s : List UInt16} : readString us = some (s, rest) ↔ us = s ++ 0 :: rest ∧ 0 ∉ s := by
  induction us generalizing s with
  | nil => simp [readString]
  | cons u us ih =>
    by_cases hu : u = 0
    · constructor
      · intro h
        obtain ⟨rfl, rfl⟩ : [] = s ∧ us = rest := by simpa [readString, hu] using h
        exact ⟨by rw [hu]; rfl, by simp⟩
      · rintro ⟨he, hz⟩
        cases s with
        | nil =>
          obtain ⟨-, rfl⟩ := List.cons.inj he
          simp [readString, hu]
        | cons a s =>
          obtain ⟨rfl, -⟩ := List.cons.inj he
          exact absurd (hu ▸ List.mem_cons_self) hz
    · simp only [readString, if_neg hu, Option.map_eq_some_iff, Prod.exists, Prod.mk.injEq]
      constructor
      · rintro ⟨s', rest', h, rfl, rfl⟩
        obtain ⟨rfl, hz⟩ := ih.1 h
        exact ⟨rfl, by simp [hz, Ne.symm hu]⟩
      · rintro ⟨he, hz⟩
        cases s with
        | nil => exact absurd (List.cons.inj he).1 hu
        | cons a s =>
          obtain ⟨rfl, rfl⟩ := List.cons.inj he
          exact ⟨s, rest, ih.2 ⟨rfl, fun hm => hz (List.mem_cons_of_mem _ hm)⟩, rfl, rfl⟩

theorem readString_isSome : (readString us).isSome ↔ 0 ∈ us := by
  induction us with
  | nil => simp [readString]
  | cons u us ih =>
    by_cases hu : u = 0
    · simp [readString, hu]
    · simp [readString, hu, Ne.symm hu, ih]

/-- An empty string behind a string that is not empty is one of what stands behind it. -/
theorem emptyString_append {u : UInt16} {s : List UInt16} (hz : 0 ∉ u :: s) :
    EmptyString (u :: s ++ 0 :: rest) ↔ EmptyString rest := by
  have hhead : ¬ u = 0 := fun hu => hz (hu ▸ List.mem_cons_self)
  have hskip : ∀ s : List UInt16, 0 ∉ s → ([0, 0] <:+: s ++ 0 :: rest ↔ EmptyString rest) := by
    intro s hs
    induction s with
    | nil =>
      rw [List.nil_append, List.infix_cons_iff]
      apply or_congr_left
      cases rest <;> simp [eq_comm]
    | cons a s ih =>
      have ha : ¬ 0 = a := fun ha => hs (ha ▸ List.mem_cons_self)
      rw [List.cons_append, List.infix_cons_iff, ih fun hm => hs (List.mem_cons_of_mem _ hm)]
      simp [ha]
  rw [EmptyString, hskip _ hz]
  simp [hhead]

theorem readMulti_isSome {n : Nat} (hn : us.length ≤ n) : (readMulti n us).isSome ↔ EmptyString us := by
  induction n generalizing us with
  | zero =>
    obtain rfl := List.length_eq_zero_iff.1 (Nat.le_zero.1 hn)
    simp [readMulti, EmptyString]
  | succ n ih =>
    cases us with
    | nil => simp [readMulti, EmptyString]
    | cons u us =>
      by_cases hu : u = 0
      · simp [readMulti, hu, EmptyString]
      · simp only [readMulti, if_neg hu]
        cases hr : readString (u :: us) with
        | none =>
          -- no NUL at all, so no empty string
          have hz : 0 ∉ u :: us := fun hm => by simpa [hr] using readString_isSome.2 hm
          refine iff_of_false (by simp) ?_
          rintro (hh | hin)
          · exact hu (Option.some.inj hh)
          · exact hz (hin.subset List.mem_cons_self)
        | some r =>
          obtain ⟨s, rest⟩ := r
          obtain ⟨he, hz⟩ := readString_eq_some.1 hr
          cases s with
          | nil => exact absurd (List.cons.inj he).1 hu
          | cons a s =>
            have hlen := congrArg List.length he
            simp only [List.length_cons, List.length_append] at hlen hn
            have hle : rest.length ≤ n := by omega
            rw [he, emptyString_append hz, Option.bind_some, Option.isSome_map]
            exact ih hle

theorem readNumber_isSome {n : Nat} : (readNumber n data).isSome ↔ n ≤ data.length := by
  by_cases h : n ≤ data.length <;> simp [readNumber, h]

theorem length_ofUnits (data : List UInt8) : (ofUnits data).length ≤ data.length := by
  induction data using ofUnits.induct with
  | case1 a b rest ih => simp only [ofUnits, List.length_cons]; omega
  | case2 data h => simp [ofUnits]

/-- `LogHex` shows bytes of the block, whatever the block holds. -/
theorem logHex_isSome {len : Nat} (hlen : len ≤ data.length) : (logHex data len).isSome := by
  have hread : ∀ is : List Nat, (∀ i ∈ is, i < data.length) → (is.mapM fun i => data[i]?).isSome := by
    intro is his
    induction is with
    | nil => rfl
    | cons i is ih =>
      obtain ⟨shown, hs⟩ := Option.isSome_iff_exists.1 (ih fun j hj => his j (List.mem_cons_of_mem _ hj))
      simp [List.mapM_cons, hs, List.getElem?_eq_getElem (his i List.mem_cons_self)]
  apply hread
  intro i hi
  have := List.mem_range.1 hi
  omega

/-! ## Which values are read inside -/

/-- **What is returned** is logged from inside the block exactly if it is terminated. -/
theorem returnedLog_isSome : (returnedLog type data).isSome ↔ Terminated type data := by
  unfold Terminated
  by_cases hd : data = []
  · simp [returnedLog, hd]
  by_cases hs : type = REG_SZ ∨ type = REG_EXPAND_SZ
  · have hw : ¬ type = REG_DWORD := by rcases hs with rfl | rfl <;> decide
    have hm : ¬ type = REG_MULTI_SZ := by rcases hs with rfl | rfl <;> decide
    rw [returnedLog, if_neg hd, if_pos hs, Option.isSome_map, readString_isSome]
    tauto
  by_cases hw : type = REG_DWORD
  · have hm : ¬ type = REG_MULTI_SZ := by rw [hw]; decide
    rw [returnedLog, if_neg hd, if_neg hs, if_pos hw, Option.isSome_map, readNumber_isSome]
    tauto
  rw [returnedLog, if_neg hd, if_neg hs, if_neg hw]
  by_cases hm : type = REG_MULTI_SZ
  · rw [if_pos hm, Option.isSome_map, readMulti_isSome (length_ofUnits data)]
    exact ⟨fun he => .inr ⟨fun h => absurd h hs, fun h => absurd h hw, fun _ => he⟩, fun h => (h.resolve_left hd).2.2 hm⟩
  · rw [if_neg hm]
    have hlog : (if type = REG_BINARY then (logHex data data.length).map fun shown =>
          [.binary data.length, .hex data.length shown]
        else some [LogLine.typed type data.length]).isSome := by
      split
      · rw [Option.isSome_map]
        exact logHex_isSome (Nat.le_refl _)
      · rfl
    tauto

/-- What is terminated is logged from inside the block when it is set as well: there the size of a `DWORD` is looked
at. -/
theorem dataLog_isSome (ht : Terminated type data) : (dataLog type data).isSome := by
  unfold dataLog
  split
  · rfl
  next hd =>
    obtain ⟨hstr, -, hmul⟩ := ht.resolve_left hd
    split
    · next hs =>
      rw [Option.isSome_map]
      exact readString_isSome.2 (hstr hs)
    split
    · split
      · next h4 =>
        rw [Option.isSome_map]
        exact readNumber_isSome.2 h4
      · rfl
    split
    · split
      · next h8 =>
        rw [Option.isSome_map]
        exact readNumber_isSome.2 h8
      · rfl
    split
    · next hm =>
      rw [Option.isSome_map]
      exact (readMulti_isSome (length_ofUnits data)).2 (hmul hm)
    split
    · rw [Option.isSome_map]
      exact logHex_isSome (Nat.le_refl _)
    · rw [Option.isSome_map]
      exact logHex_isSome (Nat.min_le_left _ _)

/-! ## A value that is set and queried -/

/-- The query right after a set returns what has been set. -/
theorem query_after_set (hi : Inv F σ) {hKey : HKEY} {name : Option WStr} {r : Reply} {key : Id}
    (hh : handleToKey σ hKey = some key) (hcall : call F σ (.setValue hKey name type data) = some (r, υ)) :
    call F υ (.queryValue hKey name true (some data.length)) =
      some (.value ⟨.success, some type, some data, some data.length⟩, υ) := by
  have hrow := handleToKey_call hi hcall hh
  cases call_effect hi hcall with
  | quiet hq => exact absurd (hq.1.symm.trans hh) (by simp)
  | @set _ _ _ _ _ k _ hh' hk hs =>
    obtain rfl := Option.some.inj (hh.symm.trans hh')
    have hk' : deref υ.heap key = some { k with values := putValue F (name.getD []) type data k.values } := by
      rw [(autoSave_heap hs).1]
      exact deref_setValues_self hk
    rw [query_reply (inv_call hi hcall) hrow hk', valueOf_put_self rfl]
    simp [answer]

/-- The hooks read only inside the data of a value: the log of the set does, and if the value has been stored, so does
the log of every later query that returns it. -/
structure ReadsInside (F : CaseFold) (σ : Store) (hKey : HKEY) (lpValueName : Option WStr) (dwType : UInt32)
    (lpData : List UInt8) : Prop where
  atSet : (setValueLog σ hKey dwType lpData).isSome
  atQuery : handleToKey σ hKey ≠ none → ∀ {r υ}, call F σ (.setValue hKey lpValueName dwType lpData) = some (r, υ) →
    ∀ {cs τ}, Lts.run (apiStep F) υ cs = some τ → ∀ {h n buffer size out τ'},
      call F τ (.queryValue h n buffer size) = some (.value out, τ') → out.lpType = some dwType →
        out.lpData = some lpData → (queryValueLog out).isSome

/-- **The hooks look only at the bytes they were given** exactly if the data is terminated, or the handle is not that of
a key and nothing is looked at. -/
theorem reads_inside_iff (hi : Inv F σ) {hKey : HKEY} {name : Option WStr} {r : Reply}
    (hcall : call F σ (.setValue hKey name type data) = some (r, υ)) :
    ReadsInside F σ hKey name type data ↔ handleToKey σ hKey = none ∨ Terminated type data := by
  constructor
  · intro hr
    cases hh : handleToKey σ hKey with
    | none => exact .inl rfl
    | some key =>
      have hq := query_after_set hi hh hcall
      exact .inr (returnedLog_isSome.1 (hr.atQuery (by simp [hh]) hcall (Lts.run_nil υ) hq rfl rfl))
  · intro hor
    constructor
    · unfold setValueLog
      cases hh : handleToKey σ hKey with
      | none => rfl
      | some key => exact dataLog_isSome (hor.resolve_left (by simp [hh]))
    · intro hne r υ _ cs τ _ h n buffer size out τ' _ htype hdata
      unfold queryValueLog
      rw [htype, hdata]
      split
      · next t d _ ht hd =>
        cases ht
        cases hd
        exact returnedLog_isSome.2 (hor.resolve_left hne)
      · rfl

/-- One key, and the handle of it. -/
def loggedSession : List RegCall := [.createKey .ex HKEY_LOCAL_MACHINE (some (wide "SOFTWARE"))]

/-- The letter `a`, the letters `bc`, and the empty string at the end of the list. -/
theorem reads_inside_iff_multi : ∃ σ, Lts.run (step asciiFold) (Store.empty false) loggedSession = some σ ∧
    ReadsInside asciiFold σ 0x30000000 none REG_MULTI_SZ [97, 0, 0, 0, 98, 0, 99, 0, 0, 0, 0, 0] := by
  obtain ⟨σ, hrun, r, υ, hcall⟩ : ∃ σ, Lts.run (step asciiFold) (Store.empty false) loggedSession = some σ ∧
      ∃ r υ, call asciiFold σ (.setValue 0x30000000 none REG_MULTI_SZ [97, 0, 0, 0, 98, 0, 99, 0, 0, 0, 0, 0]) =
        some (r, υ) := ⟨_, rfl, _, _, rfl⟩
  exact ⟨σ, hrun, (reads_inside_iff (inv_run (inv_empty false) hrun) hcall).2 (.inr (by decide))⟩

/-- A letter without a NUL is read past its end, and so is a list without the empty string. A `DWORD` of one byte is
refused by the log of the set, and read past its end when it is returned. -/
theorem unterminated_read : ∃ σ, Lts.run (step asciiFold) (Store.empty false) loggedSession = some σ ∧
    handleToKey σ 0x30000000 = some 1 ∧
    ¬ ReadsInside asciiFold σ 0x30000000 none REG_SZ [65, 0] ∧
    ¬ ReadsInside asciiFold σ 0x30000000 none REG_MULTI_SZ [97, 0, 0, 0] ∧
    setValueLog σ 0x30000000 REG_DWORD [1] = some [.badDword] ∧
    ¬ ReadsInside asciiFold σ 0x30000000 none REG_DWORD [1] := by
  obtain ⟨σ, hrun, hh, r, υ, hcall⟩ : ∃ σ, Lts.run (step asciiFold) (Store.empty false) loggedSession = some σ ∧
      handleToKey σ 0x30000000 = some 1 ∧
      ∃ r υ, call asciiFold σ (.setValue 0x30000000 none REG_DWORD [1]) = some (r, υ) := ⟨_, rfl, rfl, _, _, rfl⟩
  have hlog : ∀ type data, setValueLog σ 0x30000000 type data = dataLog type data := fun type data => by
    rw [setValueLog, hh]
  refine ⟨σ, hrun, hh, fun hr => ?_, fun hr => ?_, hlog _ _, fun hr => ?_⟩
  · exact absurd (hlog _ _ ▸ hr.atSet) (by decide)
  · exact absurd (hlog _ _ ▸ hr.atSet) (by decide)
  · have hq := query_after_set (inv_run (inv_empty false) hrun) hh hcall
    exact absurd (hr.atQuery (by simp [hh]) hcall (Lts.run_nil υ) hq rfl rfl) (by decide)

end Rvpn.Registry
