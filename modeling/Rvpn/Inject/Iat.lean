import Mathlib.Algebra.Order.BigOperators.Group.List
import Mathlib.Algebra.Order.Group.Nat
import Rvpn.Lib.Flat

/-!
# `GetIATEntry` (iat_helpers.c:7-33)

Every hook is installed by writing to a slot of the import address table of the host program. The slot is found through
the table beside it, the lookup table, which still has the names.

| here | there |
| --- | --- |
| `thunkRound`       | one round of the loop over `originalThunk`, with `thunk` beside it |
| `descriptorRound`  | one round of the loop over `importDesc` |
| `ImportDirectory`  | a well-formed import directory in memory |
| `IsSlot`           | the slot that belongs to a function of a DLL |

The module is a 32-bit image. `lower` is the lower-casing behind `_stricmp`.
-/

namespace Rvpn.Iat

open Flat

/-- The flag in the top bit of a thunk that imports by ordinal. -/
def IMAGE_ORDINAL_FLAG : UInt32 := 0x80000000

/-! ## The loops -/

/-- `thunk++; originalThunk++;` -/
def nextThunk (s : Addr × Addr) : Addr × Addr := (s.1 + 4, s.2 + 4)

/-- `importDesc++` -/
def nextDescriptor (importDesc : Addr) : Addr := importDesc + 20

def thunkRound (m : Mem) (base : Addr) (funcName : AStr) (s : Addr × Addr) : Option (Round Addr) := do
  let (thunk, originalThunk) := s
  let addressOfData ← read32 m originalThunk
  if addressOfData = 0 then some .stop
  else if addressOfData &&& IMAGE_ORDINAL_FLAG = 0 then
    -- `Hint` stands in front of `Name`
    (compare id m (base + addressOfData + 2) funcName).map fun same => .ofOption (if same then some thunk else none)
  else some .next

def descriptorRound (lower : AChar → AChar) (fuel : Nat) (m : Mem) (base : Addr) (dllName funcName : AStr)
    (importDesc : Addr) : Option (Round Addr) := do
  let name ← read32 m (importDesc + 12)
  if name = 0 then some .stop
  else
    let same ← compare lower m (base + name) dllName
    if same then
      let firstThunk ← read32 m (importDesc + 16)
      let originalFirstThunk ← read32 m importDesc
      (walk (thunkRound m base funcName) nextThunk fuel (base + firstThunk, base + originalFirstThunk)).map .ofOption
    else some .next

/-- 0 is NULL. -/
def getIATEntry (lower : AChar → AChar) (fuel : Nat) (m : Mem) (module : Addr) (dllName funcName : AStr) :
    Option Addr := do
  let e_lfanew ← read32 m (module + 0x3C)
  let virtualAddress ← read32 m (module + e_lfanew + 0x80)
  let r ← walk (descriptorRound lower fuel m module dllName funcName) nextDescriptor fuel (module + virtualAddress)
  some (r.getD 0)

/-! ## Import directories -/

/-- An entry of a lookup table: by name, or by ordinal. -/
inductive Import where
  | byName (rva : UInt32) (name : AStr)
  | byOrdinal (ordinal : UInt32)

structure Descriptor where
  originalFirstThunk : UInt32
  name : UInt32
  firstThunk : UInt32
  dll : AStr
  imports : List Import

/-- The entry is in the lookup table. -/
def ImportAt (m : Mem) (base : Addr) (s : Addr × Addr) : Import → Prop
  | .byName rva name => read32 m s.2 = some rva ∧ rva ≠ 0 ∧ rva &&& IMAGE_ORDINAL_FLAG = 0 ∧ StrAt m (base + rva + 2) name
  | .byOrdinal ordinal => read32 m s.2 = some ordinal ∧ ordinal &&& IMAGE_ORDINAL_FLAG ≠ 0

instance (m : Mem) (base : Addr) (s : Addr × Addr) : ∀ e, Decidable (ImportAt m base s e)
  | .byName rva name => inferInstanceAs (Decidable
      (read32 m s.2 = some rva ∧ rva ≠ 0 ∧ rva &&& IMAGE_ORDINAL_FLAG = 0 ∧ StrAt m (base + rva + 2) name))
  | .byOrdinal ordinal =>
    inferInstanceAs (Decidable (read32 m s.2 = some ordinal ∧ ordinal &&& IMAGE_ORDINAL_FLAG ≠ 0))

structure DescriptorAt (m : Mem) (base : Addr) (a : Addr) (d : Descriptor) : Prop where
  originalFirstThunk : read32 m a = some d.originalFirstThunk ∧ d.originalFirstThunk ≠ 0
  name : read32 m (a + 12) = some d.name ∧ d.name ≠ 0
  firstThunk : read32 m (a + 16) = some d.firstThunk
  dll : StrAt m (base + d.name) d.dll
  /-- The two tables are walked side by side. -/
  imports : TableAt nextThunk (ImportAt m base) (fun s => read32 m s.2 = some 0)
    (base + d.firstThunk, base + d.originalFirstThunk) d.imports
  /-- The address table, with its end, lies above the base of the module. -/
  fits : base.toNat + d.firstThunk.toNat + 4 * (d.imports.length + 1) ≤ 2 ^ 32

instance (m : Mem) (base a : Addr) (d : Descriptor) : Decidable (DescriptorAt m base a d) :=
  decidable_of_iff (_ ∧ _ ∧ _ ∧ _ ∧ _ ∧ _)
    ⟨fun ⟨h1, h2, h3, h4, h5, h6⟩ => ⟨h1, h2, h3, h4, h5, h6⟩, fun ⟨h1, h2, h3, h4, h5, h6⟩ => ⟨h1, h2, h3, h4, h5, h6⟩⟩

/-- **A well-formed import directory** of the module at `base`. -/
structure ImportDirectory (m : Mem) (base : Addr) (ds : List Descriptor) : Prop where
  base_ne : base ≠ 0
  descriptors : ∃ e_lfanew virtualAddress, read32 m (base + 0x3C) = some e_lfanew ∧
    read32 m (base + e_lfanew + 0x80) = some virtualAddress ∧
    TableAt nextDescriptor (DescriptorAt m base) (fun a => read32 m (a + 12) = some 0) (base + virtualAddress) ds

/-! ## The slot -/

def Import.Named (funcName : AStr) : Import → Prop
  | byName _ name => name = funcName
  | byOrdinal _ => False

instance (funcName : AStr) : ∀ e : Import, Decidable (e.Named funcName)
  | .byName _ name => inferInstanceAs (Decidable (name = funcName))
  | .byOrdinal _ => isFalse id

/-- The descriptor is for this DLL, the name taken without case. -/
def Descriptor.For (lower : AChar → AChar) (dllName : AStr) (d : Descriptor) : Prop := d.dll.map lower = dllName.map lower

instance (lower : AChar → AChar) (dllName : AStr) (d : Descriptor) : Decidable (d.For lower dllName) :=
  inferInstanceAs (Decidable (_ = _))

/-- The function is imported by name from the DLL. -/
def Imported (lower : AChar → AChar) (ds : List Descriptor) (dllName funcName : AStr) : Prop :=
  ∃ d ∈ ds, d.For lower dllName ∧ ∃ e ∈ d.imports, e.Named funcName

/-- **The right slot**: `a` stands in the address table where the first entry with the name stands in the lookup table,
in the first descriptor of the DLL that has one. -/
def IsSlot (lower : AChar → AChar) (base : Addr) (ds : List Descriptor) (dllName funcName : AStr) (a : Addr) : Prop :=
  ∃ pre d post k e, ds = pre ++ d :: post ∧ d.For lower dllName ∧ d.imports[k]? = some e ∧ e.Named funcName ∧
    (∀ c ∈ pre, c.For lower dllName → ∀ x ∈ c.imports, ¬ x.Named funcName) ∧
    (∀ j < k, ∀ x, d.imports[j]? = some x → ¬ x.Named funcName) ∧
    a = base + d.firstThunk + 4 * UInt32.ofNat k

/-- What the loop over the thunks finds at an entry. -/
def thunkFind (funcName : AStr) (s : Addr × Addr) (e : Import) : Option Addr :=
  if e.Named funcName then some s.1 else none

/-- What the loop over the descriptors finds at one. -/
def descriptorFind (lower : AChar → AChar) (base : Addr) (dllName funcName : AStr) (d : Descriptor) : Option Addr :=
  if d.For lower dllName then
    (d.imports.findIdx? fun e => e.Named funcName).map fun k => base + d.firstThunk + 4 * UInt32.ofNat k
  else none

variable {lower : AChar → AChar} {m : Mem} {base a : Addr} {ds : List Descriptor} {dllName funcName : AStr}
  {d : Descriptor} {fuel : Nat}

/-! ## One descriptor -/

theorem thunkRound_import {s : Addr × Addr} {e : Import} (h : ImportAt m base s e) :
    thunkRound m base funcName s = some (.ofOption (thunkFind funcName s e)) := by
  cases e with
  | byName rva name =>
    obtain ⟨hread, hne, hflag, hname⟩ := h
    have hcmp : compare id m (base + rva + 2) funcName = some (decide ((Import.byName rva name).Named funcName)) := by
      rw [compare_of_strAt hname, List.map_id, List.map_id]
      rfl
    simp only [thunkRound, hread, Option.bind_eq_bind, Option.bind_some, if_neg hne, if_pos hflag, hcmp, Option.map_some,
      decide_eq_true_eq, thunkFind]
  | byOrdinal ordinal =>
    obtain ⟨hread, hflag⟩ := h
    have hne : ordinal ≠ 0 := by
      rintro rfl
      exact hflag (by decide)
    simp only [thunkRound, hread, Option.bind_eq_bind, Option.bind_some, if_neg hne, if_neg hflag]
    rfl

/-- **The slot has the index of the entry.** -/
theorem search_imports {thunk originalThunk : Addr} {es : List Import} :
    search nextThunk (thunkFind funcName) (thunk, originalThunk) es =
      (es.findIdx? fun e => e.Named funcName).map fun k => thunk + 4 * UInt32.ofNat k := by
  induction es generalizing thunk originalThunk with
  | nil => rfl
  | cons e es ih =>
    rw [search, thunkFind, List.findIdx?_cons]
    by_cases he : e.Named funcName
    · simp [he]
    · simp only [he, if_false, Option.none_or, nextThunk, ih, decide_false, Bool.false_eq_true, Option.map_map]
      congr 1
      funext k
      apply UInt32.toNat_inj.1
      simp only [Function.comp_apply, UInt32.toNat_add, UInt32.toNat_mul, UInt32.toNat_ofNat', UInt32.reduceToNat]
      omega

theorem descriptorRound_descriptor (h : DescriptorAt m base a d) (hfuel : d.imports.length < fuel) :
    descriptorRound lower fuel m base dllName funcName a =
      some (.ofOption (descriptorFind lower base dllName funcName d)) := by
  have hwalk : walk (thunkRound m base funcName) nextThunk fuel (base + d.firstThunk, base + d.originalFirstThunk) =
      some ((d.imports.findIdx? fun e => e.Named funcName).map fun k => base + d.firstThunk + 4 * UInt32.ofNat k) := by
    rw [walk_of_tableAt (thunkFind funcName) _ (fun s e _ => thunkRound_import) h.imports hfuel, search_imports]
    intro s hs
    simp [thunkRound, hs]
  have hsame : compare lower m (base + d.name) dllName = some (decide (d.For lower dllName)) := compare_of_strAt h.dll
  by_cases hd : d.For lower dllName
  · simp only [descriptorRound, h.name.1, if_neg h.name.2, hsame, decide_eq_true hd, h.firstThunk,
      h.originalFirstThunk.1, hwalk, Option.bind_eq_bind, Option.bind_some, if_true, Option.map_some, descriptorFind,
      if_pos hd]
  · simp only [descriptorRound, h.name.1, if_neg h.name.2, hsame, decide_eq_false hd, Option.bind_eq_bind,
      Option.bind_some, Bool.false_eq_true, if_false, descriptorFind, if_neg hd]
    rfl

/-! ## The directory -/

theorem findSome_isSlot (h : ds.findSome? (descriptorFind lower base dllName funcName) = some a) :
    IsSlot lower base ds dllName funcName a := by
  obtain ⟨pre, d, post, rfl, hd, hpre⟩ := List.findSome?_eq_some_iff.1 h
  unfold descriptorFind at hd
  split at hd
  · next hfor =>
    obtain ⟨k, hk, rfl⟩ := Option.map_eq_some_iff.1 hd
    obtain ⟨hlt, hnamed, hfirst⟩ := List.findIdx?_eq_some_iff_getElem.1 hk
    refine ⟨pre, d, post, k, d.imports[k], rfl, hfor, List.getElem?_eq_getElem hlt, of_decide_eq_true hnamed,
      fun c hc hcfor x hx hn => ?_, fun j hj x hx hn => ?_, rfl⟩
    · have hnone := hpre c hc
      rw [descriptorFind, if_pos hcfor, Option.map_eq_none_iff, List.findIdx?_eq_none_iff] at hnone
      exact absurd (hnone x hx) (by simpa using hn)
    · obtain ⟨hj', rfl⟩ := List.getElem?_eq_some_iff.1 hx
      exact hfirst j hj (decide_eq_true hn)
  · cases hd

theorem findSome_eq_none : ds.findSome? (descriptorFind lower base dllName funcName) = none ↔
    ¬ Imported lower ds dllName funcName := by
  rw [List.findSome?_eq_none_iff]
  constructor
  · rintro h ⟨d, hd, hfor, e, he, hn⟩
    have hnone := h d hd
    rw [descriptorFind, if_pos hfor, Option.map_eq_none_iff, List.findIdx?_eq_none_iff] at hnone
    exact absurd (hnone e he) (by simpa using hn)
  · intro h d hd
    unfold descriptorFind
    split
    · next hfor =>
      rw [Option.map_eq_none_iff, List.findIdx?_eq_none_iff]
      exact fun e he => decide_eq_false fun hn => h ⟨d, hd, hfor, e, he, hn⟩
    · rfl

/-- A slot is not at NULL. -/
theorem IsSlot.ne_zero (h : IsSlot lower base ds dllName funcName a) (hdir : ImportDirectory m base ds) : a ≠ 0 := by
  obtain ⟨pre, d, post, k, e, rfl, -, hk, -, -, -, rfl⟩ := h
  obtain ⟨_, _, -, -, htable⟩ := hdir.descriptors
  obtain ⟨t, ht⟩ := exists_of_tableAt htable (e := d) (by simp)
  have hlt := (List.getElem?_eq_some_iff.1 hk).1
  have hbase : base.toNat ≠ 0 := fun h0 => hdir.base_ne (UInt32.toNat_inj.1 h0)
  have hfits := ht.fits
  intro h0
  have := congrArg UInt32.toNat h0
  simp only [UInt32.toNat_add, UInt32.toNat_mul, UInt32.toNat_ofNat', UInt32.reduceToNat] at this
  omega

/-- What the lookup gives, with enough fuel. -/
theorem getIATEntry_eq (lower : AChar → AChar) (hdir : ImportDirectory m base ds) (dllName funcName : AStr) :
    ∃ n, ∀ fuel ≥ n, getIATEntry lower fuel m base dllName funcName =
      some ((ds.findSome? (descriptorFind lower base dllName funcName)).getD 0) := by
  obtain ⟨e_lfanew, virtualAddress, hnt, hva, htable⟩ := hdir.descriptors
  refine ⟨ds.length + (ds.map fun d => d.imports.length).sum + 1, fun fuel hfuel => ?_⟩
  have hlen : ∀ d ∈ ds, d.imports.length < fuel := fun d hd => by
    have := List.le_sum_of_mem (List.mem_map_of_mem (f := fun d : Descriptor => d.imports.length) hd)
    omega
  have hmark : ∀ a, read32 m (a + 12) = some 0 →
      descriptorRound lower fuel m base dllName funcName a = some .stop := fun a ha => by
    simp [descriptorRound, ha]
  have hwalk := walk_of_tableAt (fun _ d => descriptorFind lower base dllName funcName d) hmark
    (fun a d hd hat => descriptorRound_descriptor hat (hlen d hd)) htable (show ds.length < fuel by omega)
  simp only [getIATEntry, hnt, hva, hwalk, search_const, Option.bind_eq_bind, Option.bind_some]

/-- **`GetIATEntry` finds exactly the right slot**, and NULL if there is none. -/
theorem getIATEntry_slot (lower : AChar → AChar) (hdir : ImportDirectory m base ds) (dllName funcName : AStr) :
    ∃ r, (∃ n, ∀ fuel ≥ n, getIATEntry lower fuel m base dllName funcName = some r) ∧
      (r = 0 ↔ ¬ Imported lower ds dllName funcName) ∧ (r ≠ 0 → IsSlot lower base ds dllName funcName r) := by
  refine ⟨(ds.findSome? (descriptorFind lower base dllName funcName)).getD 0, getIATEntry_eq lower hdir dllName funcName, ?_⟩
  cases hfind : ds.findSome? (descriptorFind lower base dllName funcName) with
  | none => exact ⟨iff_of_true rfl (findSome_eq_none.1 hfind), fun h => absurd rfl h⟩
  | some a =>
    have hslot := findSome_isSlot hfind
    have himp : Imported lower ds dllName funcName := by
      by_contra hno
      rw [findSome_eq_none.2 hno] at hfind
      cases hfind
    exact ⟨iff_of_false (hslot.ne_zero hdir) (not_not_intro himp), fun _ => hslot⟩

/-! ## An image -/

/-- The letters `A` to `Z` in lower case. -/
def asciiLower (c : AChar) : AChar :=
  if h : 0x41 ≤ c.1.toNat ∧ c.1.toNat ≤ 0x5A then
    ⟨UInt8.ofNat (c.1.toNat + 0x20), fun he => by
      have := congrArg UInt8.toNat he
      simp only [UInt8.toNat_ofNat', UInt8.toNat_ofNat] at this
      omega⟩
  else c

def letter (c : Char) : AStr := if h : UInt8.ofNat c.toNat ≠ 0 then [⟨UInt8.ofNat c.toNat, h⟩] else []

/-- A word as it lies in memory. -/
def word (w : UInt32) : List UInt8 := [w.toUInt8, (w >>> 8).toUInt8, (w >>> 16).toUInt8, (w >>> 24).toUInt8]

/-- Two descriptors of one DLL, `a` and `A`; the first imports by ordinal, the second the function `f`. -/
def imageDescriptors : List Descriptor :=
  [⟨0x100, 0x120, 0x110, letter 'a', [.byOrdinal 0x80000001]⟩,
    ⟨0x108, 0x122, 0x118, letter 'A', [.byName 0x124 (letter 'f')]⟩]

/-- The headers, three descriptors, two lookup tables, two address tables and the names. -/
def imageBytes : List UInt8 :=
  List.replicate 0x3C 0 ++ word 0x40 ++ List.replicate 0x80 0 ++ word 0xC4 ++
  ([0x100, 0, 0, 0x120, 0x110, 0x108, 0, 0, 0x122, 0x118, 0, 0, 0, 0, 0].flatMap word) ++
  ([0x80000001, 0, 0x124, 0, 0x80000001, 0, 0x124, 0].flatMap word) ++ [0x61, 0, 0x41, 0, 0, 0, 0x66, 0]

def image (a : Addr) : Option UInt8 := if 0x400000 ≤ a then imageBytes[(a - 0x400000).toNat]? else none

theorem image_directory : ImportDirectory image 0x400000 imageDescriptors where
  base_ne := by decide
  descriptors := ⟨0x40, 0xC4, by decide +kernel, by decide +kernel, by decide +kernel⟩

theorem getIATEntry_slot_image : ∃ r,
    (∃ n, ∀ fuel ≥ n, getIATEntry asciiLower fuel image 0x400000 (letter 'A') (letter 'f') = some r) ∧
    (r = 0 ↔ ¬ Imported asciiLower imageDescriptors (letter 'A') (letter 'f')) ∧
    (r ≠ 0 → IsSlot asciiLower 0x400000 imageDescriptors (letter 'A') (letter 'f') r) :=
  getIATEntry_slot asciiLower image_directory (letter 'A') (letter 'f')

example : getIATEntry asciiLower 4 image 0x400000 (letter 'A') (letter 'f') = some 0x400118 := by decide +kernel

end Rvpn.Iat
