import Rvpn.Registry.Api

/-!
# Enumerating a key (register.c:1390-1607)

`RegQueryInfoKeyW` counts the subkeys and the values of a key and finds the longest of their names and data;
`RegEnumKeyExW` and `RegEnumValueW` walk the same two lists by index. A caller takes the buffers as large as the first
one says and counts the index up to the numbers it has got.

* `Shows` — the subkeys and values behind a handle;
* `enumKey_at`, `enumValue_at` — one call at an index, in each of the cases of the buffer sizes;
* `enumeration_complete` — what the caller gets.
-/

namespace Rvpn.Registry

open Cells

variable {F : CaseFold} {σ : Store} {H : Heap} {h : HKEY} {cs : List RegKey} {vs : List RegValue} {c : RegKey}
  {v : RegValue} {j cch : Nat}

/-- The subkeys and values an emulated handle stands for: those of its key, or none for the fake service. -/
inductive Shows (σ : Store) (h : HKEY) : List RegKey → List RegValue → Prop
  | service (hh : h = FAKE_SERVICE_KEY) : Shows σ h [] []
  | key {i : Id} {k : RegKey} {cs : List RegKey} (hh : handleToKey σ h = some i) (hk : deref σ.heap i = some k)
      (hcs : k.children.mapM (deref σ.heap) = some cs) : Shows σ h cs k.values

/-- A handle is emulated if it is the one of the fake service or that of a key in memory. -/
def Emulated (σ : Store) (h : HKEY) : Prop :=
  h = FAKE_SERVICE_KEY ∨ ∃ i k, handleToKey σ h = some i ∧ deref σ.heap i = some k

/-! ## The lists -/

/-- The walk by index finds what the list has there. -/
theorem childAt_eq {is : List Id} (hcs : is.mapM (deref H) = some cs) (j : Nat) : childAt H is j = some cs[j]? := by
  induction is generalizing cs j with
  | nil =>
    cases hcs
    rfl
  | cons i is ih =>
    simp only [List.mapM_cons, Option.pure_def, Option.bind_eq_bind, Option.bind_eq_some_iff] at hcs
    obtain ⟨d, hd, ds, hds, he⟩ := hcs
    cases he
    cases j with
    | zero => rw [childAt, hd]; rfl
    | succ j => rw [childAt, hd, Option.bind_some, ih hds, List.getElem?_cons_succ]

/-- **A handle of a well-formed tree** shows its lists, and the names of the subkeys are not empty. -/
theorem shows_of_emulated (hwf : WF F σ.heap) (hh : Emulated σ h) : ∃ cs vs, Shows σ h cs vs := by
  rcases hh with rfl | ⟨i, k, hi, hk⟩
  · exact ⟨[], [], .service rfl⟩
  · obtain ⟨cs, hcs⟩ := mapM_total fun j hj => by
      obtain ⟨-, c, hc, -⟩ := hwf.child hk hj
      exact ⟨c, hc⟩
    exact ⟨cs, k.values, .key hi hk hcs⟩

theorem Shows.name_ne (hwf : WF F σ.heap) (hs : Shows σ h cs vs) (hc : c ∈ cs) : c.name ≠ [] := by
  cases hs with
  | service _ => cases hc
  | key hi hk hcs =>
    obtain ⟨j, hj, hcj⟩ := mem_mapM hcs hc
    obtain ⟨-, c', hc', -, hne, -⟩ := hwf.child hk hj
    obtain rfl := Option.some.inj (hcj.symm.trans hc')
    exact hne

/-! ## One call -/

/-- The reply for a subkey with its whole name. -/
def wholeKey (c : RegKey) : EnumKeyOut := ⟨.success, some c.name, some c.name.length⟩

/-- What a call for the subkey at an index answers. -/
def enumKeyReply (cch : Nat) : Option RegKey → EnumKeyOut
  | none => .noMoreItems
  | some c =>
    if c.name.length < cch then wholeKey c
    else ⟨.moreData, none, some (c.name.length + 1)⟩

/-- **`RegEnumKeyExW`** answers for the subkey at the index. -/
theorem enumKey_at (hwf : WF F σ.heap) (hs : Shows σ h cs vs) (j cch : Nat) :
    hookRegEnumKeyExW σ h j cch = some (.enumKey (enumKeyReply cch cs[j]?)) := by
  have hne := fun c (hc : c ∈ cs) => hs.name_ne hwf hc
  cases hs with
  | service hh => exact if_pos hh
  | key hi hk hcs =>
    have hfake : h ≠ FAKE_SERVICE_KEY := (handleToKey_eq_some.1 hi).1
    simp only [hookRegEnumKeyExW, if_neg hfake, hi, hk, Option.bind_some, childAt_eq hcs, Option.map_some]
    cases hc : cs[j]? with
    | none => rfl
    | some c =>
      have hname : c.name ≠ [] := hne c (List.mem_of_getElem? hc)
      simp only [if_neg hname, enumKeyReply]
      by_cases hfit : c.name.length < cch
      · rw [if_neg (Nat.not_le.2 hfit), if_pos hfit, lstrcpynW, List.take_of_length_le (by omega), wholeKey]
      · rw [if_pos (Nat.le_of_not_lt hfit), if_neg hfit]

/-- The reply for a value with its whole name, type and data. -/
def wholeValue (v : RegValue) : EnumValueOut :=
  ⟨.success, some v.name, some v.name.length, some v.type, some v.data, some v.data.length⟩

/-- What a call for the value at an index answers. -/
def enumValueReply (name : Option Nat) (data : Bool) (size : Option Nat) : Option RegValue → EnumValueOut
  | none => .noMoreItems
  | some v =>
    if name.any (· ≤ v.name.length) then ⟨.moreData, none, some (v.name.length + 1), none, none, none⟩
    else
      let written := name.map (lstrcpynW v.name)
      let len := name.map fun _ => v.name.length
      if data ∧ size.any (· < v.data.length) then ⟨.moreData, written, len, some v.type, none, some v.data.length⟩
      else ⟨.success, written, len, some v.type, if data ∧ size.isSome then some v.data else none,
        size.map fun _ => v.data.length⟩

/-- **`RegEnumValueW`** answers for the value at the index. -/
theorem enumValue_at (hs : Shows σ h cs vs) (j : Nat) (name : Option Nat) (data : Bool) (size : Option Nat) :
    hookRegEnumValueW σ h j name data size = some (.enumValue (enumValueReply name data size vs[j]?)) := by
  cases hs with
  | service hh => exact if_pos hh
  | @key i k cs hi hk hcs =>
    have hfake : h ≠ FAKE_SERVICE_KEY := (handleToKey_eq_some.1 hi).1
    simp only [hookRegEnumValueW, if_neg hfake, hi, hk, Option.map_some]
    cases hv : k.values[j]? with
    | none => rfl
    | some v =>
      simp only [enumValueReply]
      split
      · rfl
      · split
        · rfl
        · rfl

/-- A name that does not fit is not written. -/
theorem enumValueReply_short (hle : cch ≤ v.name.length) (data : Bool) (size : Option Nat) :
    enumValueReply (some cch) data size (some v) = ⟨.moreData, none, some (v.name.length + 1), none, none, none⟩ := by
  simp only [enumValueReply, Option.any_some, decide_eq_true hle, if_true]

/-- Data that do not fit are not written; the name is. -/
theorem enumValueReply_data {cb : Nat} (hlt : v.name.length < cch) (hdata : cb < v.data.length) :
    enumValueReply (some cch) true (some cb) (some v) =
      ⟨.moreData, some v.name, some v.name.length, some v.type, none, some v.data.length⟩ := by
  have hcopy : lstrcpynW v.name cch = v.name := List.take_of_length_le (by omega)
  simp [enumValueReply, Nat.not_le.2 hlt, hdata, hcopy]

theorem enumValueReply_whole {cb : Nat} (hlt : v.name.length < cch) (hdata : v.data.length ≤ cb) :
    enumValueReply (some cch) true (some cb) (some v) = wholeValue v := by
  have hcopy : lstrcpynW v.name cch = v.name := List.take_of_length_le (by omega)
  simp [enumValueReply, Nat.not_le.2 hlt, Nat.not_lt.2 hdata, hcopy, wholeValue]

/-- **Nothing is written beyond the sizes given**, whichever buffers there are. -/
theorem enumValueReply_fits (name : Option Nat) (data : Bool) (size : Option Nat) (o : Option RegValue) :
    (∀ s, (enumValueReply name data size o).lpValueName = some s → ∃ n, name = some n ∧ s.length + 1 ≤ n) ∧
    ∀ d, (enumValueReply name data size o).lpData = some d → ∃ n, size = some n ∧ d.length ≤ n := by
  cases o with
  | none => constructor <;> rintro _ ⟨⟩
  | some v =>
    simp only [enumValueReply]
    split
    · constructor <;> rintro _ ⟨⟩
    · next hname =>
      have hcopy : ∀ s, name.map (lstrcpynW v.name) = some s → ∃ n, name = some n ∧ s.length + 1 ≤ n := by
        intro s hs
        obtain ⟨n, rfl, rfl⟩ := Option.map_eq_some_iff.1 hs
        have hlt : v.name.length < n := by simpa using hname
        refine ⟨n, rfl, ?_⟩
        rw [lstrcpynW, List.length_take]
        omega
      split
      · refine ⟨hcopy, ?_⟩
        rintro _ ⟨⟩
      · next hdata =>
        refine ⟨hcopy, fun d hd => ?_⟩
        obtain ⟨hbuf, he⟩ := Option.ite_none_right_eq_some.1 hd
        obtain ⟨n, rfl⟩ := Option.isSome_iff_exists.1 hbuf.2
        obtain rfl := Option.some.inj he
        refine ⟨n, rfl, ?_⟩
        simpa [hbuf.1] using hdata

theorem enumKeyReply_fits {o : Option RegKey} {t : WStr} (ht : (enumKeyReply cch o).lpName = some t) :
    t.length + 1 ≤ cch := by
  cases o with
  | none => cases ht
  | some c =>
    rw [enumKeyReply] at ht
    split at ht
    · next hlt =>
      cases ht
      exact hlt
    · cases ht

/-! ## All calls -/

/-- The largest of some numbers, counted up from zero. -/
theorem le_foldl_max {l : List Nat} {n : Nat} (hn : n ∈ l) (a : Nat) : n ≤ l.foldl max a := by
  have hacc : ∀ (l : List Nat) (a : Nat), a ≤ l.foldl max a := by
    intro l
    induction l with
    | nil => exact fun a => Nat.le_refl a
    | cons b l ih => exact fun a => (Nat.le_max_left a b).trans (ih _)
  induction l generalizing a with
  | nil => cases hn
  | cons b l ih =>
    rcases List.mem_cons.1 hn with rfl | hn
    · exact (Nat.le_max_right a n).trans (hacc l _)
    · exact ih hn _

/-- What `RegQueryInfoKeyW` reports: the numbers, and sizes that are large enough for every entry. -/
theorem queryInfo_shows (hs : Shows σ h cs vs) {lpClass lpcchClass : Bool} (hclass : lpcchClass = true → lpClass = true) :
    ∃ info, hookRegQueryInfoKeyW σ h lpClass lpcchClass = some (.info info) ∧ info.lpcSubKeys = some cs.length ∧
      info.lpcValues = some vs.length ∧ (∀ c ∈ cs, c.name.length < info.lpcbMaxSubKeyLen.getD 0) ∧
      ∀ v ∈ vs, v.name.length < info.lpcbMaxValueNameLen.getD 0 ∧ v.data.length ≤ info.lpcbMaxValueLen.getD 0 := by
  have hno : ∀ P : Prop, ¬ (lpcchClass = true ∧ ¬ lpClass = true ∧ P) := fun P hp => hp.2.1 (hclass hp.1)
  unfold hookRegQueryInfoKeyW
  rw [if_neg (hno _)]
  cases hs with
  | service hh => exact ⟨_, if_pos hh, rfl, rfl, by simp, by simp⟩
  | key hi hk hcs =>
    have hfake : h ≠ FAKE_SERVICE_KEY := (handleToKey_eq_some.1 hi).1
    simp only [if_neg hfake, hi, hk, Option.bind_some, hcs, Option.map_some]
    refine ⟨_, rfl, rfl, rfl, fun c hc => ?_, fun v hv => ⟨?_, ?_⟩⟩
    · exact Nat.lt_succ_of_le (le_foldl_max (List.mem_map_of_mem (f := fun c : RegKey => c.name.length) hc) 0)
    · exact Nat.lt_succ_of_le (le_foldl_max (List.mem_map_of_mem (f := fun v : RegValue => v.name.length) hv) 0)
    · exact le_foldl_max (List.mem_map_of_mem (f := fun v : RegValue => v.data.length) hv) 0

/-- Calling for every index of a list in turn goes through the list. -/
theorem map_range_getElem? {α β : Type} {g : Option α → β} {f : α → β} {l : List α} (hf : ∀ a ∈ l, g (some a) = f a) :
    (List.range l.length).map (fun j => g l[j]?) = l.map f := by
  apply List.ext_getElem?
  intro j
  rw [List.getElem?_map, List.getElem?_map]
  by_cases hj : j < l.length
  · rw [List.getElem?_range hj, Option.map_some, List.getElem?_eq_getElem hj, Option.map_some,
      hf _ (List.getElem_mem hj)]
  · rw [List.getElem?_eq_none (by rwa [List.length_range, ← Nat.not_lt]), List.getElem?_eq_none (Nat.le_of_not_lt hj)]
    rfl

/-- **Enumeration and key information fit together**: with buffers of the sizes reported, counting the index up gives
every entry once, in list order and whole. -/
structure Complete (σ : Store) (h : HKEY) (cs : List RegKey) (vs : List RegValue) (info : KeyInfo) : Prop where
  subKeys : info.lpcSubKeys = some cs.length
  values : info.lpcValues = some vs.length
  enumKeys : (List.range cs.length).map (fun j => hookRegEnumKeyExW σ h j (info.lpcbMaxSubKeyLen.getD 0)) =
    cs.map fun c => some (.enumKey (wholeKey c))
  enumValues : (List.range vs.length).map (fun j => hookRegEnumValueW σ h j (some (info.lpcbMaxValueNameLen.getD 0)) true
      (some (info.lpcbMaxValueLen.getD 0))) = vs.map fun v => some (.enumValue (wholeValue v))

/-- What calls with other indexes and sizes answer. -/
structure Bounded (σ : Store) (h : HKEY) (cs : List RegKey) (vs : List RegValue) : Prop where
  noMoreKeys : ∀ j cch, cs.length ≤ j → hookRegEnumKeyExW σ h j cch = some (.enumKey .noMoreItems)
  noMoreValues : ∀ j name data size, vs.length ≤ j → hookRegEnumValueW σ h j name data size = some (.enumValue .noMoreItems)
  keyTooLong : ∀ j c cch, cs[j]? = some c → cch ≤ c.name.length →
    hookRegEnumKeyExW σ h j cch = some (.enumKey ⟨.moreData, none, some (c.name.length + 1)⟩)
  nameTooLong : ∀ j v cch data size, vs[j]? = some v → cch ≤ v.name.length → hookRegEnumValueW σ h j (some cch) data size =
    some (.enumValue ⟨.moreData, none, some (v.name.length + 1), none, none, none⟩)
  dataTooLong : ∀ j v cch cb, vs[j]? = some v → v.name.length < cch → cb < v.data.length →
    hookRegEnumValueW σ h j (some cch) true (some cb) =
      some (.enumValue ⟨.moreData, some v.name, some v.name.length, some v.type, none, some v.data.length⟩)
  keyFits : ∀ j cch out s, hookRegEnumKeyExW σ h j cch = some (.enumKey out) → out.lpName = some s → s.length + 1 ≤ cch
  valueFits : ∀ j name data size out, hookRegEnumValueW σ h j name data size = some (.enumValue out) →
    (∀ s, out.lpValueName = some s → ∃ n, name = some n ∧ s.length + 1 ≤ n) ∧
    ∀ d, out.lpData = some d → ∃ n, size = some n ∧ d.length ≤ n

/-- **Enumeration agrees with the key information** in every well-formed tree, for every emulated handle. -/
theorem enumeration_complete (hwf : WF F σ.heap) (hh : Emulated σ h) (lpClass lpcchClass : Bool)
    (hclass : lpcchClass = true → lpClass = true) : ∃ cs vs info, Shows σ h cs vs ∧
      hookRegQueryInfoKeyW σ h lpClass lpcchClass = some (.info info) ∧ Complete σ h cs vs info ∧ Bounded σ h cs vs := by
  obtain ⟨cs, vs, hs⟩ := shows_of_emulated hwf hh
  obtain ⟨info, hinfo, hn, hm, hkeys, hvalues⟩ := queryInfo_shows hs hclass
  refine ⟨cs, vs, info, hs, hinfo, ⟨hn, hm, ?_, ?_⟩, ?_⟩
  · simp only [enumKey_at hwf hs]
    exact map_range_getElem? (g := fun o => some (ApiReply.enumKey (enumKeyReply (info.lpcbMaxSubKeyLen.getD 0) o)))
      fun c hc => by rw [enumKeyReply, if_pos (hkeys c hc)]
  · simp only [enumValue_at hs]
    exact map_range_getElem? (g := fun o => some (ApiReply.enumValue (enumValueReply _ _ _ o)))
      fun v hv => by rw [enumValueReply_whole (hvalues v hv).1 (hvalues v hv).2]
  · exact {
      noMoreKeys := fun j cch hj => by rw [enumKey_at hwf hs, List.getElem?_eq_none hj]; rfl
      noMoreValues := fun j name data size hj => by rw [enumValue_at hs, List.getElem?_eq_none hj]; rfl
      keyTooLong := fun j c cch hc hle => by rw [enumKey_at hwf hs, hc, enumKeyReply, if_neg (Nat.not_lt.2 hle)]
      nameTooLong := fun j v cch data size hv hle => by rw [enumValue_at hs, hv, enumValueReply_short hle]
      dataTooLong := fun j v cch cb hv hlt hdata => by rw [enumValue_at hs, hv, enumValueReply_data hlt hdata]
      keyFits := fun j cch out s hc ht => by
        rw [enumKey_at hwf hs] at hc
        obtain rfl := ApiReply.enumKey.inj (Option.some.inj hc)
        exact enumKeyReply_fits ht
      valueFits := fun j name data size out hc => by
        rw [enumValue_at hs] at hc
        obtain rfl := ApiReply.enumValue.inj (Option.some.inj hc)
        exact enumValueReply_fits _ _ _ _ }

/-- A key with one value and one subkey. -/
def keySession : List RegCall :=
  [.createKey .ex HKEY_LOCAL_MACHINE (some (wide "K")), .setValue 0x30000000 (some (wide "v")) 4 [1, 2, 3, 4],
   .createKey .ex 0x30000000 (some (wide "L"))]

theorem enumeration_complete_key : ∃ σ cs vs info, Lts.run (step asciiFold) (Store.empty false) keySession = some σ ∧
    Shows σ 0x30000000 cs vs ∧ hookRegQueryInfoKeyW σ 0x30000000 false false = some (.info info) ∧
    Complete σ 0x30000000 cs vs info ∧ Bounded σ 0x30000000 cs vs := by
  obtain ⟨σ, hrun, hh⟩ : ∃ σ, Lts.run (step asciiFold) (Store.empty false) keySession = some σ ∧ Emulated σ 0x30000000 :=
    ⟨_, rfl, .inr ⟨_, _, rfl, rfl⟩⟩
  obtain ⟨cs, vs, info, hrest⟩ := enumeration_complete (inv_run (inv_empty false) hrun).wf hh false false
    fun h => h
  exact ⟨σ, cs, vs, info, hrun, hrest⟩

end Rvpn.Registry
