import Rvpn.Registry.Mirror

/-!
# The handle tables (register.c:82-85, 421-451, 1187-1198)

`Store` has one list of rows for what are two arrays of pointers with a common count. Here the arrays are
there, with their capacity: `AllocHandle` doubles both and writes one cell of each, `ResetHandleTable` clears
the paths and the count only, and a query may write a cell of the first. The hooks that reach one of these
are written out again; every other hook only looks handles up, and is lifted.

| here | there |
| --- | --- |
| `Tables`, `cell`                          | `g_fakeKeyTable`, `g_fakeKeyPaths`, `g_fakeKeyCount`, `g_fakeKeyCapacity` |
| `Tables.key`, `Tables.path`               | `HandleToKey`, `GetKeyPath` |
| `Tables.alloc`, `Tables.reset`            | `AllocHandle`, `ResetHandleTable` |
| `Proc`, `procHook`                        | the process with its hooks |

`queries_change_nothing` is what the tables are good for.
-/

namespace Rvpn.Registry

/-! ## The arrays -/

/-- Two arrays of `fakeKeyCapacity` pointers; NULL is `none`. -/
structure Tables where
  fakeKeyTable : List (Option Id)
  fakeKeyPaths : List (Option WStr)
  fakeKeyCount : Nat
  fakeKeyCapacity : Nat

/-- `a[i]`; past the end of the array there is nothing to read. -/
def cell {α : Type} (a : List (Option α)) (i : Nat) : Option α := (a[i]?).join

/-- `HeapReAlloc` with `HEAP_ZERO_MEMORY` to `n` pointers. -/
def reallocZero {α : Type} (a : List (Option α)) (n : Nat) : List (Option α) :=
  a ++ List.replicate (n - a.length) none

namespace Tables

/-- `Register_InstallHooks`: two zeroed arrays of 256 pointers. -/
def installed : Tables := ⟨List.replicate 256 none, List.replicate 256 none, 0, 256⟩

/-- `HandleToKey`. -/
def key (t : Tables) (hKey : HKEY) : Option Id :=
  if hKey = FAKE_SERVICE_KEY then none
  else if fakeIndex hKey < t.fakeKeyCount then cell t.fakeKeyTable (fakeIndex hKey)
  else none

/-- `GetKeyPath`. -/
def path (t : Tables) (hKey : HKEY) : Option WStr :=
  if hKey = FAKE_SERVICE_KEY then none
  else if fakeIndex hKey < t.fakeKeyCount then cell t.fakeKeyPaths (fakeIndex hKey)
  else none

/-- The growth in `AllocHandle`; two arrays of more than `2 ^ 29` pointers are not to be had. -/
def grow (t : Tables) : Option Tables :=
  if t.fakeKeyCapacity ≤ t.fakeKeyCount then
    if 2 * t.fakeKeyCapacity ≤ 2 ^ 29 then
      some { t with
        fakeKeyTable := reallocZero t.fakeKeyTable (2 * t.fakeKeyCapacity)
        fakeKeyPaths := reallocZero t.fakeKeyPaths (2 * t.fakeKeyCapacity)
        fakeKeyCapacity := 2 * t.fakeKeyCapacity }
    else none
  else some t

/-- `AllocHandle`; the path is copied, or NULL. -/
def alloc (t : Tables) (key : Option Id) (fullPath : Option WStr) : Option (HKEY × Tables) :=
  t.grow.map fun t =>
    (FAKE_HANDLE_BASE + UInt32.ofNat t.fakeKeyCount,
      { t with
        fakeKeyTable := t.fakeKeyTable.set t.fakeKeyCount key
        fakeKeyPaths := t.fakeKeyPaths.set t.fakeKeyCount fullPath
        fakeKeyCount := t.fakeKeyCount + 1 })

/-- What a query does with the row of a key it has just created. -/
def setKey (t : Tables) (hKey : HKEY) (key : Id) : Tables :=
  if fakeIndex hKey < t.fakeKeyCount then { t with fakeKeyTable := t.fakeKeyTable.set (fakeIndex hKey) (some key) }
  else t

/-- `ResetHandleTable`: the paths in use are freed and cleared, the keys stay where they are. -/
def reset (t : Tables) : Tables :=
  { t with
    fakeKeyPaths := t.fakeKeyPaths.mapIdx fun i p => if i < t.fakeKeyCount then none else p
    fakeKeyCount := 0 }

/-- The rows in use. -/
def rows (t : Tables) : List FakeKey :=
  (List.range t.fakeKeyCount).map fun i => ⟨cell t.fakeKeyTable i, cell t.fakeKeyPaths i⟩

/-- The arrays have the capacity they are said to have, and the count is within it. -/
structure Sized (t : Tables) : Prop where
  length_keys : t.fakeKeyTable.length = t.fakeKeyCapacity
  length_paths : t.fakeKeyPaths.length = t.fakeKeyCapacity
  count_le : t.fakeKeyCount ≤ t.fakeKeyCapacity
  pos : 0 < t.fakeKeyCapacity
  capacity_le : t.fakeKeyCapacity ≤ 2 ^ 29

variable {t t' : Tables}

theorem sized_installed : Sized installed where
  length_keys := List.length_replicate
  length_paths := List.length_replicate
  count_le := Nat.zero_le 256
  pos := by show 0 < 256; decide
  capacity_le := by show 256 ≤ 2 ^ 29; decide

theorem sized_reset (h : Sized t) : Sized t.reset ∧ t.reset.rows = [] where
  left := ⟨h.length_keys, by simp [reset, h.length_paths], by simp [reset], h.pos, h.capacity_le⟩
  right := by simp [rows, reset]

@[simp] theorem length_rows (t : Tables) : t.rows.length = t.fakeKeyCount := by simp [rows]

theorem getElem?_rows (t : Tables) (i : Nat) :
    t.rows[i]? = if i < t.fakeKeyCount then some ⟨cell t.fakeKeyTable i, cell t.fakeKeyPaths i⟩ else none := by
  by_cases hi : i < t.fakeKeyCount
  · simp [rows, hi]
  · simp [rows, hi]

theorem cell_reallocZero {α : Type} (a : List (Option α)) (n i : Nat) : cell (reallocZero a n) i = cell a i := by
  unfold cell reallocZero
  by_cases hi : i < a.length
  · rw [List.getElem?_append_left hi]
  · rw [List.getElem?_append_right (Nat.le_of_not_lt hi), List.getElem?_eq_none (Nat.le_of_not_lt hi)]
    rw [List.getElem?_replicate]
    split_ifs <;> rfl

theorem cell_set {α : Type} {a : List (Option α)} {i : Nat} (hi : i < a.length) (x : Option α) (j : Nat) :
    cell (a.set i x) j = if i = j then x else cell a j := by
  unfold cell
  by_cases hij : i = j
  · subst hij
    simp [hi]
  · simp [hij]

/-- **Growing** makes room and keeps the rows. -/
theorem grow_spec (h : Sized t) (hg : t.grow = some t') :
    Sized t' ∧ t'.rows = t.rows ∧ t'.fakeKeyCount = t.fakeKeyCount ∧ t'.fakeKeyCount < t'.fakeKeyCapacity := by
  have hpos := h.pos
  unfold grow at hg
  split_ifs at hg with hfull hcap
  · cases hg
    refine ⟨⟨?_, ?_, ?_, ?_, hcap⟩, ?_, rfl, ?_⟩
    · simp [reallocZero, h.length_keys]
      omega
    · simp [reallocZero, h.length_paths]
      omega
    · have := h.count_le
      show t.fakeKeyCount ≤ 2 * t.fakeKeyCapacity
      omega
    · show 0 < 2 * t.fakeKeyCapacity
      omega
    · simp [rows, cell_reallocZero]
    · have := h.count_le
      show t.fakeKeyCount < 2 * t.fakeKeyCapacity
      omega
  · cases hg
    exact ⟨h, rfl, rfl, Nat.lt_of_not_le hfull⟩

/-- **Allocating** adds one row behind those there are, whether the arrays grow or not. -/
theorem alloc_spec (h : Sized t) {key : Option Id} {fullPath : Option WStr} {hKey : HKEY}
    (ha : t.alloc key fullPath = some (hKey, t')) :
    Sized t' ∧ t'.rows = t.rows ++ [⟨key, fullPath⟩] ∧ t.fakeKeyCount < 2 ^ 29 ∧
      hKey = FAKE_HANDLE_BASE + UInt32.ofNat t.fakeKeyCount := by
  obtain ⟨g, hg, hout⟩ := Option.map_eq_some_iff.1 ha
  obtain ⟨hs, hrows, hcount, hlt⟩ := grow_spec h hg
  cases hout
  have hk : g.fakeKeyCount < g.fakeKeyTable.length := hs.length_keys ▸ hlt
  have hp : g.fakeKeyCount < g.fakeKeyPaths.length := hs.length_paths ▸ hlt
  refine ⟨⟨?_, ?_, hlt, hs.pos, hs.capacity_le⟩, ?_, ?_, ?_⟩
  · simp [hs.length_keys]
  · simp [hs.length_paths]
  · rw [← hrows]
    apply List.ext_getElem?
    intro i
    simp only [getElem?_rows, cell_set hk, cell_set hp]
    rcases Nat.lt_trichotomy i g.fakeKeyCount with hi | rfl | hi
    · rw [List.getElem?_append_left (by simpa using hi), getElem?_rows, if_pos hi, if_pos (by omega),
        if_neg (by omega), if_neg (by omega)]
    · simp
    · rw [if_neg (by omega), List.getElem?_eq_none (by simp; omega)]
  · have := hs.capacity_le
    omega
  · rw [hcount]

/-- `HandleToKey` reads the row of the handle. -/
theorem key_eq (t : Tables) (hKey : HKEY) :
    t.key hKey = if hKey = FAKE_SERVICE_KEY then none else (t.rows[fakeIndex hKey]?).bind FakeKey.key := by
  unfold key
  rw [getElem?_rows]
  split_ifs <;> rfl

theorem path_eq (t : Tables) (hKey : HKEY) :
    t.path hKey = if hKey = FAKE_SERVICE_KEY then none else (t.rows[fakeIndex hKey]?).bind FakeKey.path := by
  unfold path
  rw [getElem?_rows]
  split_ifs <;> rfl

/-- Every row in use has a node and a path. -/
def Filled (t : Tables) : Prop :=
  ∀ i < t.fakeKeyCount, (∃ k, cell t.fakeKeyTable i = some k) ∧ ∃ p, cell t.fakeKeyPaths i = some p

/-- The rows of `t` are among those of `t'`, as they were. -/
def Extends (t t' : Tables) : Prop :=
  t.fakeKeyCount ≤ t'.fakeKeyCount ∧ ∀ i < t.fakeKeyCount,
    cell t'.fakeKeyTable i = cell t.fakeKeyTable i ∧ cell t'.fakeKeyPaths i = cell t.fakeKeyPaths i

theorem filled_iff : t.Filled ↔ ∀ e ∈ t.rows, (∃ k, e.key = some k) ∧ ∃ p, e.path = some p := by
  simp [Filled, rows]

theorem extends_of_prefix (h : t.rows <+: t'.rows) : t.Extends t' := by
  refine ⟨by simpa using h.length_le, fun i hi => ?_⟩
  have hi' : i < t'.fakeKeyCount := Nat.lt_of_lt_of_le hi (by simpa using h.length_le)
  obtain ⟨more, hmore⟩ := h
  have hget : t'.rows[i]? = t.rows[i]? := by rw [← hmore, List.getElem?_append_left (by simpa using hi)]
  rw [getElem?_rows, getElem?_rows, if_pos hi, if_pos hi'] at hget
  simpa using hget

end Tables

/-! ## The process -/

structure Proc where
  isWow64 : Bool
  heap : Heap
  tables : Tables
  handleCache : List (WStr × HKEY)
  file : Option (List UInt8)

/-- The process as `Store` has it. -/
def Proc.store (p : Proc) : Store :=
  { isWow64 := p.isWow64, heap := p.heap, fakeKeys := p.tables.rows, handleCache := p.handleCache, file := p.file }

/-- What a hook leaves of the rest. -/
def Proc.put (p : Proc) (σ : Store) : Proc := { p with heap := σ.heap, handleCache := σ.handleCache, file := σ.file }

/-- `Register_InstallHooks` at its end: whatever has been loaded, with the tables reset. -/
def Proc.installed (isWow64 : Bool) (heap : Heap) (file : Option (List UInt8)) (t : Tables) : Proc :=
  { isWow64, heap, tables := t.reset, handleCache := [], file }

def procBaseKey (v : Variant) (p : Proc) (hKey : HKEY) : Option Id :=
  if hKey ∈ v.roots then some regRoot else p.tables.key hKey

/-- `BuildFullPath`. -/
def procFullPath (p : Proc) (hKey : HKEY) (lpSubKey : WStr) : WStr :=
  if hKey ∈ HKEY_USERS :: predefinedRoots then lpSubKey
  else
    match p.tables.path hKey with
    | none => lpSubKey
    | some basePath => if lpSubKey = [] then basePath else basePath ++ bslash :: lpSubKey

/-- `AllocHandle`, then `CacheLookup`. -/
def procHandOut (F : CaseFold) (p : Proc) (key : Id) (fullPath : WStr) : Option (HKEY × Proc) :=
  (p.tables.alloc (some key) (some fullPath)).map fun new =>
    let q := { p with tables := new.2 }
    let out := cacheLookup F q.store fullPath new.1
    (out.1, q.put out.2)

def procCreateKey (v : Variant) (F : CaseFold) (p : Proc) (hKey : HKEY) (lpSubKey : Option WStr) :
    Option (Reply × Proc) :=
  let redirected := redirectSubKey F p.isWow64 hKey (lpSubKey.getD [])
  match procBaseKey v p hKey with
  | none => some (v.notOurs, p)
  | some base =>
    (v.disposition F p.heap base redirected).bind fun disposition =>
      match navigatePath F true p.heap base redirected with
      | none => none
      | some (none, H) => some (.status .invalidParameter, { p with heap := H })
      | some (some key, H) =>
        (procHandOut F { p with heap := H } key (procFullPath p hKey redirected)).bind fun out =>
          (autoSave out.2.store).map fun τ => (.key out.1 disposition, out.2.put τ)

def procOpenKey (v : Variant) (F : CaseFold) (p : Proc) (hKey : HKEY) (lpSubKey : Option WStr) :
    Option (Reply × Proc) :=
  if serviceName <:+: lpSubKey.getD [] then some (.key FAKE_SERVICE_KEY none, p)
  else
    let redirected := redirectSubKey F p.isWow64 hKey (lpSubKey.getD [])
    match procBaseKey v p hKey with
    | none => some (v.notOurs, p)
    | some base =>
      match navigatePath F false p.heap base redirected with
      | none => none
      | some (none, _) => some (.status .fileNotFound, p)
      | some (some key, H) =>
        (procHandOut F { p with heap := H } key (procFullPath p hKey redirected)).map fun out =>
          (.key out.1 none, out.2)

/-- The key a query works on. A row with a path and no key gets one. -/
def procQueryKey (F : CaseFold) (p : Proc) (hKey : HKEY) : Option (Option Id × Proc) :=
  match p.tables.key hKey, p.tables.path hKey with
  | some key, _ => some (some key, p)
  | none, none => some (none, p)
  | none, some path =>
    match navigatePath F true p.heap regRoot path with
    | none => none
    | some (none, H) => some (none, { p with heap := H })
    | some (some key, H) => some (some key, { p with heap := H, tables := p.tables.setKey hKey key })

/-- `Hook_RegQueryValueExW` from where it has its key. -/
def queryReply (F : CaseFold) (H : Heap) (key : Id) (lpValueName : Option WStr) (lpData : Bool)
    (lpcbData : Option Nat) : Option Reply :=
  let name := lpValueName.getD []
  let bufSize := lpcbData.getD 0
  (getValue F H key name false 0).bind fun v =>
    if ¬ v.ok then some (.status .fileNotFound)
    else if lpcbData = none then none
    else if lpData ∧ bufSize < v.size then
      some (.value { status := .moreData, lpType := v.type, lpData := none, lpcbData := some v.size })
    else if lpData then
      (getValue F H key name true v.size).map fun w =>
        .value { status := .success, lpType := v.type, lpData := w.data, lpcbData := some w.size }
    else some (.value { status := .success, lpType := v.type, lpData := none, lpcbData := some v.size })

def procQueryValue (F : CaseFold) (p : Proc) (hKey : HKEY) (lpValueName : Option WStr) (lpData : Bool)
    (lpcbData : Option Nat) : Option (Reply × Proc) :=
  match procQueryKey F p hKey with
  | none => none
  | some (none, q) => some (.status .invalidHandle, q)
  | some (some key, q) => (queryReply F q.heap key lpValueName lpData lpcbData).map fun r => (r, q)

def procGetValue (F : CaseFold) (p : Proc) (hKey : HKEY) (lpSubKey lpValue : Option WStr) (dwFlags : UInt32)
    (pvData : Bool) (pcbData : Option Nat) : Option (Reply × Proc) :=
  let query := fun (h : HKEY) (q : Proc) =>
    (procQueryValue F q h lpValue pvData pcbData).map fun out => (expandType dwFlags out.1, out.2)
  if lpSubKey.getD [] = [] then query hKey p
  else
    match procOpenKey .ex F p hKey lpSubKey with
    | none => none
    | some (.key hTargetKey _, q) => query hTargetKey q
    | some (lr, q) => some (lr, q)

/-- The hooks; the last case is for those that do not write to the tables. -/
def procHook (F : CaseFold) (p : Proc) : ApiCall → Option (ApiReply × Proc)
  | .reg (.createKey v hKey sub) => (procCreateKey v F p hKey sub).map fun out => (.reg out.1, out.2)
  | .reg (.openKey v hKey sub) => (procOpenKey v F p hKey sub).map fun out => (.reg out.1, out.2)
  | .reg (.queryValue hKey name data size) =>
    (procQueryValue F p hKey name data size).map fun out => (.reg out.1, out.2)
  | .getValue hKey sub value flags data size =>
    (procGetValue F p hKey sub value flags data size).map fun out => (.reg out.1, out.2)
  | c => (apiHook F p.store c).map fun out => (out.1, p.put out.2)

def procCall (F : CaseFold) (p : Proc) (c : ApiCall) : Option (ApiReply × Proc) :=
  (procHook F p c).filter fun r => r.2.heap.Fits

def procStep (F : CaseFold) (p : Proc) (c : ApiCall) : Option Proc := (procCall F p c).map Prod.snd

/-! ## Simulation -/

/-- What holds of the tables between two calls. -/
structure TablesInv (t : Tables) : Prop where
  sized : t.Sized
  filled : t.Filled

/-- What one call may do to the tables. -/
structure TablesStep (t t' : Tables) : Prop where
  inv : TablesInv t'
  grows : t.rows <+: t'.rows

variable {F : CaseFold} {p q : Proc} {c : ApiCall}

theorem TablesInv.refl {t : Tables} (h : TablesInv t) : TablesStep t t := ⟨h, List.prefix_rfl⟩

theorem TablesStep.trans {t u v : Tables} (h : TablesStep t u) (k : TablesStep u v) : TablesStep t v :=
  ⟨k.inv, h.grows.trans k.grows⟩

theorem TablesInv.keyed (h : TablesInv p.tables) : Keyed p.store := by
  intro e he
  exact (Tables.filled_iff.1 h.filled e he).1

@[simp] theorem handleToKey_store (p : Proc) (hKey : HKEY) : handleToKey p.store hKey = p.tables.key hKey := by
  rw [Tables.key_eq]
  rfl

@[simp] theorem getKeyPath_store (p : Proc) (hKey : HKEY) : getKeyPath p.store hKey = p.tables.path hKey := by
  rw [Tables.path_eq]
  rfl

theorem baseKey_store (v : Variant) (p : Proc) (hKey : HKEY) : baseKey v p.store hKey = procBaseKey v p hKey := by
  simp [baseKey, procBaseKey]

theorem buildFullPath_store (p : Proc) (hKey : HKEY) (sub : WStr) :
    buildFullPath p.store hKey sub = procFullPath p hKey sub := by
  cases hp : p.tables.path hKey <;> simp only [buildFullPath, procFullPath, getKeyPath_store, hp]

/-- A lookup changes the cache at most. -/
theorem cacheLookup_store (p : Proc) (path : WStr) (h : HKEY) :
    (p.put (cacheLookup F p.store path h).2).store = (cacheLookup F p.store path h).2 := by
  unfold cacheLookup
  cases cached F p.store path with
  | some h' => rfl
  | none =>
    dsimp only
    split_ifs <;> rfl

/-- **The branch that creates keys is not reached**: a handle with a path has a key. -/
theorem path_none_of_key_none (h : p.tables.Filled) {hKey : HKEY} (hk : p.tables.key hKey = none) :
    p.tables.path hKey = none := by
  unfold Tables.key at hk
  unfold Tables.path
  split_ifs at hk ⊢ with hs hi
  · rfl
  · obtain ⟨k, hcell⟩ := (h _ hi).1
    rw [hcell] at hk
    cases hk
  · rfl

/-- **Handing out** is the append of one row. -/
theorem procHandOut_sim (h : TablesInv p.tables) {key : Id} {path : WStr} {hKey : HKEY}
    (ho : procHandOut F p key path = some (hKey, q)) :
    handOut F p.store key path = some (hKey, q.store) ∧ TablesStep p.tables q.tables := by
  obtain ⟨⟨h', t⟩, ha, hout⟩ := Option.map_eq_some_iff.1 ho
  obtain ⟨hsized, hrows, hlt, rfl⟩ := Tables.alloc_spec h.sized ha
  have halloc : allocHandle p.store key path =
      some (FAKE_HANDLE_BASE + UInt32.ofNat p.tables.fakeKeyCount, ({ p with tables := t } : Proc).store) := by
    simp only [allocHandle, Proc.store, Tables.length_rows, if_pos hlt, hrows]
  have hstep : TablesStep p.tables t := by
    refine ⟨⟨hsized, Tables.filled_iff.2 ?_⟩, ⟨_, hrows.symm⟩⟩
    intro e he
    rw [hrows] at he
    rcases List.mem_append.1 he with he | he
    · exact Tables.filled_iff.1 h.filled e he
    · rw [List.mem_singleton] at he
      exact ⟨⟨key, by rw [he]⟩, ⟨path, by rw [he]⟩⟩
  cases hout
  refine ⟨?_, hstep⟩
  rw [handOut, halloc, Option.map_some, cacheLookup_store]

theorem procCreateKey_sim (h : TablesInv p.tables) {v : Variant} {hKey : HKEY} {sub : Option WStr} {r : Reply}
    (hc : procCreateKey v F p hKey sub = some (r, q)) :
    regCreateKey v F p.store hKey sub = some (r, q.store) ∧ TablesStep p.tables q.tables := by
  unfold procCreateKey at hc
  unfold regCreateKey
  simp only [baseKey_store, buildFullPath_store] at *
  cases hb : procBaseKey v p hKey with
  | none =>
    simp only [hb, Option.some.injEq, Prod.mk.injEq] at hc ⊢
    obtain ⟨rfl, rfl⟩ := hc
    exact ⟨⟨rfl, rfl⟩, h.refl⟩
  | some base =>
    simp only [hb] at hc ⊢
    obtain ⟨d, hd, hc⟩ := Option.bind_eq_some_iff.1 hc
    have hd' : v.disposition F p.store.heap base (redirectSubKey F p.store.isWow64 hKey (sub.getD [])) = some d := hd
    rw [hd', Option.bind_some]
    show (match navigatePath F true p.heap base (redirectSubKey F p.isWow64 hKey (sub.getD [])) with
      | none => none
      | some (none, H) => some (Reply.status .invalidParameter, { p.store with heap := H })
      | some (some key, H) =>
        (handOut F { p.store with heap := H } key
          (procFullPath p hKey (redirectSubKey F p.isWow64 hKey (sub.getD [])))).bind fun out =>
            (autoSave out.2).map fun τ => (Reply.key out.1 d, τ)) = some (r, q.store) ∧ TablesStep p.tables q.tables
    cases hnav : navigatePath F true p.heap base (redirectSubKey F p.isWow64 hKey (sub.getD [])) with
    | none =>
      rw [hnav] at hc
      cases hc
    | some res =>
      obtain ⟨o, H⟩ := res
      cases o with
      | none =>
        simp only [hnav, Option.some.injEq, Prod.mk.injEq] at hc ⊢
        obtain ⟨rfl, rfl⟩ := hc
        exact ⟨⟨rfl, rfl⟩, h.refl⟩
      | some key =>
        simp only [hnav] at hc ⊢
        obtain ⟨⟨h', p'⟩, ho, hc⟩ := Option.bind_eq_some_iff.1 hc
        obtain ⟨τ, hs, hc⟩ := Option.map_eq_some_iff.1 hc
        obtain ⟨hsim, hstep⟩ := procHandOut_sim (p := { p with heap := H }) h ho
        have hsim' : handOut F { p.store with heap := H } key
            (procFullPath p hKey (redirectSubKey F p.isWow64 hKey (sub.getD []))) = some (h', p'.store) := hsim
        cases hc
        refine ⟨?_, hstep⟩
        rw [hsim', Option.bind_some, hs, Option.map_some]
        obtain ⟨ws, -, rfl⟩ := autoSave_eq_some.1 hs
        rfl

theorem procOpenKey_sim (h : TablesInv p.tables) {v : Variant} {hKey : HKEY} {sub : Option WStr} {r : Reply}
    (hc : procOpenKey v F p hKey sub = some (r, q)) :
    regOpenKey v F p.store hKey sub = some (r, q.store) ∧ TablesStep p.tables q.tables := by
  unfold procOpenKey at hc
  unfold regOpenKey
  split at hc
  · next hs =>
    rw [if_pos hs]
    cases hc
    exact ⟨rfl, h.refl⟩
  · next hs =>
    rw [if_neg hs]
    simp only [baseKey_store, buildFullPath_store] at *
    cases hb : procBaseKey v p hKey with
    | none =>
      simp only [hb, Option.some.injEq, Prod.mk.injEq] at hc ⊢
      obtain ⟨rfl, rfl⟩ := hc
      exact ⟨⟨rfl, rfl⟩, h.refl⟩
    | some base =>
      simp only [hb] at hc ⊢
      show (match navigatePath F false p.heap base (redirectSubKey F p.isWow64 hKey (sub.getD [])) with
        | none => none
        | some (none, _) => some (Reply.status .fileNotFound, p.store)
        | some (some key, H) =>
          (handOut F { p.store with heap := H } key
            (procFullPath p hKey (redirectSubKey F p.isWow64 hKey (sub.getD [])))).map fun out =>
              (Reply.key out.1 none, out.2)) = some (r, q.store) ∧ TablesStep p.tables q.tables
      cases hnav : navigatePath F false p.heap base (redirectSubKey F p.isWow64 hKey (sub.getD [])) with
      | none =>
        rw [hnav] at hc
        cases hc
      | some res =>
        obtain ⟨o, H⟩ := res
        cases o with
        | none =>
          simp only [hnav, Option.some.injEq, Prod.mk.injEq] at hc ⊢
          obtain ⟨rfl, rfl⟩ := hc
          exact ⟨⟨rfl, rfl⟩, h.refl⟩
        | some key =>
          simp only [hnav] at hc ⊢
          obtain ⟨⟨h', p'⟩, ho, hc⟩ := Option.map_eq_some_iff.1 hc
          obtain ⟨hsim, hstep⟩ := procHandOut_sim (p := { p with heap := H }) h ho
          have hsim' : handOut F { p.store with heap := H } key
              (procFullPath p hKey (redirectSubKey F p.isWow64 hKey (sub.getD []))) = some (h', p'.store) := hsim
          cases hc
          exact ⟨by rw [hsim', Option.map_some], hstep⟩

/-- A query finds its key in the table, and the table stays. -/
theorem procQueryKey_eq (h : TablesInv p.tables) (hKey : HKEY) :
    procQueryKey F p hKey = some (p.tables.key hKey, p) := by
  unfold procQueryKey
  cases hk : p.tables.key hKey with
  | some key => rfl
  | none =>
    rw [path_none_of_key_none h.filled hk]

/-- The rest of a query, for the two models. -/
theorem queryValue_eq (hk : Keyed p.store) (hKey : HKEY) (name : Option WStr) (data : Bool) (size : Option Nat) :
    hookRegQueryValueExW F p.store hKey name data size =
      match p.tables.key hKey with
      | none => some (.status .invalidHandle, p.store)
      | some key => (queryReply F p.heap key name data size).map fun r => (r, p.store) := by
  rw [hookRegQueryValueExW, queryKey_of_keyed hk, handleToKey_store]
  cases p.tables.key hKey with
  | none => rfl
  | some key =>
    have hheap : p.store.heap = p.heap := rfl
    simp only [queryReply, hheap]
    cases getValue F p.heap key (name.getD []) false 0 with
    | none => rfl
    | some v =>
      simp only [Option.bind_some]
      split_ifs
      · rfl
      · rfl
      · rw [Option.map_map]
        rfl
      · rfl
      · rfl

theorem procQueryValue_sim (h : TablesInv p.tables) {hKey : HKEY} {name : Option WStr} {data : Bool}
    {size : Option Nat} {r : Reply} (hc : procQueryValue F p hKey name data size = some (r, q)) :
    hookRegQueryValueExW F p.store hKey name data size = some (r, q.store) ∧ q = p := by
  rw [queryValue_eq h.keyed]
  rw [procQueryValue, procQueryKey_eq h] at hc
  cases hk : p.tables.key hKey with
  | none =>
    simp only [hk, Option.some.injEq, Prod.mk.injEq] at hc
    obtain ⟨rfl, rfl⟩ := hc
    exact ⟨rfl, rfl⟩
  | some key =>
    simp only [hk] at hc
    obtain ⟨r', hr, hc⟩ := Option.map_eq_some_iff.1 hc
    cases hc
    exact ⟨by simp [hr], rfl⟩

theorem procGetValue_sim (h : TablesInv p.tables) {hKey : HKEY} {sub value : Option WStr} {flags : UInt32}
    {data : Bool} {size : Option Nat} {r : Reply}
    (hc : procGetValue F p hKey sub value flags data size = some (r, q)) :
    hookRegGetValueW F p.store hKey sub value flags data size = some (r, q.store) ∧ TablesStep p.tables q.tables := by
  unfold procGetValue at hc
  unfold hookRegGetValueW
  split at hc
  · next hsub =>
    obtain ⟨⟨r', q'⟩, hq, hout⟩ := Option.map_eq_some_iff.1 hc
    obtain ⟨hsim, rfl⟩ := procQueryValue_sim h hq
    cases hout
    rw [if_pos hsub]
    exact ⟨by simp [hsim], h.refl⟩
  · next hsub =>
    rw [if_neg hsub]
    split at hc
    · cases hc
    · next hTarget d q' hopen =>
      obtain ⟨hsim, hstep⟩ := procOpenKey_sim h hopen
      obtain ⟨⟨r', q''⟩, hq, hout⟩ := Option.map_eq_some_iff.1 hc
      obtain ⟨hsim', rfl⟩ := procQueryValue_sim hstep.inv hq
      cases hout
      rw [hookRegOpenKeyExW, hsim]
      exact ⟨by simp [hsim'], hstep⟩
    · next lr q' hne hopen =>
      obtain ⟨hsim, hstep⟩ := procOpenKey_sim h hopen
      cases hc
      refine ⟨?_, hstep⟩
      rw [hookRegOpenKeyExW, hsim]
      cases r with
      | key hTarget d => exact absurd rfl (hne hTarget d)
      | status s => rfl
      | value out => rfl
      | forwarded => rfl

/-- The hooks that write to the tables. -/
def ApiCall.TouchesTables : ApiCall → Prop
  | .reg (.createKey ..) | .reg (.openKey ..) | .reg (.queryValue ..) | .getValue .. => True
  | _ => False

/-- Every other hook leaves the rows as they are. -/
theorem apiHook_rows {σ τ : Store} (hc : ¬ c.TouchesTables) {r : ApiReply} (h : apiHook F σ c = some (r, τ)) :
    τ.fakeKeys = σ.fakeKeys ∧ τ.isWow64 = σ.isWow64 := by
  have hlook : ∀ {o : Option ApiReply}, o.map (fun r => (r, σ)) = some (r, τ) →
      τ.fakeKeys = σ.fakeKeys ∧ τ.isWow64 = σ.isWow64 := by
    intro o ho
    obtain ⟨r', -, hout⟩ := Option.map_eq_some_iff.1 ho
    cases hout
    exact ⟨rfl, rfl⟩
  have hsave : ∀ {H : Heap} {τ' : Store}, autoSave { σ with heap := H } = some τ' →
      τ'.fakeKeys = σ.fakeKeys ∧ τ'.isWow64 = σ.isWow64 := by
    intro H τ' hs
    obtain ⟨ws, -, rfl⟩ := autoSave_eq_some.1 hs
    exact ⟨rfl, rfl⟩
  have hdel : ∀ {hKey : HKEY} {sub : WStr} {r' : Reply}, hookRegDeleteKeyW F σ hKey sub = some (r', τ) →
      τ.fakeKeys = σ.fakeKeys ∧ τ.isWow64 = σ.isWow64 := by
    intro hKey sub r' hd
    unfold hookRegDeleteKeyW at hd
    split at hd
    · cases hd
      exact ⟨rfl, rfl⟩
    · split at hd
      · cases hd
        exact ⟨rfl, rfl⟩
      · obtain ⟨k, -, hd⟩ := Option.bind_eq_some_iff.1 hd
        split at hd
        · cases hd
        · cases hd
          exact ⟨rfl, rfl⟩
        · obtain ⟨τ', hs, hd⟩ := Option.map_eq_some_iff.1 hd
          cases hd
          exact hsave hs
  cases c with
  | reg d =>
    obtain ⟨⟨r', τ'⟩, hd, hout⟩ := Option.map_eq_some_iff.1 h
    cases hout
    cases d with
    | createKey v hKey sub => exact absurd trivial hc
    | openKey v hKey sub => exact absurd trivial hc
    | queryValue hKey name data size => exact absurd trivial hc
    | setValue hKey name type data =>
      cases effect_setValue hd with
      | quiet _ => exact ⟨rfl, rfl⟩
      | set _ _ hs => exact hsave hs
    | deleteValue hKey name =>
      cases effect_deleteValue hd with
      | quiet _ => exact ⟨rfl, rfl⟩
      | erased _ _ hs => exact hsave hs
    | deleteKey hKey sub => exact hdel hd
  | deleteKeyEx hKey sub =>
    obtain ⟨⟨r', τ'⟩, hd, hout⟩ := Option.map_eq_some_iff.1 h
    cases hout
    exact hdel hd
  | deleteTree hKey sub =>
    obtain ⟨⟨r', τ'⟩, hd, hout⟩ := Option.map_eq_some_iff.1 h
    cases hout
    exact hdel hd
  | getValue hKey sub value flags data size => exact absurd trivial hc
  | enumKeyEx hKey index cch => exact hlook h
  | enumKey hKey index cch => exact hlook h
  | enumValue hKey index cch data size => exact hlook h
  | queryInfoKey hKey cls cch => exact hlook h
  | copyTree src sub dest => exact hlook (o := some (.reg (.status .success))) h
  | closeKey hKey => exact hlook (o := some (.reg (hookRegCloseKey σ hKey))) h
  | notifyChange hKey => exact hlook (o := some (.reg (hookRegNotifyChangeKeyValue σ hKey))) h
  | setKeySecurity hKey => exact hlook (o := some (.reg (.status .success))) h

/-- **One call** on the arrays is the call on the rows. -/
theorem procHook_sim (h : TablesInv p.tables) {r : ApiReply} (hc : procHook F p c = some (r, q)) :
    apiHook F p.store c = some (r, q.store) ∧ TablesStep p.tables q.tables := by
  have hlift : ¬ c.TouchesTables → (apiHook F p.store c).map (fun out => (out.1, p.put out.2)) = some (r, q) →
      apiHook F p.store c = some (r, q.store) ∧ TablesStep p.tables q.tables := by
    intro ht ho
    obtain ⟨⟨r', τ⟩, hτ, hout⟩ := Option.map_eq_some_iff.1 ho
    cases hout
    obtain ⟨hrows, hwow⟩ := apiHook_rows ht hτ
    obtain ⟨w, H, rows, cache, file⟩ := τ
    obtain rfl : rows = p.tables.rows := hrows
    obtain rfl : w = p.isWow64 := hwow
    exact ⟨hτ, h.refl⟩
  cases c with
  | reg d =>
    cases d with
    | createKey v hKey sub =>
      obtain ⟨⟨r', q'⟩, ho, hout⟩ := Option.map_eq_some_iff.1 hc
      obtain ⟨hsim, hstep⟩ := procCreateKey_sim h ho
      cases hout
      exact ⟨by simp [apiHook, hook, hsim], hstep⟩
    | openKey v hKey sub =>
      obtain ⟨⟨r', q'⟩, ho, hout⟩ := Option.map_eq_some_iff.1 hc
      obtain ⟨hsim, hstep⟩ := procOpenKey_sim h ho
      cases hout
      exact ⟨by simp [apiHook, hook, hsim], hstep⟩
    | queryValue hKey name data size =>
      obtain ⟨⟨r', q'⟩, ho, hout⟩ := Option.map_eq_some_iff.1 hc
      obtain ⟨hsim, rfl⟩ := procQueryValue_sim h ho
      cases hout
      exact ⟨by simp [apiHook, hook, hsim], h.refl⟩
    | setValue hKey name type data => exact hlift id hc
    | deleteValue hKey name => exact hlift id hc
    | deleteKey hKey sub => exact hlift id hc
  | getValue hKey sub value flags data size =>
    obtain ⟨⟨r', q'⟩, ho, hout⟩ := Option.map_eq_some_iff.1 hc
    obtain ⟨hsim, hstep⟩ := procGetValue_sim h ho
    cases hout
    exact ⟨by simp [apiHook, hsim], hstep⟩
  | deleteKeyEx hKey sub => exact hlift id hc
  | deleteTree hKey sub => exact hlift id hc
  | copyTree src sub dest => exact hlift id hc
  | enumKeyEx hKey index cch => exact hlift id hc
  | enumKey hKey index cch => exact hlift id hc
  | enumValue hKey index cch data size => exact hlift id hc
  | queryInfoKey hKey cls cch => exact hlift id hc
  | closeKey hKey => exact hlift id hc
  | notifyChange hKey => exact hlift id hc
  | setKeySecurity hKey => exact hlift id hc

theorem procCall_eq_some {r : ApiReply} :
    procCall F p c = some (r, q) ↔ procHook F p c = some (r, q) ∧ q.heap.Fits := by
  simp [procCall, Option.filter_eq_some_iff]

/-- **A run** on the arrays is a run on the rows, and only adds rows. -/
theorem procRun_sim {cs : List ApiCall} (h : TablesInv p.tables) (hr : Lts.run (procStep F) p cs = some q) :
    Lts.run (apiStep F) p.store cs = some q.store ∧ TablesStep p.tables q.tables := by
  induction cs generalizing p with
  | nil =>
    cases hr
    exact ⟨rfl, h.refl⟩
  | cons c cs ih =>
    obtain ⟨p', hs, hr⟩ := Lts.run_cons.1 hr
    obtain ⟨⟨r, p''⟩, hcall, hout⟩ := Option.map_eq_some_iff.1 hs
    obtain rfl : p'' = p' := hout
    obtain ⟨hhook, hfit⟩ := procCall_eq_some.1 hcall
    obtain ⟨hsim, hstep⟩ := procHook_sim h hhook
    obtain ⟨hrun, hstep'⟩ := ih hstep.inv hr
    exact ⟨Lts.run_cons.2 ⟨_, apiStep_eq_some.2 ⟨r, apiCall_eq_some.2 ⟨hsim, hfit⟩⟩, hrun⟩, hstep.trans hstep'⟩

/-! ## Queries -/

/-- The calls that look at the registry. -/
def ApiCall.IsQuery : ApiCall → Prop
  | .reg (.openKey ..) | .reg (.queryValue ..) | .getValue .. | .enumKeyEx .. | .enumKey .. | .enumValue ..
  | .queryInfoKey .. | .closeKey _ => True
  | _ => False

/-- They change neither the tree nor the file. -/
theorem query_frame {σ τ : Store} (hk : Keyed σ) (hq : c.IsQuery) {r : ApiReply} (h : apiHook F σ c = some (r, τ)) :
    τ.heap = σ.heap ∧ τ.file = σ.file := by
  have hlook : ∀ {o : Option ApiReply}, o.map (fun r => (r, σ)) = some (r, τ) → τ.heap = σ.heap ∧ τ.file = σ.file := by
    intro o ho
    obtain ⟨r', -, hout⟩ := Option.map_eq_some_iff.1 ho
    cases hout
    exact ⟨rfl, rfl⟩
  cases c with
  | reg d =>
    obtain ⟨⟨r', τ'⟩, hd, hout⟩ := Option.map_eq_some_iff.1 h
    cases hout
    cases d with
    | openKey v hKey sub => exact (openKey_frame hk hd).2
    | queryValue hKey name data size =>
      obtain rfl := queryValue_store hk hd
      exact ⟨rfl, rfl⟩
    | createKey v hKey sub => cases hq
    | setValue hKey name type data => cases hq
    | deleteValue hKey name => cases hq
    | deleteKey hKey sub => cases hq
  | getValue hKey sub value flags data size =>
    obtain ⟨⟨r', τ'⟩, hg, hout⟩ := Option.map_eq_some_iff.1 h
    cases hout
    exact (getValue_frame hk hg).2
  | enumKeyEx hKey index cch => exact hlook h
  | enumKey hKey index cch => exact hlook h
  | enumValue hKey index cch data size => exact hlook h
  | queryInfoKey hKey cls cch => exact hlook h
  | closeKey hKey => exact hlook (o := some (.reg (hookRegCloseKey σ hKey))) h
  | deleteKeyEx hKey sub => cases hq
  | deleteTree hKey sub => cases hq
  | copyTree src sub dest => cases hq
  | notifyChange hKey => cases hq
  | setKeySecurity hKey => cases hq

theorem tablesInv_reset {t : Tables} (h : t.Sized) : TablesInv t.reset where
  sized := (Tables.sized_reset h).1
  filled := by
    intro i hi
    cases hi

/-- **Queries never change the store.** From the installed state, whatever has been loaded: in every state the
rows in use have a node and a path, which no later call changes; so the branch of a query that creates keys is not
reached, and a query leaves the tree as it is and the file as it is, whatever the file holds. A call through the
handle of a freed key has no outcome (`Tree`), and no run goes on behind one. -/
theorem queries_change_nothing (isWow64 : Bool) (H : Heap) (file : Option (List UInt8)) (t : Tables) (ht : t.Sized)
    (cs : List ApiCall) (p : Proc) (hr : Lts.run (procStep F) (.installed isWow64 H file t) cs = some p) :
    p.tables.Filled ∧
    (∀ cs' q, Lts.run (procStep F) p cs' = some q → p.tables.Extends q.tables) ∧
    (∀ hKey, p.tables.key hKey = none → p.tables.path hKey = none) ∧
    ∀ c r q f, c.IsQuery → procCall F { p with file := f } c = some (r, q) → q.heap = p.heap ∧ q.file = f := by
  have hinv : TablesInv p.tables :=
    (procRun_sim (p := .installed isWow64 H file t) (tablesInv_reset ht) hr).2.inv
  refine ⟨hinv.filled, ?_, ?_, ?_⟩
  · intro cs' q hr'
    exact Tables.extends_of_prefix (procRun_sim hinv hr').2.grows
  · intro hKey hk
    exact path_none_of_key_none hinv.filled hk
  · intro c r q f hq hc
    have hinv' : TablesInv ({ p with file := f } : Proc).tables := hinv
    obtain ⟨hsim, -⟩ := procHook_sim hinv' (procCall_eq_some.1 hc).1
    exact query_frame hinv'.keyed hq hsim

/-- After `A` has been created: looking for a value in it finds none, and nothing is written. -/
theorem queries_change_nothing_create : ∃ p q, Lts.run (procStep asciiFold)
    (.installed false emptyHeap none .installed) [.reg (.createKey .ex HKEY_LOCAL_MACHINE (some (wide "A")))] = some p ∧
      p.tables.Filled ∧ p.tables.fakeKeyCount = 1 ∧
      procCall asciiFold p (.reg (.queryValue 0x30000000 none false (some 0))) =
        some (.reg (.status .fileNotFound), q) ∧ q.heap = p.heap ∧ q.file = p.file := by
  obtain ⟨p, q, hrun, hcount, hquery⟩ : ∃ p q, Lts.run (procStep asciiFold)
      (.installed false emptyHeap none .installed) [.reg (.createKey .ex HKEY_LOCAL_MACHINE (some (wide "A")))] = some p ∧
        p.tables.fakeKeyCount = 1 ∧ procCall asciiFold p (.reg (.queryValue 0x30000000 none false (some 0))) =
          some (.reg (.status .fileNotFound), q) := ⟨_, _, rfl, rfl, rfl⟩
  obtain ⟨hfilled, -, -, hsame⟩ := queries_change_nothing false emptyHeap none .installed Tables.sized_installed _ p hrun
  have hq := hsame (.reg (.queryValue 0x30000000 none false (some 0))) _ q p.file trivial hquery
  exact ⟨p, q, hrun, hfilled, hcount, hquery, hq.1, hq.2⟩

end Rvpn.Registry
