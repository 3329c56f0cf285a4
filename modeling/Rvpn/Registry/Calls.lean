import Rvpn.Registry.Hooks

/-!
# What a call does

`Effect` lists what a hook can do to the state, one constructor for each branch that changes something,
with everything the branch has checked. `call_effect` says that a call in a state of the invariant `Inv`
does one of these, and `inv_call` that the state it leaves is in `Inv` again; nothing after this module
looks into a hook.
-/

namespace Rvpn.Registry

open Cells

/-- **The invariant** between two calls: the tree is well formed, every row of the handle table has a
key (dead or alive) and a path, and both fit into memory. -/
structure Inv (F : CaseFold) (σ : Store) : Prop where
  wf : WF F σ.heap
  rows : ∀ e ∈ σ.fakeKeys, ∃ key path, e = { key := some key, path := some path } ∧ key < σ.heap.length
  few : σ.fakeKeys.length ≤ 2 ^ 29
  fits : σ.heap.Fits

/-- What a call that changes nothing has found, and the replies it can give. -/
def Quiet (F : CaseFold) (σ : Store) : RegCall → Reply → Prop
  | .createKey .., r => ∀ h d, r ≠ .key h d
  | .openKey .., r => ∀ h d, r = .key h d → h = FAKE_SERVICE_KEY
  | .setValue hKey .., r => handleToKey σ hKey = none ∧ (r = .status .success → hKey = FAKE_SERVICE_KEY)
  | .deleteValue hKey name, r =>
    (∀ key k, handleToKey σ hKey = some key → deref σ.heap key = some k →
      Assoc.find (valueKey F) (F.fold (name.getD [])) k.values = none) ∧
    (r = .status .success → hKey = FAKE_SERVICE_KEY)
  | .deleteKey hKey _, r => r = .status .success → hKey = FAKE_SERVICE_KEY
  | .queryValue .., _ => True

/-- The tokens a create or open walks along. -/
def walked (F : CaseFold) (σ : Store) (hKey : HKEY) (lpSubKey : Option WStr) : List WStr :=
  tokens (lstrcpynW (redirectSubKey F σ.isWow64 hKey (lpSubKey.getD [])) 512)

/-- The path a create or open keeps in the tables. -/
def fullPathOf (F : CaseFold) (σ : Store) (hKey : HKEY) (lpSubKey : Option WStr) : WStr :=
  buildFullPath σ hKey (redirectSubKey F σ.isWow64 hKey (lpSubKey.getD []))

inductive Effect (F : CaseFold) (σ : Store) : RegCall → Reply → Store → Prop
  | quiet {c : RegCall} {r : Reply} (h : Quiet F σ c r) : Effect F σ c r σ
  | created {v : Variant} {hKey h : HKEY} {sub : Option WStr} {d : Option Disposition} {base n : Id} {H : Heap}
      {υ τ : Store} (hb : baseKey v σ hKey = some base) (hwf : WF F H) (hg : Grows σ.heap H)
      (hw : Walk F H base (walked F σ hKey sub) n)
      (ho : handOut F { σ with heap := H } n (fullPathOf F σ hKey sub) = some (h, υ)) (hs : autoSave υ = some τ) :
      Effect F σ (.createKey v hKey sub) (.key h d) τ
  | opened {v : Variant} {hKey h : HKEY} {sub : Option WStr} {base n : Id} {τ : Store}
      (hb : baseKey v σ hKey = some base) (hw : Walk F σ.heap base (walked F σ hKey sub) n)
      (ho : handOut F σ n (fullPathOf F σ hKey sub) = some (h, τ)) :
      Effect F σ (.openKey v hKey sub) (.key h none) τ
  | set {hKey : HKEY} {name : Option WStr} {type : UInt32} {data : List UInt8} {key : Id} {k : RegKey} {τ : Store}
      (hh : handleToKey σ hKey = some key) (hk : deref σ.heap key = some k)
      (hs : autoSave { σ with heap := setValues σ.heap key k (putValue F (name.getD []) type data k.values) } = some τ) :
      Effect F σ (.setValue hKey name type data) (.status .success) τ
  | erased {hKey : HKEY} {name : Option WStr} {key : Id} {k : RegKey} {τ : Store}
      (hh : handleToKey σ hKey = some key) (hk : deref σ.heap key = some k)
      (hs : autoSave { σ with
        heap := setValues σ.heap key k (Assoc.erase (valueKey F) (F.fold (name.getD [])) k.values) } = some τ) :
      Effect F σ (.deleteValue hKey name) (.status .success) τ
  | unlinked {hKey : HKEY} {sub : WStr} {base j : Id} {k : RegKey} {τ : Store}
      (hh : handleToKey σ hKey = some base) (hk : deref σ.heap base = some k) (hj : j ∈ k.children)
      (hc : Child F σ.heap base sub j) (hs : autoSave { σ with heap := unlink σ.heap base k j } = some τ) :
      Effect F σ (.deleteKey hKey sub) (.status .success) τ

variable {F : CaseFold} {σ τ υ : Store} {c : RegCall} {r : Reply}

/-! ## Handles -/

theorem fakeIndex_handle {i : Nat} (hi : i < 2 ^ 29) : fakeIndex (FAKE_HANDLE_BASE + UInt32.ofNat i) = i := by
  have hlt : i < 2 ^ 32 := by omega
  have hsub : FAKE_HANDLE_BASE + UInt32.ofNat i - FAKE_HANDLE_BASE = UInt32.ofNat i := by
    rw [UInt32.add_comm, UInt32.add_sub_cancel]
  rw [fakeIndex, hsub, UInt32.toNat_ofNat_of_lt' hlt]

theorem handle_ne_fake {i : Nat} (hi : i < 2 ^ 29) : FAKE_HANDLE_BASE + UInt32.ofNat i ≠ FAKE_SERVICE_KEY := by
  intro he
  have hidx := fakeIndex_handle hi
  rw [he] at hidx
  have hfake : fakeIndex FAKE_SERVICE_KEY = 0xE0000001 := by decide
  omega

/-- A handle below the table's end denotes what its row says. -/
theorem handleToKey_eq_some {h : HKEY} {key : Id} :
    handleToKey σ h = some key ↔ h ≠ FAKE_SERVICE_KEY ∧ ∃ e, σ.fakeKeys[fakeIndex h]? = some e ∧ e.key = some key := by
  unfold handleToKey
  split
  · next h => simp [h]
  · next h => simp [h, Option.bind_eq_some_iff]

/-- No predefined root is a handle of the table. -/
theorem handleToKey_predefined (hfew : σ.fakeKeys.length ≤ 2 ^ 29) {h : HKEY} (hr : h ∈ HKEY_USERS :: predefinedRoots) :
    handleToKey σ h = none := by
  have hout : 2 ^ 29 ≤ fakeIndex h := by
    simp only [predefinedRoots, List.mem_cons, List.not_mem_nil, or_false] at hr
    rcases hr with rfl | rfl | rfl | rfl <;> decide
  unfold handleToKey
  split
  · rfl
  · rw [List.getElem?_eq_none (by omega)]
    rfl

theorem mem_roots {v : Variant} {h : HKEY} (hr : h ∈ v.roots) : h ∈ HKEY_USERS :: predefinedRoots := by
  cases v with
  | ex => exact List.mem_cons_of_mem _ hr
  | legacy => exact hr

/-- The full path below a handle of the table continues the path of its row. -/
theorem fullPath_of_row (hfew : σ.fakeKeys.length ≤ 2 ^ 29) {h : HKEY} {key : Id} {path : WStr}
    (hh : handleToKey σ h = some key) (hrow : σ.fakeKeys[fakeIndex h]? = some ⟨some key, some path⟩) (s : WStr) :
    buildFullPath σ h s = if s = [] then path else path ++ bslash :: s := by
  have hnot : h ∉ HKEY_USERS :: predefinedRoots := fun hp => by
    rw [handleToKey_predefined hfew hp] at hh
    cases hh
  have hpath : getKeyPath σ h = some path := by
    rw [getKeyPath, if_neg (handleToKey_eq_some.1 hh).1, hrow]
    rfl
  rw [buildFullPath, if_neg hnot, hpath]

/-- The row behind the handle a call navigates from; the root has none. -/
theorem baseKey_cases (hi : Inv F σ) {v : Variant} {hKey : HKEY} {base : Id} (hb : baseKey v σ hKey = some base) :
    (base = regRoot ∧ ∀ s, buildFullPath σ hKey s = s) ∨
    (∃ path, (⟨some base, some path⟩ : FakeKey) ∈ σ.fakeKeys ∧
      ∀ s, buildFullPath σ hKey s = if s = [] then path else path ++ bslash :: s) := by
  unfold baseKey at hb
  split at hb
  · next hr =>
    cases hb
    exact .inl ⟨rfl, fun s => by rw [buildFullPath, if_pos (mem_roots hr)]⟩
  · next hr =>
    obtain ⟨-, e, he, hkey⟩ := handleToKey_eq_some.1 hb
    have hmem : e ∈ σ.fakeKeys := List.mem_of_getElem? he
    obtain ⟨key, path, rfl, -⟩ := hi.rows e hmem
    obtain rfl : key = base := by simpa using hkey
    exact .inr ⟨path, hmem, fullPath_of_row hi.few hb he⟩

/-- The cache after a lookup that has missed. -/
def cacheAfter (σ : Store) (fullPath : WStr) (h : HKEY) : List (WStr × HKEY) :=
  if σ.handleCache.length < maxCachedHandles then σ.handleCache ++ [(fullPath, h)] else σ.handleCache

/-- **Handing out**: a new row in the table, and the cached handle or else the one of the new row. -/
theorem handOut_cases {key : Id} {path : WStr} {h : HKEY} (ho : handOut F σ key path = some (h, τ)) :
    σ.fakeKeys.length < 2 ^ 29 ∧
    ((cached F σ path = some h ∧
        τ = { σ with fakeKeys := σ.fakeKeys ++ [{ key := some key, path := some path }] }) ∨
     (cached F σ path = none ∧ h = FAKE_HANDLE_BASE + UInt32.ofNat σ.fakeKeys.length ∧
        τ = { σ with
          fakeKeys := σ.fakeKeys ++ [{ key := some key, path := some path }]
          handleCache := cacheAfter σ path h })) := by
  unfold handOut allocHandle at ho
  split at ho
  · next hlt =>
    refine ⟨hlt, ?_⟩
    simp only [Option.map_some, Option.some.injEq, cacheLookup, cached] at ho
    cases hc : (σ.handleCache.find? fun e => wcsicmp F e.1 path).map Prod.snd with
    | some h' =>
      rw [hc] at ho
      cases ho
      exact .inl ⟨hc, rfl⟩
    | none =>
      rw [hc] at ho
      refine .inr ⟨hc, ?_⟩
      by_cases hroom : σ.handleCache.length < maxCachedHandles
      · simp only [hroom, if_true] at ho
        cases ho
        exact ⟨rfl, by simp [cacheAfter, hroom]⟩
      · simp only [hroom, if_false] at ho
        cases ho
        exact ⟨rfl, by simp [cacheAfter, hroom]⟩
  · cases ho

theorem handOut_heap {key : Id} {path : WStr} {h : HKEY} (ho : handOut F σ key path = some (h, τ)) :
    τ.heap = σ.heap ∧ τ.fakeKeys = σ.fakeKeys ++ [{ key := some key, path := some path }] ∧ τ.file = σ.file := by
  rcases (handOut_cases ho).2 with ⟨-, rfl⟩ | ⟨-, -, rfl⟩
  · exact ⟨rfl, rfl, rfl⟩
  · exact ⟨rfl, rfl, rfl⟩

/-- The cache has at most one entry more, for the new row. -/
theorem handOut_cache {key : Id} {path p : WStr} {h h' : HKEY} (ho : handOut F σ key path = some (h, τ))
    (hmem : (p, h') ∈ τ.handleCache) :
    (p, h') ∈ σ.handleCache ∨ (p = path ∧ h' = FAKE_HANDLE_BASE + UInt32.ofNat σ.fakeKeys.length) := by
  rcases (handOut_cases ho).2 with ⟨-, rfl⟩ | ⟨-, rfl, rfl⟩
  · exact .inl hmem
  · simp only [cacheAfter] at hmem
    split at hmem
    · rcases List.mem_append.1 hmem with hmem | hmem
      · exact .inl hmem
      · rw [List.mem_singleton] at hmem
        cases hmem
        exact .inr ⟨rfl, rfl⟩
    · exact .inl hmem

theorem autoSave_eq_some : autoSave σ = some τ ↔
    ∃ ws, saveRegistry σ.heap = some ws ∧ τ = { σ with file := some ws.flatten } := by
  simp [autoSave, eq_comm]

theorem autoSave_heap (h : autoSave σ = some τ) :
    τ.heap = σ.heap ∧ τ.fakeKeys = σ.fakeKeys ∧ τ.handleCache = σ.handleCache := by
  obtain ⟨ws, -, rfl⟩ := autoSave_eq_some.1 h
  exact ⟨rfl, rfl, rfl⟩

/-! ## One branch per hook -/

theorem effect_createKey (hi : Inv F σ) {v : Variant} {hKey : HKEY} {sub : Option WStr}
    (h : regCreateKey v F σ hKey sub = some (r, τ)) : Effect F σ (.createKey v hKey sub) r τ := by
  simp only [regCreateKey, navigatePath_eq] at h
  cases hb : baseKey v σ hKey with
  | none =>
    simp only [hb, Option.some.injEq, Prod.mk.injEq] at h
    obtain ⟨rfl, rfl⟩ := h
    refine .quiet ?_
    intro h d he
    cases v <;> cases he
  | some base =>
    simp only [hb] at h
    obtain ⟨d, -, h⟩ := Option.bind_eq_some_iff.1 h
    cases hnav : navTokens F true σ.heap base
        (tokens (lstrcpynW (redirectSubKey F σ.isWow64 hKey (sub.getD [])) 512)) with
    | none => simp [hnav] at h
    | some res =>
      obtain ⟨n, hn, hwf, hg, hw⟩ := navTokens_create hi.wf (fun t ht => mem_tokens ht) hnav
      obtain ⟨o, H⟩ := res
      obtain rfl : o = some n := hn
      simp only [hnav] at h
      obtain ⟨⟨h', υ⟩, ho, h⟩ := Option.bind_eq_some_iff.1 h
      obtain ⟨τ', hs, h⟩ := Option.map_eq_some_iff.1 h
      cases h
      exact .created hb hwf hg hw ho hs

theorem effect_openKey (hi : Inv F σ) {v : Variant} {hKey : HKEY} {sub : Option WStr}
    (h : regOpenKey v F σ hKey sub = some (r, τ)) : Effect F σ (.openKey v hKey sub) r τ := by
  simp only [regOpenKey, navigatePath_eq] at h
  split at h
  · simp only [Option.some.injEq, Prod.mk.injEq] at h
    obtain ⟨rfl, rfl⟩ := h
    refine .quiet ?_
    rintro h d he
    cases he
    rfl
  · cases hb : baseKey v σ hKey with
    | none =>
      simp only [hb, Option.some.injEq, Prod.mk.injEq] at h
      obtain ⟨rfl, rfl⟩ := h
      refine .quiet ?_
      intro h d he
      cases v <;> cases he
    | some base =>
      simp only [hb] at h
      cases hnav : navTokens F false σ.heap base
          (tokens (lstrcpynW (redirectSubKey F σ.isWow64 hKey (sub.getD [])) 512)) with
      | none => simp [hnav] at h
      | some res =>
        rcases navTokens_open hi.wf hnav with ⟨n, rfl, hw⟩ | ⟨rfl, -⟩
        · simp only [hnav] at h
          obtain ⟨⟨h', υ⟩, ho, h⟩ := Option.map_eq_some_iff.1 h
          cases h
          exact .opened hb hw ho
        · simp only [hnav, Option.some.injEq, Prod.mk.injEq] at h
          obtain ⟨rfl, rfl⟩ := h
          refine .quiet ?_
          intro h d he
          cases he

theorem effect_setValue {hKey : HKEY} {name : Option WStr} {type : UInt32} {data : List UInt8}
    (h : hookRegSetValueExW F σ hKey name type data = some (r, τ)) :
    Effect F σ (.setValue hKey name type data) r τ := by
  unfold hookRegSetValueExW at h
  split at h
  · next hf =>
    cases h
    exact .quiet (by simp [Quiet, handleToKey, hf])
  · cases hh : handleToKey σ hKey with
    | none =>
      simp only [hh, Option.some.injEq, Prod.mk.injEq] at h
      obtain ⟨rfl, rfl⟩ := h
      exact .quiet ⟨hh, by simp⟩
    | some key =>
      simp only [hh] at h
      obtain ⟨H, hset, h⟩ := Option.bind_eq_some_iff.1 h
      obtain ⟨τ', hs, h⟩ := Option.map_eq_some_iff.1 h
      cases h
      cases hk : deref σ.heap key with
      | none => simp [Registry.setValue, hk] at hset
      | some k =>
        rw [setValue_of_deref hk] at hset
        cases hset
        exact .set hh hk hs

theorem effect_deleteValue {hKey : HKEY} {name : Option WStr}
    (h : hookRegDeleteValueW F σ hKey name = some (r, τ)) : Effect F σ (.deleteValue hKey name) r τ := by
  unfold hookRegDeleteValueW at h
  split at h
  · next hf =>
    cases h
    exact .quiet (by simp [Quiet, handleToKey, hf])
  · cases hh : handleToKey σ hKey with
    | none =>
      simp only [hh, Option.some.injEq, Prod.mk.injEq] at h
      obtain ⟨rfl, rfl⟩ := h
      exact .quiet (by simp [Quiet, hh])
    | some key =>
      simp only [hh] at h
      obtain ⟨k, hk, h⟩ := Option.bind_eq_some_iff.1 h
      cases hfind : Assoc.find (valueKey F) (F.fold (name.getD [])) k.values with
      | none =>
        simp only [hfind, Option.some.injEq, Prod.mk.injEq] at h
        obtain ⟨rfl, rfl⟩ := h
        refine .quiet ⟨fun key' k' hh' hk' => ?_, by simp⟩
        obtain rfl : key = key' := Option.some.inj (hh.symm.trans hh')
        obtain rfl : k = k' := Option.some.inj (hk.symm.trans hk')
        exact hfind
      | some v =>
        simp only [hfind] at h
        obtain ⟨τ', hs, h⟩ := Option.map_eq_some_iff.1 h
        cases h
        exact .erased hh hk hs

theorem effect_deleteKey (hi : Inv F σ) {hKey : HKEY} {sub : WStr}
    (h : hookRegDeleteKeyW F σ hKey sub = some (r, τ)) : Effect F σ (.deleteKey hKey sub) r τ := by
  unfold hookRegDeleteKeyW at h
  split at h
  · next hf =>
    cases h
    exact .quiet fun _ => hf
  · cases hh : handleToKey σ hKey with
    | none =>
      simp only [hh, Option.some.injEq, Prod.mk.injEq] at h
      obtain ⟨rfl, rfl⟩ := h
      exact .quiet (by simp [Quiet])
    | some base =>
      simp only [hh] at h
      obtain ⟨k, hk, h⟩ := Option.bind_eq_some_iff.1 h
      cases hf : findChild F σ.heap sub k.children with
      | none => simp [hf] at h
      | some o =>
        have hof : childOf F σ.heap base sub = some o := by rw [childOf, hk]; exact hf
        cases o with
        | none =>
          simp only [hf, Option.some.injEq, Prod.mk.injEq] at h
          obtain ⟨rfl, rfl⟩ := h
          exact .quiet (by simp [Quiet])
        | some j =>
          simp only [hf] at h
          obtain ⟨τ', hs, h⟩ := Option.map_eq_some_iff.1 h
          cases h
          have hc : Child F σ.heap base sub j := (childOf_eq_some hi.wf).1 hof
          obtain ⟨k', c, hk', hj, -⟩ := id hc
          obtain rfl : k = k' := Option.some.inj (hk.symm.trans hk')
          exact .unlinked hh hk hj hc hs

/-- Every row of the handle table has a key. -/
def Keyed (σ : Store) : Prop := ∀ e ∈ σ.fakeKeys, ∃ key, e.key = some key

theorem Inv.keyed (hi : Inv F σ) : Keyed σ := by
  intro e he
  obtain ⟨key, path, rfl, -⟩ := hi.rows e he
  exact ⟨key, rfl⟩

/-- **The branch of a query that creates keys** is not reached: a row with a path has a key. -/
theorem queryKey_of_keyed (hk : Keyed σ) (hKey : HKEY) : queryKey F σ hKey = some (handleToKey σ hKey, σ) := by
  unfold queryKey
  cases hh : handleToKey σ hKey with
  | some key => rfl
  | none =>
    cases hp : getKeyPath σ hKey with
    | none => rfl
    | some path =>
      unfold getKeyPath at hp
      split at hp
      · cases hp
      · next hne =>
        obtain ⟨e, he, -⟩ := Option.bind_eq_some_iff.1 hp
        obtain ⟨key, hkey⟩ := hk e (List.mem_of_getElem? he)
        rw [handleToKey_eq_some.2 ⟨hne, e, he, hkey⟩] at hh
        cases hh

theorem queryKey_eq (hi : Inv F σ) (hKey : HKEY) : queryKey F σ hKey = some (handleToKey σ hKey, σ) :=
  queryKey_of_keyed hi.keyed hKey

/-- So a query changes nothing. -/
theorem queryValue_store (hk : Keyed σ) {hKey : HKEY} {name : Option WStr} {data : Bool} {size : Option Nat}
    (h : hookRegQueryValueExW F σ hKey name data size = some (r, τ)) : τ = σ := by
  rw [hookRegQueryValueExW, queryKey_of_keyed hk] at h
  cases hh : handleToKey σ hKey with
  | none =>
    rw [hh] at h
    cases h
    rfl
  | some key =>
    simp only [hh] at h
    obtain ⟨v, -, h⟩ := Option.bind_eq_some_iff.1 h
    split at h
    · cases h
      rfl
    · split at h
      · cases h
      · split at h
        · cases h
          rfl
        · split at h
          · obtain ⟨w, -, h⟩ := Option.map_eq_some_iff.1 h
            cases h
            rfl
          · cases h
            rfl

theorem effect_queryValue (hi : Inv F σ) {hKey : HKEY} {name : Option WStr} {data : Bool} {size : Option Nat}
    (h : hookRegQueryValueExW F σ hKey name data size = some (r, τ)) :
    Effect F σ (.queryValue hKey name data size) r τ := by
  obtain rfl := queryValue_store hi.keyed h
  exact .quiet trivial

theorem call_eq_some : call F σ c = some (r, τ) ↔ hook F σ c = some (r, τ) ∧ τ.heap.Fits := by
  simp [call, Option.filter_eq_some_iff]

/-- **Every call does one of these.** -/
theorem call_effect (hi : Inv F σ) (h : call F σ c = some (r, τ)) : Effect F σ c r τ := by
  have hk := (call_eq_some.1 h).1
  cases c with
  | createKey v hKey sub => exact effect_createKey hi hk
  | openKey v hKey sub => exact effect_openKey hi hk
  | setValue hKey name type data => exact effect_setValue hk
  | deleteValue hKey name => exact effect_deleteValue hk
  | deleteKey hKey sub => exact effect_deleteKey hi hk
  | queryValue hKey name data size => exact effect_queryValue hi hk

/-! ## The invariant -/

theorem Effect.wf (hi : Inv F σ) (h : Effect F σ c r τ) : WF F τ.heap := by
  cases h with
  | quiet _ => exact hi.wf
  | created hb hwf hg hw ho hs =>
    rw [(autoSave_heap hs).1, (handOut_heap ho).1]
    exact hwf
  | opened hb hw ho =>
    rw [(handOut_heap ho).1]
    exact hi.wf
  | set hh hk hs =>
    rw [(autoSave_heap hs).1]
    exact setValues_wf hk hi.wf (putValue_distinct (hi.wf.values hk))
  | erased hh hk hs =>
    rw [(autoSave_heap hs).1]
    exact setValues_wf hk hi.wf (hi.wf.values hk).erase
  | unlinked hh hk hj hc hs =>
    rw [(autoSave_heap hs).1]
    exact unlink_wf hi.wf hk hj

theorem Effect.length_le (h : Effect F σ c r τ) : σ.heap.length ≤ τ.heap.length := by
  cases h with
  | quiet _ => exact Nat.le_refl _
  | created hb hwf hg hw ho hs =>
    rw [(autoSave_heap hs).1, (handOut_heap ho).1]
    exact hg.length
  | opened hb hw ho => rw [(handOut_heap ho).1]
  | set hh hk hs =>
    rw [(autoSave_heap hs).1]
    simp [setValues]
  | erased hh hk hs =>
    rw [(autoSave_heap hs).1]
    simp [setValues]
  | unlinked hh hk hj hc hs =>
    rw [(autoSave_heap hs).1]
    simp [unlink]

/-- **The table only grows**, by one row at most, for the key a create or open has found. -/
theorem Effect.rows (hi : Inv F σ) (h : Effect F σ c r τ) :
    τ.fakeKeys = σ.fakeKeys ∨
    ∃ key path, τ.fakeKeys = σ.fakeKeys ++ [{ key := some key, path := some path }] ∧ σ.fakeKeys.length < 2 ^ 29 ∧
      key < τ.heap.length := by
  have hlive : ∀ {H : Heap} {v : Variant} {hKey : HKEY} {base n : Id} {ts : List WStr},
      baseKey v σ hKey = some base → WF F H → σ.heap.length ≤ H.length → Walk F H base ts n → n < H.length := by
    intro H v hKey base n ts hb hwf hle hw
    cases ts using List.reverseRecOn with
    | nil =>
      obtain rfl : base = n := hw
      rcases baseKey_cases hi hb with ⟨rfl, -⟩ | ⟨path, hmem, -⟩
      · obtain ⟨k, hk, -⟩ := hwf.root
        exact lt_of_deref hk
      · obtain ⟨key, path', he, hlt⟩ := hi.rows _ hmem
        cases he
        exact hlt.trans_le hle
    | append_singleton ts t _ =>
      obtain ⟨m, -, hc⟩ := walk_snoc.1 hw
      obtain ⟨k, hk⟩ := hc.live
      exact lt_of_deref hk
  cases h with
  | quiet _ => exact .inl rfl
  | created hb hwf hg hw ho hs =>
    rw [(autoSave_heap hs).1, (autoSave_heap hs).2.1, (handOut_heap ho).1, (handOut_heap ho).2.1]
    exact .inr ⟨_, _, rfl, (handOut_cases ho).1, hlive hb hwf hg.length hw⟩
  | opened hb hw ho =>
    rw [(handOut_heap ho).1, (handOut_heap ho).2.1]
    exact .inr ⟨_, _, rfl, (handOut_cases ho).1, hlive hb hi.wf (Nat.le_refl _) hw⟩
  | set hh hk hs => exact .inl (autoSave_heap hs).2.1
  | erased hh hk hs => exact .inl (autoSave_heap hs).2.1
  | unlinked hh hk hj hc hs => exact .inl (autoSave_heap hs).2.1

theorem inv_call (hi : Inv F σ) (h : call F σ c = some (r, τ)) : Inv F τ := by
  have he := call_effect hi h
  have hold : ∀ e ∈ σ.fakeKeys, ∃ key path, e = { key := some key, path := some path } ∧ key < τ.heap.length := by
    intro e hmem
    obtain ⟨key, path, rfl, hlt⟩ := hi.rows e hmem
    exact ⟨key, path, rfl, hlt.trans_le he.length_le⟩
  refine ⟨he.wf hi, ?_, ?_, (call_eq_some.1 h).2⟩
  · rcases he.rows hi with heq | ⟨key, path, heq, -, hlt⟩
    · rwa [heq]
    · rw [heq]
      intro e hmem
      rcases List.mem_append.1 hmem with hmem | hmem
      · exact hold e hmem
      · rw [List.mem_singleton] at hmem
        exact ⟨key, path, hmem, hlt⟩
  · rcases he.rows hi with heq | ⟨key, path, heq, hfew, -⟩
    · rw [heq]
      exact hi.few
    · rw [heq, List.length_append]
      exact hfew

theorem step_eq_some : step F σ c = some τ ↔ ∃ r, call F σ c = some (r, τ) := by
  simp [step]

theorem inv_step (hi : Inv F σ) (h : step F σ c = some τ) : Inv F τ := by
  obtain ⟨r, h⟩ := step_eq_some.1 h
  exact inv_call hi h

theorem inv_run {cs : List RegCall} (hi : Inv F σ) (h : Lts.run (step F) σ cs = some τ) : Inv F τ :=
  Lts.run_invariant (fun _ _ _ => inv_step) hi h

theorem emptyHeap_wf : WF F emptyHeap := by
  have hroot : ∀ {i k}, deref emptyHeap i = some k → k = { name := [], parent := none, children := [], values := [] } := by
    intro i k hk
    have hi : i = 0 := by have := lt_of_deref hk; simp only [emptyHeap, List.length_singleton] at this; omega
    subst hi
    cases hk
    rfl
  refine ⟨⟨_, rfl, rfl, rfl⟩, ?_, ?_, ?_, ?_⟩
  · intro i k j hk hj
    rw [hroot hk] at hj
    cases hj
  · intro i k hk
    rw [hroot hk]
    exact List.nodup_nil
  · intro i k j j' c c' hk hj
    rw [hroot hk] at hj
    cases hj
  · intro i k hk
    rw [hroot hk]
    exact List.Pairwise.nil

theorem inv_empty (w : Bool) : Inv F (Store.empty w) where
  wf := emptyHeap_wf
  rows := by simp [Store.empty]
  few := by simp [Store.empty]
  fits := by
    show emptyHeap.Fits
    decide

end Rvpn.Registry
