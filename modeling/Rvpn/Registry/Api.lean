import Rvpn.Registry.Restart

/-!
# The rest of the registry API

The hooks beside those of `Hooks`. Those that delete or read a value pass the work on to one of these;
the others look at a key without changing it, or answer without looking.

| here | there |
| --- | --- |
| `childAt`, `hookRegEnumKeyExW`, `hookRegEnumKeyW` | `register.c:1390-1482` |
| `hookRegEnumValueW`, `hookRegQueryInfoKeyW`       | `:1484-1607` |
| `hookRegGetValueW`                                | `:1624-1656` |
| `hookRegCloseKey`, `hookRegNotifyChangeKeyValue`  | `:1175-1185`, `:734-756` |
| `.deleteKeyEx`, `.deleteTree`, `.copyTree`, `.setKeySecurity` | `:1383-1388`, `:1609-1622`, `:146-151` |

A run of these calls is a run of the calls of `Hooks` (`api_run`), so what holds along the latter holds
along the former.
-/

namespace Rvpn.Registry

open Cells

/-! ## Replies -/

inductive EnumStatus where
  | success | moreData | noMoreItems
deriving DecidableEq

/-- What an enumeration of subkeys returns and stores; `none` is a location left alone. -/
structure EnumKeyOut where
  status : EnumStatus
  lpName : Option WStr
  lpcchName : Option Nat
deriving DecidableEq

/-- What an enumeration of values returns and stores through the pointers that are not NULL. -/
structure EnumValueOut where
  status : EnumStatus
  lpValueName : Option WStr
  lpcchValueName : Option Nat
  lpType : Option UInt32
  lpData : Option (List UInt8)
  lpcbData : Option Nat
deriving DecidableEq

/-- The counts `RegQueryInfoKeyW` stores through the pointers that are not NULL. -/
structure KeyInfo where
  lpcSubKeys : Option Nat
  lpcbMaxSubKeyLen : Option Nat
  lpcValues : Option Nat
  lpcbMaxValueNameLen : Option Nat
  lpcbMaxValueLen : Option Nat
deriving DecidableEq

inductive ApiReply where
  | reg (r : Reply)
  | enumKey (out : EnumKeyOut)
  | enumValue (out : EnumValueOut)
  | info (out : KeyInfo)
deriving DecidableEq

/-- `ERROR_NO_MORE_ITEMS`, nothing stored. -/
def EnumKeyOut.noMoreItems : EnumKeyOut := ⟨.noMoreItems, none, none⟩

def EnumValueOut.noMoreItems : EnumValueOut := ⟨.noMoreItems, none, none, none, none, none⟩

/-! ## Looking at a key -/

/-- The key a sibling list has at an index, every key before it being read on the way. -/
def childAt (H : Heap) : List Id → Nat → Option (Option RegKey)
  | [], _ => some none
  | i :: _, 0 => (deref H i).map some
  | i :: is, n + 1 => (deref H i).bind fun _ => childAt H is n

def hookRegEnumKeyExW (σ : Store) (hKey : HKEY) (dwIndex lpcchName : Nat) : Option ApiReply :=
  if hKey = FAKE_SERVICE_KEY then some (.enumKey .noMoreItems)
  else
    match handleToKey σ hKey with
    | none => some (.reg .forwarded)
    | some key =>
      (deref σ.heap key).bind fun k =>
        (childAt σ.heap k.children dwIndex).map fun
          | none => .enumKey .noMoreItems
          | some child =>
            let len := child.name.length
            if child.name = [] then .enumKey { status := .success, lpName := some [], lpcchName := some 0 }
            else if lpcchName ≤ len then .enumKey { status := .moreData, lpName := none, lpcchName := some (len + 1) }
            else .enumKey { status := .success, lpName := some (lstrcpynW child.name lpcchName), lpcchName := some len }

/-- `Hook_RegEnumKeyW`: a name that does not fit is cut. -/
def hookRegEnumKeyW (σ : Store) (hKey : HKEY) (dwIndex cchName : Nat) : Option ApiReply :=
  if hKey = FAKE_SERVICE_KEY then some (.enumKey .noMoreItems)
  else
    match handleToKey σ hKey with
    | none => some (.reg .forwarded)
    | some key =>
      (deref σ.heap key).bind fun k =>
        (childAt σ.heap k.children dwIndex).map fun
          | none => .enumKey .noMoreItems
          | some child => .enumKey { status := .success, lpName := some (lstrcpynW child.name cchName), lpcchName := none }

/-- `Hook_RegEnumValueW`, with the sizes of the two buffers (`none` for a NULL pointer to a size) and
whether there is a buffer for the data. -/
def hookRegEnumValueW (σ : Store) (hKey : HKEY) (dwIndex : Nat) (lpcchValueName : Option Nat) (lpData : Bool)
    (lpcbData : Option Nat) : Option ApiReply :=
  if hKey = FAKE_SERVICE_KEY then some (.enumValue .noMoreItems)
  else
    match handleToKey σ hKey with
    | none => some (.reg .forwarded)
    | some key =>
      (deref σ.heap key).map fun k =>
        match k.values[dwIndex]? with
        | none => .enumValue .noMoreItems
        | some v =>
          let nameLen := v.name.length
          if lpcchValueName.any (· ≤ nameLen) then
            .enumValue { EnumValueOut.noMoreItems with status := .moreData, lpcchValueName := some (nameLen + 1) }
          else
            let named : EnumValueOut :=
              { EnumValueOut.noMoreItems with
                status := .success
                lpValueName := lpcchValueName.map (lstrcpynW v.name)
                lpcchValueName := lpcchValueName.map fun _ => nameLen
                lpType := some v.type }
            if lpData ∧ lpcbData.any (· < v.data.length) then
              .enumValue { named with status := .moreData, lpcbData := some v.data.length }
            else
              .enumValue { named with
                lpData := if lpData ∧ lpcbData.isSome then some v.data else none
                lpcbData := lpcbData.map fun _ => v.data.length }

/-- `Hook_RegQueryInfoKeyW`: where there is an `lpcchClass`, `lpClass` is written without a check. -/
def hookRegQueryInfoKeyW (σ : Store) (hKey : HKEY) (lpClass lpcchClass : Bool) : Option ApiReply :=
  if lpcchClass ∧ ¬ lpClass ∧ (hKey = FAKE_SERVICE_KEY ∨ (handleToKey σ hKey).isSome) then none
  else if hKey = FAKE_SERVICE_KEY then
    some (.info { lpcSubKeys := some 0, lpcbMaxSubKeyLen := none, lpcValues := some 0,
                  lpcbMaxValueNameLen := none, lpcbMaxValueLen := none })
  else
    match handleToKey σ hKey with
    | none => some (.reg .forwarded)
    | some key =>
      (deref σ.heap key).bind fun k =>
        (k.children.mapM (deref σ.heap)).map fun cs =>
          .info {
            lpcSubKeys := some cs.length
            lpcbMaxSubKeyLen := some ((cs.map fun c => c.name.length).foldl max 0 + 1)
            lpcValues := some k.values.length
            lpcbMaxValueNameLen := some ((k.values.map fun v => v.name.length).foldl max 0 + 1)
            lpcbMaxValueLen := some ((k.values.map fun v => v.data.length).foldl max 0) }

def hookRegCloseKey (σ : Store) (hKey : HKEY) : Reply :=
  if hKey = FAKE_SERVICE_KEY ∨ (handleToKey σ hKey).isSome then .status .success else .forwarded

def hookRegNotifyChangeKeyValue (σ : Store) (hKey : HKEY) : Reply :=
  if hKey = FAKE_SERVICE_KEY ∨ (handleToKey σ hKey).isSome then .status .success else .forwarded

/-! ## Reading a value of a subkey -/

def REG_SZ : UInt32 := 1
def REG_EXPAND_SZ : UInt32 := 2
def RRF_RT_REG_SZ : UInt32 := 0x2
def RRF_NOEXPAND : UInt32 := 0x10000000

/-- The type `RegGetValueW` reports: `REG_EXPAND_SZ` passes for `REG_SZ` where the caller asks for it. -/
def expandType (dwFlags : UInt32) : Reply → Reply
  | .value out =>
    if out.status = .success ∧ out.lpType = some REG_EXPAND_SZ ∧ dwFlags &&& RRF_NOEXPAND = 0 ∧
        dwFlags &&& RRF_RT_REG_SZ ≠ 0 then
      .value { out with lpType := some REG_SZ }
    else .value out
  | r => r

/-- `Hook_RegGetValueW`; closing the subkey changes nothing. -/
def hookRegGetValueW (F : CaseFold) (σ : Store) (hKey : HKEY) (lpSubKey lpValue : Option WStr) (dwFlags : UInt32)
    (pvData : Bool) (pcbData : Option Nat) : Option (Reply × Store) :=
  let query := fun (h : HKEY) (τ : Store) =>
    (hookRegQueryValueExW F τ h lpValue pvData pcbData).map fun out => (expandType dwFlags out.1, out.2)
  if lpSubKey.getD [] = [] then query hKey σ
  else
    match hookRegOpenKeyExW F σ hKey lpSubKey with
    | none => none
    | some (.key hTargetKey _, τ) => query hTargetKey τ
    | some (lr, τ) => some (lr, τ)

/-! ## Calls and runs -/

inductive ApiCall where
  | reg (c : RegCall)
  | deleteKeyEx (hKey : HKEY) (lpSubKey : WStr)
  | deleteTree (hKey : HKEY) (lpSubKey : WStr)
  | copyTree (hKeySrc : HKEY) (lpSubKey : Option WStr) (hKeyDest : HKEY)
  | getValue (hKey : HKEY) (lpSubKey lpValue : Option WStr) (dwFlags : UInt32) (pvData : Bool) (pcbData : Option Nat)
  | enumKeyEx (hKey : HKEY) (dwIndex lpcchName : Nat)
  | enumKey (hKey : HKEY) (dwIndex cchName : Nat)
  | enumValue (hKey : HKEY) (dwIndex : Nat) (lpcchValueName : Option Nat) (lpData : Bool) (lpcbData : Option Nat)
  | queryInfoKey (hKey : HKEY) (lpClass lpcchClass : Bool)
  | closeKey (hKey : HKEY)
  | notifyChange (hKey : HKEY)
  | setKeySecurity (hKey : HKEY)
deriving DecidableEq

def apiHook (F : CaseFold) (σ : Store) : ApiCall → Option (ApiReply × Store)
  | .reg c => (hook F σ c).map fun out => (.reg out.1, out.2)
  | .deleteKeyEx hKey sub | .deleteTree hKey sub =>
    (hookRegDeleteKeyW F σ hKey sub).map fun out => (.reg out.1, out.2)
  | .copyTree .. | .setKeySecurity _ => some (.reg (.status .success), σ)
  | .getValue hKey sub value flags data size =>
    (hookRegGetValueW F σ hKey sub value flags data size).map fun out => (.reg out.1, out.2)
  | .enumKeyEx hKey index cch => (hookRegEnumKeyExW σ hKey index cch).map fun r => (r, σ)
  | .enumKey hKey index cch => (hookRegEnumKeyW σ hKey index cch).map fun r => (r, σ)
  | .enumValue hKey index cch data size => (hookRegEnumValueW σ hKey index cch data size).map fun r => (r, σ)
  | .queryInfoKey hKey cls cch => (hookRegQueryInfoKeyW σ hKey cls cch).map fun r => (r, σ)
  | .closeKey hKey => some (.reg (hookRegCloseKey σ hKey), σ)
  | .notifyChange hKey => some (.reg (hookRegNotifyChangeKeyValue σ hKey), σ)

def apiCall (F : CaseFold) (σ : Store) (c : ApiCall) : Option (ApiReply × Store) :=
  (apiHook F σ c).filter fun r => r.2.heap.Fits

def apiStep (F : CaseFold) (σ : Store) (c : ApiCall) : Option Store := (apiCall F σ c).map Prod.snd

/-- The calls of `Hooks` that a call can come down to. -/
def ApiCall.Passes : ApiCall → RegCall → Prop
  | .reg c, d => d = c
  | .deleteKeyEx hKey sub, d | .deleteTree hKey sub, d => d = .deleteKey hKey sub
  | .getValue hKey sub value _ data size, d => d = .openKey .ex hKey sub ∨ ∃ h, d = .queryValue h value data size
  | _, _ => False

variable {F : CaseFold} {σ τ : Store} {c : ApiCall} {r : ApiReply} {cs : List ApiCall}

theorem apiCall_eq_some : apiCall F σ c = some (r, τ) ↔ apiHook F σ c = some (r, τ) ∧ τ.heap.Fits := by
  simp [apiCall, Option.filter_eq_some_iff]

theorem apiStep_eq_some : apiStep F σ c = some τ ↔ ∃ r, apiCall F σ c = some (r, τ) := by
  simp [apiStep]

theorem step_of_hook {d : RegCall} {r : Reply} (h : hook F σ d = some (r, τ)) (hfit : τ.heap.Fits) :
    Lts.run (step F) σ [d] = some τ :=
  Lts.run_cons.2 ⟨τ, step_eq_some.2 ⟨r, call_eq_some.2 ⟨h, hfit⟩⟩, rfl⟩

/-- An open keeps the tree as it is. -/
theorem heap_openKey (hi : Inv F σ) {v : Variant} {hKey : HKEY} {sub : Option WStr} {r : Reply}
    (h : regOpenKey v F σ hKey sub = some (r, τ)) : τ.heap = σ.heap := by
  cases effect_openKey hi h with
  | quiet _ => rfl
  | opened hb hw ho => exact (handOut_heap ho).1

theorem run_getValue (hi : Inv F σ) {hKey : HKEY} {sub value : Option WStr} {flags : UInt32} {data : Bool}
    {size : Option Nat} {r : Reply} (h : hookRegGetValueW F σ hKey sub value flags data size = some (r, τ))
    (hfit : τ.heap.Fits) :
    ∃ ds, (∀ d ∈ ds, (ApiCall.getValue hKey sub value flags data size).Passes d) ∧
      Lts.run (step F) σ ds = some τ := by
  unfold hookRegGetValueW at h
  split at h
  · obtain ⟨⟨r', τ'⟩, hq, hout⟩ := Option.map_eq_some_iff.1 h
    cases hout
    refine ⟨[.queryValue hKey value data size], ?_, step_of_hook (d := .queryValue hKey value data size) hq hfit⟩
    intro d hd
    rw [List.mem_singleton] at hd
    exact .inr ⟨hKey, hd⟩
  · split at h
    · cases h
    · next hTarget disp υ hopen =>
      obtain ⟨⟨r', τ'⟩, hq, hout⟩ := Option.map_eq_some_iff.1 h
      cases hout
      have hυ : υ.heap.Fits := by
        rw [heap_openKey hi hopen]
        exact hi.fits
      refine ⟨[.openKey .ex hKey sub] ++ [.queryValue hTarget value data size], ?_,
        Lts.run_append.2 ⟨υ, step_of_hook (d := .openKey .ex hKey sub) hopen hυ,
          step_of_hook (d := .queryValue hTarget value data size) hq hfit⟩⟩
      intro d hd
      rcases List.mem_append.1 hd with hd | hd
      · exact .inl (List.mem_singleton.1 hd)
      · exact .inr ⟨hTarget, List.mem_singleton.1 hd⟩
    · next hopen =>
      cases h
      refine ⟨[.openKey .ex hKey sub], ?_, step_of_hook (d := .openKey .ex hKey sub) hopen hfit⟩
      intro d hd
      exact .inl (List.mem_singleton.1 hd)

/-- **One call** of the API is a run of the calls it passes on, most often of none. -/
theorem api_call_run (hi : Inv F σ) (h : apiCall F σ c = some (r, τ)) :
    ∃ ds, (∀ d ∈ ds, c.Passes d) ∧ Lts.run (step F) σ ds = some τ := by
  obtain ⟨hk, hfit⟩ := apiCall_eq_some.1 h
  have hquiet : σ = τ → ∃ ds, (∀ d ∈ ds, c.Passes d) ∧ Lts.run (step F) σ ds = some τ := by
    rintro rfl
    exact ⟨[], by simp, rfl⟩
  have hlook : ∀ {o : Option ApiReply}, o.map (fun r => (r, σ)) = some (r, τ) → σ = τ := by
    intro o ho
    obtain ⟨r', -, hout⟩ := Option.map_eq_some_iff.1 ho
    exact congrArg Prod.snd hout
  have hpass : ∀ {d : RegCall}, c.Passes d → (hook F σ d).map (fun out => (ApiReply.reg out.1, out.2)) = some (r, τ) →
      ∃ ds, (∀ d ∈ ds, c.Passes d) ∧ Lts.run (step F) σ ds = some τ := by
    intro d hd ho
    obtain ⟨⟨r', τ'⟩, hd', hout⟩ := Option.map_eq_some_iff.1 ho
    cases hout
    exact ⟨[d], by simpa using hd, step_of_hook hd' hfit⟩
  cases c with
  | reg d => exact hpass rfl hk
  | deleteKeyEx hKey sub => exact hpass (d := .deleteKey hKey sub) rfl hk
  | deleteTree hKey sub => exact hpass (d := .deleteKey hKey sub) rfl hk
  | copyTree src sub dest => exact hquiet (congrArg Prod.snd (Option.some.inj hk))
  | getValue hKey sub value flags data size =>
    obtain ⟨⟨r', τ'⟩, hg, hout⟩ := Option.map_eq_some_iff.1 hk
    cases hout
    exact run_getValue hi hg hfit
  | enumKeyEx hKey index cch => exact hquiet (hlook hk)
  | enumKey hKey index cch => exact hquiet (hlook hk)
  | enumValue hKey index cch data size => exact hquiet (hlook hk)
  | queryInfoKey hKey cls cch => exact hquiet (hlook hk)
  | closeKey hKey => exact hquiet (congrArg Prod.snd (Option.some.inj hk))
  | notifyChange hKey => exact hquiet (congrArg Prod.snd (Option.some.inj hk))
  | setKeySecurity hKey => exact hquiet (congrArg Prod.snd (Option.some.inj hk))

theorem inv_apiCall (hi : Inv F σ) (h : apiCall F σ c = some (r, τ)) : Inv F τ := by
  obtain ⟨ds, -, hrun⟩ := api_call_run hi h
  exact inv_run hi hrun

/-- **A run of the API** is a run of the calls its calls pass on. -/
theorem api_run (hi : Inv F σ) (h : Lts.run (apiStep F) σ cs = some τ) :
    ∃ ds, (∀ d ∈ ds, ∃ c ∈ cs, c.Passes d) ∧ Lts.run (step F) σ ds = some τ := by
  induction cs generalizing σ with
  | nil => exact ⟨[], by simp, h⟩
  | cons c cs ih =>
    obtain ⟨υ, hs, h⟩ := Lts.run_cons.1 h
    obtain ⟨r, hc⟩ := apiStep_eq_some.1 hs
    obtain ⟨ds, hds, hrun⟩ := api_call_run hi hc
    obtain ⟨es, hes, hrun'⟩ := ih (inv_apiCall hi hc) h
    refine ⟨ds ++ es, ?_, Lts.run_append.2 ⟨υ, hrun, hrun'⟩⟩
    intro d hd
    rcases List.mem_append.1 hd with hd | hd
    · exact ⟨c, List.mem_cons_self, hds d hd⟩
    · obtain ⟨c', hc', hp⟩ := hes d hd
      exact ⟨c', List.mem_cons_of_mem _ hc', hp⟩

theorem inv_api_run (hi : Inv F σ) (h : Lts.run (apiStep F) σ cs = some τ) : Inv F τ := by
  obtain ⟨ds, -, hrun⟩ := api_run hi h
  exact inv_run hi hrun

end Rvpn.Registry
