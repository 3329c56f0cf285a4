import Rvpn.Registry.Api
import Rvpn.Registry.Handles
import Rvpn.Registry.Total

/-!
# Handles that are accepted back

A handle that an open or create has returned is `FAKE_SERVICE_KEY` or has a row in the table for good
(`handed_out`, `handle_run`). Each hook tests for the two kinds on its own. `RegQueryValueExW` looks the handle
up first, so its branch for `FAKE_SERVICE_KEY` is dead (`queryValueEx_eq`); `RegCreateKeyExW` and `RegOpenKeyExW`
have none. And a row may denote a key that has been freed. `accepted_iff` says exactly which calls accept
which handle.
-/

namespace Rvpn.Registry

open Cells

/-! ## The service key -/

def REG_DWORD : UInt32 := 4
/-- `SERVICE_SYSTEM_START`. -/
def serviceSystemStart : Nat := 1
def fakeImagePath : WStr := wide "\\SystemRoot\\System32\\drivers\\rvpnnetmp.sys"

/-- One value of the service key: the data if it fits into the buffer, else its size. -/
def fakeValue (type : UInt32) (value : List UInt8) (lpData : Bool) (lpcbData : Option Nat) : Option QueryOut :=
  if lpData ∧ value.length ≤ lpcbData.getD 0 then
    some { status := .success, lpType := some type, lpData := some value, lpcbData := some value.length }
  else if lpcbData = none then none
  else some { status := .moreData, lpType := some type, lpData := none, lpcbData := some value.length }

/-- The branch of `Hook_RegQueryValueExW` for `FAKE_SERVICE_KEY` (`register.c:1035-1078`). -/
def fakeServiceQuery (lpValueName : Option WStr) (lpData : Bool) (lpcbData : Option Nat) : Option QueryOut :=
  if lpValueName = some (wide "ImagePath") then fakeValue REG_EXPAND_SZ (chars fakeImagePath) lpData lpcbData
  else if lpValueName = some (wide "Start") then fakeValue REG_DWORD (dword serviceSystemStart) lpData lpcbData
  else if lpcbData = none then none
  else some { status := .success, lpType := none, lpData := none, lpcbData := some 0 }

/-- `Hook_RegQueryValueExW` with that branch where the source has it, after the key has been found. -/
def queryValueEx (F : CaseFold) (σ : Store) (hKey : HKEY) (lpValueName : Option WStr) (lpData : Bool)
    (lpcbData : Option Nat) : Option (Reply × Store) :=
  match queryKey F σ hKey with
  | some (some _, τ) =>
    if hKey = FAKE_SERVICE_KEY then (fakeServiceQuery lpValueName lpData lpcbData).map fun out => (.value out, τ)
    else hookRegQueryValueExW F σ hKey lpValueName lpData lpcbData
  | _ => hookRegQueryValueExW F σ hKey lpValueName lpData lpcbData

variable {F : CaseFold} {σ τ υ : Store} {h hKey : HKEY} {n key : Id} {k : RegKey} {H : Heap}

@[simp] theorem handleToKey_fake : handleToKey σ FAKE_SERVICE_KEY = none := by simp [handleToKey]

@[simp] theorem getKeyPath_fake : getKeyPath σ FAKE_SERVICE_KEY = none := by simp [getKeyPath]

/-- **The branch is dead**: for that handle no key is found. -/
theorem queryValueEx_eq : queryValueEx F = hookRegQueryValueExW F := by
  funext σ hKey name data size
  unfold queryValueEx
  split
  · next m τ hq =>
    split
    · next hf =>
      subst hf
      simp [queryKey] at hq
    · rfl
  · rfl

/-! ## Rows stay -/

theorem handle_call {c : RegCall} {r : Reply} (hi : Inv F σ) (hc : call F σ c = some (r, τ))
    (hh : handleToKey σ h = some n) : handleToKey τ h = some n := by
  rcases (call_effect hi hc).rows hi with heq | ⟨key, path, heq, -, -⟩
  · exact handleToKey_append (by rw [heq, List.append_nil]) hh
  · exact handleToKey_append heq hh

theorem handle_run {cs : List RegCall} (hi : Inv F σ) (hrun : Lts.run (step F) σ cs = some τ)
    (hh : handleToKey σ h = some n) : handleToKey τ h = some n := by
  induction cs generalizing σ with
  | nil =>
    cases hrun
    exact hh
  | cons c cs ih =>
    obtain ⟨υ, hs, hrun⟩ := Lts.run_cons.1 hrun
    obtain ⟨r, hc⟩ := step_eq_some.1 hs
    exact ih (inv_call hi hc) hrun (handle_call hi hc hh)

theorem cacheRows_run {cs : List RegCall} (hi : Inv F σ) (hc : CacheRows σ) (hrun : Lts.run (step F) σ cs = some τ) :
    CacheRows τ := by
  have hboth : Inv F τ ∧ CacheRows τ := by
    refine Lts.run_invariant (I := fun σ => Inv F σ ∧ CacheRows σ) ?_ ⟨hi, hc⟩ hrun
    rintro σ c τ ⟨hi, hc⟩ hs
    obtain ⟨r, hcall⟩ := step_eq_some.1 hs
    exact ⟨inv_call hi hcall, cacheRows_call hi hc hcall⟩
  exact hboth.2

theorem cacheRows_installed (h₀ : Installed F σ) : CacheRows σ := by
  intro path h hmem
  rw [(installed_tables h₀).2] at hmem
  cases hmem

/-- **What an open or create hands out**: `FAKE_SERVICE_KEY`, or a handle with a row. -/
theorem handed_out {c : RegCall} {d : Option Disposition} (hi : Inv F σ) (hcache : CacheRows σ)
    (hkind : (∃ v hKey sub, c = .createKey v hKey sub) ∨ ∃ v hKey sub, c = .openKey v hKey sub)
    (hc : call F σ c = some (.key h d, τ)) : h = FAKE_SERVICE_KEY ∨ ∃ n, handleToKey τ h = some n := by
  rcases hkind with ⟨v, hKey, sub, rfl⟩ | ⟨v, hKey, sub, rfl⟩
  · cases call_effect hi hc with
    | quiet hq => exact absurd rfl (hq h d)
    | created hb hwf hg hw ho hs =>
      have hrow := fun hc => CacheRows.handed (F := F) hc ho
      obtain ⟨m, hm⟩ := hrow hcache
      exact .inr ⟨m, handleToKey_append (by rw [(autoSave_heap hs).2.1, List.append_nil]) hm⟩
  · cases call_effect hi hc with
    | quiet hq => exact .inl (hq h d rfl)
    | opened hb hw ho => exact .inr (hcache.handed ho)

/-! ## Which calls accept which handle -/

/-- The handle has a row whose key `RegDeleteKeyW` has freed. -/
def Freed (σ : Store) (h : HKEY) : Prop := ∃ key, handleToKey σ h = some key ∧ ¬ Live σ.heap key

/-- The key of the handle has a value of that name. -/
def HasNamed (F : CaseFold) (σ : Store) (h : HKEY) (name : WStr) : Prop :=
  ∃ key k, handleToKey σ h = some key ∧ deref σ.heap key = some k ∧
    (Assoc.find (valueKey F) (F.fold name) k.values).isSome

/-- The key a call is made with, for the calls a handle is handed out for. -/
def ApiCall.handle : ApiCall → Option HKEY
  | .reg (.queryValue hKey ..) | .reg (.setValue hKey ..) | .reg (.deleteValue hKey ..)
  | .reg (.openKey .ex hKey _) | .reg (.createKey .ex hKey _)
  | .enumKeyEx hKey .. | .enumValue hKey .. | .queryInfoKey hKey .. | .closeKey hKey => some hKey
  | _ => none

/-- The call returns something other than `ERROR_INVALID_HANDLE` and does not go to the real API; and a query
of `FAKE_SERVICE_KEY` returns what its branch says. -/
def Accepted (F : CaseFold) (σ : Store) (c : ApiCall) : Prop :=
  (∃ r τ, apiHook F σ c = some (r, τ) ∧ r ≠ .reg (.status .invalidHandle) ∧ r ≠ .reg .forwarded) ∧
  ∀ name data size, c = .reg (.queryValue FAKE_SERVICE_KEY name data size) →
    ∃ out τ, fakeServiceQuery name data size = some out ∧ apiHook F σ c = some (.reg (.value out), τ)

/-- The condition: `FAKE_SERVICE_KEY` is for the hooks that test for it, a key for those that read it must not
be freed, and a location that a hook writes to unasked must be there. -/
def ApiCall.Takes (F : CaseFold) (σ : Store) : ApiCall → Prop
  | .reg (.queryValue hKey name _ lpcbData) =>
    hKey ≠ FAKE_SERVICE_KEY ∧ ¬ Freed σ hKey ∧ (lpcbData = none → ¬ HasNamed F σ hKey (name.getD []))
  | .reg (.openKey .ex hKey sub) =>
    serviceName <:+: sub.getD [] ∨ (hKey ≠ FAKE_SERVICE_KEY ∧ (walked F σ hKey sub = [] ∨ ¬ Freed σ hKey))
  | .reg (.createKey .ex hKey sub) => hKey ≠ FAKE_SERVICE_KEY ∧ (walked F σ hKey sub = [] ∨ ¬ Freed σ hKey)
  | .reg (.setValue hKey ..) | .reg (.deleteValue hKey ..) | .enumKeyEx hKey .. | .enumValue hKey .. => ¬ Freed σ hKey
  | .queryInfoKey hKey lpClass lpcchClass => ¬ Freed σ hKey ∧ (lpcchClass → lpClass)
  | .closeKey _ => True
  | _ => False

@[simp] theorem not_freed_fake : ¬ Freed σ FAKE_SERVICE_KEY := by
  rintro ⟨key, hkey, -⟩
  simp at hkey

theorem freed_iff (hh : handleToKey σ h = some key) : Freed σ h ↔ ¬ Live σ.heap key := by
  constructor
  · rintro ⟨key', hkey', hdead⟩
    obtain rfl := Option.some.inj (hh.symm.trans hkey')
    exact hdead
  · exact fun hdead => ⟨key, hh, hdead⟩

/-- A handle of the table is no predefined root, so a hook navigates from its key. -/
theorem baseKey_handle (hi : Inv F σ) (v : Variant) (hh : handleToKey σ h = some key) : baseKey v σ h = some key := by
  have hnot : h ∉ v.roots := by
    intro hr
    rw [handleToKey_predefined hi.few (mem_roots hr)] at hh
    cases hh
  rw [baseKey, if_neg hnot, hh]

theorem baseKey_fake (v : Variant) : baseKey v σ FAKE_SERVICE_KEY = none := by
  have hnot : FAKE_SERVICE_KEY ∉ v.roots := by cases v <;> decide
  rw [baseKey, if_neg hnot, handleToKey_fake]

theorem childAt_total {is : List Id} (hlive : ∀ i ∈ is, Live H i) (m : Nat) : ∃ o, childAt H is m = some o := by
  induction is generalizing m with
  | nil => exact ⟨none, rfl⟩
  | cons i is ih =>
    obtain ⟨k, hk⟩ := hlive i (by simp)
    cases m with
    | zero => exact ⟨some k, by simp [childAt, hk]⟩
    | succ m =>
      obtain ⟨o, ho⟩ := ih (fun j hj => hlive j (by simp [hj])) m
      exact ⟨o, by simp [childAt, hk, ho]⟩

/-! ### One call at a time -/

/-- The call returns, with neither of the two replies. -/
def Answered (F : CaseFold) (σ : Store) (c : ApiCall) : Prop :=
  ∃ r τ, apiHook F σ c = some (r, τ) ∧ r ≠ .reg (.status .invalidHandle) ∧ r ≠ .reg .forwarded

theorem accepted_of_ne {c : ApiCall} (hne : ∀ name data size, c ≠ .reg (.queryValue FAKE_SERVICE_KEY name data size)) :
    Accepted F σ c ↔ Answered F σ c :=
  ⟨fun h => h.1, fun h => ⟨h, fun name data size hc => absurd hc (hne name data size)⟩⟩

theorem not_answered_of_none {c : ApiCall} (h : apiHook F σ c = none) : ¬ Answered F σ c := by
  rintro ⟨r, τ, hr, -⟩
  rw [h] at hr
  cases hr

theorem answered_enumValue (hh : handleToKey σ h = some key) {index : Nat} {cch : Option Nat} {data : Bool}
    {size : Option Nat} : Answered F σ (.enumValue h index cch data size) ↔ Live σ.heap key := by
  have hne : h ≠ FAKE_SERVICE_KEY := (handleToKey_eq_some.1 hh).1
  constructor
  · intro ha
    by_contra hdead
    have hk := deref_dead hdead
    exact not_answered_of_none (by simp [apiHook, hookRegEnumValueW, hne, hh, hk]) ha
  · rintro ⟨k, hk⟩
    simp only [Answered, apiHook, hookRegEnumValueW, if_neg hne, hh, hk, Option.map_some, Option.some.injEq, Prod.mk.injEq]
    refine ⟨_, σ, ⟨rfl, rfl⟩, ?_, ?_⟩ <;> (repeat' split) <;> simp

section
variable (hi : Inv F σ) (hh : handleToKey σ h = some key)
include hi hh

theorem answered_setValue {name : Option WStr} {type : UInt32} {data : List UInt8} :
    Answered F σ (.reg (.setValue h name type data)) ↔ Live σ.heap key := by
  have hne : h ≠ FAKE_SERVICE_KEY := (handleToKey_eq_some.1 hh).1
  constructor
  · intro ha
    by_contra hdead
    have hk := deref_dead hdead
    exact not_answered_of_none (by simp [apiHook, hook, hookRegSetValueExW, hne, hh, setValue, hk]) ha
  · rintro ⟨k, hk⟩
    have hwf : WF F (setValues σ.heap key k (putValue F (name.getD []) type data k.values)) :=
      setValues_wf hk hi.wf (putValue_distinct (hi.wf.values hk))
    obtain ⟨τ, hs⟩ := autoSave_of_wf
      (σ := { σ with heap := setValues σ.heap key k (putValue F (name.getD []) type data k.values) }) hwf
    refine ⟨.reg (.status .success), τ, ?_, by decide, by decide⟩
    simp only [apiHook, hook, hookRegSetValueExW, if_neg hne, hh, setValue_of_deref hk, Option.bind_some, hs,
      Option.map_some]

theorem answered_deleteValue {name : Option WStr} :
    Answered F σ (.reg (.deleteValue h name)) ↔ Live σ.heap key := by
  have hne : h ≠ FAKE_SERVICE_KEY := (handleToKey_eq_some.1 hh).1
  constructor
  · intro ha
    by_contra hdead
    have hk := deref_dead hdead
    exact not_answered_of_none (by simp [apiHook, hook, hookRegDeleteValueW, hne, hh, hk]) ha
  · rintro ⟨k, hk⟩
    cases hf : Assoc.find (valueKey F) (F.fold (name.getD [])) k.values with
    | none =>
      refine ⟨.reg (.status .fileNotFound), σ, ?_, by decide, by decide⟩
      simp [apiHook, hook, hookRegDeleteValueW, hne, hh, hk, hf]
    | some v =>
      have hwf : WF F (setValues σ.heap key k (Assoc.erase (valueKey F) (F.fold (name.getD [])) k.values)) :=
        setValues_wf hk hi.wf (hi.wf.values hk).erase
      obtain ⟨τ, hs⟩ := autoSave_of_wf (σ := { σ with heap := _ }) hwf
      have hs' : autoSave { σ with
          heap := write σ.heap key { k with values := Assoc.erase (valueKey F) (F.fold (name.getD [])) k.values } } =
        some τ := hs
      refine ⟨.reg (.status .success), τ, ?_, by decide, by decide⟩
      simp only [apiHook, hook, hookRegDeleteValueW, if_neg hne, hh, hk, Option.bind_some, hf, hs', Option.map_some]

theorem answered_enumKeyEx {index cch : Nat} : Answered F σ (.enumKeyEx h index cch) ↔ Live σ.heap key := by
  have hne : h ≠ FAKE_SERVICE_KEY := (handleToKey_eq_some.1 hh).1
  constructor
  · intro ha
    by_contra hdead
    have hk := deref_dead hdead
    exact not_answered_of_none (by simp [apiHook, hookRegEnumKeyExW, hne, hh, hk]) ha
  · rintro ⟨k, hk⟩
    obtain ⟨o, ho⟩ := childAt_total (children_live hi.wf hk) index
    simp only [Answered, apiHook, hookRegEnumKeyExW, if_neg hne, hh, hk, Option.bind_some, ho, Option.map_some,
      Option.some.injEq, Prod.mk.injEq]
    refine ⟨_, σ, ⟨rfl, rfl⟩, ?_, ?_⟩ <;> (repeat' split) <;> simp

theorem answered_queryInfoKey {cls cch : Bool} :
    Answered F σ (.queryInfoKey h cls cch) ↔ Live σ.heap key ∧ (cch → cls) := by
  have hne : h ≠ FAKE_SERVICE_KEY := (handleToKey_eq_some.1 hh).1
  by_cases hp : cch = true ∧ ¬ cls = true
  · have hnone : apiHook F σ (.queryInfoKey h cls cch) = none := by simp [apiHook, hookRegQueryInfoKeyW, hp, hh]
    refine iff_of_false (not_answered_of_none hnone) ?_
    rintro ⟨-, himp⟩
    exact hp.2 (himp hp.1)
  · have himp : (cch → cls) := fun hc => by_contra fun hn => hp ⟨hc, hn⟩
    have hcond : ¬ (cch = true ∧ ¬ cls = true ∧ (h = FAKE_SERVICE_KEY ∨ (handleToKey σ h).isSome = true)) :=
      fun hc => hp ⟨hc.1, hc.2.1⟩
    constructor
    · intro ha
      refine ⟨?_, himp⟩
      by_contra hdead
      have hk := deref_dead hdead
      refine not_answered_of_none ?_ ha
      rw [apiHook, hookRegQueryInfoKeyW, if_neg hcond, if_neg hne, hh]
      simp only [hk, Option.bind_none, Option.map_none]
    · rintro ⟨⟨k, hk⟩, -⟩
      obtain ⟨cs, hcs⟩ := mapM_total (children_live hi.wf hk)
      rw [Answered, apiHook, hookRegQueryInfoKeyW, if_neg hcond, if_neg hne, hh]
      simp only [hk, Option.bind_some, hcs, Option.map_some]
      exact ⟨_, σ, rfl, by simp, by simp⟩

theorem answered_queryValue {name : Option WStr} {data : Bool} {size : Option Nat} :
    Answered F σ (.reg (.queryValue h name data size)) ↔
      Live σ.heap key ∧ (size = none → ¬ HasNamed F σ h (name.getD [])) := by
  by_cases hlive : Live σ.heap key
  · obtain ⟨k, hk⟩ := hlive
    have hnamed : HasNamed F σ h (name.getD []) ↔ (Assoc.find (valueKey F) (F.fold (name.getD [])) k.values).isSome := by
      constructor
      · rintro ⟨key', k', hh', hk', hf⟩
        obtain rfl := Option.some.inj (hh.symm.trans hh')
        obtain rfl := Option.some.inj (hk.symm.trans hk')
        exact hf
      · exact fun hf => ⟨key, k, hh, hk, hf⟩
    rw [hnamed, Answered, apiHook, hook, hookRegQueryValueExW, queryKey_eq hi, hh]
    cases hf : Assoc.find (valueKey F) (F.fold (name.getD [])) k.values with
    | none =>
      simp only [getValue, hk, hf, Option.map_some, Option.bind_some]
      exact iff_of_true ⟨_, σ, rfl, by simp, by simp⟩ ⟨⟨k, hk⟩, by simp⟩
    | some v =>
      cases size with
      | none =>
        simp [getValue, hk, hf]
      | some m =>
        refine iff_of_true ?_ ⟨⟨k, hk⟩, by simp⟩
        cases data with
        | false =>
          simp only [getValue, hk, hf, Option.map_some, Option.bind_some]
          exact ⟨_, σ, rfl, by simp, by simp⟩
        | true =>
          by_cases hlt : m < v.data.length
          · simp [getValue, hk, hf, hlt]
          · simp [getValue, hk, hf, hlt]
  · refine iff_of_false (not_answered_of_none ?_) fun hand => hlive hand.1
    have hk := deref_dead hlive
    simp [apiHook, hook, hookRegQueryValueExW, queryKey_eq hi, hh, getValue, hk]

variable (hroom : σ.fakeKeys.length < 2 ^ 29)
include hroom

theorem answered_openKey {sub : Option WStr} : Answered F σ (.reg (.openKey .ex h sub)) ↔
    serviceName <:+: sub.getD [] ∨ walked F σ h sub = [] ∨ Live σ.heap key := by
  have hb := baseKey_handle hi .ex hh
  by_cases hsub : serviceName <:+: sub.getD []
  · refine iff_of_true ⟨.reg (.key FAKE_SERVICE_KEY none), σ, ?_, by decide, by decide⟩ (.inl hsub)
    simp [apiHook, hook, regOpenKey, hsub]
  · by_cases hlive : walked F σ h sub = [] ∨ Live σ.heap key
    · refine iff_of_true ?_ (.inr hlive)
      rcases openKey_total hb hi hlive hroom hsub with ⟨n, h', τ, -, -, ho⟩ | ⟨-, ho⟩
      · exact ⟨.reg (.key h' none), τ, by rw [apiHook, hook, ho]; rfl, by simp, by simp⟩
      · exact ⟨.reg (.status .fileNotFound), σ, by rw [apiHook, hook, ho]; rfl, by decide, by decide⟩
    · refine iff_of_false (not_answered_of_none ?_) fun hor => hor.elim hsub hlive
      rw [not_or] at hlive
      rw [apiHook, hook, openKey_dead hb hlive.1 hlive.2 hsub]
      rfl

theorem answered_createKey {sub : Option WStr} : Answered F σ (.reg (.createKey .ex h sub)) ↔
    walked F σ h sub = [] ∨ Live σ.heap key := by
  have hb := baseKey_handle hi .ex hh
  by_cases hlive : walked F σ h sub = [] ∨ Live σ.heap key
  · refine iff_of_true ?_ hlive
    obtain ⟨-, -, h', -, τ, -, -, -, hall⟩ := createKey_total hi.wf h sub hlive hroom
    obtain ⟨d, -, hc⟩ := hall .ex hb
    exact ⟨.reg (.key h' d), τ, by rw [apiHook, hook, hc]; rfl, by simp, by simp⟩
  · refine iff_of_false (not_answered_of_none ?_) hlive
    rw [not_or] at hlive
    rw [apiHook, hook, createKey_dead hb hlive.1 hlive.2]
    rfl

end

/-! ### The calls together -/

/-- A handle with a row is accepted as the condition says. -/
theorem accepted_handle (hi : Inv F σ) (hh : handleToKey σ h = some key) (hroom : σ.fakeKeys.length < 2 ^ 29)
    {c : ApiCall} (hc : c.handle = some h) : Accepted F σ c ↔ c.Takes F σ := by
  have hne : h ≠ FAKE_SERVICE_KEY := (handleToKey_eq_some.1 hh).1
  rw [accepted_of_ne fun name data size he => hne (by rw [he] at hc; exact (Option.some.inj hc).symm)]
  have hlive : Live σ.heap key ↔ ¬ Freed σ h := by rw [freed_iff hh, not_not]
  unfold ApiCall.handle at hc
  split at hc
  · obtain rfl := Option.some.inj hc
    rw [answered_queryValue hi hh, hlive]
    exact (and_iff_right hne).symm
  · obtain rfl := Option.some.inj hc
    exact (answered_setValue hi hh).trans hlive
  · obtain rfl := Option.some.inj hc
    exact (answered_deleteValue hi hh).trans hlive
  · obtain rfl := Option.some.inj hc
    rw [answered_openKey hi hh hroom, hlive]
    exact or_congr_right (and_iff_right hne).symm
  · obtain rfl := Option.some.inj hc
    rw [answered_createKey hi hh hroom, hlive]
    exact (and_iff_right hne).symm
  · obtain rfl := Option.some.inj hc
    exact (answered_enumKeyEx hi hh).trans hlive
  · obtain rfl := Option.some.inj hc
    exact (answered_enumValue hh).trans hlive
  · obtain rfl := Option.some.inj hc
    rw [answered_queryInfoKey hi hh, hlive]
    exact Iff.rfl
  · obtain rfl := Option.some.inj hc
    exact iff_of_true ⟨_, σ, rfl, by simp [hookRegCloseKey, hh], by simp [hookRegCloseKey, hh]⟩ trivial
  · cases hc

/-- `FAKE_SERVICE_KEY` is accepted as the condition says. -/
theorem accepted_fake {c : ApiCall} (hc : c.handle = some FAKE_SERVICE_KEY) : Accepted F σ c ↔ c.Takes F σ := by
  unfold ApiCall.handle at hc
  split at hc
  · obtain rfl := Option.some.inj hc
    refine iff_of_false ?_ fun ht => ht.1 rfl
    rintro ⟨⟨r, τ, hr, hne, -⟩, -⟩
    simp only [apiHook, hook, hookRegQueryValueExW, queryKey, handleToKey_fake, getKeyPath_fake, Option.map_some,
      Option.some.injEq, Prod.mk.injEq] at hr
    exact hne hr.1.symm
  · obtain rfl := Option.some.inj hc
    refine iff_of_true ?_ not_freed_fake
    refine (accepted_of_ne (by simp)).2 ⟨.reg (.status .success), σ, ?_, by decide, by decide⟩
    simp [apiHook, hook, hookRegSetValueExW]
  · obtain rfl := Option.some.inj hc
    refine iff_of_true ?_ not_freed_fake
    exact (accepted_of_ne (by simp)).2
      ⟨.reg (.status .success), σ, by simp [apiHook, hook, hookRegDeleteValueW], by decide, by decide⟩
  · next sub =>
    obtain rfl := Option.some.inj hc
    rw [accepted_of_ne (by simp)]
    by_cases hsub : serviceName <:+: sub.getD []
    · refine iff_of_true ⟨.reg (.key FAKE_SERVICE_KEY none), σ, ?_, by decide, by decide⟩ (.inl hsub)
      simp [apiHook, hook, regOpenKey, hsub]
    · refine iff_of_false ?_ fun ht => ht.elim hsub fun hand => hand.1 rfl
      rintro ⟨r, τ, hr, hne, -⟩
      simp only [apiHook, hook, regOpenKey, if_neg hsub, baseKey_fake, Option.map_some, Option.some.injEq,
        Prod.mk.injEq] at hr
      exact hne hr.1.symm
  · obtain rfl := Option.some.inj hc
    rw [accepted_of_ne (by simp)]
    refine iff_of_false ?_ fun ht => ht.1 rfl
    rintro ⟨r, τ, hr, hne, -⟩
    simp only [apiHook, hook, regCreateKey, baseKey_fake, Option.map_some, Option.some.injEq, Prod.mk.injEq] at hr
    exact hne hr.1.symm
  · obtain rfl := Option.some.inj hc
    refine iff_of_true ?_ not_freed_fake
    exact (accepted_of_ne (by simp)).2
      ⟨.enumKey .noMoreItems, σ, by simp [apiHook, hookRegEnumKeyExW], by simp, by simp⟩
  · obtain rfl := Option.some.inj hc
    refine iff_of_true ?_ not_freed_fake
    exact (accepted_of_ne (by simp)).2
      ⟨.enumValue .noMoreItems, σ, by simp [apiHook, hookRegEnumValueW], by simp, by simp⟩
  · next cls cch =>
    obtain rfl := Option.some.inj hc
    rw [accepted_of_ne (by simp)]
    by_cases hp : cch = true ∧ ¬ cls = true
    · refine iff_of_false (not_answered_of_none ?_) fun ht => hp.2 (ht.2 hp.1)
      simp [apiHook, hookRegQueryInfoKeyW, hp]
    · have hcond : ¬ (cch = true ∧ ¬ cls = true ∧
          (FAKE_SERVICE_KEY = FAKE_SERVICE_KEY ∨ (handleToKey σ FAKE_SERVICE_KEY).isSome = true)) :=
        fun hc => hp ⟨hc.1, hc.2.1⟩
      refine iff_of_true ?_ ⟨not_freed_fake, fun hc => by_contra fun hn => hp ⟨hc, hn⟩⟩
      rw [Answered, apiHook, hookRegQueryInfoKeyW, if_neg hcond, if_pos rfl]
      exact ⟨_, σ, rfl, by simp, by simp⟩
  · obtain rfl := Option.some.inj hc
    refine iff_of_true ?_ trivial
    exact (accepted_of_ne (by simp)).2 ⟨.reg (.status .success), σ, by simp [apiHook, hookRegCloseKey], by decide, by decide⟩
  · cases hc

/-- **Which handles are accepted back**: in every state reached after an open or create has returned `h`, and by
each of the calls that take it, `h` is accepted exactly under the condition `Takes`. -/
theorem accepted_iff {σ₀ : Store} (h₀ : Installed F σ₀) (pre : List ApiCall) (hpre : Lts.run (apiStep F) σ₀ pre = some σ)
    {c₀ : RegCall} {d : Option Disposition}
    (hkind : (∃ v hKey sub, c₀ = .createKey v hKey sub) ∨ ∃ v hKey sub, c₀ = .openKey v hKey sub)
    (hc₀ : apiCall F σ (.reg c₀) = some (.reg (.key h d), τ)) (post : List ApiCall)
    (hpost : Lts.run (apiStep F) τ post = some υ) (hroom : υ.fakeKeys.length < 2 ^ 29) (c : ApiCall)
    (hc : c.handle = some h) : Accepted F υ c ↔ c.Takes F υ := by
  have hi₀ := inv_installed h₀
  obtain ⟨ds, -, hrun⟩ := api_run hi₀ hpre
  have hi := inv_run hi₀ hrun
  have hcache := cacheRows_run hi₀ (cacheRows_installed h₀) hrun
  have hcall : call F σ c₀ = some (.key h d, τ) := by
    obtain ⟨hk, hfit⟩ := apiCall_eq_some.1 hc₀
    obtain ⟨⟨r', τ'⟩, ho, hout⟩ := Option.map_eq_some_iff.1 hk
    cases hout
    exact call_eq_some.2 ⟨ho, hfit⟩
  have hiτ := inv_call hi hcall
  obtain ⟨es, -, hrun'⟩ := api_run hiτ hpost
  have hiυ := inv_run hiτ hrun'
  rcases handed_out hi hcache hkind hcall with rfl | ⟨n, hn⟩
  · exact accepted_fake hc
  · exact accepted_handle hiυ (handle_run hiτ hrun' hn) hroom hc

/-- A value set through the handle of a create. -/
theorem accepted_iff_set : ∃ τ, apiStep asciiFold (Store.empty false)
    (.reg (.createKey .ex HKEY_LOCAL_MACHINE (some (wide "A")))) = some τ ∧
    Accepted asciiFold τ (.reg (.setValue 0x30000000 none REG_DWORD [1, 0, 0, 0])) := by
  refine ⟨_, rfl, ?_⟩
  refine (accepted_iff (.fresh false) [] rfl (h := 0x30000000) (d := some .createdNewKey)
    (.inl ⟨.ex, HKEY_LOCAL_MACHINE, some (wide "A"), rfl⟩) rfl [] rfl (by decide) _ rfl).2 ?_
  rintro ⟨key, hkey, hdead⟩
  cases hkey
  exact hdead ⟨_, rfl⟩

/-- **The service key is turned away**: opened by name, it is then no handle to `RegQueryValueExW`. -/
theorem fake_not_accepted : ∃ τ, apiCall asciiFold (Store.empty false)
      (.reg (.openKey .ex HKEY_LOCAL_MACHINE (some (wide "SYSTEM\\RVPNNETMP")))) =
        some (.reg (.key FAKE_SERVICE_KEY none), τ) ∧
    apiCall asciiFold τ (.reg (.queryValue FAKE_SERVICE_KEY (some (wide "Start")) true (some 4))) =
      some (.reg (.status .invalidHandle), τ) ∧
    fakeServiceQuery (some (wide "Start")) true (some 4) =
      some { status := .success, lpType := some REG_DWORD, lpData := some [1, 0, 0, 0], lpcbData := some 4 } ∧
    ¬ Accepted asciiFold τ (.reg (.queryValue FAKE_SERVICE_KEY (some (wide "Start")) true (some 4))) := by
  refine ⟨Store.empty false, rfl, rfl, by decide, ?_⟩
  rintro ⟨⟨r, τ, hr, hne, -⟩, -⟩
  cases hr
  exact hne rfl

end Rvpn.Registry
