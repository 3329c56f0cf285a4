import Rvpn.Registry.Api

/-!
# The file mirrors the tree

A hook that changes the tree ends in `AutoSave`, whichever way it returns (`hook_saves`), and one that does
not change it leaves the file alone. So from the first change on `register.reg` is the image of the tree
(`mirrors_tree`). Nothing is asked of the tree a session starts from: it may be the one a foreign file has
been loaded into. What is needed is that no row of the handle table is without a key (`Keyed`), since a
query would fill such a row from its path without saving.
-/

namespace Rvpn.Registry

open Cells

/-- The call has changed what is kept, or written it anew. -/
def ApiCall.Mutates : ApiCall → ApiReply → Prop
  | .reg c, .reg r => Modification c r
  | .deleteKeyEx hKey sub, .reg r | .deleteTree hKey sub, .reg r => Modification (.deleteKey hKey sub) r
  | _, _ => False

/-- What a call has done to tree and file: neither has changed, or the file holds the image of the tree. -/
def Mirrored (σ : Store) (changed : Prop) (τ : Store) : Prop :=
  (τ.heap = σ.heap ∧ τ.file = σ.file ∧ ¬ changed) ∨ Saved τ

variable {F : CaseFold} {σ τ υ : Store} {H H' : Heap} {i : Id} {ts : List WStr} {o : Option Id} {p q : Prop}

theorem Mirrored.saved (h : Mirrored σ p τ) (hs : Saved σ ∨ τ.heap ≠ σ.heap ∨ p) : Saved τ := by
  rcases h with ⟨hheap, hfile, hp⟩ | h
  · rcases hs with ⟨ws, hws, hf⟩ | hne | hp'
    · exact ⟨ws, by rw [hheap, hws], by rw [hfile, hf]⟩
    · exact absurd hheap hne
    · exact absurd hp' hp
  · exact h

theorem Mirrored.imp (h : Mirrored σ p τ) (hqp : q → p) : Mirrored σ q τ := by
  rcases h with ⟨hheap, hfile, hp⟩ | h
  · exact .inl ⟨hheap, hfile, fun hq => hp (hqp hq)⟩
  · exact .inr h

/-! ## Navigation -/

/-- **`NavigatePath` with `create`** never comes back without a key. -/
theorem navTokens_create_isSome (h : navTokens F true H i ts = some (o, H')) : ∃ n, o = some n := by
  induction ts generalizing H i with
  | nil =>
    cases h
    exact ⟨i, rfl⟩
  | cons t ts ih =>
    cases hf : childOf F H i t with
    | none => simp [navTokens, hf] at h
    | some found =>
      cases found with
      | some j =>
        rw [navTokens, hf] at h
        exact ih h
      | none =>
        cases hc : createKey H (some i) t with
        | none => simp [navTokens, hf, hc] at h
        | some res =>
          simp only [navTokens, hf, if_true, hc] at h
          exact ih h

/-- Without `create` it leaves the tree alone. -/
theorem navTokens_open_heap (h : navTokens F false H i ts = some (o, H')) : H' = H := by
  induction ts generalizing i with
  | nil =>
    cases h
    rfl
  | cons t ts ih =>
    cases hf : childOf F H i t with
    | none => simp [navTokens, hf] at h
    | some found =>
      cases found with
      | some j =>
        rw [navTokens, hf] at h
        exact ih h
      | none =>
        simp only [navTokens, hf, Bool.false_eq_true, if_false, Option.some.injEq, Prod.mk.injEq] at h
        exact h.2.symm

/-! ## One hook at a time -/

theorem handOut_keyed (hk : Keyed σ) {key : Id} {path : WStr} {h : HKEY} (ho : handOut F σ key path = some (h, τ)) :
    Keyed τ := by
  unfold Keyed
  rw [(handOut_heap ho).2.1]
  intro e he
  rcases List.mem_append.1 he with he | he
  · exact hk e he
  · rw [List.mem_singleton] at he
    exact ⟨key, by rw [he]⟩

theorem Keyed.congr (hk : Keyed σ) (h : τ.fakeKeys = σ.fakeKeys) : Keyed τ := by
  unfold Keyed
  rw [h]
  exact hk

theorem createKey_saves (hk : Keyed σ) {v : Variant} {hKey : HKEY} {sub : Option WStr} {r : Reply}
    (h : regCreateKey v F σ hKey sub = some (r, τ)) : Keyed τ ∧ Mirrored σ (Modification (.createKey v hKey sub) r) τ := by
  simp only [regCreateKey, navigatePath_eq] at h
  cases hb : baseKey v σ hKey with
  | none =>
    simp only [hb, Option.some.injEq, Prod.mk.injEq] at h
    obtain ⟨rfl, rfl⟩ := h
    cases v <;> exact ⟨hk, .inl ⟨rfl, rfl, id⟩⟩
  | some base =>
    simp only [hb] at h
    obtain ⟨d, -, h⟩ := Option.bind_eq_some_iff.1 h
    cases hnav : navTokens F true σ.heap base
        (tokens (lstrcpynW (redirectSubKey F σ.isWow64 hKey (sub.getD [])) 512)) with
    | none => simp [hnav] at h
    | some res =>
      obtain ⟨o, H⟩ := res
      obtain ⟨n, rfl⟩ := navTokens_create_isSome hnav
      simp only [hnav] at h
      obtain ⟨⟨h', υ⟩, ho, h⟩ := Option.bind_eq_some_iff.1 h
      obtain ⟨τ', hs, h⟩ := Option.map_eq_some_iff.1 h
      cases h
      exact ⟨(handOut_keyed (σ := { σ with heap := H }) hk ho).congr (autoSave_heap hs).2.1, .inr (autoSave_saved hs)⟩

/-- An open changes neither the tree nor the file. -/
theorem openKey_frame (hk : Keyed σ) {v : Variant} {hKey : HKEY} {sub : Option WStr} {r : Reply}
    (h : regOpenKey v F σ hKey sub = some (r, τ)) : Keyed τ ∧ τ.heap = σ.heap ∧ τ.file = σ.file := by
  simp only [regOpenKey, navigatePath_eq] at h
  split at h
  · cases h
    exact ⟨hk, rfl, rfl⟩
  · cases hb : baseKey v σ hKey with
    | none =>
      simp only [hb, Option.some.injEq, Prod.mk.injEq] at h
      obtain ⟨rfl, rfl⟩ := h
      exact ⟨hk, rfl, rfl⟩
    | some base =>
      simp only [hb] at h
      cases hnav : navTokens F false σ.heap base
          (tokens (lstrcpynW (redirectSubKey F σ.isWow64 hKey (sub.getD [])) 512)) with
      | none => simp [hnav] at h
      | some res =>
        obtain ⟨o, H⟩ := res
        obtain rfl := navTokens_open_heap hnav
        cases o with
        | none =>
          simp only [hnav, Option.some.injEq, Prod.mk.injEq] at h
          obtain ⟨rfl, rfl⟩ := h
          exact ⟨hk, rfl, rfl⟩
        | some key =>
          simp only [hnav] at h
          obtain ⟨⟨h', υ⟩, ho, h⟩ := Option.map_eq_some_iff.1 h
          cases h
          obtain ⟨hheap, -, hfile⟩ := handOut_heap ho
          exact ⟨handOut_keyed hk ho, hheap, hfile⟩

theorem setValue_saves (hk : Keyed σ) {hKey : HKEY} {name : Option WStr} {type : UInt32} {data : List UInt8} {r : Reply}
    (h : hookRegSetValueExW F σ hKey name type data = some (r, τ)) :
    Keyed τ ∧ Mirrored σ (Modification (.setValue hKey name type data) r) τ := by
  cases effect_setValue h with
  | quiet hq => exact ⟨hk, .inl ⟨rfl, rfl, hq.not_modification⟩⟩
  | set hh hd hs => exact ⟨hk.congr (autoSave_heap hs).2.1, .inr (autoSave_saved hs)⟩

theorem deleteValue_saves (hk : Keyed σ) {hKey : HKEY} {name : Option WStr} {r : Reply}
    (h : hookRegDeleteValueW F σ hKey name = some (r, τ)) :
    Keyed τ ∧ Mirrored σ (Modification (.deleteValue hKey name) r) τ := by
  cases effect_deleteValue h with
  | quiet hq => exact ⟨hk, .inl ⟨rfl, rfl, hq.not_modification⟩⟩
  | erased hh hd hs => exact ⟨hk.congr (autoSave_heap hs).2.1, .inr (autoSave_saved hs)⟩

theorem deleteKey_saves (hk : Keyed σ) {hKey : HKEY} {sub : WStr} {r : Reply}
    (h : hookRegDeleteKeyW F σ hKey sub = some (r, τ)) :
    Keyed τ ∧ Mirrored σ (Modification (.deleteKey hKey sub) r) τ := by
  unfold hookRegDeleteKeyW at h
  split at h
  · next hf =>
    cases h
    exact ⟨hk, .inl ⟨rfl, rfl, fun hne => hne hf⟩⟩
  · cases hh : handleToKey σ hKey with
    | none =>
      simp only [hh, Option.some.injEq, Prod.mk.injEq] at h
      obtain ⟨rfl, rfl⟩ := h
      exact ⟨hk, .inl ⟨rfl, rfl, id⟩⟩
    | some base =>
      simp only [hh] at h
      obtain ⟨k, -, h⟩ := Option.bind_eq_some_iff.1 h
      cases hf : findChild F σ.heap sub k.children with
      | none => simp [hf] at h
      | some found =>
        cases found with
        | none =>
          simp only [hf, Option.some.injEq, Prod.mk.injEq] at h
          obtain ⟨rfl, rfl⟩ := h
          exact ⟨hk, .inl ⟨rfl, rfl, id⟩⟩
        | some j =>
          simp only [hf] at h
          obtain ⟨τ', hs, h⟩ := Option.map_eq_some_iff.1 h
          cases h
          exact ⟨hk.congr (autoSave_heap hs).2.1, .inr (autoSave_saved hs)⟩

/-- **Every hook that changes the tree saves it**, on each of its return paths. -/
theorem hook_saves (hk : Keyed σ) {d : RegCall} {r : Reply} (h : hook F σ d = some (r, τ)) :
    Keyed τ ∧ Mirrored σ (Modification d r) τ := by
  cases d with
  | createKey v hKey sub => exact createKey_saves hk h
  | openKey v hKey sub =>
    obtain ⟨hk', hheap, hfile⟩ := openKey_frame hk h
    exact ⟨hk', .inl ⟨hheap, hfile, fun hmod => by cases r <;> exact hmod⟩⟩
  | setValue hKey name type data => exact setValue_saves hk h
  | deleteValue hKey name => exact deleteValue_saves hk h
  | deleteKey hKey sub => exact deleteKey_saves hk h
  | queryValue hKey name data size =>
    obtain rfl := queryValue_store hk h
    exact ⟨hk, .inl ⟨rfl, rfl, fun hmod => by cases r <;> exact hmod⟩⟩

theorem getValue_frame (hk : Keyed σ) {hKey : HKEY} {sub value : Option WStr} {flags : UInt32} {data : Bool}
    {size : Option Nat} {r : Reply} (h : hookRegGetValueW F σ hKey sub value flags data size = some (r, τ)) :
    Keyed τ ∧ τ.heap = σ.heap ∧ τ.file = σ.file := by
  unfold hookRegGetValueW at h
  split at h
  · obtain ⟨out, hq, hout⟩ := Option.map_eq_some_iff.1 h
    cases hout
    rw [queryValue_store hk hq]
    exact ⟨hk, rfl, rfl⟩
  · split at h
    · cases h
    · next hopen =>
      obtain ⟨hk', hframe⟩ := openKey_frame hk hopen
      obtain ⟨out, hq, hout⟩ := Option.map_eq_some_iff.1 h
      cases hout
      rw [queryValue_store hk' hq]
      exact ⟨hk', hframe⟩
    · next hopen =>
      cases h
      exact openKey_frame hk hopen

/-- The same of every call of the API. -/
theorem api_saves (hk : Keyed σ) {c : ApiCall} {r : ApiReply} (h : apiCall F σ c = some (r, τ)) :
    Keyed τ ∧ Mirrored σ (c.Mutates r) τ := by
  obtain ⟨h, -⟩ := apiCall_eq_some.1 h
  have hlook : ∀ {o : Option ApiReply}, o.map (fun r => (r, σ)) = some (r, τ) → Keyed τ ∧ Mirrored σ False τ := by
    intro o ho
    obtain ⟨r', -, hout⟩ := Option.map_eq_some_iff.1 ho
    cases hout
    exact ⟨hk, .inl ⟨rfl, rfl, id⟩⟩
  have hpass : ∀ d : RegCall, (hook F σ d).map (fun out => (ApiReply.reg out.1, out.2)) = some (r, τ) →
      ∃ r', r = .reg r' ∧ Keyed τ ∧ Mirrored σ (Modification d r') τ := by
    intro d ho
    obtain ⟨out, hd, hout⟩ := Option.map_eq_some_iff.1 ho
    cases hout
    exact ⟨_, rfl, hook_saves hk hd⟩
  cases c with
  | reg d =>
    obtain ⟨r', rfl, hs⟩ := hpass d h
    exact hs
  | deleteKeyEx hKey sub =>
    obtain ⟨r', rfl, hs⟩ := hpass (.deleteKey hKey sub) h
    exact hs
  | deleteTree hKey sub =>
    obtain ⟨r', rfl, hs⟩ := hpass (.deleteKey hKey sub) h
    exact hs
  | getValue hKey sub value flags data size =>
    obtain ⟨out, hg, hout⟩ := Option.map_eq_some_iff.1 h
    cases hout
    obtain ⟨hk', hheap, hfile⟩ := getValue_frame hk hg
    exact ⟨hk', .inl ⟨hheap, hfile, id⟩⟩
  | enumKeyEx hKey index cch => exact hlook h
  | enumKey hKey index cch => exact hlook h
  | enumValue hKey index cch data size => exact hlook h
  | queryInfoKey hKey cls cch => exact hlook h
  | copyTree src sub dest => exact hlook (o := some (.reg (.status .success))) h
  | closeKey hKey => exact hlook (o := some (.reg (hookRegCloseKey σ hKey))) h
  | notifyChange hKey => exact hlook (o := some (.reg (hookRegNotifyChangeKeyValue σ hKey))) h
  | setKeySecurity hKey => exact hlook (o := some (.reg (.status .success))) h

/-! ## Runs -/

theorem api_run_saved (hk : Keyed σ) {cs : List ApiCall} (h : Lts.run (apiStep F) σ cs = some τ) :
    Keyed τ ∧ (Saved σ → Saved τ) := by
  induction cs generalizing σ with
  | nil =>
    cases h
    exact ⟨hk, id⟩
  | cons c cs ih =>
    obtain ⟨υ, hs, h⟩ := Lts.run_cons.1 h
    obtain ⟨r, hc⟩ := apiStep_eq_some.1 hs
    obtain ⟨hkυ, hm⟩ := api_saves hk hc
    obtain ⟨hkτ, hsave⟩ := ih hkυ h
    exact ⟨hkτ, fun hσ => hsave (hm.saved (.inl hσ))⟩

/-- **The file mirrors the tree**: in a session that started with an empty handle table, on whatever tree and
file, once a call has changed the tree or reported a change, `register.reg` is the image of the tree from the end of
that call on. A call through the handle of a freed key has no outcome (`Tree`), and no run goes on behind one. -/
theorem mirrors_tree {σ₀ : Store} (h₀ : σ₀.fakeKeys = []) (pre : List ApiCall) (c : ApiCall) (post : List ApiCall)
    {r : ApiReply} (hpre : Lts.run (apiStep F) σ₀ pre = some σ) (hc : apiCall F σ c = some (r, τ))
    (hchange : τ.heap ≠ σ.heap ∨ c.Mutates r) (hpost : Lts.run (apiStep F) τ post = some υ) : Saved υ := by
  have hk₀ : Keyed σ₀ := by simp [Keyed, h₀]
  obtain ⟨hk, -⟩ := api_run_saved hk₀ hpre
  obtain ⟨hkτ, hm⟩ := api_saves hk hc
  exact (api_run_saved hkτ hpost).2 (hm.saved (.inr hchange))

theorem mirrors_tree_create : ∃ τ, Lts.run (apiStep asciiFold) (Store.empty false)
    [.reg (.createKey .ex HKEY_LOCAL_MACHINE (some (wide "A"))), .enumKeyEx 0x30000000 0 9] = some τ ∧ Saved τ := by
  refine ⟨_, rfl, ?_⟩
  have h₀ : (Store.empty false).fakeKeys = [] := rfl
  exact mirrors_tree h₀ [] (.reg (.createKey .ex HKEY_LOCAL_MACHINE (some (wide "A")))) [.enumKeyEx 0x30000000 0 9]
    (r := .reg (.key 0x30000000 (some .createdNewKey))) rfl rfl (.inr trivial) rfl

end Rvpn.Registry
