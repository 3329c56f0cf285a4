import Rvpn.Registry.Accepted
import Rvpn.Registry.Redirect

/-!
# Opening in two steps

Opening `p` and then `q` below the handle returned, against opening `p\q` at once, in a session that has deleted
no key. Such a session keeps `Placed`: the path of a row leads to its key, as far as `NavigatePath` copies paths
at all, and a cached handle is the one of its path. So both ways end at the key the tokens lead to, provided that
these are the same tokens, which is `redirect_join`. Where the paths clash, a create of `p\q` is a session after
which the two ways part (`compositional_iff`).
-/

namespace Rvpn.Registry

open Cells

/-- An open that succeeds, with the handle. -/
def opened (F : CaseFold) (σ : Store) (hKey : HKEY) (sub : WStr) : Option (HKEY × Store) :=
  match call F σ (.openKey .ex hKey (some sub)) with
  | some (.key h _, τ) => some (h, τ)
  | _ => none

/-- `p`, and then `q` below it. -/
def openedBelow (F : CaseFold) (σ : Store) (p q : WStr) : Option (HKEY × Store) :=
  (opened F σ HKEY_LOCAL_MACHINE p).bind fun o => opened F o.2 o.1 q

/-- The two ways succeed together, with handles of one node. -/
def Compositional (F : CaseFold) (σ : Store) (p q : WStr) : Prop :=
  ((openedBelow F σ p q).isSome ↔ (opened F σ HKEY_LOCAL_MACHINE (p ++ bslash :: q)).isSome) ∧
  ∀ h τ h' τ', openedBelow F σ p q = some (h, τ) → opened F σ HKEY_LOCAL_MACHINE (p ++ bslash :: q) = some (h', τ') →
    ∃ n, handleToKey τ h = some n ∧ handleToKey τ' h' = some n

def ApiCall.DeletesKey : ApiCall → Prop
  | .reg (.deleteKey ..) | .deleteKeyEx .. | .deleteTree .. => True
  | _ => False

/-- A state that a session reaches without deleting a key, with room for two handles more. -/
def Undeleted (F : CaseFold) (w : Bool) (σ : Store) : Prop :=
  σ.isWow64 = w ∧ σ.fakeKeys.length + 2 ≤ 2 ^ 29 ∧
  ∃ σ₀ cs, Installed F σ₀ ∧ (∀ c ∈ cs, ¬ ApiCall.DeletesKey c) ∧ Lts.run (apiStep F) σ₀ cs = some σ

/-- **The invariant** while no key is deleted. -/
structure Placed (F : CaseFold) (σ : Store) : Prop where
  rows : ∀ {n path}, (⟨some n, some path⟩ : FakeKey) ∈ σ.fakeKeys → path.length ≤ 511 →
    Walk F σ.heap regRoot (tokens path) n
  cache : ∀ {path h}, (path, h) ∈ σ.handleCache → ∃ n, handleToKey σ h = some n ∧ getKeyPath σ h = some path

variable {F : CaseFold} {σ τ υ : Store} {h hKey : HKEY} {base n : Id} {H : Heap} {path red p q sub : WStr} {w : Bool}

/-! ## Rows -/

theorem getKeyPath_eq_some : getKeyPath σ h = some path ↔
    h ≠ FAKE_SERVICE_KEY ∧ ∃ e, σ.fakeKeys[fakeIndex h]? = some e ∧ e.path = some path := by
  unfold getKeyPath
  split
  · next h => simp [h]
  · next h => simp [h, Option.bind_eq_some_iff]

theorem getKeyPath_append {rows : List FakeKey} (hrows : τ.fakeKeys = σ.fakeKeys ++ rows)
    (hh : getKeyPath σ h = some path) : getKeyPath τ h = some path := by
  obtain ⟨hne, e, he, hpath⟩ := getKeyPath_eq_some.1 hh
  refine getKeyPath_eq_some.2 ⟨hne, e, ?_, hpath⟩
  rw [hrows, List.getElem?_append_left (List.getElem?_eq_some_iff.1 he).1, he]

theorem getKeyPath_new {e : FakeKey} (hrows : τ.fakeKeys = σ.fakeKeys ++ [e]) (hlt : σ.fakeKeys.length < 2 ^ 29)
    (hpath : e.path = some path) : getKeyPath τ (FAKE_HANDLE_BASE + UInt32.ofNat σ.fakeKeys.length) = some path := by
  refine getKeyPath_eq_some.2 ⟨handle_ne_fake hlt, e, ?_, hpath⟩
  rw [fakeIndex_handle hlt, hrows]
  simp

theorem row_of_handle (hh : handleToKey σ h = some n) (hp : getKeyPath σ h = some path) :
    (⟨some n, some path⟩ : FakeKey) ∈ σ.fakeKeys := by
  obtain ⟨-, e, he, hkey⟩ := handleToKey_eq_some.1 hh
  obtain ⟨-, e', he', hpath⟩ := getKeyPath_eq_some.1 hp
  obtain rfl := Option.some.inj (he.symm.trans he')
  obtain ⟨key, path'⟩ := e
  cases hkey
  cases hpath
  exact List.mem_of_getElem? he

/-- The buffer of `NavigatePath` takes paths of 511 characters whole. -/
theorem tokens_copied (hlen : red.length ≤ 511) : tokens (lstrcpynW red 512) = tokens red := by
  rw [lstrcpynW, List.take_of_length_le hlen]

theorem Extends.length_le (he : Extends σ base red path) : red.length ≤ path.length := by
  rcases he with ⟨-, rfl⟩ | ⟨p, -, rfl⟩
  · exact Nat.le_refl _
  · split
    · next hnil => simp [hnil]
    · rw [List.length_append, List.length_cons]
      omega

/-! ## The invariant -/

/-- The path of a key that is kept in the tables leads to it. -/
theorem Placed.walk (hp : Placed F σ) (he : Extends σ base red path)
    (hw : Walk F σ.heap base (tokens (lstrcpynW red 512)) n) (hlen : path.length ≤ 511) :
    Walk F σ.heap regRoot (tokens path) n := by
  rw [tokens_copied (he.length_le.trans hlen)] at hw
  rcases he with ⟨rfl, rfl⟩ | ⟨p, hmem, rfl⟩
  · exact hw
  · split at hlen
    · next hnil =>
      subst hnil
      obtain rfl : base = n := hw
      rw [if_pos rfl]
      exact hp.rows hmem hlen
    · next hne =>
      rw [List.length_append] at hlen
      rw [if_neg hne, tokens_append]
      exact walk_append.2 ⟨base, hp.rows hmem (by omega), hw⟩

/-- A row for a key under its path, in the table and perhaps in the cache. -/
theorem Placed.extend (hp : Placed F σ) (he : Extends σ base red path)
    (hw : Walk F σ.heap base (tokens (lstrcpynW red 512)) n) (ho : handOut F σ n path = some (h, τ)) : Placed F τ := by
  obtain ⟨hheap, hrows, -⟩ := handOut_heap ho
  constructor
  · intro m p hmem hlen
    rw [hheap]
    rw [hrows] at hmem
    rcases List.mem_append.1 hmem with hmem | hmem
    · exact hp.rows hmem hlen
    · rw [List.mem_singleton] at hmem
      cases hmem
      exact hp.walk he hw hlen
  · intro p h' hmem
    rcases handOut_cache ho hmem with hmem | ⟨rfl, rfl⟩
    · obtain ⟨m, hm, hpath⟩ := hp.cache hmem
      exact ⟨m, handleToKey_append hrows hm, getKeyPath_append hrows hpath⟩
    · have hlt := (handOut_cases ho).1
      exact ⟨n, handleToKey_new hrows hlt rfl, getKeyPath_new hrows hlt rfl⟩

/-- Of the tree the invariant needs the walks from the root. -/
theorem Placed.congr (hp : Placed F σ) (hwalk : ∀ ts n, Walk F σ.heap regRoot ts n → Walk F τ.heap regRoot ts n)
    (hrows : τ.fakeKeys = σ.fakeKeys) (hcache : τ.handleCache = σ.handleCache) : Placed F τ where
  rows := fun hmem hlen => hwalk _ _ (hp.rows (hrows ▸ hmem) hlen)
  cache := by
    intro path h hmem
    obtain ⟨n, hn, hpath⟩ := hp.cache (hcache ▸ hmem)
    have happ : τ.fakeKeys = σ.fakeKeys ++ [] := by rw [hrows, List.append_nil]
    exact ⟨n, handleToKey_append happ hn, getKeyPath_append happ hpath⟩

/-- **One call** that deletes no key keeps it. -/
theorem placed_call {c : RegCall} {r : Reply} (hi : Inv F σ) (hp : Placed F σ) (hno : ∀ hKey sub, c ≠ .deleteKey hKey sub)
    (hc : call F σ c = some (r, τ)) : Placed F τ := by
  cases call_effect hi hc with
  | quiet _ => exact hp
  | @created v hKey h sub d base n H υ _ hb hwf hg hw ho hs =>
    obtain ⟨hheap, hrows, hcache⟩ := autoSave_heap hs
    have hgrown : Placed F { σ with heap := H } := hp.congr (fun ts n => hg.walk) rfl rfl
    have hout : Placed F υ := hgrown.extend (extends_of_base hi hb _) hw ho
    exact hout.congr (fun ts n hwalk => hheap.symm ▸ hwalk) hrows hcache
  | opened hb hw ho => exact hp.extend (extends_of_base hi hb _) hw ho
  | set hh hk hs =>
    obtain ⟨hheap, hrows, hcache⟩ := autoSave_heap hs
    exact hp.congr (fun ts n hwalk => hheap.symm ▸ (walk_setValues hk).2 hwalk) hrows hcache
  | erased hh hk hs =>
    obtain ⟨hheap, hrows, hcache⟩ := autoSave_heap hs
    exact hp.congr (fun ts n hwalk => hheap.symm ▸ (walk_setValues hk).2 hwalk) hrows hcache
  | unlinked hh hk hj hch hs => exact absurd rfl (hno _ _)

theorem ApiCall.Passes.ne_deleteKey {c : ApiCall} {d : RegCall} (h : c.Passes d) (hno : ¬ c.DeletesKey) (hKey : HKEY)
    (sub : WStr) : d ≠ .deleteKey hKey sub := by
  rintro rfl
  cases c with
  | reg c =>
    obtain rfl : RegCall.deleteKey hKey sub = c := h
    exact hno trivial
  | deleteKeyEx hKey' sub' => exact hno trivial
  | deleteTree hKey' sub' => exact hno trivial
  | getValue hKey' sub' value flags data size =>
    rcases h with h | ⟨h', h⟩
    · cases h
    · cases h
  | _ => exact h

theorem placed_run {cs : List RegCall} (hi : Inv F σ) (hp : Placed F σ)
    (hno : ∀ c ∈ cs, ∀ hKey sub, c ≠ .deleteKey hKey sub) (hrun : Lts.run (step F) σ cs = some τ) : Placed F τ := by
  induction cs generalizing σ with
  | nil =>
    cases hrun
    exact hp
  | cons c cs ih =>
    obtain ⟨υ, hs, hrun⟩ := Lts.run_cons.1 hrun
    obtain ⟨r, hc⟩ := step_eq_some.1 hs
    exact ih (inv_call hi hc) (placed_call hi hp (hno c (by simp)) hc) (fun d hd => hno d (by simp [hd])) hrun

theorem placed_installed (h₀ : Installed F σ) : Placed F σ := by
  obtain ⟨hrows, hcache⟩ := installed_tables h₀
  constructor
  · intro n path hmem
    rw [hrows] at hmem
    cases hmem
  · intro path h hmem
    rw [hcache] at hmem
    cases hmem

/-- **Every state** a session reaches without deleting a key. -/
theorem placed_reached {σ₀ : Store} (h₀ : Installed F σ₀) {cs : List ApiCall} (hno : ∀ c ∈ cs, ¬ c.DeletesKey)
    (hrun : Lts.run (apiStep F) σ₀ cs = some σ) : Inv F σ ∧ Placed F σ := by
  have hi₀ := inv_installed h₀
  obtain ⟨ds, hds, hrun'⟩ := api_run hi₀ hrun
  refine ⟨inv_run hi₀ hrun', placed_run hi₀ (placed_installed h₀) ?_ hrun'⟩
  intro d hd hKey sub
  obtain ⟨c, hc, hpass⟩ := hds d hd
  exact hpass.ne_deleteKey (hno c hc) hKey sub

/-! ## One open -/

/-- A string without the character in the middle is on one side of it. -/
theorem infix_of_infix_middle {s a b : WStr} (hs : bslash ∉ s) (h : s <:+: a ++ bslash :: b) : s <:+: a ∨ s <:+: b := by
  obtain ⟨u, v, huv⟩ := h
  rcases List.append_eq_append_iff.1 huv with ⟨a', ha, -⟩ | ⟨b', hus, hb⟩
  · exact .inl ⟨u, a', ha.symm⟩
  · cases b' with
    | nil =>
      rw [List.append_nil] at hus
      exact .inl ⟨u, [], by rw [List.append_nil, hus]⟩
    | cons c b' =>
      obtain ⟨rfl, rfl⟩ := List.cons.inj hb
      rcases List.append_eq_append_iff.1 hus with ⟨y, -, hy⟩ | ⟨x, -, hx⟩
      · exact absurd (hy ▸ by simp) hs
      · cases x with
        | nil => exact absurd (by rw [← List.nil_append s, ← hx]; simp) hs
        | cons c x =>
          obtain ⟨-, rfl⟩ := List.cons.inj hx
          exact .inr ⟨x, v, rfl⟩

/-- A handle handed out for a path of at most 511 characters, or for one that is not cached, is one of the node found,
and kept under that path. -/
theorem Placed.handed (hp : Placed F σ) (hwf : WF F σ.heap) (he : Extends σ base red path)
    (hw : Walk F σ.heap base (tokens (lstrcpynW red 512)) n) (ho : handOut F σ n path = some (h, τ))
    (hcache : ∀ h', cached F σ path = some h' → path.length ≤ 511) :
    handleToKey τ h = some n ∧ ∃ path', getKeyPath τ h = some path' ∧ F.fold path' = F.fold path := by
  have hrows := (handOut_heap ho).2.1
  obtain ⟨hlt, ⟨hhit, -⟩ | ⟨-, hnew, -⟩⟩ := handOut_cases ho
  · have hlen := hcache h hhit
    obtain ⟨⟨path', h'⟩, hfind, rfl⟩ := Option.map_eq_some_iff.1 hhit
    have hfold : F.fold path' = F.fold path := by simpa using List.find?_some hfind
    obtain ⟨m, hm, hpath⟩ := hp.cache (List.mem_of_find?_eq_some hfind)
    -- both nodes are where the path leads
    have hlen' : path'.length ≤ 511 := (length_of_fold_eq hfold).trans_le hlen
    have hm' : Walk F σ.heap regRoot (tokens path) m :=
      (hp.rows (row_of_handle hm hpath) hlen').congr (tokens_of_fold_eq hfold)
    obtain rfl := hm'.unique hwf (hp.walk he hw hlen)
    exact ⟨handleToKey_append hrows hm, path', getKeyPath_append hrows hpath, hfold⟩
  · rw [hnew]
    exact ⟨handleToKey_new hrows hlt rfl, path, getKeyPath_new hrows hlt rfl, rfl⟩

/-- **One open** from a live base finds what the tokens lead to. -/
theorem opened_spec (hi : Inv F σ) (hroom : σ.fakeKeys.length < 2 ^ 29) (hb : baseKey .ex σ hKey = some base)
    (hlive : Live σ.heap base) (hs : ¬ serviceName <:+: sub) (hred : redirectSubKey F σ.isWow64 hKey sub = red)
    (hlen : red.length ≤ 511) :
    (∃ n h τ, Walk F σ.heap base (tokens red) n ∧ opened F σ hKey sub = some (h, τ) ∧
      handOut F σ n (buildFullPath σ hKey red) = some (h, τ)) ∨
    ((∀ n, ¬ Walk F σ.heap base (tokens red) n) ∧ opened F σ hKey sub = none) := by
  have hwalked : walked F σ hKey (some sub) = tokens red := by
    rw [walked, Option.getD_some, hred, tokens_copied hlen]
  have htotal := openKey_total hb hi (.inr hlive) hroom (show ¬ serviceName <:+: (some sub).getD [] from hs)
  rcases htotal with ⟨n, h, τ, hw, ho, hk⟩ | ⟨hno, hk⟩
  · rw [fullPathOf, Option.getD_some, hred] at ho
    rw [hwalked] at hw
    have hfit : τ.heap.Fits := by
      rw [(handOut_heap ho).1]
      exact hi.fits
    have hc : call F σ (.openKey .ex hKey (some sub)) = some (.key h none, τ) := call_eq_some.2 ⟨hk, hfit⟩
    exact .inl ⟨n, h, τ, hw, by rw [opened, hc], ho⟩
  · rw [hwalked] at hno
    have hc : call F σ (.openKey .ex hKey (some sub)) = some (.status .fileNotFound, σ) := call_eq_some.2 ⟨hk, hi.fits⟩
    exact .inr ⟨hno, by rw [opened, hc]⟩

theorem inv_opened (hi : Inv F σ) (ho : opened F σ hKey sub = some (h, τ)) : Inv F τ := by
  unfold opened at ho
  split at ho
  · next hc =>
    cases ho
    exact inv_call hi hc
  · cases ho

/-! ## Two opens -/

/-- Below a handle of the table nothing is redirected. -/
theorem redirect_handle (hi : Inv F σ) (hh : handleToKey σ h = some n) : redirectSubKey F σ.isWow64 h q = q := by
  have hne : h ≠ HKEY_LOCAL_MACHINE := by
    rintro rfl
    rw [handleToKey_predefined hi.few (by decide)] at hh
    cases hh
  rw [redirectSubKey, if_pos (.inl hne)]

/-- The path of a key below a handle of the table. -/
theorem buildFullPath_handle (hi : Inv F σ) (hh : handleToKey σ h = some n) (hpath : getKeyPath σ h = some path) :
    buildFullPath σ h q = if q = [] then path else path ++ bslash :: q := by
  have hnot : h ∉ HKEY_USERS :: predefinedRoots := by
    intro hr
    rw [handleToKey_predefined hi.few hr] at hh
    cases hh
  rw [buildFullPath, if_neg hnot, hpath]

section
variable (hi : Inv F σ) (hp : Placed F σ) (hroom : σ.fakeKeys.length + 2 ≤ 2 ^ 29) (hsp : ¬ serviceName <:+: p)
  (hsq : ¬ serviceName <:+: q)
include hi hp hroom hsp hsq

/-- **The two opens**, where the path of the second one is short enough, or too long to be cached. -/
theorem openedBelow_spec {r : WStr} (hr : redirectSubKey F σ.isWow64 HKEY_LOCAL_MACHINE p = r) (hlen : r.length ≤ 511)
    (hqlen : q.length ≤ 511) (hshort : r.length + (if q = [] then 0 else q.length + 1) ≤ 511 ∨
      ∀ path h, (path, h) ∈ σ.handleCache → path.length ≤ 511) :
    (∃ n h τ, Walk F σ.heap regRoot (tokens r ++ tokens q) n ∧ openedBelow F σ p q = some (h, τ) ∧
      handleToKey τ h = some n) ∨
    ((∀ n, ¬ Walk F σ.heap regRoot (tokens r ++ tokens q) n) ∧ openedBelow F σ p q = none) := by
  obtain ⟨k, hk, -⟩ := hi.wf.root
  have hb : baseKey .ex σ HKEY_LOCAL_MACHINE = some regRoot := rfl
  rcases opened_spec hi (by omega) hb ⟨k, hk⟩ hsp hr hlen with ⟨n₁, h₁, σ₁, hw₁, ho₁, hout₁⟩ | ⟨hno, ho₁⟩
  · have hw₁' : Walk F σ.heap regRoot (tokens (lstrcpynW r 512)) n₁ := by rwa [tokens_copied hlen]
    have he₁ := extends_of_base hi hb r
    obtain ⟨hh₁, path₁, hpath₁, hfold⟩ := hp.handed hi.wf he₁ hw₁' hout₁ fun _ _ => hlen
    obtain ⟨hheap, hrows, -⟩ := handOut_heap hout₁
    have hi₁ := inv_opened hi ho₁
    have hp₁ : Placed F σ₁ := hp.extend he₁ hw₁' hout₁
    have hroom₁ : σ₁.fakeKeys.length < 2 ^ 29 := by
      rw [hrows, List.length_append, List.length_singleton]
      omega
    have hlive₁ : Live σ₁.heap n₁ := by
      rw [hheap]
      exact hw₁.live ⟨k, hk⟩
    have hb₁ := baseKey_handle hi₁ .ex hh₁
    have hfull : (buildFullPath σ₁ h₁ q).length = r.length + if q = [] then 0 else q.length + 1 := by
      have hlen₁ : path₁.length = r.length := length_of_fold_eq hfold
      rw [buildFullPath_handle hi₁ hh₁ hpath₁]
      split
      · exact hlen₁
      · rw [List.length_append, List.length_cons, hlen₁]
    have hcached : ∀ h', cached F σ₁ (buildFullPath σ₁ h₁ q) = some h' → (buildFullPath σ₁ h₁ q).length ≤ 511 := by
      intro h' hh'
      rcases hshort with hle | hall
      · rwa [hfull]
      · obtain ⟨⟨path', h''⟩, hfind, -⟩ := Option.map_eq_some_iff.1 hh'
        have hfold' : F.fold path' = F.fold (buildFullPath σ₁ h₁ q) := by simpa using List.find?_some hfind
        rw [← length_of_fold_eq hfold']
        rcases handOut_cache hout₁ (List.mem_of_find?_eq_some hfind) with hmem | ⟨rfl, -⟩
        · exact hall _ _ hmem
        · exact hlen
    have hbelow : openedBelow F σ p q = opened F σ₁ h₁ q := by rw [openedBelow, ho₁, Option.bind_some]
    rw [hbelow]
    rcases opened_spec hi₁ hroom₁ hb₁ hlive₁ hsq (redirect_handle hi₁ hh₁) hqlen with
      ⟨n, h, τ, hw, ho, hout⟩ | ⟨hno, ho⟩
    · have hw' : Walk F σ₁.heap n₁ (tokens (lstrcpynW q 512)) n := by rwa [tokens_copied hqlen]
      obtain ⟨hh, -⟩ := hp₁.handed hi₁.wf (extends_of_base hi₁ hb₁ q) hw' hout hcached
      rw [hheap] at hw
      exact .inl ⟨n, h, τ, walk_append.2 ⟨n₁, hw₁, hw⟩, ho, hh⟩
    · refine .inr ⟨?_, ho⟩
      intro n hw
      obtain ⟨m, hwm, hwn⟩ := walk_append.1 hw
      obtain rfl := hw₁.unique hi.wf hwm
      rw [hheap] at hno
      exact hno n hwn
  · refine .inr ⟨?_, by rw [openedBelow, ho₁, Option.bind_none]⟩
    intro n hw
    obtain ⟨m, hwm, -⟩ := walk_append.1 hw
    exact hno m hwm

/-- **Where the tokens agree**, the two ways do. -/
theorem compositional_of_tokens {r r' : WStr} (hr : redirectSubKey F σ.isWow64 HKEY_LOCAL_MACHINE p = r)
    (hr' : redirectSubKey F σ.isWow64 HKEY_LOCAL_MACHINE (p ++ bslash :: q) = r') (hlen : r'.length ≤ 511)
    (htok : tokens r ++ tokens q = tokens r') (hle : r.length + (if q = [] then 0 else q.length + 1) ≤ r'.length) :
    Compositional F σ p q := by
  have hspq : ¬ serviceName <:+: p ++ bslash :: q := fun hin =>
    (infix_of_infix_middle (by decide) hin).elim hsp hsq
  obtain ⟨k, hk, -⟩ := hi.wf.root
  have hb : baseKey .ex σ HKEY_LOCAL_MACHINE = some regRoot := rfl
  have hqlen : q.length ≤ 511 := by
    by_cases hnil : q = []
    · simp [hnil]
    · rw [if_neg hnil] at hle
      omega
  have htwo := openedBelow_spec hi hp hroom hsp hsq hr (by omega) hqlen (.inl (hle.trans hlen))
  rw [htok] at htwo
  rcases opened_spec hi (by omega) hb ⟨k, hk⟩ hspq hr' hlen with ⟨n, h, τ, hw, ho, hout⟩ | ⟨hno, ho⟩
  · have hw' : Walk F σ.heap regRoot (tokens (lstrcpynW r' 512)) n := by rwa [tokens_copied hlen]
    obtain ⟨hh, -⟩ := hp.handed hi.wf (extends_of_base hi hb r') hw' hout fun _ _ => hlen
    rcases htwo with ⟨m, h', τ', hwm, ho', hh'⟩ | ⟨hno, -⟩
    · obtain rfl := hw.unique hi.wf hwm
      refine ⟨by rw [ho, ho']; simp, ?_⟩
      intro g υ g' υ' hg hg'
      rw [ho'] at hg
      rw [ho] at hg'
      cases hg
      cases hg'
      exact ⟨n, hh', hh⟩
    · exact absurd hw (hno n)
  · rcases htwo with ⟨m, h', τ', hwm, -, -⟩ | ⟨-, ho'⟩
    · exact absurd hwm (hno m)
    · refine ⟨by rw [ho, ho'], ?_⟩
      intro g υ g' υ' hg
      rw [ho'] at hg
      cases hg

end

/-! ## Memory -/

theorem bytes_write {i : Id} {k : RegKey} (hk : deref H i = some k) (k' : RegKey) :
    Heap.bytes (write H i k') + k.bytes = H.bytes + k'.bytes := by
  induction H generalizing i with
  | nil => cases hk
  | cons c H ih =>
    cases i with
    | zero =>
      obtain rfl : c = some k := hk
      simp only [Heap.bytes, write, List.set_cons_zero, List.map_cons, List.sum_cons, Option.map_some, Option.getD_some]
      omega
    | succ i =>
      have hrest := ih (i := i) hk
      simp only [Heap.bytes, write] at hrest
      simp only [Heap.bytes, write, List.set_cons_succ, List.map_cons, List.sum_cons]
      omega

/-- A new key takes 22 bytes and its name. -/
theorem bytes_addChild {i : Id} {k : RegKey} {t : WStr} (hk : deref H i = some k) :
    (addChild H i k t).bytes = H.bytes + (22 + 2 * t.length) := by
  have hkey : ({ k with children := H.length :: k.children } : RegKey).bytes = k.bytes + 4 := by
    simp only [RegKey.bytes, nodeBytes, List.length_cons]
    omega
  have halloc : Heap.bytes (alloc H { name := t, parent := some i, children := [], values := [] }) =
      H.bytes + (18 + 2 * t.length) := by
    simp only [Heap.bytes, alloc, List.map_append, List.map_cons, List.map_nil, List.sum_append, List.sum_cons,
      List.sum_nil, Option.map_some, Option.getD_some, RegKey.bytes, nodeBytes, List.length_nil]
    omega
  have hold : deref (alloc H { name := t, parent := some i, children := [], values := [] }) i = some k :=
    deref_alloc_of_deref hk
  have hwrite := bytes_write hold { k with children := H.length :: k.children }
  rw [halloc, hkey] at hwrite
  rw [addChild]
  omega

/-- What a walk that creates keys takes. -/
theorem bytes_navTokens {i : Id} {ts : List WStr} {o : Option Id} {H' : Heap}
    (h : navTokens F true H i ts = some (o, H')) (hne : ∀ t ∈ ts, t ≠ []) :
    H'.bytes ≤ H.bytes + 24 * (ts.map List.length).sum := by
  induction ts generalizing H i with
  | nil =>
    cases h
    simp
  | cons t ts ih =>
    have hts : ∀ t ∈ ts, t ≠ [] := fun u hu => hne u (by simp [hu])
    have hpos : 0 < t.length := List.length_pos_of_ne_nil (hne t (by simp))
    rw [List.map_cons, List.sum_cons]
    unfold navTokens at h
    split at h
    · cases h
    · have hle := ih h hts
      omega
    · next hchild =>
      obtain ⟨k, hk⟩ := live_of_childOf hchild
      simp only [if_true, createKey_of_deref hk] at h
      have hle := ih h hts
      rw [bytes_addChild hk] at hle
      omega

theorem length_tokens_le (s : WStr) : ((tokens s).map List.length).sum ≤ s.length := by
  have hsplit : ((s.splitOn bslash).map List.length).sum ≤ s.length := by
    induction s with
    | nil => simp
    | cons c s ih =>
      rw [List.splitOn_cons_eq_if_modifyHead, List.length_cons]
      split
      · rw [List.map_cons, List.sum_cons, List.length_nil]
        omega
      · cases hs : s.splitOn bslash with
        | nil => exact absurd hs (by simp)
        | cons u us =>
          rw [hs, List.map_cons, List.sum_cons] at ih
          rw [List.modifyHead_cons, List.map_cons, List.sum_cons, List.length_cons]
          omega
  have hsub : ((tokens s).map List.length).Sublist ((s.splitOn bslash).map List.length) := List.filter_sublist.map _
  exact (hsub.sum_le_sum fun _ _ => Nat.zero_le _).trans hsplit

/-! ## Exactly when -/

/-- A create at a path of at most 511 characters, in a new session. -/
theorem created_session (hlen : (redirect F sub).length ≤ 511) : ∃ σ,
    Lts.run (apiStep F) (Store.empty true) [.reg (.createKey .ex HKEY_LOCAL_MACHINE (some sub))] = some σ ∧
    σ.isWow64 = true ∧ σ.fakeKeys.length = 1 ∧ (∀ path h, (path, h) ∈ σ.handleCache → path.length ≤ 511) ∧
    ∃ n, Walk F σ.heap regRoot (tokens (redirect F sub)) n := by
  have hi : Inv F (Store.empty true) := inv_empty true
  obtain ⟨k, hk, -⟩ := hi.wf.root
  obtain ⟨n, H, h, υ, τ, hnav, ho, hs, hall⟩ := createKey_total hi.wf HKEY_LOCAL_MACHINE (some sub) (.inr ⟨k, hk⟩) (by decide)
  obtain ⟨d, -, hc⟩ := hall .ex rfl
  have hwalked : walked F (Store.empty true) HKEY_LOCAL_MACHINE (some sub) = tokens (redirect F sub) := tokens_copied hlen
  obtain ⟨hheap, hrows, hcache⟩ := autoSave_heap hs
  obtain ⟨hheap', hrows', -⟩ := handOut_heap ho
  rw [hwalked] at hnav
  obtain ⟨m, hm, -, -, hw⟩ := navTokens_create hi.wf (fun t ht => mem_tokens ht) hnav
  refine ⟨τ, ?_, ?_, ?_, ?_, n, ?_⟩
  · have hbytes := bytes_navTokens hnav fun t ht => (mem_tokens ht).1
    have hsum := length_tokens_le (redirect F sub)
    have hempty : (Store.empty true).heap.bytes = 18 := rfl
    have hfit : τ.heap.Fits := by
      rw [hheap, hheap', Heap.Fits]
      show H.bytes < 2 ^ 32
      omega
    refine Lts.run_cons.2 ⟨τ, apiStep_eq_some.2 ⟨.reg (.key h d), apiCall_eq_some.2 ⟨?_, hfit⟩⟩, rfl⟩
    rw [apiHook, hook, hc]
    rfl
  · obtain ⟨ws, -, rfl⟩ := autoSave_eq_some.1 hs
    rcases (handOut_cases ho).2 with ⟨-, rfl⟩ | ⟨-, -, rfl⟩
    · rfl
    · rfl
  · rw [hrows, hrows', List.length_append]
    rfl
  · intro path h' hmem
    rw [hcache] at hmem
    rcases handOut_cache ho hmem with hmem | ⟨rfl, -⟩
    · cases hmem
    · exact hlen
  · rw [hheap, hheap']
    cases hm
    exact hw

/-- Where the paths clash the first one stays short when it is redirected. -/
theorem Clash.short (h : Clash F p q) (hlen : (redirect F (p ++ bslash :: q)).length ≤ 511) :
    (redirect F p).length ≤ 511 ∧ q.length ≤ 511 := by
  have hpq := (length_le_redirect F _).trans hlen
  rw [List.length_append, List.length_cons] at hpq
  refine ⟨?_, by omega⟩
  rcases redirect_spec F p with ⟨-, hr⟩ | ⟨-, -, hr⟩ | ⟨hs, -, hr⟩
  · rw [hr]
    omega
  · rw [hr]
    omega
  · rcases h with ⟨hp, -⟩ | ⟨x, j, hx, rfl, hq⟩
    · rw [List.take_of_length_le (by omega)] at hs
      exact absurd hs (not_startsWith_of_tokens hp)
    · -- `q` starts within its first `255 - j` characters
      obtain ⟨t, ht, hfold⟩ := Option.map_eq_some_iff.1 hq
      have hx8 : x.length = 8 := length_of_fold_eq hx
      have ht11 : t.length = 11 := length_of_fold_eq hfold
      have hle := (infix_of_mem_tokens (head_mem ht)).length_le
      rw [List.length_take] at hle
      have hdrop : (x ++ List.replicate j bslash).drop 8 = List.replicate j bslash := by rw [← hx8, List.drop_left]
      have hstrip : (strip (List.replicate j bslash)).length ≤ j := by
        unfold strip
        split
        · simp
        · simp
      rw [hr, length_below, hdrop]
      split
      · omega
      · omega

/-- **Where the paths clash** the two ways part in the session that creates the key. -/
theorem not_compositional (h : Clash F p q) (hlen : (redirect F (p ++ bslash :: q)).length ≤ 511)
    (hsp : ¬ serviceName <:+: p) (hsq : ¬ serviceName <:+: q) : ∃ σ, Undeleted F true σ ∧ ¬ Compositional F σ p q := by
  obtain ⟨σ, hrun, hw, hrows, hcache, n, hn⟩ := created_session hlen
  have hno : ∀ c ∈ [ApiCall.reg (.createKey .ex HKEY_LOCAL_MACHINE (some (p ++ bslash :: q)))], ¬ c.DeletesKey := by
    intro c hc
    rw [List.mem_singleton] at hc
    subst hc
    exact id
  refine ⟨σ, ⟨hw, by omega, _, _, .fresh true, hno, hrun⟩, ?_⟩
  obtain ⟨hi, hp⟩ := placed_reached (.fresh true) hno hrun
  rintro ⟨hsome, hsame⟩
  have hred : ∀ s, redirectSubKey F σ.isWow64 HKEY_LOCAL_MACHINE s = redirect F s := fun s => by rw [hw, redirect]
  have hspq : ¬ serviceName <:+: p ++ bslash :: q := fun hin =>
    (infix_of_infix_middle (by decide) hin).elim hsp hsq
  obtain ⟨k, hk, -⟩ := hi.wf.root
  have hb : baseKey .ex σ HKEY_LOCAL_MACHINE = some regRoot := rfl
  obtain ⟨hplen, hqlen⟩ := h.short hlen
  rcases opened_spec hi (by omega) hb ⟨k, hk⟩ hspq (hred _) hlen with ⟨m, g, υ, hm, ho, hout⟩ | ⟨hnone, -⟩
  · have hm' : Walk F σ.heap regRoot (tokens (lstrcpynW (redirect F (p ++ bslash :: q)) 512)) m := by
      rwa [tokens_copied hlen]
    obtain ⟨hg, -⟩ := hp.handed hi.wf (extends_of_base hi hb _) hm' hout fun _ _ => hlen
    rcases openedBelow_spec hi hp (by omega) hsp hsq (hred p) hplen hqlen (.inr hcache) with
      ⟨m', g', υ', hw', ho', hg'⟩ | ⟨-, ho'⟩
    · obtain ⟨i, hi₁, hi₂⟩ := hsame _ _ _ _ ho' ho
      obtain rfl := Option.some.inj (hg'.symm.trans hi₁)
      obtain rfl := Option.some.inj (hg.symm.trans hi₂)
      exact redirect_clash hlen h (hw'.length_eq hi.wf hm)
    · rw [ho', ho] at hsome
      simp at hsome
  · exact absurd hn (hnone n)

/-- **Opening is compositional** for `p` and `q`, in every state a session reaches without deleting a key, exactly if
the process is not one of WOW64 or the paths do not clash. -/
theorem compositional_iff (w : Bool) (p q : WStr)
    (hlen : (redirectSubKey F w HKEY_LOCAL_MACHINE (p ++ bslash :: q)).length ≤ 511)
    (hsp : ¬ serviceName <:+: p) (hsq : ¬ serviceName <:+: q) :
    (∀ σ, Undeleted F w σ → Compositional F σ p q) ↔ w = false ∨ ¬ Clash F p q := by
  cases w with
  | false =>
    refine iff_of_true ?_ (.inl rfl)
    rintro σ ⟨hw, hroom, σ₀, cs, h₀, hno, hrun⟩
    obtain ⟨hi, hp⟩ := placed_reached h₀ hno hrun
    have hred : ∀ s, redirectSubKey F σ.isWow64 HKEY_LOCAL_MACHINE s = s := fun s => by rw [hw, redirectSubKey]; simp
    refine compositional_of_tokens hi hp hroom hsp hsq (hred p) (hred _) ?_ (tokens_append p q).symm ?_
    · rwa [redirectSubKey, if_pos (by simp)] at hlen
    · rw [List.length_append, List.length_cons]
      split
      · omega
      · omega
  | true =>
    constructor
    · intro hall
      refine .inr fun hclash => ?_
      obtain ⟨σ, hσ, hnot⟩ := not_compositional hclash hlen hsp hsq
      exact hnot (hall σ hσ)
    · rintro (hw | hno) σ ⟨hw', hroom, σ₀, cs, h₀, hnodel, hrun⟩
      · cases hw
      · obtain ⟨hi, hp⟩ := placed_reached h₀ hnodel hrun
        have hred : ∀ s, redirectSubKey F σ.isWow64 HKEY_LOCAL_MACHINE s = redirect F s := fun s => by rw [hw', redirect]
        obtain ⟨htok, hle⟩ := redirect_join hlen hno
        exact compositional_of_tokens hi hp hroom hsp hsq (hred p) (hred _) hlen htok hle

/-- Below a redirected path, after the key has been created. -/
theorem compositional_iff_below : ∃ σ, Lts.run (apiStep asciiFold) (Store.empty true)
      [.reg (.createKey .ex HKEY_LOCAL_MACHINE (some (wide "SOFTWARE\\Vendor")))] = some σ ∧
    Compositional asciiFold σ (wide "SOFTWARE") (wide "Vendor") := by
  have hrun : ∃ σ, Lts.run (apiStep asciiFold) (Store.empty true)
        [.reg (.createKey .ex HKEY_LOCAL_MACHINE (some (wide "SOFTWARE\\Vendor")))] = some σ ∧
      σ.isWow64 = true ∧ σ.fakeKeys.length + 2 ≤ 2 ^ 29 :=
    ⟨_, rfl, rfl, by decide⟩
  obtain ⟨σ, hrun, hw, hroom⟩ := hrun
  have hσ : Undeleted asciiFold true σ := by
    refine ⟨hw, hroom, _, _, .fresh true, ?_, hrun⟩
    intro c hc
    rw [List.mem_singleton] at hc
    subst hc
    exact id
  refine ⟨σ, hrun, ?_⟩
  refine (compositional_iff true (wide "SOFTWARE") (wide "Vendor") (by decide) (by decide) (by decide)).2 (.inr ?_) σ hσ
  rintro (⟨hp, -⟩ | ⟨x, j, -, -, hq⟩)
  · exact absurd hp (by decide)
  · obtain ⟨t, ht, hfold⟩ := Option.map_eq_some_iff.1 hq
    have ht11 : t.length = 11 := length_of_fold_eq hfold
    have hle := (infix_of_mem_tokens (head_mem ht)).length_le
    have hlen : (wide "Vendor").length = 6 := by decide
    rw [List.length_take] at hle
    omega

/-- **The view of a 32-bit process**: `SOFTWARE\WOW6432Node` is there, but `SOFTWARE` is opened as that key, and there
is no `WOW6432Node` below it. -/
theorem wow64_parts : ∃ σ τ, Undeleted asciiFold true σ ∧
    opened asciiFold σ HKEY_LOCAL_MACHINE (wide "SOFTWARE\\WOW6432Node") = some (0x30000000, τ) ∧
    openedBelow asciiFold σ (wide "SOFTWARE") (wide "WOW6432Node") = none ∧
    ¬ Compositional asciiFold σ (wide "SOFTWARE") (wide "WOW6432Node") := by
  have hrun : ∃ σ τ, Lts.run (apiStep asciiFold) (Store.empty true)
        [.reg (.createKey .ex HKEY_LOCAL_MACHINE (some (wide "SOFTWARE\\WOW6432Node")))] = some σ ∧
      σ.isWow64 = true ∧ σ.fakeKeys.length + 2 ≤ 2 ^ 29 ∧
      opened asciiFold σ HKEY_LOCAL_MACHINE (wide "SOFTWARE\\WOW6432Node") = some (0x30000000, τ) ∧
      openedBelow asciiFold σ (wide "SOFTWARE") (wide "WOW6432Node") = none :=
    ⟨_, _, rfl, rfl, by decide, rfl, rfl⟩
  obtain ⟨σ, τ, hrun, hw, hroom, hone, htwo⟩ := hrun
  refine ⟨σ, τ, ⟨hw, hroom, _, _, .fresh true, ?_, hrun⟩, hone, htwo, ?_⟩
  · intro c hc
    rw [List.mem_singleton] at hc
    subst hc
    exact id
  · rintro ⟨hsome, -⟩
    have hjoin : wide "SOFTWARE" ++ bslash :: wide "WOW6432Node" = wide "SOFTWARE\\WOW6432Node" := rfl
    rw [hjoin, hone, htwo] at hsome
    simp at hsome

end Rvpn.Registry
