import Rvpn.Registry.Accepted

/-!
# What `RegDeleteKeyW` deletes

`RegOpenKeyExW` walks a redirected path of components from a root or a handle. `RegDeleteKeyW` knows no root,
splits no path and compares the whole of it with the names of the direct children. Where it finds a child it
takes out exactly the subtree at it (`removed_unlink`). So it resolves a name as an open does exactly for a
handle and a path that is one component without a backslash, or that leads nowhere (`delete_iff`).
-/

namespace Rvpn.Registry

open Cells

/-- A key of the subtree at `n`. -/
def Below (H : Heap) (n i : Id) : Prop := ∃ path, Walk exactly H n path i

/-- `H'` is the tree of `H` without the subtree at `n`: the other keys are where they were, with the children
they had (but `n`) in the same order, and their values. -/
structure Removed (H H' : Heap) (n : Id) : Prop where
  keys : ∀ path i, KeyAt H' path i ↔ KeyAt H path i ∧ ¬ Below H n i
  rest : ∀ {i k}, deref H i = some k → ¬ Below H n i → deref H' i = some { k with children := k.children.erase n }

/-- `RegOpenKeyExW` finds a key at the path. -/
def OpenFinds (F : CaseFold) (σ : Store) (hKey : HKEY) (sub : WStr) : Prop :=
  ∃ base n, baseKey .ex σ hKey = some base ∧
    navigatePath F false σ.heap base (redirectSubKey F σ.isWow64 hKey sub) = some (some n, σ.heap)

/-- The key `RegDeleteKeyW` is to delete is the one `RegOpenKeyExW` opens. -/
structure DeletesLikeOpen (F : CaseFold) (σ : Store) (hKey : HKEY) (sub : WStr) (r : Reply) (τ : Store) : Prop where
  ours : r ≠ .forwarded
  found : r = .status .success ↔ OpenFinds F σ hKey sub
  removed : r = .status .success → ∀ base n, baseKey .ex σ hKey = some base →
    navigatePath F false σ.heap base (redirectSubKey F σ.isWow64 hKey sub) = some (some n, σ.heap) →
      Removed σ.heap τ.heap n
  kept : r ≠ .status .success → τ.heap = σ.heap

variable {F : CaseFold} {σ τ : Store} {H : Heap} {p j n i base : Id} {k c : RegKey} {s t : WStr} {ts : List WStr}
  {hKey : HKEY}

/-! ## The subtree that goes -/

theorem Below.self : Below H n n := ⟨[], rfl⟩

theorem Walk.of_exactly (h : Walk exactly H i ts n) : Walk F H i ts n := by
  induction ts generalizing i with
  | nil => exact h
  | cons t ts ih =>
    obtain ⟨j, hj, h⟩ := h
    exact ⟨j, hj.of_exactly, ih h⟩

section
variable (hwf : WF F H) (hk : deref H p = some k) (hj : j ∈ k.children)
include hwf hk hj

/-- A walk that ends outside the subtree has not gone through it. -/
theorem walk_unlink_outside (hw : Walk exactly H i ts n) (hout : ¬ Below H j n) :
    Walk exactly (unlink H p k j) i ts n := by
  induction ts generalizing i with
  | nil => exact hw
  | cons t ts ih =>
    obtain ⟨m, hm, hw'⟩ := id hw
    have hi : i ≠ j := by
      rintro rfl
      exact hout ⟨t :: ts, hw⟩
    have hmj : m ≠ j := by
      rintro rfl
      exact hout ⟨ts, hw'⟩
    exact ⟨m, (child_unlink hwf hk hj).2 ⟨hm, hi, hmj⟩, ih hw'⟩

/-- A key of the subtree is not in the tree that is left. -/
theorem not_linked_below (hb : Below H j n) : ¬ Linked (unlink H p k j) n := by
  obtain ⟨path, hw⟩ := hb
  intro hl
  have hwf' : WF F (unlink H p k j) := unlink_wf hwf hk hj
  have hwalk : Walk F (unlink H p k j) j path n := walk_unlink hwf hk hj hw.of_exactly hl
  obtain ⟨c, hc⟩ := (hl.of_walk hwf' hwalk).live hwf'
  exact (deref_unlink_old hwf hk hj hc).1 rfl

/-- **The unlink takes out exactly the subtree** at the child. -/
theorem removed_unlink : Removed H (unlink H p k j) j where
  keys := by
    intro path n
    constructor
    · intro hw
      have hold : KeyAt H path n := hw.mono fun _ _ _ hc => ((child_unlink hwf hk hj).1 hc).1
      exact ⟨hold, fun hb => not_linked_below hwf hk hj hb ⟨path, hw⟩⟩
    · rintro ⟨hw, hout⟩
      exact walk_unlink_outside hwf hk hj hw hout
  rest := by
    intro i c hc hout
    have hij : i ≠ j := by
      rintro rfl
      exact hout .self
    exact deref_unlink_of_ne hwf hk hj hij hc

end

/-! ## One component -/

/-- A name that a child has, up to case, has no backslash. -/
theorem Child.no_bslash (hwf : WF F H) (h : Child F H i s j) : bslash ∉ s := by
  obtain ⟨k, c, hk, hj, hc, hn⟩ := h
  obtain ⟨-, c', hc', -, -, hb⟩ := hwf.child hk hj
  obtain rfl := Option.some.inj (hc.symm.trans hc')
  rw [← bslash_mem_fold F, ← hn, bslash_mem_fold]
  exact hb

/-- From a handle of the table the redirection does nothing and no component is cut off. -/
theorem navigate_handle (hi : Inv F σ) (hh : handleToKey σ hKey = some base) (hlen : s.length ≤ 511) :
    navigatePath F false σ.heap base (redirectSubKey F σ.isWow64 hKey s) = some (some n, σ.heap) ↔
      Walk F σ.heap base (tokens s) n := by
  have hne : hKey ≠ HKEY_LOCAL_MACHINE := by
    rintro rfl
    rw [handleToKey_predefined hi.few (by decide)] at hh
    cases hh
  have hred : redirectSubKey F σ.isWow64 hKey s = s := by rw [redirectSubKey, if_pos (.inl hne)]
  have hcut : lstrcpynW s 512 = s := List.take_of_length_le hlen
  rw [hred, navigatePath_eq, hcut, navTokens_open_iff hi.wf]

theorem openFinds_handle (hi : Inv F σ) (hh : handleToKey σ hKey = some base) (hlen : s.length ≤ 511) :
    OpenFinds F σ hKey s ↔ ∃ n, Walk F σ.heap base (tokens s) n := by
  have hb := baseKey_handle hi .ex hh
  constructor
  · rintro ⟨base', n, hbase, hnav⟩
    obtain rfl := Option.some.inj (hb.symm.trans hbase)
    exact ⟨n, (navigate_handle hi hh hlen).1 hnav⟩
  · rintro ⟨n, hw⟩
    exact ⟨base, n, hb, (navigate_handle hi hh hlen).2 hw⟩

/-- **`RegOpenKeyExW` returns a handle** for exactly the paths at which it finds a key, as long as there is a row for it. -/
theorem openFinds_iff_opens (hi : Inv F σ) (hbase : baseKey .ex σ hKey = some base) (hlive : Live σ.heap base)
    (hroom : σ.fakeKeys.length < 2 ^ 29) (hsub : ¬ serviceName <:+: s) :
    OpenFinds F σ hKey s ↔ ∃ h τ, hook F σ (.openKey .ex hKey (some s)) = some (.key h none, τ) := by
  unfold OpenFinds
  simp only [hbase, navigatePath_eq, navTokens_open_iff hi.wf, hook]
  have hwalk : walked F σ hKey (some s) = [] ∨ Live σ.heap base := .inr hlive
  rcases openKey_total hbase hi hwalk hroom hsub with ⟨n, h, τ, hw, -, ho⟩ | ⟨hno, ho⟩
  · exact iff_of_true ⟨base, n, rfl, hw⟩ ⟨h, τ, ho⟩
  · refine iff_of_false ?_ ?_
    · rintro ⟨_, n, ⟨⟩, hw⟩
      exact hno n hw
    · rintro ⟨h, τ, hkey⟩
      rw [ho] at hkey
      cases hkey

/-! ## Deleting -/

/-- A root is not among the handles `RegDeleteKeyW` knows. -/
theorem delete_root (hi : Inv F σ) (hr : hKey ∈ predefinedRoots) :
    hook F σ (.deleteKey hKey s) = some (.forwarded, σ) := by
  have hne : hKey ≠ FAKE_SERVICE_KEY := by
    rintro rfl
    exact absurd hr (by decide)
  have hnone := handleToKey_predefined hi.few (List.mem_cons_of_mem HKEY_USERS hr)
  simp only [hook, hookRegDeleteKeyW, if_neg hne, hnone]

/-- **Deleting through a handle**: the child with that name goes, if there is one. -/
theorem delete_handle (hi : Inv F σ) (hh : handleToKey σ hKey = some base) (hk : deref σ.heap base = some k) :
    (∃ j τ, Child F σ.heap base s j ∧ j ∈ k.children ∧ hook F σ (.deleteKey hKey s) = some (.status .success, τ) ∧
      τ.heap = unlink σ.heap base k j) ∨
    ((∀ j, ¬ Child F σ.heap base s j) ∧ hook F σ (.deleteKey hKey s) = some (.status .fileNotFound, σ)) := by
  have hne : hKey ≠ FAKE_SERVICE_KEY := (handleToKey_eq_some.1 hh).1
  rcases childOf_spec (t := s) hi.wf hk with ⟨j, hc, hf⟩ | ⟨hno, hf⟩
  · obtain ⟨k', c, hk', hj, -⟩ := id hc
    obtain rfl := Option.some.inj (hk.symm.trans hk')
    obtain ⟨τ, hs⟩ := autoSave_of_wf (σ := { σ with heap := unlink σ.heap base k j }) (unlink_wf hi.wf hk hj)
    rw [childOf, hk] at hf
    refine .inl ⟨j, τ, hc, hj, ?_, (autoSave_heap hs).1⟩
    have hf' : findChild F σ.heap s k.children = some (some j) := hf
    rw [unlink] at hs
    simp only [hook, hookRegDeleteKeyW, if_neg hne, hh, hk, Option.bind_some, hf', hs, Option.map_some]
  · rw [childOf, hk] at hf
    have hf' : findChild F σ.heap s k.children = some none := hf
    refine .inr ⟨hno, ?_⟩
    simp only [hook, hookRegDeleteKeyW, if_neg hne, hh, hk, Option.bind_some, hf']

/-- **When a delete resolves a name like an open**: through a handle, and if the path is a single component or
leads nowhere. -/
theorem delete_iff {σ₀ : Store} (h₀ : Installed F σ₀) (cs : List ApiCall) (hrun : Lts.run (apiStep F) σ₀ cs = some σ)
    (hbase : hKey ∈ predefinedRoots ∨ ∃ key, handleToKey σ hKey = some key ∧ Linked σ.heap key)
    (hne : tokens s ≠ []) (hlen : s.length ≤ 511) :
    ∃ r τ, hook F σ (.deleteKey hKey s) = some (r, τ) ∧
      (DeletesLikeOpen F σ hKey s r τ ↔
        ∃ key, handleToKey σ hKey = some key ∧ (bslash ∉ s ∨ keyExists F σ.heap key s = some false)) := by
  have hi : Inv F σ := inv_api_run (inv_installed h₀) hrun
  rcases hbase with hr | ⟨key, hh, hl⟩
  · refine ⟨_, _, delete_root hi hr, iff_of_false (fun hd => hd.ours rfl) ?_⟩
    rintro ⟨key, hkey, -⟩
    rw [handleToKey_predefined hi.few (List.mem_cons_of_mem HKEY_USERS hr)] at hkey
    cases hkey
  · obtain ⟨k, hk⟩ := hl.live hi.wf
    have hcut : lstrcpynW s 512 = s := List.take_of_length_le hlen
    have hsne : s ≠ [] := by
      rintro rfl
      exact hne rfl
    have hfinds := openFinds_handle hi hh hlen
    have hwalk : tokens s = [] ∨ Live σ.heap key := .inr ⟨k, hk⟩
    obtain ⟨b, hb, hbiff⟩ := existsTokens_total hi.wf hwalk
    have hexists : keyExists F σ.heap key s = some false ↔ ¬ OpenFinds F σ hKey s := by
      rw [keyExists_eq, hcut, hb, hfinds, ← hbiff]
      simp
    have hcond : (∃ key', handleToKey σ hKey = some key' ∧ (bslash ∉ s ∨ keyExists F σ.heap key' s = some false)) ↔
        bslash ∉ s ∨ ¬ OpenFinds F σ hKey s := by
      rw [← hexists]
      constructor
      · rintro ⟨key', hkey', hor⟩
        obtain rfl := Option.some.inj (hh.symm.trans hkey')
        exact hor
      · exact fun hor => ⟨key, hh, hor⟩
    rw [hcond]
    rcases delete_handle (s := s) hi hh hk with ⟨j, τ, hc, hj, hd, hheap⟩ | ⟨hno, hd⟩
    · -- a child was found, so the path was a single component and an open finds it too
      have hs := hc.no_bslash hi.wf
      have hw : Walk F σ.heap key (tokens s) j := by
        rw [tokens_single hsne hs]
        exact ⟨j, hc, rfl⟩
      refine ⟨_, τ, hd, iff_of_true ⟨by simp, iff_of_true rfl (hfinds.2 ⟨j, hw⟩), ?_, fun hno => absurd rfl hno⟩ (.inl hs)⟩
      intro _ base n hbase hnav
      obtain rfl := Option.some.inj ((baseKey_handle hi .ex hh).symm.trans hbase)
      obtain rfl := ((navigate_handle hi hh hlen).1 hnav).unique hi.wf hw
      rw [hheap]
      exact removed_unlink hi.wf hk hj
    · refine ⟨_, σ, hd, ?_⟩
      constructor
      · intro hlike
        exact .inr fun hf => absurd (hlike.found.2 hf) (by simp)
      · intro hor
        have hnot : ¬ OpenFinds F σ hKey s := by
          rcases hor with hs | hnot
          · rw [hfinds, tokens_single hsne hs]
            rintro ⟨n, m, hm, -⟩
            exact hno m hm
          · exact hnot
        exact ⟨by simp, iff_of_false (by simp) hnot, by simp, fun _ => rfl⟩

/-- Key `A\\B` created, and the root opened. -/
def nestedSession : List ApiCall :=
  [.reg (.createKey .ex HKEY_LOCAL_MACHINE (some (wide "A\\B"))), .reg (.openKey .ex HKEY_LOCAL_MACHINE none)]

def nestedHeap : Heap :=
  [some { name := [], parent := none, children := [1], values := [] },
   some { name := wide "A", parent := some 0, children := [2], values := [] },
   some { name := wide "B", parent := some 1, children := [], values := [] }]

/-- What they leave. -/
def nestedStore : Store where
  isWow64 := false
  heap := nestedHeap
  fakeKeys := [⟨some 2, some (wide "A\\B")⟩, ⟨some 0, some []⟩]
  handleCache := [(wide "A\\B", 0x30000000), ([], 0x30000001)]
  file := (saveRegistry nestedHeap).map List.flatten

theorem nested_run : Lts.run (apiStep asciiFold) (Store.empty false) nestedSession = some nestedStore := rfl

/-- Deleting `A`, with all that is below it, through the handle of the root. -/
theorem delete_iff_child : ∃ τ, hook asciiFold nestedStore (.deleteKey 0x30000001 (wide "A")) = some (.status .success, τ) ∧
    DeletesLikeOpen asciiFold nestedStore 0x30000001 (wide "A") (.status .success) τ := by
  have hbase : 0x30000001 ∈ predefinedRoots ∨
      ∃ key, handleToKey nestedStore 0x30000001 = some key ∧ Linked nestedStore.heap key :=
    .inr ⟨regRoot, rfl, .root⟩
  obtain ⟨r, τ, hd, hiff⟩ := delete_iff (.fresh false) nestedSession nested_run (s := wide "A") hbase (by decide)
    (by decide)
  have hr : (hook asciiFold nestedStore (.deleteKey 0x30000001 (wide "A"))).map Prod.fst = some (.status .success) := by
    decide
  rw [hd] at hr
  obtain rfl := Option.some.inj hr
  exact ⟨τ, hd, hiff.2 ⟨regRoot, rfl, .inl (by decide)⟩⟩

/-- **A path of two components**: opened, but not found by a delete through the same handle, and below a
predefined root not even looked for. -/
theorem delete_path_not_found : Lts.run (apiStep asciiFold) (Store.empty false) nestedSession = some nestedStore ∧
    (∃ τ, hook asciiFold nestedStore (.openKey .ex 0x30000001 (some (wide "A\\B"))) = some (.key 0x30000002 none, τ)) ∧
    hook asciiFold nestedStore (.deleteKey 0x30000001 (wide "A\\B")) = some (.status .fileNotFound, nestedStore) ∧
    hook asciiFold nestedStore (.deleteKey HKEY_LOCAL_MACHINE (wide "A")) = some (.forwarded, nestedStore) ∧
    ¬ DeletesLikeOpen asciiFold nestedStore 0x30000001 (wide "A\\B") (.status .fileNotFound) nestedStore ∧
    ¬ DeletesLikeOpen asciiFold nestedStore HKEY_LOCAL_MACHINE (wide "A") .forwarded nestedStore := by
  refine ⟨nested_run, ⟨_, rfl⟩, rfl, rfl, ?_, fun hd => hd.ours rfl⟩
  intro hd
  have hfound : Reply.status .fileNotFound = .status .success := hd.found.2 ⟨regRoot, 2, rfl, rfl⟩
  cases hfound

end Rvpn.Registry
