import Rvpn.Lib.Refine
import Rvpn.Registry.Compose
import Rvpn.Registry.Deletion
import Rvpn.Registry.Savers

/-!
# What the emulated registry is for

Radmin keeps its settings by path: it creates a key and sets a value, it opens the key and queries or deletes one, and
some day it is started again. Seen from there the hooks, the handle table with its cache, the tree and `register.reg`
are **one map** from a path and a name to a type and data, with no regard to case, to repeated backslashes or to the
handles used, and that a restart does not change. `durable` says so for every sequence of requests; the map itself is
`remember`.

| here | there |
| --- | --- |
| `Request.put` | `RegCreateKeyExW`, then `RegSetValueExW` on the handle |
| `Request.get`, `Request.del` | `RegOpenKeyExW`, then `RegQueryValueExW` or `RegDeleteValueW` on the handle |
| `Request.restart` | the process ends, and `Register_InstallHooks` runs in the next one |

No handle is closed, as the hook of `RegCloseKey` does nothing. A path below `HKEY_LOCAL_MACHINE` is redirected in a
process under WOW64; the three roots share their keys.
-/

namespace Rvpn.Registry

open Cells

/-! ## Requests -/

inductive Request where
  | put (root : HKEY) (path : WStr) (name : Option WStr) (type : UInt32) (data : List UInt8)
  | del (root : HKEY) (path : WStr) (name : Option WStr)
  | get (root : HKEY) (path : WStr) (name : Option WStr) (lpData : Bool) (size : Nat)
  | restart (junk : Nat → UInt8)

/-- A call that hands out a handle, then one with that handle. -/
def through (F : CaseFold) (σ : Store) (first : RegCall) (next : HKEY → RegCall) : Option (Reply × Store) :=
  match call F σ first with
  | none => none
  | some (.key h _, τ) => call F τ (next h)
  | some (r, τ) => some (r, τ)

/-- What the code answers. The loader needs no more rounds of nesting than the file has bytes. -/
def perform (F : CaseFold) (σ : Store) : Request → Option (Reply × Store)
  | .put root path name type data =>
    through F σ (.createKey .ex root (some path)) fun h => .setValue h name type data
  | .del root path name => through F σ (.openKey .ex root (some path)) fun h => .deleteValue h name
  | .get root path name lpData size =>
    through F σ (.openKey .ex root (some path)) fun h => .queryValue h name lpData (some size)
  | .restart junk =>
    ((restart F (σ.file.getD []).length junk σ).filter fun τ => τ.heap.Fits).map fun τ => (.status .success, τ)

/-! ## The map -/

/-- From the components of a path and a name, folded, to what is stored there. -/
abbrev Memo := List WStr × WStr → Option (UInt32 × List UInt8)

/-- Where a value is stored. -/
def placeOf (F : CaseFold) (w : Bool) (root : HKEY) (path : WStr) (name : Option WStr) : List WStr × WStr :=
  ((tokens (redirectSubKey F w root path)).map F.fold, F.fold (name.getD []))

/-- What the map answers. -/
def remember (F : CaseFold) (w : Bool) (m : Memo) : Request → Reply × Memo
  | .put root path name type data =>
    (.status .success, Function.update m (placeOf F w root path name) (some (type, data)))
  | .del root path name =>
    (.status (if m (placeOf F w root path name) = none then .fileNotFound else .success),
      Function.update m (placeOf F w root path name) none)
  | .get root path name lpData size => (answer (m (placeOf F w root path name)) lpData size, m)
  | .restart _ => (.status .success, m)

/-- A path below one of the roots that are emulated, not the root itself, that `NavigatePath` copies whole and that
does not stand for the service key of the driver. -/
structure Addressed (F : CaseFold) (w : Bool) (root : HKEY) (path : WStr) : Prop where
  base : root ∈ predefinedRoots
  short : (redirectSubKey F w root path).length ≤ 511
  below : tokens (redirectSubKey F w root path) ≠ []
  plain : ¬ serviceName <:+: path

def Request.Addressed (F : CaseFold) (w : Bool) : Request → Prop
  | .put root path .. | .del root path _ | .get root path .. => Registry.Addressed F w root path
  | .restart _ => True

variable {F : CaseFold} {w : Bool} {σ τ : Store} {m : Memo} {H H' : Heap} {n : Id} {k : RegKey} {ts : List WStr}
  {name : WStr} {root h : HKEY} {path : WStr} {r : Reply}

/-! ## A tree that holds the map -/

/-- The values of the tree, by the walks to their keys, are those of the map, which has no others. -/
structure Reads (F : CaseFold) (H : Heap) (m : Memo) : Prop where
  value : ∀ {ts n k}, Walk F H regRoot ts n → deref H n = some k → ∀ name,
    valueOf F k name = m (ts.map F.fold, F.fold name)
  absent : ∀ {ts}, (∀ n, ¬ Walk F H regRoot ts n) → ∀ name, m (ts.map F.fold, F.fold name) = none

theorem reads_empty : Reads F emptyHeap fun _ => none where
  value {ts n k} hw hk name := by
    have hlt : n < 1 := lt_of_deref hk
    obtain rfl : n = 0 := Nat.lt_one_iff.1 hlt
    cases hk
    rfl
  absent _ _ := rfl

/-- Keys that are created have no values. -/
theorem Reads.grow (hr : Reads F H m) (hwf : WF F H) (hwf' : WF F H') (hg : Grows H H') : Reads F H' m where
  value {ts n k} hw hk name := by
    rcases hg.new hk with ⟨k₀, hk₀⟩ | ⟨hle, hnil⟩
    · have hlinked : Linked H' n := Linked.root.walk hw
      obtain ⟨us, hus⟩ := hg.linked_old hwf hwf' hlinked (lt_of_deref hk₀)
      have hus' : Walk F H regRoot us n := Walk.of_exactly hus
      rw [valueOf, hg.values hk₀ hk, hw.tokens_eq hwf' (hg.walk hus')]
      exact hr.value hus' hk₀ name
    · have hno : ∀ n', ¬ Walk F H regRoot ts n' := by
        intro n' hw'
        obtain rfl := (hg.walk hw').unique hwf' hw
        obtain ⟨k₁, hk₁⟩ := hw'.live (hwf.root.imp fun _ h => h.1)
        exact absurd (lt_of_deref hk₁) (Nat.not_lt_of_le hle)
      rw [hr.absent hno, valueOf, hnil]
      rfl
  absent hno name := hr.absent (fun n hw => hno n (hg.walk hw)) name

/-- One value of one key is changed. -/
theorem Reads.setValues (hr : Reads F H m) (hwf : WF F H) (hw : Walk F H regRoot ts n) (hk : deref H n = some k)
    {vs : List RegValue} {x : Option (UInt32 × List UInt8)}
    (hself : ∀ name', F.fold name = F.fold name' → valueOf F { k with values := vs } name' = x)
    (hother : ∀ name', F.fold name ≠ F.fold name' → valueOf F { k with values := vs } name' = valueOf F k name') :
    Reads F (setValues H n k vs) (Function.update m (ts.map F.fold, F.fold name) x) where
  value {us n' k'} hw' hk' name' := by
    rw [walk_setValues hk] at hw'
    rcases deref_write_cases hk' with ⟨rfl, rfl⟩ | ⟨hne, hk'⟩
    · rw [hw'.tokens_eq hwf hw]
      by_cases hname : F.fold name = F.fold name'
      · rw [hself name' hname, hname, Function.update_self]
      · rw [hother name' hname, hr.value hw hk, Function.update_of_ne]
        rintro he
        exact hname (Prod.mk.inj he).2.symm
    · rw [hr.value hw' hk', Function.update_of_ne]
      rintro he
      -- two keys of one path are one key
      exact hne ((hw'.congr (Prod.mk.inj he).1).unique hwf hw)
  absent {us} hno name' := by
    have hno' : ∀ n', ¬ Walk F H regRoot us n' := fun n' hw' => hno n' ((walk_setValues hk).2 hw')
    rw [Function.update_of_ne]
    · exact hr.absent hno' name'
    · rintro he
      exact hno' n (hw.congr (Prod.mk.inj he).1.symm)

theorem valueOf_congr {k₀ : RegKey} (hd : Assoc.Distinct (valueKey F) k.values) (hd₀ : Assoc.Distinct (valueKey F) k₀.values)
    (hmem : ∀ v, v ∈ k.values ↔ v ∈ k₀.values) (name : WStr) : valueOf F k name = valueOf F k₀ name := by
  have hfind : Assoc.find (valueKey F) (F.fold name) k.values = Assoc.find (valueKey F) (F.fold name) k₀.values :=
    Option.ext fun v => by rw [Assoc.find_eq_some hd, Assoc.find_eq_some hd₀, hmem]
  rw [valueOf, valueOf, hfind]

/-- A tree with the same registry holds the same map, whatever the order of its lists. -/
theorem Reads.same (hr : Reads F H m) (hwf : WF F H) (hwf' : WF F H') (hsame : SameRegistry H H') : Reads F H' m where
  value {ts n k} hw hk name := by
    obtain ⟨us, hus⟩ := Linked.root.walk hw
    obtain ⟨n₀, hn₀⟩ := (hsame.1 us).2 ⟨n, hus⟩
    obtain ⟨k₀, hk₀⟩ := Linked.live hwf ⟨us, hn₀⟩
    have hmem : ∀ v, v ∈ k.values ↔ v ∈ k₀.values := by
      intro v
      constructor
      · intro hv
        obtain ⟨n₁, k₁, hn₁, hk₁, hv₁⟩ := (hsame.2 us v).2 ⟨n, k, hus, hk, hv⟩
        obtain rfl := Walk.unique hwf (Walk.of_exactly hn₁) (Walk.of_exactly (F := F) hn₀)
        obtain rfl := Option.some.inj (hk₁.symm.trans hk₀)
        exact hv₁
      · intro hv
        obtain ⟨n₁, k₁, hn₁, hk₁, hv₁⟩ := (hsame.2 us v).1 ⟨n₀, k₀, hn₀, hk₀, hv⟩
        obtain rfl := Walk.unique hwf' (Walk.of_exactly hn₁) (Walk.of_exactly (F := F) hus)
        obtain rfl := Option.some.inj (hk₁.symm.trans hk)
        exact hv₁
    rw [valueOf_congr (hwf'.values hk) (hwf.values hk₀) hmem, hw.tokens_eq hwf' (Walk.of_exactly hus)]
    exact hr.value (Walk.of_exactly hn₀) hk₀ name
  absent {ts} hno name := by
    refine hr.absent (fun n hw => ?_) name
    obtain ⟨us, hus⟩ := Linked.root.walk hw
    obtain ⟨n', hn'⟩ := (hsame.1 us).1 ⟨n, hus⟩
    exact hno n' ((Walk.of_exactly hn').congr ((Walk.of_exactly hus).tokens_eq hwf hw))

/-! ## The relation -/

/-- The file is the image of a tree with the registry of this one; before the first save there is neither. -/
def Kept (F : CaseFold) (σ : Store) : Prop :=
  (σ.file = none ∧ σ.heap = emptyHeap) ∨
  ∃ σ' content, Inv F σ' ∧ rootValues σ' = [] ∧ ImageOf σ' content ∧ σ.file = some content ∧ SameRegistry σ'.heap σ.heap

/-- **The process holds the map**, in memory and on the disk. -/
structure Remembers (F : CaseFold) (w : Bool) (σ : Store) (m : Memo) : Prop where
  inv : Inv F σ
  placed : Placed F σ
  wow : σ.isWow64 = w
  rootless : rootValues σ = []
  kept : Kept F σ
  reads : Reads F σ.heap m

theorem remembers_empty (w : Bool) : Remembers F w (Store.empty w) fun _ => none where
  inv := inv_empty w
  placed := placed_installed (.fresh w)
  wow := rfl
  rootless := rfl
  kept := .inl ⟨rfl, rfl⟩
  reads := reads_empty

theorem kept_of_saved (hi : Inv F σ) (hroot : rootValues σ = []) (hs : Saved σ) : Kept F σ := by
  obtain ⟨ws, hws, hfile⟩ := hs
  exact .inr ⟨σ, ws.flatten, hi, hroot, ⟨ws, hws, rfl⟩, hfile, fun _ => Iff.rfl, fun _ _ => Iff.rfl⟩

/-! ## The calls -/

theorem handOut_wow {key : Id} {path : WStr} (ho : handOut F σ key path = some (h, τ)) : τ.isWow64 = σ.isWow64 := by
  rcases (handOut_cases ho).2 with ⟨-, rfl⟩ | ⟨-, -, rfl⟩
  · rfl
  · rfl

theorem autoSave_wow (h : autoSave σ = some τ) : τ.isWow64 = σ.isWow64 := by
  obtain ⟨ws, -, rfl⟩ := autoSave_eq_some.1 h
  rfl

theorem base_addressed (ha : Addressed F w root path) : baseKey .ex σ root = some regRoot := by
  rw [baseKey, if_pos]
  exact ha.base

/-- A handle handed out for an addressed path is one of the key there. -/
theorem handed_addressed (hi : Inv F σ) (hp : Placed F σ) (ha : Addressed F σ.isWow64 root path)
    (hw : Walk F σ.heap regRoot (tokens (redirectSubKey F σ.isWow64 root path)) n)
    (ho : handOut F σ n (buildFullPath σ root (redirectSubKey F σ.isWow64 root path)) = some (h, τ)) :
    handleToKey τ h = some n := by
  have hroot : root ∈ HKEY_USERS :: predefinedRoots := List.mem_cons_of_mem _ ha.base
  have hw' : Walk F σ.heap regRoot (tokens (lstrcpynW (redirectSubKey F σ.isWow64 root path) 512)) n := by
    rwa [tokens_copied ha.short]
  refine (hp.handed hi.wf (extends_of_base hi (base_addressed ha) _) hw' ho fun _ _ => ?_).1
  rw [buildFullPath, if_pos hroot]
  exact ha.short

theorem rootValues_congr {k' : RegKey} (hk : deref σ.heap regRoot = some k) (hk' : deref τ.heap regRoot = some k')
    (hv : k'.values = k.values) : rootValues τ = rootValues σ := by
  simp only [rootValues, hk, hk', Option.map_some, hv]

/-- `RegCreateKeyExW`: a handle of the key at the path. -/
theorem Remembers.create (hm : Remembers F w σ m) (ha : Addressed F w root path)
    (hc : call F σ (.createKey .ex root (some path)) = some (r, τ)) :
    ∃ h d n, r = .key h d ∧ handleToKey τ h = some n ∧
      Walk F τ.heap regRoot (tokens (redirectSubKey F w root path)) n ∧ Remembers F w τ m := by
  obtain rfl := hm.wow
  have hi' := inv_call hm.inv hc
  have hp' := placed_call hm.inv hm.placed (by simp) hc
  obtain ⟨k, hk, -⟩ := hm.inv.wf.root
  have hlive : tokens (lstrcpynW (redirectSubKey F σ.isWow64 root path) 512) = [] ∨ Live σ.heap regRoot := .inr ⟨k, hk⟩
  obtain ⟨d, hd⟩ := disposition_total (v := .ex) hm.inv.wf hlive
  obtain ⟨n, H, hnav⟩ := navTokens_create_total hm.inv.wf (fun t ht => mem_tokens ht) hlive
  obtain ⟨n', he, hwf, hg, hw⟩ := navTokens_create hm.inv.wf (fun t ht => mem_tokens ht) hnav
  obtain rfl : n = n' := Option.some.inj he
  obtain ⟨hhook, -⟩ := call_eq_some.1 hc
  simp only [hook, regCreateKey, base_addressed ha, Option.getD_some, hd, Option.bind_some, navigatePath_eq, hnav] at hhook
  obtain ⟨⟨h, υ⟩, ho, hhook⟩ := Option.bind_eq_some_iff.1 hhook
  obtain ⟨τ', hs, he⟩ := Option.map_eq_some_iff.1 hhook
  cases he
  have hheap : τ.heap = H := (autoSave_heap hs).1.trans (handOut_heap ho).1
  rw [tokens_copied ha.short] at hw
  have hgrown : Placed F { σ with heap := H } := hm.placed.congr (fun ts n => hg.walk) rfl rfl
  have hfits : H.Fits := hheap ▸ hi'.fits
  have hi₁ : Inv F { σ with heap := H } := by
    refine ⟨hwf, fun e he => ?_, hm.inv.few, hfits⟩
    obtain ⟨key, p, rfl, hlt⟩ := hm.inv.rows e he
    exact ⟨key, p, rfl, hlt.trans_le hg.length⟩
  have hh : handleToKey υ h = some n := handed_addressed hi₁ hgrown ha hw ho
  have hroot : rootValues τ = [] := by
    obtain ⟨ids, hk', -⟩ := hg.old hk
    rw [← hheap] at hk'
    rw [rootValues_congr hk hk' rfl, hm.rootless]
  refine ⟨h, d, n, rfl, ?_, hheap ▸ hw, ?_⟩
  · exact handleToKey_append (by rw [(autoSave_heap hs).2.1, List.append_nil]) hh
  · exact ⟨hi', hp', (autoSave_wow hs).trans (handOut_wow (σ := { σ with heap := H }) ho), hroot, kept_of_saved hi' hroot (autoSave_saved hs),
      hheap ▸ hm.reads.grow hm.inv.wf hwf hg⟩

/-- `RegOpenKeyExW`: a handle of the key at the path, or no key there. -/
theorem Remembers.openKey (hm : Remembers F w σ m) (ha : Addressed F w root path)
    (hc : call F σ (.openKey .ex root (some path)) = some (r, τ)) :
    (∃ h d n, r = .key h d ∧ handleToKey τ h = some n ∧
      Walk F τ.heap regRoot (tokens (redirectSubKey F w root path)) n ∧ Remembers F w τ m) ∨
    (r = .status .fileNotFound ∧ τ = σ ∧ ∀ n, ¬ Walk F σ.heap regRoot (tokens (redirectSubKey F w root path)) n) := by
  obtain rfl := hm.wow
  have hi' := inv_call hm.inv hc
  have hp' := placed_call hm.inv hm.placed (by simp) hc
  obtain ⟨k, hk, -⟩ := hm.inv.wf.root
  obtain ⟨hhook, -⟩ := call_eq_some.1 hc
  have hlive : tokens (lstrcpynW (redirectSubKey F σ.isWow64 root path) 512) = [] ∨ Live σ.heap regRoot := .inr ⟨k, hk⟩
  simp only [hook, regOpenKey, base_addressed ha, Option.getD_some, if_neg ha.plain, navigatePath_eq] at hhook
  rcases navTokens_open_total hm.inv.wf hlive with ⟨n, hw, hnav⟩ | ⟨hno, hnav⟩
  · simp only [hnav] at hhook
    obtain ⟨⟨h, υ⟩, ho, he⟩ := Option.map_eq_some_iff.1 hhook
    cases he
    rw [tokens_copied ha.short] at hw
    obtain ⟨hheap, -, hfile⟩ := handOut_heap ho
    have hroot : rootValues υ = [] := by rw [rootValues_congr hk (hheap.symm ▸ hk) rfl, hm.rootless]
    refine .inl ⟨h, none, n, rfl, handed_addressed hm.inv hm.placed ha hw ho, hheap.symm ▸ hw, ?_⟩
    refine ⟨hi', hp', handOut_wow ho, hroot, ?_, hheap.symm ▸ hm.reads⟩
    rw [Kept, hheap, hfile]
    exact hm.kept
  · simp only [hnav] at hhook
    cases hhook
    rw [tokens_copied ha.short] at hno
    exact .inr ⟨rfl, rfl, hno⟩

/-! ### With a handle of a key -/

section
variable (hm : Remembers F w σ m) (hw : Walk F σ.heap regRoot ts n) (hne : ts ≠ []) (hh : handleToKey σ h = some n)
include hm hw

theorem Remembers.value (name : WStr) :
    ∃ k, deref σ.heap n = some k ∧ valueOf F k name = m (ts.map F.fold, F.fold name) := by
  obtain ⟨k, hk⟩ := hw.live (hm.inv.wf.root.imp fun _ h => h.1)
  exact ⟨k, hk, hm.reads.value hw hk name⟩

include hne

/-- Other values for the key, saved. -/
theorem Remembers.setValues (hk : deref σ.heap n = some k) {vs : List RegValue} {x : Option (UInt32 × List UInt8)}
    (hself : ∀ name', F.fold name = F.fold name' → valueOf F { k with values := vs } name' = x)
    (hother : ∀ name', F.fold name ≠ F.fold name' → valueOf F { k with values := vs } name' = valueOf F k name')
    (hs : autoSave { σ with heap := Registry.setValues σ.heap n k vs } = some τ) (hi' : Inv F τ) (hp' : Placed F τ) :
    Remembers F w τ (Function.update m (ts.map F.fold, F.fold name) x) := by
  have hheap : τ.heap = Registry.setValues σ.heap n k vs := (autoSave_heap hs).1
  have hroot : rootValues τ = [] := by
    obtain ⟨k₀, hk₀, -⟩ := hm.inv.wf.root
    have hlt : regRoot < n := (hw.le hm.inv.wf).2 hne
    have hk' : deref τ.heap regRoot = some k₀ := by
      rw [hheap, Registry.setValues, deref_write_ne (Nat.ne_of_lt hlt), hk₀]
    rw [rootValues_congr hk₀ hk' rfl, hm.rootless]
  refine ⟨hi', hp', (autoSave_wow hs).trans hm.wow, hroot, kept_of_saved hi' hroot (autoSave_saved hs), ?_⟩
  rw [hheap]
  exact hm.reads.setValues hm.inv.wf hw hk hself hother

include hh

/-- `RegSetValueExW` -/
theorem Remembers.set {nm : Option WStr} {type : UInt32} {data : List UInt8}
    (hc : call F σ (.setValue h nm type data) = some (r, τ)) :
    r = .status .success ∧
      Remembers F w τ (Function.update m (ts.map F.fold, F.fold (nm.getD [])) (some (type, data))) := by
  have hi' := inv_call hm.inv hc
  have hp' := placed_call hm.inv hm.placed (by simp) hc
  cases call_effect hm.inv hc with
  | quiet hq =>
    rw [hq.1] at hh
    cases hh
  | @set _ _ _ _ key k _ hh' hk hs =>
    obtain rfl := Option.some.inj (hh'.symm.trans hh)
    exact ⟨rfl, hm.setValues hw hne hk (fun _ => valueOf_put_self)
      (fun _ => valueOf_put_ne) hs hi' hp'⟩

/-- `RegDeleteValueW` -/
theorem Remembers.delete {nm : Option WStr} (hc : call F σ (.deleteValue h nm) = some (r, τ)) :
    r = .status (if m (ts.map F.fold, F.fold (nm.getD [])) = none then .fileNotFound else .success) ∧
      Remembers F w τ (Function.update m (ts.map F.fold, F.fold (nm.getD [])) none) := by
  have hi' := inv_call hm.inv hc
  have hp' := placed_call hm.inv hm.placed (by simp) hc
  obtain ⟨k, hk, hval⟩ := hm.value hw (nm.getD [])
  have hfake : h ≠ FAKE_SERVICE_KEY := (handleToKey_eq_some.1 hh).1
  obtain ⟨hhook, -⟩ := call_eq_some.1 hc
  simp only [hook, hookRegDeleteValueW, if_neg hfake, hh, hk, Option.bind_some] at hhook
  cases hf : Assoc.find (valueKey F) (F.fold (nm.getD [])) k.values with
  | none =>
    simp only [hf] at hhook
    cases hhook
    have hnone : m (ts.map F.fold, F.fold (nm.getD [])) = none := by
      rw [← hval, valueOf, hf]
      rfl
    refine ⟨by rw [if_pos hnone], ?_⟩
    rw [← hnone, Function.update_eq_self]
    exact hm
  | some v =>
    simp only [hf] at hhook
    obtain ⟨τ', hs, he⟩ := Option.map_eq_some_iff.1 hhook
    cases he
    have hsome : m (ts.map F.fold, F.fold (nm.getD [])) ≠ none := by
      rw [← hval, valueOf, hf]
      simp
    have hd := hm.inv.wf.values hk
    exact ⟨by rw [if_neg hsome], hm.setValues hw hne hk (fun _ => valueOf_erase_self hd)
      (fun _ => valueOf_erase_ne) hs hi' hp'⟩

end

/-! ## The requests -/

/-- A restart. -/
theorem Remembers.restart (hm : Remembers F w σ m) {junk : Nat → UInt8} (hr : perform F σ (.restart junk) = some (r, τ)) :
    r = .status .success ∧ Remembers F w τ m := by
  obtain ⟨υ, hυ, he⟩ := Option.map_eq_some_iff.1 hr
  cases he
  obtain ⟨hload, hfits⟩ := Option.filter_eq_some_iff.1 hυ
  have hfits : τ.heap.Fits := of_decide_eq_true hfits
  refine ⟨rfl, ?_⟩
  have hroot : rootValues τ = [] := by
    refine List.eq_nil_iff_forall_not_mem.2 fun v hv => ?_
    exact restart_root hload (hasValue_root hv)
  -- the tables are empty, so only the tree matters
  suffices h : τ.isWow64 = σ.isWow64 ∧ τ.fakeKeys = [] ∧ τ.handleCache = [] ∧ WF F τ.heap ∧ Kept F τ ∧
      Reads F τ.heap m by
    obtain ⟨hwow, hrows, hcache, hwf, hkept, hreads⟩ := h
    refine ⟨⟨hwf, by simp [hrows], by simp [hrows], hfits⟩, ⟨by simp [hrows], by simp [hcache]⟩, hwow.trans hm.wow, hroot,
      hkept, hreads⟩
  rcases hm.kept with ⟨hfile, hheap⟩ | ⟨σ', content, hi, hrootless, himage, hfile, hsame⟩
  · simp only [Registry.restart, hfile, loadRegistryFromFile, Option.map_some, Option.some.injEq] at hload
    subst hload
    exact ⟨rfl, rfl, rfl, emptyHeap_wf, .inl ⟨rfl, rfl⟩, hheap ▸ hm.reads⟩
  · obtain ⟨H', hH', hwf, hsame'⟩ := load_image hi hrootless himage junk
    simp only [Registry.restart, hfile, Option.getD_some, hH', Option.map_some, Option.some.injEq] at hload
    subst hload
    have hreads : Reads F H' m := by
      refine hm.reads.same hm.inv.wf hwf ⟨fun path => ?_, fun path v => ?_⟩
      · exact (hsame.1 path).symm.trans (hsame'.1 path)
      · exact (hsame.2 path v).symm.trans (hsame'.2 path v)
    exact ⟨rfl, rfl, rfl, hwf, .inr ⟨σ', content, hi, hrootless, himage, rfl, hsame'⟩, hreads⟩

theorem through_eq_some {first : RegCall} {next : HKEY → RegCall} (h : through F σ first next = some (r, τ)) :
    (∃ hk d υ, call F σ first = some (.key hk d, υ) ∧ call F υ (next hk) = some (r, τ)) ∨
    (call F σ first = some (r, τ) ∧ ∀ hk d, r ≠ .key hk d) := by
  unfold through at h
  split at h
  · cases h
  · next hk d υ hc => exact .inl ⟨hk, d, υ, hc, h⟩
  · next r' υ hnot hc =>
    cases h
    exact .inr ⟨hc, fun hk d he => hnot hk d he⟩

/-- **One request**: the code answers what the map answers, and goes on holding it. -/
theorem Remembers.perform (hm : Remembers F w σ m) {q : Request} (ha : q.Addressed F w)
    (h : Registry.perform F σ q = some (r, τ)) : r = (remember F w m q).1 ∧ Remembers F w τ (remember F w m q).2 := by
  cases q with
  | put root path name type data =>
    rcases through_eq_some h with ⟨hk, d, υ, hc, hnext⟩ | ⟨hc, hnot⟩
    · obtain ⟨h', d', n, he, hh, hw, hυ⟩ := hm.create ha hc
      cases he
      exact hυ.set hw ha.below hh hnext
    · obtain ⟨h', d', n, he, -⟩ := hm.create ha hc
      exact absurd he (hnot h' d')
  | del root path name =>
    rcases through_eq_some h with ⟨hk, d, υ, hc, hnext⟩ | ⟨hc, hnot⟩
    · rcases hm.openKey ha hc with ⟨h', d', n, he, hh, hw, hυ⟩ | ⟨he, -⟩
      · cases he
        exact hυ.delete hw ha.below hh hnext
      · cases he
    · rcases hm.openKey ha hc with ⟨h', d', n, he, -⟩ | ⟨rfl, rfl, hno⟩
      · exact absurd he (hnot h' d')
      · have hnone : m (placeOf F w root path name) = none := hm.reads.absent hno _
        simp only [remember, hnone, if_true]
        rw [← hnone, Function.update_eq_self]
        exact ⟨trivial, hm⟩
  | get root path name lpData size =>
    rcases through_eq_some h with ⟨hk, d, υ, hc, hnext⟩ | ⟨hc, hnot⟩
    · rcases hm.openKey ha hc with ⟨h', d', n, he, hh, hw, hυ⟩ | ⟨he, -⟩
      · cases he
        obtain ⟨k, hk, hval⟩ := hυ.value hw (name.getD [])
        rw [query_reply hυ.inv hh hk, hval] at hnext
        cases hnext
        exact ⟨rfl, hυ⟩
      · cases he
    · rcases hm.openKey ha hc with ⟨h', d', n, he, -⟩ | ⟨rfl, rfl, hno⟩
      · exact absurd he (hnot h' d')
      · have hnone : m (placeOf F w root path name) = none := hm.reads.absent hno _
        simp only [remember, hnone, answer]
        exact ⟨trivial, hm⟩
  | restart junk => exact hm.restart h

/-- A query or a delete with a row left in the handle table comes back. -/
theorem Remembers.returns (hm : Remembers F w σ m) (ha : Addressed F w root path) (hroom : σ.fakeKeys.length < 2 ^ 29)
    (name : Option WStr) (lpData : Bool) (size : Nat) :
    ∃ r τ, Registry.perform F σ (.get root path name lpData size) = some (r, τ) := by
  obtain rfl := hm.wow
  obtain ⟨k, hk, -⟩ := hm.inv.wf.root
  have hlive : walked F σ root (some path) = [] ∨ Live σ.heap regRoot := .inr ⟨k, hk⟩
  rcases openKey_total (base_addressed ha) hm.inv hlive hroom ha.plain with ⟨n, h, τ, hw, ho, hopen⟩ | ⟨-, hopen⟩
  · have hfit : τ.heap.Fits := by
      rw [(handOut_heap ho).1]
      exact hm.inv.fits
    have hc : call F σ (.openKey .ex root (some path)) = some (.key h none, τ) := call_eq_some.2 ⟨hopen, hfit⟩
    rcases hm.openKey ha hc with ⟨h', d', n', he, hh, hw', hτ⟩ | ⟨he, -⟩
    · cases he
      obtain ⟨k', hk', -⟩ := hτ.value hw' (name.getD [])
      have hreply := query_reply hτ.inv hh hk' name lpData size
      exact ⟨_, τ, by simp only [Registry.perform, through, hc]; exact hreply⟩
    · cases he
  · have hc : call F σ (.openKey .ex root (some path)) = some (.status .fileNotFound, σ) :=
      call_eq_some.2 ⟨hopen, hm.inv.fits⟩
    exact ⟨_, _, by simp only [Registry.perform, through, hc]; rfl⟩

/-- **The registry is one durable map.** For every sequence of puts, deletes, queries and restarts, the answers are
those of a map from folded components and folded names that a restart does not touch; and after it a query comes back,
with the map's answer, as long as the handle table has a row left. The operations on `register.reg` succeed. -/
theorem durable (F : CaseFold) (w : Bool) (qs : List Request) (hqs : ∀ q ∈ qs, q.Addressed F w) {rs : List Reply}
    (h : Refine.serve (perform F) (Store.empty w) qs = some (rs, τ)) :
    rs = (Refine.meaning (remember F w) (fun _ => none) qs).1 ∧
    ∀ root path name lpData size, Addressed F w root path → τ.fakeKeys.length < 2 ^ 29 →
      ∃ υ, perform F τ (.get root path name lpData size) =
        some (answer ((Refine.meaning (remember F w) (fun _ => none) qs).2 (placeOf F w root path name)) lpData size, υ) := by
  have hstep : ∀ σ m q r υ, Remembers F w σ m → q.Addressed F w → perform F σ q = some (r, υ) →
      r = (remember F w m q).1 ∧ Remembers F w υ (remember F w m q).2 := fun _ _ _ _ _ hm ha hp => hm.perform ha hp
  have hrun := Refine.serve_refines hstep hqs (remembers_empty w) h
  refine ⟨hrun.1, fun root path name lpData size ha hroom => ?_⟩
  obtain ⟨r, υ, hp⟩ := hrun.2.returns ha hroom name lpData size
  obtain ⟨hr, -⟩ := hrun.2.perform (q := .get root path name lpData size) ha hp
  exact ⟨υ, by rw [hp, hr]; rfl⟩

/-- A value set, queried by another spelling after a restart, and deleted. -/
def settings : List Request :=
  [.put HKEY_LOCAL_MACHINE (wide "SOFTWARE\\Famatech") (some (wide "Name")) 4 [7, 0, 0, 0],
   .restart fun _ => 0,
   .get HKEY_CURRENT_USER (wide "\\software\\\\FAMATECH") (some (wide "NAME")) true 8,
   .del HKEY_LOCAL_MACHINE (wide "SOFTWARE\\Famatech") (some (wide "name"))]

theorem durable_settings : ∃ τ υ, Refine.serve (perform asciiFold) (Store.empty false) settings =
      some ([.status .success, .status .success, answer (some (4, [7, 0, 0, 0])) true 8, .status .success], τ) ∧
    perform asciiFold τ (.get HKEY_LOCAL_MACHINE (wide "Software\\Famatech") (some (wide "Name")) true 8) =
      some (.status .fileNotFound, υ) := by
  have hqs : ∀ q ∈ settings, q.Addressed asciiFold false := by
    simp only [settings, List.mem_cons, List.not_mem_nil, or_false, forall_eq_or_imp, forall_eq]
    exact ⟨⟨by decide, by decide, by decide, by decide⟩, trivial, ⟨by decide, by decide, by decide, by decide⟩,
      ⟨by decide, by decide, by decide, by decide⟩⟩
  have ha : Addressed asciiFold false HKEY_LOCAL_MACHINE (wide "Software\\Famatech") :=
    ⟨by decide, by decide, by decide, by decide⟩
  have hrun : (Refine.serve (perform asciiFold) (Store.empty false) settings).map
      (fun o => decide (o.2.fakeKeys.length < 2 ^ 29)) = some true := by decide +kernel
  obtain ⟨⟨rs, τ⟩, h, hroom⟩ := Option.map_eq_some_iff.1 hrun
  obtain ⟨hrs, hget⟩ := durable asciiFold false settings hqs h
  obtain ⟨υ, hυ⟩ := hget HKEY_LOCAL_MACHINE (wide "Software\\Famatech") (some (wide "Name")) true 8 ha
    (of_decide_eq_true hroom)
  have hanswers : (Refine.meaning (remember asciiFold false) (fun _ => none) settings).1 =
      [.status .success, .status .success, answer (some (4, [7, 0, 0, 0])) true 8, .status .success] := by
    decide +kernel
  have hgone : (Refine.meaning (remember asciiFold false) (fun _ => none) settings).2
      (placeOf asciiFold false HKEY_LOCAL_MACHINE (wide "Software\\Famatech") (some (wide "Name"))) = none := by
    decide +kernel
  exact ⟨τ, υ, by rw [h, hrs, hanswers], by rw [hυ, hgone]; rfl⟩

end Rvpn.Registry
