import Rvpn.Registry.Handles
import Rvpn.Registry.Image
import Rvpn.Registry.Shape

/-!
# What a handle denotes

A create or open hands out a handle from a cache by path, and the cache outlives the key: `RegDeleteKeyW` frees a node
and leaves its rows and cache entries behind. The heap may put another key at that address, and then the row points to
a key that is in the tree, but not the one that its path leads to (`other_key_denoted`).

`Tracked` adds to the process what the code does not keep: the rows whose key has been freed, and those whose path is
not the one that was walked, since full paths are kept whole while `NavigatePath` copies 511 characters. As long as no
call goes through the handle of a freed key, every other row points to a key and, **while that key is in the tree, its
path leads to it**, unless it was cut (`Traced`). So a handle denotes the key that `NavigatePath` finds exactly when the
base key is in the tree, and the key of the handle cached for the path, if there is one (`handle_denotes_iff`).
-/

namespace Rvpn.Registry.Raw

open Cells Threads

/-! ## What becomes of rows -/

/-- The process, and two kinds of rows of its handle table. -/
structure Tracked where
  machine : Machine
  /-- The key has been freed since the row was made. -/
  freed : List Nat
  /-- The path of the row is not the one that led to the key. -/
  cut : List Nat

/-- The rows that point to a block before a call and to none after it. -/
def freedRows (m : Machine) (M' : Memory) : List Nat :=
  (List.range m.tables.fakeKeys.length).filter fun i =>
    ((m.tables.fakeKeys[i]?).bind FakeKey.key).any fun a => (deref m.memory a).isSome && (deref M' a).isNone

/-- The handle and the subkey whose path a call walks along. -/
def walks : ApiCall → Option (HKEY × Option WStr)
  | .reg (.createKey _ hKey sub) | .reg (.openKey _ hKey sub) | .getValue hKey sub .. => some (hKey, sub)
  | _ => none

/-- No component of the path is lost to the buffer of `NavigatePath`, nor was one of the path of the base. -/
def Uncut (F : CaseFold) (t : Tracked) (hKey : HKEY) (sub : Option WStr) : Prop :=
  fakeIndex hKey ∉ t.cut ∧
    walked F t.machine.tables hKey sub = tokens (redirectSubKey F t.machine.tables.isWow64 hKey (sub.getD []))

instance (F : CaseFold) (t : Tracked) (hKey : HKEY) (sub : Option WStr) : Decidable (Uncut F t hKey sub) :=
  inferInstanceAs (Decidable (_ ∧ _))

/-- The row a call has made, if its path was cut. -/
def cutRows (F : CaseFold) (t : Tracked) (e : Event) (m' : Machine) : List Nat :=
  match walks e.call with
  | some (hKey, sub) =>
    if Uncut F t hKey sub then []
    else List.range' t.machine.tables.fakeKeys.length (m'.tables.fakeKeys.length - t.machine.tables.fakeKeys.length)
  | none => []

def Tracked.step (F : CaseFold) (t : Tracked) (e : Event) : Option Tracked :=
  (Raw.step F t.machine e).map fun m => ⟨m, t.freed ++ freedRows t.machine m.memory, t.cut ++ cutRows F t e m⟩

/-- The handle a call works on; calls that only look at its key are left out. -/
def worksOn : ApiCall → Option HKEY
  | .reg (.openKey _ hKey _) | .getValue hKey .. => some hKey
  | c => changes c

/-- The call is not made through the handle of a freed key. -/
def Sound (t : Tracked) (e : Event) : Prop := ∀ hKey, worksOn e.call = some hKey → fakeIndex hKey ∉ t.freed

/-- **What a session starts from**: a well-formed tree, the root alone or one that was loaded, and empty tables. -/
structure Ready (F : CaseFold) (m : Machine) : Prop where
  shaped : Shaped F m
  rows : m.tables.fakeKeys = []
  cache : m.tables.handleCache = []

/-! ## What is claimed of a handle -/

/-- The handle denotes the node `NavigatePath` finds, and that node is in the tree. -/
def Denotes (F : CaseFold) (heap : HeapAlloc) (m : Machine) (base : Addr) (path : WStr) (h : HKEY) : Prop :=
  ∃ a, handleToKey m.tables h = some a ∧ navigatePath F heap false m.memory base path = some (some a, m.memory) ∧
    InTree m.memory m.regRoot a

/-- The key of the handle cached for the path, if there is one, has not been freed, and neither path was cut. -/
def CacheKept (F : CaseFold) (t : Tracked) (hKey : HKEY) (sub : Option WStr) : Prop :=
  ∀ h, cached F t.machine.tables (fullPathOf F t.machine.tables hKey sub) = some h →
    fakeIndex h ∉ t.freed ∧ fakeIndex h ∉ t.cut ∧ Uncut F t hKey sub

/-- Its key is in the tree. -/
def CacheInTree (F : CaseFold) (m : Machine) (fullPath : WStr) : Prop :=
  ∀ h a, cached F m.tables fullPath = some h → handleToKey m.tables h = some a → InTree m.memory m.regRoot a

/-- The value is at the node the path leads to, and in the record of that node in what is saved. -/
def Found (F : CaseFold) (heap : HeapAlloc) (m : Machine) (base : Addr) (path name : WStr) (type : UInt32)
    (data : List UInt8) : Prop :=
  ∃ a prev v b, navigatePath F heap false m.memory base path = some (some a, m.memory) ∧
    InTree m.memory m.regRoot a ∧
    valueOf F m.memory a name = some (prev, some v) ∧ deref m.memory v = some b ∧
    b.w4 = .number type ∧ b.w12 = .bytes data ∧
    ∃ image record fuel spelt, (∃ n, ∀ fuel, n ≤ fuel → saveRegistry m.memory fuel m.regRoot = some image) ∧
      saveKeyToFile m.memory fuel a = some record ∧ record <:+: image ∧
      F.fold spelt = F.fold name ∧ writeValue ⟨spelt, type, data⟩ <:+: record

variable {F : CaseFold} {heap : HeapAlloc} {m m' m₀ : Machine} {M' : Memory} {g g' : Ghost} {H H' : Heap} {t t' : Tracked}
  {T : Store} {e : Event} {hKey h : HKEY} {base : Addr} {b n : Id} {path : WStr} {v : Variant} {sub : Option WStr}
  {r : Reply}

/-! ## The invariant -/

/-- While the node is in the tree, the path leads to it. -/
def Leads (F : CaseFold) (H : Heap) (n : Id) (path : WStr) : Prop :=
  Linked H n → Walk F H Registry.regRoot (tokens path) n

/-- **The invariant** over memory, table and cache. -/
structure Traced (F : CaseFold) (g : Ghost) (H : Heap) (t : Tracked) : Prop where
  layout : Layout g t.machine.memory H
  wf : WF F H
  root : g.loc Registry.regRoot = t.machine.regRoot
  few : t.machine.tables.fakeKeys.length ≤ 2 ^ 29
  keyed : ∀ {e}, e ∈ t.machine.tables.fakeKeys → ∃ a p, e = ⟨some a, some p⟩
  rows : ∀ {i a p}, t.machine.tables.fakeKeys[i]? = some ⟨some a, some p⟩ → i ∉ t.freed →
    ∃ n, Live H n ∧ g.loc n = a ∧ (i ∉ t.cut → Leads F H n p)
  cache : ∀ {p h}, (p, h) ∈ t.machine.tables.handleCache →
    h ≠ FAKE_SERVICE_KEY ∧ ∃ a, t.machine.tables.fakeKeys[fakeIndex h]? = some ⟨some a, some p⟩

theorem traced_ready (h : Ready F m) : ∃ g H, Traced F g H ⟨m, [], []⟩ := by
  obtain ⟨⟨g, H, hl, hwf, hroot⟩, hrows, hcache⟩ := h
  exact ⟨g, H, hl, hwf, hroot, by simp [hrows], by simp [hrows], by simp [hrows], by simp [hcache]⟩

theorem ready_start {w : Bool} (h : Machine.start w heap = some m) : Ready F m := by
  refine ⟨shaped_start h, ?_, ?_⟩
  · obtain ⟨out, -, rfl⟩ := Option.map_eq_some_iff.1 h
    rfl
  · obtain ⟨out, -, rfl⟩ := Option.map_eq_some_iff.1 h
    rfl

theorem mem_freedRows {i : Nat} {a : Addr} {p : WStr} (hrow : m.tables.fakeKeys[i]? = some ⟨some a, some p⟩)
    (ha : ∃ b, deref m.memory a = some b) (hgone : deref M' a = none) : i ∈ freedRows m M' := by
  obtain ⟨b, hb⟩ := ha
  refine List.mem_filter.2 ⟨List.mem_range.2 (List.getElem?_eq_some_iff.1 hrow).1, ?_⟩
  simp [hrow, hb, hgone]

/-- More rows taken for freed or cut. -/
theorem Traced.more (hi : Traced F g H t) (rows rows' : List Nat) :
    Traced F g H ⟨t.machine, t.freed ++ rows, t.cut ++ rows'⟩ where
  layout := hi.layout
  wf := hi.wf
  root := hi.root
  few := hi.few
  keyed := hi.keyed
  rows := by
    intro i a p hrow hnot
    rw [List.mem_append, not_or] at hnot
    obtain ⟨n, hn, hloc, hleads⟩ := hi.rows hrow hnot.1
    exact ⟨n, hn, hloc, fun hcut => hleads fun hmem => hcut (List.mem_append_left _ hmem)⟩
  cache := hi.cache

/-- **A change of the tree alone** keeps the invariant if a node whose block is still there stays where it is, and the
paths that led to it still do. -/
theorem Traced.tree (hi : Traced F g H t) (hl : Layout g' M' H') (hwf : WF F H')
    (hroot : g'.loc Registry.regRoot = g.loc Registry.regRoot)
    (hkeep : ∀ n, Live H n → deref M' (g.loc n) ≠ none →
      Live H' n ∧ g'.loc n = g.loc n ∧ ∀ p, Leads F H n p → Leads F H' n p) (rows : List Nat) :
    Traced F g' H' ⟨{ t.machine with memory := M' }, t.freed ++ freedRows t.machine M', t.cut ++ rows⟩ where
  layout := hl
  wf := hwf
  root := hroot.trans hi.root
  few := hi.few
  keyed := hi.keyed
  rows := by
    intro i a p hrow hnot
    rw [List.mem_append, not_or] at hnot
    obtain ⟨n, hn, rfl, hleads⟩ := hi.rows hrow hnot.1
    obtain ⟨k, hk⟩ := id hn
    obtain ⟨b, hb, -⟩ := (hi.layout.node hk).key
    obtain ⟨hn', hloc, hleads'⟩ := hkeep n hn fun hgone => hnot.2 (mem_freedRows hrow ⟨b, hb⟩ hgone)
    exact ⟨n, hn', hloc, fun hcut => hleads' p (hleads fun hmem => hcut (List.mem_append_left _ hmem))⟩
  cache := hi.cache

/-- A row of the table after one was added is that one or an old one. -/
theorem row_append_cases {rows : List FakeKey} {x y : FakeKey} {i : Nat} (h : (rows ++ [y])[i]? = some x) :
    rows[i]? = some x ∨ (i = rows.length ∧ x = y) := by
  rcases Nat.lt_trichotomy i rows.length with hlt | rfl | hgt
  · rw [List.getElem?_append_left hlt] at h
    exact .inl h
  · rw [List.getElem?_concat_length] at h
    exact .inr ⟨rfl, (Option.some.inj h).symm⟩
  · rw [List.getElem?_eq_none (by simp; omega)] at h
    cases h

/-- **A new row**, and perhaps a cache entry for it. -/
theorem Traced.handOut (hi : Traced F g H t) (hn : Live H n)
    (ho : handOut F t.machine.tables (g.loc n) path = some (h, T))
    (hleads : t.machine.tables.fakeKeys.length ∉ t.cut → Leads F H n path) :
    Traced F g H ⟨{ t.machine with tables := T }, t.freed, t.cut⟩ := by
  have hrows : T.fakeKeys = t.machine.tables.fakeKeys ++ [⟨some (g.loc n), some path⟩] := (handOut_heap ho).2.1
  have hlt := (handOut_cases ho).1
  have hfew : T.fakeKeys.length ≤ 2 ^ 29 := by
    rw [hrows, List.length_append, List.length_singleton]
    exact hlt
  have hkeyed : ∀ {e}, e ∈ T.fakeKeys → ∃ a p, e = ⟨some a, some p⟩ := by
    intro e he
    rw [hrows] at he
    rcases List.mem_append.1 he with he | he
    · exact hi.keyed he
    · exact ⟨_, _, List.mem_singleton.1 he⟩
  have hold : ∀ {i a p}, T.fakeKeys[i]? = some ⟨some a, some p⟩ → i ∉ t.freed →
      ∃ n, Live H n ∧ g.loc n = a ∧ (i ∉ t.cut → Leads F H n p) := by
    intro i a p hrow hnot
    rw [hrows] at hrow
    rcases row_append_cases hrow with hrow | ⟨rfl, hnew⟩
    · exact hi.rows hrow hnot
    · cases hnew
      exact ⟨n, hn, rfl, hleads⟩
  have hcache : ∀ {p h'}, (p, h') ∈ T.handleCache →
      h' ≠ FAKE_SERVICE_KEY ∧ ∃ a, T.fakeKeys[fakeIndex h']? = some ⟨some a, some p⟩ := by
    intro p h' hmem
    rcases handOut_cache ho hmem with hmem | ⟨rfl, rfl⟩
    · obtain ⟨hne, a, hrow⟩ := hi.cache hmem
      exact ⟨hne, a, by rw [hrows, List.getElem?_append_left (List.getElem?_eq_some_iff.1 hrow).1, hrow]⟩
    · exact ⟨handle_ne_fake hlt, _, by rw [fakeIndex_handle hlt, hrows, List.getElem?_concat_length]⟩
  exact ⟨hi.layout, hi.wf, hi.root, hfew, hkeyed, hold, hcache⟩

/-! ## The tree behind a call -/

theorem Leads.mono {p : WStr} (h : Leads F H n p) (hlink : Linked H' n → Linked H n)
    (hwalk : ∀ ts, Linked H' n → Walk F H Registry.regRoot ts n → Walk F H' Registry.regRoot ts n) : Leads F H' n p :=
  fun hl => hwalk _ hl (h (hlink hl))

theorem leads_grow {p : WStr} (hwf : WF F H) (hwf' : WF F H') (hg : Grows H H') (hn : Live H n) (h : Leads F H n p) :
    Leads F H' n p := by
  obtain ⟨k, hk⟩ := hn
  exact h.mono (fun hl => hg.linked_old hwf hwf' hl (lt_of_deref hk)) fun _ _ => hg.walk

/-- The path of a key leads to it if the path of its base does. -/
theorem Leads.join {p red : WStr} (h : Leads F H b p) (hwf : WF F H) (hw : Walk F H b (tokens red) n)
    (hpath : tokens path = tokens p ++ tokens red) : Leads F H n path := by
  intro hl
  rw [hpath]
  exact walk_append.2 ⟨b, h (hl.of_walk hwf hw), hw⟩

/-- The node a call navigates from, with a path that leads to it. -/
theorem Traced.base_leads (hi : Traced F g H t) (hb : baseKey v t.machine hKey = some base) (hkept : fakeIndex hKey ∉ t.freed) :
    ∃ b p, Live H b ∧ g.loc b = base ∧ (fakeIndex hKey ∉ t.cut → Leads F H b p) ∧
      ∀ s, tokens (buildFullPath t.machine.tables hKey s) = tokens p ++ tokens s := by
  unfold baseKey at hb
  split at hb
  · next hr =>
    obtain ⟨k, hk, -⟩ := hi.wf.root
    refine ⟨Registry.regRoot, [], ⟨k, hk⟩, hi.root.trans (Option.some.inj hb), fun _ _ => rfl, fun s => ?_⟩
    rw [buildFullPath, if_pos (mem_roots hr)]
    rfl
  · obtain ⟨-, e, he, hkey⟩ := handleToKey_eq_some.1 hb
    obtain ⟨a, p, rfl⟩ := hi.keyed (List.mem_of_getElem? he)
    obtain rfl : a = base := Option.some.inj hkey
    obtain ⟨b, hlive, hloc, hleads⟩ := hi.rows he hkept
    refine ⟨b, p, hlive, hloc, hleads, fun s => ?_⟩
    rw [fullPath_of_row hi.few hb he]
    split
    · next hnil =>
      rw [hnil]
      simp
    · exact tokens_append p s

/-! ## Creating and opening -/

/-- **What a create or open has done** that hands out a handle of the table: the tree has grown, by nothing if it was an
open, and the path leads from the base to the key handed out. -/
structure HandedOut (F : CaseFold) (g : Ghost) (H : Heap) (m : Machine) (v : Variant) (hKey : HKEY) (sub : Option WStr)
    (h : HKEY) (m' : Machine) (g' : Ghost) (H' : Heap) (b n : Id) : Prop where
  base : baseKey v m hKey = some (g.loc b)
  live : Live H b
  layout : Layout g' m'.memory H'
  wf : WF F H'
  grows : Grows H H'
  loc : ∀ j, Live H j → g'.loc j = g.loc j
  walk : Walk F H' b (walked F m.tables hKey sub) n
  tables : handOut F m.tables (g'.loc n) (fullPathOf F m.tables hKey sub) = some (h, m'.tables)
  root : m'.regRoot = m.regRoot

section
variable (hl : Layout g m.memory H) (hwf : WF F H)
  (hbase : ∀ a, baseKey v m hKey = some a → ∃ b, Live H b ∧ g.loc b = a)
include hl hwf hbase

/-- `RegCreateKeyExW` and `RegCreateKeyW` -/
theorem regCreateKey_spec (hcall : regCreateKey F heap v m hKey sub = some (r, m')) :
    (m' = m ∧ ∀ h d, r ≠ .key h d) ∨
    ∃ h d g' H' b n, r = .key h d ∧ HandedOut F g H m v hKey sub h m' g' H' b n := by
  unfold regCreateKey at hcall
  simp only [navigatePath_tokens] at hcall
  split at hcall
  · cases hcall
    refine .inl ⟨rfl, fun h d he => ?_⟩
    cases v <;> cases he
  · next base hb =>
    obtain ⟨b, hlive, rfl⟩ := hbase base hb
    obtain ⟨d, -, hcall⟩ := Option.bind_eq_some_iff.1 hcall
    split at hcall
    · cases hcall
    · next M' hnav =>
      obtain ⟨g', o, H', hnav', ho, -⟩ := navTokens_layout (fun t ht => mem_tokens ht) hl hwf hlive hnav
      obtain ⟨n, hn, -⟩ := navTokens_create hwf (fun t ht => mem_tokens ht) hnav'
      obtain rfl : o = some n := hn
      cases ho
    · next a M' hnav =>
      obtain ⟨g', o, H', hnav', ho, hl', -, hloc⟩ := navTokens_layout (fun t ht => mem_tokens ht) hl hwf hlive hnav
      obtain ⟨n, hn, hwf', hg, hw⟩ := navTokens_create hwf (fun t ht => mem_tokens ht) hnav'
      obtain rfl : o = some n := hn
      cases ho
      obtain ⟨out, hout, he⟩ := Option.map_eq_some_iff.1 hcall
      cases he
      exact .inr ⟨_, _, g', H', b, n, rfl, hb, hlive, hl', hwf', hg, hloc, hw, hout, rfl⟩

/-- `RegOpenKeyExW` and `RegOpenKeyW` -/
theorem regOpenKey_spec (hcall : regOpenKey F heap v m hKey sub = some (r, m')) :
    (m' = m ∧ ∀ h d, r = .key h d → h = FAKE_SERVICE_KEY) ∨
    ∃ h d g' H' b n, r = .key h d ∧ HandedOut F g H m v hKey sub h m' g' H' b n := by
  unfold regOpenKey at hcall
  split at hcall
  · cases hcall
    refine .inl ⟨rfl, fun h d he => ?_⟩
    cases he
    rfl
  · simp only [navigatePath_tokens] at hcall
    split at hcall
    · cases hcall
      refine .inl ⟨rfl, fun h d he => ?_⟩
      cases v <;> cases he
    · next base hb =>
      obtain ⟨b, hlive, rfl⟩ := hbase base hb
      split at hcall
      · cases hcall
      · cases hcall
        refine .inl ⟨rfl, fun h d he => ?_⟩
        cases he
      · next a M' hnav =>
        obtain rfl := navTokens_look hnav
        obtain ⟨g', o, H', hnav', ho, hl', -, hloc⟩ := navTokens_layout (fun t ht => mem_tokens ht) hl hwf hlive hnav
        rcases navTokens_open hwf hnav' with ⟨n, hn, hw⟩ | ⟨hn, -⟩
        · cases hn
          cases ho
          obtain ⟨out, hout, he⟩ := Option.map_eq_some_iff.1 hcall
          cases he
          exact .inr ⟨_, _, g', H, b, n, rfl, hb, hlive, hl', hwf, Grows.refl, hloc, hw, hout, rfl⟩
        · cases hn
          cases ho

end

/-- The path kept for the key leads to it, if it was not cut. -/
theorem Traced.leads (hi : Traced F g H t) (hkept : fakeIndex hKey ∉ t.freed)
    (ho : HandedOut F g H t.machine v hKey sub h m' g' H' b n) (huncut : Uncut F t hKey sub) :
    Leads F H' n (fullPathOf F t.machine.tables hKey sub) := by
  have hw := ho.walk
  rw [huncut.2] at hw
  obtain ⟨b', p, hlive, hloc, hleads, hpath⟩ := hi.base_leads ho.base hkept
  obtain rfl : b' = b := hi.layout.loc_inj hlive ho.live hloc
  exact (leads_grow hi.wf ho.wf ho.grows hlive (hleads huncut.1)).join ho.wf hw (hpath _)

/-- The invariant after a create or open that has handed out a handle. -/
theorem Traced.handed (hi : Traced F g H t) (hkept : fakeIndex hKey ∉ t.freed)
    (ho : HandedOut F g H t.machine v hKey sub h m' g' H' b n) (he : walks e.call = some (hKey, sub)) :
    Traced F g' H' ⟨m', t.freed ++ freedRows t.machine m'.memory, t.cut ++ cutRows F t e m'⟩ := by
  have hcut : t.machine.tables.fakeKeys.length ∉ t.cut ++ cutRows F t e m' →
      Leads F H' n (fullPathOf F t.machine.tables hKey sub) := by
    intro hnot
    refine hi.leads hkept ho ?_
    by_contra huncut
    refine hnot (List.mem_append_right _ ?_)
    simp only [cutRows, he, if_neg huncut, (handOut_heap ho.tables).2.1, List.length_append, List.length_singleton,
      Nat.add_sub_cancel_left, List.range'_one, List.mem_singleton]
  obtain ⟨r, hr, -⟩ := hi.wf.root
  have htree := hi.tree ho.layout ho.wf (ho.loc _ ⟨r, hr⟩)
    (fun j hj _ => ⟨ho.grows.live hj, ho.loc j hj, fun p hp => leads_grow hi.wf ho.wf ho.grows hj hp⟩) (cutRows F t e m')
  have hout := htree.handOut (ho.walk.live (ho.grows.live ho.live)) ho.tables hcut
  obtain ⟨T, M', root⟩ := m'
  obtain rfl : root = t.machine.regRoot := ho.root
  exact hout

/-! ## Runs -/

/-- The node a row points to whose key has not been freed. -/
theorem Traced.node (hi : Traced F g H t) {a : Addr} (hh : handleToKey t.machine.tables hKey = some a)
    (hkept : fakeIndex hKey ∉ t.freed) : ∃ n k, deref H n = some k ∧ g.loc n = a := by
  obtain ⟨-, e, he, hkey⟩ := handleToKey_eq_some.1 hh
  obtain ⟨a', p, rfl⟩ := hi.keyed (List.mem_of_getElem? he)
  obtain rfl : a' = a := Option.some.inj hkey
  obtain ⟨n, ⟨k, hk⟩, hloc, -⟩ := hi.rows he hkept
  exact ⟨n, k, hk, hloc⟩

/-- Other values of a key. -/
theorem Traced.setValues (hi : Traced F g H t) {k : RegKey} (hk : deref H n = some k) {vs : List RegValue}
    (hd : Assoc.Distinct (valueKey F) vs) (hl : Layout g' M' (setValues H n k vs)) (hloc : g'.loc = g.loc)
    (rows : List Nat) : Traced F g' (Registry.setValues H n k vs)
      ⟨{ t.machine with memory := M' }, t.freed ++ freedRows t.machine M', t.cut ++ rows⟩ := by
  refine hi.tree hl (setValues_wf hk hi.wf hd) (by rw [hloc]) ?_ rows
  rintro j ⟨c, hc⟩ -
  obtain ⟨ws, hc'⟩ := deref_setValues_old hk vs hc
  exact ⟨⟨_, hc'⟩, by rw [hloc], fun p hp => hp.mono (linked_setValues hk).1 fun _ _ => (walk_setValues hk).2⟩

/-- A key less. -/
theorem Traced.unlink (hi : Traced F g H t) {k : RegKey} {j : Id} (hk : deref H n = some k) (hj : j ∈ k.children)
    (hl : Layout g M' (Registry.unlink H n k j)) (hgone : deref M' (g.loc j) = none) (rows : List Nat) :
    Traced F g (Registry.unlink H n k j)
      ⟨{ t.machine with memory := M' }, t.freed ++ freedRows t.machine M', t.cut ++ rows⟩ := by
  refine hi.tree hl (unlink_wf hi.wf hk hj) rfl ?_ rows
  rintro i ⟨c, hc⟩ hblock
  have hij : i ≠ j := by
    rintro rfl
    exact hblock hgone
  exact ⟨⟨_, deref_unlink_of_ne hi.wf hk hj hij hc⟩, rfl,
    fun p hp => hp.mono (Linked.of_unlink hi.wf hk hj) fun _ hl hw => walk_unlink hi.wf hk hj hw hl⟩

/-- What a call leaves is in the invariant again. -/
def Survives (F : CaseFold) (t : Tracked) (e : Event) (m' : Machine) : Prop :=
  ∃ g' H', Traced F g' H' ⟨m', t.freed ++ freedRows t.machine m'.memory, t.cut ++ cutRows F t e m'⟩

section
variable (hi : Traced F g H t) (hkept : fakeIndex hKey ∉ t.freed)
include hi hkept

theorem Traced.live_base {a : Addr} (hb : baseKey v t.machine hKey = some a) : ∃ b, Live H b ∧ g.loc b = a := by
  obtain ⟨b, -, hlive, hloc, -⟩ := hi.base_leads hb hkept
  exact ⟨b, hlive, hloc⟩

theorem traced_createKey (he : walks e.call = some (hKey, sub))
    (hcall : regCreateKey F heap v t.machine hKey sub = some (r, m')) : Survives F t e m' := by
  rcases regCreateKey_spec hi.layout hi.wf (fun a => hi.live_base hkept) hcall with ⟨rfl, -⟩ | ⟨h, d, g', H', b, n, -, ho⟩
  · exact ⟨g, H, hi.more _ _⟩
  · exact ⟨g', H', hi.handed hkept ho he⟩

theorem traced_openKey (he : walks e.call = some (hKey, sub))
    (hcall : regOpenKey F heap v t.machine hKey sub = some (r, m')) : Survives F t e m' := by
  rcases regOpenKey_spec hi.layout hi.wf (fun a => hi.live_base hkept) hcall with ⟨rfl, -⟩ | ⟨h, d, g', H', b, n, -, ho⟩
  · exact ⟨g, H, hi.more _ _⟩
  · exact ⟨g', H', hi.handed hkept ho he⟩

theorem traced_setValue {name : Option WStr} {type : UInt32} {data : List UInt8}
    (hcall : hookRegSetValueExW F heap t.machine hKey name type data = some (r, m')) : Survives F t e m' := by
  unfold hookRegSetValueExW at hcall
  split at hcall
  · cases hcall
    exact ⟨g, H, hi.more _ _⟩
  · split at hcall
    · cases hcall
      exact ⟨g, H, hi.more _ _⟩
    · next key hh =>
      obtain ⟨n, k, hk, rfl⟩ := hi.node hh hkept
      obtain ⟨M, hset, he⟩ := Option.map_eq_some_iff.1 hcall
      cases he
      obtain ⟨g', hl', hloc⟩ := setValue_layout hi.layout hi.wf hk hset
      exact ⟨g', _, hi.setValues hk (putValue_distinct (hi.wf.values hk)) hl' hloc _⟩

theorem traced_deleteValue {name : Option WStr} (hcall : hookRegDeleteValueW F t.machine hKey name = some (r, m')) :
    Survives F t e m' := by
  unfold hookRegDeleteValueW at hcall
  split at hcall
  · cases hcall
    exact ⟨g, H, hi.more _ _⟩
  · split at hcall
    · cases hcall
      exact ⟨g, H, hi.more _ _⟩
    · next key hh =>
      obtain ⟨n, k, hk, rfl⟩ := hi.node hh hkept
      obtain ⟨⟨found, M⟩, hdel, he⟩ := Option.map_eq_some_iff.1 hcall
      cases he
      rcases deleteValue_layout hi.layout hi.wf hk hdel with ⟨-, rfl⟩ | ⟨g', hl', hloc⟩
      · exact ⟨g, H, hi.more _ _⟩
      · exact ⟨g', _, hi.setValues hk (hi.wf.values hk).erase hl' hloc _⟩

theorem traced_deleteKey {sub : WStr} (hcall : hookRegDeleteKeyW F t.machine hKey sub = some (r, m')) :
    Survives F t e m' := by
  unfold hookRegDeleteKeyW at hcall
  split at hcall
  · cases hcall
    exact ⟨g, H, hi.more _ _⟩
  · split at hcall
    · cases hcall
      exact ⟨g, H, hi.more _ _⟩
    · next key hh =>
      obtain ⟨n, k, hk, rfl⟩ := hi.node hh hkept
      obtain ⟨⟨found, M⟩, hdel, he⟩ := Option.map_eq_some_iff.1 hcall
      cases he
      rcases deleteKey_layout hi.layout hi.wf hk hdel with ⟨-, rfl⟩ | ⟨j, -, hj, hl', hgone⟩
      · exact ⟨g, H, hi.more _ _⟩
      · exact ⟨g, _, hi.unlink hk hj hl' hgone _⟩

end

/-- **One call** that is sound. -/
theorem traced_step (hi : Traced F g H t) (hs : Sound t e) (h : Tracked.step F t e = some t') :
    ∃ g' H', Traced F g' H' t' := by
  obtain ⟨m', hstep, rfl⟩ := Option.map_eq_some_iff.1 h
  clear h
  show Survives F t e m'
  have hlooks : some t.machine = some m' → Survives F t e m' := by
    rintro ⟨⟩
    exact ⟨g, H, hi.more _ _⟩
  have hdelete : ∀ {hKey sub}, worksOn e.call = some hKey →
      (hookRegDeleteKeyW F t.machine hKey sub).map Prod.snd = some m' → Survives F t e m' := by
    intro hKey sub hc h
    obtain ⟨⟨r, τ⟩, hd, rfl⟩ := Option.map_eq_some_iff.1 h
    exact traced_deleteKey hi (hs hKey hc) hd
  obtain ⟨heap, c⟩ := e
  cases c with
  | reg d =>
    cases d with
    | createKey v hKey sub =>
      obtain ⟨⟨r, τ⟩, hd, rfl⟩ := Option.map_eq_some_iff.1 hstep
      exact traced_createKey hi (hs hKey rfl) rfl hd
    | openKey v hKey sub =>
      obtain ⟨⟨r, τ⟩, hd, rfl⟩ := Option.map_eq_some_iff.1 hstep
      exact traced_openKey hi (hs hKey rfl) rfl hd
    | setValue hKey name type data =>
      obtain ⟨⟨r, τ⟩, hd, rfl⟩ := Option.map_eq_some_iff.1 hstep
      exact traced_setValue hi (hs hKey rfl) hd
    | deleteValue hKey name =>
      obtain ⟨⟨r, τ⟩, hd, rfl⟩ := Option.map_eq_some_iff.1 hstep
      exact traced_deleteValue hi (hs hKey rfl) hd
    | deleteKey hKey sub => exact hdelete rfl hstep
    | queryValue hKey name data size => exact hlooks hstep
  | deleteKeyEx hKey sub => exact hdelete rfl hstep
  | deleteTree hKey sub => exact hdelete rfl hstep
  | getValue hKey sub value flags data size =>
    simp only [Raw.step, hook] at hstep
    split at hstep
    · exact hlooks hstep
    · obtain ⟨⟨r, τ⟩, hd, rfl⟩ := Option.map_eq_some_iff.1 hstep
      exact traced_openKey hi (hs hKey rfl) rfl hd
  | _ => exact hlooks hstep

theorem traced_run {es : List Event} (h₀ : Ready F m₀) (hrun : Lts.run (Tracked.step F) ⟨m₀, [], []⟩ es = some t)
    (hs : Lts.Guarded (Tracked.step F) Sound ⟨m₀, [], []⟩ es) : ∃ g H, Traced F g H t := by
  refine hs.invariant (I := fun t => ∃ g H, Traced F g H t) ?_ (traced_ready h₀) hrun
  rintro t e t' ⟨g, H, hi⟩ hsound hstep
  exact traced_step hi hsound hstep

/-! ## The handle of a create or open -/

/-- `NavigatePath` without `create` ends where the tokens lead. -/
theorem navTokens_walk {M : Memory} {ts : List WStr} (hl : Layout g M H) (hwf : WF F H) (hlive : Live H b)
    (hw : Walk F H b ts n) : navTokens F heap false M (g.loc b) ts = some (some (g.loc n), M) := by
  induction ts generalizing b with
  | nil =>
    obtain rfl : b = n := hw
    rfl
  | cons t ts ih =>
    obtain ⟨j, hj, hw⟩ := hw
    obtain ⟨k, hk⟩ := hlive
    rcases childOf_layout hl hwf hk t with ⟨pre, j', post, -, hj', hraw⟩ | ⟨hno, -⟩
    · obtain rfl := hj.unique hwf hj'
      simp only [navTokens, hraw]
      exact ih hj.live hw
    · exact absurd hj (hno j)

/-- The key of the handle cached for a path is where that path leads, while it is in the tree. -/
theorem Traced.cached_leads (hi : Traced F g H t) (hc : cached F t.machine.tables path = some h)
    (hkept : fakeIndex h ∉ t.freed) (huncut : fakeIndex h ∉ t.cut) :
    ∃ n, handleToKey t.machine.tables h = some (g.loc n) ∧ Live H n ∧ Leads F H n path := by
  obtain ⟨⟨p, h'⟩, hfind, rfl⟩ := Option.map_eq_some_iff.1 hc
  have hfold : F.fold p = F.fold path := by simpa using List.find?_some hfind
  obtain ⟨hne, a, hrow⟩ := hi.cache (List.mem_of_find?_eq_some hfind)
  obtain ⟨n, hn, rfl, hleads⟩ := hi.rows hrow hkept
  exact ⟨n, handleToKey_eq_some.2 ⟨hne, _, hrow, rfl⟩, hn, fun hl => (hleads huncut hl).congr (tokens_of_fold_eq hfold)⟩

/-- What the search among the values of a node finds. -/
theorem value_found {M : Memory} (hl : Layout g M H) (hwf : WF F H) {k : RegKey} (hk : deref H n = some k) {name : WStr}
    {type : UInt32} {data : List UInt8} (hv : Registry.valueOf F k name = some (type, data)) :
    ∃ prev a spelt, valueOf F M (g.loc n) name = some (prev, some a) ∧ a ∈ g.cells n ∧
      F.fold spelt = F.fold name ∧ IsValue M a ⟨spelt, type, data⟩ := by
  obtain ⟨⟨spelt, type', data'⟩, hfind, hv⟩ := Option.map_eq_some_iff.1 hv
  obtain ⟨rfl, rfl⟩ : type = type' ∧ data = data' := Prod.mk.inj hv.symm
  have hd := hwf.values hk
  rcases valueOf_layout hl hk F name with
    ⟨pre, a, post, vpre, w, vpost, hcells, hvalues, -, hw, -, -, hname, hval⟩ | ⟨hno, -⟩
  · have hmem : w ∈ k.values := by simp [hvalues]
    obtain rfl := Option.some.inj (((Assoc.find_eq_some hd).2 ⟨hmem, hname⟩).symm.trans hfind)
    exact ⟨_, a, spelt, hval, by simp [hcells], hname, hw⟩
  · obtain ⟨hmem, hkey⟩ := (Assoc.find_eq_some hd).1 hfind
    exact absurd hkey (hno _ hmem)

/-- **A value of a key in the tree** is saved, in the record of the key. -/
theorem value_saved {M : Memory} (hl : Layout g M H) (hwf : WF F H) {k : RegKey} (hk : deref H n = some k)
    (hlinked : Linked H n) {a : Addr} (ha : a ∈ g.cells n) :
    ∃ image record fuel w, (∃ m, ∀ fuel, m ≤ fuel → saveRegistry M fuel (g.loc Registry.regRoot) = some image) ∧
      saveKeyToFile M fuel (g.loc n) = some record ∧ record <:+: image ∧ writeValueAt M a = some w ∧ w <:+: record := by
  obtain ⟨path, hp⟩ := hlinked
  obtain ⟨r, hr, -⟩ := hwf.root
  obtain ⟨ws, hws⟩ := saveKeyToFile_total hl hwf _ ⟨r, hr⟩ (Nat.le_add_left _ _)
  obtain ⟨fuel, record, hrecord, hin⟩ := saveKeyToFile_walk hl hwf hp hws
  obtain ⟨w, hw, hin'⟩ := saveKeyToFile_value hl hwf hk ha hrecord
  refine ⟨dword regfileMagic :: ws, record, fuel, w, ⟨H.length, fun fuel' hle => ?_⟩, hrecord,
    hin.trans (List.suffix_cons _ _).isInfix, hw, hin'⟩
  rw [saveRegistry, saveKeyToFile_mono hws hle, Option.map_some]

/-- A value set through a handle that denotes the key at a path is found there, and saved. -/
theorem found_of_set (hl : Layout g m.memory H) (hwf : WF F H) (hroot : g.loc Registry.regRoot = m.regRoot)
    (hlive : Live H b) (hw : Walk F H b (tokens (lstrcpynW path 512)) n) (hlinked : Linked H n)
    (hh : handleToKey m.tables h = some (g.loc n)) {name : Option WStr} {type : UInt32} {data : List UInt8}
    (hdata : data.length < 2 ^ 32) (hcall : hookRegSetValueExW F heap m h name type data = some (r, m')) :
    Found F heap m' (g.loc b) path (name.getD []) type data := by
  obtain ⟨k, hk⟩ := hlinked.live hwf
  unfold hookRegSetValueExW at hcall
  rw [if_neg (handleToKey_eq_some.1 hh).1, hh] at hcall
  obtain ⟨M, hset, he⟩ := Option.map_eq_some_iff.1 hcall
  cases he
  obtain ⟨g', hl', hloc⟩ := setValue_layout hl hwf hk hset
  have hwf' : WF F (setValues H n k (putValue F (name.getD []) type data k.values)) :=
    setValues_wf hk hwf (putValue_distinct (hwf.values hk))
  have hk' : deref (setValues H n k (putValue F (name.getD []) type data k.values)) n =
      some { k with values := putValue F (name.getD []) type data k.values } := deref_setValues_self hk
  have hlive' : Live (setValues H n k (putValue F (name.getD []) type data k.values)) b := by
    obtain ⟨c, hc⟩ := hlive
    obtain ⟨ws, hc'⟩ := deref_setValues_old hk _ hc
    exact ⟨_, hc'⟩
  have hlinked' : Linked (setValues H n k (putValue F (name.getD []) type data k.values)) n :=
    (linked_setValues hk).2 hlinked
  obtain ⟨prev, a, spelt, hval, hmem, hspelt, hvalue⟩ := value_found hl' hwf' hk' (Registry.valueOf_put_self rfl)
  obtain ⟨image, record, fuel, w, himage, hrecord, hin, hwrite, hin'⟩ := value_saved hl' hwf' hk' hlinked' hmem
  obtain ⟨w', hw', hsame⟩ := writeValueAt_of_isValue hvalue
  obtain rfl := Option.some.inj (hwrite.symm.trans hw')
  rw [hsame hdata] at hin'
  obtain ⟨c, hc, -, -, htype, -, hbytes⟩ := hvalue
  refine ⟨g'.loc n, prev, a, c, ?_, ?_, hval, hc, htype, hbytes, image, record, fuel, spelt, ?_, hrecord, hin, hspelt, hin'⟩
  · rw [← hloc, navigatePath_tokens]
    exact navTokens_walk hl' hwf' hlive' ((walk_setValues hk).2 hw)
  · rw [← hroot, ← hloc]
    exact (hl'.inTree_iff hwf').2 ⟨n, hlinked', rfl⟩
  · rw [← hroot, ← hloc]
    exact himage

/-- After a create or open, `NavigatePath` leads from the base to the node handed out. -/
theorem HandedOut.navigate {a : Addr} (ho : HandedOut F g H m v hKey sub h m' g' H' b n) :
    navigatePath F heap false m'.memory (g.loc b) (redirectSubKey F m.tables.isWow64 hKey (sub.getD [])) =
      some (some a, m'.memory) ↔ a = g'.loc n := by
  have hnav : navTokens F heap false m'.memory (g'.loc b)
      (tokens (lstrcpynW (redirectSubKey F m.tables.isWow64 hKey (sub.getD [])) 512)) = some (some (g'.loc n), m'.memory) :=
    navTokens_walk ho.layout ho.wf (ho.grows.live ho.live) ho.walk
  rw [ho.loc b ho.live] at hnav
  rw [navigatePath_tokens, hnav]
  simp [eq_comm]

/-- The node handed out is in the tree if the base was. -/
theorem HandedOut.linked (ho : HandedOut F g H m v hKey sub h m' g' H' b n) (hwf : WF F H) :
    Linked H' n ↔ Linked H b := by
  obtain ⟨k, hk⟩ := ho.live
  constructor
  · intro hl
    exact ho.grows.linked_old hwf ho.wf (hl.of_walk ho.wf ho.walk) (lt_of_deref hk)
  · intro hl
    exact (ho.grows.linked hl).walk ho.walk

/-- **What the handle is of**: the node handed out, or the one the cached handle is of. The two are the same if both
are in the tree, since the path leads to both. -/
theorem HandedOut.denotes (ho : HandedOut F g H t.machine v hKey sub h m' g' H' b n) (hi : Traced F g H t)
    (hkept : fakeIndex hKey ∉ t.freed) (hcached : CacheKept F t hKey sub) :
    (handleToKey m'.tables h = some (g'.loc n) ∧ Linked H' n) ↔
      Linked H b ∧ CacheInTree F t.machine (fullPathOf F t.machine.tables hKey sub) := by
  have hrows := (handOut_heap ho.tables).2.1
  rw [← ho.linked hi.wf]
  obtain ⟨hlt, ⟨hhit, -⟩ | ⟨hmiss, hnew, -⟩⟩ := handOut_cases ho.tables
  · obtain ⟨hkept', hcut, huncut⟩ := hcached h hhit
    obtain ⟨j, hj, hlive, hjleads⟩ := hi.cached_leads hhit hkept' hcut
    have hh : handleToKey m'.tables h = some (g'.loc j) := by
      rw [ho.loc j hlive]
      exact handleToKey_append hrows hj
    have htree : CacheInTree F t.machine (fullPathOf F t.machine.tables hKey sub) ↔ Linked H j := by
      rw [← hi.layout.inTree_loc hi.wf hlive, hi.root]
      constructor
      · exact fun htree => htree h _ hhit hj
      · intro hin h' a hc ha
        obtain rfl := Option.some.inj (hhit.symm.trans hc)
        rwa [← Option.some.inj (hj.symm.trans ha)]
    rw [htree, hh]
    constructor
    · rintro ⟨heq, hl⟩
      obtain rfl := ho.layout.loc_inj (ho.grows.live hlive) (hl.live ho.wf) (Option.some.inj heq)
      obtain ⟨k, hk⟩ := hlive
      exact ⟨hl, ho.grows.linked_old hi.wf ho.wf hl (lt_of_deref hk)⟩
    · rintro ⟨hl, hlj⟩
      obtain rfl := (ho.grows.walk (hjleads hlj)).unique ho.wf (hi.leads hkept ho huncut hl)
      exact ⟨rfl, hl⟩
  · have hh : handleToKey m'.tables h = some (g'.loc n) := by
      rw [hnew]
      exact handleToKey_new hrows hlt rfl
    refine ⟨fun hl => ⟨hl.2, fun h' a hc => ?_⟩, fun hl => ⟨hh, hl.1⟩⟩
    rw [hmiss] at hc
    cases hc

/-- **A returned handle denotes the key at its path** exactly when the base and the key of the handle cached for the
path are in the tree, in every run in which no call goes through the handle of a freed key; then a value written
through it is found under that path again and saved. -/
theorem handle_denotes_iff (h₀ : Ready F m₀) (es : List Event)
    (hrun : Lts.run (Tracked.step F) ⟨m₀, [], []⟩ es = some t)
    (hs : Lts.Guarded (Tracked.step F) Sound ⟨m₀, [], []⟩ es) (heap : HeapAlloc) (v : Variant) (hKey : HKEY)
    (sub : Option WStr) (hkept : fakeIndex hKey ∉ t.freed) (hcached : CacheKept F t hKey sub) {d : Option Disposition}
    (hcall : regCreateKey F heap v t.machine hKey sub = some (.key h d, m') ∨
      regOpenKey F heap v t.machine hKey sub = some (.key h d, m')) (hne : h ≠ FAKE_SERVICE_KEY) :
    ∃ base, baseKey v t.machine hKey = some base ∧
      (Denotes F heap m' base (redirectSubKey F t.machine.tables.isWow64 hKey (sub.getD [])) h ↔
        InTree t.machine.memory t.machine.regRoot base ∧
          CacheInTree F t.machine (fullPathOf F t.machine.tables hKey sub)) ∧
      (Denotes F heap m' base (redirectSubKey F t.machine.tables.isWow64 hKey (sub.getD [])) h →
        ∀ heap' name type data r m'', data.length < 2 ^ 32 →
          hookRegSetValueExW F heap' m' h name type data = some (r, m'') →
            Found F heap' m'' base (redirectSubKey F t.machine.tables.isWow64 hKey (sub.getD [])) (name.getD []) type
              data) := by
  obtain ⟨g, H, hi⟩ := traced_run h₀ hrun hs
  have hbase : ∀ a, baseKey v t.machine hKey = some a → ∃ b, Live H b ∧ g.loc b = a := fun a => hi.live_base hkept
  obtain ⟨g', H', b, n, ho⟩ : ∃ g' H' b n, HandedOut F g H t.machine v hKey sub h m' g' H' b n := by
    rcases hcall with hcall | hcall
    · rcases regCreateKey_spec hi.layout hi.wf hbase hcall with ⟨-, hno⟩ | ⟨h', d', g', H', b, n, he, ho⟩
      · exact absurd rfl (hno h d)
      · cases he
        exact ⟨g', H', b, n, ho⟩
    · rcases regOpenKey_spec hi.layout hi.wf hbase hcall with ⟨-, hfake⟩ | ⟨h', d', g', H', b, n, he, ho⟩
      · exact absurd (hfake h d rfl) hne
      · cases he
        exact ⟨g', H', b, n, ho⟩
  obtain ⟨r, hr, -⟩ := hi.wf.root
  have hroot : g'.loc Registry.regRoot = m'.regRoot := (ho.loc _ ⟨r, hr⟩).trans (hi.root.trans ho.root.symm)
  have hdenotes : Denotes F heap m' (g.loc b) (redirectSubKey F t.machine.tables.isWow64 hKey (sub.getD [])) h ↔
      handleToKey m'.tables h = some (g'.loc n) ∧ Linked H' n := by
    have hlive := ho.walk.live (ho.grows.live ho.live)
    have htree := ho.layout.inTree_loc ho.wf hlive
    rw [hroot] at htree
    constructor
    · rintro ⟨a, ha, hnav, hin⟩
      obtain rfl := ho.navigate.1 hnav
      exact ⟨ha, htree.1 hin⟩
    · rintro ⟨ha, hl⟩
      exact ⟨_, ha, ho.navigate.2 rfl, htree.2 hl⟩
  refine ⟨g.loc b, ho.base, ?_, ?_⟩
  · rw [hdenotes, ho.denotes hi hkept hcached, ← hi.root, hi.layout.inTree_loc hi.wf ho.live]
  · intro hd heap' name type data r m'' hdata hset
    obtain ⟨hh, hl⟩ := hdenotes.1 hd
    rw [← ho.loc b ho.live]
    exact found_of_set ho.layout ho.wf hroot (ho.grows.live ho.live) ho.walk hl hh hdata hset

/-- A key opened again under another spelling, through the cache, and a value set. -/
theorem handle_denotes_respelt : ∃ m₀ t m' m'', Machine.start false lowest = some m₀ ∧
    Lts.run (Tracked.step asciiFold) ⟨m₀, [], []⟩
      [⟨lowest, .reg (.createKey .ex HKEY_LOCAL_MACHINE (some (wide "A")))⟩] = some t ∧
    regOpenKey asciiFold lowest .ex t.machine HKEY_CURRENT_USER (some (wide "a")) = some (.key 0x30000000 none, m') ∧
    Denotes asciiFold lowest m' t.machine.regRoot (wide "a") 0x30000000 ∧
    hookRegSetValueExW asciiFold lowest m' 0x30000000 (some (wide "x")) 4 [1, 0, 0, 0] = some (.status .success, m'') ∧
    Found asciiFold lowest m'' t.machine.regRoot (wide "a") (wide "x") 4 [1, 0, 0, 0] := by
  obtain ⟨m₀, t, m', m'', h₀, hrun, hfreed, hcut, hcall, hset, hwalked, hred, hcached, hkey, hchild, hlast⟩ :
      ∃ m₀ t m' m'', Machine.start false lowest = some m₀ ∧
        Lts.run (Tracked.step asciiFold) ⟨m₀, [], []⟩
          [⟨lowest, .reg (.createKey .ex HKEY_LOCAL_MACHINE (some (wide "A")))⟩] = some t ∧
        t.freed = [] ∧ t.cut = [] ∧
        regOpenKey asciiFold lowest .ex t.machine HKEY_CURRENT_USER (some (wide "a")) = some (.key 0x30000000 none, m') ∧
        hookRegSetValueExW asciiFold lowest m' 0x30000000 (some (wide "x")) 4 [1, 0, 0, 0] =
          some (.status .success, m'') ∧
        walked asciiFold t.machine.tables HKEY_CURRENT_USER (some (wide "a")) = tokens (wide "a") ∧
        redirectSubKey asciiFold t.machine.tables.isWow64 HKEY_CURRENT_USER (wide "a") = wide "a" ∧
        cached asciiFold t.machine.tables (fullPathOf asciiFold t.machine.tables HKEY_CURRENT_USER (some (wide "a"))) =
          some 0x30000000 ∧
        handleToKey t.machine.tables 0x30000000 = some 2 ∧
        nextAt Block.child t.machine.memory t.machine.regRoot = some (some 2) ∧
        nextAt Block.sibling t.machine.memory 2 = some none :=
    ⟨_, _, _, _, rfl, rfl, rfl, rfl, rfl, rfl, rfl, rfl, rfl, rfl, rfl, rfl⟩
  have hs : Lts.Guarded (Tracked.step asciiFold) Sound ⟨m₀, [], []⟩
      [⟨lowest, .reg (.createKey .ex HKEY_LOCAL_MACHINE (some (wide "A")))⟩] := ⟨fun _ _ => by simp, fun _ _ => trivial⟩
  have hkept : CacheKept asciiFold t HKEY_CURRENT_USER (some (wide "a")) := by
    intro h _
    simp [hfreed, hcut, Uncut, hwalked, hred]
  obtain ⟨base, hb, hiff, hfound⟩ := handle_denotes_iff (ready_start h₀) _ hrun hs lowest .ex HKEY_CURRENT_USER
    (some (wide "a")) (by simp [hfreed]) hkept (.inr hcall) (by decide)
  obtain rfl : t.machine.regRoot = base := Option.some.inj hb
  rw [Option.getD_some, hred] at hiff hfound
  have hchildren : Children t.machine.memory t.machine.regRoot [2] := ⟨some 2, hchild, rfl, none, hlast, rfl⟩
  have hd : Denotes asciiFold lowest m' t.machine.regRoot (wide "a") 0x30000000 := by
    refine hiff.2 ⟨.root, fun h a hc ha => ?_⟩
    obtain rfl := Option.some.inj (hcached.symm.trans hc)
    obtain rfl := Option.some.inj (hkey.symm.trans ha)
    exact .child .root hchildren (by simp)
  exact ⟨m₀, t, m', m'', h₀, hrun, hcall, hd, hset, hfound hd lowest (some (wide "x")) 4 _ _ _ (by decide) hset⟩

/-- Key `A` created, the root opened, `A` deleted through it, and `B` created in the block that was that of `A`. -/
def recreatedSession : List Event :=
  [⟨lowest, .reg (.createKey .ex HKEY_LOCAL_MACHINE (some (wide "A")))⟩,
   ⟨lowest, .reg (.openKey .ex HKEY_LOCAL_MACHINE none)⟩,
   ⟨lowest, .reg (.deleteKey 0x30000001 (wide "A"))⟩,
   ⟨lowest, .reg (.createKey .ex HKEY_LOCAL_MACHINE (some (wide "B")))⟩]

/-- **A handle to another key**: created again, `A` is a new node, but the handle returned is the old one, and its row
points to `B`. -/
theorem other_key_denoted : ∃ m₀ m m', Machine.start false lowest = some m₀ ∧
    Lts.run (Raw.step asciiFold) m₀ recreatedSession = some m ∧
    regCreateKey asciiFold lowest .ex m HKEY_LOCAL_MACHINE (some (wide "A")) =
      some (.key 0x30000000 (some .createdNewKey), m') ∧
    baseKey .ex m HKEY_LOCAL_MACHINE = some m'.regRoot ∧
    handleToKey m'.tables 0x30000000 = some 2 ∧ nameAt m'.memory 2 = some (.text (wide "B")) ∧
    navigatePath asciiFold lowest false m'.memory m'.regRoot (wide "A") = some (some 3, m'.memory) ∧
    ¬ Denotes asciiFold lowest m' m'.regRoot (wide "A") 0x30000000 := by
  refine ⟨_, _, _, rfl, rfl, rfl, rfl, rfl, rfl, rfl, ?_⟩
  rintro ⟨a, ha, hnav, -⟩
  cases ha
  cases hnav

end Rvpn.Registry.Raw
