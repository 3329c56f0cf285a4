import Rvpn.Registry.Layout

/-!
# The shape of the tree over whole runs

`RegDeleteKeyW` frees a node and leaves its rows in the handle table and its entries in the cache. As long as no call
that changes the tree goes through such a row, what memory holds is a heap in the sense of `Layout`, and so a
well-formed tree (`wellFormed_run`). The heap may choose its addresses as it likes, also those of freed nodes: a row
that has come to point to another key is harmless.

It is not if the row has come to point to a value. Then the `next` of that value is taken for the list of values of
the key, and a value set through the row is linked behind it, in the list of another key (`duplicate_value`). It takes
no careless caller: the handle is the one that creating the key again has returned.
-/

namespace Rvpn.Registry.Raw

open Cells Threads

/-- The handle that a call changes the tree through. -/
def changes : ApiCall → Option HKEY
  | .reg (.createKey _ hKey _) | .reg (.setValue hKey ..) | .reg (.deleteValue hKey _) | .reg (.deleteKey hKey _)
  | .deleteKeyEx hKey _ | .deleteTree hKey _ => some hKey
  | _ => none

/-- The row of that handle points to a key: one that `CreateKey` has made and `RegDeleteKeyW` has not freed. -/
def OnKey (m : Machine) (e : Event) : Prop :=
  ∀ hKey a, changes e.call = some hKey → handleToKey m.tables hKey = some a →
    ∃ b, deref m.memory a = some b ∧ b.kind = .key

/-- **The invariant**: memory holds a well-formed heap, its root where `g_regRoot` points. -/
def Shaped (F : CaseFold) (m : Machine) : Prop :=
  ∃ g H, Layout g m.memory H ∧ WF F H ∧ g.loc Registry.regRoot = m.regRoot

variable {F : CaseFold} {heap : HeapAlloc} {m m' m₀ : Machine} {M M' : Memory} {e : Event} {hKey : HKEY} {a : Addr}

/-! ## Calls that look -/

theorem navTokens_look {cur : Addr} {ts : List WStr} {o : Option Addr}
    (h : navTokens F heap false M cur ts = some (o, M')) : M' = M := by
  induction ts generalizing cur with
  | nil =>
    cases h
    rfl
  | cons t ts ih =>
    unfold navTokens at h
    split at h
    · cases h
    · exact ih h
    · cases h
      rfl

theorem navigatePath_tokens {create : Bool} {base : Addr} {path : WStr} :
    navigatePath F heap create M base path = navTokens F heap create M base (tokens (lstrcpynW path 512)) := by
  unfold navigatePath
  split
  · next h => simp [h, lstrcpynW, navTokens]
  · rfl

/-- An open leaves memory as it is. -/
theorem openKey_look {v : Variant} {sub : Option WStr} {r : Reply} (h : regOpenKey F heap v m hKey sub = some (r, m')) :
    m'.memory = m.memory ∧ m'.regRoot = m.regRoot := by
  unfold regOpenKey at h
  split at h
  · cases h
    exact ⟨rfl, rfl⟩
  · simp only [navigatePath_tokens] at h
    split at h
    · cases h
      exact ⟨rfl, rfl⟩
    · split at h
      · cases h
      · cases h
        exact ⟨rfl, rfl⟩
      · next hnav =>
        obtain ⟨out, -, hout⟩ := Option.map_eq_some_iff.1 h
        cases hout
        exact ⟨navTokens_look hnav, rfl⟩

theorem Shaped.look (hs : Shaped F m) (h : m'.memory = m.memory ∧ m'.regRoot = m.regRoot) : Shaped F m' := by
  obtain ⟨g, H, hl, hwf, hroot⟩ := hs
  rw [← h.1] at hl
  rw [← h.2] at hroot
  exact ⟨g, H, hl, hwf, hroot⟩

/-! ## Calls that change the tree -/

/-- The node at the root, or in a row that points to a key. -/
theorem Layout.node_at {g : Ghost} {H : Heap} (hl : Layout g M H) (hkey : ∃ b, deref M a = some b ∧ b.kind = .key) :
    ∃ i k, deref H i = some k ∧ g.loc i = a := by
  obtain ⟨b, hb, hkind⟩ := hkey
  obtain ⟨i, ⟨k, hk⟩, hloc⟩ := hl.complete hb hkind
  exact ⟨i, k, hk, hloc⟩

theorem shaped_createKey {v : Variant} {sub : Option WStr} {r : Reply} (hs : Shaped F m)
    (hkey : ∀ a, handleToKey m.tables hKey = some a → ∃ b, deref m.memory a = some b ∧ b.kind = .key)
    (h : regCreateKey F heap v m hKey sub = some (r, m')) : Shaped F m' := by
  obtain ⟨g, H, hl, hwf, hroot⟩ := hs
  unfold regCreateKey at h
  simp only [navigatePath_tokens] at h
  split at h
  · cases h
    exact ⟨g, H, hl, hwf, hroot⟩
  · next base hbase =>
    obtain ⟨i, k, hk, rfl⟩ : ∃ i k, deref H i = some k ∧ g.loc i = base := by
      unfold baseKey at hbase
      split at hbase
      · cases hbase
        obtain ⟨k, hk, -⟩ := hwf.root
        exact ⟨Registry.regRoot, k, hk, hroot⟩
      · exact hl.node_at (hkey _ hbase)
    obtain ⟨d, -, h⟩ := Option.bind_eq_some_iff.1 h
    have hnav : ∀ {o M'}, navTokens F heap true m.memory (g.loc i)
        (tokens (lstrcpynW (redirectSubKey F m.tables.isWow64 hKey (sub.getD [])) 512)) = some (o, M') →
        ∃ g' H', Layout g' M' H' ∧ WF F H' ∧ g'.loc Registry.regRoot = m.regRoot := by
      intro o M' hn
      obtain ⟨g', n, H', -, -, hl', hwf', hloc⟩ := navTokens_layout (fun t ht => mem_tokens ht) hl hwf ⟨k, hk⟩ hn
      obtain ⟨r, hr, -⟩ := hwf.root
      exact ⟨g', H', hl', hwf', (hloc _ ⟨r, hr⟩).trans hroot⟩
    split at h
    · cases h
    · next hn =>
      cases h
      exact hnav hn
    · next hn =>
      obtain ⟨out, -, hout⟩ := Option.map_eq_some_iff.1 h
      cases hout
      exact hnav hn

theorem shaped_setValue {name : Option WStr} {type : UInt32} {data : List UInt8} {r : Reply} (hs : Shaped F m)
    (hkey : ∀ a, handleToKey m.tables hKey = some a → ∃ b, deref m.memory a = some b ∧ b.kind = .key)
    (h : hookRegSetValueExW F heap m hKey name type data = some (r, m')) : Shaped F m' := by
  obtain ⟨g, H, hl, hwf, hroot⟩ := hs
  unfold hookRegSetValueExW at h
  split at h
  · cases h
    exact ⟨g, H, hl, hwf, hroot⟩
  · split at h
    · cases h
      exact ⟨g, H, hl, hwf, hroot⟩
    · next key hh =>
      obtain ⟨i, k, hk, rfl⟩ := hl.node_at (hkey _ hh)
      obtain ⟨M, hset, hout⟩ := Option.map_eq_some_iff.1 h
      cases hout
      obtain ⟨g', hl', hloc⟩ := setValue_layout hl hwf hk hset
      exact ⟨g', _, hl', setValues_wf hk hwf (putValue_distinct (hwf.values hk)), by rw [hloc]; exact hroot⟩

theorem shaped_deleteValue {name : Option WStr} {r : Reply} (hs : Shaped F m)
    (hkey : ∀ a, handleToKey m.tables hKey = some a → ∃ b, deref m.memory a = some b ∧ b.kind = .key)
    (h : hookRegDeleteValueW F m hKey name = some (r, m')) : Shaped F m' := by
  obtain ⟨g, H, hl, hwf, hroot⟩ := hs
  unfold hookRegDeleteValueW at h
  split at h
  · cases h
    exact ⟨g, H, hl, hwf, hroot⟩
  · split at h
    · cases h
      exact ⟨g, H, hl, hwf, hroot⟩
    · next key hh =>
      obtain ⟨i, k, hk, rfl⟩ := hl.node_at (hkey _ hh)
      obtain ⟨⟨found, M⟩, hdel, hout⟩ := Option.map_eq_some_iff.1 h
      cases hout
      rcases deleteValue_layout hl hwf hk hdel with ⟨-, rfl⟩ | ⟨g', hl', hloc⟩
      · exact ⟨g, H, hl, hwf, hroot⟩
      · exact ⟨g', _, hl', setValues_wf hk hwf (hwf.values hk).erase, by rw [hloc]; exact hroot⟩

theorem shaped_deleteKey {sub : WStr} {r : Reply} (hs : Shaped F m)
    (hkey : ∀ a, handleToKey m.tables hKey = some a → ∃ b, deref m.memory a = some b ∧ b.kind = .key)
    (h : hookRegDeleteKeyW F m hKey sub = some (r, m')) : Shaped F m' := by
  obtain ⟨g, H, hl, hwf, hroot⟩ := hs
  unfold hookRegDeleteKeyW at h
  split at h
  · cases h
    exact ⟨g, H, hl, hwf, hroot⟩
  · split at h
    · cases h
      exact ⟨g, H, hl, hwf, hroot⟩
    · next key hh =>
      obtain ⟨i, k, hk, rfl⟩ := hl.node_at (hkey _ hh)
      obtain ⟨⟨found, M⟩, hdel, hout⟩ := Option.map_eq_some_iff.1 h
      cases hout
      rcases deleteKey_layout hl hwf hk hdel with ⟨-, rfl⟩ | ⟨j, -, hj, hl', -⟩
      · exact ⟨g, H, hl, hwf, hroot⟩
      · exact ⟨g, _, hl', unlink_wf hwf hk hj, hroot⟩

/-- **One call** through a row that points to a key, or one that only looks. -/
theorem shaped_step (hs : Shaped F m) (hkey : OnKey m e) (h : step F m e = some m') : Shaped F m' := by
  obtain ⟨heap, c⟩ := e
  have hdelete : ∀ {hKey sub}, changes c = some hKey → (hookRegDeleteKeyW F m hKey sub).map Prod.snd = some m' →
      Shaped F m' := by
    intro hKey sub hc h
    obtain ⟨⟨r, τ⟩, hd, rfl⟩ := Option.map_eq_some_iff.1 h
    exact shaped_deleteKey hs (fun a => hkey hKey a hc) hd
  cases c with
  | reg d =>
    cases d with
    | createKey v hKey sub =>
      obtain ⟨⟨r, τ⟩, hd, rfl⟩ := Option.map_eq_some_iff.1 h
      exact shaped_createKey hs (fun a => hkey hKey a rfl) hd
    | openKey v hKey sub =>
      obtain ⟨⟨r, τ⟩, hd, rfl⟩ := Option.map_eq_some_iff.1 h
      exact hs.look (openKey_look hd)
    | setValue hKey name type data =>
      obtain ⟨⟨r, τ⟩, hd, rfl⟩ := Option.map_eq_some_iff.1 h
      exact shaped_setValue hs (fun a => hkey hKey a rfl) hd
    | deleteValue hKey name =>
      obtain ⟨⟨r, τ⟩, hd, rfl⟩ := Option.map_eq_some_iff.1 h
      exact shaped_deleteValue hs (fun a => hkey hKey a rfl) hd
    | deleteKey hKey sub => exact hdelete rfl h
    | queryValue hKey name data size => exact Option.some.inj h ▸ hs
  | deleteKeyEx hKey sub => exact hdelete rfl h
  | deleteTree hKey sub => exact hdelete rfl h
  | getValue hKey sub value flags data size =>
    simp only [step, hook] at h
    split at h
    · exact Option.some.inj h ▸ hs
    · obtain ⟨⟨r, τ⟩, hd, rfl⟩ := Option.map_eq_some_iff.1 h
      exact hs.look (openKey_look hd)
  | _ => exact Option.some.inj h ▸ hs

/-! ## Runs -/

theorem shaped_start {w : Bool} (h : Machine.start w heap = some m) : Shaped F m := by
  obtain ⟨⟨root, M⟩, hc, rfl⟩ := Option.map_eq_some_iff.1 h
  simp only [createKey, Option.bind_eq_bind, Option.bind_eq_some_iff] at hc
  obtain ⟨root', -, hc⟩ := hc
  cases hc
  -- the heap with the root alone, and the memory with its block alone
  have hroot : ∀ {i k}, deref emptyHeap i = some k → i = Registry.regRoot ∧ k = ⟨[], none, [], []⟩ := by
    intro i k hk
    have hi : i = 0 := by
      have := lt_of_deref hk
      simp only [emptyHeap, List.length_singleton] at this
      omega
    subst hi
    cases hk
    exact ⟨rfl, rfl⟩
  have hblock : ∀ {b : Block}, deref (place [] root b) root = some b := deref_place_self
  refine ⟨⟨fun _ => root, fun _ => [], fun _ => Registry.regRoot⟩, emptyHeap, ⟨?_, ?_⟩, emptyHeap_wf, rfl⟩
  · intro i k hk
    obtain ⟨rfl, rfl⟩ := hroot hk
    exact {
      key := ⟨_, hblock, rfl, rfl⟩
      children := ⟨none, by rw [nextAt, hblock]; rfl, rfl⟩
      parents := by simp
      values := ⟨none, by rw [nextAt, hblock]; rfl, rfl⟩
      cells := .nil
      nodup := .nil
      owner_loc := rfl
      owner_cell := by simp }
  · intro a b hb _
    have ha : a = root := by
      by_contra hne
      rw [deref_place_ne hne] at hb
      cases hb
    exact ⟨Registry.regRoot, ⟨_, rfl⟩, ha.symm⟩

/-- **The tree stays well formed** in every run in which no call changes it through a row whose key has been freed. -/
theorem wellFormed_run {w : Bool} {es : List Event} (h₀ : Machine.start w heap = some m₀)
    (hrun : Lts.run (step F) m₀ es = some m) (hkeys : Lts.Guarded (step F) OnKey m₀ es) :
    WellFormed F m.memory m.regRoot := by
  have hs : Shaped F m := by
    refine hkeys.invariant (I := Shaped F) ?_ (shaped_start h₀) hrun
    intro m e m' hs hkey h
    exact shaped_step hs hkey h
  obtain ⟨g, H, hl, hwf, hroot⟩ := hs
  rw [← hroot]
  exact hl.wellFormed hwf

/-- A heap that picks the lowest free address. -/
def lowest : HeapAlloc where
  pick M := ((List.range (M.length + 1)).map (· + 1)).find? fun a => (deref M a).isNone
  fresh h := by simpa using List.find?_some h

/-- Key `A` created, and a value set in it. -/
theorem wellFormed_run_value : ∃ m₀ m, Machine.start false lowest = some m₀ ∧
    Lts.run (step asciiFold) m₀ [⟨lowest, .reg (.createKey .ex HKEY_LOCAL_MACHINE (some (wide "A")))⟩,
      ⟨lowest, .reg (.setValue 0x30000000 (some (wide "x")) 4 [1, 0, 0, 0])⟩] = some m ∧
    WellFormed asciiFold m.memory m.regRoot := by
  have hrun : ∃ m₀ m₁ m, Machine.start false lowest = some m₀ ∧ handleToKey m₀.tables HKEY_LOCAL_MACHINE = none ∧
      step asciiFold m₀ ⟨lowest, .reg (.createKey .ex HKEY_LOCAL_MACHINE (some (wide "A")))⟩ = some m₁ ∧
      handleToKey m₁.tables 0x30000000 = some 2 ∧ ((deref m₁.memory 2).map Block.kind) = some .key ∧
      step asciiFold m₁ ⟨lowest, .reg (.setValue 0x30000000 (some (wide "x")) 4 [1, 0, 0, 0])⟩ = some m :=
    ⟨_, _, _, rfl, rfl, rfl, rfl, rfl, rfl⟩
  obtain ⟨m₀, m₁, m, h₀, hroot, h₁, hhandle, hkind, h₂⟩ := hrun
  have hcreate : OnKey m₀ ⟨lowest, .reg (.createKey .ex HKEY_LOCAL_MACHINE (some (wide "A")))⟩ := by
    rintro hKey a ⟨⟩ ha
    rw [hroot] at ha
    cases ha
  have hset : OnKey m₁ ⟨lowest, .reg (.setValue 0x30000000 (some (wide "x")) 4 [1, 0, 0, 0])⟩ := by
    rintro hKey a ⟨⟩ ha
    rw [hhandle] at ha
    cases ha
    exact Option.map_eq_some_iff.1 hkind
  have hrun := Lts.run_cons.2 ⟨m₁, h₁, Lts.run_cons.2 ⟨m, h₂, Lts.run_nil m⟩⟩
  exact ⟨m₀, m, h₀, hrun, wellFormed_run h₀ hrun (.cons hcreate h₁ (.cons hset h₂ trivial))⟩

/-- Key `A` is created and deleted through the root, then a value `x` set in the root: its block is the one of `A`. `A`
is created again, and a value set in it through the handle returned. -/
def reusedSession : List Event :=
  [⟨lowest, .reg (.createKey .ex HKEY_LOCAL_MACHINE (some (wide "A")))⟩,
   ⟨lowest, .reg (.openKey .ex HKEY_LOCAL_MACHINE none)⟩,
   ⟨lowest, .reg (.deleteKey 0x30000001 (wide "A"))⟩,
   ⟨lowest, .reg (.setValue 0x30000001 (some (wide "x")) 4 [1, 0, 0, 0])⟩,
   ⟨lowest, .reg (.createKey .ex HKEY_LOCAL_MACHINE (some (wide "A")))⟩,
   ⟨lowest, .reg (.setValue 0x30000000 (some (wide "x")) 4 [2, 0, 0, 0])⟩]

/-- **A freed node that has become a value**: the second value is linked behind the first, and the root has two of one
name. -/
theorem duplicate_value : ∃ m₀ m, Machine.start false lowest = some m₀ ∧
    Lts.run (step asciiFold) m₀ reusedSession = some m ∧ ¬ WellFormed asciiFold m.memory m.regRoot := by
  have hrun : ∃ m₀ m, Machine.start false lowest = some m₀ ∧ Lts.run (step asciiFold) m₀ reusedSession = some m ∧
      nextAt Block.values m.memory m.regRoot = some (some 2) ∧
      nextAt Block.next m.memory 2 = some (some 4) ∧ nextAt Block.next m.memory 4 = some none ∧
      nameAt m.memory 2 = some (.text (wide "x")) ∧ nameAt m.memory 4 = some (.text (wide "x")) :=
    ⟨_, _, rfl, rfl, rfl, rfl, rfl, rfl, rfl⟩
  obtain ⟨m₀, m, h₀, hrun, hroot, hnext, hlast, hname, hname'⟩ := hrun
  refine ⟨m₀, m, h₀, hrun, fun hwf => ?_⟩
  obtain ⟨vs, names, ⟨p, hp, hseg⟩, hnames, hdistinct⟩ := hwf.values .root
  rw [hroot] at hp
  cases hp
  obtain rfl : vs = [2, 4] := hseg.unique ⟨rfl, _, hnext, rfl, _, hlast, rfl⟩
  obtain rfl : names = [wide "x", wide "x"] := by
    have hinj : Function.Injective fun s : WStr => some (Word.text s) := by
      intro s t hst
      cases hst
      rfl
    refine List.map_injective_iff.2 hinj (hnames.symm.trans ?_)
    simp [hname, hname']
  simp at hdistinct

end Rvpn.Registry.Raw
