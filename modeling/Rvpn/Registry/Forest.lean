import Mathlib.Algebra.Order.BigOperators.Group.List
import Rvpn.Registry.Hooks

/-!
# The tree as a value

A well-formed heap spells out a forest of keys with their values. `Rep` ties a sibling list of the heap
to the forest it spells, in list order or, for a tree that was loaded, with every list turned round.

* `wf_represents` — a well-formed heap that fits into memory represents an encodable forest, and what
  `SaveKeyToFile` writes for it is the encoding of that forest;
* `Rep.at_iff` — the keys and values of the forest are those a walk over the heap meets, whichever way
  the lists are turned;
* `SameRegistry` — two heaps with the same key paths and the same values at each.
-/

namespace Rvpn.Registry

open Cells Bytes

/-- Keys in sibling order: a name, its values, the subkeys, the next siblings. -/
inductive Forest where
  | nil
  | cons (name : WStr) (values : List RegValue) (kids sibs : Forest)

namespace Forest

def length : Forest → Nat
  | nil => 0
  | cons _ _ _ sibs => sibs.length + 1

/-- How deep the keys are nested. -/
def depth : Forest → Nat
  | nil => 0
  | cons _ _ kids sibs => max (kids.depth + 1) sibs.depth

/-- The names of the top row. -/
def names : Forest → List WStr
  | nil => []
  | cons name _ _ sibs => name :: sibs.names

/-- The records of a row of keys, in the file's format. -/
def encode : Forest → Writes
  | nil => []
  | cons name values kids sibs => keyRecord name values kids.length kids.encode ++ sibs.encode

/-- What makes a forest loadable: proper names, told apart among siblings and among the values of a key,
and every number of a record within its DWORD. -/
def Ok (F : CaseFold) : Forest → Prop
  | nil => True
  | cons name values kids sibs =>
    (name ≠ [] ∧ bslash ∉ name) ∧ (∀ n ∈ sibs.names, F.fold name ≠ F.fold n) ∧
    Assoc.Distinct (valueKey F) values ∧ nodeBytes name kids.length values < 2 ^ 32 ∧ kids.Ok F ∧ sibs.Ok F

/-- What the record codec needs of a forest: the values of a key told apart, every number within its DWORD. -/
def Codable (F : CaseFold) : Forest → Prop
  | nil => True
  | cons name values kids sibs =>
    Assoc.Distinct (valueKey F) values ∧ nodeBytes name kids.length values < 2 ^ 32 ∧ kids.Codable F ∧ sibs.Codable F

theorem Ok.codable {F : CaseFold} {f : Forest} (h : f.Ok F) : f.Codable F := by
  induction f with
  | nil => trivial
  | cons name values kids sibs ihk ihs =>
    obtain ⟨-, -, hd, hb, hkids, hsibs⟩ := h
    exact ⟨hd, hb, ihk hkids, ihs hsibs⟩

/-- There is a key with these values at the path. -/
def At : Forest → List WStr → List RegValue → Prop
  | nil, _, _ => False
  | cons name values kids sibs, path, vs =>
    (path = [name] ∧ vs = values) ∨ (∃ q, path = name :: q ∧ kids.At q vs) ∨ sibs.At path vs

end Forest

/-- A list, turned round or not. -/
def turn {α : Type} (m : Bool) (l : List α) : List α := if m then l.reverse else l

@[simp] theorem mem_turn {α : Type} {m : Bool} {a : α} {l : List α} : a ∈ turn m l ↔ a ∈ l := by
  cases m <;> simp [turn]

/-- **The heap spells the forest**: one node for each key, its value and child lists turned by `m`. -/
inductive Rep (m : Bool) (H : Heap) : List Id → Forest → Prop
  | nil : Rep m H [] .nil
  | cons {i : Id} {is cids : List Id} {k : RegKey} {vs : List RegValue} {kids sibs : Forest}
      (hk : deref H i = some k) (hv : k.values = turn m vs) (hc : k.children = turn m cids)
      (hkids : Rep m H cids kids) (hsibs : Rep m H is sibs) : Rep m H (i :: is) (.cons k.name vs kids sibs)

variable {F : CaseFold} {H H' : Heap} {m : Bool} {is : List Id} {f : Forest} {i j p : Id} {k c : RegKey}

theorem Rep.length (h : Rep m H is f) : is.length = f.length := by
  induction h with
  | nil => rfl
  | cons hk hv hc hkids hsibs ihk ihs => simp [Forest.length, ihs]

theorem Rep.mem_names (h : Rep m H is f) {n : WStr} (hn : n ∈ f.names) :
    ∃ i ∈ is, ∃ k, deref H i = some k ∧ k.name = n := by
  induction h with
  | nil => cases hn
  | cons hk hv hc hkids hsibs ihk ihs =>
    rcases List.mem_cons.1 hn with rfl | hn
    · exact ⟨_, List.mem_cons_self, _, hk, rfl⟩
    · obtain ⟨i, hi, hrest⟩ := ihs hn
      exact ⟨i, List.mem_cons_of_mem _ hi, hrest⟩

/-- A change at `p`, above all the nodes of the forest, leaves the representation alone. -/
theorem Rep.frame (hwf : WF F H) (hsame : ∀ i c, i ≠ p → deref H i = some c → deref H' i = some c)
    (h : Rep m H is f) (hp : ∀ i ∈ is, p < i) : Rep m H' is f := by
  induction h with
  | nil => exact .nil
  | @cons i is cids k vs kids sibs hk hv hc hkids hsibs ihk ihs =>
    have hi : p < i := hp i List.mem_cons_self
    refine .cons (hsame i k (Nat.ne_of_gt hi) hk) hv hc (ihk fun j hj => ?_)
      (ihs fun j hj => hp j (List.mem_cons_of_mem _ hj))
    have hj' : j ∈ k.children := by rw [hc]; exact mem_turn.2 hj
    exact hi.trans (hwf.child hk hj').1

/-! ## Saving a forest -/

theorem bytes_le (hk : deref H i = some k) : k.bytes ≤ H.bytes := by
  have hmem : some k ∈ H := by
    obtain ⟨c, hc, rfl⟩ : ∃ c, H[i]? = some c ∧ c = some k := by
      simpa [deref, Option.join_eq_some_iff] using hk
    exact List.mem_of_getElem? hc
  exact List.le_sum_of_mem (List.mem_map.2 ⟨some k, hmem, rfl⟩)

/-- **What `SaveKeyToFile` writes**: the encoding of the forest the nodes represent. -/
theorem wf_represents (hwf : WF F H) (hfit : H.Fits) (fuel : Nat) :
    ∀ is : List Id, (∀ i ∈ is, (∃ k, deref H i = some k) ∧ H.length ≤ i + fuel) →
      (∀ i ∈ is, ∀ c, deref H i = some c → c.name ≠ [] ∧ bslash ∉ c.name) → is.Nodup →
      (∀ i ∈ is, ∀ j ∈ is, ∀ c d, deref H i = some c → deref H j = some d → F.fold c.name = F.fold d.name → i = j) →
      ∃ f ws, Rep false H is f ∧ f.Ok F ∧ is.mapM (saveKeyToFile H fuel) = some ws ∧ ws.flatten = f.encode := by
  induction fuel with
  | zero =>
    intro is hlive _ _ _
    cases is with
    | nil => exact ⟨.nil, [], .nil, trivial, rfl, rfl⟩
    | cons i is =>
      obtain ⟨⟨k, hk⟩, hle⟩ := hlive i (by simp)
      exact absurd (lt_of_deref hk) (Nat.not_lt_of_le hle)
  | succ fuel ih =>
    intro is
    induction is with
    | nil => exact fun _ _ _ _ => ⟨.nil, [], .nil, trivial, rfl, rfl⟩
    | cons i is ihs =>
      intro hlive hname hnodup hdiff
      obtain ⟨⟨k, hk⟩, hle⟩ := hlive i (by simp)
      have hnd := List.nodup_cons.1 hnodup
      obtain ⟨sibs, ws, hsibs, hok, hws, hwse⟩ := ihs (fun j hj => hlive j (by simp [hj]))
        (fun j hj => hname j (by simp [hj])) hnd.2
        (fun a ha b hb => hdiff a (by simp [ha]) b (by simp [hb]))
      -- the children are deeper by one, so the smaller bound does for them
      obtain ⟨kids, ks, hkids, hkok, hks, hkse⟩ := ih k.children
        (fun j hj => by
          obtain ⟨hlt, c, hc, -⟩ := hwf.child hk hj
          exact ⟨⟨c, hc⟩, by omega⟩)
        (fun j hj c hc => by
          obtain ⟨-, c', hc', -, hrest⟩ := hwf.child hk hj
          obtain rfl := Option.some.inj (hc'.symm.trans hc)
          exact hrest)
        (hwf.nodup hk) (fun a ha b hb c d hc hd => hwf.unique hk ha hb hc hd)
      have hlen : k.children.length = kids.length := hkids.length
      have hsave : saveKeyToFile H (fuel + 1) i = some (keyRecord k.name k.values kids.length kids.encode) := by
        simp [saveKeyToFile, hk, hks, hkse, hlen]
      refine ⟨.cons k.name k.values kids sibs, keyRecord k.name k.values kids.length kids.encode :: ws,
        .cons hk rfl rfl hkids hsibs, ⟨hname i (by simp) k hk, ?_, hwf.values hk, ?_, hkok, hok⟩, ?_, ?_⟩
      · intro n hn he
        obtain ⟨j, hj, d, hd, rfl⟩ := hsibs.mem_names hn
        have hij := hdiff i (by simp) j (by simp [hj]) k d hk hd he
        exact hnd.1 (hij ▸ hj)
      · have hb := bytes_le hk
        rw [RegKey.bytes, hlen] at hb
        exact hb.trans_lt hfit
      · simp [List.mapM_cons, hsave, hws]
      · rw [List.flatten_cons, hwse, Forest.encode]

/-! ## Keys and values by path -/

/-- There is a key at the path of names. -/
def HasKey (H : Heap) (path : List WStr) : Prop := ∃ i, KeyAt H path i

/-- The key at the path has this name, type and data among its values. -/
def HasValue (H : Heap) (path : List WStr) (v : RegValue) : Prop :=
  ∃ i k, KeyAt H path i ∧ deref H i = some k ∧ v ∈ k.values

/-- The same set of key paths, and at each the same set of values. -/
def SameRegistry (H H' : Heap) : Prop :=
  (∀ path, HasKey H path ↔ HasKey H' path) ∧ ∀ path v, HasValue H path v ↔ HasValue H' path v

/-- **The forest says what walks find**: a key of the forest is a node of the row or one below it. -/
theorem Rep.at_iff (h : Rep m H is f) {path : List WStr} {ws : List RegValue} :
    (∃ vs, f.At path vs ∧ ws = turn m vs) ↔
      ∃ t q i c n k, path = t :: q ∧ i ∈ is ∧ deref H i = some c ∧ c.name = t ∧ Walk exactly H i q n ∧
        deref H n = some k ∧ ws = k.values := by
  induction h generalizing path with
  | nil => simp [Forest.At]
  | @cons i is cids k vs kids sibs hk hv hc hkids hsibs ihk ihs =>
    constructor
    · rintro ⟨us, ⟨rfl, rfl⟩ | ⟨q, rfl, hq⟩ | hs, rfl⟩
      · exact ⟨k.name, [], i, k, i, k, rfl, by simp, hk, rfl, rfl, hk, hv.symm⟩
      · obtain ⟨t, q', j, c, n, d, rfl, hj, hcj, rfl, hw, hn, hd⟩ := ihk.1 ⟨us, hq, rfl⟩
        have hj' : j ∈ k.children := by rw [hc]; exact mem_turn.2 hj
        exact ⟨k.name, c.name :: q', i, k, n, d, rfl, by simp, hk, rfl,
          ⟨j, ⟨k, c, hk, hj', hcj, rfl⟩, hw⟩, hn, hd⟩
      · obtain ⟨t, q', j, c, n, d, rfl, hj, hrest⟩ := ihs.1 ⟨us, hs, rfl⟩
        exact ⟨t, q', j, c, n, d, rfl, by simp [hj], hrest⟩
    · rintro ⟨t, q, j, c, n, d, rfl, hj, hcj, rfl, hw, hn, rfl⟩
      rcases List.mem_cons.1 hj with rfl | hj
      · obtain rfl : k = c := Option.some.inj (hk.symm.trans hcj)
        cases q with
        | nil =>
          obtain rfl : j = n := hw
          obtain rfl : k = d := Option.some.inj (hk.symm.trans hn)
          exact ⟨vs, .inl ⟨rfl, rfl⟩, hv⟩
        | cons u q =>
          obtain ⟨l, ⟨k', e, hk', hl, hel, hu⟩, hw⟩ := hw
          obtain rfl : k = k' := Option.some.inj (hk.symm.trans hk')
          rw [fold_exactly, fold_exactly] at hu
          have hl' : l ∈ cids := by rw [hc] at hl; exact mem_turn.1 hl
          obtain ⟨us, hat, hus⟩ := ihk.2 ⟨u, q, l, e, n, d, rfl, hl', hel, hu, hw, hn, rfl⟩
          exact ⟨us, .inr (.inl ⟨u :: q, rfl, hat⟩), hus⟩
      · obtain ⟨us, hat, hus⟩ := ihs.2 ⟨c.name, q, j, c, n, d, rfl, hj, hcj, rfl, hw, hn, rfl⟩
        exact ⟨us, .inr (.inr hat), hus⟩

/-- The tree below the root, by its forest. -/
theorem Rep.keyAt_iff (hr : deref H regRoot = some k) (hc : k.children = turn m is) (h : Rep m H is f)
    {path : List WStr} {ws : List RegValue} :
    (∃ n c, KeyAt H path n ∧ deref H n = some c ∧ ws = c.values) ↔
      (path = [] ∧ ws = k.values) ∨ ∃ vs, f.At path vs ∧ ws = turn m vs := by
  constructor
  · rintro ⟨n, c, hw, hn, rfl⟩
    cases path with
    | nil =>
      obtain rfl : regRoot = n := hw
      obtain rfl : k = c := Option.some.inj (hr.symm.trans hn)
      exact .inl ⟨rfl, rfl⟩
    | cons t q =>
      obtain ⟨j, ⟨k', d, hk', hj, hd, ht⟩, hw⟩ := hw
      obtain rfl : k = k' := Option.some.inj (hr.symm.trans hk')
      rw [fold_exactly, fold_exactly] at ht
      rw [hc, mem_turn] at hj
      exact .inr (h.at_iff.2 ⟨t, q, j, d, n, c, rfl, hj, hd, ht, hw, hn, rfl⟩)
  · rintro (⟨rfl, rfl⟩ | hat)
    · exact ⟨regRoot, k, rfl, hr, rfl⟩
    · obtain ⟨t, q, j, d, n, c, rfl, hj, hd, rfl, hw, hn, rfl⟩ := h.at_iff.1 hat
      have hj' : j ∈ k.children := by rw [hc]; exact mem_turn.2 hj
      exact ⟨n, c, ⟨j, ⟨k, d, hr, hj', hd, rfl⟩, hw⟩, hn, rfl⟩

theorem hasKey_iff (hwf : WF F H) {path : List WStr} :
    HasKey H path ↔ ∃ ws n c, KeyAt H path n ∧ deref H n = some c ∧ ws = c.values := by
  constructor
  · rintro ⟨n, hn⟩
    obtain ⟨c, hc⟩ := Linked.live hwf ⟨path, hn⟩
    exact ⟨_, n, c, hn, hc, rfl⟩
  · rintro ⟨-, n, -, hn, -⟩
    exact ⟨n, hn⟩

theorem hasValue_iff {path : List WStr} {v : RegValue} :
    HasValue H path v ↔ ∃ ws, (∃ n c, KeyAt H path n ∧ deref H n = some c ∧ ws = c.values) ∧ v ∈ ws := by
  constructor
  · rintro ⟨n, c, hn, hc, hv⟩
    exact ⟨_, ⟨n, c, hn, hc, rfl⟩, hv⟩
  · rintro ⟨-, ⟨n, c, hn, hc, rfl⟩, hv⟩
    exact ⟨n, c, hn, hc, hv⟩

/-- **Two heaps that spell one forest** below a root with no values hold the same registry, however their
lists are turned. -/
theorem sameRegistry_of_rep (hwf : WF F H) (hwf' : WF F H') {m' : Bool} {is' : List Id} {k' : RegKey}
    (hr : deref H regRoot = some k) (hc : k.children = turn m is) (hv : k.values = []) (h : Rep m H is f)
    (hr' : deref H' regRoot = some k') (hc' : k'.children = turn m' is') (hv' : k'.values = [])
    (h' : Rep m' H' is' f) : SameRegistry H H' := by
  constructor
  · intro path
    rw [hasKey_iff hwf, hasKey_iff hwf']
    simp only [h.keyAt_iff hr hc, h'.keyAt_iff hr' hc', hv, hv']
    constructor
    · rintro ⟨ws, hroot | ⟨vs, hat, -⟩⟩
      · exact ⟨ws, .inl hroot⟩
      · exact ⟨_, .inr ⟨vs, hat, rfl⟩⟩
    · rintro ⟨ws, hroot | ⟨vs, hat, -⟩⟩
      · exact ⟨ws, .inl hroot⟩
      · exact ⟨_, .inr ⟨vs, hat, rfl⟩⟩
  · intro path v
    rw [hasValue_iff, hasValue_iff]
    simp only [h.keyAt_iff hr hc, h'.keyAt_iff hr' hc', hv, hv']
    constructor
    · rintro ⟨ws, ⟨-, rfl⟩ | ⟨vs, hat, rfl⟩, hmem⟩
      · cases hmem
      · exact ⟨_, .inr ⟨vs, hat, rfl⟩, mem_turn.2 (mem_turn.1 hmem)⟩
    · rintro ⟨ws, ⟨-, rfl⟩ | ⟨vs, hat, rfl⟩, hmem⟩
      · cases hmem
      · exact ⟨_, .inr ⟨vs, hat, rfl⟩, mem_turn.2 (mem_turn.1 hmem)⟩

end Rvpn.Registry
