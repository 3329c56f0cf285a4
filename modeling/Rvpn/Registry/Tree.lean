import Rvpn.Lib.Cells
import Rvpn.Lib.Assoc
import Rvpn.Registry.Text

/-!
# The key tree

The `RegKey` nodes of `register.c` on a heap, and the functions that walk and change them.

| here | there |
| --- | --- |
| `RegValue`, `RegKey`       | `register.c:12-25` |
| `createKey`                | `CreateKey` (`:335-345`) |
| `findChild`                | the `while (child)` loop of every walk |
| `navigatePath`             | `NavigatePath` (`:350-377`) |
| `keyExists`                | `KeyExists` (`:816-839`) |
| `setValue`, `getValue`     | `SetValue`, `GetValue` (`:379-419`) |

A function returns `none` where the source reads through a pointer that is freed or NULL. A pointer
is a heap address; the sibling list that starts at `child` is kept in its parent as `children`, first
child first, and the value list as `values`. The root is the first node ever allocated.
-/

namespace Rvpn.Registry

open Cells

/-- A `RegKey*`. -/
abbrev Id := Nat

structure RegValue where
  name : WStr
  type : UInt32
  /-- The block of `size` bytes. -/
  data : List UInt8
deriving DecidableEq

structure RegKey where
  /-- `[]` where the source has NULL: `CreateKey` stores no empty name. -/
  name : WStr
  parent : Option Id
  children : List Id
  values : List RegValue
deriving DecidableEq

abbrev Heap := List (Option RegKey)

/-- `g_regRoot`. -/
def regRoot : Id := 0

/-! ## Walking and creating -/

def createKey (H : Heap) (parent : Option Id) (name : WStr) : Option (Id × Heap) :=
  let key : RegKey := { name, parent, children := [], values := [] }
  match parent with
  | none => some (H.length, alloc H key)
  | some p =>
    (deref H p).map fun k => (H.length, write (alloc H key) p { k with children := H.length :: k.children })

/-- The first key of a sibling list that `_wcsicmp` finds equal to the token; a NULL name is not comparable. -/
def findChild (F : CaseFold) (H : Heap) (token : WStr) : List Id → Option (Option Id)
  | [] => some none
  | i :: is =>
    match deref H i with
    | none => none
    | some c => if c.name = [] then none else if wcsicmp F c.name token then some (some i) else findChild F H token is

def childOf (F : CaseFold) (H : Heap) (cur : Id) (token : WStr) : Option (Option Id) :=
  (deref H cur).bind fun k => findChild F H token k.children

/-- The token loop of `NavigatePath`. -/
def navTokens (F : CaseFold) (create : Bool) : Heap → Id → List WStr → Option (Option Id × Heap)
  | H, cur, [] => some (some cur, H)
  | H, cur, token :: ts =>
    match childOf F H cur token with
    | none => none
    | some (some child) => navTokens F create H child ts
    | some none =>
      if create then
        match createKey H (some cur) token with
        | none => none
        | some (child, H') => navTokens F create H' child ts
      else some (none, H)

def navigatePath (F : CaseFold) (create : Bool) (H : Heap) (base : Id) (path : WStr) : Option (Option Id × Heap) :=
  if path = [] then some (some base, H)
  else navTokens F create H base (tokens (lstrcpynW path 512))

/-- The token loop of `KeyExists`. -/
def existsTokens (F : CaseFold) (H : Heap) : Id → List WStr → Option Bool
  | _, [] => some true
  | cur, token :: ts =>
    match childOf F H cur token with
    | none => none
    | some none => some false
    | some (some child) => existsTokens F H child ts

def keyExists (F : CaseFold) (H : Heap) (base : Id) (path : WStr) : Option Bool :=
  if path = [] then some true else existsTokens F H base (tokens (lstrcpynW path 512))

/-! ## Values -/

/-- What two value names are compared by. -/
def valueKey (F : CaseFold) (v : RegValue) : WStr := F.fold v.name

/-- `SetValue` on the list of a key: the value found keeps its name, a new one goes in front. -/
def putValue (F : CaseFold) (name : WStr) (type : UInt32) (data : List UInt8) (vs : List RegValue) : List RegValue :=
  Assoc.put (valueKey F) (F.fold name) (fun v => { v with type, data }) { name, type, data } vs

def setValue (F : CaseFold) (H : Heap) (key : Id) (name : WStr) (type : UInt32) (data : List UInt8) : Option Heap :=
  (deref H key).map fun k => write H key { k with values := putValue F name type data k.values }

/-- What `GetValue` returns and stores through its pointers; `none` is a location left alone. -/
structure GetValueOut where
  ok : Bool
  type : Option UInt32
  data : Option (List UInt8)
  size : Nat
deriving DecidableEq

def getValue (F : CaseFold) (H : Heap) (key : Id) (name : WStr) (data : Bool) (size : Nat) : Option GetValueOut :=
  (deref H key).map fun k =>
    match Assoc.find (valueKey F) (F.fold name) k.values with
    | none => { ok := false, type := none, data := none, size }
    | some v =>
      if data ∧ v.data.length ≤ size then
        { ok := true, type := some v.type, data := some v.data, size := v.data.length }
      else if ¬ data then { ok := true, type := some v.type, data := none, size := v.data.length }
      else { ok := false, type := some v.type, data := none, size := v.data.length }

/-! ## A well-formed tree -/

/-- What holds of the nodes between two calls: the root is there and has no name, a child is a live node with a proper name that points
back at its parent and was allocated after it, siblings differ in name, and so do the values of a key. -/
structure WF (F : CaseFold) (H : Heap) : Prop where
  root : ∃ k, deref H regRoot = some k ∧ k.parent = none ∧ k.name = []
  child : ∀ {i k j}, deref H i = some k → j ∈ k.children →
    i < j ∧ ∃ c, deref H j = some c ∧ c.parent = some i ∧ c.name ≠ [] ∧ bslash ∉ c.name
  nodup : ∀ {i k}, deref H i = some k → k.children.Nodup
  unique : ∀ {i k j j' c c'}, deref H i = some k → j ∈ k.children → j' ∈ k.children →
    deref H j = some c → deref H j' = some c' → F.fold c.name = F.fold c'.name → j = j'
  values : ∀ {i k}, deref H i = some k → Assoc.Distinct (valueKey F) k.values

/-- `j` is the child of `i` that `token` names. -/
def Child (F : CaseFold) (H : Heap) (i : Id) (token : WStr) (j : Id) : Prop :=
  ∃ k c, deref H i = some k ∧ j ∈ k.children ∧ deref H j = some c ∧ F.fold c.name = F.fold token

/-- `n` is where the tokens lead from `i`. -/
def Walk (F : CaseFold) (H : Heap) : Id → List WStr → Id → Prop
  | i, [], n => i = n
  | i, t :: ts, n => ∃ j, Child F H i t j ∧ Walk F H j ts n

/-- Names compared as they are spelt. -/
def exactly : CaseFold := ⟨id, fun _ => Iff.rfl⟩

@[simp] theorem fold_exactly (s : WStr) : exactly.fold s = s := by simp [CaseFold.fold, exactly]

/-- The key at a path of names, read off from the root. -/
def KeyAt (H : Heap) (path : List WStr) (i : Id) : Prop := Walk exactly H regRoot path i

/-- A node that is in the tree under `g_regRoot`. -/
def Linked (H : Heap) (i : Id) : Prop := ∃ path, KeyAt H path i

section
variable {F : CaseFold} {H H' : Heap} {i j n m : Id} {k c : RegKey} {t : WStr} {ts us : List WStr}

/-! ## Looking for a child -/

theorem findChild_spec {is : List Id} (h : ∀ i ∈ is, ∃ c, deref H i = some c ∧ c.name ≠ []) :
    (∃ i ∈ is, (∃ c, deref H i = some c ∧ F.fold c.name = F.fold t) ∧ findChild F H t is = some (some i)) ∨
    ((∀ i ∈ is, ∀ c, deref H i = some c → F.fold c.name ≠ F.fold t) ∧ findChild F H t is = some none) := by
  induction is with
  | nil => exact .inr ⟨by simp, rfl⟩
  | cons i is ih =>
    obtain ⟨c, hc, hne⟩ := h i (by simp)
    by_cases ht : F.fold c.name = F.fold t
    · refine .inl ⟨i, by simp, ⟨c, hc, ht⟩, ?_⟩
      simp [findChild, hc, hne, ht]
    · have hskip : findChild F H t (i :: is) = findChild F H t is := by
        simp [findChild, hc, hne, ht]
      rw [hskip]
      rcases ih fun i hi => h i (by simp [hi]) with ⟨i', hi', hn, hf⟩ | ⟨hn, hf⟩
      · exact .inl ⟨i', by simp [hi'], hn, hf⟩
      · refine .inr ⟨?_, hf⟩
        intro i' hi' c' hc'
        rcases List.mem_cons.1 hi' with rfl | hi'
        · obtain rfl : c = c' := Option.some.inj (hc.symm.trans hc')
          exact ht
        · exact hn i' hi' c' hc'

/-- **The search loop** over the children of a live key always ends: with the child the token names,
or with none where no child has that name. -/
theorem childOf_spec (hwf : WF F H) (hk : deref H i = some k) :
    (∃ j, Child F H i t j ∧ childOf F H i t = some (some j)) ∨
    ((∀ j, ¬ Child F H i t j) ∧ childOf F H i t = some none) := by
  have hlive : ∀ j ∈ k.children, ∃ c, deref H j = some c ∧ c.name ≠ [] := by
    intro j hj
    obtain ⟨-, c, hc, -, hne, -⟩ := hwf.child hk hj
    exact ⟨c, hc, hne⟩
  rcases findChild_spec (F := F) (t := t) hlive with ⟨j, hj, ⟨c, hc, hn⟩, hf⟩ | ⟨hn, hf⟩
  · exact .inl ⟨j, ⟨k, c, hk, hj, hc, hn⟩, by rw [childOf, hk]; exact hf⟩
  · refine .inr ⟨?_, by rw [childOf, hk]; exact hf⟩
    rintro j ⟨k', c, hk', hj, hc, ht⟩
    obtain rfl : k = k' := Option.some.inj (hk.symm.trans hk')
    exact hn j hj c hc ht

theorem Child.unique (hwf : WF F H) (h : Child F H i t j) (h' : Child F H i t n) : j = n := by
  obtain ⟨k, c, hk, hj, hc, ht⟩ := h
  obtain ⟨k', c', hk', hn, hc', ht'⟩ := h'
  obtain rfl : k = k' := Option.some.inj (hk.symm.trans hk')
  exact hwf.unique hk hj hn hc hc' (ht.trans ht'.symm)

theorem childOf_eq_some (hwf : WF F H) : childOf F H i t = some (some j) ↔ Child F H i t j := by
  constructor
  · intro h
    cases hk : deref H i with
    | none => simp [childOf, hk] at h
    | some k =>
      rcases childOf_spec (t := t) hwf hk with ⟨j', hc, hf⟩ | ⟨-, hf⟩
      · rw [hf] at h
        cases h
        exact hc
      · rw [hf] at h
        cases h
  · rintro ⟨k, c, hk, hj, hc, ht⟩
    have hchild : Child F H i t j := ⟨k, c, hk, hj, hc, ht⟩
    rcases childOf_spec (t := t) hwf hk with ⟨j', hc, hf⟩ | ⟨hn, -⟩
    · rw [hf, hchild.unique hwf hc]
    · exact absurd hchild (hn j)

theorem Child.live (h : Child F H i t j) : ∃ c, deref H j = some c := by
  obtain ⟨-, c, -, -, hc, -⟩ := h
  exact ⟨c, hc⟩

theorem Child.parent (hwf : WF F H) (h : Child F H i t j) (hc : deref H j = some c) : c.parent = some i := by
  obtain ⟨k, -, hk, hj, -, -⟩ := h
  obtain ⟨-, c', hc', hp, -⟩ := hwf.child hk hj
  obtain rfl : c' = c := Option.some.inj (hc'.symm.trans hc)
  exact hp

theorem Child.lt (hwf : WF F H) (h : Child F H i t j) : i < j := by
  obtain ⟨k, -, hk, hj, -, -⟩ := h
  exact (hwf.child hk hj).1

/-- The same child under its own spelling. -/
theorem Child.spelt (h : Child F H i t j) : ∃ name, Child exactly H i name j := by
  obtain ⟨k, c, hk, hj, hc, -⟩ := h
  exact ⟨c.name, k, c, hk, hj, hc, rfl⟩

theorem Child.of_exactly (h : Child exactly H i t j) : Child F H i t j := by
  obtain ⟨k, c, hk, hj, hc, ht⟩ := h
  rw [fold_exactly, fold_exactly] at ht
  exact ⟨k, c, hk, hj, hc, by rw [ht]⟩

/-! ## Walks -/

@[simp] theorem walk_nil : Walk F H i [] n ↔ i = n := Iff.rfl

theorem walk_cons : Walk F H i (t :: ts) n ↔ ∃ j, Child F H i t j ∧ Walk F H j ts n := Iff.rfl

theorem walk_append : Walk F H i (ts ++ us) n ↔ ∃ m, Walk F H i ts m ∧ Walk F H m us n := by
  induction ts generalizing i with
  | nil => simp
  | cons t ts ih =>
    simp only [List.cons_append, walk_cons, ih]
    constructor
    · rintro ⟨j, hj, m, hm, hn⟩
      exact ⟨m, ⟨j, hj, hm⟩, hn⟩
    · rintro ⟨m, ⟨j, hj, hm⟩, hn⟩
      exact ⟨j, hj, m, hm, hn⟩

theorem walk_snoc : Walk F H i (ts ++ [t]) n ↔ ∃ m, Walk F H i ts m ∧ Child F H m t n := by
  rw [walk_append]
  simp [walk_cons]

theorem Walk.unique (hwf : WF F H) (h : Walk F H i ts n) (h' : Walk F H i ts m) : n = m := by
  induction ts generalizing i with
  | nil => exact h.symm.trans h'
  | cons t ts ih =>
    obtain ⟨j, hj, h⟩ := h
    obtain ⟨j', hj', h'⟩ := h'
    obtain rfl := hj.unique hwf hj'
    exact ih h h'

/-- A walk of a live key ends at a live key. -/
theorem Walk.live (hi : ∃ k, deref H i = some k) (h : Walk F H i ts n) : ∃ k, deref H n = some k := by
  induction ts generalizing i with
  | nil => exact h ▸ hi
  | cons t ts ih =>
    obtain ⟨j, hj, h⟩ := h
    exact ih hj.live h

/-- Token lists that `_wcsicmp` finds pairwise equal lead to the same key. -/
theorem Walk.congr (h : Walk F H i ts n) (he : ts.map F.fold = us.map F.fold) : Walk F H i us n := by
  induction ts generalizing i us with
  | nil =>
    obtain rfl : us = [] := by simpa using he.symm
    exact h
  | cons t ts ih =>
    cases us with
    | nil => simp at he
    | cons u us =>
      simp only [List.map_cons, List.cons.injEq] at he
      obtain ⟨j, ⟨k, c, hk, hj, hc, ht⟩, h⟩ := h
      exact ⟨j, ⟨k, c, hk, hj, hc, ht.trans he.1⟩, ih h he.2⟩

/-- A walk goes to younger keys. -/
theorem Walk.le (hwf : WF F H) (h : Walk F H i ts n) : i ≤ n ∧ (ts ≠ [] → i < n) := by
  induction ts generalizing i with
  | nil =>
    obtain rfl : i = n := h
    exact ⟨Nat.le_refl _, fun hne => absurd rfl hne⟩
  | cons t ts ih =>
    obtain ⟨j, hj, h⟩ := h
    have hlt : i < n := Nat.lt_of_lt_of_le (hj.lt hwf) (ih h).1
    exact ⟨Nat.le_of_lt hlt, fun _ => hlt⟩

/-- **The components of a key** below a given one: a key has one parent and one name. -/
theorem Walk.tokens_eq (hwf : WF F H) (h : Walk F H i ts n) (h' : Walk F H i us n) : ts.map F.fold = us.map F.fold := by
  induction ts using List.reverseRecOn generalizing us n with
  | nil =>
    obtain rfl : i = n := h
    have hnil : us = [] := by
      by_contra hne
      exact absurd ((h'.le hwf).2 hne) (Nat.lt_irrefl _)
    rw [hnil]
  | append_singleton ts t ih =>
    obtain ⟨m, hm, hc⟩ := walk_snoc.1 h
    cases us using List.reverseRecOn with
    | nil =>
      obtain rfl : i = n := h'
      exact absurd ((h.le hwf).2 (by simp)) (Nat.lt_irrefl _)
    | append_singleton us u _ =>
      obtain ⟨m', hm', hc'⟩ := walk_snoc.1 h'
      obtain ⟨k, c, hk, hj, hcn, ht⟩ := id hc
      obtain ⟨k', c', hk', hj', hcn', hu⟩ := id hc'
      obtain rfl : c = c' := Option.some.inj (hcn.symm.trans hcn')
      obtain rfl : m = m' := Option.some.inj ((hc.parent hwf hcn).symm.trans (hc'.parent hwf hcn))
      rw [List.map_append, List.map_append, ih hm hm', List.map_singleton, List.map_singleton, ← ht, ← hu]

theorem Walk.length_eq (hwf : WF F H) (h : Walk F H i ts n) (h' : Walk F H i us n) : ts.length = us.length := by
  simpa using congrArg List.length (h.tokens_eq hwf h')

/-- Two heaps where every child of the one is a child of the other share the walks. -/
theorem Walk.mono (hmono : ∀ i t j, Child F H i t j → Child F H' i t j) (h : Walk F H i ts n) : Walk F H' i ts n := by
  induction ts generalizing i with
  | nil => exact h
  | cons t ts ih =>
    obtain ⟨j, hj, h⟩ := h
    exact ⟨j, hmono i t j hj, ih h⟩

theorem Linked.root : Linked H regRoot := ⟨[], rfl⟩

theorem Linked.child (h : Linked H i) (hc : Child F H i t j) : Linked H j := by
  obtain ⟨path, hp⟩ := h
  obtain ⟨name, hn⟩ := hc.spelt
  exact ⟨path ++ [name], walk_snoc.2 ⟨i, hp, hn⟩⟩

theorem Linked.walk (h : Linked H i) (hw : Walk F H i ts n) : Linked H n := by
  induction ts generalizing i with
  | nil => exact hw ▸ h
  | cons t ts ih =>
    obtain ⟨j, hj, hw⟩ := hw
    exact ih (h.child hj) hw

theorem Linked.live (hwf : WF F H) (h : Linked H i) : ∃ k, deref H i = some k := by
  obtain ⟨path, hp⟩ := h
  obtain ⟨k, hk, -⟩ := hwf.root
  exact Walk.live ⟨k, hk⟩ hp

/-- **The tree has one way to every key**: a linked key other than the root has a linked parent. -/
theorem Linked.parent (hwf : WF F H) (h : Linked H j) (hc : Child F H i t j) : Linked H i := by
  obtain ⟨path, hp⟩ := h
  obtain ⟨c, hcj⟩ := hc.live
  cases path using List.reverseRecOn with
  | nil =>
    obtain ⟨k, hk, hnone, -⟩ := hwf.root
    obtain rfl : regRoot = j := hp
    obtain rfl : k = c := Option.some.inj (hk.symm.trans hcj)
    have hpar := hc.parent hwf hcj
    rw [hnone] at hpar
    cases hpar
  | append_singleton path name _ =>
    obtain ⟨m, hm, hmj⟩ := walk_snoc.1 hp
    have hpar : c.parent = some m := (Child.of_exactly (F := F) hmj).parent hwf hcj
    rw [hc.parent hwf hcj] at hpar
    cases hpar
    exact ⟨path, hm⟩

/-- So a key from which a linked key is reached is linked. -/
theorem Linked.of_walk (hwf : WF F H) (h : Linked H n) (hw : Walk F H i ts n) : Linked H i := by
  induction ts generalizing i with
  | nil => exact hw ▸ h
  | cons t ts ih =>
    obtain ⟨j, hj, hw⟩ := hw
    exact (ih hw).parent hwf hj

end

end Rvpn.Registry
