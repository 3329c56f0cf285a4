import Rvpn.Registry.Tree

/-!
# What the edits of the tree keep

One lemma per edit, each saying what the heap is afterwards and that it is well formed again:

| edit | used by | lemma |
| --- | --- | --- |
| a child in front | `CreateKey` | `addChild_wf`, `addChild_grows` |
| a chain of them  | `NavigatePath` with `create` | `navTokens_create` |
| another value list | `SetValue`, `RegDeleteValueW` | `setValues_wf`, `child_setValues` |
| a child less, its node freed | `RegDeleteKeyW` | `unlink_wf`, `child_unlink` |

`Grows` is what a caller of `NavigatePath` has to know: the keys that were there stay, with new keys in
front of their children at most, and what is new is empty.
-/

namespace Rvpn.Registry

open Cells

variable {F : CaseFold} {H H' H'' : Heap} {i j n p : Id} {k c : RegKey} {t : WStr} {ts : List WStr}

/-! ## Growing -/

structure Grows (H H' : Heap) : Prop where
  length : H.length ≤ H'.length
  old : ∀ {i k}, deref H i = some k →
    ∃ ids, deref H' i = some { k with children := ids ++ k.children } ∧ ∀ j ∈ ids, H.length ≤ j
  new : ∀ {i k}, deref H' i = some k → (∃ k₀, deref H i = some k₀) ∨ (H.length ≤ i ∧ k.values = [])

theorem Grows.refl : Grows H H where
  length := Nat.le_refl _
  old h := ⟨[], by simpa using h, by simp⟩
  new h := .inl ⟨_, h⟩

theorem Grows.trans (h₁ : Grows H H') (h₂ : Grows H' H'') : Grows H H'' where
  length := h₁.length.trans h₂.length
  old h := by
    obtain ⟨ids, hk, hids⟩ := h₁.old h
    obtain ⟨ids', hk', hids'⟩ := h₂.old hk
    refine ⟨ids' ++ ids, by simpa using hk', fun j hj => ?_⟩
    rcases List.mem_append.1 hj with hj | hj
    · exact h₁.length.trans (hids' j hj)
    · exact hids j hj
  new h := by
    rcases h₂.new h with ⟨k₁, hk₁⟩ | ⟨hle, hnil⟩
    · rcases h₁.new hk₁ with ⟨k₀, hk₀⟩ | ⟨hle, hnil⟩
      · exact .inl ⟨k₀, hk₀⟩
      · obtain ⟨ids, hk, -⟩ := h₂.old hk₁
        obtain rfl := Option.some.inj (hk.symm.trans h)
        exact .inr ⟨hle, hnil⟩
    · exact .inr ⟨h₁.length.trans hle, hnil⟩

/-- The values of an old key are the values it had. -/
theorem Grows.values (h : Grows H H') (hk : deref H i = some k) (hc : deref H' i = some c) : c.values = k.values := by
  obtain ⟨ids, hk', -⟩ := h.old hk
  obtain rfl := Option.some.inj (hk'.symm.trans hc)
  rfl

theorem Grows.live (h : Grows H H') (hk : ∃ k, deref H i = some k) : ∃ k, deref H' i = some k := by
  obtain ⟨k, hk⟩ := hk
  obtain ⟨ids, hk', -⟩ := h.old hk
  exact ⟨_, hk'⟩

theorem Grows.child (h : Grows H H') (hc : Child F H i t j) : Child F H' i t j := by
  obtain ⟨k, c, hk, hj, hcj, ht⟩ := hc
  obtain ⟨ids, hk', -⟩ := h.old hk
  obtain ⟨ids', hc', -⟩ := h.old hcj
  exact ⟨_, _, hk', List.mem_append_right _ hj, hc', ht⟩

theorem Grows.walk (h : Grows H H') (hw : Walk F H i ts n) : Walk F H' i ts n :=
  hw.mono fun _ _ _ hc => h.child hc

theorem Grows.linked (h : Grows H H') (hl : Linked H i) : Linked H' i := by
  obtain ⟨path, hp⟩ := hl
  exact ⟨path, h.walk hp⟩

/-- **Growing adds no way to an old key.** -/
theorem Grows.linked_old (h : Grows H H') (hwf : WF F H) (hwf' : WF F H') (hl : Linked H' i) (hi : i < H.length) :
    Linked H i := by
  obtain ⟨path, hp⟩ := hl
  induction path using List.reverseRecOn generalizing i with
  | nil =>
    obtain rfl : regRoot = i := hp
    exact Linked.root
  | append_singleton path name ih =>
    obtain ⟨m, hm, hc⟩ := walk_snoc.1 hp
    have hlt : m < i := (Child.of_exactly (F := F) hc).lt hwf'
    have hlm : Linked H m := ih (hlt.trans hi) hm
    obtain ⟨k, hk⟩ := hlm.live hwf
    obtain ⟨ids, hk', hids⟩ := h.old hk
    obtain ⟨k', c, hkm, hj, -, -⟩ := hc
    obtain rfl := Option.some.inj (hk'.symm.trans hkm)
    rcases List.mem_append.1 hj with hj | hj
    · exact absurd (hids i hj) (Nat.not_le_of_lt hi)
    · obtain ⟨-, c, hc, -⟩ := hwf.child hk hj
      exact hlm.child (F := exactly) ⟨k, c, hk, hj, hc, rfl⟩

/-! ## A new child -/

/-- The heap `CreateKey` leaves: `k` is what was at `p`. -/
def addChild (H : Heap) (p : Id) (k : RegKey) (t : WStr) : Heap :=
  write (alloc H { name := t, parent := some p, children := [], values := [] }) p
    { k with children := H.length :: k.children }

theorem createKey_of_deref (hk : deref H p = some k) : createKey H (some p) t = some (H.length, addChild H p k t) := by
  simp [createKey, hk, addChild]

section
variable (hk : deref H p = some k)
include hk

theorem deref_addChild_self : deref (addChild H p k t) p = some { k with children := H.length :: k.children } :=
  deref_write_self (by have := lt_of_deref hk; simp; omega)

theorem deref_addChild_new :
    deref (addChild H p k t) H.length = some { name := t, parent := some p, children := [], values := [] } := by
  have hne : H.length ≠ p := by have := lt_of_deref hk; omega
  rw [addChild, deref_write_ne hne, deref_alloc_self]

omit hk in
theorem deref_addChild_old (hi : i ≠ p) (hc : deref H i = some c) : deref (addChild H p k t) i = some c := by
  rw [addChild, deref_write_ne hi, deref_alloc_of_deref hc]

omit hk in
theorem deref_addChild_cases (hc : deref (addChild H p k t) i = some c) :
    (i = p ∧ c = { k with children := H.length :: k.children }) ∨
    (i = H.length ∧ c = { name := t, parent := some p, children := [], values := [] }) ∨
    (i ≠ p ∧ deref H i = some c) := by
  rcases deref_write_cases hc with ⟨rfl, rfl⟩ | ⟨hne, hc⟩
  · exact .inl ⟨rfl, rfl⟩
  · rcases deref_alloc_cases hc with h | hc
    · exact .inr (.inl h)
    · exact .inr (.inr ⟨hne, hc⟩)

theorem addChild_grows : Grows H (addChild H p k t) where
  length := by simp [addChild]
  old := by
    intro i c hc
    by_cases hi : i = p
    · subst hi
      obtain rfl : k = c := Option.some.inj (hk.symm.trans hc)
      exact ⟨[H.length], by simpa using deref_addChild_self hk, by simp⟩
    · exact ⟨[], by simpa using deref_addChild_old hi hc, by simp⟩
  new := by
    intro i c hc
    rcases deref_addChild_cases hc with ⟨rfl, rfl⟩ | ⟨rfl, rfl⟩ | ⟨-, hc⟩
    · exact .inl ⟨k, hk⟩
    · exact .inr ⟨Nat.le_refl _, rfl⟩
    · exact .inl ⟨c, hc⟩

/-- A node of the heap under its old name: what an old node was before the child came. -/
theorem addChild_name (hc : deref (addChild H p k t) j = some c) (hj : j < H.length) :
    ∃ c₀, deref H j = some c₀ ∧ c.name = c₀.name ∧ c.parent = c₀.parent := by
  rcases deref_addChild_cases hc with ⟨rfl, rfl⟩ | ⟨rfl, rfl⟩ | ⟨-, hc⟩
  · exact ⟨k, hk, rfl, rfl⟩
  · exact absurd hj (Nat.lt_irrefl _)
  · exact ⟨c, hc, rfl, rfl⟩

theorem addChild_wf (hwf : WF F H) (hname : t ≠ [] ∧ bslash ∉ t) (hnone : ∀ j, ¬ Child F H p t j) :
    WF F (addChild H p k t) where
  root := by
    obtain ⟨r, hr, hp⟩ := hwf.root
    obtain ⟨ids, hr', -⟩ := (addChild_grows (t := t) hk).old hr
    exact ⟨_, hr', hp⟩
  child := by
    intro i k' j hk' hj
    have hold : ∀ {k₀}, deref H i = some k₀ → j ∈ k₀.children →
        i < j ∧ ∃ c, deref (addChild H p k t) j = some c ∧ c.parent = some i ∧ c.name ≠ [] ∧ bslash ∉ c.name := by
      intro k₀ hk₀ hj
      obtain ⟨hlt, c, hc, hrest⟩ := hwf.child hk₀ hj
      obtain ⟨ids, hc', -⟩ := (addChild_grows (t := t) hk).old hc
      exact ⟨hlt, _, hc', hrest⟩
    rcases deref_addChild_cases hk' with ⟨rfl, rfl⟩ | ⟨rfl, rfl⟩ | ⟨-, hk'⟩
    · rcases List.mem_cons.1 hj with rfl | hj
      · exact ⟨lt_of_deref hk, _, deref_addChild_new hk, rfl, hname⟩
      · exact hold hk hj
    · cases hj
    · exact hold hk' hj
  nodup := by
    intro i k' hk'
    rcases deref_addChild_cases hk' with ⟨rfl, rfl⟩ | ⟨rfl, rfl⟩ | ⟨-, hk'⟩
    · refine List.nodup_cons.2 ⟨fun hmem => ?_, hwf.nodup hk⟩
      obtain ⟨-, c, hc, -⟩ := hwf.child hk hmem
      exact absurd (lt_of_deref hc) (Nat.lt_irrefl _)
    · exact List.nodup_nil
    · exact hwf.nodup hk'
  unique := by
    intro i k' j j' c c' hk' hj hj' hc hc' hn
    -- old siblings are told apart as before; the new one by `hnone`
    have hlt : ∀ {i k₀ j}, deref H i = some k₀ → j ∈ k₀.children → j < H.length := by
      intro i k₀ j hk₀ hj
      obtain ⟨-, c, hc, -⟩ := hwf.child hk₀ hj
      exact lt_of_deref hc
    have hold : ∀ {k₀}, deref H i = some k₀ → j ∈ k₀.children → j' ∈ k₀.children → j = j' := by
      intro k₀ hk₀ hj hj'
      obtain ⟨c₀, hc₀, hname₀, -⟩ := addChild_name hk hc (hlt hk₀ hj)
      obtain ⟨c₀', hc₀', hname₀', -⟩ := addChild_name hk hc' (hlt hk₀ hj')
      exact hwf.unique hk₀ hj hj' hc₀ hc₀' (by rw [← hname₀, ← hname₀', hn])
    have hnew : ∀ {j c}, j ∈ k.children → deref (addChild H p k t) j = some c → F.fold c.name ≠ F.fold t := by
      intro j c hj hc he
      obtain ⟨c₀, hc₀, hname₀, -⟩ := addChild_name hk hc (hlt hk hj)
      exact hnone j ⟨k, c₀, hk, hj, hc₀, by rw [← hname₀, he]⟩
    rcases deref_addChild_cases hk' with ⟨rfl, rfl⟩ | ⟨rfl, rfl⟩ | ⟨-, hk'⟩
    · have hself := deref_addChild_new (t := t) hk
      rcases List.mem_cons.1 hj with rfl | hj <;> rcases List.mem_cons.1 hj' with rfl | hj'
      · rfl
      · obtain rfl := Option.some.inj (hself.symm.trans hc)
        exact absurd hn.symm (hnew hj' hc')
      · obtain rfl := Option.some.inj (hself.symm.trans hc')
        exact absurd hn (hnew hj hc)
      · exact hold hk hj hj'
    · cases hj
    · exact hold hk' hj hj'
  values := by
    intro i k' hk'
    rcases deref_addChild_cases hk' with ⟨rfl, rfl⟩ | ⟨rfl, rfl⟩ | ⟨-, hk'⟩
    · show Assoc.Distinct (valueKey F) k.values
      exact hwf.values hk
    · exact List.Pairwise.nil
    · exact hwf.values hk'

theorem child_addChild_new : Child F (addChild H p k t) p t H.length :=
  ⟨_, _, deref_addChild_self hk, by simp, deref_addChild_new hk, rfl⟩

end

/-! ## `NavigatePath` -/

@[simp] theorem navigatePath_eq {create : Bool} {path : WStr} :
    navigatePath F create H i path = navTokens F create H i (tokens (lstrcpynW path 512)) := by
  unfold navigatePath
  split
  · next h => simp [h, lstrcpynW, navTokens]
  · rfl

theorem live_of_childOf {r : Option Id} (h : childOf F H i t = some r) : ∃ k, deref H i = some k := by
  cases hk : deref H i with
  | none => simp [childOf, hk] at h
  | some k => exact ⟨k, rfl⟩

/-- **`NavigatePath` without `create`** leads where the tokens lead, or reports that they lead nowhere. -/
theorem navTokens_open (hwf : WF F H) {r : Option Id × Heap} (h : navTokens F false H i ts = some r) :
    (∃ n, r = (some n, H) ∧ Walk F H i ts n) ∨ (r = (none, H) ∧ ∀ n, ¬ Walk F H i ts n) := by
  induction ts generalizing i with
  | nil =>
    cases h
    exact .inl ⟨i, rfl, rfl⟩
  | cons t ts ih =>
    cases hf : childOf F H i t with
    | none => simp [navTokens, hf] at h
    | some o =>
      obtain ⟨k, hk⟩ := live_of_childOf hf
      cases o with
      | none =>
        simp only [navTokens, hf, Bool.false_eq_true, if_false, Option.some.injEq] at h
        refine .inr ⟨h.symm, ?_⟩
        rintro n ⟨j, hj, -⟩
        rw [(childOf_eq_some hwf).2 hj] at hf
        cases hf
      | some j =>
        have hj : Child F H i t j := (childOf_eq_some hwf).1 hf
        rw [navTokens, hf] at h
        rcases ih h with ⟨n, hr, hw⟩ | ⟨hr, hno⟩
        · exact .inl ⟨n, hr, j, hj, hw⟩
        · refine .inr ⟨hr, ?_⟩
          rintro n ⟨j', hj', hw⟩
          obtain rfl := hj.unique hwf hj'
          exact hno n hw

theorem navTokens_open_iff (hwf : WF F H) : navTokens F false H i ts = some (some n, H) ↔ Walk F H i ts n := by
  constructor
  · intro h
    rcases navTokens_open hwf h with ⟨m, hr, hw⟩ | ⟨hr, -⟩
    · cases hr
      exact hw
    · cases hr
  · intro hw
    induction ts generalizing i with
    | nil => rw [navTokens, walk_nil.1 hw]
    | cons t ts ih =>
      obtain ⟨j, hj, hw⟩ := hw
      rw [navTokens, (childOf_eq_some hwf).2 hj]
      exact ih hw

/-- **`NavigatePath` with `create`** leads somewhere, in a tree that has grown by the missing keys. -/
theorem navTokens_create (hwf : WF F H) (hts : ∀ t ∈ ts, t ≠ [] ∧ bslash ∉ t) {r : Option Id × Heap}
    (h : navTokens F true H i ts = some r) :
    ∃ n, r.1 = some n ∧ WF F r.2 ∧ Grows H r.2 ∧ Walk F r.2 i ts n := by
  induction ts generalizing H i with
  | nil =>
    cases h
    exact ⟨i, rfl, hwf, Grows.refl, rfl⟩
  | cons t ts ih =>
    have hts' : ∀ t ∈ ts, t ≠ [] ∧ bslash ∉ t := fun t ht => hts t (by simp [ht])
    cases hf : childOf F H i t with
    | none => simp [navTokens, hf] at h
    | some o =>
      obtain ⟨k, hk⟩ := live_of_childOf hf
      cases o with
      | none =>
        have hn : ∀ j, ¬ Child F H i t j := by
          intro j hj
          rw [(childOf_eq_some hwf).2 hj] at hf
          cases hf
        have hwf₁ : WF F (addChild H i k t) := addChild_wf hk hwf (hts t (by simp)) hn
        simp only [navTokens, hf, if_true, createKey_of_deref hk] at h
        obtain ⟨n, hr, hwf', hg, hw⟩ := ih hwf₁ hts' h
        exact ⟨n, hr, hwf', (addChild_grows hk).trans hg, _, hg.child (child_addChild_new hk), hw⟩
      | some j =>
        have hj : Child F H i t j := (childOf_eq_some hwf).1 hf
        rw [navTokens, hf] at h
        obtain ⟨n, hr, hwf', hg, hw⟩ := ih hwf hts' h
        exact ⟨n, hr, hwf', hg, j, hg.child hj, hw⟩

/-! ## Another value list -/

/-- The heap after the values of `i` have become `vs`. -/
def setValues (H : Heap) (i : Id) (k : RegKey) (vs : List RegValue) : Heap := write H i { k with values := vs }

theorem setValue_of_deref {name : WStr} {type : UInt32} {data : List UInt8} (hk : deref H i = some k) :
    setValue F H i name type data = some (setValues H i k (putValue F name type data k.values)) := by
  simp [setValue, hk, setValues]

theorem putValue_distinct {name : WStr} {type : UInt32} {data : List UInt8} {vs : List RegValue}
    (h : Assoc.Distinct (valueKey F) vs) : Assoc.Distinct (valueKey F) (putValue F name type data vs) :=
  h.put (fun _ => rfl) rfl

section
variable {vs : List RegValue} (hk : deref H i = some k)
include hk

theorem deref_setValues_self : deref (setValues H i k vs) i = some { k with values := vs } :=
  deref_write_self (lt_of_deref hk)

/-- Any node after the change is a node before it, all but its values. -/
theorem deref_setValues (hc : deref (setValues H i k vs) j = some c) :
    ∃ c₀, deref H j = some c₀ ∧ c = { c₀ with values := c.values } ∧ (j ≠ i → c = c₀) := by
  rcases deref_write_cases hc with ⟨rfl, rfl⟩ | ⟨hne, hc⟩
  · exact ⟨k, hk, rfl, fun h => absurd rfl h⟩
  · exact ⟨c, hc, rfl, fun _ => rfl⟩

theorem deref_setValues_old (vs : List RegValue) (hc : deref H j = some c) :
    ∃ ws, deref (setValues H i k vs) j = some { c with values := ws } := by
  by_cases hj : j = i
  · subst hj
    obtain rfl : k = c := Option.some.inj (hk.symm.trans hc)
    exact ⟨vs, deref_setValues_self hk⟩
  · exact ⟨c.values, by rw [setValues, deref_write_ne hj, hc]⟩

theorem child_setValues {G : CaseFold} : Child G (setValues H i k vs) n t j ↔ Child G H n t j := by
  constructor
  · rintro ⟨k', c, hk', hj, hc, ht⟩
    obtain ⟨k₀, hk₀, hkeq, -⟩ := deref_setValues hk hk'
    obtain ⟨c₀, hc₀, hceq, -⟩ := deref_setValues hk hc
    rw [hkeq] at hj
    rw [hceq] at ht
    exact ⟨k₀, c₀, hk₀, hj, hc₀, ht⟩
  · rintro ⟨k', c, hk', hj, hc, ht⟩
    obtain ⟨ws, hk₁⟩ := deref_setValues_old hk vs hk'
    obtain ⟨ws', hc₁⟩ := deref_setValues_old hk vs hc
    exact ⟨_, _, hk₁, hj, hc₁, ht⟩

theorem walk_setValues {G : CaseFold} : Walk G (setValues H i k vs) n ts j ↔ Walk G H n ts j :=
  ⟨Walk.mono fun _ _ _ h => (child_setValues hk).1 h, Walk.mono fun _ _ _ h => (child_setValues hk).2 h⟩

theorem linked_setValues : Linked (setValues H i k vs) j ↔ Linked H j :=
  exists_congr fun _ => walk_setValues hk

theorem setValues_wf (hwf : WF F H) (hd : Assoc.Distinct (valueKey F) vs) : WF F (setValues H i k vs) where
  root := by
    obtain ⟨r, hr, hp⟩ := hwf.root
    obtain ⟨ws, hr'⟩ := deref_setValues_old hk vs hr
    exact ⟨_, hr', hp⟩
  child := by
    intro n k' j hk' hj
    obtain ⟨k₀, hk₀, hkeq, -⟩ := deref_setValues hk hk'
    rw [hkeq] at hj
    obtain ⟨hlt, c, hc, hrest⟩ := hwf.child hk₀ hj
    obtain ⟨ws, hc'⟩ := deref_setValues_old hk vs hc
    exact ⟨hlt, _, hc', hrest⟩
  nodup := by
    intro n k' hk'
    obtain ⟨k₀, hk₀, hkeq, -⟩ := deref_setValues hk hk'
    have hch : k'.children = k₀.children := by rw [hkeq]
    rw [hch]
    exact hwf.nodup hk₀
  unique := by
    intro n k' j j' c c' hk' hj hj' hc hc' hn
    obtain ⟨k₀, hk₀, hkeq, -⟩ := deref_setValues hk hk'
    obtain ⟨c₀, hc₀, hceq, -⟩ := deref_setValues hk hc
    obtain ⟨c₀', hc₀', hceq', -⟩ := deref_setValues hk hc'
    rw [hkeq] at hj hj'
    rw [hceq, hceq'] at hn
    exact hwf.unique hk₀ hj hj' hc₀ hc₀' hn
  values := by
    intro n k' hk'
    rcases deref_write_cases hk' with ⟨rfl, rfl⟩ | ⟨-, hk'⟩
    · exact hd
    · exact hwf.values hk'

end

/-! ## A child less -/

/-- The heap after `RegDeleteKeyW` has taken `j` out of the children of `p` and freed it. -/
def unlink (H : Heap) (p : Id) (k : RegKey) (j : Id) : Heap :=
  free (write H p { k with children := k.children.erase j }) j

section
variable (hwf : WF F H) (hk : deref H p = some k) (hj : j ∈ k.children)
include hwf hk hj

theorem deref_unlink :
    deref (unlink H p k j) i = some c ↔
      (i = p ∧ c = { k with children := k.children.erase j }) ∨ (i ≠ p ∧ i ≠ j ∧ deref H i = some c) := by
  have hlt := lt_of_deref hk
  have hpj : p ≠ j := Nat.ne_of_lt (hwf.child hk hj).1
  rw [unlink, deref_free_eq_some]
  constructor
  · rintro ⟨hij, hc⟩
    rcases deref_write_cases hc with h | ⟨hip, hc⟩
    · exact .inl h
    · exact .inr ⟨hip, hij, hc⟩
  · rintro (⟨rfl, rfl⟩ | ⟨hip, hij, hc⟩)
    · exact ⟨hpj, deref_write_self hlt⟩
    · exact ⟨hij, by rw [deref_write_ne hip, hc]⟩

/-- Any node left is an old one with all its children but `j`. -/
theorem deref_unlink_old (hc : deref (unlink H p k j) i = some c) :
    i ≠ j ∧ ∃ c₀, deref H i = some c₀ ∧ c = { c₀ with children := c₀.children.erase j } := by
  rcases (deref_unlink hwf hk hj).1 hc with ⟨rfl, rfl⟩ | ⟨hip, hij, hc⟩
  · exact ⟨Nat.ne_of_lt (hwf.child hk hj).1, k, hk, rfl⟩
  · refine ⟨hij, c, hc, ?_⟩
    have hnot : j ∉ c.children := by
      intro hjc
      obtain ⟨-, d, hd, hpar, -⟩ := hwf.child hk hj
      obtain ⟨-, d', hd', hpar', -⟩ := hwf.child hc hjc
      obtain rfl : d = d' := Option.some.inj (hd.symm.trans hd')
      rw [hpar] at hpar'
      exact hip (Option.some.inj hpar').symm
    rw [List.erase_of_not_mem hnot]

theorem deref_unlink_of_ne (hij : i ≠ j) (hc : deref H i = some c) :
    deref (unlink H p k j) i = some { c with children := c.children.erase j } := by
  by_cases hip : i = p
  · subst hip
    obtain rfl : k = c := Option.some.inj (hk.symm.trans hc)
    exact (deref_unlink hwf hk hj).2 (.inl ⟨rfl, rfl⟩)
  · have hc' : deref (unlink H p k j) i = some c := (deref_unlink hwf hk hj).2 (.inr ⟨hip, hij, hc⟩)
    obtain ⟨-, c₀, hc₀, hceq⟩ := deref_unlink_old hwf hk hj hc'
    obtain rfl : c = c₀ := Option.some.inj (hc.symm.trans hc₀)
    rw [hc', ← hceq]

/-- **What is left of the children relation**: everything that does not touch the freed node. -/
theorem child_unlink {G : CaseFold} : Child G (unlink H p k j) i t n ↔ Child G H i t n ∧ i ≠ j ∧ n ≠ j := by
  constructor
  · rintro ⟨k', c, hk', hn, hc, ht⟩
    obtain ⟨hij, k₀, hk₀, rfl⟩ := deref_unlink_old hwf hk hj hk'
    obtain ⟨hnj, c₀, hc₀, rfl⟩ := deref_unlink_old hwf hk hj hc
    exact ⟨⟨k₀, c₀, hk₀, List.mem_of_mem_erase hn, hc₀, ht⟩, hij, hnj⟩
  · rintro ⟨⟨k', c, hk', hn, hc, ht⟩, hij, hnj⟩
    refine ⟨_, _, deref_unlink_of_ne hwf hk hj hij hk', ?_, deref_unlink_of_ne hwf hk hj hnj hc, ht⟩
    exact (List.mem_erase_of_ne hnj).2 hn

theorem Linked.of_unlink (hl : Linked (unlink H p k j) n) : Linked H n := by
  obtain ⟨path, hp⟩ := hl
  exact ⟨path, hp.mono fun _ _ _ hc => ((child_unlink hwf hk hj).1 hc).1⟩

theorem unlink_wf : WF F (unlink H p k j) where
  root := by
    obtain ⟨r, hr, hp⟩ := hwf.root
    have hne : regRoot ≠ j := by
      intro he
      have hlt := (hwf.child hk hj).1
      rw [← he] at hlt
      exact Nat.not_lt_zero _ hlt
    exact ⟨_, deref_unlink_of_ne hwf hk hj hne hr, hp⟩
  child := by
    intro i k' n hk' hn
    obtain ⟨hij, k₀, hk₀, rfl⟩ := deref_unlink_old hwf hk hj hk'
    obtain ⟨hnj, hn₀⟩ := (hwf.nodup hk₀).mem_erase_iff.1 hn
    obtain ⟨hlt, c, hc, hrest⟩ := hwf.child hk₀ hn₀
    exact ⟨hlt, _, deref_unlink_of_ne hwf hk hj hnj hc, hrest⟩
  nodup := by
    intro i k' hk'
    obtain ⟨-, k₀, hk₀, rfl⟩ := deref_unlink_old hwf hk hj hk'
    exact (hwf.nodup hk₀).erase j
  unique := by
    intro i k' n n' c c' hk' hn hn' hc hc' he
    obtain ⟨-, k₀, hk₀, rfl⟩ := deref_unlink_old hwf hk hj hk'
    obtain ⟨-, c₀, hc₀, rfl⟩ := deref_unlink_old hwf hk hj hc
    obtain ⟨-, c₀', hc₀', rfl⟩ := deref_unlink_old hwf hk hj hc'
    exact hwf.unique hk₀ (List.mem_of_mem_erase hn) (List.mem_of_mem_erase hn') hc₀ hc₀' he
  values := by
    intro i k' hk'
    obtain ⟨-, k₀, hk₀, rfl⟩ := deref_unlink_old hwf hk hj hk'
    show Assoc.Distinct (valueKey F) k₀.values
    exact hwf.values hk₀

/-- A walk to a key that is still linked has not gone through the freed node. -/
theorem walk_unlink (hw : Walk F H i ts n) (hl : Linked (unlink H p k j) n) : Walk F (unlink H p k j) i ts n := by
  induction ts using List.reverseRecOn generalizing n with
  | nil => exact hw
  | append_singleton ts t ih =>
    obtain ⟨m, hm, hc⟩ := walk_snoc.1 hw
    have hwf' : WF F (unlink H p k j) := unlink_wf hwf hk hj
    have hlive : ∀ {x}, Linked (unlink H p k j) x → x ≠ j := by
      intro x hx
      obtain ⟨c, hc⟩ := hx.live hwf'
      exact (deref_unlink_old hwf hk hj hc).1
    -- the parent is linked too: the node that is left still names it
    have hlm : Linked (unlink H p k j) m := by
      obtain ⟨path, hp⟩ := hl
      cases path using List.reverseRecOn with
      | nil =>
        obtain rfl : regRoot = n := hp
        have := hc.lt hwf
        exact absurd this (Nat.not_lt_zero _)
      | append_singleton path name _ =>
        obtain ⟨m', hm', hc'⟩ := walk_snoc.1 hp
        have hcm := Child.of_exactly (F := F) ((child_unlink hwf hk hj).1 hc').1
        obtain ⟨c, hcn⟩ := hc.live
        have hpar := hc.parent hwf hcn
        rw [hcm.parent hwf hcn] at hpar
        cases hpar
        exact ⟨path, hm'⟩
    exact walk_snoc.2 ⟨m, ih hm hlm, (child_unlink hwf hk hj).2 ⟨hc, hlive hlm, hlive hl⟩⟩

end

end Rvpn.Registry
