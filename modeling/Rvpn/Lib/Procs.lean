import Mathlib.Data.List.Basic

/-!
# Processes, their numbers and the handles to them

A process is an object of the kernel, here its place in the table; `I` says what program it runs. Its number (`pid`) is
in use as long as it lives or some handle to it is open, and may be given to another process afterwards. So a number that
has been read somewhere names a process only as long as that one is in use: `lookup_of_used`.
-/

namespace Procs

structure Proc (I : Type) where
  pid : Nat
  image : I
  /-- The number of the process that created it. -/
  parent : Nat
  alive : Bool

variable {I : Type}

/-- The processes there have been, in the order of their creation. -/
abbrev Table (I : Type) := List (Proc I)

def alive (T : Table I) (o : Nat) : Bool := (T[o]?).any Proc.alive

/-- The number of a process. -/
def pidOf (T : Table I) (o : Nat) : Option Nat := (T[o]?).map Proc.pid

/-- The process lives, or a handle to it is open, and this is its number. -/
def used (T : Table I) (held : List Nat) (pid o : Nat) : Bool := pidOf T o = some pid && (alive T o || held.contains o)

/-- No process uses the number. -/
def free (T : Table I) (held : List Nat) (pid : Nat) : Bool := (List.range T.length).all fun o => !used T held pid o

def spawn (T : Table I) (pid : Nat) (image : I) (parent : Nat) : Table I := T ++ [⟨pid, image, parent, true⟩]

def kill (T : Table I) (o : Nat) : Table I := T.modify o fun p => { p with alive := false }

/-- The process a number names. -/
def lookup (T : Table I) (held : List Nat) (pid : Nat) : Option Nat := (List.range T.length).find? (used T held pid)

/-- No number is used twice. -/
def Distinct (T : Table I) (held : List Nat) : Prop := ∀ pid o o', used T held pid o → used T held pid o' → o = o'

variable {T : Table I} {held held' : List Nat} {pid q o a : Nat} {image : I} {parent : Nat} {p : Proc I}

/-! ## One process -/

theorem used_iff : used T held pid o ↔ pidOf T o = some pid ∧ (alive T o ∨ o ∈ held) := by
  simp [used]

theorem lt_of_pidOf (h : pidOf T o = some pid) : o < T.length := by
  rw [pidOf, Option.map_eq_some_iff] at h
  obtain ⟨p, hp, -⟩ := h
  exact (List.getElem?_eq_some_iff.1 hp).1

@[simp] theorem length_kill : (kill T a).length = T.length := by simp [kill]

theorem getElem?_kill : (kill T a)[o]? = (T[o]?).map fun p => if a = o then { p with alive := false } else p := by
  rw [kill, List.getElem?_modify]
  split <;> simp_all

@[simp] theorem pidOf_kill : pidOf (kill T a) o = pidOf T o := by
  rw [pidOf, pidOf, getElem?_kill, Option.map_map]
  congr 1
  funext p
  simp only [Function.comp]
  split <;> rfl

@[simp] theorem alive_kill : alive (kill T a) o = (alive T o && decide (a ≠ o)) := by
  rw [alive, alive, getElem?_kill]
  cases T[o]? with
  | none => rfl
  | some p =>
    by_cases h : a = o
    · simp [h]
    · simp [h]

theorem getElem?_spawn (h : o ≠ T.length) : (spawn T pid image parent)[o]? = T[o]? := by
  rw [spawn]
  rcases Nat.lt_or_gt_of_ne h with h | h
  · exact List.getElem?_append_left h
  · rw [List.getElem?_eq_none (by simp; omega), List.getElem?_eq_none (by omega)]

@[simp] theorem length_spawn : (spawn T pid image parent).length = T.length + 1 := by simp [spawn]

@[simp] theorem getElem?_spawn_self : (spawn T pid image parent)[T.length]? = some ⟨pid, image, parent, true⟩ := by
  simp [spawn]

theorem alive_spawn (h : o ≠ T.length) : alive (spawn T pid image parent) o = alive T o := by
  rw [alive, getElem?_spawn h, alive]

theorem pidOf_spawn (h : o ≠ T.length) : pidOf (spawn T pid image parent) o = pidOf T o := by
  rw [pidOf, getElem?_spawn h, pidOf]

/-- The processes of a table in a later one: no process comes to life again, and each keeps its number. -/
structure Later (T T' : Table I) : Prop where
  length : T.length ≤ T'.length
  alive : ∀ o < T.length, alive T' o → alive T o
  pidOf : ∀ o < T.length, pidOf T' o = pidOf T o

theorem Later.refl (T : Table I) : Later T T := ⟨Nat.le_refl _, fun _ _ h => h, fun _ _ => rfl⟩

theorem later_kill (T : Table I) (a : Nat) : Later T (kill T a) where
  length := by simp
  alive := fun o _ h => by
    simp at h
    exact h.1
  pidOf := fun o _ => pidOf_kill

theorem later_spawn (T : Table I) (pid : Nat) (image : I) (parent : Nat) : Later T (spawn T pid image parent) where
  length := by simp
  alive := fun o ho h => by rwa [alive_spawn (Nat.ne_of_lt ho)] at h
  pidOf := fun o ho => pidOf_spawn (Nat.ne_of_lt ho)

theorem Later.dead {T T' : Table I} (h : Later T T') (ho : o < T.length) (hd : Procs.alive T o = false) :
    Procs.alive T' o = false := by
  by_contra hne
  rw [h.alive o ho (by simpa using hne)] at hd
  cases hd

/-! ## Numbers in use -/

theorem free_iff : free T held pid ↔ ∀ o, ¬ used T held pid o := by
  simp only [free, List.all_eq_true, List.mem_range, Bool.not_eq_true', Bool.not_eq_true]
  exact ⟨fun h o => Bool.eq_false_iff.2 fun hu => by simp [h o (lt_of_pidOf (used_iff.1 hu).1)] at hu, fun h o _ => h o⟩

theorem distinct_of_nodup (h : (T.map Proc.pid).Nodup) : Distinct T held := by
  intro pid o o' ho ho'
  have hget : ∀ {o}, used T held pid o → (T.map Proc.pid)[o]? = some pid := fun hu => by
    rw [List.getElem?_map]
    exact (used_iff.1 hu).1
  exact (List.getElem?_inj (by simpa using lt_of_pidOf (used_iff.1 ho).1) h).1 ((hget ho).trans (hget ho').symm)

theorem Distinct.anti (hd : Distinct T held) (h : ∀ o pid, used T held' pid o → used T held pid o) : Distinct T held' :=
  fun pid o o' ho ho' => hd pid o o' (h o pid ho) (h o' pid ho')

theorem used_mono (h : ∀ o ∈ held', o ∈ held) (hu : used T held' pid o) : used T held pid o := by
  obtain ⟨hp, ha⟩ := used_iff.1 hu
  exact used_iff.2 ⟨hp, ha.imp_right (h o)⟩

theorem used_of_kill (hu : used (kill T a) held pid o) : used T held pid o := by
  obtain ⟨hp, ha⟩ := used_iff.1 hu
  refine used_iff.2 ⟨by simpa using hp, ha.imp_left fun h => ?_⟩
  simp at h
  exact h.1

theorem Distinct.kill (hd : Distinct T held) : Distinct (kill T a) held :=
  fun pid o o' ho ho' => hd pid o o' (used_of_kill ho) (used_of_kill ho')

/-- A handle to a process that is in use makes no difference. -/
theorem Distinct.cons (hd : Distinct T held) (ha : used T held q a) : Distinct T (a :: held) := by
  refine hd.anti fun o pid hu => ?_
  obtain ⟨hp, h⟩ := used_iff.1 hu
  rcases h with h | h
  · exact used_iff.2 ⟨hp, .inl h⟩
  · rcases List.mem_cons.1 h with rfl | h
    · exact used_iff.2 ⟨hp, (used_iff.1 ha).2⟩
    · exact used_iff.2 ⟨hp, .inr h⟩

/-- A new process with a number that is free, and handles to it. -/
theorem Distinct.spawn (hd : Distinct T held) (hf : free T held pid) (hheld : ∀ o ∈ held', o = T.length ∨ o ∈ held) :
    Distinct (spawn T pid image parent) held' := by
  have hold : ∀ o q, o ≠ T.length → used (Procs.spawn T pid image parent) held' q o → used T held q o := by
    intro o q ho hu
    obtain ⟨hp, h⟩ := used_iff.1 hu
    rw [pidOf_spawn ho] at hp
    rw [alive_spawn ho] at h
    exact used_iff.2 ⟨hp, h.imp_right fun h => (hheld o h).resolve_left ho⟩
  have hnew : ∀ q, used (Procs.spawn T pid image parent) held' q T.length → q = pid := by
    intro q hu
    have hp := (used_iff.1 hu).1
    rw [pidOf, getElem?_spawn_self, Option.map_some, Option.some.injEq] at hp
    exact hp.symm
  intro q o o' ho ho'
  by_cases h : o = T.length
  · by_cases h' : o' = T.length
    · rw [h, h']
    · subst h
      exact absurd (hold o' q h' ho') (hnew q ho ▸ free_iff.1 hf o')
  · by_cases h' : o' = T.length
    · subst h'
      exact absurd (hold o q h ho) (hnew q ho' ▸ free_iff.1 hf o)
    · exact hd q o o' (hold o q h ho) (hold o' q h' ho')

theorem used_of_lookup (h : lookup T held pid = some o) : used T held pid o := List.find?_some h

/-- **A number names the process that uses it.** -/
theorem lookup_of_used (hd : Distinct T held) (hu : used T held pid o) : lookup T held pid = some o := by
  have hlt := lt_of_pidOf (used_iff.1 hu).1
  cases h : lookup T held pid with
  | none => exact absurd hu (List.find?_eq_none.1 h o (List.mem_range.2 hlt))
  | some o' => rw [hd pid o' o (used_of_lookup h) hu]

end Procs
