import Mathlib.Data.List.Basic

/-!
# Runs of a partial step function

A system is a state type `S`, an action type `A` and `step : S → A → Option S`; `none` means the
action cannot be taken in that state. `run` folds `step` over a list of actions, `Guarded` says that
every action taken meets a condition in the state it is taken in, and `Guarded.invariant` is the one
induction over runs: what holds at the start and survives every guarded step holds at the end.
-/

namespace Lts

variable {S A : Type} {step : S → A → Option S}

/-- The run of `step` over a list of actions. -/
def run (step : S → A → Option S) : S → List A → Option S
  | s, [] => some s
  | s, a :: as =>
    match step s a with
    | some t => run step t as
    | none => none

/-- Every action of the list meets `ok` in the state it is taken in. -/
def Guarded (step : S → A → Option S) (ok : S → A → Prop) : S → List A → Prop
  | _, [] => True
  | s, a :: as => ok s a ∧ ∀ t, step s a = some t → Guarded step ok t as

/-- `t` is reached from `s` by some run. -/
def Reach (step : S → A → Option S) (s t : S) : Prop := ∃ as, run step s as = some t

@[simp] theorem run_nil (s : S) : run step s [] = some s := rfl

theorem run_cons_of {s t : S} {a : A} (as : List A) (h : step s a = some t) :
    run step s (a :: as) = run step t as := by simp [run, h]

theorem run_cons {s u : S} {a : A} {as : List A} :
    run step s (a :: as) = some u ↔ ∃ t, step s a = some t ∧ run step t as = some u := by
  simp only [run]
  cases h : step s a with
  | some t => simp
  | none => simp

theorem run_append {s u : S} {as bs : List A} :
    run step s (as ++ bs) = some u ↔ ∃ t, run step s as = some t ∧ run step t bs = some u := by
  induction as generalizing s with
  | nil => simp
  | cons a as ih =>
    rw [List.cons_append, run_cons]
    constructor
    · rintro ⟨t, ht, hu⟩
      obtain ⟨v, hv, hu⟩ := ih.1 hu
      exact ⟨v, run_cons.2 ⟨t, ht, hv⟩, hu⟩
    · rintro ⟨v, hv, hu⟩
      obtain ⟨t, ht, hv⟩ := run_cons.1 hv
      exact ⟨t, ht, ih.2 ⟨v, hv, hu⟩⟩

theorem Reach.trans {s t u : S} : Reach step s t → Reach step t u → Reach step s u
  | ⟨as, h⟩, ⟨bs, k⟩ => ⟨as ++ bs, run_append.2 ⟨t, h, k⟩⟩

theorem Guarded.cons {ok : S → A → Prop} {s t : S} {a : A} {as : List A} (ha : ok s a) (hs : step s a = some t)
    (h : Guarded step ok t as) : Guarded step ok s (a :: as) :=
  ⟨ha, fun _ hu => Option.some.inj (hs.symm.trans hu) ▸ h⟩

instance Guarded.decidable {ok : S → A → Prop} [∀ s a, Decidable (ok s a)] :
    ∀ (as : List A) (s : S), Decidable (Guarded step ok s as)
  | [], _ => inferInstanceAs (Decidable True)
  | a :: as, s =>
    have : Decidable (∀ t, step s a = some t → Guarded step ok t as) :=
      match h : step s a with
      | none => .isTrue fun t ht => by cases ht
      | some u =>
        have : Decidable (Guarded step ok u as) := Guarded.decidable as u
        decidable_of_iff (Guarded step ok u as) ⟨fun hu t ht => Option.some.inj ht ▸ hu, fun hall => hall u rfl⟩
    inferInstanceAs (Decidable (ok s a ∧ ∀ t, step s a = some t → Guarded step ok t as))

/-- A condition on the actions alone guards a run as soon as every action of the list meets it. -/
theorem guarded_of_forall {p : A → Prop} : ∀ {as : List A} {s : S}, (∀ a ∈ as, p a) →
    Guarded step (fun _ a => p a) s as
  | [], _, _ => trivial
  | a :: as, _, h => ⟨h a (by simp), fun _ _ => guarded_of_forall fun b hb => h b (by simp [hb])⟩

theorem Guarded.and {ok ok' : S → A → Prop} {as : List A} {s : S} (h : Guarded step ok s as) (h' : Guarded step ok' s as) :
    Guarded step (fun s a => ok s a ∧ ok' s a) s as := by
  induction as generalizing s with
  | nil => trivial
  | cons a as ih => exact ⟨⟨h.1, h'.1⟩, fun t ht => ih (h.2 t ht) (h'.2 t ht)⟩

/-- The states in which the actions of a list are taken are those its proper prefixes lead to. -/
theorem guarded_prefix (as : List A) (s : S) :
    Guarded step (fun t a => ∃ pre, pre ++ [a] <+: as ∧ run step s pre = some t) s as := by
  suffices h : ∀ (bs : List A) (pre : List A) (t : S), pre ++ bs = as → run step s pre = some t →
      Guarded step (fun t a => ∃ pre, pre ++ [a] <+: as ∧ run step s pre = some t) t bs from h as [] s rfl rfl
  intro bs
  induction bs with
  | nil => exact fun _ _ _ _ => trivial
  | cons b bs ih =>
    intro pre t happ ht
    have happ' : pre ++ [b] ++ bs = as := by rw [List.append_assoc]; exact happ
    refine ⟨⟨pre, ⟨bs, happ'⟩, ht⟩, fun u hu => ih (pre ++ [b]) u happ' (run_append.2 ⟨t, ht, ?_⟩)⟩
    exact run_cons.2 ⟨u, hu, rfl⟩

/-- **The run rule**: an invariant of every guarded step is an invariant of every guarded run. -/
theorem Guarded.invariant {ok : S → A → Prop} {I : S → Prop}
    (hstep : ∀ s a t, I s → ok s a → step s a = some t → I t) :
    ∀ {as : List A} {s t : S}, Guarded step ok s as → I s → run step s as = some t → I t
  | [], _, _, _, hI, hr => by cases hr; exact hI
  | a :: as, s, t, hg, hI, hr => by
    obtain ⟨u, hu, hr⟩ := run_cons.1 hr
    exact Guarded.invariant hstep (hg.2 u hu) (hstep s a u hI hg.1 hu) hr

/-- **The progress rule**: when an invariant lets every guarded step be taken and survives it, a guarded run runs
through. -/
theorem Guarded.progress {ok : S → A → Prop} {I : S → Prop}
    (hstep : ∀ s a, I s → ok s a → ∃ t, step s a = some t ∧ I t) :
    ∀ {as : List A} {s : S}, Guarded step ok s as → I s → ∃ t, run step s as = some t ∧ I t
  | [], s, _, hI => ⟨s, rfl, hI⟩
  | a :: as, s, hg, hI => by
    obtain ⟨u, hu, hIu⟩ := hstep s a hI hg.1
    obtain ⟨t, ht, hIt⟩ := Guarded.progress hstep (hg.2 u hu) hIu
    exact ⟨t, run_cons.2 ⟨u, hu, ht⟩, hIt⟩

/-- The run rule without a guard. -/
theorem run_invariant {I : S → Prop} (hstep : ∀ s a t, I s → step s a = some t → I t)
    {as : List A} {s t : S} (hI : I s) (hr : run step s as = some t) : I t := by
  have hg : Guarded step (fun _ _ => True) s as := guarded_of_forall fun _ _ => trivial
  exact hg.invariant (fun s a t hs _ => hstep s a t hs) hI hr

/-- **The last writer**: what an action that `touch`es leaves (`Q b`) holds until the next one that does. -/
theorem run_last {B : Type} {touch : A → Option B} {Q : B → S → Prop}
    (hset : ∀ s a t b, touch a = some b → step s a = some t → Q b t)
    (hkeep : ∀ s a t b, touch a = none → step s a = some t → Q b s → Q b t) :
    ∀ {as : List A} {s t : S} {b : B}, Q b s → run step s as = some t → Q ((as.filterMap touch).getLast?.getD b) t
  | [], _, _, _, hQ, hr => by cases hr; exact hQ
  | a :: as, s, t, b, hQ, hr => by
    obtain ⟨u, hu, hr⟩ := run_cons.1 hr
    cases ha : touch a with
    | none =>
      rw [List.filterMap_cons_none ha]
      exact run_last hset hkeep (hkeep s a u b ha hu hQ) hr
    | some c =>
      rw [List.filterMap_cons_some ha, List.getLast?_cons]
      exact run_last hset hkeep (hset s a u c ha hu) hr

/-- **The countdown rule**: a measure that the actions in `p` lower by one and the others keep is used up by those in
`p`. -/
theorem run_countdown {I : S → Prop} {m : S → Nat} {p : A → Bool}
    (hstep : ∀ s a t, I s → step s a = some t → I t ∧ m s = m t + if p a then 1 else 0) :
    ∀ {as : List A} {s t : S}, I s → run step s as = some t → I t ∧ m s = m t + as.countP p
  | [], _, _, hI, hr => by
    cases hr
    exact ⟨hI, rfl⟩
  | a :: as, s, t, hI, hr => by
    obtain ⟨u, hu, hr⟩ := run_cons.1 hr
    obtain ⟨hIu, hmu⟩ := hstep s a u hI hu
    obtain ⟨hIt, hmt⟩ := run_countdown hstep hIu hr
    refine ⟨hIt, ?_⟩
    rw [List.countP_cons]
    omega

end Lts
