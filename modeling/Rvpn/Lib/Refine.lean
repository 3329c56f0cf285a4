import Rvpn.Lib.Run

/-!
# Requests and answers

A server with states `S` takes requests `O` and gives answers `R`, or `none` where it does not come back. What it is
for is said by a second server that always answers. `serve_refines` is forward simulation: if every answer is the one
the specification gives, and the relation between the states is kept, then so are all answers to any list of requests.

Where the server is many threads, their steps are those of a transition system, and `emit` says which requests a step
serves. `performed_refines` is the same rule for its runs: what a run leaves is what the requests it has served make of
the start, one after another. `performed_fifo` is for a system that takes requests now and serves them later: if each
step takes from the front of what is pending and adds at its end, all is served once and in order.
-/

namespace Refine

variable {S A O R : Type}

/-- The answers to a list of requests, and the state after them. -/
def serve (op : S → O → Option (R × S)) : S → List O → Option (List R × S)
  | s, [] => some ([], s)
  | s, o :: os =>
    match op s o with
    | none => none
    | some (r, t) => (serve op t os).map fun rest => (r :: rest.1, rest.2)

/-- The answers of a specification. -/
def meaning (spec : A → O → R × A) : A → List O → List R × A
  | a, [] => ([], a)
  | a, o :: os =>
    let rest := meaning spec (spec a o).2 os
    ((spec a o).1 :: rest.1, rest.2)

variable {op : S → O → Option (R × S)} {spec : A → O → R × A} {s u : S} {a : A} {o : O} {os : List O} {rs : List R}

theorem serve_cons : serve op s (o :: os) = some (rs, u) ↔
    ∃ r t qs, op s o = some (r, t) ∧ serve op t os = some (qs, u) ∧ rs = r :: qs := by
  rw [serve]
  split
  · next h => simp [h]
  · next r t h =>
    rw [Option.map_eq_some_iff]
    constructor
    · rintro ⟨⟨qs, v⟩, hrest, he⟩
      cases he
      exact ⟨r, t, qs, h, hrest, rfl⟩
    · rintro ⟨r', t', qs, h', hrest, rfl⟩
      cases h.symm.trans h'
      exact ⟨(qs, u), hrest, rfl⟩

/-- **Forward simulation**, for requests that meet `ok`. -/
theorem serve_refines {Rel : S → A → Prop} {ok : O → Prop}
    (hstep : ∀ s a o r t, Rel s a → ok o → op s o = some (r, t) → r = (spec a o).1 ∧ Rel t (spec a o).2)
    (hok : ∀ o ∈ os, ok o) (hrel : Rel s a) (h : serve op s os = some (rs, u)) :
    rs = (meaning spec a os).1 ∧ Rel u (meaning spec a os).2 := by
  induction os generalizing s a rs with
  | nil =>
    cases h
    exact ⟨rfl, hrel⟩
  | cons o os ih =>
    obtain ⟨r, t, qs, ho, hrest, rfl⟩ := serve_cons.1 h
    obtain ⟨hr, hrel'⟩ := hstep s a o r t hrel (hok o (by simp)) ho
    obtain ⟨hqs, hu⟩ := ih (fun o ho => hok o (by simp [ho])) hrel' hrest
    exact ⟨by rw [hr, hqs]; rfl, hu⟩

/-! ## Requests that are served by the steps of a run -/

variable {step : S → A → Option S} {emit : S → A → List O} {as : List A} {t : S}

/-- The requests a run serves, in order. -/
def performed (step : S → A → Option S) (emit : S → A → List O) : S → List A → List O
  | _, [] => []
  | s, a :: as =>
    match step s a with
    | none => []
    | some t => emit s a ++ performed step emit t as

theorem performed_refines {B : Type} {apply : B → O → B} {Rel : S → B → Prop} {ok : S → A → Prop}
    (hstep : ∀ s b a t, Rel s b → ok s a → step s a = some t → Rel t ((emit s a).foldl apply b)) {b : B}
    (hg : Lts.Guarded step ok s as) (hrel : Rel s b) (hr : Lts.run step s as = some t) :
    Rel t ((performed step emit s as).foldl apply b) := by
  induction as generalizing s b with
  | nil =>
    cases hr
    exact hrel
  | cons a as ih =>
    obtain ⟨u, hu, hr⟩ := Lts.run_cons.1 hr
    rw [performed, hu, List.foldl_append]
    exact ih (hg.2 u hu) (hstep s b a u hrel hg.1 hu) hr

theorem performed_fifo {taken served : S → A → List O} {pending : S → List O} {I : S → Prop} {ok : S → A → Prop}
    (hstep : ∀ s a t, I s → ok s a → step s a = some t → I t ∧ served s a ++ pending t = pending s ++ taken s a)
    (hg : Lts.Guarded step ok s as) (hI : I s) (hr : Lts.run step s as = some t) :
    performed step served s as ++ pending t = pending s ++ performed step taken s as := by
  induction as generalizing s with
  | nil =>
    cases hr
    exact (List.append_nil _).symm
  | cons a as ih =>
    obtain ⟨u, hu, hr⟩ := Lts.run_cons.1 hr
    obtain ⟨hIu, hfifo⟩ := hstep s a u hI hg.1 hu
    simp only [performed, hu]
    rw [List.append_assoc, ih (hg.2 u hu) hIu hr, ← List.append_assoc, hfifo, List.append_assoc]

end Refine
