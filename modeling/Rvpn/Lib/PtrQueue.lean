import Mathlib.Data.List.Basic
import Mathlib.Data.List.Nodup
import Mathlib.Logic.Function.Basic

/-!
# Singly linked queues in a heap

A queue is a `head` and a `tail` pointer into a heap of cells, each cell with a value and a `next`
pointer (`none` is NULL). `append` links a cell behind the tail, `scan` is the search loop
`while (req && !test(req)) { prev = req; req = req->next; }`, and `unlink` takes the cell it
stopped at out of the list. Reading a block that is not allocated gives `none`, so a result `some`
says that no dangling pointer was followed.

`Seg H p l q` is the list segment from `p` to `q` with its cells spelled out, `Queue H head tail l`
the well-formed queue. Every operation has one specification over `Queue`:

* `append_spec` — the new cell is last;
* `scan_spec` — the loop stops within the length of the list, at the first match;
* `unlink_spec` — the other cells stay, in order.
-/

namespace PtrQueue

variable {α : Type}

/-- A block address. -/
abbrev Ptr := Nat

structure Cell (α : Type) where
  val : α
  next : Option Ptr

/-- The allocated blocks. -/
abbrev Heap (α : Type) := Ptr → Option (Cell α)

def write (H : Heap α) (a : Ptr) (c : Cell α) : Heap α := Function.update H a (some c)

def free (H : Heap α) (a : Ptr) : Heap α := Function.update H a none

/-- `a->next = p`. -/
def setNext (H : Heap α) (a : Ptr) (p : Option Ptr) : Option (Heap α) :=
  (H a).map fun c => write H a { c with next := p }

/-- `if (tail) { tail->next = p; tail = p; } else head = tail = p;` -/
def append (H : Heap α) (head tail : Option Ptr) (p : Ptr) : Option (Heap α × Option Ptr × Option Ptr) :=
  match tail with
  | some t => (setNext H t (some p)).map fun H' => (H', head, some p)
  | none => some (H, some p, some p)

/-- The search loop, giving `prev` and `req` where it stops; the first argument bounds its rounds. -/
def scan (H : Heap α) (test : α → Bool) : Nat → Option Ptr → Option Ptr → Option (Option Ptr × Option Ptr)
  | _, prev, none => some (prev, none)
  | 0, _, some _ => none
  | n + 1, prev, some a =>
    match H a with
    | some c => if test c.val then some (prev, some a) else scan H test n (some a) c.next
    | none => none

/-- `if (prev) prev->next = req->next; else head = req->next; if (req == tail) tail = prev;` -/
def unlink (H : Heap α) (head tail prev : Option Ptr) (a : Ptr) : Option (Heap α × Option Ptr × Option Ptr) :=
  match H a with
  | none => none
  | some c =>
    let tail' := if tail = some a then prev else tail
    match prev with
    | some b => (setNext H b c.next).map fun H' => (H', head, tail')
    | none => some (H, c.next, tail')

/-! ## List segments -/

/-- Following `next` from `p` passes exactly the cells `l` and arrives at `q`. -/
def Seg (H : Heap α) : Option Ptr → List (Ptr × α) → Option Ptr → Prop
  | p, [], q => p = q
  | p, (a, v) :: l, q => p = some a ∧ ∃ nx, H a = some ⟨v, nx⟩ ∧ Seg H nx l q

/-- The addresses of a segment's cells. -/
def ptrs (l : List (Ptr × α)) : List Ptr := l.map Prod.fst

@[simp] theorem ptrs_nil : ptrs ([] : List (Ptr × α)) = [] := rfl

@[simp] theorem ptrs_cons (x : Ptr × α) (l : List (Ptr × α)) : ptrs (x :: l) = x.1 :: ptrs l := rfl

@[simp] theorem ptrs_append (l m : List (Ptr × α)) : ptrs (l ++ m) = ptrs l ++ ptrs m := List.map_append

theorem seg_append {H : Heap α} {p q : Option Ptr} {l m : List (Ptr × α)} :
    Seg H p (l ++ m) q ↔ ∃ r, Seg H p l r ∧ Seg H r m q := by
  induction l generalizing p with
  | nil => simp [Seg]
  | cons x l ih =>
    simp only [List.cons_append, Seg, ih]
    constructor
    · rintro ⟨hp, nx, hx, r, hl, hm⟩; exact ⟨r, ⟨hp, nx, hx, hl⟩, hm⟩
    · rintro ⟨r, ⟨hp, nx, hx, hl⟩, hm⟩; exact ⟨hp, nx, hx, r, hl, hm⟩

/-- **Frame**: a heap that agrees on the segment's own cells has the same segment. -/
theorem Seg.frame {H H' : Heap α} : ∀ {l : List (Ptr × α)} {p q : Option Ptr}, Seg H p l q →
    (∀ a ∈ ptrs l, H' a = H a) → Seg H' p l q
  | [], _, _, h, _ => h
  | (a, v) :: l, p, q, ⟨hp, nx, hx, hl⟩, hf =>
    ⟨hp, nx, (hf a (by simp)).trans hx, hl.frame fun b hb => hf b (by simp [hb])⟩

theorem Seg.cell {H : Heap α} : ∀ {l : List (Ptr × α)} {p q : Option Ptr}, Seg H p l q →
    ∀ x ∈ l, ∃ nx, H x.1 = some ⟨x.2, nx⟩
  | (a, v) :: l, p, q, ⟨_, nx, hx, hl⟩, x, hm => by
    rcases List.mem_cons.1 hm with rfl | hm
    · exact ⟨nx, hx⟩
    · exact hl.cell x hm

/-- A well-formed queue with the cells `l`. -/
structure Queue (H : Heap α) (head tail : Option Ptr) (l : List (Ptr × α)) : Prop where
  seg : Seg H head l none
  nodup : (ptrs l).Nodup
  last : tail = (ptrs l).getLast?

theorem Queue.empty (H : Heap α) : Queue H none none [] := ⟨rfl, by simp, rfl⟩

theorem Queue.frame {H H' : Heap α} {head tail : Option Ptr} {l : List (Ptr × α)} (h : Queue H head tail l)
    (hf : ∀ a ∈ ptrs l, H' a = H a) : Queue H' head tail l :=
  ⟨h.seg.frame hf, h.nodup, h.last⟩

theorem Queue.head_none_iff {H : Heap α} {head tail : Option Ptr} {l : List (Ptr × α)}
    (h : Queue H head tail l) : head = none ↔ tail = none := by
  cases l with
  | nil => exact iff_of_true h.seg h.last
  | cons x l =>
    have hh : head = some x.1 := h.seg.1
    rw [h.last, hh]
    simp

theorem Queue.tail_next {H : Heap α} {head : Option Ptr} {t : Ptr} {l : List (Ptr × α)}
    (h : Queue H head (some t) l) : ∃ m v, l = m ++ [(t, v)] ∧ H t = some ⟨v, none⟩ := by
  rcases List.eq_nil_or_concat l with rfl | ⟨m, ⟨a, v⟩, rfl⟩
  · cases h.last
  rw [List.concat_eq_append] at h ⊢
  have ha : a = t := by
    have hl := h.last
    rw [ptrs_append, ptrs_cons, ptrs_nil, List.getLast?_append] at hl
    simpa using hl.symm
  subst ha
  obtain ⟨r, -, -, nx, hx, rfl⟩ := seg_append.1 h.seg
  exact ⟨m, v, rfl, hx⟩

/-! ## The operations -/

/-- **Enqueue**: a fresh cell with a NULL `next` becomes the last one. -/
theorem append_spec {H : Heap α} {head tail : Option Ptr} {l : List (Ptr × α)} {p : Ptr} {v : α}
    (h : Queue H head tail l) (hp : p ∉ ptrs l) (hv : H p = some ⟨v, none⟩) :
    ∃ H' head' tail', append H head tail p = some (H', head', tail') ∧
      Queue H' head' tail' (l ++ [(p, v)]) ∧ (∀ a, a ∉ ptrs l → H' a = H a) ∧
      ∀ a, (H' a).map Cell.val = (H a).map Cell.val := by
  cases tail with
  | none =>
    obtain rfl : l = [] := by
      have hl := h.last.symm
      simpa [ptrs] using hl
    have hq : Queue H (some p) (some p) [(p, v)] := ⟨⟨rfl, none, hv, rfl⟩, by simp, by simp⟩
    exact ⟨H, some p, some p, rfl, by simpa using hq, fun _ _ => rfl, fun _ => rfl⟩
  | some t =>
    obtain ⟨m, w, rfl, ht⟩ := h.tail_next
    obtain ⟨r, hm, hr, -⟩ := seg_append.1 h.seg
    have hnd := h.nodup
    rw [ptrs_append, ptrs_cons, ptrs_nil, List.nodup_append] at hnd
    have htm : t ∉ ptrs m := fun hmem => hnd.2.2 t hmem t (by simp) rfl
    have hpt : p ≠ t := fun e => hp (by simp [e])
    have hwt : write H t ⟨w, some p⟩ t = some ⟨w, some p⟩ := by simp [write]
    have hwp : write H t ⟨w, some p⟩ p = some ⟨v, none⟩ := by simp [write, hpt, hv]
    have hoth : ∀ a, a ≠ t → write H t ⟨w, some p⟩ a = H a := fun a ha => by simp [write, ha]
    refine ⟨write H t ⟨w, some p⟩, head, some p, by simp [append, setNext, ht], ⟨?_, ?_, ?_⟩, ?_, ?_⟩
    · rw [List.append_assoc]
      have hseg : Seg (write H t ⟨w, some p⟩) r [(t, w), (p, v)] none :=
        ⟨hr, some p, hwt, rfl, none, hwp, rfl⟩
      exact seg_append.2 ⟨r, hm.frame fun a ha => hoth a fun e => htm (e ▸ ha), hseg⟩
    · rw [ptrs_append, List.nodup_append]
      refine ⟨h.nodup, by simp, ?_⟩
      intro a ha b hb
      obtain rfl : b = p := by simpa using hb
      exact fun e => hp (e ▸ ha)
    · simp
    · intro a ha
      exact hoth a fun e => ha (by simp [e])
    · intro a
      by_cases ha : a = t
      · subst ha; rw [hwt, ht]; rfl
      · rw [hoth a ha]

/-- **The search loop** stops within the length of the list, at the first cell that passes the test. -/
theorem scan_spec {H : Heap α} (test : α → Bool) : ∀ {l : List (Ptr × α)} {p : Option Ptr} {n : Nat},
    Seg H p l none → l.length ≤ n → ∀ prev,
    (∃ pre a v post, l = pre ++ (a, v) :: post ∧ (∀ x ∈ pre, test x.2 = false) ∧ test v = true ∧
      scan H test n prev p = some ((ptrs pre).getLast?.or prev, some a)) ∨
    ((∀ x ∈ l, test x.2 = false) ∧ scan H test n prev p = some ((ptrs l).getLast?.or prev, none))
  | [], p, n, h, _, prev => by
    obtain rfl : p = none := h
    exact .inr ⟨by simp, by cases n <;> rfl⟩
  | (a, v) :: l, p, 0, _, hn, _ => by simp at hn
  | (a, v) :: l, p, n + 1, ⟨hp, nx, hx, hl⟩, hn, prev => by
    subst hp
    have hstep : scan H test (n + 1) prev (some a) =
        if test v then some (prev, some a) else scan H test n (some a) nx := by simp [scan, hx]
    cases hv : test v with
    | true => exact .inl ⟨[], a, v, l, rfl, by simp, hv, by simp [hstep, hv]⟩
    | false =>
      have hor : ∀ m : List Ptr, (a :: m).getLast?.or prev = m.getLast?.or (some a) := by
        intro m
        cases m with
        | nil => simp
        | cons b m =>
          obtain ⟨z, hz⟩ : ∃ z, (b :: m).getLast? = some z := ⟨_, List.getLast?_eq_some_getLast (by simp)⟩
          rw [List.getLast?_cons_cons, hz]; rfl
      rw [hstep, hv]
      rcases scan_spec test hl (Nat.le_of_succ_le_succ hn) (some a) with ⟨pre, b, w, post, rfl, hpre, hw, hs⟩ | ⟨hall, hs⟩
      · refine .inl ⟨(a, v) :: pre, b, w, post, rfl, ?_, hw, ?_⟩
        · intro x hxm
          rcases List.mem_cons.1 hxm with rfl | hxm
          · exact hv
          · exact hpre x hxm
        · rw [ptrs_cons, hor]; simpa using hs
      · refine .inr ⟨?_, ?_⟩
        · intro x hxm
          rcases List.mem_cons.1 hxm with rfl | hxm
          · exact hv
          · exact hall x hxm
        · rw [ptrs_cons, hor]; simpa using hs

/-- **Unlink** at any position: the other cells stay, in order. -/
theorem unlink_spec {H : Heap α} {head tail : Option Ptr} {pre post : List (Ptr × α)} {a : Ptr} {v : α}
    (h : Queue H head tail (pre ++ (a, v) :: post)) :
    ∃ H' head' tail', unlink H head tail (ptrs pre).getLast? a = some (H', head', tail') ∧
      Queue H' head' tail' (pre ++ post) ∧ (∀ b, b ∉ ptrs pre → H' b = H b) ∧
      ∀ b, (H' b).map Cell.val = (H b).map Cell.val := by
  obtain ⟨r, hpre, ⟨rfl, nx, hx, hpost⟩⟩ := seg_append.1 h.seg
  have hnd := h.nodup
  rw [ptrs_append, ptrs_cons, List.nodup_append, List.nodup_cons] at hnd
  obtain ⟨hndp, ⟨hapost, hndpost⟩, hdis⟩ := hnd
  have hapre : a ∉ ptrs pre := fun hm => hdis a hm a (by simp) rfl
  have hnd' : (ptrs (pre ++ post)).Nodup := by
    rw [ptrs_append, List.nodup_append]
    exact ⟨hndp, hndpost, fun b hb c hc => hdis b hb c (by simp [hc])⟩
  have hlast : (if tail = some a then (ptrs pre).getLast? else tail) = (ptrs (pre ++ post)).getLast? := by
    rw [h.last, ptrs_append, ptrs_append, ptrs_cons]
    cases hpo : ptrs post with
    | nil => simp
    | cons b m =>
      have hlm : (b :: m).getLast? ≠ some a := fun e => hapost (hpo ▸ List.mem_of_getLast? e)
      rw [List.getLast?_append, List.getLast?_append, List.getLast?_cons_cons]
      cases hg : (b :: m).getLast? with
      | none => simp at hg
      | some c => rw [hg] at hlm; simp [hlm]
  rcases List.eq_nil_or_concat pre with rfl | ⟨m, ⟨b, w⟩, rfl⟩
  · refine ⟨H, nx, (ptrs post).getLast?, ?_, ⟨hpost, by simpa using hndpost, by simp⟩, fun _ _ => rfl,
      fun _ => rfl⟩
    simp only [ptrs_nil, List.getLast?_nil, List.nil_append] at hlast ⊢
    simp [unlink, hx, hlast]
  · rw [List.concat_eq_append] at *
    obtain ⟨q, hm, rfl, ny, hb, hny⟩ := seg_append.1 hpre
    obtain rfl : ny = some a := hny
    rw [ptrs_append, ptrs_cons, ptrs_nil, List.nodup_append] at hndp
    have hbm : b ∉ ptrs m := fun hmem => hndp.2.2 b hmem b (by simp) rfl
    have hbpost : b ∉ ptrs post := fun hmem => hdis b (by simp) b (by simp [hmem]) rfl
    have hwb : write H b ⟨w, nx⟩ b = some ⟨w, nx⟩ := by simp [write]
    have hoth : ∀ c, c ≠ b → write H b ⟨w, nx⟩ c = H c := fun c hc => by simp [write, hc]
    have hgl : (ptrs (m ++ [(b, w)])).getLast? = some b := by simp
    refine ⟨write H b ⟨w, nx⟩, head, (ptrs (m ++ [(b, w)] ++ post)).getLast?, ?_, ⟨?_, hnd', rfl⟩, ?_, ?_⟩
    · rw [hgl] at hlast ⊢
      simp [unlink, hx, setNext, hb, hlast]
    · rw [List.append_assoc]
      refine seg_append.2 ⟨some b, hm.frame fun c hc => hoth c fun e => hbm (e ▸ hc), rfl, nx, hwb, ?_⟩
      exact hpost.frame fun c hc => hoth c fun e => hbpost (e ▸ hc)
    · intro c hc
      exact hoth c fun e => hc (by simp [e])
    · intro c
      by_cases hc : c = b
      · subst hc; rw [hwb, hb]; rfl
      · rw [hoth c hc]

/-! ## Lists without a tail pointer -/

/-- `p->next = head; head = p;` -/
def push (H : Heap α) (head : Option Ptr) (p : Ptr) : Option (Heap α × Option Ptr) :=
  (setNext H p head).map fun H' => (H', some p)

/-- `*pp = a->next`, where `pp` is the `next` field of the cell before, or the head pointer. -/
def remove (H : Heap α) (head prev : Option Ptr) (a : Ptr) : Option (Heap α × Option Ptr) :=
  match H a with
  | none => none
  | some c =>
    match prev with
    | some b => (setNext H b c.next).map fun H' => (H', head)
    | none => some (H, c.next)

theorem push_spec {H : Heap α} {head : Option Ptr} {l : List (Ptr × α)} {p : Ptr} {v : α} {nx : Option Ptr}
    (h : Seg H head l none) (hp : p ∉ ptrs l) (hv : H p = some ⟨v, nx⟩) :
    push H head p = some (write H p ⟨v, head⟩, some p) ∧ Seg (write H p ⟨v, head⟩) (some p) ((p, v) :: l) none := by
  have hself : write H p ⟨v, head⟩ p = some ⟨v, head⟩ := by simp [write]
  refine ⟨by simp [push, setNext, hv], rfl, head, hself, h.frame fun a ha => ?_⟩
  have hne : a ≠ p := fun e => hp (e ▸ ha)
  simp [write, hne]

/-- It is the unlinking of a queue whose tail nobody looks at. -/
theorem unlink_eq_remove (H : Heap α) (head tail prev : Option Ptr) (a : Ptr) :
    unlink H head tail prev a =
      (remove H head prev a).map fun r => (r.1, r.2, if tail = some a then prev else tail) := by
  cases hc : H a with
  | none => simp [unlink, remove, hc]
  | some c =>
    cases prev with
    | none => simp [unlink, remove, hc]
    | some b => cases hs : setNext H b c.next <;> simp [unlink, remove, hc, hs]

theorem remove_spec {H : Heap α} {head : Option Ptr} {pre post : List (Ptr × α)} {a : Ptr} {v : α}
    (h : Seg H head (pre ++ (a, v) :: post) none) (hnd : (ptrs (pre ++ (a, v) :: post)).Nodup) :
    ∃ H' head', remove H head (ptrs pre).getLast? a = some (H', head') ∧ Seg H' head' (pre ++ post) none ∧
      (∀ b, b ∉ ptrs pre → H' b = H b) ∧ ∀ b, (H' b).map Cell.val = (H b).map Cell.val := by
  obtain ⟨H', head', tail', hun, hq, hfr, hval⟩ := unlink_spec ⟨h, hnd, rfl⟩
  rw [unlink_eq_remove] at hun
  obtain ⟨⟨H₁, hd₁⟩, hrem, he⟩ := Option.map_eq_some_iff.1 hun
  cases he
  exact ⟨H₁, hd₁, hrem, hq.seg, hfr, hval⟩

/-- Another value in one cell, wherever it is. -/
theorem Seg.setVal {H : Heap α} {a : Ptr} {c : Cell α} (hc : H a = some c) (w : α) :
    ∀ {l : List (Ptr × α)} {p q : Option Ptr}, Seg H p l q → (ptrs l).Nodup →
      Seg (write H a { c with val := w }) p (l.map fun x => if x.1 = a then (x.1, w) else x) q
  | [], _, _, h, _ => h
  | (b, v) :: l, p, q, ⟨hp, nx, hx, hl⟩, hnd => by
    obtain ⟨-, hnd⟩ := List.nodup_cons.1 hnd
    have ih := hl.setVal hc w hnd
    by_cases hb : b = a
    · subst hb
      obtain rfl := Option.some.inj (hc.symm.trans hx)
      simp only [List.map_cons, if_true]
      exact ⟨hp, nx, by simp [write], ih⟩
    · simp only [List.map_cons, if_neg hb]
      exact ⟨hp, nx, by simp [write, hb, hx], ih⟩

end PtrQueue
