import Rvpn.Lib.Run
import Rvpn.Lib.Count
import Rvpn.Lib.PtrQueue
import Rvpn.Device.Basic
import Mathlib.Data.List.Perm.Subperm

/-!
# The pending-read queue of one handle, at pointer level (inject.c:294-378, :575-696)

Threads call `Hook_ReadFile` and `Hook_GetOverlappedResult` on one open handle. Each critical
section on `g_HandleListLock` is one step, and so is what a thread does between two of them:

| step | there |
| --- | --- |
| `readFile`            | `HeapAlloc` of the request, its fields, its socket (`inject.c:316-358`) |
| `lockEnqueue`         | the append at the tail (`:360-370`) |
| `setPending`          | `lpOverlapped->Internal = STATUS_PENDING` (`:372`) |
| `getOverlappedResult` | the test of `Internal` (`:585-590`) |
| `lockUnlink`          | search and unlink (`:593-606`) |
| `receive`             | the receive loop; whether it finds a frame is open here (`:617-660`) |
| `lockReinsert`        | the append of an incomplete request (`:665-676`) |
| `complete`            | `Internal = 0`, the request freed (`:682-694`) |

The heap hands out any address that is not allocated, so an address is reused as soon as its block
is free. Serial numbers (`Block.serial`, `enqueued`, `completed`) are there for the statements only.
-/

namespace Rvpn.PendingQueue

open PtrQueue Lts Count

/-- What a request's block holds besides `next`. -/
structure Block where
  req : PendingRead
  serial : Nat

/-- A hook call in progress in some thread, with the request it works on. -/
inductive Call where
  | enqueuing (ov : OvPtr) (p : Ptr) (serial : Nat)
  | marking (ov : OvPtr)
  | searching (ov : OvPtr)
  | receiving (ov : OvPtr) (p : Ptr) (serial : Nat)
  | matched (ov : OvPtr) (p : Ptr) (serial : Nat)
  | unmatched (ov : OvPtr) (p : Ptr) (serial : Nat)

/-- The block the call has to itself. -/
def Call.block : Call → Option (Ptr × Nat)
  | .enqueuing _ p s | .receiving _ p s | .matched _ p s | .unmatched _ p s => some (p, s)
  | .marking _ | .searching _ => none

/-- The request a `GetOverlappedResult` call has unlinked. -/
def Call.held : Call → Option Nat
  | .receiving _ _ s | .matched _ _ s | .unmatched _ _ s => some s
  | .enqueuing _ _ _ | .marking _ | .searching _ => none

/-- The request a `ReadFile` call has built and not yet enqueued. -/
def Call.built : Call → Option Nat
  | .enqueuing _ _ s => some s
  | _ => none

structure State where
  heap : Heap Block
  /-- `ctx->pending_head`, `ctx->pending_tail`. -/
  head : Option Ptr
  tail : Option Ptr
  /-- `ov->Internal == STATUS_PENDING`. -/
  pending : OvPtr → Bool
  calls : List Call
  /-- Requests allocated, enqueued and completed so far. -/
  allocs : Nat
  enqueued : List Nat
  completed : List Nat

/-- A fresh handle: `memset(ctx, 0, sizeof(*ctx))` (`inject.c:134`). -/
def init (heap : Heap Block) (pending : OvPtr → Bool) : State :=
  ⟨heap, none, none, pending, [], 0, [], []⟩

inductive Act where
  | readFile (p : Ptr) (req : PendingRead)
  | lockEnqueue (i : Nat)
  | setPending (i : Nat)
  | getOverlappedResult (ov : OvPtr)
  | lockUnlink (i : Nat)
  | receive (i : Nat) (found : Bool)
  | lockReinsert (i : Nat)
  | complete (i : Nat)

/-- What call `i` does next; `found` is the outcome of its receive loop. -/
def Call.next (i : Nat) (found : Bool) : Call → Act
  | .enqueuing _ _ _ => .lockEnqueue i
  | .marking _ => .setPending i
  | .searching _ => .lockUnlink i
  | .receiving _ _ _ => .receive i found
  | .matched _ _ _ => .complete i
  | .unmatched _ _ _ => .lockReinsert i

def step (σ : State) : Act → Option State
  | .readFile p req =>
    match σ.heap p with
    | some _ => none
    | none => some { σ with
        heap := write σ.heap p ⟨⟨req, σ.allocs⟩, none⟩
        calls := .enqueuing req.ov p σ.allocs :: σ.calls
        allocs := σ.allocs + 1 }
  | .lockEnqueue i =>
    match σ.calls[i]? with
    | some (.enqueuing ov p s) =>
      (append σ.heap σ.head σ.tail p).map fun (heap, head, tail) => { σ with
        heap, head, tail
        calls := σ.calls.set i (.marking ov)
        enqueued := σ.enqueued ++ [s] }
    | _ => none
  | .setPending i =>
    match σ.calls[i]? with
    | some (.marking ov) => some { σ with
        pending := Function.update σ.pending ov true
        calls := σ.calls.eraseIdx i }
    | _ => none
  | .getOverlappedResult ov =>
    -- not STATUS_PENDING: the call returns the stored result and never looks at the queue
    some (if σ.pending ov then { σ with calls := .searching ov :: σ.calls } else σ)
  | .lockUnlink i =>
    match σ.calls[i]? with
    | some (.searching ov) =>
      match scan σ.heap (fun b => b.req.isFor ov) σ.allocs none σ.head with
      | none => none
      | some (_, none) => some { σ with calls := σ.calls.eraseIdx i }
      | some (prev, some p) =>
        match σ.heap p, unlink σ.heap σ.head σ.tail prev p with
        | some c, some (heap, head, tail) => some { σ with
            heap, head, tail
            calls := σ.calls.set i (.receiving ov p c.val.serial) }
        | _, _ => none
    | _ => none
  | .receive i found =>
    match σ.calls[i]? with
    | some (.receiving ov p s) => some { σ with
        calls := σ.calls.set i (if found then .matched ov p s else .unmatched ov p s) }
    | _ => none
  | .lockReinsert i =>
    match σ.calls[i]? with
    | some (.unmatched _ p _) =>
      (setNext σ.heap p none).bind fun heap =>
        (append heap σ.head σ.tail p).map fun (heap, head, tail) => { σ with
          heap, head, tail
          calls := σ.calls.eraseIdx i }
    | _ => none
  | .complete i =>
    match σ.calls[i]? with
    | some (.matched ov p s) => some { σ with
        heap := free σ.heap p
        pending := Function.update σ.pending ov false
        calls := σ.calls.eraseIdx i
        completed := σ.completed ++ [s] }
    | _ => none

/-! ## The invariant -/

def Call.ptr (c : Call) : Option Ptr := c.block.map Prod.fst

/-- The blocks that calls in progress have to themselves. -/
def blocks (cs : List Call) : List Ptr := cs.filterMap Call.ptr

/-- The requests held by `GetOverlappedResult` calls in progress. -/
def State.held (σ : State) : List Nat := σ.calls.filterMap Call.held

/-- The requests built and not yet enqueued. -/
def State.built (σ : State) : List Nat := σ.calls.filterMap Call.built

def serials (l : List (Ptr × Block)) : List Nat := l.map fun x => x.2.serial

/-- The queue as the list of its requests, from `pending_head`. -/
def reqs (l : List (Ptr × Block)) : List PendingRead := l.map fun x => x.2.req

/-- The queue is well formed with the cells `l`, every call owns its block, no block is in two
places, and every request is in one place. -/
structure Inv (σ : State) (l : List (Ptr × Block)) : Prop where
  queue : Queue σ.heap σ.head σ.tail l
  owned : ∀ c ∈ σ.calls, ∀ p s, c.block = some (p, s) →
    ∃ r nx, σ.heap p = some ⟨⟨r, s⟩, nx⟩ ∧ (c.built = some s → nx = none)
  apart : ∀ p, (ptrs l).count p + (blocks σ.calls).count p ≤ 1
  account : ∀ s, (serials l).count s + σ.held.count s + σ.completed.count s = σ.enqueued.count s
  allocated : ∀ s, σ.enqueued.count s + σ.built.count s = if s < σ.allocs then 1 else 0

theorem inv_init (heap : Heap Block) (pending : OvPtr → Bool) : Inv (init heap pending) [] where
  queue := Queue.empty heap
  owned := by simp [init]
  apart := by simp [init, blocks]
  account := by simp [init, serials, State.held]
  allocated := by simp [init, State.built]

/-- A call in the list, with the list around it. -/
theorem calls_split {cs : List Call} {i : Nat} {c : Call} (h : cs[i]? = some c) :
    ∃ pre post, cs = pre ++ c :: post ∧ (∀ d, (pre ++ c :: post).set i d = pre ++ d :: post) ∧
      (pre ++ c :: post).eraseIdx i = pre ++ post := by
  obtain ⟨hi, rfl⟩ := List.getElem?_eq_some_iff.1 h
  have hcs : cs = cs.take i ++ cs[i] :: cs.drop (i + 1) := by
    rw [List.getElem_cons_drop, List.take_append_drop]
  refine ⟨cs.take i, cs.drop (i + 1), hcs, fun d => ?_, ?_⟩
  · rw [← hcs, List.set_eq_take_append_cons_drop, if_pos hi]
  · rw [← hcs, List.eraseIdx_eq_take_drop_succ]

theorem mem_blocks {cs : List Call} {c : Call} {p : Ptr} {s : Nat} (hc : c ∈ cs) (hb : c.block = some (p, s)) :
    p ∈ blocks cs :=
  List.mem_filterMap.2 ⟨c, hc, by rw [Call.ptr, hb]; rfl⟩

variable {σ σ' : State} {l : List (Ptr × Block)} {i : Nat} {p q : Ptr} {s t : Nat} {c d : Call} {ov : OvPtr}

/-- The queue is never longer than the number of requests allocated, which bounds the search. -/
theorem Inv.length_le (h : Inv σ l) : l.length ≤ σ.allocs := by
  have hle : ∀ a, (serials l).count a ≤ if a < σ.allocs then 1 else 0 := by
    intro a
    have h1 := h.account a
    have h2 := h.allocated a
    omega
  have hsub : (serials l).Subperm (List.range σ.allocs) := by
    refine List.subperm_of_subset (List.nodup_iff_count_le_one.2 fun a => ?_) fun a ha => ?_
    · have := hle a
      split at this <;> omega
    · by_contra hn
      have := hle a
      rw [if_neg fun hlt => hn (List.mem_range.2 hlt)] at this
      exact Nat.not_lt.2 this (List.count_pos_iff.2 ha)
  simpa [serials] using hsub.length_le

/-- **Exactly one place**: a request that was enqueued is queued once, held once or completed once. -/
theorem Inv.one_place (h : Inv σ l) (hs : s ∈ σ.enqueued) :
    (serials l).count s + σ.held.count s + σ.completed.count s = 1 := by
  have h1 := h.account s
  have h2 := h.allocated s
  have h3 : 0 < σ.enqueued.count s := List.count_pos_iff.2 hs
  split at h2 <;> omega

theorem Inv.not_mem_ptrs (h : Inv σ l) (hc : c ∈ σ.calls) (hb : c.block = some (p, s)) : p ∉ ptrs l := by
  intro hm
  have h1 : 0 < (ptrs l).count p := List.count_pos_iff.2 hm
  have h2 : 0 < (blocks σ.calls).count p := List.count_pos_iff.2 (mem_blocks hc hb)
  have h3 := h.apart p
  omega

/-- Two calls never work on one block. -/
theorem Inv.block_ne {pre post : List Call} (h : Inv σ l) (hcs : σ.calls = pre ++ c :: post)
    (hb : c.block = some (p, s)) (hd : d ∈ pre ++ post) (hdb : d.block = some (q, t)) : q ≠ p := by
  rintro rfl
  have h1 : 0 < (blocks (pre ++ post)).count q := List.count_pos_iff.2 (mem_blocks hd hdb)
  have h2 := h.apart q
  simp only [blocks, hcs, List.filterMap_append, List.count_append, count_filterMap_cons, Call.ptr, hb,
    Option.map_some, if_true] at h1 h2
  omega

/-- The other calls keep their blocks where only the block of this call and the queue have changed. -/
theorem Inv.owned_others {pre post : List Call} {H : Heap Block} (h : Inv σ l) (hcs : σ.calls = pre ++ c :: post)
    (hb : c.block = some (p, s)) (hH : ∀ q, q ≠ p → q ∉ ptrs l → H q = σ.heap q) (hd : d ∈ pre ++ post)
    (hdb : d.block = some (q, t)) : ∃ r nx, H q = some ⟨⟨r, t⟩, nx⟩ ∧ (d.built = some t → nx = none) := by
  have hd' : d ∈ σ.calls := by
    rw [List.mem_append] at hd
    rw [hcs, List.mem_append, List.mem_cons]
    exact hd.imp_right .inr
  have hqp : q ≠ p := h.block_ne hcs hb hd hdb
  obtain ⟨r, nx, hcell, hn⟩ := h.owned d hd' q t hdb
  exact ⟨r, nx, (hH q hqp (h.not_mem_ptrs hd' hdb)).trans hcell, hn⟩

/-- Every block of the queue or of a call is allocated. -/
theorem Inv.live (h : Inv σ l) (hp : p ∈ ptrs l ∨ p ∈ blocks σ.calls) : ∃ c, σ.heap p = some c := by
  rcases hp with hp | hp
  · obtain ⟨x, hx, rfl⟩ := List.mem_map.1 hp
    obtain ⟨nx, hc⟩ := h.queue.seg.cell x hx
    exact ⟨_, hc⟩
  · obtain ⟨c, hc, hb⟩ := List.mem_filterMap.1 hp
    obtain ⟨⟨q, s⟩, hq, rfl⟩ := Option.map_eq_some_iff.1 hb
    obtain ⟨r, nx, hcell, -⟩ := h.owned c hc q s hq
    exact ⟨_, hcell⟩

/-! ## One lemma for each step

Each step whose call is in progress is defined — no dangling pointer is followed — and keeps the
invariant; the critical sections compute `enqueue` and `unlinkReq` on the list of requests. -/

theorem inv_readFile (h : Inv σ l) (req : PendingRead) (hp : σ.heap p = none) :
    ∃ σ', step σ (.readFile p req) = some σ' ∧ Inv σ' l := by
  have hpl : p ∉ ptrs l := fun hm => by
    obtain ⟨c, hc⟩ := h.live (.inl hm)
    cases hp.symm.trans hc
  have hpb : p ∉ blocks σ.calls := fun hm => by
    obtain ⟨c, hc⟩ := h.live (.inr hm)
    cases hp.symm.trans hc
  have hoth : ∀ q, q ≠ p → write σ.heap p ⟨⟨req, σ.allocs⟩, none⟩ q = σ.heap q := by
    intro q hq
    simp [write, hq]
  have hst : step σ (.readFile p req) = some { σ with
      heap := write σ.heap p ⟨⟨req, σ.allocs⟩, none⟩
      calls := .enqueuing req.ov p σ.allocs :: σ.calls
      allocs := σ.allocs + 1 } := by
    simp only [step, hp]
  refine ⟨_, hst, h.queue.frame fun q hq => hoth q fun e => hpl (e ▸ hq), ?_, ?_, ?_, ?_⟩
  · intro c hc q s hb
    rcases List.mem_cons.1 hc with rfl | hc
    · obtain ⟨rfl, rfl⟩ : p = q ∧ σ.allocs = s := by simpa [Call.block] using hb
      exact ⟨req, none, by simp [write], fun _ => rfl⟩
    · have hqp : q ≠ p := fun e => hpb (e ▸ mem_blocks hc hb)
      obtain ⟨r, nx, hcell, hnx⟩ := h.owned c hc q s hb
      exact ⟨r, nx, (hoth q hqp).trans hcell, hnx⟩
  · intro q
    have hq := h.apart q
    simp only [blocks, count_filterMap_cons, Call.ptr, Call.block, Option.map_some, Option.some.injEq] at hq ⊢
    split_ifs with e
    · have h1 : (ptrs l).count q = 0 := List.count_eq_zero.2 (e ▸ hpl)
      have h2 : (σ.calls.filterMap Call.ptr).count q = 0 := List.count_eq_zero.2 (e ▸ hpb)
      omega
    · omega
  · intro s
    have hs := h.account s
    simp only [State.held, count_filterMap_cons, Call.held, reduceCtorEq, if_false] at hs ⊢
    omega
  · intro s
    have hs := h.allocated s
    simp only [State.built, count_filterMap_cons, Call.built, Option.some.injEq] at hs ⊢
    split_ifs at hs ⊢ <;> omega

/-- **Enqueue**: the request goes to the end of the queue. -/
theorem inv_lockEnqueue (h : Inv σ l) (hi : σ.calls[i]? = some (.enqueuing ov p s)) :
    ∃ σ' v, step σ (.lockEnqueue i) = some σ' ∧ Inv σ' (l ++ [(p, v)]) ∧
      reqs (l ++ [(p, v)]) = enqueue (reqs l) v.req := by
  obtain ⟨pre, post, hcs, hset, -⟩ := calls_split hi
  have hmem : Call.enqueuing ov p s ∈ σ.calls := by rw [hcs]; simp
  obtain ⟨r, nx, hcell, hnx⟩ := h.owned _ hmem p s rfl
  obtain rfl := hnx rfl
  have hpl : p ∉ ptrs l := h.not_mem_ptrs hmem rfl
  obtain ⟨H, hd, tl, happ, hq, hfr, -⟩ := append_spec h.queue hpl hcell
  have hst : step σ (.lockEnqueue i) = some { σ with
      heap := H, head := hd, tail := tl
      calls := σ.calls.set i (.marking ov)
      enqueued := σ.enqueued ++ [s] } := by
    simp only [step, hi, happ, Option.map_some]
  refine ⟨_, ⟨r, s⟩, hst, ⟨hq, ?_, ?_, ?_, ?_⟩, by simp [reqs, enqueue]⟩
  · intro c hc q t hb
    have hc' : c ∈ σ.calls := by
      simp only [hcs, hset, List.mem_append, List.mem_cons] at hc
      rw [hcs, List.mem_append, List.mem_cons]
      rcases hc with hc | rfl | hc
      · exact .inl hc
      · cases hb
      · exact .inr (.inr hc)
    obtain ⟨r', nx, hc, hn⟩ := h.owned c hc' q t hb
    exact ⟨r', nx, (hfr q (h.not_mem_ptrs hc' hb)).trans hc, hn⟩
  · intro q
    have hq := h.apart q
    simp only [blocks, hcs, hset, List.filterMap_append, List.count_append, count_filterMap_cons, Call.ptr,
      Call.block, Option.map_some, Option.map_none, Option.some.injEq, reduceCtorEq, if_false, ptrs_append,
      ptrs_cons, ptrs_nil, List.count_singleton, beq_iff_eq] at hq ⊢
    omega
  · intro a
    have ha := h.account a
    simp only [State.held, serials, hcs, hset, List.filterMap_append, List.count_append, count_filterMap_cons,
      Call.held, reduceCtorEq, if_false, List.map_append, List.map_cons, List.map_nil, List.count_singleton,
      beq_iff_eq] at ha ⊢
    omega
  · intro a
    have ha := h.allocated a
    simp only [State.built, hcs, hset, List.filterMap_append, List.count_append, count_filterMap_cons, Call.built,
      Option.some.injEq, reduceCtorEq, if_false, List.count_singleton, beq_iff_eq] at ha ⊢
    omega

/-- A step that leaves the queue and the requests where they are. -/
theorem Inv.congr_calls (h : Inv σ l) (pending : OvPtr → Bool) (cs : List Call)
    (hown : ∀ c ∈ cs, c.block = none ∨ ∃ d ∈ σ.calls, d.block = c.block ∧ d.built = c.built)
    (hptr : ∀ q, (blocks cs).count q = (blocks σ.calls).count q)
    (hheld : ∀ s, (cs.filterMap Call.held).count s = σ.held.count s)
    (hbuilt : ∀ s, (cs.filterMap Call.built).count s = σ.built.count s) :
    Inv { σ with pending, calls := cs } l := by
  refine ⟨h.queue, ?_, ?_, ?_, ?_⟩
  · intro c hc q t hb
    rcases hown c hc with h0 | ⟨d, hd, hdb, hdbu⟩
    · cases h0.symm.trans hb
    · rw [← hdbu]
      exact h.owned d hd q t (hdb.trans hb)
  · intro q
    have hq := h.apart q
    rwa [← hptr q] at hq
  · intro s
    have hs := h.account s
    rwa [← hheld s] at hs
  · intro s
    have hs := h.allocated s
    rwa [← hbuilt s] at hs

/-- A call without a request ends. -/
theorem Inv.erase_idle (h : Inv σ l) (pending : OvPtr → Bool) (hi : σ.calls[i]? = some c)
    (hb : c.block = none) (hh : c.held = none) (hbu : c.built = none) :
    Inv { σ with pending, calls := σ.calls.eraseIdx i } l := by
  obtain ⟨pre, post, hcs, -, herase⟩ := calls_split hi
  refine h.congr_calls pending (σ.calls.eraseIdx i) ?_ ?_ ?_ ?_
  · intro d hd
    refine .inr ⟨d, ?_, rfl, rfl⟩
    rw [hcs, herase, List.mem_append] at hd
    rw [hcs, List.mem_append, List.mem_cons]
    exact hd.imp_right .inr
  all_goals
    intro a
    simp only [blocks, State.held, State.built, hcs, herase, List.filterMap_append, List.count_append,
      count_filterMap_cons, Call.ptr, hb, hh, hbu, Option.map_none, reduceCtorEq, if_false]
    omega

theorem inv_setPending (h : Inv σ l) (hi : σ.calls[i]? = some (.marking ov)) :
    ∃ σ', step σ (.setPending i) = some σ' ∧ Inv σ' l :=
  ⟨_, by simp only [step, hi], h.erase_idle (Function.update σ.pending ov true) hi rfl rfl rfl⟩

theorem inv_getOverlappedResult (h : Inv σ l) (ov : OvPtr) :
    ∃ σ', step σ (.getOverlappedResult ov) = some σ' ∧ Inv σ' l := by
  refine ⟨_, rfl, ?_⟩
  split
  · refine h.congr_calls σ.pending (.searching ov :: σ.calls) ?_ ?_ ?_ ?_
    · intro c hc
      rcases List.mem_cons.1 hc with rfl | hc
      · exact .inl rfl
      · exact .inr ⟨c, hc, rfl, rfl⟩
    all_goals
      intro a
      simp only [blocks, State.held, State.built, count_filterMap_cons, Call.ptr, Call.block, Call.held,
        Call.built, Option.map_none, reduceCtorEq, if_false]
      omega
  · exact h

theorem inv_receive (h : Inv σ l) (found : Bool) (hi : σ.calls[i]? = some (.receiving ov p s)) :
    ∃ σ', step σ (.receive i found) = some σ' ∧ Inv σ' l := by
  obtain ⟨pre, post, hcs, hset, -⟩ := calls_split hi
  refine ⟨_, by simp only [step, hi], h.congr_calls σ.pending
    (σ.calls.set i (if found then .matched ov p s else .unmatched ov p s)) ?_ ?_ ?_ ?_⟩
  · intro c hc
    rw [hcs, hset, List.mem_append, List.mem_cons] at hc
    rw [hcs]
    rcases hc with hc | rfl | hc
    · exact .inr ⟨c, by simp [hc], rfl, rfl⟩
    · exact .inr ⟨.receiving ov p s, by simp, by cases found <;> rfl, by cases found <;> rfl⟩
    · exact .inr ⟨c, by simp [hc], rfl, rfl⟩
  all_goals
    intro a
    cases found <;>
    simp [blocks, State.held, State.built, hcs, hset, count_filterMap_cons, Call.ptr, Call.block, Call.held,
      Call.built]

/-- **Unlink**: the first request for `ov` is taken out and held, or there is none and the call ends. -/
theorem inv_lockUnlink (h : Inv σ l) (hi : σ.calls[i]? = some (.searching ov)) :
    ∃ σ' l', step σ (.lockUnlink i) = some σ' ∧ Inv σ' l' ∧ reqs l' = (unlinkReq ov (reqs l)).2 := by
  obtain ⟨cpre, cpost, hcs, hset, -⟩ := calls_split hi
  rcases scan_spec (fun b => b.req.isFor ov) h.queue.seg h.length_le none with
    ⟨pre, p, b, post, rfl, hpre, hb, hscan⟩ | ⟨hall, hscan⟩
  · obtain ⟨H, hd, tl, hun, hq, hfr, -⟩ := unlink_spec h.queue
    obtain ⟨nx, hcell⟩ := h.queue.seg.cell (p, b) (by simp)
    have hst : step σ (.lockUnlink i) = some { σ with
        heap := H, head := hd, tail := tl
        calls := σ.calls.set i (.receiving ov p b.serial) } := by
      rw [Option.or_none] at hscan
      simp only [step, hi, hscan, hcell, hun]
    have hpp : p ∉ ptrs pre := by
      have hnd := h.queue.nodup
      rw [ptrs_append, ptrs_cons, List.nodup_append] at hnd
      exact fun hm => hnd.2.2 p hm p (by simp) rfl
    refine ⟨_, pre ++ post, hst, ⟨hq, ?_, ?_, ?_, ?_⟩, ?_⟩
    · intro c hc q t hb'
      simp only [hcs, hset, List.mem_append, List.mem_cons] at hc
      by_cases hrec : c = .receiving ov p b.serial
      · subst hrec
        obtain ⟨rfl, rfl⟩ : p = q ∧ b.serial = t := by simpa [Call.block] using hb'
        exact ⟨b.req, nx, (hfr p hpp).trans hcell, fun e => by cases e⟩
      · have hc' : c ∈ σ.calls := by
          rw [hcs, List.mem_append, List.mem_cons]
          exact hc.imp_right fun hr => .inr (hr.resolve_left hrec)
        obtain ⟨r, nx, hc, hn⟩ := h.owned c hc' q t hb'
        have hqp : q ∉ ptrs pre := fun hm => h.not_mem_ptrs hc' hb' (by simp [hm])
        exact ⟨r, nx, (hfr q hqp).trans hc, hn⟩
    · intro q
      have hq := h.apart q
      simp only [blocks, hcs, hset, List.filterMap_append, List.count_append, count_filterMap_cons, Call.ptr,
        Call.block, Option.map_some, Option.map_none, Option.some.injEq, reduceCtorEq, if_false, ptrs_append,
        ptrs_cons, List.count_cons, beq_iff_eq] at hq ⊢
      omega
    · intro a
      have ha := h.account a
      simp only [State.held, serials, hcs, hset, List.filterMap_append, List.count_append,
        count_filterMap_cons, Call.held, Option.some.injEq, reduceCtorEq, if_false, List.map_append,
        List.map_cons, List.count_cons, beq_iff_eq] at ha ⊢
      omega
    · intro a
      have ha := h.allocated a
      simp only [State.built, hcs, hset, List.filterMap_append, List.count_append, count_filterMap_cons,
        Call.built, reduceCtorEq, if_false] at ha ⊢
      omega
    · have hno : ∀ r ∈ pre.map fun x => x.2.req, ¬ r.isFor ov = true := by
        intro r hr
        obtain ⟨x, hx, rfl⟩ := List.mem_map.1 hr
        rw [hpre x hx]
        exact Bool.false_ne_true
      simp only [reqs, unlinkReq, List.map_append, List.map_cons]
      rw [List.eraseP_append_right _ hno, List.eraseP_cons_of_pos hb]
  · have hst : step σ (.lockUnlink i) = some { σ with calls := σ.calls.eraseIdx i } := by
      simp only [step, hi, hscan]
    refine ⟨_, l, hst, h.erase_idle σ.pending hi rfl rfl rfl, ?_⟩
    refine (List.eraseP_of_forall_not fun r hr => ?_).symm
    obtain ⟨x, hx, rfl⟩ := List.mem_map.1 hr
    rw [hall x hx]
    exact Bool.false_ne_true

/-- **Re-insert**: the request goes back to the end of the queue. -/
theorem inv_lockReinsert (h : Inv σ l) (hi : σ.calls[i]? = some (.unmatched ov p s)) :
    ∃ σ' v, step σ (.lockReinsert i) = some σ' ∧ Inv σ' (l ++ [(p, v)]) ∧
      reqs (l ++ [(p, v)]) = enqueue (reqs l) v.req := by
  obtain ⟨pre, post, hcs, -, herase⟩ := calls_split hi
  have hmem : Call.unmatched ov p s ∈ σ.calls := by rw [hcs]; simp
  obtain ⟨r, nx, hcell, -⟩ := h.owned _ hmem p s rfl
  have hpl : p ∉ ptrs l := h.not_mem_ptrs hmem rfl
  have hoth : ∀ q, q ≠ p → write σ.heap p ⟨⟨r, s⟩, none⟩ q = σ.heap q := by
    intro q hq
    simp [write, hq]
  have hqueue := h.queue.frame fun q hq => hoth q fun e => hpl (e ▸ hq)
  obtain ⟨H, hd, tl, happ, hq, hfr, -⟩ := append_spec hqueue hpl (v := ⟨r, s⟩) (by simp [write])
  have hst : step σ (.lockReinsert i) = some { σ with
      heap := H, head := hd, tail := tl
      calls := σ.calls.eraseIdx i } := by
    simp only [step, hi, setNext, hcell, Option.map_some, Option.bind_some, happ]
  refine ⟨_, ⟨r, s⟩, hst, ⟨hq, ?_, ?_, ?_, ?_⟩, by simp [reqs, enqueue]⟩
  · intro c hc q t hb
    simp only [hcs, herase] at hc
    exact h.owned_others hcs rfl (fun q hqp hql => (hfr q hql).trans (hoth q hqp)) hc hb
  · intro q
    have hq := h.apart q
    simp only [blocks, hcs, herase, List.filterMap_append, List.count_append, count_filterMap_cons, Call.ptr,
      Call.block, Option.map_some, Option.some.injEq, ptrs_append, ptrs_cons, ptrs_nil,
      List.count_singleton, beq_iff_eq] at hq ⊢
    omega
  · intro a
    have ha := h.account a
    simp only [State.held, serials, hcs, herase, List.filterMap_append, List.count_append, count_filterMap_cons,
      Call.held, Option.some.injEq, List.map_append, List.map_cons, List.map_nil, List.count_singleton,
      beq_iff_eq] at ha ⊢
    omega
  · intro a
    have ha := h.allocated a
    simp only [State.built, hcs, herase, List.filterMap_append, List.count_append, count_filterMap_cons,
      Call.built, reduceCtorEq, if_false] at ha ⊢
    omega

/-- **Complete**: the request's block is freed; the queue does not change. -/
theorem inv_complete (h : Inv σ l) (hi : σ.calls[i]? = some (.matched ov p s)) :
    ∃ σ', step σ (.complete i) = some σ' ∧ Inv σ' l := by
  obtain ⟨pre, post, hcs, -, herase⟩ := calls_split hi
  have hmem : Call.matched ov p s ∈ σ.calls := by rw [hcs]; simp
  have hpl : p ∉ ptrs l := h.not_mem_ptrs hmem rfl
  have hoth : ∀ q, q ≠ p → free σ.heap p q = σ.heap q := by
    intro q hq
    simp [free, hq]
  have hst : step σ (.complete i) = some { σ with
      heap := free σ.heap p
      pending := Function.update σ.pending ov false
      calls := σ.calls.eraseIdx i
      completed := σ.completed ++ [s] } := by
    simp only [step, hi]
  refine ⟨_, hst, h.queue.frame fun q hq => hoth q fun e => hpl (e ▸ hq), ?_, ?_, ?_, ?_⟩
  · intro c hc q t hb
    simp only [hcs, herase] at hc
    exact h.owned_others hcs rfl (fun q hqp _ => hoth q hqp) hc hb
  · intro q
    have hq := h.apart q
    simp only [blocks, hcs, herase, List.filterMap_append, List.count_append, count_filterMap_cons, Call.ptr,
      Call.block, Option.map_some, Option.some.injEq] at hq ⊢
    omega
  · intro a
    have ha := h.account a
    simp only [State.held, hcs, herase, List.filterMap_append, List.count_append, count_filterMap_cons,
      Call.held, Option.some.injEq, List.count_singleton, beq_iff_eq] at ha ⊢
    omega
  · intro a
    have ha := h.allocated a
    simp only [State.built, hcs, herase, List.filterMap_append, List.count_append, count_filterMap_cons,
      Call.built, reduceCtorEq, if_false] at ha ⊢
    omega

/-! ## Every run -/

theorem Inv.step (h : Inv σ l) {a : Act} (hs : step σ a = some σ') : ∃ l', Inv σ' l' := by
  cases a with
  | readFile p req =>
    have hp : σ.heap p = none := by
      simp only [PendingQueue.step] at hs
      split at hs
      · cases hs
      · assumption
    obtain ⟨τ, hτ, hinv⟩ := inv_readFile h req hp
    obtain rfl := Option.some.inj (hτ.symm.trans hs)
    exact ⟨l, hinv⟩
  | lockEnqueue i =>
    obtain ⟨ov, p, s, hi⟩ : ∃ ov p s, σ.calls[i]? = some (.enqueuing ov p s) := by
      simp only [PendingQueue.step] at hs
      split at hs
      · exact ⟨_, _, _, ‹_›⟩
      · cases hs
    obtain ⟨τ, v, hτ, hinv, -⟩ := inv_lockEnqueue h hi
    obtain rfl := Option.some.inj (hτ.symm.trans hs)
    exact ⟨_, hinv⟩
  | setPending i =>
    obtain ⟨ov, hi⟩ : ∃ ov, σ.calls[i]? = some (.marking ov) := by
      simp only [PendingQueue.step] at hs
      split at hs
      · exact ⟨_, ‹_›⟩
      · cases hs
    obtain ⟨τ, hτ, hinv⟩ := inv_setPending h hi
    obtain rfl := Option.some.inj (hτ.symm.trans hs)
    exact ⟨l, hinv⟩
  | getOverlappedResult ov =>
    obtain ⟨τ, hτ, hinv⟩ := inv_getOverlappedResult h ov
    obtain rfl := Option.some.inj (hτ.symm.trans hs)
    exact ⟨l, hinv⟩
  | lockUnlink i =>
    obtain ⟨ov, hi⟩ : ∃ ov, σ.calls[i]? = some (.searching ov) := by
      simp only [PendingQueue.step] at hs
      split at hs
      · exact ⟨_, ‹_›⟩
      · cases hs
    obtain ⟨τ, l', hτ, hinv, -⟩ := inv_lockUnlink h hi
    obtain rfl := Option.some.inj (hτ.symm.trans hs)
    exact ⟨l', hinv⟩
  | receive i found =>
    obtain ⟨ov, p, s, hi⟩ : ∃ ov p s, σ.calls[i]? = some (.receiving ov p s) := by
      simp only [PendingQueue.step] at hs
      split at hs
      · exact ⟨_, _, _, ‹_›⟩
      · cases hs
    obtain ⟨τ, hτ, hinv⟩ := inv_receive h found hi
    obtain rfl := Option.some.inj (hτ.symm.trans hs)
    exact ⟨l, hinv⟩
  | lockReinsert i =>
    obtain ⟨ov, p, s, hi⟩ : ∃ ov p s, σ.calls[i]? = some (.unmatched ov p s) := by
      simp only [PendingQueue.step] at hs
      split at hs
      · exact ⟨_, _, _, ‹_›⟩
      · cases hs
    obtain ⟨τ, v, hτ, hinv, -⟩ := inv_lockReinsert h hi
    obtain rfl := Option.some.inj (hτ.symm.trans hs)
    exact ⟨_, hinv⟩
  | complete i =>
    obtain ⟨ov, p, s, hi⟩ : ∃ ov p s, σ.calls[i]? = some (.matched ov p s) := by
      simp only [PendingQueue.step] at hs
      split at hs
      · exact ⟨_, _, _, ‹_›⟩
      · cases hs
    obtain ⟨τ, hτ, hinv⟩ := inv_complete h hi
    obtain rfl := Option.some.inj (hτ.symm.trans hs)
    exact ⟨l, hinv⟩

theorem inv_run {heap : Heap Block} {pending : OvPtr → Bool} {as : List Act}
    (h : run PendingQueue.step (init heap pending) as = some σ) : ∃ l, Inv σ l :=
  run_invariant (I := fun σ => ∃ l, Inv σ l) (fun _ _ _ ⟨_, hinv⟩ hs => hinv.step hs)
    ⟨[], inv_init heap pending⟩ h

/-- **No call is stuck**: in every reachable state a call in progress can take its next step. The
critical sections follow no dangling pointer, and the search ends. -/
theorem call_progress {heap : Heap Block} {pending : OvPtr → Bool} {as : List Act}
    (h : run PendingQueue.step (init heap pending) as = some σ) (hi : σ.calls[i]? = some c) (found : Bool) :
    ∃ σ', PendingQueue.step σ (c.next i found) = some σ' := by
  obtain ⟨l, hinv⟩ := inv_run h
  cases c with
  | enqueuing ov p s =>
    obtain ⟨τ, -, hτ, -⟩ := inv_lockEnqueue hinv hi
    exact ⟨τ, hτ⟩
  | marking ov =>
    obtain ⟨τ, hτ, -⟩ := inv_setPending hinv hi
    exact ⟨τ, hτ⟩
  | searching ov =>
    obtain ⟨τ, -, hτ, -⟩ := inv_lockUnlink hinv hi
    exact ⟨τ, hτ⟩
  | receiving ov p s =>
    obtain ⟨τ, hτ, -⟩ := inv_receive hinv found hi
    exact ⟨τ, hτ⟩
  | matched ov p s =>
    obtain ⟨τ, hτ, -⟩ := inv_complete hinv hi
    exact ⟨τ, hτ⟩
  | unmatched ov p s =>
    obtain ⟨τ, -, hτ, -⟩ := inv_lockReinsert hinv hi
    exact ⟨τ, hτ⟩

/-- **The queue keeps every request**: in every reachable state the list from `pending_head` is finite and
without repeats, `pending_tail` is its last node with a NULL `next` and is NULL with `pending_head`, and
each request enqueued so far is on the list, held by one call or completed, exactly once. -/
theorem pendingQueue_keeps (heap : Heap Block) (pending : OvPtr → Bool) (as : List Act) (σ : State)
    (h : run PendingQueue.step (init heap pending) as = some σ) :
    ∃ l, Seg σ.heap σ.head l none ∧ (ptrs l).Nodup ∧ (σ.head = none ↔ σ.tail = none) ∧
      σ.tail = (ptrs l).getLast? ∧ (∀ t, σ.tail = some t → (σ.heap t).map Cell.next = some none) ∧
      ∀ s ∈ σ.enqueued, (serials l).count s + σ.held.count s + σ.completed.count s = 1 := by
  obtain ⟨l, hinv⟩ := inv_run h
  refine ⟨l, hinv.queue.seg, hinv.queue.nodup, hinv.queue.head_none_iff, hinv.queue.last, ?_,
    fun s hs => hinv.one_place hs⟩
  intro t ht
  have hq := hinv.queue
  rw [ht] at hq
  obtain ⟨m, v, -, hcell⟩ := hq.tail_next
  rw [hcell]
  rfl

/-- Two reads, and a `GetOverlappedResult` call that takes the older one out. -/
def twoReads : List Act :=
  [.readFile 8 ⟨1, 0, 2048, none⟩, .lockEnqueue 0, .setPending 0, .readFile 9 ⟨2, 0, 2048, none⟩,
    .lockEnqueue 0, .getOverlappedResult 1, .lockUnlink 0]

theorem pendingQueue_keeps_two :
    ∃ σ, run PendingQueue.step (init (fun _ => none) fun _ => false) twoReads = some σ ∧
      σ.enqueued = [0, 1] ∧ σ.held = [0] ∧
      ∃ l, Seg σ.heap σ.head l none ∧ (ptrs l).Nodup ∧ (σ.head = none ↔ σ.tail = none) ∧
        σ.tail = (ptrs l).getLast? ∧ (∀ t, σ.tail = some t → (σ.heap t).map Cell.next = some none) ∧
        ∀ s ∈ σ.enqueued, (serials l).count s + σ.held.count s + σ.completed.count s = 1 :=
  ⟨_, rfl, rfl, rfl, pendingQueue_keeps (fun _ => none) (fun _ => false) twoReads _ rfl⟩

end Rvpn.PendingQueue
