import Rvpn.Lib.Blocks
import Rvpn.Lib.Refine
import Rvpn.Lib.PtrQueue
import Mathlib.Data.List.Find
import Mathlib.Data.List.Perm.Subperm
import Rvpn.Device.Basic

/-!
# The handle list at pointer level (inject.c:62-172, :281-289)

`Device.World` has the contexts as a list that changes between two hooks. In the code it is a linked list of heap
blocks, `g_HandleListLock` is held only while a context is linked, searched or unlinked, and what
`GetHandleContext` returns is used **after** the lock is given back. Each critical section is one step here, and so
is what a thread does between two of them:

| step | there |
| --- | --- |
| `createFile` | `AddFakeHandle` up to the lock: the number, `HeapAlloc`, `memset` (`inject.c:130-135`) |
| `lockAdd`    | `ctx->next = g_HandleList; g_HandleList = ctx;` (`:137-140`) |
| `call`, `lockGet` | any hook on the handle: `GetHandleContext` (`:163-173`); `closes` for `Hook_CloseHandle` (`:282`) |
| `setFilter`  | a write through the pointer: `ctx->mac`, `ctx->mac_set` |
| `finish`     | the hook returns |
| `lockRemove` | the search and unlinking of `RemoveFakeHandle` (`:145-151`) |
| `free`       | `HeapFree` after the lock is given back (`:155`) |

* `handleList_keeps` — whatever the threads do, the list is sound, no critical section follows a dangling pointer, and
  every context is in one place and freed at most once, also where two threads close one handle at the same time;
* `undisturbed_refines` — if no handle is taken out, or given out again, while a hook is using it, the list is what the
  operations of `Device.World` make of the empty list one after another, and every hook works with the context its
  handle has there;
* `filter_other` — otherwise a hook may write to the context of another handle, which has got the same memory.

A block is handed out at any free address. Serial numbers are there for the statements only.
-/

namespace Rvpn.HandleList

open PtrQueue Lts

variable {T : Type} [DecidableEq T]

/-! ## States and steps -/

/-- What a `HANDLE_CONTEXT` holds besides `next`. -/
structure Block where
  ctx : HandleContext
  serial : Nat

def Block.setMac (b : Block) (mac : Mac) : Block := { b with ctx := { b.ctx with mac := mac, macSet := true } }

/-- Where a thread is. -/
inductive Call where
  | idle
  /-- A context is built, and not in the list yet. -/
  | adding (p : Ptr) (serial : Nat)
  /-- Before `GetHandleContext`; `closes` in `Hook_CloseHandle`. -/
  | searching (h : Handle) (closes : Bool)
  /-- A hook works with the pointer. -/
  | using (h : Handle) (p : Ptr) (serial : Nat)
  /-- Before `RemoveFakeHandle`. -/
  | removing (h : Handle)
  /-- The context is unlinked, and not freed yet. -/
  | freeing (p : Ptr) (serial : Nat)

/-- The block the thread has to itself. -/
def Call.block : Call → Option (Ptr × Nat)
  | .adding p s | .freeing p s => some (p, s)
  | _ => none

/-- The thread is in a hook on this handle. -/
def Call.uses (h : Handle) : Call → Bool
  | .using k _ _ => k == h
  | _ => false

structure State (T : Type) where
  heap : Heap Block
  /-- `g_HandleList`. -/
  head : Option Ptr
  nextHandleId : UInt32
  pc : T → Call
  /-- Contexts allocated so far, and those freed, the last one first. -/
  allocs : Nat
  freed : List Nat

def State.start (nextHandleId : UInt32) : State T := ⟨fun _ => none, none, nextHandleId, fun _ => .idle, 0, []⟩

inductive Act (T : Type) where
  | createFile (t : T) (p : Ptr)
  | lockAdd (t : T)
  | call (t : T) (h : Handle) (closes : Bool)
  | lockGet (t : T)
  | setFilter (t : T) (mac : Mac)
  | finish (t : T)
  | lockRemove (t : T)
  | free (t : T)

def State.to (σ : State T) (t : T) (c : Call) : State T := { σ with pc := Function.update σ.pc t c }

/-- The search for a handle; the list is no longer than there were contexts. -/
def State.find (σ : State T) (h : Handle) : Option (Option Ptr × Option Ptr) :=
  scan σ.heap (fun b => b.ctx.is h) σ.allocs none σ.head

def step (σ : State T) : Act T → Option (State T)
  | .createFile t p =>
    match σ.pc t, σ.heap p with
    | .idle, none => some ({ σ with
        heap := write σ.heap p ⟨⟨.fresh (σ.nextHandleId + 1), σ.allocs⟩, none⟩
        nextHandleId := σ.nextHandleId + 1
        allocs := σ.allocs + 1 }.to t (.adding p σ.allocs))
    | _, _ => none
  | .lockAdd t =>
    match σ.pc t with
    | .adding p _ => (push σ.heap σ.head p).map fun r => { σ with heap := r.1, head := r.2 }.to t .idle
    | _ => none
  | .call t h closes =>
    match σ.pc t with
    | .idle => some (σ.to t (.searching h closes))
    | _ => none
  | .lockGet t =>
    match σ.pc t with
    | .searching h closes =>
      match σ.find h with
      | none => none
      | some (_, none) => some (σ.to t .idle)
      | some (_, some p) =>
        (σ.heap p).map fun c => σ.to t (if closes then .removing h else .using h p c.val.serial)
    | _ => none
  | .setFilter t mac =>
    match σ.pc t with
    | .using _ p _ =>
      (σ.heap p).map fun c => { σ with heap := write σ.heap p { c with val := c.val.setMac mac } }
    | _ => none
  | .finish t =>
    match σ.pc t with
    | .using _ _ _ => some (σ.to t .idle)
    | _ => none
  | .lockRemove t =>
    match σ.pc t with
    | .removing h =>
      match σ.find h with
      | none => none
      | some (_, none) => some (σ.to t .idle)
      | some (prev, some p) =>
        match σ.heap p, remove σ.heap σ.head prev p with
        | some c, some (heap, head) => some ({ σ with heap, head }.to t (.freeing p c.val.serial))
        | _, _ => none
    | _ => none
  | .free t =>
    match σ.pc t with
    | .freeing p s =>
      -- `HeapFree` of a block that is not allocated is not survived
      (σ.heap p).map fun _ => { σ with heap := PtrQueue.free σ.heap p, freed := s :: σ.freed }.to t .idle
    | _ => none

/-! ## The invariant -/

/-- The serial number of the context at an address. -/
def serialAt (H : Heap Block) (p : Ptr) : Option Nat := (H p).map fun c => c.val.serial

/-- The list as `Device.World` has it. -/
def contexts (l : List (Ptr × Block)) : List HandleContext := l.map fun x => x.2.ctx

structure Inv (σ : State T) (l : List (Ptr × Block)) : Prop where
  seg : Seg σ.heap σ.head l none
  nodup : (ptrs l).Nodup
  account : Blocks.Account (serialAt σ.heap) (· ∈ ptrs l) (fun t => (σ.pc t).block) σ.allocs σ.freed

variable {σ σ' : State T} {l : List (Ptr × Block)} {t u : T} {p : Ptr} {s : Nat} {h : Handle} {c : Call} {as : List (Act T)}

theorem to_pc : (σ.to t c).pc u = if u = t then c else σ.pc u := Function.update_apply σ.pc t c u

/-- What the threads hold after one of them goes on. -/
theorem block_to (σ : State T) (t u : T) (c : Call) :
    ((σ.to t c).pc u).block = Function.update (fun u => (σ.pc u).block) t c.block u := by
  rw [to_pc, Function.update_apply]
  split
  · rfl
  · rfl

omit [DecidableEq T] in
theorem inv_start (n : UInt32) : Inv (State.start n : State T) [] :=
  ⟨rfl, List.nodup_nil, Blocks.start.congr (fun _ => rfl) (by simp) fun _ => rfl⟩

theorem serialAt_write {H : Heap Block} {p q : Ptr} {c : Cell Block} :
    serialAt (write H p c) q = Function.update (serialAt H) p (some c.val.serial) q := by
  by_cases hq : q = p
  · subst hq
    simp [serialAt, write]
  · simp [serialAt, write, hq]

/-- A thread without a block goes on without one. -/
theorem Inv.park (hi : Inv σ l) (hpc : (σ.pc t).block = none) (hc : c.block = none) : Inv (σ.to t c) l := by
  refine ⟨hi.seg, hi.nodup, hi.account.congr (fun _ => rfl) (fun _ => Iff.rfl) fun u => ?_⟩
  rw [block_to, hc]
  show Function.update (fun u => (σ.pc u).block) t none u = (σ.pc u).block
  rw [← hpc, Function.update_eq_self]

omit [DecidableEq T] in
/-- The list is no longer than there were contexts, which bounds the search. -/
theorem Inv.length_le (hi : Inv σ l) : l.length ≤ σ.allocs := by
  have hcell : ∀ x ∈ l, serialAt σ.heap x.1 = some x.2.serial := by
    intro x hx
    obtain ⟨nx, hc⟩ := hi.seg.cell x hx
    rw [serialAt, hc]
    rfl
  have hnd : (l.map fun x => x.2.serial).Nodup := by
    refine (List.nodup_map_iff_inj_on (List.Nodup.of_map _ hi.nodup)).2 fun x hx y hy he => ?_
    have hxy : x.1 = y.1 := hi.account.serial (hcell x hx) (by rw [hcell y hy, he])
    exact List.inj_on_of_nodup_map hi.nodup hx hy hxy
  have hsub : (l.map fun x => x.2.serial).Subperm (List.range σ.allocs) := by
    refine List.subperm_of_subset hnd fun s hs => ?_
    obtain ⟨x, hx, rfl⟩ := List.mem_map.1 hs
    exact List.mem_range.2 (hi.account.of_live (hcell x hx)).1
  simpa using hsub.length_le

omit [DecidableEq T] in
/-- **The search** under the lock. -/
theorem Inv.find (hi : Inv σ l) (h : Handle) :
    (∃ pre p v post, l = pre ++ (p, v) :: post ∧ (∀ x ∈ pre, x.2.ctx.is h = false) ∧ v.ctx.is h = true ∧
      σ.find h = some ((ptrs pre).getLast?, some p)) ∨
    ((∀ x ∈ l, x.2.ctx.is h = false) ∧ ∃ prev, σ.find h = some (prev, none)) := by
  rcases scan_spec (fun b : Block => b.ctx.is h) hi.seg hi.length_le none with ⟨pre, p, v, post, hl, hpre, hv, hs⟩ | ⟨hno, hs⟩
  · exact .inl ⟨pre, p, v, post, hl, hpre, hv, by rw [State.find, hs, Option.or_none]⟩
  · exact .inr ⟨hno, _, hs⟩

/-- The comparison of the two loops. -/
def isFor (h : Handle) (x : Ptr × Block) : Bool := x.2.ctx.is h

/-- The context the list has for a handle. -/
def first (l : List (Ptr × Block)) (h : Handle) : Option (Ptr × Block) := l.find? (isFor h)

theorem getHandleContext_contexts (l : List (Ptr × Block)) (h : Handle) :
    getHandleContext (contexts l) h = (first l h).map fun x => x.2.ctx := by
  rw [getHandleContext, contexts, List.find?_map]
  rfl

theorem removeFakeHandle_split {pre post : List (Ptr × Block)} {v : Block} (hpre : ∀ x ∈ pre, x.2.ctx.is h = false)
    (hv : v.ctx.is h = true) :
    removeFakeHandle (contexts (pre ++ (p, v) :: post)) h = contexts (pre ++ post) := by
  have hno : ∀ c ∈ contexts pre, ¬ HandleContext.is h c = true := by
    intro c hc
    obtain ⟨x, hx, rfl⟩ := List.mem_map.1 hc
    rw [hpre x hx]
    exact Bool.false_ne_true
  have happ : contexts (pre ++ (p, v) :: post) = contexts pre ++ v.ctx :: contexts post := by simp [contexts]
  rw [happ, removeFakeHandle, List.eraseP_append_right _ hno, List.eraseP_cons_of_pos hv]
  simp [contexts]

theorem removeFakeHandle_none (hno : ∀ x ∈ l, x.2.ctx.is h = false) :
    removeFakeHandle (contexts l) h = contexts l := by
  refine List.eraseP_of_forall_not fun c hc => ?_
  obtain ⟨x, hx, rfl⟩ := List.mem_map.1 hc
  rw [hno x hx]
  exact Bool.false_ne_true

/-- Taking out a context of one handle leaves the other handles as they are. -/
theorem first_split {pre post : List (Ptr × Block)} {v : Block} {k : Handle} (hv : v.ctx.is h = true) (hk : k ≠ h) :
    first (pre ++ (p, v) :: post) k = first (pre ++ post) k := by
  have hvk : ¬ isFor k (p, v) = true := by
    simp only [isFor, HandleContext.is, beq_iff_eq] at hv ⊢
    exact fun e => hk (e.symm.trans hv)
  rw [first, first, List.find?_append, List.find?_append, List.find?_cons_of_neg hvk]

/-! ## One lemma for each step -/

theorem inv_createFile (hi : Inv σ l) (hpc : σ.pc t = .idle) (hp : σ.heap p = none) :
    ∃ σ', step σ (.createFile t p) = some σ' ∧ Inv σ' l ∧
      σ'.pc = Function.update σ.pc t (.adding p σ.allocs) := by
  have hlive : serialAt σ.heap p = none := by rw [serialAt, hp]; rfl
  have hpl : p ∉ ptrs l := by
    intro hm
    obtain ⟨s, hs⟩ := hi.account.of_listed hm
    rw [hlive] at hs
    cases hs
  refine ⟨{ σ with
      heap := write σ.heap p ⟨⟨.fresh (σ.nextHandleId + 1), σ.allocs⟩, none⟩
      nextHandleId := σ.nextHandleId + 1
      allocs := σ.allocs + 1 }.to t (.adding p σ.allocs), by simp only [step, hpc, hp],
    ⟨hi.seg.frame fun a ha => ?_, hi.nodup, ?_⟩, rfl⟩
  · have hne : a ≠ p := fun e => hpl (e ▸ ha)
    simp [State.to, write, hne]
  · refine (hi.account.alloc hlive (t := t) (by rw [hpc]; rfl)).congr (fun a => ?_) (fun _ => Iff.rfl) fun u => ?_
    · exact serialAt_write
    · exact block_to _ t u _

/-- `AddFakeHandle` under the lock. -/
theorem inv_lockAdd (hi : Inv σ l) (hpc : σ.pc t = .adding p s) :
    ∃ σ' c, σ.heap p = some c ∧ step σ (.lockAdd t) = some σ' ∧ Inv σ' ((p, c.val) :: l) ∧
      σ'.pc = Function.update σ.pc t .idle := by
  have hblock : (σ.pc t).block = some (p, s) := by rw [hpc]; rfl
  obtain ⟨hpl, hlive⟩ := hi.account.of_held hblock
  obtain ⟨⟨v, nx⟩, hcell, hv⟩ := Option.map_eq_some_iff.1 hlive
  obtain ⟨hpush, hseg⟩ := push_spec hi.seg hpl hcell
  refine ⟨{ σ with heap := write σ.heap p ⟨v, σ.head⟩, head := some p }.to t .idle, ⟨v, nx⟩, hcell,
    by simp only [step, hpc, hpush, Option.map_some], ⟨hseg, ?_, ?_⟩, rfl⟩
  · exact List.nodup_cons.2 ⟨hpl, hi.nodup⟩
  · have hlisted : ∀ b, b ∈ ptrs ((p, v) :: l) ↔ b = p ∨ b ∈ ptrs l := fun b => by simp
    refine (hi.account.put hblock hlisted).congr (fun a => ?_) (fun _ => Iff.rfl) fun u => ?_
    · show serialAt (write σ.heap p ⟨v, σ.head⟩) a = serialAt σ.heap a
      rw [serialAt_write, show some v.serial = serialAt σ.heap p from hlive.symm ▸ congrArg some hv, Function.update_eq_self]
    · exact block_to _ t u _

/-- **`GetHandleContext`** under the lock finds the context the list has. -/
theorem inv_lockGet {closes : Bool} (hi : Inv σ l) (hpc : σ.pc t = .searching h closes) :
    ∃ σ', step σ (.lockGet t) = some σ' ∧ Inv σ' l ∧
      ((first l h = none ∧ σ' = σ.to t .idle) ∨
        ∃ p v, first l h = some (p, v) ∧ σ' = σ.to t (if closes then .removing h else .using h p v.serial)) := by
  have hnone : (σ.pc t).block = none := by rw [hpc]; rfl
  rcases hi.find h with ⟨pre, p, v, post, rfl, hpre, hv, hfind⟩ | ⟨hno, prev, hfind⟩
  · obtain ⟨nx, hcell⟩ := hi.seg.cell (p, v) (by simp)
    refine ⟨σ.to t (if closes then .removing h else .using h p v.serial), ?_, hi.park hnone ?_, .inr ⟨p, v, ?_, rfl⟩⟩
    · simp only [step, hpc, hfind, hcell, Option.map_some]
    · cases closes <;> rfl
    · rw [first, List.find?_append, List.find?_eq_none.2 (by simpa [isFor] using hpre), Option.none_or]
      exact List.find?_cons_of_pos hv
  · exact ⟨σ.to t .idle, by simp only [step, hpc, hfind], hi.park hnone rfl,
      .inl ⟨List.find?_eq_none.2 (by simpa [isFor] using hno), rfl⟩⟩

/-- **`RemoveFakeHandle`** under the lock takes out what it does there. -/
theorem inv_lockRemove (hi : Inv σ l) (hpc : σ.pc t = .removing h) :
    ∃ σ' l', step σ (.lockRemove t) = some σ' ∧ Inv σ' l' ∧ contexts l' = removeFakeHandle (contexts l) h ∧
      (∀ k ≠ h, first l' k = first l k) ∧
      ∃ c : Call, (∀ k, c.uses k = false) ∧ σ'.pc = Function.update σ.pc t c := by
  have hnone : (σ.pc t).block = none := by rw [hpc]; rfl
  rcases hi.find h with ⟨pre, p, v, post, rfl, hpre, hv, hfind⟩ | ⟨hno, prev, hfind⟩
  · obtain ⟨nx, hcell⟩ := hi.seg.cell (p, v) (by simp)
    obtain ⟨H, hd, hrem, hseg, -, hval⟩ := remove_spec hi.seg hi.nodup
    have hmid := hi.nodup
    rw [ptrs_append, ptrs_cons, List.nodup_middle, List.nodup_cons, ← ptrs_append] at hmid
    refine ⟨{ σ with heap := H, head := hd }.to t (.freeing p v.serial), pre ++ post,
      by simp only [step, hpc, hfind, hcell, hrem], ⟨hseg, hmid.2, ?_⟩, (removeFakeHandle_split hpre hv).symm, ?_, ?_⟩
    · have hlisted : p ∈ ptrs (pre ++ (p, v) :: post) := by simp
      have hlive : serialAt σ.heap p = some v.serial := by rw [serialAt, hcell]; rfl
      have hleft : ∀ b, b ∈ ptrs (pre ++ post) ↔ b ∈ ptrs (pre ++ (p, v) :: post) ∧ b ≠ p := by
        intro b
        constructor
        · intro hb
          refine ⟨?_, fun e => hmid.1 (e ▸ hb)⟩
          simp only [ptrs_append, ptrs_cons, List.mem_append, List.mem_cons] at hb ⊢
          exact hb.imp_right .inr
        · rintro ⟨hb, hne⟩
          simp only [ptrs_append, ptrs_cons, List.mem_append, List.mem_cons] at hb ⊢
          exact hb.imp_right fun hb => hb.resolve_left hne
      refine (hi.account.take hlisted hlive hnone hleft).congr (fun a => ?_) (fun _ => Iff.rfl) fun u => ?_
      · show serialAt H a = serialAt σ.heap a
        have ha := congrArg (Option.map Block.serial) (hval a)
        simpa only [Option.map_map, Function.comp_def, serialAt] using ha
      · exact block_to _ t u _
    · exact fun k hk => (first_split hv hk).symm
    · exact ⟨.freeing p v.serial, fun _ => rfl, rfl⟩
  · exact ⟨σ.to t .idle, l, by simp only [step, hpc, hfind], hi.park hnone rfl, (removeFakeHandle_none hno).symm,
      fun _ _ => rfl, .idle, fun _ => rfl, rfl⟩

/-- A block is freed by who holds it. -/
theorem inv_free (hi : Inv σ l) (hpc : σ.pc t = .freeing p s) :
    ∃ σ', step σ (.free t) = some σ' ∧ Inv σ' l ∧ σ'.pc = Function.update σ.pc t .idle := by
  have hblock : (σ.pc t).block = some (p, s) := by rw [hpc]; rfl
  obtain ⟨hpl, hlive⟩ := hi.account.of_held hblock
  obtain ⟨c, hcell, -⟩ := Option.map_eq_some_iff.1 hlive
  refine ⟨{ σ with heap := PtrQueue.free σ.heap p, freed := s :: σ.freed }.to t .idle,
    by simp only [step, hpc, hcell, Option.map_some], ⟨hi.seg.frame fun a ha => ?_, hi.nodup, ?_⟩, rfl⟩
  · have hne : a ≠ p := fun e => hpl (e ▸ ha)
    simp [State.to, PtrQueue.free, hne]
  · refine (hi.account.free hblock).congr (fun a => ?_) (fun _ => Iff.rfl) fun u => ?_
    · by_cases ha : a = p
      · subst ha
        simp [serialAt, State.to, PtrQueue.free]
      · simp [serialAt, State.to, PtrQueue.free, ha]
    · exact block_to _ t u _

/-- The list after a write to the block at an address. -/
def putAt (l : List (Ptr × Block)) (p : Ptr) (w : Block) : List (Ptr × Block) :=
  l.map fun x => if x.1 = p then (x.1, w) else x

theorem ptrs_putAt (l : List (Ptr × Block)) (p : Ptr) (w : Block) : ptrs (putAt l p w) = ptrs l := by
  rw [ptrs, putAt, List.map_map, ptrs]
  refine List.map_congr_left fun x _ => ?_
  rw [Function.comp_apply]
  split
  · rfl
  · rfl

omit [DecidableEq T] in
/-- A write through a pointer, whoever has the block now, as long as there is one. -/
theorem inv_setFilter (hi : Inv σ l) {q : Ptr} {c : Cell Block} (hc : σ.heap q = some c) (mac : Mac) :
    Inv { σ with heap := write σ.heap q { c with val := c.val.setMac mac } } (putAt l q (c.val.setMac mac)) := by
  refine ⟨hi.seg.setVal hc _ hi.nodup, by rw [ptrs_putAt]; exact hi.nodup, ?_⟩
  refine hi.account.congr (fun a => ?_) (fun a => by rw [ptrs_putAt]) fun _ => rfl
  have hself : serialAt σ.heap q = some (c.val.setMac mac).serial := by rw [serialAt, hc]; rfl
  rw [serialAt_write, ← hself, Function.update_eq_self]

/-! ## Whatever the threads do -/

/-- The step a thread is about to take that nobody else can take for it. -/
def Call.next (t : T) : Call → Option (Act T)
  | .adding _ _ => some (.lockAdd t)
  | .searching _ _ => some (.lockGet t)
  | .removing _ => some (.lockRemove t)
  | .freeing _ _ => some (.free t)
  | .idle | .using _ _ _ => none

theorem Inv.step {a : Act T} (hi : Inv σ l) (hs : step σ a = some σ') : ∃ l', Inv σ' l' := by
  cases a with
  | createFile t p =>
    simp only [HandleList.step] at hs
    split at hs
    · next hpc hp =>
      obtain ⟨τ, hτ, hi', -⟩ := inv_createFile hi hpc hp
      simp only [HandleList.step, hpc, hp] at hτ
      exact ⟨l, Option.some.inj (hτ.symm.trans hs) ▸ hi'⟩
    · cases hs
  | lockAdd t =>
    cases hpc : σ.pc t with
    | adding p s =>
      obtain ⟨τ, c, -, hτ, hi', -⟩ := inv_lockAdd hi hpc
      exact ⟨_, Option.some.inj (hτ.symm.trans hs) ▸ hi'⟩
    | _ => simp [HandleList.step, hpc] at hs
  | call t h closes =>
    simp only [HandleList.step] at hs
    split at hs
    · next hpc =>
      cases hs
      exact ⟨l, hi.park (by rw [hpc]; rfl) rfl⟩
    · cases hs
  | lockGet t =>
    cases hpc : σ.pc t with
    | searching h closes =>
      obtain ⟨τ, hτ, hi', -⟩ := inv_lockGet hi hpc
      exact ⟨l, Option.some.inj (hτ.symm.trans hs) ▸ hi'⟩
    | _ => simp [HandleList.step, hpc] at hs
  | setFilter t mac =>
    simp only [HandleList.step] at hs
    split at hs
    · next h p s hpc =>
      obtain ⟨c, hcell, rfl⟩ := Option.map_eq_some_iff.1 hs
      exact ⟨_, inv_setFilter hi hcell mac⟩
    · cases hs
  | finish t =>
    simp only [HandleList.step] at hs
    split at hs
    · next hpc =>
      cases hs
      exact ⟨l, hi.park (by rw [hpc]; rfl) rfl⟩
    · cases hs
  | lockRemove t =>
    cases hpc : σ.pc t with
    | removing h =>
      obtain ⟨τ, l', hτ, hi', -⟩ := inv_lockRemove hi hpc
      exact ⟨l', Option.some.inj (hτ.symm.trans hs) ▸ hi'⟩
    | _ => simp [HandleList.step, hpc] at hs
  | free t =>
    cases hpc : σ.pc t with
    | freeing p s =>
      obtain ⟨τ, hτ, hi', -⟩ := inv_free hi hpc
      exact ⟨l, Option.some.inj (hτ.symm.trans hs) ▸ hi'⟩
    | _ => simp [HandleList.step, hpc] at hs

theorem inv_run {n : UInt32} (hr : run step (State.start n) as = some σ) : ∃ l, Inv σ l :=
  run_invariant (I := fun σ : State T => ∃ l, Inv σ l) (fun _ _ _ ⟨_, hi⟩ hs => hi.step hs) ⟨[], inv_start n⟩ hr

/-- What a thread is about to do under the lock, or with a block of its own, it can do. -/
theorem Inv.progress {a : Act T} (hi : Inv σ l) (ha : (σ.pc t).next t = some a) :
    ∃ σ', HandleList.step σ a = some σ' := by
  cases hpc : σ.pc t with
  | adding p s =>
    rw [hpc] at ha
    cases ha
    obtain ⟨σ', _, -, hs, -⟩ := inv_lockAdd hi hpc
    exact ⟨σ', hs⟩
  | searching h closes =>
    rw [hpc] at ha
    cases ha
    obtain ⟨σ', hs, -⟩ := inv_lockGet hi hpc
    exact ⟨σ', hs⟩
  | removing h =>
    rw [hpc] at ha
    cases ha
    obtain ⟨σ', _, hs, -⟩ := inv_lockRemove hi hpc
    exact ⟨σ', hs⟩
  | freeing p s =>
    rw [hpc] at ha
    cases ha
    obtain ⟨σ', hs, -⟩ := inv_free hi hpc
    exact ⟨σ', hs⟩
  | _ =>
    rw [hpc] at ha
    cases ha

/-- **The list under any interleaving**, as long as no hook writes through a pointer to a freed context. It is sound;
a context that is allocated is in the list, or one thread has it to itself; every context ever allocated is at one
address, or was freed once; and no step under the lock follows a dangling pointer. -/
theorem handleList_keeps {n : UInt32} (hr : run step (State.start n) as = some σ) :
    (∃ l, Seg σ.heap σ.head l none ∧ (ptrs l).Nodup ∧
      ∀ p s, serialAt σ.heap p = some s →
        (p ∈ ptrs l ∧ ∀ t, (σ.pc t).block ≠ some (p, s)) ∨ (p ∉ ptrs l ∧ ∃! t, (σ.pc t).block = some (p, s))) ∧
    (σ.freed.Nodup ∧ ∀ s < σ.allocs,
      (s ∈ σ.freed ∧ ∀ p, serialAt σ.heap p ≠ some s) ∨ (s ∉ σ.freed ∧ ∃! p, serialAt σ.heap p = some s)) ∧
    ∀ t a, (σ.pc t).next t = some a → ∃ σ', step σ a = some σ' := by
  obtain ⟨l, hi⟩ := inv_run hr
  have hacc := hi.account
  refine ⟨⟨l, hi.seg, hi.nodup, fun p s hp => ?_⟩, ⟨hacc.once, fun s hs => ?_⟩, fun t a ha => hi.progress ha⟩
  · rcases hacc.kept hp with hl | ⟨t, ht⟩
    · exact .inl ⟨hl, fun t ht => (hacc.of_held ht).1 hl⟩
    · exact .inr ⟨(hacc.of_held ht).1, t, ht, fun u hu => hacc.apart hu ht⟩
  · rcases hacc.all s hs with hf | ⟨p, hp⟩
    · exact .inl ⟨hf, fun p hp => (hacc.of_live hp).2 hf⟩
    · exact .inr ⟨(hacc.of_live hp).2, p, hp, fun q hq => hacc.serial hq hp⟩

/-- Two threads close handle 4097; both have found its context before either takes it out. -/
def closeTwice : List (Act Bool) :=
  [.createFile false 8, .lockAdd false, .call false 4097 true, .call true 4097 true, .lockGet false, .lockGet true,
    .lockRemove false, .lockRemove true, .free false]

theorem handleList_keeps_closeTwice :
    ∃ σ : State Bool, run step (State.start 0x1000) closeTwice = some σ ∧ σ.freed = [0] ∧
      (∃ l, Seg σ.heap σ.head l none) ∧ ∀ t a, (σ.pc t).next t = some a → ∃ σ', step σ a = some σ' := by
  have hfreed : (run step (State.start 0x1000) closeTwice).map State.freed = some [0] := by rfl
  obtain ⟨σ, hr, hf⟩ := Option.map_eq_some_iff.1 hfreed
  obtain ⟨⟨l, hseg, -⟩, -, hnext⟩ := handleList_keeps hr
  exact ⟨σ, hr, hf, ⟨l, hseg⟩, hnext⟩

/-! ## Hooks that are not disturbed -/

/-- What a step does to the list of `Device.World`. -/
inductive Op where
  | add (c : HandleContext)
  | setFilter (h : Handle) (mac : Mac)
  | remove (h : Handle)

def Op.apply (L : List HandleContext) : Op → List HandleContext
  | .add c => c :: L
  | .setFilter h mac =>
    match getHandleContext L h with
    | some c => setContext L { c with mac := mac, macSet := true }
    | none => L
  | .remove h => removeFakeHandle L h

def emit (σ : State T) : Act T → List Op
  | .lockAdd t =>
    match σ.pc t with
    | .adding p _ => ((σ.heap p).map fun c => .add c.val.ctx).toList
    | _ => []
  | .setFilter t mac =>
    match σ.pc t with
    | .using h _ _ => [.setFilter h mac]
    | _ => []
  | .lockRemove t =>
    match σ.pc t with
    | .removing h => [.remove h]
    | _ => []
  | _ => []

/-- The handle a step puts into the list or takes out. -/
def Act.handle (σ : State T) : Act T → Option Handle
  | .lockAdd t =>
    match σ.pc t with
    | .adding p _ => (σ.heap p).map fun c => c.val.ctx.h
    | _ => none
  | .lockRemove t =>
    match σ.pc t with
    | .removing h => some h
    | _ => none
  | _ => none

/-- The application closes no handle while a hook is using it, and its number is not given out anew meanwhile. -/
def Undisturbed (σ : State T) (a : Act T) : Prop := ∀ k ∈ a.handle σ, ∀ u, (σ.pc u).uses k = false

instance (σ : State Bool) (a : Act Bool) : Decidable (Undisturbed σ a) :=
  match h : a.handle σ with
  | none => isTrue fun k hk => by rw [h] at hk; cases hk
  | some k => decidable_of_iff (∀ u, (σ.pc u).uses k = false) (by simp [Undisturbed, h])

/-- Every hook has the context its handle has in the list. -/
def Own (pc : T → Call) (l : List (Ptr × Block)) : Prop :=
  ∀ t h p s, pc t = .using h p s → ∃ v, first l h = some (p, v) ∧ v.serial = s

theorem Own.to {pc : T → Call} (ho : Own pc l)
    (hc : ∀ h p s, c = .using h p s → ∃ v, first l h = some (p, v) ∧ v.serial = s) : Own (Function.update pc t c) l := by
  intro u h p s hu
  by_cases hut : u = t
  · rw [hut, Function.update_self] at hu
    exact hc h p s hu
  · rw [Function.update_of_ne hut] at hu
    exact ho u h p s hu

theorem Own.park {pc : T → Call} (ho : Own pc l) (hc : ∀ h, c.uses h = false) : Own (Function.update pc t c) l := by
  refine ho.to fun h p s he => ?_
  have hno := hc h
  rw [he, Call.uses, beq_self_eq_true] at hno
  cases hno

omit [DecidableEq T] in
/-- A list in which the handles in use have the same contexts. -/
theorem Own.congr {pc : T → Call} {l' : List (Ptr × Block)} (ho : Own pc l)
    (hl : ∀ u k, (pc u).uses k = true → first l' k = first l k) : Own pc l' := by
  intro u k p s hu
  rw [hl u k (by rw [hu]; exact beq_self_eq_true k)]
  exact ho u k p s hu

theorem putAt_cons (x : Ptr × Block) (l : List (Ptr × Block)) (q : Ptr) (w : Block) :
    putAt (x :: l) q w = (if x.1 = q then (x.1, w) else x) :: putAt l q w := rfl

theorem putAt_of_notMem {q : Ptr} (hq : q ∉ ptrs l) (w : Block) : putAt l q w = l := by
  have hid : ∀ x ∈ l, (if x.1 = q then (x.1, w) else x) = id x := by
    intro x hx
    refine if_neg fun e => hq ?_
    rw [← e]
    exact List.mem_map_of_mem hx
  rw [putAt, List.map_congr_left hid, List.map_id]

/-- Writing to a context without changing its number, every handle still has the same one. -/
theorem first_putAt {q : Ptr} {v w : Block} (hnd : (ptrs l).Nodup) (hq : (q, v) ∈ l) (hw : w.ctx.h = v.ctx.h)
    (h : Handle) : first (putAt l q w) h = (first l h).map fun x => if x.1 = q then (x.1, w) else x := by
  rw [first, putAt, List.find?_map, first]
  congr 1
  refine List.find?_congr fun x hx => ?_
  rw [Function.comp_apply]
  split
  · next hxq =>
    obtain rfl : x = (q, v) := List.inj_on_of_nodup_map hnd hx hq hxq
    simp [isFor, HandleContext.is, hw]
  · rfl

/-- A write through the pointer of a hook is one to the context its handle has. -/
theorem setContext_putAt {q : Ptr} {v w : Block} (hnd : (ptrs l).Nodup) (hq : first l h = some (q, v))
    (hw : w.ctx.h = h) : setContext (contexts l) w.ctx = contexts (putAt l q w) := by
  induction l with
  | nil => cases hq
  | cons x l ih =>
    obtain ⟨hx, hnd⟩ := List.nodup_cons.1 hnd
    rw [first, List.find?_cons] at hq
    rw [putAt_cons, contexts, List.map_cons, setContext, hw]
    split at hq
    · next hxh =>
      cases hq
      rw [if_pos (by simpa [isFor, HandleContext.is] using hxh), if_pos rfl, putAt_of_notMem hx]
      rfl
    · next hxh =>
      have hne : x.1 ≠ q := fun e => hx (e ▸ List.mem_map_of_mem (List.mem_of_find?_eq_some hq))
      rw [if_neg (by simpa [isFor, HandleContext.is] using hxh), if_neg hne]
      exact congrArg (x.2.ctx :: ·) (ih hnd hq)

/-- The list of the heap is the given one, and the hooks work with their own contexts. -/
def Abstracts (σ : State T) (L : List HandleContext) : Prop := ∃ l, Inv σ l ∧ Own σ.pc l ∧ contexts l = L

omit [DecidableEq T] in
theorem Abstracts.setFilter {L : List HandleContext} (hrel : Abstracts σ L) {q : Ptr} {s : Nat} {cell : Cell Block}
    (hpc : σ.pc t = .using h q s) (hcell : σ.heap q = some cell) (mac : Mac) :
    Abstracts { σ with heap := write σ.heap q { cell with val := cell.val.setMac mac } }
      (Op.apply L (.setFilter h mac)) := by
  obtain ⟨l, hi, ho, rfl⟩ := hrel
  obtain ⟨v, hfirst, hvs⟩ := ho t h q s hpc
  have hmem : (q, v) ∈ l := List.mem_of_find?_eq_some hfirst
  obtain ⟨nx, hc⟩ := hi.seg.cell (q, v) hmem
  obtain rfl : cell = ⟨v, nx⟩ := Option.some.inj (hcell.symm.trans hc)
  have hvh : v.ctx.h = h := by simpa [isFor, HandleContext.is] using List.find?_some hfirst
  refine ⟨_, inv_setFilter hi hcell mac, ?_, ?_⟩
  · intro u k q' s' hu
    obtain ⟨v', hfirst', hvs'⟩ := ho u k q' s' hu
    have hput := first_putAt (w := v.setMac mac) hi.nodup hmem rfl k
    rw [hfirst', Option.map_some] at hput
    by_cases hq : q' = q
    · subst hq
      have hv : (q', v') = (q', v) := List.inj_on_of_nodup_map hi.nodup (List.mem_of_find?_eq_some hfirst') hmem rfl
      cases hv
      exact ⟨v.setMac mac, by rw [hput, if_pos rfl], hvs'⟩
    · exact ⟨v', by rw [hput, if_neg hq], hvs'⟩
  · rw [Op.apply, getHandleContext_contexts, hfirst]
    exact (setContext_putAt (w := v.setMac mac) hi.nodup hfirst hvh).symm

/-- **One step** does to the list what it says it does. -/
theorem Abstracts.step {L : List HandleContext} {a : Act T} (hrel : Abstracts σ L) (hok : Undisturbed σ a)
    (hs : HandleList.step σ a = some σ') : Abstracts σ' ((emit σ a).foldl Op.apply L) := by
  cases a with
  | createFile t p =>
    obtain ⟨l, hi, ho, rfl⟩ := hrel
    simp only [HandleList.step] at hs
    split at hs
    · next hpc hp =>
      obtain ⟨τ, hτ, hi', hpc'⟩ := inv_createFile hi hpc hp
      simp only [HandleList.step, hpc, hp] at hτ
      obtain rfl := Option.some.inj (hτ.symm.trans hs)
      refine ⟨l, hi', ?_, rfl⟩
      rw [hpc']
      exact ho.park fun _ => rfl
    · cases hs
  | lockAdd t =>
    obtain ⟨l, hi, ho, rfl⟩ := hrel
    cases hpc : σ.pc t with
    | adding p s =>
      obtain ⟨τ, c, hcell, hτ, hi', hpc'⟩ := inv_lockAdd hi hpc
      obtain rfl := Option.some.inj (hτ.symm.trans hs)
      rw [Undisturbed, Act.handle, hpc] at hok
      rw [emit, hpc]
      refine ⟨_, hi', ?_, by simp only [hcell]; rfl⟩
      rw [hpc']
      refine Own.park (ho.congr fun u k hk => List.find?_cons_of_neg ?_) fun _ => rfl
      -- the number of the new context is not in use
      intro he
      have hkc : c.val.ctx.h = k := by simpa [isFor, HandleContext.is] using he
      rw [← hkc, hok _ (by simp [hcell]) u] at hk
      cases hk
    | _ => simp [HandleList.step, hpc] at hs
  | call t h closes =>
    obtain ⟨l, hi, ho, rfl⟩ := hrel
    simp only [HandleList.step] at hs
    split at hs
    · next hpc =>
      cases hs
      exact ⟨l, hi.park (by rw [hpc]; rfl) rfl, ho.park fun _ => rfl, rfl⟩
    · cases hs
  | lockGet t =>
    obtain ⟨l, hi, ho, rfl⟩ := hrel
    cases hpc : σ.pc t with
    | searching h closes =>
      obtain ⟨τ, hτ, hi', hcase⟩ := inv_lockGet hi hpc
      obtain rfl := Option.some.inj (hτ.symm.trans hs)
      refine ⟨l, hi', ?_, rfl⟩
      rcases hcase with ⟨-, rfl⟩ | ⟨p, v, hfirst, rfl⟩
      · exact ho.park fun _ => rfl
      · cases closes with
        | true => exact ho.park fun _ => rfl
        | false =>
          refine ho.to fun k q s he => ?_
          cases he
          exact ⟨v, hfirst, rfl⟩
    | _ => simp [HandleList.step, hpc] at hs
  | setFilter t mac =>
    simp only [HandleList.step] at hs
    split at hs
    · next h p s hpc =>
      obtain ⟨c, hcell, rfl⟩ := Option.map_eq_some_iff.1 hs
      rw [emit, hpc]
      exact hrel.setFilter hpc hcell mac
    · cases hs
  | finish t =>
    obtain ⟨l, hi, ho, rfl⟩ := hrel
    simp only [HandleList.step] at hs
    split at hs
    · next hpc =>
      cases hs
      exact ⟨l, hi.park (by rw [hpc]; rfl) rfl, ho.park fun _ => rfl, rfl⟩
    · cases hs
  | lockRemove t =>
    obtain ⟨l, hi, ho, rfl⟩ := hrel
    cases hpc : σ.pc t with
    | removing h =>
      obtain ⟨τ, l', hτ, hi', hcon, hfirst, c, hc, hpc'⟩ := inv_lockRemove hi hpc
      obtain rfl := Option.some.inj (hτ.symm.trans hs)
      rw [Undisturbed, Act.handle, hpc] at hok
      rw [emit, hpc]
      refine ⟨l', hi', ?_, hcon⟩
      rw [hpc']
      refine Own.park (ho.congr fun u k hk => hfirst k fun he => ?_) hc
      rw [he, hok h rfl u] at hk
      cases hk
    | _ => simp [HandleList.step, hpc] at hs
  | free t =>
    obtain ⟨l, hi, ho, rfl⟩ := hrel
    cases hpc : σ.pc t with
    | freeing p s =>
      obtain ⟨τ, hτ, hi', hpc'⟩ := inv_free hi hpc
      obtain rfl := Option.some.inj (hτ.symm.trans hs)
      refine ⟨l, hi', ?_, rfl⟩
      rw [hpc']
      exact ho.park fun _ => rfl
    | _ => simp [HandleList.step, hpc] at hs

/-- **One list, one after another.** In a run that disturbs no hook, the linked list holds what the operations under the
lock make of the empty list, in the order in which the threads got the lock; and a hook that is at work has the context
it found, which is still the one its handle has. -/
theorem undisturbed_refines {n : UInt32} (hg : Guarded step Undisturbed (State.start n) as)
    (hr : run step (State.start n) as = some σ) :
    ∃ l, Seg σ.heap σ.head l none ∧ contexts l = (Refine.performed step emit (State.start n) as).foldl Op.apply [] ∧
      ∀ t h p s, σ.pc t = .using h p s →
        ∃ v, (p, v) ∈ l ∧ v.serial = s ∧ getHandleContext (contexts l) h = some v.ctx := by
  have hstart : Abstracts (State.start n : State T) [] := ⟨[], inv_start n, fun _ _ _ _ => Call.noConfusion, rfl⟩
  obtain ⟨l, hi, ho, hL⟩ := Refine.performed_refines (fun _ _ _ _ hrel hok hs => hrel.step hok hs) hg hstart hr
  refine ⟨l, hi.seg, hL, fun t h p s hpc => ?_⟩
  obtain ⟨v, hfirst, hvs⟩ := ho t h p s hpc
  exact ⟨v, List.mem_of_find?_eq_some hfirst, hvs, by rw [getHandleContext_contexts, hfirst]; rfl⟩

def mac1 : Mac := ⟨#[2, 0, 0, 0, 0, 1], rfl⟩

/-- Two handles are opened and a MAC is set on the first, while the other thread closes the second. -/
def setAndClose : List (Act Bool) :=
  [.createFile false 8, .createFile true 16, .lockAdd false, .lockAdd true, .call false 4097 false, .lockGet false,
    .call true 4098 true, .lockGet true, .lockRemove true, .setFilter false mac1, .free true]

theorem undisturbed_refines_setAndClose :
    ∃ σ : State Bool, run step (State.start 0x1000) setAndClose = some σ ∧ σ.freed = [1] ∧
      ∃ l, Seg σ.heap σ.head l none ∧ contexts l = [⟨4097, mac1, true, []⟩] := by
  have hg : Guarded step Undisturbed (State.start 0x1000) setAndClose := by decide +kernel
  have hfreed : (run step (State.start 0x1000) setAndClose).map State.freed = some [1] := by rfl
  obtain ⟨σ, hr, hf⟩ := Option.map_eq_some_iff.1 hfreed
  obtain ⟨l, hseg, hL, -⟩ := undisturbed_refines hg hr
  exact ⟨σ, hr, hf, l, hseg, hL.trans rfl⟩

/-- The first thread has looked up handle 4097 when the other one closes it and opens 4098, which gets the memory. What
the first one writes then goes to 4098. -/
def reuse : List (Act Bool) :=
  [.createFile false 8, .lockAdd false, .call false 4097 false, .lockGet false, .call true 4097 true, .lockGet true,
    .lockRemove true, .free true, .createFile true 8, .lockAdd true, .setFilter false mac1]

theorem filter_other :
    ∃ σ : State Bool, run step (State.start 0x1000) reuse = some σ ∧ σ.pc false = .using 4097 8 0 ∧
      (σ.heap 8).map (fun b => (b.val.ctx.h, b.val.ctx.macSet)) = some (4098, true) :=
  ⟨_, rfl, rfl, rfl⟩

end Rvpn.HandleList
