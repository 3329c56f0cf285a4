import Rvpn.Bridge.Main

/-!
# The emulated device: data types and the parts under the hooks (inject.c)

| here | there |
| --- | --- |
| `Handle`        | a `HANDLE` of the 32-bit build; emulated ones come from `g_NextHandleId` (`inject.c:92`) |
| `OvPtr`         | an `OVERLAPPED *` of the application |
| `Socket`        | a `SOCKET`; `INVALID_SOCKET` is `none` |
| `PendingRead`   | `PENDING_READ` (`:67`) without its `next` link |
| `HandleContext` | `HANDLE_CONTEXT` (`:74`); the fields only the proxy build uses are left out |
| `getHandleContext`, `removeFakeHandle` | `:143-173` |
| `isMacMatch`    | `:216-233` |
| `enqueue`       | the append under `g_HandleListLock` (`:361-369`, `:666-675`) |
| `unlinkReq`     | the search and unlink under the lock (`:594-605`) |
| `recvLoop`      | the receive loop of `Hook_GetOverlappedResult` (`:617-660`) |

`enqueue` and `unlinkReq` work on the list of requests from `pending_head`; `PendingQueue.lean` has
the pointer code and shows that it computes them.
-/

namespace Rvpn

abbrev Handle := UInt32
abbrev OvPtr := Nat
abbrev Socket := Nat

/-- `PENDING_READ`: one `ReadFile` that waits for a frame. -/
structure PendingRead where
  ov : OvPtr
  /-- Address of the caller's buffer. -/
  buffer : Nat
  buflen : UInt32
  /-- The socket opened for this read. -/
  sock : Option Socket
deriving DecidableEq, Repr

def PendingRead.isFor (ov : OvPtr) (r : PendingRead) : Bool := r.ov == ov

def enqueue (queue : List PendingRead) (r : PendingRead) : List PendingRead := queue ++ [r]

/-- The first request for `ov`, if any, and the queue without it. -/
def unlinkReq (ov : OvPtr) (queue : List PendingRead) : Option PendingRead × List PendingRead :=
  (queue.find? (PendingRead.isFor ov), queue.eraseP (PendingRead.isFor ov))

/-- The request that is unlinked and those that stay are the queue. -/
theorem unlinkReq_split {ov : OvPtr} {queue rest : List PendingRead} {r : PendingRead}
    (h : unlinkReq ov queue = (some r, rest)) : ∃ pre post, queue = pre ++ r :: post ∧ rest = pre ++ post := by
  obtain ⟨hf, rfl⟩ : queue.find? (PendingRead.isFor ov) = some r ∧ queue.eraseP (PendingRead.isFor ov) = rest := by
    simpa [unlinkReq] using h
  obtain ⟨hr, pre, post, rfl, hpre⟩ := List.find?_eq_some_iff_append.1 hf
  have hno : ∀ x ∈ pre, ¬ PendingRead.isFor ov x = true := fun x hx => by simpa using hpre x hx
  refine ⟨pre, post, rfl, ?_⟩
  rw [List.eraseP_append_right _ hno, List.eraseP_cons_of_pos hr]

theorem mem_of_unlinkReq {ov : OvPtr} {queue rest : List PendingRead} {r : PendingRead}
    (h : unlinkReq ov queue = (some r, rest)) (x : PendingRead) : x ∈ queue ↔ x = r ∨ x ∈ rest := by
  obtain ⟨pre, post, rfl, rfl⟩ := unlinkReq_split h
  simp only [List.mem_append, List.mem_cons]
  tauto

/-! ## Handle contexts -/

structure HandleContext where
  h : Handle
  mac : Mac
  macSet : Bool
  /-- The requests from `pending_head` on. -/
  pending : List PendingRead

/-- `memset(ctx, 0, sizeof(*ctx)); ctx->h = h;` -/
def HandleContext.fresh (h : Handle) : HandleContext := ⟨h, Vector.replicate 6 0, false, []⟩

def HandleContext.is (h : Handle) (c : HandleContext) : Bool := c.h == h

def getHandleContext (l : List HandleContext) (h : Handle) : Option HandleContext := l.find? (HandleContext.is h)

def removeFakeHandle (l : List HandleContext) (h : Handle) : List HandleContext := l.eraseP (HandleContext.is h)

/-- A write through the pointer `GetHandleContext` returned: the first context with the number of `c`. -/
def setContext : List HandleContext → HandleContext → List HandleContext
  | [], _ => []
  | d :: ds, c => if d.h = c.h then c :: ds else d :: setContext ds c

/-- The context a handle resolves to, with the list around it. -/
theorem setContext_split {l : List HandleContext} {h : Handle} {c : HandleContext}
    (hc : getHandleContext l h = some c) :
    ∃ pre post, l = pre ++ c :: post ∧ ∀ c', c'.h = h → setContext l c' = pre ++ c' :: post := by
  induction l with
  | nil => cases hc
  | cons d ds ih =>
    unfold getHandleContext at hc ih
    by_cases hd : d.h = h
    · rw [List.find?_cons_of_pos (by simpa [HandleContext.is] using hd)] at hc
      obtain rfl := Option.some.inj hc
      refine ⟨[], ds, rfl, fun c' hc' => ?_⟩
      rw [setContext, if_pos (hd.trans hc'.symm)]
      rfl
    · rw [List.find?_cons_of_neg (by simpa [HandleContext.is] using hd)] at hc
      obtain ⟨pre, post, rfl, hset⟩ := ih hc
      refine ⟨d :: pre, post, rfl, fun c' hc' => ?_⟩
      rw [setContext, if_neg (by rw [hc']; exact hd), hset c' hc']
      rfl

theorem getHandleContext_h {l : List HandleContext} {h : Handle} {c : HandleContext}
    (hc : getHandleContext l h = some c) : c.h = h := by
  simpa [HandleContext.is] using List.find?_some hc

/-- After a write through its context a handle resolves to what was written. -/
theorem getHandleContext_setContext_self {l : List HandleContext} {h : Handle} {c c' : HandleContext}
    (hc : getHandleContext l h = some c) (hh : c'.h = h) : getHandleContext (setContext l c') h = some c' := by
  induction l with
  | nil => cases hc
  | cons d ds ih =>
    unfold setContext
    by_cases hd : d.h = h
    · rw [if_pos (hd.trans hh.symm)]
      exact List.find?_cons_of_pos (by simpa [HandleContext.is] using hh)
    · have hdn : ¬ HandleContext.is h d = true := by simpa [HandleContext.is] using hd
      rw [if_neg (by rw [hh]; exact hd)]
      unfold getHandleContext at hc ih ⊢
      rw [List.find?_cons_of_neg hdn] at hc ⊢
      exact ih hc

theorem getHandleContext_setPending {l : List HandleContext} {h : Handle} {c : HandleContext}
    (hc : getHandleContext l h = some c) (q : List PendingRead) :
    getHandleContext (setContext l { c with pending := q }) h = some { c with pending := q } := by
  have hh : c.h = h := getHandleContext_h hc
  apply getHandleContext_setContext_self hc
  exact hh

/-- **Isolation**: a write through one handle's context leaves the other handles as they are. -/
theorem getHandleContext_setContext_ne {h : Handle} {c' : HandleContext} (hh : c'.h ≠ h) :
    ∀ l : List HandleContext, getHandleContext (setContext l c') h = getHandleContext l h
  | [] => rfl
  | d :: ds => by
    unfold setContext
    split_ifs with hd
    · have hdn : ¬ HandleContext.is h d = true := by rw [HandleContext.is, hd]; simpa using hh
      have hcn : ¬ HandleContext.is h c' = true := by simpa [HandleContext.is] using hh
      rw [getHandleContext, getHandleContext, List.find?_cons_of_neg hcn, List.find?_cons_of_neg hdn]
    · have ih := getHandleContext_setContext_ne hh ds
      unfold getHandleContext at ih ⊢
      rw [List.find?_cons, List.find?_cons, ih]

/-! ## The MAC filter -/

/-- Bit 0 of the first byte. -/
def groupBit (dest : List UInt8) : Bool := dest.headD 0 &&& 0x01 != 0

def isMacMatch (dest : List UInt8) (ctx : HandleContext) : Bool :=
  if !ctx.macSet then false
  else if dest.take 6 == ctx.mac.toList then true
  else groupBit dest

theorem isMacMatch_iff {dest : List UInt8} {ctx : HandleContext} :
    isMacMatch dest ctx = true ↔ ctx.macSet = true ∧ (dest.take 6 = ctx.mac.toList ∨ groupBit dest = true) := by
  unfold isMacMatch
  cases ctx.macSet <;> simp

/-! ## Receiving -/

/-- A datagram in the queue of a socket. `seq` is the number of the TAP frame it carries; it is there
for the statements only. -/
structure Dgram where
  bytes : List UInt8
  seq : Nat
deriving DecidableEq, Repr

/-- What follows the type byte. -/
def Dgram.frame (d : Dgram) : List UInt8 := d.bytes.tail

/-- `n >= 14` for a datagram that fits `frame[2048]`; `recv` fails for a longer one. -/
def Dgram.fullSize (d : Dgram) : Bool := 14 ≤ d.bytes.length && d.bytes.length ≤ 2048

/-- A datagram the loop hands to the read. -/
def Dgram.deliverable (ctx : HandleContext) (d : Dgram) : Bool := d.fullSize && isMacMatch d.frame ctx

/-- The receive loop on a socket with the datagrams `rx`: what it completes with, and what is left.
A mismatch is discarded, a runt or a receive error is discarded and ends the loop. -/
def recvLoop (ctx : HandleContext) : List Dgram → Option Dgram × List Dgram
  | [] => (none, [])
  | d :: ds =>
    if d.fullSize then
      if isMacMatch d.frame ctx then (some d, ds) else recvLoop ctx ds
    else (none, ds)

/-- **The loop**: it drops full-size mismatches, and then the queue is empty, a runt is dropped too,
or the next datagram is delivered. -/
theorem recvLoop_spec (ctx : HandleContext) (rx : List Dgram) :
    ∃ pre, (∀ d ∈ pre, d.fullSize = true ∧ isMacMatch d.frame ctx = false) ∧
      ((rx = pre ∧ recvLoop ctx rx = (none, [])) ∨
        ∃ d post, rx = pre ++ d :: post ∧
          ((d.fullSize = false ∧ recvLoop ctx rx = (none, post)) ∨
            (d.deliverable ctx = true ∧ recvLoop ctx rx = (some d, post)))) := by
  induction rx with
  | nil => exact ⟨[], by simp, .inl ⟨rfl, rfl⟩⟩
  | cons d ds ih =>
    cases hf : d.fullSize with
    | false =>
      refine ⟨[], by simp, .inr ⟨d, ds, rfl, .inl ⟨hf, ?_⟩⟩⟩
      simp [recvLoop, hf]
    | true =>
      cases hm : isMacMatch d.frame ctx with
      | true =>
        refine ⟨[], by simp, .inr ⟨d, ds, rfl, .inr ⟨?_, ?_⟩⟩⟩
        · simp [Dgram.deliverable, hf, hm]
        · simp [recvLoop, hf, hm]
      | false =>
        have hstep : recvLoop ctx (d :: ds) = recvLoop ctx ds := by simp [recvLoop, hf, hm]
        obtain ⟨pre, hpre, hcase⟩ := ih
        refine ⟨d :: pre, ?_, ?_⟩
        · intro x hx
          rcases List.mem_cons.1 hx with rfl | hx
          · exact ⟨hf, hm⟩
          · exact hpre x hx
        · rw [hstep]
          rcases hcase with ⟨rfl, hr⟩ | ⟨x, post, rfl, hr⟩
          · exact .inl ⟨rfl, hr⟩
          · exact .inr ⟨x, post, rfl, hr⟩

/-- What is left is the end of the queue. -/
theorem recvLoop_suffix (ctx : HandleContext) (rx : List Dgram) : (recvLoop ctx rx).2 <:+ rx := by
  obtain ⟨pre, -, ⟨rfl, hr⟩ | ⟨d, post, rfl, ⟨-, hr⟩ | ⟨-, hr⟩⟩⟩ := recvLoop_spec ctx rx
  · rw [hr]
    exact List.nil_suffix
  · rw [hr]
    exact ⟨pre ++ [d], by simp⟩
  · rw [hr]
    exact ⟨pre ++ [d], by simp⟩

/-- A delivered frame passes the filter. -/
theorem recvLoop_deliverable {ctx : HandleContext} {rx : List Dgram} {d : Dgram} {rest : List Dgram}
    (h : recvLoop ctx rx = (some d, rest)) :
    ∃ pre, rx = pre ++ d :: rest ∧ (∀ x ∈ pre, x.fullSize = true ∧ isMacMatch x.frame ctx = false) ∧
      d.deliverable ctx = true := by
  obtain ⟨pre, hpre, ⟨-, hr⟩ | ⟨x, post, hrx, ⟨-, hr⟩ | ⟨hx, hr⟩⟩⟩ := recvLoop_spec ctx rx
  · cases h.symm.trans hr
  · cases h.symm.trans hr
  · obtain ⟨rfl, rfl⟩ : d = x ∧ rest = post := by simpa using h.symm.trans hr
    exact ⟨pre, hrx, hpre, hx⟩

end Rvpn
