import Rvpn.Device.Framing

/-!
# What a completed read throws away

A completed read closes its socket with everything that still waits there. A read completes with the first frame of
its queue that it can deliver, so a frame is safe exactly if one of the reads that get it has nothing to deliver when it
arrives: the frame stays the first of that queue until the read completes with it. Any other frame never comes first,
and the reads that hold it can be completed before it does.

* `Clear` — the arrivals that are safe, a condition on the state before them;
* `IsFirst`, `moved_step` — what a step does to the first deliverable frames of the queues;
* `drain` — some calls on the handle empty all its queues;
* `no_frame_lost_iff` — a frame is delivered or waits in every run after its arrival exactly if the arrival is clear;
* `second_frame_lost` — one read, two frames: completing it with the first one loses the second.
-/

namespace Rvpn

open Lts

variable {h : Handle} {w w' : World} {ctx : HandleContext} {d : Dgram}

/-- A frame that passes the filter of `h` waits for a pending read of `h`. -/
def Holds (w : World) (h : Handle) (d : Dgram) : Prop :=
  ∃ ctx, getHandleContext w.handleList h = some ctx ∧ isMacMatch d.frame ctx = true ∧
    ∃ r ∈ ctx.pending, d ∈ queueOf w.socks r

/-- A completed read of `h` got the frame. -/
def Got (w : World) (h : Handle) (d : Dgram) : Prop :=
  ∃ x ∈ w.delivered, x.h = h ∧ x.seq = d.seq ∧ x.frame = d.frame

/-- **A clear arrival**: the frame is long enough for the receive loop, and one of the reads of `h` that the bridge
sends it to has nothing in its queue that it could complete with. -/
def Clear (w : World) (h : Handle) (f : List UInt8) : Prop :=
  13 ≤ f.length ∧ ∃ ctx, getHandleContext w.handleList h = some ctx ∧ ∃ r ∈ ctx.pending,
    (∃ a ∈ w.bridge.clients.addrs, addrOf w.socks r = some a) ∧ ∀ x ∈ queueOf w.socks r, x.deliverable ctx = false

/-! ## The first frame of a queue -/

/-- The frame a completion of the read would deliver. -/
def firstOf (socks : List UdpSock) (ctx : HandleContext) (r : PendingRead) : Option Dgram :=
  (queueOf socks r).find? (Dgram.deliverable ctx)

/-- Some pending read of `h` would complete with the frame. -/
def IsFirst (w : World) (h : Handle) (d : Dgram) : Prop :=
  ∃ ctx, getHandleContext w.handleList h = some ctx ∧ ∃ r ∈ ctx.pending, firstOf w.socks ctx r = some d

theorem IsFirst.holds (hf : IsFirst w h d) : Holds w h d := by
  obtain ⟨ctx, hctx, r, hr, hd⟩ := hf
  have hdel : d.deliverable ctx = true := List.find?_some hd
  exact ⟨ctx, hctx, (Bool.and_eq_true_iff.1 hdel).2, r, hr, List.mem_of_find?_eq_some hd⟩

/-- The receive loop takes the first deliverable frame. -/
theorem find?_of_recvLoop_some {rx rest : List Dgram} (hl : recvLoop ctx rx = (some d, rest)) :
    rx.find? (Dgram.deliverable ctx) = some d := by
  obtain ⟨pre, rfl, hpre, hd⟩ := recvLoop_deliverable hl
  refine List.find?_eq_some_iff_append.2 ⟨hd, pre, rest, rfl, fun x hx => ?_⟩
  simp [Dgram.deliverable, (hpre x hx).2]

/-- What the receive loop drops before it gives up cannot be delivered. -/
theorem find?_of_recvLoop_none {rx rest : List Dgram} (hl : recvLoop ctx rx = (none, rest)) :
    rest.find? (Dgram.deliverable ctx) = rx.find? (Dgram.deliverable ctx) := by
  obtain ⟨pre, hpre, hcase⟩ := recvLoop_spec ctx rx
  have hskip : pre.find? (Dgram.deliverable ctx) = none := by
    refine List.find?_eq_none.2 fun x hx => ?_
    simp [Dgram.deliverable, (hpre x hx).2]
  rcases hcase with ⟨rfl, hl'⟩ | ⟨x, post, rfl, ⟨hrunt, hl'⟩ | ⟨-, hl'⟩⟩
  · obtain rfl := (Prod.mk.inj (hl.symm.trans hl')).2
    rw [hskip]
    rfl
  · obtain rfl := (Prod.mk.inj (hl.symm.trans hl')).2
    rw [List.find?_append, hskip, Option.none_or, List.find?_cons_of_neg]
    simp [Dgram.deliverable, hrunt]
  · cases hl.symm.trans hl'

/-! ## What a step does to the first frames -/

/-- **One step on `h`**: a first frame stays one or is delivered, a new one has just arrived, and what is delivered was
a first one. -/
structure Moved (h : Handle) (w w' : World) : Prop where
  kept : ∀ d, IsFirst w h d → Got w' h d ∨ IsFirst w' h d
  made : ∀ d, IsFirst w' h d → IsFirst w h d ∨ w.tapLog.length ≤ d.seq
  still : ∀ x ∈ w.delivered, x ∈ w'.delivered
  got : ∀ x ∈ w'.delivered, x ∈ w.delivered ∨ ∃ d, IsFirst w h d ∧ x.seq = d.seq
  log : w.tapLog.length ≤ w'.tapLog.length

theorem Moved.refl (h : Handle) (w : World) : Moved h w w :=
  ⟨fun _ hd => .inr hd, fun _ hd => .inl hd, fun _ hx => hx, fun _ hx => .inl hx, Nat.le_refl _⟩

theorem moved_poll {i : PollIn} (hs : pollRound w i = some w') : Moved h w w' := by
  obtain ⟨fr, src, hlog, hqueue, -, -, -, -, hlist, -, hdel, -⟩ := pollRound_spec hs
  have hfirst : ∀ ctx r, firstOf w'.socks ctx r = (firstOf w.socks ctx r).or
      ((copyFor w.bridge.clients.addrs fr w.tapLog.length (addrOf w.socks r)).find? (Dgram.deliverable ctx)) := by
    intro ctx r
    rw [firstOf, hqueue, List.find?_append, firstOf]
  refine ⟨?_, ?_, by simp [hdel], ?_, by simp [hlog]⟩
  · rintro d ⟨ctx, hctx, r, hr, hd⟩
    refine .inr ⟨ctx, by rw [hlist, hctx], r, hr, ?_⟩
    rw [hfirst, hd, Option.some_or]
  · rintro d ⟨ctx, hctx, r, hr, hd⟩
    rw [hlist] at hctx
    rw [hfirst] at hd
    rcases Option.or_eq_some_iff.1 hd with hd | ⟨-, hd⟩
    · exact .inl ⟨ctx, hctx, r, hr, hd⟩
    · right
      have hmem := List.mem_of_find?_eq_some hd
      unfold copyFor at hmem
      split at hmem
      · cases hmem
      · split at hmem
        · cases hmem
        · split_ifs at hmem
          · obtain rfl := List.mem_singleton.1 hmem
            exact Nat.le_refl _
          · cases hmem
  · intro x hx
    rw [hdel] at hx
    exact .inl hx

theorem moved_readFile (ov : Option OvPtr) (buffer : Nat) (buflen : UInt32) (sk : Option (Socket × SockAddr))
    (hsk : ∀ s a, sk = some (s, a) → canOpen w.socks s a = true) :
    Moved h w (hookReadFile w h ov buffer buflen sk) := by
  unfold hookReadFile
  cases hctx : getHandleContext w.handleList h with
  | none => exact Moved.refl h w
  | some ctx =>
    simp only
    split_ifs with hact
    · exact Moved.refl h w
    · cases ov with
      | none => exact Moved.refl h w
      | some ov =>
        have hset := getHandleContext_setPending hctx (enqueue ctx.pending ⟨ov, buffer, buflen, sk.map Prod.fst⟩)
        refine ⟨?_, ?_, fun x hx => hx, fun x hx => .inl hx, Nat.le_refl _⟩
        · rintro d ⟨ctx', hctx', r, hr, hd⟩
          obtain rfl : ctx = ctx' := Option.some.inj (hctx.symm.trans hctx')
          refine .inr ⟨_, hset, r, List.mem_append_left _ hr, ?_⟩
          rw [firstOf] at hd ⊢
          rw [queueOf_open]
          exact hd
        · rintro d ⟨ctx', hctx', r, hr, hd⟩
          obtain rfl := Option.some.inj (hset.symm.trans hctx')
          rw [firstOf, queueOf_open] at hd
          rcases List.mem_append.1 hr with hr | hr
          · exact .inl ⟨ctx, hctx, r, hr, hd⟩
          · -- the queue of the new read is empty
            obtain rfl := List.mem_singleton.1 hr
            rw [queueOf_fresh ov buffer buflen hsk] at hd
            cases hd

theorem moved_getOverlappedResult (hw : SocksWF w) (ov : OvPtr) : Moved h w (hookGetOverlappedResult w h ov) := by
  rcases getOverlappedResult_cases w h ov with he | ⟨ctx, req, rest, hctx, -, hun, hcase⟩
  · rw [he]
    exact Moved.refl h w
  have hreq : req ∈ ctx.pending := (mem_of_unlinkReq hun req).2 (.inl rfl)
  have hsub : ∀ r ∈ rest, r ∈ ctx.pending := fun r hr => (mem_of_unlinkReq hun r).2 (.inr hr)
  -- a queue with a first frame is not the one of `req`
  have hother : ∀ r ∈ rest, ∀ d, firstOf w.socks ctx r = some d → r.sock ≠ req.sock := by
    intro r hr d hd
    exact hw.sock_ne hctx hun hr (List.ne_nil_of_mem (List.mem_of_find?_eq_some hd))
  rcases hcase with ⟨rx, hl, he⟩ | ⟨x, rx, hl, he⟩
  · rw [he]
    have hset := getHandleContext_setPending hctx (enqueue rest req)
    have hfirst : ∀ r, firstOf (setRx w.socks req.sock rx) ctx r = firstOf w.socks ctx r := by
      intro r
      rw [firstOf, queueOf_setRx]
      split_ifs with hc
      · rw [find?_of_recvLoop_none hl, firstOf, queueOf, queueOf, sockOf, sockOf, hc.1]
      · rfl
    refine ⟨?_, ?_, fun x hx => hx, fun x hx => .inl hx, Nat.le_refl _⟩
    · rintro d ⟨ctx', hctx', r, hr, hd⟩
      obtain rfl : ctx = ctx' := Option.some.inj (hctx.symm.trans hctx')
      refine .inr ⟨_, hset, r, ?_, (hfirst r).trans hd⟩
      rcases (mem_of_unlinkReq hun r).1 hr with rfl | hr
      · exact List.mem_append_right _ List.mem_cons_self
      · exact List.mem_append_left _ hr
    · rintro d ⟨ctx', hctx', r, hr, hd⟩
      obtain rfl := Option.some.inj (hset.symm.trans hctx')
      refine .inl ⟨ctx, hctx, r, ?_, (hfirst r).symm.trans hd⟩
      rcases List.mem_append.1 hr with hr | hr
      · exact hsub r hr
      · obtain rfl := List.mem_singleton.1 hr
        exact hreq
  · rw [he]
    have hset := getHandleContext_setPending hctx rest
    have hx : firstOf w.socks ctx req = some x := find?_of_recvLoop_some hl
    refine ⟨?_, ?_, fun y hy => List.mem_append_left _ hy, ?_, Nat.le_refl _⟩
    · rintro d ⟨ctx', hctx', r, hr, hd⟩
      obtain rfl : ctx = ctx' := Option.some.inj (hctx.symm.trans hctx')
      rcases (mem_of_unlinkReq hun r).1 hr with rfl | hr
      · obtain rfl := Option.some.inj (hx.symm.trans hd)
        exact .inl ⟨deliveryOf ctx r x, by simp [gorComplete], getHandleContext_h hctx, rfl, rfl⟩
      · refine .inr ⟨_, hset, r, hr, ?_⟩
        have hne := hother r hr d hd
        rw [firstOf] at hd ⊢
        simp only [gorComplete]
        rw [queueOf_closeSock, if_neg hne]
        exact hd
    · rintro d ⟨ctx', hctx', r, hr, hd⟩
      obtain rfl := Option.some.inj (hset.symm.trans hctx')
      refine .inl ⟨ctx, hctx, r, hsub r hr, ?_⟩
      simp only [gorComplete] at hd
      rw [firstOf, queueOf_closeSock] at hd
      split_ifs at hd
      · cases hd
      · exact hd
    · intro y hy
      rcases List.mem_append.1 hy with hy | hy
      · exact .inl hy
      · obtain rfl := List.mem_singleton.1 hy
        exact .inr ⟨x, ⟨ctx, hctx, req, hreq, hx⟩, rfl⟩

theorem moved_step (hw : SocksWF w) {a : Act} (ha : OnHandle h a) (hs : step w a = some w') : Moved h w w' := by
  unfold step at hs
  split_ifs at hs with hok
  cases a with
  | poll i => exact moved_poll hs
  | readFile k ov buffer buflen sk =>
    obtain rfl : k = h := ha
    obtain rfl := Option.some.inj hs
    exact moved_readFile ov buffer buflen sk fun s a he => by subst he; exact hok
  | getOverlappedResult k ov =>
    obtain rfl : k = h := ha
    obtain rfl := Option.some.inj hs
    exact moved_getOverlappedResult hw ov
  | createFile => cases ha
  | closeHandle k => cases ha
  | deviceIoControl k code input outSize ov => cases ha
  | writeFile k buf ov src => cases ha
  | control cmd args src => cases ha

/-! ## What was delivered, and when reads are pending -/

/-- Only frames of the log were delivered, and reads are queued only while the driver is active. -/
structure Recorded (w : World) : Prop where
  logged : ∀ x ∈ w.delivered, x.seq < w.tapLog.length
  active : ∀ c ∈ w.handleList, c.pending ≠ [] → w.tapActive = true

theorem Recorded.congr (hr : Recorded w) (hdel : w'.delivered = w.delivered)
    (hlog : w.tapLog.length ≤ w'.tapLog.length) (hact : w'.tapActive = w.tapActive)
    (hlist : ∀ c ∈ w'.handleList, c.pending ≠ [] → w.tapActive = true) : Recorded w' where
  logged x hx := by
    rw [hdel] at hx
    exact Nat.lt_of_lt_of_le (hr.logged x hx) hlog
  active c hc hp := by rw [hact]; exact hlist c hc hp

/-- Replacing the queue of a context where the driver is active. -/
theorem Recorded.setContext (hr : Recorded w) {c : HandleContext} (hc : getHandleContext w.handleList h = some c)
    {c' : HandleContext} (hh : c'.h = h) (hact : c'.pending ≠ [] → w.tapActive = true) :
    ∀ x ∈ Rvpn.setContext w.handleList c', x.pending ≠ [] → w.tapActive = true := by
  obtain ⟨pre, post, hl, hset⟩ := setContext_split hc
  rw [hset c' hh]
  intro x hx hp
  rcases List.mem_append.1 hx with hx | hx
  · exact hr.active x (by rw [hl]; exact List.mem_append_left _ hx) hp
  · rcases List.mem_cons.1 hx with rfl | hx
    · exact hact hp
    · exact hr.active x (by rw [hl]; exact List.mem_append_right _ (List.mem_cons_of_mem _ hx)) hp

theorem recorded_step (hf : FramesOnly w) (hr : Recorded w) {a : Act} (hs : step w a = some w') : Recorded w' := by
  unfold step at hs
  split_ifs at hs
  cases a with
  | createFile =>
    obtain rfl := Option.some.inj hs
    refine hr.congr rfl (Nat.le_refl _) rfl fun c hc hp => ?_
    rcases List.mem_cons.1 hc with rfl | hc
    · exact absurd rfl hp
    · exact hr.active c hc hp
  | closeHandle k =>
    obtain rfl := Option.some.inj hs
    unfold hookCloseHandle
    split
    · exact hr
    · exact hr.congr rfl (Nat.le_refl _) rfl fun c hc hp => hr.active c (List.mem_of_mem_eraseP hc) hp
  | deviceIoControl k code input outSize ov =>
    obtain rfl := Option.some.inj hs
    cases hctx : getHandleContext w.handleList k with
    | none => simpa only [hookDeviceIoControl, hctx] using hr
    | some ctx =>
      simp only [hookDeviceIoControl, hctx]
      refine hr.congr rfl (Nat.le_refl _) rfl
        (hr.setContext hctx ((ioctlContext_h ctx code input).trans (getHandleContext_h hctx)) fun hp => ?_)
      rw [ioctlContext_pending] at hp
      exact hr.active ctx (List.mem_of_find?_eq_some hctx) hp
  | readFile k ov buffer buflen sk =>
    obtain rfl := Option.some.inj hs
    unfold hookReadFile
    cases hctx : getHandleContext w.handleList k with
    | none => exact hr
    | some ctx =>
      simp only
      split_ifs with hact
      · exact hr
      · cases ov with
        | none => exact hr
        | some ov =>
          have hh : ctx.h = k := getHandleContext_h hctx
          exact hr.congr rfl (Nat.le_refl _) rfl (hr.setContext hctx hh fun _ => by simpa using hact)
  | writeFile k buf ov src =>
    obtain ⟨pkt, rfl, -⟩ := hookWriteFile_spec hs
    exact hr.congr rfl (Nat.le_refl _) rfl hr.active
  | getOverlappedResult k ov =>
    obtain rfl := Option.some.inj hs
    rcases getOverlappedResult_cases w k ov with he | ⟨ctx, req, rest, hctx, -, hun, hcase⟩
    · rwa [he]
    have hne : ctx.pending ≠ [] := List.ne_nil_of_mem ((mem_of_unlinkReq hun req).2 (.inl rfl))
    have hact := hr.active ctx (List.mem_of_find?_eq_some hctx) hne
    have hh : ctx.h = k := getHandleContext_h hctx
    rcases hcase with ⟨rx, -, he⟩ | ⟨d, rx, hl, he⟩
    · rw [he]
      exact hr.congr rfl (Nat.le_refl _) rfl (hr.setContext hctx hh fun _ => hact)
    · rw [he]
      obtain ⟨pre, hq, -, -⟩ := recvLoop_deliverable hl
      obtain ⟨-, hget⟩ := hf.queues req d (by rw [hq]; simp)
      refine ⟨fun x hx => ?_, hr.setContext hctx hh fun _ => hact⟩
      rcases List.mem_append.1 hx with hx | hx
      · exact hr.logged x hx
      · obtain rfl := List.mem_singleton.1 hx
        exact (List.getElem?_eq_some_iff.1 hget).1
  | control cmd args src =>
    obtain rfl := Option.some.inj hs
    exact hr.congr rfl (Nat.le_refl _) rfl hr.active
  | poll i =>
    have hact : w'.tapActive = w.tapActive := by
      unfold pollRound at hs
      split_ifs at hs
      obtain ⟨r, -, rfl⟩ := Option.map_eq_some_iff.1 hs
      rfl
    obtain ⟨fr, src, hlog, -, -, -, -, -, hlist, -, hdel, -⟩ := pollRound_spec hs
    exact hr.congr hdel (by simp [hlog]) hact (by rw [hlist]; exact hr.active)

theorem World.Reachable.recorded (hw : w.Reachable) : Recorded w := by
  obtain ⟨tapActive, ov, buf, as, hr⟩ := hw
  have hinv := run_invariant (I := fun w => FramesOnly w ∧ Recorded w)
    (fun _ _ _ ⟨hf, hk⟩ hs => ⟨framesOnly_step hf hs, recorded_step hf hk hs⟩)
    ⟨World.Reachable.framesOnly ⟨tapActive, ov, buf, [], rfl⟩, by simp [World.init], by simp [World.init]⟩ hr
  exact hinv.2

/-! ## Emptying the queues -/

/-- Polls the OVERLAPPED after a new read on it without a socket: the read makes the OVERLAPPED pending again. -/
def poke (h : Handle) (ov : OvPtr) : List Act := [.readFile h (some ov) 0 0 none, .getOverlappedResult h ov]

/-- The datagrams that wait for the reads of a context. -/
def backlog (socks : List UdpSock) (pending : List PendingRead) : Nat :=
  (pending.map fun r => (queueOf socks r).length).sum

/-- The number of reads in front of the first one for which something waits. -/
def idle (socks : List UdpSock) (pending : List PendingRead) : Nat :=
  pending.findIdx fun r => !(queueOf socks r).isEmpty

theorem backlog_cons (socks : List UdpSock) (r : PendingRead) (rest : List PendingRead) :
    backlog socks (r :: rest) = (queueOf socks r).length + backlog socks rest := by simp [backlog]

theorem backlog_append (socks : List UdpSock) (p q : List PendingRead) :
    backlog socks (p ++ q) = backlog socks p + backlog socks q := by simp [backlog]

theorem backlog_eq_zero {socks : List UdpSock} {pending : List PendingRead} :
    backlog socks pending = 0 ↔ ∀ r ∈ pending, queueOf socks r = [] := by
  induction pending with
  | nil => simp [backlog]
  | cons r rest ih => simp [backlog_cons, ih]

theorem backlog_mono {socks socks' : List UdpSock} {pending : List PendingRead}
    (hle : ∀ r ∈ pending, (queueOf socks' r).length ≤ (queueOf socks r).length) :
    backlog socks' pending ≤ backlog socks pending := by
  induction pending with
  | nil => exact Nat.le_refl _
  | cons r rest ih =>
    rw [backlog_cons, backlog_cons]
    exact Nat.add_le_add (hle r List.mem_cons_self) (ih fun x hx => hle x (List.mem_cons_of_mem _ hx))

@[simp] theorem backlog_nil (socks : List UdpSock) : backlog socks [] = 0 := rfl

/-- The read the poke adds has no socket and nothing to receive. -/
theorem backlog_stub (socks : List UdpSock) (ov : OvPtr) (rest : List PendingRead) :
    backlog socks (⟨ov, 0, 0, none⟩ :: rest) = backlog socks rest := by
  rw [backlog_cons]
  exact Nat.zero_add _

/-- What the loop leaves of a queue is shorter. -/
theorem length_recvLoop_none {rx rest : List Dgram} (hl : recvLoop ctx rx = (none, rest)) (hne : rx ≠ []) :
    rest.length < rx.length := by
  obtain ⟨pre, -, ⟨rfl, hl'⟩ | ⟨x, post, rfl, ⟨-, hl'⟩ | ⟨-, hl'⟩⟩⟩ := recvLoop_spec ctx rx
  · obtain rfl := (Prod.mk.inj (hl.symm.trans hl')).2
    exact List.length_pos_iff.2 hne
  · obtain rfl := (Prod.mk.inj (hl.symm.trans hl')).2
    rw [List.length_append, List.length_cons]
    omega
  · cases hl.symm.trans hl'

theorem length_queueOf_setRx {socks : List UdpSock} {req : PendingRead} {rx : List Dgram}
    (hle : rx.length ≤ (queueOf socks req).length) (r : PendingRead) :
    (queueOf (setRx socks req.sock rx) r).length ≤ (queueOf socks r).length := by
  rw [queueOf_setRx]
  split_ifs with hc
  · rwa [queueOf, sockOf, hc.1]
  · exact Nat.le_refl _

theorem length_queueOf_closeSock (socks : List UdpSock) (s : Option Socket) (r : PendingRead) :
    (queueOf (closeSock socks s) r).length ≤ (queueOf socks r).length := by
  rw [queueOf_closeSock]
  split_ifs
  · exact Nat.zero_le _
  · exact Nat.le_refl _

/-- Behind a read without datagrams, an idle read that is put at the end is one less in front. -/
theorem idle_rotate {socks : List UdpSock} {r : PendingRead} {rest : List PendingRead} (hr : queueOf socks r = [])
    (hne : backlog socks rest ≠ 0) (more : List PendingRead) : idle socks (rest ++ more) < idle socks (r :: rest) := by
  have hlt : idle socks rest < rest.length := by
    refine List.findIdx_lt_length.2 ?_
    by_contra hno
    refine hne (backlog_eq_zero.2 fun x hx => ?_)
    by_contra hq
    exact hno ⟨x, hx, by simpa using hq⟩
  unfold idle at hlt ⊢
  rw [List.findIdx_append, if_pos hlt, List.findIdx_cons]
  simp [hr]

/-- **A poke of the first read** runs its receive loop: it goes behind the others with what is left of its queue, or it
is completed. -/
theorem poke_run (hact : w.tapActive = true) {r : PendingRead} {rest : List PendingRead}
    (hctx : getHandleContext w.handleList h = some ctx) (hp : ctx.pending = r :: rest) :
    ∃ w' ctx' ctx'', run step w (poke h r.ov) = some w' ∧ getHandleContext w'.handleList h = some ctx' ∧
      ((∃ rx, recvLoop ctx'' (queueOf w.socks r) = (none, rx) ∧ w'.socks = setRx w.socks r.sock rx ∧
          ctx'.pending = rest ++ [⟨r.ov, 0, 0, none⟩, r]) ∨
        ∃ x rx, recvLoop ctx'' (queueOf w.socks r) = (some x, rx) ∧ w'.socks = closeSock w.socks r.sock ∧
          ctx'.pending = rest ++ [⟨r.ov, 0, 0, none⟩]) := by
  let w₁ := hookReadFile w h (some r.ov) 0 0 none
  let ctx₁ : HandleContext := { ctx with pending := r :: (rest ++ [⟨r.ov, 0, 0, none⟩]) }
  have hw₁ : w₁ = { w with
      socks := w.socks ++ []
      wire := w.wire ++ []
      handleList := setContext w.handleList { ctx with pending := enqueue ctx.pending ⟨r.ov, 0, 0, none⟩ }
      ov := Function.update w.ov r.ov { w.ov r.ov with internal := statusPending } } := by
    simp only [w₁, hookReadFile, hctx, hact]
    rfl
  have hctx₁ : getHandleContext w₁.handleList h = some ctx₁ := by
    rw [hw₁]
    simp only
    rw [getHandleContext_setPending hctx, enqueue, hp]
    rfl
  have hsocks : w₁.socks = w.socks := by
    rw [hw₁]
    exact List.append_nil _
  have hint : (w₁.ov r.ov).internal = statusPending := by
    rw [hw₁]
    simp
  have hun : unlinkReq r.ov ctx₁.pending = (some r, rest ++ [⟨r.ov, 0, 0, none⟩]) := by
    have hfor : PendingRead.isFor r.ov r = true := by simp [PendingRead.isFor]
    rw [unlinkReq, List.find?_cons_of_pos hfor, List.eraseP_cons_of_pos hfor]
  have hrun : run step w (poke h r.ov) = some (hookGetOverlappedResult w₁ h r.ov) := rfl
  rcases hl : recvLoop ctx₁ (queueOf w.socks r) with ⟨_ | x, rx⟩
  · have he : hookGetOverlappedResult w₁ h r.ov = gorIncomplete w₁ ctx₁ (rest ++ [⟨r.ov, 0, 0, none⟩]) r rx := by
      simp only [hookGetOverlappedResult, hctx₁, if_neg (not_not.2 hint), hun, hsocks, hl]
    rw [hrun, he]
    refine ⟨_, _, ctx₁, rfl, getHandleContext_setPending hctx₁ _, .inl ⟨rx, hl, ?_, ?_⟩⟩
    · rw [gorIncomplete, hsocks]
    · rw [enqueue, List.append_assoc]
      rfl
  · have he : hookGetOverlappedResult w₁ h r.ov = gorComplete w₁ ctx₁ (rest ++ [⟨r.ov, 0, 0, none⟩]) r x := by
      simp only [hookGetOverlappedResult, hctx₁, if_neg (not_not.2 hint), hun, hsocks, hl]
    rw [hrun, he]
    refine ⟨_, _, ctx₁, rfl, getHandleContext_setPending hctx₁ _, .inr ⟨x, rx, hl, ?_, rfl⟩⟩
    rw [gorComplete, hsocks]

/-- A poke takes datagrams out of the first queue, or, where nothing waits in it, brings the next one to the front. -/
theorem poke_spec (hact : w.tapActive = true) {r : PendingRead} {rest : List PendingRead}
    (hctx : getHandleContext w.handleList h = some ctx) (hp : ctx.pending = r :: rest) :
    ∃ w' ctx', run step w (poke h r.ov) = some w' ∧ getHandleContext w'.handleList h = some ctx' ∧
      (backlog w'.socks ctx'.pending < backlog w.socks ctx.pending ∨
        backlog w'.socks ctx'.pending = backlog w.socks ctx.pending ∧
          (backlog w.socks ctx.pending ≠ 0 → idle w'.socks ctx'.pending < idle w.socks ctx.pending)) := by
  obtain ⟨w', ctx', ctx'', hrun, hctx', hcase⟩ := poke_run hact hctx hp
  refine ⟨w', ctx', hrun, hctx', ?_⟩
  rw [hp, backlog_cons]
  rcases hcase with ⟨rx, hl, hsocks, hpend⟩ | ⟨x, rx, hl, hsocks, hpend⟩
  · rw [hsocks, hpend]
    by_cases hq : queueOf w.socks r = []
    · -- nothing waits for the first read, so no queue changes
      right
      have hrx : rx = [] := by
        have hsuf := recvLoop_suffix ctx'' (queueOf w.socks r)
        rw [hl, hq] at hsuf
        exact List.suffix_nil.1 hsuf
      have hsame : queueOf (setRx w.socks r.sock rx) = queueOf w.socks := by
        funext r'
        rw [queueOf_setRx, hrx]
        split_ifs with hc
        · rw [← hq, queueOf, queueOf, sockOf, sockOf, hc.1]
        · rfl
      have hback : backlog (setRx w.socks r.sock rx) = backlog w.socks := by
        funext p
        rw [backlog, hsame, backlog]
      have hidle : idle (setRx w.socks r.sock rx) = idle w.socks := by
        funext p
        rw [idle, hsame, idle]
      rw [hback, hidle, backlog_append, backlog_stub, backlog_cons, hq]
      refine ⟨by simp, fun hne => idle_rotate hq (by simpa using hne) _⟩
    · left
      have hlt : rx.length < (queueOf w.socks r).length := length_recvLoop_none hl hq
      have hopen : (sockOf w.socks r).isSome = true := by
        cases hs : sockOf w.socks r with
        | none =>
          rw [queueOf, hs] at hq
          exact absurd rfl hq
        | some u => rfl
      have hrest : backlog (setRx w.socks r.sock rx) rest ≤ backlog w.socks rest :=
        backlog_mono fun r' _ => length_queueOf_setRx hlt.le r'
      have hself : queueOf (setRx w.socks r.sock rx) r = rx := by rw [queueOf_setRx, if_pos ⟨rfl, hopen⟩]
      rw [backlog_append, backlog_stub, backlog_cons, hself, backlog_nil]
      omega
  · left
    obtain ⟨pre, hq, -, -⟩ := recvLoop_deliverable hl
    have hpos : 0 < (queueOf w.socks r).length := by simp [hq]
    have hrest : backlog (closeSock w.socks r.sock) rest ≤ backlog w.socks rest :=
      backlog_mono fun r' _ => length_queueOf_closeSock w.socks r.sock r'
    rw [hsocks, hpend, backlog_append, backlog_stub, backlog_nil]
    omega

/-- **The queues can be emptied** by calls on the handle. -/
theorem drain (h : Handle) : ∀ n m (w : World) (ctx : HandleContext), w.Reachable →
    getHandleContext w.handleList h = some ctx → backlog w.socks ctx.pending = n → idle w.socks ctx.pending = m →
    ∃ as w' ctx', (∀ a ∈ as, OnHandle h a) ∧ run step w as = some w' ∧ getHandleContext w'.handleList h = some ctx' ∧
      ∀ r ∈ ctx'.pending, queueOf w'.socks r = [] := by
  intro n
  induction n using Nat.strongRecOn with
  | ind n ihn =>
  intro m
  induction m using Nat.strongRecOn with
  | ind m ihm =>
  intro w ctx hw hctx hn hm
  by_cases h0 : backlog w.socks ctx.pending = 0
  · exact ⟨[], w, ctx, by simp, rfl, hctx, backlog_eq_zero.1 h0⟩
  · cases hp : ctx.pending with
    | nil =>
      rw [hp] at h0
      exact absurd rfl h0
    | cons r rest =>
      have hact := hw.recorded.active ctx (List.mem_of_find?_eq_some hctx) (by rw [hp]; simp)
      obtain ⟨w', ctx', hrun, hctx', hdec⟩ := poke_spec hact hctx hp
      have hw' : w'.Reachable := hw.run hrun
      have hpoke : ∀ a ∈ poke h r.ov, OnHandle h a := by simp [poke, OnHandle]
      have hnext : ∃ as w'' ctx'', (∀ a ∈ as, OnHandle h a) ∧ run step w' as = some w'' ∧
          getHandleContext w''.handleList h = some ctx'' ∧ ∀ r ∈ ctx''.pending, queueOf w''.socks r = [] := by
        rcases hdec with hlt | ⟨heq, hlt⟩
        · exact ihn _ (by omega) _ w' ctx' hw' hctx' rfl rfl
        · exact ihm _ (by have := hlt h0; omega) w' ctx' hw' hctx' (heq.trans hn) rfl
      obtain ⟨as, w'', ctx'', has, hrun', hctx'', hempty⟩ := hnext
      refine ⟨poke h r.ov ++ as, w'', ctx'', ?_, run_append.2 ⟨w', hrun, hrun'⟩, hctx'', hempty⟩
      intro a ha
      rcases List.mem_append.1 ha with ha | ha
      · exact hpoke a ha
      · exact has a ha

/-! ## The result -/

/-- Frame `n` has arrived, was not delivered, and no read would complete with it. -/
structure Behind (w : World) (h : Handle) (n : Nat) : Prop where
  arrived : n < w.tapLog.length
  notFirst : ∀ d, IsFirst w h d → d.seq ≠ n
  notGot : ∀ x ∈ w.delivered, x.seq ≠ n

theorem Behind.moved {n : Nat} (hb : Behind w h n) (hm : Moved h w w') : Behind w' h n where
  arrived := Nat.lt_of_lt_of_le hb.arrived hm.log
  notFirst d hd := by
    rcases hm.made d hd with hd | hd
    · exact hb.notFirst d hd
    · have := hb.arrived
      omega
  notGot x hx := by
    rcases hm.got x hx with hx | ⟨d, hd, hseq⟩
    · exact hb.notGot x hx
    · rw [hseq]
      exact hb.notFirst d hd

theorem behind_run {n : Nat} {as : List Act} (hw : SocksWF w) (hb : Behind w h n) (ha : ∀ a ∈ as, OnHandle h a)
    (hr : run step w as = some w') : Behind w' h n := by
  have hinv := (guarded_of_forall ha).invariant (I := fun w => SocksWF w ∧ Behind w h n)
    (fun v a v' ⟨hw, hb⟩ ha hs => ⟨socksWF_step hw hs, hb.moved (moved_step hw ha hs)⟩) ⟨hw, hb⟩ hr
  exact hinv.2

theorem first_run {as : List Act} (hw : SocksWF w) (hd : IsFirst w h d) (ha : ∀ a ∈ as, OnHandle h a)
    (hr : run step w as = some w') : Got w' h d ∨ IsFirst w' h d := by
  have hinv := (guarded_of_forall ha).invariant (I := fun w => SocksWF w ∧ (Got w h d ∨ IsFirst w h d))
    (fun v a v' ⟨hw, hd⟩ ha hs => by
      have hm := moved_step hw ha hs
      refine ⟨socksWF_step hw hs, ?_⟩
      rcases hd with ⟨x, hx, hgot⟩ | hd
      · exact .inl ⟨x, hm.still x hx, hgot⟩
      · exact hm.kept d hd) ⟨hw, .inr hd⟩ hr
  exact hinv.2

section Arrival

variable {w₀ w₁ : World} {i : PollIn} {f : List UInt8}

/-- What the arrival of `f` adds to the queue of a read. -/
theorem queueOf_arrival (hs : pollRound w₀ i = some w₁) (hf : w₁.tapLog = w₀.tapLog ++ [f]) :
    w₁.handleList = w₀.handleList ∧ w₁.delivered = w₀.delivered ∧ ∀ r, queueOf w₁.socks r = queueOf w₀.socks r ++
      copyFor w₀.bridge.clients.addrs (some f) w₀.tapLog.length (addrOf w₀.socks r) := by
  obtain ⟨fr, src, hlog, hqueue, -, -, -, -, hlist, -, hdel, -⟩ := pollRound_spec hs
  have hfr : fr = some f := by
    have := List.append_cancel_left (hlog.symm.trans hf)
    cases fr with
    | none => cases this
    | some g => exact congrArg some (List.cons.inj this).1
  rw [hfr] at hqueue
  exact ⟨hlist, hdel, hqueue⟩

theorem mem_copyFor {clients : List SockAddr} {n : Nat} {a : Option SockAddr} :
    d ∈ copyFor clients (some f) n a ↔ d = ⟨frameDatagram f, n⟩ ∧ ∃ x ∈ clients, a = some x := by
  cases a with
  | none => simp [copyFor]
  | some x =>
    simp only [copyFor]
    split_ifs with hx
    · simp [hx]
    · simpa using fun _ => hx

/-- The frames the receive loop does not take for a runt or an error. -/
theorem fullSize_frameDatagram (f : List UInt8) (n : Nat) :
    Dgram.fullSize ⟨frameDatagram f, n⟩ = true ↔ 13 ≤ f.length ∧ f.length ≤ maxFrame := by
  have h2047 : maxFrame = 2047 := rfl
  have hlen : (frameDatagram f).length = f.length + 1 := rfl
  rw [Dgram.fullSize, Bool.and_eq_true, decide_eq_true_iff, decide_eq_true_iff, hlen]
  omega

/-- **A clear arrival** makes the frame the first of a queue. -/
theorem isFirst_of_clear (h₀ : w₀.Reachable) (hs : step w₀ (.poll i) = some w₁) (hf : w₁.tapLog = w₀.tapLog ++ [f])
    (hd : Holds w₁ h ⟨frameDatagram f, w₀.tapLog.length⟩) (hc : Clear w₀ h f) :
    IsFirst w₁ h ⟨frameDatagram f, w₀.tapLog.length⟩ := by
  have hframes : FramesOnly w₁ := framesOnly_step h₀.framesOnly hs
  obtain ⟨hlist, -, hqueue⟩ := queueOf_arrival hs hf
  obtain ⟨hlen, ctx, hctx, r, hr, ⟨a, ha, haddr⟩, hnone⟩ := hc
  obtain ⟨ctx', hctx', hmatch, -⟩ := hd
  rw [hlist] at hctx'
  obtain rfl : ctx = ctx' := Option.some.inj (hctx.symm.trans hctx')
  have hmax : f.length ≤ maxFrame := (hframes.tap f (by rw [hf]; simp)).2
  have hdel : Dgram.deliverable ctx ⟨frameDatagram f, w₀.tapLog.length⟩ = true :=
    Bool.and_eq_true_iff.2 ⟨(fullSize_frameDatagram f _).2 ⟨hlen, hmax⟩, hmatch⟩
  refine ⟨ctx, by rw [hlist, hctx], r, hr, ?_⟩
  have hempty : (queueOf w₀.socks r).find? (Dgram.deliverable ctx) = none :=
    List.find?_eq_none.2 fun x hx => by simp [hnone x hx]
  rw [firstOf, hqueue, List.find?_append, hempty, Option.none_or, haddr, copyFor, if_pos ha,
    List.find?_cons_of_pos hdel]

/-- **An arrival that is not clear** leaves the frame behind others everywhere. -/
theorem behind_of_not_clear (h₀ : w₀.Reachable) (hs : step w₀ (.poll i) = some w₁)
    (hf : w₁.tapLog = w₀.tapLog ++ [f]) (hc : ¬ Clear w₀ h f) : Behind w₁ h w₀.tapLog.length := by
  obtain ⟨hlist, hdel, hqueue⟩ := queueOf_arrival hs hf
  refine ⟨by simp [hf], ?_, ?_⟩
  · rintro d ⟨ctx, hctx, r, hr, hd⟩
    rw [hlist] at hctx
    rw [firstOf, hqueue, List.find?_append] at hd
    rcases Option.or_eq_some_iff.1 hd with hd | ⟨hnone, hd⟩
    · have hget := (h₀.framesOnly.queues r d (List.mem_of_find?_eq_some hd)).2
      exact Nat.ne_of_lt (List.getElem?_eq_some_iff.1 hget).1
    · -- nothing else waits for the read, so only a short frame is not clear
      obtain ⟨rfl, a, ha, haddr⟩ := mem_copyFor.1 (List.mem_of_find?_eq_some hd)
      have hdel : Dgram.deliverable ctx ⟨frameDatagram f, w₀.tapLog.length⟩ = true := List.find?_some hd
      have hlen := ((fullSize_frameDatagram f _).1 (Bool.and_eq_true_iff.1 hdel).1).1
      refine absurd ⟨hlen, ctx, hctx, r, hr, ⟨a, ha, haddr⟩, fun x hx => ?_⟩ hc
      simpa using List.find?_eq_none.1 hnone x hx
  · intro x hx
    rw [hdel] at hx
    exact Nat.ne_of_lt (h₀.recorded.logged x hx)

/-- **Which frames are safe**: a frame that the bridge reads in a reachable state, sends to a pending read of `h` and
that passes the filter is, in every state that arrivals, reads and completions on `h` lead to from there, delivered to
a read of `h` or waiting for one, exactly if its arrival is clear. -/
theorem no_frame_lost_iff (h : Handle) (w₀ w₁ : World) (i : PollIn) (f : List UInt8) (h₀ : w₀.Reachable)
    (hs : step w₀ (.poll i) = some w₁) (hf : w₁.tapLog = w₀.tapLog ++ [f])
    (hd : Holds w₁ h ⟨frameDatagram f, w₀.tapLog.length⟩) :
    (∀ as w, (∀ a ∈ as, OnHandle h a) → run step w₁ as = some w →
      Got w h ⟨frameDatagram f, w₀.tapLog.length⟩ ∨ Holds w h ⟨frameDatagram f, w₀.tapLog.length⟩) ↔ Clear w₀ h f := by
  have h₁ : w₁.Reachable := h₀.run (run_cons_of [] hs)
  constructor
  · intro hall
    by_contra hc
    obtain ⟨ctx, hctx, -⟩ := hd
    obtain ⟨as, w, ctx', has, hrun, hctx', hempty⟩ := drain h _ _ w₁ ctx h₁ hctx rfl rfl
    have hbehind := behind_run h₁.socksWF (behind_of_not_clear h₀ hs hf hc) has hrun
    rcases hall as w has hrun with ⟨x, hx, -, hseq, -⟩ | ⟨ctx'', hctx'', -, r, hr, hmem⟩
    · exact hbehind.notGot x hx hseq
    · obtain rfl : ctx' = ctx'' := Option.some.inj (hctx'.symm.trans hctx'')
      rw [hempty r hr] at hmem
      cases hmem
  · intro hc as w has hrun
    rcases first_run h₁.socksWF (isFirst_of_clear h₀ hs hf hd hc) has hrun with hgot | hfirst
    · exact .inl hgot
    · exact .inr hfirst.holds

end Arrival

/-! ## One read and two frames -/

theorem waitingWorld_reachable : (waitingWorld 0).Reachable := by
  obtain ⟨t, ov, buf, hr⟩ := filteredWorld_reachable
  exact ⟨t, ov, buf, hr.trans ⟨registeredRead 1 40001, rfl⟩⟩

/-- A frame that arrives for a read on whose socket nothing waits is safe. -/
theorem no_frame_lost_first : ∃ w₁, step (waitingWorld 0) (.poll (.frame broadcastFrame)) = some w₁ ∧
    Holds w₁ 0x1001 ⟨frameDatagram broadcastFrame, 0⟩ ∧
    ∀ as w, (∀ a ∈ as, OnHandle 0x1001 a) → run step w₁ as = some w →
      Got w 0x1001 ⟨frameDatagram broadcastFrame, 0⟩ ∨ Holds w 0x1001 ⟨frameDatagram broadcastFrame, 0⟩ := by
  have hholds : Holds (waitingWorld 1) 0x1001 ⟨frameDatagram broadcastFrame, 0⟩ :=
    ⟨_, rfl, rfl, ⟨1, 0, 2048, some 1⟩, List.mem_singleton.2 rfl, List.mem_singleton.2 rfl⟩
  have hclear : Clear (waitingWorld 0) 0x1001 broadcastFrame := by
    refine ⟨by decide, _, rfl, ⟨1, 0, 2048, some 1⟩, List.mem_singleton.2 rfl,
      ⟨⟨0x0100007F, 40001⟩, List.mem_singleton.2 rfl, rfl⟩, fun x hx => ?_⟩
    cases hx
  exact ⟨waitingWorld 1, rfl, hholds,
    (no_frame_lost_iff 0x1001 _ _ (.frame broadcastFrame) _ waitingWorld_reachable rfl rfl hholds).2 hclear⟩

/-- **A lost frame**: the read completes with the first of two frames, and the only copy of the second
goes with its socket. -/
theorem second_frame_lost : ∃ w, (waitingWorld 2).Reachable ∧
    Holds (waitingWorld 2) 0x1001 ⟨frameDatagram broadcastFrame, 1⟩ ∧
    run step (waitingWorld 2) [.getOverlappedResult 0x1001 1] = some w ∧
    ¬ (Got w 0x1001 ⟨frameDatagram broadcastFrame, 1⟩ ∨ Holds w 0x1001 ⟨frameDatagram broadcastFrame, 1⟩) := by
  have hreach : (waitingWorld 2).Reachable := @World.Reachable.run _ _ waitingWorld_reachable
    [.poll (.frame broadcastFrame), .poll (.frame broadcastFrame)] rfl
  refine ⟨_, hreach, ⟨_, rfl, rfl, ⟨1, 0, 2048, some 1⟩, List.mem_singleton.2 rfl, ?_⟩, rfl, ?_⟩
  · exact List.mem_cons_of_mem _ (List.mem_singleton.2 rfl)
  · rintro (⟨x, hx, -, hseq, -⟩ | ⟨ctx, hctx, -, r, hr, -⟩)
    · obtain rfl := List.mem_singleton.1 hx
      cases hseq
    · obtain rfl := Option.some.inj hctx
      cases hr

end Rvpn
