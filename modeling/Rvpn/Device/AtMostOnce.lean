import Rvpn.Lib.Window
import Rvpn.Device.Queues

/-!
# Which frames the reads of one handle get

Every read has a socket of its own, and the bridge sends each frame to all of them, so a frame waits
once for each registered read. Nothing in `Hook_GetOverlappedResult` compares the copies: the reads of
a handle deliver a subsequence of the TAP's frames as long as each completed read holds the oldest
deliverable frame of them all (`OldestFirst`).

* `InOrder` — the invariant: what waits is in order, and newer than everything delivered;
* `delivered_picks` — every run whose completions are oldest first delivers increasing positions of
  the TAP's log;
* `delivered_twice` — two reads, one frame, both completed with it.
-/

namespace Rvpn

open Lts Window

/-- TAP arrivals, `ReadFile` on `h` and `GetOverlappedResult` on `h`. -/
def OnHandle (h : Handle) : Act → Prop
  | .poll _ => True
  | .readFile k _ _ _ _ => k = h
  | .getOverlappedResult k _ => k = h
  | _ => False

/-- When the call may complete a read of `h`: that read holds a deliverable frame older than every
deliverable frame that waits for another pending read of `h`. -/
def OldestFirst (h : Handle) (w : World) : Act → Prop
  | .getOverlappedResult _ ov => ∀ ctx req rest, getHandleContext w.handleList h = some ctx →
      (w.ov ov).internal = statusPending → unlinkReq ov ctx.pending = (some req, rest) →
      (∃ d ∈ queueOf w.socks req, d.deliverable ctx = true) →
      ∃ d ∈ queueOf w.socks req, d.deliverable ctx = true ∧
        ∀ r ∈ rest, ∀ x ∈ queueOf w.socks r, x.deliverable ctx = true → d.seq < x.seq
  | _ => True

/-! ## The invariant -/

/-- The queue is in TAP order, its datagrams are frames of the log, and what can be delivered from it is
newer than everything delivered. -/
structure Waiting (tapLog : List (List UInt8)) (ctx : HandleContext) (new : List Delivery) (q : List Dgram) :
    Prop where
  ordered : q.Pairwise fun a b => a.seq < b.seq
  logged : ∀ d ∈ q, tapLog[d.seq]? = some d.frame
  newer : ∀ d ∈ q, d.deliverable ctx = true → ∀ x ∈ new, x.seq < d.seq

/-- What was delivered from `base` on: picks of the log, with everything newer still waiting. -/
structure InOrder (h : Handle) (base new : List Delivery) (w : World) : Prop where
  delivered : w.delivered = base ++ new
  picks : Picks w.tapLog (new.map fun x => (x.seq, x.frame))
  waiting : ∃ ctx, getHandleContext w.handleList h = some ctx ∧
    ∀ r ∈ ctx.pending, Waiting w.tapLog ctx new (queueOf w.socks r)

variable {h : Handle} {base new : List Delivery} {w w' : World}

theorem Waiting.empty (tapLog : List (List UInt8)) (ctx : HandleContext) (new : List Delivery) :
    Waiting tapLog ctx new [] := ⟨List.Pairwise.nil, by simp, by simp⟩

theorem Waiting.sublist {tapLog : List (List UInt8)} {ctx : HandleContext} {q q' : List Dgram}
    (hq : Waiting tapLog ctx new q) (hs : q'.Sublist q) : Waiting tapLog ctx new q' where
  ordered := hq.ordered.sublist hs
  logged d hd := hq.logged d (hs.subset hd)
  newer d hd := hq.newer d (hs.subset hd)

/-- The filter of a handle does not depend on its queue. -/
theorem Waiting.setPending {tapLog : List (List UInt8)} {ctx : HandleContext} {q : List Dgram}
    (hq : Waiting tapLog ctx new q) (p : List PendingRead) : Waiting tapLog { ctx with pending := p } new q :=
  ⟨hq.ordered, hq.logged, hq.newer⟩

/-- A round of the bridge adds at most a copy of the newest frame. -/
theorem Waiting.copy {tapLog : List (List UInt8)} {ctx : HandleContext} {q : List Dgram}
    (hq : Waiting tapLog ctx new q) (hnew : ∀ x ∈ new, x.seq < tapLog.length) (clients : List SockAddr)
    (fr : Option (List UInt8)) (a : Option SockAddr) :
    Waiting (tapLog ++ fr.toList) ctx new (q ++ copyFor clients fr tapLog.length a) := by
  have hold : ∀ d ∈ q, d.seq < tapLog.length := fun d hd => (List.getElem?_eq_some_iff.1 (hq.logged d hd)).1
  have hcopy : ∀ d ∈ copyFor clients fr tapLog.length a, d.seq = tapLog.length ∧
      (tapLog ++ fr.toList)[d.seq]? = some d.frame := by
    intro d hd
    unfold copyFor at hd
    split at hd
    · cases hd
    · split at hd
      · cases hd
      · split_ifs at hd with ha
        · obtain rfl := List.mem_singleton.1 hd
          exact ⟨rfl, by simp [Dgram.frame, frameDatagram]⟩
        · cases hd
  have hpair : (copyFor clients fr tapLog.length a).Pairwise fun x y => x.seq < y.seq := by
    unfold copyFor
    split
    · exact List.Pairwise.nil
    · split
      · exact List.Pairwise.nil
      · split_ifs <;> simp
  refine ⟨List.pairwise_append.2 ⟨hq.ordered, hpair, ?_⟩, ?_, ?_⟩
  · intro x hx y hy
    rw [(hcopy y hy).1]
    exact hold x hx
  · intro d hd
    rcases List.mem_append.1 hd with hd | hd
    · rw [List.getElem?_append_left (hold d hd)]
      exact hq.logged d hd
    · exact (hcopy d hd).2
  · intro d hd hdel x hx
    rcases List.mem_append.1 hd with hd | hd
    · exact hq.newer d hd hdel x hx
    · rw [(hcopy d hd).1]
      exact hnew x hx

theorem InOrder.lt_length (hi : InOrder h base new w) : ∀ x ∈ new, x.seq < w.tapLog.length := by
  intro x hx
  have hent := hi.picks.entries (x.seq, x.frame) (List.mem_map.2 ⟨x, hx, rfl⟩)
  exact (List.getElem?_eq_some_iff.1 hent).1

/-! ## One lemma for each step -/

theorem inOrder_poll (hi : InOrder h base new w) {i : PollIn} (hs : pollRound w i = some w') :
    InOrder h base new w' := by
  obtain ⟨fr, src, hlog, hqueue, -, -, -, -, hlist, -, hdel, -⟩ := pollRound_spec hs
  obtain ⟨ctx, hctx, hwait⟩ := hi.waiting
  refine ⟨hdel.trans hi.delivered, ?_, ctx, by rw [hlist, hctx], ?_⟩
  · rw [hlog]
    exact hi.picks.append _
  · intro r hr
    rw [hlog, hqueue]
    exact (hwait r hr).copy hi.lt_length _ _ _

/-- A new read starts with an empty queue. -/
theorem inOrder_readFile (hi : InOrder h base new w) (ov : Option OvPtr) (buffer : Nat) (buflen : UInt32)
    (sk : Option (Socket × SockAddr)) (hsk : ∀ s a, sk = some (s, a) → canOpen w.socks s a = true) :
    InOrder h base new (hookReadFile w h ov buffer buflen sk) := by
  obtain ⟨ctx, hctx, hwait⟩ := hi.waiting
  unfold hookReadFile
  rw [hctx]
  simp only
  split_ifs with hact
  · exact hi
  · cases ov with
    | none => exact hi
    | some ov =>
      refine ⟨hi.delivered, hi.picks, _, getHandleContext_setPending hctx _, ?_⟩
      intro r hr
      simp only [queueOf_open]
      rcases List.mem_append.1 hr with hr | hr
      · exact (hwait r hr).setPending _
      · obtain rfl := List.mem_singleton.1 hr
        rw [queueOf_fresh ov buffer buflen hsk]
        exact Waiting.empty _ _ _

/-- **A completion that is oldest first** delivers the next pick. -/
theorem inOrder_getOverlappedResult (hi : InOrder h base new w) (ov : OvPtr)
    (hold : OldestFirst h w (.getOverlappedResult h ov)) :
    ∃ more, InOrder h base (new ++ more) (hookGetOverlappedResult w h ov) ∧ ∀ x ∈ more, x.h = h := by
  obtain ⟨ctx, hctx, hwait⟩ := hi.waiting
  rcases getOverlappedResult_cases w h ov with he | ⟨ctx', req, rest, hctx', hpending, hun, hcase⟩
  · rw [he]
    exact ⟨[], by simpa using hi, by simp⟩
  obtain rfl : ctx = ctx' := Option.some.inj (hctx.symm.trans hctx')
  have hreq : req ∈ ctx.pending := (mem_of_unlinkReq hun req).2 (.inl rfl)
  have hsub : ∀ r ∈ rest, r ∈ ctx.pending := fun r hr => (mem_of_unlinkReq hun r).2 (.inr hr)
  rcases hcase with ⟨rx, hl, he⟩ | ⟨d, rx, hl, he⟩
  · -- nothing to deliver: the rest of the queue stays
    refine ⟨[], ?_, by simp⟩
    rw [he, List.append_nil]
    have hsuf : rx.Sublist (queueOf w.socks req) := by
      have := (recvLoop_suffix ctx (queueOf w.socks req)).sublist
      rwa [hl] at this
    refine ⟨hi.delivered, hi.picks, _, getHandleContext_setPending hctx _, ?_⟩
    have hset : ∀ r, Waiting w.tapLog ctx new (queueOf w.socks r) →
        Waiting w.tapLog ctx new (queueOf (setRx w.socks req.sock rx) r) := by
      intro r hr
      rw [queueOf_setRx]
      split_ifs
      · exact (hwait req hreq).sublist hsuf
      · exact hr
    intro r hr
    rcases List.mem_append.1 hr with hr | hr
    · exact (hset r (hwait r (hsub r hr))).setPending _
    · obtain rfl := List.mem_singleton.1 hr
      exact (hset r (hwait r hreq)).setPending _
  · -- `d` is the oldest deliverable frame of its queue, hence of all
    obtain ⟨skipped, hq, hskip, hdel⟩ := recvLoop_deliverable hl
    have hmem : d ∈ queueOf w.socks req := by rw [hq]; simp
    have hfirst : ∀ x ∈ queueOf w.socks req, x.deliverable ctx = true → d.seq ≤ x.seq := by
      intro x hx hxd
      rw [hq] at hx
      rcases List.mem_append.1 hx with hx | hx
      · have := (hskip x hx).2
        simp [Dgram.deliverable, this] at hxd
      · rcases List.mem_cons.1 hx with rfl | hx
        · exact Nat.le_refl _
        · have hord := (hwait req hreq).ordered
          rw [hq, List.pairwise_append, List.pairwise_cons] at hord
          exact Nat.le_of_lt (hord.2.1.1 x hx)
    refine ⟨[deliveryOf ctx req d], ?_, by simpa [deliveryOf] using getHandleContext_h hctx⟩
    rw [he]
    refine ⟨?_, ?_, _, getHandleContext_setPending hctx _, ?_⟩
    · simp only [gorComplete, hi.delivered, List.append_assoc]
    · rw [List.map_append]
      refine hi.picks.snoc ?_ ((hwait req hreq).logged d hmem)
      intro p hp
      obtain ⟨x, hx, rfl⟩ := List.mem_map.1 hp
      exact (hwait req hreq).newer d hmem hdel x hx
    · intro r hr
      have hw := hwait r (hsub r hr)
      have hclose : (queueOf (closeSock w.socks req.sock) r).Sublist (queueOf w.socks r) := by
        rw [queueOf_closeSock]
        split_ifs
        · exact List.nil_sublist _
        · exact List.Sublist.refl _
      refine ⟨(hw.sublist hclose).ordered, (hw.sublist hclose).logged, ?_⟩
      intro y hy hyd x hx
      rcases List.mem_append.1 hx with hx | hx
      · exact (hw.sublist hclose).newer y hy hyd x hx
      · obtain rfl := List.mem_singleton.1 hx
        obtain ⟨z, hz, hzd, hlt⟩ := hold ctx req rest hctx hpending hun ⟨d, hmem, hdel⟩
        exact Nat.lt_of_le_of_lt (hfirst z hz hzd) (hlt r hr y (hclose.subset hy) hyd)

/-! ## Every run -/

theorem inOrder_step {a : Act} (hi : InOrder h base new w) (ha : OnHandle h a) (hold : OldestFirst h w a)
    (hs : step w a = some w') : ∃ more, InOrder h base (new ++ more) w' ∧ ∀ x ∈ more, x.h = h := by
  unfold step at hs
  split_ifs at hs with hok
  cases a with
  | poll i => exact ⟨[], by simpa using inOrder_poll hi hs, by simp⟩
  | readFile k ov buffer buflen sk =>
    obtain rfl : k = h := ha
    obtain rfl := Option.some.inj hs
    refine ⟨[], ?_, by simp⟩
    rw [List.append_nil]
    exact inOrder_readFile hi ov buffer buflen sk fun s a he => by subst he; exact hok
  | getOverlappedResult k ov =>
    obtain rfl : k = h := ha
    obtain rfl := Option.some.inj hs
    exact inOrder_getOverlappedResult hi ov hold
  | createFile => cases ha
  | closeHandle k => cases ha
  | deviceIoControl k code input outSize ov => cases ha
  | writeFile k buf ov src => cases ha
  | control cmd args src => cases ha

/-- **At most once, in order**: from a moment at which `h` has no read pending, in every run of TAP
arrivals, reads and completions on `h` in which every completion is oldest first, the completed reads
carry frames at strictly increasing positions of the TAP's log: a subsequence of it, no frame twice. -/
theorem delivered_picks (h : Handle) (w₀ : World) (ctx : HandleContext)
    (hctx : getHandleContext w₀.handleList h = some ctx) (hpend : ctx.pending = []) (as : List Act) (w : World)
    (hg : Guarded step (fun w a => OnHandle h a ∧ OldestFirst h w a) w₀ as) (hr : run step w₀ as = some w) :
    ∃ new, w.delivered = w₀.delivered ++ new ∧ (∀ x ∈ new, x.h = h) ∧
      (new.map Delivery.seq).Pairwise (· < ·) ∧ (∀ x ∈ new, w.tapLog[x.seq]? = some x.frame) ∧
      (new.map Delivery.frame).Sublist w.tapLog := by
  have h0 : InOrder h w₀.delivered [] w₀ := by
    refine ⟨by simp, Picks.nil _, ctx, hctx, ?_⟩
    rw [hpend]
    simp
  have hinv := hg.invariant (I := fun w => ∃ new, InOrder h w₀.delivered new w ∧ ∀ x ∈ new, x.h = h)
    (fun v a v' ⟨new, hi, hh⟩ ⟨ha, hold⟩ hs => by
      obtain ⟨more, hi', hm⟩ := inOrder_step hi ha hold hs
      refine ⟨new ++ more, hi', fun x hx => ?_⟩
      rcases List.mem_append.1 hx with hx | hx
      · exact hh x hx
      · exact hm x hx)
    ⟨[], h0, by simp⟩ hr
  obtain ⟨new, hi, hh⟩ := hinv
  have hinc := hi.picks.increasing
  have hsub := hi.picks.sublist
  rw [List.map_map] at hinc hsub
  refine ⟨new, hi.delivered, hh, hinc, ?_, hsub⟩
  intro x hx
  exact hi.picks.entries (x.seq, x.frame) (List.mem_map.2 ⟨x, hx, rfl⟩)

/-- With one read pending at a time every completion is oldest first. -/
theorem oldestFirst_of_single {ov : OvPtr}
    (hone : ∀ ctx, getHandleContext w.handleList h = some ctx → ctx.pending.length ≤ 1) :
    OldestFirst h w (.getOverlappedResult h ov) := by
  intro ctx req rest hctx _ hun hex
  obtain ⟨d, hd, hdel⟩ := hex
  obtain ⟨pre, post, hp, hr⟩ := unlinkReq_split hun
  have hlen := hone ctx hctx
  rw [hp, List.length_append, List.length_cons] at hlen
  have hnil : rest = [] := by
    rw [hr]
    apply List.eq_nil_of_length_eq_zero
    rw [List.length_append]
    omega
  refine ⟨d, hd, hdel, ?_⟩
  rw [hnil]
  simp

/-! ## Two reads and one frame -/

/-- A read on the handle that the bridge registers. -/
def registeredRead (ov : OvPtr) (port : UInt16) : List Act :=
  [.readFile 0x1001 (some ov) 0 2048 (some (ov, ⟨0x0100007F, port⟩)), .poll .datagram]

/-- One read is pending and registered, and `n` broadcast frames have arrived. -/
def waitingWorld (n : Nat) : World :=
  (run step filteredWorld (registeredRead 1 40001 ++ List.replicate n (.poll (.frame broadcastFrame)))).getD
    filteredWorld

/-- A first read gets two frames, and a second one that is registered between them the newer of them; each is
completed once. -/
def twoReads : List Act :=
  registeredRead 1 40001 ++ [.poll (.frame broadcastFrame)] ++ registeredRead 2 40002 ++
    [.poll (.frame broadcastFrame), .getOverlappedResult 0x1001 1, .getOverlappedResult 0x1001 2]

/-- Two reads, two frames: the read that waits longer is completed first, and each gets a frame of its own. -/
theorem delivered_picks_two : ∃ w new, run step filteredWorld twoReads = some w ∧
    w.delivered.map Delivery.seq = [0, 1] ∧ w.delivered = filteredWorld.delivered ++ new ∧ (∀ x ∈ new, x.h = 0x1001) ∧
    (new.map Delivery.seq).Pairwise (· < ·) ∧ (∀ x ∈ new, w.tapLog[x.seq]? = some x.frame) ∧
    (new.map Delivery.frame).Sublist w.tapLog := by
  have hg : Guarded step (fun w a => OnHandle 0x1001 a ∧ OldestFirst 0x1001 w a) filteredWorld twoReads := by
    refine .cons ⟨rfl, trivial⟩ rfl (.cons ⟨trivial, trivial⟩ rfl (.cons ⟨trivial, trivial⟩ rfl
      (.cons ⟨rfl, trivial⟩ rfl (.cons ⟨trivial, trivial⟩ rfl (.cons ⟨trivial, trivial⟩ rfl
        (.cons ⟨rfl, ?_⟩ rfl (.cons ⟨rfl, oldestFirst_of_single ?_⟩ rfl trivial)))))))
    · -- frame 0 waits for the first read, and for the second one only frame 1
      intro ctx req rest hctx _ hun _
      obtain rfl := Option.some.inj hctx
      obtain ⟨hreq, rfl⟩ := Prod.mk.inj hun
      obtain rfl := Option.some.inj hreq
      refine ⟨⟨frameDatagram broadcastFrame, 0⟩, List.mem_cons_self, rfl, ?_⟩
      intro r hr x hx _
      obtain rfl := List.mem_singleton.1 hr
      obtain rfl := List.mem_singleton.1 hx
      exact Nat.zero_lt_one
    · intro ctx hctx
      obtain rfl := Option.some.inj hctx
      decide
  obtain ⟨new, hnew⟩ := delivered_picks 0x1001 filteredWorld _ rfl rfl _ _ hg rfl
  exact ⟨_, new, rfl, rfl, hnew⟩

/-- **Packet duplication**: two reads are registered, one frame arrives, and both are completed with it. -/
theorem delivered_twice : ∃ as w, (∀ a ∈ as, OnHandle 0x1001 a) ∧ run step filteredWorld as = some w ∧
    w.tapLog = [broadcastFrame] ∧
    w.delivered.map (fun x => (x.h, x.seq, x.frame)) = [(0x1001, 0, broadcastFrame), (0x1001, 0, broadcastFrame)] ∧
    ¬ (w.delivered.map Delivery.frame).Sublist w.tapLog := by
  refine ⟨registeredRead 1 40001 ++ registeredRead 2 40002 ++ [.poll (.frame broadcastFrame),
    .getOverlappedResult 0x1001 1, .getOverlappedResult 0x1001 2], _, ?_, rfl, rfl, rfl, ?_⟩
  · simp [registeredRead, OnHandle]
  · show ¬ [broadcastFrame, broadcastFrame].Sublist [broadcastFrame]
    intro h
    exact absurd h.length_le (by decide)

end Rvpn
