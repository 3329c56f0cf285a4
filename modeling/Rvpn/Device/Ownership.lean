import Rvpn.Device.Filter
import Rvpn.Device.Sockets

/-!
# Who owns the requests and their sockets

`Hook_ReadFile` allocates a request and opens a socket for it; both are given back where
`Hook_GetOverlappedResult` completes the read. `RemoveFakeHandle` frees the context alone
(`inject.c:144-161`), and with it the only pointer to the queue.

* `Ledger` — the system with the request blocks that are allocated;
* `account_step` — what a step adds to the queues and the sockets, and what it takes out or drops;
* `owned_iff` — blocks and sockets are exactly those of the queues as long as no handle is closed with
  a read pending;
* `close_leaks` — one read, one close: the request and its socket stay behind.
-/

namespace Rvpn

open Lts Count

/-- The requests queued on the open handles. -/
def queued (l : List HandleContext) : List PendingRead := l.flatMap HandleContext.pending

/-- The request `Hook_ReadFile` allocates. -/
def allocated (w : World) : Act → List PendingRead
  | .readFile h (some ov) buffer buflen sk =>
    if (getHandleContext w.handleList h).isSome ∧ w.tapActive then [⟨ov, buffer, buflen, sk.map Prod.fst⟩] else []
  | _ => []

/-- The request `Hook_GetOverlappedResult` frees: the one it completes. -/
def freed (w : World) : Act → List PendingRead
  | .getOverlappedResult h ov =>
    match getHandleContext w.handleList h with
    | none => []
    | some ctx =>
      if (w.ov ov).internal ≠ statusPending then []
      else match unlinkReq ov ctx.pending with
        | (none, _) => []
        | (some req, _) => if (recvLoop ctx (queueOf w.socks req)).1.isSome then [req] else []
  | _ => []

/-- The requests whose queue goes with the context that is closed. -/
def dropped (w : World) : Act → List PendingRead
  | .closeHandle h => ((getHandleContext w.handleList h).map HandleContext.pending).getD []
  | _ => []

/-- The system with the request blocks on the process heap. -/
structure Ledger where
  world : World
  reqs : List PendingRead

def Ledger.init (tapActive : Bool) (ov : OvPtr → Overlapped) (buf : RxBuf) : Ledger :=
  ⟨World.init tapActive ov buf, []⟩

def ledgerStep (s : Ledger) (a : Act) : Option Ledger :=
  (step s.world a).map fun w => ⟨w, s.reqs.diff (freed s.world a) ++ allocated s.world a⟩

/-- **The open sockets and the allocated requests are those of the queues** of the handles in
`g_HandleList`. -/
structure Owned (s : Ledger) : Prop where
  socks : ∀ x, x ∈ s.world.socks.map UdpSock.id ↔ x ∈ pendingSocks s.world.handleList
  reqs : ∀ r, s.reqs.count r = (queued s.world.handleList).count r

/-- If the call closes a handle, no read is pending on it. -/
def ClosesIdle (s : Ledger) (a : Act) : Prop := dropped s.world a = []

/-! ## Counting -/

def ids (w : World) : List Socket := w.socks.map UdpSock.id

theorem pendingSocks_eq (l : List HandleContext) : pendingSocks l = (queued l).filterMap PendingRead.sock := by
  rw [pendingSocks, queued, List.filterMap_flatMap]

theorem count_queued_set {l : List HandleContext} {h : Handle} {c : HandleContext}
    (hc : getHandleContext l h = some c) (c' : HandleContext) (hh : c'.h = h) (r : PendingRead) :
    (queued (setContext l c')).count r + c.pending.count r = (queued l).count r + c'.pending.count r := by
  obtain ⟨pre, post, rfl, hset⟩ := setContext_split hc
  rw [hset c' hh]
  simp only [queued, count_flatMap_append, count_flatMap_cons]
  omega

theorem count_queued_remove {l : List HandleContext} {h : Handle} {c : HandleContext}
    (hc : getHandleContext l h = some c) (r : PendingRead) :
    (queued (removeFakeHandle l h)).count r + c.pending.count r = (queued l).count r := by
  induction l with
  | nil => cases hc
  | cons d ds ih =>
    unfold getHandleContext removeFakeHandle at *
    cases hd : HandleContext.is h d with
    | true =>
      rw [List.find?_cons_of_pos hd] at hc
      obtain rfl := Option.some.inj hc
      rw [List.eraseP_cons_of_pos hd, queued, queued, count_flatMap_cons]
      omega
    | false =>
      have hdn : ¬ HandleContext.is h d = true := by simp [hd]
      rw [List.find?_cons_of_neg hdn] at hc
      rw [List.eraseP_cons_of_neg hdn]
      have hrest := ih hc
      simp only [queued, count_flatMap_cons] at hrest ⊢
      omega

theorem count_unlinkReq_queue {ov : OvPtr} {q rest : List PendingRead} {req : PendingRead}
    (h : unlinkReq ov q = (some req, rest)) (r : PendingRead) : q.count r = rest.count r + [req].count r := by
  obtain ⟨pre, post, rfl, rfl⟩ := unlinkReq_split h
  simp only [List.count_append, List.count_cons, List.count_nil]
  omega

theorem count_ids_closeSock (socks : List UdpSock) (s : Option Socket) (x : Socket) :
    ((closeSock socks s).map UdpSock.id).count x = if s = some x then 0 else (socks.map UdpSock.id).count x := by
  induction socks with
  | nil => simp [closeSock]
  | cons u us ih =>
    have hcons : closeSock (u :: us) s = (if s ≠ some u.id then [u] else []) ++ closeSock us s := by
      by_cases hu : s = some u.id <;> simp [closeSock, hu]
    rw [hcons, List.map_append, List.count_append, ih, List.map_cons, List.count_cons]
    by_cases hs : s = some x
    · subst hs
      by_cases hu : x = u.id
      · simp [hu]
      · simp [hu, Ne.symm hu]
    · by_cases hu : s = some u.id
      · have hne : u.id ≠ x := fun e => hs (by rw [hu, e])
        simp [hu, hne]
      · by_cases hx : u.id = x
        · subst hx
          simp [hs, Nat.add_comm]
        · simp [hs, hu, hx]

/-! ## One step -/

/-- What the queues and the sockets hold after a step `a`. -/
structure Account (w w' : World) (a : Act) : Prop where
  queues : ∀ r, (queued w'.handleList).count r + (freed w a).count r + (dropped w a).count r =
    (queued w.handleList).count r + (allocated w a).count r
  socks : ∀ x, (ids w').count x =
    if x ∈ (freed w a).filterMap PendingRead.sock then 0
    else (ids w).count x + ((allocated w a).filterMap PendingRead.sock).count x

/-- A step that allocates, frees and closes nothing. -/
theorem Account.idle {w w' : World} {a : Act} (hq : ∀ r, (queued w'.handleList).count r = (queued w.handleList).count r)
    (hi : ids w' = ids w) (ha : allocated w a = []) (hf : freed w a = []) (hd : dropped w a = []) : Account w w' a where
  queues r := by rw [ha, hf, hd, hq]; simp
  socks x := by rw [ha, hf, hi]; simp

theorem account_readFile (w : World) (h : Handle) (ov : Option OvPtr) (buffer : Nat) (buflen : UInt32)
    (sk : Option (Socket × SockAddr)) :
    Account w (hookReadFile w h ov buffer buflen sk) (.readFile h ov buffer buflen sk) := by
  cases hctx : getHandleContext w.handleList h with
  | none =>
    have he : hookReadFile w h ov buffer buflen sk = w := by simp only [hookReadFile, hctx]
    rw [he]
    refine .idle (fun _ => rfl) rfl ?_ rfl rfl
    cases ov <;> simp [allocated, hctx]
  | some ctx =>
    cases hact : w.tapActive with
    | false =>
      have he : hookReadFile w h ov buffer buflen sk = w := by simp [hookReadFile, hctx, hact]
      rw [he]
      refine .idle (fun _ => rfl) rfl ?_ rfl rfl
      cases ov <;> simp [allocated, hact]
    | true =>
      cases ov with
      | none =>
        have he : hookReadFile w h none buffer buflen sk = w := by simp [hookReadFile, hctx]
        rw [he]
        exact .idle (fun _ => rfl) rfl rfl rfl rfl
      | some ov =>
        have hh : ctx.h = h := getHandleContext_h hctx
        have halloc : allocated w (.readFile h (some ov) buffer buflen sk) = [⟨ov, buffer, buflen, sk.map Prod.fst⟩] := by
          simp [allocated, hctx, hact]
        refine ⟨fun r => ?_, fun x => ?_⟩
        · have hcount := count_queued_set hctx
            { ctx with pending := enqueue ctx.pending ⟨ov, buffer, buflen, sk.map Prod.fst⟩ } hh r
          simp only [enqueue, List.count_append] at hcount
          simp only [hookReadFile, hctx, hact, Bool.not_true, Bool.false_eq_true, if_false, halloc, freed, dropped,
            enqueue, List.count_nil]
          omega
        · rw [halloc]
          simp only [hookReadFile, hctx, hact, Bool.not_true, Bool.false_eq_true, if_false, freed, ids, List.map_append,
            List.count_append, List.filterMap_nil, List.not_mem_nil]
          cases sk <;> simp

theorem account_getOverlappedResult (w : World) (h : Handle) (ov : OvPtr) :
    Account w (hookGetOverlappedResult w h ov) (.getOverlappedResult h ov) := by
  cases hc : getHandleContext w.handleList h with
  | none =>
    have he : hookGetOverlappedResult w h ov = w := by simp only [hookGetOverlappedResult, hc]
    rw [he]
    exact .idle (fun _ => rfl) rfl rfl (by simp only [freed, hc]) rfl
  | some ctx =>
    by_cases hi : (w.ov ov).internal ≠ statusPending
    · have he : hookGetOverlappedResult w h ov = w := by simp only [hookGetOverlappedResult, hc, if_pos hi]
      rw [he]
      exact .idle (fun _ => rfl) rfl rfl (by simp only [freed, hc, if_pos hi]) rfl
    · rcases hu : unlinkReq ov ctx.pending with ⟨_ | req, rest⟩
      · have he : hookGetOverlappedResult w h ov = w := by simp only [hookGetOverlappedResult, hc, if_neg hi, hu]
        rw [he]
        exact .idle (fun _ => rfl) rfl rfl (by simp only [freed, hc, if_neg hi, hu]) rfl
      · have hh : ctx.h = h := getHandleContext_h hc
        have hpend := count_unlinkReq_queue hu
        rcases hl : recvLoop ctx (queueOf w.socks req) with ⟨_ | d, rx⟩
        · -- the request goes back to the end of the queue
          have he : hookGetOverlappedResult w h ov = gorIncomplete w ctx rest req rx := by
            simp only [hookGetOverlappedResult, hc, if_neg hi, hu, hl]
          rw [he]
          refine .idle (fun r => ?_) (ids_setRx _ _ _) rfl (by simp [freed, hc, hi, hu, hl]) rfl
          have hcount := count_queued_set hc { ctx with pending := enqueue rest req } hh r
          simp only [enqueue, List.count_append] at hcount
          have h1 := hpend r
          simp only [gorIncomplete, enqueue]
          omega
        · have he : hookGetOverlappedResult w h ov = gorComplete w ctx rest req d := by
            simp only [hookGetOverlappedResult, hc, if_neg hi, hu, hl]
          have hfree : freed w (.getOverlappedResult h ov) = [req] := by simp [freed, hc, hi, hu, hl]
          rw [he]
          refine ⟨fun r => ?_, fun x => ?_⟩
          · have hcount := count_queued_set hc { ctx with pending := rest } hh r
            have h1 := hpend r
            simp only [hfree, gorComplete, allocated, dropped, List.count_nil] at hcount ⊢
            omega
          · rw [hfree]
            simp only [ids, gorComplete, count_ids_closeSock, allocated, List.filterMap_nil, List.count_nil, Nat.add_zero]
            cases hs : req.sock with
            | none => simp [hs]
            | some t => simp [hs, eq_comm]

/-- **One step**: it queues what it allocates, takes out what it frees and drops the queue it closes. -/
theorem account_step {w w' : World} {a : Act} (hs : step w a = some w') : Account w w' a := by
  unfold step at hs
  split_ifs at hs
  cases a with
  | createFile =>
    obtain rfl := Option.some.inj hs
    exact .idle (fun r => by simp [hookCreateFileW, queued, HandleContext.fresh]) rfl rfl rfl rfl
  | closeHandle h =>
    obtain rfl := Option.some.inj hs
    cases hc : getHandleContext w.handleList h with
    | none =>
      have he : hookCloseHandle w h = w := by simp only [hookCloseHandle, hc]
      rw [he]
      exact .idle (fun _ => rfl) rfl rfl rfl (by simp [dropped, hc])
    | some ctx =>
      refine ⟨fun r => ?_, fun x => ?_⟩
      · have hcount := count_queued_remove hc r
        simpa [hookCloseHandle, hc, dropped, freed, allocated] using hcount
      · simp [hookCloseHandle, hc, freed, allocated, ids]
  | deviceIoControl h code input outSize ov =>
    obtain rfl := Option.some.inj hs
    cases hc : getHandleContext w.handleList h with
    | none =>
      have he : hookDeviceIoControl w h code input outSize ov = w := by simp only [hookDeviceIoControl, hc]
      rw [he]
      exact .idle (fun _ => rfl) rfl rfl rfl rfl
    | some ctx =>
      have hh : (ioctlContext ctx code input).h = h := (ioctlContext_h ctx code input).trans (getHandleContext_h hc)
      refine .idle (fun r => ?_) (by simp only [hookDeviceIoControl, hc, ids]) rfl rfl rfl
      have hcount := count_queued_set hc _ hh r
      rw [ioctlContext_pending] at hcount
      simp only [hookDeviceIoControl, hc]
      omega
  | readFile h ov buffer buflen sk =>
    obtain rfl := Option.some.inj hs
    exact account_readFile w h ov buffer buflen sk
  | writeFile h buf ov src =>
    obtain ⟨pkt, rfl, -⟩ := hookWriteFile_spec hs
    exact .idle (fun _ => rfl) rfl rfl rfl rfl
  | getOverlappedResult h ov =>
    obtain rfl := Option.some.inj hs
    exact account_getOverlappedResult w h ov
  | control cmd args src =>
    obtain rfl := Option.some.inj hs
    exact .idle (fun _ => rfl) rfl rfl rfl rfl
  | poll i =>
    obtain ⟨fr, src, -, -, -, -, -, -, hlist, -, -, -, -, hids⟩ := pollRound_spec hs
    exact .idle (fun r => by rw [hlist]) hids rfl rfl rfl

/-! ## Runs -/

/-- What the ledger and the sockets hold beyond the queues: the requests that were `lost`. -/
structure Lost (lost : List PendingRead) (s : Ledger) : Prop where
  reqs : ∀ r, s.reqs.count r = (queued s.world.handleList).count r + lost.count r
  socks : ∀ x, (ids s.world).count x = (pendingSocks s.world.handleList).count x +
    (lost.filterMap PendingRead.sock).count x
  once : ∀ x, (ids s.world).count x ≤ 1

variable {lost : List PendingRead} {s t : Ledger} {a : Act}

theorem ledgerStep_eq_some : ledgerStep s a = some t ↔
    ∃ w, step s.world a = some w ∧ t = ⟨w, s.reqs.diff (freed s.world a) ++ allocated s.world a⟩ := by
  simp [ledgerStep, eq_comm]

theorem Lost.init (tapActive : Bool) (ov : OvPtr → Overlapped) (buf : RxBuf) :
    Lost [] (Ledger.init tapActive ov buf) where
  reqs := by simp [Ledger.init, World.init, queued]
  socks := by simp [Ledger.init, World.init, ids, pendingSocks]
  once := by simp [Ledger.init, World.init, ids]

theorem allocated_or_freed (w : World) (a : Act) : allocated w a = [] ∨ freed w a = [] := by
  cases a with
  | readFile h ov buffer buflen sk => exact .inr rfl
  | _ => exact .inl rfl

/-- The socket of a new request was not open. -/
theorem allocated_free {w w' : World} (hs : step w a = some w') (x : Socket) :
    (ids w).count x + ((allocated w a).filterMap PendingRead.sock).count x ≤ max 1 ((ids w).count x) := by
  unfold step at hs
  split_ifs at hs with hok
  cases a with
  | readFile h ov buffer buflen sk =>
    cases ov with
    | none => simp [allocated]
    | some ov =>
      simp only [allocated]
      split_ifs
      · cases sk with
        | none => simp
        | some y =>
          by_cases hx : y.1 = x
          · have hfree : (ids w).count x = 0 := by
              refine List.count_eq_zero.2 fun hmem => ?_
              obtain ⟨u, hu, hid⟩ := List.mem_map.1 hmem
              have hne := List.all_eq_true.1 (show canOpen w.socks y.1 y.2 = true from hok) u hu
              simp [hid, hx] at hne
            simp [hx, hfree]
          · simp [hx]
      · simp
  | _ => simp [allocated]

/-- **Nothing but a close loses anything**, and it loses the queue of its handle. -/
theorem Lost.step (hl : Lost lost s) (hs : ledgerStep s a = some t) : Lost (lost ++ dropped s.world a) t := by
  obtain ⟨w, hw, rfl⟩ := ledgerStep_eq_some.1 hs
  have hacc := account_step hw
  have hperm : (queued w.handleList ++ freed s.world a ++ dropped s.world a).Perm
      (queued s.world.handleList ++ allocated s.world a) := by
    rw [List.perm_iff_count]
    intro r
    simpa only [List.count_append] using hacc.queues r
  have hsocks : ∀ x, (pendingSocks w.handleList).count x + ((freed s.world a).filterMap PendingRead.sock).count x +
      ((dropped s.world a).filterMap PendingRead.sock).count x =
      (pendingSocks s.world.handleList).count x + ((allocated s.world a).filterMap PendingRead.sock).count x := by
    intro x
    have hcount := (hperm.filterMap PendingRead.sock).count_eq x
    simpa only [List.filterMap_append, List.count_append, ← pendingSocks_eq] using hcount
  refine ⟨fun r => ?_, fun x => ?_, fun x => ?_⟩
  · have h1 := hacc.queues r
    have h2 := hl.reqs r
    simp only [List.count_append, List.count_diff]
    rcases allocated_or_freed s.world a with he | he
    · rw [he, List.count_nil] at h1 ⊢
      omega
    · rw [he, List.count_nil] at h1 ⊢
      omega
  · have h1 := hsocks x
    have h2 := hl.socks x
    have h3 := hl.once x
    simp only [List.filterMap_append, List.count_append]
    rw [hacc.socks x]
    split_ifs with hx
    · -- the freed request had the only claim on its socket
      have hpos := List.count_pos_iff.2 hx
      rcases allocated_or_freed s.world a with he | he
      · rw [he, List.filterMap_nil, List.count_nil] at h1
        omega
      · rw [he] at hx
        cases hx
    · rw [List.count_eq_zero.2 hx] at h1
      omega
  · have h1 := allocated_free hw x
    have h2 := hl.once x
    show (ids w).count x ≤ 1
    rw [hacc.socks x]
    split_ifs <;> omega

theorem Lost.eq_nil_iff (hl : Lost lost s) : Owned s ↔ lost = [] := by
  constructor
  · intro ho
    refine List.eq_nil_iff_forall_not_mem.2 fun r hr => ?_
    have h1 := hl.reqs r
    have h2 := ho.reqs r
    have h3 := List.count_pos_iff.2 hr
    omega
  · rintro rfl
    refine ⟨fun x => ?_, fun r => by simpa using hl.reqs r⟩
    have h1 := hl.socks x
    rw [List.filterMap_nil, List.count_nil, Nat.add_zero] at h1
    rw [← List.count_pos_iff, ← List.count_pos_iff, ← ids, h1]

/-- **A run**: what is lost stays lost, and nothing is lost as long as every close is idle. -/
theorem Lost.run : ∀ {as : List Act} {lost : List PendingRead} {s t : Ledger}, Lost lost s →
    Lts.run ledgerStep s as = some t → ∃ more, Lost (lost ++ more) t ∧ (more = [] ↔ Guarded ledgerStep ClosesIdle s as)
  | [], lost, s, t, hl, hr => by
    cases hr
    exact ⟨[], by simpa using hl, by simp [Guarded]⟩
  | a :: as, lost, s, t, hl, hr => by
    obtain ⟨u, hs, hr⟩ := run_cons.1 hr
    obtain ⟨more, hm, hiff⟩ := (hl.step hs).run hr
    refine ⟨dropped s.world a ++ more, by rwa [← List.append_assoc], ?_⟩
    rw [List.append_eq_nil_iff, hiff]
    constructor
    · rintro ⟨hd, hg⟩
      exact Guarded.cons hd hs hg
    · rintro ⟨hd, hg⟩
      exact ⟨hd, hg u hs⟩

/-- **Ownership**: in every run, what is allocated and open at the end is exactly what is queued on the open
handles, if and only if no handle was closed with a read pending. -/
theorem owned_iff (tapActive : Bool) (ov : OvPtr → Overlapped) (buf : RxBuf) (as : List Act) (s : Ledger)
    (hr : Lts.run ledgerStep (Ledger.init tapActive ov buf) as = some s) :
    Owned s ↔ Guarded ledgerStep ClosesIdle (Ledger.init tapActive ov buf) as := by
  obtain ⟨more, hl, hiff⟩ := (Lost.init tapActive ov buf).run hr
  rw [← hiff]
  exact hl.eq_nil_iff

/-- Open, read, complete, close: nothing is left. -/
def completedRead : List Act :=
  [.createFile, .deviceIoControl 0x1001 0x228014 [0x02, 0x50, 0x00, 0x00, 0x00, 0x01] 0 none] ++
    registeredRead 1 40001 ++ [.poll (.frame broadcastFrame), .getOverlappedResult 0x1001 1, .closeHandle 0x1001]

theorem owned_iff_completed : ∃ s,
    Lts.run ledgerStep (Ledger.init true (fun _ => ⟨0, 0⟩) (RxBuf.filled 0)) completedRead = some s ∧ Owned s := by
  refine ⟨_, rfl, (owned_iff true (fun _ => ⟨0, 0⟩) (RxBuf.filled 0) completedRead _ rfl).2 ?_⟩
  exact .cons rfl rfl (.cons rfl rfl (.cons rfl rfl (.cons rfl rfl (.cons rfl rfl (.cons rfl rfl (.cons rfl rfl trivial))))))

/-- **A leak**: a handle is closed while one read is pending, and the request and its socket stay behind. -/
theorem close_leaks : ∃ s, Lts.run ledgerStep (Ledger.init true (fun _ => ⟨0, 0⟩) (RxBuf.filled 0))
      [.createFile, .readFile 0x1001 (some 1) 0 2048 (some (1, ⟨0x0100007F, 40001⟩)), .closeHandle 0x1001] = some s ∧
    s.world.handleList.map HandleContext.h = [] ∧ s.reqs = [⟨1, 0, 2048, some 1⟩] ∧ s.world.socks.map UdpSock.id = [1] ∧
    ¬ Owned s := by
  refine ⟨_, rfl, rfl, rfl, rfl, ?_⟩
  intro ho
  have hsock := (ho.socks 1).1 (List.mem_singleton.2 rfl)
  cases hsock

end Rvpn
