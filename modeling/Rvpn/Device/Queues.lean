import Rvpn.Device.World

/-!
# What a step does to the queues

One lemma for each operation on the socket table, and from them what a round of the bridge, a
`ReadFile` and a `GetOverlappedResult` do to the queue of every pending read.

* `queueOf_deliver`, `queueOf_setRx`, `queueOf_closeSock`, `queueOf_open` — the table operations;
* `pollRound_spec` — a round appends at most one datagram to each registered queue;
* `getOverlappedResult_cases` — nothing, an incomplete read, or a completed one;
* `hookWriteFile_spec` — a `WriteFile` touches no queue.
-/

namespace Rvpn

/-! ## The socket table -/

theorem findSock_map {f : UdpSock → UdpSock} (hid : ∀ u, (f u).id = u.id) (socks : List UdpSock) (s : Socket) :
    findSock (socks.map f) s = (findSock socks s).map f := by
  unfold findSock
  rw [List.find?_map]
  congr 2
  ext u
  simp [hid]

theorem findSock_id {socks : List UdpSock} {s : Socket} {u : UdpSock} (h : findSock socks s = some u) : u.id = s := by
  simpa using List.find?_some h

theorem sockOf_map {f : UdpSock → UdpSock} (hid : ∀ u, (f u).id = u.id) (socks : List UdpSock) (r : PendingRead) :
    sockOf (socks.map f) r = (sockOf socks r).map f := by
  unfold sockOf
  cases r.sock with
  | none => rfl
  | some s => exact findSock_map hid socks s

/-- Only the rest of the queue that was received from changes. -/
theorem queueOf_setRx (socks : List UdpSock) (s : Option Socket) (rx : List Dgram) (r : PendingRead) :
    queueOf (setRx socks s rx) r = if r.sock = s ∧ (sockOf socks r).isSome then rx else queueOf socks r := by
  have hid : ∀ u : UdpSock, (if s = some u.id then { u with rx } else u).id = u.id := by
    intro u
    split_ifs <;> rfl
  unfold queueOf setRx
  rw [sockOf_map hid]
  cases hr : sockOf socks r with
  | none => simp
  | some u =>
    obtain ⟨t, hsock, hfind⟩ := Option.bind_eq_some_iff.1 hr
    have hu : u.id = t := findSock_id hfind
    by_cases hs : r.sock = s
    · simp [← hs, hsock, hu]
    · have hne : s ≠ some u.id := by rw [hu, ← hsock]; exact Ne.symm hs
      simp [hs, hne]

theorem sockOf_closeSock_ne {socks : List UdpSock} {s : Option Socket} {r : PendingRead} (h : r.sock ≠ s) :
    sockOf (closeSock socks s) r = sockOf socks r := by
  unfold sockOf
  cases hr : r.sock with
  | none => rfl
  | some t =>
    simp only [Option.bind_some, findSock, closeSock, List.find?_filter]
    congr 1
    ext u
    by_cases hu : u.id = t
    · simp [hu, Ne.symm (hr ▸ h)]
    · simp [hu]

theorem sockOf_closeSock_self (socks : List UdpSock) (r : PendingRead) : sockOf (closeSock socks r.sock) r = none := by
  unfold sockOf
  cases hr : r.sock with
  | none => rfl
  | some t =>
    simp only [Option.bind_some, findSock, closeSock, List.find?_filter, List.find?_eq_none]
    intro u _
    by_cases hu : u.id = t <;> simp [hu, Ne.symm]

/-- Closing a socket empties the queues of the reads on it and no others. -/
theorem queueOf_closeSock (socks : List UdpSock) (s : Option Socket) (r : PendingRead) :
    queueOf (closeSock socks s) r = if r.sock = s then [] else queueOf socks r := by
  unfold queueOf
  split_ifs with h
  · rw [← h, sockOf_closeSock_self]
    rfl
  · rw [sockOf_closeSock_ne h]

/-- A new socket does not change the queue of a read whose socket is open. -/
theorem sockOf_append_of_some {socks : List UdpSock} {r : PendingRead} {u : UdpSock} (h : sockOf socks r = some u)
    (more : List UdpSock) : sockOf (socks ++ more) r = some u := by
  unfold sockOf at h ⊢
  obtain ⟨t, ht, hf⟩ := Option.bind_eq_some_iff.1 h
  rw [ht, Option.bind_some, findSock, List.find?_append]
  unfold findSock at hf
  rw [hf]
  rfl

/-- A new socket is empty, so it adds nothing to any queue. -/
theorem queueOf_open (socks : List UdpSock) (sk : Option (Socket × SockAddr)) (r : PendingRead) :
    queueOf (socks ++ (sk.map fun x => (⟨x.1, x.2, []⟩ : UdpSock)).toList) r = queueOf socks r := by
  cases hr : sockOf socks r with
  | some u => rw [queueOf, queueOf, sockOf_append_of_some hr, hr]
  | none =>
    rw [queueOf, queueOf, hr]
    unfold sockOf at hr ⊢
    cases hs : r.sock with
    | none => rfl
    | some t =>
      rw [hs, Option.bind_some, findSock] at hr
      rw [Option.bind_some, findSock, List.find?_append, hr, Option.none_or]
      cases sk with
      | none => rfl
      | some x =>
        by_cases hx : x.1 = t <;> simp [hx]

/-- Nothing waits yet for a read whose socket the system is about to hand out. -/
theorem queueOf_fresh {socks : List UdpSock} {sk : Option (Socket × SockAddr)} (ov : OvPtr) (buffer : Nat)
    (buflen : UInt32) (hsk : ∀ s a, sk = some (s, a) → canOpen socks s a = true) :
    queueOf socks ⟨ov, buffer, buflen, sk.map Prod.fst⟩ = [] := by
  cases sk with
  | none => rfl
  | some x =>
    have hfree := hsk x.1 x.2 rfl
    have hnone : findSock socks x.1 = none := by
      unfold findSock
      rw [List.find?_eq_none]
      intro u hu
      have := List.all_eq_true.1 hfree u hu
      simp only [ne_eq, Bool.and_eq_true, decide_eq_true_eq] at this
      simpa using this.1
    simp [queueOf, sockOf, hnone]

/-- What the bridge sends to the address of a read is appended to its queue. -/
theorem queueOf_deliver (sends : List (SockAddr × List UInt8)) (seq : Nat) (socks : List UdpSock) (r : PendingRead) :
    queueOf (deliver sends seq socks) r = queueOf socks r ++
      match addrOf socks r with
      | none => []
      | some a => (sends.filter fun x => x.1 = a).map fun x => ⟨x.2, seq⟩ := by
  unfold queueOf addrOf deliver
  rw [sockOf_map (by intro u; rfl)]
  cases sockOf socks r with
  | none => rfl
  | some u => rfl

theorem addrOf_deliver (sends : List (SockAddr × List UInt8)) (seq : Nat) (socks : List UdpSock) (r : PendingRead) :
    addrOf (deliver sends seq socks) r = addrOf socks r := by
  unfold addrOf deliver
  rw [sockOf_map (by intro u; rfl)]
  cases sockOf socks r with
  | none => rfl
  | some u => rfl

/-! ## One round of the bridge -/

/-- What a round sends and whom it registers. -/
theorem round_spec (b : Bridge) (r : RoundIn) (hs : r.sendto = fun _ => true) :
    (round b r).sends = (match r.frameRead with
      | none => []
      | some f => broadcast b.clients.addrs (frameDatagram f) fun _ => true) ∧
    (round b r).st.clients = (match r.senderOf (round b r) with
      | none => b.clients
      | some a => b.clients.register a) := by
  cases hp : r.poll with
  | some e =>
    have hround : round b r = ⟨b, [], [], none, false, e = .eintr⟩ := by
      unfold round
      rw [hp]
    rw [hround]
    simp [RoundIn.frameRead, RoundIn.senderOf, hp]
  | none =>
    rcases ht : tapToUdp b r with ⟨b', sends, flow⟩
    have htap : sends = (match r.frameRead with
        | none => []
        | some f => broadcast b.clients.addrs (frameDatagram f) fun _ => true) ∧ b'.clients = b.clients := by
      cases htp : r.tap with
      | none =>
        rw [tapToUdp_none htp] at ht
        cases ht
        simp [RoundIn.frameRead, hp, htp]
      | some x =>
        cases x with
        | error e =>
          simp only [tapToUdp, htp, Prod.mk.injEq] at ht
          obtain ⟨rfl, rfl, -⟩ := ht
          simp [RoundIn.frameRead, hp, htp]
        | ok f =>
          by_cases hf : f = []
          · subst hf
            simp only [tapToUdp, htp, List.length_nil, Nat.zero_min, if_true, Prod.mk.injEq] at ht
            obtain ⟨rfl, rfl, -⟩ := ht
            simp [RoundIn.frameRead, hp, htp]
          · rw [tapToUdp_frame htp hf, hs] at ht
            cases ht
            simp [RoundIn.frameRead, hp, htp, hf]
    cases flow with
    | fall =>
      rw [round_of_fall hp ht]
      refine ⟨htap.1, ?_⟩
      cases hu : r.udp with
      | none =>
        have hb : (udpToTap b' r).1 = b' := by
          unfold udpToTap
          rw [hu]
        simp [RoundIn.senderOf, hu, hb, htap.2]
      | some x =>
        cases x with
        | error e =>
          have hb : (udpToTap b' r).1 = b' := by
            unfold udpToTap
            rw [hu]
          simp [RoundIn.senderOf, hu, hb, htap.2]
        | ok x =>
          simp [RoundIn.senderOf, hu, udpToTap_receive hu, Bridge.receive, htap.2]
    | cont =>
      have hround : round b r = ⟨b', sends, [], none, false, true⟩ := by
        unfold round
        rw [hp, ht]
      rw [hround]
      exact ⟨htap.1, htap.2⟩
    | brk =>
      have hround : round b r = ⟨b', sends, [], none, false, false⟩ := by
        unfold round
        rw [hp, ht]
      rw [hround]
      exact ⟨htap.1, htap.2⟩

/-- The datagram a round receives is the first one of the wire. -/
theorem wire_of_senderOf {i : PollIn} {wire : List (SockAddr × List UInt8)} {r : RoundIn} {o : RoundOut}
    {a : SockAddr} (hr : i.roundIn wire = some r) (hs : r.senderOf o = some a) :
    ∃ d rest, wire = (a, d) :: rest := by
  obtain ⟨x, hx, rfl⟩ : ∃ x, r.udp = some (.ok x) ∧ x.1 = a := by
    unfold RoundIn.senderOf at hs
    split at hs
    · exact ⟨_, by assumption, Option.some.inj hs⟩
    · cases hs
  unfold PollIn.roundIn at hr
  split at hr <;> cases hr <;> cases hx
  exact ⟨x.2, _, rfl⟩

/-- The datagram a queue gets when frame `f`, the `n`-th, is broadcast. -/
def copyFor (clients : List SockAddr) (f : Option (List UInt8)) (n : Nat) : Option SockAddr → List Dgram
  | none => []
  | some a =>
    match f with
    | none => []
    | some f => if a ∈ clients then [⟨frameDatagram f, n⟩] else []

/-- **One round**: it reads at most one frame and appends it to the queue of every registered read; it
receives at most the first datagram of the wire and registers its sender. -/
theorem pollRound_spec {w w' : World} {i : PollIn} (h : pollRound w i = some w') :
    ∃ (fr : Option (List UInt8)) (src : Option SockAddr),
      w'.tapLog = w.tapLog ++ fr.toList ∧
      (∀ r, queueOf w'.socks r =
        queueOf w.socks r ++ copyFor w.bridge.clients.addrs fr w.tapLog.length (addrOf w.socks r)) ∧
      (∀ r, addrOf w'.socks r = addrOf w.socks r) ∧
      w'.rxLog = w.rxLog ++ src.toList ∧ w.wire.map Prod.fst = src.toList ++ w'.wire.map Prod.fst ∧
      w'.bridge.clients.addrs = src.toList.foldl (Window.push maxClients) w.bridge.clients.addrs ∧
      w'.handleList = w.handleList ∧ w'.ov = w.ov ∧ w'.delivered = w.delivered ∧ w'.hist = w.hist ∧
      w'.nextHandleId = w.nextHandleId ∧ w'.socks.map UdpSock.id = w.socks.map UdpSock.id := by
  unfold pollRound at h
  split_ifs at h with hup
  obtain ⟨r, hr, rfl⟩ := Option.map_eq_some_iff.1 h
  have hsend : r.sendto = fun _ => true := by
    unfold PollIn.roundIn at hr
    split at hr <;> cases hr <;> rfl
  obtain ⟨hsends, hclients⟩ := round_spec w.bridge r hsend
  refine ⟨r.frameRead, r.senderOf (round w.bridge r), rfl, ?_, fun r' => addrOf_deliver _ _ _ r', rfl, ?_, ?_,
    rfl, rfl, rfl, rfl, rfl, ?_⟩
  · intro r'
    simp only
    rw [queueOf_deliver, hsends]
    congr 1
    cases addrOf w.socks r' with
    | none => rfl
    | some a =>
      cases r.frameRead with
      | none => rfl
      | some f =>
        simp only [copyFor]
        rw [broadcast_filter w.bridge.clients.nodup]
        split_ifs <;> rfl
  · show w.wire.map Prod.fst = _ ++ (w.wire.drop (r.senderOf (round w.bridge r)).toList.length).map Prod.fst
    cases hsrc : r.senderOf (round w.bridge r) with
    | none => rfl
    | some a =>
      obtain ⟨d, rest, hw⟩ := wire_of_senderOf hr hsrc
      rw [hw]
      rfl
  · simp only
    rw [hclients]
    cases r.senderOf (round w.bridge r) with
    | none => rfl
    | some a => rfl
  · simp only [deliver, List.map_map]
    rfl

/-! ## GetOverlappedResult -/

/-- The three outcomes. -/
theorem getOverlappedResult_cases (w : World) (h : Handle) (ov : OvPtr) :
    hookGetOverlappedResult w h ov = w ∨
    ∃ ctx req rest, getHandleContext w.handleList h = some ctx ∧ (w.ov ov).internal = statusPending ∧
      unlinkReq ov ctx.pending = (some req, rest) ∧
      ((∃ rx, recvLoop ctx (queueOf w.socks req) = (none, rx) ∧
          hookGetOverlappedResult w h ov = gorIncomplete w ctx rest req rx) ∨
        ∃ d rx, recvLoop ctx (queueOf w.socks req) = (some d, rx) ∧
          hookGetOverlappedResult w h ov = gorComplete w ctx rest req d) := by
  cases hc : getHandleContext w.handleList h with
  | none =>
    left
    simp only [hookGetOverlappedResult, hc]
  | some ctx =>
    by_cases hi : (w.ov ov).internal ≠ statusPending
    · left
      simp only [hookGetOverlappedResult, hc, if_pos hi]
    · rcases hu : unlinkReq ov ctx.pending with ⟨_ | req, rest⟩
      · left
        simp only [hookGetOverlappedResult, hc, if_neg hi, hu]
      · right
        refine ⟨ctx, req, rest, rfl, not_not.1 hi, hu, ?_⟩
        rcases hl : recvLoop ctx (queueOf w.socks req) with ⟨_ | d, rx⟩
        · left
          refine ⟨rx, rfl, ?_⟩
          simp only [hookGetOverlappedResult, hc, if_neg hi, hu, hl]
        · right
          refine ⟨d, rx, rfl, ?_⟩
          simp only [hookGetOverlappedResult, hc, if_neg hi, hu, hl]

/-! ## DeviceIoControl -/

/-- A request changes the filter of a context and nothing else. -/
@[simp] theorem ioctlContext_h (c : HandleContext) (code : UInt32) (input : List UInt8) :
    (ioctlContext c code input).h = c.h := by
  unfold ioctlContext
  split_ifs <;> rfl

@[simp] theorem ioctlContext_pending (c : HandleContext) (code : UInt32) (input : List UInt8) :
    (ioctlContext c code input).pending = c.pending := by
  unfold ioctlContext
  split_ifs <;> rfl

/-! ## WriteFile -/

/-- **What `WriteFile` leaves**: at most one frame datagram more on the wire, and if the handle is emulated the
`OVERLAPPED` with the byte count. -/
theorem hookWriteFile_spec {w w' : World} {h : Handle} {buf : List UInt8} {ov : Option OvPtr} {src : Option SockAddr}
    (hw : hookWriteFile w h buf ov src = some w') :
    ∃ pkt : Option (SockAddr × List UInt8),
      w' = { w with
        wire := w.wire ++ pkt.toList
        ov := if (getHandleContext w.handleList h).isSome then
            ov.elim w.ov fun p => Function.update w.ov p ⟨0, UInt32.ofNat buf.length⟩
          else w.ov } ∧
      ∀ x ∈ pkt, src = some x.1 ∧ ∃ f, x.2 = frameDatagram f := by
  unfold hookWriteFile at hw
  cases hc : getHandleContext w.handleList h with
  | none =>
    rw [hc] at hw
    obtain rfl := Option.some.inj hw
    exact ⟨none, by simp, by simp⟩
  | some ctx =>
    rw [hc] at hw
    dsimp only at hw
    split_ifs at hw with hsize hread hlen
    · obtain rfl := Option.some.inj hw
      refine ⟨src.map fun a => (a, frameDatagram ((buf.drop radminHeaderSize).take (radminHeaderRead buf).toNat)), ?_, ?_⟩
      · cases ov <;> rfl
      · intro x hx
        obtain ⟨a, rfl, rfl⟩ := Option.map_eq_some_iff.1 hx
        exact ⟨rfl, _, rfl⟩
    · obtain rfl := Option.some.inj hw
      refine ⟨none, ?_, by simp⟩
      cases ov <;> rfl
    · obtain rfl := Option.some.inj hw
      refine ⟨none, ?_, by simp⟩
      cases ov <;> simp

end Rvpn
