import Rvpn.Lib.Run
import Rvpn.Lib.Slots
import Rvpn.Bridge.Exits

/-!
# The client array (linux_tap.c:215-317)

`Clients` is what the client list means. Here it is an array of 32 `sockaddr_in` with a count, searched
with `memcmp` and shifted with `memmove`, and a frame is sent in a loop over it. The rest of the round is
as in `round`.

| here | there |
| --- | --- |
| `ClientArray`     | `clients`, `nclients` (`:215-217`) |
| `sockaddrIn`      | the 16 bytes `recvfrom` fills in, `sin_zero` cleared by the kernel |
| `updateClients`   | `:300-317` |
| `sendLoop`        | `:284-291` |
| `roundMem`        | the body of `while (running)` |

`clientArray_queue` puts it together over whole runs.
-/

namespace Rvpn

/-! ## The array code -/

/-- `AF_INET`, the port in network order, the address as it lies in memory, eight zero bytes. -/
def sockaddrIn (a : SockAddr) : List UInt8 :=
  [0x02, 0x00] ++ (Bytes.leBytes 2 a.port.toNat).reverse ++ Bytes.leBytes 4 a.ip.toNat ++ List.replicate 8 0x00

/-- `sizeof(struct sockaddr_in)`. -/
def sizeofSockaddrIn : Nat := 16

/-- `memcmp(a, b, n)`: the difference at the first byte that differs. -/
def memcmp : List UInt8 → List UInt8 → Nat → Int
  | x :: xs, y :: ys, n + 1 => if x = y then memcmp xs ys n else (x.toNat : Int) - y.toNat
  | _, _, _ => 0

theorem neZero_bufSize : NeZero bufSize := ⟨by decide⟩

attribute [local instance] neZero_bufSize

abbrev ClientArray := Slots (List UInt8) maxClients

/-- Already present: nothing. Otherwise `clients[nclients++] = from`, or the oldest is shifted out. -/
def updateClients (c : ClientArray) (src : List UInt8) : ClientArray :=
  let found := c.search fun slot => memcmp slot src sizeofSockaddrIn = 0
  if !found then
    if c.count < maxClients then { c.set c.count src with count := c.count + 1 }
    else (c.memmove 0 1 (maxClients - 1) (by decide) (by decide)).set (maxClients - 1) src
  else c

/-- `sendto(udp_sock, buf, n + 1, 0, &clients[i], …)` for each client; its result is only reported. -/
def sendLoop (c : ClientArray) (pkt : List UInt8) : List (List UInt8 × List UInt8) :=
  c.collect fun slot => (slot, pkt)

structure BridgeMem where
  clients : ClientArray
  buf : RxBuf

/-- `clients` is a global, so zero at start. -/
def BridgeMem.init (buf : RxBuf) : BridgeMem := ⟨Slots.filled maxClients (List.replicate 16 0x00), buf⟩

/-- What one round does; `calls` are the destination and the packet of each `sendto`. -/
structure RoundMemOut where
  st : BridgeMem
  calls : List (List UInt8 × List UInt8)
  writes : List (List UInt8)
  change : Option IfaceChange
  recvd : Bool
  goesOn : Bool

/-- TAP → UDP. -/
def tapToUdpMem (m : BridgeMem) (i : RoundIn) : BridgeMem × List (List UInt8 × List UInt8) × Flow :=
  match i.tap with
  | none => (m, [], .fall)
  | some (.error e) => (m, [], if tolerated e then .cont else .brk)
  | some (.ok frame) =>
    let buf := m.buf.put 1 frame
    let n := min frame.length maxFrame
    if n = 0 then ({ m with buf }, [], .brk)
    else
      let buf := buf.put 0 [0x00]
      ({ m with buf }, sendLoop m.clients (buf.read 0 (n + 1)), .fall)

/-- UDP → TAP. -/
def udpToTapMem (m : BridgeMem) (i : RoundIn) : BridgeMem × List (List UInt8) × Option IfaceChange × Flow :=
  match i.udp with
  | none => (m, [], none, .fall)
  | some (.error _) => (m, [], none, .cont)
  | some (.ok (src, d)) =>
    let m : BridgeMem := ⟨updateClients m.clients (sockaddrIn src), m.buf.put 0 d⟩
    let n := min d.length bufSize
    if n < 1 then (m, [], none, .cont)
    else
      let type := m.buf.byte 0
      if type = 0x01 then
        if n < 2 then (m, [], none, .cont)
        else (m, [], dispatch (m.buf.byte 1) (m.buf.read 2 (bufSize - 2)), .fall)
      else if type = 0x00 then
        let frame := m.buf.read 1 (n - 1)
        match i.write frame with
        | .error e => (m, [frame], none, if tolerated e then .cont else .brk)
        | .ok _ => (m, [frame], none, .fall)
      else (m, [], none, .fall)

def roundMem (m : BridgeMem) (i : RoundIn) : RoundMemOut :=
  match i.poll with
  | some e => ⟨m, [], [], none, false, e = .eintr⟩
  | none =>
    let (m, calls, flow) := tapToUdpMem m i
    match flow with
    | .cont => ⟨m, calls, [], none, false, true⟩
    | .brk => ⟨m, calls, [], none, false, false⟩
    | .fall =>
      let (m, writes, change, flow) := udpToTapMem m i
      ⟨m, calls, writes, change, i.udp.isSome, flow ≠ .brk⟩

/-! ## Comparing addresses -/

@[simp] theorem length_sockaddrIn (a : SockAddr) : (sockaddrIn a).length = sizeofSockaddrIn := by
  simp [sockaddrIn, sizeofSockaddrIn]

theorem memcmp_eq_zero_iff {xs ys : List UInt8} (n : Nat) (hx : xs.length = n) (hy : ys.length = n) :
    memcmp xs ys n = 0 ↔ xs = ys := by
  induction n generalizing xs ys with
  | zero =>
    obtain rfl := List.length_eq_zero_iff.1 hx
    obtain rfl := List.length_eq_zero_iff.1 hy
    simp [memcmp]
  | succ n ih =>
    obtain ⟨x, xs, rfl⟩ := List.exists_cons_of_length_eq_add_one hx
    obtain ⟨y, ys, rfl⟩ := List.exists_cons_of_length_eq_add_one hy
    rw [memcmp]
    by_cases hxy : x = y
    · subst hxy
      rw [if_pos rfl, ih (by simpa using hx) (by simpa using hy)]
      simp
    · have hne : (x.toNat : Int) - y.toNat ≠ 0 := by
        intro h0
        exact hxy (UInt8.toNat_inj.1 (by omega))
      simp [hxy, hne]

/-- `memcmp` tells senders apart by address and port. -/
theorem sockaddrIn_inj {a b : SockAddr} : sockaddrIn a = sockaddrIn b ↔ a = b := by
  constructor
  · intro h
    have h1 := List.append_cancel_right h
    obtain ⟨h2, hip⟩ := List.append_inj h1 (by simp)
    have hport := List.reverse_injective (List.append_cancel_left h2)
    have hipn : a.ip.toNat = b.ip.toNat := by
      rw [← Bytes.ofLE_leBytes_of_lt (k := 4) a.ip.toNat_lt, hip, Bytes.ofLE_leBytes_of_lt (k := 4) b.ip.toNat_lt]
    have hportn : a.port.toNat = b.port.toNat := by
      rw [← Bytes.ofLE_leBytes_of_lt (k := 2) a.port.toNat_lt, hport,
        Bytes.ofLE_leBytes_of_lt (k := 2) b.port.toNat_lt]
    cases a
    cases b
    simp only [SockAddr.mk.injEq]
    exact ⟨UInt32.toNat_inj.1 hipn, UInt16.toNat_inj.1 hportn⟩
  · rintro rfl
    rfl

/-! ## Simulation -/

/-- The used slots are the clients, in order. -/
structure Stores (c : ClientArray) (cs : Clients) : Prop where
  count_le : c.count ≤ maxClients
  live : c.live = cs.addrs.map sockaddrIn

theorem Stores.empty (a : List UInt8) : Stores (Slots.filled maxClients a) Clients.empty :=
  ⟨Nat.zero_le _, rfl⟩

variable {c : ClientArray} {cs : Clients} {m : BridgeMem} {b : Bridge}

/-- The search finds exactly the clients. -/
theorem Stores.search_iff (h : Stores c cs) (src : SockAddr) :
    c.search (fun slot => memcmp slot (sockaddrIn src) sizeofSockaddrIn = 0) = true ↔ src ∈ cs.addrs := by
  rw [Slots.search_eq, h.live, List.any_map, List.any_eq_true]
  have hcmp : ∀ a, memcmp (sockaddrIn a) (sockaddrIn src) sizeofSockaddrIn = 0 ↔ a = src := by
    intro a
    rw [memcmp_eq_zero_iff _ (length_sockaddrIn a) (length_sockaddrIn src), sockaddrIn_inj]
  constructor
  · rintro ⟨a, ha, heq⟩
    simp only [Function.comp_apply, decide_eq_true_eq] at heq
    exact (hcmp a).1 heq ▸ ha
  · intro hmem
    exact ⟨src, hmem, by simpa using (hcmp src).2 rfl⟩

/-- **The update** of the array is the update of the list. -/
theorem Stores.update (h : Stores c cs) (src : SockAddr) :
    Stores (updateClients c (sockaddrIn src)) (cs.register src) := by
  have hlen : c.count = cs.addrs.length := by
    rw [← Slots.length_live h.count_le, h.live, List.length_map]
  have hreg : (cs.register src).addrs = Window.push maxClients cs.addrs src := rfl
  unfold updateClients
  by_cases hmem : src ∈ cs.addrs
  · have hfound := (h.search_iff src).2 hmem
    rw [hfound]
    refine ⟨h.count_le, ?_⟩
    rw [hreg, Window.push, if_pos hmem]
    exact h.live
  · have hfound : c.search (fun slot => memcmp slot (sockaddrIn src) sizeofSockaddrIn = 0) = false :=
      Bool.eq_false_iff.2 fun hs => hmem ((h.search_iff src).1 hs)
    rw [hfound]
    simp only [Bool.not_false, if_true]
    by_cases hroom : c.count < maxClients
    · rw [if_pos hroom]
      refine ⟨hroom, ?_⟩
      rw [Slots.live_append hroom, h.live, hreg, Window.push, if_neg hmem, if_pos (hlen ▸ hroom), List.map_append]
      rfl
    · have hfull : c.count = maxClients := Nat.le_antisymm h.count_le (Nat.le_of_not_lt hroom)
      rw [if_neg hroom]
      refine ⟨h.count_le, ?_⟩
      rw [Slots.live_shift hfull, h.live, hreg, Window.push, if_neg hmem, if_neg (hlen ▸ hroom), List.map_append,
        List.map_tail]
      rfl

/-- The two states of the bridge agree. -/
structure Sim (m : BridgeMem) (b : Bridge) : Prop where
  clients : Stores m.clients b.clients
  buf : m.buf = b.buf

theorem sim_init (buf : RxBuf) : Sim (BridgeMem.init buf) (Bridge.init buf) := ⟨Stores.empty _, rfl⟩

/-- One call for each client, in order. -/
theorem sendLoop_eq (c : ClientArray) (pkt : List UInt8) : sendLoop c pkt = c.live.map fun slot => (slot, pkt) :=
  Slots.collect_eq c _

/-- `read` gave a frame, so it is sent. -/
theorem tapToUdpMem_frame {i : RoundIn} {frame : List UInt8} (h : i.tap = some (.ok frame)) (hne : frame ≠ []) :
    tapToUdpMem m i = ({ m with buf := (m.buf.put 1 frame).put 0 [0x00] },
      m.clients.live.map fun slot => (slot, frameDatagram (frame.take maxFrame)), .fall) := by
  have hn := min_maxFrame_ne hne
  unfold tapToUdpMem
  rw [h]
  simp only [if_neg hn, RxBuf.read_frame, sendLoop_eq]

theorem Sim.tapToUdp (h : Sim m b) (i : RoundIn) :
    Sim (tapToUdpMem m i).1 (tapToUdp b i).1 ∧ (tapToUdpMem m i).2.2 = (Rvpn.tapToUdp b i).2.2 := by
  unfold tapToUdpMem Rvpn.tapToUdp
  cases ht : i.tap with
  | none => exact ⟨h, rfl⟩
  | some r =>
    cases r with
    | error e => exact ⟨h, rfl⟩
    | ok frame =>
      dsimp only
      by_cases hn : min frame.length maxFrame = 0
      · rw [if_pos hn, if_pos hn]
        exact ⟨⟨h.clients, by rw [h.buf]⟩, rfl⟩
      · rw [if_neg hn, if_neg hn]
        exact ⟨⟨h.clients, by rw [h.buf]⟩, rfl⟩

theorem Sim.udpToTap (h : Sim m b) (i : RoundIn) :
    Sim (udpToTapMem m i).1 (udpToTap b i).1 ∧ (udpToTapMem m i).2 = (Rvpn.udpToTap b i).2 := by
  unfold udpToTapMem
  cases hu : i.udp with
  | none => simpa [Rvpn.udpToTap, hu] using h
  | some r =>
    rcases r with e | ⟨src, d⟩
    · simpa [Rvpn.udpToTap, hu] using h
    have hrecv : Sim ⟨updateClients m.clients (sockaddrIn src), m.buf.put 0 d⟩ (b.receive src d) :=
      ⟨h.clients.update src, by rw [h.buf]; rfl⟩
    have hbuf : m.buf.put 0 d = (b.receive src d).buf := hrecv.buf
    rw [udpToTap_receive hu]
    unfold Rvpn.udpToTap
    simp only [hu, hbuf] at hrecv ⊢
    split_ifs
    · exact ⟨hrecv, rfl⟩
    · exact ⟨hrecv, rfl⟩
    · exact ⟨hrecv, rfl⟩
    · cases i.write ((b.receive src d).buf.read 1 (min d.length bufSize - 1)) with
      | error e => exact ⟨hrecv, rfl⟩
      | ok k => exact ⟨hrecv, rfl⟩
    · exact ⟨hrecv, rfl⟩

/-- **One round** of the array code is one round of the bridge. -/
theorem Sim.round (h : Sim m b) (i : RoundIn) :
    Sim (roundMem m i).st (round b i).st ∧ (roundMem m i).writes = (Rvpn.round b i).writes ∧
      (roundMem m i).change = (Rvpn.round b i).change ∧ (roundMem m i).goesOn = (Rvpn.round b i).goesOn := by
  unfold roundMem Rvpn.round
  cases hp : i.poll with
  | some e => exact ⟨h, rfl, rfl, rfl⟩
  | none =>
    obtain ⟨htap, hflow⟩ := h.tapToUdp i
    rcases hm : tapToUdpMem m i with ⟨m', calls, flow⟩
    rcases hb : Rvpn.tapToUdp b i with ⟨b', sends, flow'⟩
    rw [hm, hb] at htap hflow
    obtain rfl : flow = flow' := hflow
    cases flow with
    | cont => exact ⟨htap, rfl, rfl, rfl⟩
    | brk => exact ⟨htap, rfl, rfl, rfl⟩
    | fall =>
      obtain ⟨hudp, hout⟩ := htap.udpToTap i
      refine ⟨hudp, ?_⟩
      simp only [hout, and_self]

/-! ## Runs -/

/-- One round that does not end the loop. -/
def stepMem (m : BridgeMem) (i : RoundIn) : Option BridgeMem :=
  if (roundMem m i).goesOn then some (roundMem m i).st else none

/-- The sender of the datagram that `recvfrom` gives in the round; `poll` and the TAP part come first. -/
def RoundIn.sender (i : RoundIn) : Option SockAddr :=
  match i.poll, i.tap, i.udp with
  | none, none, some (.ok (src, _)) => some src
  | none, some (.ok f), some (.ok (src, _)) => if f = [] then none else some src
  | _, _, _ => none

/-- The queue the array stands for: capacity 32, a sender that is not in it joins the end. -/
def clientQueue (is : List RoundIn) : List SockAddr :=
  (is.filterMap RoundIn.sender).foldl (Window.push maxClients) []

/-- A round registers its sender, and changes nothing else in the client list. -/
theorem round_clients (b : Bridge) (i : RoundIn) :
    (round b i).st.clients.addrs = i.sender.toList.foldl (Window.push maxClients) b.clients.addrs := by
  cases hp : i.poll with
  | some e => simp [round, RoundIn.sender, hp]
  | none =>
    cases ht : i.tap with
    | none =>
      have hfall := tapToUdp_none (b := b) ht
      rw [round_of_fall hp hfall]
      cases hu : i.udp with
      | none => simp [udpToTap, RoundIn.sender, hp, ht, hu]
      | some r =>
        rcases r with e | ⟨src, d⟩
        · simp [udpToTap, RoundIn.sender, hp, ht, hu]
        · rw [udpToTap_receive hu]
          simp [RoundIn.sender, hp, ht, hu, Bridge.receive, Clients.register]
    | some r =>
      cases r with
      | error e =>
        have htap : tapToUdp b i = (b, [], if tolerated e then .cont else .brk) := by
          unfold tapToUdp
          rw [ht]
        cases he : tolerated e <;> simp [round, RoundIn.sender, hp, ht, htap, he]
      | ok f =>
        by_cases hf : f = []
        · subst hf
          rcases hu : i.udp with _ | _ | ⟨src, d⟩ <;> simp [round, tapToUdp, RoundIn.sender, hp, ht, hu]
        · rw [round_of_fall hp (tapToUdp_frame ht hf)]
          cases hu : i.udp with
          | none => simp [udpToTap, RoundIn.sender, hp, ht, hu]
          | some r =>
            rcases r with e | ⟨src, d⟩
            · simp [udpToTap, RoundIn.sender, hp, ht, hu]
            · rw [udpToTap_receive hu]
              simp [RoundIn.sender, hp, ht, hu, hf, Bridge.receive, Clients.register]

/-- **The run**: the array goes through the states of the queue. -/
theorem run_stores {is : List RoundIn} (h : Sim m b) {m' : BridgeMem} (hr : Lts.run stepMem m is = some m') :
    ∃ b', Sim m' b' ∧
      b'.clients.addrs = (is.filterMap RoundIn.sender).foldl (Window.push maxClients) b.clients.addrs := by
  induction is generalizing m b with
  | nil =>
    obtain rfl := Option.some.inj hr
    exact ⟨b, h, rfl⟩
  | cons i is ih =>
    obtain ⟨m₁, hstep, hrest⟩ := Lts.run_cons.1 hr
    unfold stepMem at hstep
    split_ifs at hstep
    obtain rfl := Option.some.inj hstep
    obtain ⟨b', hsim, haddrs⟩ := ih (h.round i).1 hrest
    refine ⟨b', hsim, ?_⟩
    rw [haddrs, round_clients]
    cases hs : i.sender <;> simp [hs]

theorem mem_push {l : List SockAddr} (a : SockAddr) : a ∈ Window.push maxClients l a := by
  unfold Window.push
  split_ifs <;> simp_all

/-- **The client list and the broadcast**, in every state a run of rounds that do not end the loop leads to. -/
theorem clientArray_queue (buf : RxBuf) (is : List RoundIn) (m : BridgeMem)
    (h : Lts.run stepMem (BridgeMem.init buf) is = some m) :
    m.clients.count ≤ 32 ∧ m.clients.live.Nodup ∧
      m.clients.live = (clientQueue is).map sockaddrIn ∧
      (∀ src, (is.filterMap RoundIn.sender).getLast? = some src → sockaddrIn src ∈ m.clients.live) ∧
      (∀ i f, i.poll = none → i.tap = some (.ok f) → 1 ≤ f.length → f.length ≤ 2047 →
        (roundMem m i).calls = m.clients.live.map fun slot => (slot, 0x00 :: f)) ∧
      ∀ i, (∀ f, i.tap ≠ some (.ok f)) → (roundMem m i).calls = [] := by
  obtain ⟨b, hsim, haddrs⟩ := run_stores (sim_init buf) h
  have hlive : m.clients.live = (clientQueue is).map sockaddrIn := by
    rw [hsim.clients.live, haddrs]
    rfl
  refine ⟨hsim.clients.count_le, ?_, hlive, ?_, ?_, ?_⟩
  · rw [hsim.clients.live]
    exact b.clients.nodup.map fun x y hxy => sockaddrIn_inj.1 hxy
  · intro src hlast
    obtain ⟨pre, hpre⟩ := List.getLast?_eq_some_iff.1 hlast
    rw [hlive, clientQueue, hpre, List.foldl_append]
    exact List.mem_map_of_mem (mem_push src)
  · intro i f hp ht hpos hle
    have hne : f ≠ [] := List.length_pos_iff.1 hpos
    have hcut : f.take maxFrame = f := List.take_of_length_le hle
    unfold roundMem
    rw [hp, tapToUdpMem_frame ht hne, hcut]
    rfl
  · intro i hno
    unfold roundMem
    cases hp : i.poll with
    | some e => rfl
    | none =>
      cases ht : i.tap with
      | none => simp [tapToUdpMem, ht]
      | some r =>
        cases r with
        | error e => cases he : tolerated e <;> simp [tapToUdpMem, ht, he]
        | ok f => exact absurd ht (hno f)

/-- One empty datagram from port 40001, then a frame of three bytes. -/
theorem clientArray_queue_one : ∃ m,
    Lts.run stepMem (BridgeMem.init (RxBuf.filled 0)) [.datagram ⟨0x0100007F, 40001⟩ [] fun _ => .ok 0] = some m ∧
      (roundMem m ⟨none, some (.ok [1, 2, 3]), none, fun _ => true, fun _ => .ok 0⟩).calls =
        [(sockaddrIn ⟨0x0100007F, 40001⟩, [0, 1, 2, 3])] := by
  refine ⟨_, rfl, ?_⟩
  obtain ⟨-, -, hlive, -, hcalls, -⟩ := clientArray_queue (RxBuf.filled 0)
    [.datagram ⟨0x0100007F, 40001⟩ [] fun _ => .ok 0] _ rfl
  rw [hcalls _ [1, 2, 3] rfl rfl (by decide) (by decide), hlive]
  rfl

end Rvpn
