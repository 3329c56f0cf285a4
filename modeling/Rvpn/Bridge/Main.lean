import Rvpn.Lib.Window
import Rvpn.Bridge.Wire

/-!
# The bridge's main loop (linux_tap.c:261-368)

One round of `while (running)` is `round`: what `poll`, `read`, `recvfrom`, `sendto` and `write`
answer is its input, and it returns the next state, what was sent and written, the interface change
it executed and whether the loop goes on. `running` is never cleared, so the loop ends only where
the source has a `break`.

| here | there |
| --- | --- |
| `Clients`, `register` | `clients[MAX_CLIENTS]`, the client list update (`:298-317`) |
| `RxBuf`               | `uint8_t buf[2048]`, shared by both directions and never cleared |
| `tapToUdp`            | `:268-291` |
| `udpToTap`            | `:293-367` |
| `dispatch`, `handle…` | the `switch (cmd)` and the handlers' reads of `data` (`:79-200`) |
-/

namespace Rvpn

/-- The errors the loop tells apart. -/
inductive Errno where
  | eintr | eio | enetdown | einval
  | other (code : Nat)
deriving DecidableEq, Repr

/-- `sockaddr_in` of a loopback client. -/
structure SockAddr where
  ip : UInt32
  port : UInt16
deriving DecidableEq, Repr

/-! ## The client list -/

/-- `MAX_CLIENTS`. -/
def maxClients : Nat := 32

/-- `clients[0..nclients)`. -/
structure Clients where
  addrs : List SockAddr
  length_le : addrs.length ≤ maxClients
  nodup : addrs.Nodup

def Clients.empty : Clients := ⟨[], Nat.zero_le _, List.nodup_nil⟩

/-- An unknown sender is added; a full array drops its first slot and shifts. -/
def Clients.register (c : Clients) (src : SockAddr) : Clients :=
  ⟨Window.push maxClients c.addrs src, Window.length_push_le (by decide) src c.length_le,
    Window.nodup_push src c.nodup⟩

/-! ## The receive buffer -/

abbrev bufSize : Nat := 2048

/-- The longest frame behind a type byte, `sizeof(buf) - 1`. -/
def maxFrame : Nat := bufSize - 1

theorem maxFrame_succ : maxFrame + 1 = bufSize := rfl

structure RxBuf where
  bytes : List UInt8
  length_eq : bytes.length = bufSize

/-- A buffer with one byte throughout. -/
def RxBuf.filled (x : UInt8) : RxBuf := ⟨List.replicate bufSize x, List.length_replicate⟩

/-- The kernel copies `data` to `buf + off`, as far as there is room; the other bytes stay. -/
def RxBuf.put (b : RxBuf) (off : Nat) (data : List UInt8) : RxBuf where
  bytes := (b.bytes.take off ++ data ++ b.bytes.drop (off + data.length)).take bufSize
  length_eq := by
    have h := b.length_eq
    simp only [List.length_take, List.length_append, List.length_drop, h, bufSize] at *
    omega

/-- Bytes `off .. off + n` of the buffer. -/
def RxBuf.read (b : RxBuf) (off n : Nat) : List UInt8 := (b.bytes.drop off).take n

def RxBuf.byte (b : RxBuf) (i : Fin bufSize) : UInt8 := b.bytes.get (i.cast b.length_eq.symm)

theorem RxBuf.getElem?_put (b : RxBuf) (off : Nat) (data : List UInt8) {i : Nat} (hi : i < bufSize) :
    (b.put off data).bytes[i]? = if i < off ∨ off + data.length ≤ i then b.bytes[i]? else data[i - off]? := by
  have hlen := b.length_eq
  simp only [RxBuf.put, List.getElem?_take_of_lt hi]
  split_ifs with h
  · rcases h with h | h
    · rw [List.append_assoc, List.getElem?_append_left (by simp; omega), List.getElem?_take_of_lt h]
    · rw [List.getElem?_append_right (by simp; omega), List.getElem?_drop]
      congr 1
      simp only [List.length_append, List.length_take, hlen]
      omega
  · rw [List.append_assoc, List.getElem?_append_right (by simp; omega),
      List.getElem?_append_left (by simp; omega)]
    congr 1
    simp only [List.length_take, hlen]
    omega

theorem RxBuf.byte_eq (b : RxBuf) (i : Fin bufSize) : b.bytes[i.val]? = some (b.byte i) := by
  have hi : i.val < b.bytes.length := by rw [b.length_eq]; exact i.isLt
  rw [List.getElem?_eq_getElem hi]
  rfl

/-- What is read within a datagram that has just been received is the datagram. -/
theorem RxBuf.read_put_zero (b : RxBuf) {d : List UInt8} {off n : Nat} (h : off + n ≤ min d.length bufSize) :
    (b.put 0 d).read off n = (d.drop off).take n := by
  apply List.ext_getElem?
  intro k
  rw [RxBuf.read, List.getElem?_take, List.getElem?_take]
  split_ifs with hk
  · rw [List.getElem?_drop, List.getElem?_drop, RxBuf.getElem?_put b 0 d (by omega), if_neg (by omega)]
    rfl
  · rfl

theorem RxBuf.byte_put_zero (b : RxBuf) {d : List UInt8} (i : Fin bufSize) (h : i.val < d.length) :
    (b.put 0 d).byte i = d.get ⟨i, h⟩ := by
  have h1 := RxBuf.byte_eq (b.put 0 d) i
  rw [RxBuf.getElem?_put b 0 d i.isLt, if_neg (by omega), Nat.sub_zero, List.getElem?_eq_getElem h] at h1
  exact (Option.some.inj h1).symm

/-- A frame read to `buf + 1`, with `buf[0] = 0x00`, is sent as one datagram. -/
theorem RxBuf.read_frame (b : RxBuf) (frame : List UInt8) :
    ((b.put 1 frame).put 0 [0x00]).read 0 (min frame.length maxFrame + 1) =
      frameDatagram (frame.take maxFrame) := by
  have hmax := maxFrame_succ
  apply List.ext_getElem?
  intro k
  rw [RxBuf.read, List.getElem?_take, List.drop_zero, frameDatagram]
  cases k with
  | zero =>
    rw [if_pos (Nat.succ_pos _), RxBuf.getElem?_put _ 0 [0x00] (by decide)]
    rfl
  | succ k =>
    rw [List.getElem?_cons_succ, List.getElem?_take]
    by_cases hk : k < min frame.length maxFrame
    · rw [if_pos (by omega), if_pos (by omega), RxBuf.getElem?_put _ 0 [0x00] (by omega), if_pos (by simp),
        RxBuf.getElem?_put _ 1 frame (by omega), if_neg (by omega)]
      rfl
    · rw [if_neg (by omega)]
      split_ifs with h
      · exact (List.getElem?_eq_none (by omega)).symm
      · rfl

/-! ## Control commands -/

/-- The interface change a control datagram executes: the handler with what it read. -/
inductive IfaceChange where
  | setIpv4 (addr : List UInt8) (pfx : UInt8)
  | setIpv4Gw (gw : List UInt8)
  | setIpv6 (addr : List UInt8) (pfx : UInt8)
  | setMac (mac : List UInt8)
  | linkUp
  | linkDown
deriving DecidableEq, Repr

def handleSetIpv4 (data : List UInt8) : IfaceChange := .setIpv4 (data.take 4) (data.getD 4 0)
def handleSetIpv4Gw (data : List UInt8) : IfaceChange := .setIpv4Gw (data.take 4)
def handleSetIpv6 (data : List UInt8) : IfaceChange := .setIpv6 (data.take 16) (data.getD 16 0)
def handleSetMac (data : List UInt8) : IfaceChange := .setMac (data.take 6)

/-- The `switch (cmd)`; an unknown command is logged only. -/
def dispatch (cmd : UInt8) (data : List UInt8) : Option IfaceChange :=
  (TapCtrl.ofCode cmd).map fun
    | .setIpv4 => handleSetIpv4 data
    | .setIpv4Gw => handleSetIpv4Gw data
    | .setIpv6 => handleSetIpv6 data
    | .setMac => handleSetMac data
    | .linkUp => .linkUp
    | .linkDown => .linkDown

/-- A handler reads the bytes of its argument and no others. -/
theorem dispatch_congr {cmd : UInt8} {data data' : List UInt8}
    (h : ∀ c, TapCtrl.ofCode cmd = some c → data.take c.argLen = data'.take c.argLen) :
    dispatch cmd data = dispatch cmd data' := by
  unfold dispatch
  cases hc : TapCtrl.ofCode cmd with
  | none => rfl
  | some c =>
    have hargs := h c hc
    have htake : ∀ k ≤ c.argLen, data.take k = data'.take k := by
      intro k hk
      have := congrArg (List.take k) hargs
      rwa [List.take_take, List.take_take, Nat.min_eq_left hk] at this
    have hget : ∀ k < c.argLen, data.getD k 0 = data'.getD k 0 := by
      intro k hk
      have := congrArg (fun l : List UInt8 => l[k]?) hargs
      simp only [List.getElem?_take_of_lt hk] at this
      rw [List.getD_eq_getElem?_getD, List.getD_eq_getElem?_getD, this]
    cases c with
    | setIpv4 => simp only [Option.map_some, handleSetIpv4, htake 4 (by decide), hget 4 (by decide)]
    | setIpv4Gw => simp only [Option.map_some, handleSetIpv4Gw, htake 4 (by decide)]
    | setIpv6 => simp only [Option.map_some, handleSetIpv6, htake 16 (by decide), hget 16 (by decide)]
    | setMac => simp only [Option.map_some, handleSetMac, htake 6 (by decide)]
    | linkUp => rfl
    | linkDown => rfl

/-! ## One round -/

structure Bridge where
  clients : Clients
  buf : RxBuf

/-- The bridge at start; the buffer is an uninitialised local. -/
def Bridge.init (buf : RxBuf) : Bridge := ⟨Clients.empty, buf⟩

/-- What the system calls of one round answer. -/
structure RoundIn where
  /-- The error of `poll`, if it fails. -/
  poll : Option Errno
  /-- `read(tap_fd)`, when the TAP is readable. -/
  tap : Option (Except Errno (List UInt8))
  /-- `recvfrom(udp_sock)`, when the socket is readable. -/
  udp : Option (Except Errno (SockAddr × List UInt8))
  /-- Whether `sendto` to a client succeeds. -/
  sendto : SockAddr → Bool
  /-- `write(tap_fd, frame)`. -/
  write : List UInt8 → Except Errno Nat

/-- A round in which only one datagram arrives. -/
def RoundIn.datagram (src : SockAddr) (d : List UInt8) (write : List UInt8 → Except Errno Nat) : RoundIn :=
  ⟨none, none, some (.ok (src, d)), fun _ => true, write⟩

/-- How a part of the loop body ends: running on, `continue` or `break`. -/
inductive Flow where
  | fall | cont | brk
deriving DecidableEq, Repr

/-- What one round does. -/
structure RoundOut where
  st : Bridge
  /-- Datagrams sent to clients, in order. -/
  sends : List (SockAddr × List UInt8)
  /-- Frames passed to `write` on the TAP. -/
  writes : List (List UInt8)
  change : Option IfaceChange
  /-- `recvfrom` was called. -/
  recvd : Bool
  /-- The loop goes on. -/
  goesOn : Bool

/-- `errno == EIO || errno == ENETDOWN`. -/
def tolerated (e : Errno) : Bool := e = .eio || e = .enetdown

/-- `for (i = 0; i < nclients; i++) sendto(…)`; a failing `sendto` is reported and skipped. -/
def broadcast (clients : List SockAddr) (pkt : List UInt8) (sendto : SockAddr → Bool) : List (SockAddr × List UInt8) :=
  (clients.filter sendto).map fun a => (a, pkt)

/-- TAP → UDP. -/
def tapToUdp (b : Bridge) (i : RoundIn) : Bridge × List (SockAddr × List UInt8) × Flow :=
  match i.tap with
  | none => (b, [], .fall)
  | some (.error e) => (b, [], if tolerated e then .cont else .brk)
  | some (.ok frame) =>
    let buf := b.buf.put 1 frame
    let n := min frame.length maxFrame
    if n = 0 then ({ b with buf }, [], .brk)
    else
      let buf := buf.put 0 [0x00]
      ({ b with buf }, broadcast b.clients.addrs (buf.read 0 (n + 1)) i.sendto, .fall)

/-- The state once a datagram is in the buffer and its sender in the client list. -/
def Bridge.receive (b : Bridge) (src : SockAddr) (d : List UInt8) : Bridge :=
  ⟨b.clients.register src, b.buf.put 0 d⟩

/-- UDP → TAP: the frames written, the interface change and how the part ends. -/
def udpToTap (b : Bridge) (i : RoundIn) : Bridge × List (List UInt8) × Option IfaceChange × Flow :=
  match i.udp with
  | none => (b, [], none, .fall)
  | some (.error _) => (b, [], none, .cont)
  | some (.ok (src, d)) =>
    let b := b.receive src d
    let n := min d.length bufSize
    if n < 1 then (b, [], none, .cont)
    else
      let type := b.buf.byte 0
      if type = 0x01 then
        if n < 2 then (b, [], none, .cont)
        else (b, [], dispatch (b.buf.byte 1) (b.buf.read 2 (bufSize - 2)), .fall)
      else if type = 0x00 then
        let frame := b.buf.read 1 (n - 1)
        match i.write frame with
        | .error e => (b, [frame], none, if tolerated e then .cont else .brk)
        | .ok _ => (b, [frame], none, .fall)
      else (b, [], none, .fall)

def round (b : Bridge) (i : RoundIn) : RoundOut :=
  match i.poll with
  | some e => ⟨b, [], [], none, false, e = .eintr⟩
  | none =>
    let (b, sends, flow) := tapToUdp b i
    match flow with
    | .cont => ⟨b, sends, [], none, false, true⟩
    | .brk => ⟨b, sends, [], none, false, false⟩
    | .fall =>
      let (b, writes, change, flow) := udpToTap b i
      ⟨b, sends, writes, change, i.udp.isSome, flow ≠ .brk⟩

/-! ## What each kind of datagram does -/

variable {b : Bridge} {i : RoundIn} {src : SockAddr}

/-- A round that comes to its UDP part. -/
theorem round_of_fall {b' : Bridge} {sends : List (SockAddr × List UInt8)} (hp : i.poll = none)
    (ht : tapToUdp b i = (b', sends, .fall)) :
    round b i = ⟨(udpToTap b' i).1, sends, (udpToTap b' i).2.1, (udpToTap b' i).2.2.1,
      i.udp.isSome, (udpToTap b' i).2.2.2 ≠ .brk⟩ := by
  unfold round
  rw [hp, ht]

theorem tapToUdp_none (h : i.tap = none) : tapToUdp b i = (b, [], .fall) := by
  unfold tapToUdp
  rw [h]

theorem min_maxFrame_ne {frame : List UInt8} (hne : frame ≠ []) : min frame.length maxFrame ≠ 0 := by
  have hpos := List.length_pos_iff.2 hne
  have hmax : maxFrame = 2047 := rfl
  omega

theorem tapToUdp_frame {frame : List UInt8} (h : i.tap = some (.ok frame)) (hne : frame ≠ []) :
    tapToUdp b i = ({ b with buf := (b.buf.put 1 frame).put 0 [0x00] },
      broadcast b.clients.addrs (frameDatagram (frame.take maxFrame)) i.sendto, .fall) := by
  have hn := min_maxFrame_ne hne
  unfold tapToUdp
  rw [h]
  simp only [if_neg hn, RxBuf.read_frame]

theorem udpToTap_nil (h : i.udp = some (.ok (src, []))) :
    udpToTap b i = (b.receive src [], [], none, .cont) := by
  unfold udpToTap
  rw [h]
  simp

/-- A datagram of type `0x00`: what follows the type byte is written to the TAP. -/
theorem udpToTap_frame {f : List UInt8} (h : i.udp = some (.ok (src, 0x00 :: f))) :
    udpToTap b i = (b.receive src (0x00 :: f), [f.take maxFrame], none,
      match i.write (f.take maxFrame) with
      | .error e => if tolerated e then .cont else .brk
      | .ok _ => .fall) := by
  have hmax := maxFrame_succ
  have hn : ¬ min (0x00 :: f).length bufSize < 1 := by simp
  have htype : (b.receive src (0x00 :: f)).buf.byte 0 = 0x00 := RxBuf.byte_put_zero _ 0 (by simp)
  have hframe : (b.receive src (0x00 :: f)).buf.read 1 (min (0x00 :: f).length bufSize - 1) =
      f.take maxFrame := by
    rw [Bridge.receive, RxBuf.read_put_zero _ (by omega), List.drop_one, List.tail_cons]
    apply List.ext_getElem?
    intro k
    rw [List.getElem?_take, List.getElem?_take, List.length_cons]
    by_cases hk : k < f.length
    · congr 1
      simp only [eq_iff_iff]
      omega
    · rw [List.getElem?_eq_none (by omega), ite_self, ite_self]
  unfold udpToTap
  rw [h]
  simp only [if_neg hn, htype, hframe]
  rw [if_neg (by decide), if_pos trivial]
  cases i.write (f.take maxFrame) <;> rfl

/-- A control datagram without a command byte. -/
theorem udpToTap_noCmd (h : i.udp = some (.ok (src, [0x01]))) :
    udpToTap b i = (b.receive src [0x01], [], none, .cont) := by
  have htype : (b.receive src [0x01]).buf.byte 0 = 0x01 := RxBuf.byte_put_zero _ 0 (by simp)
  unfold udpToTap
  rw [h]
  simp [htype]

/-- A control datagram: the handlers read the whole buffer behind the command byte. -/
theorem udpToTap_control {cmd : UInt8} {args : List UInt8} (h : i.udp = some (.ok (src, 0x01 :: cmd :: args))) :
    udpToTap b i = (b.receive src (0x01 :: cmd :: args), [],
      dispatch cmd ((b.buf.put 0 (0x01 :: cmd :: args)).read 2 (bufSize - 2)), .fall) := by
  have hn : ¬ min (0x01 :: cmd :: args).length bufSize < 1 := by simp
  have hn2 : ¬ min (0x01 :: cmd :: args).length bufSize < 2 := by
    have hsize : bufSize = 2048 := rfl
    simp only [List.length_cons]
    omega
  have htype : (b.receive src (0x01 :: cmd :: args)).buf.byte 0 = 0x01 := RxBuf.byte_put_zero _ 0 (by simp)
  have hcmd : (b.receive src (0x01 :: cmd :: args)).buf.byte 1 = cmd := RxBuf.byte_put_zero _ 1 (by simp)
  unfold udpToTap
  rw [h]
  simp only [if_neg hn, if_neg hn2, htype, hcmd, if_pos]
  rfl

theorem udpToTap_other {t : UInt8} {d : List UInt8} (h : i.udp = some (.ok (src, t :: d))) (h0 : t ≠ 0x00)
    (h1 : t ≠ 0x01) : udpToTap b i = (b.receive src (t :: d), [], none, .fall) := by
  have hn : ¬ min (t :: d).length bufSize < 1 := by simp
  have htype : (b.receive src (t :: d)).buf.byte 0 = t := RxBuf.byte_put_zero _ 0 (by simp)
  unfold udpToTap
  rw [h]
  simp only [if_neg hn, htype, if_neg h0, if_neg h1]

/-- Whatever the datagram, the UDP part leaves it in the buffer and its sender in the client list. -/
theorem udpToTap_receive {d : List UInt8} (h : i.udp = some (.ok (src, d))) : (udpToTap b i).1 = b.receive src d := by
  cases d with
  | nil => rw [udpToTap_nil h]
  | cons t f =>
    by_cases h0 : t = 0x00
    · subst h0
      rw [udpToTap_frame h]
    · by_cases h1 : t = 0x01
      · subst h1
        cases f with
        | nil => rw [udpToTap_noCmd h]
        | cons cmd args => rw [udpToTap_control h]
      · rw [udpToTap_other h h0 h1]

theorem broadcast_filter {clients : List SockAddr} (hnd : clients.Nodup) (pkt : List UInt8) (a : SockAddr) :
    (broadcast clients pkt fun _ => true).filter (fun x => x.1 = a) = if a ∈ clients then [(a, pkt)] else [] := by
  induction clients with
  | nil => rfl
  | cons c cs ih =>
    obtain ⟨hc, hnd⟩ := List.nodup_cons.1 hnd
    have hcons : broadcast (c :: cs) pkt (fun _ => true) = (c, pkt) :: broadcast cs pkt fun _ => true := rfl
    rw [hcons]
    by_cases e : c = a
    · subst e
      rw [List.filter_cons_of_pos (by simp), ih hnd, if_neg hc, if_pos (by simp)]
    · rw [List.filter_cons_of_neg (by simpa using e), ih hnd]
      have hmem : a ∈ c :: cs ↔ a ∈ cs := by simp [Ne.symm e]
      simp only [hmem]

end Rvpn
