import Rvpn.Lib.Run
import Rvpn.Device.Basic

/-!
# Injector, loopback and bridge (inject.c, tap_client_udp.c, linux_tap.c)

One state holds the device handles of the injected process, the sockets it has open, the datagrams on
their way to the bridge, and the bridge. A step is one hook call or one round of the bridge's loop,
so a run is any interleaving of the two programs. Loopback is lossless and keeps the order: what is
sent to the bridge joins the end of `wire`, what the bridge sends joins the queue of the socket with
that address.

| here | there |
| --- | --- |
| `hookCreateFileW`, `hookCloseHandle` | `inject.c:244-290` (the device path only) |
| `hookReadFile`                       | `inject.c:294-378` |
| `hookWriteFile`                      | `inject.c:380-453` |
| `hookDeviceIoControl`                | `inject.c:474-573` |
| `hookGetOverlappedResult`            | `inject.c:575-696` |
| `tapClientSet`                       | `send_control` (`tap_client_udp.c:151-165`) |
| `pollRound`                          | one round of the bridge (`linux_tap.c:261-368`) |

A call on a handle that is not emulated goes to the real API and changes nothing here. Each call to
`socket` and `connect` that succeeds gets an identifier and a source address that are free at that
time. `tapLog`, `delivered`, `rxLog` and `hist` record what happened, for the statements only.
-/

namespace Rvpn

/-! ## The state -/

structure UdpSock where
  id : Socket
  addr : SockAddr
  rx : List Dgram

/-- `STATUS_PENDING`. -/
def statusPending : UInt32 := 0x103

structure Overlapped where
  internal : UInt32
  internalHigh : UInt32
deriving DecidableEq, Repr

/-- A read that was completed: the frame, and the bytes put into the caller's buffer. -/
structure Delivery where
  h : Handle
  ov : OvPtr
  seq : Nat
  frame : List UInt8
  copied : List UInt8
deriving DecidableEq, Repr

/-- A device call as the application makes it. -/
inductive CallEv where
  | opened (h : Handle)
  | closed (h : Handle)
  | ioctl (h : Handle) (code : UInt32) (input : List UInt8)
deriving DecidableEq, Repr

structure World where
  /-- `g_HandleList`, newest first. -/
  handleList : List HandleContext
  nextHandleId : UInt32
  /-- `g_isAnyTAPDriverActive`. -/
  tapActive : Bool
  ov : OvPtr → Overlapped
  socks : List UdpSock
  wire : List (SockAddr × List UInt8)
  bridge : Bridge
  bridgeUp : Bool
  /-- The frames the bridge has read from the TAP. -/
  tapLog : List (List UInt8)
  delivered : List Delivery
  /-- The senders of the datagrams the bridge has received. -/
  rxLog : List SockAddr
  /-- The device calls, latest first. -/
  hist : List CallEv

def World.init (tapActive : Bool) (ov : OvPtr → Overlapped) (buf : RxBuf) : World where
  handleList := []
  nextHandleId := 0x1000
  tapActive := tapActive
  ov := ov
  socks := []
  wire := []
  bridge := Bridge.init buf
  bridgeUp := true
  tapLog := []
  delivered := []
  rxLog := []
  hist := []

/-! ## Sockets -/

def findSock (socks : List UdpSock) (s : Socket) : Option UdpSock := socks.find? fun u => u.id == s

/-- The socket of a pending read, if it is open. -/
def sockOf (socks : List UdpSock) (r : PendingRead) : Option UdpSock := r.sock.bind (findSock socks)

/-- The datagrams waiting for a pending read. -/
def queueOf (socks : List UdpSock) (r : PendingRead) : List Dgram := ((sockOf socks r).map UdpSock.rx).getD []

/-- The source address of a pending read. -/
def addrOf (socks : List UdpSock) (r : PendingRead) : Option SockAddr := (sockOf socks r).map UdpSock.addr

def setRx (socks : List UdpSock) (s : Option Socket) (rx : List Dgram) : List UdpSock :=
  socks.map fun u => if s = some u.id then { u with rx } else u

def closeSock (socks : List UdpSock) (s : Option Socket) : List UdpSock :=
  socks.filter fun u => s ≠ some u.id

/-- Whether the identifier and the source address are free. -/
def canOpen (socks : List UdpSock) (s : Socket) (a : SockAddr) : Bool :=
  socks.all fun u => u.id ≠ s && u.addr ≠ a

/-- What the bridge sent arrives at the sockets; `seq` is the number of the frame. -/
def deliver (sends : List (SockAddr × List UInt8)) (seq : Nat) (socks : List UdpSock) : List UdpSock :=
  socks.map fun u =>
    { u with rx := u.rx ++ (sends.filter fun x => x.1 = u.addr).map fun x => ⟨x.2, seq⟩ }

/-! ## The hooks -/

def hookCreateFileW (w : World) : World :=
  let h := w.nextHandleId + 1
  { w with
    nextHandleId := h
    handleList := HandleContext.fresh h :: w.handleList
    hist := .opened h :: w.hist }

/-- The context is unlinked and freed; its requests and their sockets are not looked at. -/
def hookCloseHandle (w : World) (h : Handle) : World :=
  match getHandleContext w.handleList h with
  | none => w
  | some _ => { w with handleList := removeFakeHandle w.handleList h, hist := .closed h :: w.hist }

/-- `sk` is the socket and its source address, if `socket` and `connect` succeed. -/
def hookReadFile (w : World) (h : Handle) (ov : Option OvPtr) (buffer : Nat) (buflen : UInt32)
    (sk : Option (Socket × SockAddr)) : World :=
  match getHandleContext w.handleList h with
  | none => w
  | some ctx =>
    if !w.tapActive then w
    else match ov with
      | none => w
      | some ov =>
        let req : PendingRead := ⟨ov, buffer, buflen, sk.map Prod.fst⟩
        { w with
          socks := w.socks ++ (sk.map fun x => (⟨x.1, x.2, []⟩ : UdpSock)).toList
          wire := w.wire ++ (sk.map fun x => (x.2, regPacket)).toList
          handleList := setContext w.handleList { ctx with pending := enqueue ctx.pending req }
          ov := Function.update w.ov ov { w.ov ov with internal := statusPending } }

/-- The longest payload of one UDP datagram; `send` fails for a longer one. -/
def maxUdpPayload : Nat := 65507

/-- `none` is where `frame_len + RADMIN_HEADER_SIZE` wraps: the copy would read past the caller's buffer. For the lengths
from `2 ^ 32 - 8` to `2 ^ 32 - 2` it takes a block of 4 GiB first; where the heap refuses that, the hook sends nothing and
returns `TRUE`, and such a write has no outcome here either. `src` is the source address of the temporary socket, if
it can be opened. -/
def hookWriteFile (w : World) (h : Handle) (buf : List UInt8) (ov : Option OvPtr) (src : Option SockAddr) :
    Option World :=
  match getHandleContext w.handleList h with
  | none => some w
  | some _ =>
    let n := UInt32.ofNat buf.length
    let done (w : World) : World :=
      match ov with
      | none => w
      | some ov => { w with ov := Function.update w.ov ov ⟨0, n⟩ }
    let frameLen := radminHeaderRead buf
    if w.tapActive ∧ UInt32.ofNat radminHeaderSize ≤ n ∧ frameLen + UInt32.ofNat radminHeaderSize ≤ n then
      if radminHeaderSize + frameLen.toNat ≤ buf.length then
        let frame := (buf.drop radminHeaderSize).take frameLen.toNat
        let pkt := if frame.length < maxUdpPayload then src.map fun a => (a, frameDatagram frame) else none
        some (done { w with wire := w.wire ++ pkt.toList })
      else none
    else some (done w)

/-- Whether the `switch` leaves `ok` set, with the byte count. -/
def ioctlResult (code : UInt32) (inSize outSize : Nat) : Bool × UInt32 :=
  if code = 0x22C004 then
    -- GetFakeMacAddress always succeeds
    if 8 ≤ inSize ∧ 12 ≤ outSize then (true, 12) else (false, 0)
  else if code = 0x228014 then
    (inSize = 6, 0)
  else if code = 0x22801C then
    (4 ≤ inSize, 0)
  else if code = 0x224018 then
    if 4 ≤ outSize then (true, 4) else (false, 0)
  else if code = 0x224020 then
    if 1 ≤ outSize then (true, 1) else (false, 0)
  else (true, 0)

/-- The context after `DeviceIoControl`: only `0x228014` with six bytes writes to it. -/
def ioctlContext (ctx : HandleContext) (code : UInt32) (input : List UInt8) : HandleContext :=
  if hl : input.length = 6 then
    if code = 0x228014 then { ctx with mac := ⟨input.toArray, by simpa using hl⟩, macSet := true } else ctx
  else ctx

def hookDeviceIoControl (w : World) (h : Handle) (code : UInt32) (input : List UInt8) (outSize : Nat)
    (ov : Option OvPtr) : World :=
  match getHandleContext w.handleList h with
  | none => w
  | some ctx =>
    let (ok, bytesRet) := ioctlResult code input.length outSize
    { w with
      handleList := setContext w.handleList (ioctlContext ctx code input)
      -- ERROR_INVALID_PARAMETER
      ov := match ov with
        | none => w.ov
        | some ov => Function.update w.ov ov ⟨if ok then 0 else 87, bytesRet⟩
      hist := .ioctl h code input :: w.hist }

/-- No frame for the read: it is queued again, with the rest `rx` on its socket. -/
def gorIncomplete (w : World) (ctx : HandleContext) (rest : List PendingRead) (req : PendingRead) (rx : List Dgram) :
    World :=
  { w with
    handleList := setContext w.handleList { ctx with pending := enqueue rest req }
    socks := setRx w.socks req.sock rx }

/-- What goes to the caller's buffer: the header and the frame, `min(total, buflen)` bytes of them. -/
def copyOut (d : Dgram) (buflen : UInt32) : List UInt8 :=
  (radminHeaderWrite (UInt32.ofNat d.frame.length) ++ d.frame).take buflen.toNat

def deliveryOf (ctx : HandleContext) (req : PendingRead) (d : Dgram) : Delivery :=
  ⟨ctx.h, req.ov, d.seq, d.frame, copyOut d req.buflen⟩

/-- The read completes with `d`; its socket is closed. -/
def gorComplete (w : World) (ctx : HandleContext) (rest : List PendingRead) (req : PendingRead) (d : Dgram) : World :=
  { w with
    handleList := setContext w.handleList { ctx with pending := rest }
    socks := closeSock w.socks req.sock
    ov := Function.update w.ov req.ov ⟨0, UInt32.ofNat (copyOut d req.buflen).length⟩
    delivered := w.delivered ++ [deliveryOf ctx req d] }

def hookGetOverlappedResult (w : World) (h : Handle) (ov : OvPtr) : World :=
  match getHandleContext w.handleList h with
  | none => w
  | some ctx =>
    if (w.ov ov).internal ≠ statusPending then w
    else match unlinkReq ov ctx.pending with
      | (none, _) => w
      | (some req, rest) =>
        match recvLoop ctx (queueOf w.socks req) with
        | (none, rx) => gorIncomplete w ctx rest req rx
        | (some d, _) => gorComplete w ctx rest req d

/-- One datagram from a temporary socket. -/
def tapClientSet (w : World) (cmd : TapCtrl) (args : List UInt8) (src : SockAddr) : World :=
  { w with wire := w.wire ++ [(src, sendControl cmd args)] }

/-! ## The bridge -/

/-- What the system answers to the bridge in one round; a readable UDP socket gives the first
datagram of the wire. -/
structure PollIn where
  poll : Option Errno
  tap : Option (Except Errno (List UInt8))
  /-- `recvfrom`, when the socket is readable: an error, or the next datagram. -/
  udp : Option (Option Errno)
  write : List UInt8 → Except Errno Nat

/-- A round in which only a datagram is there. -/
def PollIn.datagram : PollIn := ⟨none, none, some none, fun f => .ok f.length⟩

/-- A round in which only a frame is there. -/
def PollIn.frame (f : List UInt8) : PollIn := ⟨none, some (.ok f), none, fun f => .ok f.length⟩

/-- The input of the round, if a datagram is there when one is to be read. -/
def PollIn.roundIn (i : PollIn) (wire : List (SockAddr × List UInt8)) : Option RoundIn :=
  match i.udp, wire with
  | none, _ => some ⟨i.poll, i.tap, none, fun _ => true, i.write⟩
  | some (some e), _ => some ⟨i.poll, i.tap, some (.error e), fun _ => true, i.write⟩
  | some none, x :: _ => some ⟨i.poll, i.tap, some (.ok x), fun _ => true, i.write⟩
  | some none, [] => none

/-- The frame the round reads from the TAP. -/
def RoundIn.frameRead (i : RoundIn) : Option (List UInt8) :=
  match i.poll, i.tap with
  | none, some (.ok f) => if f = [] then none else some (f.take maxFrame)
  | _, _ => none

/-- The sender of the datagram the round receives. -/
def RoundIn.senderOf (i : RoundIn) (o : RoundOut) : Option SockAddr :=
  match o.recvd, i.udp with
  | true, some (.ok x) => some x.1
  | _, _ => none

def pollRound (w : World) (i : PollIn) : Option World :=
  if w.bridgeUp then
    (i.roundIn w.wire).map fun r =>
      let o := round w.bridge r
      { w with
        bridge := o.st
        bridgeUp := o.goesOn
        socks := deliver o.sends w.tapLog.length w.socks
        tapLog := w.tapLog ++ r.frameRead.toList
        wire := w.wire.drop (r.senderOf o).toList.length
        rxLog := w.rxLog ++ (r.senderOf o).toList }
  else none

/-! ## Steps -/

inductive Act where
  | createFile
  | closeHandle (h : Handle)
  | deviceIoControl (h : Handle) (code : UInt32) (input : List UInt8) (outSize : Nat) (ov : Option OvPtr)
  | readFile (h : Handle) (ov : Option OvPtr) (buffer : Nat) (buflen : UInt32) (sk : Option (Socket × SockAddr))
  | writeFile (h : Handle) (buf : List UInt8) (ov : Option OvPtr) (src : Option SockAddr)
  | getOverlappedResult (h : Handle) (ov : OvPtr)
  | control (cmd : TapCtrl) (args : List UInt8) (src : SockAddr)
  | poll (i : PollIn)

/-- The source address a step takes for a new socket. -/
def Act.src : Act → Option SockAddr
  | .readFile _ _ _ _ sk => sk.map Prod.snd
  | .writeFile _ _ _ src => src
  | .control _ _ src => some src
  | _ => none

/-- A socket the system hands out is new among the open ones. -/
def Act.allowed (w : World) : Act → Bool
  | .readFile _ _ _ _ (some (s, a)) => canOpen w.socks s a
  | .writeFile _ _ _ (some a) | .control _ _ a => w.socks.all fun u => u.addr ≠ a
  | _ => true

def step (w : World) (a : Act) : Option World :=
  if a.allowed w then
    match a with
    | .createFile => some (hookCreateFileW w)
    | .closeHandle h => some (hookCloseHandle w h)
    | .deviceIoControl h code input outSize ov => some (hookDeviceIoControl w h code input outSize ov)
    | .readFile h ov buffer buflen sk => some (hookReadFile w h ov buffer buflen sk)
    | .writeFile h buf ov src => hookWriteFile w h buf ov src
    | .getOverlappedResult h ov => some (hookGetOverlappedResult w h ov)
    | .control cmd args src => some (tapClientSet w cmd args src)
    | .poll i => pollRound w i
  else none

/-- A state some run from the start leads to. -/
def World.Reachable (w : World) : Prop := ∃ tapActive ov buf, Lts.Reach step (World.init tapActive ov buf) w

theorem World.Reachable.run {w w' : World} (hw : w.Reachable) {as : List Act} (hr : Lts.run step w as = some w') :
    w'.Reachable := by
  obtain ⟨tapActive, ov, buf, h⟩ := hw
  exact ⟨tapActive, ov, buf, h.trans ⟨as, hr⟩⟩

/-! ## A small world -/

/-- One device handle, `0x1001`, with its filter set to `02:50:00:00:00:01`. -/
def filteredWorld : World :=
  hookDeviceIoControl (hookCreateFileW (.init true (fun _ => ⟨0, 0⟩) (RxBuf.filled 0)))
    0x1001 0x228014 [0x02, 0x50, 0x00, 0x00, 0x00, 0x01] 0 none

/-- A frame of 14 bytes to the broadcast address. -/
def broadcastFrame : List UInt8 := List.replicate 6 0xFF ++ List.replicate 8 0x00

theorem filteredWorld_reachable : filteredWorld.Reachable :=
  ⟨true, fun _ => ⟨0, 0⟩, RxBuf.filled 0,
    [.createFile, .deviceIoControl 0x1001 0x228014 [0x02, 0x50, 0x00, 0x00, 0x00, 0x01] 0 none], rfl⟩

end Rvpn
