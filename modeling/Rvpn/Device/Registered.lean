import Rvpn.Lib.Window
import Rvpn.Device.Queues

/-!
# How long a read stays registered (linux_tap.c:298-317)

Every datagram enters its sender into `clients[32]`: the registration of a read, but also each frame
and each control command, which come from temporary sockets. With a source address of its own for
every socket the list is the last 32 senders, so a read is registered for as long as fewer than 32
further datagrams have been received, whatever the number of pending reads.

* `ClientsInv` — the list is the window over all senders so far;
* `registered_iff` — in every run, when a pending read is in the list and gets the frames;
* `read_unregistered` — one pending read, 32 control commands: it is dropped.
-/

namespace Rvpn

open Lts Window

/-- The socket a step opens gets a source address no datagram has been sent from. -/
def FreshSource (w : World) (a : Act) : Prop :=
  ∀ src, a.src = some src → src ∉ w.rxLog ++ w.wire.map Prod.fst

/-- No sender occurs twice, and the client list is the window over the senders received from. -/
structure ClientsInv (w : World) : Prop where
  senders : (w.rxLog ++ w.wire.map Prod.fst).Nodup
  clients : w.bridge.clients.addrs = w.rxLog.foldl (push maxClients) []

theorem clientsInv_init (tapActive : Bool) (ov : OvPtr → Overlapped) (buf : RxBuf) :
    ClientsInv (World.init tapActive ov buf) := ⟨by simp [World.init], rfl⟩

/-- A step of the injector sends at most one datagram, from its new socket, and does not touch the bridge. -/
theorem step_sends {w w' : World} {a : Act} (hs : step w a = some w') (hp : ∀ i, a ≠ .poll i) :
    w'.rxLog = w.rxLog ∧ w'.bridge = w.bridge ∧
      (w'.wire = w.wire ∨ ∃ src d, a.src = some src ∧ w'.wire = w.wire ++ [(src, d)]) := by
  unfold step at hs
  split_ifs at hs
  cases a with
  | createFile =>
    obtain rfl := Option.some.inj hs
    exact ⟨rfl, rfl, .inl rfl⟩
  | closeHandle h =>
    obtain rfl := Option.some.inj hs
    unfold hookCloseHandle
    split <;> exact ⟨rfl, rfl, .inl rfl⟩
  | deviceIoControl h code input outSize ov =>
    obtain rfl := Option.some.inj hs
    unfold hookDeviceIoControl
    split <;> exact ⟨rfl, rfl, .inl rfl⟩
  | readFile h ov buffer buflen sk =>
    obtain rfl := Option.some.inj hs
    unfold hookReadFile
    split
    · exact ⟨rfl, rfl, .inl rfl⟩
    · split_ifs
      · exact ⟨rfl, rfl, .inl rfl⟩
      · cases ov with
        | none => exact ⟨rfl, rfl, .inl rfl⟩
        | some ov =>
          cases sk with
          | none => exact ⟨rfl, rfl, .inl (by simp)⟩
          | some x => exact ⟨rfl, rfl, .inr ⟨x.2, regPacket, rfl, rfl⟩⟩
  | writeFile h buf ov src =>
    obtain ⟨pkt, rfl, hpkt⟩ := hookWriteFile_spec hs
    cases pkt with
    | none => exact ⟨rfl, rfl, .inl (by simp)⟩
    | some x => exact ⟨rfl, rfl, .inr ⟨x.1, x.2, (hpkt x rfl).1, rfl⟩⟩
  | getOverlappedResult h ov =>
    obtain rfl := Option.some.inj hs
    rcases getOverlappedResult_cases w h ov with he | ⟨ctx, req, rest, -, -, -, ⟨rx, -, he⟩ | ⟨x, rx, -, he⟩⟩ <;>
      rw [he] <;> exact ⟨rfl, rfl, .inl rfl⟩
  | control cmd args src =>
    obtain rfl := Option.some.inj hs
    exact ⟨rfl, rfl, .inr ⟨src, _, rfl, rfl⟩⟩
  | poll i => exact absurd rfl (hp i)

theorem clientsInv_step {w w' : World} (hw : ClientsInv w) {a : Act} (hf : FreshSource w a)
    (hs : step w a = some w') : ClientsInv w' := by
  by_cases hp : ∃ i, a = .poll i
  · obtain ⟨i, rfl⟩ := hp
    simp only [step, Act.allowed, if_true] at hs
    obtain ⟨fr, src, -, -, -, hlog, hwire, hclients, -⟩ := pollRound_spec hs
    refine ⟨?_, ?_⟩
    · have hnd := hw.senders
      rw [hwire, ← List.append_assoc] at hnd
      rwa [hlog]
    · rw [hclients, hlog, List.foldl_append, hw.clients]
  · obtain ⟨hlog, hbridge, hwire⟩ := step_sends hs fun i hi => hp ⟨i, hi⟩
    refine ⟨?_, by rw [hbridge, hlog, hw.clients]⟩
    rcases hwire with hwire | ⟨src, d, hsrc, hwire⟩
    · rw [hlog, hwire]
      exact hw.senders
    · rw [hlog, hwire, List.map_append, ← List.append_assoc]
      refine List.nodup_append.2 ⟨hw.senders, by simp, ?_⟩
      intro x hx y hy
      obtain rfl : y = src := by simpa using hy
      exact fun e => hf y hsrc (e ▸ hx)

theorem clientsInv_run {tapActive : Bool} {ov : OvPtr → Overlapped} {buf : RxBuf} {as : List Act} {w : World}
    (hg : Guarded step FreshSource (World.init tapActive ov buf) as)
    (hr : run step (World.init tapActive ov buf) as = some w) : ClientsInv w :=
  hg.invariant (fun _ _ _ hw hf hs => clientsInv_step hw hf hs) (clientsInv_init tapActive ov buf) hr

/-- **How long a read stays registered**: in every run in which each socket has a source address of its
own, the address of a read whose socket is open and whose registration was received is in the client
list exactly while fewer than 32 further datagrams have been received, and it is exactly then that a
round of the bridge sends the frame it reads to that read. -/
theorem registered_iff (tapActive : Bool) (ov : OvPtr → Overlapped) (buf : RxBuf) (as : List Act) (w : World)
    (hg : Guarded step FreshSource (World.init tapActive ov buf) as)
    (hr : run step (World.init tapActive ov buf) as = some w)
    (r : PendingRead) (a : SockAddr) (ha : addrOf w.socks r = some a)
    (before after : List SockAddr) (hlog : w.rxLog = before ++ a :: after) :
    (a ∈ w.bridge.clients.addrs ↔ after.length < maxClients) ∧
    ∀ i w', pollRound w i = some w' → ∃ fr : Option (List UInt8), w'.tapLog = w.tapLog ++ fr.toList ∧
      queueOf w'.socks r = queueOf w.socks r ++
        (if after.length < maxClients then fr.toList.map fun f => ⟨frameDatagram f, w.tapLog.length⟩ else []) := by
  have hw := clientsInv_run hg hr
  have hmem : a ∈ w.bridge.clients.addrs ↔ after.length < maxClients := by
    have hnd := (List.nodup_append.1 hw.senders).1
    rw [hw.clients, hlog]
    rw [hlog] at hnd
    exact mem_foldl_push (by decide) hnd
  refine ⟨hmem, ?_⟩
  intro i w' hs
  obtain ⟨fr, src, htap, hqueue, -⟩ := pollRound_spec hs
  refine ⟨fr, htap, ?_⟩
  rw [hqueue, ha]
  congr 1
  cases fr with
  | none => simp [copyFor]
  | some f => simp [copyFor, hmem]

/-! ## One read and 32 control commands -/

def loopback (port : UInt16) : SockAddr := ⟨0x0100007F, port⟩

/-- A handle is opened, and its one read is registered. -/
def oneRead : List Act :=
  [.createFile, .readFile 0x1001 (some 1) 0 2048 (some (1, loopback 40000)), .poll .datagram]

/-- The registration of one read was the last datagram, and the next frame is sent to it. -/
theorem registered_iff_one : ∃ w, run step (World.init true (fun _ => ⟨0, 0⟩) (RxBuf.filled 0)) oneRead = some w ∧
    (loopback 40000 ∈ w.bridge.clients.addrs ↔ 0 < maxClients) ∧
    ∀ i w', pollRound w i = some w' → ∃ fr : Option (List UInt8), w'.tapLog = w.tapLog ++ fr.toList ∧
      queueOf w'.socks ⟨1, 0, 2048, some 1⟩ = queueOf w.socks ⟨1, 0, 2048, some 1⟩ ++
        (if 0 < maxClients then fr.toList.map fun f => ⟨frameDatagram f, w.tapLog.length⟩ else []) := by
  have hg : Guarded step FreshSource (World.init true (fun _ => ⟨0, 0⟩) (RxBuf.filled 0)) oneRead := by
    refine .cons ?_ rfl (.cons ?_ rfl (.cons ?_ rfl trivial))
    · intro src hsrc
      cases hsrc
    · intro src _ hm
      cases hm
    · intro src hsrc
      cases hsrc
  exact ⟨_, rfl, registered_iff true _ _ oneRead _ hg rfl ⟨1, 0, 2048, some 1⟩ (loopback 40000) rfl [] [] rfl⟩

/-- **A dropped read**: one read is pending and registered; after 32 control commands from sockets of their
own it is still pending and no longer in the client list. -/
theorem read_unregistered : ∃ as w ctx, run step (World.init true (fun _ => ⟨0, 0⟩) (RxBuf.filled 0)) as = some w ∧
    w.rxLog.Nodup ∧ getHandleContext w.handleList 0x1001 = some ctx ∧ ctx.pending = [⟨1, 0, 2048, some 1⟩] ∧
    addrOf w.socks ⟨1, 0, 2048, some 1⟩ = some (loopback 40000) ∧ loopback 40000 ∈ w.rxLog ∧
    loopback 40000 ∉ w.bridge.clients.addrs := by
  refine ⟨oneRead ++ (List.range 32).flatMap fun k =>
    [.control .linkUp [] (loopback (UInt16.ofNat (40001 + k))), .poll .datagram], _, _, rfl, ?_, rfl, rfl, rfl, ?_, ?_⟩
  · decide +kernel
  · decide +kernel
  · decide +kernel

end Rvpn
