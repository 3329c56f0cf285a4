import Rvpn.Lib.Count
import Rvpn.Device.AtMostOnce
import Mathlib.Data.List.Flatten

/-!
# A socket for each read

`Hook_ReadFile` opens the socket of a request, and it is closed with the request, so no two pending reads share
one: what a completed read receives or closes is nobody else's.

* `SocksWF` — every pending read has an open socket of its own;
* `socksWF_step`, `World.Reachable.socksWF` — in every reachable state.
-/

namespace Rvpn

open Lts Count

/-! ## Every pending read has its own socket -/

def pendingSocks (l : List HandleContext) : List Socket := l.flatMap fun c => c.pending.filterMap PendingRead.sock

/-- No socket belongs to two pending reads, and each is open. -/
structure SocksWF (w : World) : Prop where
  distinct : ∀ s, (pendingSocks w.handleList).count s ≤ 1
  isOpen : ∀ s, 0 < (pendingSocks w.handleList).count s → s ∈ w.socks.map UdpSock.id

/-- Replacing the queue of one context moves the counts by the difference of the two queues. -/
theorem count_pendingSocks_set {l : List HandleContext} {h : Handle} {c : HandleContext}
    (hc : getHandleContext l h = some c) (c' : HandleContext) (hh : c'.h = h) (s : Socket) :
    (pendingSocks (setContext l c')).count s + (c.pending.filterMap PendingRead.sock).count s =
      (pendingSocks l).count s + (c'.pending.filterMap PendingRead.sock).count s := by
  obtain ⟨pre, post, rfl, hset⟩ := setContext_split hc
  rw [hset c' hh]
  simp only [pendingSocks, count_flatMap_append, count_flatMap_cons]
  omega

theorem count_enqueue (q : List PendingRead) (r : PendingRead) (s : Socket) :
    ((enqueue q r).filterMap PendingRead.sock).count s =
      (q.filterMap PendingRead.sock).count s + if r.sock = some s then 1 else 0 := by
  rw [enqueue, List.filterMap_append, List.count_append, count_filterMap_cons]
  rfl

/-- What `unlinkReq` takes out and what it leaves. -/
theorem count_unlinkReq {ov : OvPtr} {q rest : List PendingRead} {r : PendingRead}
    (h : unlinkReq ov q = (some r, rest)) (s : Socket) : (q.filterMap PendingRead.sock).count s =
      (rest.filterMap PendingRead.sock).count s + if r.sock = some s then 1 else 0 := by
  obtain ⟨pre, post, rfl, rfl⟩ := unlinkReq_split h
  simp only [List.filterMap_append, List.count_append, count_filterMap_cons]
  omega

theorem ids_setRx (socks : List UdpSock) (s : Option Socket) (rx : List Dgram) :
    (setRx socks s rx).map UdpSock.id = socks.map UdpSock.id := by
  rw [setRx, List.map_map]
  apply List.map_congr_left
  intro u _
  simp only [Function.comp]
  split_ifs <;> rfl

theorem socksWF_init (tapActive : Bool) (ov : OvPtr → Overlapped) (buf : RxBuf) :
    SocksWF (World.init tapActive ov buf) := ⟨by simp [World.init, pendingSocks], by simp [World.init, pendingSocks]⟩

/-- The invariant reads the contexts' queues and the open sockets only. -/
theorem SocksWF.congr {w w' : World} (hw : SocksWF w)
    (hq : ∀ s, (pendingSocks w'.handleList).count s ≤ (pendingSocks w.handleList).count s)
    (hids : w'.socks.map UdpSock.id = w.socks.map UdpSock.id) : SocksWF w' where
  distinct s := Nat.le_trans (hq s) (hw.distinct s)
  isOpen s hs := by
    rw [hids]
    exact hw.isOpen s (Nat.lt_of_lt_of_le hs (hq s))

theorem socksWF_readFile {w : World} (hw : SocksWF w) (h : Handle) (ov : Option OvPtr) (buffer : Nat)
    (buflen : UInt32) (sk : Option (Socket × SockAddr))
    (hsk : ∀ s a, sk = some (s, a) → canOpen w.socks s a = true) :
    SocksWF (hookReadFile w h ov buffer buflen sk) := by
  cases hctx : getHandleContext w.handleList h with
  | none => simpa only [hookReadFile, hctx] using hw
  | some ctx =>
    cases hact : w.tapActive with
    | false => simpa [hookReadFile, hctx, hact] using hw
    | true =>
      cases ov with
      | none => simpa [hookReadFile, hctx, hact] using hw
      | some ov =>
        have hh : ctx.h = h := getHandleContext_h hctx
        have hcount := fun s => count_pendingSocks_set hctx
          { ctx with pending := enqueue ctx.pending ⟨ov, buffer, buflen, sk.map Prod.fst⟩ } hh s
        simp only [count_enqueue] at hcount
        simp only [hookReadFile, hctx, hact, Bool.not_true, Bool.false_eq_true, if_false]
        refine ⟨fun s => ?_, fun s hs => ?_⟩
        · have h1 := hcount s
          have h2 := hw.distinct s
          split_ifs at h1 with he
          · -- the new socket was not open, so it was not pending
            obtain ⟨x, rfl, rfl⟩ := Option.map_eq_some_iff.1 he
            have hfree := hsk x.1 x.2 rfl
            have h3 : ¬ 0 < (pendingSocks w.handleList).count x.1 := by
              intro hpos
              obtain ⟨u, hu, hid⟩ := List.mem_map.1 (hw.isOpen _ hpos)
              have := List.all_eq_true.1 hfree u hu
              simp [hid] at this
            simp only
            omega
          · simp only
            omega
        · have h1 := hcount s
          simp only at hs
          rw [List.map_append, List.mem_append]
          split_ifs at h1 with he
          · obtain ⟨x, rfl, rfl⟩ := Option.map_eq_some_iff.1 he
            exact .inr (by simp)
          · left
            apply hw.isOpen
            omega

theorem socksWF_getOverlappedResult {w : World} (hw : SocksWF w) (h : Handle) (ov : OvPtr) :
    SocksWF (hookGetOverlappedResult w h ov) := by
  rcases getOverlappedResult_cases w h ov with he | ⟨ctx, req, rest, hctx, -, hun, hcase⟩
  · rwa [he]
  have hh : ctx.h = h := getHandleContext_h hctx
  have hpend := count_unlinkReq hun
  rcases hcase with ⟨rx, -, he⟩ | ⟨d, rx, -, he⟩
  · rw [he]
    refine hw.congr (fun s => ?_) (ids_setRx _ _ _)
    have hcount := count_pendingSocks_set hctx { ctx with pending := enqueue rest req } hh s
    simp only [count_enqueue] at hcount
    have h1 := hpend s
    simp only [gorIncomplete]
    omega
  · rw [he]
    have hcount := fun s => count_pendingSocks_set hctx { ctx with pending := rest } hh s
    simp only at hcount
    refine ⟨fun s => ?_, fun s hs => ?_⟩
    · have h1 := hcount s
      have h2 := hpend s
      have h3 := hw.distinct s
      simp only [gorComplete]
      omega
    · have h1 := hcount s
      have h2 := hpend s
      have h3 := hw.distinct s
      simp only [gorComplete] at hs ⊢
      have hne : req.sock ≠ some s := by
        intro e
        rw [if_pos e] at h2
        omega
      obtain ⟨u, hu, rfl⟩ := List.mem_map.1 (hw.isOpen s (by omega))
      exact List.mem_map.2 ⟨u, List.mem_filter.2 ⟨hu, by simpa using hne⟩, rfl⟩

theorem socksWF_step {w w' : World} (hw : SocksWF w) {a : Act} (hs : step w a = some w') : SocksWF w' := by
  unfold step at hs
  split_ifs at hs with hok
  cases a with
  | createFile =>
    obtain rfl := Option.some.inj hs
    exact hw.congr (fun s => by simp [hookCreateFileW, pendingSocks, HandleContext.fresh]) rfl
  | closeHandle h =>
    obtain rfl := Option.some.inj hs
    unfold hookCloseHandle
    split
    · exact hw
    · refine hw.congr (fun s => ?_) rfl
      exact (List.eraseP_sublist.flatMap _).count_le s
  | deviceIoControl h code input outSize ov =>
    obtain rfl := Option.some.inj hs
    cases hctx : getHandleContext w.handleList h with
    | none => simpa only [hookDeviceIoControl, hctx] using hw
    | some ctx =>
      have hh : (ioctlContext ctx code input).h = h := (ioctlContext_h ctx code input).trans (getHandleContext_h hctx)
      simp only [hookDeviceIoControl, hctx]
      refine hw.congr (fun s => ?_) rfl
      have hcount := count_pendingSocks_set hctx _ hh s
      rw [ioctlContext_pending] at hcount
      simp only
      omega
  | readFile h ov buffer buflen sk =>
    obtain rfl := Option.some.inj hs
    exact socksWF_readFile hw h ov buffer buflen sk fun s a he => by subst he; exact hok
  | writeFile h buf ov src =>
    obtain ⟨pkt, rfl, -⟩ := hookWriteFile_spec hs
    exact hw.congr (fun s => Nat.le_refl _) rfl
  | getOverlappedResult h ov =>
    obtain rfl := Option.some.inj hs
    exact socksWF_getOverlappedResult hw h ov
  | control cmd args src =>
    obtain rfl := Option.some.inj hs
    exact hw.congr (fun s => Nat.le_refl _) rfl
  | poll i =>
    obtain ⟨fr, src, -, -, -, -, -, -, hlist, -, -, -, -, hids⟩ := pollRound_spec hs
    exact hw.congr (fun s => by rw [hlist]) hids

theorem World.Reachable.socksWF {w : World} (h : w.Reachable) : SocksWF w := by
  obtain ⟨tapActive, ov, buf, as, hr⟩ := h
  exact run_invariant (I := SocksWF) (fun _ _ _ hw hs => socksWF_step hw hs) (socksWF_init tapActive ov buf) hr

/-- A pending read whose queue is not empty shares its socket with no other. -/
theorem SocksWF.sock_ne {w : World} (hw : SocksWF w) {h : Handle} {ov : OvPtr} {ctx : HandleContext}
    {req r : PendingRead} {rest : List PendingRead} (hctx : getHandleContext w.handleList h = some ctx)
    (hun : unlinkReq ov ctx.pending = (some req, rest)) (hr : r ∈ rest) (hq : queueOf w.socks r ≠ []) :
    r.sock ≠ req.sock := by
  intro he
  have hsome : ∃ s, r.sock = some s := by
    cases hs : r.sock with
    | none =>
      exfalso
      apply hq
      rw [queueOf, sockOf, hs]
      rfl
    | some s => exact ⟨s, rfl⟩
  obtain ⟨s, hs⟩ := hsome
  have h1 := count_unlinkReq hun s
  rw [← he, if_pos hs] at h1
  have h2 : 0 < (rest.filterMap PendingRead.sock).count s :=
    List.count_pos_iff.2 (List.mem_filterMap.2 ⟨r, hr, hs⟩)
  obtain ⟨pre, post, hl, -⟩ := setContext_split hctx
  have h3 := hw.distinct s
  rw [hl, pendingSocks, count_flatMap_append, count_flatMap_cons] at h3
  omega

end Rvpn
