import Rvpn.Device.Queues

/-!
# An operation and its overlapped result (inject.c:294-378, 380-453, 490-696)

A finished operation leaves its result in the `OVERLAPPED`: `Internal` is no longer `STATUS_PENDING`, `InternalHigh` is
the byte count. `Hook_GetOverlappedResult` passes the count on and returns `TRUE`. It does not look at the code in
`Internal`, so an operation that failed at once is reported as a success.

* `StepOn` — what a step that starts nothing on an `OVERLAPPED` can do to it;
* `Agrees` — every later call for the `OVERLAPPED` says what the operation said, or for a read what it has done;
* `overlapped_iff` — which operations have that.
-/

namespace Rvpn

open Lts

/-! ## Results -/

/-- The `BOOL` of `Hook_GetOverlappedResult` and the count it stores; `none` where the real API is called. -/
def gorReturn (w : World) (h : Handle) (ov : OvPtr) : Option (Bool × Option UInt32) :=
  match getHandleContext w.handleList h with
  | none => none
  | some ctx =>
    if (w.ov ov).internal ≠ statusPending then some (true, some (w.ov ov).internalHigh)
    else match unlinkReq ov ctx.pending with
      | (none, _) => some (false, none)
      | (some req, _) =>
        match recvLoop ctx (queueOf w.socks req) with
        | (none, _) => some (false, none)
        | (some d, _) => some (true, some (UInt32.ofNat (copyOut d req.buflen).length))

/-- A call on an emulated handle with an `OVERLAPPED`. -/
inductive Op where
  | deviceIoControl (code : UInt32) (input : List UInt8) (outSize : Nat)
  | writeFile (buf : List UInt8) (src : Option SockAddr)
  | readFile (buffer : Nat) (buflen : UInt32) (sk : Option (Socket × SockAddr))

def Op.act (h : Handle) (ov : OvPtr) : Op → Act
  | deviceIoControl code input outSize => .deviceIoControl h code input outSize (some ov)
  | writeFile buf src => .writeFile h buf (some ov) src
  | readFile buffer buflen sk => .readFile h (some ov) buffer buflen sk

/-- What the call itself returns and counts; `none` is `ERROR_IO_PENDING`. -/
def Op.report (tapActive : Bool) : Op → Option (Bool × UInt32)
  | deviceIoControl code input outSize => some (ioctlResult code input.length outSize)
  | writeFile buf _ => some (true, UInt32.ofNat buf.length)
  -- ERROR_NO_DATA
  | readFile .. => if tapActive then none else some (false, 0)

/-- The action starts an operation on the `OVERLAPPED`. -/
def Act.starts (ov : OvPtr) : Act → Prop
  | .deviceIoControl _ _ _ _ p | .readFile _ p _ _ _ | .writeFile _ _ p _ => p = some ov
  | _ => False

/-! ## What a step does to an `OVERLAPPED` -/

/-- The frames delivered for an `OVERLAPPED`. -/
def World.deliveredTo (w : World) (ov : OvPtr) : List Delivery := w.delivered.filter fun x => x.ov = ov

/-- Nothing happens to the `OVERLAPPED`, or the read that is pending on it completes with one frame. -/
inductive StepOn (ov : OvPtr) (w w' : World) : Prop
  | same (hov : w'.ov ov = w.ov ov) (hd : w'.deliveredTo ov = w.deliveredTo ov)
  | completed {x : Delivery} (hp : (w.ov ov).internal = statusPending) (hlen : x.copied.length < 2 ^ 32)
      (hov : w'.ov ov = ⟨0, UInt32.ofNat x.copied.length⟩) (hd : w'.deliveredTo ov = w.deliveredTo ov ++ [x])

variable {w w' : World} {h : Handle} {ov p : OvPtr} {ctx : HandleContext} {a : Act}

theorem length_copyOut (d : Dgram) (buflen : UInt32) : (copyOut d buflen).length < 2 ^ 32 := by
  have hlt := buflen.toNat_lt
  rw [copyOut, List.length_take]
  omega

theorem unlinkReq_ov {queue rest : List PendingRead} {r : PendingRead} (hu : unlinkReq p queue = (some r, rest)) :
    r.ov = p := by
  have hf : queue.find? (PendingRead.isFor p) = some r := congrArg Prod.fst hu
  simpa [PendingRead.isFor] using List.find?_some hf

/-- A read that completes changes its own `OVERLAPPED`. -/
theorem gorComplete_on {req : PendingRead} {rest : List PendingRead} (d : Dgram) (hp : (w.ov req.ov).internal = statusPending) :
    StepOn ov w (gorComplete w ctx rest req d) := by
  by_cases hov : req.ov = ov
  · subst hov
    refine .completed (x := deliveryOf ctx req d) hp (length_copyOut d req.buflen) ?_ ?_
    · exact Function.update_self ..
    · rw [World.deliveredTo, gorComplete, List.filter_append]
      simp [World.deliveredTo, deliveryOf]
  · refine .same ?_ ?_
    · exact Function.update_of_ne (Ne.symm hov) ..
    · rw [World.deliveredTo, gorComplete, List.filter_append]
      simp [World.deliveredTo, deliveryOf, hov]

theorem getOverlappedResult_on (w : World) (h : Handle) (p ov : OvPtr) : StepOn ov w (hookGetOverlappedResult w h p) := by
  rcases getOverlappedResult_cases w h p with hw | ⟨ctx, req, rest, -, hp, hu, ⟨rx, -, hw⟩ | ⟨d, rx, -, hw⟩⟩
  · rw [hw]
    exact .same rfl rfl
  · rw [hw]
    exact .same rfl rfl
  · rw [hw]
    rw [← unlinkReq_ov hu] at hp
    exact gorComplete_on d hp

/-- The action leaves the memory of the `OVERLAPPED` and the deliveries. -/
theorem update_of_not_starts {v : Overlapped} {q : Option OvPtr} (hq : q ≠ some ov) :
    (match q with
      | none => w.ov
      | some q => Function.update w.ov q v) ov = w.ov ov := by
  cases q with
  | none => rfl
  | some q => exact Function.update_of_ne (fun he => hq (congrArg some he.symm)) ..

/-- **One step** that starts nothing on the `OVERLAPPED`. -/
theorem step_on (ha : ¬ a.starts ov) (hs : step w a = some w') : StepOn ov w w' := by
  unfold step at hs
  split_ifs at hs with hallow
  cases a with
  | createFile =>
    cases hs
    exact .same rfl rfl
  | closeHandle k =>
    cases hs
    unfold hookCloseHandle
    split
    · exact .same rfl rfl
    · exact .same rfl rfl
  | deviceIoControl k code input outSize q =>
    cases hs
    unfold hookDeviceIoControl
    split
    · exact .same rfl rfl
    · exact .same (update_of_not_starts ha) rfl
  | readFile k q buffer buflen sk =>
    cases hs
    unfold hookReadFile
    split
    · exact .same rfl rfl
    · split_ifs
      · exact .same rfl rfl
      · cases q with
        | none => exact .same rfl rfl
        | some q => exact .same (Function.update_of_ne (fun he => ha (congrArg some he.symm)) ..) rfl
  | writeFile k buf q src =>
    obtain ⟨pkt, rfl, -⟩ := hookWriteFile_spec hs
    refine .same ?_ rfl
    dsimp only
    split
    · cases q with
      | none => rfl
      | some q => exact Function.update_of_ne (fun he => ha (congrArg some he.symm)) ..
    · rfl
  | getOverlappedResult k q =>
    cases hs
    exact getOverlappedResult_on w k q ov
  | control cmd args src =>
    cases hs
    exact .same rfl rfl
  | poll i =>
    obtain ⟨-, -, -, -, -, -, -, -, -, hov, hd, -⟩ := pollRound_spec hs
    refine .same (by rw [hov]) ?_
    rw [World.deliveredTo, hd]
    rfl

/-! ## What a run does to it -/

theorem done_ne_pending (n : UInt32) : (⟨0, n⟩ : Overlapped).internal ≠ statusPending := by
  have hne : (0 : UInt32) ≠ statusPending := by decide
  exact hne

/-- The operation is over: the `OVERLAPPED` holds this, and stays. -/
def Settled (ov : OvPtr) (v : Overlapped) (w : World) : Prop := w.ov ov = v ∧ v.internal ≠ statusPending

theorem Settled.step {v : Overlapped} (hi : Settled ov v w) (hs : StepOn ov w w') : Settled ov v w' := by
  obtain ⟨hv, hne⟩ := hi
  cases hs with
  | same hov _ => exact ⟨hov.trans hv, hne⟩
  | completed hp => exact absurd (hv ▸ hp) hne

/-- A read from the time it is queued: it is pending, or one frame more than `base` has been delivered for it and the
`OVERLAPPED` holds the number of its bytes. -/
inductive InFlight (ov : OvPtr) (base : List Delivery) (w : World) : Prop
  | pending (hp : (w.ov ov).internal = statusPending) (hd : w.deliveredTo ov = base)
  | done {x : Delivery} (hlen : x.copied.length < 2 ^ 32) (hov : w.ov ov = ⟨0, UInt32.ofNat x.copied.length⟩)
      (hd : w.deliveredTo ov = base ++ [x])

theorem InFlight.step {base : List Delivery} (hi : InFlight ov base w) (hs : StepOn ov w w') : InFlight ov base w' := by
  cases hs with
  | same hov hd =>
    cases hi with
    | pending hp hb => exact .pending (hov ▸ hp) (hd.trans hb)
    | done hlen hv hb => exact .done hlen (hov.trans hv) (hd.trans hb)
  | completed hp hlen hov hd =>
    cases hi with
    | pending _ hb => exact .done hlen hov (hb ▸ hd)
    | done _ hv _ =>
      rw [hv] at hp
      exact absurd hp (done_ne_pending _)

/-- **A run** in which nothing else is started on the `OVERLAPPED` keeps what its steps keep. -/
theorem run_on {I : World → Prop} (hI : ∀ w w', I w → StepOn ov w w' → I w') {as : List Act} (h₀ : I w)
    (has : ∀ a ∈ as, ¬ a.starts ov) (hr : run step w as = some w') : I w' := by
  have hg : Guarded step (fun _ a => ¬ a.starts ov) w as := guarded_of_forall has
  exact hg.invariant (fun s a t hs ha hst => hI s t hs (step_on ha hst)) h₀ hr

/-! ## What a call says -/

theorem gorReturn_settled {v : Overlapped} (hi : Settled ov v w) (hc : (getHandleContext w.handleList h).isSome) :
    gorReturn w h ov = some (true, some v.internalHigh) := by
  obtain ⟨ctx, hc⟩ := Option.isSome_iff_exists.1 hc
  obtain ⟨rfl, hne⟩ := hi
  rw [gorReturn, hc]
  exact if_pos hne

/-- **A call for a pending `OVERLAPPED`** says that it is pending still, or it completes the read and counts what it
has put into the buffer. -/
theorem gorReturn_pending (hp : (w.ov ov).internal = statusPending) (hc : (getHandleContext w.handleList h).isSome) :
    (gorReturn w h ov = some (false, none) ∧ ((hookGetOverlappedResult w h ov).ov ov).internal = statusPending ∧
      (hookGetOverlappedResult w h ov).deliveredTo ov = w.deliveredTo ov) ∨
    ∃ x : Delivery, x.copied.length < 2 ^ 32 ∧ gorReturn w h ov = some (true, some (UInt32.ofNat x.copied.length)) ∧
      (hookGetOverlappedResult w h ov).deliveredTo ov = w.deliveredTo ov ++ [x] := by
  obtain ⟨ctx, hc⟩ := Option.isSome_iff_exists.1 hc
  have hnot : ¬ (w.ov ov).internal ≠ statusPending := not_not.2 hp
  rcases hu : unlinkReq ov ctx.pending with ⟨_ | req, rest⟩
  · have hw : hookGetOverlappedResult w h ov = w := by simp only [hookGetOverlappedResult, hc, if_neg hnot, hu]
    refine .inl ⟨by simp only [gorReturn, hc, if_neg hnot, hu], ?_, by rw [hw]⟩
    rw [hw, hp]
  · rcases hl : recvLoop ctx (queueOf w.socks req) with ⟨_ | d, rx⟩
    · have hw : hookGetOverlappedResult w h ov = gorIncomplete w ctx rest req rx := by
        simp only [hookGetOverlappedResult, hc, if_neg hnot, hu, hl]
      refine .inl ⟨by simp only [gorReturn, hc, if_neg hnot, hu, hl], ?_, by rw [hw]; rfl⟩
      rw [hw]
      exact hp
    · refine .inr ⟨deliveryOf ctx req d, length_copyOut d req.buflen, ?_, ?_⟩
      · simp only [gorReturn, hc, if_neg hnot, hu, hl, deliveryOf]
      · have hov := unlinkReq_ov hu
        simp only [hookGetOverlappedResult, hc, if_neg hnot, hu, hl]
        rw [World.deliveredTo, gorComplete, List.filter_append]
        simp [World.deliveredTo, deliveryOf, hov]

/-! ## The result -/

/-- **Agreement**: in every later state in which nothing else was started on the `OVERLAPPED`, a call for it says what
the operation said. For a read it says that it is pending, and nothing is delivered for it; or it returns `TRUE` and
the number of bytes of the one frame that is. -/
def Agrees (w : World) (h : Handle) (ov : OvPtr) (op : Op) : Prop :=
  ∀ w₁ as w₂, step w (op.act h ov) = some w₁ → (∀ a ∈ as, ¬ a.starts ov) → run step w₁ as = some w₂ →
    (getHandleContext w₂.handleList h).isSome →
    match op.report w.tapActive with
    | some (ok, n) => gorReturn w₂ h ov = some (ok, some n)
    | none =>
      (gorReturn w₂ h ov = some (false, none) ∧ ((hookGetOverlappedResult w₂ h ov).ov ov).internal = statusPending ∧
        (hookGetOverlappedResult w₂ h ov).deliveredTo ov = w.deliveredTo ov) ∨
      ∃ (x : Delivery) (n : UInt32), (hookGetOverlappedResult w₂ h ov).deliveredTo ov = w.deliveredTo ov ++ [x] ∧
        gorReturn w₂ h ov = some (true, some n) ∧ n.toNat = x.copied.length

/-- The operation does not fail at once. -/
def Op.Starts (tapActive : Bool) : Op → Prop
  | deviceIoControl code input outSize => (ioctlResult code input.length outSize).1 = true
  | writeFile .. => True
  | readFile .. => tapActive = true

/-- The handle that was called is one of the emulated ones still. -/
theorem getHandleContext_act {op : Op} (hc : getHandleContext w.handleList h = some ctx)
    (hs : step w (op.act h ov) = some w') : (getHandleContext w'.handleList h).isSome := by
  unfold step at hs
  split_ifs at hs with hallow
  cases op with
  | deviceIoControl code input outSize =>
    cases hs
    have hh : (ioctlContext ctx code input).h = h := (ioctlContext_h ctx code input).trans (getHandleContext_h hc)
    simp only [hookDeviceIoControl, hc, getHandleContext_setContext_self hc hh, Option.isSome_some]
  | writeFile buf src =>
    obtain ⟨pkt, rfl, -⟩ := hookWriteFile_spec hs
    simp [hc]
  | readFile buffer buflen sk =>
    cases hs
    simp only [hookReadFile, hc]
    split
    · simp [hc]
    · simp only [getHandleContext_setPending hc, Option.isSome_some]

/-- What an operation that is over at once leaves. -/
theorem settled_act {op : Op} {ok : Bool} {n : UInt32} (hc : getHandleContext w.handleList h = some ctx)
    (hs : step w (op.act h ov) = some w') (hst : op.Starts w.tapActive) (hrep : op.report w.tapActive = some (ok, n)) :
    ok = true ∧ Settled ov ⟨0, n⟩ w' := by
  unfold step at hs
  split_ifs at hs with hallow
  cases op with
  | deviceIoControl code input outSize =>
    cases hs
    have hres : ioctlResult code input.length outSize = (ok, n) := Option.some.inj hrep
    have hok : ok = true := by rw [Op.Starts, hres] at hst; exact hst
    refine ⟨hok, ?_, done_ne_pending _⟩
    simp only [hookDeviceIoControl, hc, hres, hok, Function.update_self, if_true]
  | writeFile buf src =>
    obtain ⟨pkt, rfl, -⟩ := hookWriteFile_spec hs
    cases hrep
    refine ⟨rfl, ?_, done_ne_pending _⟩
    simp only [hc, Option.isSome_some, if_true, Option.elim_some, Function.update_self]
  | readFile buffer buflen sk =>
    have hact : w.tapActive = true := hst
    simp [Op.report, hact] at hrep

/-- What a read leaves that is pending. -/
theorem inFlight_act {op : Op} (hc : getHandleContext w.handleList h = some ctx) (hs : step w (op.act h ov) = some w')
    (hrep : op.report w.tapActive = none) : InFlight ov (w.deliveredTo ov) w' := by
  unfold step at hs
  split_ifs at hs with hallow
  cases op with
  | deviceIoControl code input outSize => cases hrep
  | writeFile buf src => cases hrep
  | readFile buffer buflen sk =>
    cases hs
    have hact : w.tapActive = true := by
      by_contra hact
      simp [Op.report, hact] at hrep
    simp only [hookReadFile, hc, hact, Bool.not_true, Bool.false_eq_true, if_false]
    refine .pending ?_ rfl
    simp

/-- **An operation that does not fail at once** is reported as it went. -/
theorem agrees_of_starts {op : Op} (hc : getHandleContext w.handleList h = some ctx) (hst : op.Starts w.tapActive) :
    Agrees w h ov op := by
  intro w₁ as w₂ hs has hr hemu
  split
  · next ok n hrep =>
    obtain ⟨rfl, hset⟩ := settled_act hc hs hst hrep
    exact gorReturn_settled (run_on (fun _ _ => Settled.step) hset has hr) hemu
  · next hrep =>
    cases run_on (fun _ _ => InFlight.step) (inFlight_act hc hs hrep) has hr with
    | pending hp hd =>
      rcases gorReturn_pending hp hemu with ⟨hret, hp', hd'⟩ | ⟨x, hlen, hret, hd'⟩
      · exact .inl ⟨hret, hp', hd'.trans hd⟩
      · refine .inr ⟨x, _, by rw [hd', hd], hret, ?_⟩
        rw [UInt32.toNat_ofNat', Nat.mod_eq_of_lt hlen]
    | @done x hlen hov hd =>
      have hset : Settled ov ⟨0, UInt32.ofNat x.copied.length⟩ w₂ := ⟨hov, done_ne_pending _⟩
      have hsame : hookGetOverlappedResult w₂ h ov = w₂ := by
        obtain ⟨ctx', hc'⟩ := Option.isSome_iff_exists.1 hemu
        have hne : (w₂.ov ov).internal ≠ statusPending := by
          rw [hov]
          exact done_ne_pending _
        simp only [hookGetOverlappedResult, hc', if_pos hne]
      refine .inr ⟨x, _, by rw [hsame, hd], gorReturn_settled hset hemu, ?_⟩
      rw [UInt32.toNat_ofNat', Nat.mod_eq_of_lt hlen]

/-- A call never returns `FALSE` with a count. -/
theorem gorReturn_ne (w : World) (h : Handle) (ov : OvPtr) (n : UInt32) : gorReturn w h ov ≠ some (false, some n) := by
  unfold gorReturn
  split
  · simp
  · split
    · simp
    · split
      · simp
      · split <;> simp

/-- **The operations whose overlapped result agrees with them**: those that do not fail at once. -/
theorem overlapped_iff {op : Op} (hc : getHandleContext w.handleList h = some ctx)
    (hallow : (op.act h ov).allowed w = true) : Agrees w h ov op ↔ op.Starts w.tapActive := by
  refine ⟨fun hag => ?_, agrees_of_starts hc⟩
  cases op with
  | deviceIoControl code input outSize =>
    have hs : step w (Op.act h ov (.deviceIoControl code input outSize)) =
        some (hookDeviceIoControl w h code input outSize (some ov)) := if_pos hallow
    have h₂ := hag _ [] _ hs (by simp) rfl (getHandleContext_act hc hs)
    rcases hres : ioctlResult code input.length outSize with ⟨ok, n⟩
    simp only [Op.report, hres] at h₂
    cases ok with
    | true => rw [Op.Starts, hres]
    | false => exact absurd h₂ (gorReturn_ne _ _ _ _)
  | writeFile buf src => trivial
  | readFile buffer buflen sk =>
    have hs : step w (Op.act h ov (.readFile buffer buflen sk)) = some (hookReadFile w h (some ov) buffer buflen sk) :=
      if_pos hallow
    have h₂ := hag _ [] _ hs (by simp) rfl (getHandleContext_act hc hs)
    rw [Op.Starts]
    by_contra hno
    simp only [Op.report, hno] at h₂
    exact gorReturn_ne _ _ _ _ h₂

/-- A filter of six bytes. -/
theorem overlapped_filter :
    Agrees filteredWorld 0x1001 7 (.deviceIoControl 0x228014 [0x02, 0x50, 0x00, 0x00, 0x00, 0x02] 0) :=
  (overlapped_iff (rfl : getHandleContext filteredWorld.handleList 0x1001 = some _) rfl).2 rfl

/-- A filter of no bytes is refused, and the overlapped result says `TRUE`. -/
theorem refused_reported : ¬ Agrees filteredWorld 0x1001 7 (.deviceIoControl 0x228014 [] 0) := by
  intro hag
  have hlater := hag (hookDeviceIoControl filteredWorld 0x1001 0x228014 [] 0 (some 7)) [] _ rfl (by simp) rfl rfl
  have hret : gorReturn (hookDeviceIoControl filteredWorld 0x1001 0x228014 [] 0 (some 7)) 0x1001 7 = some (true, some 0) := by
    decide +kernel
  rw [hret] at hlater
  cases hlater

end Rvpn
