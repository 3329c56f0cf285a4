import Rvpn.Device.Queues

/-!
# What a handle accepts

A handle's filter is the six bytes of the last `0x228014` request on it. `lastFilter` reads it off the
calls the application made since the handle was opened, and the invariant is that the list of contexts
agrees with it for every open handle.

`g_NextHandleId` wraps after 2³² opens. `AddFakeHandle` does not look whether the number it hands out
is open, and `GetHandleContext` takes the newest context with the number, so the results are about
runs in which no open handle's number is handed out again.

* `FilterInv` — open handles have different numbers, and each has the filter of its last request;
* `filter_sound` — in every run, what a completed read delivers, and what leaves a filter alone;
* `filter_lost` — 2³² opens later a handle's number comes back, and its filter is gone.
-/

namespace Rvpn

open Lts

/-- The input of the latest `0x228014` with six bytes on `h` since `h` was opened; latest call first. -/
def lastFilter (h : Handle) : List CallEv → Option (List UInt8)
  | [] => none
  | .opened k :: es => if k = h then none else lastFilter h es
  | .closed _ :: es => lastFilter h es
  | .ioctl k code input :: es =>
    if k = h ∧ code = 0x228014 ∧ input.length = 6 then some input else lastFilter h es

/-- Whether a read on `h` takes the frame. -/
def accepts (w : World) (h : Handle) (frame : List UInt8) : Bool :=
  (getHandleContext w.handleList h).any (isMacMatch frame)

/-- The number the step hands out is not open. -/
def NoReuse (w : World) (a : Act) : Prop :=
  a = .createFile → getHandleContext w.handleList (w.nextHandleId + 1) = none

/-- The request that sets the filter of `h`. -/
def SetsFilter (h : Handle) (a : Act) : Prop :=
  ∃ input outSize ov, a = .deviceIoControl h 0x228014 input outSize ov ∧ input.length = 6

/-! ## Contexts and their filters -/

/-- The filter of a context, as `lastFilter` gives it. -/
def HandleContext.filter (c : HandleContext) : Option (List UInt8) := if c.macSet then some c.mac.toList else none

theorem isMacMatch_filter {frame : List UInt8} {c : HandleContext} :
    isMacMatch frame c = true ↔ ∃ mac, c.filter = some mac ∧ (groupBit frame = true ∨ frame.take 6 = mac) := by
  rw [isMacMatch_iff]
  unfold HandleContext.filter
  cases c.macSet with
  | false => simp
  | true => simp [or_comm]

/-- Two contexts with one filter take the same frames. -/
theorem isMacMatch_congr {c c' : HandleContext} (h : c'.filter = c.filter) (frame : List UInt8) :
    isMacMatch frame c' = isMacMatch frame c := by
  rw [Bool.eq_iff_iff, isMacMatch_filter, isMacMatch_filter, h]

/-- The contexts have different numbers, and each has the filter the calls gave it. -/
structure FilterInv (l : List HandleContext) (hist : List CallEv) : Prop where
  nodup : (l.map HandleContext.h).Nodup
  filters : ∀ c ∈ l, c.filter = lastFilter c.h hist

theorem getHandleContext_mem {l : List HandleContext} {h : Handle} {c : HandleContext}
    (hc : getHandleContext l h = some c) : c ∈ l := List.mem_of_find?_eq_some hc

theorem getHandleContext_none_iff {l : List HandleContext} {h : Handle} :
    getHandleContext l h = none ↔ ∀ c ∈ l, c.h ≠ h := by
  unfold getHandleContext
  rw [List.find?_eq_none]
  simp [HandleContext.is]

/-- Replacing the context of one handle, and recording a call that gives it its new filter. -/
theorem FilterInv.set {l : List HandleContext} {hist hist' : List CallEv} (hi : FilterInv l hist) {h : Handle}
    {c : HandleContext} (hc : getHandleContext l h = some c) (c' : HandleContext) (hh : c'.h = h)
    (hnew : c'.filter = lastFilter h hist') (hold : ∀ k, k ≠ h → lastFilter k hist' = lastFilter k hist) :
    FilterInv (setContext l c') hist' := by
  obtain ⟨pre, post, rfl, hset⟩ := setContext_split hc
  have hch : c.h = h := getHandleContext_h hc
  have hnd := hi.nodup
  rw [hset c' hh]
  rw [List.map_append, List.map_cons] at hnd
  refine ⟨by rwa [List.map_append, List.map_cons, hh, ← hch], ?_⟩
  have hother : ∀ d, d ∈ pre ∨ d ∈ post → d.h ≠ h := by
    rintro d hd rfl
    rw [hch] at hnd
    have hmid := (List.nodup_middle.1 hnd)
    apply (List.nodup_cons.1 hmid).1
    rcases hd with hd | hd
    · exact List.mem_append_left _ (List.mem_map_of_mem hd)
    · exact List.mem_append_right _ (List.mem_map_of_mem hd)
  intro d hd
  simp only [List.mem_append, List.mem_cons] at hd
  rcases hd with hd | rfl | hd
  · rw [hold d.h (hother d (.inl hd))]
    exact hi.filters d (by simp [hd])
  · rw [hnew, hh]
  · rw [hold d.h (hother d (.inr hd))]
    exact hi.filters d (by simp [hd])

/-- A handle's queue is no part of its filter. -/
theorem FilterInv.setPending {l : List HandleContext} {hist : List CallEv} (hi : FilterInv l hist) {h : Handle}
    {c : HandleContext} (hc : getHandleContext l h = some c) (q : List PendingRead) :
    FilterInv (setContext l { c with pending := q }) hist := by
  have hh : c.h = h := getHandleContext_h hc
  apply hi.set hc { c with pending := q } (by exact hh)
  · rw [← hh]
    exact hi.filters c (getHandleContext_mem hc)
  · exact fun _ _ => rfl

/-- **The one request that sets a filter**, at the level of one context. -/
theorem ioctlContext_filter (c : HandleContext) (code : UInt32) (input : List UInt8) :
    (ioctlContext c code input).filter = if code = 0x228014 ∧ input.length = 6 then some input else c.filter := by
  unfold ioctlContext
  by_cases hl : input.length = 6
  · by_cases hc : code = 0x228014
    · simp [hl, hc, HandleContext.filter]
    · simp [hl, hc]
  · simp [hl]

/-! ## One step -/

/-- What a step does to the contexts: a fresh one, one removed, one request on one, or one queue changed. -/
theorem step_contexts {w w' : World} {a : Act} (hs : step w a = some w') :
    (a = .createFile ∧ w'.handleList = HandleContext.fresh (w.nextHandleId + 1) :: w.handleList ∧
      w'.hist = .opened (w.nextHandleId + 1) :: w.hist) ∨
    (∃ k, a = .closeHandle k ∧ w'.handleList = removeFakeHandle w.handleList k ∧ w'.hist = .closed k :: w.hist) ∨
    (∃ k code input outSize ov c, a = .deviceIoControl k code input outSize ov ∧
      getHandleContext w.handleList k = some c ∧
      w'.handleList = setContext w.handleList (ioctlContext c code input) ∧ w'.hist = .ioctl k code input :: w.hist) ∨
    ((w'.handleList = w.handleList ∨ ∃ k c q, getHandleContext w.handleList k = some c ∧
      w'.handleList = setContext w.handleList { c with pending := q }) ∧ w'.hist = w.hist) := by
  unfold step at hs
  split_ifs at hs
  cases a with
  | createFile =>
    obtain rfl := Option.some.inj hs
    exact .inl ⟨rfl, rfl, rfl⟩
  | closeHandle k =>
    obtain rfl := Option.some.inj hs
    cases hc : getHandleContext w.handleList k with
    | none =>
      have he : hookCloseHandle w k = w := by simp only [hookCloseHandle, hc]
      rw [he]
      exact .inr (.inr (.inr ⟨.inl rfl, rfl⟩))
    | some c =>
      simp only [hookCloseHandle, hc]
      exact .inr (.inl ⟨k, rfl, rfl, rfl⟩)
  | deviceIoControl k code input outSize ov =>
    obtain rfl := Option.some.inj hs
    cases hc : getHandleContext w.handleList k with
    | none =>
      have he : hookDeviceIoControl w k code input outSize ov = w := by simp only [hookDeviceIoControl, hc]
      rw [he]
      exact .inr (.inr (.inr ⟨.inl rfl, rfl⟩))
    | some c =>
      simp only [hookDeviceIoControl, hc]
      exact .inr (.inr (.inl ⟨k, code, input, outSize, ov, c, rfl, hc, rfl, rfl⟩))
  | readFile k ov buffer buflen sk =>
    obtain rfl := Option.some.inj hs
    refine .inr (.inr (.inr ?_))
    cases hc : getHandleContext w.handleList k with
    | none =>
      have he : hookReadFile w k ov buffer buflen sk = w := by simp only [hookReadFile, hc]
      rw [he]
      exact ⟨.inl rfl, rfl⟩
    | some c =>
      simp only [hookReadFile, hc]
      split_ifs
      · exact ⟨.inl rfl, rfl⟩
      · cases ov with
        | none => exact ⟨.inl rfl, rfl⟩
        | some ov => exact ⟨.inr ⟨k, c, _, hc, rfl⟩, rfl⟩
  | writeFile k buf ov src =>
    refine .inr (.inr (.inr ?_))
    obtain ⟨pkt, rfl, -⟩ := hookWriteFile_spec hs
    exact ⟨.inl rfl, rfl⟩
  | getOverlappedResult k ov =>
    obtain rfl := Option.some.inj hs
    refine .inr (.inr (.inr ?_))
    rcases getOverlappedResult_cases w k ov with he | ⟨c, req, rest, hc, -, -, ⟨rx, -, he⟩ | ⟨x, rx, -, he⟩⟩ <;> rw [he]
    · exact ⟨.inl rfl, rfl⟩
    · exact ⟨.inr ⟨k, c, _, hc, rfl⟩, rfl⟩
    · exact ⟨.inr ⟨k, c, _, hc, rfl⟩, rfl⟩
  | control cmd args src =>
    obtain rfl := Option.some.inj hs
    exact .inr (.inr (.inr ⟨.inl rfl, rfl⟩))
  | poll i =>
    obtain ⟨fr, src, -, -, -, -, -, -, hlist, -, -, hhist, -⟩ := pollRound_spec hs
    exact .inr (.inr (.inr ⟨.inl hlist, hhist⟩))

theorem filterInv_step {w w' : World} (hi : FilterInv w.handleList w.hist) {a : Act} (hno : NoReuse w a)
    (hs : step w a = some w') : FilterInv w'.handleList w'.hist := by
  rcases step_contexts hs with ⟨rfl, hl, hh⟩ | ⟨k, rfl, hl, hh⟩ | ⟨k, code, input, outSize, ov, c, rfl, hc, hl, hh⟩ |
    ⟨hl | ⟨k, c, q, hc, hl⟩, hh⟩
  · rw [hl, hh]
    have hnone := getHandleContext_none_iff.1 (hno rfl)
    refine ⟨?_, ?_⟩
    · rw [List.map_cons, List.nodup_cons]
      refine ⟨fun hm => ?_, hi.nodup⟩
      obtain ⟨c, hc, he⟩ := List.mem_map.1 hm
      exact hnone c hc he
    · intro c hc
      rcases List.mem_cons.1 hc with rfl | hc
      · simp [HandleContext.filter, HandleContext.fresh, lastFilter]
      · rw [lastFilter, if_neg (Ne.symm (hnone c hc))]
        exact hi.filters c hc
  · rw [hl, hh]
    have hsub : (removeFakeHandle w.handleList k).Sublist w.handleList := List.eraseP_sublist
    exact ⟨hi.nodup.sublist (hsub.map _), fun c hc => hi.filters c (hsub.subset hc)⟩
  · rw [hl, hh]
    have hck : c.h = k := getHandleContext_h hc
    apply hi.set hc _ ((ioctlContext_h c code input).trans hck)
    · rw [ioctlContext_filter, lastFilter, hi.filters c (getHandleContext_mem hc), hck]
      simp
    · intro k' hk'
      rw [lastFilter, if_neg fun he => hk' he.1.symm]
  · rw [hl, hh]
    exact hi
  · rw [hl, hh]
    exact hi.setPending hc q

/-- A context replaced by one with the same filter. -/
theorem accepts_set {l : List HandleContext} {k : Handle} {c c' : HandleContext} (hc : getHandleContext l k = some c)
    (hh : c'.h = k) (hf : c'.filter = c.filter) (h : Handle) (frame : List UInt8) :
    (getHandleContext (setContext l c') h).any (isMacMatch frame) =
      (getHandleContext l h).any (isMacMatch frame) := by
  by_cases hk : k = h
  · subst hk
    rw [getHandleContext_setContext_self hc hh, hc]
    exact isMacMatch_congr hf frame
  · rw [getHandleContext_setContext_ne (by rw [hh]; exact hk)]

/-- **Isolation of the filter**: only the request that sets it, and closing the handle, change what it accepts. -/
theorem accepts_step {w w' : World} {a : Act} (hno : NoReuse w a) (hs : step w a = some w') {h : Handle}
    (hset : ¬ SetsFilter h a) (hclose : a ≠ .closeHandle h) (frame : List UInt8) :
    accepts w' h frame = accepts w h frame := by
  unfold accepts
  rcases step_contexts hs with ⟨rfl, hl, -⟩ | ⟨k, rfl, hl, -⟩ | ⟨k, code, input, outSize, ov, c, rfl, hc, hl, -⟩ |
    ⟨hl | ⟨k, c, q, hc, hl⟩, -⟩
  · rw [hl]
    by_cases hk : w.nextHandleId + 1 = h
    · -- a handle just opened accepts nothing, like one that is not open
      have hnone := hno rfl
      rw [hk] at hnone ⊢
      rw [hnone, getHandleContext, List.find?_cons_of_pos (by simp [HandleContext.is, HandleContext.fresh])]
      rfl
    · rw [getHandleContext, List.find?_cons_of_neg (by simpa [HandleContext.is, HandleContext.fresh] using hk)]
      rfl
  · have hk : k ≠ h := fun e => hclose (by rw [e])
    have hsame : getHandleContext (removeFakeHandle w.handleList k) h = getHandleContext w.handleList h := by
      unfold getHandleContext removeFakeHandle
      induction w.handleList with
      | nil => rfl
      | cons d ds ih =>
        by_cases hd : d.h = k
        · have hdn : ¬ HandleContext.is h d = true := by
            simp only [HandleContext.is, hd, beq_iff_eq]
            exact hk
          rw [List.eraseP_cons_of_pos (by simpa [HandleContext.is] using hd), List.find?_cons_of_neg hdn]
        · rw [List.eraseP_cons_of_neg (by simpa [HandleContext.is] using hd), List.find?_cons, List.find?_cons, ih]
    rw [hl, hsame]
  · rw [hl]
    by_cases hk : k = h
    · have hf : (ioctlContext c code input).filter = c.filter := by
        rw [ioctlContext_filter, if_neg]
        rintro ⟨rfl, hlen⟩
        exact hset ⟨input, outSize, ov, by rw [hk], hlen⟩
      exact accepts_set hc ((ioctlContext_h c code input).trans (getHandleContext_h hc)) hf h frame
    · have hne : (ioctlContext c code input).h ≠ h := by
        rw [ioctlContext_h, getHandleContext_h hc]
        exact hk
      rw [getHandleContext_setContext_ne hne]
  · rw [hl]
  · rw [hl]
    have hh : c.h = k := getHandleContext_h hc
    apply accepts_set hc
    · exact hh
    · rfl

/-- A completed read delivers a frame its handle accepts. -/
theorem delivered_matches {w : World} {h : Handle} {ov : OvPtr} {x : Delivery}
    (hx : (hookGetOverlappedResult w h ov).delivered = w.delivered ++ [x]) :
    x.h = h ∧ ∃ ctx, getHandleContext w.handleList h = some ctx ∧ isMacMatch x.frame ctx = true := by
  rcases getOverlappedResult_cases w h ov with he | ⟨ctx, req, rest, hctx, -, -, ⟨rx, -, he⟩ | ⟨d, rx, hl, he⟩⟩
  · rw [he] at hx
    simp at hx
  · rw [he] at hx
    simp [gorIncomplete] at hx
  · rw [he] at hx
    obtain rfl : deliveryOf ctx req d = x := by simpa [gorComplete] using hx
    obtain ⟨pre, -, -, hdel⟩ := recvLoop_deliverable hl
    refine ⟨getHandleContext_h hctx, ctx, hctx, ?_⟩
    exact (Bool.and_eq_true_iff.1 hdel).2

/-! ## Every run -/

theorem filterInv_run {tapActive : Bool} {ov : OvPtr → Overlapped} {buf : RxBuf} {as : List Act} {w : World}
    (hg : Guarded step NoReuse (World.init tapActive ov buf) as)
    (hr : run step (World.init tapActive ov buf) as = some w) : FilterInv w.handleList w.hist :=
  hg.invariant (I := fun w => FilterInv w.handleList w.hist) (fun _ _ _ hi hno hs => filterInv_step hi hno hs)
    ⟨by simp [World.init], by simp [World.init]⟩ hr

/-- **Filter soundness and isolation**: in every run that hands out no number of an open handle, a completed
read on `h` delivers a frame with the group bit or with the address of the latest filter request on `h`
since it was opened, and there is one; and what `h` accepts is changed by that request and by closing
`h` only. -/
theorem filter_sound (tapActive : Bool) (ov : OvPtr → Overlapped) (buf : RxBuf) (as : List Act) (w : World)
    (hg : Guarded step NoReuse (World.init tapActive ov buf) as)
    (hr : run step (World.init tapActive ov buf) as = some w) (h : Handle) :
    (∀ ov x w', step w (.getOverlappedResult h ov) = some w' → w'.delivered = w.delivered ++ [x] →
      x.h = h ∧ ∃ mac, lastFilter h w.hist = some mac ∧ (groupBit x.frame = true ∨ x.frame.take 6 = mac)) ∧
    ∀ a w', step w a = some w' → NoReuse w a → ¬ SetsFilter h a → a ≠ .closeHandle h →
      ∀ frame, accepts w' h frame = accepts w h frame := by
  have hi := filterInv_run hg hr
  refine ⟨?_, fun a w' hs hno hset hclose frame => accepts_step hno hs hset hclose frame⟩
  intro ov x w' hs hx
  obtain rfl := Option.some.inj hs
  obtain ⟨hxh, ctx, hctx, hmatch⟩ := delivered_matches hx
  obtain ⟨mac, hmac, hdest⟩ := isMacMatch_filter.1 hmatch
  refine ⟨hxh, mac, ?_, hdest⟩
  rw [← hmac, hi.filters ctx (getHandleContext_mem hctx), getHandleContext_h hctx]

/-- One handle is opened, its filter is set, and a frame waits for a read on it. -/
def filterRun : List Act :=
  [.createFile, .deviceIoControl 0x1001 0x228014 [0x02, 0x50, 0x00, 0x00, 0x00, 0x01] 0 none,
    .readFile 0x1001 (some 1) 0 2048 (some (1, ⟨0x0100007F, 40001⟩)), .poll .datagram, .poll (.frame broadcastFrame)]

theorem filter_sound_one : ∃ w, run step (World.init true (fun _ => ⟨0, 0⟩) (RxBuf.filled 0)) filterRun = some w ∧
    lastFilter 0x1001 w.hist = some [0x02, 0x50, 0x00, 0x00, 0x00, 0x01] ∧
    (∀ ov x w', step w (.getOverlappedResult 0x1001 ov) = some w' → w'.delivered = w.delivered ++ [x] →
      x.h = 0x1001 ∧ ∃ mac, lastFilter 0x1001 w.hist = some mac ∧ (groupBit x.frame = true ∨ x.frame.take 6 = mac)) ∧
    ∀ a w', step w a = some w' → NoReuse w a → ¬ SetsFilter 0x1001 a → a ≠ .closeHandle 0x1001 →
      ∀ frame, accepts w' 0x1001 frame = accepts w 0x1001 frame := by
  have hg : Guarded step NoReuse (World.init true (fun _ => ⟨0, 0⟩) (RxBuf.filled 0)) filterRun := by
    refine .cons (fun _ => rfl) rfl (.cons ?_ rfl (.cons ?_ rfl (.cons ?_ rfl (.cons ?_ rfl trivial)))) <;>
      intro h <;> cases h
  exact ⟨_, rfl, rfl, filter_sound true (fun _ => ⟨0, 0⟩) (RxBuf.filled 0) filterRun _ hg rfl 0x1001⟩

/-! ## When a number comes back -/

/-- Open a device and close it again, `n` times; `k` is the last number handed out before. -/
def openClose : Nat → Handle → List Act
  | 0, _ => []
  | n + 1, k => .createFile :: .closeHandle (k + 1) :: openClose n (k + 1)

/-- Opening and closing uses up numbers and leaves the other handles as they are. -/
theorem run_openClose (n : Nat) (w : World) : ∃ w', run step w (openClose n w.nextHandleId) = some w' ∧
    w'.handleList = w.handleList ∧ w'.nextHandleId = w.nextHandleId + UInt32.ofNat n := by
  induction n generalizing w with
  | zero => exact ⟨w, rfl, rfl, by simp⟩
  | succ n ih =>
    have hopen : step w .createFile = some (hookCreateFileW w) := rfl
    have hfound : getHandleContext (hookCreateFileW w).handleList (w.nextHandleId + 1) =
        some (HandleContext.fresh (w.nextHandleId + 1)) :=
      List.find?_cons_of_pos (by simp [HandleContext.is, HandleContext.fresh])
    have hgone : removeFakeHandle (hookCreateFileW w).handleList (w.nextHandleId + 1) = w.handleList :=
      List.eraseP_cons_of_pos (by simp [HandleContext.is, HandleContext.fresh])
    obtain ⟨w', hr, hl, hn⟩ := ih (hookCloseHandle (hookCreateFileW w) (w.nextHandleId + 1))
    have hnext : (hookCloseHandle (hookCreateFileW w) (w.nextHandleId + 1)).nextHandleId = w.nextHandleId + 1 := by
      simp only [hookCloseHandle, hfound]
      rfl
    have hlist : (hookCloseHandle (hookCreateFileW w) (w.nextHandleId + 1)).handleList = w.handleList := by
      simp only [hookCloseHandle, hfound, hgone]
    rw [hnext] at hr hn
    refine ⟨w', ?_, hl.trans hlist, ?_⟩
    · rw [openClose, run_cons_of _ hopen]
      exact (run_cons_of _ rfl).trans hr
    · rw [hn, UInt32.ofNat_add, UInt32.add_assoc, UInt32.add_comm (UInt32.ofNat n)]
      rfl

/-- **A filter lost to another open**: `0x1001` stays open while 2³² − 1 devices are opened and closed; the
next open hands out `0x1001` again, and the frames it accepted are accepted no longer. -/
theorem filter_lost : ∃ w w', w.Reachable ∧ step w .createFile = some w' ∧
    (getHandleContext w.handleList 0x1001).isSome = true ∧
    accepts w 0x1001 broadcastFrame = true ∧ accepts w' 0x1001 broadcastFrame = false := by
  obtain ⟨w, hr, hl, hn⟩ := run_openClose (2 ^ 32 - 1) filteredWorld
  obtain ⟨tapActive, ov, buf, hreach⟩ := filteredWorld_reachable
  have hnext : w.nextHandleId + 1 = 0x1001 := by
    rw [hn]
    decide
  have hhead : getHandleContext (hookCreateFileW w).handleList 0x1001 = some (HandleContext.fresh 0x1001) := by
    unfold hookCreateFileW
    rw [hnext]
    rfl
  refine ⟨w, hookCreateFileW w, ⟨tapActive, ov, buf, hreach.trans ⟨_, hr⟩⟩, rfl, ?_, ?_, ?_⟩
  · rw [hl]
    rfl
  · rw [accepts, hl]
    rfl
  · rw [accepts, hhead]
    rfl

end Rvpn
