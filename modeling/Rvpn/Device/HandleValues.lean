import Rvpn.Device.Filter

/-!
# Emulated and real handles (inject.c:92-173)

`AddFakeHandle` numbers the emulated handles from `0x1001` on, one by one. The kernel's handles are non-zero
multiples of 4, and six hooks tell the two apart by looking the value up in `g_HandleList`.

| here | there |
| --- | --- |
| `hookOut`                   | `if (GetHandleContext(h)) … else return Real_…(h, …)` |
| `readFileOut`, `writeFileOut`, `closeHandleOut` | `inject.c:282-453` |
| `deviceIoControlOut`, `getOverlappedResultOut`  | `inject.c:474-696` |
| `hookWaitForSingleObject`   | `emulate_driver_running.c:4787-4799` |

* `handles_apart_iff` — the handles stay apart exactly in the runs that open the device at most three times.
-/

namespace Rvpn

/-! ## What a hook does with a handle -/

/-- How a hook ends: in the real API, with the arguments it was called with, or in an answer of its own. -/
inductive HookOut (α : Type) where
  | forwarded
  | emulated (r : α)

/-- `Hook_WaitForSingleObject` on an emulated handle does not return. -/
inductive WaitOut where
  | blocksForever
deriving DecidableEq, Repr

section
variable {α : Type}

/-- The decision all six hooks make. -/
def hookOut (w : World) (h : Handle) (own : HandleContext → α) : HookOut α :=
  match getHandleContext w.handleList h with
  | none => .forwarded
  | some ctx => .emulated (own ctx)

end

def closeHandleOut (w : World) (h : Handle) : HookOut World := hookOut w h fun _ => hookCloseHandle w h

def readFileOut (w : World) (h : Handle) (ov : Option OvPtr) (buffer : Nat) (buflen : UInt32)
    (sk : Option (Socket × SockAddr)) : HookOut World :=
  hookOut w h fun _ => hookReadFile w h ov buffer buflen sk

def writeFileOut (w : World) (h : Handle) (buf : List UInt8) (ov : Option OvPtr) (src : Option SockAddr) :
    HookOut (Option World) :=
  hookOut w h fun _ => hookWriteFile w h buf ov src

def deviceIoControlOut (w : World) (h : Handle) (code : UInt32) (input : List UInt8) (outSize : Nat)
    (ov : Option OvPtr) : HookOut World :=
  hookOut w h fun _ => hookDeviceIoControl w h code input outSize ov

def getOverlappedResultOut (w : World) (h : Handle) (ov : OvPtr) : HookOut World :=
  hookOut w h fun _ => hookGetOverlappedResult w h ov

def hookWaitForSingleObject (w : World) (h : Handle) : HookOut WaitOut := hookOut w h fun _ => .blocksForever

/-- All six hooks pass every call on `h` to the real API. -/
structure Forwards (w : World) (h : Handle) : Prop where
  closeHandle : closeHandleOut w h = .forwarded
  readFile : ∀ ov buffer buflen sk, readFileOut w h ov buffer buflen sk = .forwarded
  writeFile : ∀ buf ov src, writeFileOut w h buf ov src = .forwarded
  deviceIoControl : ∀ code input outSize ov, deviceIoControlOut w h code input outSize ov = .forwarded
  getOverlappedResult : ∀ ov, getOverlappedResultOut w h ov = .forwarded
  waitForSingleObject : hookWaitForSingleObject w h = .forwarded

/-- A value a handle of the kernel can have. -/
def IsKernelHandle (h : Handle) : Prop := h ≠ 0 ∧ 4 ∣ h.toNat

instance (h : Handle) : Decidable (IsKernelHandle h) := inferInstanceAs (Decidable (_ ∧ _))

/-- **Emulated and real handles are apart.** -/
structure HandlesApart (w : World) : Prop where
  notKernel : ∀ ctx ∈ w.handleList, ¬ IsKernelHandle ctx.h
  distinct : (w.handleList.map HandleContext.h).Nodup
  forwards : ∀ h, IsKernelHandle h → Forwards w h

theorem hookOut_forwarded {α : Type} {w : World} {h : Handle} (hnone : getHandleContext w.handleList h = none)
    (own : HandleContext → α) : hookOut w h own = .forwarded := by
  rw [hookOut, hnone]

/-- A handle that is not in the list is forwarded, and the call leaves the emulation as it is. -/
theorem forwards_of_notMem {w : World} {h : Handle} (hnone : getHandleContext w.handleList h = none) :
    Forwards w h ∧ hookCloseHandle w h = w ∧ (∀ ov b n sk, hookReadFile w h ov b n sk = w) ∧
      (∀ buf ov src, hookWriteFile w h buf ov src = some w) ∧
      (∀ code input n ov, hookDeviceIoControl w h code input n ov = w) ∧ ∀ ov, hookGetOverlappedResult w h ov = w := by
  refine ⟨⟨?_, ?_, ?_, ?_, ?_, ?_⟩, ?_, ?_, ?_, ?_, ?_⟩
  · exact hookOut_forwarded hnone _
  · exact fun _ _ _ _ => hookOut_forwarded hnone _
  · exact fun _ _ _ => hookOut_forwarded hnone _
  · exact fun _ _ _ _ => hookOut_forwarded hnone _
  · exact fun _ => hookOut_forwarded hnone _
  · exact hookOut_forwarded hnone _
  · rw [hookCloseHandle, hnone]
  · intro ov b n sk
    rw [hookReadFile, hnone]
  · intro buf ov src
    rw [hookWriteFile, hnone]
  · intro code input n ov
    rw [hookDeviceIoControl, hnone]
  · intro ov
    rw [hookGetOverlappedResult, hnone]

/-! ## Opens and closes -/

/-- A call of `Hook_CreateFileW` on the device path, or of `Hook_CloseHandle`. -/
inductive OpenClose where
  | opened
  | closed (h : Handle)
deriving DecidableEq, Repr

def OpenClose.apply (w : World) : OpenClose → World
  | .opened => hookCreateFileW w
  | .closed h => hookCloseHandle w h

/-- How often the device is opened. -/
def opens (as : List OpenClose) : Nat := as.count .opened

/-- After `n` opens: the counter, and the handles in use, the newest first. -/
structure Numbered (n : Nat) (w : World) : Prop where
  next : w.nextHandleId.toNat = 0x1000 + n
  bounds : ∀ ctx ∈ w.handleList, 0x1000 < ctx.h.toNat ∧ ctx.h.toNat ≤ 0x1000 + n
  distinct : (w.handleList.map HandleContext.h).Nodup

theorem numbered_init (tapActive : Bool) (ov : OvPtr → Overlapped) (buf : RxBuf) :
    Numbered 0 (World.init tapActive ov buf) := ⟨rfl, by simp [World.init], List.nodup_nil⟩

/-- Short of a wrap, an open takes the next number. -/
theorem Numbered.opened {n : Nat} {w : World} (h : Numbered n w) (hn : 0x1000 + n + 1 < 2 ^ 32) :
    Numbered (n + 1) (hookCreateFileW w) ∧ ∃ rest, (hookCreateFileW w).handleList = .fresh (w.nextHandleId + 1) :: rest ∧
      (w.nextHandleId + 1).toNat = 0x1000 + (n + 1) := by
  have hsucc : (w.nextHandleId + 1).toNat = 0x1000 + (n + 1) := by
    rw [UInt32.toNat_add, UInt32.toNat_one, h.next, Nat.mod_eq_of_lt (by omega)]
    omega
  refine ⟨⟨hsucc, ?_, ?_⟩, w.handleList, rfl, hsucc⟩
  · intro ctx hctx
    rcases List.mem_cons.1 hctx with rfl | hctx
    · simp only [HandleContext.fresh, hsucc]
      omega
    · have hb := h.bounds ctx hctx
      omega
  · refine List.nodup_cons.2 ⟨fun hmem => ?_, h.distinct⟩
    obtain ⟨ctx, hctx, heq⟩ := List.mem_map.1 hmem
    have hb := (h.bounds ctx hctx).2
    rw [heq] at hb
    simp only [HandleContext.fresh, hsucc] at hb
    omega

/-- A close frees a number and gives none out. -/
theorem Numbered.closed {n : Nat} {w : World} (h : Numbered n w) (k : Handle) : Numbered n (hookCloseHandle w k) := by
  unfold hookCloseHandle
  cases hk : getHandleContext w.handleList k with
  | none => exact h
  | some ctx =>
    have hsub : (removeFakeHandle w.handleList k).Sublist w.handleList := List.eraseP_sublist
    exact ⟨h.next, fun c hc => h.bounds c (hsub.subset hc), h.distinct.sublist (hsub.map _)⟩

theorem Numbered.run (as : List OpenClose) {n : Nat} {w : World} (h : Numbered n w)
    (hn : 0x1000 + n + opens as < 2 ^ 32) : Numbered (n + opens as) (as.foldl OpenClose.apply w) := by
  induction as generalizing n w with
  | nil => exact h
  | cons a as ih =>
    cases a with
    | opened =>
      have hcount : opens (.opened :: as) = opens as + 1 := List.count_cons_self
      rw [hcount] at hn ⊢
      rw [Nat.add_comm (opens as), ← Nat.add_assoc]
      exact ih (h.opened (by omega)).1 (by omega)
    | closed k =>
      have hcount : opens (.closed k :: as) = opens as := List.count_cons_of_ne (by simp)
      rw [hcount] at hn ⊢
      exact ih (h.closed k) hn

/-- With the numbers `0x1001`, `0x1002` and `0x1003` only, the handles are apart. -/
theorem Numbered.apart {n : Nat} {w : World} (h : Numbered n w) (hn : n ≤ 3) : HandlesApart w := by
  have hkernel : ∀ ctx ∈ w.handleList, ¬ IsKernelHandle ctx.h := by
    rintro ctx hctx ⟨-, hdvd⟩
    have hb := h.bounds ctx hctx
    omega
  refine ⟨hkernel, h.distinct, fun k hk => ?_⟩
  refine (forwards_of_notMem (getHandleContext_none_iff.2 fun ctx hctx heq => ?_)).1
  exact hkernel ctx hctx (heq ▸ hk)

/-- A run with a fourth open comes to it. -/
theorem exists_fourth {as : List OpenClose} (h : 3 < opens as) :
    ∃ pre post, as = pre ++ .opened :: post ∧ opens pre = 3 := by
  induction as using List.reverseRecOn with
  | nil => cases h
  | append_singleton as a ih =>
    by_cases has : 3 < opens as
    · obtain ⟨pre, post, rfl, hpre⟩ := ih has
      exact ⟨pre, post ++ [a], by simp, hpre⟩
    · cases a with
      | opened =>
        have hcount : opens (as ++ [.opened]) = opens as + 1 := by simp [opens]
        exact ⟨as, [], rfl, by omega⟩
      | closed k =>
        have hcount : opens (as ++ [.closed k]) = opens as := by simp [opens]
        omega

/-- **Emulated handles and real ones**: they are apart in all states of a run exactly if it opens the device
at most three times. -/
theorem handles_apart_iff (tapActive : Bool) (ov : OvPtr → Overlapped) (buf : RxBuf) (as : List OpenClose) :
    (∀ pre post, as = pre ++ post → HandlesApart (pre.foldl OpenClose.apply (.init tapActive ov buf))) ↔
      opens as ≤ 3 := by
  have hinit := numbered_init tapActive ov buf
  constructor
  · intro h
    by_contra hcon
    obtain ⟨pre, post, rfl, hpre⟩ := exists_fourth (Nat.lt_of_not_le hcon)
    have hnum := Numbered.run pre hinit (by omega)
    rw [Nat.zero_add, hpre] at hnum
    obtain ⟨rest, hlist, hval⟩ := (hnum.opened (by decide)).2
    have hap := h (pre ++ [.opened]) post (by simp)
    rw [List.foldl_append, List.foldl_cons, List.foldl_nil] at hap
    refine hap.notKernel _ (by rw [OpenClose.apply, hlist]; exact List.mem_cons_self) ⟨?_, ?_⟩
    · intro h0
      have hz := hval.symm.trans (congrArg UInt32.toNat h0)
      cases hz
    · rw [HandleContext.fresh, hval]
      decide
  · rintro hle pre post rfl
    have hcount : opens (pre ++ post) = opens pre + opens post := List.count_append
    exact (Numbered.run pre hinit (by omega)).apart (by omega)

/-- **Four opens**: the fourth handle is `0x1004`, and a wait for the real `0x1004` never returns. -/
theorem fourth_handle_captured :
    let w := (List.replicate 4 OpenClose.opened).foldl OpenClose.apply
      (.init true (fun _ => ⟨0, 0⟩) (RxBuf.filled 0))
    IsKernelHandle 0x1004 ∧ w.handleList.map HandleContext.h = [0x1004, 0x1003, 0x1002, 0x1001] ∧
      hookWaitForSingleObject w 0x1004 = .emulated .blocksForever ∧ ¬ HandlesApart w := by
  refine ⟨by decide, rfl, rfl, fun hap => ?_⟩
  exact hap.notKernel (.fresh 0x1004) (List.mem_cons_self) (by decide)

end Rvpn
