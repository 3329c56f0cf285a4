import Rvpn.Lib.Detour

/-!
# Trampoline hooks (emulate_driver_running.c:5431-5468, :5676-5747)

The functions of `advapi32.dll` that deal with security descriptors are also hooked where they begin:
`InstallTrampolineHook` overwrites the first five bytes with a jump to the hook, and puts a copy of them, with a jump
back, where the hook finds the real function.

| here | there |
| --- | --- |
| `Job`                   | one call: `GetProcAddress` gives `target`, `VirtualAlloc` gives `tramp`, each possibly NULL |
| `installTrampolineHook` | `InstallTrampolineHook`; `VirtualProtect` succeeds |
| `installAll`            | the calls of `InstallSecurityHooks`, one after another |

`if (Real_X) InstallTrampolineHook(..)` does nothing either where `GetProcAddress` gives NULL. Five bytes may end in the
middle of an instruction, and an instruction may say where it jumps relative to where it is; `Plan` asks that neither
is so for the functions that are hooked. Under it `trampolines_transparent` says that every hook is reached, and that
what `Real_X` points to does what the function did before, whichever allocations have failed.
-/

namespace Rvpn.Trampoline

open Flat Detour

variable {R : Type}

structure Job where
  target : Option Addr
  tramp : Option Addr
  hookFunc : Addr
  /-- `*realFuncOut` before: NULL, or what `GetProcAddress` gives. -/
  real : Option Addr

/-- The memory and `*realFuncOut` afterwards; `none` is a fault. -/
def installTrampolineHook (m : Mem) (j : Job) : Option (Mem × Option Addr) :=
  match j.target, j.tramp with
  | some target, some tramp => do
    let m ← copy (m.map tramp 10) tramp target 5
    let m ← writeJmp m (tramp + 5) (target + 5)
    let m ← writeJmp m target j.hookFunc
    some (m, some tramp)
  | _, _ => some (m, j.real)

def installAll : Mem → List Job → Option (Mem × List (Option Addr))
  | m, [] => some (m, [])
  | m, j :: js => do
    let (m, real) ← installTrampolineHook m j
    let (m, reals) ← installAll m js
    some (m, real :: reals)

/-- The bytes a call may write to. -/
def Job.Touches (j : Job) (b : Addr) : Prop :=
  ∃ target tramp, j.target = some target ∧ j.tramp = some tramp ∧ (InSpan target 5 b ∨ InSpan tramp 10 b)

/-- **What the installation relies on**: the functions are apart and begin with whole instructions of five bytes that
can be moved; `VirtualAlloc` gives memory that was not in use. -/
structure Plan (isa : Isa R) (m : Mem) (js : List Job) : Prop where
  mapped : ∀ j ∈ js, ∀ target, j.target = some target → ∀ b, InSpan target 5 b → (m b).isSome
  prologue : ∀ j ∈ js, ∀ target, j.target = some target → ∃ is, Prologue isa m target is 5
  fresh : ∀ j ∈ js, ∀ tramp, j.tramp = some tramp → ∀ b, InSpan tramp 10 b → m b = none
  targets : js.Pairwise fun i j => ∀ s t, i.target = some s → j.target = some t → ∀ b, InSpan s 5 b → ¬ InSpan t 5 b
  tramps : js.Pairwise fun i j => ∀ s t, i.tramp = some s → j.tramp = some t → ∀ b, InSpan s 10 b → ¬ InSpan t 10 b
  reals : ∀ j ∈ js, ∀ p, j.real = some p → j.target = some p

/-- **What it achieves** for one function: a call gets to the hook, unless the trampoline could not be allocated, and
`real`, unless it is NULL, runs the prologue `m` has there and goes on behind it. -/
structure Job.Done (isa : Isa R) (m m' : Mem) (j : Job) (real : Option Addr) : Prop where
  hooked : ∀ target tramp, j.target = some target → j.tramp = some tramp →
    real = some tramp ∧ ∀ r, step isa m' (target, r) = some (j.hookFunc, r)
  transparent : ∀ p, real = some p → ∃ target n k, j.target = some target ∧
    ∀ r, steps isa m' k (p, r) = steps isa m n (target, r) ∧
      ∀ s, steps isa m n (target, r) = some s → s.1 = target + 5

variable {isa : Isa R} {m m' : Mem} {j : Job} {js : List Job}

theorem inSpan_of_tail {tramp b : Addr} (h : InSpan (tramp + 5) 5 b) : InSpan tramp 10 b ∧ ¬ InSpan tramp 5 b := by
  obtain ⟨k, hk, rfl⟩ := (inSpan_iff (by decide)).1 h
  have hb : tramp + 5 + UInt32.ofNat k = tramp + UInt32.ofNat (5 + k) := add_add_ofNat tramp 5 k
  rw [hb]
  refine ⟨inSpan_add (by decide) (by omega), fun hin => ?_⟩
  obtain ⟨i, hi, he⟩ := (inSpan_iff (by decide)).1 hin
  have := add_ofNat_inj (by omega) (by omega) he
  omega

theorem inSpan_of_head {tramp b : Addr} (h : InSpan tramp 5 b) : InSpan tramp 10 b := Nat.lt_trans h (by decide)

/-- **One call.** -/
theorem installTrampolineHook_spec {target tramp : Addr} (htarget : j.target = some target) (htramp : j.tramp = some tramp)
    (hmapped : ∀ b, InSpan target 5 b → (m b).isSome) (hfresh : ∀ b, InSpan tramp 10 b → m b = none) :
    ∃ m', installTrampolineHook m j = some (m', some tramp) ∧ JmpAt m' target j.hookFunc ∧
      (∀ k < 5, m' (tramp + UInt32.ofNat k) = m (target + UInt32.ofNat k)) ∧ JmpAt m' (tramp + 5) (target + 5) ∧
      ∀ b, ¬ InSpan target 5 b → ¬ InSpan tramp 10 b → m' b = m b := by
  -- the trampoline is in none of the bytes of the function
  have hdis : ∀ b, InSpan target 5 b → ¬ InSpan tramp 10 b := fun b hb hb' => by
    have := hmapped b hb
    rw [hfresh b hb'] at this
    cases this
  have hmap : ∀ b, InSpan tramp 10 b → ((m.map tramp 10) b).isSome := fun b hb => by rw [Mem.map, if_pos hb]; rfl
  have hkeep : ∀ b, ¬ InSpan tramp 10 b → (m.map tramp 10) b = m b := fun b hb => if_neg hb
  obtain ⟨m₁, h₁, hcopied, hoff₁, hmapped₁⟩ := copy_spec (n := 5) (by decide)
    (fun b hb => by rw [hkeep b (hdis b hb)]; exact hmapped b hb) (fun b hb => hmap b (inSpan_of_head hb))
    fun b hb hb' => hdis b hb (inSpan_of_head hb')
  obtain ⟨m₂, h₂, hback, hoff₂, hmapped₂⟩ :=
    writeJmp_spec (fun b hb => hmapped₁ b (hmap b (inSpan_of_tail hb).1)) (target + 5)
  obtain ⟨m₃, h₃, hhook, hoff₃, -⟩ := writeJmp_spec
    (fun b hb => hmapped₂ b (hmapped₁ b (by rw [hkeep b (hdis b hb)]; exact hmapped b hb))) j.hookFunc
  refine ⟨m₃, by simp [installTrampolineHook, htarget, htramp, h₁, h₂, h₃], hhook, fun k hk => ?_,
    hback.congr fun b hb => hoff₃ b fun hb' => hdis b hb' (inSpan_of_tail hb).1, fun b hb hb' => ?_⟩
  · have hin : InSpan tramp 5 (tramp + UInt32.ofNat k) := inSpan_add (by decide) hk
    rw [hoff₃ _ fun hb => hdis _ hb (inSpan_of_head hin), hoff₂ _ fun hb => (inSpan_of_tail hb).2 hin, hcopied k hk,
      hkeep _ (hdis _ (inSpan_add (by decide) hk))]
  · rw [hoff₃ b hb, hoff₂ b fun h => hb' (inSpan_of_tail h).1, hoff₁ b fun h => hb' (inSpan_of_head h), hkeep b hb']

/-- What one call leaves behind, for the function as it was in `m`. -/
def Job.Installed (m m' : Mem) (j : Job) (real : Option Addr) : Prop :=
  match j.target, j.tramp with
  | some target, some tramp => real = some tramp ∧ JmpAt m' target j.hookFunc ∧
      (∀ k < 5, m' (tramp + UInt32.ofNat k) = m (target + UInt32.ofNat k)) ∧ JmpAt m' (tramp + 5) (target + 5)
  | some target, none => real = j.real ∧ ∀ k < 5, m' (target + UInt32.ofNat k) = m (target + UInt32.ofNat k)
  | none, _ => real = j.real

/-- The bytes of the function and of the trampoline. -/
def Job.Owns (j : Job) (b : Addr) : Prop :=
  (∃ target, j.target = some target ∧ InSpan target 5 b) ∨ ∃ tramp, j.tramp = some tramp ∧ InSpan tramp 10 b

theorem Job.Touches.owns {b : Addr} : j.Touches b → j.Owns b
  | ⟨target, _, htarget, _, .inl hb⟩ => .inl ⟨target, htarget, hb⟩
  | ⟨_, tramp, _, htramp, .inr hb⟩ => .inr ⟨tramp, htramp, hb⟩

/-- It stays so while others do not touch what belongs to the function. -/
theorem Job.Installed.congr {m₀ m'' : Mem} {real : Option Addr} (h : j.Installed m m' real)
    (hbefore : ∀ b, j.Owns b → m b = m₀ b) (hafter : ∀ b, j.Owns b → m'' b = m' b) : j.Installed m₀ m'' real := by
  unfold Job.Installed at h ⊢
  split at h
  · next target tramp htarget htramp =>
    obtain ⟨hreal, hhook, hcopy, hback⟩ := h
    have hin : ∀ {k}, k < 5 → j.Owns (tramp + UInt32.ofNat k) := fun hk =>
      .inr ⟨tramp, htramp, inSpan_of_head (inSpan_add (by decide) hk)⟩
    refine ⟨hreal, hhook.congr fun b hb => hafter b (.inl ⟨target, htarget, hb⟩), fun k hk => ?_,
      hback.congr fun b hb => hafter b (.inr ⟨tramp, htramp, (inSpan_of_tail hb).1⟩)⟩
    rw [hafter _ (hin hk), hcopy k hk, hbefore _ (.inl ⟨target, htarget, inSpan_add (by decide) hk⟩)]
  · next target htarget htramp =>
    refine ⟨h.1, fun k hk => ?_⟩
    have hin : j.Owns (target + UInt32.ofNat k) := .inl ⟨target, htarget, inSpan_add (by decide) hk⟩
    rw [hafter _ hin, h.2 k hk, hbefore _ hin]
  · exact h

theorem installTrampolineHook_installed (hp : Plan isa m (j :: js)) :
    ∃ m' real, installTrampolineHook m j = some (m', real) ∧ j.Installed m m' real ∧ ∀ b, ¬ j.Touches b → m' b = m b := by
  cases htarget : j.target with
  | none => exact ⟨m, j.real, by simp [installTrampolineHook, htarget], by simp [Job.Installed, htarget], fun _ _ => rfl⟩
  | some target =>
    cases htramp : j.tramp with
    | none =>
      exact ⟨m, j.real, by simp [installTrampolineHook, htarget, htramp], by simp [Job.Installed, htarget, htramp],
        fun _ _ => rfl⟩
    | some tramp =>
      obtain ⟨m', hrun, hhook, hcopy, hback, hoff⟩ := installTrampolineHook_spec htarget htramp
        (hp.mapped j (by simp) target htarget) (hp.fresh j (by simp) tramp htramp)
      refine ⟨m', some tramp, hrun, ?_, fun b hb => hoff b (fun h => hb ⟨target, tramp, htarget, htramp, .inl h⟩)
        fun h => hb ⟨target, tramp, htarget, htramp, .inr h⟩⟩
      rw [Job.Installed, htarget, htramp]
      exact ⟨rfl, hhook, hcopy, hback⟩

/-! ## One function after another -/

/-- No two functions of a plan share a byte. -/
theorem Plan.apart (hp : Plan isa m (j :: js)) {i : Job} (hi : i ∈ js) {b : Addr} (hb : j.Owns b) : ¬ i.Owns b := by
  have hi' : i ∈ j :: js := List.mem_cons_of_mem _ hi
  have hclash : ∀ {k l : Job}, k ∈ j :: js → l ∈ j :: js → (∃ t, k.target = some t ∧ InSpan t 5 b) →
      ¬ ∃ t, l.tramp = some t ∧ InSpan t 10 b := by
    rintro k l hk hl ⟨t, ht, hbt⟩ ⟨u, hu, hbu⟩
    have hmapped := hp.mapped k hk t ht b hbt
    rw [hp.fresh l hl u hu b hbu] at hmapped
    cases hmapped
  intro hib
  rcases hb with ⟨t, ht, hbt⟩ | ⟨t, ht, hbt⟩
  · rcases hib with ⟨u, hu, hbu⟩ | hib
    · exact (List.pairwise_cons.1 hp.targets).1 i hi t u ht hu b hbt hbu
    · exact hclash List.mem_cons_self hi' ⟨t, ht, hbt⟩ hib
  · rcases hib with hib | ⟨u, hu, hbu⟩
    · exact hclash hi' List.mem_cons_self hib ⟨t, ht, hbt⟩
    · exact (List.pairwise_cons.1 hp.tramps).1 i hi t u ht hu b hbt hbu

/-- The rest of a plan is one for what the first call leaves. -/
theorem Plan.tail (hp : Plan isa m (j :: js)) (hoff : ∀ b, ¬ j.Touches b → m' b = m b) : Plan isa m' js := by
  have hsame : ∀ i ∈ js, ∀ b, i.Owns b → m' b = m b := fun i hi b hb =>
    hoff b fun h => hp.apart hi h.owns hb
  refine ⟨fun i hi t ht b hb => ?_, fun i hi t ht => ?_, fun i hi t ht b hb => ?_, (List.pairwise_cons.1 hp.targets).2,
    (List.pairwise_cons.1 hp.tramps).2, fun i hi => hp.reals i (List.mem_cons_of_mem _ hi)⟩
  · rw [hsame i hi b (.inl ⟨t, ht, hb⟩)]
    exact hp.mapped i (List.mem_cons_of_mem _ hi) t ht b hb
  · obtain ⟨is, his⟩ := hp.prologue i (List.mem_cons_of_mem _ hi) t ht
    exact ⟨is, his.copied fun k hk => hsame i hi _ (.inl ⟨t, ht, inSpan_add (by decide) hk⟩)⟩
  · rw [hsame i hi b (.inr ⟨t, ht, hb⟩)]
    exact hp.fresh i (List.mem_cons_of_mem _ hi) t ht b hb

theorem installAll_installed (hp : Plan isa m js) :
    ∃ m' reals, installAll m js = some (m', reals) ∧ reals.length = js.length ∧
      (∀ x ∈ js.zip reals, x.1.Installed m m' x.2) ∧ ∀ b, (∀ j ∈ js, ¬ j.Touches b) → m' b = m b := by
  induction js generalizing m with
  | nil => exact ⟨m, [], rfl, rfl, by simp, fun _ _ => rfl⟩
  | cons j js ih =>
    obtain ⟨m₁, real, hrun, hinst, hoff⟩ := installTrampolineHook_installed hp
    obtain ⟨m₂, reals, hrest, hlen, hall, hoff'⟩ := ih (hp.tail hoff)
    refine ⟨m₂, real :: reals, by simp [installAll, hrun, hrest], by simp [hlen], fun x hx => ?_, fun b hb => ?_⟩
    · rcases List.mem_cons.1 hx with rfl | hx
      · exact hinst.congr (fun _ _ => rfl) fun b hb => hoff' b fun i hi h => hp.apart hi hb h.owns
      · have hmem : x.1 ∈ js := (List.of_mem_zip hx).1
        exact (hall x hx).congr (fun b hb => hoff b fun h => hp.apart hmem h.owns hb) fun _ _ => rfl
    · rw [hoff' b fun i hi => hb i (List.mem_cons_of_mem _ hi), hoff b (hb j List.mem_cons_self)]

/-- What the bytes say, as what the processor does. -/
theorem Job.Installed.done {real : Option Addr} (hp : Plan isa m js) (hj : j ∈ js) (h : j.Installed m m' real) :
    j.Done isa m m' real := by
  unfold Job.Installed at h
  split at h
  · next target tramp htarget htramp =>
    obtain ⟨rfl, hhook, hcopy, hback⟩ := h
    obtain ⟨is, his⟩ := hp.prologue j hj target htarget
    refine ⟨fun t a ht ha => ?_, fun p hpr => ⟨target, is.length, is.length + 1, htarget, fun r => ?_⟩⟩
    · rw [htarget] at ht
      rw [htramp] at ha
      cases ht
      cases ha
      exact ⟨rfl, fun r => jmp_step hhook⟩
    · cases hpr
      rw [trampoline_steps (his.copied hcopy) hback, his.steps]
      refine ⟨rfl, fun s hs => ?_⟩
      obtain ⟨r', -, rfl⟩ := Option.map_eq_some_iff.1 hs
      rfl
  · next target htarget htramp =>
    obtain ⟨is, his⟩ := hp.prologue j hj target htarget
    refine ⟨fun t a ht ha => ?_, fun p hpr => ⟨target, is.length, is.length, htarget, fun r => ?_⟩⟩
    · rw [htramp] at ha
      cases ha
    · have hpt := hp.reals j hj p (h.1 ▸ hpr)
      rw [htarget] at hpt
      cases hpt
      rw [(his.copied h.2).steps, his.steps]
      refine ⟨rfl, fun s hs => ?_⟩
      obtain ⟨r', -, rfl⟩ := Option.map_eq_some_iff.1 hs
      rfl
  · next htarget =>
    refine ⟨fun t a ht ha => ?_, fun p hpr => ?_⟩
    · rw [htarget] at ht
      cases ht
    · have hpt := hp.reals j hj p (h ▸ hpr)
      rw [htarget] at hpt
      cases hpt

/-- **The hooks are reached, and the real functions are still there.** Whichever functions exist and whichever
allocations succeed, the installation runs through; every function with a trampoline then jumps to its hook; what `Real_X`
points to does what the function did before, up to its sixth byte; and no other byte has changed. -/
theorem trampolines_transparent (hp : Plan isa m js) :
    ∃ m' reals, installAll m js = some (m', reals) ∧ reals.length = js.length ∧
      (∀ x ∈ js.zip reals, x.1.Done isa m m' x.2) ∧ ∀ b, (∀ j ∈ js, ¬ j.Touches b) → m' b = m b := by
  obtain ⟨m', reals, hrun, hlen, hall, hoff⟩ := installAll_installed hp
  exact ⟨m', reals, hrun, hlen, fun x hx => (hall x hx).done hp (List.of_mem_zip hx).1, hoff⟩

/-! ## A processor -/

/-- `ebp` and what has been pushed. -/
structure Regs where
  ebp : Addr
  stack : List Addr

/-- `push ebp`, `mov edi, edi`, `mov ebp, esp` and the jump. -/
def decode (m : Mem) (a : Addr) : Option (Instr Regs) :=
  match m a with
  | some 0x55 => some ⟨1, fun next r => some (next, { r with stack := r.ebp :: r.stack })⟩
  | some 0x8B =>
    match m (a + 1) with
    | some 0xFF => some ⟨2, fun next r => some (next, r)⟩
    | some 0xEC => some ⟨2, fun next r => some (next, { r with ebp := 0 - 4 * UInt32.ofNat r.stack.length })⟩
    | _ => none
  | some 0xE9 => (read32 m (a + 1)).map fun rel => ⟨5, fun next r => some (next + rel, r)⟩
  | _ => none

theorem decode_moved {m m' : Mem} {a a' : Addr} {i : Instr Regs} (h : decode m a = some i)
    (heq : ∀ k < i.length, m' (a' + UInt32.ofNat k) = m (a + UInt32.ofNat k)) : decode m' a' = some i := by
  have hat : 0 < i.length → m' a' = m a := fun h0 => by simpa using heq 0 h0
  unfold decode at h
  split at h
  · next ha =>
    cases h
    simp only [decode, hat (by decide), ha]
  · next ha =>
    split at h
    · next hb =>
      cases h
      have h1 : m' (a' + 1) = m (a + 1) := heq 1 (by decide)
      simp only [decode, hat (by decide), ha, h1, hb]
    · next hb =>
      cases h
      have h1 : m' (a' + 1) = m (a + 1) := heq 1 (by decide)
      simp only [decode, hat (by decide), ha, h1, hb]
    · cases h
  · next ha =>
    obtain ⟨rel, hrel, rfl⟩ := Option.map_eq_some_iff.1 h
    have heq' : ∀ k < 5, m' (a' + UInt32.ofNat k) = m (a + UInt32.ofNat k) := heq
    have hread : read32 m' (a' + 1) = read32 m (a + 1) := read32_moved fun k hk => by
      have hone : ∀ b : Addr, b + 1 + UInt32.ofNat k = b + UInt32.ofNat (1 + k) := fun b => add_add_ofNat b 1 k
      rw [hone, hone]
      exact heq' _ (by omega)
    have ha' : m' a' = some 0xE9 := by
      have := heq' 0 (by decide)
      simpa [ha] using this
    simp only [decode, ha', hread, hrel, Option.map_some]
  · cases h

def few : Isa Regs where
  decode := decode
  moved := decode_moved
  jmp ha hrel := by simp only [decode, ha, hrel, Option.map_some]

/-- Two functions; the second one comes right behind the first. -/
def code (b : Addr) : Option UInt8 :=
  if 0x1000 ≤ b then [0x8B, 0xFF, 0x55, 0x8B, 0xEC, 0x55, 0x8B, 0xEC, 0x8B, 0xFF, 0x55][(b - 0x1000).toNat]? else none

/-- For the second one there is no memory left. -/
def jobs : List Job := [⟨some 0x1000, some 0x2000, 0x3000, none⟩, ⟨some 0x1005, none, 0x3100, some 0x1005⟩]

theorem code_plan : Plan few code jobs where
  mapped := by
    intro j hj t ht
    rw [forall_inSpan (by decide)]
    rcases List.mem_pair.1 hj with rfl | rfl
    · cases ht
      decide
    · cases ht
      decide
  prologue := by
    intro j hj t ht
    rcases List.mem_pair.1 hj with rfl | rfl
    · cases ht
      exact ⟨[_, _, _], rfl, fun _ _ => rfl, by decide, rfl, fun _ _ => rfl, by decide, rfl, fun _ _ => rfl, by decide, rfl⟩
    · cases ht
      exact ⟨[_, _, _], rfl, fun _ _ => rfl, by decide, rfl, fun _ _ => rfl, by decide, rfl, fun _ _ => rfl, by decide, rfl⟩
  fresh := by
    intro j hj t ht
    rw [forall_inSpan (by decide)]
    rcases List.mem_pair.1 hj with rfl | rfl
    · cases ht
      decide
    · cases ht
  targets := by
    refine List.pairwise_pair.2 fun s t hs ht => ?_
    cases hs
    cases ht
    rw [forall_inSpan (by decide)]
    decide
  tramps := by
    refine List.pairwise_pair.2 fun s t _ ht => ?_
    cases ht
  reals := by
    intro j hj p hp
    rcases List.mem_pair.1 hj with rfl | rfl
    · cases hp
    · cases hp
      rfl

theorem trampolines_transparent_code : ∃ m' reals, installAll code jobs = some (m', reals) ∧
    reals.length = 2 ∧ (∀ x ∈ jobs.zip reals, x.1.Done few code m' x.2) ∧
    steps few code 3 (0x1000, ⟨7, []⟩) = some (0x1005, ⟨0 - 4, [7]⟩) := by
  obtain ⟨m', reals, hrun, hlen, hall, -⟩ := trampolines_transparent code_plan
  exact ⟨m', reals, hrun, hlen, hall, rfl⟩

end Rvpn.Trampoline
