import Rvpn.Lib.Flat

/-!
# Machine code in memory, and detours

A processor executes the instructions that stand in a flat memory. What the instructions are is left open: `Isa` says
only that an instruction is decoded from its own bytes, so that it is the same one wherever these stand, and that there
is the 5-byte jump `E9 rel32`. `R` is all of the state but the instruction pointer.

* `jmp_step` — where `writeJmp` has written a jump, the processor goes to its target;
* `Prologue` — whole instructions that fill some bytes and do not depend on where they are; `Prologue.copied` moves
  them, `Prologue.steps` says what running them does;
* `trampoline_steps` — a copy of a prologue with a jump behind it runs as the prologue does in its place.
-/

namespace Detour

open Flat

variable {R : Type}

/-- An instruction: its length, and what it does, given the address behind it. -/
structure Instr (R : Type) where
  length : Nat
  run : Addr → R → Option (Addr × R)

structure Isa (R : Type) where
  decode : Mem → Addr → Option (Instr R)
  /-- An instruction is where its bytes are. -/
  moved : ∀ {m m' a a' i}, decode m a = some i →
    (∀ k < i.length, m' (a' + UInt32.ofNat k) = m (a + UInt32.ofNat k)) → decode m' a' = some i
  /-- `JMP rel32` -/
  jmp : ∀ {m a rel}, m a = some 0xE9 → read32 m (a + 1) = some rel →
    decode m a = some ⟨5, fun next r => some (next + rel, r)⟩

def step (isa : Isa R) (m : Mem) (s : Addr × R) : Option (Addr × R) :=
  (isa.decode m s.1).bind fun i => i.run (s.1 + UInt32.ofNat i.length) s.2

def steps (isa : Isa R) (m : Mem) : Nat → Addr × R → Option (Addr × R)
  | 0, s => some s
  | n + 1, s => (step isa m s).bind (steps isa m n)

variable {isa : Isa R} {m m' : Mem} {a a' dest target : Addr} {r : R} {n : Nat}

theorem steps_add {k : Nat} {s : Addr × R} : steps isa m (n + k) s = (steps isa m n s).bind (steps isa m k) := by
  induction n generalizing s with
  | zero => rw [Nat.zero_add]; rfl
  | succ n ih =>
    rw [Nat.succ_add, steps, steps, Option.bind_assoc]
    exact congrArg _ (funext fun t => ih)

/-! ## Jumps -/

def writeJmp (m : Mem) (a dest : Addr) : Option Mem := do
  let m' ← write8 m a 0xE9
  write32 m' (a + 1) (dest - (a + 5))

/-- A jump to `dest`. -/
def JmpAt (m : Mem) (a dest : Addr) : Prop := m a = some 0xE9 ∧ read32 m (a + 1) = some (dest - (a + 5))

theorem inSpan_head (a : Addr) : InSpan a 5 a := (inSpan_iff (by decide)).2 ⟨0, by decide, by simp⟩

theorem inSpan_tail {b : Addr} (h : b ∈ cover (a + 1)) : InSpan a 5 b ∧ b ≠ a := by
  obtain ⟨k, hk, rfl⟩ := (inSpan_iff (by decide)).1 (mem_cover_iff.1 h)
  have hb : a + 1 + UInt32.ofNat k = a + UInt32.ofNat (k + 1) := by
    rw [UInt32.ofNat_add]
    grind
  rw [hb]
  refine ⟨inSpan_add (by decide) (by omega), fun he => ?_⟩
  have hzero : a + UInt32.ofNat (k + 1) = a + UInt32.ofNat 0 := by rw [he]; simp
  exact absurd (add_ofNat_inj (by omega) (by decide) hzero) (by omega)

theorem writeJmp_spec (h : ∀ b, InSpan a 5 b → (m b).isSome) (dest : Addr) :
    ∃ m', writeJmp m a dest = some m' ∧ JmpAt m' a dest ∧ (∀ b, ¬ InSpan a 5 b → m' b = m b) ∧
      ∀ b, (m b).isSome → (m' b).isSome := by
  obtain ⟨m₁, hw₁, hself, hother, hmapped⟩ := write8_spec (h a (inSpan_head a)) 0xE9
  have hread : (read32 m₁ (a + 1)).isSome := read32_isSome.2 fun b hb => hmapped b (h b (inSpan_tail hb).1)
  obtain ⟨m', hw, hword, hoff, hmapped'⟩ := write32_spec hread (dest - (a + 5))
  refine ⟨m', by simp [writeJmp, hw₁, hw], ⟨?_, hword⟩, fun b hb => ?_, fun b hb => hmapped' b (hmapped b hb)⟩
  · rw [hoff a fun hc => (inSpan_tail hc).2 rfl, hself]
  · rw [hoff b fun hc => hb (inSpan_tail hc).1, hother b fun he => hb (he ▸ inSpan_head a)]

theorem JmpAt.congr (h : JmpAt m a dest) (heq : ∀ b, InSpan a 5 b → m' b = m b) : JmpAt m' a dest :=
  ⟨(heq a (inSpan_head a)).trans h.1, (read32_congr fun b hb => heq b (inSpan_tail hb).1).trans h.2⟩

/-- **A jump** goes to its target. -/
theorem jmp_step (h : JmpAt m a dest) : step isa m (a, r) = some (dest, r) := by
  have hdest : a + UInt32.ofNat 5 + (dest - (a + 5)) = dest := by
    show a + 5 + (dest - (a + 5)) = dest
    grind
  rw [step, isa.jmp h.1 h.2, Option.bind_some]
  exact congrArg (fun eip => some (eip, r)) hdest

/-! ## Prologues -/

def Instr.effect (i : Instr R) (r : R) : Option R := (i.run 0 r).map Prod.snd

/-- The instruction goes on to the next one, and what it does to the rest of the state does not depend on where it
is. -/
def Instr.Straight (i : Instr R) : Prop := ∀ next r, i.run next r = (i.effect r).map fun r' => (next, r')

/-- The instructions stand one behind the other from `a` on and fill `n` bytes. -/
def Prologue (isa : Isa R) (m : Mem) : Addr → List (Instr R) → Nat → Prop
  | _, [], n => n = 0
  | a, i :: is, n => isa.decode m a = some i ∧ i.Straight ∧ i.length ≤ n ∧
      Prologue isa m (a + UInt32.ofNat i.length) is (n - i.length)

/-- What they do. -/
def effects : List (Instr R) → R → Option R
  | [], r => some r
  | i :: is, r => (i.effect r).bind (effects is)

theorem add_add_ofNat (a : Addr) (j k : Nat) : a + UInt32.ofNat j + UInt32.ofNat k = a + UInt32.ofNat (j + k) := by
  rw [UInt32.ofNat_add]
  grind

/-- A copy of the bytes is a copy of the instructions. -/
theorem Prologue.copied {is : List (Instr R)} (h : Prologue isa m a is n)
    (heq : ∀ k < n, m' (a' + UInt32.ofNat k) = m (a + UInt32.ofNat k)) : Prologue isa m' a' is n := by
  induction is generalizing a a' n with
  | nil => exact h
  | cons i is ih =>
    obtain ⟨hdec, hstraight, hle, hrest⟩ := h
    refine ⟨isa.moved hdec fun k hk => heq k (by omega), hstraight, hle, ih hrest fun k hk => ?_⟩
    rw [add_add_ofNat, add_add_ofNat]
    exact heq _ (by omega)

theorem Prologue.steps {is : List (Instr R)} (h : Prologue isa m a is n) :
    Detour.steps isa m is.length (a, r) = (effects is r).map fun r' => (a + UInt32.ofNat n, r') := by
  induction is generalizing a n r with
  | nil =>
    obtain rfl : n = 0 := h
    simp [Detour.steps, effects]
  | cons i is ih =>
    obtain ⟨hdec, hstraight, hle, hrest⟩ := h
    have hstep : Detour.step isa m (a, r) = (i.effect r).map fun r' => (a + UInt32.ofNat i.length, r') := by
      rw [step, hdec]
      exact hstraight _ r
    rw [List.length_cons, Detour.steps, hstep, effects]
    cases i.effect r with
    | none => rfl
    | some r' =>
      rw [Option.map_some, Option.bind_some, Option.bind_some, ih hrest, add_add_ofNat, Nat.add_sub_of_le hle]

/-- **A trampoline** does what the prologue does, and goes on behind it. -/
theorem trampoline_steps {is : List (Instr R)} (h : Prologue isa m a is n) (hjmp : JmpAt m (a + UInt32.ofNat n) dest) :
    Detour.steps isa m (is.length + 1) (a, r) = (effects is r).map fun r' => (dest, r') := by
  rw [steps_add, h.steps]
  cases effects is r with
  | none => rfl
  | some r' =>
    rw [Option.map_some, Option.bind_some, Detour.steps, jmp_step hjmp]
    rfl

end Detour
