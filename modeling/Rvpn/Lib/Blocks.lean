import Mathlib.Data.List.Nodup
import Mathlib.Logic.Function.Basic

/-!
# Where the blocks of a heap are

Blocks are allocated at any address that is free, each with the next serial number. A live block is either *listed*,
in a structure all threads share, or *held* by exactly one thread; a thread holds one block at most. `Account` is the
account of this, and the four moves of a block keep it: `alloc` (held by who has allocated it), `put` (into the
structure), `take` (out of it) and `free`. In an account every block ever allocated is either live, at one address, or
was freed once.

`A` are the addresses and `T` the threads.
-/

namespace Blocks

variable {A T : Type}

structure Account (live : A → Option Nat) (listed : A → Prop) (held : T → Option (A × Nat)) (allocs : Nat)
    (freed : List Nat) : Prop where
  of_listed : ∀ {a}, listed a → ∃ s, live a = some s
  of_held : ∀ {t a s}, held t = some (a, s) → ¬ listed a ∧ live a = some s
  apart : ∀ {t u a s s'}, held t = some (a, s) → held u = some (a, s') → t = u
  kept : ∀ {a s}, live a = some s → listed a ∨ ∃ t, held t = some (a, s)
  serial : ∀ {a b s}, live a = some s → live b = some s → a = b
  of_live : ∀ {a s}, live a = some s → s < allocs ∧ s ∉ freed
  once : freed.Nodup
  of_freed : ∀ s ∈ freed, s < allocs
  all : ∀ s < allocs, s ∈ freed ∨ ∃ a, live a = some s

variable {live : A → Option Nat} {listed listed' : A → Prop} {held : T → Option (A × Nat)} {allocs : Nat}
  {freed : List Nat} {t u : T} {a : A} {s : Nat}

theorem start : Account (fun _ : A => none) (fun _ => False) (fun _ : T => none) 0 [] where
  of_listed h := h.elim
  of_held h := by cases h
  apart h := by cases h
  kept h := by cases h
  serial h := by cases h
  of_live h := by cases h
  once := List.nodup_nil
  of_freed _ h := by cases h
  all _ h := by cases h

section
variable [DecidableEq T] (hp : Account live listed held allocs freed)
include hp

omit [DecidableEq T] in
/-- The account does not depend on how its parts are written. -/
theorem Account.congr {live' : A → Option Nat} {held' : T → Option (A × Nat)} (hlive : ∀ a, live' a = live a)
    (hlisted : ∀ a, listed' a ↔ listed a) (hheld : ∀ t, held' t = held t) : Account live' listed' held' allocs freed := by
  obtain rfl : live' = live := funext hlive
  obtain rfl : held' = held := funext hheld
  obtain rfl : listed' = listed := funext fun a => propext (hlisted a)
  exact hp

/-- **A new block** at an address that is free. -/
theorem Account.alloc [DecidableEq A] (ha : live a = none) (ht : held t = none) :
    Account (Function.update live a (some allocs)) listed (Function.update held t (some (a, allocs))) (allocs + 1)
      freed := by
  have hfresh : ∀ {b s}, live b = some s → b ≠ a ∧ s ≠ allocs := by
    rintro b s hb
    refine ⟨?_, Nat.ne_of_lt (hp.of_live hb).1⟩
    rintro rfl
    rw [ha] at hb
    cases hb
  have hnot : ¬ listed a := by
    intro hl
    obtain ⟨s, hs⟩ := hp.of_listed hl
    exact (hfresh hs).1 rfl
  have hcases : ∀ {b s}, Function.update live a (some allocs) b = some s →
      (b = a ∧ s = allocs) ∨ (b ≠ a ∧ live b = some s) := by
    intro b s hb
    by_cases hba : b = a
    · rw [hba, Function.update_self] at hb
      exact .inl ⟨hba, (Option.some.inj hb).symm⟩
    · rw [Function.update_of_ne hba] at hb
      exact .inr ⟨hba, hb⟩
  have hheld : ∀ {u b s}, Function.update held t (some (a, allocs)) u = some (b, s) →
      (u = t ∧ b = a ∧ s = allocs) ∨ (u ≠ t ∧ held u = some (b, s)) := by
    intro u b s hu
    by_cases hut : u = t
    · rw [hut, Function.update_self] at hu
      cases hu
      exact .inl ⟨hut, rfl, rfl⟩
    · rw [Function.update_of_ne hut] at hu
      exact .inr ⟨hut, hu⟩
  constructor
  · intro b hb
    obtain ⟨s, hs⟩ := hp.of_listed hb
    exact ⟨s, by rw [Function.update_of_ne (hfresh hs).1, hs]⟩
  · intro u b s hu
    rcases hheld hu with ⟨rfl, rfl, rfl⟩ | ⟨-, hu⟩
    · exact ⟨hnot, Function.update_self ..⟩
    · obtain ⟨hl, hs⟩ := hp.of_held hu
      exact ⟨hl, by rw [Function.update_of_ne (hfresh hs).1, hs]⟩
  · intro u v b s s' hu hv
    rcases hheld hu with ⟨rfl, rfl, rfl⟩ | ⟨-, hu'⟩
    · rcases hheld hv with ⟨rfl, -, -⟩ | ⟨-, hv'⟩
      · rfl
      · exact absurd rfl (hfresh (hp.of_held hv').2).1
    · rcases hheld hv with ⟨rfl, rfl, rfl⟩ | ⟨-, hv'⟩
      · exact absurd rfl (hfresh (hp.of_held hu').2).1
      · exact hp.apart hu' hv'
  · intro b s hb
    rcases hcases hb with ⟨rfl, rfl⟩ | ⟨-, hb⟩
    · exact .inr ⟨t, Function.update_self ..⟩
    · refine (hp.kept hb).imp id ?_
      rintro ⟨u, hu⟩
      refine ⟨u, ?_⟩
      rw [Function.update_of_ne, hu]
      rintro rfl
      rw [ht] at hu
      cases hu
  · intro b c s hb hc
    rcases hcases hb with ⟨rfl, rfl⟩ | ⟨-, hb'⟩
    · rcases hcases hc with ⟨rfl, -⟩ | ⟨-, hc'⟩
      · rfl
      · exact absurd rfl (hfresh hc').2
    · rcases hcases hc with ⟨rfl, rfl⟩ | ⟨-, hc'⟩
      · exact absurd rfl (hfresh hb').2
      · exact hp.serial hb' hc'
  · intro b s hb
    rcases hcases hb with ⟨rfl, rfl⟩ | ⟨-, hb⟩
    · exact ⟨Nat.lt_succ_self _, fun hf => Nat.lt_irrefl _ (hp.of_freed _ hf)⟩
    · exact ⟨Nat.lt_succ_of_lt (hp.of_live hb).1, (hp.of_live hb).2⟩
  · exact hp.once
  · exact fun s hs => Nat.lt_succ_of_lt (hp.of_freed s hs)
  · intro s hs
    rcases Nat.lt_succ_iff_lt_or_eq.1 hs with hs | rfl
    · rcases hp.all s hs with hf | ⟨b, hb⟩
      · exact .inl hf
      · exact .inr ⟨b, by rw [Function.update_of_ne (hfresh hb).1, hb]⟩
    · exact .inr ⟨a, Function.update_self ..⟩

/-- **Into the structure.** -/
theorem Account.put (ht : held t = some (a, s)) (hl : ∀ b, listed' b ↔ b = a ∨ listed b) :
    Account live listed' (Function.update held t none) allocs freed := by
  have hheld : ∀ {u b s}, Function.update held t none u = some (b, s) → u ≠ t ∧ held u = some (b, s) := by
    intro u b s hu
    by_cases hut : u = t
    · rw [hut, Function.update_self] at hu
      cases hu
    · rw [Function.update_of_ne hut] at hu
      exact ⟨hut, hu⟩
  refine ⟨?_, ?_, ?_, ?_, hp.serial, hp.of_live, hp.once, hp.of_freed, hp.all⟩
  · intro b hb
    rcases (hl b).1 hb with rfl | hb
    · exact ⟨s, (hp.of_held ht).2⟩
    · exact hp.of_listed hb
  · intro u b s' hu
    obtain ⟨hut, hu⟩ := hheld hu
    refine ⟨fun hb => ?_, (hp.of_held hu).2⟩
    rcases (hl b).1 hb with rfl | hb
    · exact hut (hp.apart hu ht)
    · exact (hp.of_held hu).1 hb
  · intro u v b s' s'' hu hv
    exact hp.apart (hheld hu).2 (hheld hv).2
  · intro b s' hb
    rcases hp.kept hb with hb | ⟨u, hu⟩
    · exact .inl ((hl b).2 (.inr hb))
    · by_cases hut : u = t
      · subst hut
        cases ht.symm.trans hu
        exact .inl ((hl a).2 (.inl rfl))
      · exact .inr ⟨u, by rw [Function.update_of_ne hut, hu]⟩

/-- **Out of the structure.** -/
theorem Account.take (ha : listed a) (hs : live a = some s) (ht : held t = none) (hl : ∀ b, listed' b ↔ listed b ∧ b ≠ a) :
    Account live listed' (Function.update held t (some (a, s))) allocs freed := by
  have hheld : ∀ {u b s'}, Function.update held t (some (a, s)) u = some (b, s') →
      (u = t ∧ b = a ∧ s' = s) ∨ (u ≠ t ∧ held u = some (b, s')) := by
    intro u b s' hu
    by_cases hut : u = t
    · rw [hut, Function.update_self] at hu
      cases hu
      exact .inl ⟨hut, rfl, rfl⟩
    · rw [Function.update_of_ne hut] at hu
      exact .inr ⟨hut, hu⟩
  refine ⟨fun hb => hp.of_listed ((hl _).1 hb).1, ?_, ?_, ?_, hp.serial, hp.of_live, hp.once, hp.of_freed, hp.all⟩
  · intro u b s' hu
    rcases hheld hu with ⟨rfl, rfl, rfl⟩ | ⟨-, hu⟩
    · exact ⟨fun hb => ((hl b).1 hb).2 rfl, hs⟩
    · exact ⟨fun hb => (hp.of_held hu).1 ((hl b).1 hb).1, (hp.of_held hu).2⟩
  · intro u v b s' s'' hu hv
    rcases hheld hu with ⟨rfl, rfl, rfl⟩ | ⟨-, hu'⟩
    · rcases hheld hv with ⟨rfl, -, -⟩ | ⟨-, hv'⟩
      · rfl
      · exact absurd ha (hp.of_held hv').1
    · rcases hheld hv with ⟨rfl, rfl, rfl⟩ | ⟨-, hv'⟩
      · exact absurd ha (hp.of_held hu').1
      · exact hp.apart hu' hv'
  · intro b s' hb
    by_cases hba : b = a
    · subst hba
      cases hs.symm.trans hb
      exact .inr ⟨t, Function.update_self ..⟩
    · rcases hp.kept hb with hb | ⟨u, hu⟩
      · exact .inl ((hl b).2 ⟨hb, hba⟩)
      · refine .inr ⟨u, ?_⟩
        rw [Function.update_of_ne, hu]
        rintro rfl
        rw [ht] at hu
        cases hu

/-- **Back to the heap.** -/
theorem Account.free [DecidableEq A] (ht : held t = some (a, s)) :
    Account (Function.update live a none) listed (Function.update held t none) allocs (s :: freed) := by
  have hlive : ∀ {b s'}, Function.update live a none b = some s' → b ≠ a ∧ live b = some s' := by
    intro b s' hb
    by_cases hba : b = a
    · rw [hba, Function.update_self] at hb
      cases hb
    · rw [Function.update_of_ne hba] at hb
      exact ⟨hba, hb⟩
  have hheld : ∀ {u b s'}, Function.update held t none u = some (b, s') → b ≠ a ∧ held u = some (b, s') := by
    intro u b s' hu
    by_cases hut : u = t
    · rw [hut, Function.update_self] at hu
      cases hu
    · rw [Function.update_of_ne hut] at hu
      refine ⟨?_, hu⟩
      rintro rfl
      exact hut (hp.apart hu ht)
  obtain ⟨hnot, hs⟩ := hp.of_held ht
  obtain ⟨hlt, hnew⟩ := hp.of_live hs
  refine ⟨?_, ?_, fun hu hv => hp.apart (hheld hu).2 (hheld hv).2, ?_, fun hb hc => hp.serial (hlive hb).2 (hlive hc).2,
    ?_, List.nodup_cons.2 ⟨hnew, hp.once⟩, ?_, ?_⟩
  · intro b hb
    obtain ⟨s', hs'⟩ := hp.of_listed hb
    refine ⟨s', ?_⟩
    rw [Function.update_of_ne, hs']
    rintro rfl
    exact hnot hb
  · intro u b s' hu
    obtain ⟨hba, hu⟩ := hheld hu
    exact ⟨(hp.of_held hu).1, by rw [Function.update_of_ne hba, (hp.of_held hu).2]⟩
  · intro b s' hb
    obtain ⟨hba, hb⟩ := hlive hb
    refine (hp.kept hb).imp id ?_
    rintro ⟨u, hu⟩
    refine ⟨u, ?_⟩
    rw [Function.update_of_ne, hu]
    rintro rfl
    cases ht.symm.trans hu
    exact hba rfl
  · intro b s' hb
    obtain ⟨hba, hb⟩ := hlive hb
    refine ⟨(hp.of_live hb).1, fun hmem => ?_⟩
    rcases List.mem_cons.1 hmem with rfl | hmem
    · exact hba (hp.serial hb hs)
    · exact (hp.of_live hb).2 hmem
  · intro s' hs'
    rcases List.mem_cons.1 hs' with rfl | hs'
    · exact hlt
    · exact hp.of_freed s' hs'
  · intro s' hs'
    rcases hp.all s' hs' with hf | ⟨b, hb⟩
    · exact .inl (List.mem_cons_of_mem _ hf)
    · by_cases hba : b = a
      · subst hba
        cases hs.symm.trans hb
        exact .inl List.mem_cons_self
      · exact .inr ⟨b, by rw [Function.update_of_ne hba, hb]⟩

end

end Blocks
