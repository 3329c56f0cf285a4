import Rvpn.Lib.Cells
import Mathlib.Data.List.Nodup
import Mathlib.Data.List.Perm.Subperm

/-!
# Lists threaded through reusable memory

`Cells` never hands an address out twice. A C heap does, so here a block is put at any address that is free
(`place`), and a pointer to a block that was freed can come to point to another one.

The blocks of a list are linked by one of their fields. Which field that is (`next`) is a parameter, so a block is in
one list by one field and in another by another, and memory that keeps no type of its blocks can be read either way;
`next` is `none` where the field holds something that is no pointer.

| | |
| --- | --- |
| `Seg next M p as q`  | the list from `p` to `q` passes the blocks at `as` |
| `scan`               | `while (x) { if (test(x)) break; prev = x; x = x->next; }` |
| `scan_spec`          | it stops at the first block that passes the test |
| `chain`              | `for (x = p; x; x = x->next)`, the blocks it passes |
| `chain_of_seg`       | it passes those of the list |
| `Seg.unlink_head`, `Seg.unlink` | taking a block out |
-/

namespace Threads

open Cells

variable {β : Type}

/-- A block at an address of its own choice. -/
def place (M : List (Option β)) (a : Nat) (b : β) : List (Option β) :=
  (M ++ List.replicate (a + 1 - M.length) none).set a (some b)

/-- What the link field of the block at an address holds. -/
def nextAt (next : β → Option (Option Nat)) (M : List (Option β)) (a : Nat) : Option (Option Nat) := (deref M a).bind next

/-- Following the link from `p` passes exactly the blocks at `as` and arrives at `q`. -/
def Seg (next : β → Option (Option Nat)) (M : List (Option β)) : Option Nat → List Nat → Option Nat → Prop
  | p, [], q => p = q
  | p, a :: as, q => p = some a ∧ ∃ r, nextAt next M a = some r ∧ Seg next M r as q

/-- The search loop, giving `prev` and `x` where it stops; the first argument bounds its rounds. -/
def scan (next : β → Option (Option Nat)) (test : β → Option Bool) (M : List (Option β)) :
    Nat → Option Nat → Option Nat → Option (Option Nat × Option Nat)
  | _, prev, none => some (prev, none)
  | 0, _, some _ => none
  | n + 1, prev, some a =>
    (deref M a).bind fun b => (test b).bind fun t =>
      if t then some (prev, some a) else (next b).bind fun q => scan next test M n (some a) q

/-- The blocks that the loop over a list passes; the first argument bounds its rounds. -/
def chain (next : β → Option (Option Nat)) (M : List (Option β)) : Nat → Option Nat → Option (List Nat)
  | _, none => some []
  | 0, some _ => none
  | n + 1, some a => (nextAt next M a).bind fun q => (chain next M n q).map (a :: ·)

variable {next : β → Option (Option Nat)} {M M' : List (Option β)} {p q r : Option Nat} {a x : Nat} {as bs : List Nat}
  {b : β}

/-! ## Placing -/

theorem deref_place_self : deref (place M a b) a = some b := by
  have hlt : a < (M ++ List.replicate (a + 1 - M.length) none).length := by
    rw [List.length_append, List.length_replicate]
    omega
  simp [deref, place, List.getElem?_set_self hlt]

theorem deref_place_ne (hx : x ≠ a) : deref (place M a b) x = deref M x := by
  rw [deref, place, List.getElem?_set_ne (Ne.symm hx), deref]
  by_cases hlt : x < M.length
  · rw [List.getElem?_append_left hlt]
  · have hle : M.length ≤ x := Nat.le_of_not_lt hlt
    rw [List.getElem?_append_right hle, List.getElem?_eq_none hle, List.getElem?_replicate]
    split
    · rfl
    · rfl

/-! ## Segments -/

theorem seg_append : Seg next M p (as ++ bs) q ↔ ∃ r, Seg next M p as r ∧ Seg next M r bs q := by
  induction as generalizing p with
  | nil => simp [Seg]
  | cons a as ih =>
    simp only [List.cons_append, Seg, ih]
    constructor
    · rintro ⟨hp, r, hr, s, has, hbs⟩
      exact ⟨s, ⟨hp, r, hr, has⟩, hbs⟩
    · rintro ⟨s, ⟨hp, r, hr, has⟩, hbs⟩
      exact ⟨hp, r, hr, s, has, hbs⟩

/-- **Frame**: a memory with the same links in the blocks of a segment has the same segment. -/
theorem Seg.congr (h : Seg next M p as q) (hlinks : ∀ x ∈ as, nextAt next M' x = nextAt next M x) : Seg next M' p as q := by
  induction as generalizing p with
  | nil => exact h
  | cons a as ih =>
    obtain ⟨hp, r, hr, has⟩ := h
    exact ⟨hp, r, (hlinks a (by simp)).trans hr, ih has fun x hx => hlinks x (by simp [hx])⟩

/-- From one pointer only one list leads to NULL. -/
theorem Seg.unique (h : Seg next M p as none) (h' : Seg next M p bs none) : as = bs := by
  induction as generalizing p bs with
  | nil =>
    obtain rfl : p = none := h
    cases bs with
    | nil => rfl
    | cons b bs => cases h'.1
  | cons a as ih =>
    obtain ⟨rfl, r, hr, has⟩ := h
    cases bs with
    | nil => cases h'
    | cons b bs =>
      obtain ⟨hb, s, hs, hbs⟩ := h'
      cases hb
      obtain rfl := Option.some.inj (hr.symm.trans hs)
      rw [ih has hbs]

theorem Seg.block (h : Seg next M p as q) (hx : x ∈ as) : ∃ b, deref M x = some b := by
  induction as generalizing p with
  | nil => cases hx
  | cons a as ih =>
    obtain ⟨-, r, hr, has⟩ := h
    rcases List.mem_cons.1 hx with rfl | hx
    · obtain ⟨b, hb, -⟩ := Option.bind_eq_some_iff.1 hr
      exact ⟨b, hb⟩
    · exact ih has hx

/-- A list without repetition is no longer than the memory. -/
theorem Seg.length_le (h : Seg next M p as q) (hnd : as.Nodup) : as.length ≤ M.length := by
  have hsub : as ⊆ List.range M.length := by
    intro x hx
    obtain ⟨b, hb⟩ := h.block hx
    exact List.mem_range.2 (lt_of_deref hb)
  have hle := (hnd.subperm hsub).length_le
  rwa [List.length_range] at hle

/-- A new first block. -/
theorem Seg.push (h : Seg next M p as q) (hnew : nextAt next M a = some p) : Seg next M (some a) (a :: as) q :=
  ⟨rfl, p, hnew, h⟩

/-! ## Searching -/

/-- **The search loop** stops at the first block that passes the test, or at NULL. -/
theorem scan_spec {test : β → Option Bool} {t : Nat → Bool} {n : Nat} (h : Seg next M p as none)
    (ht : ∀ x ∈ as, (deref M x).bind test = some (t x)) (hn : as.length ≤ n) (prev : Option Nat) :
    (∃ pre a post, as = pre ++ a :: post ∧ (∀ x ∈ pre, t x = false) ∧ t a = true ∧
      scan next test M n prev p = some (pre.getLast?.or prev, some a)) ∨
    ((∀ x ∈ as, t x = false) ∧ scan next test M n prev p = some (as.getLast?.or prev, none)) := by
  induction as generalizing p n prev with
  | nil =>
    obtain rfl : p = none := h
    exact .inr ⟨by simp, by cases n <;> rfl⟩
  | cons a as ih =>
    obtain ⟨rfl, r, hr, has⟩ := h
    obtain ⟨b, hb, hnext⟩ := Option.bind_eq_some_iff.1 hr
    have hta := ht a (by simp)
    rw [hb, Option.bind_some] at hta
    cases n with
    | zero => simp at hn
    | succ n =>
      have hstep : scan next test M (n + 1) prev (some a) =
          if t a then some (prev, some a) else scan next test M n (some a) r := by
        simp only [scan, hb, Option.bind_some, hta, hnext]
      cases hv : t a with
      | true => exact .inl ⟨[], a, as, rfl, by simp, hv, by simp [hstep, hv]⟩
      | false =>
        have hor : ∀ l : List Nat, (a :: l).getLast?.or prev = l.getLast?.or (some a) := by
          intro l
          cases l with
          | nil => simp
          | cons c l =>
            obtain ⟨z, hz⟩ : ∃ z, (c :: l).getLast? = some z := ⟨_, List.getLast?_eq_some_getLast (by simp)⟩
            rw [List.getLast?_cons_cons, hz]
            rfl
        have hfalse : ∀ {l : List Nat}, (∀ x ∈ l, t x = false) → ∀ x ∈ a :: l, t x = false := by
          intro l hl x hx
          rcases List.mem_cons.1 hx with rfl | hx
          · exact hv
          · exact hl x hx
        rw [hstep, hv]
        rcases ih has (fun x hx => ht x (by simp [hx])) (Nat.le_of_succ_le_succ hn) (some a) with
          ⟨pre, c, post, rfl, hpre, hc, hs⟩ | ⟨hall, hs⟩
        · exact .inl ⟨a :: pre, c, post, rfl, hfalse hpre, hc, by rw [hor]; exact hs⟩
        · exact .inr ⟨hfalse hall, by rw [hor]; exact hs⟩

/-- **The loop over a list** passes its blocks and ends. -/
theorem chain_of_seg {n : Nat} (h : Seg next M p as none) (hn : as.length ≤ n) : chain next M n p = some as := by
  induction as generalizing p n with
  | nil =>
    obtain rfl : p = none := h
    cases n <;> rfl
  | cons a as ih =>
    obtain ⟨rfl, r, hr, has⟩ := h
    cases n with
    | zero => simp at hn
    | succ n =>
      simp only [chain, hr, Option.bind_some, ih has (Nat.le_of_succ_le_succ hn), Option.map_some]

/-! ## Taking a block out -/

/-- `head = x->next` -/
theorem Seg.unlink_head (h : Seg next M p (a :: as) q) : ∃ r, nextAt next M a = some r ∧ Seg next M r as q := h.2

/-- `prev->next = x->next` -/
theorem Seg.unlink {c : Nat} (h : Seg next M p (as ++ c :: a :: bs) q) (hnd : (as ++ c :: a :: bs).Nodup)
    (hc : nextAt next M' c = nextAt next M a) (hlinks : ∀ x ∈ as ++ bs, x ≠ c → nextAt next M' x = nextAt next M x) :
    Seg next M' p (as ++ c :: bs) q := by
  obtain ⟨r, has, rfl, s, -, -, t, ht, hbs⟩ := seg_append.1 h
  have hnot : ∀ x ∈ as ++ bs, x ≠ c := by
    rintro x hx rfl
    have hperm := List.nodup_middle.1 hnd
    rw [List.nodup_cons] at hperm
    rcases List.mem_append.1 hx with hx | hx
    · exact hperm.1 (by simp [hx])
    · exact hperm.1 (by simp [hx])
  refine seg_append.2 ⟨some c, has.congr fun x hx => ?_, rfl, t, hc.trans ht, hbs.congr fun x hx => ?_⟩
  · exact hlinks x (by simp [hx]) (hnot x (by simp [hx]))
  · exact hlinks x (by simp [hx]) (hnot x (by simp [hx]))

end Threads
