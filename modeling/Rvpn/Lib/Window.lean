import Mathlib.Data.List.Basic
import Mathlib.Data.List.Nodup
import Mathlib.Data.List.Range

/-!
# Windows over a growing log

* `push cap l a` is a bounded table of distinct entries in order of insertion: an entry already
  present changes nothing, a new one goes to the end, and a full table drops its first entry.
  Over a log without repeats the table is the last `cap` entries of the log (`foldl_push`).
* `Picks log ps` says that `ps` picks entries of `log` by strictly increasing position; what it
  picks is then a sublist of the log, no position taken twice.
-/

namespace Window

variable {α : Type}

section push
variable [DecidableEq α]

/-- Insert into a table of at most `cap` distinct entries, dropping the first when it is full. -/
def push (cap : Nat) (l : List α) (a : α) : List α :=
  if a ∈ l then l
  else if l.length < cap then l ++ [a]
  else l.tail ++ [a]

theorem length_push_le {cap : Nat} (hc : 0 < cap) {l : List α} (a : α) (h : l.length ≤ cap) :
    (push cap l a).length ≤ cap := by
  unfold push
  split
  · exact h
  · split
    · simp; omega
    · simp; omega

theorem nodup_push {cap : Nat} {l : List α} (a : α) (h : l.Nodup) : (push cap l a).Nodup := by
  unfold push
  split
  · exact h
  · rename_i ha
    split
    · exact List.nodup_append.2 ⟨h, by simp, fun b hb c hc => by
        obtain rfl := List.mem_singleton.1 hc; exact fun e => ha (e ▸ hb)⟩
    · exact List.nodup_append.2 ⟨h.tail, by simp, fun b hb c hc => by
        obtain rfl := List.mem_singleton.1 hc; exact fun e => ha (e ▸ List.mem_of_mem_tail hb)⟩

/-- **The table is a window**: after a log without repeats it holds the last `cap` entries. -/
theorem foldl_push {cap : Nat} (hc : 0 < cap) (log : List α) (h : log.Nodup) :
    log.foldl (push cap) [] = log.drop (log.length - cap) := by
  induction log using List.reverseRecOn with
  | nil => simp
  | append_singleton log a ih =>
    obtain ⟨hlog, -, hdis⟩ := List.nodup_append.1 h
    have ha : a ∉ log := fun hm => hdis a hm a (by simp) rfl
    rw [List.foldl_append, ih hlog, List.foldl_cons, List.foldl_nil, push,
      if_neg fun hm => ha (List.mem_of_mem_drop hm)]
    have hlen : (log.drop (log.length - cap)).length = min log.length cap := by simp; omega
    rw [hlen, List.length_append, List.length_singleton]
    by_cases hlt : log.length < cap
    · have e : log.length - cap = 0 := by omega
      rw [if_pos (by omega), e, show log.length + 1 - cap = 0 by omega]
      simp
    · rw [if_neg (by omega), List.tail_drop, show log.length - cap + 1 = log.length + 1 - cap by omega,
        List.drop_append_of_le_length (by omega)]

/-- Membership in the window counts what came after: `a` is in it until `cap` further entries. -/
theorem mem_foldl_push {cap : Nat} (hc : 0 < cap) {pre post : List α} {a : α}
    (h : (pre ++ a :: post).Nodup) :
    a ∈ (pre ++ a :: post).foldl (push cap) [] ↔ post.length < cap := by
  rw [foldl_push hc _ h]
  have hpre : a ∉ pre := fun hm => (List.nodup_append.1 h).2.2 a hm a (by simp) rfl
  have hpost : a ∉ post := (List.nodup_cons.1 (List.nodup_append.1 h).2.1).1
  have hlen : (pre ++ a :: post).length = pre.length + post.length + 1 := by simp; omega
  rw [hlen]
  by_cases hlt : post.length < cap
  · simp only [hlt, iff_true]
    rw [List.drop_append_of_le_length (by omega)]
    simp
  · simp only [hlt, iff_false]
    intro hm
    obtain ⟨k, hk⟩ : ∃ k, pre.length + post.length + 1 - cap = pre.length + (k + 1) :=
      ⟨post.length - cap, by omega⟩
    rw [hk, List.drop_append, List.drop_of_length_le (by omega)] at hm
    simp at hm
    exact hpost (List.mem_of_mem_drop hm)

end push

/-- `ps` takes entries out of `log` at strictly increasing positions. -/
structure Picks (log : List α) (ps : List (Nat × α)) : Prop where
  increasing : (ps.map Prod.fst).Pairwise (· < ·)
  entries : ∀ p ∈ ps, log[p.1]? = some p.2

theorem Picks.nil (log : List α) : Picks log [] := ⟨by simp, by simp⟩

/-- A pick at a position above all earlier ones. -/
theorem Picks.snoc {log : List α} {ps : List (Nat × α)} (h : Picks log ps) {n : Nat} {x : α}
    (hn : ∀ p ∈ ps, p.1 < n) (hx : log[n]? = some x) : Picks log (ps ++ [(n, x)]) where
  increasing := by
    rw [List.map_append, List.pairwise_append]
    refine ⟨h.increasing, by simp, ?_⟩
    intro a ha b hb
    obtain ⟨p, hp, rfl⟩ := List.mem_map.1 ha
    obtain rfl : b = n := by simpa using hb
    exact hn p hp
  entries p hp := by
    rcases List.mem_append.1 hp with hp | hp
    · exact h.entries p hp
    · obtain rfl : p = (n, x) := by simpa using hp
      exact hx

/-- The log may grow. -/
theorem Picks.append {log : List α} {ps : List (Nat × α)} (h : Picks log ps) (more : List α) :
    Picks (log ++ more) ps where
  increasing := h.increasing
  entries p hp := by
    have hlt : p.1 < log.length := (List.getElem?_eq_some_iff.1 (h.entries p hp)).1
    rw [List.getElem?_append_left hlt]
    exact h.entries p hp

/-- What is picked is a sublist of the log. -/
theorem Picks.sublist {log : List α} {ps : List (Nat × α)} (h : Picks log ps) :
    (ps.map Prod.snd).Sublist log := by
  induction log using List.reverseRecOn generalizing ps with
  | nil =>
    cases ps with
    | nil => simp
    | cons p ps => simpa using h.entries p (by simp)
  | append_singleton log x ih =>
    rcases List.eq_nil_or_concat ps with rfl | ⟨qs, p, rfl⟩
    · simp
    rw [List.concat_eq_append] at *
    have hpos := h.increasing
    rw [List.map_append, List.pairwise_append] at hpos
    have hp : p.1 < (log ++ [x]).length := (List.getElem?_eq_some_iff.1 (h.entries p (by simp))).1
    rw [List.length_append, List.length_singleton] at hp
    -- only the last pick can be the last entry of the log
    have hqs : Picks log qs := by
      refine ⟨hpos.1, fun q hq => ?_⟩
      have hlt : q.1 < p.1 := hpos.2.2 q.1 (List.mem_map_of_mem hq) p.1 (by simp)
      have := h.entries q (List.mem_append_left _ hq)
      rwa [List.getElem?_append_left (by omega)] at this
    have hent := h.entries p (by simp)
    rw [List.map_append]
    by_cases hlast : p.1 = log.length
    · have hx : p.2 = x := by
        rw [hlast] at hent
        simpa using hent.symm
      exact (ih hqs).append (by simp [hx])
    · have hall : Picks log (qs ++ [p]) := by
        refine ⟨h.increasing, fun q hq => ?_⟩
        rcases List.mem_append.1 hq with hq | hq
        · exact hqs.entries q hq
        · obtain rfl : q = p := by simpa using hq
          rwa [List.getElem?_append_left (by omega)] at hent
      rw [← List.map_append]
      exact (ih hall).trans (List.sublist_append_left _ _)

end Window
