import Rvpn.Registry.Redirect
import Rvpn.Registry.Total

/-!
# Which paths share a key (register.c:335-377)

In a well-formed tree two walks from one key end at one key exactly if their tokens are pairwise equal under `_wcsicmp`
(`walk_eq_iff`). `NavigatePath` takes its tokens from a copy of 511 characters, so what lies behind these tells no two
paths apart, and a path is cut where its backslashes push it out of the copy.

* `SameComponents` — the components of the whole paths are pairwise equal;
* `resolve_iff` — the pairs of paths that share a key exactly when they should.
-/

namespace Rvpn.Registry

open Cells

variable {F : CaseFold} {H : Heap} {i n m : Id} {ts us : List WStr} {p q : WStr}

/-! ## Paths -/

theorem walk_eq_iff (hwf : WF F H) (h : Walk F H i ts n) (h' : Walk F H i us m) :
    n = m ↔ ts.map F.fold = us.map F.fold := by
  constructor
  · rintro rfl
    exact h.tokens_eq hwf h'
  · intro he
    exact (h.congr he).unique hwf h'

/-- The components of the paths are pairwise equal under `_wcsicmp`. -/
def SameComponents (F : CaseFold) (p q : WStr) : Prop := (tokens p).map F.fold = (tokens q).map F.fold

/-- `p` and `q` lead to one key exactly if their components are pairwise equal: the two are created, then looked up. -/
def SharedRightly (F : CaseFold) (H : Heap) (base : Id) (p q : WStr) : Prop :=
  ∃ H₁ H₂ n m a b, navigatePath F true H base p = some (some n, H₁) ∧ navigatePath F true H₁ base q = some (some m, H₂) ∧
    navigatePath F false H₂ base p = some (some a, H₂) ∧ navigatePath F false H₂ base q = some (some b, H₂) ∧
    (a = b ↔ SameComponents F p q)

/-- A path that was created is found again, also after another create. -/
theorem navigate_twice (hwf : WF F H) (hlive : Live H i) (p q : WStr) :
    ∃ n m H₁ H₂, navigatePath F true H i p = some (some n, H₁) ∧ navigatePath F true H₁ i q = some (some m, H₂) ∧
      WF F H₂ ∧ Walk F H₂ i (tokens (lstrcpynW p 512)) n ∧ Walk F H₂ i (tokens (lstrcpynW q 512)) m := by
  have hnames : ∀ s : WStr, ∀ t ∈ tokens s, t ≠ [] ∧ bslash ∉ t := fun s t ht => mem_tokens ht
  obtain ⟨n, H₁, hp⟩ := navTokens_create_total (i := i) hwf (hnames (lstrcpynW p 512)) (.inr hlive)
  obtain ⟨n', hn', hwf₁, hg₁, hw⟩ := navTokens_create hwf (hnames _) hp
  obtain rfl : n = n' := Option.some.inj hn'
  obtain ⟨m, H₂, hq⟩ := navTokens_create_total (i := i) hwf₁ (hnames (lstrcpynW q 512)) (.inr (hg₁.live hlive))
  obtain ⟨m', hm', hwf₂, hg₂, hw'⟩ := navTokens_create hwf₁ (hnames _) hq
  obtain rfl : m = m' := Option.some.inj hm'
  exact ⟨n, m, H₁, H₂, by rw [navigatePath_eq, hp], by rw [navigatePath_eq, hq], hwf₂, hg₂.walk hw, hw'⟩

/-- **Shared keys**: `p` and `q` share a key exactly when they should if and only if what is left of them within 511
characters agrees exactly when the whole paths do. -/
theorem resolve_iff (hwf : WF F H) (hlive : Live H i) (p q : WStr) : SharedRightly F H i p q ↔
    (SameComponents F (p.take 511) (q.take 511) ↔ SameComponents F p q) := by
  obtain ⟨n, m, H₁, H₂, hp, hq, hwf₂, hw, hw'⟩ := navigate_twice hwf hlive p q
  have hfound : ∀ {s a}, Walk F H₂ i (tokens (lstrcpynW s 512)) a → navigatePath F false H₂ i s = some (some a, H₂) :=
    fun hw => by rw [navigatePath_eq, (navTokens_open_iff hwf₂).2 hw]
  have hsame : n = m ↔ SameComponents F (p.take 511) (q.take 511) := walk_eq_iff hwf₂ hw hw'
  rw [← hsame]
  constructor
  · rintro ⟨H₁', H₂', n', m', a, b, hp', hq', ha, hb, hiff⟩
    obtain ⟨-, rfl⟩ := Prod.mk.inj (Option.some.inj (hp.symm.trans hp'))
    obtain ⟨-, rfl⟩ := Prod.mk.inj (Option.some.inj (hq.symm.trans hq'))
    rw [hfound hw] at ha
    rw [hfound hw'] at hb
    cases ha
    cases hb
    exact hiff
  · exact fun hiff => ⟨H₁, H₂, n, m, n, m, hp, hq, hfound hw, hfound hw', hiff⟩

/-- Paths of at most 511 characters are not cut. -/
theorem sameComponents_take (hp : p.length ≤ 511) (hq : q.length ≤ 511) :
    SameComponents F (p.take 511) (q.take 511) ↔ SameComponents F p q := by
  rw [List.take_of_length_le hp, List.take_of_length_le hq]

/-- The characters of the components are those that are no backslash. -/
theorem flatten_tokens (s : WStr) : (tokens s).flatten = s.filter (· ≠ bslash) := by
  have hdrop : ∀ l : List WStr, (l.filter (· ≠ [])).flatten = l.flatten := by
    intro l
    induction l with
    | nil => rfl
    | cons u us ih => cases u <;> simp_all
  rw [tokens, hdrop]
  induction s with
  | nil => rfl
  | cons c s ih =>
    rw [List.splitOn_cons_eq_if_modifyHead, List.filter_cons]
    by_cases hc : c = bslash
    · simp [hc, ih]
    · have hne : (c == bslash) = false := beq_eq_false_iff_ne.2 hc
      obtain ⟨u, us, hs⟩ := List.exists_cons_of_ne_nil (List.splitOn_ne_nil bslash s)
      rw [hs, List.flatten_cons] at ih
      rw [hne, hs, if_pos (decide_eq_true hc), ← ih]
      rfl

/-- A path that keeps its components up to case when it is cut keeps them altogether. -/
theorem tokens_take_of_same {k : Nat} (h : SameComponents F (p.take k) p) : tokens (p.take k) = tokens p := by
  have hlen := congrArg (List.map List.length) h
  have hfold : List.length ∘ F.fold = List.length := funext fun t => length_fold t
  rw [List.map_map, List.map_map, hfold] at hlen
  have hsum := congrArg List.sum hlen
  rw [← List.length_flatten, ← List.length_flatten, flatten_tokens, flatten_tokens] at hsum
  have hsplit := congrArg List.length (List.filter_append (p := (· ≠ bslash)) (p.take k) (p.drop k))
  rw [List.take_append_drop, List.length_append, ← hsum] at hsplit
  have hrest : (p.drop k).filter (· ≠ bslash) = [] := List.length_eq_zero_iff.1 (by omega)
  have hall : p.drop k = List.replicate (p.drop k).length bslash := by
    refine List.eq_replicate_of_mem fun c hc => ?_
    simpa using List.filter_eq_nil_iff.1 hrest c hc
  have hp : p = p.take k ++ List.replicate (p.drop k).length bslash := by rw [← hall, List.take_append_drop]
  rw [← tokens_append_replicate (s := p.take k) (p.drop k).length, ← hp]

theorem emptyHeap_live : Live emptyHeap regRoot := ⟨_, rfl⟩

/-- `A\B` and `a\\b\`. -/
theorem resolve_iff_short : SharedRightly asciiFold emptyHeap regRoot (wide "A\\B") (wide "a\\\\b\\") :=
  (resolve_iff emptyHeap_wf emptyHeap_live _ _).2 (sameComponents_take (by decide) (by decide))

/-- What is behind 511 characters is not read. -/
theorem navigatePath_take (create : Bool) (base : Id) (p : WStr) :
    navigatePath F create H base p = navigatePath F create H base (p.take 511) := by
  rw [navigatePath_eq, navigatePath_eq, lstrcpynW, lstrcpynW, List.take_take]
  rfl

/-- A name of `n` characters. -/
def longName (n : Nat) : WStr := List.replicate n ⟨0x61, by decide⟩

theorem tokens_longName (n : Nat) : tokens (longName (n + 1)) = [longName (n + 1)] := by
  refine tokens_single (fun h => by cases h) fun h => ?_
  exact absurd (List.eq_of_mem_replicate h) (by decide)

/-- Names of 511 and of 512 characters share a key. -/
theorem long_paths_share : ¬ SharedRightly asciiFold emptyHeap regRoot (longName 511) (longName 512) := by
  rintro ⟨H₁, H₂, n, m, a, b, -, -, ha, hb, hiff⟩
  have htake : (longName 511).take 511 = (longName 512).take 511 := by
    rw [longName, longName, List.take_replicate, List.take_replicate]
    rfl
  rw [navigatePath_take, htake, ← navigatePath_take, hb] at ha
  cases ha
  have hsame : SameComponents asciiFold (longName 511) (longName 512) := hiff.1 rfl
  rw [SameComponents, tokens_longName, tokens_longName, List.map_singleton, List.map_singleton] at hsame
  have hlen := congrArg List.length (List.cons.inj hsame).1
  rw [CaseFold.fold, CaseFold.fold, List.length_map, List.length_map, longName, longName, List.length_replicate,
    List.length_replicate] at hlen
  cases hlen

end Rvpn.Registry
