import Rvpn.Registry.Text

/-!
# Redirecting a joined path

`RedirectSubKey` looks at the first two components of a path. Where these are known from `p` alone, redirecting
`p\q` is redirecting `p` and appending `q` (`redirect_join`). It is not where `p` stops short of them (`Clash`):

* `p` has no component and `q` starts with `SOFTWARE`. Opening `p` gives the root without a redirection, and a path
  is not redirected below a handle, but the joined path is;
* `p` is `SOFTWARE` and `q` starts with `WOW6432Node`. Then `p` is redirected, and the joined path is not.

In these two cases the two ways take different numbers of steps (`redirect_clash`).
-/

namespace Rvpn.Registry

/-! ## Components -/

variable {F : CaseFold} {s t p q : WStr}

@[simp] theorem tokens_cons_bslash : tokens (bslash :: s) = tokens s := tokens_append [] s

@[simp] theorem tokens_replicate_append (j : Nat) : tokens (List.replicate j bslash ++ s) = tokens s := by
  induction j with
  | zero => rfl
  | succ j ih => rw [List.replicate_succ, List.cons_append, tokens_cons_bslash, ih]

@[simp] theorem tokens_replicate (j : Nat) : tokens (List.replicate j bslash) = [] := by
  simpa using tokens_replicate_append (s := []) j

theorem tokens_append_replicate (j : Nat) : tokens (s ++ List.replicate j bslash) = tokens s := by
  cases j with
  | zero => simp
  | succ j => rw [List.replicate_succ, tokens_append, tokens_replicate, List.append_nil]

/-- A string without a component has backslashes only. -/
theorem eq_replicate_of_tokens (h : tokens s = []) : s = List.replicate s.length bslash := by
  induction s with
  | nil => rfl
  | cons c s ih =>
    by_cases hc : c = bslash
    · subst hc
      rw [tokens_cons_bslash] at h
      rw [List.length_cons, List.replicate_succ, ← ih h]
    · exfalso
      have hne : (c == bslash) = false := beq_eq_false_iff_ne.2 hc
      rw [tokens, List.splitOn_cons_eq_if_modifyHead, hne] at h
      cases hs : s.splitOn bslash with
      | nil => exact List.splitOn_ne_nil _ _ hs
      | cons u us => simp [hs] at h

theorem infix_intercalate {l : List WStr} (ht : t ∈ l) : t <:+: [bslash].intercalate l := by
  induction l with
  | nil => cases ht
  | cons u us ih =>
    rcases List.mem_cons.1 ht with rfl | ht
    · cases us with
      | nil => simp [List.intercalate]
      | cons v vs =>
        exact ⟨[], bslash :: [bslash].intercalate (v :: vs), by simp [List.intercalate_cons_cons]⟩
    · cases us with
      | nil => cases ht
      | cons v vs =>
        rw [List.intercalate_cons_cons]
        exact (ih ht).trans (List.suffix_append _ _).isInfix

/-- A component stands in the string. -/
theorem infix_of_mem_tokens (h : t ∈ tokens s) : t <:+: s := by
  have hmem : t ∈ s.splitOn bslash := List.mem_of_mem_filter h
  have := infix_intercalate hmem
  rwa [List.intercalate_splitOn] at this

/-- A component as long as the string is the string. -/
theorem eq_of_mem_tokens (h : t ∈ tokens s) (hlen : s.length ≤ t.length) : t = s :=
  (infix_of_mem_tokens h).eq_of_length_le hlen

theorem head_mem {l : List WStr} (h : l.head? = some t) : t ∈ l := List.mem_of_head? h

/-- The first component of a string that is cut off, of two that are joined. -/
theorem head_tokens_take (k : Nat) :
    (tokens ((p ++ bslash :: q).take k)).head? =
      (tokens (p.take k)).head?.or (tokens (q.take (k - p.length - 1))).head? := by
  by_cases hk : k ≤ p.length
  · have hz : k - p.length - 1 = 0 := by omega
    rw [List.take_append_of_le_length hk, hz, List.take_zero, tokens_nil, List.head?_nil, Option.or_none]
  · obtain ⟨m, rfl⟩ : ∃ m, k = p.length + 1 + m := ⟨k - p.length - 1, by omega⟩
    have hm : p.length + 1 + m - p.length - 1 = m := by omega
    have hcut : (p ++ bslash :: q).take (p.length + 1 + m) = p ++ bslash :: q.take m := by
      rw [Nat.add_assoc, List.take_length_add_append, Nat.add_comm 1 m, List.take_succ_cons]
    have hp : p.take (p.length + 1 + m) = p := List.take_of_length_le (by omega)
    rw [hcut, tokens_append, List.head?_append, hp, hm]

/-- What follows a component: nothing, or a backslash. -/
def Ends (rest : WStr) : Prop := ∀ c, rest.head? = some c → c = bslash

theorem Ends.take {k : Nat} (h : Ends s) : Ends (s.take k) := by
  intro c hc
  rw [List.head?_take] at hc
  split at hc
  · cases hc
  · exact h c hc

theorem tokens_word {f rest : WStr} (hne : f ≠ []) (hf : bslash ∉ f) (hrest : Ends rest) :
    tokens (f ++ rest) = f :: tokens rest := by
  cases rest with
  | nil => rw [List.append_nil, tokens_single hne hf, tokens_nil]
  | cons c rest =>
    obtain rfl := hrest c rfl
    rw [tokens_append, tokens_single hne hf, tokens_cons_bslash]
    rfl

/-- **Where the first component stands**: after backslashes, up to the next one. -/
theorem head_tokens_split {f : WStr} (h : (tokens s).head? = some f) :
    ∃ a rest, s = List.replicate a bslash ++ (f ++ rest) ∧ Ends rest := by
  induction s with
  | nil => cases h
  | cons c s ih =>
    by_cases hc : c = bslash
    · subst hc
      rw [tokens_cons_bslash] at h
      obtain ⟨a, rest, rfl, hrest⟩ := ih h
      exact ⟨a + 1, rest, rfl, hrest⟩
    · have hsplit : c :: s = (c :: s.takeWhile (· ≠ bslash)) ++ s.dropWhile (· ≠ bslash) := by
        rw [List.cons_append, List.takeWhile_append_dropWhile]
      have hends : Ends (s.dropWhile (· ≠ bslash)) := by
        intro d hd
        have := List.head?_dropWhile_not (· ≠ bslash) s
        rw [hd] at this
        simpa using this
      have hword : bslash ∉ c :: s.takeWhile (· ≠ bslash) := by
        rw [List.mem_cons, not_or]
        refine ⟨fun he => hc he.symm, fun hmem => ?_⟩
        have := List.all_eq_true.1 List.all_takeWhile bslash hmem
        simp at this
      rw [hsplit, tokens_word (by simp) hword hends, List.head?_cons] at h
      obtain rfl := Option.some.inj h
      exact ⟨0, _, hsplit, hends⟩

/-- Cutting a string off makes its first component no longer. -/
theorem length_head_tokens_take {f : WStr} (h : (tokens s).head? = some f) {k : Nat}
    (ht : (tokens (s.take k)).head? = some t) : t.length ≤ f.length := by
  obtain ⟨hfne, hf⟩ := mem_tokens (head_mem h)
  obtain ⟨a, rest, rfl, hrest⟩ := head_tokens_split h
  rw [List.take_append, List.take_replicate, tokens_replicate_append, List.take_append, List.length_replicate] at ht
  by_cases hnil : f.take (k - a) = []
  · -- nothing of the component is left, so nothing of what follows it
    have hz : k - a = 0 := by
      rcases List.take_eq_nil_iff.1 hnil with hz | hz
      · exact hz
      · exact absurd hz hfne
    simp [hz] at ht
  · rw [tokens_word hnil (fun hb => hf (List.mem_of_mem_take hb)) hrest.take, List.head?_cons] at ht
    rw [← Option.some.inj ht, List.length_take]
    exact Nat.min_le_right _ _

/-! ## Redirection, read off -/

abbrev SOFTWARE : WStr := wide "SOFTWARE"
abbrev WOW6432Node : WStr := wide "WOW6432Node"

/-- The first component is this one up to case. -/
def StartsWith (F : CaseFold) (name s : WStr) : Prop := (tokens s).head?.map F.fold = some (F.fold name)

/-- One backslash less in front, if there is one. -/
def strip (s : WStr) : WStr := if s.head? = some bslash then s.tail else s

/-- `SOFTWARE\WOW6432Node`, with a remainder. -/
def below (m : WStr) : WStr := SOFTWARE ++ bslash :: WOW6432Node ++ if m = [] then [] else bslash :: m

/-- `RedirectSubKey` below `HKEY_LOCAL_MACHINE` under WOW64. -/
abbrev redirect (F : CaseFold) (s : WStr) : WStr := redirectSubKey F true HKEY_LOCAL_MACHINE s

theorem tokens_below (m : WStr) : tokens (below m) = SOFTWARE :: WOW6432Node :: tokens m := by
  have hs : tokens SOFTWARE = [SOFTWARE] := by decide
  have hw : tokens WOW6432Node = [WOW6432Node] := by decide
  unfold below
  split
  · next h => rw [h, List.append_nil, tokens_append, hs, hw]; rfl
  · rw [List.append_assoc, List.cons_append, tokens_append, hs, tokens_append, hw]; rfl

theorem length_below (m : WStr) : (below m).length = 20 + if m = [] then 0 else m.length + 1 := by
  have hlen : (SOFTWARE ++ bslash :: WOW6432Node).length = 20 := by decide
  unfold below
  rw [List.length_append, hlen]
  split <;> simp

theorem strip_append (hs : s ≠ []) : strip (s ++ t) = strip s ++ t := by
  cases s with
  | nil => exact absurd rfl hs
  | cons c s =>
    by_cases hc : c = bslash
    · simp [strip, hc]
    · simp [strip, hc]

theorem length_strip (s : WStr) : s.length ≤ (strip s).length + 1 := by
  unfold strip
  split
  · rw [List.length_tail]; omega
  · omega

theorem tokens_strip (s : WStr) : tokens (strip s) = tokens s := by
  unfold strip
  split
  · next h =>
    obtain ⟨u, rfl⟩ : ∃ u, s = bslash :: u := by
      cases s with
      | nil => cases h
      | cons c u => exact ⟨u, by rw [Option.some.inj h]⟩
    simp
  · rfl

theorem not_startsWith_of_tokens {name : WStr} (h : tokens s = []) : ¬ StartsWith F name s := by
  simp [StartsWith, h]

/-- A join starts with what its first part starts with, if that has a component. -/
theorem startsWith_join {name : WStr} : StartsWith F name (p ++ bslash :: q) ↔
    StartsWith F name p ∨ (tokens p = [] ∧ StartsWith F name q) := by
  rw [StartsWith, tokens_append, List.head?_append]
  cases hp : tokens p with
  | nil => simp [StartsWith, hp]
  | cons t ts => simp [StartsWith, hp]

theorem length_fold (s : WStr) : (F.fold s).length = s.length := by simp [CaseFold.fold]

theorem length_of_fold_eq {name : WStr} (h : F.fold t = F.fold name) : t.length = name.length := by
  rw [← length_fold (F := F), h, length_fold]

/-- **The three ways a path goes.** -/
theorem redirect_spec (F : CaseFold) (s : WStr) :
    (¬ StartsWith F SOFTWARE (s.take 511) ∧ redirect F s = s) ∨
    (StartsWith F SOFTWARE (s.take 511) ∧ StartsWith F WOW6432Node ((strip (s.drop 8)).take 255) ∧ redirect F s = s) ∨
    (StartsWith F SOFTWARE (s.take 511) ∧ ¬ StartsWith F WOW6432Node ((strip (s.drop 8)).take 255) ∧
      redirect F s = below (strip (s.drop 8))) := by
  have hcut : lstrcpynW s 512 = s.take 511 := rfl
  unfold redirect redirectSubKey
  rw [if_neg (by simp), hcut]
  simp only [StartsWith]
  cases hh : (tokens (s.take 511)).head? with
  | none => exact .inl ⟨by simp, rfl⟩
  | some first =>
    by_cases heq : F.fold first = F.fold SOFTWARE
    · have hlen8 : first.length = 8 := length_of_fold_eq heq
      have hif : wcsicmp F first (wide "SOFTWARE") = true := wcsicmp_eq_true.2 heq
      simp only [hif, if_true, hlen8]
      refine .inr ?_
      cases hsec : (tokens ((strip (s.drop 8)).take 255)).head? with
      | none =>
        have hsec' : (tokens (lstrcpynW (strip (s.drop 8)) 256)).head? = none := hsec
        unfold strip at hsec'
        simp only [hsec']
        exact .inr ⟨by simp [heq], by simp, rfl⟩
      | some second =>
        have hsec' : (tokens (lstrcpynW (strip (s.drop 8)) 256)).head? = some second := hsec
        unfold strip at hsec'
        simp only [hsec', Option.map_some, Option.some.injEq]
        by_cases hw : F.fold second = F.fold WOW6432Node
        · exact .inl ⟨heq, hw, if_pos (wcsicmp_eq_true.2 hw)⟩
        · exact .inr ⟨heq, hw, if_neg fun h => hw (wcsicmp_eq_true.1 h)⟩
    · have hif : ¬ wcsicmp F first (wide "SOFTWARE") = true := fun h => heq (wcsicmp_eq_true.1 h)
      simp only [hif]
      exact .inl ⟨by simpa using heq, rfl⟩

section
variable (hlen : s.length ≤ 511)
include hlen

theorem redirect_other (hs : ¬ StartsWith F SOFTWARE s) : redirect F s = s := by
  have hspec := redirect_spec F s
  rw [List.take_of_length_le hlen] at hspec
  rcases hspec with ⟨-, h⟩ | ⟨hs', -⟩ | ⟨hs', -⟩
  · exact h
  · exact absurd hs' hs
  · exact absurd hs' hs

theorem redirect_again (hs : StartsWith F SOFTWARE s)
    (hw : StartsWith F WOW6432Node ((strip (s.drop 8)).take 255)) : redirect F s = s := by
  have hspec := redirect_spec F s
  rw [List.take_of_length_le hlen] at hspec
  rcases hspec with ⟨hs', -⟩ | ⟨-, -, h⟩ | ⟨-, hw', -⟩
  · exact absurd hs hs'
  · exact h
  · exact absurd hw hw'

theorem redirect_below (hs : StartsWith F SOFTWARE s)
    (hw : ¬ StartsWith F WOW6432Node ((strip (s.drop 8)).take 255)) : redirect F s = below (strip (s.drop 8)) := by
  have hspec := redirect_spec F s
  rw [List.take_of_length_le hlen] at hspec
  rcases hspec with ⟨hs', -⟩ | ⟨-, hw', -⟩ | ⟨-, -, h⟩
  · exact absurd hs hs'
  · exact absurd hw' hw
  · exact h

end

/-- A redirection makes no path shorter. -/
theorem length_le_redirect (F : CaseFold) (s : WStr) : s.length ≤ (redirect F s).length := by
  rcases redirect_spec F s with ⟨-, h⟩ | ⟨-, -, h⟩ | ⟨-, -, h⟩
  · rw [h]
  · rw [h]
  · have hstrip := length_strip (s.drop 8)
    rw [List.length_drop] at hstrip
    rw [h, length_below]
    by_cases hnil : strip (s.drop 8) = []
    · rw [hnil, List.length_nil] at hstrip
      omega
    · rw [if_neg hnil]
      omega

/-! ## Joining -/

/-- The two splits of a path that a redirection tells apart. -/
def Clash (F : CaseFold) (p q : WStr) : Prop :=
  (tokens p = [] ∧ StartsWith F SOFTWARE q) ∨
  ∃ x j, F.fold x = F.fold SOFTWARE ∧ p = x ++ List.replicate j bslash ∧ StartsWith F WOW6432Node (q.take (255 - j))

/-- A string of which nothing but backslashes is left had one more in front. -/
theorem drop_eq_replicate (hs : s ≠ []) (h : strip s = List.replicate (strip s).length bslash) :
    s = List.replicate ((strip s).length + 1) bslash := by
  cases s with
  | nil => exact absurd rfl hs
  | cons c s =>
    by_cases hc : c = bslash
    · have hstrip : strip (c :: s) = s := by simp [strip, hc]
      rw [hstrip] at h ⊢
      rw [List.replicate_succ, ← h, hc]
    · have hstrip : strip (c :: s) = c :: s := by simp [strip, hc]
      rw [hstrip, List.length_cons, List.replicate_succ] at h
      exact absurd (List.cons.inj h).1 hc

/-- A path of `SOFTWARE` and backslashes. -/
theorem eq_software_of_drop {f : WStr} (hf : (tokens p).head? = some f) (hlen : f.length = 8) {j : Nat}
    (hdrop : p.drop 8 = List.replicate j bslash) : p = f ++ List.replicate j bslash := by
  have hp : p = p.take 8 ++ List.replicate j bslash := by rw [← hdrop, List.take_append_drop]
  rw [hp, tokens_append_replicate] at hf
  have htake : f = p.take 8 := eq_of_mem_tokens (head_mem hf) (by rw [List.length_take]; omega)
  rw [htake]
  exact hp

/-- What opening `q` below a redirected `p` walks, and the length of the path it is kept under. -/
def Joined (F : CaseFold) (p q : WStr) : Prop :=
  tokens (redirect F p) ++ tokens q = tokens (redirect F (p ++ bslash :: q)) ∧
    (redirect F p).length + (if q = [] then 0 else q.length + 1) ≤ (redirect F (p ++ bslash :: q)).length

theorem joined_of_eq (hp : redirect F p = p) (hpq : redirect F (p ++ bslash :: q) = p ++ bslash :: q) : Joined F p q := by
  rw [Joined, hp, hpq, tokens_append, List.length_append, List.length_cons]
  refine ⟨rfl, ?_⟩
  split <;> omega

/-- A path is not longer than what it is redirected to, and its first part is not longer than the path. -/
theorem length_le_of_redirect {k : Nat} (hlen : (redirect F (p ++ bslash :: q)).length ≤ k) :
    (p ++ bslash :: q).length ≤ k ∧ p.length ≤ k := by
  have hpq : (p ++ bslash :: q).length ≤ k := (length_le_redirect F _).trans hlen
  rw [List.length_append] at hpq ⊢
  exact ⟨hpq, by omega⟩

/-- **Redirecting a joined path** is redirecting its first part, unless the two clash. -/
theorem redirect_join (hlen : (redirect F (p ++ bslash :: q)).length ≤ 511) (hno : ¬ Clash F p q) : Joined F p q := by
  obtain ⟨hpq, hp⟩ := length_le_of_redirect hlen
  by_cases hs : StartsWith F SOFTWARE p
  · obtain ⟨f, hf, hfold⟩ := Option.map_eq_some_iff.1 hs
    have hf8 : f.length = 8 := length_of_fold_eq hfold
    have hp8 : 8 ≤ p.length := hf8 ▸ (infix_of_mem_tokens (head_mem hf)).length_le
    have hspq : StartsWith F SOFTWARE (p ++ bslash :: q) := startsWith_join.2 (.inl hs)
    have hdrop : (p ++ bslash :: q).drop 8 = p.drop 8 ++ bslash :: q := List.drop_append_of_le_length hp8
    by_cases hr : p.drop 8 = []
    · -- `p` is the one component, so the second one is the first of `q`
      have hpf : p = f ++ List.replicate 0 bslash := eq_software_of_drop hf hf8 hr
      have hq : ¬ StartsWith F WOW6432Node (q.take 255) := fun hw => hno (.inr ⟨f, 0, hfold, hpf, hw⟩)
      have hstrip : strip ((p ++ bslash :: q).drop 8) = q := by
        rw [hdrop, hr]
        simp [strip]
      have hredp : redirect F p = below [] := by
        have hstripp : strip (p.drop 8) = [] := by rw [hr]; rfl
        rw [redirect_below hp hs (by rw [hstripp]; exact not_startsWith_of_tokens rfl), hstripp]
      have hredpq : redirect F (p ++ bslash :: q) = below q := by
        rw [redirect_below hpq hspq (by rw [hstrip]; exact hq), hstrip]
      rw [Joined, hredp, hredpq, tokens_below, tokens_below, length_below, length_below]
      refine ⟨rfl, ?_⟩
      simp only [if_true, Nat.add_zero]
      split <;> omega
    · have hstrip : strip ((p ++ bslash :: q).drop 8) = strip (p.drop 8) ++ bslash :: q := by
        rw [hdrop, strip_append hr]
      have hhead := head_tokens_take (p := strip (p.drop 8)) (q := q) 255
      by_cases hw : StartsWith F WOW6432Node ((strip (p.drop 8)).take 255)
      · refine joined_of_eq (redirect_again hp hs hw) (redirect_again hpq hspq ?_)
        obtain ⟨u, hu, hufold⟩ := Option.map_eq_some_iff.1 hw
        rw [hstrip, StartsWith, hhead, hu, Option.some_or, Option.map_some, hufold]
      · have hwpq : ¬ StartsWith F WOW6432Node ((strip ((p ++ bslash :: q).drop 8)).take 255) := by
          rw [hstrip, StartsWith, hhead]
          cases hu : (tokens ((strip (p.drop 8)).take 255)).head? with
          | some u =>
            rw [StartsWith, hu] at hw
            rwa [Option.some_or]
          | none =>
            -- nothing but backslashes follows in `p`, so it is `SOFTWARE` with these
            intro hq
            rw [Option.none_or] at hq
            refine hno (.inr ⟨f, (strip (p.drop 8)).length + 1, hfold, eq_software_of_drop hf hf8 ?_, ?_⟩)
            · have hlt : (strip (p.drop 8)).length ≤ 255 := by
                by_contra hge
                have hz : 255 - (strip (p.drop 8)).length - 1 = 0 := by omega
                simp [hz] at hq
              have hnil : tokens (strip (p.drop 8)) = [] := by
                rw [List.take_of_length_le hlt] at hu
                exact List.head?_eq_none_iff.1 hu
              have hrep := eq_replicate_of_tokens hnil
              exact drop_eq_replicate hr hrep
            · rwa [← Nat.sub_sub]
        have hne : strip (p.drop 8) ++ bslash :: q ≠ [] := by simp
        rw [Joined, redirect_below hp hs hw, redirect_below hpq hspq hwpq, hstrip, tokens_below, tokens_below,
          tokens_append, length_below, length_below, if_neg hne, List.length_append, List.length_cons]
        refine ⟨rfl, ?_⟩
        split <;> split <;> omega
  · by_cases hp0 : tokens p = []
    · have hq : ¬ StartsWith F SOFTWARE q := fun hq => hno (.inl ⟨hp0, hq⟩)
      refine joined_of_eq (redirect_other hp hs) (redirect_other hpq fun hpq => ?_)
      exact (startsWith_join.1 hpq).elim hs fun h => hq h.2
    · refine joined_of_eq (redirect_other hp hs) (redirect_other hpq fun hpq => ?_)
      exact (startsWith_join.1 hpq).elim hs fun h => hp0 h.1

/-- Eight characters on, a path that starts with `SOFTWARE` behind a backslash starts with a shorter name or the same. -/
theorem head_tokens_drop {f : WStr} (hf : (tokens (bslash :: s)).head? = some f) (hlen : f.length = 8) :
    ∃ g, (tokens ((bslash :: s).drop 8)).head? = some g ∧ g.length ≤ 8 ∧
      (tokens ((bslash :: s).drop 8)).length = (tokens (bslash :: s)).length := by
  obtain ⟨hfne, hfb⟩ := mem_tokens (head_mem hf)
  obtain ⟨b, rest, hs, hrest⟩ := head_tokens_split hf
  have hb : 0 < b := by
    rcases Nat.eq_zero_or_pos b with rfl | hb
    · cases f with
      | nil => exact absurd rfl hfne
      | cons c f =>
        have hc : bslash = c := (List.cons.inj hs).1
        exact absurd (hc ▸ List.mem_cons_self) hfb
    · exact hb
  rw [hs, List.drop_append, List.drop_replicate, List.length_replicate, tokens_replicate_append, tokens_replicate_append,
    tokens_word hfne hfb hrest, List.drop_append, hlen]
  by_cases h8 : 8 ≤ b
  · have hz : 8 - b = 0 := by omega
    rw [hz, List.drop_zero, Nat.zero_sub, List.drop_zero, tokens_word hfne hfb hrest]
    exact ⟨f, rfl, Nat.le_of_eq hlen, rfl⟩
  · have hz : 8 - b - 8 = 0 := by omega
    have hgne : f.drop (8 - b) ≠ [] := by
      intro hnil
      have := List.drop_eq_nil_iff.1 hnil
      omega
    rw [hz, List.drop_zero, tokens_word hgne (fun h => hfb (List.mem_of_mem_drop h)) hrest]
    refine ⟨f.drop (8 - b), rfl, ?_, rfl⟩
    rw [List.length_drop]
    omega

/-- Behind backslashes `SOFTWARE` is not cut off whole: one component too many is left. -/
theorem redirect_behind (hs : StartsWith F SOFTWARE (bslash :: s)) (hcut : StartsWith F SOFTWARE ((bslash :: s).take 511)) :
    (tokens (redirect F (bslash :: s))).length = (tokens (bslash :: s)).length + 2 := by
  obtain ⟨f, hf, hfold⟩ := Option.map_eq_some_iff.1 hs
  obtain ⟨g, hg, hg8, hcount⟩ := head_tokens_drop hf (length_of_fold_eq hfold)
  have hw : ¬ StartsWith F WOW6432Node ((strip ((bslash :: s).drop 8)).take 255) := by
    intro hw
    obtain ⟨t, ht, htfold⟩ := Option.map_eq_some_iff.1 hw
    have hle := length_head_tokens_take (by rw [tokens_strip]; exact hg) ht
    have hlen11 : t.length = 11 := length_of_fold_eq htfold
    omega
  rcases redirect_spec F (bslash :: s) with ⟨h, -⟩ | ⟨-, h, -⟩ | ⟨-, -, h⟩
  · exact absurd hcut h
  · exact absurd h hw
  · rw [h, tokens_below, tokens_strip, List.length_cons, List.length_cons, hcount]

/-- **Where the two clash** they do not even take equally many steps. -/
theorem redirect_clash (hlen : (redirect F (p ++ bslash :: q)).length ≤ 511) (h : Clash F p q) :
    (tokens (redirect F p) ++ tokens q).length ≠ (tokens (redirect F (p ++ bslash :: q))).length := by
  obtain ⟨hpq, hp⟩ := length_le_of_redirect hlen
  rcases h with ⟨hp0, hq⟩ | ⟨x, j, hx, rfl, hq⟩
  · have htok : tokens (p ++ bslash :: q) = tokens q := by rw [tokens_append, hp0, List.nil_append]
    have hspq : StartsWith F SOFTWARE (p ++ bslash :: q) := startsWith_join.2 (.inr ⟨hp0, hq⟩)
    obtain ⟨s, hs⟩ : ∃ s, p ++ bslash :: q = bslash :: s := by
      rw [eq_replicate_of_tokens hp0]
      cases p.length with
      | zero => exact ⟨q, rfl⟩
      | succ n => exact ⟨_, rfl⟩
    rw [hs] at htok hspq hpq ⊢
    have hcount := redirect_behind hspq (by rw [List.take_of_length_le hpq]; exact hspq)
    rw [redirect_other hp (not_startsWith_of_tokens hp0), hcount, hp0, List.nil_append, htok]
    omega
  · have hx8 : x.length = 8 := length_of_fold_eq hx
    have hxne : x ≠ [] := by
      rintro rfl
      cases hx8
    have hxb : bslash ∉ x := by
      rw [← bslash_mem_fold F, hx, bslash_mem_fold]
      decide
    have htok : tokens (x ++ List.replicate j bslash) = [x] := by rw [tokens_append_replicate, tokens_single hxne hxb]
    have hs : StartsWith F SOFTWARE (x ++ List.replicate j bslash) := by simp [StartsWith, htok, hx]
    have hspq : StartsWith F SOFTWARE (x ++ List.replicate j bslash ++ bslash :: q) := startsWith_join.2 (.inl hs)
    have hdrop : (x ++ List.replicate j bslash).drop 8 = List.replicate j bslash := by rw [← hx8, List.drop_left]
    have hnil : tokens (strip (List.replicate j bslash)) = [] := by rw [tokens_strip, tokens_replicate]
    have hw : ¬ StartsWith F WOW6432Node ((strip ((x ++ List.replicate j bslash).drop 8)).take 255) := by
      rw [hdrop, eq_replicate_of_tokens hnil, List.take_replicate]
      exact not_startsWith_of_tokens (tokens_replicate _)
    have hstrip : strip ((x ++ List.replicate j bslash ++ bslash :: q).drop 8) = List.replicate j bslash ++ q := by
      have hmove : List.replicate j bslash ++ bslash :: q = bslash :: (List.replicate j bslash ++ q) := by
        rw [← List.cons_append, ← List.replicate_succ, List.replicate_succ', List.append_assoc]
        rfl
      rw [List.append_assoc, ← hx8, List.drop_left, hmove]
      simp [strip]
    have hwpq : StartsWith F WOW6432Node ((strip ((x ++ List.replicate j bslash ++ bslash :: q).drop 8)).take 255) := by
      rw [hstrip, List.take_append, List.take_replicate, List.length_replicate, StartsWith, tokens_replicate_append]
      exact hq
    rw [redirect_below hp hs hw, redirect_again hpq hspq hwpq, tokens_below, hdrop, hnil, tokens_append, htok]
    simp

end Rvpn.Registry
