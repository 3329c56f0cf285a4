import Rvpn.Registry.Redirect

/-!
# Which components are redirected (register.c:92-142)

Under WOW64 a path below `HKEY_LOCAL_MACHINE\SOFTWARE` goes to `SOFTWARE\WOW6432Node` unless it is there already, and
a path that is redirected stays where it is (`redirect_redirect`). `RedirectSubKey` takes the two components it asks
about from copies of 511 and 255 characters, and it cuts the remainder out of the path itself, as many characters on as
the first component has. Backslashes in front of the path are not counted there: what is cut off then are these, and
part of `SOFTWARE` stays as a component.

* `redirectedComponents` — the components a path is redirected to;
* `SeenWhole` — the paths whose first two components the function reads as they are;
* `redirect_components_iff` — these are the paths that are redirected by components.
-/

namespace Rvpn.Registry

variable {F : CaseFold} {p s name : WStr} {k : Nat}

instance : Decidable (StartsWith F name s) := inferInstanceAs (Decidable (_ = _))

/-- The second component is `WOW6432Node` up to case. -/
def GoesOn (F : CaseFold) (p : WStr) : Prop := (tokens p)[1]?.map F.fold = some (F.fold WOW6432Node)

instance : Decidable (GoesOn F p) := inferInstanceAs (Decidable (_ = _))

/-- The components a path below `HKEY_LOCAL_MACHINE` is redirected to. -/
def redirectedComponents (F : CaseFold) (p : WStr) : List WStr :=
  if StartsWith F SOFTWARE p ∧ ¬ GoesOn F p then SOFTWARE :: WOW6432Node :: (tokens p).tail else tokens p

/-- **Redirected by components**, once, and not for another root or outside WOW64. -/
def RedirectsComponents (F : CaseFold) (p : WStr) : Prop :=
  tokens (redirect F p) = redirectedComponents F p ∧ redirect F (redirect F p) = redirect F p ∧
    ∀ isWow64 hKey, hKey ≠ HKEY_LOCAL_MACHINE ∨ isWow64 = false → redirectSubKey F isWow64 hKey p = p

/-- The function reads the first two components as they are, or it leaves a path alone that it has not read. -/
inductive SeenWhole (F : CaseFold) (p : WStr) : Prop
  | other (hs : ¬ StartsWith F SOFTWARE p) (hcut : ¬ StartsWith F SOFTWARE (p.take 511))
  | software (hs : StartsWith F SOFTWARE p) (hfront : p.head? ≠ some bslash)
      (hcut : StartsWith F WOW6432Node ((strip (p.drop 8)).take 255) ↔ GoesOn F p)
  | unseen (hs : StartsWith F SOFTWARE p) (hcut : ¬ StartsWith F SOFTWARE (p.take 511)) (hw : GoesOn F p)

/-! ## Redirecting twice -/

/-- **What is redirected is not redirected again.** -/
theorem redirect_below_self (m : WStr) : redirect F (below m) = below m := by
  have hdrop : ∀ t : WStr, strip ((SOFTWARE ++ bslash :: WOW6432Node ++ t).drop 8) = WOW6432Node ++ t := fun t => rfl
  have hhead : ∀ t : WStr, Ends t → StartsWith F WOW6432Node ((WOW6432Node ++ t).take 255) := by
    intro t ht
    have hlen : WOW6432Node.length ≤ 255 := by decide
    rw [StartsWith, List.take_append, List.take_of_length_le hlen, tokens_word (by decide) (by decide) ht.take]
    rfl
  have hends : Ends (if m = [] then [] else bslash :: m) := by
    intro c hc
    split at hc
    · cases hc
    · exact (Option.some.inj hc).symm
  rcases redirect_spec F (below m) with ⟨-, h⟩ | ⟨-, -, h⟩ | ⟨-, hw, -⟩
  · exact h
  · exact h
  · rw [below, hdrop] at hw
    exact absurd (hhead _ hends) hw

theorem redirect_redirect (F : CaseFold) (p : WStr) : redirect F (redirect F p) = redirect F p := by
  rcases redirect_spec F p with ⟨-, h⟩ | ⟨-, -, h⟩ | ⟨-, -, h⟩
  · rw [h, h]
  · rw [h, h]
  · rw [h, redirect_below_self]

theorem redirect_elsewhere {isWow64 : Bool} {hKey : HKEY} (h : hKey ≠ HKEY_LOCAL_MACHINE ∨ isWow64 = false) :
    redirectSubKey F isWow64 hKey p = p := if_pos (by simpa using h)

/-! ## What a copy shows -/

/-- A copy starts with a name that the path starts with, or the name is what backslashes in front have left of a
longer one. -/
theorem startsWith_take (h : StartsWith F name (p.take k)) :
    StartsWith F name p ∨ ∃ s, p = List.replicate (k - name.length) bslash ++ s := by
  obtain ⟨t, ht, htn⟩ := Option.map_eq_some_iff.1 h
  cases hp : (tokens p).head? with
  | none =>
    have hrep := eq_replicate_of_tokens (List.head?_eq_none_iff.1 hp)
    rw [hrep, List.take_replicate, tokens_replicate] at ht
    cases ht
  | some f =>
    obtain ⟨hfne, hfb⟩ := mem_tokens (head_mem hp)
    obtain ⟨a, rest, rfl, hrest⟩ := head_tokens_split hp
    rw [List.take_append, List.take_replicate, tokens_replicate_append, List.take_append, List.length_replicate] at ht
    by_cases hnil : f.take (k - a) = []
    · have hz : k - a = 0 := (List.take_eq_nil_iff.1 hnil).resolve_right hfne
      simp [hz] at ht
    · rw [tokens_word hnil (fun hb => hfb (List.mem_of_mem_take hb)) hrest.take, List.head?_cons] at ht
      obtain rfl := Option.some.inj ht
      by_cases hk : f.length ≤ k - a
      · rw [List.take_of_length_le hk] at htn
        exact .inl (by rw [StartsWith, hp, Option.map_some, htn])
      · have hlen := length_of_fold_eq htn
        rw [List.length_take] at hlen
        have ha : a = k - name.length := by
          have : 0 < (f.take (k - a)).length := List.length_pos_iff.2 hnil
          rw [List.length_take] at this
          omega
        exact .inr ⟨f ++ rest, by rw [← ha]⟩

/-- A name that is cut to `SOFTWARE` stands behind so many backslashes that the second copy holds nothing else. -/
theorem redirect_cut (hs : ¬ StartsWith F SOFTWARE p) (hcut : StartsWith F SOFTWARE (p.take 511)) :
    tokens (redirect F p) = SOFTWARE :: WOW6432Node :: tokens p := by
  obtain ⟨s, hp⟩ := (startsWith_take hcut).resolve_left hs
  have hlen : SOFTWARE.length = 8 := by decide
  rw [hlen] at hp
  have hstrip : strip (p.drop 8) = List.replicate 494 bslash ++ s := by
    rw [hp, List.drop_append_of_le_length (by rw [List.length_replicate]; decide), List.drop_replicate]
    rfl
  have hw : ¬ StartsWith F WOW6432Node ((strip (p.drop 8)).take 255) := by
    rw [hstrip, List.take_append_of_le_length (by rw [List.length_replicate]; decide), List.take_replicate]
    exact not_startsWith_of_tokens (tokens_replicate _)
  rcases redirect_spec F p with ⟨h, -⟩ | ⟨-, h, -⟩ | ⟨-, -, h⟩
  · exact absurd hcut h
  · exact absurd h hw
  · rw [h, tokens_below, hstrip, tokens_replicate_append, hp, tokens_replicate_append]

/-! ## The result -/

theorem length_redirectedComponents (F : CaseFold) (p : WStr) :
    (redirectedComponents F p).length ≤ (tokens p).length + 1 := by
  unfold redirectedComponents
  split
  · next h =>
    have hne : tokens p ≠ [] := fun hnil => not_startsWith_of_tokens hnil h.1
    have hpos := List.length_pos_iff.2 hne
    rw [List.length_cons, List.length_cons, List.length_tail]
    omega
  · exact Nat.le_succ _

theorem redirectedComponents_other (hs : ¬ StartsWith F SOFTWARE p) : redirectedComponents F p = tokens p :=
  if_neg fun h => hs h.1

/-- A path below `SOFTWARE` keeps its components exactly if it goes on with `WOW6432Node`. -/
theorem redirectedComponents_eq_iff (hs : StartsWith F SOFTWARE p) : tokens p = redirectedComponents F p ↔ GoesOn F p := by
  obtain ⟨f, hf, -⟩ := Option.map_eq_some_iff.1 hs
  obtain ⟨ts, ht⟩ : ∃ ts, tokens p = f :: ts := by
    cases h : tokens p with
    | nil => rw [h] at hf; cases hf
    | cons u us => rw [h] at hf; exact ⟨us, by rw [Option.some.inj hf]⟩
  by_cases hw : GoesOn F p
  · exact iff_of_true (if_neg fun h => h.2 hw).symm hw
  · refine iff_of_false (fun h => ?_) hw
    have hlen := congrArg List.length h
    rw [redirectedComponents, if_pos ⟨hs, hw⟩, ht] at hlen
    simp at hlen

/-- Without a backslash in front the remainder starts right behind `SOFTWARE`. -/
theorem tokens_software (hs : StartsWith F SOFTWARE p) (hfront : p.head? ≠ some bslash) :
    tokens p ≠ [] ∧ tokens (strip (p.drop 8)) = (tokens p).tail ∧ StartsWith F SOFTWARE (p.take 511) := by
  obtain ⟨f, hf, hfold⟩ := Option.map_eq_some_iff.1 hs
  obtain ⟨hfne, hfb⟩ := mem_tokens (head_mem hf)
  have hlen : f.length = 8 := length_of_fold_eq hfold
  obtain ⟨a, rest, rfl, hrest⟩ := head_tokens_split hf
  cases a with
  | succ a => exact absurd rfl hfront
  | zero =>
    rw [List.replicate_zero, List.nil_append, tokens_word hfne hfb hrest, tokens_strip, ← hlen, List.drop_left]
    refine ⟨List.cons_ne_nil _ _, rfl, ?_⟩
    rw [List.take_append, List.take_of_length_le (by omega), StartsWith, tokens_word hfne hfb hrest.take]
    exact congrArg some hfold

/-- With a backslash in front, a path that is read at all is redirected to one component too many. -/
theorem redirected_behind (hs : StartsWith F SOFTWARE p) (hfront : p.head? = some bslash) :
    tokens (redirect F p) = redirectedComponents F p ↔ SeenWhole F p := by
  have hseen : SeenWhole F p ↔ ¬ StartsWith F SOFTWARE (p.take 511) ∧ GoesOn F p := by
    constructor
    · rintro (⟨h, -⟩ | ⟨-, h, -⟩ | ⟨-, hcut, hw⟩)
      · exact absurd hs h
      · exact absurd hfront h
      · exact ⟨hcut, hw⟩
    · exact fun ⟨hcut, hw⟩ => .unseen hs hcut hw
  rw [hseen]
  by_cases hcut : StartsWith F SOFTWARE (p.take 511)
  · obtain ⟨s, rfl⟩ : ∃ s, p = bslash :: s := by
      cases p with
      | nil => cases hfront
      | cons c s => exact ⟨s, by rw [Option.some.inj hfront]⟩
    refine iff_of_false (fun h => ?_) fun h => h.1 hcut
    have hlen := redirect_behind hs hcut
    have hle := length_redirectedComponents F (bslash :: s)
    rw [h] at hlen
    omega
  · rcases redirect_spec F p with ⟨-, h⟩ | ⟨h, -⟩ | ⟨h, -⟩
    · rw [h, redirectedComponents_eq_iff hs]
      exact ⟨fun hw => ⟨hcut, hw⟩, fun h => h.2⟩
    · exact absurd h hcut
    · exact absurd h hcut

/-- Without one, it depends on whether the second component is read as it is. -/
theorem redirected_software (hs : StartsWith F SOFTWARE p) (hfront : p.head? ≠ some bslash) :
    tokens (redirect F p) = redirectedComponents F p ↔ SeenWhole F p := by
  obtain ⟨hne, htail, hcut⟩ := tokens_software hs hfront
  have hseen : SeenWhole F p ↔ (StartsWith F WOW6432Node ((strip (p.drop 8)).take 255) ↔ GoesOn F p) := by
    constructor
    · rintro (⟨h, -⟩ | ⟨-, -, h⟩ | ⟨-, h, -⟩)
      · exact absurd hs h
      · exact h
      · exact absurd hcut h
    · exact fun h => .software hs hfront h
  rw [hseen]
  rcases redirect_spec F p with ⟨h, -⟩ | ⟨-, hw, h⟩ | ⟨-, hw, h⟩
  · exact absurd hcut h
  · rw [h, redirectedComponents_eq_iff hs]
    exact ⟨fun hon => iff_of_true hw hon, fun hiff => hiff.1 hw⟩
  · rw [h, tokens_below, htail]
    constructor
    · intro hred
      refine iff_of_false hw fun hon => ?_
      have hlen := congrArg List.length (hred.trans ((redirectedComponents_eq_iff hs).2 hon).symm)
      have hpos := List.length_pos_iff.2 hne
      rw [List.length_cons, List.length_cons, List.length_tail] at hlen
      omega
    · intro hiff
      rw [redirectedComponents, if_pos ⟨hs, fun hon => hw (hiff.2 hon)⟩]

/-- A path that is not below `SOFTWARE` stays as it is unless the copy makes it look like one that is. -/
theorem redirected_other (hs : ¬ StartsWith F SOFTWARE p) :
    tokens (redirect F p) = redirectedComponents F p ↔ SeenWhole F p := by
  rw [redirectedComponents_other hs]
  by_cases hcut : StartsWith F SOFTWARE (p.take 511)
  · refine iff_of_false (fun h => ?_) ?_
    · have hlen := congrArg List.length (redirect_cut hs hcut)
      rw [h, List.length_cons, List.length_cons] at hlen
      omega
    · rintro (⟨-, h⟩ | ⟨h, -⟩ | ⟨h, -⟩)
      · exact h hcut
      · exact hs h
      · exact hs h
  · refine iff_of_true ?_ (.other hs hcut)
    rcases redirect_spec F p with ⟨-, h⟩ | ⟨h, -⟩ | ⟨h, -⟩
    · rw [h]
    · exact absurd h hcut
    · exact absurd h hcut

/-- **Redirected by components**: exactly the paths whose first two components are read as they are, and those below
`SOFTWARE\WOW6432Node` that are not read at all. -/
theorem redirect_components_iff (F : CaseFold) (p : WStr) : RedirectsComponents F p ↔ SeenWhole F p := by
  have hlaw : RedirectsComponents F p ↔ tokens (redirect F p) = redirectedComponents F p :=
    ⟨fun h => h.1, fun h => ⟨h, redirect_redirect F p, fun _ _ => redirect_elsewhere⟩⟩
  rw [hlaw]
  by_cases hs : StartsWith F SOFTWARE p
  · by_cases hfront : p.head? = some bslash
    · exact redirected_behind hs hfront
    · exact redirected_software hs hfront
  · exact redirected_other hs

/-- Two components that are not far apart are read as they are. -/
theorem SeenWhole.of_plain {f g rest : WStr} (hfne : f ≠ []) (hf : bslash ∉ f) (hgne : g ≠ []) (hg : bslash ∉ g)
    (hrest : Ends rest) (hlen : f.length + g.length < 255) : SeenWhole F (f ++ bslash :: (g ++ rest)) := by
  have htokens : tokens (f ++ bslash :: (g ++ rest)) = f :: g :: tokens rest := by
    rw [tokens_append, tokens_single hfne hf, tokens_word hgne hg hrest]
    rfl
  have hstarts : StartsWith F SOFTWARE (f ++ bslash :: (g ++ rest)) ↔ F.fold f = F.fold SOFTWARE := by
    rw [StartsWith, htokens, List.head?_cons, Option.map_some, Option.some.injEq]
  by_cases hs : F.fold f = F.fold SOFTWARE
  · have hf8 : f.length = 8 := length_of_fold_eq hs
    have hstrip : strip ((f ++ bslash :: (g ++ rest)).drop 8) = g ++ rest := by
      rw [← hf8, List.drop_left]
      exact if_pos rfl
    refine .software (hstarts.2 hs) ?_ ?_
    · obtain ⟨c, f, rfl⟩ := List.exists_cons_of_ne_nil hfne
      exact fun hc => hf (Option.some.inj hc ▸ List.mem_cons_self)
    · rw [hstrip, List.take_append, List.take_of_length_le (by omega), StartsWith, tokens_word hgne hg hrest.take, GoesOn,
        htokens]
      rfl
  · refine .other (fun h => hs (hstarts.1 h)) fun h => hs ?_
    have hends : Ends (bslash :: (g ++ rest)) := fun c hc => (Option.some.inj hc).symm
    rw [List.take_append, List.take_of_length_le (by omega), StartsWith, tokens_word hfne hf hends.take] at h
    exact Option.some.inj h

/-- `\SOFTWARE\Foo` goes to `SOFTWARE\WOW6432Node\E\Foo`. -/
theorem backslash_redirected : ¬ RedirectsComponents asciiFold (wide "\\SOFTWARE\\Foo") := by
  intro h
  have hlaw := h.1
  revert hlaw
  decide +kernel

end Rvpn.Registry
