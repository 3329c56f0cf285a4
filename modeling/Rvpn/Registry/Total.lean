import Rvpn.Registry.Save

/-!
# Calls that return

What a call needs to come back: a key that is not freed, and a row left in the handle table. A walk over a
well-formed tree from a live key reads live keys only, and `SaveKeyToFile` comes to an end on it, so both
`NavigatePath` and the save after it do.

* `openKey_total`, `createKey_total` — an open or create from a live base returns, with what it returns;
* `openKey_dead`, `createKey_dead` — from a freed base it does not, unless it takes no step.
-/

namespace Rvpn.Registry

open Cells

/-- The node has not been freed. -/
def Live (H : Heap) (i : Id) : Prop := ∃ k, deref H i = some k

variable {F : CaseFold} {σ τ : Store} {H : Heap} {i j n base : Id} {t : WStr} {ts : List WStr}

/-! ## Walks -/

theorem children_live {k : RegKey} (hwf : WF F H) (hk : deref H i = some k) : ∀ j ∈ k.children, Live H j := by
  intro j hj
  obtain ⟨-, c, hc, -⟩ := hwf.child hk hj
  exact ⟨c, hc⟩

theorem deref_dead (hdead : ¬ Live H i) : deref H i = none :=
  Option.eq_none_iff_forall_ne_some.2 fun k hk => hdead ⟨k, hk⟩

theorem childOf_dead (hdead : ¬ Live H i) : childOf F H i t = none := by
  rw [childOf, deref_dead hdead]
  rfl

/-- **`NavigatePath` without `create`** ends, with the key the tokens lead to or with none. -/
theorem navTokens_open_total (hwf : WF F H) (hlive : ts = [] ∨ Live H i) :
    (∃ n, Walk F H i ts n ∧ navTokens F false H i ts = some (some n, H)) ∨
    ((∀ n, ¬ Walk F H i ts n) ∧ navTokens F false H i ts = some (none, H)) := by
  induction ts generalizing i with
  | nil => exact .inl ⟨i, rfl, rfl⟩
  | cons t ts ih =>
    obtain ⟨k, hk⟩ : Live H i := by simpa using hlive
    rcases childOf_spec (t := t) hwf hk with ⟨j, hj, hf⟩ | ⟨hno, hf⟩
    · rcases ih (.inr hj.live) with ⟨n, hw, hnav⟩ | ⟨hnone, hnav⟩
      · exact .inl ⟨n, ⟨j, hj, hw⟩, by rw [navTokens, hf]; exact hnav⟩
      · refine .inr ⟨?_, by rw [navTokens, hf]; exact hnav⟩
        rintro n ⟨j', hj', hw⟩
        obtain rfl := hj.unique hwf hj'
        exact hnone n hw
    · refine .inr ⟨?_, by simp [navTokens, hf]⟩
      rintro n ⟨j, hj, -⟩
      exact hno j hj

/-- **`NavigatePath` with `create`** ends, with a key. -/
theorem navTokens_create_total (hwf : WF F H) (hts : ∀ t ∈ ts, t ≠ [] ∧ bslash ∉ t) (hlive : ts = [] ∨ Live H i) :
    ∃ n H', navTokens F true H i ts = some (some n, H') := by
  induction ts generalizing H i with
  | nil => exact ⟨i, H, rfl⟩
  | cons t ts ih =>
    obtain ⟨k, hk⟩ : Live H i := by simpa using hlive
    have hts' : ∀ t ∈ ts, t ≠ [] ∧ bslash ∉ t := fun t ht => hts t (by simp [ht])
    rcases childOf_spec (t := t) hwf hk with ⟨j, hj, hf⟩ | ⟨hno, hf⟩
    · rw [navTokens, hf]
      exact ih hwf hts' (.inr hj.live)
    · have hwf₁ : WF F (addChild H i k t) := addChild_wf hk hwf (hts t (by simp)) hno
      simp only [navTokens, hf, if_true, createKey_of_deref hk]
      exact ih hwf₁ hts' (.inr (child_addChild_new (F := F) hk).live)

/-- **`KeyExists`** ends, and says whether the tokens lead anywhere. -/
theorem existsTokens_total (hwf : WF F H) (hlive : ts = [] ∨ Live H i) :
    ∃ b, existsTokens F H i ts = some b ∧ (b = true ↔ ∃ n, Walk F H i ts n) := by
  induction ts generalizing i with
  | nil => exact ⟨true, rfl, by simp⟩
  | cons t ts ih =>
    obtain ⟨k, hk⟩ : Live H i := by simpa using hlive
    rcases childOf_spec (t := t) hwf hk with ⟨j, hj, hf⟩ | ⟨hno, hf⟩
    · obtain ⟨b, hb, hiff⟩ := ih (.inr hj.live)
      refine ⟨b, by rw [existsTokens, hf]; exact hb, hiff.trans ?_⟩
      constructor
      · rintro ⟨n, hw⟩
        exact ⟨n, j, hj, hw⟩
      · rintro ⟨n, j', hj', hw⟩
        obtain rfl := hj.unique hwf hj'
        exact ⟨n, hw⟩
    · refine ⟨false, by rw [existsTokens, hf], ?_⟩
      simp only [Bool.false_eq_true, false_iff]
      rintro ⟨n, j, hj, -⟩
      exact hno j hj

@[simp] theorem keyExists_eq {path : WStr} : keyExists F H i path = existsTokens F H i (tokens (lstrcpynW path 512)) := by
  unfold keyExists
  split
  · next h => simp [h, lstrcpynW, existsTokens]
  · rfl

/-! ## Handing out and saving -/

theorem handOut_total (key : Id) (path : WStr) (hroom : σ.fakeKeys.length < 2 ^ 29) :
    ∃ h τ, handOut F σ key path = some (h, τ) := by
  simp only [handOut, allocHandle, if_pos hroom, Option.map_some]
  exact ⟨_, _, rfl⟩

theorem disposition_total (hwf : WF F H) {v : Variant} {path : WStr}
    (hlive : tokens (lstrcpynW path 512) = [] ∨ Live H base) : ∃ d, v.disposition F H base path = some d := by
  cases v with
  | ex =>
    obtain ⟨b, hb, -⟩ := existsTokens_total hwf hlive
    exact ⟨_, by simp [Variant.disposition, hb]; rfl⟩
  | legacy => exact ⟨none, rfl⟩

/-! ## Open and create -/

/-- **A create** from a live base: a handle for the key it has made, the same for both variants, which differ in the
disposition. -/
theorem createKey_total (hwf : WF F σ.heap) (hKey : HKEY) (sub : Option WStr)
    (hlive : walked F σ hKey sub = [] ∨ Live σ.heap base) (hroom : σ.fakeKeys.length < 2 ^ 29) :
    ∃ n H h υ τ, navTokens F true σ.heap base (walked F σ hKey sub) = some (some n, H) ∧
      handOut F { σ with heap := H } n (fullPathOf F σ hKey sub) = some (h, υ) ∧ autoSave υ = some τ ∧
      ∀ v : Variant, baseKey v σ hKey = some base →
        ∃ d, v.disposition F σ.heap base (redirectSubKey F σ.isWow64 hKey (sub.getD [])) = some d ∧
          regCreateKey v F σ hKey sub = some (.key h d, τ) := by
  obtain ⟨n, H, hnav⟩ := navTokens_create_total hwf (fun t ht => mem_tokens ht) hlive
  obtain ⟨-, -, hwf', -, -⟩ := navTokens_create hwf (fun t ht => mem_tokens ht) hnav
  obtain ⟨h, υ, ho⟩ := handOut_total (F := F) (σ := { σ with heap := H }) n (fullPathOf F σ hKey sub) hroom
  obtain ⟨τ, hs⟩ := autoSave_of_wf (F := F) (σ := υ) (by rw [(handOut_heap ho).1]; exact hwf')
  refine ⟨n, H, h, υ, τ, hnav, ho, hs, fun v hb => ?_⟩
  obtain ⟨d, hd⟩ := disposition_total (v := v) hwf hlive
  refine ⟨d, hd, ?_⟩
  rw [fullPathOf] at ho
  simp only [regCreateKey, hb, hd, Option.bind_some, navigatePath_eq, hnav, ho, hs, Option.map_some]

section
variable {v : Variant} {hKey : HKEY} {sub : Option WStr} (hb : baseKey v σ hKey = some base)
include hb

/-- **An open** from a live base: a handle for the key at the path, or `ERROR_FILE_NOT_FOUND`. -/
theorem openKey_total (hi : Inv F σ) (hlive : walked F σ hKey sub = [] ∨ Live σ.heap base)
    (hroom : σ.fakeKeys.length < 2 ^ 29) (hsub : ¬ serviceName <:+: sub.getD []) :
    (∃ n h τ, Walk F σ.heap base (walked F σ hKey sub) n ∧ handOut F σ n (fullPathOf F σ hKey sub) = some (h, τ) ∧
      regOpenKey v F σ hKey sub = some (.key h none, τ)) ∨
    ((∀ n, ¬ Walk F σ.heap base (walked F σ hKey sub) n) ∧
      regOpenKey v F σ hKey sub = some (.status .fileNotFound, σ)) := by
  rcases navTokens_open_total hi.wf hlive with ⟨n, hw, hnav⟩ | ⟨hno, hnav⟩
  · obtain ⟨h, τ, ho⟩ := handOut_total (F := F) n (fullPathOf F σ hKey sub) hroom
    refine .inl ⟨n, h, τ, hw, ho, ?_⟩
    rw [walked] at hnav
    rw [fullPathOf] at ho
    simp only [regOpenKey, if_neg hsub, hb, navigatePath_eq, hnav, ho, Option.map_some]
  · refine .inr ⟨hno, ?_⟩
    rw [walked] at hnav
    simp only [regOpenKey, if_neg hsub, hb, navigatePath_eq, hnav]

/-- From a freed base no step of a path can be taken. -/
theorem openKey_dead (hne : walked F σ hKey sub ≠ []) (hdead : ¬ Live σ.heap base) (hsub : ¬ serviceName <:+: sub.getD []) :
    regOpenKey v F σ hKey sub = none := by
  have hnav : navTokens F false σ.heap base (walked F σ hKey sub) = none := by
    cases hw : walked F σ hKey sub with
    | nil => exact absurd hw hne
    | cons t ts => rw [navTokens, childOf_dead hdead]
  rw [walked] at hnav
  simp only [regOpenKey, if_neg hsub, hb, navigatePath_eq, hnav]

theorem createKey_dead (hne : walked F σ hKey sub ≠ []) (hdead : ¬ Live σ.heap base) :
    regCreateKey v F σ hKey sub = none := by
  have hnav : navTokens F true σ.heap base (walked F σ hKey sub) = none := by
    cases hw : walked F σ hKey sub with
    | nil => exact absurd hw hne
    | cons t ts => rw [navTokens, childOf_dead hdead]
  rw [walked] at hnav
  cases hd : v.disposition F σ.heap base (redirectSubKey F σ.isWow64 hKey (sub.getD [])) with
  | none => simp only [regCreateKey, hb, hd, Option.bind_none]
  | some d => simp only [regCreateKey, hb, hd, Option.bind_some, navigatePath_eq, hnav]

end

end Rvpn.Registry
