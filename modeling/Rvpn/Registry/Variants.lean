import Rvpn.Registry.Deletion

/-!
# The two generations of the API

`RegOpenKeyW` and `RegCreateKeyW` are copies of the `Ex` hooks with one root more: `HKEY_USERS`
(`Variant.roots`). From any other base the two do the same (`openKey_eq`, `createKey_total`), from that one they
never do. `RegEnumKeyW` is `RegEnumKeyExW` without the test of the buffer: a name that does not fit is cut and
the call succeeds. Predefined roots are enumerated by the real API, which is a parameter here (`RealEnum`).

* `variants_agree_iff` — exactly when each of the three pairs agrees.
-/

namespace Rvpn.Registry

open Cells

/-! ## The real API -/

/-- `Real_RegEnumKeyExW` and `Real_RegEnumKeyW`. -/
structure RealEnum where
  enumKeyEx : HKEY → Nat → Nat → EnumKeyOut
  enumKey : HKEY → Nat → Nat → EnumKeyOut

/-- What the documentation says of an enumeration: the name of the subkey with that index, if there is one
and the buffer holds it. -/
def Documented (names : List WStr) (dwIndex cchName : Nat) (out : EnumKeyOut) : Prop :=
  match names[dwIndex]? with
  | none => out.status = .noMoreItems
  | some name =>
    if cchName ≤ name.length then out.status = .moreData
    else out.status = .success ∧ out.lpName = some name

/-! ## The same outcome -/

/-- The same status, and handles of one node. -/
def SameReply (r r' : Reply) (τ τ' : Store) : Prop :=
  match r, r' with
  | .key h _, .key h' _ => (h = FAKE_SERVICE_KEY ↔ h' = FAKE_SERVICE_KEY) ∧ handleToKey τ h = handleToKey τ' h'
  | .status s, .status s' => s = s'
  | _, _ => False

/-- `RegOpenKeyExW` and `RegOpenKeyW` in one state. -/
def SameOpen (F : CaseFold) (σ : Store) (hKey : HKEY) (sub : Option WStr) : Prop :=
  ∃ r r' τ τ', hookRegOpenKeyExW F σ hKey sub = some (r, τ) ∧ hookRegOpenKeyW F σ hKey sub = some (r', τ') ∧
    SameReply r r' τ τ'

/-- `RegCreateKeyExW` and `RegCreateKeyW` in one state. -/
def SameCreate (F : CaseFold) (σ : Store) (hKey : HKEY) (sub : Option WStr) : Prop :=
  ∃ r r' τ τ', hookRegCreateKeyExW F σ hKey sub = some (r, τ) ∧ hookRegCreateKeyW F σ hKey sub = some (r', τ') ∧
    SameReply r r' τ τ' ∧ τ.heap = τ'.heap

/-- What the caller of a hook gets that forwards a handle which is not its own. -/
def EnumKeyOut.orReal (real : EnumKeyOut) : ApiReply → EnumKeyOut
  | .enumKey out => out
  | _ => real

/-- The name of the subkey a handle has at an index. -/
def subkeyName (σ : Store) (hKey : HKEY) (dwIndex : Nat) : Option WStr :=
  (handleToKey σ hKey).bind fun key => (deref σ.heap key).bind fun k =>
    (childAt σ.heap k.children dwIndex).join.map RegKey.name

/-- The name there is to be enumerated: of an emulated subkey, or of one of the real registry. -/
def enumName (real : HKEY → List WStr) (σ : Store) (hKey : HKEY) (dwIndex : Nat) : Option WStr :=
  if (handleToKey σ hKey).isSome then subkeyName σ hKey dwIndex else (real hKey)[dwIndex]?

/-- `RegEnumKeyExW` and `RegEnumKeyW` in one state: both succeed or neither, and then both store the whole name. -/
def SameEnum (real : HKEY → List WStr) (R : RealEnum) (σ : Store) (hKey : HKEY) (dwIndex cchName : Nat) : Prop :=
  ∃ r r', hookRegEnumKeyExW σ hKey dwIndex cchName = some r ∧ hookRegEnumKeyW σ hKey dwIndex cchName = some r' ∧
    let out := EnumKeyOut.orReal (R.enumKeyEx hKey dwIndex cchName) r
    let out' := EnumKeyOut.orReal (R.enumKey hKey dwIndex cchName) r'
    (out.status = .success ↔ out'.status = .success) ∧
      (out.status = .success → ∃ name, enumName real σ hKey dwIndex = some name ∧ out.lpName = some name ∧ out'.lpName = some name)

variable {F : CaseFold} {σ τ : Store} {hKey h : HKEY} {sub : Option WStr} {base key n : Id} {v v' : Variant} {H : Heap}

/-! ## Opening and creating -/

/-- **From one base** both variants open the same. -/
theorem openKey_eq (hb : baseKey v σ hKey = some base) (hb' : baseKey v' σ hKey = some base) :
    regOpenKey v F σ hKey sub = regOpenKey v' F σ hKey sub := by
  simp only [regOpenKey, hb, hb']

theorem baseKey_users (hi : Inv F σ) : baseKey .ex σ HKEY_USERS = none ∧ baseKey .legacy σ HKEY_USERS = some regRoot := by
  constructor
  · rw [baseKey, if_neg (by decide), handleToKey_predefined hi.few (by decide)]
  · rw [baseKey, if_pos (by decide)]

/-- Any other handle has one base for both variants. -/
theorem baseKey_variants (hne : hKey ≠ HKEY_USERS) : baseKey .ex σ hKey = baseKey .legacy σ hKey := by
  have hiff : hKey ∈ Variant.ex.roots ↔ hKey ∈ Variant.legacy.roots := by
    simp only [Variant.roots, List.mem_cons (a := hKey) (b := HKEY_USERS), hne, false_or]
  unfold baseKey
  by_cases hr : hKey ∈ Variant.ex.roots
  · rw [if_pos hr, if_pos (hiff.1 hr)]
  · rw [if_neg hr, if_neg fun hr' => hr (hiff.2 hr')]

theorem sameReply_key (h : HKEY) (d d' : Option Disposition) (τ : Store) : SameReply (.key h d) (.key h d') τ τ :=
  ⟨Iff.rfl, rfl⟩

section
variable (hi : Inv F σ) (hroom : σ.fakeKeys.length < 2 ^ 29)
include hi hroom

theorem sameOpen_of_ne (hne : hKey ≠ HKEY_USERS) (hb : baseKey .ex σ hKey = some base) (hlive : Live σ.heap base) :
    SameOpen F σ hKey sub := by
  have heq : hookRegOpenKeyW F σ hKey sub = hookRegOpenKeyExW F σ hKey sub :=
    openKey_eq ((baseKey_variants hne).symm.trans hb) hb
  by_cases hsub : serviceName <:+: sub.getD []
  · have ho : hookRegOpenKeyExW F σ hKey sub = some (.key FAKE_SERVICE_KEY none, σ) := by
      simp [hookRegOpenKeyExW, regOpenKey, hsub]
    exact ⟨_, _, σ, σ, ho, heq.trans ho, sameReply_key _ _ _ _⟩
  · rcases openKey_total hb hi (.inr hlive) hroom hsub with ⟨n, h, τ, -, -, ho⟩ | ⟨-, ho⟩
    · exact ⟨_, _, τ, τ, ho, heq.trans ho, sameReply_key _ _ _ _⟩
    · exact ⟨_, _, σ, σ, ho, heq.trans ho, rfl⟩

theorem sameOpen_users : SameOpen F σ HKEY_USERS sub ↔ serviceName <:+: sub.getD [] := by
  obtain ⟨hex, hlegacy⟩ := baseKey_users hi
  by_cases hsub : serviceName <:+: sub.getD []
  · refine iff_of_true ⟨.key FAKE_SERVICE_KEY none, .key FAKE_SERVICE_KEY none, σ, σ, ?_, ?_, sameReply_key _ _ _ _⟩ hsub
    · simp [hookRegOpenKeyExW, regOpenKey, hsub]
    · simp [hookRegOpenKeyW, regOpenKey, hsub]
  · refine iff_of_false ?_ hsub
    rintro ⟨r, r', τ, τ', hr, hr', hsame⟩
    have hro : hookRegOpenKeyExW F σ HKEY_USERS sub = some (.status .invalidHandle, σ) := by
      simp only [hookRegOpenKeyExW, regOpenKey, if_neg hsub, hex]
      rfl
    rw [hro] at hr
    cases hr
    -- the legacy hook has a root to start from, so its reply is another
    obtain ⟨k, hk, -⟩ := hi.wf.root
    rcases openKey_total hlegacy hi (.inr ⟨k, hk⟩) hroom hsub with ⟨n, h, υ, -, -, ho⟩ | ⟨-, ho⟩
    · rw [hookRegOpenKeyW, ho] at hr'
      cases hr'
      exact hsame
    · rw [hookRegOpenKeyW, ho] at hr'
      cases hr'
      cases hsame

theorem sameCreate_of_ne (hne : hKey ≠ HKEY_USERS) (hb : baseKey .ex σ hKey = some base) (hlive : Live σ.heap base) :
    SameCreate F σ hKey sub := by
  obtain ⟨-, -, h, -, τ, -, -, -, hall⟩ := createKey_total hi.wf hKey sub (.inr hlive) hroom
  obtain ⟨d, -, hc⟩ := hall .ex hb
  obtain ⟨d', -, hc'⟩ := hall .legacy ((baseKey_variants hne).symm.trans hb)
  exact ⟨_, _, τ, τ, hc, hc', sameReply_key h d d' τ, rfl⟩

theorem not_sameCreate_users : ¬ SameCreate F σ HKEY_USERS sub := by
  obtain ⟨hex, hlegacy⟩ := baseKey_users hi
  rintro ⟨r, r', τ, τ', hr, hr', hsame, -⟩
  have hro : hookRegCreateKeyExW F σ HKEY_USERS sub = some (.status .invalidHandle, σ) := by
    simp only [hookRegCreateKeyExW, regCreateKey, hex]
    rfl
  rw [hro] at hr
  cases hr
  obtain ⟨k, hk, -⟩ := hi.wf.root
  obtain ⟨-, -, h, -, υ, -, -, -, hall⟩ := createKey_total hi.wf HKEY_USERS sub (.inr ⟨k, hk⟩) hroom
  obtain ⟨d, -, hc⟩ := hall .legacy hlegacy
  rw [hookRegCreateKeyW, hc] at hr'
  cases hr'
  exact hsame

end

/-! ## Enumerating -/

theorem childAt_mem {is : List Id} {m : Nat} {c : RegKey} (h : childAt H is m = some (some c)) :
    ∃ i ∈ is, deref H i = some c := by
  induction is generalizing m with
  | nil => cases h
  | cons i is ih =>
    cases m with
    | zero =>
      obtain ⟨c', hc', he⟩ := Option.map_eq_some_iff.1 h
      cases he
      exact ⟨i, List.mem_cons_self, hc'⟩
    | succ m =>
      obtain ⟨-, -, h⟩ := Option.bind_eq_some_iff.1 h
      obtain ⟨j, hj, hc⟩ := ih h
      exact ⟨j, List.mem_cons_of_mem _ hj, hc⟩

/-- **A table handle**: the two agree unless there is a name that does not fit. -/
theorem sameEnum_handle (real : HKEY → List WStr) (R : RealEnum) (hi : Inv F σ) (hh : handleToKey σ hKey = some key)
    (hlive : Live σ.heap key) (dwIndex cchName : Nat) : SameEnum real R σ hKey dwIndex cchName ↔
      ∀ name, subkeyName σ hKey dwIndex = some name → name.length < cchName := by
  have hne : hKey ≠ FAKE_SERVICE_KEY := (handleToKey_eq_some.1 hh).1
  obtain ⟨k, hk⟩ := hlive
  have hname : enumName real σ hKey dwIndex = subkeyName σ hKey dwIndex := by simp [enumName, hh]
  obtain ⟨o, ho⟩ := childAt_total (children_live hi.wf hk) dwIndex
  have hsub : subkeyName σ hKey dwIndex = o.map RegKey.name := by simp [subkeyName, hh, hk, ho]
  rw [SameEnum, hname, hsub, hookRegEnumKeyExW, hookRegEnumKeyW]
  simp only [if_neg hne, hh, hk, Option.bind_some, ho, Option.map_some]
  cases o with
  | none => exact iff_of_true ⟨_, _, rfl, rfl, Iff.rfl, fun hs => by cases hs⟩ (by simp)
  | some c =>
    obtain ⟨i, hi', hc⟩ := childAt_mem ho
    obtain ⟨-, c', hc', -, hcne, -⟩ := hi.wf.child hk hi'
    obtain rfl := Option.some.inj (hc.symm.trans hc')
    by_cases hfit : c.name.length < cchName
    · have hwhole : lstrcpynW c.name cchName = c.name := List.take_of_length_le (by omega)
      refine iff_of_true ⟨_, _, rfl, rfl, ?_⟩ (by simpa using hfit)
      simp [hcne, Nat.not_le.2 hfit, EnumKeyOut.orReal, hwhole]
    · refine iff_of_false ?_ (by simpa using hfit)
      rintro ⟨r, r', hr, hr', hiff, -⟩
      cases hr
      cases hr'
      simp [hcne, Nat.not_lt.1 hfit, EnumKeyOut.orReal] at hiff

/-- **A predefined root** goes to the real API in both. -/
theorem sameEnum_root (real : HKEY → List WStr) (R : RealEnum) (hi : Inv F σ) (hr : hKey ∈ HKEY_USERS :: predefinedRoots)
    {dwIndex cchName : Nat} (hex : Documented (real hKey) dwIndex cchName (R.enumKeyEx hKey dwIndex cchName))
    (hw : Documented (real hKey) dwIndex cchName (R.enumKey hKey dwIndex cchName)) :
    SameEnum real R σ hKey dwIndex cchName := by
  have hne : hKey ≠ FAKE_SERVICE_KEY := by
    rintro rfl
    exact absurd hr (by decide)
  have hnone := handleToKey_predefined hi.few hr
  have hname : enumName real σ hKey dwIndex = (real hKey)[dwIndex]? := by simp [enumName, hnone]
  refine ⟨.reg .forwarded, .reg .forwarded, ?_, ?_, ?_⟩
  · simp [hookRegEnumKeyExW, hne, hnone]
  · simp [hookRegEnumKeyW, hne, hnone]
  · rw [hname]
    simp only [EnumKeyOut.orReal]
    unfold Documented at hex hw
    cases hn : (real hKey)[dwIndex]? with
    | none =>
      rw [hn] at hex hw
      simp [hex, hw]
    | some name =>
      rw [hn] at hex hw
      by_cases hfit : cchName ≤ name.length
      · simp only [if_pos hfit] at hex hw
        simp [hex, hw]
      · simp only [if_neg hfit] at hex hw
        exact ⟨iff_of_true hex.1 hw.1, fun _ => ⟨name, rfl, hex.2, hw.2⟩⟩

/-! ## The three pairs -/

/-- **Where the generations of the API agree**: opening from every base but `HKEY_USERS`, and there by the name of the
service; creating from every base but `HKEY_USERS`; enumerating where the name, if there is one, fits. -/
theorem variants_agree_iff {σ₀ : Store} (h₀ : Installed F σ₀) (cs : List ApiCall)
    (hrun : Lts.run (apiStep F) σ₀ cs = some σ) (hroom : σ.fakeKeys.length < 2 ^ 29)
    (hbase : hKey ∈ HKEY_USERS :: predefinedRoots ∨ ∃ key, handleToKey σ hKey = some key ∧ Linked σ.heap key)
    (real : HKEY → List WStr) (R : RealEnum) (hex : ∀ h i c, Documented (real h) i c (R.enumKeyEx h i c))
    (hw : ∀ h i c, Documented (real h) i c (R.enumKey h i c)) :
    (∀ sub, SameOpen F σ hKey sub ↔ hKey ≠ HKEY_USERS ∨ serviceName <:+: sub.getD []) ∧
    (∀ sub, SameCreate F σ hKey sub ↔ hKey ≠ HKEY_USERS) ∧
    ∀ i c, SameEnum real R σ hKey i c ↔ ∀ name, subkeyName σ hKey i = some name → name.length < c := by
  have hi : Inv F σ := inv_api_run (inv_installed h₀) hrun
  have henum : ∀ i c, SameEnum real R σ hKey i c ↔ ∀ name, subkeyName σ hKey i = some name → name.length < c := by
    intro i c
    rcases hbase with hr | ⟨key, hh, hl⟩
    · refine iff_of_true (sameEnum_root real R hi hr (hex _ _ _) (hw _ _ _)) ?_
      intro name hname
      rw [subkeyName, handleToKey_predefined hi.few hr] at hname
      cases hname
    · exact sameEnum_handle real R hi hh (hl.live hi.wf) i c
  by_cases hne : hKey = HKEY_USERS
  · subst hne
    refine ⟨fun sub => ?_, fun sub => ?_, henum⟩
    · rw [sameOpen_users hi hroom]
      simp
    · exact iff_of_false (not_sameCreate_users hi hroom) (by simp)
  · obtain ⟨base, hb, hlive⟩ : ∃ base, baseKey .ex σ hKey = some base ∧ Live σ.heap base := by
      rcases hbase with hr | ⟨key, hh, hl⟩
      · rcases List.mem_cons.1 hr with rfl | hr
        · exact absurd rfl hne
        · obtain ⟨k, hk, -⟩ := hi.wf.root
          exact ⟨regRoot, by rw [baseKey]; exact if_pos hr, k, hk⟩
      · exact ⟨key, baseKey_handle hi .ex hh, hl.live hi.wf⟩
    refine ⟨fun sub => ?_, fun sub => ?_, henum⟩
    · exact iff_of_true (sameOpen_of_ne hi hroom hne hb hlive) (.inl hne)
    · exact iff_of_true (sameCreate_of_ne hi hroom hne hb hlive) hne

/-- An enumeration that does what the documentation says. -/
def documentedEnum (names : List WStr) (dwIndex cchName : Nat) : EnumKeyOut :=
  match names[dwIndex]? with
  | none => .noMoreItems
  | some name =>
    if cchName ≤ name.length then { status := .moreData, lpName := none, lpcchName := none }
    else { status := .success, lpName := some name, lpcchName := some name.length }

theorem documented_enum (names : List WStr) (i c : Nat) : Documented names i c (documentedEnum names i c) := by
  unfold Documented documentedEnum
  cases hn : names[i]? with
  | none => rfl
  | some name =>
    by_cases hfit : c ≤ name.length
    · simp [hfit]
    · simp [hfit]

/-- A real registry with one key under every root. -/
def oneKey : RealEnum where
  enumKeyEx _ := documentedEnum [wide "Software"]
  enumKey _ := documentedEnum [wide "Software"]

theorem variants_agree_handle : SameOpen asciiFold nestedStore 0x30000001 (some (wide "A\\B")) ∧
    SameCreate asciiFold nestedStore 0x30000001 (some (wide "C")) ∧
    SameEnum (fun _ => [wide "Software"]) oneKey nestedStore 0x30000001 0 2 := by
  have hbase : 0x30000001 ∈ HKEY_USERS :: predefinedRoots ∨
      ∃ key, handleToKey nestedStore 0x30000001 = some key ∧ Linked nestedStore.heap key :=
    .inr ⟨regRoot, rfl, .root⟩
  obtain ⟨hopen, hcreate, henum⟩ := variants_agree_iff (.fresh false) nestedSession nested_run (by decide) hbase
    (fun _ => [wide "Software"]) oneKey (fun _ i c => documented_enum _ i c) (fun _ i c => documented_enum _ i c)
  refine ⟨(hopen _).2 (.inl (by decide)), (hcreate _).2 (by decide), (henum 0 2).2 ?_⟩
  intro name hname
  cases hname
  decide

/-- **A name that does not fit**, and a root that only one generation knows: with room for one character `RegEnumKeyW`
stores nothing of the name `A` and succeeds, and `HKEY_USERS` is no handle to the `Ex` hooks. -/
theorem variants_differ :
    hookRegEnumKeyExW nestedStore 0x30000001 0 1 =
      some (.enumKey { status := .moreData, lpName := none, lpcchName := some 2 }) ∧
    hookRegEnumKeyW nestedStore 0x30000001 0 1 =
      some (.enumKey { status := .success, lpName := some [], lpcchName := none }) ∧
    ¬ SameEnum (fun _ => [wide "Software"]) oneKey nestedStore 0x30000001 0 1 ∧
    hookRegOpenKeyExW asciiFold nestedStore HKEY_USERS (some (wide "A")) = some (.status .invalidHandle, nestedStore) ∧
    ¬ SameOpen asciiFold nestedStore HKEY_USERS (some (wide "A")) := by
  refine ⟨by decide, by decide, ?_, rfl, ?_⟩
  · rintro ⟨r, r', hr, hr', hiff, -⟩
    cases hr
    cases hr'
    exact absurd (hiff.2 rfl) (by decide)
  · rintro ⟨r, r', τ, τ', hr, hr', hsame⟩
    cases hr
    cases hr'
    exact hsame

end Rvpn.Registry
