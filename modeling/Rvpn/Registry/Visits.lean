import Rvpn.Registry.WalkEnds

/-!
# Which keys the registry walkers open

The two walkers name a subkey in different ways: `DumpRealKey` by its name, relative to the open key, and
`LogRegistryFolder` by its path from the predefined key, but relative to the open key as well.

* `dump_once` — `DumpRealKey` opens every key below the starting one exactly once if no call fails;
* `reaches_far` — `LogRegistryFolder` opens the starting key, and else only keys two levels down or more;
* `visits_iff` — what is wanted of the walkers, and when they do it.
-/

namespace Rvpn.Walkers

open Bytes Registry Scan

/-- The keys that are opened, in order. -/
def openings (out : List Event) : List (List Nat) :=
  out.filterMap fun
    | .opened p => some p
    | _ => none

/-- Every key at or below `h` is opened exactly once. -/
def Once (h : Handle) (out : List Event) : Prop :=
  ∀ p, (h.key.descend p).isSome → (openings out).count (h.path ++ p) = 1

/-- No call for the key or one below it fails, as long as there is such a key. -/
def Key.Faultless (k : Key) : Prop :=
  ∀ p k', k.descend p = some k' →
    (∀ wow64, k'.openStatus wow64 = ERROR_SUCCESS) ∧ k'.valueFault = none ∧ k'.subkeyFault = none

/-- The path of the starting key, as the walkers are given it. -/
def startPath (start : List KeyName) : WStr := [bslash].intercalate (start.map (·.1))

/-- Where the starting key is, if it is there. -/
def startKey {F : CaseFold} (R : Tree F) (start : List KeyName) : Option Handle := resolve F R.hRoot (start.map (·.1))

/-- **The walkers finish and visit every key once**: each comes to its end, and where no call fails the two that open
keys open every key of the subtree exactly once. -/
structure Visits {F : CaseFold} (handlerReturns : Bool) (R : Tree F) (start : List KeyName) : Prop where
  dumpEnds : ∃ n out, dumpRealRegistryTree F handlerReturns n R.hRoot (startPath start) = some out
  valuesEnd : ∀ h, startKey R start = some h → ∀ p k, h.key.descend p = some k →
    ∃ n out, logRegistryValues n k = some out
  folderEnds : ∃ n out, logRegistryFolder F n R.hRoot (some (startPath start)) 0 = some out
  dumpOnce : ∀ h, startKey R start = some h → h.key.Faultless → ∀ n out,
    dumpRealRegistryTree F handlerReturns n R.hRoot (startPath start) = some out → Once h out
  folderOnce : ∀ h, startKey R start = some h → h.key.Faultless → ∀ n out,
    logRegistryFolder F n R.hRoot (some (startPath start)) 0 = some out → Once h out

/-- What the walkers need of the registry. -/
structure Walkable {F : CaseFold} (handlerReturns : Bool) (R : Tree F) (start : List KeyName) : Prop where
  dump : ∀ h, startKey R start = some h → h.key.openStatus false = ERROR_SUCCESS → ∀ p k, Opens h.key p k →
    Dumpable handlerReturns p.length k
  values : ∀ h, startKey R start = some h → ∀ p k, h.key.descend p = some k → Loggable k
  folder : ∀ h, Reaches F R.hRoot (some (startPath start)) h → h.key.subkeySource.Ends
  leaf : ∀ h, startKey R start = some h → h.key.Faultless → h.key.subkeys = []

variable {F : CaseFold} {r : Bool} {h h' h'' : Handle} {k k' c : Key} {n d i : Nat} {out out' : List Event} {p q : List Nat}
  {R : Tree F} {start : List KeyName}

/-! ## Openings -/

@[simp] theorem openings_append : openings (out ++ out') = openings out ++ openings out' := by
  simp [openings]

@[simp] theorem openings_opened : openings (.opened p :: out) = p :: openings out := rfl

@[simp] theorem openings_key {indent : Nat} {name : WStr} : openings (.key indent name :: out) = openings out := rfl

theorem mem_openings : p ∈ openings out ↔ .opened p ∈ out := by
  simp only [openings, List.mem_filterMap]
  constructor
  · rintro ⟨e, he, hp⟩
    cases e with
    | opened q =>
      obtain rfl : q = p := by simpa using hp
      exact he
    | _ => cases hp
  · exact fun hp => ⟨.opened p, hp, rfl⟩

theorem openings_eq_nil (hno : ∀ p, .opened p ∉ out) : openings out = [] :=
  List.eq_nil_iff_forall_not_mem.2 fun p hp => hno p (mem_openings.1 hp)

theorem count_openings_eq_zero (hno : .opened p ∉ out) : (openings out).count p = 0 :=
  List.count_eq_zero.2 fun hp => hno (mem_openings.1 hp)

/-- A loop whose rounds open nothing opens nothing. -/
theorem openings_scan {β : Type} {s : Source β} {body : UInt32 → β → Option (List Event)}
    (hround : ∀ j b x, body j b = some x → openings x = []) (hx : scan s.answer body n 0 = some out) :
    openings out = [] := by
  refine openings_eq_nil fun p hp => ?_
  obtain ⟨-, -, hc⟩ := scan_answer_eq_some.1 hx
  obtain ⟨-, b, j, x, -, hb, hp⟩ := mem_collect hc hp
  have hnil := mem_openings.2 hp
  rw [hround j b x hb] at hnil
  cases hnil

theorem openings_dumpValues (hx : scan (regEnumValueW k 256 4096) (fun _ => dumpValue) n 0 = some out) :
    openings out = [] := by
  refine openings_scan (fun j a x ha => ?_) hx
  simp only [dumpValue] at ha
  split at ha
  · obtain rfl : [] = x := by simpa using ha
    rfl
  · simp only [Option.bind_eq_bind, Option.bind_eq_some_iff] at ha
    obtain ⟨vn, -, lines, -, he⟩ := ha
    obtain rfl : [.value vn lines] = x := by simpa using he
    rfl

theorem openings_logRegistryValues (hx : logRegistryValues n k = some out) : openings out = [] := by
  refine openings_scan (fun j a x ha => ?_) hx
  simp only [logValue] at ha
  split at ha
  · obtain rfl : [.valueError j a.status] = x := by simpa using ha
    rfl
  · simp only [Option.bind_eq_bind, Option.bind_eq_some_iff] at ha
    obtain ⟨name, -, lines, -, he⟩ := ha
    obtain rfl : [.value name lines] = x := by simpa using he
    rfl

/-! ## DumpRealKey -/

theorem subkeySource_getElem? {a : Except LSTATUS WStr} (ha : k.subkeySource.entries[i]? = some a) :
    ∃ c, k.subkeys[i]? = some c ∧ a = .ok c.name.1 := by
  simp only [Key.subkeySource, List.getElem?_map, Option.map_eq_some_iff] at ha
  obtain ⟨c, hc, rfl⟩ := ha
  exact ⟨c, hc, rfl⟩

/-- What a round opens: its subkey, and what the call for it opens. -/
theorem dumpSubkey_opened {dump : Handle → WStr → Option (List Event)} (hdist : h.key.Distinct F)
    (hc : h.key.subkeys[i]? = some c) (hx : dumpSubkey F h dump (.ok c.name.1) = some out) (hq : .opened q ∈ out) :
    q = h.path ++ [i] ∨ ∃ y, dump ⟨h.path ++ [i], c⟩ c.name.1 = some y ∧ .opened q ∈ y := by
  simp only [dumpSubkey, regOpenKeyExW_name hdist hc] at hx
  split at hx
  · next lr _ =>
    obtain rfl : [.cannotOpen c.name.1 lr] = out := by simpa using hx
    simp at hq
  · next hSubKey hopen =>
    obtain ⟨-, rfl⟩ : c.openStatus false = ERROR_SUCCESS ∧ ⟨h.path ++ [i], c⟩ = hSubKey := by
      split at hopen
      · next hs => exact ⟨hs, by simpa using hopen⟩
      · cases hopen
    obtain ⟨y, hy, rfl⟩ := Option.map_eq_some_iff.1 hx
    rcases List.mem_cons.1 hq with hq | hq
    · exact .inl (by simpa using hq)
    · exact .inr ⟨y, hy, hq⟩

/-- Everything opened is below the key. -/
theorem dump_opened {name : Option WStr} (hdist : h.key.Distinct F) (hx : dumpRealKey F r n h name d = some out)
    (hq : .opened q ∈ out) : ∃ i p, q = h.path ++ i :: p := by
  induction n generalizing h name d out with
  | zero => cases hx
  | succ n ih =>
    obtain ⟨indent, vs, ss, -, hvs, hss, rfl⟩ := dumpRealKey_succ.1 hx
    have hmem : .opened q ∈ ss := by
      have := mem_openings.2 hq
      simpa [openings_dumpValues hvs, mem_openings] using this
    obtain ⟨-, -, hcol⟩ := scan_answer_eq_some.1 hss
    obtain ⟨i, a, j, x, ha, hax, hqx⟩ := mem_collect hcol hmem
    obtain ⟨c, hc, rfl⟩ := subkeySource_getElem? ha
    rcases dumpSubkey_opened hdist hc hax hqx with rfl | ⟨y, hy, hqy⟩
    · exact ⟨i, [], rfl⟩
    · obtain ⟨i', p, rfl⟩ := ih (hdist.subkey hc) hy hqy
      exact ⟨i, i' :: p, by simp⟩

theorem Key.Faultless.subkey (hf : k.Faultless) (hc : k.subkeys[i]? = some c) : c.Faultless :=
  (forall_descend.1 hf).2 c (List.mem_of_getElem? hc)

/-- **`DumpRealKey` opens every key below the one it is given exactly once**, if no call fails. -/
theorem dump_once {name : Option WStr} (hdist : h.key.Distinct F) (hf : h.key.Faultless)
    (hx : dumpRealKey F r n h name d = some out) (hne : p ≠ []) (hp : (h.key.descend p).isSome) :
    (openings out).count (h.path ++ p) = 1 := by
  induction n generalizing h name d out p with
  | zero => cases hx
  | succ n ih =>
    obtain ⟨i, p, rfl⟩ := List.exists_cons_of_ne_nil hne
    obtain ⟨k', hk'⟩ := Option.isSome_iff_exists.1 hp
    rw [descend_cons, Option.bind_eq_some_iff] at hk'
    obtain ⟨c, hc, hk'⟩ := hk'
    obtain ⟨indent, vs, ss, -, hvs, hss, rfl⟩ := dumpRealKey_succ.1 hx
    obtain ⟨-, -, hcol⟩ := scan_answer_eq_some.1 hss
    have hentry : h.key.subkeySource.entries[i]? = some (.ok c.name.1) := by simp [Key.subkeySource, hc]
    obtain ⟨j, pre, x, post, hround, rfl, hother⟩ := collect_split hcol hentry
    -- the other rounds open keys below the other subkeys
    have hzero : (openings pre).count (h.path ++ i :: p) + (openings post).count (h.path ++ i :: p) = 0 := by
      rw [← List.count_append, ← openings_append]
      refine count_openings_eq_zero fun hmem => ?_
      obtain ⟨i', a, j', y, hi', ha, hay, hq⟩ := hother _ hmem
      obtain ⟨c', hc', rfl⟩ := subkeySource_getElem? ha
      rcases dumpSubkey_opened hdist hc' hay hq with he | ⟨z, hz, hqz⟩
      · exact hi' (List.cons.inj (List.append_cancel_left he)).1.symm
      · obtain ⟨l, p', he⟩ := dump_opened (hdist.subkey hc') hz hqz
        simp only [List.append_assoc] at he
        exact hi' (List.cons.inj (List.append_cancel_left he)).1.symm
    have hs : c.openStatus false = ERROR_SUCCESS := ((hf.subkey hc) [] c rfl).1 false
    simp only [dumpSubkey, regOpenKeyExW_name hdist hc, if_pos hs, Option.map_eq_some_iff] at hround
    obtain ⟨y, hy, rfl⟩ := hround
    have hone : (openings (.opened (h.path ++ [i]) :: y)).count (h.path ++ i :: p) = 1 := by
      simp only [openings_opened, List.count_cons]
      cases p with
      | nil =>
        have hself : (openings y).count (h.path ++ [i]) = 0 := count_openings_eq_zero fun hmem => by
          obtain ⟨l, p', he⟩ := dump_opened (hdist.subkey hc) hy hmem
          simpa using congrArg List.length he
        simp [hself]
      | cons l p =>
        have hbelow := ih (hdist.subkey hc) (hf.subkey hc) hy (by simp) (p := l :: p) (by simp [hk'])
        have hdiff : (h.path ++ [i] == h.path ++ i :: l :: p) = false := by simp
        simp only [List.append_assoc] at hbelow
        rw [hdiff]
        simpa using hbelow
    simp only [List.cons_append, openings_key, openings_append, openings_dumpValues hvs, List.nil_append, List.count_append]
    omega

/-! ## LogRegistryFolder -/

theorem folder_opened {subPath : Option WStr} (hx : logRegistryFolder F n h subPath d = some out)
    (hq : .opened q ∈ out) : ∃ h', Reaches F h subPath h' ∧ q = h'.path := by
  induction n generalizing h subPath d out with
  | zero => cases hx
  | succ n ih =>
    cases hopen : openFolder F h subPath with
    | error e =>
      obtain rfl : [.cannotOpen (subPath.getD []) e] = out := by simpa [logRegistryFolder_of_error hopen] using hx
      simp at hq
    | ok h' =>
      obtain ⟨vs, ss, hvs, hss, rfl⟩ := (logRegistryFolder_succ hopen).1 hx
      have hmem := mem_openings.2 hq
      simp only [List.cons_append, openings_opened, openings_key, openings_append, openings_logRegistryValues hvs,
        List.nil_append, List.mem_cons, mem_openings] at hmem
      rcases hmem with rfl | hmem
      · exact ⟨h', .self hopen, rfl⟩
      · obtain ⟨-, -, hcol⟩ := scan_answer_eq_some.1 hss
        obtain ⟨i, a, j, x, ha, hax, hqx⟩ := mem_collect hcol hmem
        obtain ⟨c, hc, rfl⟩ := subkeySource_getElem? ha
        obtain ⟨h'', hr, rfl⟩ := ih hax hqx
        exact ⟨h'', .subkey hopen (List.mem_of_getElem? hc) hr, rfl⟩

/-- What is reached is the key that is opened first, or below it. -/
theorem reaches_below {subPath : Option WStr} (hr : Reaches F h subPath h'') : ∃ h' p,
    openFolder F h subPath = .ok h' ∧ h''.path = h'.path ++ p ∧ h'.key.descend p = some h''.key := by
  induction hr with
  | self hopen => exact ⟨_, [], hopen, by simp, rfl⟩
  | subkey hopen _ _ ih =>
    obtain ⟨h₂, p, hopen₂, hpath, hp⟩ := ih
    obtain ⟨q, -, hq, hdq⟩ := resolve_spec (openFolder_resolve hopen₂).2
    exact ⟨_, q ++ p, hopen, by rw [hpath, hq, List.append_assoc], by rw [descend_append, hdq]; exact hp⟩

/-! ## The starting key -/

theorem startPath_cons_cons {a b : KeyName} :
    startPath (a :: b :: start) = a.1 ++ bslash :: startPath (b :: start) := by
  simp [startPath, List.intercalate_cons_cons]

theorem startPath_cons (a : KeyName) (start : List KeyName) : ∃ x s, x ≠ bslash ∧ startPath (a :: start) = x :: s := by
  obtain ⟨hne, hb, -⟩ := a.2
  obtain ⟨x, s, hs⟩ := List.exists_cons_of_ne_nil hne
  have hx : x ≠ bslash := fun hx => hb (by rw [hs, hx]; exact List.mem_cons_self)
  cases start with
  | nil => exact ⟨x, s, hx, by simp [startPath, hs]⟩
  | cons b start => exact ⟨x, s ++ bslash :: startPath (b :: start), hx, by rw [startPath_cons_cons, hs]; rfl⟩

theorem startPath_snoc {name : KeyName} (hne : start ≠ []) :
    startPath start ++ bslash :: name.1 = startPath (start ++ [name]) := by
  induction start with
  | nil => exact absurd rfl hne
  | cons a start ih =>
    cases start with
    | nil => simp [startPath]
    | cons b start =>
      rw [startPath_cons_cons, List.append_assoc, List.cons_append, ih (by simp)]
      exact startPath_cons_cons.symm

theorem head?_startPath : (startPath start).head? ≠ some bslash := by
  cases start with
  | nil => simp [startPath, List.intercalate]
  | cons a start =>
    obtain ⟨x, s, hx, hs⟩ := startPath_cons a start
    rw [hs]
    simpa using hx

theorem tokens_startPath : tokens (startPath start) = start.map (·.1) := by
  induction start with
  | nil => simp [startPath, List.intercalate]
  | cons a start ih =>
    obtain ⟨hne, hb, -⟩ := a.2
    cases start with
    | nil => simpa [startPath] using tokens_single hne hb
    | cons b start => rw [startPath_cons_cons, tokens_append, tokens_single hne hb, ih]; rfl

/-- **The paths that `LogRegistryFolder` makes for the subkeys have two components at least**, also where they are
cut. -/
theorem two_le_tokens {name : KeyName} (hhead : (fullSubPath (some (startPath start)) name.1).head? ≠ some bslash) :
    2 ≤ (tokens (fullSubPath (some (startPath start)) name.1)).length := by
  cases start with
  | nil => simp [fullSubPath, startPath, List.intercalate] at hhead
  | cons a start =>
    obtain ⟨hne, hb, hlen⟩ := a.2
    obtain ⟨b, rest, hrest⟩ := List.exists_cons_of_ne_nil (show start ++ [name] ≠ [] by simp)
    obtain ⟨x, s, hx, hs⟩ := startPath_cons b rest
    have hfull : startPath (a :: start) ++ bslash :: name.1 = a.1 ++ bslash :: x :: s := by
      rw [startPath_snoc (by simp), List.cons_append, hrest, startPath_cons_cons, hs]
    have hcut : fullSubPath (some (startPath (a :: start))) name.1 =
        a.1 ++ bslash :: x :: s.take (509 - a.1.length) := by
      rw [fullSubPath, Option.getD_some, hfull, List.take_append, List.take_of_length_le (by omega),
        show 511 - a.1.length = (509 - a.1.length) + 1 + 1 by omega, List.take_succ_cons, List.take_succ_cons]
    have hpos := List.length_pos_iff.2 (tokens_cons_ne_nil (s := s.take (509 - a.1.length)) hx)
    simp only [hcut, tokens_append, tokens_single hne hb, List.length_append, List.length_singleton]
    omega

/-- **`LogRegistryFolder` skips the subkeys**: behind the starting key it opens only keys two levels down or more. -/
theorem reaches_far (hr : Reaches F R.hRoot (some (startPath start)) h') (hs : startKey R start = some h) :
    h'.path = h.path ∨ h.path.length + 2 ≤ h'.path.length := by
  have hfirst : ∀ {h₁}, openFolder F R.hRoot (some (startPath start)) = .ok h₁ → h₁ = h := by
    intro h₁ hopen
    have hres := (openFolder_resolve hopen).2
    rw [Option.getD_some, tokens_startPath] at hres
    exact Option.some.inj (hres.symm.trans hs)
  cases hr with
  | self hopen => exact .inl (by rw [hfirst hopen])
  | @subkey _ _ h₁ c _ hopen _ hrest =>
    obtain rfl := hfirst hopen
    obtain ⟨h₂, p, hopen₂, hpath, -⟩ := reaches_below hrest
    obtain ⟨hb, hres⟩ := openFolder_resolve hopen₂
    obtain ⟨q, hlen, hq, -⟩ := resolve_spec hres
    have htwo := two_le_tokens hb
    rw [Option.getD_some] at hlen
    refine .inr ?_
    simp only [hpath, hq, List.length_append]
    omega

theorem startKey_distinct (hs : startKey R start = some h) : h.key.Distinct F := by
  obtain ⟨p, -, -, hp⟩ := resolve_spec hs
  exact R.distinct.descend hp

theorem open_start {wow64 : Bool} : regOpenKeyExW F R.hRoot (some (startPath start)) wow64 = .ok h ↔
    startKey R start = some h ∧ h.key.openStatus wow64 = ERROR_SUCCESS := by
  rw [regOpenKeyExW_eq_ok, Option.getD_some, tokens_startPath]
  exact and_iff_right head?_startPath

/-! ## What is wanted, and when it holds -/

theorem dumpTree_ends_iff : (∃ n out, dumpRealRegistryTree F r n R.hRoot (startPath start) = some out) ↔
    ∀ h, startKey R start = some h → h.key.openStatus false = ERROR_SUCCESS → ∀ p k, Opens h.key p k →
      Dumpable r p.length k := by
  cases hopen : regOpenKeyExW F R.hRoot (some (startPath start)) false with
  | error lr =>
    refine iff_of_true ⟨0, [.cannotOpen (startPath start) lr], by simp [dumpRealRegistryTree, hopen]⟩ ?_
    intro h hs ho
    rw [open_start.2 ⟨hs, ho⟩] at hopen
    cases hopen
  | ok h =>
    obtain ⟨hs, ho⟩ := open_start.1 hopen
    have htree : (∃ n out, dumpRealRegistryTree F r n R.hRoot (startPath start) = some out) ↔
        ∃ n out, dumpRealKey F r n h (some (startPath start)) 0 = some out := by
      simp [dumpRealRegistryTree, hopen]
    rw [htree, dump_ends_iff (startKey_distinct hs)]
    constructor
    · intro hall h' hs' _ p k hp
      obtain rfl : h = h' := Option.some.inj (hs.symm.trans hs')
      simpa using hall p k hp
    · intro hall p k hp
      simpa using hall h hs ho p k hp

theorem dumpTree_once (hs : startKey R start = some h) (hf : h.key.Faultless)
    (hx : dumpRealRegistryTree F r n R.hRoot (startPath start) = some out) : Once h out := by
  intro p hp
  have hdist := startKey_distinct hs
  simp only [dumpRealRegistryTree, open_start.2 ⟨hs, (hf [] h.key rfl).1 false⟩, Option.map_eq_some_iff] at hx
  obtain ⟨y, hy, rfl⟩ := hx
  simp only [openings_opened, List.count_cons]
  cases p with
  | nil =>
    have hself : (openings y).count h.path = 0 := count_openings_eq_zero fun hmem => by
      obtain ⟨i, q, he⟩ := dump_opened hdist hy hmem
      simpa using congrArg List.length he
    simp [hself]
  | cons i p =>
    have hbelow := dump_once hdist hf hy (List.cons_ne_nil i p) hp
    simp [hbelow]

theorem folder_once (hs : startKey R start = some h) (hf : h.key.Faultless) (hleaf : h.key.subkeys = [])
    (hx : logRegistryFolder F n R.hRoot (some (startPath start)) d = some out) : Once h out := by
  intro p hp
  have hopen : openFolder F R.hRoot (some (startPath start)) = .ok h := by
    simp only [openFolder, open_start.2 ⟨hs, (hf [] h.key rfl).1 true⟩]
  obtain rfl : p = [] := by
    cases p with
    | nil => rfl
    | cons i p => simp [descend_cons, hleaf] at hp
  cases n with
  | zero => cases hx
  | succ n =>
    obtain ⟨vs, ss, hvs, hss, rfl⟩ := (logRegistryFolder_succ hopen).1 hx
    obtain ⟨-, -, hcol⟩ := scan_answer_eq_some.1 hss
    obtain rfl : [] = ss := by simpa [Key.subkeySource, hleaf, collect] using hcol
    simp [openings_logRegistryValues hvs]

/-- A subkey of the starting key is left out. -/
theorem folder_not_once (hs : startKey R start = some h) (hc : h.key.subkeys[0]? = some c)
    (hx : logRegistryFolder F n R.hRoot (some (startPath start)) d = some out) : ¬ Once h out := by
  intro honce
  have hcount := honce [0] (by simp [descend_cons, hc])
  have hmem : h.path ++ [0] ∈ openings out := List.count_pos_iff.1 (by omega)
  obtain ⟨h', hr, he⟩ := folder_opened hx (mem_openings.1 hmem)
  have hlen := congrArg List.length he
  simp only [List.length_append, List.length_singleton] at hlen
  rcases reaches_far hr hs with hpath | hpath
  · rw [hpath] at hlen
    omega
  · omega

/-- Wherever `LogRegistryFolder` gets to is the starting key or below it. -/
theorem reaches_descend (hr : Reaches F R.hRoot (some (startPath start)) h') :
    ∃ h p, startKey R start = some h ∧ h.key.descend p = some h'.key := by
  obtain ⟨h, p, hopen, -, hp⟩ := reaches_below hr
  have hs := (openFolder_resolve hopen).2
  rw [Option.getD_some, tokens_startPath] at hs
  exact ⟨h, p, hs, hp⟩

/-! ## An orderly subtree -/

/-- The enumerations of the key are complete, and each value fits into the buffers of `DumpRealKey` and is terminated. -/
structure Key.Orderly (k : Key) : Prop where
  values : k.values.length < 2 ^ 32 ∧ k.valueFault = none
  subkeys : k.subkeys.length < 2 ^ 32 ∧ k.subkeyFault = none
  fits : ∀ v ∈ k.values, v.Terminated ∧ v.name.length < 256 ∧ v.data.length ≤ 4096

theorem Opens.descend (hp : Opens k p k') : k.descend p = some k' := by
  induction p generalizing k with
  | nil => exact congrArg some hp
  | cons i p ih =>
    obtain ⟨c, hc, -, hp⟩ := hp
    rw [descend_cons, hc]
    exact ih hp

theorem Key.Orderly.loggable (ho : k.Orderly) : Loggable k := by
  refine ⟨⟨by simpa [Key.valueSource] using ho.values.1, by simp [Key.valueSource, ho.values.2]⟩, ?_⟩
  exact fun v hv hs => logInside_of_terminated (ho.fits v hv).1 hs

theorem Key.Orderly.subkeys_end (ho : k.Orderly) : k.subkeySource.Ends :=
  ⟨by simpa [Key.subkeySource] using ho.subkeys.1, by simp [Key.subkeySource, ho.subkeys.2]⟩

theorem Key.Orderly.dumpable (ho : k.Orderly) (hd : d ≤ 63) : Dumpable r d k := by
  refine ⟨.inr hd, ⟨by simpa [Key.valueSource] using ho.values.1, by simp [Key.valueSource, ho.values.2]⟩, ?_, ho.subkeys_end⟩
  intro v hv
  obtain ⟨ht, hname, hdata⟩ := ho.fits v hv
  exact dumpInside_of_terminated ht hname hdata

/-- **Over an orderly subtree** of at most 63 levels all the walkers come to their end, whichever keys can be opened. -/
theorem ends_of_orderly (hs : startKey R start = some h)
    (ho : ∀ p k, h.key.descend p = some k → k.Orderly ∧ p.length ≤ 63) :
    (∃ n out, dumpRealRegistryTree F r n R.hRoot (startPath start) = some out) ∧
      (∀ p k, h.key.descend p = some k → ∃ n out, logRegistryValues n k = some out) ∧
      ∃ n out, logRegistryFolder F n R.hRoot (some (startPath start)) d = some out := by
  refine ⟨dumpTree_ends_iff.2 fun h' hs' _ p k hp => ?_, fun p k hp => values_end_iff.2 (ho p k hp).1.loggable, ?_⟩
  · obtain rfl : h = h' := Option.some.inj (hs.symm.trans hs')
    obtain ⟨hk, hlen⟩ := ho p k hp.descend
    exact hk.dumpable hlen
  · refine folder_ends_iff.2 fun h' hr => ?_
    obtain ⟨h₁, p, hs₁, hp⟩ := reaches_descend hr
    obtain rfl : h = h₁ := Option.some.inj (hs.symm.trans hs₁)
    obtain ⟨hk, -⟩ := ho p h'.key hp
    exact ⟨hk.loggable, hk.subkeys_end⟩

/-- **The walkers finish and visit every key once exactly if** the enumerations they get to come to an end, what is
printed of the values ends inside the buffers, there are at most 63 levels below the starting key, and that key has no
subkeys if no call fails. -/
theorem visits_iff : Visits r R start ↔ Walkable r R start := by
  constructor
  · intro hv
    refine ⟨dumpTree_ends_iff.1 hv.dumpEnds, fun h hs p k hp => values_end_iff.1 (hv.valuesEnd h hs p k hp),
      fun h hr => (folder_ends_iff.1 hv.folderEnds h hr).2, ?_⟩
    intro h hs hf
    cases hc : h.key.subkeys with
    | nil => rfl
    | cons c cs =>
      obtain ⟨n, out, hx⟩ := hv.folderEnds
      exact absurd (hv.folderOnce h hs hf n out hx) (folder_not_once hs (by rw [hc]; rfl) hx)
  · intro hw
    refine ⟨dumpTree_ends_iff.2 hw.dump, fun h hs p k hp => values_end_iff.2 (hw.values h hs p k hp), ?_,
      fun h hs hf n out hx => dumpTree_once hs hf hx,
      fun h hs hf n out hx => folder_once hs hf (hw.leaf h hs hf) hx⟩
    refine folder_ends_iff.2 fun h' hr => ?_
    obtain ⟨h, p, hs, hp⟩ := reaches_descend hr
    exact ⟨hw.values h hs p h'.key hp, hw.folder h' hr⟩

/-! ## Two registries -/

def nameA : KeyName := ⟨wide "A", by decide⟩

/-- A key `A` that no call fails for. -/
def plainKey (subkeys : List Key) : Key where
  name := nameA
  openStatus _ := ERROR_SUCCESS
  values := []
  valueFault := none
  subkeys
  subkeyFault := none

theorem plainKey_distinct (hc : c.Distinct F) : (plainKey [c]).Distinct F := by
  refine forall_descend.2 ⟨List.pairwise_singleton _ _, fun c' hc' => ?_⟩
  obtain rfl := List.mem_singleton.1 hc'
  exact hc

theorem plainKey_faultless {ks : List Key} (hc : ∀ c ∈ ks, c.Faultless) : (plainKey ks).Faultless :=
  forall_descend.2 ⟨⟨fun _ => rfl, rfl, rfl⟩, hc⟩

theorem leaf_distinct (hk : k.subkeys = []) : k.Distinct F := forall_descend.2 ⟨by simp [hk], by simp [hk]⟩

/-- `ERROR_KEY_DELETED`, from the first call on. -/
def deleted : Fault := ⟨0, 1018, by decide⟩

/-- The key `A` is deleted right after it has been opened. -/
def deletedTree : Tree F where
  root := plainKey [{ plainKey [] with subkeyFault := some deleted }]
  distinct := plainKey_distinct (leaf_distinct rfl)

/-- The keys `A`, `A\A` and `A\A\A`. -/
def nestedTree : Tree F where
  root := plainKey [plainKey [plainKey [plainKey []]]]
  distinct := plainKey_distinct (plainKey_distinct (plainKey_distinct (leaf_distinct rfl)))

/-- Neither walker is ever done with a key that has been deleted. Without any failure `LogRegistryFolder` opens `A` and
`A\A\A`, but not `A\A`. -/
theorem walkers_miss : (∀ handlerReturns, ¬ Visits handlerReturns (deletedTree : Tree asciiFold) [nameA]) ∧
    (∀ handlerReturns, ¬ Visits handlerReturns (nestedTree : Tree asciiFold) [nameA]) ∧
    logRegistryFolder asciiFold 5 (nestedTree : Tree asciiFold).hRoot (some (startPath [nameA])) 0 =
      some [.opened [0], .key 0 (wide "A"), .opened [0, 0, 0], .key 2 (wide "A\\A")] := by
  refine ⟨fun r hv => ?_, fun r hv => ?_, rfl⟩
  · obtain ⟨h, hs, ho, hk⟩ : ∃ h, startKey (deletedTree : Tree asciiFold) [nameA] = some h ∧
        h.key.openStatus false = ERROR_SUCCESS ∧ h.key.subkeyFault = some deleted := ⟨_, rfl, rfl, rfl⟩
    have hends := (dumpTree_ends_iff.1 hv.dumpEnds h hs ho [] h.key rfl).subkeys
    have hlt := hends.2 (0, .error deleted.error) (by simp [Key.subkeySource, hk]; rfl)
    exact absurd hlt (Nat.not_lt_zero _)
  · have hs : startKey (nestedTree : Tree asciiFold) [nameA] = some ⟨[0], plainKey [plainKey [plainKey []]]⟩ := rfl
    have hf : (plainKey [plainKey [plainKey []]]).Faultless := by
      refine plainKey_faultless fun c hc => ?_
      obtain rfl := List.mem_singleton.1 hc
      refine plainKey_faultless fun c hc => ?_
      obtain rfl := List.mem_singleton.1 hc
      exact plainKey_faultless (by simp)
    obtain ⟨n, out, hx⟩ := hv.folderEnds
    exact folder_not_once hs rfl hx (hv.folderOnce _ hs hf n out hx)

end Rvpn.Walkers
