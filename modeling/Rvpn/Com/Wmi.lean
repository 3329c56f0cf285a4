import Rvpn.Netsh.Text

/-!
# The WMI entry points (emulate_driver_running.c:1894-1929, 2508-2599)

The fake `IWbemServices` is asked for objects in three ways, and each looks at the class name in its own: two search the
text for it, one compares it as a whole.

| here | there |
| --- | --- |
| `Answer`              | the object handed out, if there is one, or what goes wrong instead |
| `execQuery`           | `FakeSvcs_ExecQuery` |
| `createInstanceEnum`  | `FakeSvcs_CreateInstanceEnum` |
| `getObject`           | `Hook_IWbemServices_GetObject` |

`HeapAlloc` succeeds. `ExecQuery` looks for the adapter twice and never for the configuration, so a query has no
configuration for an answer (`execQuery_ne_configuration`). Nothing sets `Real_IWbemServices_GetObject`.
-/

namespace Rvpn.Wmi

open Registry Netsh

def apostrophe : WChar := ⟨0x27, by decide⟩
def openBrace : WChar := ⟨0x7B, by decide⟩
def closeBrace : WChar := ⟨0x7D, by decide⟩
def underscore : WChar := ⟨0x5F, by decide⟩

def networkAdapter : WStr := wide "Win32_NetworkAdapter"
def networkAdapterConfiguration : WStr := wide "Win32_NetworkAdapterConfiguration"

/-! ## The entry points -/

/-- The objects of the driver; an adapter has the GUID it was made with. -/
inductive FakeObject where
  | configuration
  | adapter (guid : Option WStr)
deriving DecidableEq

inductive Fault where
  /-- `queryGuid` is overrun. -/
  | overrun
  /-- A call through a NULL pointer. -/
  | nullCall
deriving DecidableEq

abbrev Answer := Except Fault (Option FakeObject)

instance : DecidableEq Answer
  | .ok a, .ok b => if h : a = b then isTrue (by rw [h]) else isFalse fun he => h (Except.ok.inj he)
  | .error a, .error b => if h : a = b then isTrue (by rw [h]) else isFalse fun he => h (Except.error.inj he)
  | .ok _, .error _ => isFalse nofun
  | .error _, .ok _ => isFalse nofun

/-- What is between `key` and the next `stop`. -/
def extract (key : WStr) (stop : WChar) (s : WStr) : Option WStr :=
  (wcsstr s key).bind fun p =>
    let start := p.drop key.length
    if stop ∈ start then some (start.takeWhile (· ≠ stop)) else none

def extractGuidFromQuery (strQuery : WStr) : Option WStr := extract (wide "GUID='") apostrophe strQuery
def extractDeviceIDFromPath (path : WStr) : Option WStr := extract (wide "DeviceID=" ++ [quote]) quote path

/-- `swprintf(queryGuid, 64, L"{%ls}", guid)`; what does not fit is left out. -/
def swprintfBraces (guid : WStr) : WStr := (openBrace :: guid ++ [closeBrace]).take 63

/-- `wcscpy(queryGuid, guid)`. -/
def wcscpyGuid (guid : WStr) : Except Fault WStr := if guid.length + 1 ≤ 64 then .ok guid else .error .overrun

/-- `queryGuid`, normalized to include braces. -/
def normalize (guid : WStr) : Except Fault WStr :=
  if guid.head? ≠ some openBrace then .ok (swprintfBraces guid) else wcscpyGuid guid

def execQuery (F : CaseFold) (fakeSettingID : WStr) : Option WStr → Answer
  | none => .ok none
  | some strQuery =>
    if contains strQuery networkAdapter then
      match extractGuidFromQuery strQuery with
      | some guid =>
        (normalize guid).map fun queryGuid =>
          if wcsicmp F queryGuid fakeSettingID then some (.adapter (some fakeSettingID)) else none
      | none => .ok (some (.adapter (some fakeSettingID)))
    else if contains strQuery networkAdapter then
      .ok (some (.adapter (some ((extractGuidFromQuery strQuery).getD (wide "{00000000-0000-0000-0000-000000000000}")))))
    else .ok none

/-- Without a GUID there is no adapter to enumerate, the source says. -/
def createInstanceEnum (F : CaseFold) : Option WStr → Option FakeObject
  | none => none
  | some strFilter => if wcsicmp F strFilter networkAdapterConfiguration then some .configuration else none

def getObject (strObjectPath : WStr) : Answer :=
  if contains strObjectPath networkAdapterConfiguration then .ok (some .configuration)
  else if contains strObjectPath networkAdapter then .ok (some (.adapter (extractDeviceIDFromPath strObjectPath)))
  else .error .nullCall

/-! ## Queries and paths -/

def isNameChar (c : WChar) : Bool :=
  (0x30 ≤ c.1 && c.1 ≤ 0x39) || (0x41 ≤ c.1 && c.1 ≤ 0x5A) || (0x61 ≤ c.1 && c.1 ≤ 0x7A) || c = underscore || 0x80 ≤ c.1

/-- Letters, digits and underscores. -/
structure ClassName where
  text : WStr
  ne : text ≠ []
  name : ∀ c ∈ text, isNameChar c = true

/-- A text that can stand between two apostrophes. -/
structure GuidText where
  text : WStr
  quoted : apostrophe ∉ text

/-- `fake_settingID`: a GUID in braces has 38 characters. -/
structure SettingID where
  text : WStr
  length_eq : text.length = 38

/-- `WHERE GUID='g'`. -/
def whereClause (g : GuidText) : WStr := wide " WHERE " ++ (wide "GUID='" ++ (g.text ++ [apostrophe]))

/-- `SELECT * FROM C`, with the condition if there is one. -/
def queryText (C : ClassName) (g : Option GuidText) : WStr :=
  wide "SELECT * FROM " ++ C.text ++ (g.map whereClause).getD []

/-- A path of class `C`: a namespace may stand in front of it, and a key behind it. -/
structure ObjectPath (C : ClassName) where
  pre : WStr
  post : WStr
  pre_end : pre = [] ∨ pre.getLast? = some colon
  post_start : post = [] ∨ post.head? = some dot ∨ post.head? = some equals

def ObjectPath.text {C : ClassName} (p : ObjectPath C) : WStr := p.pre ++ C.text ++ p.post

/-- The GUID with its braces added if they are missing. -/
def braced (g : WStr) : WStr := if g.head? = some openBrace then g else openBrace :: g ++ [closeBrace]

/-- No GUID is given, or it is that of the adapter. -/
def Requested (F : CaseFold) (id : SettingID) : Option GuidText → Prop
  | none => True
  | some g => wcsicmp F (braced g.text) id.text = true

/-- The GUID is not copied past the end of `queryGuid`. -/
def Fits : Option GuidText → Prop
  | none => True
  | some g => g.text.head? = some openBrace → g.text.length < 64

instance (F : CaseFold) (id : SettingID) : ∀ g, Decidable (Requested F id g)
  | none => isTrue trivial
  | some g => inferInstanceAs (Decidable (wcsicmp F (braced g.text) id.text = true))

/-! ## Agreement -/

/-- What kind of object an entry point answers with. -/
inductive Kind where
  | configuration
  | adapter
deriving DecidableEq

def FakeObject.kind : FakeObject → Kind
  | configuration => .configuration
  | adapter _ => .adapter

/-- **The entry points agree on the class.** -/
structure EntryPointsAgree (F : CaseFold) (id : SettingID) (C : ClassName) (g : Option GuidText) (p : ObjectPath C) :
    Prop where
  query : (execQuery F id.text (some (queryText C g))).map (Option.map FakeObject.kind) =
    .ok (if C.text = networkAdapterConfiguration then some .configuration
      else if C.text = networkAdapter ∧ Requested F id g then some .adapter
      else none)
  kinds : (getObject p.text).map (Option.map FakeObject.kind) =
    .ok ((createInstanceEnum F (some C.text)).map FakeObject.kind)
  bounded : execQuery F id.text (some (queryText C g)) ≠ .error .overrun
  served : getObject p.text ≠ .error .nullCall

/-- **What each entry point makes of the class**, wherever the search of the query for `Win32_NetworkAdapter` finds the
class itself or has no consequence, and the GUID fits. -/
structure ClassServed (F : CaseFold) (id : SettingID) (C : ClassName) (g : Option GuidText) (p : ObjectPath C) :
    Prop where
  query : C.text ≠ networkAdapterConfiguration →
    (contains (queryText C g) networkAdapter → C.text = networkAdapter ∨ ¬ Requested F id g) → Fits g →
    execQuery F id.text (some (queryText C g)) =
      .ok (if C.text = networkAdapter ∧ Requested F id g then some (.adapter (some id.text)) else none)
  enumeration : createInstanceEnum F (some C.text) =
    if wcsicmp F C.text networkAdapterConfiguration then some .configuration else none
  configuration : C.text = networkAdapterConfiguration →
    createInstanceEnum F (some C.text) = some .configuration ∧ getObject p.text = .ok (some .configuration)
  /-- The adapter is not enumerated, but it can be had by its path. -/
  adapter : C.text = networkAdapter → ¬ contains p.text networkAdapterConfiguration →
    createInstanceEnum F (some C.text) = none ∧
      getObject p.text = .ok (some (.adapter (extractDeviceIDFromPath p.text)))
  bounded : Fits g → execQuery F id.text (some (queryText C g)) ≠ .error .overrun
  served : contains p.text networkAdapter → getObject p.text ≠ .error .nullCall

variable {F : CaseFold} {id : SettingID} {C : ClassName} {g : Option GuidText} {p : ObjectPath C}
  {key s t u v : WStr} {stop : WChar}

/-! ## Texts -/

theorem notMem_class {c : WChar} (h : isNameChar c = false) : c ∉ C.text := fun hc => by
  rw [C.name c hc] at h
  cases h

theorem contains_class (h : key <:+: C.text) : contains (queryText C g) key = true :=
  contains_iff.2 (h.trans ⟨wide "SELECT * FROM ", (g.map whereClause).getD [], rfl⟩)

theorem contains_path (h : key <:+: C.text) : contains p.text key = true := contains_iff.2 (h.trans ⟨p.pre, p.post, rfl⟩)

/-- The name of the adapter is the front of the name of its configuration. -/
theorem contains_configuration (h : contains s networkAdapterConfiguration = true) :
    contains s networkAdapter = true := by
  have hpre : networkAdapter <+: networkAdapterConfiguration := by decide
  exact contains_iff.2 (hpre.isInfix.trans (contains_iff.1 h))

/-- The key is found behind a space, where no `stop` has been before. -/
theorem extract_quoted (hk : space ∉ key) (hstop : stop ≠ space) (hu : stop ∉ u) (ht : stop ∉ t) :
    extract (key ++ [stop]) stop (u ++ space :: (key ++ [stop] ++ (t ++ [stop]))) = some t := by
  have hfind : wcsstr (u ++ space :: (key ++ [stop] ++ (t ++ [stop]))) (key ++ [stop]) =
      some (key ++ [stop] ++ (t ++ [stop])) := by
    rw [List.append_cons, wcsstr_append]
    · exact wcsstr_of_prefix (List.prefix_append _ _)
    · intro w hw hne
      obtain rfl | ⟨w', rfl, hw'⟩ := List.suffix_concat_iff.1 hw
      · exact absurd rfl hne
      · simp only [List.append_assoc]
        exact not_prefix_at hk hstop.symm fun hm => hu (hw'.subset hm)
  have htake : (t ++ [stop]).takeWhile (· ≠ stop) = t := by
    rw [List.takeWhile_append_of_pos fun c hc => by simpa using fun he : c = stop => ht (he ▸ hc)]
    simp
  rw [extract, hfind, Option.bind_some, List.drop_left]
  simp only [List.mem_append, List.mem_singleton, or_true, if_true, htake]

theorem extract_eq_none (h : stop ∈ key) (hs : stop ∉ s) : extract key stop s = none := by
  have hfind : wcsstr s key = none := by
    cases hw : wcsstr s key with
    | none => rfl
    | some p => exact absurd ((contains_iff.1 (by rw [contains, hw]; rfl) : key <:+: s).subset h) hs
  rw [extract, hfind, Option.bind_none]

/-- **The GUID of a query** is the one in its condition. -/
theorem extractGuidFromQuery_queryText : extractGuidFromQuery (queryText C g) = g.map GuidText.text := by
  have hkey : wide "GUID='" = wide "GUID=" ++ [apostrophe] := by decide
  have hclass : apostrophe ∉ C.text := notMem_class (by decide)
  cases g with
  | none =>
    apply extract_eq_none (by decide)
    simp only [queryText, Option.map_none, Option.getD_none, List.append_nil, List.mem_append, not_or]
    exact ⟨by decide, hclass⟩
  | some g =>
    have htext : queryText C (some g) = (wide "SELECT * FROM " ++ C.text ++ wide " WHERE") ++
        space :: (wide "GUID=" ++ [apostrophe] ++ (g.text ++ [apostrophe])) := by
      have hw : wide " WHERE " = wide " WHERE" ++ [space] := by decide
      simp only [queryText, Option.map_some, Option.getD_some, whereClause, hw, hkey, List.append_assoc,
        List.cons_append, List.nil_append]
    rw [extractGuidFromQuery, htext, hkey]
    apply extract_quoted (by decide) (by decide) _ g.quoted
    simp only [List.mem_append, not_or]
    exact ⟨⟨by decide, hclass⟩, by decide⟩

/-! ## The entry points -/

theorem length_of_wcsicmp {a b : WStr} (h : wcsicmp F a b = true) : a.length = b.length := by
  simpa [CaseFold.fold] using congrArg List.length (wcsicmp_eq_true.1 h)

/-- A GUID that `swprintf` cuts is not that of the adapter, whole or cut. -/
theorem wcsicmp_swprintf {guid : WStr} :
    wcsicmp F (swprintfBraces guid) id.text = wcsicmp F (openBrace :: guid ++ [closeBrace]) id.text := by
  unfold swprintfBraces
  by_cases hlen : (openBrace :: guid ++ [closeBrace]).length ≤ 63
  · rw [List.take_of_length_le hlen]
  · have hid := id.length_eq
    have hcut : wcsicmp F ((openBrace :: guid ++ [closeBrace]).take 63) id.text = false := by
      rw [Bool.eq_false_iff]
      intro h
      have := length_of_wcsicmp h
      rw [List.length_take] at this
      omega
    have hwhole : wcsicmp F (openBrace :: guid ++ [closeBrace]) id.text = false := by
      rw [Bool.eq_false_iff]
      intro h
      have := length_of_wcsicmp h
      omega
    rw [hcut, hwhole]

/-- **All a query can lead to.** -/
theorem execQuery_eq : execQuery F id.text (some s) =
    if contains s networkAdapter then
      match extractGuidFromQuery s with
      | some guid =>
        if guid.head? = some openBrace ∧ 64 ≤ guid.length then .error .overrun
        else .ok (if wcsicmp F (braced guid) id.text then some (.adapter (some id.text)) else none)
      | none => .ok (some (.adapter (some id.text)))
    else .ok none := by
  unfold execQuery
  by_cases hc : contains s networkAdapter = true
  · simp only [if_pos hc]
    cases extractGuidFromQuery s with
    | none => rfl
    | some guid =>
      by_cases hb : guid.head? = some openBrace
      · by_cases hlen : guid.length + 1 ≤ 64
        · have hn : normalize guid = .ok guid := by rw [normalize, if_neg (not_not_intro hb), wcscpyGuid, if_pos hlen]
          have hfit : ¬ (guid.head? = some openBrace ∧ 64 ≤ guid.length) := by omega
          simp only [hn, if_neg hfit, braced, if_pos hb]
          rfl
        · have hn : normalize guid = .error .overrun := by
            rw [normalize, if_neg (not_not_intro hb), wcscpyGuid, if_neg hlen]
          have hlong : guid.head? = some openBrace ∧ 64 ≤ guid.length := ⟨hb, by omega⟩
          simp only [hn, if_pos hlong]
          rfl
      · have hn : normalize guid = .ok (swprintfBraces guid) := if_pos hb
        have hfit : ¬ (guid.head? = some openBrace ∧ 64 ≤ guid.length) := fun h => hb h.1
        simp only [hn, if_neg hfit, braced, if_neg hb, ← wcsicmp_swprintf]
        rfl
  · simp only [if_neg hc]

/-- **The answer to a query** whose GUID fits: the adapter, wherever its name stands in the text. -/
theorem execQuery_queryText (hf : Fits g) : execQuery F id.text (some (queryText C g)) =
    .ok (if contains (queryText C g) networkAdapter ∧ Requested F id g then some (.adapter (some id.text)) else none) := by
  rw [execQuery_eq, extractGuidFromQuery_queryText]
  by_cases hc : contains (queryText C g) networkAdapter = true
  · cases g with
    | none => simp [hc, Requested]
    | some g =>
      have hlen : ¬ (g.text.head? = some openBrace ∧ 64 ≤ g.text.length) := fun h => by
        have := hf h.1
        omega
      simp only [hc, if_true, Option.map_some, if_neg hlen, true_and, Requested]
  · simp [hc]

/-- **Every overrun**: a GUID of 64 characters or more that starts with a brace. -/
theorem execQuery_overrun : execQuery F id.text (some s) = .error .overrun ↔ contains s networkAdapter = true ∧
    ∃ guid, extractGuidFromQuery s = some guid ∧ guid.head? = some openBrace ∧ 64 ≤ guid.length := by
  rw [execQuery_eq]
  by_cases hc : contains s networkAdapter = true
  · cases extractGuidFromQuery s with
    | none => simp [hc]
    | some guid =>
      by_cases hlong : guid.head? = some openBrace ∧ 64 ≤ guid.length
      · simp [hc, hlong]
      · simp [hc, hlong]
  · simp [hc]

/-- No query is answered with a configuration. -/
theorem execQuery_ne_configuration : execQuery F id.text (some s) ≠ .ok (some .configuration) := by
  rw [execQuery_eq]
  by_cases hc : contains s networkAdapter = true
  · cases extractGuidFromQuery s with
    | none => simp [hc]
    | some guid =>
      by_cases hlong : guid.head? = some openBrace ∧ 64 ≤ guid.length
      · simp [hc, hlong]
      · simp only [hc, if_true, if_neg hlong]
        split <;> simp
  · simp [hc]

theorem getObject_nullCall : getObject s = .error .nullCall ↔ ¬ contains s networkAdapter = true := by
  unfold getObject
  split
  · next h => simp [contains_configuration h]
  · split
    · next h => simp [h]
    · next h => simp [h]

theorem createInstanceEnum_adapter (h : C.text = networkAdapter) : createInstanceEnum F (some C.text) = none := by
  have hne : ¬ wcsicmp F C.text networkAdapterConfiguration = true := fun he => by
    have hlen := length_of_wcsicmp he
    rw [h] at hlen
    exact absurd hlen (by decide)
  rw [createInstanceEnum, if_neg hne]

/-! ## The result -/

/-- **What the three entry points make of a class.** -/
theorem class_served (F : CaseFold) (id : SettingID) (C : ClassName) (g : Option GuidText) (p : ObjectPath C) :
    ClassServed F id C g p where
  query _ hsearch hf := by
    have hiff : contains (queryText C g) networkAdapter ∧ Requested F id g ↔
        C.text = networkAdapter ∧ Requested F id g := by
      constructor
      · rintro ⟨hc, hr⟩
        exact ⟨(hsearch hc).resolve_right (not_not_intro hr), hr⟩
      · rintro ⟨hC, hr⟩
        exact ⟨contains_class (by rw [hC]), hr⟩
    rw [execQuery_queryText hf]
    simp only [hiff]
  enumeration := rfl
  configuration h := by
    constructor
    · rw [h, createInstanceEnum, if_pos (wcsicmp_eq_true.2 rfl)]
    · rw [getObject, if_pos (contains_path (by rw [h]))]
  adapter h hno := by
    refine ⟨createInstanceEnum_adapter h, ?_⟩
    rw [getObject, if_neg hno, if_pos (contains_path (by rw [h]))]
  bounded hf := by simp [execQuery_queryText hf]
  served hc := fun hn => getObject_nullCall.1 hn hc

def adapterClass : ClassName := ⟨networkAdapter, by decide, List.all_eq_true.1 (by decide)⟩
def configurationClass : ClassName := ⟨networkAdapterConfiguration, by decide, List.all_eq_true.1 (by decide)⟩
def systemClass : ClassName := ⟨wide "Win32_OperatingSystem", by decide, List.all_eq_true.1 (by decide)⟩

/-- `fake_settingID` as it starts. -/
def zeroID : SettingID := ⟨wide "{00000000-0000-0000-0000-000000000000}", by decide⟩

/-- A brace and 63 zeros. -/
def longGuid : GuidText := ⟨openBrace :: List.replicate 63 ⟨0x30, by decide⟩, by decide⟩

/-- A path that is the name of its class. -/
def barePath (C : ClassName) : ObjectPath C := ⟨[], [], .inl rfl, .inl rfl⟩

/-- The adapter is enumerated as nothing and had by its path. Besides, the query for its configuration yields the
adapter, a long GUID overruns the buffer, and a path of any other class is a call through NULL. -/
theorem classes_differ : ¬ EntryPointsAgree asciiFold zeroID adapterClass none (barePath adapterClass) ∧
    ¬ EntryPointsAgree asciiFold zeroID configurationClass none (barePath configurationClass) ∧
    ¬ EntryPointsAgree asciiFold zeroID adapterClass (some longGuid) (barePath adapterClass) ∧
    ¬ EntryPointsAgree asciiFold zeroID systemClass none (barePath systemClass) := by
  refine ⟨fun h => ?_, fun h => ?_, fun h => ?_, fun h => ?_⟩
  · exact absurd h.kinds (by decide +kernel)
  · exact absurd h.query (by decide +kernel)
  · exact absurd (by decide +kernel) h.bounded
  · exact absurd (by decide +kernel) h.served

end Rvpn.Wmi
