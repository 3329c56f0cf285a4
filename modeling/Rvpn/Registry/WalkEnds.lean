import Rvpn.Registry.Walkers

/-!
# When the registry walkers end

Both walkers leave a loop only at `ERROR_NO_MORE_ITEMS`, so an enumeration that goes on failing is never left. What
they print of a value they read up to a NUL, wherever that is.

* `Dumpable`, `Loggable` — what the two need of one key; `DumpInside`, `LogInside` of one value;
* `dump_step`, `folder_step` — a call is done if the key is in order and the calls for the subkeys are done;
* `dump_ends_iff`, `values_end_iff`, `folder_ends_iff` — when each of the three is done with its part of the registry.

`DumpRealKey` gets to the subkeys that open (`Opens`); where `LogRegistryFolder` gets to follows from the paths it
passes on (`Reaches`), and goes further down with each call (`fullSubPath_deeper`).
-/

namespace Rvpn.Walkers

open Bytes Registry Scan

variable {F : CaseFold} {r : Bool} {h h' h'' : Handle} {k k' c : Key} {n m d i : Nat} {out : List Event} {p q : List Nat}

/-! ## Paths through the tree -/

@[simp] theorem descend_nil : k.descend [] = some k := rfl

theorem descend_cons : k.descend (i :: p) = k.subkeys[i]?.bind fun c => c.descend p := rfl

theorem descend_append : k.descend (p ++ q) = (k.descend p).bind fun k' => k'.descend q := by
  induction p generalizing k with
  | nil => rfl
  | cons i p ih =>
    rw [List.cons_append, descend_cons, descend_cons]
    cases k.subkeys[i]? with
    | none => rfl
    | some c => exact ih

/-- **Induction over a key**: what holds of a key if it holds of all below it holds of every key. -/
theorem Key.induction {P : Key → Prop} (step : ∀ k, (∀ p k', p ≠ [] → k.descend p = some k' → P k') → P k) (k : Key) :
    P k := by
  have hall : ∀ n (k : Key), sizeOf k ≤ n → ∀ p k', k.descend p = some k' → P k' := by
    intro n
    induction n with
    | zero =>
      intro k hk
      cases k
      simp at hk
    | succ n ih =>
      intro k hk p k' hp
      have hbelow : ∀ p k', p ≠ [] → k.descend p = some k' → P k' := by
        intro p k' hne hp
        cases p with
        | nil => exact absurd rfl hne
        | cons i p =>
          rw [descend_cons, Option.bind_eq_some_iff] at hp
          obtain ⟨c, hc, hp⟩ := hp
          have hlt : sizeOf c < sizeOf k := by
            have := List.sizeOf_lt_of_mem (List.mem_of_getElem? hc)
            cases k
            simp only [Key.mk.sizeOf_spec] at this ⊢
            omega
          exact ih c (by omega) p k' hp
      cases p with
      | nil =>
        obtain rfl : k = k' := by simpa using hp
        exact step k hbelow
      | cons i p => exact hbelow (i :: p) k' (by simp) hp
  exact hall (sizeOf k) k (Nat.le_refl _) [] k rfl

/-- What holds of a key and of all below it holds of its subkeys in the same way. -/
theorem forall_descend {P : Key → Prop} : (∀ p k', k.descend p = some k' → P k') ↔
    P k ∧ ∀ c ∈ k.subkeys, ∀ p k', c.descend p = some k' → P k' := by
  constructor
  · intro hall
    refine ⟨hall [] k rfl, fun c hc p k' hp => ?_⟩
    obtain ⟨i, hi⟩ := List.getElem?_of_mem hc
    exact hall (i :: p) k' (by simp [descend_cons, hi, hp])
  · rintro ⟨hself, hsub⟩ p k' hp
    cases p with
    | nil =>
      obtain rfl : k = k' := by simpa using hp
      exact hself
    | cons i p =>
      rw [descend_cons, Option.bind_eq_some_iff] at hp
      obtain ⟨c, hc, hp⟩ := hp
      exact hsub c (List.mem_of_getElem? hc) p k' hp

theorem Key.Distinct.descend (hd : k.Distinct F) (hp : k.descend p = some k') : k'.Distinct F := by
  intro q k'' hq
  exact hd (p ++ q) k'' (by simp [descend_append, hp, hq])

theorem Key.Distinct.subkey (hd : k.Distinct F) (hc : k.subkeys[i]? = some c) : c.Distinct F :=
  (forall_descend.1 hd).2 c (List.mem_of_getElem? hc)

/-! ## Names -/

/-- **The name of a subkey finds that subkey.** -/
theorem subkey_name (hd : h.key.Distinct F) (hc : h.key.subkeys[i]? = some c) :
    subkey F h c.name.1 = some ⟨h.path ++ [i], c⟩ := by
  obtain ⟨hi, hget⟩ := List.getElem?_eq_some_iff.1 hc
  have hfind : (h.key.subkeys.findIdx? fun a => wcsicmp F a.name.1 c.name.1) = some i := by
    refine List.findIdx?_eq_some_iff_getElem.2 ⟨hi, by simp [hget], ?_⟩
    intro j hj
    have hne := List.pairwise_iff_getElem.1 (hd [] h.key rfl) j i (by omega) hi hj
    simpa [hget] using hne
  simp [subkey, hfind, hc]

theorem regOpenKeyExW_name {w : Bool} (hd : h.key.Distinct F) (hc : h.key.subkeys[i]? = some c) :
    regOpenKeyExW F h (some c.name.1) w =
      if c.openStatus w = ERROR_SUCCESS then .ok ⟨h.path ++ [i], c⟩ else .error (c.openStatus w) := by
  obtain ⟨hne, hb, -⟩ := c.name.2
  have hhead : c.name.1.head? ≠ some bslash := fun he => hb (List.mem_of_head? he)
  simp [regOpenKeyExW, hhead, tokens_single hne hb, resolve, subkey_name hd hc]

theorem resolve_spec {ts : List WStr} (hr : resolve F h ts = some h') :
    ∃ p, p.length = ts.length ∧ h'.path = h.path ++ p ∧ h.key.descend p = some h'.key := by
  induction ts generalizing h with
  | nil =>
    obtain rfl : h = h' := by simpa [resolve] using hr
    exact ⟨[], rfl, by simp, rfl⟩
  | cons t ts ih =>
    simp only [resolve, Option.bind_eq_some_iff] at hr
    obtain ⟨h₁, h₁sub, hr⟩ := hr
    obtain ⟨p, hlen, hpath, hp⟩ := ih hr
    simp only [subkey, Option.bind_eq_some_iff, Option.map_eq_some_iff] at h₁sub
    obtain ⟨i, -, c, hc, rfl⟩ := h₁sub
    exact ⟨i :: p, by simp [hlen], by simp [hpath], by simp [descend_cons, hc, hp]⟩

theorem regOpenKeyExW_eq_ok {path : Option WStr} {w : Bool} : regOpenKeyExW F h path w = .ok h' ↔
    (path.getD []).head? ≠ some bslash ∧ resolve F h (tokens (path.getD [])) = some h' ∧
      h'.key.openStatus w = ERROR_SUCCESS := by
  simp only [regOpenKeyExW]
  split
  · next hb => simp [hb]
  · next hb =>
    cases resolve F h (tokens (path.getD [])) with
    | none => simp
    | some h₁ =>
      simp only [hb, ne_eq, not_false_eq_true, Option.some.injEq, true_and]
      split
      · next hs =>
        constructor
        · intro he
          obtain rfl : h₁ = h' := by simpa using he
          exact ⟨rfl, hs⟩
        · rintro ⟨rfl, -⟩
          rfl
      · next hs =>
        refine iff_of_false (by simp) ?_
        rintro ⟨rfl, hs'⟩
        exact hs hs'

theorem openFolder_resolve {path : Option WStr} (ho : openFolder F h path = .ok h') :
    (path.getD []).head? ≠ some bslash ∧ resolve F h (tokens (path.getD [])) = some h' := by
  simp only [openFolder] at ho
  split at ho
  · split at ho
    · obtain ⟨hb, hr, -⟩ := regOpenKeyExW_eq_ok.1 ho
      exact ⟨hb, hr⟩
    · cases ho
  · next hKey hopen =>
    obtain rfl : hKey = h' := by simpa using ho
    obtain ⟨hb, hr, -⟩ := regOpenKeyExW_eq_ok.1 hopen
    exact ⟨hb, hr⟩

/-! ## What is printed of a value -/

/-- `DumpRealKey` prints the answer from inside `valName` and `valData`. -/
structure DumpInside (a : ValueAnswer) : Prop where
  name : 0 < a.out.cchValueName → 0 ∈ buffer 256 a.out.valueName
  string : a.out.type = REG_SZ ∨ a.out.type = REG_EXPAND_SZ → 2 ≤ a.out.cbData → 0 ∈ ofUnits (buffer 4096 a.out.data)
  multi : a.out.type = REG_MULTI_SZ → EmptyString (ofUnits (buffer 4096 a.out.data))

/-- `LogRegistryValues` prints the answer, if it does, from inside `data`. -/
structure LogInside (a : ValueAnswer) : Prop where
  string : a.out.type = REG_SZ ∨ a.out.type = REG_EXPAND_SZ → 0 ∈ ofUnits (buffer 65536 a.out.data)
  multi : a.out.type = REG_MULTI_SZ → EmptyString (ofUnits (buffer 65536 a.out.data))

@[simp] theorem length_buffer {α : Type} {f : Nat → α} : (buffer n f).length = n := by simp [buffer]

theorem wideString_isSome {us : List UInt16} : (wideString us).isSome ↔ 0 ∈ us := by
  rw [wideString, Option.isSome_map, readString_isSome]

theorem hexLines_isSome {data : List UInt8} (hlen : n ≤ data.length) : (hexLines data n).isSome := by
  unfold hexLines
  split
  · rfl
  · rw [Option.isSome_map]
    exact logHex_isSome hlen

theorem dumpData_isSome (type : UInt32) (n : Nat) {data : List UInt8} (hlen : 32 ≤ data.length) :
    (dumpData type n data).isSome ↔ (type = REG_SZ ∨ type = REG_EXPAND_SZ → 2 ≤ n → 0 ∈ ofUnits data) ∧
      (type = REG_MULTI_SZ → EmptyString (ofUnits data)) := by
  by_cases hs : type = REG_SZ ∨ type = REG_EXPAND_SZ
  · have hm : ¬ type = REG_MULTI_SZ := by rcases hs with rfl | rfl <;> decide
    rw [dumpData, if_pos hs]
    split
    · next h2 => simp [wideString_isSome, hs, hm, h2]
    · next h2 => simp [hm, h2]
  by_cases hm : type = REG_MULTI_SZ
  · have hdata : dumpData type n data =
        (readMulti data.length (ofUnits data)).map fun items => .multiString :: items.map .item := by
      subst hm
      rfl
    rw [hdata, Option.isSome_map, readMulti_isSome (length_ofUnits data)]
    exact ⟨fun he => ⟨fun h => absurd h hs, fun _ => he⟩, fun h => h.2 hm⟩
  · -- nothing that needs a terminator
    refine iff_of_true ?_ ⟨fun h => absurd h hs, fun h => absurd h hm⟩
    rw [dumpData, if_neg hs]
    split
    · split
      · simp [readNumber_isSome, show 4 ≤ data.length by omega]
      · rfl
    split
    · split
      · simp [readNumber_isSome, show 8 ≤ data.length by omega]
      · rfl
    split
    · rw [Option.isSome_map]
      exact hexLines_isSome (by omega)
    · rfl

theorem logData_isSome (type : UInt32) {data : List UInt8} (hlen : 4 ≤ data.length) (hn : n ≤ data.length) :
    (logData type n data).isSome ↔ (type = REG_SZ ∨ type = REG_EXPAND_SZ → 0 ∈ ofUnits data) ∧
      (type = REG_MULTI_SZ → EmptyString (ofUnits data)) := by
  by_cases hs : type = REG_SZ ∨ type = REG_EXPAND_SZ
  · have hm : ¬ type = REG_MULTI_SZ := by rcases hs with rfl | rfl <;> decide
    rw [logData, if_pos hs, Option.isSome_map, wideString_isSome]
    exact ⟨fun hz => ⟨fun _ => hz, fun h => absurd h hm⟩, fun h => h.1 hs⟩
  by_cases hm : type = REG_MULTI_SZ
  · have hdata : logData type n data =
        (readMulti data.length (ofUnits data)).map fun items => .multiString :: items.map .item := by
      subst hm
      rfl
    rw [hdata, Option.isSome_map, readMulti_isSome (length_ofUnits data)]
    exact ⟨fun he => ⟨fun h => absurd h hs, fun _ => he⟩, fun h => h.2 hm⟩
  · refine iff_of_true ?_ ⟨fun h => absurd h hs, fun h => absurd h hm⟩
    rw [logData, if_neg hs]
    split
    · split
      · simp [readNumber_isSome, hlen]
      · rfl
    split
    · rw [Option.isSome_map]
      exact hexLines_isSome hn
    · rfl

theorem dumpName_isSome (n : Nat) (us : List UInt16) : (dumpName n us).isSome ↔ (0 < n → 0 ∈ us) := by
  unfold dumpName
  split
  · next h => simp [wideString_isSome, h]
  · next h => simp [h]

/-- Where a value fits, its name ends inside the buffer. -/
theorem zero_mem_name {us : List UInt16} {f : Nat → UInt16} (hlen : us.length < n) :
    0 ∈ buffer n (store (us ++ [0]) f) := by
  refine List.mem_map.2 ⟨us.length, List.mem_range.2 hlen, ?_⟩
  simp [store]

theorem dumpValue_isSome {v : Value} : (dumpValue (v.answer 256 4096)).isSome ↔ DumpInside (v.answer 256 4096) := by
  have hstatus : ¬ ((v.answer 256 4096).status ≠ ERROR_SUCCESS ∧ (v.answer 256 4096).status ≠ ERROR_MORE_DATA) := by
    unfold Value.answer
    split <;> simp
  generalize v.answer 256 4096 = a at hstatus ⊢
  have hname := dumpName_isSome a.out.cchValueName (buffer 256 a.out.valueName)
  have hdata := dumpData_isSome a.out.type a.out.cbData (by simp : 32 ≤ (buffer 4096 a.out.data).length)
  rw [dumpValue, if_neg hstatus]
  constructor
  · intro hv
    obtain ⟨es, hes⟩ := Option.isSome_iff_exists.1 hv
    simp only [Option.bind_eq_bind, Option.bind_eq_some_iff] at hes
    obtain ⟨vn, hvn, lines, hlines, -⟩ := hes
    obtain ⟨hstr, hmul⟩ := hdata.1 (by simp [hlines])
    exact ⟨hname.1 (by simp [hvn]), hstr, hmul⟩
  · rintro ⟨hn, hstr, hmul⟩
    obtain ⟨vn, hvn⟩ := Option.isSome_iff_exists.1 (hname.2 hn)
    obtain ⟨lines, hlines⟩ := Option.isSome_iff_exists.1 (hdata.2 ⟨hstr, hmul⟩)
    simp [hvn, hlines]

theorem logValue_isSome {v : Value} {j : UInt32} : (logValue j (v.answer 16384 65536)).isSome ↔
    ((v.answer 16384 65536).status = ERROR_SUCCESS → LogInside (v.answer 16384 65536)) := by
  have hfits : (v.answer 16384 65536).status = ERROR_SUCCESS → 0 ∈ buffer 16384 (v.answer 16384 65536).out.valueName ∧
      (v.answer 16384 65536).out.cbData ≤ 65536 := by
    unfold Value.answer
    split
    · next hfit => exact fun _ => ⟨zero_mem_name (by simpa using hfit.1), hfit.2⟩
    · simp [ERROR_MORE_DATA, ERROR_SUCCESS]
  generalize v.answer 16384 65536 = a at hfits ⊢
  by_cases hs : a.status = ERROR_SUCCESS
  · obtain ⟨hname, hlen⟩ := hfits hs
    obtain ⟨vn, hvn⟩ := Option.isSome_iff_exists.1 (wideString_isSome.2 hname)
    have hdata := logData_isSome a.out.type (by simp : 4 ≤ (buffer 65536 a.out.data).length) (by simpa using hlen)
    have hlog : (logValue j a).isSome ↔ (logData a.out.type a.out.cbData (buffer 65536 a.out.data)).isSome := by
      cases hl : logData a.out.type a.out.cbData (buffer 65536 a.out.data) <;> simp [logValue, hs, hvn, hl]
    rw [hlog, hdata]
    exact ⟨fun ⟨hstr, hmul⟩ _ => ⟨hstr, hmul⟩, fun h => ⟨(h hs).string, (h hs).multi⟩⟩
  · simp [logValue, hs]

/-! ## Values that fit -/

/-- The data of a value is terminated as its type wants it. -/
structure Value.Terminated (v : Value) : Prop where
  string : v.type = REG_SZ ∨ v.type = REG_EXPAND_SZ → 0 ∈ ofUnits v.data
  multi : v.type = REG_MULTI_SZ → EmptyString (ofUnits v.data)

theorem buffer_store {α : Type} {xs : List α} {f : Nat → α} (hlen : xs.length ≤ n) :
    ∃ rest, buffer n (store xs f) = xs ++ rest := by
  obtain ⟨l, rfl⟩ := Nat.exists_eq_add_of_le hlen
  have hfront : (List.range xs.length).map (store xs f) = xs := by
    refine List.ext_getElem (by simp) fun i h₁ h₂ => ?_
    simp [store, h₂]
  exact ⟨_, by rw [buffer, List.range_add, List.map_append, hfront]⟩

theorem ofUnits_append (xs ys : List UInt8) : ∃ us, ofUnits (xs ++ ys) = ofUnits xs ++ us := by
  induction xs using ofUnits.induct with
  | case1 a b rest ih =>
    obtain ⟨us, hus⟩ := ih
    exact ⟨us, by simp [ofUnits, hus]⟩
  | case2 xs hxs => exact ⟨ofUnits (xs ++ ys), by rw [show ofUnits xs = [] by simp [ofUnits], List.nil_append]⟩

theorem emptyString_append_right {us vs : List UInt16} (he : EmptyString us) : EmptyString (us ++ vs) := by
  rcases he with hh | hin
  · exact .inl (by cases us <;> simp_all)
  · exact .inr (hin.trans (List.infix_append' [] us vs))

/-- What stands in a buffer that the data fits into is terminated as well. -/
theorem terminated_buffer {v : Value} {f : Nat → UInt8} (ht : v.Terminated) (hlen : v.data.length ≤ n) :
    (v.type = REG_SZ ∨ v.type = REG_EXPAND_SZ → 0 ∈ ofUnits (buffer n (store v.data f))) ∧
      (v.type = REG_MULTI_SZ → EmptyString (ofUnits (buffer n (store v.data f)))) := by
  obtain ⟨rest, hrest⟩ := buffer_store (f := f) hlen
  obtain ⟨us, hus⟩ := ofUnits_append v.data rest
  rw [hrest, hus]
  exact ⟨fun hs => List.mem_append_left _ (ht.string hs), fun hm => emptyString_append_right (ht.multi hm)⟩

/-- **A value that fits and is terminated** is printed from inside the buffers, by both. -/
theorem dumpInside_of_terminated {v : Value} (ht : v.Terminated) (hname : v.name.length < 256)
    (hdata : v.data.length ≤ 4096) : DumpInside (v.answer 256 4096) := by
  rw [Value.answer, if_pos ⟨hname, hdata⟩]
  obtain ⟨hstr, hmul⟩ := terminated_buffer (f := v.rest.data) ht hdata
  exact ⟨fun _ => zero_mem_name (by simpa using hname), fun hs _ => hstr hs, hmul⟩

theorem logInside_of_terminated {v : Value} (ht : v.Terminated) (hs : (v.answer 16384 65536).status = ERROR_SUCCESS) :
    LogInside (v.answer 16384 65536) := by
  unfold Value.answer at hs ⊢
  split at hs
  · next hfit =>
    obtain ⟨hstr, hmul⟩ := terminated_buffer (f := v.rest.data) ht hfit.2
    rw [if_pos hfit]
    exact ⟨hstr, hmul⟩
  · cases hs

/-! ## When the walkers end -/

/-- What `DumpRealKey` needs of a key that many levels below the starting one. -/
structure Dumpable (r : Bool) (depth : Nat) (k : Key) : Prop where
  indent : r = true ∨ depth ≤ 63
  values : (k.valueSource 256 4096).Ends
  inside : ∀ v ∈ k.values, DumpInside (v.answer 256 4096)
  subkeys : k.subkeySource.Ends

/-- What `LogRegistryValues` needs of a key. -/
structure Loggable (k : Key) : Prop where
  values : (k.valueSource 16384 65536).Ends
  inside : ∀ v ∈ k.values, (v.answer 16384 65536).status = ERROR_SUCCESS → LogInside (v.answer 16384 65536)

/-- `k'` is the key at a path, and all keys on the way from `k` to it open. -/
def Opens : Key → List Nat → Key → Prop
  | k, [], k' => k = k'
  | k, i :: p, k' => ∃ c, k.subkeys[i]? = some c ∧ c.openStatus false = ERROR_SUCCESS ∧ Opens c p k'

/-- `LogRegistryFolder` gets to open `h'`. -/
inductive Reaches (F : CaseFold) : Handle → Option WStr → Handle → Prop
  | self {h subPath h'} : openFolder F h subPath = .ok h' → Reaches F h subPath h'
  | subkey {h subPath h' c h''} : openFolder F h subPath = .ok h' → c ∈ h'.key.subkeys →
      Reaches F h' (some (fullSubPath subPath c.name.1)) h'' → Reaches F h subPath h''

theorem length_blanks : (List.replicate d (wide "  ")).flatten.length = d * 2 := by
  simp [show (wide "  ").length = 2 from rfl]

theorem indentOf_eq (hd : d ≤ 63) : indentOf r d = some ((List.replicate d (wide "  ")).flatten) := by
  induction d with
  | zero => rfl
  | succ d ih =>
    have hroom : (List.replicate d (wide "  ")).flatten.length + (wide "  ").length < 128 := by
      rw [length_blanks, show (wide "  ").length = 2 from rfl]
      omega
    rw [indentOf, ih (by omega), Option.bind_some, wcscat_s, if_pos hroom, List.replicate_succ', List.flatten_append,
      List.flatten_singleton]

theorem indentOf_isSome : (indentOf r d).isSome ↔ r = true ∨ d ≤ 63 := by
  cases r with
  | true =>
    refine iff_of_true ?_ (.inl rfl)
    induction d with
    | zero => rfl
    | succ d ih =>
      obtain ⟨indent, hi⟩ := Option.isSome_iff_exists.1 ih
      rw [indentOf, hi, Option.bind_some, wcscat_s]
      split <;> rfl
  | false =>
    constructor
    · intro hs
      refine .inr (Nat.le_of_not_lt fun hd => ?_)
      -- from the 64th round on there is no indent
      have hnone : ∀ e, indentOf false (64 + e) = none := by
        intro e
        induction e with
        | zero =>
          have hfull : ¬ (List.replicate 63 (wide "  ")).flatten.length + (wide "  ").length < 128 := by
            rw [length_blanks, show (wide "  ").length = 2 from rfl]
            omega
          rw [Nat.add_zero, indentOf, indentOf_eq (Nat.le_refl _), Option.bind_some, wcscat_s, if_neg hfull, if_neg (by simp)]
        | succ e ih => rw [← Nat.add_assoc, indentOf, ih, Option.bind_none]
      rw [show d = 64 + (d - 64) by omega, hnone] at hs
      cases hs
    · rintro (h | hd)
      · cases h
      · simp [indentOf_eq hd]

theorem dumpSubkey_mono {dump dump' : Handle → WStr → Option (List Event)} {a : Except LSTATUS WStr}
    (hdump : ∀ h s x, dump h s = some x → dump' h s = some x) (hx : dumpSubkey F h dump a = some out) :
    dumpSubkey F h dump' a = some out := by
  cases a with
  | error e => exact hx
  | ok subName =>
    simp only [dumpSubkey] at hx ⊢
    cases hopen : regOpenKeyExW F h (some subName) false with
    | error lr => simpa [hopen] using hx
    | ok hSubKey =>
      simp only [hopen, Option.map_eq_some_iff] at hx ⊢
      obtain ⟨x, hx, rfl⟩ := hx
      exact ⟨x, hdump _ _ _ hx, rfl⟩

/-- A call of `DumpRealKey` is its two loops. -/
theorem dumpRealKey_succ {name : Option WStr} : dumpRealKey F r (n + 1) h name d = some out ↔ ∃ indent vs ss,
    indentOf r d = some indent ∧ scan (regEnumValueW h.key 256 4096) (fun _ => dumpValue) n 0 = some vs ∧
    scan (regEnumKeyExW h.key) (fun _ => dumpSubkey F h fun hSubKey subName =>
      dumpRealKey F r n hSubKey (some subName) (d + 1)) n 0 = some ss ∧
    .key indent.length (name.getD (wide "(unknown)")) :: vs ++ ss = out := by
  simp only [dumpRealKey, Option.bind_eq_bind, Option.bind_eq_some_iff, Option.some.injEq]
  constructor
  · rintro ⟨indent, hi, vs, hvs, ss, hss, he⟩
    exact ⟨indent, vs, ss, hi, hvs, hss, he⟩
  · rintro ⟨indent, vs, ss, hi, hvs, hss, he⟩
    exact ⟨indent, hi, vs, hvs, ss, hss, he⟩

theorem dumpRealKey_mono {name : Option WStr} (hnm : n ≤ m) (hx : dumpRealKey F r n h name d = some out) :
    dumpRealKey F r m h name d = some out := by
  induction n generalizing m h name d out with
  | zero => cases hx
  | succ n ih =>
    obtain ⟨m, rfl⟩ : ∃ m', m = m' + 1 := ⟨m - 1, by omega⟩
    obtain ⟨indent, vs, ss, hi, hvs, hss, he⟩ := dumpRealKey_succ.1 hx
    refine dumpRealKey_succ.2 ⟨indent, vs, ss, hi, scan_mono (fun _ _ _ hb => hb) (by omega) hvs, ?_, he⟩
    exact scan_mono (fun _ _ _ hb => dumpSubkey_mono (fun _ _ _ hd => ih (by omega) hd) hb) (by omega) hss

theorem dumpValues_end_iff : (∃ n out, scan (regEnumValueW k 256 4096) (fun _ => dumpValue) n 0 = some out) ↔
    (k.valueSource 256 4096).Ends ∧ ∀ v ∈ k.values, DumpInside (v.answer 256 4096) := by
  have hround : ∀ _ : UInt32, ∀ a ∈ (k.valueSource 256 4096).entries, (dumpValue a).isSome ↔ DumpInside a := by
    intro _ a ha
    obtain ⟨v, -, rfl⟩ := List.mem_map.1 ha
    exact dumpValue_isSome
  simpa [Key.valueSource, regEnumValueW] using exists_scan_plain hround

theorem dumpSubkeys_end_iff (hdist : h.key.Distinct F) :
    (∃ n out, scan (regEnumKeyExW h.key) (fun _ => dumpSubkey F h fun hSubKey subName =>
      dumpRealKey F r n hSubKey (some subName) (d + 1)) n 0 = some out) ↔ h.key.subkeySource.Ends ∧
    ∀ i c, h.key.subkeys[i]? = some c → c.openStatus false = ERROR_SUCCESS →
      ∃ n out, dumpRealKey F r n ⟨h.path ++ [i], c⟩ (some c.name.1) (d + 1) = some out := by
  let body : Nat → UInt32 → Except LSTATUS WStr → Option (List Event) := fun n _ =>
    dumpSubkey F h fun hSubKey subName => dumpRealKey F r n hSubKey (some subName) (d + 1)
  let good : Except LSTATUS WStr → Prop := fun a => ∀ i c, h.key.subkeys[i]? = some c → a = .ok c.name.1 →
    c.openStatus false = ERROR_SUCCESS → ∃ n out, dumpRealKey F r n ⟨h.path ++ [i], c⟩ (some c.name.1) (d + 1) = some out
  have hround : ∀ j : UInt32, ∀ a ∈ h.key.subkeySource.entries, (∃ n x, body n j a = some x) ↔ good a := by
    intro j a ha
    constructor
    · rintro ⟨n, x, hx⟩ i c hc rfl hs
      simp only [body, dumpSubkey, regOpenKeyExW_name hdist hc, if_pos hs, Option.map_eq_some_iff] at hx
      obtain ⟨y, hy, -⟩ := hx
      exact ⟨n, y, hy⟩
    · intro hgood
      obtain ⟨c, hc, rfl⟩ := List.mem_map.1 ha
      obtain ⟨i, hc⟩ := List.getElem?_of_mem hc
      by_cases hs : c.openStatus false = ERROR_SUCCESS
      · obtain ⟨n, y, hy⟩ := hgood i c hc rfl hs
        exact ⟨n, .opened (h.path ++ [i]) :: y, by simp [body, dumpSubkey, regOpenKeyExW_name hdist hc, hs, hy]⟩
      · exact ⟨0, [.cannotOpen c.name.1 (c.openStatus false)], by simp [body, dumpSubkey, regOpenKeyExW_name hdist hc, hs]⟩
  have hmono : ∀ n m j a x, n ≤ m → body n j a = some x → body m j a = some x := fun _ _ _ _ _ hle hx =>
    dumpSubkey_mono (fun _ _ _ hd => dumpRealKey_mono hle hd) hx
  refine (exists_scan body hmono hround).trans (and_congr_right fun _ => ?_)
  constructor
  · intro hall i c hc
    exact hall _ (List.mem_map.2 ⟨c, List.mem_of_getElem? hc, rfl⟩) i c hc rfl
  · intro hall a _ i c hc _
    exact hall i c hc

/-- **One key**: what is needed of it, and of the subkeys that open. -/
theorem dump_step {name : Option WStr} (hdist : h.key.Distinct F) :
    (∃ n out, dumpRealKey F r n h name d = some out) ↔ Dumpable r d h.key ∧
      ∀ i c, h.key.subkeys[i]? = some c → c.openStatus false = ERROR_SUCCESS →
        ∃ n out, dumpRealKey F r n ⟨h.path ++ [i], c⟩ (some c.name.1) (d + 1) = some out := by
  constructor
  · rintro ⟨n, out, hx⟩
    cases n with
    | zero => cases hx
    | succ n =>
      obtain ⟨indent, vs, ss, hi, hvs, hss, -⟩ := dumpRealKey_succ.1 hx
      obtain ⟨hends, hin⟩ := dumpValues_end_iff.1 ⟨n, vs, hvs⟩
      obtain ⟨hsends, hall⟩ := (dumpSubkeys_end_iff hdist).1 ⟨n, ss, hss⟩
      exact ⟨⟨indentOf_isSome.1 (by simp [hi]), hends, hin, hsends⟩, hall⟩
  · rintro ⟨⟨hi, hends, hin, hsends⟩, hall⟩
    obtain ⟨indent, hi⟩ := Option.isSome_iff_exists.1 (indentOf_isSome.2 hi)
    obtain ⟨n, vs, hvs⟩ := dumpValues_end_iff.2 ⟨hends, hin⟩
    obtain ⟨m, ss, hss⟩ := (dumpSubkeys_end_iff hdist).2 ⟨hsends, hall⟩
    have hvs' := scan_mono (fun _ _ _ hb => hb) (Nat.le_max_left n m) hvs
    have hss' := scan_mono (fun _ _ _ hb => dumpSubkey_mono (fun _ _ _ hd => dumpRealKey_mono (Nat.le_max_right n m) hd) hb)
      (Nat.le_max_right n m) hss
    exact ⟨max n m + 1, _, dumpRealKey_succ.2 ⟨indent, vs, ss, hi, hvs', hss', rfl⟩⟩

/-- **When `DumpRealKey` ends**: all the keys that it gets to through keys that open are dumpable. -/
theorem dump_ends_iff {name : Option WStr} (hdist : h.key.Distinct F) :
    (∃ n out, dumpRealKey F r n h name d = some out) ↔
      ∀ p k, Opens h.key p k → Dumpable r (d + p.length) k := by
  obtain ⟨path, key⟩ := h
  induction key using Key.induction generalizing path name d with
  | step key ih =>
    rw [dump_step hdist]
    have hkid : ∀ i c, key.subkeys[i]? = some c → ((∃ n out, dumpRealKey F r n ⟨path ++ [i], c⟩ (some c.name.1) (d + 1) =
        some out) ↔ ∀ p k, Opens c p k → Dumpable r (d + 1 + p.length) k) := fun i c hc =>
      ih [i] c (by simp) (by simp [descend_cons, hc]) (path ++ [i]) (hdist.subkey hc)
    constructor
    · rintro ⟨hself, hall⟩ p k hp
      cases p with
      | nil =>
        obtain rfl : key = k := hp
        exact hself
      | cons i p =>
        obtain ⟨c, hc, hs, hp⟩ := hp
        have hdump := (hkid i c hc).1 (hall i c hc hs) p k hp
        rwa [List.length_cons, Nat.add_comm p.length, ← Nat.add_assoc]
    · intro hall
      refine ⟨hall [] key rfl, fun i c hc hs => (hkid i c hc).2 fun p k hp => ?_⟩
      have hdump := hall (i :: p) k ⟨c, hc, hs, hp⟩
      rwa [List.length_cons, Nat.add_comm p.length, ← Nat.add_assoc] at hdump

/-- **When `LogRegistryValues` ends.** -/
theorem values_end_iff : (∃ n out, logRegistryValues n k = some out) ↔ Loggable k := by
  have hround : ∀ j : UInt32, ∀ a ∈ (k.valueSource 16384 65536).entries,
      (logValue j a).isSome ↔ (a.status = ERROR_SUCCESS → LogInside a) := by
    intro j a ha
    obtain ⟨v, -, rfl⟩ := List.mem_map.1 ha
    exact logValue_isSome
  have hends := exists_scan_plain hround
  constructor
  · intro hx
    obtain ⟨he, hall⟩ := hends.1 hx
    exact ⟨he, fun v hv => hall _ (List.mem_map.2 ⟨v, hv, rfl⟩)⟩
  · rintro ⟨he, hall⟩
    refine hends.2 ⟨he, fun a ha => ?_⟩
    obtain ⟨v, hv, rfl⟩ := List.mem_map.1 ha
    exact hall v hv

theorem logSubkey_mono {subPath : Option WStr} {log log' : Option WStr → Option (List Event)} {j : UInt32}
    {a : Except LSTATUS WStr} (hlog : ∀ s x, log s = some x → log' s = some x)
    (hx : logSubkey subPath log j a = some out) : logSubkey subPath log' j a = some out := by
  cases a with
  | error e => exact hx
  | ok name => exact hlog _ _ hx

/-- A call of `LogRegistryFolder` whose key opens is its two loops. -/
theorem logRegistryFolder_succ {subPath : Option WStr} (hopen : openFolder F h subPath = .ok h') :
    logRegistryFolder F (n + 1) h subPath d = some out ↔ ∃ vs ss, logRegistryValues n h'.key = some vs ∧
      scan (regEnumKeyExW h'.key) (logSubkey subPath fun path => logRegistryFolder F n h' path (d + 1)) n 0 = some ss ∧
      .opened h'.path :: .key (d * 2) (subPath.getD []) :: vs ++ ss = out := by
  simp only [logRegistryFolder, hopen, Option.bind_eq_bind, Option.bind_eq_some_iff, Option.some.injEq]
  constructor
  · rintro ⟨vs, hvs, ss, hss, he⟩
    exact ⟨vs, ss, hvs, hss, he⟩
  · rintro ⟨vs, ss, hvs, hss, he⟩
    exact ⟨vs, hvs, ss, hss, he⟩

theorem logRegistryFolder_of_error {subPath : Option WStr} {e : LSTATUS} (hopen : openFolder F h subPath = .error e) :
    logRegistryFolder F (n + 1) h subPath d = some [.cannotOpen (subPath.getD []) e] := by
  simp [logRegistryFolder, hopen]

theorem logRegistryFolder_mono {subPath : Option WStr} (hnm : n ≤ m) (hx : logRegistryFolder F n h subPath d = some out) :
    logRegistryFolder F m h subPath d = some out := by
  induction n generalizing m h subPath d out with
  | zero => cases hx
  | succ n ih =>
    obtain ⟨m, rfl⟩ : ∃ m', m = m' + 1 := ⟨m - 1, by omega⟩
    cases hopen : openFolder F h subPath with
    | error e =>
      rw [logRegistryFolder_of_error hopen] at hx ⊢
      exact hx
    | ok hKey =>
      obtain ⟨vs, ss, hvs, hss, he⟩ := (logRegistryFolder_succ hopen).1 hx
      refine (logRegistryFolder_succ hopen).2 ⟨vs, ss, scan_mono (fun _ _ _ hb => hb) (by omega) hvs, ?_, he⟩
      exact scan_mono (fun _ _ _ hb => logSubkey_mono (fun _ _ hl => ih (by omega) hl) hb) (by omega) hss

theorem logSubkeys_end_iff {subPath : Option WStr} :
    (∃ n out, scan (regEnumKeyExW h.key) (logSubkey subPath fun path => logRegistryFolder F n h path d) n 0 = some out) ↔
      h.key.subkeySource.Ends ∧
        ∀ c ∈ h.key.subkeys, ∃ n out, logRegistryFolder F n h (some (fullSubPath subPath c.name.1)) d = some out := by
  let body : Nat → UInt32 → Except LSTATUS WStr → Option (List Event) := fun n =>
    logSubkey subPath fun path => logRegistryFolder F n h path d
  let good : Except LSTATUS WStr → Prop := fun a => ∀ name, a = .ok name →
    ∃ n out, logRegistryFolder F n h (some (fullSubPath subPath name)) d = some out
  have hround : ∀ j : UInt32, ∀ a ∈ h.key.subkeySource.entries, (∃ n x, body n j a = some x) ↔ good a := by
    intro j a ha
    obtain ⟨c, -, rfl⟩ := List.mem_map.1 ha
    constructor
    · rintro hx name he
      obtain rfl : c.name.1 = name := by simpa using he
      exact hx
    · intro hgood
      exact hgood c.name.1 rfl
  have hmono : ∀ n m j a x, n ≤ m → body n j a = some x → body m j a = some x := fun _ _ _ _ _ hle hx =>
    logSubkey_mono (fun _ _ hl => logRegistryFolder_mono hle hl) hx
  refine (exists_scan body hmono hround).trans (and_congr_right fun _ => ?_)
  constructor
  · intro hall c hc
    exact hall _ (List.mem_map.2 ⟨c, hc, rfl⟩) _ rfl
  · intro hall a ha name he
    obtain ⟨c, hc, rfl⟩ := List.mem_map.1 ha
    obtain rfl : c.name.1 = name := by simpa using he
    exact hall c hc

/-- **One key**: what is needed of it, and of the calls for its subkeys. -/
theorem folder_step {subPath : Option WStr} (hopen : openFolder F h subPath = .ok h') :
    (∃ n out, logRegistryFolder F n h subPath d = some out) ↔ Loggable h'.key ∧ h'.key.subkeySource.Ends ∧
      ∀ c ∈ h'.key.subkeys, ∃ n out, logRegistryFolder F n h' (some (fullSubPath subPath c.name.1)) (d + 1) = some out := by
  constructor
  · rintro ⟨n, out, hx⟩
    cases n with
    | zero => cases hx
    | succ n =>
      obtain ⟨vs, ss, hvs, hss, -⟩ := (logRegistryFolder_succ hopen).1 hx
      exact ⟨values_end_iff.1 ⟨n, vs, hvs⟩, logSubkeys_end_iff.1 ⟨n, ss, hss⟩⟩
  · rintro ⟨hvals, hsubs⟩
    obtain ⟨n, vs, hvs⟩ := values_end_iff.2 hvals
    obtain ⟨m, ss, hss⟩ := logSubkeys_end_iff.2 hsubs
    have hvs' : logRegistryValues (max n m) h'.key = some vs := scan_mono (fun _ _ _ hb => hb) (Nat.le_max_left n m) hvs
    have hss' := scan_mono
      (fun _ _ _ hb => logSubkey_mono (fun _ _ hl => logRegistryFolder_mono (Nat.le_max_right n m) hl) hb)
      (Nat.le_max_right n m) hss
    exact ⟨max n m + 1, _, (logRegistryFolder_succ hopen).2 ⟨vs, ss, hvs', hss', rfl⟩⟩

theorem tokens_cons_ne_nil {x : WChar} {s : WStr} (hx : x ≠ bslash) : tokens (x :: s) ≠ [] := by
  rw [tokens, List.splitOn_cons_eq_if_modifyHead, if_neg (by rw [beq_iff_eq]; exact hx)]
  cases hs : s.splitOn bslash with
  | nil => exact absurd hs (by simp)
  | cons u us => simp

/-- The path that is passed on leads on, if it leads anywhere. -/
theorem fullSubPath_deeper {subPath : Option WStr} {name : WStr}
    (hopen : openFolder F h (some (fullSubPath subPath name)) = .ok h') :
    ∃ p, p ≠ [] ∧ h'.path = h.path ++ p ∧ h.key.descend p = some h'.key := by
  obtain ⟨hb, hr⟩ := openFolder_resolve hopen
  obtain ⟨p, hlen, hpath, hp⟩ := resolve_spec hr
  refine ⟨p, ?_, hpath, hp⟩
  rintro rfl
  have hnil : tokens (fullSubPath subPath name) = [] := List.length_eq_zero_iff.1 (by simpa using hlen.symm)
  cases hf : fullSubPath subPath name with
  | nil => simp [fullSubPath] at hf
  | cons x s =>
    rw [hf] at hnil hb
    exact tokens_cons_ne_nil (by simpa using hb) hnil

/-- **When `LogRegistryFolder` ends**: all the keys that it gets to open are loggable. -/
theorem folder_ends_iff {subPath : Option WStr} : (∃ n out, logRegistryFolder F n h subPath d = some out) ↔
    ∀ h', Reaches F h subPath h' → Loggable h'.key ∧ h'.key.subkeySource.Ends := by
  constructor
  · intro hx h' hr
    induction hr generalizing d with
    | self hopen =>
      obtain ⟨hl, he, -⟩ := (folder_step hopen).1 hx
      exact ⟨hl, he⟩
    | subkey hopen hc _ ih =>
      obtain ⟨-, -, hall⟩ := (folder_step hopen).1 hx
      exact ih (hall _ hc)
  · intro hall
    -- each call is for a key further down
    have hcalls : ∀ (key : Key) (path : List Nat) (subPath : Option WStr) (d : Nat),
        (∀ c ∈ key.subkeys, ∀ h', Reaches F ⟨path, key⟩ (some (fullSubPath subPath c.name.1)) h' →
          Loggable h'.key ∧ h'.key.subkeySource.Ends) →
        ∀ c ∈ key.subkeys, ∃ n out, logRegistryFolder F n ⟨path, key⟩ (some (fullSubPath subPath c.name.1)) d = some out := by
      intro key
      induction key using Key.induction with
      | step key ih =>
        intro path subPath d hall c hc
        cases hopen : openFolder F ⟨path, key⟩ (some (fullSubPath subPath c.name.1)) with
        | error e => exact ⟨1, _, logRegistryFolder_of_error hopen⟩
        | ok h' =>
          obtain ⟨p, hne, -, hp⟩ := fullSubPath_deeper hopen
          obtain ⟨hl, he⟩ := hall c hc h' (.self hopen)
          refine (folder_step hopen).2 ⟨hl, he, ih p h'.key hne hp h'.path _ (d + 1) ?_⟩
          intro c' hc' h'' hr
          exact hall c hc h'' (.subkey hopen hc' hr)
    cases hopen : openFolder F h subPath with
    | error e => exact ⟨1, _, logRegistryFolder_of_error hopen⟩
    | ok h' =>
      obtain ⟨hl, he⟩ := hall h' (.self hopen)
      refine (folder_step hopen).2 ⟨hl, he, hcalls h'.key h'.path subPath (d + 1) ?_⟩
      intro c hc h'' hr
      exact hall h'' (.subkey hopen hc hr)

end Rvpn.Walkers
