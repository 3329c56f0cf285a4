import Mathlib.Data.List.Find
import Rvpn.Netsh.Command

/-!
# The arguments of a netsh command (emulate_driver_running.c:3694-3843)

`ParseNetshCommand` does not split the command: it looks for each `key=` in the whole of it and reads on from there. On
a command made of arguments a key is found at the first argument whose own key ends with it (`wcsstr_commandLine`).
That is the argument itself for every key but one: `metric=` is found inside `gwmetric=` as well.

A value is copied up to a space or a quote, quoted or not, and `_wtoi` makes nothing of a quote. So what is lost is a
quoted value from its first space on, and a quoted number.

* `Argument`, `commandLine` — the arguments and the text of them;
* `Argument.copied`, `Argument.read` — what the code makes of a text and of a number;
* `recovered_iff` — the commands whose arguments come back.
-/

namespace Rvpn.Netsh

open Registry (WChar WStr wide)

variable {k t u v w x y : WStr} {c e : WChar}

/-! ## Arguments -/

inductive Key where
  | addr | address | mask | gateway | nexthop | pfx | metric | gwmetric | interface | newname
deriving DecidableEq

def Key.text : Key → WStr
  | .addr => wide "addr"
  | .address => wide "address"
  | .mask => wide "mask"
  | .gateway => wide "gateway"
  | .nexthop => wide "nexthop"
  | .pfx => wide "prefix"
  | .metric => wide "metric"
  | .gwmetric => wide "gwmetric"
  | .interface => wide "interface"
  | .newname => wide "newname"

/-- The key of the argument: `addr` and `address` are two words for one. -/
def Key.word : Key → Key
  | .addr => .address
  | k => k

/-- The characters the field of a text has room for, without the NUL; the two metrics are numbers. -/
def Key.room : Key → Option Nat
  | .metric | .gwmetric => none
  | .interface | .newname => some 255
  | _ => some 63

/-- A decimal integer with or without a sign, in the range of `int`. -/
def decimalInt : WStr → Option Int32
  | [] => none
  | c :: s =>
    if c = minusSign then (decimal s).bind fun n => if n ≤ 2 ^ 31 then some (Int32.ofInt (-n)) else none
    else (decimal (if c = plusSign then s else c :: s)).bind fun n => if n < 2 ^ 31 then some (Int32.ofNat n) else none

/-- An argument `key=value` or `key="value"`. -/
structure Argument where
  key : Key
  quoted : Bool
  value : WStr
  noQuote : quote ∉ value
  noEquals : equals ∉ value
  noSpace : quoted = false → space ∉ value
  newnameQuoted : key = .newname → quoted = true
  fits : ∀ n, key.room = some n → value.length ≤ n
  isInt : key.room = none → (decimalInt value).isSome

namespace Argument

variable (a : Argument)

def written : WStr := if a.quoted then quote :: (a.value ++ [quote]) else a.value

def text : WStr := a.key.text ++ equals :: a.written

/-- The number of a metric. -/
def number : Int32 := (decimalInt a.value).getD 0

/-- The text a field gets: the value up to its first space. -/
def copied : WStr := a.value.takeWhile (· ≠ space)

/-- The number a metric gets: a quote ends it before it has begun. -/
def read : Int32 := if a.quoted then 0 else a.number

end Argument

/-- The arguments after the first one. -/
def further : List Argument → WStr
  | [] => []
  | a :: as => space :: (a.text ++ further as)

/-- The arguments with single spaces between them. -/
def commandLine : List Argument → WStr
  | [] => []
  | a :: as => a.text ++ further as

variable {a b : Argument} {args as : List Argument} {K : Key}

theorem Key.text_noEquals (K : Key) : equals ∉ K.text := by
  cases K <;> decide

theorem Key.text_noSpace (K : Key) : space ∉ K.text := by
  cases K <;> decide

/-- No key ends with another one, except that `gwmetric` ends with `metric`. -/
theorem Key.text_suffix (K L : Key) : K.text <:+ L.text ↔ L = K ∨ (K = .metric ∧ L = .gwmetric) := by
  cases K <;> cases L <;> decide

theorem Argument.written_noEquals (a : Argument) : equals ∉ a.written := by
  unfold written
  split
  · simp [a.noEquals, show equals ≠ quote by decide]
  · exact a.noEquals

/-- No `key=` starts in what comes before the next argument. -/
theorem not_prefix_further (hk : space ∉ k) (hw : equals ∉ w) (as : List Argument) :
    ¬ k ++ equals :: x <+: w ++ further as := by
  cases as with
  | nil =>
    rw [further, List.append_nil]
    intro h
    exact hw (h.subset (by simp))
  | cons b bs => exact not_prefix_at hk (by decide) hw

/-- Nothing but the key of an argument can be taken for `key=`. -/
theorem wcsstr_skip (hk : space ∉ k) (hke : equals ∉ k) (hsuf : ¬ k <:+ a.key.text) :
    wcsstr (a.text ++ further as) (k ++ equals :: x) = wcsstr (commandLine as) (k ++ equals :: x) := by
  -- where the search may start inside the key, and from `=` on
  have hkey : ∀ w, w <:+ a.key.text → ¬ k ++ equals :: x <+: w ++ equals :: a.written ++ further as := by
    intro w hw h
    have hwe : equals ∉ w := fun hm => a.key.text_noEquals (hw.subset hm)
    rw [List.append_assoc, List.cons_append] at h
    obtain ⟨rfl, -⟩ := (prefix_at hke hwe).1 h
    exact hsuf hw
  have hskip : wcsstr (a.text ++ further as) (k ++ equals :: x) = wcsstr (further as) (k ++ equals :: x) := by
    apply wcsstr_append
    rintro w ⟨pre, hpre⟩ -
    rcases List.append_eq_append_iff.1 hpre with ⟨w', hw', rfl⟩ | ⟨pre', -, hw'⟩
    · exact hkey w' ⟨pre, hw'.symm⟩
    · cases pre' with
      | nil =>
        obtain rfl : equals :: a.written = w := hw'
        exact hkey [] (List.nil_suffix)
      | cons b pre' =>
        obtain ⟨-, hw'⟩ := List.cons.inj hw'
        apply not_prefix_further hk
        intro hm
        exact a.written_noEquals (hw' ▸ List.mem_append_right _ hm)
  rw [hskip]
  cases as with
  | nil => rfl
  | cons b bs =>
    apply wcsstr_append (u := [space])
    intro w hw hne
    obtain rfl : w = [space] := by
      rcases List.suffix_cons_iff.1 hw with h | h
      · exact h
      · exact absurd (List.suffix_nil.1 h) hne
    exact not_prefix_at (w := []) hk (by decide) (by simp)

/-- **A key is found** at the first argument whose own key ends with it, and what `f` reads there is read. -/
theorem wcsstr_commandLine {α : Type} {f : WStr → α} {g : Argument → α} (hk : space ∉ k) (hke : equals ∉ k)
    (hx : ∀ a ∈ args, k <:+ a.key.text → x <+: a.written)
    (hf : ∀ a ∈ args, k <:+ a.key.text → ∀ as, f (k ++ equals :: (a.written ++ further as)) = g a) :
    (wcsstr (commandLine args) (k ++ equals :: x)).map f = (args.find? fun a => k <:+ a.key.text).map g := by
  induction args with
  | nil =>
    have h : wcsstr [] (k ++ equals :: x) = none := by
      rw [wcsstr.eq_def, if_neg (by simp)]
    rw [commandLine, h]
    rfl
  | cons a as ih =>
    rw [commandLine]
    by_cases hsuf : k <:+ a.key.text
    · have hfound : wcsstr (a.text ++ further as) (k ++ equals :: x) = some (k ++ equals :: (a.written ++ further as)) := by
        obtain ⟨w, hw⟩ := hsuf
        have htext : a.text ++ further as = w ++ (k ++ equals :: (a.written ++ further as)) := by
          simp [Argument.text, ← hw]
        rw [htext, wcsstr_append]
        · apply wcsstr_of_prefix
          rw [prefix_at hke hke]
          exact ⟨rfl, (hx a List.mem_cons_self ⟨w, hw⟩).trans (List.prefix_append _ _)⟩
        · intro w' hw' hne h
          have hwe : equals ∉ w' ++ k := fun hm => by
            apply a.key.text_noEquals
            rw [← hw]
            exact (List.mem_append.1 hm).elim (fun h => List.mem_append_left _ (hw'.subset h)) (List.mem_append_right _)
          rw [← List.append_assoc] at h
          exact hne (List.self_eq_append_left.1 ((prefix_at hke hwe).1 h).1)
      rw [hfound, Option.map_some, hf a List.mem_cons_self hsuf]
      simp [hsuf]
    · rw [wcsstr_skip hk hke hsuf, ih (fun b hb => hx b (List.mem_cons_of_mem _ hb))
        fun b hb => hf b (List.mem_cons_of_mem _ hb)]
      simp [hsuf]

/-! ## Reading a value -/

theorem head_further : ∀ c ∈ (further as).head?, c = space := by
  cases as with
  | nil => simp [further]
  | cons b bs => simp [further, eq_comm]

theorem takeWhile_append_stop {p : WChar → Bool} (h : ∀ c ∈ v.head?, p c = false) :
    (u ++ v).takeWhile p = u.takeWhile p := by
  induction u with
  | nil =>
    cases v with
    | nil => rfl
    | cons c v => simp [h c rfl]
  | cons c u ih => simp [List.takeWhile_cons, ih]

/-- Of a value without a quote only a space is an end. -/
theorem takeWhile_isEnd (h : quote ∉ u) : (u.takeWhile fun c => !isEnd c) = u.takeWhile (· ≠ space) := by
  induction u with
  | nil => rfl
  | cons c u ih =>
    have hc : c ≠ quote := fun hc => h (hc ▸ List.mem_cons_self)
    rw [List.takeWhile_cons, List.takeWhile_cons, ih fun hm => h (List.mem_cons_of_mem _ hm)]
    simp [isEnd, hc]

/-- **A text** is copied up to its first space. -/
theorem Argument.takeWhile_written (a : Argument) (as : List Argument) :
    ((skipQuote (a.written ++ further as)).takeWhile fun c => !isEnd c) = a.copied := by
  have hstop : ∀ c ∈ (further as).head?, (!isEnd c) = false := by
    intro c hc
    rw [head_further c hc]
    rfl
  unfold written copied
  by_cases hq : a.quoted = true
  · simp only [hq, if_true, List.cons_append, skipQuote, List.append_assoc, List.nil_append]
    rw [takeWhile_append_stop (by simp [isEnd]), takeWhile_isEnd a.noQuote]
  · have hskip : skipQuote (a.value ++ further as) = a.value ++ further as := by
      cases hv : a.value ++ further as with
      | nil => rfl
      | cons c t =>
        have hc : c ≠ quote := by
          rintro rfl
          cases hval : a.value with
          | nil =>
            rw [hval, List.nil_append] at hv
            exact absurd (head_further quote (by rw [hv]; rfl)) (by decide)
          | cons b v =>
            rw [hval] at hv
            exact a.noQuote (by simp [hval, (List.cons.inj hv).1])
        simp [skipQuote, hc]
    rw [if_neg hq, hskip, takeWhile_append_stop hstop, takeWhile_isEnd a.noQuote]

theorem Argument.copied_eq (a : Argument) : a.copied = a.value ↔ space ∉ a.value := by
  rw [copied, List.takeWhile_eq_self_iff]
  simp only [ne_eq, decide_eq_true_eq]
  exact ⟨fun h hm => h _ hm rfl, fun h c hc he => h (he ▸ hc)⟩

theorem Argument.length_copied (a : Argument) : a.copied.length ≤ a.value.length :=
  (List.takeWhile_prefix _).length_le

/-- What `_wtoi` makes of the characters an argument has besides digits, and of a minus sign. -/
structure IntCrt extends Crt where
  digit_space : digit space = none
  digit_quote : digit quote = none
  space_quote : isSpace quote = false
  space_minus : isSpace minusSign = false
  space_plus : isSpace plusSign = false
  int_minus : ∀ n ≤ 2 ^ 31, intOf true n = Int32.ofInt (-n)

variable (C : IntCrt)

theorem IntCrt.number_append {n : Nat} (hs : decimal u = some n) (hv : ∀ c ∈ v.head?, C.digit c = none) :
    ∃ ds, Decimal.span C.digit (u ++ v) = (ds, v) ∧ ds ≠ [] ∧ Decimal.ofDigits ds = n := by
  obtain ⟨hne, ds, hds, hn⟩ := Decimal.numeral_eq_some.1 hs
  refine ⟨ds, Decimal.span_append (Decimal.span_mono C.digit_ascii hds) hv, ?_, hn⟩
  rintro rfl
  exact hne (List.length_eq_zero_iff.1 (Decimal.length_of_span hds).symm)

/-- `_wtoi` reads a decimal integer at the front of a text. -/
theorem IntCrt.wtoi_append {i : Int32} (hu : decimalInt u = some i) (hv : ∀ c ∈ v.head?, C.digit c = none) :
    wtoi C.toCrt (u ++ v) = i := by
  cases u with
  | nil => cases hu
  | cons c u =>
    rw [decimalInt] at hu
    split at hu
    · next hc =>
      obtain ⟨n, hn, hi⟩ := Option.bind_eq_some_iff.1 hu
      obtain ⟨hle, hi⟩ := Option.ite_none_right_eq_some.1 hi
      obtain ⟨ds, hspan, hne, hds⟩ := C.number_append hn hv
      simp only [wtoi, number, List.cons_append, hc, List.dropWhile_cons, C.space_minus, Bool.false_eq_true, if_false,
        if_true, hspan, hne, hds, C.int_minus n hle]
      exact Option.some.inj hi
    · next hc =>
      obtain ⟨n, hn, hi⟩ := Option.bind_eq_some_iff.1 hu
      obtain ⟨hlt, hi⟩ := Option.ite_none_right_eq_some.1 hi
      rw [← Option.some.inj hi, ← C.int_exact n hlt]
      by_cases hp : c = plusSign
      · rw [if_pos hp] at hn
        obtain ⟨ds, hspan, hne, hds⟩ := C.number_append hn hv
        simp only [wtoi, number, List.cons_append, hp, List.dropWhile_cons, C.space_plus, Bool.false_eq_true, if_false,
          if_true, show plusSign ≠ minusSign by decide, hspan, hne, hds]
      · rw [if_neg hp] at hn
        obtain ⟨ds, hnum, hne, hds⟩ := number_of_decimal (C := C.toCrt) hn hv
        simp only [wtoi, hnum, hne, if_false, hds]

theorem IntCrt.wtoi_quote : wtoi C.toCrt (quote :: v) = 0 := by
  simp [wtoi, number, C.space_quote, show quote ≠ minusSign by decide,
    show quote ≠ plusSign by decide, Decimal.span_cons_none C.digit_quote]

/-- **A number** is read if it is not quoted. -/
theorem IntCrt.wtoi_written (ha : a.key.room = none) (as : List Argument) :
    wtoi C.toCrt (a.written ++ further as) = a.read := by
  unfold Argument.written Argument.read
  split
  · exact C.wtoi_quote
  · obtain ⟨i, hi⟩ := Option.isSome_iff_exists.1 (a.isInt ha)
    rw [Argument.number, hi, Option.getD_some]
    apply C.wtoi_append hi
    intro c hc
    rw [head_further c hc]
    exact C.digit_space

/-! ## The fields -/

/-- The argument given under a key. -/
def given (args : List Argument) (K : Key) : Option Argument := args.find? fun a => a.key.word = K

/-- No argument is given twice. -/
def Distinct (args : List Argument) : Prop := (args.map fun a => a.key.word).Nodup

instance (args : List Argument) : Decidable (Distinct args) := inferInstanceAs (Decidable (List.Nodup _))

variable {C} {n : Nat}

theorem drop_key : (k ++ e :: u).drop (k ++ [e]).length = u := by
  have h := @List.drop_left _ (k ++ [e]) u
  rwa [← List.append_cons] at h

/-- A text field gets the copied value of the argument with its key. -/
theorem parseField_commandLine (hK : K ≠ .metric) (hn : K.room = some n) :
    parseField (commandLine args) (K.text ++ [equals]) n = (args.find? fun a => a.key = K).map (·.copied) := by
  have hkey : ∀ a : Argument, K.text <:+ a.key.text ↔ a.key = K := fun a => by
    rw [Key.text_suffix]
    simp [hK]
  simp only [parseField_eq, argument, Option.map_map]
  rw [wcsstr_commandLine (g := (·.copied)) K.text_noSpace K.text_noEquals (fun _ _ _ => List.nil_prefix)]
  · simp only [hkey]
  · intro a _ hsuf as
    have hlen : a.copied.length ≤ n := a.length_copied.trans (a.fits n ((hkey a).1 hsuf ▸ hn))
    simp only [Function.comp_apply, drop_key, a.takeWhile_written, List.take_of_length_le hlen]

/-- A number field gets what is read at the first argument whose key ends with its own. -/
theorem parseInt_commandLine (hK : K.room = none) :
    parseInt C.toCrt (commandLine args) (K.text ++ [equals]) =
      (args.find? fun a => K.text <:+ a.key.text).map (·.read) := by
  apply wcsstr_commandLine K.text_noSpace K.text_noEquals fun _ _ _ => List.nil_prefix
  intro a _ hsuf as
  have ha : a.key.room = none := by
    rcases (Key.text_suffix _ _).1 hsuf with h | ⟨-, h⟩
    · rw [h, hK]
    · rw [h]
      rfl
  rw [drop_key, C.wtoi_written ha]

/-- The new name is what stands between the quotes. -/
theorem newName_commandLine : (wcsstr (commandLine args) (Key.newname.text ++ [equals, quote])).map
    (fun p => copyUntil (· = quote) 255 (p.drop 9)) = (args.find? fun a => a.key = .newname).map (·.value) := by
  have hkey : ∀ a : Argument, Key.newname.text <:+ a.key.text ↔ a.key = .newname := fun a => by
    rw [Key.text_suffix]
    simp
  have hquoted : ∀ a ∈ args, Key.newname.text <:+ a.key.text → a.written = quote :: (a.value ++ [quote]) := fun a _ h => by
    rw [Argument.written, if_pos (a.newnameQuoted ((hkey a).1 h))]
  rw [wcsstr_commandLine (g := (·.value)) Key.newname.text_noSpace Key.newname.text_noEquals]
  · simp only [hkey]
  · intro a ha h
    rw [hquoted a ha h]
    simp
  · intro a ha h as
    have hlen : a.value.length ≤ 255 := a.fits 255 (by rw [(hkey a).1 h]; rfl)
    have hval : a.value.takeWhile (fun c => !decide (c = quote)) = a.value := by
      rw [List.takeWhile_eq_self_iff]
      intro c hc
      simp only [Bool.not_eq_true', decide_eq_false_iff_not]
      exact fun he => a.noQuote (he ▸ hc)
    have hdrop : (Key.newname.text ++ equals :: (a.written ++ further as)).drop 9 =
        a.value ++ (quote :: further as) := by
      rw [hquoted a ha h]
      simp only [List.cons_append, List.append_assoc, List.nil_append]
      rfl
    rw [hdrop, copyUntil_eq, takeWhile_append_stop (by simp), hval, List.take_of_length_le hlen]

theorem given_eq_some (hd : Distinct args) : given args K = some a ↔ a ∈ args ∧ a.key.word = K := by
  induction args with
  | nil => simp [given]
  | cons b args ih =>
    obtain ⟨hb, hd'⟩ := List.nodup_cons.1 hd
    by_cases hbK : b.key.word = K
    · simp only [given, List.find?_cons, hbK, decide_true, Option.some.injEq, List.mem_cons]
      constructor
      · rintro rfl
        exact ⟨.inl rfl, hbK⟩
      · rintro ⟨rfl | ha, haK⟩
        · rfl
        · exact absurd (List.mem_map.2 ⟨a, ha, haK.trans hbK.symm⟩) hb
    · simp only [given, List.find?_cons, hbK, decide_false]
      rw [← given, ih hd', List.mem_cons]
      constructor
      · exact fun h => ⟨.inr h.1, h.2⟩
      · rintro ⟨rfl | ha, haK⟩
        · exact absurd haK hbK
        · exact ⟨ha, haK⟩

/-- A field is that of the argument with its key exactly if they agree for the one that is given. -/
theorem map_given_eq {β : Type} {f g : Argument → β} (hd : Distinct args) :
    (given args K).map f = (given args K).map g ↔ ∀ a ∈ args, a.key.word = K → f a = g a := by
  constructor
  · intro h a ha haK
    rw [(given_eq_some hd).2 ⟨ha, haK⟩] at h
    exact Option.some.inj h
  · intro h
    cases hg : given args K with
    | none => rfl
    | some a =>
      obtain ⟨ha, haK⟩ := (given_eq_some hd).1 hg
      rw [Option.map_some, Option.map_some, h a ha haK]

theorem getD_given_eq {β : Type} {f g : Argument → β} {d : β} (hd : Distinct args) :
    ((given args K).map f).getD d = ((given args K).map g).getD d ↔ ∀ a ∈ args, a.key.word = K → f a = g a := by
  rw [← map_given_eq hd]
  cases given args K <;> simp

theorem find?_key (hK : K ≠ .addr) (hK' : K ≠ .address) : (args.find? fun a => a.key = K) = given args K := by
  apply List.find?_congr
  intro a _
  have hword : a.key = K ↔ a.key.word = K := by
    cases a.key with
    | addr => exact iff_of_false hK.symm hK'.symm
    | _ => exact Iff.rfl
  simp [hword]

/-- The address is read under the word it is given with. -/
theorem address_commandLine (hd : Distinct args) :
    parseField (commandLine args) (addressKey (commandLine args)) 63 = (given args .address).map (·.copied) := by
  have haddr : parseField (commandLine args) (wide "addr=") 63 = _ := parseField_commandLine (K := .addr) (by decide) rfl
  have hin : contains (commandLine args) (wide "addr=") = (parseField (commandLine args) (wide "addr=") 63).isSome := by
    rw [contains, parseField, Option.isSome_map]
  cases hs : args.find? fun a => a.key = .addr with
  | some a =>
    have ha : a.key = .addr := by simpa using List.find?_some hs
    have hg : given args .address = some a :=
      (given_eq_some hd).2 ⟨List.mem_of_find?_eq_some hs, by rw [ha]; rfl⟩
    rw [hs] at haddr
    rw [addressKey, if_pos (by rw [hin, haddr]; rfl), haddr, hg]
  | none =>
    have hnone : ∀ a ∈ args, a.key ≠ .addr := by simpa using hs
    have hgiven : (args.find? fun a => a.key = .address) = given args .address := by
      apply List.find?_congr
      intro a ha
      have hword : a.key = .address ↔ a.key.word = .address := by
        have := hnone a ha
        cases hk : a.key <;> simp_all [Key.word]
      simp [hword]
    rw [hs] at haddr
    rw [addressKey, if_neg (by rw [hin, haddr]; simp), ← hgiven]
    exact parseField_commandLine (K := .address) (by decide) rfl

/-! ## The configuration -/

/-- What a command of these arguments is to leave: the values of the arguments that are given, and the defaults for the
others. -/
structure Recovered (args : List Argument) (config : NetshConfig) : Prop where
  interfaceName : config.interfaceName = ((given args .interface).map (·.value)).getD (wide "Radmin VPN")
  newName : config.newName = (given args .newname).map (·.value)
  address : config.address = (given args .address).map (·.value)
  mask : config.mask = (given args .mask).map (·.value)
  gateway : config.gateway = (given args .gateway).map (·.value)
  nexthop : config.nexthop = (given args .nexthop).map (·.value)
  pfx : config.pfx = (given args .pfx).map (·.value)
  metric : config.metric = (given args .metric).map (·.number)
  gwmetric : config.gwmetric = ((given args .gwmetric).map (·.number)).getD 0

/-- The first argument with a key that ends with `metric`. -/
def firstMetric (args : List Argument) : Option Argument := args.find? fun a => a.key.room = none

/-- The arguments the search and the copying lose nothing of: no text but the new name has a space in it, a quoted
`gwmetric` is 0, and what is read at the first metric of the command, 0 if it is quoted, is the number of `metric`, which
has to be there. -/
structure Readable (args : List Argument) : Prop where
  text : ∀ a ∈ args, a.key.room ≠ none → a.key ≠ .newname → space ∉ a.value
  gwmetric : ∀ a ∈ args, a.key = .gwmetric → a.quoted = true → a.number = 0
  metric : ∀ a, firstMetric args = some a → ∃ m ∈ args, m.key = .metric ∧ a.read = m.number

theorem Argument.read_eq (a : Argument) : a.read = a.number ↔ (a.quoted = true → a.number = 0) := by
  unfold read
  split
  · next h => simp [h, eq_comm]
  · next h => simp [h]

/-- What is copied is what is given exactly if it has no space in it. -/
theorem map_copied_eq (hd : Distinct args) :
    (given args K).map (·.copied) = (given args K).map (·.value) ↔ ∀ a ∈ args, a.key.word = K → space ∉ a.value := by
  rw [map_given_eq hd]
  simp only [Argument.copied_eq]

theorem getD_copied_eq (hd : Distinct args) (w : WStr) :
    ((given args K).map (·.copied)).getD w = ((given args K).map (·.value)).getD w ↔
      ∀ a ∈ args, a.key.word = K → space ∉ a.value := by
  rw [getD_given_eq hd]
  simp only [Argument.copied_eq]

theorem textField (hn : K.room = some n) (hK : K ≠ .addr) (hK' : K ≠ .address) :
    parseField (commandLine args) (K.text ++ [equals]) n = (given args K).map (·.copied) := by
  rw [← find?_key hK hK']
  apply parseField_commandLine _ hn
  rintro rfl
  cases hn

/-- **A text field** holds the value that is given exactly if that has no space in it. -/
theorem textField_iff (hd : Distinct args) (hn : K.room = some n) (hK : K ≠ .addr) (hK' : K ≠ .address) :
    parseField (commandLine args) (K.text ++ [equals]) n = (given args K).map (·.value) ↔
      ∀ a ∈ args, a.key.word = K → space ∉ a.value := by
  rw [textField hn hK hK', map_copied_eq hd]

theorem interfaceName_iff (hd : Distinct args) (w : WStr) :
    (parseField (commandLine args) (wide "interface=") 255).getD w = ((given args .interface).map (·.value)).getD w ↔
      ∀ a ∈ args, a.key.word = .interface → space ∉ a.value := by
  have h : parseField (commandLine args) (wide "interface=") 255 = _ := textField (K := .interface) rfl (by decide) (by decide)
  rw [h, getD_copied_eq hd]

theorem address_iff (hd : Distinct args) :
    parseField (commandLine args) (addressKey (commandLine args)) 63 = (given args .address).map (·.value) ↔
      ∀ a ∈ args, a.key.word = .address → space ∉ a.value := by
  rw [address_commandLine hd, map_copied_eq hd]

/-- **`gwmetric`** is the number that is given exactly if that is not quoted or 0. -/
theorem gwmetric_iff (hd : Distinct args) :
    (parseInt C.toCrt (commandLine args) (wide "gwmetric=")).getD 0 = ((given args .gwmetric).map (·.number)).getD 0 ↔
      ∀ a ∈ args, a.key.word = .gwmetric → a.quoted = true → a.number = 0 := by
  have hkey : ∀ a : Argument, Key.gwmetric.text <:+ a.key.text ↔ a.key = .gwmetric := fun a => by
    rw [Key.text_suffix]
    simp
  have h : parseInt C.toCrt (commandLine args) (wide "gwmetric=") = _ := parseInt_commandLine (K := .gwmetric) rfl
  simp only [hkey] at h
  rw [h, find?_key (by decide) (by decide), getD_given_eq hd]
  simp only [Argument.read_eq]

/-- **`metric`** is the number that is given exactly if the first metric of the command shows it. -/
theorem metric_iff (hd : Distinct args) :
    parseInt C.toCrt (commandLine args) (wide "metric=") = (given args .metric).map (·.number) ↔
      ∀ a, firstMetric args = some a → ∃ m ∈ args, m.key = .metric ∧ a.read = m.number := by
  have hkey : ∀ a : Argument, Key.metric.text <:+ a.key.text ↔ a.key.room = none := fun a => by
    rw [Key.text_suffix]
    cases a.key <;> simp [Key.room]
  have hword : ∀ m : Argument, m.key.word = .metric ↔ m.key = .metric := fun m => by
    cases m.key <;> simp [Key.word]
  have h : parseInt C.toCrt (commandLine args) (wide "metric=") = _ := parseInt_commandLine (K := .metric) rfl
  simp only [hkey] at h
  rw [h, ← firstMetric]
  constructor
  · intro h a ha
    rw [ha, Option.map_some, eq_comm, Option.map_eq_some_iff] at h
    obtain ⟨m, hm, hread⟩ := h
    obtain ⟨hmem, hmk⟩ := (given_eq_some hd).1 hm
    exact ⟨m, hmem, (hword m).1 hmk, hread.symm⟩
  · intro h
    cases ha : firstMetric args with
    | none =>
      have hnone : given args .metric = none := by
        apply Option.eq_none_iff_forall_not_mem.2
        intro m hm
        obtain ⟨hmem, hmk⟩ := (given_eq_some hd).1 hm
        have hroom := List.find?_eq_none.1 ha m hmem
        rw [(hword m).1 hmk] at hroom
        exact hroom (by decide)
      rw [hnone]
      rfl
    | some a =>
      obtain ⟨m, hm, hmk, hread⟩ := h a ha
      rw [(given_eq_some hd).2 ⟨hm, (hword m).2 hmk⟩, Option.map_some, Option.map_some, hread]

theorem newName_eq : (parseNetshConfig C.toCrt (commandLine args)).newName = (given args .newname).map (·.value) := by
  rw [← find?_key (by decide) (by decide)]
  exact newName_commandLine

/-- **Netsh arguments are recovered exactly** if and only if they are readable. -/
theorem recovered_iff (W : Winsock) (C : IntCrt) (g : Globals) (hd : Distinct args) :
    (∃ config, (parseNetshCommand W C.toCrt g (commandLine args)).1.lastNetshConfig = some config ∧
      Recovered args config) ↔ Readable args := by
  have hmask := textField_iff (K := .mask) hd rfl (by decide) (by decide)
  have hgateway := textField_iff (K := .gateway) hd rfl (by decide) (by decide)
  have hnexthop := textField_iff (K := .nexthop) hd rfl (by decide) (by decide)
  have hpfx := textField_iff (K := .pfx) hd rfl (by decide) (by decide)
  constructor
  · rintro ⟨config, hc, hr⟩
    obtain rfl : parseNetshConfig C.toCrt (commandLine args) = config := Option.some.inj hc
    refine ⟨fun a ha hroom hnew => ?_, fun a ha hk => ?_, (metric_iff hd).1 hr.metric⟩
    · cases hk : a.key with
      | addr => exact (address_iff hd).1 hr.address a ha (by rw [hk]; rfl)
      | address => exact (address_iff hd).1 hr.address a ha (by rw [hk]; rfl)
      | mask => exact hmask.1 hr.mask a ha (by rw [hk]; rfl)
      | gateway => exact hgateway.1 hr.gateway a ha (by rw [hk]; rfl)
      | nexthop => exact hnexthop.1 hr.nexthop a ha (by rw [hk]; rfl)
      | pfx => exact hpfx.1 hr.pfx a ha (by rw [hk]; rfl)
      | metric => exact absurd (by rw [hk]; rfl) hroom
      | gwmetric => exact absurd (by rw [hk]; rfl) hroom
      | interface => exact (interfaceName_iff hd _).1 hr.interfaceName a ha (by rw [hk]; rfl)
      | newname => exact absurd hk hnew
    · exact (gwmetric_iff hd).1 hr.gwmetric a ha (by rw [hk]; rfl)
  · intro hr
    have hword : ∀ {K L : Key}, K.word = L → L.room ≠ none → L ≠ .newname → K.room ≠ none ∧ K ≠ .newname := by
      rintro K L rfl
      cases K <;> decide
    have htext : ∀ K, K.room ≠ none → K ≠ .newname → ∀ a ∈ args, a.key.word = K → space ∉ a.value := by
      intro K hroom hnew a ha hk
      obtain ⟨hroom', hnew'⟩ := hword hk hroom hnew
      exact hr.text a ha hroom' hnew'
    have hgw : ∀ K : Key, K.word = .gwmetric → K = .gwmetric := by
      intro K
      cases K <;> decide
    refine ⟨_, rfl, ?_⟩
    exact {
      interfaceName := (interfaceName_iff hd _).2 (htext .interface (by decide) (by decide))
      newName := newName_eq
      address := (address_iff hd).2 (htext .address (by decide) (by decide))
      mask := hmask.2 (htext .mask (by decide) (by decide))
      gateway := hgateway.2 (htext .gateway (by decide) (by decide))
      nexthop := hnexthop.2 (htext .nexthop (by decide) (by decide))
      pfx := hpfx.2 (htext .pfx (by decide) (by decide))
      metric := (metric_iff hd).2 hr.metric
      gwmetric := (gwmetric_iff hd).2 fun a ha hk => hr.gwmetric a ha (hgw _ hk) }

/-! ## Commands -/

def asciiIntCrt : IntCrt where
  toCrt := asciiCrt
  digit_space := by decide
  digit_quote := by decide
  space_quote := by decide
  space_minus := by decide
  space_plus := by decide
  int_minus n _ := by
    show -Int32.ofNat n = Int32.ofInt (-n)
    rw [Int32.ofInt_neg, Int32.ofInt_eq_ofNat]

/-- `interface=` with a quoted name. -/
def interfaceArgument (name : WStr) (hq : quote ∉ name) (he : equals ∉ name) (hfit : name.length ≤ 255) : Argument where
  key := .interface
  quoted := true
  value := name
  noQuote := hq
  noEquals := he
  noSpace h := nomatch h
  newnameQuoted h := nomatch h
  fits _ h := Option.some.inj h ▸ hfit
  isInt h := nomatch h

/-- `metric=` or `gwmetric=` with a digit. -/
def metricArgument (K : Key) (hK : K = .metric ∨ K = .gwmetric) (value : WStr) (hq : quote ∉ value) (he : equals ∉ value)
    (hs : space ∉ value) (hi : (decimalInt value).isSome) : Argument where
  key := K
  quoted := false
  value := value
  noQuote := hq
  noEquals := he
  noSpace _ := hs
  newnameQuoted h := by rcases hK with rfl | rfl <;> cases h
  fits _ h := by rcases hK with rfl | rfl <;> cases h
  isInt _ := hi

def interfaceNet : Argument := interfaceArgument (wide "Net") (by decide) (by decide) (by decide)
def interfaceMyNet : Argument := interfaceArgument (wide "My Net") (by decide) (by decide) (by decide)

def metric7 : Argument :=
  metricArgument .metric (.inl rfl) (wide "-7") (by decide) (by decide) (by decide) (by decide)

def gwmetric5 : Argument :=
  metricArgument .gwmetric (.inr rfl) (wide "5") (by decide) (by decide) (by decide) (by decide)

/-- `interface="Net" metric=-7 gwmetric=5` comes back. -/
theorem recovered_iff_metrics : ∃ config, (parseNetshCommand asciiWinsock asciiIntCrt.toCrt Globals.init
    (commandLine [interfaceNet, metric7, gwmetric5])).1.lastNetshConfig = some config ∧
      Recovered [interfaceNet, metric7, gwmetric5] config := by
  refine (recovered_iff asciiWinsock asciiIntCrt Globals.init (by decide)).2 ⟨by decide, by decide, ?_⟩
  rintro a ⟨⟩
  exact ⟨metric7, by simp, rfl, rfl⟩

/-- `interface="My Net"` leaves `My`, and `gwmetric=5 metric=-7` leaves 5 as the metric. -/
theorem arguments_lost : Distinct [interfaceMyNet] ∧ Distinct [gwmetric5, metric7] ∧
    (¬ ∃ config, (parseNetshCommand asciiWinsock asciiIntCrt.toCrt Globals.init
      (commandLine [interfaceMyNet])).1.lastNetshConfig = some config ∧ Recovered [interfaceMyNet] config) ∧
    ¬ ∃ config, (parseNetshCommand asciiWinsock asciiIntCrt.toCrt Globals.init
      (commandLine [gwmetric5, metric7])).1.lastNetshConfig = some config ∧ Recovered [gwmetric5, metric7] config := by
  refine ⟨by decide, by decide, ?_, ?_⟩
  · rintro ⟨config, hc, hr⟩
    obtain rfl : parseNetshConfig asciiCrt (commandLine [interfaceMyNet]) = config := Option.some.inj hc
    have hname : (parseNetshConfig asciiCrt (commandLine [interfaceMyNet])).interfaceName = wide "My" := by decide +kernel
    exact absurd (hname.symm.trans hr.interfaceName) (by decide)
  · rintro ⟨config, hc, hr⟩
    obtain rfl : parseNetshConfig asciiCrt (commandLine [gwmetric5, metric7]) = config := Option.some.inj hc
    have hmetric : (parseNetshConfig asciiCrt (commandLine [gwmetric5, metric7])).metric = some 5 := by decide +kernel
    exact absurd (hmetric.symm.trans hr.metric) (by decide)

end Rvpn.Netsh
