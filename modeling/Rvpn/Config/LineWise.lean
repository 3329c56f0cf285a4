import Mathlib.Data.List.TakeWhile
import Rvpn.Config.Load

/-!
# The line-wise meaning of `radmin.conf` (config.c:7-66)

A file says what its lines say: `key=value` with a known key and an admissible value, in order. The loader reads lines
of more than 255 bytes in pieces, each for a line of its own, and takes any number for a port.

* `lineSetting`, `lineWise` — what a line and a file say; a NUL in a line ends its text;
* `Silent`, `Clean` — the lines that have nothing for a field, and those that have their entry for it in front of byte 255
  and nothing behind;
* `loads_kept` — the loader does what the lines of a file say if for each field the last line that has anything for it is
  clean; in files without long lines only the port can differ, and the condition is exact.
-/

namespace Rvpn.Config

open Lines

/-! ## What a line says -/

/-- An entry for one of the three fields. -/
inductive Setting where
  | driver (d : Driver)
  | tapAddr (a : Text)
  | tapPort (n : UInt16)
deriving DecidableEq

def Setting.apply (cfg : AppConfig) : Setting → AppConfig
  | driver d => { cfg with driver := d }
  | tapAddr a => { cfg with tapAddr := a }
  | tapPort n => { cfg with tapPort := n }

/-- `key=value`: the key stands in front of the first `=`, the value is the word behind it. -/
def keyValue (p : Text) : Option (Text × Text) :=
  match p.dropWhile (· ≠ equals) with
  | [] => none
  | _ :: rest => if p.takeWhile (· ≠ equals) ≠ [] ∧ word rest ≠ [] then some (p.takeWhile (· ≠ equals), word rest) else none

/-- A decimal number in 0..65535. -/
def port (value : Text) : Option UInt16 :=
  (Decimal.numeral digit value).bind fun n => if n < 65536 then some (UInt16.ofNat n) else none

def driverNamed (value : Text) : Option Driver :=
  if stricmp value (text "linux_tap") then some .linuxTap
  else if stricmp value (text "wireguard_server") then some .wireguardServer
  else none

/-- The entry of a known key with an admissible value, `port` being the reading of port numbers. -/
def setting (port : Text → Option UInt16) (key value : Text) : Option Setting :=
  if stricmp key (text "driver") then (driverNamed value).map .driver
  else if stricmp key (text "tap_addr") then some (.tapAddr (value.take 63))
  else if stricmp key (text "tap_port") then (port value).map .tapPort
  else none

/-- **What a line says.** -/
def lineSetting (line : Text) : Option Setting :=
  let p := skipBlanks line
  if isComment p then none else (keyValue p).bind fun kv => setting port kv.1 kv.2

def lineStep (cfg : AppConfig) (line : Text) : AppConfig := ((lineSetting line).map (Setting.apply cfg)).getD cfg

/-- The value of a line for `tap_port`. -/
def portText (line : Text) : Option Text :=
  let p := skipBlanks line
  if isComment p then none
  else (keyValue p).bind fun kv => if stricmp kv.1 (text "tap_port") then some kv.2 else none

/-- What a setting says of the driver, of the address and of the port. -/
def Setting.driver? : Setting → Option Driver
  | driver d => some d
  | _ => none

def Setting.tapAddr? : Setting → Option Text
  | tapAddr a => some a
  | _ => none

def Setting.tapPort? : Setting → Option UInt16
  | tapPort n => some n
  | _ => none

/-- **The line-wise meaning of a file**: the defaults overridden by its lines, in order. -/
def lineWise (ls : List Text) : AppConfig := ls.foldl lineStep defaults

variable {A} {cfg : AppConfig} {line s : Text} {p key value : Text} {q q' : Text → Option UInt16}

/-! ## Settings -/

theorem stricmp_eq_true {a b : Text} : stricmp a b = true ↔ a.map lower = b.map lower := by simp [stricmp]

theorem length_of_stricmp {a b : Text} (h : stricmp a b = true) : a.length = b.length := by
  simpa using congrArg List.length (stricmp_eq_true.1 h)

/-- Two texts that differ are not both the same key. -/
theorem stricmp_ne {a b : Text} (h : stricmp key a = true) (hab : a.map lower ≠ b.map lower) : ¬ stricmp key b = true :=
  fun hb => hab ((stricmp_eq_true.1 h).symm.trans (stricmp_eq_true.1 hb))

theorem setting_port (h : stricmp key (text "tap_port") = true) : setting q key value = (q value).map .tapPort := by
  rw [setting, if_neg (stricmp_ne h (by decide)), if_neg (stricmp_ne h (by decide)), if_pos h]

/-- Only a port is read by `port`. -/
theorem setting_congr (h : ¬ stricmp key (text "tap_port") = true) : setting q key value = setting q' key value := by
  simp only [setting, if_neg h]

/-- No key is so long that the loader cuts it. -/
theorem setting_long (h : 63 < key.length) : setting q key value = none := by
  have hne : ∀ k : Text, k.length ≤ 63 → ¬ stricmp key k = true := fun k hk hs => by
    have := length_of_stricmp hs
    omega
  rw [setting, if_neg (hne _ (by decide)), if_neg (hne _ (by decide)), if_neg (hne _ (by decide))]

/-- What the loader makes of a number. -/
def atoiPort (A : Atoi) (value : Text) : UInt16 := (atoi A value).toUInt32.toUInt16

/-- What `config_parse_line` makes of a piece. -/
def pieceSetting (A : Atoi) (line : Text) : Option Setting :=
  let p := skipBlanks line
  if isComment p then none else (scan p).bind fun kv => setting (fun v => some (atoiPort A v)) kv.1 kv.2

theorem configParseLine_eq : (configParseLine A p cfg).getD cfg =
    (((scan p).bind fun kv => setting (fun v => some (atoiPort A v)) kv.1 kv.2).map (Setting.apply cfg)).getD cfg := by
  unfold configParseLine setting driverNamed
  cases scan p with
  | none => rfl
  | some kv =>
    obtain ⟨key, value⟩ := kv
    simp only [Option.bind_some]
    split
    · split
      · rfl
      · split <;> rfl
    · split
      · rfl
      · split <;> rfl

/-- **The loader changes the configuration by the settings of its pieces.** -/
theorem loadPiece_eq : loadPiece A cfg line = ((pieceSetting A line).map (Setting.apply cfg)).getD cfg := by
  simp only [loadPiece, pieceSetting]
  split
  · rfl
  · exact configParseLine_eq

/-! ## Lines of one piece -/

theorem dropWhile_head {c : UInt8} {rest : Text} (h : p.dropWhile (· ≠ equals) = c :: rest) : c = equals := by
  have := List.head?_dropWhile_not (· ≠ equals) p
  rw [h] at this
  simpa using this

/-- In a piece that is not longer than the buffers, `sscanf` finds the key and the value, if the key is not cut. -/
theorem scan_eq (hp : p.length ≤ 255) :
    (scan p).bind (fun kv => setting q kv.1 kv.2) = (keyValue p).bind fun kv => setting q kv.1 kv.2 := by
  have hsplit : p.takeWhile (· ≠ equals) ++ p.dropWhile (· ≠ equals) = p := List.takeWhile_append_dropWhile
  generalize hk : p.takeWhile (· ≠ equals) = k at hsplit
  generalize hd : p.dropWhile (· ≠ equals) = d at hsplit
  simp only [scan, keyValue, hk, hd]
  by_cases hlen : k.length ≤ 63
  · have hdrop : p.drop k.length = d := by rw [← hsplit, List.drop_left]
    rw [List.take_of_length_le hlen, hdrop]
    cases d with
    | nil => rfl
    | cons c rest =>
      have hword : (word rest).length ≤ 255 := by
        have hle : (word rest).length ≤ rest.length :=
          Nat.le_trans (List.takeWhile_sublist _).length_le (List.dropWhile_sublist _).length_le
        have := congrArg List.length hsplit
        rw [List.length_append, List.length_cons] at this
        omega
      simp only [List.take_of_length_le hword, dropWhile_head hd, true_and]
  · -- the cut key stands in front of another character of the key
    have hkey : (k.take 63).length = 63 := by rw [List.length_take]; omega
    obtain ⟨c, rest, hrest⟩ := List.exists_cons_of_ne_nil (show k.drop 63 ≠ [] by
      rw [ne_eq, List.drop_eq_nil_iff]
      omega)
    have hc : c ≠ equals := by
      have hmem : c ∈ p.takeWhile (· ≠ equals) := by
        rw [hk]
        exact List.mem_of_mem_drop (hrest ▸ List.mem_cons_self)
      simpa using List.mem_takeWhile_imp hmem
    have hdrop : p.drop 63 = c :: (rest ++ d) := by
      rw [← hsplit, List.drop_append_of_le_length (by omega), hrest]
      rfl
    simp only [hkey, hdrop, hc, false_and, and_false, if_false, Option.bind_none]
    cases d with
    | nil => rfl
    | cons c' rest' =>
      change none = (if k ≠ [] ∧ word rest' ≠ [] then some (k, word rest') else none).bind _
      split
      · exact (setting_long (Nat.lt_of_not_le hlen)).symm
      · rfl

/-- A port is read as the number it is. -/
theorem atoiPort_of_port {n : UInt16} (h : port value = some n) : atoiPort A value = n := by
  obtain ⟨k, hk, hn⟩ := Option.bind_eq_some_iff.1 h
  obtain ⟨hne, ds, hds, rfl⟩ := Decimal.numeral_eq_some.1 hk
  obtain ⟨c, v, rfl⟩ := List.exists_cons_of_ne_nil hne
  obtain ⟨d, ds', rfl, hc, -⟩ := Decimal.digit_of_span_cons hds
  split at hn
  · next hlt =>
    rw [Option.some.injEq] at hn
    have hdig : 0x30 ≤ c.toNat ∧ c.toNat ≤ 0x39 := by
      unfold digit at hc
      split at hc
      · assumption
      · cases hc
    have hspace : isSpace c = false := by
      have hne : ¬ c = 0x20 := by
        rintro rfl
        exact absurd hdig (by decide)
      have hle : ¬ c ≤ 0x0D := fun h => by
        have := UInt8.le_iff_toNat_le.1 h
        simp only [UInt8.reduceToNat] at this
        omega
      simp [isSpace, hne, hle]
    have hminus : c ≠ minusSign := by
      rintro rfl
      exact absurd hdig (by decide)
    have hplus : c ≠ plusSign := by
      rintro rfl
      exact absurd hdig (by decide)
    have hatoi : atoi A (c :: v) = Int32.ofNat (Decimal.ofDigits (d :: ds')) := by
      simp only [atoi, List.dropWhile_cons, hspace, Bool.false_eq_true, if_false, hminus, hplus, hds]
      rw [if_neg (by simp), A.int_exact _ (by omega)]
    rw [atoiPort, hatoi, ← hn]
    apply UInt16.toNat_inj.1
    simp
  · cases hn

theorem length_skipBlanks : (skipBlanks line).length ≤ line.length :=
  Nat.le_trans (List.dropWhile_sublist _).length_le (List.takeWhile_sublist _).length_le

/-- A line of one piece that is not for the port says to the loader what it says. -/
theorem pieceSetting_eq (hlen : line.length ≤ 255) (h : portText line = none) : pieceSetting A line = lineSetting line := by
  simp only [portText, pieceSetting, lineSetting] at h ⊢
  split
  · rfl
  · next hc =>
    rw [if_neg hc] at h
    rw [scan_eq (Nat.le_trans length_skipBlanks hlen)]
    cases hkv : keyValue (skipBlanks line) with
    | none => rfl
    | some kv =>
      simp only [hkv, Option.bind_some] at h
      simp only [Option.bind_some]
      refine setting_congr fun hport => ?_
      rw [if_pos hport] at h
      cases h

/-- A line of one piece for the port. -/
theorem pieceSetting_port (hlen : line.length ≤ 255) (h : portText line = some value) :
    pieceSetting A line = some (.tapPort (atoiPort A value)) ∧ lineSetting line = (port value).map .tapPort := by
  simp only [portText, pieceSetting, lineSetting] at h ⊢
  split at h
  · cases h
  · next hc =>
    obtain ⟨kv, hkv, hv⟩ := Option.bind_eq_some_iff.1 h
    split at hv
    · next hport =>
      obtain rfl := Option.some.inj hv
      rw [if_neg hc, if_neg hc, scan_eq (Nat.le_trans length_skipBlanks hlen), hkv, Option.bind_some, Option.bind_some,
        setting_port hport, setting_port hport]
      exact ⟨rfl, rfl⟩
    · cases hv

/-! ## One line -/

/-- The pieces of a line, read one after the other. -/
def loadLine (A : Atoi) (cfg : AppConfig) (line : Text) : AppConfig := (pieces newline 255 line).foldl (loadPiece A) cfg

/-- The line has nothing for a field: it says nothing of it, and none of its pieces is read as an entry for it. -/
structure Silent {β : Type} (A : Atoi) (field : Setting → Option β) (line : Text) : Prop where
  entry : (lineSetting line).bind field = none
  piece : ∀ p ∈ pieces newline 255 line, (pieceSetting A p).bind field = none

/-- The line has an entry for a field within its first 255 bytes, and of what is behind them no piece is read as an
entry for it. -/
structure Clean {β : Type} (A : Atoi) (field : Setting → Option β) (line : Text) : Prop where
  entry : ((lineSetting line).bind field).isSome
  first : (lineSetting (line.take 255)).bind field = (lineSetting line).bind field
  behind : ∀ p ∈ pieces newline 255 (line.drop 255), (pieceSetting A p).bind field = none

/-- What the last of the pieces that sets something sets. -/
def lastSet {β : Type} (A : Atoi) (field : Setting → Option β) (line : Text) : Option β :=
  ((pieces newline 255 line).filterMap fun p => (pieceSetting A p).bind field).getLast?

variable {β : Type} {field : Setting → Option β}

instance [DecidableEq β] : Decidable (Silent A field line) :=
  decidable_of_iff (_ ∧ _) ⟨fun h => ⟨h.1, h.2⟩, fun h => ⟨h.entry, h.piece⟩⟩

instance [DecidableEq β] : Decidable (Clean A field line) :=
  decidable_of_iff (_ ∧ _ ∧ _) ⟨fun h => ⟨h.1, h.2.1, h.2.2⟩, fun h => ⟨h.entry, h.first, h.behind⟩⟩

theorem Silent.lastSet (h : Silent A field line) : lastSet A field line = none := by
  rw [Config.lastSet, List.filterMap_eq_nil_iff.2 h.piece]
  rfl

/-- What a line of one piece says, its piece sets. -/
theorem piece_of_line {b : β} (hlen : line.length ≤ 255) (h : (lineSetting line).bind field = some b) :
    (pieceSetting A line).bind field = some b := by
  cases hp : portText line with
  | none => rwa [pieceSetting_eq hlen hp]
  | some value =>
    obtain ⟨hpiece, hline⟩ := pieceSetting_port (A := A) hlen hp
    rw [hline] at h
    cases hn : port value with
    | none =>
      rw [hn] at h
      cases h
    | some n =>
      rw [hn] at h
      rw [hpiece, atoiPort_of_port hn]
      exact h

/-- **A clean line** sets what it says. -/
theorem Clean.lastSet (hs : Split newline [line]) (h : Clean A field line) :
    lastSet A field line = (lineSetting line).bind field := by
  obtain ⟨b, hb⟩ := Option.isSome_iff_exists.1 h.entry
  have hfirst : (pieceSetting A (line.take 255)).bind field = some b :=
    piece_of_line (List.length_take_le _ _) (h.first.trans hb)
  have hbehind : (pieces newline 255 (line.drop 255)).filterMap (fun p => (pieceSetting A p).bind field) = [] :=
    List.filterMap_eq_nil_iff.2 h.behind
  rw [Config.lastSet, pieces_take hs (by decide), List.filterMap_cons, hfirst, hbehind, hb]
  rfl

/-- **A line of one piece** has nothing for the field, or says it, or is for the port with a value that is none. -/
theorem short_cases (A : Atoi) (field : Setting → Option β) (hs : Split newline [line]) (hlen : line.length ≤ 255) :
    Silent A field line ∨ Clean A field line ∨ lineSetting line = none ∧ ∃ value, portText line = some value ∧
      port value = none ∧ pieceSetting A line = some (.tapPort (atoiPort A value)) := by
  have hpieces : pieces newline 255 line = [line] := pieces_line hs hlen
  have hclean : ((lineSetting line).bind field).isSome → Clean A field line := fun hsome =>
    ⟨hsome, by rw [List.take_of_length_le hlen], by rw [List.drop_eq_nil_of_le hlen]; simp⟩
  by_cases hsome : ((lineSetting line).bind field).isSome
  · exact .inr (.inl (hclean hsome))
  · have hnone : (lineSetting line).bind field = none := by simpa using hsome
    cases hp : portText line with
    | none =>
      refine .inl ⟨hnone, fun p hmem => ?_⟩
      rw [hpieces] at hmem
      obtain rfl := List.mem_singleton.1 hmem
      rwa [pieceSetting_eq hlen hp]
    | some value =>
      obtain ⟨hpiece, hline⟩ := pieceSetting_port (A := A) hlen hp
      cases hn : port value with
      | none => exact .inr (.inr ⟨by rw [hline, hn]; rfl, value, rfl, hn, hpiece⟩)
      | some n =>
        refine .inl ⟨hnone, fun p hmem => ?_⟩
        rw [hpieces] at hmem
        obtain rfl := List.mem_singleton.1 hmem
        rw [hline, hn] at hnone
        rw [hpiece, atoiPort_of_port hn]
        exact hnone

/-- A field after a row of changes is what the last one that sets it sets. -/
theorem foldl_field {β γ δ : Type} {step : γ → β → γ} {get : γ → δ} {sets : β → Option δ}
    (h : ∀ c b, get (step c b) = (sets b).getD (get c)) (bs : List β) (c : γ) :
    get (bs.foldl step c) = (bs.filterMap sets).getLast?.getD (get c) := by
  induction bs generalizing c with
  | nil => rfl
  | cons b bs ih =>
    rw [List.foldl_cons, ih, h]
    cases hb : sets b with
    | none => rw [List.filterMap_cons_none hb]; rfl
    | some d => rw [List.filterMap_cons_some hb, List.getLast?_cons, Option.getD_some, Option.getD_some]

/-! ## Files -/

/-- The last entry of a field, or the default. -/
def lastEntry {β : Type} (field : Setting → Option β) (default : β) (ls : List Text) : β :=
  (ls.filterMap fun ℓ => (lineSetting ℓ).bind field).getLast?.getD default

/-- **The loader does what the lines of the file say.** -/
structure LoadsLineWise (A : Atoi) (content : Text) : Prop where
  whole : (configLoad A (some content)).1 = lineWise (lines newline (textMode content))
  /-- A comment or a blank line can be taken out. -/
  comment : ∀ pre ℓ post, lines newline (textMode content) = pre ++ ℓ :: post → isComment (skipBlanks ℓ) = true →
    loadText A (pre ++ post).flatten = (configLoad A (some content)).1
  tapAddr : (configLoad A (some content)).1.tapAddr =
    lastEntry Setting.tapAddr? (text "127.0.0.1") (lines newline (textMode content))
  tapPort : (configLoad A (some content)).1.tapPort =
    lastEntry Setting.tapPort? 12345 (lines newline (textMode content))

/-- The last line that has anything for the field, if there is one, is clean. -/
def LastClean {β : Type} (A : Atoi) (field : Setting → Option β) (ls : List Text) : Prop :=
  (∀ ℓ ∈ ls, Silent A field ℓ) ∨
    ∃ pre ℓ post, ls = pre ++ ℓ :: post ∧ Clean A field ℓ ∧ ∀ k ∈ post, Silent A field k

/-- The last line that has anything for the port has at most 255 bytes and is for it with a value that is no port, but
one that `atoi` takes for the port that is set already. -/
def SamePort (A : Atoi) (ls : List Text) : Prop :=
  ∃ pre ℓ post value, ls = pre ++ ℓ :: post ∧ ℓ.length ≤ 255 ∧ portText ℓ = some value ∧ port value = none ∧
    atoiPort A value = lastEntry Setting.tapPort? 12345 pre ∧ ∀ k ∈ post, Silent A Setting.tapPort? k

/-- **The condition on a file.** -/
structure Kept (A : Atoi) (ls : List Text) : Prop where
  driver : LastClean A Setting.driver? ls
  tapAddr : LastClean A Setting.tapAddr? ls
  tapPort : LastClean A Setting.tapPort? ls ∨ SamePort A ls

variable {ls pre post : List Text} {ℓ : Text}

theorem lineSetting_comment (h : isComment (skipBlanks ℓ) = true) : lineSetting ℓ = none := by
  simp only [lineSetting, if_pos h]

/-- A field of the configuration that the entries for `field` set. -/
def Reads {β : Type} (get : AppConfig → β) (field : Setting → Option β) : Prop :=
  ∀ cfg (s : Option Setting), get ((s.map (Setting.apply cfg)).getD cfg) = (s.bind field).getD (get cfg)

theorem reads_driver : Reads AppConfig.driver Setting.driver? := by
  rintro cfg (_ | _ | _ | _) <;> rfl

theorem reads_tapAddr : Reads AppConfig.tapAddr Setting.tapAddr? := by
  rintro cfg (_ | _ | _ | _) <;> rfl

theorem reads_tapPort : Reads AppConfig.tapPort Setting.tapPort? := by
  rintro cfg (_ | _ | _ | _) <;> rfl

/-- What the lines say of a field. -/
theorem Reads.lineWise {get : AppConfig → β} (hg : Reads get field) (ls : List Text) :
    get (lineWise ls) = lastEntry field (get defaults) ls :=
  foldl_field (fun c ℓ => hg c (lineSetting ℓ)) ls defaults

/-- An address is cut to its field, and a port is a decimal number in its range. -/
theorem lineSetting_inRange {st : Setting} (h : lineSetting ℓ = some st) :
    (∀ a, st.tapAddr? = some a → a.length ≤ 63) ∧
      (∀ n, st.tapPort? = some n → ∃ value, portText ℓ = some value ∧ port value = some n) := by
  simp only [lineSetting, portText] at h ⊢
  split at h
  · cases h
  · next hc =>
    rw [if_neg hc]
    obtain ⟨kv, hkv, hset⟩ := Option.bind_eq_some_iff.1 h
    simp only [hkv, Option.bind_some]
    unfold setting at hset
    split at hset
    · obtain ⟨d, -, rfl⟩ := Option.map_eq_some_iff.1 hset
      exact ⟨nofun, nofun⟩
    · split at hset
      · obtain rfl := Option.some.inj hset
        refine ⟨?_, nofun⟩
        rintro a ⟨⟩
        exact List.length_take_le _ _
      · split at hset
        · next hp =>
          obtain ⟨n, hn, rfl⟩ := Option.map_eq_some_iff.1 hset
          refine ⟨nofun, ?_⟩
          rintro m ⟨⟩
          exact ⟨kv.2, if_pos hp, hn⟩
        · cases hset

/-- The loader reads a text line by line. -/
theorem loadText_eq (s : Text) : loadText A s = (lines newline s).foldl (loadLine A) defaults := by
  rw [loadText, pieces_eq_flatMap (by decide), List.foldl_flatMap]
  rfl

theorem loadText_flatten (h : Split newline ls) : loadText A ls.flatten = ls.foldl (loadLine A) defaults := by
  rw [loadText_eq, lines_flatten h]

/-- What the loader leaves in a field. -/
theorem Reads.loadText {get : AppConfig → β} (hg : Reads get field) (h : Split newline ls) :
    get (loadText A ls.flatten) = (ls.filterMap (lastSet A field)).getLast?.getD (get defaults) := by
  have hpiece : ∀ c p, get (loadPiece A c p) = ((pieceSetting A p).bind field).getD (get c) := fun c p => by
    rw [loadPiece_eq, hg]
  rw [loadText_flatten h]
  exact foldl_field (fun c ℓ => foldl_field hpiece (pieces newline 255 ℓ) c) ls defaults

theorem split_singleton (h : Split newline ls) (hmem : ℓ ∈ ls) : Split newline [ℓ] := by
  induction ls with
  | nil => cases hmem
  | cons k ls ih =>
    rcases List.mem_cons.1 hmem with rfl | hmem
    · have happ : Split newline ([ℓ] ++ ls) := h
      exact happ.take
    · rcases h with ⟨-, h⟩ | ⟨rfl, -⟩
      · exact ih h hmem
      · cases hmem

/-- What comes last, where nothing behind `x` counts. -/
theorem getLast_filterMap_append {γ : Type} {f : γ → Option β} (d : β) {xs ys : List γ} {x : γ} (hys : ys.filterMap f = []) :
    ((xs ++ x :: ys).filterMap f).getLast?.getD d = (f x).getD ((xs.filterMap f).getLast?.getD d) := by
  rw [List.filterMap_append]
  cases hx : f x with
  | none => rw [List.filterMap_cons_none hx, hys, List.append_nil, Option.getD_none]
  | some b => rw [List.filterMap_cons_some hx, hys, List.getLast?_concat, Option.getD_some, Option.getD_some]

theorem lastSet_append (d : β) (hpost : ∀ k ∈ post, Silent A field k) :
    ((pre ++ ℓ :: post).filterMap (lastSet A field)).getLast?.getD d =
      (lastSet A field ℓ).getD ((pre.filterMap (lastSet A field)).getLast?.getD d) :=
  getLast_filterMap_append d (List.filterMap_eq_nil_iff.2 fun k hk => (hpost k hk).lastSet)

theorem lastEntry_append (d : β) (hpost : ∀ k ∈ post, Silent A field k) :
    lastEntry field d (pre ++ ℓ :: post) = ((lineSetting ℓ).bind field).getD (lastEntry field d pre) :=
  getLast_filterMap_append d (List.filterMap_eq_nil_iff.2 fun k hk => (hpost k hk).entry)

/-- **The last line decides**: if it is clean, the loader leaves what the lines say. -/
theorem LastClean.eq (hs : Split newline ls) (h : LastClean A field ls) (d : β) :
    (ls.filterMap (lastSet A field)).getLast?.getD d = lastEntry field d ls := by
  rcases h with h | ⟨pre, ℓ, post, rfl, hℓ, hpost⟩
  · rw [lastEntry, List.filterMap_eq_nil_iff.2 fun ℓ hℓ => (h ℓ hℓ).lastSet,
      List.filterMap_eq_nil_iff.2 fun ℓ hℓ => (h ℓ hℓ).entry]
  · have hsome := hℓ.entry
    rw [lastSet_append d hpost, lastEntry_append d hpost, hℓ.lastSet (split_singleton hs (by simp))]
    obtain ⟨b, hb⟩ := Option.isSome_iff_exists.1 hsome
    rw [hb, Option.getD_some, Option.getD_some]

/-- The same for a number that `atoi` takes for the port that is set. -/
theorem SamePort.eq (hs : Split newline ls) (h : SamePort A ls) :
    (ls.filterMap (lastSet A Setting.tapPort?)).getLast?.getD 12345 = lastEntry Setting.tapPort? 12345 ls := by
  obtain ⟨pre, ℓ, post, value, rfl, hlen, hv, hn, hsame, hpost⟩ := h
  obtain ⟨hpiece, hline⟩ := pieceSetting_port (A := A) hlen hv
  have hset : lastSet A Setting.tapPort? ℓ = some (atoiPort A value) := by
    rw [lastSet, pieces_line (split_singleton hs (by simp)) hlen, List.filterMap_cons, hpiece]
    rfl
  rw [lastSet_append 12345 hpost, lastEntry_append 12345 hpost, hset, hline, hn, hsame]
  rfl

/-! ## The result -/

theorem appConfig_ext {a b : AppConfig} (hd : a.driver = b.driver) (ha : a.tapAddr = b.tapAddr)
    (hp : a.tapPort = b.tapPort) : a = b := by
  obtain ⟨d, t, n⟩ := a
  obtain rfl : d = b.driver := hd
  obtain rfl : t = b.tapAddr := ha
  obtain rfl : n = b.tapPort := hp
  rfl

theorem Kept.loadText (hs : Split newline ls) (hk : Kept A ls) : loadText A ls.flatten = lineWise ls := by
  apply appConfig_ext
  · rw [reads_driver.loadText hs, reads_driver.lineWise, hk.driver.eq hs]
  · rw [reads_tapAddr.loadText hs, reads_tapAddr.lineWise, hk.tapAddr.eq hs]
  · rw [reads_tapPort.loadText hs, reads_tapPort.lineWise]
    rcases hk.tapPort with h | h
    · exact h.eq hs _
    · exact h.eq hs

/-- A line that is not `u` is taken out in front of it or behind it; one that counts for nothing changes nothing of what
stands in front. -/
theorem remove_split {γ : Type} {f : γ → Option β} {xs ys us vs : List γ} {x u : γ} (h : xs ++ x :: ys = us ++ u :: vs)
    (hne : u ≠ x) (hx : f x = none) :
    ∃ us' vs', xs ++ ys = us' ++ u :: vs' ∧ us'.filterMap f = us.filterMap f ∧ ∀ z ∈ vs', z ∈ vs := by
  rcases List.append_eq_append_iff.1 h with ⟨mid, rfl, hmid⟩ | ⟨mid, rfl, hmid⟩
  · cases mid with
    | nil => exact absurd (List.cons.inj hmid).1.symm hne
    | cons m mid =>
      obtain ⟨rfl, rfl⟩ := List.cons.inj hmid
      refine ⟨xs ++ mid, vs, by simp, ?_, fun z hz => hz⟩
      rw [List.filterMap_append, List.filterMap_append, List.filterMap_cons_none hx]
  · cases mid with
    | nil => exact absurd (List.cons.inj hmid).1 hne
    | cons m mid =>
      obtain ⟨rfl, hvs⟩ := List.cons.inj hmid
      refine ⟨us, mid ++ ys, by simp, rfl, fun z hz => ?_⟩
      rw [hvs]
      rcases List.mem_append.1 hz with hz | hz
      · exact List.mem_append_left _ hz
      · exact List.mem_append_right _ (List.mem_cons_of_mem _ hz)

/-- A line that says nothing of the field can be taken out. -/
theorem LastClean.remove (h : LastClean A field (pre ++ ℓ :: post)) (hℓ : (lineSetting ℓ).bind field = none) :
    LastClean A field (pre ++ post) := by
  rcases h with h | ⟨pre', k, post', heq, hk, hpost⟩
  · refine .inl fun x hx => h x ?_
    rcases List.mem_append.1 hx with hx | hx
    · exact List.mem_append_left _ hx
    · exact List.mem_append_right _ (List.mem_cons_of_mem _ hx)
  · have hne : k ≠ ℓ := by
      rintro rfl
      have hsome := hk.entry
      rw [hℓ] at hsome
      cases hsome
    obtain ⟨us, vs, heq', -, hvs⟩ := remove_split (f := fun ℓ => (lineSetting ℓ).bind field) heq hne hℓ
    exact .inr ⟨us, k, vs, heq', hk, fun x hx => hpost x (hvs x hx)⟩

theorem portText_comment (h : isComment (skipBlanks ℓ) = true) : portText ℓ = none := by
  simp only [portText, if_pos h]

theorem SamePort.remove (h : SamePort A (pre ++ ℓ :: post)) (hc : isComment (skipBlanks ℓ) = true) :
    SamePort A (pre ++ post) := by
  obtain ⟨pre', k, post', value, heq, hlen, hv, hn, hsame, hpost⟩ := h
  have hne : k ≠ ℓ := by
    rintro rfl
    rw [portText_comment hc] at hv
    cases hv
  have hℓ : (lineSetting ℓ).bind Setting.tapPort? = none := by rw [lineSetting_comment hc]; rfl
  obtain ⟨us, vs, heq', hus, hvs⟩ := remove_split (f := fun ℓ => (lineSetting ℓ).bind Setting.tapPort?) heq hne hℓ
  refine ⟨us, k, vs, value, heq', hlen, hv, hn, ?_, fun x hx => hpost x (hvs x hx)⟩
  rw [hsame, lastEntry, lastEntry, hus]

/-- A comment or a blank line can be taken out. -/
theorem Kept.remove (hk : Kept A (pre ++ ℓ :: post)) (hc : isComment (skipBlanks ℓ) = true) : Kept A (pre ++ post) where
  driver := hk.driver.remove (by rw [lineSetting_comment hc]; rfl)
  tapAddr := hk.tapAddr.remove (by rw [lineSetting_comment hc]; rfl)
  tapPort := by
    rcases hk.tapPort with h | h
    · exact .inl (h.remove (by rw [lineSetting_comment hc]; rfl))
    · exact .inr (h.remove hc)

/-- **A file that meets the condition** is loaded as its lines say. -/
theorem Kept.loads {content : Text} (hk : Kept A (lines newline (textMode content))) : LoadsLineWise A content := by
  have hsplit : Split newline (lines newline (textMode content)) := split_lines _
  have hwhole : (configLoad A (some content)).1 = lineWise (lines newline (textMode content)) := by
    have := hk.loadText hsplit
    rwa [flatten_lines] at this
  refine ⟨hwhole, fun pre ℓ post hls hc => ?_, by rw [hwhole, reads_tapAddr.lineWise]; rfl,
    by rw [hwhole, reads_tapPort.lineWise]; rfl⟩
  rw [hls] at hsplit hk
  rw [hwhole, hls, (hk.remove hc).loadText (Split.remove hsplit), lineWise, lineWise, List.foldl_append,
    List.foldl_append, List.foldl_cons]
  congr 1
  rw [lineStep, lineSetting_comment hc]
  rfl

/-- Lines of one piece say of a field what their pieces set, but for the port. -/
theorem lastClean_short (hs : Split newline ls) (hshort : ∀ ℓ ∈ ls, ℓ.length ≤ 255)
    (hfield : ∀ n, field (.tapPort n) = none) : LastClean A field ls := by
  rcases last_or_none (fun ℓ => ¬ Silent A field ℓ) ls with h | ⟨pre, ℓ, post, rfl, hℓ, hpost⟩
  · exact .inl fun ℓ hℓ => not_not.1 (h ℓ hℓ)
  · have hmem : ℓ ∈ pre ++ ℓ :: post := by simp
    refine .inr ⟨pre, ℓ, post, rfl, ?_, fun k hk => not_not.1 (hpost k hk)⟩
    rcases short_cases A field (split_singleton hs hmem) (hshort ℓ hmem) with h | h | ⟨hline, value, -, -, hpiece⟩
    · exact absurd h hℓ
    · exact h
    · refine absurd ⟨by rw [hline]; rfl, fun p hp => ?_⟩ hℓ
      rw [pieces_line (split_singleton hs hmem) (hshort ℓ hmem)] at hp
      obtain rfl := List.mem_singleton.1 hp
      rw [hpiece]
      exact hfield _

/-- **In a file of lines of one piece** the condition is exact: the port is the only field that can differ. -/
theorem kept_of_loads {content : Text} (hshort : ∀ ℓ ∈ lines newline (textMode content), ℓ.length ≤ 255)
    (hl : LoadsLineWise A content) : Kept A (lines newline (textMode content)) := by
  have hs : Split newline (lines newline (textMode content)) := split_lines _
  refine ⟨lastClean_short hs hshort fun _ => rfl, lastClean_short hs hshort fun _ => rfl, ?_⟩
  have hport : (loadText A (textMode content)).tapPort = _ := hl.tapPort
  rw [← flatten_lines (textMode content), reads_tapPort.loadText hs, flatten_lines] at hport
  generalize lines newline (textMode content) = ls at hs hshort hport ⊢
  rcases last_or_none (fun ℓ => ¬ Silent A Setting.tapPort? ℓ) ls with h | ⟨pre, ℓ, post, rfl, hℓ, hpost⟩
  · exact .inl (.inl fun ℓ hℓ => not_not.1 (h ℓ hℓ))
  · have hmem : ℓ ∈ pre ++ ℓ :: post := by simp
    have hsilent : ∀ k ∈ post, Silent A Setting.tapPort? k := fun k hk => not_not.1 (hpost k hk)
    have hsplit := split_singleton hs hmem
    rcases short_cases A Setting.tapPort? hsplit (hshort ℓ hmem) with h | h | ⟨hline, value, hv, hn, hpiece⟩
    · exact absurd h hℓ
    · exact .inl (.inr ⟨pre, ℓ, post, rfl, h, hsilent⟩)
    · refine .inr ⟨pre, ℓ, post, value, rfl, hshort ℓ hmem, hv, hn, ?_, hsilent⟩
      have hset : lastSet A Setting.tapPort? ℓ = some (atoiPort A value) := by
        rw [lastSet, pieces_line hsplit (hshort ℓ hmem), List.filterMap_cons, hpiece]
        rfl
      rw [lastSet_append _ hsilent, lastEntry_append _ hsilent, hset, hline] at hport
      exact hport

/-- **Which files are loaded as their lines say**: those that meet the condition, and of the files without a line of more
than 255 bytes no others. -/
theorem loads_kept (A : Atoi) (content : Text) :
    (Kept A (lines newline (textMode content)) → LoadsLineWise A content) ∧
    ((∀ ℓ ∈ lines newline (textMode content), ℓ.length ≤ 255) →
      (LoadsLineWise A content ↔ Kept A (lines newline (textMode content)))) :=
  ⟨Kept.loads, fun hshort => ⟨kept_of_loads hshort, Kept.loads⟩⟩

/-- Lines of one piece whose ports are admissible. -/
def Plain (line : Text) : Prop := line.length ≤ 255 ∧ (portText line).all (fun value => (port value).isSome) = true

instance (line : Text) : Decidable (Plain line) := inferInstanceAs (Decidable (_ ∧ _))

/-- A file of such lines is loaded as its lines say. -/
theorem loads_of_plain {content : Text} (h : ∀ ℓ ∈ lines newline (textMode content), Plain ℓ) : LoadsLineWise A content := by
  have hs : Split newline (lines newline (textMode content)) := split_lines _
  have hshort : ∀ ℓ ∈ lines newline (textMode content), ℓ.length ≤ 255 := fun ℓ hℓ => (h ℓ hℓ).1
  refine Kept.loads ⟨lastClean_short hs hshort fun _ => rfl, lastClean_short hs hshort fun _ => rfl, .inl ?_⟩
  generalize lines newline (textMode content) = ls at h hs hshort ⊢
  rcases last_or_none (fun ℓ => ¬ Silent A Setting.tapPort? ℓ) ls with hnone | ⟨pre, ℓ, post, rfl, hℓ, hpost⟩
  · exact .inl fun ℓ hℓ => not_not.1 (hnone ℓ hℓ)
  · have hmem : ℓ ∈ pre ++ ℓ :: post := by simp
    refine .inr ⟨pre, ℓ, post, rfl, ?_, fun k hk => not_not.1 (hpost k hk)⟩
    rcases short_cases A Setting.tapPort? (split_singleton hs hmem) (hshort ℓ hmem) with hc | hc | ⟨-, value, hv, hn, -⟩
    · exact absurd hc hℓ
    · exact hc
    · have hsome := (h ℓ hmem).2
      rw [hv, Option.all_some, hn] at hsome
      cases hsome

/-- The file that is written when there is none loads as the configuration that is used when there is none. -/
theorem configLoad_written (A : Atoi) : ∃ content, (configLoad A none).2 = some content ∧
    (configLoad A (some content)).1 = (configLoad A none).1 := by
  refine ⟨writtenDefaults, rfl, ?_⟩
  have hplain : ∀ ℓ ∈ lines newline (textMode writtenDefaults), Plain ℓ := by decide +kernel
  have hdefaults : lineWise (lines newline (textMode writtenDefaults)) = defaults := by decide +kernel
  rw [(loads_of_plain hplain).whole, hdefaults]
  rfl

def wrapInt (neg : Bool) (n : Nat) : Int32 := if neg then -Int32.ofNat n else Int32.ofNat n

theorem wrapInt_exact : ∀ n < 2 ^ 31, wrapInt false n = Int32.ofNat n := fun _ _ => rfl

/-- An `atoi` that cuts numbers to 32 bits. -/
def wrapAtoi : Atoi := ⟨wrapInt, wrapInt_exact⟩

/-- A long comment, a port that is none and later one that is, and an address in front of much else. -/
def mixedFile : List Text := [hash :: List.replicate 300 0x78 ++ text "\n", text "tap_port=auto\n", text "tap_port=4000\n",
  text "tap_addr=10.0.0.1 " ++ List.replicate 300 0x78 ++ text "\n"]

/-- Its last lines for the port and for the address are clean, and no line is for the driver. -/
theorem loads_kept_mixed : LoadsLineWise wrapAtoi mixedFile.flatten ∧
    (configLoad wrapAtoi (some mixedFile.flatten)).1 = ⟨.linuxTap, text "10.0.0.1", 4000⟩ := by
  have hlines : lines newline (textMode mixedFile.flatten) = mixedFile := by decide +kernel
  have hkept : Kept wrapAtoi (lines newline (textMode mixedFile.flatten)) := by
    rw [hlines]
    refine ⟨.inl (by decide +kernel), .inr ⟨mixedFile.take 3, _, [], rfl, by decide +kernel, by simp⟩,
      .inl (.inr ⟨mixedFile.take 2, _, mixedFile.drop 3, rfl, by decide +kernel, by decide +kernel⟩)⟩
  have hloads := (loads_kept wrapAtoi mixedFile.flatten).1 hkept
  refine ⟨hloads, hloads.whole.trans ?_⟩
  rw [hlines]
  decide +kernel

/-- A comment of 255 characters and a port. -/
def longComment : Text := hash :: List.replicate 254 0x78 ++ text "tap_port=1\n"

/-- 65536 is not a port but sets it to 0, a text sets it to 0 as well, and the end of a long comment sets it to what is
written there. -/
theorem port_differs : ¬ LoadsLineWise wrapAtoi (text "tap_port=65536\n") ∧
    ¬ LoadsLineWise wrapAtoi (text "tap_port=auto\n") ∧ ¬ LoadsLineWise wrapAtoi longComment := by
  refine ⟨fun h => ?_, fun h => ?_, fun h => ?_⟩
  · exact absurd h.tapPort (by decide +kernel)
  · exact absurd h.tapPort (by decide +kernel)
  · exact absurd h.tapPort (by decide +kernel)

end Rvpn.Config
