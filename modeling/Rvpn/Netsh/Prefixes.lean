import Mathlib.Data.Nat.Bitwise
import Rvpn.Netsh.Mask
import Rvpn.Netsh.Strings

/-!
# The two prefix lengths of a mask (emulate_driver_running.c:3636-3649, 5298-5308)

`MaskToPrefix` puts the first octet of the mask in front; `Hook_GetAdaptersAddresses` counts in the word that `inet_addr`
returns, which has the last octet in front. Besides, `inet_addr` reads a part that starts with a zero as octal.

* `leadingOnes_maskWord` — the counting loop octet by octet;
* `prefixes_agree_iff` — the masks for which both computations give the same length.
-/

namespace Rvpn.Netsh

open Registry (WChar WStr wide)

/-! ## `inet_addr` -/

/-- The value of octal digits. -/
def octal (ds : List (Fin 10)) : Option Nat :=
  if ∀ d ∈ ds, d.val < 8 then some (ds.foldl (fun n d => 8 * n + d.val) 0) else none

/-- A part of an address as C writes numbers: octal if it starts with a zero. -/
def inetPart (s : WStr) : Option UInt8 :=
  let ds := (Decimal.span asciiDigit s).1
  if ds.head? = some 0 then (octal ds).map UInt8.ofNat else octet s

theorem size_quad (a b c d : UInt8) : #[a, b, c, d].size = 4 := rfl

def inetQuad (s : WStr) : Option (Vector UInt8 4) :=
  match s.splitOn dot with
  | [a, b, c, d] => do
    let a ← inetPart a
    let b ← inetPart b
    let c ← inetPart c
    let d ← inetPart d
    some ⟨#[a, b, c, d], size_quad a b c d⟩
  | _ => none

/-- `INADDR_NONE`. -/
def inaddrNone : Vector UInt8 4 := .replicate 4 0xFF

/-- The octets `inet_addr` makes of a dotted quad. -/
def inetOctets (s : WStr) : Vector UInt8 4 := (inetQuad s).getD inaddrNone

/-- `inet_addr` reads the parts of a dotted quad as numbers of C, and refuses the text if one of them is none. -/
structure InetAddr (W : Winsock) : Prop where
  quad : ∀ s, (dottedQuad s).isSome → W.inetAddr (W.acp s) = inetOctets s

/-! ## The two lengths -/

variable (W : Winsock) (C : Crt)

/-- `pUni4->OnLinkPrefixLength`. -/
def onLinkPrefixLength (family : Family) (g : Globals) : Option Nat :=
  (hookGetAdaptersAddresses W family g).unicast4.bind UnicastAddress.onLinkPrefixLength

/-- **The two computations agree** on the stored mask. -/
def PrefixesAgree (family : Family) (g : Globals) : Prop :=
  ∃ n, onLinkPrefixLength W family g = some n ∧ maskToPrefix C g.fakeIpSubnet = some n

/-- How many ones an octet starts with. -/
def ones (b : UInt8) : Nat := leadingOnes b.toUInt32 8

/-- The octets of the two lists start with equally many ones, pair by pair as long as these are `255`. -/
def SameOnes : List UInt8 → List UInt8 → Prop
  | b :: bs, c :: cs => ones b = ones c ∧ (b = 255 → SameOnes bs cs)
  | [], [] => True
  | _, _ => False

instance : ∀ bs cs, Decidable (SameOnes bs cs)
  | b :: bs, c :: cs =>
    have := instDecidableSameOnes bs cs
    inferInstanceAs (Decidable (ones b = ones c ∧ (b = 255 → SameOnes bs cs)))
  | [], [] => isTrue trivial
  | [], _ :: _ => isFalse id
  | _ :: _, [] => isFalse id

variable {W C} {s : WStr} {o : Vector UInt8 4} {g : Globals} {family : Family} {b c : UInt8} {mask : UInt32} {k : Nat}

/-! ## Counting octet by octet -/

theorem and_bit_ne_zero (hk : k < 32) : mask &&& (1 <<< UInt32.ofNat k) ≠ 0 ↔ mask.toNat.testBit k = true := by
  have hbit : (1 <<< UInt32.ofNat k : UInt32).toNat = 2 ^ k := by
    rw [UInt32.toNat_shiftLeft, UInt32.toNat_ofNat', Nat.mod_eq_of_lt (by omega : k < 2 ^ 32), Nat.mod_eq_of_lt hk]
    simp only [UInt32.toNat_one, Nat.one_shiftLeft]
    exact Nat.mod_eq_of_lt (Nat.pow_lt_pow_right (by decide) hk)
  rw [ne_eq, ← UInt32.toNat_inj, UInt32.toNat_and, hbit, Nat.and_two_pow]
  cases mask.toNat.testBit k <;> simp

theorem leadingOnes_succ (hk : k < 32) :
    leadingOnes mask (k + 1) = if mask.toNat.testBit k then 1 + leadingOnes mask k else 0 := by
  rw [leadingOnes]
  simp only [and_bit_ne_zero hk]

/-- The loop over `j` bits of an octet, wherever in the word they are. -/
theorem leadingOnes_add {j : Nat} (hj : j ≤ 8) (hk : k + j ≤ 32)
    (h : ∀ i < j, mask.toNat.testBit (k + i) = b.toNat.testBit i) :
    leadingOnes mask (k + j) =
      if leadingOnes b.toUInt32 j = j then j + leadingOnes mask k else leadingOnes b.toUInt32 j := by
  induction j with
  | zero => simp [leadingOnes]
  | succ j ih =>
    have hle := leadingOnes_le b.toUInt32 j
    have hb : b.toUInt32.toNat.testBit j = mask.toNat.testBit (k + j) := by
      rw [UInt8.toNat_toUInt32, h j (Nat.lt_succ_self j)]
    rw [← Nat.add_assoc, leadingOnes_succ (by omega), leadingOnes_succ (by omega), hb,
      ih (by omega) (by omega) fun i hi => h i (by omega)]
    cases mask.toNat.testBit (k + j) with
    | false => simp
    | true =>
      simp only [if_true]
      split <;> split <;> omega

theorem ones_le : ones b ≤ 8 := leadingOnes_le _ _

theorem ones_eq_eight : ones b = 8 ↔ b = 255 := by
  have hall : ∀ n : Fin 256, ones (UInt8.ofNat n) = 8 ↔ n.val = 255 := by decide +kernel
  have hb := hall ⟨b.toNat, b.toNat_lt⟩
  rw [UInt8.ofNat_toNat] at hb
  rw [hb, ← UInt8.toNat_inj]
  rfl

/-- How many ones a row of octets starts with. -/
def onesOf : List UInt8 → Nat
  | [] => 0
  | b :: bs => if b = 255 then 8 + onesOf bs else ones b

theorem leadingOnes_octet (hk : k + 8 ≤ 32) (h : ∀ i < 8, mask.toNat.testBit (k + i) = b.toNat.testBit i) {bs : List UInt8}
    (hbs : leadingOnes mask k = onesOf bs) : leadingOnes mask (k + 8) = onesOf (b :: bs) := by
  rw [leadingOnes_add (Nat.le_refl 8) hk h, hbs, onesOf]
  simp only [← ones_eq_eight]
  rfl

theorem testBit_octet {j : Nat} (h : 8 ≤ j) : b.toNat.testBit j = false :=
  Nat.testBit_lt_two_pow (Nat.lt_of_lt_of_le b.toNat_lt (Nat.pow_le_pow_right (by decide) h))

theorem testBit_maskWord (o : Vector UInt8 4) {j : Nat} (hj : j < 32) :
    (maskWord (octetWords o)).toNat.testBit j =
      if 24 ≤ j then o[0].toNat.testBit (j - 24)
      else if 16 ≤ j then o[1].toNat.testBit (j - 16)
      else if 8 ≤ j then o[2].toNat.testBit (j - 8)
      else o[3].toNat.testBit j := by
  have hshift : ∀ (b : UInt8) (n : UInt32), n.toNat < 32 →
      (b.toUInt32 <<< n).toNat.testBit j = (decide (n.toNat ≤ j) && b.toNat.testBit (j - n.toNat)) := fun b n hn => by
    rw [UInt32.toNat_shiftLeft, Nat.mod_eq_of_lt hn, Nat.testBit_mod_two_pow, Nat.testBit_shiftLeft, decide_eq_true hj,
      Bool.true_and, UInt8.toNat_toUInt32]
  simp only [maskWord, octetWords, UInt32.toNat_or, Nat.testBit_or, hshift _ 24 (by decide), hshift _ 16 (by decide),
    hshift _ 8 (by decide), UInt8.toNat_toUInt32, UInt32.reduceToNat]
  by_cases h24 : 24 ≤ j
  · simp [h24, show 16 ≤ j by omega, show 8 ≤ j by omega, testBit_octet (show 8 ≤ j - 16 by omega),
      testBit_octet (show 8 ≤ j - 8 by omega), testBit_octet (show 8 ≤ j by omega)]
  by_cases h16 : 16 ≤ j
  · simp [h24, h16, show 8 ≤ j by omega, testBit_octet (show 8 ≤ j - 8 by omega),
      testBit_octet (show 8 ≤ j by omega)]
  by_cases h8 : 8 ≤ j
  · simp [h24, h16, h8, testBit_octet h8]
  · simp [h24, h16, h8]

theorem toList_quad (o : Vector UInt8 4) : o.toList = [o.get 0, o.get 1, o.get 2, o.get 3] := by
  refine List.ext_getElem (by simp) fun i hi _ => ?_
  rw [Vector.length_toList] at hi
  interval_cases i <;> rfl

/-- **The counting loop** looks at the octets from the first on. -/
theorem leadingOnes_maskWord (o : Vector UInt8 4) :
    leadingOnes (maskWord (octetWords o)) 32 = onesOf o.toList := by
  rw [toList_quad]
  apply leadingOnes_octet (k := 24) (by decide)
  · intro i hi
    rw [testBit_maskWord o (by omega), if_pos (by omega), Nat.add_sub_cancel_left]
    rfl
  apply leadingOnes_octet (k := 16) (by decide)
  · intro i hi
    rw [testBit_maskWord o (by omega), if_neg (by omega), if_pos (by omega), Nat.add_sub_cancel_left]
    rfl
  apply leadingOnes_octet (k := 8) (by decide)
  · intro i hi
    rw [testBit_maskWord o (by omega), if_neg (by omega), if_neg (by omega), if_pos (by omega), Nat.add_sub_cancel_left]
    rfl
  apply leadingOnes_octet (k := 0) (by decide)
  · intro i hi
    rw [testBit_maskWord o (by omega), if_neg (by omega), if_neg (by omega), if_neg (by omega), Nat.zero_add]
    rfl
  rfl

/-- In the word of `inet_addr` it looks at the octets from the last on. -/
theorem leadingOnes_sAddr (o : Vector UInt8 4) : leadingOnes (sAddr o) 32 = onesOf o.toList.reverse := by
  rw [toList_quad]
  exact leadingOnes_maskWord ⟨#[o.get 3, o.get 2, o.get 1, o.get 0], size_quad _ _ _ _⟩

theorem onesOf_eq_iff {bs cs : List UInt8} (h : bs.length = cs.length) : onesOf bs = onesOf cs ↔ SameOnes bs cs := by
  induction bs generalizing cs with
  | nil =>
    obtain rfl := List.length_eq_zero_iff.1 h.symm
    simp [SameOnes]
  | cons b bs ih =>
    cases cs with
    | nil => cases h
    | cons c cs =>
      have ihc := ih (Nat.succ.inj h)
      have hb := ones_eq_eight (b := b)
      have hc := ones_eq_eight (b := c)
      have hbl := ones_le (b := b)
      have hcl := ones_le (b := c)
      simp only [onesOf, SameOnes, ← ihc, ← hb, ← hc]
      split <;> split <;> omega

/-! ## The result -/

/-- The prefix sent with an address is that of the mask text stored. -/
theorem sent_prefix {cmd : WStr} {ip : Vector UInt8 4} {pfx : UInt8} (h : .setIPv4 ip pfx ∈ sends W C cmd) :
    (maskToPrefix C (parseNetshCommand W C g cmd).1.fakeIpSubnet).map UInt8.ofNat = some pfx := by
  obtain ⟨a, m, x, -, hm, -, -, hx, rfl⟩ := setIPv4_mem_sends.1 h
  rw [(texts_parseNetshCommand W C g cmd).2.1, hm, Option.map_some, Option.getD_some, maskToPrefix, hx]
  rfl

theorem readIPv4_of_dottedQuad (hW : InetAddr W) (hs : (dottedQuad s).isSome) : readIPv4 W s = some (inetOctets s) := by
  obtain ⟨t, ht, -⟩ := convert_of_dottedQuad (W := W) hs
  have hacp : t = W.acp s := by
    unfold wideCharToMultiByte at ht
    split at ht
    · exact (Option.some.inj ht).symm
    · cases ht
  rw [readIPv4, ht, Option.map_some, hacp, hW.quad s hs]

/-- **The two computations agree** exactly if the octets of the mask from the first on, and its octets as `inet_addr`
reads them from the last on, start with equally many ones, pair by pair as long as they are `255`. -/
theorem prefixes_agree_iff (C : Crt) (hW : InetAddr W) (hf : family ≠ .inet6) (ho : dottedQuad g.fakeIpSubnet = some o) :
    PrefixesAgree W C family g ↔ SameOnes o.toList (inetOctets g.fakeIpSubnet).toList.reverse := by
  have hread := readIPv4_of_dottedQuad hW (by rw [ho]; rfl)
  have honlink : onLinkPrefixLength W family g = some (onesOf (inetOctets g.fakeIpSubnet).toList.reverse) := by
    rw [onLinkPrefixLength, hookGetAdaptersAddresses, if_neg hf, Option.bind_some, hread, Option.map_some,
      leadingOnes_sAddr]
  have hmask : maskToPrefix C g.fakeIpSubnet = some (onesOf o.toList) := by
    rw [maskToPrefix, scanQuad_of_dottedQuad ho, Option.map_some, leadingOnes_maskWord]
  rw [PrefixesAgree, honlink, hmask, ← onesOf_eq_iff (by simp)]
  constructor
  · rintro ⟨n, hn, hn'⟩
    rw [Option.some.inj hn', Option.some.inj hn]
  · exact fun h => ⟨_, rfl, by rw [h]⟩

/-- Of the netmasks, only the empty and the full one are read the same from both ends. -/
theorem sameOnes_netmask {pfx : UInt8} (h : netmask pfx = some o) :
    SameOnes o.toList o.toList.reverse ↔ pfx = 0 ∨ pfx = 32 := by
  have hle := le_of_netmask h
  have hall : ∀ k : Fin 33, ((netmask (UInt8.ofNat k)).all fun o =>
      decide (SameOnes o.toList o.toList.reverse ↔ UInt8.ofNat k = 0 ∨ UInt8.ofNat k = 32)) = true := by
    decide +kernel
  have hk := hall ⟨pfx.toNat, Nat.lt_succ_of_le (UInt8.le_iff_toNat_le.1 hle)⟩
  rw [UInt8.ofNat_toNat, h, Option.all_some, decide_eq_true_eq] at hk
  exact hk

/-! ## A system -/

theorem widen_ascii {c : WChar} (h : c.1.toNat < 128) : widen c.1.toUInt8 = c := by
  have hc : c.1.toUInt8.toUInt16 = c.1 := by
    apply UInt16.toNat_inj.1
    rw [UInt8.toNat_toUInt16, UInt16.toNat_toUInt8]
    omega
  rw [widen, dif_pos (by rw [hc]; exact c.2)]
  exact Subtype.ext hc

/-- As `asciiWinsock`; a part that starts with a zero is octal for `inet_addr`, and refused by `inet_pton` unless it
reads the same. -/
def octalWinsock : Winsock :=
  { asciiWinsock with
    pton4 := fun s => (dottedQuad (s.map widen)).filter fun o => inetQuad (s.map widen) = some o
    inetAddr := fun s => inetOctets (s.map widen)
    pton4_length := fun s ip h => by
      obtain ⟨h, -⟩ := Option.filter_eq_some_iff.1 h
      simpa using length_of_dottedQuad h
    pton4_inetAddr := fun s ip h => by
      obtain ⟨-, h⟩ := Option.filter_eq_some_iff.1 h
      rw [inetOctets, of_decide_eq_true h, Option.getD_some] }

theorem octalWinsock_inetAddr : InetAddr octalWinsock := by
  refine ⟨fun s hs => ?_⟩
  obtain ⟨o, ho⟩ := Option.isSome_iff_exists.1 hs
  have hascii := ascii_of_dottedQuad ho
  have hacp : (octalWinsock.acp s).map widen = s := by
    rw [octalWinsock.acp_ascii s hascii, List.map_map]
    exact (List.map_congr_left fun c hc => widen_ascii (hascii c hc)).trans (List.map_id s)
  change inetOctets ((octalWinsock.acp s).map widen) = inetOctets s
  rw [hacp]

theorem prefixes_agree_iff_full : PrefixesAgree octalWinsock asciiCrt .unspec
    { Globals.init with fakeIpSubnet := wide "255.255.255.255" } :=
  (prefixes_agree_iff asciiCrt octalWinsock_inetAddr (by decide) (o := .replicate 4 255) (by decide)).2 (by decide)

/-- The mask before any command, `255.0.0.0`, has the prefix 8; 0 is reported. -/
theorem prefix_differs : maskToPrefix asciiCrt Globals.init.fakeIpSubnet = some 8 ∧
    onLinkPrefixLength octalWinsock .inet .init = some 0 ∧ ¬ PrefixesAgree octalWinsock asciiCrt .inet .init := by
  have hmask : maskToPrefix asciiCrt Globals.init.fakeIpSubnet = some 8 := by decide
  have honlink : onLinkPrefixLength octalWinsock .inet .init = some 0 := by decide
  refine ⟨hmask, honlink, ?_⟩
  rintro ⟨n, hn, hn'⟩
  rw [honlink, Option.some.injEq] at hn
  rw [hmask, Option.some.injEq] at hn'
  omega

end Rvpn.Netsh
