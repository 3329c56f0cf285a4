import Rvpn.Netsh.Command

/-!
# Masks and prefixes from the command to the bridge (emulate_driver_running.c:3636-3666, linux_tap.c:79-108)

The mask of a command becomes a prefix length in `MaskToPrefix`, a byte of the `SET_IPV4` datagram, and a mask again in
`handle_set_ipv4`. `MaskToPrefix` counts the leading ones and looks at nothing behind them.

* `netmask` — the mask `handle_set_ipv4` computes from the prefix byte;
* `maskSurvives_iff` — the commands whose masks and prefixes come through unchanged.
-/

namespace Rvpn.Netsh

open Registry (WChar WStr wide)

/-- `(prefix == 0) ? 0 : htonl(~((1ULL << (32 - prefix)) - 1))`, as it lies in memory; a shift by a negative number is
undefined. -/
def netmask (pfx : UInt8) : Option (Vector UInt8 4) :=
  if pfx = 0 then some #v[0, 0, 0, 0]
  else if pfx ≤ 32 then
    let mask := (~~~((1 : UInt64) <<< (32 - pfx).toUInt64 - 1)).toUInt32
    some #v[(mask >>> 24).toUInt8, (mask >>> 16).toUInt8, (mask >>> 8).toUInt8, mask.toUInt8]
  else none

variable (W : Winsock) (C : Crt)

/-- **Netmask and prefix survive end to end.** -/
structure MaskSurvives (cmd : WStr) : Prop where
  /-- What the bridge sets when it receives a `SET_IPV4` of this command is the mask written in it. -/
  ipv4 : ∀ ip pfx, .setIPv4 ip pfx ∈ sends W C cmd → ∃ m o, argument cmd (wide "mask=") = some m ∧
    dottedQuad m = some o ∧ netmask pfx = some o ∧
    ∀ b i, Receives i (TapClientCall.setIPv4 ip pfx).datagram → (round b i).change = some (.setIpv4 ip.toList pfx)
  /-- The prefix of a `SET_IPV6` is the number written behind the slash. -/
  ipv6 : ∀ t n ip pfx, argument cmd (addressKey cmd) = some (t ++ slash :: n) → slash ∉ t →
    .setIPv6 ip pfx ∈ sends W C cmd → ∃ k ≤ 128, decimal n = some k ∧ pfx = UInt8.ofNat k

/-- The condition on the arguments of a command; the parser looks at the first 63 characters of each. -/
structure WellMasked (cmd : WStr) : Prop where
  /-- An address that is accepted with a mask that reads as four numbers: the mask is a dotted quad of leading ones. -/
  ipv4 : ∀ a m, argument cmd (addressKey cmd) = some a → argument cmd (wide "mask=") = some m →
    colon ∉ a.take 63 → (inetPton4 W (a.take 63)).isSome → (scanQuad C (m.take 63)).isSome →
    ∃ o k, dottedQuad m = some o ∧ netmask k = some o
  /-- An address that is accepted and has a slash: a decimal number up to 128 stands behind it, and all of it fits, or
  it is zero. When the slash is beyond the first 63 characters, the number is the default. -/
  ipv6 : ∀ t n, argument cmd (addressKey cmd) = some (t ++ slash :: n) → slash ∉ t →
    colon ∈ (t ++ slash :: n).take 63 → (inetPton6 W (t.take 63)).isSome →
    ∃ k ≤ 128, decimal n = some k ∧
      if t.length < 63 then (t ++ slash :: n).length ≤ 63 ∨ k = 0 else k = 64

variable {W C} {cmd m t n : WStr} {k : Nat} {pfx : UInt8} {o : Vector UInt8 4}

/-! ## Masks -/

theorem le_of_netmask (h : netmask pfx = some o) : pfx ≤ 32 := by
  unfold netmask at h
  split at h
  · next h0 =>
    rw [h0]
    decide
  · split at h
    · assumption
    · cases h

/-- Counting the leading ones of the mask of a prefix gives the prefix. -/
theorem leadingOnes_netmask (h : netmask pfx = some o) :
    UInt8.ofNat (leadingOnes (maskWord (octetWords o)) 32) = pfx := by
  have hle := le_of_netmask h
  have hall : ∀ k : Fin 33, ((netmask (UInt8.ofNat k)).all fun o =>
      decide (UInt8.ofNat (leadingOnes (maskWord (octetWords o)) 32) = UInt8.ofNat k)) = true := by
    decide +kernel
  have hlt : pfx.toNat < 33 := Nat.lt_succ_of_le (UInt8.le_iff_toNat_le.1 hle)
  have hk := hall ⟨pfx.toNat, hlt⟩
  rw [UInt8.ofNat_toNat, h] at hk
  simpa using hk

/-- The mask of a prefix, written as a dotted quad, is read as that prefix. -/
theorem prefix_of_dottedQuad {x : UInt32 × UInt32 × UInt32 × UInt32} {p : UInt8} (hm : dottedQuad m = some o) (ho : netmask p = some o)
    (hx : scanQuad C (m.take 63) = some x) : UInt8.ofNat (leadingOnes (maskWord x) 32) = p := by
  have hlen := length_of_dottedQuad hm
  rw [List.take_of_length_le (by omega), scanQuad_of_dottedQuad hm, Option.some.injEq] at hx
  rw [← hx]
  exact leadingOnes_netmask ho

/-! ## Prefixes -/

theorem toUInt8_ofNat (k : Nat) : (Int32.ofNat k).toUInt32.toUInt8 = UInt8.ofNat k := by
  apply UInt8.toNat_inj.1
  simp

/-- The number the code reads behind the slash. -/
def prefixRead (C : Crt) (t n : WStr) : UInt8 :=
  if t.length < 63 then (wtoi C (n.take (62 - t.length))).toUInt32.toUInt8 else 64

theorem parseIPv6Prefix_take (ht : slash ∉ t) : parseIPv6Prefix W C ((t ++ slash :: n).take 63) =
    (inetPton6 W (t.take 63)).map fun ip6 => (ip6, prefixRead C t n) := by
  unfold prefixRead
  by_cases hlt : t.length < 63
  · have hcut : (t ++ slash :: n).take 63 = t ++ slash :: n.take (62 - t.length) := by
      rw [List.take_append, List.take_of_length_le (Nat.le_of_lt hlt),
        show 63 - t.length = (62 - t.length) + 1 by omega, List.take_succ_cons]
    rw [hcut, parseIPv6Prefix_slash ht, List.take_of_length_le (Nat.le_of_lt hlt), if_pos hlt]
  · have hcut : (t ++ slash :: n).take 63 = t.take 63 := List.take_append_of_le_length (by omega)
    rw [hcut, parseIPv6Prefix_noSlash fun h => ht (List.mem_of_mem_take h), if_neg hlt]

/-- When the prefix read is the number written. -/
theorem prefixRead_eq_iff (hn : decimal n = some k) (hk : k ≤ 128) : prefixRead C t n = UInt8.ofNat k ↔
    if t.length < 63 then (t ++ slash :: n).length ≤ 63 ∨ k = 0 else k = 64 := by
  have hinj : ∀ j ≤ 128, UInt8.ofNat j = UInt8.ofNat k ↔ j = k := fun j hj => by
    rw [← UInt8.toNat_inj, UInt8.toNat_ofNat', UInt8.toNat_ofNat']
    omega
  unfold prefixRead
  by_cases hlt : t.length < 63
  · obtain ⟨j, hj, hle, hiff⟩ := wtoi_take (C := C) hn (by omega) (62 - t.length)
    rw [if_pos hlt, if_pos hlt, hj, toUInt8_ofNat, hinj j (by omega), hiff, List.length_append, List.length_cons]
    omega
  · rw [if_neg hlt, if_neg hlt]
    have h64 := hinj 64 (by omega)
    rw [show UInt8.ofNat 64 = 64 from rfl] at h64
    rw [h64]
    exact eq_comm

/-! ## The result -/

/-- The calls a command makes for an IPv4 address. -/
theorem setIPv4_mem_sends {ip : Vector UInt8 4} : .setIPv4 ip pfx ∈ sends W C cmd ↔
    ∃ a m x, argument cmd (addressKey cmd) = some a ∧ argument cmd (wide "mask=") = some m ∧ colon ∉ a.take 63 ∧
      inetPton4 W (a.take 63) = some ip ∧ scanQuad C (m.take 63) = some x ∧
      pfx = UInt8.ofNat (leadingOnes (maskWord x) 32) := by
  unfold sends
  rw [setIPv4_mem_forward]
  simp only [parseNetshConfig, parseField_eq, setIPv4_mem_forwardAddress, Option.map_eq_some_iff]
  constructor
  · rintro ⟨_, ⟨a, ha, rfl⟩, hc, hip, _, x, ⟨m, hm, rfl⟩, hx, hp⟩
    exact ⟨a, m, x, ha, hm, by simpa using hc, hip, hx, hp⟩
  · rintro ⟨a, m, x, ha, hm, hc, hip, hx, hp⟩
    exact ⟨_, ⟨a, ha, rfl⟩, by simpa using hc, hip, _, x, ⟨m, hm, rfl⟩, hx, hp⟩

/-- The calls a command makes for an IPv6 address. -/
theorem setIPv6_mem_sends {ip : Vector UInt8 16} : .setIPv6 ip pfx ∈ sends W C cmd ↔
    ∃ a, argument cmd (addressKey cmd) = some a ∧ colon ∈ a.take 63 ∧
      parseIPv6Prefix W C (a.take 63) = some (ip, pfx) := by
  unfold sends
  rw [setIPv6_mem_forward]
  simp only [parseNetshConfig, parseField_eq, setIPv6_mem_forwardAddress, Option.map_eq_some_iff]
  constructor
  · rintro ⟨_, ⟨a, ha, rfl⟩, hc, hp⟩
    exact ⟨a, ha, by simpa using hc, hp⟩
  · rintro ⟨a, ha, hc, hp⟩
    exact ⟨_, ⟨a, ha, rfl⟩, by simpa using hc, hp⟩

/-- **Masks and prefixes come through unchanged exactly when the arguments are well formed.** -/
theorem maskSurvives_iff (W : Winsock) (C : Crt) (cmd : WStr) : MaskSurvives W C cmd ↔ WellMasked W C cmd := by
  constructor
  · intro h
    refine ⟨fun a m ha hm hc hip hx => ?_, fun t n ha ht hc hip => ?_⟩
    · obtain ⟨ip, hip⟩ := Option.isSome_iff_exists.1 hip
      obtain ⟨x, hx⟩ := Option.isSome_iff_exists.1 hx
      obtain ⟨m', o, hm', ho, hn, -⟩ := h.ipv4 ip _ (setIPv4_mem_sends.2 ⟨a, m, x, ha, hm, hc, hip, hx, rfl⟩)
      rw [hm, Option.some.injEq] at hm'
      exact ⟨o, _, hm' ▸ ho, hn⟩
    · obtain ⟨ip, hip⟩ := Option.isSome_iff_exists.1 hip
      have hparse : parseIPv6Prefix W C ((t ++ slash :: n).take 63) = some (ip, prefixRead C t n) := by
        rw [parseIPv6Prefix_take ht, hip]
        rfl
      obtain ⟨k, hk, hn, hp⟩ := h.ipv6 t n ip _ ha ht (setIPv6_mem_sends.2 ⟨_, ha, hc, hparse⟩)
      exact ⟨k, hk, hn, (prefixRead_eq_iff hn hk).1 hp⟩
  · intro h
    refine ⟨fun ip pfx hs => ?_, fun t n ip pfx ha ht hs => ?_⟩
    · obtain ⟨a, m, x, ha, hm, hc, hip, hx, rfl⟩ := setIPv4_mem_sends.1 hs
      obtain ⟨o, p, ho, hp⟩ := h.ipv4 a m ha hm hc (by rw [hip]; rfl) (by rw [hx]; rfl)
      have hpfx := prefix_of_dottedQuad ho hp hx
      exact ⟨m, o, hm, ho, by rw [hpfx]; exact hp, fun b i hr => (round_call _ hr).1⟩
    · obtain ⟨a, ha', hc, hp⟩ := setIPv6_mem_sends.1 hs
      rw [ha, Option.some.injEq] at ha'
      subst ha'
      rw [parseIPv6Prefix_take ht, Option.map_eq_some_iff] at hp
      obtain ⟨ip', hip, he⟩ := hp
      obtain ⟨k, hk, hn, hfit⟩ := h.ipv6 t n ha ht hc (by rw [hip]; rfl)
      rw [Prod.mk.injEq] at he
      exact ⟨k, hk, hn, by rw [← he.2]; exact (prefixRead_eq_iff hn hk).2 hfit⟩

/-- A command with an address and the mask `255.0.255.0`. -/
def gapCommand : WStr := wide "interface ip set address addr=10.0.0.1 mask=255.0.255.0"

/-- `255.0.255.0` is sent as a prefix of 8, for which the bridge sets `255.0.0.0`. -/
theorem mask_lost : ¬ MaskSurvives asciiWinsock asciiCrt gapCommand := by
  intro h
  have hm : argument gapCommand (wide "mask=") = some (wide "255.0.255.0") := by
    decide +kernel
  have hs : .setIPv4 #v[10, 0, 0, 1] 8 ∈ sends asciiWinsock asciiCrt gapCommand :=
    setIPv4_mem_sends.2 ⟨wide "10.0.0.1", _, (255, 0, 255, 0), by decide +kernel, hm, by decide +kernel, by decide,
      by decide, by decide⟩
  obtain ⟨m, o, hm', ho, hn, -⟩ := h.ipv4 _ _ hs
  rw [hm, Option.some.injEq] at hm'
  subst hm'
  have hquad : dottedQuad (wide "255.0.255.0") = some #v[255, 0, 255, 0] := by decide
  rw [hquad, Option.some.injEq] at ho
  subst ho
  exact absurd hn (by decide)

end Rvpn.Netsh
