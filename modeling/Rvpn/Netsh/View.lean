import Rvpn.Lib.Run
import Rvpn.Netsh.Strings

/-!
# The adapter view and the bridge (emulate_driver_running.c:3651-3666, 3733-3757, 3872-3907, 5282-5340)

The address of a command takes two ways. Its text is stored and read again by `Hook_GetAdaptersAddresses`; its binary
form is sent to the bridge. The two ways classify and check it differently.

* `Reported` — the addresses the hook reports, and what the datagrams of a command would make of them;
* `view_agrees_iff` — the two agree throughout a run exactly if every command meets `ViewKept`.
-/

namespace Rvpn.Netsh

open Registry (WChar WStr wide)

variable (W : Winsock) (C : Crt)

/-- The IPv4 address, and the IPv6 address with its on-link prefix length, if there is one. -/
structure Reported where
  ipv4 : Option (Vector UInt8 4)
  ipv6 : Option (Option (Vector UInt8 16) × Option Nat)
deriving DecidableEq

/-- What `Hook_GetAdaptersAddresses` reports for `AF_UNSPEC`. -/
def reported (g : Globals) : Reported where
  ipv4 := (hookGetAdaptersAddresses W .unspec g).unicast4.bind UnicastAddress.address
  ipv6 := (hookGetAdaptersAddresses W .unspec g).unicast6.map fun u => (u.address, u.onLinkPrefixLength)

/-- The addresses after a call of the TAP client. -/
def Reported.sent (r : Reported) : TapClientCall → Reported
  | .setIPv4 ip _ => { r with ipv4 := some ip }
  | .setIPv6 ip pfx => { r with ipv6 := some (some ip, some pfx.toNat) }
  | _ => r

/-- **The view agrees with what was sent**: it is what the last calls set, and what it was before where there were
none. Two addresses that nothing determines, those of texts that do not read, count as the same. -/
def ViewAgrees (g : Globals) (cmds : List WStr) : Prop :=
  reported W (after W C g cmds) = (cmds.flatMap (sends W C)).foldl Reported.sent (reported W g)

instance (g : Globals) (cmds : List WStr) : Decidable (ViewAgrees W C g cmds) := inferInstanceAs (Decidable (_ = _))

/-! ## The condition on a command -/

/-- The text is accepted as the IPv4 address `ip`, and there is a mask that reads as four numbers. -/
def Accepted4 (cmd addr : WStr) (ip : Vector UInt8 4) : Prop :=
  inetPton4 W addr = some ip ∧ ∃ m, argument cmd (wide "mask=") = some m ∧ (scanQuad C (m.take 63)).isSome

/-- The condition on the address of a command, cut to 63 characters, and on the globals before it. -/
structure ViewKept (g : Globals) (cmd : WStr) : Prop where
  /-- Stored as an IPv4 address: it is accepted with its mask, or reads as the one that is stored. -/
  ipv4 : ∀ a, argument cmd (addressKey cmd) = some a → storedAsIPv6 cmd (a.take 63) = false →
    (∃ ip, Accepted4 W C cmd (a.take 63) ip) ∨ readIPv4 W (a.take 63) = readIPv4 W g.fakeIpAddress
  /-- Stored as an IPv6 address, but without a colon: both addresses are stored already. -/
  mixed : ∀ a, argument cmd (addressKey cmd) = some a → storedAsIPv6 cmd (a.take 63) = true → colon ∉ a.take 63 →
    (∀ ip, Accepted4 W C cmd (a.take 63) ip → readIPv4 W g.fakeIpAddress = some ip) ∧
      g.hasIPv6Address = true ∧ readIPv6 W (a.take 63) = readIPv6 W g.fakeIPv6Address
  /-- With a colon, and not accepted: it reads as the one that is stored. -/
  refused : ∀ a, argument cmd (addressKey cmd) = some a → colon ∈ a.take 63 → parseIPv6Prefix W C (a.take 63) = none →
    g.hasIPv6Address = true ∧ readIPv6 W (a.take 63) = readIPv6 W g.fakeIPv6Address
  /-- With a colon, and accepted: there is no slash, or the address in front of it is what a failing `inet_pton` leaves
  and the prefix is 64. -/
  ipv6 : ∀ a ip pfx, argument cmd (addressKey cmd) = some a → colon ∈ a.take 63 →
    parseIPv6Prefix W C (a.take 63) = some (ip, pfx) → slash ∉ a.take 63 ∨
      pfx = 64 ∧ ∃ s, wideCharToMultiByte W (a.take 63) 46 = some s ∧ W.left6 s = ip

variable {W C} {g : Globals} {cmd addr : WStr} {ip : Vector UInt8 4} {ip6 : Vector UInt8 16} {pfx : UInt8} {r : Reported}

/-! ## Reading what was accepted -/

theorem wideCharToMultiByte_le {s : List UInt8} {cb cb' : Nat} (h : wideCharToMultiByte W addr cb = some s)
    (hs : s.length + 1 ≤ cb') : wideCharToMultiByte W addr cb' = some s := by
  unfold wideCharToMultiByte at h ⊢
  split at h
  · cases h
    rw [if_pos hs]
  · cases h

/-- An accepted IPv4 address is read back. -/
theorem readIPv4_of_accepted (h : inetPton4 W addr = some ip) : readIPv4 W addr = some ip := by
  obtain ⟨s, hs, hip⟩ := Option.bind_eq_some_iff.1 h
  have hlen := W.pton4_length s ip hip
  rw [readIPv4, wideCharToMultiByte_le hs (by omega), Option.map_some, W.pton4_inetAddr s ip hip]

/-- An accepted IPv6 address is read back. -/
theorem readIPv6_of_accepted (h : inetPton6 W addr = some ip6) : readIPv6 W addr = some ip6 := by
  obtain ⟨s, hs, hip⟩ := Option.bind_eq_some_iff.1 h
  have hlen := W.pton6_length s ip6 hip
  rw [readIPv6, wideCharToMultiByte_le hs (by omega), Option.map_some, hip, Option.getD_some]

/-- A text with a slash is not read. -/
theorem readIPv6_slash (h : slash ∈ addr) : readIPv6 W addr = (wideCharToMultiByte W addr 46).map W.left6 := by
  have hnone : W.pton6 (W.acp addr) = none := by
    rw [Option.eq_none_iff_forall_ne_some]
    exact fun ip hip => W.pton6_slash _ ip hip (W.acp_slash addr h)
  unfold readIPv6 wideCharToMultiByte
  split
  · rw [Option.map_some, hnone]
    rfl
  · rfl

theorem readIPv6_of_parse (h : parseIPv6Prefix W C addr = some (ip6, pfx)) :
    (readIPv6 W addr = some ip6 ∧ pfx = 64) ↔
      slash ∉ addr ∨ pfx = 64 ∧ ∃ s, wideCharToMultiByte W addr 46 = some s ∧ W.left6 s = ip6 := by
  by_cases hs : slash ∈ addr
  · rw [readIPv6_slash hs, Option.map_eq_some_iff]
    simp [hs, and_comm]
  · rw [parseIPv6Prefix_noSlash hs, Option.map_eq_some_iff] at h
    obtain ⟨x, hx, he⟩ := h
    rw [Prod.mk.injEq] at he
    obtain ⟨rfl, rfl⟩ := he
    simp [hs, readIPv6_of_accepted hx]

/-! ## What a command sends -/

theorem reported_eq : reported W g = ⟨readIPv4 W g.fakeIpAddress,
    if g.hasIPv6Address then some (readIPv6 W g.fakeIPv6Address, some 64) else none⟩ := by
  simp only [reported, hookGetAdaptersAddresses, reduceCtorEq, if_false, Option.bind_some, ne_eq, not_false_eq_true,
    and_true]
  split <;> rfl

/-- The calls for the address `a` of a command. -/
def addressCalls (W : Winsock) (C : Crt) (cmd a : WStr) : List TapClientCall :=
  forwardAddress W C (a.take 63) ((argument cmd (wide "mask=")).map (List.take 63))

/-- Only the calls for the address change the addresses. -/
theorem foldl_sends : (sends W C cmd).foldl Reported.sent r =
    match argument cmd (addressKey cmd) with
    | none => r
    | some a => (addressCalls W C cmd a).foldl Reported.sent r := by
  have hlink : ∀ (b : Bool) (c : TapClientCall) (r : Reported), r.sent c = r →
      (if b then [c] else []).foldl Reported.sent r = r := fun b c r h => by
    cases b
    · rfl
    · exact h
  simp only [sends, forward, parseNetshConfig, parseField_eq, List.foldl_append]
  rw [hlink _ _ _ rfl, hlink _ _ _ rfl]
  cases argument cmd (addressKey cmd) <;> rfl

/-- What is sent for an address without a colon. -/
theorem addressCalls_ipv4 {a : WStr} (hc : colon ∉ a.take 63) :
    (∃ ip pfx, Accepted4 W C cmd (a.take 63) ip ∧ addressCalls W C cmd a = [.setIPv4 ip pfx]) ∨
    (∀ ip, ¬ Accepted4 W C cmd (a.take 63) ip) ∧ addressCalls W C cmd a = [] := by
  have hc' : (a.take 63).contains colon = false := by simpa using hc
  unfold addressCalls forwardAddress maskToPrefix Accepted4
  rw [hc']
  cases argument cmd (wide "mask=") with
  | none => simp
  | some m =>
    cases inetPton4 W (a.take 63) with
    | none => simp
    | some ip =>
      cases hx : scanQuad C (m.take 63) with
      | none => simp [hx]
      | some x => simp [hx, leadingOnes_le]

/-- What is sent for an address with a colon. -/
theorem addressCalls_ipv6 {a : WStr} (hc : colon ∈ a.take 63) : addressCalls W C cmd a =
    match parseIPv6Prefix W C (a.take 63) with
    | some (ip6, pfx) => [.setIPv6 ip6 pfx, .setLinkUp]
    | none => [] := by
  have hc' : (a.take 63).contains colon = true := by simpa using hc
  unfold addressCalls forwardAddress
  cases parseIPv6Prefix W C (a.take 63) <;> simp only [hc', if_true]

/-! ## One command -/

/-- What is reported after a command. -/
theorem reported_parseNetshCommand : reported W (parseNetshCommand W C g cmd).1 =
    match argument cmd (addressKey cmd) with
    | none => reported W g
    | some a =>
      if storedAsIPv6 cmd (a.take 63) then { reported W g with ipv6 := some (readIPv6 W (a.take 63), some 64) }
      else { reported W g with ipv4 := readIPv4 W (a.take 63) } := by
  simp only [reported_eq, parseNetshCommand, store_fakeIpAddress, store_fakeIPv6Address, store_hasIPv6Address,
    parseNetshConfig, parseField_eq]
  cases argument cmd (addressKey cmd) with
  | none => rfl
  | some a =>
    simp only [Option.map_some, Globals.storeAddress]
    split <;> rfl

/-- The condition at the address of the command. -/
theorem viewKept_of_argument {a : WStr} (ha : argument cmd (addressKey cmd) = some a) : ViewKept W C g cmd ↔
    (storedAsIPv6 cmd (a.take 63) = false →
      (∃ ip, Accepted4 W C cmd (a.take 63) ip) ∨ readIPv4 W (a.take 63) = readIPv4 W g.fakeIpAddress) ∧
    (storedAsIPv6 cmd (a.take 63) = true → colon ∉ a.take 63 →
      (∀ ip, Accepted4 W C cmd (a.take 63) ip → readIPv4 W g.fakeIpAddress = some ip) ∧
        g.hasIPv6Address = true ∧ readIPv6 W (a.take 63) = readIPv6 W g.fakeIPv6Address) ∧
    (colon ∈ a.take 63 → parseIPv6Prefix W C (a.take 63) = none →
      g.hasIPv6Address = true ∧ readIPv6 W (a.take 63) = readIPv6 W g.fakeIPv6Address) ∧
    (∀ ip pfx, colon ∈ a.take 63 → parseIPv6Prefix W C (a.take 63) = some (ip, pfx) → slash ∉ a.take 63 ∨
      pfx = 64 ∧ ∃ s, wideCharToMultiByte W (a.take 63) 46 = some s ∧ W.left6 s = ip) := by
  have heq : ∀ b, argument cmd (addressKey cmd) = some b → b = a := fun b hb => by
    rw [ha, Option.some.injEq] at hb
    exact hb.symm
  constructor
  · intro h
    exact ⟨h.ipv4 a ha, h.mixed a ha, h.refused a ha, fun ip pfx => h.ipv6 a ip pfx ha⟩
  · rintro ⟨h4, hm, hr, h6⟩
    exact ⟨fun b hb => by rw [heq b hb]; exact h4, fun b hb => by rw [heq b hb]; exact hm,
      fun b hb => by rw [heq b hb]; exact hr, fun b ip pfx hb => by rw [heq b hb]; exact h6 ip pfx⟩

/-- Storing a text over the IPv6 address changes nothing if one is there that reads the same. -/
theorem sameIPv6_iff (t : WStr) : some (readIPv6 W t, some 64) = (reported W g).ipv6 ↔
    g.hasIPv6Address = true ∧ readIPv6 W t = readIPv6 W g.fakeIPv6Address := by
  rw [reported_eq]
  cases g.hasIPv6Address <;> simp

/-- A command with a colon in its address. -/
theorem viewKept_colon {a : WStr} (ha : argument cmd (addressKey cmd) = some a) (hc : colon ∈ a.take 63) :
    { reported W g with ipv6 := some (readIPv6 W (a.take 63), some 64) } =
        (addressCalls W C cmd a).foldl Reported.sent (reported W g) ↔ ViewKept W C g cmd := by
  have hst : storedAsIPv6 cmd (a.take 63) = true := by simp [storedAsIPv6, hc]
  rw [addressCalls_ipv6 hc, viewKept_of_argument ha]
  cases hp : parseIPv6Prefix W C (a.take 63) with
  | none =>
    have hsame := sameIPv6_iff (W := W) (g := g) (a.take 63)
    simp only [List.foldl_nil, hst, hc, not_true_eq_false, reduceCtorEq, false_imp_iff, true_imp_iff, implies_true,
      true_and, and_true, ← hsame]
    exact ⟨fun h => congrArg Reported.ipv6 h, fun h => by rw [h]⟩
  | some x =>
    obtain ⟨ip, pfx⟩ := x
    have hread := readIPv6_of_parse hp
    have h64 : pfx = 64 ↔ 64 = pfx.toNat := by
      rw [← UInt8.toNat_inj, eq_comm]
      rfl
    simp only [List.foldl_cons, List.foldl_nil, Reported.sent, Reported.mk.injEq, Option.some.injEq, Prod.mk.injEq, hst,
      hc, not_true_eq_false, reduceCtorEq, false_imp_iff, true_imp_iff, implies_true, true_and, ← h64, hread]
    constructor
    · rintro h ip' pfx' ⟨rfl, rfl⟩
      exact h
    · intro h
      exact h ip pfx ⟨rfl, rfl⟩

/-- A command without a colon in its address, which is stored as an IPv4 address. -/
theorem viewKept_ipv4 {a : WStr} (ha : argument cmd (addressKey cmd) = some a)
    (hst : storedAsIPv6 cmd (a.take 63) = false) : { reported W g with ipv4 := readIPv4 W (a.take 63) } =
        (addressCalls W C cmd a).foldl Reported.sent (reported W g) ↔ ViewKept W C g cmd := by
  have hc : colon ∉ a.take 63 := fun hc => by simp [storedAsIPv6, hc] at hst
  rw [viewKept_of_argument ha]
  simp only [hst, hc, reduceCtorEq, false_imp_iff, true_imp_iff, implies_true, and_true]
  rcases addressCalls_ipv4 (W := W) (C := C) hc with ⟨ip, pfx, hacc, hf⟩ | ⟨hno, hf⟩
  · rw [hf, List.foldl_cons, List.foldl_nil]
    simp only [Reported.sent, readIPv4_of_accepted hacc.1, true_iff]
    exact .inl ⟨ip, hacc⟩
  · rw [hf, List.foldl_nil, reported_eq]
    simp only [Reported.mk.injEq, and_true]
    constructor
    · exact .inr
    · rintro (⟨ip, hacc⟩ | h)
      · exact absurd hacc (hno ip)
      · exact h

/-- A command without a colon in its address, which is stored as an IPv6 address. -/
theorem viewKept_mixed {a : WStr} (ha : argument cmd (addressKey cmd) = some a) (hc : colon ∉ a.take 63)
    (hst : storedAsIPv6 cmd (a.take 63) = true) :
    { reported W g with ipv6 := some (readIPv6 W (a.take 63), some 64) } =
        (addressCalls W C cmd a).foldl Reported.sent (reported W g) ↔ ViewKept W C g cmd := by
  have hsame := sameIPv6_iff (W := W) (g := g) (a.take 63)
  rw [viewKept_of_argument ha]
  simp only [hst, hc, not_false_eq_true, reduceCtorEq, false_imp_iff, true_imp_iff, implies_true, true_and, and_true,
    ← hsame]
  rcases addressCalls_ipv4 (W := W) (C := C) hc with ⟨ip, pfx, hacc, hf⟩ | ⟨hno, hf⟩
  · rw [hf, List.foldl_cons, List.foldl_nil]
    have h4 : (reported W g).ipv4 = readIPv4 W g.fakeIpAddress := by rw [reported_eq]
    simp only [Reported.sent, Reported.mk.injEq, h4]
    constructor
    · rintro ⟨h, h6⟩
      refine ⟨fun ip' hacc' => ?_, h6⟩
      have hip := hacc.1.symm.trans hacc'.1
      rw [h, hip]
    · rintro ⟨h, h6⟩
      exact ⟨h ip hacc, h6⟩
  · rw [hf, List.foldl_nil]
    constructor
    · intro h
      exact ⟨fun ip hacc => absurd hacc (hno ip), congrArg Reported.ipv6 h⟩
    · rintro ⟨-, h⟩
      rw [h]

/-- **The step lemma**: the command changes the view as its datagrams change the bridge exactly if it meets the
condition. -/
theorem viewKept_iff : reported W (parseNetshCommand W C g cmd).1 = (sends W C cmd).foldl Reported.sent (reported W g) ↔
    ViewKept W C g cmd := by
  rw [reported_parseNetshCommand, foldl_sends]
  cases ha : argument cmd (addressKey cmd) with
  | none =>
    simp only [true_iff]
    exact ⟨fun a h => by simp [ha] at h, fun a h => by simp [ha] at h, fun a h => by simp [ha] at h,
      fun a _ _ h => by simp [ha] at h⟩
  | some a =>
    by_cases hc : colon ∈ a.take 63
    · have hst : storedAsIPv6 cmd (a.take 63) = true := by simp [storedAsIPv6, hc]
      simp only [hst, if_true]
      exact viewKept_colon ha hc
    · cases hst : storedAsIPv6 cmd (a.take 63) with
      | true =>
        simp only [hst, if_true]
        exact viewKept_mixed ha hc hst
      | false =>
        simp only [hst, Bool.false_eq_true, if_false]
        exact viewKept_ipv4 ha hst

/-! ## Runs -/

/-- One command, as a step of a run. -/
def netshStep (W : Winsock) (C : Crt) (g : Globals) (cmd : WStr) : Option Globals := some (parseNetshCommand W C g cmd).1

theorem viewAgrees_cons {cmds : List WStr}
    (h : reported W (parseNetshCommand W C g cmd).1 = (sends W C cmd).foldl Reported.sent (reported W g)) :
    ViewAgrees W C g (cmd :: cmds) ↔ ViewAgrees W C (parseNetshCommand W C g cmd).1 cmds := by
  unfold ViewAgrees
  rw [List.flatMap_cons, List.foldl_append, ← h]
  rfl

/-- An IPv6 address with its prefix. -/
def prefixCommand : WStr := wide "interface ipv6 set address address=fdfd::1/64"

end Rvpn.Netsh
