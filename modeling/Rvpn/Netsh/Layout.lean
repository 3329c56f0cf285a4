import Rvpn.Netsh.Command

/-!
# Where `Hook_GetAdaptersAddresses` puts things (emulate_driver_running.c:5221-5364)

The hook asks for a buffer of `total` bytes and lays its objects out in it at fixed distances: the adapter structure,
its three texts in the 256 bytes behind it, then an entry with its socket address for each address family, and the
gateway. Two sums do not come out. The description starts 192 bytes behind the structure and takes 74, so it reaches
10 bytes over the 256; and the gateway stands behind everything that `total` counts.

* `placed` — the objects as they are placed;
* `gateway_outside`, `friendlyName_apart_iff` — what goes wrong with one of them;
* `layout_never` — no reply is laid out well.
-/

namespace Rvpn.Netsh

open Registry (WChar WStr wide)

/-- The sizes of the structures of `iptypes.h` and `ws2def.h` in a build. -/
structure Sizes where
  adapterAddresses : Nat
  unicastAddress : Nat
  gatewayAddress : Nat
  sockaddrIn : Nat
  sockaddrIn6 : Nat
  unicast_pos : 0 < unicastAddress
  gateway_pos : 0 < gatewayAddress

/-- The 32-bit build. -/
def x86 : Sizes where
  adapterAddresses := 376
  unicastAddress := 48
  gatewayAddress := 24
  sockaddrIn := 16
  sockaddrIn6 := 28
  unicast_pos := by decide
  gateway_pos := by decide

def fakeDescription : WStr := wide "Famatech Radmin VPN Ethernet Adapter"
def fakeSettingID : WStr := wide "{00000000-0000-0000-0000-000000000000}"

/-! ## The size asked for -/

variable (z : Sizes) (family : Family) (g : Globals)

def adapterSize : Nat := z.adapterAddresses + 256

def ipv4Size : Nat := if family = .inet ∨ family = .unspec then z.unicastAddress + z.sockaddrIn + 16 else 0

def ipv6Size : Nat :=
  if g.hasIPv6Address ∧ (family = .inet6 ∨ family = .unspec) then z.unicastAddress + z.sockaddrIn6 + 16 else 0

def total : Nat := adapterSize z + ipv4Size z family + ipv6Size z family g

/-! ## The objects -/

inductive Part where
  | adapter
  | adapterName
  | friendlyName
  | description
  | unicast4
  | sockaddr4
  | unicast6
  | sockaddr6
  | gateway
  | gatewaySockaddr
deriving DecidableEq, Repr

/-- The bytes of an object, from the start of the caller's buffer. -/
structure Placed where
  part : Part
  start : Nat
  size : Nat
deriving DecidableEq, Repr

/-- An ANSI text with its NUL. -/
def ansiSize (s : WStr) : Nat := s.length + 1

/-- A wide text with its NUL. -/
def wideSize (s : WStr) : Nat := 2 * (s.length + 1)

/-- The texts, each counted from the one before it. `strncpy` also clears 256 bytes from the adapter name on, which the
other two texts are then written over. -/
def texts : List Placed :=
  let name := z.adapterAddresses
  let friendly := name + 64
  let description := friendly + 128
  [⟨.adapterName, name, ansiSize fakeSettingID⟩,
   ⟨.friendlyName, friendly, wideSize g.fakeFriendlyName⟩,
   ⟨.description, description, wideSize fakeDescription⟩]

/-- An entry with its socket address right behind it. -/
def entry (part addr : Part) (start size addrSize : Nat) : List Placed := [⟨part, start, size⟩, ⟨addr, start + size, addrSize⟩]

def placed : List Placed :=
  ⟨.adapter, 0, z.adapterAddresses⟩ :: texts z g ++
  (if family = .inet ∨ family = .unspec then
    entry .unicast4 .sockaddr4 (adapterSize z) z.unicastAddress z.sockaddrIn else []) ++
  (if g.hasIPv6Address ∧ (family = .inet6 ∨ family = .unspec) then
    entry .unicast6 .sockaddr6 (adapterSize z + ipv4Size z family) z.unicastAddress z.sockaddrIn6 else []) ++
  (if family = .inet ∨ family = .unspec then
    entry .gateway .gatewaySockaddr (adapterSize z + ipv4Size z family + ipv6Size z family g) z.gatewayAddress z.sockaddrIn
   else [])

inductive AddressesReply where
  | bufferOverflow (needed : Nat)
  | success (objects : List Placed)
deriving DecidableEq, Repr

/-- `Hook_GetAdaptersAddresses` for a buffer of so many bytes, `none` for a NULL pointer. -/
def replyAdaptersAddresses : Option Nat → AddressesReply
  | none => .bufferOverflow (total z family g)
  | some size => if size < total z family g then .bufferOverflow (total z family g) else .success (placed z family g)

/-! ## A good layout -/

def Placed.Inside (total : Nat) (o : Placed) : Prop := o.start + o.size ≤ total

instance (n : Nat) (o : Placed) : Decidable (o.Inside n) := inferInstanceAs (Decidable (_ ≤ _))

/-- No byte of one is a byte of the other. -/
def Placed.Apart (o p : Placed) : Prop := ∀ b, o.start ≤ b → b < o.start + o.size → ¬ (p.start ≤ b ∧ b < p.start + p.size)

/-- **Laid out well**: everything inside the size asked for, and any two objects apart. -/
structure LaidOut (total : Nat) (objects : List Placed) : Prop where
  inside : ∀ o ∈ objects, o.Inside total
  apart : objects.Pairwise Placed.Apart

variable {z family g} {o p : Placed} {size : Nat} {objects : List Placed}

theorem Placed.apart_iff (ho : 0 < o.size) (hp : 0 < p.size) :
    o.Apart p ↔ o.start + o.size ≤ p.start ∨ p.start + p.size ≤ o.start := by
  constructor
  · intro h
    by_contra hno
    push Not at hno
    refine h (max o.start p.start) (Nat.le_max_left _ _) ?_ ⟨Nat.le_max_right _ _, ?_⟩
    · omega
    · omega
  · rintro (h | h) b hb hb' ⟨hpb, hpb'⟩
    · omega
    · omega

theorem reply_of_le (h : total z family g ≤ size) :
    replyAdaptersAddresses z family g (some size) = .success (placed z family g) := if_neg (Nat.not_lt.2 h)

theorem reply_success (h : replyAdaptersAddresses z family g (some size) = .success objects) :
    objects = placed z family g := by
  by_cases hle : total z family g ≤ size
  · rw [reply_of_le hle] at h
    exact (AddressesReply.success.inj h).symm
  · rw [replyAdaptersAddresses, if_pos (Nat.lt_of_not_le hle)] at h
    cases h

/-! ## What goes wrong -/

theorem wideSize_description : wideSize fakeDescription = 74 := by decide

/-- The description, which always has the same place. -/
def descriptionPlace (z : Sizes) : Placed := ⟨.description, z.adapterAddresses + 192, wideSize fakeDescription⟩

/-- The friendly name, 128 bytes in front of it. -/
def friendlyNamePlace (z : Sizes) (g : Globals) : Placed :=
  ⟨.friendlyName, z.adapterAddresses + 64, wideSize g.fakeFriendlyName⟩

theorem description_mem (z : Sizes) (family : Family) (g : Globals) : descriptionPlace z ∈ placed z family g := by
  simp [placed, texts, descriptionPlace, Nat.add_assoc]

/-- **The description is too long** for the 256 bytes, by 10. -/
theorem description_end (z : Sizes) : (descriptionPlace z).start + (descriptionPlace z).size = adapterSize z + 10 := by
  simp only [descriptionPlace, wideSize_description, adapterSize]

/-- A friendly name runs into the description from 64 characters on. -/
theorem friendlyName_apart_iff (z : Sizes) (family : Family) (g : Globals) : friendlyNamePlace z g ∈ placed z family g ∧
    ((friendlyNamePlace z g).Apart (descriptionPlace z) ↔ g.fakeFriendlyName.length ≤ 63) := by
  refine ⟨by simp [placed, texts, friendlyNamePlace], ?_⟩
  rw [Placed.apart_iff (Nat.succ_pos _) (Nat.succ_pos _), friendlyNamePlace, descriptionPlace, wideSize]
  constructor
  · rintro (h | h)
    · simp only at h
      omega
    · simp only [wideSize_description] at h
      omega
  · intro h
    refine .inl ?_
    simp only
    omega

/-- The gateway starts where the size asked for ends. -/
theorem gateway_mem (hf : family = .inet ∨ family = .unspec) :
    (⟨.gateway, total z family g, z.gatewayAddress⟩ : Placed) ∈ placed z family g := by
  apply List.mem_append_right
  rw [if_pos hf]
  exact List.mem_cons_self

/-- **The gateway is outside** for every family that has one. -/
theorem gateway_outside (hf : family = .inet ∨ family = .unspec) :
    ∃ o ∈ placed z family g, o.part = .gateway ∧ ¬ o.Inside (total z family g) := by
  refine ⟨_, gateway_mem hf, rfl, fun h => ?_⟩
  have hpos := z.gateway_pos
  have hend : total z family g + z.gatewayAddress ≤ total z family g := h
  omega

/-- The IPv6 entry of a reply for `AF_INET6` starts right behind the 256 bytes. -/
theorem unicast6_mem (hv6 : g.hasIPv6Address = true) : ∃ pre, placed z .inet6 g =
    pre ++ [⟨.unicast6, adapterSize z, z.unicastAddress⟩, ⟨.sockaddr6, adapterSize z + z.unicastAddress, z.sockaddrIn6⟩] ∧
      descriptionPlace z ∈ pre := by
  refine ⟨⟨.adapter, 0, z.adapterAddresses⟩ :: texts z g, ?_, ?_⟩
  · simp [placed, hv6, ipv4Size, entry]
  · simp [texts, descriptionPlace, Nat.add_assoc]

/-- **No reply is laid out well**: whatever the family, the addresses and the friendly name. -/
theorem layout_never (h : replyAdaptersAddresses z family g (some size) = .success objects) :
    ¬ LaidOut (total z family g) objects := by
  obtain rfl := reply_success h
  intro hok
  by_cases hf : family = .inet ∨ family = .unspec
  · obtain ⟨o, ho, -, hout⟩ := gateway_outside (z := z) (g := g) hf
    exact hout (hok.inside o ho)
  · -- only the description is left: over the end, or over the entry behind it
    obtain rfl : family = .inet6 := by
      cases family with
      | inet => exact absurd (.inl rfl) hf
      | inet6 => rfl
      | unspec => exact absurd (.inr rfl) hf
    have hend := description_end z
    by_cases hv6 : g.hasIPv6Address = true
    · obtain ⟨pre, hpre, hmem⟩ := unicast6_mem (z := z) hv6
      have hp := hok.apart
      rw [hpre, List.pairwise_append] at hp
      have hd : (descriptionPlace z).start + (descriptionPlace z).size ≤ adapterSize z ∨
          adapterSize z + z.unicastAddress ≤ (descriptionPlace z).start :=
        (Placed.apart_iff (Nat.succ_pos _) z.unicast_pos).1 (hp.2.2 _ hmem _ List.mem_cons_self)
      have hstart : (descriptionPlace z).start < adapterSize z := Nat.add_lt_add_left (by decide) _
      omega
    · have hin := hok.inside _ (description_mem z .inet6 g)
      have htotal : total z .inet6 g = adapterSize z := by simp [total, ipv4Size, ipv6Size, hv6]
      rw [Placed.Inside, hend, htotal] at hin
      omega

/-- All addresses, in a buffer of just the size asked for. -/
theorem layout_never_unspec :
    ¬ LaidOut (total x86 .unspec Globals.init) (placed x86 .unspec Globals.init) :=
  layout_never (reply_of_le (Nat.le_refl _))

/-- `AF_INET` without an IPv6 address: 712 bytes are asked for, and the gateway is put behind them. -/
theorem gateway_behind_buffer : total x86 .inet Globals.init = 712 ∧
    ∃ objects, replyAdaptersAddresses x86 .inet Globals.init (some 712) = .success objects ∧
      ⟨.gateway, 712, 24⟩ ∈ objects ∧ ⟨.gatewaySockaddr, 736, 16⟩ ∈ objects ∧
      ¬ LaidOut (total x86 .inet Globals.init) objects := by
  refine ⟨by decide, _, reply_of_le (by decide), by decide, by decide, fun h => ?_⟩
  exact absurd (h.inside ⟨.gateway, 712, 24⟩ (by decide)) (by decide)

end Rvpn.Netsh
