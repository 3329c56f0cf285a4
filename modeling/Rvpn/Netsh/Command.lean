import Rvpn.Device.Codec
import Rvpn.Netsh.Text

/-!
# `ParseNetshCommand` and what reads its globals (emulate_driver_running.c:1941-1951, 3636-3945, 5136-5371)

A netsh command line is parsed once. Its texts go into globals, which `Hook_GetAdaptersInfo` and
`Hook_GetAdaptersAddresses` read when the service asks; its addresses go to the bridge as datagrams, in binary.

| here | there |
| --- | --- |
| `parseNetshConfig`   | the parsing half of `ParseNetshCommand` (`:3695-3842`) |
| `Globals.store`      | the assignments to the globals (`:3747-3756`, `:3845-3870`) |
| `forwardAddress`, `forward` | `:3872-3941`; the gateway is parsed and not sent, as in the source |
| `parseNetshCommand`  | the whole function, with the `TapClientSet…` calls it makes |

`Winsock` is what the address functions of the system do. A text whose conversion does not fit the buffer leaves it
without an end (`none`): no address is accepted from there, and what is reported from there is undetermined.
-/

namespace Rvpn.Netsh

open Registry (WChar WStr wide)

/-! ## The system -/

def slashByte : UInt8 := 0x2F

/-- `WideCharToMultiByte(CP_ACP, …)`, `inet_pton` and `inet_addr`, on texts without their NUL. -/
structure Winsock where
  acp : WStr → List UInt8
  pton4 : List UInt8 → Option (Vector UInt8 4)
  pton6 : List UInt8 → Option (Vector UInt8 16)
  /-- What `inet_pton(AF_INET6, …)` leaves in a zeroed address when it fails. -/
  left6 : List UInt8 → Vector UInt8 16
  inetAddr : List UInt8 → Vector UInt8 4
  acp_ascii : ∀ w : WStr, (∀ c ∈ w, c.1.toNat < 128) → acp w = w.map fun c => c.1.toUInt8
  acp_slash : ∀ w : WStr, slash ∈ w → slashByte ∈ acp w
  pton4_length : ∀ s ip, pton4 s = some ip → s.length ≤ 15
  pton4_inetAddr : ∀ s ip, pton4 s = some ip → inetAddr s = ip
  pton6_length : ∀ s ip, pton6 s = some ip → s.length ≤ 45
  pton6_slash : ∀ s ip, pton6 s = some ip → slashByte ∉ s

variable (W : Winsock) (C : Crt)

/-- The text in a buffer of `cb` bytes, if it is complete. -/
def wideCharToMultiByte (w : WStr) (cb : Nat) : Option (List UInt8) :=
  if (W.acp w).length + 1 ≤ cb then some (W.acp w) else none

def inetPton4 (w : WStr) : Option (Vector UInt8 4) := (wideCharToMultiByte W w 64).bind W.pton4
def inetPton6 (w : WStr) : Option (Vector UInt8 16) := (wideCharToMultiByte W w 64).bind W.pton6

/-! ## The configuration -/

/-- `NetshConfig`; a `has…` flag is whether the field is there. -/
structure NetshConfig where
  interfaceName : WStr
  newName : Option WStr
  address : Option WStr
  mask : Option WStr
  gateway : Option WStr
  nexthop : Option WStr
  pfx : Option WStr
  metric : Option Int32
  gwmetric : Int32
  enableAdapter : Bool
  disableAdapter : Bool
  enableIPv4 : Bool

/-- `addr=` is looked for first. -/
def addressKey (cmd : WStr) : WStr := if contains cmd (wide "addr=") then wide "addr=" else wide "address="

def parseInt (cmd key : WStr) : Option Int32 := (wcsstr cmd key).map fun p => wtoi C (p.drop key.length)

def parseNetshConfig (cmd : WStr) : NetshConfig where
  interfaceName := (parseField cmd (wide "interface=") 255).getD (wide "Radmin VPN")
  newName := (wcsstr cmd (wide "newname=\"")).map fun p => copyUntil (· = quote) 255 (p.drop 9)
  address := parseField cmd (addressKey cmd) 63
  mask := parseField cmd (wide "mask=") 63
  gateway := parseField cmd (wide "gateway=") 63
  nexthop := parseField cmd (wide "nexthop=") 63
  pfx := parseField cmd (wide "prefix=") 63
  metric := parseInt C cmd (wide "metric=")
  gwmetric := (parseInt C cmd (wide "gwmetric=")).getD 0
  enableAdapter := contains cmd (wide "interface set interface") && contains cmd (wide "ENABLE") &&
    !contains cmd (wide "DISABLE")
  disableAdapter := contains cmd (wide "interface set interface") && contains cmd (wide "DISABLE")
  enableIPv4 := contains cmd (wide "interface ipv4 set interface") && contains cmd (wide "ENABLE") &&
    !contains cmd (wide "DISABLE")

/-! ## The globals -/

inductive NetconStatus where
  | disconnected
  | connected
deriving DecidableEq, Repr

structure Globals where
  fakeFriendlyName : WStr
  fakeConnectionStatus : NetconStatus
  fakeIpAddress : WStr
  fakeIPv6Address : WStr
  hasIPv6Address : Bool
  fakeIpSubnet : WStr
  fakeGateway : WStr
  lastNetshConfig : Option NetshConfig

def Globals.init : Globals where
  fakeFriendlyName := wide "Radmin VPN Adapter"
  fakeConnectionStatus := .disconnected
  fakeIpAddress := wide "26.0.0.2"
  fakeIPv6Address := wide "fdfd::0000:0002"
  hasIPv6Address := false
  fakeIpSubnet := wide "255.0.0.0"
  fakeGateway := wide "26.0.0.1"
  lastNetshConfig := none

/-- The command or its address says IPv6. -/
def storedAsIPv6 (cmd address : WStr) : Bool := contains cmd (wide "ipv6") || address.contains colon

def Globals.storeAddress (g : Globals) (cmd : WStr) : Option WStr → Globals
  | none => g
  | some address =>
    if storedAsIPv6 cmd address then { g with fakeIPv6Address := address, hasIPv6Address := true }
    else { g with fakeIpAddress := address }

/-- The address is stored while the command is parsed, the rest after that. -/
def Globals.store (g : Globals) (cmd : WStr) (config : NetshConfig) : Globals :=
  { g.storeAddress cmd config.address with
    fakeConnectionStatus :=
      if config.enableIPv4 then .connected
      else if config.disableAdapter then .disconnected
      else if config.enableAdapter then .connected
      else g.fakeConnectionStatus
    fakeFriendlyName := (config.newName.map (List.take 127)).getD g.fakeFriendlyName
    fakeIpSubnet := config.mask.getD g.fakeIpSubnet
    fakeGateway := config.gateway.getD g.fakeGateway
    lastNetshConfig := some config }

/-! ## Forwarding -/

/-- The counting loop from bit `k - 1` down: how many ones there are before the first zero. -/
def leadingOnes (mask : UInt32) : Nat → Nat
  | 0 => 0
  | k + 1 => if mask &&& (1 <<< UInt32.ofNat k) ≠ 0 then 1 + leadingOnes mask k else 0

def maskWord : UInt32 × UInt32 × UInt32 × UInt32 → UInt32
  | (a, b, c, d) => (a <<< 24) ||| (b <<< 16) ||| (c <<< 8) ||| d

/-- `none` is the `-1` of the source. -/
def maskToPrefix (maskStr : WStr) : Option Nat := (scanQuad C maskStr).map fun o => leadingOnes (maskWord o) 32

/-- `none` is the `-1` of the source. -/
def parseIPv6Prefix (addrStr : WStr) : Option (Vector UInt8 16 × UInt8) :=
  let buf := addrStr.takeWhile (· ≠ slash)
  let pfx : UInt8 :=
    match addrStr.dropWhile (· ≠ slash) with
    | [] => 64
    | _ :: n => (wtoi C n).toUInt32.toUInt8
  (inetPton6 W buf).map fun ipv6 => (ipv6, pfx)

def forwardAddress (addr : WStr) (mask : Option WStr) : List TapClientCall :=
  if addr.contains colon then
    match parseIPv6Prefix W C addr with
    | some (ip6, pfx) => [.setIPv6 ip6 pfx, .setLinkUp]
    | none => []
  else
    match mask with
    | none => []
    | some mask =>
      match inetPton4 W addr with
      | none => []
      | some ip =>
        match maskToPrefix C mask with
        | none => []
        | some pfx => if pfx ≤ 32 then [.setIPv4 ip (UInt8.ofNat pfx)] else []

def forward (config : NetshConfig) : List TapClientCall :=
  (match config.address with
    | none => []
    | some addr => forwardAddress W C addr config.mask) ++
  (if config.enableAdapter then [.setLinkUp] else []) ++
  (if config.disableAdapter then [.setLinkDown] else [])

/-- The globals after the command, and the calls of the TAP client it makes. -/
def parseNetshCommand (g : Globals) (cmd : WStr) : Globals × List TapClientCall :=
  let config := parseNetshConfig C cmd
  (g.store cmd config, forward W C config)

/-- The calls a command leads to do not depend on the globals. -/
def sends (cmd : WStr) : List TapClientCall := forward W C (parseNetshConfig C cmd)

/-! ## The adapter hooks -/

structure AdapterInfo where
  ipAddress : List UInt8
  ipMask : List UInt8
  gateway : List UInt8

/-- `strcpy` into an `IP_ADDRESS_STRING`, which has room for 16 bytes. -/
def strcpyAddress (s : List UInt8) : Option (List UInt8) := if s.length + 1 ≤ 16 then some s else none

/-- The three address strings of `Hook_GetAdaptersInfo`; `none` where one of them overruns a buffer. -/
def hookGetAdaptersInfo (g : Globals) : Option AdapterInfo := do
  let ipBuf ← wideCharToMultiByte W g.fakeIpAddress 16
  let maskBuf ← wideCharToMultiByte W g.fakeIpSubnet 16
  let gwBuf ← wideCharToMultiByte W g.fakeGateway 16
  let ip ← strcpyAddress ipBuf
  let mask ← strcpyAddress maskBuf
  let gw ← strcpyAddress gwBuf
  some ⟨ip, mask, gw⟩

inductive Family where
  | inet
  | inet6
  | unspec
deriving DecidableEq, Repr

/-- A unicast address; `none` is a value read from a buffer without an end. -/
structure UnicastAddress (n : Nat) where
  address : Option (Vector UInt8 n)
  onLinkPrefixLength : Option Nat
deriving DecidableEq

structure AdapterAddresses where
  friendlyName : WStr
  unicast4 : Option (UnicastAddress 4)
  unicast6 : Option (UnicastAddress 16)
  gateway : Option (Option (Vector UInt8 4))

/-- `inet_addr` of a global, by way of a buffer of 16 bytes. -/
def readIPv4 (text : WStr) : Option (Vector UInt8 4) := (wideCharToMultiByte W text 16).map W.inetAddr

/-- `inet_pton` of a global into a zeroed address, by way of a buffer of 46 bytes. -/
def readIPv6 (text : WStr) : Option (Vector UInt8 16) :=
  (wideCharToMultiByte W text 46).map fun s => (W.pton6 s).getD (W.left6 s)

/-- The 32-bit value `inet_addr` returns for these bytes, on a little-endian machine. -/
def sAddr (o : Vector UInt8 4) : UInt32 :=
  let (a, b, c, d) := octetWords o
  maskWord (d, c, b, a)

/-- The reply of `Hook_GetAdaptersAddresses`, the buffer being large enough. -/
def hookGetAdaptersAddresses (family : Family) (g : Globals) : AdapterAddresses where
  friendlyName := g.fakeFriendlyName
  unicast4 :=
    if family = .inet6 then none
    else some ⟨readIPv4 W g.fakeIpAddress, (readIPv4 W g.fakeIpSubnet).map fun m => leadingOnes (sAddr m) 32⟩
  unicast6 :=
    if g.hasIPv6Address ∧ family ≠ .inet then some ⟨readIPv6 W g.fakeIPv6Address, some 64⟩ else none
  gateway := if family = .inet6 then none else some (readIPv4 W g.fakeGateway)

/-! ## What is stored and what is sent -/

variable {W C} {cmd addr : WStr} {g : Globals} {ip : Vector UInt8 4} {ip6 : Vector UInt8 16} {pfx : UInt8}

@[simp] theorem store_fakeIpAddress (config : NetshConfig) :
    (g.store cmd config).fakeIpAddress = (g.storeAddress cmd config.address).fakeIpAddress := rfl

@[simp] theorem store_fakeIPv6Address (config : NetshConfig) :
    (g.store cmd config).fakeIPv6Address = (g.storeAddress cmd config.address).fakeIPv6Address := rfl

@[simp] theorem store_hasIPv6Address (config : NetshConfig) :
    (g.store cmd config).hasIPv6Address = (g.storeAddress cmd config.address).hasIPv6Address := rfl

theorem leadingOnes_le (mask : UInt32) (k : Nat) : leadingOnes mask k ≤ k := by
  induction k with
  | zero => exact Nat.le_refl 0
  | succ k ih =>
    rw [leadingOnes]
    split <;> omega

/-- Of the calls of a command, only those for the address set an address. -/
theorem setIPv4_mem_forward {config : NetshConfig} : TapClientCall.setIPv4 ip pfx ∈ forward W C config ↔
    ∃ addr, config.address = some addr ∧ .setIPv4 ip pfx ∈ forwardAddress W C addr config.mask := by
  unfold forward
  cases config.address <;> simp

theorem setIPv6_mem_forward {config : NetshConfig} : TapClientCall.setIPv6 ip6 pfx ∈ forward W C config ↔
    ∃ addr, config.address = some addr ∧ .setIPv6 ip6 pfx ∈ forwardAddress W C addr config.mask := by
  unfold forward
  cases config.address <;> simp

/-- When an IPv4 address is sent: it has no colon, there is a mask, and both are accepted. -/
theorem setIPv4_mem_forwardAddress {mask : Option WStr} : .setIPv4 ip pfx ∈ forwardAddress W C addr mask ↔
    addr.contains colon = false ∧ inetPton4 W addr = some ip ∧
      ∃ m o, mask = some m ∧ scanQuad C m = some o ∧ pfx = UInt8.ofNat (leadingOnes (maskWord o) 32) := by
  unfold forwardAddress maskToPrefix
  cases hc : addr.contains colon with
  | true => cases parseIPv6Prefix W C addr <;> simp
  | false =>
    cases mask with
    | none => simp
    | some m =>
      cases inetPton4 W addr with
      | none => simp
      | some ip' =>
        cases hs : scanQuad C m with
        | none => simp [hs]
        | some o =>
          obtain ⟨a, b, c, d⟩ := o
          have hle := leadingOnes_le (maskWord (a, b, c, d)) 32
          simp [hs, hle, eq_comm]

/-- When an IPv6 address is sent: it has a colon and is accepted. -/
theorem setIPv6_mem_forwardAddress {mask : Option WStr} : .setIPv6 ip6 pfx ∈ forwardAddress W C addr mask ↔
    addr.contains colon = true ∧ parseIPv6Prefix W C addr = some (ip6, pfx) := by
  unfold forwardAddress
  cases hc : addr.contains colon with
  | true => cases parseIPv6Prefix W C addr <;> simp [Prod.ext_iff, eq_comm]
  | false =>
    simp only [Bool.false_eq_true, if_false, false_and, iff_false]
    split
    · simp
    · split
      · simp
      · split
        · simp
        · split <;> simp

theorem parseIPv6Prefix_noSlash (h : slash ∉ addr) :
    parseIPv6Prefix W C addr = (inetPton6 W addr).map fun ip6 => (ip6, 64) := by
  have hall : ∀ c ∈ addr, decide (c ≠ slash) = true := fun c hc => by
    simp only [ne_eq, decide_not, Bool.not_eq_true', decide_eq_false_iff_not]
    rintro rfl
    exact h hc
  have hd : addr.dropWhile (· ≠ slash) = [] := List.dropWhile_eq_nil_iff.2 hall
  have ht : addr.takeWhile (· ≠ slash) = addr := List.takeWhile_eq_self_iff.2 hall
  simp only [parseIPv6Prefix, ht, hd]

theorem parseIPv6Prefix_slash {t u : WStr} (h : slash ∉ t) : parseIPv6Prefix W C (t ++ slash :: u) =
    (inetPton6 W t).map fun ip6 => (ip6, (wtoi C u).toUInt32.toUInt8) := by
  have hall : ∀ c ∈ t, decide (c ≠ slash) = true := fun c hc => by
    simp only [ne_eq, decide_not, Bool.not_eq_true', decide_eq_false_iff_not]
    rintro rfl
    exact h hc
  have ht : (t ++ slash :: u).takeWhile (· ≠ slash) = t := by
    rw [List.takeWhile_append_of_pos hall]
    simp
  have hd : (t ++ slash :: u).dropWhile (· ≠ slash) = slash :: u := by
    rw [List.dropWhile_append_of_pos hall]
    simp
  simp only [parseIPv6Prefix, ht, hd]

/-! ## A system -/

/-- Only ASCII digits, and numbers that do not fit are cut to 32 bits. -/
def asciiCrt : Crt where
  digit := asciiDigit
  isSpace c := c.1 = 0x20 || (0x09 ≤ c.1 && c.1 ≤ 0x0D)
  unsignedOf neg n := if neg then -UInt32.ofNat n else UInt32.ofNat n
  intOf neg n := if neg then -Int32.ofNat n else Int32.ofNat n
  digit_ascii _ _ h := h
  digit_dot := by decide
  space_ascii c d h := by
    unfold asciiDigit at h
    split at h
    · next hc =>
      have hlt : ¬ c.1 ≤ 0x0D := fun hle => by
        have := UInt16.le_iff_toNat_le.1 hle
        simp only [UInt16.toNat_ofNat] at this
        omega
      have hne : c.1 ≠ 0x20 := fun he => by
        rw [he] at hc
        simp at hc
      simp [hlt, hne]
    · cases h
  unsigned_exact _ _ := rfl
  int_exact _ _ := rfl

/-- A byte as a wide character; a NUL, which no text has, becomes a space. -/
def widen (b : UInt8) : WChar := if h : b.toUInt16 ≠ 0 then ⟨b.toUInt16, h⟩ else space

def ascii (s : String) : List UInt8 := s.toList.map fun c => UInt8.ofNat c.toNat

/-- A code page without accents, dotted quads for IPv4, and `fdfd::1` for IPv6. -/
def asciiWinsock : Winsock where
  acp w := w.map fun c => if c.1.toNat < 128 then c.1.toUInt8 else 0x3F
  pton4 s := dottedQuad (s.map widen)
  pton6 s := if s = ascii "fdfd::1" then some #v[0xFD, 0xFD, 0, 0, 0, 0, 0, 0, 0, 0, 0, 0, 0, 0, 0, 1] else none
  left6 _ := .replicate 16 0
  inetAddr s := (dottedQuad (s.map widen)).getD (.replicate 4 0xFF)
  acp_ascii w hw := List.map_congr_left fun c hc => if_pos (hw c hc)
  acp_slash w hw := List.mem_map.2 ⟨slash, hw, by decide⟩
  pton4_length s ip h := by simpa using length_of_dottedQuad h
  pton4_inetAddr s ip h := by simp [h]
  pton6_length s ip h := by
    split at h
    · next hs =>
      rw [hs]
      decide
    · cases h
  pton6_slash s ip h := by
    split at h
    · next hs =>
      rw [hs]
      decide
    · cases h

end Rvpn.Netsh
