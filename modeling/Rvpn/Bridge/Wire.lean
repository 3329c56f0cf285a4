import Rvpn.Lib.Bytes

/-!
# What goes over the wire

The datagrams between the injector and the bridge, and the Radmin header in front of a frame.

| here | there |
| --- | --- |
| `radminHeaderWrite`, `radminHeaderRead` | `inject.c:45-58` |
| `frameDatagram`                          | the packet of `Hook_WriteFile` (`inject.c:415-420`) |
| `regPacket`                              | the registration of `Hook_ReadFile` (`inject.c:342`) |
| `sendControl`, `tapClientSet…`           | `tap_client_udp.c:151-198` |
-/

namespace Rvpn

abbrev Mac := Vector UInt8 6

/-! ## The Radmin header -/

/-- `RADMIN_HEADER_SIZE`. -/
def radminHeaderSize : Nat := 8

def radminHeaderWrite (frameLen : UInt32) : List UInt8 :=
  [0, 0, 0, 0] ++ Bytes.leBytes 4 frameLen.toNat

def radminHeaderRead (hdr : List UInt8) : UInt32 := UInt32.ofNat (Bytes.ofLE ((hdr.drop 4).take 4))

@[simp] theorem length_radminHeaderWrite (n : UInt32) : (radminHeaderWrite n).length = radminHeaderSize := by
  simp [radminHeaderWrite, radminHeaderSize]

/-- The length a header announces is the length it was written with, whatever follows it. -/
theorem radminHeaderRead_write (n : UInt32) (rest : List UInt8) :
    radminHeaderRead (radminHeaderWrite n ++ rest) = n := by
  have hlt : n.toNat < 256 ^ 4 := n.toNat_lt
  have hbody : ((radminHeaderWrite n ++ rest).drop 4).take 4 = Bytes.leBytes 4 n.toNat := by
    rw [radminHeaderWrite, List.append_assoc, List.drop_left' (by rfl), List.take_left' (by simp)]
  rw [radminHeaderRead, hbody, Bytes.ofLE_leBytes_of_lt hlt, UInt32.ofNat_toNat]

/-! ## Datagrams -/

/-- `TAP_CTRL_*` (`tap_client.h`). -/
inductive TapCtrl where
  | setIpv4 | setIpv4Gw | setIpv6 | setMac | linkUp | linkDown
deriving DecidableEq, Repr

def TapCtrl.code : TapCtrl → UInt8
  | .setIpv4 => 0x01
  | .setIpv4Gw => 0x02
  | .setIpv6 => 0x03
  | .setMac => 0x04
  | .linkUp => 0x10
  | .linkDown => 0x11

/-- The `switch (cmd)` of the bridge. -/
def TapCtrl.ofCode (cmd : UInt8) : Option TapCtrl :=
  if cmd = 0x01 then some .setIpv4
  else if cmd = 0x02 then some .setIpv4Gw
  else if cmd = 0x03 then some .setIpv6
  else if cmd = 0x04 then some .setMac
  else if cmd = 0x10 then some .linkUp
  else if cmd = 0x11 then some .linkDown
  else none

@[simp] theorem TapCtrl.ofCode_code (c : TapCtrl) : TapCtrl.ofCode c.code = some c := by
  cases c <;> rfl

theorem TapCtrl.code_of_ofCode {cmd : UInt8} {c : TapCtrl} (h : TapCtrl.ofCode cmd = some c) : cmd = c.code := by
  unfold TapCtrl.ofCode at h
  split_ifs at h <;> cases h <;> assumption

/-- Bytes the handler of a command reads from its `data`. -/
def TapCtrl.argLen : TapCtrl → Nat
  | .setIpv4 => 5
  | .setIpv4Gw => 4
  | .setIpv6 => 17
  | .setMac => 6
  | .linkUp | .linkDown => 0

def frameDatagram (frame : List UInt8) : List UInt8 := 0x00 :: frame

/-- Control type, unused command. -/
def regPacket : List UInt8 := [0x01, 0xFF]

def sendControl (cmd : TapCtrl) (data : List UInt8) : List UInt8 := 0x01 :: cmd.code :: data

def tapClientSetIPv4 (ip : Vector UInt8 4) (pfx : UInt8) : List UInt8 := sendControl .setIpv4 (ip.toList ++ [pfx])
def tapClientSetIPv4Gateway (ip : Vector UInt8 4) : List UInt8 := sendControl .setIpv4Gw ip.toList
def tapClientSetIPv6 (ip : Vector UInt8 16) (pfx : UInt8) : List UInt8 := sendControl .setIpv6 (ip.toList ++ [pfx])
def tapClientSetMAC (mac : Mac) : List UInt8 := sendControl .setMac mac.toList
def tapClientSetLinkUp : List UInt8 := sendControl .linkUp []
def tapClientSetLinkDown : List UInt8 := sendControl .linkDown []

end Rvpn
