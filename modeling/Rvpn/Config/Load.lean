import Rvpn.Lib.Decimal
import Rvpn.Lib.Lines

/-!
# `radmin.conf` (config.c:7-66)

The loader reads the file in pieces of up to 255 bytes and takes each piece for a line.

| here | there |
| --- | --- |
| `textMode`         | what `fopen(…, "r")` delivers of the bytes of a file |
| `scan`             | `sscanf(line, "%63[^=]=%255s", key, value)`, if both are stored |
| `atoi`             | `atoi`; a number that is no `int` is left to the C library (`Atoi`) |
| `configParseLine`  | `config_parse_line`, `none` being the `-1` |
| `loadPiece`        | the body of the loop of `config_load` |

The program runs in the "C" locale.
-/

namespace Rvpn.Config

open Lines

abbrev Text := List UInt8

/-- A string literal. -/
def text (s : String) : Text := s.toList.map fun c => UInt8.ofNat c.toNat

def newline : UInt8 := 0x0A
def hash : UInt8 := 0x23
def equals : UInt8 := 0x3D
def plusSign : UInt8 := 0x2B
def minusSign : UInt8 := 0x2D

/-! ## The C library -/

/-- CR LF becomes LF, and Ctrl-Z ends the file. -/
def textMode : Text → Text
  | [] => []
  | c :: s =>
    if c = 0x1A then []
    else if c = 0x0D ∧ s.head? = some newline then textMode s
    else c :: textMode s

def isBlank (c : UInt8) : Bool := c = 0x20 || c = 0x09
def isSpace (c : UInt8) : Bool := c = 0x20 || (0x09 ≤ c && c ≤ 0x0D)
def lower (c : UInt8) : UInt8 := if 0x41 ≤ c ∧ c ≤ 0x5A then c + 0x20 else c

/-- `_stricmp(a, b) == 0`. -/
def stricmp (a b : Text) : Bool := a.map lower = b.map lower

def digit (c : UInt8) : Option (Fin 10) :=
  if h : 0x30 ≤ c.toNat ∧ c.toNat ≤ 0x39 then some ⟨c.toNat - 0x30, by omega⟩ else none

/-- The value `atoi` returns for a number with this sign. -/
structure Atoi where
  intOf : Bool → Nat → Int32
  int_exact : ∀ n < 2 ^ 31, intOf false n = Int32.ofNat n

def atoi (A : Atoi) (s : Text) : Int32 :=
  let (neg, s) := match s.dropWhile isSpace with
    | [] => (false, [])
    | c :: s => if c = minusSign then (true, s) else if c = plusSign then (false, s) else (false, c :: s)
  let ds := (Decimal.span digit s).1
  if ds = [] then 0 else A.intOf neg (Decimal.ofDigits ds)

def word (s : Text) : Text := (s.dropWhile isSpace).takeWhile fun c => !isSpace c

def scan (line : Text) : Option (Text × Text) :=
  let key := (line.takeWhile (· ≠ equals)).take 63
  match line.drop key.length with
  | [] => none
  | c :: rest =>
    let value := (word rest).take 255
    if key ≠ [] ∧ c = equals ∧ value ≠ [] then some (key, value) else none

/-! ## The loader -/

inductive Driver where
  | none
  | linuxTap
  | wireguardServer
deriving DecidableEq, Repr

structure AppConfig where
  driver : Driver
  tapAddr : Text
  tapPort : UInt16
deriving DecidableEq, Repr

def defaults : AppConfig where
  driver := .linuxTap
  tapAddr := text "127.0.0.1"
  tapPort := 12345

/-- `config_write_defaults`. -/
def writtenDefaults : Text :=
  text "# Radmin VPN emulation driver config\r\n" ++
  text "# driver = linux_tap or wireguard_server\r\n" ++
  text "driver=linux_tap\r\n" ++
  text "# When driver=linux_tap, these are used:\r\n" ++
  text "tap_addr=127.0.0.1\r\n" ++
  text "tap_port=12345\r\n"

variable (A : Atoi)

def configParseLine (line : Text) (cfg : AppConfig) : Option AppConfig :=
  match scan line with
  | none => none
  | some (key, value) =>
    if stricmp key (text "driver") then
      if stricmp value (text "linux_tap") then some { cfg with driver := .linuxTap }
      else if stricmp value (text "wireguard_server") then some { cfg with driver := .wireguardServer }
      else none
    else if stricmp key (text "tap_addr") then some { cfg with tapAddr := value.take 63 }
    else if stricmp key (text "tap_port") then some { cfg with tapPort := (atoi A value).toUInt32.toUInt16 }
    else some cfg

/-- The string in the buffer, from the first character that is no blank on. -/
def skipBlanks (line : Text) : Text := (line.takeWhile (· ≠ 0)).dropWhile isBlank

/-- Comments and empty lines. -/
def isComment (p : Text) : Bool :=
  match p with
  | [] => true
  | c :: _ => c = hash || c = newline

def loadPiece (cfg : AppConfig) (line : Text) : AppConfig :=
  let p := skipBlanks line
  if isComment p then cfg else (configParseLine A p cfg).getD cfg

/-- The loop of `config_load` over what is read from the file. -/
def loadText (s : Text) : AppConfig := (pieces newline 255 s).foldl (loadPiece A) defaults

/-- `config_load`, with the file afterwards: if there is none, one is written. -/
def configLoad : Option Text → AppConfig × Option Text
  | none => (defaults, some writtenDefaults)
  | some content => (loadText A (textMode content), some content)

end Rvpn.Config
