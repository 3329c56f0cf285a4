import Rvpn.Lib.Scan
import Rvpn.Registry.LogReads

/-!
# The registry walkers (register.c:157-270, reg_read.c:13-109)

At startup two parts of the real registry are written to the log, key by key and value by value.

| here | there |
| --- | --- |
| `Key`, `Value`, `Handle`     | the registry behind the API, and an open key |
| `regOpenKeyExW`              | `RegOpenKeyExW` with `KEY_READ`, and perhaps `KEY_WOW64_32KEY` |
| `regEnumValueW`, `regEnumKeyExW` | the enumerations; `none` is `ERROR_NO_MORE_ITEMS` |
| `dumpRealRegistryTree`, `dumpRealKey` | `DumpRealRegistryTree`, `DumpRealKey` (`register.c`) |
| `logRegistryValues`, `logRegistryFolder` | `LogRegistryValues`, `LogRegistryFolder` (`reg_read.c`) |

A walker returns what it has logged and opened; nothing switches the log off. It returns `none` as long as it is not at its end (the first argument
counts rounds), where it reads behind the end of a buffer, and where the C library ends the process. The program is a
32-bit one, for which `KEY_WOW64_32KEY` changes nothing about which key is opened.
-/

namespace Rvpn.Walkers

open Bytes Registry Scan

/-! ## The registry -/

abbrev LSTATUS := UInt32

def ERROR_SUCCESS : LSTATUS := 0
def ERROR_FILE_NOT_FOUND : LSTATUS := 2
def ERROR_ACCESS_DENIED : LSTATUS := 5
def ERROR_BAD_PATHNAME : LSTATUS := 161
def ERROR_MORE_DATA : LSTATUS := 234
def ERROR_NO_MORE_ITEMS : LSTATUS := 259

/-- The name of a key has at most 255 characters. -/
abbrev KeyName := {s : WStr // s ≠ [] ∧ bslash ∉ s ∧ s.length < 256}

/-- What is in the variables that `RegEnumValueW` is given pointers to, once it has returned. -/
structure ValueOut where
  valueName : Nat → UInt16
  cchValueName : Nat
  type : UInt32
  data : Nat → UInt8
  cbData : Nat

structure ValueAnswer where
  status : LSTATUS
  out : ValueOut

structure Value where
  name : WStr
  type : UInt32
  data : List UInt8
  /-- What a call for the value leaves in the variables where nothing is promised. It is one content, for the calls of
  both walkers. -/
  rest : ValueOut

/-- From a call on an enumeration fails with one error. -/
structure Fault where
  index : Nat
  error : LSTATUS
  fails : error ≠ ERROR_SUCCESS ∧ error ≠ ERROR_NO_MORE_ITEMS

structure Key where
  name : KeyName
  /-- What opening the key returns, with and without `KEY_WOW64_32KEY`. -/
  openStatus : Bool → LSTATUS
  values : List Value
  valueFault : Option (Fault × ValueOut)
  subkeys : List Key
  subkeyFault : Option Fault

/-- An open key, and where it is: the number of a subkey on every level. -/
structure Handle where
  path : List Nat
  key : Key

namespace Key

/-- The key at a path below this one. -/
def descend : Key → List Nat → Option Key
  | k, [] => some k
  | k, i :: path => k.subkeys[i]?.bind fun c => c.descend path

/-- Siblings differ in name, on every level. -/
def Distinct (F : CaseFold) (k : Key) : Prop :=
  ∀ path k', k.descend path = some k' → k'.subkeys.Pairwise fun a b => F.fold a.name.1 ≠ F.fold b.name.1

end Key

/-- What is below a predefined key. -/
structure Tree (F : CaseFold) where
  root : Key
  distinct : root.Distinct F

def Tree.hRoot {F : CaseFold} (R : Tree F) : Handle := ⟨[], R.root⟩

/-! ## The API -/

def subkey (F : CaseFold) (h : Handle) (token : WStr) : Option Handle :=
  (h.key.subkeys.findIdx? fun c => wcsicmp F c.name.1 token).bind fun i =>
    h.key.subkeys[i]?.map fun c => ⟨h.path ++ [i], c⟩

def resolve (F : CaseFold) : Handle → List WStr → Option Handle
  | h, [] => some h
  | h, t :: ts => (subkey F h t).bind fun h' => resolve F h' ts

/-- A path must not start with a backslash. -/
def regOpenKeyExW (F : CaseFold) (hKey : Handle) (lpSubKey : Option WStr) (wow64 : Bool) : Except LSTATUS Handle :=
  let path := lpSubKey.getD []
  if path.head? = some bslash then .error ERROR_BAD_PATHNAME
  else
    match resolve F hKey (tokens path) with
    | none => .error ERROR_FILE_NOT_FOUND
    | some h => if h.key.openStatus wow64 = ERROR_SUCCESS then .ok h else .error (h.key.openStatus wow64)

/-- `xs` stored at the start of `f`. -/
def store {α : Type} (xs : List α) (f : Nat → α) : Nat → α := fun i => xs[i]?.getD (f i)

/-- The name is stored with its NUL, the data without one. Nothing is promised if one of the two does not fit. -/
def Value.answer (v : Value) (cchValueName cbData : Nat) : ValueAnswer :=
  if v.name.length < cchValueName ∧ v.data.length ≤ cbData then
    { status := ERROR_SUCCESS
      out :=
        { valueName := store (v.name.map (·.1) ++ [0]) v.rest.valueName
          cchValueName := v.name.length
          type := v.type
          data := store v.data v.rest.data
          cbData := v.data.length } }
  else { status := ERROR_MORE_DATA, out := v.rest }

def Key.valueSource (k : Key) (cchValueName cbData : Nat) : Source ValueAnswer where
  entries := k.values.map fun v => v.answer cchValueName cbData
  fault := k.valueFault.map fun f => (f.1.index, ⟨f.1.error, f.2⟩)

def Key.subkeySource (k : Key) : Source (Except LSTATUS WStr) where
  entries := k.subkeys.map fun c => .ok c.name.1
  fault := k.subkeyFault.map fun f => (f.index, .error f.error)

def regEnumValueW (k : Key) (cchValueName cbData : Nat) : UInt32 → Option ValueAnswer :=
  (k.valueSource cchValueName cbData).answer

def regEnumKeyExW (k : Key) : UInt32 → Option (Except LSTATUS WStr) := k.subkeySource.answer

/-! ## The log -/

inductive Event where
  | opened (path : List Nat)
  | key (indent : Nat) (name : WStr)
  | value (name : List UInt16) (lines : List LogLine)
  | cannotOpen (name : WStr) (error : LSTATUS)
  | valueError (index : UInt32) (error : LSTATUS)
  | subkeyError (index : UInt32) (error : LSTATUS)

/-- The `n` elements of a buffer. -/
def buffer {α : Type} (n : Nat) (f : Nat → α) : List α := (List.range n).map f

/-- `%ls` of a buffer. -/
def wideString (us : List UInt16) : Option (List UInt16) := (readString us).map (·.1)

/-- `LogHex` of no bytes logs nothing. -/
def hexLines (data : List UInt8) (len : Nat) : Option (List LogLine) :=
  if len = 0 then some [] else (logHex data len).map fun shown => [.hex len shown]

/-! ## register.c -/

/-- `wcscat_s(dst, size, src)`. It calls the invalid parameter handler of the C library if there is no room, and if
that returns it leaves `dst` empty. -/
def wcscat_s (handlerReturns : Bool) (dst : WStr) (size : Nat) (src : WStr) : Option WStr :=
  if dst.length + src.length < size then some (dst ++ src) else if handlerReturns then some [] else none

/-- The loop that fills `indent[128]`. -/
def indentOf (handlerReturns : Bool) : Nat → Option WStr
  | 0 => some []
  | depth + 1 => (indentOf handlerReturns depth).bind fun indent => wcscat_s handlerReturns indent 128 (wide "  ")

/-- The `switch` of `DumpRealKey`. -/
def dumpData (type : UInt32) (valDataLen : Nat) (valData : List UInt8) : Option (List LogLine) :=
  if type = REG_SZ ∨ type = REG_EXPAND_SZ then
    if 2 ≤ valDataLen then (wideString (ofUnits valData)).map fun s => [.string s] else some [.string []]
  else if type = REG_DWORD then
    if 4 ≤ valDataLen then (readNumber 4 valData).map fun v => [.dword v] else some [.badDword]
  else if type = REG_QWORD then
    if 8 ≤ valDataLen then (readNumber 8 valData).map fun v => [.qword v] else some [.badQword]
  else if type = REG_MULTI_SZ then
    (readMulti valData.length (ofUnits valData)).map fun items => .multiString :: items.map .item
  else if type = REG_BINARY then (hexLines valData (min valDataLen 32)).map (.binary valDataLen :: ·)
  else some [.typed type valDataLen]

/-- `vn`, the name that is printed. -/
def dumpName (valNameLen : Nat) (valName : List UInt16) : Option (List UInt16) :=
  if 0 < valNameLen then wideString valName else some ((wide "(default)").map (·.1))

/-- A round of the value loop: `valName[256]`, `valData[4096]`. -/
def dumpValue (a : ValueAnswer) : Option (List Event) :=
  if a.status ≠ ERROR_SUCCESS ∧ a.status ≠ ERROR_MORE_DATA then some []
  else do
    let vn ← dumpName a.out.cchValueName (buffer 256 a.out.valueName)
    let lines ← dumpData a.out.type a.out.cbData (buffer 4096 a.out.data)
    some [.value vn lines]

/-- A round of the subkey loop; `dump` is the call of `DumpRealKey`. -/
def dumpSubkey (F : CaseFold) (hKey : Handle) (dump : Handle → WStr → Option (List Event)) :
    Except LSTATUS WStr → Option (List Event)
  | .error _ => some []
  | .ok subName =>
    match regOpenKeyExW F hKey (some subName) false with
    | .error lr => some [.cannotOpen subName lr]
    | .ok hSubKey => (dump hSubKey subName).map (.opened hSubKey.path :: ·)

def dumpRealKey (F : CaseFold) (handlerReturns : Bool) : Nat → Handle → Option WStr → Nat → Option (List Event)
  | 0, _, _, _ => none
  | n + 1, hKey, keyName, depth => do
    let indent ← indentOf handlerReturns depth
    let values ← scan (regEnumValueW hKey.key 256 4096) (fun _ => dumpValue) n 0
    let subkeys ← scan (regEnumKeyExW hKey.key) (fun _ => dumpSubkey F hKey fun hSubKey subName =>
      dumpRealKey F handlerReturns n hSubKey (some subName) (depth + 1)) n 0
    some (.key indent.length (keyName.getD (wide "(unknown)")) :: values ++ subkeys)

def dumpRealRegistryTree (F : CaseFold) (handlerReturns : Bool) (n : Nat) (hRoot : Handle) (lpSubKey : WStr) :
    Option (List Event) :=
  match regOpenKeyExW F hRoot (some lpSubKey) false with
  | .error lr => some [.cannotOpen lpSubKey lr]
  | .ok hKey => (dumpRealKey F handlerReturns n hKey (some lpSubKey) 0).map (.opened hKey.path :: ·)

/-! ## reg_read.c -/

/-- The `switch` of `LogRegistryValues`. -/
def logData (type : UInt32) (dataSize : Nat) (data : List UInt8) : Option (List LogLine) :=
  if type = REG_SZ ∨ type = REG_EXPAND_SZ then (wideString (ofUnits data)).map fun s => [.string s]
  else if type = REG_DWORD then
    if 4 ≤ dataSize then (readNumber 4 data).map fun v => [.dword v] else some [.badDword]
  else if type = REG_MULTI_SZ then
    (readMulti data.length (ofUnits data)).map fun items => .multiString :: items.map .item
  else if type = REG_BINARY then (hexLines data dataSize).map (.binary dataSize :: ·)
  else some [.typed type dataSize]

/-- A round of the loop of `LogRegistryValues`: `MAX_VALUE_NAME`, `MAX_VALUE_DATA`. -/
def logValue (index : UInt32) (a : ValueAnswer) : Option (List Event) :=
  if a.status ≠ ERROR_SUCCESS then some [.valueError index a.status]
  else do
    let valueName ← wideString (buffer 16384 a.out.valueName)
    let lines ← logData a.out.type a.out.cbData (buffer 65536 a.out.data)
    some [.value valueName lines]

def logRegistryValues (n : Nat) (key : Key) : Option (List Event) :=
  scan (regEnumValueW key 16384 65536) logValue n 0

/-- The two attempts to open the key. -/
def openFolder (F : CaseFold) (hRoot : Handle) (subPath : Option WStr) : Except LSTATUS Handle :=
  match regOpenKeyExW F hRoot subPath true with
  | .error result => if result = ERROR_ACCESS_DENIED then regOpenKeyExW F hRoot subPath false else .error result
  | .ok hKey => .ok hKey

/-- `swprintf(fullSubPath, 512, L"%ls\\%ls", subPath ? subPath : L"", subKeyName)`. -/
def fullSubPath (subPath : Option WStr) (subKeyName : WStr) : WStr := (subPath.getD [] ++ bslash :: subKeyName).take 511

/-- A round of the subkey loop; `log` is the call of `LogRegistryFolder`. -/
def logSubkey (subPath : Option WStr) (log : Option WStr → Option (List Event)) (index : UInt32) :
    Except LSTATUS WStr → Option (List Event)
  | .error result => some [.subkeyError index result]
  | .ok subKeyName => log (some (fullSubPath subPath subKeyName))

def logRegistryFolder (F : CaseFold) : Nat → Handle → Option WStr → Nat → Option (List Event)
  | 0, _, _, _ => none
  | n + 1, hRoot, subPath, depth =>
    match openFolder F hRoot subPath with
    | .error result => some [.cannotOpen (subPath.getD []) result]
    | .ok hKey => do
      let values ← logRegistryValues n hKey.key
      let subkeys ← scan (regEnumKeyExW hKey.key)
        (logSubkey subPath fun path => logRegistryFolder F n hKey path (depth + 1)) n 0
      some (.opened hKey.path :: .key (depth * 2) (subPath.getD []) :: values ++ subkeys)

end Rvpn.Walkers
