import Rvpn.Lib.Run
import Rvpn.Registry.Edits
import Rvpn.Registry.File

/-!
# The registry hooks

The state behind the hooks (tree, handle table, handle cache, file) and the hooks as its transitions.

| here | there |
| --- | --- |
| `handleToKey`, `getKeyPath`, `allocHandle` | `register.c:421-452` |
| `cacheLookup`, `buildFullPath`             | `CacheLookup` (`:292-309`), `BuildFullPath` (`:759-783`) |
| `regCreateKey`, `regOpenKey`               | `Hook_RegCreateKeyExW` (`:841-886`), `Hook_RegOpenKeyExW` (`:890-934`), `Hook_RegOpenKeyW`, `Hook_RegCreateKeyW` (`:1203-1341`) |
| `hookRegSetValueExW`                       | `:936-1002` |
| `hookRegQueryValueExW`                     | `:1005-1172` |
| `hookRegDeleteValueW`, `hookRegDeleteKeyW` | `:661-708`, `:1343-1387` |

A hook yields its reply and the state it leaves, or `none` where the process does not survive the call:
a read through a dead pointer, or an allocation that fails. File writes succeed. Logging is left out.
-/

namespace Rvpn.Registry

open Cells

/-! ## State -/

/-- A row of the tables `g_fakeKeyTable` and `g_fakeKeyPaths`; `none` is NULL. -/
structure FakeKey where
  key : Option Id
  path : Option WStr
deriving DecidableEq

structure Store where
  /-- `g_isWow64`. -/
  isWow64 : Bool
  heap : Heap
  /-- The first `g_fakeKeyCount` rows. -/
  fakeKeys : List FakeKey
  /-- `g_handleCache`. -/
  handleCache : List (WStr × HKEY)
  /-- `register.reg`. -/
  file : Option (List UInt8)

def FAKE_SERVICE_KEY : HKEY := 0x10000001
def FAKE_HANDLE_BASE : HKEY := 0x30000000

/-- `MAX_CACHED_HANDLES`. -/
def maxCachedHandles : Nat := 512

/-- `Register_InstallHooks` where there is no `register.reg` yet. -/
def Store.empty (isWow64 : Bool) : Store :=
  { isWow64, heap := emptyHeap, fakeKeys := [], handleCache := [], file := none }

/-- The process starts again: a fresh root, the file loaded into it, the tables reset. -/
def restart (F : CaseFold) (fuel : Nat) (junk : Nat → UInt8) (σ : Store) : Option Store :=
  (loadRegistryFromFile F fuel junk σ.file).map fun loaded =>
    { σ with heap := loaded.2, fakeKeys := [], handleCache := [] }

/-! ### Memory -/

def RegValue.bytes (v : RegValue) : Nat := 20 + 2 * (v.name.length + 1) + v.data.length

/-- A `RegKey` is five pointers; its `sibling` pointer is counted with the key it is a child of. -/
def nodeBytes (name : WStr) (children : Nat) (values : List RegValue) : Nat :=
  16 + 4 * children + 2 * (name.length + 1) + (values.map RegValue.bytes).sum

def RegKey.bytes (k : RegKey) : Nat := nodeBytes k.name k.children.length k.values

def Heap.bytes (H : Heap) : Nat := (H.map fun c => (c.map RegKey.bytes).getD 0).sum

/-- The nodes, strings and data that are live fit into the address space of a 32-bit process. -/
def Heap.Fits (H : Heap) : Prop := H.bytes < 2 ^ 32

instance (H : Heap) : Decidable H.Fits := inferInstanceAs (Decidable (_ < _))

/-! ### Handles -/

def fakeIndex (hKey : HKEY) : Nat := (hKey - FAKE_HANDLE_BASE).toNat

def handleToKey (σ : Store) (hKey : HKEY) : Option Id :=
  if hKey = FAKE_SERVICE_KEY then none else (σ.fakeKeys[fakeIndex hKey]?).bind FakeKey.key

def getKeyPath (σ : Store) (hKey : HKEY) : Option WStr :=
  if hKey = FAKE_SERVICE_KEY then none else (σ.fakeKeys[fakeIndex hKey]?).bind FakeKey.path

/-- `AllocHandle`: the two tables of `2 ^ 29` rows would fill the address space. -/
def allocHandle (σ : Store) (key : Id) (fullPath : WStr) : Option (HKEY × Store) :=
  if σ.fakeKeys.length < 2 ^ 29 then
    some (FAKE_HANDLE_BASE + UInt32.ofNat σ.fakeKeys.length,
      { σ with fakeKeys := σ.fakeKeys ++ [{ key := some key, path := some fullPath }] })
  else none

/-- The first cached handle under a path that `_wcsicmp` finds equal. -/
def cached (F : CaseFold) (σ : Store) (fullPath : WStr) : Option HKEY :=
  (σ.handleCache.find? fun e => wcsicmp F e.1 fullPath).map Prod.snd

def cacheLookup (F : CaseFold) (σ : Store) (fullPath : WStr) (newHandle : HKEY) : HKEY × Store :=
  match cached F σ fullPath with
  | some h => (h, σ)
  | none =>
    if σ.handleCache.length < maxCachedHandles then
      (newHandle, { σ with handleCache := σ.handleCache ++ [(fullPath, newHandle)] })
    else (newHandle, σ)

def predefinedRoots : List HKEY := [HKEY_LOCAL_MACHINE, HKEY_CURRENT_USER, HKEY_CLASSES_ROOT]

def buildFullPath (σ : Store) (hKey : HKEY) (lpSubKey : WStr) : WStr :=
  if hKey ∈ HKEY_USERS :: predefinedRoots then lpSubKey
  else
    match getKeyPath σ hKey with
    | none => lpSubKey
    | some basePath => if lpSubKey = [] then basePath else basePath ++ bslash :: lpSubKey

/-! ## Replies -/

inductive LStatus where
  | success | fileNotFound | invalidHandle | invalidParameter | moreData
deriving DecidableEq

inductive Disposition where
  | createdNewKey | openedExistingKey
deriving DecidableEq

/-- What a query returns and stores through its pointers; `none` is a location left alone. -/
structure QueryOut where
  status : LStatus
  lpType : Option UInt32
  lpData : Option (List UInt8)
  lpcbData : Option Nat
deriving DecidableEq

inductive Reply where
  | status (s : LStatus)
  /-- `ERROR_SUCCESS` with `*phkResult`, and `*lpdwDisposition` where the hook has one. -/
  | key (phkResult : HKEY) (lpdwDisposition : Option Disposition)
  | value (out : QueryOut)
  /-- What the real function replies, or `ERROR_INVALID_HANDLE` where there is none. -/
  | forwarded
deriving DecidableEq

/-- The two generations of the API: `RegOpenKeyExW` and `RegCreateKeyExW`, `RegOpenKeyW` and `RegCreateKeyW`. -/
inductive Variant where
  | ex | legacy
deriving DecidableEq

/-- The handles that stand for the root. -/
def Variant.roots : Variant → List HKEY
  | .ex => predefinedRoots
  | .legacy => HKEY_USERS :: predefinedRoots

/-- The reply to a handle that is not in the table. -/
def Variant.notOurs : Variant → Reply
  | .ex => .status .invalidHandle
  | .legacy => .forwarded

def Variant.disposition (F : CaseFold) (H : Heap) (base : Id) (path : WStr) : Variant → Option (Option Disposition)
  | .ex => (keyExists F H base path).map fun existed => some (if existed then .openedExistingKey else .createdNewKey)
  | .legacy => some none

/-- The base key a hook navigates from. -/
def baseKey (v : Variant) (σ : Store) (hKey : HKEY) : Option Id :=
  if hKey ∈ v.roots then some regRoot else handleToKey σ hKey

/-! ## Hooks -/

/-- `AutoSave`, with every file operation succeeding. -/
def autoSave (σ : Store) : Option Store :=
  (saveRegistry σ.heap).map fun ws => { σ with file := some ws.flatten }

/-- A handle for the key, or the one cached for the path. -/
def handOut (F : CaseFold) (σ : Store) (key : Id) (fullPath : WStr) : Option (HKEY × Store) :=
  (allocHandle σ key fullPath).map fun new => cacheLookup F new.2 fullPath new.1

def regCreateKey (v : Variant) (F : CaseFold) (σ : Store) (hKey : HKEY) (lpSubKey : Option WStr) :
    Option (Reply × Store) :=
  let redirected := redirectSubKey F σ.isWow64 hKey (lpSubKey.getD [])
  match baseKey v σ hKey with
  | none => some (v.notOurs, σ)
  | some base =>
    (v.disposition F σ.heap base redirected).bind fun disposition =>
      match navigatePath F true σ.heap base redirected with
      | none => none
      | some (none, H) => some (.status .invalidParameter, { σ with heap := H })
      | some (some key, H) =>
        (handOut F { σ with heap := H } key (buildFullPath σ hKey redirected)).bind fun out =>
          (autoSave out.2).map fun τ => (.key out.1 disposition, τ)

def hookRegCreateKeyExW := regCreateKey .ex
def hookRegCreateKeyW := regCreateKey .legacy

/-- The substring that stands for the service key of the driver. -/
def serviceName : WStr := wide "RVPNNETMP"

def regOpenKey (v : Variant) (F : CaseFold) (σ : Store) (hKey : HKEY) (lpSubKey : Option WStr) :
    Option (Reply × Store) :=
  if serviceName <:+: lpSubKey.getD [] then some (.key FAKE_SERVICE_KEY none, σ)
  else
    let redirected := redirectSubKey F σ.isWow64 hKey (lpSubKey.getD [])
    match baseKey v σ hKey with
    | none => some (v.notOurs, σ)
    | some base =>
      match navigatePath F false σ.heap base redirected with
      | none => none
      | some (none, _) => some (.status .fileNotFound, σ)
      | some (some key, H) =>
        (handOut F { σ with heap := H } key (buildFullPath σ hKey redirected)).map fun out => (.key out.1 none, out.2)

def hookRegOpenKeyExW := regOpenKey .ex
def hookRegOpenKeyW := regOpenKey .legacy

def hookRegSetValueExW (F : CaseFold) (σ : Store) (hKey : HKEY) (lpValueName : Option WStr) (dwType : UInt32)
    (lpData : List UInt8) : Option (Reply × Store) :=
  if hKey = FAKE_SERVICE_KEY then some (.status .success, σ)
  else
    match handleToKey σ hKey with
    | none => some (.status .invalidHandle, σ)
    | some key =>
      (setValue F σ.heap key (lpValueName.getD []) dwType lpData).bind fun H =>
        (autoSave { σ with heap := H }).map fun τ => (.status .success, τ)

def hookRegDeleteValueW (F : CaseFold) (σ : Store) (hKey : HKEY) (lpValueName : Option WStr) :
    Option (Reply × Store) :=
  if hKey = FAKE_SERVICE_KEY then some (.status .success, σ)
  else
    match handleToKey σ hKey with
    | none => some (.forwarded, σ)
    | some key =>
      (deref σ.heap key).bind fun k =>
        let name := F.fold (lpValueName.getD [])
        match Assoc.find (valueKey F) name k.values with
        | none => some (.status .fileNotFound, σ)
        | some _ =>
          let H := write σ.heap key { k with values := Assoc.erase (valueKey F) name k.values }
          (autoSave { σ with heap := H }).map fun τ => (.status .success, τ)

/-- `Hook_RegDeleteKeyW`: the node found and its name are freed; its values and subkeys are leaked, and
neither the handle table nor the cache is told. -/
def hookRegDeleteKeyW (F : CaseFold) (σ : Store) (hKey : HKEY) (lpSubKey : WStr) : Option (Reply × Store) :=
  if hKey = FAKE_SERVICE_KEY then some (.status .success, σ)
  else
    match handleToKey σ hKey with
    | none => some (.forwarded, σ)
    | some base =>
      (deref σ.heap base).bind fun k =>
        match findChild F σ.heap lpSubKey k.children with
        | none => none
        | some none => some (.status .fileNotFound, σ)
        | some (some child) =>
          let H := free (write σ.heap base { k with children := k.children.erase child }) child
          (autoSave { σ with heap := H }).map fun τ => (.status .success, τ)

/-- The key a query works on. A row without a key is filled from its path. -/
def queryKey (F : CaseFold) (σ : Store) (hKey : HKEY) : Option (Option Id × Store) :=
  match handleToKey σ hKey, getKeyPath σ hKey with
  | some key, _ => some (some key, σ)
  | none, none => some (none, σ)
  | none, some path =>
    match navigatePath F true σ.heap regRoot path with
    | none => none
    | some (none, H) => some (none, { σ with heap := H })
    | some (some key, H) =>
      some (some key, { σ with
        heap := H
        fakeKeys := σ.fakeKeys.modify (fakeIndex hKey) fun e => { e with key := some key } })

/-- `Hook_RegQueryValueExW`, with a buffer or not (`lpData`) and its size (`*lpcbData`). The branch for
`FAKE_SERVICE_KEY` is not reached: `HandleToKey` and `GetKeyPath` have turned that handle away before it. -/
def hookRegQueryValueExW (F : CaseFold) (σ : Store) (hKey : HKEY) (lpValueName : Option WStr) (lpData : Bool)
    (lpcbData : Option Nat) : Option (Reply × Store) :=
  match queryKey F σ hKey with
  | none => none
  | some (none, τ) => some (.status .invalidHandle, τ)
  | some (some key, τ) =>
    let name := lpValueName.getD []
    let bufSize := lpcbData.getD 0
    (getValue F τ.heap key name false 0).bind fun v =>
      if ¬ v.ok then some (.status .fileNotFound, τ)
      else if lpcbData = none then none
      else if lpData ∧ bufSize < v.size then
        some (.value { status := .moreData, lpType := v.type, lpData := none, lpcbData := some v.size }, τ)
      else if lpData then
        (getValue F τ.heap key name true v.size).map fun w =>
          (.value { status := .success, lpType := v.type, lpData := w.data, lpcbData := some w.size }, τ)
      else some (.value { status := .success, lpType := v.type, lpData := none, lpcbData := some v.size }, τ)

/-! ## Calls and runs -/

inductive RegCall where
  | createKey (v : Variant) (hKey : HKEY) (lpSubKey : Option WStr)
  | openKey (v : Variant) (hKey : HKEY) (lpSubKey : Option WStr)
  | setValue (hKey : HKEY) (lpValueName : Option WStr) (dwType : UInt32) (lpData : List UInt8)
  | deleteValue (hKey : HKEY) (lpValueName : Option WStr)
  | deleteKey (hKey : HKEY) (lpSubKey : WStr)
  | queryValue (hKey : HKEY) (lpValueName : Option WStr) (lpData : Bool) (lpcbData : Option Nat)
deriving DecidableEq

def hook (F : CaseFold) (σ : Store) : RegCall → Option (Reply × Store)
  | .createKey v hKey sub => regCreateKey v F σ hKey sub
  | .openKey v hKey sub => regOpenKey v F σ hKey sub
  | .setValue hKey name type data => hookRegSetValueExW F σ hKey name type data
  | .deleteValue hKey name => hookRegDeleteValueW F σ hKey name
  | .deleteKey hKey sub => hookRegDeleteKeyW F σ hKey sub
  | .queryValue hKey name data size => hookRegQueryValueExW F σ hKey name data size

/-- A call in a process with its memory: what it leaves must have been allocated. -/
def call (F : CaseFold) (σ : Store) (c : RegCall) : Option (Reply × Store) :=
  (hook F σ c).filter fun r => r.2.heap.Fits

def step (F : CaseFold) (σ : Store) (c : RegCall) : Option Store := (call F σ c).map Prod.snd

end Rvpn.Registry
