import Rvpn.Lib.Threads
import Rvpn.Registry.Api

/-!
# The key tree in memory

`Tree` gives every node an address of its own for good, so a call through a pointer to a freed node has no outcome.
The C heap hands addresses out again, and `RegKey` and `RegValue` are both five words in size: a block that was a key
may come back as a value, with `values` where the value has `next`. Here the tree functions work on such blocks,
word by word.

| here | there |
| --- | --- |
| `Block`, `Block.child` .. `Block.next`  | `RegValue`, `RegKey` (`register.c:12-25`) |
| `createKey`, `navTokens`, `navigatePath`  | `CreateKey` (`:335-345`), `NavigatePath` (`:350-377`) |
| `existsTokens`                            | `KeyExists` (`:816-839`) |
| `setValue`                                | `SetValue` (`:379-397`) |
| `deleteValue`, `deleteKey`                | the loops of `Hook_RegDeleteValueW` (`:678-703`) and `Hook_RegDeleteKeyW` (`:1354-1376`) |
| `saveKeyToFile`, `saveRegistry`           | what `SaveKeyToFile` (`:586-610`) and `SaveRegistryToFile` (`:611-650`) write |
| `HeapAlloc`                               | `HeapAlloc(GetProcessHeap(), HEAP_ZERO_MEMORY, 20)` |

Strings and data are kept in the words that point to them: their blocks are never mistaken for others. `AutoSave`
and the calls that only look leave the memory as it is; what they reply is not part of this, and what is saved is
`saveRegistry` of the memory a call leaves. As in `Tree`,
`none` is a read through a pointer to nothing; here also a walk that comes back to a block and so never ends.
-/

namespace Rvpn.Registry.Raw

open Cells Threads

/-! ## Blocks -/

abbrev Addr := Nat

/-- What a word can hold; NULL is the number 0. -/
inductive Word where
  | number (n : UInt32)
  | ptr (a : Addr)
  | text (s : WStr)
  | bytes (d : List UInt8)
deriving DecidableEq

def NULL : Word := .number 0

/-- What a block was allocated as. The code does not see it. -/
inductive Kind where
  | key | value
deriving DecidableEq

/-- Five words, by their offsets. -/
structure Block where
  kind : Kind
  w0 : Word
  w4 : Word
  w8 : Word
  w12 : Word
  w16 : Word
deriving DecidableEq

abbrev Memory := List (Option Block)

/-- `HEAP_ZERO_MEMORY`. -/
def zeroed (kind : Kind) : Block := ⟨kind, NULL, NULL, NULL, NULL, NULL⟩

/-- A word read as a pointer to a block. -/
def Word.link : Word → Option (Option Addr)
  | .number n => if n = 0 then some none else none
  | .ptr a => some (some a)
  | _ => none

/-- A pointer to a block written into a word. -/
def linkWord : Option Addr → Word
  | none => NULL
  | some a => .ptr a

/-- `(name && *name) ? _wcsdup(name) : NULL` -/
def nameWord (name : WStr) : Word := if name = [] then NULL else .text name

/-- `key->child`, `key->sibling` and `key->values`, and `v->next`. -/
def Block.child (b : Block) : Option (Option Addr) := b.w8.link
def Block.sibling (b : Block) : Option (Option Addr) := b.w12.link
def Block.values (b : Block) : Option (Option Addr) := b.w16.link
def Block.next (b : Block) : Option (Option Addr) := b.w16.link

/-- `_wcsicmp(x->name, name) == 0`; there is no comparing with NULL. -/
def Block.named (F : CaseFold) (name : WStr) (b : Block) : Option Bool :=
  match b.w0 with
  | .text s => some (wcsicmp F s name)
  | _ => none

/-- The heap: a free address, or out of memory. -/
structure HeapAlloc where
  pick : Memory → Option Addr
  fresh : ∀ {M a}, pick M = some a → deref M a = none

/-- An assignment to a field of the block at an address. -/
def assign (M : Memory) (a : Addr) (f : Block → Block) : Option Memory := (deref M a).map fun b => write M a (f b)

/-- `HeapFree` of what a word points to. -/
def release (M : Memory) : Word → Option Memory
  | .number n => if n = 0 then some M else none
  | .ptr a => (deref M a).map fun _ => free M a
  | _ => some M

/-! ## The tree functions -/

def createKey (heap : HeapAlloc) (M : Memory) (parent : Option Addr) (name : WStr) : Option (Addr × Memory) := do
  let key ← heap.pick M
  let M := place M key { zeroed .key with w0 := nameWord name, w4 := linkWord parent }
  match parent with
  | none => some (key, M)
  | some p => do
    let b ← deref M p
    let M ← assign M key fun k => { k with w12 := b.w8 }
    let M ← assign M p fun b => { b with w8 := .ptr key }
    some (key, M)

/-- The search loop of every walk: the block of that name, and the one before it. -/
def search (F : CaseFold) (next : Block → Option (Option Addr)) (M : Memory) (head : Option Addr) (name : WStr) :
    Option (Option Addr × Option Addr) :=
  scan next (Block.named F name) M M.length none head

def childOf (F : CaseFold) (M : Memory) (cur : Addr) (token : WStr) : Option (Option Addr × Option Addr) := do
  let b ← deref M cur
  let head ← b.child
  search F Block.sibling M head token

def navTokens (F : CaseFold) (heap : HeapAlloc) (create : Bool) : Memory → Addr → List WStr → Option (Option Addr × Memory)
  | M, cur, [] => some (some cur, M)
  | M, cur, token :: ts =>
    match childOf F M cur token with
    | none => none
    | some (_, some child) => navTokens F heap create M child ts
    | some (_, none) =>
      if create then
        match createKey heap M (some cur) token with
        | none => none
        | some (child, M') => navTokens F heap create M' child ts
      else some (none, M)

def navigatePath (F : CaseFold) (heap : HeapAlloc) (create : Bool) (M : Memory) (base : Addr) (path : WStr) :
    Option (Option Addr × Memory) :=
  if path = [] then some (some base, M)
  else navTokens F heap create M base (tokens (lstrcpynW path 512))

def existsTokens (F : CaseFold) (M : Memory) : Addr → List WStr → Option Bool
  | _, [] => some true
  | cur, token :: ts =>
    match childOf F M cur token with
    | none => none
    | some (_, none) => some false
    | some (_, some child) => existsTokens F M child ts

def valueOf (F : CaseFold) (M : Memory) (key : Addr) (name : WStr) : Option (Option Addr × Option Addr) := do
  let b ← deref M key
  let head ← b.values
  search F Block.next M head name

/-- The new value of `SetValue`, in front of the others. -/
def newValue (heap : HeapAlloc) (M : Memory) (key : Addr) (name : WStr) : Option (Addr × Memory) := do
  let v ← heap.pick M
  let M := place M v { zeroed .value with w0 := .text name }
  let b ← deref M key
  let M ← assign M v fun c => { c with w16 := b.w16 }
  let M ← assign M key fun b => { b with w16 := .ptr v }
  some (v, M)

/-- `SetValue` from the value on. -/
def fillValue (M : Memory) (v : Addr) (type : UInt32) (data : List UInt8) : Option Memory := do
  let b ← deref M v
  let M ← release M b.w12
  assign M v fun b => { b with w4 := .number type, w8 := .number (UInt32.ofNat data.length), w12 := .bytes data }

def setValue (F : CaseFold) (heap : HeapAlloc) (M : Memory) (key : Addr) (name : WStr) (type : UInt32)
    (data : List UInt8) : Option Memory :=
  match valueOf F M key name with
  | none => none
  | some (_, some v) => fillValue M v type data
  | some (_, none) =>
    match newValue heap M key name with
    | none => none
    | some (v, M') => fillValue M' v type data

/-- Takes the value out of the list and frees it, or finds none. -/
def deleteValue (F : CaseFold) (M : Memory) (key : Addr) (name : WStr) : Option (Bool × Memory) :=
  match valueOf F M key name with
  | none => none
  | some (_, none) => some (false, M)
  | some (prev, some v) => do
    let c ← deref M v
    -- `prev->next` and `key->values` are at one offset
    let M ← assign M (prev.getD key) fun b => { b with w16 := c.w16 }
    let M ← release M c.w0
    let M ← release M c.w12
    some (true, free M v)

/-- `if (prev) prev->sibling = w; else base->child = w;` -/
def setSibling (M : Memory) (base : Addr) (prev : Option Addr) (w : Word) : Option Memory :=
  match prev with
  | some p => assign M p fun b => { b with w12 := w }
  | none => assign M base fun b => { b with w8 := w }

/-- Takes the subkey out of the sibling list and frees it, or finds none. -/
def deleteKey (F : CaseFold) (M : Memory) (base : Addr) (lpSubKey : WStr) : Option (Bool × Memory) :=
  match childOf F M base lpSubKey with
  | none => none
  | some (_, none) => some (false, M)
  | some (prev, some child) => do
    let c ← deref M child
    let M ← setSibling M base prev c.w12
    let M ← release M c.w0
    some (true, free M child)

/-! ## Saving -/

/-- The blocks written for the value at an address. -/
def writeValueAt (M : Memory) (v : Addr) : Option Writes :=
  (deref M v).bind fun b =>
    match b.w0, b.w4, b.w8, b.w12 with
    | .text name, .number type, .number size, .bytes data =>
      if size.toNat ≤ data.length then
        some (writeWideString name ++ [dword type.toNat, dword size.toNat, data.take size.toNat])
      else none
    | _, _, _, _ => none

/-- `key->name ? key->name : L""` -/
def keyName : Word → Option WStr
  | .text s => some s
  | .number n => if n = 0 then some [] else none
  | _ => none

/-- The blocks `SaveKeyToFile` writes; `fuel` bounds the depth of the tree. -/
def saveKeyToFile (M : Memory) : Nat → Addr → Option Writes
  | 0, _ => none
  | fuel + 1, key => do
    let b ← deref M key
    let name ← keyName b.w0
    let vs ← b.values.bind (chain Block.next M M.length)
    let values ← vs.mapM (writeValueAt M)
    let cs ← b.child.bind (chain Block.sibling M M.length)
    let subkeys ← cs.mapM (saveKeyToFile M fuel)
    some (writeWideString name ++ dword vs.length :: values.flatten ++ dword cs.length :: subkeys.flatten)

def saveRegistry (M : Memory) (fuel : Nat) (root : Addr) : Option Writes :=
  (saveKeyToFile M fuel root).map fun ws => dword regfileMagic :: ws

/-! ## Hooks -/

/-- The process. Handles and the cache are those of a `Store` with addresses for nodes; its `heap` and `file` are
not used. -/
structure Machine where
  tables : Store
  memory : Memory
  /-- `g_regRoot`. -/
  regRoot : Addr

/-- `Register_InstallHooks` where there is no `register.reg`. -/
def Machine.start (isWow64 : Bool) (heap : HeapAlloc) : Option Machine :=
  (createKey heap [] none []).map fun root =>
    { tables := Store.empty isWow64, memory := root.2, regRoot := root.1 }

variable (F : CaseFold) (heap : HeapAlloc)

def baseKey (v : Variant) (m : Machine) (hKey : HKEY) : Option Addr :=
  if hKey ∈ v.roots then some m.regRoot else handleToKey m.tables hKey

def disposition (m : Machine) (base : Addr) (path : WStr) : Variant → Option (Option Disposition)
  | .ex =>
    (existsTokens F m.memory base (tokens (lstrcpynW path 512))).map fun existed =>
      some (if existed then .openedExistingKey else .createdNewKey)
  | .legacy => some none

def regCreateKey (v : Variant) (m : Machine) (hKey : HKEY) (lpSubKey : Option WStr) : Option (Reply × Machine) :=
  let redirected := redirectSubKey F m.tables.isWow64 hKey (lpSubKey.getD [])
  match baseKey v m hKey with
  | none => some (v.notOurs, m)
  | some base =>
    (disposition F m base redirected v).bind fun d =>
      match navigatePath F heap true m.memory base redirected with
      | none => none
      | some (none, M) => some (.status .invalidParameter, { m with memory := M })
      | some (some key, M) =>
        (handOut F m.tables key (buildFullPath m.tables hKey redirected)).map fun out =>
          (.key out.1 d, { m with tables := out.2, memory := M })

def regOpenKey (v : Variant) (m : Machine) (hKey : HKEY) (lpSubKey : Option WStr) : Option (Reply × Machine) :=
  if serviceName <:+: lpSubKey.getD [] then some (.key FAKE_SERVICE_KEY none, m)
  else
    let redirected := redirectSubKey F m.tables.isWow64 hKey (lpSubKey.getD [])
    match baseKey v m hKey with
    | none => some (v.notOurs, m)
    | some base =>
      match navigatePath F heap false m.memory base redirected with
      | none => none
      | some (none, _) => some (.status .fileNotFound, m)
      | some (some key, M) =>
        (handOut F m.tables key (buildFullPath m.tables hKey redirected)).map fun out =>
          (.key out.1 none, { m with tables := out.2, memory := M })

def hookRegSetValueExW (m : Machine) (hKey : HKEY) (lpValueName : Option WStr) (dwType : UInt32) (lpData : List UInt8) :
    Option (Reply × Machine) :=
  if hKey = FAKE_SERVICE_KEY then some (.status .success, m)
  else
    match handleToKey m.tables hKey with
    | none => some (.status .invalidHandle, m)
    | some key =>
      (setValue F heap m.memory key (lpValueName.getD []) dwType lpData).map fun M =>
        (.status .success, { m with memory := M })

def hookRegDeleteValueW (m : Machine) (hKey : HKEY) (lpValueName : Option WStr) : Option (Reply × Machine) :=
  if hKey = FAKE_SERVICE_KEY then some (.status .success, m)
  else
    match handleToKey m.tables hKey with
    | none => some (.forwarded, m)
    | some key =>
      (deleteValue F m.memory key (lpValueName.getD [])).map fun out =>
        (.status (if out.1 then .success else .fileNotFound), { m with memory := out.2 })

def hookRegDeleteKeyW (m : Machine) (hKey : HKEY) (lpSubKey : WStr) : Option (Reply × Machine) :=
  if hKey = FAKE_SERVICE_KEY then some (.status .success, m)
  else
    match handleToKey m.tables hKey with
    | none => some (.forwarded, m)
    | some base =>
      (deleteKey F m.memory base lpSubKey).map fun out =>
        (.status (if out.1 then .success else .fileNotFound), { m with memory := out.2 })

/-- What a call leaves behind. `RegQueryValueExW` finds the key of every row in the table (`queryKey_eq`), so like the
enumerations it only looks. -/
def hook (m : Machine) : ApiCall → Option Machine
  | .reg (.createKey v hKey sub) => (regCreateKey F heap v m hKey sub).map Prod.snd
  | .reg (.openKey v hKey sub) => (regOpenKey F heap v m hKey sub).map Prod.snd
  | .reg (.setValue hKey name type data) => (hookRegSetValueExW F heap m hKey name type data).map Prod.snd
  | .reg (.deleteValue hKey name) => (hookRegDeleteValueW F m hKey name).map Prod.snd
  | .reg (.deleteKey hKey sub) | .deleteKeyEx hKey sub | .deleteTree hKey sub =>
    (hookRegDeleteKeyW F m hKey sub).map Prod.snd
  | .getValue hKey sub .. =>
    if sub.getD [] = [] then some m else (regOpenKey F heap .ex m hKey sub).map Prod.snd
  | .reg (.queryValue ..) | .copyTree .. | .enumKeyEx .. | .enumKey .. | .enumValue .. | .queryInfoKey .. | .closeKey _
  | .notifyChange _ | .setKeySecurity _ => some m

/-- A call, and what the heap does during it. -/
structure Event where
  heap : HeapAlloc
  call : ApiCall

def step (m : Machine) (e : Event) : Option Machine := hook F e.heap m e.call

/-! ## A well-formed tree -/

/-- The subkeys of a key, first child first, and its values. -/
def Children (M : Memory) (a : Addr) (cs : List Addr) : Prop :=
  ∃ p, nextAt Block.child M a = some p ∧ Seg Block.sibling M p cs none

def Values (M : Memory) (a : Addr) (vs : List Addr) : Prop :=
  ∃ p, nextAt Block.values M a = some p ∧ Seg Block.next M p vs none

/-- In the tree under a root. -/
inductive InTree (M : Memory) (root : Addr) : Addr → Prop
  | root : InTree M root root
  | child {a c : Addr} {cs : List Addr} (ha : InTree M root a) (hcs : Children M a cs) (hc : c ∈ cs) : InTree M root c

def nameAt (M : Memory) (a : Addr) : Option Word := (deref M a).map Block.w0

def parentAt (M : Memory) (a : Addr) : Option Word := (deref M a).map Block.w4

/-- The blocks have these names, no two of them equal under `_wcsicmp`. -/
def Named (M : Memory) (as : List Addr) (names : List WStr) : Prop :=
  as.map (nameAt M) = names.map (fun s => some (.text s)) ∧ names.Pairwise fun s t => ¬ wcsicmp F s t = true

/-- **A well-formed tree**: every list ends; names differ; a subkey has a proper name and points back; and the links
form a finite tree, in which a key is in one place only and none is below itself. -/
structure WellFormed (M : Memory) (root : Addr) : Prop where
  children : ∀ {a}, InTree M root a → ∃ cs names, Children M a cs ∧ Named F M cs names ∧
    (∀ s ∈ names, s ≠ [] ∧ bslash ∉ s) ∧ ∀ c ∈ cs, parentAt M c = some (.ptr a)
  values : ∀ {a}, InTree M root a → ∃ vs names, Values M a vs ∧ Named F M vs names
  once : ∀ {a a' c cs cs'}, InTree M root a → InTree M root a' → Children M a cs → Children M a' cs' → c ∈ cs → c ∈ cs' →
    a = a' ∧ cs.Nodup
  acyclic : ∃ depth : Addr → Nat, ∀ {a c cs}, InTree M root a → Children M a cs → c ∈ cs → depth a < depth c
  finite : ∃ all : List Addr, ∀ {a}, InTree M root a → a ∈ all

end Rvpn.Registry.Raw
