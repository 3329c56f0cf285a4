import Rvpn.Lib.Bytes
import Rvpn.Registry.Tree

/-!
# `register.reg`

The file the tree is kept in: the magic number, then the record of the root, a record being

`name, number of values, values, number of subkeys, records of the subkeys`

with numbers as DWORDs and a string as its length with the NUL, then its characters.

| here | there |
| --- | --- |
| `writeWideString`, `readWideString` | `WriteWideString`, `ReadWideString` (`register.c:468-483`) |
| `saveKeyToFile`                     | `SaveKeyToFile` (`:586-610`) |
| `loadKeyFromFile`                   | `LoadKeyFromFile` (`:486-513`) |
| `loadRegistryFromFile`              | `LoadRegistryFromFile` (`:515-583`) |

Saving yields the blocks handed to `WriteToFile` one after the other. Loading reads from the bytes left
of the file; where they run out, what is left of a destination keeps the bytes it held before. Both
recurse over the tree, here with a bound on the depth (`fuel`).
-/

namespace Rvpn.Registry

open Cells Bytes

/-! ## Saving -/

/-- The blocks of a sequence of `WriteToFile` calls. -/
abbrev Writes := List (List UInt8)

def dword (n : Nat) : List UInt8 := leBytes 4 n

def chars (s : WStr) : List UInt8 := units (s.map Subtype.val ++ [0])

def writeWideString (s : WStr) : Writes := [dword (s.length + 1), chars s]

def writeValue (v : RegValue) : Writes :=
  writeWideString v.name ++ [dword v.type.toNat, dword v.data.length, v.data]

/-- The record of a key, with the records of its `count` subkeys. -/
def keyRecord (name : WStr) (values : List RegValue) (count : Nat) (subkeys : Writes) : Writes :=
  writeWideString name ++ dword values.length :: values.flatMap writeValue ++ dword count :: subkeys

def saveKeyToFile (H : Heap) : Nat → Id → Option Writes
  | 0, _ => none
  | fuel + 1, i =>
    match deref H i with
    | none => none
    | some k =>
      (k.children.mapM (saveKeyToFile H fuel)).map fun subs =>
        keyRecord k.name k.values k.children.length subs.flatten

/-- `REGFILE_MAGIC`. -/
def regfileMagic : Nat := 0x46424752

/-- The blocks `SaveRegistryToFile` writes. A path of the tree is no longer than the heap. -/
def saveRegistry (H : Heap) : Option Writes :=
  (saveKeyToFile H H.length regRoot).map fun ws => dword regfileMagic :: ws

/-! ## Loading -/

/-- An open file: the bytes still to be read, and what the destinations of short reads hold. -/
structure Reader where
  rest : List UInt8
  junk : Nat → UInt8

/-- `ReadFromFile(data, size)`. -/
def Reader.read (r : Reader) (size : Nat) : List UInt8 × Reader :=
  let short := size - r.rest.length
  (r.rest.take size ++ (List.range short).map r.junk,
    { rest := r.rest.drop size, junk := fun i => r.junk (i + short) })

def Reader.dword (r : Reader) : Nat × Reader := (ofLE (r.read 4).1, (r.read 4).2)

/-- The string in a buffer of units: what stands before the first NUL. -/
def stringOf (us : List UInt16) : WStr :=
  (us.takeWhile (· ≠ 0)).filterMap fun u => if h : u ≠ 0 then some ⟨u, h⟩ else none

/-- `some none` is the NULL of a zero length; a buffer without a NUL is read past its end. -/
def readWideString (r : Reader) : Option (Option WStr × Reader) :=
  let (len, r) := r.dword
  if len = 0 then some (none, r)
  else
    let (buf, r) := r.read (2 * len % 2 ^ 32)
    if 0 ∈ ofUnits buf then some (some (stringOf (ofUnits buf)), r) else none

/-- The heap together with the file it is being filled from. -/
structure Loading where
  heap : Heap
  file : Reader

/-- One round of the value loop. `SetValue` compares the name, so it must not be NULL: `none`, also where the key has no
value yet to compare with and the code goes on with a value that has no name. -/
def loadValue (F : CaseFold) (key : Id) (s : Loading) : Option Loading :=
  match readWideString s.file with
  | some (some vname, r) =>
    let (type, r) := r.dword
    let (size, r) := r.dword
    let (data, r) := r.read size
    (setValue F s.heap key vname (UInt32.ofNat type) data).map fun H => ⟨H, r⟩
  | _ => none

/-- `f` over and over, `n` times. -/
def iterate {S : Type} (f : S → Option S) : Nat → S → Option S
  | 0, s => some s
  | n + 1, s => (f s).bind (iterate f n)

/-- A record after its name: the key, its values, and `sub` once for each subkey. -/
def loadRecord (F : CaseFold) (sub : Id → Loading → Option Loading) (parent : Id) (name : WStr) (s : Loading) :
    Option Loading :=
  match createKey s.heap (some parent) name with
  | none => none
  | some (key, H) =>
    let (valCount, r) := s.file.dword
    (iterate (loadValue F key) valCount ⟨H, r⟩).bind fun s =>
      let (subCount, r) := s.file.dword
      iterate (sub key) subCount ⟨s.heap, r⟩

def loadKeyFromFile (F : CaseFold) : Nat → Id → Loading → Option Loading
  | 0, _, _ => none
  | fuel + 1, parent, s =>
    match readWideString s.file with
    | none => none
    | some (none, r) => some ⟨s.heap, r⟩
    | some (some name, r) => loadRecord F (loadKeyFromFile F fuel) parent name ⟨s.heap, r⟩

/-- The tree `CreateKey(NULL, L"")` starts. -/
def emptyHeap : Heap := [some { name := [], parent := none, children := [], values := [] }]

/-- What follows the magic number: the record of the root, whose own values are not read, or, where
the first name is not empty, the record of the first real key. -/
def loadRoot (F : CaseFold) (fuel : Nat) (s : Loading) : Option Loading :=
  match readWideString s.file with
  | none => none
  | some (none, r) => some ⟨s.heap, r⟩
  | some (some (c :: cs), r) => loadRecord F (loadKeyFromFile F fuel) regRoot (c :: cs) ⟨s.heap, r⟩
  | some (some [], r) =>
    let (_, r) := r.dword
    let (subCount, r) := r.dword
    iterate (loadKeyFromFile F fuel regRoot) subCount ⟨s.heap, r⟩

/-- `LoadRegistryFromFile` into a fresh tree: its result and the tree it leaves; no file is `none`. -/
def loadRegistryFromFile (F : CaseFold) (fuel : Nat) (junk : Nat → UInt8) (file : Option (List UInt8)) :
    Option (Bool × Heap) :=
  match file with
  | none => some (false, emptyHeap)
  | some bytes =>
    let (magic, r) := Reader.dword ⟨bytes, junk⟩
    if magic ≠ regfileMagic then some (false, emptyHeap)
    else (loadRoot F fuel ⟨emptyHeap, r⟩).map fun s => (true, s.heap)

end Rvpn.Registry
