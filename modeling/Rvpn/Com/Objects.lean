import Rvpn.Lib.Cells
import Rvpn.Lib.Run
import Mathlib.Logic.Function.Basic

/-!
# The fake COM objects (emulate_driver_running.c:65-399, 480-487, 3312-3333, 3444-3451, 4199-4421, 4531-4646)

The connection list is handed out through COM objects the driver makes itself, each with a 32-bit reference count.
A method that runs on freed memory, or on an object whose vtable is another one, gives `none`, and so does a second
`HeapFree`. `HeapAlloc` succeeds.

| here | there |
| --- | --- |
| `leafRelease`   | `FakeConn_Release`, `FNC_Release`, `FN_Release`   |
| `holderRelease` | `Coll_Release`, `VarEnum_Release`, `FENC_Release` |
| `queryInterfaceAs` | the six `…_QueryInterface` |
| `nextAs`, `resetAs` | `VarEnum_Next`, `FENC_Next`, `VarEnum_Reset`, `FENC_Reset` |
| `State.held`    | the references the client has been given and has not released |
-/

namespace Rvpn.Com

open Cells

abbrev LONG := Int32
abbrev Ptr := Nat

/-- What `lpVtbl` points to. -/
inductive Vtbl where
  | fakeConnection
  | collection
  | varEnum
  | fakeNetworkConnection
  | fakeEnumNetworkConnections
  | fakeNetwork
deriving DecidableEq, Repr

/-- The fields the six structs have between them; a struct without `fakeConnection` has NULL here. -/
structure FakeObject where
  lpVtbl : Vtbl
  refCount : LONG
  fakeConnection : Option Ptr
  alreadyReturned : Bool
deriving DecidableEq, Repr

abbrev Heap := List (Option FakeObject)

inductive IID where
  | IUnknown
  | IDispatch
  | INetConnection
  | INetSharingEveryConnectionCollection
  | IEnumVARIANT
  | IEnumNetSharingEveryConnection
  | INetworkConnection
  | IEnumNetworkConnections
  | INetwork
  | other
deriving DecidableEq, Repr

inductive HRESULT where
  | sOk
  | sFalse
  | eNoInterface
  | eNotImpl
  | ePointer
deriving DecidableEq, Repr

/-! ## Counting -/

/-- The object a method of `v` runs on. -/
def self (v : Vtbl) (H : Heap) (pThis : Ptr) : Option FakeObject := (deref H pThis).filter fun o => o.lpVtbl = v

def heapFree (H : Heap) (p : Ptr) : Option Heap := (deref H p).map fun _ => free H p

/-- `InterlockedIncrement(&pThis->refCount)`, which is all any `…_AddRef` does. -/
def addRef (H : Heap) (pThis : Ptr) : Option (LONG × Heap) :=
  (deref H pThis).map fun o => (o.refCount + 1, write H pThis { o with refCount := o.refCount + 1 })

/-- `InterlockedDecrement(&pThis->refCount)`. -/
def decRef (v : Vtbl) (H : Heap) (pThis : Ptr) : Option (LONG × Heap) :=
  (self v H pThis).map fun o => (o.refCount - 1, write H pThis { o with refCount := o.refCount - 1 })

def leafRelease (v : Vtbl) (H : Heap) (pThis : Ptr) : Option (LONG × Heap) := do
  let (ref, H) ← decRef v H pThis
  let H ← if ref = 0 then heapFree H pThis else some H
  some (ref, H)

def fakeConnRelease := leafRelease .fakeConnection
def fncRelease := leafRelease .fakeNetworkConnection
def fnRelease := leafRelease .fakeNetwork

def holderRelease (v : Vtbl) (connRelease : Heap → Ptr → Option (LONG × Heap)) (H : Heap) (pThis : Ptr) :
    Option (LONG × Heap) := do
  let (ref, H) ← decRef v H pThis
  if ref = 0 then
    let o ← self v H pThis
    let H ← match o.fakeConnection with
      | some conn => (connRelease H conn).map Prod.snd
      | none => some H
    let H ← heapFree H pThis
    some (ref, H)
  else some (ref, H)

def collRelease := holderRelease .collection fakeConnRelease
def varEnumRelease := holderRelease .varEnum fakeConnRelease
def fencRelease := holderRelease .fakeEnumNetworkConnections fncRelease

/-! ## Creating -/

def createFakeNetConnection (H : Heap) : Ptr × Heap := (H.length, alloc H ⟨.fakeConnection, 1, none, false⟩)
def createFakeNetwork (H : Heap) : Ptr × Heap := (H.length, alloc H ⟨.fakeNetwork, 1, none, false⟩)
def createFakeNetworkConnection (H : Heap) : Ptr × Heap := (H.length, alloc H ⟨.fakeNetworkConnection, 1, none, false⟩)

/-- The new object keeps a reference of its own to the adapter. -/
def createHolder (v : Vtbl) (H : Heap) (adapter : Ptr) : Option (Ptr × Heap) :=
  (addRef (alloc H ⟨v, 1, some adapter, false⟩) adapter).map fun r => (H.length, r.2)

def createVarEnumerator := createHolder .varEnum
def createConnectionCollection := createHolder .collection

/-- The new enumerator takes over the reference `CreateFakeNetworkConnection` returns. -/
def createFakeEnumNetworkConnections (H : Heap) : Ptr × Heap :=
  let (conn, H) := createFakeNetworkConnection H
  (H.length, alloc H ⟨.fakeEnumNetworkConnections, 1, some conn, false⟩)

/-! ## The methods that hand out references

The middle component is what the method stores through its out parameter. -/

def queryInterfaceAs (v : Vtbl) (iids : List IID) (H : Heap) (pThis : Ptr) (riid : IID) :
    Option (HRESULT × Option Ptr × Heap) := do
  let _ ← self v H pThis
  if riid ∈ iids then
    let (_, H) ← addRef H pThis
    some (.sOk, some pThis, H)
  else some (.eNoInterface, none, H)

def fakeConnQueryInterface := queryInterfaceAs .fakeConnection [.IUnknown, .INetConnection]
def collQueryInterface :=
  queryInterfaceAs .collection [.IUnknown, .INetSharingEveryConnectionCollection, .IDispatch]
def varEnumQueryInterface :=
  queryInterfaceAs .varEnum [.IUnknown, .IEnumVARIANT, .IEnumNetSharingEveryConnection]
def fncQueryInterface := queryInterfaceAs .fakeNetworkConnection [.IUnknown, .IDispatch, .INetworkConnection]
def fencQueryInterface := queryInterfaceAs .fakeEnumNetworkConnections [.IUnknown, .IEnumNetworkConnections]
def fnQueryInterface := queryInterfaceAs .fakeNetwork [.IUnknown, .IDispatch, .INetwork]

/-- `Coll_Invoke`; `pVarResult` is whether the caller gave a VARIANT to fill. -/
def collInvoke (H : Heap) (pThis : Ptr) (dispIdMember : Int32) (pVarResult : Bool) :
    Option (HRESULT × Option Ptr × Heap) := do
  let c ← self .collection H pThis
  if dispIdMember = 0 ∧ pVarResult then
    let conn ← c.fakeConnection
    let (_, H) ← addRef H conn
    some (.sOk, some conn, H)
  else some (.eNotImpl, none, H)

/-- The `Invoke` of the three objects of the network list. -/
def invokeStub (v : Vtbl) (H : Heap) (pThis : Ptr) : Option (HRESULT × Option Ptr × Heap) :=
  (self v H pThis).map fun _ => (.eNotImpl, none, H)

def collGetNewEnum (H : Heap) (pThis : Ptr) : Option (HRESULT × Option Ptr × Heap) := do
  let c ← self .collection H pThis
  let conn ← c.fakeConnection
  let (en, H) ← createVarEnumerator H conn
  some (.sOk, some en, H)

def setReturned (v : Vtbl) (returned : Bool) (H : Heap) (pThis : Ptr) : Option Heap :=
  (self v H pThis).map fun e => write H pThis { e with alreadyReturned := returned }

def nextAs (v : Vtbl) (H : Heap) (pThis : Ptr) (celt : UInt32) : Option (HRESULT × Option Ptr × Heap) := do
  let e ← self v H pThis
  if e.alreadyReturned = false ∧ 1 ≤ celt then
    let conn ← e.fakeConnection
    let (_, H) ← addRef H conn
    let H ← setReturned v true H pThis
    some (.sOk, some conn, H)
  else some (.sFalse, none, H)

def varEnumNext := nextAs .varEnum
def fencNext := nextAs .fakeEnumNetworkConnections

def resetAs (v : Vtbl) (H : Heap) (pThis : Ptr) : Option (HRESULT × Option Ptr × Heap) :=
  (setReturned v false H pThis).map fun H => (.sOk, none, H)

def varEnumReset := resetAs .varEnum
def fencReset := resetAs .fakeEnumNetworkConnections

/-- `FNC_GetNetwork`; `ppNetwork` is whether the out pointer is there. -/
def fncGetNetwork (H : Heap) (pThis : Ptr) (ppNetwork : Bool) : Option (HRESULT × Option Ptr × Heap) := do
  let _ ← self .fakeNetworkConnection H pThis
  if ppNetwork then
    let (obj, H) := createFakeNetwork H
    some (.sOk, some obj, H)
  else some (.ePointer, none, H)

def nlmGetNetworkConnections (H : Heap) : Option (HRESULT × Option Ptr × Heap) :=
  let (e, H) := createFakeEnumNetworkConnections H
  some (.sOk, some e, H)

/-! ## Calls through the vtable -/

def vtblRelease (H : Heap) (p : Ptr) : Option (LONG × Heap) := do
  let o ← deref H p
  match o.lpVtbl with
  | .fakeConnection => fakeConnRelease H p
  | .collection => collRelease H p
  | .varEnum => varEnumRelease H p
  | .fakeNetworkConnection => fncRelease H p
  | .fakeEnumNetworkConnections => fencRelease H p
  | .fakeNetwork => fnRelease H p

def vtblQueryInterface (H : Heap) (p : Ptr) (riid : IID) : Option (HRESULT × Option Ptr × Heap) := do
  let o ← deref H p
  match o.lpVtbl with
  | .fakeConnection => fakeConnQueryInterface H p riid
  | .collection => collQueryInterface H p riid
  | .varEnum => varEnumQueryInterface H p riid
  | .fakeNetworkConnection => fncQueryInterface H p riid
  | .fakeEnumNetworkConnections => fencQueryInterface H p riid
  | .fakeNetwork => fnQueryInterface H p riid

def vtblInvoke (H : Heap) (p : Ptr) (dispIdMember : Int32) (pVarResult : Bool) :
    Option (HRESULT × Option Ptr × Heap) := do
  let o ← deref H p
  match o.lpVtbl with
  | .collection => collInvoke H p dispIdMember pVarResult
  | .fakeNetworkConnection => invokeStub .fakeNetworkConnection H p
  | .fakeEnumNetworkConnections => invokeStub .fakeEnumNetworkConnections H p
  | .fakeNetwork => invokeStub .fakeNetwork H p
  | .fakeConnection | .varEnum => none

def vtblNext (H : Heap) (p : Ptr) (celt : UInt32) : Option (HRESULT × Option Ptr × Heap) := do
  let o ← deref H p
  match o.lpVtbl with
  | .varEnum => varEnumNext H p celt
  | .fakeEnumNetworkConnections => fencNext H p celt
  | _ => none

def vtblReset (H : Heap) (p : Ptr) : Option (HRESULT × Option Ptr × Heap) := do
  let o ← deref H p
  match o.lpVtbl with
  | .varEnum => varEnumReset H p
  | .fakeEnumNetworkConnections => fencReset H p
  | _ => none

/-! ## The client -/

structure State where
  heap : Heap
  fakeRadminConnection : Option Ptr
  held : Ptr → Nat

def State.init : State := ⟨[], none, fun _ => 0⟩

def getOrCreateFakeRadminConnection (s : State) : Ptr × State :=
  match s.fakeRadminConnection with
  | some conn => (conn, s)
  | none =>
    let (conn, H) := createFakeNetConnection s.heap
    (conn, { s with heap := H, fakeRadminConnection := some conn })

/-- The client keeps a reference it is given. -/
def State.give (s : State) (H : Heap) (out : Option Ptr) : State :=
  { s with
    heap := H
    held := match out with
      | some p => Function.update s.held p (s.held p + 1)
      | none => s.held }

def State.take (s : State) (H : Heap) (p : Ptr) : State :=
  { s with heap := H, held := Function.update s.held p (s.held p - 1) }

def smGetEnumEveryConnection (s : State) : Option (HRESULT × Option Ptr × State) := do
  let (adapter, s) := getOrCreateFakeRadminConnection s
  let (coll, H) ← createConnectionCollection s.heap adapter
  some (.sOk, some coll, { s with heap := H })

inductive Call where
  | getEnumEveryConnection
  | getNetworkConnections
  | addRef (p : Ptr)
  | release (p : Ptr)
  | queryInterface (p : Ptr) (riid : IID)
  | invoke (p : Ptr) (dispIdMember : Int32) (pVarResult : Bool)
  | getNewEnum (p : Ptr)
  | next (p : Ptr) (celt : UInt32)
  | reset (p : Ptr)
  | getNetwork (p : Ptr) (ppNetwork : Bool)
deriving DecidableEq, Repr

/-- One call of the client. -/
def step (s : State) : Call → Option State
  | .getEnumEveryConnection => (smGetEnumEveryConnection s).map fun r => r.2.2.give r.2.2.heap r.2.1
  | .getNetworkConnections => (nlmGetNetworkConnections s.heap).map fun r => s.give r.2.2 r.2.1
  | .addRef p => (addRef s.heap p).map fun r => s.give r.2 (some p)
  | .release p => (vtblRelease s.heap p).map fun r => s.take r.2 p
  | .queryInterface p riid => (vtblQueryInterface s.heap p riid).map fun r => s.give r.2.2 r.2.1
  | .invoke p dispId res => (vtblInvoke s.heap p dispId res).map fun r => s.give r.2.2 r.2.1
  | .getNewEnum p => (collGetNewEnum s.heap p).map fun r => s.give r.2.2 r.2.1
  | .next p celt => (vtblNext s.heap p celt).map fun r => s.give r.2.2 r.2.1
  | .reset p => (vtblReset s.heap p).map fun r => s.give r.2.2 r.2.1
  | .getNetwork p pp => (fncGetNetwork s.heap p pp).map fun r => s.give r.2.2 r.2.1

/-- The object at `p` is live and its vtable is one of these. -/
def State.has (s : State) (p : Ptr) (vs : List Vtbl) : Bool := (deref s.heap p).any fun o => o.lpVtbl ∈ vs

/-- The calls a client may make: a release of a reference it holds, and a method the live object it is called on
has. -/
def Allowed (s : State) : Call → Prop
  | .getEnumEveryConnection | .getNetworkConnections => True
  | .release p => 0 < s.held p
  | .addRef p | .queryInterface p _ => (deref s.heap p).isSome
  | .invoke p _ _ => s.has p [.collection, .fakeNetworkConnection, .fakeEnumNetworkConnections, .fakeNetwork]
  | .getNewEnum p => s.has p [.collection]
  | .next p _ | .reset p => s.has p [.varEnum, .fakeEnumNetworkConnections]
  | .getNetwork p _ => s.has p [.fakeNetworkConnection]

end Rvpn.Com
