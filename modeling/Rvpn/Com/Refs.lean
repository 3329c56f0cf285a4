import Mathlib.Algebra.Group.Nat.Defs
import Rvpn.Lib.RefCount
import Rvpn.Com.Objects

/-!
# The reference counts of the fake objects

Every method is one or two moves of the reference ledger: `AddRef` retains, `Release` drops or destroys and then
releases the pointee, a creation retains the adapter and hands that reference to the new object. `Sound` is the ledger's
invariant with the vtables of the pointees; it survives every call a client may make, as long as no object has
2^31 references or more.
-/

namespace Rvpn.Com

open Cells RefCount

/-- The vtable of the object a holder points to. -/
def Vtbl.pointee : Vtbl → Option Vtbl
  | .collection | .varEnum => some .fakeConnection
  | .fakeEnumNetworkConnections => some .fakeNetworkConnection
  | .fakeConnection | .fakeNetworkConnection | .fakeNetwork => none

/-- A live object at `p` has this vtable. -/
def IsA (H : Heap) (p : Ptr) (v : Vtbl) : Prop := ∀ o, deref H p = some o → o.lpVtbl = v

/-- The object holds a pointer exactly if its vtable says so, and to an object of the right kind. -/
def Formed (H : Heap) (o : FakeObject) : Prop :=
  match o.lpVtbl.pointee with
  | some v => ∃ q, o.fakeConnection = some q ∧ IsA H q v
  | none => o.fakeConnection = none

/-- The count `refCount` stands for. -/
def FakeObject.count (o : FakeObject) : Int := o.refCount.toInt

/-- The references counted are those held from outside (`ext`) and by objects. -/
structure Sound (H : Heap) (g : Option Ptr) (ext : Ptr → Nat) : Prop where
  balanced : Balanced FakeObject.fakeConnection FakeObject.count H ext
  formed : ∀ p o, deref H p = some o → Formed H o
  static : ∀ p, g = some p → p < H.length ∧ IsA H p .fakeConnection

variable {H : Heap} {g : Option Ptr} {ext ext' : Ptr → Nat} {p q : Ptr} {o o' : FakeObject} {v : Vtbl}

/-! ## Counts as 32-bit integers -/

theorem toInt_add_one {r : LONG} {n : Nat} (hr : r.toInt = n) (hn : n + 1 < 2 ^ 31) : (r + 1).toInt = r.toInt + 1 := by
  rw [Int32.toInt_add, Int32.toInt_one, Int.bmod_eq_of_le] <;> omega

theorem toInt_sub_one {r : LONG} {n : Nat} (hr : r.toInt = n) (hn : 0 < n) : (r - 1).toInt = r.toInt - 1 := by
  have hlt := r.toInt_lt
  rw [Int32.toInt_sub, Int32.toInt_one, Int.bmod_eq_of_le] <;> omega

theorem sub_one_eq_zero {r : LONG} (h : r - 1 = 0) : r.toInt = 1 := by
  have hr : r = 1 := by
    rw [← Int32.sub_add_cancel r 1, h, Int32.zero_add]
  rw [hr, Int32.toInt_one]

/-! ## Vtables -/

theorem IsA.write (h : IsA H q v) (ho : deref H p = some o) (hv : o'.lpVtbl = o.lpVtbl) : IsA (write H p o') q v := by
  intro b hb
  rcases deref_write_cases hb with ⟨rfl, rfl⟩ | ⟨-, hb⟩
  · rw [hv]
    exact h o ho
  · exact h b hb

theorem IsA.free (h : IsA H q v) : IsA (free H p) q v := fun b hb => h b (deref_free_eq_some.1 hb).2

theorem IsA.alloc (h : IsA H q v) (hq : q < H.length) : IsA (alloc H o) q v := fun b hb => by
  rw [deref_alloc_of_lt hq] at hb
  exact h b hb

theorem Formed.mono {H' : Heap} (h : Formed H o)
    (hto : ∀ q v, o.fakeConnection = some q → IsA H q v → IsA H' q v) : Formed H' o := by
  unfold Formed at h ⊢
  cases hp : o.lpVtbl.pointee with
  | none => simpa only [hp] using h
  | some v =>
    simp only [hp] at h ⊢
    obtain ⟨q, hq, hv⟩ := h
    exact ⟨q, hq, hto q v hq hv⟩

/-- An object with another count or flag is as well formed. -/
theorem Formed.congr (h : Formed H o) (hv : o'.lpVtbl = o.lpVtbl) (hf : o'.fakeConnection = o.fakeConnection) :
    Formed H o' := by
  unfold Formed at h ⊢
  rwa [hv, hf]

/-! ## The moves -/

section Moves

/-- What a write of a live object with the same vtable and pointer leaves as it is. -/
theorem Sound.formed_write (o' : FakeObject) (hS : Sound H g ext) (ho : deref H p = some o) (hv : o'.lpVtbl = o.lpVtbl)
    (hf : o'.fakeConnection = o.fakeConnection) :
    (∀ q b, deref (write H p o') q = some b → Formed (write H p o') b) ∧
      ∀ q, g = some q → q < (write H p o').length ∧ IsA (write H p o') q .fakeConnection := by
  refine ⟨fun q b hb => ?_, fun q hq => ⟨?_, (hS.static q hq).2.write ho hv⟩⟩
  · have hold : Formed H b := by
      rcases deref_write_cases hb with ⟨rfl, rfl⟩ | ⟨-, hb⟩
      · exact (hS.formed q o ho).congr hv hf
      · exact hS.formed q b hb
    exact hold.mono fun _ _ _ h => h.write ho hv
  · rw [length_write]
    exact (hS.static q hq).1

theorem Sound.formed_free (hS : Sound H g ext) :
    (∀ q b, deref (free H p) q = some b → Formed (free H p) b) ∧
      ∀ q, g = some q → q < (free H p).length ∧ IsA (free H p) q .fakeConnection := by
  refine ⟨fun q b hb => ?_, fun q hq => ⟨?_, (hS.static q hq).2.free⟩⟩
  · exact (hS.formed q b (deref_free_eq_some.1 hb).2).mono fun _ _ _ h => h.free
  · rw [length_free]
    exact (hS.static q hq).1

theorem Sound.rewrite (hS : Sound H g ext) (ho : deref H p = some o) (b : Bool) :
    Sound (write H p { o with alreadyReturned := b }) g ext := by
  obtain ⟨hF, hs⟩ := hS.formed_write { o with alreadyReturned := b } ho rfl rfl
  exact ⟨hS.balanced.rewrite ho rfl rfl, hF, hs⟩

theorem Sound.retain (hS : Sound H g ext) (ho : deref H p = some o)
    (hext : ∀ q, ext' q = ext q + if q = p then 1 else 0) (hR : ext' p + inbound FakeObject.fakeConnection H p < 2 ^ 31) :
    Sound (write H p { o with refCount := o.refCount + 1 }) g ext' := by
  have hp := hext p
  have hex := hS.balanced.exact p o ho
  have hc : (o.refCount + 1).toInt = o.refCount.toInt + 1 := by
    apply toInt_add_one hex
    simp only [refs]
    simp only [if_true] at hp
    omega
  obtain ⟨hF, hs⟩ := hS.formed_write { o with refCount := o.refCount + 1 } ho rfl rfl
  exact ⟨hS.balanced.retain ho rfl hc hext, hF, hs⟩

theorem Sound.create (hS : Sound H g ext) (hc : o.refCount = 1) (hF : Formed H o)
    (hlt : ∀ q, o.fakeConnection = some q → q < H.length)
    (hext : ∀ q, ext' q + (if o.fakeConnection = some q then 1 else 0) = ext q + if q = H.length then 1 else 0) :
    Sound (alloc H o) g ext' := by
  have hc' : o.count = 1 := by rw [FakeObject.count, hc, Int32.toInt_one]
  refine ⟨hS.balanced.create hc' hext, fun q b hb => ?_, fun q hq => ?_⟩
  · rcases deref_alloc_cases hb with ⟨-, rfl⟩ | hb
    · exact hF.mono fun q _ hq h => h.alloc (hlt q hq)
    · refine (hS.formed q b hb).mono fun r _ hr h => h.alloc ?_
      obtain ⟨c, hc⟩ := hS.balanced.pointee hb hr
      exact lt_of_deref hc
  · obtain ⟨hlt, hA⟩ := hS.static q hq
    rw [length_alloc]
    exact ⟨Nat.lt_succ_of_lt hlt, hA.alloc hlt⟩

theorem Sound.drop (hS : Sound H g ext) (ho : deref H p = some o) (hne : o.refCount - 1 ≠ 0)
    (hext : ∀ q, ext' q + (if q = p then 1 else 0) = ext q) :
    Sound (write H p { o with refCount := o.refCount - 1 }) g ext' := by
  have hex := hS.balanced.exact p o ho
  have hpos := (hS.balanced.live p).2 ⟨o, ho⟩
  have hc : (o.refCount - 1).toInt = o.refCount.toInt - 1 := toInt_sub_one hex hpos
  have hne' : (o.refCount - 1).toInt ≠ 0 := fun h => hne (Int32.toInt_inj.1 (h.trans Int32.toInt_zero.symm))
  obtain ⟨hF, hs⟩ := hS.formed_write { o with refCount := o.refCount - 1 } ho rfl rfl
  exact ⟨hS.balanced.drop ho rfl hc hne' hext, hF, hs⟩

theorem Sound.destroy (hS : Sound H g ext) (ho : deref H p = some o) (h0 : o.refCount - 1 = 0)
    (hext : ∀ q, ext' q + (if q = p then 1 else 0) = ext q + if o.fakeConnection = some q then 1 else 0) :
    Sound (free H p) g ext' :=
  ⟨hS.balanced.destroy ho (sub_one_eq_zero h0) hext, hS.formed_free.1, hS.formed_free.2⟩

end Moves

/-! ## What an object points to -/

/-- What is pointed to has no pointer itself. -/
theorem pointee_pointee {c : Vtbl} (h : v.pointee = some c) : c.pointee = none := by
  cases v <;> cases h <;> rfl

/-- What a live holder points to. -/
theorem Sound.connection {c : Vtbl} (hS : Sound H g ext) (ho : deref H p = some o) (hc : o.lpVtbl.pointee = some c) :
    ∃ q b, o.fakeConnection = some q ∧ deref H q = some b ∧ b.lpVtbl = c ∧ q ≠ p := by
  have hF := hS.formed p o ho
  unfold Formed at hF
  rw [hc] at hF
  obtain ⟨q, hq, hA⟩ := hF
  obtain ⟨b, hb⟩ := hS.balanced.pointee ho hq
  refine ⟨q, b, hq, hb, hA b hb, ?_⟩
  rintro rfl
  rw [hb, Option.some.injEq] at ho
  subst ho
  rw [hA b hb, pointee_pointee hc] at hc
  cases hc

/-- Every other object points nowhere. -/
theorem Sound.leaf (hS : Sound H g ext) (ho : deref H p = some o) (hn : o.lpVtbl.pointee = none) :
    o.fakeConnection = none := by
  have hF := hS.formed p o ho
  unfold Formed at hF
  rwa [hn] at hF

/-! ## Releases -/

section Releases

theorem self_eq (ho : deref H p = some o) (hv : o.lpVtbl = v) : self v H p = some o := by
  simp [self, ho, hv]

theorem self_write (hp : p < H.length) (hv : o.lpVtbl = v) : self v (write H p o) p = some o :=
  self_eq (deref_write_self hp) hv

theorem decRef_eq (ho : deref H p = some o) (hv : o.lpVtbl = v) :
    decRef v H p = some (o.refCount - 1, write H p { o with refCount := o.refCount - 1 }) := by
  simp [decRef, self_eq ho hv]

/-- A decremented object, or no object when the count was 1. -/
def released (H : Heap) (p : Ptr) (o : FakeObject) : Heap :=
  if o.refCount - 1 = 0 then free H p else write H p { o with refCount := o.refCount - 1 }

theorem leafRelease_eq (ho : deref H p = some o) (hv : o.lpVtbl = v) :
    leafRelease v H p = some (o.refCount - 1, released H p o) := by
  have hp := lt_of_deref ho
  have hd := deref_write_self (a := { o with refCount := o.refCount - 1 }) hp
  by_cases h0 : o.refCount - 1 = 0
  · rw [h0] at hd
    simp [leafRelease, decRef_eq ho hv, released, h0, heapFree, hd, free_write_self]
  · simp [leafRelease, decRef_eq ho hv, released, h0]

theorem Sound.released (hS : Sound H g ext) (ho : deref H p = some o) (hf : o.fakeConnection = none)
    (hext : ∀ q, ext' q + (if q = p then 1 else 0) = ext q) : Sound (released H p o) g ext' := by
  unfold Com.released
  by_cases h0 : o.refCount - 1 = 0
  · rw [if_pos h0]
    exact hS.destroy ho h0 fun q => by simp [hext q, hf]
  · rw [if_neg h0]
    exact hS.drop ho h0 hext

/-- The pointee of a holder is released before the holder is freed; the heap is the one with the holder freed
first. -/
theorem free_released (hne : q ≠ p) : free (released (write H p o) q o') p = released (free H p) q o' := by
  unfold released
  by_cases h0 : o'.refCount - 1 = 0
  · rw [if_pos h0, if_pos h0, free_free_comm, free_write_self]
  · rw [if_neg h0, if_neg h0, free_write_comm (Ne.symm hne), free_write_self]

theorem holderRelease_sound {c : Vtbl} (hS : Sound H g ext) (ho : deref H p = some o) (hv : o.lpVtbl = v)
    (hc : v.pointee = some c) (hext : ∀ q, ext' q + (if q = p then 1 else 0) = ext q) :
    ∃ r H', holderRelease v (leafRelease c) H p = some (r, H') ∧ Sound H' g ext' := by
  have hp := lt_of_deref ho
  obtain ⟨q, b, hq, hb, hbc, hne⟩ := hS.connection ho (by rw [hv]; exact hc)
  by_cases h0 : o.refCount - 1 = 0
  · -- the last reference: the holder's own one on the connection is released with it
    obtain ⟨z, hz, hzv, hzq⟩ : ∃ z : FakeObject, z = { o with refCount := o.refCount - 1 } ∧ z.lpVtbl = v ∧
        z.fakeConnection = some q := ⟨_, rfl, hv, hq⟩
    have hdec := decRef_eq ho hv
    rw [← hz, h0] at hdec
    have hchild : deref (write H p z) q = some b := by rw [deref_write_ne hne, hb]
    have hlive : deref (released (write H p z) q b) p = some z := by
      unfold released
      split
      · rw [deref_free_ne (Ne.symm hne), deref_write_self hp]
      · rw [deref_write_ne (Ne.symm hne), deref_write_self hp]
    have hfree : deref (free H p) q = some b := by rw [deref_free_ne hne, hb]
    have hb0 : b.fakeConnection = none := hS.leaf hb (by rw [hbc]; exact pointee_pointee hc)
    have hmid : Sound (free H p) g fun r => ext' r + if r = q then 1 else 0 := hS.destroy ho h0 fun r => by
      have := hext r
      simp only [hq, Option.some.injEq, @eq_comm _ r q]
      omega
    refine ⟨0, released (free H p) q b, ?_, hmid.released hfree hb0 fun r => rfl⟩
    simp [holderRelease, hdec, self_write hp hzv, hzq, leafRelease_eq hchild hbc, heapFree, hlive, free_released hne]
  · refine ⟨o.refCount - 1, write H p { o with refCount := o.refCount - 1 }, ?_, hS.drop ho h0 hext⟩
    simp [holderRelease, decRef_eq ho hv, h0]

theorem vtblRelease_sound (hS : Sound H g ext) (hpos : 0 < ext p)
    (hext : ∀ q, ext' q + (if q = p then 1 else 0) = ext q) :
    ∃ r H', vtblRelease H p = some (r, H') ∧ Sound H' g ext' := by
  obtain ⟨o, ho⟩ := hS.balanced.of_ext hpos
  have hleaf : ∀ v, o.lpVtbl = v → v.pointee = none →
      ∃ r H', leafRelease v H p = some (r, H') ∧ Sound H' g ext' := fun v hv hn =>
    ⟨_, _, leafRelease_eq ho hv, hS.released ho (hS.leaf ho (by rw [hv]; exact hn)) hext⟩
  simp only [vtblRelease, ho, Option.bind_eq_bind, Option.bind_some]
  cases hv : o.lpVtbl with
  | fakeConnection => exact hleaf _ hv rfl
  | fakeNetworkConnection => exact hleaf _ hv rfl
  | fakeNetwork => exact hleaf _ hv rfl
  | collection => exact holderRelease_sound hS ho hv rfl hext
  | varEnum => exact holderRelease_sound hS ho hv rfl hext
  | fakeEnumNetworkConnections => exact holderRelease_sound hS ho hv rfl hext

end Releases

/-! ## The methods that hand out references -/

section Hands

/-- One more outside reference to what was handed out. -/
def plus (ext : Ptr → Nat) (out : Option Ptr) (q : Ptr) : Nat := ext q + if out = some q then 1 else 0

/-- No object has more references than `LONG` has room for. -/
def InRange (H : Heap) (ext : Ptr → Nat) : Prop := ∀ q, refs FakeObject.fakeConnection H ext q < 2 ^ 31

/-- The method returns, and the reference it hands out is counted, if the counts have room for it. -/
def Hands (g : Option Ptr) (ext : Ptr → Nat) : Option (HRESULT × Option Ptr × Heap) → Prop
  | none => False
  | some (_, out, H') => InRange H' (plus ext out) → Sound H' g (plus ext out)

@[simp] theorem plus_none : plus ext none = ext := by
  ext q
  simp [plus]

theorem plus_some : plus ext (some p) q = ext q + if q = p then 1 else 0 := by
  simp [plus, @eq_comm _ p q]

theorem hands_none (hr : HRESULT) (hS : Sound H g ext) : Hands g ext (some (hr, none, H)) := fun _ => by
  rwa [plus_none]

theorem addRef_eq (ho : deref H p = some o) :
    addRef H p = some (o.refCount + 1, write H p { o with refCount := o.refCount + 1 }) := by simp [addRef, ho]

theorem hands_addRef (hr : HRESULT) (hS : Sound H g ext) (ho : deref H p = some o) :
    Hands g ext (some (hr, some p, write H p { o with refCount := o.refCount + 1 })) := fun hR => by
  have hp := hR p
  simp only [refs, inbound_write (f := FakeObject.fakeConnection) (b := { o with refCount := o.refCount + 1 }) ho rfl]
    at hp
  exact hS.retain ho (fun _ => plus_some) hp

theorem queryInterfaceAs_hands (iids : List IID) (riid : IID) (hS : Sound H g ext) (ho : deref H p = some o)
    (hv : o.lpVtbl = v) : Hands g ext (queryInterfaceAs v iids H p riid) := by
  simp only [queryInterfaceAs, self_eq ho hv, addRef_eq ho, Option.bind_eq_bind, Option.bind_some]
  split
  · exact hands_addRef .sOk hS ho
  · exact hands_none .eNoInterface hS

theorem vtblQueryInterface_hands (riid : IID) (hS : Sound H g ext) (ho : deref H p = some o) :
    Hands g ext (vtblQueryInterface H p riid) := by
  simp only [vtblQueryInterface, ho, Option.bind_eq_bind, Option.bind_some]
  cases hv : o.lpVtbl <;> exact queryInterfaceAs_hands _ riid hS ho hv

theorem collInvoke_hands (dispId : Int32) (res : Bool) (hS : Sound H g ext) (ho : deref H p = some o)
    (hv : o.lpVtbl = .collection) : Hands g ext (collInvoke H p dispId res) := by
  obtain ⟨q, b, hq, hb, -, -⟩ := hS.connection (c := .fakeConnection) ho (by rw [hv]; rfl)
  simp only [collInvoke, self_eq ho hv, hq, addRef_eq hb, Option.bind_eq_bind, Option.bind_some]
  split
  · exact hands_addRef .sOk hS hb
  · exact hands_none .eNotImpl hS

theorem invokeStub_hands (hS : Sound H g ext) (ho : deref H p = some o) (hv : o.lpVtbl = v) :
    Hands g ext (invokeStub v H p) := by
  rw [invokeStub, self_eq ho hv]
  exact hands_none .eNotImpl hS

/-- A holder is created around an adapter: one more reference to the adapter, and the new object is given away. -/
theorem createHolder_hands (hr : HRESULT) (hS : Sound H g ext) (hb : deref H q = some o) (hv : o.lpVtbl = .fakeConnection)
    (hp : v.pointee = some .fakeConnection) :
    ∃ H', createHolder v H q = some (H.length, H') ∧ Hands g ext (some (hr, some H.length, H')) := by
  have hq := lt_of_deref hb
  have hb' : deref (alloc H ⟨v, 1, some q, false⟩) q = some o := deref_alloc_of_deref hb
  refine ⟨alloc (write H q { o with refCount := o.refCount + 1 }) ⟨v, 1, some q, false⟩, ?_, fun hR => ?_⟩
  · rw [createHolder, addRef_eq hb', write_alloc hq]
    rfl
  have hne : q ≠ H.length := Nat.ne_of_lt hq
  have hret : Sound (write H q { o with refCount := o.refCount + 1 }) g fun r => ext r + if r = q then 1 else 0 := by
    refine hS.retain hb (fun _ => rfl) ?_
    have hRq := hR q
    simp only [refs, inbound_alloc, plus_some, if_neg hne, if_true,
      inbound_write (f := FakeObject.fakeConnection) (b := { o with refCount := o.refCount + 1 }) hb rfl] at hRq
    simp only [if_true]
    omega
  refine hret.create rfl ?_ (fun r hr => ?_) fun r => ?_
  · unfold Formed
    rw [hp]
    refine ⟨q, rfl, fun c hc => ?_⟩
    rw [deref_write_self hq] at hc
    cases hc
    exact hv
  · cases hr
    rwa [length_write]
  · simp only [plus_some, length_write, Option.some.injEq, @eq_comm _ q r]
    omega

theorem collGetNewEnum_hands (hS : Sound H g ext) (ho : deref H p = some o) (hv : o.lpVtbl = .collection) :
    Hands g ext (collGetNewEnum H p) := by
  obtain ⟨q, b, hq, hb, hbv, -⟩ := hS.connection (c := .fakeConnection) ho (by rw [hv]; rfl)
  obtain ⟨H', hcreate, hH⟩ := createHolder_hands (v := .varEnum) .sOk hS hb hbv rfl
  simpa only [collGetNewEnum, self_eq ho hv, hq, createVarEnumerator, hcreate, Option.bind_eq_bind,
    Option.bind_some] using hH

theorem nextAs_hands {c : Vtbl} (celt : UInt32) (hS : Sound H g ext) (ho : deref H p = some o) (hv : o.lpVtbl = v)
    (hc : v.pointee = some c) : Hands g ext (nextAs v H p celt) := by
  obtain ⟨q, b, hq, hb, -, hne⟩ := hS.connection ho (by rw [hv]; exact hc)
  simp only [nextAs, self_eq ho hv, hq, addRef_eq hb, Option.bind_eq_bind, Option.bind_some]
  split
  · have ho' : deref (write H q { b with refCount := b.refCount + 1 }) p = some o := by
      rw [deref_write_ne (Ne.symm hne), ho]
    simp only [setReturned, self_eq ho' hv, Option.map_some, Option.bind_some]
    intro hR
    refine Sound.rewrite (hands_addRef .sOk hS hb fun r => ?_) ho' true
    have hRr := hR r
    rwa [refs, inbound_write (b := { o with alreadyReturned := true }) ho' rfl] at hRr
  · exact hands_none .sFalse hS

theorem resetAs_hands (hS : Sound H g ext) (ho : deref H p = some o) (hv : o.lpVtbl = v) :
    Hands g ext (resetAs v H p) := by
  simp only [resetAs, setReturned, self_eq ho hv, Option.map_some]
  exact hands_none .sOk (hS.rewrite ho false)

/-- A new object without a pointer is given away. -/
theorem alloc_hands (hr : HRESULT) (hS : Sound H g ext) (hv : v.pointee = none) :
    Hands g ext (some (hr, some H.length, alloc H ⟨v, 1, none, false⟩)) := fun _ => by
  refine hS.create rfl ?_ (fun q hq => by cases hq) fun q => by simp [plus_some]
  unfold Formed
  rw [hv]

theorem fncGetNetwork_hands (pp : Bool) (hS : Sound H g ext) (ho : deref H p = some o)
    (hv : o.lpVtbl = .fakeNetworkConnection) : Hands g ext (fncGetNetwork H p pp) := by
  simp only [fncGetNetwork, self_eq ho hv, Option.bind_eq_bind, Option.bind_some]
  split
  · exact alloc_hands .sOk hS rfl
  · exact hands_none .ePointer hS

theorem nlmGetNetworkConnections_hands (hS : Sound H g ext) : Hands g ext (nlmGetNetworkConnections H) := by
  intro hR
  have hlen : (alloc H (⟨.fakeNetworkConnection, 1, none, false⟩ : FakeObject)).length = H.length + 1 := length_alloc
  have hconn : Sound (alloc H ⟨.fakeNetworkConnection, 1, none, false⟩) g
      fun r => ext r + if r = H.length then 1 else 0 := by
    refine hS.create rfl rfl (fun q hq => by cases hq) fun r => by simp
  refine hconn.create rfl ⟨H.length, rfl, fun c hc => ?_⟩ (fun r hr => ?_) fun r => ?_
  · rw [deref_alloc_self] at hc
    cases hc
    rfl
  · cases hr
    rw [hlen]
    exact Nat.lt_succ_self _
  · simp only [plus_some, hlen, Option.some.injEq, @eq_comm _ H.length r]
    omega

end Hands

end Rvpn.Com
