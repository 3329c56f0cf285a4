import Rvpn.Com.Refs

/-!
# Runs of the client over the fake objects

`exact_refCounts` is the result: every sequence of calls a client may make runs through, and after each the counts are
the numbers of references, the live objects are the referenced ones and no pointer dangles, for as long as no object
has 2^31 references. `refCount_wraps` is where that ends.
-/

namespace Rvpn.Com

open Cells RefCount

variable {p q : Ptr}

/-! ## Runs -/

/-- The references from outside the objects: the client's, and the static variable's. -/
def State.outside (s : State) (p : Ptr) : Nat := s.held p + if s.fakeRadminConnection = some p then 1 else 0

/-- The references to `p`: the client's, the static variable's and those of live objects. -/
def State.refs (s : State) (p : Ptr) : Nat := RefCount.refs FakeObject.fakeConnection s.heap s.outside p

/-- No object has more references than `LONG` has room for. -/
def State.InRange (s : State) : Prop := ∀ p, s.refs p < 2 ^ 31

def State.Sound (s : State) : Prop := Com.Sound s.heap s.fakeRadminConnection s.outside

variable {s t : State}

theorem sound_init : State.init.Sound where
  balanced := ⟨fun p a h => by simp [State.init, deref] at h, fun p => by
    simp [State.init, refs, inbound, State.outside, deref]⟩
  formed p o h := by simp [State.init, deref] at h
  static p h := by cases h

theorem outside_give (s : State) (H : Heap) (out : Option Ptr) : (s.give H out).outside = plus s.outside out := by
  ext q
  show (s.give H out).held q + (if s.fakeRadminConnection = some q then 1 else 0) = _
  cases out with
  | none => simp [State.outside, State.give]
  | some p =>
    by_cases e : q = p
    · subst e
      simp only [State.give, Function.update_self, plus, State.outside, if_true]
      omega
    · simp [State.give, Function.update_of_ne e, plus, State.outside, Ne.symm e]

theorem outside_take (H : Heap) (h : 0 < s.held p) (q : Ptr) :
    (s.take H p).outside q + (if q = p then 1 else 0) = s.outside q := by
  show (s.take H p).held q + (if s.fakeRadminConnection = some q then 1 else 0) + _ = _
  by_cases e : q = p
  · subst e
    simp only [State.take, Function.update_self, State.outside, if_true]
    omega
  · simp [State.take, State.outside, e]

theorem State.Sound.give {hr : HRESULT} {out : Option Ptr} {H' : Heap}
    (hH : Hands s.fakeRadminConnection s.outside (some (hr, out, H'))) (hR : (s.give H' out).InRange) :
    (s.give H' out).Sound := by
  have hR' : Com.InRange H' (s.give H' out).outside := hR
  unfold State.Sound
  rw [outside_give] at hR' ⊢
  exact hH hR'

/-- A call that hands out `r` keeps the state sound, if the counts have room for it. -/
theorem sound_give {r : Option (HRESULT × Option Ptr × Heap)} (hr : Hands s.fakeRadminConnection s.outside r)
    (hR : ∀ t, (r.map fun x => s.give x.2.2 x.2.1) = some t → t.InRange) :
    ∃ t, (r.map fun x => s.give x.2.2 x.2.1) = some t ∧ t.Sound := by
  cases r with
  | none => exact hr.elim
  | some x =>
    obtain ⟨hr', out, H'⟩ := x
    exact ⟨s.give H' out, rfl, State.Sound.give hr (hR _ rfl)⟩

theorem has_iff {vs : List Vtbl} : s.has p vs = true ↔ ∃ o, deref s.heap p = some o ∧ o.lpVtbl ∈ vs := by
  simp [State.has, Option.any_eq_true]

/-- The static connection is there after `GetOrCreateFakeRadminConnection`, counted for the static variable. -/
theorem getOrCreate_sound (hS : s.Sound) :
    ∃ q o s', getOrCreateFakeRadminConnection s = (q, s') ∧ s'.held = s.held ∧ s'.Sound ∧
      deref s'.heap q = some o ∧ o.lpVtbl = .fakeConnection := by
  unfold getOrCreateFakeRadminConnection
  cases hg : s.fakeRadminConnection with
  | some q =>
    have hout : 0 < s.outside q := by simp [State.outside, hg]
    obtain ⟨o, ho⟩ := hS.balanced.of_ext hout
    exact ⟨q, o, s, rfl, rfl, hS, ho, (hS.static q hg).2 o ho⟩
  | none =>
    refine ⟨_, _, _, rfl, rfl, ?_, deref_alloc_self, rfl⟩
    have hold : Sound s.heap none s.outside := by
      have := hS
      unfold State.Sound at this
      rwa [hg] at this
    have hnew : Sound (alloc s.heap ⟨.fakeConnection, 1, none, false⟩) none
        fun r => s.outside r + if r = s.heap.length then 1 else 0 := by
      refine hold.create rfl rfl (fun q hq => by cases hq) fun r => by simp
    refine ⟨?_, hnew.formed, fun p hp => ?_⟩
    · convert hnew.balanced using 2 with r
      simp [State.outside, hg, @eq_comm _ r]
    · simp only [Option.some.injEq] at hp
      subst hp
      refine ⟨by simp, fun o ho => ?_⟩
      rw [deref_alloc_self] at ho
      cases ho
      rfl

theorem getEnumEveryConnection_sound (hS : s.Sound)
    (hR : ∀ t, step s .getEnumEveryConnection = some t → t.InRange) :
    ∃ t, step s .getEnumEveryConnection = some t ∧ t.Sound := by
  obtain ⟨q, o, s', hget, hheld, hS', ho, hv⟩ := getOrCreate_sound hS
  obtain ⟨H', hcreate, hH⟩ := createHolder_hands (v := .collection) .sOk hS' ho hv rfl
  have hstep : step s .getEnumEveryConnection = some (s'.give H' (some s'.heap.length)) := by
    simp [step, smGetEnumEveryConnection, hget, createConnectionCollection, hcreate, State.give]
  exact ⟨_, hstep, State.Sound.give hH (hR _ hstep)⟩

/-- **The step lemma**: a call the client may make returns and keeps the state sound, if no count leaves the range of
`LONG`. -/
theorem step_sound {c : Call} (hS : s.Sound) (hA : Allowed s c) (hR : ∀ t, step s c = some t → t.InRange) :
    ∃ t, step s c = some t ∧ t.Sound := by
  cases c with
  | getEnumEveryConnection => exact getEnumEveryConnection_sound hS hR
  | getNetworkConnections => exact sound_give (nlmGetNetworkConnections_hands hS) hR
  | addRef p =>
    obtain ⟨o, ho⟩ := Option.isSome_iff_exists.1 hA
    have hH := hands_addRef .sOk hS ho
    simp only [step, addRef_eq ho, Option.map_some] at hR ⊢
    exact sound_give hH hR
  | release p =>
    have hpos : 0 < s.outside p := Nat.lt_of_lt_of_le hA (Nat.le_add_right _ _)
    obtain ⟨r, H', hrel, hS'⟩ := vtblRelease_sound hS hpos (outside_take s.heap hA)
    exact ⟨s.take H' p, by simp [step, hrel], hS'⟩
  | queryInterface p riid =>
    obtain ⟨o, ho⟩ := Option.isSome_iff_exists.1 hA
    exact sound_give (vtblQueryInterface_hands riid hS ho) hR
  | invoke p dispId res =>
    obtain ⟨o, ho, hv⟩ := has_iff.1 hA
    refine sound_give ?_ hR
    simp only [vtblInvoke, ho, Option.bind_eq_bind, Option.bind_some]
    cases hk : o.lpVtbl with
    | collection => exact collInvoke_hands dispId res hS ho hk
    | fakeNetworkConnection => exact invokeStub_hands hS ho hk
    | fakeEnumNetworkConnections => exact invokeStub_hands hS ho hk
    | fakeNetwork => exact invokeStub_hands hS ho hk
    | fakeConnection => simp [hk] at hv
    | varEnum => simp [hk] at hv
  | getNewEnum p =>
    obtain ⟨o, ho, hv⟩ := has_iff.1 hA
    exact sound_give (collGetNewEnum_hands hS ho (by simpa using hv)) hR
  | next p celt =>
    obtain ⟨o, ho, hv⟩ := has_iff.1 hA
    refine sound_give ?_ hR
    simp only [vtblNext, ho, Option.bind_eq_bind, Option.bind_some]
    cases hk : o.lpVtbl with
    | varEnum => exact nextAs_hands celt hS ho hk rfl
    | fakeEnumNetworkConnections => exact nextAs_hands celt hS ho hk rfl
    | _ => simp [hk] at hv
  | reset p =>
    obtain ⟨o, ho, hv⟩ := has_iff.1 hA
    refine sound_give ?_ hR
    simp only [vtblReset, ho, Option.bind_eq_bind, Option.bind_some]
    cases hk : o.lpVtbl with
    | varEnum => exact resetAs_hands hS ho hk
    | fakeEnumNetworkConnections => exact resetAs_hands hS ho hk
    | _ => simp [hk] at hv
  | getNetwork p pp =>
    obtain ⟨o, ho, hv⟩ := has_iff.1 hA
    exact sound_give (fncGetNetwork_hands pp hS ho (by simpa using hv)) hR

/-- A call the client may make, after which no object has more references than `LONG` has room for. -/
def Permitted (s : State) (c : Call) : Prop := Allowed s c ∧ ∀ t, step s c = some t → t.InRange

/-- **The counts are exact.** -/
structure ExactRefs (s : State) : Prop where
  counted : ∀ p o, deref s.heap p = some o → o.refCount.toInt = s.refs p
  freed : ∀ p, deref s.heap p = none ↔ s.refs p = 0
  pointers : ∀ p o q, deref s.heap p = some o → o.fakeConnection = some q → ∃ b, deref s.heap q = some b
  held : ∀ p, 0 < s.held p → ∃ o, deref s.heap p = some o
  static : ∀ p, s.fakeRadminConnection = some p → ∃ o, deref s.heap p = some o

theorem State.Sound.exactRefs (hS : s.Sound) : ExactRefs s where
  counted := hS.balanced.exact
  freed p := by
    have hlive : 0 < s.refs p ↔ ∃ o, deref s.heap p = some o := hS.balanced.live p
    rw [Option.eq_none_iff_forall_ne_some]
    constructor
    · intro hn
      by_contra h0
      obtain ⟨o, ho⟩ := hlive.1 (Nat.pos_of_ne_zero h0)
      exact hn o ho
    · rintro h0 o ho
      have := hlive.2 ⟨o, ho⟩
      omega
  pointers _ _ _ := hS.balanced.pointee
  held _ h := hS.balanced.of_ext (Nat.lt_of_lt_of_le h (Nat.le_add_right _ _))
  static p h := hS.balanced.of_ext (by simp [State.outside, h])

/-- **Runs**: no call touches freed memory or frees an object again, and the counts are exact after each. -/
theorem exact_refCounts {calls : List Call} (h : Lts.Guarded step Permitted State.init calls) :
    ∃ s, Lts.run step State.init calls = some s ∧ ExactRefs s := by
  obtain ⟨s, hrun, hS⟩ := h.progress (I := State.Sound) (fun s c hS hP => step_sound hS hP.1 hP.2) sound_init
  exact ⟨s, hrun, hS.exactRefs⟩

theorem refs_le (s : State) (p : Ptr) : s.refs p ≤ s.held p + 1 + s.heap.length := by
  have hin : inbound FakeObject.fakeConnection s.heap p ≤ s.heap.length := List.countP_le_length
  unfold State.refs RefCount.refs State.outside
  split <;> omega

theorem inRange_of_held {n : Nat} (h : ∀ p, s.held p ≤ n) (hn : n + 1 + s.heap.length < 2 ^ 31) : s.InRange := fun p => by
  have hr := refs_le s p
  have hp := h p
  omega

theorem permitted_of_step {t : State} {c : Call} (hs : step s c = some t) (ha : Allowed s c) (hr : t.InRange) :
    Permitted s c :=
  ⟨ha, fun _ ht => Option.some.inj (hs.symm.trans ht) ▸ hr⟩

/-- The collection is fetched and asked for its enumerator, which is released, and so freed. -/
theorem exact_refCounts_enum : ∃ s,
    Lts.run step State.init [.getEnumEveryConnection, .getNewEnum 1, .release 2] = some s ∧
      deref s.heap 2 = none ∧ ExactRefs s := by
  have h₁ : step State.init .getEnumEveryConnection = some ⟨[some ⟨.fakeConnection, 2, none, false⟩,
    some ⟨.collection, 1, some 0, false⟩], some 0, Function.update (fun _ => 0) 1 1⟩ := rfl
  have h₂ : step ⟨[some ⟨.fakeConnection, 2, none, false⟩, some ⟨.collection, 1, some 0, false⟩], some 0,
      Function.update (fun _ => 0) 1 1⟩ (.getNewEnum 1) = some ⟨[some ⟨.fakeConnection, 3, none, false⟩,
    some ⟨.collection, 1, some 0, false⟩, some ⟨.varEnum, 1, some 0, false⟩], some 0,
      Function.update (Function.update (fun _ => 0) 1 1) 2 1⟩ := rfl
  have h₃ : step ⟨[some ⟨.fakeConnection, 3, none, false⟩, some ⟨.collection, 1, some 0, false⟩,
      some ⟨.varEnum, 1, some 0, false⟩], some 0, Function.update (Function.update (fun _ => 0) 1 1) 2 1⟩ (.release 2) =
    some ⟨[some ⟨.fakeConnection, 2, none, false⟩, some ⟨.collection, 1, some 0, false⟩, none], some 0,
      Function.update (Function.update (Function.update (fun _ => 0) 1 1) 2 1) 2 0⟩ := rfl
  have hP₁ := permitted_of_step h₁ trivial (inRange_of_held (n := 1) (fun p => by by_cases e : p = 1 <;> simp [e]) (by decide))
  have hP₂ := permitted_of_step h₂ rfl (inRange_of_held (n := 1)
    (fun p => by by_cases e : p = 1 <;> by_cases e' : p = 2 <;> simp_all) (by decide))
  have hP₃ := permitted_of_step h₃ (by simp [Allowed]) (inRange_of_held (n := 1)
    (fun p => by by_cases e : p = 1 <;> by_cases e' : p = 2 <;> simp_all) (by decide))
  have hrun : Lts.run step State.init [.getEnumEveryConnection, .getNewEnum 1, .release 2] = some _ :=
    Lts.run_cons.2 ⟨_, h₁, Lts.run_cons.2 ⟨_, h₂, Lts.run_cons.2 ⟨_, h₃, Lts.run_nil _⟩⟩⟩
  have hP : Lts.Guarded step Permitted State.init [.getEnumEveryConnection, .getNewEnum 1, .release 2] :=
    .cons hP₁ h₁ (.cons hP₂ h₂ (.cons hP₃ h₃ trivial))
  obtain ⟨s, hs, hexact⟩ := exact_refCounts hP
  obtain rfl := Option.some.inj (hrun.symm.trans hs)
  exact ⟨_, hrun, rfl, hexact⟩

/-! ## Where the counts end -/

/-- A client may add references to a live object without end. -/
theorem run_addRefs {o : FakeObject} (ho : deref s.heap p = some o) (n : Nat) :
    Lts.Guarded step Allowed s (List.replicate n (.addRef p)) ∧
      ∃ t b, Lts.run step s (List.replicate n (.addRef p)) = some t ∧ deref t.heap p = some b ∧
        t.held p = s.held p + n := by
  induction n generalizing s o with
  | zero => exact ⟨trivial, s, o, rfl, ho, rfl⟩
  | succ n ih =>
    have hstep : step s (.addRef p) = some (s.give (write s.heap p { o with refCount := o.refCount + 1 }) (some p)) := by
      simp [step, addRef_eq ho]
    obtain ⟨hg, t, b, hrun, hb, hheld⟩ := ih (s := s.give (write s.heap p { o with refCount := o.refCount + 1 }) (some p))
      (deref_write_self (lt_of_deref ho))
    rw [List.replicate_succ]
    refine ⟨.cons (by simp [Allowed, ho]) hstep hg, t, b, Lts.run_cons.2 ⟨_, hstep, hrun⟩, hb, ?_⟩
    rw [hheld]
    simp [State.give]
    omega

/-- The enumerator with 2^31 references: its count cannot say so. -/
theorem refCount_wraps : ∃ calls s p o, Lts.Guarded step Allowed State.init calls ∧
    Lts.run step State.init calls = some s ∧ deref s.heap p = some o ∧ o.refCount.toInt ≠ s.refs p := by
  obtain ⟨s, hs⟩ : ∃ s, step State.init .getNetworkConnections = some s := ⟨_, rfl⟩
  have hheld : s.held 1 = 1 := by cases hs; rfl
  have ho : deref s.heap 1 = some ⟨.fakeEnumNetworkConnections, 1, some 0, false⟩ := by cases hs; rfl
  obtain ⟨hg, t, b, hrun, hb, ht⟩ := run_addRefs ho (2 ^ 31 - 1)
  refine ⟨.getNetworkConnections :: List.replicate (2 ^ 31 - 1) (.addRef 1), t, 1, b, .cons trivial hs hg, Lts.run_cons.2 ⟨s, hs, hrun⟩, hb, ?_⟩
  have hlt := b.refCount.toInt_lt
  have hrefs : t.held 1 ≤ t.refs 1 := Nat.le_trans (Nat.le_add_right _ _) (Nat.le_add_right _ _)
  omega

end Rvpn.Com
