import Rvpn.Registry.Calls

/-!
# The value store is a case-insensitive map

What a client of the registry counts on: a value is what was last set under its name. The **abstract
side** is the record of the session, the sets and deletes with the key each was resolved to, newest
first (`events`), and `latest` reads a value off it. The **concrete side** is the value list of a
node, reached through any handle. `Agrees` ties the two; every call keeps it (`agrees_call`), and what
`RegQueryValueExW` replies is then a function of the record (`query_latest`).
-/

namespace Rvpn.Registry

open Cells

/-! ## The record of a session -/

/-- A set or delete of a value, and what it left there: a set its type and data, a delete nothing. -/
structure Event where
  key : Id
  name : WStr
  left : Option (UInt32 × List UInt8)

/-- The event is about this value of this key. -/
def Event.On (F : CaseFold) (key : Id) (name : WStr) (e : Event) : Prop :=
  e.key = key ∧ F.fold e.name = F.fold name

instance (F : CaseFold) (key : Id) (name : WStr) (e : Event) : Decidable (e.On F key name) :=
  inferInstanceAs (Decidable (_ ∧ _))

/-- What the newest event on the value has left. -/
def latest (F : CaseFold) (key : Id) (name : WStr) : List Event → Option (UInt32 × List UInt8)
  | [] => none
  | e :: es => if e.On F key name then e.left else latest F key name es

/-- The event a call makes, on the key its handle resolves to; a NULL name is the empty one. -/
def eventOf (σ : Store) : RegCall → List Event
  | .setValue hKey name type data => (handleToKey σ hKey).toList.map fun key => ⟨key, name.getD [], some (type, data)⟩
  | .deleteValue hKey name => (handleToKey σ hKey).toList.map fun key => ⟨key, name.getD [], none⟩
  | _ => []

/-- The events of a run, newest first. -/
def events (F : CaseFold) : Store → List RegCall → List Event
  | _, [] => []
  | σ, c :: cs =>
    match step F σ c with
    | some τ => events F τ cs ++ eventOf σ c
    | none => []

/-- What a query with this buffer has to reply when this is the value. -/
def answer : Option (UInt32 × List UInt8) → Bool → Nat → Reply
  | none, _, _ => .status .fileNotFound
  | some (type, data), lpData, size =>
    if lpData ∧ size < data.length then
      .value { status := .moreData, lpType := some type, lpData := none, lpcbData := some data.length }
    else
      .value {
        status := .success
        lpType := some type
        lpData := if lpData then some data else none
        lpcbData := some data.length }

/-- The calls that remove no key. -/
def RegCall.KeepsKeys : RegCall → Prop
  | .deleteKey .. => False
  | _ => True

variable {F : CaseFold} {σ τ : Store} {c : RegCall} {r : Reply} {es : List Event} {key : Id} {name : WStr} {k : RegKey}

theorem latest_cons_on {e : Event} (h : e.On F key name) : latest F key name (e :: es) = e.left := by
  rw [latest, if_pos h]

theorem latest_cons_not {e : Event} (h : ¬ e.On F key name) : latest F key name (e :: es) = latest F key name es := by
  rw [latest, if_neg h]

theorem latest_append_not {es' : List Event} (h : ∀ e ∈ es', ¬ e.On F key name) :
    latest F key name (es' ++ es) = latest F key name es := by
  induction es' with
  | nil => rfl
  | cons e es' ih =>
    rw [List.cons_append, latest_cons_not (h e (by simp))]
    exact ih fun e he => h e (by simp [he])

/-! ## Agreement -/

/-- The value of a node under a name. -/
def valueOf (F : CaseFold) (k : RegKey) (name : WStr) : Option (UInt32 × List UInt8) :=
  (Assoc.find (valueKey F) (F.fold name) k.values).map fun v => (v.type, v.data)

/-- **The simulation relation**: every node holds what the record says, the record speaks of no key that
is not there yet, and no row of the handle table is dead. -/
structure Agrees (F : CaseFold) (σ : Store) (es : List Event) : Prop where
  values : ∀ {key k}, deref σ.heap key = some k → ∀ name, valueOf F k name = latest F key name es
  fresh : ∀ {key}, σ.heap.length ≤ key → ∀ name, latest F key name es = none
  rows : ∀ {e key}, e ∈ σ.fakeKeys → e.key = some key → ∃ k, deref σ.heap key = some k

theorem agrees_empty (w : Bool) : Agrees F (Store.empty w) [] where
  values := by
    intro key k hk name
    have hkey : key = 0 := by
      have := lt_of_deref hk
      simp only [Store.empty, emptyHeap, List.length_singleton] at this
      omega
    subst hkey
    cases hk
    rfl
  fresh := fun _ _ => rfl
  rows := by simp [Store.empty]

theorem Agrees.live (ha : Agrees F σ es) {h : HKEY} (hh : handleToKey σ h = some key) : ∃ k, deref σ.heap key = some k := by
  obtain ⟨-, e, he, hkey⟩ := handleToKey_eq_some.1 hh
  exact ha.rows (List.mem_of_getElem? he) hkey

theorem Agrees.base_live (ha : Agrees F σ es) (hi : Inv F σ) {v : Variant} {hKey : HKEY} {base : Id}
    (hb : baseKey v σ hKey = some base) : ∃ k, deref σ.heap base = some k := by
  rcases baseKey_cases hi hb with ⟨rfl, -⟩ | ⟨path, hmem, -⟩
  · obtain ⟨k, hk, -⟩ := hi.wf.root
    exact ⟨k, hk⟩
  · exact ha.rows hmem rfl

/-! ### The list operations on values -/

theorem valueOf_put_self {n : WStr} {type : UInt32} {data : List UInt8} (h : F.fold n = F.fold name) :
    valueOf F { k with values := putValue F n type data k.values } name = some (type, data) := by
  have hkey : ∀ v : RegValue, valueKey F { v with type := type, data := data } = valueKey F v := fun _ => rfl
  have hnew : valueKey F ⟨n, type, data⟩ = F.fold n := rfl
  rw [valueOf, ← h]
  show (Assoc.find (valueKey F) (F.fold n) (putValue F n type data k.values)).map _ = _
  rw [putValue, Assoc.find_put_self hkey hnew]
  cases Assoc.find (valueKey F) (F.fold n) k.values with
  | none => rfl
  | some v => rfl

theorem valueOf_put_ne {n : WStr} {type : UInt32} {data : List UInt8} (h : F.fold n ≠ F.fold name) :
    valueOf F { k with values := putValue F n type data k.values } name = valueOf F k name := by
  have hkey : ∀ v : RegValue, valueKey F { v with type := type, data := data } = valueKey F v := fun _ => rfl
  have hnew : valueKey F ⟨n, type, data⟩ = F.fold n := rfl
  rw [valueOf, valueOf]
  show (Assoc.find (valueKey F) (F.fold name) (putValue F n type data k.values)).map _ = _
  rw [putValue, Assoc.find_put_ne hkey hnew (Ne.symm h)]

theorem valueOf_erase_self {n : WStr} (hd : Assoc.Distinct (valueKey F) k.values) (h : F.fold n = F.fold name) :
    valueOf F { k with values := Assoc.erase (valueKey F) (F.fold n) k.values } name = none := by
  rw [valueOf, ← h]
  show (Assoc.find (valueKey F) (F.fold n) (Assoc.erase (valueKey F) (F.fold n) k.values)).map _ = _
  rw [Assoc.find_erase_self hd]
  rfl

theorem valueOf_erase_ne {n : WStr} (h : F.fold n ≠ F.fold name) :
    valueOf F { k with values := Assoc.erase (valueKey F) (F.fold n) k.values } name = valueOf F k name := by
  rw [valueOf, valueOf]
  show (Assoc.find (valueKey F) (F.fold name) (Assoc.erase (valueKey F) (F.fold n) k.values)).map _ = _
  rw [Assoc.find_erase_ne (Ne.symm h)]

/-! ### One call -/

/-- A change of the values of one node agrees with a record that tells of it. -/
theorem Agrees.setValues (ha : Agrees F σ es) (hk : deref σ.heap key = some k) {e : Event} {vs : List RegValue}
    {τ : Store} (hheap : τ.heap = setValues σ.heap key k vs) (hrows : τ.fakeKeys = σ.fakeKeys)
    (hkey : e.key = key)
    (hval : ∀ name, valueOf F { k with values := vs } name = latest F key name (e :: es)) : Agrees F τ (e :: es) where
  values := by
    intro key' k' hk' name
    rw [hheap] at hk'
    rcases deref_write_cases hk' with ⟨rfl, rfl⟩ | ⟨hne, hk'⟩
    · exact hval name
    · rw [latest_cons_not fun h => hne (h.1.symm.trans hkey)]
      exact ha.values hk' name
  fresh := by
    intro key' hle name
    rw [hheap] at hle
    simp only [Registry.setValues, length_write] at hle
    have hlt := lt_of_deref hk
    have hne : e.key ≠ key' := by
      rw [hkey]
      rintro rfl
      exact absurd hle (Nat.not_le_of_lt hlt)
    rw [latest_cons_not fun h => hne h.1]
    exact ha.fresh hle name
  rows := by
    intro e key' he hkey'
    rw [hrows] at he
    obtain ⟨k', hk'⟩ := ha.rows he hkey'
    rw [hheap]
    obtain ⟨ws, hk''⟩ := deref_setValues_old hk vs hk'
    exact ⟨_, hk''⟩

theorem latest_set_eq {type : UInt32} {data : List UInt8} {n : WStr} (ha : Agrees F σ es)
    (hk : deref σ.heap key = some k) :
    valueOf F { k with values := putValue F n type data k.values } name
      = latest F key name (⟨key, n, some (type, data)⟩ :: es) := by
  by_cases h : F.fold n = F.fold name
  · have hon : (⟨key, n, some (type, data)⟩ : Event).On F key name := ⟨rfl, h⟩
    rw [valueOf_put_self h, latest_cons_on hon]
  · rw [valueOf_put_ne h, latest_cons_not fun hon => h hon.2, ha.values hk]

theorem latest_delete_eq {n : WStr} (ha : Agrees F σ es) (hi : Inv F σ) (hk : deref σ.heap key = some k) :
    valueOf F { k with values := Assoc.erase (valueKey F) (F.fold n) k.values } name
      = latest F key name (⟨key, n, none⟩ :: es) := by
  by_cases h : F.fold n = F.fold name
  · have hon : (⟨key, n, none⟩ : Event).On F key name := ⟨rfl, h⟩
    rw [valueOf_erase_self (hi.wf.values hk) h, latest_cons_on hon]
  · rw [valueOf_erase_ne h, latest_cons_not fun hon => h hon.2, ha.values hk]

/-- Deleting what is not there is recorded without a change. -/
theorem Agrees.delete_none (ha : Agrees F σ es) (hk : deref σ.heap key = some k) {n : WStr}
    (hnone : Assoc.find (valueKey F) (F.fold n) k.values = none) : Agrees F σ (⟨key, n, none⟩ :: es) where
  values := by
    intro key' k' hk' name
    by_cases hon : (⟨key, n, none⟩ : Event).On F key' name
    · obtain ⟨rfl, hn⟩ := id hon
      obtain rfl : k = k' := Option.some.inj (hk.symm.trans hk')
      rw [latest_cons_on hon, valueOf, ← hn, hnone]
      rfl
    · rw [latest_cons_not hon]
      exact ha.values hk' name
  fresh := by
    intro key' hle name
    have hlt := lt_of_deref hk
    have hne : key ≠ key' := by
      rintro rfl
      exact absurd hle (Nat.not_le_of_lt hlt)
    rw [latest_cons_not fun h => hne h.1]
    exact ha.fresh hle name
  rows := ha.rows

/-- A row more, for a live key of a tree that has grown. -/
theorem Agrees.grow (ha : Agrees F σ es) {τ : Store} {e : FakeKey} (hg : Grows σ.heap τ.heap)
    (hrows : τ.fakeKeys = σ.fakeKeys ++ [e]) (hlive : ∀ {key}, e.key = some key → ∃ k, deref τ.heap key = some k) :
    Agrees F τ es where
  values := by
    intro key k hk name
    rcases hg.new hk with ⟨k₀, hk₀⟩ | ⟨hle, hnil⟩
    · rw [valueOf, hg.values hk₀ hk]
      exact ha.values hk₀ name
    · rw [valueOf, hnil, ha.fresh hle]
      rfl
  fresh := fun hle => ha.fresh (hg.length.trans hle)
  rows := by
    intro e' key he hkey
    rw [hrows] at he
    rcases List.mem_append.1 he with he | he
    · exact hg.live (ha.rows he hkey)
    · rw [List.mem_singleton] at he
      subst he
      exact hlive hkey

/-- **One call** of any kind but `RegDeleteKeyW` keeps the agreement. -/
theorem agrees_call (hi : Inv F σ) (ha : Agrees F σ es) (hc : c.KeepsKeys) (h : call F σ c = some (r, τ)) :
    Agrees F τ (eventOf σ c ++ es) := by
  cases call_effect hi h with
  | quiet hq =>
    cases c with
    | setValue hKey name type data =>
      have hnone : handleToKey σ hKey = none := hq.1
      simpa [eventOf, hnone] using ha
    | deleteValue hKey name =>
      cases hh : handleToKey σ hKey with
      | none => simpa [eventOf, hh] using ha
      | some key =>
        obtain ⟨k, hk⟩ := ha.live hh
        simpa [eventOf, hh] using ha.delete_none hk (hq.1 key k hh hk)
    | createKey v hKey sub => exact ha
    | openKey v hKey sub => exact ha
    | deleteKey hKey sub => exact ha
    | queryValue hKey name data size => exact ha
  | created hb hwf hg hw ho hs =>
    have hheap := (autoSave_heap hs).1.trans (handOut_heap ho).1
    have hlive := hw.live (hg.live (ha.base_live hi hb))
    refine ha.grow (by rw [hheap]; exact hg) ((autoSave_heap hs).2.1.trans (handOut_heap ho).2.1) ?_
    rintro key ⟨⟩
    rw [hheap]
    exact hlive
  | opened hb hw ho =>
    have hheap := (handOut_heap ho).1
    have hlive := hw.live (ha.base_live hi hb)
    refine ha.grow (by rw [hheap]; exact Grows.refl) (handOut_heap ho).2.1 ?_
    rintro key ⟨⟩
    rw [hheap]
    exact hlive
  | set hh hk hs =>
    have hev := ha.setValues hk (autoSave_heap hs).1 (autoSave_heap hs).2.1 rfl
      fun _ => latest_set_eq ha hk
    simpa [eventOf, hh] using hev
  | erased hh hk hs =>
    have hev := ha.setValues hk (autoSave_heap hs).1 (autoSave_heap hs).2.1 rfl
      fun _ => latest_delete_eq ha hi hk
    simpa [eventOf, hh] using hev
  | unlinked hh hk hj hch hs => exact hc.elim

theorem agrees_run {cs : List RegCall} (hi : Inv F σ) (ha : Agrees F σ es) (hcs : ∀ c ∈ cs, c.KeepsKeys)
    (h : Lts.run (step F) σ cs = some τ) : Agrees F τ (events F σ cs ++ es) := by
  induction cs generalizing σ es with
  | nil =>
    cases h
    exact ha
  | cons c cs ih =>
    obtain ⟨υ, hs, hr⟩ := Lts.run_cons.1 h
    obtain ⟨r, hcall⟩ := step_eq_some.1 hs
    have ha' := agrees_call hi ha (hcs c (by simp)) hcall
    have hrest := ih (inv_call hi hcall) ha' (fun c hc => hcs c (by simp [hc])) hr
    simpa [events, hs] using hrest

/-! ## The reply -/

/-- A query of a live key replies what the value found in its list calls for. -/
theorem query_reply (hi : Inv F σ) {h : HKEY} (hh : handleToKey σ h = some key) (hk : deref σ.heap key = some k)
    (n : Option WStr) (lpData : Bool) (size : Nat) :
    call F σ (.queryValue h n lpData (some size)) = some (answer (valueOf F k (n.getD [])) lpData size, σ) := by
  refine call_eq_some.2 ⟨?_, hi.fits⟩
  simp only [hook, hookRegQueryValueExW, queryKey_eq hi, hh, getValue, hk, Option.map_some, valueOf]
  cases Assoc.find (valueKey F) (F.fold (n.getD [])) k.values with
  | none => rfl
  | some v =>
    by_cases hbuf : lpData = true
    · by_cases hsz : size < v.data.length
      · simp [hbuf, hsz, answer]
      · simp [hbuf, hsz, answer]
    · simp [hbuf, answer]

/-- A handle goes on denoting the key it denotes. -/
theorem handleToKey_call (hi : Inv F σ) (hc : call F σ c = some (r, τ)) {h : HKEY} (hh : handleToKey σ h = some key) :
    handleToKey τ h = some key := by
  obtain ⟨hne, e, he, hkey⟩ := handleToKey_eq_some.1 hh
  refine handleToKey_eq_some.2 ⟨hne, e, ?_, hkey⟩
  rcases (call_effect hi hc).rows hi with heq | ⟨key', path, heq, -, -⟩
  · rw [heq, he]
  · rw [heq, List.getElem?_append_left (List.getElem?_eq_some_iff.1 he).1, he]

/-- **The value store is a map from names, without regard to case, to the values last set.** From an empty
registry, after any calls that remove no key, a query through any handle of a key replies what the newest
event on that key and name has left, with the buffer protocol of `answer`; and a further call that is not
about this value of this key does not change the reply. -/
theorem query_latest (F : CaseFold) (w : Bool) (cs : List RegCall) (hcs : ∀ c ∈ cs, c.KeepsKeys) {σ : Store}
    (hrun : Lts.run (step F) (Store.empty w) cs = some σ) {h : HKEY} {key : Id} (hh : handleToKey σ h = some key)
    (n : Option WStr) (lpData : Bool) (size : Nat) :
    call F σ (.queryValue h n lpData (some size))
      = some (answer (latest F key (n.getD []) (events F (Store.empty w) cs)) lpData size, σ) ∧
    ∀ c r τ, c.KeepsKeys → call F σ c = some (r, τ) → (∀ e ∈ eventOf σ c, ¬ e.On F key (n.getD [])) →
      call F τ (.queryValue h n lpData (some size))
        = some (answer (latest F key (n.getD []) (events F (Store.empty w) cs)) lpData size, τ) := by
  have hi : Inv F σ := inv_run (inv_empty w) hrun
  have ha := agrees_run (inv_empty w) (agrees_empty (F := F) w) hcs hrun
  rw [List.append_nil] at ha
  constructor
  · obtain ⟨k, hk⟩ := ha.live hh
    rw [query_reply hi hh hk, ha.values hk]
  · intro c r τ hc hcall hoff
    have ha' := agrees_call hi ha hc hcall
    have hh' := handleToKey_call hi hcall hh
    obtain ⟨k, hk⟩ := ha'.live hh'
    rw [query_reply (inv_call hi hcall) hh' hk, ha'.values hk, latest_append_not hoff]

/-- A session with two handles on one key and two spellings of one name. -/
def aliasedSession : List RegCall :=
  [.createKey .ex HKEY_LOCAL_MACHINE (some (wide "SOFTWARE\\Famatech")),
   .setValue 0x30000000 (some (wide "Name")) 1 [1, 2, 3],
   .openKey .ex HKEY_CURRENT_USER (some (wide "\\software\\FAMATECH")),
   .setValue 0x30000001 (some (wide "NAME")) 4 [7, 0, 0, 0],
   .setValue 0x30000001 none 3 [],
   .deleteValue 0x30000000 none]

theorem query_latest_aliased : ∃ σ, Lts.run (step asciiFold) (Store.empty false) aliasedSession = some σ ∧
    call asciiFold σ (.queryValue 0x30000000 (some (wide "name")) true (some 3)) =
      some (.value { status := .moreData, lpType := some 4, lpData := none, lpcbData := some 4 }, σ) ∧
    call asciiFold σ (.queryValue 0x30000001 (some (wide "name")) true (some 8)) =
      some (.value { status := .success, lpType := some 4, lpData := some [7, 0, 0, 0], lpcbData := some 4 }, σ) ∧
    call asciiFold σ (.queryValue 0x30000001 none false (some 0)) = some (.status .fileNotFound, σ) := by
  have hcs : ∀ c ∈ aliasedSession, c.KeepsKeys := by simp [aliasedSession, RegCall.KeepsKeys]
  exact ⟨_, rfl,
    (query_latest asciiFold false aliasedSession hcs rfl (h := 0x30000000) rfl (some (wide "name")) true 3).1,
    (query_latest asciiFold false aliasedSession hcs rfl (h := 0x30000001) rfl (some (wide "name")) true 8).1,
    (query_latest asciiFold false aliasedSession hcs rfl (h := 0x30000001) rfl none false 0).1⟩

end Rvpn.Registry
