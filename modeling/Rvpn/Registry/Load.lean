import Rvpn.Registry.Calls
import Rvpn.Registry.Forest

/-!
# Loading what was saved

`LoadKeyFromFile` run over the encoding of a forest builds that forest again, every list turned round
(`CreateKey` and `SetValue` put in front), reads exactly the bytes of the encoding and touches nothing
but the children of the key it loads under (`buildForest`; `loadForest` in a well-formed tree). Whatever the file, the values of the root are
not among what is loaded (`load_root_plain`).
-/

namespace Rvpn.Registry

open Cells Bytes

variable {F : CaseFold} {H : Heap} {k : RegKey} {rest : List UInt8} {junk : Nat → UInt8}

/-! ## Fields -/

theorem Reader.read_append (bs rest : List UInt8) (junk : Nat → UInt8) :
    Reader.read ⟨bs ++ rest, junk⟩ bs.length = (bs, ⟨rest, junk⟩) := by
  simp [Reader.read]

theorem Reader.dword_append {n : Nat} (h : n < 2 ^ 32) (rest : List UInt8) (junk : Nat → UInt8) :
    Reader.dword ⟨Registry.dword n ++ rest, junk⟩ = (n, ⟨rest, junk⟩) := by
  have hread : Reader.read ⟨Registry.dword n ++ rest, junk⟩ 4 = (Registry.dword n, ⟨rest, junk⟩) := by
    simpa [Registry.dword] using Reader.read_append (Registry.dword n) rest junk
  rw [Reader.dword, hread, Registry.dword, ofLE_leBytes_of_lt h]

theorem stringOf_units (s : WStr) : stringOf (s.map Subtype.val ++ [0]) = s := by
  induction s with
  | nil => rfl
  | cons c s ih =>
    have hc : c.1 ≠ 0 := c.2
    simp only [stringOf, List.map_cons, List.cons_append, List.takeWhile_cons, ne_eq, hc, not_false_eq_true,
      decide_true, if_true, List.filterMap_cons, dif_pos] at ih ⊢
    rw [ih]

theorem readWideString_append {s : WStr} (h : 2 * (s.length + 1) < 2 ^ 32) (rest : List UInt8) (junk : Nat → UInt8) :
    readWideString ⟨(writeWideString s).flatten ++ rest, junk⟩ = some (some s, ⟨rest, junk⟩) := by
  have hlen : (chars s).length = 2 * (s.length + 1) % 2 ^ 32 := by
    rw [Nat.mod_eq_of_lt h, chars, length_units]
    simp
  have hzero : (0 : UInt16) ∈ s.map Subtype.val ++ [0] := by simp
  have hflat : (writeWideString s).flatten ++ rest = dword (s.length + 1) ++ (chars s ++ rest) := by
    simp [writeWideString]
  rw [readWideString, hflat]
  simp only [Reader.dword_append (show s.length + 1 < 2 ^ 32 by omega), Nat.succ_ne_zero, if_false]
  rw [← hlen, Reader.read_append]
  simp only [chars, ofUnits_units, hzero, if_true, stringOf_units]

/-! ## Values -/

theorem valueBytes_le {v : RegValue} {vs : List RegValue} (hv : v ∈ vs) {name : WStr} {n : Nat} :
    v.bytes ≤ nodeBytes name n vs := by
  have hsum : v.bytes ≤ (vs.map RegValue.bytes).sum := List.le_sum_of_mem (List.mem_map_of_mem hv)
  unfold nodeBytes
  omega

/-- Reading a value back is setting it. -/
theorem loadValue_append {v : RegValue} (hb : v.bytes < 2 ^ 32) {i : Id} (hk : deref H i = some k) :
    loadValue F i ⟨H, ⟨(writeValue v).flatten ++ rest, junk⟩⟩ =
      some ⟨setValues H i k (putValue F v.name v.type v.data k.values), ⟨rest, junk⟩⟩ := by
  have hname : 2 * (v.name.length + 1) < 2 ^ 32 := by unfold RegValue.bytes at hb; omega
  have hdata : v.data.length < 2 ^ 32 := by unfold RegValue.bytes at hb; omega
  have hflat : (writeValue v).flatten ++ rest = (writeWideString v.name).flatten ++
      (dword v.type.toNat ++ (dword v.data.length ++ (v.data ++ rest))) := by simp [writeValue]
  rw [loadValue, hflat]
  simp only [readWideString_append hname, Reader.dword_append v.type.toNat_lt, Reader.dword_append hdata,
    Reader.read_append, UInt32.ofNat_toNat, setValue_of_deref hk, Option.map_some]

theorem putValue_new {vs : List RegValue} {v : RegValue} (h : ∀ w ∈ vs, valueKey F w ≠ valueKey F v) :
    putValue F v.name v.type v.data vs = v :: vs := by
  have hnone : Assoc.find (valueKey F) (F.fold v.name) vs = none := Assoc.find_eq_none.2 h
  rw [putValue, Assoc.put_of_find_none hnone]

theorem setValues_setValues {i : Id} {vs ws : List RegValue} :
    setValues (setValues H i k vs) i { k with values := vs } ws = setValues H i k ws := by
  simp [setValues, write]

/-- **The value loop** pushes the values one after the other, so they end up turned round. -/
theorem loadValues_append {vs : List RegValue} (hb : ∀ v ∈ vs, v.bytes < 2 ^ 32) {i : Id}
    (hk : deref H i = some k) (hd : Assoc.Distinct (valueKey F) (vs.reverse ++ k.values)) :
    iterate (loadValue F i) vs.length ⟨H, ⟨(vs.flatMap writeValue).flatten ++ rest, junk⟩⟩ =
      some ⟨setValues H i k (vs.reverse ++ k.values), ⟨rest, junk⟩⟩ := by
  induction vs generalizing H k with
  | nil =>
    have hsame : setValues H i k k.values = H := by
      apply List.ext_getElem?
      intro j
      by_cases hj : i = j
      · subst hj
        have hlt := lt_of_deref hk
        have hget : H[i]? = some (some k) := by
          simpa [deref, Option.join_eq_some_iff] using hk
        rw [setValues, write, List.getElem?_set_self hlt, hget]
      · rw [setValues, write, List.getElem?_set_ne hj]
    simp [iterate, hsame]
  | cons v vs ih =>
    have hrev : (v :: vs).reverse ++ k.values = vs.reverse ++ (v :: k.values) := by simp
    have hnew : ∀ w ∈ k.values, valueKey F w ≠ valueKey F v := by
      intro w hw he
      rw [hrev] at hd
      exact (List.pairwise_cons.1 (List.pairwise_append.1 hd).2.1).1 w hw he.symm
    have hflat : ((v :: vs).flatMap writeValue).flatten ++ rest =
        (writeValue v).flatten ++ ((vs.flatMap writeValue).flatten ++ rest) := by simp
    have hk' : deref (setValues H i k (v :: k.values)) i = some { k with values := v :: k.values } :=
      deref_setValues_self hk
    rw [hflat, List.length_cons, iterate, loadValue_append (hb v (by simp)) hk, putValue_new hnew]
    rw [hrev] at hd ⊢
    rw [Option.bind_some, ih (fun w hw => hb w (by simp [hw])) hk' hd, setValues_setValues]

/-! ## Keys -/

/-- What loading a row of keys under `p` has done: `ids` are the new keys in the order of the file. -/
structure Loaded (F : CaseFold) (H : Heap) (p : Id) (k : RegKey) (H' : Heap) (ids : List Id) (f : Forest) : Prop where
  wf : WF F H'
  rep : Rep true H' ids f
  new : ∀ j ∈ ids, H.length ≤ j
  length : H.length ≤ H'.length
  parent : deref H' p = some { k with children := ids.reverse ++ k.children }
  frame : ∀ i c, i ≠ p → deref H i = some c → deref H' i = some c

theorem iterate_succ {S : Type} {g : S → Option S} {n : Nat} {s t : S} (h : g s = some t) :
    iterate g (n + 1) s = iterate g n t := by
  rw [iterate, h, Option.bind_some]

/-- The state after the name and the values of a record: a new child of `p` with its values. -/
theorem loadRecord_values {p : Id} {name : WStr} {values : List RegValue} {count : Nat} {body : Writes}
    (hk : deref H p = some k) (hd : Assoc.Distinct (valueKey F) values) (hb : nodeBytes name count values < 2 ^ 32)
    (sub : Id → Loading → Option Loading) :
    loadRecord F sub p name ⟨H, ⟨dword values.length ++ ((values.flatMap writeValue).flatten ++
        (dword count ++ (body.flatten ++ rest))), junk⟩⟩ =
      iterate (sub H.length) count ⟨setValues (addChild H p k name) H.length
        { name, parent := some p, children := [], values := [] } values.reverse, ⟨body.flatten ++ rest, junk⟩⟩ := by
  have hvals : ∀ v ∈ values, v.bytes < 2 ^ 32 := fun v hv => (valueBytes_le hv).trans_lt hb
  have hcount : count < 2 ^ 32 := by unfold nodeBytes at hb; omega
  have hlen : values.length < 2 ^ 32 := by
    have hsum : values.length ≤ (values.map RegValue.bytes).sum := by
      have h := List.card_nsmul_le_sum (values.map RegValue.bytes) 1 (fun b hb' => by
        obtain ⟨v, -, rfl⟩ := List.mem_map.1 hb'
        unfold RegValue.bytes
        omega)
      simpa using h
    unfold nodeBytes at hb
    omega
  have hrev : Assoc.Distinct (valueKey F) (values.reverse ++ []) := by
    rw [List.append_nil]
    exact List.pairwise_reverse.2 (hd.imp fun h he => h he.symm)
  simp only [loadRecord, createKey_of_deref hk, Reader.dword_append hlen]
  rw [loadValues_append hvals (deref_addChild_new hk) hrev, Option.bind_some, List.append_nil]
  simp only [Reader.dword_append hcount]

theorem keyRecord_flatten (name : WStr) (values : List RegValue) (count : Nat) (body : Writes) (rest : List UInt8) :
    (keyRecord name values count body).flatten ++ rest =
      (writeWideString name).flatten ++ (dword values.length ++ ((values.flatMap writeValue).flatten ++
        (dword count ++ (body.flatten ++ rest)))) := by
  simp [keyRecord]

/-- What reading a row of records under `p` builds, whatever the tree around it. The forest stands in every heap
that has the new nodes; the tree stays well formed if the forest fits in. -/
structure Built (F : CaseFold) (H : Heap) (p : Id) (k : RegKey) (H' : Heap) (ids : List Id) (f : Forest) : Prop where
  rep : ∀ G : Heap, (∀ i c, H.length ≤ i → deref H' i = some c → deref G i = some c) → Rep true G ids f
  new : ∀ j ∈ ids, H.length ≤ j
  length : H.length ≤ H'.length
  parent : deref H' p = some { k with children := ids.reverse ++ k.children }
  frame : ∀ i c, i ≠ p → deref H i = some c → deref H' i = some c
  wf : WF F H → f.Ok F → (∀ j ∈ k.children, ∀ c, deref H j = some c → ∀ n ∈ f.names, F.fold c.name ≠ F.fold n) →
    WF F H'

/-- **The record codec**: reading the encoding of a forest under a live key builds the forest there. -/
theorem buildForest (f : Forest) (hc : f.Codable F) (fuel : Nat) (hfuel : f.depth ≤ fuel) (H : Heap) (p : Id)
    (k : RegKey) (rest : List UInt8) (junk : Nat → UInt8) (hk : deref H p = some k) :
    ∃ H' ids, iterate (loadKeyFromFile F fuel p) f.length ⟨H, ⟨f.encode.flatten ++ rest, junk⟩⟩ =
      some ⟨H', ⟨rest, junk⟩⟩ ∧ Built F H p k H' ids f := by
  induction f generalizing fuel H p k rest with
  | nil =>
    exact ⟨H, [], rfl, fun _ _ => .nil, by simp, Nat.le_refl _, by simpa using hk, fun _ _ _ h => h, fun h _ _ => h⟩
  | cons name values kids sibs ihk ihs =>
    obtain ⟨hd, hb, hkc, hsc⟩ := hc
    obtain ⟨fuel, rfl⟩ : ∃ n, fuel = n + 1 := ⟨fuel - 1, by simp only [Forest.depth] at hfuel; omega⟩
    have hplt := lt_of_deref hk
    have hne : p ≠ H.length := Nat.ne_of_lt hplt
    -- the new key with its values
    have hnew := deref_addChild_new (t := name) hk
    have hself : deref (setValues (addChild H p k name) H.length _ values.reverse) H.length = _ :=
      deref_setValues_self hnew
    have hwf₂ : WF F (addChild H p k name) → WF F (setValues (addChild H p k name) H.length
        { name, parent := some p, children := [], values := [] } values.reverse) := fun hwf₁ =>
      setValues_wf hnew hwf₁ (List.pairwise_reverse.2 (hd.imp fun h he => h he.symm))
    generalize hH₂ : setValues (addChild H p k name) H.length
      { name, parent := some p, children := [], values := [] } values.reverse = H₂ at hwf₂ hself
    have hlen₂ : H₂.length = H.length + 1 := by simp [← hH₂, setValues, addChild]
    have hold₂ : ∀ i c, i ≠ p → deref H i = some c → deref H₂ i = some c := by
      intro i c hi hc
      have hi' : i ≠ H.length := Nat.ne_of_lt (lt_of_deref hc)
      rw [← hH₂, setValues, deref_write_ne hi']
      exact deref_addChild_old hi hc
    have hp₂ : deref H₂ p = some { k with children := H.length :: k.children } := by
      rw [← hH₂, setValues, deref_write_ne hne]
      exact deref_addChild_self hk
    -- its subkeys
    obtain ⟨H₃, ids, hload, h₃⟩ := ihk hkc fuel (by simp only [Forest.depth] at hfuel; omega) H₂ H.length _
      (sibs.encode.flatten ++ rest) hself
    have hp₃ := h₃.frame p _ hne hp₂
    have hold₃ : ∀ i c, i ≠ p → deref H i = some c → deref H₃ i = some c := fun i c hi hc =>
      h₃.frame i c (Nat.ne_of_lt (lt_of_deref hc)) (hold₂ i c hi hc)
    have hq₃ := h₃.parent
    -- the keys after it
    obtain ⟨H₄, ids', hload', h₄⟩ := ihs hsc (fuel + 1) (by simp only [Forest.depth] at hfuel; omega) H₃ p _ rest hp₃
    have hlen₃ : H.length ≤ H₃.length := by have := h₃.length; omega
    refine ⟨H₄, H.length :: ids', ?_, ?_, ?_, hlen₃.trans h₄.length, ?_, ?_, ?_⟩
    · have hflat : (Forest.cons name values kids sibs).encode.flatten ++ rest =
          (keyRecord name values kids.length kids.encode).flatten ++ (sibs.encode.flatten ++ rest) := by
        simp [Forest.encode]
      have hstr : 2 * (name.length + 1) < 2 ^ 32 := by unfold nodeBytes at hb; omega
      have hone : loadKeyFromFile F (fuel + 1) p
          ⟨H, ⟨(Forest.cons name values kids sibs).encode.flatten ++ rest, junk⟩⟩ =
          some ⟨H₃, ⟨sibs.encode.flatten ++ rest, junk⟩⟩ := by
        rw [loadKeyFromFile, hflat, keyRecord_flatten, readWideString_append hstr]
        simp only [loadRecord_values hk hd hb, hH₂, hload]
      rw [Forest.length, iterate_succ hone, hload']
    · intro G hG
      have hturn : ids.reverse ++ [] = turn true ids := by simp [turn]
      refine .cons (hG _ _ (Nat.le_refl _) (h₄.frame _ _ (Ne.symm hne) hq₃)) rfl hturn (h₃.rep G ?_) (h₄.rep G ?_)
      · intro i c hi hci
        have hip : i ≠ p := by omega
        exact hG i c (by omega) (h₄.frame i c hip hci)
      · intro i c hi hci
        exact hG i c (hlen₃.trans hi) hci
    · intro j hj
      rcases List.mem_cons.1 hj with rfl | hj
      · exact Nat.le_refl _
      · exact hlen₃.trans (h₄.new j hj)
    · rw [h₄.parent]
      simp
    · intro i c hi hc
      exact h₄.frame i c hi (hold₃ i c hi hc)
    · intro hwf hok hdiff
      obtain ⟨hname, hsib, -, -, hkok, hsok⟩ := hok
      have hnone : ∀ j, ¬ Child F H p name j := by
        rintro j ⟨k', c, hk', hj, hc, ht⟩
        obtain rfl : k = k' := Option.some.inj (hk.symm.trans hk')
        exact hdiff j hj c hc name (by simp [Forest.names]) ht
      have hwf₃ := h₃.wf (hwf₂ (addChild_wf hk hwf hname hnone)) hkok (by simp)
      refine h₄.wf hwf₃ hsok fun j hj c hc n hn => ?_
      rcases List.mem_cons.1 hj with rfl | hj
      · obtain rfl := Option.some.inj (hq₃.symm.trans hc)
        exact hsib n hn
      · obtain ⟨hlt, c₀, hc₀, -⟩ := hwf.child hk hj
        obtain rfl := Option.some.inj ((hold₃ j c₀ (Nat.ne_of_gt hlt) hc₀).symm.trans hc)
        exact hdiff j hj c₀ hc₀ n (by simp [Forest.names, hn])

/-- In a well-formed tree, a forest with proper names that are new under `p` is loaded well. -/
theorem loadForest (f : Forest) (hok : f.Ok F) (fuel : Nat) (hfuel : f.depth ≤ fuel) (H : Heap) (p : Id) (k : RegKey)
    (rest : List UInt8) (junk : Nat → UInt8) (hwf : WF F H) (hk : deref H p = some k)
    (hdiff : ∀ j ∈ k.children, ∀ c, deref H j = some c → ∀ n ∈ f.names, F.fold c.name ≠ F.fold n) :
    ∃ H' ids, iterate (loadKeyFromFile F fuel p) f.length ⟨H, ⟨f.encode.flatten ++ rest, junk⟩⟩ =
      some ⟨H', ⟨rest, junk⟩⟩ ∧ Loaded F H p k H' ids f := by
  obtain ⟨H', ids, hload, h⟩ := buildForest f hok.codable fuel hfuel H p k rest junk hk
  exact ⟨H', ids, hload, h.wf hwf hok hdiff, h.rep H' fun _ _ _ hd => hd, h.new, h.length, h.parent, h.frame⟩

/-! ## The root -/

/-- The tree under the root, in both directions of the file format. -/
theorem saveRegistry_eq (hwf : WF F H) (hfit : H.Fits) (hr : deref H regRoot = some k) :
    ∃ f, Rep false H k.children f ∧ f.Ok F ∧
      saveRegistry H = some (dword regfileMagic :: keyRecord [] k.values f.length f.encode) := by
  obtain ⟨r, hr', -, hname⟩ := hwf.root
  obtain rfl : k = r := Option.some.inj (hr.symm.trans hr')
  obtain ⟨n, hn⟩ : ∃ n, H.length = n + 1 := ⟨H.length - 1, by have := lt_of_deref hr; omega⟩
  obtain ⟨f, ws, hrep, hok, hws, hflat⟩ := wf_represents hwf hfit n k.children
    (fun j hj => by
      obtain ⟨hlt, c, hc, -⟩ := hwf.child hr hj
      exact ⟨⟨c, hc⟩, by omega⟩)
    (fun j hj c hc => by
      obtain ⟨-, c', hc', -, hrest⟩ := hwf.child hr hj
      obtain rfl := Option.some.inj (hc'.symm.trans hc)
      exact hrest)
    (hwf.nodup hr) (fun a ha b hb c d hc hd => hwf.unique hr ha hb hc hd)
  refine ⟨f, hrep, hok, ?_⟩
  simp [saveRegistry, hn, saveKeyToFile, hr, hws, hflat, hname, hrep.length]

/-- What is read of an image whose root has no values: its records. -/
theorem loadRegistry_image {n : Nat} (hn : n < 2 ^ 32) (body : Writes) (fuel : Nat) (junk : Nat → UInt8) :
    loadRegistryFromFile F fuel junk (some (dword regfileMagic :: keyRecord [] [] n body).flatten) =
      (iterate (loadKeyFromFile F fuel regRoot) n ⟨emptyHeap, ⟨body.flatten, junk⟩⟩).map fun s => (true, s.heap) := by
  have hflat : (dword regfileMagic :: keyRecord [] [] n body).flatten =
      dword regfileMagic ++ ((writeWideString []).flatten ++ (dword 0 ++ (dword n ++ body.flatten))) := by
    have h := keyRecord_flatten [] [] n body []
    rw [List.append_nil] at h
    rw [List.flatten_cons, h, List.append_nil]
    rfl
  have hmagic : regfileMagic < 2 ^ 32 := by decide
  have hstr : 2 * (([] : WStr).length + 1) < 2 ^ 32 := by decide
  simp only [loadRegistryFromFile, hflat, Reader.dword_append hmagic, ne_eq, not_true_eq_false, if_false, loadRoot,
    readWideString_append hstr, Reader.dword_append (show 0 < 2 ^ 32 by decide), Reader.dword_append hn]

/-- **Loading an image whose root has no values** gives the forest back under a root with no values. -/
theorem loadRegistry_eq (f : Forest) (hok : f.Ok F) (hlen : f.length < 2 ^ 32) {fuel : Nat} (hfuel : f.depth ≤ fuel)
    (junk : Nat → UInt8) :
    ∃ H' ids, loadRegistryFromFile F fuel junk
        (some (dword regfileMagic :: keyRecord [] [] f.length f.encode).flatten) = some (true, H') ∧
      Loaded F emptyHeap regRoot { name := [], parent := none, children := [], values := [] } H' ids f := by
  obtain ⟨H', ids, hload, hl⟩ := loadForest f hok fuel hfuel emptyHeap regRoot
    { name := [], parent := none, children := [], values := [] } [] junk emptyHeap_wf rfl (by simp)
  refine ⟨H', ids, ?_, hl⟩
  rw [List.append_nil] at hload
  rw [loadRegistry_image hlen, hload, Option.map_some]

/-- The root of a tree that is being loaded: no values so far. -/
def RootPlain (H : Heap) : Prop := ∃ k, deref H regRoot = some k ∧ k.values = []

theorem iterate_invariant {S : Type} {P : S → Prop} {g : S → Option S} (hg : ∀ s t, P s → g s = some t → P t) {n : Nat}
    {s t : S} (hs : P s) (h : iterate g n s = some t) : P t := by
  induction n generalizing s with
  | zero =>
    cases h
    exact hs
  | succ n ih =>
    obtain ⟨u, hu, h⟩ := Option.bind_eq_some_iff.1 h
    exact ih (hg s u hs hu) h

theorem loadValue_plain {i : Id} (hi : i ≠ regRoot) {s t : Loading} (hs : RootPlain s.heap)
    (h : loadValue F i s = some t) : RootPlain t.heap := by
  unfold loadValue at h
  split at h
  · next vname r _ =>
    obtain ⟨H', hset, rfl⟩ := Option.map_eq_some_iff.1 h
    obtain ⟨k, hk, rfl⟩ := Option.map_eq_some_iff.1 hset
    obtain ⟨r, hr, hv⟩ := hs
    exact ⟨r, by rw [deref_write_ne (Ne.symm hi), hr], hv⟩
  · cases h

theorem loadRecord_plain {sub : Id → Loading → Option Loading}
    (hsub : ∀ i s t, RootPlain s.heap → sub i s = some t → RootPlain t.heap) {p : Id} {name : WStr} {s t : Loading}
    (hs : RootPlain s.heap) (h : loadRecord F sub p name s = some t) : RootPlain t.heap := by
  unfold loadRecord at h
  split at h
  · cases h
  · next key H hcreate =>
    obtain ⟨r, hr, hv⟩ := hs
    obtain ⟨k, hk, he⟩ := Option.map_eq_some_iff.1 hcreate
    simp only [Prod.mk.injEq] at he
    obtain ⟨rfl, rfl⟩ := he
    have hplain : RootPlain (addChild s.heap p k name) := by
      obtain ⟨ids, hr', -⟩ := (addChild_grows (t := name) hk).old hr
      exact ⟨_, hr', hv⟩
    have hne : s.heap.length ≠ regRoot := Nat.ne_of_gt (lt_of_deref hr)
    obtain ⟨u, hu, h⟩ := Option.bind_eq_some_iff.1 h
    have hu' : RootPlain u.heap := iterate_invariant (P := fun s : Loading => RootPlain s.heap)
      (fun s t hs h => loadValue_plain hne hs h) hplain hu
    have hsub' := hsub s.heap.length
    cases hdw : u.file.dword with
    | mk count r =>
      simp only [hdw] at h
      exact iterate_invariant (P := fun s : Loading => RootPlain s.heap) hsub' (s := ⟨u.heap, r⟩) hu' h

theorem loadKey_plain {fuel : Nat} (i : Id) (s t : Loading) (hs : RootPlain s.heap)
    (h : loadKeyFromFile F fuel i s = some t) : RootPlain t.heap := by
  induction fuel generalizing i s t with
  | zero => cases h
  | succ fuel ih =>
    unfold loadKeyFromFile at h
    split at h
    · cases h
    · cases h
      exact hs
    · next name r _ => exact loadRecord_plain ih (s := ⟨s.heap, r⟩) hs h

theorem loadRoot_plain {fuel : Nat} {s t : Loading} (hs : RootPlain s.heap) (h : loadRoot F fuel s = some t) :
    RootPlain t.heap := by
  unfold loadRoot at h
  split at h
  · cases h
  · cases h
    exact hs
  · next c cs r _ => exact loadRecord_plain loadKey_plain (s := ⟨s.heap, r⟩) hs h
  · next r _ =>
    cases hdw : r.dword with
    | mk dummy r₁ =>
      cases hdw₁ : r₁.dword with
      | mk count r₂ =>
        simp only [hdw, hdw₁] at h
        exact iterate_invariant (P := fun s : Loading => RootPlain s.heap) (loadKey_plain regRoot)
          (s := ⟨s.heap, r₂⟩) hs h

/-- **Whatever is in the file**, the root comes out of the loader without a value. -/
theorem load_root_plain {fuel : Nat} {file : Option (List UInt8)} {b : Bool}
    (h : loadRegistryFromFile F fuel junk file = some (b, H)) : RootPlain H := by
  have hempty : RootPlain emptyHeap := ⟨_, rfl, rfl⟩
  unfold loadRegistryFromFile at h
  split at h
  · cases h
    exact hempty
  · next bytes =>
    cases hdw : Reader.dword ⟨bytes, junk⟩ with
    | mk magic r =>
      simp only [hdw] at h
      split at h
      · cases h
        exact hempty
      · obtain ⟨s, hs, he⟩ := Option.map_eq_some_iff.1 h
        cases he
        exact loadRoot_plain hempty hs

end Rvpn.Registry
