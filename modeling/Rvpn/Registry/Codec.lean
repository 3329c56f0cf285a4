import Rvpn.Registry.Load

/-!
# The subtree codec (register.c:335-345, 453-513, 586-609)

`SaveKeyToFile` on any subtree, then `LoadKeyFromFile`: nothing is asked of the names of the keys, which may be
empty, equal to one another or with a backslash, as long as the values of each key have different names.

* `Forest.turned` — every value list and every row of keys turned round;
* `saveKey_of_rep` — what is written for a subtree is the encoding of its forest;
* `record_roundTrip` — what is loaded is the forest turned, and after a second cycle the forest itself.
-/

namespace Rvpn.Registry

open Cells Bytes

namespace Forest

/-- One row behind the other. -/
def append : Forest → Forest → Forest
  | nil, g => g
  | cons name values kids sibs, g => cons name values kids (sibs.append g)

/-- Every list in reverse order: the values of each key, its subkeys, and the row itself. -/
def turned : Forest → Forest
  | nil => nil
  | cons name values kids sibs => sibs.turned.append (cons name values.reverse kids.turned nil)

/-- The names of the values are pairwise different under `_wcsicmp`, in every key. -/
def DistinctValues (F : CaseFold) : Forest → Prop
  | nil => True
  | cons _ values kids sibs => Assoc.Distinct (valueKey F) values ∧ kids.DistinctValues F ∧ sibs.DistinctValues F

@[simp] theorem append_nil (f : Forest) : f.append nil = f := by
  induction f with
  | nil => rfl
  | cons name values kids sibs _ ih => simp [append, ih]

theorem append_assoc (f g h : Forest) : (f.append g).append h = f.append (g.append h) := by
  induction f with
  | nil => rfl
  | cons name values kids sibs _ ih => simp [append, ih]

@[simp] theorem length_append (f g : Forest) : (f.append g).length = f.length + g.length := by
  induction f with
  | nil => simp [append, length]
  | cons name values kids sibs _ ih => simp [append, length, ih]; omega

@[simp] theorem length_turned (f : Forest) : f.turned.length = f.length := by
  induction f with
  | nil => rfl
  | cons name values kids sibs _ ih => simp [turned, length, ih]

@[simp] theorem depth_append (f g : Forest) : (f.append g).depth = max f.depth g.depth := by
  induction f with
  | nil => simp [append, depth]
  | cons name values kids sibs _ ih => simp [append, depth, ih, Nat.max_assoc]

@[simp] theorem depth_turned (f : Forest) : f.turned.depth = f.depth := by
  induction f with
  | nil => rfl
  | cons name values kids sibs ihk ihs => simp [turned, depth, ihk, ihs, Nat.max_comm]

theorem turned_append (f g : Forest) : (f.append g).turned = g.turned.append f.turned := by
  induction f with
  | nil => simp [append, turned]
  | cons name values kids sibs _ ih => simp [append, turned, ih, append_assoc]

/-- **Turning twice** gives every list back in its order. -/
@[simp] theorem turned_turned (f : Forest) : f.turned.turned = f := by
  induction f with
  | nil => rfl
  | cons name values kids sibs ihk ihs => simp [turned, turned_append, append, ihk, ihs]

variable {F : CaseFold}

theorem codable_append {f g : Forest} : (f.append g).Codable F ↔ f.Codable F ∧ g.Codable F := by
  induction f with
  | nil => simp [append, Codable]
  | cons name values kids sibs _ ih => simp [append, Codable, ih, and_assoc]

theorem nodeBytes_reverse (name : WStr) (n : Nat) (values : List RegValue) :
    nodeBytes name n values.reverse = nodeBytes name n values := by
  simp [nodeBytes, List.map_reverse, List.sum_reverse]

theorem Codable.turned {f : Forest} (h : f.Codable F) : f.turned.Codable F := by
  induction f with
  | nil => trivial
  | cons name values kids sibs ihk ihs =>
    obtain ⟨hd, hb, hkids, hsibs⟩ := h
    refine codable_append.2 ⟨ihs hsibs, ?_, ?_, ihk hkids, trivial⟩
    · exact List.pairwise_reverse.2 (hd.imp fun h he => h he.symm)
    · rw [nodeBytes_reverse, length_turned]
      exact hb

end Forest

variable {F : CaseFold} {H G : Heap} {m : Bool} {is js : List Id} {f g : Forest} {i p : Id}

/-! ## Rows -/

theorem Rep.append (hf : Rep m H is f) (hg : Rep m H js g) : Rep m H (is ++ js) (f.append g) := by
  induction hf with
  | nil => exact hg
  | cons hk hv hc hkids _ _ ihs => exact .cons hk hv hc hkids ihs

/-- A heap whose lists are turned spells the turned forest. -/
theorem Rep.turned (h : Rep true H is f) : Rep false H is.reverse f.turned := by
  induction h with
  | nil => exact .nil
  | cons hk hv hc _ _ ihk ihs =>
    rw [List.reverse_cons]
    exact ihs.append (.cons hk hv hc ihk .nil)

/-- A subtree that is in memory has every number within its DWORD. -/
theorem Rep.codable (hfit : H.Fits) (h : Rep m H is f) (hd : f.DistinctValues F) : f.Codable F := by
  induction h with
  | nil => trivial
  | @cons i is cids k vs kids sibs hk hv hc hkids hsibs ihk ihs =>
    obtain ⟨hvs, hkd, hsd⟩ := hd
    refine ⟨hvs, ?_, ihk hkd, ihs hsd⟩
    have hb := (bytes_le hk).trans_lt hfit
    have hlen : k.children.length = kids.length := by
      rw [hc, ← hkids.length]
      cases m <;> simp [turn]
    have hsum : (k.values.map RegValue.bytes).sum = (vs.map RegValue.bytes).sum := by
      rw [hv]
      cases m <;> simp [turn, List.map_reverse, List.sum_reverse]
    simpa only [RegKey.bytes, nodeBytes, hlen, hsum] using hb

/-- **What `SaveKeyToFile` writes** for a row: the encoding of the forest it spells. -/
theorem save_of_rep (h : Rep false H is f) {fuel : Nat} (hfuel : f.depth ≤ fuel) :
    ∃ ws, is.mapM (saveKeyToFile H fuel) = some ws ∧ ws.flatten = f.encode := by
  induction h generalizing fuel with
  | nil => exact ⟨[], rfl, rfl⟩
  | @cons i is cids k vs kids sibs hk hv hc hkids hsibs ihk ihs =>
    obtain ⟨fuel, rfl⟩ : ∃ n, fuel = n + 1 := ⟨fuel - 1, by simp only [Forest.depth] at hfuel; omega⟩
    obtain ⟨ks, hks, hkse⟩ := @ihk fuel (by simp only [Forest.depth] at hfuel; omega)
    obtain ⟨ws, hws, hwse⟩ := @ihs (fuel + 1) (by simp only [Forest.depth] at hfuel; omega)
    have hc' : k.children = cids := hc
    have hv' : k.values = vs := hv
    have hsave : saveKeyToFile H (fuel + 1) i = some (keyRecord k.name vs kids.length kids.encode) := by
      simp [saveKeyToFile, hk, hc', hv', hks, hkse, hkids.length]
    refine ⟨keyRecord k.name vs kids.length kids.encode :: ws, ?_, ?_⟩
    · simp [List.mapM_cons, hsave, hws]
    · rw [List.flatten_cons, hwse, Forest.encode]

theorem saveKey_of_rep (h : Rep false H [i] f) {fuel : Nat} (hfuel : f.depth ≤ fuel) :
    saveKeyToFile H fuel i = some f.encode := by
  obtain ⟨ws, hws, hflat⟩ := save_of_rep h hfuel
  simp only [List.mapM_cons, List.mapM_nil, Option.pure_def, Option.bind_eq_bind, Option.bind_eq_some_iff] at hws
  obtain ⟨w, hw, rs, hrs, he⟩ := hws
  cases hrs
  cases he
  simp only [List.flatten_cons, List.flatten_nil, List.append_nil] at hflat
  rw [hw, hflat]

/-! ## One cycle, and two -/

/-- What one load of a record has left: the key `j` in front of the children of `p`, spelling `f`; the other nodes
as they were. -/
structure Attached (G : Heap) (p : Id) (parent : RegKey) (G' : Heap) (j : Id) (f : Forest) : Prop where
  parent : deref G' p = some { parent with children := j :: parent.children }
  rep : Rep false G' [j] f
  frame : ∀ q c, q ≠ p → deref G q = some c → deref G' q = some c

/-- Saving a key and loading the record, whatever follows it. -/
theorem cycle_of_codable {f : Forest} (hone : f.length = 1) (hc : f.Codable F) (h : Rep false H [i] f) {fuel : Nat}
    (hfuel : f.depth ≤ fuel) {parent : RegKey} (hp : deref G p = some parent) (rest : List UInt8)
    (junk : Nat → UInt8) :
    ∃ ws G' j, saveKeyToFile H fuel i = some ws ∧
      loadKeyFromFile F fuel p ⟨G, ⟨ws.flatten ++ rest, junk⟩⟩ = some ⟨G', ⟨rest, junk⟩⟩ ∧
      Attached G p parent G' j f.turned := by
  obtain ⟨G', ids, hload, hb⟩ := buildForest f hc fuel hfuel G p parent rest junk hp
  have hrep := hb.rep G' fun _ _ _ hd => hd
  obtain ⟨j, rfl⟩ := List.length_eq_one_iff.1 (hrep.length.trans hone)
  refine ⟨f.encode, G', j, saveKey_of_rep h hfuel, ?_, ?_⟩
  · rw [hone, iterate] at hload
    simpa [iterate] using hload
  · exact ⟨by simpa using hb.parent, hrep.turned, hb.frame⟩

/-- **The subtree codec.** For every key in memory whose values have different names, at every level: loading what
has been saved reads those bytes and leaves the rest, and puts a key of the same name under the given parent with
every list in reverse order; saving that one and loading it anywhere gives the lists in their own order again. -/
theorem record_roundTrip (hfit : H.Fits) (name : WStr) (values : List RegValue) (kids : Forest)
    (h : Rep false H [i] (.cons name values kids .nil)) (hd : (Forest.cons name values kids .nil).DistinctValues F)
    (fuel : Nat) (hfuel : (Forest.cons name values kids .nil).depth ≤ fuel) (parent : RegKey)
    (hp : deref G p = some parent) (rest : List UInt8) (junk : Nat → UInt8) :
    ∃ ws G' j, saveKeyToFile H fuel i = some ws ∧
      loadKeyFromFile F fuel p ⟨G, ⟨ws.flatten ++ rest, junk⟩⟩ = some ⟨G', ⟨rest, junk⟩⟩ ∧
      Attached G p parent G' j (.cons name values.reverse kids.turned .nil) ∧
      ∀ (G₂ : Heap) (p₂ : Id) (parent₂ : RegKey) (rest₂ : List UInt8) (junk₂ : Nat → UInt8),
        deref G₂ p₂ = some parent₂ → ∃ ws₂ G₂' j₂, saveKeyToFile G' fuel j = some ws₂ ∧
          loadKeyFromFile F fuel p₂ ⟨G₂, ⟨ws₂.flatten ++ rest₂, junk₂⟩⟩ = some ⟨G₂', ⟨rest₂, junk₂⟩⟩ ∧
          Attached G₂ p₂ parent₂ G₂' j₂ (.cons name values kids .nil) := by
  have hc : (Forest.cons name values kids .nil).Codable F := h.codable hfit hd
  obtain ⟨ws, G', j, hsave, hload, hatt⟩ := cycle_of_codable rfl hc h hfuel hp rest junk
  refine ⟨ws, G', j, hsave, hload, hatt, ?_⟩
  intro G₂ p₂ parent₂ rest₂ junk₂ hp₂
  have hfuel' : (Forest.cons name values kids .nil).turned.depth ≤ fuel := by
    rw [Forest.depth_turned]
    exact hfuel
  obtain ⟨ws₂, G₂', j₂, hsave₂, hload₂, hatt₂⟩ := cycle_of_codable rfl hc.turned hatt.rep hfuel' hp₂ rest₂ junk₂
  rw [Forest.turned_turned] at hatt₂
  exact ⟨ws₂, G₂', j₂, hsave₂, hload₂, hatt₂⟩

/-- Two values, `a` and `b`. -/
def twoValues : List RegValue := [⟨wide "a", 1, [1]⟩, ⟨wide "b", 4, []⟩]

/-- A root with one key `K` that has the two values. -/
def twoValuesHeap : Heap :=
  [some { name := [], parent := none, children := [1], values := [] },
   some { name := wide "K", parent := some 0, children := [], values := twoValues }]

/-- They come back as `b`, `a`. -/
theorem record_roundTrip_two : ∃ ws G' j, saveKeyToFile twoValuesHeap 1 1 = some ws ∧
    loadKeyFromFile asciiFold 1 0 ⟨emptyHeap, ⟨ws.flatten ++ [7], fun _ => 0⟩⟩ =
      some ⟨G', ⟨[7], fun _ => 0⟩⟩ ∧ Rep false G' [j] (.cons (wide "K") twoValues.reverse .nil .nil) := by
  have hrep : Rep false twoValuesHeap [1] (.cons (wide "K") twoValues .nil .nil) :=
    .cons (k := { name := wide "K", parent := some 0, children := [], values := twoValues }) rfl rfl rfl .nil .nil
  have hdist : (Forest.cons (wide "K") twoValues .nil .nil).DistinctValues asciiFold := by
    refine ⟨?_, trivial, trivial⟩
    unfold Assoc.Distinct
    decide
  obtain ⟨ws, G', j, hsave, hload, hatt, -⟩ := record_roundTrip (F := asciiFold) (G := emptyHeap) (p := 0)
    (H := twoValuesHeap) (i := 1) (by decide) (wide "K") twoValues .nil hrep hdist 1 (by decide) _ rfl [7] fun _ => 0
  exact ⟨ws, G', j, hsave, hload, hatt.rep⟩

end Rvpn.Registry
