import Rvpn.Registry.Layout

/-!
# What is saved of the memory

`SaveKeyToFile` over memory that holds a heap: it ends with the record of the key (`saveKeyToFile_total`), more fuel
gives the same (`saveKeyToFile_mono`), and in the record of a key are those of all keys below it, each with its values
(`saveKeyToFile_walk`, `saveKeyToFile_value`).
-/

namespace Rvpn.Registry.Raw

open Cells Threads

variable {F : CaseFold} {g : Ghost} {M : Memory} {H : Heap} {a : Addr} {i j n : Id} {k : RegKey} {ts : List WStr}
  {fuel : Nat} {ws : Writes}

/-! ## Records -/

theorem infix_flatten {w : Writes} {wss : List Writes} (h : w ∈ wss) : w <:+: wss.flatten := by
  obtain ⟨pre, post, rfl⟩ := List.append_of_mem h
  exact ⟨pre.flatten, post.flatten, by simp⟩

theorem writeValueAt_of_isValue {v : RegValue} (h : IsValue M a v) : ∃ w, writeValueAt M a = some w ∧
    (v.data.length < 2 ^ 32 → w = writeValue v) := by
  obtain ⟨b, hb, -, hname, htype, hsize, hdata⟩ := h
  have hle : (UInt32.ofNat v.data.length).toNat ≤ v.data.length := by
    rw [UInt32.toNat_ofNat']
    exact Nat.mod_le _ _
  refine ⟨_, by simp only [writeValueAt, hb, Option.bind_some, hname, htype, hsize, hdata, if_pos hle]; rfl, ?_⟩
  intro hlt
  rw [UInt32.toNat_ofNat_of_lt' hlt, List.take_length]
  rfl

/-- The record of a live node, from the records of its values and subkeys. -/
theorem saveKeyToFile_node (hl : Layout g M H) (hwf : WF F H) (hk : deref H i = some k) (fuel : Nat) :
    saveKeyToFile M (fuel + 1) (g.loc i) = ((g.cells i).mapM (writeValueAt M)).bind fun values =>
      ((k.children.map g.loc).mapM (saveKeyToFile M fuel)).map fun subkeys =>
        writeWideString k.name ++ dword (g.cells i).length :: values.flatten ++
          dword (k.children.map g.loc).length :: subkeys.flatten := by
  have hnode := hl.node hk
  obtain ⟨b, hb, -, hname⟩ := hnode.key
  obtain ⟨p, hp, hs⟩ := hnode.values
  obtain ⟨q, hq, hs'⟩ := hnode.children
  have hchain := chain_of_seg hs (hs.length_le hnode.nodup)
  have hchain' := chain_of_seg hs' (hs'.length_le (hl.nodup_children hwf hk))
  rw [nextAt, hb, Option.bind_some] at hp hq
  have hkey : keyName b.w0 = some k.name := by
    rw [hname, nameWord]
    split
    · next hnil =>
      rw [hnil]
      rfl
    · rfl
  simp only [saveKeyToFile, hb, hkey, hp, hq, hchain, hchain', Option.bind_eq_bind, Option.bind_some]
  cases (g.cells i).mapM (writeValueAt M) with
  | none => rfl
  | some values =>
    simp only [Option.bind_some]
    cases (k.children.map g.loc).mapM (saveKeyToFile M fuel) with
    | none => rfl
    | some subkeys => rfl

/-! ## It ends -/

/-- **`SaveKeyToFile` ends** at a live node: a path of the tree is no longer than the heap. -/
theorem saveKeyToFile_total (hl : Layout g M H) (hwf : WF F H) (fuel : Nat) (hi : Live H i) (hle : H.length ≤ i + fuel) :
    ∃ ws, saveKeyToFile M fuel (g.loc i) = some ws := by
  induction fuel generalizing i with
  | zero =>
    obtain ⟨k, hk⟩ := hi
    exact absurd (lt_of_deref hk) (Nat.not_lt_of_le hle)
  | succ fuel ih =>
    obtain ⟨k, hk⟩ := hi
    obtain ⟨values, hvalues⟩ : ∃ values, (g.cells i).mapM (writeValueAt M) = some values := by
      refine mapM_total fun a ha => ?_
      obtain ⟨v, hv⟩ := (hl.node hk).cell_value ha
      obtain ⟨w, hw, -⟩ := writeValueAt_of_isValue hv
      exact ⟨w, hw⟩
    obtain ⟨subkeys, hsubkeys⟩ : ∃ subkeys, (k.children.map g.loc).mapM (saveKeyToFile M fuel) = some subkeys := by
      refine mapM_total fun a ha => ?_
      obtain ⟨j, hj, rfl⟩ := List.mem_map.1 ha
      have hlt := (hwf.child hk hj).1
      exact ih (children_live hwf hk j hj) (by omega)
    exact ⟨_, by rw [saveKeyToFile_node hl hwf hk, hvalues, Option.bind_some, hsubkeys, Option.map_some]⟩

/-- More fuel changes nothing. -/
theorem saveKeyToFile_mono {fuel' : Nat} (h : saveKeyToFile M fuel a = some ws) (hle : fuel ≤ fuel') :
    saveKeyToFile M fuel' a = some ws := by
  induction fuel generalizing fuel' a ws with
  | zero => cases h
  | succ fuel ih =>
    obtain ⟨fuel', rfl⟩ : ∃ m, fuel' = m + 1 := ⟨fuel' - 1, by omega⟩
    simp only [saveKeyToFile, Option.bind_eq_bind, Option.bind_eq_some_iff] at h ⊢
    obtain ⟨b, hb, name, hname, vs, hvs, values, hvalues, cs, hcs, subkeys, hsubkeys, h⟩ := h
    refine ⟨b, hb, name, hname, vs, hvs, values, hvalues, cs, hcs, subkeys, ?_, h⟩
    refine mapM_eq_some.2 ((mapM_eq_some.1 hsubkeys).imp fun x y hxy => ?_)
    exact ih hxy (Nat.le_of_succ_le_succ hle)

/-! ## What is in it -/

/-- The record of a key has those of its subkeys in it. -/
theorem saveKeyToFile_child (hl : Layout g M H) (hwf : WF F H) (hk : deref H i = some k) (hj : j ∈ k.children)
    (h : saveKeyToFile M (fuel + 1) (g.loc i) = some ws) : ∃ sub, saveKeyToFile M fuel (g.loc j) = some sub ∧ sub <:+: ws := by
  rw [saveKeyToFile_node hl hwf hk] at h
  obtain ⟨values, -, h⟩ := Option.bind_eq_some_iff.1 h
  obtain ⟨subkeys, hsubkeys, rfl⟩ := Option.map_eq_some_iff.1 h
  obtain ⟨sub, hmem, hsub⟩ := mapM_mem hsubkeys (List.mem_map_of_mem hj)
  refine ⟨sub, hsub, (infix_flatten hmem).trans (List.IsSuffix.isInfix ?_)⟩
  exact ⟨writeWideString k.name ++ dword (g.cells i).length :: values.flatten ++ [dword (k.children.map g.loc).length],
    by simp⟩

/-- **And those of all keys below it.** -/
theorem saveKeyToFile_walk (hl : Layout g M H) (hwf : WF F H) {G : CaseFold} (hw : Walk G H i ts n)
    (h : saveKeyToFile M fuel (g.loc i) = some ws) : ∃ fuel' sub, saveKeyToFile M fuel' (g.loc n) = some sub ∧ sub <:+: ws := by
  induction ts generalizing fuel i ws with
  | nil =>
    obtain rfl : i = n := hw
    exact ⟨fuel, ws, h, List.infix_refl _⟩
  | cons t ts ih =>
    obtain ⟨j, ⟨k, c, hk, hj, -, -⟩, hw⟩ := hw
    cases fuel with
    | zero => cases h
    | succ fuel =>
      obtain ⟨sub, hsub, hin⟩ := saveKeyToFile_child hl hwf hk hj h
      obtain ⟨fuel', sub', hsub', hin'⟩ := ih hw hsub
      exact ⟨fuel', sub', hsub', hin'.trans hin⟩

/-- The record of a key has its values in it. -/
theorem saveKeyToFile_value (hl : Layout g M H) (hwf : WF F H) (hk : deref H i = some k) (ha : a ∈ g.cells i)
    (h : saveKeyToFile M fuel (g.loc i) = some ws) : ∃ w, writeValueAt M a = some w ∧ w <:+: ws := by
  cases fuel with
  | zero => cases h
  | succ fuel =>
    rw [saveKeyToFile_node hl hwf hk] at h
    obtain ⟨values, hvalues, h⟩ := Option.bind_eq_some_iff.1 h
    obtain ⟨subkeys, -, rfl⟩ := Option.map_eq_some_iff.1 h
    obtain ⟨w, hmem, hw⟩ := mapM_mem hvalues ha
    refine ⟨w, hw, (infix_flatten hmem).trans ?_⟩
    exact ⟨writeWideString k.name ++ [dword (g.cells i).length],
      dword (k.children.map g.loc).length :: subkeys.flatten, by simp⟩

end Rvpn.Registry.Raw
