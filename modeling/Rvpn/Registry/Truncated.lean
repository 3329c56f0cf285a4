import Rvpn.Registry.Codec

/-!
# A file that is cut off (register.c:453-583)

`ReadFromFile` does not look at the number of bytes it got. Where the file ends early, the rest of a number or a name
is whatever its destination held, and the loader goes on with it. The one check there is is on the magic number, so a
cut behind the fourth byte is not noticed (`rejectedWhole_iff`). If the locals happen to be zero, a file cut between
two records of the top row loads as a registry without the second (`load_cut`).
-/

namespace Rvpn.Registry

open Cells Bytes

variable {F : CaseFold} {H : Heap} {ws : Writes} {pre : List UInt8} {junk : Nat → UInt8}

/-- The loader returns `FALSE` and leaves the root without children and values. -/
def RejectedWhole (F : CaseFold) (junk : Nat → UInt8) (file : List UInt8) : Prop :=
  ∃ fuel, loadRegistryFromFile F fuel junk (some file) = some (false, emptyHeap)

/-! ## The magic number -/

theorem loadRegistry_of_magic {fuel : Nat} {file : List UInt8} {r : Reader} (h : Reader.dword ⟨file, junk⟩ = (regfileMagic, r)) :
    loadRegistryFromFile F fuel junk (some file) = (loadRoot F fuel ⟨emptyHeap, r⟩).map fun s => (true, s.heap) := by
  simp only [loadRegistryFromFile, h, ne_eq, not_true_eq_false, if_false]

/-- `FALSE` is returned for the magic number and for nothing else. -/
theorem rejectedWhole_iff_magic {file : List UInt8} :
    RejectedWhole F junk file ↔ (Reader.dword ⟨file, junk⟩).1 ≠ regfileMagic := by
  constructor
  · rintro ⟨fuel, hload⟩ hmagic
    rw [loadRegistry_of_magic (r := (Reader.dword ⟨file, junk⟩).2) (by rw [← hmagic])] at hload
    obtain ⟨s, -, hs⟩ := Option.map_eq_some_iff.1 hload
    cases hs
  · intro hmagic
    refine ⟨0, ?_⟩
    rw [loadRegistryFromFile]
    exact if_pos hmagic

theorem saveRegistry_magic (hsave : saveRegistry H = some ws) : ∃ us, ws.flatten = dword regfileMagic ++ us := by
  obtain ⟨ws', -, rfl⟩ := Option.map_eq_some_iff.1 hsave
  exact ⟨ws'.flatten, List.flatten_cons⟩

/-- Four bytes that read as the number are its image. -/
theorem ofLE_eq_iff {bs : List UInt8} {n : Nat} (hlen : bs.length = 4) (hn : n < 2 ^ 32) : ofLE bs = n ↔ bs = dword n := by
  constructor
  · rintro rfl
    rw [dword, ← hlen, leBytes_ofLE]
  · rintro rfl
    exact ofLE_leBytes_of_lt hn

/-- **Which cut files are rejected**: those cut within the magic number, if what the local held does not complete it. -/
theorem rejectedWhole_iff (hsave : saveRegistry H = some ws) (hpre : pre <+: ws.flatten) (junk : Nat → UInt8) :
    RejectedWhole F junk pre ↔
      pre.length < 4 ∧ ∃ i, pre.length + i < 4 ∧ (dword regfileMagic)[pre.length + i]? ≠ some (junk i) := by
  obtain ⟨us, hus⟩ := saveRegistry_magic hsave
  have hmagic : regfileMagic < 2 ^ 32 := by decide
  have hlen4 : (dword regfileMagic).length = 4 := length_leBytes _ _
  rw [hus] at hpre
  rw [rejectedWhole_iff_magic]
  by_cases hcut : 4 ≤ pre.length
  · obtain ⟨rest, rfl⟩ := List.prefix_of_prefix_length_le (List.prefix_append _ us) hpre (by rw [hlen4]; exact hcut)
    rw [Reader.dword_append hmagic]
    refine iff_of_false (fun h => h rfl) fun h => ?_
    omega
  · have hshort : pre = (dword regfileMagic).take pre.length := by
      have hle : pre.length ≤ (dword regfileMagic).length := by omega
      calc pre = (dword regfileMagic ++ us).take pre.length := List.prefix_iff_eq_take.1 hpre
        _ = (dword regfileMagic).take pre.length := List.take_append_of_le_length hle
    have hread : (Reader.read ⟨pre, junk⟩ 4).1 = pre ++ (List.range (4 - pre.length)).map junk := by
      have hle : pre.length ≤ 4 := by omega
      rw [Reader.read, List.take_of_length_le hle]
    have hlen : (pre ++ (List.range (4 - pre.length)).map junk).length = 4 := by
      rw [List.length_append, List.length_map, List.length_range]
      omega
    rw [Reader.dword, hread, ne_eq, ofLE_eq_iff hlen hmagic]
    constructor
    · intro hne
      refine ⟨by omega, ?_⟩
      by_contra hall
      push Not at hall
      refine hne (List.ext_getElem? fun j => ?_)
      by_cases hj : j < pre.length
      · rw [List.getElem?_append_left hj]
        conv_lhs => rw [hshort]
        exact List.getElem?_take_of_lt hj
      · by_cases hj4 : j < 4
        · have hi := hall (j - pre.length) (by omega)
          rw [Nat.add_sub_cancel' (by omega)] at hi
          rw [List.getElem?_append_right (by omega), hi, List.getElem?_map, List.getElem?_range (by omega), Option.map_some]
        · rw [List.getElem?_eq_none (by omega), List.getElem?_eq_none (by omega)]
    · rintro ⟨-, i, hi, hne⟩ heq
      refine hne ?_
      rw [← heq, List.getElem?_append_right (by omega), Nat.add_sub_cancel_left, List.getElem?_map,
        List.getElem?_range (by omega), Option.map_some]

/-! ## A cut between two records -/

theorem Forest.encode_append (f g : Forest) : (f.append g).encode = f.encode ++ g.encode := by
  induction f with
  | nil => rfl
  | cons name values kids sibs _ ih => simp [Forest.append, Forest.encode, ih]

theorem iterate_add {S : Type} {g : S → Option S} {n m : Nat} {s : S} :
    iterate g (n + m) s = (iterate g n s).bind (iterate g m) := by
  induction n generalizing s with
  | zero => rw [Nat.zero_add]; rfl
  | succ n ih =>
    rw [Nat.succ_add, iterate, iterate, Option.bind_assoc]
    exact congrArg _ (funext fun t => ih)

theorem iterate_fixed {S : Type} {g : S → Option S} {n : Nat} {s : S} (h : g s = some s) : iterate g n s = some s := by
  induction n with
  | zero => rfl
  | succ n ih => rw [iterate, h, Option.bind_some, ih]

/-- At the end of the file a length of zero is read, and no key is made. -/
theorem loadKey_eof {fuel : Nat} (p : Id) (H : Heap) :
    loadKeyFromFile F (fuel + 1) p ⟨H, ⟨[], fun _ => 0⟩⟩ = some ⟨H, ⟨[], fun _ => 0⟩⟩ := rfl

/-- The image of a registry with `f` and `g` under the root, cut behind the records of `f`. -/
def cutBehind (f g : Forest) : List UInt8 := (dword regfileMagic :: keyRecord [] [] (f.append g).length f.encode).flatten

theorem cutBehind_prefix (f g : Forest) :
    cutBehind f g <+: (dword regfileMagic :: keyRecord [] [] (f.append g).length (f.append g).encode).flatten := by
  refine ⟨g.encode.flatten, ?_⟩
  simp [cutBehind, keyRecord, Forest.encode_append]

/-- **What a cut can lose unnoticed**: all keys behind it. -/
theorem load_cut (f g : Forest) (hok : f.Ok F) (hlen : (f.append g).length < 2 ^ 32) {fuel : Nat} (hfuel : f.depth ≤ fuel + 1) :
    ∃ H' ids, loadRegistryFromFile F (fuel + 1) (fun _ => 0) (some (cutBehind f g)) = some (true, H') ∧
      Loaded F emptyHeap regRoot { name := [], parent := none, children := [], values := [] } H' ids f := by
  obtain ⟨H', ids, hload, hl⟩ := loadForest f hok (fuel + 1) hfuel emptyHeap regRoot
    { name := [], parent := none, children := [], values := [] } [] (fun _ => 0) emptyHeap_wf rfl (by simp)
  refine ⟨H', ids, ?_, hl⟩
  rw [List.append_nil] at hload
  rw [cutBehind, loadRegistry_image hlen, Forest.length_append, iterate_add, hload, Option.bind_some,
    iterate_fixed (loadKey_eof regRoot H'), Option.map_some]

/-- A root with two keys. -/
def twoKeysHeap : Heap :=
  [some { name := [], parent := none, children := [1, 2], values := [] },
   some { name := wide "A", parent := some 0, children := [], values := [] },
   some { name := wide "B", parent := some 0, children := [], values := [] }]

/-- One byte of the magic number, and a local that holds zeros. -/
theorem rejectedWhole_one : RejectedWhole asciiFold (fun _ => 0) [0x52] := by
  have hpre : [0x52] <+: (dword regfileMagic :: keyRecord [] [] 0 []).flatten := by decide
  exact (rejectedWhole_iff (H := emptyHeap) rfl hpre _).2 ⟨by decide, 0, by decide, by decide⟩

/-- Cut behind the record of `A`, the file loads as a registry with `A` alone. -/
theorem cut_not_rejected : ∃ ws, saveRegistry twoKeysHeap = some ws ∧ ws.flatten.take 34 ≠ ws.flatten ∧
    ¬ RejectedWhole asciiFold (fun _ => 0) (ws.flatten.take 34) ∧
    loadRegistryFromFile asciiFold 1 (fun _ => 0) (some (ws.flatten.take 34)) =
      some (true, [some { name := [], parent := none, children := [1], values := [] },
        some { name := wide "A", parent := some 0, children := [], values := [] }]) := by
  refine ⟨_, rfl, by decide +kernel, ?_, by decide +kernel⟩
  intro h
  exact rejectedWhole_iff_magic.1 h (by decide +kernel)

end Rvpn.Registry
