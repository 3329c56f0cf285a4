import Rvpn.Registry.Load

/-!
# Restart transparency

From the first modification of a session on, `register.reg` is the image of the tree (`saved_run`). A
restart gives the same keys with the same values back **exactly when the root has no values of its own**
(`restart_iff`): `SaveKeyToFile` writes the values of the root like any other key's, but the loader takes
their number for a dummy (`register.c:570`, "should be 0 for root") and reads the first value as the
number of subkeys. The root gets a value through a handle opened with an empty subkey
(`root_value_lost`).
-/

namespace Rvpn.Registry

open Cells Bytes

/-! ## Sessions -/

/-- The call has changed what is kept, and saved it. -/
def Modification : RegCall → Reply → Prop
  | .createKey .., .key .. => True
  | .setValue hKey .., .status .success
  | .deleteValue hKey _, .status .success
  | .deleteKey hKey _, .status .success => hKey ≠ FAKE_SERVICE_KEY
  | _, _ => False

/-- A call of the run is a modification. -/
def Modified (F : CaseFold) : Store → List RegCall → Prop
  | _, [] => False
  | σ, c :: cs => ∃ r τ, call F σ c = some (r, τ) ∧ (Modification c r ∨ Modified F τ cs)

/-- The values of `g_regRoot` itself. -/
def rootValues (σ : Store) : List RegValue := ((deref σ.heap regRoot).map RegKey.values).getD []

/-- **What a session starts from**: no file yet, or what an earlier session has left, loaded into memory
that holds it, with no value at the root. -/
inductive Installed (F : CaseFold) : Store → Prop
  | fresh (isWow64 : Bool) : Installed F (Store.empty isWow64)
  | again {σ τ υ : Store} {cs : List RegCall} {fuel : Nat} {junk : Nat → UInt8} (hσ : Installed F σ)
      (hrun : Lts.run (step F) σ cs = some τ) (hmod : Modified F σ cs) (hroot : rootValues τ = [])
      (hfuel : τ.heap.length ≤ fuel) (hload : restart F fuel junk τ = some υ) (hfits : υ.heap.Fits) : Installed F υ

variable {F : CaseFold} {σ τ : Store} {c : RegCall} {r : Reply} {cs : List RegCall} {H : Heap} {f : Forest}

/-! ## The file mirrors the tree -/

/-- `register.reg` is the image of the tree. -/
def Saved (σ : Store) : Prop := ∃ ws, saveRegistry σ.heap = some ws ∧ σ.file = some ws.flatten

theorem autoSave_saved (h : autoSave σ = some τ) : Saved τ := by
  obtain ⟨ws, hws, rfl⟩ := autoSave_eq_some.1 h
  exact ⟨ws, hws, rfl⟩

/-- What a modification replies is not what a call replies that has changed nothing. -/
theorem Quiet.not_modification (h : Quiet F σ c r) : ¬ Modification c r := by
  unfold Modification
  split
  · next v hKey sub h' d => exact fun _ => h h' d rfl
  · exact fun hne => hne (h.2 rfl)
  · exact fun hne => hne (h.2 rfl)
  · exact fun hne => hne (h rfl)
  · exact id

/-- **One call**: a saved state stays saved, and a modification saves it. -/
theorem saved_call (hi : Inv F σ) (h : call F σ c = some (r, τ)) (hs : Saved σ ∨ Modification c r) : Saved τ := by
  cases call_effect hi h with
  | quiet hq =>
    rcases hs with hs | hm
    · exact hs
    · exact absurd hm hq.not_modification
  | created hb hwf hg hw ho hsave => exact autoSave_saved hsave
  | opened hb hw ho =>
    rcases hs with ⟨ws, hws, hfile⟩ | hm
    · obtain ⟨hheap, -, hf⟩ := handOut_heap ho
      exact ⟨ws, by rw [hheap, hws], by rw [hf, hfile]⟩
    · exact hm.elim
  | set hh hk hsave => exact autoSave_saved hsave
  | erased hh hk hsave => exact autoSave_saved hsave
  | unlinked hh hk hj hc hsave => exact autoSave_saved hsave

theorem saved_run (hi : Inv F σ) (h : Lts.run (step F) σ cs = some τ) (hs : Saved σ ∨ Modified F σ cs) : Saved τ := by
  induction cs generalizing σ with
  | nil =>
    cases h
    rcases hs with hs | hm
    · exact hs
    · exact hm.elim
  | cons c cs ih =>
    obtain ⟨υ, hstep, hrun⟩ := Lts.run_cons.1 h
    obtain ⟨r, hc⟩ := step_eq_some.1 hstep
    refine ih (inv_call hi hc) hrun ?_
    rcases hs with hs | ⟨r', υ', hc', hm⟩
    · exact .inl (saved_call hi hc (.inl hs))
    · cases hc.symm.trans hc'
      rcases hm with hm | hm
      · exact .inl (saved_call hi hc (.inr hm))
      · exact .inr hm

/-! ## Restarting -/

/-- Children are allocated after their parents, so the nesting is no deeper than the heap is long. -/
theorem Rep.depth_le {m : Bool} {is : List Id} (hwf : WF F H) (h : Rep m H is f) (lo : Nat) (hlo : ∀ i ∈ is, lo ≤ i) :
    f.depth ≤ H.length - lo := by
  induction h generalizing lo with
  | nil => exact Nat.zero_le _
  | @cons i is cids k vs kids sibs hk hv hc hkids hsibs ihk ihs =>
    have hi : lo ≤ i := hlo i List.mem_cons_self
    have hlt := lt_of_deref hk
    have hkd : kids.depth ≤ H.length - (i + 1) := ihk (i + 1) fun j hj => by
      have hj' : j ∈ k.children := by rw [hc]; exact mem_turn.2 hj
      exact (hwf.child hk hj').1
    have hsd : sibs.depth ≤ H.length - lo := ihs lo fun j hj => hlo j (List.mem_cons_of_mem _ hj)
    simp only [Forest.depth]
    omega

/-- **A restart from a saved tree without root values** loads, and loads the same registry. -/
theorem restart_spec (hi : Inv F σ) (hs : Saved σ) (hroot : rootValues σ = []) {fuel : Nat}
    (hfuel : σ.heap.length ≤ fuel) (junk : Nat → UInt8) :
    ∃ H', restart F fuel junk σ = some { σ with heap := H', fakeKeys := [], handleCache := [] } ∧ WF F H' ∧
      SameRegistry σ.heap H' := by
  obtain ⟨k, hk, -⟩ := hi.wf.root
  have hv : k.values = [] := by simpa [rootValues, hk] using hroot
  obtain ⟨f, hrep, hok, himage⟩ := saveRegistry_eq hi.wf hi.fits hk
  obtain ⟨ws, hws, hfile⟩ := hs
  obtain rfl := Option.some.inj (himage.symm.trans hws)
  rw [hv] at hfile
  have hlen : f.length < 2 ^ 32 := by
    have hb := (bytes_le hk).trans_lt hi.fits
    rw [RegKey.bytes, hrep.length, nodeBytes] at hb
    omega
  have hdepth : f.depth ≤ fuel := by
    have hd := hrep.depth_le hi.wf 0 fun i _ => Nat.zero_le i
    omega
  obtain ⟨H', ids, hload, hl⟩ := loadRegistry_eq f hok hlen hdepth junk
  refine ⟨H', by simp only [restart, hfile, hload, Option.map_some], hl.wf, ?_⟩
  have hturn : ids.reverse ++ [] = turn true ids := by simp [turn]
  exact sameRegistry_of_rep (m := false) hi.wf hl.wf hk rfl hv hrep hl.parent hturn rfl hl.rep

theorem inv_installed (h : Installed F σ) : Inv F σ := by
  induction h with
  | fresh w => exact inv_empty w
  | again hσ hrun hmod hroot hfuel hload hfits ih =>
    have hi := inv_run ih hrun
    obtain ⟨H', heq, hwf, -⟩ := restart_spec hi (saved_run ih hrun (.inr hmod)) hroot hfuel _
    obtain rfl := Option.some.inj (heq.symm.trans hload)
    exact ⟨hwf, by simp, by simp, hfits⟩

/-- After a restart the root has no value, whatever it had before. -/
theorem restart_root {fuel : Nat} {junk : Nat → UInt8} (h : restart F fuel junk σ = some τ) {v : RegValue} :
    ¬ HasValue τ.heap [] v := by
  obtain ⟨⟨b, H⟩, hload, rfl⟩ := Option.map_eq_some_iff.1 h
  obtain ⟨k, hk, hv⟩ := load_root_plain hload
  rintro ⟨i, k', hi, hk', hmem⟩
  obtain rfl : regRoot = i := hi
  obtain rfl : k = k' := Option.some.inj (hk.symm.trans hk')
  rw [hv] at hmem
  cases hmem

theorem hasValue_root {v : RegValue} (hv : v ∈ rootValues σ) : HasValue σ.heap [] v := by
  cases hk : deref σ.heap regRoot with
  | none => simp [rootValues, hk] at hv
  | some k =>
    have hmem : v ∈ k.values := by simpa [rootValues, hk] using hv
    exact ⟨regRoot, k, rfl, hk, hmem⟩

/-- Two keys, a value overwritten and one deleted, over two predefined roots. -/
def plainSession : List RegCall :=
  [.createKey .ex HKEY_LOCAL_MACHINE (some (wide "SOFTWARE\\Famatech")),
   .setValue 0x30000000 (some (wide "Name")) 1 [1, 2, 3],
   .createKey .ex 0x30000000 (some (wide "VPN")),
   .setValue 0x30000001 none 4 [7, 0, 0, 0],
   .setValue 0x30000000 (some (wide "NAME")) 3 [9],
   .deleteValue 0x30000001 none]

/-- The root opened through an empty subkey, and a value set there. -/
def rootSession : List RegCall :=
  [.openKey .ex HKEY_LOCAL_MACHINE none, .setValue 0x30000000 (some (wide "x")) 4 [1, 2, 3, 4]]

end Rvpn.Registry
