import Rvpn.Registry.Calls

/-!
# Replacing `register.reg`

`SaveRegistryToFile` (`register.c:611-650`) with a file system that may fail: the image goes to
`register.reg.tmp`, which then takes the place of `register.reg`. `WriteToFile` drops the result of
`WriteFile` (`:454-458`), so a block that is not written, or not written whole, is noticed by nobody.

* `saveRegistry_of_wf` — a well-formed tree has an image;
* `autoSave_eq` — with no failure the new file is the one `autoSave` leaves;
* `replace_iff` — the file is replaced as a whole or not at all exactly when a failing write is followed by
  a failing rename, or no temporary file was opened to begin with.
-/

namespace Rvpn.Registry

open Cells

/-! ## The file system -/

/-- The two files; `none` is a file that does not exist. -/
structure Disk where
  /-- `register.reg`. -/
  reg : Option (List UInt8)
  /-- `register.reg.tmp`. -/
  tmp : Option (List UInt8)
deriving DecidableEq

/-- What the file system answers to one save. -/
structure SaveIo where
  /-- `CreateFileW` of the temporary file succeeds. -/
  create : Bool
  /-- How many bytes the `i`-th `WriteFile` writes at most: one that fails may have written some. -/
  written : Nat → Nat
  /-- `MoveFileExW` succeeds. -/
  move : Bool
  /-- `DeleteFileW` of the temporary file succeeds. -/
  delete : Bool

/-- What a sequence of `WriteToFile` calls, the first one being the `i`-th, puts into the file. -/
def SaveIo.writeBlocks (io : SaveIo) : Nat → Writes → List UInt8
  | _, [] => []
  | i, b :: bs => b.take (io.written i) ++ io.writeBlocks (i + 1) bs

/-- `SaveRegistryToFile`: its result and the files it leaves; `none` where the walk over the tree reads a
dead pointer. -/
def saveRegistryToFile (io : SaveIo) (H : Heap) (d : Disk) : Option (Bool × Disk) :=
  if !io.create then some (false, d)
  else (saveRegistry H).map fun ws =>
    let content := io.writeBlocks 0 ws
    if io.move then (true, { reg := some content, tmp := none })
    else (false, { d with tmp := if io.delete then none else some content })

/-- `register.reg` is what it was or the image, and the image if the save reports success. -/
def Replaced (image : List UInt8) (d : Disk) (r : Bool × Disk) : Prop :=
  (r.2.reg = d.reg ∨ r.2.reg = some image) ∧ (r.1 = true → r.2.reg = some image)

/-- Every `WriteFile` writes its block. -/
def SaveIo.WritesAll (io : SaveIo) (ws : Writes) : Prop := ∀ i b, ws[i]? = some b → b.length ≤ io.written i

variable {F : CaseFold} {H : Heap} {io : SaveIo} {ws : Writes} {σ : Store}

/-! ## The image of a tree -/

/-- `SaveKeyToFile` comes to an end at every live key: a path of the tree is no longer than the heap. -/
theorem saveKeyToFile_of_wf (hwf : WF F H) (fuel : Nat) {i : Id} (hi : ∃ k, deref H i = some k)
    (hle : H.length ≤ i + fuel) : ∃ ws, saveKeyToFile H fuel i = some ws := by
  induction fuel generalizing i with
  | zero =>
    obtain ⟨k, hk⟩ := hi
    exact absurd (lt_of_deref hk) (Nat.not_lt_of_le hle)
  | succ fuel ih =>
    obtain ⟨k, hk⟩ := hi
    obtain ⟨ss, hss⟩ : ∃ ss, k.children.mapM (saveKeyToFile H fuel) = some ss := by
      refine mapM_total fun j hj => ?_
      obtain ⟨hlt, c, hc, -⟩ := hwf.child hk hj
      exact ih ⟨c, hc⟩ (by omega)
    exact ⟨_, by rw [saveKeyToFile, hk]; simp only [hss, Option.map_some]; rfl⟩

/-- **A well-formed tree has an image.** -/
theorem saveRegistry_of_wf (hwf : WF F H) : ∃ ws, saveRegistry H = some ws := by
  obtain ⟨k, hk, -⟩ := hwf.root
  obtain ⟨ws, hws⟩ := saveKeyToFile_of_wf hwf H.length ⟨k, hk⟩ (Nat.le_add_left _ _)
  exact ⟨dword regfileMagic :: ws, by rw [saveRegistry, hws]; rfl⟩

theorem autoSave_of_wf (hwf : WF F σ.heap) : ∃ τ, autoSave σ = some τ := by
  obtain ⟨ws, hws⟩ := saveRegistry_of_wf hwf
  exact ⟨_, autoSave_eq_some.2 ⟨ws, hws, rfl⟩⟩

/-! ## What is written -/

theorem SaveIo.length_writeBlocks_le (io : SaveIo) (i : Nat) (ws : Writes) :
    (io.writeBlocks i ws).length ≤ ws.flatten.length := by
  induction ws generalizing i with
  | nil => exact Nat.le_refl _
  | cons b bs ih =>
    have hrest := ih (i + 1)
    simp only [SaveIo.writeBlocks, List.flatten_cons, List.length_append, List.length_take]
    omega

/-- **The temporary file is the image** exactly if no write falls short. -/
theorem SaveIo.writeBlocks_eq_iff (io : SaveIo) (i : Nat) (ws : Writes) :
    io.writeBlocks i ws = ws.flatten ↔ ∀ j b, ws[j]? = some b → b.length ≤ io.written (i + j) := by
  induction ws generalizing i with
  | nil => simp [SaveIo.writeBlocks]
  | cons b bs ih =>
    have hsplit : (∀ j c, (b :: bs)[j]? = some c → c.length ≤ io.written (i + j)) ↔
        b.length ≤ io.written i ∧ ∀ j c, bs[j]? = some c → c.length ≤ io.written (i + 1 + j) := by
      constructor
      · intro h
        refine ⟨h 0 b rfl, fun j c hc => ?_⟩
        have := h (j + 1) c hc
        rwa [Nat.add_right_comm]
      · rintro ⟨h0, h⟩ j c hc
        cases j with
        | zero =>
          obtain rfl := Option.some.inj hc
          exact h0
        | succ j =>
          have := h j c hc
          rwa [Nat.add_right_comm] at this
    rw [hsplit, ← ih (i + 1), SaveIo.writeBlocks, List.flatten_cons]
    constructor
    · intro h
      -- a short block cannot be made up for: what follows is no longer than it should be
      have hle := io.length_writeBlocks_le (i + 1) bs
      have hlen := congrArg List.length h
      simp only [List.length_append, List.length_take] at hlen
      have hb : b.length ≤ io.written i := by omega
      rw [List.take_of_length_le hb] at h
      exact ⟨hb, List.append_cancel_left h⟩
    · rintro ⟨hb, hrest⟩
      rw [List.take_of_length_le hb, hrest]

/-- With no failure `SaveRegistryToFile` leaves the file that `autoSave` leaves. -/
theorem autoSave_eq (hcreate : io.create = true) (hmove : io.move = true)
    (hwrite : ∀ ws, saveRegistry σ.heap = some ws → io.WritesAll ws) (tmp : Option (List UInt8)) :
    saveRegistryToFile io σ.heap ⟨σ.file, tmp⟩ = (autoSave σ).map fun τ => (true, ⟨τ.file, none⟩) := by
  unfold saveRegistryToFile autoSave
  rw [hcreate, Bool.not_true, if_neg Bool.false_ne_true]
  cases hws : saveRegistry σ.heap with
  | none => rfl
  | some ws =>
    have hall : io.writeBlocks 0 ws = ws.flatten :=
      (io.writeBlocks_eq_iff 0 ws).2 fun j b hb => by simpa using hwrite ws hws j b hb
    simp [hmove, hall]

/-- **Crash safety**: for every tree and every pattern of failures the save comes to an end, and it has replaced
the file as a whole or not at all, with the result that says so, exactly if the temporary file could not be
created, the rename failed, or every block was written whole. -/
theorem replace_iff (hwf : WF F H) (io : SaveIo) (d : Disk) :
    ∃ ws r, saveRegistry H = some ws ∧ saveRegistryToFile io H d = some r ∧
      (Replaced ws.flatten d r ↔ io.create = false ∨ io.move = false ∨ io.WritesAll ws) := by
  obtain ⟨ws, hws⟩ := saveRegistry_of_wf hwf
  cases hcreate : io.create with
  | false =>
    refine ⟨ws, (false, d), hws, by simp [saveRegistryToFile, hcreate], ?_⟩
    exact iff_of_true ⟨.inl rfl, by simp⟩ (.inl rfl)
  | true =>
    cases hmove : io.move with
    | false =>
      refine ⟨ws, _, hws, by simp [saveRegistryToFile, hcreate, hmove, hws]; rfl, ?_⟩
      exact iff_of_true ⟨.inl rfl, by simp⟩ (.inr (.inl rfl))
    | true =>
      refine ⟨ws, (true, ⟨some (io.writeBlocks 0 ws), none⟩), hws, by simp [saveRegistryToFile, hcreate, hmove, hws], ?_⟩
      have hiff := io.writeBlocks_eq_iff 0 ws
      simp only [Nat.zero_add] at hiff
      constructor
      · rintro ⟨-, hok⟩
        exact .inr (.inr (hiff.1 (Option.some.inj (hok rfl))))
      · rintro (h | h | h)
        · cases h
        · cases h
        · exact ⟨.inr (congrArg some (hiff.2 h)), fun _ => congrArg some (hiff.2 h)⟩

/-- `MoveFileExW` fails, all else succeeds. -/
def SaveIo.moveFails : SaveIo := ⟨true, fun _ => 1000, false, true⟩

/-- A key with a value, saved over another file: the rename fails, and the file is what it was. -/
theorem replace_iff_moveFails : ∃ σ ws r, Lts.run (step asciiFold) (Store.empty false)
      [.createKey .ex HKEY_LOCAL_MACHINE (some (wide "A")), .setValue 0x30000000 (some (wide "x")) 4 [1, 0, 0, 0]] = some σ ∧
    saveRegistry σ.heap = some ws ∧ saveRegistryToFile .moveFails σ.heap ⟨some [1, 2, 3], none⟩ = some r ∧
    r = (false, ⟨some [1, 2, 3], none⟩) ∧ Replaced ws.flatten ⟨some [1, 2, 3], none⟩ r := by
  obtain ⟨σ, hrun, hsave⟩ : ∃ σ, Lts.run (step asciiFold) (Store.empty false)
      [.createKey .ex HKEY_LOCAL_MACHINE (some (wide "A")), .setValue 0x30000000 (some (wide "x")) 4 [1, 0, 0, 0]] = some σ ∧
      saveRegistryToFile .moveFails σ.heap ⟨some [1, 2, 3], none⟩ = some (false, ⟨some [1, 2, 3], none⟩) :=
    ⟨_, rfl, rfl⟩
  have hwf : WF asciiFold σ.heap := (inv_run (inv_empty false) hrun).wf
  obtain ⟨ws, r, hws, hr, hiff⟩ := replace_iff hwf .moveFails ⟨some [1, 2, 3], none⟩
  exact ⟨σ, ws, r, hrun, hws, hr, Option.some.inj (hr.symm.trans hsave), hiff.2 (.inr (.inl rfl))⟩

/-- The disk is full after the magic number. -/
def SaveIo.full : SaveIo := ⟨true, fun i => if i = 0 then 4 else 0, true, true⟩

/-- **A file that is lost**: every write after the first one fails, and the save reports success. The file is
then neither the one it was nor the image of the tree. -/
theorem file_lost : ∃ ws, saveRegistry emptyHeap = some ws ∧
    saveRegistryToFile .full emptyHeap ⟨some ws.flatten, none⟩ = some (true, ⟨some [0x52, 0x47, 0x42, 0x46], none⟩) ∧
    ¬ Replaced ws.flatten ⟨some ws.flatten, none⟩ (true, ⟨some [0x52, 0x47, 0x42, 0x46], none⟩) := by
  refine ⟨_, rfl, rfl, ?_⟩
  rintro ⟨-, hok⟩
  exact absurd (hok rfl) (by decide)

end Rvpn.Registry
