import Rvpn.Lib.Replace
import Rvpn.Registry.Restart
import Rvpn.Registry.Save

/-!
# One `register.reg`, several processes

Every process the library is injected into keeps a tree of its own and saves it, whole, to the one `register.reg`
next to the executable. `g_regLock` serialises the saves of a process; between processes there are only the file
system's own rules (`Replace`): the temporary file is opened with share mode 0 (`register.c:626`), the loader opens
`register.reg` with `FILE_SHARE_READ` (`:523`), and `MoveFileExW` cannot replace a file that is open.

| here | there |
| --- | --- |
| `saveActs`             | the file operations of one `SaveRegistryToFile` (`:611-650`) |
| `HostAct.load`, `.fresh` | `LoadRegistryFromFile` (`:515-583`), with a file to open and without |
| `HostAct.call`         | a hook up to its `AutoSave` |

* `alone_run` — a save nobody interferes with is `saveRegistryToFile`, whatever fails;
* `register_whole` — at every moment `register.reg` is the whole image of a tree that one process had, and loading it
  gives that tree;
* `save_installs` — a save that reports success has installed the tree of its own process, if no other save begins
  between its last block and its rename; otherwise it may have installed the other tree (`save_other`).
-/

namespace Rvpn.Registry

open Cells Bytes Replace

variable {F : CaseFold} {P : Type} [DecidableEq P]

/-! ## One save -/

/-- The file operations of a `SaveRegistryToFile` by `p`. -/
def saveActs (io : SaveIo) (p : P) (ws : Writes) : List (Replace.Act P UInt8) :=
  if !io.create then []
  else .create p ws :: (List.range ws.length).map (fun i => .write p (io.written i)) ++ .close p ::
    if io.move then [.move p] else [.moveFails p, if io.delete then .delete p else .deleteFails p]

/-- The disk with nobody at work. -/
def Disk.atRest (d : Disk) : Replace.State P UInt8 := State.start d.reg d.tmp

/-- The blocks from the `i`-th on. -/
theorem write_run (io : SaveIo) (p : P) (content : List UInt8) (bs : Writes) (i : Nat) (s : Replace.State P UInt8)
    (done : List UInt8) (hpc : s.pc p = .writing bs content) (htmp : s.tmp = some done) :
    Lts.run Replace.step s ((List.range bs.length).map fun j => .write p (io.written (i + j))) =
      some ({ s with tmp := some (done ++ io.writeBlocks i bs) }.to p (.writing [] content)) := by
  induction bs generalizing i s done with
  | nil =>
    have hto : { s with tmp := some (done ++ []) }.to p (.writing [] content) = s := by
      rw [List.append_nil, ← htmp, State.to, ← hpc, Function.update_eq_self]
    rw [SaveIo.writeBlocks, hto]
    rfl
  | cons b bs ih =>
    have hstep : Replace.step s (.write p (io.written (i + 0))) =
        some ({ s with tmp := some (done ++ b.take (io.written i)) }.to p (.writing bs content)) := by
      simp only [Replace.step, hpc, htmp, Nat.add_zero]
    rw [List.length_cons, List.range_succ_eq_map, List.map_cons, Lts.run_cons_of _ hstep, List.map_map]
    have hshift : ((fun j => Replace.Act.write p (io.written (i + j))) ∘ Nat.succ : Nat → Replace.Act P UInt8) =
        fun j => .write p (io.written (i + 1 + j)) := by
      funext j
      simp only [Function.comp, Nat.succ_eq_add_one]
      rw [Nat.add_right_comm, Nat.add_assoc]
    rw [hshift, ih (i + 1) _ (done ++ b.take (io.written i)) (by rw [to_pc, if_pos rfl]) rfl]
    simp only [SaveIo.writeBlocks, State.to, Function.update_idem, List.append_assoc]

/-- `p` is done, and the files are those of `d'`. -/
theorem atRest_of_to (d d' : Disk) (p : P) (c : Pc UInt8) :
    { (d.atRest : Replace.State P UInt8).to p c with target := d'.reg, tmp := d'.tmp }.to p .idle = d'.atRest := by
  simp only [State.to, Disk.atRest, State.start, Function.update_idem]
  congr 1
  exact Function.update_eq_self p _

/-- After the temporary file is closed. -/
theorem finish_run (io : SaveIo) (p : P) (d : Disk) {content : List UInt8} (htmp : d.tmp = some content) :
    Lts.run Replace.step ((d.atRest : Replace.State P UInt8).to p .closed)
        (if io.move then [.move p] else [.moveFails p, if io.delete then .delete p else .deleteFails p]) =
      some (Disk.atRest (if io.move then ⟨some content, none⟩
        else ⟨d.reg, if io.delete then none else some content⟩)) := by
  obtain ⟨reg, tmp⟩ := d
  obtain rfl : tmp = some content := htmp
  let s : Replace.State P UInt8 := Disk.atRest ⟨reg, some content⟩
  have hfails : Replace.step (s.to p .closed) (.moveFails p) = some ((s.to p .closed).to p .failed) := by
    simp only [Replace.step, to_pc, if_true]
  cases hmove : io.move with
  | true =>
    have hstep : Replace.step (s.to p .closed) (.move p) =
        some ({ s.to p .closed with target := some content, tmp := none }.to p .idle) := by
      simp only [Replace.step, to_pc, if_true]
      rfl
    simp only [if_true]
    rw [Lts.run_cons_of _ hstep]
    exact congrArg some (atRest_of_to ⟨reg, some content⟩ ⟨some content, none⟩ p .closed)
  | false =>
    have hto : (s.to p .closed).to p .failed = s.to p .failed := by simp only [State.to, Function.update_idem]
    rw [hto] at hfails
    cases hdelete : io.delete with
    | true =>
      have hstep : Replace.step (s.to p .failed) (.delete p) = some ({ s.to p .failed with tmp := none }.to p .idle) := by
        simp only [Replace.step, to_pc, if_true]
        rfl
      simp only [Bool.false_eq_true, if_false, if_true]
      rw [Lts.run_cons_of _ hfails, Lts.run_cons_of _ hstep]
      exact congrArg some (atRest_of_to ⟨reg, some content⟩ ⟨reg, none⟩ p .failed)
    | false =>
      have hstep : Replace.step (s.to p .failed) (.deleteFails p) = some ((s.to p .failed).to p .idle) := by
        simp only [Replace.step, to_pc, if_true]
      simp only [Bool.false_eq_true, if_false]
      rw [Lts.run_cons_of _ hfails, Lts.run_cons_of _ hstep]
      exact congrArg some (atRest_of_to ⟨reg, some content⟩ ⟨reg, some content⟩ p .failed)

/-- **A save that nobody interferes with**, for every pattern of failures and short writes: the file operations run
through and leave what `saveRegistryToFile` leaves, and it reports success if they end with the rename. -/
theorem alone_run (io : SaveIo) (p : P) {H : Heap} {ws : Writes} (hws : saveRegistry H = some ws) (d : Disk) :
    ∃ ok d', saveRegistryToFile io H d = some (ok, d') ∧ (ok = true ↔ .move p ∈ saveActs io p ws) ∧
      Lts.run Replace.step (d.atRest : Replace.State P UInt8) (saveActs io p ws) = some d'.atRest := by
  cases hcreate : io.create with
  | false =>
    exact ⟨false, d, by simp [saveRegistryToFile, hcreate], by simp [saveActs, hcreate], by simp [saveActs, hcreate]⟩
  | true =>
    let s₁ := { (d.atRest : Replace.State P UInt8) with tmp := some [], writer := some p }.to p (.writing ws ws.flatten)
    have hcr : Replace.step (d.atRest : Replace.State P UInt8) (.create p ws) = some s₁ := rfl
    have hw := write_run io p ws.flatten ws 0 s₁ [] (by rw [to_pc, if_pos rfl]) rfl
    simp only [Nat.zero_add, List.nil_append] at hw
    have hclose : Replace.step ({ s₁ with tmp := some (io.writeBlocks 0 ws) }.to p (.writing [] ws.flatten)) (.close p) =
        some ((Disk.atRest ⟨d.reg, some (io.writeBlocks 0 ws)⟩ : Replace.State P UInt8).to p .closed) := by
      simp only [Replace.step, to_pc, if_true]
      simp only [State.to, Disk.atRest, State.start, Function.update_idem, s₁]
    have hrun : Lts.run Replace.step (d.atRest : Replace.State P UInt8) (saveActs io p ws) =
        some (Disk.atRest (if io.move then ⟨some (io.writeBlocks 0 ws), none⟩
          else ⟨d.reg, if io.delete then none else some (io.writeBlocks 0 ws)⟩)) := by
      rw [saveActs, hcreate, Bool.not_true, if_neg Bool.false_ne_true, List.cons_append, Lts.run_cons_of _ hcr]
      refine Lts.run_append.2 ⟨_, hw, ?_⟩
      rw [Lts.run_cons_of _ hclose]
      exact finish_run io p ⟨d.reg, some (io.writeBlocks 0 ws)⟩ rfl
    cases hmove : io.move with
    | true =>
      refine ⟨true, _, by simp [saveRegistryToFile, hcreate, hws, hmove]; rfl, by simp [saveActs, hcreate, hmove], ?_⟩
      rw [hrun, hmove, if_pos rfl]
    | false =>
      have hnot : Replace.Act.move p ∉ saveActs io p ws := by
        cases hdelete : io.delete with
        | true => simp [saveActs, hcreate, hmove, hdelete]
        | false => simp [saveActs, hcreate, hmove, hdelete]
      refine ⟨false, _, by simp [saveRegistryToFile, hcreate, hws, hmove]; rfl, by simp [hnot], ?_⟩
      rw [hrun, hmove, if_neg Bool.false_ne_true]

/-- The disk is full after the magic number: the file is lost, operation by operation. -/
theorem alone_run_full : ∃ ws ok d', saveRegistryToFile .full emptyHeap ⟨none, none⟩ = some (ok, d') ∧
    (ok = true ↔ .move false ∈ saveActs .full false ws) ∧
    Lts.run Replace.step (Disk.atRest ⟨none, none⟩ : Replace.State Bool UInt8) (saveActs .full false ws) =
      some d'.atRest :=
  ⟨[dword regfileMagic, dword 1, chars [], dword 0, dword 0], alone_run .full false rfl ⟨none, none⟩⟩

/-! ## Loading an image -/

theorem Forest.depth_le_encode (f : Forest) : f.depth ≤ f.encode.flatten.length := by
  induction f with
  | nil => exact Nat.zero_le _
  | cons name values kids sibs ihk ihs =>
    have hkids : kids.encode.flatten.length + 4 ≤ (keyRecord name values kids.length kids.encode).flatten.length := by
      simp only [keyRecord, List.flatten_append, List.flatten_cons, List.length_append, dword, length_leBytes]
      omega
    simp only [Forest.depth, Forest.encode, List.flatten_append, List.length_append]
    omega

/-- The file a save of this state leaves. -/
def ImageOf (σ : Store) (content : List UInt8) : Prop := ∃ ws, saveRegistry σ.heap = some ws ∧ ws.flatten = content

/-- **Loading an image**: as many rounds of nesting as the file has bytes are enough, and give the registry that was
saved. -/
theorem load_image {σ : Store} (hi : Inv F σ) (hroot : rootValues σ = []) {content : List UInt8}
    (himage : ImageOf σ content) (junk : Nat → UInt8) :
    ∃ H', loadRegistryFromFile F content.length junk (some content) = some (true, H') ∧ WF F H' ∧
      SameRegistry σ.heap H' := by
  obtain ⟨k, hk, -⟩ := hi.wf.root
  have hv : k.values = [] := by simpa [rootValues, hk] using hroot
  obtain ⟨f, hrep, hok, hws⟩ := saveRegistry_eq hi.wf hi.fits hk
  obtain ⟨ws, hws', rfl⟩ := himage
  obtain rfl := Option.some.inj (hws.symm.trans hws')
  rw [hv]
  have hlen : f.length < 2 ^ 32 := by
    have hb := (bytes_le hk).trans_lt hi.fits
    rw [RegKey.bytes, hrep.length, nodeBytes] at hb
    omega
  have hdepth : f.depth ≤ (dword regfileMagic :: keyRecord [] [] f.length f.encode).flatten.length := by
    refine f.depth_le_encode.trans ?_
    simp only [keyRecord, List.flatten_cons, List.flatten_append, List.length_append]
    omega
  obtain ⟨H', ids, hload, hl⟩ := loadRegistry_eq f hok hlen hdepth junk
  refine ⟨H', hload, hl.wf, ?_⟩
  have hturn : ids.reverse ++ [] = turn true ids := by simp [turn]
  exact sameRegistry_of_rep (m := false) hi.wf hl.wf hk rfl hv hrep hl.parent hturn rfl hl.rep

/-! ## The processes -/

/-- The files, and every process with its tree. The `file` of a store is what the process saved last: here the
file is the one on the disk. -/
structure Host (P : Type) where
  disk : Replace.State P UInt8
  store : P → Store

inductive HostAct (P : Type) where
  | call (p : P) (c : RegCall)
  /-- `LoadRegistryFromFile` reads the file that it has open; `junk` is what its locals held. -/
  | load (p : P) (junk : Nat → UInt8)
  /-- `LoadRegistryFromFile` could not open the file. -/
  | fresh (p : P)
  | disk (a : Replace.Act P UInt8)

def Host.set (m : Host P) (p : P) (σ : Store) : Host P := { m with store := Function.update m.store p σ }

/-- What is written is the tree of the process that writes. -/
def Host.Saves (m : Host P) : Replace.Act P UInt8 → Prop
  | .create p blocks => saveRegistry (m.store p).heap = some blocks
  | _ => True

instance (m : Host P) : (a : Replace.Act P UInt8) → Decidable (m.Saves a)
  | .create p blocks => inferInstanceAs (Decidable (saveRegistry (m.store p).heap = some blocks))
  | .write .. | .close _ | .move _ | .moveFails _ | .delete _ | .deleteFails _ | .openTarget _ | .closeTarget _
  | .kill _ => inferInstanceAs (Decidable True)

def hostStep (F : CaseFold) (m : Host P) : HostAct P → Option (Host P)
  | .call p c =>
    match m.disk.pc p with
    | .writing .. => none
    | _ => (step F (m.store p) c).map (m.set p)
  | .load p junk =>
    match m.disk.pc p with
    | .reading content =>
      ((restart F content.length junk { m.store p with file := some content }).filter fun σ => σ.heap.Fits).map (m.set p)
    | _ => none
  | .fresh p =>
    match m.disk.pc p with
    | .idle => some (m.set p (Store.empty (m.store p).isWow64))
    | _ => none
  | .disk a => if m.Saves a then (Replace.step m.disk a).map fun d => { m with disk := d } else none

/-- The file operations are calm, and nobody saves a tree whose root has values. -/
def Orderly (m : Host P) : HostAct P → Prop
  | .disk (.create p _) => rootValues (m.store p) = []
  | .disk a => Calm m.disk a
  | _ => True

instance [Fintype P] (m : Host P) : (a : HostAct P) → Decidable (Orderly m a)
  | .disk (.create p _) => inferInstanceAs (Decidable (rootValues (m.store p) = []))
  | .disk (.write p n) => inferInstanceAs (Decidable (Calm m.disk (.write p n)))
  | .disk (.kill p) => inferInstanceAs (Decidable (Calm m.disk (.kill p)))
  | .disk (.close _) | .disk (.move _) | .disk (.moveFails _) | .disk (.delete _) | .disk (.deleteFails _)
  | .disk (.openTarget _) | .disk (.closeTarget _) | .call .. | .load .. | .fresh _ => inferInstanceAs (Decidable True)

omit [DecidableEq P] in
theorem Orderly.calm {m : Host P} {a : Replace.Act P UInt8} (h : Orderly m (.disk a)) : Calm m.disk a := by
  cases a with
  | create p blocks => trivial
  | write | close | move | moveFails | delete | deleteFails | openTarget | closeTarget | kill => exact h

/-! ## Every run -/

/-- The whole image of a tree without root values that a process has had, `T` being what the processes have had. -/
def ImageAmong (F : CaseFold) (T : P → Store → Prop) (content : List UInt8) : Prop :=
  ∃ p σ, T p σ ∧ Inv F σ ∧ rootValues σ = [] ∧ ImageOf σ content

/-- The files are whole, every process is in order, and who writes is writing its own tree. -/
structure HostInv (F : CaseFold) (T : P → Store → Prop) (init : Option (List UInt8)) (m : Host P) : Prop where
  whole : Whole (ImageAmong F T) init m.disk
  stores : ∀ p, Inv F (m.store p)
  own : ∀ {p left content}, m.disk.pc p = .writing left content → ImageOf (m.store p) content

variable {T : P → Store → Prop} {init : Option (List UInt8)} {m m' : Host P} {a : HostAct P} {as : List (HostAct P)}

theorem set_store (p q : P) (σ : Store) : (m.set p σ).store q = if q = p then σ else m.store q :=
  Function.update_apply m.store p σ q

/-- A process that is not writing has a new tree. -/
theorem HostInv.set (hm : HostInv F T init m) {p : P} {σ : Store} (hσ : Inv F σ)
    (hnot : ∀ left content, m.disk.pc p ≠ .writing left content) : HostInv F T init (m.set p σ) where
  whole := hm.whole
  stores q := by
    rw [set_store]
    split
    · exact hσ
    · exact hm.stores q
  own {q left content} h := by
    rw [set_store, if_neg]
    · exact hm.own h
    · rintro rfl
      exact hnot left content h

/-- A file operation. -/
theorem HostInv.disk (hm : HostInv F T init m) {a : Replace.Act P UInt8} {d : Replace.State P UInt8}
    (hT : ∀ p, T p (m.store p)) (hord : Orderly m (.disk a)) (hsaves : m.Saves a) (h : Replace.step m.disk a = some d) :
    HostInv F T init { m with disk := d } where
  whole := by
    refine hm.whole.step hord.calm (fun content hcontent => ?_) h
    cases a with
    | create p blocks =>
      cases hcontent
      exact ⟨p, m.store p, hT p, hm.stores p, hord, blocks, hsaves, rfl⟩
    | write | close | move | moveFails | delete | deleteFails | openTarget | closeTarget | kill => cases hcontent
  stores := hm.stores
  own {p left content} hpc := by
    rcases content_of_step h hpc with ⟨left', hpc'⟩ | ⟨blocks, rfl, rfl⟩
    · exact hm.own hpc'
    · exact ⟨blocks, hsaves, rfl⟩

omit [DecidableEq P] in
/-- What a process loads is in order again. -/
theorem inv_load {σ τ : Store} {content : List UInt8} {junk : Nat → UInt8} (himage : ImageAmong F T content)
    (h : restart F content.length junk { σ with file := some content } = some τ) (hfits : τ.heap.Fits) : Inv F τ := by
  obtain ⟨p, υ, -, hυ, hroot, hcontent⟩ := himage
  obtain ⟨H', hload, hwf, -⟩ := load_image hυ hroot hcontent junk
  simp only [restart, hload, Option.map_some, Option.some.injEq] at h
  subst h
  exact ⟨hwf, by simp, by simp, hfits⟩

/-- **One step.** -/
theorem HostInv.step (hm : HostInv F T init m) (hinit : ∀ content, init = some content → ImageAmong F T content)
    (hT : ∀ p, T p (m.store p)) (hord : Orderly m a) (h : hostStep F m a = some m') : HostInv F T init m' := by
  cases a with
  | call p c =>
    simp only [hostStep] at h
    split at h
    · cases h
    · next hnot =>
      obtain ⟨σ, hσ, rfl⟩ := Option.map_eq_some_iff.1 h
      exact hm.set (inv_step (hm.stores p) hσ) hnot
  | load p junk =>
    simp only [hostStep] at h
    split at h
    · next content hpc =>
      obtain ⟨σ, hσ, rfl⟩ := Option.map_eq_some_iff.1 h
      obtain ⟨hload, hfits⟩ := Option.filter_eq_some_iff.1 hσ
      have himage : ImageAmong F T content := by
        have htarget := (hm.whole.reading hpc).2
        rcases hm.whole.target with heq | ⟨content', heq, hQ⟩
        · exact hinit content (heq ▸ htarget)
        · rw [htarget] at heq
          cases heq
          exact hQ
      exact hm.set (inv_load himage hload (of_decide_eq_true hfits)) (by simp [hpc])
    · cases h
  | fresh p =>
    simp only [hostStep] at h
    split at h
    · next hpc =>
      cases h
      exact hm.set (inv_empty _) (by simp [hpc])
    · cases h
  | disk a =>
    simp only [hostStep] at h
    split at h
    · next hsaves =>
      obtain ⟨d, hd, rfl⟩ := Option.map_eq_some_iff.1 h
      exact hm.disk hT hord hsaves hd
    · cases h

/-- A store that some process had at the start or before an action of the run. -/
def Had (F : CaseFold) (m : Host P) (as : List (HostAct P)) (p : P) (σ : Store) : Prop :=
  ∃ pre u, pre <+: as ∧ Lts.run (hostStep F) m pre = some u ∧ u.store p = σ

/-- No process has a file open, every process is in order, and the file, if there is one, is the image of the tree of
one of them. -/
structure Host.Start (F : CaseFold) (m : Host P) : Prop where
  disk : m.disk = State.start m.disk.target m.disk.tmp
  stores : ∀ p, Inv F (m.store p)
  file : ∀ content, m.disk.target = some content → ∃ p, rootValues (m.store p) = [] ∧ ImageOf (m.store p) content

theorem hostInv_run (hm : m.Start F) (hg : Lts.Guarded (hostStep F) Orderly m as)
    (hr : Lts.run (hostStep F) m as = some m') : HostInv F (Had F m as) m.disk.target m' := by
  have hhad : Lts.Guarded (hostStep F) (fun u a => Orderly u a ∧
      ∃ pre, pre ++ [a] <+: as ∧ Lts.run (hostStep F) m pre = some u) m as := hg.and (Lts.guarded_prefix as m)
  refine hhad.invariant (I := HostInv F (Had F m as) m.disk.target) ?_ ?_ hr
  · rintro u a v hu ⟨hord, pre, hpre, hrun⟩ hstep
    refine hu.step (fun content hcontent => ?_) (fun p => ⟨pre, u, (List.prefix_append _ _).trans hpre, hrun, rfl⟩) hord hstep
    obtain ⟨p, hroot, himage⟩ := hm.file content hcontent
    exact ⟨p, m.store p, ⟨[], m, List.nil_prefix, rfl, rfl⟩, hm.stores p, hroot, himage⟩
  · refine ⟨?_, hm.stores, fun {p left content} h => ?_⟩
    · have hw : Whole (ImageAmong F (Had F m as)) m.disk.target (State.start m.disk.target m.disk.tmp : Replace.State P UInt8) :=
        whole_start m.disk.tmp
      rwa [← hm.disk] at hw
    · rw [hm.disk] at h
      cases h

/-- **The file is always somebody's whole tree**: in every run of any number of processes, each of which calls its
hooks one at a time, and saves and loads as it likes, `register.reg` does not go away, it is at every moment the image of the tree that one process
had at one moment, and whoever loads it gets that tree; a loader that has it open reads it unchanged. -/
theorem register_whole (hm : m.Start F) (hg : Lts.Guarded (hostStep F) Orderly m as)
    (hr : Lts.run (hostStep F) m as = some m') :
    (m'.disk.target = none → m.disk.target = none) ∧
    (∀ p content, m'.disk.pc p = .reading content → m'.disk.target = some content) ∧
    ∀ content, m'.disk.target = some content → ∃ p σ, Had F m as p σ ∧ ImageOf σ content ∧
      ∀ junk, ∃ H', loadRegistryFromFile F content.length junk (some content) = some (true, H') ∧ WF F H' ∧
        SameRegistry σ.heap H' := by
  have hi := hostInv_run hm hg hr
  refine ⟨fun hnone => ?_, fun p content hpc => (hi.whole.reading hpc).2, fun content hcontent => ?_⟩
  · rcases hi.whole.target with h | ⟨content, h, -⟩
    · rw [← h, hnone]
    · rw [hnone] at h
      cases h
  · have himage : ImageAmong F (Had F m as) content := by
      rcases hi.whole.target with h | ⟨content', h, hQ⟩
      · obtain ⟨p, hroot, himage⟩ := hm.file content (h ▸ hcontent)
        exact ⟨p, m.store p, ⟨[], m, List.nil_prefix, rfl, rfl⟩, hm.stores p, hroot, himage⟩
      · rw [hcontent] at h
        cases h
        exact hQ
    obtain ⟨p, σ, hhad, hσ, hroot, himage⟩ := himage
    exact ⟨p, σ, hhad, himage, load_image hσ hroot himage⟩

/-! ### Whose tree it is -/

/-- The file operations of a run. -/
def fileActs (as : List (HostAct P)) : List (Replace.Act P UInt8) :=
  as.filterMap fun | .disk a => some a | _ => none

theorem file_run (h : Lts.run (hostStep F) m as = some m') : Lts.run Replace.step m.disk (fileActs as) = some m'.disk := by
  induction as generalizing m with
  | nil =>
    cases h
    rfl
  | cons a as ih =>
    obtain ⟨u, hu, hr⟩ := Lts.run_cons.1 h
    cases a with
    | disk a =>
      simp only [hostStep] at hu
      split at hu
      · obtain ⟨d, hd, rfl⟩ := Option.map_eq_some_iff.1 hu
        exact Lts.run_cons.2 ⟨d, hd, ih hr⟩
      · cases hu
    | call p c =>
      simp only [hostStep] at hu
      split at hu
      · cases hu
      · obtain ⟨σ, -, rfl⟩ := Option.map_eq_some_iff.1 hu
        have hrest := ih hr
        exact hrest
    | load p junk =>
      simp only [hostStep] at hu
      split at hu
      · obtain ⟨σ, -, rfl⟩ := Option.map_eq_some_iff.1 hu
        have hrest := ih hr
        exact hrest
      · cases hu
    | fresh p =>
      simp only [hostStep] at hu
      split at hu
      · cases hu
        have hrest := ih hr
        exact hrest
      · cases hu

theorem disk_step {a : Replace.Act P UInt8} (h : hostStep F m (.disk a) = some m') :
    Replace.step m.disk a = some m'.disk ∧ m'.store = m.store := by
  simp only [hostStep] at h
  split at h
  · obtain ⟨d, hd, rfl⟩ := Option.map_eq_some_iff.1 h
    exact ⟨hd, rfl⟩
  · cases h

/-- **A save that reports success** has put the tree of its own process into `register.reg`, whatever the others do
meanwhile, if none of them begins a save between its last block and its rename. -/
theorem save_installs (hm : m.Start F) (hg : Lts.Guarded (hostStep F) Orderly m as)
    {u v w : Host P} (hu : Lts.run (hostStep F) m as = some u) {p : P} {content : List UInt8}
    (hpc : u.disk.pc p = .writing [] content) (hclose : hostStep F u (.disk (.close p)) = some v)
    {mid : List (HostAct P)} (hno : ∀ q blocks, .disk (.create q blocks) ∉ mid)
    (hmid : Lts.run (hostStep F) v mid = some w) (hmove : hostStep F w (.disk (.move p)) = some m') :
    ∃ content, m'.disk.target = some content ∧ ImageOf (u.store p) content := by
  have hi := hostInv_run hm hg hu
  have hno' : ∀ a ∈ fileActs mid, a.content = none := by
    intro a ha
    obtain ⟨b, hb, hba⟩ := List.mem_filterMap.1 ha
    cases b with
    | disk b =>
      cases hba
      cases a with
      | create q blocks => exact absurd hb (hno q blocks)
      | write | close | move | moveFails | delete | deleteFails | openTarget | closeTarget | kill => rfl
    | call | load | fresh => cases hba
  exact ⟨content, move_own hi.whole hpc (disk_step hclose).1 hno' (file_run hmid) (disk_step hmove).1, hi.own hpc⟩

/-- Two processes, and no file yet. -/
def twoHost : Host Bool := ⟨State.start none none, fun _ => Store.empty false⟩

theorem twoHost_start : twoHost.Start F := ⟨rfl, fun _ => inv_empty false, fun _ h => by cases h⟩

/-- The blocks of a tree with one key of this name. -/
def imageOfKey (name : WStr) : Writes :=
  [dword regfileMagic, dword 1, chars [], dword 0, dword 1, dword (name.length + 1), chars name, dword 0, dword 0]

/-- A process creates a key and writes its tree. -/
def writeActs (p : Bool) (name : WStr) : List (HostAct Bool) :=
  .call p (.createKey .ex HKEY_LOCAL_MACHINE (some name)) :: .disk (.create p (imageOfKey name)) ::
    List.replicate 9 (.disk (.write p 8))

/-- One process saves, the other one loads what it has saved. -/
def saveThenLoad : List (HostAct Bool) :=
  writeActs false (wide "A") ++
    [.disk (.close false), .disk (.move false), .disk (.openTarget true), .load true fun _ => 0]

theorem register_whole_two : ∃ u, Lts.run (hostStep asciiFold) twoHost saveThenLoad = some u ∧
    ∃ content, u.disk.target = some content ∧ ∃ p σ, Had asciiFold twoHost saveThenLoad p σ ∧ ImageOf σ content := by
  have hg : Lts.Guarded (hostStep asciiFold) Orderly twoHost saveThenLoad := by decide +kernel
  refine ⟨_, rfl, (imageOfKey (wide "A")).flatten, rfl, ?_⟩
  obtain ⟨-, -, h⟩ := register_whole twoHost_start hg rfl
  obtain ⟨p, σ, hhad, himage, -⟩ := h _ rfl
  exact ⟨p, σ, hhad, himage⟩

/-- The other process creates a key between the last block and the rename. -/
theorem save_installs_two : ∃ u v w t, Lts.run (hostStep asciiFold) twoHost (writeActs false (wide "A")) = some u ∧
    hostStep asciiFold u (.disk (.close false)) = some v ∧
    Lts.run (hostStep asciiFold) v [.call true (.createKey .ex HKEY_LOCAL_MACHINE (some (wide "B")))] = some w ∧
    hostStep asciiFold w (.disk (.move false)) = some t ∧
    ∃ content, t.disk.target = some content ∧ ImageOf (u.store false) content := by
  have hg : Lts.Guarded (hostStep asciiFold) Orderly twoHost (writeActs false (wide "A")) := by decide +kernel
  have hno : ∀ q blocks, HostAct.disk (.create q blocks) ∉
      [HostAct.call true (.createKey .ex HKEY_LOCAL_MACHINE (some (wide "B")))] := by simp
  exact ⟨_, _, _, _, rfl, rfl, rfl, rfl, save_installs twoHost_start hg rfl rfl rfl hno rfl rfl⟩

/-- **The other tree**: both processes save, and the one that was first renames what the second has written. Its save
reports success, and `register.reg` does not have its key. -/
theorem save_other : ∃ t, Lts.run (hostStep asciiFold) twoHost
      (writeActs false (wide "A") ++ .disk (.close false) :: writeActs true (wide "B") ++
        [.disk (.close true), .disk (.move false)]) = some t ∧
    t.disk.target = some (imageOfKey (wide "B")).flatten ∧ ImageOf (t.store true) (imageOfKey (wide "B")).flatten ∧
    ¬ ImageOf (t.store false) (imageOfKey (wide "B")).flatten := by
  refine ⟨_, rfl, rfl, ⟨_, rfl, rfl⟩, ?_⟩
  rintro ⟨ws, hws, heq⟩
  have hA : ws = imageOfKey (wide "A") := Option.some.inj hws.symm
  subst hA
  exact absurd heq (by decide +kernel)

end Rvpn.Registry
