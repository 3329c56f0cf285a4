import Rvpn.Lib.Procs
import Rvpn.Lib.Run

/-!
# Starting the programs (start_rvpn.c:23-146, inject_exe.c:5-106)

The launcher starts the GUI and the injector, looks for the process the injector creates, and ends all of them when one
has ended. The injector creates the service suspended, has a thread of the service call `LoadLibraryA` and then lets its
main thread go. Both run at the same time, any process may end at any time, and numbers of processes that have ended are
given out again.

| here | there |
| --- | --- |
| `Launcher` | where `main` of `start_rvpn.c` is, with its variables; `scan` and `pause` are `FindProcessByNameAndParent` |
| `Injector` | where `main` of `inject_exe.c` is; `undo` is the `VirtualFreeEx` of an error path |
| `Op`       | a `TerminateProcess` or `CloseHandle` of a cleanup |

Handles to threads are left out: they are closed at once, or behind that of the process.
-/

namespace Rvpn.Launch

open Lts Procs

inductive Image where
  | gui | inject | target
  | other (n : Nat)
deriving DecidableEq

inductive Op where
  | terminate (o : Nat)
  | close (o : Nat)
deriving DecidableEq

inductive Launcher where
  | checking
  | startGui
  | startInject (gui : Nat)
  | scan (gui inject : Nat)
  | pause (gui inject : Nat)
  | openTarget (gui inject pid : Nat)
  | wait (gui inject target : Nat)
  | clean (ops : List Op) (code : Nat)
  | returned (code : Nat)
deriving DecidableEq

inductive Injector where
  | absent
  | create
  | alloc (t : Nat)
  | write (t : Nat)
  | getProc (t : Nat)
  | thread (t : Nat)
  | waitLoad (t : Nat)
  | freeMem (t : Nat)
  | resume (t : Nat)
  | waitTarget (t : Nat)
  | undo (t : Nat)
  | clean (ops : List Op) (code : Nat)
  | returned (code : Nat)
deriving DecidableEq

/-- The thread of the service that calls `LoadLibraryA`. -/
inductive Remote where
  | none | running | done
deriving DecidableEq

structure State where
  procs : Table Image
  /-- The number of the launcher. -/
  self : Nat
  launcher : Launcher
  handles : List Nat
  injector : Injector
  injectHandles : List Nat
  /-- The processes the launcher has started and opened. -/
  gui : Option Nat
  inject : Option Nat
  opened : Option Nat
  /-- The process the injector has created, the memory allocated in it, and its threads. -/
  made : Option Nat
  mem : Bool
  remote : Remote
  resumed : Bool
  /-- The processes the launcher has ended. -/
  ended : List Nat

def State.start (procs : Table Image) (self : Nat) : State :=
  ⟨procs, self, .checking, [], .absent, [], none, none, none, none, false, .none, false, []⟩

/-- The injector runs. -/
def State.injecting (s : State) : Bool := s.inject.any (alive s.procs)

/-- The open handles. Those of an injector that has ended are closed; the launcher keeps its own also when it is
killed. -/
def State.held (s : State) : List Nat := s.handles ++ if s.injecting then s.injectHandles else []

/-- A process with this number. -/
def State.spawn (s : State) (pid : Nat) (image : Image) (parent : Nat) : Option State :=
  if free s.procs s.held pid then some { s with procs := Procs.spawn s.procs pid image parent } else none

/-! ## The launcher -/

inductive LauncherAct where
  | files (ok : Bool)
  | startGui (pid : Option Nat)
  | startInject (pid : Option Nat)
  /-- A snapshot, and whether the process is found in it. -/
  | scan (pid : Option Nat)
  | noSnapshot
  /-- `GetTickCount() - start > timeout_ms`. -/
  | tick (timedOut : Bool)
  | openTarget (ok : Bool)
  /-- `WaitForMultipleObjects` returns. -/
  | wake
  | waitFails
  | op

/-- `lstrcmpiA(pe.szExeFile, exeName) == 0 && pe.th32ParentProcessID == parentPid`. -/
def isChild (parent : Option Nat) (p : Proc Image) : Bool := p.alive && p.image = .target && some p.parent = parent

/-- Neither found nor opened: both started processes are ended. -/
def giveUp (gui inject : Nat) : Launcher := .clean [.terminate gui, .terminate inject, .close gui, .close inject] 1

def afterOps (ops : List Op) (code : Nat) : Launcher := if ops = [] then .returned code else .clean ops code

def Op.perform (s : State) : Op → State
  | .terminate o => { s with procs := kill s.procs o, ended := o :: s.ended }
  | .close o => { s with handles := s.handles.erase o }

def launcherStep (s : State) (a : LauncherAct) : Option State :=
  match s.launcher, a with
  | .checking, .files ok => some { s with launcher := if ok then .startGui else .returned 1 }
  | .startGui, .startGui none => some { s with launcher := .returned 1 }
  | .startGui, .startGui (some pid) =>
    (s.spawn pid .gui s.self).map fun t =>
      { t with launcher := .startInject s.procs.length, handles := s.procs.length :: s.handles, gui := some s.procs.length }
  | .startInject gui, .startInject none => some { s with launcher := .clean [.terminate gui, .close gui] 1 }
  | .startInject gui, .startInject (some pid) =>
    (s.spawn pid .inject s.self).map fun t =>
      { t with launcher := .scan gui s.procs.length, handles := s.procs.length :: s.handles,
               inject := some s.procs.length, injector := .create }
  | .scan gui inject, .scan (some pid) =>
    if s.procs.any fun p => isChild (pidOf s.procs inject) p && p.pid = pid then
      some { s with launcher := .openTarget gui inject pid }
    else none
  -- also when `Process32First` or `Process32Next` fails, with the process there
  | .scan gui inject, .scan none => some { s with launcher := .pause gui inject }
  | .scan gui inject, .noSnapshot => some { s with launcher := giveUp gui inject }
  | .pause gui inject, .tick timedOut => some { s with launcher := if timedOut then giveUp gui inject else .scan gui inject }
  | .openTarget gui inject pid, .openTarget ok =>
    match if ok then lookup s.procs s.held pid else none with
    | none => some { s with launcher := giveUp gui inject }
    | some t => some { s with launcher := .wait gui inject t, handles := t :: s.handles, opened := some t }
  | .wait gui inject t, .wake =>
    if alive s.procs gui && alive s.procs inject && alive s.procs t then none
    else some { s with
      launcher := .clean [.terminate gui, .close gui, .terminate inject, .close inject, .terminate t, .close t] 0 }
  -- the result of the wait is not looked at
  | .wait gui inject t, .waitFails => some { s with
      launcher := .clean [.terminate gui, .close gui, .terminate inject, .close inject, .terminate t, .close t] 0 }
  | .clean (op :: ops) code, .op => some { op.perform s with launcher := afterOps ops code }
  | _, _ => none

/-! ## The injector -/

inductive InjectorAct where
  | create (pid : Option Nat)
  | alloc (ok : Bool)
  | write (ok : Bool)
  | getProc (ok : Bool)
  | thread (ok : Bool)
  /-- `WaitForSingleObject` returns. -/
  | wake
  | freeMem
  | resume
  | op

def failed (t : Nat) : Injector := .clean [.terminate t, .close t] 1

def afterInjectOps (ops : List Op) (code : Nat) : Injector := if ops = [] then .returned code else .clean ops code

def Op.performInject (s : State) : Op → State
  | .terminate o => { s with procs := kill s.procs o }
  | .close o => { s with injectHandles := s.injectHandles.erase o }

/-- The injector runs until it ends; nothing can be done to a service that has ended, and `WaitForSingleObject` does not
fail. -/
def injectorStep (s : State) (a : InjectorAct) : Option State :=
  if s.injecting then
    match s.injector, a with
    | .create, .create none => some { s with injector := .returned 1 }
    | .create, .create (some pid) =>
      (s.inject.bind (pidOf s.procs)).bind fun parent => (s.spawn pid .target parent).map fun t =>
        { t with injector := .alloc s.procs.length, injectHandles := s.procs.length :: s.injectHandles,
                 made := some s.procs.length }
    | .alloc t, .alloc ok =>
      some (if ok && alive s.procs t then { s with injector := .write t, mem := true } else { s with injector := failed t })
    | .write t, .write ok => some { s with injector := if ok && alive s.procs t then .getProc t else .undo t }
    | .getProc t, .getProc ok => some { s with injector := if ok then .thread t else .undo t }
    | .thread t, .thread ok =>
      some (if ok && alive s.procs t then { s with injector := .waitLoad t, remote := .running }
        else { s with injector := .undo t })
    | .waitLoad t, .wake =>
      if s.remote = .done || !alive s.procs t then some { s with injector := .freeMem t } else none
    | .freeMem t, .freeMem => some { s with injector := .resume t, mem := false }
    | .resume t, .resume => some { s with injector := .waitTarget t, resumed := s.resumed || alive s.procs t }
    | .waitTarget t, .wake => if alive s.procs t then none else some { s with injector := .clean [.close t] 0 }
    | .undo t, .freeMem => some { s with injector := failed t, mem := false }
    | .clean (op :: ops) code, .op => some { op.performInject s with injector := afterInjectOps ops code }
    | _, _ => none
  else none

/-! ## The rest of the system -/

inductive WorldAct where
  /-- `LoadLibraryA` returns in the service. -/
  | load
  /-- A process other than the injector creates one. -/
  | spawn (creator : Nat) (image : Image) (pid : Nat)
  /-- A process ends, of itself or otherwise. -/
  | exit (o : Nat)

def worldStep (s : State) : WorldAct → Option State
  | .load => if s.remote = .running && s.made.any (alive s.procs) then some { s with remote := .done } else none
  | .spawn creator image pid =>
    if alive s.procs creator && s.inject ≠ some creator then
      (pidOf s.procs creator).bind fun parent => s.spawn pid image parent
    else none
  | .exit o => if alive s.procs o then some { s with procs := kill s.procs o } else none

inductive Act where
  | launcher (a : LauncherAct)
  | injector (a : InjectorAct)
  | world (a : WorldAct)

def step (s : State) : Act → Option State
  | .launcher a => launcherStep s a
  | .injector a => injectorStep s a
  | .world a => worldStep s a

variable {s s' : State} {o t : Nat} {a : LauncherAct}

/-! ## What each step does -/

/-- The moves of the launcher. -/
inductive LauncherMove (s : State) : LauncherAct → State → Prop where
  | files (ok : Bool) (hl : s.launcher = .checking) :
    LauncherMove s (.files ok) { s with launcher := if ok then .startGui else .returned 1 }
  | noGui (hl : s.launcher = .startGui) : LauncherMove s (.startGui none) { s with launcher := .returned 1 }
  | gui (pid : Nat) (hl : s.launcher = .startGui) (hf : free s.procs s.held pid) :
    LauncherMove s (.startGui (some pid)) { s with
      procs := Procs.spawn s.procs pid .gui s.self, launcher := .startInject s.procs.length,
      handles := s.procs.length :: s.handles, gui := some s.procs.length }
  | noInject (g : Nat) (hl : s.launcher = .startInject g) :
    LauncherMove s (.startInject none) { s with launcher := .clean [.terminate g, .close g] 1 }
  | inject (g pid : Nat) (hl : s.launcher = .startInject g) (hf : free s.procs s.held pid) :
    LauncherMove s (.startInject (some pid)) { s with
      procs := Procs.spawn s.procs pid .inject s.self, launcher := .scan g s.procs.length,
      handles := s.procs.length :: s.handles, inject := some s.procs.length, injector := .create }
  | found (g i : Nat) (p : Proc Image) (hl : s.launcher = .scan g i) (hp : p ∈ s.procs) (hc : isChild (pidOf s.procs i) p) :
    LauncherMove s (.scan (some p.pid)) { s with launcher := .openTarget g i p.pid }
  | notFound (g i : Nat) (hl : s.launcher = .scan g i) : LauncherMove s (.scan none) { s with launcher := .pause g i }
  | again (g i : Nat) (hl : s.launcher = .pause g i) : LauncherMove s (.tick false) { s with launcher := .scan g i }
  | giveUp (a : LauncherAct) (g i : Nat)
      (hl : s.launcher = .scan g i ∨ s.launcher = .pause g i ∨ ∃ pid, s.launcher = .openTarget g i pid) :
    LauncherMove s a { s with launcher := giveUp g i }
  | opened (g i pid t : Nat) (hl : s.launcher = .openTarget g i pid) (hlook : lookup s.procs s.held pid = some t) :
    LauncherMove s (.openTarget true) { s with launcher := .wait g i t, handles := t :: s.handles, opened := some t }
  | wake (a : LauncherAct) (g i t : Nat) (hl : s.launcher = .wait g i t) : LauncherMove s a { s with
      launcher := .clean [.terminate g, .close g, .terminate i, .close i, .terminate t, .close t] 0 }
  | op (op : Op) (ops : List Op) (code : Nat) (hl : s.launcher = .clean (op :: ops) code) :
    LauncherMove s .op { op.perform s with launcher := afterOps ops code }

theorem spawn_eq_some {pid : Nat} {image : Image} {parent : Nat} : s.spawn pid image parent = some s' ↔
    free s.procs s.held pid ∧ s' = { s with procs := Procs.spawn s.procs pid image parent } := by
  by_cases hf : free s.procs s.held pid
  · rw [State.spawn, if_pos hf, Option.some.injEq]
    exact ⟨fun h => ⟨hf, h.symm⟩, fun h => h.2.symm⟩
  · simp [State.spawn, hf]

theorem launcherMove (h : launcherStep s a = some s') : LauncherMove s a s' := by
  unfold launcherStep at h
  split at h
  · next hl =>
    cases h
    exact .files _ hl
  · next hl =>
    cases h
    exact .noGui hl
  · next pid hl =>
    obtain ⟨u, hu, rfl⟩ := Option.map_eq_some_iff.1 h
    obtain ⟨hf, rfl⟩ := spawn_eq_some.1 hu
    exact .gui pid hl hf
  · next g hl =>
    cases h
    exact .noInject g hl
  · next g pid hl =>
    obtain ⟨u, hu, rfl⟩ := Option.map_eq_some_iff.1 h
    obtain ⟨hf, rfl⟩ := spawn_eq_some.1 hu
    exact .inject g pid hl hf
  · next g i pid hl =>
    split_ifs at h with hany
    cases h
    obtain ⟨p, hp, hc⟩ := List.any_eq_true.1 hany
    simp only [Bool.and_eq_true, decide_eq_true_eq] at hc
    obtain ⟨hc, rfl⟩ := hc
    exact .found g i p hl hp hc
  · next g i hl =>
    cases h
    exact .notFound g i hl
  · next g i hl =>
    cases h
    exact .giveUp _ g i (.inl hl)
  · next g i timedOut hl =>
    cases h
    cases timedOut with
    | true => exact .giveUp _ g i (.inr (.inl hl))
    | false => exact .again g i hl
  · next g i pid ok hl =>
    split at h
    · cases h
      exact .giveUp _ g i (.inr (.inr ⟨pid, hl⟩))
    · next t hlook =>
      cases h
      cases ok with
      | true => exact .opened g i pid t hl hlook
      | false => cases hlook
  · next g i t hl =>
    split_ifs at h
    cases h
    exact .wake _ g i t hl
  · next g i t hl =>
    cases h
    exact .wake _ g i t hl
  · next op ops code hl =>
    cases h
    exact .op op ops code hl
  · cases h

/-- The moves of the injector. -/
inductive InjectorMove (s : State) : State → Prop where
  | noProcess (hj : s.injector = .create) : InjectorMove s { s with injector := .returned 1 }
  | create (i pid parent : Nat) (hj : s.injector = .create) (hi : s.inject = some i) (hp : pidOf s.procs i = some parent)
      (hf : free s.procs s.held pid) :
    InjectorMove s { s with
      procs := Procs.spawn s.procs pid .target parent, injector := .alloc s.procs.length,
      injectHandles := s.procs.length :: s.injectHandles, made := some s.procs.length }
  | alloc (t : Nat) (hj : s.injector = .alloc t) : InjectorMove s { s with injector := .write t, mem := true }
  | noMemory (t : Nat) (hj : s.injector = .alloc t) : InjectorMove s { s with injector := failed t }
  | write (t : Nat) (hj : s.injector = .write t) : InjectorMove s { s with injector := .getProc t }
  | getProc (t : Nat) (hj : s.injector = .getProc t) : InjectorMove s { s with injector := .thread t }
  | thread (t : Nat) (hj : s.injector = .thread t) : InjectorMove s { s with injector := .waitLoad t, remote := .running }
  | undo (t : Nat) (hj : s.injector = .write t ∨ s.injector = .getProc t ∨ s.injector = .thread t) :
    InjectorMove s { s with injector := .undo t }
  | loaded (t : Nat) (hj : s.injector = .waitLoad t) (hr : s.remote = .done ∨ alive s.procs t = false) :
    InjectorMove s { s with injector := .freeMem t }
  | freeMem (t : Nat) (hj : s.injector = .freeMem t) : InjectorMove s { s with injector := .resume t, mem := false }
  | resume (t : Nat) (hj : s.injector = .resume t) :
    InjectorMove s { s with injector := .waitTarget t, resumed := s.resumed || alive s.procs t }
  | targetEnded (t : Nat) (hj : s.injector = .waitTarget t) : InjectorMove s { s with injector := .clean [.close t] 0 }
  | undone (t : Nat) (hj : s.injector = .undo t) : InjectorMove s { s with injector := failed t, mem := false }
  | op (op : Op) (ops : List Op) (code : Nat) (hj : s.injector = .clean (op :: ops) code) :
    InjectorMove s { op.performInject s with injector := afterInjectOps ops code }

theorem injectorMove {a : InjectorAct} (h : injectorStep s a = some s') : s.injecting ∧ InjectorMove s s' := by
  unfold injectorStep at h
  split_ifs at h with hrun
  refine ⟨hrun, ?_⟩
  split at h
  · next hj =>
    cases h
    exact .noProcess hj
  · next pid hj =>
    obtain ⟨parent, hp, h⟩ := Option.bind_eq_some_iff.1 h
    obtain ⟨i, hi, hp⟩ := Option.bind_eq_some_iff.1 hp
    obtain ⟨u, hu, rfl⟩ := Option.map_eq_some_iff.1 h
    obtain ⟨hf, rfl⟩ := spawn_eq_some.1 hu
    exact .create i pid parent hj hi hp hf
  · next t ok hj =>
    cases h
    split
    · exact .alloc t hj
    · exact .noMemory t hj
  · next t ok hj =>
    cases h
    split
    · exact .write t hj
    · exact .undo t (.inl hj)
  · next t ok hj =>
    cases h
    split
    · exact .getProc t hj
    · exact .undo t (.inr (.inl hj))
  · next t ok hj =>
    cases h
    split
    · exact .thread t hj
    · exact .undo t (.inr (.inr hj))
  · next t hj =>
    split_ifs at h with hr
    cases h
    exact .loaded t hj (by simpa using hr)
  · next t hj =>
    cases h
    exact .freeMem t hj
  · next t hj =>
    cases h
    exact .resume t hj
  · next t hj =>
    split_ifs at h
    cases h
    exact .targetEnded t hj
  · next t hj =>
    cases h
    exact .undone t hj
  · next op ops code hj =>
    cases h
    exact .op op ops code hj
  · cases h

/-- The moves of the others. -/
inductive WorldMove (s : State) : State → Prop where
  | load (hr : s.remote = .running) : WorldMove s { s with remote := .done }
  | spawn (c pid parent : Nat) (image : Image) (hc : alive s.procs c) (hi : s.inject ≠ some c)
      (hp : pidOf s.procs c = some parent) (hf : free s.procs s.held pid) :
    WorldMove s { s with procs := Procs.spawn s.procs pid image parent }
  | exit (o : Nat) : WorldMove s { s with procs := kill s.procs o }

theorem worldMove {a : WorldAct} (h : worldStep s a = some s') : WorldMove s s' := by
  unfold worldStep at h
  split at h
  · split_ifs at h with hr
    cases h
    simp only [Bool.and_eq_true, decide_eq_true_eq] at hr
    exact .load hr.1
  · next c image pid =>
    split_ifs at h with hc
    simp only [Bool.and_eq_true, decide_eq_true_eq] at hc
    obtain ⟨parent, hp, h⟩ := Option.bind_eq_some_iff.1 h
    obtain ⟨hf, rfl⟩ := spawn_eq_some.1 h
    exact .spawn c pid parent image hc.1 hc.2 hp hf
  · next o =>
    split_ifs at h
    cases h
    exact .exit o

/-! ## The invariant -/

def Op.ends : Op → Option Nat
  | .terminate o => some o
  | .close _ => none

def Op.closes : Op → Option Nat
  | .terminate _ => none
  | .close o => some o

/-- The handles the launcher has where it is. -/
def Launcher.held : Launcher → List Nat
  | .startInject g => [g]
  | .scan g i | .pause g i | .openTarget g i _ => [i, g]
  | .wait g i t => [t, i, g]
  | .clean ops _ => ops.filterMap Op.closes
  | _ => []

/-- The processes the launcher has yet to end. -/
def Launcher.toEnd : Launcher → List Nat
  | .startInject g => [g]
  | .scan g i | .pause g i | .openTarget g i _ => [g, i]
  | .wait g i t => [g, i, t]
  | .clean ops _ => ops.filterMap Op.ends
  | _ => []

def Injector.held : Injector → List Nat
  | .alloc t | .write t | .getProc t | .thread t | .waitLoad t | .freeMem t | .resume t | .waitTarget t | .undo t => [t]
  | .clean ops _ => ops.filterMap Op.closes
  | _ => []

/-- The service of the injector. -/
def Injector.target : Injector → Option Nat
  | .alloc t | .write t | .getProc t | .thread t | .waitLoad t | .freeMem t | .resume t | .waitTarget t | .undo t => some t
  | _ => none

/-- The memory for the path is there. -/
def Injector.hasMem : Injector → Bool
  | .write _ | .getProc _ | .thread _ | .waitLoad _ | .freeMem _ | .undo _ => true
  | _ => false

/-- A process the launcher has started or opened. -/
def State.Mine (s : State) (o : Nat) : Prop := s.gui = some o ∨ s.inject = some o ∨ s.opened = some o

/-- The processes the launcher knows where it is. -/
def Launcher.Names (gui inject opened : Option Nat) : Launcher → Prop
  | .checking | .startGui => gui = none ∧ inject = none ∧ opened = none
  | .startInject g => gui = some g ∧ inject = none ∧ opened = none
  | .scan g i | .pause g i | .openTarget g i _ => gui = some g ∧ inject = some i ∧ opened = none
  | .wait g i t => gui = some g ∧ inject = some i ∧ opened = some t
  | .clean _ code | .returned code => if code = 0 then gui.isSome ∧ inject.isSome ∧ opened.isSome else opened = none

structure LauncherInv (s : State) : Prop where
  known : ∀ o, s.Mine o → o < s.procs.length
  handles : s.handles.Perm s.launcher.held
  /-- Each of its processes is yet to be ended, or has ended. -/
  toEnd : ∀ o, s.Mine o → o ∈ s.launcher.toEnd ∨ alive s.procs o = false
  mine : ∀ o ∈ s.launcher.toEnd, s.Mine o
  ended : ∀ o ∈ s.ended, s.Mine o
  names : s.launcher.Names s.gui s.inject s.opened

/-- The injector has come past `ResumeThread`, or it gives up. -/
def Injector.past : Injector → Bool
  | .waitTarget _ | .clean _ _ | .returned _ => true
  | _ => false

/-- The injector waits for the thread that reads the path. -/
def Injector.reading : Injector → Bool
  | .waitLoad _ => true
  | _ => false

structure InjectorInv (s : State) : Prop where
  handles : s.injectHandles.Perm s.injector.held
  target : ∀ t, s.injector.target = some t → s.made = some t
  known : ∀ t, s.made = some t → t < s.procs.length
  loaded : ∀ t, s.injector = .freeMem t ∨ s.injector = .resume t → s.remote = .done ∨ alive s.procs t = false
  resumed : s.resumed = true → s.remote = .done ∧ s.injector.past = true
  mem : s.mem = s.injector.hasMem
  /-- As long as the service loads the library, the injector waits for it. -/
  running : s.remote = .running → s.injector.reading = true ∨ ∃ t, s.made = some t ∧ alive s.procs t = false
  absent : s.inject = none → s.injector = .absent
  fresh : s.injector = .absent ∨ s.injector = .create → s.made = none

/-! ## The table of processes -/

theorem mem_held : o ∈ s.held ↔ o ∈ s.handles ∨ s.injecting = true ∧ o ∈ s.injectHandles := by
  cases h : s.injecting <;> simp [State.held, h]

/-- What a step does to the table of processes, with the handles that are open afterwards. -/
inductive TableMove (s s' : State) : Prop where
  | keep (hp : s'.procs = s.procs) (hh : ∀ o ∈ s'.held, o ∈ s.held ∨ ∃ pid, used s.procs s.held pid o)
  | kill (a : Nat) (hp : s'.procs = kill s.procs a) (hh : ∀ o ∈ s'.held, o ∈ s.held)
  | spawn (pid parent : Nat) (image : Image) (hf : free s.procs s.held pid)
    (hp : s'.procs = Procs.spawn s.procs pid image parent) (hh : ∀ o ∈ s'.held, o = s.procs.length ∨ o ∈ s.held)

theorem TableMove.later (h : TableMove s s') : Later s.procs s'.procs := by
  cases h with
  | keep hp => exact hp ▸ Later.refl _
  | kill a hp => exact hp ▸ later_kill _ a
  | spawn pid parent image hf hp => exact hp ▸ later_spawn _ pid image parent

theorem TableMove.distinct (h : TableMove s s') (hd : Distinct s.procs s.held) : Distinct s'.procs s'.held := by
  cases h with
  | keep hp hh =>
    rw [hp]
    refine hd.anti fun o pid hu => ?_
    obtain ⟨hpid, ha | ha⟩ := used_iff.1 hu
    · exact used_iff.2 ⟨hpid, .inl ha⟩
    · rcases hh o ha with ha | ⟨q, hq⟩
      · exact used_iff.2 ⟨hpid, .inr ha⟩
      · exact used_iff.2 ⟨hpid, (used_iff.1 hq).2⟩
  | kill a hp hh =>
    rw [hp]
    exact hd.kill.anti fun o pid hu => used_mono hh hu
  | spawn pid parent image hf hp hh =>
    rw [hp]
    exact hd.spawn hf hh

/-- The injector runs only if it did before, as long as there is no new one. -/
theorem injecting_of_later (hl : Later s.procs s'.procs) (hi : s'.inject = s.inject) (hk : ∀ i, s.inject = some i →
    i < s.procs.length) (h : s'.injecting = true) : s.injecting = true := by
  rw [State.injecting, hi] at h
  obtain ⟨i, hs, ha⟩ := (Option.any_eq_true _ _).1 h
  exact (Option.any_eq_true _ _).2 ⟨i, hs, hl.alive i (hk i hs) ha⟩

/-- Handles are only closed, but for those in `P`. -/
theorem held_of_later {P : Nat → Prop} (ho : o ∈ s'.held) (hl : Later s.procs s'.procs) (hi : s'.inject = s.inject)
    (hk : ∀ i, s.inject = some i → i < s.procs.length) (hh : ∀ o ∈ s'.handles, o ∈ s.handles ∨ P o)
    (hj : ∀ o ∈ s'.injectHandles, o ∈ s.injectHandles ∨ P o) : o ∈ s.held ∨ P o := by
  rcases mem_held.1 ho with ho | ⟨hr, ho⟩
  · exact (hh o ho).imp_left fun h => mem_held.2 (.inl h)
  · exact (hj o ho).imp_left fun h => mem_held.2 (.inr ⟨injecting_of_later hl hi hk hr, h⟩)

theorem launcher_table (hi : LauncherInv s) (hj : InjectorInv s) (h : LauncherMove s a s') : TableMove s s' := by
  have hk : ∀ i, s.inject = some i → i < s.procs.length := fun i h => hi.known i (.inr (.inl h))
  cases h with
  | gui pid hl hf =>
    refine .spawn pid s.self .gui hf rfl fun o ho => ?_
    refine (held_of_later (P := (· = s.procs.length)) ho (later_spawn _ _ _ _) rfl hk (fun o ho => ?_)
      (fun o ho => .inl ho)).symm
    exact (List.mem_cons.1 ho).symm
  | inject g pid hl hf =>
    refine .spawn pid s.self .inject hf rfl fun o ho => ?_
    have hnames : s.inject = none := by
      have := hi.names
      rw [hl] at this
      exact this.2.1
    have hnone : s.injectHandles = [] := by
      have := hj.handles
      rw [hj.absent hnames] at this
      exact this.eq_nil
    rcases mem_held.1 ho with ho | ⟨-, ho⟩
    · exact (List.mem_cons.1 ho).imp_right fun h => mem_held.2 (.inl h)
    · exact absurd ho (by simp [hnone])
  | opened g i pid t hl hlook =>
    refine .keep rfl fun o ho => ?_
    refine (held_of_later (P := (· = t)) ho (Later.refl s.procs) rfl hk (fun o ho => ?_) (fun o ho => .inl ho)).imp_right ?_
    · exact (List.mem_cons.1 ho).symm
    · rintro rfl
      exact ⟨pid, used_of_lookup hlook⟩
  | op op ops code hl =>
    cases op with
    | terminate a =>
      refine .kill a rfl fun o ho => ?_
      exact (held_of_later (P := fun _ => False) ho (later_kill _ a) rfl hk (fun o ho => .inl ho)
        (fun o ho => .inl ho)).resolve_right id
    | close a =>
      refine .keep rfl fun o ho => .inl ?_
      exact (held_of_later (P := fun _ => False) ho (Later.refl s.procs) rfl hk (fun o ho => .inl (List.mem_of_mem_erase ho))
        (fun o ho => .inl ho)).resolve_right id
  | _ => exact .keep rfl fun o ho => .inl ho

theorem injector_table (hi : LauncherInv s) (h : InjectorMove s s') : TableMove s s' := by
  have hk : ∀ i, s.inject = some i → i < s.procs.length := fun i h => hi.known i (.inr (.inl h))
  cases h with
  | create i pid parent hj hi' hp hf =>
    refine .spawn pid parent .target hf rfl fun o ho => ?_
    refine (held_of_later (P := (· = s.procs.length)) ho (later_spawn _ _ _ _) rfl hk (fun o ho => .inl ho)
      (fun o ho => ?_)).symm
    exact (List.mem_cons.1 ho).symm
  | op op ops code hj =>
    cases op with
    | terminate a =>
      refine .kill a rfl fun o ho => ?_
      exact (held_of_later (P := fun _ => False) ho (later_kill _ a) rfl hk (fun o ho => .inl ho)
        (fun o ho => .inl ho)).resolve_right id
    | close a =>
      refine .keep rfl fun o ho => .inl ?_
      exact (held_of_later (P := fun _ => False) ho (Later.refl s.procs) rfl hk (fun o ho => .inl ho)
        (fun o ho => .inl (List.mem_of_mem_erase ho))).resolve_right id
  | _ => exact .keep rfl fun o ho => .inl ho

theorem world_table (hi : LauncherInv s) (h : WorldMove s s') : TableMove s s' := by
  have hk : ∀ i, s.inject = some i → i < s.procs.length := fun i h => hi.known i (.inr (.inl h))
  cases h with
  | load hr => exact .keep rfl fun o ho => .inl ho
  | spawn c pid parent image hc hi' hp hf =>
    refine .spawn pid parent image hf rfl fun o ho => .inr ?_
    exact (held_of_later (P := fun _ => False) ho (later_spawn _ _ _ _) rfl hk (fun o ho => .inl ho)
      (fun o ho => .inl ho)).resolve_right id
  | exit a =>
    refine .kill a rfl fun o ho => ?_
    exact (held_of_later (P := fun _ => False) ho (later_kill _ a) rfl hk (fun o ho => .inl ho)
      (fun o ho => .inl ho)).resolve_right id

/-! ## The launcher's part of the invariant -/

theorem held_afterOps (ops : List Op) (code : Nat) : (afterOps ops code).held = ops.filterMap Op.closes := by
  rw [afterOps]
  split <;> simp_all [Launcher.held]

theorem toEnd_afterOps (ops : List Op) (code : Nat) : (afterOps ops code).toEnd = ops.filterMap Op.ends := by
  rw [afterOps]
  split <;> simp_all [Launcher.toEnd]

theorem names_afterOps {gui inject opened : Option Nat} {op : Op} {ops : List Op} {code : Nat}
    (h : (Launcher.clean (op :: ops) code).Names gui inject opened) : (afterOps ops code).Names gui inject opened := by
  rw [afterOps]
  split <;> exact h

/-- Steps of the others: the processes of the launcher may end, and nothing else happens to it. -/
theorem LauncherInv.later (hi : LauncherInv s) (ht : Later s.procs s'.procs) (hl : s'.launcher = s.launcher)
    (hh : s'.handles = s.handles) (hg : s'.gui = s.gui) (hj : s'.inject = s.inject) (ho : s'.opened = s.opened)
    (he : s'.ended = s.ended) : LauncherInv s' := by
  have hm : ∀ o, s'.Mine o ↔ s.Mine o := fun o => by rw [State.Mine, State.Mine, hg, hj, ho]
  exact
    { known := fun o h => Nat.lt_of_lt_of_le (hi.known o ((hm o).1 h)) ht.length
      handles := by rw [hh, hl]; exact hi.handles
      toEnd := fun o h => by
        have hmine := (hm o).1 h
        rw [hl]
        exact (hi.toEnd o hmine).imp_right (ht.dead (hi.known o hmine))
      mine := fun o h => (hm o).2 (hi.mine o (hl ▸ h))
      ended := fun o h => (hm o).2 (hi.ended o (he ▸ h))
      names := by rw [hl, hg, hj, ho]; exact hi.names }

/-- The launcher goes on without a process of its own, with the same ones to end. -/
theorem LauncherInv.goes (hi : LauncherInv s) {l : Launcher} (hheld : s.launcher.held.Perm l.held)
    (hend : ∀ o, o ∈ s.launcher.toEnd ↔ o ∈ l.toEnd) (hnames : l.Names s.gui s.inject s.opened) :
    LauncherInv { s with launcher := l } where
  known := hi.known
  handles := hi.handles.trans hheld
  toEnd := fun o h => (hi.toEnd o h).imp_left (hend o).1
  mine := fun o h => hi.mine o ((hend o).2 h)
  ended := hi.ended
  names := hnames

/-- The launcher goes on with one more process of its own, and a handle to it. -/
theorem LauncherInv.owns {o : Nat} (hi : LauncherInv s) (ht : Later s.procs s'.procs) (hlt : o < s'.procs.length)
    (hmine : ∀ x, s'.Mine x ↔ x = o ∨ s.Mine x) (hheld : s'.launcher.held = o :: s.launcher.held)
    (hend : ∀ x, x ∈ s'.launcher.toEnd ↔ x = o ∨ x ∈ s.launcher.toEnd) (hh : s'.handles = o :: s.handles)
    (he : s'.ended = s.ended) (hnames : s'.launcher.Names s'.gui s'.inject s'.opened) : LauncherInv s' where
  known := fun x h => by
    rcases (hmine x).1 h with rfl | h
    · exact hlt
    · exact Nat.lt_of_lt_of_le (hi.known x h) ht.length
  handles := by
    rw [hh, hheld]
    exact hi.handles.cons o
  toEnd := fun x h => by
    rcases (hmine x).1 h with hx | h
    · exact .inl ((hend x).2 (.inl hx))
    · exact (hi.toEnd x h).imp (fun hx => (hend x).2 (.inr hx)) (ht.dead (hi.known x h))
  mine := fun x h => (hmine x).2 (((hend x).1 h).imp_right (hi.mine x))
  ended := fun x h => (hmine x).2 (.inr (hi.ended x (he ▸ h)))
  names := hnames

/-- The launcher ends one of its processes, or closes a handle to it. -/
theorem launcher_op {op : Op} {ops : List Op} {code : Nat} (hi : LauncherInv s)
    (hl : s.launcher = .clean (op :: ops) code) : LauncherInv { op.perform s with launcher := afterOps ops code } := by
  have hnames := hi.names
  rw [hl] at hnames
  have hnames' := names_afterOps hnames
  have hheld := hi.handles
  have hend := hi.toEnd
  have hmine := hi.mine
  rw [hl] at hheld hend hmine
  cases op with
  | terminate a =>
    have ha : s.Mine a := hmine a (by simp [Launcher.toEnd, Op.ends])
    exact
      { known := fun o h => by
          simpa [Op.perform] using hi.known o h
        handles := by
          rw [held_afterOps]
          exact hheld
        toEnd := fun o h => by
          rw [toEnd_afterOps]
          by_cases hoa : a = o
          · exact .inr (by simp [Op.perform, hoa])
          · rcases hend o h with h | h
            · simp only [Launcher.toEnd, Op.ends, List.filterMap_cons, List.mem_cons] at h
              exact .inl (h.resolve_left fun e => hoa e.symm)
            · exact .inr (by simp [Op.perform, h])
        mine := fun o h => by
          rw [toEnd_afterOps] at h
          exact hmine o (by simp only [Launcher.toEnd, Op.ends, List.filterMap_cons]; exact List.mem_cons_of_mem _ h)
        ended := fun o h => by
          rcases List.mem_cons.1 h with rfl | h
          · exact ha
          · exact hi.ended o h
        names := hnames' }
  | close a =>
    exact
      { known := hi.known
        handles := by
          rw [held_afterOps]
          have := hheld.erase a
          simpa [Op.perform, Launcher.held, Op.closes] using this
        toEnd := fun o h => by
          rw [toEnd_afterOps]
          exact hend o h
        mine := fun o h => by
          rw [toEnd_afterOps] at h
          exact hmine o h
        ended := hi.ended
        names := hnames' }

theorem launcher_launcher (hi : LauncherInv s) (h : LauncherMove s a s') : LauncherInv s' := by
  have hnames := hi.names
  cases h with
  | files ok hl =>
    rw [hl] at hnames
    cases ok with
    | true => exact hi.goes (by rw [hl]; exact .refl _) (by rw [hl]; exact fun _ => .rfl) hnames
    | false =>
      exact hi.goes (by rw [hl]; exact .refl _) (by rw [hl]; exact fun _ => .rfl) (by simp [Launcher.Names, hnames.2.2])
  | noGui hl =>
    rw [hl] at hnames
    exact hi.goes (by rw [hl]; exact .refl _) (by rw [hl]; exact fun _ => .rfl) (by simp [Launcher.Names, hnames.2.2])
  | gui pid hl hf =>
    rw [hl] at hnames
    obtain ⟨hg, hj, ho⟩ := hnames
    exact hi.owns (later_spawn _ _ _ _) (by simp) (by simp [State.Mine, hg, hj, ho, eq_comm]) (by rw [hl]; rfl)
      (by simp [hl, Launcher.toEnd]) rfl rfl ⟨rfl, hj, ho⟩
  | noInject g hl =>
    rw [hl] at hnames
    exact hi.goes (by rw [hl]; exact .refl _) (by rw [hl]; exact fun _ => .rfl) (by simp [Launcher.Names, hnames.2.2])
  | inject g pid hl hf =>
    rw [hl] at hnames
    obtain ⟨hg, hj, ho⟩ := hnames
    exact hi.owns (later_spawn _ _ _ _) (by simp) (by simp [State.Mine, hg, hj, ho, eq_comm, or_comm]) (by rw [hl]; rfl)
      (by simp [hl, Launcher.toEnd, or_comm]) rfl rfl ⟨hg, rfl, ho⟩
  | found g i p hl hp hc =>
    rw [hl] at hnames
    exact hi.goes (by rw [hl]; exact .refl _) (by rw [hl]; exact fun _ => .rfl) hnames
  | notFound g i hl =>
    rw [hl] at hnames
    exact hi.goes (by rw [hl]; exact .refl _) (by rw [hl]; exact fun _ => .rfl) hnames
  | again g i hl =>
    rw [hl] at hnames
    exact hi.goes (by rw [hl]; exact .refl _) (by rw [hl]; exact fun _ => .rfl) hnames
  | giveUp b g i hl =>
    have hheld : s.launcher.held = [i, g] ∧ s.launcher.toEnd = [g, i] ∧ s.opened = none := by
      rcases hl with hl | hl | ⟨pid, hl⟩ <;> rw [hl] at hnames ⊢ <;> exact ⟨rfl, rfl, hnames.2.2⟩
    refine hi.goes ?_ (fun o => by rw [hheld.2.1]; exact .rfl) (by simp [giveUp, Launcher.Names, hheld.2.2])
    rw [hheld.1]
    exact .swap g i []
  | opened g i pid t hl hlook =>
    rw [hl] at hnames
    obtain ⟨hg, hj, ho⟩ := hnames
    have hlt : t < s.procs.length := lt_of_pidOf (used_iff.1 (used_of_lookup hlook)).1
    exact hi.owns (Later.refl _) hlt (by simp [State.Mine, hg, hj, ho, eq_comm, or_comm, or_left_comm]) (by rw [hl]; rfl)
      (by simp [hl, Launcher.toEnd, or_comm, or_left_comm]) rfl rfl ⟨hg, hj, rfl⟩
  | wake b g i t hl =>
    rw [hl] at hnames
    obtain ⟨hg, hj, ho⟩ := hnames
    refine hi.goes ?_ (by rw [hl]; exact fun _ => .rfl) (by simp [Launcher.Names, hg, hj, ho])
    rw [hl]
    exact List.reverse_perm [g, i, t]
  | op op ops code hl => exact launcher_op hi hl

/-! ## The injector's part -/

theorem held_afterInjectOps (ops : List Op) (code : Nat) :
    (afterInjectOps ops code).held = ops.filterMap Op.closes ∧ (afterInjectOps ops code).target = none ∧
      (afterInjectOps ops code).past = true ∧ (afterInjectOps ops code).hasMem = false := by
  rw [afterInjectOps]
  split <;> simp_all [Injector.held, Injector.target, Injector.past, Injector.hasMem]

/-- Steps of the others: the service may end, and `LoadLibraryA` may return. -/
theorem InjectorInv.later (hi : InjectorInv s) (ht : Later s.procs s'.procs) (hj : s'.injector = s.injector)
    (hh : s'.injectHandles = s.injectHandles) (hn : s'.inject = s.inject) (hm : s'.made = s.made) (hmem : s'.mem = s.mem)
    (hr : s'.remote = s.remote ∨ s'.remote = .done) (hres : s'.resumed = s.resumed) : InjectorInv s' where
  handles := by rw [hh, hj]; exact hi.handles
  target := by rw [hj, hm]; exact hi.target
  known := fun t h => Nat.lt_of_lt_of_le (hi.known t (hm ▸ h)) ht.length
  loaded := fun t h => by
    rw [hj] at h
    rcases hr with hr | hr
    · have hmade : s.made = some t := hi.target t (by rcases h with h | h <;> rw [h] <;> rfl)
      rw [hr]
      exact (hi.loaded t h).imp_right (ht.dead (hi.known t hmade))
    · exact .inl hr
  resumed := fun h => by
    obtain ⟨hdone, hpast⟩ := hi.resumed (hres ▸ h)
    rw [hj]
    exact ⟨hr.elim (fun hr => hr.trans hdone) id, hpast⟩
  mem := by rw [hmem, hj]; exact hi.mem
  running := fun h => by
    rw [hj]
    rcases hr with hr | hr
    · refine (hi.running (hr ▸ h)).imp_right fun ⟨t, hmade, hdead⟩ => ⟨t, hm ▸ hmade, ?_⟩
      exact ht.dead (hi.known t hmade) hdead
    · rw [hr] at h
      cases h
  absent := by rw [hn, hj]; exact hi.absent
  fresh := by rw [hj, hm]; exact hi.fresh

/-- The injector goes on: nothing but where it is changes. -/
theorem InjectorInv.goes (hi : InjectorInv s) (hn : s.inject ≠ none) {j : Injector} (hheld : s.injector.held.Perm j.held)
    (htarget : ∀ t, j.target = some t → s.injector.target = some t)
    (hloaded : ∀ t, j = .freeMem t ∨ j = .resume t → s.remote = .done ∨ alive s.procs t = false)
    (hpast : s.injector.past = true → j.past = true) (hmem : s.injector.hasMem = j.hasMem)
    (hread : s.injector.reading = false) (hfresh : ¬ (j = .absent ∨ j = .create)) : InjectorInv { s with injector := j } where
  handles := hi.handles.trans hheld
  target := fun t h => hi.target t (htarget t h)
  known := hi.known
  loaded := hloaded
  resumed := fun h => (hi.resumed h).imp_right hpast
  mem := hi.mem.trans hmem
  running := fun h => .inr ((hi.running h).resolve_left (by simp [hread]))
  absent := fun h => absurd h hn
  fresh := fun h => absurd h hfresh

theorem injector_launcher (hi : LauncherInv s) (hj : InjectorInv s) (ht : TableMove s s') (h : LauncherMove s a s') :
    InjectorInv s' := by
  cases h with
  | inject g pid hl hf =>
    have hnames := hi.names
    rw [hl] at hnames
    have habs := hj.absent hnames.2.1
    have hmade := hj.fresh (.inl habs)
    exact
      { handles := by
          have := hj.handles
          rw [habs] at this
          exact this
        target := fun t h => by cases h
        known := fun t h => by
          rw [hmade] at h
          cases h
        loaded := fun t h => by rcases h with h | h <;> cases h
        resumed := fun h => by
          have := (hj.resumed h).2
          rw [habs] at this
          cases this
        mem := by
          have := hj.mem
          rw [habs] at this
          exact this
        running := fun h => by
          have := hj.running h
          rw [habs, hmade] at this
          simp [Injector.reading] at this
        absent := fun h => by cases h
        fresh := fun _ => hmade }
  | op op ops code hl =>
    cases op with
    | terminate a => exact hj.later ht.later rfl rfl rfl rfl rfl (.inl rfl) rfl
    | close a => exact hj.later ht.later rfl rfl rfl rfl rfl (.inl rfl) rfl
  | _ => exact hj.later ht.later rfl rfl rfl rfl rfl (.inl rfl) rfl

theorem injector_world (hj : InjectorInv s) (ht : TableMove s s') (h : WorldMove s s') : InjectorInv s' := by
  cases h with
  | load hr => exact hj.later ht.later rfl rfl rfl rfl rfl (.inr rfl) rfl
  | spawn c pid parent image hc hi hp hf => exact hj.later ht.later rfl rfl rfl rfl rfl (.inl rfl) rfl
  | exit o => exact hj.later ht.later rfl rfl rfl rfl rfl (.inl rfl) rfl

/-- The injector ends the service on its way out, or closes the handle to it. -/
theorem injector_op {op : Op} {ops : List Op} {code : Nat} (hj : InjectorInv s) (hn : s.inject ≠ none)
    (hc : s.injector = .clean (op :: ops) code) :
    InjectorInv { op.performInject s with injector := afterInjectOps ops code } := by
  have hmem := hj.mem
  have hheld := hj.handles
  have hrunning := hj.running
  obtain ⟨hops, htarget, hpast', hnomem⟩ := held_afterInjectOps ops code
  have hpc : ¬ (afterInjectOps ops code = .absent ∨ afterInjectOps ops code = .create) := by
    rw [afterInjectOps]
    split <;> simp
  have hnot : ∀ t, ¬ (afterInjectOps ops code = .freeMem t ∨ afterInjectOps ops code = .resume t) := by
    intro t
    rw [afterInjectOps]
    split <;> simp
  rw [hc] at hheld hmem hrunning
  have hdead : s.remote = .running → ∃ t, s.made = some t ∧ alive s.procs t = false := fun h =>
    (hrunning h).resolve_left Bool.false_ne_true
  cases op with
  | terminate a =>
    exact
      { handles := by rw [hops]; exact hheld
        target := fun t h => by rw [htarget] at h; cases h
        known := fun t h => by simpa [Op.performInject] using hj.known t h
        loaded := fun t h => absurd h (hnot t)
        resumed := fun h => ⟨(hj.resumed h).1, hpast'⟩
        mem := hmem.trans hnomem.symm
        running := fun h => by
          obtain ⟨t, hmade, ht⟩ := hdead h
          exact .inr ⟨t, hmade, by simp [Op.performInject, ht]⟩
        absent := fun h => absurd h hn
        fresh := fun h => absurd h hpc }
  | close a =>
    exact
      { handles := by
          rw [hops]
          have := hheld.erase a
          simpa [Op.performInject, Injector.held, Op.closes] using this
        target := fun t h => by rw [htarget] at h; cases h
        known := hj.known
        loaded := fun t h => absurd h (hnot t)
        resumed := fun h => ⟨(hj.resumed h).1, hpast'⟩
        mem := hmem.trans hnomem.symm
        running := fun h => .inr (hdead h)
        absent := fun h => absurd h hn
        fresh := fun h => absurd h hpc }

theorem injector_injector (hj : InjectorInv s) (hrun : s.injecting = true) (h : InjectorMove s s') : InjectorInv s' := by
  have hn : s.inject ≠ none := fun hn => by simp [State.injecting, hn] at hrun
  have hpast := fun h => (hj.resumed h).2
  have hmem := hj.mem
  have hheld := hj.handles
  have hrunning := hj.running
  cases h with
  | noProcess hc =>
    exact hj.goes hn (by rw [hc]; exact .refl _) (by simp [Injector.target]) (by simp) (by simp [Injector.past])
      (by rw [hc]; rfl) (by rw [hc]; rfl) (by simp)
  | create i pid parent hc hi hp hf =>
    have hmade := hj.fresh (.inr hc)
    rw [hc] at hpast hmem hheld hrunning
    exact
      { handles := hheld.cons _
        target := fun t h => h
        known := fun t h => by
          cases h
          simp
        loaded := fun t h => by rcases h with h | h <;> cases h
        resumed := fun h => absurd (hpast h) Bool.false_ne_true
        mem := hmem
        running := fun h => by simpa [Injector.reading, hmade] using hrunning h
        absent := fun h => absurd h hn
        fresh := by simp }
  | alloc t hc =>
    rw [hc] at hpast hheld hrunning
    exact
      { handles := hheld
        target := fun u h => hj.target u (by rw [hc]; exact h)
        known := hj.known
        loaded := by simp
        resumed := fun h => absurd (hpast h) Bool.false_ne_true
        mem := rfl
        running := hrunning
        absent := fun h => absurd h hn
        fresh := by simp }
  | noMemory t hc =>
    exact hj.goes hn (by rw [hc]; exact .refl _) (by simp [failed, Injector.target]) (by simp [failed])
      (by simp [failed, Injector.past]) (by rw [hc]; rfl) (by rw [hc]; rfl) (by simp [failed])
  | write t hc =>
    exact hj.goes hn (by rw [hc]; exact .refl _) (by rw [hc]; exact fun _ h => h) (by simp) (by rw [hc]; exact id)
      (by rw [hc]; rfl) (by rw [hc]; rfl) (by simp)
  | getProc t hc =>
    exact hj.goes hn (by rw [hc]; exact .refl _) (by rw [hc]; exact fun _ h => h) (by simp) (by rw [hc]; exact id)
      (by rw [hc]; rfl) (by rw [hc]; rfl) (by simp)
  | thread t hc =>
    rw [hc] at hpast hheld hmem
    exact
      { handles := hheld
        target := fun u h => hj.target u (by rw [hc]; exact h)
        known := hj.known
        loaded := by simp
        resumed := fun h => absurd (hpast h) Bool.false_ne_true
        mem := hmem
        running := fun _ => .inl rfl
        absent := fun h => absurd h hn
        fresh := by simp }
  | undo t hc =>
    rcases hc with hc | hc | hc
    all_goals
      exact hj.goes hn (by rw [hc]; exact .refl _) (by rw [hc]; exact fun _ h => h) (by simp) (by rw [hc]; exact id)
        (by rw [hc]; rfl) (by rw [hc]; rfl) (by simp)
  | loaded t hc hr =>
    have hmade := hj.target t (by rw [hc]; rfl)
    rw [hc] at hpast hheld hmem
    exact
      { handles := hheld
        target := fun u h => hj.target u (by rw [hc]; exact h)
        known := hj.known
        loaded := fun u h => by
          have : t = u := by simpa using h
          exact this ▸ hr
        resumed := fun h => absurd (hpast h) Bool.false_ne_true
        mem := hmem
        running := fun h => by
          refine .inr ⟨t, hmade, hr.resolve_left fun hdone => ?_⟩
          rw [hdone] at h
          cases h
        absent := fun h => absurd h hn
        fresh := by simp }
  | freeMem t hc =>
    have hload := hj.loaded t (.inl hc)
    rw [hc] at hpast hheld hrunning
    exact
      { handles := hheld
        target := fun u h => hj.target u (by rw [hc]; exact h)
        known := hj.known
        loaded := fun u h => by
          have : t = u := by simpa using h
          exact this ▸ hload
        resumed := fun h => absurd (hpast h) Bool.false_ne_true
        mem := rfl
        running := hrunning
        absent := fun h => absurd h hn
        fresh := by simp }
  | resume t hc =>
    have hload := hj.loaded t (.inr hc)
    rw [hc] at hheld hmem hrunning
    exact
      { handles := hheld
        target := fun u h => hj.target u (by rw [hc]; exact h)
        known := hj.known
        loaded := by simp
        resumed := fun h => by
          have h : s.resumed = true ∨ alive s.procs t = true := by simpa using h
          refine ⟨?_, rfl⟩
          rcases h with h | h
          · exact (hj.resumed h).1
          · exact hload.resolve_right (by simp [h])
        mem := hmem
        running := hrunning
        absent := fun h => absurd h hn
        fresh := by simp }
  | targetEnded t hc =>
    exact hj.goes hn (by rw [hc]; exact .refl _) (by simp [Injector.target]) (by simp) (by simp [Injector.past])
      (by rw [hc]; rfl) (by rw [hc]; rfl) (by simp)
  | undone t hc =>
    rw [hc] at hheld hrunning
    exact
      { handles := hheld
        target := fun u h => by cases h
        known := hj.known
        loaded := by simp [failed]
        resumed := fun h => ⟨(hj.resumed h).1, rfl⟩
        mem := rfl
        running := hrunning
        absent := fun h => absurd h hn
        fresh := by simp [failed] }
  | op op ops code hc => exact injector_op hj hn hc

/-! ## Runs -/

structure Inv (s : State) : Prop where
  distinct : Distinct s.procs s.held
  launcher : LauncherInv s
  injector : InjectorInv s

theorem inv_start {procs : Table Image} {self : Nat} (hd : Distinct procs []) : Inv (State.start procs self) where
  distinct := hd
  launcher :=
    { known := by simp [State.Mine, State.start]
      handles := .refl _
      toEnd := by simp [State.Mine, State.start]
      mine := by simp [State.start, Launcher.toEnd]
      ended := by simp [State.start]
      names := ⟨rfl, rfl, rfl⟩ }
  injector :=
    { handles := .refl _
      target := by simp [State.start, Injector.target]
      known := by simp [State.start]
      loaded := by simp [State.start]
      resumed := by simp [State.start]
      mem := rfl
      running := by simp [State.start]
      absent := fun _ => rfl
      fresh := fun _ => rfl }

theorem launcher_injector (hi : LauncherInv s) (ht : TableMove s s') (h : InjectorMove s s') : LauncherInv s' := by
  cases h with
  | op op ops code hj =>
    cases op with
    | terminate a => exact hi.later ht.later rfl rfl rfl rfl rfl rfl
    | close a => exact hi.later ht.later rfl rfl rfl rfl rfl rfl
  | _ => exact hi.later ht.later rfl rfl rfl rfl rfl rfl

theorem launcher_world (hi : LauncherInv s) (ht : TableMove s s') (h : WorldMove s s') : LauncherInv s' := by
  cases h with
  | _ => exact hi.later ht.later rfl rfl rfl rfl rfl rfl

/-- A step of whichever kind, with what it does to the table. -/
inductive Move (s s' : State) : Prop where
  | launcher (a : LauncherAct) (h : LauncherMove s a s')
  | injector (hrun : s.injecting = true) (h : InjectorMove s s')
  | world (h : WorldMove s s')

theorem move {a : Act} (h : step s a = some s') : Move s s' := by
  cases a with
  | launcher a => exact .launcher a (launcherMove h)
  | injector a => exact .injector (injectorMove h).1 (injectorMove h).2
  | world a => exact .world (worldMove h)

theorem Inv.table (hi : Inv s) (h : Move s s') : TableMove s s' := by
  cases h with
  | launcher _ h => exact launcher_table hi.launcher hi.injector h
  | injector _ h => exact injector_table hi.launcher h
  | world h => exact world_table hi.launcher h

theorem inv_step {a : Act} (hi : Inv s) (h : step s a = some s') : Inv s' := by
  have hm := move h
  have ht := hi.table hm
  refine ⟨ht.distinct hi.distinct, ?_, ?_⟩
  · cases hm with
    | launcher _ h => exact launcher_launcher hi.launcher h
    | injector _ h => exact launcher_injector hi.launcher ht h
    | world h => exact launcher_world hi.launcher ht h
  · cases hm with
    | launcher _ h => exact injector_launcher hi.launcher hi.injector ht h
    | injector hrun h => exact injector_injector hi.injector hrun h
    | world h => exact injector_world hi.injector ht h

theorem inv_run {procs : Table Image} {self : Nat} {as : List Act} (hd : Distinct procs [])
    (hr : run step (State.start procs self) as = some s) : Inv s :=
  run_invariant (fun _ _ _ hi h => inv_step hi h) (inv_start hd) hr

/-- The shell the launcher is started from. -/
def shell : Table Image := [⟨100, .other 0, 1, true⟩]

theorem shell_distinct : Distinct shell [] := distinct_of_nodup (by decide)

/-- All is well until the GUI is closed. -/
def guiCloses : List Act :=
  [.launcher (.files true), .launcher (.startGui (some 200)), .launcher (.startInject (some 300)), .launcher (.scan none),
    .injector (.create (some 400)), .launcher (.tick false), .launcher (.scan (some 400)), .injector (.alloc true),
    .injector (.write true), .launcher (.openTarget true), .injector (.getProc true), .injector (.thread true),
    .world .load, .injector .wake, .injector .freeMem, .injector .resume, .world (.exit 1)]

/-- The launcher ends the injector and the service. -/
def cleanup : List Act :=
  [.launcher .wake, .launcher .op, .launcher .op, .world (.spawn 0 (.other 1) 200), .launcher .op, .launcher .op,
    .launcher .op, .launcher .op]

variable {procs : Table Image} {self : Nat} {as : List Act}

/-- **The library first**: the main thread of the service runs only after `LoadLibraryA` has returned in it, and with
the memory for the path given back; the path stays there as long as it is read; and an injector that returns has given
back all it held. -/
theorem loaded_first (hd : Distinct procs []) (hr : run step (State.start procs self) as = some s) :
    (s.resumed = true → s.remote = .done ∧ s.mem = false) ∧
    (s.remote = .running → (∀ t, s.made = some t → alive s.procs t = true) → s.mem = true) ∧
    ∀ code, s.injector = .returned code → s.mem = false ∧ s.injectHandles = [] := by
  have hi := (inv_run hd hr).injector
  have hmem := hi.mem
  refine ⟨fun h => ?_, fun h halive => ?_, fun code h => ?_⟩
  · obtain ⟨hdone, hpast⟩ := hi.resumed h
    refine ⟨hdone, hmem.trans ?_⟩
    cases hj : s.injector <;> simp_all [Injector.past, Injector.hasMem]
  · rcases hi.running h with hread | ⟨t, hmade, hdead⟩
    · rw [hmem]
      cases hj : s.injector <;> simp_all [Injector.reading, Injector.hasMem]
    · rw [halive t hmade] at hdead
      cases hdead
  · have hheld := hi.handles
    rw [h] at hmem hheld
    exact ⟨hmem, hheld.eq_nil⟩

theorem loaded_first_guiCloses : ∃ s, run step (State.start shell 100) guiCloses = some s ∧
    s.resumed = true ∧ s.remote = .done ∧ s.mem = false := by
  have h : (run step (State.start shell 100) guiCloses).map State.resumed = some true := rfl
  obtain ⟨s, hr, hres⟩ := Option.map_eq_some_iff.1 h
  exact ⟨s, hr, hres, (loaded_first shell_distinct hr).1 hres⟩

/-- No service has the injector's number for that of its parent when the injector is started, and the service lives when
the launcher opens it. -/
def quiet (s : State) : Act → Bool
  | .launcher (.startInject (some pid)) => !s.procs.any (isChild (some pid))
  | .launcher (.openTarget _) => s.made.all (alive s.procs)
  | _ => true

/-- The launcher is in `FindProcessByNameAndParent`. -/
def Launcher.looking : Launcher → Option Nat
  | .scan _ i | .pause _ i => some i
  | _ => none

structure Own (s : State) : Prop where
  /-- The service of the injector is the only one there is to find. -/
  child : ∀ i, s.launcher.looking = some i → ∀ o p, s.procs[o]? = some p → isChild (pidOf s.procs i) p → s.made = some o
  found : ∀ g i pid, s.launcher = .openTarget g i pid → ∃ o, s.made = some o ∧ pidOf s.procs o = some pid
  opened : ∀ t, s.opened = some t → s.made = some t

theorem isChild_iff {parent : Option Nat} {p : Proc Image} :
    isChild parent p ↔ p.alive = true ∧ p.image = .target ∧ some p.parent = parent := by
  simp [isChild, and_assoc]

theorem looking_inject (hi : LauncherInv s) {i : Nat} (h : s.launcher.looking = some i) :
    s.inject = some i ∧ i ∈ s.handles ∧ i < s.procs.length := by
  have hnames := hi.names
  have hheld := hi.handles
  cases hl : s.launcher with
  | scan g j | pause g j =>
    rw [hl] at h hnames hheld
    cases h
    exact ⟨hnames.2.1, hheld.mem_iff.2 (by simp [Launcher.held]), hi.known _ (.inr (.inl hnames.2.1))⟩
  | _ =>
    rw [hl] at h
    cases h

/-- A process that ends is found no more. -/
theorem Own.kill (ho : Own s) {a : Nat} (hp : s'.procs = Procs.kill s.procs a) (hl : s'.launcher = s.launcher)
    (hm : s'.made = s.made) (hopened : s'.opened = s.opened) : Own s' where
  child := fun i hlook o p hget hc => by
    rw [hl] at hlook
    rw [hp, pidOf_kill] at hc
    rw [hp, getElem?_kill] at hget
    obtain ⟨q, hq, rfl⟩ := Option.map_eq_some_iff.1 hget
    split_ifs at hc with hoa
    · simp [isChild] at hc
    · exact hm ▸ ho.child i hlook o q hq hc
  found := fun g i pid h => by
    rw [hp, hm]
    simp only [pidOf_kill]
    exact ho.found g i pid (hl ▸ h)
  opened := fun t h => hm ▸ ho.opened t (hopened ▸ h)

/-- A new process is not one to find, or it is the service. -/
theorem Own.spawn (ho : Own s) (hi : Inv s) {pid parent : Nat} {image : Image}
    (hp : s'.procs = Procs.spawn s.procs pid image parent) (hl : s'.launcher = s.launcher)
    (hm : ∀ o, s.made = some o → s'.made = some o) (hopened : s'.opened = s.opened)
    (hnew : ∀ i, s.launcher.looking = some i → image = .target → pidOf s.procs i = some parent →
      s'.made = some s.procs.length) : Own s' where
  child := fun i hlook o p hget hc => by
    rw [hl] at hlook
    obtain ⟨-, -, hlt⟩ := looking_inject hi.launcher hlook
    rw [hp, pidOf_spawn (Nat.ne_of_lt hlt)] at hc
    rw [hp] at hget
    by_cases hlast : o = s.procs.length
    · subst hlast
      rw [getElem?_spawn_self, Option.some.injEq] at hget
      subst hget
      obtain ⟨-, himage, hparent⟩ := isChild_iff.1 hc
      exact hnew i hlook himage hparent.symm
    · rw [getElem?_spawn hlast] at hget
      exact hm o (ho.child i hlook o p hget hc)
  found := fun g i q h => by
    obtain ⟨o, hmade, hpid⟩ := ho.found g i q (hl ▸ h)
    refine ⟨o, hm o hmade, ?_⟩
    rw [hp, pidOf_spawn (Nat.ne_of_lt (lt_of_pidOf hpid))]
    exact hpid
  opened := fun t h => hm t (ho.opened t (hopened ▸ h))

/-- Neither the table of processes nor the service changes. -/
theorem Own.keep (ho : Own s) (hp : s'.procs = s.procs) (hm : s'.made = s.made) (hopened : s'.opened = s.opened)
    (hlook : ∀ i, s'.launcher.looking = some i → s.launcher.looking = some i)
    (hfound : ∀ g i pid, s'.launcher = .openTarget g i pid → ∃ o, s.made = some o ∧ pidOf s.procs o = some pid) :
    Own s' where
  child := fun i h => by
    rw [hp, hm]
    exact ho.child i (hlook i h)
  found := fun g i pid h => by
    rw [hp, hm]
    exact hfound g i pid h
  opened := fun t h => hm ▸ ho.opened t (hopened ▸ h)

theorem own_launcher (hi : Inv s) (ho : Own s) (hq : quiet s (.launcher a)) (h : LauncherMove s a s') : Own s' := by
  have hnames := hi.launcher.names
  cases h with
  | files ok hl => exact ho.keep rfl rfl rfl (by cases ok <;> simp [Launcher.looking]) (by cases ok <;> simp)
  | noGui hl | noInject g hl | wake b g i t hl | giveUp b g i hl =>
    exact ho.keep rfl rfl rfl (by simp [giveUp, Launcher.looking]) (by simp [giveUp])
  | gui pid hl hf =>
    rw [hl] at hnames
    exact
      { child := by simp [Launcher.looking]
        found := by simp
        opened := fun t h => by rw [hnames.2.2] at h; cases h }
  | inject g pid hl hf =>
    rw [hl] at hnames
    exact
      { child := fun i hlook o p hget hc => by
          cases hlook
          rw [pidOf, getElem?_spawn_self, Option.map_some] at hc
          by_cases hlast : o = s.procs.length
          · subst hlast
            rw [getElem?_spawn_self, Option.some.injEq] at hget
            subst hget
            simp [isChild] at hc
          · rw [getElem?_spawn hlast] at hget
            have hold : s.procs.any (isChild (some pid)) = true := List.any_eq_true.2 ⟨p, List.mem_of_getElem? hget, hc⟩
            simp [quiet, hold] at hq
        found := by simp
        opened := fun t h => by rw [hnames.2.2] at h; cases h }
  | found g i p hl hp hc =>
    refine ho.keep rfl rfl rfl (by simp [Launcher.looking]) fun g' i' pid h => ?_
    cases h
    obtain ⟨o, hget⟩ := List.mem_iff_getElem?.1 hp
    exact ⟨o, ho.child i (by rw [hl]; rfl) o p hget hc, by rw [pidOf, hget, Option.map_some]⟩
  | notFound g i hl =>
    exact ho.keep rfl rfl rfl (fun j h => by rw [hl]; exact h) (by simp)
  | again g i hl =>
    exact ho.keep rfl rfl rfl (fun j h => by rw [hl]; exact h) (by simp)
  | opened g i pid t hl hlook =>
    obtain ⟨o, hmade, hpid⟩ := ho.found g i pid hl
    have halive : alive s.procs o = true := by simpa [quiet, hmade] using hq
    have hto : lookup s.procs s.held pid = some o := lookup_of_used hi.distinct (used_iff.2 ⟨hpid, .inl halive⟩)
    rw [hlook, Option.some.injEq] at hto
    exact
      { child := by simp [Launcher.looking]
        found := by simp
        opened := fun u h => by
          cases h
          exact hto ▸ hmade }
  | op op ops code hl =>
    have hnot : (afterOps ops code).looking = none ∧ ∀ g i pid, afterOps ops code ≠ .openTarget g i pid := by
      rw [afterOps]
      split <;> simp [Launcher.looking]
    cases op with
    | terminate b =>
      exact
        { child := fun i h => by rw [show _ = none from hnot.1] at h; cases h
          found := fun g i pid h => absurd h (hnot.2 g i pid)
          opened := ho.opened }
    | close b =>
      exact ho.keep rfl rfl rfl (fun i h => by rw [show _ = none from hnot.1] at h; cases h)
        fun g i pid h => absurd h (hnot.2 g i pid)

theorem own_injector (hi : Inv s) (ho : Own s) (h : InjectorMove s s') : Own s' := by
  cases h with
  | create i pid parent hj hinj hp hf =>
    have hmade := hi.injector.fresh (.inr hj)
    exact ho.spawn hi rfl rfl (fun o h => by rw [hmade] at h; cases h) rfl fun _ _ _ _ => rfl
  | op op ops code hj =>
    cases op with
    | terminate a => exact ho.kill rfl rfl rfl rfl
    | close a => exact ho.keep rfl rfl rfl (fun _ h => h) ho.found
  | _ => exact ho.keep rfl rfl rfl (fun _ h => h) ho.found

theorem own_world (hi : Inv s) (ho : Own s) (h : WorldMove s s') : Own s' := by
  cases h with
  | load hr => exact ho.keep rfl rfl rfl (fun _ h => h) ho.found
  | exit o => exact ho.kill rfl rfl rfl rfl
  | spawn c pid parent image hc hne hp hf =>
    refine ho.spawn hi rfl rfl (fun _ h => h) rfl fun i hlook _ hparent => ?_
    -- the creator would bear the number of the injector, which is in use
    obtain ⟨hinject, hheld, -⟩ := looking_inject hi.launcher hlook
    have hci : c = i := hi.distinct parent c i (used_iff.2 ⟨hp, .inl hc⟩)
      (used_iff.2 ⟨hparent, .inr (mem_held.2 (.inl hheld))⟩)
    exact absurd (hci ▸ hinject) hne

theorem own_start : Own (State.start procs self) where
  child := by simp [State.start, Launcher.looking]
  found := by simp [State.start]
  opened := by simp [State.start]

theorem own_step {a : Act} (h : Inv s ∧ Own s) (hq : quiet s a) (hs : step s a = some s') : Inv s' ∧ Own s' := by
  obtain ⟨hi, ho⟩ := h
  refine ⟨inv_step hi hs, ?_⟩
  cases a with
  | launcher a => exact own_launcher hi ho hq (launcherMove hs)
  | injector a => exact own_injector hi ho (injectorMove hs).2
  | world a => exact own_world hi ho (worldMove hs)

/-- **The launcher ends its own**: in a `quiet` run the process the launcher opens is the service the injector has
created, and it ends no process but that one and the two it has started. -/
theorem kills_own (hd : Distinct procs []) (hg : Guarded step (fun s a => quiet s a) (State.start procs self) as)
    (hr : run step (State.start procs self) as = some s) :
    (∀ t, s.opened = some t → s.made = some t) ∧
    ∀ o ∈ s.ended, s.gui = some o ∨ s.inject = some o ∨ s.opened = some o ∧ s.made = some o := by
  obtain ⟨hi, ho⟩ := hg.invariant (I := fun s => Inv s ∧ Own s) (fun _ _ _ => own_step) ⟨inv_start hd, own_start⟩ hr
  refine ⟨ho.opened, fun o h => ?_⟩
  rcases hi.launcher.ended o h with h | h | h
  · exact .inl h
  · exact .inr (.inl h)
  · exact .inr (.inr ⟨h, ho.opened o h⟩)

theorem kills_own_cleanup : ∃ s, run step (State.start shell 100) (guiCloses ++ cleanup) = some s ∧
    s.opened = some 3 ∧ s.made = some 3 ∧ s.ended = [3, 2, 1] := by
  have h : (run step (State.start shell 100) (guiCloses ++ cleanup)).map (fun s => (s.opened, s.ended)) =
      some (some 3, [3, 2, 1]) := rfl
  obtain ⟨s, hr, hs⟩ := Option.map_eq_some_iff.1 h
  obtain ⟨hopened, hended⟩ := Prod.mk.inj hs
  have hown := (kills_own shell_distinct (by decide +kernel) hr).1
  exact ⟨s, hr, hopened, hown 3 hopened, hended⟩

/-- The service ends before it is opened, and its number goes to another process, which the launcher ends. -/
example : (run step (State.start shell 100)
    [.launcher (.files true), .launcher (.startGui (some 200)), .launcher (.startInject (some 300)),
      .injector (.create (some 400)), .launcher (.scan (some 400)), .world (.exit 3), .injector (.alloc true), .injector .op,
      .injector .op, .world (.spawn 0 (.other 1) 400), .launcher (.openTarget true), .world (.exit 2), .launcher .wake,
      .launcher .op, .launcher .op, .launcher .op, .launcher .op, .launcher .op]).map (fun s => (s.made, s.ended)) =
    some (some 3, [4, 2, 1]) := rfl

/-! ## The end -/

/-- The steps the launcher has left once one of the three has ended. -/
def Launcher.left : Launcher → Nat
  | .wait _ _ _ => 7
  | .clean ops _ => ops.length
  | _ => 0

/-- The launcher has opened the service, and one of the three has ended. -/
structure Ending (g i t : Nat) (s : State) : Prop where
  gui : s.gui = some g
  inject : s.inject = some i
  opened : s.opened = some t
  launcher : s.launcher = .wait g i t ∧ ¬ (alive s.procs g ∧ alive s.procs i ∧ alive s.procs t) ∨
    (∃ op ops, s.launcher = .clean (op :: ops) 0) ∨ s.launcher = .returned 0

def Act.isLauncher : Act → Bool
  | .launcher _ => true
  | _ => false

variable {g i : Nat}

/-- A step of the launcher is the next one of its cleanup. -/
theorem ending_launcher (he : Ending g i t s) (h : LauncherMove s a s') :
    Ending g i t s' ∧ s.launcher.left = s'.launcher.left + 1 := by
  rcases he.launcher with ⟨hl, -⟩ | ⟨op, ops, hl⟩ | hl
  · cases h with
    | wake b g' i' t' hl' => exact ⟨⟨he.gui, he.inject, he.opened, .inr (.inl ⟨_, _, rfl⟩)⟩, by rw [hl]; rfl⟩
    | giveUp b g' i' hl' => simp [hl] at hl'
    | _ => simp_all
  · cases h with
    | op op' ops' code hl' =>
      rw [hl', Launcher.clean.injEq] at hl
      obtain ⟨-, rfl⟩ := hl
      have hleft : s.launcher.left = (afterOps ops' 0).left + 1 := by
        rw [hl', afterOps]
        split <;> simp_all [Launcher.left]
      have hpc : (∃ op ops, afterOps ops' 0 = .clean (op :: ops) 0) ∨ afterOps ops' 0 = .returned 0 := by
        cases ops' <;> simp [afterOps]
      cases op' with
      | _ => exact ⟨⟨he.gui, he.inject, he.opened, .inr hpc⟩, hleft⟩
    | giveUp b g' i' hl' => simp [hl] at hl'
    | _ => simp_all
  · cases h with
    | giveUp b g' i' hl' => simp [hl] at hl'
    | _ => simp_all

/-- What the others do does not touch the launcher, and none of the three comes to life again. -/
theorem Ending.later (he : Ending g i t s) (hi : Inv s) (ht : Later s.procs s'.procs) (hl : s'.launcher = s.launcher)
    (hg : s'.gui = s.gui) (hj : s'.inject = s.inject) (ho : s'.opened = s.opened) :
    Ending g i t s' ∧ s.launcher.left = s'.launcher.left + 0 := by
  refine ⟨⟨hg.trans he.gui, hj.trans he.inject, ho.trans he.opened, ?_⟩, by rw [hl]; rfl⟩
  rw [hl]
  refine he.launcher.imp_left fun ⟨hw, hdead⟩ => ⟨hw, fun ⟨ag, ai, at'⟩ => hdead ⟨?_, ?_, ?_⟩⟩
  · exact ht.alive g (hi.launcher.known g (.inl he.gui)) ag
  · exact ht.alive i (hi.launcher.known i (.inr (.inl he.inject))) ai
  · exact ht.alive t (hi.launcher.known t (.inr (.inr he.opened))) at'

theorem ending_step {a : Act} (h : Inv s ∧ Ending g i t s) (hs : step s a = some s') :
    (Inv s' ∧ Ending g i t s') ∧ s.launcher.left = s'.launcher.left + if a.isLauncher then 1 else 0 := by
  obtain ⟨hi, he⟩ := h
  have ht := (hi.table (move hs)).later
  suffices hend : Ending g i t s' ∧ s.launcher.left = s'.launcher.left + if a.isLauncher then 1 else 0 from
    ⟨⟨inv_step hi hs, hend.1⟩, hend.2⟩
  cases a with
  | launcher a => exact ending_launcher he (launcherMove hs)
  | injector a =>
    cases (injectorMove hs).2 with
    | op op ops code hj =>
      cases op with
      | _ => exact he.later hi ht rfl rfl rfl rfl
    | _ => exact he.later hi ht rfl rfl rfl rfl
  | world a =>
    cases worldMove hs with
    | _ => exact he.later hi ht rfl rfl rfl rfl

/-- As long as it has steps left, the launcher can take one. -/
theorem Ending.enabled (he : Ending g i t s) (hleft : s.launcher.left ≠ 0) : ∃ a, (launcherStep s a).isSome := by
  rcases he.launcher with ⟨hl, hdead⟩ | ⟨op, ops, hl⟩ | hl
  · refine ⟨.wake, ?_⟩
    rw [launcherStep.eq_def, hl]
    simp only
    rw [if_neg (by simpa [and_assoc] using hdead)]
    rfl
  · refine ⟨.op, ?_⟩
    rw [launcherStep.eq_def, hl]
    rfl
  · rw [hl] at hleft
    exact absurd rfl hleft

end Rvpn.Launch
