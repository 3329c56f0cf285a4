import Mathlib.Data.List.Nodup
import Mathlib.Data.List.Pairwise
import Rvpn.Inject.Iat

/-!
# Installing the hooks (inject.c:705-726, emulate_driver_running.c:5685-5777, :5827-6017, iat_helpers.c:35-41)

`run_injection` goes through a fixed table of functions, looks each one up in the import tables of the modules that call
it, and writes the address of the hook over the slot.

| here | there |
| --- | --- |
| `patchIAT`      | `PatchIAT`; `VirtualProtect` succeeds |
| `patchIatEntry` | `PATCH_IAT_ENTRY`, and the `if (p) PatchIAT(p, ..)` of `InstallHooks` |
| `Target`        | the main program alone, `PATCH_IAT_EXE_AND_DLL`, `PATCH_IAT_EXE_AND_DLL_AND_SELF` |
| `hookTable`     | all calls of these, in the order of the source |
| `iatPatches`    | what is left of them where `Real_..` is NULL or a module is not loaded |

The lookups go through memory that the writes change, in tables that lie next to the slots. `hooks_installed` says that
nothing goes wrong with that: afterwards the first import of every function of the table calls its hook, all other slots
are as they were, and so is every other byte.
-/

namespace Rvpn.Iat

open Flat

/-! ## One slot after another -/

structure Patch where
  /-- The module whose slot is written. -/
  base : Addr
  dllName : AStr
  funcName : AStr
  hook : Addr

def patchIAT (m : Mem) (iatEntry hookFunc : Addr) : Option Mem := write32 m iatEntry hookFunc

def patchIatEntry (lower : AChar → AChar) (fuel : Nat) (m : Mem) (p : Patch) : Option Mem := do
  let iatEntry ← getIATEntry lower fuel m p.base p.dllName p.funcName
  if iatEntry = 0 then some m else patchIAT m iatEntry p.hook

def patchAll (lower : AChar → AChar) (fuel : Nat) : Mem → List Patch → Option Mem
  | m, [] => some m
  | m, p :: ps => (patchIatEntry lower fuel m p).bind fun m' => patchAll lower fuel m' ps

/-! ## The table -/

def ascii (s : String) : AStr := s.toList.flatMap letter

/-- The modules: `GetModuleHandle(NULL)`, `RvROLClient.dll` if it could be loaded, and the hooks' own DLL. -/
structure Modules where
  hExe : Addr
  hOriginalDll : Option Addr
  hSelf : Option Addr

inductive Target where
  | exe
  | exeAndDll
  | exeAndDllAndSelf

def Target.modules (h : Modules) : Target → List Addr
  | exe => [h.hExe]
  | exeAndDll => h.hExe :: h.hOriginalDll.toList
  | exeAndDllAndSelf => h.hExe :: (h.hOriginalDll.toList ++ h.hSelf.toList)

structure HookEntry where
  target : Target
  dll : String
  func : String
  /-- Only if `Real_<func>` is not NULL. -/
  guarded : Bool

def hookTable : List HookEntry :=
  -- inject.c:720-725
  (["CreateFileW", "ReadFile", "WriteFile", "CloseHandle", "DeviceIoControl", "GetOverlappedResult"].map
    fun f => ⟨.exe, "kernel32.dll", f, false⟩) ++
  -- emulate_driver_running.c:5900-5904
  (["QueryServiceStatus", "QueryServiceConfigW", "OpenSCManagerW", "OpenServiceW", "StartServiceW"].map
    fun f => ⟨.exeAndDll, "advapi32.dll", f, false⟩) ++
  -- :5923-5942
  (["RegOpenKeyW", "RegOpenKeyExW", "RegQueryValueExW", "RegCloseKey", "RegCreateKeyExW", "RegSetValueExW",
      "RegDeleteValueW", "RegNotifyChangeKeyValue", "RegCreateKeyW", "RegDeleteKeyW", "RegDeleteKeyExW", "RegEnumKeyW",
      "RegEnumKeyExW", "RegEnumValueW", "RegGetValueW", "RegSetKeySecurity", "RegGetKeySecurity", "RegQueryInfoKeyW",
      "RegDeleteTreeW", "RegCopyTreeW"].map
    fun f => ⟨.exeAndDllAndSelf, "advapi32.dll", f, false⟩) ++
  -- :5953-5956
  (["SetupDiGetClassDevsW", "SetupDiEnumDeviceInfo", "SetupDiGetDeviceRegistryPropertyW"].map
    fun f => ⟨.exeAndDll, "setupapi.dll", f, false⟩) ++
  [⟨.exeAndDll, "ole32.dll", "CoCreateInstance", false⟩] ++
  -- :5961-6000
  (["CreateProcessW", "CreateProcessAsUserW", "ExitProcess", "TerminateProcess", "WaitForSingleObject"].map
    fun f => ⟨.exeAndDll, "kernel32.dll", f, true⟩) ++
  (["GetAdaptersInfo", "GetAdaptersAddresses"].map fun f => ⟨.exeAndDll, "iphlpapi.dll", f, true⟩) ++
  -- `InstallSecurityHooks`
  (["RegSetKeySecurity", "SetSecurityInfo", "InitializeSecurityDescriptor", "InitializeAcl", "GetLengthSid",
      "IsValidSid", "AddAccessAllowedAce", "SetSecurityDescriptorDacl", "SetSecurityDescriptorOwner",
      "IsValidSecurityDescriptor"].map
    fun f => ⟨.exe, "advapi32.dll", f, true⟩)

/-- `hook f` is the address of `Hook_f`, and `real f` says that `Real_f` is not NULL. -/
def HookEntry.patches (hook : AStr → Addr) (real : String → Bool) (h : Modules) (e : HookEntry) : List Patch :=
  if e.guarded && !real e.func then []
  else (e.target.modules h).map fun base => ⟨base, ascii e.dll, ascii e.func, hook (ascii e.func)⟩

def iatPatches (hook : AStr → Addr) (real : String → Bool) (h : Modules) : List Patch :=
  hookTable.flatMap (HookEntry.patches hook real h)

/-! ## The modules in memory -/

/-- The slots of a module, with what they import. -/
def slotsOf (base : Addr) (ds : List Descriptor) : List (Addr × Import) :=
  ds.flatMap fun d => d.imports.mapIdx fun k e => (base + d.firstThunk + 4 * UInt32.ofNat k, e)

def allSlots (mods : List (Addr × List Descriptor)) : List (Addr × Import) := mods.flatMap fun x => slotsOf x.1 x.2

/-- The byte belongs to a slot. -/
def InSlots (mods : List (Addr × List Descriptor)) (b : Addr) : Prop := ∃ x ∈ allSlots mods, b ∈ cover x.1

instance (mods : List (Addr × List Descriptor)) : DecidablePred (InSlots mods) := fun b =>
  inferInstanceAs (Decidable (∃ x ∈ allSlots mods, b ∈ cover x.1))

/-- Two slots share no byte. -/
def Apart (x y : Addr × Import) : Prop := ∀ b ∈ cover x.1, b ∉ cover y.1

instance : DecidableRel Apart := fun x _ => List.decidableBAll _ (cover x.1)

/-- **The modules of a process** as the loader leaves them: the import directories can be read without looking at the
slots, and no two slots share a byte. -/
structure Process (m : Mem) (mods : List (Addr × List Descriptor)) : Prop where
  directory : ∀ x ∈ mods, ImportDirectory (m.off (InSlots mods)) x.1 x.2
  mapped : ∀ x ∈ allSlots mods, (read32 m x.1).isSome
  apart : (allSlots mods).Pairwise Apart
  handles : (mods.map Prod.fst).Nodup

/-- The patch is for this slot. -/
def Patch.Slot (lower : AChar → AChar) (mods : List (Addr × List Descriptor)) (p : Patch) (a : Addr) : Prop :=
  ∃ ds, (p.base, ds) ∈ mods ∧ IsSlot lower p.base ds p.dllName p.funcName a

variable {lower : AChar → AChar} {m m' : Mem} {mods : List (Addr × List Descriptor)} {base a b : Addr}
  {ds : List Descriptor} {dllName funcName : AStr} {d : Descriptor} {e e' : Import} {p : Patch} {ps : List Patch}

/-! ## Directories in two memories -/

theorem ImportAt.mono (h : m.Sub m') {s : Addr × Addr} : ImportAt m base s e → ImportAt m' base s e := by
  cases e with
  | byName rva name => exact fun ⟨hr, hne, hflag, hs⟩ => ⟨h.read32 hr, hne, hflag, h.strAt hs⟩
  | byOrdinal ordinal => exact fun ⟨hr, hflag⟩ => ⟨h.read32 hr, hflag⟩

theorem DescriptorAt.mono (h : m.Sub m') (hd : DescriptorAt m base a d) : DescriptorAt m' base a d where
  originalFirstThunk := ⟨h.read32 hd.originalFirstThunk.1, hd.originalFirstThunk.2⟩
  name := ⟨h.read32 hd.name.1, hd.name.2⟩
  firstThunk := h.read32 hd.firstThunk
  dll := h.strAt hd.dll
  imports := hd.imports.imp (fun _ _ => ImportAt.mono h) fun _ => h.read32
  fits := hd.fits

theorem ImportDirectory.mono (h : m.Sub m') (hdir : ImportDirectory m base ds) : ImportDirectory m' base ds where
  base_ne := hdir.base_ne
  descriptors := by
    obtain ⟨e_lfanew, virtualAddress, hnt, hva, htable⟩ := hdir.descriptors
    exact ⟨e_lfanew, virtualAddress, h.read32 hnt, h.read32 hva,
      htable.imp (fun _ _ => DescriptorAt.mono h) fun _ => h.read32⟩

/-! ## Slots -/

theorem mem_slotsOf : (a, e) ∈ slotsOf base ds ↔
    ∃ d ∈ ds, ∃ k, d.imports[k]? = some e ∧ a = base + d.firstThunk + 4 * UInt32.ofNat k := by
  simp only [slotsOf, List.mem_flatMap, List.mem_mapIdx, Prod.mk.injEq, List.getElem?_eq_some_iff]
  refine exists_congr fun d => and_congr_right fun _ => ?_
  constructor
  · rintro ⟨k, hk, rfl, rfl⟩
    exact ⟨k, ⟨hk, rfl⟩, rfl⟩
  · rintro ⟨k, ⟨hk, rfl⟩, rfl⟩
    exact ⟨k, hk, rfl, rfl⟩

theorem mem_allSlots : (a, e) ∈ allSlots mods ↔ ∃ base ds, (base, ds) ∈ mods ∧ (a, e) ∈ slotsOf base ds := by
  simp only [allSlots, List.mem_flatMap, Prod.exists]

/-- The slot that belongs to a function is that of an import of its name. -/
theorem IsSlot.mem (h : IsSlot lower base ds dllName funcName a) :
    ∃ e, (a, e) ∈ slotsOf base ds ∧ e.Named funcName := by
  obtain ⟨pre, d, post, k, e, rfl, -, hk, hn, -, -, rfl⟩ := h
  exact ⟨e, mem_slotsOf.2 ⟨d, by simp, k, hk, rfl⟩, hn⟩

theorem Patch.Slot.mem (h : p.Slot lower mods a) : ∃ e, (a, e) ∈ allSlots mods ∧ e.Named p.funcName := by
  obtain ⟨ds, hds, hslot⟩ := h
  obtain ⟨e, he, hn⟩ := hslot.mem
  exact ⟨e, mem_allSlots.2 ⟨p.base, ds, hds, he⟩, hn⟩

theorem self_mem_cover (a : Addr) : a ∈ cover a := List.mem_cons_self

theorem Process.separate (hp : Process m mods) {x y : Addr × Import} (hx : x ∈ allSlots mods) (hy : y ∈ allSlots mods)
    (hne : x ≠ y) : ∀ b ∈ cover x.1, b ∉ cover y.1 := by
  have hsymm : Std.Symm Apart := ⟨fun x y hxy b hb hb' => hxy b hb' hb⟩
  exact hp.apart.forall hx hy hne

theorem Process.unique (hp : Process m mods) (h : (a, e) ∈ allSlots mods) (h' : (a, e') ∈ allSlots mods) : e = e' := by
  by_contra hne
  exact hp.separate h h' (fun he => hne (congrArg Prod.snd he)) a (self_mem_cover a) (self_mem_cover a)

/-- A module has its directory in the whole memory, too. -/
theorem Process.module (hp : Process m mods) (h : (base, ds) ∈ mods) : ImportDirectory m base ds :=
  (hp.directory _ h).mono (m.off_sub _)

/-- The slot of a function is the one that is found. -/
theorem isSlot_iff : IsSlot lower base ds dllName funcName a ↔
    ds.findSome? (descriptorFind lower base dllName funcName) = some a := by
  refine ⟨?_, findSome_isSlot⟩
  rintro ⟨pre, d, post, k, e, rfl, hfor, hk, hn, hpre, hfirst, rfl⟩
  refine List.findSome?_eq_some_iff.2 ⟨pre, d, post, rfl, ?_, fun c hc => ?_⟩
  · obtain ⟨hlt, rfl⟩ := List.getElem?_eq_some_iff.1 hk
    rw [descriptorFind, if_pos hfor, Option.map_eq_some_iff]
    refine ⟨k, List.findIdx?_eq_some_iff_getElem.2 ⟨hlt, decide_eq_true hn, fun j hj => ?_⟩, rfl⟩
    simpa using hfirst j hj _ (List.getElem?_eq_getElem (Nat.lt_trans hj hlt))
  · unfold descriptorFind
    split
    · next hcfor =>
      rw [Option.map_eq_none_iff, List.findIdx?_eq_none_iff]
      exact fun x hx => decide_eq_false (hpre c hc hcfor x hx)
    · rfl

/-- Only one slot belongs to a patch. -/
theorem Patch.Slot.unique (hp : Process m mods) (h : p.Slot lower mods a) (h' : p.Slot lower mods b) : a = b := by
  obtain ⟨ds, hds, hslot⟩ := h
  obtain ⟨ds', hds', hslot'⟩ := h'
  obtain rfl : ds = ds' := congrArg Prod.snd (List.inj_on_of_nodup_map hp.handles hds hds' rfl)
  rw [isSlot_iff] at hslot hslot'
  exact Option.some.inj (hslot.symm.trans hslot')

/-! ## One patch -/

/-- **A patch** writes its slot, if it has one, and leaves all other bytes. The modules are still in order then. -/
theorem patchIatEntry_spec (lower : AChar → AChar) (hp : Process m mods) (hmod : p.base ∈ mods.map Prod.fst) :
    ∃ m', (∃ n, ∀ fuel ≥ n, patchIatEntry lower fuel m p = some m') ∧ Process m' mods ∧
      (∀ b, ¬ InSlots mods b → m' b = m b) ∧
      (∀ a, p.Slot lower mods a → read32 m' a = some p.hook) ∧
      ∀ a e, (a, e) ∈ allSlots mods → ¬ p.Slot lower mods a → read32 m' a = read32 m a := by
  obtain ⟨⟨base, ds⟩, hds, hbase⟩ := List.mem_map.1 hmod
  obtain rfl : base = p.base := hbase
  obtain ⟨n, hn⟩ := getIATEntry_eq lower (hp.module hds) p.dllName p.funcName
  cases hfind : ds.findSome? (descriptorFind lower p.base p.dllName p.funcName) with
  | none =>
    have hno : ∀ a, ¬ p.Slot lower mods a := by
      rintro a ⟨ds', hds', hslot⟩
      obtain rfl : ds = ds' := congrArg Prod.snd (List.inj_on_of_nodup_map hp.handles hds hds' rfl)
      rw [isSlot_iff, hfind] at hslot
      cases hslot
    refine ⟨m, ⟨n, fun fuel hf => ?_⟩, hp, fun _ _ => rfl, fun a ha => absurd ha (hno a), fun _ _ _ _ => rfl⟩
    simp [patchIatEntry, hn fuel hf, hfind]
  | some r =>
    have hslot : IsSlot lower p.base ds p.dllName p.funcName r := isSlot_iff.2 hfind
    have hmine : p.Slot lower mods r := ⟨ds, hds, hslot⟩
    obtain ⟨e, he, -⟩ := hmine.mem
    obtain ⟨m', hw, hread, hbytes, hmapped⟩ := write32_spec (hp.mapped _ he) p.hook
    have hout : ∀ b, ¬ InSlots mods b → m' b = m b := fun b hb => hbytes b fun hc => hb ⟨_, he, hc⟩
    refine ⟨m', ⟨n, fun fuel hf => ?_⟩, ⟨?_, ?_, hp.apart, hp.handles⟩, hout, fun a ha => ?_, fun a e' ha hno => ?_⟩
    · simp [patchIatEntry, hn fuel hf, hfind, hslot.ne_zero (hp.module hds), patchIAT, hw]
    · rw [Mem.off_congr hout]
      exact hp.directory
    · exact fun x hx => read32_isSome.2 fun b hb => hmapped b (read32_isSome.1 (hp.mapped x hx) b hb)
    · rw [ha.unique hp hmine, hread]
    · -- another slot has none of the bytes
      have hne : (a, e') ≠ (r, e) := by
        intro heq
        cases heq
        exact hno hmine
      exact read32_congr fun b hb => hbytes b (hp.separate ha he hne b hb)

/-! ## All of them -/

theorem patchAll_spec (lower : AChar → AChar) (hp : Process m mods) (hmod : ∀ p ∈ ps, p.base ∈ mods.map Prod.fst) :
    ∃ m', (∃ n, ∀ fuel ≥ n, patchAll lower fuel m ps = some m') ∧ Process m' mods ∧
      (∀ b, ¬ InSlots mods b → m' b = m b) ∧
      (∀ a, (∃ p ∈ ps, p.Slot lower mods a) → ∃ p ∈ ps, p.Slot lower mods a ∧ read32 m' a = some p.hook) ∧
      ∀ a e, (a, e) ∈ allSlots mods → (∀ p ∈ ps, ¬ p.Slot lower mods a) → read32 m' a = read32 m a := by
  induction ps generalizing m with
  | nil => exact ⟨m, ⟨0, fun _ _ => rfl⟩, hp, fun _ _ => rfl, by simp, fun _ _ _ _ => rfl⟩
  | cons p ps ih =>
    obtain ⟨m₁, ⟨n₁, hn₁⟩, hp₁, hbytes₁, hread₁, hkeep₁⟩ := patchIatEntry_spec lower hp (hmod p (by simp))
    obtain ⟨m₂, ⟨n₂, hn₂⟩, hp₂, hbytes₂, hread₂, hkeep₂⟩ := ih hp₁ fun q hq => hmod q (by simp [hq])
    refine ⟨m₂, ⟨max n₁ n₂, fun fuel hf => ?_⟩, hp₂, fun b hb => (hbytes₂ b hb).trans (hbytes₁ b hb), ?_, ?_⟩
    · rw [patchAll, hn₁ fuel (by omega), Option.bind_some, hn₂ fuel (by omega)]
    · rintro a ⟨q, hq, hslot⟩
      by_cases hlater : ∃ q ∈ ps, q.Slot lower mods a
      · obtain ⟨q', hq', hslot', hread⟩ := hread₂ a hlater
        exact ⟨q', by simp [hq'], hslot', hread⟩
      · rcases List.mem_cons.1 hq with rfl | hq
        · obtain ⟨e, he, -⟩ := hslot.mem
          refine ⟨q, by simp, hslot, ?_⟩
          rw [hkeep₂ a e he fun q' hq' hs => hlater ⟨q', hq', hs⟩, hread₁ a hslot]
        · exact absurd ⟨q, hq, hslot⟩ hlater
    · intro a e he hno
      rw [hkeep₂ a e he fun q hq => hno q (by simp [hq]), hkeep₁ a e he (hno p (by simp))]

theorem hook_of_mem {hook : AStr → Addr} {real : String → Bool} {h : Modules} (hmem : p ∈ iatPatches hook real h) :
    p.hook = hook p.funcName ∧ p.base ∈ h.hExe :: (h.hOriginalDll.toList ++ h.hSelf.toList) := by
  obtain ⟨e, -, he⟩ := List.mem_flatMap.1 hmem
  rw [HookEntry.patches] at he
  split at he
  · cases he
  · obtain ⟨base, hbase, rfl⟩ := List.mem_map.1 he
    refine ⟨rfl, ?_⟩
    cases htarget : e.target with
    | exe | exeAndDll | exeAndDllAndSelf =>
      simp only [htarget, Target.modules, List.mem_cons, List.mem_append, List.not_mem_nil, or_false] at hbase ⊢
      tauto

/-- **All hooks are installed, and nothing else happens**, in a process whose modules are well formed and apart, where
`VirtualProtect` succeeds. After `run_injection` has gone through its table, the slots it is for hold the hook of the
function they import, the other slots of the modules what the loader has put there, and no byte outside the slots has
changed. The bytes of the trampoline and the global of `VariantInit` are not part of it. -/
theorem hooks_installed (lower : AChar → AChar) (hook : AStr → Addr) (real : String → Bool) {h : Modules}
    (hp : Process m mods) (hmods : ∀ base ∈ h.hExe :: (h.hOriginalDll.toList ++ h.hSelf.toList), base ∈ mods.map Prod.fst) :
    ∃ m', (∃ n, ∀ fuel ≥ n, patchAll lower fuel m (iatPatches hook real h) = some m') ∧
      (∀ a e, (a, e) ∈ allSlots mods →
        ((∃ p ∈ iatPatches hook real h, p.Slot lower mods a) →
          ∃ funcName, e.Named funcName ∧ read32 m' a = some (hook funcName)) ∧
        ((∀ p ∈ iatPatches hook real h, ¬ p.Slot lower mods a) → read32 m' a = read32 m a)) ∧
      ∀ b, ¬ InSlots mods b → m' b = m b := by
  obtain ⟨m', hrun, -, hbytes, hread, hkeep⟩ :=
    patchAll_spec lower hp fun p (hmem : p ∈ iatPatches hook real h) => hmods p.base (hook_of_mem hmem).2
  refine ⟨m', hrun, fun a e he => ⟨fun hex => ?_, hkeep a e he⟩, hbytes⟩
  obtain ⟨p, hmem, hslot, hp'⟩ := hread a hex
  obtain ⟨e', he', hn⟩ := hslot.mem
  obtain rfl := hp.unique he he'
  exact ⟨p.funcName, hn, by rw [hp', (hook_of_mem hmem).1]⟩

/-! ## A program -/

/-- One DLL, of which one function is hooked and the other is not. -/
def guiDescriptors : List Descriptor :=
  [⟨0xEC, 0x104, 0xF8, ascii "OLE32.dll", [.byName 0x10E (ascii "CoInitialize"), .byName 0x11D (ascii "CoCreateInstance")]⟩]

def guiBytes : List UInt8 :=
  List.replicate 0x3C 0 ++ word 0x40 ++ List.replicate 0x80 0 ++ word 0xC4 ++
  ([0xEC, 0, 0, 0x104, 0xF8, 0, 0, 0, 0, 0].flatMap word) ++
  ([0x10E, 0x11D, 0, 0x75000010, 0x75000020, 0].flatMap word) ++
  (ascii "OLE32.dll").map Subtype.val ++ [0, 0, 0] ++ (ascii "CoInitialize").map Subtype.val ++ [0, 0, 0] ++
  (ascii "CoCreateInstance").map Subtype.val ++ [0]

def guiImage (a : Addr) : Option UInt8 := if 0x400000 ≤ a then guiBytes[(a - 0x400000).toNat]? else none

theorem guiImage_process : Process guiImage [(0x400000, guiDescriptors)] where
  directory := by
    intro x hx
    obtain rfl := List.mem_singleton.1 hx
    exact ⟨by decide, 0x40, 0xC4, by decide +kernel, by decide +kernel, by decide +kernel⟩
  mapped := by decide +kernel
  apart := by decide +kernel
  handles := by decide +kernel

theorem hooks_installed_guiImage : ∃ m',
    (∃ n, ∀ fuel ≥ n, patchAll asciiLower fuel guiImage
      (iatPatches (fun _ => 0x10001000) (fun _ => true) ⟨0x400000, none, none⟩) = some m') ∧
    read32 m' 0x4000FC = some 0x10001000 ∧ ∀ b, ¬ InSlots [(0x400000, guiDescriptors)] b → m' b = guiImage b := by
  obtain ⟨m', hrun, hslots, hbytes⟩ := hooks_installed asciiLower (fun _ => 0x10001000) (fun _ => true)
    (h := ⟨0x400000, none, none⟩) guiImage_process (by simp)
  have he : (0x4000FC, .byName 0x11D (ascii "CoCreateInstance")) ∈ allSlots [(0x400000, guiDescriptors)] :=
    mem_allSlots.2 ⟨_, _, List.mem_singleton_self _, mem_slotsOf.2 ⟨_, List.mem_singleton_self _, 1, rfl, by decide⟩⟩
  obtain ⟨_, -, hread⟩ := (hslots _ _ he).1 ⟨⟨0x400000, ascii "ole32.dll", ascii "CoCreateInstance", 0x10001000⟩,
    List.mem_flatMap.2 ⟨⟨.exeAndDll, "ole32.dll", "CoCreateInstance", false⟩, by simp [hookTable], by
      simp [HookEntry.patches, Target.modules]⟩,
    guiDescriptors, List.mem_singleton_self _, isSlot_iff.2 (by decide +kernel)⟩
  exact ⟨m', hrun, hread, hbytes⟩

end Rvpn.Iat
