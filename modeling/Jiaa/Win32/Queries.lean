/-
  Jiaa.Win32.Queries — asking a kernel for its processes, and a process for its modules
  (memflow-win32 `win32/kernel.rs`, `win32/process.rs`).

  A list of processes or modules leaves out what cannot be read. A process is looked up by
  its id, or by its name: what the kernel keeps of the name is cut, so a candidate must also
  have a module of the whole name.

  - `moduleEntryList_entries`, `moduleList_gives`: the modules of a process, of any memory;
  - `processInfoPid_gives`: the processes of the ring in order, and the first with an id;
  - `processInfoNamed_gives`: the first with a name and a module of that name, or the panic
    of a name that is cut inside a character.
-/

import Jiaa.Win32.ProcessInfo
import Jiaa.Win32.UnicodeString

namespace Jiaa.Win32

open VirtualMemory

/-! ## Modules of a process -/

structure Win32ModuleInfo where
  pebEntry : Nat
  parentEprocess : Nat
  base : Nat
  size : Nat
  name : String
  deriving DecidableEq, Repr

section Modules

variable {S : Type} [VirtualMemory S] (ws : Widestring) (uninit : Nat → UInt8)

namespace Win32ModuleListInfo

def moduleInfoFromEntry (self : Win32ModuleListInfo) (entry parentEprocess : Nat) (arch : X86Architecture) :
    ReadM S Win32ModuleInfo := do
  let base ← readAddrArch arch (Address.add entry self.ldrDataBaseOffs) uninit
  let size ← readAddrArch arch (Address.add entry self.ldrDataSizeOffs) uninit
  let name ← virtReadUnicodeString ws arch (Address.add entry self.ldrDataNameOffs) uninit
  pure ⟨entry, parentEprocess, base, size, name⟩

end Win32ModuleListInfo

namespace Win32Process

/-- The modules of each list, `process` being the address of the process. -/
def moduleListWithInfosExtend (process : Nat) : List (Win32ModuleListInfo × X86Architecture) → ReadM S (List Win32ModuleInfo)
  | [] => pure []
  | (info, arch) :: infos => do
    let entries ← info.moduleEntryList arch uninit
    let modules ← collectOk (fun peb => info.moduleInfoFromEntry ws uninit peb process arch) entries
    let rest ← moduleListWithInfosExtend process infos
    pure (modules ++ rest)

/-- The native list, and that of a 32-bit process on a larger system. -/
def moduleInfos (procInfo : Win32ProcessInfo) : List (Win32ModuleListInfo × X86Architecture) :=
  (procInfo.moduleInfoNative, procInfo.sysArch) :: (procInfo.moduleInfoWow64.map fun info => (info, procInfo.procArch)).toList

def moduleList (procInfo : Win32ProcessInfo) : ReadM S (List Win32ModuleInfo) :=
  moduleListWithInfosExtend ws uninit procInfo.address (moduleInfos procInfo)

def moduleInfo (procInfo : Win32ProcessInfo) (name : String) : ReadM S Win32ModuleInfo := do
  let modules ← moduleList ws uninit procInfo
  match modules.find? (·.name == name) with
  | some module => pure module
  | none => throw .moduleInfo

end Win32Process

end Modules

/-! ## Processes -/

/-- `Win32Process::with_kernel_ref`: from the address space of the kernel to that of a
    process, through the translator of the kernel, and back. -/
class WithKernelRef (W : Type) (S : outParam Type) where
  withKernelRef : W → Win32ProcessInfo → S
  release : W → S → W

instance {M V : Type} : WithKernelRef (VirtualDMA M V Win32VirtualTranslate) (VirtualDMA M V Win32VirtualTranslate) where
  withKernelRef self procInfo := ⟨self.physMem, self.vat, procInfo.procArch, ⟨procInfo.sysArch, procInfo.dtb⟩⟩
  release self process := { self with physMem := process.physMem, vat := process.vat }

/-- An export, as the `pelite` crate has it. -/
inductive Export where
  | symbol (rva : Nat)
  | forward

namespace Kernel

section Queries

variable {W R S : Type} [VirtualMemory W] [VirtualMemory R] [VirtualMemory S] [ProcessReader W R] [WithKernelRef W S]
variable (self : Kernel) (uninit : Nat → UInt8)

def processInfoList : ReadM W (List Win32ProcessInfo) := do
  let eprocesses ← self.eprocessList uninit
  collectOk (fun eprocess => self.processInfoFromEprocess eprocess uninit) eprocesses

def exitStatusStillActive : Int32 := 259

/-- `getExportByName` is `PeView::from_bytes` and its `get_export_by_name`. -/
def kernelProcessInfo (getExportByName : List UInt8 → String → Except Error Export) : ReadM W Win32ProcessInfo := do
  let image ← orFail fun w => virtReadRaw w self.kernelInfo.kernelBase self.kernelInfo.kernelSize
  match getExportByName image "PsLoadedModuleList" with
  | .error e => throw e
  | .ok .forward => throw (.other "PsLoadedModuleList found but it was a forwarded export")
  | .ok (.symbol s) => do
    let kernelModules ← readAddrArch self.arch (Address.add self.kernelInfo.kernelBase s) uninit
    pure { address := self.kernelInfo.kernelBase, pid := 0, name := "ntoskrnl.exe", dtb := self.sysprocDtb, sectionBase := 0,
           exitStatus := exitStatusStillActive, ethread := 0, wow64 := 0, teb := none, tebWow64 := none, pebNative := 0,
           pebWow64 := none, moduleInfoNative := .withBase kernelModules self.arch, moduleInfoWow64 := none,
           sysArch := self.arch, procArch := self.arch }

def processInfoPid (getExportByName : List UInt8 → String → Except Error Export) (pid : UInt32) : ReadM W Win32ProcessInfo :=
  if 0 < pid then do
    let processes ← self.processInfoList uninit
    match processes.find? (·.pid == pid) with
    | some process => pure process
    | none => throw (.other "pid not found")
  else self.kernelProcessInfo uninit getExportByName

/-- A call for a process, which borrows the kernel. -/
def ofProcess {α : Type} (procInfo : Win32ProcessInfo) (x : ReadM S α) : ReadM W α := fun w =>
  (x (WithKernelRef.withKernelRef w procInfo)).map fun (res, process) => (res, WithKernelRef.release w process)

variable (ws : Widestring) (toLowercase : String → String)

/-- `name[..name.len().min(IMAGE_FILE_NAME_LENGTH - 1)]`. -/
def cutName (name : String) : Option String :=
  (Lib.Text.takeBytes (min (Lib.Text.byteLength name.toList) (imageFileNameLength - 1)) name.toList).map String.ofList

/-- The name is cut for every process it is compared with. -/
def candidates (name : String) : List Win32ProcessInfo → Option (List Win32ProcessInfo)
  | [] => some []
  | process :: processes =>
    (cutName name).bind fun short => (candidates name processes).map fun rest =>
      if toLowercase process.name == toLowercase short then process :: rest else rest

/-- `process_info`. -/
def processInfoNamed (name : String) : ReadM W Win32ProcessInfo := do
  let processes ← self.processInfoList uninit
  let candidates ← (fun w => (candidates toLowercase name processes).map fun found => (.ok found, w) :
    ReadM W (List Win32ProcessInfo))
  let found ← firstM (fun candidate => do
    let modules ← ofProcess candidate (Win32Process.moduleList ws uninit candidate)
    pure (if modules.any fun module => toLowercase module.name == toLowercase name then some candidate else none)) candidates
  match found with
  | some candidate => pure candidate
  | none => throw .processInfo

end Queries

end Kernel

/-! ## What a process has -/

/-- What is read of a counted string, whatever is there. -/
def unicodeStringAt (g : GuestMemory) (arch : X86Architecture) (addr : Nat) : Except Error String :=
  if ¬ g.Mapped addr 2 then .error (.core .partialData)
  else if lengthAt g addr = 0 then .error (.unicode "unable to read unicode string length")
  else if bufferAt g arch addr = 0 then .error (.unicode "unable to read unicode string length")
  else if lengthAt g addr % 2 ≠ 0 then .error (.unicode "unicode string length is not a multiple of two")
  else if g.Mapped (bufferAt g arch addr) (lengthAt g addr + 2) then .ok (decoded g (bufferAt g arch addr) (lengthAt g addr))
  else .error (.core .partialData)

namespace Win32ModuleListInfo

/-- The entries from one on, in at most so many rounds. -/
def entriesFrom (g : GuestMemory) (arch : X86Architecture) (moduleBase : Nat) : Nat → Nat → List Nat
  | 0, _ => []
  | n + 1, e => e :: if EndsWalk moduleBase (g.addrAt arch e) then [] else entriesFrom g arch moduleBase n (g.addrAt arch e)

/-- An entry whose name is read is a module. -/
def moduleOf (g : GuestMemory) (info : Win32ModuleListInfo) (arch : X86Architecture) (process entry : Nat) :
    Except Error Win32ModuleInfo :=
  (unicodeStringAt g arch (Address.add entry info.ldrDataNameOffs)).map fun name =>
    ⟨entry, process, g.addrAt arch (Address.add entry info.ldrDataBaseOffs),
      g.addrAt arch (Address.add entry info.ldrDataSizeOffs), name⟩

/-- The modules of a list. -/
def modules (g : GuestMemory) (info : Win32ModuleListInfo) (arch : X86Architecture) (process : Nat) : List Win32ModuleInfo :=
  (entriesFrom g arch info.moduleBase maxIterCount info.moduleBase).filterMap fun e => (info.moduleOf g arch process e).toOption

end Win32ModuleListInfo

/-- The modules of a process in its address space, the native ones first. -/
def Win32Process.modulesIn (p : GuestMemory) (procInfo : Win32ProcessInfo) : List Win32ModuleInfo :=
  (moduleInfos procInfo).flatMap fun info => info.1.modules p info.2 procInfo.address

section Modules

variable {S : Type} [VirtualMemory S] {g : GuestMemory} {P : S → Prop} {arch : X86Architecture} {ws : Widestring}

theorem gives_unicodeString (hs : Shows g P) (harch : arch.bits = 64 ∨ arch.bits = 32) (hws : ws.Documented) {addr : Nat}
    (haddr : addr < 2 ^ 64) (uninit : Nat → UInt8) :
    Gives P (virtReadUnicodeString ws arch addr uninit) (unicodeStringAt g arch addr) := by
  have hheader := gives_readRawInto hs haddr (show ([0, 0] : List UInt8) ≠ [] by simp)
  unfold unicodeStringAt
  by_cases hm : g.Mapped addr 2
  · rw [if_neg (not_not.mpr hm)]
    have hread : Gives P (readRawInto addr [0, 0]) (.ok (g.read addr 2)) := by simpa [hm] using hheader
    have hlength : leU64 (g.read addr 2) = lengthAt g addr := rfl
    by_cases h0 : lengthAt g addr = 0
    · rw [if_pos h0]
      unfold virtReadUnicodeString
      refine hread.bind ?_
      simp only [hlength, if_pos h0]
      exact .throw _
    · rw [if_neg h0]
      by_cases hodd : lengthAt g addr % 2 = 0
      · have h := virtReadUnicodeString_gives hs harch hws uninit haddr hm h0 hodd
        by_cases hb : bufferAt g arch addr = 0
        · rwa [if_pos hb] at h ⊢
        · rw [if_neg hb] at h ⊢
          rwa [if_neg (not_not.mpr hodd)]
      · unfold virtReadUnicodeString
        refine hread.bind ?_
        simp only [hlength, if_neg h0]
        refine (gives_readBuffer hs harch addr uninit).bind ?_
        split
        · exact .throw _
        · exact .throw _
  · rw [if_pos hm]
    have hfail : Gives P (readRawInto addr [0, 0]) (.error (.core .partialData)) := by simpa [hm] using hheader
    exact hfail.bind_error

namespace Win32ModuleListInfo

theorem moduleEntryLoop_entries (hs : Shows g P) (harch : arch.bits = 64 ∨ arch.bits = 32) (uninit : Nat → UInt8)
    (self : Win32ModuleListInfo) : ∀ (n e : Nat) (list : List Nat), e < 2 ^ 64 →
      Gives P (self.moduleEntryLoop arch uninit n e list) (.ok (list ++ entriesFrom g arch self.moduleBase n e)) := by
  intro n
  induction n with
  | zero =>
    intro e list _
    rw [entriesFrom, List.append_nil]
    exact .pure _
  | succ n ih =>
    intro e list he
    refine (gives_readAddrArch hs harch he uninit).bind ?_
    rw [entriesFrom]
    split
    · exact .pure _
    · have h := ih (g.addrAt arch e) (list ++ [e]) (addrAt_lt g harch e)
      rwa [List.append_assoc, List.singleton_append] at h

theorem moduleEntryList_entries (hs : Shows g P) (harch : arch.bits = 64 ∨ arch.bits = 32) (uninit : Nat → UInt8)
    {self : Win32ModuleListInfo} (hbase : self.moduleBase < 2 ^ 64) :
    Gives P (self.moduleEntryList arch uninit) (.ok (entriesFrom g arch self.moduleBase maxIterCount self.moduleBase)) :=
  moduleEntryLoop_entries hs harch uninit self maxIterCount self.moduleBase [] hbase

theorem gives_moduleInfoFromEntry (hs : Shows g P) (harch : arch.bits = 64 ∨ arch.bits = 32) (hws : ws.Documented)
    (uninit : Nat → UInt8) (self : Win32ModuleListInfo) (entry process : Nat) :
    Gives P (self.moduleInfoFromEntry ws uninit entry process arch) (self.moduleOf g arch process entry) := by
  refine (gives_readAddrArch hs harch (Address.add_lt _ _) uninit).bind ?_
  refine (gives_readAddrArch hs harch (Address.add_lt _ _) uninit).bind ?_
  exact (gives_unicodeString hs harch hws (Address.add_lt _ _) uninit).bind_result fun name _ => .pure _

end Win32ModuleListInfo

/-- The lists are read one after the other. -/
theorem moduleListWithInfos_gives (hs : Shows g P) (hws : ws.Documented) (uninit : Nat → UInt8) (process : Nat) :
    ∀ {infos : List (Win32ModuleListInfo × X86Architecture)},
      (∀ info ∈ infos, (info.2.bits = 64 ∨ info.2.bits = 32) ∧ info.1.moduleBase < 2 ^ 64) →
      Gives P (Win32Process.moduleListWithInfosExtend ws uninit process infos)
        (.ok (infos.flatMap fun info => info.1.modules g info.2 process)) := by
  intro infos
  induction infos with
  | nil => intro _; exact .pure _
  | cons info infos ih =>
    intro h
    obtain ⟨harch, hbase⟩ := h info List.mem_cons_self
    refine (Win32ModuleListInfo.moduleEntryList_entries hs harch uninit hbase).bind ?_
    refine (Gives.collectOk fun e _ => info.1.gives_moduleInfoFromEntry hs harch hws uninit e process).bind ?_
    exact (ih fun i hi => h i (List.mem_cons_of_mem _ hi)).bind (.pure _)

end Modules

/-! ## What a kernel has -/

namespace Kernel

/-- The processes that can be read. -/
def infos (self : Kernel) (g : GuestMemory) (spaces : Nat → GuestMemory) (eprocesses : List Nat) : List Win32ProcessInfo :=
  eprocesses.filterMap fun e =>
    if self.pebNativeAt g e = 0 then none else some (self.processInfo g (spaces (self.dtbAt g e)) e)

/-- In the states of `P` the kernel's address space is `g`, and that of a table base what
    `spaces` has. -/
structure ShowsSystem {W R S : Type} [VirtualMemory W] [VirtualMemory R] [VirtualMemory S] [ProcessReader W R]
    [WithKernelRef W S] (k : Kernel) (g : GuestMemory) (spaces : Nat → GuestMemory) (P : W → Prop) : Prop where
  opened : ∀ procArch dtb, ShowsProcess g (spaces dtb) procArch dtb P
  borrowed : ∀ procInfo : Win32ProcessInfo, procInfo.sysArch = k.arch → ∃ P' : S → Prop, Shows (spaces procInfo.dtb) P' ∧
    (∀ w, P w → P' (WithKernelRef.withKernelRef w procInfo)) ∧ ∀ w s, P w → P' s → P (WithKernelRef.release w s)

theorem ShowsSystem.kernel {W R S : Type} [VirtualMemory W] [VirtualMemory R] [VirtualMemory S] [ProcessReader W R]
    [WithKernelRef W S] {self : Kernel} {g : GuestMemory} {spaces : Nat → GuestMemory} {P : W → Prop}
    (h : self.ShowsSystem g spaces P) : Shows g P := (h.opened self.arch 0).kernel

variable {W R S : Type} [VirtualMemory W] [VirtualMemory R] [VirtualMemory S] [ProcessReader W R] [WithKernelRef W S]
variable {self : Kernel} {g : GuestMemory} {spaces : Nat → GuestMemory} {P : W → Prop} {es : List Nat}

/-- What is listed: every process of the ring that can be read, in order. -/
theorem processInfoList_gives (hs : self.ShowsSystem g spaces P) (harch : self.arch.bits = 64 ∨ self.arch.bits = 32)
    (uninit : Nat → UInt8) (hring : self.ProcessRing g es) (hlen : es.length ≤ maxIterCount + 1) :
    Gives P (self.processInfoList uninit) (.ok (self.infos g spaces (es.dropLast.map self.eprocessOf))) := by
  refine ((eprocessList_gives self uninit g P hs.kernel harch es hring hlen).1).bind ?_
  have hinfos := Gives.collectOk fun e (_ : e ∈ es.dropLast.map self.eprocessOf) =>
    processInfoFromEprocess_gives harch e (hs.opened (self.procArchAt g e) (self.dtbAt g e)) uninit
  unfold infos
  refine (congrArg (fun l => Gives P _ (.ok l)) (List.filterMap_congr fun e _ => ?_)).mp hinfos
  split <;> rfl

/-- The kernel's own: its modules are those of the export. -/
def kernelInfoOf (self : Kernel) (g : GuestMemory) : Except Error Export → Except Error Win32ProcessInfo
  | .error e => .error e
  | .ok .forward => .error (.other "PsLoadedModuleList found but it was a forwarded export")
  | .ok (.symbol s) => .ok
    { address := self.kernelInfo.kernelBase, pid := 0, name := "ntoskrnl.exe", dtb := self.sysprocDtb, sectionBase := 0,
      exitStatus := exitStatusStillActive, ethread := 0, wow64 := 0, teb := none, tebWow64 := none, pebNative := 0,
      pebWow64 := none, moduleInfoNative := .withBase (g.addrAt self.arch (Address.add self.kernelInfo.kernelBase s)) self.arch,
      moduleInfoWow64 := none, sysArch := self.arch, procArch := self.arch }

omit [VirtualMemory R] [VirtualMemory S] [ProcessReader W R] [WithKernelRef W S] in
theorem kernelProcessInfo_gives (hs : Shows g P) (harch : self.arch.bits = 64 ∨ self.arch.bits = 32) (uninit : Nat → UInt8)
    (hbase : self.kernelInfo.kernelBase < 2 ^ 64) (hsize : 0 < self.kernelInfo.kernelSize)
    (getExportByName : List UInt8 → String → Except Error Export) :
    Gives P (self.kernelProcessInfo uninit getExportByName) (self.kernelInfoOf g
      (getExportByName (g.read self.kernelInfo.kernelBase self.kernelInfo.kernelSize) "PsLoadedModuleList")) := by
  have himage : Gives P (orFail fun w => virtReadRaw w self.kernelInfo.kernelBase self.kernelInfo.kernelSize : ReadM W _)
      (.ok (g.read self.kernelInfo.kernelBase self.kernelInfo.kernelSize)) := by
    intro w hw
    obtain ⟨w', hw', hread⟩ := hs.virtReadRaw hw hbase hsize
    exact ⟨w', by simp [orFail, hread, Except.mapError], hw'⟩
  refine himage.bind ?_
  cases getExportByName (g.read self.kernelInfo.kernelBase self.kernelInfo.kernelSize) "PsLoadedModuleList" with
  | error e => exact .throw _
  | ok e =>
    cases e with
    | forward => exact .throw _
    | symbol s => exact (gives_readAddrArch hs harch (Address.add_lt _ _) uninit).bind (.pure _)

/-- No slice of the name ends behind what the kernel keeps of it. -/
theorem cutName_eq_none_iff (name : String) : cutName name = none ↔
    imageFileNameLength - 1 < Lib.Text.byteLength name.toList ∧
      ∀ p rest, name.toList = p ++ rest → Lib.Text.byteLength p ≠ imageFileNameLength - 1 := by
  unfold cutName
  rw [Option.map_eq_none_iff, Option.eq_none_iff_forall_ne_some]
  constructor
  · intro h
    have hlt : imageFileNameLength - 1 < Lib.Text.byteLength name.toList := by
      by_contra hle
      rw [Nat.min_eq_left (Nat.le_of_not_lt hle)] at h
      exact h name.toList (Lib.Text.takeBytes_eq_some_iff.mpr ⟨rfl, [], (List.append_nil _).symm⟩)
    refine ⟨hlt, fun p rest hp hlen => ?_⟩
    rw [Nat.min_eq_right hlt.le] at h
    exact h p (Lib.Text.takeBytes_eq_some_iff.mpr ⟨hlen, rest, hp⟩)
  · rintro ⟨hlt, h⟩ p hp
    rw [Nat.min_eq_right hlt.le] at hp
    obtain ⟨hlen, rest, hrest⟩ := Lib.Text.takeBytes_eq_some_iff.mp hp
    exact h p rest hrest hlen

variable {toLowercase : String → String} {name : String}

theorem candidates_some {short : String} (h : cutName name = some short) (l : List Win32ProcessInfo) :
    candidates toLowercase name l = some (l.filter fun process => toLowercase process.name == toLowercase short) := by
  induction l with
  | nil => rfl
  | cons process l ih =>
    rw [candidates, h, Option.bind_some, ih, Option.map_some, List.filter_cons]

theorem candidates_none (h : cutName name = none) {l : List Win32ProcessInfo} (hl : l ≠ []) :
    candidates toLowercase name l = none := by
  cases l with
  | nil => exact absurd rfl hl
  | cons process l => rw [candidates, h, Option.bind_none]

omit [VirtualMemory R] [ProcessReader W R] [VirtualMemory W] in
theorem gives_ofProcess {α : Type} {procInfo : Win32ProcessInfo} {p : GuestMemory} {x : ReadM S α} {r : Except Error α}
    (hs : ∃ P' : S → Prop, Shows p P' ∧ (∀ w, P w → P' (WithKernelRef.withKernelRef w procInfo)) ∧
      ∀ w s, P w → P' s → P (WithKernelRef.release w s)) (hx : ∀ P' : S → Prop, Shows p P' → Gives P' x r) :
    Gives P (ofProcess procInfo x : ReadM W α) r := by
  obtain ⟨P', hshow, hopen, hclose⟩ := hs
  intro w hw
  obtain ⟨s, hrun, hs'⟩ := hx P' hshow _ (hopen w hw)
  exact ⟨WithKernelRef.release w s, by simp [ofProcess, hrun], hclose w s hw hs'⟩

/-- The lists of a process that is listed are read with a pointer of 32 or 64 bits, from a
    base that is an address. -/
theorem moduleInfos_processInfo (harch : self.arch.bits = 64 ∨ self.arch.bits = 32) (p : GuestMemory) (eprocess : Nat) :
    ∀ info ∈ Win32Process.moduleInfos (self.processInfo g p eprocess),
      (info.2.bits = 64 ∨ info.2.bits = 32) ∧ info.1.moduleBase < 2 ^ 64 := by
  intro info hinfo
  unfold Win32Process.moduleInfos at hinfo
  rcases List.mem_cons.mp hinfo with rfl | hwow
  · exact ⟨harch, addrAt_lt p harch _⟩
  · obtain ⟨native, hnative, rfl⟩ := Option.map_eq_some_iff.mp (Option.mem_toList.mp hwow)
    obtain ⟨peb, -, rfl⟩ := Option.map_eq_some_iff.mp hnative
    exact ⟨procArchAt_bits self g eprocess, addrAt_lt p (procArchAt_bits self g eprocess) _⟩

theorem mem_infos {spaces : Nat → GuestMemory} {l : List Nat} {info : Win32ProcessInfo} (h : info ∈ self.infos g spaces l) :
    ∃ e ∈ l, info = self.processInfo g (spaces (self.dtbAt g e)) e := by
  obtain ⟨e, he, hinfo⟩ := List.mem_filterMap.mp h
  rw [Option.ite_none_left_eq_some, Option.some.injEq] at hinfo
  exact ⟨e, he, hinfo.2.symm⟩

/-- The modules of a process that is listed, in its address space. -/
theorem moduleList_gives (hs : self.ShowsSystem g spaces P) (harch : self.arch.bits = 64 ∨ self.arch.bits = 32)
    (uninit : Nat → UInt8) {ws : Widestring} (hws : ws.Documented) {l : List Nat} {info : Win32ProcessInfo}
    (hinfo : info ∈ self.infos g spaces l) :
    Gives P (ofProcess info (Win32Process.moduleList ws uninit info) : ReadM W _)
      (.ok (Win32Process.modulesIn (spaces info.dtb) info)) := by
  obtain ⟨e, -, rfl⟩ := mem_infos hinfo
  exact gives_ofProcess (hs.borrowed _ rfl) fun P' hp =>
    moduleListWithInfos_gives hp hws uninit _ (moduleInfos_processInfo harch _ e)

/-- The process has the name as the kernel keeps it, and a module of the whole name. -/
def Named (toLowercase : String → String) (spaces : Nat → GuestMemory) (name short : String) (info : Win32ProcessInfo) : Bool :=
  toLowercase info.name == toLowercase short &&
    (Win32Process.modulesIn (spaces info.dtb) info).any fun module => toLowercase module.name == toLowercase name

/-- The first process with the name, when the name is not cut inside a character. -/
theorem processInfoNamed_found (hs : self.ShowsSystem g spaces P) (harch : self.arch.bits = 64 ∨ self.arch.bits = 32)
    (uninit : Nat → UInt8) (hring : self.ProcessRing g es) (hlen : es.length ≤ maxIterCount + 1) {ws : Widestring}
    (hws : ws.Documented) (toLowercase : String → String) {name short : String} (hshort : cutName name = some short) :
    Gives P (self.processInfoNamed uninit ws toLowercase name)
      (match (self.infos g spaces (es.dropLast.map self.eprocessOf)).find? (Named toLowercase spaces name short) with
        | some process => .ok process
        | none => .error .processInfo) := by
  have hlist := processInfoList_gives hs harch uninit hring hlen
  generalize hl : self.infos g spaces (es.dropLast.map self.eprocessOf) = l at hlist
  have hpure : Gives P (fun w => (candidates toLowercase name l).map fun found => (.ok found, w) : ReadM W _)
      (.ok (l.filter fun process => toLowercase process.name == toLowercase short)) := by
    intro w hw
    exact ⟨w, by rw [candidates_some hshort]; rfl, hw⟩
  refine hlist.bind (hpure.bind ?_)
  have hprobe : ∀ candidate ∈ l.filter fun process => toLowercase process.name == toLowercase short,
      Gives P (do
        let modules ← (ofProcess candidate (Win32Process.moduleList ws uninit candidate) : ReadM W _)
        pure (if modules.any fun module => toLowercase module.name == toLowercase name then some candidate else none))
      (.ok (Option.guard (fun info => (Win32Process.modulesIn (spaces info.dtb) info).any
        fun module => toLowercase module.name == toLowercase name) candidate)) := by
    intro candidate hmem
    have hin : candidate ∈ self.infos g spaces (es.dropLast.map self.eprocessOf) := hl ▸ List.mem_of_mem_filter hmem
    exact (moduleList_gives hs harch uninit hws hin).bind (.pure _)
  refine (Gives.firstM hprobe).bind ?_
  have hfirst : ∀ info : Win32ProcessInfo, Named toLowercase spaces name short info =
      decide ((toLowercase info.name == toLowercase short) = true ∧ ((Win32Process.modulesIn (spaces info.dtb) info).any
        fun module => toLowercase module.name == toLowercase name) = true) :=
    fun info => by simp only [Named, Bool.decide_and, Bool.decide_eq_true]
  rw [List.findSome?_guard, List.find?_filter, funext hfirst]
  split
  · exact .pure _
  · exact .throw _

/-- The address spaces of a kernel and, by table base, of its processes. -/
structure GuestKernel where
  kernel : GuestMemory
  spaces : Nat → GuestMemory

instance : VirtualMemory GuestKernel where
  virtReadRawList self data := (virtReadRawList self.kernel data).map fun (kernel, r) => ({ self with kernel }, r)
  virtWriteRawList self data := (virtWriteRawList self.kernel data).map fun (kernel, r) => ({ self with kernel }, r)

instance : ProcessReader GuestKernel GuestMemory where
  processReader self _ dtb := self.spaces dtb
  release self _ := self

instance : WithKernelRef GuestKernel GuestMemory where
  withKernelRef self procInfo := self.spaces procInfo.dtb
  release self _ := self

theorem guestKernel_shows (k : Kernel) (g : GuestMemory) (spaces : Nat → GuestMemory) :
    k.ShowsSystem (W := GuestKernel) g spaces (· = ⟨g, spaces⟩) where
  opened procArch dtb :=
    { kernel := by
        rintro w rfl addr out _ _
        exact ⟨_, rfl, by simp [virtReadRawList, GuestMemory.result]⟩
      process := ⟨_, (spaces dtb).shows, by rintro w rfl; rfl, fun w _ hw _ => hw⟩ }
  borrowed procInfo _ := ⟨_, (spaces procInfo.dtb).shows, by rintro w rfl; rfl, fun w _ hw _ => hw⟩

/-- The ring of `twoProcesses`, whose processes are both called "a.exe". -/
def namedProcesses : GuestMemory :=
  .ofWords [(0x1010, 0x2010), (0x1018, 0x3000), (0x2010, 0x3000), (0x2018, 0x1010), (0x3000, 0x1010), (0x3008, 0x2010),
    (0x1028, 0x7000), (0x1040, 77), (0x1050, 0x6578652e61), (0x1060, 0x5000), (0x1078, 0xa2f8),
    (0x2028, 0x8000), (0x2040, 78), (0x2050, 0x6578652e61), (0x2060, 0x5000), (0x2078, 0xa2f8)]

/-- The second of them has the module. -/
def namedModules (dtb : Nat) : GuestMemory :=
  if dtb = 0x8000 then .ofWords [(0x5018, 0x6000), (0x6010, 0x6100), (0x6100, 0x6010), (0x6130, 0x400000), (0x6140, 0x1000),
    (0x6158, 10), (0x6160, 0x6200), (0x6200, 0x780065002e0061), (0x6208, 0x65)]
  else .ofWords []

theorem namedProcesses_ring : sixtyFour.ProcessRing namedProcesses [0x1010, 0x2010, 0x3000] :=
  ⟨by decide +kernel, by decide +kernel, by decide +kernel, by decide⟩

end Kernel

end Jiaa.Win32
