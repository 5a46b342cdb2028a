/-
  Jiaa.Win32.ProcessInfo — what the kernel says of a process
  (memflow-win32 `win32/kernel.rs`, `win32/process.rs`).

  The fields come from about ten reads through the address space of the kernel and, from
  the PEB on, through that of the process. A 32-bit process on a 64-bit system has a TEB
  and a PEB of its own, which are looked for from Windows 6.2 on only.

  - `processInfoFromEprocess_gives`: every field from the two address spaces;
  - `moduleInfo_iff`: when `module_info` does not panic on what is returned;
  - `pebWow64_iff`: when the pointer to the 32-bit PEB is the 32 bits stored there.
-/

import Jiaa.Win32.ModuleList
import Jiaa.Win32.ProcessList

namespace Jiaa.Win32

open VirtualMemory

/-- From the address space of the kernel to that of a process, and back. -/
class ProcessReader (W : Type) (R : outParam Type) where
  processReader : W → X86Architecture → Nat → R
  release : W → R → W

instance {M V : Type} : ProcessReader (VirtualDMA M V Win32VirtualTranslate) (VirtualDMA M DirectTranslate Win32VirtualTranslate) where
  processReader self procArch dtb := ⟨self.physMem, ⟨⟩, procArch, ⟨self.translator.sysArch, dtb⟩⟩
  release self reader := { self with physMem := reader.physMem }

structure Win32ProcessInfo where
  address : Nat
  pid : UInt32
  name : String
  dtb : Nat
  sectionBase : Nat
  exitStatus : Int32
  ethread : Nat
  wow64 : Nat
  teb : Option Nat
  tebWow64 : Option Nat
  pebNative : Nat
  pebWow64 : Option Nat
  moduleInfoNative : Win32ModuleListInfo
  moduleInfoWow64 : Option Win32ModuleListInfo
  sysArch : X86Architecture
  procArch : X86Architecture

/-- `unwrap` panics on `none`. -/
def Win32ProcessInfo.moduleInfo (self : Win32ProcessInfo) : Option Win32ModuleListInfo :=
  if self.wow64 ≠ 0 then self.moduleInfoWow64 else some self.moduleInfoNative

def nonNull (a : Nat) : Option Nat := if a = 0 then none else some a

def imageFileNameLength : Nat := 15

namespace Kernel

/-- `kernel_winver >= (6, 2).into()`. -/
def hasTeb (self : Kernel) : Bool := self.kernelInfo.kernelWinver.cmp (.ofPair (6, 2)) != .lt

section Read

variable {W R : Type} [VirtualMemory W] [VirtualMemory R] [ProcessReader W R]

/-- An offset of a process, with its place in it. -/
def field (eprocess : Nat) (offset : UInt32) : Nat := Address.add eprocess offset.toNat

def readWow64 (self : Kernel) (eprocess : Nat) (uninit : Nat → UInt8) : ReadM W Nat :=
  if self.offsets.eprocWow64 = 0 then pure 0 else readAddrArch self.arch (field eprocess self.offsets.eprocWow64) uninit

def readProcArch (self : Kernel) (wow64 : Nat) : ReadM W X86Architecture :=
  if self.arch.bits = 64 then pure (if wow64 = 0 then x64Arch else x32Arch)
  else if self.arch.bits = 32 then pure x32Arch
  else throw .invalidArchitecture

/-- The TEB and that of a 32-bit process, 0x2000 bytes behind it. -/
def readTebs (self : Kernel) (ethread wow64 : Nat) (uninit : Nat → UInt8) : ReadM W (Option Nat × Option Nat) :=
  if self.hasTeb then do
    let teb ← readAddrArch self.arch (field ethread self.offsets.kthreadTeb) uninit
    if teb = 0 then pure (none, none) else pure (some teb, if wow64 = 0 then none else some (Address.add teb 0x2000))
  else pure (none, none)

/-- The pointer is read with the width of the system. -/
def readPebWow64 (self : Kernel) (tebWow64 : Option Nat) (uninit : Nat → UInt8) : ReadM R (Option Nat) :=
  match tebWow64 with
  | none => pure none
  | some teb => do
    let peb ← readAddrArch self.arch (field teb self.offsets.tebPebX86) uninit
    pure (nonNull peb)

def readModuleInfoWow64 (pebWow64 : Option Nat) (procArch : X86Architecture) (uninit : Nat → UInt8) :
    ReadM R (Option Win32ModuleListInfo) :=
  match pebWow64 with
  | none => pure none
  | some peb => do
    let info ← Win32ModuleListInfo.withPeb peb procArch uninit
    pure (some info)

/-- The rest of a function, in the address space of a process. -/
def inProcess {α : Type} (procArch : X86Architecture) (dtb : Nat) (x : ReadM R α) : ReadM W α := fun w =>
  (x (ProcessReader.processReader w procArch dtb)).map fun (res, reader) => (res, ProcessReader.release w reader)

def processInfoFromEprocess (self : Kernel) (eprocess : Nat) (uninit : Nat → UInt8) : ReadM W Win32ProcessInfo := do
  let pid ← readPod UInt32 (field eprocess self.offsets.eprocPid) uninit
  let name ← readCstr (field eprocess self.offsets.eprocName) imageFileNameLength
  let dtb ← readAddrArch self.arch (field eprocess self.offsets.kprocDtb) uninit
  let wow64 ← self.readWow64 eprocess uninit
  let procArch ← self.readProcArch wow64
  -- the PEB is read twice, and the first value not used
  let _ ← readAddrArch self.arch (field eprocess self.offsets.eprocPeb) uninit
  let sectionBase ← readAddrArch self.arch (field eprocess self.offsets.eprocSectionBase) uninit
  let exitStatus ← readPod Int32 (field eprocess self.offsets.eprocExitStatus) uninit
  let threadList ← readAddrArch self.arch (field eprocess self.offsets.eprocThreadList) uninit
  let ethread := Address.sub threadList self.offsets.ethreadListEntry.toNat
  let pebNative ← readAddrArch self.arch (field eprocess self.offsets.eprocPeb) uninit
  if pebNative = 0 then throw (.other "Could not retrieve peb_native")
  else do
    let tebs ← self.readTebs ethread wow64 uninit
    inProcess procArch dtb do
      let pebWow64 ← self.readPebWow64 tebs.2 uninit
      let moduleInfoNative ← Win32ModuleListInfo.withPeb pebNative self.arch uninit
      let moduleInfoWow64 ← readModuleInfoWow64 pebWow64 procArch uninit
      pure { address := eprocess, pid, name, dtb, sectionBase, exitStatus, ethread, wow64, teb := tebs.1, tebWow64 := tebs.2,
             pebNative, pebWow64, moduleInfoNative, moduleInfoWow64, sysArch := self.arch, procArch }

end Read

/-! ## What the address spaces hold -/

section Seen

variable (self : Kernel) (g p : GuestMemory) (eprocess : Nat)

/-- A pointer in a process. -/
def pointerAt (offset : UInt32) : Nat := g.addrAt self.arch (field eprocess offset)

def wow64At : Nat := if self.offsets.eprocWow64 = 0 then 0 else self.pointerAt g eprocess self.offsets.eprocWow64

def procArchAt : X86Architecture :=
  if self.arch.bits = 64 then (if self.wow64At g eprocess = 0 then x64Arch else x32Arch) else x32Arch

def dtbAt : Nat := self.pointerAt g eprocess self.offsets.kprocDtb

def pebNativeAt : Nat := self.pointerAt g eprocess self.offsets.eprocPeb

def ethreadAt : Nat :=
  Address.sub (self.pointerAt g eprocess self.offsets.eprocThreadList) self.offsets.ethreadListEntry.toNat

def tebAt : Nat := self.pointerAt g (self.ethreadAt g eprocess) self.offsets.kthreadTeb

/-- There is a TEB to be found. -/
def teb : Option Nat := if self.hasTeb then nonNull (self.tebAt g eprocess) else none

def tebWow64 : Option Nat :=
  if self.wow64At g eprocess = 0 then none else (self.teb g eprocess).map fun teb => Address.add teb 0x2000

/-- The place of the pointer to the 32-bit PEB. -/
def pebWow64Field : Nat := field (Address.add (self.tebAt g eprocess) 0x2000) self.offsets.tebPebX86

def pebWow64 : Option Nat :=
  (self.tebWow64 g eprocess).bind fun teb => nonNull (p.addrAt self.arch (field teb self.offsets.tebPebX86))

/-- The list of a PEB, as its loader data has it. -/
def moduleInfoAt (peb : Nat) (arch : X86Architecture) : Win32ModuleListInfo :=
  .withBase (p.addrAt arch (Win32ModuleListInfo.headOfPeb p peb arch)) arch

/-- What is returned for a process with a PEB; `g` is the address space of the kernel and
    `p` that of the process. -/
def processInfo : Win32ProcessInfo where
  address := eprocess
  pid := Pod.ofBytes (g.read (field eprocess self.offsets.eprocPid) 4)
  name := Lib.Text.fromUtf8Lossy
    ((g.read (field eprocess self.offsets.eprocName) imageFileNameLength).takeWhile (· != 0))
  dtb := self.dtbAt g eprocess
  sectionBase := self.pointerAt g eprocess self.offsets.eprocSectionBase
  exitStatus := Pod.ofBytes (g.read (field eprocess self.offsets.eprocExitStatus) 4)
  ethread := self.ethreadAt g eprocess
  wow64 := self.wow64At g eprocess
  teb := self.teb g eprocess
  tebWow64 := self.tebWow64 g eprocess
  pebNative := self.pebNativeAt g eprocess
  pebWow64 := self.pebWow64 g p eprocess
  moduleInfoNative := moduleInfoAt p (self.pebNativeAt g eprocess) self.arch
  moduleInfoWow64 := (self.pebWow64 g p eprocess).map fun peb => moduleInfoAt p peb (self.procArchAt g eprocess)
  sysArch := self.arch
  procArch := self.procArchAt g eprocess

end Seen

/-! ## What is returned -/

variable {W R : Type} [VirtualMemory W] [VirtualMemory R] [ProcessReader W R]

/-- In the states of `P` the kernel's address space is `g`, and that of the process with the
    table `dtb` is `p`. -/
structure ShowsProcess (g p : GuestMemory) (procArch : X86Architecture) (dtb : Nat) (P : W → Prop) : Prop where
  kernel : Shows g P
  process : ∃ P' : R → Prop, Shows p P' ∧ (∀ w, P w → P' (ProcessReader.processReader w procArch dtb)) ∧
    ∀ w r, P w → P' r → P (ProcessReader.release w r)

theorem field_lt (eprocess : Nat) (offset : UInt32) : field eprocess offset < 2 ^ 64 := Address.add_lt _ _

variable {self : Kernel} {g p : GuestMemory} {P : W → Prop} {P' : R → Prop}

theorem gives_readWow64 (hs : Shows g P) (harch : self.arch.bits = 64 ∨ self.arch.bits = 32) (eprocess : Nat)
    (uninit : Nat → UInt8) : Gives P (self.readWow64 eprocess uninit) (.ok (self.wow64At g eprocess)) := by
  unfold readWow64 wow64At
  split
  · exact .pure _
  · exact gives_readAddrArch hs harch (field_lt _ _) uninit

omit [VirtualMemory W] in
theorem gives_readProcArch (harch : self.arch.bits = 64 ∨ self.arch.bits = 32) (g : GuestMemory) (eprocess : Nat) :
    Gives P (self.readProcArch (self.wow64At g eprocess)) (.ok (self.procArchAt g eprocess)) := by
  unfold readProcArch procArchAt
  split
  · exact .pure _
  · next h =>
    rw [if_pos (harch.resolve_left h)]
    exact .pure _

theorem gives_readTebs (hs : Shows g P) (harch : self.arch.bits = 64 ∨ self.arch.bits = 32) (eprocess : Nat)
    (uninit : Nat → UInt8) : Gives P (self.readTebs (self.ethreadAt g eprocess) (self.wow64At g eprocess) uninit)
      (.ok (self.teb g eprocess, self.tebWow64 g eprocess)) := by
  unfold readTebs tebWow64 teb
  split
  · refine (gives_readAddrArch hs harch (field_lt _ _) uninit).bind ?_
    have hteb : g.addrAt self.arch (field (self.ethreadAt g eprocess) self.offsets.kthreadTeb) = self.tebAt g eprocess := rfl
    rw [hteb]
    unfold nonNull
    split
    · simpa using Gives.pure _
    · exact .pure _
  · simpa using Gives.pure _

theorem gives_readPebWow64 (hs : Shows p P') (harch : self.arch.bits = 64 ∨ self.arch.bits = 32) (teb : Option Nat)
    (uninit : Nat → UInt8) : Gives P' (self.readPebWow64 teb uninit)
      (.ok (teb.bind fun teb => nonNull (p.addrAt self.arch (field teb self.offsets.tebPebX86)))) := by
  cases teb with
  | none => exact .pure _
  | some teb => exact (gives_readAddrArch hs harch (field_lt _ _) uninit).bind (.pure _)

theorem gives_readModuleInfoWow64 (hs : Shows p P') {arch : X86Architecture} (harch : arch.bits = 64 ∨ arch.bits = 32)
    (peb : Option Nat) (uninit : Nat → UInt8) :
    Gives P' (readModuleInfoWow64 peb arch uninit) (.ok (peb.map fun peb => moduleInfoAt p peb arch)) := by
  cases peb with
  | none => exact .pure _
  | some peb => exact (Win32ModuleListInfo.withPeb_gives hs harch uninit peb).bind (.pure _)

theorem gives_inProcess {α : Type} {procArch : X86Architecture} {dtb : Nat} (hs : ShowsProcess g p procArch dtb P)
    {x : ReadM R α} {r : Except Error α} (hx : ∀ P' : R → Prop, Shows p P' → Gives P' x r) :
    Gives P (inProcess procArch dtb x) r := by
  obtain ⟨P', hshow, hopen, hclose⟩ := hs.process
  intro w hw
  obtain ⟨r', hrun, hr'⟩ := hx P' hshow _ (hopen w hw)
  exact ⟨ProcessReader.release w r', by simp [inProcess, hrun], hclose w r' hw hr'⟩

theorem procArchAt_bits (self : Kernel) (g : GuestMemory) (eprocess : Nat) :
    (self.procArchAt g eprocess).bits = 64 ∨ (self.procArchAt g eprocess).bits = 32 := by
  unfold procArchAt
  split
  · split
    · exact Or.inl rfl
    · exact Or.inr rfl
  · exact Or.inr rfl

/-- Without a PEB there is no process; otherwise every field is as the address spaces have
    it. -/
theorem processInfoFromEprocess_gives (harch : self.arch.bits = 64 ∨ self.arch.bits = 32) (eprocess : Nat)
    (hs : ShowsProcess g p (self.procArchAt g eprocess) (self.dtbAt g eprocess) P) (uninit : Nat → UInt8) :
    Gives P (self.processInfoFromEprocess eprocess uninit)
      (if self.pebNativeAt g eprocess = 0 then .error (.other "Could not retrieve peb_native")
      else .ok (self.processInfo g p eprocess)) := by
  have hptr : ∀ offset, Gives P (readAddrArch self.arch (field eprocess offset) uninit)
      (.ok (self.pointerAt g eprocess offset)) :=
    fun offset => gives_readAddrArch hs.kernel harch (field_lt _ _) uninit
  unfold processInfoFromEprocess
  refine (gives_readPod hs.kernel (by decide) (field_lt _ _) uninit).bind ?_
  refine (gives_readCstr hs.kernel (field_lt _ _) (by decide)).bind ?_
  refine (hptr _).bind ((gives_readWow64 hs.kernel harch eprocess uninit).bind ?_)
  refine (gives_readProcArch harch g eprocess).bind ((hptr _).bind ((hptr _).bind ?_))
  refine (gives_readPod hs.kernel (by decide) (field_lt _ _) uninit).bind ?_
  refine (hptr _).bind ((hptr _).bind ?_)
  have hpeb : self.pointerAt g eprocess self.offsets.eprocPeb = self.pebNativeAt g eprocess := rfl
  rw [hpeb]
  split
  · exact .throw _
  · refine (gives_readTebs hs.kernel harch eprocess uninit).bind ?_
    refine gives_inProcess hs fun P' hp => ?_
    refine (gives_readPebWow64 hp harch _ uninit).bind ?_
    refine (Win32ModuleListInfo.withPeb_gives hp harch uninit _).bind ?_
    exact (gives_readModuleInfoWow64 hp (procArchAt_bits self g eprocess) _ uninit).bind (.pure _)

/-- What is returned for a process is made of the address spaces. -/
theorem processInfo_of_run (harch : self.arch.bits = 64 ∨ self.arch.bits = 32) {eprocess : Nat}
    (hs : ShowsProcess g p (self.procArchAt g eprocess) (self.dtbAt g eprocess) P) {uninit : Nat → UInt8} {w w' : W}
    (hw : P w) {info : Win32ProcessInfo}
    (hrun : self.processInfoFromEprocess eprocess uninit w = some (.ok info, w')) : self.processInfo g p eprocess = info := by
  have hgives := processInfoFromEprocess_gives harch eprocess hs uninit
  split at hgives
  · obtain ⟨_, hrun', -⟩ := hgives w hw
    rw [hrun] at hrun'
    cases hrun'
  · exact (hgives.ok_iff hw).mp ⟨w', hrun⟩

/-! ## Asking for the modules -/

/-- The process is none of 32 bits on a larger system, or its 32-bit PEB was looked for and
    found. -/
def ModulesKnown (self : Kernel) (g p : GuestMemory) (eprocess : Nat) : Prop :=
  self.wow64At g eprocess = 0 ∨
    self.hasTeb = true ∧ self.tebAt g eprocess ≠ 0 ∧ p.addrAt self.arch (self.pebWow64Field g eprocess) ≠ 0

theorem pebWow64_isSome_iff (self : Kernel) (g p : GuestMemory) (eprocess : Nat) : (self.pebWow64 g p eprocess).isSome ↔
    self.wow64At g eprocess ≠ 0 ∧ self.hasTeb = true ∧ self.tebAt g eprocess ≠ 0 ∧
      p.addrAt self.arch (self.pebWow64Field g eprocess) ≠ 0 := by
  unfold pebWow64 tebWow64 teb
  by_cases hw : self.wow64At g eprocess = 0
  · simp [hw]
  · by_cases hh : self.hasTeb = true
    · by_cases ht : self.tebAt g eprocess = 0
      · simp [hw, hh, ht, nonNull]
      · simp [hw, hh, ht, nonNull, pebWow64Field]
    · simp [hw, hh]

/-- As built, a process that is returned is safe to ask for its modules if and only if they
    are known. -/
theorem moduleInfo_iff (self : Kernel) (harch : self.arch.bits = 64 ∨ self.arch.bits = 32) (eprocess : Nat)
    (g p : GuestMemory) (P : W → Prop) (hs : ShowsProcess g p (self.procArchAt g eprocess) (self.dtbAt g eprocess) P)
    (uninit : Nat → UInt8) (w w' : W) (hw : P w) (info : Win32ProcessInfo)
    (hrun : self.processInfoFromEprocess eprocess uninit w = some (.ok info, w')) :
    ((info.wow64 ≠ 0 → info.moduleInfoWow64.isSome) ↔ self.ModulesKnown g p eprocess) ∧
    (info.moduleInfo.isSome ↔ self.ModulesKnown g p eprocess) := by
  obtain rfl := processInfo_of_run harch hs hw hrun
  have hsome : (self.processInfo g p eprocess).moduleInfoWow64.isSome ↔ (self.pebWow64 g p eprocess).isSome := by
    simp [processInfo]
  have hwow : (self.processInfo g p eprocess).wow64 = self.wow64At g eprocess := rfl
  have hfield : (self.wow64At g eprocess ≠ 0 → (self.pebWow64 g p eprocess).isSome) ↔ self.ModulesKnown g p eprocess := by
    rw [pebWow64_isSome_iff]
    unfold ModulesKnown
    by_cases h0 : self.wow64At g eprocess = 0 <;> simp [h0]
  unfold Win32ProcessInfo.moduleInfo
  rw [hwow]
  refine ⟨by rw [hsome]; exact hfield, Iff.trans ?_ hfield⟩
  by_cases h0 : self.wow64At g eprocess = 0
  · simp [h0]
  · rw [if_pos h0, hsome]
    simp [h0]

/-! ## The pointer to the 32-bit PEB -/

/-- The 32 bits of the pointer, and the 32 bits behind them. -/
def pebWow64Low (self : Kernel) (g p : GuestMemory) (eprocess : Nat) : Nat :=
  leU64 (p.read (self.pebWow64Field g eprocess) 4)

def behindPebWow64 (self : Kernel) (g p : GuestMemory) (eprocess : Nat) : Nat :=
  leU64 (p.read (self.pebWow64Field g eprocess + 4) 4)

/-- The pointer is read together with the 32 bits behind it. -/
theorem addrAt_pebWow64Field {self : Kernel} (harch : self.arch.bits = 64) (g p : GuestMemory) (eprocess : Nat) :
    p.addrAt self.arch (self.pebWow64Field g eprocess) =
      self.pebWow64Low g p eprocess + 2 ^ 32 * self.behindPebWow64 g p eprocess := by
  unfold GuestMemory.addrAt pebWow64Low behindPebWow64
  rw [harch, show 64 / 8 = 4 + 4 from rfl, GuestMemory.read_add, leU64_append, GuestMemory.length_read,
    show 256 ^ 4 = 2 ^ 32 by decide]

/-- A 32-bit process with a TEB. -/
structure HasTebWow64 (k : Kernel) (g : GuestMemory) (eprocess : Nat) : Prop where
  wow64 : k.wow64At g eprocess ≠ 0
  version : k.hasTeb = true
  teb : k.tebAt g eprocess ≠ 0

theorem HasTebWow64.pebWow64_eq {self : Kernel} {g : GuestMemory} {eprocess : Nat} (h : self.HasTebWow64 g eprocess)
    (p : GuestMemory) : self.pebWow64 g p eprocess = nonNull (p.addrAt self.arch (self.pebWow64Field g eprocess)) := by
  unfold pebWow64 tebWow64 Kernel.teb
  have hteb : nonNull (self.tebAt g eprocess) = some (self.tebAt g eprocess) := if_neg h.teb
  rw [if_neg h.wow64, if_pos h.version, hteb]
  rfl

theorem nonNull_inj {a b : Nat} : nonNull a = nonNull b ↔ a = b := by
  unfold nonNull
  split <;> split <;> simp_all
  omega

/-- The pointer is the 32 bits stored there exactly when the next ones are zero. -/
theorem HasTebWow64.pebWow64_low_iff {self : Kernel} {g : GuestMemory} {eprocess : Nat}
    (h : self.HasTebWow64 g eprocess) (harch : self.arch.bits = 64) (p : GuestMemory) :
    self.pebWow64 g p eprocess = nonNull (self.pebWow64Low g p eprocess) ↔ self.behindPebWow64 g p eprocess = 0 := by
  rw [h.pebWow64_eq, addrAt_pebWow64Field harch, nonNull_inj]
  omega

/-- Where both hold zeros, memories that differ behind the pointer only are read alike. -/
theorem addrAt_congr {self : Kernel} {g p q : GuestMemory} {eprocess : Nat}
    (hdiff : ∀ a, (∀ i < 4, a ≠ (self.pebWow64Field g eprocess + 4 + i) % 2 ^ 64) → p.bytes a = q.bytes a)
    (hp : self.behindPebWow64 g p eprocess = 0) (hq : self.behindPebWow64 g q eprocess = 0) : p.addrAt = q.addrAt := by
  have hzero : ∀ m : GuestMemory, self.behindPebWow64 g m eprocess = 0 → ∀ i < 4,
      (m.bytes ((self.pebWow64Field g eprocess + 4 + i) % 2 ^ 64)).getD 0 = 0 := by
    intro m hm i hi
    refine leU64_eq_zero_iff.mp hm _ (List.mem_map.mpr ⟨i, List.mem_range.mpr hi, rfl⟩)
  have hbytes : ∀ a, (p.bytes a).getD 0 = (q.bytes a).getD 0 := by
    intro a
    by_cases ha : ∀ i < 4, a ≠ (self.pebWow64Field g eprocess + 4 + i) % 2 ^ 64
    · rw [hdiff a ha]
    · push Not at ha
      obtain ⟨i, hi, rfl⟩ := ha
      rw [hzero p hp i hi, hzero q hq i hi]
  funext arch a
  unfold GuestMemory.addrAt
  rw [GuestMemory.read_congr hbytes]

/-- As built, on two memories that differ in the 32 bits behind the pointer the 32-bit PEB
    is the stored one and the modules are the same if and only if these bits are zero. -/
theorem pebWow64_iff (self : Kernel) (harch : self.arch.bits = 64) (eprocess : Nat) (g p q : GuestMemory) (P Q : W → Prop)
    (hp : ShowsProcess g p (self.procArchAt g eprocess) (self.dtbAt g eprocess) P)
    (hq : ShowsProcess g q (self.procArchAt g eprocess) (self.dtbAt g eprocess) Q) (h : self.HasTebWow64 g eprocess)
    (hdiff : ∀ a, (∀ i < 4, a ≠ (self.pebWow64Field g eprocess + 4 + i) % 2 ^ 64) → p.bytes a = q.bytes a)
    (uninit : Nat → UInt8) (v v' w w' : W) (hv : P v) (hw : Q w) (infoP infoQ : Win32ProcessInfo)
    (hrunP : self.processInfoFromEprocess eprocess uninit v = some (.ok infoP, v'))
    (hrunQ : self.processInfoFromEprocess eprocess uninit w = some (.ok infoQ, w')) :
    (infoP.pebWow64 = nonNull (self.pebWow64Low g p eprocess) ∧ infoQ.pebWow64 = nonNull (self.pebWow64Low g q eprocess) ∧
      infoP.pebWow64 = infoQ.pebWow64 ∧ infoP.moduleInfoWow64 = infoQ.moduleInfoWow64) ↔
    self.behindPebWow64 g p eprocess = 0 ∧ self.behindPebWow64 g q eprocess = 0 := by
  obtain rfl := processInfo_of_run (Or.inl harch) hp hv hrunP
  obtain rfl := processInfo_of_run (Or.inl harch) hq hw hrunQ
  constructor
  · rintro ⟨h1, h2, -, -⟩
    exact ⟨(h.pebWow64_low_iff harch p).mp h1, (h.pebWow64_low_iff harch q).mp h2⟩
  · intro ⟨h1, h2⟩
    have haddr := addrAt_congr hdiff h1 h2
    have hpeb : self.pebWow64 g p eprocess = self.pebWow64 g q eprocess := by rw [h.pebWow64_eq, h.pebWow64_eq, haddr]
    refine ⟨(h.pebWow64_low_iff harch p).mpr h1, (h.pebWow64_low_iff harch q).mpr h2, hpeb, ?_⟩
    show (self.pebWow64 g p eprocess).map _ = (self.pebWow64 g q eprocess).map _
    rw [hpeb]
    unfold moduleInfoAt Win32ModuleListInfo.headOfPeb
    rw [haddr]

/-! ## A kernel with one process -/

/-- The address spaces of the kernel and of its process. -/
structure GuestSystem where
  kernel : GuestMemory
  process : GuestMemory

instance : VirtualMemory GuestSystem where
  virtReadRawList self data := (virtReadRawList self.kernel data).map fun (kernel, r) => ({ self with kernel }, r)
  virtWriteRawList self data := (virtWriteRawList self.kernel data).map fun (kernel, r) => ({ self with kernel }, r)

instance : ProcessReader GuestSystem GuestMemory where
  processReader self _ _ := self.process
  release self reader := { self with process := reader }

theorem guestSystem_shows (g p : GuestMemory) (procArch : X86Architecture) (dtb : Nat) :
    ShowsProcess (W := GuestSystem) g p procArch dtb (· = ⟨g, p⟩) where
  kernel := by
    rintro w rfl addr out _ _
    exact ⟨_, rfl, by simp [virtReadRawList, GuestMemory.result]⟩
  process := by
    refine ⟨_, p.shows, ?_, ?_⟩
    · rintro w rfl
      rfl
    · rintro w r rfl rfl
      rfl

/-- A process of the kernel `sixtyFour` at 0x8000, with the wow64 pointer set. -/
def wow64Process : GuestMemory :=
  .ofWords [(0x8028, 0x2000), (0x8040, 77), (0x8050, 0x6578652e61), (0x8060, 0x7000), (0x8078, 0xa2f8), (0x8080, 0x9000),
    (0xa0f0, 0x5000)]

/-- Its 32-bit TEB at 0x7000, with the PEB at 0x4000 and `behind` behind the pointer. -/
def wow64Teb (behind : Nat) : GuestMemory := .ofWords [(0x7030, 0x4000 + 2 ^ 32 * behind), (0x400c, 0x6000), (0x600c, 0x6100)]

theorem moduleInfo_iff_known : ∃ info w', sixtyFour.processInfoFromEprocess 0x8000 (fun _ => 0)
      (⟨wow64Process, wow64Teb 0⟩ : GuestSystem) = some (.ok info, w') ∧
    ((info.wow64 ≠ 0 → info.moduleInfoWow64.isSome) ↔ sixtyFour.ModulesKnown wow64Process (wow64Teb 0) 0x8000) ∧
    (info.moduleInfo.isSome ↔ sixtyFour.ModulesKnown wow64Process (wow64Teb 0) 0x8000) := by
  have hs := guestSystem_shows wow64Process (wow64Teb 0) (sixtyFour.procArchAt wow64Process 0x8000)
    (sixtyFour.dtbAt wow64Process 0x8000)
  obtain ⟨w', hrun, -⟩ := processInfoFromEprocess_gives (by decide) 0x8000 hs (fun _ => 0) _ rfl
  rw [if_neg (by decide +kernel)] at hrun
  exact ⟨_, w', hrun, moduleInfo_iff sixtyFour (by decide) 0x8000 wow64Process (wow64Teb 0) _ hs (fun _ => 0) _ w' rfl _ hrun⟩

/-- The same kernel, of Windows 6.1. -/
def sixtyOne : Kernel := { sixtyFour with kernelInfo := { sixtyFour.kernelInfo with kernelWinver := ⟨6, 1, 7601⟩ } }

/-- A 32-bit process is returned that panics when asked for its modules. -/
theorem wow64_not_queried : (sixtyOne.processInfoFromEprocess 0x8000 (fun _ => 0)
      (⟨wow64Process, wow64Teb 0⟩ : GuestSystem)).map
        (fun r => r.1.map fun info => (info.wow64, info.moduleInfoWow64.isSome, info.moduleInfo.isSome)) =
    some (.ok (0x9000, false, false)) := by
  decide +kernel

/-- The 32-bit TEB where nothing is mapped behind the pointer. -/
def wow64TebEnd : GuestMemory := ⟨fun a => if 0x7034 ≤ a ∧ a < 0x7038 then none else (wow64Teb 0).bytes a⟩

theorem wow64Process_hasTeb : sixtyFour.HasTebWow64 wow64Process 0x8000 :=
  ⟨by decide +kernel, by decide, by decide +kernel⟩

theorem wow64Process_field : sixtyFour.pebWow64Field wow64Process 0x8000 = 0x7030 := by decide +kernel

theorem pebWow64_iff_zero : ∃ infoP infoQ v' w',
    sixtyFour.processInfoFromEprocess 0x8000 (fun _ => 0) (⟨wow64Process, wow64Teb 0⟩ : GuestSystem) = some (.ok infoP, v') ∧
    sixtyFour.processInfoFromEprocess 0x8000 (fun _ => 0) (⟨wow64Process, wow64TebEnd⟩ : GuestSystem) = some (.ok infoQ, w') ∧
    ((infoP.pebWow64 = nonNull (sixtyFour.pebWow64Low wow64Process (wow64Teb 0) 0x8000) ∧
      infoQ.pebWow64 = nonNull (sixtyFour.pebWow64Low wow64Process wow64TebEnd 0x8000) ∧
      infoP.pebWow64 = infoQ.pebWow64 ∧ infoP.moduleInfoWow64 = infoQ.moduleInfoWow64) ↔
    sixtyFour.behindPebWow64 wow64Process (wow64Teb 0) 0x8000 = 0 ∧
      sixtyFour.behindPebWow64 wow64Process wow64TebEnd 0x8000 = 0) := by
  have hs := fun p => guestSystem_shows wow64Process p (sixtyFour.procArchAt wow64Process 0x8000)
    (sixtyFour.dtbAt wow64Process 0x8000)
  have hrun : ∀ p, ∃ w', sixtyFour.processInfoFromEprocess 0x8000 (fun _ => 0) (⟨wow64Process, p⟩ : GuestSystem) =
      some (.ok (sixtyFour.processInfo wow64Process p 0x8000), w') := by
    intro p
    obtain ⟨w', hrun, -⟩ := processInfoFromEprocess_gives (by decide) 0x8000 (hs p) (fun _ => 0) _ rfl
    rw [if_neg (by decide +kernel)] at hrun
    exact ⟨w', hrun⟩
  obtain ⟨v', hv⟩ := hrun (wow64Teb 0)
  obtain ⟨w', hw⟩ := hrun wow64TebEnd
  refine ⟨_, _, v', w', hv, hw, pebWow64_iff sixtyFour rfl 0x8000 wow64Process (wow64Teb 0) wow64TebEnd _ _ (hs _) (hs _)
    wow64Process_hasTeb (fun a ha => ?_) (fun _ => 0) _ v' _ w' rfl rfl _ _ hv hw⟩
  refine (if_neg fun hin => ?_).symm
  refine ha (a - 0x7034) (by omega) ?_
  rw [wow64Process_field]
  omega

/-- One bit behind the pointer leads to another PEB and other modules. -/
theorem neighbour_leaks : sixtyFour.HasTebWow64 wow64Process 0x8000 ∧
    sixtyFour.pebWow64Low wow64Process (wow64Teb 1) 0x8000 = 0x4000 ∧
    (sixtyFour.processInfoFromEprocess 0x8000 (fun _ => 0) (⟨wow64Process, wow64Teb 0⟩ : GuestSystem)).map
      (fun r => r.1.map fun info => (info.pebWow64, info.moduleInfoWow64.map (·.moduleBase))) =
        some (.ok (some 0x4000, some 0x6100)) ∧
    (sixtyFour.processInfoFromEprocess 0x8000 (fun _ => 0) (⟨wow64Process, wow64Teb 1⟩ : GuestSystem)).map
      (fun r => r.1.map fun info => (info.pebWow64, info.moduleInfoWow64.map (·.moduleBase))) =
        some (.ok (some 0x100004000, some 0)) :=
  ⟨wow64Process_hasTeb, by decide +kernel, by decide +kernel, by decide +kernel⟩

end Kernel

end Jiaa.Win32
