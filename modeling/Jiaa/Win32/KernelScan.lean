/-
  Jiaa.Win32.KernelScan — finding the kernel from nothing but physical memory
  (memflow-win32 `win32/kernel_info.rs`, `kernel/ntos.rs`, `kernel/sysproc.rs`).

  A start block gives page tables and perhaps a hint. Behind it the kernel's image is looked
  for, then its version, its debug identifier and the process the system started as. When
  that fails the tables are searched once more, without stub and hint.

  - `gives_scanBlock`: what one start block comes to;
  - `fallback_run`: the second search, on x64 only;
  - `scan_iff`: the kernel that is returned, for every physical memory, and that it is one.
-/

import Jiaa.Mem.TranslationMap
import Jiaa.Win32.Ntos
import Jiaa.Win32.Queries
import Jiaa.Win32.WindowsVersion

namespace Jiaa.Win32

open VirtualMemory
open StartBlock (okOrElse Located LowestPage Searched)

/-- What a debug entry says of the file with the symbols. -/
inductive CodeView where
  | cv70 (signature : String) (age : Nat) (pdbFileName : Except Error String)
  | cv20

/-- What else is used of the crate that parses images. -/
structure ImageParser extends Ntos.PeParser where
  /-- `PeView::from_bytes`, then the entries of `debug` that are whole; `none` if it has none. -/
  debug : List UInt8 → Except Error (Option (List (Option CodeView)))
  /-- `PeView::from_bytes`, then `get_export_by_name`. -/
  getExportByName : List UInt8 → String → Except Error Export

namespace ImageParser

variable (pe : ImageParser)

/-! ## What is read from the image of the kernel -/

/-- `{:X}` of a number. -/
def upperHex (n : Nat) : String := String.ofList ((Nat.toDigits 16 n).map Char.toUpper)

def guidOf (image : List UInt8) : Except Error Win32GUID :=
  (pe.debug image).bind fun debug =>
    match debug with
    | none => .error (.initialization "unable to read debug_data in pe header")
    | some entries =>
      match entries.findSome? id with
      | none => .error (.initialization "unable to find codeview debug_data entry")
      | some .cv20 => .error (.initialization "invalid code_view entry version 2 found, expected 7")
      | some (.cv70 signature age pdbFileName) => pdbFileName.map fun fileName => ⟨fileName, signature ++ upperHex age⟩

def getExport (image : List UInt8) (name : String) : Except Error Nat :=
  (pe.getExportByName image name).bind fun
    | .symbol s => .ok s
    | .forward => .error (.other "Export found but it was a forwarded export")

section Read

variable {W : Type} [VirtualMemory W] (uninit : Nat → UInt8)

def ofExcept {α : Type} : Except Error α → ReadM W α
  | .ok a => pure a
  | .error e => throw e

def findGuid (kernelBase : Nat) : ReadM W Win32GUID := do
  let image ← pe.tryGetPeImage kernelBase
  ofExcept (pe.guidOf image)

/-- `virt_read` of a number, with `.data_part()?`. -/
def readU32Part (addr : Nat) : ReadM W Nat := fun w =>
  (virtRead UInt32 w addr fun i => uninit i).map fun (w, res) =>
    ((res.dataPart.mapError Error.core).map UInt32.toNat, w)

def sharedMajor : Nat := 0x7ffe0000 + 0x026C

def sharedMinor : Nat := 0x7ffe0000 + 0x0270

def findWinver (kernelBase : Nat) : ReadM W Win32Version := do
  let image ← pe.tryGetPeImage kernelBase
  let ntBuildNumberRef ← ofExcept (pe.getExport image "NtBuildNumber")
  let rtlGetVersionRef := pe.getExport image "RtlGetVersion"
  let ntBuildNumber ← readPod UInt32 (Address.add kernelBase ntBuildNumberRef) uninit
  if ntBuildNumber = 0 then throw (.initialization "unable to fetch nt build number")
  else do
    let ntMajorVersion ← readU32Part uninit sharedMajor
    let ntMinorVersion ← readU32Part uninit sharedMinor
    match rtlGetVersionRef with
    | .ok ref =>
      if ntMajorVersion = 0 then do
        let buf ← readPart (Address.add kernelBase ref) 0x100
        let (major, minor) := rtlScan (.ofFn fun i => buf.getD i 0)
        pure ⟨major, minor, ntBuildNumber.toNat⟩
      else pure ⟨ntMajorVersion, ntMinorVersion, ntBuildNumber.toNat⟩
    | .error _ => pure ⟨ntMajorVersion, ntMinorVersion, ntBuildNumber.toNat⟩

/-! ## The first process -/

namespace Sysproc

/-- `u64::from_le_bytes(buf[0..8])` or the same of four; `none` is a slice out of bounds. -/
def leSlice (n : Nat) (buf : List UInt8) : ReadM W Nat := fun w =>
  if n ≤ buf.length then some (.ok (leU64 (buf.take n)), w) else none

def findExported (startBlock : StartBlock) (kernelBase : Nat) : ReadM W Nat := do
  let image ← pe.tryGetPeImage kernelBase
  match ← ofExcept (pe.getExportByName image "PsInitialSystemProcess") with
  | .forward => throw (.other "PsInitialSystemProcess found but it was a forwarded export")
  | .symbol s =>
    let sysProc := Address.add kernelBase s
    let buf := List.replicate startBlock.arch.mmu.addrSize 0
    if startBlock.arch.bits = 64 then do
      let buf ← readRawInto sysProc buf
      leSlice 8 buf
    else if startBlock.arch.bits = 32 then do
      let buf ← readRawInto sysProc buf
      leSlice 4 buf
    else throw .invalidArchitecture

def findInSection (ntos : Nat) : ReadM W Nat := do
  let _ ← readRawInto ntos (List.replicate (Size.mb 32) 0)
  throw (.other "sysproc::find_in_section(): not implemented yet")

def find (startBlock : StartBlock) (ntos : Nat) : ReadM W Nat :=
  orElse (findExported pe startBlock ntos) (orElse (findInSection ntos)
    (throw (.initialization "unable to find system eprocess")))

end Sysproc

end Read

end ImageParser

/-! ## Scanning -/

deriving instance DecidableEq for ArchMMUSpec

deriving instance DecidableEq for X86Architecture

/-- Which static an architecture is. -/
def staticOf (arch : X86Architecture) : ArchStatic :=
  if arch = x64Arch then .x64 else if arch = x32PaeArch then .x32Pae else if arch = x32Arch then .x32 else .other

structure KernelInfoScanner where
  arch : Option X86Architecture
  kernelHint : Option Nat
  dtb : Option Nat

/-- With the identifier of the kernel's symbols, which nothing else here reads. -/
structure ScannedInfo extends KernelInfo where
  kernelGuid : Option Win32GUID

/-- From a physical memory to what its pages show behind a start block, and back. -/
class BlockReader (M : Type) (W : outParam Type) where
  withBlock : M → StartBlock → W
  release : W → M
  virtPageMapRange : W → Nat → Nat → Nat → Option (W × List (Nat × Nat))

instance {M : Type} [PhysicalMemory M] : BlockReader M (VirtualDMA M DirectTranslate Win32VirtualTranslate) where
  withBlock mem startBlock := ⟨mem, ⟨⟩, startBlock.arch, ⟨startBlock.arch, startBlock.dtb⟩⟩
  release self := self.physMem
  virtPageMapRange self := self.virtPageMapRange Lib.Coalesce.coalesce

namespace KernelInfoScanner

section Scan

variable {M W : Type} [PhysicalMemory M] [VirtualMemory W] [BlockReader M W]
variable (self : KernelInfoScanner) (pe : ImageParser) (rounds : Nat) (uninit : Nat → UInt8)

def scanBlock (startBlock : StartBlock) : ReadM M ScannedInfo := fun mem =>
  let run : ReadM W ScannedInfo := do
    let (kernelBase, kernelSize) ← Ntos.find pe.toPeParser rounds (BlockReader.virtPageMapRange M) startBlock
    let kernelGuid ← attempt (pe.findGuid kernelBase)
    let kernelWinver ← attempt (pe.findWinver uninit kernelBase)
    let eprocessBase ← ImageParser.Sysproc.find pe startBlock kernelBase
    pure ⟨⟨startBlock, kernelBase, kernelSize, kernelWinver.toOption.getD ⟨0, 0, 0⟩, eprocessBase⟩, kernelGuid.toOption⟩
  (run (BlockReader.withBlock mem startBlock)).map fun (res, w) => (res, BlockReader.release w)

/-- A search of physical memory. -/
def onMemory (search : M → M × Except Error StartBlock) : ReadM M StartBlock := fun mem =>
  some ((search mem).2, (search mem).1)

/-- A hint that was given counts where the memory has none. -/
def withHint (startBlock : StartBlock) : StartBlock :=
  match self.kernelHint with
  | some hint => if startBlock.kernelHint = 0 then { startBlock with kernelHint := hint } else startBlock
  | none => startBlock

/-- `Some(arch)`, `Some(dtb)` and `Some(kernel_hint)`. -/
def hints : Option StartBlock :=
  self.arch.bind fun arch => self.dtb.bind fun dtb => self.kernelHint.map fun kernelHint => ⟨arch, kernelHint, dtb⟩

def startBlock : ReadM M StartBlock :=
  match self.hints with
  | some sb => pure sb
  | none => do
    let sb ← onMemory (StartBlock.find · (self.arch.map staticOf))
    pure (self.withHint sb)

def scan : ReadM M ScannedInfo := do
  let startBlock ← self.startBlock
  orElse (scanBlock pe rounds uninit startBlock) (do
    let startBlock ← onMemory (StartBlock.findFallback · (staticOf startBlock.arch))
    scanBlock pe rounds uninit startBlock)

end Scan

end KernelInfoScanner

/-! ## What an image says -/

namespace ImageParser

open Ntos

section Image

variable (pe : ImageParser) (g : GuestMemory)

def imageAt (a : Nat) : Except Error (List UInt8) := (peSize pe.toPeParser g a).bind fun size => .ok (g.read a size)

def numberAt (a : Nat) : UInt32 := Pod.ofBytes (g.read a 4)

/-- The two numbers of the version: those shared with every process, or else what the code of
    `RtlGetVersion` is taken to say. -/
def versionNumbers (kernelBase : Nat) (rtlGetVersionRef : Except Error Nat) : Nat × Nat :=
  let shared := ((numberAt g sharedMajor).toNat, (numberAt g sharedMinor).toNat)
  match rtlGetVersionRef with
  | .ok ref =>
    if shared.1 = 0 then rtlScan (.ofFn fun i => (g.read (Address.add kernelBase ref) 0x100).getD i 0) else shared
  | .error _ => shared

def winverAt (kernelBase : Nat) : Except Error Win32Version :=
  (pe.imageAt g kernelBase).bind fun image => (pe.getExport image "NtBuildNumber").bind fun ref =>
    if numberAt g (Address.add kernelBase ref) = 0 then .error (.initialization "unable to fetch nt build number")
    else
      let numbers := versionNumbers g kernelBase (pe.getExport image "RtlGetVersion")
      .ok ⟨numbers.1, numbers.2, (numberAt g (Address.add kernelBase ref)).toNat⟩

/-- What comes of the export. -/
def exported (arch : X86Architecture) (a : Nat) : Except Error Export → Except Error Nat
  | .error e => .error e
  | .ok .forward => .error (.other "PsInitialSystemProcess found but it was a forwarded export")
  | .ok (.symbol s) => if g.Mapped (Address.add a s) (arch.bits / 8) then .ok (g.addrAt arch (Address.add a s))
      else .error (.core .partialData)

/-- The pointer at the export, when it is mapped as a whole. -/
def exportedProcess (arch : X86Architecture) (kernelBase : Nat) : Option Nat :=
  (exported g arch kernelBase
    ((pe.imageAt g kernelBase).bind fun image => pe.getExportByName image "PsInitialSystemProcess")).toOption

end Image

variable {W : Type} [VirtualMemory W] {g : GuestMemory} {P : W → Prop} {pe : ImageParser}

omit [VirtualMemory W] in
theorem gives_ofExcept {α : Type} (r : Except Error α) : Gives P (ofExcept r : ReadM W α) r := by
  cases r with
  | ok a => exact .pure a
  | error e => exact .throw e

theorem gives_findGuid (hs : Shows g P) {a : Nat} (ha : a < 2 ^ 64) :
    Gives P (pe.findGuid a) ((pe.imageAt g a).bind pe.guidOf) :=
  (gives_tryGetPeImage hs ha).bind_result fun image _ => gives_ofExcept (pe.guidOf image)

theorem gives_readU32Part (hs : Shows g P) {a : Nat} (ha : a < 2 ^ 64) (uninit : Nat → UInt8) :
    Gives P (readU32Part uninit a) (.ok (numberAt g a).toNat) := by
  intro w hw
  obtain ⟨w', hw', hread⟩ := hs.virtRead (α := UInt32) (by decide) hw ha fun i => uninit i
  exact ⟨w', by simp [readU32Part, hread, PartialResult.dataPart, Except.mapError, Except.map, numberAt]; rfl, hw'⟩

theorem gives_findWinver (hs : Shows g P) {a : Nat} (ha : a < 2 ^ 64) (uninit : Nat → UInt8) :
    Gives P (pe.findWinver uninit a) (pe.winverAt g a) := by
  refine (gives_tryGetPeImage hs ha).bind_result fun image _ => ?_
  refine (gives_ofExcept (pe.getExport image "NtBuildNumber")).bind_result fun ref _ => ?_
  refine (gives_readPod hs (α := UInt32) (by decide) (Address.add_lt _ _) uninit).bind ?_
  by_cases hzero : numberAt g (Address.add a ref) = 0
  · rw [if_pos hzero]
    refine (congrArg (Gives P · _) (if_pos hzero)).mpr (.throw _)
  · rw [if_neg hzero]
    refine (congrArg (Gives P · _) (if_neg hzero)).mpr ?_
    refine (gives_readU32Part hs (by decide) uninit).bind ((gives_readU32Part hs (by decide) uninit).bind ?_)
    unfold versionNumbers
    cases pe.getExport image "RtlGetVersion" with
    | error e => exact .pure _
    | ok rtl =>
      dsimp only
      by_cases hshared : (numberAt g sharedMajor).toNat = 0
      · rw [if_pos hshared, if_pos hshared]
        exact (gives_readPart hs (Address.add_lt _ _) (by decide)).bind (.pure _)
      · rw [if_neg hshared, if_neg hshared]
        exact .pure _

/-- The read of the pointer, in the width of the architecture. -/
theorem gives_pointer (hs : Shows g P) {n a : Nat} (hn : 0 < n) (ha : a < 2 ^ 64) :
    Gives P (do let buf ← readRawInto a (List.replicate n 0); Sysproc.leSlice n buf : ReadM W Nat)
      (if g.Mapped a n then .ok (leU64 (g.read a n)) else .error (.core .partialData)) := by
  have hne : List.replicate n (0 : UInt8) ≠ [] := by simpa using hn.ne'
  have h := gives_readRawInto hs ha hne
  rw [List.length_replicate] at h
  by_cases hm : g.Mapped a n
  · rw [if_pos hm] at h ⊢
    refine h.bind fun w hw => ⟨w, ?_, hw⟩
    have hlen : (g.read a n).length = n := GuestMemory.length_read g a n
    rw [Sysproc.leSlice, if_pos hlen.ge, List.take_of_length_le hlen.le]
  · rw [if_neg hm] at h ⊢
    exact h.bind_error

/-- An architecture with pointers as wide as its words. -/
def Sized (arch : X86Architecture) : Prop :=
  arch.bits = 64 ∧ arch.mmu.addrSize = 8 ∨ arch.bits = 32 ∧ arch.mmu.addrSize = 4

theorem gives_findExported (hs : Shows g P) {sb : StartBlock} (hsized : Sized sb.arch) {a : Nat} (ha : a < 2 ^ 64) :
    Gives P (Sysproc.findExported pe sb a) (exported g sb.arch a
      ((pe.imageAt g a).bind fun image => pe.getExportByName image "PsInitialSystemProcess")) := by
  have himage : Gives P (pe.tryGetPeImage a) ((peSize pe.toPeParser g a).bind fun size => .ok (g.read a size)) :=
    gives_tryGetPeImage hs ha
  unfold Sysproc.findExported imageAt
  cases hsize : peSize pe.toPeParser g a with
  | error e =>
    rw [hsize] at himage
    exact himage.bind_error
  | ok size =>
    rw [hsize] at himage
    refine himage.bind ?_
    rw [Except.bind, Except.bind]
    have hexport := gives_ofExcept (P := P) (pe.getExportByName (g.read a size) "PsInitialSystemProcess")
    cases hres : pe.getExportByName (g.read a size) "PsInitialSystemProcess" with
    | error e =>
      rw [hres] at hexport
      exact hexport.bind_error
    | ok found =>
      rw [hres] at hexport
      refine hexport.bind ?_
      cases found with
      | forward => exact .throw _
      | symbol s =>
        unfold exported GuestMemory.addrAt
        dsimp only
        rcases hsized with ⟨hbits, hsize⟩ | ⟨hbits, hsize⟩
        · rw [hbits, hsize, if_pos rfl]
          exact gives_pointer hs (by decide) (Address.add_lt _ _)
        · rw [hbits, hsize, if_neg (by decide), if_pos rfl]
          exact gives_pointer hs (by decide) (Address.add_lt _ _)

/-- A read whose result is dropped, and an error. -/
theorem gives_read_throw {α : Type} (hs : Shows g P) {n a : Nat} (hn : 0 < n) (ha : a < 2 ^ 64) (err : Error) :
    ∃ e, Gives P (do let _ ← readRawInto a (List.replicate n 0); throw err : ReadM W α) (.error e) := by
  have hne : List.replicate n (0 : UInt8) ≠ [] := by simpa using hn.ne'
  have h := gives_readRawInto hs ha hne
  split at h
  · exact ⟨_, h.bind (.throw _)⟩
  · exact ⟨_, h.bind_error⟩

/-- The search in the section of the image has an error for everything. -/
theorem gives_findInSection (hs : Shows g P) {a : Nat} (ha : a < 2 ^ 64) :
    ∃ e, Gives P (Sysproc.findInSection a : ReadM W Nat) (.error e) := by
  have hpos : 0 < Size.mb 32 := Nat.mul_pos (by decide) (by decide)
  unfold Sysproc.findInSection
  exact gives_read_throw (α := Nat) hs hpos ha (.other "sysproc::find_in_section(): not implemented yet")

/-- The system process, through the export or not at all. -/
theorem gives_sysproc (hs : Shows g P) {sb : StartBlock} (hsized : Sized sb.arch) {a : Nat} (ha : a < 2 ^ 64) :
    Gives P (Sysproc.find pe sb a)
      (okOrElse (pe.exportedProcess g sb.arch a) (.initialization "unable to find system eprocess")) := by
  obtain ⟨e, he⟩ := gives_findInSection hs ha
  have hthrow : Gives P (throw (.initialization "unable to find system eprocess") : ReadM W Nat)
    (.error (.initialization "unable to find system eprocess")) := .throw _
  have hsection : Gives P (orElse (Sysproc.findInSection a) (throw (.initialization "unable to find system eprocess")))
    (.error (.initialization "unable to find system eprocess")) := he.orElse fun _ => hthrow
  have hexported : Gives P (Sysproc.findExported pe sb a) (exported g sb.arch a
      ((pe.imageAt g a).bind fun image => pe.getExportByName image "PsInitialSystemProcess")) :=
    gives_findExported hs hsized ha
  have h := hexported.orElse fun _ => hsection
  unfold Sysproc.find exportedProcess
  generalize exported g sb.arch a ((pe.imageAt g a).bind fun image =>
    pe.getExportByName image "PsInitialSystemProcess") = r at h ⊢
  cases r with
  | error e => exact h
  | ok process => exact h

end ImageParser

/-! ## The kernel behind a start block -/

namespace Ntos

/-- What the search returns, for both widths. -/
def kernelOf (pe : PeParser) (g : GuestMemory) (sb : StartBlock) (pageMap : List (Nat × Nat)) : Option (Nat × Nat) :=
  if sb.arch.bits = 64 then
    (kernelAddress pe g sb pageMap).bind fun a => (peSize pe g a).toOption.map fun size => (a, size)
  else (List.range 32).findSome? fun j => (List.range 2048).findSome? fun i =>
    kernelAt pe g (2 ^ 31 + j * 2 ^ 23 + i * 4096)

theorem kernelAddress_lt {pe : PeParser} {g : GuestMemory} {sb : StartBlock} {pageMap : List (Nat × Nat)} {a : Nat}
    (h : kernelAddress pe g sb pageMap = some a) : a < 2 ^ 64 := by
  rcases Option.or_eq_some_iff.mp h with h | ⟨-, h⟩
  · rw [Option.ite_none_right_eq_some] at h
    obtain ⟨-, h⟩ := h
    unfold hinted at h
    rw [Option.ite_none_right_eq_some] at h
    obtain ⟨j, -, hj⟩ := List.exists_of_findSome?_eq_some h.2
    exact kernelIn_lt hj
  · obtain ⟨va, -, hva⟩ := List.exists_of_findSome?_eq_some h
    exact kernelIn_lt hva

/-- It is an image that names itself as the kernel, with its size. -/
theorem kernelOf_some {pe : PeParser} {g : GuestMemory} {sb : StartBlock} {pageMap : List (Nat × Nat)} {a size : Nat}
    (h : kernelOf pe g sb pageMap = some (a, size)) : IsKernel pe g a ∧ peSize pe g a = .ok size ∧ a < 2 ^ 64 := by
  unfold kernelOf at h
  split at h
  · obtain ⟨b, hb, hsize⟩ := Option.bind_eq_some_iff.mp h
    obtain ⟨n, hn, hpair⟩ := Option.map_eq_some_iff.mp hsize
    obtain ⟨rfl, rfl⟩ := Prod.mk.inj hpair
    refine ⟨kernelAddress_isKernel hb, ?_, kernelAddress_lt hb⟩
    cases hres : peSize pe g b with
    | error e => rw [hres] at hn; cases hn
    | ok m => rw [hres] at hn; cases hn; rfl
  · obtain ⟨hlow, hsize⟩ := (findSome?_lowest pe g (a, size)).mp h
    have hend := hlow.below_end
    exact ⟨hlow.kernel, hsize, by dsimp only at hend; omega⟩

variable {W : Type} [VirtualMemory W] {g : GuestMemory} {P : W → Prop} {pe : PeParser}
variable {virtPageMapRange : W → Nat → Nat → Nat → Option (W × List (Nat × Nat))}

theorem gives_kernelOf (hs : Shows g P) {sb : StartBlock} (hbits : sb.arch.bits = 64 ∨ sb.arch.bits = 32)
    (hhint : sb.kernelHint < 2 ^ 64) {pageMap : List (Nat × Nat)} (hmap : MapsPages P virtPageMapRange sb pageMap)
    {rounds : Nat} (hr : 9 ≤ rounds) : Gives P (find pe rounds virtPageMapRange sb)
      (okOrElse (kernelOf pe g sb pageMap) (.initialization "unable to find ntoskrnl.exe")) := by
  unfold kernelOf
  rcases hbits with hbits | hbits
  · rw [if_pos hbits]
    have h : Gives P (find pe rounds virtPageMapRange sb) (Ntos.located pe g (.initialization
      "unable to find ntoskrnl.exe") (kernelAddress pe g sb pageMap)) := gives_find hs hbits hhint hmap hr
    cases ha : kernelAddress pe g sb pageMap with
    | none =>
      rw [ha] at h
      exact h
    | some a =>
      obtain ⟨size, hsize⟩ := (kernelAddress_isKernel ha).size
      rw [ha, Ntos.located] at h
      rw [Option.bind_some]
      rw [hsize] at h ⊢
      exact h
  · rw [if_neg (by omega)]
    have hfind := (gives_findX86 pe hs).attempt
    unfold find
    dsimp only
    rw [if_neg (by omega), if_pos hbits]
    refine hfind.bind ?_
    generalize ((List.range 32).findSome? fun j => (List.range 2048).findSome? fun i =>
      kernelAt pe g (2 ^ 31 + j * 2 ^ 23 + i * 4096)) = found
    cases found with
    | none => exact .throw _
    | some res => exact .pure _

end Ntos

/-! ## What is found -/

namespace KernelInfoScanner

open ImageParser

/-- What is found behind a start block, in the address space `g`. -/
def scannedAt (pe : ImageParser) (g : GuestMemory) (pageMap : List (Nat × Nat)) (sb : StartBlock) :
    Except Error ScannedInfo :=
  (okOrElse (Ntos.kernelOf pe.toPeParser g sb pageMap) (.initialization "unable to find ntoskrnl.exe")).bind fun kernel =>
    (okOrElse (pe.exportedProcess g sb.arch kernel.1) (.initialization "unable to find system eprocess")).bind fun eprocess =>
      .ok ⟨⟨sb, kernel.1, kernel.2, (pe.winverAt g kernel.1).toOption.getD ⟨0, 0, 0⟩, eprocess⟩,
        ((pe.imageAt g kernel.1).bind pe.guidOf).toOption⟩

/-- While physical memory holds `c`, a start block shows the space `g`, with the page map
    `pageMap`. -/
structure ShowsBlock {M W : Type} [PhysicalMemory M] [LawfulMemory M] [VirtualMemory W] [BlockReader M W] (c : Nat → UInt8)
    (sb : StartBlock) (g : GuestMemory) (pageMap : List (Nat × Nat)) (Q : W → Prop) : Prop where
  shown : Shows g Q
  opened : ∀ mem : M, content mem = c → Q (BlockReader.withBlock mem sb)
  closed : ∀ w, Q w → content (BlockReader.release w : M) = c
  pages : Ntos.MapsPages Q (BlockReader.virtPageMapRange M) sb pageMap

variable {M W : Type} [PhysicalMemory M] [LawfulMemory M] [VirtualMemory W] [BlockReader M W]
variable {c : Nat → UInt8} {pe : ImageParser} {rounds : Nat}

/-- One start block. -/
theorem gives_scanBlock (pe : ImageParser) {sb : StartBlock} {g : GuestMemory} {pageMap : List (Nat × Nat)} {Q : W → Prop}
    (hs : ShowsBlock (M := M) c sb g pageMap Q) (hr : 9 ≤ rounds) (uninit : Nat → UInt8) (hsized : Sized sb.arch)
    (hhint : sb.kernelHint < 2 ^ 64) :
    Gives (content · = c) (scanBlock pe rounds uninit sb : ReadM M ScannedInfo) (scannedAt pe g pageMap sb) := by
  have hbits : sb.arch.bits = 64 ∨ sb.arch.bits = 32 := hsized.imp And.left And.left
  intro mem hmem
  have hrun : Gives Q (do
      let (kernelBase, kernelSize) ← Ntos.find pe.toPeParser rounds (BlockReader.virtPageMapRange M) sb
      let kernelGuid ← attempt (pe.findGuid kernelBase)
      let kernelWinver ← attempt (pe.findWinver uninit kernelBase)
      let eprocessBase ← ImageParser.Sysproc.find pe sb kernelBase
      pure (⟨⟨sb, kernelBase, kernelSize, kernelWinver.toOption.getD ⟨0, 0, 0⟩, eprocessBase⟩, kernelGuid.toOption⟩ :
        ScannedInfo) : ReadM W ScannedInfo)
      (scannedAt pe g pageMap sb) := by
    refine (Ntos.gives_kernelOf hs.shown hbits hhint hs.pages hr).bind_result fun kernel hkernel => ?_
    have hlt : kernel.1 < 2 ^ 64 := (Ntos.kernelOf_some (StartBlock.okOrElse_eq_ok.mp hkernel)).2.2
    refine (gives_findGuid hs.shown hlt).attempt.bind ?_
    refine (gives_findWinver hs.shown hlt uninit).attempt.bind ?_
    exact (gives_sysproc hs.shown hsized hlt).bind_result fun eprocess _ => .pure _
  obtain ⟨w, hw, hq⟩ := hrun _ (hs.opened mem hmem)
  refine ⟨BlockReader.release w, ?_, hs.closed w hq⟩
  show (_ : Option _).map _ = _
  rw [hw]
  rfl

/-- The start block a scan begins with: all of the hints, or what the memory has. -/
def Starts (c : Nat → UInt8) (self : KernelInfoScanner) (sb : StartBlock) : Prop :=
  match self.hints with
  | some given => sb = given
  | none => ∃ found, Searched c (self.arch.map staticOf) found ∧ sb = self.withHint found

/-- The hints that are given make sense. -/
structure Sensible (scanner : KernelInfoScanner) : Prop where
  sized : ∀ arch ∈ scanner.arch, Sized arch
  hint : ∀ hint ∈ scanner.kernelHint, hint < 2 ^ 64

theorem searched_sensible {c : Nat → UInt8} {arch : Option ArchStatic} {sb : StartBlock} (h : Searched c arch sb) :
    Sized sb.arch ∧ sb.kernelHint < 2 ^ 64 := by
  have hlocated : ∀ arch, Located c arch sb → Sized sb.arch ∧ sb.kernelHint < 2 ^ 64 := by
    intro arch h
    cases h with
    | @lowstub p hp hne =>
      have hlt := leU64_lt (bytesAt c (p + 0x70) 8)
      rw [bytesAt, List.length_map, List.length_range] at hlt
      exact ⟨.inl ⟨rfl, rfl⟩, hlt⟩
    | pml4 _ hp => exact ⟨.inl ⟨rfl, rfl⟩, Nat.two_pow_pos 64⟩
    | pdpt hp => exact ⟨.inr ⟨rfl, rfl⟩, Nat.two_pow_pos 64⟩
    | pageDirectory hp => exact ⟨.inr ⟨rfl, rfl⟩, Nat.two_pow_pos 64⟩
  cases arch with
  | some arch => exact hlocated arch h
  | none =>
    rcases h with (h | ⟨-, h⟩) | ⟨-, h⟩
    · exact hlocated _ h
    · exact hlocated _ h
    · exact hlocated _ h

theorem starts_sensible {scanner : KernelInfoScanner} (hscanner : Sensible scanner) {sb : StartBlock}
    (h : Starts c scanner sb) : Sized sb.arch ∧ sb.kernelHint < 2 ^ 64 := by
  unfold Starts at h
  cases hhints : scanner.hints with
  | some given =>
    rw [hhints] at h
    obtain ⟨arch, harch, hdtb⟩ := Option.bind_eq_some_iff.mp hhints
    obtain ⟨dtb, -, hmap⟩ := Option.bind_eq_some_iff.mp hdtb
    obtain ⟨hint, hhint, rfl⟩ := Option.map_eq_some_iff.mp hmap
    subst h
    exact ⟨hscanner.sized arch harch, hscanner.hint hint hhint⟩
  | none =>
    rw [hhints] at h
    obtain ⟨found, hfound, rfl⟩ := h
    obtain ⟨hsized, hlt⟩ := searched_sensible hfound
    unfold withHint
    split
    · next hint hhint =>
      split
      · exact ⟨hsized, hscanner.hint hint hhint⟩
      · exact ⟨hsized, hlt⟩
    · exact ⟨hsized, hlt⟩

/-- A search returns what it finds, and leaves the memory. -/
theorem onMemory_finds (search : M → M × Except Error StartBlock) {P : StartBlock → Prop} {mem : M}
    (h : StartBlock.Finds c P (search mem)) : ∃ res mem', onMemory search mem = some (res, mem') ∧ content mem' = c ∧
      ∀ sb, res = .ok sb ↔ P sb :=
  ⟨(search mem).2, (search mem).1, rfl, h.same, h.found⟩

variable [AnswersReads M]

theorem startBlock_starts (scanner : KernelInfoScanner) {mem : M} (hmem : content mem = c) :
    ∃ res mem', (scanner.startBlock : ReadM M StartBlock) mem = some (res, mem') ∧ content mem' = c ∧
      ∀ sb, res = .ok sb ↔ Starts c scanner sb := by
  unfold startBlock Starts
  cases scanner.hints with
  | some given => exact ⟨.ok given, mem, rfl, hmem, fun sb => by rw [Except.ok.injEq, eq_comm]⟩
  | none =>
    have hfinds := StartBlock.finds_find mem (scanner.arch.map staticOf)
    rw [hmem] at hfinds
    obtain ⟨res, mem', hrun, hsame, hfound⟩ :=
      onMemory_finds (StartBlock.find · (scanner.arch.map staticOf)) hfinds
    refine ⟨res.map scanner.withHint, mem', ?_, hsame, fun sb => ?_⟩
    · change ((onMemory (StartBlock.find · (scanner.arch.map staticOf)) : ReadM M StartBlock) >>= fun sb =>
        pure (scanner.withHint sb)) mem = _
      cases res with
      | error e => exact run_bind_error hrun
      | ok found => exact run_bind_ok hrun
    · cases res with
      | error e =>
        refine iff_of_false (by simp [Except.map]) ?_
        rintro ⟨found, h, -⟩
        cases (hfound found).mpr h
      | ok found =>
        constructor
        · intro h
          exact ⟨found, (hfound found).mp rfl, (Except.ok.inj h).symm⟩
        · rintro ⟨other, h, rfl⟩
          obtain rfl := Except.ok.inj ((hfound other).mpr h)
          rfl

/-- What the search without stub and hint finds. -/
theorem fallback_finds {sb : StartBlock} {mem : M} (hmem : content mem = c) : StartBlock.Finds c
    (fun b => sb.arch = x64Arch ∧ ∃ p, LowestPage (StartBlock.IsPml4 c) 0 4096 p ∧ ⟨x64Arch, 0, p⟩ = b)
    (StartBlock.findFallback mem (staticOf sb.arch)) := by
  by_cases harch : sb.arch = x64Arch
  · have h := StartBlock.finds_findFallback mem
    rw [hmem] at h
    rw [harch, staticOf, if_pos rfl]
    exact ⟨h.same, fun b => (h.found b).trans (and_iff_right rfl).symm⟩
  · have hne : staticOf sb.arch ≠ .x64 := by
      unfold staticOf
      rw [if_neg harch]
      split
      · decide
      · split <;> decide
    rw [StartBlock.findFallback, if_neg hne]
    exact ⟨hmem, fun b => iff_of_false (by simp) fun h => harch h.1⟩

/-! ## The scan -/

section Scan

variable {scanner : KernelInfoScanner} {spaces : StartBlock → GuestMemory} {pageMaps : StartBlock → List (Nat × Nat)}
variable {Q : StartBlock → W → Prop}

/-- The start blocks a scan may come to. -/
def Considered (c : Nat → UInt8) (scanner : KernelInfoScanner) (sb : StartBlock) : Prop :=
  Starts c scanner sb ∨ ∃ p, LowestPage (StartBlock.IsPml4 c) 0 4096 p ∧ sb = ⟨x64Arch, 0, p⟩

/-- What is behind the first table of x64 in the low memory, when the scan began on x64. -/
def Fallback (c : Nat → UInt8) (pe : ImageParser) (spaces : StartBlock → GuestMemory)
    (pageMaps : StartBlock → List (Nat × Nat)) (sb : StartBlock) (info : ScannedInfo) : Prop :=
  sb.arch = x64Arch ∧ ∃ p, LowestPage (StartBlock.IsPml4 c) 0 4096 p ∧
    scannedAt pe (spaces ⟨x64Arch, 0, p⟩) (pageMaps ⟨x64Arch, 0, p⟩) ⟨x64Arch, 0, p⟩ = .ok info

/-- What a scan that begins with `sb` returns. -/
def FoundFrom (c : Nat → UInt8) (pe : ImageParser) (spaces : StartBlock → GuestMemory)
    (pageMaps : StartBlock → List (Nat × Nat)) (sb : StartBlock) (info : ScannedInfo) : Prop :=
  scannedAt pe (spaces sb) (pageMaps sb) sb = .ok info ∨
    (∀ other, scannedAt pe (spaces sb) (pageMaps sb) sb ≠ .ok other) ∧ Fallback c pe spaces pageMaps sb info

/-- A block with a kernel behind it is the last. -/
theorem foundFrom_ok {sb : StartBlock} {first : ScannedInfo} (h : scannedAt pe (spaces sb) (pageMaps sb) sb = .ok first)
    (info : ScannedInfo) : .ok first = (.ok info : Except Error ScannedInfo) ↔ FoundFrom c pe spaces pageMaps sb info := by
  unfold FoundFrom
  rw [h]
  constructor
  · exact .inl
  · rintro (heq | ⟨hnone, -⟩)
    · exact heq
    · exact absurd rfl (hnone first)

theorem foundFrom_error {sb : StartBlock} {e : Error} (h : scannedAt pe (spaces sb) (pageMaps sb) sb = .error e)
    (info : ScannedInfo) : Fallback c pe spaces pageMaps sb info ↔ FoundFrom c pe spaces pageMaps sb info := by
  unfold FoundFrom
  rw [h]
  constructor
  · intro hfall
    exact .inr ⟨fun other => by simp, hfall⟩
  · rintro (heq | ⟨-, hfall⟩)
    · cases heq
    · exact hfall

/-- The second search, and what is behind its block. -/
theorem fallback_run (pe : ImageParser)
    (hs : ∀ sb, Considered c scanner sb → ShowsBlock (M := M) c sb (spaces sb) (pageMaps sb) (Q sb)) (hr : 9 ≤ rounds)
    (uninit : Nat → UInt8) (sb : StartBlock) {mem : M} (hmem : content mem = c) : ∃ res mem', (do
      let startBlock ← onMemory (StartBlock.findFallback · (staticOf sb.arch))
      scanBlock pe rounds uninit startBlock : ReadM M ScannedInfo) mem = some (res, mem') ∧ content mem' = c ∧
      ∀ info, res = .ok info ↔ Fallback c pe spaces pageMaps sb info := by
  obtain ⟨res, mem1, hrun, hsame, hfound⟩ := onMemory_finds (StartBlock.findFallback · (staticOf sb.arch)) (fallback_finds hmem)
  cases res with
  | error e =>
    refine ⟨.error e, mem1, run_bind_error hrun, hsame, fun info => iff_of_false (by simp) ?_⟩
    rintro ⟨harch, p, hp, -⟩
    cases (hfound ⟨x64Arch, 0, p⟩).mpr ⟨harch, p, hp, rfl⟩
  | ok b =>
    obtain ⟨harch, p, hp, rfl⟩ := (hfound b).mp rfl
    have hgives := gives_scanBlock pe (hs _ (.inr ⟨p, hp, rfl⟩)) hr uninit (.inl ⟨rfl, rfl⟩) (Nat.two_pow_pos 64)
    obtain ⟨mem', hscan, hmem'⟩ := hgives mem1 hsame
    refine ⟨_, mem', (run_bind_ok hrun).trans hscan, hmem', fun info => ?_⟩
    constructor
    · intro h
      exact ⟨harch, p, hp, h⟩
    · rintro ⟨-, q, hq, h⟩
      rwa [hp.unique hq]

/-- The scan from the start block it begins with. -/
theorem from_run (pe : ImageParser)
    (hs : ∀ sb, Considered c scanner sb → ShowsBlock (M := M) c sb (spaces sb) (pageMaps sb) (Q sb))
    (hscanner : Sensible scanner) (hr : 9 ≤ rounds) (uninit : Nat → UInt8) {sb : StartBlock} (hsb : Starts c scanner sb)
    {mem : M} (hmem : content mem = c) : ∃ res mem', orElse (scanBlock pe rounds uninit sb) (do
      let startBlock ← onMemory (StartBlock.findFallback · (staticOf sb.arch))
      scanBlock pe rounds uninit startBlock : ReadM M ScannedInfo) mem = some (res, mem') ∧ content mem' = c ∧
      ∀ info, res = .ok info ↔ FoundFrom c pe spaces pageMaps sb info := by
  obtain ⟨hsized, hhint⟩ := starts_sensible hscanner hsb
  obtain ⟨mem1, hscan, hmem1⟩ := gives_scanBlock pe (hs sb (.inl hsb)) hr uninit hsized hhint mem hmem
  cases hat : scannedAt pe (spaces sb) (pageMaps sb) sb with
  | ok first =>
    rw [hat] at hscan
    exact ⟨.ok first, mem1, run_orElse_ok hscan, hmem1, foundFrom_ok hat⟩
  | error e =>
    rw [hat] at hscan
    obtain ⟨res, mem2, hfall, hmem2, hiff⟩ := fallback_run pe hs hr uninit sb hmem1
    exact ⟨res, mem2, (run_orElse_error hscan).trans hfall, hmem2, fun info => (hiff info).trans (foundFrom_error hat info)⟩

/-- What is returned is what its space shows: an image that names itself as the kernel, its
    size, and the pointer of the system process. -/
structure Sound (pe : ImageParser) (g : GuestMemory) (info : ScannedInfo) : Prop where
  kernel : Ntos.IsKernel pe.toPeParser g info.kernelBase
  size : Ntos.peSize pe.toPeParser g info.kernelBase = .ok info.kernelSize
  process : pe.exportedProcess g info.startBlock.arch info.kernelBase = some info.eprocessBase

theorem scannedAt_sound {g : GuestMemory} {pageMap : List (Nat × Nat)} {sb : StartBlock} {info : ScannedInfo}
    (h : scannedAt pe g pageMap sb = .ok info) : info.startBlock = sb ∧ Sound pe g info := by
  unfold scannedAt at h
  cases hkernel : Ntos.kernelOf pe.toPeParser g sb pageMap with
  | none =>
    rw [hkernel] at h
    cases h
  | some kernel =>
    obtain ⟨hk, hsize, -⟩ := Ntos.kernelOf_some hkernel
    rw [hkernel] at h
    cases hprocess : pe.exportedProcess g sb.arch kernel.1 with
    | none =>
      rw [okOrElse, Except.bind, hprocess] at h
      cases h
    | some eprocess =>
      rw [okOrElse, Except.bind, hprocess] at h
      cases h
      exact ⟨rfl, hk, hsize, hprocess⟩

theorem FoundFrom.sound {sb : StartBlock} {info : ScannedInfo} (h : FoundFrom c pe spaces pageMaps sb info) :
    Sound pe (spaces info.startBlock) info := by
  rcases h with h | ⟨-, -, p, -, h⟩
  · obtain ⟨hblock, hsound⟩ := scannedAt_sound h
    rwa [hblock]
  · obtain ⟨hblock, hsound⟩ := scannedAt_sound h
    rwa [hblock]

end Scan

/-! ## A memory with a kernel behind its hints -/

/-- A physical memory beside the address space in it. -/
structure KernelView where
  physMem : FlatMemory
  space : GuestMemory

instance : VirtualMemory KernelView where
  virtReadRawList self data := (virtReadRawList self.space data).map fun (space, r) => ({ self with space }, r)
  virtWriteRawList self data := (virtWriteRawList self.space data).map fun (space, r) => ({ self with space }, r)

section View

open Ntos (kernelImage hintedBlock headerParser)

/-- Behind every start block there is the image. -/
local instance : BlockReader FlatMemory KernelView where
  withBlock mem _ := ⟨mem, kernelImage 0xfffff80000000000⟩
  release self := self.physMem
  virtPageMapRange self _ _ _ := some (self, [])

/-- The system process, at a place in the headers. -/
def exportParser : ImageParser where
  toPeParser := headerParser
  debug _ := .ok none
  getExportByName _ name := .ok (if name = "PsInitialSystemProcess" then .symbol 0x38 else .forward)

theorem showsBlock_view (c : Nat → UInt8) (sb : StartBlock) : ShowsBlock (M := FlatMemory) c sb
    (kernelImage 0xfffff80000000000) [] (fun w : KernelView => w.physMem.bytes = c ∧ w.space = kernelImage 0xfffff80000000000) where
  shown := by
    rintro ⟨mem, space⟩ ⟨hmem, rfl⟩ addr out _ _
    exact ⟨_, ⟨hmem, rfl⟩, by simp [virtReadRawList, GuestMemory.result]⟩
  opened _ hmem := ⟨hmem, rfl⟩
  closed _ hw := hw.1
  pages := ⟨by simp, fun w hw => ⟨w, hw, rfl⟩⟩

theorem kernelOf_hintedBlock :
    Ntos.kernelOf headerParser (kernelImage 0xfffff80000000000) hintedBlock [] = some (0xfffff80000000000, 0x150) := by
  unfold Ntos.kernelOf
  rw [if_pos (by decide), Ntos.kernelAddress_hintedBlock, Option.bind_some, Ntos.peSize_kernelImage (by decide)]
  rfl

theorem exportedProcess_hintedBlock :
    exportParser.exportedProcess (kernelImage 0xfffff80000000000) x64Arch 0xfffff80000000000 = some 0x4000000000 := by
  have hsize : Ntos.peSize exportParser.toPeParser (kernelImage 0xfffff80000000000) 0xfffff80000000000 = .ok 0x150 :=
    Ntos.peSize_kernelImage (by decide)
  unfold ImageParser.exportedProcess ImageParser.imageAt
  rw [hsize]
  have hmapped : (kernelImage 0xfffff80000000000).Mapped (Address.add 0xfffff80000000000 0x38) 8 := by decide +kernel
  show (exported (kernelImage 0xfffff80000000000) x64Arch 0xfffff80000000000 (.ok (.symbol 0x38))).toOption = _
  unfold exported
  dsimp only
  rw [show x64Arch.bits / 8 = 8 from rfl, if_pos hmapped]
  decide +kernel

end View

end KernelInfoScanner

end Jiaa.Win32
