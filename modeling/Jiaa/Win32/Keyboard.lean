/-
  Jiaa.Win32.Keyboard — the keyboard of the guest (memflow-win32 `win32/keyboard.rs`).

  Windows keeps two bits a key in an array that `win32kbase.sys` exports. The module is found
  through the kernel, the array is read through a process into which it is mapped.

  - `keyboard_gives`: where the array is found, or the error;
  - `keyboard_isDown`: a key is down if the first of its bits is set when the state is taken;
    the key behind the last is a panic.
-/

import Mathlib.Data.Nat.Bitwise
import Jiaa.Win32.Queries

namespace Jiaa.Win32

structure Keyboard where
  userProcessInfo : Win32ProcessInfo
  keyStateAddr : Nat

/-- `256 * 2 / 8` bytes. -/
structure KeyboardState where
  buffer : Vector UInt8 64

instance : Pod (Vector UInt8 64) := ⟨64, fun l => .ofFn fun i => l.getD i 0⟩

namespace KeyboardState

def getKsByte (vk : Nat) : Nat := vk * 2 / 8

def getKsDownBit (vk : Nat) : UInt8 := 1 <<< UInt8.ofNat (vk % 4 * 2)

/-- `none` is the panic of an index out of bounds. -/
def isDown (self : KeyboardState) (vk : Int) : Option Bool :=
  if vk < 0 ∨ vk > 256 then some false
  else self.buffer[getKsByte vk.toNat]?.map fun byte => byte &&& getKsDownBit vk.toNat != 0

end KeyboardState

namespace Kernel

variable {W R S : Type} [VirtualMemory W] [VirtualMemory R] [VirtualMemory S] [ProcessReader W R] [WithKernelRef W S]

section Defs

variable (self : Kernel) (uninit : Nat → UInt8) (ws : Widestring) (toLowercase : String → String)
variable (getExportByName : List UInt8 → String → Except Error Export)

/-- `Keyboard::try_with`. -/
def keyboard : ReadM W Keyboard := do
  let kernelProcessInfo ← self.kernelProcessInfo uninit getExportByName
  let win32kbase ← ofProcess kernelProcessInfo (Win32Process.moduleInfo ws uninit kernelProcessInfo "win32kbase.sys")
  let userProcessInfo ← orElse (self.processInfoNamed uninit ws toLowercase "winlogon.exe")
    (self.processInfoNamed uninit ws toLowercase "wininit.exe")
  let moduleBuf ← ofProcess userProcessInfo (readRawPart win32kbase.base win32kbase.size)
  match getExportByName moduleBuf "gafAsyncKeyState" with
  | .error e => throw e
  | .ok .forward => throw (.other "export gafAsyncKeyState found but it is forwarded")
  | .ok (.symbol s) => pure ⟨userProcessInfo, Address.add win32kbase.base s⟩

end Defs

end Kernel

namespace Keyboard

def state {S : Type} [VirtualMemory S] (self : Keyboard) (uninit : Nat → UInt8) : ReadM S KeyboardState := do
  let buffer ← readPod (Vector UInt8 64) self.keyStateAddr uninit
  pure ⟨buffer⟩

def stateWithKernel {W S : Type} [VirtualMemory S] [WithKernelRef W S] (self : Keyboard) (uninit : Nat → UInt8) :
    ReadM W KeyboardState :=
  Kernel.ofProcess self.userProcessInfo (self.state uninit)

end Keyboard

/-! ## The bits of a key -/

namespace KeyboardState

theorem getKsDownBit_toNat (vk : Nat) : (getKsDownBit vk).toNat = 2 ^ (vk % 4 * 2) := by
  have hbits : ∀ i < 4, ((1 : UInt8) <<< UInt8.ofNat (i * 2)).toNat = 2 ^ (i * 2) := by decide
  exact hbits _ (Nat.mod_lt _ (by decide))

theorem down_bit (byte : UInt8) (vk : Nat) : (byte &&& getKsDownBit vk != 0) = byte.toNat.testBit (vk % 4 * 2) := by
  have hne : byte &&& getKsDownBit vk = 0 ↔ byte.toNat.testBit (vk % 4 * 2) = false := by
    rw [← UInt8.toNat_inj, UInt8.toNat_and, getKsDownBit_toNat, Nat.and_two_pow]
    cases byte.toNat.testBit (vk % 4 * 2) <;> simp
  rw [Bool.eq_iff_iff, bne_iff_ne, ne_eq, hne, Bool.not_eq_false]

/-- Whether a key is down, for every number: of no key, of one, and the one behind the last. -/
theorem isDown_ofBytes (bytes : List UInt8) (vk : Int) : isDown ⟨Pod.ofBytes bytes⟩ vk =
    if 0 ≤ vk ∧ vk < 256 then some (((bytes.getD (vk.toNat / 4) 0).toNat).testBit (vk.toNat % 4 * 2))
    else if vk = 256 then none else some false := by
  unfold isDown
  by_cases hout : vk < 0 ∨ vk > 256
  · rw [if_pos hout, if_neg (by omega), if_neg (by omega)]
  · have hbyte : getKsByte vk.toNat = vk.toNat / 4 := by
      unfold getKsByte
      omega
    rw [if_neg hout, hbyte]
    by_cases hlast : vk = 256
    · subst hlast
      rfl
    · have hlt : vk.toNat / 4 < 64 := by omega
      rw [if_pos (by omega), Vector.getElem?_eq_getElem hlt, Option.map_some, down_bit]
      simp [Pod.ofBytes]

end KeyboardState

/-! ## The array of the guest -/

namespace Kernel

/-- The modules of the kernel, once the export with their list was found. -/
def kernelModule (self : Kernel) (g : GuestMemory) (spaces : Nat → GuestMemory)
    (getExportByName : List UInt8 → String → Except Error Export) (name : String) : Except Error Win32ModuleInfo :=
  (self.kernelInfoOf g (getExportByName (g.read self.kernelInfo.kernelBase self.kernelInfo.kernelSize)
    "PsLoadedModuleList")).bind fun info =>
      ((Win32Process.modulesIn (spaces info.dtb) info).find? (·.name == name)).elim (.error .moduleInfo) .ok

/-- The process the array is read through. -/
def keyboardProcess (toLowercase : String → String) (spaces : Nat → GuestMemory) (processes : List Win32ProcessInfo) :
    Except Error Win32ProcessInfo :=
  match (processes.find? (Named toLowercase spaces "winlogon.exe" "winlogon.exe")).or
      (processes.find? (Named toLowercase spaces "wininit.exe" "wininit.exe")) with
  | some user => .ok user
  | none => .error .processInfo

/-- Where the array lies. -/
def keyboardExport (win32kbase : Win32ModuleInfo) (user : Win32ProcessInfo) : Except Error Export → Except Error Keyboard
  | .error e => .error e
  | .ok .forward => .error (.other "export gafAsyncKeyState found but it is forwarded")
  | .ok (.symbol s) => .ok ⟨user, Address.add win32kbase.base s⟩

def keyboardOf (self : Kernel) (g : GuestMemory) (spaces : Nat → GuestMemory) (toLowercase : String → String)
    (getExportByName : List UInt8 → String → Except Error Export) (processes : List Win32ProcessInfo) :
    Except Error Keyboard :=
  (self.kernelModule g spaces getExportByName "win32kbase.sys").bind fun win32kbase =>
    (keyboardProcess toLowercase spaces processes).bind fun user =>
      keyboardExport win32kbase user
        (getExportByName ((spaces user.dtb).read win32kbase.base win32kbase.size) "gafAsyncKeyState")

variable {W R S : Type} [VirtualMemory W] [VirtualMemory R] [VirtualMemory S] [ProcessReader W R] [WithKernelRef W S]
variable {self : Kernel} {g : GuestMemory} {spaces : Nat → GuestMemory} {P : W → Prop} {es : List Nat}

theorem kernelInfoOf_lists (harch : self.arch.bits = 64 ∨ self.arch.bits = 32) {e : Except Error Export}
    {info : Win32ProcessInfo} (h : self.kernelInfoOf g e = .ok info) :
    info.sysArch = self.arch ∧ ∀ list ∈ Win32Process.moduleInfos info,
      (list.2.bits = 64 ∨ list.2.bits = 32) ∧ list.1.moduleBase < 2 ^ 64 := by
  cases e with
  | error e => cases h
  | ok e =>
    cases e with
    | forward => cases h
    | symbol s =>
      cases h
      refine ⟨rfl, fun list hlist => ?_⟩
      obtain rfl := List.mem_singleton.mp hlist
      exact ⟨harch, addrAt_lt g harch _⟩

omit [VirtualMemory W] [VirtualMemory R] [ProcessReader W R] in
/-- A module by its name, of any process with lists as they should be. -/
theorem moduleInfo_gives {info : Win32ProcessInfo}
    (hs : ∃ P' : S → Prop, Shows (spaces info.dtb) P' ∧ (∀ w, P w → P' (WithKernelRef.withKernelRef w info)) ∧
      ∀ w s, P w → P' s → P (WithKernelRef.release w s))
    (hlists : ∀ list ∈ Win32Process.moduleInfos info, (list.2.bits = 64 ∨ list.2.bits = 32) ∧ list.1.moduleBase < 2 ^ 64)
    {ws : Widestring} (hws : ws.Documented) (uninit : Nat → UInt8) (name : String) :
    Gives P (ofProcess info (Win32Process.moduleInfo ws uninit info name) : ReadM W _)
      (((Win32Process.modulesIn (spaces info.dtb) info).find? (·.name == name)).elim (.error .moduleInfo) .ok) := by
  refine gives_ofProcess hs fun P' hp => ?_
  refine (moduleListWithInfos_gives hp hws uninit info.address hlists).bind ?_
  unfold Win32Process.modulesIn
  split
  · next module hfound =>
    rw [hfound]
    exact .pure _
  · next hnone =>
    rw [hnone]
    exact .throw _

theorem modulesIn_base {p : GuestMemory} {info : Win32ProcessInfo}
    (hlists : ∀ list ∈ Win32Process.moduleInfos info, (list.2.bits = 64 ∨ list.2.bits = 32) ∧ list.1.moduleBase < 2 ^ 64)
    {module : Win32ModuleInfo} (h : module ∈ Win32Process.modulesIn p info) : module.base < 2 ^ 64 := by
  obtain ⟨list, hlist, hmodule⟩ := List.mem_flatMap.mp h
  obtain ⟨entry, -, hentry⟩ := List.mem_filterMap.mp hmodule
  unfold Win32ModuleListInfo.moduleOf at hentry
  cases hname : unicodeStringAt p list.2 (Address.add entry list.1.ldrDataNameOffs) with
  | error e => rw [hname] at hentry; cases hentry
  | ok name =>
    rw [hname] at hentry
    cases hentry
    exact addrAt_lt p (hlists list hlist).1 _

/-- The modules of the kernel, searched by name. -/
theorem kernelModule_gives (hs : self.ShowsSystem g spaces P) (harch : self.arch.bits = 64 ∨ self.arch.bits = 32)
    (uninit : Nat → UInt8) (hbase : self.kernelInfo.kernelBase < 2 ^ 64) (hsize : 0 < self.kernelInfo.kernelSize)
    {ws : Widestring} (hws : ws.Documented) (getExportByName : List UInt8 → String → Except Error Export) (name : String) :
    Gives P (do
        let info ← self.kernelProcessInfo uninit getExportByName
        ofProcess info (Win32Process.moduleInfo ws uninit info name) : ReadM W _)
      (self.kernelModule g spaces getExportByName name) ∧
    ∀ module, self.kernelModule g spaces getExportByName name = .ok module → module.base < 2 ^ 64 := by
  have hinfo := kernelProcessInfo_gives hs.kernel harch uninit hbase hsize getExportByName
  unfold kernelModule
  constructor
  · refine hinfo.bind_result fun info hi => ?_
    obtain ⟨hsys, hlists⟩ := kernelInfoOf_lists harch hi
    exact moduleInfo_gives (hs.borrowed info hsys) hlists hws uninit name
  · intro module hmodule
    cases hi : self.kernelInfoOf g (getExportByName (g.read self.kernelInfo.kernelBase self.kernelInfo.kernelSize)
        "PsLoadedModuleList") with
    | error e => rw [hi] at hmodule; cases hmodule
    | ok info =>
      rw [hi, Except.bind] at hmodule
      cases hfound : (Win32Process.modulesIn (spaces info.dtb) info).find? (·.name == name) with
      | none => rw [hfound] at hmodule; cases hmodule
      | some found =>
        rw [hfound] at hmodule
        cases hmodule
        exact modulesIn_base (kernelInfoOf_lists harch hi).2 (List.mem_of_find?_eq_some hfound)

theorem mem_of_keyboardProcess {toLowercase : String → String} {processes : List Win32ProcessInfo} {user : Win32ProcessInfo}
    (h : keyboardProcess toLowercase spaces processes = .ok user) : user ∈ processes := by
  unfold keyboardProcess at h
  split at h
  · next found hfound =>
    cases h
    rcases Option.or_eq_some_iff.mp hfound with hfirst | ⟨-, hsecond⟩
    · exact List.mem_of_find?_eq_some hfirst
    · exact List.mem_of_find?_eq_some hsecond
  · cases h

theorem keyboardProcess_gives (hs : self.ShowsSystem g spaces P) (harch : self.arch.bits = 64 ∨ self.arch.bits = 32)
    (uninit : Nat → UInt8) (hring : self.ProcessRing g es) (hlen : es.length ≤ maxIterCount + 1) {ws : Widestring}
    (hws : ws.Documented) (toLowercase : String → String) :
    Gives P (orElse (self.processInfoNamed uninit ws toLowercase "winlogon.exe")
        (self.processInfoNamed uninit ws toLowercase "wininit.exe") : ReadM W _)
      (keyboardProcess toLowercase spaces (self.infos g spaces (es.dropLast.map self.eprocessOf))) := by
  have hlogon := processInfoNamed_found hs harch uninit hring hlen hws toLowercase
    (show cutName "winlogon.exe" = some "winlogon.exe" by decide +kernel)
  have hinit := processInfoNamed_found hs harch uninit hring hlen hws toLowercase
    (show cutName "wininit.exe" = some "wininit.exe" by decide +kernel)
  have h := hlogon.orElse fun _ => hinit
  unfold keyboardProcess
  cases hfirst : (self.infos g spaces (es.dropLast.map self.eprocessOf)).find?
      (Named toLowercase spaces "winlogon.exe" "winlogon.exe") with
  | some user =>
    rw [hfirst] at h
    exact h
  | none =>
    rw [hfirst] at h
    exact h

/-- Where the array is found: in the kernel's module, seen from the first process with one of
    the names. -/
theorem keyboard_gives (self : Kernel) (g : GuestMemory) (spaces : Nat → GuestMemory) (P : W → Prop)
    (hs : self.ShowsSystem g spaces P) (harch : self.arch.bits = 64 ∨ self.arch.bits = 32) (uninit : Nat → UInt8)
    (es : List Nat) (hring : self.ProcessRing g es) (hlen : es.length ≤ maxIterCount + 1)
    (hbase : self.kernelInfo.kernelBase < 2 ^ 64) (hsize : 0 < self.kernelInfo.kernelSize) (ws : Widestring)
    (hws : ws.Documented) (toLowercase : String → String)
    (getExportByName : List UInt8 → String → Except Error Export)
    (hmodule : ∀ module, self.kernelModule g spaces getExportByName "win32kbase.sys" = .ok module → 0 < module.size) :
    Gives P (self.keyboard uninit ws toLowercase getExportByName) (self.keyboardOf g spaces toLowercase getExportByName
      (self.infos g spaces (es.dropLast.map self.eprocessOf))) := by
  obtain ⟨hkernel, hlt⟩ := kernelModule_gives hs harch uninit hbase hsize hws getExportByName "win32kbase.sys"
  unfold keyboard keyboardOf
  rw [← bind_assoc]
  refine hkernel.bind_result fun win32kbase hwin32kbase => ?_
  refine (keyboardProcess_gives hs harch uninit hring hlen hws toLowercase).bind_result fun user huser => ?_
  obtain ⟨e, -, he⟩ := mem_infos (mem_of_keyboardProcess huser)
  have hbuf : Gives P (ofProcess user (readRawPart win32kbase.base win32kbase.size) : ReadM W _)
      (.ok ((spaces user.dtb).read win32kbase.base win32kbase.size)) :=
    gives_ofProcess (hs.borrowed user (by rw [he]; rfl)) fun P' hp =>
      gives_readRawPart hp (hlt _ hwin32kbase) (hmodule _ hwin32kbase)
  refine hbuf.bind ?_
  unfold keyboardExport
  split
  · exact .throw _
  · exact .throw _
  · exact .pure _

/-- What is found is an address, and a process of the kernel's architecture. -/
theorem keyboardOf_ok {toLowercase : String → String} {getExportByName : List UInt8 → String → Except Error Export}
    {l : List Nat} {kbd : Keyboard} (h : self.keyboardOf g spaces toLowercase getExportByName (self.infos g spaces l) = .ok kbd) :
    kbd.keyStateAddr < 2 ^ 64 ∧ kbd.userProcessInfo.sysArch = self.arch := by
  unfold keyboardOf at h
  cases hk : self.kernelModule g spaces getExportByName "win32kbase.sys" with
  | error e => rw [hk] at h; cases h
  | ok win32kbase =>
    rw [hk, Except.bind] at h
    cases hu : keyboardProcess toLowercase spaces (self.infos g spaces l) with
    | error e => rw [hu] at h; cases h
    | ok user =>
      rw [hu, Except.bind] at h
      obtain ⟨e, -, he⟩ := mem_infos (mem_of_keyboardProcess hu)
      unfold keyboardExport at h
      split at h
      · cases h
      · cases h
      · cases h
        exact ⟨Address.add_lt _ _, by rw [he]; rfl⟩

/-- A ring of one process, "winlogon.exe"; the list of the kernel's modules is at `0x100010`. -/
def logonProcess : GuestMemory :=
  .ofWords [(0x1010, 0x3000), (0x3000, 0x1010), (0x3008, 0x1010), (0x1018, 0x3000), (0x1028, 0x8000), (0x1040, 77),
    (0x1050, 0x6e6f676f6c6e6977), (0x1058, 0x6578652e), (0x1060, 0x5000), (0x1078, 0xa2f8), (0x100010, 0xa100)]

/-- "win32kbase.sys" among the modules of the kernel, "winlogon.exe" among those of the process;
    the byte of the array at `0x9108` is `key`. -/
def logonSpaces (key : Nat) (dtb : Nat) : GuestMemory :=
  if dtb = 0x8000 then .ofWords [(0x5018, 0x6000), (0x6010, 0x6100), (0x6100, 0x6010), (0x6130, 0x400000), (0x6140, 0x1000),
    (0x6158, 24), (0x6160, 0x6200), (0x6200, 0x6c006e00690077), (0x6208, 0x6e006f0067006f), (0x6210, 0x6500780065002e),
    (0x6218, 0), (0x9108, key)]
  else if dtb = 0x1000 then .ofWords [(0xa100, 0xa100), (0xa130, 0x9000), (0xa140, 0x1000), (0xa158, 28), (0xa160, 0xa200),
    (0xa200, 0x33006e00690077), (0xa208, 0x610062006b0032), (0xa210, 0x73002e00650073), (0xa218, 0x730079)]
  else .ofWords []

def logonExports (_ : List UInt8) (name : String) : Except Error Export :=
  .ok (.symbol (if name = "PsLoadedModuleList" then 0x10 else 0x100))

theorem logonProcess_ring : sixtyFour.ProcessRing logonProcess [0x1010, 0x3000] :=
  ⟨by decide +kernel, by decide +kernel, by decide +kernel, by decide⟩

end Kernel

end Jiaa.Win32
