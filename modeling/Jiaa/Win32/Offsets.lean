/-
  Jiaa.Win32.Offsets — offsets into the structures of a kernel and where they are taken
  from (memflow-win32 `offsets/mod.rs`, `offsets/offset_table.rs`, `error.rs`).

  Without a symbol store the offsets come from a list of embedded records, one a kernel.
  A record is taken by its guid, or it is the newest one of the version that is not newer
  than the kernel.

  - `Closest.step`: what one round of the search for the newest record keeps;
  - `buildWithOffsetList_spec`: the record that is taken, and when there is none.
-/

import Jiaa.Mem.VirtMem
import Jiaa.Win32.WindowsVersion

namespace Jiaa.Win32

/-! ## Errors -/

inductive Error where
  | other (e : String)
  | bounds
  | invalidArchitecture
  | initialization (e : String)
  | symbolStore (e : String)
  | processInfo
  | moduleInfo
  | core (e : Jiaa.Error)
  | pdb (e : String)
  | encoding
  | unicode (e : String)
  deriving DecidableEq, Repr

/-- `From<PartialError<T>>`: what went wrong is not kept. -/
def Error.ofPartial {α : Type} (_ : PartialError α) : Error := .core .partialData

/-! ## Tables -/

inductive Win32OffsetsArchitecture where
  | x86
  | x64
  | aarch64
  deriving DecidableEq, Repr

structure Win32ArchOffsets where
  pebLdr : Nat
  ldrList : Nat
  ldrDataBase : Nat
  ldrDataSize : Nat
  ldrDataName : Nat
  deriving DecidableEq, Repr

def x86Offsets : Win32ArchOffsets := ⟨0xc, 0xc, 0x18, 0x20, 0x2c⟩

def x64Offsets : Win32ArchOffsets := ⟨0x18, 0x10, 0x30, 0x40, 0x58⟩

/-- `From<ArchitectureObj>`, with the tables; every architecture there is has one. -/
def Win32ArchOffsets.ofArch (arch : X86Architecture) : Win32ArchOffsets :=
  if arch.bits = 32 then x86Offsets else x64Offsets

structure Win32OffsetTable where
  listBlink : UInt32
  eprocLink : UInt32
  kprocDtb : UInt32
  eprocPid : UInt32
  eprocName : UInt32
  eprocPeb : UInt32
  eprocSectionBase : UInt32
  eprocExitStatus : UInt32
  eprocThreadList : UInt32
  eprocWow64 : UInt32
  kthreadTeb : UInt32
  ethreadListEntry : UInt32
  tebPeb : UInt32
  tebPebX86 : UInt32
  deriving DecidableEq, Repr

/-- The string ends at the first NUL. -/
abbrev BinaryString := Vector UInt8 128

/-- `From<&str>`; a longer string panics. -/
def BinaryString.ofString (s : String) : BinaryString := .ofFn fun i => s.toUTF8.data.toList.getD i 0

/-- All 128 bytes must be UTF-8. -/
def BinaryString.toStr (self : BinaryString) : Option String :=
  (String.fromUTF8? ⟨self.toArray⟩).map fun s => String.ofList (s.toList.takeWhile (· != Char.ofNat 0))

example : (BinaryString.ofString "ntkrnlmp.pdb").toStr = some "ntkrnlmp.pdb" := by decide +kernel

structure Win32OffsetFile where
  pdbFileName : BinaryString
  pdbGuid : BinaryString
  ntMajorVersion : Nat
  ntMinorVersion : Nat
  ntBuildNumber : Nat
  arch : Win32OffsetsArchitecture
  offsets : Win32OffsetTable

structure Win32OffsetBuilder where
  guid : Option Win32GUID
  winver : Option Win32Version
  arch : Option Win32OffsetsArchitecture

namespace Win32OffsetBuilder

/-! ## Search -/

/-- The file name and the guid are text, and the given ones. -/
def IsFor (targetGuid : Win32GUID) (offset : Win32OffsetFile) : Prop :=
  offset.pdbFileName.toStr = some targetGuid.fileName ∧ offset.pdbGuid.toStr = some targetGuid.guid

instance (targetGuid : Win32GUID) (offset : Win32OffsetFile) : Decidable (IsFor targetGuid offset) :=
  inferInstanceAs (Decidable (_ ∧ _))

/-- The loop over the guids. -/
def matchGuid (targetGuid : Win32GUID) : List Win32OffsetFile → Option Win32OffsetTable
  | [] => none
  | offset :: rest => if IsFor targetGuid offset then some offset.offsets else matchGuid targetGuid rest

/-- A round of the loop over the builds, on the last build number taken and its offsets. -/
def closestStep (winver : Win32Version) (arch : Win32OffsetsArchitecture) (s : Nat × Option Win32OffsetTable)
    (offset : Win32OffsetFile) : Nat × Option Win32OffsetTable :=
  if winver.ntMajorVersion = offset.ntMajorVersion ∧ winver.ntMinorVersion = offset.ntMinorVersion ∧
      offset.ntBuildNumber ≤ winver.buildNumber ∧ s.1 ≤ offset.ntBuildNumber ∧ arch = offset.arch then
    (offset.ntBuildNumber, some offset.offsets)
  else s

def closestMatch (winver : Win32Version) (arch : Win32OffsetsArchitecture) (offsets : List Win32OffsetFile) :
    Nat × Option Win32OffsetTable :=
  offsets.foldl (closestStep winver arch) (0, none)

/-- `offsets` are the embedded records. -/
def buildWithOffsetList (self : Win32OffsetBuilder) (offsets : List Win32OffsetFile) : Except Error Win32OffsetTable :=
  match self.guid.bind fun targetGuid => matchGuid targetGuid offsets with
  | some t => .ok t
  | none =>
    let closest := match self.winver, self.arch with
      | some winver, some arch => (closestMatch winver arch offsets).2
      | _, _ => none
    match closest with
    | some t => .ok t
    | none => .error (.other "not found")

/-! ## Matching the guid -/

theorem matchGuid_none_iff {g : Win32GUID} {offsets : List Win32OffsetFile} :
    matchGuid g offsets = none ↔ ∀ r ∈ offsets, ¬ IsFor g r := by
  induction offsets with
  | nil => simp [matchGuid]
  | cons r rest ih =>
    by_cases h : IsFor g r
    · simp [matchGuid, h]
    · simp [matchGuid, h, ih]

theorem matchGuid_first {g : Win32GUID} {pre post : List Win32OffsetFile} {r : Win32OffsetFile}
    (hpre : ∀ x ∈ pre, ¬ IsFor g x) (hr : IsFor g r) : matchGuid g (pre ++ r :: post) = some r.offsets := by
  induction pre with
  | nil => simp [matchGuid, hr]
  | cons x pre ih =>
    simp only [List.mem_cons, forall_eq_or_imp] at hpre
    simp [matchGuid, hpre.1, ih hpre.2]

/-! ## The newest build -/

/-- A record of the version and the architecture that is not newer. -/
def Fits (winver : Win32Version) (arch : Win32OffsetsArchitecture) (r : Win32OffsetFile) : Prop :=
  r.ntMajorVersion = winver.ntMajorVersion ∧ r.ntMinorVersion = winver.ntMinorVersion ∧ r.arch = arch ∧
    r.ntBuildNumber ≤ winver.buildNumber

/-- The newest of the records that fit. -/
def IsNewest (winver : Win32Version) (arch : Win32OffsetsArchitecture) (offsets : List Win32OffsetFile)
    (r : Win32OffsetFile) : Prop :=
  r ∈ offsets ∧ Fits winver arch r ∧ ∀ x ∈ offsets, Fits winver arch x → x.ntBuildNumber ≤ r.ntBuildNumber

/-- What the rounds over the records `seen` have found. -/
inductive Closest (winver : Win32Version) (arch : Win32OffsetsArchitecture) (seen : List Win32OffsetFile) :
    Nat × Option Win32OffsetTable → Prop
  | none : (∀ x ∈ seen, ¬ Fits winver arch x) → Closest winver arch seen (0, none)
  | some {r : Win32OffsetFile} : IsNewest winver arch seen r →
      Closest winver arch seen (r.ntBuildNumber, some r.offsets)

variable {winver : Win32Version} {arch : Win32OffsetsArchitecture} {seen offsets : List Win32OffsetFile}

/-- A record that fits is taken unless a newer one was. -/
theorem closestStep_of_fits {r : Win32OffsetFile} (h : Fits winver arch r) (s : Nat × Option Win32OffsetTable) :
    closestStep winver arch s r = if s.1 ≤ r.ntBuildNumber then (r.ntBuildNumber, some r.offsets) else s := by
  obtain ⟨h1, h2, h3, h4⟩ := h
  simp [closestStep, h1, h2, h3, h4]

theorem closestStep_of_not_fits {r : Win32OffsetFile} (h : ¬ Fits winver arch r) (s : Nat × Option Win32OffsetTable) :
    closestStep winver arch s r = s := by
  refine if_neg fun hc => h ?_
  exact ⟨hc.1.symm, hc.2.1.symm, hc.2.2.2.2.symm, hc.2.2.1⟩

theorem Closest.step {s : Nat × Option Win32OffsetTable} (h : Closest winver arch seen s) (r : Win32OffsetFile) :
    Closest winver arch (seen ++ [r]) (closestStep winver arch s r) := by
  by_cases hr : Fits winver arch r
  · rw [closestStep_of_fits hr]
    cases h with
    | none hnone =>
      rw [if_pos (Nat.zero_le _)]
      refine .some ⟨by simp, hr, fun x hx hf => ?_⟩
      rcases List.mem_append.mp hx with hx | hx
      · exact absurd hf (hnone x hx)
      · rw [List.mem_singleton.mp hx]
    | @some b hb =>
      obtain ⟨hmem, hfit, hmax⟩ := hb
      split
      · next hle =>
        refine .some ⟨by simp, hr, fun x hx hf => ?_⟩
        rcases List.mem_append.mp hx with hx | hx
        · exact (hmax x hx hf).trans hle
        · rw [List.mem_singleton.mp hx]
      · next hlt =>
        refine .some ⟨by simp [hmem], hfit, fun x hx hf => ?_⟩
        rcases List.mem_append.mp hx with hx | hx
        · exact hmax x hx hf
        · rw [List.mem_singleton.mp hx]
          exact (Nat.lt_of_not_le hlt).le
  · rw [closestStep_of_not_fits hr]
    cases h with
    | none hnone =>
      refine .none fun x hx => ?_
      rcases List.mem_append.mp hx with hx | hx
      · exact hnone x hx
      · rwa [List.mem_singleton.mp hx]
    | some hb =>
      obtain ⟨hmem, hfit, hmax⟩ := hb
      refine .some ⟨by simp [hmem], hfit, fun x hx hf => ?_⟩
      rcases List.mem_append.mp hx with hx | hx
      · exact hmax x hx hf
      · rw [List.mem_singleton.mp hx] at hf
        exact absurd hf hr

theorem closest_foldl {s : Nat × Option Win32OffsetTable} (h : Closest winver arch seen s) :
    Closest winver arch (seen ++ offsets) (offsets.foldl (closestStep winver arch) s) := by
  induction offsets generalizing seen s with
  | nil => simpa using h
  | cons r rest ih => simpa using ih (h.step r)

theorem closestMatch_spec : Closest winver arch offsets (closestMatch winver arch offsets) := by
  have h : Closest winver arch [] (0, none) := .none (by simp)
  exact closest_foldl h

theorem closestMatch_none_iff : (closestMatch winver arch offsets).2 = none ↔ ∀ r ∈ offsets, ¬ Fits winver arch r := by
  have h : Closest winver arch offsets (closestMatch winver arch offsets) := closestMatch_spec
  generalize closestMatch winver arch offsets = s at h ⊢
  cases h with
  | none hnone => simpa using hnone
  | some hr => simpa using ⟨_, hr.1, hr.2.1⟩

theorem newest_of_closestMatch {t : Win32OffsetTable} (ht : (closestMatch winver arch offsets).2 = some t) :
    ∃ r, IsNewest winver arch offsets r ∧ t = r.offsets := by
  have h : Closest winver arch offsets (closestMatch winver arch offsets) := closestMatch_spec
  generalize closestMatch winver arch offsets = s at h ht
  cases h with
  | none hnone => cases ht
  | some hr =>
    cases ht
    exact ⟨_, hr, rfl⟩

/-- The first record of the guid is taken, else the newest record of the version and the
    architecture that is not newer than the kernel; it is an error when there is none. -/
theorem buildWithOffsetList_spec (self : Win32OffsetBuilder) (offsets : List Win32OffsetFile) :
    (∀ g pre r post, self.guid = some g → offsets = pre ++ r :: post → (∀ x ∈ pre, ¬ IsFor g x) → IsFor g r →
      self.buildWithOffsetList offsets = .ok r.offsets) ∧
    ((∀ g, self.guid = some g → ∀ r ∈ offsets, ¬ IsFor g r) →
      ∀ winver arch, self.winver = some winver → self.arch = some arch → (∃ r ∈ offsets, Fits winver arch r) →
        ∃ r, IsNewest winver arch offsets r ∧ self.buildWithOffsetList offsets = .ok r.offsets) ∧
    (self.buildWithOffsetList offsets = .error (.other "not found") ↔
      (∀ g, self.guid = some g → ∀ r ∈ offsets, ¬ IsFor g r) ∧
      ∀ winver arch, self.winver = some winver → self.arch = some arch → ∀ r ∈ offsets, ¬ Fits winver arch r) := by
  have hguid : self.guid.bind (matchGuid · offsets) = none ↔ ∀ g, self.guid = some g → ∀ r ∈ offsets, ¬ IsFor g r := by
    simp [Option.bind_eq_none_iff, matchGuid_none_iff]
  refine ⟨?_, ?_, ?_⟩
  · rintro g pre r post hg rfl hpre hr
    simp [buildWithOffsetList, hg, matchGuid_first hpre hr]
  · intro hno winver arch hv ha ⟨x, hx, hf⟩
    simp only [buildWithOffsetList, hguid.mpr hno, hv, ha]
    cases ht : (closestMatch winver arch offsets).2 with
    | none => exact absurd hf (closestMatch_none_iff.mp ht x hx)
    | some t =>
      obtain ⟨r, hr, rfl⟩ := newest_of_closestMatch ht
      exact ⟨r, hr, rfl⟩
  · rw [← hguid]
    unfold buildWithOffsetList
    cases self.guid.bind (matchGuid · offsets) with
    | some t => simp
    | none =>
      cases hv : self.winver with
      | none => simp
      | some winver =>
        cases ha : self.arch with
        | none => simp
        | some arch =>
          simp only [Option.some.injEq, true_and, ← closestMatch_none_iff]
          cases hc : (closestMatch winver arch offsets).2 <;> simp [hc]

end Win32OffsetBuilder

end Jiaa.Win32
