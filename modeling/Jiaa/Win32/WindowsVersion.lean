/-
  Jiaa.Win32.WindowsVersion — the version of the kernel and how it is guessed from code
  (memflow-win32 `kernel/mod.rs`, `kernel/ntos.rs`).

  Where the shared user data holds no version, `find_winver` scans 256 bytes of
  `RtlGetVersion` for the instructions that store the two numbers. Each step of the scan
  looks at four bytes and at what was found so far.

  - `rtlScan_take`: what the steps up to an offset have found;
  - `rtlScan_eq`: the number of the second instruction ends up as the major one, and the
    minor one is never set.
-/

import Jiaa.Mem.PhysMem

namespace Jiaa.Win32

structure Win32GUID where
  fileName : String
  guid : String
  deriving DecidableEq, Repr

/-- Each number is a `u32`. -/
structure Win32Version where
  ntMajorVersion : Nat
  ntMinorVersion : Nat
  ntBuildNumber : Nat
  deriving Repr

namespace Win32Version

def buildNumber (self : Win32Version) : Nat := self.ntBuildNumber &&& 0xFFFF

/-- `Ord`: by the build numbers where both are known. -/
def cmp (self other : Win32Version) : Ordering :=
  if self.ntBuildNumber ≠ 0 ∧ other.ntBuildNumber ≠ 0 then compare self.ntBuildNumber other.ntBuildNumber
  else if self.ntMajorVersion ≠ other.ntMajorVersion then compare self.ntMajorVersion other.ntMajorVersion
  else if self.ntMinorVersion ≠ other.ntMinorVersion then compare self.ntMinorVersion other.ntMinorVersion
  else .eq

/-- `From<(u32, u32)>`. -/
def ofPair (v : Nat × Nat) : Win32Version := ⟨v.1, v.2, 0⟩

end Win32Version

/-! ## The scan of `RtlGetVersion` -/

/-- `buf[i]`; the scan stays inside the buffer. -/
def byteAt (buf : Vector UInt8 0x100) (i : Nat) : UInt8 := buf.getD i 0

def u32At (buf : Vector UInt8 0x100) (i : Nat) : Nat :=
  leU64 [byteAt buf i, byteAt buf (i + 1), byteAt buf (i + 2), byteAt buf (i + 3)]

/-- One round of the loop, on the major and the minor version. -/
def rtlScanStep (buf : Vector UInt8 0x100) (v : Nat × Nat) (i : Nat) : Nat × Nat :=
  let v := if v.1 = 0 ∧ v.2 = 0 ∧ u32At buf i = 0x441c748 then
    (leU64 [byteAt buf (i + 4), byteAt buf (i + 5)], (byteAt buf (i + 5) &&& 0xF).toNat) else v
  let v := if v.1 = 0 ∧ u32At buf i &&& 0xFFFFF = 0x441c7 then ((byteAt buf (i + 3)).toNat, v.2) else v
  -- the third pattern is the minor version's, but the major one is set
  if v.2 = 0 ∧ u32At buf i &&& 0xFFFFF = 0x841c7 then ((byteAt buf (i + 3)).toNat, v.2) else v

def rtlScan (buf : Vector UInt8 0x100) : Nat × Nat := (List.range 0xf0).foldl (rtlScanStep buf) (0, 0)

/-- `mov dword [rcx + disp], imm`. -/
def movDword (disp imm : UInt8) : List UInt8 := [0xc7, 0x41, disp, imm, 0, 0, 0]

def HasAt (buf : Vector UInt8 0x100) (i : Nat) (code : List UInt8) : Prop :=
  ∀ j < code.length, byteAt buf (i + j) = code.getD j 0

/-- The code stores a major version `M` at offset `iM` and a minor version `m` at `im`, and
    matches the patterns of the scan nowhere else. -/
structure StoresVersion (buf : Vector UInt8 0x100) (M m : UInt8) (iM im : Nat) : Prop where
  major_ne : M ≠ 0
  minor_ne : m ≠ 0
  major_lt : iM < 0xf0
  minor_lt : im < 0xf0
  apart : iM + 7 ≤ im ∨ im + 7 ≤ iM
  major : HasAt buf iM (movDword 4 M)
  minor : HasAt buf im (movDword 8 m)
  rex_none : ∀ i < 0xf0, u32At buf i ≠ 0x441c748
  major_only : ∀ i < 0xf0, u32At buf i &&& 0xFFFFF = 0x441c7 → i = iM
  minor_only : ∀ i < 0xf0, u32At buf i &&& 0xFFFFF = 0x841c7 → i = im

/-- The low 20 bits of `c7 41 disp imm`, a small displacement. -/
theorem u32At_mov {buf : Vector UInt8 0x100} {i : Nat} {disp imm : UInt8} (h : HasAt buf i (movDword disp imm))
    (hd : disp.toNat < 16) : u32At buf i &&& 0xFFFFF = disp.toNat * 0x10000 + 0x41c7 := by
  have h0 : byteAt buf i = 0xc7 := h 0 (by simp [movDword])
  have h1 : byteAt buf (i + 1) = 0x41 := h 1 (by simp [movDword])
  have h2 : byteAt buf (i + 2) = disp := h 2 (by simp [movDword])
  have hand : ∀ n : Nat, n &&& 0xFFFFF = n % 2 ^ 20 := fun n => Nat.and_two_pow_sub_one_eq_mod n 20
  rw [hand, u32At, h0, h1, h2]
  simp only [leU64, List.foldr_cons, List.foldr_nil]
  have h7 : (0xc7 : UInt8).toNat = 0xc7 := rfl
  have h41 : (0x41 : UInt8).toNat = 0x41 := rfl
  omega

namespace StoresVersion

variable {buf : Vector UInt8 0x100} {M m : UInt8} {iM im : Nat}

theorem major_iff (h : StoresVersion buf M m iM im) {i : Nat} (hi : i < 0xf0) :
    u32At buf i &&& 0xFFFFF = 0x441c7 ↔ i = iM := by
  refine ⟨h.major_only i hi, ?_⟩
  rintro rfl
  exact u32At_mov h.major (by decide)

theorem minor_iff (h : StoresVersion buf M m iM im) {i : Nat} (hi : i < 0xf0) :
    u32At buf i &&& 0xFFFFF = 0x841c7 ↔ i = im := by
  refine ⟨h.minor_only i hi, ?_⟩
  rintro rfl
  exact u32At_mov h.minor (by decide)

/-- The second instruction to be met writes over the first one's number, or keeps it out. -/
theorem rtlScan_take (h : StoresVersion buf M m iM im) : ∀ n ≤ 0xf0, (List.range n).foldl (rtlScanStep buf) (0, 0) =
    (if im < n then m.toNat else if iM < n then M.toNat else 0, 0) := by
  intro n
  induction n with
  | zero => simp
  | succ n ih =>
    intro hn
    have hm0 : m.toNat ≠ 0 := fun h0 => h.minor_ne (UInt8.toNat_inj.mp h0)
    have hM0 : M.toNat ≠ 0 := fun h0 => h.major_ne (UInt8.toNat_inj.mp h0)
    have hrex := h.rex_none n (by omega)
    have hmajor := h.major_iff (i := n) (by omega)
    have hminor := h.minor_iff (i := n) (by omega)
    have hapart := h.apart
    rw [List.range_succ, List.foldl_append, ih (by omega), List.foldl_cons, List.foldl_nil]
    simp only [rtlScanStep, hrex, hmajor, hminor, and_false, if_false]
    by_cases hnM : n = iM
    · subst hnM
      have hM : byteAt buf (n + 3) = M := h.major 3 (by simp [movDword])
      by_cases him : im < n
      · simp [him, hm0, Nat.lt_succ_of_lt him, show n ≠ im by omega]
      · simp [him, hM, show n ≠ im by omega, show ¬ im < n + 1 by omega]
    · by_cases hnm : n = im
      · subst hnm
        have hm : byteAt buf (n + 3) = m := h.minor 3 (by simp [movDword])
        simp [hnM, hm]
      · simp [hnM, hnm, show im < n + 1 ↔ im < n by omega, show iM < n + 1 ↔ iM < n by omega]

theorem scan_result (h : StoresVersion buf M m iM im) : rtlScan buf = (m.toNat, 0) := by
  rw [rtlScan, h.rtlScan_take 0xf0 (by decide), if_pos h.minor_lt]

end StoresVersion

/-- As built, the scan ends with the minor version as the major one. -/
theorem rtlScan_eq (buf : Vector UInt8 0x100) (M m : UInt8) (iM im : Nat) (h : StoresVersion buf M m iM im) :
    rtlScan buf = (m.toNat, 0) ∧ rtlScan buf ≠ (M.toNat, m.toNat) := by
  have heq := h.scan_result
  refine ⟨heq, fun he => h.minor_ne (UInt8.toNat_inj.mp ?_)⟩
  rw [heq, Prod.mk.injEq] at he
  exact he.2.symm

def twoMovs : List UInt8 := movDword 4 10 ++ movDword 8 3

/-- Version 10.3: the two instructions in a row, and nothing else. -/
def versionCode : Vector UInt8 0x100 :=
  .ofFn fun i => twoMovs.getD i 0

theorem byteAt_versionCode {i : Nat} (h : i < 0x100) : byteAt versionCode i = twoMovs.getD i 0 := by
  simp [byteAt, versionCode, Vector.getD, Array.getD, h]

theorem u32At_versionCode {i : Nat} (h : i < 0xf0) :
    u32At versionCode i =
      leU64 [twoMovs.getD i 0, twoMovs.getD (i + 1) 0, twoMovs.getD (i + 2) 0, twoMovs.getD (i + 3) 0] := by
  rw [u32At, byteAt_versionCode (by omega), byteAt_versionCode (by omega), byteAt_versionCode (by omega),
    byteAt_versionCode (by omega)]

theorem versionCode_hasAt {i : Nat} {code : List UInt8} (h : i + code.length ≤ 0x100)
    (hcode : ∀ j < code.length, twoMovs.getD (i + j) 0 = code.getD j 0) : HasAt versionCode i code := fun j hj => by
  rw [byteAt_versionCode (by omega), hcode j hj]

theorem versionCode_stores : StoresVersion versionCode 10 3 0 7 where
  major_ne := by decide
  minor_ne := by decide
  major_lt := by decide
  minor_lt := by decide
  apart := by decide
  major := versionCode_hasAt (by decide) (by decide)
  minor := versionCode_hasAt (by decide) (by decide)
  rex_none := fun i hi => by
    rw [u32At_versionCode hi]
    revert i
    decide +kernel
  major_only := fun i hi => by
    rw [u32At_versionCode hi]
    revert i
    decide +kernel
  minor_only := fun i hi => by
    rw [u32At_versionCode hi]
    revert i
    decide +kernel

theorem rtlScan_versionCode : rtlScan versionCode = (3, 0) ∧ rtlScan versionCode ≠ (10, 3) :=
  rtlScan_eq versionCode 10 3 0 7 versionCode_stores

/-- The scan gives 3.0. -/
theorem versionCode_lost : StoresVersion versionCode 10 3 0 7 ∧ rtlScan versionCode ≠ (10, 3) :=
  ⟨versionCode_stores, by rw [versionCode_stores.scan_result]; decide⟩

end Jiaa.Win32
