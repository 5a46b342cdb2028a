/-
  Jiaa.Win32.StartTables — what the tables that are found map
  (memflow-win32 `kernel/start_block/{x64,x86,x86pae}.rs`).

  The checks of a page ask for an entry that leads back to the page, or with PAE for four
  that lead to the pages behind it.
-/

import Jiaa.Architecture.SelfMap
import Jiaa.Architecture.Translation
import Jiaa.Win32.StartBlock

namespace Jiaa.Win32.StartBlock

open ArchMMUSpec

/-! ## x64 -/

section X64

theorem x64_steps : ∀ step < 4, x64.pageSizeStepUnchecked (step + 1) = 2 ^ (39 - 9 * step) ∧ x64.splitAtStep step = 9 := by
  decide

theorem x64_maskMin : ∀ step < 5, x64.pteMaskMin step = 12 := by decide

theorem x64_pteAddrMask {step : Nat} (h : step < 5) (e : Nat) : x64.pteAddrMask e step = e % 2 ^ 52 / 4096 * 4096 := by
  rw [x64.pteAddrMask_eq h, x64_maskMin step h]
  rfl

theorem x64_pteOffset {step : Nat} (h : step < 4) (v : Nat) :
    x64.virtAddrToPteOffset v step = v / 2 ^ (39 - 9 * step) % 512 * 8 := by
  rw [x64.virtAddrToPteOffset_eq (show step < 5 by omega), (x64_steps step h).1, (x64_steps step h).2]
  rfl

theorem x64_vtopStep {step : Nat} (h : step < 4) (e v : Nat) :
    x64.vtopStep e v step = e % 2 ^ 52 / 4096 * 4096 + v / 2 ^ (39 - 9 * step) % 512 * 8 := by
  rw [x64.vtopStep_eq_add (show step + 1 < 5 by omega), x64_pteAddrMask (by omega), x64_pteOffset h]

theorem x64_physPage (e v : Nat) : (x64.getPhysPage e v 4).address = e % 2 ^ 52 / 4096 * 4096 + v % 4096 := by
  have hmod : v % 4096 < 2 ^ 12 := Nat.mod_lt _ (by omega)
  have hoff : x64.virtAddrToPageOffset v 4 = v % 4096 := x64.virtAddrToPageOffset_eq (show 4 < 5 by omega) v
  show x64.pteAddrMask e 4 ||| x64.virtAddrToPageOffset v 4 = _
  rw [x64_pteAddrMask (by omega), hoff, Nat.mul_comm _ 4096]
  exact (Nat.two_pow_add_eq_or_of_lt hmod _).symm

/-- The place of the last entry of `v` in the tables mapped through entry `k`. -/
def pteVa64 (k v : Nat) : Nat := 0xffff000000000000 + k * 2 ^ 39 + v % 2 ^ 48 / 2 ^ 12 * 8

/-- An entry the check takes for one that leads back. -/
theorem selfRef_eq {p e : Nat} (hp : p % 4096 = 0) (h : (e ^^^ 0x63) &&& (2 ^ 64 - 1 - 2 ^ 63) = p) :
    e % 2 ^ 63 = p + 0x63 := by
  have hx : (e ^^^ 0x63) % 2 ^ 63 = p := by
    rw [← h, show (2 ^ 64 - 1 - 2 ^ 63 : Nat) = 2 ^ 63 - 1 by omega, Nat.and_two_pow_sub_one_eq_mod]
  have he : e % 2 ^ 63 = p ^^^ 0x63 := by
    rw [← hx, Nat.xor_mod_two_pow, Nat.mod_eq_of_lt (show 0x63 < 2 ^ 63 by omega), Nat.xor_assoc, Nat.xor_self,
      Nat.xor_zero]
  have hlow : (p ^^^ 0x63) % 2 ^ 12 = 0x63 := by
    rw [Nat.xor_mod_two_pow, show p % 2 ^ 12 = 0 from hp]
    rfl
  have hhigh : (p ^^^ 0x63) / 2 ^ 12 = p / 2 ^ 12 := by
    rw [Nat.xor_div_two_pow]
    simp
  omega

/-- Its indices are those of `v`, one step later. -/
theorem pteVa64_div (k v : Nat) : ∀ step < 3, pteVa64 k v / 2 ^ (39 - 9 * (step + 1)) % 512 = v / 2 ^ (39 - 9 * step) % 512 := by
  have h0 : pteVa64 k v / 2 ^ 30 % 512 = v / 2 ^ 39 % 512 := by unfold pteVa64; omega
  have h1 : pteVa64 k v / 2 ^ 21 % 512 = v / 2 ^ 30 % 512 := by unfold pteVa64; omega
  have h2 : pteVa64 k v / 2 ^ 12 % 512 = v / 2 ^ 21 % 512 := by unfold pteVa64; omega
  intro step hs
  match step, hs with
  | 0, _ => exact h0
  | 1, _ => exact h1
  | 2, _ => exact h2

theorem pteVa64_mod (k v : Nat) : pteVa64 k v % 4096 = v / 2 ^ (39 - 9 * 3) % 512 * 8 := by
  show pteVa64 k v % 4096 = v / 2 ^ 12 % 512 * 8
  unfold pteVa64
  omega

theorem pteVa64_first {k : Nat} (hk : k < 512) (v : Nat) : pteVa64 k v / 2 ^ (39 - 9 * 0) % 512 = k := by
  show pteVa64 k v / 2 ^ 39 % 512 = k
  unfold pteVa64
  omega

/-- A low bit of an entry. -/
theorem bitAt_of_mod {e r i n : Nat} (hi : i < n) (h : e % 2 ^ n = r) : Address.bitAt e i = Address.bitAt r i := by
  have htest : ∀ a, Address.bitAt a i = a.testBit i := by
    intro a
    have hpos : 2 ^ i ≠ 0 := (Nat.two_pow_pos i).ne'
    rw [Address.bitAt, Nat.one_shiftLeft, Nat.and_two_pow]
    cases a.testBit i <;> simp
  rw [htest, htest, ← h, Nat.testBit_mod_two_pow]
  simp [hi]

variable {c : Nat → UInt8} {p k v : Nat}

/-- Behind an entry `k` that leads back, the walk is one step behind. -/
theorem shifts_pteVa64 (hp : p % 4096 = 0) (hlt : p < 2 ^ 52) (hk : k < 512)
    (he : readU64 c (p + 8 * k) % 2 ^ 63 = p + 0x63) : x64.Shifts c p v (pteVa64 k v) := by
  have hentry : x64.entryOf c p (pteVa64 k v) 0 = readU64 c (p + 8 * k) := by
    rw [entryOf, x64_vtopStep (by omega), pteVa64_first hk]
    congr 1
    omega
  have hlow : readU64 c (p + 8 * k) % 2 ^ 52 / 4096 * 4096 = p := by omega
  have hp' : p % 2 ^ 52 / 4096 * 4096 = p := by
    rw [Nat.mod_eq_of_lt hlt]
    exact Nat.div_mul_cancel (Nat.dvd_of_mod_eq_zero hp)
  have hbyte : readU64 c (p + 8 * k) % 2 ^ 8 = 0x63 := by
    rw [← Nat.mod_mod_of_dvd _ (show 2 ^ 8 ∣ 2 ^ 63 from ⟨2 ^ 55, rfl⟩), he]
    omega
  refine ⟨?_, ?_, ?_, ?_, ?_⟩
  · rw [hentry]
    show Address.bitAt _ 0 = true
    exact bitAt_of_mod (by omega) hbyte
  · rw [hentry]
    have hbit : Address.bitAt (readU64 c (p + 8 * k)) 7 = false := bitAt_of_mod (by omega) hbyte
    simp [isFinalMapping, hbit, x64]
  · rw [hentry, x64_vtopStep (by omega), x64_vtopStep (by omega), hlow, hp', pteVa64_div k v 0 (by omega)]
  · intro step pt hs
    have hs : step + 3 < 5 := hs
    rw [x64_vtopStep (by omega), x64_vtopStep (by omega), pteVa64_div k v (step + 1) (by omega)]
  · intro step pt hs
    have hs : step + 2 = 5 := hs
    obtain rfl : step = 3 := by omega
    rw [x64_physPage, x64_vtopStep (by omega), pteVa64_mod]

/-- The lower tables cannot be large pages where the walk has come past them. -/
theorem noLargePage_x64 {e : Nat} (he : x64.entryAt (x64.tableNext c) p v 4 = some e)
    (hlarge : ∀ e ∈ x64.entryAt (x64.tableNext c) p v 1, Address.bitAt e 7 = false) : x64.NoLargePage c p v := by
  intro step pt h0 hs hpt
  have hs : step + 2 < 5 := hs
  have hbit : Address.bitAt pt 7 = false → x64.isFinalMapping pt (step + 1) = false := by
    intro h
    have hlast : (step + 1 == 4) = false := by simp; omega
    show ((step + 1 == 4) || (Address.bitAt pt 7 && _)) = false
    rw [hlast, h]
    rfl
  rcases Nat.lt_or_eq_of_le (show 1 ≤ step by omega) with h1 | h1
  · obtain rfl : step = 2 := by omega
    obtain ⟨e3, h3, -, -, -⟩ := x64.entryAt_succ_some he
    obtain ⟨e2, h2, -, hf, -⟩ := x64.entryAt_succ_some h3
    rw [hpt] at h2
    cases h2
    refine hbit ?_
    simpa [isFinalMapping, x64] using hf
  · subst h1
    exact hbit (hlarge pt hpt)

variable {M : Type} [PhysicalMemory M] [LawfulMemory M] [AnswersReads M]

end X64

/-! ## x86 -/

section X86

theorem x32_steps : ∀ step < 2, x32.pageSizeStepUnchecked (step + 1) = 2 ^ (22 - 10 * step) ∧ x32.splitAtStep step = 10 := by
  decide

theorem x32_maskMin : ∀ step < 3, x32.pteMaskMin step = 12 := by decide

theorem x32_pteAddrMask {step : Nat} (h : step < 3) (e : Nat) : x32.pteAddrMask e step = e % 2 ^ 32 / 4096 * 4096 := by
  rw [x32.pteAddrMask_eq h, x32_maskMin step h]
  rfl

theorem x32_vtopStep {step : Nat} (h : step < 2) (e v : Nat) :
    x32.vtopStep e v step = e % 2 ^ 32 / 4096 * 4096 + v / 2 ^ (22 - 10 * step) % 1024 * 4 := by
  rw [x32.vtopStep_eq_add (show step + 1 < 3 by omega), x32_pteAddrMask (by omega),
    x32.virtAddrToPteOffset_eq (show step < 3 by omega), (x32_steps step h).1, (x32_steps step h).2]
  rfl

theorem x32_physPage (e v : Nat) : (x32.getPhysPage e v 2).address = e % 2 ^ 32 / 4096 * 4096 + v % 4096 := by
  have hmod : v % 4096 < 2 ^ 12 := Nat.mod_lt _ (by omega)
  have hoff : x32.virtAddrToPageOffset v 2 = v % 4096 := x32.virtAddrToPageOffset_eq (show 2 < 3 by omega) v
  show x32.pteAddrMask e 2 ||| x32.virtAddrToPageOffset v 2 = _
  rw [x32_pteAddrMask (by omega), hoff, Nat.mul_comm _ 4096]
  exact (Nat.two_pow_add_eq_or_of_lt hmod _).symm

/-- The place of the last entry of `v` in the tables mapped through entry `0x300`. -/
def pteVa32 (v : Nat) : Nat := 0xc0000000 + v % 2 ^ 32 / 2 ^ 12 * 4

theorem pteVa32_first (v : Nat) : pteVa32 v / 2 ^ (22 - 10 * 0) % 1024 = 0x300 := by
  show pteVa32 v / 2 ^ 22 % 1024 = 0x300
  unfold pteVa32
  omega

theorem pteVa32_second (v : Nat) : pteVa32 v / 2 ^ (22 - 10 * 1) % 1024 = v / 2 ^ (22 - 10 * 0) % 1024 := by
  show pteVa32 v / 2 ^ 12 % 1024 = v / 2 ^ 22 % 1024
  unfold pteVa32
  omega

theorem pteVa32_mod (v : Nat) : pteVa32 v % 4096 = v / 2 ^ (22 - 10 * 1) % 1024 * 4 := by
  show pteVa32 v % 4096 = v / 2 ^ 12 % 1024 * 4
  unfold pteVa32
  omega

/-- The low half of an entry. -/
theorem readU64_low (c : Nat → UInt8) (a : Nat) : readU64 c a % 2 ^ 32 = leU64 (bytesAt c a 4) := by
  have hsplit : bytesAt c a 8 = bytesAt c a 4 ++ bytesAt c (a + 4) 4 := by
    have h := List.take_append_drop 4 (bytesAt c a 8)
    have h1 := slice_bytesAt c a (n := 8) (i := 0) (k := 4) (by omega)
    have h2 := slice_bytesAt c a (n := 8) (i := 4) (k := 4) (by omega)
    rw [List.take_of_length_le (by simp)] at h2
    rw [List.drop_zero, Nat.add_zero] at h1
    rw [← h, h1, h2]
  have hlt := leU64_lt (bytesAt c a 4)
  rw [length_bytesAt] at hlt
  rw [readU64, hsplit, leU64_append, length_bytesAt]
  omega

/-- An entry the check takes for one that leads back. -/
theorem selfRef32_eq {p d : Nat} (hp : p % 4096 = 0) (hlt : p < 2 ^ 24) (hd : d < 2 ^ 32)
    (h : d &&& 0xfffff003 = (p % 2 ^ 32 + 0x3) % 2 ^ 32) : d / 4096 = p / 4096 ∧ d % 4 = 3 := by
  have hhigh : (d &&& 0xfffff003) / 2 ^ 12 = d / 2 ^ 12 &&& 2 ^ 20 - 1 := Nat.and_div_two_pow
  have hlow : (d &&& 0xfffff003) % 2 ^ 2 = d % 2 ^ 2 &&& 2 ^ 2 - 1 := Nat.and_mod_two_pow
  rw [Nat.and_two_pow_sub_one_eq_mod, h] at hhigh hlow
  omega

variable {c : Nat → UInt8} {p v : Nat}

theorem shifts_pteVa32 (hp : p % 4096 = 0) (hlt : p < 2 ^ 24) (h : IsPageDirectory c p)
    (hlarge : Address.bitAt (readU64 c (p + 0xc00)) 7 = false) : x32.Shifts c p v (pteVa32 v) := by
  have hbytes := leU64_lt (bytesAt c (p + 0xc00) 4)
  rw [length_bytesAt] at hbytes
  obtain ⟨hhigh, hlow⟩ := selfRef32_eq hp hlt hbytes h.selfRef
  rw [← readU64_low] at hhigh hlow
  have hp' : p % 2 ^ 32 / 4096 * 4096 = p := by omega
  have hentry : x32.entryOf c p (pteVa32 v) 0 = readU64 c (p + 0xc00) := by
    rw [entryOf, x32_vtopStep (by omega), pteVa32_first, hp']
  refine ⟨?_, ?_, ?_, ?_, ?_⟩
  · have hlow' : readU64 c (p + 0xc00) % 2 ^ 2 = 3 := by
      rw [← Nat.mod_mod_of_dvd _ (show 2 ^ 2 ∣ 2 ^ 32 from ⟨2 ^ 30, rfl⟩)]
      exact hlow
    rw [hentry]
    show Address.bitAt _ 0 = true
    exact bitAt_of_mod (by omega) hlow'
  · rw [hentry]
    have hlast : (1 == x32.virtualAddressSplits.length - 1) = false := rfl
    show (_ || (Address.bitAt _ 7 && _)) = false
    rw [hlast, hlarge]
    rfl
  · rw [hentry, x32_vtopStep (by omega), x32_vtopStep (by omega), hp', pteVa32_second, hhigh,
      Nat.div_mul_cancel (Nat.dvd_of_mod_eq_zero hp)]
  · intro step pt hs
    have hs : step + 3 < 3 := hs
    omega
  · intro step pt hs
    have hs : step + 2 = 3 := hs
    obtain rfl : step = 1 := by omega
    rw [x32_physPage, x32_vtopStep (by omega), pteVa32_mod]

variable {M : Type} [PhysicalMemory M] [LawfulMemory M] [AnswersReads M]

/-- So does the table of 32 bits, if its entry for itself is not one of a large page, which
    the check does not ask for. -/
theorem selfMap_x86 (mem : M) (sb : StartBlock) (hfind : (findArch mem .x32).2 = .ok sb) :
    sb.dtb % 4096 = 0 ∧ sb.dtb < Size.mb 16 ∧
      (Address.bitAt (readU64 (content mem) (sb.dtb + 0xc00)) 7 = false → ∀ v e,
        x32.entryAt (x32.tableNext (content mem)) sb.dtb v 2 = some e →
        ∃ pa, x32.walk (content mem) sb.dtb (pteVa32 v) = some pa ∧ readU64 (content mem) pa.address = e) ∧
      ∀ v, v + 1 < 2 ^ 64 → v / 2 ^ 22 % 1024 = 0x300 → x32.virtToPhys mem sb.dtb v = none := by
  have hlocated := ((finds_findArch mem .x32).found sb).mp hfind
  cases hlocated with
  | @pageDirectory p hp =>
    have halign := hp.aligned
    have hbelow := hp.below_hi
    have hlt : p < 2 ^ 24 := by omega
    refine ⟨halign, hlt, fun hlarge v e hv => ?_, fun v hv hk => ?_⟩
    · refine x32.walk_shift (shifts_pteVa32 halign hlt hp.holds hlarge) ?_ rfl hv
      intro step pt h0 hs
      have hs : step + 2 < 3 := hs
      omega
    · rw [x32.virtToPhys_eq_lone mem p hv]
      refine x32.lone_self ?_
      have hbytes := leU64_lt (bytesAt (content mem) (p + 0xc00) 4)
      rw [length_bytesAt] at hbytes
      obtain ⟨hhigh, -⟩ := selfRef32_eq halign hlt hbytes hp.holds.selfRef
      have hp' : p % 2 ^ 32 / 4096 * 4096 = p := by omega
      have hentry : x32.entryOf (content mem) p v 0 = readU64 (content mem) (p + 0xc00) := by
        rw [entryOf, x32_vtopStep (by omega), hk, hp']
      rw [hentry, x32_pteAddrMask (by omega), x32_pteAddrMask (by omega), readU64_low, hhigh, hp',
        Nat.div_mul_cancel (Nat.dvd_of_mod_eq_zero halign)]

/-- Such a table at page 0. -/
def selfMapped32 : FlatMemory := .ofWords
  ((0x0, 0x67) :: (0xc00, 0x3) :: (List.range 9).map fun i => (0x800 + 8 * i, 0x6300000063))

theorem pageDirectory_selfMapped32 : LowestPage (IsPageDirectory selfMapped32.bytes) 0 4096 0 :=
  ⟨rfl, by omega, by omega, ⟨by decide +kernel, by decide +kernel, by decide +kernel⟩, fun q _ _ h => absurd h (Nat.not_lt_zero q)⟩

theorem selfMap_x86_selfMapped32 : (0x0 : Nat) % 4096 = 0 ∧ 0x0 < Size.mb 16 ∧
      (Address.bitAt (readU64 (content selfMapped32) (0x0 + 0xc00)) 7 = false → ∀ v e,
        x32.entryAt (x32.tableNext (content selfMapped32)) 0x0 v 2 = some e →
        ∃ pa, x32.walk (content selfMapped32) 0x0 (pteVa32 v) = some pa ∧ readU64 (content selfMapped32) pa.address = e) ∧
      ∀ v, v + 1 < 2 ^ 64 → v / 2 ^ 22 % 1024 = 0x300 → x32.virtToPhys selfMapped32 0x0 v = none :=
  selfMap_x86 selfMapped32 ⟨x32Arch, 0, 0x0⟩
    (((finds_findArch selfMapped32 .x32).found _).mpr (.pageDirectory pageDirectory_selfMapped32))

end X86

/-! ## x86 with PAE -/

section X86Pae

theorem x32Pae_vtopStep_zero (e v : Nat) :
    x32Pae.vtopStep e v 0 = e % 2 ^ 36 / 32 * 32 + v / 2 ^ 30 % 4 * 8 := by
  rw [x32Pae.vtopStep_eq_add (show 0 + 1 < 4 by omega), x32Pae.pteAddrMask_eq (show 0 < 4 by omega),
    x32Pae.virtAddrToPteOffset_eq (show 0 < 4 by omega)]
  rfl

theorem x32Pae_vtopStep_one (e v : Nat) :
    x32Pae.vtopStep e v 1 = e % 2 ^ 36 / 4096 * 4096 + v / 2 ^ 21 % 512 * 8 := by
  rw [x32Pae.vtopStep_eq_add (show 1 + 1 < 4 by omega), x32Pae.pteAddrMask_eq (show 1 < 4 by omega),
    x32Pae.virtAddrToPteOffset_eq (show 1 < 4 by omega)]
  rfl

variable {c : Nat → UInt8} {p v : Nat}

/-- The pointer that is followed. -/
theorem entryOf_pdpt (hp : p % 4096 = 0) (hlt : p < 2 ^ 24) (h : IsPdpt c p) (hv : v < 2 ^ 32) :
    x32Pae.entryOf c p v 0 = p + v / 2 ^ 30 * 4096 + 0x1001 := by
  have hi : v / 2 ^ 30 < 4 := by omega
  have hp' : p % 2 ^ 36 / 32 * 32 = p := by omega
  have hword := h.pointers (v / 2 ^ 30) hi
  have hsh : (v / 2 ^ 30 * 8) <<< 9 = v / 2 ^ 30 * 4096 := by
    rw [Nat.shiftLeft_eq, Nat.mul_assoc]
  rw [hsh, Address.add_eq (b := v / 2 ^ 30 * 4096) (by omega), Address.add_eq (by omega)] at hword
  rw [entryOf, x32Pae_vtopStep_zero, hp', Nat.mod_eq_of_lt hi, Nat.mul_comm _ 8, hword]

/-- From the pointer on, the entries of the four directories are those of one. -/
theorem vtopStep_directory (hp : p % 4096 = 0) (hlt : p < 2 ^ 24) (hv : v < 2 ^ 32) :
    x32Pae.vtopStep (p + v / 2 ^ 30 * 4096 + 0x1001) v 1 = p + 0x1000 + v / 2 ^ 21 * 8 := by
  rw [x32Pae_vtopStep_one]
  omega

theorem x32Pae_pteAddrMask_zero (e : Nat) : x32Pae.pteAddrMask e 0 = e % 2 ^ 36 / 32 * 32 :=
  x32Pae.pteAddrMask_eq (show 0 < 4 by omega) e

theorem x32Pae_pteAddrMask_one (e : Nat) : x32Pae.pteAddrMask e 1 = e % 2 ^ 36 / 4096 * 4096 :=
  x32Pae.pteAddrMask_eq (show 1 < 4 by omega) e

variable {M : Type} [PhysicalMemory M] [LawfulMemory M] [AnswersReads M]

/-- The four directories lie in a row behind the page of pointers: an address is translated
    as with one directory of 2048 entries there, but for an entry that leads back to its own
    quarter, which the code does not follow. -/
theorem directory_x86Pae (mem : M) (sb : StartBlock) (hfind : (findArch mem .x32Pae).2 = .ok sb) :
    sb.dtb % 4096 = 0 ∧ sb.dtb < Size.mb 16 ∧ ∀ v < 2 ^ 32, ∀ e, e = readU64 (content mem) (sb.dtb + 0x1000 + v / 2 ^ 21 * 8) →
      x32Pae.walk (content mem) sb.dtb v = x32Pae.walkFrom (x32Pae.tableNext (content mem)) v 2 2 e ∧
      x32Pae.virtToPhys mem sb.dtb v =
        if x32Pae.pteAddrMask e 1 = sb.dtb + 0x1000 + v / 2 ^ 30 * 0x1000 then none
        else x32Pae.walkFrom (x32Pae.loneNext (content mem)) v 2 2 e := by
  have hlocated := ((finds_findArch mem .x32Pae).found sb).mp hfind
  cases hlocated with
  | @pdpt p hp =>
    have halign := hp.aligned
    have hbelow := hp.below_hi
    have hlt : p < 2 ^ 24 := by omega
    refine ⟨halign, hlt, fun v hv e he => ?_⟩
    have hpt := entryOf_pdpt halign hlt hp.holds hv
    have hpresent : x32Pae.checkEntry (p + v / 2 ^ 30 * 4096 + 0x1001) 1 = true := by
      show Address.bitAt _ 0 = true
      exact bitAt_of_mod (n := 1) (r := 1) (by omega) (by omega)
    have hinner : x32Pae.isFinalMapping (p + v / 2 ^ 30 * 4096 + 0x1001) 1 = false := by
      simp [isFinalMapping, x32Pae]
    have hdir : x32Pae.entryOf (content mem) (p + v / 2 ^ 30 * 4096 + 0x1001) v 1 = e := by
      rw [entryOf, vtopStep_directory halign hlt hv, he]
    have hself : x32Pae.pteAddrMask p 0 ≠ x32Pae.pteAddrMask (p + v / 2 ^ 30 * 4096 + 0x1001) 0 := by
      rw [x32Pae_pteAddrMask_zero, x32Pae_pteAddrMask_zero]
      omega
    have hquarter : x32Pae.pteAddrMask (p + v / 2 ^ 30 * 4096 + 0x1001) 1 = p + 0x1000 + v / 2 ^ 30 * 0x1000 := by
      rw [x32Pae_pteAddrMask_one]
      omega
    refine ⟨?_, ?_⟩
    · have h1 : x32Pae.entryAt (x32Pae.tableNext (content mem)) p v 1 = some (p + v / 2 ^ 30 * 4096 + 0x1001) := by
        rw [x32Pae.entryAt_one, tableNext, hpt]
      have h2 : x32Pae.entryAt (x32Pae.tableNext (content mem)) p v 2 = some e := by
        rw [x32Pae.entryAt_succ h1 hpresent hinner, tableNext, hdir]
      exact x32Pae.walkFrom_entryAt (show 2 ≤ 4 by omega) h2
    · rw [x32Pae.virtToPhys_eq_lone mem p (by omega)]
      have h1 : x32Pae.entryAt (x32Pae.loneNext (content mem)) p v 1 = some (p + v / 2 ^ 30 * 4096 + 0x1001) := by
        rw [x32Pae.entryAt_one, loneNext, hpt, if_neg hself]
      have hnext : x32Pae.loneNext (content mem) (p + v / 2 ^ 30 * 4096 + 0x1001) v 1 =
          if x32Pae.pteAddrMask e 1 = p + 0x1000 + v / 2 ^ 30 * 0x1000 then none else some e := by
        rw [loneNext, hdir, hquarter]
        by_cases hq : x32Pae.pteAddrMask e 1 = p + 0x1000 + v / 2 ^ 30 * 0x1000
        · rw [if_pos hq, if_pos hq.symm]
        · rw [if_neg hq, if_neg fun h => hq h.symm]
      show x32Pae.lone (content mem) p v = if x32Pae.pteAddrMask e 1 = p + 0x1000 + v / 2 ^ 30 * 0x1000 then none else _
      by_cases hq : x32Pae.pteAddrMask e 1 = p + 0x1000 + v / 2 ^ 30 * 0x1000
      · rw [if_pos hq] at hnext ⊢
        exact x32Pae.walkFrom_stop (show 1 < 4 by omega) h1 hpresent hinner hnext
      · rw [if_neg hq] at hnext ⊢
        have h2 : x32Pae.entryAt (x32Pae.loneNext (content mem)) p v 2 = some e := by
          rw [x32Pae.entryAt_succ h1 hpresent hinner, hnext]
        exact x32Pae.walkFrom_entryAt (show 2 ≤ 4 by omega) h2

/-- Such a page of pointers at page 0. -/
def pointers : FlatMemory := .ofWords [(0x0, 0x1001), (0x8, 0x2001), (0x10, 0x3001), (0x18, 0x4001)]

theorem pdpt_pointers : LowestPage (IsPdpt pointers.bytes) 0 4096 0 :=
  ⟨rfl, by omega, by omega, ⟨by decide +kernel, by decide +kernel⟩, fun q _ _ h => absurd h (Nat.not_lt_zero q)⟩

theorem directory_x86Pae_pointers : (0x0 : Nat) % 4096 = 0 ∧ 0x0 < Size.mb 16 ∧ ∀ v < 2 ^ 32, ∀ e,
      e = readU64 (content pointers) (0x0 + 0x1000 + v / 2 ^ 21 * 8) →
      x32Pae.walk (content pointers) 0x0 v = x32Pae.walkFrom (x32Pae.tableNext (content pointers)) v 2 2 e ∧
      x32Pae.virtToPhys pointers 0x0 v =
        if x32Pae.pteAddrMask e 1 = 0x0 + 0x1000 + v / 2 ^ 30 * 0x1000 then none
        else x32Pae.walkFrom (x32Pae.loneNext (content pointers)) v 2 2 e :=
  directory_x86Pae pointers ⟨x32PaeArch, 0, 0x0⟩ (((finds_findArch pointers .x32Pae).found _).mpr (.pdpt pdpt_pointers))

end X86Pae

end Jiaa.Win32.StartBlock
