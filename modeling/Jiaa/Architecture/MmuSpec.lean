/-
  Jiaa.Architecture.MmuSpec — what an architecture's page tables look like
  (memflow `architecture/mmu_spec.rs`, `architecture/x86/{x64,x32,x32_pae}.rs`).

  A virtual address is split into table indices and a page offset; an entry read at one
  step points at the table of the next, or at a page. `ArchMMUSpec` carries the bounds its
  tables keep, so no theorem asks for them again.

  - `vtopStep_congr`: the entry of an address depends on its page of the next step only;
  - `pteAddrMask_vtopStep`: an entry's address lies in the table it was asked from;
  - `physPage_shift`: moving inside a page moves the physical address as much, exactly
    when the two page offsets meet the same bits of the masked entry.
-/

import Jiaa.Mem.PhysMem

namespace Jiaa

structure ArchMMUSpec where
  virtualAddressSplits : List Nat
  validFinalPageSteps : List Nat
  addressSpaceBits : Nat
  addrSize : Nat
  pteSize : Nat
  presentBit : Nat
  writeableBit : Nat
  nxBit : Nat
  largePageBit : Nat
  splits_pos : ∀ s ∈ virtualAddressSplits, 0 < s := by decide
  two_le_splits : 2 ≤ virtualAddressSplits.length := by decide
  splits_sum_le : virtualAddressSplits.sum ≤ addrSize * 8 := by decide
  addrSize_le : addrSize ≤ 8 := by decide
  pteSize_pow : pteSize = 2 ^ pteSize.log2 := by decide
  mask_lt : ∀ s ∈ virtualAddressSplits, s + pteSize.log2 < addressSpaceBits := by decide
  addressSpaceBits_le : addressSpaceBits ≤ 52 := by decide
  /-- The code's remark: the list has to be sorted, for `binary_search`. -/
  sorted : validFinalPageSteps.Pairwise (· < ·) := by decide
  zero_not_final : 0 ∉ validFinalPageSteps := by decide

namespace ArchMMUSpec

variable (self : ArchMMUSpec)

def splitAtStep (step : Nat) : Nat := (self.virtualAddressSplits[step]?).getD 0

/-- `virtual_address_splits[step..].iter().sum()`. -/
def indexBits (step : Nat) : Nat := (self.virtualAddressSplits.drop step).sum

/-- The logarithm is the `trailing_zeros` of a power of two. -/
def pteMaskMin (step : Nat) : Nat :=
  self.splitAtStep step + if step = self.virtualAddressSplits.length - 1 then 0 else self.pteSize.log2

def pteAddrMask (pteAddr step : Nat) : Nat :=
  pteAddr &&& Address.bitMask (self.pteMaskMin step) (self.addressSpaceBits - 1)

def virtAddrBitRange (step : Nat) : Nat × Nat :=
  let maxIndexBits := self.indexBits step
  (maxIndexBits - self.splitAtStep step, maxIndexBits)

def virtAddrToPteOffset (virtAddr step : Nat) : Nat :=
  let (min, max) := self.virtAddrBitRange step
  ((virtAddr >>> min) &&& Address.bitMask 0 (max - min - 1)) * self.pteSize

def virtAddrToPageOffset (virtAddr step : Nat) : Nat :=
  virtAddr &&& Address.bitMask 0 ((self.virtAddrBitRange step).2 - 1)

def splitCount : Nat := self.virtualAddressSplits.length

def ptLeafSize (step : Nat) : Nat :=
  let (min, max) := self.virtAddrBitRange step
  (1 <<< (max - min)) * self.pteSize

def vtopStep (pteAddr virtAddr step : Nat) : Nat :=
  self.pteAddrMask pteAddr step ||| self.virtAddrToPteOffset virtAddr step

def pageSizeStepUnchecked (step : Nat) : Nat := 1 <<< self.indexBits step

/-- In a build without debug assertions, `page_size_step_unchecked`. -/
def pageSizeStep (step : Nat) : Nat := self.pageSizeStepUnchecked step

def pageSizeLevel (level : Nat) : Nat := self.pageSizeStep (self.virtualAddressSplits.length - level)

def getPhysPage (pteAddr virtAddr step : Nat) : PhysicalAddress :=
  PhysicalAddress.withPage (self.pteAddrMask pteAddr step ||| self.virtAddrToPageOffset virtAddr step)
    ((PageType.unknown.write (Address.bitAt pteAddr self.writeableBit)).noexec
      (Address.bitAt pteAddr self.nxBit))
    (self.pageSizeStep step)

def checkEntry (pteAddr step : Nat) : Bool := step == 0 || Address.bitAt pteAddr self.presentBit

def isFinalMapping (pteAddr step : Nat) : Bool :=
  step == self.virtualAddressSplits.length - 1 ||
    (Address.bitAt pteAddr self.largePageBit && self.validFinalPageSteps.contains step)

/-! ## Page sizes -/

theorem pageSizeStepUnchecked_eq (step : Nat) : self.pageSizeStepUnchecked step = 2 ^ self.indexBits step := by
  rw [pageSizeStepUnchecked, Nat.one_shiftLeft]

theorem pageSize_pos (step : Nat) : 0 < self.pageSizeStepUnchecked step := by
  rw [pageSizeStepUnchecked_eq]; exact Nat.two_pow_pos _

theorem indexBits_succ {step : Nat} (h : step < self.splitCount) :
    self.indexBits step = self.splitAtStep step + self.indexBits (step + 1) := by
  have hd := List.drop_eq_getElem_cons h
  rw [indexBits, hd, List.sum_cons, indexBits, splitAtStep, List.getElem?_eq_getElem h, Option.getD_some]

theorem splitAtStep_mem {step : Nat} (h : step < self.splitCount) :
    self.splitAtStep step ∈ self.virtualAddressSplits := by
  rw [splitAtStep, List.getElem?_eq_getElem h, Option.getD_some]
  exact List.getElem_mem h

theorem splitAtStep_pos {step : Nat} (h : step < self.splitCount) : 0 < self.splitAtStep step :=
  self.splits_pos _ (self.splitAtStep_mem h)

theorem indexBits_le (step : Nat) : self.indexBits step ≤ 64 := by
  have h : (self.virtualAddressSplits.take step ++ self.virtualAddressSplits.drop step).sum =
      (self.virtualAddressSplits.take step).sum + (self.virtualAddressSplits.drop step).sum := List.sum_append
  rw [List.take_append_drop] at h
  have h1 := self.splits_sum_le
  have h2 := self.addrSize_le
  rw [indexBits]
  omega

/-- A page of one step is a union of pages of the next. -/
theorem pageSize_dvd {step : Nat} (h : step < self.splitCount) :
    self.pageSizeStepUnchecked (step + 1) ∣ self.pageSizeStepUnchecked step := by
  rw [pageSizeStepUnchecked_eq, pageSizeStepUnchecked_eq]
  exact Nat.pow_dvd_pow 2 (by have := self.indexBits_succ h; omega)

theorem pageSize_dvd_word (step : Nat) : self.pageSizeStepUnchecked step ∣ 2 ^ 64 := by
  rw [pageSizeStepUnchecked_eq]; exact Nat.pow_dvd_pow 2 (self.indexBits_le step)

theorem indexBits_lt {step : Nat} (h : step < self.splitCount) : self.indexBits (step + 1) < 64 := by
  have h1 := self.indexBits_succ h
  have h2 := self.splitAtStep_pos h
  have h3 := self.indexBits_le step
  omega

theorem pageSize_lt {step : Nat} (h : step < self.splitCount) : self.pageSizeStepUnchecked (step + 1) < 2 ^ 64 := by
  rw [pageSizeStepUnchecked_eq]
  exact Nat.pow_lt_pow_right (by omega) (self.indexBits_lt h)

/-! ## Entries -/

theorem virtAddrToPteOffset_eq {step : Nat} (h : step < self.splitCount) (v : Nat) :
    self.virtAddrToPteOffset v step =
      v / self.pageSizeStepUnchecked (step + 1) % 2 ^ self.splitAtStep step * self.pteSize := by
  have hs := self.indexBits_succ h
  have hp := self.splitAtStep_pos h
  have hle := self.indexBits_le step
  have e : self.indexBits step - self.splitAtStep step = self.indexBits (step + 1) := by omega
  have e' : self.indexBits step - self.indexBits (step + 1) - 1 = self.splitAtStep step - 1 := by omega
  simp only [virtAddrToPteOffset, virtAddrBitRange, e, e']
  rw [Address.and_bitMask (by omega) (by omega), Nat.shiftRight_eq_div_pow, pageSizeStepUnchecked_eq,
    show self.splitAtStep step - 1 + 1 = self.splitAtStep step by omega, Nat.pow_zero, Nat.div_one, Nat.mul_one]

/-- The entry of an address is the entry of its page of the next step. -/
theorem vtopStep_congr {step : Nat} (h : step < self.splitCount) {v w : Nat}
    (hvw : v / self.pageSizeStepUnchecked (step + 1) = w / self.pageSizeStepUnchecked (step + 1)) (pt : Nat) :
    self.vtopStep pt v step = self.vtopStep pt w step := by
  simp only [vtopStep, self.virtAddrToPteOffset_eq h, hvw]

theorem pteAddrMask_eq {step : Nat} (h : step < self.splitCount) (e : Nat) :
    self.pteAddrMask e step =
      e % 2 ^ self.addressSpaceBits / 2 ^ self.pteMaskMin step * 2 ^ self.pteMaskMin step := by
  have hm := self.mask_lt _ (self.splitAtStep_mem h)
  have hb := self.addressSpaceBits_le
  have hmin : self.pteMaskMin step ≤ self.addressSpaceBits - 1 := by
    unfold pteMaskMin; split <;> omega
  rw [pteAddrMask, Address.and_bitMask hmin (by omega),
    show self.addressSpaceBits - 1 + 1 = self.addressSpaceBits by omega]

theorem pteAddrMask_lt {step : Nat} (h : step < self.splitCount) (e : Nat) : self.pteAddrMask e step < 2 ^ 52 := by
  rw [self.pteAddrMask_eq h]
  have h1 : e % 2 ^ self.addressSpaceBits < 2 ^ self.addressSpaceBits := Nat.mod_lt _ (Nat.two_pow_pos _)
  have h2 : 2 ^ self.addressSpaceBits ≤ 2 ^ 52 := Nat.pow_le_pow_right (by omega) self.addressSpaceBits_le
  have h3 := Nat.div_mul_le_self (e % 2 ^ self.addressSpaceBits) (2 ^ self.pteMaskMin step)
  omega

/-- An entry lies in its table. -/
theorem virtAddrToPteOffset_lt {step : Nat} (h : step + 1 < self.splitCount) (v : Nat) :
    self.virtAddrToPteOffset v step < 2 ^ self.pteMaskMin step := by
  have hl : step ≠ self.virtualAddressSplits.length - 1 := by
    have : step + 1 < self.virtualAddressSplits.length := h
    omega
  rw [self.virtAddrToPteOffset_eq (by omega), pteMaskMin, if_neg hl, Nat.pow_add]
  conv_rhs => rw [← self.pteSize_pow]
  have hp : 0 < self.pteSize := by rw [self.pteSize_pow]; exact Nat.two_pow_pos _
  exact Nat.mul_lt_mul_of_pos_right (Nat.mod_lt _ (Nat.two_pow_pos _)) hp

theorem vtopStep_lt {step : Nat} (h : step + 1 < self.splitCount) (pt v : Nat) : self.vtopStep pt v step < 2 ^ 52 := by
  have hm := self.mask_lt _ (self.splitAtStep_mem (show step < self.splitCount by omega))
  have hb := self.addressSpaceBits_le
  have hmin : self.pteMaskMin step ≤ 52 := by
    unfold pteMaskMin; split <;> omega
  have hoff := self.virtAddrToPteOffset_lt h v
  have hle : 2 ^ self.pteMaskMin step ≤ 2 ^ 52 := Nat.pow_le_pow_right (by omega) hmin
  exact Nat.or_lt_two_pow (self.pteAddrMask_lt (by omega) pt) (by omega)

/-- The address asked for lies in the table of the entry it is asked from. -/
theorem pteAddrMask_vtopStep {step : Nat} (h : step + 1 < self.splitCount) (pt v : Nat) :
    self.pteAddrMask (self.vtopStep pt v step) step = self.pteAddrMask pt step := by
  have hoff := self.virtAddrToPteOffset_lt h v
  have hzero : self.pteAddrMask (self.virtAddrToPteOffset v step) step = 0 := by
    have hlt := Nat.mod_le (self.virtAddrToPteOffset v step) (2 ^ self.addressSpaceBits)
    rw [self.pteAddrMask_eq (by omega), Nat.div_eq_of_lt (by omega), Nat.zero_mul]
  rw [vtopStep, pteAddrMask, Nat.and_or_distrib_right]
  rw [pteAddrMask] at hzero
  rw [hzero, Nat.or_zero, pteAddrMask, Nat.and_assoc, Nat.and_self]

/-! ## Physical pages -/

theorem virtAddrToPageOffset_eq {step : Nat} (h : step < self.splitCount) (v : Nat) :
    self.virtAddrToPageOffset v step = v % self.pageSizeStepUnchecked step := by
  have h1 := self.indexBits_succ h
  have h2 := self.splitAtStep_pos h
  have h3 := self.indexBits_le step
  simp only [virtAddrToPageOffset, virtAddrBitRange]
  rw [Address.and_bitMask (by omega) (by omega), pageSizeStepUnchecked_eq,
    show self.indexBits step - 1 + 1 = self.indexBits step by omega, Nat.pow_zero, Nat.div_one, Nat.mul_one]

/-- Moving `i` bytes inside a page of step `step` moves the physical address as much
    exactly when the masked entry meets the same bits of both page offsets. -/
theorem physPage_shift {step : Nat} (h : step < self.splitCount) (pt : Nat) {a i : Nat}
    (hpage : (a + i) / self.pageSizeStepUnchecked step = a / self.pageSizeStepUnchecked step) :
    (self.getPhysPage pt a step).address + i = (self.getPhysPage pt (a + i) step).address ↔
      self.pteAddrMask pt step &&& self.virtAddrToPageOffset a step =
        self.pteAddrMask pt step &&& self.virtAddrToPageOffset (a + i) step := by
  have ho : self.virtAddrToPageOffset (a + i) step = self.virtAddrToPageOffset a step + i := by
    rw [self.virtAddrToPageOffset_eq h, self.virtAddrToPageOffset_eq h]
    have h1 := Nat.div_add_mod (a + i) (self.pageSizeStepUnchecked step)
    have h2 := Nat.div_add_mod a (self.pageSizeStepUnchecked step)
    rw [hpage] at h1
    omega
  have h1 := Lib.Bits.or_add_and (self.pteAddrMask pt step) (self.virtAddrToPageOffset a step)
  have h2 := Lib.Bits.or_add_and (self.pteAddrMask pt step) (self.virtAddrToPageOffset (a + i) step)
  simp only [getPhysPage, PhysicalAddress.withPage]
  omega

end ArchMMUSpec

/-! ## The three specs of `architecture/x86` -/

def x64 : ArchMMUSpec where
  virtualAddressSplits := [9, 9, 9, 9, 12]
  validFinalPageSteps := [2, 3, 4]
  addressSpaceBits := 52
  addrSize := 8
  pteSize := 8
  presentBit := 0
  writeableBit := 1
  nxBit := 63
  largePageBit := 7

def x32 : ArchMMUSpec where
  virtualAddressSplits := [10, 10, 12]
  validFinalPageSteps := [1, 2]
  addressSpaceBits := 32
  addrSize := 4
  pteSize := 4
  presentBit := 0
  writeableBit := 1
  nxBit := 31
  largePageBit := 7

def x32Pae : ArchMMUSpec where
  virtualAddressSplits := [2, 9, 9, 12]
  validFinalPageSteps := [2, 3]
  addressSpaceBits := 36
  addrSize := 4
  pteSize := 8
  presentBit := 0
  writeableBit := 1
  nxBit := 63
  largePageBit := 7

end Jiaa
