/-
  Jiaa.Architecture.LargePages — the address a large page resolves to
  (memflow `architecture/mmu_spec.rs`: `get_phys_page`).

  `pte_addr_mask` masks an entry for the step's table. For the last step that leaves the
  frame of a page; for a step with large pages it leaves the bits from 12 on, below the
  size of the page too, and `get_phys_page` joins them with the offset.

  - `framePlusOffset_iff`: a page resolves to its frame and the offset exactly when no
    bit the mask leaves below the page's size is set in the entry and not in the address;
  - `largePages_iff`: for the three specs these are the bits from 12 on.
-/

import Jiaa.Architecture.MmuSpec

namespace Jiaa.ArchMMUSpec

variable (self : ArchMMUSpec)

/-- The frame of a page of step `step`: the entry's bits from the page size on. -/
def frameBase (pteAddr step : Nat) : Nat :=
  pteAddr % 2 ^ self.addressSpaceBits / self.pageSizeStep step * self.pageSizeStep step

/-- The page resolves to its frame and the offset in it. -/
def FramePlusOffset (pteAddr virtAddr step : Nat) : Prop :=
  (self.getPhysPage pteAddr virtAddr step).address = self.frameBase pteAddr step + virtAddr % self.pageSizeStep step

/-- The bits of the entry from `lo` on that are below the page size are set in the address. -/
def AttributesInOffset (lo pteAddr virtAddr step : Nat) : Prop :=
  ∀ i, lo ≤ i → 2 ^ i < self.pageSizeStep step → pteAddr.testBit i = true → virtAddr.testBit i = true

theorem testBit_frame (e n k i : Nat) :
    (e % 2 ^ n / 2 ^ k * 2 ^ k).testBit i = (decide (k ≤ i) && (decide (i < n) && e.testBit i)) := by
  rw [Nat.testBit_mul_two_pow, Nat.testBit_div_two_pow, Nat.testBit_mod_two_pow]
  by_cases h : k ≤ i
  · simp [h, Nat.sub_add_cancel h]
  · simp [h]

/-- The frame and the offset share no bit. -/
theorem frame_add_offset (a b k : Nat) : a / 2 ^ k * 2 ^ k + b % 2 ^ k = a / 2 ^ k * 2 ^ k ||| b % 2 ^ k := by
  rw [Nat.mul_comm]
  exact Nat.two_pow_add_eq_or_of_lt (Nat.mod_lt _ (Nat.two_pow_pos k)) _

theorem framePlusOffset_iff {step : Nat} (h : step < self.splitCount) (hmin : self.pteMaskMin step ≤ self.indexBits step)
    (hmax : self.indexBits step ≤ self.addressSpaceBits) (e v : Nat) :
    self.FramePlusOffset e v step ↔ self.AttributesInOffset (self.pteMaskMin step) e v step := by
  have hsize : self.pageSizeStep step = 2 ^ self.indexBits step := self.pageSizeStepUnchecked_eq step
  have hoff : self.virtAddrToPageOffset v step = v % 2 ^ self.indexBits step := by
    rw [self.virtAddrToPageOffset_eq h, self.pageSizeStepUnchecked_eq]
  unfold FramePlusOffset AttributesInOffset
  simp only [getPhysPage, PhysicalAddress.withPage, frameBase, hsize, hoff]
  rw [self.pteAddrMask_eq h, frame_add_offset]
  constructor
  · intro heq i hlo hi he
    have hlt : i < self.indexBits step := (Nat.pow_lt_pow_iff_right (by omega)).mp hi
    have hbit := congrArg (fun x => x.testBit i) heq
    simp only [Nat.testBit_or, testBit_frame, Nat.testBit_mod_two_pow, he] at hbit
    simpa [hlo, hlt, Nat.not_le.mpr hlt, show i < self.addressSpaceBits by omega] using hbit
  · intro hbits
    apply Nat.eq_of_testBit_eq
    intro i
    simp only [Nat.testBit_or, testBit_frame, Nat.testBit_mod_two_pow]
    by_cases hk : i < self.indexBits step
    · by_cases hlo : self.pteMaskMin step ≤ i
      · -- a bit the mask leaves below the page size
        have := hbits i hlo (Nat.pow_lt_pow_right (by omega) hk)
        cases he : e.testBit i with
        | false => simp [hk, Nat.not_le.mpr hk]
        | true => simp [hk, this he]
      · simp [hlo, Nat.not_le.mpr hk]
    · have : self.pteMaskMin step ≤ i := by omega
      simp [hk, this, Nat.not_lt.mp hk]

/-- At a step that can hold a page, the mask leaves the bits from 12 on. -/
theorem finalSteps : ∀ spec ∈ [x64, x32, x32Pae], ∀ step ∈ spec.validFinalPageSteps,
    step < spec.splitCount ∧ spec.pteMaskMin step = 12 ∧ 12 ≤ spec.indexBits step ∧
      spec.indexBits step ≤ spec.addressSpaceBits := by
  intro spec hspec
  simp only [List.mem_cons, List.not_mem_nil, or_false] at hspec
  rcases hspec with rfl | rfl | rfl
  all_goals decide

/-- An entry that is a page of the x64, x32 or x32 PAE tables resolves to its frame and the
    offset exactly when its bits from 12 up to the page size are set in the address. -/
theorem largePages_iff : ∀ spec ∈ [x64, x32, x32Pae], ∀ step ∈ spec.validFinalPageSteps, ∀ e v : Nat,
    e < 2 ^ 64 → v < 2 ^ 64 → spec.isFinalMapping e step = true →
      (spec.FramePlusOffset e v step ↔ spec.AttributesInOffset 12 e v step) := by
  intro spec hspec step hstep e v _ _ _
  obtain ⟨h1, h2, h3, h4⟩ := finalSteps spec hspec step hstep
  rw [spec.framePlusOffset_iff h1 (by omega) h4, h2]

/-- A 2 MB page, bit 12 of the entry and of the address set. -/
theorem largePages_patInOffset : x64.FramePlusOffset 0x201083 0x1234 3 :=
  (largePages_iff x64 (by simp) 3 (by decide) 0x201083 0x1234 (by decide) (by decide) (by decide)).mpr (by
    intro i hlo hi he
    have hbits : ∀ i < 21, 12 ≤ i → Nat.testBit 0x201083 i = true → Nat.testBit 0x1234 i = true := by decide
    exact hbits i ((Nat.pow_lt_pow_iff_right (by omega)).mp (show 2 ^ i < 2 ^ 21 from hi)) hlo he)

/-- Bit 12 of a 2 MB entry moves the page by 0x1000. -/
theorem largePages_pat :
    3 ∈ x64.validFinalPageSteps ∧ x64.isFinalMapping 0x201083 3 = true ∧
      (x64.getPhysPage 0x201083 0x234 3).address = 0x201234 ∧ x64.frameBase 0x201083 3 + 0x234 % x64.pageSizeStep 3 = 0x200234 ∧
      ¬ x64.FramePlusOffset 0x201083 0x234 3 := by
  unfold FramePlusOffset
  decide

end Jiaa.ArchMMUSpec
