/-
  Jiaa.Architecture.Walk — the page walk of one address.

  `walk` is the walk the page tables mean, built from the functions of `ArchMMUSpec`:
  read an entry, stop at one that is absent, deliver at one that is final. The code's
  walk of a lone byte, `lone`, also stops at an entry that points at the table it was
  read from. Both are `walkFrom` with their own way to go on; `entryAt` is the entry a
  walk holds at a step.

  - `walkFrom_entryAt`: a walk is the walk from any entry it holds;
  - `lone_eq_walk`: the two walks agree where no entry points at its own table.
-/

import Jiaa.Architecture.MmuSpec

namespace Jiaa.ArchMMUSpec

variable (self : ArchMMUSpec)

/-- How a walk at the entry `pt` of step `step` goes on towards `v`. -/
abbrev Next := Nat → Nat → Nat → Option Nat

def walkFrom (next : Next) (v : Nat) : Nat → Nat → Nat → Option PhysicalAddress
  | 0, _, _ => none
  | rounds + 1, step, pt =>
    if !self.checkEntry pt step then none
    else if self.isFinalMapping pt step then some (self.getPhysPage pt v step)
    else (next pt v step).bind fun pt => walkFrom next v rounds (step + 1) pt

def entryAt (next : Next) (dtb v : Nat) : Nat → Option Nat
  | 0 => some dtb
  | step + 1 => (entryAt next dtb v step).bind fun pt =>
    if self.checkEntry pt step && !self.isFinalMapping pt step then next pt v step else none

/-- The entry of `v` in the table that `pt` points at. -/
def entryOf (c : Nat → UInt8) (pt v step : Nat) : Nat := readU64 c (self.vtopStep pt v step)

def tableNext (c : Nat → UInt8) : Next := fun pt v step => some (self.entryOf c pt v step)

def loneNext (c : Nat → UInt8) : Next := fun pt v step =>
  if self.pteAddrMask pt step = self.pteAddrMask (self.entryOf c pt v step) step then none
  else some (self.entryOf c pt v step)

/-- The byte-by-byte walk of the page tables of `dtb`. -/
def walk (c : Nat → UInt8) (dtb v : Nat) : Option PhysicalAddress :=
  self.walkFrom (self.tableNext c) v self.splitCount 0 dtb

def lone (c : Nat → UInt8) (dtb v : Nat) : Option PhysicalAddress :=
  self.walkFrom (self.loneNext c) v self.splitCount 0 dtb

/-- The page of step `step` an address lies in; before the first step there is one. -/
def pageOf (step v : Nat) : Nat := if step = 0 then 0 else v / self.pageSizeStepUnchecked step

/-! ## Steps of a walk -/

theorem entryAt_succ {next : Next} {dtb v step pt : Nat} (h : self.entryAt next dtb v step = some pt)
    (hc : self.checkEntry pt step = true) (hf : self.isFinalMapping pt step = false) :
    self.entryAt next dtb v (step + 1) = next pt v step := by
  simp only [entryAt, h, Option.bind_some, hc, hf, Bool.not_false, Bool.and_self, if_true]

theorem entryAt_succ_some {next : Next} {dtb v step e : Nat} (h : self.entryAt next dtb v (step + 1) = some e) :
    ∃ pt, self.entryAt next dtb v step = some pt ∧ self.checkEntry pt step = true ∧
      self.isFinalMapping pt step = false ∧ next pt v step = some e := by
  obtain ⟨pt, h1, h2⟩ := Option.bind_eq_some_iff.mp h
  split at h2
  · next hc =>
    simp only [Bool.and_eq_true, Bool.not_eq_true'] at hc
    exact ⟨pt, h1, hc.1, hc.2, h2⟩
  · cases h2

/-- A walk is the walk from the entry it holds at any step. -/
theorem walkFrom_entryAt {next : Next} {dtb v : Nat} : ∀ {step pt : Nat}, step ≤ self.splitCount →
    self.entryAt next dtb v step = some pt →
    self.walkFrom next v self.splitCount 0 dtb = self.walkFrom next v (self.splitCount - step) step pt := by
  intro step
  induction step with
  | zero => intro pt _ h; cases h; rfl
  | succ step ih =>
    intro e hs h
    obtain ⟨pt, h1, hc, hf, h2⟩ := self.entryAt_succ_some h
    rw [ih (by omega) h1, show self.splitCount - step = (self.splitCount - (step + 1)) + 1 by omega, walkFrom, hc, hf, h2]
    rfl

theorem walkFrom_absent {next : Next} {dtb v step pt : Nat} (hs : step < self.splitCount)
    (h : self.entryAt next dtb v step = some pt) (hc : self.checkEntry pt step = false) :
    self.walkFrom next v self.splitCount 0 dtb = none := by
  rw [self.walkFrom_entryAt (by omega) h, show self.splitCount - step = (self.splitCount - step - 1) + 1 by omega,
    walkFrom, hc]
  rfl

theorem walkFrom_final {next : Next} {dtb v step pt : Nat} (hs : step < self.splitCount)
    (h : self.entryAt next dtb v step = some pt) (hc : self.checkEntry pt step = true)
    (hf : self.isFinalMapping pt step = true) :
    self.walkFrom next v self.splitCount 0 dtb = some (self.getPhysPage pt v step) := by
  rw [self.walkFrom_entryAt (by omega) h, show self.splitCount - step = (self.splitCount - step - 1) + 1 by omega,
    walkFrom, hc, hf]
  rfl

theorem walkFrom_stop {next : Next} {dtb v step pt : Nat} (hs : step < self.splitCount)
    (h : self.entryAt next dtb v step = some pt) (hc : self.checkEntry pt step = true)
    (hf : self.isFinalMapping pt step = false) (hn : next pt v step = none) :
    self.walkFrom next v self.splitCount 0 dtb = none := by
  rw [self.walkFrom_entryAt (by omega) h, show self.splitCount - step = (self.splitCount - step - 1) + 1 by omega,
    walkFrom, hc, hf, hn]
  rfl

/-- The last step is final. -/
theorem isFinalMapping_last {step : Nat} (h : step + 1 = self.splitCount) (pt : Nat) :
    self.isFinalMapping pt step = true := by
  have : step = self.virtualAddressSplits.length - 1 := by
    unfold splitCount at h; omega
  simp [isFinalMapping, this]

/-- A step that is not final is not the last. -/
theorem succ_lt_of_not_final {step pt : Nat} (hs : step < self.splitCount)
    (hf : self.isFinalMapping pt step = false) : step + 1 < self.splitCount := by
  by_contra hn
  rw [self.isFinalMapping_last (by omega)] at hf
  cases hf

theorem isFinalMapping_zero (pt : Nat) : self.isFinalMapping pt 0 = false := by
  have h2 := self.two_le_splits
  have h0 : self.validFinalPageSteps.contains 0 = false := by simpa using self.zero_not_final
  have hl : (0 == self.virtualAddressSplits.length - 1) = false := by simp; omega
  simp only [isFinalMapping, h0, hl, Bool.and_false, Bool.or_self]

theorem pageOf_succ (step v : Nat) : self.pageOf (step + 1) v = v / self.pageSizeStepUnchecked (step + 1) := rfl

/-- Pages of the next step refine those of a step. -/
theorem pageOf_refines {step v w : Nat} (hs : step < self.splitCount)
    (h : self.pageOf (step + 1) v = self.pageOf (step + 1) w) : self.pageOf step v = self.pageOf step w := by
  cases step with
  | zero => rfl
  | succ step => exact Lib.Bits.div_eq_of_dvd (self.pageSize_dvd hs) h

/-- The step and the entry a walk ends with are its own. -/
theorem final_unique {next : Next} {dtb v step step' pt pt' : Nat} (h : self.entryAt next dtb v step = some pt)
    (hf : self.isFinalMapping pt step = true) (h' : self.entryAt next dtb v step' = some pt')
    (hf' : self.isFinalMapping pt' step' = true) : step = step' := by
  have key : ∀ {a b p q : Nat}, self.entryAt next dtb v a = some p → self.isFinalMapping p a = true →
      self.entryAt next dtb v b = some q → b ≤ a := by
    intro a b p q ha hfa hb
    by_contra hlt
    obtain ⟨n, rfl⟩ : ∃ n, b = a + 1 + n := ⟨b - (a + 1), by omega⟩
    clear hlt
    induction n generalizing q with
    | zero =>
      obtain ⟨r, hr, -, hfr, -⟩ := self.entryAt_succ_some hb
      rw [ha] at hr
      cases hr
      rw [hfa] at hfr
      cases hfr
    | succ n ih =>
      obtain ⟨r, hr, -, -, -⟩ := self.entryAt_succ_some hb
      exact ih hr
  exact Nat.le_antisymm (key h' hf' h) (key h hf h')

/-! ## The two walks -/

/-- No present entry on the way to `v` points at the table it is in. -/
def NoSelfEntry (c : Nat → UInt8) (dtb v : Nat) : Prop :=
  ∀ step pt, step + 1 < self.splitCount → self.entryAt (self.tableNext c) dtb v step = some pt →
    self.checkEntry pt step = true → self.isFinalMapping pt step = false →
    self.checkEntry (self.entryOf c pt v step) (step + 1) = true →
    self.pteAddrMask (self.entryOf c pt v step) step ≠ self.pteAddrMask pt step

/-- What the lone walk holds, the tables hold. -/
theorem entryAt_of_lone {c : Nat → UInt8} {dtb v : Nat} : ∀ {step e : Nat},
    self.entryAt (self.loneNext c) dtb v step = some e → self.entryAt (self.tableNext c) dtb v step = some e := by
  intro step
  induction step with
  | zero => intro e h; exact h
  | succ step ih =>
    intro e h
    obtain ⟨pt, h1, hc, hf, h2⟩ := self.entryAt_succ_some h
    rw [self.entryAt_succ (ih h1) hc hf]
    unfold loneNext at h2
    split at h2
    · cases h2
    · exact h2

/-- The two walks agree where no present entry points at its own table. -/
theorem lone_eq_walk {c : Nat → UInt8} {dtb v : Nat} (h : self.NoSelfEntry c dtb v) :
    self.lone c dtb v = self.walk c dtb v := by
  have key : ∀ rounds step pt, step + rounds = self.splitCount →
      self.entryAt (self.tableNext c) dtb v step = some pt →
      self.walkFrom (self.loneNext c) v rounds step pt = self.walkFrom (self.tableNext c) v rounds step pt := by
    intro rounds
    induction rounds with
    | zero => intro step pt _ _; rfl
    | succ rounds ih =>
      intro step pt hs he
      simp only [walkFrom]
      cases hc : self.checkEntry pt step with
      | false => rfl
      | true =>
        cases hf : self.isFinalMapping pt step with
        | true => rfl
        | false =>
          have hlt := self.succ_lt_of_not_final (by omega) hf
          have he' := self.entryAt_succ he hc hf
          simp only [Bool.not_true, Bool.false_eq_true, if_false, loneNext, tableNext, Option.bind_some]
          by_cases hself : self.pteAddrMask pt step = self.pteAddrMask (self.entryOf c pt v step) step
          · -- dropped by the lone walk, and absent for the tables
            rw [if_pos hself, Option.bind_none]
            cases hp : self.checkEntry (self.entryOf c pt v step) (step + 1) with
            | true => exact absurd hself.symm (h step pt hlt he hc hf hp)
            | false =>
              cases rounds with
              | zero => rfl
              | succ rounds => simp [walkFrom, hp]
          · rw [if_neg hself, Option.bind_some]
            exact ih (step + 1) _ (by omega) he'
  exact key _ 0 dtb (by omega) rfl

end Jiaa.ArchMMUSpec
