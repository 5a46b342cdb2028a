/-
  Jiaa.Architecture.SelfMap — tables that are mapped through an entry of their own.

  A table with an entry that points back to it shows its tables as pages: the walk of an
  address whose first index is that entry runs one step behind the walk of another, and
  ends at the entry the other ends with. The code's own walk stops at such an entry.

  - `entryAt_shift`: the one walk is one step behind the other;
  - `walk_shift`: it delivers the place of the other's last entry;
  - `lone_self`: no address behind the entry is translated.
-/

import Jiaa.Architecture.Walk

namespace Jiaa.ArchMMUSpec

variable (spec : ArchMMUSpec)

/-- An entry lies at its offset in its table. -/
theorem vtopStep_eq_add {step : Nat} (h : step + 1 < spec.splitCount) (pt v : Nat) :
    spec.vtopStep pt v step = spec.pteAddrMask pt step + spec.virtAddrToPteOffset v step := by
  have hoff := spec.virtAddrToPteOffset_lt h v
  rw [vtopStep, spec.pteAddrMask_eq (by omega), Nat.mul_comm _ (2 ^ spec.pteMaskMin step),
    Nat.two_pow_add_eq_or_of_lt hoff]

/-- The entries of `w` are those of `v`, one step later, behind an entry of the first table
    that points back to it. -/
structure Shifts (c : Nat → UInt8) (dtb v w : Nat) : Prop where
  present : spec.checkEntry (spec.entryOf c dtb w 0) 1 = true
  not_final : spec.isFinalMapping (spec.entryOf c dtb w 0) 1 = false
  first : spec.vtopStep (spec.entryOf c dtb w 0) w 1 = spec.vtopStep dtb v 0
  next : ∀ step pt, step + 3 < spec.splitCount → spec.vtopStep pt w (step + 2) = spec.vtopStep pt v (step + 1)
  last : ∀ step pt, step + 2 = spec.splitCount → (spec.getPhysPage pt w (step + 1)).address = spec.vtopStep pt v step

/-- Tables that also hold where a step later large pages are allowed. -/
def NoLargePage (c : Nat → UInt8) (dtb v : Nat) : Prop :=
  ∀ step pt, 0 < step → step + 2 < spec.splitCount → spec.entryAt (spec.tableNext c) dtb v step = some pt →
    spec.isFinalMapping pt (step + 1) = false

variable {c : Nat → UInt8} {dtb v w : Nat}

theorem entryAt_one (next : Next) (dtb v : Nat) : spec.entryAt next dtb v 1 = next dtb v 0 :=
  spec.entryAt_succ rfl rfl (spec.isFinalMapping_zero dtb)

theorem checkEntry_succ_succ (pt step : Nat) : spec.checkEntry pt (step + 2) = spec.checkEntry pt (step + 1) := rfl

/-- The walk of `w` is one step behind that of `v`. -/
theorem entryAt_shift (h : spec.Shifts c dtb v w) (hlarge : spec.NoLargePage c dtb v) : ∀ {step e : Nat},
    step + 2 < spec.splitCount → spec.entryAt (spec.tableNext c) dtb v (step + 1) = some e →
      spec.entryAt (spec.tableNext c) dtb w (step + 2) = some e := by
  intro step
  induction step with
  | zero =>
    intro e _ he
    have hw : spec.entryAt (spec.tableNext c) dtb w 1 = some (spec.entryOf c dtb w 0) := spec.entryAt_one _ dtb w
    rw [spec.entryAt_one] at he
    rw [spec.entryAt_succ hw h.present h.not_final, tableNext, entryOf, h.first]
    exact he
  | succ step ih =>
    intro e hs he
    obtain ⟨pt, hpt, hc, -, hnext⟩ := spec.entryAt_succ_some he
    have hw := ih (by omega) hpt
    rw [← spec.checkEntry_succ_succ] at hc
    rw [spec.entryAt_succ hw hc (hlarge (step + 1) pt (by omega) (by omega) hpt), tableNext, entryOf,
      h.next step pt (by omega)]
    exact hnext

/-- What `w` is mapped to is the last entry of `v`. -/
theorem walk_shift (h : spec.Shifts c dtb v w) (hlarge : spec.NoLargePage c dtb v) {step e : Nat}
    (hs : step + 3 = spec.splitCount) (he : spec.entryAt (spec.tableNext c) dtb v (step + 2) = some e) :
    ∃ p, spec.walk c dtb w = some p ∧ readU64 c p.address = e := by
  obtain ⟨pt, hpt, hc, -, hnext⟩ := spec.entryAt_succ_some he
  have hw := spec.entryAt_shift h hlarge (by omega) hpt
  rw [← spec.checkEntry_succ_succ] at hc
  refine ⟨_, spec.walkFrom_final (by omega) hw hc (spec.isFinalMapping_last (by omega) pt), ?_⟩
  rw [h.last (step + 1) pt (by omega)]
  exact Option.some.inj hnext

/-- Behind an entry that points at its own table nothing is translated. -/
theorem lone_self (h : spec.pteAddrMask (spec.entryOf c dtb v 0) 0 = spec.pteAddrMask dtb 0) : spec.lone c dtb v = none := by
  have h2 := spec.two_le_splits
  have hstep : 0 < spec.splitCount := by unfold splitCount; omega
  refine spec.walkFrom_stop hstep rfl rfl (spec.isFinalMapping_zero dtb) ?_
  rw [loneNext, if_pos h.symm]

end Jiaa.ArchMMUSpec
