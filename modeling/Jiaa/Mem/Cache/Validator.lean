/-
  Jiaa.Mem.Cache.Validator — for how long a slot of a cache stays valid
  (memflow `mem/cache/mod.rs`, `mem/cache/count_validator.rs`,
  `mem/cache/timed_validator.rs`).

  `LawfulCacheValidator`: validating a slot makes it valid and touches no other slot. What
  an update does is the validator's own; `Steady` says that one makes no slot valid.

  - `TimedCacheValidator.steady`: while the clock does not go back;
  - `CountCacheValidator.valid_iff`: a slot is valid while fewer updates than the count have
    passed, as long as the counter has not come round. A count of none is not lawful.
-/

import Mathlib.Algebra.Order.Group.Nat
import Mathlib.Logic.Function.Iterate

namespace Jiaa

class CacheValidator (Q : Type*) where
  allocateSlots : Q → Nat → Q
  updateValidity : Q → Q
  isSlotValid : Q → Nat → Bool
  validateSlot : Q → Nat → Q
  invalidateSlot : Q → Nat → Q

export CacheValidator (updateValidity isSlotValid validateSlot)

class LawfulCacheValidator (Q : Type*) [CacheValidator Q] : Prop where
  validate_self : ∀ (q : Q) i, isSlotValid (validateSlot q i) i = true
  validate_other : ∀ (q : Q) i j, j ≠ i → isSlotValid (validateSlot q i) j = isSlotValid q j

/-- The next update makes no slot valid. -/
def Steady {Q : Type*} [CacheValidator Q] (q : Q) : Prop :=
  ∀ i, isSlotValid (updateValidity q) i = true → isSlotValid q i = true

/-! ## Counting updates -/

/-- The vector of counts is a function, its length `slots`. -/
structure CountCacheValidator where
  count : Nat → Nat
  slots : Nat
  validCount : Nat
  lastCount : Nat

namespace CountCacheValidator

/-- `wrapping_sub`. -/
def wrappingSub (a b : Nat) : Nat := (a + (2 ^ 64 - b % 2 ^ 64)) % 2 ^ 64

def new (validCount : Nat) : CountCacheValidator := ⟨fun _ => 0, 0, validCount, 0⟩

instance : CacheValidator CountCacheValidator where
  allocateSlots self slotCount := { self with
    count := fun i => if i < self.slots then self.count i else wrappingSub self.lastCount self.validCount
    slots := slotCount }
  updateValidity self := { self with lastCount := (self.lastCount + 1) % 2 ^ 64 }
  isSlotValid self slotId := decide (wrappingSub self.lastCount (self.count slotId) < self.validCount)
  validateSlot self slotId := { self with count := Function.update self.count slotId self.lastCount }
  invalidateSlot self slotId := { self with
    count := Function.update self.count slotId (wrappingSub self.lastCount self.validCount) }

theorem wrappingSub_self (a : Nat) : wrappingSub a a = 0 := by
  unfold wrappingSub
  omega

/-- A count of no updates makes no slot valid. -/
theorem validate_self {q : CountCacheValidator} (h : 0 < q.validCount) (i : Nat) : isSlotValid (validateSlot q i) i = true := by
  show decide (wrappingSub q.lastCount (Function.update q.count i q.lastCount i) < q.validCount) = true
  rw [Function.update_self, wrappingSub_self]
  exact decide_eq_true h

theorem validate_other (q : CountCacheValidator) {i j : Nat} (h : j ≠ i) :
    isSlotValid (validateSlot q i) j = isSlotValid q j := by
  simp only [isSlotValid, validateSlot, Function.update_of_ne h]

/-- A counter that has not come round. -/
theorem valid_iff {q : CountCacheValidator} {i : Nat} (h1 : q.count i ≤ q.lastCount) (h2 : q.lastCount < 2 ^ 64) :
    isSlotValid q i = true ↔ q.lastCount < q.count i + q.validCount := by
  show decide (wrappingSub q.lastCount (q.count i) < q.validCount) = true ↔ _
  rw [decide_eq_true_iff]
  unfold wrappingSub
  omega

/-- A new slot is not valid for so long. -/
theorem new_not_valid {q : CountCacheValidator} {i : Nat} (h1 : q.count i = 2 ^ 64 - q.validCount)
    (h2 : q.lastCount + q.validCount < 2 ^ 64) : isSlotValid q i = false := by
  refine decide_eq_false ?_
  unfold wrappingSub
  omega

end CountCacheValidator

/-! ## Measuring time -/

/-- With the readings of the clock to come. Instants and durations are exact. -/
structure TimedCacheValidator where
  time : Nat → Int
  slots : Nat
  validTime : Nat
  lastTime : Int
  clock : Nat → Int

namespace TimedCacheValidator

/-- The clock is read once for the validator, then at each update. -/
def new (validTime : Nat) (clock : Nat → Int) : TimedCacheValidator :=
  ⟨fun _ => 0, 0, validTime, clock 0, fun k => clock (k + 1)⟩

instance : CacheValidator TimedCacheValidator where
  allocateSlots self slotCount := { self with
    time := fun i => if i < self.slots then self.time i else self.lastTime - self.validTime
    slots := slotCount }
  updateValidity self := { self with lastTime := self.clock 0, clock := fun k => self.clock (k + 1) }
  isSlotValid self slotId := decide (self.lastTime - self.time slotId ≤ self.validTime)
  validateSlot self slotId := { self with time := Function.update self.time slotId self.lastTime }
  invalidateSlot self slotId := { self with time := Function.update self.time slotId (self.lastTime - self.validTime) }

instance : LawfulCacheValidator TimedCacheValidator where
  validate_self q i := by simp [isSlotValid, validateSlot]
  validate_other q i j h := by simp only [isSlotValid, validateSlot, Function.update_of_ne h]

theorem steady {q : TimedCacheValidator} (h : q.lastTime ≤ q.clock 0) : Steady q := by
  intro i hi
  have h1 : q.clock 0 - q.time i ≤ q.validTime := of_decide_eq_true hi
  exact decide_eq_true (by show q.lastTime - q.time i ≤ q.validTime; omega)

end TimedCacheValidator

end Jiaa
