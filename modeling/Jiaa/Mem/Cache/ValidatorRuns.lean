/-
  Jiaa.Mem.Cache.ValidatorRuns — what a validator reports after any sequence of operations
  (memflow `mem/cache/count_validator.rs`, `mem/cache/timed_validator.rs`).

  `SlotHistory` says what happened to each slot last, and how many updates ago: it was
  validated, or it became invalid, as a new slot or an invalidated one. Both validators
  write this into one stamp a slot, a back-dated one for an invalid slot, and read it back
  from the difference to the present.

  - `SlotHistory.restamp_fate`: the stamps stay those of the history;
  - `CountCacheValidator.perform_ok`, `TimedCacheValidator.perform_ok`: how a validator
    writes them;
  - `CountCacheValidator.window_iff`: the window of a slot is exact unless a slot is
    invalidated before the counter has reached the count, where `last_count - valid_count`
    underflows; `allocate_slots` subtracts the same with `wrapping_sub`;
  - `TimedCacheValidator.invalid_iff`: a slot that is not validated is reported invalid once
    the clock has advanced, not before: the end of the window belongs to it.
-/

import Jiaa.Mem.Cache.Validator
import Mathlib

namespace Jiaa

/-! ## Operations -/

inductive SlotOp where
  | allocate (slotCount : Nat)
  | update
  | validate (slotId : Nat)
  | invalidate (slotId : Nat)
  deriving DecidableEq, Repr

inductive Panic where
  | indexOutOfBounds
  | subtractWithOverflow
  deriving DecidableEq, Repr

/-- The number of updates since a slot was validated, or since it became invalid. -/
inductive Fate where
  | validated (since : Nat)
  | invalid (since : Nat)
  deriving DecidableEq, Repr

def Fate.age : Fate → Fate
  | validated k => validated (k + 1)
  | invalid k => invalid (k + 1)

def Fate.since : Fate → Nat
  | validated k => k
  | invalid k => k

structure SlotHistory where
  slots : Nat
  fate : Nat → Fate

namespace SlotHistory

/-- A slot that is dropped and comes back is a new one. -/
def step (h : SlotHistory) : SlotOp → SlotHistory
  | .allocate n => { slots := n, fate := fun i => if i < h.slots then h.fate i else .invalid 0 }
  | .update => { h with fate := fun i => (h.fate i).age }
  | .validate i => { h with fate := Function.update h.fate i (.validated 0) }
  | .invalidate i => { h with fate := Function.update h.fate i (.invalid 0) }

def ofOps (ops : List SlotOp) : SlotHistory := ops.foldl step ⟨0, fun _ => .invalid 0⟩

theorem ofOps_snoc (ops : List SlotOp) (op : SlotOp) : ofOps (ops ++ [op]) = (ofOps ops).step op := by
  simp [ofOps]

theorem since_age (f : Fate) : f.age.since = f.since + 1 := by
  cases f <;> rfl

theorem count_update_snoc (ops : List SlotOp) (op : SlotOp) :
    (ops ++ [op]).count .update = if op = .update then ops.count .update + 1 else ops.count .update := by
  rw [List.count_append]
  split
  · next h => rw [h, List.count_singleton_self]
  · next h => simp [h]

/-- Nothing has happened to a slot before the first operation. -/
theorem since_le (ops : List SlotOp) (i : Nat) : ((ofOps ops).fate i).since ≤ ops.count .update := by
  induction ops using List.reverseRecOn with
  | nil => simp [ofOps, Fate.since]
  | append_singleton ops op ih =>
    rw [ofOps_snoc, List.count_append]
    cases op with
    | allocate n =>
      simp only [step]
      split
      · exact Nat.le_add_right_of_le ih
      · exact Nat.zero_le _
    | update => simpa [step, since_age] using ih
    | validate j =>
      by_cases hj : i = j
      · simp [step, hj, Fate.since]
      · simpa [step, hj] using ih
    | invalidate j =>
      by_cases hj : i = j
      · simp [step, hj, Fate.since]
      · simpa [step, hj] using ih

/-! ## Stamps -/

section Stamps

variable {α : Type}

/-- The stamps after an operation, with those a slot gets now if it is validated or becomes
    invalid. -/
def restamp (valid invalid : α) (slots : Nat) (stamp : Nat → α) : SlotOp → Nat → α
  | .allocate _ => fun i => if i < slots then stamp i else invalid
  | .update => stamp
  | .validate i => Function.update stamp i valid
  | .invalidate i => Function.update stamp i invalid

/-- If every slot has the stamp of its fate and ageing changes none, it has it again. -/
theorem restamp_fate {st st' : Fate → α} {h : SlotHistory} {stamp : Nat → α} {op : SlotOp}
    (hstamp : ∀ i < h.slots, stamp i = st (h.fate i)) (hst : ∀ f, st f = if op = .update then st' f.age else st' f) :
    ∀ i < (h.step op).slots,
      restamp (st' (.validated 0)) (st' (.invalid 0)) h.slots stamp op i = st' ((h.step op).fate i) := by
  intro i hi
  cases op with
  | allocate n =>
    by_cases hlt : i < h.slots
    · simp [restamp, step, hlt, hstamp i hlt, hst]
    · simp [restamp, step, hlt]
  | update => simpa [restamp, step, hst] using hstamp i hi
  | validate j =>
    by_cases hj : i = j
    · simp [restamp, step, hj]
    · simpa [restamp, step, hj, hst] using hstamp i hi
  | invalidate j =>
    by_cases hj : i = j
    · simp [restamp, step, hj]
    · simpa [restamp, step, hj, hst] using hstamp i hi

end Stamps

end SlotHistory

/-! ## Runs -/

section Runs

variable {Q : Type} {perform : Q → SlotOp → Except Panic Q}

theorem foldlM_snoc_ok {q r : Q} {ops : List SlotOp} {op : SlotOp} (h : (ops ++ [op]).foldlM perform q = .ok r) :
    ∃ q', ops.foldlM perform q = .ok q' ∧ perform q' op = .ok r := by
  rw [List.foldlM_append] at h
  cases hq : ops.foldlM perform q with
  | error e => rw [hq] at h; cases h
  | ok q' =>
    rw [hq] at h
    refine ⟨q', rfl, ?_⟩
    change (perform q' op >>= pure) = .ok r at h
    rwa [bind_pure] at h

/-- A run that panics does so at one operation, the ones before it return. -/
theorem foldlM_error_iff {e : Panic} : ∀ {ops : List SlotOp} {q : Q}, ops.foldlM perform q = .error e ↔
    ∃ pre op post q', ops = pre ++ op :: post ∧ pre.foldlM perform q = .ok q' ∧ perform q' op = .error e := by
  intro ops
  induction ops with
  | nil =>
    intro q
    refine ⟨nofun, ?_⟩
    intro ⟨pre, op, post, q', h, _⟩
    simp at h
  | cons op ops ih =>
    intro q
    rw [List.foldlM_cons]
    cases hp : perform q op with
    | error e' =>
      constructor
      · intro h
        cases h
        exact ⟨[], op, ops, q, rfl, rfl, hp⟩
      · intro ⟨pre, op', post, q', h, hr, he⟩
        cases pre with
        | nil =>
          cases h
          cases hr
          rw [hp] at he
          cases he
          rfl
        | cons x pre =>
          cases h
          rw [List.foldlM_cons, hp] at hr
          cases hr
    | ok q1 =>
      refine (ih (q := q1)).trans ⟨?_, ?_⟩
      · rintro ⟨pre, op', post, q', rfl, hr, he⟩
        refine ⟨op :: pre, op', post, q', rfl, ?_, he⟩
        rw [List.foldlM_cons, hp]
        exact hr
      · intro ⟨pre, op', post, q', h, hr, he⟩
        cases pre with
        | nil =>
          cases h
          cases hr
          rw [hp] at he
          cases he
        | cons x pre =>
          cases h
          rw [List.foldlM_cons, hp] at hr
          exact ⟨pre, op', post, q', rfl, hr, he⟩

end Runs

/-! ## Counting updates -/

namespace CountCacheValidator

/-- The operations in a build with overflow checks. -/
def perform (q : CountCacheValidator) : SlotOp → Except Panic CountCacheValidator
  | .allocate n => .ok (CacheValidator.allocateSlots q n)
  | .update => .ok (updateValidity q)
  | .validate i => if i < q.slots then .ok (validateSlot q i) else .error .indexOutOfBounds
  | .invalidate i =>
    -- the stamp is computed before the vector is indexed
    if q.validCount ≤ q.lastCount then
      if i < q.slots then .ok (CacheValidator.invalidateSlot q i) else .error .indexOutOfBounds
    else .error .subtractWithOverflow

def run (validCount : Nat) (ops : List SlotOp) : Except Panic CountCacheValidator :=
  ops.foldlM perform (new validCount)

/-- The stamp of a slot with a fate, at `lastCount`. -/
def stampOf (validCount lastCount : Nat) : Fate → Nat
  | .validated k => lastCount - k
  | .invalid k => wrappingSub (lastCount - k) validCount

structure Decodes (v : Nat) (ops : List SlotOp) (q : CountCacheValidator) : Prop where
  lastCount : q.lastCount = ops.count .update
  validCount : q.validCount = v
  slots : q.slots = (SlotHistory.ofOps ops).slots
  count : ∀ i < q.slots, q.count i = stampOf v (ops.count .update) ((SlotHistory.ofOps ops).fate i)

theorem stampOf_age (v l : Nat) (f : Fate) : stampOf v (l + 1) f.age = stampOf v l f := by
  cases f <;> simp [stampOf, Fate.age]

/-- What an operation that returns does. -/
theorem perform_ok {q r : CountCacheValidator} {op : SlotOp} (hp : q.perform op = .ok r) :
    r.lastCount = (if op = .update then (q.lastCount + 1) % 2 ^ 64 else q.lastCount) ∧ r.validCount = q.validCount ∧
      (∀ h : SlotHistory, q.slots = h.slots → r.slots = (h.step op).slots) ∧
      r.count = SlotHistory.restamp r.lastCount (wrappingSub r.lastCount r.validCount) q.slots q.count op := by
  cases op with
  | allocate n =>
    cases hp
    exact ⟨rfl, rfl, fun _ _ => rfl, rfl⟩
  | update =>
    cases hp
    exact ⟨rfl, rfl, fun _ hs => hs, rfl⟩
  | validate i =>
    simp only [CountCacheValidator.perform] at hp
    split at hp
    · cases hp
      exact ⟨rfl, rfl, fun _ hs => hs, rfl⟩
    · cases hp
  | invalidate i =>
    simp only [CountCacheValidator.perform] at hp
    split at hp
    · split at hp
      · cases hp
        exact ⟨rfl, rfl, fun _ hs => hs, rfl⟩
      · cases hp
    · cases hp

theorem Decodes.perform {v : Nat} {ops : List SlotOp} {q r : CountCacheValidator} (h : Decodes v ops q) {op : SlotOp}
    (hu : (ops ++ [op]).count .update < 2 ^ 63) (hp : q.perform op = .ok r) : Decodes v (ops ++ [op]) r := by
  obtain ⟨hl, hv, hs, hc⟩ := perform_ok hp
  have hlast : r.lastCount = (ops ++ [op]).count .update := by
    rw [hl, h.lastCount]
    rw [SlotHistory.count_update_snoc] at hu ⊢
    split
    · next he =>
      rw [if_pos he] at hu
      omega
    · rfl
  refine ⟨hlast, hv.trans h.validCount, (hs _ h.slots).trans (by rw [SlotHistory.ofOps_snoc]), fun i hi => ?_⟩
  have hst : ∀ f, stampOf v (ops.count .update) f = if op = .update then stampOf v ((ops ++ [op]).count .update) f.age
      else stampOf v ((ops ++ [op]).count .update) f := by
    intro f
    rw [SlotHistory.count_update_snoc]
    split
    · rw [stampOf_age]
    · rfl
  have hcount : ∀ i < (SlotHistory.ofOps ops).slots, q.count i = stampOf v (ops.count .update) ((SlotHistory.ofOps ops).fate i) :=
    fun i hi => h.count i (h.slots ▸ hi)
  rw [hc, hlast, hv, h.validCount, h.slots, SlotHistory.ofOps_snoc]
  exact SlotHistory.restamp_fate hcount hst i (hs _ h.slots ▸ hi)

theorem decodes_of_run {v : Nat} {ops : List SlotOp} {q : CountCacheValidator} (hu : ops.count .update < 2 ^ 63)
    (h : run v ops = .ok q) : Decodes v ops q := by
  induction ops using List.reverseRecOn generalizing q with
  | nil =>
    cases h
    exact ⟨rfl, rfl, rfl, nofun⟩
  | append_singleton ops op ih =>
    obtain ⟨q', hq, hp⟩ := foldlM_snoc_ok h
    have hu' := hu
    rw [List.count_append] at hu'
    exact (ih (by omega) hq).perform hu hp

/-- The difference to a stamp gives back the fate it was made from. -/
theorem Decodes.valid_iff {v : Nat} {ops : List SlotOp} {q : CountCacheValidator} (h : Decodes v ops q) (hv : v < 2 ^ 63)
    (hu : ops.count .update < 2 ^ 63) {i : Nat} (hi : i < q.slots) :
    isSlotValid q i = true ↔ ∃ k < v, (SlotHistory.ofOps ops).fate i = .validated k := by
  have hk := SlotHistory.since_le ops i
  have hc := h.count i hi
  show decide (wrappingSub q.lastCount (q.count i) < q.validCount) = true ↔ _
  rw [decide_eq_true_iff, h.lastCount, h.validCount, hc]
  cases hf : (SlotHistory.ofOps ops).fate i with
  | validated k =>
    rw [hf] at hk
    have hw : wrappingSub (ops.count .update) (ops.count .update - k) = k := by
      simp only [Fate.since] at hk
      unfold wrappingSub
      omega
    simp [stampOf, hw]
  | invalid k =>
    rw [hf] at hk
    have hw : wrappingSub (ops.count .update) (wrappingSub (ops.count .update - k) v) = k + v := by
      simp only [Fate.since] at hk
      unfold wrappingSub
      omega
    simp [stampOf, hw]

/-- No operation overflows, and the slots are valid for just the next updates. -/
def WindowExact (v : Nat) (ops : List SlotOp) : Prop :=
  run v ops ≠ .error .subtractWithOverflow ∧
  ∀ q, run v ops = .ok q → ∀ i < q.slots, (isSlotValid q i = true ↔ ∃ k < v, (SlotHistory.ofOps ops).fate i = .validated k)

theorem perform_overflow_iff {q : CountCacheValidator} {op : SlotOp} :
    q.perform op = .error .subtractWithOverflow ↔ (∃ i, op = .invalidate i) ∧ q.lastCount < q.validCount := by
  cases op with
  | allocate n => simp [CountCacheValidator.perform]
  | update => simp [CountCacheValidator.perform]
  | validate i =>
    simp only [CountCacheValidator.perform]
    split <;> simp
  | invalidate i =>
    simp only [CountCacheValidator.perform]
    split
    · split <;> simp <;> omega
    · simp
      omega

/-- As built, the window is exact in a run where no slot is invalidated before the counter
    has reached the count. -/
theorem window_iff (v n : Nat) (ops : List SlotOp) (hv : v < 2 ^ 63) (hu : ops.count .update < 2 ^ 63) :
    WindowExact v (.allocate n :: ops) ↔
    ∀ pre i post q, .allocate n :: ops = pre ++ .invalidate i :: post → run v pre = .ok q → v ≤ pre.count .update := by
  have hu : (SlotOp.allocate n :: ops).count .update < 2 ^ 63 := by simpa using hu
  generalize SlotOp.allocate n :: ops = ops at hu ⊢
  constructor
  · rintro ⟨hover, _⟩ pre i post q rfl hq
    rw [List.count_append] at hu
    have hd := decodes_of_run (by omega) hq
    by_contra hlt
    refine hover (foldlM_error_iff.mpr ⟨pre, _, post, q, rfl, hq, perform_overflow_iff.mpr ⟨⟨i, rfl⟩, ?_⟩⟩)
    rw [hd.lastCount, hd.validCount]
    omega
  · intro h
    refine ⟨fun hover => ?_, fun q hq i hi => (decodes_of_run hu hq).valid_iff hv hu hi⟩
    obtain ⟨pre, op, post, q, rfl, hq, hp⟩ := foldlM_error_iff.mp hover
    obtain ⟨⟨i, rfl⟩, hlt⟩ := perform_overflow_iff.mp hp
    have hle := h pre i post q rfl hq
    rw [List.count_append] at hu
    have hd := decodes_of_run (by omega) hq
    rw [hd.lastCount, hd.validCount] at hlt
    omega

/-- The documented window of two updates, one slot validated and invalidated in it. -/
theorem window_two_updates :
    WindowExact 2 [.allocate 1, .validate 0, .update, .update, .invalidate 0] ↔
    ∀ pre i post q, [.allocate 1, .validate 0, .update, .update, .invalidate 0] = pre ++ .invalidate i :: post →
      run 2 pre = .ok q → 2 ≤ pre.count .update :=
  window_iff 2 1 _ (by decide) (by decide)

/-- The default count; a slot is invalidated before any update. -/
theorem early_invalidate_overflows : ¬ WindowExact 10 [.allocate 1, .validate 0, .invalidate 0] :=
  fun h => h.1 rfl

end CountCacheValidator

/-! ## Measuring time -/

namespace TimedCacheValidator

/-- The operations on exact integers. -/
def perform (q : TimedCacheValidator) : SlotOp → Except Panic TimedCacheValidator
  | .allocate n => .ok (CacheValidator.allocateSlots q n)
  | .update => .ok (updateValidity q)
  | .validate i => if i < q.slots then .ok (validateSlot q i) else .error .indexOutOfBounds
  | .invalidate i => if i < q.slots then .ok (CacheValidator.invalidateSlot q i) else .error .indexOutOfBounds

def run (validTime : Nat) (clock : Nat → Int) (ops : List SlotOp) : Except Panic TimedCacheValidator :=
  ops.foldlM perform (new validTime clock)

/-- The stamp of a slot with a fate, after `u` updates. -/
def stampOf (validTime : Nat) (clock : Nat → Int) (u : Nat) : Fate → Int
  | .validated k => clock (u - k)
  | .invalid k => clock (u - k) - validTime

theorem stampOf_age (v : Nat) (clock : Nat → Int) (u : Nat) (f : Fate) :
    stampOf v clock (u + 1) f.age = stampOf v clock u f := by
  cases f <;> simp [stampOf, Fate.age]

structure Decodes (v : Nat) (c : Nat → Int) (ops : List SlotOp) (q : TimedCacheValidator) : Prop where
  lastTime : q.lastTime = c (ops.count .update)
  validTime : q.validTime = v
  slots : q.slots = (SlotHistory.ofOps ops).slots
  clock : q.clock = fun k => c (ops.count .update + k + 1)
  time : ∀ i < q.slots, q.time i = stampOf v c (ops.count .update) ((SlotHistory.ofOps ops).fate i)

theorem perform_ok {q r : TimedCacheValidator} {op : SlotOp} (hp : q.perform op = .ok r) :
    r.lastTime = (if op = .update then q.clock 0 else q.lastTime) ∧ r.validTime = q.validTime ∧
      (∀ h : SlotHistory, q.slots = h.slots → r.slots = (h.step op).slots) ∧
      r.clock = (if op = .update then fun k => q.clock (k + 1) else q.clock) ∧
      r.time = SlotHistory.restamp r.lastTime (r.lastTime - r.validTime) q.slots q.time op := by
  cases op with
  | allocate n =>
    cases hp
    exact ⟨rfl, rfl, fun _ _ => rfl, rfl, rfl⟩
  | update =>
    cases hp
    exact ⟨rfl, rfl, fun _ hs => hs, rfl, rfl⟩
  | validate i =>
    simp only [TimedCacheValidator.perform] at hp
    split at hp
    · cases hp
      exact ⟨rfl, rfl, fun _ hs => hs, rfl, rfl⟩
    · cases hp
  | invalidate i =>
    simp only [TimedCacheValidator.perform] at hp
    split at hp
    · cases hp
      exact ⟨rfl, rfl, fun _ hs => hs, rfl, rfl⟩
    · cases hp

theorem Decodes.perform {v : Nat} {clock : Nat → Int} {ops : List SlotOp} {q r : TimedCacheValidator}
    (h : Decodes v clock ops q) {op : SlotOp} (hp : q.perform op = .ok r) : Decodes v clock (ops ++ [op]) r := by
  obtain ⟨hl, hv, hs, hclock, ht⟩ := perform_ok hp
  have hlast : r.lastTime = clock ((ops ++ [op]).count .update) := by
    rw [hl, h.lastTime, h.clock, SlotHistory.count_update_snoc]
    split <;> rfl
  refine ⟨hlast, hv.trans h.validTime, (hs _ h.slots).trans (by rw [SlotHistory.ofOps_snoc]), ?_, fun i hi => ?_⟩
  · rw [hclock, h.clock, SlotHistory.count_update_snoc]
    funext k
    split
    · simp [Nat.add_comm, Nat.add_left_comm]
    · rfl
  have hst : ∀ f, stampOf v clock (ops.count .update) f =
      if op = .update then stampOf v clock ((ops ++ [op]).count .update) f.age
      else stampOf v clock ((ops ++ [op]).count .update) f := by
    intro f
    rw [SlotHistory.count_update_snoc]
    split
    · rw [stampOf_age]
    · rfl
  have htime : ∀ i < (SlotHistory.ofOps ops).slots,
      q.time i = stampOf v clock (ops.count .update) ((SlotHistory.ofOps ops).fate i) := fun i hi => h.time i (h.slots ▸ hi)
  rw [ht, hlast, hv, h.validTime, h.slots, SlotHistory.ofOps_snoc]
  exact SlotHistory.restamp_fate htime hst i (hs _ h.slots ▸ hi)

theorem decodes_of_run {v : Nat} {clock : Nat → Int} {ops : List SlotOp} {q : TimedCacheValidator}
    (h : run v clock ops = .ok q) : Decodes v clock ops q := by
  induction ops using List.reverseRecOn generalizing q with
  | nil =>
    cases h
    refine ⟨rfl, rfl, rfl, ?_, nofun⟩
    funext k
    simp [new]
  | append_singleton ops op ih =>
    obtain ⟨q', hq, hp⟩ := foldlM_snoc_ok h
    exact (ih hq).perform hp

/-- As built, a slot that is not validated is reported invalid once the clock has advanced
    since it became invalid. -/
theorem invalid_iff (v : Nat) (clock : Nat → Int) (hclock : Monotone clock) (ops : List SlotOp) (q : TimedCacheValidator)
    (hq : run v clock ops = .ok q) (i k : Nat) (hi : i < q.slots) (hf : (SlotHistory.ofOps ops).fate i = .invalid k) :
    isSlotValid q i = false ↔ clock (ops.count .update - k) < clock (ops.count .update) := by
  have h := decodes_of_run hq
  have ht := h.time i hi
  rw [hf] at ht
  have hle : clock (ops.count .update - k) ≤ clock (ops.count .update) := hclock (Nat.sub_le _ _)
  show decide (q.lastTime - q.time i ≤ q.validTime) = false ↔ _
  rw [decide_eq_false_iff_not, h.lastTime, h.validTime, ht]
  simp only [stampOf]
  omega

/-- A clock that advances by one at each update. -/
theorem invalid_after_update : ∃ q, run 1000 (fun k => 5000 + k) [.allocate 1, .validate 0, .invalidate 0, .update] = .ok q ∧
    isSlotValid q 0 = false :=
  ⟨_, rfl, (invalid_iff 1000 (fun k => 5000 + k) (fun a b h => by simpa using h)
    [.allocate 1, .validate 0, .invalidate 0, .update] _ rfl 0 1 (by decide) rfl).mpr (by decide)⟩

/-- Within one tick of the clock an invalidated slot is reported valid. -/
theorem invalidated_in_one_tick : ∃ q, run 1000 (fun _ => 5000) [.allocate 1, .validate 0, .invalidate 0, .update] = .ok q ∧
    0 < q.slots ∧ (SlotHistory.ofOps [.allocate 1, .validate 0, .invalidate 0, .update]).fate 0 = .invalid 1 ∧
    isSlotValid q 0 = true :=
  ⟨_, rfl, by decide, rfl, by decide⟩

end TimedCacheValidator

end Jiaa
