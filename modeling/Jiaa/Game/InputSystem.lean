/-
  Jiaa.Game.InputSystem — the thread that keeps `pressedKeys` (jiaa-src `inputsystem.c`).

  The device is read without waiting. Only a read of zero bytes is skipped: a read that fails
  leaves `input` as it was, and the value of before is stored once more.

  - `loop_pressedKeys`: the thread stays inside `pressedKeys` exactly if no key has a code
    from 500 on, and a key is pressed if the last value read for it says so, however many
    reads failed in between.
-/

import Mathlib.Data.List.Basic
import Jiaa.Lib.LastWrite

namespace Jiaa.Game.InputSystem

open Lib.LastWrite

def evKey : UInt16 := 1

/-- `bool pressedKeys[500]`. -/
def pressedKeysSize : Nat := 500

structure InputValue where
  type : UInt16
  code : UInt16
  value : Int32
  deriving DecidableEq, Repr

/-- What `read` comes to: no bytes, an error (`-1`, and the buffer is not written), or one value. -/
inductive ReadResult where
  | zero
  | error
  | value (input : InputValue)
  deriving DecidableEq, Repr

structure InputThread where
  pressedKeys : Vector Bool pressedKeysSize
  input : InputValue

namespace InputThread

/-- The keys at the start of the program, and whatever the stack holds where `input` lies. -/
def start (garbage : InputValue) : InputThread := ⟨.replicate pressedKeysSize false, garbage⟩

/-- What follows a read. `none` is a store outside of `pressedKeys`. -/
def apply (self : InputThread) : Option InputThread :=
  if self.input.type ≠ evKey then some self
  else if h : self.input.code.toNat < pressedKeysSize then
    some { self with pressedKeys := self.pressedKeys.set self.input.code.toNat (decide (self.input.value > 0)) }
  else none

def iteration (self : InputThread) : ReadResult → Option InputThread
  | .zero => some self
  | .error => self.apply
  | .value input => { self with input := input }.apply

/-- The loop while the program runs, one read after the other. -/
def loop : InputThread → List ReadResult → Option InputThread
  | self, [] => some self
  | self, r :: rs => (self.iteration r).bind fun self => loop self rs

end InputThread

/-! ## The values stored -/

/-- The key of a value, with what the value says of it. -/
def keyValue (input : InputValue) : Option (Bool × Nat) :=
  if input.type = evKey then some (decide (input.value > 0), input.code.toNat) else none

def ReadResult.key : ReadResult → Option (Bool × Nat)
  | .value input => keyValue input
  | _ => none

/-- The keys of the values read, with what they say. -/
def keyValues (rs : List ReadResult) : List (Bool × Nat) := rs.filterMap ReadResult.key

/-- What the thread stores: if a read fails before any value was read, whatever `input` held
    goes first. -/
def stored (garbage : InputValue) (rs : List ReadResult) : List (Bool × Nat) :=
  match rs.dropWhile (· = .zero) with
  | .error :: _ => (keyValue garbage).toList ++ keyValues rs
  | _ => keyValues rs

namespace InputThread

variable {self : InputThread}

/-- To store the value in `input` changes nothing: it is of no key, or the key has it. -/
def Settled (self : InputThread) : Prop :=
  ∀ y, keyValue self.input = some y → ∃ h : y.2 < pressedKeysSize, self.pressedKeys[y.2] = y.1

/-- The stores of `l` lie inside `pressedKeys`, and `result` is what they leave. -/
structure Stores (self : InputThread) (l : List (Bool × Nat)) (result : Option InputThread) : Prop where
  inside : result.isSome ↔ ∀ y ∈ l, y.2 < pressedKeysSize
  left : ∀ s, result = some s → ∀ (c : Nat) (h : c < pressedKeysSize),
    s.pressedKeys[c] = (lastAt c l).getD self.pressedKeys[c]

/-- A store leaves the key as the value says, and can be repeated. -/
theorem apply_stores (self : InputThread) :
    Stores self (keyValue self.input).toList self.apply ∧ ∀ s, self.apply = some s → s.Settled := by
  unfold apply
  split
  · next hkey =>
    have hno : keyValue self.input = none := if_neg hkey
    rw [hno]
    refine ⟨⟨by simp, ?_⟩, ?_⟩
    · rintro _ ⟨⟩
      exact fun c h => rfl
    · rintro _ ⟨⟩ y hy
      rw [hno] at hy
      cases hy
  · next hkey =>
    have hval : keyValue self.input = some (decide (self.input.value > 0), self.input.code.toNat) :=
      if_pos (not_not.mp hkey)
    rw [hval]
    split
    · next hlt =>
      refine ⟨⟨by simp [hlt], ?_⟩, ?_⟩
      · rintro _ ⟨⟩ c h
        rw [Vector.getElem_set]
        by_cases hc : self.input.code.toNat = c <;> simp [lastAt, hc]
      · rintro _ ⟨⟩ y hy
        obtain rfl := Option.some.inj (hval.symm.trans hy)
        exact ⟨hlt, Vector.getElem_set_self ..⟩
    · next hge => exact ⟨⟨by simp [hge], by rintro _ ⟨⟩⟩, by rintro _ ⟨⟩⟩

theorem apply_settled (h : self.Settled) : self.apply = some self := by
  unfold apply
  split
  · rfl
  · next hkey =>
    obtain ⟨hlt, heq⟩ := h _ (if_pos (not_not.mp hkey))
    dsimp only at hlt heq
    rw [dif_pos hlt, ← heq]
    simp

/-- A store, then what follows it. -/
theorem apply_bind {rs : List ReadResult} {l : List (Bool × Nat)} (self : InputThread)
    (hrest : ∀ s : InputThread, s.Settled → Stores s l (s.loop rs)) :
    Stores self ((keyValue self.input).toList ++ l) (self.apply.bind fun s => s.loop rs) := by
  obtain ⟨⟨hinside, hleft⟩, hsettled⟩ := apply_stores self
  cases h : self.apply with
  | none =>
    rw [h] at hinside
    refine ⟨iff_of_false (by simp) fun hall => ?_, by rintro _ ⟨⟩⟩
    exact absurd (hinside.mpr fun y hy => hall y (List.mem_append_left _ hy)) (by simp)
  | some s =>
    rw [h] at hinside
    obtain ⟨hin, hrun⟩ := hrest s (hsettled s h)
    refine ⟨?_, fun t ht c hc => ?_⟩
    · rw [Option.bind_some, hin]
      rw [List.forall_mem_append]
      exact ⟨fun hall => ⟨hinside.mp rfl, hall⟩, And.right⟩
    · rw [hrun t ht c hc, hleft s h c hc, lastAt_append]
      cases lastAt c l <;> rfl

/-- A value overwrites whatever `input` held. -/
theorem loop_value {rs : List ReadResult} (self : InputThread) (input : InputValue)
    (hrest : ∀ s : InputThread, s.Settled → Stores s (keyValues rs) (s.loop rs)) :
    Stores self (keyValues (.value input :: rs)) (self.loop (.value input :: rs)) := by
  have hkeys : keyValues (.value input :: rs) = (keyValue input).toList ++ keyValues rs := by
    unfold keyValues
    cases h : keyValue input with
    | none => exact List.filterMap_cons_none h
    | some y => exact List.filterMap_cons_some h
  obtain ⟨hinside, hleft⟩ := apply_bind { self with input := input } hrest
  rw [hkeys]
  exact ⟨hinside, hleft⟩

/-- While `input` is settled, only the values read count. -/
theorem loop_settled : ∀ (rs : List ReadResult) {self : InputThread}, self.Settled →
    Stores self (keyValues rs) (self.loop rs) := by
  intro rs
  induction rs with
  | nil =>
    intro self _
    exact ⟨by simp [loop, keyValues], by rintro _ ⟨⟩; exact fun c h => rfl⟩
  | cons r rs ih =>
    intro self hset
    cases r with
    | zero => exact ih hset
    | error =>
      have hstep : self.loop (.error :: rs) = self.loop rs := by
        rw [loop, iteration, apply_settled hset, Option.bind_some]
      rw [hstep]
      exact ih hset
    | value input => exact loop_value self input fun s hs => ih hs

/-- For any values that `input` may hold in the beginning, and any sequence of reads, the
    thread stays inside `pressedKeys` exactly if no key stored has a code from 500 on, and
    then a key is pressed exactly if the last value stored for it says so. A read that fails
    after a value was read stores nothing new. -/
theorem loop_pressedKeys (garbage : InputValue) (rs : List ReadResult) :
    (((start garbage).loop rs).isSome ↔ ∀ y ∈ stored garbage rs, y.2 < pressedKeysSize) ∧
      ∀ s, (start garbage).loop rs = some s → ∀ (c : Nat) (h : c < pressedKeysSize),
        s.pressedKeys[c] = (lastAt c (stored garbage rs)).getD false := by
  have hstores : Stores (start garbage) (stored garbage rs) ((start garbage).loop rs) := by
    induction rs with
    | nil => exact ⟨by simp [loop, stored, keyValues], by rintro _ ⟨⟩; exact fun c h => rfl⟩
    | cons r rs ih =>
      cases r with
      | zero => exact ih
      | error => exact apply_bind (start garbage) fun s hs => loop_settled rs hs
      | value input => exact loop_value (start garbage) input fun s hs => loop_settled rs hs
  obtain ⟨hinside, hleft⟩ := hstores
  refine ⟨hinside, fun s hs c h => ?_⟩
  rw [hleft s hs c h]
  simp [start]

end InputThread

end Jiaa.Game.InputSystem
