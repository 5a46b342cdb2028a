/-
  Jiaa.Lib.LastWrite — what a list of writes of one item each leaves.

  A write is a value with the index it goes to; `store` is the array after the writes.

  - `lastAt_append`: a later list of writes goes first;
  - `lastAt_filterMap`: moving the indices one by one moves the last writes;
  - `store_append`: storing in two parts.
-/

import Mathlib.Data.List.Basic

namespace Jiaa.Lib.LastWrite

variable {α : Type*}

/-- The value of the last write to `x`. -/
def lastAt (x : Nat) : List (α × Nat) → Option α
  | [] => none
  | y :: l => (lastAt x l).or (if y.2 = x then some y.1 else none)

def store (c : Nat → α) (l : List (α × Nat)) : Nat → α := fun x => (lastAt x l).getD (c x)

theorem lastAt_append (x : Nat) (l k : List (α × Nat)) : lastAt x (l ++ k) = (lastAt x k).or (lastAt x l) := by
  induction l with
  | nil => simp [lastAt]
  | cons y l ih => rw [List.cons_append, lastAt, ih, lastAt, Option.or_assoc]

@[simp] theorem store_nil (c : Nat → α) : store c [] = c := rfl

theorem store_append (c : Nat → α) (l k : List (α × Nat)) : store c (l ++ k) = store (store c l) k := by
  funext x
  unfold store
  rw [lastAt_append]
  cases lastAt x k <;> rfl

theorem mem_of_lastAt {x : Nat} {v : α} {l : List (α × Nat)} (h : lastAt x l = some v) : (v, x) ∈ l := by
  induction l with
  | nil => cases h
  | cons y l ih =>
    unfold lastAt at h
    cases hl : lastAt x l with
    | some w =>
      rw [hl, Option.some_or] at h
      exact List.mem_cons_of_mem _ (ih (hl.trans h))
    | none =>
      rw [hl, Option.none_or] at h
      split at h
      · next hy => cases h; cases hy; exact List.mem_cons_self ..
      · cases h

theorem lastAt_eq_none {x : Nat} {l : List (α × Nat)} (h : ∀ y ∈ l, y.2 ≠ x) : lastAt x l = none := by
  cases hl : lastAt x l with
  | none => rfl
  | some v => exact absurd rfl (h _ (mem_of_lastAt hl))

/-- A write with none after it to the same index is the last one. -/
theorem lastAt_append_cons {x : Nat} {v : α} {l r : List (α × Nat)} (h : ∀ y ∈ r, y.2 ≠ x) :
    lastAt x (l ++ (v, x) :: r) = some v := by
  rw [lastAt_append, lastAt, lastAt_eq_none h, Option.none_or, if_pos rfl, Option.some_or]

theorem exists_lastAt {x : Nat} {v : α} {l : List (α × Nat)} (h : (v, x) ∈ l) : ∃ w, lastAt x l = some w := by
  induction l with
  | nil => cases h
  | cons y l ih =>
    unfold lastAt
    rcases List.mem_cons.mp h with rfl | h
    · cases lastAt x l with
      | some w => exact ⟨w, rfl⟩
      | none => exact ⟨v, by simp⟩
    · obtain ⟨w, hw⟩ := ih h
      exact ⟨w, by rw [hw, Option.some_or]⟩

/-- A block of writes from `a` on. -/
theorem lastAt_zipIdx (x : Nat) (l : List α) : ∀ a, lastAt x (l.zipIdx a) = if a ≤ x then l[x - a]? else none := by
  induction l with
  | nil => intro a; simp [lastAt]
  | cons v l ih =>
    intro a
    rw [List.zipIdx_cons, lastAt, ih]
    rcases Nat.lt_trichotomy x a with h | rfl | h
    · rw [if_neg (by omega), if_neg (by omega), if_neg (by omega), Option.or_none]
    · rw [if_neg (by omega), if_pos rfl, if_pos (Nat.le_refl _), Nat.sub_self, Option.none_or]
      rfl
    · rw [if_pos (by omega), if_neg (by omega), if_pos (by omega), Option.or_none]
      obtain ⟨k, rfl⟩ := Nat.exists_eq_add_of_lt h
      rw [show a + k + 1 - (a + 1) = k by omega, show a + k + 1 - a = k + 1 by omega, List.getElem?_cons_succ]

/-- When `b` alone is moved to `x`, the last write to `x` is the last one to `b`. -/
theorem lastAt_filterMap {look : Nat → Option Nat} {x b : Nat} (hb : look b = some x)
    (hinj : ∀ a, look a = some x → a = b) (l : List (α × Nat)) :
    lastAt x (l.filterMap fun y => (look y.2).map fun o => (y.1, o)) = lastAt b l := by
  induction l with
  | nil => rfl
  | cons y l ih =>
    rw [lastAt, ← ih]
    by_cases hy : y.2 = b
    · rw [List.filterMap_cons_some (b := (y.1, x)) (by rw [hy, hb]; rfl), lastAt, if_pos rfl, if_pos hy]
    · rw [if_neg hy, Option.or_none]
      cases hl : look y.2 with
      | none => rw [List.filterMap_cons_none (by rw [hl]; rfl)]
      | some o =>
        have hne : o ≠ x := fun h => hy (hinj _ (h ▸ hl))
        rw [List.filterMap_cons_some (b := (y.1, o)) (by rw [hl]; rfl), lastAt, if_neg hne, Option.or_none]

end Jiaa.Lib.LastWrite
