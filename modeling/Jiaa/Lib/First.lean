/-
  Jiaa.Lib.First — the first index at which a function has a value.

  A scan returns what it finds first: `FirstAt f n i b` says that `i` is the least index
  below `n` with a value and `b` the value. It is what `findSome?` and `find?` over a range
  return (`findSome?_range_iff`, `find?_range_map_iff`), and there is one at most.
-/

import Mathlib.Data.List.Basic

namespace Jiaa.Lib.First

variable {α β : Type*}

structure FirstAt (f : Nat → Option β) (n i : Nat) (b : β) : Prop where
  lt : i < n
  hit : f i = some b
  before : ∀ j < i, f j = none

namespace FirstAt

variable {f : Nat → Option β} {n i j : Nat} {a b : β}

theorem index_unique (ha : FirstAt f n i a) (hb : FirstAt f n j b) : i = j := by
  rcases Nat.lt_trichotomy i j with h | h | h
  · have := hb.before i h
    rw [ha.hit] at this
    cases this
  · exact h
  · have := ha.before j h
    rw [hb.hit] at this
    cases this

theorem unique (ha : FirstAt f n i a) (hb : FirstAt f n j b) : a = b := by
  have hij := ha.index_unique hb
  subst hij
  exact Option.some.inj (ha.hit.symm.trans hb.hit)

/-- The indices below the first one have no value, and the others do not matter. -/
theorem congr {g : Nat → Option β} (h : FirstAt f n i a) (hfg : ∀ j < n, f j = g j) : FirstAt g n i a :=
  ⟨h.lt, (hfg i h.lt).symm.trans h.hit, fun j hj => (hfg j (Nat.lt_trans hj h.lt)).symm.trans (h.before j hj)⟩

end FirstAt

theorem firstAt_of_findSome? {f : Nat → Option β} {n : Nat} {b : β} (h : (List.range n).findSome? f = some b) :
    ∃ i, FirstAt f n i b := by
  obtain ⟨l₁, i, l₂, hl, hi, hbefore⟩ := List.findSome?_eq_some_iff.mp h
  have hlen := congrArg List.length hl
  simp only [List.length_range, List.length_append, List.length_cons] at hlen
  have hget : ∀ j < n, (l₁ ++ i :: l₂)[j]? = some j := by
    intro j hj
    rw [← hl, List.getElem?_range hj]
  have hil : i = l₁.length := by
    have := hget l₁.length (by omega)
    simpa using this
  refine ⟨i, by omega, hi, fun j hj => hbefore j ?_⟩
  have hj' := hget j (by omega)
  rw [List.getElem?_append_left (by omega)] at hj'
  exact List.mem_of_getElem? hj'

theorem findSome?_range_iff {f : Nat → Option β} {n : Nat} {b : β} :
    (List.range n).findSome? f = some b ↔ ∃ i, FirstAt f n i b := by
  refine ⟨firstAt_of_findSome?, ?_⟩
  rintro ⟨i, h⟩
  cases hfind : (List.range n).findSome? f with
  | none =>
    have := List.findSome?_eq_none_iff.mp hfind i (List.mem_range.mpr h.lt)
    rw [h.hit] at this
    cases this
  | some a =>
    obtain ⟨j, hj⟩ := firstAt_of_findSome? hfind
    rw [hj.unique h]

/-- The first of the values of `g` that passes. -/
theorem find?_range_map_iff {g : Nat → α} {p : α → Bool} {n : Nat} {x : α} :
    ((List.range n).map g).find? p = some x ↔ ∃ i, FirstAt (fun i => if p (g i) then some (g i) else none) n i x := by
  have hmap : (fun i => if p (g i) then some (g i) else none) = fun i => Option.guard p (g i) := by
    funext i
    by_cases hp : p (g i) = true <;> simp [Option.guard, hp]
  rw [← findSome?_range_iff, hmap, ← List.findSome?_guard, List.findSome?_map]
  rfl

end Jiaa.Lib.First
