/-
  Jiaa.Lib.Ring — circular lists of a function that gives the next item.

  - `IsRing.next_head`, `IsRing.next_of_append`, `IsRing.next_last`: the next of an item is the one behind it,
    of the last one the first;
  - `IsRing.rotate`: a ring may start anywhere.
-/

import Mathlib.Data.List.Chain
import Mathlib.Data.List.Nodup

namespace Jiaa.Lib.Ring

variable {α : Type*}

/-- Following `next` from the first item of `l` gives the items in order, each once, and
    the first one again. -/
structure IsRing (next : α → α) (l : List α) : Prop where
  nodup : l.Nodup
  chain : l.IsChain fun a b => next a = b
  closes : ∀ a ∈ l.getLast?, ∀ b ∈ l.head?, next a = b

instance (next : α → α) [DecidableEq α] (l : List α) : Decidable (IsRing next l) :=
  decidable_of_iff (l.Nodup ∧ (l.IsChain fun a b => next a = b) ∧ ∀ a ∈ l.getLast?, ∀ b ∈ l.head?, next a = b)
    ⟨fun h => ⟨h.1, h.2.1, h.2.2⟩, fun h => ⟨h.nodup, h.chain, h.closes⟩⟩

variable {next : α → α} {l : List α}

namespace IsRing

theorem next_head {a b : α} {l : List α} (h : IsRing next (a :: b :: l)) : next a = b :=
  (List.isChain_cons_cons.mp h.chain).1

theorem next_of_append {pre post : List α} {a b : α} (h : IsRing next (pre ++ a :: b :: post)) : next a = b := by
  have hc := (List.isChain_append.mp h.chain).2.1
  exact (List.isChain_cons_cons.mp hc).1

theorem next_last {pre : List α} {z : α} (h : IsRing next (pre ++ [z])) {a : α} (ha : (pre ++ [z]).head? = some a) :
    next z = a :=
  h.closes z (by simp) a ha

/-- The next of an item is an item. -/
theorem next_mem (h : IsRing next l) {a : α} (ha : a ∈ l) : next a ∈ l := by
  obtain ⟨pre, post, rfl⟩ := List.mem_iff_append.mp ha
  cases post with
  | nil =>
    cases hh : (pre ++ [a]).head? with
    | none => simp at hh
    | some b =>
      rw [h.next_last hh]
      exact List.mem_of_mem_head? hh
  | cons b post =>
    rw [h.next_of_append]
    simp

theorem rotate {a : α} (h : IsRing next (a :: l)) : IsRing next (l ++ [a]) := by
  cases l with
  | nil => exact h
  | cons b l =>
    obtain ⟨hab, hchain⟩ := List.isChain_cons_cons.mp h.chain
    refine ⟨?_, ?_, ?_⟩
    · rw [List.nodup_append_comm]
      exact h.nodup
    · refine List.isChain_append.mpr ⟨hchain, List.isChain_singleton a, fun x hx y hy => ?_⟩
      rw [List.head?_singleton, Option.mem_some_iff] at hy
      exact h.closes x (by simpa using hx) y (by simpa using hy)
    · intro x hx y hy
      simp only [List.getLast?_concat, Option.mem_some_iff] at hx
      simp only [List.cons_append, List.head?_cons, Option.mem_some_iff] at hy
      rw [← hx, ← hy, hab]

end IsRing

end Jiaa.Lib.Ring
