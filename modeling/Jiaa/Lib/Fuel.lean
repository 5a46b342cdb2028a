/-
  Jiaa.Lib.Fuel — loops with a bound on their rounds.

  A loop that may not end is a function of the rounds it may take, `none` if they are used
  up. `Ends` says that it comes to its end, and with what.
-/

import Mathlib.Data.Nat.Basic

namespace Jiaa.Lib.Fuel

variable {α β : Type*} {f g : Nat → Option α} {a b : α}

/-- With enough rounds `f` gives `a`. -/
def Ends (f : Nat → Option α) (a : α) : Prop := ∃ k, ∀ rounds, k ≤ rounds → f rounds = some a

namespace Ends

theorem unique (ha : Ends f a) (hb : Ends f b) : a = b := by
  obtain ⟨k, hk⟩ := ha
  obtain ⟨k', hk'⟩ := hb
  exact Option.some.inj ((hk (k + k') (Nat.le_add_right ..)).symm.trans (hk' (k + k') (Nat.le_add_left ..)))

/-- A loop that takes a round first. -/
theorem of_succ {k : Nat} (h : ∀ rounds, k ≤ rounds → f (rounds + 1) = some a) : Ends f a := by
  refine ⟨k + 1, fun rounds hr => ?_⟩
  obtain ⟨r, rfl⟩ : ∃ r, rounds = r + 1 := ⟨rounds - 1, by omega⟩
  exact h r (by omega)

theorem done (h : ∀ rounds, f (rounds + 1) = some a) : Ends f a := of_succ (k := 0) fun rounds _ => h rounds

theorem step (h : ∀ rounds, f (rounds + 1) = g rounds) (hg : Ends g a) : Ends f a := by
  obtain ⟨k, hk⟩ := hg
  exact of_succ fun rounds hr => (h rounds).trans (hk rounds hr)

theorem map {f : Nat → Option β} (h : Ends g a) (m : α → β) (hf : ∀ rounds, f rounds = (g rounds).map m) :
    Ends f (m a) := by
  obtain ⟨k, hk⟩ := h
  exact ⟨k, fun rounds hr => by rw [hf, hk rounds hr, Option.map_some]⟩

end Ends

end Jiaa.Lib.Fuel
