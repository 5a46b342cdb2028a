/-
  Jiaa.Lib.Runs — the maximal runs of the items of a list whose positions satisfy a
  predicate, each with the position it starts at.

  - `runs_skip`, `runs_head`: the runs of a list that starts with items out of, or in,
    the predicate;
  - `runs_flat`: the items of the runs are those in the predicate.
-/

import Mathlib.Data.List.Basic

namespace Jiaa.Lib.Runs

variable {β : Type*}

/-- An item at `a` in front of the runs of the items from `a + 1` on. -/
def extend (a : Nat) (x : β) : List (Nat × List β) → List (Nat × List β)
  | (b, ys) :: rest => if b = a + 1 then (a, x :: ys) :: rest else (a, [x]) :: (b, ys) :: rest
  | [] => [(a, [x])]

/-- The runs of `l`, whose first item is at `a`. -/
def runs (p : Nat → Prop) [DecidablePred p] : Nat → List β → List (Nat × List β)
  | _, [] => []
  | a, x :: l => if p a then extend a x (runs p (a + 1) l) else runs p (a + 1) l

variable (p q : Nat → Prop) [DecidablePred p] [DecidablePred q]

theorem runs_congr : ∀ (l : List β) (a : Nat), (∀ i, a ≤ i → i < a + l.length → (p i ↔ q i)) →
    runs p a l = runs q a l := by
  intro l
  induction l with
  | nil => intro a _; rfl
  | cons x l ih =>
    intro a h
    have h1 := h a (Nat.le_refl _) (by simp)
    have h2 := ih (a + 1) fun i hi hi' => h i (by omega) (by simp only [List.length_cons]; omega)
    simp only [runs, h2, h1]

/-- Items out of the predicate make no run. -/
theorem runs_skip : ∀ (l m : List β) (a : Nat), (∀ i, a ≤ i → i < a + l.length → ¬ p i) →
    runs p a (l ++ m) = runs p (a + l.length) m := by
  intro l
  induction l with
  | nil => intro m a _; rfl
  | cons x l ih =>
    intro m a h
    have h1 := h a (Nat.le_refl _) (by simp)
    rw [List.cons_append, runs, if_neg h1, ih m (a + 1) fun i hi hi' => h i (by omega) (by simp only [List.length_cons]; omega)]
    rw [List.length_cons, Nat.add_right_comm, Nat.add_assoc]

/-- The runs start where the list does or later, and where it does only at an item in the
    predicate. -/
theorem start_of_runs : ∀ (l : List β) (a : Nat), ∀ r ∈ runs p a l, a ≤ r.1 ∧ (r.1 = a → p a) := by
  intro l
  induction l with
  | nil => intro a r hr; cases hr
  | cons x l ih =>
    intro a r hr
    have ih := ih (a + 1)
    simp only [runs] at hr
    split at hr
    · next hp =>
      generalize hR : runs p (a + 1) l = R at hr ih
      cases R with
      | nil =>
        rw [List.mem_singleton.mp hr]
        exact ⟨Nat.le_refl _, fun _ => hp⟩
      | cons y R =>
        obtain ⟨b, ys⟩ := y
        simp only [extend] at hr
        split at hr
        · rcases List.mem_cons.mp hr with rfl | hr
          · exact ⟨Nat.le_refl _, fun _ => hp⟩
          · have := (ih r (List.mem_cons_of_mem _ hr)).1
            exact ⟨by omega, fun _ => hp⟩
        · rcases List.mem_cons.mp hr with rfl | hr
          · exact ⟨Nat.le_refl _, fun _ => hp⟩
          · have := (ih r hr).1
            exact ⟨by omega, fun _ => hp⟩
    · have := (ih r hr).1
      exact ⟨by omega, fun h => by omega⟩

/-- Items in the predicate up to one that is not make one run. -/
theorem runs_head : ∀ (l m : List β) (a : Nat), l ≠ [] → (∀ i, a ≤ i → i < a + l.length → p i) →
    (m ≠ [] → ¬ p (a + l.length)) → runs p a (l ++ m) = (a, l) :: runs p (a + l.length) m := by
  intro l
  induction l with
  | nil => intro m a h; exact absurd rfl h
  | cons x l ih =>
    intro m a _ h hm
    have h1 := h a (Nat.le_refl _) (by simp)
    have hlen : a + 1 + l.length = a + (x :: l).length := by simp only [List.length_cons]; omega
    rw [List.cons_append, runs, if_pos h1]
    cases l with
    | nil =>
      rw [List.nil_append]
      simp only [List.length_cons, List.length_nil, Nat.zero_add] at hm ⊢
      cases hR : runs p (a + 1) m with
      | nil => rfl
      | cons y R =>
        obtain ⟨b, ys⟩ := y
        have hy := start_of_runs p m (a + 1) (b, ys) (by rw [hR]; exact List.mem_cons_self ..)
        have hne : b ≠ a + 1 := by
          intro e
          refine hm ?_ (hy.2 e)
          rintro rfl
          cases hR
        simp only [extend, if_neg hne]
    | cons y l =>
      rw [ih m (a + 1) nofun (fun i hi hi' => h i (by omega) (by omega)) (by rw [hlen]; exact hm), hlen]
      simp only [extend, if_true]

/-- The items of the runs are the items in the predicate. -/
theorem runs_flat : ∀ (l : List β) (a : Nat),
    (runs p a l).flatMap (fun r => r.2.zipIdx r.1) = (l.zipIdx a).filter fun y => decide (p y.2) := by
  intro l
  induction l with
  | nil => intro a; rfl
  | cons x l ih =>
    intro a
    have ih := ih (a + 1)
    rw [runs, List.zipIdx_cons]
    by_cases hp : p a
    · rw [if_pos hp, List.filter_cons_of_pos (by simpa using hp), ← ih]
      cases runs p (a + 1) l with
      | nil => rfl
      | cons y R =>
        obtain ⟨b, ys⟩ := y
        simp only [extend]
        split
        · next hb =>
          rw [hb]
          rfl
        · rfl
    · rw [if_neg hp, List.filter_cons_of_neg (by simpa using hp), ih]

end Jiaa.Lib.Runs
