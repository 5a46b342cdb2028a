/-
  Jiaa.Lib.Worklist — a worklist of numbers that takes the largest one in each round and
  may get more while it is worked off.

  - `drain_ends`: if a round adds only smaller numbers, the rounds come to an end, and no
    number is taken twice;
  - `drain_ok_induct`, `drain_induct`: what every round keeps holds at the end;
  - `drain_taken`: the numbers taken are the ones the rounds lead to.
-/

import Mathlib.Data.Finset.Max
import Mathlib.Logic.Relation

namespace Jiaa.Lib.Worklist

variable {σ ε : Type}

/-- The numbers that were taken and the last state; `none` if the rounds are used up. -/
def drain (step : Nat → σ → Finset Nat → Except ε (σ × Finset Nat)) :
    Nat → σ → Finset Nat → Option (List Nat × Except ε σ)
  | 0, _, _ => none
  | rounds + 1, s, needed =>
    if h : needed.Nonempty then
      match step (needed.max' h) s (needed.erase (needed.max' h)) with
      | .error e => some ([needed.max' h], .error e)
      | .ok (s, needed') => (drain step rounds s needed').map fun (taken, res) => (needed.max' h :: taken, res)
    else some ([], .ok s)

/-- A round on `i` adds numbers below `i` only. -/
def AddsLower (step : Nat → σ → Finset Nat → Except ε (σ × Finset Nat)) : Prop :=
  ∀ i s needed s' needed', step i s needed = .ok (s', needed') → ∀ j ∈ needed', j ∈ needed ∨ j < i

variable {step : Nat → σ → Finset Nat → Except ε (σ × Finset Nat)}

theorem lt_of_mem_erase_max {needed : Finset Nat} (h : needed.Nonempty) {j : Nat}
    (hj : j ∈ needed.erase (needed.max' h)) : j < needed.max' h := by
  obtain ⟨hne, hmem⟩ := Finset.mem_erase.mp hj
  exact lt_of_le_of_ne (needed.le_max' j hmem) hne

/-- Rounds for numbers below `b` end within `b + 1`, and take less and less. -/
theorem drain_ends (hstep : AddsLower step) : ∀ (b : Nat) (needed : Finset Nat) (s : σ), (∀ i ∈ needed, i < b) →
    ∃ taken res, (∀ rounds, b < rounds → drain step rounds s needed = some (taken, res)) ∧
      taken.Pairwise (· > ·) ∧ ∀ i ∈ taken, i < b := by
  intro b
  induction b using Nat.strongRecOn with
  | ind b ih =>
    intro needed s hb
    by_cases h : needed.Nonempty
    · have hm : needed.max' h < b := hb _ (needed.max'_mem h)
      cases hr : step (needed.max' h) s (needed.erase (needed.max' h)) with
      | error e =>
        refine ⟨[needed.max' h], .error e, fun rounds hrounds => ?_, List.pairwise_singleton _ _, by simpa using hm⟩
        obtain ⟨n, rfl⟩ : ∃ n, rounds = n + 1 := ⟨rounds - 1, by omega⟩
        simp [drain, h, hr]
      | ok r =>
        obtain ⟨s', needed'⟩ := r
        have hlower : ∀ j ∈ needed', j < needed.max' h := fun j hj =>
          (hstep _ _ _ _ _ hr j hj).elim (lt_of_mem_erase_max h) id
        obtain ⟨taken, res, hrun, hpair, hlt⟩ := ih _ hm needed' s' hlower
        refine ⟨needed.max' h :: taken, res, fun rounds hrounds => ?_, List.pairwise_cons.mpr ⟨hlt, hpair⟩, ?_⟩
        · obtain ⟨n, rfl⟩ : ∃ n, rounds = n + 1 := ⟨rounds - 1, by omega⟩
          simp [drain, h, hr, hrun n (by omega)]
        · intro i hi
          rcases List.mem_cons.mp hi with rfl | hi
          · exact hm
          · exact (hlt i hi).trans hm
    · refine ⟨[], .ok s, fun rounds hrounds => ?_, .nil, nofun⟩
      obtain ⟨n, rfl⟩ : ∃ n, rounds = n + 1 := ⟨rounds - 1, by omega⟩
      simp [drain, h]

/-- Numbers below `b` only lead to numbers below `b`. -/
theorem drain_lt (hstep : AddsLower step) {b : Nat} : ∀ {rounds : Nat} {needed : Finset Nat} {s : σ} {taken : List Nat}
    {res : Except ε σ}, (∀ i ∈ needed, i < b) → drain step rounds s needed = some (taken, res) →
    ∀ i ∈ taken, i < b := by
  intro rounds
  induction rounds with
  | zero => exact fun _ h => nomatch h
  | succ rounds ih =>
    intro needed s taken res hb h
    unfold drain at h
    split at h
    · next hne =>
      have hm : needed.max' hne < b := hb _ (needed.max'_mem hne)
      cases hr : step (needed.max' hne) s (needed.erase (needed.max' hne)) with
      | error e =>
        simp only [hr] at h
        cases h
        simpa using hm
      | ok r =>
        simp only [hr] at h
        obtain ⟨⟨taken', res'⟩, hrun, he⟩ := Option.map_eq_some_iff.mp h
        cases he
        have hlt : ∀ i ∈ taken', i < b := ih (fun j hj => by
          rcases hstep _ _ _ _ _ hr j hj with hin | hj
          · exact hb j (Finset.mem_of_mem_erase hin)
          · exact hj.trans hm) hrun
        exact fun i hi => (List.mem_cons.mp hi).elim (fun h => h ▸ hm) (hlt i)
    · cases h
      exact nofun

theorem drain_empty {rounds : Nat} {s s' : σ} {taken : List Nat} (h : drain step rounds s ∅ = some (taken, .ok s')) :
    s' = s := by
  cases rounds with
  | zero => cases h
  | succ rounds =>
    cases h
    rfl

/-- A run to the end, from its last round to the first. -/
theorem drain_ok_induct {Q : σ → Finset Nat → List Nat → σ → Prop} (done : ∀ s, Q s ∅ [] s)
    (round : ∀ m s needed s1 needed1 taken s', m ∈ needed → step m s (needed.erase m) = .ok (s1, needed1) →
      Q s1 needed1 taken s' → Q s needed (m :: taken) s') :
    ∀ {rounds : Nat} {needed : Finset Nat} {s s' : σ} {taken : List Nat},
      drain step rounds s needed = some (taken, .ok s') → Q s needed taken s' := by
  intro rounds
  induction rounds with
  | zero => exact fun h => nomatch h
  | succ rounds ih =>
    intro needed s s' taken h
    unfold drain at h
    split at h
    · next hne =>
      cases hr : step (needed.max' hne) s (needed.erase (needed.max' hne)) with
      | error e => simp [hr] at h
      | ok r =>
        simp only [hr] at h
        obtain ⟨⟨taken', res⟩, hrun, he⟩ := Option.map_eq_some_iff.mp h
        cases he
        exact round _ s needed r.1 r.2 taken' s' (needed.max'_mem hne) hr (ih hrun)
    · next hne =>
      cases h
      rw [Finset.not_nonempty_iff_eq_empty.mp hne]
      exact done s

theorem drain_induct {P : σ → Prop} (hstep : ∀ i s needed s' needed', P s → step i s needed = .ok (s', needed') → P s')
    (rounds : Nat) (needed : Finset Nat) (s s' : σ) (taken : List Nat) (hs : P s)
    (h : drain step rounds s needed = some (taken, .ok s')) : P s' := by
  refine drain_ok_induct (Q := fun s _ _ s' => P s → P s') (fun s => id) ?_ h hs
  intro m s needed s1 needed1 taken s' _ hr ih hs
  exact ih (hstep m s _ s1 needed1 hs hr)

/-- A round on `i` that goes well adds the numbers that `R` relates to `i`. -/
def Refills (R : Nat → Nat → Prop) (step : Nat → σ → Finset Nat → Except ε (σ × Finset Nat)) : Prop :=
  ∀ i s needed s' needed', step i s needed = .ok (s', needed') → ∀ j, j ∈ needed' ↔ j ∈ needed ∨ R i j

theorem Refills.addsLower {R : Nat → Nat → Prop} (h : Refills R step) (hlower : ∀ i j, R i j → j < i) :
    AddsLower step :=
  fun i s needed s' needed' hr j hj => ((h i s needed s' needed' hr j).mp hj).imp_right (hlower i j)

theorem drain_taken {R : Nat → Nat → Prop} (hstep : Refills R step) {rounds : Nat} {needed : Finset Nat} {s s' : σ}
    {taken : List Nat} (h : drain step rounds s needed = some (taken, .ok s')) (j : Nat) :
    j ∈ taken ↔ ∃ i ∈ needed, Relation.ReflTransGen R i j := by
  refine drain_ok_induct (Q := fun _ needed taken _ => j ∈ taken ↔ ∃ i ∈ needed, Relation.ReflTransGen R i j)
    (fun s => by simp) ?_ h
  intro m s needed s1 needed1 taken s' hm hr ih
  have hrefill := hstep m s _ s1 needed1 hr
  constructor
  · intro hj
    rcases List.mem_cons.mp hj with rfl | hj
    · exact ⟨j, hm, .refl⟩
    · obtain ⟨i, hi, hij⟩ := ih.mp hj
      rcases (hrefill i).mp hi with hi | hmi
      · exact ⟨i, Finset.mem_of_mem_erase hi, hij⟩
      · exact ⟨m, hm, hij.head hmi⟩
  · intro ⟨i, hi, hij⟩
    by_cases him : i = m
    · subst him
      rcases hij.cases_head with rfl | ⟨k, hik, hkj⟩
      · exact List.mem_cons_self ..
      · exact List.mem_cons_of_mem _ (ih.mpr ⟨k, (hrefill k).mpr (.inr hik), hkj⟩)
    · exact List.mem_cons_of_mem _ (ih.mpr ⟨i, (hrefill i).mpr (.inl (Finset.mem_erase.mpr ⟨him, hi⟩)), hij⟩)

end Jiaa.Lib.Worklist
