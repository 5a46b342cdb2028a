/-
  Jiaa.Lib.BinarySearch — `slice::binary_search_by`, as the standard library computes it:
  a window that is halved until one item is left, which is compared once more.

  - `searchBy_spec`: in a list whose items compare less, then equal at most once, then
    greater, the index found (or to insert at) splits off the items that compare less.
-/

import Mathlib.Data.List.Basic

namespace Jiaa.Lib.BinarySearch

variable {α : Type*}

/-- The window of `size` items from `base` on, halved; `rounds` bounds the halvings. -/
def narrow (cmp : α → Ordering) (l : List α) : Nat → Nat → Nat → Nat
  | 0, base, _ => base
  | rounds + 1, base, size =>
    if 1 < size then
      let half := size / 2
      let mid := base + half
      narrow cmp l rounds (if (l[mid]?.map cmp).getD .gt = .gt then base else mid) (size - half)
    else base

/-- `Ok` of the index of an item that compares equal, `Err` of the index to insert at. -/
def searchBy (cmp : α → Ordering) (l : List α) : Except Nat Nat :=
  let base := narrow cmp l l.length 0 l.length
  match l[base]?.map cmp with
  | none => .error 0
  | some .eq => .ok base
  | some .lt => .error (base + 1)
  | some .gt => .error base

/-- `Ok(idx) | Err(idx) => idx`. -/
def index : Except Nat Nat → Nat
  | .ok idx => idx
  | .error idx => idx

/-- Behind an item that does not compare less every item compares greater. -/
def Ordered (cmp : α → Ordering) (l : List α) : Prop := l.Pairwise fun a b => cmp a ≠ .lt → cmp b = .gt

theorem Ordered.gt {cmp : α → Ordering} {l : List α} (h : Ordered cmp l) {i j : Nat} {x y : α} (hij : i < j)
    (hx : l[i]? = some x) (hy : l[j]? = some y) (hn : cmp x ≠ .lt) : cmp y = .gt := by
  obtain ⟨hi, rfl⟩ := List.getElem?_eq_some_iff.mp hx
  obtain ⟨hj, rfl⟩ := List.getElem?_eq_some_iff.mp hy
  exact List.pairwise_iff_getElem.mp h i j hi hj hij hn

/-- The item left is one before which all compare less, and it compares less itself when
    any item behind it does not compare greater. -/
theorem narrow_spec {cmp : α → Ordering} {l : List α} (h : Ordered cmp l) :
    ∀ rounds base size, size ≤ rounds + 1 → 0 < size → base + size ≤ l.length →
    (∀ j < base, ∀ x, l[j]? = some x → cmp x = .lt) →
    (∀ j, base + size ≤ j → ∀ x, l[j]? = some x → cmp x = .gt) →
    narrow cmp l rounds base size < l.length ∧
      (∀ j < narrow cmp l rounds base size, ∀ x, l[j]? = some x → cmp x = .lt) ∧
      ∀ j, narrow cmp l rounds base size < j → ∀ x, l[j]? = some x → cmp x = .gt := by
  intro rounds
  induction rounds with
  | zero =>
    intro base size h1 h2 h3 hlt hgt
    exact ⟨by simp only [narrow]; omega, hlt, fun j hj => hgt j (by simp only [narrow] at hj; omega)⟩
  | succ rounds ih =>
    intro base size h1 h2 h3 hlt hgt
    simp only [narrow]
    by_cases hs : 1 < size
    · rw [if_pos hs]
      have hmid : base + size / 2 < l.length := by omega
      simp only [List.getElem?_eq_getElem hmid, Option.map_some, Option.getD_some]
      by_cases hc : cmp l[base + size / 2] = .gt
      · rw [if_pos hc]
        refine ih base (size - size / 2) (by omega) (by omega) (by omega) hlt fun j hj x hx => ?_
        rcases Nat.lt_or_ge (base + size / 2) j with hj' | hj'
        · exact h.gt hj' (List.getElem?_eq_getElem hmid) hx (by rw [hc]; decide)
        · obtain ⟨hj'', rfl⟩ := List.getElem?_eq_some_iff.mp hx
          have : j = base + size / 2 := by omega
          subst this
          exact hc
      · rw [if_neg hc]
        refine ih (base + size / 2) (size - size / 2) (by omega) (by omega) (by omega) (fun j hj x hx => ?_)
          fun j hj => hgt j (by omega)
        by_contra hn
        exact hc (h.gt hj hx (List.getElem?_eq_getElem hmid) hn)
    · rw [if_neg hs]
      exact ⟨by omega, hlt, fun j hj => hgt j (by omega)⟩

/-- The index splits the items that compare less from the others. -/
theorem searchBy_spec {cmp : α → Ordering} {l : List α} (h : Ordered cmp l) :
    (∀ x ∈ l.take (index (searchBy cmp l)), cmp x = .lt) ∧ ∀ x ∈ l.drop (index (searchBy cmp l)), cmp x ≠ .lt := by
  rcases Nat.eq_zero_or_pos l.length with h0 | h0
  · rw [List.eq_nil_of_length_eq_zero h0]
    simp
  · obtain ⟨hb, hlt, hgt⟩ := narrow_spec h l.length 0 l.length (by omega) h0 (by omega) (by omega)
      fun j hj x hx => by rw [List.getElem?_eq_none (by omega)] at hx; cases hx
    simp only [searchBy]
    generalize narrow cmp l l.length 0 l.length = base at hb hlt hgt
    have hget := List.getElem?_eq_getElem hb
    -- below `base` all compare less, past it none does
    have low : ∀ n, n ≤ base → ∀ x ∈ l.take n, cmp x = .lt := by
      intro n hn x hx
      obtain ⟨j, hj⟩ := List.mem_iff_getElem?.mp hx
      rw [List.getElem?_take] at hj
      split at hj
      · exact hlt j (by omega) x hj
      · cases hj
    have high : ∀ n, base < n → ∀ x ∈ l.drop n, cmp x ≠ .lt := by
      intro n hn x hx
      obtain ⟨j, hj⟩ := List.mem_iff_getElem?.mp hx
      rw [List.getElem?_drop] at hj
      rw [hgt (n + j) (by omega) x hj]
      decide
    have highEq : cmp l[base] ≠ .lt → ∀ x ∈ l.drop base, cmp x ≠ .lt := by
      intro hc x hx
      rw [List.drop_eq_getElem_cons hb, List.mem_cons] at hx
      rcases hx with rfl | hx
      · exact hc
      · exact high (base + 1) (by omega) x hx
    rw [hget]
    simp only [Option.map_some]
    cases hc : cmp l[base] with
    | eq => exact ⟨low base (Nat.le_refl _), highEq (by rw [hc]; decide)⟩
    | gt => exact ⟨low base (Nat.le_refl _), highEq (by rw [hc]; decide)⟩
    | lt =>
      refine ⟨fun x hx => ?_, high (base + 1) (by omega)⟩
      simp only [index] at hx
      rw [List.take_succ_eq_append_getElem hb, List.mem_append, List.mem_singleton] at hx
      rcases hx with hx | rfl
      · exact low base (Nat.le_refl _) x hx
      · exact hc

end Jiaa.Lib.BinarySearch
