/-
  Jiaa.Lib.Addressed — lists laid out at consecutive addresses of a space of `N`
  addresses that wraps.

  `addressed N a l` pairs the items of `l` with `a, a + 1, …` modulo `N`. Cutting a
  list cuts its layout (`addressed_append`), so a program that moves a buffer in pieces
  is right when the pieces' layouts make up the buffer's, in any order.
-/

import Mathlib.Data.List.Basic

namespace Jiaa.Lib.Addressed

variable {α : Type*} (N : Nat)

def addressed (a : Nat) : List α → List (Nat × α)
  | [] => []
  | x :: l => (a % N, x) :: addressed (a + 1) l

@[simp] theorem addressed_nil (a : Nat) : addressed N a ([] : List α) = [] := rfl

@[simp] theorem addressed_cons (a : Nat) (x : α) (l : List α) :
    addressed N a (x :: l) = (a % N, x) :: addressed N (a + 1) l := rfl

@[simp] theorem length_addressed (a : Nat) (l : List α) : (addressed N a l).length = l.length := by
  induction l generalizing a with
  | nil => rfl
  | cons x l ih => simp [ih]

@[simp] theorem map_snd_addressed (a : Nat) (l : List α) : (addressed N a l).map (·.2) = l := by
  induction l generalizing a with
  | nil => rfl
  | cons x l ih => simp [ih]

theorem addressed_append (a : Nat) (l m : List α) :
    addressed N a (l ++ m) = addressed N a l ++ addressed N (a + l.length) m := by
  induction l generalizing a with
  | nil => simp
  | cons x l ih => simp [ih, Nat.add_comm, Nat.add_left_comm]

/-- Only the address modulo `N` matters. -/
theorem addressed_mod (a : Nat) (l : List α) : addressed N (a % N) l = addressed N a l := by
  induction l generalizing a with
  | nil => rfl
  | cons x l ih =>
    rw [addressed_cons, addressed_cons, Nat.mod_mod, ← ih (a % N + 1), ← ih (a + 1), Nat.mod_add_mod]

theorem getElem?_addressed (a i : Nat) (l : List α) :
    (addressed N a l)[i]? = l[i]?.map fun x => ((a + i) % N, x) := by
  induction l generalizing a i with
  | nil => simp
  | cons x l ih =>
    cases i with
    | zero => simp
    | succ i => simp only [addressed_cons, List.getElem?_cons_succ, ih]; congr 2; funext y; congr 2; omega

theorem mem_addressed {a : Nat} {l : List α} {v : Nat} {x : α} :
    (v, x) ∈ addressed N a l ↔ ∃ i, l[i]? = some x ∧ v = (a + i) % N := by
  rw [List.mem_iff_getElem?]
  constructor
  · intro ⟨i, hi⟩
    rw [getElem?_addressed] at hi
    obtain ⟨y, hy, he⟩ := Option.map_eq_some_iff.mp hi
    cases he
    exact ⟨i, hy, rfl⟩
  · rintro ⟨i, hi, rfl⟩
    exact ⟨i, by rw [getElem?_addressed, hi]; rfl⟩

theorem addressed_take (a n : Nat) (l : List α) : addressed N a (l.take n) = (addressed N a l).take n := by
  induction l generalizing a n with
  | nil => simp
  | cons x l ih => cases n <;> simp [ih]

theorem addressed_drop (a n : Nat) (l : List α) : addressed N (a + n) (l.drop n) = (addressed N a l).drop n := by
  induction l generalizing a n with
  | nil => simp
  | cons x l ih =>
    cases n with
    | zero => simp
    | succ n => simp only [addressed_cons, List.drop_succ_cons, ← ih]; congr 1; omega

/-- Items that do not wrap are at `a + i`. -/
theorem addr_of_mem {a : Nat} {l : List α} (h : a + l.length ≤ N) {y : Nat × α} (hy : y ∈ addressed N a l) :
    a ≤ y.1 ∧ y.1 < a + l.length := by
  obtain ⟨i, hi, he⟩ := (mem_addressed N).mp (show (y.1, y.2) ∈ _ from hy)
  have hlt := (List.getElem?_eq_some_iff.mp hi).1
  rw [Nat.mod_eq_of_lt (by omega)] at he
  omega

theorem exists_mem_addressed {a : Nat} {l : List α} (h : a + l.length ≤ N) {v : Nat} (hv : a ≤ v)
    (hv' : v < a + l.length) : ∃ x, (v, x) ∈ addressed N a l := by
  refine ⟨l[v - a], (mem_addressed N).mpr ⟨v - a, ?_, ?_⟩⟩
  · exact List.getElem?_eq_getElem (by omega)
  · rw [show a + (v - a) = v by omega, Nat.mod_eq_of_lt (by omega)]

/-- Cutting a layout at the address `a + n` is filtering it by address. -/
theorem addressed_filter_lt {a : Nat} {l : List α} (h : a + l.length ≤ N) (n : Nat) :
    (addressed N a l).filter (fun y => decide (y.1 < a + n)) = addressed N a (l.take n) ∧
      (addressed N a l).filter (fun y => !decide (y.1 < a + n)) = addressed N (a + n) (l.drop n) := by
  have hs : addressed N a l = addressed N a (l.take n) ++ addressed N (a + n) (l.drop n) := by
    rw [addressed_take, addressed_drop, List.take_append_drop]
  have hl : ∀ y ∈ addressed N a (l.take n), y.1 < a + n := by
    intro y hy
    have := addr_of_mem N (by rw [List.length_take]; omega) hy
    rw [List.length_take] at this; omega
  have hr : ∀ y ∈ addressed N (a + n) (l.drop n), ¬ y.1 < a + n := by
    intro y hy
    by_cases hn : n ≤ l.length
    · have := addr_of_mem N (by rw [List.length_drop]; omega) hy
      omega
    · rw [List.drop_eq_nil_of_le (by omega)] at hy; cases hy
  rw [hs, List.filter_append, List.filter_append]
  constructor
  · rw [List.filter_eq_self.mpr (by simpa using hl), List.filter_eq_nil_iff.mpr (by simpa using hr), List.append_nil]
  · rw [List.filter_eq_nil_iff.mpr (by simpa using hl), List.filter_eq_self.mpr (by simpa using hr), List.nil_append]

end Jiaa.Lib.Addressed
