/-
  Jiaa.Lib.Coalesce — joining neighbours of a list while a closure says so.

  A closure is passed the item held and the next one: it answers with the item that
  joins them, which is held from then on, or with two that stay apart, of which the first
  leaves. `IsCoalesce` is what an iterator adaptor that does this documents; `coalesce`
  does it. A closure that refuses gives back what it was passed (`Keeps`).

  - `groups_coalesce`: what leaves are the joins of consecutive groups of the list, cut
    where the closure refused;
  - `Groups.chain`, `Groups.together`: neighbours among what leaves were refused, and
    neighbours of the list that are never refused are in one group;
  - `of_mem_calls`: every call is of the join of a stretch of the list and the item after it.
-/

import Mathlib.Data.List.Basic

namespace Jiaa.Lib.Coalesce

variable {α : Type*}

abbrev Closure (α : Type*) := α → α → Except (α × α) α

def coalesceFrom (f : Closure α) : α → List α → List α
  | last, [] => [last]
  | last, x :: l =>
    match f last x with
    | .ok joined => coalesceFrom f joined l
    | .error (last, x) => last :: coalesceFrom f x l

def coalesce (f : Closure α) : List α → List α
  | [] => []
  | x :: l => coalesceFrom f x l

/-- What the adaptor documents. -/
structure IsCoalesce (run : Closure α → List α → List α) : Prop where
  nil : ∀ f, run f [] = []
  single : ∀ f x, run f [x] = [x]
  joined : ∀ {f x y z} l, f x y = .ok z → run f (x :: y :: l) = run f (z :: l)
  apart : ∀ {f x y x' y'} l, f x y = .error (x', y') → run f (x :: y :: l) = x' :: run f (y' :: l)

theorem isCoalesce_coalesce : IsCoalesce (coalesce (α := α)) :=
  ⟨fun _ => rfl, fun _ _ => rfl, fun l h => by simp only [coalesce, coalesceFrom, h],
    fun l h => by simp only [coalesce, coalesceFrom, h]⟩

theorem IsCoalesce.eq {run : Closure α → List α → List α} (h : IsCoalesce run) (f : Closure α) (l : List α) :
    run f l = coalesce f l := by
  have key : ∀ (l : List α) (x : α), run f (x :: l) = coalesceFrom f x l := by
    intro l
    induction l with
    | nil => intro x; exact h.single f x
    | cons y l ih =>
      intro x
      unfold coalesceFrom
      cases hf : f x y with
      | ok z => rw [h.joined l hf, ih]
      | error p =>
        obtain ⟨x', y'⟩ := p
        rw [h.apart l hf, ih]
  cases l with
  | nil => exact h.nil f
  | cons x l => exact key l x

/-- The pairs the closure is passed. -/
def callsFrom (f : Closure α) : α → List α → List (α × α)
  | _, [] => []
  | last, x :: l =>
    (last, x) :: match f last x with
      | .ok joined => callsFrom f joined l
      | .error (_, x) => callsFrom f x l

def calls (f : Closure α) : List α → List (α × α)
  | [] => []
  | x :: l => callsFrom f x l

/-! ## Groups -/

/-- `e` joins the items of `g`, one after the other. -/
inductive Joins (f : Closure α) : List α → α → Prop
  | single (x : α) : Joins f [x] x
  | snoc {g : List α} {e y z : α} : Joins f g e → f e y = .ok z → Joins f (g ++ [y]) z

/-- The list in consecutive groups, each joined, with a refusal between two of them. -/
inductive Groups (f : Closure α) : List α → List α → Prop
  | nil : Groups f [] []
  | cons {g l m : List α} {e : α} : Joins f g e → (∀ y ∈ l.head?, f e y = .error (e, y)) → Groups f l m →
      Groups f (g ++ l) (e :: m)

/-- A refusal changes neither item. -/
def Keeps (f : Closure α) : Prop := ∀ x y p, f x y = .error p → p = (x, y)

variable {f : Closure α}

theorem Joins.ne_nil {g : List α} {e : α} (h : Joins f g e) : g ≠ [] := by
  cases h <;> simp

theorem groups_coalesce (hk : Keeps f) (l : List α) : Groups f l (coalesce f l) := by
  have key : ∀ (l g : List α) (e : α), Joins f g e → Groups f (g ++ l) (coalesceFrom f e l) := by
    intro l
    induction l with
    | nil => intro g e hg; exact Groups.cons hg (by simp) Groups.nil
    | cons y l ih =>
      intro g e hg
      unfold coalesceFrom
      cases hf : f e y with
      | ok z =>
        have := ih (g ++ [y]) z (hg.snoc hf)
        rwa [List.append_assoc] at this
      | error p =>
        obtain rfl := hk e y p hf
        exact Groups.cons hg (by simpa using hf) (ih [y] y (Joins.single y))
  cases l with
  | nil => exact Groups.nil
  | cons x l => exact key l [x] x (Joins.single x)

/-- What holds of every join holds of what leaves. -/
theorem Groups.of_mem {l m : List α} (h : Groups f l m) : ∀ e ∈ m, ∃ g, Joins f g e ∧ g.Sublist l := by
  induction h with
  | nil => intro e he; cases he
  | @cons g l m e hg _ _ ih =>
    intro e' he
    rcases List.mem_cons.mp he with rfl | he
    · exact ⟨g, hg, List.sublist_append_left g l⟩
    · obtain ⟨g', hg', hs⟩ := ih e' he
      exact ⟨g', hg', hs.trans (List.sublist_append_right g l)⟩

/-- Every item is in a group. -/
theorem Groups.of_item {l m : List α} (h : Groups f l m) :
    ∀ x ∈ l, ∃ e ∈ m, ∃ g, Joins f g e ∧ x ∈ g ∧ g.Sublist l := by
  induction h with
  | nil => intro x hx; cases hx
  | @cons g l m e hg _ _ ih =>
    intro x hx
    rcases List.mem_append.mp hx with hx | hx
    · exact ⟨e, List.mem_cons_self .., g, hg, hx, List.sublist_append_left g l⟩
    · obtain ⟨e', he, g', hg', hx', hs⟩ := ih x hx
      exact ⟨e', List.mem_cons_of_mem _ he, g', hg', hx', hs.trans (List.sublist_append_right g l)⟩

/-- A relation that holds between a join and any join of later items holds between any two
    of what leaves. -/
theorem Groups.pairwise {R : α → α → Prop} {l m : List α} (h : Groups f l m)
    (hR : ∀ {g g' e e'}, Joins f g e → Joins f g' e' → (g ++ g').Sublist l → R e e') : m.Pairwise R := by
  induction h with
  | nil => exact List.Pairwise.nil
  | @cons g l m e hg _ hm ih =>
    refine List.pairwise_cons.mpr ⟨fun e' he' => ?_, ih fun h1 h2 hs => hR h1 h2 (hs.trans (List.sublist_append_right g l))⟩
    obtain ⟨g', hg', hs⟩ := hm.of_mem e' he'
    exact hR hg hg' ((List.Sublist.refl g).append hs)

/-- Two neighbours among what leaves: the first item of the second's group was refused. -/
theorem Groups.chain {R : α → α → Prop} {l m : List α} (h : Groups f l m)
    (hR : ∀ {g e y g' e'}, Joins f g e → Joins f (y :: g') e' → (g ++ y :: g').Sublist l →
      f e y = .error (e, y) → R e e') : m.IsChain R := by
  induction h with
  | nil => exact List.IsChain.nil
  | @cons g l m e hg href hm ih =>
    have hrest := ih fun h1 h2 hs => hR h1 h2 (hs.trans (List.sublist_append_right g l))
    cases hm with
    | nil => exact List.IsChain.singleton e
    | @cons g' l' m' e' hg' href' hm' =>
      refine List.IsChain.cons_cons ?_ hrest
      obtain ⟨y, k, rfl⟩ := List.exists_cons_of_ne_nil hg'.ne_nil
      exact hR hg hg' ((List.Sublist.refl g).append (List.sublist_append_left _ l')) (href y (by simp))

/-- Two neighbours of the list that no join ending in the first refuses are joined. -/
theorem Groups.together {l m : List α} (h : Groups f l m) : ∀ {pre post : List α} {a b : α}, l = pre ++ a :: b :: post →
    (∀ g e, Joins f (g ++ [a]) e → (g ++ [a]).Sublist l → ∃ z, f e b = .ok z) →
    ∃ e ∈ m, ∃ g, Joins f g e ∧ a ∈ g ∧ b ∈ g ∧ g.Sublist l := by
  induction h with
  | nil => intro pre post a b hl; simp at hl
  | @cons g l m e hg href hm ih =>
    intro pre post a b hl hj
    have hright : l.Sublist (g ++ l) := List.sublist_append_right g l
    rcases List.append_eq_append_iff.mp hl with ⟨k, hk, hl'⟩ | ⟨k, hk, hl'⟩
    · -- the group ends before `a`
      obtain ⟨e', he', g', hg', ha, hb, hs⟩ := ih hl' fun g e h1 h2 => hj g e h1 (h2.trans hright)
      exact ⟨e', List.mem_cons_of_mem _ he', g', hg', ha, hb, hs.trans hright⟩
    · cases k with
      | nil =>
        have hl'' : l = [] ++ a :: b :: post := by simpa using hl'.symm
        obtain ⟨e', he', g', hg', ha, hb, hs⟩ := ih hl'' fun g e h1 h2 => hj g e h1 (h2.trans hright)
        exact ⟨e', List.mem_cons_of_mem _ he', g', hg', ha, hb, hs.trans hright⟩
      | cons x k =>
        rw [List.cons_append, List.cons.injEq] at hl'
        obtain ⟨rfl, hl'⟩ := hl'
        cases k with
        | nil =>
          -- the group ends with `a`, and `b` was not refused
          rw [hk] at hg
          obtain ⟨z, hz⟩ := hj pre e hg (by rw [← hk]; exact List.sublist_append_left g l)
          rw [← List.nil_append l, ← hl'] at href
          rw [href b (by simp)] at hz
          cases hz
        | cons y k =>
          rw [List.cons_append, List.cons.injEq] at hl'
          obtain ⟨rfl, hl'⟩ := hl'
          exact ⟨e, List.mem_cons_self .., g, hg, by rw [hk]; simp, by rw [hk]; simp, List.sublist_append_left g l⟩

/-- A call is of a join and the item after the stretch it joins. -/
theorem of_mem_calls (hk : Keeps f) {l : List α} {c : α × α} (h : c ∈ calls f l) :
    ∃ g, Joins f g c.1 ∧ (g ++ [c.2]).Sublist l := by
  have key : ∀ (l g : List α) (e : α), Joins f g e → c ∈ callsFrom f e l →
      ∃ g', Joins f g' c.1 ∧ (g' ++ [c.2]).Sublist (g ++ l) := by
    intro l
    induction l with
    | nil => intro g e _ hc; cases hc
    | cons y l ih =>
      intro g e hg hc
      unfold callsFrom at hc
      rcases List.mem_cons.mp hc with rfl | hc
      · exact ⟨g, hg, (List.Sublist.refl g).append (by simp)⟩
      · cases hf : f e y with
        | ok z =>
          simp only [hf] at hc
          obtain ⟨g', hg', hs⟩ := ih (g ++ [y]) z (hg.snoc hf) hc
          exact ⟨g', hg', by rwa [List.append_assoc] at hs⟩
        | error p =>
          obtain rfl := hk e y p hf
          simp only [hf] at hc
          obtain ⟨g', hg', hs⟩ := ih [y] y (Joins.single y) hc
          exact ⟨g', hg', hs.trans (List.sublist_append_right g _)⟩
  cases l with
  | nil => cases h
  | cons x l => exact key l [x] x (Joins.single x) h

end Jiaa.Lib.Coalesce
