/-
  Jiaa.Lib.RevLoop — loops over the indices of a vector from the last to the first that
  take items out of it with `swap_remove`.

  `swap_remove` fills the hole with the last item, so the vector's order is lost; what is
  at the indices not yet visited stays. `drainRev` takes every item out and may append
  new ones; `retainRev` changes an item in place or takes it out. Both visit the items of
  the vector once each, from the last (`drainRev_visit`, `retainRev_visit`), so what one
  round keeps the loop keeps (`drainRev_induct`); the first item comes last
  (`drainRev_cons`). A body that may stop the loop for good is that of `tryDrainRev` and
  `tryRetainRev`.
-/

import Mathlib.Data.List.Basic

namespace Jiaa.Lib.RevLoop

variable {σ α : Type*}

/-- `Vec::swap_remove`; `none` where it panics. -/
def swapRemove (v : List α) (i : Nat) : Option (α × List α) :=
  match v[i]?, v.getLast? with
  | some x, some last => some (x, (v.set i last).dropLast)
  | _, _ => none

theorem swapRemove_append (pre suf : List α) (x : α) :
    ∃ suf', swapRemove (pre ++ x :: suf) pre.length = some (x, pre ++ suf') ∧ suf'.Perm suf := by
  have hx : (pre ++ x :: suf)[pre.length]? = some x := by simp
  rcases List.eq_nil_or_concat suf with rfl | ⟨suf, last, rfl⟩
  · exact ⟨[], by simp [swapRemove], List.Perm.refl _⟩
  · refine ⟨last :: suf, ?_, ?_⟩
    · have hl : (pre ++ x :: suf.concat last).getLast? = some last := by
        rw [List.concat_eq_append, ← List.cons_append, ← List.append_assoc, List.getLast?_concat]
      have hs : (pre ++ x :: suf.concat last).set pre.length last = (pre ++ last :: suf) ++ [last] := by simp
      simp only [swapRemove, hx, hl, hs, List.dropLast_concat]
    · rw [List.concat_eq_append]
      exact (List.perm_append_singleton last suf).symm

/-- The items in the order they come, each with the number of items still to come. -/
def visit (f : Nat → σ → α → σ × List α) : σ → List α → σ × List α
  | s, [] => (s, [])
  | s, x :: l =>
    let (s, new) := f l.length s x
    let (s, rest) := visit f s l
    (s, new ++ rest)

/-- `for i in (0..v.len()).rev()`, `f` on the item taken out, what it makes appended. -/
def drainRev (f : Nat → σ → α → σ × List α) : Nat → σ → List α → σ × List α
  | 0, s, v => (s, v)
  | i + 1, s, v =>
    match swapRemove v i with
    | none => (s, v)
    | some (x, v) =>
      let (s, new) := f i s x
      drainRev f i s (v ++ new)

theorem drainRev_visit (f : Nat → σ → α → σ × List α) (l : List α) :
    ∀ (s : σ) (suf : List α), (drainRev f l.length s (l.reverse ++ suf)).1 = (visit f s l).1 ∧
      (drainRev f l.length s (l.reverse ++ suf)).2.Perm ((visit f s l).2 ++ suf) := by
  induction l with
  | nil => intro s suf; exact ⟨rfl, List.Perm.refl _⟩
  | cons x l ih =>
    intro s suf
    obtain ⟨suf', he, hp⟩ := swapRemove_append l.reverse suf x
    rw [List.length_reverse] at he
    simp only [List.length_cons, List.reverse_cons, List.append_assoc, List.singleton_append, drainRev, he, visit]
    obtain ⟨h1, h2⟩ := ih (f l.length s x).1 (suf' ++ (f l.length s x).2)
    refine ⟨h1, h2.trans ?_⟩
    have hn : (suf' ++ (f l.length s x).2).Perm ((f l.length s x).2 ++ suf) :=
      (hp.append_right _).trans List.perm_append_comm
    exact (hn.append_left _).trans (List.perm_append_comm_assoc _ _ _)

/-- What one round keeps of the state and makes of an item, the loop keeps and makes. -/
theorem visit_induct {f : Nat → σ → α → σ × List α} {p : σ → Prop} {q r : α → Prop}
    (h : ∀ i s x, p s → q x → p (f i s x).1 ∧ ∀ y ∈ (f i s x).2, r y) : ∀ (l : List α) (s : σ), (∀ x ∈ l, q x) → p s →
    p (visit f s l).1 ∧ ∀ y ∈ (visit f s l).2, r y := by
  intro l
  induction l with
  | nil => intro s _ hs; exact ⟨hs, nofun⟩
  | cons x l ih =>
    intro s hl hs
    obtain ⟨h1, h2⟩ := h l.length s x hs (hl x (List.mem_cons_self ..))
    obtain ⟨h3, h4⟩ := ih _ (fun z hz => hl z (List.mem_cons_of_mem _ hz)) h1
    exact ⟨h3, fun y hy => (List.mem_append.mp hy).elim (h2 y) (h4 y)⟩

theorem drainRev_induct {f : Nat → σ → α → σ × List α} {p : σ → Prop} {q r : α → Prop}
    (h : ∀ i s x, p s → q x → p (f i s x).1 ∧ ∀ y ∈ (f i s x).2, r y) {v : List α} (hv : ∀ x ∈ v, q x) {s : σ} (hs : p s) :
    p (drainRev f v.length s v).1 ∧ ∀ y ∈ (drainRev f v.length s v).2, r y := by
  obtain ⟨h1, h2⟩ := drainRev_visit f v.reverse s []
  simp only [List.length_reverse, List.reverse_reverse, List.append_nil] at h1 h2
  obtain ⟨h3, h4⟩ := visit_induct h v.reverse s (fun x hx => hv x (List.mem_reverse.mp hx)) hs
  exact ⟨h1 ▸ h3, fun y hy => h4 y (h2.subset hy)⟩

/-- What every item put in makes can be said of all that is left. -/
theorem forall_drainRev {f : Nat → σ → α → σ × List α} {v : List α} {p : α → Prop}
    (h : ∀ x ∈ v, ∀ i s, ∀ y ∈ (f i s x).2, p y) (s : σ) : ∀ y ∈ (drainRev f v.length s v).2, p y :=
  (drainRev_induct (p := fun _ => True) (fun i s x _ hx => ⟨trivial, h x hx i s⟩) (fun _ hx => hx) trivial).2

/-- `drainRev` with a body that may stop the loop for good. -/
def tryDrainRev (f : Nat → σ → α → Option (σ × List α)) : Nat → σ → List α → Option (σ × List α)
  | 0, s, v => some (s, v)
  | i + 1, s, v =>
    match swapRemove v i with
    | none => some (s, v)
    | some (x, v) => (f i s x).bind fun (s, new) => tryDrainRev f i s (v ++ new)

/-- It goes through where no item of the vector stops it: what is appended is not visited. -/
theorem tryDrainRev_eq {f : Nat → σ → α → σ × List α} {g : Nat → σ → α → Option (σ × List α)} (l : List α) :
    ∀ (s : σ) (suf : List α), (∀ x ∈ l, ∀ i s, g i s x = some (f i s x)) →
      tryDrainRev g l.length s (l.reverse ++ suf) = some (drainRev f l.length s (l.reverse ++ suf)) := by
  induction l with
  | nil => intro s suf _; rfl
  | cons x l ih =>
    intro s suf h
    obtain ⟨suf', he, -⟩ := swapRemove_append l.reverse suf x
    rw [List.length_reverse] at he
    simp only [List.length_cons, List.reverse_cons, List.append_assoc, List.singleton_append, tryDrainRev, drainRev, he,
      h x (List.mem_cons_self ..), Option.bind_some]
    exact ih _ _ fun y hy => h y (List.mem_cons_of_mem _ hy)

theorem swapRemove_cons (x : α) (v : List α) (i : Nat) :
    swapRemove (x :: v) (i + 1) = (swapRemove v i).map fun p => (p.1, x :: p.2) := by
  rcases List.eq_nil_or_concat v with rfl | ⟨u, last, rfl⟩
  · simp [swapRemove]
  · have hl : (x :: u.concat last).getLast? = some last := by
      rw [List.concat_eq_append, ← List.cons_append, List.getLast?_concat]
    have hl' : (u.concat last).getLast? = some last := by rw [List.concat_eq_append, List.getLast?_concat]
    have hne : (u.concat last).set i last ≠ [] := by
      rw [Ne, List.set_eq_nil_iff]
      simp
    simp only [swapRemove, List.getElem?_cons_succ, hl, hl', List.set_cons_succ]
    cases (u.concat last)[i]? with
    | none => rfl
    | some y => simp only [Option.map_some, List.dropLast_cons_of_ne_nil hne]

theorem swapRemove_lt {v : List α} {i : Nat} (h : i < v.length) :
    ∃ x w, swapRemove v i = some (x, w) ∧ w.length + 1 = v.length := by
  rcases List.eq_nil_or_concat v with rfl | ⟨u, last, rfl⟩
  · cases h
  · have hl : (u.concat last).getLast? = some last := by rw [List.concat_eq_append, List.getLast?_concat]
    refine ⟨(u.concat last)[i], ((u.concat last).set i last).dropLast, ?_, ?_⟩
    · simp only [swapRemove, List.getElem?_eq_getElem h, hl]
    · rw [List.length_dropLast, List.length_set]
      omega

/-- The item at index 0 is taken out last. -/
theorem drainRev_cons (f : Nat → σ → α → σ × List α) (n : Nat) : ∀ (s : σ) (x : α) (v : List α), n ≤ v.length →
    drainRev f (n + 1) s (x :: v) =
      drainRev f 1 (drainRev (fun i => f (i + 1)) n s v).1 (x :: (drainRev (fun i => f (i + 1)) n s v).2) := by
  induction n with
  | zero => intro s x v _; rfl
  | succ n ih =>
    intro s x v hn
    obtain ⟨y, w, hy, hw⟩ := swapRemove_lt (show n < v.length by omega)
    have hy' : swapRemove (x :: v) (n + 1) = some (y, x :: w) := by rw [swapRemove_cons, hy]; rfl
    have hlen : n ≤ (w ++ (f (n + 1) s y).2).length := by rw [List.length_append]; omega
    have hl : drainRev f (n + 1 + 1) s (x :: v) = drainRev f (n + 1) (f (n + 1) s y).1 (x :: (w ++ (f (n + 1) s y).2)) := by
      rw [drainRev, hy']
      rfl
    have hr : drainRev (fun i => f (i + 1)) (n + 1) s v =
        drainRev (fun i => f (i + 1)) n (f (n + 1) s y).1 (w ++ (f (n + 1) s y).2) := by
      rw [drainRev, hy]
    rw [hl, hr]
    exact ih _ x _ hlen

theorem drainRev_one (f : Nat → σ → α → σ × List α) (x : α) (v : List α) :
    ∃ w, ∀ s, drainRev f 1 s (x :: v) = ((f 0 s x).1, w ++ (f 0 s x).2) := by
  obtain ⟨w, hw, -⟩ := swapRemove_append [] v x
  rw [List.nil_append, List.nil_append, List.length_nil] at hw
  exact ⟨w, fun s => by simp only [drainRev, hw]⟩

/-- Two loops whose states go together take out and make the same. -/
theorem drainRev_map {τ : Type*} (f : Nat → σ → α → σ × List α) (g : Nat → τ → α → τ × List α) (φ : σ → τ)
    (h : ∀ i s x, g i (φ s) x = (φ (f i s x).1, (f i s x).2)) (n : Nat) : ∀ (s : σ) (v : List α),
    drainRev g n (φ s) v = (φ (drainRev f n s v).1, (drainRev f n s v).2) := by
  induction n with
  | zero => intro s v; rfl
  | succ n ih =>
    intro s v
    cases hs : swapRemove v n with
    | none => simp only [drainRev, hs]
    | some p => simp only [drainRev, hs, h, ih]

/-- `for i in (0..v.len()).rev()`, the item at `i` replaced, or taken out. -/
def retainRev (f : σ → α → σ × Option α) : Nat → σ → List α → σ × List α
  | 0, s, v => (s, v)
  | i + 1, s, v =>
    match v[i]?, swapRemove v i with
    | some x, some (_, w) =>
      match f s x with
      | (s, some y) => retainRev f i s (v.set i y)
      | (s, none) => retainRev f i s w
    | _, _ => (s, v)

theorem retainRev_visit (f : σ → α → σ × Option α) (l : List α) :
    ∀ (s : σ) (suf : List α),
      let g : Nat → σ → α → σ × List α := fun _ s x => ((f s x).1, (f s x).2.toList)
      (retainRev f l.length s (l.reverse ++ suf)).1 = (visit g s l).1 ∧
      (retainRev f l.length s (l.reverse ++ suf)).2.Perm ((visit g s l).2 ++ suf) := by
  induction l with
  | nil => intro s suf; exact ⟨rfl, List.Perm.refl _⟩
  | cons x l ih =>
    intro s suf g
    obtain ⟨suf', he, hp⟩ := swapRemove_append l.reverse suf x
    rw [List.length_reverse] at he
    have hx : (l.reverse ++ x :: suf)[l.length]? = some x := by simp
    simp only [List.length_cons, List.reverse_cons, List.append_assoc, List.singleton_append, retainRev, hx, he, visit]
    rcases hf : f s x with ⟨s', _ | y⟩
    · obtain ⟨h1, h2⟩ := ih s' suf'
      simp only [g, hf, Option.toList_none, List.nil_append]
      exact ⟨h1, h2.trans (hp.append_left _)⟩
    · have hset : (l.reverse ++ x :: suf).set l.length y = l.reverse ++ y :: suf := by simp
      obtain ⟨h1, h2⟩ := ih s' (y :: suf)
      simp only [g, hf, Option.toList_some, List.singleton_append, hset]
      exact ⟨h1, h2.trans List.perm_middle⟩

/-- `retainRev` with a body that may stop the loop for good. -/
def tryRetainRev (f : σ → α → Option (σ × Option α)) : Nat → σ → List α → Option (σ × List α)
  | 0, s, v => some (s, v)
  | i + 1, s, v =>
    match v[i]?, swapRemove v i with
    | some x, some (_, w) =>
      (f s x).bind fun (s, y) =>
        match y with
        | some y => tryRetainRev f i s (v.set i y)
        | none => tryRetainRev f i s w
    | _, _ => some (s, v)

theorem tryRetainRev_eq {f : σ → α → σ × Option α} {g : σ → α → Option (σ × Option α)} (l : List α) :
    ∀ (s : σ) (suf : List α), (∀ x ∈ l, ∀ s, g s x = some (f s x)) →
      tryRetainRev g l.length s (l.reverse ++ suf) = some (retainRev f l.length s (l.reverse ++ suf)) := by
  induction l with
  | nil => intro s suf _; rfl
  | cons x l ih =>
    intro s suf h
    obtain ⟨suf', he, -⟩ := swapRemove_append l.reverse suf x
    rw [List.length_reverse] at he
    have hx : (l.reverse ++ x :: suf)[l.length]? = some x := by simp
    have ih := fun s suf => ih s suf fun y hy => h y (List.mem_cons_of_mem _ hy)
    simp only [List.length_cons, List.reverse_cons, List.append_assoc, List.singleton_append, tryRetainRev, retainRev, hx, he,
      h x (List.mem_cons_self ..), Option.bind_some]
    rcases f s x with ⟨s', _ | y⟩
    · exact ih s' suf'
    · have hset : (l.reverse ++ x :: suf).set l.length y = l.reverse ++ y :: suf := by simp
      simp only [hset]
      exact ih s' (y :: suf)

end Jiaa.Lib.RevLoop
