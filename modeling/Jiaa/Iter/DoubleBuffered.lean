/-
  Jiaa.Iter.DoubleBuffered — mapping an iterator chunk by chunk (memflow
  `iter/double_buffered_iterator.rs`, `iter/mod.rs`).

  Once the output buffer is empty, `next` reads a chunk and maps it into the output buffer,
  once, and takes from the front whether anything came out or not.

  - `bufferUp_chunks`: the loop reads the next chunk;
  - `collect_ends`, `collect_endless`: what collecting gives, and when it does not end;
  - `collect_iff`: when it gives the outputs of all chunks.
-/

import Jiaa.Lib.Fuel
import Mathlib.Data.List.Basic

namespace Jiaa

open Lib.Fuel

/-- `fi` and `fo` are the states of the closures. -/
structure DoubleBufferedMapIterator (A B C F G : Type*) where
  iter : List A
  fi : F
  fo : G
  buf : List B
  bufOut : List C

def doubleBufferedMap {A B C F G : Type*} (iter : List A) (fi : F) (fo : G) : DoubleBufferedMapIterator A B C F G :=
  ⟨iter, fi, fo, [], []⟩

namespace DoubleBufferedMapIterator

variable {A B C F G : Type*} (callFi : F → A → F × Bool × B) (callFo : G → List B → List C → G × List B × List C)

/-- The loop that fills the buffer. -/
def bufferUp : F → List A → List B → F × List A × List B
  | fi, [], buf => (fi, [], buf)
  | fi, elem :: iter, buf =>
    let (fi, more, elem) := callFi fi elem
    if more then bufferUp fi iter (buf ++ [elem]) else (fi, iter, buf ++ [elem])

def refill (self : DoubleBufferedMapIterator A B C F G) : DoubleBufferedMapIterator A B C F G :=
  let (fi, iter, buf) := bufferUp callFi self.fi self.iter self.buf
  let (fo, buf, bufOut) := callFo self.fo buf self.bufOut
  ⟨iter, fi, fo, buf, bufOut⟩

def next (self : DoubleBufferedMapIterator A B C F G) : Option C × DoubleBufferedMapIterator A B C F G :=
  let self := if self.bufOut.isEmpty then self.refill callFi callFo else self
  (self.bufOut.head?, { self with bufOut := self.bufOut.tail })

/-- Up to the first `None`; `none` if that many calls do not reach one. -/
def collect : Nat → DoubleBufferedMapIterator A B C F G → Option (List C)
  | 0, _ => none
  | calls + 1, self =>
    match self.next callFi callFo with
    | (none, _) => some []
    | (some c, self) => (collect calls self).map (c :: ·)

/-! ## Chunks -/

/-- The chunks of a sequence, the first one going on from `chunk`: each ends with the element
    that `fi` marks, the last one with the sequence. -/
def chunks : F → List A → List B → List (List B)
  | _, [], chunk => if chunk = [] then [] else [chunk]
  | fi, elem :: iter, chunk =>
    let (fi, more, elem) := callFi fi elem
    if more then chunks fi iter (chunk ++ [elem]) else (chunk ++ [elem]) :: chunks fi iter []

/-- The loop reads the next chunk, or nothing at the end. -/
theorem bufferUp_chunks : ∀ (iter : List A) (fi : F) (chunk : List B),
    (chunks callFi fi iter chunk = [] ∧ bufferUp callFi fi iter chunk = (fi, [], []) ∧ iter = []) ∨
    ∃ c fi' iter', bufferUp callFi fi iter chunk = (fi', iter', c) ∧
      chunks callFi fi iter chunk = c :: chunks callFi fi' iter' [] := by
  intro iter
  induction iter with
  | nil =>
    intro fi chunk
    by_cases hc : chunk = []
    · exact .inl (by simp [chunks, bufferUp, hc])
    · exact .inr ⟨chunk, fi, [], rfl, by simp [chunks, hc]⟩
  | cons elem iter ih =>
    intro fi chunk
    by_cases hmore : (callFi fi elem).2.1
    · rcases ih (callFi fi elem).1 (chunk ++ [(callFi fi elem).2.2]) with ⟨hnil, hrun, rfl⟩ | ⟨c, fi', iter', hrun, hcs⟩
      · simp [chunks] at hnil
      · exact .inr ⟨c, fi', iter', by simp [bufferUp, hmore, hrun], by simp [chunks, hmore, hcs]⟩
    · exact .inr ⟨_, _, _, by simp only [bufferUp, hmore]; rfl, by simp only [chunks, hmore]; rfl⟩

/-! ## Collecting -/

section Collect

variable {callFi : F → A → F × Bool × B} {callFo : G → List B → List C → G × List B × List C} {g : List B → List C}

/-- What is left in the output buffer comes first. -/
theorem collect_bufOut {iter : List A} {fi : F} {fo : G} {l : List C} : ∀ out : List C,
    Ends (fun calls => collect callFi callFo calls ⟨iter, fi, fo, [], []⟩) l →
    Ends (fun calls => collect callFi callFo calls ⟨iter, fi, fo, [], out⟩) (out ++ l) := by
  intro out
  induction out with
  | nil => exact id
  | cons c out ih =>
    intro h
    refine Ends.step (fun calls => ?_) ((ih h).map (c :: ·) fun _ => rfl)
    simp [collect, next]

/-- No chunk with an output comes after one without. -/
def OutputsFirst (g : List B → List C) (cs : List (List B)) : Prop := cs.Pairwise fun c c' => g c = [] → g c' = []

/-- A list with all its outputs in front of the first item without one. -/
theorem outputsFirst_split {front back : List (List B)} {c : List B} (hfront : ∀ x ∈ front, g x ≠ []) (hc : g c = []) :
    OutputsFirst g (front ++ c :: back) ↔ ∀ x ∈ back, g x = [] := by
  unfold OutputsFirst
  rw [List.pairwise_append, List.pairwise_cons]
  constructor
  · exact fun h x hx => h.2.1.1 x hx hc
  · intro h
    refine ⟨List.pairwise_of_forall_mem_list fun x hx y _ hxe => absurd hxe (hfront x hx), ⟨fun x hx _ => h x hx, ?_⟩,
      fun x hx y _ hxe => absurd hxe (hfront x hx)⟩
    exact List.pairwise_of_forall_mem_list fun x _ y hy _ => h y hy

variable (hfo : ∀ fo buf out, (callFo fo buf out).2 = ([], out ++ g buf))
include hfo

/-- With nothing left, the next chunk is mapped; at the end, an empty one. -/
theorem refill_chunk (callFi : F → A → F × Bool × B) (iter : List A) (fi : F) (fo : G) : ∃ c fi' iter' fo',
    (⟨iter, fi, fo, [], []⟩ : DoubleBufferedMapIterator A B C F G).refill callFi callFo = ⟨iter', fi', fo', [], g c⟩ ∧
    (chunks callFi fi iter [] = [] ∧ c = [] ∧ chunks callFi fi' iter' [] = [] ∨
      chunks callFi fi iter [] = c :: chunks callFi fi' iter' []) := by
  have hcall : ∀ fo c, callFo fo c [] = ((callFo fo c []).1, [], g c) := fun fo c => Prod.ext rfl (hfo fo c [])
  rcases bufferUp_chunks callFi iter fi [] with ⟨hnil, hrun, rfl⟩ | ⟨c, fi', iter', hrun, hcs⟩
  · refine ⟨[], fi, [], (callFo fo [] []).1, ?_, .inl ⟨hnil, rfl, hnil⟩⟩
    rw [refill, hrun]
    dsimp only
    rw [hcall]
  · refine ⟨c, fi', iter', (callFo fo c []).1, ?_, .inr hcs⟩
    rw [refill, hrun]
    dsimp only
    rw [hcall]

/-- The outputs of the chunks before one that has none. -/
theorem collect_ends : ∀ (front : List (List B)) (c : List B) (iter : List A) (fi : F) (fo : G),
    front ++ [c] <+: chunks callFi fi iter [] ++ [[]] → (∀ x ∈ front, g x ≠ []) → g c = [] →
    Ends (fun calls => collect callFi callFo calls ⟨iter, fi, fo, [], []⟩) (front.flatMap g) := by
  intro front
  induction front with
  | nil =>
    intro c iter fi fo hprefix _ hc
    obtain ⟨c', fi', iter', fo', hrefill, hcs⟩ := refill_chunk hfo callFi iter fi fo
    have heq : c' = c := by
      rcases hcs with ⟨hnil, rfl, -⟩ | hcs
      · rw [hnil] at hprefix
        exact ((List.cons_prefix_cons.mp hprefix).1).symm
      · rw [hcs] at hprefix
        exact ((List.cons_prefix_cons.mp hprefix).1).symm
    subst heq
    exact Ends.done fun calls => by simp [collect, next, hrefill, hc]
  | cons x front ih =>
    intro c iter fi fo hprefix hfront hc
    obtain ⟨c', fi', iter', fo', hrefill, hcs⟩ := refill_chunk hfo callFi iter fi fo
    rcases hcs with ⟨hnil, -, -⟩ | hcs
    · have hlen := hprefix.length_le
      simp [hnil] at hlen
    · rw [hcs] at hprefix
      obtain ⟨rfl, hrest⟩ := List.cons_prefix_cons.mp hprefix
      obtain ⟨b, out, hout⟩ := List.exists_cons_of_ne_nil (hfront x (List.mem_cons_self ..))
      have hend := ih c iter' fi' fo' hrest (fun y hy => hfront y (List.mem_cons_of_mem _ hy)) hc
      rw [List.flatMap_cons, hout, List.cons_append]
      refine Ends.step (fun calls => ?_) ((collect_bufOut out hend).map (b :: ·) fun _ => rfl)
      simp [collect, next, hrefill, hout]

/-- If every chunk has an output, also the empty one at the end, there is no end. -/
theorem collect_endless (hend : g [] ≠ []) : ∀ (calls : Nat) (iter : List A) (fi : F) (fo : G) (out : List C),
    (∀ c ∈ chunks callFi fi iter [], g c ≠ []) → collect callFi callFo calls ⟨iter, fi, fo, [], out⟩ = none := by
  intro calls
  induction calls with
  | zero => exact fun _ _ _ _ _ => rfl
  | succ calls ih =>
    intro iter fi fo out hcs
    cases out with
    | cons c out => simp [collect, next, ih iter fi fo out hcs]
    | nil =>
      obtain ⟨c, fi', iter', fo', hrefill, hread⟩ := refill_chunk hfo callFi iter fi fo
      have hrest : g c ≠ [] ∧ ∀ c' ∈ chunks callFi fi' iter' [], g c' ≠ [] := by
        rcases hread with ⟨-, rfl, hnil⟩ | hread
        · exact ⟨hend, by simp [hnil]⟩
        · rw [hread] at hcs
          exact List.forall_mem_cons.mp hcs
      obtain ⟨b, out, hout⟩ := List.exists_cons_of_ne_nil hrest.1
      simp [collect, next, hrefill, hout, ih iter' fi' fo' out hrest.2]

theorem collect_iff (iter : List A) (fi : F) (fo : G) :
    Ends (fun calls => collect callFi callFo calls (doubleBufferedMap iter fi fo))
        ((chunks callFi fi iter []).flatMap g) ↔
      OutputsFirst g (chunks callFi fi iter []) ∧ ((∀ c ∈ chunks callFi fi iter [], g c ≠ []) → g [] = []) := by
  by_cases hall : ∀ c ∈ chunks callFi fi iter [], g c ≠ []
  · have hfirst : OutputsFirst g (chunks callFi fi iter []) :=
      List.pairwise_of_forall_mem_list fun c hc _ _ he => absurd he (hall c hc)
    rw [and_iff_right hfirst]
    constructor
    · intro ⟨k, hk⟩ _
      by_contra hend
      have hnone := collect_endless hfo hend k iter fi fo [] hall
      exact nomatch hnone.symm.trans (hk k le_rfl)
    · intro h
      exact collect_ends hfo _ [] iter fi fo (List.prefix_refl _) hall (h hall)
  · rw [and_iff_left fun h => absurd h hall]
    obtain ⟨c, hmem, hc⟩ : ∃ c ∈ chunks callFi fi iter [], g c = [] := by simpa using hall
    -- up to the first chunk without an output
    have hsome : ((chunks callFi fi iter []).find? fun c => (g c).isEmpty).isSome :=
      List.find?_isSome.mpr ⟨c, hmem, by simp [hc]⟩
    obtain ⟨c0, hfind⟩ := Option.isSome_iff_exists.mp hsome
    obtain ⟨hc0, front, back, heq, hfront⟩ := List.find?_eq_some_iff_append.mp hfind
    have hc0 : g c0 = [] := by simpa using hc0
    have hfront : ∀ x ∈ front, g x ≠ [] := fun x hx => by simpa using hfront x hx
    have hrun : Ends (fun calls => collect callFi callFo calls ⟨iter, fi, fo, [], []⟩) (front.flatMap g) :=
      collect_ends hfo front c0 iter fi fo (by rw [heq]; simp) hfront hc0
    rw [heq, outputsFirst_split hfront hc0, List.flatMap_append, List.flatMap_cons, hc0, List.nil_append]
    constructor
    · intro h
      have hback : back.flatMap g = [] := List.append_cancel_left ((h.unique hrun).trans (List.append_nil _).symm)
      exact List.flatMap_eq_nil_iff.mp hback
    · intro h
      rw [List.flatMap_eq_nil_iff.mpr h, List.append_nil]
      exact hrun

end Collect

/-- Chunks of one number each. -/
def oneByOne (_ : Unit) (elem : Nat) : Unit × Bool × Nat := ((), false, elem)

/-- The numbers of a chunk that are not 0. -/
def nonZero (chunk : List Nat) : List Nat := chunk.filter (· ≠ 0)

def drainNonZero (_ : Unit) (buf bufOut : List Nat) : Unit × List Nat × List Nat := ((), [], bufOut ++ nonZero buf)

theorem collect_two :
    Ends (fun calls => collect oneByOne drainNonZero calls (doubleBufferedMap [1, 2, 0] () ())) [1, 2] :=
  (collect_iff (g := nonZero) (fun _ _ _ => rfl) [1, 2, 0] () ()).mpr
    ⟨by simp [OutputsFirst, chunks, oneByOne, nonZero], by simp [chunks, oneByOne, nonZero]⟩

/-- The output of a chunk after one without is lost. -/
theorem later_chunk_lost :
    ¬Ends (fun calls => collect oneByOne drainNonZero calls (doubleBufferedMap [0, 1] () ()))
      ((chunks oneByOne () [0, 1] []).flatMap nonZero) := by
  intro h
  have hempty : Ends (fun calls => collect oneByOne drainNonZero calls (doubleBufferedMap [0, 1] () ())) [] :=
    Ends.done fun _ => rfl
  exact absurd (h.unique hempty) (by decide)

end DoubleBufferedMapIterator

end Jiaa
