/-
  Jiaa.Mem.TranslationMap — the maps of an address range
  (memflow `mem/virt_mem/virtual_dma.rs`: `virt_translation_map_range`,
  `virt_page_map_range`).

  Both translate the range as one request whose buffer is its own address and length,
  sort the pieces that were translated by address and join neighbours. The adaptor that
  joins them is a crate's: `coalesce` is any function that does what it documents.

  - `virtTranslationMapRange_describes_iff`: the entries of the translation map describe
    their bytes exactly when no two contiguous pieces differ in their page type;
  - `virtPageMapRange_merges`: the page map joins what is at most `gap_length` apart, and
    its subtractions do not go below zero.
-/

import Jiaa.Lib.Coalesce
import Jiaa.Mem.VirtMem
import Mathlib.Data.List.Chain
import Mathlib.Data.List.Pairwise

namespace Jiaa

open Lib.Coalesce (Closure IsCoalesce Joins Groups Keeps)

/-- `out.sort_by(|(_, (a, _)), (_, (b, _))| a.cmp(b))`, which is stable. -/
def sortPieces (out : List (PhysicalAddress × Nat × Nat)) : List (PhysicalAddress × Nat × Nat) :=
  out.mergeSort fun a b => decide (a.2.1 ≤ b.2.1)

/-- The closure of `virt_translation_map_range`. -/
def joinPages : Closure (PhysicalAddress × Nat × Nat) := fun (ap, av) (bp, bv) =>
  if bv.1 = Address.add av.1 av.2 ∧ bp.address = Address.add ap.address av.2 then
    .ok (ap, (av.1, Address.sub (Address.add bv.1 bv.2) av.1))
  else .error ((ap, av), (bp, bv))

/-- The closure of `virt_page_map_range`. -/
def joinGaps (gapLength : Nat) : Closure (Nat × Nat) := fun a b =>
  if Address.sub b.1 (Address.add a.1 a.2) ≤ gapLength then .ok (a.1, Address.sub (Address.add b.1 b.2) a.1)
  else .error (a, b)

namespace VirtualDMA

variable {M V D : Type} [PhysicalMemory M] [VirtualTranslate V] [ScopedVirtualTranslate D]

/-- The pieces of `[start, stop)`: a buffer of a request is an address and a length. -/
def translateRange (self : VirtualDMA M V D) (start stop : Nat) : Option (V × M × Outputs (Nat × Nat)) :=
  VirtualTranslate.virtToPhysIter self.vat self.physMem self.translator [(start, (start, Address.sub stop start))]

def virtTranslationMapRange
    (coalesce : Closure (PhysicalAddress × Nat × Nat) → List (PhysicalAddress × Nat × Nat) → List (PhysicalAddress × Nat × Nat))
    (self : VirtualDMA M V D) (start stop : Nat) : Option (VirtualDMA M V D × List (Nat × Nat × PhysicalAddress)) :=
  (self.translateRange start stop).map fun (vat, mem, o) =>
    ({ self with vat := vat, physMem := mem },
      (coalesce joinPages (sortPieces o.out)).map fun (p, (v, s)) => (v, s, p))

def virtPageMapRange (coalesce : Closure (Nat × Nat) → List (Nat × Nat) → List (Nat × Nat))
    (self : VirtualDMA M V D) (gapLength start stop : Nat) : Option (VirtualDMA M V D × List (Nat × Nat)) :=
  (self.translateRange start stop).map fun (vat, mem, o) =>
    ({ self with vat := vat, physMem := mem }, coalesce (joinGaps gapLength) ((sortPieces o.out).map (·.2)))

end VirtualDMA

/-! ## Disjoint pieces -/

/-- The byte `v` is one of the piece's. -/
def InRange (x : Nat × Nat) (v : Nat) : Prop := x.1 ≤ v ∧ v < x.1 + x.2

/-- Ranges that share no byte, and start apart. -/
def Apart (a b : PhysicalAddress × Nat × Nat) : Prop :=
  a.2.1 ≠ b.2.1 ∧ (a.2.1 + a.2.2 ≤ b.2.1 ∨ b.2.1 + b.2.2 ≤ a.2.1)

instance : Std.Symm Apart := ⟨fun _ _ h => ⟨h.1.symm, h.2.symm⟩⟩

/-- Disjoint pieces of `[start, stop)`. Of a range that is not empty no piece is. -/
structure Pieces (start stop : Nat) (l : List (PhysicalAddress × Nat × Nat)) : Prop where
  ordered : start ≤ stop
  fits : stop < 2 ^ 64
  within : ∀ x ∈ l, start ≤ x.2.1 ∧ x.2.1 + x.2.2 ≤ stop
  nonempty : start < stop → ∀ x ∈ l, 0 < x.2.2
  disjoint : l.Pairwise Apart

/-- Ranges one after the other. -/
def Before (a b : Nat × Nat) : Prop := a.1 < b.1 ∧ a.1 + a.2 ≤ b.1

theorem mem_sortPieces {l : List (PhysicalAddress × Nat × Nat)} {x : PhysicalAddress × Nat × Nat} :
    x ∈ sortPieces l ↔ x ∈ l := (List.mergeSort_perm l _).mem_iff

theorem Pieces.sorted {start stop : Nat} {l : List (PhysicalAddress × Nat × Nat)} (h : Pieces start stop l) :
    (sortPieces l).Pairwise fun a b => Before a.2 b.2 := by
  have hle : (sortPieces l).Pairwise fun a b => a.2.1 ≤ b.2.1 := by
    have : (sortPieces l).Pairwise fun a b => decide (a.2.1 ≤ b.2.1) = true := List.pairwise_mergeSort
      (by intro a b c h1 h2; simp only [decide_eq_true_eq] at *; omega)
      (by intro a b; simp only [Bool.or_eq_true, decide_eq_true_eq]; omega) l
    exact this.imp fun h => of_decide_eq_true h
  have hne : (sortPieces l).Pairwise Apart :=
    (List.Perm.pairwise_iff (fun {a b} h => Std.Symm.symm a b h) (List.mergeSort_perm l _)).mpr h.disjoint
  refine (hle.and hne).imp ?_
  intro a b ⟨h1, h2, h3⟩
  unfold Before
  omega

/-- Two pieces with the same start are the same one. -/
theorem Pieces.eq_of_start {start stop : Nat} {l : List (PhysicalAddress × Nat × Nat)} (h : Pieces start stop l)
    {a b : PhysicalAddress × Nat × Nat} (ha : a ∈ l) (hb : b ∈ l) (he : a.2.1 = b.2.1) : a = b := by
  by_contra hne
  exact (h.disjoint.forall ha hb hne).1 he

/-- A byte is in one piece. -/
theorem Pieces.eq_of_byte {start stop : Nat} {l : List (PhysicalAddress × Nat × Nat)} (h : Pieces start stop l)
    {a b : PhysicalAddress × Nat × Nat} (ha : a ∈ l) (hb : b ∈ l) {v : Nat} (hva : InRange a.2 v) (hvb : InRange b.2 v) :
    a = b := by
  by_contra hne
  have := (h.disjoint.forall ha hb hne).2
  unfold InRange at *
  omega

/-! ## Joined ranges -/

/-- What a closure that joins ranges makes of `g`: from the start of the first to the end of
    the last, with holes of at most `gap` bytes between them. -/
structure Spans (gap : Nat) (g : List (Nat × Nat)) (e : Nat × Nat) : Prop where
  first : ∃ x ∈ g, x.1 = e.1
  last : ∃ x ∈ g, x.1 + x.2 = e.1 + e.2
  contains : ∀ x ∈ g, e.1 ≤ x.1 ∧ x.1 + x.2 ≤ e.1 + e.2
  holes : (∀ x ∈ g, 0 < x.2) → ∀ h n, e.1 ≤ h → h + n ≤ e.1 + e.2 →
    (∀ v, h ≤ v → v < h + n → ∀ x ∈ g, ¬ InRange x v) → n ≤ gap

theorem Spans.single (gap : Nat) (x : Nat × Nat) : Spans gap [x] x := by
  refine ⟨⟨x, by simp, rfl⟩, ⟨x, by simp, rfl⟩, by simp, fun _ h n h1 h2 hv => ?_⟩
  by_contra hn
  exact hv h (Nat.le_refl h) (by omega) x (by simp) ⟨h1, by omega⟩

/-- The next range joins a span whose end is at most `gap` before it. -/
theorem Spans.snoc {gap : Nat} {g : List (Nat × Nat)} {e y : Nat × Nat} (h : Spans gap g e)
    (hy : ∀ x ∈ g, Before x y) (hgap : y.1 ≤ e.1 + e.2 + gap) : Spans gap (g ++ [y]) (e.1, y.1 + y.2 - e.1) := by
  obtain ⟨x, hx, hx1⟩ := h.first
  obtain ⟨z, hz, hz1⟩ := h.last
  have hxy := hy x hx
  have hzy := hy z hz
  unfold Before at hxy hzy
  have hend : e.1 + (y.1 + y.2 - e.1) = y.1 + y.2 := by omega
  refine ⟨⟨x, List.mem_append_left _ hx, hx1⟩, ⟨y, by simp, hend.symm⟩, ?_, ?_⟩
  · intro w hw
    rw [hend]
    rcases List.mem_append.mp hw with hw | hw
    · have h1 := h.contains w hw
      have h2 := hy w hw
      unfold Before at h2
      exact ⟨h1.1, by omega⟩
    · rw [List.mem_singleton.mp hw]
      exact ⟨by omega, Nat.le_refl _⟩
  · intro hpos hh n h1 h2 hv
    rw [hend] at h2
    have hzpos := hpos z (List.mem_append_left _ hz)
    have hypos := hpos y (by simp)
    by_cases hin : hh + n ≤ e.1 + e.2
    · exact h.holes (fun w hw => hpos w (List.mem_append_left _ hw)) hh n h1 hin
        fun v hv1 hv2 w hw => hv v hv1 hv2 w (List.mem_append_left _ hw)
    · by_contra hn
      -- a longer hole reaches into the last range of the span, or into the next one
      by_cases hbefore : hh < e.1 + e.2
      · exact hv (e.1 + e.2 - 1) (by omega) (by omega) z (List.mem_append_left _ hz) ⟨by omega, by omega⟩
      · exact hv (max hh y.1) (by omega) (by omega) y (by simp) ⟨by omega, by omega⟩

/-- The last range of a group ends where the group does. -/
theorem Spans.getLast {gap : Nat} {g : List (Nat × Nat)} {a e : Nat × Nat} (h : Spans gap (g ++ [a]) e)
    (hg : (g ++ [a]).Pairwise Before) : a.1 + a.2 = e.1 + e.2 := by
  obtain ⟨z, hz, hz1⟩ := h.last
  have ha := h.contains a (by simp)
  rcases List.mem_append.mp hz with hz | hz
  · have := (List.pairwise_append.mp hg).2.2 z hz a (by simp)
    unfold Before at this
    omega
  · rw [← List.mem_singleton.mp hz]
    exact hz1

/-! ## The page map -/

/-- Ranges that merge the pieces of `l` at holes of at most `gap` bytes. -/
structure MergesGaps (gap : Nat) (l : List (PhysicalAddress × Nat × Nat)) (m : List (Nat × Nat)) : Prop where
  sorted : m.Pairwise Before
  starts : ∀ e ∈ m, ∃ x ∈ l, e.1 = x.2.1
  ends : ∀ e ∈ m, ∃ x ∈ l, e.1 + e.2 = x.2.1 + x.2.2
  contains : ∀ x ∈ l, ∃ e ∈ m, e.1 ≤ x.2.1 ∧ x.2.1 + x.2.2 ≤ e.1 + e.2
  holes : ∀ e ∈ m, ∀ h n, e.1 ≤ h → h + n ≤ e.1 + e.2 → (∀ v, h ≤ v → v < h + n → ∀ x ∈ l, ¬ InRange x.2 v) → n ≤ gap
  apart : m.IsChain fun a b => a.1 + a.2 + gap < b.1

/-- The sums of the closure fit, and its differences are not negative. -/
def ClosureFits (a b : Nat × Nat) : Prop :=
  a.1 + a.2 < 2 ^ 64 ∧ a.1 + a.2 ≤ b.1 ∧ b.1 + b.2 < 2 ^ 64 ∧ a.1 ≤ b.1 + b.2

theorem joinGaps_keeps (gap : Nat) : Keeps (joinGaps gap) := by
  intro a b p h
  unfold joinGaps at h
  split at h
  · cases h
  · exact (Except.error.inj h).symm

/-- The closure on ranges that fit. -/
theorem joinGaps_eq {gap : Nat} {a b : Nat × Nat} (h : ClosureFits a b) :
    joinGaps gap a b = if b.1 ≤ a.1 + a.2 + gap then .ok (a.1, b.1 + b.2 - a.1) else .error (a, b) := by
  obtain ⟨h1, h2, h3, h4⟩ := h
  unfold joinGaps
  rw [Address.add_eq h1, Address.add_eq h3, Address.sub_eq h2 (by omega), Address.sub_eq h4 h3]
  by_cases hg : b.1 ≤ a.1 + a.2 + gap
  · rw [if_pos hg, if_pos (by omega)]
  · rw [if_neg hg, if_neg (by omega)]

/-- Sorted ranges below the top of the address space. -/
structure SortedRanges (l : List (Nat × Nat)) : Prop where
  sorted : l.Pairwise Before
  fits : ∀ x ∈ l, x.1 + x.2 < 2 ^ 64

theorem SortedRanges.sublist {l k : List (Nat × Nat)} (h : SortedRanges l) (hs : k.Sublist l) : SortedRanges k :=
  ⟨h.sorted.sublist hs, fun x hx => h.fits x (hs.subset hx)⟩

theorem Pieces.sortedRanges {start stop : Nat} {l : List (PhysicalAddress × Nat × Nat)} (h : Pieces start stop l) :
    SortedRanges ((sortPieces l).map (·.2)) := by
  refine ⟨List.pairwise_map.mpr h.sorted, fun x hx => ?_⟩
  obtain ⟨y, hy, rfl⟩ := List.mem_map.mp hx
  have h1 := h.within y (mem_sortPieces.mp hy)
  have h2 := h.fits
  omega

theorem SortedRanges.before {g : List (Nat × Nat)} {y : Nat × Nat} (h : SortedRanges (g ++ [y])) : ∀ x ∈ g, Before x y :=
  fun x hx => (List.pairwise_append.mp h.sorted).2.2 x hx y (by simp)

theorem Spans.fits {gap : Nat} {g : List (Nat × Nat)} {e y : Nat × Nat} (h : Spans gap g e) (hs : SortedRanges (g ++ [y])) :
    ClosureFits e y := by
  obtain ⟨x, hx, hx1⟩ := h.first
  obtain ⟨z, hz, hz1⟩ := h.last
  have h1 := hs.before x hx
  have h2 := hs.before z hz
  have h3 := hs.fits z (List.mem_append_left _ hz)
  have h4 := hs.fits y (by simp)
  unfold Before at h1 h2
  exact ⟨by omega, by omega, h4, by omega⟩

/-- Spans of ranges in order are in order. -/
theorem Spans.before {gap gap' : Nat} {g g' : List (Nat × Nat)} {e e' : Nat × Nat} (h : Spans gap g e)
    (h' : Spans gap' g' e') (hs : SortedRanges (g ++ g')) : Before e e' := by
  obtain ⟨x, hx, hx1⟩ := h.first
  obtain ⟨z, hz, hz1⟩ := h.last
  obtain ⟨y, hy, hy1⟩ := h'.first
  have hxy := (List.pairwise_append.mp hs.sorted).2.2 x hx y hy
  have hzy := (List.pairwise_append.mp hs.sorted).2.2 z hz y hy
  unfold Before at *
  omega

/-- Every group is spanned by its join. -/
theorem spans_of_joins {gap : Nat} {g : List (Nat × Nat)} {e : Nat × Nat} (h : Joins (joinGaps gap) g e)
    (hs : SortedRanges g) : Spans gap g e := by
  induction h with
  | single x => exact Spans.single gap x
  | @snoc g e y z hg hz ih =>
    have hspan := ih (hs.sublist (List.sublist_append_left _ _))
    rw [joinGaps_eq (hspan.fits hs)] at hz
    split at hz
    · rename_i hgap
      rw [← Except.ok.inj hz]
      exact hspan.snoc hs.before hgap
    · cases hz

theorem mergesGaps_coalesce (gap : Nat) {start stop : Nat} {l : List (PhysicalAddress × Nat × Nat)} (h : Pieces start stop l) :
    MergesGaps gap l (Lib.Coalesce.coalesce (joinGaps gap) ((sortPieces l).map (·.2))) ∧
      ∀ c ∈ Lib.Coalesce.calls (joinGaps gap) ((sortPieces l).map (·.2)), ClosureFits c.1 c.2 := by
  have hs := h.sortedRanges
  have hmem : ∀ x ∈ (sortPieces l).map (·.2), ∃ y ∈ l, y.2 = x := by
    intro x hx
    obtain ⟨y, hy, rfl⟩ := List.mem_map.mp hx
    exact ⟨y, mem_sortPieces.mp hy, rfl⟩
  have hg := Lib.Coalesce.groups_coalesce (joinGaps_keeps gap) ((sortPieces l).map (·.2))
  refine ⟨⟨?_, ?_, ?_, ?_, ?_, ?_⟩, ?_⟩
  · refine hg.pairwise fun {g g' e e'} h1 h2 hsub => ?_
    have hss := hs.sublist hsub
    have hspan := spans_of_joins h1 (hss.sublist (List.sublist_append_left _ _))
    have hspan' := spans_of_joins h2 (hss.sublist (List.sublist_append_right _ _))
    exact hspan.before hspan' hss
  · intro e he
    obtain ⟨g, h1, hsub⟩ := hg.of_mem e he
    obtain ⟨x, hx, hx1⟩ := (spans_of_joins h1 (hs.sublist hsub)).first
    obtain ⟨y, hy, rfl⟩ := hmem x (hsub.subset hx)
    exact ⟨y, hy, hx1.symm⟩
  · intro e he
    obtain ⟨g, h1, hsub⟩ := hg.of_mem e he
    obtain ⟨x, hx, hx1⟩ := (spans_of_joins h1 (hs.sublist hsub)).last
    obtain ⟨y, hy, rfl⟩ := hmem x (hsub.subset hx)
    exact ⟨y, hy, hx1.symm⟩
  · intro x hx
    obtain ⟨e, he, g, h1, hxg, hsub⟩ := hg.of_item x.2 (List.mem_map_of_mem (mem_sortPieces.mpr hx))
    exact ⟨e, he, (spans_of_joins h1 (hs.sublist hsub)).contains x.2 hxg⟩
  · intro e he hh n h1 h2 hv
    obtain ⟨g, hj, hsub⟩ := hg.of_mem e he
    have hspan := spans_of_joins hj (hs.sublist hsub)
    by_cases hlt : start < stop
    · refine hspan.holes (fun x hx => ?_) hh n h1 h2 fun v hv1 hv2 x hx => ?_
      · obtain ⟨y, hy, rfl⟩ := hmem x (hsub.subset hx)
        exact h.nonempty hlt y hy
      · obtain ⟨y, hy, rfl⟩ := hmem x (hsub.subset hx)
        exact hv v hv1 hv2 y hy
    · -- the range is empty
      obtain ⟨x, hx, hx1⟩ := hspan.first
      obtain ⟨z, hz, hz1⟩ := hspan.last
      obtain ⟨y, hy, rfl⟩ := hmem x (hsub.subset hx)
      obtain ⟨w, hw, rfl⟩ := hmem z (hsub.subset hz)
      have h3 := h.within y hy
      have h4 := h.within w hw
      omega
  · refine hg.chain fun {g e y g' e'} hj hj' hsub href => ?_
    have hss := hs.sublist hsub
    have hsplit : (g ++ [y]).Sublist (g ++ y :: g') := (List.Sublist.refl g).append (by simp)
    have hspan := spans_of_joins hj (hss.sublist (List.sublist_append_left _ _))
    have hspan' := spans_of_joins hj' (hss.sublist (List.sublist_append_right _ _))
    rw [joinGaps_eq (hspan.fits (hss.sublist hsplit))] at href
    split at href
    · cases href
    · rename_i hgap
      -- the join of the next group starts where its first range does
      obtain ⟨x, hx, hx1⟩ := hspan'.first
      have hle : y.1 ≤ x.1 := by
        rcases List.mem_cons.mp hx with rfl | hx
        · exact Nat.le_refl _
        · have := (List.pairwise_cons.mp (List.pairwise_append.mp hss.sorted).2.1).1 x hx
          unfold Before at this
          omega
      omega
  · intro c hc
    obtain ⟨g, hj, hsub⟩ := Lib.Coalesce.of_mem_calls (joinGaps_keeps gap) hc
    have hss := hs.sublist hsub
    exact (spans_of_joins hj (hss.sublist (List.sublist_append_left _ _))).fits hss

namespace VirtualDMA

variable {M V D : Type} [PhysicalMemory M] [VirtualTranslate V] [ScopedVirtualTranslate D]

/-- The page map of a range, whatever pieces of it were translated and in whatever order. -/
theorem virtPageMapRange_merges {coalesce : Closure (Nat × Nat) → List (Nat × Nat) → List (Nat × Nat)}
    (hc : IsCoalesce coalesce) (self : VirtualDMA M V D) (gapLength : Nat) {start stop : Nat} {vat : V} {mem : M}
    {o : Outputs (Nat × Nat)} (ht : self.translateRange start stop = some (vat, mem, o)) (hp : Pieces start stop o.out) :
    ∃ m, self.virtPageMapRange coalesce gapLength start stop = some ({ self with vat := vat, physMem := mem }, m) ∧
      MergesGaps gapLength o.out m ∧ start ≤ stop ∧
      ∀ c ∈ Lib.Coalesce.calls (joinGaps gapLength) ((sortPieces o.out).map (·.2)), ClosureFits c.1 c.2 := by
  obtain ⟨h1, h2⟩ := mergesGaps_coalesce gapLength hp
  refine ⟨coalesce (joinGaps gapLength) ((sortPieces o.out).map (·.2)), ?_, ?_, hp.ordered, h2⟩
  · simp only [virtPageMapRange, ht, Option.map_some]
  · rw [hc.eq]
    exact h1

/-- Pages at 0, 0x1000 and 0x3000 that may be written, contiguous in physical memory. -/
def threePages : VirtualDMA FlatMemory DirectTranslate X86ScopedVirtualTranslate :=
  ⟨.ofWords [(0x1000, 0x2003), (0x2000, 0x3003), (0x3000, 0x4003), (0x4000, 0x10003), (0x4008, 0x11003), (0x4018, 0x13003)],
    {}, x64Arch, ⟨x64Arch, 0x1000⟩⟩

/-- Their pieces, in the order they are delivered. -/
def threePieces : List (PhysicalAddress × Nat × Nat) :=
  [(⟨0x10000, PageType.writeable, 11⟩, 0, 0x1000), (⟨0x13000, PageType.writeable, 11⟩, 0x3000, 0x1000),
    (⟨0x11000, PageType.writeable, 11⟩, 0x1000, 0x1000)]

theorem translate_threePages : (threePages.translateRange 0 0x5000).map (fun t => t.2.2.out) = some threePieces := by
  decide +kernel

theorem pieces_threePages : Pieces 0 0x5000 threePieces :=
  ⟨by decide, by decide, by decide, fun _ => by decide, by unfold Apart; decide⟩

theorem virtPageMapRange_threePages :
    ∃ m, (threePages.virtPageMapRange Lib.Coalesce.coalesce 0x1000 0 0x5000).map (·.2) = some m ∧
      MergesGaps 0x1000 threePieces m := by
  obtain ⟨⟨vat, mem, o⟩, ht, ho⟩ := Option.map_eq_some_iff.mp translate_threePages
  simp only at ho
  obtain ⟨m, hm, hg, -⟩ := virtPageMapRange_merges Lib.Coalesce.isCoalesce_coalesce threePages 0x1000 ht
    (by rw [ho]; exact pieces_threePages)
  exact ⟨m, by rw [hm]; rfl, by rwa [ho] at hg⟩

end VirtualDMA

/-! ## The translation map -/

/-- `b` follows `a` in virtual and in physical memory. -/
def Contiguous (a b : PhysicalAddress × Nat × Nat) : Prop :=
  b.2.1 = a.2.1 + a.2.2 ∧ b.1.address = Address.add a.1.address a.2.2

/-- Contiguous pieces have the same page type. -/
def TypesAgree (l : List (PhysicalAddress × Nat × Nat)) : Prop :=
  ∀ a ∈ l, ∀ b ∈ l, Contiguous a b → b.1.pageType = a.1.pageType

/-- The entry `(p, (v, s))` describes the bytes of the pieces `l`. -/
def DescribesBytes (l : List (PhysicalAddress × Nat × Nat)) (e : PhysicalAddress × Nat × Nat) : Prop :=
  ∀ i < e.2.2, ∃ x ∈ l, InRange x.2 (e.2.1 + i) ∧
    Address.add e.1.address i = Address.add x.1.address (e.2.1 + i - x.2.1) ∧ x.1.pageType = e.1.pageType

/-- The map `m` describes the pieces `l`. -/
structure Describes (l : List (PhysicalAddress × Nat × Nat)) (m : List (Nat × Nat × PhysicalAddress)) : Prop where
  sorted : m.Pairwise fun a b => a.1 < b.1
  disjoint : m.Pairwise fun a b => a.1 + a.2.1 ≤ b.1
  covers : ∀ v, (∃ e ∈ m, InRange (e.1, e.2.1) v) ↔ ∃ x ∈ l, InRange x.2 v
  maximal : m.IsChain fun a b =>
    ¬ (Contiguous (a.2.2, a.1, a.2.1) (b.2.2, b.1, b.2.1) ∧ b.2.2.pageType = a.2.2.pageType)
  bytes : ∀ e ∈ m, DescribesBytes l (e.2.2, e.1, e.2.1)

theorem joinPages_keeps : Keeps joinPages := by
  intro ⟨ap, av⟩ ⟨bp, bv⟩ p h
  simp only [joinPages] at h
  split at h
  · cases h
  · exact (Except.error.inj h).symm

/-- The closure on ranges that fit. -/
theorem joinPages_eq {a b : PhysicalAddress × Nat × Nat} (h : ClosureFits a.2 b.2) :
    joinPages a b = if b.2.1 = a.2.1 + a.2.2 ∧ b.1.address = Address.add a.1.address a.2.2 then
      .ok (a.1, a.2.1, b.2.1 + b.2.2 - a.2.1) else .error (a, b) := by
  obtain ⟨h1, h2, h3, h4⟩ := h
  obtain ⟨ap, av⟩ := a
  obtain ⟨bp, bv⟩ := b
  simp only [joinPages]
  rw [Address.add_eq h1, Address.add_eq h3, Address.sub_eq h4 h3]

/-- What the closure makes of a group: no byte between two of its ranges is missing, and
    the physical address goes along. -/
structure Maps (g : List (PhysicalAddress × Nat × Nat)) (e : PhysicalAddress × Nat × Nat) : Prop where
  spans : Spans 0 (g.map (·.2)) e.2
  covers : ∀ v, InRange e.2 v → ∃ x ∈ g, InRange x.2 v
  phys : ∀ x ∈ g, (e.1.address + (x.2.1 - e.2.1)) % 2 ^ 64 = x.1.address % 2 ^ 64
  head : ∃ x ∈ g, x.2.1 = e.2.1 ∧ x.1 = e.1

theorem Maps.single (x : PhysicalAddress × Nat × Nat) : Maps [x] x :=
  ⟨Spans.single 0 x.2, fun v hv => ⟨x, by simp, hv⟩, by simp, ⟨x, by simp, rfl, rfl⟩⟩

theorem Maps.snoc {g : List (PhysicalAddress × Nat × Nat)} {e y : PhysicalAddress × Nat × Nat} (h : Maps g e)
    (hs : SortedRanges ((g ++ [y]).map (·.2))) (hc : Contiguous e y) :
    Maps (g ++ [y]) (e.1, e.2.1, y.2.1 + y.2.2 - e.2.1) := by
  obtain ⟨hv, hp⟩ := hc
  rw [List.map_append] at hs
  have hspan : Spans 0 (g.map (·.2) ++ [y.2]) (e.2.1, y.2.1 + y.2.2 - e.2.1) := h.spans.snoc hs.before (by omega)
  refine ⟨by rw [List.map_append]; exact hspan, ?_, ?_, ?_⟩
  · intro v hvr
    by_cases hin : v < e.2.1 + e.2.2
    · obtain ⟨x, hx, hxv⟩ := h.covers v ⟨hvr.1, hin⟩
      exact ⟨x, List.mem_append_left _ hx, hxv⟩
    · refine ⟨y, by simp, ?_⟩
      unfold InRange at *
      simp only at hvr
      omega
  · intro x hx
    rcases List.mem_append.mp hx with hx | hx
    · exact h.phys x hx
    · rw [List.mem_singleton.mp hx]
      simp only [hp, hv, Nat.add_sub_cancel_left, Address.add, Nat.mod_mod]
  · obtain ⟨x, hx, hx1⟩ := h.head
    exact ⟨x, List.mem_append_left _ hx, hx1⟩

/-- The closure joins what is contiguous, and nothing else. -/
theorem Maps.join {g : List (PhysicalAddress × Nat × Nat)} {e y z : PhysicalAddress × Nat × Nat} (h : Maps g e)
    (hs : SortedRanges ((g ++ [y]).map (·.2))) (hz : joinPages e y = .ok z) :
    Contiguous e y ∧ z = (e.1, e.2.1, y.2.1 + y.2.2 - e.2.1) := by
  rw [joinPages_eq (h.spans.fits (by simpa using hs))] at hz
  split at hz
  · next hc => exact ⟨hc, (Except.ok.inj hz).symm⟩
  · cases hz

/-- Every group is mapped by its join. -/
theorem maps_of_joins {g : List (PhysicalAddress × Nat × Nat)} {e : PhysicalAddress × Nat × Nat} (h : Joins joinPages g e)
    (hs : SortedRanges (g.map (·.2))) : Maps g e := by
  induction h with
  | single x => exact Maps.single x
  | @snoc g e y z hg hz ih =>
    have hsub : (g.map (·.2)).Sublist ((g ++ [y]).map (·.2)) := (List.sublist_append_left g [y]).map _
    have hmaps := ih (hs.sublist hsub)
    obtain ⟨hc, rfl⟩ := hmaps.join hs hz
    exact hmaps.snoc hs hc

/-- The last piece of a group is followed by what the group is followed by. -/
theorem Maps.contiguous_last {g : List (PhysicalAddress × Nat × Nat)} {a b e : PhysicalAddress × Nat × Nat}
    (h : Maps (g ++ [a]) e) (hs : SortedRanges ((g ++ [a]).map (·.2))) : Contiguous e b ↔ Contiguous a b := by
  have hend : a.2.1 + a.2.2 = e.2.1 + e.2.2 :=
    Spans.getLast (g := g.map (·.2)) (by simpa using h.spans) (by simpa using hs.sorted)
  have hle := (h.spans.contains a.2 (List.mem_map_of_mem (by simp))).1
  have hp := h.phys a (by simp)
  have hsum : (e.1.address + e.2.2) % 2 ^ 64 = (a.1.address + a.2.2) % 2 ^ 64 := by
    rw [show e.1.address + e.2.2 = e.1.address + (a.2.1 - e.2.1) + a.2.2 by omega, Nat.add_mod, hp, ← Nat.add_mod]
  unfold Contiguous Address.add
  rw [hend, hsum]

/-- Where contiguous pieces agree, the pieces of a group have the type of its join. -/
theorem types_of_joins {l g : List (PhysicalAddress × Nat × Nat)} {e : PhysicalAddress × Nat × Nat} (ht : TypesAgree l)
    (h : Joins joinPages g e) (hs : SortedRanges (g.map (·.2))) (hl : ∀ x ∈ g, x ∈ l) :
    ∀ x ∈ g, x.1.pageType = e.1.pageType := by
  induction h with
  | single x => simp
  | @snoc g e y z hg hz ih =>
    have hsub : (g.map (·.2)).Sublist ((g ++ [y]).map (·.2)) := (List.sublist_append_left g [y]).map _
    have hmaps := maps_of_joins hg (hs.sublist hsub)
    have ih := ih (hs.sublist hsub) fun x hx => hl x (List.mem_append_left _ hx)
    obtain ⟨hc, rfl⟩ := hmaps.join hs hz
    intro x hx
    rcases List.mem_append.mp hx with hx | hx
    · exact ih x hx
    · rw [List.mem_singleton.mp hx]
      -- `y` follows the last piece of the group
      obtain ⟨k, a, rfl⟩ : ∃ k a, g = k ++ [a] := ⟨_, _, (List.dropLast_append_getLast hg.ne_nil).symm⟩
      rw [ht a (hl a (by simp)) y (hl y (by simp)) ((hmaps.contiguous_last (hs.sublist hsub)).mp hc)]
      exact ih a (by simp)

/-- The bytes of an entry: where its pieces have its type they are described. -/
theorem Maps.describes {l g : List (PhysicalAddress × Nat × Nat)} {e : PhysicalAddress × Nat × Nat} (h : Maps g e)
    (hl : ∀ x ∈ g, x ∈ l) (ht : ∀ x ∈ g, x.1.pageType = e.1.pageType) : DescribesBytes l e := by
  intro i hi
  obtain ⟨x, hx, hxv⟩ := h.covers (e.2.1 + i) ⟨by omega, by omega⟩
  refine ⟨x, hl x hx, hxv, ?_, ht x hx⟩
  have hle := (h.spans.contains x.2 (List.mem_map_of_mem hx)).1
  have hp := h.phys x hx
  unfold InRange at hxv
  unfold Address.add
  rw [show e.1.address + i = e.1.address + (x.2.1 - e.2.1) + (e.2.1 + i - x.2.1) by omega, Nat.add_mod, hp, ← Nat.add_mod]

/-- A group's join starts where its first piece does. -/
theorem Maps.head_eq {g : List (PhysicalAddress × Nat × Nat)} {y e : PhysicalAddress × Nat × Nat} (h : Maps (y :: g) e)
    (hs : SortedRanges ((y :: g).map (·.2))) : y.2.1 = e.2.1 ∧ y.1 = e.1 := by
  obtain ⟨x, hx, hx1, hx2⟩ := h.head
  rcases List.mem_cons.mp hx with rfl | hx
  · exact ⟨hx1, hx2⟩
  · have h1 : Before y.2 x.2 := (List.pairwise_cons.mp hs.sorted).1 x.2 (List.mem_map_of_mem hx)
    have h2 := (h.spans.contains y.2 (List.mem_map_of_mem (List.mem_cons_self ..))).1
    unfold Before at h1
    omega

theorem groups_sortPieces (l : List (PhysicalAddress × Nat × Nat)) :
    Groups joinPages (sortPieces l) (Lib.Coalesce.coalesce joinPages (sortPieces l)) :=
  Lib.Coalesce.groups_coalesce joinPages_keeps _

section Sorted

variable {start stop : Nat} {l : List (PhysicalAddress × Nat × Nat)} (h : Pieces start stop l)
include h

/-- Contiguous pieces are neighbours of the sorted list. -/
theorem Pieces.neighbours {a b : PhysicalAddress × Nat × Nat} (ha : a ∈ l) (hb : b ∈ l) (hne : a ≠ b)
    (hab : b.2.1 = a.2.1 + a.2.2) : ∃ pre post, sortPieces l = pre ++ a :: b :: post := by
  have hs := h.sorted
  have hb' := mem_sortPieces.mpr hb
  obtain ⟨pre, rest, hl⟩ := List.append_of_mem (mem_sortPieces.mpr ha)
  rw [hl] at hs hb'
  obtain ⟨-, h2, h3⟩ := List.pairwise_append.mp hs
  have h2 := List.pairwise_cons.mp h2
  unfold Before at h2 h3
  rcases List.mem_append.mp hb' with hb' | hb'
  · have := (h3 b hb' a (by simp)).1
    omega
  · rcases List.mem_cons.mp hb' with hb' | hb'
    · exact absurd hb'.symm hne
    · cases rest with
      | nil => cases hb'
      | cons c post =>
        rcases List.mem_cons.mp hb' with rfl | hb'
        · exact ⟨pre, post, hl⟩
        · have h4 := (h2.1 c (by simp)).2
          have h5 := ((List.pairwise_cons.mp h2.2).1 b hb').1
          omega


theorem Pieces.maps {g : List (PhysicalAddress × Nat × Nat)} {e : PhysicalAddress × Nat × Nat}
    (hg : Joins joinPages g e) (hsub : g.Sublist (sortPieces l)) : Maps g e :=
  maps_of_joins hg (h.sortedRanges.sublist (hsub.map _))

/-- The joins are in order. -/
theorem Pieces.joins_sorted : (Lib.Coalesce.coalesce joinPages (sortPieces l)).Pairwise fun a b => Before a.2 b.2 := by
  refine (groups_sortPieces l).pairwise fun {g g' e e'} h1 h2 hsub => ?_
  have hm := h.maps h1 ((List.sublist_append_left g g').trans hsub)
  have hm' := h.maps h2 ((List.sublist_append_right g g').trans hsub)
  have hss := h.sortedRanges.sublist (hsub.map _)
  rw [List.map_append] at hss
  exact hm.spans.before hm'.spans hss

theorem Pieces.joins_covers (v : Nat) :
    (∃ e ∈ Lib.Coalesce.coalesce joinPages (sortPieces l), InRange e.2 v) ↔ ∃ x ∈ l, InRange x.2 v := by
  constructor
  · intro ⟨e, he, hv⟩
    obtain ⟨g, hg, hsub⟩ := (groups_sortPieces l).of_mem e he
    obtain ⟨x, hx, hxv⟩ := (h.maps hg hsub).covers v hv
    exact ⟨x, mem_sortPieces.mp (hsub.subset hx), hxv⟩
  · intro ⟨x, hx, hv⟩
    obtain ⟨e, he, g, hg, hxg, hsub⟩ := (groups_sortPieces l).of_item x (mem_sortPieces.mpr hx)
    have hin := (h.maps hg hsub).spans.contains x.2 (List.mem_map_of_mem hxg)
    unfold InRange at *
    exact ⟨e, he, by omega, by omega⟩

/-- Neighbours among the joins are not contiguous. -/
theorem Pieces.joins_maximal : (Lib.Coalesce.coalesce joinPages (sortPieces l)).IsChain fun a b => ¬ Contiguous a b := by
  refine (groups_sortPieces l).chain fun {g e y g' e'} hg hg' hsub href => ?_
  have hsy : (g ++ [y]).Sublist (g ++ y :: g') := (List.Sublist.refl g).append (by simp)
  have hm := h.maps hg ((List.sublist_append_left g _).trans hsub)
  have hm' := h.maps hg' ((List.sublist_append_right g _).trans hsub)
  obtain ⟨h1, h2⟩ := hm'.head_eq (h.sortedRanges.sublist (((List.sublist_append_right g _).trans hsub).map _))
  have hss := h.sortedRanges.sublist ((hsy.trans hsub).map _)
  rw [joinPages_eq (hm.spans.fits (by simpa using hss))] at href
  split at href
  · cases href
  · rename_i hc
    unfold Contiguous
    rw [← h1, ← h2]
    exact hc

/-- Contiguous pieces are joined. -/
theorem Pieces.joined {a b : PhysicalAddress × Nat × Nat} (ha : a ∈ l) (hb : b ∈ l) (hne : a ≠ b) (hc : Contiguous a b) :
    ∃ e ∈ Lib.Coalesce.coalesce joinPages (sortPieces l), ∃ g, Joins joinPages g e ∧ a ∈ g ∧ b ∈ g ∧
      g.Sublist (sortPieces l) := by
  obtain ⟨pre, post, hl⟩ := h.neighbours ha hb hne hc.1
  refine (groups_sortPieces l).together hl fun g e hg hsub => ?_
  have hm := h.maps hg hsub
  have hce := (hm.contiguous_last (h.sortedRanges.sublist (hsub.map _))).mpr hc
  have hab : Before a.2 b.2 := by
    have := h.sorted
    rw [hl] at this
    exact (List.pairwise_cons.mp (List.pairwise_append.mp this).2.1).1 b (by simp)
  have hend := (hm.spans.contains a.2 (List.mem_map_of_mem (by simp))).1
  have h1 := h.within b hb
  have h2 := h.fits
  have h3 := hce.1
  unfold Before at hab
  exact ⟨_, by rw [joinPages_eq ⟨by omega, by omega, by omega, by omega⟩, if_pos ⟨hce.1, hce.2⟩]⟩

/-- The map describes its bytes exactly when contiguous pieces agree. -/
theorem Pieces.describes_iff :
    Describes l ((Lib.Coalesce.coalesce joinPages (sortPieces l)).map fun (p, (v, s)) => (v, s, p)) ↔ TypesAgree l := by
  constructor
  · intro hd a ha b hb hc
    by_cases hne : a = b
    · rw [hne]
    -- both are in one entry, which has one type
    have hstart : a.2.1 ≠ b.2.1 := fun he => hne (h.eq_of_start ha hb he)
    have hpos : start < stop := by
      have := h.within a ha
      have := hc.1
      omega
    obtain ⟨e, he, g, hg, hag, hbg, hsub⟩ := h.joined ha hb hne hc
    have hbytes : DescribesBytes l e := hd.bytes (e.2.1, e.2.2, e.1) (List.mem_map.mpr ⟨e, he, rfl⟩)
    have hm := h.maps hg hsub
    have htype : ∀ x ∈ l, x ∈ g → x.1.pageType = e.1.pageType := by
      intro x hx hxg
      have hin := hm.spans.contains x.2 (List.mem_map_of_mem hxg)
      have hx0 := h.nonempty hpos x hx
      obtain ⟨y, hy, hyv, -, hty⟩ := hbytes (x.2.1 - e.2.1) (by omega)
      rw [show e.2.1 + (x.2.1 - e.2.1) = x.2.1 by omega] at hyv
      rw [h.eq_of_byte hx hy ⟨Nat.le_refl _, by omega⟩ hyv]
      exact hty
    rw [htype a ha hag, htype b hb hbg]
  · intro ht
    refine ⟨List.pairwise_map.mpr (h.joins_sorted.imp fun hb => hb.1),
      List.pairwise_map.mpr (h.joins_sorted.imp fun hb => hb.2), fun v => ?_, ?_, ?_⟩
    · rw [← h.joins_covers v]
      constructor
      · intro ⟨_, hmem, hv⟩
        obtain ⟨e, he, rfl⟩ := List.mem_map.mp hmem
        exact ⟨e, he, hv⟩
      · intro ⟨e, he, hv⟩
        exact ⟨_, List.mem_map_of_mem he, hv⟩
    · refine (List.isChain_map _).mpr (h.joins_maximal.imp fun a b hab hc => hab hc.1)
    · intro _ hmem
      obtain ⟨e, he, rfl⟩ := List.mem_map.mp hmem
      obtain ⟨g, hg, hsub⟩ := (groups_sortPieces l).of_mem e he
      have hl : ∀ x ∈ g, x ∈ l := fun x hx => mem_sortPieces.mp (hsub.subset hx)
      exact (h.maps hg hsub).describes hl (types_of_joins ht hg (h.sortedRanges.sublist (hsub.map _)) hl)

end Sorted

namespace VirtualDMA

variable {M V D : Type} [PhysicalMemory M] [VirtualTranslate V] [ScopedVirtualTranslate D]

/-- The translation map of a range: its entries describe their bytes exactly when no two
    contiguous pieces differ in their page type. -/
theorem virtTranslationMapRange_describes_iff
    {coalesce : Closure (PhysicalAddress × Nat × Nat) → List (PhysicalAddress × Nat × Nat) → List (PhysicalAddress × Nat × Nat)}
    (hc : IsCoalesce coalesce) (self : VirtualDMA M V D) {start stop : Nat} {vat : V} {mem : M}
    {o : Outputs (Nat × Nat)} (ht : self.translateRange start stop = some (vat, mem, o)) (hp : Pieces start stop o.out) :
    ∃ m, self.virtTranslationMapRange coalesce start stop = some ({ self with vat := vat, physMem := mem }, m) ∧
      (Describes o.out m ↔ TypesAgree o.out) := by
  refine ⟨(coalesce joinPages (sortPieces o.out)).map fun (p, (v, s)) => (v, s, p), ?_, ?_⟩
  · simp only [virtTranslationMapRange, ht, Option.map_some]
  · rw [hc.eq]
    exact hp.describes_iff

theorem virtTranslationMapRange_threePages :
    ∃ m, (threePages.virtTranslationMapRange Lib.Coalesce.coalesce 0 0x5000).map (·.2) = some m ∧
      Describes threePieces m := by
  obtain ⟨⟨vat, mem, o⟩, ht, ho⟩ := Option.map_eq_some_iff.mp translate_threePages
  simp only at ho
  obtain ⟨m, hm, hd⟩ := virtTranslationMapRange_describes_iff Lib.Coalesce.isCoalesce_coalesce threePages ht
    (by rw [ho]; exact pieces_threePages)
  rw [ho] at hd
  have htype : ∀ x ∈ threePieces, x.1.pageType = PageType.writeable := by decide
  exact ⟨m, by rw [hm]; rfl, hd.mpr fun a ha b hb _ => by rw [htype a ha, htype b hb]⟩

/-- A page that may only be read at 0, and one that may be written at 0x1000, contiguous in
    physical memory. -/
def twoTypes : VirtualDMA FlatMemory DirectTranslate X86ScopedVirtualTranslate :=
  ⟨.ofWords [(0x1000, 0x2003), (0x2000, 0x3003), (0x3000, 0x4003), (0x4000, 0x10001), (0x4008, 0x11003)], {}, x64Arch,
    ⟨x64Arch, 0x1000⟩⟩

/-- The two are one entry, with the type of the first. -/
theorem translationMap_twoTypes :
    ((twoTypes.translateRange 0 0x2000).map fun t => t.2.2.out) =
        some [(⟨0x10000, PageType.readOnly, 11⟩, 0, 0x1000), (⟨0x11000, PageType.writeable, 11⟩, 0x1000, 0x1000)] ∧
      (twoTypes.virtTranslationMapRange Lib.Coalesce.coalesce 0 0x2000).map (·.2) =
        some [(0, 0x2000, ⟨0x10000, PageType.readOnly, 11⟩)] ∧
      ¬ Describes [(⟨0x10000, PageType.readOnly, 11⟩, 0, 0x1000), (⟨0x11000, PageType.writeable, 11⟩, 0x1000, 0x1000)]
        [(0, 0x2000, ⟨0x10000, PageType.readOnly, 11⟩)] := by
  have hout : (twoTypes.translateRange 0 0x2000).map (fun t => t.2.2.out) =
      some [(⟨0x10000, PageType.readOnly, 11⟩, 0, 0x1000), (⟨0x11000, PageType.writeable, 11⟩, 0x1000, 0x1000)] := by
    decide +kernel
  refine ⟨hout, ?_, fun h => ?_⟩
  · obtain ⟨⟨vat, mem, o⟩, ht, ho⟩ := Option.map_eq_some_iff.mp hout
    simp only at ho
    simp only [virtTranslationMapRange, ht, Option.map_some, ho]
    rw [sortPieces, List.mergeSort_of_pairwise (by decide)]
    decide
  · -- the byte 0x1000 of the entry is one of the second page
    obtain ⟨x, hx, hxv, -, hty⟩ := h.bytes _ (List.mem_singleton.mpr rfl) 0x1000 (by decide)
    simp only [List.mem_cons, List.not_mem_nil, or_false] at hx
    rcases hx with rfl | rfl
    · exact absurd hxv (by unfold InRange; decide)
    · exact absurd hty (by decide)

end VirtualDMA

end Jiaa
