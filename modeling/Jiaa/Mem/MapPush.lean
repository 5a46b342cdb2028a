/-
  Jiaa.Mem.MapPush — what pushing regions leaves in a memory map
  (memflow `mem/mem_map.rs`: `push`, `push_remap`, `push_range`).

  `shiftIdx_spec` says what the reverse scan finds. From a map whose regions lie in
  ascending order and end inside the address space, `push` refuses a region exactly when
  its start, or the address it ends at, lies in a region held (`push_none_iff`), and puts
  it behind the last region that ends at or before its start.

  - `reach_disjoint`: regions pushed neither over another, nor below all others, nor past
    the end of the address space are disjoint, and one that meets a region held is
    refused unless it covers it.
-/

import Jiaa.Mem.MemMap
import Mathlib.Data.List.Pairwise

namespace Jiaa

variable {M : Type*} [SplitAtIndex M]

namespace MemoryMapping

/-- Where the region ends, not wrapping. -/
def finish (self : MemoryMapping M) : Nat := self.base + SplitAtIndex.length self.output

def Holds (self : MemoryMapping M) (a : Nat) : Prop := self.base ≤ a ∧ a < self.finish

instance (self : MemoryMapping M) (a : Nat) : Decidable (self.Holds a) := inferInstanceAs (Decidable (_ ∧ _))

/-- No address lies in both regions. -/
def Apart (m r : MemoryMapping M) : Prop := ∀ a, m.Holds a → ¬ r.Holds a

theorem stop_eq {m : MemoryMapping M} (h : m.finish < 2 ^ 64) : m.stop = m.finish := Address.add_eq h

theorem stop_top {m : MemoryMapping M} (h : m.finish = 2 ^ 64) : m.stop = 0 := by
  show m.finish % 2 ^ 64 = 0
  rw [h, Nat.mod_self]

theorem base_le_finish (m : MemoryMapping M) : m.base ≤ m.finish := Nat.le_add_right _ _

theorem apart_of_le {m r : MemoryMapping M} (h : m.finish ≤ r.base ∨ r.finish ≤ m.base) : m.Apart r := by
  intro a ⟨h1, h2⟩ ⟨h3, h4⟩
  omega

/-- Non-empty regions without a common address lie one behind the other. -/
theorem Apart.le {m r : MemoryMapping M} (h : m.Apart r) (hm : m.base < m.finish) (hr : r.base < r.finish) :
    m.finish ≤ r.base ∨ r.finish ≤ m.base := by
  by_contra hn
  have h1 := h (max m.base r.base) ⟨by omega, by omega⟩
  exact h1 ⟨by omega, by omega⟩

end MemoryMapping

open MemoryMapping

namespace MemoryMap

/-! ## The scan -/

/-- The overlap test of `push`. -/
def Hits (start stop : Nat) (m : MemoryMapping M) : Prop :=
  (m.base ≤ start ∧ start < m.stop) ∨ (m.base ≤ stop ∧ stop < m.stop)

/-- The regions `above` the insertion point pass the test and end behind the start; the
    one below it, if there is one, passes and ends before. Without one the index is `len`. -/
theorem shiftIdx_spec {start stop len idx : Nat} : ∀ {rev : List (MemoryMapping M)},
    shiftIdx start stop len rev = some idx → ∃ above below, rev = above ++ below ∧
      (∀ m ∈ above, ¬ Hits start stop m ∧ start < m.stop) ∧
      ((below = [] ∧ idx = len) ∨
        ∃ m rest, below = m :: rest ∧ ¬ Hits start stop m ∧ m.stop ≤ start ∧ idx = below.length) := by
  intro rev
  induction rev with
  | nil => intro h; exact ⟨[], [], rfl, by simp, Or.inl ⟨rfl, (Option.some.inj h).symm⟩⟩
  | cons m rest ih =>
    intro h
    unfold shiftIdx at h
    split at h
    · cases h
    · next hn =>
      split at h
      · next hle => exact ⟨[], m :: rest, rfl, by simp, Or.inr ⟨m, rest, rfl, hn, hle, (Option.some.inj h).symm⟩⟩
      · next hlt =>
        obtain ⟨above, below, rfl, h1, h2⟩ := ih h
        refine ⟨m :: above, below, rfl, fun x hx => ?_, h2⟩
        rcases List.mem_cons.mp hx with rfl | hx
        · exact ⟨hn, by omega⟩
        · exact h1 x hx

theorem shiftIdx_none {start stop len : Nat} : ∀ {rev : List (MemoryMapping M)},
    shiftIdx start stop len rev = none → ∃ m ∈ rev, Hits start stop m := by
  intro rev
  induction rev with
  | nil => intro h; cases h
  | cons m rest ih =>
    intro h
    unfold shiftIdx at h
    split at h
    · next hn => exact ⟨m, List.mem_cons_self .., hn⟩
    · split at h
      · cases h
      · obtain ⟨x, hx, hh⟩ := ih h
        exact ⟨x, List.mem_cons_of_mem _ hx, hh⟩

omit [SplitAtIndex M] in
theorem insertIdx_length (l k : List (MemoryMapping M)) (r : MemoryMapping M) :
    (l ++ k).insertIdx l.length r = l ++ r :: k := by
  induction l with
  | nil => rfl
  | cons x l ih => rw [List.cons_append, List.length_cons, List.insertIdx_succ_cons, ih, List.cons_append]

/-- A region pushed lands behind `below`, whose last region ends at or before it; where
    `below` is empty it lands behind everything. -/
theorem push_some {map map' : MemoryMap M} {r : MemoryMapping M} (h : map.push r.base r.output = some map') :
    ∃ below above, map.mappings = below ++ above ∧ (∀ m ∈ above, ¬ Hits r.base r.stop m ∧ r.base < m.stop) ∧
      ((below = [] ∧ map'.mappings = above ++ [r]) ∨
        ∃ rest m, below = rest ++ [m] ∧ ¬ Hits r.base r.stop m ∧ m.stop ≤ r.base ∧
          map'.mappings = below ++ r :: above) := by
  obtain ⟨idx, hi, rfl⟩ := Option.map_eq_some_iff.mp h
  obtain ⟨above, below, hrev, h1, h2⟩ := shiftIdx_spec hi
  have hmap : map.mappings = below.reverse ++ above.reverse := by
    rw [← List.reverse_reverse map.mappings, hrev, List.reverse_append]
  refine ⟨below.reverse, above.reverse, hmap, fun m hm => h1 m (List.mem_reverse.mp hm), ?_⟩
  rcases h2 with ⟨rfl, rfl⟩ | ⟨m, rest, rfl, hn, hle, rfl⟩
  · refine Or.inl ⟨rfl, ?_⟩
    have hm : map.mappings = above.reverse := by simpa using hmap
    show map.mappings.insertIdx map.mappings.length r = _
    rw [List.insertIdx_length_self, hm]
  · refine Or.inr ⟨rest.reverse, m, by simp, hn, hle, ?_⟩
    have hl : (m :: rest).length = (m :: rest).reverse.length := by simp
    show map.mappings.insertIdx (m :: rest).length r = _
    rw [hl, hmap, insertIdx_length]

theorem push_perm {map map' : MemoryMap M} {r : MemoryMapping M} (h : map.push r.base r.output = some map') :
    map'.mappings.Perm (r :: map.mappings) := by
  rcases push_some h with ⟨below, above, he, -, ⟨rfl, h1⟩ | ⟨rest, m, -, -, -, h1⟩⟩
  · rw [h1, he, List.nil_append]
    exact List.perm_append_singleton r above
  · rw [h1, he]
    exact List.perm_middle

theorem push_sublist {map map' : MemoryMap M} {r : MemoryMapping M} (h : map.push r.base r.output = some map') :
    map.mappings.Sublist map'.mappings := by
  rcases push_some h with ⟨below, above, he, -, ⟨rfl, h1⟩ | ⟨rest, m, -, -, -, h1⟩⟩
  · rw [h1, he, List.nil_append]
    exact List.sublist_append_left above [r]
  · rw [h1, he]
    exact (List.sublist_cons_self r above).append_left below

/-! ## Maps in order -/

/-- Each region ends at or before the next, and inside the address space. -/
structure Placed (map : MemoryMap M) : Prop where
  ordered : map.mappings.Pairwise fun m r => m.finish ≤ r.base
  bounded : ∀ m ∈ map.mappings, m.finish < 2 ^ 64

/-- The scan meets every region that passes the start: it refuses exactly the regions
    whose start, or the address they end at, lies in a region held. -/
theorem Placed.push_none_iff {map : MemoryMap M} (h : map.Placed) {r : MemoryMapping M} (hr : r.finish < 2 ^ 64) :
    map.push r.base r.output = none ↔ ∃ m ∈ map.mappings, m.Holds r.base ∨ m.Holds r.finish := by
  have hits : ∀ m ∈ map.mappings, Hits r.base r.stop m ↔ m.Holds r.base ∨ m.Holds r.finish := by
    intro m hm
    unfold Hits Holds
    rw [stop_eq (h.bounded m hm), stop_eq hr]
  constructor
  · intro hn
    obtain ⟨m, hm, hh⟩ := shiftIdx_none (Option.map_eq_none_iff.mp hn)
    have hm := List.mem_reverse.mp hm
    exact ⟨m, hm, (hits m hm).mp hh⟩
  · intro ⟨m, hm, hh⟩
    cases hp : map.push r.base r.output with
    | none => rfl
    | some map' =>
      obtain ⟨below, above, he, habove, hbelow⟩ := push_some hp
      have hb := r.base_le_finish
      rw [he, List.mem_append] at hm
      rcases hm with hm | hm
      · -- below the insertion point every region ends before the start
        rcases hbelow with ⟨rfl, -⟩ | ⟨rest, x, rfl, -, hle, -⟩
        · cases hm
        · have hord := (List.pairwise_append.mp (he ▸ h.ordered)).1
          have hx : x ∈ map.mappings := by rw [he]; simp
          rw [stop_eq (h.bounded x hx)] at hle
          have hmx : m.finish ≤ x.finish := by
            rcases List.mem_append.mp hm with hm | hm
            · exact ((List.pairwise_append.mp hord).2.2 m hm x (List.mem_singleton_self x)).trans x.base_le_finish
            · rw [List.mem_singleton.mp hm]
          unfold Holds at hh
          omega
      · exact absurd ((hits m (he ▸ List.mem_append_right _ hm)).mpr hh) (habove m hm).1

/-- A region pushed between two neighbours keeps the order, unless it covers the next. -/
theorem Placed.push {map map' : MemoryMap M} (h : map.Placed) {r : MemoryMapping M} (hr : r.finish < 2 ^ 64)
    (hlow : map.mappings = [] ∨ ∃ m ∈ map.mappings, m.finish ≤ r.base)
    (hcov : ∀ m ∈ map.mappings, r.base < m.base → r.finish < m.finish)
    (hp : map.push r.base r.output = some map') : map'.Placed := by
  obtain ⟨below, above, he, habove, hbelow⟩ := push_some hp
  have habove' : ∀ m ∈ above, r.finish ≤ m.base := by
    intro m hm
    have hm' : m ∈ map.mappings := he ▸ List.mem_append_right _ hm
    obtain ⟨hn, hlt⟩ := habove m hm
    have hc := hcov m hm'
    unfold Hits at hn
    rw [stop_eq (h.bounded m hm')] at hn hlt
    rw [stop_eq hr] at hn
    have := r.base_le_finish
    omega
  have hbounded : ∀ m ∈ map'.mappings, m.finish < 2 ^ 64 := by
    intro m hm
    rcases List.mem_cons.mp ((push_perm hp).subset hm) with rfl | hm
    · exact hr
    · exact h.bounded m hm
  rcases hbelow with ⟨rfl, h1⟩ | ⟨rest, x, rfl, -, hle, h1⟩
  · refine ⟨?_, hbounded⟩
    -- no region lies below: the map was empty
    rw [List.nil_append] at he
    have hnil : above = [] := by
      rcases hlow with hlow | ⟨m, hm, hle⟩
      · rw [← he, hlow]
      · rw [he] at hm
        have h2 := (habove m hm).2
        rw [stop_eq (h.bounded m (he ▸ hm))] at h2
        omega
    rw [h1, hnil]
    exact List.pairwise_singleton ..
  · refine ⟨?_, hbounded⟩
    have hord := List.pairwise_append.mp (he ▸ h.ordered)
    have hx : x ∈ map.mappings := by rw [he]; simp
    rw [stop_eq (h.bounded x hx)] at hle
    rw [h1]
    refine List.pairwise_append.mpr ⟨hord.1, List.pairwise_cons.mpr ⟨habove', hord.2.1⟩, fun m hm y hy => ?_⟩
    rcases List.mem_cons.mp hy with rfl | hy
    · rcases List.mem_append.mp hm with hm | hm
      · exact ((List.pairwise_append.mp hord.1).2.2 m hm x (List.mem_singleton_self x)).trans
          (x.base_le_finish.trans hle)
      · rw [List.mem_singleton.mp hm]
        exact hle
    · exact hord.2.2 m hm y hy

theorem Placed.disjoint {map : MemoryMap M} (h : map.Placed) : map.mappings.Pairwise Apart :=
  h.ordered.imp fun hle => apart_of_le (Or.inl hle)

/-! ## Runs of pushes -/

end MemoryMap

/-- The region reaches from before the start of `m` to its end, or further. -/
def MemoryMapping.Covers (r m : MemoryMapping M) : Prop := r.base < m.base ∧ m.finish ≤ r.finish

instance (r m : MemoryMapping M) : Decidable (r.Covers m) := inferInstanceAs (Decidable (_ ∧ _))

inductive PushOp where
  | push (base : Nat) (output : Nat × Nat)
  | pushRemap (base size realBase : Nat)
  | pushRange (base stop realBase : Nat)

namespace PushOp

def apply (map : MemoryMap (Nat × Nat)) : PushOp → Option (MemoryMap (Nat × Nat))
  | push base output => map.push base output
  | pushRemap base size realBase => map.pushRemap base size realBase
  | pushRange base stop realBase => map.pushRange base stop realBase

/-- The region the call adds, if it adds one. -/
def region : PushOp → Option (MemoryMapping (Nat × Nat))
  | push base output => some ⟨base, output⟩
  | pushRemap base size realBase => some ⟨base, (realBase, size)⟩
  | pushRange base stop realBase => if base < stop then some ⟨base, (realBase, Address.sub stop base)⟩ else none

theorem apply_eq (map : MemoryMap (Nat × Nat)) (op : PushOp) :
    op.apply map = op.region.elim (some map) fun r => map.push r.base r.output := by
  cases op with
  | push => rfl
  | pushRemap => rfl
  | pushRange base stop realBase =>
    simp only [apply, region, MemoryMap.pushRange, MemoryMap.pushRemap]
    by_cases h : base < stop
    · rw [if_pos h, if_pos h, Option.elim_some]
    · rw [if_neg h, if_neg h, Option.elim_none]

end PushOp

namespace MemoryMap

/-- The region ends inside the address space, a region held lies below it if any is held,
    and it covers none. -/
def Regular (map : MemoryMap M) (r : MemoryMapping M) : Prop :=
  r.finish < 2 ^ 64 ∧ (map.mappings = [] ∨ ∃ m ∈ map.mappings, m.finish ≤ r.base) ∧ ∀ m ∈ map.mappings, ¬ r.Covers m

instance [DecidableEq M] (map : MemoryMap M) (r : MemoryMapping M) : Decidable (map.Regular r) :=
  inferInstanceAs (Decidable (_ ∧ _))

/-- The maps reached by calls that do not panic and push regular regions. -/
inductive Reach : MemoryMap (Nat × Nat) → Prop
  | new : Reach new
  | step {map map' : MemoryMap (Nat × Nat)} (op : PushOp) : Reach map → (∀ r ∈ op.region, map.Regular r) →
      op.apply map = some map' → Reach map'

theorem Reach.placed {map : MemoryMap (Nat × Nat)} (h : Reach map) : map.Placed := by
  induction h with
  | new => exact ⟨List.Pairwise.nil, nofun⟩
  | step op _ hreg hop ih =>
    rw [PushOp.apply_eq] at hop
    cases hr : op.region with
    | none =>
      rw [hr] at hop
      exact Option.some.inj hop ▸ ih
    | some r =>
      rw [hr] at hop
      obtain ⟨h1, h2, h3⟩ := hreg r hr
      exact ih.push h1 h2 (fun m hm hlt => Nat.lt_of_not_le fun hle => h3 m hm ⟨hlt, hle⟩) hop

/-- Regular pushes leave the regions disjoint; a region pushed next is refused exactly
    when its start, or the address it ends at, lies in a region held, and so whenever it
    meets a region that it does not cover. -/
theorem reach_disjoint (map : MemoryMap (Nat × Nat)) (h : Reach map) :
    map.mappings.Pairwise Apart ∧ ∀ op r, PushOp.region op = some r → r.finish < 2 ^ 64 →
      (op.apply map = none ↔ ∃ m ∈ map.mappings, m.Holds r.base ∨ m.Holds r.finish) ∧
      ((∃ m ∈ map.mappings, ¬ m.Apart r ∧ ¬ r.Covers m) → op.apply map = none) := by
  refine ⟨h.placed.disjoint, fun op r hr hfin => ?_⟩
  have hiff : op.apply map = none ↔ ∃ m ∈ map.mappings, m.Holds r.base ∨ m.Holds r.finish := by
    rw [PushOp.apply_eq, hr]
    exact h.placed.push_none_iff hfin
  refine ⟨hiff, fun ⟨m, hm, hmeet, hcov⟩ => hiff.mpr ⟨m, hm, ?_⟩⟩
  unfold Apart at hmeet
  push Not at hmeet
  obtain ⟨a, h1, h2⟩ := hmeet
  unfold Covers at hcov
  unfold Holds at h1 h2 ⊢
  omega

/-- Two regions that touch, pushed in ascending order. -/
def adjacent : MemoryMap (Nat × Nat) := ⟨[⟨0x1000, 0, 0x1000⟩, ⟨0x2000, 0x8000, 0x1000⟩]⟩

theorem reach_disjoint_adjacent :
    adjacent.mappings.Pairwise Apart ∧ (PushOp.pushRange 0x1800 0x2800 0).apply adjacent = none := by
  have h : Reach adjacent := .step (.pushRemap 0x2000 0x1000 0x8000)
    (show Reach ⟨[⟨0x1000, 0, 0x1000⟩]⟩ from
      .step (.pushRange 0x1000 0x2000 0) .new (by decide +kernel) (by decide +kernel)) (by decide +kernel)
    (by decide +kernel)
  have hall := reach_disjoint adjacent h
  exact ⟨hall.1, ((hall.2 (.pushRange 0x1800 0x2800 0) ⟨0x1800, 0, 0x1000⟩ (by decide +kernel) (by decide +kernel)).1).mpr
    (by decide +kernel)⟩

/-- A region pushed around one that is held is taken, and so is one inside a region that
    was pushed above it: the one pushed below all others is put last. -/
theorem push_covering_overlaps :
    (∃ map map', PushOp.apply new (.pushRemap 0x2000 0x1000 0) = some map ∧
      PushOp.apply map (.pushRemap 0x1000 0x3000 0x1000) = some map' ∧ ¬ map'.mappings.Pairwise Apart) ∧
    ∃ map map' map'', PushOp.apply new (.pushRemap 0x3000 0x1000 0) = some map ∧
      PushOp.apply map (.pushRemap 0x1000 0x800 0x1000) = some map' ∧
      PushOp.apply map' (.pushRemap 0x3800 0x100 0x2000) = some map'' ∧ ¬ map''.mappings.Pairwise Apart := by
  refine ⟨⟨⟨[⟨0x2000, 0, 0x1000⟩]⟩, ⟨[⟨0x2000, 0, 0x1000⟩, ⟨0x1000, 0x1000, 0x3000⟩]⟩, by decide +kernel,
    by decide +kernel, fun h => ?_⟩, ⟨[⟨0x3000, 0, 0x1000⟩]⟩,
    ⟨[⟨0x3000, 0, 0x1000⟩, ⟨0x1000, 0x1000, 0x800⟩]⟩,
    ⟨[⟨0x3000, 0, 0x1000⟩, ⟨0x1000, 0x1000, 0x800⟩, ⟨0x3800, 0x2000, 0x100⟩]⟩, by decide +kernel,
    by decide +kernel, by decide +kernel, fun h => ?_⟩
  · exact List.pairwise_iff_getElem.mp h 0 1 (by decide) (by decide) (by decide) 0x2000 (by decide) (by decide)
  · exact List.pairwise_iff_getElem.mp h 0 2 (by decide) (by decide) (by decide) 0x3800 (by decide) (by decide)

end MemoryMap

end Jiaa
