/-
  Jiaa.Mem.MapLookup — what a memory map answers for a list of requests
  (memflow `mem/mem_map.rs`: `MemoryMapIterator`, `map`, `map_iter`).

  The iterator is followed by what is left to answer. `scan_spec` is one region found:
  the bytes before it are rejected, those in it yielded, the rest kept, with no region
  before the position kept that ends behind the rest. `collect_spec` is the run.

  - `mapIter_covered`: over sorted disjoint regions the pieces are the covered bytes of
    the requests, in order, each with its byte of the region's output;
  - `mapIter_failed_iff`: what is put into `fail_out` is the maximal uncovered runs,
    exactly when no uncovered byte lies behind every region.
-/

import Jiaa.Mem.MapPush
import Jiaa.Lib.Runs

namespace Jiaa

variable {M T β γ : Type*} [SplitAtIndex M] [SplitAtIndex T] [lawful : LawfulSplitAtIndex M γ]
  [LawfulSplitAtIndex T β]

open MemoryMapping

namespace MemoryMap

/-- A map whose regions are not empty and lie one behind the other in the address space. -/
structure Ready (map : MemoryMap M) : Prop where
  nonempty : ∀ m ∈ map.mappings, m.base < m.finish
  bounded : ∀ m ∈ map.mappings, m.finish ≤ 2 ^ 64
  ordered : map.mappings.Pairwise fun m r => m.finish ≤ r.base

/-- Every region ends below the top of the address space. -/
def Inside (map : MemoryMap M) : Prop := ∀ m ∈ map.mappings, m.finish < 2 ^ 64

theorem Ready.apart {map : MemoryMap M} (h : map.Ready) {pre post : List (MemoryMapping M)} {m : MemoryMapping M}
    (hm : map.mappings = pre ++ m :: post) :
    (∀ x ∈ pre, x.finish ≤ m.base) ∧ ∀ x ∈ post, m.finish ≤ x.base := by
  have hord := List.pairwise_append.mp (hm ▸ h.ordered)
  exact ⟨fun x hx => hord.2.2 x hx m (List.mem_cons_self ..), (List.pairwise_cons.mp hord.2.1).1⟩

theorem Ready.separate {map : MemoryMap M} (h : map.Ready) {m r : MemoryMapping M} (hm : m ∈ map.mappings)
    (hr : r ∈ map.mappings) (hne : m ≠ r) : m.finish ≤ r.base ∨ r.finish ≤ m.base := by
  have hsymm : Std.Symm fun m r : MemoryMapping M => m.finish ≤ r.base ∨ r.finish ≤ m.base := ⟨fun _ _ h => h.symm⟩
  exact (h.ordered.imp fun {_ _} h => Or.inl h :
    map.mappings.Pairwise fun m r => m.finish ≤ r.base ∨ r.finish ≤ m.base).forall hm hr hne

def Covers (map : MemoryMap M) (a : Nat) : Prop := ∃ m ∈ map.mappings, m.Holds a

instance (map : MemoryMap M) (a : Nat) : Decidable (map.Covers a) :=
  inferInstanceAs (Decidable (∃ m ∈ map.mappings, m.Holds a))

/-- Some region ends behind `a`, as the iterator computes ends. -/
def Before (map : MemoryMap M) (a : Nat) : Prop := ∃ m ∈ map.mappings, a < m.stop

instance (map : MemoryMap M) (a : Nat) : Decidable (map.Before a) :=
  inferInstanceAs (Decidable (∃ m ∈ map.mappings, a < m.stop))

/-- The byte of the outputs at `a`: the one at `a - base` of the region that holds `a`. -/
def lookup (map : MemoryMap M) (a : Nat) : Option γ :=
  (map.mappings.find? fun m => m.Holds a).bind fun m => (bytes m.output)[a - m.base]?

/-- The bytes of a request at `a` with their bytes of the outputs, the uncovered ones left
    out. -/
def covered (map : MemoryMap M) (a : Nat) (l : List β) : List (γ × β) :=
  (l.zipIdx a).filterMap fun x => (map.lookup x.2).map fun y => (y, x.1)

/-- The maximal runs of uncovered bytes of a request at `a`. -/
def uncovered (map : MemoryMap M) (a : Nat) (l : List β) : List (Nat × List β) :=
  Lib.Runs.runs (fun a => ¬ map.Covers a) a l

/-- The runs the iterator rejects. -/
def rejected (map : MemoryMap M) (a : Nat) (l : List β) : List (Nat × List β) :=
  Lib.Runs.runs (fun a => ¬ map.Covers a ∧ map.Before a) a l

end MemoryMap

/-- The bytes of a piece, each with its byte of the output. -/
def pieceBytes (p : M × T) : List (γ × β) := (bytes p.1).zip (bytes p.2)

def rejectedBytes (f : Nat × T) : Nat × List β := (f.1, bytes f.2)

namespace MemoryMapIterator

open MemoryMap

section Lookup

variable {map : MemoryMap M}

/-! ## Around one region -/

/-- `m` is the first region that ends behind `a`. -/
structure First (map : MemoryMap M) (pre : List (MemoryMapping M)) (m : MemoryMapping M)
    (post : List (MemoryMapping M)) (a : Nat) : Prop where
  split : map.mappings = pre ++ m :: post
  pre : ∀ x ∈ pre, x.stop ≤ a
  lt : a < m.stop

variable {pre post : List (MemoryMapping M)} {m : MemoryMapping M} {a : Nat}

omit lawful in
theorem First.stop (h : map.Ready) (hf : First map pre m post a) : m.stop = m.finish := by
  have hb := h.bounded m (by rw [hf.split]; simp)
  rcases Nat.lt_or_eq_of_le hb with hlt | heq
  · exact stop_eq hlt
  · have := hf.lt
    rw [stop_top heq] at this
    omega

omit lawful in
/-- From `a` to the end of the first region, `m` alone can hold an address. -/
theorem First.holds (h : map.Ready) (hf : First map pre m post a) {x : MemoryMapping M} (hx : x ∈ map.mappings)
    {i : Nat} (hi : a ≤ i) (hi' : i < m.finish) (hh : x.Holds i) : x = m := by
  obtain ⟨hpre, hpost⟩ := h.apart hf.split
  have hm := h.nonempty m (by rw [hf.split]; simp)
  have hmb := h.bounded m (by rw [hf.split]; simp)
  unfold Holds at hh
  rw [hf.split, List.mem_append, List.mem_cons] at hx
  rcases hx with hx | rfl | hx
  · have h1 := hpre x hx
    have h2 := hf.pre x hx
    rw [stop_eq (by omega)] at h2
    omega
  · rfl
  · have := hpost x hx
    omega

omit lawful in
theorem First.not_covers (h : map.Ready) (hf : First map pre m post a) {i : Nat} (hi : a ≤ i) (hi' : i < m.base) :
    ¬ map.Covers i := by
  intro ⟨x, hx, hh⟩
  have := hf.holds h hx hi (Nat.lt_of_lt_of_le hi' m.base_le_finish) hh
  subst this
  exact absurd hh.1 (by omega)

theorem First.lookup (h : map.Ready) (hf : First map pre m post a) {i : Nat} (hi : a ≤ i) (hb : m.base ≤ i)
    (hi' : i < m.finish) : map.lookup i = (bytes m.output)[i - m.base]? := by
  have hm : m ∈ map.mappings := by rw [hf.split]; simp
  unfold MemoryMap.lookup
  cases hfind : map.mappings.find? fun m => m.Holds i with
  | none =>
    have := List.find?_eq_none.mp hfind m hm
    simp only [decide_eq_true_eq] at this
    exact absurd ⟨hb, hi'⟩ this
  | some x =>
    have hx := List.find?_some hfind
    rw [hf.holds h (List.mem_of_find?_eq_some hfind) hi hi' (by simpa using hx), Option.bind_some]

/-! ## What a request is answered -/

theorem covered_append (map : MemoryMap M) (a : Nat) (l k : List β) :
    map.covered a (l ++ k) = map.covered a l ++ map.covered (a + l.length) k := by
  unfold covered
  rw [List.zipIdx_append, List.filterMap_append]

theorem lookup_eq_none {i : Nat} (h : ¬ map.Covers i) : map.lookup i = none := by
  unfold MemoryMap.lookup
  rw [List.find?_eq_none.mpr fun m hm => by simpa using fun hh => h ⟨m, hm, hh⟩, Option.bind_none]

theorem covered_eq_nil {l : List β} (h : ∀ i, a ≤ i → i < a + l.length → ¬ map.Covers i) : map.covered a l = [] := by
  refine List.filterMap_eq_nil_iff.mpr fun x hx => ?_
  obtain ⟨h1, h2, -⟩ := List.mem_zipIdx hx
  rw [lookup_eq_none (h x.2 h1 h2), Option.map_none]

/-- The bytes inside the first region are answered by its output. -/
theorem First.covered (h : map.Ready) (hf : First map pre m post a) {b : Nat} (hb : a ≤ b) (hb' : m.base ≤ b)
    {l : List β} (hl : b + l.length ≤ m.finish) :
    map.covered b l = ((bytes m.output).drop (b - m.base)).zip l := by
  have hlen : (bytes m.output).length = m.finish - m.base := by
    rw [← LawfulSplitAtIndex.length_eq]
    unfold finish
    omega
  have key : ∀ (l : List β) (c : Nat), b ≤ c → c + l.length ≤ m.finish →
      map.covered c l = ((bytes m.output).drop (c - m.base)).zip l := by
    intro l
    induction l with
    | nil => intro c _ _; simp [MemoryMap.covered]
    | cons x l ih =>
      intro c hc hl
      simp only [List.length_cons] at hl
      have hlt : c - m.base < (bytes m.output).length := by omega
      have hlook := hf.lookup (γ := γ) h (i := c) (by omega) (by omega) (by omega)
      rw [List.getElem?_eq_getElem hlt] at hlook
      have ih := ih (c + 1) (by omega) (by omega)
      rw [show c + 1 - m.base = c - m.base + 1 by omega] at ih
      rw [List.drop_eq_getElem_cons hlt, List.zip_cons_cons, ← ih]
      simp only [MemoryMap.covered, List.zipIdx_cons]
      rw [List.filterMap_cons_some (b := ((bytes m.output)[c - m.base], x)) (by rw [hlook]; rfl)]
  exact key l b (Nat.le_refl _) hl

/-! ## One request -/

/-- The output of a piece is the part of a region's output from some index on. -/
def PartOf (map : MemoryMap M) (ret : M × T) : Prop :=
  ∃ m ∈ map.mappings, ∃ off out, (splitAt m.output off).2 = some out ∧
    ret.1 = (splitAt out (SplitAtIndex.length ret.2)).1

variable (map) in
/-- What one call of `get_next` does to the request in `cur_elem`, searched from index `i`
    on: it is answered with nothing, with its last piece, or with a piece and a rest. -/
inductive Answered (i : Nat) (it : MemoryMapIterator M T) (addr : Nat) (buf : T) :
    Option (M × T) → MemoryMapIterator M T → Prop
  | nothing (fs : List (Nat × T)) (rejected : fs.map rejectedBytes = map.rejected addr (bytes buf))
      (covered : map.Inside → map.covered addr (bytes buf) = ([] : List (γ × β))) :
      Answered i it addr buf none { it with failOut := it.failOut ++ fs }
  | last (fs : List (Nat × T)) (ret : M × T) (pos_lt : i < map.mappings.length)
      (length : SplitAtIndex.length ret.1 = SplitAtIndex.length ret.2) (part : PartOf map ret)
      (rejected : fs.map rejectedBytes = map.rejected addr (bytes buf))
      (covered : map.covered addr (bytes buf) = pieceBytes ret) :
      Answered i it addr buf (some ret) (nextElem { it with failOut := it.failOut ++ fs })
  | part (fs : List (Nat × T)) (ret : M × T) (pos addr' : Nat) (x : T)
      (length : SplitAtIndex.length ret.1 = SplitAtIndex.length ret.2) (part : PartOf map ret) (pos_gt : i < pos)
      (pos_le : pos ≤ map.mappings.length) (behind : ∀ y ∈ map.mappings.take pos, y.stop ≤ addr')
      (rejected : fs.map rejectedBytes ++ map.rejected addr' (bytes x) = map.rejected addr (bytes buf))
      (covered : map.covered addr (bytes buf) = pieceBytes ret ++ map.covered addr' (bytes x)) :
      Answered i it addr buf (some ret)
        { it with failOut := it.failOut ++ fs, curMapPos := pos, curElem := some (addr', x) }

/-- The bytes before the first region are one run, those in it none. -/
theorem First.rejected (h : map.Ready) (hf : First map pre m post a) (l k j : List β) (hl : l.length ≤ m.base - a)
    (hkj : k ++ j ≠ [] → l.length = m.base - a) (hk : max a m.base + k.length ≤ m.finish) (hj : j ≠ [] → k ≠ []) :
    map.rejected a (l ++ (k ++ j)) =
      (if 0 < l.length then [(a, l)] else []) ++ map.rejected (a + l.length + k.length) j := by
  have hm : m ∈ map.mappings := by rw [hf.split]; simp
  have hmf := h.nonempty m hm
  have hmb := h.bounded m hm
  have hstop := hf.stop h
  have hk' : k ++ j ≠ [] → ∀ i, a + l.length ≤ i → i < a + l.length + k.length → map.Covers i := by
    intro hne i hi hi'
    have := hkj hne
    exact ⟨m, hm, by unfold Holds; omega⟩
  have hrest : map.rejected (a + l.length) (k ++ j) = map.rejected (a + l.length + k.length) j := by
    by_cases hne : k ++ j = []
    · obtain ⟨rfl, rfl⟩ := List.append_eq_nil_iff.mp hne
      rfl
    · exact Lib.Runs.runs_skip _ k j _ fun i hi hi' hp => hp.1 (hk' hne i hi hi')
  cases l with
  | nil =>
    rw [List.nil_append, if_neg (by simp), List.nil_append]
    exact hrest
  | cons x l =>
    rw [if_pos (by simp), List.singleton_append, ← hrest]
    refine Lib.Runs.runs_head _ (x :: l) (k ++ j) a nofun (fun i hi hi' => ?_) fun hne hp => ?_
    · exact ⟨hf.not_covers h hi (by omega), m, hm, by omega⟩
    · refine hp.1 (hk' hne _ (Nat.le_refl _) ?_)
      have : 0 < k.length := by
        rcases List.eq_nil_or_concat k with rfl | ⟨_, _, rfl⟩
        · exact absurd rfl (hj (by simpa using hne))
        · simp
      omega

omit lawful in
theorem First.take (hf : First map pre m post a) : map.mappings.take (pre.length + 1) = pre ++ [m] := by
  rw [hf.split, List.take_append, List.take_of_length_le (by omega)]
  simp

theorem scan_first (h : map.Ready) (hf : First map pre m post a) {i : Nat} (hi : i ≤ pre.length)
    (it : MemoryMapIterator M T) (buf : T) :
    ∃ ret it', scan it a buf pre.length (m :: post) = some (ret, it') ∧ Answered (γ := γ) map i it a buf ret it' := by
  have hm : m ∈ map.mappings := by rw [hf.split]; simp
  have hmf := h.nonempty m hm
  have hstop := hf.stop h
  have htop : m.stop < 2 ^ 64 := Address.add_lt _ _
  have hlt := hf.lt
  have hadd : Address.add a (m.base - a) = max a m.base := by rw [Address.add_eq (by omega)]; omega
  have hoff : Address.sub (max a m.base) m.base = max a m.base - m.base := Address.sub_eq (by omega) (by omega)
  have hsub : Address.sub m.stop (max a m.base) = m.finish - max a m.base := by
    rw [Address.sub_eq (by omega) htop, hstop]
  have hout : (bytes m.output).length = m.finish - m.base := by
    rw [← LawfulSplitAtIndex.length_eq]
    unfold finish
    omega
  -- what is put into `fail_out` of a part before the region
  have hfail : ∀ l : T, ∃ fs, (if 0 < SplitAtIndex.length l then { it with failOut := it.failOut ++ [(a, l)] } else it) =
      { it with failOut := it.failOut ++ fs } ∧
      fs.map rejectedBytes = if 0 < (bytes l).length then [(a, bytes l)] else [] := by
    intro l
    rw [← LawfulSplitAtIndex.length_eq]
    by_cases hl : 0 < SplitAtIndex.length l
    · exact ⟨[(a, l)], by rw [if_pos hl], by rw [if_pos hl]; rfl⟩
    · exact ⟨[], by rw [if_neg hl, List.append_nil], by rw [if_neg hl]; rfl⟩
  rw [scan, if_pos hlt]
  simp only [hadd, hoff, hsub]
  rcases splitAt_cases buf (m.base - a) with ⟨l, hcut, hl, hle⟩ | ⟨l, right, hcut, hbuf, hl, hright⟩
  · obtain ⟨fs, hit, hfs⟩ := hfail l
    rw [hcut]
    refine ⟨none, _, rfl, ?_⟩
    simp only [hit]
    refine .nothing fs ?_ fun _ => covered_eq_nil fun j hj hj' => hf.not_covers h hj (by omega)
    have := hf.rejected h (bytes buf) ([] : List β) [] hle (by simp) (by simp; omega) (by simp)
    simp only [List.append_nil] at this
    rw [hfs, hl, this]
    simp [MemoryMap.rejected, Lib.Runs.runs]
  · obtain ⟨fs, hit, hfs⟩ := hfail l
    have hleft : a + (bytes l).length = max a m.base := by omega
    have hcov1 : map.covered a (bytes l) = ([] : List (γ × β)) :=
      covered_eq_nil fun j hj hj' => hf.not_covers h hj (by omega)
    -- a part `ret` of the region is yielded
    have hpiece : ∀ ret : T, (bytes ret).length ≤ m.finish - max a m.base →
        ∃ out, (splitAt m.output (max a m.base - m.base)).2 = some out ∧
          SplitAtIndex.length (splitAt out (SplitAtIndex.length ret)).1 = SplitAtIndex.length ret ∧
          map.covered (max a m.base) (bytes ret) = pieceBytes ((splitAt out (SplitAtIndex.length ret)).1, ret) := by
      intro ret hret
      obtain ⟨out, h1, h2, h3⟩ := splitAt_part m.output
        (show max a m.base - m.base < (bytes m.output).length by omega)
        (show max a m.base - m.base + SplitAtIndex.length ret ≤ (bytes m.output).length by
          rw [LawfulSplitAtIndex.length_eq]; omega)
      refine ⟨out, h1, h3, ?_⟩
      rw [hf.covered h (by omega) (by omega) (by omega), pieceBytes, h2, LawfulSplitAtIndex.length_eq,
        List.zip_eq_zip_take_min]
      simp only [List.length_drop, hout]
      rw [Nat.min_eq_right (by omega), List.take_of_length_le (Nat.le_refl (bytes ret).length)]
    have hrej := fun ret j (hret : ret ≠ []) (hlen : max a m.base + ret.length ≤ m.finish) =>
      hf.rejected h (bytes l) ret j (by omega) (fun _ => hl) hlen fun _ => hret
    rw [hcut]
    simp only [hit]
    rcases splitAt_cases right (m.finish - max a m.base) with ⟨ret, hcut2, hret, hle2⟩ | ⟨ret, x, hcut2, hbuf2, hret, hx⟩
    · obtain ⟨out, h1, h2, h3⟩ := hpiece ret (by rw [hret]; exact hle2)
      rw [hcut2]
      simp only [h1, Option.map_some]
      refine ⟨_, _, rfl, .last fs _ (by rw [hf.split]; simp; omega) h2 ⟨m, hm, _, out, h1, rfl⟩ ?_ ?_⟩
      · have := hrej (bytes right) [] hright (by omega)
        rw [List.append_nil] at this
        rw [hbuf, hfs, this]
        simp [MemoryMap.rejected, Lib.Runs.runs]
      · rw [hbuf, ← hret, covered_append, hcov1, List.nil_append, hleft, h3]
    · obtain ⟨out, h1, h2, h3⟩ := hpiece ret (by omega)
      have hend : max a m.base + (bytes ret).length = m.finish := by omega
      have hadd2 : Address.add (max a m.base) (SplitAtIndex.length ret) = m.finish := by
        rw [LawfulSplitAtIndex.length_eq, Address.add_eq (by omega), hend]
      rw [hcut2]
      simp only [h1, Option.map_some, hadd2]
      refine ⟨_, _, rfl, .part fs _ (pre.length + 1) m.finish x h2 ⟨m, hm, _, out, h1, rfl⟩ (by omega) ?_ ?_ ?_ ?_⟩
      · rw [hf.split]
        simp
      · rw [hf.take]
        intro y hy
        rcases List.mem_append.mp hy with hy | hy
        · have := hf.pre y hy
          omega
        · rw [List.mem_singleton.mp hy, hstop]
      · have hne : bytes ret ≠ [] := by
          intro e
          rw [e] at hret
          simp only [List.length_nil] at hret
          omega
        rw [hbuf, hbuf2, hrej (bytes ret) (bytes x) hne (by omega), hfs, hleft, hend]
      · rw [hbuf, hbuf2, covered_append, covered_append, hcov1, List.nil_append, hleft, h3, hend]

theorem scan_spec (h : map.Ready) (it : MemoryMapIterator M T) (buf : T) {i : Nat} :
    ∀ (rest pre : List (MemoryMapping M)), map.mappings = pre ++ rest → (∀ x ∈ pre, x.stop ≤ a) → i ≤ pre.length →
    ∃ ret it', scan it a buf pre.length rest = some (ret, it') ∧ Answered (γ := γ) map i it a buf ret it' := by
  intro rest
  induction rest with
  | nil =>
    intro pre hmap hpre _
    rw [List.append_nil] at hmap
    have hans : Answered (γ := γ) map i it a buf none { it with failOut := it.failOut ++ [] } := by
      refine .nothing [] ?_ fun hin => covered_eq_nil fun j hj hj' => ?_
      · have := Lib.Runs.runs_skip (fun a => ¬ map.Covers a ∧ map.Before a) (bytes buf) [] a fun j hj _ hp => by
          obtain ⟨-, m, hm, hlt⟩ := hp
          have := hpre m (hmap ▸ hm)
          omega
        rw [List.append_nil] at this
        exact this.symm
      · intro ⟨m, hm, hh⟩
        have := hpre m (hmap ▸ hm)
        rw [stop_eq (hin m hm)] at this
        exact absurd hh.2 (by omega)
    rw [List.append_nil] at hans
    exact ⟨none, it, rfl, hans⟩
  | cons m rest ih =>
    intro pre hmap hpre hi
    by_cases hlt : a < m.stop
    · exact scan_first h ⟨hmap, hpre, hlt⟩ hi it buf
    · obtain ⟨ret, it', h1, h2⟩ := ih (pre ++ [m]) (by rw [hmap]; simp) (fun x hx => by
        rcases List.mem_append.mp hx with hx | hx
        · exact hpre x hx
        · rw [List.mem_singleton.mp hx]; omega) (by simp; omega)
      rw [List.length_append, List.length_singleton] at h1
      exact ⟨ret, it', by rw [scan, if_neg hlt, h1], h2⟩

omit lawful [SplitAtIndex T] [LawfulSplitAtIndex T β] in
/-- The binary search skips regions that end at or before the address only. -/
theorem bsearch_spec (h : map.Ready) (it : MemoryMapIterator M T) (hit : it.map = map.mappings) (a : Nat) :
    ∀ x ∈ map.mappings.take (it.bsearch a), x.stop ≤ a := by
  intro x hx
  have hord : Lib.BinarySearch.Ordered (cmpAddr a) map.mappings := by
    refine h.ordered.imp_of_mem fun {m r} hm hr hle hlt => ?_
    have hr' := h.nonempty r hr
    have hrb := h.bounded r hr
    have hstop : m.stop = m.finish := stop_eq (by omega)
    have hmf := m.base_le_finish
    unfold cmpAddr at hlt ⊢
    rw [if_pos]
    by_contra hn
    rw [if_neg (by omega), if_pos (by omega)] at hlt
    exact hlt rfl
  have := (Lib.BinarySearch.searchBy_spec hord).1 x (by rw [bsearch, hit] at hx; exact hx)
  unfold cmpAddr at this
  split at this
  · cases this
  · split at this
    · assumption
    · cases this

/-! ## The run -/

/-- The state between two calls: the regions before the position do not end behind the
    request in hand. -/
structure Waits (map : MemoryMap M) (it : MemoryMapIterator M T) : Prop where
  map_eq : it.map = map.mappings
  pos_le : it.curMapPos ≤ map.mappings.length
  behind : ∀ e ∈ it.curElem, ∀ x ∈ map.mappings.take it.curMapPos, x.stop ≤ e.1
  pos_zero : it.curElem = none → it.curMapPos = 0

/-- The requests not yet answered. -/
def waiting (it : MemoryMapIterator M T) : List (Nat × T) := it.curElem.toList ++ it.inIter

def coveredAll (map : MemoryMap M) (l : List (Nat × T)) : List (γ × β) := l.flatMap fun d => map.covered d.1 (bytes d.2)

def rejectedAll (map : MemoryMap M) (l : List (Nat × T)) : List (Nat × List β) :=
  l.flatMap fun d => map.rejected d.1 (bytes d.2)

/-- A bound on the pieces still to come. -/
def left (map : MemoryMap M) (it : MemoryMapIterator M T) : Nat :=
  (if it.curElem.isSome then map.mappings.length - it.curMapPos else 0) + it.inIter.length * map.mappings.length

omit lawful [SplitAtIndex T] [LawfulSplitAtIndex T β] in
theorem waits_nextElem {it : MemoryMapIterator M T} (hmap : it.map = map.mappings) : Waits map it.nextElem :=
  ⟨hmap, Nat.zero_le _, fun e _ => by simp [nextElem], fun _ => rfl⟩

omit [SplitAtIndex M] [LawfulSplitAtIndex M γ] [SplitAtIndex T] [LawfulSplitAtIndex T β] in
theorem waiting_nextElem (it : MemoryMapIterator M T) : waiting it.nextElem = it.inIter := by
  unfold waiting nextElem
  cases it.inIter <;> rfl

omit [SplitAtIndex M] [LawfulSplitAtIndex M γ] [SplitAtIndex T] [LawfulSplitAtIndex T β] in
theorem left_nextElem (it : MemoryMapIterator M T) : left map it.nextElem = it.inIter.length * map.mappings.length := by
  unfold left nextElem
  cases it.inIter with
  | nil => simp
  | cons d l => simp [Nat.succ_mul, Nat.add_comm]

theorem getNext_spec (h : map.Ready) {it : MemoryMapIterator M T} (hw : Waits map it) {addr : Nat} {buf : T}
    (he : it.curElem = some (addr, buf)) :
    ∃ ret it' pos, it.getNext = some (ret, it') ∧
      Answered (γ := γ) map it.curMapPos { it with curElem := none, curMapPos := pos } addr buf ret it' := by
  have hbehind := hw.behind _ he
  unfold getNext
  rw [he]
  simp only
  generalize hp : (if minBsearchThresh ≤ it.map.length ∧ it.curMapPos = 0 then it.bsearch addr else it.curMapPos) = pos
  have hpos : ∀ x ∈ map.mappings.take pos, x.stop ≤ addr := by
    rw [← hp]
    split
    · exact bsearch_spec h it hw.map_eq addr
    · exact hbehind
  have hle : it.curMapPos ≤ pos := by
    rw [← hp]
    split
    · next h0 => omega
    · exact Nat.le_refl _
  have hrun := fun i hi => scan_spec (γ := γ) h { it with curElem := none, curMapPos := pos } buf (i := i)
    (map.mappings.drop pos) (map.mappings.take pos) (List.take_append_drop pos map.mappings).symm hpos hi
  rw [show it.map.drop pos = map.mappings.drop pos by rw [hw.map_eq]]
  by_cases hlen : pos ≤ map.mappings.length
  · obtain ⟨ret, it', h1, h2⟩ := hrun it.curMapPos (by rw [List.length_take]; omega)
    rw [List.length_take, Nat.min_eq_left hlen] at h1
    exact ⟨ret, it', pos, h1, h2⟩
  · obtain ⟨ret, it', h1, h2⟩ := hrun it.curMapPos (by rw [List.length_take]; have := hw.pos_le; omega)
    rw [List.drop_eq_nil_of_le (by omega)] at h1 ⊢
    simp only [scan] at h1 ⊢
    exact ⟨ret, it', pos, h1, h2⟩

/-- The next piece, if there is one: what is left to answer loses it and what was rejected
    before it. -/
structure Yielded (map : MemoryMap M) (it : MemoryMapIterator M T) (ret : Option (M × T))
    (it' : MemoryMapIterator M T) : Prop where
  waits : Waits map it'
  length : ∀ r ∈ ret, SplitAtIndex.length r.1 = SplitAtIndex.length r.2 ∧ PartOf map r
  done : ret = none → waiting it' = []
  shrinks : ret.isSome → left map it' < left map it
  rejected : ∃ fs, it'.failOut = it.failOut ++ fs ∧
    fs.map rejectedBytes ++ rejectedAll map (waiting it') = rejectedAll map (waiting it)
  covered : map.Inside → (coveredAll map (waiting it) : List (γ × β)) =
    (ret.map pieceBytes).getD [] ++ coveredAll map (waiting it')

theorem nextLoop_spec (h : map.Ready) : ∀ (rounds : Nat) (it : MemoryMapIterator M T), Waits map it →
    (waiting it).length ≤ rounds → (it.curElem = none → it.inIter = []) →
    ∃ ret it', nextLoop rounds it = some (ret, it') ∧ Yielded (γ := γ) map it ret it' := by
  intro rounds
  induction rounds with
  | zero =>
    intro it hw hr _
    have hnil : waiting it = [] := List.eq_nil_of_length_eq_zero (by omega)
    exact ⟨none, it, rfl, hw, nofun, fun _ => hnil, nofun, ⟨[], by simp, rfl⟩, fun _ => rfl⟩
  | succ rounds ih =>
    intro it hw hr hnone
    rw [nextLoop]
    cases he : it.curElem with
    | none =>
      have hnil : waiting it = [] := by rw [waiting, he, hnone he]; rfl
      exact ⟨none, it, rfl, hw, nofun, fun _ => hnil, nofun, ⟨[], by simp, rfl⟩, fun _ => rfl⟩
    | some e =>
      obtain ⟨addr, buf⟩ := e
      have hwait : waiting it = (addr, buf) :: it.inIter := by rw [waiting, he]; rfl
      have hleft : left map it = map.mappings.length - it.curMapPos + it.inIter.length * map.mappings.length := by
        rw [left, he]
        rfl
      have hcov : (coveredAll map (waiting it) : List (γ × β)) = map.covered addr (bytes buf) ++ coveredAll map it.inIter := by
        rw [hwait]
        rfl
      have hrej : (rejectedAll map (waiting it) : List (Nat × List β)) =
          map.rejected addr (bytes buf) ++ rejectedAll map it.inIter := by
        rw [hwait]
        rfl
      obtain ⟨ret, it', pos, hget, hans⟩ := getNext_spec (γ := γ) h hw he
      simp only [Option.isNone_some, Bool.false_eq_true, if_false, hget]
      cases hans with
      | nothing fs hfs hnilc =>
        have hin : (waiting it.nextElem).length ≤ rounds := by
          rw [waiting_nextElem]
          rw [hwait] at hr
          exact Nat.le_of_succ_le_succ hr
        -- the request is dropped, the next one taken
        have hwn : Waits map (nextElem { it with failOut := it.failOut ++ fs, curElem := none, curMapPos := pos }) :=
          waits_nextElem hw.map_eq
        obtain ⟨ret, it', h1, h2⟩ := ih _ hwn hin (fun hn => by
            simp only [nextElem, List.head?_eq_none_iff] at hn ⊢
            rw [hn]; rfl)
        have hsame : waiting (nextElem { it with failOut := it.failOut ++ fs, curElem := none, curMapPos := pos }) = it.inIter :=
          waiting_nextElem _
        have hl : left map (nextElem { it with failOut := it.failOut ++ fs, curElem := none, curMapPos := pos }) =
            it.inIter.length * map.mappings.length := left_nextElem _
        refine ⟨ret, it', h1, h2.waits, h2.length, h2.done, fun hs => ?_, ?_, fun hin => ?_⟩
        · have := h2.shrinks hs
          omega
        · obtain ⟨fs', h3, h4⟩ := h2.rejected
          refine ⟨fs ++ fs', by rw [h3]; simp [nextElem], ?_⟩
          rw [List.map_append, List.append_assoc, h4, hsame, hfs, hrej]
        · rw [hcov, hnilc hin, List.nil_append, ← hsame]
          exact h2.covered hin
      | last fs ret hlt hlen hpart hfs hc =>
        have hsame : waiting (nextElem { it with failOut := it.failOut ++ fs, curElem := none, curMapPos := pos }) = it.inIter :=
          waiting_nextElem _
        refine ⟨some ret, _, rfl, waits_nextElem hw.map_eq, fun r hr => Option.some.inj hr ▸ ⟨hlen, hpart⟩, nofun,
          fun _ => ?_, ⟨fs, rfl, ?_⟩, fun _ => ?_⟩
        · rw [left_nextElem, hleft]
          simp only
          omega
        · rw [hsame, hfs, hrej]
        · rw [hcov, hc, hsame]
          rfl
      | part fs ret pos' addr' x hlen hpart hgt hle hbeh hfs hc =>
        refine ⟨some ret, _, rfl, ⟨hw.map_eq, hle, fun e he => ?_, nofun⟩, fun r hr => Option.some.inj hr ▸ ⟨hlen, hpart⟩, nofun,
          fun _ => ?_, ⟨fs, rfl, ?_⟩, fun _ => ?_⟩
        · rw [← Option.some.inj he]
          exact hbeh
        · rw [hleft]
          simp only [left, Option.isSome_some, if_true]
          omega
        · rw [hrej, ← hfs, List.append_assoc]
          rfl
        · rw [hcov, hc, List.append_assoc]
          rfl

theorem next_spec (h : map.Ready) {it : MemoryMapIterator M T} (hw : Waits map it) :
    ∃ ret it', it.next = some (ret, it') ∧ Yielded (γ := γ) map it ret it' := by
  unfold MemoryMapIterator.next
  cases he : it.curElem with
  | some e =>
    simp only [Option.isNone_some, Bool.false_eq_true, if_false]
    exact nextLoop_spec h _ it hw (by rw [waiting, he]; simp) (by rw [he]; nofun)
  | none =>
    simp only [Option.isNone_none, if_true]
    have hit : ({ it with curElem := it.inIter.head?, inIter := it.inIter.tail } : MemoryMapIterator M T) = it.nextElem := by
      rw [nextElem, hw.pos_zero he]
    rw [hit]
    have hsame : waiting it.nextElem = waiting it := by
      rw [waiting_nextElem, waiting, he]
      rfl
    have hl : left map it.nextElem = left map it := by
      rw [left_nextElem, left, he]
      simp
    obtain ⟨ret, it', h1, h2⟩ := nextLoop_spec (γ := γ) h (it.nextElem.inIter.length + 1) it.nextElem
      (waits_nextElem hw.map_eq) (by rw [waiting]; cases it.nextElem.curElem <;> simp) (fun hn => by
        simp only [nextElem, List.head?_eq_none_iff] at hn ⊢
        rw [hn]; rfl)
    refine ⟨ret, it', h1, h2.waits, h2.length, h2.done, fun hs => hl ▸ h2.shrinks hs, ?_, fun hin => ?_⟩
    · rw [← hsame]
      exact h2.rejected
    · rw [← hsame]
      exact h2.covered hin

theorem collect_spec (h : map.Ready) : ∀ (rounds : Nat) (it : MemoryMapIterator M T), Waits map it →
    left map it < rounds → ∃ rets fs, it.collect rounds = some (rets, it.failOut ++ fs) ∧
      (∀ r ∈ rets, SplitAtIndex.length r.1 = SplitAtIndex.length r.2 ∧ PartOf map r) ∧
      fs.map rejectedBytes = rejectedAll map (waiting it) ∧
      (map.Inside → rets.flatMap pieceBytes = (coveredAll map (waiting it) : List (γ × β))) := by
  intro rounds
  induction rounds with
  | zero => intro it _ hl; omega
  | succ rounds ih =>
    intro it hw hl
    obtain ⟨ret, it', hnext, hy⟩ := next_spec (γ := γ) h hw
    obtain ⟨fs, hfail, hrej⟩ := hy.rejected
    have hcov := hy.covered
    unfold collect
    rw [hnext]
    cases ret with
    | none =>
      rw [hy.done rfl] at hrej hcov
      refine ⟨[], fs, by simp only [hfail], nofun, ?_, fun hin => (hcov hin).symm⟩
      rw [← hrej]
      exact (List.append_nil _).symm
    | some ret =>
      obtain ⟨rets, fs', hc, hlen, hr, hin⟩ := ih it' hy.waits (by have := hy.shrinks rfl; omega)
      refine ⟨ret :: rets, fs ++ fs', ?_, fun r hr' => ?_, ?_, fun hi => ?_⟩
      · simp only [hc, Option.map_some, hfail, List.append_assoc]
      · rcases List.mem_cons.mp hr' with rfl | hr'
        · exact hy.length r rfl
        · exact hlen r hr'
      · rw [List.map_append, hr, hrej]
      · rw [List.flatMap_cons, hin hi, hcov hi]
        rfl

theorem mapAddrs_spec (h : map.Ready) (iter : List (Nat × T)) :
    ∃ rets fails, map.mapAddrs iter = some (rets, fails) ∧
      (∀ r ∈ rets, SplitAtIndex.length r.1 = SplitAtIndex.length r.2 ∧ PartOf map r) ∧
      fails.map rejectedBytes = rejectedAll map iter ∧
      (map.Inside → rets.flatMap pieceBytes = (coveredAll map iter : List (γ × β))) := by
  have hw : Waits map (MemoryMapIterator.new map.mappings iter) :=
    ⟨rfl, Nat.zero_le _, nofun, fun _ => rfl⟩
  exact collect_spec h _ _ hw (by simp [left, MemoryMapIterator.new])

end Lookup

end MemoryMapIterator

/-! ## Main results -/

namespace MemoryMap

open MemoryMapIterator

/-- Over sorted, disjoint regions that end below the top of the address space the pieces
    are the covered bytes of the requests, in order, each with its byte of the output. -/
theorem mapIter_covered (map : MemoryMap M) (h : map.Ready) (hin : map.Inside) (iter : List (PhysicalAddress × T)) :
    ∃ rets fails, map.mapIter iter = some (rets, fails) ∧
      (∀ r ∈ rets, SplitAtIndex.length r.1 = SplitAtIndex.length r.2) ∧
      rets.flatMap pieceBytes = (iter.flatMap fun d => map.covered d.1.address (bytes d.2) : List (γ × β)) := by
  obtain ⟨rets, fails, h1, h2, -, h4⟩ := mapAddrs_spec (γ := γ) h (iter.map fun d => (d.1.address, d.2))
  exact ⟨rets, fails, h1, fun r hr => (h2 r hr).1, by rw [h4 hin, coveredAll, List.flatMap_map]⟩

/-- The runs rejected are all the uncovered runs exactly when each uncovered byte has a
    region behind it. -/
theorem rejectedAll_iff (map : MemoryMap M) (l : List (Nat × T)) :
    rejectedAll map l = (l.flatMap fun d => map.uncovered d.1 (bytes d.2)) ↔
      ∀ d ∈ l, ∀ a, d.1 ≤ a → a < d.1 + SplitAtIndex.length d.2 → ¬ map.Covers a → map.Before a := by
  constructor
  · intro he
    -- the bytes of both lists of runs
    have hflat := congrArg (List.flatMap fun r : Nat × List β => r.2.zipIdx r.1) he
    simp only [rejectedAll, List.flatMap_assoc, MemoryMap.rejected, MemoryMap.uncovered, Lib.Runs.runs_flat] at hflat
    intro d hd a h1 h2 hn
    rw [LawfulSplitAtIndex.length_eq] at h2
    have hx : ((bytes d.2)[a - d.1], a) ∈ (bytes d.2).zipIdx d.1 :=
      List.mk_mem_zipIdx_iff_le_and_getElem?_sub.mpr ⟨h1, List.getElem?_eq_getElem (by omega)⟩
    have hmem : ((bytes d.2)[a - d.1], a) ∈ l.flatMap fun d =>
        ((bytes d.2).zipIdx d.1).filter fun y => decide (¬ map.Covers y.2) :=
      List.mem_flatMap.mpr ⟨d, hd, List.mem_filter.mpr ⟨hx, by simpa using hn⟩⟩
    rw [← hflat] at hmem
    obtain ⟨d', -, hmem⟩ := List.mem_flatMap.mp hmem
    have := (List.mem_filter.mp hmem).2
    simp only [decide_eq_true_eq] at this
    exact this.2
  · intro hall
    unfold rejectedAll
    refine List.flatMap_congr fun d hd => Lib.Runs.runs_congr _ _ _ _ fun i hi hi' => ?_
    exact ⟨fun hp => hp.1, fun hp => ⟨hp, hall d hd i hi (by rw [LawfulSplitAtIndex.length_eq]; exact hi') hp⟩⟩

include lawful in
/-- `fail_out` holds the maximal uncovered runs, each with its address, exactly when no
    uncovered byte of a request lies behind the ends of all regions. -/
theorem mapIter_failed_iff (map : MemoryMap M) (h : map.Ready) :
    (∀ iter : List (PhysicalAddress × T),
      ((∃ rets fails, map.mapIter iter = some (rets, fails) ∧
          fails.map rejectedBytes = iter.flatMap fun d => map.uncovered d.1.address (bytes d.2)) ↔
        ∀ d ∈ iter, ∀ a, d.1.address ≤ a → a < d.1.address + SplitAtIndex.length d.2 → ¬ map.Covers a → map.Before a)) ∧
    ∀ (addr : Nat) (buf : T),
      ((∃ rets fails, map.map addr buf = some (rets, fails) ∧
          fails.map rejectedBytes = map.uncovered addr (bytes buf)) ↔
        ∀ a, addr ≤ a → a < addr + SplitAtIndex.length buf → ¬ map.Covers a → map.Before a) := by
  have key : ∀ l : List (Nat × T),
      ((∃ rets fails, map.mapAddrs l = some (rets, fails) ∧
          fails.map rejectedBytes = l.flatMap fun d => map.uncovered d.1 (bytes d.2)) ↔
        ∀ d ∈ l, ∀ a, d.1 ≤ a → a < d.1 + SplitAtIndex.length d.2 → ¬ map.Covers a → map.Before a) := by
    intro l
    obtain ⟨rets, fails, h1, -, h2, -⟩ := mapAddrs_spec (γ := γ) h l
    rw [← rejectedAll_iff, ← h2, h1]
    constructor
    · intro ⟨_, _, he, hf⟩
      cases he
      exact hf
    · exact fun hf => ⟨rets, fails, rfl, hf⟩
  constructor
  · intro iter
    have := key (iter.map fun d => (d.1.address, d.2))
    simpa only [List.flatMap_map, List.forall_mem_map, MemoryMap.mapIter] using this
  · intro addr buf
    have := key [(addr, buf)]
    simpa only [List.flatMap_singleton, List.mem_singleton, forall_eq, MemoryMap.map] using this

/-! ## Two regions -/

/-- Two regions with a hole between them. -/
def twoRegions : MemoryMap (Nat × Nat) := ⟨[⟨0x1000, (0, 0x1000)⟩, ⟨0x3000, (0x2000, 0x1000)⟩]⟩

theorem twoRegions_ready : twoRegions.Ready := ⟨by decide, by decide, by decide⟩

/-- A request over both regions and the hole. -/
theorem mapIter_covered_twoRegions :
    ∃ rets fails, twoRegions.mapIter [(PhysicalAddress.ofAddress 0xfff, (⟨0, 0, 0x3002⟩ : SliceMut))] = some (rets, fails) ∧
      rets.flatMap pieceBytes = twoRegions.covered 0xfff (bytes (⟨0, 0, 0x3002⟩ : SliceMut)) := by
  obtain ⟨rets, fails, h1, -, h2⟩ := mapIter_covered twoRegions twoRegions_ready (by unfold MemoryMap.Inside; decide)
    [(PhysicalAddress.ofAddress 0xfff, (⟨0, 0, 0x3002⟩ : SliceMut))]
  rw [List.flatMap_singleton] at h2
  exact ⟨rets, fails, h1, h2⟩

theorem mapIter_failed_twoRegions :
    ∃ rets fails, twoRegions.map 0x1fff (⟨0, 0, 0x1002⟩ : SliceMut) = some (rets, fails) ∧
      fails.map rejectedBytes = twoRegions.uncovered 0x1fff (bytes (⟨0, 0, 0x1002⟩ : SliceMut)) :=
  ((mapIter_failed_iff twoRegions twoRegions_ready).2 0x1fff (⟨0, 0, 0x1002⟩ : SliceMut)).mpr
    fun a h1 h2 _ => ⟨⟨0x3000, (0x2000, 0x1000)⟩, by decide, by
      have : SplitAtIndex.length (⟨0, 0, 0x1002⟩ : SliceMut) = 0x1002 := rfl
      have : (⟨0x3000, (0x2000, 0x1000)⟩ : MemoryMapping (Nat × Nat)).stop = 0x4000 := by decide
      omega⟩

/-- The tail of a request behind the last region is not put into `fail_out`. -/
theorem tail_not_failed :
    twoRegions.map 0x3fff (⟨0, 0, 2⟩ : SliceMut) = some ([((0x2fff, 1), ⟨0, 0, 1⟩)], []) ∧
      ¬ ∃ rets fails, twoRegions.map 0x3fff (⟨0, 0, 2⟩ : SliceMut) = some (rets, fails) ∧
        fails.map rejectedBytes = twoRegions.uncovered 0x3fff (bytes (⟨0, 0, 2⟩ : SliceMut)) := by
  have hrun : twoRegions.map 0x3fff (⟨0, 0, 2⟩ : SliceMut) = some ([((0x2fff, 1), ⟨0, 0, 1⟩)], []) := by decide +kernel
  have hmiss : twoRegions.uncovered 0x3fff (bytes (⟨0, 0, 2⟩ : SliceMut)) = [(0x4000, [(0, 1)])] := by decide +kernel
  refine ⟨hrun, ?_⟩
  intro ⟨rets, fails, he, hf⟩
  rw [hrun] at he
  cases he
  rw [hmiss] at hf
  cases hf

end MemoryMap

end Jiaa
