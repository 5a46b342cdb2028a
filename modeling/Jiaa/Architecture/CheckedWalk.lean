/-
  Jiaa.Architecture.CheckedWalk — the page walk with checked sums and differences
  (memflow `architecture/mmu_spec.rs`: `virt_to_phys_iter`;
  `architecture/mmu_spec/translate_data.rs`: `recalc_minmax`, `split_at_inclusive`).

  The definitions are those of `Jiaa.Architecture.VirtToPhys` and
  `Jiaa.Architecture.TranslateData` as a build with overflow checks runs them: `none` where
  a sum or difference does not fit. `page_chunks` wraps by name (`wrapping_add`,
  `wrapping_sub`) apart from its `end_len + 1`, and the filter, which runs before all of
  them, is left as it is; the `some none` of `virtToPhysIterChecked` is its `unwrap`.

  No chunk of the walk is ever empty, and its pieces end below `2 ^ 64` (`Full`); a chunk
  without a piece keeps the bounds the folds start from, `!0` and `0`.

  - `splitAtInclusiveChecked_eq`, `collectChecked_eq`: a full chunk is cut without a wrap,
    into full chunks;
  - `walkLoopChecked_eq`: the rounds;
  - `neverWraps_iff`: a batch some request of which is not empty, and none of which has a
    kept part that ends at the top.
-/

import Jiaa.Architecture.Conservation
import Mathlib.Algebra.BigOperators.Group.List.Basic

namespace Jiaa

namespace Address

/-- `u64 + u64` and `u64 - u64` where they fit. -/
def checkedAdd (a b : Nat) : Option Nat := if a + b < 2 ^ 64 then some (a + b) else none

def checkedSub (a b : Nat) : Option Nat := if b ≤ a then some (a - b) else none

theorem checkedAdd_eq {a b : Nat} (h : a + b < 2 ^ 64) : checkedAdd a b = some (add a b) := by
  rw [checkedAdd, if_pos h, add_eq h]

theorem checkedAdd_none {a b : Nat} (h : 2 ^ 64 ≤ a + b) : checkedAdd a b = none := if_neg (by omega)

theorem checkedSub_eq {a b : Nat} (h : b ≤ a) (ha : a < 2 ^ 64) : checkedSub a b = some (sub a b) := by
  rw [checkedSub, if_pos h, sub_eq h ha]

theorem checkedSub_none {a b : Nat} (h : a < b) : checkedSub a b = none := if_neg (by omega)

end Address

/-! ## The checked build -/

section Defs

variable {T : Type*} [SplitAtIndex T]

namespace TranslateData

def endAddrChecked (d : TranslateData T) : Option Nat := Address.checkedAdd d.addr (SplitAtIndex.length d)

def splitInclusiveAtChecked (self : TranslateData T) (idx : Nat) :
    Option (TranslateData T × Option (TranslateData T)) :=
  let (bleft, bright) := splitInclusiveAt self.buf idx
  match bright with
  | none => some (⟨self.addr, bleft⟩, none)
  | some buf =>
    (Address.checkedAdd self.addr (SplitAtIndex.length bleft)).map fun addr => (⟨self.addr, bleft⟩, some ⟨addr, buf⟩)

def foldMinmaxChecked : List (TranslateData T) → Nat × Nat → Option (Nat × Nat)
  | [], bounds => some bounds
  | elem :: vec, (cmin, cmax) =>
    elem.endAddrChecked.bind fun last => foldMinmaxChecked vec (min cmin elem.addr, max cmax last)

end TranslateData

namespace TranslationChunk

def recalcMinmaxChecked (self : TranslationChunk T) : Option (TranslationChunk T) :=
  (TranslateData.foldMinmaxChecked self.vec (Address.invalid, 0)).map fun (min, max) =>
    { self with minAddr := min, maxAddr := max }

namespace SplitState

def keepLeftChecked (st : SplitState T) (left : TranslateData T) : Option (SplitState T) :=
  left.endAddrChecked.map fun last =>
    { st with leftMin := min st.leftMin left.addr, leftMax := max st.leftMax last }

def pushRightChecked (st : SplitState T) (right : TranslateData T) : Option (SplitState T) :=
  right.endAddrChecked.map fun last =>
    { st with
      vecRight := st.vecRight ++ [right]
      rightMin := min st.rightMin right.addr
      rightMax := max st.rightMax last }

end SplitState

def splitBodyChecked (endAddr : Nat) (st : SplitState T) (data : TranslateData T) :
    Option (SplitState T × Option (TranslateData T)) :=
  if data.addr ≤ endAddr then
    (Address.checkedSub endAddr data.addr).bind fun idx =>
    (data.splitInclusiveAtChecked idx).bind fun (left, right) =>
    (if 0 < SplitAtIndex.length left then (st.keepLeftChecked left).map fun st => (st, some left)
      else some (st, none)).bind fun (st, stays) =>
    (right.elim (some st) st.pushRightChecked).map fun st => (st, stays)
  else
    (st.pushRightChecked data).map fun st => (st, none)

def splitAtInclusiveChecked (self : TranslationChunk T) (idx : Nat) :
    Option (TranslationChunk T × Option (TranslationChunk T)) :=
  (Address.checkedSub self.maxAddr self.minAddr).bind fun len =>
  if len ≤ idx then some (self, none)
  else
    (Address.checkedSub len 1).bind fun last =>
    (Address.checkedAdd self.minAddr (min last idx)).bind fun endAddr =>
    (Lib.RevLoop.tryRetainRev (splitBodyChecked endAddr) self.vec.length
      ⟨[], Address.invalid, Address.null, Address.invalid, Address.null⟩ self.vec).map fun (st, vec) =>
    let left := { self with vec := vec, minAddr := st.leftMin, maxAddr := st.leftMax }
    if st.vecRight.isEmpty then (left, none)
    else (left, some ⟨self.ptAddr, st.vecRight, st.rightMin, st.rightMax⟩)

/-- The chunks `page_chunks` gives out. -/
def collectChecked (pageSize : Nat) : Nat → Option (TranslationChunk T) → Nat → Option (List (TranslationChunk T))
  | 0, _, _ => some []
  | _ + 1, none, _ => some []
  | rounds + 1, some buf, curAddress =>
    let endLen := PageChunkIterator.endLen curAddress pageSize 0
    (buf.splitAtInclusiveChecked endLen).bind fun (head, tail) =>
    (Address.checkedAdd endLen 1).bind fun n =>
    (collectChecked pageSize rounds tail (Address.add curAddress n)).map fun rest => head :: rest

end TranslationChunk

namespace ArchMMUSpec

variable {M : Type*} (self : ArchMMUSpec)

def cutChunkChecked (ptStep nextPageSize : Nat) (trChunk : TranslationChunk T) : Option (List (TranslationChunk T)) :=
  (TranslationChunk.collectChecked nextPageSize (SplitAtIndex.length trChunk + 1) (some trChunk) trChunk.minAddr).map
    fun chunks => chunks.map fun chunk => { chunk with ptAddr := self.vtopStep chunk.ptAddr chunk.minAddr ptStep }

def stepChunkChecked (ptStep nextPageSize : Nat) (_ : Nat) (o : Outputs T) (trChunk : TranslationChunk T) :
    Option (Outputs T × List (TranslationChunk T)) :=
  if !self.checkEntry trChunk.ptAddr ptStep then some (o.failChunk Error.virtualTranslate trChunk, [])
  else if self.isFinalMapping trChunk.ptAddr ptStep then
    some ({ o with out := o.out ++ trChunk.vec.map fun entry =>
        (self.getPhysPage trChunk.ptAddr entry.addr ptStep, entry.buf) }, [])
  else (self.cutChunkChecked ptStep nextPageSize trChunk).map fun chunks => (o, chunks)

variable [PhysicalMemory M]

def walkLoopChecked : Nat → Nat → M → List UInt8 → Outputs T → List (TranslationChunk T) → Option (Outputs T × M)
  | 0, _, mem, _, o, _ => some (o, mem)
  | rounds + 1, ptStep, mem, ptBuf, o, data =>
    (Address.checkedAdd ptStep 1).bind fun next =>
    (Lib.RevLoop.tryDrainRev (self.stepChunkChecked ptStep (self.pageSizeStepUnchecked next)) data.length o data).bind
      fun (o, data) =>
        if data.isEmpty then some (o, mem)
        else
          match self.readPtAddressIter mem ptStep data ptBuf o with
          | (mem, _, .error err) => some (data.foldl (fun o chunk => o.failChunk err chunk) o, mem)
          | (mem, ptBuf, .ok (data, o)) => walkLoopChecked rounds (ptStep + 1) mem ptBuf o data

/-- The chunk of the table base is made empty, filled by the filter and then measured. -/
def virtToPhysIterChecked (mem : M) (dtb : Nat) (addrs : List (Nat × T)) : Option (Option (Outputs T × M)) :=
  match self.filterAll addrs [] [] with
  | none => some none
  | some (vec, outFail) =>
    { TranslationChunk.new (T := T) dtb [] with vec := vec }.recalcMinmaxChecked.bind fun chunk =>
    (self.walkLoopChecked self.splitCount 0 mem [] ⟨[], outFail⟩ [chunk]).map some

/-- No sum or difference of the walk of a batch leaves the machine's words. -/
def NeverWraps (mem : M) (dtb : Nat) (addrs : List (Nat × T)) : Prop :=
  (self.virtToPhysIterChecked mem dtb addrs).isSome = true

end ArchMMUSpec

end Defs

/-! ## Full chunks -/

namespace TranslateData

variable {T β : Type*} [SplitAtIndex T]

theorem foldMinmaxChecked_eq (v : List (TranslateData T)) : ∀ m n : Nat,
    (∀ d ∈ v, d.addr + SplitAtIndex.length d < 2 ^ 64) →
    foldMinmaxChecked v (m, n) = some (minOf m v, maxOf n v) := by
  induction v with
  | nil => intro m n _; rfl
  | cons d v ih =>
    intro m n h
    have hd := Address.checkedAdd_eq (h d (List.mem_cons_self ..))
    simp only [foldMinmaxChecked, endAddrChecked, hd, Option.bind_some]
    exact ih _ _ fun x hx => h x (List.mem_cons_of_mem _ hx)

theorem foldMinmaxChecked_none (v : List (TranslateData T)) : ∀ m n : Nat,
    (∃ d ∈ v, 2 ^ 64 ≤ d.addr + SplitAtIndex.length d) → foldMinmaxChecked v (m, n) = none := by
  induction v with
  | nil => rintro m n ⟨d, hd, -⟩; cases hd
  | cons d v ih =>
    intro m n ⟨x, hx, hlen⟩
    by_cases hd : 2 ^ 64 ≤ d.addr + SplitAtIndex.length d
    · simp only [foldMinmaxChecked, endAddrChecked, Address.checkedAdd_none hd, Option.bind_none]
    · rcases List.mem_cons.mp hx with rfl | hx
      · omega
      · simp only [foldMinmaxChecked, endAddrChecked, Address.checkedAdd_eq (show d.addr + SplitAtIndex.length d < 2 ^ 64 by omega),
          Option.bind_some]
        exact ih _ _ ⟨x, hx, hlen⟩

variable [lawful : LawfulSplitAtIndex T β]

include lawful in
theorem splitInclusiveAtChecked_eq {d : TranslateData T} (hd : TranslationChunk.Piece d) (idx : Nat) :
    d.splitInclusiveAtChecked idx = some (splitInclusiveAt d idx) := by
  have hcut := LawfulSplitAtIndex.cutInclusiveAt d.buf idx
  have hwrap := hd.2
  have hl := length_cut_left hcut
  rcases hr : splitInclusiveAt d.buf idx with ⟨left, _ | right⟩
  · simp only [splitInclusiveAtChecked, splitInclusiveAt, hr]
    rfl
  · rw [hr] at hcut hl
    have hlt := (length_cut_right hcut rfl).1
    have hbuf : SplitAtIndex.length d = SplitAtIndex.length d.buf := rfl
    have hsum := Address.checkedAdd_eq (a := d.addr) (b := SplitAtIndex.length left) (by simp only at hl; omega)
    simp only [splitInclusiveAtChecked, splitInclusiveAt, hr, hsum]
    rfl

end TranslateData

namespace TranslationChunk

open TranslateData

variable {T β : Type*} [SplitAtIndex T]

/-- A chunk that holds something, nothing of it empty or at the top. -/
structure Full (c : TranslationChunk T) : Prop where
  ok : c.Ok
  nonempty : c.vec ≠ []

theorem Full.withPt {c : TranslationChunk T} (h : c.Full) (pt : Nat) : Full { c with ptAddr := pt } :=
  ⟨⟨h.ok.pieces, h.ok.bounds, h.ok.exact⟩, h.nonempty⟩

theorem Piece.endAddrChecked {d : TranslateData T} (h : Piece d) : d.endAddrChecked = some d.endAddr :=
  Address.checkedAdd_eq h.2

variable [lawful : LawfulSplitAtIndex T β]

include lawful in
theorem splitBodyChecked_eq {e : Nat} (he : e < 2 ^ 64) {d : TranslateData T} (hd : Piece d) (st : SplitState T) :
    splitBodyChecked e st d = some (splitBody e st d) := by
  by_cases h : d.addr ≤ e
  · obtain ⟨l, r, hs, hpos, -, -, ⟨hl, -⟩, hr⟩ := parts_of_le hd h
    have hidx := Address.checkedSub_eq h he
    rw [Address.sub_eq h he] at hidx
    simp only [splitBodyChecked, splitBody, if_pos h, hidx, Address.sub_eq h he, splitInclusiveAtChecked_eq hd, hs,
      Option.bind_some, if_pos hpos, SplitState.keepLeftChecked, hl.endAddrChecked, Option.map_some]
    cases r with
    | none => rfl
    | some x =>
      simp only [Option.elim_some, SplitState.pushRightChecked, (hr x rfl).1.endAddrChecked, Option.map_some]
      rfl
  · simp only [splitBodyChecked, splitBody, if_neg h, SplitState.pushRightChecked, hd.endAddrChecked, Option.map_some]
    rfl

include lawful in
/-- A full chunk is cut without a wrap. -/
theorem splitAtInclusiveChecked_eq {c : TranslationChunk T} (hc : c.Full) (idx : Nat) :
    c.splitAtInclusiveChecked idx = some (c.splitAtInclusive idx) := by
  obtain ⟨d, hd, hmax⟩ := (hc.ok.exact hc.nonempty).2
  have hp := hc.ok.pieces d hd
  have hb := hc.ok.bounds d hd
  have hlt := hp.2
  have hpos := hp.1
  have hlen := Address.checkedSub_eq (a := c.maxAddr) (b := c.minAddr) (by omega) (by omega)
  have hsub := Address.sub_eq (a := c.maxAddr) (b := c.minAddr) (by omega) (by omega)
  rw [hsub] at hlen
  unfold splitAtInclusiveChecked splitAtInclusive
  simp only [hlen, hsub, Option.bind_some]
  by_cases hle : c.maxAddr - c.minAddr ≤ idx
  · rw [if_pos hle, if_pos hle]
  · have hone : Address.checkedSub (c.maxAddr - c.minAddr) 1 = some (c.maxAddr - c.minAddr - 1) := if_pos (by omega)
    have hend := Address.checkedAdd_eq (a := c.minAddr) (b := min (c.maxAddr - c.minAddr - 1) idx) (by omega)
    have hloop := Lib.RevLoop.tryRetainRev_eq c.vec.reverse
      (⟨[], Address.invalid, Address.null, Address.invalid, Address.null⟩ : SplitState T) []
      fun x hx st => splitBodyChecked_eq (Address.add_lt c.minAddr (min (c.maxAddr - c.minAddr - 1) idx))
        (hc.ok.pieces x (List.mem_reverse.mp hx)) st
    simp only [List.length_reverse, List.reverse_reverse, List.append_nil] at hloop
    rw [if_neg hle, if_neg hle, hone, Option.bind_some, hend, Option.bind_some, hloop, Option.map_some]

include lawful in
/-- What `page_chunks` cuts a full chunk into is full, and no sum of it wraps. -/
theorem collectChecked_eq {s : Nat} (hs : 0 < s) (hs' : s < 2 ^ 64) (hd : s ∣ 2 ^ 64) :
    ∀ (n : Nat) (c : TranslationChunk T) (cur : Nat), c.Full → cur < 2 ^ 64 →
    collectChecked s n (some c) cur =
        some ((PageChunkIterator.collect n ⟨some c, cur, s, fun _ _ _ => true, 0⟩).map (·.2)) ∧
      ∀ g ∈ (PageChunkIterator.collect n ⟨some c, cur, s, fun _ _ _ => true, 0⟩).map (·.2), g.Full := by
  intro n
  induction n with
  | zero => intro c cur _ _; exact ⟨rfl, nofun⟩
  | succ n ih =>
    intro c cur hc hcur
    have hend := endLen_zero hcur hs hs' hd
    obtain ⟨l, r, hsplit, hl, -, hlne, -, -, hr⟩ := splitAtInclusive_spec hc.ok hc.nonempty (s - 1 - cur % s)
    have hnext := next_cut s cur (hend.symm ▸ hsplit)
    rw [hend] at hnext
    have hone := Address.checkedAdd_eq (a := s - 1 - cur % s) (b := 1) (by omega)
    have hcheck := splitAtInclusiveChecked_eq hc (s - 1 - cur % s)
    rw [hsplit] at hcheck
    rw [collect_cons n hnext, List.map_cons]
    simp only [collectChecked, hend, hcheck, hone, Option.bind_some]
    rcases hr with ⟨rfl, -⟩ | ⟨c', rfl, hc', -, hcne, -⟩
    · have hnil : collectChecked s n (none : Option (TranslationChunk T))
          (Address.add cur (Address.add (s - 1 - cur % s) 1)) = some [] := by
        cases n <;> rfl
      rw [collect_none n rfl, hnil]
      refine ⟨rfl, fun g hg => ?_⟩
      rw [List.map_nil, List.mem_singleton] at hg
      exact hg ▸ ⟨hl, hlne⟩
    · obtain ⟨h1, h2⟩ := ih c' _ ⟨hc', hcne⟩ (Address.add_lt cur (Address.add (s - 1 - cur % s) 1))
      rw [h1]
      refine ⟨rfl, fun g hg => ?_⟩
      rcases List.mem_cons.mp hg with rfl | hg
      · exact ⟨hl, hlne⟩
      · exact h2 g hg

/-- The chunk of an empty table base: its bounds are those the folds start from. -/
theorem collectChecked_none (s pt n cur : Nat) :
    collectChecked s (n + 1) (some (⟨pt, [], Address.invalid, 0⟩ : TranslationChunk T)) cur = none := by
  have hnone : Address.checkedSub 0 Address.invalid = none := Address.checkedSub_none (by decide)
  simp only [collectChecked, splitAtInclusiveChecked, hnone, Option.bind_none]

end TranslationChunk

/-! ## The walk -/

namespace ArchMMUSpec

open TranslationChunk

variable {M T β : Type*} [SplitAtIndex T] [lawful : LawfulSplitAtIndex T β] (spec : ArchMMUSpec)

omit [SplitAtIndex T] lawful in
theorem splitCount_le : spec.splitCount ≤ 64 := by
  have h := List.length_le_sum_of_one_le spec.virtualAddressSplits spec.splits_pos
  have h1 := spec.splits_sum_le
  have h2 := spec.addrSize_le
  unfold splitCount
  omega

include lawful in
/-- One full chunk of a step is sorted without a wrap, into full chunks. -/
theorem stepChunkChecked_eq {step : Nat} (hs : step < spec.splitCount) {c : TranslationChunk T} (hc : c.Full)
    (i : Nat) (o : Outputs T) :
    spec.stepChunkChecked step (spec.pageSizeStepUnchecked (step + 1)) i o c = some (spec.stepChunk step i o c) ∧
      ∀ g ∈ (spec.stepChunk step i o c).2, g.Full := by
  unfold stepChunkChecked stepChunk
  by_cases hent : spec.checkEntry c.ptAddr step = true
  · by_cases hf : spec.isFinalMapping c.ptAddr step = true
    · simp [hent, hf]
    · simp only [hent, hf, Bool.not_true, Bool.false_eq_true, if_false]
      obtain ⟨d, hd, hmax⟩ := (hc.ok.exact hc.nonempty).2
      have hp := (hc.ok.pieces d hd).2
      have hb := hc.ok.bounds d hd
      obtain ⟨h1, h2⟩ := collectChecked_eq (spec.pageSize_pos (step + 1)) (spec.pageSize_lt hs)
        (spec.pageSize_dvd_word (step + 1)) (SplitAtIndex.length c + 1) c c.minAddr hc (by omega)
      refine ⟨?_, fun g hg => ?_⟩
      · rw [cutChunkChecked, h1, Option.map_some, Option.map_some, List.map_map]
        rfl
      · obtain ⟨p, hp, rfl⟩ := List.mem_map.mp hg
        exact (h2 p.2 (List.mem_map_of_mem hp)).withPt _
  · simp [hent]

omit lawful in
/-- The loop over the entries read gives a chunk a new entry or drops it. -/
theorem full_readPtAddressIter [PhysicalMemory M] {mem mem' : M} {step : Nat} {cs cs' : List (TranslationChunk T)}
    {ptBuf ptBuf' : List UInt8} {o o' : Outputs T} (hcs : ∀ g ∈ cs, g.Full)
    (h : spec.readPtAddressIter mem step cs ptBuf o = (mem', ptBuf', .ok (cs', o'))) : ∀ g ∈ cs', g.Full := by
  have hentry : ∀ g ∈ cs, ∀ i st, ∀ y ∈ (spec.filterEntry step i st g).2, y.Full := by
    intro g hg i st y hy
    unfold filterEntry at hy
    rcases hrem : Lib.RevLoop.swapRemove st.ptRead i with _ | ⟨b, rest⟩
    · rw [hrem] at hy
      cases hy
    · simp only [hrem] at hy
      split at hy
      · rw [List.mem_singleton.mp hy]
        exact (hcs g hg).withPt _
      · cases hy
  unfold readPtAddressIter at h
  rcases hread : PhysicalMemory.physReadRawList mem (spec.ptReads step cs ptBuf) with ⟨m, bufs, _ | u⟩
  · simp only [hread] at h
    cases h
  · simp only [hread, Prod.mk.injEq, Except.ok.injEq] at h
    obtain ⟨-, -, rfl, -⟩ := h
    exact Lib.RevLoop.forall_drainRev hentry _

include lawful in
/-- The rounds from `step` on, over full chunks. -/
theorem walkLoopChecked_eq [PhysicalMemory M] : ∀ (rounds step : Nat) (mem : M) (ptBuf : List UInt8) (o : Outputs T)
    (cs : List (TranslationChunk T)), step + rounds = spec.splitCount → (∀ g ∈ cs, g.Full) →
    spec.walkLoopChecked rounds step mem ptBuf o cs = some (spec.walkLoop rounds step mem ptBuf o cs) := by
  intro rounds
  induction rounds with
  | zero => intro step mem ptBuf o cs _ _; rfl
  | succ rounds ih =>
    intro step mem ptBuf o cs hs hcs
    have hcount := spec.splitCount_le
    have hstep := fun (c : TranslationChunk T) (hc : c ∈ cs) => spec.stepChunkChecked_eq (by omega : step < spec.splitCount) (hcs c hc)
    have hnext : Address.checkedAdd step 1 = some (step + 1) := if_pos (by omega)
    have hsort := Lib.RevLoop.tryDrainRev_eq cs.reverse o [] fun c hc i o => (hstep c (List.mem_reverse.mp hc) i o).1
    simp only [List.length_reverse, List.reverse_reverse, List.append_nil] at hsort
    have hfull := Lib.RevLoop.forall_drainRev (fun c hc i o => (hstep c hc i o).2) o
    unfold walkLoopChecked walkLoop
    rw [hnext, Option.bind_some, hsort, Option.bind_some]
    generalize Lib.RevLoop.drainRev (spec.stepChunk step) cs.length o cs = r at hfull
    obtain ⟨o1, cs1⟩ := r
    simp only at hfull ⊢
    by_cases he : cs1.isEmpty = true
    · rw [if_pos he, if_pos he]
    · rw [if_neg he, if_neg he]
      rcases hr : spec.readPtAddressIter mem step cs1 ptBuf o1 with ⟨mem', ptBuf', e | ⟨cs', o'⟩⟩
      · rfl
      · exact ih (step + 1) mem' ptBuf' o' cs' (by omega) (spec.full_readPtAddressIter hfull hr)

/-! ## What the filter keeps -/

/-- Where the filter's `unwrap` panics: a part past the first half, shorter than the second. -/
def FilterPanics (len : Nat) : Prop :=
  spec.virtRange < len ∧ min len (2 ^ (spec.addrSize * 8)) < 2 * spec.virtRange

instance (len : Nat) : Decidable (spec.FilterPanics len) := inferInstanceAs (Decidable (_ ∧ _))

/-- The parts the filter keeps of a request end below the top: the part in the first half,
    and past it the part in the last, where that looks canonical. -/
structure EndsBelow (r : Nat × T) : Prop where
  low : r.1 + min (SplitAtIndex.length r.2) spec.virtRange < 2 ^ 64
  high : spec.virtRange < SplitAtIndex.length r.2 →
    spec.highStart r % 2 ^ 64 &&& Address.bitMask (spec.virtAddrBitRange 0).2 (spec.addrSize * 8 - 1) =
      Address.bitMask (spec.virtAddrBitRange 0).2 (spec.addrSize * 8 - 1) →
    spec.highStart r % 2 ^ 64 + (spec.virtRange - 1) < 2 ^ 64

include lawful in
/-- What the filter keeps of a request, when it does not panic. -/
theorem virtAddrFilter_kept {r : Nat × T} (hr : r.1 < 2 ^ 64 ∧ SplitAtIndex.length r.2 < 2 ^ 64)
    (hp : ¬ spec.FilterPanics (SplitAtIndex.length r.2)) (validOut : List (TranslateData T))
    (failOut : List (Error × Nat × T)) :
    ∃ vec fails, spec.virtAddrFilter r.1 r.2 validOut failOut = some (validOut ++ vec, fails) ∧
      (∀ d ∈ vec, 0 < SplitAtIndex.length d) ∧ (vec = [] ↔ SplitAtIndex.length r.2 = 0) ∧
      ((∀ d ∈ vec, d.addr + SplitAtIndex.length d < 2 ^ 64) ↔ spec.EndsBelow r) := by
  obtain ⟨a, b⟩ := r
  simp only at hr hp ⊢
  have hr2 := spec.two_le_virtRange
  unfold FilterPanics at hp
  by_cases hhalf : SplitAtIndex.length b ≤ spec.virtRange
  · obtain ⟨d, ha, hd, hrun⟩ := spec.virtAddrFilter_short a hhalf validOut failOut
    have hsize := hd.size
    have hends : spec.EndsBelow (a, b) ↔ a + SplitAtIndex.length b < 2 ^ 64 := by
      refine ⟨fun h => ?_, fun h => ⟨?_, fun hlt => absurd hlt (by simp only; omega)⟩⟩
      · have := h.low
        simp only at this
        omega
      · simp only
        omega
    rw [hends]
    by_cases hpos : 0 < SplitAtIndex.length b
    · refine ⟨[d], failOut, by rw [hrun, if_pos hpos], ?_, by simp; omega, ?_⟩
      · simp only [List.mem_singleton, forall_eq]
        omega
      · simp only [List.mem_singleton, forall_eq]
        omega
    · refine ⟨[], failOut, by rw [hrun, if_neg hpos, List.append_nil], nofun, ?_, ?_⟩
      · simp only [true_iff]
        omega
      · simp only [List.not_mem_nil, false_implies, implies_true, true_iff]
        omega
  · obtain ⟨lower, mid, high, reject, hla, hlow, -, hha, hhigh, -, hrun⟩ :=
      spec.virtAddrFilter_long a hr.2 (by omega) validOut failOut
    have hlsize := hlow.size
    have hhsize := hhigh.size
    have hhlen : SplitAtIndex.length high = spec.virtRange - 1 := by omega
    have hstart : high.addr = spec.highStart (a, b) % 2 ^ 64 := hha
    have hlow : lower.addr + SplitAtIndex.length lower = a + min (SplitAtIndex.length b) spec.virtRange := by omega
    by_cases htest : high.addr &&& Address.bitMask (spec.virtAddrBitRange 0).2 (spec.addrSize * 8 - 1) =
        Address.bitMask (spec.virtAddrBitRange 0).2 (spec.addrSize * 8 - 1)
    · rw [if_pos htest] at hrun
      refine ⟨[lower, high], _, hrun, ?_, by simp; omega, ?_⟩
      · simp only [List.mem_cons, List.not_mem_nil, or_false, forall_eq_or_imp, forall_eq]
        omega
      · simp only [List.mem_cons, List.not_mem_nil, or_false, forall_eq_or_imp, forall_eq, hlow, hhlen, hstart]
        refine ⟨fun ⟨h1, h2⟩ => ⟨h1, fun _ _ => h2⟩, fun h => ⟨h.low, h.high (by simp only; omega) ?_⟩⟩
        rw [← hstart, htest]
    · rw [if_neg htest] at hrun
      refine ⟨[lower], _, hrun, ?_, by simp; omega, ?_⟩
      · simp only [List.mem_singleton, forall_eq]
        omega
      · simp only [List.mem_singleton, forall_eq, hlow]
        exact ⟨fun h1 => ⟨h1, fun _ h2 => absurd (hstart ▸ h2) htest⟩, fun h => h.low⟩

include lawful in
/-- The filter panics at a request of the batch, or keeps something of each that is not
    empty. -/
theorem filterAll_kept : ∀ (reqs : List (Nat × T)) (validOut : List (TranslateData T))
    (failOut : List (Error × Nat × T)), (∀ r ∈ reqs, r.1 < 2 ^ 64 ∧ SplitAtIndex.length r.2 < 2 ^ 64) →
    ((∃ r ∈ reqs, spec.FilterPanics (SplitAtIndex.length r.2)) ∧ spec.filterAll reqs validOut failOut = none) ∨
    ((¬ ∃ r ∈ reqs, spec.FilterPanics (SplitAtIndex.length r.2)) ∧
      ∃ vec fails, spec.filterAll reqs validOut failOut = some (validOut ++ vec, fails) ∧
        (∀ d ∈ vec, 0 < SplitAtIndex.length d) ∧ (vec = [] ↔ ∀ r ∈ reqs, SplitAtIndex.length r.2 = 0) ∧
        ((∀ d ∈ vec, d.addr + SplitAtIndex.length d < 2 ^ 64) ↔ ∀ r ∈ reqs, spec.EndsBelow r)) := by
  intro reqs
  induction reqs with
  | nil => intro v f _; exact Or.inr ⟨by simp, [], f, by simp [filterAll], by simp, by simp, by simp⟩
  | cons r reqs ih =>
    intro v f h
    have hr := h r (List.mem_cons_self ..)
    by_cases hp : spec.FilterPanics (SplitAtIndex.length r.2)
    · refine Or.inl ⟨⟨r, List.mem_cons_self .., hp⟩, ?_⟩
      simp only [filterAll, spec.virtAddrFilter_panics r.1 hr.2 hp.1 hp.2 v f, Option.bind_none]
    · obtain ⟨vec, fails, hrun, hpos, hnil, hends⟩ := spec.virtAddrFilter_kept hr hp v f
      rcases ih (v ++ vec) fails fun x hx => h x (List.mem_cons_of_mem _ hx) with
        ⟨⟨x, hx, hxp⟩, hnone⟩ | ⟨hno, vec', fails', hrun', hpos', hnil', hends'⟩
      · refine Or.inl ⟨⟨x, List.mem_cons_of_mem _ hx, hxp⟩, ?_⟩
        simp only [filterAll, hrun, Option.bind_some, hnone]
      · refine Or.inr ⟨by simpa using ⟨hp, by simpa using hno⟩, vec ++ vec', fails', ?_, ?_, ?_, ?_⟩
        · simp only [filterAll, hrun, Option.bind_some, hrun', List.append_assoc]
        · intro d hd
          exact (List.mem_append.mp hd).elim (hpos d) (hpos' d)
        · rw [List.append_eq_nil_iff, hnil, hnil', List.forall_mem_cons]
        · rw [List.forall_mem_append, hends, hends', List.forall_mem_cons]

/-! ## When nothing wraps -/

include lawful in
/-- Where the kept parts are some and end below the top, the build with overflow checks does
    what the one without does. -/
theorem virtToPhysIterChecked_eq [PhysicalMemory M] (mem : M) (dtb : Nat) {addrs : List (Nat × T)}
    {vec : List (TranslateData T)} {fails : List (Error × Nat × T)} (hrun : spec.filterAll addrs [] [] = some (vec, fails))
    (hpieces : ∀ d ∈ vec, Piece d) (hne : vec ≠ []) :
    spec.virtToPhysIterChecked mem dtb addrs = some (spec.virtToPhysIter mem dtb addrs) := by
  have hfull : (TranslationChunk.new dtb vec).recalcMinmax.Full := ⟨ok_of_folds (List.Perm.refl _) hpieces dtb, hne⟩
  have hfold := TranslateData.foldMinmaxChecked_eq vec Address.invalid 0 fun d hd => (hpieces d hd).2
  have hwalk := spec.walkLoopChecked_eq spec.splitCount 0 mem [] ⟨[], fails⟩ [(TranslationChunk.new dtb vec).recalcMinmax]
    (by omega) (by simpa using hfull)
  simp only [virtToPhysIterChecked, virtToPhysIter, hrun, recalcMinmaxChecked, hfold, Option.map_some, Option.bind_some]
  exact congrArg (Option.map some) hwalk

/-- A batch of which nothing is kept wraps in its first cut. -/
theorem walkLoopChecked_none [PhysicalMemory M] (mem : M) (ptBuf : List UInt8) (o : Outputs T) (pt : Nat) :
    spec.walkLoopChecked spec.splitCount 0 mem ptBuf o [⟨pt, [], Address.invalid, 0⟩] = none := by
  obtain ⟨n, hn⟩ : ∃ n, spec.splitCount = n + 1 := ⟨spec.splitCount - 1, by have := spec.two_le_splits; unfold splitCount; omega⟩
  have hent : spec.checkEntry pt 0 = true := rfl
  have hfin : spec.isFinalMapping pt 0 = false := by
    have h1 := spec.two_le_splits
    have h2 := spec.zero_not_final
    simp only [isFinalMapping, Bool.or_eq_false_iff, beq_eq_false_iff_ne, Bool.and_eq_false_iff]
    exact ⟨by omega, Or.inr (by simpa using h2)⟩
  have hnext : Address.checkedAdd 0 1 = some 1 := rfl
  have hrem : Lib.RevLoop.swapRemove [(⟨pt, [], Address.invalid, 0⟩ : TranslationChunk T)] 0 =
      some (⟨pt, [], Address.invalid, 0⟩, []) := rfl
  rw [hn, walkLoopChecked, hnext, Option.bind_some]
  simp only [List.length_singleton, Lib.RevLoop.tryDrainRev, hrem, stepChunkChecked, hent, hfin, Bool.not_true,
    Bool.false_eq_true, if_false, cutChunkChecked, collectChecked_none, Option.map_none, Option.bind_none]

include lawful in
/-- No sum or difference of a walk wraps exactly when some request is not empty and no kept
    part ends at the top of the address space or past it, or the filter panics before. -/
theorem neverWraps_iff [PhysicalMemory M] (mem : M) (dtb : Nat) {addrs : List (Nat × T)}
    (hword : ∀ r ∈ addrs, r.1 < 2 ^ 64 ∧ SplitAtIndex.length r.2 < 2 ^ 64) :
    spec.NeverWraps mem dtb addrs ↔ (∃ r ∈ addrs, spec.FilterPanics (SplitAtIndex.length r.2)) ∨
      ((∃ r ∈ addrs, 0 < SplitAtIndex.length r.2) ∧ ∀ r ∈ addrs, spec.EndsBelow r) := by
  rcases spec.filterAll_kept addrs [] [] hword with ⟨hp, hnone⟩ | ⟨hno, vec, fails, hrun, hpos, hnil, hends⟩
  · refine iff_of_true ?_ (Or.inl hp)
    rw [NeverWraps, virtToPhysIterChecked, hnone]
    rfl
  · rw [List.nil_append] at hrun
    rw [or_iff_right hno, ← hends]
    have hsome : (∃ r ∈ addrs, 0 < SplitAtIndex.length r.2) ↔ vec ≠ [] := by
      rw [Ne, hnil]
      simp [Nat.pos_iff_ne_zero]
    rw [hsome]
    constructor
    · intro h
      unfold NeverWraps virtToPhysIterChecked at h
      rw [hrun] at h
      simp only [recalcMinmaxChecked, TranslationChunk.new] at h
      constructor
      · rintro rfl
        have hfold : TranslateData.foldMinmaxChecked ([] : List (TranslateData T)) (Address.invalid, 0) =
          some (Address.invalid, 0) := rfl
        rw [hfold, Option.map_some, Option.bind_some, walkLoopChecked_none] at h
        cases h
      · intro d hd
        by_contra hge
        rw [TranslateData.foldMinmaxChecked_none vec _ _ ⟨d, hd, by omega⟩] at h
        cases h
    · intro ⟨hne, hlt⟩
      rw [NeverWraps, spec.virtToPhysIterChecked_eq mem dtb hrun (fun d hd => ⟨hpos d hd, hlt d hd⟩) hne]
      rfl

/-- Two bytes across a page, and all of the last page but its last byte. -/
theorem neverWraps_belowTop :
    x64.NeverWraps (⟨fun _ => 0⟩ : FlatMemory) 0x1000
      [(0x2fff, (⟨0, 0, 2⟩ : SliceMut)), (0xfffffffffffff000, (⟨1, 0, 0xfff⟩ : SliceMut))] := by
  refine (x64.neverWraps_iff (⟨fun _ => 0⟩ : FlatMemory) 0x1000 ?_).mpr
    (Or.inr ⟨⟨_, List.mem_cons_self .., by decide⟩, fun r hr => ?_⟩)
  · decide
  · simp only [List.mem_cons, List.not_mem_nil, or_false] at hr
    rcases hr with rfl | rfl <;> exact ⟨by decide, fun h => absurd h (by decide)⟩

/-- The batch that is empty, the one of an empty request, and the last byte of the address
    space. -/
theorem boundary_wraps :
    ¬ x64.NeverWraps (⟨fun _ => 0⟩ : FlatMemory) 0x1000 ([] : List (Nat × SliceMut)) ∧
    ¬ x64.NeverWraps (⟨fun _ => 0⟩ : FlatMemory) 0x1000 [(0x2000, (⟨0, 0, 0⟩ : SliceMut))] ∧
    ¬ x64.NeverWraps (⟨fun _ => 0⟩ : FlatMemory) 0x1000 [(0xffffffffffffffff, (⟨0, 0, 1⟩ : SliceMut))] := by
  unfold NeverWraps
  decide +kernel

end ArchMMUSpec

end Jiaa
