/-
  Jiaa.Mem.MapTop — a region that ends with the address space
  (memflow `mem/mem_map.rs`: `MemoryMapIterator`).

  The end of such a region is computed as zero, so no lookup stops at it: neither the scan
  nor the binary search takes it for a region behind an address. The `live` regions are
  the others.

  - `collect_live`: the iterator runs as over the live regions alone;
  - `mapIter_live`: the pieces are the bytes that the live regions cover.
-/

import Jiaa.Mem.MapLookup

namespace Jiaa

variable {M T β γ : Type*} [SplitAtIndex M] [SplitAtIndex T]

namespace MemoryMap

open MemoryMapping

def live (map : MemoryMap M) : MemoryMap M := ⟨map.mappings.filter fun m => m.finish < 2 ^ 64⟩

theorem mem_live {map : MemoryMap M} {m : MemoryMapping M} :
    m ∈ map.live.mappings ↔ m ∈ map.mappings ∧ m.finish < 2 ^ 64 := by
  simp [live]

theorem live_inside (map : MemoryMap M) : map.live.Inside := fun _ hm => (mem_live.mp hm).2

theorem Ready.live {map : MemoryMap M} (h : map.Ready) : map.live.Ready where
  nonempty m hm := h.nonempty m (mem_live.mp hm).1
  bounded m hm := h.bounded m (mem_live.mp hm).1
  ordered := h.ordered.sublist List.filter_sublist

/-- The regions that are not live come last. -/
theorem Ready.live_append {map : MemoryMap M} (h : map.Ready) :
    ∃ dead, map.mappings = map.live.mappings ++ dead ∧ ∀ x ∈ dead, x.stop = 0 := by
  rcases List.eq_nil_or_concat map.mappings with hnil | ⟨init, last, hl⟩
  · exact ⟨[], by simp [MemoryMap.live, hnil], nofun⟩
  · rw [List.concat_eq_append] at hl
    have hlast : last ∈ map.mappings := by rw [hl]; simp
    have hb := h.bounded last hlast
    have hne := h.nonempty last hlast
    have hinit : ∀ m ∈ init, m.finish < 2 ^ 64 := by
      intro m hm
      have hle := (List.pairwise_append.mp (hl ▸ h.ordered)).2.2 m hm last (List.mem_singleton_self _)
      omega
    have hfilter : init.filter (fun m => decide (m.finish < 2 ^ 64)) = init :=
      List.filter_eq_self.mpr fun m hm => by simpa using hinit m hm
    by_cases htop : last.finish = 2 ^ 64
    · refine ⟨[last], ?_, fun x hx => ?_⟩
      · unfold MemoryMap.live
        rw [hl, List.filter_append, hfilter, List.filter_cons_of_neg (by simp [htop]), List.filter_nil, List.append_nil]
      · rw [List.mem_singleton.mp hx, stop_top htop]
    · refine ⟨[], ?_, nofun⟩
      unfold MemoryMap.live
      rw [hl, List.filter_append, hfilter, List.filter_cons_of_pos (by simp; omega), List.filter_nil, List.append_nil]

end MemoryMap

namespace MemoryMapIterator

open MemoryMap

/-! ## One lookup -/

theorem scan_skip (it : MemoryMapIterator M T) {addr : Nat} (buf : T) (l k : List (MemoryMapping M)) :
    ∀ i, (∀ x ∈ l, x.stop ≤ addr) → scan it addr buf i (l ++ k) = scan it addr buf (i + l.length) k := by
  induction l with
  | nil => intro i _; rfl
  | cons m l ih =>
    intro i h
    rw [List.cons_append, scan, if_neg (Nat.not_lt.mpr (h m (List.mem_cons_self ..))),
      ih (i + 1) fun x hx => h x (List.mem_cons_of_mem _ hx), List.length_cons, Nat.add_assoc, Nat.add_comm 1]

/-- Regions that end at zero are not found. -/
theorem scan_dead (it : MemoryMapIterator M T) (addr : Nat) (buf : T) {dead : List (MemoryMapping M)}
    (hd : ∀ x ∈ dead, x.stop = 0) (l : List (MemoryMapping M)) :
    ∀ i, scan it addr buf i (l ++ dead) = scan it addr buf i l := by
  induction l with
  | nil =>
    intro i
    have := scan_skip it buf dead [] i fun x hx => (hd x hx).trans_le (Nat.zero_le addr)
    rw [List.append_nil] at this
    rw [List.nil_append, this]
    rfl
  | cons m l ih =>
    intro i
    rw [List.cons_append, scan, scan]
    by_cases h : addr < m.stop
    · rw [if_pos h, if_pos h]
    · rw [if_neg h, if_neg h, ih]

/-- A lookup does not read the regions and the position of its state, and leaves the
    position where it finds nothing. -/
theorem scan_with (it : MemoryMapIterator M T) (addr : Nat) (buf : T) (map : List (MemoryMapping M)) (pos : Nat)
    (l : List (MemoryMapping M)) : ∀ i, scan { it with map := map, curMapPos := pos } addr buf i l =
      (scan it addr buf i l).map fun r =>
        (r.1, { r.2 with map := map, curMapPos := if r.1.isSome then r.2.curMapPos else pos }) := by
  induction l with
  | nil => intro i; rfl
  | cons m l ih =>
    intro i
    rw [scan, scan]
    by_cases h : addr < m.stop
    · rw [if_pos h, if_pos h]
      dsimp only
      generalize splitAt buf (m.base - addr) = cut
      rcases cut with ⟨left, _ | leftover⟩
      · by_cases hl : 0 < SplitAtIndex.length left
        · simp [hl]
        · simp [hl]
      · simp only
        generalize splitAt leftover (Address.sub m.stop (Address.add addr (m.base - addr))) = cut
        generalize (splitAt m.output (Address.sub (Address.add addr (m.base - addr)) m.base)).2 = output
        obtain ⟨ret, keep⟩ := cut
        cases output with
        | none => rfl
        | some output =>
          by_cases hl : 0 < SplitAtIndex.length left
          · cases keep <;> simp [hl, nextElem]
          · cases keep <;> simp [hl, nextElem]
    · rw [if_neg h, if_neg h, ih]

/-! ## The run -/

section Run

variable {map : MemoryMap M}

/-- `it` over the live regions. -/
def overLive (map : MemoryMap M) (it : MemoryMapIterator M T) : MemoryMapIterator M T := { it with map := map.live.mappings }

omit [SplitAtIndex T] in
theorem waits_overLive_next (map : MemoryMap M) (it : MemoryMapIterator M T) : Waits map.live (overLive map it.nextElem) :=
  (waits_nextElem rfl : Waits map.live (overLive map it).nextElem)

/-- A lookup from a position that it may start at is one from the start, over the live
    regions. -/
theorem scan_live (h : map.Ready) (it : MemoryMapIterator M T) {addr pos : Nat} (buf : T)
    (hpos : ∀ x ∈ map.mappings.take pos, x.stop ≤ addr) :
    scan it addr buf pos (map.mappings.drop pos) = scan it addr buf 0 map.live.mappings := by
  obtain ⟨dead, hmap, hd⟩ := h.live_append
  have hdead := scan_dead it addr buf hd map.live.mappings 0
  rw [← hmap] at hdead
  rw [← hdead]
  by_cases hle : pos ≤ map.mappings.length
  · have := scan_skip it buf (map.mappings.take pos) (map.mappings.drop pos) 0 hpos
    rw [List.take_append_drop, List.length_take, Nat.min_eq_left hle, Nat.zero_add] at this
    exact this.symm
  · rw [List.take_of_length_le (by omega)] at hpos
    have := scan_skip it buf map.mappings [] 0 hpos
    rw [List.append_nil] at this
    rw [this, List.drop_eq_nil_of_le (by omega)]
    rfl

theorem getNext_live (h : map.Ready) {it : MemoryMapIterator M T} (hw : Waits map it)
    (hw' : Waits map.live (overLive map it)) (he : it.curElem.isSome) :
    ∃ pos, (overLive map it).getNext = it.getNext.map fun r =>
      (r.1, { r.2 with map := map.live.mappings, curMapPos := if r.1.isSome then r.2.curMapPos else pos }) := by
  obtain ⟨⟨addr, buf⟩, he⟩ := Option.isSome_iff_exists.mp he
  unfold getNext
  rw [he, show (overLive map it).curElem = some (addr, buf) from he]
  dsimp only
  generalize hp : (if minBsearchThresh ≤ it.map.length ∧ it.curMapPos = 0 then it.bsearch addr else it.curMapPos) = p
  generalize hp' : (if minBsearchThresh ≤ (overLive map it).map.length ∧ (overLive map it).curMapPos = 0 then
    (overLive map it).bsearch addr else (overLive map it).curMapPos) = p'
  have hpos : ∀ x ∈ map.mappings.take p, x.stop ≤ addr := by
    rw [← hp]
    split
    · exact bsearch_spec h it hw.map_eq addr
    · exact hw.behind _ he
  have hpos' : ∀ x ∈ map.live.mappings.take p', x.stop ≤ addr := by
    rw [← hp']
    split
    · exact bsearch_spec h.live (overLive map it) rfl addr
    · exact hw'.behind _ he
  have hlive : map.live.live = map.live := by
    unfold MemoryMap.live
    rw [List.filter_filter]
    simp
  have hscan := scan_live h { it with curElem := none, curMapPos := p } buf hpos
  have hscan' := scan_live h.live { overLive map it with curElem := none, curMapPos := p' } buf hpos'
  rw [hlive] at hscan'
  refine ⟨p', ?_⟩
  rw [show it.map.drop p = map.mappings.drop p by rw [hw.map_eq], hscan]
  exact hscan'.trans (scan_with { it with curElem := none, curMapPos := p } addr buf map.live.mappings p' _ 0)

variable [lawful : LawfulSplitAtIndex M γ] [lawfulBuf : LawfulSplitAtIndex T β]

include lawful lawfulBuf

/-- The calls of `next` over all regions and over the live ones go the same way. -/
theorem nextLoop_live (h : map.Ready) : ∀ (rounds : Nat) {it : MemoryMapIterator M T}, Waits map it →
    Waits map.live (overLive map it) →
    nextLoop rounds (overLive map it) = (nextLoop rounds it).map fun r => (r.1, overLive map r.2) := by
  intro rounds
  induction rounds with
  | zero => intro it _ _; rfl
  | succ rounds ih =>
    intro it hw hw'
    rw [nextLoop, nextLoop]
    cases he : it.curElem with
    | none =>
      rw [show (overLive map it).curElem = none from he]
      rfl
    | some e =>
      obtain ⟨addr, buf⟩ := e
      rw [show (overLive map it).curElem = some (addr, buf) from he]
      obtain ⟨pos, hlive⟩ := getNext_live h hw hw' (by rw [he]; rfl)
      obtain ⟨ret, it', pos', hget, hans⟩ := getNext_spec (γ := γ) (β := β) h hw he
      simp only [Option.isNone_some, Bool.false_eq_true, if_false]
      rw [hlive, hget, Option.map_some]
      cases hans with
      | nothing fs hfs hc =>
        let rejected : MemoryMapIterator M T := { it with failOut := it.failOut ++ fs, curElem := none, curMapPos := pos' }
        exact @ih rejected.nextElem (waits_nextElem hw.map_eq) (waits_overLive_next map rejected)
      | last fs ret hlt hlen hpart hfs hc => rfl
      | part fs ret pos' addr' x hlen hpart hgt hle hbeh hfs hc => rfl

theorem next_live (h : map.Ready) {it : MemoryMapIterator M T} (hw : Waits map it)
    (hw' : Waits map.live (overLive map it)) :
    (overLive map it).next = it.next.map fun r => (r.1, overLive map r.2) := by
  unfold MemoryMapIterator.next
  cases he : it.curElem with
  | some e =>
    rw [show (overLive map it).curElem = some e from he]
    exact nextLoop_live (γ := γ) (β := β) h _ hw hw'
  | none =>
    rw [show (overLive map it).curElem = none from he]
    have hit : ({ it with curElem := it.inIter.head?, inIter := it.inIter.tail } : MemoryMapIterator M T) = it.nextElem := by
      rw [nextElem, hw.pos_zero he]
    simp only [Option.isNone_none, if_true, hit]
    have hit' : ({ overLive map it with curElem := (overLive map it).inIter.head?, inIter := (overLive map it).inIter.tail } :
        MemoryMapIterator M T) = overLive map it.nextElem := by
      rw [← hit]
      rfl
    rw [hit']
    exact nextLoop_live (γ := γ) (β := β) h _ (waits_nextElem hw.map_eq) (waits_overLive_next map it)

/-- The iterator runs as over the live regions alone. -/
theorem collect_live (h : map.Ready) : ∀ (rounds : Nat) {it : MemoryMapIterator M T}, Waits map it →
    Waits map.live (overLive map it) → (overLive map it).collect rounds = it.collect rounds := by
  intro rounds
  induction rounds with
  | zero => intro it _ _; rfl
  | succ rounds ih =>
    intro it hw hw'
    have hnext := next_live (γ := γ) (β := β) h hw hw'
    obtain ⟨ret, s, hs, hy⟩ := next_spec (γ := γ) (β := β) h hw
    obtain ⟨ret', s', hs', hy'⟩ := next_spec (γ := γ) (β := β) h.live hw'
    rw [hs, Option.map_some] at hnext
    rw [hnext] at hs'
    cases hs'
    unfold collect
    rw [hnext, hs]
    cases ret with
    | none => rfl
    | some ret => simp only [ih hy.waits hy'.waits]

end Run

end MemoryMapIterator

namespace MemoryMap

open MemoryMapIterator

variable [lawful : LawfulSplitAtIndex M γ] [LawfulSplitAtIndex T β]

/-- The pieces are the bytes of the requests that the live regions cover, in order, each
    with its byte of the output. -/
theorem mapIter_live (map : MemoryMap M) (h : map.Ready) (iter : List (PhysicalAddress × T)) :
    ∃ rets fails, map.mapIter iter = some (rets, fails) ∧
      (∀ r ∈ rets, SplitAtIndex.length r.1 = SplitAtIndex.length r.2 ∧ PartOf map.live r) ∧
      rets.flatMap pieceBytes = (iter.flatMap fun d => map.live.covered d.1.address (bytes d.2) : List (γ × β)) := by
  let l : List (Nat × T) := iter.map fun d => (d.1.address, d.2)
  have hw : Waits map (MemoryMapIterator.new map.mappings l) := ⟨rfl, Nat.zero_le _, nofun, fun _ => rfl⟩
  have hw' : Waits map.live (overLive map (MemoryMapIterator.new map.mappings l)) :=
    ⟨rfl, Nat.zero_le _, nofun, fun _ => rfl⟩
  have hle : map.live.mappings.length ≤ map.mappings.length := List.length_filter_le _ _
  have hmul : l.length * map.live.mappings.length ≤ l.length * map.mappings.length := Nat.mul_le_mul_left _ hle
  obtain ⟨rets, fs, hrun, hpart, -, hcov⟩ := collect_spec (γ := γ) (β := β) h.live
    (l.length * map.mappings.length + 1) (overLive map (MemoryMapIterator.new map.mappings l)) hw' (by
      simp [left, overLive, MemoryMapIterator.new]
      omega)
  rw [collect_live (γ := γ) (β := β) h _ hw hw'] at hrun
  refine ⟨rets, fs, hrun, hpart, ?_⟩
  rw [hcov map.live_inside]
  show coveredAll map.live l = _
  unfold coveredAll
  rw [List.flatMap_map]

omit [LawfulSplitAtIndex T β] lawful in
/-- A request behind the ends of all regions has no piece. -/
theorem mapIter_behind (map : MemoryMap M) (d : PhysicalAddress × T) (h : ∀ x ∈ map.mappings, x.stop ≤ d.1.address) :
    map.mapIter [d] = some ([], []) := by
  let it : MemoryMapIterator M T := ⟨map.mappings, [], [], none, 0⟩
  have hscan : ∀ (it : MemoryMapIterator M T) i, scan it d.1.address d.2 i (map.mappings.drop i) = some (none, it) := by
    intro it i
    have := scan_skip it d.2 (map.mappings.drop i) [] i fun x hx => h x (List.mem_of_mem_drop hx)
    rw [List.append_nil] at this
    rw [this]
    rfl
  have hnext : (MemoryMapIterator.new map.mappings [(d.1.address, d.2)]).next = some (none, it) := by
    unfold MemoryMapIterator.next MemoryMapIterator.new
    simp only [Option.isNone_none, if_true, List.head?_cons, List.tail_cons, List.length_nil, Nat.zero_add]
    unfold nextLoop getNext
    simp only [Option.isNone_some, Bool.false_eq_true, if_false]
    rw [hscan]
    rfl
  unfold MemoryMap.mapIter MemoryMap.mapAddrs collect
  rw [List.map_singleton, hnext]

end MemoryMap

end Jiaa
