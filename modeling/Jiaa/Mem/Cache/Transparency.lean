/-
  Jiaa.Mem.Cache.Transparency — when reads through the cache return what the memory holds
  (memflow `mem/cache/page_cache.rs`, `mem/cache/cached_memory_access.rs`).

  - `cached_types_transparent`: where all accesses are of cached types, over a memory that
    never fails;
  - `own_writes_read`: with any types, where writes of other types leave valid pages as the
    writes of a cached type do. The code has no such rule: `uncached_write_stale`;
  - `unpoisoned_reads`: over a memory that fails, where no read asks for a page whose buffer
    a failed read left lent out. The code serves such a page unread: `failed_read_poisons`.
-/

import Jiaa.Mem.Cache.Coherence

namespace Jiaa

open PageCache

namespace CachedMemoryAccess

variable {n : Nat} [NeZero n] {M Q : Type*} [CacheValidator Q] [LawfulCacheValidator Q] [PhysicalMemory M]
  [LawfulMemory M]

/-! ## Accesses of cached types -/

/-- An update makes no slot valid, and all accesses are of types in `mask`. -/
def OfCachedTypes (mask : PageType) (s : CachedMemoryAccess n M Q) (op : MemoryOp) : Prop :=
  Steady s.cache.validator ∧ ∀ d ∈ op.data, d.1.address < 2 ^ 64 ∧ mask.contains d.1.pageType = true

omit [LawfulCacheValidator Q] in
/-- Writes of cached types alone are all written back. -/
theorem writesThrough_of_cached {s : CachedMemoryAccess n M Q} {data : List (PhysicalAddress × List UInt8)}
    (h : ∀ d ∈ data, s.cache.pageTypeMask.contains d.1.pageType = true) :
    WritesThrough s data (applyWrites (content s.mem) data) := by
  intro i buf _ _ j _
  have hall : s.cache.cachedWrites data = data := List.filter_eq_self.mpr h
  rw [hall, applyWrites_eq]

variable [NeverFails M]

/-- Reads and writes of cached types are those of the memory. -/
theorem cached_types_transparent (mem : M) {pageSize : Nat} (hd : pageSize ∣ 2 ^ 64) (hlt : pageSize < 2 ^ 64)
    (mask : PageType) {validator : Q} (hnew : HoldsNone n pageSize validator) {ops : List MemoryOp}
    {s : CachedMemoryAccess n M Q}
    (hreach : Reached (OfCachedTypes mask) ⟨mem, withPageSize n pageSize hd hlt mask validator⟩ ops s)
    {data : List (PhysicalAddress × List UInt8)} (hdata : OfCachedTypes mask s (.read data)) :
    (PhysicalMemory.physReadRawList s data).2 =
      (data.map fun d => bytesAt (content s.mem) d.1.address d.2.length, .ok ()) := by
  have hinv : Serving ⟨mem, withPageSize n pageSize hd hlt mask validator⟩ ops s := by
    refine hreach.invariant ⟨coherent_new mem hd hlt mask hnew, whole_new mem hd hlt mask validator, rfl, rfl⟩ ?_
    intro ops s op h hop
    obtain ⟨hs, hop⟩ := hop
    cases op with
    | read l => exact h.read hs fun d hd => (hop d hd).1
    | write l =>
      refine h.write hs (fun d hd => (hop d hd).1) (writesThrough_of_cached fun d hd => ?_)
      rw [h.mask]
      exact (hop d hd).2
  exact hinv.read_eq hdata.1 fun d hd => (hdata.2 d hd).1

/-- Two slots for pages of 16 bytes, of page tables and read-only pages. -/
def smallCache {Q : Type*} [CacheValidator Q] (validator : Q) : PageCache 2 Q :=
  withPageSize 2 16 ⟨2 ^ 60, rfl⟩ (by decide) (PageType.pageTable ||| PageType.readOnly) validator

/-- A validator while the clock stands still. -/
def stoppedClock : TimedCacheValidator := TimedCacheValidator.new 1000 fun _ => 5000

def tableAt (a : Nat) : PhysicalAddress := ⟨a, PageType.pageTable, 0⟩

/-- A byte of a page table written, then read. -/
theorem cached_types_transparent_written :
    let s := apply (⟨⟨fun _ => 0⟩, smallCache stoppedClock⟩ : CachedMemoryAccess 2 FlatMemory TimedCacheValidator)
      (.write [(tableAt 0x20, [7])])
    (PhysicalMemory.physReadRawList s [(tableAt 0x20, [0])]).2 = ([bytesAt (content s.mem) 0x20 1], .ok ()) := by
  refine cached_types_transparent (⟨fun _ => 0⟩ : FlatMemory) ⟨2 ^ 60, rfl⟩ (by decide)
    (PageType.pageTable ||| PageType.readOnly) (Or.inl (by decide)) (.step .start ⟨TimedCacheValidator.steady (by decide +kernel), by decide⟩)
    ⟨TimedCacheValidator.steady (by decide +kernel), by decide⟩

/-- A validator that makes what it validates valid at every second update. -/
structure AlternatingValidator where
  phase : Nat → Option Bool
  now : Bool

instance : CacheValidator AlternatingValidator where
  allocateSlots self _ := self
  updateValidity self := { self with now := !self.now }
  isSlotValid self slotId := self.phase slotId == some self.now
  validateSlot self slotId := { self with phase := Function.update self.phase slotId (some self.now) }
  invalidateSlot self slotId := { self with phase := Function.update self.phase slotId none }

instance : LawfulCacheValidator AlternatingValidator where
  validate_self q i := by simp [isSlotValid, validateSlot]
  validate_other q i j h := by simp only [isSlotValid, validateSlot, Function.update_of_ne h]

/-- A byte read, written while its page is not valid, and read when it is valid again. -/
theorem alternating_stale :
    let s := ((⟨⟨fun _ => 0⟩, smallCache ⟨fun _ => none, true⟩⟩ :
      CachedMemoryAccess 2 FlatMemory AlternatingValidator).apply (.read [(tableAt 0x20, [0])])).apply
        (.write [(tableAt 0x20, [7])])
    s.cache.isCachedPageType PageType.pageTable = true ∧ content s.mem 0x20 = 7 ∧
      (PhysicalMemory.physReadRawList s [(tableAt 0x20, [1])]).2 = ([[0]], .ok ()) := by
  decide +kernel

/-! ## Accesses of any type -/

omit [LawfulCacheValidator Q] [NeverFails M] in
/-- An update makes no slot valid, and a write leaves on the pages that stay valid what its
    accesses of a cached type leave there. -/
def LeavesValid (s : CachedMemoryAccess n M Q) (op : MemoryOp) : Prop :=
  Steady s.cache.validator ∧ (∀ d ∈ op.data, d.1.address < 2 ^ 64) ∧
    WritesThrough s op.writes (applyWrites (content s.mem) op.writes)

/-- Every read returns the bytes last written. -/
theorem own_writes_read (mem : M) {pageSize : Nat} (hd : pageSize ∣ 2 ^ 64) (hlt : pageSize < 2 ^ 64)
    (mask : PageType) {validator : Q} (hnew : HoldsNone n pageSize validator) {ops : List MemoryOp}
    {s : CachedMemoryAccess n M Q}
    (hreach : Reached LeavesValid ⟨mem, withPageSize n pageSize hd hlt mask validator⟩ ops s)
    {data : List (PhysicalAddress × List UInt8)} (hdata : LeavesValid s (.read data)) :
    (PhysicalMemory.physReadRawList s data).2 =
      (data.map fun d => bytesAt (applyWrites (content mem) (ops.flatMap MemoryOp.writes)) d.1.address d.2.length,
        .ok ()) := by
  have hinv : Serving ⟨mem, withPageSize n pageSize hd hlt mask validator⟩ ops s := by
    refine hreach.invariant ⟨coherent_new mem hd hlt mask hnew, whole_new mem hd hlt mask validator, rfl, rfl⟩ ?_
    intro ops s op h hop
    obtain ⟨hs, hop, hw⟩ := hop
    cases op with
    | read l => exact h.read hs hop
    | write l => exact h.write hs hop hw
  have hread : (PhysicalMemory.physReadRawList s data).2 = _ := hinv.read_eq hdata.1 hdata.2.1
  rw [hread, hinv.mem]

def writeableAt (a : Nat) : PhysicalAddress := ⟨a, PageType.writeable, 0⟩

theorem own_writes_read_table :
    let s := apply (⟨⟨fun _ => 0⟩, smallCache stoppedClock⟩ : CachedMemoryAccess 2 FlatMemory TimedCacheValidator)
      (.write [(tableAt 0x20, [7])])
    (PhysicalMemory.physReadRawList s [(tableAt 0x20, [0])]).2 =
      ([bytesAt (applyWrites (fun _ => 0) [(tableAt 0x20, [7])]) 0x20 1], .ok ()) := by
  refine own_writes_read (⟨fun _ => 0⟩ : FlatMemory) ⟨2 ^ 60, rfl⟩ (by decide)
    (PageType.pageTable ||| PageType.readOnly) (Or.inl (by decide)) (.step .start ⟨TimedCacheValidator.steady (by decide +kernel), by decide, ?_⟩)
    ⟨TimedCacheValidator.steady (by decide +kernel), by decide, fun _ _ _ _ _ _ => rfl⟩
  exact writesThrough_of_cached (by decide)

/-- A page read as a page table, then written with the type of a writeable page. -/
theorem uncached_write_stale :
    let s := ((⟨⟨fun _ => 0⟩, smallCache stoppedClock⟩ :
      CachedMemoryAccess 2 FlatMemory TimedCacheValidator).apply (.read [(tableAt 0x20, [0])])).apply
        (.write [(writeableAt 0x20, [7])])
    content s.mem 0x20 = 7 ∧ (PhysicalMemory.physReadRawList s [(tableAt 0x20, [1])]).2 = ([[0]], .ok ()) := by
  decide +kernel

/-! ## A memory that fails -/

omit [LawfulCacheValidator Q] [NeverFails M] in
/-- An update makes no slot valid, no read asks for a byte of a page left lent out, and a
    write, stored or refused, leaves the pages that stay valid as the memory is then. -/
def Unpoisoned (s : CachedMemoryAccess n M Q) (op : MemoryOp) : Prop :=
  Steady s.cache.validator ∧ (∀ d ∈ op.data, d.1.address < 2 ^ 64) ∧
    match op with
    | .read data => ∀ d ∈ data, ∀ k < d.2.length, Freshness.Avoids s.cache d k
    | .write data => WritesThrough s data (content (PhysicalMemory.physWriteRawList s.mem data).1)

omit [NeverFails M] in
theorem coherent_of_reached {s0 s : CachedMemoryAccess n M Q} {ops : List MemoryOp} (h : Reached Unpoisoned s0 ops s)
    (h0 : Coherent s0) : Coherent s := by
  refine h.invariant (I := fun _ s => Coherent s) h0 fun ops s op h hop => ?_
  obtain ⟨hs, hlt, hop⟩ := hop
  cases op with
  | read l => exact (coherent_read h hs hlt).1
  | write l => exact coherent_write h hs hlt hop

omit [NeverFails M] in
/-- Whatever calls the memory fails, a read that is `Ok` returns what it holds. -/
theorem unpoisoned_reads (mem : M) {pageSize : Nat} (hd : pageSize ∣ 2 ^ 64) (hlt : pageSize < 2 ^ 64)
    (mask : PageType) {validator : Q} (hnew : HoldsNone n pageSize validator) {ops : List MemoryOp}
    {s : CachedMemoryAccess n M Q}
    (hreach : Reached Unpoisoned ⟨mem, withPageSize n pageSize hd hlt mask validator⟩ ops s)
    {data : List (PhysicalAddress × List UInt8)} (hdata : Unpoisoned s (.read data))
    (hok : (PhysicalMemory.physReadRawList s data).2.2 = .ok ()) :
    (PhysicalMemory.physReadRawList s data).2.1 = data.map fun d => bytesAt (content s.mem) d.1.address d.2.length :=
  read_spec (coherent_of_reached hreach (coherent_new mem hd hlt mask hnew)) hdata.1 hdata.2.1 hdata.2.2 hok

/-- A read fails, the memory answers again, and another page is read. -/
theorem unpoisoned_reads_other :
    let s := apply (⟨⟨fun _ => 7, [true]⟩, smallCache stoppedClock⟩ :
      CachedMemoryAccess 2 FaultyMemory TimedCacheValidator) (.read [(tableAt 0x20, [0])])
    (PhysicalMemory.physReadRawList s [(tableAt 0x30, [1])]).2.1 = [bytesAt (content s.mem) 0x30 1] := by
  refine unpoisoned_reads (⟨fun _ => 7, [true]⟩ : FaultyMemory) ⟨2 ^ 60, rfl⟩ (by decide)
    (PageType.pageTable ||| PageType.readOnly) (Or.inl (by decide)) (.step .start ⟨TimedCacheValidator.steady (by decide +kernel), by decide, ?_⟩)
    ⟨TimedCacheValidator.steady (by decide +kernel), by decide, ?_⟩ (by decide +kernel)
  · exact fun d _ k _ => avoids_of_whole (whole_new _ _ _ _ _) d k
  · intro d hd k hk _ hm
    obtain rfl := List.mem_singleton.mp hd
    obtain rfl : k = 0 := Nat.lt_one_iff.mp hk
    exact absurd hm.1 (by decide +kernel)

/-- A read fails, the memory answers again, and the page is served without a read of it. -/
theorem failed_read_poisons :
    let s := apply (⟨⟨fun _ => 7, [true]⟩, smallCache stoppedClock⟩ :
      CachedMemoryAccess 2 FaultyMemory TimedCacheValidator) (.read [(tableAt 0x20, [0])])
    content s.mem 0x20 = 7 ∧ (PhysicalMemory.physReadRawList s [(tableAt 0x20, [1])]).2 = ([[1]], .ok ()) := by
  decide +kernel

end CachedMemoryAccess

end Jiaa
