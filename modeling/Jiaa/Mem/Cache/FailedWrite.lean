/-
  Jiaa.Mem.Cache.FailedWrite — what a write that the memory refuses leaves
  (memflow `mem/cache/cached_memory_access.rs`, `phys_write_raw_list`).

  The write goes into the valid pages before the memory is asked, and is not taken back.

  - `read_one_cached`: a byte of a valid page is read from the page;
  - `refused_write_iff`: after a refused write reads return what the memory holds exactly
    when the write leaves as they are the bytes of the pages valid at the next call.
-/

import Jiaa.Mem.Cache.Transparency

namespace Jiaa

open Lib.LastWrite PageCache

namespace CachedMemoryAccess

variable {n : Nat} [NeZero n] {M Q : Type*} [CacheValidator Q] [PhysicalMemory M]

/-! ## One byte of a valid page -/

/-- An address asked for with no page type, which every mask contains. -/
def untyped (a : Nat) : PhysicalAddress := ⟨a, PageType.none, 0⟩

omit [NeZero n] [CacheValidator Q] in
theorem isCachedPageType_none (cache : PageCache n Q) : cache.isCachedPageType PageType.none = true := by
  unfold isCachedPageType PageType.contains PageType.none
  simp

omit [NeZero n] [CacheValidator Q] in
theorem splitToChunks_one (cache : PageCache n Q) (addr : PhysicalAddress) (b o : Nat) :
    cache.splitToChunks addr (⟨b, o, 1⟩ : SliceMut) =
      [(PhysicalAddress.withPage addr.address addr.pageType addr.pageSize, ⟨b, o, 1⟩)] := by
  have hcut : ∀ e, SplitAtIndex.splitInclusiveAt (⟨b, o, 1⟩ : SliceMut) e = (⟨b, o, 1⟩, none) := by
    intro e
    simp [SplitAtIndex.splitInclusiveAt]
  unfold splitToChunks pageChunks pageChunksBy
  rw [collect_cons _ (next_of_check _ _ _ (fun _ _ => rfl) _), collect_none _ (by rw [hcut]), hcut]
  rfl

theorem read_one_cached {self : CachedMemoryAccess n M Q} {i : Fin n} {buf : List UInt8}
    (hc : (updated self.cache).Cached i buf) (hlen : buf.length = self.cache.pageSize) {j : Nat}
    (hj : j < self.cache.pageSize) (b : UInt8) :
    (PhysicalMemory.physReadRawList self [(untyped (self.cache.address i + j), [b])]).2 =
      ([[buf.get ⟨j, hlen ▸ hj⟩]], .ok ()) := by
  obtain ⟨hpage, hidx, hlt⟩ : (updated self.cache).pageOf (self.cache.address i + j) = self.cache.address i ∧
      (updated self.cache).pageIndex (self.cache.address i + j) = i ∧ self.cache.address i + j < 2 ^ 64 := hc.2.2.add hj
  have htake : (updated self.cache).takePage (self.cache.address i + j) false = (.valid buf, (updated self.cache).lend i) := by
    unfold takePage
    simp only [hidx, hpage, hc.1, hc.2.1]
    simp [updated, lend]
  have hput : ((updated self.cache).lend i).putPage (self.cache.address i) buf = updated self.cache := by
    have h := putPage_lend (c := updated self.cache) (a := self.cache.address i + j) (by rw [hidx]; exact hc.1)
    rwa [hidx, hpage] at h
  have hoff : Address.sub (self.cache.address i + j) (self.cache.address i) = j := by
    rw [Address.sub_eq (Nat.le_add_right _ _) hlt]
    omega
  have henq : CachedRead.enqueue ⟨updated self.cache, self.mem, heapOf [(untyped (self.cache.address i + j), [b])], [], [], []⟩
      (untyped (self.cache.address i + j), ⟨0, 0, 1⟩) = ⟨updated self.cache, self.mem,
        copyFromSlice (heapOf [(untyped (self.cache.address i + j), [b])]) ⟨0, 0, 1⟩ (CachedRead.pagePart buf j 1), [], [], []⟩ := by
    unfold CachedRead.enqueue
    refine (if_pos (isCachedPageType_none _)).trans ?_
    dsimp only
    rw [splitToChunks_one, List.foldl_cons, List.foldl_nil]
    unfold CachedRead.enqueueChunk cachedPageMut
    simp only [PhysicalAddress.withPage, untyped, htake, hpage, hput, hoff]
  have hpart : CachedRead.pagePart buf j 1 = [buf.get ⟨j, hlen ▸ hj⟩] := by
    unfold CachedRead.pagePart
    rw [List.drop_eq_getElem_cons (hlen ▸ hj)]
    rfl
  have hloop : CachedRead.readLoop ⟨updated self.cache, self.mem, heapOf [(untyped (self.cache.address i + j), [b])], [], [], []⟩
      (slices [(untyped (self.cache.address i + j), [b])]) = (⟨updated self.cache, self.mem,
        copyFromSlice (heapOf [(untyped (self.cache.address i + j), [b])]) ⟨0, 0, 1⟩ (CachedRead.pagePart buf j 1), [], [], []⟩,
          .ok ()) := by
    show CachedRead.readLoop _ [(untyped (self.cache.address i + j), (⟨0, 0, 1⟩ : SliceMut))] = _
    unfold CachedRead.readLoop
    simp [henq, CachedRead.flush, CachedRead.readWlist, CachedRead.readWlistcache, CachedRead.copyClist, CachedRead.readLoop]
  show (bufsOf _ (CachedRead.readLoop _ _).1.heap, (CachedRead.readLoop _ _).2) = _
  rw [hloop, hpart]
  rfl

/-! ## States reached -/

section Reached

variable [LawfulMemory M] [LawfulCacheValidator Q]

/-- Any byte may be returned or held. -/
def anyByte (n : Nat) (Q : Type*) [CacheValidator Q] [LawfulCacheValidator Q] (c : Nat → UInt8) : Freshness n Q c where
  Good _ _ := True
  Now _ := True
  Slot _ _ _ _ := True
  read _ _ := trivial
  now _ _ _ := trivial
  valid := (coherence n Q c).valid
  other := (coherence n Q c).other
  deliver _ _ _ _ _ _ _ := trivial
  refill _ _ _ _ _ := trivial
  keep _ _ _ _ _ _ _ _ := trivial

def InRange (_ : CachedMemoryAccess n M Q) (op : MemoryOp) : Prop := ∀ d ∈ op.data, d.1.address < 2 ^ 64

/-- Whatever calls fail, a slot with its buffer is not marked. -/
theorem unmarked_of_reached {s0 s : CachedMemoryAccess n M Q} {ops : List MemoryOp} (h : Reached InRange s0 ops s)
    (h0 : s0.cache.Unmarked) : s.cache.Unmarked := by
  refine h.invariant (I := fun _ s => s.cache.Unmarked) h0 fun ops s op h hop => ?_
  have hu : (updated s.cache).Unmarked := ⟨h.length, h.unmarked⟩
  cases op with
  | read l =>
    have hs : (anyByte n Q (content s.mem)).Sound (updated s.cache) := ⟨hu, trivial, fun _ _ _ _ _ _ => trivial⟩
    exact (Freshness.physRead_spec _ rfl hs hop).1.sound.toUnmarked
  | write l => exact (writeBack_overlaid l hu hop).unmarked hu

/-- After a refused write later reads that are `Ok` return what the memory holds if and only
    if the write left the valid pages as they were. -/
theorem refused_write_iff (mem : M) {pageSize : Nat} (hd : pageSize ∣ 2 ^ 64) (hlt : pageSize < 2 ^ 64) (mask : PageType)
    (validator : Q) {ops : List MemoryOp} {s : CachedMemoryAccess n M Q}
    (hreach : Reached InRange ⟨mem, withPageSize n pageSize hd hlt mask validator⟩ ops s)
    (hvalid : ∀ i buf, s.cache.Cached i buf → buf = bytesAt (content s.mem) (s.cache.address i) s.cache.pageSize)
    (hs : Steady s.cache.validator) (hs' : Steady (updateValidity s.cache.validator))
    {data : List (PhysicalAddress × List UInt8)} (hdata : ∀ d ∈ data, d.1.address < 2 ^ 64) {e : Error}
    (herr : (PhysicalMemory.physWriteRawList s data).2 = .error e) :
    (∀ ops' s', Reached Unpoisoned (s.apply (.write data)) ops' s' → ∀ l, Unpoisoned s' (.read l) →
      (PhysicalMemory.physReadRawList s' l).2.2 = .ok () →
      (PhysicalMemory.physReadRawList s' l).2.1 = l.map fun d => bytesAt (content s'.mem) d.1.address d.2.length) ↔
    WritesThrough s data (content s.mem) := by
  have hun : s.cache.Unmarked := unmarked_of_reached hreach
    ⟨fun i buf hb => by cases hb; exact List.length_replicate, fun i buf _ => rfl⟩
  have hmem : content (s.apply (.write data)).mem = content s.mem := LawfulMemory.write_err s.mem data e herr
  have hcoh : Coherent s := by
    refine fun _ => ⟨⟨hun.length, hun.unmarked⟩, trivial, fun i buf hc j b hj => ?_⟩
    have hlast : j < s.cache.pageSize → s.cache.address i + j < 2 ^ 64 := fun hj => (hc.2.2.add hj).2.2
    have hb := hvalid i buf ⟨hc.1, hs i hc.2.1, hc.2.2⟩
    rw [hb] at hj
    have hjl := (List.getElem?_eq_some_iff.mp hj).1
    rw [length_bytesAt] at hjl
    rw [getElem?_bytesAt _ _ hjl, Option.some.injEq, Nat.mod_eq_of_lt (hlast hjl)] at hj
    exact hj.symm
  constructor
  · intro hread i buf hc hnext j hj
    have hu : (updated s.cache).Unmarked := ⟨hun.length, hun.unmarked⟩
    have hover := writeBack_overlaid data hu hdata
    obtain ⟨hown, hval⟩ := hover.cached_iff i
    have hbuf := hover.cached i buf hc
    have hpos : s.cache.address i + j < 2 ^ 64 := (hc.2.2.add hj).2.2
    have hlen : buf.length = s.cache.pageSize := hun.length i buf hc.1
    have hc' : (updated (s.apply (.write data)).cache).Cached i
        (buf.mapIdx fun j b => (lastAt (s.cache.address i + j) (written (s.cache.cachedWrites data))).getD b) := by
      refine ⟨hbuf, ?_, hown.mpr hc.2.2⟩
      show isSlotValid (updateValidity (writeBack (updated s.cache) data).validator) i = true
      rw [hover.validator]
      exact hnext
    have haddr : (s.apply (.write data)).cache.address i = s.cache.address i := congrFun hover.address i
    have hsize : (s.apply (.write data)).cache.pageSize = s.cache.pageSize := hover.pageSize
    have hone := read_one_cached hc' (by rw [List.length_mapIdx, hsize]; exact hlen) (j := j) (by rw [hsize]; exact hj) 0
    have hready : Unpoisoned (s.apply (.write data)) (.read [(untyped ((s.apply (.write data)).cache.address i + j), [0])]) := by
      refine ⟨?_, fun d hd => ?_, fun d hd k hk _ hm => ?_⟩
      · show Steady (writeBack (updated s.cache) data).validator
        rw [hover.validator]
        exact hs'
      · rw [List.mem_singleton.mp hd, haddr]
        exact hpos
      · obtain rfl := List.mem_singleton.mp hd
        obtain rfl : k = 0 := Nat.lt_one_iff.mp hk
        have hown' : (s.apply (.write data)).cache.Owns i := hc'.2.2
        obtain ⟨-, hidx, hend⟩ := hown'.add (hsize.symm ▸ hj)
        have hnone := hm.1
        simp only [untyped, Nat.add_zero, Nat.mod_eq_of_lt hend, hidx] at hnone
        have hsome : (s.apply (.write data)).cache.pageRefs i = some _ := hc'.1
        rw [hsome] at hnone
        cases hnone
    have heq := hread [] _ .start _ hready (congrArg Prod.snd hone)
    rw [congrArg Prod.fst hone, hmem, haddr] at heq
    have hbyte : buf.get ⟨j, hlen ▸ hj⟩ = content s.mem (s.cache.address i + j) :=
      (hcoh hs).held i buf hc j _ (List.getElem?_eq_getElem (hlen ▸ hj))
    rw [List.get_eq_getElem] at hbyte
    simp only [untyped, bytesAt, List.map_cons, List.map_nil, List.length_singleton, List.range_one, Nat.add_zero,
      List.get_eq_getElem, List.getElem_mapIdx, List.cons.injEq, and_true, hbyte] at heq
    rw [Nat.mod_eq_of_lt hpos] at heq
    exact heq
  · intro hw ops' s' hreach' l hl hok
    have hcoh' := coherent_of_reached hreach' (coherent_write hcoh hs hdata (hmem ▸ hw))
    exact read_spec hcoh' hl.1 hl.2.1 hl.2.2 hok

end Reached

/-- A write refused before any page is valid. -/
theorem refused_write_iff_new :
    let s := apply (⟨⟨fun _ => 0, [true]⟩, smallCache stoppedClock⟩ :
      CachedMemoryAccess 2 FaultyMemory TimedCacheValidator) (.write [(tableAt 0x20, [7])])
    (PhysicalMemory.physReadRawList s [(tableAt 0x20, [1])]).2.1 = [bytesAt (content s.mem) 0x20 1] := by
  have hnone : ∀ i buf, ¬ (updated (smallCache stoppedClock)).Cached i buf := by
    intro i buf hc
    exact absurd hc.2.2.1 (show ¬ Address.invalid % 16 = 0 by decide)
  refine (refused_write_iff (⟨fun _ => 0, [true]⟩ : FaultyMemory) ⟨2 ^ 60, rfl⟩ (by decide)
    (PageType.pageTable ||| PageType.readOnly) stoppedClock .start (fun i buf hc => ?_)
    (TimedCacheValidator.steady (by decide)) (TimedCacheValidator.steady (by decide)) (by decide)
    (e := .connector "phys_write_raw_list failed") rfl).mpr (fun i buf hc => absurd hc (hnone i buf)) [] _ .start _
    ⟨TimedCacheValidator.steady (by decide +kernel), by decide, fun d hd k hk _ hm => ?_⟩ (by decide +kernel)
  · exact absurd hc.2.2.1 (show ¬ Address.invalid % 16 = 0 by decide)
  · obtain rfl := List.mem_singleton.mp hd
    obtain rfl : k = 0 := Nat.lt_one_iff.mp hk
    exact absurd hm.1 (by decide +kernel)

/-- A page read, a write of it refused, and the page served as if it were written. -/
theorem refused_write_served :
    let s := ((⟨⟨fun _ => 0, [false, true]⟩, smallCache stoppedClock⟩ :
      CachedMemoryAccess 2 FaultyMemory TimedCacheValidator).apply (.read [(tableAt 0x20, [0])]))
    (PhysicalMemory.physWriteRawList s [(tableAt 0x20, [7])]).2 = .error (.connector "phys_write_raw_list failed") ∧
      content (s.apply (.write [(tableAt 0x20, [7])])).mem 0x20 = 0 ∧
      (PhysicalMemory.physReadRawList (s.apply (.write [(tableAt 0x20, [7])])) [(tableAt 0x20, [1])]).2 =
        ([[7]], .ok ()) := by
  decide +kernel

end CachedMemoryAccess

end Jiaa
