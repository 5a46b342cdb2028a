/-
  Jiaa.Mem.Cache.Coherence — runs of reads and writes through the cache
  (memflow `mem/cache/cached_memory_access.rs`).

  A state is `Coherent` when every page valid at the next call is what the memory holds.
  A read keeps that, also one that fails. A write keeps it where the write-back leaves on
  the valid pages what the memory is left with (`WritesThrough`).

  - `read_spec`: from a coherent state a read that is `Ok` returns what the memory holds,
    but for pages left marked by a read that failed;
  - `Serving.read`, `Serving.write`: what a run keeps over a memory that never fails.
-/

import Jiaa.Mem.Cache.Freshness
import Jiaa.Mem.Cache.WriteBack

namespace Jiaa

open Lib.LastWrite PageCache

inductive MemoryOp where
  | read (data : List (PhysicalAddress × List UInt8))
  | write (data : List (PhysicalAddress × List UInt8))

def MemoryOp.data : MemoryOp → List (PhysicalAddress × List UInt8)
  | read data => data
  | write data => data

def MemoryOp.writes : MemoryOp → List (PhysicalAddress × List UInt8)
  | read _ => []
  | write data => data

namespace CachedMemoryAccess

variable {n : Nat} [NeZero n] {M Q : Type*} [CacheValidator Q] [PhysicalMemory M]

/-! ## Runs -/

def apply (self : CachedMemoryAccess n M Q) : MemoryOp → CachedMemoryAccess n M Q
  | .read data => (PhysicalMemory.physReadRawList self data).1
  | .write data => (PhysicalMemory.physWriteRawList self data).1

/-- The state after a run of calls each of which meets `cond`. -/
inductive Reached (cond : CachedMemoryAccess n M Q → MemoryOp → Prop) (s0 : CachedMemoryAccess n M Q) :
    List MemoryOp → CachedMemoryAccess n M Q → Prop
  | start : Reached cond s0 [] s0
  | step {ops : List MemoryOp} {s : CachedMemoryAccess n M Q} {op : MemoryOp} :
      Reached cond s0 ops s → cond s op → Reached cond s0 (ops ++ [op]) (s.apply op)

theorem Reached.invariant {cond : CachedMemoryAccess n M Q → MemoryOp → Prop} {s0 s : CachedMemoryAccess n M Q}
    {ops : List MemoryOp} {I : List MemoryOp → CachedMemoryAccess n M Q → Prop} (h : Reached cond s0 ops s)
    (h0 : I [] s0) (hstep : ∀ ops s op, I ops s → cond s op → I (ops ++ [op]) (s.apply op)) : I ops s := by
  induction h with
  | start => exact h0
  | step _ hc ih => exact hstep _ _ _ ih hc

/-- A memory that answers gives reads that are `Ok`. -/
theorem readLoop_ok [AnswersReads M] (ds : List (PhysicalAddress × SliceMut)) :
    ∀ s : CachedRead n M Q, (s.readLoop ds).2 = .ok () := by
  have hw : ∀ s : CachedRead n M Q, s.readWlist.2 = .ok () := by
    intro s
    unfold CachedRead.readWlist
    split
    · rfl
    · exact AnswersReads.read _ _
  have hc : ∀ s : CachedRead n M Q, s.readWlistcache.2 = .ok () := by
    intro s
    unfold CachedRead.readWlistcache
    split
    · rfl
    · have h := AnswersReads.read s.mem s.wlistcache
      generalize PhysicalMemory.physReadRawList s.mem s.wlistcache = r at h
      obtain ⟨mem, bufs, res⟩ := r
      cases h
      rfl
  have hf : ∀ s : CachedRead n M Q, s.flush.2 = .ok () := by
    intro s
    have h1 := hw s
    have h2 := hc s.readWlist.1
    unfold CachedRead.flush
    generalize s.readWlist = r at h1 h2
    obtain ⟨s1, res1⟩ := r
    cases h1
    simp only at h2 ⊢
    generalize s1.readWlistcache = r at h2
    obtain ⟨s2, res2⟩ := r
    cases h2
    rfl
  induction ds with
  | nil => intro s; rfl
  | cons d rest ih =>
    intro s
    unfold CachedRead.readLoop
    simp only
    split
    · have h := hf (s.enqueue d)
      generalize (s.enqueue d).flush = r at h
      obtain ⟨s1, res⟩ := r
      cases h
      exact ih s1
    · exact ih _

instance [AnswersReads M] : AnswersReads (CachedMemoryAccess n M Q) where
  read _ _ := readLoop_ok _ _

/-! ## Coherence -/

section Coherence

variable [LawfulMemory M] [LawfulCacheValidator Q]

/-- Every byte returned or held is the memory's. -/
def coherence (n : Nat) (Q : Type*) [CacheValidator Q] [LawfulCacheValidator Q] (c : Nat → UInt8) : Freshness n Q c where
  Good a b := b = c a
  Now _ := True
  Slot _ _ a b := b = c a
  read _ _ := rfl
  now _ _ _ := trivial
  valid q i _ := LawfulCacheValidator.validate_self q i
  other q _ _ h := LawfulCacheValidator.validate_other q _ _ fun e => h (Fin.ext e)
  deliver _ _ _ _ _ _ h := h
  refill _ _ _ _ _ := rfl
  keep _ _ _ _ _ _ _ h := h

/-- What is valid at the next call is what the memory holds. -/
def Coherent (self : CachedMemoryAccess n M Q) : Prop :=
  Steady self.cache.validator → (coherence n Q (content self.mem)).Sound (updated self.cache)

theorem sound_updated {c : Nat → UInt8} {cache : PageCache n Q} (hs : Steady cache.validator)
    (h : (coherence n Q c).Sound cache) : (coherence n Q c).Sound (updated cache) where
  length := h.length
  unmarked := h.unmarked
  now := trivial
  held i buf hc := h.held i buf ⟨hc.1, hs i hc.2.1, hc.2.2⟩

/-- A new cache holds no page: the address of its slots is the last byte's, which pages of
    one byte alone begin with. -/
def HoldsNone (n : Nat) (pageSize : Nat) (validator : Q) : Prop :=
  1 < pageSize ∨ ∀ i : Fin n, isSlotValid (CacheValidator.allocateSlots validator n) i = false

theorem coherent_new (mem : M) {pageSize : Nat} (hd : pageSize ∣ 2 ^ 64) (hlt : pageSize < 2 ^ 64) (mask : PageType)
    {validator : Q} (h : HoldsNone n pageSize validator) :
    Coherent (⟨mem, withPageSize n pageSize hd hlt mask validator⟩ : CachedMemoryAccess n M Q) := by
  refine fun hs => ⟨⟨fun i buf hb => ?_, fun i buf _ => rfl⟩, trivial, fun i buf hc => ?_⟩
  · have hb' : some (List.replicate pageSize (0 : UInt8)) = some buf := hb
    rw [Option.some.injEq] at hb'
    rw [← hb', List.length_replicate]
    rfl
  · rcases h with h | h
    · have hmod : Address.invalid % pageSize = 0 := hc.2.2.1
      obtain ⟨k, hk⟩ := hd
      obtain ⟨j, hj⟩ := Nat.dvd_of_mod_eq_zero hmod
      have hone : pageSize * k = pageSize * j + 1 := by
        rw [← hk, ← hj]
        decide
      have hdvd : pageSize ∣ 1 := (Nat.dvd_add_right ⟨j, rfl⟩).mp ⟨k, hone.symm⟩
      have := Nat.le_of_dvd Nat.one_pos hdvd
      omega
    · have hv := hs i hc.2.1
      have hf : isSlotValid (withPageSize n pageSize hd hlt mask validator).validator i = false := h i
      rw [hv] at hf
      cases hf

variable {self : CachedMemoryAccess n M Q} {data : List (PhysicalAddress × List UInt8)}

/-- One list of reads, `Ok` or not. -/
theorem coherent_read (h : Coherent self) (hs : Steady self.cache.validator) (hlt : ∀ d ∈ data, d.1.address < 2 ^ 64) :
    Coherent (self.apply (.read data)) ∧ content (self.apply (.read data)).mem = content self.mem := by
  obtain ⟨hkept, -⟩ := Freshness.physRead_spec _ rfl (h hs) hlt
  have hmem : content (self.apply (.read data)).mem = content self.mem := hkept.mem
  refine ⟨fun hs' => ?_, hmem⟩
  rw [hmem]
  exact sound_updated hs' hkept.sound

theorem read_spec (h : Coherent self) (hs : Steady self.cache.validator) (hlt : ∀ d ∈ data, d.1.address < 2 ^ 64)
    (hav : ∀ d ∈ data, ∀ k < d.2.length, Freshness.Avoids self.cache d k)
    (hok : (PhysicalMemory.physReadRawList self data).2.2 = .ok ()) :
    (PhysicalMemory.physReadRawList self data).2.1 = data.map fun d => bytesAt (content self.mem) d.1.address d.2.length :=
  Freshness.filled_eq_iff.mp (((Freshness.physRead_spec _ rfl (h hs) hlt).2 hok).2 hav)

variable (self data) in
/-- On every page valid at the next two calls the writes of a cached type leave what is in
    `c'`. -/
def WritesThrough (c' : Nat → UInt8) : Prop :=
  ∀ i buf, (updated self.cache).Cached i buf → isSlotValid (updateValidity (updateValidity self.cache.validator)) i = true →
    ∀ j < self.cache.pageSize, store (content self.mem) (written (self.cache.cachedWrites data)) (self.cache.address i + j) =
      c' (self.cache.address i + j)

/-- One list of writes, `Ok` or not. -/
theorem coherent_write (h : Coherent self) (hs : Steady self.cache.validator) (hlt : ∀ d ∈ data, d.1.address < 2 ^ 64)
    (hw : WritesThrough self data (content (self.apply (.write data)).mem)) : Coherent (self.apply (.write data)) := by
  intro hs'
  have hsound := h hs
  have hover := writeBack_overlaid data hsound.toUnmarked hlt
  have hcache : (self.apply (.write data)).cache = writeBack (updated self.cache) data := rfl
  rw [hcache] at hs' ⊢
  have hun := hover.unmarked hsound.toUnmarked
  refine ⟨⟨hun.length, hun.unmarked⟩, trivial, fun i buf hc j b hj => ?_⟩
  obtain ⟨hown, hval⟩ := hover.cached_iff i
  have hc' : (writeBack (updated self.cache) data).Cached i buf := ⟨hc.1, hs' i hc.2.1, hc.2.2⟩
  cases hb0 : (updated self.cache).pageRefs i with
  | none =>
    have hnone := hover.lent i hb0
    rw [hc'.1] at hnone
    cases hnone
  | some buf0 =>
    have hc0 : (updated self.cache).Cached i buf0 := ⟨hb0, hval ▸ hc'.2.1, hown.mp hc'.2.2⟩
    have hbuf := hover.cached i buf0 hc0
    rw [hc'.1, Option.some.injEq] at hbuf
    have hnext : isSlotValid (updateValidity (updateValidity self.cache.validator)) i = true := by
      have hv : isSlotValid (updateValidity (writeBack (updated self.cache) data).validator) i = true := hc.2.1
      rw [hover.validator] at hv
      exact hv
    have haddr : (updated (writeBack (updated self.cache) data)).address i = self.cache.address i :=
      congrFun hover.address i
    rw [hbuf, List.getElem?_mapIdx] at hj
    obtain ⟨b0, hb0, rfl⟩ := Option.map_eq_some_iff.mp hj
    have hjl := (List.getElem?_eq_some_iff.mp hb0).1
    rw [hsound.length i buf0 hc0.1] at hjl
    have hheld : b0 = content self.mem (self.cache.address i + j) := hsound.held i buf0 hc0 j b0 hb0
    rw [haddr, hheld]
    exact hw i buf0 hc0 hnext j hjl

/-! ## Lost buffers -/

/-- Every slot has its buffer. -/
def Whole (cache : PageCache n Q) : Prop := ∀ i, cache.pageRefs i ≠ none

omit [PhysicalMemory M] [LawfulMemory M] [CacheValidator Q] in
theorem avoids_of_whole {cache : PageCache n Q} (h : Whole cache) {T : Type*} (d : PhysicalAddress × T) (k : Nat) :
    Freshness.Avoids cache d k := fun _ hm => h _ hm.1

theorem whole_read [AnswersReads M] (h : Coherent self) (hs : Steady self.cache.validator)
    (hlt : ∀ d ∈ data, d.1.address < 2 ^ 64) (hw : Whole self.cache) : Whole (self.apply (.read data)).cache :=
  fun i hi => hw i (((Freshness.physRead_spec _ rfl (h hs) hlt).2 (AnswersReads.read self data)).1 i hi)

theorem whole_write (h : Coherent self) (hs : Steady self.cache.validator) (hlt : ∀ d ∈ data, d.1.address < 2 ^ 64)
    (hw : Whole self.cache) : Whole (self.apply (.write data)).cache := by
  intro i hi
  obtain ⟨buf, hb⟩ := Option.ne_none_iff_exists'.mp (hw i)
  obtain ⟨buf', hb', -⟩ := (writeBack_overlaid data (h hs).toUnmarked hlt).length i buf hb
  have hi' : (writeBack (updated self.cache) data).pageRefs i = none := hi
  rw [hb'] at hi'
  cases hi'

omit [NeZero n] [PhysicalMemory M] [LawfulMemory M] [LawfulCacheValidator Q] in
theorem whole_new (mem : M) {pageSize : Nat} (hd : pageSize ∣ 2 ^ 64) (hlt : pageSize < 2 ^ 64) (mask : PageType)
    (validator : Q) : Whole (⟨mem, withPageSize n pageSize hd hlt mask validator⟩ : CachedMemoryAccess n M Q).cache :=
  fun _ h => nomatch h

theorem read_mask (h : Coherent self) (hs : Steady self.cache.validator)
    (hlt : ∀ d ∈ data, d.1.address < 2 ^ 64) :
    (self.apply (.read data)).cache.pageTypeMask = self.cache.pageTypeMask :=
  (Freshness.physRead_spec _ rfl (h hs) hlt).1.mask

theorem write_mask (h : Coherent self) (hs : Steady self.cache.validator) (hlt : ∀ d ∈ data, d.1.address < 2 ^ 64) :
    (self.apply (.write data)).cache.pageTypeMask = self.cache.pageTypeMask :=
  (writeBack_overlaid data (h hs).toUnmarked hlt).mask

/-! ## A memory that never fails -/

section NeverFails

variable [NeverFails M]

omit [LawfulCacheValidator Q] in
theorem write_content : content (self.apply (.write data)).mem = applyWrites (content self.mem) data :=
  LawfulMemory.write_ok self.mem data (NeverFails.write self.mem data)

/-- What a run of reads and writes keeps. -/
structure Serving (s0 : CachedMemoryAccess n M Q) (ops : List MemoryOp) (s : CachedMemoryAccess n M Q) : Prop where
  coherent : Coherent s
  whole : Whole s.cache
  mask : s.cache.pageTypeMask = s0.cache.pageTypeMask
  mem : content s.mem = applyWrites (content s0.mem) (ops.flatMap MemoryOp.writes)

theorem Serving.read {s0 s : CachedMemoryAccess n M Q} {ops : List MemoryOp} (h : Serving s0 ops s)
    (hs : Steady s.cache.validator) (hlt : ∀ d ∈ data, d.1.address < 2 ^ 64) :
    Serving s0 (ops ++ [.read data]) (s.apply (.read data)) := by
  obtain ⟨hcoh, hmem⟩ := coherent_read h.coherent hs hlt
  refine ⟨hcoh, whole_read h.coherent hs hlt h.whole, (read_mask h.coherent hs hlt).trans h.mask, ?_⟩
  rw [hmem, h.mem]
  simp [MemoryOp.writes]

theorem Serving.write {s0 s : CachedMemoryAccess n M Q} {ops : List MemoryOp} (h : Serving s0 ops s)
    (hs : Steady s.cache.validator) (hlt : ∀ d ∈ data, d.1.address < 2 ^ 64)
    (hw : WritesThrough s data (applyWrites (content s.mem) data)) :
    Serving s0 (ops ++ [.write data]) (s.apply (.write data)) := by
  have hmem : content (s.apply (.write data)).mem = applyWrites (content s.mem) data := write_content
  refine ⟨coherent_write h.coherent hs hlt (hmem ▸ hw), whole_write h.coherent hs hlt h.whole,
    (write_mask h.coherent hs hlt).trans h.mask, ?_⟩
  rw [hmem, h.mem, List.flatMap_append]
  simp [MemoryOp.writes, applyWrites, List.foldl_append]

theorem Serving.read_eq {s0 s : CachedMemoryAccess n M Q} {ops : List MemoryOp} (h : Serving s0 ops s)
    (hs : Steady s.cache.validator) (hlt : ∀ d ∈ data, d.1.address < 2 ^ 64) :
    (PhysicalMemory.physReadRawList s data).2 =
      (data.map fun d => bytesAt (content s.mem) d.1.address d.2.length, .ok ()) := by
  have hok := AnswersReads.read s data
  exact Prod.ext (read_spec h.coherent hs hlt (fun d _ k _ => avoids_of_whole h.whole d k) hok) hok

end NeverFails

end Coherence

end CachedMemoryAccess

end Jiaa
