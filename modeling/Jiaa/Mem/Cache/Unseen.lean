/-
  Jiaa.Mem.Cache.Unseen — the page cache under the accesses of processes
  (memflow `mem/cache/cached_memory_access.rs`, `mem/virt_mem/virtual_dma.rs`).

  The tables a walk reads come through the page cache as the data does, and so do the entries
  that the cache of translations keeps. While what is written is cached, the memory behind a
  page cache cannot be told from the memory without it.

  - `alike_cache`: a cache in a coherent state and its memory are alike;
  - `page_cache_unseen`: every run of accesses returns what it returns without the page cache;
  - `shows_cached`: so does what a virtual memory shows.
-/

import Jiaa.Mem.Alike
import Jiaa.Mem.Cache.TlbIsolation
import Jiaa.Mem.Cache.Transparency
import Jiaa.Mem.GuestMemory

namespace Jiaa

open PageCache

/-- However often it is updated and slots are validated, no update makes a slot valid. -/
def StaysSteady {Q : Type} [CacheValidator Q] (q : Q) : Prop :=
  ∃ I : Q → Prop, I q ∧ ∀ q, I q → Steady q ∧ I (updateValidity q) ∧ ∀ i, I (validateSlot q i)

/-- A clock that does not go back. -/
theorem TimedCacheValidator.staysSteady {q : TimedCacheValidator} (h : q.lastTime ≤ q.clock 0)
    (hmono : ∀ k, q.clock k ≤ q.clock (k + 1)) : StaysSteady q :=
  ⟨fun q => q.lastTime ≤ q.clock 0 ∧ ∀ k, q.clock k ≤ q.clock (k + 1), ⟨h, hmono⟩, fun _ hq =>
    ⟨steady hq.1, ⟨hq.2 0, fun k => hq.2 (k + 1)⟩, fun _ => hq⟩⟩

namespace CachedMemoryAccess

variable {n : Nat} [NeZero n] {M Q : Type} [CacheValidator Q] [LawfulCacheValidator Q] [PhysicalMemory M]
  [LawfulMemory M]

/-- Coherence, with a validator in `I`. -/
def steadyCoherence (n : Nat) {Q : Type} [CacheValidator Q] [LawfulCacheValidator Q] {I : Q → Prop}
    (hI : ∀ q, I q → ∀ i, I (validateSlot q i)) (c : Nat → UInt8) : Freshness n Q c :=
  { coherence n Q c with Now := I, now := fun q i h => hI q h i, valid := fun q i _ => LawfulCacheValidator.validate_self q i
                         deliver := fun _ _ _ _ _ _ h => h, refill := fun _ _ _ _ _ => rfl, keep := fun _ _ _ _ _ _ _ h => h }

/-- A cache that the memory `m` cannot be told from. -/
structure Unseen (I : Q → Prop) (mask : PageType) (s : CachedMemoryAccess n M Q) (m : M) : Prop where
  coherent : Coherent s
  whole : Whole s.cache
  mask : s.cache.pageTypeMask = mask
  validator : I s.cache.validator
  content : content s.mem = content m

variable {I : Q → Prop} {mask : PageType} {s : CachedMemoryAccess n M Q} {m : M}
  {data : List (PhysicalAddress × List UInt8)}

/-- Reads and writes leave the validator in `I`. -/
theorem validator_read (hI : ∀ q, I q → Steady q ∧ I (updateValidity q) ∧ ∀ i, I (validateSlot q i)) (h : Unseen I mask s m)
    (hlt : ∀ d ∈ data, d.1.address < 2 ^ 64) : I (s.apply (.read data)).cache.validator := by
  have hsound := h.coherent (hI _ h.validator).1
  have hs : (steadyCoherence n (fun q hq i => (hI q hq).2.2 i) (Jiaa.content s.mem)).Sound (updated s.cache) :=
    ⟨hsound.toUnmarked, (hI _ h.validator).2.1, hsound.held⟩
  exact (Freshness.physRead_spec _ rfl hs hlt).1.sound.now

theorem validator_write (hI : ∀ q, I q → Steady q ∧ I (updateValidity q) ∧ ∀ i, I (validateSlot q i)) (h : Unseen I mask s m)
    (hlt : ∀ d ∈ data, d.1.address < 2 ^ 64) : I (s.apply (.write data)).cache.validator := by
  have hsound := h.coherent (hI _ h.validator).1
  have hkept : (writeBack (updated s.cache) data).validator = updateValidity s.cache.validator :=
    (writeBack_overlaid data hsound.toUnmarked hlt).validator
  show I (writeBack (updated s.cache) data).validator
  rw [hkept]
  exact (hI _ h.validator).2.1

variable [NeverFails M]

theorem alike_cache (hI : ∀ q, I q → Steady q ∧ I (updateValidity q) ∧ ∀ i, I (validateSlot q i)) (mask : PageType) :
    Alike (fun t => mask.contains t = true) (Unseen (n := n) (M := M) I mask) where
  read {s m} data h hlt := by
    have hserving : Serving s [] s := ⟨h.coherent, h.whole, rfl, rfl⟩
    have hsteady := (hI _ h.validator).1
    have hread := hserving.read hsteady hlt
    constructor
    · have hok := AnswersReads.read m data
      rw [hserving.read_eq hsteady hlt, h.content, ← LawfulMemory.read_ok m data hok, ← hok]
    · exact ⟨hread.coherent, hread.whole, hread.mask.trans h.mask, validator_read hI h hlt,
        (coherent_read h.coherent hsteady hlt).2.trans (h.content.trans (LawfulMemory.read_content m data).symm)⟩
  write {s m} data h hw := by
    have hlt := fun d hd => (hw d hd).1
    have hserving : Serving s [] s := ⟨h.coherent, h.whole, rfl, rfl⟩
    have hsteady := (hI _ h.validator).1
    have hwrite := hserving.write hsteady hlt (writesThrough_of_cached fun d hd => by rw [h.mask]; exact (hw d hd).2)
    constructor
    · exact (NeverFails.write s.mem data).trans (NeverFails.write m data).symm
    · refine ⟨hwrite.coherent, hwrite.whole, hwrite.mask.trans h.mask, validator_write hI h hlt, ?_⟩
      have hcontent : Jiaa.content (s.apply (.write data)).mem = applyWrites (Jiaa.content s.mem) data := write_content
      rw [LawfulMemory.write_ok m data (NeverFails.write m data), ← h.content]
      exact hcontent

/-! ## Runs -/

/-- The types a walk gives are among these. -/
theorem contains_walkType {mask t : PageType}
    (h : mask.contains (PageType.writeable ||| PageType.readOnly ||| PageType.noExec) = true) (ht : WalkType t) :
    mask.contains t = true := by
  have hin : (PageType.writeable ||| PageType.readOnly ||| PageType.noExec) &&& t = t := by
    obtain ⟨write, noexec, rfl⟩ := ht
    revert write noexec
    decide
  have hmask : mask &&& (PageType.writeable ||| PageType.readOnly ||| PageType.noExec) =
      PageType.writeable ||| PageType.readOnly ||| PageType.noExec := by
    simpa [PageType.contains] using h
  have hand : mask &&& t = t := by
    rw [← hin, ← BitVec.and_assoc, hmask]
  simp [PageType.contains, hand]

omit [LawfulCacheValidator Q] [NeverFails M] in
theorem unseen_new (mem : M) {pageSize : Nat} (hd : pageSize ∣ 2 ^ 64) (hlt : pageSize < 2 ^ 64) (mask : PageType) {validator : Q}
    [LawfulCacheValidator Q] (hnew : HoldsNone n pageSize validator) (hI : I (CacheValidator.allocateSlots validator n)) :
    Unseen I mask (⟨mem, withPageSize n pageSize hd hlt mask validator⟩ : CachedMemoryAccess n M Q) mem :=
  ⟨coherent_new mem hd hlt mask hnew, whole_new mem hd hlt mask validator, rfl, hI, rfl⟩

/-- Accesses of any number of processes through a cache of translations, over the page cache
    and over the memory: the same buffers and results, the same translations kept, and in the
    end the same contents, where nothing is written or pages of all types that data may have
    are cached. -/
theorem page_cache_unseen {k : Nat} [NeZero k] {Q' : Type} [CacheValidator Q'] (validator' : Q') (arch : ArchitectureObj)
    (mem : M) {pageSize : Nat} (hd : pageSize ∣ 2 ^ 64) (hlt : pageSize < 2 ^ 64) (mask : PageType) {validator : Q}
    (hnew : HoldsNone n pageSize validator) (hsteady : StaysSteady (CacheValidator.allocateSlots validator n))
    (accesses : List VirtAccess) (hw : (∀ access ∈ accesses, access.OnlyReads) ∨
      mask.contains (PageType.writeable ||| PageType.readOnly ||| PageType.noExec) = true) :
    Option.Rel (fun x y => Jiaa.content x.1.mem = Jiaa.content y.1 ∧ x.2 = y.2)
      (VirtualDMA.performAll (⟨mem, withPageSize n pageSize hd hlt mask validator⟩ : CachedMemoryAccess n M Q)
        (CachedVirtualTranslate.new DirectTranslate.mk (TLBCache.new k validator') arch) accesses)
      (VirtualDMA.performAll mem (CachedVirtualTranslate.new DirectTranslate.mk (TLBCache.new k validator') arch) accesses) := by
  obtain ⟨I, hI0, hI⟩ := hsteady
  have hkeeps : MemoryBlind.Keeps (CachedVirtualTranslate.new DirectTranslate.mk (TLBCache.new k validator') arch) :=
    ⟨trivial, TLBCache.holdsWalked_new validator'⟩
  have hrun := VirtualDMA.performAll_alike (alike_cache (M := M) hI mask) accesses
    (hw.imp_right fun hmask t ht => contains_walkType hmask ht) (unseen_new mem hd hlt mask hnew hI0) hkeeps
  exact rel_imp hrun fun x y hxy => ⟨hxy.mem.content, Prod.ext hxy.vat hxy.results⟩

/-- A page with tables of its own: two bytes read, one written, and read again. -/
def readWritten : List VirtAccess :=
  let process : X86ScopedVirtualTranslate := ⟨x32PaeArch, 0x1020⟩
  [⟨x32PaeArch, process, .read [(0x1000, [0, 0])]⟩, ⟨x32PaeArch, process, .write [(0x1001, [7])]⟩,
    ⟨x32PaeArch, process, .read [(0x1000, [0, 0]), (0x5000, [1])]⟩]

theorem page_cache_unseen_readWritten :
    let vat : CachedVirtualTranslate 4 DirectTranslate CountCacheValidator :=
      CachedVirtualTranslate.new DirectTranslate.mk (TLBCache.new 4 (CountCacheValidator.new 2)) x32PaeObj
    Option.Rel (fun x y => Jiaa.content x.1.mem = Jiaa.content y.1 ∧ x.2 = y.2)
      (VirtualDMA.performAll (⟨CachedVirtualTranslate.oneTableMapped, withPageSize 2 16 ⟨2 ^ 60, rfl⟩ (by decide)
        (PageType.writeable ||| PageType.readOnly ||| PageType.noExec) stoppedClock⟩ :
          CachedMemoryAccess 2 FlatMemory TimedCacheValidator) vat readWritten)
      (VirtualDMA.performAll CachedVirtualTranslate.oneTableMapped vat readWritten) :=
  page_cache_unseen (CountCacheValidator.new 2) x32PaeObj CachedVirtualTranslate.oneTableMapped ⟨2 ^ 60, rfl⟩ (by decide)
    (PageType.writeable ||| PageType.readOnly ||| PageType.noExec) (Or.inl (by decide))
    (TimedCacheValidator.staysSteady (by decide) fun _ => Int.le_refl _) readWritten (Or.inr (by decide))

/-! ## What is shown -/

/-- What a virtual memory shows is shown through the page cache. -/
theorem shows_cached {V : Type} [VirtualTranslate V] [MemoryBlind V]
    (hI : ∀ q, I q → Steady q ∧ I (updateValidity q) ∧ ∀ i, I (validateSlot q i)) {g : GuestMemory}
    {P : VirtualDMA M V X86ScopedVirtualTranslate → Prop} (h : Shows g P) :
    Shows g fun w : VirtualDMA (CachedMemoryAccess n M Q) V X86ScopedVirtualTranslate =>
      MemoryBlind.Keeps w.vat ∧ ∃ m, Unseen I mask w.physMem m ∧ P { w with physMem := m } := by
  rintro ⟨s, vat, procArch, d⟩ ⟨hv, m, hm, hp⟩ addr out haddr hout
  obtain ⟨w', hw', hread⟩ := h _ hp addr out haddr hout
  have hsame := VirtualDMA.readList_alike (alike_cache (M := M) hI mask) procArch d [(addr, out)] hm hv
  rw [hread] at hsame
  generalize hrun : VirtualMemory.virtReadRawList
    (⟨s, vat, procArch, d⟩ : VirtualDMA (CachedMemoryAccess n M Q) V X86ScopedVirtualTranslate) [(addr, out)] = x at hsame ⊢
  cases hsame with
  | @some x _ hxy =>
    obtain ⟨⟨s', vat', procArch', d'⟩, res⟩ := x
    obtain ⟨hm', rfl, hresults, hv'⟩ := hxy
    obtain ⟨hfields, rfl⟩ := Prod.mk.inj hresults
    obtain ⟨rfl, rfl⟩ := Prod.mk.inj hfields
    exact ⟨_, ⟨hv', w'.physMem, hm', hw'⟩, rfl⟩

end CachedMemoryAccess

end Jiaa
