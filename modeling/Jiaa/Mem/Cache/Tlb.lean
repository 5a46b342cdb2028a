/-
  Jiaa.Mem.Cache.Tlb — the cache of translations
  (memflow `mem/cache/tlb_cache.rs`, `mem/cache/cached_vat.rs`).

  A call cuts its requests where the cache begins to answer, answers from the cache what it
  can and hands the rest to the translator it wraps. Each buffer goes there with its
  address, which is cut with it: what comes back is stored under that address. Requests of
  more pages than the cache has slots go there whole and are not stored.
-/

import Jiaa.Iter.PageChunks
import Jiaa.Mem.Cache.Validator
import Jiaa.Mem.VirtTranslate

namespace Jiaa

/-- What the cache asks of `ArchitectureObj`. -/
structure ArchitectureObj where
  pageSize : Nat
  pageSize_dvd : pageSize ∣ 2 ^ 64
  one_lt : 1 < pageSize
  pageSize_lt : pageSize < 2 ^ 64

namespace ArchitectureObj

theorem pos (self : ArchitectureObj) : 0 < self.pageSize := by
  have := self.one_lt
  omega

end ArchitectureObj

structure TLBEntry where
  ptIndex : Nat
  virtAddr : Nat
  physAddr : PhysicalAddress

structure CachedEntry where
  ptIndex : Nat
  virtPage : Nat
  physPage : PhysicalAddress
  deriving DecidableEq

def CachedEntry.invalid : CachedEntry := ⟨2 ^ 64 - 1, Address.invalid, PhysicalAddress.invalid⟩

structure TLBCache (n : Nat) (Q : Type) where
  entries : Fin n → CachedEntry
  validator : Q

namespace TLBCache

variable {n : Nat} {Q : Type} [CacheValidator Q]

/-- `TLBCache::new` of a size. -/
def new (n : Nat) (validator : Q) : TLBCache n Q where
  entries _ := CachedEntry.invalid
  validator := CacheValidator.allocateSlots validator n

/-- A new entry, its slot validated. -/
def setEntry (self : TLBCache n Q) (idx : Fin n) (entry : CachedEntry) : TLBCache n Q where
  entries := Function.update self.entries idx entry
  validator := validateSlot self.validator idx

def isReadTooLong (_ : TLBCache n Q) (arch : ArchitectureObj) (size : Nat) : Bool := decide (n < size / arch.pageSize)

variable [NeZero n] {D : Type} [ScopedVirtualTranslate D]

def getCacheIndex (_ : TLBCache n Q) (pageAddr pageSize : Nat) : Fin n := Fin.ofNat n (pageAddr / pageSize)

def tryEntry (self : TLBCache n Q) (translator : D) (addr : Nat) (arch : ArchitectureObj) :
    Option (Except Error TLBEntry) :=
  let ptIndex := ScopedVirtualTranslate.translationTableId translator addr
  let pageSize := arch.pageSize
  let pageAddress := Address.asPageAligned addr pageSize
  let idx := self.getCacheIndex pageAddress pageSize
  let entry := self.entries idx
  if entry.ptIndex = ptIndex ∧ entry.virtPage = pageAddress ∧ isSlotValid self.validator idx = true then
    if entry.physPage.isValid && entry.physPage.hasPage then
      some (.ok ⟨ptIndex, addr, PhysicalAddress.withPage
        (Address.add (Address.asPageAligned entry.physPage.address pageSize) (Address.sub addr pageAddress))
        entry.physPage.pageType pageSize⟩)
    else some (.error .virtualTranslate)
  else none

def cacheEntry (self : TLBCache n Q) (translator : D) (inAddr : Nat) (outPage : PhysicalAddress)
    (arch : ArchitectureObj) : TLBCache n Q :=
  let ptIndex := ScopedVirtualTranslate.translationTableId translator inAddr
  let pageSize := arch.pageSize
  let idx := self.getCacheIndex (Address.asPageAligned inAddr pageSize) pageSize
  self.setEntry idx ⟨ptIndex, Address.asPageAligned inAddr pageSize, outPage⟩

/-- The pages from that of `inAddr` up to that of the address one past the end, the last one
    left out: `(page_addr..end_addr).step_by(page_size)`. -/
def invalidPages (inAddr invalidLen pageSize : Nat) : List Nat :=
  let pageAddr := Address.asPageAligned inAddr pageSize
  let endAddr := Address.asPageAligned (Address.add (Address.add inAddr invalidLen) 1) pageSize
  List.range' pageAddr ((endAddr - pageAddr + pageSize - 1) / pageSize) pageSize

/-- One page of `cache_invalid_if_uncached`. -/
def cacheInvalidPage (ptIndex : Nat) (arch : ArchitectureObj) (self : TLBCache n Q) (curPage : Nat) : TLBCache n Q :=
  let idx := self.getCacheIndex curPage arch.pageSize
  let entry := self.entries idx
  if entry.ptIndex = 2 ^ 64 - 1 ∨ entry.physPage.isValid = false ∨ isSlotValid self.validator idx = false then
    self.setEntry idx ⟨ptIndex, curPage, PhysicalAddress.invalid⟩
  else self

def cacheInvalidIfUncached (self : TLBCache n Q) (translator : D) (inAddr invalidLen : Nat) (arch : ArchitectureObj) :
    TLBCache n Q :=
  ((invalidPages inAddr invalidLen arch.pageSize).take n).foldl
    (cacheInvalidPage (ScopedVirtualTranslate.translationTableId translator inAddr) arch) self

end TLBCache

/-! ## The translator that caches -/

structure CachedVirtualTranslate (n : Nat) (V Q : Type) where
  vat : V
  tlb : TLBCache n Q
  arch : ArchitectureObj
  hitc : Nat
  misc : Nat

/-- The inner translator is called for something only: `peek().is_some()`. -/
def VirtualTranslate.peekIter {V M D T : Type} [VirtualTranslate V] [PhysicalMemory M] [ScopedVirtualTranslate D]
    [SplitAtIndex T] (vat : V) (mem : M) (translator : D) (addrs : List (Nat × T)) : Option (V × M × Outputs T) :=
  if addrs.isEmpty then some (vat, mem, Outputs.empty) else VirtualTranslate.virtToPhysIter vat mem translator addrs

namespace TLBCache

variable {n : Nat} [NeZero n] {Q : Type} [CacheValidator Q] {D : Type} [ScopedVirtualTranslate D]
variable {T : Type} [SplitAtIndex T]

/-- The pieces of the requests that are looked up. -/
def pieces (self : TLBCache n Q) (translator : D) (arch : ArchitectureObj) (addrs : List (Nat × T)) : List (Nat × T) :=
  (addrs.filter fun x => !self.isReadTooLong arch (SplitAtIndex.length x.2)).flatMap fun x =>
    pageChunksBy x.2 x.1 arch.pageSize fun addr split _ =>
      (self.tryEntry translator (Address.add addr (SplitAtIndex.length split)) arch).isSome ||
        (self.tryEntry translator addr arch).isSome

def uncachedIn (self : TLBCache n Q) (arch : ArchitectureObj) (addrs : List (Nat × T)) : List (Nat × T) :=
  addrs.filter fun x => self.isReadTooLong arch (SplitAtIndex.length x.2)

def hits (self : TLBCache n Q) (translator : D) (arch : ArchitectureObj) (pieces : List (Nat × T)) : Outputs T where
  out := pieces.filterMap fun x => match self.tryEntry translator x.1 arch with
    | some (.ok entry) => some (entry.physAddr, x.2)
    | _ => none
  outFail := pieces.filterMap fun x => match self.tryEntry translator x.1 arch with
    | some (.error error) => some (error, x.1, x.2)
    | _ => none

def misses (self : TLBCache n Q) (translator : D) (arch : ArchitectureObj) (pieces : List (Nat × T)) :
    List (Nat × Nat × T) :=
  pieces.filterMap fun x => match self.tryEntry translator x.1 arch with
    | some _ => none
    | none => some (x.1, x)

/-- What the results of the inner translator leave in the cache. -/
def cacheUncached (self : TLBCache n Q) (translator : D) (arch : ArchitectureObj) (uncached : Outputs (Nat × T)) :
    TLBCache n Q :=
  let tlb := uncached.out.foldl (fun tlb x => tlb.cacheEntry translator x.2.1 x.1 arch) self
  uncached.outFail.foldl
    (fun tlb x => tlb.cacheInvalidIfUncached translator x.2.1 (SplitAtIndex.length x.2.2.2) arch) tlb

end TLBCache

namespace CachedVirtualTranslate

variable {n : Nat} {V Q : Type} [CacheValidator Q]

def new (vat : V) (tlb : TLBCache n Q) (arch : ArchitectureObj) : CachedVirtualTranslate n V Q := ⟨vat, tlb, arch, 0, 0⟩

/-- The cache as a call finds it. -/
def updated (self : CachedVirtualTranslate n V Q) : TLBCache n Q :=
  { self.tlb with validator := updateValidity self.tlb.validator }

variable [NeZero n] [VirtualTranslate V]

instance : VirtualTranslate (CachedVirtualTranslate n V Q) where
  virtToPhysIter self mem translator addrs :=
    let tlb := self.updated
    let pieces := tlb.pieces translator self.arch addrs
    let hits := tlb.hits translator self.arch pieces
    let misses := tlb.misses translator self.arch pieces
    (VirtualTranslate.peekIter self.vat mem translator misses).bind fun (vat, mem, uncached) =>
      (VirtualTranslate.peekIter vat mem translator (tlb.uncachedIn self.arch addrs)).map fun (vat, mem, long) =>
        ({ vat := vat
           tlb := tlb.cacheUncached translator self.arch uncached
           arch := self.arch
           hitc := Address.add self.hitc (hits.out.length + hits.outFail.length)
           misc := Address.add self.misc
             (misses.map fun x => max 1 (SplitAtIndex.length x.2.2 / self.arch.pageSize)).sum }, mem,
          ⟨hits.out ++ long.out ++ uncached.out.map fun x => (x.1, x.2.2),
            hits.outFail ++ long.outFail ++ uncached.outFail.map fun x => (x.1, x.2.1, x.2.2.2)⟩)

end CachedVirtualTranslate

/-! ## The architectures -/

def x64Obj : ArchitectureObj := ⟨x64Arch.pageSize, by decide +kernel, by decide +kernel, by decide +kernel⟩

def x32Obj : ArchitectureObj := ⟨x32Arch.pageSize, by decide +kernel, by decide +kernel, by decide +kernel⟩

def x32PaeObj : ArchitectureObj := ⟨x32PaeArch.pageSize, by decide +kernel, by decide +kernel, by decide +kernel⟩

/-- The caches of runs on fixed inputs have four slots. -/
instance neZeroFour : NeZero 4 := ⟨by decide⟩

end Jiaa
