/-
  Jiaa.Mem.Cache.PageCache — the cache of physical pages
  (memflow `mem/cache/page_cache.rs`, `mem/cache/cached_memory_access.rs`).

  A slot lends its buffer out for the time of a use: `take_page` takes it out of
  `page_refs`, `put_page` gives it back. A read sorts the parts of its requests into those
  copied at once, those whose page is read into the slot first (`clist`, the pages in
  `wlistcache`) and those read past the cache (`wlist`), and flushes the lists after the
  last request or when one is long. A buffer that is taken and not put back is lost.
-/

import Jiaa.Iter.PageChunks
import Jiaa.Mem.Buffers
import Jiaa.Mem.Cache.Validator

namespace Jiaa

inductive PageValidity where
  | invalid
  | validatable (buf : List UInt8)
  | toBeValidated
  | valid (buf : List UInt8)
  deriving DecidableEq

structure CacheEntry where
  address : Nat
  validity : PageValidity

/-- A cache of `n` slots. The layout of its buffers exists for page sizes that are powers
    of two only. -/
structure PageCache (n : Nat) (Q : Type*) where
  address : Fin n → Nat
  pageRefs : Fin n → Option (List UInt8)
  addressOnceValidated : Fin n → Nat
  pageSize : Nat
  pageSize_dvd : pageSize ∣ 2 ^ 64
  pageSize_lt : pageSize < 2 ^ 64
  pageTypeMask : PageType
  validator : Q

namespace PageCache

variable {n : Nat} [NeZero n] {Q : Type*} [CacheValidator Q]

/-- `with_page_size` of a cache of `n` pages. -/
def withPageSize (n : Nat) (pageSize : Nat) (hd : pageSize ∣ 2 ^ 64) (hs : pageSize < 2 ^ 64) (pageTypeMask : PageType)
    (validator : Q) : PageCache n Q where
  address _ := Address.invalid
  pageRefs _ := some (List.replicate pageSize 0)
  addressOnceValidated _ := Address.invalid
  pageSize := pageSize
  pageSize_dvd := hd
  pageSize_lt := hs
  pageTypeMask := pageTypeMask
  validator := CacheValidator.allocateSlots validator n

def pageOf (self : PageCache n Q) (addr : Nat) : Nat := Address.asPageAligned addr self.pageSize

def pageIndex (self : PageCache n Q) (addr : Nat) : Fin n := Fin.ofNat n (self.pageOf addr / self.pageSize)

def takePage (self : PageCache n Q) (addr : Nat) (skipValidator : Bool) : PageValidity × PageCache n Q :=
  let idx := self.pageIndex addr
  let taken := { self with pageRefs := Function.update self.pageRefs idx none }
  match self.pageRefs idx with
  | some buf =>
    if self.address idx = self.pageOf addr ∧ (skipValidator ∨ isSlotValid self.validator idx = true) then
      (.valid buf, taken)
    else if self.addressOnceValidated idx = self.pageOf addr ∨ self.addressOnceValidated idx = Address.invalid then
      (.validatable buf, taken)
    else (.invalid, taken)
  | none => if self.addressOnceValidated idx = self.pageOf addr then (.toBeValidated, taken) else (.invalid, taken)

def putPage (self : PageCache n Q) (addr : Nat) (page : List UInt8) : PageCache n Q :=
  { self with pageRefs := Function.update self.pageRefs (self.pageIndex addr) (some page) }

def isCachedPageType (self : PageCache n Q) (pageType : PageType) : Bool := self.pageTypeMask.contains pageType

def cachedPageMut (self : PageCache n Q) (addr : Nat) (skipValidator : Bool) : CacheEntry × PageCache n Q :=
  let (validity, taken) := self.takePage addr skipValidator
  (⟨self.pageOf addr, validity⟩, taken)

def putEntry (self : PageCache n Q) (entry : CacheEntry) : PageCache n Q :=
  match entry.validity with
  | .valid buf => self.putPage entry.address buf
  | .validatable buf => self.putPage entry.address buf
  | _ => self

def markPageForValidation (self : PageCache n Q) (addr : Nat) : PageCache n Q :=
  { self with
    addressOnceValidated := Function.update self.addressOnceValidated (self.pageIndex addr) (self.pageOf addr) }

def validatePage (self : PageCache n Q) (addr : Nat) (pageBuf : List UInt8) : PageCache n Q :=
  let idx := self.pageIndex addr
  { self with
    address := Function.update self.address idx addr
    addressOnceValidated := Function.update self.addressOnceValidated idx Address.invalid
    validator := validateSlot self.validator idx
    pageRefs := Function.update self.pageRefs idx (some pageBuf) }

/-- `page_chunks` of a request, each part with the request's page type. -/
def splitToChunks {T : Type*} [SplitAtIndex T] (self : PageCache n Q) (addr : PhysicalAddress) (out : T) :
    List (PhysicalAddress × T) :=
  (pageChunks out addr.address self.pageSize).map fun (paddr, chunk) =>
    (PhysicalAddress.withPage paddr addr.pageType addr.pageSize, chunk)

end PageCache

/-! ## Reading -/

/-- What a read works on. -/
structure CachedRead (n : Nat) (M Q : Type*) where
  cache : PageCache n Q
  mem : M
  heap : Loc → UInt8
  clist : List (PhysicalAddress × SliceMut)
  wlist : List (PhysicalAddress × SliceMut)
  wlistcache : List (PhysicalAddress × List UInt8)

namespace CachedRead

variable {n : Nat} [NeZero n] {M Q : Type*} [CacheValidator Q]

/-- `cached_buf` of the part of a page at `addr`. -/
def pagePart (buf : List UInt8) (start len : Nat) : List UInt8 := (buf.drop start).take len

def enqueueChunk (s : CachedRead n M Q) (prd : PhysicalAddress × SliceMut) : CachedRead n M Q :=
  let (entry, cache) := s.cache.cachedPageMut prd.1.address false
  match entry.validity with
  | .valid buf =>
    { s with
      cache := cache.putPage entry.address buf
      heap := copyFromSlice s.heap prd.2 (pagePart buf (Address.sub prd.1.address entry.address) prd.2.len) }
  | .validatable buf =>
    { s with
      cache := cache.markPageForValidation entry.address
      clist := s.clist ++ [prd]
      wlistcache := s.wlistcache ++ [(PhysicalAddress.ofAddress entry.address, buf)] }
  | .toBeValidated => { s with cache := cache, clist := s.clist ++ [prd] }
  | .invalid => { s with cache := cache, wlist := s.wlist ++ [prd] }

def enqueue (s : CachedRead n M Q) (prd : PhysicalAddress × SliceMut) : CachedRead n M Q :=
  if s.cache.isCachedPageType prd.1.pageType then (s.cache.splitToChunks prd.1 prd.2).foldl enqueueChunk s
  else { s with wlist := s.wlist ++ [prd] }

variable [PhysicalMemory M]

def readWlist (s : CachedRead n M Q) : CachedRead n M Q × Except Error Unit :=
  if s.wlist.isEmpty then (s, .ok ())
  else
    let (mem, bufs, res) := PhysicalMemory.physReadRawList s.mem (s.wlist.map fun p => (p.1, p.2.locs.map s.heap))
    ({ s with mem := mem, heap := copyAll s.heap ((s.wlist.map (·.2)).zip bufs), wlist := [] }, res)

/-- On an error the pages stay lent out. -/
def readWlistcache (s : CachedRead n M Q) : CachedRead n M Q × Except Error Unit :=
  if s.wlistcache.isEmpty then (s, .ok ())
  else
    match PhysicalMemory.physReadRawList s.mem s.wlistcache with
    | (mem, _, .error e) => ({ s with mem := mem }, .error e)
    | (mem, bufs, .ok ()) =>
      ({ s with
        mem := mem
        cache := (s.wlistcache.zip bufs).foldl (fun cache p => cache.validatePage p.1.1.address p.2) s.cache
        wlistcache := [] }, .ok ())

def copyBack (s : CachedRead n M Q) (prd : PhysicalAddress × SliceMut) : CachedRead n M Q :=
  let (entry, cache) := s.cache.cachedPageMut prd.1.address false
  match entry.validity with
  | .valid buf =>
    { s with
      cache := cache.putPage entry.address buf
      heap := copyFromSlice s.heap prd.2
        (pagePart buf (Address.sub prd.1.address (Address.asPageAligned entry.address s.cache.pageSize)) prd.2.len) }
  | _ => { s with cache := cache }

/-- `clist.pop()` until it is empty. -/
def copyClist (s : CachedRead n M Q) : CachedRead n M Q := { s.clist.reverse.foldl copyBack s with clist := [] }

def flush (s : CachedRead n M Q) : CachedRead n M Q × Except Error Unit :=
  match s.readWlist with
  | (s, .error e) => (s, .error e)
  | (s, .ok ()) =>
    match s.readWlistcache with
    | (s, .error e) => (s, .error e)
    | (s, .ok ()) => (s.copyClist, .ok ())

/-- The loop of `cached_read` over the requests. -/
def readLoop (s : CachedRead n M Q) : List (PhysicalAddress × SliceMut) → CachedRead n M Q × Except Error Unit
  | [] => (s, .ok ())
  | prd :: rest =>
    let s := s.enqueue prd
    if rest.isEmpty ∨ 64 ≤ s.wlist.length ∨ 64 ≤ s.wlistcache.length ∨ 64 ≤ s.clist.length then
      match s.flush with
      | (s, .error e) => (s, .error e)
      | (s, .ok ()) => readLoop s rest
    else readLoop s rest

end CachedRead

/-! ## Access through the cache -/

structure CachedMemoryAccess (n : Nat) (M Q : Type*) where
  mem : M
  cache : PageCache n Q

namespace CachedMemoryAccess

variable {n : Nat} [NeZero n] {M Q : Type*} [CacheValidator Q]

def updated (cache : PageCache n Q) : PageCache n Q := { cache with validator := updateValidity cache.validator }

/-- A part of a page given new bytes. -/
def patch (buf : List UInt8) (start : Nat) (l : List UInt8) : List UInt8 :=
  buf.take start ++ l ++ buf.drop (start + l.length)

/-- Write-back into a page that is still valid. -/
def writeChunk (cache : PageCache n Q) (prd : PhysicalAddress × List UInt8) : PageCache n Q :=
  let (entry, cache) := cache.cachedPageMut prd.1.address false
  match entry.validity with
  | .valid buf => cache.putEntry ⟨entry.address, .valid (patch buf (Address.sub prd.1.address entry.address) prd.2)⟩
  | v => cache.putEntry ⟨entry.address, v⟩

def writeBack (cache : PageCache n Q) (data : List (PhysicalAddress × List UInt8)) : PageCache n Q :=
  data.foldl (fun cache d =>
    if cache.isCachedPageType d.1.pageType then (cache.splitToChunks d.1 d.2).foldl writeChunk cache else cache) cache

instance [PhysicalMemory M] : PhysicalMemory (CachedMemoryAccess n M Q) where
  physReadRawList self data :=
    let (s, res) := CachedRead.readLoop ⟨updated self.cache, self.mem, heapOf data, [], [], []⟩ (slices data)
    (⟨s.mem, s.cache⟩, bufsOf data s.heap, res)
  physWriteRawList self data :=
    let cache := writeBack (updated self.cache) data
    let (mem, res) := PhysicalMemory.physWriteRawList self.mem data
    (⟨mem, cache⟩, res)

end CachedMemoryAccess

end Jiaa
