/-
  Jiaa.Connector.Mmap — a memory that is a memory map of buffers
  (memflow `connector/mmap.rs`, the read-only `MappedPhysicalMemory`).

  `MappedMemory` is what a reader of such a memory relies on: every list of reads is `Ok`,
  mapped bytes are filled, and a byte at an unmapped address is left as it was.

  - `physRead_eq`: the connector is such a memory.
-/

import Jiaa.Mem.Buffers
import Jiaa.Mem.MapLookup

namespace Jiaa

class MappedMemory (M : Type*) [PhysicalMemory M] where
  mapped : M → Nat → Option UInt8
  read_mapped : ∀ (m : M) l, mapped (PhysicalMemory.physReadRawList m l).1 = mapped m
  read_eq : ∀ (m : M) l, (PhysicalMemory.physReadRawList m l).2 =
    (l.map fun d => d.2.mapIdx fun j b => (mapped m (d.1.address + j)).getD b, .ok ())

/-- A memory map whose regions are sorted, disjoint and end inside the address space. -/
structure MappedPhysicalMemory where
  info : MemoryMap (List UInt8)
  ready : info.Ready
  inside : info.Inside

namespace MappedPhysicalMemory

/-- `copy_from_slice` of each mapped piece. -/
def copyPieces (heap : Loc → UInt8) (pieces : List (List UInt8 × SliceMut)) : Loc → UInt8 :=
  pieces.foldl (fun heap p => copyFromSlice heap p.2 p.1) heap

instance : PhysicalMemory MappedPhysicalMemory where
  physReadRawList self data :=
    let pieces := ((self.info.mapIter (slices data)).map (·.1)).getD []
    (self, bufsOf data (copyPieces (heapOf data) pieces), .ok ())
  physWriteRawList self _ := (self, .error (.connector "Target mapping is not writeable"))

theorem copyPieces_eq (pieces : List (List UInt8 × SliceMut)) :
    ∀ heap, copyPieces heap pieces = putAll heap (pieces.flatMap pieceBytes) := by
  induction pieces with
  | nil => intro heap; rfl
  | cons p pieces ih =>
    intro heap
    rw [List.flatMap_cons, putAll_append, ← ih]
    rfl

/-- A list of reads fills the mapped bytes and leaves the others. -/
theorem physRead_eq (self : MappedPhysicalMemory) (data : List (PhysicalAddress × List UInt8)) :
    (PhysicalMemory.physReadRawList self data).2 =
      (data.map fun d => d.2.mapIdx fun j b => (self.info.lookup (d.1.address + j)).getD b, .ok ()) := by
  obtain ⟨rets, fails, hrun, -, hcov⟩ := self.info.mapIter_covered self.ready self.inside (slices data)
  have hans : rets.flatMap pieceBytes = (slices data).flatMap (answers self.info.lookup) := hcov
  show (bufsOf data (copyPieces (heapOf data) (((self.info.mapIter (slices data)).map (·.1)).getD [])), _) = _
  rw [hrun, copyPieces_eq, Option.map_some, Option.getD_some, hans, bufsOf_putAll]

instance : MappedMemory MappedPhysicalMemory where
  mapped self a := self.info.lookup a
  read_mapped _ _ := rfl
  read_eq := physRead_eq

end MappedPhysicalMemory

end Jiaa
