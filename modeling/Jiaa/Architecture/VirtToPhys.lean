/-
  Jiaa.Architecture.VirtToPhys — the batched page walk
  (memflow `architecture/mmu_spec.rs`: `virt_addr_filter`, `virt_to_phys_iter`,
  `read_pt_address_iter`; `architecture/x86/mod.rs`: `X86PageTableBase`).

  One round of the loop over the steps sorts the chunks of a step into delivered,
  failed and cut into the pages of the next step, then reads the table entries of all
  that are left in one list. `none` is the panic of the `unwrap` in `split_at_rev`.

  The page table buffer lives across the steps and is only resized, so it is a part of
  the state. `addr_map` is the set of its keys.
-/

import Jiaa.Architecture.ChunkPages
import Jiaa.Architecture.MmuSpec

namespace Jiaa

/-- The collections the caller extends. -/
structure Outputs (T : Type*) where
  out : List (PhysicalAddress × T)
  outFail : List (Error × Nat × T)
  deriving DecidableEq

namespace Outputs

variable {T : Type*}

def empty : Outputs T := ⟨[], []⟩

def failChunk (self : Outputs T) (err : Error) (chunk : TranslationChunk T) : Outputs T :=
  { self with outFail := self.outFail ++ chunk.vec.map fun entry => (err, entry.addr, entry.buf) }

end Outputs

namespace ArchMMUSpec

variable {M T : Type*} [SplitAtIndex T] (self : ArchMMUSpec)

/-! ## Filtering requests -/

def virtRange : Nat := 1 <<< ((self.virtAddrBitRange 0).2 - 1)

/-- The valid pieces and the rejected ones, extended. -/
def virtAddrFilter (addr : Nat) (buf : T) (validOut : List (TranslateData T)) (failOut : List (Error × Nat × T)) :
    Option (List (TranslateData T) × List (Error × Nat × T)) :=
  let fail (failOut : List (Error × Nat × T)) (data : Option (TranslateData T)) :=
    failOut ++ data.toList.map fun data => (Error.virtualTranslate, data.addr, data.buf)
  let valid (validOut : List (TranslateData T)) (data : TranslateData T) :=
    if 0 < SplitAtIndex.length data then validOut ++ [data] else validOut
  let (left, reject) := splitInclusiveAt (TranslateData.mk addr buf) (Address.bitMask 0 (self.addrSize * 8 - 1))
  let failOut := fail failOut reject
  let (lower, higher) := splitAt left self.virtRange
  let validOut := valid validOut lower
  match higher with
  | none => some (validOut, failOut)
  | some data =>
    (splitAtRev data self.virtRange).map fun (reject, higher) =>
      let lhs := Address.bitMask (self.virtAddrBitRange 0).2 (self.addrSize * 8 - 1)
      let rhs := higher.addr &&& lhs
      if lhs ^^^ rhs ≠ 0 then (validOut, failOut) else (valid validOut higher, fail failOut reject)

/-- `addrs.for_each(|data| dtb.virt_addr_filter(..))` into the one chunk of the table base. -/
def filterAll : List (Nat × T) → List (TranslateData T) → List (Error × Nat × T) →
    Option (List (TranslateData T) × List (Error × Nat × T))
  | [], validOut, failOut => some (validOut, failOut)
  | (addr, buf) :: addrs, validOut, failOut =>
    (self.virtAddrFilter addr buf validOut failOut).bind fun (validOut, failOut) => filterAll addrs validOut failOut

/-! ## Sorting the chunks of a step -/

/-- The pages of the next step, each with the address of the entry of its least byte. -/
def cutChunk (ptStep : Nat) (trChunk : TranslationChunk T) : List (TranslationChunk T) :=
  (pageChunks trChunk trChunk.minAddr (self.pageSizeStepUnchecked (ptStep + 1))).map fun (_, chunk) =>
    { chunk with ptAddr := self.vtopStep chunk.ptAddr chunk.minAddr ptStep }

def stepChunk (ptStep : Nat) (_ : Nat) (o : Outputs T) (trChunk : TranslationChunk T) :
    Outputs T × List (TranslationChunk T) :=
  if !self.checkEntry trChunk.ptAddr ptStep then (o.failChunk Error.virtualTranslate trChunk, [])
  else if self.isFinalMapping trChunk.ptAddr ptStep then
    ({ o with out := o.out ++ trChunk.vec.map fun entry =>
        (self.getPhysPage trChunk.ptAddr entry.addr ptStep, entry.buf) }, [])
  else (o, self.cutChunk ptStep trChunk)

/-! ## Reading the entries -/

/-- What the loop over the entries read carries. -/
structure PtRead (T : Type*) where
  ptRead : List (List UInt8)
  prevAddr : Option Nat
  addrMap : List Nat
  outputs : Outputs T

/-- One entry: dropped when it points at its own table, or holds the value of an entry
    kept before. -/
def filterEntry (step i : Nat) (st : PtRead T) (chunk : TranslationChunk T) : PtRead T × List (TranslationChunk T) :=
  match Lib.RevLoop.swapRemove st.ptRead i with
  | none => (st, [])
  | some (buf, ptRead) =>
    let ptAddr := leU64 (buf.take 8)
    if self.pteAddrMask chunk.ptAddr step ≠ self.pteAddrMask ptAddr step ∧
        (st.prevAddr = none ∨ (st.prevAddr ≠ some ptAddr ∧ ptAddr ∉ st.addrMap)) then
      ({ st with ptRead := ptRead, prevAddr := some ptAddr, addrMap := st.prevAddr.toList ++ st.addrMap },
        [{ chunk with ptAddr := ptAddr }])
    else
      ({ st with ptRead := ptRead, outputs := st.outputs.failChunk Error.virtualTranslate chunk }, [])

/-- `Vec::resize` with zeros. -/
def resize (buf : List UInt8) (n : Nat) : List UInt8 := buf.take n ++ List.replicate (n - buf.length) 0

/-- `chunks_exact_mut(8)` of a buffer of `n` entries. -/
def entryBufs (buf : List UInt8) (n : Nat) : List (List UInt8) := (List.range n).map fun i => (buf.drop (8 * i)).take 8

variable [PhysicalMemory M]

/-- The reads of one step: an entry for each chunk. -/
def ptReads (step : Nat) (addrs : List (TranslationChunk T)) (ptBuf : List UInt8) :
    List (PhysicalAddress × List UInt8) :=
  List.zipWith (fun trChunk chunk =>
      (PhysicalAddress.withPage trChunk.ptAddr PageType.pageTable (self.ptLeafSize step), chunk))
    addrs (entryBufs (resize ptBuf (8 * addrs.length)) addrs.length)

/-- The memory, the buffer, and what is left of the chunks with the outputs. -/
def readPtAddressIter (mem : M) (step : Nat) (addrs : List (TranslationChunk T)) (ptBuf : List UInt8)
    (o : Outputs T) : M × List UInt8 × Except Error (List (TranslationChunk T) × Outputs T) :=
  match PhysicalMemory.physReadRawList mem (self.ptReads step addrs ptBuf) with
  | (mem, bufs, .error err) => (mem, bufs.flatten, .error err)
  | (mem, bufs, .ok ()) =>
    let (st, addrs) := Lib.RevLoop.drainRev (self.filterEntry step) addrs.length ⟨bufs, none, [], o⟩ addrs
    (mem, bufs.flatten, .ok (addrs, st.outputs))

/-! ## The walk -/

/-- The rounds from `ptStep` on, the outputs first. -/
def walkLoop : Nat → Nat → M → List UInt8 → Outputs T → List (TranslationChunk T) → Outputs T × M
  | 0, _, mem, _, o, _ => (o, mem)
  | rounds + 1, ptStep, mem, ptBuf, o, data =>
    let (o, data) := Lib.RevLoop.drainRev (self.stepChunk ptStep) data.length o data
    if data.isEmpty then (o, mem)
    else
      match self.readPtAddressIter mem ptStep data ptBuf o with
      | (mem, _, .error err) => (data.foldl (fun o chunk => o.failChunk err chunk) o, mem)
      | (mem, ptBuf, .ok (data, o)) => walkLoop rounds (ptStep + 1) mem ptBuf o data

def virtToPhysIter (mem : M) (dtb : Nat) (addrs : List (Nat × T)) : Option (Outputs T × M) :=
  (self.filterAll addrs [] []).map fun (vec, outFail) =>
    self.walkLoop self.splitCount 0 mem [] ⟨[], outFail⟩ [(TranslationChunk.new dtb vec).recalcMinmax]

end ArchMMUSpec

end Jiaa
