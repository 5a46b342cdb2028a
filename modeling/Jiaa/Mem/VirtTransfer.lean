/-
  Jiaa.Mem.VirtTransfer — what reads and writes of virtual memory move
  (memflow `mem/virt_mem/virtual_dma.rs`, `iter/void.rs`).

  The translation hands over pieces of the buffers, in any order and cut anywhere, and
  `DeliversOnce` says that every byte is in one piece, once. The pieces that fail are
  cleared as they come; the others are one list of physical accesses.

  - `copyAll_eq_putAll`: copies into slices are stores of their bytes;
  - `transfer_moves`: what a list of reads leaves in the buffers and a list of writes in
    the memory, and when they are `Ok`;
  - `transfer_emptyFails`: a piece without bytes that fails makes them an error.
-/

import Jiaa.Architecture.Translation
import Jiaa.Mem.Cache.WriteBack
import Jiaa.Mem.Cache.Tlb
import Jiaa.Mem.VirtMem

namespace Jiaa

open Lib.LastWrite VirtualMemory

/-! ## Pieces of the buffers -/

/-- The byte of some buffers at a place. -/
def byteOf (bufs : List (List UInt8)) (x : Loc) : Option UInt8 := bufs[x.1]?.bind (·[x.2]?)

/-- Every byte of the buffers is in one piece, translated or failed, and once. -/
def DeliversOnce (data : List (Nat × List UInt8)) (o : Outputs SliceMut) : Prop :=
  (o.out.flatMap (·.2.locs) ++ o.outFail.flatMap (·.2.2.locs)).Perm ((slices data).flatMap (·.2.locs))

instance (data : List (Nat × List UInt8)) (o : Outputs SliceMut) : Decidable (DeliversOnce data o) :=
  inferInstanceAs (Decidable (List.Perm _ _))

theorem mem_locs_slices {A : Type*} {data : List (A × List UInt8)} {x : Loc} :
    x ∈ (slices data).flatMap (·.2.locs) ↔ ∃ d, data[x.1]? = some d ∧ x.2 < d.2.length := by
  rw [List.mem_flatMap]
  constructor
  · intro ⟨s, hs, hx⟩
    obtain ⟨i, hi⟩ := List.mem_iff_getElem?.mp hs
    rw [getElem?_slices] at hi
    obtain ⟨d, hd, rfl⟩ := Option.map_eq_some_iff.mp hi
    obtain ⟨h1, -, h2⟩ := SliceMut.mem_locs.mp hx
    simp only [Nat.zero_add] at h1 h2
    exact ⟨d, by rw [h1, hd], h2⟩
  · intro ⟨d, hd, hx⟩
    refine ⟨(d.1, ⟨x.1, 0, d.2.length⟩), List.mem_of_getElem? (i := x.1) (by rw [getElem?_slices, hd]; rfl), ?_⟩
    exact SliceMut.mem_locs.mpr ⟨rfl, Nat.zero_le _, by simpa using hx⟩

/-- A byte of the buffers is read back from the heap. -/
theorem byteOf_bufsOf {A : Type*} {data : List (A × List UInt8)} {x : Loc}
    (hx : x ∈ (slices data).flatMap (·.2.locs)) (heap : Loc → UInt8) : byteOf (bufsOf data heap) x = some (heap x) := by
  obtain ⟨d, hd, hlt⟩ := mem_locs_slices.mp hx
  unfold byteOf
  rw [getElem?_bufsOf, hd, Option.map_some, Option.bind_some, List.getElem?_map, List.getElem?_range hlt]
  rfl

theorem byteOf_map {A : Type*} {data : List (A × List UInt8)} {x : Loc} (hx : x ∈ (slices data).flatMap (·.2.locs)) :
    byteOf (data.map (·.2)) x = some (heapOf data x) := by
  rw [← bufsOf_heapOf, byteOf_bufsOf hx]

/-! ## Copies -/

theorem copyAll_eq_putAll (l : List (SliceMut × List UInt8)) :
    ∀ heap : Loc → UInt8, copyAll heap l = putAll heap (l.flatMap fun p => p.2.zip p.1.locs) := by
  induction l with
  | nil => intro heap; rfl
  | cons p l ih =>
    intro heap
    rw [List.flatMap_cons, putAll_append]
    exact ih _

theorem map_snd_copies {l : List (SliceMut × List UInt8)} (h : ∀ p ∈ l, p.2.length = p.1.len) :
    (l.flatMap fun p => p.2.zip p.1.locs).map (·.2) = l.flatMap (·.1.locs) := by
  rw [List.map_flatMap]
  refine List.flatMap_congr fun p hp => ?_
  exact List.map_snd_zip (by rw [SliceMut.length_locs, h p hp])

theorem mem_copies {l : List (SliceMut × List UInt8)} {p : SliceMut × List UInt8} (hp : p ∈ l) {i : Nat} {b : UInt8}
    (hi : i < p.1.len) (hb : p.2[i]? = some b) : (b, (p.1.buf, p.1.off + i)) ∈ l.flatMap fun p => p.2.zip p.1.locs := by
  refine List.mem_flatMap.mpr ⟨p, hp, List.mem_of_getElem? (i := i) ?_⟩
  rw [List.zip, List.getElem?_zipWith, hb, locs_eq, List.getElem?_map, List.getElem?_range hi]
  rfl

/-! ## Bytes written -/

theorem getElem?_writtenBytes (a : Nat) (l : List UInt8) (i : Nat) :
    (writtenBytes a l)[i]? = l[i]?.map fun b => (b, (a + i) % 2 ^ 64) := by
  unfold writtenBytes
  rw [List.getElem?_map, getElem?_at64, Option.map_map]
  rfl

theorem mem_writtenBytes {a : Nat} {l : List UInt8} {y : UInt8 × Nat} (h : y ∈ writtenBytes a l) :
    ∃ i < l.length, y.2 = (a + i) % 2 ^ 64 := by
  obtain ⟨i, hi⟩ := List.mem_iff_getElem?.mp h
  rw [getElem?_writtenBytes] at hi
  obtain ⟨b, hb, rfl⟩ := Option.map_eq_some_iff.mp hi
  exact ⟨i, (List.getElem?_eq_some_iff.mp hb).1, rfl⟩

/-- What is written after the byte `i` of a piece: the rest of it and the later pieces. -/
theorem applyWrites_last {c : Nat → UInt8} {l r : List (PhysicalAddress × List UInt8)}
    {w : PhysicalAddress × List UInt8} {i : Nat} {b : UInt8} (hb : w.2[i]? = some b)
    (hw : ∀ j < w.2.length, i < j → (w.1.address + j) % 2 ^ 64 ≠ (w.1.address + i) % 2 ^ 64)
    (hr : ∀ q ∈ r, ∀ j < q.2.length, (q.1.address + j) % 2 ^ 64 ≠ (w.1.address + i) % 2 ^ 64) :
    applyWrites c (l ++ w :: r) ((w.1.address + i) % 2 ^ 64) = b := by
  obtain ⟨hlt, -⟩ := List.getElem?_eq_some_iff.mp hb
  have hcut : writtenBytes w.1.address w.2 = (writtenBytes w.1.address w.2).take i ++
      (b, (w.1.address + i) % 2 ^ 64) :: (writtenBytes w.1.address w.2).drop (i + 1) := by
    have hlen : i < (writtenBytes w.1.address w.2).length := by simpa [writtenBytes] using hlt
    have hget := getElem?_writtenBytes w.1.address w.2 i
    rw [List.getElem?_eq_getElem hlen, hb, Option.map_some, Option.some.injEq] at hget
    rw [← hget, ← List.drop_eq_getElem_cons hlen, List.take_append_drop]
  have hafter : ∀ y ∈ (writtenBytes w.1.address w.2).drop (i + 1) ++ written r, y.2 ≠ (w.1.address + i) % 2 ^ 64 := by
    intro y hy
    rcases List.mem_append.mp hy with hy | hy
    · obtain ⟨k, hk⟩ := List.mem_iff_getElem?.mp hy
      rw [List.getElem?_drop, getElem?_writtenBytes] at hk
      obtain ⟨v, hv, rfl⟩ := Option.map_eq_some_iff.mp hk
      exact hw _ (List.getElem?_eq_some_iff.mp hv).1 (by omega)
    · obtain ⟨q, hq, hy⟩ := List.mem_flatMap.mp hy
      obtain ⟨j, hj, he⟩ := mem_writtenBytes hy
      rw [he]
      exact hr q hq j hj
  rw [applyWrites_eq]
  unfold store
  rw [show written (l ++ w :: r) = (written l ++ (writtenBytes w.1.address w.2).take i) ++
      (b, (w.1.address + i) % 2 ^ 64) :: ((writtenBytes w.1.address w.2).drop (i + 1) ++ written r) by
    unfold written
    rw [List.flatMap_append, List.flatMap_cons, hcut]
    simp only [List.append_assoc, List.cons_append]
    rw [← hcut], lastAt_append_cons hafter, Option.getD_some]

theorem applyWrites_of_not_mem {c : Nat → UInt8} {l : List (PhysicalAddress × List UInt8)} {x : Nat}
    (h : ∀ w ∈ l, ∀ i < w.2.length, (w.1.address + i) % 2 ^ 64 ≠ x) : applyWrites c l x = c x := by
  have hnone : lastAt x (written l) = none := by
    refine lastAt_eq_none fun y hy => ?_
    obtain ⟨w, hw, hy⟩ := List.mem_flatMap.mp hy
    obtain ⟨i, hi, he⟩ := mem_writtenBytes hy
    rw [he]
    exact h w hw i hi
  rw [applyWrites_eq]
  unfold store
  rw [hnone, Option.getD_none]

namespace VirtualDMA

/-! ## Transfers -/

/-- What a list of reads of `data` leaves, the memory being `c` when it was translated. -/
structure ReadMoves (data : List (Nat × List UInt8)) (c : Nat → UInt8) (o : Outputs SliceMut) (c' : Nat → UInt8)
    (bufs : List (List UInt8)) (res : PartialResult Unit) : Prop where
  unchanged : c' = c
  lengths : bufs.map List.length = data.map fun d => d.2.length
  moved : ∀ p ∈ o.out, ∀ i < p.2.len,
    byteOf bufs (p.2.buf, p.2.off + i) = some (c ((p.1.address + i) % 2 ^ 64))
  cleared : ∀ f ∈ o.outFail, ∀ x ∈ f.2.2.locs, byteOf bufs x = some 0
  ok_iff : res = .ok () ↔ o.outFail = []
  partially : o.outFail ≠ [] → res = .error (.partialVirtualRead ())

/-- What a list of writes leaves: at each address the byte that is written there last, and
    every other address as it was. -/
structure WriteMoves (data : List (Nat × List UInt8)) (c : Nat → UInt8) (o : Outputs SliceMut) (c' : Nat → UInt8)
    (res : PartialResult Unit) : Prop where
  stored : ∀ l p r, o.out = l ++ p :: r → ∀ i < p.2.len,
    (∀ j < p.2.len, i < j → (p.1.address + j) % 2 ^ 64 ≠ (p.1.address + i) % 2 ^ 64) →
    (∀ q ∈ r, ∀ j < q.2.len, (q.1.address + j) % 2 ^ 64 ≠ (p.1.address + i) % 2 ^ 64) →
    byteOf (data.map (·.2)) (p.2.buf, p.2.off + i) = some (c' ((p.1.address + i) % 2 ^ 64))
  unchanged : ∀ x, (∀ p ∈ o.out, ∀ i < p.2.len, (p.1.address + i) % 2 ^ 64 ≠ x) → c' x = c x
  ok_iff : res = .ok () ↔ o.outFail = []
  partially : o.outFail ≠ [] → res = .error (.partialVirtualRead ())

theorem finish_ok_iff (outFail : List (Error × Nat × SliceMut)) (failed : PartialError Unit) :
    finish (.ok ()) outFail failed = .ok () ↔ outFail = [] := by
  unfold finish
  cases outFail with
  | nil => simp
  | cons f outFail => simp

theorem finish_failed {outFail : List (Error × Nat × SliceMut)} (h : outFail ≠ []) (failed : PartialError Unit) :
    finish (.ok ()) outFail failed = .error failed := by
  cases outFail with
  | nil => exact absurd rfl h
  | cons f outFail => rfl

section Pieces

variable {data : List (Nat × List UInt8)} {o : Outputs SliceMut}

theorem out_mem_slices (hd : DeliversOnce data o) {p : PhysicalAddress × SliceMut} (hp : p ∈ o.out) {i : Nat}
    (hi : i < p.2.len) : (p.2.buf, p.2.off + i) ∈ (slices data).flatMap (·.2.locs) := by
  refine hd.mem_iff.mp (List.mem_append.mpr (Or.inl (List.mem_flatMap.mpr ⟨p, hp, ?_⟩)))
  exact SliceMut.mem_locs.mpr ⟨rfl, Nat.le_add_right _ _, by simpa using hi⟩

theorem outFail_mem_slices (hd : DeliversOnce data o) {f : Error × Nat × SliceMut} (hf : f ∈ o.outFail) {x : Loc}
    (hx : x ∈ f.2.2.locs) : x ∈ (slices data).flatMap (·.2.locs) :=
  hd.mem_iff.mp (List.mem_append.mpr (Or.inr (List.mem_flatMap.mpr ⟨f, hf, hx⟩)))

/-- The zeros of the pieces that fail, and the bytes `c` of the others. -/
def stores (c : Nat → UInt8) (o : Outputs SliceMut) : List (SliceMut × List UInt8) :=
  (o.outFail.map fun f => (f.2.2, List.replicate f.2.2.len 0)) ++
    o.out.map fun p => (p.2, bytesAt c p.1.address p.2.len)

theorem length_stores {c : Nat → UInt8} {q : SliceMut × List UInt8} (hq : q ∈ stores c o) : q.2.length = q.1.len := by
  rcases List.mem_append.mp hq with hq | hq
  · obtain ⟨f, -, rfl⟩ := List.mem_map.mp hq
    exact List.length_replicate
  · obtain ⟨p, -, rfl⟩ := List.mem_map.mp hq
    exact length_bytesAt _ _ _

/-- No two of the pieces have a byte in common. -/
theorem stores_nodup (hd : DeliversOnce data o) (c : Nat → UInt8) :
    (((stores c o).flatMap fun q => q.2.zip q.1.locs).map (·.2)).Nodup := by
  have hlocs : (stores c o).flatMap (·.1.locs) = o.outFail.flatMap (·.2.2.locs) ++ o.out.flatMap (·.2.locs) := by
    unfold stores
    rw [List.flatMap_append, List.flatMap_map, List.flatMap_map]
  rw [map_snd_copies fun q hq => length_stores hq, hlocs]
  exact (List.perm_append_comm.trans hd).nodup_iff.mpr (slices_nodup data)

/-- A byte of a piece holds what was stored there. -/
theorem copyAll_stores (hd : DeliversOnce data o) (c : Nat → UInt8) (heap : Loc → UInt8) {q : SliceMut × List UInt8}
    (hq : q ∈ stores c o) {i : Nat} (hi : i < q.1.len) {b : UInt8} (hb : q.2[i]? = some b) :
    copyAll heap (stores c o) (q.1.buf, q.1.off + i) = b := by
  rw [copyAll_eq_putAll]
  exact putAll_mem (stores_nodup hd c) (mem_copies hq hi hb)

end Pieces

variable {M V D : Type} [PhysicalMemory M] [LawfulMemory M] [NeverFails M] [VirtualTranslate V] [ScopedVirtualTranslate D]
variable {self : VirtualDMA M V D} {data : List (Nat × List UInt8)} {vat : V} {mem : M} {o : Outputs SliceMut}

theorem virtReadRawList_eq (ht : self.translate data = some (vat, mem, o)) :
    ∃ mem', content mem' = content mem ∧ virtReadRawList self data = some ({ self with vat := vat, physMem := mem' },
      bufsOf data (copyAll (heapOf data) (stores (content mem) o)),
      finish (.ok ()) o.outFail (.partialVirtualRead ())) := by
  let heap := copyAll (heapOf data) (o.outFail.map fun f => (f.2.2, List.replicate f.2.2.len 0))
  let reads := o.out.map fun p => (p.1, p.2.locs.map heap)
  have hok := AnswersReads.read mem reads
  refine ⟨(PhysicalMemory.physReadRawList mem reads).1, LawfulMemory.read_content mem reads, ?_⟩
  have hbufs : (o.out.map (·.2)).zip (PhysicalMemory.physReadRawList mem reads).2.1 =
      o.out.map fun p => (p.2, bytesAt (content mem) p.1.address p.2.len) := by
    rw [LawfulMemory.read_ok mem reads hok, List.map_map, List.zip_map', List.map_congr_left]
    intro p _
    simp
  show Option.map _ (self.translate data) = _
  rw [ht, Option.map_some, Option.some.injEq]
  show (_, bufsOf data (copyAll heap ((o.out.map (·.2)).zip (PhysicalMemory.physReadRawList mem reads).2.1)),
    finish (PhysicalMemory.physReadRawList mem reads).2.2 o.outFail _) = _
  rw [hbufs, hok]
  unfold stores copyAll
  rw [List.foldl_append]
  rfl

theorem readMoves (hd : DeliversOnce data o) (c : Nat → UInt8) :
    ReadMoves data c o c (bufsOf data (copyAll (heapOf data) (stores c o)))
      (finish (.ok ()) o.outFail (.partialVirtualRead ())) where
  unchanged := rfl
  lengths := map_length_bufsOf _ _
  moved p hp i hi := by
    have hq : (p.2, bytesAt c p.1.address p.2.len) ∈ stores c o :=
      List.mem_append.mpr (Or.inr (List.mem_map_of_mem hp))
    rw [byteOf_bufsOf (out_mem_slices hd hp hi), copyAll_stores hd c _ hq hi (getElem?_bytesAt c _ hi)]
  cleared f hf x hx := by
    have hq : (f.2.2, List.replicate f.2.2.len 0) ∈ stores c o :=
      List.mem_append.mpr (Or.inl (List.mem_map_of_mem hf))
    rw [byteOf_bufsOf (outFail_mem_slices hd hf hx)]
    rw [locs_eq] at hx
    obtain ⟨i, hi, rfl⟩ := List.mem_map.mp hx
    have hlt := List.mem_range.mp hi
    rw [copyAll_stores hd c _ hq hlt (b := 0) (by simp [hlt])]
  ok_iff := finish_ok_iff _ _
  partially h := finish_failed h _

theorem virtWriteRawList_eq (ht : self.translate data = some (vat, mem, o)) :
    ∃ mem', content mem' = applyWrites (content mem) (o.out.map fun p => (p.1, p.2.locs.map (heapOf data))) ∧
      virtWriteRawList self data = some ({ self with vat := vat, physMem := mem' },
        finish (.ok ()) o.outFail (.partialVirtualRead ())) := by
  let writes := o.out.map fun p => (p.1, p.2.locs.map (heapOf data))
  have hok := NeverFails.write mem writes
  refine ⟨(PhysicalMemory.physWriteRawList mem writes).1, LawfulMemory.write_ok mem writes hok, ?_⟩
  show Option.map _ (self.translate data) = _
  rw [ht, Option.map_some, Option.some.injEq]
  show (_, finish (PhysicalMemory.physWriteRawList mem writes).2 o.outFail _) = _
  rw [hok]
  rfl

theorem writeMoves (hd : DeliversOnce data o) (c : Nat → UInt8) :
    WriteMoves data c o (applyWrites c (o.out.map fun p => (p.1, p.2.locs.map (heapOf data))))
      (finish (.ok ()) o.outFail (.partialVirtualRead ())) where
  stored l p r ho i hi hp hr := by
    have hmem : p ∈ o.out := by rw [ho]; simp
    have hb : (p.2.locs.map (heapOf data))[i]? = some (heapOf data (p.2.buf, p.2.off + i)) := by
      rw [locs_eq, List.getElem?_map, List.getElem?_map, List.getElem?_range hi]
      rfl
    rw [byteOf_map (out_mem_slices hd hmem hi), ho, List.map_append, List.map_cons, Option.some.injEq]
    refine (applyWrites_last (w := (p.1, p.2.locs.map (heapOf data))) hb ?_ ?_).symm
    · intro j hj
      exact hp j (by simpa using hj)
    · intro q hq j hj
      obtain ⟨q', hq', rfl⟩ := List.mem_map.mp hq
      exact hr q' hq' j (by simpa using hj)
  unchanged x hx := by
    refine applyWrites_of_not_mem fun w hw i hi => ?_
    obtain ⟨p, hp, rfl⟩ := List.mem_map.mp hw
    exact hx p hp i (by simpa using hi)
  ok_iff := finish_ok_iff _ _
  partially h := finish_failed h _

/-- When the translation delivers every byte of the buffers once and the memory does not
    fail, reads and writes move what was translated, clear or leave what was not, and are
    `Ok` exactly when no piece failed. -/
theorem transfer_moves (ht : self.translate data = some (vat, mem, o)) (hd : DeliversOnce data o) :
    (∃ mem' bufs res, virtReadRawList self data = some ({ self with vat := vat, physMem := mem' }, bufs, res) ∧
      ReadMoves data (content mem) o (content mem') bufs res) ∧
    ∃ mem' res, virtWriteRawList self data = some ({ self with vat := vat, physMem := mem' }, res) ∧
      WriteMoves data (content mem) o (content mem') res := by
  constructor
  · obtain ⟨mem', hc, hrun⟩ := virtReadRawList_eq ht
    refine ⟨mem', _, _, hrun, ?_⟩
    rw [hc]
    exact readMoves hd _
  · obtain ⟨mem', hc, hrun⟩ := virtWriteRawList_eq ht
    refine ⟨mem', _, hrun, ?_⟩
    rw [hc]
    exact writeMoves hd _

/-- Two requests with a byte in common, and one of a page that is not mapped. -/
def overlap : VirtualDMA FlatMemory DirectTranslate X86ScopedVirtualTranslate :=
  ⟨ArchMMUSpec.fourPages, ⟨⟩, x64Arch, ⟨x64Arch, 0x1000⟩⟩

def overlapData : List (Nat × List UInt8) := [(0x0, [1, 2]), (0x5000, [3]), (0x1, [4])]

theorem transfer_moves_overlapping :
    ∃ vat mem o, overlap.translate overlapData = some (vat, mem, o) ∧ (o.out.length, o.outFail.length) = (2, 1) ∧
      (∃ mem' bufs res, virtReadRawList overlap overlapData = some ({ overlap with vat := vat, physMem := mem' }, bufs, res) ∧
        ReadMoves overlapData (content mem) o (content mem') bufs res) ∧
      ∃ mem' res, virtWriteRawList overlap overlapData = some ({ overlap with vat := vat, physMem := mem' }, res) ∧
        WriteMoves overlapData (content mem) o (content mem') res := by
  have hrun : ((overlap.translate overlapData).map fun t =>
      (decide (DeliversOnce overlapData t.2.2), t.2.2.out.length, t.2.2.outFail.length)) = some (true, 2, 1) := by
    decide +kernel
  obtain ⟨⟨vat, mem, o⟩, ht, ho⟩ := Option.map_eq_some_iff.mp hrun
  obtain ⟨hd, hlen⟩ := Prod.mk.inj ho
  exact ⟨vat, mem, o, ht, hlen, transfer_moves ht (of_decide_eq_true hd)⟩

/-- A translator that remembers that the page at `0x5000` is not mapped. -/
def missRemembered : VirtualDMA FlatMemory (CachedVirtualTranslate 4 DirectTranslate CountCacheValidator)
    X86ScopedVirtualTranslate :=
  let self := ⟨⟨fun _ => 0⟩, CachedVirtualTranslate.new ⟨⟩ (TLBCache.new 4 (CountCacheValidator.new 2)) x64Obj, x64Arch,
    ⟨x64Arch, 0x1000⟩⟩
  ((virtReadRawList self [(0x5fff, [7])]).map (·.1)).getD self

/-- It fails the piece of a request without bytes: no byte failed, and the transfers are
    errors. -/
theorem transfer_emptyFails :
    ∃ vat mem o, missRemembered.translate [(0x5000, [])] = some (vat, mem, o) ∧ DeliversOnce [(0x5000, [])] o ∧
      o.outFail.flatMap (·.2.2.locs) = [] ∧
      (virtReadRawList missRemembered [(0x5000, [])]).map (·.2.2) = some (.error (.partialVirtualRead ())) ∧
      (virtWriteRawList missRemembered [(0x5000, [])]).map (·.2) = some (.error (.partialVirtualRead ())) := by
  have hrun : (missRemembered.translate [(0x5000, [])]).map (·.2.2) =
      some ⟨[], [(.virtualTranslate, 0x5000, ⟨0, 0, 0⟩)]⟩ := by
    decide +kernel
  obtain ⟨⟨vat, mem, o⟩, ht, ho⟩ := Option.map_eq_some_iff.mp hrun
  simp only at ho
  subst ho
  exact ⟨vat, mem, _, ht, by decide, by decide, by decide +kernel, by decide +kernel⟩

end VirtualDMA

end Jiaa
