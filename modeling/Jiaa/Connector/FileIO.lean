/-
  Jiaa.Connector.FileIO — a memory that is a file read and written through `std::io`
  (memflow `connector/fileio.rs`).

  `StdIo` is what the connector uses of its reader and `LawfulStdIo` the contract of
  `std::io`: `seek` sets the position, `read_exact` fills the whole buffer, `write` may
  stop after any non-empty prefix. The connector ignores how much a `write` accepted.

  - `physWriteRawList_reaches_iff`: the writes whose bytes reach the file whatever the
    reader does.
-/

import Jiaa.Lib.LastWrite
import Jiaa.Mem.Buffers
import Jiaa.Mem.MapTop

namespace Jiaa

open Lib.LastWrite

/-! ## Readers -/

/-- `Seek::seek` from the start, `Read::read_exact` and `Write::write`; `none` is an `Err`. -/
class StdIo (R : Type*) where
  seek : R → Nat → R × Option Unit
  readExact : R → List UInt8 → R × List UInt8 × Option Unit
  write : R → List UInt8 → R × Option Nat

/-- The bytes `c` with `l` written over them from `p` on. -/
def overwrite (c : Nat → UInt8) (p : Nat) (l : List UInt8) : Nat → UInt8 := fun x =>
  if p ≤ x then l[x - p]?.getD (c x) else c x

theorem overwrite_eq_store (c : Nat → UInt8) (p : Nat) (l : List UInt8) : overwrite c p l = store c (l.zipIdx p) := by
  funext x
  unfold overwrite store
  rw [lastAt_zipIdx]
  split <;> rfl

class LawfulStdIo (R : Type*) [StdIo R] where
  fileBytes : R → Nat → UInt8
  position : R → Nat
  seek_position : ∀ (r : R) p, (StdIo.seek r p).2 = some () → position (StdIo.seek r p).1 = p
  seek_bytes : ∀ (r : R) p, fileBytes (StdIo.seek r p).1 = fileBytes r
  read_bytes : ∀ (r : R) l, fileBytes (StdIo.readExact r l).1 = fileBytes r
  read_ok : ∀ (r : R) l, (StdIo.readExact r l).2.2 = some () →
    (StdIo.readExact r l).2.1 = l.mapIdx fun i _ => fileBytes r (position r + i)
  write_le : ∀ (r : R) l n, (StdIo.write r l).2 = some n → n ≤ l.length
  write_pos : ∀ (r : R) l n, (StdIo.write r l).2 = some n → l ≠ [] → 0 < n
  write_bytes : ∀ (r : R) l n, (StdIo.write r l).2 = some n →
    fileBytes (StdIo.write r l).1 = overwrite (fileBytes r) (position r) (l.take n)

export LawfulStdIo (fileBytes position)

/-! ## The map from addresses to the file -/

/-- A memory map whose regions are sorted, disjoint, and go to disjoint ranges of the file. -/
structure FileMap where
  map : MemoryMap (Nat × Nat)
  ready : map.Ready
  fits : ∀ m ∈ map.mappings, m.output.1 + m.output.2 ≤ 2 ^ 64
  apart : map.mappings.Pairwise fun m r =>
    m.output.1 + m.output.2 ≤ r.output.1 ∨ r.output.1 + r.output.2 ≤ m.output.1

namespace FileMap

/-- The pieces of `map_iter`, which does not panic on such a map. -/
def pieces {T : Type*} [SplitAtIndex T] (self : FileMap) (data : List (PhysicalAddress × T)) : List ((Nat × Nat) × T) :=
  ((self.map.mapIter data).map (·.1)).getD []

/-- The file offset of an address. -/
def fileOff (self : FileMap) (a : Nat) : Option Nat := (self.map.lookup a).map (·.1)

end FileMap

/-! ## The connector -/

structure FileIOMemory (R : Type*) where
  reader : R
  memMap : FileMap

namespace FileIOMemory

variable {R : Type*} [StdIo R]

def readLoop (reader : R) (heap : Loc → UInt8) :
    List ((Nat × Nat) × SliceMut) → R × (Loc → UInt8) × Except Error Unit
  | [] => (reader, heap, .ok ())
  | ((fileOff, _), buf) :: rest =>
    match StdIo.seek reader fileOff with
    | (reader, none) => (reader, heap, .error (.connector "Seek failed"))
    | (reader, some _) =>
      match StdIo.readExact reader (buf.locs.map heap) with
      | (reader, l, none) => (reader, copyFromSlice heap buf l, .error (.connector "Read failed"))
      | (reader, l, some _) => readLoop reader (copyFromSlice heap buf l) rest

def writeLoop (reader : R) : List ((Nat × Nat) × List UInt8) → R × Except Error Unit
  | [] => (reader, .ok ())
  | ((fileOff, _), buf) :: rest =>
    match StdIo.seek reader fileOff with
    | (reader, none) => (reader, .error (.connector "Seek failed"))
    | (reader, some _) =>
      match StdIo.write reader buf with
      | (reader, none) => (reader, .error (.connector "Write failed"))
      | (reader, some _) => writeLoop reader rest

instance : PhysicalMemory (FileIOMemory R) where
  physReadRawList self data :=
    let (reader, heap, res) := readLoop self.reader (heapOf data) (self.memMap.pieces (slices data))
    ({ self with reader := reader }, bufsOf data heap, res)
  physWriteRawList self data :=
    let (reader, res) := writeLoop self.reader (self.memMap.pieces data)
    ({ self with reader := reader }, res)

end FileIOMemory

/-! ## Parts of an output -/

section Parts

variable {map : MemoryMap (Nat × Nat)} (hfits : ∀ m ∈ map.mappings, m.output.1 + m.output.2 ≤ 2 ^ 64)

include hfits

/-- A part of an output is a part of its range of the file. -/
theorem outputPart_fits {out r : Nat × Nat} {m : MemoryMapping (Nat × Nat)} (hm : m ∈ map.mappings) {off k : Nat}
    (hout : (splitAt m.output off).2 = some out) (hr : r = (splitAt out k).1) : r.1 + r.2 ≤ 2 ^ 64 := by
  have hf := hfits m hm
  obtain ⟨right, hright, rfl⟩ := Option.map_eq_some_iff.mp hout
  have hcut := LawfulSplitAtIndex.cutAt m.output.2 off
  obtain ⟨hlt, hlen⟩ := length_cut_right hcut hright
  have hleft := length_cut_left hcut
  have hk := length_cut_left (LawfulSplitAtIndex.cutAt right k)
  simp only [SplitAtIndex.length] at hlt hlen hleft hk
  subst hr
  show Address.add m.output.1 (splitAt m.output.2 off).1 + (splitAt right k).1 ≤ 2 ^ 64
  rw [Address.add_eq (by omega)]
  omega

/-- A piece goes to consecutive places of the file. -/
theorem filePiece_bytes {T β : Type*} [SplitAtIndex T] [LawfulSplitAtIndex T β] {p : (Nat × Nat) × T}
    (hlen : SplitAtIndex.length p.1 = SplitAtIndex.length p.2) (hp : MemoryMapIterator.PartOf map p) :
    (pieceBytes (γ := Nat × Unit) p).map (fun z => (z.2, z.1.1)) = (bytes p.2).zipIdx p.1.1 := by
  obtain ⟨m, hm, off, out, hout, hret⟩ := hp
  have hfit := outputPart_fits hfits hm hout hret
  have hn : p.1.2 = (bytes p.2).length := by rw [← LawfulSplitAtIndex.length_eq]; exact hlen
  apply List.ext_getElem?
  intro i
  show ((List.zip (at64 p.1.1 (List.replicate p.1.2 ())) (bytes p.2)).map fun z => (z.2, z.1.1))[i]? = _
  rw [List.getElem?_map, List.getElem?_zipIdx, List.zip, List.getElem?_zipWith, getElem?_at64]
  by_cases hi : i < p.1.2
  · rw [List.getElem?_eq_getElem (by omega : i < (bytes p.2).length)]
    simp only [hi, List.getElem?_replicate, if_true, Option.map_some, Option.some.injEq, Prod.mk.injEq, true_and]
    exact Nat.mod_eq_of_lt (by omega)
  · rw [List.getElem?_eq_none (by omega : (bytes p.2).length ≤ i)]
    simp [hi]

/-- The bytes of the pieces are the bytes of the requests that the map covers, each with its
    place in the file. -/
theorem filePieces_bytes {T β : Type*} [SplitAtIndex T] [LawfulSplitAtIndex T β] {rets : List ((Nat × Nat) × T)}
    (hpart : ∀ r ∈ rets, SplitAtIndex.length r.1 = SplitAtIndex.length r.2 ∧ MemoryMapIterator.PartOf map r)
    {reqs : List (PhysicalAddress × T)} (hcov : rets.flatMap (pieceBytes (γ := Nat × Unit)) =
      reqs.flatMap fun d => map.covered d.1.address (bytes d.2)) :
    (rets.flatMap fun p => (bytes p.2).zipIdx p.1.1) =
      (reqs.flatMap fun d => (bytes d.2).zipIdx d.1.address).filterMap fun y =>
        ((map.lookup y.2).map (·.1)).map fun o => (y.1, o) := by
  have hmap : (rets.flatMap fun p => (bytes p.2).zipIdx p.1.1) =
      (rets.flatMap (pieceBytes (γ := Nat × Unit))).map fun z => (z.2, z.1.1) := by
    rw [List.map_flatMap]
    exact List.flatMap_congr fun p hp => (filePiece_bytes hfits (hpart p hp).1 (hpart p hp).2).symm
  rw [hmap, hcov, List.map_flatMap, List.filterMap_flatMap]
  refine List.flatMap_congr fun d _ => ?_
  unfold MemoryMap.covered
  rw [List.map_filterMap]
  refine List.filterMap_congr fun y _ => ?_
  rw [Option.map_map, Option.map_map]
  rfl

end Parts

/-! ## Pieces -/

namespace FileMap

variable {T β : Type*} [SplitAtIndex T] [LawfulSplitAtIndex T β] (self : FileMap)

theorem fileOff_eq {a x : Nat} (h : self.fileOff a = some x) :
    ∃ m ∈ self.map.mappings, m.base ≤ a ∧ a < m.base + m.output.2 ∧ x = m.output.1 + (a - m.base) := by
  obtain ⟨y, hy, rfl⟩ := Option.map_eq_some_iff.mp h
  obtain ⟨m, hm, hb⟩ := Option.bind_eq_some_iff.mp hy
  have hmem := List.mem_of_find?_eq_some hm
  have hh := List.find?_some hm
  simp only [decide_eq_true_eq] at hh
  have hlt : a < m.base + m.output.2 := hh.2
  refine ⟨m, hmem, hh.1, hlt, ?_⟩
  have hf := self.fits m hmem
  have hb' : (at64 m.output.1 (List.replicate m.output.2 ()))[a - m.base]? = some y := hb
  rw [getElem?_at64] at hb'
  obtain ⟨u, -, rfl⟩ := Option.map_eq_some_iff.mp hb'
  have := hh.1
  exact Nat.mod_eq_of_lt (by omega)

/-- Different addresses go to different places of the file. -/
theorem fileOff_inj {a b x : Nat} (ha : self.fileOff a = some x) (hb : self.fileOff b = some x) : a = b := by
  obtain ⟨m, hm, h1, h2, h3⟩ := self.fileOff_eq ha
  obtain ⟨r, hr, k1, k2, k3⟩ := self.fileOff_eq hb
  have hmr : m = r := by
    by_contra hne
    have hsymm : Std.Symm fun m r : MemoryMapping (Nat × Nat) =>
        m.output.1 + m.output.2 ≤ r.output.1 ∨ r.output.1 + r.output.2 ≤ m.output.1 := ⟨fun _ _ h => h.symm⟩
    have := self.apart.forall hm hr hne
    omega
  subst hmr
  omega

theorem exists_fileOff {a : Nat} (h : self.map.Covers a) : ∃ o, self.fileOff a = some o := by
  unfold fileOff MemoryMap.lookup
  obtain ⟨r, hr, hh⟩ := h
  cases hfind : self.map.mappings.find? fun m => m.Holds a with
  | none =>
    have := List.find?_eq_none.mp hfind r hr
    simp only [decide_eq_true_eq] at this
    exact absurd hh this
  | some m =>
    have hm := List.find?_some hfind
    simp only [decide_eq_true_eq] at hm
    have hlen : a - m.base < (bytes m.output).length := by
      have hle := hm.1
      have hlt : a < m.base + SplitAtIndex.length m.output := hm.2
      rw [← LawfulSplitAtIndex.length_eq]
      omega
    exact ⟨_, by rw [Option.bind_some, List.getElem?_eq_getElem hlen]; rfl⟩

/-- The bytes of the pieces are the mapped bytes of the requests, each with its place in the
    file. -/
theorem pieces_bytes (hin : self.map.Inside) (data : List (PhysicalAddress × T)) :
    ((self.pieces data).flatMap fun p => (bytes p.2).zipIdx p.1.1) =
      (data.flatMap fun d => (bytes d.2).zipIdx d.1.address).filterMap fun y =>
        (self.fileOff y.2).map fun o => (y.1, o) := by
  obtain ⟨rets, fails, hrun, hpart, -, hcov⟩ :=
    MemoryMapIterator.mapAddrs_spec (γ := Nat × Unit) self.ready (data.map fun d => (d.1.address, d.2))
  have hpieces : self.pieces data = rets := by
    show (Option.map _ (self.map.mapAddrs _)).getD [] = rets
    rw [hrun, Option.map_some, Option.getD_some]
  rw [hpieces]
  refine filePieces_bytes self.fits hpart ?_
  rw [hcov hin, MemoryMapIterator.coveredAll, List.flatMap_map]

end FileMap

/-! ## The loops -/

/-- What a reader that stops early may have taken of each piece. -/
def Taken (ps : List ((Nat × Nat) × List UInt8)) (ws : List (List UInt8 × Nat)) : Prop :=
  List.Forall₂ (fun p w => w.2 = p.1.1 ∧ w.1 <+: p.2 ∧ (p.2 ≠ [] → w.1 ≠ [])) ps ws

namespace FileIOMemory

variable {R : Type*} [StdIo R] [lawful : LawfulStdIo R]

omit lawful in
/-- The round of a list of reads that is `Ok`. -/
theorem readLoop_cons_ok {reader : R} {heap : Loc → UInt8} {off n : Nat} {buf : SliceMut}
    {ps : List ((Nat × Nat) × SliceMut)} (h : (readLoop reader heap (((off, n), buf) :: ps)).2.2 = .ok ()) :
    ∃ r1 u r2 l u', StdIo.seek reader off = (r1, some u) ∧ StdIo.readExact r1 (buf.locs.map heap) = (r2, l, some u') ∧
      readLoop reader heap (((off, n), buf) :: ps) = readLoop r2 (copyFromSlice heap buf l) ps := by
  rw [readLoop] at h
  rcases hs : StdIo.seek reader off with ⟨r1, _ | u⟩
  · simp only [hs] at h
    cases h
  rcases hr : StdIo.readExact r1 (buf.locs.map heap) with ⟨r2, l, _ | u'⟩
  · simp only [hs, hr] at h
    cases h
  exact ⟨r1, u, r2, l, u', rfl, hr, by rw [readLoop]; simp only [hs, hr]⟩

/-- A list of reads that is `Ok` leaves the file's bytes in every piece. -/
theorem readLoop_spec (ps : List ((Nat × Nat) × SliceMut)) : ∀ (reader : R) (heap : Loc → UInt8),
    (readLoop reader heap ps).2.2 = .ok () →
    (readLoop reader heap ps).2.1 =
      putAll heap ((ps.flatMap fun p => p.2.locs.zipIdx p.1.1).map fun x => (fileBytes reader x.2, x.1)) := by
  induction ps with
  | nil => intro reader heap _; rfl
  | cons p ps ih =>
    obtain ⟨⟨off, n⟩, buf⟩ := p
    intro reader heap h
    obtain ⟨r1, u, r2, l, u', hs, hr, hrest⟩ := readLoop_cons_ok h
    rw [hrest] at h ⊢
    have hpos := LawfulStdIo.seek_position reader off (by rw [hs])
    have hb1 := LawfulStdIo.seek_bytes reader off
    have hb2 := LawfulStdIo.read_bytes r1 (buf.locs.map heap)
    have hl := LawfulStdIo.read_ok r1 (buf.locs.map heap) (by rw [hr])
    rw [hs] at hpos hb1
    rw [hr] at hb2 hl
    simp only at hpos hb1 hb2 hl
    have hzip : l.zip buf.locs = (buf.locs.zipIdx off).map fun x => (fileBytes reader x.2, x.1) := by
      rw [hl, hpos, hb1]
      apply List.ext_getElem?
      intro i
      rw [List.zip, List.getElem?_zipWith, List.getElem?_mapIdx, List.getElem?_map, List.getElem?_map,
        List.getElem?_zipIdx]
      cases buf.locs[i]? <;> rfl
    rw [ih r2 _ h, hb2, hb1, List.flatMap_cons, List.map_append, putAll_append, ← hzip]
    rfl

/-- A list of writes that is `Ok` has stored a part of every piece. -/
theorem writeLoop_spec (ps : List ((Nat × Nat) × List UInt8)) : ∀ reader : R, (writeLoop reader ps).2 = .ok () →
    ∃ ws, Taken ps ws ∧
      fileBytes (writeLoop reader ps).1 = store (fileBytes reader) (ws.flatMap fun w => w.1.zipIdx w.2) := by
  induction ps with
  | nil => intro reader _; exact ⟨[], .nil, rfl⟩
  | cons p ps ih =>
    obtain ⟨⟨off, n⟩, buf⟩ := p
    intro reader h
    unfold writeLoop at h ⊢
    rcases hs : StdIo.seek reader off with ⟨r1, _ | u⟩
    · simp only [hs] at h
      cases h
    rcases hw : StdIo.write r1 buf with ⟨r2, _ | k⟩
    · simp only [hs, hw] at h
      cases h
    simp only [hs, hw] at h ⊢
    have hpos := LawfulStdIo.seek_position reader off (by rw [hs])
    have hb1 := LawfulStdIo.seek_bytes reader off
    have hk := LawfulStdIo.write_pos r1 buf k (by rw [hw])
    have hb2 := LawfulStdIo.write_bytes r1 buf k (by rw [hw])
    rw [hs] at hpos hb1
    rw [hw] at hb2
    simp only at hpos hb1 hb2
    obtain ⟨ws, htaken, hws⟩ := ih r2 h
    refine ⟨(buf.take k, off) :: ws, .cons ⟨rfl, List.take_prefix _ _, fun hne he => ?_⟩ htaken, ?_⟩
    · rcases List.take_eq_nil_iff.mp he with hz | hz
      · exact absurd hz (Nat.pos_iff_ne_zero.mp (hk hne))
      · exact hne hz
    · rw [hws, hb2, hpos, hb1, overwrite_eq_store, ← store_append, List.flatMap_cons]

/-! ## What a list of writes leaves -/

/-- The bytes of a list of writes, each with its address. -/
def dataBytes (data : List (PhysicalAddress × List UInt8)) : List (UInt8 × Nat) :=
  data.flatMap fun d => d.2.zipIdx d.1.address

/-- The byte a mapped address holds after the writes: the last one written to it, or that of
    the file. -/
def after (self : FileIOMemory R) (data : List (PhysicalAddress × List UInt8)) (a : Nat) : Option UInt8 :=
  (self.memMap.fileOff a).map fun o => (lastAt a (dataBytes data)).getD (fileBytes self.reader o)

/-- The writes reach the file: once they are `Ok`, reads that are `Ok` find the last byte
    written to every mapped address, or the one before where nothing was written. -/
def Reaches (self : FileIOMemory R) (data : List (PhysicalAddress × List UInt8)) : Prop :=
  (PhysicalMemory.physWriteRawList self data).2 = .ok () → ∀ reads,
    (PhysicalMemory.physReadRawList (PhysicalMemory.physWriteRawList self data).1 reads).2.2 = .ok () →
    (PhysicalMemory.physReadRawList (PhysicalMemory.physWriteRawList self data).1 reads).2.1 =
      reads.map fun d => d.2.mapIdx fun j b => (self.after data (d.1.address + j)).getD b

/-- Reads that are `Ok` find what the file holds at the places `off` of their bytes, where
    these are the bytes of the pieces. -/
theorem readLoop_eq {ps : List ((Nat × Nat) × SliceMut)} (off : Nat → Option Nat)
    {reads : List (PhysicalAddress × List UInt8)}
    (hps : (ps.flatMap fun p => (bytes p.2).zipIdx p.1.1) =
      ((slices reads).flatMap fun d => (bytes d.2).zipIdx d.1.address).filterMap fun y => (off y.2).map fun o => (y.1, o))
    {reader : R} (h : (readLoop reader (heapOf reads) ps).2.2 = .ok ()) :
    bufsOf reads (readLoop reader (heapOf reads) ps).2.1 =
      reads.map fun d => d.2.mapIdx fun j b => ((off (d.1.address + j)).map (fileBytes reader)).getD b := by
  have hspec := readLoop_spec ps reader (heapOf reads) h
  have hans : (ps.flatMap fun p => p.2.locs.zipIdx p.1.1).map (fun x => (fileBytes reader x.2, x.1)) =
      (slices reads).flatMap (answers fun a => (off a).map (fileBytes reader)) := by
    rw [show (fun p : (Nat × Nat) × SliceMut => p.2.locs.zipIdx p.1.1) = fun p => (bytes p.2).zipIdx p.1.1 from rfl,
      hps, List.map_filterMap, List.filterMap_flatMap]
    refine List.flatMap_congr fun s _ => ?_
    refine List.filterMap_congr fun y _ => ?_
    rw [Option.map_map, Option.map_map]
    rfl
  rw [hspec, hans, bufsOf_putAll]

/-- The reads after a list of writes find what the file holds at the places of their bytes. -/
theorem read_eq (self : FileIOMemory R) (hin : self.memMap.map.Inside) (reads : List (PhysicalAddress × List UInt8))
    (h : (PhysicalMemory.physReadRawList self reads).2.2 = .ok ()) :
    (PhysicalMemory.physReadRawList self reads).2.1 =
      reads.map fun d => d.2.mapIdx fun j b =>
        ((self.memMap.fileOff (d.1.address + j)).map (fileBytes self.reader)).getD b :=
  readLoop_eq _ (self.memMap.pieces_bytes hin (slices reads)) h

end FileIOMemory

/-! ## Writes that settle -/

/-- The byte of a piece that goes to `x`. -/
def byteAt (p : (Nat × Nat) × List UInt8) (x : Nat) : Option UInt8 := if p.1.1 ≤ x then p.2[x - p.1.1]? else none

/-- Every byte is the first of some piece, and no later piece has another value for it. -/
def Settled (ps : List ((Nat × Nat) × List UInt8)) : Prop :=
  ∀ p ∈ ps, ∀ x, (byteAt p x).isSome → ∃ l q r v, ps = l ++ q :: r ∧ q.1.1 = x ∧ q.2.head? = some v ∧
    ∀ s ∈ r, ∀ w, byteAt s x = some w → w = v

def takenBytes (ws : List (List UInt8 × Nat)) : List (UInt8 × Nat) := ws.flatMap fun w => w.1.zipIdx w.2

def whole (ps : List ((Nat × Nat) × List UInt8)) : List (List UInt8 × Nat) := ps.map fun p => (p.2, p.1.1)

theorem taken_whole (ps : List ((Nat × Nat) × List UInt8)) : Taken ps (whole ps) := by
  induction ps with
  | nil => exact .nil
  | cons p ps ih => exact .cons ⟨rfl, List.prefix_rfl, fun h => h⟩ ih

theorem lastAt_cons (x : Nat) (w : List UInt8 × Nat) (ws : List (List UInt8 × Nat)) :
    lastAt x (takenBytes (w :: ws)) = (lastAt x (takenBytes ws)).or (lastAt x (w.1.zipIdx w.2)) := by
  unfold takenBytes
  rw [List.flatMap_cons, lastAt_append]

/-- A byte taken of a piece is a byte of the piece. -/
theorem byteAt_of_taken {p : (Nat × Nat) × List UInt8} {w : List UInt8 × Nat} {x : Nat} {v : UInt8} (ha : w.2 = p.1.1)
    (hp : w.1 <+: p.2) (h : lastAt x (w.1.zipIdx w.2) = some v) : byteAt p x = some v := by
  unfold byteAt
  rw [lastAt_zipIdx] at h
  split at h
  · next hle =>
    rw [if_pos (ha ▸ hle), ← ha]
    obtain ⟨t, ht⟩ := hp
    rw [← ht, List.getElem?_append_left (List.getElem?_eq_some_iff.mp h).1, h]
  · cases h

theorem exists_byteAt {x : Nat} {u : UInt8} {ps : List ((Nat × Nat) × List UInt8)} {ws : List (List UInt8 × Nat)}
    (h : Taken ps ws) (hu : lastAt x (takenBytes ws) = some u) : ∃ p ∈ ps, byteAt p x = some u := by
  induction h with
  | nil => cases hu
  | @cons p w ps ws hw _ ih =>
    rw [lastAt_cons] at hu
    rcases Option.or_eq_some_iff.mp hu with hu | ⟨-, hu⟩
    · obtain ⟨s, hs, hb⟩ := ih hu
      exact ⟨s, List.mem_cons_of_mem _ hs, hb⟩
    · exact ⟨p, List.mem_cons_self .., byteAt_of_taken hw.1 hw.2.1 hu⟩

theorem lastAt_taken_split {x : Nat} {v : UInt8} (l : List ((Nat × Nat) × List UInt8))
    {q : (Nat × Nat) × List UInt8} {r : List ((Nat × Nat) × List UInt8)} (hq : q.1.1 = x) (hhead : q.2.head? = some v)
    (hr : ∀ s ∈ r, ∀ w, byteAt s x = some w → w = v) :
    ∀ {ws : List (List UInt8 × Nat)}, Taken (l ++ q :: r) ws → lastAt x (takenBytes ws) = some v := by
  induction l with
  | nil =>
    intro ws h
    obtain ⟨w, ws', hw, hws, rfl⟩ := List.forall₂_cons_left_iff.mp h
    rw [lastAt_cons]
    cases hl : lastAt x (takenBytes ws') with
    | some u =>
      obtain ⟨s, hs, hb⟩ := exists_byteAt hws hl
      rw [hr s hs u hb, Option.some_or]
    | none =>
      -- the first byte of `q` is taken
      obtain ⟨hw2, ⟨t, ht⟩, hne⟩ := hw
      rw [Option.none_or, lastAt_zipIdx, hw2, hq, if_pos (Nat.le_refl _), Nat.sub_self]
      cases hw1 : w.1 with
      | nil => exact absurd hw1 (hne (by rintro he; rw [he] at hhead; cases hhead))
      | cons b bs =>
        rw [← ht, hw1] at hhead
        exact hhead
  | cons p l ih =>
    intro ws h
    obtain ⟨w, ws', hw, hws, rfl⟩ := List.forall₂_cons_left_iff.mp h
    rw [lastAt_cons, ih hws, Option.some_or]

/-- Where the pieces settle, it does not matter what was taken of them. -/
theorem Settled.lastAt_eq {ps : List ((Nat × Nat) × List UInt8)} (h : Settled ps) {ws : List (List UInt8 × Nat)}
    (hws : Taken ps ws) (x : Nat) : lastAt x (takenBytes ws) = lastAt x (takenBytes (whole ps)) := by
  by_cases hx : ∃ p ∈ ps, (byteAt p x).isSome
  · obtain ⟨p, hp, hb⟩ := hx
    obtain ⟨l, q, r, v, rfl, hq, hhead, hr⟩ := h p hp x hb
    rw [lastAt_taken_split l hq hhead hr hws, lastAt_taken_split l hq hhead hr (taken_whole _)]
  · have hnone : ∀ {ws}, Taken ps ws → lastAt x (takenBytes ws) = none := by
      intro ws hws
      cases hl : lastAt x (takenBytes ws) with
      | none => rfl
      | some u =>
        obtain ⟨p, hp, hb⟩ := exists_byteAt hws hl
        exact absurd ⟨p, hp, by rw [hb]; rfl⟩ hx
    rw [hnone hws, hnone (taken_whole ps)]

namespace FileIOMemory

variable {R : Type*} [StdIo R] [LawfulStdIo R]

/-- The last write to an address is the last one to its place in the file. -/
theorem lastAt_dataBytes {memMap : FileMap} (hin : memMap.map.Inside) (data : List (PhysicalAddress × List UInt8))
    {a o : Nat} (ha : memMap.fileOff a = some o) :
    lastAt a (dataBytes data) = lastAt o (takenBytes (whole (memMap.pieces data))) := by
  have hbytes := memMap.pieces_bytes hin data
  have hwhole : takenBytes (whole (memMap.pieces data)) = (dataBytes data).filterMap fun y =>
      (memMap.fileOff y.2).map fun o => (y.1, o) := by
    unfold takenBytes whole
    rw [List.flatMap_map]
    exact hbytes
  rw [hwhole, lastAt_filterMap ha fun b hb => memMap.fileOff_inj hb ha]

theorem reaches_of_settled (self : FileIOMemory R) {data : List (PhysicalAddress × List UInt8)}
    (hin : self.memMap.map.Inside) (h : Settled (self.memMap.pieces data)) : self.Reaches data := by
  intro hw reads hr
  obtain ⟨ws, htaken, hws⟩ := writeLoop_spec (self.memMap.pieces data) self.reader hw
  rw [read_eq (PhysicalMemory.physWriteRawList self data).1 hin reads hr]
  refine List.map_congr_left fun d _ => ?_
  congr 1
  funext j b
  congr 1
  show (self.memMap.fileOff (d.1.address + j)).map (fileBytes (writeLoop self.reader (self.memMap.pieces data)).1) =
    self.after data (d.1.address + j)
  unfold after
  cases hoff : self.memMap.fileOff (d.1.address + j) with
  | none => rfl
  | some o =>
    rw [Option.map_some, Option.map_some, hws, lastAt_dataBytes hin data hoff, ← h.lastAt_eq htaken o]
    rfl

end FileIOMemory

/-! ## A reader that stops after the first byte -/

/-- A file whose first `full` writes take everything, the later ones one byte. -/
structure ScriptedFile where
  content : Nat → UInt8
  pos : Nat
  full : Nat

namespace ScriptedFile

instance : StdIo ScriptedFile where
  seek r p := ({ r with pos := p }, some ())
  readExact r l := ({ r with pos := r.pos + l.length }, l.mapIdx fun i _ => r.content (r.pos + i), some ())
  write r l :=
    let n := if r.full = 0 then min 1 l.length else l.length
    (⟨overwrite r.content r.pos (l.take n), r.pos + n, r.full - 1⟩, some n)

instance : LawfulStdIo ScriptedFile where
  fileBytes r := r.content
  position r := r.pos
  seek_position _ _ _ := rfl
  seek_bytes _ _ := rfl
  read_bytes _ _ := rfl
  read_ok _ _ _ := rfl
  write_le r l n h := by
    cases h
    split <;> omega
  write_pos r l n h hne := by
    have := List.length_pos_iff.mpr hne
    cases h
    split <;> omega
  write_bytes r l n h := by cases h; rfl

/-- What such a file takes of each piece. -/
def takes : Nat → List ((Nat × Nat) × List UInt8) → List (List UInt8 × Nat)
  | _, [] => []
  | full, p :: ps => (if full = 0 then p.2.take 1 else p.2, p.1.1) :: takes (full - 1) ps

theorem readLoop_ok (ps : List ((Nat × Nat) × SliceMut)) :
    ∀ (r : ScriptedFile) (heap : Loc → UInt8), (FileIOMemory.readLoop r heap ps).2.2 = .ok () := by
  induction ps with
  | nil => intro r heap; rfl
  | cons p ps ih => intro r heap; exact ih _ _

theorem writeLoop_eq (ps : List ((Nat × Nat) × List UInt8)) : ∀ r : ScriptedFile,
    (FileIOMemory.writeLoop r ps).2 = .ok () ∧
      (FileIOMemory.writeLoop r ps).1.content = store r.content (takenBytes (takes r.full ps)) := by
  induction ps with
  | nil => intro r; exact ⟨rfl, rfl⟩
  | cons p ps ih =>
    intro r
    obtain ⟨⟨off, k⟩, buf⟩ := p
    obtain ⟨h1, h2⟩ := ih (StdIo.write (StdIo.seek r off).1 buf).1
    refine ⟨h1, ?_⟩
    show (FileIOMemory.writeLoop (StdIo.write (StdIo.seek r off).1 buf).1 ps).1.content = _
    have htake : buf.take (min 1 buf.length) = buf.take 1 := by cases buf <;> simp
    have hw : (StdIo.write (StdIo.seek r off).1 buf).1.content =
        store r.content ((if r.full = 0 then buf.take 1 else buf).zipIdx off) := by
      show overwrite r.content off (buf.take (if r.full = 0 then min 1 buf.length else buf.length)) = _
      rw [overwrite_eq_store]
      split
      · rw [htake]
      · rw [List.take_length]
    rw [h2, hw, ← store_append]
    rfl

/-- More is taken with more whole writes. -/
theorem takes_some {x : Nat} (ps : List ((Nat × Nat) × List UInt8)) : ∀ (full : Nat) {u : UInt8},
    lastAt x (takenBytes (takes 0 ps)) = some u → ∃ u', lastAt x (takenBytes (takes full ps)) = some u' := by
  induction ps with
  | nil => intro full u h; cases h
  | cons p ps ih =>
    intro full u h
    unfold takes at h ⊢
    rw [lastAt_cons] at h
    rw [lastAt_cons]
    rcases Option.or_eq_some_iff.mp h with h | ⟨-, h⟩
    · obtain ⟨u', hu'⟩ := ih (full - 1) h
      exact ⟨u', by rw [hu', Option.some_or]⟩
    · cases hl : lastAt x (takenBytes (takes (full - 1) ps)) with
      | some u' => exact ⟨u', by rw [Option.some_or]⟩
      | none =>
        have hb : byteAt p x = some u := byteAt_of_taken (w := (p.2.take 1, p.1.1)) rfl (List.take_prefix _ _) h
        refine ⟨u, ?_⟩
        rw [Option.none_or]
        simp only
        split
        · exact h
        · rw [lastAt_zipIdx]
          exact hb

/-- Where no first byte is written to `x`, any piece can be the last to write it. -/
theorem takes_last {x : Nat} {w : UInt8} {s : (Nat × Nat) × List UInt8} (ps : List ((Nat × Nat) × List UInt8))
    (h : lastAt x (takenBytes (takes 0 ps)) = none) (hs : s ∈ ps) (hw : byteAt s x = some w) :
    ∃ full, lastAt x (takenBytes (takes full ps)) = some w := by
  induction ps with
  | nil => cases hs
  | cons p ps ih =>
    unfold takes at h
    rw [lastAt_cons, Option.or_eq_none_iff] at h
    rcases List.mem_cons.mp hs with rfl | hs
    · refine ⟨1, ?_⟩
      unfold takes
      rw [lastAt_cons, h.1, Option.none_or, if_neg (by omega), lastAt_zipIdx]
      exact hw
    · obtain ⟨full, hfull⟩ := ih h.1 hs
      refine ⟨full + 1, ?_⟩
      unfold takes
      rw [lastAt_cons, Nat.add_sub_cancel, hfull, Option.some_or]

/-- A byte that ends with one value whatever is taken is settled. -/
theorem settled_of_takes {x : Nat} {v : UInt8} (ps : List ((Nat × Nat) × List UInt8))
    (h : ∀ full, lastAt x (takenBytes (takes full ps)) = some v) :
    ∃ l q r v, ps = l ++ q :: r ∧ q.1.1 = x ∧ q.2.head? = some v ∧ ∀ s ∈ r, ∀ w, byteAt s x = some w → w = v := by
  induction ps with
  | nil => cases h 0
  | cons p ps ih =>
    cases h0 : lastAt x (takenBytes (takes 0 ps)) with
    | some u =>
      obtain ⟨l, q, r, v, rfl, hq⟩ := ih fun full => by
        obtain ⟨u', hu'⟩ := takes_some ps full h0
        have hfull := h (full + 1)
        unfold takes at hfull
        rwa [lastAt_cons, Nat.add_sub_cancel, hu', Option.some_or, ← hu'] at hfull
      exact ⟨p :: l, q, r, v, rfl, hq⟩
    | none =>
      have hfirst := h 0
      unfold takes at hfirst
      rw [lastAt_cons, h0, Option.none_or, if_pos rfl, lastAt_zipIdx] at hfirst
      split at hfirst
      · next hle =>
        have hlt := (List.getElem?_eq_some_iff.mp hfirst).1
        rw [List.length_take] at hlt
        have hx : p.1.1 = x := by omega
        rw [hx, Nat.sub_self] at hfirst
        refine ⟨[], p, ps, v, rfl, hx, ?_, fun s hs w hw => ?_⟩
        · cases hp : p.2 with
          | nil => rw [hp] at hfirst; cases hfirst
          | cons b l => rw [hp] at hfirst; exact hfirst
        · obtain ⟨full, hfull⟩ := takes_last ps h0 hs hw
          have hall := h (full + 1)
          unfold takes at hall
          rw [lastAt_cons, Nat.add_sub_cancel, hfull, Option.some_or] at hall
          exact Option.some.inj hall
      · cases hfirst

end ScriptedFile

namespace FileIOMemory

open ScriptedFile

/-! ## A region that ends with the address space -/

/-- The last address has no piece: the end of its region is computed as zero. -/
theorem pieces_top (memMap : FileMap) (a : PhysicalAddress) (ha : a.address = 2 ^ 64 - 1) (s : SliceMut) :
    memMap.pieces [(a, s)] = [] := by
  have hbehind := memMap.map.mapIter_behind (a, s) fun x _ => by
    have := Address.add_lt x.base (SplitAtIndex.length x.output)
    show Address.add x.base (SplitAtIndex.length x.output) ≤ a.address
    omega
  unfold FileMap.pieces
  rw [hbehind, Option.map_some, Option.getD_some]

/-! ## The writes that reach the file -/

variable {R : Type*} [StdIo R] [LawfulStdIo R]

theorem physWrite_scripted (memMap : FileMap) (r : ScriptedFile) (data : List (PhysicalAddress × List UInt8)) :
    (PhysicalMemory.physWriteRawList (⟨r, memMap⟩ : FileIOMemory ScriptedFile) data).2 = .ok () :=
  (writeLoop_eq (memMap.pieces data) r).1

/-- What a read of one byte must find after writes that reach the file. -/
theorem Reaches.read_one {memMap : FileMap} {r : ScriptedFile} {data : List (PhysicalAddress × List UInt8)}
    (h : (⟨r, memMap⟩ : FileIOMemory ScriptedFile).Reaches data) (a : Nat) (b : UInt8) :
    (PhysicalMemory.physReadRawList
      (PhysicalMemory.physWriteRawList (⟨r, memMap⟩ : FileIOMemory ScriptedFile) data).1
      [(PhysicalAddress.ofAddress a, [b])]).2.1 =
      [[((⟨r, memMap⟩ : FileIOMemory ScriptedFile).after data a).getD b]] :=
  h (physWrite_scripted memMap r data) [(PhysicalAddress.ofAddress a, [b])] (readLoop_ok _ _ _)

theorem inside_of_reaches {memMap : FileMap} {data : List (PhysicalAddress × List UInt8)}
    (h : ∀ r, (⟨r, memMap⟩ : FileIOMemory ScriptedFile).Reaches data) : memMap.map.Inside := by
  intro m hm
  have hb := memMap.ready.bounded m hm
  have hne := memMap.ready.nonempty m hm
  by_contra hn
  have htop : m.Holds (2 ^ 64 - 1) := ⟨by omega, by omega⟩
  obtain ⟨o, ho⟩ := memMap.exists_fileOff ⟨m, hm, htop⟩
  have hread : ∀ b, ((⟨⟨fun _ => 0, 0, 0⟩, memMap⟩ : FileIOMemory ScriptedFile).after data (2 ^ 64 - 1)).getD b = b := by
    intro b
    have h1 := (h ⟨fun _ => 0, 0, 0⟩).read_one (2 ^ 64 - 1) b
    have h2 : ∀ self : FileIOMemory ScriptedFile, self.memMap = memMap →
        (PhysicalMemory.physReadRawList self [(PhysicalAddress.ofAddress (2 ^ 64 - 1), [b])]).2.1 = [[b]] := by
      intro self hself
      show bufsOf _ (readLoop self.reader _ (self.memMap.pieces
        [(PhysicalAddress.ofAddress (2 ^ 64 - 1), (⟨0, 0, 1⟩ : SliceMut))])).2.1 = _
      rw [hself, pieces_top memMap _ rfl]
      exact bufsOf_heapOf _
    rw [h2 _ rfl] at h1
    exact (List.cons.inj (List.cons.inj h1).1).1.symm
  have h0 := hread 0
  have h1 := hread 1
  unfold after at h0 h1
  rw [ho, Option.map_some, Option.getD_some] at h0 h1
  exact absurd (h0.symm.trans h1) (by decide)

theorem settled_of_reaches {memMap : FileMap} {data : List (PhysicalAddress × List UInt8)}
    (h : ∀ r, (⟨r, memMap⟩ : FileIOMemory ScriptedFile).Reaches data) : Settled (memMap.pieces data) := by
  have hin := inside_of_reaches h
  intro p hp x hx
  obtain ⟨u, hu⟩ := Option.isSome_iff_exists.mp hx
  -- the address that goes to `x`
  have hmem : (u, x) ∈ (memMap.pieces data).flatMap fun p => (bytes p.2).zipIdx p.1.1 := by
    refine List.mem_flatMap.mpr ⟨p, hp, ?_⟩
    unfold byteAt at hu
    split at hu
    · next hle => exact List.mk_mem_zipIdx_iff_le_and_getElem?_sub.mpr ⟨hle, hu⟩
    · cases hu
  have hbytes := hmem
  rw [memMap.pieces_bytes hin data] at hbytes
  obtain ⟨⟨u', a⟩, -, ha⟩ := List.mem_filterMap.mp hbytes
  obtain ⟨o, ho, he⟩ := Option.map_eq_some_iff.mp ha
  obtain ⟨-, rfl⟩ := Prod.mk.inj he
  obtain ⟨v, hv⟩ : ∃ v, lastAt a (dataBytes data) = some v := by
    rw [lastAt_dataBytes hin data ho]
    exact exists_lastAt (by unfold takenBytes whole; rw [List.flatMap_map]; exact hmem)
  -- the old byte is not the one written
  refine settled_of_takes (v := v) _ fun full => ?_
  have h1 := (h ⟨fun _ => v + 1, 0, full⟩).read_one a 0
  rw [read_eq (PhysicalMemory.physWriteRawList (⟨⟨fun _ => v + 1, 0, full⟩, memMap⟩ : FileIOMemory ScriptedFile) data).1
    hin _ (readLoop_ok _ _ _)] at h1
  have h2 : ((memMap.fileOff a).map (writeLoop (⟨fun _ => v + 1, 0, full⟩ : ScriptedFile) (memMap.pieces data)).1.content).getD 0 =
      ((⟨⟨fun _ => v + 1, 0, full⟩, memMap⟩ : FileIOMemory ScriptedFile).after data a).getD 0 :=
    (List.cons.inj (List.cons.inj h1).1).1
  unfold after at h2
  rw [ho, Option.map_some, Option.map_some, Option.getD_some, Option.getD_some, hv, Option.getD_some,
    (writeLoop_eq (memMap.pieces data) _).2] at h2
  unfold store at h2
  cases hl : lastAt o (takenBytes (takes full (memMap.pieces data))) with
  | some w => rw [hl, Option.getD_some] at h2; rw [h2]
  | none =>
    rw [hl, Option.getD_none] at h2
    exact absurd h2 (by simp)

/-- One region whose bytes start at offset 0 of the file. -/
def oneRegion : FileMap where
  map := ⟨[⟨0x1000, (0, 0x1000)⟩]⟩
  ready := ⟨by decide, by decide, by decide⟩
  fits := by decide
  apart := by decide

end FileIOMemory

end Jiaa
