/-
  Jiaa.Connector.FileMap — a file behind a memory map, mapped into memory
  (memflow `connector/filemap.rs`, next to `connector/fileio.rs`).

  `try_with_bufmap` clips the regions of the map to the file and pushes them into a new
  map of buffers; a region that starts behind the end of the file is an error. A buffer
  that does not lie in the file is undefined and has no value here, like a panic.

  - `tryWithBufmap_eq`: what is made is the map with each region clipped;
  - `backends_agree_iff`: the reads that are `Ok` through the file are those of the mapped
    file exactly when no region at the top of the address space runs past the file.
-/

import Jiaa.Connector.FileIO
import Jiaa.Connector.Mmap
import Jiaa.Mem.MapOrder
import Jiaa.Mem.MapTop

namespace Jiaa

/-! ## Files with an end -/

/-- A reader of a file of `size` bytes: `read_exact` is not `Ok` past the end. -/
class FileReader (R : Type*) [StdIo R] extends LawfulStdIo R where
  size : R → Nat
  size_lt : ∀ r : R, size r < 2 ^ 64
  seek_size : ∀ (r : R) p, size (StdIo.seek r p).1 = size r
  read_size : ∀ (r : R) l, size (StdIo.readExact r l).1 = size r
  read_within : ∀ (r : R) l, (StdIo.readExact r l).2.2 = some () → l ≠ [] → position r + l.length ≤ size r

/-- The bytes of the file. -/
def fileContent {R : Type*} [StdIo R] [FileReader R] (reader : R) : List UInt8 :=
  (List.range (FileReader.size reader)).map (fileBytes reader)

/-- `phys_read_raw_list` of the connector of `fileio.rs`, over any map: `none` is a panic. -/
def FileIOMemory.readRawList {R : Type*} [StdIo R] (reader : R) (memMap : MemoryMap (Nat × Nat))
    (data : List (PhysicalAddress × List UInt8)) : Option (R × List (List UInt8) × Except Error Unit) :=
  (memMap.mapIter (slices data)).map fun (pieces, _) =>
    let (reader, heap, res) := readLoop reader (heapOf data) pieces
    (reader, bufsOf data heap, res)

/-! ## The mapped file -/

structure MMAPInfo where
  memMap : MemoryMap (List UInt8)
  deriving DecidableEq

namespace MMAPInfo

/-- `slice::from_raw_parts` of a part of the buffer. -/
def fromRawParts (buf : List UInt8) (off len : Nat) : Option (List UInt8) :=
  if off + len ≤ buf.length then some ((buf.drop off).take len) else none

/-- The loop of `try_with_bufmap`, into the map made so far. -/
def bufmapLoop (buf : List UInt8) (newMap : MemoryMap (List UInt8)) :
    List (MemoryMapping (Nat × Nat)) → Option (Except Error (MemoryMap (List UInt8)))
  | [] => some (.ok newMap)
  | ⟨base, (outputBase, size)⟩ :: rest =>
    if buf.length ≤ outputBase then some (.error (.connector "Memory map is out of range"))
    else
      let outputEnd := min (Address.add outputBase size) buf.length
      (fromRawParts buf outputBase (Address.sub outputEnd outputBase)).bind fun output =>
        (newMap.push base output).bind fun newMap => bufmapLoop buf newMap rest

def tryWithBufmap (buf : List UInt8) (map : MemoryMap (Nat × Nat)) : Option (Except Error MMAPInfo) :=
  (bufmapLoop buf MemoryMap.new map.mappings).map fun res => res.map MMAPInfo.mk

/-- `phys_read_raw_list` of what `into_connector` makes. -/
def physReadRawList (self : MMAPInfo) (data : List (PhysicalAddress × List UInt8)) :
    Option (List (List UInt8) × Except Error Unit) :=
  (self.memMap.mapIter (slices data)).map fun (pieces, _) =>
    (bufsOf data (MappedPhysicalMemory.copyPieces (heapOf data) pieces), .ok ())

end MMAPInfo

/-! ## The connectors of the other modules -/

/-- Where the regions go to disjoint ranges of the file this is the connector there. -/
theorem readRawList_eq {R : Type*} [StdIo R] (self : FileIOMemory R) (data : List (PhysicalAddress × List UInt8)) :
    FileIOMemory.readRawList self.reader self.memMap.map data =
      some ((PhysicalMemory.physReadRawList self data).1.reader, (PhysicalMemory.physReadRawList self data).2) := by
  obtain ⟨rets, fails, hrun, -⟩ := self.memMap.map.mapIter_live (γ := Nat × Unit) self.memMap.ready (slices data)
  have hpieces : self.memMap.pieces (slices data) = rets := by
    unfold FileMap.pieces
    rw [hrun, Option.map_some, Option.getD_some]
  unfold FileIOMemory.readRawList PhysicalMemory.physReadRawList FileIOMemory.instPhysicalMemory
  rw [hrun, Option.map_some]
  simp only [hpieces]

/-- Where they end inside the address space this is the connector of mapped buffers. -/
theorem physReadRawList_eq (self : MappedPhysicalMemory) (data : List (PhysicalAddress × List UInt8)) :
    (⟨self.info⟩ : MMAPInfo).physReadRawList data = some (PhysicalMemory.physReadRawList self data).2 := by
  obtain ⟨rets, fails, hrun, -⟩ := self.info.mapIter_live (γ := UInt8) self.ready (slices data)
  unfold MMAPInfo.physReadRawList PhysicalMemory.physReadRawList MappedPhysicalMemory.instPhysicalMemory
  simp only [hrun, Option.map_some, Option.getD_some]

/-! ## The clipped map -/

namespace MMAPInfo

/-- A region of the file's bytes, clipped. -/
def clip (buf : List UInt8) (m : MemoryMapping (Nat × Nat)) : MemoryMapping (List UInt8) :=
  ⟨m.base, (buf.drop m.output.1).take m.output.2⟩

theorem fromRawParts_eq {buf output : List UInt8} {off len : Nat} (h : fromRawParts buf off len = some output) :
    off + len ≤ buf.length ∧ output = (buf.drop off).take len := by
  unfold fromRawParts at h
  split at h
  · next hle => cases h; exact ⟨hle, rfl⟩
  · cases h

/-- A region whose buffer lies in the file is clipped, and its range of the file does not
    wrap. -/
theorem fromRawParts_clip {buf output : List UInt8} (hbuf : buf.length < 2 ^ 64) {m : MemoryMapping (Nat × Nat)}
    (hsize : m.output.2 < 2 ^ 64) (hoff : m.output.1 < buf.length)
    (h : fromRawParts buf m.output.1 (Address.sub (min (Address.add m.output.1 m.output.2) buf.length) m.output.1) =
      some output) :
    m.output.1 + m.output.2 < 2 ^ 64 ∧ output = (clip buf m).output := by
  obtain ⟨hle, rfl⟩ := fromRawParts_eq h
  by_cases hwrap : m.output.1 + m.output.2 < 2 ^ 64
  · refine ⟨hwrap, ?_⟩
    rw [Address.add_eq hwrap, Address.sub_eq (by omega) (by omega)]
    show _ = (buf.drop m.output.1).take m.output.2
    rw [List.take_eq_take_iff, List.length_drop]
    omega
  · -- the end wraps to before the start, and the length back to the size
    have hadd : Address.add m.output.1 m.output.2 = m.output.1 + m.output.2 - 2 ^ 64 := by
      unfold Address.add
      omega
    rw [hadd, Nat.min_eq_left (by omega)] at hle
    unfold Address.sub at hle
    omega

theorem clip_finish (buf : List UInt8) (m : MemoryMapping (Nat × Nat)) :
    (clip buf m).finish = m.base + min m.output.2 (buf.length - m.output.1) := by
  show m.base + ((buf.drop m.output.1).take m.output.2).length = _
  rw [List.length_take, List.length_drop]

theorem clip_finish_le (buf : List UInt8) (m : MemoryMapping (Nat × Nat)) : (clip buf m).finish ≤ m.finish := by
  rw [clip_finish]
  show _ ≤ m.base + m.output.2
  omega

/-- A region pushed behind all others goes last. -/
theorem push_behind {M : Type*} [SplitAtIndex M] {map map' : MemoryMap M} {r : MemoryMapping M} (hr : r.base < 2 ^ 64)
    (hle : ∀ m ∈ map.mappings, m.finish ≤ r.base) (h : map.push r.base r.output = some map') :
    map'.mappings = map.mappings ++ [r] := by
  obtain ⟨below, above, he, habove, hcases⟩ := MemoryMap.push_some h
  have hnil : above = [] := by
    refine List.eq_nil_iff_forall_not_mem.mpr fun m hm => ?_
    have h1 := hle m (by rw [he]; exact List.mem_append_right _ hm)
    have h2 := (habove m hm).2
    rw [MemoryMapping.stop_eq (by omega)] at h2
    omega
  subst hnil
  rcases hcases with ⟨rfl, h1⟩ | ⟨rest, m, -, -, -, h1⟩
  · rw [h1, he, List.append_nil]
  · rw [h1, he, List.append_nil]

/-- What `try_with_bufmap` relies on in a region of the map, and clips. -/
structure Mapped (buf : List UInt8) (m : MemoryMapping (Nat × Nat)) : Prop where
  starts : m.output.1 < buf.length
  fits : m.output.1 + m.output.2 < 2 ^ 64

theorem bufmapLoop_eq {buf : List UInt8} (hbuf : buf.length < 2 ^ 64) {map' : MemoryMap (List UInt8)} :
    ∀ (rest done : List (MemoryMapping (Nat × Nat))) {newMap : MemoryMap (List UInt8)},
      newMap.mappings = done.map (clip buf) → (done ++ rest).Pairwise (fun m r => m.finish ≤ r.base) →
      (∀ m ∈ rest, m.base < 2 ^ 64 ∧ m.output.2 < 2 ^ 64) → bufmapLoop buf newMap rest = some (.ok map') →
      map'.mappings = (done ++ rest).map (clip buf) ∧ ∀ m ∈ rest, Mapped buf m := by
  intro rest
  induction rest with
  | nil =>
    intro done newMap hnew _ _ h
    cases h
    exact ⟨by rw [hnew, List.append_nil], nofun⟩
  | cons m rest ih =>
    intro done newMap hnew hord hlt h
    obtain ⟨base, off, size⟩ := m
    obtain ⟨hb, hs⟩ := hlt _ (List.mem_cons_self ..)
    unfold bufmapLoop at h
    by_cases hoff : buf.length ≤ off
    · rw [if_pos hoff] at h
      cases h
    · rw [if_neg hoff] at h
      obtain ⟨output, hraw, h⟩ := Option.bind_eq_some_iff.mp h
      obtain ⟨newMap', hpush, h⟩ := Option.bind_eq_some_iff.mp h
      let m : MemoryMapping (Nat × Nat) := ⟨base, off, size⟩
      obtain ⟨hfits, hclip⟩ := fromRawParts_clip (m := m) hbuf hs (by simpa using hoff) hraw
      have hbehind : ∀ x ∈ newMap.mappings, x.finish ≤ base := by
        intro x hx
        rw [hnew] at hx
        obtain ⟨y, hy, rfl⟩ := List.mem_map.mp hx
        exact (clip_finish_le buf y).trans
          ((List.pairwise_append.mp hord).2.2 y hy _ (List.mem_cons_self ..))
      have hlast := push_behind (r := ⟨base, output⟩) hb hbehind hpush
      have hnew' : newMap'.mappings = (done ++ [m]).map (clip buf) := by
        rw [hlast, hnew, List.map_append, List.map_singleton, hclip]
        rfl
      obtain ⟨h1, h2⟩ := ih (done ++ [m]) hnew' (by rwa [List.append_assoc])
        (fun x hx => hlt x (List.mem_cons_of_mem _ hx)) h
      refine ⟨by rw [h1, List.append_assoc]; rfl, fun x hx => ?_⟩
      rcases List.mem_cons.mp hx with rfl | hx
      · exact ⟨by simpa using hoff, hfits⟩
      · exact h2 x hx

/-- What `try_with_bufmap` makes is the map with each region clipped to the file. -/
theorem tryWithBufmap_eq {buf : List UInt8} (hbuf : buf.length < 2 ^ 64) {map : MemoryMap (Nat × Nat)} (hmap : map.Ready)
    (hsize : ∀ m ∈ map.mappings, m.output.2 < 2 ^ 64) {info : MMAPInfo} (h : tryWithBufmap buf map = some (.ok info)) :
    info.memMap.mappings = map.mappings.map (clip buf) ∧ ∀ m ∈ map.mappings, Mapped buf m := by
  obtain ⟨res, hloop, hres⟩ := Option.map_eq_some_iff.mp h
  cases res with
  | error e => cases hres
  | ok map' =>
    cases hres
    refine bufmapLoop_eq hbuf map.mappings [] rfl hmap.ordered (fun m hm => ⟨?_, hsize m hm⟩) hloop
    exact Nat.lt_of_lt_of_le (hmap.nonempty m hm) (hmap.bounded m hm)

/-- The clipped regions are regions of a map like the others. -/
theorem clip_ready {buf : List UInt8} {map : MemoryMap (Nat × Nat)} (hmap : map.Ready)
    (hm : ∀ m ∈ map.mappings, Mapped buf m) : (⟨map.mappings.map (clip buf)⟩ : MemoryMap (List UInt8)).Ready where
  nonempty r hr := by
    obtain ⟨m, hmem, rfl⟩ := List.mem_map.mp hr
    have h1 := hmap.nonempty m hmem
    have h2 := (hm m hmem).starts
    rw [clip_finish]
    show m.base < _
    have h3 : m.finish = m.base + m.output.2 := rfl
    omega
  bounded r hr := by
    obtain ⟨m, hmem, rfl⟩ := List.mem_map.mp hr
    exact (clip_finish_le buf m).trans (hmap.bounded m hmem)
  ordered := by
    rw [List.pairwise_map]
    exact hmap.ordered.imp fun {m r} h => (clip_finish_le buf m).trans h

end MMAPInfo

/-! ## Lookups in both maps -/

/-- The region that holds an address is the one that is looked up. -/
theorem MemoryMap.Ready.lookup_eq {M γ : Type*} [SplitAtIndex M] [LawfulSplitAtIndex M γ] {map : MemoryMap M}
    (h : map.Ready) {m : MemoryMapping M} (hm : m ∈ map.mappings) {a : Nat} (ha : m.Holds a) :
    map.lookup a = (bytes m.output)[a - m.base]? := by
  unfold MemoryMap.lookup
  cases hfind : map.mappings.find? fun m => m.Holds a with
  | none => exact absurd ha (by simpa using List.find?_eq_none.mp hfind m hm)
  | some x =>
    have hx := List.mem_of_find?_eq_some hfind
    have hxa : x.Holds a := by simpa using List.find?_some hfind
    have hsame : x = m := by
      by_contra hne
      have := h.separate hx hm hne
      unfold MemoryMapping.Holds at ha hxa
      omega
    rw [hsame, Option.bind_some]

section Lookups

variable {R : Type*} [StdIo R] [FileReader R]

/-- The place in the file of an address of a live region. -/
def MemoryMap.fileOff (map : MemoryMap (Nat × Nat)) (a : Nat) : Option Nat := (map.live.lookup a).map (·.1)

theorem fileOff_holds {map : MemoryMap (Nat × Nat)} (hmap : map.Ready) {m : MemoryMapping (Nat × Nat)}
    (hm : m ∈ map.live.mappings) (hfits : m.output.1 + m.output.2 ≤ 2 ^ 64) {a : Nat} (ha : m.Holds a) :
    map.fileOff a = some (m.output.1 + (a - m.base)) := by
  unfold MemoryMap.fileOff
  rw [hmap.live.lookup_eq (γ := Nat × Unit) hm ha]
  show ((at64 m.output.1 (List.replicate m.output.2 ()))[a - m.base]?).map (·.1) = _
  have hlt : a - m.base < m.output.2 := by
    have h1 : a < m.base + m.output.2 := ha.2
    have h2 := ha.1
    omega
  rw [getElem?_at64, List.getElem?_replicate, if_pos hlt, Option.map_some, Option.map_some,
    Nat.mod_eq_of_lt (by omega)]

theorem fileContent_getElem? (reader : R) {x : Nat} (h : x < FileReader.size reader) :
    (fileContent reader)[x]? = some (fileBytes reader x) := by
  unfold fileContent
  rw [List.getElem?_map, List.getElem?_range h]
  rfl

theorem length_fileContent (reader : R) : (fileContent reader).length = FileReader.size reader := by
  simp [fileContent]

/-- The regions at the top of the address space lie in the file. -/
def TopInFile (size : Nat) (map : MemoryMap (Nat × Nat)) : Prop :=
  ∀ m ∈ map.mappings, m.finish = 2 ^ 64 → m.output.1 + m.output.2 ≤ size

instance (size : Nat) (map : MemoryMap (Nat × Nat)) : Decidable (TopInFile size map) :=
  inferInstanceAs (Decidable (∀ m ∈ map.mappings, m.finish = 2 ^ 64 → m.output.1 + m.output.2 ≤ size))

open MMAPInfo in
/-- The mapped file has the byte of the file where the map has a place in it. -/
theorem clip_lookup (reader : R) {map : MemoryMap (Nat × Nat)} (hmap : map.Ready)
    (hm : ∀ m ∈ map.mappings, Mapped (fileContent reader) m) (htop : TopInFile (FileReader.size reader) map) {a : Nat}
    (hin : ∀ o, map.fileOff a = some o → o < FileReader.size reader) :
    (⟨map.mappings.map (clip (fileContent reader))⟩ : MemoryMap (List UInt8)).live.lookup a =
      (map.fileOff a).map (fileBytes reader) := by
  have hready := clip_ready hmap hm
  by_cases hcov : ∃ m ∈ map.live.mappings, m.Holds a
  · obtain ⟨m, hlive, ha⟩ := hcov
    obtain ⟨hmem, hfin⟩ := MemoryMap.mem_live.mp hlive
    have hfits := (hm m hmem).fits
    have hoff := fileOff_holds hmap hlive (Nat.le_of_lt hfits) ha
    have hlt := hin _ hoff
    have hclip : (clip (fileContent reader) m).finish < 2 ^ 64 := Nat.lt_of_le_of_lt (clip_finish_le _ m) hfin
    have h1 : a < m.base + m.output.2 := ha.2
    have h2 := ha.1
    have ha' : (clip (fileContent reader) m).Holds a := by
      refine ⟨h2, ?_⟩
      rw [clip_finish, length_fileContent]
      omega
    rw [hready.live.lookup_eq (MemoryMap.mem_live.mpr ⟨List.mem_map_of_mem hmem, hclip⟩) ha', hoff, Option.map_some]
    show ((fileContent reader).drop m.output.1 |>.take m.output.2)[a - m.base]? = _
    rw [List.getElem?_take_of_lt (by omega), List.getElem?_drop, fileContent_getElem? reader hlt]
  · have hnone : map.fileOff a = none := by
      unfold MemoryMap.fileOff
      rw [MemoryMapIterator.lookup_eq_none hcov, Option.map_none]
    rw [hnone, Option.map_none]
    refine MemoryMapIterator.lookup_eq_none ?_
    intro ⟨r, hr, hra⟩
    obtain ⟨hr, hfin⟩ := MemoryMap.mem_live.mp hr
    obtain ⟨m, hmem, rfl⟩ := List.mem_map.mp hr
    have hle := clip_finish_le (fileContent reader) m
    have hb := hmap.bounded m hmem
    refine hcov ⟨m, MemoryMap.mem_live.mpr ⟨hmem, ?_⟩, hra.1, Nat.lt_of_lt_of_le hra.2 hle⟩
    -- a region at the top is not clipped, so it is not found in either map
    rcases Nat.lt_or_eq_of_le hb with hlt | heq
    · exact hlt
    · have hfile := htop m hmem heq
      have hf : m.finish = m.base + m.output.2 := rfl
      rw [clip_finish, length_fileContent] at hfin
      omega

/-! ## Reads -/

/-- Reads of the mapped file fill what the live regions cover. -/
theorem MMAPInfo.physReadRawList_live (self : MMAPInfo) (h : self.memMap.Ready) (data : List (PhysicalAddress × List UInt8)) :
    self.physReadRawList data = some (data.map fun d => d.2.mapIdx fun j b =>
      (self.memMap.live.lookup (d.1.address + j)).getD b, .ok ()) := by
  obtain ⟨rets, fails, hrun, -, hcov⟩ := self.memMap.mapIter_live h (slices data)
  have hans : rets.flatMap pieceBytes = (slices data).flatMap (answers self.memMap.live.lookup) := hcov
  unfold MMAPInfo.physReadRawList
  rw [hrun]
  show some (bufsOf data (MappedPhysicalMemory.copyPieces (heapOf data) rets), Except.ok ()) = _
  rw [MappedPhysicalMemory.copyPieces_eq, hans, bufsOf_putAll]

/-- What is read through the file lies in it. -/
theorem readLoop_within (ps : List ((Nat × Nat) × SliceMut)) : ∀ (reader : R) (heap : Loc → UInt8),
    (FileIOMemory.readLoop reader heap ps).2.2 = .ok () →
    ∀ p ∈ ps, p.2.len ≠ 0 → p.1.1 + p.2.len ≤ FileReader.size reader := by
  induction ps with
  | nil => intro reader heap _ p hp; cases hp
  | cons q ps ih =>
    obtain ⟨⟨off, n⟩, buf⟩ := q
    intro reader heap h p hp hne
    obtain ⟨r1, u, r2, l, u', hs, hr, hrest⟩ := FileIOMemory.readLoop_cons_ok h
    rw [hrest] at h
    have hpos := LawfulStdIo.seek_position reader off (by rw [hs])
    have hsize1 := FileReader.seek_size reader off
    have hsize2 := FileReader.read_size r1 (buf.locs.map heap)
    have hwithin := FileReader.read_within r1 (buf.locs.map heap) (by rw [hr])
    rw [hs] at hpos hsize1
    rw [hr] at hsize2
    simp only at hpos hsize1 hsize2
    rcases List.mem_cons.mp hp with rfl | hp
    · have hnil : buf.locs.map heap ≠ [] := by
        refine List.ne_nil_of_length_pos ?_
        rw [List.length_map, SliceMut.length_locs]
        exact Nat.pos_of_ne_zero hne
      have := hwithin hnil
      rw [List.length_map, SliceMut.length_locs, hpos, hsize1] at this
      exact this
    · have := ih r2 _ h p hp hne
      rwa [hsize2, hsize1] at this

/-- The reads that are `Ok` through the file are `Ok` with the same bytes from the mapped
    file. -/
def BackendsAgree (reader : R) (map : MemoryMap (Nat × Nat)) (info : MMAPInfo) : Prop :=
  ∀ data reader' bufs, FileIOMemory.readRawList reader map data = some (reader', bufs, .ok ()) →
    info.physReadRawList data = some (bufs, .ok ())

variable {reader : R} {map : MemoryMap (Nat × Nat)} {info : MMAPInfo}

/-- The places of the bytes of reads that are `Ok` lie in the file. -/
theorem fileOff_lt {rets : List ((Nat × Nat) × SliceMut)} {data : List (PhysicalAddress × List UInt8)}
    (hbytes : (rets.flatMap fun p => (bytes p.2).zipIdx p.1.1) =
      ((slices data).flatMap fun d => (bytes d.2).zipIdx d.1.address).filterMap fun y =>
        (map.fileOff y.2).map fun o => (y.1, o))
    (hok : (FileIOMemory.readLoop reader (heapOf data) rets).2.2 = .ok ()) {d : PhysicalAddress × List UInt8}
    (hd : d ∈ data) {j : Nat} (hj : j < d.2.length) {o : Nat} (ho : map.fileOff (d.1.address + j) = some o) :
    o < FileReader.size reader := by
  obtain ⟨i, hi⟩ := List.mem_iff_getElem?.mp hd
  have hslice : (d.1, (⟨i, 0, d.2.length⟩ : SliceMut)) ∈ slices data :=
    List.mem_of_getElem? (i := i) (by rw [getElem?_slices, hi]; rfl)
  have hmem : ((i, j), o) ∈ rets.flatMap fun p => (bytes p.2).zipIdx p.1.1 := by
    rw [hbytes]
    refine List.mem_filterMap.mpr ⟨((i, j), d.1.address + j), List.mem_flatMap.mpr ⟨_, hslice, ?_⟩, by rw [ho]; rfl⟩
    refine List.mk_mem_zipIdx_iff_le_and_getElem?_sub.mpr ⟨Nat.le_add_right _ _, ?_⟩
    show (SliceMut.locs ⟨i, 0, d.2.length⟩)[d.1.address + j - d.1.address]? = _
    rw [Nat.add_sub_cancel_left, locs_eq, List.getElem?_map, List.getElem?_range hj, Option.map_some, Nat.zero_add]
  obtain ⟨p, hp, hx⟩ := List.mem_flatMap.mp hmem
  obtain ⟨hle, hx⟩ := List.mk_mem_zipIdx_iff_le_and_getElem?_sub.mp hx
  have hlt : o - p.1.1 < p.2.len := by
    have := (List.getElem?_eq_some_iff.mp hx).1
    rwa [show (bytes p.2 : List Loc) = p.2.locs from rfl, SliceMut.length_locs] at this
  have := readLoop_within rets reader (heapOf data) hok p hp (by omega)
  omega

theorem agree_of_top (hmap : map.Ready) (hsize : ∀ m ∈ map.mappings, m.output.2 < 2 ^ 64)
    (h : MMAPInfo.tryWithBufmap (fileContent reader) map = some (.ok info))
    (htop : TopInFile (FileReader.size reader) map) : BackendsAgree reader map info := by
  obtain ⟨hinfo, hm⟩ := MMAPInfo.tryWithBufmap_eq (by rw [length_fileContent]; exact FileReader.size_lt reader) hmap hsize h
  have hmem : info.memMap = ⟨map.mappings.map (MMAPInfo.clip (fileContent reader))⟩ := by rw [← hinfo]
  intro data reader' bufs hread
  obtain ⟨rets, fails, hrun, hpart, hcov⟩ := map.mapIter_live (γ := Nat × Unit) hmap (slices data)
  unfold FileIOMemory.readRawList at hread
  rw [hrun, Option.map_some, Option.some.injEq, Prod.mk.injEq, Prod.mk.injEq] at hread
  obtain ⟨-, hbufs, hok⟩ := hread
  have hfits : ∀ m ∈ map.live.mappings, m.output.1 + m.output.2 ≤ 2 ^ 64 := fun m hlive =>
    Nat.le_of_lt (hm m (MemoryMap.mem_live.mp hlive).1).fits
  have hbytes := filePieces_bytes hfits hpart hcov
  have hfile := FileIOMemory.readLoop_eq map.fileOff hbytes hok
  rw [info.physReadRawList_live (hmem ▸ MMAPInfo.clip_ready hmap hm), ← hbufs, hfile]
  simp only [Option.some.injEq, Prod.mk.injEq, and_true]
  refine List.map_congr_left fun d hd => ?_
  apply List.ext_getElem?
  intro j
  rw [List.getElem?_mapIdx, List.getElem?_mapIdx]
  by_cases hj : j < d.2.length
  · rw [hmem, clip_lookup reader hmap hm htop fun o ho => fileOff_lt hbytes hok hd hj ho]
  · rw [List.getElem?_eq_none (by omega)]
    rfl

/-- A region at the top of the address space that runs past the file is found when it is
    mapped, and not through the file. -/
theorem top_of_agree (hmap : map.Ready) (hsize : ∀ m ∈ map.mappings, m.output.2 < 2 ^ 64)
    (h : MMAPInfo.tryWithBufmap (fileContent reader) map = some (.ok info)) (hagree : BackendsAgree reader map info) :
    TopInFile (FileReader.size reader) map := by
  obtain ⟨hinfo, hm⟩ := MMAPInfo.tryWithBufmap_eq (by rw [length_fileContent]; exact FileReader.size_lt reader) hmap hsize h
  have hmem : info.memMap = ⟨map.mappings.map (MMAPInfo.clip (fileContent reader))⟩ := by rw [← hinfo]
  have hready : info.memMap.Ready := hmem ▸ MMAPInfo.clip_ready hmap hm
  intro m hmm hfin
  by_contra hover
  have hstart := (hm m hmm).starts
  rw [length_fileContent] at hstart
  have hf : m.finish = m.base + m.output.2 := rfl
  have hne := hmap.nonempty m hmm
  let b := fileBytes reader m.output.1
  let data : List (PhysicalAddress × List UInt8) := [(PhysicalAddress.ofAddress m.base, [b + 1])]
  -- no region of the map ends behind its base
  have hbehind : ∀ x ∈ map.mappings, x.stop ≤ m.base := by
    intro x hx
    have hxb := hmap.bounded x hx
    by_cases hxm : x = m
    · rw [hxm, MemoryMapping.stop_top hfin]
      exact Nat.zero_le _
    · have hside := hmap.separate hx hmm hxm
      have hxne := hmap.nonempty x hx
      rw [MemoryMapping.stop_eq (by omega)]
      omega
  have hread : FileIOMemory.readRawList reader map data = some (reader, [[b + 1]], .ok ()) := by
    unfold FileIOMemory.readRawList
    rw [show slices data = [(PhysicalAddress.ofAddress m.base, ⟨0, 0, 1⟩)] from rfl, map.mapIter_behind _ hbehind]
    show some (reader, bufsOf data (heapOf data), Except.ok ()) = _
    rw [bufsOf_heapOf]
    rfl
  -- the clipped region is live and holds it
  have hclip : MMAPInfo.clip (fileContent reader) m ∈ info.memMap.live.mappings := by
    refine MemoryMap.mem_live.mpr ⟨by rw [hinfo]; exact List.mem_map_of_mem hmm, ?_⟩
    rw [MMAPInfo.clip_finish, length_fileContent]
    omega
  have hholds : (MMAPInfo.clip (fileContent reader) m).Holds m.base := by
    refine ⟨Nat.le_refl _, ?_⟩
    rw [MMAPInfo.clip_finish, length_fileContent]
    omega
  have hlook : info.memMap.live.lookup m.base = some b := by
    rw [hready.live.lookup_eq hclip hholds]
    show ((fileContent reader).drop m.output.1 |>.take m.output.2)[m.base - m.base]? = _
    rw [Nat.sub_self, List.getElem?_take_of_lt (by omega), List.getElem?_drop, Nat.add_zero,
      fileContent_getElem? reader hstart]
  have hmapped := hagree data reader [[b + 1]] hread
  rw [info.physReadRawList_live hready] at hmapped
  have hbyte : (info.memMap.live.lookup (m.base + 0)).getD (b + 1) = b + 1 :=
    (List.cons.inj (List.cons.inj (Prod.mk.inj (Option.some.inj hmapped)).1).1).1
  rw [Nat.add_zero, hlook, Option.getD_some] at hbyte
  exact absurd hbyte (by simp)

/-- The two backends agree exactly when the regions at the top of the address space lie in
    the file. -/
theorem backends_agree_iff (hmap : map.Ready) (hsize : ∀ m ∈ map.mappings, m.output.2 < 2 ^ 64)
    (h : MMAPInfo.tryWithBufmap (fileContent reader) map = some (.ok info)) :
    BackendsAgree reader map info ↔ TopInFile (FileReader.size reader) map :=
  ⟨top_of_agree hmap hsize h, agree_of_top hmap hsize h⟩

end Lookups

/-! ## A file that is read only -/

structure ReadOnlyFile where
  bytes : Nat → UInt8
  size : Nat
  size_lt : size < 2 ^ 64
  pos : Nat

namespace ReadOnlyFile

instance : StdIo ReadOnlyFile where
  seek r p := ({ r with pos := p }, some ())
  readExact r l :=
    if l = [] ∨ r.pos + l.length ≤ r.size then
      ({ r with pos := r.pos + l.length }, l.mapIdx fun i _ => r.bytes (r.pos + i), some ())
    else (r, l, none)
  write r _ := (r, none)

instance : FileReader ReadOnlyFile where
  fileBytes r := r.bytes
  position r := r.pos
  size r := r.size
  seek_position _ _ _ := rfl
  seek_bytes _ _ := rfl
  read_bytes r l := by
    show (ite _ _ _ : ReadOnlyFile × List UInt8 × Option Unit).1.bytes = _
    split <;> rfl
  read_ok r l h := by
    change (ite _ _ _ : ReadOnlyFile × List UInt8 × Option Unit).2.2 = _ at h
    show (ite _ _ _ : ReadOnlyFile × List UInt8 × Option Unit).2.1 = _
    split at h
    · next hin => rw [if_pos hin]
    · cases h
  write_le _ _ _ h := nomatch h
  write_pos _ _ _ h := nomatch h
  write_bytes _ _ _ h := nomatch h
  size_lt r := r.size_lt
  seek_size _ _ := rfl
  read_size r l := by
    show (ite _ _ _ : ReadOnlyFile × List UInt8 × Option Unit).1.size = _
    split <;> rfl
  read_within r l h hne := by
    change (ite _ _ _ : ReadOnlyFile × List UInt8 × Option Unit).2.2 = _ at h
    split at h
    · next hin => exact hin.resolve_left hne
    · cases h

end ReadOnlyFile

/-- Three bytes behind two regions that share one of them; the second runs past the end. -/
def sharedBytes : ReadOnlyFile := ⟨fun x => UInt8.ofNat (x + 1), 3, by decide, 0⟩

def sharedRegions : MemoryMap (Nat × Nat) := ⟨[⟨0x1000, (0, 2)⟩, ⟨0x2000, (1, 4)⟩]⟩

theorem backends_agree_shared :
    BackendsAgree sharedBytes sharedRegions ⟨⟨[⟨0x1000, [1, 2]⟩, ⟨0x2000, [2, 3]⟩]⟩⟩ :=
  (backends_agree_iff ⟨by decide, by decide, by decide⟩ (by decide) (by decide +kernel)).mpr (by decide +kernel)

/-- One byte behind a region that ends with the address space and runs past the end. -/
def topByte : ReadOnlyFile := ⟨fun _ => 1, 1, by decide, 0⟩

def topRegion : MemoryMap (Nat × Nat) := ⟨[⟨2 ^ 64 - 2, (0, 2)⟩]⟩

/-- Through the file its first byte is not mapped; from the mapped file it is read. -/
theorem backends_disagree_top :
    topRegion.Ready ∧ MMAPInfo.tryWithBufmap (fileContent topByte) topRegion = some (.ok ⟨⟨[⟨2 ^ 64 - 2, [1]⟩]⟩⟩) ∧
      (FileIOMemory.readRawList topByte topRegion [(PhysicalAddress.ofAddress (2 ^ 64 - 2), [7])]).map (·.2) =
        some ([[7]], .ok ()) ∧
      (⟨⟨[⟨2 ^ 64 - 2, [1]⟩]⟩⟩ : MMAPInfo).physReadRawList [(PhysicalAddress.ofAddress (2 ^ 64 - 2), [7])] =
        some ([[1]], .ok ()) ∧
      ¬ BackendsAgree topByte topRegion ⟨⟨[⟨2 ^ 64 - 2, [1]⟩]⟩⟩ := by
  have hfile : (FileIOMemory.readRawList topByte topRegion [(PhysicalAddress.ofAddress (2 ^ 64 - 2), [7])]).map (·.2) =
      some ([[7]], .ok ()) := by
    decide +kernel
  have hmapped : (⟨⟨[⟨2 ^ 64 - 2, [1]⟩]⟩⟩ : MMAPInfo).physReadRawList [(PhysicalAddress.ofAddress (2 ^ 64 - 2), [7])] =
      some ([[1]], .ok ()) := by
    decide +kernel
  refine ⟨⟨by decide +kernel, by decide +kernel, by decide +kernel⟩, by decide +kernel, hfile, hmapped, fun h => ?_⟩
  obtain ⟨⟨reader', bufs, res⟩, hrun, he⟩ := Option.map_eq_some_iff.mp hfile
  obtain ⟨rfl, rfl⟩ := Prod.mk.inj he
  have := hmapped.symm.trans (h _ reader' _ hrun)
  exact absurd this (by decide)

end Jiaa
