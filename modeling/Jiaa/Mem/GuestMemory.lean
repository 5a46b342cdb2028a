/-
  Jiaa.Mem.GuestMemory — an address space and what reads through it return
  (memflow `mem/virt_mem.rs`, `mem/virt_mem/virtual_dma.rs`).

  `GuestMemory` holds a byte at every address that is mapped. A read gives zeros for the
  others, and is `Ok` when there are none. `Shows` says of any kind of virtual memory that
  this is what its reads return, from now on.

  - `Shows.virtReadAddrArch` and the like: what the helpers of the trait return; none of
    them fails, a partial read is `Ok` with zeros;
  - `VirtualDMA.shows`: access through physical memory shows the bytes of the memory where
    the translation puts them.
-/

import Jiaa.Mem.Deliveries
import Jiaa.Mem.VirtTransfer

namespace Jiaa

open VirtualMemory

structure GuestMemory where
  bytes : Nat → Option UInt8

namespace GuestMemory

def read (self : GuestMemory) (addr len : Nat) : List UInt8 :=
  (List.range len).map fun i => (self.bytes ((addr + i) % 2 ^ 64)).getD 0

def Mapped (self : GuestMemory) (addr len : Nat) : Prop := ∀ i < len, (self.bytes ((addr + i) % 2 ^ 64)).isSome

instance (self : GuestMemory) (addr len : Nat) : Decidable (self.Mapped addr len) := inferInstanceAs (Decidable (∀ i < len, _))

/-- The pointer at an address, as wide as those of the architecture. -/
def addrAt (self : GuestMemory) (arch : X86Architecture) (addr : Nat) : Nat := leU64 (self.read addr (arch.bits / 8))

/-- Little-endian words of eight bytes at the given addresses, nothing elsewhere. -/
def ofWords (words : List (Nat × Nat)) : GuestMemory :=
  ⟨fun a => (words.find? fun w => w.1 ≤ a && a < w.1 + 8).map fun w => UInt8.ofNat (w.2 >>> (8 * (a - w.1)))⟩

theorem getElem?_read (self : GuestMemory) (addr : Nat) {len i : Nat} (h : i < len) :
    (self.read addr len)[i]? = some ((self.bytes ((addr + i) % 2 ^ 64)).getD 0) := by
  rw [read, List.getElem?_map, List.getElem?_range h, Option.map_some]

@[simp] theorem length_read (self : GuestMemory) (addr len : Nat) : (self.read addr len).length = len := by
  simp [read]

theorem read_add (self : GuestMemory) (addr m n : Nat) :
    self.read addr (m + n) = self.read addr m ++ self.read (addr + m) n := by
  simp [read, List.range_add, Nat.add_assoc]

theorem mapped_add (self : GuestMemory) (addr m n : Nat) :
    self.Mapped addr (m + n) ↔ self.Mapped addr m ∧ self.Mapped (addr + m) n := by
  constructor
  · intro h
    refine ⟨fun i hi => h i (by omega), fun i hi => ?_⟩
    rw [Nat.add_assoc]
    exact h (m + i) (by omega)
  · intro ⟨h1, h2⟩ i hi
    by_cases him : i < m
    · exact h1 i him
    · have h := h2 (i - m) (by omega)
      rwa [Nat.add_assoc, Nat.add_sub_cancel' (by omega)] at h

/-- The same bytes where both have some, and zeros where one has none. -/
theorem read_congr {self other : GuestMemory} (h : ∀ a, (self.bytes a).getD 0 = (other.bytes a).getD 0) (addr len : Nat) :
    self.read addr len = other.read addr len := by
  simp [read, h]

/-- A list of reads ends with the first result that is not `Ok`. -/
def result (self : GuestMemory) (data : List (Nat × List UInt8)) : PartialResult Unit :=
  if ∀ d ∈ data, self.Mapped d.1 d.2.length then .ok () else .error (.partialVirtualRead ())

/-! ## Storing -/

/-- Bytes stored one after the other where something is mapped. -/
def store (self : GuestMemory) (ys : List (Nat × UInt8)) : GuestMemory :=
  ys.foldl (fun g y => ⟨Function.update g.bytes y.1 ((g.bytes y.1).map fun _ => y.2)⟩) self

/-- The bytes of one request. -/
def write (self : GuestMemory) (a : Nat) (data : List UInt8) : GuestMemory := self.store (at64 a data)

theorem store_append (self : GuestMemory) (ys zs : List (Nat × UInt8)) :
    self.store (ys ++ zs) = (self.store ys).store zs := List.foldl_append

/-- A byte is the last one stored there. -/
theorem store_bytes (x : Nat) : ∀ (ys : List (Nat × UInt8)) (self : GuestMemory), (self.store ys).bytes x =
    (self.bytes x).map fun b => (Lib.LastWrite.lastAt x (ys.map Prod.swap)).getD b := by
  intro ys
  induction ys with
  | nil => intro self; exact (Option.map_id' ..).symm
  | cons y ys ih =>
    intro self
    refine (ih _).trans ?_
    rw [List.map_cons, Lib.LastWrite.lastAt]
    dsimp only
    by_cases hy : y.1 = x
    · obtain rfl := hy
      rw [Function.update_self, Option.map_map]
      refine Option.map_congr fun b _ => ?_
      cases Lib.LastWrite.lastAt y.1 (ys.map Prod.swap) <;> simp
    · rw [Function.update_of_ne (Ne.symm hy)]
      refine Option.map_congr fun b _ => ?_
      simp [hy]

theorem store_congr {self other : GuestMemory} {x : Nat} (ys : List (Nat × UInt8)) (h : self.bytes x = other.bytes x) :
    (self.store ys).bytes x = (other.store ys).bytes x := by
  rw [store_bytes, store_bytes, h]

theorem map_swap_at64 : ∀ (data : List UInt8) (a : Nat), a + data.length ≤ 2 ^ 64 →
    (at64 a data).map Prod.swap = data.zipIdx a := by
  intro data
  induction data with
  | nil => intro a _; rfl
  | cons x data ih =>
    intro a h
    rw [List.length_cons] at h
    show (x, a % 2 ^ 64) :: (at64 (a + 1) data).map Prod.swap = _
    rw [ih (a + 1) (by omega), Nat.mod_eq_of_lt (by omega), List.zipIdx_cons]

theorem write_bytes {a : Nat} {data : List UInt8} (h : a + data.length ≤ 2 ^ 64) (self : GuestMemory) (x : Nat) :
    (self.write a data).bytes x = (self.bytes x).map fun b => (if a ≤ x then data[x - a]? else none).getD b := by
  rw [write, store_bytes, map_swap_at64 data a h, Lib.LastWrite.lastAt_zipIdx]

/-- Writes reach what is mapped. -/
instance : VirtualMemory GuestMemory where
  virtReadRawList self data := some (self, data.map fun d => self.read d.1 d.2.length, self.result data)
  virtWriteRawList self data :=
    some ((data.flatMap fun d => at64 d.1 d.2).foldl
      (fun g y => ⟨Function.update g.bytes y.1 ((g.bytes y.1).map fun _ => y.2)⟩) self, self.result data)

end GuestMemory

/-! ## Virtual memory that shows an address space -/

/-- In the states of `P`, which reads do not leave, reads return what `g` holds. -/
def Shows {W : Type} [VirtualMemory W] (g : GuestMemory) (P : W → Prop) : Prop :=
  ∀ w, P w → ∀ addr out, addr < 2 ^ 64 → out ≠ [] → ∃ w', P w' ∧
    virtReadRawList w [(addr, out)] = some (w', [g.read addr out.length],
      if g.Mapped addr out.length then .ok () else .error (.partialVirtualRead ()))

theorem GuestMemory.shows (g : GuestMemory) : Shows g (· = g) := by
  rintro w rfl addr out _ _
  exact ⟨w, rfl, by simp [virtReadRawList, GuestMemory.result]⟩

namespace Shows

variable {W : Type} [VirtualMemory W] {g : GuestMemory} {P : W → Prop} {w : W}

theorem virtReadRawInto (h : Shows g P) (hw : P w) {addr : Nat} {out : List UInt8} (ha : addr < 2 ^ 64) (ho : out ≠ []) :
    ∃ w', P w' ∧ VirtualMemory.virtReadRawInto w addr out = some (w', g.read addr out.length,
      if g.Mapped addr out.length then .ok () else .error (.partialVirtualRead ())) := by
  obtain ⟨w', hw', hread⟩ := h w hw addr out ha ho
  exact ⟨w', hw', by simp [VirtualMemory.virtReadRawInto, hread]⟩

/-- The data of a read is mapped whether it is whole or not. -/
theorem mapData_ite {α β : Type*} {p : Prop} [Decidable p] (a : α) (f : α → β) :
    (if p then .ok a else .error (.partialVirtualRead a) : PartialResult α).mapData f = .ok (f a) := by
  split <;> rfl

theorem virtReadRaw (h : Shows g P) (hw : P w) {addr len : Nat} (ha : addr < 2 ^ 64) (hl : 0 < len) :
    ∃ w', P w' ∧ VirtualMemory.virtReadRaw w addr len = some (w', .ok (g.read addr len)) := by
  have hne : List.replicate len (0 : UInt8) ≠ [] := by simpa using hl.ne'
  obtain ⟨w', hw', hread⟩ := h.virtReadRawInto hw ha hne
  refine ⟨w', hw', ?_⟩
  simp [VirtualMemory.virtReadRaw, hread, mapData_ite]

theorem virtRead {α : Type} [Pod α] (hpos : 0 < Pod.size α) (h : Shows g P) (hw : P w) {addr : Nat} (ha : addr < 2 ^ 64)
    (uninit : Fin (Pod.size α) → UInt8) :
    ∃ w', P w' ∧ VirtualMemory.virtRead α w addr uninit = some (w', .ok (Pod.ofBytes (g.read addr (Pod.size α)))) := by
  have hne : List.ofFn uninit ≠ [] := by simpa using hpos.ne'
  obtain ⟨w', hw', hread⟩ := h.virtReadRawInto hw ha hne
  refine ⟨w', hw', ?_⟩
  simp [VirtualMemory.virtRead, hread, mapData_ite]

theorem virtReadAddr32 (h : Shows g P) (hw : P w) {addr : Nat} (ha : addr < 2 ^ 64) (uninit : Fin 4 → UInt8) :
    ∃ w', P w' ∧ VirtualMemory.virtReadAddr32 w addr uninit = some (w', .ok (leU64 (g.read addr 4))) := by
  obtain ⟨w', hw', hread⟩ := h.virtRead (α := UInt32) (by decide) hw ha uninit
  refine ⟨w', hw', ?_⟩
  have hlt := leU64_lt (g.read addr 4)
  rw [GuestMemory.length_read] at hlt
  rw [VirtualMemory.virtReadAddr32, hread]
  simp only [Option.map_some, PartialResult.mapData]
  rw [show (Pod.ofBytes (g.read addr (Pod.size UInt32)) : UInt32).toNat = leU64 (g.read addr 4) from
    Nat.mod_eq_of_lt hlt]

theorem virtReadAddr64 (h : Shows g P) (hw : P w) {addr : Nat} (ha : addr < 2 ^ 64) (uninit : Fin 8 → UInt8) :
    ∃ w', P w' ∧ VirtualMemory.virtReadAddr64 w addr uninit = some (w', .ok (leU64 (g.read addr 8))) := by
  obtain ⟨w', hw', hread⟩ := h.virtRead (α := UInt64) (by decide) hw ha uninit
  refine ⟨w', hw', ?_⟩
  have hlt := leU64_lt (g.read addr 8)
  rw [GuestMemory.length_read] at hlt
  rw [VirtualMemory.virtReadAddr64, hread]
  simp only [Option.map_some, PartialResult.mapData]
  rw [show (Pod.ofBytes (g.read addr (Pod.size UInt64)) : UInt64).toNat = leU64 (g.read addr 8) from
    Nat.mod_eq_of_lt hlt]

/-- The widths there are. -/
theorem virtReadAddrArch (h : Shows g P) (hw : P w) {arch : X86Architecture} (harch : arch.bits = 64 ∨ arch.bits = 32)
    {addr : Nat} (ha : addr < 2 ^ 64) (uninit : Nat → UInt8) :
    ∃ w', P w' ∧ VirtualMemory.virtReadAddrArch w arch addr uninit = some (w', .ok (g.addrAt arch addr)) := by
  rcases harch with hb | hb
  · simpa [VirtualMemory.virtReadAddrArch, GuestMemory.addrAt, hb] using h.virtReadAddr64 hw ha fun i => uninit i
  · simpa [VirtualMemory.virtReadAddrArch, GuestMemory.addrAt, hb] using h.virtReadAddr32 hw ha fun i => uninit i

theorem virtReadCstr (h : Shows g P) (hw : P w) {addr len : Nat} (ha : addr < 2 ^ 64) (hl : 0 < len) :
    ∃ w', P w' ∧ VirtualMemory.virtReadCstr w addr len =
      some (w', .ok (Lib.Text.fromUtf8Lossy ((g.read addr len).takeWhile (· != 0)))) := by
  have hne : List.replicate len (0 : UInt8) ≠ [] := by simpa using hl.ne'
  obtain ⟨w', hw', hread⟩ := h.virtReadRawInto hw ha hne
  refine ⟨w', hw', ?_⟩
  rw [VirtualMemory.virtReadCstr, hread, List.length_replicate]
  split <;> rfl

end Shows

/-! ## Access through physical memory -/

namespace VirtualDMA

open ArchMMUSpec (requestBytes failBytes)

variable {M V D : Type} [PhysicalMemory M] [LawfulMemory M] [NeverFails M] [VirtualTranslate V] [ScopedVirtualTranslate D]

/-- The bytes `c` of a memory where `f` puts them. -/
def seen (f : Translation) (c : Nat → UInt8) : GuestMemory := ⟨fun v => (f v).map fun p => c p.1⟩

theorem seen_of_some {f : Translation} {c : Nat → UInt8} {v : Nat} {p : Nat × PageType} (h : f v = some p) :
    (seen f c).bytes v = some (c p.1) := by
  simp [seen, h]

theorem seen_of_none {f : Translation} {c : Nat → UInt8} {v : Nat} (h : f v = none) : (seen f c).bytes v = none := by
  simp [seen, h]

section Deliveries

variable {f : Translation} {c : Nat → UInt8} {a : Nat} {s : SliceMut} {o : Outputs SliceMut}

theorem deliversOnce {out : List UInt8} (h : Delivers (· = f) [(a, (⟨0, 0, out.length⟩ : SliceMut))] o) :
    DeliversOnce [(a, out)] o := by
  obtain ⟨ds, hds⟩ := h
  have hlocs := hds.bytes.map (·.2)
  have hmap : ∀ (α : Type) (l : List α) (g : α → Nat) (t : α → SliceMut),
      (l.flatMap fun x => at64 (g x) (bytes (t x))).map (·.2) = l.flatMap fun x => (t x).locs := by
    intro α l g t
    rw [List.map_flatMap]
    exact List.flatMap_congr fun x _ => map_snd_at64 _ _
  unfold failBytes requestBytes at hlocs
  rw [List.map_append, hmap, hmap, hmap] at hlocs
  unfold DeliversOnce
  rw [hds.out, List.flatMap_map]
  exact hlocs

/-- The byte of the request at `i`: delivered where the translation has it, or failed. -/
theorem byte_delivered (h : Delivers (· = f) [(a, s)] o) {i : Nat} (hi : i < s.len) :
    (∃ p ∈ o.out, ∃ j < p.2.len, (p.2.buf, p.2.off + j) = (s.buf, s.off + i) ∧
      (seen f c).bytes ((a + i) % 2 ^ 64) = some (c ((p.1.address + j) % 2 ^ 64))) ∨
    ∃ x ∈ o.outFail, (s.buf, s.off + i) ∈ x.2.2.locs ∧ (seen f c).bytes ((a + i) % 2 ^ 64) = none := by
  obtain ⟨ds, hds⟩ := h
  have hmem : ((a + i) % 2 ^ 64, (s.buf, s.off + i)) ∈ requestBytes (β := Loc) [(a, s)] := by
    simp only [requestBytes, List.flatMap_cons, List.flatMap_nil, List.append_nil]
    refine List.mem_of_getElem? (i := i) ?_
    rw [getElem?_at64]
    show (s.locs[i]?).map _ = _
    simp [locs_eq, hi]
  rcases List.mem_append.mp (hds.bytes.mem_iff.mpr hmem) with hd | hx
  · left
    obtain ⟨d, hd, hy⟩ := List.mem_flatMap.mp hd
    obtain ⟨j, hj⟩ := List.mem_iff_getElem?.mp hy
    rw [getElem?_at64] at hj
    obtain ⟨x, hx, he⟩ := Option.map_eq_some_iff.mp hj
    obtain ⟨ha, rfl⟩ := Prod.mk.inj he
    have hlocs : bytes d.2.2 = d.2.2.locs := rfl
    rw [hlocs, locs_eq, List.getElem?_map] at hx
    obtain ⟨k, hk, hloc⟩ := Option.map_eq_some_iff.mp hx
    obtain ⟨hlt, rfl⟩ := List.getElem?_eq_some_iff.mp hk
    simp only [List.length_range, List.getElem_range] at hlt hloc
    obtain ⟨-, _, rfl, htr⟩ := hds.mapped d hd
    refine ⟨d.2, by rw [hds.out]; exact List.mem_map_of_mem hd, j, hlt, hloc, ?_⟩
    have hf := htr j (by show j ≤ d.2.2.len - 1; omega)
    rw [ha] at hf
    exact seen_of_some hf
  · right
    obtain ⟨x, hx, hy⟩ := List.mem_flatMap.mp hx
    obtain ⟨j, hj⟩ := List.mem_iff_getElem?.mp hy
    rw [getElem?_at64] at hj
    obtain ⟨l, hl, he⟩ := Option.map_eq_some_iff.mp hj
    obtain ⟨ha, rfl⟩ := Prod.mk.inj he
    have hlt : j < x.2.2.len := by
      have := (List.getElem?_eq_some_iff.mp hl).1
      simpa [LawfulSplitAtIndex.bytes] using this
    obtain ⟨-, _, rfl, htr⟩ := hds.unmapped x hx
    have hf := htr j (by show j ≤ x.2.2.len - 1; omega)
    rw [ha] at hf
    exact ⟨x, hx, List.mem_of_getElem? hl, seen_of_none hf⟩

/-- A byte of a part that fails is one of the request that the translation does not have. -/
theorem fail_unmapped (h : Delivers (· = f) [(a, s)] o) {x : Error × Nat × SliceMut} (hx : x ∈ o.outFail)
    (hlen : 0 < x.2.2.len) : ∃ i < s.len, (seen f c).bytes ((a + i) % 2 ^ 64) = none := by
  obtain ⟨ds, hds⟩ := h
  have hmem : (x.2.1 % 2 ^ 64, (x.2.2.buf, x.2.2.off)) ∈ failBytes (β := Loc) o.outFail := by
    refine List.mem_flatMap.mpr ⟨x, hx, List.mem_of_getElem? (i := 0) ?_⟩
    rw [getElem?_at64]
    show (x.2.2.locs[0]?).map _ = _
    simp [locs_eq, hlen]
  have hreq := hds.bytes.mem_iff.mp (List.mem_append_right _ hmem)
  simp only [requestBytes, List.flatMap_cons, List.flatMap_nil, List.append_nil] at hreq
  obtain ⟨i, hi⟩ := List.mem_iff_getElem?.mp hreq
  rw [getElem?_at64] at hi
  obtain ⟨l, hl, he⟩ := Option.map_eq_some_iff.mp hi
  obtain ⟨-, _, rfl, htr⟩ := hds.unmapped x hx
  have hf := htr 0 (Nat.zero_le _)
  refine ⟨i, by simpa [LawfulSplitAtIndex.bytes] using (List.getElem?_eq_some_iff.mp hl).1, ?_⟩
  rw [(Prod.mk.inj he).1]
  exact seen_of_none hf

/-- The buffer after the copies: zeros where nothing is mapped. -/
theorem bufs_eq {out : List UInt8} (h : Delivers (· = f) [(a, (⟨0, 0, out.length⟩ : SliceMut))] o) :
    bufsOf [(a, out)] (copyAll (heapOf [(a, out)]) (stores c o)) = [(seen f c).read a out.length] := by
  have hd := deliversOnce h
  have hmoves := readMoves hd c
  generalize copyAll (heapOf [(a, out)]) (stores c o) = heap at hmoves ⊢
  have hbufs : bufsOf [(a, out)] heap = [(List.range out.length).map fun j => heap (0, j)] := by
    simp [bufsOf, slices, locs_eq]
  rw [hbufs, GuestMemory.read, List.singleton_inj]
  refine List.map_congr_left fun i hi => ?_
  have hi := List.mem_range.mp hi
  have hloc : ((0, i) : Loc) ∈ (slices [(a, out)]).flatMap (·.2.locs) := mem_locs_slices.mpr ⟨(a, out), rfl, hi⟩
  have hbyte := byteOf_bufsOf hloc heap
  rcases byte_delivered (c := c) h hi with ⟨p, hp, j, hj, he, hs⟩ | ⟨x, hx, hl, hs⟩
  · have hm := hmoves.moved p hp j hj
    rw [he] at hm
    simp only [Nat.zero_add] at hm
    rw [hbyte, Option.some.injEq] at hm
    rw [hs, hm, Option.getD_some]
  · have hm := hmoves.cleared x hx _ hl
    simp only [Nat.zero_add] at hm
    rw [hbyte, Option.some.injEq] at hm
    rw [hs, hm, Option.getD_none]

theorem outFail_nil_iff (h : Delivers (· = f) [(a, s)] o) (hne : ∀ x ∈ o.outFail, 0 < x.2.2.len) :
    o.outFail = [] ↔ (seen f c).Mapped a s.len := by
  constructor
  · intro hnil i hi
    rcases byte_delivered (c := c) h hi with ⟨p, -, j, -, -, hs⟩ | ⟨x, hx, -⟩
    · rw [hs, Option.isSome_some]
    · rw [hnil] at hx
      cases hx
  · intro hm
    refine List.eq_nil_iff_forall_not_mem.mpr fun x hx => ?_
    obtain ⟨i, hi, hs⟩ := fail_unmapped (c := c) h hx (hne x hx)
    have hsome := hm i hi
    rw [hs] at hsome
    cases hsome

end Deliveries

/-- Where the translations of a batch of one buffer are those of `f`, and only parts with
    bytes fail, access through a memory with the bytes `c` shows them where `f` has them. -/
theorem shows (f : Translation) (c : Nat → UInt8) (translator : D) (Q : V → Prop)
    (hserve : ∀ vat (mem : M), Q vat → content mem = c → ∀ a (s : SliceMut), a < 2 ^ 64 → 0 < s.len → ∃ vat' mem' o,
      VirtualTranslate.virtToPhysIter vat mem translator [(a, s)] = some (vat', mem', o) ∧ Q vat' ∧ content mem' = c ∧
      Delivers (· = f) [(a, s)] o ∧ ∀ x ∈ o.outFail, 0 < x.2.2.len) :
    Shows (seen f c) fun w : VirtualDMA M V D => w.translator = translator ∧ Q w.vat ∧ content w.physMem = c := by
  rintro w ⟨rfl, hq, hc⟩ addr out haddr hout
  have hpos : 0 < out.length := List.length_pos_of_ne_nil hout
  obtain ⟨vat, mem, o, ht, hq', hc', hd, hne⟩ := hserve w.vat w.physMem hq hc addr ⟨0, 0, out.length⟩ haddr hpos
  have hbatch : w.translate [(addr, out)] = some (vat, mem, o) := ht
  obtain ⟨mem', hmem', hrun⟩ := virtReadRawList_eq hbatch
  refine ⟨{ w with vat := vat, physMem := mem' }, ⟨rfl, hq', hmem'.trans hc'⟩, hrun.trans ?_⟩
  rw [hc', bufs_eq hd]
  have hok := outFail_nil_iff (c := c) hd hne
  by_cases hm : (seen f c).Mapped addr out.length
  · rw [if_pos hm, (finish_ok_iff _ _).mpr (hok.mpr hm)]
  · rw [if_neg hm, finish_failed fun h => hm (hok.mp h)]

end VirtualDMA

end Jiaa
