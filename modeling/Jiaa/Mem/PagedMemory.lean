/-
  Jiaa.Mem.PagedMemory — page tables make a plain memory
  (memflow `mem/virt_mem/virtual_dma.rs`, `architecture/mmu_spec.rs`).

  The tables lie in the memory that is read and written through them. In a region whose
  bytes are bytes of no table that leads to it, and lie each in a place of its own, the
  translation stays what it was, and reads and writes are those of a plain memory that
  holds the region's bytes.

  - `walk_frame`: a walk depends on the entries it reads only;
  - `translate_parts`: every byte of a request that fits comes back where its walk leads;
  - `paged_run`: any number of reads and writes return what the plain memory returns.
-/

import Jiaa.Architecture.Conservation
import Jiaa.Architecture.UnmappedTables
import Jiaa.Mem.Alike
import Jiaa.Mem.GuestMemory

namespace Jiaa

namespace ArchMMUSpec

variable (spec : ArchMMUSpec)

/-! ## The entries of a walk -/

/-- A byte of an entry that the walk to `v` reads. -/
def TableByte (c : Nat → UInt8) (dtb v x : Nat) : Prop :=
  ∃ step a, spec.AsksFor (spec.tableNext c) dtb v step a ∧ ∃ i < 8, x = (a + i) % 2 ^ 64

/-- The bytes of the entries of a walk, one step after the other. -/
theorem tableByte_iff {c : Nat → UInt8} {dtb v x : Nat} : spec.TableByte c dtb v x ↔
    ∃ step < spec.splitCount, ∃ pt ∈ spec.entryAt (spec.tableNext c) dtb v step,
      spec.checkEntry pt step = true ∧ spec.isFinalMapping pt step = false ∧
        ∃ i < 8, x = (spec.vtopStep pt v step + i) % 2 ^ 64 := by
  constructor
  · rintro ⟨step, _, ⟨pt, hpt, hc, hf, rfl⟩, i, hi, rfl⟩
    exact ⟨step, spec.entryAt_lt hpt, pt, hpt, hc, hf, i, hi, rfl⟩
  · rintro ⟨step, -, pt, hpt, hc, hf, i, hi, rfl⟩
    exact ⟨step, _, ⟨pt, hpt, hc, hf, rfl⟩, i, hi, rfl⟩

instance (c : Nat → UInt8) (dtb v x : Nat) : Decidable (spec.TableByte c dtb v x) :=
  decidable_of_iff' _ spec.tableByte_iff

/-- Two contents with the same entries on the way to `v`. -/
def SameTables (c c' : Nat → UInt8) (dtb v : Nat) : Prop := ∀ x, spec.TableByte c dtb v x → c' x = c x

section Frame

variable {spec} {c c' : Nat → UInt8} {dtb v : Nat}

theorem SameTables.entryOf (h : spec.SameTables c c' dtb v) {step pt : Nat}
    (he : spec.entryAt (spec.tableNext c) dtb v step = some pt) (hc : spec.checkEntry pt step = true)
    (hf : spec.isFinalMapping pt step = false) : spec.entryOf c' pt v step = spec.entryOf c pt v step := by
  have hbytes : bytesAt c' (spec.vtopStep pt v step) 8 = bytesAt c (spec.vtopStep pt v step) 8 :=
    List.map_congr_left fun i hi => h _ ⟨step, _, ⟨pt, he, hc, hf, rfl⟩, i, List.mem_range.mp hi, rfl⟩
  unfold ArchMMUSpec.entryOf readU64
  rw [hbytes]

theorem SameTables.entryAt (h : spec.SameTables c c' dtb v) : ∀ step,
    spec.entryAt (spec.tableNext c') dtb v step = spec.entryAt (spec.tableNext c) dtb v step := by
  intro step
  induction step with
  | zero => rfl
  | succ step ih =>
    unfold ArchMMUSpec.entryAt
    rw [ih]
    refine Option.bind_congr fun pt hpt => ?_
    split
    · next hcheck =>
      simp only [Bool.and_eq_true, Bool.not_eq_true'] at hcheck
      exact congrArg some (h.entryOf hpt hcheck.1 hcheck.2)
    · rfl

/-- A walk depends on the entries it reads only. -/
theorem walk_frame (h : spec.SameTables c c' dtb v) : spec.walk c' dtb v = spec.walk c dtb v := by
  have key : ∀ rounds step pt, spec.entryAt (spec.tableNext c) dtb v step = some pt →
      spec.walkFrom (spec.tableNext c') v rounds step pt = spec.walkFrom (spec.tableNext c) v rounds step pt := by
    intro rounds
    induction rounds with
    | zero => intro step pt _; rfl
    | succ rounds ih =>
      intro step pt he
      simp only [walkFrom]
      cases hc : spec.checkEntry pt step with
      | false => simp
      | true =>
        cases hf : spec.isFinalMapping pt step with
        | true => simp
        | false =>
          simp only [Bool.not_true, Bool.false_eq_true, if_false, tableNext, Option.bind_some, h.entryOf he hc hf]
          exact ih (step + 1) _ (spec.entryAt_succ he hc hf)
  exact key spec.splitCount 0 dtb rfl

/-- The conditions on the tables of a request are conditions on these entries. -/
theorem DistinctEntries.frame {T : Type*} [SplitAtIndex T] {r : Nat × T}
    (h : ∀ v, r.1 ≤ v → v < r.1 + SplitAtIndex.length r.2 → spec.SameTables c c' dtb v) (hd : spec.DistinctEntries c dtb r) :
    spec.DistinctEntries c' dtb r where
  noSelf v hv hv' step pt hs he hc hf hp := by
    have hsame := h v hv hv'
    rw [hsame.entryAt] at he
    rw [hsame.entryOf he hc hf] at hp ⊢
    exact hd.noSelf v hv hv' step pt hs he hc hf hp
  distinct v w step e hv hv' hw hw' hs he hew := by
    rw [(h v hv hv').entryAt] at he
    rw [(h w hw hw').entryAt] at hew
    exact hd.distinct v w step e hv hv' hw hw' hs he hew

theorem OffsetsAgree.frame {T : Type*} [SplitAtIndex T] {r : Nat × T}
    (h : ∀ v, r.1 ≤ v → v < r.1 + SplitAtIndex.length r.2 → spec.SameTables c c' dtb v)
    (ho : spec.OffsetsAgree (spec.tableNext c) dtb r) : spec.OffsetsAgree (spec.tableNext c') dtb r := by
  intro v w step pt hv hv' hw hw' hs he hpage hew
  rw [(h v hv hv').entryAt] at he
  rw [(h w hw hw').entryAt] at hew
  exact ho v w step pt hv hv' hw hw' hs he hpage hew

end Frame

/-! ## A translation reads only -/

section Content

variable {M T : Type*} [PhysicalMemory M] [LawfulMemory M]

theorem content_readPtAddressIter (mem : M) (step : Nat) (addrs : List (TranslationChunk T)) (ptBuf : List UInt8)
    (o : Outputs T) : content (spec.readPtAddressIter mem step addrs ptBuf o).1 = content mem := by
  have hread := LawfulMemory.read_content mem (spec.ptReads step addrs ptBuf)
  unfold readPtAddressIter
  split
  · next h => rwa [h] at hread
  · next h => rwa [h] at hread

theorem content_walkLoop [SplitAtIndex T] : ∀ (rounds step : Nat) (mem : M) (ptBuf : List UInt8) (o : Outputs T)
    (data : List (TranslationChunk T)), content (spec.walkLoop rounds step mem ptBuf o data).2 = content mem := by
  intro rounds
  induction rounds with
  | zero => intro step mem ptBuf o data; rfl
  | succ rounds ih =>
    intro step mem ptBuf o data
    rw [walkLoop]
    generalize Lib.RevLoop.drainRev (spec.stepChunk step) data.length o data = r
    obtain ⟨o, data⟩ := r
    dsimp only
    split
    · rfl
    · have hread := spec.content_readPtAddressIter mem step data ptBuf o
      split
      · next h => rwa [h] at hread
      · next h =>
        rw [h] at hread
        exact (ih _ _ _ _ _).trans hread

end Content

/-! ## No part that fails is empty -/

section Fails

variable {M T β : Type*} [SplitAtIndex T] [lawful : LawfulSplitAtIndex T β]

/-- The parts that failed have bytes. -/
def FailsBytes (o : Outputs T) : Prop := ∀ x ∈ o.outFail, 0 < SplitAtIndex.length x.2.2

omit lawful in
theorem FailsBytes.failChunk {o : Outputs T} (ho : FailsBytes o) {g : TranslationChunk T} (hg : g.Ok) (err : Error) :
    FailsBytes (o.failChunk err g) := by
  intro x hx
  rcases List.mem_append.mp hx with hx | hx
  · exact ho x hx
  · obtain ⟨d, hd, rfl⟩ := List.mem_map.mp hx
    exact (hg.pieces d hd).1

include lawful in
theorem failsBytes_stepChunk (step i : Nat) {o : Outputs T} (ho : FailsBytes o) {g : TranslationChunk T} (hg : g.Ok) :
    FailsBytes (spec.stepChunk step i o g).1 ∧ ∀ g' ∈ (spec.stepChunk step i o g).2, g'.Ok := by
  constructor
  · unfold stepChunk
    split
    · exact ho.failChunk hg _
    · split
      · exact ho
      · exact ho
  · intro g' hg'
    rw [spec.stepChunk_snd] at hg'
    obtain ⟨-, -, p, hp, rfl⟩ := spec.mem_stepCut hg'
    have hok := (TranslationChunk.pageChunks_parts (β := β) hg _).ok p hp
    exact ⟨hok.pieces, hok.bounds, hok.exact⟩

omit lawful in
theorem failsBytes_filterEntry (step i : Nat) {st : PtRead T} (ho : FailsBytes st.outputs) {g : TranslationChunk T}
    (hg : g.Ok) : FailsBytes (spec.filterEntry step i st g).1.outputs ∧ ∀ g' ∈ (spec.filterEntry step i st g).2, g'.Ok := by
  unfold filterEntry
  split
  · exact ⟨ho, by simp⟩
  · dsimp only
    split
    · refine ⟨ho, fun g' hg' => ?_⟩
      rw [List.mem_singleton.mp hg']
      exact ⟨hg.pieces, hg.bounds, hg.exact⟩
    · exact ⟨ho.failChunk hg _, by simp⟩

omit lawful in
theorem failsBytes_failAll (err : Error) : ∀ {data : List (TranslationChunk T)} {o : Outputs T}, FailsBytes o →
    (∀ g ∈ data, g.Ok) → FailsBytes (data.foldl (fun o g => o.failChunk err g) o) := by
  intro data
  induction data with
  | nil => intro o ho _; exact ho
  | cons g data ih =>
    intro o ho hok
    exact ih (ho.failChunk (hok g List.mem_cons_self) err) fun x hx => hok x (List.mem_cons_of_mem _ hx)

variable [PhysicalMemory M]

include lawful in
theorem failsBytes_walkLoop : ∀ (rounds step : Nat) (mem : M) (ptBuf : List UInt8) {o : Outputs T}
    {data : List (TranslationChunk T)}, FailsBytes o → (∀ g ∈ data, g.Ok) →
    FailsBytes (spec.walkLoop rounds step mem ptBuf o data).1 := by
  intro rounds
  induction rounds with
  | zero => intro step mem ptBuf o data ho _; exact ho
  | succ rounds ih =>
    intro step mem ptBuf o data ho hok
    obtain ⟨hsort, hcut⟩ := Lib.RevLoop.drainRev_induct (p := FailsBytes) (q := TranslationChunk.Ok) (r := TranslationChunk.Ok)
      (fun i o g ho hg => spec.failsBytes_stepChunk step i ho hg) hok ho
    rw [walkLoop]
    generalize Lib.RevLoop.drainRev (spec.stepChunk step) data.length o data = r at hsort hcut
    obtain ⟨o, data⟩ := r
    dsimp only at hsort hcut ⊢
    split
    · exact hsort
    · split
      · exact failsBytes_failAll _ hsort hcut
      · next hread =>
        unfold readPtAddressIter at hread
        split at hread
        · cases hread
        · next bufs _ =>
          obtain ⟨hfails, hleft⟩ := Lib.RevLoop.drainRev_induct (p := fun st : PtRead T => FailsBytes st.outputs)
            (q := TranslationChunk.Ok) (r := TranslationChunk.Ok)
            (fun i st g ho hg => spec.failsBytes_filterEntry step i ho hg) hcut
            (show FailsBytes (PtRead.mk bufs none [] o).outputs from hsort)
          simp only [Prod.mk.injEq, Except.ok.injEq] at hread
          obtain ⟨-, -, rfl, rfl⟩ := hread
          exact ih _ _ _ hfails hleft

end Fails

/-! ## What a translation delivers -/

section Places

variable {M T β : Type*} [SplitAtIndex T] [lawful : LawfulSplitAtIndex T β] [PhysicalMemory M] [LawfulMemory M]

include lawful in
theorem virtToPhysIter_reads {mem mem' : M} {dtb : Nat} {reqs : List (Nat × T)} (hfit : ∀ r ∈ reqs, spec.Fits r)
    {o : Outputs T} (hrun : spec.virtToPhysIter mem dtb reqs = some (o, mem')) : content mem' = content mem ∧ FailsBytes o := by
  obtain ⟨vec, hvec, hstart, -⟩ := spec.accounts_start (β := β) (spec.loneNext (content mem)) dtb hfit
  rw [virtToPhysIter, hvec, Option.map_some, Option.some.injEq] at hrun
  dsimp only at hrun
  have hmem := spec.content_walkLoop spec.splitCount 0 mem [] ⟨[], []⟩ [(TranslationChunk.new dtb vec).recalcMinmax]
  have hfails := spec.failsBytes_walkLoop (β := β) spec.splitCount 0 mem []
    (show FailsBytes (⟨[], []⟩ : Outputs T) from fun x hx => by cases hx) hstart.ok
  rw [hrun] at hmem hfails
  exact ⟨hmem, hfails⟩

end Places

end ArchMMUSpec

namespace VirtualDMA

open ArchMMUSpec

/-- Every byte of a request comes back once: delivered at its place, or failed where it has
    none. -/
structure Places (f : Nat → Option Nat) (a n : Nat) (o : Outputs SliceMut) : Prop where
  once : (o.out.flatMap (·.2.locs) ++ o.outFail.flatMap (·.2.2.locs)).Perm (SliceMut.mk 0 0 n).locs
  delivered : ∀ p ∈ o.out, ∀ j < p.2.len, ∃ i < n, (p.2.buf, p.2.off + j) = (0, i) ∧
    f (a + i) = some ((p.1.address + j) % 2 ^ 64)
  failed : ∀ x ∈ o.outFail, ∀ l ∈ x.2.2.locs, ∃ i < n, l = (0, i) ∧ f (a + i) = none
  fails : FailsBytes o

/-- The place a walk gives an address. -/
def placeOf (spec : ArchMMUSpec) (c : Nat → UInt8) (dtb v : Nat) : Option Nat := (spec.walk c dtb v).map (·.address)

/-- A request that the walker serves as the tables have it. -/
structure Served (spec : ArchMMUSpec) (c : Nat → UInt8) (dtb a n : Nat) : Prop where
  fits : spec.Fits (a, SliceMut.mk 0 0 n)
  distinct : spec.DistinctEntries c dtb (a, SliceMut.mk 0 0 n)
  agree : spec.OffsetsAgree (spec.tableNext c) dtb (a, SliceMut.mk 0 0 n)

theorem getElem?_locs {n i : Nat} {l : Loc} (h : (SliceMut.mk 0 0 n).locs[i]? = some l) : i < n ∧ l = (0, i) := by
  rw [locs_eq, List.getElem?_map] at h
  obtain ⟨k, hk, rfl⟩ := Option.map_eq_some_iff.mp h
  obtain ⟨hlt, rfl⟩ := List.getElem?_eq_some_iff.mp hk
  simp only [List.length_range] at hlt
  exact ⟨hlt, by simp⟩

/-- Every byte of a request comes back where its walk leads. -/
theorem translate_places {M : Type} [PhysicalMemory M] [LawfulMemory M] [AnswersReads M] {spec : ArchMMUSpec} {mem : M}
    {dtb a n : Nat} (h : Served spec (content mem) dtb a n) :
    ∃ o mem', spec.virtToPhysIter mem dtb [(a, SliceMut.mk 0 0 n)] = some (o, mem') ∧ content mem' = content mem ∧
      Places (placeOf spec (content mem) dtb) a n o := by
  obtain ⟨o, mem', ds, hrun, hout, hgood, hdel, hfail⟩ := spec.virtToPhysIter_parts mem dtb h.fits h.distinct
  have hfits : ∀ r ∈ [(a, SliceMut.mk 0 0 n)], spec.Fits r := fun r hr => List.mem_singleton.mp hr ▸ h.fits
  obtain ⟨hmem, hfails⟩ := spec.virtToPhysIter_reads hfits hrun
  have hwrap : a + n < 2 ^ 64 := h.fits.no_wrap
  -- a byte of the request, with its address
  have hbyte : ∀ y ∈ at64 a (SliceMut.mk 0 0 n).locs, ∃ i < n, y = (a + i, (0, i)) := by
    intro y hy
    obtain ⟨i, hi, hv⟩ := mem_at64.mp (show (y.1, y.2) ∈ at64 a _ from hy)
    obtain ⟨hin, hl⟩ := getElem?_locs hi
    exact ⟨i, hin, Prod.ext (hv.trans (Nat.mod_eq_of_lt (by omega))) hl⟩
  have hwalk : ∀ i < n, spec.lone (content mem) dtb (a + i) = spec.walk (content mem) dtb (a + i) := fun i hi =>
    spec.lone_eq_walk (h.distinct.noSelf _ (Nat.le_add_right _ _) (Nat.add_lt_add_left hi a))
  refine ⟨o, mem', hrun, hmem, ⟨?_, fun p hp j hj => ?_, fun x hx l hl => ?_, hfails⟩⟩
  · have hnot : (fun y : Nat × Loc => (spec.walk (content mem) dtb y.1).isNone) =
        fun y => !(spec.walk (content mem) dtb y.1).isSome := funext fun y => (Option.not_isSome _).symm
    rw [hnot] at hfail
    have hall := ((hdel.append hfail).trans (List.filter_append_perm _ _)).map (·.2)
    have hmap : ∀ (α : Type) (l : List α) (g : α → Nat) (t : α → SliceMut),
        (l.flatMap fun x => at64 (g x) (bytes (t x))).map (·.2) = l.flatMap fun x => (t x).locs := by
      intro α l g t
      rw [List.map_flatMap]
      exact List.flatMap_congr fun x _ => map_snd_at64 _ _
    unfold failBytes Delivery.bytes at hall
    rw [List.map_append, hmap, hmap, map_snd_at64] at hall
    rw [hout, List.flatMap_map]
    exact hall
  · rw [hout] at hp
    obtain ⟨d, hd, rfl⟩ := List.mem_map.mp hp
    have hg := hgood d hd
    obtain ⟨hlen, hpos, hend⟩ := hg.length
    have hx : ∀ k < d.buf.len, (LawfulSplitAtIndex.bytes d.buf)[k]? = some (d.buf.buf, d.buf.off + k) := by
      intro k hk
      show d.buf.locs[k]? = _
      rw [locs_eq, List.getElem?_map, List.getElem?_range hk]
      rfl
    have hjlt : j < SplitAtIndex.length d.buf := hj
    have hmem0 := Delivery.mem_bytes (hx 0 hpos) (by omega)
    have hmemj := Delivery.mem_bytes (hx j hj) (by omega)
    obtain ⟨i, hi, he⟩ := hbyte _ (List.mem_filter.mp (hdel.subset (List.mem_flatMap.mpr ⟨d, hd, hmemj⟩))).1
    obtain ⟨haddr, hloc⟩ := Prod.mk.inj he
    refine ⟨i, hi, hloc, ?_⟩
    -- the whole of the part lies in one page, whose offsets agree
    obtain ⟨r, hr, hcut⟩ := hg.within
    rw [List.mem_singleton.mp hr] at hcut
    have h1 : a ≤ d.addr := hcut.1
    have h2 : d.addr + SplitAtIndex.length d.buf ≤ a + n := hcut.2.1
    have hagree := h.agree d.addr (d.addr + j) d.step d.pt h1 (show d.addr < a + n by omega) (show a ≤ d.addr + j by omega)
      (show d.addr + j < a + n by omega) hg.step_lt (spec.entryAt_of_lone (hg.entry _ hmem0)) (hg.page _ hmemj).symm
      (spec.entryAt_of_lone (hg.entry _ hmemj)) hg.present hg.final
    have hshift := congrArg PhysicalAddress.address ((hg.shift spec hjlt).mpr hagree)
    unfold placeOf
    rw [← hwalk i hi, ← haddr]
    exact (congrArg (Option.map _) (hg.walks spec hmemj)).trans (congrArg some hshift.symm)
  · obtain ⟨k, hk⟩ := List.mem_iff_getElem?.mp hl
    have hin : ((x.2.1 + k) % 2 ^ 64, l) ∈ failBytes o.outFail :=
      List.mem_flatMap.mpr ⟨x, hx, mem_at64.mpr ⟨k, hk, rfl⟩⟩
    obtain ⟨hreq, hnone⟩ := List.mem_filter.mp (hfail.subset hin)
    obtain ⟨i, hi, he⟩ := hbyte _ hreq
    obtain ⟨haddr, hloc⟩ := Prod.mk.inj he
    refine ⟨i, hi, hloc, ?_⟩
    unfold placeOf
    rw [← haddr, Option.isNone_iff_eq_none.mp hnone, Option.map_none]

/-! ## One access -/

section Access

variable {f : Nat → Option Nat} {a n : Nat} {o : Outputs SliceMut}

theorem Places.byte (h : Places f a n o) {i : Nat} (hi : i < n) :
    (∃ p ∈ o.out, ∃ j < p.2.len, (p.2.buf, p.2.off + j) = (0, i) ∧ f (a + i) = some ((p.1.address + j) % 2 ^ 64)) ∨
      ∃ x ∈ o.outFail, (0, i) ∈ x.2.2.locs ∧ f (a + i) = none := by
  have hloc : (0, i) ∈ (SliceMut.mk 0 0 n).locs := SliceMut.mem_locs.mpr ⟨rfl, Nat.zero_le _, by simpa using hi⟩
  rcases List.mem_append.mp (h.once.mem_iff.mpr hloc) with hout | hfail
  · left
    obtain ⟨p, hp, hl⟩ := List.mem_flatMap.mp hout
    obtain ⟨hbuf, hoff, hlt⟩ := SliceMut.mem_locs.mp hl
    simp only at hbuf hoff hlt
    have hj : (p.2.buf, p.2.off + (i - p.2.off)) = (0, i) := Prod.ext hbuf.symm (Nat.add_sub_cancel' hoff)
    obtain ⟨k, hk, he, hf⟩ := h.delivered p hp (i - p.2.off) (by omega)
    obtain rfl : i = k := (Prod.mk.inj (hj.symm.trans he)).2
    exact ⟨p, hp, i - p.2.off, by omega, hj, hf⟩
  · right
    obtain ⟨x, hx, hl⟩ := List.mem_flatMap.mp hfail
    obtain ⟨k, hk, he, hf⟩ := h.failed x hx _ hl
    obtain rfl : i = k := (Prod.mk.inj he).2
    exact ⟨x, hx, hl, hf⟩

theorem Places.outFail_nil_iff (h : Places f a n o) : o.outFail = [] ↔ ∀ i < n, (f (a + i)).isSome := by
  constructor
  · intro hnil i hi
    rcases h.byte hi with ⟨p, -, j, -, -, hf⟩ | ⟨x, hx, -⟩
    · rw [hf, Option.isSome_some]
    · rw [hnil] at hx
      cases hx
  · intro hsome
    refine List.eq_nil_iff_forall_not_mem.mpr fun x hx => ?_
    have hpos : 0 < x.2.2.len := h.fails x hx
    obtain ⟨i, hi, -, hf⟩ := h.failed x hx (x.2.2.buf, x.2.2.off)
      (SliceMut.mem_locs.mpr ⟨rfl, Nat.le_refl _, Nat.lt_add_of_pos_right hpos⟩)
    have hi := hsome i hi
    rw [hf] at hi
    cases hi

theorem slices_one (data : List UInt8) : slices [(a, data)] = [(a, SliceMut.mk 0 0 data.length)] := rfl

theorem Places.deliversOnce {data : List UInt8} (h : Places f a data.length o) : DeliversOnce [(a, data)] o := by
  unfold DeliversOnce
  rw [slices_one, List.flatMap_singleton]
  exact h.once

variable {g : GuestMemory}

/-- The result of an access is that of the memory with the bytes of the places. -/
theorem Places.finish_eq (h : Places f a n o) (hwrap : a + n ≤ 2 ^ 64) {c : Nat → UInt8}
    (hg : ∀ i < n, g.bytes (a + i) = (f (a + i)).map c) : finish (.ok ()) o.outFail (.partialVirtualRead ()) =
      if g.Mapped a n then .ok () else .error (.partialVirtualRead ()) := by
  have hiff : g.Mapped a n ↔ o.outFail = [] := by
    rw [h.outFail_nil_iff]
    refine forall_congr' fun i => forall_congr' fun hi => ?_
    rw [Nat.mod_eq_of_lt (by omega), hg i hi, Option.isSome_map]
  by_cases hm : g.Mapped a n
  · rw [if_pos hm, (finish_ok_iff _ _).mpr (hiff.mp hm)]
  · rw [if_neg hm, finish_failed fun hnil => hm (hiff.mpr hnil)]

variable {M V D : Type} [PhysicalMemory M] [LawfulMemory M] [NeverFails M] [VirtualTranslate V] [ScopedVirtualTranslate D]
variable {self : VirtualDMA M V D} {data : List UInt8} {vat : V} {mem : M}

open VirtualMemory

theorem read_places (ht : self.translate [(a, data)] = some (vat, mem, o)) (h : Places f a data.length o)
    (hwrap : a + data.length ≤ 2 ^ 64) (hg : ∀ i < data.length, g.bytes (a + i) = (f (a + i)).map (content mem)) :
    ∃ mem', content mem' = content mem ∧ virtReadRawList self [(a, data)] =
      some ({ self with vat := vat, physMem := mem' }, [g.read a data.length],
        if g.Mapped a data.length then .ok () else .error (.partialVirtualRead ())) := by
  obtain ⟨mem', hmem, hrun⟩ := virtReadRawList_eq ht
  refine ⟨mem', hmem, ?_⟩
  rw [hrun, h.finish_eq hwrap hg]
  have hmoves := readMoves h.deliversOnce (content mem)
  generalize copyAll (heapOf [(a, data)]) (stores (content mem) o) = heap at hmoves ⊢
  have hbufs : bufsOf [(a, data)] heap = [(List.range data.length).map fun j => heap (0, j)] := by
    simp [bufsOf, slices, locs_eq]
  have hbyte : ∀ i < data.length, heap (0, i) = (g.bytes ((a + i) % 2 ^ 64)).getD 0 := by
    intro i hi
    have hloc : ((0, i) : Loc) ∈ (slices [(a, data)]).flatMap (·.2.locs) := mem_locs_slices.mpr ⟨(a, data), rfl, hi⟩
    have hheap := byteOf_bufsOf hloc heap
    rw [Nat.mod_eq_of_lt (by omega), hg i hi]
    rcases h.byte hi with ⟨p, hp, j, hj, he, hf⟩ | ⟨x, hx, hl, hf⟩
    · have hm := hmoves.moved p hp j hj
      rw [he, hheap, Option.some.injEq] at hm
      rw [hf, hm]
      rfl
    · have hm := hmoves.cleared x hx _ hl
      rw [hheap, Option.some.injEq] at hm
      rw [hf, hm]
      rfl
  rw [hbufs, GuestMemory.read, List.map_congr_left fun i hi => hbyte i (List.mem_range.mp hi)]

/-- Every byte is stored at its place, and nothing anywhere else, when no two have one
    place. -/
theorem write_places (ht : self.translate [(a, data)] = some (vat, mem, o)) (h : Places f a data.length o)
    (hwrap : a + data.length ≤ 2 ^ 64) (hg : ∀ i < data.length, g.bytes (a + i) = (f (a + i)).map (content mem))
    (hapart : ∀ i < data.length, ∀ j < data.length, ∀ x, f (a + i) = some x → f (a + j) = some x → i = j) :
    ∃ mem', virtWriteRawList self [(a, data)] = some ({ self with vat := vat, physMem := mem' },
        if g.Mapped a data.length then .ok () else .error (.partialVirtualRead ())) ∧
      (∀ i x, f (a + i) = some x → ∀ b, data[i]? = some b → content mem' x = b) ∧
      ∀ x, (∀ i < data.length, f (a + i) ≠ some x) → content mem' x = content mem x := by
  obtain ⟨mem', hmem, hrun⟩ := virtWriteRawList_eq ht
  refine ⟨mem', by rw [hrun, h.finish_eq hwrap hg], ?_⟩
  rw [hmem, applyWrites_eq]
  -- what is written, by places
  have hwritten : ∀ y ∈ written (o.out.map fun p => (p.1, p.2.locs.map (heapOf [(a, data)]))),
      ∃ i, data[i]? = some y.1 ∧ f (a + i) = some y.2 := by
    intro y hy
    obtain ⟨d, hd, hy⟩ := List.mem_flatMap.mp hy
    obtain ⟨p, hp, rfl⟩ := List.mem_map.mp hd
    obtain ⟨j, hj⟩ := List.mem_iff_getElem?.mp hy
    rw [getElem?_writtenBytes, locs_eq, List.getElem?_map, List.getElem?_map, Option.map_map, Option.map_map] at hj
    obtain ⟨k, hk, rfl⟩ := Option.map_eq_some_iff.mp hj
    obtain ⟨hlt, rfl⟩ := List.getElem?_eq_some_iff.mp hk
    simp only [List.length_range, List.getElem_range] at hlt ⊢
    obtain ⟨i, hi, he, hf⟩ := h.delivered p hp j hlt
    refine ⟨i, ?_, hf⟩
    show data[i]? = some (heapOf [(a, data)] (p.2.buf, p.2.off + j))
    rw [he, List.getElem?_eq_getElem hi]
    simp [heapOf, hi]
  constructor
  · intro i x hf b hb
    have hi := (List.getElem?_eq_some_iff.mp hb).1
    have hin : ∃ b', (b', x) ∈ written (o.out.map fun p => (p.1, p.2.locs.map (heapOf [(a, data)]))) := by
      rcases h.byte hi with ⟨p, hp, j, hj, -, hx⟩ | ⟨-, -, -, hx⟩
      · obtain rfl : x = (p.1.address + j) % 2 ^ 64 := Option.some.inj (hf.symm.trans hx)
        refine ⟨heapOf [(a, data)] (p.2.buf, p.2.off + j),
          List.mem_flatMap.mpr ⟨_, List.mem_map_of_mem hp, List.mem_of_getElem? (i := j) ?_⟩⟩
        rw [getElem?_writtenBytes, locs_eq, List.getElem?_map, List.getElem?_map, List.getElem?_range hj]
        rfl
      · rw [hx] at hf
        cases hf
    obtain ⟨b', hb'⟩ := hin
    obtain ⟨b', hlast⟩ := Lib.LastWrite.exists_lastAt hb'
    obtain ⟨k, hk, hfk⟩ := hwritten _ (Lib.LastWrite.mem_of_lastAt hlast)
    obtain rfl := hapart i hi k (List.getElem?_eq_some_iff.mp hk).1 x hf hfk
    unfold Lib.LastWrite.store
    rw [hlast, Option.getD_some]
    exact Option.some.inj (hk.symm.trans hb)
  · intro x hx
    unfold Lib.LastWrite.store
    rw [Lib.LastWrite.lastAt_eq_none fun y hy he => ?_, Option.getD_none]
    obtain ⟨i, hi, hf⟩ := hwritten y hy
    exact hx i (List.getElem?_eq_some_iff.mp hi).1 (he ▸ hf)

end Access

end VirtualDMA

namespace VirtualMemory

variable {W : Type} [VirtualMemory W]

def access (self : W) : VirtOp → Option (W × List (List UInt8) × PartialResult Unit)
  | .read data => virtReadRawList self data
  | .write data => (virtWriteRawList self data).map fun (self, res) => (self, [], res)

/-- Accesses one after the other, with what each returns. -/
def accessAll : W → List VirtOp → Option (W × List (List (List UInt8) × PartialResult Unit))
  | self, [] => some (self, [])
  | self, op :: ops =>
    (access self op).bind fun (self, result) => (accessAll self ops).map fun (self, results) => (self, result :: results)

theorem accessAll_cons {self self' self'' : W} {op : VirtOp} {ops : List VirtOp} {result : List (List UInt8) × PartialResult Unit}
    {results : List (List (List UInt8) × PartialResult Unit)} (h : access self op = some (self', result))
    (h' : accessAll self' ops = some (self'', results)) : accessAll self (op :: ops) = some (self'', result :: results) := by
  rw [accessAll, h, Option.bind_some]
  dsimp only
  rw [h']
  rfl

end VirtualMemory

/-! ## A region of a paged memory -/

namespace VirtualDMA

open VirtualMemory

/-- A translator that walks page tables. -/
class WalksTables (D : Type) [ScopedVirtualTranslate D] where
  mmu : D → ArchMMUSpec
  dtb : D → Nat
  walks : ∀ {M : Type} [PhysicalMemory M] {T : Type} [SplitAtIndex T] (d : D) (mem : M) (addrs : List (Nat × T)),
    ScopedVirtualTranslate.virtToPhysIter d mem addrs = (mmu d).virtToPhysIter mem (dtb d) addrs

instance : WalksTables X86ScopedVirtualTranslate := ⟨fun d => d.arch.mmu, fun d => d.dtb, fun _ _ _ => rfl⟩

instance : WalksTables Win32VirtualTranslate := ⟨fun d => d.sysArch.mmu, fun d => d.dtb, fun _ _ _ => rfl⟩

section Region

variable (spec : ArchMMUSpec) (c₀ : Nat → UInt8) (dtb : Nat) (U : Nat → Prop)

/-- No two of the addresses have one place, and no place is a byte of a table that leads to
    one of them. -/
structure Region : Prop where
  apart : ∀ v w x, U v → U w → placeOf spec c₀ dtb v = some x → placeOf spec c₀ dtb w = some x → v = w
  noTable : ∀ v w x, U v → U w → placeOf spec c₀ dtb v = some x → ¬ spec.TableByte c₀ dtb w x

/-- The contents `c` still have the tables of the region, and its bytes are those of `g`. -/
structure Holds (c : Nat → UInt8) (g : GuestMemory) : Prop where
  tables : ∀ v, U v → spec.SameTables c₀ c dtb v
  bytes : ∀ v, U v → g.bytes v = (placeOf spec c₀ dtb v).map c

/-- One request of the region, that the walker serves as the tables have it. -/
def InRegion (op : VirtOp) : Prop :=
  ∃ a data, (op = .read [(a, data)] ∨ op = .write [(a, data)]) ∧ Served spec c₀ dtb a data.length ∧
    ∀ i < data.length, U (a + i)

end Region

section Run

variable {M D : Type} [PhysicalMemory M] [LawfulMemory M] [NeverFails M] [ScopedVirtualTranslate D] [WalksTables D]
variable {spec : ArchMMUSpec} {c₀ c : Nat → UInt8} {dtb : Nat} {U : Nat → Prop} {g : GuestMemory}

theorem Served.frame {a n : Nat} (h : Served spec c₀ dtb a n) (hsame : ∀ i < n, spec.SameTables c₀ c dtb (a + i)) :
    Served spec c dtb a n := by
  have hrange : ∀ v, a ≤ v → v < a + n → spec.SameTables c₀ c dtb v := fun v hv hv' => by
    have := hsame (v - a) (by omega)
    rwa [Nat.add_sub_cancel' hv] at this
  exact ⟨h.fits, h.distinct.frame hrange, h.agree.frame hrange⟩

theorem Holds.placeOf (h : Holds spec c₀ dtb U c g) {v : Nat} (hv : U v) : placeOf spec c dtb v = placeOf spec c₀ dtb v := by
  unfold VirtualDMA.placeOf
  rw [ArchMMUSpec.walk_frame (h.tables v hv)]

theorem translate_served (d : D) (procArch : X86Architecture) {mem : M} {a : Nat} {data : List UInt8}
    (h : Served (WalksTables.mmu d) (content mem) (WalksTables.dtb d) a data.length) :
    ∃ mem' o, (⟨mem, ⟨⟩, procArch, d⟩ : VirtualDMA M DirectTranslate D).translate [(a, data)] = some (⟨⟩, mem', o) ∧
      content mem' = content mem ∧
      Places (VirtualDMA.placeOf (WalksTables.mmu d) (content mem) (WalksTables.dtb d)) a data.length o := by
  obtain ⟨o, mem', hrun, hmem, hplaces⟩ := translate_places h
  refine ⟨mem', o, ?_, hmem, hplaces⟩
  show (ScopedVirtualTranslate.virtToPhysIter d mem (slices [(a, data)])).map _ = _
  rw [WalksTables.walks, slices_one, hrun]
  rfl

/-- One access of the region is the access of the plain memory. -/
theorem access_holds (d : D) (hU : Region (WalksTables.mmu d) c₀ (WalksTables.dtb d) U) (procArch : X86Architecture)
    {mem : M} (h : Holds (WalksTables.mmu d) c₀ (WalksTables.dtb d) U (content mem) g) {op : VirtOp}
    (hop : InRegion (WalksTables.mmu d) c₀ (WalksTables.dtb d) U op) :
    ∃ mem' g' result,
      access (⟨mem, ⟨⟩, procArch, d⟩ : VirtualDMA M DirectTranslate D) op = some (⟨mem', ⟨⟩, procArch, d⟩, result) ∧
      access g op = some (g', result) ∧ Holds (WalksTables.mmu d) c₀ (WalksTables.dtb d) U (content mem') g' := by
  obtain ⟨a, data, hop, hserved, hin⟩ := hop
  have hwrap : a + data.length ≤ 2 ^ 64 := Nat.le_of_lt hserved.fits.no_wrap
  obtain ⟨mem1, o, ht, hmem1, hplaces⟩ := translate_served d procArch (hserved.frame fun i hi => h.tables _ (hin i hi))
  have hg : ∀ i < data.length, g.bytes (a + i) =
      (VirtualDMA.placeOf (WalksTables.mmu d) (content mem) (WalksTables.dtb d) (a + i)).map (content mem1) := by
    intro i hi
    rw [h.bytes _ (hin i hi), h.placeOf (hin i hi), hmem1]
  have hresult : g.result [(a, data)] = if g.Mapped a data.length then .ok () else .error (.partialVirtualRead ()) := by
    simp [GuestMemory.result]
  rcases hop with rfl | rfl
  · obtain ⟨mem2, hmem2, hrun⟩ := read_places ht hplaces hwrap hg
    refine ⟨mem2, g, _, hrun, congrArg (fun r => some (g, [g.read a data.length], r)) hresult, ?_⟩
    rw [hmem2, hmem1]
    exact h
  · have hapart : ∀ i < data.length, ∀ j < data.length, ∀ x,
        VirtualDMA.placeOf (WalksTables.mmu d) (content mem) (WalksTables.dtb d) (a + i) = some x →
        VirtualDMA.placeOf (WalksTables.mmu d) (content mem) (WalksTables.dtb d) (a + j) = some x → i = j := by
      intro i hi j hj x hx hy
      rw [h.placeOf (hin i hi)] at hx
      rw [h.placeOf (hin j hj)] at hy
      have := hU.apart _ _ x (hin i hi) (hin j hj) hx hy
      omega
    obtain ⟨mem2, hrun, hstored, hother⟩ := write_places ht hplaces hwrap hg hapart
    -- what is at no place of the request is left alone
    have hkept : ∀ x, (∀ i < data.length,
        VirtualDMA.placeOf (WalksTables.mmu d) c₀ (WalksTables.dtb d) (a + i) ≠ some x) → content mem2 x = content mem x :=
      fun x hx => (hother x fun i hi => by rw [h.placeOf (hin i hi)]; exact hx i hi).trans (by rw [hmem1])
    refine ⟨mem2, g.write a data, _, congrArg (Option.map _) hrun, ?_, ⟨fun v hv x hx => ?_, fun v hv => ?_⟩⟩
    · have hlist : List.flatMap (fun d : Nat × List UInt8 => at64 d.1 d.2) [(a, data)] = at64 a data := List.flatMap_singleton ..
      simp only [access, virtWriteRawList, hlist, hresult, Option.map_some, GuestMemory.write, GuestMemory.store]
    · refine (hkept x fun i hi hplace => ?_).trans (h.tables v hv x hx)
      exact hU.noTable _ _ x (hin i hi) hv hplace hx
    · rw [GuestMemory.write_bytes hwrap, h.bytes v hv, Option.map_map]
      refine Option.map_congr fun x hx => ?_
      by_cases hreq : a ≤ v ∧ v - a < data.length
      · have hbyte := List.getElem?_eq_getElem hreq.2
        rw [Function.comp_apply, if_pos hreq.1, hbyte, Option.getD_some]
        refine (hstored (v - a) x ?_ _ hbyte).symm
        rw [Nat.add_sub_cancel' hreq.1, h.placeOf hv, hx]
      · have hnone : (if a ≤ v then data[v - a]? else none) = none := by
          split
          · next hle => exact List.getElem?_eq_none (by omega)
          · rfl
        rw [Function.comp_apply, hnone, Option.getD_none]
        refine (hkept x fun i hi hplace => ?_).symm
        have := hU.apart _ _ x hv (hin i hi) hx hplace
        omega

end Run

/-- The bytes on both sides of the ends of a page: the page before is not mapped, the one
    after in a frame far from it. -/
def pageEnds : List Nat := [0x1fff, 0x2000, 0x2fff, 0x3000]

theorem pageEnds_region : Region x64 (content ArchMMUSpec.fourPages) 0x1000 (· ∈ pageEnds) := by
  have hapart : ∀ v ∈ pageEnds, ∀ w ∈ pageEnds, placeOf x64 (content ArchMMUSpec.fourPages) 0x1000 v =
      placeOf x64 (content ArchMMUSpec.fourPages) 0x1000 w → placeOf x64 (content ArchMMUSpec.fourPages) 0x1000 v = none ∨ v = w := by
    decide +kernel
  have htable : ∀ v ∈ pageEnds, ∀ w ∈ pageEnds, ∀ x ∈ placeOf x64 (content ArchMMUSpec.fourPages) 0x1000 v,
      ¬ x64.TableByte (content ArchMMUSpec.fourPages) 0x1000 w x := by
    decide +kernel
  refine ⟨fun v w x hv hw hx hy => ?_, fun v w x hv hw hx => htable v hv w hw x hx⟩
  rcases hapart v hv w hw (hx.trans hy.symm) with h | h
  · rw [hx] at h
    cases h
  · exact h

/-- Two bytes over either end of the page. -/
theorem pageEnds_inRegion {a : Nat} (ha : a = 0x1fff ∨ a = 0x2fff) {data : List UInt8} (hdata : data.length = 2)
    {op : VirtOp} (hop : op = .read [(a, data)] ∨ op = .write [(a, data)]) :
    InRegion x64 (content ArchMMUSpec.fourPages) 0x1000 (· ∈ pageEnds) op := by
  refine ⟨a, data, hop, ?_, ?_⟩ <;> rw [hdata]
  · rcases ha with rfl | rfl
    · exact ⟨by decide +kernel, by decide +kernel, by decide +kernel⟩
    · exact ⟨by decide +kernel, by decide +kernel, by decide +kernel⟩
  · rcases ha with rfl | rfl <;> decide

end VirtualDMA

end Jiaa
