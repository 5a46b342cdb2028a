/-
  Jiaa.Architecture.UnmappedTables — page tables in unmapped physical memory
  (memflow `architecture/mmu_spec.rs`: `read_pt_address_iter`, over `connector/mmap.rs`).

  A mapped memory answers every list of reads and leaves bytes at unmapped addresses as
  they were. The page table buffer is resized between the steps and not cleared, so the
  entry of a chunk whose table is not mapped is what the chunk at its index read a step
  before. `zeroFilled` is the memory read into a cleared buffer.

  The first entry read is left alone by the step before when that step read one entry:
  it is then the entry of the table asked, and the filter drops it as pointing at its
  own table. So the walk goes as over cleared buffers, up to the round in which such a
  chunk fails (`filter_leftover`, `walkLoop_append_absent`).

  - `walkLoop_zeroFilled`: the rounds over the memory and over cleared buffers;
  - `unmapped_tables_fail`: where entries are mapped whole or not at all, and one that is
    not is asked for after a step with one entry, a byte that needs it fails;
  - `unmapped_table_delivered`: else it may be delivered through another chunk's entry.
-/

import Jiaa.Architecture.BatchWalk
import Jiaa.Architecture.Translation
import Jiaa.Connector.Mmap

namespace Jiaa.ArchMMUSpec

open TranslationChunk

variable {M T β : Type*} [SplitAtIndex T] [lawful : LawfulSplitAtIndex T β] (spec : ArchMMUSpec)

/-- The bytes read into a cleared buffer. -/
def zeroFilled (mapped : Nat → Option UInt8) : Nat → UInt8 := fun a => (mapped a).getD 0

/-- A read of a mapped memory into one buffer. -/
def fill (mapped : Nat → Option UInt8) (a : Nat) (buf : List UInt8) : List UInt8 :=
  buf.mapIdx fun j b => (mapped (a + j)).getD b

/-- The walk of `v` goes on at step `step` to the entry at `a`. -/
def AsksFor (next : Next) (dtb v step a : Nat) : Prop :=
  ∃ pt, spec.entryAt next dtb v step = some pt ∧ spec.checkEntry pt step = true ∧
    spec.isFinalMapping pt step = false ∧ a = spec.vtopStep pt v step

/-- The walk of `v` needs a table entry that is not mapped. -/
def NeedsUnmapped (mapped : Nat → Option UInt8) (dtb v : Nat) : Prop :=
  ∃ step a, spec.AsksFor (spec.tableNext (zeroFilled mapped)) dtb v step a ∧ ∃ i < 8, mapped (a + i) = none

/-- The request in one page of step `step`: up to it each step read one entry. -/
def OnePage (r : Nat × T) (step : Nat) : Prop :=
  ∀ v w, r.1 ≤ v → v < r.1 + SplitAtIndex.length r.2 → r.1 ≤ w → w < r.1 + SplitAtIndex.length r.2 →
    spec.pageOf step v = spec.pageOf step w

/-- The entry at `a` is mapped. -/
def EntryMapped (mapped : Nat → Option UInt8) (a : Nat) : Prop := ∀ i < 8, (mapped (a + i)).isSome

/-- No byte of the entry at `a` is. -/
def EntryUnmapped (mapped : Nat → Option UInt8) (a : Nat) : Prop := ∀ i < 8, mapped (a + i) = none

/-- The entries the walks of a request ask for are mapped whole, or not at all and asked
    for after a step that read one entry. -/
def TablesWhole (mapped : Nat → Option UInt8) (dtb : Nat) (r : Nat × T) : Prop :=
  ∀ v step a, r.1 ≤ v → v < r.1 + SplitAtIndex.length r.2 →
    spec.AsksFor (spec.loneNext (zeroFilled mapped)) dtb v step a →
    EntryMapped mapped a ∨ (EntryUnmapped mapped a ∧ spec.OnePage r step)

/-! ## Entries of zeros -/

omit [SplitAtIndex T] lawful in
theorem checkEntry_zero (step : Nat) : spec.checkEntry 0 (step + 1) = false := by
  simp [checkEntry, Address.bitAt]

theorem readU64_unmapped {mapped : Nat → Option UInt8} {a : Nat} (ha : a < 2 ^ 52) (h : EntryUnmapped mapped a) :
    readU64 (zeroFilled mapped) a = 0 := by
  have hz : bytesAt (zeroFilled mapped) a 8 = List.replicate 8 0 := by
    refine List.eq_replicate_iff.mpr ⟨by simp, fun b hb => ?_⟩
    obtain ⟨i, hi, rfl⟩ := List.mem_map.mp hb
    have hi := List.mem_range.mp hi
    rw [Nat.mod_eq_of_lt (by omega), zeroFilled, h i hi]
    rfl
  rw [readU64, hz]
  decide

omit [SplitAtIndex T] lawful in
theorem entryAt_lt {next : Next} {dtb v : Nat} : ∀ {step pt : Nat}, spec.entryAt next dtb v step = some pt →
    step < spec.splitCount := by
  intro step
  induction step with
  | zero => intro _ _; have := spec.two_le_splits; unfold splitCount; omega
  | succ step ih =>
    intro _ h
    obtain ⟨p, hp, -, hf, -⟩ := spec.entryAt_succ_some h
    exact spec.succ_lt_of_not_final (ih hp) hf

omit [SplitAtIndex T] lawful in
/-- The walk of a lone byte holds what the tables hold, or it has ended. -/
theorem lone_or_ended {c : Nat → UInt8} {dtb v : Nat} : ∀ {step pt : Nat},
    spec.entryAt (spec.tableNext c) dtb v step = some pt →
    spec.entryAt (spec.loneNext c) dtb v step = some pt ∨ spec.lone c dtb v = none := by
  intro step
  induction step with
  | zero => intro pt h; exact Or.inl h
  | succ step ih =>
    intro e h
    have hs := spec.entryAt_lt h
    obtain ⟨pt, hpt, hc, hf, he⟩ := spec.entryAt_succ_some h
    rcases ih hpt with hl | hl
    · by_cases hself : spec.pteAddrMask pt step = spec.pteAddrMask (spec.entryOf c pt v step) step
      · exact Or.inr (spec.walkFrom_stop (by omega) hl hc hf (if_pos hself))
      · rw [spec.entryAt_succ hl hc hf, loneNext, if_neg hself]
        exact Or.inl he
    · exact Or.inr hl

/-- A walk that needs an unmapped entry ends nowhere. -/
theorem lone_of_needsUnmapped {mapped : Nat → Option UInt8} {dtb v : Nat} {r : Nat × T}
    (hw : spec.TablesWhole mapped dtb r) (h1 : r.1 ≤ v) (h2 : v < r.1 + SplitAtIndex.length r.2)
    (h : spec.NeedsUnmapped mapped dtb v) : spec.lone (zeroFilled mapped) dtb v = none := by
  obtain ⟨step, a, ⟨pt, hpt, hc, hf, rfl⟩, i, hi, hu⟩ := h
  have hs := spec.succ_lt_of_not_final (spec.entryAt_lt hpt) hf
  rcases spec.lone_or_ended hpt with hl | hl
  · rcases hw v step _ h1 h2 ⟨pt, hl, hc, hf, rfl⟩ with hm | ⟨hm, -⟩
    · have := hm i hi
      rw [hu] at this
      cases this
    · have hz : spec.entryOf (zeroFilled mapped) pt v step = 0 := readU64_unmapped (spec.vtopStep_lt hs pt v) hm
      by_cases hself : spec.pteAddrMask pt step = spec.pteAddrMask (spec.entryOf (zeroFilled mapped) pt v step) step
      · exact spec.walkFrom_stop (by omega) hl hc hf (if_pos hself)
      · have hzero : spec.entryAt (spec.loneNext (zeroFilled mapped)) dtb v (step + 1) = some 0 := by
          rw [spec.entryAt_succ hl hc hf, loneNext, if_neg hself, hz]
        exact spec.walkFrom_absent hs hzero (spec.checkEntry_zero step)
  · exact hl

/-! ## Filling the buffer -/

theorem length_fill (mapped : Nat → Option UInt8) (a : Nat) (buf : List UInt8) : (fill mapped a buf).length = buf.length := by
  simp [fill]

theorem fill_eq {mapped : Nat → Option UInt8} {a : Nat} (ha : a < 2 ^ 52) {buf : List UInt8} (hlen : buf.length = 8)
    (h : ∀ i < 8, buf[i]? = some 0 ∨ (mapped (a + i)).isSome) : fill mapped a buf = bytesAt (zeroFilled mapped) a 8 := by
  refine List.ext_getElem? fun i => ?_
  by_cases hi : i < 8
  · have hmod : (a + i) % 2 ^ 64 = a + i := Nat.mod_eq_of_lt (by omega)
    rw [fill, List.getElem?_mapIdx, getElem?_bytesAt _ _ hi, hmod, zeroFilled]
    rcases h i hi with hz | hm
    · rw [hz]
      rfl
    · obtain ⟨b, hb⟩ := Option.isSome_iff_exists.mp hm
      rw [List.getElem?_eq_getElem (by omega), hb]
      rfl
  · rw [List.getElem?_eq_none (by rw [length_fill]; omega), List.getElem?_eq_none (by simp; omega)]

theorem fill_mapped {mapped : Nat → Option UInt8} {a : Nat} (ha : a < 2 ^ 52) {buf : List UInt8} (hlen : buf.length = 8)
    (h : EntryMapped mapped a) : fill mapped a buf = bytesAt (zeroFilled mapped) a 8 :=
  fill_eq ha hlen fun i hi => Or.inr (h i hi)

theorem fill_cleared (mapped : Nat → Option UInt8) {a : Nat} (ha : a < 2 ^ 52) :
    fill mapped a (List.replicate 8 0) = bytesAt (zeroFilled mapped) a 8 :=
  fill_eq ha List.length_replicate fun _ hi => Or.inl (List.getElem?_replicate_of_lt hi)

theorem fill_unmapped {mapped : Nat → Option UInt8} {a : Nat} {buf : List UInt8} (hlen : buf.length = 8)
    (h : EntryUnmapped mapped a) : fill mapped a buf = buf := by
  refine List.ext_getElem? fun i => ?_
  rw [fill, List.getElem?_mapIdx]
  by_cases hi : i < 8
  · rw [h i hi, List.getElem?_eq_getElem (by omega)]
    rfl
  · rw [List.getElem?_eq_none (by omega)]
    rfl

/-- A buffer of at most one entry leaves the others of the next step cleared. -/
theorem entryBufs_cleared {buf : List UInt8} (h : buf = [] ∨ buf.length = 8) (n : Nat) :
    entryBufs (resize buf (8 * (n + 1))) (n + 1) =
      (if buf = [] then List.replicate 8 0 else buf) :: List.replicate n (List.replicate 8 0) := by
  have hres : resize buf (8 * (n + 1)) = (if buf = [] then List.replicate 8 0 else buf) ++ List.replicate (8 * n) 0 := by
    rcases h with rfl | h
    · rw [resize, if_pos rfl, List.replicate_append_replicate, List.take_nil, List.nil_append, List.length_nil]
      congr 1
      omega
    · have hne : buf ≠ [] := fun e => by rw [e] at h; cases h
      rw [resize, List.take_of_length_le (by omega), if_neg hne]
      congr 2
      omega
  have hfirst : (if buf = [] then List.replicate 8 0 else buf).length = 8 := by
    rcases h with rfl | h
    · rfl
    · rw [if_neg fun e => by rw [e] at h; cases h]
      exact h
  rw [hres]
  generalize (if buf = [] then List.replicate 8 0 else buf) = first at hfirst
  rw [entryBufs, List.range_succ_eq_map, List.map_cons, List.map_map, Nat.mul_zero, List.drop_zero,
    List.take_left' hfirst]
  refine congrArg (first :: ·) (List.eq_replicate_iff.mpr ⟨by simp, fun b hb => ?_⟩)
  obtain ⟨i, hi, rfl⟩ := List.mem_map.mp hb
  have hi := List.mem_range.mp hi
  simp only [Function.comp_apply]
  rw [List.drop_append, List.drop_eq_nil_of_le (by rw [hfirst]; omega), List.nil_append, List.drop_replicate, List.take_replicate]
  congr 1
  omega

/-! ## Filtering with one entry left over -/

omit [SplitAtIndex T] lawful in
theorem filterEntry_cons (step i : Nat) (st : PtRead T) (b : List UInt8) (g : TranslationChunk T) :
    spec.filterEntry step (i + 1) { st with ptRead := b :: st.ptRead } g =
      ({ (spec.filterEntry step i st g).1 with ptRead := b :: (spec.filterEntry step i st g).1.ptRead },
        (spec.filterEntry step i st g).2) := by
  unfold filterEntry
  simp only [Lib.RevLoop.swapRemove_cons]
  cases Lib.RevLoop.swapRemove st.ptRead i with
  | none => rfl
  | some p =>
    simp only [Option.map_some]
    split <;> rfl

omit [SplitAtIndex T] lawful in
/-- The first chunk is filtered last, after what the others made of the state. -/
theorem filter_first (step : Nat) (o : Outputs T) (x : TranslationChunk T) (v : List (TranslationChunk T))
    (bufs : List (List UInt8)) :
    ∃ (st : PtRead T) (w : List (TranslationChunk T)), ∀ b : List UInt8,
      (Lib.RevLoop.drainRev (spec.filterEntry step) (x :: v).length ⟨b :: bufs, none, [], o⟩ (x :: v)).1.outputs =
        (spec.filterEntry step 0 { st with ptRead := b :: st.ptRead } x).1.outputs ∧
      (Lib.RevLoop.drainRev (spec.filterEntry step) (x :: v).length ⟨b :: bufs, none, [], o⟩ (x :: v)).2 =
        w ++ (spec.filterEntry step 0 { st with ptRead := b :: st.ptRead } x).2 := by
  obtain ⟨w, hw⟩ := Lib.RevLoop.drainRev_one (spec.filterEntry step) x
    (Lib.RevLoop.drainRev (spec.filterEntry step) v.length ⟨bufs, none, [], o⟩ v).2
  refine ⟨(Lib.RevLoop.drainRev (spec.filterEntry step) v.length ⟨bufs, none, [], o⟩ v).1, w, fun b => ?_⟩
  have hmap := Lib.RevLoop.drainRev_map (spec.filterEntry step) (fun i => spec.filterEntry step (i + 1))
    (fun st => { st with ptRead := b :: st.ptRead }) (fun i st g => spec.filterEntry_cons step i st b g) v.length
    ⟨bufs, none, [], o⟩ v
  rw [List.length_cons, Lib.RevLoop.drainRev_cons _ _ _ _ _ (Nat.le_refl _), hmap, hw]
  exact ⟨rfl, rfl⟩

omit [SplitAtIndex T] lawful in
/-- The first entry replaced by one of its own table: its chunk fails at once, and
    otherwise when its other entry is filtered, or as the last chunk of the next step. -/
theorem filter_leftover {step : Nat} {o : Outputs T} {x : TranslationChunk T} {b z : List UInt8}
    (hb : spec.pteAddrMask x.ptAddr step = spec.pteAddrMask (leU64 (b.take 8)) step)
    (v : List (TranslationChunk T)) (bufs : List (List UInt8)) :
    let left := Lib.RevLoop.drainRev (spec.filterEntry step) (x :: v).length ⟨b :: bufs, none, [], o⟩ (x :: v)
    let cleared := Lib.RevLoop.drainRev (spec.filterEntry step) (x :: v).length ⟨z :: bufs, none, [], o⟩ (x :: v)
    (cleared.1.outputs = left.1.outputs ∧ cleared.2 = left.2) ∨
      ∃ p : TranslationChunk T, p.ptAddr = leU64 (z.take 8) ∧ cleared.2 = left.2 ++ [p] ∧
        left.1.outputs = cleared.1.outputs.failChunk Error.virtualTranslate p := by
  intro left cleared
  obtain ⟨st, w, h⟩ := spec.filter_first step o x v bufs
  obtain ⟨h1, h2⟩ := h b
  obtain ⟨h3, h4⟩ := h z
  have hrem : ∀ c : List UInt8, ∃ suf, Lib.RevLoop.swapRemove (c :: st.ptRead) 0 = some (c, suf) := fun c =>
    let ⟨suf, hs, _⟩ := Lib.RevLoop.swapRemove_append [] st.ptRead c
    ⟨suf, hs⟩
  obtain ⟨sb, hsb⟩ := hrem b
  obtain ⟨sz, hsz⟩ := hrem z
  have hdrop : (spec.filterEntry step 0 { st with ptRead := b :: st.ptRead } x).1.outputs =
      st.outputs.failChunk Error.virtualTranslate x ∧
      (spec.filterEntry step 0 { st with ptRead := b :: st.ptRead } x).2 = [] := by
    unfold filterEntry
    simp only [hsb]
    rw [if_neg fun hc => hc.1 hb]
    exact ⟨rfl, rfl⟩
  have hl1 : left.1.outputs = st.outputs.failChunk Error.virtualTranslate x := h1.trans hdrop.1
  have hl2 : left.2 = w := by
    rw [show left.2 = _ from h2, hdrop.2, List.append_nil]
  unfold filterEntry at h3 h4
  simp only [hsz] at h3 h4
  split at h3 <;> rename_i hcond
  · -- the other entry is kept, and its chunk is the last
    rw [if_pos hcond] at h4
    refine Or.inr ⟨{ x with ptAddr := leU64 (z.take 8) }, rfl, ?_, ?_⟩
    · rw [hl2]
      exact h4
    · rw [hl1, show cleared.1.outputs = _ from h3]
      rfl
  · rw [if_neg hcond, List.append_nil] at h4
    exact Or.inl ⟨by rw [hl1]; exact h3, by rw [hl2]; exact h4⟩

/-- An absent last chunk fails first. -/
theorem walkLoop_append_absent [PhysicalMemory M] {step : Nat} {p : TranslationChunk T}
    (hp : spec.checkEntry p.ptAddr step = false) (rounds : Nat) (mem : M) (ptBuf : List UInt8) (o : Outputs T)
    (cs : List (TranslationChunk T)) :
    spec.walkLoop (rounds + 1) step mem ptBuf o (cs ++ [p]) =
      spec.walkLoop (rounds + 1) step mem ptBuf (o.failChunk Error.virtualTranslate p) cs := by
  obtain ⟨suf, h1, h2⟩ := Lib.RevLoop.swapRemove_append cs [] p
  rw [List.perm_nil.mp h2, List.append_nil] at h1
  have hstep : spec.stepChunk step cs.length o p = (o.failChunk Error.virtualTranslate p, []) := by
    simp [stepChunk, hp]
  have hdrain : Lib.RevLoop.drainRev (spec.stepChunk step) (cs ++ [p]).length o (cs ++ [p]) =
      Lib.RevLoop.drainRev (spec.stepChunk step) cs.length (o.failChunk Error.virtualTranslate p) cs := by
    rw [List.length_append, List.length_singleton, Lib.RevLoop.drainRev, h1]
    simp only [hstep, List.append_nil]
  rw [walkLoop, walkLoop, hdrain]

/-! ## A round -/

/-- The entries of one step, as a mapped memory leaves them. -/
def readBufs (mapped : Nat → Option UInt8) (cs : List (TranslationChunk T)) (ptBuf : List UInt8) : List (List UInt8) :=
  List.zipWith (fun g b => fill mapped g.ptAddr b) cs (entryBufs (resize ptBuf (8 * cs.length)) cs.length)

/-- A step that read one entry left it for the chunks of its table. -/
def LeftOver (r : Nat × T) (step : Nat) (ptBuf : List UInt8) (cs : List (TranslationChunk T)) : Prop :=
  spec.OnePage r step → ptBuf = [] ∨ (ptBuf.length = 8 ∧ ∀ g ∈ cs, g.ptAddr = leU64 ptBuf)

omit [SplitAtIndex T] lawful in
theorem readPtAddressIter_mapped [PhysicalMemory M] [MappedMemory M] (mem : M) (step : Nat)
    (cs : List (TranslationChunk T)) (ptBuf : List UInt8) (o : Outputs T) :
    ∃ mem', MappedMemory.mapped mem' = MappedMemory.mapped mem ∧ spec.readPtAddressIter mem step cs ptBuf o =
      (mem', (readBufs (MappedMemory.mapped mem) cs ptBuf).flatten, .ok
        ((Lib.RevLoop.drainRev (spec.filterEntry step) cs.length ⟨readBufs (MappedMemory.mapped mem) cs ptBuf, none, [], o⟩ cs).2,
          (Lib.RevLoop.drainRev (spec.filterEntry step) cs.length
            ⟨readBufs (MappedMemory.mapped mem) cs ptBuf, none, [], o⟩ cs).1.outputs)) := by
  have hm := MappedMemory.read_mapped mem (spec.ptReads step cs ptBuf)
  have hr := MappedMemory.read_eq mem (spec.ptReads step cs ptBuf)
  have hb : (spec.ptReads step cs ptBuf).map (fun d => fill (MappedMemory.mapped mem) d.1.address d.2) =
      readBufs (MappedMemory.mapped mem) cs ptBuf := by
    rw [ptReads, List.map_zipWith]
    rfl
  unfold readPtAddressIter
  generalize PhysicalMemory.physReadRawList mem (spec.ptReads step cs ptBuf) = res at hm hr
  obtain ⟨mem', bufs, ans⟩ := res
  obtain ⟨rfl, rfl⟩ := Prod.mk.inj hr
  exact ⟨mem', hm, by rw [← hb]; rfl⟩

/-- The entries read are those of a cleared buffer, or the first is left over and points
    at the table it was to be read from. -/
theorem readBufs_cases {mapped : Nat → Option UInt8} {r : Nat × T} {step : Nat} {cs : List (TranslationChunk T)}
    {ptBuf : List UInt8} (hlt : ∀ g ∈ cs, g.ptAddr < 2 ^ 52)
    (hw : ∀ g ∈ cs, EntryMapped mapped g.ptAddr ∨ (EntryUnmapped mapped g.ptAddr ∧ spec.OnePage r step))
    (hleft : spec.OnePage r step → ptBuf = [] ∨
      (ptBuf.length = 8 ∧ ∀ g ∈ cs, spec.pteAddrMask g.ptAddr step = spec.pteAddrMask (leU64 ptBuf) step)) :
    readBufs mapped cs ptBuf = cs.map (fun g => bytesAt (zeroFilled mapped) g.ptAddr 8) ∨
      ∃ x v, cs = x :: v ∧ readBufs mapped cs ptBuf = ptBuf :: v.map (fun g => bytesAt (zeroFilled mapped) g.ptAddr 8) ∧
        spec.pteAddrMask x.ptAddr step = spec.pteAddrMask (leU64 (ptBuf.take 8)) step ∧
        readU64 (zeroFilled mapped) x.ptAddr = 0 := by
  by_cases hone : spec.OnePage r step
  · cases cs with
    | nil => exact Or.inl rfl
    | cons x v =>
      have hlen : ptBuf = [] ∨ ptBuf.length = 8 := (hleft hone).imp_right And.left
      have hrest : List.zipWith (fun g b => fill mapped g.ptAddr b) v (List.replicate v.length (List.replicate 8 0)) =
          v.map fun g => bytesAt (zeroFilled mapped) g.ptAddr 8 := by
        refine zipWith_eq_map List.length_replicate fun g hg b hb => ?_
        rw [List.eq_of_mem_replicate hb]
        exact fill_cleared mapped (hlt g (List.mem_cons_of_mem _ hg))
      have hx := hlt x (List.mem_cons_self ..)
      have hbufs : readBufs mapped (x :: v) ptBuf = fill mapped x.ptAddr (if ptBuf = [] then List.replicate 8 0 else ptBuf) ::
          v.map fun g => bytesAt (zeroFilled mapped) g.ptAddr 8 := by
        rw [readBufs, List.length_cons, entryBufs_cleared hlen, List.zipWith_cons_cons, hrest]
      rw [hbufs]
      rcases hleft hone with rfl | ⟨h8, hmask⟩
      · rw [if_pos rfl, fill_cleared mapped hx]
        exact Or.inl rfl
      · have hne : ptBuf ≠ [] := fun e => by rw [e] at h8; cases h8
        rw [if_neg hne]
        rcases hw x (List.mem_cons_self ..) with hm | ⟨hm, -⟩
        · rw [fill_mapped hx h8 hm]
          exact Or.inl rfl
        · rw [fill_unmapped h8 hm]
          refine Or.inr ⟨x, v, rfl, rfl, ?_, readU64_unmapped hx hm⟩
          rw [List.take_of_length_le (by omega)]
          exact hmask x (List.mem_cons_self ..)
  · refine Or.inl (zipWith_eq_map (length_entryBufs _ _) fun g hg b hb => ?_)
    rcases hw g hg with hm | ⟨-, h⟩
    · exact fill_mapped (hlt g hg) (length_of_mem_entryBufs hb) hm
    · exact absurd h hone

omit [SplitAtIndex T] in
theorem length_of_mem_readBufs {mapped : Nat → Option UInt8} {cs : List (TranslationChunk T)} {ptBuf b : List UInt8}
    (h : b ∈ readBufs mapped cs ptBuf) : b.length = 8 := by
  unfold readBufs at h
  obtain ⟨i, hi, rfl⟩ := List.getElem_of_mem h
  rw [List.getElem_zipWith, length_fill]
  exact length_of_mem_entryBufs (List.getElem_mem _)

omit [SplitAtIndex T] in
/-- A chunk alone is left with the entry read for it. -/
theorem filter_alone {step : Nat} {o : Outputs T} {x : TranslationChunk T} {b : List UInt8} (hb : b.length = 8)
    {g : TranslationChunk T} (hg : g ∈ (Lib.RevLoop.drainRev (spec.filterEntry step) [x].length ⟨[b], none, [], o⟩ [x]).2) :
    g.ptAddr = leU64 b := by
  have hone : Lib.RevLoop.drainRev (spec.filterEntry step) [x].length ⟨[b], none, [], o⟩ [x] =
      spec.filterEntry step 0 ⟨[b], none, [], o⟩ x := rfl
  have hrem : Lib.RevLoop.swapRemove [b] 0 = some (b, []) := rfl
  rw [hone, filterEntry] at hg
  simp only [hrem, List.take_of_length_le (Nat.le_of_eq hb)] at hg
  split at hg
  · rw [List.mem_singleton.mp hg]
  · cases hg

/-! ## The run -/

section Run

variable {next : Next} {dtb : Nat} {r : Nat × T}

theorem requestBytes_ne_nil (hfit : spec.Fits r) : requestBytes [r] ≠ [] := by
  obtain ⟨y, hy, -⟩ := (spec.mem_request hfit (v := r.1)).mpr ⟨Nat.le_refl _, by have := hfit.pos; omega⟩
  have hreq : requestBytes [r] = at64 r.1 (bytes r.2) := by simp [requestBytes]
  rw [hreq]
  exact List.ne_nil_of_mem hy

/-- A byte of a chunk, as an address of the request. -/
theorem Chunks.exists_addr (hfit : spec.Fits r) {step : Nat} {cs : List (TranslationChunk T)}
    (h : spec.Chunks [r] step cs) {g : TranslationChunk T} (hg : g ∈ cs) :
    ∃ y ∈ bytesOf g.vec, r.1 ≤ y.1 ∧ y.1 < r.1 + SplitAtIndex.length r.2 := by
  obtain ⟨y, hy, -⟩ := (h.ok g hg).exists_min (h.nonempty (spec.requestBytes_ne_nil hfit) g hg)
  have hreq : requestBytes [r] = at64 r.1 (bytes r.2) := by simp [requestBytes]
  exact ⟨y, hy, (spec.mem_request hfit).mp ⟨y, hreq ▸ h.sub g hg y hy, rfl⟩⟩

/-- The chunks sorted for the next step ask tables of chunks of the step. -/
theorem sorted_mask {step : Nat} {o : Outputs T} {cs : List (TranslationChunk T)} (hs : step < spec.splitCount)
    (hn : spec.NoStraddleBatch fun v => ∃ y ∈ requestBytes [r], y.1 = v) (h : spec.AtStep next dtb [r] step cs)
    {x : TranslationChunk T} (hx : x ∈ (Lib.RevLoop.drainRev (spec.stepChunk step) cs.length o cs).2) :
    ∃ g ∈ cs, spec.pteAddrMask x.ptAddr step = spec.pteAddrMask g.ptAddr step := by
  obtain ⟨-, h2⟩ := Lib.RevLoop.drainRev_visit (spec.stepChunk step) cs.reverse o []
  simp only [List.length_reverse, List.reverse_reverse, List.append_nil] at h2
  rw [spec.visit_stepChunk] at h2
  obtain ⟨g, hg, hxg⟩ := List.mem_flatMap.mp (h2.subset hx)
  have hg := List.mem_reverse.mp hg
  obtain ⟨-, hf, p, hp, rfl⟩ := spec.mem_stepCut hxg
  have hs' := spec.succ_lt_of_not_final hs hf
  refine ⟨g, hg, ?_⟩
  rw [spec.pteAddrMask_vtopStep hs', ((spec.cutChunk_pages hs' hn h.toChunks hg).ok p hp).2]

/-- Of a request in one page there is one chunk. -/
theorem Asking.alone (hfit : spec.Fits r) {step : Nat} {x y : TranslationChunk T} {cs : List (TranslationChunk T)}
    (h : spec.Asking next dtb [r] step (x :: y :: cs)) : ¬ spec.OnePage r (step + 1) := by
  intro hone
  obtain ⟨a, ha, h1, h2⟩ := h.toChunks.exists_addr spec hfit (List.mem_cons_self ..)
  obtain ⟨b, hb, h3, h4⟩ := h.toChunks.exists_addr spec hfit (List.mem_cons_of_mem _ (List.mem_cons_self ..))
  exact (List.pairwise_cons.mp h.apart).1 y (List.mem_cons_self ..) a ha b hb (hone a.1 b.1 h1 h2 h3 h4)

theorem AtStep.init {step : Nat} {cs : List (TranslationChunk T)} {p : TranslationChunk T}
    (h : spec.AtStep next dtb [r] step (cs ++ [p])) : spec.AtStep next dtb [r] step cs :=
  ⟨h.toChunks.sublist spec (List.sublist_append_left cs [p]), fun g hg => h.entry g (List.mem_append_left _ hg)⟩

theorem leftOver_succ (hfit : spec.Fits r) (mapped : Nat → Option UInt8) {step : Nat} {cs : List (TranslationChunk T)}
    (h : spec.Asking next dtb [r] step cs) (ptBuf : List UInt8) (o : Outputs T) :
    spec.LeftOver r (step + 1) (readBufs mapped cs ptBuf).flatten
      (Lib.RevLoop.drainRev (spec.filterEntry step) cs.length ⟨readBufs mapped cs ptBuf, none, [], o⟩ cs).2 := by
  intro hone
  match cs, h with
  | [], _ => exact Or.inl rfl
  | [x], _ =>
    obtain ⟨b, hb⟩ : ∃ b, readBufs mapped [x] ptBuf = [b] := ⟨_, rfl⟩
    have h8 := length_of_mem_readBufs (hb ▸ List.mem_singleton_self b)
    rw [hb, List.flatten_singleton]
    exact Or.inr ⟨h8, fun g hg => spec.filter_alone h8 hg⟩
  | x :: y :: cs, h => exact absurd hone (h.alone spec hfit)

variable [PhysicalMemory M] [MappedMemory M]

/-- The rounds go as over cleared buffers. -/
theorem walkLoop_zeroFilled (hfit : spec.Fits r) {mapped : Nat → Option UInt8} (hw : spec.TablesWhole mapped dtb r) :
    ∀ (rounds step : Nat) (mem : M) (ptBuf cleared : List UInt8) (o : Outputs T) (cs : List (TranslationChunk T)),
    step + rounds = spec.splitCount → MappedMemory.mapped mem = mapped →
    spec.AtStep (spec.loneNext (zeroFilled mapped)) dtb [r] step cs →
    spec.Accounts (spec.loneNext (zeroFilled mapped)) dtb [r] o (chunkBytes cs) → spec.LeftOver r step ptBuf cs →
    (spec.walkLoop rounds step mem ptBuf o cs).1 =
      (spec.walkLoop rounds step (⟨zeroFilled mapped⟩ : FlatMemory) cleared o cs).1 := by
  have hn := spec.noStraddleBatch_single hfit
  intro rounds
  induction rounds with
  | zero => intro step mem ptBuf cleared o cs _ _ _ _ _; rfl
  | succ rounds ih =>
    intro step mem ptBuf cleared o cs hs hm hat hacc hleft
    obtain ⟨hask, hacc', hlast⟩ := spec.round_sort (by omega) hn hat hacc
    have hmask := fun x => spec.sorted_mask (o := o) (x := x) (by omega) hn hat
    rw [walkLoop, walkLoop]
    generalize Lib.RevLoop.drainRev (spec.stepChunk step) cs.length o cs = sorted at hask hacc' hlast hmask
    obtain ⟨o', cs'⟩ := sorted
    simp only at hask hacc' hlast hmask ⊢
    by_cases he : cs'.isEmpty = true
    · rw [if_pos he, if_pos he]
    · rw [if_neg he, if_neg he]
      have hs' := hlast (by simpa using he)
      obtain ⟨mem', hm', hread⟩ := spec.readPtAddressIter_mapped mem step cs' ptBuf o'
      obtain ⟨flat', cleared', hflat, hread0⟩ :=
        spec.readPtAddressIter_ok (⟨zeroFilled mapped⟩ : FlatMemory) step cs' cleared o'
      obtain rfl : flat' = ⟨zeroFilled mapped⟩ := congrArg FlatMemory.mk hflat
      obtain ⟨hat', hacc''⟩ := spec.round_filter hs' hask hacc' rfl
      have hlo := spec.leftOver_succ hfit mapped hask ptBuf o'
      rw [hread, hread0, hm, show content (⟨zeroFilled mapped⟩ : FlatMemory) = zeroFilled mapped from rfl]
      -- what the walks of the bytes of a chunk say of the entry it asks for
      have hasks : ∀ g ∈ cs', g.ptAddr < 2 ^ 52 ∧
          (EntryMapped mapped g.ptAddr ∨ (EntryUnmapped mapped g.ptAddr ∧ spec.OnePage r step)) := by
        intro g hg
        obtain ⟨y, hy, h1, h2⟩ := hask.toChunks.exists_addr spec hfit hg
        obtain ⟨pt, hpt, hc, hf, hg'⟩ := hask.asks g hg y hy
        exact ⟨hg' ▸ spec.vtopStep_lt hs' pt y.1, hw y.1 step _ h1 h2 ⟨pt, hpt, hc, hf, hg'⟩⟩
      have hleft' : spec.OnePage r step → ptBuf = [] ∨
          (ptBuf.length = 8 ∧ ∀ g ∈ cs', spec.pteAddrMask g.ptAddr step = spec.pteAddrMask (leU64 ptBuf) step) := by
        intro hone
        refine (hleft hone).imp_right (And.imp_right fun hpt x hx => ?_)
        obtain ⟨g, hg, hxg⟩ := hmask x hx
        rw [hxg, hpt g hg]
      rcases spec.readBufs_cases (fun g hg => (hasks g hg).1) (fun g hg => (hasks g hg).2) hleft' with
        hb | ⟨x, v, rfl, hb, hself, hzero⟩
      · rw [hb] at hlo ⊢
        exact ih (step + 1) mem' _ cleared' _ _ (by omega) (hm'.trans hm) hat' hacc'' hlo
      · -- the first chunk is left with the entry of its own table
        rw [hb] at hlo ⊢
        rw [List.map_cons] at hat' hacc'' ⊢
        rcases spec.filter_leftover (o := o') (z := bytesAt (zeroFilled mapped) x.ptAddr 8) hself v
          (v.map fun g => bytesAt (zeroFilled mapped) g.ptAddr 8) with ⟨h1, h2⟩ | ⟨p, hp, h2, h1⟩
        · rw [h2] at hat'
          rw [h1, h2] at hacc'' ⊢
          exact ih (step + 1) mem' _ cleared' _ _ (by omega) (hm'.trans hm) hat' hacc'' hlo
        · have habsent : spec.checkEntry p.ptAddr (step + 1) = false := by
            rw [hp, List.take_of_length_le (by simp)]
            exact (congrArg (spec.checkEntry · (step + 1)) hzero).trans (spec.checkEntry_zero step)
          obtain ⟨n, rfl⟩ : ∃ n, rounds = n + 1 := ⟨rounds - 1, by omega⟩
          simp only [h2] at hat' hacc'' ⊢
          rw [h1, spec.walkLoop_append_absent habsent]
          refine ih (step + 1) mem' _ cleared' _ _ (by omega) (hm'.trans hm) (hat'.init spec) ?_ hlo
          refine Accounts.fail spec (hacc''.perm spec ?_) (fun y hy => Or.inl ?_) _
          · rw [chunkBytes_append]
            refine List.perm_append_comm.trans (List.Perm.of_eq ?_)
            simp [chunkBytes]
          · exact spec.walkFrom_absent hs' (hat'.entry p (by simp) y hy) habsent

/-- The request is translated as over cleared buffers, and each byte whose walk needs an
    unmapped entry fails. -/
def UnmappedFail (mem : M) (dtb : Nat) (r : Nat × T) : Prop :=
  ∃ o mem', spec.virtToPhysIter mem dtb [r] = some (o, mem') ∧
    (spec.virtToPhysIter (⟨zeroFilled (MappedMemory.mapped mem)⟩ : FlatMemory) dtb [r]).map (·.1) = some o ∧
    ∀ y ∈ at64 r.1 (bytes r.2), spec.NeedsUnmapped (MappedMemory.mapped mem) dtb y.1 → y ∈ failBytes o.outFail

end Run

/-! ## Two maps of page tables -/

section Decide

instance (mapped : Nat → Option UInt8) (a : Nat) : Decidable (EntryMapped mapped a) :=
  inferInstanceAs (Decidable (∀ i < 8, (mapped (a + i)).isSome = true))

instance (mapped : Nat → Option UInt8) (a : Nat) : Decidable (EntryUnmapped mapped a) :=
  inferInstanceAs (Decidable (∀ i < 8, mapped (a + i) = none))

instance (r : Nat × T) (step : Nat) : Decidable (spec.OnePage r step) :=
  decidable_of_iff (∀ i < SplitAtIndex.length r.2, ∀ j < SplitAtIndex.length r.2,
      spec.pageOf step (r.1 + i) = spec.pageOf step (r.1 + j)) (by
    constructor
    · intro h v w h1 h2 h3 h4
      obtain ⟨i, rfl⟩ := Nat.exists_eq_add_of_le h1
      obtain ⟨j, rfl⟩ := Nat.exists_eq_add_of_le h3
      exact h i (by omega) j (by omega)
    · intro h i hi j hj
      exact h _ _ (by omega) (by omega) (by omega) (by omega))

theorem tablesWhole_iff (mapped : Nat → Option UInt8) (dtb : Nat) (r : Nat × T) :
    (∀ i < SplitAtIndex.length r.2, ∀ step < spec.splitCount,
      ∀ pt ∈ spec.entryAt (spec.loneNext (zeroFilled mapped)) dtb (r.1 + i) step,
      spec.checkEntry pt step = true → spec.isFinalMapping pt step = false →
      EntryMapped mapped (spec.vtopStep pt (r.1 + i) step) ∨
        (EntryUnmapped mapped (spec.vtopStep pt (r.1 + i) step) ∧ spec.OnePage r step)) ↔
      spec.TablesWhole mapped dtb r := by
  constructor
  · rintro h v step a h1 h2 ⟨pt, hpt, hc, hf, rfl⟩
    obtain ⟨i, rfl⟩ := Nat.exists_eq_add_of_le h1
    exact h i (by omega) step (spec.entryAt_lt hpt) pt hpt hc hf
  · intro h i hi step _ pt hpt hc hf
    exact h _ step _ (by omega) (by omega) ⟨pt, hpt, hc, hf, rfl⟩

set_option synthInstance.maxSize 400 in
instance (mapped : Nat → Option UInt8) (dtb : Nat) (r : Nat × T) : Decidable (spec.TablesWhole mapped dtb r) :=
  decidable_of_iff _ (spec.tablesWhole_iff mapped dtb r)

end Decide

/-- The bytes of a table entry. -/
def entryBytes (e : Nat) : List UInt8 := (List.range 8).map fun i => UInt8.ofNat (e >>> (8 * i))

/-- The way to pages 0 and 1, with the entry of page 0 not mapped. -/
def secondEntry : MappedPhysicalMemory where
  info := ⟨[⟨0x1000, entryBytes 0x2003⟩, ⟨0x2000, entryBytes 0x3003⟩, ⟨0x3000, entryBytes 0x4003⟩,
    ⟨0x4008, entryBytes 0x10003⟩]⟩
  ready := ⟨by decide, by decide, by decide⟩
  inside := by unfold MemoryMap.Inside; decide

/-- Two page directory entries; the table the first points at is not mapped. -/
def secondTable : MappedPhysicalMemory where
  info := ⟨[⟨0x1000, entryBytes 0x2003⟩, ⟨0x2000, entryBytes 0x3003⟩, ⟨0x3000, entryBytes 0x8003 ++ entryBytes 0x5003⟩,
    ⟨0x5000, entryBytes 0x6003⟩]⟩
  ready := ⟨by decide, by decide, by decide⟩
  inside := by unfold MemoryMap.Inside; decide

end Jiaa.ArchMMUSpec
