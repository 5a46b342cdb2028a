/-
  Jiaa.Mem.Alike — memories that no access through translations can tell apart
  (memflow `architecture/mmu_spec.rs`, `mem/cache/cached_vat.rs`,
  `mem/virt_mem/virtual_dma.rs`).

  Two memories are alike under a relation of their states when lists of reads return the
  same from related states and leave related states, and lists of writes do, of the page
  types that may be written. The page walk, the cache of translations and `VirtualDMA` use a
  memory by these lists only.

  - `walkLoop_alike`: a walk over two such memories has the same results;
  - `MemoryBlind`: so does a translator, and one that caches does if the one it wraps does;
  - `performAll_alike`: so does a run of accesses of any number of processes.
-/

import Jiaa.Mem.Cache.TlbEntries
import Jiaa.Mem.VirtMem

namespace Jiaa

/-- From states that `R` relates, reads and the writes to pages of types in `W` are the same. -/
structure Alike {M N : Type} [PhysicalMemory M] [PhysicalMemory N] (W : PageType → Prop) (R : M → N → Prop) : Prop where
  read : ∀ {m : M} {n : N} (data : List (PhysicalAddress × List UInt8)), R m n → (∀ d ∈ data, d.1.address < 2 ^ 64) →
    (PhysicalMemory.physReadRawList m data).2 = (PhysicalMemory.physReadRawList n data).2 ∧
      R (PhysicalMemory.physReadRawList m data).1 (PhysicalMemory.physReadRawList n data).1
  write : ∀ {m : M} {n : N} (data : List (PhysicalAddress × List UInt8)), R m n →
    (∀ d ∈ data, d.1.address < 2 ^ 64 ∧ W d.1.pageType) →
    (PhysicalMemory.physWriteRawList m data).2 = (PhysicalMemory.physWriteRawList n data).2 ∧
      R (PhysicalMemory.physWriteRawList m data).1 (PhysicalMemory.physWriteRawList n data).1

/-! ## The walk -/

/-- The page types a walk gives. -/
def WalkType (t : PageType) : Prop := ∃ write noexec, t = (PageType.unknown.write write).noexec noexec

/-- What a walk delivers a page as. -/
structure Walked (p : PhysicalAddress) : Prop where
  lt : p.address < 2 ^ 64
  type : WalkType p.pageType

namespace ArchMMUSpec

variable (spec : ArchMMUSpec)

theorem vtopStep_lt_word {step : Nat} (h : step < spec.splitCount) (pt v : Nat) : spec.vtopStep pt v step < 2 ^ 64 := by
  have hmask := spec.mask_lt _ (spec.splitAtStep_mem h)
  have hbits := spec.addressSpaceBits_le
  have haddr := spec.pteAddrMask_lt h pt
  have hoff : spec.virtAddrToPteOffset v step < 2 ^ 64 := by
    rw [spec.virtAddrToPteOffset_eq h]
    have hidx : v / spec.pageSizeStepUnchecked (step + 1) % 2 ^ spec.splitAtStep step < 2 ^ spec.splitAtStep step :=
      Nat.mod_lt _ (Nat.two_pow_pos _)
    have hpte : 0 < spec.pteSize := by rw [spec.pteSize_pow]; exact Nat.two_pow_pos _
    calc v / spec.pageSizeStepUnchecked (step + 1) % 2 ^ spec.splitAtStep step * spec.pteSize
        < 2 ^ spec.splitAtStep step * spec.pteSize := Nat.mul_lt_mul_of_pos_right hidx hpte
      _ = 2 ^ (spec.splitAtStep step + spec.pteSize.log2) := by
        conv_lhs => rw [spec.pteSize_pow]
        rw [← Nat.pow_add]
      _ ≤ 2 ^ 64 := Nat.pow_le_pow_right (by omega) (by omega)
  exact Nat.or_lt_two_pow (by omega) hoff

theorem getPhysPage_walked {step : Nat} (h : step < spec.splitCount) (pt v : Nat) : Walked (spec.getPhysPage pt v step) := by
  have haddr := spec.pteAddrMask_lt h pt
  have hoff : spec.virtAddrToPageOffset v step < 2 ^ 64 := by
    rw [spec.virtAddrToPageOffset_eq h]
    exact Nat.lt_of_lt_of_le (Nat.mod_lt _ (spec.pageSize_pos step))
      (Nat.le_of_dvd (Nat.two_pow_pos 64) (spec.pageSize_dvd_word step))
  exact ⟨Nat.or_lt_two_pow (by omega) hoff, ⟨_, _, rfl⟩⟩

variable {M N T : Type} [PhysicalMemory M] [PhysicalMemory N] [SplitAtIndex T] {W : PageType → Prop} {R : M → N → Prop}

/-- The first half of a round: what is delivered is walked, the entries left lie below the top. -/
theorem sort_walked {step : Nat} (h : step < spec.splitCount) {o : Outputs T} (ho : ∀ p ∈ o.out, Walked p.1)
    (data : List (TranslationChunk T)) :
    (∀ p ∈ (Lib.RevLoop.drainRev (spec.stepChunk step) data.length o data).1.out, Walked p.1) ∧
      ∀ g ∈ (Lib.RevLoop.drainRev (spec.stepChunk step) data.length o data).2, g.ptAddr < 2 ^ 64 := by
  refine Lib.RevLoop.drainRev_induct (p := fun o : Outputs T => ∀ p ∈ o.out, Walked p.1) (q := fun _ => True)
    (r := fun g : TranslationChunk T => g.ptAddr < 2 ^ 64) (fun i o g ho _ => ?_) (fun _ _ => trivial) ho
  constructor
  · unfold stepChunk
    split
    · exact ho
    · split
      · intro p hp
        rcases List.mem_append.mp hp with hp | hp
        · exact ho p hp
        · obtain ⟨entry, -, rfl⟩ := List.mem_map.mp hp
          exact spec.getPhysPage_walked h _ _
      · exact ho
  · intro g' hg'
    rw [spec.stepChunk_snd] at hg'
    obtain ⟨-, -, p, -, rfl⟩ := spec.mem_stepCut hg'
    exact spec.vtopStep_lt_word h _ _

omit [SplitAtIndex T] in
/-- The second half delivers nothing. -/
theorem filter_out (step : Nat) {bufs : List (List UInt8)} {o : Outputs T} (ho : ∀ p ∈ o.out, Walked p.1)
    (data : List (TranslationChunk T)) :
    ∀ p ∈ (Lib.RevLoop.drainRev (spec.filterEntry step) data.length ⟨bufs, none, [], o⟩ data).1.outputs.out, Walked p.1 := by
  refine (Lib.RevLoop.drainRev_induct (p := fun st : PtRead T => ∀ p ∈ st.outputs.out, Walked p.1) (q := fun _ => True)
    (r := fun _ => True) (fun i st g hst _ => ⟨?_, fun _ _ => trivial⟩) (fun _ _ => trivial) ho).1
  unfold filterEntry
  split
  · exact hst
  · dsimp only
    split
    · exact hst
    · exact hst

omit [SplitAtIndex T] in
theorem ptReads_lt {step : Nat} {data : List (TranslationChunk T)} (h : ∀ g ∈ data, g.ptAddr < 2 ^ 64) (ptBuf : List UInt8) :
    ∀ d ∈ spec.ptReads step data ptBuf, d.1.address < 2 ^ 64 := by
  intro d hd
  obtain ⟨i, hi⟩ := List.mem_iff_getElem?.mp hd
  rw [ptReads, List.getElem?_zipWith_eq_some] at hi
  obtain ⟨g, b, hg, -, rfl⟩ := hi
  exact h g (List.mem_of_getElem? hg)

/-- The rounds over two memories that are alike. -/
theorem walkLoop_alike (hR : Alike W R) : ∀ (rounds step : Nat) {m : M} {n : N} (ptBuf : List UInt8) {o : Outputs T}
    (data : List (TranslationChunk T)), step + rounds = spec.splitCount → R m n → (∀ p ∈ o.out, Walked p.1) →
    (spec.walkLoop rounds step m ptBuf o data).1 = (spec.walkLoop rounds step n ptBuf o data).1 ∧
      R (spec.walkLoop rounds step m ptBuf o data).2 (spec.walkLoop rounds step n ptBuf o data).2 ∧
      ∀ p ∈ (spec.walkLoop rounds step m ptBuf o data).1.out, Walked p.1 := by
  intro rounds
  induction rounds with
  | zero => intro step m n ptBuf o data _ h ho; exact ⟨rfl, h, ho⟩
  | succ rounds ih =>
    intro step m n ptBuf o data hs h ho
    have hstep : step < spec.splitCount := by omega
    have hsort := spec.sort_walked hstep ho data
    rw [walkLoop, walkLoop]
    generalize Lib.RevLoop.drainRev (spec.stepChunk step) data.length o data = r at hsort
    obtain ⟨o', data'⟩ := r
    dsimp only at hsort ⊢
    by_cases he : data'.isEmpty = true
    · rw [if_pos he, if_pos he]
      exact ⟨rfl, h, hsort.1⟩
    · rw [if_neg he, if_neg he]
      have hread := hR.read (spec.ptReads step data' ptBuf) h (spec.ptReads_lt hsort.2 ptBuf)
      unfold readPtAddressIter
      generalize PhysicalMemory.physReadRawList m (spec.ptReads step data' ptBuf) = x at hread
      generalize PhysicalMemory.physReadRawList n (spec.ptReads step data' ptBuf) = y at hread
      obtain ⟨m', bufs, res⟩ := x
      obtain ⟨n', bufs', res'⟩ := y
      obtain ⟨hsame, h'⟩ := hread
      obtain ⟨rfl, rfl⟩ := Prod.mk.inj hsame
      cases res with
      | error err =>
        have hfail : ∀ p ∈ (data'.foldl (fun o chunk => o.failChunk err chunk) o').out, Walked p.1 :=
          TLBCache.foldl_induct (P := fun o : Outputs T => ∀ p ∈ o.out, Walked p.1) (fun o chunk => o.failChunk err chunk) data'
            (fun _ _ _ ho => ho) _ hsort.1
        exact ⟨rfl, h', hfail⟩
      | ok =>
        exact ih (step + 1) _ _ (by omega) h' (spec.filter_out step hsort.1 data')

/-- A batch over two memories that are alike: the panics of the filter are the same. -/
theorem virtToPhysIter_alike (hR : Alike W R) {m : M} {n : N} (h : R m n) (dtb : Nat) (reqs : List (Nat × T)) :
    Option.Rel (fun x y => x.1 = y.1 ∧ R x.2 y.2 ∧ ∀ p ∈ x.1.out, Walked p.1) (spec.virtToPhysIter m dtb reqs)
      (spec.virtToPhysIter n dtb reqs) := by
  unfold virtToPhysIter
  cases spec.filterAll reqs [] [] with
  | none => exact .none
  | some kept =>
    exact .some (spec.walkLoop_alike hR spec.splitCount 0 [] _ (Nat.zero_add _) h fun p hp => by cases hp)

end ArchMMUSpec

/-! ## Translators -/

section Rel

variable {α β γ δ : Type*} {r : α → β → Prop} {s : γ → δ → Prop}

theorem rel_imp {q : α → β → Prop} {x : Option α} {y : Option β} (h : Option.Rel r x y) (hrq : ∀ a b, r a b → q a b) :
    Option.Rel q x y := by
  cases h with
  | none => exact .none
  | some h => exact .some (hrq _ _ h)

theorem rel_map {x : Option α} {y : Option β} {f : α → γ} {g : β → δ} (h : Option.Rel r x y)
    (hfg : ∀ a b, r a b → s (f a) (g b)) : Option.Rel s (x.map f) (y.map g) := by
  cases h with
  | none => exact .none
  | some h => exact .some (hfg _ _ h)

theorem rel_bind {x : Option α} {y : Option β} {f : α → Option γ} {g : β → Option δ} (h : Option.Rel r x y)
    (hfg : ∀ a b, r a b → Option.Rel s (f a) (g b)) : Option.Rel s (x.bind f) (y.bind g) := by
  cases h with
  | none => exact .none
  | some h => exact hfg _ _ h

end Rel

/-- The same results, from a translator that stays in `I`. -/
structure SameTranslation {V M N T : Type} (I : V → Prop) (R : M → N → Prop) (x : V × M × Outputs T)
    (y : V × N × Outputs T) : Prop where
  vat : x.1 = y.1
  outputs : x.2.2 = y.2.2
  keeps : I x.1
  mem : R x.2.1 y.2.1
  walked : ∀ p ∈ x.2.2.out, Walked p.1

/-- A translator, from states that it keeps in `Keeps`, that uses a memory for its reads only. -/
class MemoryBlind (V : Type) [VirtualTranslate V] where
  Keeps : V → Prop
  same : ∀ {M N : Type} [PhysicalMemory M] [PhysicalMemory N] {W : PageType → Prop} {R : M → N → Prop}, Alike W R →
    ∀ {T : Type} [SplitAtIndex T] {vat : V} {m : M} {n : N} (d : X86ScopedVirtualTranslate) (reqs : List (Nat × T)),
      Keeps vat → R m n → Option.Rel (SameTranslation Keeps R) (VirtualTranslate.virtToPhysIter vat m d reqs)
        (VirtualTranslate.virtToPhysIter vat n d reqs)

instance : MemoryBlind DirectTranslate where
  Keeps _ := True
  same hR _ _ _ _ _ d reqs _ h :=
    rel_map (d.arch.mmu.virtToPhysIter_alike hR h d.dtb reqs) fun _ _ hxy => ⟨rfl, hxy.1, trivial, hxy.2.1, hxy.2.2⟩

namespace TLBCache

variable {k : Nat} {Q : Type} [CacheValidator Q]

/-- What the cache answers with was walked. -/
def HoldsWalked (t : TLBCache k Q) : Prop :=
  ∀ i, (t.entries i).physPage.isValid = true → WalkType (t.entries i).physPage.pageType

theorem invalid_not_valid : ¬ PhysicalAddress.invalid.isValid = true := by decide

theorem holdsWalked_new (validator : Q) : (TLBCache.new k validator).HoldsWalked := fun _ h => absurd h invalid_not_valid

variable [NeZero k] {T : Type} [SplitAtIndex T]

omit [SplitAtIndex T] in
theorem HoldsWalked.hits {t : TLBCache k Q} (h : t.HoldsWalked) (d : X86ScopedVirtualTranslate) (arch : ArchitectureObj)
    (pieces : List (Nat × T)) : ∀ p ∈ (t.hits d arch pieces).out, Walked p.1 := by
  intro p hp
  obtain ⟨x, -, hx⟩ := List.mem_filterMap.mp hp
  split at hx
  · next entry he =>
    obtain rfl := Option.some.inj hx
    obtain ⟨-, -, -, hanswer⟩ := tryEntry_some he
    obtain ⟨hvalid, hanswer⟩ := Option.ite_none_right_eq_some.mp hanswer.symm
    obtain ⟨haddr, htype⟩ := Prod.mk.inj (Option.some.inj hanswer)
    rw [Bool.and_eq_true] at hvalid
    exact ⟨haddr ▸ Address.add_lt _ _, htype ▸ h _ hvalid.1⟩
  · cases hx

theorem HoldsWalked.cacheUncached {t : TLBCache k Q} (h : t.HoldsWalked) (d : X86ScopedVirtualTranslate)
    (arch : ArchitectureObj) {uncached : Outputs (Nat × T)} (ho : ∀ p ∈ uncached.out, Walked p.1) :
    (t.cacheUncached d arch uncached).HoldsWalked := by
  refine cacheUncached_induct (P := HoldsWalked) (fun t e he ht i => ?_) h
  by_cases hi : i = t.getCacheIndex e.virtPage arch.pageSize
  · subst hi
    rw [entries_setEntry_self]
    cases he with
    | mapped hx => exact fun _ => (ho _ hx).type
    | unmapped => exact fun hv => absurd hv invalid_not_valid
  · rw [entries_setEntry_of_ne t e hi]
    exact ht i

end TLBCache

section Cached

variable {V M N T : Type} [VirtualTranslate V] [MemoryBlind V] [PhysicalMemory M] [PhysicalMemory N] [SplitAtIndex T]
  {W : PageType → Prop} {R : M → N → Prop}

/-- The inner translator is called, or not, over both. -/
theorem peekIter_same (hR : Alike W R) {vat : V} {m : M} {n : N} (d : X86ScopedVirtualTranslate) (reqs : List (Nat × T))
    (hv : MemoryBlind.Keeps vat) (h : R m n) :
    Option.Rel (SameTranslation MemoryBlind.Keeps R) (VirtualTranslate.peekIter vat m d reqs)
      (VirtualTranslate.peekIter vat n d reqs) := by
  unfold VirtualTranslate.peekIter
  split
  · exact .some ⟨rfl, rfl, hv, h, fun p hp => by cases hp⟩
  · exact MemoryBlind.same hR d reqs hv h

end Cached

instance {k : Nat} [NeZero k] {V Q : Type} [CacheValidator Q] [VirtualTranslate V] [MemoryBlind V] :
    MemoryBlind (CachedVirtualTranslate k V Q) where
  Keeps s := MemoryBlind.Keeps s.vat ∧ s.tlb.HoldsWalked
  same {M N _ _ W R} hR T _ s m n d reqs hs h := by
    refine rel_bind (peekIter_same hR d _ hs.1 h) fun x y hxy => ?_
    obtain ⟨vat, m1, uncached⟩ := x
    obtain ⟨vat', n1, uncached'⟩ := y
    obtain ⟨rfl, rfl, hv, h1, hmiss⟩ := hxy
    refine rel_map (peekIter_same hR d _ hv h1) fun x y hxy => ?_
    obtain ⟨vat2, m2, long⟩ := x
    obtain ⟨vat2', n2, long'⟩ := y
    obtain ⟨rfl, rfl, hv2, h2, hlong⟩ := hxy
    have htlb : s.updated.HoldsWalked := hs.2
    refine ⟨rfl, rfl, ⟨hv2, htlb.cacheUncached d s.arch hmiss⟩, h2, fun p hp => ?_⟩
    rcases List.mem_append.mp hp with hp | hp
    · rcases List.mem_append.mp hp with hp | hp
      · exact htlb.hits d s.arch _ p hp
      · exact hlong p hp
    · obtain ⟨x, hx, rfl⟩ := List.mem_map.mp hp
      exact hmiss x hx

/-! ## Accesses of processes -/

inductive VirtOp where
  | read (data : List (Nat × List UInt8))
  | write (data : List (Nat × List UInt8))

/-- An access of a process, through its tables. -/
structure VirtAccess where
  procArch : X86Architecture
  translator : X86ScopedVirtualTranslate
  op : VirtOp

/-- The access writes nothing. -/
def VirtAccess.OnlyReads (access : VirtAccess) : Prop := ∃ data, access.op = .read data

namespace VirtualDMA

open VirtualMemory

variable {M V : Type} [PhysicalMemory M] [VirtualTranslate V]

/-- Each access is one through a `VirtualDMA` of its own, over the memory and the translator
    that all processes share. -/
def perform (mem : M) (vat : V) (access : VirtAccess) : Option (M × V × List (List UInt8) × PartialResult Unit) :=
  let dma : VirtualDMA M V X86ScopedVirtualTranslate := ⟨mem, vat, access.procArch, access.translator⟩
  match access.op with
  | .read data => (virtReadRawList dma data).map fun (dma, bufs, res) => (dma.physMem, dma.vat, bufs, res)
  | .write data => (virtWriteRawList dma data).map fun (dma, res) => (dma.physMem, dma.vat, [], res)

/-- The accesses one after the other, with what each returns. -/
def performAll : M → V → List VirtAccess → Option (M × V × List (List (List UInt8) × PartialResult Unit))
  | mem, vat, [] => some (mem, vat, [])
  | mem, vat, access :: accesses =>
    (perform mem vat access).bind fun (mem, vat, result) =>
      (performAll mem vat accesses).map fun (mem, vat, results) => (mem, vat, result :: results)

variable {N : Type} [PhysicalMemory N] [MemoryBlind V] {W : PageType → Prop} {R : M → N → Prop}

/-- The same results, from memories that are still related. -/
structure SameRun {V M N α : Type} [VirtualTranslate V] [MemoryBlind V] (R : M → N → Prop) (x : M × V × α) (y : N × V × α) :
    Prop where
  mem : R x.1 y.1
  vat : x.2.1 = y.2.1
  results : x.2.2 = y.2.2
  keeps : MemoryBlind.Keeps x.2.1

/-- A list of reads through the translations. -/
theorem readList_alike (hR : Alike W R) (procArch : X86Architecture) (d : X86ScopedVirtualTranslate)
    (data : List (Nat × List UInt8)) {m : M} {n : N} {vat : V} (h : R m n) (hv : MemoryBlind.Keeps vat) :
    Option.Rel (fun x y => SameRun R (x.1.physMem, x.1.vat, (x.1.procArch, x.1.translator), x.2)
        (y.1.physMem, y.1.vat, (y.1.procArch, y.1.translator), y.2))
      (virtReadRawList (⟨m, vat, procArch, d⟩ : VirtualDMA M V X86ScopedVirtualTranslate) data)
      (virtReadRawList (⟨n, vat, procArch, d⟩ : VirtualDMA N V X86ScopedVirtualTranslate) data) := by
  refine rel_map (MemoryBlind.same hR d (slices data) hv h) fun x y hxy => ?_
  obtain ⟨vat1, m1, o⟩ := x
  obtain ⟨vat1', n1, o'⟩ := y
  obtain ⟨rfl, rfl, hv1, h1, hwalked⟩ := hxy
  dsimp only at h1 hwalked
  let heap := copyAll (heapOf data) (o.outFail.map fun f => (f.2.2, List.replicate f.2.2.len 0))
  obtain ⟨hread, h2⟩ := hR.read (o.out.map fun p => (p.1, p.2.locs.map heap)) h1 fun a ha => by
    obtain ⟨p, hp, rfl⟩ := List.mem_map.mp ha
    exact (hwalked p hp).lt
  let result := fun r : List (List UInt8) × Except Error Unit =>
    (bufsOf data (copyAll heap ((o.out.map (·.2)).zip r.1)), finish r.2 o.outFail (.partialVirtualRead ()))
  exact ⟨h2, rfl, congrArg (fun r => ((procArch, d), result r)) hread, hv1⟩

/-- A list of writes, to pages of the types a walk gives. -/
theorem writeList_alike (hR : Alike W R) (hw : ∀ t, WalkType t → W t) (procArch : X86Architecture)
    (d : X86ScopedVirtualTranslate) (data : List (Nat × List UInt8)) {m : M} {n : N} {vat : V} (h : R m n)
    (hv : MemoryBlind.Keeps vat) :
    Option.Rel (fun x y => SameRun R (x.1.physMem, x.1.vat, (x.1.procArch, x.1.translator), x.2)
        (y.1.physMem, y.1.vat, (y.1.procArch, y.1.translator), y.2))
      (virtWriteRawList (⟨m, vat, procArch, d⟩ : VirtualDMA M V X86ScopedVirtualTranslate) data)
      (virtWriteRawList (⟨n, vat, procArch, d⟩ : VirtualDMA N V X86ScopedVirtualTranslate) data) := by
  refine rel_map (MemoryBlind.same hR d (slices data) hv h) fun x y hxy => ?_
  obtain ⟨vat1, m1, o⟩ := x
  obtain ⟨vat1', n1, o'⟩ := y
  obtain ⟨rfl, rfl, hv1, h1, hwalked⟩ := hxy
  dsimp only at h1 hwalked
  obtain ⟨hwrite, h2⟩ := hR.write (o.out.map fun p => (p.1, p.2.locs.map (heapOf data))) h1 fun a ha => by
    obtain ⟨p, hp, rfl⟩ := List.mem_map.mp ha
    exact ⟨(hwalked p hp).lt, hw _ (hwalked p hp).type⟩
  exact ⟨h2, rfl, congrArg (fun r => ((procArch, d), finish r o.outFail (.partialVirtualRead ()))) hwrite, hv1⟩

theorem perform_alike (hR : Alike W R) {access : VirtAccess} (hw : access.OnlyReads ∨ ∀ t, WalkType t → W t) {m : M} {n : N}
    {vat : V} (h : R m n) (hv : MemoryBlind.Keeps vat) :
    Option.Rel (SameRun R) (perform m vat access) (perform n vat access) := by
  obtain ⟨procArch, d, op⟩ := access
  unfold perform
  cases op with
  | read data =>
    exact rel_map (readList_alike hR procArch d data h hv) fun x y hxy =>
      ⟨hxy.mem, hxy.vat, congrArg (fun r => r.2) hxy.results, hxy.keeps⟩
  | write data =>
    have htypes : ∀ t, WalkType t → W t := hw.resolve_left fun hreads => by
      obtain ⟨data', hdata⟩ := hreads
      cases hdata
    exact rel_map (writeList_alike hR htypes procArch d data h hv) fun x y hxy =>
      ⟨hxy.mem, hxy.vat, congrArg (fun r => ([], r.2)) hxy.results, hxy.keeps⟩

/-- Any number of them. -/
theorem performAll_alike (hR : Alike W R) (accesses : List VirtAccess)
    (hw : (∀ access ∈ accesses, access.OnlyReads) ∨ ∀ t, WalkType t → W t) : ∀ {m : M} {n : N} {vat : V}, R m n →
    MemoryBlind.Keeps vat → Option.Rel (SameRun R) (performAll m vat accesses) (performAll n vat accesses) := by
  induction accesses with
  | nil => exact fun h hv => .some ⟨h, rfl, rfl, hv⟩
  | cons access accesses ih =>
    intro m n vat h hv
    have hfirst := perform_alike hR (hw.imp_left fun hall => hall access List.mem_cons_self) h hv
    refine rel_bind hfirst fun x y hxy => ?_
    obtain ⟨m1, vat1, result⟩ := x
    obtain ⟨n1, vat1', result'⟩ := y
    obtain ⟨h1, rfl, rfl, hv1⟩ := hxy
    refine rel_map (ih (hw.imp_left fun hall a ha => hall a (List.mem_cons_of_mem _ ha)) h1 hv1) fun x y hxy => ?_
    exact ⟨hxy.mem, hxy.vat, congrArg (result :: ·) hxy.results, hxy.keeps⟩

end VirtualDMA

end Jiaa
