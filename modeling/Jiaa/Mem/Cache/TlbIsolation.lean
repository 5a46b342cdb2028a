/-
  Jiaa.Mem.Cache.TlbIsolation — whose entries answer a lookup
  (memflow `mem/cache/tlb_cache.rs`, `architecture/x86/mod.rs`, memflow-win32 `win32/vat.rs`).

  The tag of an entry is the table base shifted by twelve bits. `Attributed` is a validator
  that also notes, for each slot, which table base it was last validated for: a slot is
  validated when an entry is stored in it, and at no other time. The note changes nothing
  (`erase_virtToPhysIter`).

  - `isolated_iff`: two table bases are kept apart exactly when their tags differ;
  - `isolated_x64_x32`: they are where the address part of a table base starts at bit twelve
    or later. The first table of `x32Pae` has four entries and may start inside a page.
-/

import Jiaa.Mem.Cache.TlbFreshness

namespace Jiaa

/-! ## Notes on the slots -/

structure Attributed (Q : Type) where
  inner : Q
  current : Nat
  owner : Nat → Option Nat

instance {Q : Type} [CacheValidator Q] : CacheValidator (Attributed Q) where
  allocateSlots self slotCount := { self with inner := CacheValidator.allocateSlots self.inner slotCount }
  updateValidity self := { self with inner := updateValidity self.inner }
  isSlotValid self slotId := isSlotValid self.inner slotId
  validateSlot self slotId := { self with
    inner := validateSlot self.inner slotId
    owner := Function.update self.owner slotId (some self.current) }
  invalidateSlot self slotId := { self with inner := CacheValidator.invalidateSlot self.inner slotId }

namespace TLBCache

variable {n : Nat} {Q : Type} [CacheValidator Q]

omit [CacheValidator Q] in
def erase (t : TLBCache n (Attributed Q)) : TLBCache n Q := ⟨t.entries, t.validator.inner⟩

/-- The slots stored from here on are those of `dtb`. -/
def noteCaller (t : TLBCache n (Attributed Q)) (dtb : Nat) : TLBCache n (Attributed Q) :=
  { t with validator := { t.validator with current := dtb } }

variable [NeZero n] {D T : Type} [ScopedVirtualTranslate D] [SplitAtIndex T]

theorem erase_cacheUncached (t : TLBCache n (Attributed Q)) (d : D) (arch : ArchitectureObj)
    (uncached : Outputs (Nat × T)) : (t.cacheUncached d arch uncached).erase = t.erase.cacheUncached d arch uncached := by
  have hpage : ∀ (tag : Nat) (t : TLBCache n (Attributed Q)) (page : Nat),
      cacheInvalidPage tag arch t.erase page = (cacheInvalidPage tag arch t page).erase := by
    intro tag t page
    unfold cacheInvalidPage
    dsimp only
    rw [apply_ite erase]
    rfl
  have hout : uncached.out.foldl (fun tlb x => tlb.cacheEntry d x.2.1 x.1 arch) t.erase =
      (uncached.out.foldl (fun tlb x => tlb.cacheEntry d x.2.1 x.1 arch) t).erase :=
    List.foldl_hom erase fun _ _ => rfl
  unfold cacheUncached
  dsimp only
  rw [hout]
  refine (List.foldl_hom erase fun t x => ?_).symm
  exact List.foldl_hom erase fun t page => hpage _ t page

end TLBCache

namespace CachedVirtualTranslate

variable {n : Nat} [NeZero n] {V Q : Type} [VirtualTranslate V] [CacheValidator Q]

def erase (s : CachedVirtualTranslate n V (Attributed Q)) : CachedVirtualTranslate n V Q :=
  ⟨s.vat, s.tlb.erase, s.arch, s.hitc, s.misc⟩

/-- The notes change nothing a call does. -/
theorem erase_virtToPhysIter {M D T : Type} [PhysicalMemory M] [ScopedVirtualTranslate D] [SplitAtIndex T]
    (s : CachedVirtualTranslate n V (Attributed Q)) (mem : M) (d : D) (reqs : List (Nat × T)) :
    VirtualTranslate.virtToPhysIter s.erase mem d reqs =
      (VirtualTranslate.virtToPhysIter s mem d reqs).map fun (s, mem, o) => (s.erase, mem, o) := by
  have hstored : ∀ u : Outputs (Nat × T), s.erase.updated.cacheUncached d s.arch u =
      (s.updated.cacheUncached d s.arch u).erase := fun u => (TLBCache.erase_cacheUncached s.updated d s.arch u).symm
  unfold VirtualTranslate.virtToPhysIter instVirtualTranslate
  dsimp only
  rw [Option.map_bind]
  refine Option.bind_congr fun r _ => ?_
  dsimp only [Function.comp]
  rw [Option.map_map]
  refine congrArg (Option.map · _) (funext fun q => ?_)
  dsimp only [Function.comp]
  unfold erase at hstored ⊢
  dsimp only at hstored ⊢
  rw [hstored]
  rfl

end CachedVirtualTranslate

/-! ## Translators with a table base -/

/-- `x86::new_translator` and the translator of a process. -/
class DtbTranslator (D : Type) [ScopedVirtualTranslate D] where
  arch : D → X86Architecture
  dtb : D → Nat
  tag_eq : ∀ (d : D) v, ScopedVirtualTranslate.translationTableId d v = dtb d >>> 12

instance : DtbTranslator X86ScopedVirtualTranslate := ⟨fun d => d.arch, fun d => d.dtb, fun _ _ => rfl⟩

instance : DtbTranslator Win32VirtualTranslate := ⟨fun d => d.sysArch, fun d => d.dtb, fun _ _ => rfl⟩

namespace CachedVirtualTranslate

open TLBCache

section Runs

variable {n : Nat} [NeZero n] {V Q : Type} [VirtualTranslate V] [CacheValidator Q]

/-- Calls, in any order, of translators for the given table bases. -/
inductive SharedRun (arch : X86Architecture) (dtbs : List Nat) (s0 : CachedVirtualTranslate n V (Attributed Q)) :
    CachedVirtualTranslate n V (Attributed Q) → Prop
  | start : SharedRun arch dtbs s0 s0
  | call {s s' : CachedVirtualTranslate n V (Attributed Q)} {M D T : Type} [PhysicalMemory M]
      [ScopedVirtualTranslate D] [DtbTranslator D] [SplitAtIndex T] {mem mem' : M} {d : D} {reqs : List (Nat × T)}
      {o : Outputs T} : SharedRun arch dtbs s0 s → DtbTranslator.arch d = arch → DtbTranslator.dtb d ∈ dtbs →
      VirtualTranslate.virtToPhysIter { s with tlb := s.tlb.noteCaller (DtbTranslator.dtb d) } mem d reqs =
        some (s', mem', o) → SharedRun arch dtbs s0 s'

/-- Every entry bears the tag of the table base it was stored for. -/
def Owned (dtbs : List Nat) (t : TLBCache n (Attributed Q)) : Prop :=
  ∀ i, (t.entries i).virtPage = Address.invalid ∨
    ∃ dtb ∈ dtbs, t.validator.owner i = some dtb ∧ (t.entries i).ptIndex = dtb >>> 12

omit [VirtualTranslate V] in
theorem Owned.call {dtbs : List Nat} {s : CachedVirtualTranslate n V (Attributed Q)} (h : Owned dtbs s.tlb) {D T : Type}
    [ScopedVirtualTranslate D] [DtbTranslator D] [SplitAtIndex T] {d : D} (hd : DtbTranslator.dtb d ∈ dtbs)
    (arch : ArchitectureObj) (uncached : Outputs (Nat × T)) :
    Owned dtbs ((updated { s with tlb := s.tlb.noteCaller (DtbTranslator.dtb d) }).cacheUncached d arch uncached) := by
  let P : TLBCache n (Attributed Q) → Prop := fun t => t.validator.current = DtbTranslator.dtb d ∧ Owned dtbs t
  have h0 : P (updated { s with tlb := s.tlb.noteCaller (DtbTranslator.dtb d) }) := ⟨rfl, h⟩
  refine (cacheUncached_induct (P := P) (fun t e he (ht : P t) => ?_) h0).2
  refine ⟨ht.1, fun i => ?_⟩
  by_cases hi : i = t.getCacheIndex e.virtPage arch.pageSize
  · subst hi
    refine Or.inr ⟨DtbTranslator.dtb d, hd, ?_, ?_⟩
    · show Function.update t.validator.owner _ (some t.validator.current) _ = _
      rw [Function.update_self, ht.1]
    · rw [entries_setEntry_self]
      cases he with
      | mapped _ => exact DtbTranslator.tag_eq d _
      | unmapped _ _ => exact DtbTranslator.tag_eq d _
  · rw [entries_setEntry_of_ne t e hi]
    have howner : (t.setEntry (t.getCacheIndex e.virtPage arch.pageSize) e).validator.owner i = t.validator.owner i :=
      Function.update_of_ne (fun hv => hi (Fin.ext hv)) ..
    rw [howner]
    exact ht.2 i

theorem owned_run {arch : X86Architecture} {dtbs : List Nat} {s0 s : CachedVirtualTranslate n V (Attributed Q)}
    (h : SharedRun arch dtbs s0 s) (h0 : Owned dtbs s0.tlb) : Owned dtbs s.tlb := by
  induction h with
  | start => exact h0
  | @call s _ _ _ _ _ _ _ _ _ _ d _ _ _ _ hd he ih =>
    obtain ⟨uncached, htlb, -⟩ := call_tlb he
    rw [htlb]
    exact ih.call hd _ uncached

end Runs

/-- In every run of calls for two table bases, what a lookup for one finds was stored for it. -/
def Isolated (arch : X86Architecture) (dtb1 dtb2 : Nat) : Prop :=
  ∀ {n : Nat} [NeZero n] {V Q : Type} [VirtualTranslate V] [CacheValidator Q] (vat : V) (validator : Q)
    (obj : ArchitectureObj) (s : CachedVirtualTranslate n V (Attributed Q)),
    SharedRun arch [dtb1, dtb2] (new vat (TLBCache.new n ⟨validator, 0, fun _ => none⟩) obj) s →
    ∀ {D : Type} [ScopedVirtualTranslate D] [DtbTranslator D] (d : D), DtbTranslator.dtb d ∈ [dtb1, dtb2] → ∀ v,
      (s.updated.tryEntry d v obj).isSome = true →
      s.updated.validator.owner (s.updated.getCacheIndex (Address.asPageAligned v obj.pageSize) obj.pageSize) =
        some (DtbTranslator.dtb d)

/-! ## Two table bases with one tag -/

/-- Every address is its own physical address. -/
structure IdentityTranslate where

instance : VirtualTranslate IdentityTranslate where
  virtToPhysIter self mem _ addrs :=
    some (self, mem, ⟨addrs.map fun x => (PhysicalAddress.withPage x.1 PageType.none 4096, x.2), []⟩)

theorem tryEntry_new {n : Nat} [NeZero n] {Q D : Type} [CacheValidator Q] [ScopedVirtualTranslate D] (q : Q) (d : D)
    (v : Nat) (arch : ArchitectureObj) : tryEntry (⟨fun _ => CachedEntry.invalid, q⟩ : TLBCache n Q) d v arch = none := by
  refine Option.not_isSome_iff_eq_none.mp fun h => ?_
  exact asPageAligned_ne_invalid arch v (tryEntry_isSome_iff.mp h).2.1.symm

/-- The entry stored for one answers for the other. -/
theorem not_isolated (arch : X86Architecture) {dtb1 dtb2 : Nat} (hne : dtb1 ≠ dtb2) (h : dtb1 >>> 12 = dtb2 >>> 12) :
    ¬ Isolated arch dtb1 dtb2 := by
  intro hiso
  let q : Attributed CountCacheValidator := ⟨CountCacheValidator.new 2, 0, fun _ => none⟩
  let s0 : CachedVirtualTranslate 1 IdentityTranslate _ := new ⟨⟩ (TLBCache.new 1 q) x64Obj
  let d1 : X86ScopedVirtualTranslate := ⟨arch, dtb1⟩
  let t := updated { s0 with tlb := s0.tlb.noteCaller dtb1 }
  have hnone : ∀ v, t.tryEntry d1 v x64Obj = none := fun v => tryEntry_new _ d1 v x64Obj
  have hpieces : t.pieces d1 x64Obj [(0x1000, (1 : Nat))] = [(0x1000, 1)] := by
    unfold pieces
    simp only [hnone]
    rfl
  have hcall : VirtualTranslate.virtToPhysIter { s0 with tlb := s0.tlb.noteCaller dtb1 } (FlatMemory.ofWords []) d1
      [(0x1000, (1 : Nat))] = some (⟨⟨⟩, t.cacheUncached d1 x64Obj
        ⟨[(PhysicalAddress.withPage 0x1000 PageType.none 4096, (0x1000, (1 : Nat)))], []⟩, x64Obj, 0, 1⟩,
        FlatMemory.ofWords [], ⟨[(PhysicalAddress.withPage 0x1000 PageType.none 4096, 1)], []⟩) := by
    have hmisses : t.misses d1 x64Obj [(0x1000, (1 : Nat))] = [(0x1000, (0x1000, 1))] := by
      simp only [misses, List.filterMap_cons, hnone, List.filterMap_nil]
    have hhits : t.hits d1 x64Obj [(0x1000, (1 : Nat))] = ⟨[], []⟩ := by
      simp only [hits, List.filterMap_cons, hnone, List.filterMap_nil]
    unfold VirtualTranslate.virtToPhysIter instVirtualTranslate
    dsimp only
    rw [show updated { s0 with tlb := s0.tlb.noteCaller dtb1 } = t from rfl, show s0.arch = x64Obj from rfl, hpieces,
      hmisses, hhits]
    rfl
  have hrun := SharedRun.call (.start : SharedRun arch [dtb1, dtb2] s0 s0) (d := d1) rfl (List.mem_cons_self ..) hcall
  have howner := hiso _ _ _ _ hrun (⟨arch, dtb2⟩ : X86ScopedVirtualTranslate) (by simp [DtbTranslator.dtb]) 0x1000
    (tryEntry_isSome_iff.mpr ⟨h, rfl, show decide (CountCacheValidator.wrappingSub 2 1 < 2) = true by decide +kernel⟩)
  cases howner
  exact hne rfl

/-! ## Isolation -/

/-- The address part of a table base that starts at bit twelve or later is given by the tag. -/
theorem tags_differ {spec : ArchMMUSpec} (hmin : 12 ≤ spec.pteMaskMin 0) {dtb1 dtb2 : Nat}
    (h : spec.pteAddrMask dtb1 0 ≠ spec.pteAddrMask dtb2 0) : dtb1 >>> 12 ≠ dtb2 >>> 12 := by
  intro heq
  have hcount : 0 < spec.splitCount := by
    have := spec.two_le_splits
    unfold ArchMMUSpec.splitCount
    omega
  refine h (Nat.eq_of_testBit_eq fun i => ?_)
  have hm := spec.mask_lt _ (spec.splitAtStep_mem hcount)
  have hb := spec.addressSpaceBits_le
  have hle : spec.pteMaskMin 0 ≤ spec.addressSpaceBits - 1 := by
    unfold ArchMMUSpec.pteMaskMin
    split <;> omega
  unfold ArchMMUSpec.pteAddrMask
  rw [Nat.testBit_and, Nat.testBit_and, Address.bitMask_eq hle (by omega), Lib.Bits.testBit_band (by omega)]
  by_cases hi : 12 ≤ i
  · have hbit : ∀ dtb : Nat, dtb.testBit i = (dtb >>> 12).testBit (i - 12) := by
      intro dtb
      rw [Nat.testBit_shiftRight, show 12 + (i - 12) = i by omega]
    rw [hbit dtb1, hbit dtb2, heq]
  · rw [decide_eq_true (show i < spec.pteMaskMin 0 by omega), Bool.not_true, Bool.and_false, Bool.and_false, Bool.and_false]

/-- Different tags keep the entries of two table bases apart. -/
theorem isolated_of_tags {arch : X86Architecture} {dtb1 dtb2 : Nat} (hne : dtb1 >>> 12 ≠ dtb2 >>> 12) :
    Isolated arch dtb1 dtb2 := by
  intro n _ V Q _ _ vat validator obj s hrun D _ _ d hd v hv
  have howned := owned_run hrun fun i => Or.inl rfl
  obtain ⟨htag, hpage, -⟩ := tryEntry_isSome_iff.mp hv
  rw [DtbTranslator.tag_eq] at htag
  rcases howned (s.updated.getCacheIndex (Address.asPageAligned v obj.pageSize) obj.pageSize) with
    hnone | ⟨dtb, hdtb, howner, hptr⟩
  · exact absurd (hpage.symm.trans hnone) (asPageAligned_ne_invalid obj v)
  · have hshift : dtb >>> 12 = DtbTranslator.dtb d >>> 12 := hptr.symm.trans htag
    have heq : dtb = DtbTranslator.dtb d := by
      simp only [List.mem_cons, List.not_mem_nil, or_false] at hd hdtb
      rcases hd with hd | hd <;> rcases hdtb with hb | hb
      · rw [hb, hd]
      · rw [hb, hd] at hshift
        exact absurd hshift.symm hne
      · rw [hb, hd] at hshift
        exact absurd hshift hne
      · rw [hb, hd]
    rw [← heq]
    exact howner

/-- Different tables of `x64` and `x32` are isolated. -/
theorem isolated_x64_x32 {arch : X86Architecture} (harch : arch ∈ [x64Arch, x32Arch]) {dtb1 dtb2 : Nat}
    (hmask : arch.mmu.pteAddrMask dtb1 0 ≠ arch.mmu.pteAddrMask dtb2 0) : Isolated arch dtb1 dtb2 := by
  refine isolated_of_tags (tags_differ ?_ hmask)
  simp only [List.mem_cons, List.not_mem_nil, or_false] at harch
  rcases harch with rfl | rfl
  · decide +kernel
  · decide +kernel

/-- Two table bases of different tables are isolated exactly when their tags differ. -/
theorem isolated_iff {arch : X86Architecture} {dtb1 dtb2 : Nat}
    (hmask : arch.mmu.pteAddrMask dtb1 0 ≠ arch.mmu.pteAddrMask dtb2 0) :
    Isolated arch dtb1 dtb2 ↔ dtb1 >>> 12 ≠ dtb2 >>> 12 := by
  refine ⟨fun hiso heq => ?_, isolated_of_tags⟩
  exact not_isolated arch (fun e => hmask (by rw [e])) heq hiso

theorem isolated_apart : Isolated x32PaeArch 0x1000 0x2000 := (isolated_iff (by decide +kernel)).mpr (by decide)

/-- The first table of `0x1020`, in the page of that of `0x1000`, maps the page at `0x1000`. -/
def oneTableMapped : FlatMemory := FlatMemory.ofWords [(0x1020, 0x2001), (0x2000, 0x3003), (0x3008, 0x5003)]

/-- What a byte gets in the tables of `0x1020`, `before` being what others asked for. -/
def lookedUpAfter (before : List (X86ScopedVirtualTranslate × Nat × Nat)) : Option (Outputs Nat) :=
  let s := before.foldl (fun s x => ((VirtualTranslate.virtToPhysIter s oneTableMapped x.1 [x.2]).map (·.1)).getD s)
    (new (⟨⟩ : DirectTranslate) (TLBCache.new 4 (CountCacheValidator.new 2)) x32PaeObj)
  (VirtualTranslate.virtToPhysIter s oneTableMapped (⟨x32PaeArch, 0x1020⟩ : X86ScopedVirtualTranslate)
    [(0x1000, (1 : Nat))]).map fun r => r.2.2

/-- A page that the tables of `0x1000` do not map is taken for one of `0x1020`, which maps it. -/
theorem pae_tables_share_tag :
    x32Pae.pteAddrMask 0x1000 0 ≠ x32Pae.pteAddrMask 0x1020 0 ∧ ¬ Isolated x32PaeArch 0x1000 0x1020 ∧
    (lookedUpAfter []).map (·.out.length) = some 1 ∧
    lookedUpAfter [(⟨x32PaeArch, 0x1000⟩, 0x1000, 0x1000)] = some ⟨[], [(.virtualTranslate, 0x1000, 1)]⟩ :=
  ⟨by decide +kernel, not_isolated x32PaeArch (by decide) (by decide), by decide +kernel, by decide +kernel⟩

end CachedVirtualTranslate

end Jiaa
