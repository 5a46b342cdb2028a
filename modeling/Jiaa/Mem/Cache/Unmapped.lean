/-
  Jiaa.Mem.Cache.Unmapped — what a read through the cache leaves at unmapped addresses
  (memflow `mem/cache/page_cache.rs` over `connector/mmap.rs`).

  A page is read into the buffer its slot has, whatever page was there before; a memory
  that leaves unmapped bytes untouched leaves there the bytes of that other page.

  Two runs of the same reads, over memories with the same addresses mapped, go hand in hand
  (`Twins`): only bytes differ.

  - `twins_enqueueChunk`, `twins_flush`: a step of the two;
  - `unmapped_reads_same`: where pages that share a slot are asked for only after pages
    mapped at no more of their offsets, the bytes at unmapped addresses are the same;
  - `unmapped_shows_other`: else they may be another page's.
-/

import Jiaa.Connector.Mmap
import Jiaa.Mem.Cache.Transparency

namespace Jiaa

open PageCache

namespace PageCache

variable {n : Nat} [NeZero n] {Q : Type*}

/-- The same cache with other buffers. -/
def withRefs (c : PageCache n Q) (refs : Fin n → Option (List UInt8)) : PageCache n Q := { c with pageRefs := refs }

omit [NeZero n] in
theorem lend_withRefs (c : PageCache n Q) (refs : Fin n → Option (List UInt8)) (i : Fin n) :
    (c.withRefs refs).lend i = (c.lend i).withRefs (Function.update refs i none) := rfl

/-- Two buffers of one slot. They agree where its page is unmapped, and differ at most where
    some page asked for is mapped. -/
structure BufTwins (un : Nat → Prop) (asked : List Nat) (c : PageCache n Q) (i : Fin n) (b1 b2 : List UInt8) : Prop where
  left : b1.length = c.pageSize
  right : b2.length = c.pageSize
  page : ∀ j < c.pageSize, un (c.address i + j) → b1[j]? = b2[j]?
  asked : ∀ j < c.pageSize, b1[j]? = b2[j]? ∨ ∃ p ∈ asked, c.pageIndex p = i ∧ ¬ un (p + j)

def SlotTwins (un : Nat → Prop) (asked : List Nat) (c : PageCache n Q) (refs : Fin n → Option (List UInt8)) : Prop :=
  ∀ i, Option.Rel (BufTwins un asked c i) (c.pageRefs i) (refs i)

variable {un : Nat → Prop} {asked : List Nat} {c : PageCache n Q} {refs : Fin n → Option (List UInt8)}

theorem BufTwins.mono {asked' : List Nat} {i : Fin n} {b1 b2 : List UInt8} (h : BufTwins un asked c i b1 b2)
    (hsub : asked ⊆ asked') {d : PageCache n Q} (hp : d.pageSize = c.pageSize) (ha : d.address i = c.address i) :
    BufTwins un asked' d i b1 b2 where
  left := h.left.trans hp.symm
  right := h.right.trans hp.symm
  page j hj := by
    rw [ha]
    exact h.page j (hp ▸ hj)
  asked j hj := (h.asked j (hp ▸ hj)).imp_right fun ⟨p, hp', hi, hq⟩ => ⟨p, hsub hp', (pageIndex_congr hp p).trans hi, hq⟩

theorem SlotTwins.some {i : Fin n} {b1 b2 : List UInt8} (h : SlotTwins un asked c refs) (h1 : c.pageRefs i = some b1)
    (h2 : refs i = some b2) : BufTwins un asked c i b1 b2 := by
  have hi := h i
  rw [h1, h2] at hi
  cases hi
  assumption

/-- Slots that are as they were. -/
theorem SlotTwins.rel {asked' : List Nat} (h : SlotTwins un asked c refs) (hsub : asked ⊆ asked') (d : PageCache n Q)
    (hp : d.pageSize = c.pageSize) (i : Fin n) (ha : d.address i = c.address i) :
    Option.Rel (BufTwins un asked' d i) (c.pageRefs i) (refs i) := by
  have hi := h i
  generalize c.pageRefs i = r1 at hi
  generalize refs i = r2 at hi
  cases hi with
  | none => exact .none
  | some hb => exact .some (hb.mono hsub hp ha)

theorem SlotTwins.mono {asked' : List Nat} (h : SlotTwins un asked c refs) (hsub : asked ⊆ asked') :
    SlotTwins un asked' c refs := fun i => h.rel hsub c rfl i rfl

theorem SlotTwins.lend (h : SlotTwins un asked c refs) (i : Fin n) :
    SlotTwins un asked (c.lend i) (Function.update refs i none) := by
  intro k
  by_cases hk : k = i
  · subst hk
    simp only [PageCache.lend, Function.update_self]
    exact .none
  · have hrel := h.rel (List.Subset.refl asked) (c.lend i) rfl k rfl
    simp only [PageCache.lend, Function.update_of_ne hk] at hrel ⊢
    exact hrel

variable [CacheValidator Q]

/-- What the two take. -/
inductive TakenTwins (un : Nat → Prop) (asked : List Nat) (c : PageCache n Q) (refs : Fin n → Option (List UInt8)) (a : Nat) :
    PageValidity × PageCache n Q → PageValidity × PageCache n Q → Prop
  | valid (b1 b2 : List UInt8) (left : c.pageRefs (c.pageIndex a) = some b1) (right : refs (c.pageIndex a) = some b2)
      (bufs : BufTwins un asked c (c.pageIndex a) b1 b2) (page : c.address (c.pageIndex a) = c.pageOf a) :
      TakenTwins un asked c refs a (.valid b1, c.lend (c.pageIndex a)) (.valid b2, (c.withRefs refs).lend (c.pageIndex a))
  | validatable (b1 b2 : List UInt8) (bufs : BufTwins un asked c (c.pageIndex a) b1 b2) :
      TakenTwins un asked c refs a (.validatable b1, c.lend (c.pageIndex a))
        (.validatable b2, (c.withRefs refs).lend (c.pageIndex a))
  | toBeValidated : TakenTwins un asked c refs a (.toBeValidated, c.lend (c.pageIndex a))
      (.toBeValidated, (c.withRefs refs).lend (c.pageIndex a))
  | invalid : TakenTwins un asked c refs a (.invalid, c.lend (c.pageIndex a)) (.invalid, (c.withRefs refs).lend (c.pageIndex a))

theorem takePage_twins (h : SlotTwins un asked c refs) (a : Nat) :
    TakenTwins un asked c refs a (c.takePage a false) ((c.withRefs refs).takePage a false) := by
  have htaken : ∀ r buf, r (c.pageIndex a) = some buf → (c.withRefs r).takePage a false =
      if c.address (c.pageIndex a) = c.pageOf a ∧ (false = true ∨ isSlotValid c.validator (c.pageIndex a) = true) then
        (.valid buf, (c.withRefs r).lend (c.pageIndex a))
      else if c.addressOnceValidated (c.pageIndex a) = c.pageOf a ∨
          c.addressOnceValidated (c.pageIndex a) = Address.invalid then
        (.validatable buf, (c.withRefs r).lend (c.pageIndex a))
      else (.invalid, (c.withRefs r).lend (c.pageIndex a)) := by
    intro r buf hr
    rw [takePage, show (c.withRefs r).pageRefs ((c.withRefs r).pageIndex a) = some buf from hr]
    rfl
  have hempty : ∀ r, r (c.pageIndex a) = none → (c.withRefs r).takePage a false =
      if c.addressOnceValidated (c.pageIndex a) = c.pageOf a then (.toBeValidated, (c.withRefs r).lend (c.pageIndex a))
      else (.invalid, (c.withRefs r).lend (c.pageIndex a)) := by
    intro r hr
    rw [takePage, show (c.withRefs r).pageRefs ((c.withRefs r).pageIndex a) = none from hr]
    rfl
  have hleft : c.takePage a false = (c.withRefs c.pageRefs).takePage a false := rfl
  have hi := h (c.pageIndex a)
  rw [hleft]
  cases h1 : c.pageRefs (c.pageIndex a) with
  | none =>
    rw [h1] at hi
    cases h2 : refs (c.pageIndex a) with
    | some b2 => rw [h2] at hi; cases hi
    | none =>
      rw [hempty _ h1, hempty _ h2]
      by_cases hm : c.addressOnceValidated (c.pageIndex a) = c.pageOf a
      · rw [if_pos hm, if_pos hm]
        exact .toBeValidated
      · rw [if_neg hm, if_neg hm]
        exact .invalid
  | some b1 =>
    cases h2 : refs (c.pageIndex a) with
    | none => rw [h1, h2] at hi; cases hi
    | some b2 =>
      have hb := h.some h1 h2
      rw [htaken _ b1 h1, htaken _ b2 h2]
      by_cases hv : c.address (c.pageIndex a) = c.pageOf a ∧ (false = true ∨ isSlotValid c.validator (c.pageIndex a) = true)
      · rw [if_pos hv, if_pos hv]
        exact .valid b1 b2 h1 h2 hb hv.1
      · rw [if_neg hv, if_neg hv]
        by_cases hm : c.addressOnceValidated (c.pageIndex a) = c.pageOf a ∨
            c.addressOnceValidated (c.pageIndex a) = Address.invalid
        · rw [if_pos hm, if_pos hm]
          exact .validatable b1 b2 hb
        · rw [if_neg hm, if_neg hm]
          exact .invalid

end PageCache

open Freshness

/-! ## Two reads -/

section Reads

variable {n : Nat} [NeZero n] {M Q : Type*} [CacheValidator Q] [PhysicalMemory M] [MappedMemory M] {un : Nat → Prop}
  {addrOf : Loc → Nat}

/-- A page that both are to read. -/
structure PageTwins (un : Nat → Prop) (asked : List Nat) (c0 : PageCache n Q) (p q : PhysicalAddress × List UInt8) : Prop where
  address : q.1 = p.1
  asked : p.1.address ∈ asked
  left : p.2.length = c0.pageSize
  right : q.2.length = c0.pageSize
  page : ∀ j < c0.pageSize, un (p.1.address + j) → p.2[j]? = q.2[j]?

structure Twins (un : Nat → Prop) (addrOf : Loc → Nat) (c0 : PageCache n Q) (asked : List Nat) (s1 s2 : CachedRead n M Q) :
    Prop where
  left : ∀ a, MappedMemory.mapped s1.mem a = none ↔ un a
  right : ∀ a, MappedMemory.mapped s2.mem a = none ↔ un a
  pageSize : s1.cache.pageSize = c0.pageSize
  mask : s1.cache.pageTypeMask = c0.pageTypeMask
  cache : ∃ refs, s2.cache = s1.cache.withRefs refs ∧ SlotTwins un asked s1.cache refs
  clist : s2.clist = s1.clist
  wlist : s2.wlist = s1.wlist
  parts : ∀ p ∈ s1.clist ++ s1.wlist, Tagged addrOf p ∧ c0.InPage p
  pages : List.Forall₂ (PageTwins un asked c0) s1.wlistcache s2.wlistcache
  heap : ∀ l, un (addrOf l) → s1.heap l = s2.heap l

variable {c0 : PageCache n Q} {asked : List Nat} {s1 s2 : CachedRead n M Q}

omit [CacheValidator Q] [PhysicalMemory M] [MappedMemory M] [NeZero n] in
/-- Bytes copied that agree where the address is unmapped. -/
theorem copy_twins {h1 h2 : Loc → UInt8} (hh : ∀ l, un (addrOf l) → h1 l = h2 l) {p : PhysicalAddress × SliceMut}
    (hp : Tagged addrOf p) (hin : c0.InPage p) {l1 l2 : List UInt8} (hl1 : l1.length = p.2.len) (hl2 : l2.length = p.2.len)
    (hl : ∀ k < p.2.len, un (p.1.address + k) → l1[k]? = l2[k]?) :
    ∀ l, un (addrOf l) → copyFromSlice h1 p.2 l1 l = copyFromSlice h2 p.2 l2 l := by
  intro l hu
  by_cases hm : l ∈ p.2.locs
  · obtain ⟨k, hk, rfl⟩ := exists_of_mem_locs hm
    rw [copyFromSlice_mem h1 p.2 hl1 hk, copyFromSlice_mem h2 p.2 hl2 hk]
    rw [hp.addr hk, (hin.add hk).2.1] at hu
    have he := hl k hk hu
    rw [List.getElem?_eq_getElem (by omega), List.getElem?_eq_getElem (by omega), Option.some.injEq] at he
    exact he
  · rw [copyFromSlice_other h1 p.2 l1 hm, copyFromSlice_other h2 p.2 l2 hm]
    exact hh l hu

omit [CacheValidator Q] [PhysicalMemory M] [MappedMemory M] in
/-- The part of a page that both hold. -/
theorem part_twins {c : PageCache n Q} {p : PhysicalAddress × SliceMut} (hin : c.InPage p) {b1 b2 : List UInt8}
    (hb : BufTwins un asked c (c.pageIndex p.1.address) b1 b2)
    (hpage : c.address (c.pageIndex p.1.address) = c.pageOf p.1.address) :
    let off := Address.sub p.1.address (c.pageOf p.1.address)
    (CachedRead.pagePart b1 off p.2.len).length = p.2.len ∧ (CachedRead.pagePart b2 off p.2.len).length = p.2.len ∧
      ∀ k < p.2.len, un (p.1.address + k) →
        (CachedRead.pagePart b1 off p.2.len)[k]? = (CachedRead.pagePart b2 off p.2.len)[k]? := by
  have hadd := c.pageOf_add_mod p.1.address
  have hoff : Address.sub p.1.address (c.pageOf p.1.address) = p.1.address % c.pageSize := by
    rw [Address.sub_eq (c.pageOf_le _) hin.1]
    omega
  have h1 := hb.left
  have h2 := hb.right
  have hlen : p.1.address % c.pageSize + p.2.len ≤ c.pageSize := hin.2
  unfold CachedRead.pagePart
  rw [hoff]
  refine ⟨by rw [List.length_take, List.length_drop]; omega, by rw [List.length_take, List.length_drop]; omega,
    fun k hk hu => ?_⟩
  rw [List.getElem?_take_of_lt hk, List.getElem?_take_of_lt hk, List.getElem?_drop, List.getElem?_drop]
  refine hb.page _ (by omega) ?_
  rw [hpage, ← Nat.add_assoc, hadd]
  exact hu

omit [NeZero n] [CacheValidator Q] [MappedMemory M] [PhysicalMemory M] in
theorem PageTwins.mono {asked' : List Nat} (hsub : asked ⊆ asked') {p q : PhysicalAddress × List UInt8}
    (h : PageTwins un asked c0 p q) : PageTwins un asked' c0 p q := { h with asked := hsub h.asked }

/-- One part of a request. -/
theorem twins_enqueueChunk (h : Twins un addrOf c0 asked s1 s2) {p : PhysicalAddress × SliceMut} (hp : Tagged addrOf p)
    (hin : c0.InPage p) (hcond : ∀ q ∈ asked, q ≠ c0.pageOf p.1.address → c0.pageIndex q = c0.pageIndex p.1.address →
      ∀ j < c0.pageSize, un (c0.pageOf p.1.address + j) → un (q + j)) :
    Twins un addrOf c0 (asked ++ [c0.pageOf p.1.address]) (s1.enqueueChunk p) (s2.enqueueChunk p) := by
  obtain ⟨refs, hcache, hslots⟩ := h.cache
  have hsub : asked ⊆ asked ++ [c0.pageOf p.1.address] := List.subset_append_left _ _
  have hpage : s1.cache.pageOf p.1.address = c0.pageOf p.1.address := pageOf_congr h.pageSize _
  have hin1 : s1.cache.InPage p := hin.congr h.pageSize
  have hpages : List.Forall₂ (PageTwins un (asked ++ [c0.pageOf p.1.address]) c0) s1.wlistcache s2.wlistcache :=
    h.pages.imp fun _ _ => PageTwins.mono hsub
  have hparts : ∀ q ∈ p :: (s1.clist ++ s1.wlist), Tagged addrOf q ∧ c0.InPage q :=
    List.forall_mem_cons.mpr ⟨⟨hp, hin⟩, h.parts⟩
  have hclist : ∀ q ∈ s1.clist ++ [p] ++ s1.wlist, Tagged addrOf q ∧ c0.InPage q := by
    intro q hq
    rw [List.append_assoc, List.singleton_append] at hq
    exact hparts q (List.perm_middle.subset hq)
  have hwlist : ∀ q ∈ s1.clist ++ (s1.wlist ++ [p]), Tagged addrOf q ∧ c0.InPage q := by
    intro q hq
    rw [← List.append_assoc] at hq
    exact hparts q ((List.perm_append_singleton _ _).subset hq)
  unfold CachedRead.enqueueChunk cachedPageMut
  rw [hcache]
  have htaken := takePage_twins hslots p.1.address
  generalize s1.cache.takePage p.1.address false = t1 at htaken
  generalize (s1.cache.withRefs refs).takePage p.1.address false = t2 at htaken
  cases htaken with
  | valid b1 b2 left right bufs page =>
    obtain ⟨hl1, hl2, hl⟩ := part_twins hin1 bufs page
    have hput : ((s1.cache.withRefs refs).lend (s1.cache.pageIndex p.1.address)).putPage (s1.cache.pageOf p.1.address) b2 =
        s1.cache.withRefs refs := putPage_lend (c := s1.cache.withRefs refs) right
    have hoff : (s1.cache.withRefs refs).pageOf p.1.address = s1.cache.pageOf p.1.address := rfl
    simp only [putPage_lend left, hput, hoff]
    exact { h with
      cache := ⟨refs, rfl, hslots.mono hsub⟩, pages := hpages, heap := copy_twins h.heap hp hin hl1 hl2 hl }
  | validatable b1 b2 bufs =>
    have hmark : SlotTwins un (asked ++ [c0.pageOf p.1.address])
        ((s1.cache.lend (s1.cache.pageIndex p.1.address)).markPageForValidation (s1.cache.pageOf p.1.address))
        (Function.update refs (s1.cache.pageIndex p.1.address) none) :=
      fun k => (hslots.lend (s1.cache.pageIndex p.1.address)).rel hsub
        ((s1.cache.lend (s1.cache.pageIndex p.1.address)).markPageForValidation (s1.cache.pageOf p.1.address)) rfl k rfl
    have hoff : (s1.cache.withRefs refs).pageOf p.1.address = s1.cache.pageOf p.1.address := rfl
    simp only [hoff]
    refine { h with
      cache := ⟨_, rfl, hmark⟩, clist := by rw [h.clist]
      parts := hclist, pages := ?_ }
    refine List.rel_append hpages (.cons ?_ .nil)
    rw [hpage]
    refine ⟨rfl, List.mem_append_right _ (List.mem_singleton_self _), bufs.left.trans h.pageSize,
      bufs.right.trans h.pageSize, fun j hj hu => ?_⟩
    rcases bufs.asked j (h.pageSize ▸ hj) with he | ⟨q, hq, hi, hm⟩
    · exact he
    · by_cases hqp : q = c0.pageOf p.1.address
      · rw [hqp] at hm
        exact absurd hu hm
      · rw [pageIndex_congr h.pageSize, pageIndex_congr h.pageSize] at hi
        exact absurd (hcond q hq hqp hi j hj hu) hm
  | toBeValidated =>
    exact { h with
      cache := ⟨_, lend_withRefs _ refs _, fun k => (hslots.lend _).rel hsub _ rfl k rfl⟩, clist := by simp only [h.clist]
      parts := hclist, pages := hpages }
  | invalid =>
    exact { h with
      cache := ⟨_, lend_withRefs _ refs _, fun k => (hslots.lend _).rel hsub _ rfl k rfl⟩, wlist := by simp only [h.wlist]
      parts := hwlist, pages := hpages }

/-! ## The lists -/

omit [CacheValidator Q] [NeZero n] in
/-- A list of reads leaves the bytes at unmapped addresses. -/
theorem copyAll_unmapped {m : M} (hm : ∀ a, MappedMemory.mapped m a = none ↔ un a) (heap0 : Loc → UInt8)
    (ps : List (PhysicalAddress × SliceMut)) : ∀ {heap : Loc → UInt8}, (∀ p ∈ ps, Tagged addrOf p ∧ c0.InPage p) →
    (∀ l, un (addrOf l) → heap l = heap0 l) → ∀ l, un (addrOf l) →
    copyAll heap ((ps.map (·.2)).zip (ps.map fun p =>
      (p.2.locs.map heap0).mapIdx fun j b => (MappedMemory.mapped m (p.1.address + j)).getD b)) l = heap0 l := by
  induction ps with
  | nil => intro heap _ hh l hu; exact hh l hu
  | cons p ps ih =>
    intro heap hps hh
    obtain ⟨hp, hin⟩ := hps p (List.mem_cons_self ..)
    refine ih (fun q hq => hps q (List.mem_cons_of_mem _ hq)) fun l hu => ?_
    by_cases hl : l ∈ p.2.locs
    · obtain ⟨k, hk, rfl⟩ := exists_of_mem_locs hl
      dsimp only
      rw [copyFromSlice_mem heap p.2 (by simp) hk]
      rw [hp.addr hk, (hin.add hk).2.1] at hu
      simp [(hm _).mpr hu, locs_eq]
    · dsimp only
      rw [copyFromSlice_other heap p.2 _ hl]
      exact hh l hu

omit [CacheValidator Q] in
/-- The reads past the cache. -/
theorem twins_readWlist (h : Twins un addrOf c0 asked s1 s2) :
    Twins un addrOf c0 asked s1.readWlist.1 s2.readWlist.1 ∧ s1.readWlist.2 = .ok () ∧ s2.readWlist.2 = .ok () := by
  unfold CachedRead.readWlist
  rw [h.wlist]
  by_cases he : s1.wlist.isEmpty = true
  · rw [if_pos he, if_pos he]
    exact ⟨h, rfl, rfl⟩
  · rw [if_neg he, if_neg he]
    have hwl : ∀ p ∈ s1.wlist, Tagged addrOf p ∧ c0.InPage p := fun p hp => h.parts p (List.mem_append_right _ hp)
    have hm1 := MappedMemory.read_mapped s1.mem (s1.wlist.map fun p => (p.1, p.2.locs.map s1.heap))
    have hm2 := MappedMemory.read_mapped s2.mem (s1.wlist.map fun p => (p.1, p.2.locs.map s2.heap))
    have hr1 := MappedMemory.read_eq s1.mem (s1.wlist.map fun p => (p.1, p.2.locs.map s1.heap))
    have hr2 := MappedMemory.read_eq s2.mem (s1.wlist.map fun p => (p.1, p.2.locs.map s2.heap))
    generalize PhysicalMemory.physReadRawList s1.mem (s1.wlist.map fun p => (p.1, p.2.locs.map s1.heap)) = r1 at hm1 hr1
    generalize PhysicalMemory.physReadRawList s2.mem (s1.wlist.map fun p => (p.1, p.2.locs.map s2.heap)) = r2 at hm2 hr2
    obtain ⟨m1, bufs1, res1⟩ := r1
    obtain ⟨m2, bufs2, res2⟩ := r2
    simp only [Prod.mk.injEq, List.map_map] at hm1 hm2 hr1 hr2
    obtain ⟨rfl, rfl⟩ := hr1
    obtain ⟨rfl, rfl⟩ := hr2
    refine ⟨{ h with
      left := fun a => by rw [hm1]; exact h.left a, right := fun a => by rw [hm2]; exact h.right a
      wlist := rfl, parts := fun p hp => ?_, heap := fun l hu => ?_ }, rfl, rfl⟩
    · rw [List.append_nil] at hp
      exact h.parts p (List.mem_append_left _ hp)
    · have h1 := copyAll_unmapped h.left s1.heap s1.wlist hwl (fun _ _ => rfl) l hu
      have h2 := copyAll_unmapped h.right s2.heap s1.wlist hwl (fun _ _ => rfl) l hu
      exact h1.trans ((h.heap l hu).trans h2.symm)

omit [PhysicalMemory M] [MappedMemory M] in
/-- A page read into the slot of both. -/
theorem twins_validatePage {c : PageCache n Q} {refs : Fin n → Option (List UInt8)} (hs : c.pageSize = c0.pageSize)
    (h : SlotTwins un asked c refs) {p q : PhysicalAddress × List UInt8} (hpq : PageTwins un asked c0 p q)
    {g1 g2 : Nat → Option UInt8} (h1 : ∀ a, g1 a = none ↔ un a) (h2 : ∀ a, g2 a = none ↔ un a) :
    SlotTwins un asked (c.validatePage p.1.address (p.2.mapIdx fun j b => (g1 (p.1.address + j)).getD b))
      (Function.update refs (c.pageIndex p.1.address) (some (q.2.mapIdx fun j b => (g2 (p.1.address + j)).getD b))) := by
  intro k
  rw [validatePage_pageRefs]
  by_cases hk : k = c.pageIndex p.1.address
  · subst hk
    rw [Function.update_self, Function.update_self]
    refine .some ⟨?_, ?_, fun j hj hu => ?_, fun j hj => ?_⟩
    · rw [List.length_mapIdx, hpq.left, validatePage_pageSize, hs]
    · rw [List.length_mapIdx, hpq.right, validatePage_pageSize, hs]
    · rw [validatePage_address, Function.update_self] at hu
      rw [validatePage_pageSize, hs] at hj
      rw [List.getElem?_mapIdx, List.getElem?_mapIdx, (h1 _).mpr hu, (h2 _).mpr hu]
      simpa using hpq.page j hj hu
    · by_cases hu : un (p.1.address + j)
      · rw [validatePage_pageSize, hs] at hj
        rw [List.getElem?_mapIdx, List.getElem?_mapIdx, (h1 _).mpr hu, (h2 _).mpr hu]
        exact Or.inl (by simpa using hpq.page j hj hu)
      · exact Or.inr ⟨p.1.address, hpq.asked, rfl, hu⟩
  · rw [Function.update_of_ne hk, Function.update_of_ne hk]
    refine h.rel (List.Subset.refl _) (c.validatePage p.1.address _) rfl k ?_
    rw [validatePage_address, Function.update_of_ne hk]

/-- The buffers of a list of reads of a memory that holds `g`. -/
def fillMapped (g : Nat → Option UInt8) (w : List (PhysicalAddress × List UInt8)) : List (List UInt8) :=
  w.map fun d => d.2.mapIdx fun j b => (g (d.1.address + j)).getD b

def validateAll (c : PageCache n Q) (l : List ((PhysicalAddress × List UInt8) × List UInt8)) : PageCache n Q :=
  l.foldl (fun c p => c.validatePage p.1.1.address p.2) c

omit [PhysicalMemory M] [MappedMemory M] in
theorem twins_validateAll {g1 g2 : Nat → Option UInt8} (h1 : ∀ a, g1 a = none ↔ un a) (h2 : ∀ a, g2 a = none ↔ un a)
    {w1 w2 : List (PhysicalAddress × List UInt8)} (hw : List.Forall₂ (PageTwins un asked c0) w1 w2) :
    ∀ {c : PageCache n Q} {refs : Fin n → Option (List UInt8)}, c.pageSize = c0.pageSize → SlotTwins un asked c refs →
    ∃ refs', validateAll (c.withRefs refs) (w2.zip (fillMapped g2 w2)) =
        (validateAll c (w1.zip (fillMapped g1 w1))).withRefs refs' ∧
      SlotTwins un asked (validateAll c (w1.zip (fillMapped g1 w1))) refs' ∧
      (validateAll c (w1.zip (fillMapped g1 w1))).pageSize = c.pageSize ∧
      (validateAll c (w1.zip (fillMapped g1 w1))).pageTypeMask = c.pageTypeMask := by
  induction hw with
  | nil => intro c refs _ h; exact ⟨refs, rfl, h, rfl, rfl⟩
  | @cons p q w1 w2 hpq hw ih =>
    intro c refs hs h
    obtain ⟨refs', he, hslots, hps, hmask⟩ := ih (c := c.validatePage p.1.address _) hs (twins_validatePage hs h hpq h1 h2)
    refine ⟨refs', ?_, hslots, hps, hmask⟩
    refine Eq.trans ?_ he
    unfold validateAll fillMapped
    rw [List.map_cons, List.zip_cons_cons, List.foldl_cons, hpq.address]
    rfl

/-- The pages read into their slots. -/
theorem twins_readWlistcache (h : Twins un addrOf c0 asked s1 s2) :
    Twins un addrOf c0 asked s1.readWlistcache.1 s2.readWlistcache.1 ∧ s1.readWlistcache.2 = .ok () ∧
      s2.readWlistcache.2 = .ok () := by
  have hempty : s2.wlistcache.isEmpty = s1.wlistcache.isEmpty := by
    have hp := h.pages
    generalize s1.wlistcache = w1 at hp
    generalize s2.wlistcache = w2 at hp
    cases hp <;> rfl
  unfold CachedRead.readWlistcache
  rw [hempty]
  by_cases he : s1.wlistcache.isEmpty = true
  · rw [if_pos he, if_pos he]
    exact ⟨h, rfl, rfl⟩
  · rw [if_neg he, if_neg he]
    obtain ⟨refs, hcache, hslots⟩ := h.cache
    obtain ⟨refs', heq, hslots', hsize, hmask⟩ := twins_validateAll h.left h.right h.pages h.pageSize hslots
    have hm1 := MappedMemory.read_mapped s1.mem s1.wlistcache
    have hm2 := MappedMemory.read_mapped s2.mem s2.wlistcache
    have hr1 := MappedMemory.read_eq s1.mem s1.wlistcache
    have hr2 := MappedMemory.read_eq s2.mem s2.wlistcache
    generalize PhysicalMemory.physReadRawList s1.mem s1.wlistcache = r1 at hm1 hr1
    generalize PhysicalMemory.physReadRawList s2.mem s2.wlistcache = r2 at hm2 hr2
    obtain ⟨m1, bufs1, res1⟩ := r1
    obtain ⟨m2, bufs2, res2⟩ := r2
    simp only [Prod.mk.injEq] at hm1 hm2 hr1 hr2
    obtain ⟨rfl, rfl⟩ := hr1
    obtain ⟨rfl, rfl⟩ := hr2
    rw [hcache]
    exact ⟨{ h with
      left := fun a => by rw [hm1]; exact h.left a, right := fun a => by rw [hm2]; exact h.right a
      pageSize := hsize.trans h.pageSize, mask := hmask.trans h.mask, cache := ⟨refs', heq, hslots'⟩
      pages := .nil }, rfl, rfl⟩

/-- One part copied out of its page. -/
theorem twins_copyBack (h : Twins un addrOf c0 asked s1 s2) {p : PhysicalAddress × SliceMut} (hp : Tagged addrOf p)
    (hin : c0.InPage p) : Twins un addrOf c0 asked (s1.copyBack p) (s2.copyBack p) ∧ (s1.copyBack p).clist = s1.clist := by
  obtain ⟨refs, hcache, hslots⟩ := h.cache
  have hin1 : s1.cache.InPage p := hin.congr h.pageSize
  unfold CachedRead.copyBack cachedPageMut
  rw [hcache]
  have htaken := takePage_twins hslots p.1.address
  generalize s1.cache.takePage p.1.address false = t1 at htaken
  generalize (s1.cache.withRefs refs).takePage p.1.address false = t2 at htaken
  have hlend := lend_withRefs s1.cache refs (s1.cache.pageIndex p.1.address)
  cases htaken with
  | valid b1 b2 left right bufs page =>
    obtain ⟨hl1, hl2, hl⟩ := part_twins hin1 bufs page
    have hput : ((s1.cache.withRefs refs).lend (s1.cache.pageIndex p.1.address)).putPage (s1.cache.pageOf p.1.address) b2 =
        s1.cache.withRefs refs := putPage_lend (c := s1.cache.withRefs refs) right
    have hoff : (s1.cache.withRefs refs).pageOf p.1.address = s1.cache.pageOf p.1.address := rfl
    have hsize : (s1.cache.withRefs refs).pageSize = s1.cache.pageSize := rfl
    have hal : Address.asPageAligned (s1.cache.pageOf p.1.address) s1.cache.pageSize = s1.cache.pageOf p.1.address :=
      s1.cache.pageOf_pageOf _
    simp only [putPage_lend left, hput, hoff, hsize, hal]
    exact ⟨{ h with cache := ⟨refs, rfl, hslots⟩, heap := copy_twins h.heap hp hin hl1 hl2 hl }, trivial⟩
  | validatable b1 b2 bufs => exact ⟨{ h with cache := ⟨_, hlend, hslots.lend _⟩ }, rfl⟩
  | toBeValidated => exact ⟨{ h with cache := ⟨_, hlend, hslots.lend _⟩ }, rfl⟩
  | invalid => exact ⟨{ h with cache := ⟨_, hlend, hslots.lend _⟩ }, rfl⟩

theorem twins_copyClist (h : Twins un addrOf c0 asked s1 s2) :
    Twins un addrOf c0 asked s1.copyClist s2.copyClist := by
  have hfold : ∀ (ps : List (PhysicalAddress × SliceMut)) {s1 s2 : CachedRead n M Q}, Twins un addrOf c0 asked s1 s2 →
      (∀ p ∈ ps, Tagged addrOf p ∧ c0.InPage p) →
      Twins un addrOf c0 asked (ps.foldl CachedRead.copyBack s1) (ps.foldl CachedRead.copyBack s2) := by
    intro ps
    induction ps with
    | nil => intro s1 s2 h _; exact h
    | cons p ps ih =>
      intro s1 s2 h hps
      obtain ⟨hp, hin⟩ := hps p (List.mem_cons_self ..)
      exact ih (twins_copyBack h hp hin).1 fun q hq => hps q (List.mem_cons_of_mem _ hq)
  have hall := hfold s1.clist.reverse h fun p hp => h.parts p (List.mem_append_left _ (List.mem_reverse.mp hp))
  unfold CachedRead.copyClist
  rw [h.clist]
  exact { hall with clist := rfl, parts := fun p hp => hall.parts p (List.mem_append_right _ hp) }

theorem twins_flush (h : Twins un addrOf c0 asked s1 s2) :
    Twins un addrOf c0 asked s1.flush.1 s2.flush.1 ∧ s1.flush.2 = .ok () ∧ s2.flush.2 = .ok () := by
  obtain ⟨h1, h1l, h1r⟩ := twins_readWlist h
  obtain ⟨h2, h2l, h2r⟩ := twins_readWlistcache h1
  unfold CachedRead.flush
  generalize s1.readWlist = r1 at *
  generalize s2.readWlist = r2 at *
  obtain ⟨t1, res1⟩ := r1
  obtain ⟨t2, res2⟩ := r2
  cases h1l
  cases h1r
  dsimp only at h2 h2l h2r ⊢
  generalize t1.readWlistcache = r1 at *
  generalize t2.readWlistcache = r2 at *
  obtain ⟨u1, res1⟩ := r1
  obtain ⟨u2, res2⟩ := r2
  cases h2l
  cases h2r
  exact ⟨twins_copyClist h2, rfl, rfl⟩

/-! ## The requests -/

/-- The pages a request asks for, in order. -/
def askedPages (c0 : PageCache n Q) (d : PhysicalAddress × SliceMut) : List Nat :=
  (c0.splitToChunks d.1 d.2).map fun p => c0.pageOf p.1.address

/-- Page `p`, asked for after `q`, is mapped wherever `q` is, if they share a slot. -/
def Follows (un : Nat → Prop) (c0 : PageCache n Q) (q p : Nat) : Prop :=
  q ≠ p → c0.pageIndex q = c0.pageIndex p → ∀ j < c0.pageSize, un (p + j) → un (q + j)

theorem twins_foldl (ps : List (PhysicalAddress × SliceMut)) : ∀ {s1 s2 : CachedRead n M Q} {asked : List Nat},
    Twins un addrOf c0 asked s1 s2 → (∀ p ∈ ps, Tagged addrOf p ∧ c0.InPage p) →
    (asked ++ ps.map fun p => c0.pageOf p.1.address).Pairwise (Follows un c0) →
    Twins un addrOf c0 (asked ++ ps.map fun p => c0.pageOf p.1.address) (ps.foldl CachedRead.enqueueChunk s1)
      (ps.foldl CachedRead.enqueueChunk s2) := by
  induction ps with
  | nil => intro s1 s2 asked h _ _; rw [List.map_nil, List.append_nil]; exact h
  | cons p ps ih =>
    intro s1 s2 asked h hps hcond
    obtain ⟨hp, hin⟩ := hps p (List.mem_cons_self ..)
    have hlast : ∀ q ∈ asked, Follows un c0 q (c0.pageOf p.1.address) :=
      fun q hq => (List.pairwise_append.mp hcond).2.2 q hq _ (List.mem_cons_self ..)
    have hstep := twins_enqueueChunk h hp hin fun q hq hne hi => hlast q hq hne (by rw [c0.pageIndex_pageOf]; exact hi)
    rw [List.map_cons, ← List.singleton_append, ← List.append_assoc] at hcond ⊢
    exact ih hstep (fun q hq => hps q (List.mem_cons_of_mem _ hq)) hcond

theorem twins_readLoop (ds : List (PhysicalAddress × SliceMut)) : ∀ {s1 s2 : CachedRead n M Q} {asked : List Nat},
    Twins un addrOf c0 asked s1 s2 →
    (∀ d ∈ ds, Tagged addrOf d ∧ d.1.address < 2 ^ 64 ∧ c0.isCachedPageType d.1.pageType = true) →
    (asked ++ ds.flatMap (askedPages c0)).Pairwise (Follows un c0) →
    Twins un addrOf c0 (asked ++ ds.flatMap (askedPages c0)) (s1.readLoop ds).1 (s2.readLoop ds).1 ∧
      (s1.readLoop ds).2 = .ok () ∧ (s2.readLoop ds).2 = .ok () := by
  induction ds with
  | nil => intro s1 s2 asked h _ _; rw [List.flatMap_nil, List.append_nil]; exact ⟨h, rfl, rfl⟩
  | cons d rest ih =>
    intro s1 s2 asked h hds hcond
    obtain ⟨htag, hlt, hcached⟩ := hds d (List.mem_cons_self ..)
    have hrest := fun e he => hds e (List.mem_cons_of_mem _ he)
    rw [List.flatMap_cons, ← List.append_assoc] at hcond ⊢
    have henq : ∀ s : CachedRead n M Q, s.cache.pageSize = c0.pageSize → s.cache.pageTypeMask = c0.pageTypeMask →
        s.enqueue d = (c0.splitToChunks d.1 d.2).foldl CachedRead.enqueueChunk s := by
      intro s hs hm
      have h1 : s.cache.isCachedPageType d.1.pageType = true := by
        unfold isCachedPageType
        rw [hm]
        exact hcached
      have h2 : s.cache.splitToChunks d.1 d.2 = c0.splitToChunks d.1 d.2 := by
        unfold splitToChunks
        rw [hs]
      unfold CachedRead.enqueue
      rw [if_pos h1, h2]
    obtain ⟨refs, hcache, -⟩ := h.cache
    have he1 := henq s1 h.pageSize h.mask
    have he2 := henq s2 (by rw [hcache]; exact h.pageSize) (by rw [hcache]; exact h.mask)
    obtain ⟨hin, hflat⟩ := c0.splitToChunks_spec hlt d.2
    have htags : ∀ p ∈ c0.splitToChunks d.1 d.2, Tagged addrOf p ∧ c0.InPage p := by
      refine fun p hp => ⟨fun y hy => htag y ?_, (hin p hp).1⟩
      have hmem : y ∈ (c0.splitToChunks d.1 d.2).flatMap fun p => at64 p.1.address (bytes p.2) :=
        List.mem_flatMap.mpr ⟨p, hp, hy⟩
      rw [hflat] at hmem
      exact hmem
    have hq := twins_foldl _ h htags (List.pairwise_append.mp hcond).1
    rw [← he1, ← he2] at hq
    have hlens : (s2.enqueue d).wlist = (s1.enqueue d).wlist ∧ (s2.enqueue d).clist = (s1.enqueue d).clist ∧
        (s2.enqueue d).wlistcache.length = (s1.enqueue d).wlistcache.length :=
      ⟨hq.wlist, hq.clist, hq.pages.length_eq.symm⟩
    unfold CachedRead.readLoop
    simp only [hlens]
    split
    · obtain ⟨hf, hl, hr⟩ := twins_flush hq
      generalize (s1.enqueue d).flush = r1 at *
      generalize (s2.enqueue d).flush = r2 at *
      obtain ⟨t1, res1⟩ := r1
      obtain ⟨t2, res2⟩ := r2
      cases hl
      cases hr
      exact ih hf hrest hcond
    · exact ih hq hrest hcond

end Reads

/-! ## Runs of reads -/

namespace CachedMemoryAccess

variable {n : Nat} [NeZero n] {M Q : Type*} [CacheValidator Q] [PhysicalMemory M] [MappedMemory M] {un : Nat → Prop}

structure AccessTwins (un : Nat → Prop) (c0 : PageCache n Q) (asked : List Nat) (a1 a2 : CachedMemoryAccess n M Q) : Prop where
  left : ∀ a, MappedMemory.mapped a1.mem a = none ↔ un a
  right : ∀ a, MappedMemory.mapped a2.mem a = none ↔ un a
  pageSize : a1.cache.pageSize = c0.pageSize
  mask : a1.cache.pageTypeMask = c0.pageTypeMask
  cache : ∃ refs, a2.cache = a1.cache.withRefs refs ∧ SlotTwins un asked a1.cache refs

variable {c0 : PageCache n Q} {asked : List Nat} {a1 a2 : CachedMemoryAccess n M Q}
  {data : List (PhysicalAddress × List UInt8)}

/-- One list of reads of the two. -/
theorem twins_physRead (h : AccessTwins un c0 asked a1 a2)
    (hdata : ∀ d ∈ data, d.1.address < 2 ^ 64 ∧ c0.isCachedPageType d.1.pageType = true)
    (hcond : (asked ++ (slices data).flatMap (askedPages c0)).Pairwise (Follows un c0)) :
    AccessTwins un c0 (asked ++ (slices data).flatMap (askedPages c0)) (PhysicalMemory.physReadRawList a1 data).1
      (PhysicalMemory.physReadRawList a2 data).1 ∧
    ∀ (i : Nat) (d : PhysicalAddress × List UInt8), data[i]? = some d → ∀ j < d.2.length,
      un ((d.1.address + j) % 2 ^ 64) → (PhysicalMemory.physReadRawList a1 data).2.1[i]?.bind (·[j]?) =
        (PhysicalMemory.physReadRawList a2 data).2.1[i]?.bind (·[j]?) := by
  obtain ⟨refs, hcache, hslots⟩ := h.cache
  have hstart : Twins un (addrIn data) c0 asked
      (⟨updated a1.cache, a1.mem, heapOf data, [], [], []⟩ : CachedRead n M Q)
      ⟨updated a2.cache, a2.mem, heapOf data, [], [], []⟩ :=
    { left := h.left, right := h.right, pageSize := h.pageSize, mask := h.mask
      cache := ⟨refs, by rw [hcache]; rfl, fun i => hslots.rel (List.Subset.refl _) (updated a1.cache) rfl i rfl⟩
      clist := rfl, wlist := rfl, parts := fun p hp => (by cases hp), pages := .nil, heap := fun _ _ => rfl }
  obtain ⟨hend, -, -⟩ := twins_readLoop (slices data) hstart (fun s hs => by
    obtain ⟨htag, d, hd, he, -⟩ := tagged_slices hs
    exact ⟨htag, he ▸ hdata d hd⟩) hcond
  refine ⟨⟨hend.left, hend.right, hend.pageSize, hend.mask, hend.cache⟩, fun i d hd j hj hu => ?_⟩
  show (bufsOf data (CachedRead.readLoop _ (slices data)).1.heap)[i]?.bind (·[j]?) =
    (bufsOf data (CachedRead.readLoop _ (slices data)).1.heap)[i]?.bind (·[j]?)
  rw [getElem?_bufsOf, getElem?_bufsOf, hd]
  simp only [Option.map_some, Option.bind_some, List.getElem?_map, List.getElem?_range hj, Option.some.injEq]
  exact hend.heap (i, j) (by simpa [addrIn, hd] using hu)

/-- Reads one after the other. -/
def readAll (self : CachedMemoryAccess n M Q) (reads : List (List (PhysicalAddress × List UInt8))) : CachedMemoryAccess n M Q :=
  reads.foldl (fun s data => s.apply (.read data)) self

theorem twins_readAll (reads : List (List (PhysicalAddress × List UInt8))) :
    ∀ {a1 a2 : CachedMemoryAccess n M Q} {asked : List Nat}, AccessTwins un c0 asked a1 a2 →
    (∀ data ∈ reads, ∀ d ∈ data, d.1.address < 2 ^ 64 ∧ c0.isCachedPageType d.1.pageType = true) →
    (asked ++ reads.flatMap fun data => (slices data).flatMap (askedPages c0)).Pairwise (Follows un c0) →
    AccessTwins un c0 (asked ++ reads.flatMap fun data => (slices data).flatMap (askedPages c0)) (a1.readAll reads)
      (a2.readAll reads) := by
  induction reads with
  | nil => intro a1 a2 asked h _ _; rw [List.flatMap_nil, List.append_nil]; exact h
  | cons data reads ih =>
    intro a1 a2 asked h hreads hcond
    rw [List.flatMap_cons, ← List.append_assoc] at hcond ⊢
    exact ih (twins_physRead h (hreads data (List.mem_cons_self ..)) (List.pairwise_append.mp hcond).1).1
      (fun l hl => hreads l (List.mem_cons_of_mem _ hl)) hcond

/-- The bytes that reads of cached types leave at unmapped addresses are the same over two
    memories with the same addresses mapped, where of two pages that share a slot the one
    asked for later is mapped wherever the other is. -/
theorem unmapped_reads_same (m1 m2 : M) (hsame : ∀ a, MappedMemory.mapped m1 a = none ↔ MappedMemory.mapped m2 a = none)
    {pageSize : Nat} (hd : pageSize ∣ 2 ^ 64) (hlt : pageSize < 2 ^ 64) (mask : PageType) (validator : Q)
    (reads : List (List (PhysicalAddress × List UInt8))) (data : List (PhysicalAddress × List UInt8))
    (hreads : ∀ l ∈ reads ++ [data], ∀ d ∈ l, d.1.address < 2 ^ 64 ∧ mask.contains d.1.pageType = true)
    (hcond : ((reads ++ [data]).flatMap fun l => (slices l).flatMap
      (askedPages (withPageSize n pageSize hd hlt mask validator))).Pairwise
        (Follows (fun a => MappedMemory.mapped m1 a = none) (withPageSize n pageSize hd hlt mask validator)))
    {i : Nat} {d : PhysicalAddress × List UInt8} (hi : data[i]? = some d) {j : Nat} (hj : j < d.2.length)
    (hu : MappedMemory.mapped m1 ((d.1.address + j) % 2 ^ 64) = none) :
    let cache := withPageSize n pageSize hd hlt mask validator
    (PhysicalMemory.physReadRawList (readAll ⟨m1, cache⟩ reads) data).2.1[i]?.bind (·[j]?) =
      (PhysicalMemory.physReadRawList (readAll ⟨m2, cache⟩ reads) data).2.1[i]?.bind (·[j]?) := by
  intro cache
  have hslots : SlotTwins (fun a => MappedMemory.mapped m1 a = none) [] cache cache.pageRefs :=
    fun k => .some ⟨List.length_replicate, List.length_replicate, fun _ _ _ => rfl, fun _ _ => Or.inl rfl⟩
  have hstart : AccessTwins (fun a => MappedMemory.mapped m1 a = none) cache [] ⟨m1, cache⟩ ⟨m2, cache⟩ :=
    ⟨fun _ => Iff.rfl, fun a => (hsame a).symm, rfl, rfl, cache.pageRefs, rfl, hslots⟩
  rw [List.flatMap_append, List.flatMap_singleton] at hcond
  have hrun := twins_readAll reads hstart (fun l hl => hreads l (List.mem_append_left _ hl)) (List.pairwise_append.mp hcond).1
  exact (twins_physRead hrun (hreads data (List.mem_append_right _ (List.mem_singleton_self _))) hcond).2 i d hi j hj hu

/-- A mapped page at 0 that holds `b`, and half a page at 0x20. -/
def holed (b : UInt8) : MappedPhysicalMemory where
  info := ⟨[⟨0, List.replicate 16 b⟩, ⟨0x20, List.replicate 8 0⟩]⟩
  ready := ⟨by simp [MemoryMapping.finish, SplitAtIndex.length], by simp [MemoryMapping.finish, SplitAtIndex.length],
    by simp [MemoryMapping.finish, SplitAtIndex.length]⟩
  inside := by simp [MemoryMap.Inside, MemoryMapping.finish, SplitAtIndex.length]

theorem holed_mapped_none (b : UInt8) (a : Nat) :
    MappedMemory.mapped (holed b) a = none ↔ ¬ (a < 16 ∨ (0x20 ≤ a ∧ a < 0x28)) := by
  show MemoryMap.lookup _ a = none ↔ _
  unfold MemoryMap.lookup holed
  by_cases h1 : a < 16
  · simp [MemoryMapping.Holds, MemoryMapping.finish, SplitAtIndex.length, h1, bytes]
  · by_cases h2 : 0x20 ≤ a ∧ a < 0x28
    · simp [MemoryMapping.Holds, MemoryMapping.finish, SplitAtIndex.length, h1, h2, bytes]
      omega
    · simp [MemoryMapping.Holds, MemoryMapping.finish, SplitAtIndex.length, h1, h2, bytes]

/-- The half page is asked for before the page that shares its slot. -/
theorem unmapped_reads_same_halfFirst :
    (PhysicalMemory.physReadRawList (⟨holed 1, smallCache stoppedClock⟩ :
      CachedMemoryAccess 2 MappedPhysicalMemory TimedCacheValidator) [(tableAt 0x28, [9]), (tableAt 0, [9])]).2.1[0]?.bind (·[0]?) =
    (PhysicalMemory.physReadRawList (⟨holed 2, smallCache stoppedClock⟩ :
      CachedMemoryAccess 2 MappedPhysicalMemory TimedCacheValidator) [(tableAt 0x28, [9]), (tableAt 0, [9])]).2.1[0]?.bind (·[0]?) := by
  refine unmapped_reads_same (holed 1) (holed 2) (fun a => ?_) ⟨2 ^ 60, rfl⟩ (by decide)
    (PageType.pageTable ||| PageType.readOnly) stoppedClock [] [(tableAt 0x28, [9]), (tableAt 0, [9])] (by decide) ?_
    (i := 0) rfl (j := 0) (by decide) ?_
  · rw [holed_mapped_none, holed_mapped_none]
  · have hasked : (([[(tableAt 0x28, [9]), (tableAt 0, [9])]] : List (List (PhysicalAddress × List UInt8))).flatMap
        fun l => (slices l).flatMap (askedPages (smallCache stoppedClock))) = [0x20, 0] := by decide +kernel
    show List.Pairwise _ (([[(tableAt 0x28, [9]), (tableAt 0, [9])]] : List (List (PhysicalAddress × List UInt8))).flatMap
      fun l => (slices l).flatMap (askedPages (smallCache stoppedClock)))
    rw [hasked]
    refine List.pairwise_pair.mpr fun _ _ j hj hu => ?_
    have hlt : 0 + j < 16 := (Nat.zero_add j).trans_lt hj
    exact absurd (Or.inl hlt) ((holed_mapped_none 1 (0 + j)).mp hu)
  · rw [holed_mapped_none]
    decide

/-- The page at 0 is read, then the half page in the same slot. -/
theorem unmapped_shows_other :
    (∀ b, MappedMemory.mapped (holed b) 0x28 = none) ∧
      (PhysicalMemory.physReadRawList ((⟨holed 1, smallCache stoppedClock⟩ :
        CachedMemoryAccess 2 MappedPhysicalMemory TimedCacheValidator).readAll [[(tableAt 0, [0])]])
          [(tableAt 0x28, [9])]).2 = ([[1]], .ok ()) ∧
      (PhysicalMemory.physReadRawList ((⟨holed 2, smallCache stoppedClock⟩ :
        CachedMemoryAccess 2 MappedPhysicalMemory TimedCacheValidator).readAll [[(tableAt 0, [0])]])
          [(tableAt 0x28, [9])]).2 = ([[2]], .ok ()) := by
  refine ⟨fun b => ?_, by decide +kernel, by decide +kernel⟩
  rw [holed_mapped_none]
  decide

end CachedMemoryAccess

end Jiaa
