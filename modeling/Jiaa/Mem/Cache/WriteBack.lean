/-
  Jiaa.Mem.Cache.WriteBack — what a list of writes leaves in the cache
  (memflow `mem/cache/cached_memory_access.rs`, `phys_write_raw_list`).

  The writes of a cached type go into the pages that are valid, before the memory is asked.

  - `applyWrites_eq`: a memory after a list of writes holds the last byte written to each
    address;
  - `writeBack_overlaid`: so does every valid page, of the writes of a cached type alone.
-/

import Jiaa.Lib.LastWrite
import Jiaa.Mem.Cache.Slots

namespace Jiaa

open Lib.LastWrite

/-! ## Bytes written -/

/-- The bytes of a write, with their addresses. -/
def writtenBytes (a : Nat) (l : List UInt8) : List (UInt8 × Nat) := (at64 a l).map Prod.swap

def written (data : List (PhysicalAddress × List UInt8)) : List (UInt8 × Nat) :=
  data.flatMap fun d => writtenBytes d.1.address d.2

theorem applyWrite_eq (c : Nat → UInt8) (a : Nat) (l : List UInt8) : applyWrite c a l = store c (writtenBytes a l) := by
  unfold applyWrite writtenBytes
  generalize at64 a l = ys
  induction ys generalizing c with
  | nil => rfl
  | cons y ys ih =>
    rw [List.foldl_cons, ih, List.map_cons, ← List.singleton_append, store_append]
    congr 1
    funext x
    by_cases hx : x = y.1
    · simp [store, lastAt, hx]
    · simp [store, lastAt, hx, Ne.symm hx]

theorem applyWrites_eq (c : Nat → UInt8) (data : List (PhysicalAddress × List UInt8)) :
    applyWrites c data = store c (written data) := by
  induction data generalizing c with
  | nil => rfl
  | cons d data ih =>
    rw [applyWrites_cons, ih, applyWrite_eq, ← store_append]
    rfl

/-- Of a write that does not wrap each byte is at its place. -/
theorem lastAt_writtenBytes {a : Nat} {l : List UInt8} (h : a + l.length ≤ 2 ^ 64) (x : Nat) :
    lastAt x (writtenBytes a l) = if a ≤ x then l[x - a]? else none := by
  have hz : writtenBytes a l = l.zipIdx a := by
    apply List.ext_getElem?
    intro k
    unfold writtenBytes
    rw [List.getElem?_map, getElem?_at64, List.getElem?_zipIdx, Option.map_map]
    cases hk : l[k]? with
    | none => rfl
    | some b =>
      have hlt := (List.getElem?_eq_some_iff.mp hk).1
      simp only [Option.map_some, Function.comp_apply, Prod.swap_prod_mk, Option.some.injEq, Prod.mk.injEq, true_and]
      exact Nat.mod_eq_of_lt (by omega)
  rw [hz]
  exact lastAt_zipIdx x l a

namespace PageCache

variable {n : Nat} [NeZero n] {Q : Type*} [CacheValidator Q]

/-- The writes that are written back. -/
def cachedWrites (cache : PageCache n Q) (data : List (PhysicalAddress × List UInt8)) :
    List (PhysicalAddress × List UInt8) :=
  data.filter fun d => cache.isCachedPageType d.1.pageType

/-- `cache'` is `cache` with the bytes of `w` in the pages that are valid. -/
structure Overlaid (w : List (UInt8 × Nat)) (cache cache' : PageCache n Q) : Prop where
  address : cache'.address = cache.address
  marks : cache'.addressOnceValidated = cache.addressOnceValidated
  pageSize : cache'.pageSize = cache.pageSize
  mask : cache'.pageTypeMask = cache.pageTypeMask
  validator : cache'.validator = cache.validator
  lent : ∀ i, cache.pageRefs i = none → cache'.pageRefs i = none
  length : ∀ i buf, cache.pageRefs i = some buf → ∃ buf', cache'.pageRefs i = some buf' ∧ buf'.length = buf.length
  cached : ∀ i buf, cache.Cached i buf →
    cache'.pageRefs i = some (buf.mapIdx fun j b => (lastAt (cache.address i + j) w).getD b)

theorem mapIdx_unwritten {buf : List UInt8} {a : Nat} {w : List (UInt8 × Nat)}
    (h : ∀ j < buf.length, lastAt (a + j) w = none) : buf.mapIdx (fun j b => (lastAt (a + j) w).getD b) = buf := by
  apply List.ext_getElem?
  intro j
  rw [List.getElem?_mapIdx]
  cases hj : buf[j]? with
  | none => rfl
  | some b => rw [Option.map_some, h j (List.getElem?_eq_some_iff.mp hj).1, Option.getD_none]

theorem Overlaid.refl_of {cache : PageCache n Q} {w : List (UInt8 × Nat)}
    (h : ∀ i buf, cache.Cached i buf → ∀ j < buf.length, lastAt (cache.address i + j) w = none) :
    Overlaid w cache cache where
  address := rfl
  marks := rfl
  pageSize := rfl
  mask := rfl
  validator := rfl
  lent _ h := h
  length _ buf h := ⟨buf, h, rfl⟩
  cached i buf hc := by
    rw [hc.1, mapIdx_unwritten (h i buf hc)]

theorem Overlaid.cached_iff {w : List (UInt8 × Nat)} {cache cache' : PageCache n Q} (h : Overlaid w cache cache') (i : Fin n) :
    (cache'.Owns i ↔ cache.Owns i) ∧ isSlotValid cache'.validator i = isSlotValid cache.validator i := by
  unfold Owns
  rw [h.address, h.pageSize, h.validator, pageIndex_congr h.pageSize]
  exact ⟨Iff.rfl, rfl⟩

theorem Overlaid.trans {w v : List (UInt8 × Nat)} {c1 c2 c3 : PageCache n Q} (h : Overlaid w c1 c2) (h' : Overlaid v c2 c3) :
    Overlaid (w ++ v) c1 c3 where
  address := h'.address.trans h.address
  marks := h'.marks.trans h.marks
  pageSize := h'.pageSize.trans h.pageSize
  mask := h'.mask.trans h.mask
  validator := h'.validator.trans h.validator
  lent i hi := h'.lent i (h.lent i hi)
  length i buf hi := by
    obtain ⟨buf', h1, h2⟩ := h.length i buf hi
    obtain ⟨buf'', h3, h4⟩ := h'.length i buf' h1
    exact ⟨buf'', h3, h4.trans h2⟩
  cached i buf hc := by
    obtain ⟨hown, hval⟩ := h.cached_iff i
    have h2 := h'.cached i _ ⟨h.cached i buf hc, hval.trans hc.2.1, hown.mpr hc.2.2⟩
    rw [h2, h.address, List.mapIdx_mapIdx]
    congr 2
    funext j b
    rw [Function.comp_apply, lastAt_append]
    cases lastAt (c1.address i + j) v <;> rfl

/-! ## Write-back -/

theorem Overlaid.unmarked {w : List (UInt8 × Nat)} {cache cache' : PageCache n Q} (h : Overlaid w cache cache')
    (hu : cache.Unmarked) : cache'.Unmarked := by
  have hback : ∀ i buf, cache'.pageRefs i = some buf → ∃ buf0, cache.pageRefs i = some buf0 ∧ buf.length = buf0.length := by
    intro i buf hb
    cases h0 : cache.pageRefs i with
    | none =>
      rw [h.lent i h0] at hb
      cases hb
    | some buf0 =>
      obtain ⟨buf', h1, h2⟩ := h.length i buf0 h0
      rw [hb, Option.some.injEq] at h1
      exact ⟨buf0, rfl, h1 ▸ h2⟩
  refine ⟨fun i buf hb => ?_, fun i buf hb => ?_⟩
  · obtain ⟨buf0, h0, hl⟩ := hback i buf hb
    rw [hl, h.pageSize, hu.length i buf0 h0]
  · obtain ⟨buf0, h0, -⟩ := hback i buf hb
    rw [h.marks, hu.unmarked i buf0 h0]

omit [CacheValidator Q] in
/-- A part of a page leaves the pages of other addresses. -/
theorem lastAt_part {cache : PageCache n Q} {p : PhysicalAddress × List UInt8} (hin : cache.InPage p) {i : Fin n}
    (hown : cache.Owns i) (hne : cache.address i ≠ cache.pageOf p.1.address) {j : Nat} (hj : j < cache.pageSize) :
    lastAt (cache.address i + j) (writtenBytes p.1.address p.2) = none := by
  refine lastAt_eq_none fun y hy he => hne ?_
  obtain ⟨⟨v, b⟩, hy', rfl⟩ := List.mem_map.mp hy
  obtain ⟨k, hk, hv⟩ := mem_at64.mp hy'
  obtain ⟨h1, h2, -⟩ := hin.add (List.getElem?_eq_some_iff.mp hk).1
  rw [h2] at hv
  rw [← h1, ← hv, ← cache.pageOf_add hown.1 hj]
  exact congrArg cache.pageOf he.symm

end PageCache

namespace CachedMemoryAccess

open PageCache

variable {n : Nat} [NeZero n] {Q : Type*} [CacheValidator Q]

theorem getElem?_patch (buf l : List UInt8) {start : Nat} (h : start + l.length ≤ buf.length) (j : Nat) :
    (patch buf start l)[j]? = if start ≤ j ∧ j < start + l.length then l[j - start]? else buf[j]? := by
  have hs : (buf.take start).length = start := by rw [List.length_take]; omega
  have hsl : (buf.take start ++ l).length = start + l.length := by rw [List.length_append, hs]
  unfold patch
  by_cases h1 : j < start
  · rw [List.append_assoc, List.getElem?_append_left (by omega), List.getElem?_take_of_lt h1, if_neg (by omega)]
  · by_cases h2 : j < start + l.length
    · rw [List.getElem?_append_left (by omega), List.getElem?_append_right (by omega), hs, if_pos (by omega)]
    · rw [List.getElem?_append_right (by omega), hsl, List.getElem?_drop, if_neg (by omega)]
      congr 1
      omega

theorem length_patch (buf l : List UInt8) {start : Nat} (h : start + l.length ≤ buf.length) :
    (patch buf start l).length = buf.length := by
  unfold patch
  rw [List.length_append, List.length_append, List.length_take, List.length_drop]
  omega

/-- A part written into the page at `a`. -/
theorem patch_eq (buf l : List UInt8) {a start : Nat} (h : start + l.length ≤ buf.length) (ha : a + buf.length ≤ 2 ^ 64) :
    patch buf start l = buf.mapIdx fun j b => (lastAt (a + j) (writtenBytes (a + start) l)).getD b := by
  apply List.ext_getElem?
  intro j
  rw [getElem?_patch buf l h, List.getElem?_mapIdx, lastAt_writtenBytes (by omega)]
  by_cases hj : j < buf.length
  · rw [List.getElem?_eq_getElem hj, Option.map_some]
    by_cases h1 : start ≤ j
    · rw [if_pos (show a + start ≤ a + j by omega), show a + j - (a + start) = j - start by omega]
      by_cases h2 : j < start + l.length
      · rw [if_pos ⟨h1, h2⟩, List.getElem?_eq_getElem (by omega), Option.getD_some]
      · rw [if_neg (by omega), List.getElem?_eq_none (l := l) (by omega), Option.getD_none]
    · rw [if_neg (by omega), if_neg (by omega), Option.getD_none]
  · rw [List.getElem?_eq_none (l := buf) (by omega), if_neg (by omega)]
    rfl

/-- One part of a write. -/
theorem writeChunk_overlaid {cache : PageCache n Q} (hu : cache.Unmarked) {p : PhysicalAddress × List UInt8}
    (hin : cache.InPage p) : Overlaid (writtenBytes p.1.address p.2) cache (writeChunk cache p) := by
  have htaken := takePage_spec hin.1 fun buf hb => hu.unmarked _ buf hb
  have hother : ∀ i buf, cache.Cached i buf → cache.address i ≠ cache.pageOf p.1.address → ∀ j < buf.length,
      lastAt (cache.address i + j) (writtenBytes p.1.address p.2) = none := by
    intro i buf hc hne j hj
    rw [hu.length i buf hc.1] at hj
    exact lastAt_part hin hc.2.2 hne hj
  have hslot : ∀ i buf, cache.Cached i buf → cache.address i = cache.pageOf p.1.address → i = cache.pageIndex p.1.address := by
    intro i buf hc he
    rw [← hc.2.2.2.2, he, cache.pageIndex_pageOf]
  unfold writeChunk cachedPageMut
  generalize cache.takePage p.1.address false = t at htaken
  cases htaken with
  | valid buf ref page =>
    have hlen := hu.length _ buf ref.1
    have hin2 : p.1.address % cache.pageSize + p.2.length ≤ cache.pageSize := hin.2
    have hadd := cache.pageOf_add_mod p.1.address
    have hoff : Address.sub p.1.address (cache.pageOf p.1.address) = p.1.address % cache.pageSize := by
      rw [Address.sub_eq (cache.pageOf_le _) hin.1]
      omega
    have hend := cache.page_end (cache.pageOf_mod p.1.address) (Nat.lt_of_le_of_lt (cache.pageOf_le _) hin.1)
      (j := cache.pageSize - 1) (by have := cache.pageSize_pos; omega)
    have hput : (cache.lend (cache.pageIndex p.1.address)).pageIndex (cache.pageOf p.1.address) = cache.pageIndex p.1.address :=
      cache.pageIndex_pageOf _
    simp only [putEntry, putPage, hput, hoff]
    refine
      { address := rfl, marks := rfl, pageSize := rfl, mask := rfl, validator := rfl, lent := fun i hi => ?_
        length := fun i b hb => ?_, cached := fun i b hc => ?_ }
    · have hne : i ≠ cache.pageIndex p.1.address := by
        rintro rfl
        rw [ref.1] at hi
        cases hi
      simp only [lend, Function.update_of_ne hne]
      exact hi
    · by_cases hi : i = cache.pageIndex p.1.address
      · subst hi
        rw [ref.1, Option.some.injEq] at hb
        exact ⟨_, Function.update_self .., hb ▸ length_patch buf p.2 (by omega)⟩
      · exact ⟨b, by simp only [lend, Function.update_of_ne hi]; exact hb, rfl⟩
    · by_cases hi : i = cache.pageIndex p.1.address
      · subst hi
        have hb : buf = b := by simpa [ref.1] using hc.1
        subst hb
        simp only [Function.update_self, page]
        rw [patch_eq buf p.2 (a := cache.pageOf p.1.address) (by omega) (by omega), hadd]
      · simp only [lend, Function.update_of_ne hi]
        rw [hc.1, mapIdx_unwritten (hother i b hc fun he => hi (hslot i b hc he))]
  | validatable buf ref stale =>
    have hput : (cache.lend (cache.pageIndex p.1.address)).putEntry ⟨cache.pageOf p.1.address, .validatable buf⟩ = cache :=
      putPage_lend ref
    simp only [hput]
    refine Overlaid.refl_of fun i b hc => hother i b hc fun he => ?_
    have hi := hslot i b hc he
    subst hi
    have hv := stale he
    rw [hc.2.1] at hv
    cases hv
  | toBeValidated marked =>
    refine Overlaid.refl_of fun i b hc => hother i b hc fun he => ?_
    have h1 := hc.1
    rw [hslot i b hc he, marked.1] at h1
    cases h1
  | invalid ref other =>
    refine Overlaid.refl_of fun i b hc => hother i b hc fun he => ?_
    have h1 := hc.1
    rw [hslot i b hc he, ref] at h1
    cases h1

theorem foldl_writeChunk (ps : List (PhysicalAddress × List UInt8)) : ∀ {cache : PageCache n Q}, cache.Unmarked →
    (∀ p ∈ ps, cache.InPage p) →
    Overlaid (ps.flatMap fun p => writtenBytes p.1.address p.2) cache (ps.foldl writeChunk cache) := by
  induction ps with
  | nil => intro cache _ _; exact Overlaid.refl_of fun i b hc j hj => rfl
  | cons p ps ih =>
    intro cache hu hps
    have hstep := writeChunk_overlaid hu (hps p (List.mem_cons_self ..))
    exact hstep.trans (ih (hstep.unmarked hu) fun q hq => (hps q (List.mem_cons_of_mem _ hq)).congr hstep.pageSize)

theorem writeBack_overlaid (data : List (PhysicalAddress × List UInt8)) : ∀ {cache : PageCache n Q}, cache.Unmarked →
    (∀ d ∈ data, d.1.address < 2 ^ 64) → Overlaid (written (cache.cachedWrites data)) cache (writeBack cache data) := by
  induction data with
  | nil => intro cache _ _; exact Overlaid.refl_of fun i b hc j hj => rfl
  | cons d data ih =>
    intro cache hu hdata
    have hrest := fun e he => hdata e (List.mem_cons_of_mem _ he)
    unfold writeBack cachedWrites
    rw [List.foldl_cons, List.filter_cons]
    by_cases hc : cache.isCachedPageType d.1.pageType = true
    · rw [if_pos hc, if_pos hc]
      obtain ⟨hin, hflat⟩ := cache.splitToChunks_spec (hdata d (List.mem_cons_self ..)) d.2
      have hchunks := foldl_writeChunk _ hu fun p hp => (hin p hp).1
      have hw : ((cache.splitToChunks d.1 d.2).flatMap fun p => writtenBytes p.1.address p.2) =
          writtenBytes d.1.address d.2 := by
        unfold writtenBytes
        rw [← List.map_flatMap]
        exact congrArg (List.map Prod.swap) hflat
      rw [hw] at hchunks
      have htail := ih (hchunks.unmarked hu) hrest
      have hmask : ((cache.splitToChunks d.1 d.2).foldl writeChunk cache).cachedWrites data = cache.cachedWrites data := by
        unfold cachedWrites isCachedPageType
        rw [hchunks.mask]
      rw [hmask] at htail
      exact hchunks.trans htail
    · rw [if_neg hc, if_neg hc]
      exact ih hu hrest

end CachedMemoryAccess

end Jiaa
