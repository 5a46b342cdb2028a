/-
  Jiaa.Mem.Cache.Freshness — what a read through the cache returns.

  `Freshness` says which bytes a read may return for an address (`Good`) and which a slot
  may hold (`Slot`): a byte just read from the memory is good and may be held, a byte held
  in a valid slot is good. Whatever it is, a read keeps it.

  - `Reading`: the invariant of the loop. Every byte of the requests seen is good, or in
    one of the lists; every page in `wlistcache` is lent out by its slot and marked;
  - `readLoop_spec`: a read that is `Ok` fills all with good bytes where no page asked for
    was left marked by an earlier read.
-/

import Jiaa.Mem.Cache.Slots

namespace Jiaa

open PageCache

/-- Over a memory that holds `c`, with a validator of which `Now` holds. -/
structure Freshness (n : Nat) (Q : Type*) [CacheValidator Q] (c : Nat → UInt8) where
  Good : Nat → UInt8 → Prop
  Now : Q → Prop
  Slot : Q → Fin n → Nat → UInt8 → Prop
  read : ∀ a, a < 2 ^ 64 → Good a (c a)
  now : ∀ q (i : Fin n), Now q → Now (validateSlot q i)
  valid : ∀ q (i : Fin n), Now q → isSlotValid (validateSlot q i) i = true
  other : ∀ (q : Q) (i j : Fin n), j ≠ i → isSlotValid (validateSlot q i) j = isSlotValid q j
  deliver : ∀ q (i : Fin n) a b, Now q → isSlotValid q i = true → Slot q i a b → Good a b
  refill : ∀ q (i : Fin n) a, Now q → a < 2 ^ 64 → Slot (validateSlot q i) i a (c a)
  keep : ∀ q (i j : Fin n) a b, Now q → j ≠ i → Slot q j a b → Slot (validateSlot q i) j a b

namespace Freshness

variable {n : Nat} [NeZero n] {M Q : Type*} [CacheValidator Q] {c : Nat → UInt8} (F : Freshness n Q c)

/-- A valid slot holds what it may. -/
structure Sound (cache : PageCache n Q) : Prop extends cache.Unmarked where
  now : F.Now cache.validator
  held : ∀ i buf, cache.Cached i buf → ∀ j b, buf[j]? = some b → F.Slot cache.validator i (cache.address i + j) b

/-- The bytes of a part have the addresses they were asked for at. -/
def Tagged (addrOf : Loc → Nat) (p : PhysicalAddress × SliceMut) : Prop :=
  ∀ y ∈ at64 p.1.address p.2.locs, addrOf y.2 = y.1

variable [PhysicalMemory M] [LawfulMemory M]

/-- What a read keeps of the state it started from, also when the memory fails. -/
structure Kept (c0 cache : PageCache n Q) (mem : M) : Prop where
  mem : content mem = c
  pageSize : cache.pageSize = c0.pageSize
  mask : cache.pageTypeMask = c0.pageTypeMask
  sound : F.Sound cache
  lost : ∀ i, c0.pageRefs i = none → cache.pageRefs i = none ∧
    cache.addressOnceValidated i = c0.addressOnceValidated i

structure Reading (addrOf : Loc → Nat) (c0 : PageCache n Q) (s : CachedRead n M Q) (done : Loc → Prop) : Prop
    extends F.Kept c0 s.cache s.mem where
  pages : ∀ p ∈ s.wlistcache, p.1.address % c0.pageSize = 0 ∧ p.1.address < 2 ^ 64 ∧ p.2.length = c0.pageSize
  lent : ∀ p ∈ s.wlistcache, s.cache.pageRefs (c0.pageIndex p.1.address) = none ∧
    s.cache.addressOnceValidated (c0.pageIndex p.1.address) = p.1.address ∧
    c0.pageRefs (c0.pageIndex p.1.address) ≠ none
  apart : s.wlistcache.Pairwise fun p q => c0.pageIndex p.1.address ≠ c0.pageIndex q.1.address
  gone : ∀ i, s.cache.pageRefs i = none → (∃ p ∈ s.wlistcache, c0.pageIndex p.1.address = i) ∨ c0.pageRefs i = none
  clist : ∀ p ∈ s.clist, Tagged addrOf p ∧ c0.InPage p ∧
    ((∃ q ∈ s.wlistcache, q.1.address = c0.pageOf p.1.address) ∨ c0.Marked p.1.address)
  wlist : ∀ p ∈ s.wlist, Tagged addrOf p
  filled : ∀ l, done l → F.Good (addrOf l) (s.heap l) ∨ (∃ p ∈ s.clist, l ∈ p.2.locs ∧ ¬ c0.Marked p.1.address) ∨
    ∃ p ∈ s.wlist, l ∈ p.2.locs

/-! ## Copies -/

section Copies

variable {addrOf : Loc → Nat}

theorem Tagged.addr {p : PhysicalAddress × SliceMut} (h : Tagged addrOf p) {k : Nat} (hk : k < p.2.len) :
    addrOf (p.2.buf, p.2.off + k) = (p.1.address + k) % 2 ^ 64 := by
  refine h ((p.1.address + k) % 2 ^ 64, (p.2.buf, p.2.off + k)) (mem_at64.mpr ⟨k, ?_, rfl⟩)
  rw [locs_eq, List.getElem?_map, List.getElem?_range hk]
  rfl

theorem exists_of_mem_locs {s : SliceMut} {x : Loc} (h : x ∈ s.locs) : ∃ k < s.len, x = (s.buf, s.off + k) := by
  rw [locs_eq] at h
  obtain ⟨k, hk, rfl⟩ := List.mem_map.mp h
  exact ⟨k, List.mem_range.mp hk, rfl⟩

omit [NeZero n] in
/-- Copying good bytes keeps bytes good, and makes those copied good. -/
theorem good_copy {heap : Loc → UInt8} {p : PhysicalAddress × SliceMut} (hp : Tagged addrOf p) {l : List UInt8}
    (hl : l.length = p.2.len) (hg : ∀ k b, l[k]? = some b → F.Good ((p.1.address + k) % 2 ^ 64) b) {x : Loc}
    (hx : F.Good (addrOf x) (heap x) ∨ x ∈ p.2.locs) : F.Good (addrOf x) (copyFromSlice heap p.2 l x) := by
  by_cases hm : x ∈ p.2.locs
  · obtain ⟨k, hk, rfl⟩ := exists_of_mem_locs hm
    rw [copyFromSlice_mem heap p.2 hl hk, hp.addr hk]
    exact hg k _ (List.getElem?_eq_getElem _)
  · rw [copyFromSlice_other heap p.2 l hm]
    exact hx.resolve_right hm

omit [NeZero n] in
/-- What a list of reads leaves in its slices. -/
theorem good_copyAll (ps : List (PhysicalAddress × SliceMut)) : ∀ {heap : Loc → UInt8} {x : Loc},
    (∀ p ∈ ps, Tagged addrOf p) → (F.Good (addrOf x) (heap x) ∨ ∃ p ∈ ps, x ∈ p.2.locs) →
    F.Good (addrOf x) (copyAll heap ((ps.map (·.2)).zip (ps.map fun p => bytesAt c p.1.address p.2.locs.length)) x) := by
  induction ps with
  | nil =>
    intro heap x _ hx
    rcases hx with hx | ⟨p, hp, -⟩
    · exact hx
    · cases hp
  | cons p ps ih =>
    intro heap x hps hx
    refine @ih (copyFromSlice heap p.2 (bytesAt c p.1.address p.2.locs.length)) x
      (fun q hq => hps q (List.mem_cons_of_mem _ hq)) ?_
    have hgood : F.Good (addrOf x) (heap x) ∨ x ∈ p.2.locs → F.Good (addrOf x)
        (copyFromSlice heap p.2 (bytesAt c p.1.address p.2.locs.length) x) := by
      refine F.good_copy (hps p (List.mem_cons_self ..)) (by simp) fun k b hb => ?_
      have hk := (List.getElem?_eq_some_iff.mp hb).1
      rw [length_bytesAt] at hk
      rw [getElem?_bytesAt c _ hk, Option.some.injEq] at hb
      rw [← hb]
      exact F.read _ (Nat.mod_lt _ (by omega))
    rcases hx with hx | ⟨q, hq, hxq⟩
    · exact Or.inl (hgood (Or.inl hx))
    · rcases List.mem_cons.mp hq with rfl | hq
      · exact Or.inl (hgood (Or.inr hxq))
      · exact Or.inr ⟨q, hq, hxq⟩

/-- The part of a page held by a valid slot is good. -/
theorem good_part {cache : PageCache n Q} (h : F.Sound cache) {i : Fin n} {buf : List UInt8} (hc : cache.Cached i buf)
    {p : PhysicalAddress × SliceMut} (hp : cache.InPage p) (hpage : cache.address i = cache.pageOf p.1.address) :
    (CachedRead.pagePart buf (Address.sub p.1.address (cache.pageOf p.1.address)) p.2.len).length = p.2.len ∧
    ∀ k b, (CachedRead.pagePart buf (Address.sub p.1.address (cache.pageOf p.1.address)) p.2.len)[k]? = some b →
      F.Good ((p.1.address + k) % 2 ^ 64) b := by
  have hoff : Address.sub p.1.address (cache.pageOf p.1.address) = p.1.address % cache.pageSize := by
    rw [Address.sub_eq (cache.pageOf_le _) hp.1]
    have := cache.pageOf_add_mod p.1.address
    omega
  have hlen := h.length i buf hc.1
  have hin : p.1.address % cache.pageSize + p.2.len ≤ cache.pageSize := hp.2
  rw [hoff]
  unfold CachedRead.pagePart
  refine ⟨by rw [List.length_take, List.length_drop]; omega, fun k b hb => ?_⟩
  rw [List.getElem?_take] at hb
  split at hb
  · next hk =>
    rw [List.getElem?_drop] at hb
    obtain ⟨-, h2, h3⟩ := hp.add (k := k) hk
    have hgood := F.deliver _ i _ b h.now hc.2.1 (h.held i buf hc _ b hb)
    rw [hpage, ← h3] at hgood
    rwa [h2]
  · cases hb

end Copies

/-! ## Sorting the parts of a request -/

section Sorting

variable {F} {addrOf : Loc → Nat} {c0 : PageCache n Q} {s : CachedRead n M Q} {done : Loc → Prop}

theorem Reading.index (h : F.Reading addrOf c0 s done) (a : Nat) : s.cache.pageIndex a = c0.pageIndex a :=
  pageIndex_congr h.pageSize a

theorem Reading.page (h : F.Reading addrOf c0 s done) (a : Nat) : s.cache.pageOf a = c0.pageOf a :=
  pageOf_congr h.pageSize a

theorem Reading.inPage (h : F.Reading addrOf c0 s done) {T : Type*} [SplitAtIndex T] {p : PhysicalAddress × T}
    (hp : c0.InPage p) : s.cache.InPage p :=
  hp.congr h.pageSize

/-- A mark that the read found, or one of its own. -/
theorem Reading.marked (h : F.Reading addrOf c0 s done) {a : Nat} (hm : s.cache.Marked a) :
    (∃ q ∈ s.wlistcache, q.1.address = c0.pageOf a) ∨ c0.Marked a := by
  obtain ⟨h1, h2⟩ := hm
  rw [h.index] at h1 h2
  rw [h.page] at h2
  rcases h.gone _ h1 with ⟨q, hq, hqi⟩ | h0
  · have h3 := (h.lent q hq).2.1
    rw [hqi, h2] at h3
    exact Or.inl ⟨q, hq, h3.symm⟩
  · have h3 := (h.lost _ h0).2
    rw [h2] at h3
    exact Or.inr ⟨h0, h3.symm⟩

theorem Reading.weaken (h : F.Reading addrOf c0 s done) {done' : Loc → Prop} (hd : ∀ l, done' l → done l) :
    F.Reading addrOf c0 s done' := { h with filled := fun l hl => h.filled l (hd l hl) }

/-- A part that waits to be read from the memory. -/
theorem Reading.toWlist (h : F.Reading addrOf c0 s done) {p : PhysicalAddress × SliceMut} (hp : Tagged addrOf p) :
    F.Reading addrOf c0 { s with wlist := s.wlist ++ [p] } (fun l => done l ∨ l ∈ p.2.locs) := by
  refine { h with wlist := fun q hq => ?_, filled := fun x hx => ?_ }
  · rcases List.mem_append.mp hq with hq | hq
    · exact h.wlist q hq
    · rw [List.mem_singleton.mp hq]
      exact hp
  · rcases hx with hx | hx
    · exact (h.filled x hx).imp_right (Or.imp_right (Exists.imp fun _ => And.imp_left (List.mem_append_left _)))
    · exact Or.inr (Or.inr ⟨p, List.mem_append_right _ (List.mem_singleton_self _), hx⟩)

/-- One part of a request of a cached type. -/
theorem reading_enqueueChunk (h : F.Reading addrOf c0 s done) {p : PhysicalAddress × SliceMut} (hp : Tagged addrOf p)
    (hin : c0.InPage p) :
    F.Reading addrOf c0 (s.enqueueChunk p) (fun l => done l ∨ (l ∈ p.2.locs ∧ ¬ c0.Marked p.1.address)) := by
  have hpage := h.page p.1.address
  have hidx := h.index p.1.address
  unfold CachedRead.enqueueChunk cachedPageMut
  have htaken := takePage_spec hin.1 fun buf hb => h.sound.unmarked _ buf hb
  generalize s.cache.takePage p.1.address false = t at htaken
  cases htaken with
  | valid buf ref page =>
    simp only [putPage_lend ref.1]
    obtain ⟨hlen, hgood⟩ := F.good_part h.sound ref (h.inPage hin) page
    refine { h with filled := fun x hx => ?_ }
    have hcopy : F.Good (addrOf x) (s.heap x) ∨ x ∈ p.2.locs → F.Good (addrOf x) (copyFromSlice s.heap p.2 _ x) :=
      F.good_copy hp hlen hgood
    rcases hx with hx | hx
    · rcases h.filled x hx with hx | hx
      · exact Or.inl (hcopy (Or.inl hx))
      · exact Or.inr hx
    · exact Or.inl (hcopy (Or.inr hx.1))
  | validatable buf ref stale =>
    rw [hpage, hidx]
    rw [hidx] at ref
    have hmi : (s.cache.lend (c0.pageIndex p.1.address)).pageIndex (c0.pageOf p.1.address) = c0.pageIndex p.1.address := by
      rw [← hpage, ← hidx]
      exact s.cache.pageIndex_pageOf _
    have hmp : (s.cache.lend (c0.pageIndex p.1.address)).pageOf (c0.pageOf p.1.address) = c0.pageOf p.1.address := by
      rw [← hpage]
      exact s.cache.pageOf_pageOf _
    have hne : ∀ q ∈ s.wlistcache, c0.pageIndex q.1.address ≠ c0.pageIndex p.1.address := by
      intro q hq e
      have h1 := (h.lent q hq).1
      rw [e, ref] at h1
      cases h1
    simp only [markPageForValidation, hmi, hmp]
    refine
      { mem := h.mem, pageSize := h.pageSize, mask := h.mask,
        sound := ⟨⟨fun i b hb => ?_, fun i b hb => ?_⟩, h.sound.now, fun i b hb => ?_⟩,
        lost := fun i hi => ?_, pages := fun q hq => ?_, lent := fun q hq => ?_, apart := ?_, gone := fun i hi => ?_,
        clist := fun q hq => ?_, wlist := h.wlist, filled := fun x hx => ?_ }
    · by_cases hi : i = c0.pageIndex p.1.address
      · subst hi
        simp [lend] at hb
      · simp only [lend, Function.update_of_ne hi] at hb
        exact h.sound.length i b hb
    · by_cases hi : i = c0.pageIndex p.1.address
      · subst hi
        simp [lend] at hb
      · simp only [lend, Function.update_of_ne hi] at hb ⊢
        exact h.sound.unmarked i b hb
    · obtain ⟨hb1, hb2, hb3⟩ := hb
      by_cases hi : i = c0.pageIndex p.1.address
      · subst hi
        simp [lend] at hb1
      · simp only [lend, Function.update_of_ne hi] at hb1
        exact h.sound.held i b ⟨hb1, hb2, hb3⟩
    · obtain ⟨h1, h2⟩ := h.lost i hi
      have hne' : i ≠ c0.pageIndex p.1.address := by
        rintro rfl
        rw [ref] at h1
        cases h1
      simp only [lend, Function.update_of_ne hne']
      exact ⟨h1, h2⟩
    · rcases List.mem_append.mp hq with hq | hq
      · exact h.pages q hq
      · rw [List.mem_singleton.mp hq]
        refine ⟨c0.pageOf_mod _, Nat.lt_of_le_of_lt (c0.pageOf_le _) hin.1, ?_⟩
        rw [← h.pageSize]
        exact h.sound.length _ buf ref
    · rcases List.mem_append.mp hq with hq | hq
      · simp only [lend, Function.update_of_ne (hne q hq)]
        exact h.lent q hq
      · rw [List.mem_singleton.mp hq]
        simp only [PhysicalAddress.ofAddress, c0.pageIndex_pageOf, lend, Function.update_self, true_and]
        intro h0
        rw [(h.lost _ h0).1] at ref
        cases ref
    · refine List.pairwise_append.mpr ⟨h.apart, List.pairwise_singleton .., fun q hq r hr => ?_⟩
      rw [List.mem_singleton.mp hr]
      simp only [PhysicalAddress.ofAddress, c0.pageIndex_pageOf]
      exact hne q hq
    · by_cases hii : i = c0.pageIndex p.1.address
      · refine Or.inl ⟨_, List.mem_append_right _ (List.mem_singleton_self _), ?_⟩
        rw [hii]
        exact c0.pageIndex_pageOf _
      · simp only [lend, Function.update_of_ne hii] at hi
        rcases h.gone i hi with ⟨q, hq, hqi⟩ | h0
        · exact Or.inl ⟨q, List.mem_append_left _ hq, hqi⟩
        · exact Or.inr h0
    · rcases List.mem_append.mp hq with hq | hq
      · obtain ⟨h1, h2, h3⟩ := h.clist q hq
        exact ⟨h1, h2, h3.imp_left (Exists.imp fun _ => And.imp_left (List.mem_append_left _))⟩
      · rw [List.mem_singleton.mp hq]
        exact ⟨hp, hin, Or.inl ⟨_, List.mem_append_right _ (List.mem_singleton_self _), rfl⟩⟩
    · rcases hx with hx | hx
      · exact (h.filled x hx).imp_right (Or.imp_left (Exists.imp fun _ => And.imp_left (List.mem_append_left _)))
      · exact Or.inr (Or.inl ⟨p, List.mem_append_right _ (List.mem_singleton_self _), hx⟩)
  | toBeValidated marked =>
    refine { h with clist := fun q hq => ?_, filled := fun x hx => ?_ }
    · rcases List.mem_append.mp hq with hq | hq
      · exact h.clist q hq
      · rw [List.mem_singleton.mp hq]
        exact ⟨hp, hin, h.marked marked⟩
    · rcases hx with hx | hx
      · exact (h.filled x hx).imp_right (Or.imp_left (Exists.imp fun _ => And.imp_left (List.mem_append_left _)))
      · exact Or.inr (Or.inl ⟨p, List.mem_append_right _ (List.mem_singleton_self _), hx⟩)
  | invalid ref other =>
    exact (h.toWlist hp).weaken fun x hx => hx.imp_right And.left

theorem reading_foldl (ps : List (PhysicalAddress × SliceMut)) : ∀ {s : CachedRead n M Q} {done : Loc → Prop},
    F.Reading addrOf c0 s done → (∀ p ∈ ps, Tagged addrOf p ∧ c0.InPage p) →
    F.Reading addrOf c0 (ps.foldl CachedRead.enqueueChunk s)
      (fun l => done l ∨ ∃ p ∈ ps, l ∈ p.2.locs ∧ ¬ c0.Marked p.1.address) := by
  induction ps with
  | nil => intro s done h _; exact h.weaken (by simp)
  | cons p ps ih =>
    intro s done h hps
    obtain ⟨h1, h2⟩ := hps p (List.mem_cons_self ..)
    refine (ih (reading_enqueueChunk h h1 h2) fun q hq => hps q (List.mem_cons_of_mem _ hq)).weaken fun l hl => ?_
    rcases hl with hl | ⟨q, hq, hl⟩
    · exact Or.inl (Or.inl hl)
    · rcases List.mem_cons.mp hq with rfl | hq
      · exact Or.inl (Or.inr hl)
      · exact Or.inr ⟨q, hq, hl⟩

variable (c0) in
/-- The `k`th byte of a request is not one of a cached type in a page left marked. -/
def Avoids {T : Type*} (d : PhysicalAddress × T) (k : Nat) : Prop :=
  c0.isCachedPageType d.1.pageType = true → ¬ c0.Marked ((d.1.address + k) % 2 ^ 64)

/-- One request. -/
theorem reading_enqueue (h : F.Reading addrOf c0 s done) {d : PhysicalAddress × SliceMut} (hd : Tagged addrOf d)
    (hlt : d.1.address < 2 ^ 64) : F.Reading addrOf c0 (s.enqueue d)
      (fun l => done l ∨ ∃ k < d.2.len, l = (d.2.buf, d.2.off + k) ∧ Avoids c0 d k) := by
  have hmask : s.cache.isCachedPageType d.1.pageType = c0.isCachedPageType d.1.pageType := by
    unfold isCachedPageType
    rw [h.mask]
  have hsplit : s.cache.splitToChunks d.1 d.2 = c0.splitToChunks d.1 d.2 := by
    unfold splitToChunks
    rw [h.pageSize]
  unfold CachedRead.enqueue
  rw [hmask, hsplit]
  by_cases hc : c0.isCachedPageType d.1.pageType = true
  · rw [if_pos hc]
    obtain ⟨hin, hflat⟩ := c0.splitToChunks_spec hlt d.2
    have hsub : ∀ p ∈ c0.splitToChunks d.1 d.2, ∀ y ∈ at64 p.1.address p.2.locs, y ∈ at64 d.1.address d.2.locs :=
      fun p hp y hy => hflat ▸ List.mem_flatMap.mpr ⟨p, hp, hy⟩
    refine (reading_foldl _ h fun p hp => ⟨fun y hy => hd y (hsub p hp y hy), (hin p hp).1⟩).weaken
      fun l hl => hl.imp_right fun ⟨k, hk, he, hav⟩ => ?_
    have hy : ((d.1.address + k) % 2 ^ 64, l) ∈ at64 d.1.address (bytes d.2) := by
      refine mem_at64.mpr ⟨k, ?_, rfl⟩
      show d.2.locs[k]? = some l
      rw [locs_eq, List.getElem?_map, List.getElem?_range hk, he]
      rfl
    rw [← hflat] at hy
    obtain ⟨p, hp, hyp⟩ := List.mem_flatMap.mp hy
    obtain ⟨j, hj, hv⟩ := mem_at64.mp hyp
    have hjl : j < p.2.locs.length := (List.getElem?_eq_some_iff.mp hj).1
    rw [SliceMut.length_locs] at hjl
    obtain ⟨h1, h2, -⟩ := (hin p hp).1.add (k := j) hjl
    rw [h2] at hv
    refine ⟨p, hp, List.mem_of_getElem? hj, fun hm => hav hc ?_⟩
    rw [hv]
    exact (marked_congr h1).mpr hm
  · rw [if_neg hc]
    refine (h.toWlist hd).weaken fun x hx => hx.imp_right ?_
    rintro ⟨k, hk, rfl, -⟩
    rw [locs_eq]
    exact List.mem_map_of_mem (List.mem_range.mpr hk)

end Sorting

/-! ## Flushing the lists -/

section Flushing

variable {F} {addrOf : Loc → Nat} {c0 : PageCache n Q} {s : CachedRead n M Q} {done : Loc → Prop}

/-- The reads past the cache. -/
theorem reading_readWlist (h : F.Reading addrOf c0 s done) :
    F.Kept c0 s.readWlist.1.cache s.readWlist.1.mem ∧ (s.readWlist.2 = .ok () → F.Reading addrOf c0 s.readWlist.1 done ∧ s.readWlist.1.wlist = []) := by
  unfold CachedRead.readWlist
  by_cases he : s.wlist.isEmpty = true
  · rw [if_pos he]
    exact ⟨h.toKept, fun _ => ⟨h, List.isEmpty_iff.mp he⟩⟩
  · rw [if_neg he]
    have hcont := LawfulMemory.read_content s.mem (s.wlist.map fun p => (p.1, p.2.locs.map s.heap))
    have hok := LawfulMemory.read_ok s.mem (s.wlist.map fun p => (p.1, p.2.locs.map s.heap))
    generalize PhysicalMemory.physReadRawList s.mem (s.wlist.map fun p => (p.1, p.2.locs.map s.heap)) = r at hcont hok
    obtain ⟨mem, bufs, res⟩ := r
    simp only at hcont hok ⊢
    have hmem : content mem = c := hcont.trans h.mem
    refine ⟨{ h.toKept with mem := hmem }, fun hres => ⟨{ h with
      mem := hmem, wlist := by simp, filled := fun x hx => ?_ }, trivial⟩⟩
    have hbufs : bufs = s.wlist.map fun p => bytesAt c p.1.address p.2.locs.length := by
      rw [hok hres, h.mem, List.map_map]
      exact List.map_congr_left fun p _ => by simp
    rw [hbufs]
    rcases h.filled x hx with hg | hl | hl
    · exact Or.inl (F.good_copyAll s.wlist h.wlist (Or.inl hg))
    · exact Or.inr (Or.inl hl)
    · exact Or.inl (F.good_copyAll s.wlist h.wlist (Or.inr hl))

/-- A page read into its slot. -/
theorem sound_validatePage {cache : PageCache n Q} (h : F.Sound cache) {a : Nat} (ha : a % cache.pageSize = 0)
    (hlt : a < 2 ^ 64) : F.Sound (cache.validatePage a (bytesAt c a cache.pageSize)) := by
  refine ⟨⟨fun i buf hb => ?_, fun i buf hb => ?_⟩, F.now _ _ h.now, fun i buf hb j b hj => ?_⟩
  · by_cases hi : i = cache.pageIndex a
    · subst hi
      rw [validatePage_pageRefs, Function.update_self, Option.some.injEq] at hb
      rw [← hb, length_bytesAt, validatePage_pageSize]
    · rw [validatePage_pageRefs, Function.update_of_ne hi] at hb
      exact h.length i buf hb
  · by_cases hi : i = cache.pageIndex a
    · subst hi
      exact Function.update_self ..
    · rw [validatePage_pageRefs, Function.update_of_ne hi] at hb
      rw [validatePage_addressOnceValidated, Function.update_of_ne hi]
      exact h.unmarked i buf hb
  · obtain ⟨hb1, hb2, hb3⟩ := hb
    rw [validatePage_pageRefs] at hb1
    rw [validatePage_validator, validatePage_address]
    by_cases hi : i = cache.pageIndex a
    · subst hi
      rw [Function.update_self, Option.some.injEq] at hb1
      subst hb1
      have hjl := (List.getElem?_eq_some_iff.mp hj).1
      rw [length_bytesAt] at hjl
      have hend := cache.page_end ha hlt hjl
      rw [getElem?_bytesAt c a hjl, Option.some.injEq, Nat.mod_eq_of_lt hend] at hj
      rw [Function.update_self, ← hj]
      exact F.refill _ _ _ h.now hend
    · rw [Function.update_of_ne hi] at hb1 ⊢
      refine F.keep _ _ i _ _ h.now hi (h.held i buf ⟨hb1, ?_, ?_⟩ j b hj)
      · rwa [← F.other _ _ i hi]
      · unfold Owns at hb3 ⊢
        simp only [validatePage_address, validatePage_pageSize, Function.update_of_ne hi] at hb3
        exact hb3

/-- What the pages read leave in the cache. -/
structure Validated (ps : List (PhysicalAddress × List UInt8)) (cache cache' : PageCache n Q) : Prop where
  pageSize : cache'.pageSize = cache.pageSize
  mask : cache'.pageTypeMask = cache.pageTypeMask
  sound : F.Sound cache'
  other : ∀ i, (∀ p ∈ ps, cache.pageIndex p.1.address ≠ i) → cache'.pageRefs i = cache.pageRefs i ∧
    cache'.addressOnceValidated i = cache.addressOnceValidated i ∧ cache'.address i = cache.address i ∧
    isSlotValid cache'.validator i = isSlotValid cache.validator i
  page : ∀ p ∈ ps, ∃ buf, cache'.Cached (cache.pageIndex p.1.address) buf ∧
    cache'.address (cache.pageIndex p.1.address) = p.1.address

theorem validateAll_spec (ps : List (PhysicalAddress × List UInt8)) : ∀ {cache : PageCache n Q}, F.Sound cache →
    (∀ p ∈ ps, p.1.address % cache.pageSize = 0 ∧ p.1.address < 2 ^ 64 ∧ p.2.length = cache.pageSize) →
    (ps.Pairwise fun p q => cache.pageIndex p.1.address ≠ cache.pageIndex q.1.address) →
    Validated (F := F) ps cache ((ps.zip (ps.map fun p => bytesAt c p.1.address p.2.length)).foldl
      (fun cache p => cache.validatePage p.1.1.address p.2) cache) := by
  induction ps with
  | nil =>
    intro cache h _ _
    exact ⟨rfl, rfl, h, fun i _ => ⟨rfl, rfl, rfl, rfl⟩, fun p hp => by cases hp⟩
  | cons p ps ih =>
    intro cache h hps hapart
    obtain ⟨hp1, hp2, hp3⟩ := hps p (List.mem_cons_self ..)
    rw [List.pairwise_cons] at hapart
    rw [List.map_cons, List.zip_cons_cons, List.foldl_cons, hp3]
    have hstep := sound_validatePage h hp1 hp2
    have hidx : ∀ a, (cache.validatePage p.1.address (bytesAt c p.1.address cache.pageSize)).pageIndex a = cache.pageIndex a :=
      fun a => pageIndex_congr rfl a
    have hrest := ih hstep (fun q hq => hps q (List.mem_cons_of_mem _ hq)) (by simpa only [hidx] using hapart.2)
    generalize (ps.zip (ps.map fun p => bytesAt c p.1.address p.2.length)).foldl
      (fun cache p => cache.validatePage p.1.1.address p.2)
      (cache.validatePage p.1.address (bytesAt c p.1.address cache.pageSize)) = cache' at hrest
    refine ⟨hrest.pageSize, hrest.mask, hrest.sound, fun i hi => ?_, fun q hq => ?_⟩
    · obtain ⟨h1, h2, h3, h4⟩ := hrest.other i fun q hq => by
        rw [hidx]
        exact hi q (List.mem_cons_of_mem _ hq)
      have hne : i ≠ cache.pageIndex p.1.address := fun e => hi p (List.mem_cons_self ..) e.symm
      rw [h1, h2, h3, h4]
      simp only [validatePage_pageRefs, validatePage_addressOnceValidated, validatePage_address, validatePage_validator,
        Function.update_of_ne hne, true_and]
      exact F.other _ _ i hne
    · rcases List.mem_cons.mp hq with rfl | hq
      · obtain ⟨h1, -, h3, h4⟩ := hrest.other (cache.pageIndex q.1.address) fun r hr => by
          rw [hidx]
          exact (hapart.1 r hr).symm
        simp only [validatePage_pageRefs, validatePage_address, validatePage_validator, Function.update_self] at h1 h3 h4
        rw [F.valid _ _ h.now] at h4
        have hsize : cache'.pageSize = cache.pageSize := hrest.pageSize
        refine ⟨_, ⟨h1, h4, ?_, ?_, ?_⟩, h3⟩
        · rw [h3, hsize]
          exact hp1
        · rw [h3]
          exact hp2
        · rw [h3]
          exact pageIndex_congr hsize _
      · have hpage := hrest.page q hq
        rw [hidx] at hpage
        exact hpage

variable (F) in
/-- The pages are back in their slots. -/
structure Returned (addrOf : Loc → Nat) (c0 : PageCache n Q) (s : CachedRead n M Q) (done : Loc → Prop) : Prop
    extends F.Kept c0 s.cache s.mem where
  gone : ∀ i, s.cache.pageRefs i = none → c0.pageRefs i = none
  wlist : s.wlist = []
  wlistcache : s.wlistcache = []
  clist : ∀ p ∈ s.clist, Tagged addrOf p ∧ c0.InPage p ∧
    ((∃ buf, s.cache.Cached (c0.pageIndex p.1.address) buf ∧
      s.cache.address (c0.pageIndex p.1.address) = c0.pageOf p.1.address) ∨ c0.Marked p.1.address)
  filled : ∀ l, done l → F.Good (addrOf l) (s.heap l) ∨ ∃ p ∈ s.clist, l ∈ p.2.locs ∧ ¬ c0.Marked p.1.address

/-- The pages read into their slots. -/
theorem reading_readWlistcache (h : F.Reading addrOf c0 s done) (hw : s.wlist = []) :
    F.Kept c0 s.readWlistcache.1.cache s.readWlistcache.1.mem ∧ (s.readWlistcache.2 = .ok () → F.Returned addrOf c0 s.readWlistcache.1 done) := by
  unfold CachedRead.readWlistcache
  by_cases he : s.wlistcache.isEmpty = true
  · rw [if_pos he]
    have hnil := List.isEmpty_iff.mp he
    refine ⟨h.toKept, fun _ => { h with
      gone := fun i hi => (h.gone i hi).resolve_left (by simp [hnil]), wlist := hw, wlistcache := hnil
      clist := fun p hp => ?_, filled := fun x hx => by simpa [hw] using h.filled x hx }⟩
    rcases h.clist p hp with ⟨h1, h2, ⟨q, hq, -⟩ | h0⟩
    · rw [hnil] at hq
      cases hq
    · exact ⟨h1, h2, Or.inr h0⟩
  · rw [if_neg he]
    have hcont := LawfulMemory.read_content s.mem s.wlistcache
    have hok := LawfulMemory.read_ok s.mem s.wlistcache
    generalize PhysicalMemory.physReadRawList s.mem s.wlistcache = r at hcont hok
    obtain ⟨mem, bufs, res⟩ := r
    have hmem : content mem = c := hcont.trans h.mem
    cases res with
    | error e => exact ⟨{ h.toKept with mem := hmem }, fun hres => by cases hres⟩
    | ok u =>
      have hbufs := hok rfl
      simp only [h.mem] at hbufs
      subst hbufs
      dsimp only
      have hidx := h.index
      have hval := validateAll_spec (F := F) s.wlistcache h.sound
        (fun p hp => by rw [h.pageSize]; exact h.pages p hp) (by simpa only [hidx] using h.apart)
      generalize (s.wlistcache.zip (s.wlistcache.map fun p => bytesAt c p.1.address p.2.length)).foldl
        (fun cache p => cache.validatePage p.1.1.address p.2) s.cache = cache' at hval
      have hpage := hval.page
      have hother := hval.other
      simp only [hidx] at hpage hother
      have hkept : F.Kept c0 cache' mem := by
        refine ⟨hmem, hval.pageSize.trans h.pageSize, hval.mask.trans h.mask, hval.sound, fun i hi => ?_⟩
        obtain ⟨h1, h2, -, -⟩ := hother i fun p hp e => (h.lent p hp).2.2 (e ▸ hi)
        rw [h1, h2]
        exact h.lost i hi
      refine ⟨hkept, fun _ => { hkept with
        gone := fun i hi => ?_, wlist := hw, wlistcache := rfl, clist := fun p hp => ?_
        filled := fun x hx => by simpa [hw] using h.filled x hx }⟩
      · by_cases hm : ∃ p ∈ s.wlistcache, c0.pageIndex p.1.address = i
        · obtain ⟨p, hp, rfl⟩ := hm
          obtain ⟨buf, hb, -⟩ := hpage p hp
          rw [hb.1] at hi
          cases hi
        · rw [(hother i fun p hp e => hm ⟨p, hp, e⟩).1] at hi
          exact (h.gone i hi).resolve_left hm
      · rcases h.clist p hp with ⟨h1, h2, ⟨q, hq, hqa⟩ | h0⟩
        · have hq' := hpage q hq
          rw [hqa, c0.pageIndex_pageOf] at hq'
          exact ⟨h1, h2, Or.inl hq'⟩
        · exact ⟨h1, h2, Or.inr h0⟩

/-- One part copied out of its page, which stays. -/
theorem copyBack_spec (h : F.Returned addrOf c0 s done) {p : PhysicalAddress × SliceMut} (hp : p ∈ s.clist) :
    ∃ heap, s.copyBack p = { s with heap := heap } ∧
      ∀ l, F.Good (addrOf l) (s.heap l) ∨ (l ∈ p.2.locs ∧ ¬ c0.Marked p.1.address) → F.Good (addrOf l) (heap l) := by
  obtain ⟨htag, hin, hc⟩ := h.clist p hp
  have hidx : s.cache.pageIndex p.1.address = c0.pageIndex p.1.address := pageIndex_congr h.pageSize _
  have hpage : s.cache.pageOf p.1.address = c0.pageOf p.1.address := pageOf_congr h.pageSize _
  have hin' : s.cache.InPage p := hin.congr h.pageSize
  have htaken := takePage_spec hin.1 fun buf hb => h.sound.unmarked _ buf hb
  unfold CachedRead.copyBack cachedPageMut
  generalize s.cache.takePage p.1.address false = t at htaken
  rcases hc with ⟨buf, hbuf, haddr⟩ | hm
  · rw [← hidx] at hbuf haddr
    rw [← hpage] at haddr
    cases htaken with
    | valid buf' ref page =>
      obtain ⟨hlen, hgood⟩ := F.good_part h.sound ref hin' page
      have hal : Address.asPageAligned (s.cache.pageOf p.1.address) s.cache.pageSize = s.cache.pageOf p.1.address :=
        s.cache.pageOf_pageOf _
      simp only [putPage_lend ref.1, hal]
      exact ⟨_, rfl, fun l hl => F.good_copy htag hlen hgood (hl.imp_right And.left)⟩
    | validatable buf' ref stale =>
      have hv := stale haddr
      rw [hbuf.2.1] at hv
      cases hv
    | toBeValidated marked =>
      have h1 := marked.1
      rw [hbuf.1] at h1
      cases h1
    | invalid ref other =>
      rw [hbuf.1] at ref
      cases ref
  · have hnone := (h.lost _ hm.1).1
    rw [← hidx] at hnone
    refine ⟨s.heap, ?_, fun l hl => hl.resolve_right fun hl => hl.2 hm⟩
    cases htaken with
    | valid buf ref page =>
      have h1 := ref.1
      rw [hnone] at h1
      cases h1
    | validatable buf ref stale =>
      rw [hnone] at ref
      cases ref
    | toBeValidated marked => rfl
    | invalid ref other => rfl

theorem foldl_copyBack (ps : List (PhysicalAddress × SliceMut)) : ∀ {s : CachedRead n M Q} {done : Loc → Prop},
    F.Returned addrOf c0 s done → (∀ p ∈ ps, p ∈ s.clist) →
    ∃ heap, ps.foldl CachedRead.copyBack s = { s with heap := heap } ∧
      ∀ l, F.Good (addrOf l) (s.heap l) ∨ (∃ p ∈ ps, l ∈ p.2.locs ∧ ¬ c0.Marked p.1.address) →
        F.Good (addrOf l) (heap l) := by
  induction ps with
  | nil =>
    intro s done _ _
    exact ⟨s.heap, rfl, fun l hl => hl.resolve_right (by simp)⟩
  | cons p ps ih =>
    intro s done h hps
    obtain ⟨heap, he, hgood⟩ := copyBack_spec h (hps p (List.mem_cons_self ..))
    have h' : F.Returned addrOf c0 { s with heap := heap } (fun l => F.Good (addrOf l) (heap l)) :=
      { h with filled := fun l hl => Or.inl hl }
    obtain ⟨heap', he', hgood'⟩ := ih h' fun q hq => hps q (List.mem_cons_of_mem _ hq)
    refine ⟨heap', by rw [List.foldl_cons, he, he'], fun l hl => hgood' l ?_⟩
    rcases hl with hl | ⟨q, hq, hl⟩
    · exact Or.inl (hgood l (Or.inl hl))
    · rcases List.mem_cons.mp hq with rfl | hq
      · exact Or.inl (hgood l (Or.inr hl))
      · exact Or.inr ⟨q, hq, hl⟩

/-- The parts copied out of the pages read. -/
theorem reading_copyClist (h : F.Returned addrOf c0 s done) :
    F.Returned addrOf c0 s.copyClist done ∧ s.copyClist.clist = [] := by
  obtain ⟨heap, he, hgood⟩ := foldl_copyBack s.clist.reverse h fun p hp => List.mem_reverse.mp hp
  unfold CachedRead.copyClist
  rw [he]
  refine ⟨{ h with clist := fun p hp => (by cases hp), filled := fun l hl => Or.inl (hgood l ?_) }, rfl⟩
  exact (h.filled l hl).imp_right fun ⟨p, hp, hl⟩ => ⟨p, List.mem_reverse.mpr hp, hl⟩

theorem reading_flush (h : F.Reading addrOf c0 s done) :
    F.Kept c0 s.flush.1.cache s.flush.1.mem ∧ (s.flush.2 = .ok () → F.Returned addrOf c0 s.flush.1 done ∧ s.flush.1.clist = []) := by
  unfold CachedRead.flush
  have h1 := reading_readWlist h
  generalize s.readWlist = r at h1
  obtain ⟨s1, res1⟩ := r
  cases res1 with
  | error e => exact ⟨h1.1, fun hres => by cases hres⟩
  | ok u =>
    obtain ⟨h1, hw⟩ := h1.2 rfl
    have h2 := reading_readWlistcache h1 hw
    simp only
    generalize s1.readWlistcache = r at h2
    obtain ⟨s2, res2⟩ := r
    cases res2 with
    | error e => exact ⟨h2.1, fun hres => by cases hres⟩
    | ok u =>
      obtain ⟨h3, hc⟩ := reading_copyClist (h2.2 rfl)
      exact ⟨h3.toKept, fun _ => ⟨h3, hc⟩⟩

/-- With all lists empty a read is at its start. -/
theorem Returned.reading (h : F.Returned addrOf c0 s done) (hc : s.clist = []) : F.Reading addrOf c0 s done where
  toKept := h.toKept
  pages p hp := by rw [h.wlistcache] at hp; cases hp
  lent p hp := by rw [h.wlistcache] at hp; cases hp
  apart := by rw [h.wlistcache]; exact List.Pairwise.nil
  gone i hi := Or.inr (h.gone i hi)
  clist p hp := by rw [hc] at hp; cases hp
  wlist p hp := by rw [h.wlist] at hp; cases hp
  filled l hl := (h.filled l hl).imp_right Or.inl

/-- The bytes a list of requests gives good bytes to. -/
def Served (c0 : PageCache n Q) (ds : List (PhysicalAddress × SliceMut)) (l : Loc) : Prop :=
  ∃ d ∈ ds, ∃ k < d.2.len, l = (d.2.buf, d.2.off + k) ∧ Avoids c0 d k

/-- The loop over the requests. -/
theorem readLoop_spec (ds : List (PhysicalAddress × SliceMut)) : ∀ {s : CachedRead n M Q} {done : Loc → Prop},
    F.Reading addrOf c0 s done → (∀ d ∈ ds, Tagged addrOf d ∧ d.1.address < 2 ^ 64) →
    F.Kept c0 (s.readLoop ds).1.cache (s.readLoop ds).1.mem ∧ ((s.readLoop ds).2 = .ok () → ds ≠ [] →
      F.Returned addrOf c0 (s.readLoop ds).1 (fun l => done l ∨ Served c0 ds l) ∧ (s.readLoop ds).1.clist = []) := by
  induction ds with
  | nil => intro s done h _; exact ⟨h.toKept, fun _ hne => absurd rfl hne⟩
  | cons d rest ih =>
    intro s done h hds
    obtain ⟨h1, h2⟩ := hds d (List.mem_cons_self ..)
    have hrest := fun e he => hds e (List.mem_cons_of_mem _ he)
    have henq := reading_enqueue h h1 h2
    have hdone : ∀ l, (done l ∨ Served c0 (d :: rest) l) →
        (done l ∨ ∃ k < d.2.len, l = (d.2.buf, d.2.off + k) ∧ Avoids c0 d k) ∨ Served c0 rest l := by
      rintro l (hl | ⟨e, he, hl⟩)
      · exact Or.inl (Or.inl hl)
      · rcases List.mem_cons.mp he with rfl | he
        · exact Or.inl (Or.inr hl)
        · exact Or.inr ⟨e, he, hl⟩
    unfold CachedRead.readLoop
    simp only
    split
    · have hflush := reading_flush henq
      generalize (s.enqueue d).flush = r at hflush
      obtain ⟨s1, res⟩ := r
      cases res with
      | error e => exact ⟨hflush.1, fun hres => by cases hres⟩
      | ok u =>
        obtain ⟨hret, hc⟩ := hflush.2 rfl
        obtain ⟨hkept, hok⟩ := ih (hret.reading hc) hrest
        refine ⟨hkept, fun hres _ => ?_⟩
        rcases eq_or_ne rest [] with rfl | hne
        · exact ⟨{ hret with filled := fun l hl => hret.filled l ((hdone l hl).resolve_right (by simp [Served])) }, hc⟩
        · obtain ⟨h3, h4⟩ := hok hres hne
          exact ⟨{ h3 with filled := fun l hl => h3.filled l (hdone l hl) }, h4⟩
    · next hcond =>
      rw [not_or] at hcond
      have hne : rest ≠ [] := fun e => hcond.1 (by simp [e])
      obtain ⟨hkept, hok⟩ := ih henq hrest
      refine ⟨hkept, fun hres _ => ?_⟩
      obtain ⟨h3, h4⟩ := hok hres hne
      exact ⟨{ h3 with filled := fun l hl => h3.filled l (hdone l hl) }, h4⟩

end Flushing

/-! ## Reading through the cache -/

section Access

/-- Every byte of the buffers is one that may be returned for its address. -/
structure Filled (Good : Nat → UInt8 → Prop) (data : List (PhysicalAddress × List UInt8)) (bufs : List (List UInt8)) :
    Prop where
  length : bufs.map List.length = data.map fun d => d.2.length
  good : ∀ (i : Nat) (d : PhysicalAddress × List UInt8) (buf : List UInt8), data[i]? = some d → bufs[i]? = some buf →
    ∀ j b, buf[j]? = some b → Good ((d.1.address + j) % 2 ^ 64) b

/-- Buffers filled with what the memory holds. -/
theorem filled_eq_iff {data : List (PhysicalAddress × List UInt8)} {bufs : List (List UInt8)} :
    Filled (fun a b => b = c a) data bufs ↔ bufs = data.map fun d => bytesAt c d.1.address d.2.length := by
  constructor
  · intro h
    apply List.ext_getElem?
    intro i
    have hlen := congrArg (fun l => l[i]?) h.length
    simp only [List.getElem?_map] at hlen ⊢
    cases hd : data[i]? with
    | none => simpa [hd] using hlen
    | some d =>
      rw [hd] at hlen
      obtain ⟨buf, hb, hl⟩ := Option.map_eq_some_iff.mp hlen
      replace hl : buf.length = d.2.length := hl
      rw [hb, Option.map_some, Option.some.injEq]
      apply List.ext_getElem?
      intro j
      by_cases hj : j < buf.length
      · rw [getElem?_bytesAt c _ (by omega), List.getElem?_eq_getElem hj, Option.some.injEq]
        exact h.good i d buf hd hb j _ (List.getElem?_eq_getElem hj)
      · rw [List.getElem?_eq_none (by omega), List.getElem?_eq_none (by simp; omega)]
  · rintro rfl
    refine ⟨by simp [Function.comp_def], fun i d buf hd hb j b hj => ?_⟩
    rw [List.getElem?_map, hd, Option.map_some, Option.some.injEq] at hb
    subst hb
    have hlt := (List.getElem?_eq_some_iff.mp hj).1
    rw [length_bytesAt] at hlt
    rw [getElem?_bytesAt c _ hlt, Option.some.injEq] at hj
    exact hj.symm

/-- The address of a byte of the buffers. -/
def addrIn (data : List (PhysicalAddress × List UInt8)) (l : Loc) : Nat :=
  ((data[l.1]?.map fun d => d.1.address).getD 0 + l.2) % 2 ^ 64

theorem tagged_slices {data : List (PhysicalAddress × List UInt8)} {s : PhysicalAddress × SliceMut} (hs : s ∈ slices data) :
    Tagged (addrIn data) s ∧ ∃ d ∈ data, s.1 = d.1 ∧ s.2.len = d.2.length := by
  obtain ⟨i, hi⟩ := List.mem_iff_getElem?.mp hs
  rw [getElem?_slices] at hi
  obtain ⟨d, hd, rfl⟩ := Option.map_eq_some_iff.mp hi
  refine ⟨fun y hy => ?_, d, List.mem_of_getElem? hd, rfl, rfl⟩
  obtain ⟨k, hk, he⟩ := mem_at64.mp hy
  have hlt := (List.getElem?_eq_some_iff.mp hk).1
  rw [SliceMut.length_locs] at hlt
  rw [locs_eq, List.getElem?_map, List.getElem?_range hlt, Option.map_some, Option.some.injEq] at hk
  rw [he, ← hk]
  simp [addrIn, hd]

variable {self : CachedMemoryAccess n M Q} {data : List (PhysicalAddress × List UInt8)}

/-- A list of reads through the cache. -/
theorem physRead_spec (hmem : content self.mem = c) (hs : F.Sound (CachedMemoryAccess.updated self.cache))
    (hlt : ∀ d ∈ data, d.1.address < 2 ^ 64) :
    F.Kept (CachedMemoryAccess.updated self.cache) (PhysicalMemory.physReadRawList self data).1.cache
      (PhysicalMemory.physReadRawList self data).1.mem ∧
    ((PhysicalMemory.physReadRawList self data).2.2 = .ok () →
      (∀ i, (PhysicalMemory.physReadRawList self data).1.cache.pageRefs i = none → self.cache.pageRefs i = none) ∧
      ((∀ d ∈ data, ∀ k < d.2.length, Avoids self.cache d k) →
        Filled F.Good data (PhysicalMemory.physReadRawList self data).2.1)) := by
  have hstart : F.Reading (addrIn data) (CachedMemoryAccess.updated self.cache)
      ⟨CachedMemoryAccess.updated self.cache, self.mem, heapOf data, [], [], []⟩ (fun _ => False) :=
    { mem := hmem, pageSize := rfl, mask := rfl, sound := hs, lost := fun i hi => ⟨hi, rfl⟩
      pages := fun p hp => (by cases hp), lent := fun p hp => (by cases hp), apart := List.Pairwise.nil
      gone := fun i hi => Or.inr hi, clist := fun p hp => (by cases hp), wlist := fun p hp => (by cases hp)
      filled := fun l hl => hl.elim }
  have hloop := readLoop_spec (slices data) hstart fun s hs => by
    obtain ⟨htag, d, hd, he, -⟩ := tagged_slices hs
    exact ⟨htag, he ▸ hlt d hd⟩
  show F.Kept _ (CachedRead.readLoop _ (slices data)).1.cache (CachedRead.readLoop _ (slices data)).1.mem ∧
    ((CachedRead.readLoop _ (slices data)).2 = .ok () →
      (∀ i, (CachedRead.readLoop _ (slices data)).1.cache.pageRefs i = none → _) ∧
      (_ → Filled F.Good data (bufsOf data (CachedRead.readLoop _ (slices data)).1.heap)))
  refine ⟨hloop.1, fun hres => ?_⟩
  by_cases hne : slices data = []
  · rw [hne]
    have hnil : data = [] := List.eq_nil_of_length_eq_zero (by rw [← length_slices data, hne]; rfl)
    subst hnil
    exact ⟨fun i hi => hi, fun _ => ⟨by simp [bufsOf, slices], fun i d buf hd => by simp at hd⟩⟩
  · obtain ⟨hret, hc⟩ := hloop.2 hres hne
    refine ⟨hret.gone, fun hav => ⟨map_length_bufsOf _ _, fun i d buf hd hb j b hj => ?_⟩⟩
    rw [getElem?_bufsOf, hd, Option.map_some, Option.some.injEq] at hb
    subst hb
    have hlt := (List.getElem?_eq_some_iff.mp hj).1
    rw [List.length_map, List.length_range] at hlt
    rw [List.getElem?_map, List.getElem?_range hlt, Option.map_some, Option.some.injEq] at hj
    have hs : (d.1, (⟨i, 0, d.2.length⟩ : SliceMut)) ∈ slices data :=
      List.mem_of_getElem? (by rw [getElem?_slices, hd]; rfl)
    have hserved : Served (CachedMemoryAccess.updated self.cache) (slices data) (i, j) :=
      ⟨_, hs, j, hlt, by simp, hav d (List.mem_of_getElem? hd) j hlt⟩
    rcases hret.filled (i, j) (Or.inr hserved) with hg | ⟨p, hp, -⟩
    · rw [hj] at hg
      simpa [addrIn, hd] using hg
    · rw [hc] at hp
      cases hp

end Access

end Freshness

end Jiaa
