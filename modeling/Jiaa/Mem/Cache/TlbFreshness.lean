/-
  Jiaa.Mem.Cache.TlbFreshness — how old the translations are that the cache answers with
  (memflow `mem/cache/cached_vat.rs`, `mem/cache/tlb_cache.rs`, `mem/cache/count_validator.rs`).

  Each call has a translation of its own: the tables may change between any two. A slot is
  counted as validated at the call whose translation its entry holds.

  - `TlbAges.step`: what a call keeps of this;
  - `recent_translations`: every result is that of one of the last calls of the same
    translator, itself included;
  - the inner translators, and the run as long as the counter, for which it is not.
-/

import Jiaa.Mem.Cache.TlbCalls

namespace Jiaa

open ArchMMUSpec (requestBytes failBytes)

/-- A call: whose tables, the tag it gives their entries, and what they translate to. -/
structure TlbCall (L : Type) where
  space : L
  tag : Nat → Nat
  f : Translation

/-- The inner translator serves `f`: constant-offset on the pages, none of them the last. -/
structure TlbServed {V M D : Type} [VirtualTranslate V] [PhysicalMemory M] [ScopedVirtualTranslate D]
    (arch : ArchitectureObj) (f : Translation) (d : D) (vat : V) (mem : M) : Prop where
  serves : Serves f d vat mem
  pageWise : f.PageWise arch.pageSize
  valid : ∀ v t, f v ≠ some (Address.invalid, t)

namespace CachedVirtualTranslate

open TLBCache

variable {n : Nat} [NeZero n] {V : Type} [VirtualTranslate V] {L : Type}

/-- Calls of any translators over any memories, each served its own translation. -/
inductive TlbRun {Q : Type} [CacheValidator Q] (s0 : CachedVirtualTranslate n V Q) :
    List (TlbCall L) → CachedVirtualTranslate n V Q → Prop
  | start : TlbRun s0 [] s0
  | call {hist : List (TlbCall L)} {s s' : CachedVirtualTranslate n V Q} {M D T β : Type} [PhysicalMemory M]
      [ScopedVirtualTranslate D] [SplitAtIndex T] [LawfulSplitAtIndex T β] {mem mem' : M} {d : D}
      {reqs : List (Nat × T)} {o : Outputs T} (space : L) (f : Translation) : TlbRun s0 hist s →
      TlbServed s.arch f d s.vat mem → (∀ r ∈ reqs, r.1 < 2 ^ 64) →
      VirtualTranslate.virtToPhysIter s mem d reqs = some (s', mem', o) →
      TlbRun s0 (hist ++ [⟨space, ScopedVirtualTranslate.translationTableId d, f⟩]) s'

/-- Translators of different tables have no tag in common. -/
def TagsApart (hist : List (TlbCall L)) : Prop :=
  ∀ x ∈ hist, ∀ y ∈ hist, ∀ a b, x.tag a = y.tag b → x.space = y.space

/-- The translations of the last `c` calls of the space of `x`, the last call being `x`. -/
def RecentIn (c : Nat) (hist : List (TlbCall L)) (x : TlbCall L) (f : Translation) : Prop :=
  ∃ j y, (hist ++ [x])[j]? = some y ∧ y.space = x.space ∧ hist.length < j + c ∧ f = y.f

/-- Every slot is empty or counted at the call whose translation it holds. -/
structure TlbAges (arch : ArchitectureObj) (c : Nat) (hist : List (TlbCall L)) (t : TLBCache n CountCacheValidator) :
    Prop where
  last : t.validator.lastCount = hist.length % 2 ^ 64
  count : t.validator.validCount = c
  entries : ∀ i, (t.entries i).virtPage = Address.invalid ∨ ∃ j x, hist[j]? = some x ∧
    (t.entries i).Holds arch.pageSize x.f x.tag ∧ t.validator.count i = (j + 1) % 2 ^ 64

theorem asPageAligned_ne_invalid (arch : ArchitectureObj) (v : Nat) :
    Address.asPageAligned v arch.pageSize ≠ Address.invalid := by
  intro h
  have h1 := Address.asPageAligned_mod v arch.pageSize
  rw [h] at h1
  have h2 : arch.pageSize ∣ 2 ^ 64 - 1 := Nat.dvd_of_mod_eq_zero h1
  have h3 : arch.pageSize ∣ 1 := (Nat.dvd_add_right h2).mp arch.pageSize_dvd
  have := Nat.le_of_dvd (by omega) h3
  have := arch.one_lt
  omega

omit [NeZero n] in
theorem tlbAges_new (arch : ArchitectureObj) (c : Nat) :
    TlbAges arch c ([] : List (TlbCall L)) (TLBCache.new n (CountCacheValidator.new c)) :=
  ⟨rfl, rfl, fun _ => Or.inl rfl⟩

omit [VirtualTranslate V] in
/-- What the cache answers a call with is recent. -/
theorem TlbAges.trusted {arch : ArchitectureObj} {c : Nat} {hist : List (TlbCall L)}
    {s : CachedVirtualTranslate n V CountCacheValidator} (h : TlbAges arch c hist s.tlb) (hlen : hist.length < 2 ^ 64)
    {D : Type} [ScopedVirtualTranslate D] {d : D} {space : L} {f : Translation}
    (htags : TagsApart (hist ++ [⟨space, ScopedVirtualTranslate.translationTableId d, f⟩])) :
    Trusted (RecentIn c hist ⟨space, ScopedVirtualTranslate.translationTableId d, f⟩) s.updated d arch := by
  intro v hv
  obtain ⟨htag, hpage, hvalid⟩ := tryEntry_isSome_iff.mp hv
  rcases h.entries (s.updated.getCacheIndex (Address.asPageAligned v arch.pageSize) arch.pageSize) with
    hnone | ⟨j, x, hx, hholds, hcount⟩
  · exact absurd (hpage.symm.trans hnone) (asPageAligned_ne_invalid arch v)
  · obtain ⟨a, ha⟩ := hholds.tag
    have hj : j < hist.length := (List.getElem?_eq_some_iff.mp hx).1
    refine ⟨x.f, ⟨j, x, by rw [List.getElem?_append_left hj]; exact hx, ?_, ?_, rfl⟩, fun w hw => hholds.page w (hw.trans hpage.symm)⟩
    · exact htags x (List.mem_append_left _ (List.mem_of_getElem? hx)) _ (by simp) a v (ha.symm.trans htag)
    · have hval : CountCacheValidator.wrappingSub ((s.tlb.validator.lastCount + 1) % 2 ^ 64)
          (s.tlb.validator.count (s.updated.getCacheIndex (Address.asPageAligned v arch.pageSize) arch.pageSize)) <
            s.tlb.validator.validCount := of_decide_eq_true hvalid
      rw [h.last, h.count, hcount] at hval
      unfold CountCacheValidator.wrappingSub at hval
      omega

omit [VirtualTranslate V] in
/-- Storing entries that hold the translation of the last call. -/
theorem TlbAges.cacheUncached {arch : ArchitectureObj} {c : Nat} {hist : List (TlbCall L)}
    {s : CachedVirtualTranslate n V CountCacheValidator} (h : TlbAges arch c hist s.tlb) {D T : Type}
    [ScopedVirtualTranslate D] [SplitAtIndex T] {d : D} {uncached : Outputs (Nat × T)} (x : TlbCall L)
    (hstored : ∀ e, Stored d arch uncached e → e.Holds arch.pageSize x.f x.tag) :
    TlbAges arch c (hist ++ [x]) (s.updated.cacheUncached d arch uncached) := by
  have hk : (hist ++ [x])[hist.length]? = some x := List.getElem?_concat_length
  refine cacheUncached_induct (P := TlbAges arch c (hist ++ [x])) (fun t e he ht => ⟨ht.last, ht.count, fun i => ?_⟩) ?_
  · by_cases hi : i = t.getCacheIndex e.virtPage arch.pageSize
    · subst hi
      refine Or.inr ⟨hist.length, x, hk, ?_, ?_⟩
      · rw [entries_setEntry_self]
        exact hstored e he
      · show Function.update t.validator.count _ t.validator.lastCount _ = _
        rw [Function.update_self, ht.last, List.length_append, List.length_singleton]
    · rw [entries_setEntry_of_ne t e hi]
      have hcount : (t.setEntry (t.getCacheIndex e.virtPage arch.pageSize) e).validator.count i = t.validator.count i :=
        Function.update_of_ne (fun hv => hi (Fin.ext hv)) ..
      rw [hcount]
      exact ht.entries i
  · refine ⟨?_, h.count, fun i => ?_⟩
    · show (s.tlb.validator.lastCount + 1) % 2 ^ 64 = _
      rw [h.last, List.length_append, List.length_singleton, Nat.mod_add_mod]
    · rcases h.entries i with hnone | ⟨j, y, hy, hholds⟩
      · exact Or.inl hnone
      · have hj := (List.getElem?_eq_some_iff.mp hy).1
        exact Or.inr ⟨j, y, by rw [List.getElem?_append_left hj]; exact hy, hholds⟩

/-- A call of a run: recent results are delivered, and the ages are kept. -/
theorem TlbAges.step {c : Nat} {hist : List (TlbCall L)} {s : CachedVirtualTranslate n V CountCacheValidator}
    (h : TlbAges s.arch c hist s.tlb) (hlen : hist.length < 2 ^ 64) (hc : 1 ≤ c) {M D T β : Type} [PhysicalMemory M]
    [ScopedVirtualTranslate D] [SplitAtIndex T] [LawfulSplitAtIndex T β] {mem : M} {d : D} {reqs : List (Nat × T)}
    {space : L} {f : Translation} (hserved : TlbServed s.arch f d s.vat mem) (hreqs : ∀ r ∈ reqs, r.1 < 2 ^ 64)
    (htags : TagsApart (hist ++ [⟨space, ScopedVirtualTranslate.translationTableId d, f⟩])) :
    ∃ s' mem' o, VirtualTranslate.virtToPhysIter s mem d reqs = some (s', mem', o) ∧
      Delivers (RecentIn c hist ⟨space, ScopedVirtualTranslate.translationTableId d, f⟩) reqs o ∧ s'.arch = s.arch ∧
      TlbAges s.arch c (hist ++ [⟨space, ScopedVirtualTranslate.translationTableId d, f⟩]) s'.tlb := by
  have hself : RecentIn c hist ⟨space, ScopedVirtualTranslate.translationTableId d, f⟩ f :=
    ⟨hist.length, _, List.getElem?_concat_length, rfl, by omega, rfl⟩
  obtain ⟨s', mem', o, uncached, he, hd, htlb, harch, huncached, hpage⟩ :=
    call_delivers hserved.serves hself (h.trusted hlen htags) hreqs
  refine ⟨s', mem', o, he, hd, harch, ?_⟩
  rw [htlb]
  refine h.cacheUncached _ fun e he => ?_
  refine stored_holds hserved.pageWise hserved.valid (fun x hx => ?_) huncached hpage he
  exact (pieces_spec s.updated d s.arch hreqs x (List.mem_of_mem_filter hx)).2.1

theorem TagsApart.init {hist : List (TlbCall L)} {x : TlbCall L} (h : TagsApart (hist ++ [x])) : TagsApart hist :=
  fun y hy z hz => h y (List.mem_append_left _ hy) z (List.mem_append_left _ hz)

theorem tlbAges_run {arch : ArchitectureObj} {c : Nat} (hc : 1 ≤ c) {vat : V} {hist : List (TlbCall L)}
    {s : CachedVirtualTranslate n V CountCacheValidator}
    (h : TlbRun (new vat (TLBCache.new n (CountCacheValidator.new c)) arch) hist s) (hlen : hist.length ≤ 2 ^ 64)
    (htags : TagsApart hist) : s.arch = arch ∧ TlbAges arch c hist s.tlb := by
  induction h with
  | start => exact ⟨rfl, tlbAges_new arch c⟩
  | call space f _ hserved hreqs he ih =>
    rw [List.length_append, List.length_singleton] at hlen
    obtain ⟨harch, ih⟩ := ih (by omega) htags.init
    subst harch
    obtain ⟨s'', mem'', o', he', -, harch', hages⟩ := ih.step (by omega) hc hserved hreqs htags
    rw [he] at he'
    cases he'
    exact ⟨harch', hages⟩

/-- Every request byte of a call is delivered once, as one of the last `c` calls with its
    translator has it, as long as no more calls are made than the counter counts. -/
theorem recent_translations {arch : ArchitectureObj} {c : Nat} (hc : 1 ≤ c) {vat : V} {hist : List (TlbCall L)}
    {s : CachedVirtualTranslate n V CountCacheValidator}
    (h : TlbRun (new vat (TLBCache.new n (CountCacheValidator.new c)) arch) hist s) (hlen : hist.length < 2 ^ 64)
    {M D T β : Type} [PhysicalMemory M] [ScopedVirtualTranslate D] [SplitAtIndex T] [LawfulSplitAtIndex T β] {mem : M}
    {d : D} {reqs : List (Nat × T)} {space : L} {f : Translation} (hserved : TlbServed arch f d s.vat mem)
    (hreqs : ∀ r ∈ reqs, r.1 < 2 ^ 64)
    (htags : TagsApart (hist ++ [⟨space, ScopedVirtualTranslate.translationTableId d, f⟩])) :
    ∃ s' mem' o, VirtualTranslate.virtToPhysIter s mem d reqs = some (s', mem', o) ∧
      Delivers (RecentIn c hist ⟨space, ScopedVirtualTranslate.translationTableId d, f⟩) reqs o := by
  obtain ⟨rfl, hages⟩ := tlbAges_run hc h (by omega) htags.init
  obtain ⟨s', mem', o, he, hd, -⟩ := hages.step hlen hc hserved hreqs htags
  exact ⟨s', mem', o, he, hd⟩

end CachedVirtualTranslate

/-! ## A translator that answers byte by byte -/

/-- What it answers depends on the address and the length of the piece. -/
structure ByteTranslate where
  answer : Nat → Nat → Option PhysicalAddress
  tableId : Nat

namespace ByteTranslate

/-- The requests in pieces of one byte, or none. -/
def split {T : Type} [SplitAtIndex T] (addrs : List (Nat × T)) : List (Nat × T) :=
  addrs.flatMap fun x => pageChunks x.2 x.1 1

def serve {T : Type} [SplitAtIndex T] (self : ByteTranslate) (pieces : List (Nat × T)) : Outputs T where
  out := pieces.filterMap fun x => (self.answer x.1 (SplitAtIndex.length x.2)).map fun p => (p, x.2)
  outFail := (pieces.filter fun x => (self.answer x.1 (SplitAtIndex.length x.2)).isNone).map fun x =>
    (Error.virtualTranslate, x)

instance : ScopedVirtualTranslate ByteTranslate where
  virtToPhysIter self mem addrs := some (self.serve (split addrs), mem)
  translationTableId self _ := self.tableId

/-- The translation of its bytes. -/
def translation (self : ByteTranslate) : Translation := fun v =>
  (self.answer v 1).map fun p => (Address.add p.address 0, p.pageType)

section Serve

variable {T β : Type} [SplitAtIndex T] [lawful : LawfulSplitAtIndex T β]

include lawful in
theorem split_spec {reqs : List (Nat × T)} (hreqs : ∀ r ∈ reqs, r.1 < 2 ^ 64) :
    ∀ x ∈ split reqs, IsPartOf reqs x ∧ x.1 < 2 ^ 64 ∧ SplitAtIndex.length x.2 ≤ 1 := by
  intro x hx
  obtain ⟨r, hr, hx⟩ := List.mem_flatMap.mp hx
  obtain ⟨h1, h2⟩ := pageChunksBy_inPage (by omega) (by omega) (one_dvd _) (hreqs r hr) r.2 _ x hx
  have h2 := h2 fun _ _ => rfl
  exact ⟨⟨r, hr, pageChunksBy_isPart _ _ _ _ x hx⟩, h1, by omega⟩

theorem requestBytes_split (reqs : List (Nat × T)) :
    requestBytes (β := β) (split reqs) = requestBytes reqs := by
  unfold requestBytes split
  rw [List.flatMap_assoc]
  exact List.flatMap_congr fun x _ => pageChunksBy_flat ..

/-- Every piece is answered once. -/
theorem serve_spec (self : ByteTranslate) (ps : List (Nat × T)) : ∃ ds : List (Nat × PhysicalAddress × T),
    (self.serve ps).out = ds.map (·.2) ∧
      (∀ d ∈ ds, (d.1, d.2.2) ∈ ps ∧ self.answer d.1 (SplitAtIndex.length d.2.2) = some d.2.1) ∧
      (∀ x ∈ (self.serve ps).outFail, x.2 ∈ ps ∧ self.answer x.2.1 (SplitAtIndex.length x.2.2) = none) ∧
      ((ds.flatMap fun d => at64 d.1 (bytes d.2.2)) ++ failBytes (self.serve ps).outFail).Perm
        (requestBytes (β := β) ps) := by
  refine ⟨ps.filterMap fun x => (self.answer x.1 (SplitAtIndex.length x.2)).map fun p => (x.1, p, x.2), ?_,
    fun d hd => ?_, fun x hx => ?_, ?_⟩
  · rw [List.map_filterMap]
    refine congrArg (ps.filterMap ·) (funext fun x => ?_)
    rw [Option.map_map]
    rfl
  · obtain ⟨x, hx, he⟩ := List.mem_filterMap.mp hd
    obtain ⟨p, hp, rfl⟩ := Option.map_eq_some_iff.mp he
    exact ⟨hx, hp⟩
  · obtain ⟨y, hy, rfl⟩ := List.mem_map.mp hx
    exact ⟨List.mem_of_mem_filter hy, by simpa using (List.mem_filter.mp hy).2⟩
  · induction ps with
    | nil => exact List.Perm.nil
    | cons x ps ih =>
      unfold serve requestBytes failBytes at ih ⊢
      cases h : self.answer x.1 (SplitAtIndex.length x.2) with
      | none =>
        rw [List.filterMap_cons_none (by rw [h]; rfl), List.filter_cons_of_pos (by simp [h]), List.map_cons,
          List.flatMap_cons, List.flatMap_cons]
        refine List.Perm.trans ?_ (ih.append_left _)
        rw [← List.append_assoc, ← List.append_assoc]
        exact List.perm_append_comm.append_right _
      | some p =>
        rw [List.filterMap_cons_some (by rw [h]; rfl), List.filter_cons_of_neg (by simp [h]), List.flatMap_cons,
          List.flatMap_cons, List.append_assoc]
        exact ih.append_left _

/-- Where an empty piece is answered as its address is, the translation is served. -/
theorem serve_delivers {self : ByteTranslate} (hempty : ∀ v, self.answer v 0 = self.answer v 1) (ps : List (Nat × T))
    (hps : ∀ x ∈ ps, x.1 < 2 ^ 64 ∧ SplitAtIndex.length x.2 ≤ 1) :
    Delivers (· = self.translation) ps (self.serve ps) := by
  obtain ⟨ds, hout, hmapped, hunmapped, hbytes⟩ := self.serve_spec ps
  -- a piece is its one address
  have hans : ∀ x ∈ ps, ∀ i ≤ SplitAtIndex.length x.2 - 1, self.translation ((x.1 + i) % 2 ^ 64) =
      (self.answer x.1 (SplitAtIndex.length x.2)).map fun p => (Address.add p.address i, p.pageType) := by
    intro x hx i hi
    obtain ⟨hv, hlen⟩ := hps x hx
    have hi : i = 0 := by omega
    rw [hi, Nat.add_zero, Nat.mod_eq_of_lt hv, translation]
    rcases Nat.le_one_iff_eq_zero_or_eq_one.mp hlen with h | h
    · rw [h, hempty]
    · rw [h]
  refine ⟨ds, hout, fun d hd => ?_, fun x hx => ?_, hbytes⟩
  · obtain ⟨hmem, he⟩ := hmapped d hd
    refine ⟨⟨_, hmem, .whole⟩, _, rfl, fun i hi => ?_⟩
    rw [hans _ hmem i hi, he, Option.map_some]
  · obtain ⟨hmem, he⟩ := hunmapped x hx
    refine ⟨⟨_, hmem, .whole⟩, _, rfl, fun i hi => ?_⟩
    rw [hans _ hmem i hi, he, Option.map_none]

end Serve

theorem serves {self : ByteTranslate} (hempty : ∀ v, self.answer v 0 = self.answer v 1)
    (hpage : ∀ v len p, self.answer v len = some p → p.hasPage = true) {M : Type} [PhysicalMemory M] (mem : M) :
    Serves self.translation self DirectTranslate.mk mem := by
  refine ⟨fun _ _ => True, trivial, fun vat mem _ {T β} _ _ reqs hreqs => ?_⟩
  have hps := split_spec hreqs
  refine ⟨_, _, _, rfl, trivial, ?_, fun x hx => ?_⟩
  · refine (serve_delivers hempty (split reqs) fun x hx => (hps x hx).2).of_pieces (fun x hx => (hps x hx).1) ?_
    rw [requestBytes_split]
  · obtain ⟨y, -, hy⟩ := List.mem_filterMap.mp hx
    obtain ⟨p, hp, rfl⟩ := Option.map_eq_some_iff.mp hy
    exact hpage _ _ p hp

/-- Every byte is delivered as `f` has it. -/
def ExactBytes (self : ByteTranslate) : Prop :=
  ∀ {M T β : Type} [PhysicalMemory M] [SplitAtIndex T] [LawfulSplitAtIndex T β] (mem : M) (reqs : List (Nat × T)),
    (∀ r ∈ reqs, r.1 < 2 ^ 64) → ∃ (o : Outputs T) (ds : List (Nat × PhysicalAddress × T)),
      ScopedVirtualTranslate.virtToPhysIter self mem reqs = some (o, mem) ∧ o.out = ds.map (·.2) ∧
      (∀ d ∈ ds, ∀ i < SplitAtIndex.length d.2.2,
        self.translation ((d.1 + i) % 2 ^ 64) = some (Address.add d.2.1.address i, d.2.1.pageType)) ∧
      (∀ x ∈ o.outFail, ∀ i < SplitAtIndex.length x.2.2, self.translation ((x.2.1 + i) % 2 ^ 64) = none) ∧
      ((ds.flatMap fun d => at64 d.1 (bytes d.2.2)) ++ failBytes o.outFail).Perm (requestBytes (β := β) reqs)

theorem exactBytes (self : ByteTranslate) : self.ExactBytes := by
  intro M T β _ _ _ mem reqs hreqs
  have hps := split_spec hreqs
  obtain ⟨ds, hout, hmapped, hunmapped, hbytes⟩ := self.serve_spec (split reqs)
  rw [requestBytes_split] at hbytes
  -- a piece with a byte is that byte
  have hans : ∀ x ∈ split reqs, ∀ i < SplitAtIndex.length x.2, self.translation ((x.1 + i) % 2 ^ 64) =
      (self.answer x.1 (SplitAtIndex.length x.2)).map fun p => (Address.add p.address i, p.pageType) := by
    intro x hx i hi
    obtain ⟨-, hv, hlen⟩ := hps x hx
    have hi0 : i = 0 := by omega
    have hlen1 : SplitAtIndex.length x.2 = 1 := by omega
    rw [hi0, Nat.add_zero, Nat.mod_eq_of_lt hv, translation, hlen1]
  refine ⟨_, ds, rfl, hout, fun d hd i hi => ?_, fun x hx i hi => ?_, hbytes⟩
  · obtain ⟨hmem, he⟩ := hmapped d hd
    rw [hans _ hmem i hi, he, Option.map_some]
  · obtain ⟨hmem, he⟩ := hunmapped x hx
    rw [hans _ hmem i hi, he, Option.map_none]

/-! ## Translations that are not returned -/

/-- One page is mapped. -/
def onePage (frame : Nat → Nat → PhysicalAddress) : ByteTranslate :=
  ⟨fun v len => if v / 4096 = 1 then some (frame v len) else none, 5⟩

/-- Its frame is at its own address. -/
def samePage : ByteTranslate := onePage fun v _ => PhysicalAddress.withPage v PageType.none 4096

/-- Physical addresses without the page they are in. -/
def noPageInfo : ByteTranslate := onePage fun v _ => PhysicalAddress.ofAddress v

/-- The frame at the top of the address space. -/
def topFrame : ByteTranslate :=
  onePage fun v _ => PhysicalAddress.withPage (2 ^ 64 - 4096 + v % 4096) PageType.none 4096

/-- An empty buffer is answered with another frame. -/
def emptyElsewhere : ByteTranslate :=
  onePage fun v len => PhysicalAddress.withPage (if len = 0 then 0x8000 else v) PageType.none 4096

/-- Two types in one page. -/
def mixedTypes : ByteTranslate :=
  onePage fun v _ => PhysicalAddress.withPage v (if v % 2 = 0 then PageType.writeable else PageType.readOnly) 4096

/-- Nothing is mapped. -/
def unmapped : ByteTranslate := ⟨fun _ _ => none, 5⟩

theorem onePage_pageWise {frame : Nat → Nat → PhysicalAddress} {b : Nat} {t : PageType} (hb : b % 4096 = 0)
    (hlt : b < 2 ^ 64)
    (h : ∀ v, v / 4096 = 1 → (Address.add (frame v 1).address 0, (frame v 1).pageType) = (b + v % 4096, t)) :
    (onePage frame).translation.PageWise 4096 := by
  intro p
  by_cases hp : p = 1
  · subst hp
    refine Or.inr ⟨b, t, hb, hlt, fun v hv => ?_⟩
    simp only [translation, onePage, if_pos hv, Option.map_some, h v hv]
  · refine Or.inl fun v hv => ?_
    simp only [translation, onePage, if_neg (show ¬ v / 4096 = 1 by omega), Option.map_none]

/-- What a request gets in the call after another one, the cache having one slot. -/
def secondCall (d : ByteTranslate) (first second : List (Nat × Nat)) : Option (Outputs Nat) :=
  (VirtualTranslate.virtToPhysIter (CachedVirtualTranslate.new DirectTranslate.mk
      (TLBCache.new 1 (CountCacheValidator.new 2)) x64Obj) (FlatMemory.ofWords []) d first).bind fun (s, mem, _) =>
    (VirtualTranslate.virtToPhysIter s mem d second).map fun (_, _, o) => o

/-- A call for nothing. -/
def idle (d : ByteTranslate) (s : CachedVirtualTranslate 1 DirectTranslate CountCacheValidator) :
    CachedVirtualTranslate 1 DirectTranslate CountCacheValidator :=
  ((VirtualTranslate.virtToPhysIter s (FlatMemory.ofWords []) d ([] : List (Nat × Nat))).map (·.1)).getD s

/-- The cache after one call for a byte, its slots valid for one call. -/
def calledOnce : CachedVirtualTranslate 1 DirectTranslate CountCacheValidator :=
  let s := CachedVirtualTranslate.new DirectTranslate.mk (TLBCache.new 1 (CountCacheValidator.new 1)) x64Obj
  ((VirtualTranslate.virtToPhysIter s (FlatMemory.ofWords []) samePage [(0x1000, (1 : Nat))]).map (·.1)).getD s

theorem idle_iterate (d : ByteTranslate) (m : Nat) {s : CachedVirtualTranslate 1 DirectTranslate CountCacheValidator}
    (hc : s.tlb.validator.lastCount < 2 ^ 64) (hh : s.hitc < 2 ^ 64) (hm : s.misc < 2 ^ 64) :
    (idle d)^[m] s = { s with tlb := { s.tlb with validator := { s.tlb.validator with
      lastCount := (s.tlb.validator.lastCount + m) % 2 ^ 64 } } } := by
  induction m with
  | zero => rw [Nat.add_zero, Nat.mod_eq_of_lt hc]; rfl
  | succ m ih =>
    have hstep : ∀ s : CachedVirtualTranslate 1 DirectTranslate CountCacheValidator,
        idle d s = ⟨s.vat, s.updated, s.arch, Address.add s.hitc 0, Address.add s.misc 0⟩ := fun _ => rfl
    rw [Function.iterate_succ_apply', ih, hstep]
    simp only [CachedVirtualTranslate.updated, CacheValidator.updateValidity, Address.add, Nat.add_zero,
      Nat.mod_eq_of_lt hh, Nat.mod_eq_of_lt hm, Nat.mod_add_mod, Nat.add_assoc]

theorem samePage_pageWise : samePage.translation.PageWise 4096 :=
  onePage_pageWise (b := 0x1000) (t := PageType.none) (by omega) (by omega) fun v hv => by
    simp only [PhysicalAddress.withPage, Address.add]
    rw [show (v + 0) % 2 ^ 64 = 0x1000 + v % 4096 by omega]

/-- The last call finds the slot of the first one valid again, `2 ^ 64` calls later. -/
theorem counter_comes_round :
    (VirtualTranslate.virtToPhysIter ((idle unmapped)^[2 ^ 64 - 1] calledOnce) (FlatMemory.ofWords []) unmapped
      [(0x1000, (1 : Nat))]).map (fun r => r.2.2) = some ⟨[(PhysicalAddress.withPage 0x1000 PageType.none 4096, 1)], []⟩ := by
  rw [idle_iterate unmapped _ (by decide +kernel) (by decide +kernel) (by decide +kernel)]
  decide +kernel

/-- Translators that deliver every byte as a constant-offset translation has it, and the
    results of a later call that no call has. -/
theorem translations_not_returned :
    (noPageInfo.ExactBytes ∧ noPageInfo.translation.PageWise 4096 ∧
      noPageInfo.translation 0x1000 = some (0x1000, PageType.unknown) ∧
      secondCall noPageInfo [(0x1000, 1)] [(0x1000, 1)] = some ⟨[], [(.virtualTranslate, 0x1000, 1)]⟩) ∧
    (topFrame.ExactBytes ∧ topFrame.translation.PageWise 4096 ∧
      topFrame.translation 0x1000 = some (2 ^ 64 - 4096, PageType.none) ∧
      secondCall topFrame [(0x1fff, 1)] [(0x1000, 1)] = some ⟨[], [(.virtualTranslate, 0x1000, 1)]⟩) ∧
    (emptyElsewhere.ExactBytes ∧ emptyElsewhere.translation.PageWise 4096 ∧
      emptyElsewhere.translation 0x1000 = some (0x1000, PageType.none) ∧
      secondCall emptyElsewhere [(0x1000, 0)] [(0x1000, 1)] =
        some ⟨[(PhysicalAddress.withPage 0x8000 PageType.none 4096, 1)], []⟩) ∧
    (mixedTypes.ExactBytes ∧
      Translation.PageWise 4096 (fun v => (mixedTypes.translation v).map fun r => (r.1, PageType.none)) ∧
      mixedTypes.translation 0x1001 = some (0x1001, PageType.readOnly) ∧
      secondCall mixedTypes [(0x1000, 1)] [(0x1001, 1)] =
        some ⟨[(PhysicalAddress.withPage 0x1001 PageType.writeable 4096, 1)], []⟩) ∧
    (samePage.ExactBytes ∧ samePage.translation.PageWise 4096 ∧ unmapped.ExactBytes ∧ unmapped.translation.PageWise 4096 ∧
      (VirtualTranslate.virtToPhysIter ((idle unmapped)^[2 ^ 64 - 1] calledOnce) (FlatMemory.ofWords []) unmapped
        [(0x1000, (1 : Nat))]).map (fun r => r.2.2) =
          some ⟨[(PhysicalAddress.withPage 0x1000 PageType.none 4096, 1)], []⟩) := by
  refine ⟨⟨exactBytes _, ?_, by decide +kernel, by decide +kernel⟩, ⟨exactBytes _, ?_, by decide +kernel, by decide +kernel⟩,
    ⟨exactBytes _, ?_, by decide +kernel, by decide +kernel⟩, ⟨exactBytes _, ?_, by decide +kernel, by decide +kernel⟩,
    exactBytes _, samePage_pageWise, exactBytes _, fun p => Or.inl fun _ _ => rfl, counter_comes_round⟩
  · refine onePage_pageWise (b := 0x1000) (t := PageType.unknown) (by omega) (by omega) fun v hv => ?_
    simp only [PhysicalAddress.ofAddress, Address.add]
    rw [show (v + 0) % 2 ^ 64 = 0x1000 + v % 4096 by omega]
  · refine onePage_pageWise (b := 2 ^ 64 - 4096) (t := PageType.none) (by omega) (by omega) fun v hv => ?_
    simp only [PhysicalAddress.withPage, Address.add]
    rw [show (2 ^ 64 - 4096 + v % 4096 + 0) % 2 ^ 64 = 2 ^ 64 - 4096 + v % 4096 by omega]
  · refine onePage_pageWise (b := 0x1000) (t := PageType.none) (by omega) (by omega) fun v hv => ?_
    simp only [PhysicalAddress.withPage, Address.add]
    rw [if_neg (by omega), show (v + 0) % 2 ^ 64 = 0x1000 + v % 4096 by omega]
  · -- its addresses are those of `samePage`
    have hsame : (fun v => (mixedTypes.translation v).map fun r => (r.1, PageType.none)) = samePage.translation := by
      funext v
      simp only [translation, mixedTypes, samePage, onePage]
      split <;> rfl
    rw [hsame]
    exact samePage_pageWise

theorem samePage_served (mem : FlatMemory) :
    TlbServed x64Obj samePage.translation samePage DirectTranslate.mk mem := by
  refine ⟨serves (fun v => rfl) (fun v len p hp => ?_) mem, samePage_pageWise, fun v t h => ?_⟩
  · simp only [samePage, onePage] at hp
    split at hp
    · cases hp; rfl
    · cases hp
  · simp only [translation, samePage, onePage] at h
    split at h
    · rename_i hv
      simp only [Option.map_some, Option.some.injEq, Prod.mk.injEq, PhysicalAddress.withPage, Address.add,
        Address.invalid] at h
      omega
    · cases h

end ByteTranslate

namespace CachedVirtualTranslate

theorem recent_translations_twice :
    ∃ (hist : List (TlbCall Unit)) (s : CachedVirtualTranslate 1 DirectTranslate CountCacheValidator), hist.length = 1 ∧
      TlbRun (new DirectTranslate.mk (TLBCache.new 1 (CountCacheValidator.new 2)) x64Obj) hist s ∧
      ∃ s' mem' o, VirtualTranslate.virtToPhysIter s (FlatMemory.ofWords []) ByteTranslate.samePage
          [(0xffe, (4 : Nat))] = some (s', mem', o) ∧
        Delivers (RecentIn 2 hist ⟨(), fun _ => 5, ByteTranslate.samePage.translation⟩) [(0xffe, (4 : Nat))] o := by
  have hserved := ByteTranslate.samePage_served (FlatMemory.ofWords [])
  have htags : ∀ hist : List (TlbCall Unit), TagsApart hist := fun hist x _ y _ a b _ => rfl
  have hreqs : ∀ r ∈ [(0xffe, (4 : Nat))], r.1 < 2 ^ 64 := by decide +kernel
  obtain ⟨s, mem, o, he, -⟩ := recent_translations (n := 1) (c := 2) (by omega) .start (by decide +kernel)
    hserved hreqs (htags ([] ++ [⟨(), _, _⟩]))
  exact ⟨_, s, rfl, .call () _ .start hserved hreqs he,
    recent_translations (by omega) (.call () _ .start hserved hreqs he) (by decide +kernel) hserved hreqs (htags _)⟩

end CachedVirtualTranslate

end Jiaa
