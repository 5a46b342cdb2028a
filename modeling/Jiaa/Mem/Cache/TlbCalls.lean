/-
  Jiaa.Mem.Cache.TlbCalls — what a call of the caching translator delivers
  (memflow `mem/cache/cached_vat.rs`, `iter/page_chunks.rs`).

  Every request is one of three: looked up and answered by the cache, looked up and handed
  on, or too long and handed on. A piece the cache answers for lies in one page, as the
  split function refuses no cut at an address it answers for.

  - `hits_delivers`: the pieces that hit, as the entries have them;
  - `call_delivers`: the whole call, and what it stores.
-/

import Jiaa.Mem.Cache.TlbEntries

namespace Jiaa

open ArchMMUSpec (requestBytes failBytes)

/-! ## Pieces of requests -/

section Pieces

variable {T β : Type} [SplitAtIndex T] [lawful : LawfulSplitAtIndex T β]

omit lawful in
theorem splitInclusiveAt_pair (a : Nat) (b : T) (n : Nat) : splitInclusiveAt (a, b) n =
    ((a, (splitInclusiveAt b n).1), (splitInclusiveAt b n).2.map fun right =>
      (Address.add a (SplitAtIndex.length (splitInclusiveAt b n).1), right)) := rfl

include lawful in
theorem collect_isPart {r : Nat × T} : ∀ (n : Nat) (it : PageChunkIterator T) (b : T), it.v = some b →
    IsPart r (it.curAddress, b) → ∀ x ∈ PageChunkIterator.collect n it, IsPart r x := by
  intro n
  induction n with
  | zero => intro it b _ _ x hx; cases hx
  | succ n ih =>
    intro it b hv hr x hx
    obtain ⟨e, he, hlt⟩ :=
      nextLoop_cut it.checkSplitFn it.curAddress it.pageSize (SplitAtIndex.length b) it.curOff b
    have hnext : it.next = some ((it.curAddress, (splitInclusiveAt b e).1),
        { it with v := (splitInclusiveAt b e).2, curAddress := Address.add it.curAddress (Address.add e 1), curOff := 0 }) := by
      simp only [PageChunkIterator.next, hv, Option.map_some, he]
    have hcut : AnyCut (it.curAddress, b) (splitInclusiveAt (it.curAddress, b) e) := ⟨e, Or.inr rfl⟩
    rw [collect_cons n hnext, List.mem_cons] at hx
    rcases hx with rfl | hx
    · exact .left hr hcut
    · cases hs : (splitInclusiveAt b e).2 with
      | none => rw [collect_none n hs] at hx; cases hx
      | some rest =>
        refine ih _ rest hs ?_ x hx
        -- the rest starts where the pair's own cut says
        have hlen := length_cut_left (LawfulSplitAtIndex.cutInclusiveAt b e)
        have hrest := (length_cut_right (LawfulSplitAtIndex.cutInclusiveAt b e) hs).1
        rw [Nat.min_eq_left (Nat.le_of_lt hrest)] at hlen
        refine .right hr (y := (it.curAddress, (splitInclusiveAt b e).1)) ⟨e, Or.inr ?_⟩
        rw [splitInclusiveAt_pair, hs, Option.map_some, hlen]
        simp only [Address.add, Nat.add_mod_mod]

include lawful in
theorem pageChunksBy_isPart (b : T) (a s : Nat) (check : Nat → T → Option T → Bool) :
    ∀ x ∈ pageChunksBy b a s check, IsPart (a, b) x :=
  collect_isPart _ _ b rfl .whole

end Pieces

/-! ## Deliveries in parts -/

section Deliveries

variable {T β : Type} [SplitAtIndex T] [LawfulSplitAtIndex T β]

def Outputs.append (a b : Outputs T) : Outputs T := ⟨a.out ++ b.out, a.outFail ++ b.outFail⟩

theorem Delivers.append {F : Translation → Prop} {reqs reqs' : List (Nat × T)} {o o' : Outputs T}
    (h : Delivers F reqs o) (h' : Delivers F reqs' o') : Delivers F (reqs ++ reqs') (o.append o') := by
  obtain ⟨ds, hds⟩ := h
  obtain ⟨ds', hds'⟩ := h'
  have hl : ∀ {x}, IsPartOf reqs x → IsPartOf (reqs ++ reqs') x := fun ⟨r, hr, hp⟩ => ⟨r, List.mem_append_left _ hr, hp⟩
  have hr : ∀ {x}, IsPartOf reqs' x → IsPartOf (reqs ++ reqs') x := fun ⟨r, hr, hp⟩ => ⟨r, List.mem_append_right _ hr, hp⟩
  refine ⟨ds ++ ds', ?_, fun d hd => ?_, fun x hx => ?_, ?_⟩
  · rw [List.map_append, ← hds.out, ← hds'.out]; rfl
  · rcases List.mem_append.mp hd with hd | hd
    · exact ⟨hl (hds.mapped d hd).1, (hds.mapped d hd).2⟩
    · exact ⟨hr (hds'.mapped d hd).1, (hds'.mapped d hd).2⟩
  · rcases List.mem_append.mp hx with hx | hx
    · exact ⟨hl (hds.unmapped x hx).1, (hds.unmapped x hx).2⟩
    · exact ⟨hr (hds'.unmapped x hx).1, (hds'.unmapped x hx).2⟩
  · have hreq : requestBytes (β := β) (reqs ++ reqs') = requestBytes reqs ++ requestBytes reqs' := List.flatMap_append
    have hfail : failBytes (β := β) (o.append o').outFail = failBytes o.outFail ++ failBytes o'.outFail :=
      List.flatMap_append
    rw [List.flatMap_append, hfail, hreq]
    refine List.Perm.trans ?_ (hds.bytes.append hds'.bytes)
    rw [List.append_assoc, List.append_assoc]
    refine List.Perm.append_left _ ?_
    rw [← List.append_assoc, ← List.append_assoc]
    exact List.Perm.append_right _ List.perm_append_comm

theorem Delivers.mono {F G : Translation → Prop} {reqs : List (Nat × T)} {o : Outputs T} (hFG : ∀ f, F f → G f)
    (h : Delivers F reqs o) : Delivers G reqs o := by
  obtain ⟨ds, hds⟩ := h
  refine ⟨ds, hds.out, fun d hd => ?_, fun x hx => ?_, hds.bytes⟩
  · obtain ⟨hp, f, hf, ht⟩ := hds.mapped d hd
    exact ⟨hp, f, hFG f hf, ht⟩
  · obtain ⟨hp, f, hf, ht⟩ := hds.unmapped x hx
    exact ⟨hp, f, hFG f hf, ht⟩

/-- What is delivered for pieces of requests that make them up is delivered for them. -/
theorem Delivers.of_pieces {F : Translation → Prop} {reqs ps : List (Nat × T)} {o : Outputs T}
    (hpart : ∀ x ∈ ps, IsPartOf reqs x) (hbytes : (requestBytes (β := β) ps).Perm (requestBytes reqs))
    (h : Delivers F ps o) : Delivers F reqs o := by
  obtain ⟨ds, hds⟩ := h
  have hp : ∀ {x}, IsPartOf ps x → IsPartOf reqs x := fun ⟨r, hr, hx⟩ => (hpart r hr).trans hx
  refine ⟨ds, hds.out, fun d hd => ?_, fun x hx => ?_, hds.bytes.trans hbytes⟩
  · exact ⟨hp (hds.mapped d hd).1, (hds.mapped d hd).2⟩
  · exact ⟨hp (hds.unmapped x hx).1, (hds.unmapped x hx).2⟩

theorem delivers_nil (F : Translation → Prop) : Delivers F ([] : List (Nat × T)) Outputs.empty := by
  exact ⟨[], rfl, nofun, nofun, List.Perm.nil⟩

theorem delivers_mapped {F : Translation → Prop} {f : Translation} (hF : F f) {x : Nat × T} {p : PhysicalAddress}
    (h : Translated f x.1 (SplitAtIndex.length x.2) p) : Delivers F [x] ⟨[(p, x.2)], []⟩ := by
  refine ⟨[(x.1, p, x.2)], rfl, fun d hd => ?_, nofun, by simp [requestBytes, failBytes]⟩
  cases List.mem_singleton.mp hd
  exact ⟨⟨x, List.mem_singleton_self x, .whole⟩, f, hF, h⟩

theorem delivers_unmapped {F : Translation → Prop} {f : Translation} (hF : F f) {x : Nat × T} (err : Error)
    (h : Untranslated f x.1 (SplitAtIndex.length x.2)) : Delivers F [x] ⟨[], [(err, x)]⟩ := by
  refine ⟨[], rfl, nofun, fun y hy => ?_, by simp [requestBytes, failBytes]⟩
  cases List.mem_singleton.mp hy
  exact ⟨⟨x, List.mem_singleton_self x, .whole⟩, f, hF, h⟩

/-! ## Buffers with their addresses -/

/-- What is left of the results when the addresses are taken off. -/
def Outputs.strip (o : Outputs (Nat × T)) : Outputs T :=
  ⟨o.out.map fun x => (x.1, x.2.2), o.outFail.map fun x => (x.1, x.2.1, x.2.2.2)⟩

theorem map_at64_at64 (a b : Nat) (l : List β) : (at64 a (at64 b l)).map (fun y => (y.1, y.2.2)) = at64 a l := by
  apply List.ext_getElem?
  intro i
  rw [List.getElem?_map, getElem?_at64, getElem?_at64, getElem?_at64]
  cases l[i]? <;> rfl

theorem map_flatMap_at64 {α : Type*} (l : List α) (a b : α → Nat) (c : α → List β) :
    (l.flatMap fun x => at64 (a x) (at64 (b x) (c x))).map (fun y => (y.1, y.2.2)) = l.flatMap fun x => at64 (a x) (c x) := by
  rw [List.map_flatMap]
  exact List.flatMap_congr fun x _ => map_at64_at64 ..

/-- Delivering the buffers with their addresses is delivering the buffers. -/
theorem Delivers.strip {F : Translation → Prop} {ps : List (Nat × T)} {o : Outputs (Nat × T)}
    (h : Delivers F (ps.map fun x => (x.1, x)) o) : Delivers F ps o.strip := by
  obtain ⟨ds, hds⟩ := h
  have hpart : ∀ {v : Nat} {x : Nat × T}, IsPartOf (ps.map fun x => (x.1, x)) (v, x) → IsPartOf ps (v, x.2) := by
    intro v x ⟨r, hr, hp⟩
    obtain ⟨z, hz, rfl⟩ := List.mem_map.mp hr
    obtain ⟨h1, h2⟩ := isPart_addressed rfl hp
    dsimp only at h1 h2
    exact ⟨z, hz, by rw [h1]; exact h2⟩
  refine ⟨ds.map fun d => (d.1, d.2.1, d.2.2.2), ?_, fun d hd => ?_, fun x hx => ?_, ?_⟩
  · unfold Outputs.strip
    rw [hds.out, List.map_map, List.map_map]
    rfl
  · obtain ⟨y, hy, rfl⟩ := List.mem_map.mp hd
    exact ⟨hpart (hds.mapped y hy).1, (hds.mapped y hy).2⟩
  · obtain ⟨y, hy, rfl⟩ := List.mem_map.mp hx
    exact ⟨hpart (hds.unmapped y hy).1, (hds.unmapped y hy).2⟩
  · have h := hds.bytes.map fun y => (y.1, y.2.2)
    unfold requestBytes failBytes at h ⊢
    rw [List.map_append] at h
    simp only [List.flatMap_map, Outputs.strip] at h ⊢
    have h1 := map_flatMap_at64 ds (·.1) (·.2.2.1) fun d => bytes d.2.2.2
    have h2 := map_flatMap_at64 o.outFail (·.2.1) (·.2.2.1) fun x => bytes x.2.2.2
    have h3 := map_flatMap_at64 ps (·.1) (·.1) fun x => bytes x.2
    exact ((h1 ▸ h2 ▸ h3 ▸ h))

end Deliveries

/-! ## Hits -/

namespace TLBCache

variable {n : Nat} [NeZero n] {Q : Type} [CacheValidator Q] {D : Type} [ScopedVirtualTranslate D]

/-- What the cache answers for is as one of the translations has its page. -/
def Trusted (F : Translation → Prop) (t : TLBCache n Q) (d : D) (arch : ArchitectureObj) : Prop :=
  ∀ v, (t.tryEntry d v arch).isSome = true → ∃ f, F f ∧
    ∀ w, Address.asPageAligned w arch.pageSize = Address.asPageAligned v arch.pageSize →
      f w = (t.entries (t.getCacheIndex (Address.asPageAligned v arch.pageSize) arch.pageSize)).answer arch.pageSize w

/-- The addresses of a part that ends inside its page. -/
theorem addr_inPage {s v i : Nat} (hd : s ∣ 2 ^ 64) (hv : v < 2 ^ 64) (h : v % s + i < s) :
    (v + i) % 2 ^ 64 = v + i ∧ Address.asPageAligned (v + i) s = Address.asPageAligned v s ∧ (v + i) % s = v % s + i := by
  have hs : 0 < s := by omega
  have hdiv : (v + i) / s = v / s := by
    rw [← Nat.div_add_mod v s, Nat.add_assoc, Nat.mul_add_div hs, Nat.div_eq_of_lt h, Nat.mul_add_div hs,
      Nat.div_eq_of_lt (Nat.mod_lt _ hs)]
  refine ⟨Nat.mod_eq_of_lt ?_, by rw [Address.asPageAligned_eq, Address.asPageAligned_eq, hdiv], ?_⟩
  · obtain ⟨m, hm⟩ := hd
    rw [hm] at hv ⊢
    have h1 : (v + i) / s < m := by
      rw [hdiv]
      exact Nat.div_lt_of_lt_mul hv
    exact (Nat.div_lt_iff_lt_mul hs).mp h1 |>.trans_eq (Nat.mul_comm m s)
  · rw [Nat.add_mod, Nat.mod_eq_of_lt (show i < s by omega), Nat.mod_eq_of_lt h]

theorem answer_add {s v i : Nat} {e : CachedEntry} (hmod : (v + i) % s = v % s + i) :
    e.answer s (v + i) = (e.answer s v).map fun r => (Address.add r.1 i, r.2) := by
  unfold CachedEntry.answer
  split
  · rw [hmod, Option.map_some]
    unfold Address.add
    rw [Nat.mod_add_mod, Nat.add_assoc]
  · rfl

/-- A piece that hits, in its page. -/
theorem hit_answer {t : TLBCache n Q} {d : D} {arch : ArchitectureObj} {f : Translation} {v len : Nat}
    {r : Except Error TLBEntry} (h : t.tryEntry d v arch = some r)
    (hf : ∀ w, Address.asPageAligned w arch.pageSize = Address.asPageAligned v arch.pageSize →
      f w = (t.entries (t.getCacheIndex (Address.asPageAligned v arch.pageSize) arch.pageSize)).answer arch.pageSize w)
    (hv : v < 2 ^ 64) (hlen : v % arch.pageSize + len ≤ arch.pageSize) {i : Nat} (hi : i ≤ len - 1) :
    f ((v + i) % 2 ^ 64) = (TLBEntry.answer r).map fun r => (Address.add r.1 i, r.2) := by
  have hs := Nat.mod_lt v arch.pos
  obtain ⟨h1, h2, h3⟩ := addr_inPage arch.pageSize_dvd hv (show v % arch.pageSize + i < arch.pageSize by omega)
  rw [h1, hf _ h2, answer_add h3, (tryEntry_some h).2.2.2]

section Calls

variable {T β : Type} [SplitAtIndex T] [lawful : LawfulSplitAtIndex T β]

omit [SplitAtIndex T] lawful in
theorem hits_cons (t : TLBCache n Q) (d : D) (arch : ArchitectureObj) (x : Nat × T) (ps : List (Nat × T)) :
    t.hits d arch (x :: ps) = (t.hits d arch [x]).append (t.hits d arch ps) := by
  unfold hits Outputs.append
  rw [← List.singleton_append, List.filterMap_append, List.filterMap_append]

theorem hits_delivers {F : Translation → Prop} {t : TLBCache n Q} {d : D} {arch : ArchitectureObj}
    (ht : Trusted F t d arch) (ps : List (Nat × T))
    (hps : ∀ x ∈ ps, x.1 < 2 ^ 64 ∧ ((t.tryEntry d x.1 arch).isSome = true →
      x.1 % arch.pageSize + SplitAtIndex.length x.2 ≤ arch.pageSize)) :
    Delivers F (ps.filter fun x => (t.tryEntry d x.1 arch).isSome) (t.hits d arch ps) := by
  induction ps with
  | nil => exact delivers_nil F
  | cons x ps ih =>
    have ih := ih fun y hy => hps y (List.mem_cons_of_mem _ hy)
    obtain ⟨hv, hin⟩ := hps x List.mem_cons_self
    rw [hits_cons]
    cases hx : t.tryEntry d x.1 arch with
    | none =>
      rw [List.filter_cons_of_neg (by simp [hx])]
      have hnil : t.hits d arch [x] = Outputs.empty := by simp [hits, hx, Outputs.empty]
      rw [hnil]
      exact ih
    | some r =>
      rw [List.filter_cons_of_pos (by simp [hx])]
      obtain ⟨f, hF, hf⟩ := ht x.1 (by rw [hx]; rfl)
      have hans : ∀ i ≤ SplitAtIndex.length x.2 - 1, _ := fun i hi =>
        hit_answer hx hf hv (hin (by rw [hx]; rfl)) hi
      refine Delivers.append (show Delivers F [x] _ from ?_) ih
      cases r with
      | ok entry =>
        have hone : t.hits d arch [x] = ⟨[(entry.physAddr, x.2)], []⟩ := by simp [hits, hx]
        rw [hone]
        exact delivers_mapped hF fun i hi => hans i hi
      | error err =>
        have hone : t.hits d arch [x] = ⟨[], [(err, x)]⟩ := by simp [hits, hx]
        rw [hone]
        exact delivers_unmapped hF err fun i hi => hans i hi

/-! ## Calls -/

/-- The pieces that are handed on. -/
def missed (t : TLBCache n Q) (d : D) (arch : ArchitectureObj) (reqs : List (Nat × T)) : List (Nat × T) :=
  (t.pieces d arch reqs).filter fun x => !(t.tryEntry d x.1 arch).isSome

omit [SplitAtIndex T] lawful in
theorem misses_eq (t : TLBCache n Q) (d : D) (arch : ArchitectureObj) (ps : List (Nat × T)) :
    t.misses d arch ps = (ps.filter fun x => !(t.tryEntry d x.1 arch).isSome).map fun x => (x.1, x) := by
  unfold misses
  induction ps with
  | nil => rfl
  | cons x ps ih =>
    cases hx : t.tryEntry d x.1 arch with
    | none => rw [List.filterMap_cons_some (by rw [hx]), List.filter_cons_of_pos (by simp [hx]), List.map_cons, ih]
    | some r => rw [List.filterMap_cons_none (by rw [hx]), List.filter_cons_of_neg (by simp [hx]), ih]

include lawful in
/-- The pieces looked up are parts of the requests that are not too long, one that hits in
    its page. -/
theorem pieces_spec (t : TLBCache n Q) (d : D) (arch : ArchitectureObj) {reqs : List (Nat × T)}
    (hreqs : ∀ r ∈ reqs, r.1 < 2 ^ 64) : ∀ x ∈ t.pieces d arch reqs, IsPartOf reqs x ∧ x.1 < 2 ^ 64 ∧
      ((t.tryEntry d x.1 arch).isSome = true → x.1 % arch.pageSize + SplitAtIndex.length x.2 ≤ arch.pageSize) := by
  intro x hx
  obtain ⟨r, hr, hx⟩ := List.mem_flatMap.mp hx
  have hr := List.mem_of_mem_filter hr
  have h := pageChunksBy_inPage arch.pos arch.pageSize_lt arch.pageSize_dvd (hreqs r hr) r.2 _ x hx
  refine ⟨⟨r, hr, pageChunksBy_isPart _ _ _ _ x hx⟩, h.1, fun hhit => h.2 fun b rest => ?_⟩
  rw [hhit, Bool.or_true]

theorem requestBytes_pieces (t : TLBCache n Q) (d : D) (arch : ArchitectureObj) (reqs : List (Nat × T)) :
    requestBytes (β := β) (t.pieces d arch reqs) =
      requestBytes (reqs.filter fun x => !t.isReadTooLong arch (SplitAtIndex.length x.2)) := by
  unfold requestBytes pieces
  rw [List.flatMap_assoc]
  exact List.flatMap_congr fun x _ => pageChunksBy_flat ..

/-- What hits, what is too long and what is handed on make up the requests. -/
theorem requestBytes_split (t : TLBCache n Q) (d : D) (arch : ArchitectureObj) (reqs : List (Nat × T)) :
    (requestBytes (β := β) (((t.pieces d arch reqs).filter fun x => (t.tryEntry d x.1 arch).isSome) ++
      t.uncachedIn arch reqs ++ t.missed d arch reqs)).Perm (requestBytes reqs) := by
  have happ : ∀ a b : List (Nat × T), requestBytes (β := β) (a ++ b) = requestBytes a ++ requestBytes b :=
    fun _ _ => List.flatMap_append
  have hpieces : (requestBytes (β := β) ((t.pieces d arch reqs).filter fun x => (t.tryEntry d x.1 arch).isSome) ++
      requestBytes (t.missed d arch reqs)).Perm (requestBytes (t.pieces d arch reqs)) := by
    rw [← happ]
    exact (List.filter_append_perm _ _).flatMap_right _
  have hreqs : (requestBytes (β := β) (t.pieces d arch reqs) ++ requestBytes (t.uncachedIn arch reqs)).Perm
      (requestBytes reqs) := by
    rw [requestBytes_pieces, ← happ]
    refine (List.perm_append_comm.trans ?_).flatMap_right _
    exact List.filter_append_perm (fun x => t.isReadTooLong arch (SplitAtIndex.length x.2)) reqs
  rw [happ, happ, List.append_assoc]
  refine List.Perm.trans ?_ hreqs
  refine List.Perm.trans ?_ (hpieces.append_right _)
  rw [List.append_assoc]
  exact List.Perm.append_left _ List.perm_append_comm

end Calls

end TLBCache

/-! ## The inner translator -/

section Serves

variable {V M D T β : Type} [VirtualTranslate V] [PhysicalMemory M] [ScopedVirtualTranslate D]
variable [SplitAtIndex T] [LawfulSplitAtIndex T β]

theorem Serves.peekIter {f : Translation} {d : D} {vat : V} {mem : M} (h : Serves f d vat mem) (reqs : List (Nat × T))
    (hreqs : ∀ r ∈ reqs, r.1 < 2 ^ 64) :
    ∃ vat' mem' o, VirtualTranslate.peekIter vat mem d reqs = some (vat', mem', o) ∧ Serves f d vat' mem' ∧
      Delivers (· = f) reqs o ∧ ∀ x ∈ o.out, x.1.hasPage = true := by
  unfold VirtualTranslate.peekIter
  cases reqs with
  | nil => exact ⟨vat, mem, Outputs.empty, rfl, h, delivers_nil _, nofun⟩
  | cons r reqs =>
    obtain ⟨P, hP, hstep⟩ := h
    obtain ⟨vat', mem', o, he, hP', hd, hpage⟩ := hstep vat mem hP (r :: reqs) hreqs
    exact ⟨vat', mem', o, he, ⟨P, hP', hstep⟩, hd, hpage⟩

end Serves

namespace CachedVirtualTranslate

open TLBCache

variable {n : Nat} [NeZero n] {V Q : Type} [VirtualTranslate V] [CacheValidator Q]
variable {M D T β : Type} [PhysicalMemory M] [ScopedVirtualTranslate D] [SplitAtIndex T] [LawfulSplitAtIndex T β]

omit [LawfulSplitAtIndex T β] in
/-- What a call leaves: the cache it found, with what it stored. -/
theorem call_tlb {self self' : CachedVirtualTranslate n V Q} {mem mem' : M} {d : D} {reqs : List (Nat × T)}
    {o : Outputs T} (h : VirtualTranslate.virtToPhysIter self mem d reqs = some (self', mem', o)) :
    ∃ uncached : Outputs (Nat × T), self'.tlb = self.updated.cacheUncached d self.arch uncached ∧
      self'.arch = self.arch := by
  unfold VirtualTranslate.virtToPhysIter instVirtualTranslate at h
  dsimp only at h
  obtain ⟨r, -, h⟩ := Option.bind_eq_some_iff.mp h
  obtain ⟨q, -, h⟩ := Option.map_eq_some_iff.mp h
  cases h
  exact ⟨r.2.2, rfl, rfl⟩

/-- A call over a translator that serves `f`: the cache's answers and `f` are delivered, and
    what is handed on is stored as `f` has it. -/
theorem call_delivers {self : CachedVirtualTranslate n V Q} {mem : M} {d : D} {f : Translation}
    {F : Translation → Prop} (hserve : Serves f d self.vat mem) (hF : F f) (ht : Trusted F self.updated d self.arch)
    {reqs : List (Nat × T)} (hreqs : ∀ r ∈ reqs, r.1 < 2 ^ 64) :
    ∃ self' mem' o uncached, VirtualTranslate.virtToPhysIter self mem d reqs = some (self', mem', o) ∧
      Delivers F reqs o ∧ self'.tlb = self.updated.cacheUncached d self.arch uncached ∧ self'.arch = self.arch ∧
      Delivers (· = f) ((self.updated.missed d self.arch reqs).map fun x => (x.1, x)) uncached ∧
      ∀ x ∈ uncached.out, x.1.hasPage = true := by
  have hpieces := pieces_spec self.updated d self.arch hreqs
  have hmlt : ∀ r ∈ (self.updated.missed d self.arch reqs).map fun x => (x.1, x), r.1 < 2 ^ 64 := by
    intro r hr
    obtain ⟨x, hx, rfl⟩ := List.mem_map.mp hr
    exact (hpieces x (List.mem_of_mem_filter hx)).2.1
  obtain ⟨vat1, mem1, uncached, he1, hserve1, hd1, hpage1⟩ := hserve.peekIter _ hmlt
  obtain ⟨vat2, mem2, long, he2, -, hd2, -⟩ :=
    hserve1.peekIter (self.updated.uncachedIn self.arch reqs) fun r hr => hreqs r (List.mem_of_mem_filter hr)
  have hd0 := hits_delivers ht (self.updated.pieces d self.arch reqs) fun x hx => (hpieces x hx).2
  have hto : ∀ g, g = f → F g := fun g hg => hg ▸ hF
  have hall := (hd0.append (hd2.mono hto)).append (hd1.strip.mono hto)
  unfold VirtualTranslate.virtToPhysIter instVirtualTranslate
  dsimp only
  rw [misses_eq]
  unfold missed at he1
  rw [he1, Option.bind_some, he2, Option.map_some]
  refine ⟨_, _, _, uncached, rfl, ?_, rfl, rfl, hd1, hpage1⟩
  refine hall.of_pieces (fun x hx => ?_) (requestBytes_split ..)
  rcases List.mem_append.mp hx with hx | hx
  · rcases List.mem_append.mp hx with hx | hx
    · exact (hpieces x (List.mem_of_mem_filter hx)).1
    · exact ⟨x, List.mem_of_mem_filter hx, .whole⟩
  · exact (hpieces x (List.mem_of_mem_filter hx)).1

end CachedVirtualTranslate

end Jiaa
