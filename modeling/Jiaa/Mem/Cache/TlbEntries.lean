/-
  Jiaa.Mem.Cache.TlbEntries — what the entries of the translation cache say
  (memflow `mem/cache/tlb_cache.rs`, `mem/cache/cached_vat.rs`).

  `Holds`: an entry answers for its whole page as a translation does. A call looks entries
  up in the cache it found and stores entries afterwards, each one of `Stored`.

  - `tryEntry_some`: what a lookup returns is the answer of the entry of the address;
  - `cacheUncached_induct`: what every stored entry keeps, the call keeps;
  - `stored_holds`: the entries stored for results of a page-wise translation hold it. A
    failed part has a byte in each page stored for it, also where the looked at end lies one
    past its own.
-/

import Jiaa.Mem.Cache.Tlb
import Jiaa.Mem.Deliveries
import Mathlib.Tactic.Ring

namespace Jiaa

/-- What an entry says of an address in its page. -/
def CachedEntry.answer (self : CachedEntry) (s v : Nat) : Option (Nat × PageType) :=
  if self.physPage.isValid && self.physPage.hasPage then
    some (Address.add (Address.asPageAligned self.physPage.address s) (v % s), self.physPage.pageType)
  else none

/-- What the result of a lookup says. -/
def TLBEntry.answer : Except Error TLBEntry → Option (Nat × PageType)
  | .ok entry => some (entry.physAddr.address, entry.physAddr.pageType)
  | .error _ => none

/-- An entry of the tables of `tag` that answers for its page as `f` does. -/
structure CachedEntry.Holds (s : Nat) (f : Translation) (tag : Nat → Nat) (e : CachedEntry) : Prop where
  tag : ∃ a, e.ptIndex = tag a
  page : ∀ v, Address.asPageAligned v s = e.virtPage → f v = e.answer s v

namespace TLBCache

variable {n : Nat} {Q : Type} [CacheValidator Q]

/-! ## Entries -/

@[simp] theorem entries_setEntry_self (t : TLBCache n Q) (i : Fin n) (e : CachedEntry) : (t.setEntry i e).entries i = e :=
  Function.update_self ..

theorem entries_setEntry_of_ne (t : TLBCache n Q) {i j : Fin n} (e : CachedEntry) (h : j ≠ i) :
    (t.setEntry i e).entries j = t.entries j := Function.update_of_ne h ..

@[simp] theorem validator_setEntry (t : TLBCache n Q) (i : Fin n) (e : CachedEntry) :
    (t.setEntry i e).validator = validateSlot t.validator i := rfl

variable [NeZero n] {D : Type} [ScopedVirtualTranslate D]

/-! ## Lookups -/

theorem sub_asPageAligned {s : Nat} (hs : 0 < s) (hs' : s < 2 ^ 64) (v : Nat) :
    Address.sub v (Address.asPageAligned v s) = v % s := by
  have h1 := Nat.mod_le v s
  have h2 := Nat.mod_lt v hs
  unfold Address.sub Address.asPageAligned
  omega

/-- A lookup answers as the entry of the address does. -/
theorem tryEntry_some {t : TLBCache n Q} {d : D} {v : Nat} {arch : ArchitectureObj} {r : Except Error TLBEntry}
    (h : t.tryEntry d v arch = some r) :
    let i := t.getCacheIndex (Address.asPageAligned v arch.pageSize) arch.pageSize
    (t.entries i).ptIndex = ScopedVirtualTranslate.translationTableId d v ∧
      (t.entries i).virtPage = Address.asPageAligned v arch.pageSize ∧ isSlotValid t.validator i = true ∧
      TLBEntry.answer r = (t.entries i).answer arch.pageSize v := by
  intro i
  unfold tryEntry at h
  dsimp only at h
  split at h
  · rename_i hm
    refine ⟨hm.1, hm.2.1, hm.2.2, ?_⟩
    unfold CachedEntry.answer
    split at h
    · rename_i hv
      cases h
      rw [if_pos hv, sub_asPageAligned arch.pos arch.pageSize_lt]
      rfl
    · rename_i hv
      cases h
      rw [if_neg hv]
      rfl
  · cases h

theorem tryEntry_isSome_iff {t : TLBCache n Q} {d : D} {v : Nat} {arch : ArchitectureObj} :
    (t.tryEntry d v arch).isSome = true ↔
      let i := t.getCacheIndex (Address.asPageAligned v arch.pageSize) arch.pageSize
      (t.entries i).ptIndex = ScopedVirtualTranslate.translationTableId d v ∧
        (t.entries i).virtPage = Address.asPageAligned v arch.pageSize ∧ isSlotValid t.validator i = true := by
  unfold tryEntry
  dsimp only
  split
  · rename_i hm
    refine iff_of_true ?_ hm
    split <;> rfl
  · rename_i hm
    exact iff_of_false (by simp) hm

/-! ## What a call stores -/

/-- The entries a call stores for results of the inner translator. -/
inductive Stored {T : Type} [SplitAtIndex T] (translator : D) (arch : ArchitectureObj) (uncached : Outputs (Nat × T)) :
    CachedEntry → Prop
  | mapped {x : PhysicalAddress × Nat × T} : x ∈ uncached.out →
      Stored translator arch uncached ⟨ScopedVirtualTranslate.translationTableId translator x.2.1,
        Address.asPageAligned x.2.1 arch.pageSize, x.1⟩
  | unmapped {x : Error × Nat × Nat × T} {page : Nat} : x ∈ uncached.outFail →
      page ∈ invalidPages x.2.1 (SplitAtIndex.length x.2.2.2) arch.pageSize →
      Stored translator arch uncached ⟨ScopedVirtualTranslate.translationTableId translator x.2.1, page,
        PhysicalAddress.invalid⟩

theorem foldl_induct {α : Type*} {σ : Type*} {P : σ → Prop} (f : σ → α → σ) (l : List α)
    (hf : ∀ s, ∀ a ∈ l, P s → P (f s a)) (s : σ) (h : P s) : P (l.foldl f s) := by
  induction l generalizing s with
  | nil => exact h
  | cons a l ih =>
    exact ih (fun s b hb => hf s b (List.mem_cons_of_mem _ hb)) _ (hf s a List.mem_cons_self h)

/-- A property of the cache that storing any of the entries keeps. -/
theorem cacheUncached_induct {T : Type} [SplitAtIndex T] {P : TLBCache n Q → Prop} {t : TLBCache n Q} {d : D}
    {arch : ArchitectureObj} {uncached : Outputs (Nat × T)}
    (hset : ∀ t e, Stored d arch uncached e → P t → P (t.setEntry (t.getCacheIndex e.virtPage arch.pageSize) e))
    (h : P t) : P (t.cacheUncached d arch uncached) := by
  refine foldl_induct _ _ (fun t x hx ht => ?_) _ (foldl_induct _ _ (fun t x hx ht => hset t _ (.mapped hx) ht) _ h)
  refine foldl_induct _ _ (fun t page hp ht => ?_) _ ht
  unfold cacheInvalidPage
  dsimp only
  split
  · exact hset t _ (.unmapped hx (List.mem_of_mem_take hp)) ht
  · exact ht

/-! ## The pages of a failed part -/

/-- The pages start in the page of `v` and end no later than one past the part. -/
theorem mem_invalidPages {s v len page : Nat} (hs : 0 < s) (h : page ∈ invalidPages v len s) :
    s ∣ page ∧ Address.asPageAligned v s ≤ page ∧ page + s ≤ Address.add (Address.add v len) 1 := by
  unfold invalidPages at h
  dsimp only at h
  generalize Address.add (Address.add v len) 1 = e at h ⊢
  obtain ⟨k, hk, rfl⟩ := List.mem_range'.mp h
  rw [Address.asPageAligned_eq, Address.asPageAligned_eq, ← Nat.sub_mul, Nat.add_sub_assoc (by omega),
    Nat.mul_comm (e / s - v / s) s, Nat.mul_add_div hs, Nat.div_eq_of_lt (show s - 1 < s by omega)] at hk
  rw [Address.asPageAligned_eq]
  refine ⟨⟨v / s + k, by ring⟩, Nat.le_add_right _ _, ?_⟩
  calc v / s * s + s * k + s = (v / s + k + 1) * s := by ring
    _ ≤ e / s * s := Nat.mul_le_mul_right s (by omega)
    _ ≤ e := Nat.div_mul_le_self e s

theorem asPageAligned_of_mem_page {s page v : Nat} (hp : s ∣ page) (h1 : page ≤ v) (h2 : v < page + s) :
    Address.asPageAligned v s = page := by
  obtain ⟨k, rfl⟩ := hp
  rw [Address.asPageAligned_eq, Nat.div_eq_of_lt_le (by rw [Nat.mul_comm]; exact h1)
    (by rw [Nat.add_mul, Nat.one_mul, Nat.mul_comm]; exact h2), Nat.mul_comm]

/-- Every page stored for a failed part has one of its addresses. -/
theorem invalidPages_spec {s v len page : Nat} (hs : 1 < s) (hv : v < 2 ^ 64)
    (h : page ∈ invalidPages v len s) : ∃ i ≤ len - 1, Address.asPageAligned ((v + i) % 2 ^ 64) s = page := by
  obtain ⟨hp, hstart, hend⟩ := mem_invalidPages (by omega) h
  have halign : Address.asPageAligned v s + s > v := by
    rw [Address.asPageAligned_eq]
    exact Nat.lt_div_mul_add (by omega)
  have hlt : Address.add (Address.add v len) 1 < 2 ^ 64 := Address.add_lt _ _
  have hadd : Address.add (Address.add v len) 1 = (v + len + 1) % 2 ^ 64 := by
    unfold Address.add
    rw [Nat.mod_add_mod]
  by_cases hlen : 2 ^ 64 ≤ len
  · -- the part has every address
    refine ⟨(page + 2 ^ 64 - v) % 2 ^ 64, by omega, asPageAligned_of_mem_page hp (by omega) (by omega)⟩
  · by_cases hpv : page ≤ v
    · refine ⟨0, Nat.zero_le _, ?_⟩
      rw [Nat.add_zero, Nat.mod_eq_of_lt hv]
      exact asPageAligned_of_mem_page hp hpv (by omega)
    · -- an end that wraps lies below the part
      exact ⟨page - v, by omega, asPageAligned_of_mem_page hp (by omega) (by omega)⟩

/-! ## Entries that hold a translation -/

theorem asPageAligned_div {s v w : Nat} (hs : 0 < s) (h : Address.asPageAligned v s = Address.asPageAligned w s) :
    v / s = w / s := by
  rw [Address.asPageAligned_eq, Address.asPageAligned_eq] at h
  exact Nat.eq_of_mul_eq_mul_right hs h

/-- The frame of an address, moved on inside the page. -/
theorem add_asPageAligned {s : Nat} (hd : s ∣ 2 ^ 64) {base a r r' : Nat} (hb : base % s = 0) (hlt : base < 2 ^ 64)
    (hr : r < s) (hr' : r' < s) (h : a % 2 ^ 64 = base + r) :
    Address.add (Address.asPageAligned a s) r' = base + r' := by
  have hmod : a % s = r := by
    rw [← Nat.mod_mod_of_dvd a hd, h, Nat.add_mod, hb, Nat.zero_add, Nat.mod_mod, Nat.mod_eq_of_lt hr]
  have hfit : base + s ≤ 2 ^ 64 := by
    obtain ⟨m, hm⟩ := hd
    obtain ⟨b, rfl⟩ := Nat.dvd_of_mod_eq_zero hb
    rw [hm] at hlt ⊢
    calc s * b + s = s * (b + 1) := by ring
      _ ≤ s * m := Nat.mul_le_mul_left s (Nat.lt_of_mul_lt_mul_left hlt)
  unfold Address.add Address.asPageAligned
  rw [hmod]
  omega

/-- A page-wise translation that maps an address maps its page around it. -/
theorem holds_mapped {s : Nat} (hs : 0 < s) (hd : s ∣ 2 ^ 64) {f : Translation} (hf : f.PageWise s) {v : Nat}
    {p : PhysicalAddress} (hp : f v = some (Address.add p.address 0, p.pageType)) (hvalid : p.isValid = true)
    (hpage : p.hasPage = true) (tag : Nat → Nat) : CachedEntry.Holds s f tag ⟨tag v, Address.asPageAligned v s, p⟩ := by
  refine ⟨⟨v, rfl⟩, fun w hw => ?_⟩
  have hdiv : w / s = v / s := asPageAligned_div hs hw
  unfold CachedEntry.answer
  rw [if_pos (by simp [hvalid, hpage])]
  rcases hf (v / s) with hnone | ⟨base, t, hb, hlt, hsome⟩
  · rw [hnone v rfl] at hp
    cases hp
  · rw [hsome v rfl, Option.some.injEq, Prod.mk.injEq] at hp
    rw [hsome w hdiv, hp.2, add_asPageAligned (a := p.address) hd hb hlt (Nat.mod_lt v hs) (Nat.mod_lt w hs) hp.1.symm]

theorem holds_unmapped {s : Nat} (hs : 0 < s) {f : Translation} (hf : f.PageWise s) {v w : Nat}
    (hv : f v = none) {page : Nat} (hp : Address.asPageAligned v s = page) (tag : Nat → Nat) :
    CachedEntry.Holds s f tag ⟨tag w, page, PhysicalAddress.invalid⟩ := by
  refine ⟨⟨w, rfl⟩, fun x hx => ?_⟩
  have hdiv := asPageAligned_div hs (hx.trans hp.symm)
  have hans : CachedEntry.answer ⟨tag w, page, PhysicalAddress.invalid⟩ s x = none := rfl
  rw [hans]
  rcases hf (v / s) with hnone | ⟨base, t, -, -, hsome⟩
  · exact hnone x hdiv
  · rw [hsome v rfl] at hv
    cases hv

/-- What the inner translator delivers as a page-wise translation is stored as it has it. -/
theorem stored_holds {T β : Type} [SplitAtIndex T] [LawfulSplitAtIndex T β] {d : D} {arch : ArchitectureObj}
    {f : Translation} (hf : f.PageWise arch.pageSize) (hlast : ∀ v t, f v ≠ some (Address.invalid, t))
    {misses : List (Nat × T)} (hlt : ∀ x ∈ misses, x.1 < 2 ^ 64) {uncached : Outputs (Nat × T)}
    (h : Delivers (· = f) (misses.map fun x => (x.1, x)) uncached) (hpage : ∀ x ∈ uncached.out, x.1.hasPage = true)
    {e : CachedEntry} (he : Stored d arch uncached e) :
    e.Holds arch.pageSize f (ScopedVirtualTranslate.translationTableId d) := by
  obtain ⟨ds, hds⟩ := h
  cases he with
  | @mapped x hx =>
    obtain ⟨y, hy, rfl⟩ := List.mem_map.mp (hds.out ▸ hx)
    obtain ⟨⟨r, hr, hpart⟩, f', rfl, ht⟩ := hds.mapped y hy
    obtain ⟨z, hz, rfl⟩ := List.mem_map.mp hr
    have hv : y.1 = y.2.2.1 := (isPart_addressed rfl hpart).1
    have hylt : y.1 < 2 ^ 64 := addr_lt_of_isPart (r := (z.1, z)) (hlt z hz) hpart
    have h0 := ht 0 (Nat.zero_le _)
    rw [Nat.add_zero, Nat.mod_eq_of_lt hylt, hv] at h0
    refine holds_mapped arch.pos arch.pageSize_dvd hf h0 ?_ (hpage _ hx) _
    have hne := hlast y.2.2.1 y.2.1.pageType
    rw [h0] at hne
    unfold PhysicalAddress.isValid Address.isValid
    refine bne_iff_ne.mpr fun e => hne ?_
    rw [e]
    rfl
  | @unmapped x page hx hp =>
    obtain ⟨⟨r, hr, hpart⟩, f', rfl, hu⟩ := hds.unmapped x hx
    obtain ⟨z, hz, rfl⟩ := List.mem_map.mp hr
    have hlt' : x.2.1 < 2 ^ 64 := addr_lt_of_isPart (r := (z.1, z)) (hlt z hz) hpart
    obtain ⟨i, hi, hpg⟩ := invalidPages_spec arch.one_lt hlt' hp
    exact holds_unmapped arch.pos hf (hu i hi) hpg _

end TLBCache

end Jiaa
