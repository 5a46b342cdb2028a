/-
  Jiaa.Architecture.Translation — what a batch of requests is translated to.

  A batch is compared with its bytes translated one at a time (`virtToPhys`), a single
  request with the page walk of its tables (`walk`).

  - `virtToPhys_eq_lone`: a lone byte is translated by its own walk;
  - `virtToPhysIter_sound`: what a batch without a straddle delivers is what its bytes get
    alone, where no large page mixes its entry's address with its offset;
  - `virtToPhysIter_fails`: a byte of such a batch fails only if it does alone or shares
    an entry's value with another page of the batch;
  - `virtToPhysIter_walks`: one request is translated as the tables say exactly when no
    large page mixes address and offset;
  - the batches on which the code falls short, with the page tables that show it.
-/

import Jiaa.Architecture.BatchWalk

namespace Jiaa.ArchMMUSpec

open TranslationChunk

variable {M T β : Type*} [SplitAtIndex T] [lawful : LawfulSplitAtIndex T β] (spec : ArchMMUSpec)

section Defs

variable [PhysicalMemory M]

/-- The byte at `v` in a batch of its own. -/
def virtToPhys (mem : M) (dtb v : Nat) : Option PhysicalAddress :=
  (spec.virtToPhysIter mem dtb [(v, (1 : Nat))]).bind fun (o, _) => o.out.head?.map (·.1)

/-- Every byte delivered is a byte of the requests, at the address it gets alone. -/
def Sound (mem : M) (dtb : Nat) (reqs : List (Nat × T)) : Prop :=
  ∀ o mem', spec.virtToPhysIter mem dtb reqs = some (o, mem') →
    ∃ delivered : List (Nat × β), (delivered ++ failBytes o.outFail).Perm (requestBytes reqs) ∧
      List.Forall₂ (fun y q => q.2 = y.2 ∧ spec.virtToPhys mem dtb y.1 = some q.1) delivered (outBytes o.out)

/-- In the final page of step `step` that holds `v` and `w`, the address part of the entry
    meets the same bits of both page offsets. -/
def AgreeAt (next : Next) (dtb v w step pt : Nat) : Prop :=
  spec.pageOf step v = spec.pageOf step w → spec.entryAt next dtb w step = some pt →
    spec.checkEntry pt step = true → spec.isFinalMapping pt step = true →
    spec.pteAddrMask pt step &&& spec.virtAddrToPageOffset v step =
      spec.pteAddrMask pt step &&& spec.virtAddrToPageOffset w step

/-- The offsets in each final page of a request agree. The mask of an entry starts at the
    smallest page, so they may not, in a large page only. -/
def OffsetsAgree (next : Next) (dtb : Nat) (r : Nat × T) : Prop :=
  ∀ v w step pt, r.1 ≤ v → v < r.1 + SplitAtIndex.length r.2 → r.1 ≤ w → w < r.1 + SplitAtIndex.length r.2 →
    step < spec.splitCount → spec.entryAt next dtb v step = some pt → spec.AgreeAt next dtb v w step pt

/-- An entry that two pages of a step hold is absent. -/
def DifferAt (c : Nat → UInt8) (dtb v w step e : Nat) : Prop :=
  spec.entryAt (spec.tableNext c) dtb w (step + 1) = some e →
    spec.pageOf (step + 1) v ≠ spec.pageOf (step + 1) w → spec.checkEntry e (step + 1) = false

/-- The tables of a request: no present entry on the way to it points at its own table,
    and present entries of two pages of a step differ. -/
structure DistinctEntries (c : Nat → UInt8) (dtb : Nat) (r : Nat × T) : Prop where
  noSelf : ∀ v, r.1 ≤ v → v < r.1 + SplitAtIndex.length r.2 → spec.NoSelfEntry c dtb v
  distinct : ∀ v w step e, r.1 ≤ v → v < r.1 + SplitAtIndex.length r.2 → r.1 ≤ w →
    w < r.1 + SplitAtIndex.length r.2 → step + 1 < spec.splitCount →
    spec.entryAt (spec.tableNext c) dtb v (step + 1) = some e → spec.DifferAt c dtb v w step e

/-- Inside one half of the virtual address space. -/
def Canonical (r : Nat × T) : Prop :=
  0 < SplitAtIndex.length r.2 ∧ (r.1 + SplitAtIndex.length r.2 ≤ spec.virtRange ∨
    (2 ^ (spec.addrSize * 8) - spec.virtRange ≤ r.1 ∧ r.1 + SplitAtIndex.length r.2 ≤ 2 ^ (spec.addrSize * 8)))

instance (r : Nat × T) : Decidable (spec.Canonical r) := inferInstanceAs (Decidable (_ ∧ _))

/-- A canonical request that ends below the top fits. -/
theorem Canonical.fits {r : Nat × T} (h : spec.Canonical r) (hw : r.1 + SplitAtIndex.length r.2 < 2 ^ 64) :
    spec.Fits r := by
  obtain ⟨h1, h2⟩ := h
  have h3 := spec.virtRange_lt_word
  exact ⟨h1, by omega, hw⟩

end Defs

/-! ## Checking the conditions -/

section Decide

instance (r : Nat × T) : Decidable (spec.Fits r) :=
  decidable_of_iff (0 < SplitAtIndex.length r.2 ∧ SplitAtIndex.length r.2 ≤ spec.virtRange ∧
      r.1 + SplitAtIndex.length r.2 < 2 ^ 64)
    ⟨fun ⟨h1, h2, h3⟩ => ⟨h1, h2, h3⟩, fun ⟨h1, h2, h3⟩ => ⟨h1, h2, h3⟩⟩

set_option synthInstance.maxSize 400 in
instance (L : List (Nat × β)) : Decidable (spec.NoStraddleBatch fun v => ∃ y ∈ L, y.1 = v) :=
  decidable_of_iff (∀ step < spec.splitCount - 1, ∀ z ∈ L, ∀ x ∈ L, ∀ y ∈ L,
      spec.pageOf step z.1 = spec.pageOf step x.1 → spec.pageOf step y.1 = spec.pageOf step x.1 →
      z.1 / spec.pageSizeStepUnchecked (step + 1) < x.1 / spec.pageSizeStepUnchecked (step + 1) →
      y.1 / spec.pageSizeStepUnchecked (step + 1) = x.1 / spec.pageSizeStepUnchecked (step + 1) + 1 →
      ∃ x' ∈ L, spec.pageOf step x'.1 = spec.pageOf step x.1 ∧
        x'.1 / spec.pageSizeStepUnchecked (step + 1) = x.1 / spec.pageSizeStepUnchecked (step + 1) ∧
        x'.1 + spec.pageSizeStepUnchecked (step + 1) ≤ y.1) (by
    constructor
    · rintro h step hs q z x y ⟨⟨z, hz, rfl⟩, hzq⟩ ⟨⟨x, hx, rfl⟩, hxq⟩ ⟨⟨y, hy, rfl⟩, hyq⟩ hzx hxy
      obtain ⟨x', hx', h1, h2, h3⟩ := h step (by omega) z hz x hx y hy (hzq.trans hxq.symm) (hyq.trans hxq.symm) hzx hxy
      exact ⟨x'.1, ⟨⟨x', hx', rfl⟩, h1.trans hxq⟩, h2, h3⟩
    · intro h step hs z hz x hx y hy hzx hyx h1 h2
      obtain ⟨v, ⟨⟨x', hx', rfl⟩, h3⟩, h4, h5⟩ := h step (by omega) (spec.pageOf step x.1) z.1 x.1 y.1
        ⟨⟨z, hz, rfl⟩, hzx⟩ ⟨⟨x, hx, rfl⟩, rfl⟩ ⟨⟨y, hy, rfl⟩, hyx⟩ h1 h2
      exact ⟨x', hx', h3, h4, h5⟩)

instance (next : Next) (dtb v w step pt : Nat) : Decidable (spec.AgreeAt next dtb v w step pt) :=
  inferInstanceAs (Decidable (_ → _))

instance (next : Next) (dtb : Nat) (r : Nat × T) : Decidable (spec.OffsetsAgree next dtb r) :=
  decidable_of_iff (∀ i < SplitAtIndex.length r.2, ∀ j < SplitAtIndex.length r.2, ∀ step < spec.splitCount,
      ∀ pt ∈ spec.entryAt next dtb (r.1 + i) step, spec.AgreeAt next dtb (r.1 + i) (r.1 + j) step pt) (by
    constructor
    · intro h v w step pt h1 h2 h3 h4 h5 h6
      obtain ⟨i, rfl⟩ := Nat.exists_eq_add_of_le h1
      obtain ⟨j, rfl⟩ := Nat.exists_eq_add_of_le h3
      exact h i (by omega) j (by omega) step h5 pt h6
    · intro h i hi j hj step hs pt hpt
      exact h _ _ step pt (by omega) (by omega) (by omega) (by omega) hs hpt)

instance (c : Nat → UInt8) (dtb v : Nat) : Decidable (spec.NoSelfEntry c dtb v) :=
  decidable_of_iff (∀ step < spec.splitCount - 1, ∀ pt ∈ spec.entryAt (spec.tableNext c) dtb v step,
      spec.checkEntry pt step = true → spec.isFinalMapping pt step = false →
      spec.checkEntry (spec.entryOf c pt v step) (step + 1) = true →
      spec.pteAddrMask (spec.entryOf c pt v step) step ≠ spec.pteAddrMask pt step)
    ⟨fun h step pt h1 h2 => h step (by omega) pt h2, fun h step hs pt hpt => h step pt (by omega) hpt⟩

instance (c : Nat → UInt8) (dtb v w step e : Nat) : Decidable (spec.DifferAt c dtb v w step e) :=
  inferInstanceAs (Decidable (_ → _))

instance (c : Nat → UInt8) (dtb : Nat) (r : Nat × T) : Decidable (spec.DistinctEntries c dtb r) :=
  decidable_of_iff ((∀ i < SplitAtIndex.length r.2, spec.NoSelfEntry c dtb (r.1 + i)) ∧
      ∀ i < SplitAtIndex.length r.2, ∀ j < SplitAtIndex.length r.2, ∀ step < spec.splitCount - 1,
        ∀ e ∈ spec.entryAt (spec.tableNext c) dtb (r.1 + i) (step + 1),
          spec.DifferAt c dtb (r.1 + i) (r.1 + j) step e) (by
    constructor
    · intro ⟨h1, h2⟩
      refine ⟨fun v hv hv' => ?_, fun v w step e hv hv' hw hw' hs he => ?_⟩
      · obtain ⟨i, rfl⟩ := Nat.exists_eq_add_of_le hv
        exact h1 i (by omega)
      · obtain ⟨i, rfl⟩ := Nat.exists_eq_add_of_le hv
        obtain ⟨j, rfl⟩ := Nat.exists_eq_add_of_le hw
        exact h2 i (by omega) j (by omega) step (by omega) e he
    · intro ⟨h1, h2⟩
      refine ⟨fun i hi => h1 _ (by omega) (by omega), fun i hi j hj step hs e he => ?_⟩
      exact h2 _ _ step e (by omega) (by omega) (by omega) (by omega) (by omega) he)

end Decide

/-! ## Deliveries -/

section Deliveries

variable {next : Next} {dtb : Nat} {reqs : List (Nat × T)}

theorem Delivery.Good.walks {d : Delivery T} (h : Delivery.Good spec next dtb reqs d) {y : Nat × β} (hy : y ∈ d.bytes) :
    spec.walkFrom next y.1 spec.splitCount 0 dtb = some (spec.getPhysPage d.pt y.1 d.step) :=
  spec.walkFrom_final h.step_lt (h.entry y hy) h.present h.final

theorem Delivery.Good.length {d : Delivery T} (h : Delivery.Good spec next dtb reqs d) :
    (LawfulSplitAtIndex.bytes d.buf).length = SplitAtIndex.length d.buf ∧ 0 < SplitAtIndex.length d.buf ∧
      d.addr + SplitAtIndex.length d.buf < 2 ^ 64 :=
  ⟨(LawfulSplitAtIndex.length_eq d.buf).symm, h.piece.1, h.piece.2⟩

theorem Delivery.mem_bytes {d : Delivery T} {i : Nat} {x : β}
    (hx : (LawfulSplitAtIndex.bytes d.buf)[i]? = some x) (hlt : d.addr + i < 2 ^ 64) : (d.addr + i, x) ∈ d.bytes :=
  mem_at64.mpr ⟨i, hx, (Nat.mod_eq_of_lt hlt).symm⟩

/-- The bytes of a delivery, with the addresses they are delivered at. -/
theorem getElem?_outBytes (d : Delivery T) (i : Nat) :
    (outBytes [d.result spec])[i]? = (LawfulSplitAtIndex.bytes d.buf)[i]?.map fun x =>
      ({ spec.getPhysPage d.pt d.addr d.step with
          address := ((spec.getPhysPage d.pt d.addr d.step).address + i) % 2 ^ 64 }, x) := by
  simp only [outBytes, List.flatMap_singleton, List.getElem?_map, Delivery.result, getElem?_at64, Option.map_map]
  rfl

/-- A byte of a delivery is delivered at its own address exactly when its offset meets
    the same bits of the entry as that of the first byte. -/
theorem Delivery.Good.shift {d : Delivery T} (h : Delivery.Good spec next dtb reqs d) {i : Nat}
    (hi : i < SplitAtIndex.length d.buf) :
    ({ spec.getPhysPage d.pt d.addr d.step with
        address := ((spec.getPhysPage d.pt d.addr d.step).address + i) % 2 ^ 64 } : PhysicalAddress) =
      spec.getPhysPage d.pt (d.addr + i) d.step ↔
    spec.pteAddrMask d.pt d.step &&& spec.virtAddrToPageOffset d.addr d.step =
      spec.pteAddrMask d.pt d.step &&& spec.virtAddrToPageOffset (d.addr + i) d.step := by
  obtain ⟨hlen, hpos, hwrap⟩ := h.length
  obtain ⟨x, hx⟩ : ∃ x, (LawfulSplitAtIndex.bytes d.buf)[i]? = some x := ⟨_, List.getElem?_eq_getElem (by omega)⟩
  have hpage := h.page _ (Delivery.mem_bytes hx (by omega))
  obtain ⟨step, hstep⟩ : ∃ step, d.step = step + 1 := by
    cases hs : d.step with
    | zero => have := h.final; rw [hs, spec.isFinalMapping_zero] at this; cases this
    | succ step => exact ⟨step, rfl⟩
  have hlt := h.step_lt
  rw [hstep] at hpage hlt ⊢
  rw [pageOf_succ, pageOf_succ] at hpage
  -- the sum does not wrap
  have hnowrap : (spec.getPhysPage d.pt d.addr (step + 1)).address + i < 2 ^ 64 := by
    have h1 := spec.pteAddrMask_lt hlt d.pt
    have h2 : (spec.getPhysPage d.pt d.addr (step + 1)).address ≤
        spec.pteAddrMask d.pt (step + 1) + spec.virtAddrToPageOffset d.addr (step + 1) := by
      have := Lib.Bits.or_add_and (spec.pteAddrMask d.pt (step + 1)) (spec.virtAddrToPageOffset d.addr (step + 1))
      simp only [getPhysPage, PhysicalAddress.withPage]
      omega
    have h3 : spec.virtAddrToPageOffset d.addr (step + 1) + i < spec.pageSizeStepUnchecked (step + 1) := by
      rw [spec.virtAddrToPageOffset_eq hlt]
      have h4 := Nat.div_add_mod d.addr (spec.pageSizeStepUnchecked (step + 1))
      have h5 := Nat.div_add_mod (d.addr + i) (spec.pageSizeStepUnchecked (step + 1))
      have h6 := Nat.mod_lt (d.addr + i) (spec.pageSize_pos (step + 1))
      rw [hpage] at h5
      omega
    have h7 : spec.pageSizeStepUnchecked (step + 1) ≤ 2 ^ 63 := by
      rw [spec.pageSizeStepUnchecked_eq]
      exact Nat.pow_le_pow_right (by omega) (by have := spec.indexBits_lt (Nat.lt_of_succ_lt hlt); omega)
    omega
  rw [Nat.mod_eq_of_lt hnowrap, ← spec.physPage_shift hlt d.pt hpage]
  constructor
  · intro e
    exact congrArg PhysicalAddress.address e
  · intro e
    rw [e]
    rfl

/-- Delivered where the offsets agree, every byte is delivered where its walk leads. -/
theorem outBytes_of_good {ds : List (Delivery T)} (hd : ∀ d ∈ ds, Delivery.Good spec next dtb reqs d)
    (ho : ∀ r ∈ reqs, spec.OffsetsAgree next dtb r) :
    outBytes (ds.map (Delivery.result spec)) = (ds.flatMap Delivery.bytes).filterMap fun y =>
      (spec.walkFrom next y.1 spec.splitCount 0 dtb).map fun p => (p, y.2) := by
  induction ds with
  | nil => rfl
  | cons d ds ih =>
    have hg := hd d (List.mem_cons_self ..)
    obtain ⟨hlen, hpos, hwrap⟩ := hg.length
    have hone : outBytes [d.result spec] = d.bytes.filterMap fun y =>
        (spec.walkFrom next y.1 spec.splitCount 0 dtb).map fun p => (p, y.2) := by
      have hall : (d.bytes.filterMap fun y => (spec.walkFrom next y.1 spec.splitCount 0 dtb).map fun p => (p, y.2)) =
          d.bytes.map fun y => (spec.getPhysPage d.pt y.1 d.step, y.2) := by
        rw [← List.filterMap_eq_map]
        refine List.filterMap_congr fun y hy => ?_
        rw [hg.walks spec hy]
        rfl
      rw [hall]
      refine List.ext_getElem? fun i => ?_
      rw [getElem?_outBytes, List.getElem?_map, Delivery.bytes, getElem?_at64, Option.map_map]
      cases hx : (LawfulSplitAtIndex.bytes d.buf)[i]? with
      | none => rfl
      | some x =>
        have hi := (List.getElem?_eq_some_iff.mp hx).1
        obtain ⟨r, hr, hcut⟩ := hg.within
        have hmem0 : (d.addr, (LawfulSplitAtIndex.bytes d.buf)[0]) ∈ d.bytes :=
          Delivery.mem_bytes (i := 0) (List.getElem?_eq_getElem (by omega)) (by omega)
        have hmem := Delivery.mem_bytes hx (by omega)
        have h1 : r.1 ≤ d.addr := hcut.1
        have h2 : d.addr + SplitAtIndex.length d.buf ≤ r.1 + SplitAtIndex.length r.2 := hcut.2.1
        have hag := ho r hr d.addr (d.addr + i) d.step d.pt h1 (by omega) (by omega) (by omega) hg.step_lt
          (hg.entry _ hmem0) (hg.page _ hmem).symm (hg.entry _ hmem) hg.present hg.final
        have hsh := (hg.shift spec (by omega)).mpr hag
        simp only [Option.map_some, Function.comp_apply, hsh, Nat.mod_eq_of_lt (show d.addr + i < 2 ^ 64 by omega)]
    have ih := ih fun x hx => hd x (List.mem_cons_of_mem _ hx)
    have hcons : outBytes ((d :: ds).map (Delivery.result spec)) =
        outBytes [d.result spec] ++ outBytes (ds.map (Delivery.result spec)) := by
      simp [outBytes]
    rw [hcons, hone, ih, List.flatMap_cons, List.filterMap_append]

/-- Nothing is delivered of a byte whose walk ends nowhere. -/
theorem Accounts.walks {o : Outputs T} (ha : spec.Accounts next dtb reqs o []) :
    ∃ ds : List (Delivery T), o.out = ds.map (Delivery.result spec) ∧
      (∀ d ∈ ds, Delivery.Good spec next dtb reqs d) ∧
      (ds.flatMap Delivery.bytes ++ failBytes o.outFail).Perm (requestBytes reqs) ∧
      ∀ y ∈ ds.flatMap Delivery.bytes, (spec.walkFrom next y.1 spec.splitCount 0 dtb).isSome := by
  obtain ⟨⟨ds, h1, h2, h3⟩, -⟩ := ha
  rw [List.append_nil] at h3
  refine ⟨ds, h1, h2, h3, fun y hy => ?_⟩
  obtain ⟨d, hd, hy⟩ := List.mem_flatMap.mp hy
  rw [(h2 d hd).walks spec hy]
  rfl

end Deliveries

/-! ## One byte -/

section Alone

variable [PhysicalMemory M] [LawfulMemory M] [AnswersReads M]

omit [PhysicalMemory M] [LawfulMemory M] [AnswersReads M] in
/-- The addresses of a request that fits. -/
theorem mem_request {r : Nat × T} (hfit : spec.Fits r) {v : Nat} :
    (∃ y ∈ at64 r.1 (bytes r.2), y.1 = v) ↔ r.1 ≤ v ∧ v < r.1 + SplitAtIndex.length r.2 := by
  have hlen : SplitAtIndex.length r.2 = (bytes r.2).length := LawfulSplitAtIndex.length_eq r.2
  have hwrap := hfit.no_wrap
  constructor
  · rintro ⟨y, hy, rfl⟩
    have := addr_of_mem_at64 (by omega) hy
    omega
  · intro ⟨h1, h2⟩
    obtain ⟨x, hx⟩ := exists_mem_at64 (a := r.1) (l := bytes r.2) (by omega) h1 (by omega)
    exact ⟨_, hx, rfl⟩

theorem one_le_virtRange : 1 ≤ spec.virtRange := by
  rw [virtRange, Nat.one_shiftLeft]
  exact Nat.one_le_two_pow

/-- The addresses of one contiguous request never straddle: a page with an earlier one
    before it starts with one of them. -/
theorem noStraddleBatch_single {r : Nat × T} (hr : spec.Fits r) :
    spec.NoStraddleBatch fun v => ∃ y ∈ requestBytes [r], y.1 = v := by
  have hreq : requestBytes [r] = at64 r.1 (bytes r.2) := by simp [requestBytes]
  intro step hs q z x y hz hx hy hzx hxy
  simp only [hreq, spec.mem_request hr] at hz hx hy ⊢
  have hpos := spec.pageSize_pos (step + 1)
  generalize hS : spec.pageSizeStepUnchecked (step + 1) = S at *
  have hz' := Nat.lt_mul_div_succ z hpos
  have hzx' : S * (z / S + 1) ≤ S * (x / S) := Nat.mul_le_mul_left S hzx
  have hx' := Nat.mul_div_le x S
  have hy' : S * (x / S + 1) ≤ y := by rw [← hxy]; exact Nat.mul_div_le y S
  have hpage : S * (x / S) / S = x / S := Nat.mul_div_cancel_left _ hpos
  refine ⟨S * (x / S), ⟨⟨by omega, by omega⟩, ?_⟩, hpage, by rw [Nat.mul_add] at hy'; omega⟩
  rw [← hx.2]
  refine spec.pageOf_refines (by omega) ?_
  rw [pageOf_succ, pageOf_succ, hS, hpage]

/-- A lone byte shares no entry, so it is translated by its own walk. -/
theorem virtToPhys_eq_lone (mem : M) (dtb : Nat) {v : Nat} (hv : v + 1 < 2 ^ 64) :
    spec.virtToPhys mem dtb v = spec.lone (content mem) dtb v := by
  have hfit : spec.Fits (v, (1 : Nat)) := ⟨Nat.one_pos, spec.one_le_virtRange, hv⟩
  have hfits : ∀ r ∈ [(v, (1 : Nat))], spec.Fits r := fun r hr => List.mem_singleton.mp hr ▸ hfit
  obtain ⟨o, mem', hrun, hacc⟩ := spec.virtToPhysIter_accounts mem dtb hfits (spec.noStraddleBatch_single hfit)
  have hreq : requestBytes [(v, (1 : Nat))] = [(v, ())] := by
    show [(v % 2 ^ 64, ())] = [(v, ())]
    rw [Nat.mod_eq_of_lt (by omega)]
  obtain ⟨ds, hout, hgood, hperm, hsome⟩ := hacc.walks spec
  rw [hreq] at hperm
  have hv' : ∀ y ∈ ds.flatMap Delivery.bytes ++ failBytes o.outFail, y.1 = v := fun y hy => by
    rw [List.mem_singleton.mp (hperm.subset hy)]
  have hhead : spec.virtToPhys mem dtb v = (ds.map (Delivery.result spec)).head?.map (·.1) := by
    rw [virtToPhys, hrun, ← hout]
    rfl
  rw [hhead]
  cases hds : ds with
  | cons d ds' =>
    have hd : d ∈ ds := by rw [hds]; exact List.mem_cons_self ..
    obtain ⟨hlen, hpos, hwrap⟩ := (hgood d hd).length
    have hmem := Delivery.mem_bytes (d := d) (i := 0) (List.getElem?_eq_getElem (by omega)) (by omega)
    have hwalk := (hgood d hd).walks spec hmem
    have hdv : d.addr = v := hv' _ (List.mem_append_left _ (List.mem_flatMap.mpr ⟨d, hd, hmem⟩))
    rw [lone, ← hdv]
    exact hwalk.symm
  | nil =>
    have hone : (failBytes o.outFail).Perm [(v, ())] := by simpa [hds] using hperm
    have hfail := hacc.fails (v, ()) (hone.symm.subset (List.mem_singleton_self _))
    rcases hfail with hnone | ⟨step, e, -, -, z, hz, hne, -⟩
    · exact hnone.symm
    · rw [hreq] at hz
      rw [List.mem_singleton.mp hz] at hne
      exact absurd rfl hne

/-! ## Batches -/

theorem exists_of_forall₂ {α γ : Type*} {R : α → γ → Prop} {l : List α} {m : List γ} (h : List.Forall₂ R l m) {q : γ}
    (hq : q ∈ m) : ∃ y ∈ l, R y q := by
  induction h with
  | nil => cases hq
  | cons hr _ ih =>
    rcases List.mem_cons.mp hq with rfl | hq
    · exact ⟨_, List.mem_cons_self .., hr⟩
    · obtain ⟨y, hy, h⟩ := ih hq
      exact ⟨y, List.mem_cons_of_mem _ hy, h⟩

theorem forall₂_filterMap {α γ : Type*} {f : α → Option γ} {R : α → γ → Prop} : ∀ (l : List α),
    (∀ y ∈ l, (f y).isSome) → (∀ y ∈ l, ∀ q, f y = some q → R y q) → List.Forall₂ R l (l.filterMap f) := by
  intro l
  induction l with
  | nil => intro _ _; exact List.Forall₂.nil
  | cons y l ih =>
    intro h hR
    obtain ⟨q, hq⟩ := Option.isSome_iff_exists.mp (h y (List.mem_cons_self ..))
    rw [List.filterMap_cons_some hq]
    exact List.Forall₂.cons (hR y (List.mem_cons_self ..) q hq)
      (ih (fun x hx => h x (List.mem_cons_of_mem _ hx)) fun x hx => hR x (List.mem_cons_of_mem _ hx))

/-- The addresses of the requests that fit stay below the top. -/
theorem Fits.mem_lt {reqs : List (Nat × T)} (hfit : ∀ r ∈ reqs, spec.Fits r) {y : Nat × β}
    (hy : y ∈ requestBytes reqs) : y.1 + 1 < 2 ^ 64 := by
  obtain ⟨r, hr, hy⟩ := List.mem_flatMap.mp hy
  have hlen : SplitAtIndex.length r.2 = (bytes r.2).length := LawfulSplitAtIndex.length_eq r.2
  have hwrap := (hfit r hr).no_wrap
  have := addr_of_mem_at64 (by omega) hy
  omega

/-- Four pages of the first table of an address space, behind the table base `0x1000`. -/
def fourPages : FlatMemory :=
  FlatMemory.ofWords [(0x1000, 0x2003), (0x2000, 0x3003), (0x3000, 0x4003),
    (0x4000, 0x10003), (0x4010, 0x12003), (0x4018, 0x15003)]

/-- A byte of a batch without a straddle fails only if it fails alone, or if another page
    of the batch read an entry with the same value at some step. -/
theorem virtToPhysIter_fails (mem : M) (dtb : Nat) (reqs : List (Nat × T)) (hfit : ∀ r ∈ reqs, spec.Fits r)
    (hn : spec.NoStraddleBatch fun v => ∃ y ∈ requestBytes reqs, y.1 = v) {o : Outputs T} {mem' : M}
    (hrun : spec.virtToPhysIter mem dtb reqs = some (o, mem')) :
    ∀ y ∈ failBytes o.outFail, y ∈ requestBytes reqs ∧
      (spec.virtToPhys mem dtb y.1 = none ∨ spec.Shared (spec.loneNext (content mem)) dtb reqs y.1) := by
  intro y hy
  obtain ⟨o', mem'', hrun', hacc⟩ := spec.virtToPhysIter_accounts mem dtb hfit hn
  rw [hrun] at hrun'
  cases hrun'
  obtain ⟨ds, -, -, hperm, -⟩ := hacc.walks spec
  have hmem := hperm.subset (List.mem_append_right _ hy)
  rw [spec.virtToPhys_eq_lone mem dtb (Fits.mem_lt spec hfit hmem)]
  exact ⟨hmem, hacc.fails y hy⟩

/-- Pages 1 and 2 of an address space, in one frame. -/
def sharedFrame : FlatMemory :=
  FlatMemory.ofWords [(0x1000, 0x2003), (0x2000, 0x3003), (0x3000, 0x4003), (0x4008, 0x10003), (0x4010, 0x10003)]

theorem virtToPhysIter_fails_sharedFrame :
    ∃ o mem', x64.virtToPhysIter sharedFrame 0x1000 [(0x1000, (⟨0, 0, 1⟩ : SliceMut)), (0x2000, ⟨1, 0, 1⟩)] =
        some (o, mem') ∧
      ∀ y ∈ failBytes o.outFail, y ∈ requestBytes [(0x1000, (⟨0, 0, 1⟩ : SliceMut)), (0x2000, ⟨1, 0, 1⟩)] ∧
        (x64.virtToPhys sharedFrame 0x1000 y.1 = none ∨
          x64.Shared (x64.loneNext (content sharedFrame)) 0x1000
            [(0x1000, (⟨0, 0, 1⟩ : SliceMut)), (0x2000, ⟨1, 0, 1⟩)] y.1) := by
  have hsome : (x64.virtToPhysIter sharedFrame 0x1000
      [(0x1000, (⟨0, 0, 1⟩ : SliceMut)), (0x2000, ⟨1, 0, 1⟩)]).isSome = true := by decide +kernel
  obtain ⟨⟨o, mem'⟩, hrun⟩ := Option.isSome_iff_exists.mp hsome
  exact ⟨o, mem', hrun, x64.virtToPhysIter_fails _ _ _ (by decide +kernel) (by decide +kernel) hrun⟩

/-- One of the two pages fails, and either is translated alone. -/
theorem sharedFrame_fails :
    (∀ r ∈ [(0x1000, (⟨0, 0, 1⟩ : SliceMut)), (0x2000, ⟨1, 0, 1⟩)], x64.Canonical r) ∧
      ∃ o mem', x64.virtToPhysIter sharedFrame 0x1000 [(0x1000, (⟨0, 0, 1⟩ : SliceMut)), (0x2000, ⟨1, 0, 1⟩)] =
          some (o, mem') ∧
        ∃ y ∈ failBytes o.outFail, x64.virtToPhys sharedFrame 0x1000 y.1 ≠ none := by
  refine ⟨by decide +kernel, ?_⟩
  have hrun : (x64.virtToPhysIter sharedFrame 0x1000 [(0x1000, (⟨0, 0, 1⟩ : SliceMut)), (0x2000, ⟨1, 0, 1⟩)]).map
      (·.1) = some ⟨[(⟨0x10000, PageType.writeable, 11⟩, ⟨1, 0, 1⟩)], [(Error.virtualTranslate, 0x1000, ⟨0, 0, 1⟩)]⟩ := by
    decide +kernel
  obtain ⟨⟨o, mem'⟩, hrun, ho⟩ := Option.map_eq_some_iff.mp hrun
  refine ⟨o, mem', hrun, (0x1000, (0, 0)), ?_, by decide +kernel⟩
  rw [show o = _ from ho]
  decide +kernel

/-! ## One request -/

/-- The pieces make up the request: each byte is delivered where the walk of the tables
    leads, and fails exactly when that walk does. -/
def Walks (mem : M) (dtb : Nat) (r : Nat × T) : Prop :=
  ∃ o mem', spec.virtToPhysIter mem dtb [r] = some (o, mem') ∧
    (outBytes o.out).Perm ((at64 r.1 (bytes r.2)).filterMap fun y =>
      (spec.walk (content mem) dtb y.1).map fun p => (p, y.2)) ∧
    (failBytes o.outFail).Perm ((at64 r.1 (bytes r.2)).filter fun y => (spec.walk (content mem) dtb y.1).isNone)

/-- The bytes delivered and failed are those whose walks end somewhere and nowhere. -/
theorem virtToPhysIter_parts (mem : M) (dtb : Nat) {r : Nat × T} (hfit : spec.Fits r)
    (hd : spec.DistinctEntries (content mem) dtb r) :
    ∃ (o : Outputs T) (mem' : M) (ds : List (Delivery T)), spec.virtToPhysIter mem dtb [r] = some (o, mem') ∧ o.out = ds.map (Delivery.result spec) ∧
      (∀ d ∈ ds, Delivery.Good spec (spec.loneNext (content mem)) dtb [r] d) ∧
      (ds.flatMap Delivery.bytes).Perm ((at64 r.1 (bytes r.2)).filter fun y => (spec.walk (content mem) dtb y.1).isSome) ∧
      (failBytes o.outFail).Perm ((at64 r.1 (bytes r.2)).filter fun y => (spec.walk (content mem) dtb y.1).isNone) := by
  have hfits : ∀ x ∈ [r], spec.Fits x := fun x hx => List.mem_singleton.mp hx ▸ hfit
  obtain ⟨o, mem', hrun, hacc⟩ := spec.virtToPhysIter_accounts mem dtb hfits (spec.noStraddleBatch_single hfit)
  obtain ⟨ds, hout, hgood, hperm, hsome⟩ := hacc.walks spec
  have hreq : requestBytes [r] = at64 r.1 (bytes r.2) := by simp [requestBytes]
  rw [hreq] at hperm
  have hwalk : ∀ y ∈ at64 r.1 (bytes r.2), spec.lone (content mem) dtb y.1 = spec.walk (content mem) dtb y.1 := by
    intro y hy
    obtain ⟨h1, h2⟩ := (spec.mem_request hfit).mp ⟨y, hy, rfl⟩
    exact spec.lone_eq_walk (hd.noSelf y.1 h1 h2)
  have h1 : ∀ y ∈ ds.flatMap Delivery.bytes, (spec.walk (content mem) dtb y.1).isSome = true := by
    intro y hy
    rw [← hwalk y (hperm.subset (List.mem_append_left _ hy))]
    exact hsome y hy
  have h2 : ∀ y ∈ failBytes o.outFail, (spec.walk (content mem) dtb y.1).isNone = true := by
    intro y hy
    have hmem := hperm.subset (List.mem_append_right _ hy)
    rcases hacc.fails y hy with hnone | ⟨step, e, hs, he, z, hz, hne, hez⟩
    · rw [← hwalk y hmem]
      exact Option.isNone_iff_eq_none.mpr hnone
    · -- another page holds the same entry, which is absent then
      rw [hreq] at hz
      obtain ⟨h3, h4⟩ := (spec.mem_request hfit).mp ⟨y, hmem, rfl⟩
      obtain ⟨h5, h6⟩ := (spec.mem_request hfit).mp ⟨z, hz, rfl⟩
      have habs := hd.distinct z.1 y.1 step e h5 h6 h3 h4 hs (spec.entryAt_of_lone hez) (spec.entryAt_of_lone he) hne
      exact Option.isNone_iff_eq_none.mpr (spec.walkFrom_absent hs (spec.entryAt_of_lone he) habs)
  refine ⟨o, mem', ds, hrun, hout, hgood, ?_, ?_⟩
  · have h3 := hperm.filter fun y => (spec.walk (content mem) dtb y.1).isSome
    rw [List.filter_append, List.filter_eq_self.mpr h1, List.filter_eq_nil_iff.mpr fun y hy => by
      simpa using h2 y hy, List.append_nil] at h3
    exact h3
  · have h3 := hperm.filter fun y => (spec.walk (content mem) dtb y.1).isNone
    rw [List.filter_append, List.filter_eq_self.mpr h2, List.filter_eq_nil_iff.mpr fun y hy => by
      have := h1 y hy
      simpa [Option.isSome_iff_ne_none] using this, List.nil_append] at h3
    exact h3

omit [PhysicalMemory M] [LawfulMemory M] [AnswersReads M] in
/-- What the bytes of a delivery are delivered at, a byte of a buffer of distinct bytes
    at a time. -/
theorem offsetsAgree_of_delivered {c : Nat → UInt8} {dtb : Nat} {r : Nat × T} (hnodup : (bytes r.2).Nodup)
    (hd : spec.DistinctEntries c dtb r) (hfit : spec.Fits r) {ds : List (Delivery T)} {d : Delivery T} (hmem : d ∈ ds)
    (hgood : Delivery.Good spec (spec.loneNext c) dtb [r] d)
    (hsub : ∀ y ∈ d.bytes, y ∈ at64 r.1 (bytes r.2))
    (hout : (outBytes (ds.map (Delivery.result spec))).Perm ((at64 r.1 (bytes r.2)).filterMap fun y =>
      (spec.walk c dtb y.1).map fun p => (p, y.2))) {y : Nat × β} (hy : y ∈ d.bytes) :
    spec.pteAddrMask d.pt d.step &&& spec.virtAddrToPageOffset d.addr d.step =
      spec.pteAddrMask d.pt d.step &&& spec.virtAddrToPageOffset y.1 d.step := by
  obtain ⟨hlen, hpos, hwrap⟩ := hgood.length
  obtain ⟨i, hi, hv⟩ := mem_at64.mp (show (y.1, y.2) ∈ at64 d.addr _ from hy)
  have hilt := (List.getElem?_eq_some_iff.mp hi).1
  rw [Nat.mod_eq_of_lt (by omega)] at hv
  rw [hv]
  refine (hgood.shift spec (by omega)).mp ?_
  -- the byte as it was delivered, and the byte of the request it must be
  have hq : ({ spec.getPhysPage d.pt d.addr d.step with
      address := ((spec.getPhysPage d.pt d.addr d.step).address + i) % 2 ^ 64 }, y.2) ∈
      outBytes (ds.map (Delivery.result spec)) := by
    have h1 : (_, y.2) ∈ outBytes [d.result spec] :=
      List.mem_of_getElem? ((spec.getElem?_outBytes d i).trans (by rw [hi]; rfl))
    simp only [outBytes, List.flatMap_singleton] at h1
    exact List.mem_flatMap.mpr ⟨_, List.mem_map_of_mem hmem, h1⟩
  obtain ⟨y', hy', he⟩ := List.mem_filterMap.mp (hout.subset hq)
  obtain ⟨p, hp, hpe⟩ := Option.map_eq_some_iff.mp he
  obtain ⟨hp1, hp2⟩ := Prod.mk.inj hpe
  obtain ⟨j, hj, hjv⟩ := mem_at64.mp (show (y'.1, y'.2) ∈ at64 r.1 _ from hy')
  obtain ⟨k, hk, hkv⟩ := mem_at64.mp (show (y.1, y.2) ∈ at64 r.1 _ from hsub y hy)
  have hjk : j = k := (List.getElem?_inj (List.getElem?_eq_some_iff.mp hj).1 hnodup).mp (by rw [hj, hk, hp2])
  have hyy : y'.1 = y.1 := by rw [hjv, hkv, hjk]
  obtain ⟨h2, h3⟩ := (spec.mem_request hfit).mp ⟨y, hsub y hy, rfl⟩
  have hwalk := hgood.walks spec hy
  have hlone : spec.walk c dtb y.1 = some (spec.getPhysPage d.pt y.1 d.step) :=
    (spec.lone_eq_walk (hd.noSelf y.1 h2 h3)).symm.trans hwalk
  rw [hyy, hlone] at hp
  rw [← hp1, ← Option.some.inj hp, hv]

/-- One request is translated as its tables say exactly when no large page it meets mixes
    its entry's address with a page offset. -/
theorem virtToPhysIter_walks (mem : M) (dtb : Nat) (r : Nat × T) (hnodup : (bytes r.2).Nodup) (hfit : spec.Fits r)
    (hd : spec.DistinctEntries (content mem) dtb r) :
    spec.Walks mem dtb r ↔ spec.OffsetsAgree (spec.tableNext (content mem)) dtb r := by
  obtain ⟨o, mem', ds, hrun, hout, hgood, hdel, hfail⟩ := spec.virtToPhysIter_parts mem dtb hfit hd
  have hsub : ∀ y ∈ ds.flatMap Delivery.bytes, y ∈ at64 r.1 (bytes r.2) := fun y hy =>
    (List.mem_filter.mp (hdel.subset hy)).1
  constructor
  · rintro ⟨o', mem'', hrun', hwout, -⟩ v w step pt hv1 hv2 hw1 hw2 hs hev hpage hew hc hf
    rw [hrun] at hrun'
    cases hrun'
    rw [hout] at hwout
    obtain ⟨y, hy, rfl⟩ := (spec.mem_request hfit).mpr ⟨hv1, hv2⟩
    have hwalk : spec.walk (content mem) dtb y.1 = some (spec.getPhysPage pt y.1 step) :=
      spec.walkFrom_final hs hev hc hf
    obtain ⟨d, hdm, hyd⟩ := List.mem_flatMap.mp (hdel.symm.subset (List.mem_filter.mpr ⟨hy, by rw [hwalk]; rfl⟩))
    have hg := hgood d hdm
    have hstep : d.step = step := spec.final_unique (spec.entryAt_of_lone (hg.entry y hyd)) hg.final hev hf
    have hpt : d.pt = pt := by
      have := spec.entryAt_of_lone (hg.entry y hyd)
      rw [hstep, hev] at this
      exact (Option.some.inj this).symm
    -- the delivery holds the whole of the page
    have hwd : ∃ z ∈ d.bytes, z.1 = w := by
      obtain ⟨r', hr', hcut⟩ := hg.within
      rw [List.mem_singleton.mp hr'] at hcut
      obtain ⟨hlen, hpos, hwrap⟩ := hg.length
      have hpw : spec.pageOf d.step w = spec.pageOf d.step d.addr := by
        rw [← hg.page y hyd, hstep, hpage]
      obtain ⟨h1, h2⟩ := hcut.2.2 w hw1 hw2 hpw
      obtain ⟨x, hx⟩ := exists_mem_at64 (a := d.addr) (l := LawfulSplitAtIndex.bytes d.buf) (v := w)
        (by omega) h1 (by rw [hlen]; exact h2)
      exact ⟨_, hx, rfl⟩
    obtain ⟨z, hzd, rfl⟩ := hwd
    have hsd : ∀ y ∈ d.bytes, y ∈ at64 r.1 (bytes r.2) := fun y hy => hsub y (List.mem_flatMap.mpr ⟨d, hdm, hy⟩)
    have h1 := spec.offsetsAgree_of_delivered hnodup hd hfit hdm hg hsd hwout hyd
    have h2 := spec.offsetsAgree_of_delivered hnodup hd hfit hdm hg hsd hwout hzd
    rw [hstep, hpt] at h1 h2
    exact h1.symm.trans h2
  · intro ho
    refine ⟨o, mem', hrun, ?_, hfail⟩
    have hlone : ∀ x ∈ [r], spec.OffsetsAgree (spec.loneNext (content mem)) dtb x := by
      intro x hx v w step pt h1 h2 h3 h4 h5 h6 h7 h8
      rw [List.mem_singleton.mp hx] at h1 h2 h3 h4
      exact ho v w step pt h1 h2 h3 h4 h5 (spec.entryAt_of_lone h6) h7 (spec.entryAt_of_lone h8)
    rw [hout, spec.outBytes_of_good hgood hlone]
    have hcongr : ((ds.flatMap Delivery.bytes).filterMap fun y =>
        (spec.walkFrom (spec.loneNext (content mem)) y.1 spec.splitCount 0 dtb).map fun p => (p, y.2)) =
        (ds.flatMap Delivery.bytes).filterMap fun y => (spec.walk (content mem) dtb y.1).map fun p => (p, y.2) := by
      refine List.filterMap_congr fun y hy => ?_
      obtain ⟨h1, h2⟩ := (spec.mem_request hfit).mp ⟨y, hsub y hy, rfl⟩
      rw [← spec.lone_eq_walk (hd.noSelf y.1 h1 h2)]
      rfl
    rw [hcongr]
    refine (hdel.filterMap _).trans (List.Perm.of_eq ?_)
    rw [List.filterMap_filter]
    refine List.filterMap_congr fun y _ => ?_
    cases spec.walk (content mem) dtb y.1 <;> rfl

theorem virtToPhysIter_walks_fourPages : x64.Walks fourPages 0x1000 (0x2fff, (⟨0, 0, 2⟩ : SliceMut)) :=
  (x64.virtToPhysIter_walks _ _ _ (by decide +kernel) (by decide +kernel) (by decide +kernel)).mpr
    (by decide +kernel)

/-- A large page whose entry has bit 12 set (the memory type bit of a large page): from
    `0xfff` on the offset takes the bit over, the pieces delivered count on from it. -/
def bit12Page : FlatMemory := FlatMemory.ofWords [(0x1000, 0x2003), (0x2000, 0x3003), (0x3000, 0x201083)]

theorem bit12Page_not_walks :
    x64.Canonical (0xfff, (⟨0, 0, 2⟩ : SliceMut)) ∧
      x64.DistinctEntries (content bit12Page) 0x1000 (0xfff, (⟨0, 0, 2⟩ : SliceMut)) ∧
      ¬ x64.Walks bit12Page 0x1000 (0xfff, (⟨0, 0, 2⟩ : SliceMut)) := by
  refine ⟨by decide +kernel, by decide +kernel, ?_⟩
  rintro ⟨o, mem', hrun, hout, -⟩
  have hrun' : (x64.virtToPhysIter bit12Page 0x1000 [(0xfff, (⟨0, 0, 2⟩ : SliceMut))]).map (·.1) =
      some ⟨[(⟨0x201fff, PageType.writeable, 20⟩, ⟨0, 0, 2⟩)], []⟩ := by decide +kernel
  rw [hrun] at hrun'
  rw [show o = _ from Option.some.inj hrun'] at hout
  have hne : ¬ (outBytes [((⟨0x201fff, PageType.writeable, 20⟩ : PhysicalAddress), (⟨0, 0, 2⟩ : SliceMut))]).Perm
      ((at64 0xfff (bytes (⟨0, 0, 2⟩ : SliceMut))).filterMap fun y =>
        (x64.walk (content bit12Page) 0x1000 y.1).map fun p => (p, y.2)) := by decide +kernel
  exact hne hout

end Alone

end Jiaa.ArchMMUSpec
