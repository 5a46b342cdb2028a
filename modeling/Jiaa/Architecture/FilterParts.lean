/-
  Jiaa.Architecture.FilterParts — what the filter makes of one request, part by part
  (memflow `architecture/mmu_spec.rs`: `virt_addr_filter`).

  The filter cuts a request at the size of the address space, then at half the virtual
  range from its start, and what is left at half the virtual range from its end. Which of
  the cuts leave something depends on the length of the request alone.

  - `virtAddrFilter_short`: nothing past the first half, all is kept;
  - `virtAddrFilter_panics`: a part past the first half, shorter than the second;
  - `virtAddrFilter_long`: the ends are kept and the middle rejected, if the upper end looks
    canonical; if not, the upper end and the middle are dropped.
-/

import Jiaa.Architecture.VirtToPhys

namespace Jiaa.ArchMMUSpec

open TranslationChunk

variable {T β : Type*} [SplitAtIndex T] [lawful : LawfulSplitAtIndex T β] (spec : ArchMMUSpec)

/-! ## The sizes the filter cuts at -/

theorem indexBits_zero_pos : 0 < spec.indexBits 0 := by
  have h2 := spec.two_le_splits
  have h0 : 0 < spec.splitCount := by unfold splitCount; omega
  have h1 := spec.indexBits_succ h0
  have h3 := spec.splitAtStep_pos h0
  omega

theorem virtRange_lt_word : spec.virtRange < 2 ^ (spec.addrSize * 8) := by
  have h0 := spec.indexBits_zero_pos
  have h1 : spec.indexBits 0 ≤ spec.addrSize * 8 := spec.splits_sum_le
  rw [virtRange, Nat.one_shiftLeft]
  exact Nat.pow_lt_pow_right (by omega) (by show spec.indexBits 0 - 1 < _; omega)

theorem two_le_virtRange : 2 ≤ spec.virtRange := by
  have h2 := spec.two_le_splits
  have h0 : 1 < spec.splitCount := by unfold splitCount; omega
  have h1 := spec.indexBits_succ (show 0 < spec.splitCount by omega)
  have h3 := spec.indexBits_succ h0
  rw [Nat.zero_add] at h1
  have h4 := spec.splitAtStep_pos (show 0 < spec.splitCount by omega)
  have h5 := spec.splitAtStep_pos h0
  rw [virtRange, Nat.one_shiftLeft]
  calc 2 = 2 ^ 1 := rfl
    _ ≤ 2 ^ ((spec.virtAddrBitRange 0).2 - 1) :=
      Nat.pow_le_pow_right (by omega) (by show 1 ≤ spec.indexBits 0 - 1; omega)

/-- The first cut of the filter is at the size of the addresses. -/
theorem addrMask_succ : Address.bitMask 0 (spec.addrSize * 8 - 1) + 1 = 2 ^ (spec.addrSize * 8) := by
  have hsize := spec.addrSize_le
  have hbits : spec.indexBits 0 ≤ spec.addrSize * 8 := spec.splits_sum_le
  have h0 := spec.indexBits_zero_pos
  have hp := Nat.two_pow_pos (spec.addrSize * 8)
  rw [Address.bitMask_eq (by omega) (by omega), show spec.addrSize * 8 - 1 + 1 = spec.addrSize * 8 by omega]
  omega

/-! ## Parts -/

/-- The bytes `i` to `j - 1` of the request `b` at `a`. -/
structure PartOf (a : Nat) (b : T) (i j : Nat) (d : TranslateData T) : Prop where
  size : SplitAtIndex.length d = j - i
  holds : bytes d = ((at64 a (bytes b)).take j).drop i

/-- The parts of a cut, as bytes. -/
theorem bytes_parts {d : TranslateData T} {n : Nat} {cut : TranslateData T × Option (TranslateData T)}
    (h : IsCut bytes (bytes d) n cut) :
    bytes cut.1 = (bytes d).take n ∧ (bytesOf cut.2.toList : List (Nat × β)) = (bytes d).drop n := by
  refine ⟨h.1, ?_⟩
  rcases h.2 with ⟨hn, hlen⟩ | ⟨r, hr, -, hb⟩
  · rw [hn, List.drop_eq_nil_of_le hlen]
    rfl
  · rw [hr, ← hb]
    simp [bytesOf]

/-- A part cut off at the front stays a part. -/
theorem PartOf.left {a i j n : Nat} {b : T} {d : TranslateData T} (h : PartOf a b i j d)
    {cut : TranslateData T × Option (TranslateData T)} (hcut : IsCut bytes (bytes d) n cut) :
    PartOf a b i (min j (i + n)) cut.1 := by
  have hlen := length_cut_left hcut
  have hl := h.size
  refine ⟨by omega, ?_⟩
  rw [hcut.1, h.holds, List.take_drop, List.take_take, Nat.min_comm]

/-- What is right of the cut is a part too. -/
theorem PartOf.right {a i j n : Nat} {b : T} {d r : TranslateData T} (h : PartOf a b i j d)
    {cut : TranslateData T × Option (TranslateData T)} (hcut : IsCut bytes (bytes d) n cut) (hr : cut.2 = some r) :
    PartOf a b (i + n) j r := by
  obtain ⟨h1, h2⟩ := length_cut_right hcut hr
  have hl := h.size
  refine ⟨by omega, ?_⟩
  have hb := (bytes_parts hcut).2
  rw [hr] at hb
  rw [show bytes r = (bytesOf (some r).toList : List (Nat × β)) by simp [bytesOf], hb, h.holds, List.drop_drop]

theorem PartOf.all {a : Nat} {b : T} {d : TranslateData T} (h : PartOf a b 0 (SplitAtIndex.length b) d) :
    bytes d = at64 a (bytes b) := by
  rw [h.holds, List.drop_zero, List.take_of_length_le (by rw [length_at64, LawfulSplitAtIndex.length_eq])]

/-- The part of a request that fits the address size, and what is behind it. -/
theorem cut_addrSize (a : Nat) (b : T) :
    ∃ left reject, splitInclusiveAt (TranslateData.mk a b) (Address.bitMask 0 (spec.addrSize * 8 - 1)) = (left, reject) ∧
      left.addr = a ∧ PartOf a b 0 (min (SplitAtIndex.length b) (2 ^ (spec.addrSize * 8))) left ∧
      (bytesOf reject.toList : List (Nat × β)) = (at64 a (bytes b)).drop (2 ^ (spec.addrSize * 8)) ∧
      (SplitAtIndex.length b ≤ 2 ^ (spec.addrSize * 8) → reject = none) := by
  have hcut := LawfulSplitAtIndex.cutInclusiveAt (TranslateData.mk a b) (Address.bitMask 0 (spec.addrSize * 8 - 1))
  rw [spec.addrMask_succ] at hcut
  have hall : PartOf a b 0 (SplitAtIndex.length b) (TranslateData.mk a b) := by
    refine ⟨rfl, ?_⟩
    rw [List.drop_zero, List.take_of_length_le (by rw [length_at64, LawfulSplitAtIndex.length_eq])]
    rfl
  have hleft := hall.left hcut
  rw [Nat.zero_add] at hleft
  exact ⟨_, _, rfl, rfl, hleft, (bytes_parts hcut).2, (cut_right_none hcut).mpr⟩

/-- The parts of a long request are the request. -/
theorem long_flat {a : Nat} {b : T} {lower mid high : TranslateData T} {reject : List (TranslateData T)}
    (h : 2 * spec.virtRange ≤ min (SplitAtIndex.length b) (2 ^ (spec.addrSize * 8)))
    (hlow : PartOf a b 0 spec.virtRange lower)
    (hmid : PartOf a b spec.virtRange (min (SplitAtIndex.length b) (2 ^ (spec.addrSize * 8)) - spec.virtRange + 1) mid)
    (hhigh : PartOf a b (min (SplitAtIndex.length b) (2 ^ (spec.addrSize * 8)) - spec.virtRange + 1)
      (min (SplitAtIndex.length b) (2 ^ (spec.addrSize * 8))) high)
    (hrej : (bytesOf reject : List (Nat × β)) = (at64 a (bytes b)).drop (2 ^ (spec.addrSize * 8))) :
    bytes lower ++ (bytes mid ++ (bytes high ++ bytesOf reject)) = at64 a (bytes b) := by
  have hr2 := spec.two_le_virtRange
  have hlen : (at64 a (bytes b)).length = SplitAtIndex.length b := by rw [length_at64, LawfulSplitAtIndex.length_eq]
  rw [hlow.holds, hmid.holds, hhigh.holds, hrej, List.drop_zero]
  generalize at64 a (bytes b) = l at hlen ⊢
  have hjoin : ∀ i j, i ≤ j → l.take i ++ (l.take j).drop i = l.take j := by
    intro i j hij
    conv_rhs => rw [← List.take_append_drop i (l.take j), List.take_take, Nat.min_eq_left hij]
  have hend : l.drop (2 ^ (spec.addrSize * 8)) = l.drop (min (SplitAtIndex.length b) (2 ^ (spec.addrSize * 8))) := by
    rw [List.drop_eq_drop_iff, hlen]
    omega
  rw [hend, ← List.append_assoc, hjoin _ _ (by omega), ← List.append_assoc, hjoin _ _ (by omega), List.take_append_drop]

/-! ## The outcomes -/

/-- Where no part past the first half is left, all of the request is kept. -/
theorem virtAddrFilter_short (a : Nat) {b : T} (h : SplitAtIndex.length b ≤ spec.virtRange)
    (validOut : List (TranslateData T)) (failOut : List (Error × Nat × T)) :
    ∃ lower, lower.addr = a ∧ PartOf a b 0 (SplitAtIndex.length b) lower ∧
      spec.virtAddrFilter a b validOut failOut =
        some (if 0 < SplitAtIndex.length b then validOut ++ [lower] else validOut, failOut) := by
  have hword := spec.virtRange_lt_word
  obtain ⟨left, reject, hfirst, ha, hleft, -, hreject⟩ := spec.cut_addrSize a b
  rw [hreject (by omega)] at hfirst
  rw [virtAddrFilter, hfirst]
  have hsize := hleft.size
  have hcut := LawfulSplitAtIndex.cutAt left spec.virtRange
  have hlow := hleft.left hcut
  have hnone := (cut_right_none hcut).mpr (by omega)
  have hlen := hlow.size
  refine ⟨(splitAt left spec.virtRange).1, ha, ?_, ?_⟩
  · rwa [show min (min (SplitAtIndex.length b) (2 ^ (spec.addrSize * 8))) (0 + spec.virtRange) =
      SplitAtIndex.length b by omega] at hlow
  · simp only [hnone, hlen, Option.toList_none, List.map_nil, List.append_nil]
    rw [show min (min (SplitAtIndex.length b) (2 ^ (spec.addrSize * 8))) (0 + spec.virtRange) - 0 =
      SplitAtIndex.length b by omega]

/-- The two cuts of a request that has a part past the first half. -/
theorem cut_virtRange {a : Nat} {b : T} (h : spec.virtRange < SplitAtIndex.length b) {left : TranslateData T}
    (ha : left.addr = a) (hleft : PartOf a b 0 (min (SplitAtIndex.length b) (2 ^ (spec.addrSize * 8))) left) :
    PartOf a b 0 spec.virtRange (splitAt left spec.virtRange).1 ∧ (splitAt left spec.virtRange).1.addr = a ∧
      ∃ data, (splitAt left spec.virtRange).2 = some data ∧ data.addr = Address.add a spec.virtRange ∧
        PartOf a b spec.virtRange (min (SplitAtIndex.length b) (2 ^ (spec.addrSize * 8))) data := by
  have hword := spec.virtRange_lt_word
  have hcut := LawfulSplitAtIndex.cutAt left spec.virtRange
  have hlow := hleft.left hcut
  rw [show min (min (SplitAtIndex.length b) (2 ^ (spec.addrSize * 8))) (0 + spec.virtRange) = spec.virtRange by omega]
    at hlow
  refine ⟨hlow, ha, ?_⟩
  rcases hd : (splitAt left spec.virtRange).2 with _ | data
  · have hsize := hleft.size
    have := (cut_right_none hcut).mp hd
    omega
  · have hdata := hleft.right hcut hd
    rw [Nat.zero_add] at hdata
    refine ⟨data, rfl, ?_, hdata⟩
    obtain ⟨x, -, rfl⟩ := Option.map_eq_some_iff.mp hd
    have hlen := hlow.size
    show Address.add left.addr (SplitAtIndex.length (splitAt left spec.virtRange).1) = _
    rw [ha, hlen, Nat.sub_zero]

include lawful in
/-- Where a part past the first half is left and it is shorter than the second half, the
    difference of the lengths wraps and the cut at it leaves nothing to unwrap. -/
theorem virtAddrFilter_panics (a : Nat) {b : T} (hlen : SplitAtIndex.length b < 2 ^ 64)
    (h : spec.virtRange < SplitAtIndex.length b)
    (hshort : min (SplitAtIndex.length b) (2 ^ (spec.addrSize * 8)) < 2 * spec.virtRange)
    (validOut : List (TranslateData T)) (failOut : List (Error × Nat × T)) :
    spec.virtAddrFilter a b validOut failOut = none := by
  have hword := spec.virtRange_lt_word
  obtain ⟨left, reject, hfirst, ha, hleft, -, -⟩ := spec.cut_addrSize a b
  rw [virtAddrFilter, hfirst]
  obtain ⟨-, -, data, hd, -, hdata⟩ := spec.cut_virtRange h ha hleft
  have hsize := hdata.size
  have hsub : Address.sub (SplitAtIndex.length data) spec.virtRange = SplitAtIndex.length data + 2 ^ 64 - spec.virtRange :=
    Nat.mod_eq_of_lt (by omega)
  rcases splitAtRev_cases data spec.virtRange with ⟨hnone, -⟩ | ⟨_, _, -, hlt, -⟩
  · simp only [hd, hnone, Option.map_none]
  · omega

/-- Where the part past the first half is as long as the second, the ends are kept and what
    is between them rejected, if the upper end looks canonical, and dropped if not. -/
theorem virtAddrFilter_long (a : Nat) {b : T} (hlen : SplitAtIndex.length b < 2 ^ 64)
    (h : 2 * spec.virtRange ≤ min (SplitAtIndex.length b) (2 ^ (spec.addrSize * 8)))
    (validOut : List (TranslateData T)) (failOut : List (Error × Nat × T)) :
    ∃ (lower mid high : TranslateData T) (reject : List (TranslateData T)),
      lower.addr = a ∧ PartOf a b 0 spec.virtRange lower ∧
      PartOf a b spec.virtRange (min (SplitAtIndex.length b) (2 ^ (spec.addrSize * 8)) - spec.virtRange + 1) mid ∧
      high.addr = (a + (min (SplitAtIndex.length b) (2 ^ (spec.addrSize * 8)) - spec.virtRange + 1)) % 2 ^ 64 ∧
      PartOf a b (min (SplitAtIndex.length b) (2 ^ (spec.addrSize * 8)) - spec.virtRange + 1)
        (min (SplitAtIndex.length b) (2 ^ (spec.addrSize * 8))) high ∧
      (bytesOf reject : List (Nat × β)) = (at64 a (bytes b)).drop (2 ^ (spec.addrSize * 8)) ∧
      spec.virtAddrFilter a b validOut failOut = some (
        if high.addr &&& Address.bitMask (spec.virtAddrBitRange 0).2 (spec.addrSize * 8 - 1) =
            Address.bitMask (spec.virtAddrBitRange 0).2 (spec.addrSize * 8 - 1)
        then (validOut ++ [lower, high], failOut ++ (reject ++ [mid]).map fun d => (Error.virtualTranslate, d.addr, d.buf))
        else (validOut ++ [lower], failOut ++ reject.map fun d => (Error.virtualTranslate, d.addr, d.buf))) := by
  have hword := spec.virtRange_lt_word
  have hr2 := spec.two_le_virtRange
  have hspan : 2 ^ (spec.addrSize * 8) ≤ 2 ^ 64 := Nat.pow_le_pow_right (by omega) (by have := spec.addrSize_le; omega)
  obtain ⟨left, reject, hfirst, ha, hleft, hreject, -⟩ := spec.cut_addrSize a b
  rw [virtAddrFilter, hfirst]
  obtain ⟨hlow, hla, data, hd, hda, hdata⟩ := spec.cut_virtRange (by omega) ha hleft
  have hlpos : 0 < SplitAtIndex.length (splitAt left spec.virtRange).1 := by rw [hlow.size]; omega
  have hsize := hdata.size
  have hsub : Address.sub (SplitAtIndex.length data) spec.virtRange = SplitAtIndex.length data - spec.virtRange :=
    Address.sub_eq (by omega) (by omega)
  have hcut := LawfulSplitAtIndex.cutInclusiveAt data (SplitAtIndex.length data - spec.virtRange)
  have hmid := hdata.left hcut
  rcases hh : (splitInclusiveAt data (SplitAtIndex.length data - spec.virtRange)).2 with _ | high
  · have := (cut_right_none hcut).mp hh
    omega
  · have hhigh := hdata.right hcut hh
    have haddr : high.addr = Address.add data.addr
        (SplitAtIndex.length (splitInclusiveAt data (SplitAtIndex.length data - spec.virtRange)).1) := by
      obtain ⟨x, -, rfl⟩ := Option.map_eq_some_iff.mp hh
      rfl
    have hmsize := hmid.size
    have hhsize := hhigh.size
    have hend : spec.virtRange + (SplitAtIndex.length data - spec.virtRange + 1) =
        min (SplitAtIndex.length b) (2 ^ (spec.addrSize * 8)) - spec.virtRange + 1 := by omega
    have hhpos : 0 < SplitAtIndex.length high := by omega
    have hne : SplitAtIndex.length (splitInclusiveAt data (SplitAtIndex.length data - spec.virtRange)).1 ≠ 0 := by omega
    rw [hend] at hmid hhigh
    rw [hmsize, hda, Address.add, Address.add, Nat.mod_add_mod, Nat.add_assoc,
      show spec.virtRange + (min (min (SplitAtIndex.length b) (2 ^ (spec.addrSize * 8)))
        (spec.virtRange + (SplitAtIndex.length data - spec.virtRange + 1)) - spec.virtRange) =
        min (SplitAtIndex.length b) (2 ^ (spec.addrSize * 8)) - spec.virtRange + 1 by omega] at haddr
    refine ⟨(splitAt left spec.virtRange).1, (splitInclusiveAt data (SplitAtIndex.length data - spec.virtRange)).1, high,
      reject.toList, hla, hlow, ?_, haddr, hhigh, hreject, ?_⟩
    · rwa [Nat.min_eq_right (by omega)] at hmid
    · simp only [hd, splitAtRev, hsub, hh, Option.map_some, if_neg hne, hlpos, hhpos, if_true, Option.some.injEq,
        Option.toList_some, List.map_cons, List.map_nil, List.map_append]
      -- the test is an `xor` of the masked address with the mask
      by_cases htest : high.addr &&& Address.bitMask (spec.virtAddrBitRange 0).2 (spec.addrSize * 8 - 1) =
          Address.bitMask (spec.virtAddrBitRange 0).2 (spec.addrSize * 8 - 1)
      · rw [if_neg (by rw [htest, Nat.xor_self]; exact fun h => h rfl), if_pos htest]
        simp
      · rw [if_neg htest, if_pos fun h => htest (Nat.xor_eq_zero_iff.mp h).symm]

end Jiaa.ArchMMUSpec
