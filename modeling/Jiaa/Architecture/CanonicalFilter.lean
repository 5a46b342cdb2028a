/-
  Jiaa.Architecture.CanonicalFilter — what the filter of virtual addresses lets through
  (memflow `architecture/mmu_spec.rs`: `virt_addr_filter`).

  The filter cuts the buffer at the size of the address space, then at one half of the
  virtual range from its start and from its end, and looks at an address only where there
  is a part past the first half. A part past the first half that is shorter than the
  second cannot be cut from its end.

  - `virtAddrFilter_spec`: the three outcomes, by the length of the request alone;
  - `filterExact_iff`: canonical bytes are let through and the others rejected exactly when
    the request is at most half a range long and canonical, or is the whole 64-bit space
    less its last byte.
-/

import Jiaa.Architecture.Conservation

namespace Jiaa.ArchMMUSpec

open TranslationChunk

variable {T β : Type*} [SplitAtIndex T] (spec : ArchMMUSpec)

/-- An address in one of the two halves of the virtual range, at the ends of the addresses
    of the architecture's size. -/
def CanonicalAddr (v : Nat) : Prop :=
  v < spec.virtRange ∨ (2 ^ (spec.addrSize * 8) - spec.virtRange ≤ v ∧ v < 2 ^ (spec.addrSize * 8))

instance (v : Nat) : Decidable (spec.CanonicalAddr v) := inferInstanceAs (Decidable (_ ∨ _))

/-- The filter lets the canonical bytes of a request through and rejects the others. -/
def FilterExact [LawfulSplitAtIndex T β] (a : Nat) (b : T) (validOut : List (TranslateData T))
    (failOut : List (Error × Nat × T)) : Prop :=
  ∃ v f, spec.virtAddrFilter a b validOut failOut = some (validOut ++ v, failOut ++ f) ∧
    (bytesOf v).Perm ((at64 a (bytes b)).filter fun y => spec.CanonicalAddr y.1) ∧
    (failBytes f).Perm ((at64 a (bytes b)).filter fun y => !spec.CanonicalAddr y.1)

/-! ## Canonical addresses of the three specs -/

theorem canonical_x64 {v : Nat} : x64.CanonicalAddr v ↔ v < 2 ^ 47 ∨ (2 ^ 64 - 2 ^ 47 ≤ v ∧ v < 2 ^ 64) := by
  have h : x64.virtRange = 2 ^ 47 := by decide
  unfold CanonicalAddr
  rw [h]
  exact Iff.rfl

theorem canonical_32 {spec : ArchMMUSpec} (hs : spec ∈ [x32, x32Pae]) {v : Nat} : spec.CanonicalAddr v ↔ v < 2 ^ 32 := by
  simp only [List.mem_cons, List.not_mem_nil, or_false] at hs
  have h : spec.virtRange = 2 ^ 31 ∧ spec.addrSize = 4 := by
    rcases hs with rfl | rfl <;> decide
  unfold CanonicalAddr
  rw [h.1, h.2]
  omega

/-- For x64 these are the addresses whose bits 63 to 47 are all equal. -/
theorem canonical_x64_bits {v : Nat} (hv : v < 2 ^ 64) :
    x64.CanonicalAddr v ↔ ∀ i, 47 ≤ i → i < 64 → v.testBit i = v.testBit 63 := by
  rw [canonical_x64]
  have hdiv : ∀ i, 47 ≤ i → v.testBit i = (v / 2 ^ 47).testBit (i - 47) := by
    intro i hi
    rw [Nat.testBit_div_two_pow, Nat.sub_add_cancel hi]
  have hlt : v / 2 ^ 47 < 2 ^ 17 := Nat.div_lt_of_lt_mul (by omega)
  constructor
  · rintro (h | ⟨h, -⟩) i hi1 hi2
    · have hq : v / 2 ^ 47 = 0 := Nat.div_eq_of_lt h
      rw [hdiv i hi1, hdiv 63 (by omega), hq, Nat.zero_testBit, Nat.zero_testBit]
    · have hq : v / 2 ^ 47 = 2 ^ 17 - 1 := by omega
      rw [hdiv i hi1, hdiv 63 (by omega), hq, Nat.testBit_two_pow_sub_one, Nat.testBit_two_pow_sub_one]
      simp [show i - 47 < 17 by omega]
  · intro h
    cases h63 : v.testBit 63 with
    | false =>
      have hq : v / 2 ^ 47 = 0 := by
        apply Nat.eq_of_testBit_eq
        intro j
        rw [Nat.zero_testBit]
        by_cases hj : j < 17
        · rw [← h63, ← h (j + 47) (by omega) (by omega), hdiv _ (by omega), Nat.add_sub_cancel]
        · exact Nat.testBit_lt_two_pow (hlt.trans_le (Nat.pow_le_pow_right (by omega) (by omega)))
      exact Or.inl (by omega)
    | true =>
      have hq : v / 2 ^ 47 = 2 ^ 17 - 1 := by
        apply Nat.eq_of_testBit_eq
        intro j
        rw [Nat.testBit_two_pow_sub_one]
        by_cases hj : j < 17
        · rw [← Nat.add_sub_cancel (n := j) (m := 47), ← hdiv _ (by omega), h (j + 47) (by omega) (by omega), h63]
          simp [hj]
        · rw [Nat.testBit_lt_two_pow (hlt.trans_le (Nat.pow_le_pow_right (by omega) (by omega)))]
          simp [hj]
      exact Or.inr ⟨by omega, hv⟩

/-! ## The outcomes -/

section Outcomes

variable [LawfulSplitAtIndex T β]

/-- Where no part past the first half is left, all is let through; where one is left but is
    shorter than the second half, the filter panics; else the ends are let through and what
    is between them rejected, if the upper end looks canonical, and dropped if not. -/
theorem virtAddrFilter_spec (a : Nat) (b : T) (hlen : SplitAtIndex.length b < 2 ^ 64) (validOut : List (TranslateData T))
    (failOut : List (Error × Nat × T)) :
    (SplitAtIndex.length b ≤ spec.virtRange ∧
      ∃ v, spec.virtAddrFilter a b validOut failOut = some (validOut ++ v, failOut) ∧ bytesOf v = at64 a (bytes b)) ∨
    (spec.virtRange < SplitAtIndex.length b ∧
      min (SplitAtIndex.length b) (2 ^ (spec.addrSize * 8)) < 2 * spec.virtRange ∧
      spec.virtAddrFilter a b validOut failOut = none) ∨
    (2 * spec.virtRange ≤ min (SplitAtIndex.length b) (2 ^ (spec.addrSize * 8)) ∧
      ∃ v w rej mid, bytesOf v = (at64 a (bytes b)).take spec.virtRange ∧
        bytesOf w = ((at64 a (bytes b)).take (min (SplitAtIndex.length b) (2 ^ (spec.addrSize * 8)))).drop
          (min (SplitAtIndex.length b) (2 ^ (spec.addrSize * 8)) - spec.virtRange + 1) ∧
        failBytes rej = (at64 a (bytes b)).drop (2 ^ (spec.addrSize * 8)) ∧
        failBytes mid = ((at64 a (bytes b)).take
          (min (SplitAtIndex.length b) (2 ^ (spec.addrSize * 8)) - spec.virtRange + 1)).drop spec.virtRange ∧
        spec.virtAddrFilter a b validOut failOut = some (
          if (a + (min (SplitAtIndex.length b) (2 ^ (spec.addrSize * 8)) - spec.virtRange + 1)) % 2 ^ 64 &&&
              Address.bitMask (spec.virtAddrBitRange 0).2 (spec.addrSize * 8 - 1) =
            Address.bitMask (spec.virtAddrBitRange 0).2 (spec.addrSize * 8 - 1)
          then (validOut ++ (v ++ w), failOut ++ (rej ++ mid)) else (validOut ++ v, failOut ++ rej))) := by
  by_cases hhalf : SplitAtIndex.length b ≤ spec.virtRange
  · obtain ⟨d, -, hd, hrun⟩ := spec.virtAddrFilter_short a hhalf validOut failOut
    refine Or.inl ⟨hhalf, if 0 < SplitAtIndex.length b then [d] else [], ?_, ?_⟩
    · rw [hrun]
      split <;> simp
    · by_cases hpos : 0 < SplitAtIndex.length b
      · rw [if_pos hpos, bytesOf, List.flatMap_singleton, hd.all]
      · have h0 : (bytes b : List β).length = 0 := by
          rw [← LawfulSplitAtIndex.length_eq]
          omega
        rw [if_neg hpos, List.length_eq_zero_iff.mp h0]
        rfl
  · by_cases hshort : min (SplitAtIndex.length b) (2 ^ (spec.addrSize * 8)) < 2 * spec.virtRange
    · exact Or.inr (Or.inl ⟨by omega, hshort, spec.virtAddrFilter_panics a hlen (by omega) hshort validOut failOut⟩)
    · obtain ⟨lower, mid, high, reject, -, hlow, hmid, hha, hhigh, hrej, hrun⟩ :=
        spec.virtAddrFilter_long a hlen (by omega) validOut failOut
      refine Or.inr (Or.inr ⟨by omega, [lower], [high], reject.map fun d => (Error.virtualTranslate, d.addr, d.buf),
        [(Error.virtualTranslate, mid.addr, mid.buf)], ?_, ?_, ?_, ?_, ?_⟩)
      · rw [bytesOf, List.flatMap_singleton, hlow.holds, List.drop_zero]
      · rw [bytesOf, List.flatMap_singleton, hhigh.holds]
      · rw [failBytes_rejected, hrej]
      · rw [← hmid.holds]
        exact (failBytes_rejected [mid]).trans (by simp [bytesOf])
      · rw [hrun, hha]
        simp

end Outcomes

/-! ## When the filter is exact -/

section Exact

variable [LawfulSplitAtIndex T β]

/-- The addresses of the bytes `i` to `j - 1` of a request. -/
theorem addr_of_mem_part {a : Nat} {b : T} (h : a + SplitAtIndex.length b ≤ 2 ^ 64) {i j : Nat} {y : Nat × β}
    (hy : y ∈ ((at64 a (bytes b)).take j).drop i) : a + i ≤ y.1 ∧ y.1 < a + min j (SplitAtIndex.length b) := by
  have hmem := hy
  unfold at64 at hmem
  rw [← Lib.Addressed.addressed_take, ← Lib.Addressed.addressed_drop] at hmem
  have hlen := LawfulSplitAtIndex.length_eq b
  have hne : i < min j (SplitAtIndex.length b) := by
    have := List.length_pos_of_mem hy
    rw [List.length_drop, List.length_take, length_at64] at this
    omega
  have := addr_of_mem_at64 (a := a + i) (by rw [List.length_drop, List.length_take]; omega) hmem
  rw [List.length_drop, List.length_take] at this
  omega

theorem exists_mem_part {a : Nat} {b : T} (h : a + SplitAtIndex.length b ≤ 2 ^ 64) {i j v : Nat}
    (hj : j ≤ SplitAtIndex.length b) (hv : a + i ≤ v) (hv' : v < a + j) :
    ∃ y : Nat × β, y ∈ ((at64 a (bytes b)).take j).drop i ∧ y.1 = v := by
  have hlen := LawfulSplitAtIndex.length_eq b
  obtain ⟨x, hx⟩ := exists_mem_at64 (a := a + i) (l := ((bytes b).take j).drop i)
    (by rw [List.length_drop, List.length_take]; omega) hv (by rw [List.length_drop, List.length_take]; omega)
  refine ⟨(v, x), ?_, rfl⟩
  unfold at64 at hx ⊢
  rwa [← Lib.Addressed.addressed_take, ← Lib.Addressed.addressed_drop]

/-- The request is no longer than half the virtual range and canonical, or the 64-bit space
    less its last byte. -/
def FilterFits (a len : Nat) : Prop :=
  (len ≤ spec.virtRange ∧ ∀ v, a ≤ v → v < a + len → spec.CanonicalAddr v) ∨
    (spec.addrSize = 8 ∧ a = 0 ∧ len = 2 ^ 64 - 1)

/-- A short request is let through as a whole. -/
theorem filterExact_short {a : Nat} {b : T} (h : a + SplitAtIndex.length b ≤ 2 ^ 64)
    {validOut v : List (TranslateData T)} {failOut : List (Error × Nat × T)}
    (hrun : spec.virtAddrFilter a b validOut failOut = some (validOut ++ v, failOut)) (hv : bytesOf v = at64 a (bytes b)) :
    spec.FilterExact a b validOut failOut ↔ ∀ v, a ≤ v → v < a + SplitAtIndex.length b → spec.CanonicalAddr v := by
  constructor
  · rintro ⟨v', f, hrun', -, hf⟩ x hx hx'
    rw [hrun, Option.some.injEq, Prod.mk.injEq] at hrun'
    have hnil : f = [] := by simpa using hrun'.2
    subst hnil
    have hlen := LawfulSplitAtIndex.length_eq b
    obtain ⟨y, hy⟩ := exists_mem_at64 (a := a) (l := bytes b) (by omega) hx (by omega)
    by_contra hnot
    have hmem := hf.symm.subset (List.mem_filter.mpr ⟨hy, by simpa using hnot⟩)
    cases hmem
  · intro hall
    have hcan : ∀ y ∈ at64 a (bytes b), spec.CanonicalAddr y.1 := by
      intro y hy
      have hlen := LawfulSplitAtIndex.length_eq b
      obtain ⟨h1, h2⟩ := addr_of_mem_at64 (by omega) hy
      exact hall y.1 h1 (by omega)
    refine ⟨v, [], by rw [hrun, List.append_nil], ?_, ?_⟩
    · rw [hv, List.filter_eq_self.mpr (by simpa using hcan)]
    · rw [List.filter_eq_nil_iff.mpr (by simpa using hcan)]
      exact List.Perm.refl _

/-- Where a long request is cut exactly, what is let through is canonical and what is
    rejected is not. -/
theorem filterExact_long {a : Nat} {b : T} {validOut v w : List (TranslateData T)} {failOut rej mid : List (Error × Nat × T)}
    {p : Prop} [Decidable p]
    (hrun : spec.virtAddrFilter a b validOut failOut =
      some (if p then (validOut ++ (v ++ w), failOut ++ (rej ++ mid)) else (validOut ++ v, failOut ++ rej)))
    (hshort : (bytesOf v).length + (failBytes rej).length < SplitAtIndex.length b)
    (h : spec.FilterExact a b validOut failOut) :
    (∀ y ∈ bytesOf v ++ bytesOf w, spec.CanonicalAddr y.1) ∧
      ∀ y ∈ failBytes rej ++ failBytes mid, ¬ spec.CanonicalAddr y.1 := by
  obtain ⟨v', f, hrun', hv, hf⟩ := h
  by_cases hp : p
  · rw [hrun, if_pos hp, Option.some.injEq, Prod.mk.injEq, List.append_cancel_left_eq, List.append_cancel_left_eq] at hrun'
    obtain ⟨rfl, rfl⟩ := hrun'
    refine ⟨fun y hy => ?_, fun y hy => ?_⟩
    · have hy : y ∈ bytesOf (v ++ w) := by rwa [bytesOf, List.flatMap_append]
      simpa using (List.mem_filter.mp (hv.subset hy)).2
    · rw [← failBytes_append] at hy
      simpa using (List.mem_filter.mp (hf.subset hy)).2
  · -- dropped bytes are neither let through nor rejected
    rw [hrun, if_neg hp, Option.some.injEq, Prod.mk.injEq, List.append_cancel_left_eq, List.append_cancel_left_eq] at hrun'
    obtain ⟨rfl, rfl⟩ := hrun'
    have h1 := List.length_eq_length_filter_add (l := at64 a (bytes b)) fun y => decide (spec.CanonicalAddr y.1)
    rw [length_at64, ← LawfulSplitAtIndex.length_eq, ← hv.length_eq, ← hf.length_eq] at h1
    omega

/-- A request of the whole 64-bit space less its last byte: the two ends, each half a range,
    are let through and what is between them is rejected. -/
theorem filterExact_whole {b : T} (hlen : SplitAtIndex.length b = 2 ^ 64 - 1) {validOut v w : List (TranslateData T)}
    {failOut rej mid : List (Error × Nat × T)} {p : Prop} [Decidable p] (hp : p)
    (hv : bytesOf v = (at64 0 (bytes b)).take (2 ^ 47))
    (hw : bytesOf w = ((at64 0 (bytes b)).take (2 ^ 64 - 1)).drop (2 ^ 64 - 2 ^ 47))
    (hrej : failBytes rej = (at64 0 (bytes b)).drop (2 ^ 64))
    (hmid : failBytes mid = ((at64 0 (bytes b)).take (2 ^ 64 - 2 ^ 47)).drop (2 ^ 47))
    (hrun : x64.virtAddrFilter 0 b validOut failOut =
      some (if p then (validOut ++ (v ++ w), failOut ++ (rej ++ mid)) else (validOut ++ v, failOut ++ rej))) :
    x64.FilterExact 0 b validOut failOut := by
  have hL : (at64 0 (bytes b)).length = 2 ^ 64 - 1 := by rw [length_at64, ← LawfulSplitAtIndex.length_eq, hlen]
  have hall : (at64 0 (bytes b)).take (2 ^ 64 - 1) = at64 0 (bytes b) := List.take_of_length_le (by omega)
  have hbound : 0 + SplitAtIndex.length b ≤ 2 ^ 64 := by omega
  -- the three stretches of the request
  have hsplit : at64 0 (bytes b) = bytesOf v ++ (failBytes mid ++ bytesOf w) := by
    have h1 := List.take_append_drop (2 ^ 47) ((at64 0 (bytes b)).take (2 ^ 64 - 2 ^ 47))
    rw [List.take_take, Nat.min_eq_left (by omega)] at h1
    rw [hv, hmid, hw, hall, ← List.append_assoc, h1, List.take_append_drop]
  have hcv : ∀ y ∈ bytesOf v, x64.CanonicalAddr y.1 := by
    intro y hy
    rw [hv, ← List.drop_zero (l := List.take _ _)] at hy
    have := addr_of_mem_part hbound hy
    exact canonical_x64.mpr (Or.inl (by omega))
  have hcw : ∀ y ∈ bytesOf w, x64.CanonicalAddr y.1 := by
    intro y hy
    rw [hw] at hy
    have := addr_of_mem_part hbound hy
    exact canonical_x64.mpr (Or.inr (by omega))
  have hcm : ∀ y ∈ failBytes mid, ¬ x64.CanonicalAddr y.1 := by
    intro y hy
    rw [hmid] at hy
    have := addr_of_mem_part hbound hy
    rw [canonical_x64]
    omega
  have hrejnil : (failBytes rej : List (Nat × β)) = [] := by
    rw [hrej, List.drop_eq_nil_of_le (by omega)]
  refine ⟨v ++ w, rej ++ mid, by rw [hrun, if_pos hp], ?_, ?_⟩
  · rw [hsplit, List.filter_append, List.filter_append, List.filter_eq_self.mpr (by simpa using hcv),
      List.filter_eq_nil_iff.mpr (by simpa using hcm), List.filter_eq_self.mpr (by simpa using hcw)]
    simp [bytesOf]
  · rw [hsplit, List.filter_append, List.filter_append, List.filter_eq_nil_iff.mpr (by simpa using hcv),
      List.filter_eq_self.mpr (by simpa using hcm), List.filter_eq_nil_iff.mpr (by simpa using hcw), failBytes_append,
      hrejnil]
    simp

theorem filterExact_x64 (a : Nat) (b : T) (h : a + SplitAtIndex.length b ≤ 2 ^ 64) (hlen : SplitAtIndex.length b < 2 ^ 64)
    (validOut : List (TranslateData T)) (failOut : List (Error × Nat × T)) :
    x64.FilterExact a b validOut failOut ↔ x64.FilterFits a (SplitAtIndex.length b) := by
  have hR : x64.virtRange = 2 ^ 47 := by decide
  have hW : 2 ^ (x64.addrSize * 8) = 2 ^ 64 := rfl
  have hmin : min (SplitAtIndex.length b) (2 ^ 64) = SplitAtIndex.length b := by omega
  unfold FilterFits
  rcases x64.virtAddrFilter_spec a b hlen validOut failOut with ⟨hle, v, hrun, hv⟩ | ⟨hgt, hshort, hrun⟩ |
    ⟨hlong, v, w, rej, mid, hv, hw, hrej, hmid, hrun⟩
  · rw [filterExact_short x64 h hrun hv]
    exact ⟨fun hall => Or.inl ⟨hle, hall⟩, fun hfit => hfit.elim (·.2) fun hfit => by omega⟩
  · rw [hW, hmin] at hshort
    exact ⟨fun ⟨v, f, hrun', _⟩ => absurd (hrun.symm.trans hrun') nofun, fun hfit => by omega⟩
  · rw [hW, hmin, hR] at hlong hw hmid hrun
    rw [hR] at hv
    rw [hW] at hrej
    constructor
    · intro hex
      refine Or.inr ⟨rfl, ?_⟩
      have hshort : (bytesOf v).length + (failBytes rej).length < SplitAtIndex.length b := by
        rw [hv, hrej, List.length_take, List.length_drop, length_at64, ← LawfulSplitAtIndex.length_eq]
        omega
      obtain ⟨hcan, -⟩ := filterExact_long x64 hrun hshort hex
      have hin : ∀ x, a ≤ x → x < a + 2 ^ 47 → x64.CanonicalAddr x := by
        intro x hx hx'
        obtain ⟨y, hy, rfl⟩ := exists_mem_part (b := b) h (i := 0) (j := 2 ^ 47) (by omega) hx hx'
        exact hcan y (List.mem_append_left _ (hv ▸ hy))
      have htop : ∀ x, a + (SplitAtIndex.length b - 2 ^ 47 + 1) ≤ x → x < a + SplitAtIndex.length b → x64.CanonicalAddr x := by
        intro x hx hx'
        obtain ⟨y, hy, rfl⟩ := exists_mem_part (b := b) h (j := SplitAtIndex.length b) (Nat.le_refl _) hx hx'
        exact hcan y (List.mem_append_right _ (hw ▸ hy))
      have h1 := canonical_x64.mp (hin a (Nat.le_refl a) (by omega))
      have h2 := canonical_x64.mp (hin (a + 2 ^ 47 - 1) (by omega) (by omega))
      have h3 := canonical_x64.mp (htop (a + (SplitAtIndex.length b - 2 ^ 47 + 1)) (Nat.le_refl _) (by omega))
      omega
    · rintro (hfit | ⟨-, rfl, hn⟩)
      · omega
      · rw [hn] at hw hmid hrun
        exact filterExact_whole hn (by decide) hv hw hrej hmid hrun

theorem filterExact_32 {spec : ArchMMUSpec} (hs : spec ∈ [x32, x32Pae]) (a : Nat) (b : T)
    (h : a + SplitAtIndex.length b ≤ 2 ^ 64) (hlen : SplitAtIndex.length b < 2 ^ 64)
    (validOut : List (TranslateData T)) (failOut : List (Error × Nat × T)) :
    spec.FilterExact a b validOut failOut ↔ spec.FilterFits a (SplitAtIndex.length b) := by
  obtain ⟨hR, hsize⟩ : spec.virtRange = 2 ^ 31 ∧ spec.addrSize = 4 := by
    simp only [List.mem_cons, List.not_mem_nil, or_false] at hs
    rcases hs with rfl | rfl <;> decide
  have hW : 2 ^ (spec.addrSize * 8) = 2 ^ 32 := by rw [hsize]
  unfold FilterFits
  rcases spec.virtAddrFilter_spec a b hlen validOut failOut with ⟨hle, v, hrun, hv⟩ | ⟨hgt, hshort, hrun⟩ |
    ⟨hlong, v, w, rej, mid, hv, hw, hrej, hmid, hrun⟩
  · rw [filterExact_short spec h hrun hv]
    exact ⟨fun hall => Or.inl ⟨hle, hall⟩, fun hfit => hfit.elim (·.2) fun hfit => by omega⟩
  · exact ⟨fun ⟨v, f, hrun', _⟩ => absurd (hrun.symm.trans hrun') nofun, fun hfit => by omega⟩
  · rw [hW, hR] at hlong
    have hmin : min (SplitAtIndex.length b) (2 ^ 32) = 2 ^ 32 := by omega
    rw [hW, hmin, hR] at hw hmid hrun
    rw [hR] at hv
    rw [hW] at hrej
    refine ⟨fun hex => ?_, fun hfit => by omega⟩
    have hshort : (bytesOf v).length + (failBytes rej).length < SplitAtIndex.length b := by
      rw [hv, hrej, List.length_take, List.length_drop, length_at64, ← LawfulSplitAtIndex.length_eq]
      omega
    -- the last byte let through is below 2^32, and then so is the first one rejected
    obtain ⟨hcan, hrejd⟩ := filterExact_long spec hrun hshort hex
    obtain ⟨y, hy, hy1⟩ := exists_mem_part (b := b) h (i := 2 ^ 32 - 2 ^ 31 + 1) (j := 2 ^ 32) (v := a + 2 ^ 32 - 1)
      (by omega) (by omega) (by omega)
    obtain ⟨z, hz, hz1⟩ := exists_mem_part (b := b) h (i := 2 ^ 31) (j := 2 ^ 32 - 2 ^ 31 + 1) (v := a + 2 ^ 31)
      (by omega) (by omega) (by omega)
    have h1 := (canonical_32 hs).mp (hcan y (List.mem_append_right _ (hw ▸ hy)))
    have h2 := hrejd z (List.mem_append_right _ (hmid ▸ hz))
    exact absurd ((canonical_32 hs).mpr (by omega)) h2

/-- For each spec, each request that does not wrap and whatever the lists held: the filter
    is exact when the request fits, and only then. -/
theorem filterExact_iff : ∀ spec ∈ [x64, x32, x32Pae], ∀ (a : Nat) (b : T), a + SplitAtIndex.length b ≤ 2 ^ 64 →
    SplitAtIndex.length b < 2 ^ 64 → ∀ (validOut : List (TranslateData T)) (failOut : List (Error × Nat × T)),
      (spec.FilterExact a b validOut failOut ↔ spec.FilterFits a (SplitAtIndex.length b)) := by
  intro spec hs a b h hlen validOut failOut
  rcases List.mem_cons.mp hs with rfl | hs
  · exact filterExact_x64 a b h hlen validOut failOut
  · exact filterExact_32 hs a b h hlen validOut failOut

theorem filterExact_lower : x64.FilterExact 0x7ffffffffff0 (16 : Nat) [] [] :=
  (filterExact_iff x64 (by simp) 0x7ffffffffff0 (16 : Nat) (by decide) (by decide) [] []).mpr
    (Or.inl ⟨by decide, fun v _ hv => canonical_x64.mpr (Or.inl (by simp only [SplitAtIndex.length] at hv; omega))⟩)

/-- Sixteen bytes past the lower half are let through. -/
theorem filterExact_hole :
    (x64.virtAddrFilter 0x800000000000 (16 : Nat) [] []).map (fun r => (r.1.map fun d => (d.addr, d.buf), r.2)) =
        some ([(0x800000000000, 16)], []) ∧
      ¬ x64.CanonicalAddr 0x800000000000 ∧ ¬ x64.FilterExact 0x800000000000 (16 : Nat) [] [] := by
  have hnot : ¬ x64.CanonicalAddr 0x800000000000 := by decide
  refine ⟨by decide +kernel, hnot, fun h => ?_⟩
  rcases (filterExact_x64 0x800000000000 (16 : Nat) (by decide) (by decide) [] []).mp h with ⟨-, hall⟩ | ⟨-, hz, -⟩
  · exact hnot (hall _ (Nat.le_refl _) (by decide))
  · cases hz

end Exact

end Jiaa.ArchMMUSpec
