/-
  Jiaa.Iter.SplitAtIndex — buffers that can be cut at an index
  (memflow `iter/page_chunks.rs`).

  Every implementation in the crate cuts without changing the buffer that is cut, apart
  from the translation chunk of `Jiaa.Architecture.TranslateData`. `LawfulSplitAtIndex`
  says what a cut of such a buffer is: `bytes` are its items, a cut takes and drops
  them. Slices, lengths (`usize`), mutable slices and addressed buffers are lawful.

  - `splitAtRev_cases`: `split_at_rev` cuts inclusively, so one item late;
  - `not_cutsFromEnd`: it never returns the last `idx` items, though the exclusive cut would
    (`splitAt_cutsFromEnd`).
-/

import Jiaa.Types.Address
import Jiaa.Lib.Addressed

namespace Jiaa

/-- `SplitAtIndex`: `split_at`, `split_inclusive_at` and `length`. -/
class SplitAtIndex (T : Type*) where
  splitAt : T → Nat → T × Option T
  splitInclusiveAt : T → Nat → T × Option T
  length : T → Nat

export SplitAtIndex (splitAt splitInclusiveAt)

/-- `split_at_rev`, which no implementation overrides: `none` is the `unwrap` of a
    missing right part panicking. -/
def splitAtRev {T : Type*} [SplitAtIndex T] (b : T) (idx : Nat) : Option (Option T × T) :=
  let (left, right) := splitInclusiveAt b (Address.sub (SplitAtIndex.length b) idx)
  right.map fun right => (if SplitAtIndex.length left = 0 then none else some left, right)

/-- The two parts of a cut of `l` at `n`: no right part when it would be empty. -/
def IsCut {α : Type*} {T : Type*} (bytes : T → List α) (l : List α) (n : Nat) (cut : T × Option T) : Prop :=
  bytes cut.1 = l.take n ∧
    ((cut.2 = none ∧ l.length ≤ n) ∨ ∃ r, cut.2 = some r ∧ n < l.length ∧ bytes r = l.drop n)

class LawfulSplitAtIndex (T : Type*) (β : outParam (Type*)) [SplitAtIndex T] where
  bytes : T → List β
  length_eq : ∀ b : T, SplitAtIndex.length b = (bytes b).length
  cutAt : ∀ (b : T) (n : Nat), IsCut bytes (bytes b) n (splitAt b n)
  cutInclusiveAt : ∀ (b : T) (n : Nat), IsCut bytes (bytes b) (n + 1) (splitInclusiveAt b n)

export LawfulSplitAtIndex (bytes)

/-! ## Slices -/

instance {α : Type*} : SplitAtIndex (List α) where
  splitAt l idx :=
    let mid := min l.length idx
    (l.take mid, if (l.drop mid).isEmpty then none else some (l.drop mid))
  splitInclusiveAt l idx :=
    let mid := min l.length (min l.length idx + 1)
    (l.take mid, if (l.drop mid).isEmpty then none else some (l.drop mid))
  length l := l.length

theorem isCut_take {α : Type*} (l : List α) {n mid : Nat} (h : mid = min l.length n) :
    IsCut (fun b => b) l n (l.take mid, if (l.drop mid).isEmpty then none else some (l.drop mid)) := by
  by_cases hn : l.length ≤ n
  · have hm : mid = l.length := by omega
    subst hm
    exact ⟨by rw [List.take_length, List.take_of_length_le hn], Or.inl ⟨by simp, hn⟩⟩
  · have hm : mid = n := by omega
    subst hm
    have hne : (l.drop mid).isEmpty = false := by simp; omega
    refine ⟨rfl, Or.inr ⟨l.drop mid, ?_, by omega, rfl⟩⟩
    simp only [hne, Bool.false_eq_true, if_false]

instance {α : Type*} : LawfulSplitAtIndex (List α) α where
  bytes l := l
  length_eq _ := rfl
  cutAt l n := isCut_take l rfl
  cutInclusiveAt l n := isCut_take l (by omega)

/-! ## Lengths -/

/-- `usize`: a buffer that is only its length. -/
instance : SplitAtIndex Nat where
  splitAt self idx := if self ≤ idx then (self, none) else (idx, some (self - idx))
  splitInclusiveAt self idx :=
    if self = 0 ∨ self - 1 ≤ idx then (self, none) else (idx + 1, some (self - idx - 1))
  length self := self

/-- A length `n` with `left` cut off in front, when `rest` is what is left of it. -/
theorem isCut_usize {n left rest : Nat} (h : n = left + rest) (hrest : 0 < rest) :
    IsCut (fun n => List.replicate n ()) (List.replicate n ()) left (left, some rest) := by
  subst h
  exact ⟨by simp, Or.inr ⟨rest, rfl, by simpa using hrest, by simp⟩⟩

theorem isCut_usize_whole {n idx : Nat} (h : n ≤ idx) :
    IsCut (fun n => List.replicate n ()) (List.replicate n ()) idx (n, none) :=
  ⟨by simp [h], Or.inl ⟨rfl, by simpa using h⟩⟩

instance : LawfulSplitAtIndex Nat Unit where
  bytes n := List.replicate n ()
  length_eq _ := List.length_replicate.symm
  cutAt self idx := by
    simp only [splitAt]
    split
    · exact isCut_usize_whole ‹_›
    · exact isCut_usize (by omega) (by omega)
  cutInclusiveAt self idx := by
    simp only [splitInclusiveAt]
    split
    · exact isCut_usize_whole (by omega)
    · exact isCut_usize (by omega) (by omega)

/-! ## Mutable slices -/

/-- `&mut [u8]`: a range of the bytes of the buffer `buf`. -/
structure SliceMut where
  buf : Nat
  off : Nat
  len : Nat
  deriving DecidableEq, Repr

/-- A byte of a buffer. -/
abbrev Loc := Nat × Nat

namespace SliceMut

def locs (s : SliceMut) : List Loc := (List.range' s.off s.len).map fun i => (s.buf, i)

@[simp] theorem length_locs (s : SliceMut) : s.locs.length = s.len := by simp [locs]

theorem mem_locs {s : SliceMut} {l : Loc} : l ∈ s.locs ↔ l.1 = s.buf ∧ s.off ≤ l.2 ∧ l.2 < s.off + s.len := by
  obtain ⟨b, i⟩ := l
  simp only [locs, List.mem_map, List.mem_range'_1, Prod.mk.injEq]
  constructor
  · rintro ⟨j, hj, rfl, rfl⟩; exact ⟨rfl, hj⟩
  · rintro ⟨rfl, hj⟩; exact ⟨i, hj, rfl, rfl⟩

end SliceMut

instance : SplitAtIndex SliceMut where
  splitAt s idx :=
    let mid := min s.len idx
    (⟨s.buf, s.off, mid⟩, if mid ≠ s.len then some ⟨s.buf, s.off + mid, s.len - mid⟩ else none)
  splitInclusiveAt s idx :=
    let mid := min s.len (min s.len idx + 1)
    (⟨s.buf, s.off, mid⟩, if mid ≠ s.len then some ⟨s.buf, s.off + mid, s.len - mid⟩ else none)
  length s := s.len

theorem isCut_slice (s : SliceMut) {n mid : Nat} (h : mid = min s.len n) :
    IsCut SliceMut.locs s.locs n
      (⟨s.buf, s.off, mid⟩, if mid ≠ s.len then some ⟨s.buf, s.off + mid, s.len - mid⟩ else none) := by
  subst h
  refine ⟨?_, ?_⟩
  · by_cases hn : s.len ≤ n
    · simp only [SliceMut.locs, ← List.map_take, List.take_range'_of_length_le hn, Nat.min_eq_left hn]
    · have hn' : n ≤ s.len := by omega
      simp only [SliceMut.locs, ← List.map_take, List.take_range'_of_length_ge hn', Nat.min_eq_right hn']
  · by_cases hn : s.len ≤ n
    · exact Or.inl ⟨by simp; omega, by simpa using hn⟩
    · have hm : min s.len n = n := by omega
      refine Or.inr ⟨⟨s.buf, s.off + n, s.len - n⟩, by rw [hm]; simp; omega, by simp; omega, ?_⟩
      simp only [SliceMut.locs, ← List.map_drop, List.drop_range', Nat.mul_one]

instance : LawfulSplitAtIndex SliceMut Loc where
  bytes := SliceMut.locs
  length_eq s := by simp [SplitAtIndex.length]
  cutAt s n := isCut_slice s rfl
  cutInclusiveAt s n := isCut_slice s (by omega)

/-! ## Addressed buffers -/

/-- Bytes at consecutive 64-bit addresses. -/
def at64 {β : Type*} (a : Nat) (l : List β) : List (Nat × β) := Lib.Addressed.addressed (2 ^ 64) a l

section At64

variable {β : Type*}

@[simp] theorem at64_nil (a : Nat) : at64 a ([] : List β) = [] := rfl

@[simp] theorem length_at64 (a : Nat) (l : List β) : (at64 a l).length = l.length :=
  Lib.Addressed.length_addressed _ a l

@[simp] theorem map_snd_at64 (a : Nat) (l : List β) : (at64 a l).map (·.2) = l :=
  Lib.Addressed.map_snd_addressed _ a l

theorem at64_append (a : Nat) (l m : List β) : at64 a (l ++ m) = at64 a l ++ at64 (a + l.length) m :=
  Lib.Addressed.addressed_append _ a l m

@[simp] theorem at64_mod (a : Nat) (l : List β) : at64 (a % 2 ^ 64) l = at64 a l :=
  Lib.Addressed.addressed_mod _ a l

theorem getElem?_at64 (a i : Nat) (l : List β) : (at64 a l)[i]? = l[i]?.map fun x => ((a + i) % 2 ^ 64, x) :=
  Lib.Addressed.getElem?_addressed _ a i l

theorem mem_at64 {a : Nat} {l : List β} {v : Nat} {x : β} :
    (v, x) ∈ at64 a l ↔ ∃ i, l[i]? = some x ∧ v = (a + i) % 2 ^ 64 :=
  Lib.Addressed.mem_addressed _

theorem addr_of_mem_at64 {a : Nat} {l : List β} (h : a + l.length ≤ 2 ^ 64) {y : Nat × β}
    (hy : y ∈ at64 a l) : a ≤ y.1 ∧ y.1 < a + l.length :=
  Lib.Addressed.addr_of_mem _ h hy

theorem exists_mem_at64 {a : Nat} {l : List β} (h : a + l.length ≤ 2 ^ 64) {v : Nat} (hv : a ≤ v)
    (hv' : v < a + l.length) : ∃ x, (v, x) ∈ at64 a l :=
  Lib.Addressed.exists_mem_addressed _ h hv hv'

end At64

variable {T : Type*} [SplitAtIndex T]

instance : SplitAtIndex (Nat × T) where
  splitAt self idx :=
    let (left, right) := splitAt self.2 idx
    ((self.1, left), right.map fun right => (Address.add self.1 (SplitAtIndex.length left), right))
  splitInclusiveAt self idx :=
    let (left, right) := splitInclusiveAt self.2 idx
    ((self.1, left), right.map fun right => (Address.add self.1 (SplitAtIndex.length left), right))
  length self := SplitAtIndex.length self.2

/-- A cut of a buffer, with the right part's address moved on, is a cut of its layout:
    `mk` pairs a buffer with its address. -/
theorem isCut_at64 {β U : Type*} [LawfulSplitAtIndex T β] (mk : Nat → T → U) (bytesOf : U → List (Nat × β))
    (hmk : ∀ a b, bytesOf (mk a b) = at64 a (bytes b)) (a : Nat) {b : T} {n : Nat} {cut : T × Option T}
    (h : IsCut bytes (bytes b) n cut) :
    IsCut bytesOf (at64 a (bytes b)) n
      (mk a cut.1, cut.2.map fun right => mk (Address.add a (SplitAtIndex.length cut.1)) right) := by
  obtain ⟨hl, hr⟩ := h
  refine ⟨by simp only [hmk, hl, at64, Lib.Addressed.addressed_take], ?_⟩
  rcases hr with ⟨hn, hlen⟩ | ⟨r, hs, hlen, hb⟩
  · exact Or.inl ⟨by simp [hn], by simpa using hlen⟩
  · refine Or.inr ⟨mk (Address.add a (SplitAtIndex.length cut.1)) r, by simp [hs], by simpa using hlen, ?_⟩
    have hlt : SplitAtIndex.length cut.1 = n := by
      rw [LawfulSplitAtIndex.length_eq, hl, List.length_take]; omega
    simp only [hmk, hlt, hb, Address.add, at64, Lib.Addressed.addressed_mod, Lib.Addressed.addressed_drop]

instance {β : Type*} [LawfulSplitAtIndex T β] : LawfulSplitAtIndex (Nat × T) (Nat × β) where
  bytes x := at64 x.1 (bytes x.2)
  length_eq x := by simp [SplitAtIndex.length, LawfulSplitAtIndex.length_eq]
  cutAt x n := isCut_at64 Prod.mk _ (fun _ _ => rfl) x.1 (LawfulSplitAtIndex.cutAt x.2 n)
  cutInclusiveAt x n := isCut_at64 Prod.mk _ (fun _ _ => rfl) x.1 (LawfulSplitAtIndex.cutInclusiveAt x.2 n)

/-! ## Cuts of lawful buffers -/

section Lawful

variable {β : Type*} [LawfulSplitAtIndex T β]

theorem bytes_cut {b : T} {n : Nat} {cut : T × Option T} (h : IsCut bytes (bytes b) n cut) :
    bytes b = bytes cut.1 ++ (cut.2.map bytes).getD [] := by
  obtain ⟨hl, hr⟩ := h
  rcases hr with ⟨hn, hlen⟩ | ⟨r, hs, _, hb⟩
  · simp [hn, hl, List.take_of_length_le hlen]
  · simp [hs, hl, hb]

theorem length_cut_left {b : T} {n : Nat} {cut : T × Option T} (h : IsCut bytes (bytes b) n cut) :
    SplitAtIndex.length cut.1 = min n (SplitAtIndex.length b) := by
  rw [LawfulSplitAtIndex.length_eq, LawfulSplitAtIndex.length_eq, h.1, List.length_take]

theorem length_cut_right {b r : T} {n : Nat} {cut : T × Option T} (h : IsCut bytes (bytes b) n cut)
    (hr : cut.2 = some r) : n < SplitAtIndex.length b ∧ SplitAtIndex.length r = SplitAtIndex.length b - n := by
  rcases h.2 with ⟨hn, _⟩ | ⟨r', hs, hlen, hb⟩
  · rw [hn] at hr; cases hr
  · rw [hs] at hr; cases hr
    rw [LawfulSplitAtIndex.length_eq, LawfulSplitAtIndex.length_eq, hb, List.length_drop]
    exact ⟨hlen, rfl⟩

theorem cut_right_none {b : T} {n : Nat} {cut : T × Option T} (h : IsCut bytes (bytes b) n cut) :
    cut.2 = none ↔ SplitAtIndex.length b ≤ n := by
  rw [LawfulSplitAtIndex.length_eq]
  rcases h.2 with ⟨hn, hlen⟩ | ⟨r, hs, hlen, _⟩
  · simp [hn, hlen]
  · simp [hs]; omega

/-- A cut past the end takes everything, a cut inside leaves a part of each side. -/
theorem splitAt_cases (b : T) (n : Nat) :
    (∃ l, splitAt b n = (l, none) ∧ bytes l = bytes b ∧ (bytes b).length ≤ n) ∨
      ∃ l r, splitAt b n = (l, some r) ∧ bytes b = bytes l ++ bytes r ∧ (bytes l).length = n ∧ bytes r ≠ [] := by
  have h := LawfulSplitAtIndex.cutAt b n
  have hb := bytes_cut h
  generalize splitAt b n = cut at h hb
  obtain ⟨l, r⟩ := cut
  rcases h.2 with ⟨hr, hlen⟩ | ⟨x, hr, hlen, hx⟩
  · simp only at hr hb
    subst hr
    exact Or.inl ⟨l, rfl, by simpa using hb.symm, hlen⟩
  · simp only at hr hb
    subst hr
    refine Or.inr ⟨l, x, rfl, hb, ?_, ?_⟩
    · rw [h.1, List.length_take]
      omega
    · rw [hx]
      simpa using hlen

/-- The part of a buffer from `off` on, `n` bytes of it. -/
theorem splitAt_part (b : T) {off n : Nat} (hoff : off < (bytes b).length) (hn : off + n ≤ (bytes b).length) :
    ∃ x, (splitAt b off).2 = some x ∧ bytes (splitAt x n).1 = ((bytes b).drop off).take n ∧
      SplitAtIndex.length (splitAt x n).1 = n := by
  rcases (LawfulSplitAtIndex.cutAt b off).2 with ⟨-, hle⟩ | ⟨x, hx, -, hb⟩
  · omega
  · have h := LawfulSplitAtIndex.cutAt x n
    refine ⟨x, hx, by rw [h.1, hb], ?_⟩
    rw [LawfulSplitAtIndex.length_eq, h.1, hb, List.length_take, List.length_drop]
    omega

/-! ## Cuts from the end -/

/-- A cut of the last `idx` items, `none` being a panic: they are the right part, and what is in
    front of them, if anything, is the left one. -/
def CutsFromEnd (b : T) (idx : Nat) (cut : Option (Option T × T)) : Prop :=
  ∃ left right, cut = some (left, right) ∧
    bytes right = (bytes b).drop ((bytes b).length - idx) ∧
    (left = none ↔ (bytes b).length = idx) ∧
    (left.map bytes).getD [] ++ bytes right = bytes b

/-- The exclusive cut in front of the last `idx` items is one. -/
theorem splitAt_cutsFromEnd (b : T) (idx : Nat) (h : 1 ≤ idx) (hidx : idx ≤ (bytes b).length) :
    CutsFromEnd b idx ((splitAt b ((bytes b).length - idx)).2.map fun right =>
      (if SplitAtIndex.length (splitAt b ((bytes b).length - idx)).1 = 0 then none
        else some (splitAt b ((bytes b).length - idx)).1, right)) := by
  have hcut := LawfulSplitAtIndex.cutAt b ((bytes b).length - idx)
  have hflat := bytes_cut hcut
  have hlen := length_cut_left hcut
  generalize splitAt b ((bytes b).length - idx) = cut at hcut hflat hlen ⊢
  obtain ⟨left, right⟩ := cut
  rw [LawfulSplitAtIndex.length_eq b] at hlen
  rcases hcut.2 with ⟨-, hle⟩ | ⟨r, hr, -, hb⟩
  · omega
  · simp only at hr hlen
    subst hr
    refine ⟨_, r, rfl, hb, ?_, ?_⟩
    · by_cases h0 : SplitAtIndex.length left = 0
      · exact iff_of_true (if_pos h0) (by omega)
      · exact iff_of_false (by simp [h0]) (by omega)
    · by_cases h0 : SplitAtIndex.length left = 0
      · have hnil : bytes left = [] := List.length_eq_zero_iff.mp (by rw [← LawfulSplitAtIndex.length_eq, h0])
        rw [if_pos h0, hflat, hnil]
        rfl
      · rw [if_neg h0, hflat]
        rfl

/-- The cut is inclusive, so the first of the last `idx` items stays left. -/
theorem splitAtRev_cases (b : T) (idx : Nat) :
    (splitAtRev b idx = none ∧ SplitAtIndex.length b ≤ Address.sub (SplitAtIndex.length b) idx + 1) ∨
      ∃ left right, splitAtRev b idx = some (some left, right) ∧
        Address.sub (SplitAtIndex.length b) idx + 1 < SplitAtIndex.length b ∧
        bytes left = (bytes b).take (Address.sub (SplitAtIndex.length b) idx + 1) ∧
        bytes right = (bytes b).drop (Address.sub (SplitAtIndex.length b) idx + 1) := by
  have hcut := LawfulSplitAtIndex.cutInclusiveAt b (Address.sub (SplitAtIndex.length b) idx)
  have hleft := length_cut_left hcut
  have hnone := cut_right_none hcut
  cases hr : (splitInclusiveAt b (Address.sub (SplitAtIndex.length b) idx)).2 with
  | none => exact Or.inl ⟨by simp only [splitAtRev, hr, Option.map_none], hnone.mp hr⟩
  | some right =>
    have hlen := (length_cut_right hcut hr).1
    -- the index itself is left of the cut
    have hne : SplitAtIndex.length (splitInclusiveAt b (Address.sub (SplitAtIndex.length b) idx)).1 ≠ 0 := by omega
    refine Or.inr ⟨_, right, by simp only [splitAtRev, hr, Option.map_some, if_neg hne], hlen, hcut.1, ?_⟩
    rcases hcut.2 with ⟨hn, -⟩ | ⟨r, hs, -, hb⟩
    · rw [hr] at hn
      cases hn
    · rw [hr] at hs
      cases hs
      exact hb

/-- It panics just on a request for the last item. -/
theorem splitAtRev_panics {b : T} {idx : Nat} (hlen : (bytes b).length < 2 ^ 64) (h : 1 ≤ idx)
    (hidx : idx ≤ (bytes b).length) : splitAtRev b idx = none ↔ idx = 1 := by
  rw [← LawfulSplitAtIndex.length_eq] at hlen hidx
  have hsub : Address.sub (SplitAtIndex.length b) idx = SplitAtIndex.length b - idx := Address.sub_eq hidx hlen
  rcases splitAtRev_cases b idx with ⟨hnone, hle⟩ | ⟨left, right, hsome, hlt, _⟩
  · exact iff_of_true hnone (by omega)
  · exact iff_of_false (by simp [hsome]) (by omega)

theorem not_cutsFromEnd (b : T) (idx : Nat) (h : 1 ≤ idx) (hidx : idx ≤ SplitAtIndex.length b) :
    ¬ CutsFromEnd b idx (splitAtRev b idx) := by
  intro ⟨left, right, hrev, hright, _, _⟩
  rcases splitAtRev_cases b idx with ⟨hnone, -⟩ | ⟨l, r, hsome, hlt, -, hr⟩
  · rw [hnone] at hrev
    cases hrev
  · rw [hsome] at hrev
    cases hrev
    have hlen := LawfulSplitAtIndex.length_eq b
    have heq : (bytes b).length - (Address.sub (SplitAtIndex.length b) idx + 1) =
        (bytes b).length - ((bytes b).length - idx) := by
      rw [← List.length_drop, ← List.length_drop, ← hr, hright]
    -- one item short of the last `idx`
    unfold Address.sub at heq hlt
    omega

end Lawful

/-- The last two of three bytes at `0x1000`: only the last of them comes back. -/
theorem not_cutsFromEnd_three :
    1 ≤ 2 ∧ 2 ≤ SplitAtIndex.length ((0x1000, [0x48, 0x8b, 0x05]) : Nat × List UInt8) ∧
      ¬ CutsFromEnd ((0x1000, [0x48, 0x8b, 0x05]) : Nat × List UInt8) 2 (splitAtRev (0x1000, [0x48, 0x8b, 0x05]) 2) :=
  ⟨by decide, by decide, not_cutsFromEnd (0x1000, [0x48, 0x8b, 0x05]) 2 (by decide) (by decide)⟩

/-- The last of two bytes: there is no right part to unwrap. -/
theorem last_byte_panics : ¬ CutsFromEnd ([0x48, 0x8b] : List UInt8) 1 (splitAtRev [0x48, 0x8b] 1) := by
  intro ⟨left, right, hrev, _⟩
  have hnone : splitAtRev ([0x48, 0x8b] : List UInt8) 1 = none := by decide
  rw [hnone] at hrev
  cases hrev

end Jiaa
