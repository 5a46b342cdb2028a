/-
  Jiaa.Architecture.TranslateData — the pieces of requests that wait for one table entry
  (memflow `architecture/mmu_spec/translate_data.rs`).

  A chunk holds pieces in any order, with the least address and the greatest end of them.
  `TranslationChunk.Ok` says that these are exact and that the pieces are non-empty and
  do not wrap; `bytesOf` are the addressed bytes of the pieces.

  - `splitAtInclusive_spec`: cutting a chunk at `idx` filters its bytes by the address
    `minAddr + idx`, whatever the pieces and their order, and both parts are `Ok`;
  - `splitAtInclusive_cut`: so the cut is exact, and without a right part just when no byte
    lies beyond it.
-/

import Jiaa.Iter.PageChunks
import Jiaa.Lib.RevLoop

namespace Jiaa

structure TranslateData (T : Type*) where
  addr : Nat
  buf : T

structure TranslationChunk (T : Type*) where
  ptAddr : Nat
  vec : List (TranslateData T)
  minAddr : Nat
  maxAddr : Nat

section Defs

variable {T : Type*} [SplitAtIndex T]

instance : SplitAtIndex (TranslateData T) where
  splitAt self idx :=
    let (bleft, bright) := splitAt self.buf idx
    (⟨self.addr, bleft⟩, bright.map fun buf => ⟨Address.add self.addr (SplitAtIndex.length bleft), buf⟩)
  splitInclusiveAt self idx :=
    let (bleft, bright) := splitInclusiveAt self.buf idx
    (⟨self.addr, bleft⟩, bright.map fun buf => ⟨Address.add self.addr (SplitAtIndex.length bleft), buf⟩)
  length self := SplitAtIndex.length self.buf

instance {β : Type*} [LawfulSplitAtIndex T β] : LawfulSplitAtIndex (TranslateData T) (Nat × β) where
  bytes d := at64 d.addr (bytes d.buf)
  length_eq d := by simp [SplitAtIndex.length, LawfulSplitAtIndex.length_eq]
  cutAt d n := isCut_at64 TranslateData.mk _ (fun _ _ => rfl) d.addr (LawfulSplitAtIndex.cutAt d.buf n)
  cutInclusiveAt d n :=
    isCut_at64 TranslateData.mk _ (fun _ _ => rfl) d.addr (LawfulSplitAtIndex.cutInclusiveAt d.buf n)

namespace TranslateData

def endAddr (d : TranslateData T) : Nat := Address.add d.addr (SplitAtIndex.length d)

/-- The folds of `TranslationChunk::new` and of the split loop. -/
def minOf (m : Nat) (v : List (TranslateData T)) : Nat := v.foldl (fun m d => min m d.addr) m

def maxOf (m : Nat) (v : List (TranslateData T)) : Nat := v.foldl (fun m d => max m d.endAddr) m

end TranslateData

namespace TranslationChunk

open TranslateData

def new (ptAddr : Nat) (vec : List (TranslateData T)) : TranslationChunk T :=
  ⟨ptAddr, vec, minOf Address.invalid vec, maxOf 0 vec⟩

def recalcMinmax (self : TranslationChunk T) : TranslationChunk T :=
  { self with minAddr := minOf Address.invalid self.vec, maxAddr := maxOf 0 self.vec }

/-- What `consume_mut` leaves behind. -/
def consumed : TranslationChunk T := ⟨Address.null, [], Address.invalid, Address.null⟩

structure SplitState (T : Type*) where
  vecRight : List (TranslateData T)
  leftMin : Nat
  leftMax : Nat
  rightMin : Nat
  rightMax : Nat

namespace SplitState

def keepLeft (st : SplitState T) (left : TranslateData T) : SplitState T :=
  { st with leftMin := min st.leftMin left.addr, leftMax := max st.leftMax left.endAddr }

def pushRight (st : SplitState T) (right : TranslateData T) : SplitState T :=
  { st with
    vecRight := st.vecRight ++ [right]
    rightMin := min st.rightMin right.addr
    rightMax := max st.rightMax right.endAddr }

end SplitState

/-- One round of the loop of `split_at_inclusive`: the item that stays, if one does. -/
def splitBody (endAddr : Nat) (st : SplitState T) (data : TranslateData T) :
    SplitState T × Option (TranslateData T) :=
  if data.addr ≤ endAddr then
    let idx := Address.sub endAddr data.addr
    let (left, right) := splitInclusiveAt data idx
    let (st, stays) := if 0 < SplitAtIndex.length left then (st.keepLeft left, some left) else (st, none)
    (right.elim st st.pushRight, stays)
  else
    (st.pushRight data, none)

def splitAtInclusive (self : TranslationChunk T) (idx : Nat) : TranslationChunk T × Option (TranslationChunk T) :=
  let len := Address.sub self.maxAddr self.minAddr
  if len ≤ idx then (self, none)
  else
    let endAddr := Address.add self.minAddr (min (len - 1) idx)
    let (st, vec) := Lib.RevLoop.retainRev (splitBody endAddr) self.vec.length
      ⟨[], Address.invalid, Address.null, Address.invalid, Address.null⟩ self.vec
    let left := { self with vec := vec, minAddr := st.leftMin, maxAddr := st.leftMax }
    if st.vecRight.isEmpty then (left, none)
    else (left, some ⟨self.ptAddr, st.vecRight, st.rightMin, st.rightMax⟩)

end TranslationChunk

instance : SplitAtIndex (TranslationChunk T) where
  splitAt self idx := if idx = 0 then (TranslationChunk.consumed, some self) else self.splitAtInclusive (idx - 1)
  splitInclusiveAt self idx := self.splitAtInclusive idx
  length self := Address.sub self.maxAddr self.minAddr

end Defs

namespace TranslationChunk

open TranslateData

/-! ## The folds -/

section Folds

variable {T : Type*}

/-- A fold that takes one of two, which is before both in the order `r`: it ends at the
    first of all, and takes it from somewhere. -/
theorem foldl_first {α : Type*} (key : α → Nat) {op : Nat → Nat → Nat} {r : Nat → Nat → Prop} (hrefl : ∀ a, r a a)
    (htrans : ∀ {a b c}, r a b → r b c → r a c) (hleft : ∀ a b, r (op a b) a) (hright : ∀ a b, r (op a b) b)
    (htake : ∀ a b, op a b = a ∨ op a b = b) (v : List α) (m : Nat) :
    r (v.foldl (fun m d => op m (key d)) m) m ∧ (∀ d ∈ v, r (v.foldl (fun m d => op m (key d)) m) (key d)) ∧
      (v.foldl (fun m d => op m (key d)) m = m ∨ ∃ d ∈ v, key d = v.foldl (fun m d => op m (key d)) m) := by
  induction v generalizing m with
  | nil => exact ⟨hrefl m, by simp, Or.inl rfl⟩
  | cons x v ih =>
    obtain ⟨h1, h2, h3⟩ := ih (op m (key x))
    rw [List.foldl_cons]
    refine ⟨htrans h1 (hleft m _), ?_, ?_⟩
    · intro d hd
      rcases List.mem_cons.mp hd with rfl | hd
      · exact htrans h1 (hright m _)
      · exact h2 d hd
    · rcases h3 with h3 | ⟨d, hd, he⟩
      · rw [h3]
        exact (htake m (key x)).imp_right fun he => ⟨x, List.mem_cons_self .., he.symm⟩
      · exact Or.inr ⟨d, List.mem_cons_of_mem _ hd, he⟩

theorem minOf_spec (v : List (TranslateData T)) (m : Nat) :
    minOf m v ≤ m ∧ (∀ d ∈ v, minOf m v ≤ d.addr) ∧ (minOf m v = m ∨ ∃ d ∈ v, d.addr = minOf m v) :=
  foldl_first TranslateData.addr Nat.le_refl Nat.le_trans Nat.min_le_left Nat.min_le_right (by omega) v m

variable [SplitAtIndex T]

theorem maxOf_spec (v : List (TranslateData T)) (m : Nat) :
    m ≤ maxOf m v ∧ (∀ d ∈ v, d.endAddr ≤ maxOf m v) ∧ (maxOf m v = m ∨ ∃ d ∈ v, d.endAddr = maxOf m v) :=
  foldl_first TranslateData.endAddr (r := fun a b => b ≤ a) Nat.le_refl (fun h h' => Nat.le_trans h' h) Nat.le_max_left
    Nat.le_max_right (by omega) v m

/-- A piece that is not empty and does not wrap. -/
def Piece (d : TranslateData T) : Prop := 0 < SplitAtIndex.length d ∧ d.addr + SplitAtIndex.length d < 2 ^ 64

/-- `x` is what of the piece `d` has an address in `p`: at least that, and nothing else of
    another piece. -/
def CutOf (p : Nat → Prop) (x d : TranslateData T) : Prop :=
  d.addr ≤ x.addr ∧ x.addr + SplitAtIndex.length x ≤ d.addr + SplitAtIndex.length d ∧
    ∀ v, d.addr ≤ v → v < d.addr + SplitAtIndex.length d → p v → x.addr ≤ v ∧ v < x.addr + SplitAtIndex.length x

theorem CutOf.trans {p : Nat → Prop} {x y z : TranslateData T} (h : CutOf p x y) (h' : CutOf p y z) : CutOf p x z :=
  ⟨h'.1.trans h.1, h.2.1.trans h'.2.1, fun v h1 h2 h3 =>
    h.2.2 v (h'.2.2 v h1 h2 h3).1 (h'.2.2 v h1 h2 h3).2 h3⟩

theorem CutOf.mono {p q : Nat → Prop} {x d : TranslateData T} (h : CutOf p x d)
    (hq : ∀ v, d.addr ≤ v → v < d.addr + SplitAtIndex.length d → q v → p v) : CutOf q x d :=
  ⟨h.1, h.2.1, fun v h1 h2 h3 => h.2.2 v h1 h2 (hq v h1 h2 h3)⟩

/-- The least address and the greatest end are those of the pieces. -/
structure Ok (c : TranslationChunk T) : Prop where
  pieces : ∀ d ∈ c.vec, Piece d
  bounds : ∀ d ∈ c.vec, c.minAddr ≤ d.addr ∧ d.addr + SplitAtIndex.length d ≤ c.maxAddr
  exact : c.vec ≠ [] → (∃ d ∈ c.vec, d.addr = c.minAddr) ∧
    ∃ d ∈ c.vec, d.addr + SplitAtIndex.length d = c.maxAddr

theorem Piece.endAddr {d : TranslateData T} (h : Piece d) : d.endAddr = d.addr + SplitAtIndex.length d :=
  Address.add_eq h.2

/-- Folding over the pieces, in whatever order, gives exact bounds. -/
theorem ok_of_folds {vec v : List (TranslateData T)} (hp : vec.Perm v) (hd : ∀ d ∈ v, Piece d) (pt : Nat) :
    Ok ⟨pt, vec, minOf Address.invalid v, maxOf 0 v⟩ := by
  obtain ⟨-, h2, h3⟩ := minOf_spec v Address.invalid
  obtain ⟨-, g2, g3⟩ := maxOf_spec v 0
  refine ⟨fun d h => hd d (hp.mem_iff.mp h), fun d h => ?_, fun hne => ⟨?_, ?_⟩⟩
  · have h := hp.mem_iff.mp h
    exact ⟨h2 d h, (hd d h).endAddr ▸ g2 d h⟩
  · rcases h3 with h3 | ⟨d, hm, he⟩
    · obtain ⟨d, hm⟩ := List.exists_mem_of_ne_nil _ hne
      have h := hp.mem_iff.mp hm
      have h1 := h2 d h
      have h4 := (hd d h).2
      have h5 := (hd d h).1
      simp only [Address.invalid] at h3 h1 ⊢
      omega
    · exact ⟨d, hp.mem_iff.mpr hm, he⟩
  · rcases g3 with g3 | ⟨d, hm, he⟩
    · obtain ⟨d, hm⟩ := List.exists_mem_of_ne_nil _ hne
      have h := hp.mem_iff.mp hm
      have h1 := g2 d h
      have h4 := (hd d h).endAddr
      have h5 := (hd d h).1
      omega
    · exact ⟨d, hp.mem_iff.mpr hm, (hd d hm).endAddr ▸ he⟩

end Folds

variable {T β : Type*} [SplitAtIndex T] [lawful : LawfulSplitAtIndex T β]

def bytesOf (vec : List (TranslateData T)) : List (Nat × β) := vec.flatMap bytes

@[simp] theorem bytesOf_nil : bytesOf ([] : List (TranslateData T)) = [] := rfl

/-! ## One round of the split loop -/

/-- What of a piece stays left of a cut behind `e`. -/
def leftPart (e : Nat) (d : TranslateData T) : Option (TranslateData T) :=
  if d.addr ≤ e then some (splitInclusiveAt d (e - d.addr)).1 else none

def rightPart (e : Nat) (d : TranslateData T) : Option (TranslateData T) :=
  if d.addr ≤ e then (splitInclusiveAt d (e - d.addr)).2 else some d

include lawful in
theorem parts_of_le {e : Nat} {d : TranslateData T} (hd : Piece d) (h : d.addr ≤ e) :
    ∃ l r, splitInclusiveAt d (e - d.addr) = (l, r) ∧ 0 < SplitAtIndex.length l ∧ leftPart e d = some l ∧
      rightPart e d = r ∧ (Piece l ∧ CutOf (· < e + 1) l d) ∧ ∀ x ∈ r, Piece x ∧ CutOf (¬ · < e + 1) x d := by
  have hcut := LawfulSplitAtIndex.cutInclusiveAt d (e - d.addr)
  have hl := length_cut_left hcut
  obtain ⟨h1, h2⟩ := hd
  refine ⟨(splitInclusiveAt d (e - d.addr)).1, (splitInclusiveAt d (e - d.addr)).2, rfl, by omega,
    by simp only [leftPart, if_pos h], by simp only [rightPart, if_pos h], ?_, ?_⟩
  · have ha : (splitInclusiveAt d (e - d.addr)).1.addr = d.addr := rfl
    exact ⟨⟨by omega, by omega⟩, by omega, by omega, fun v h3 h4 h5 => ⟨by omega, by omega⟩⟩
  · intro x hx
    obtain ⟨h3, h4⟩ := length_cut_right hcut hx
    obtain ⟨b, -, rfl⟩ := Option.map_eq_some_iff.mp hx
    have ha : Address.add d.addr (SplitAtIndex.length (splitInclusiveAt d (e - d.addr)).1) = e + 1 := by
      rw [hl, Nat.min_eq_left (by omega), Address.add_eq (by omega)]
      omega
    generalize hx' : (TranslateData.mk (Address.add d.addr (SplitAtIndex.length (splitInclusiveAt d (e - d.addr)).1)) b) = x
      at h4
    have hxa : x.addr = e + 1 := by rw [← hx']; exact ha
    exact ⟨⟨by omega, by omega⟩, by omega, by omega, fun v _ h6 h7 => ⟨by omega, by omega⟩⟩

include lawful in
theorem parts_piece {e : Nat} {d : TranslateData T} (hd : Piece d) :
    (∀ x ∈ leftPart e d, Piece x ∧ CutOf (· < e + 1) x d) ∧
      ∀ x ∈ rightPart e d, Piece x ∧ CutOf (¬ · < e + 1) x d := by
  by_cases h : d.addr ≤ e
  · obtain ⟨l, r, -, -, hl, hr, h1, h2⟩ := parts_of_le hd h
    rw [hl, hr]
    exact ⟨fun x hx => by cases hx; exact h1, h2⟩
  · simp only [leftPart, rightPart, if_neg h]
    refine ⟨nofun, fun x hx => ?_⟩
    rw [← Option.some.inj hx]
    exact ⟨hd, Nat.le_refl _, Nat.le_refl _, fun v h1 h2 _ => ⟨h1, h2⟩⟩

/-- The two parts hold the bytes up to `e` and past it. -/
theorem parts_bytes {e : Nat} {d : TranslateData T} (hd : Piece d) :
    bytesOf (leftPart e d).toList = (bytes d).filter (fun y => decide (y.1 < e + 1)) ∧
      bytesOf (rightPart e d).toList = (bytes d).filter (fun y => !decide (y.1 < e + 1)) := by
  have hlen : d.addr + (bytes d.buf).length ≤ 2 ^ 64 := by
    have := hd.2
    have hl : SplitAtIndex.length d = (bytes d.buf).length := LawfulSplitAtIndex.length_eq d.buf
    omega
  by_cases h : d.addr ≤ e
  · have hcut := LawfulSplitAtIndex.cutInclusiveAt d (e - d.addr)
    have hfil := Lib.Addressed.addressed_filter_lt (2 ^ 64) hlen (e - d.addr + 1)
    rw [show d.addr + (e - d.addr + 1) = e + 1 by omega, Lib.Addressed.addressed_take,
      show e + 1 = d.addr + (e - d.addr + 1) by omega, Lib.Addressed.addressed_drop,
      show d.addr + (e - d.addr + 1) = e + 1 by omega] at hfil
    simp only [leftPart, rightPart, if_pos h, bytesOf, Option.toList_some, List.flatMap_singleton]
    refine ⟨hcut.1.trans hfil.1.symm, ?_⟩
    rcases hcut.2 with ⟨hn, hle⟩ | ⟨r, hs, -, hb⟩
    · rw [hn]
      exact (hfil.2.trans (List.drop_eq_nil_of_le hle)).symm
    · rw [hs]
      simp only [Option.toList_some, List.flatMap_singleton]
      exact hb.trans hfil.2.symm
  · have hge : ∀ y ∈ bytes d, ¬ y.1 < e + 1 := by
      intro y hy
      have := (addr_of_mem_at64 hlen hy).1
      omega
    simp only [leftPart, rightPart, if_neg h, bytesOf, Option.toList_none, Option.toList_some,
      List.flatMap_nil, List.flatMap_singleton]
    exact ⟨(List.filter_eq_nil_iff.mpr (by simpa using hge)).symm,
      (List.filter_eq_self.mpr (by simpa using hge)).symm⟩

include lawful in
/-- The loop sorts the parts into the two sides and folds their bounds. -/
theorem visit_splitBody {e : Nat} (he : e < 2 ^ 64) :
    ∀ (v : List (TranslateData T)) (st : SplitState T), (∀ d ∈ v, Piece d) →
    Lib.RevLoop.visit (fun _ st d => ((splitBody e st d).1, (splitBody e st d).2.toList)) st v =
      (⟨st.vecRight ++ v.filterMap (rightPart e), minOf st.leftMin (v.filterMap (leftPart e)),
        maxOf st.leftMax (v.filterMap (leftPart e)), minOf st.rightMin (v.filterMap (rightPart e)),
        maxOf st.rightMax (v.filterMap (rightPart e))⟩, v.filterMap (leftPart e)) := by
  intro v
  induction v with
  | nil => intro st _; simp [Lib.RevLoop.visit, minOf, maxOf]
  | cons d v ih =>
    intro st hv
    have hd := hv d (List.mem_cons_self ..)
    have ih := fun st => ih st fun x hx => hv x (List.mem_cons_of_mem _ hx)
    by_cases h : d.addr ≤ e
    · obtain ⟨l, r, hs, hpos, hl, hr, -, -⟩ := parts_of_le hd h
      have hb : splitBody e st d = (r.elim (st.keepLeft l) (st.keepLeft l).pushRight, some l) := by
        simp only [splitBody, if_pos h, Address.sub_eq h he, hs, if_pos hpos]
      cases r with
      | none =>
        simp only [Lib.RevLoop.visit, hb, Option.elim_none, ih, List.filterMap_cons, hl, hr, SplitState.keepLeft,
          Option.toList_some, List.singleton_append]
        rfl
      | some r =>
        simp only [Lib.RevLoop.visit, hb, Option.elim_some, ih, List.filterMap_cons, hl, hr, SplitState.keepLeft,
          SplitState.pushRight, Option.toList_some, List.singleton_append, List.append_assoc]
        rfl
    · have hl : leftPart e d = none := by simp only [leftPart, if_neg h]
      have hr : rightPart e d = some d := by simp only [rightPart, if_neg h]
      have hb : splitBody e st d = (st.pushRight d, none) := by simp only [splitBody, if_neg h]
      simp only [Lib.RevLoop.visit, hb, ih, List.filterMap_cons, hl, hr, SplitState.pushRight, Option.toList_none,
        List.nil_append, List.append_assoc, List.singleton_append]
      rfl

theorem bytesOf_filterMap (f : TranslateData T → Option (TranslateData T)) (v : List (TranslateData T))
    (p : Nat × β → Bool) (h : ∀ d ∈ v, bytesOf (f d).toList = (bytes d).filter p) :
    bytesOf (v.filterMap f) = (bytesOf v).filter p := by
  induction v with
  | nil => rfl
  | cons d v ih =>
    have ih := ih fun x hx => h x (List.mem_cons_of_mem _ hx)
    have hd := h d (List.mem_cons_self ..)
    simp only [bytesOf, List.flatMap_cons, List.filter_append, List.filterMap_cons] at ih hd ⊢
    rw [← hd, ← ih]
    cases f d <;> simp

theorem bytesOf_perm {v w : List (TranslateData T)} (h : v.Perm w) : (bytesOf v).Perm (bytesOf w) :=
  h.flatMap_right _

/-! ## The split -/

/-- The addresses of a chunk's bytes lie in its bounds. -/
theorem Ok.mem_bounds {c : TranslationChunk T} (hc : c.Ok) {y : Nat × β} (hy : y ∈ bytesOf c.vec) :
    c.minAddr ≤ y.1 ∧ y.1 < c.maxAddr := by
  obtain ⟨d, hd, hy⟩ := List.mem_flatMap.mp hy
  have hp := hc.pieces d hd
  have hb := hc.bounds d hd
  have hl : SplitAtIndex.length d = (bytes d.buf).length := LawfulSplitAtIndex.length_eq d.buf
  have := addr_of_mem_at64 (by have := hp.2; omega) hy
  omega

theorem exists_mem_piece {vec : List (TranslateData T)} {d : TranslateData T} (hd : d ∈ vec) (hp : Piece d) {v : Nat}
    (h1 : d.addr ≤ v) (h2 : v < d.addr + SplitAtIndex.length d) : ∃ y ∈ bytesOf vec, y.1 = v := by
  have hl : SplitAtIndex.length d = (bytes d.buf).length := LawfulSplitAtIndex.length_eq d.buf
  obtain ⟨x, hx⟩ := exists_mem_at64 (a := d.addr) (l := bytes d.buf) (v := v) (by have := hp.2; omega) h1 (by omega)
  exact ⟨_, List.mem_flatMap.mpr ⟨d, hd, hx⟩, rfl⟩

theorem Ok.exists_min {c : TranslationChunk T} (hc : c.Ok) (hne : c.vec ≠ []) :
    ∃ y ∈ bytesOf c.vec, y.1 = c.minAddr := by
  obtain ⟨d, hd, he⟩ := (hc.exact hne).1
  have hp := hc.pieces d hd
  exact he ▸ exists_mem_piece hd hp (Nat.le_refl _) (by have := hp.1; omega)

theorem Ok.exists_max {c : TranslationChunk T} (hc : c.Ok) (hne : c.vec ≠ []) :
    ∃ y ∈ bytesOf c.vec, y.1 + 1 = c.maxAddr := by
  obtain ⟨d, hd, he⟩ := (hc.exact hne).2
  have hp := hc.pieces d hd
  have hpos := hp.1
  obtain ⟨y, hy, hv⟩ := exists_mem_piece hd hp (v := d.addr + SplitAtIndex.length d - 1) (by omega) (by omega)
  exact ⟨y, hy, by omega⟩

/-- Cutting a chunk at `idx` filters its bytes by address. -/
theorem splitAtInclusive_spec {c : TranslationChunk T} (hc : c.Ok) (hne : c.vec ≠ []) (idx : Nat) :
    ∃ l r, c.splitAtInclusive idx = (l, r) ∧ l.Ok ∧ l.ptAddr = c.ptAddr ∧ l.vec ≠ [] ∧
      (∀ x ∈ l.vec, ∃ d ∈ c.vec, CutOf (· < c.minAddr + idx + 1) x d) ∧
      (bytesOf l.vec).Perm ((bytesOf c.vec).filter fun y => decide (y.1 < c.minAddr + idx + 1)) ∧
      ((r = none ∧ ∀ y ∈ bytesOf c.vec, y.1 < c.minAddr + idx + 1) ∨
        ∃ c', r = some c' ∧ c'.Ok ∧ c'.ptAddr = c.ptAddr ∧ c'.vec ≠ [] ∧
          (∀ x ∈ c'.vec, ∃ d ∈ c.vec, CutOf (¬ · < c.minAddr + idx + 1) x d) ∧
          (bytesOf c'.vec).Perm ((bytesOf c.vec).filter fun y => !decide (y.1 < c.minAddr + idx + 1))) := by
  obtain ⟨y0, hy0, hmin⟩ := hc.exists_min hne
  obtain ⟨d0, hd0, hmax⟩ := (hc.exact hne).2
  have hb0 := hc.mem_bounds hy0
  have hlt := (hc.pieces d0 hd0).2
  have hlen : Address.sub c.maxAddr c.minAddr = c.maxAddr - c.minAddr := Address.sub_eq (by omega) (by omega)
  unfold splitAtInclusive
  simp only [hlen]
  by_cases hle : c.maxAddr - c.minAddr ≤ idx
  · have hall : ∀ y ∈ bytesOf c.vec, y.1 < c.minAddr + idx + 1 := by
      intro y hy
      have := hc.mem_bounds hy
      omega
    rw [if_pos hle]
    refine ⟨c, none, rfl, hc, rfl, hne, fun x hx => ⟨x, hx, Nat.le_refl _, Nat.le_refl _, fun v h1 h2 _ => ⟨h1, h2⟩⟩, ?_,
      Or.inl ⟨rfl, hall⟩⟩
    rw [List.filter_eq_self.mpr (by simpa using hall)]
  · have hend : Address.add c.minAddr (min (c.maxAddr - c.minAddr - 1) idx) = c.minAddr + idx := by
      rw [Nat.min_eq_right (by omega), Address.add_eq (by omega)]
    have hpr : ∀ d ∈ c.vec.reverse, Piece d := fun d hd => hc.pieces d (List.mem_reverse.mp hd)
    obtain ⟨h1, h2⟩ := Lib.RevLoop.retainRev_visit (splitBody (c.minAddr + idx)) c.vec.reverse
      ⟨[], Address.invalid, Address.null, Address.invalid, Address.null⟩ []
    rw [visit_splitBody (by omega) _ _ hpr] at h1 h2
    simp only [List.reverse_reverse, List.length_reverse, List.append_nil, List.nil_append] at h1 h2
    rw [if_neg hle, hend]
    generalize hR : Lib.RevLoop.retainRev (splitBody (c.minAddr + idx)) c.vec.length _ c.vec = R at h1 h2
    obtain ⟨st, vec⟩ := R
    subst h1
    simp only at h2 ⊢
    have hpl : ∀ d ∈ c.vec.reverse.filterMap (leftPart (c.minAddr + idx)),
        Piece d ∧ ∃ x ∈ c.vec, CutOf (· < c.minAddr + idx + 1) d x := by
      intro d hd
      obtain ⟨x, hx, he⟩ := List.mem_filterMap.mp hd
      obtain ⟨h3, h4⟩ := (parts_piece (hpr x hx)).1 d he
      exact ⟨h3, x, List.mem_reverse.mp hx, h4⟩
    have hprt : ∀ d ∈ c.vec.reverse.filterMap (rightPart (c.minAddr + idx)),
        Piece d ∧ ∃ x ∈ c.vec, CutOf (¬ · < c.minAddr + idx + 1) d x := by
      intro d hd
      obtain ⟨x, hx, he⟩ := List.mem_filterMap.mp hd
      obtain ⟨h3, h4⟩ := (parts_piece (hpr x hx)).2 d he
      exact ⟨h3, x, List.mem_reverse.mp hx, h4⟩
    have hleft : ∀ x ∈ vec, ∃ d ∈ c.vec, CutOf (· < c.minAddr + idx + 1) x d := fun x hx => (hpl x (h2.subset hx)).2
    have hbl := (bytesOf_perm h2).trans (List.Perm.of_eq (bytesOf_filterMap (leftPart (c.minAddr + idx)) _
      (fun y => decide (y.1 < c.minAddr + idx + 1)) fun d hd => (parts_bytes (hpr d hd)).1))
    have hbr := bytesOf_filterMap (rightPart (c.minAddr + idx)) _
      (fun y => !decide (y.1 < c.minAddr + idx + 1)) fun d hd => (parts_bytes (hpr d hd)).2
    have hrev : (bytesOf c.vec.reverse).Perm (bytesOf c.vec) := bytesOf_perm (List.reverse_perm _)
    have hbl := hbl.trans (hrev.filter _)
    have hne' : vec ≠ [] := by
      intro e
      rw [e] at hbl
      have := hbl.symm.subset (List.mem_filter.mpr ⟨hy0, by simp; omega⟩)
      cases this
    by_cases hr : (c.vec.reverse.filterMap (rightPart (c.minAddr + idx))).isEmpty = true
    · rw [if_pos hr]
      refine ⟨_, none, rfl, ok_of_folds h2 (fun d hd => (hpl d hd).1) c.ptAddr, rfl, hne', hleft, hbl, Or.inl ⟨rfl, fun y hy => ?_⟩⟩
      rw [List.isEmpty_iff.mp hr] at hbr
      by_contra hn
      have := hrev.symm.subset hy
      have hm : y ∈ (bytesOf c.vec.reverse).filter fun y => !decide (y.1 < c.minAddr + idx + 1) :=
        List.mem_filter.mpr ⟨this, by simpa using hn⟩
      rw [← hbr] at hm
      cases hm
    · rw [if_neg hr]
      refine ⟨_, _, rfl, ok_of_folds h2 (fun d hd => (hpl d hd).1) c.ptAddr, rfl, hne', hleft, hbl,
        Or.inr ⟨_, rfl, ok_of_folds (List.Perm.refl _) (fun d hd => (hprt d hd).1) c.ptAddr, rfl, ?_,
          fun d hd => (hprt d hd).2, ?_⟩⟩
      · simpa using hr
      · exact (List.Perm.of_eq hbr).trans (hrev.filter _)

/-- A cut of a chunk is exact: of its bytes, the left part has those up to the address
    `minAddr + idx` and the right part the others; there is a right part when there are any.
    Both keep `ptAddr`, both are `Ok`, and neither is without pieces. -/
theorem splitAtInclusive_cut {c : TranslationChunk T} (hc : c.Ok) (hne : c.vec ≠ []) (idx : Nat) :
    ((c.splitAtInclusive idx).1.Ok ∧ (c.splitAtInclusive idx).1.ptAddr = c.ptAddr ∧
      (c.splitAtInclusive idx).1.vec ≠ [] ∧
      (bytesOf (c.splitAtInclusive idx).1.vec).Perm ((bytesOf c.vec).filter fun y => y.1 ≤ c.minAddr + idx)) ∧
    (∀ r ∈ (c.splitAtInclusive idx).2, r.Ok ∧ r.ptAddr = c.ptAddr ∧ r.vec ≠ [] ∧
      (bytesOf r.vec).Perm ((bytesOf c.vec).filter fun y => c.minAddr + idx < y.1)) ∧
    ((c.splitAtInclusive idx).2 = none ↔ ∀ y ∈ bytesOf c.vec, y.1 ≤ c.minAddr + idx) := by
  obtain ⟨l, r, heq, hl, hpt, hlne, -, hbl, hr⟩ := splitAtInclusive_spec hc hne idx
  have hle : (bytesOf c.vec).filter (fun y => decide (y.1 < c.minAddr + idx + 1)) =
      (bytesOf c.vec).filter fun y => y.1 ≤ c.minAddr + idx :=
    List.filter_congr fun y _ => decide_eq_decide.mpr Nat.lt_succ_iff
  have hlt : (bytesOf c.vec).filter (fun y => !decide (y.1 < c.minAddr + idx + 1)) =
      (bytesOf c.vec).filter fun y => c.minAddr + idx < y.1 := by
    refine List.filter_congr fun y _ => ?_
    rw [← decide_not, decide_eq_decide]
    omega
  rw [heq]
  refine ⟨⟨hl, hpt, hlne, hle ▸ hbl⟩, ?_, ?_⟩
  · intro c' h
    rcases hr with ⟨hnone, -⟩ | ⟨c'', hsome, hc', hpt', hne', -, hbr⟩
    · rw [hnone] at h
      cases h
    · obtain rfl : c'' = c' := Option.some.inj (hsome.symm.trans h)
      exact ⟨hc', hpt', hne', hlt ▸ hbr⟩
  · rcases hr with ⟨hnone, hall⟩ | ⟨c', hsome, hc', -, hne', -, hbr⟩
    · exact iff_of_true hnone fun y hy => Nat.lt_succ_iff.mp (hall y hy)
    · refine iff_of_false (by simp [hsome]) fun hall => ?_
      -- the least byte of the right part lies beyond the cut
      obtain ⟨y, hy, -⟩ := hc'.exists_min hne'
      obtain ⟨hy, hgt⟩ := List.mem_filter.mp ((hlt ▸ hbr).subset hy)
      exact absurd (hall y hy) (Nat.not_le.mpr (of_decide_eq_true hgt))

/-- Two overlapping pieces, cut behind the first byte of the second. -/
theorem splitAtInclusive_overlap :
    let c : TranslationChunk (List Nat) := ⟨0x1000, [⟨0x11, [4, 5]⟩, ⟨0x10, [1, 2, 3]⟩], 0x10, 0x13⟩
    ((c.splitAtInclusive 1).1.Ok ∧ (c.splitAtInclusive 1).1.ptAddr = c.ptAddr ∧ (c.splitAtInclusive 1).1.vec ≠ [] ∧
      (bytesOf (c.splitAtInclusive 1).1.vec).Perm ((bytesOf c.vec).filter fun y => y.1 ≤ c.minAddr + 1)) ∧
    (∀ r ∈ (c.splitAtInclusive 1).2, r.Ok ∧ r.ptAddr = c.ptAddr ∧ r.vec ≠ [] ∧
      (bytesOf r.vec).Perm ((bytesOf c.vec).filter fun y => c.minAddr + 1 < y.1)) ∧
    ((c.splitAtInclusive 1).2 = none ↔ ∀ y ∈ bytesOf c.vec, y.1 ≤ c.minAddr + 1) :=
  splitAtInclusive_cut
    ⟨by simp [Piece, SplitAtIndex.length], by simp [SplitAtIndex.length], by simp [SplitAtIndex.length]⟩ (by simp) 1

/-- The rest of a cut is shorter: its least address lies behind the cut. -/
theorem length_rest {c c' : TranslationChunk T} (hc : c.Ok) (hc' : c'.Ok) (hne : c'.vec ≠ []) {idx : Nat}
    (hb : (bytesOf c'.vec).Perm ((bytesOf c.vec).filter fun y => !decide (y.1 < c.minAddr + idx + 1))) :
    SplitAtIndex.length c' < SplitAtIndex.length c := by
  obtain ⟨m, hm, hme⟩ := hc'.exists_min hne
  obtain ⟨x, hx, hxe⟩ := hc'.exists_max hne
  obtain ⟨hm1, hm2⟩ := List.mem_filter.mp (hb.subset hm)
  obtain ⟨hx1, -⟩ := List.mem_filter.mp (hb.subset hx)
  have hvec : c.vec ≠ [] := fun e => by rw [e] at hm1; cases hm1
  obtain ⟨d, hd, hde⟩ := (hc.exact hvec).2
  have h1 := (hc.pieces d hd).2
  have h2 := hc.mem_bounds hm1
  have h3 := hc.mem_bounds hx1
  have h4 := hc'.mem_bounds hx
  have h5 : ¬ m.1 < c.minAddr + idx + 1 := by simpa using hm2
  show Address.sub c'.maxAddr c'.minAddr < Address.sub c.maxAddr c.minAddr
  rw [Address.sub_eq (by omega) (by omega), Address.sub_eq (by omega) (by omega)]
  omega

end TranslationChunk

end Jiaa
