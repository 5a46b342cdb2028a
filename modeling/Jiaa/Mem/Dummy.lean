/-
  Jiaa.Mem.Dummy — the memory of the tests and its page frames (memflow `mem/dummy.rs`).

  `with_rng` cuts the buffer into pages, the largest that fit, and splits some of them in
  two rounds. Both rounds append to one list: the second takes the pages of the first and
  leaves them in it.

  - `prelist_frames`, `splitDown_frames`: pages and their splits cover the same frames;
  - `withRng_covers_twice`: the page list covers the buffer once with the pages of each round;
  - `frames_once_iff`: the frames that are handed out are apart up to the first round's last.
-/

import Mathlib.Data.List.Induction
import Mathlib.Data.List.Perm.Basic
import Mathlib.Logic.Function.Basic

namespace Jiaa

/-! ## Pages -/

inductive X64PageSize where
  | p4k
  | p2m
  | p1g
  deriving DecidableEq, Repr

namespace X64PageSize

def toSize : X64PageSize → Nat
  | p4k => 0x1000
  | p2m => 0x200000
  | p1g => 0x40000000

def toIdx : X64PageSize → Nat
  | p4k => 0
  | p2m => 1
  | p1g => 2

def fromIdx : Nat → X64PageSize
  | 2 => p1g
  | 1 => p2m
  | _ => p4k

theorem toSize_pos (s : X64PageSize) : 0 < s.toSize := by
  cases s <;> decide

theorem frames_pos (s : X64PageSize) : 0 < s.toSize / p4k.toSize := by
  cases s <;> decide

end X64PageSize

structure PageInfo where
  addr : Nat
  size : X64PageSize
  deriving DecidableEq, Repr

namespace PageInfo

def splitToSize (self : PageInfo) (newSize : X64PageSize) : List PageInfo :=
  (List.range (self.size.toSize / newSize.toSize)).map fun o => ⟨self.addr + newSize.toSize * o, newSize⟩

/-- `none` is the underflow of the index of 4 KB pages. -/
def splitDown (self : PageInfo) : Option (List PageInfo) :=
  if self.size.toIdx = 0 then none else some (self.splitToSize (.fromIdx (self.size.toIdx - 1)))

end PageInfo

/-! ## `with_rng` -/

/-- `Rng::gen` of a `bool` and `SliceRandom::shuffle`, with any outcome. -/
class Rng (R : Type*) where
  genBool : R → Bool × R
  shuffle : R → List PageInfo → List PageInfo × R
  shuffle_perm : ∀ rng l, (shuffle rng l).1.Perm l

/-- The page at `i` in a buffer of `size` bytes. -/
def pageAt (size i : Nat) : Option PageInfo :=
  if X64PageSize.p1g.toSize ≤ size - i then some ⟨i, .p1g⟩
  else if X64PageSize.p2m.toSize ≤ size - i then some ⟨i, .p2m⟩
  else if X64PageSize.p4k.toSize ≤ size - i then some ⟨i, .p4k⟩
  else none

/-- The loop that makes `page_prelist`, from `i` on. -/
def prelist (size i : Nat) : List PageInfo :=
  if i < size then
    match pageAt size i with
    | some pageInfo => pageInfo :: prelist size (i + pageInfo.size.toSize)
    | none => []
  else []
termination_by size - i
decreasing_by
  have := pageInfo.size.toSize_pos
  omega

/-- What the rounds of splitting change. -/
structure Splitting (R : Type*) where
  split : X64PageSize → Nat
  rng : R
  pageList : List PageInfo

namespace Splitting

variable {R : Type*} [Rng R]

/-- Whether a page is split; the first of its size always is. -/
def splits (st : Splitting R) (i : PageInfo) : Bool × R :=
  if st.split i.size = 0 then (true, st.rng)
  else if st.split i.size ≠ 2 then Rng.genBool st.rng
  else (false, st.rng)

/-- Shuffle what a page was split into and append it. -/
def append (st : Splitting R) (rng : R) (split : X64PageSize → Nat) (list : List PageInfo) : Splitting R :=
  let (list, rng) := Rng.shuffle rng list
  ⟨split, rng, st.pageList ++ list⟩

def placePage (st : Splitting R) (i : PageInfo) : Option (Splitting R) :=
  let (splits, rng) := st.splits i
  if splits then
    i.splitDown.map (st.append rng (Function.update st.split i.size (max (st.split i.size) 1)))
  else some (st.append rng st.split [i])

def round (st : Splitting R) (pagePrelist : List PageInfo) : Option (Splitting R) :=
  let (pagePrelist, rng) := Rng.shuffle st.rng pagePrelist
  pagePrelist.foldlM placePage { st with rng := rng }

end Splitting

structure DummyMemory (R : Type*) where
  bufLen : Nat
  pageList : List PageInfo
  ptPages : List PageInfo
  rng : R

namespace DummyMemory

variable {R : Type*} [Rng R]

def withRng (size : Nat) (rng : R) : Option (DummyMemory R) := do
  let st ← Splitting.round ⟨fun | .p4k => 2 | _ => 0, rng, []⟩ (prelist size 0)
  -- the second round splits the pages of the first, and `page_list` keeps both
  let st ← st.round st.pageList
  some ⟨size, st.pageList, [], st.rng⟩

/-- `none` is the `unwrap` of an empty page list. -/
def allocPtPage (self : DummyMemory R) : Option (PageInfo × DummyMemory R) :=
  match self.ptPages.getLast? with
  | some page => some (page, { self with ptPages := self.ptPages.dropLast })
  | none =>
    match self.pageList with
    | [] => none
    | info :: pageList =>
      let ptPages := info.splitToSize .p4k
      ptPages.getLast?.map fun page => (page, { self with pageList := pageList, ptPages := ptPages.dropLast })

/-- The frames of `n` calls in a row, if none of them panics. -/
def allocPtPages : Nat → DummyMemory R → Option (List PageInfo × DummyMemory R)
  | 0, self => some ([], self)
  | n + 1, self => do
    let (page, self) ← self.allocPtPage
    let (pages, self) ← allocPtPages n self
    some (page :: pages, self)

end DummyMemory

/-! ## Frames -/

/-- `k` ranges of `m` steps, end to end. -/
theorem flatMap_range' (m step : Nat) : ∀ k a,
    (List.range' a k (step * m)).flatMap (fun b => List.range' b m step) = List.range' a (m * k) step
  | 0, _ => rfl
  | k + 1, a => by
    rw [List.range'_succ, List.flatMap_cons, flatMap_range' m step k, List.range'_append, Nat.mul_succ, Nat.add_comm]

namespace PageInfo

/-- The addresses of the 4 KB frames of a page. -/
def frames (self : PageInfo) : List Nat := List.range' self.addr (self.size.toSize / 0x1000) 0x1000

@[simp] theorem length_splitToSize (self : PageInfo) (newSize : X64PageSize) :
    (self.splitToSize newSize).length = self.size.toSize / newSize.toSize := by
  simp [splitToSize]

theorem splitToSize_addrs (self : PageInfo) (newSize : X64PageSize) :
    (self.splitToSize newSize).map (·.addr) =
      List.range' self.addr (self.size.toSize / newSize.toSize) newSize.toSize := by
  apply List.ext_getElem <;> simp [splitToSize]

/-- The parts of a page have the page's frames. -/
theorem splitToSize_frames {self : PageInfo} {newSize : X64PageSize}
    (h : newSize.toSize / 0x1000 * (self.size.toSize / newSize.toSize) = self.size.toSize / 0x1000) :
    (self.splitToSize newSize).flatMap frames = self.frames := by
  have hstep : 0x1000 * (newSize.toSize / 0x1000) = newSize.toSize := by cases newSize <;> rfl
  have hrange := flatMap_range' (newSize.toSize / 0x1000) 0x1000 (self.size.toSize / newSize.toSize) self.addr
  rw [hstep, h, ← splitToSize_addrs, List.flatMap_map] at hrange
  rw [frames, ← hrange]
  simp [splitToSize, frames, List.flatMap_map]

theorem splitDown_frames {self : PageInfo} (h : self.size ≠ .p4k) :
    ∃ list, self.splitDown = some list ∧ list.flatMap frames = self.frames := by
  have hidx : self.size.toIdx ≠ 0 := by
    revert h
    cases self.size <;> decide
  have hparts : (X64PageSize.fromIdx (self.size.toIdx - 1)).toSize / 0x1000 *
      (self.size.toSize / (X64PageSize.fromIdx (self.size.toIdx - 1)).toSize) = self.size.toSize / 0x1000 := by
    revert h
    cases self.size <;> decide
  exact ⟨_, if_neg hidx, splitToSize_frames hparts⟩

end PageInfo
open PageInfo

theorem pageAt_eq_none {size i : Nat} (h : pageAt size i = none) : size - i < 0x1000 := by
  unfold pageAt at h
  split at h
  · cases h
  · split at h
    · cases h
    · split at h
      · cases h
      · rename_i h4k
        exact Nat.not_le.mp h4k

theorem pageAt_eq_some {size i : Nat} {p : PageInfo} (h : pageAt size i = some p) :
    p.addr = i ∧ p.size.toSize ≤ size - i := by
  unfold pageAt at h
  split at h
  · obtain rfl := Option.some.inj h
    exact ⟨rfl, ‹_›⟩
  · split at h
    · obtain rfl := Option.some.inj h
      exact ⟨rfl, ‹_›⟩
    · split at h
      · obtain rfl := Option.some.inj h
        exact ⟨rfl, ‹_›⟩
      · cases h

/-- The pages cover the buffer's frames from `i` on. -/
theorem prelist_frames (size i : Nat) :
    (prelist size i).flatMap frames = List.range' i ((size - i) / 0x1000) 0x1000 := by
  induction i using prelist.induct size with
  | case1 i hi p hp ih =>
    obtain ⟨haddr, hle⟩ := pageAt_eq_some hp
    have hlen : (size - i) / 0x1000 = p.size.toSize / 0x1000 + (size - (i + p.size.toSize)) / 0x1000 := by
      cases hs : p.size <;> simp only [hs, X64PageSize.toSize] at hle ⊢ <;> omega
    have hend : i + p.size.toSize = i + 0x1000 * (p.size.toSize / 0x1000) := by
      cases p.size <;> rfl
    rw [prelist, if_pos hi, hp]
    simp only [List.flatMap_cons]
    rw [ih, hlen, frames, haddr, hend, List.range'_append]
  | case2 i hi hp =>
    have hlt := pageAt_eq_none hp
    rw [prelist, if_pos hi, hp, Nat.div_eq_of_lt hlt]
    rfl
  | case3 i hi =>
    rw [prelist, if_neg hi, show size - i = 0 by omega]
    rfl

namespace Splitting

variable {R : Type*} [Rng R]

/-- `4 KB` pages are not split. -/
def Keeps4k (st : Splitting R) : Prop := st.split .p4k = 2

theorem append_frames (st : Splitting R) (rng : R) (split : X64PageSize → Nat) (list : List PageInfo) :
    ∃ added, (st.append rng split list).pageList = st.pageList ++ added ∧
      (added.flatMap frames).Perm (list.flatMap frames) :=
  ⟨(Rng.shuffle rng list).1, rfl, (Rng.shuffle_perm rng list).flatMap_right _⟩

/-- A page is placed with the frames it has. -/
theorem placePage_frames {st : Splitting R} (h4k : st.Keeps4k) (i : PageInfo) :
    ∃ st' added, st.placePage i = some st' ∧ st'.Keeps4k ∧ st'.pageList = st.pageList ++ added ∧
      (added.flatMap frames).Perm i.frames := by
  unfold placePage
  cases hs : st.splits i with
  | mk splits rng =>
    cases splits with
    | false =>
      obtain ⟨added, hlist, hframes⟩ := st.append_frames rng st.split [i]
      exact ⟨_, added, rfl, h4k, hlist, by simpa using hframes⟩
    | true =>
      have hne : i.size ≠ .p4k := by
        intro he
        rw [splits, he, h4k] at hs
        cases hs
      obtain ⟨list, hdown, hlist⟩ := splitDown_frames hne
      obtain ⟨added, happ, hframes⟩ :=
        st.append_frames rng (Function.update st.split i.size (max (st.split i.size) 1)) list
      refine ⟨_, added, by simp only [hdown]; rfl, ?_, happ, hlist ▸ hframes⟩
      exact (Function.update_of_ne (Ne.symm hne) ..).trans h4k

theorem placeAll_frames : ∀ (list : List PageInfo) (st : Splitting R), st.Keeps4k →
    ∃ st' added, list.foldlM placePage st = some st' ∧ st'.Keeps4k ∧ st'.pageList = st.pageList ++ added ∧
      (added.flatMap frames).Perm (list.flatMap frames)
  | [], st, h4k => ⟨st, [], rfl, h4k, (List.append_nil _).symm, .refl _⟩
  | i :: list, st, h4k => by
    obtain ⟨st₁, added₁, hplace, h4k₁, hlist₁, hframes₁⟩ := placePage_frames h4k i
    obtain ⟨st₂, added₂, hall, h4k₂, hlist₂, hframes₂⟩ := placeAll_frames list st₁ h4k₁
    refine ⟨st₂, added₁ ++ added₂, ?_, h4k₂, ?_, ?_⟩
    · rw [List.foldlM_cons, hplace]
      exact hall
    · rw [hlist₂, hlist₁, List.append_assoc]
    · rw [List.flatMap_append, List.flatMap_cons]
      exact hframes₁.append hframes₂

/-- A round adds pages with the frames of those it takes. -/
theorem round_frames (st : Splitting R) (h4k : st.Keeps4k) (list : List PageInfo) :
    ∃ st' added, st.round list = some st' ∧ st'.Keeps4k ∧ st'.pageList = st.pageList ++ added ∧
      (added.flatMap frames).Perm (list.flatMap frames) := by
  obtain ⟨st', added, hall, h4k', hlist, hframes⟩ :=
    placeAll_frames (Rng.shuffle st.rng list).1 { st with rng := (Rng.shuffle st.rng list).2 } h4k
  exact ⟨st', added, hall, h4k', hlist, hframes.trans ((Rng.shuffle_perm st.rng list).flatMap_right _)⟩

end Splitting

namespace DummyMemory

variable {R : Type*} [Rng R]

/-- The addresses of the frames of a buffer. -/
def bufFrames (size : Nat) : List Nat := List.range' 0 (size / 0x1000) 0x1000

/-- The page list covers the buffer with the pages of each round. -/
theorem withRng_covers_twice (size : Nat) (rng : R) :
    ∃ (mem : DummyMemory R) (first second : List PageInfo), withRng size rng = some mem ∧ mem.bufLen = size ∧
      mem.ptPages = [] ∧ mem.pageList = first ++ second ∧
      (first.flatMap frames).Perm (bufFrames size) ∧ (second.flatMap frames).Perm (bufFrames size) := by
  obtain ⟨st₁, first, hround₁, h4k₁, hlist₁, hframes₁⟩ :=
    Splitting.round_frames ⟨fun | .p4k => 2 | _ => 0, rng, []⟩ rfl (prelist size 0)
  obtain ⟨st₂, second, hround₂, -, hlist₂, hframes₂⟩ := st₁.round_frames h4k₁ st₁.pageList
  rw [List.nil_append] at hlist₁
  rw [prelist_frames] at hframes₁
  refine ⟨⟨size, st₂.pageList, [], st₂.rng⟩, first, second, ?_, rfl, rfl, hlist₁ ▸ hlist₂, hframes₁, ?_⟩
  · simp only [withRng, hround₁, Option.bind_eq_bind, Option.bind_some, hround₂]
  · exact (hlist₁ ▸ hframes₂).trans hframes₁

/-! ## Allocation -/

/-- The frames of a page list in the order in which they are handed out. -/
def handedOut (pageList : List PageInfo) : List PageInfo :=
  pageList.flatMap fun info => (info.splitToSize .p4k).reverse

/-- The frames in the order in which they are handed out. -/
def yields (self : DummyMemory R) : List PageInfo :=
  self.ptPages.reverse ++ handedOut self.pageList

omit [Rng R] in
theorem allocPtPage_eq (self : DummyMemory R) :
    (self.yields = [] ∧ self.allocPtPage = none) ∨
      ∃ page self', self.allocPtPage = some (page, self') ∧ self.yields = page :: self'.yields := by
  obtain ⟨bufLen, pageList, ptPages, rng⟩ := self
  cases ptPages using List.reverseRecOn with
  | append_singleton pages page =>
    exact Or.inr ⟨page, ⟨bufLen, pageList, pages, rng⟩, by simp [allocPtPage], by simp [yields]⟩
  | nil =>
    cases pageList with
    | nil => exact Or.inl ⟨rfl, rfl⟩
    | cons info pageList =>
      have hne : info.splitToSize .p4k ≠ [] := by
        intro hnil
        have hlen := congrArg List.length hnil
        rw [length_splitToSize, List.length_nil] at hlen
        have hpos := info.size.frames_pos
        omega
      have hlast := List.dropLast_concat_getLast hne
      refine Or.inr ⟨(info.splitToSize .p4k).getLast hne,
        ⟨bufLen, pageList, (info.splitToSize .p4k).dropLast, rng⟩, ?_, ?_⟩
      · simp [allocPtPage, List.getLast?_eq_some_getLast hne]
      · rw [yields, yields, handedOut, List.flatMap_cons, ← handedOut]
        simp only [List.reverse_nil, List.nil_append]
        conv_lhs => rw [← hlast]
        rw [List.reverse_concat, List.cons_append]

omit [Rng R] in
/-- The frames of `n` calls are the first `n`, and the call after the last one panics. -/
theorem allocPtPages_eq : ∀ (n : Nat) (self : DummyMemory R),
    (self.allocPtPages n).map (·.1) = if n ≤ self.yields.length then some (self.yields.take n) else none
  | 0, self => by simp [allocPtPages]
  | n + 1, self => by
    rcases self.allocPtPage_eq with ⟨hnil, hnone⟩ | ⟨page, self', hsome, hcons⟩
    · rw [hnil, if_neg (by simp), allocPtPages, hnone]
      rfl
    · have ih := allocPtPages_eq n self'
      rw [hcons, allocPtPages, hsome]
      simp only [List.length_cons, Nat.add_le_add_iff_right, List.take_succ_cons, Option.bind_eq_bind,
        Option.bind_some]
      split at ih
      · rename_i hle
        obtain ⟨⟨pages, self''⟩, hrun, hpages⟩ := Option.map_eq_some_iff.mp ih
        rw [if_pos hle, hrun, ← hpages]
        rfl
      · rename_i hlt
        rw [if_neg hlt, Option.map_eq_none_iff.mp ih]
        rfl

/-! ## Frames handed out twice -/

def Apart (a b : PageInfo) : Prop := a.addr + a.size.toSize ≤ b.addr ∨ b.addr + b.size.toSize ≤ a.addr

/-- Frames of 4 KB, pairwise disjoint and inside the buffer. -/
def Once (bufLen : Nat) (pages : List PageInfo) : Prop :=
  pages.Pairwise Apart ∧ ∀ f ∈ pages, f.size = .p4k ∧ f.addr + f.size.toSize ≤ bufLen

theorem handedOut_perm {pageList : List PageInfo} {size : Nat}
    (h : (pageList.flatMap frames).Perm (bufFrames size)) :
    (handedOut pageList).Perm ((bufFrames size).map fun a => ⟨a, .p4k⟩) := by
  have hparts : ∀ info : PageInfo, info.splitToSize .p4k = info.frames.map fun a => ⟨a, .p4k⟩ := fun info => by
    apply List.ext_getElem <;> simp [splitToSize, frames, X64PageSize.toSize]
  have hrev : (handedOut pageList).Perm (pageList.flatMap fun info => info.frames.map fun a => ⟨a, .p4k⟩) :=
    List.Perm.flatMap_left _ fun info _ => hparts info ▸ List.reverse_perm _
  refine hrev.trans ?_
  rw [← List.map_flatMap]
  exact h.map _

theorem bufFrames_once (size : Nat) : Once size ((bufFrames size).map fun a => ⟨a, .p4k⟩) := by
  refine ⟨?_, fun f hf => ?_⟩
  · rw [List.pairwise_map, List.pairwise_iff_getElem]
    intro i j hi hj hij
    refine Or.inl ?_
    simp only [bufFrames, List.getElem_range', X64PageSize.toSize]
    omega
  · obtain ⟨a, ha, rfl⟩ := List.mem_map.mp hf
    obtain ⟨i, hi, rfl⟩ := List.mem_range'.mp ha
    refine ⟨rfl, ?_⟩
    simp only [X64PageSize.toSize]
    omega

theorem Once.perm {bufLen : Nat} {l k : List PageInfo} (h : Once bufLen l) (hp : k.Perm l) : Once bufLen k :=
  ⟨(hp.pairwise_iff fun hab => hab.symm).mpr h.1, fun f hf => h.2 f (hp.subset hf)⟩

theorem not_apart_self (f : PageInfo) : ¬ Apart f f := by
  have := f.size.toSize_pos
  unfold Apart
  omega

/-- When a list is followed by one of its own elements, its prefixes are apart up to its end. -/
theorem once_take_iff {bufLen n : Nat} {first second : List PageInfo} (hfirst : Once bufLen first)
    (hsecond : second.Perm first) (hn : n ≤ (first ++ second).length) :
    Once bufLen ((first ++ second).take n) ↔ n ≤ first.length := by
  constructor
  · intro ⟨happ, _⟩
    by_contra hlt
    rw [List.take_append, List.take_of_length_le (by omega)] at happ
    obtain ⟨f, hf⟩ := List.exists_mem_of_ne_nil (second.take (n - first.length)) (by
      intro hnil
      have hlen := congrArg List.length hnil
      rw [List.length_append] at hn
      rw [List.length_take, List.length_nil] at hlen
      omega)
    have hf' : f ∈ first := hsecond.subset (List.mem_of_mem_take hf)
    exact not_apart_self f ((List.pairwise_append.mp happ).2.2 f hf' f hf)
  · intro hle
    rw [List.take_append_of_le_length hle]
    exact ⟨hfirst.1.sublist (List.take_sublist ..), fun f hf => hfirst.2 f (List.mem_of_mem_take hf)⟩

theorem withRng_yields (size : Nat) (rng : R) :
    ∃ (mem : DummyMemory R) (first second : List PageInfo), withRng size rng = some mem ∧ mem.bufLen = size ∧
      mem.yields = first ++ second ∧ Once size first ∧ first.length = size / 0x1000 ∧ second.Perm first := by
  obtain ⟨mem, first, second, hmem, hlen, hpt, hlist, hfirst, hsecond⟩ := withRng_covers_twice size rng
  have hpf := handedOut_perm hfirst
  have hps := handedOut_perm hsecond
  refine ⟨mem, handedOut first, handedOut second, hmem, hlen, ?_, (bufFrames_once size).perm hpf, ?_,
    hps.trans hpf.symm⟩
  · rw [yields, hpt, hlist, handedOut, List.flatMap_append]
    rfl
  · rw [hpf.length_eq, List.length_map, bufFrames, List.length_range']

omit [Rng R] in
/-- What `n` calls hand out when the second half of the frames repeats the first. -/
theorem allocPtPages_once_iff {mem : DummyMemory R} {first second : List PageInfo} {bufLen n : Nat}
    (hy : mem.yields = first ++ second) (hfirst : Once bufLen first) (hsecond : second.Perm first)
    {pages : List PageInfo} {mem' : DummyMemory R} (hrun : mem.allocPtPages n = some (pages, mem')) :
    Once bufLen pages ↔ n ≤ first.length := by
  have heq := mem.allocPtPages_eq n
  rw [hrun, hy] at heq
  split at heq
  · rename_i hle
    obtain rfl : pages = _ := Option.some.inj heq
    exact once_take_iff hfirst hsecond hle
  · cases heq

/-- There are frames for `2 * (size / 4096)` calls, and those of a run are apart when it has at
    most half as many calls. They all are only when the buffer has no frame. -/
theorem frames_once_iff (size : Nat) (rng : R) :
    ∃ mem : DummyMemory R, withRng size rng = some mem ∧ mem.bufLen = size ∧
      (∀ n, (mem.allocPtPages n).isSome ↔ n ≤ 2 * (size / 0x1000)) ∧
      (∀ n pages mem', mem.allocPtPages n = some (pages, mem') → (Once mem.bufLen pages ↔ n ≤ size / 0x1000)) ∧
      ((∀ n pages mem', mem.allocPtPages n = some (pages, mem') → Once mem.bufLen pages) ↔ size < 0x1000) := by
  obtain ⟨mem, first, second, hmem, hlen, hy, hfirst, hcount, hsecond⟩ := withRng_yields size rng
  have hsome : ∀ n, (mem.allocPtPages n).isSome ↔ n ≤ 2 * (size / 0x1000) := by
    intro n
    rw [← Option.isSome_map (f := Prod.fst), mem.allocPtPages_eq, hy, List.length_append, hsecond.length_eq, hcount,
      ← Nat.two_mul]
    split
    · exact iff_of_true rfl ‹_›
    · exact iff_of_false nofun ‹_›
  have hruns : ∀ n pages mem', mem.allocPtPages n = some (pages, mem') →
      (Once mem.bufLen pages ↔ n ≤ size / 0x1000) := fun n pages mem' hrun => by
    rw [hlen, ← hcount]
    exact allocPtPages_once_iff hy hfirst hsecond hrun
  refine ⟨mem, hmem, hlen, hsome, hruns, fun hall => ?_, fun hsize n pages mem' hrun => ?_⟩
  · -- the run that takes all frames
    obtain ⟨⟨pages, mem'⟩, hrun⟩ := Option.isSome_iff_exists.mp ((hsome _).mpr (Nat.le_refl _))
    have := (hruns _ _ _ hrun).mp (hall _ _ _ hrun)
    omega
  · have hn := (hsome n).mp (Option.isSome_of_eq_some hrun)
    exact (hruns n pages mem' hrun).mpr (by omega)

/-- No page is split at random and no list is shuffled. -/
instance : Rng Unit where
  genBool rng := (false, rng)
  shuffle rng l := (l, rng)
  shuffle_perm _ l := .refl l

/-- The one frame of a 4 KB buffer is handed out twice. -/
theorem only_frame_twice :
    ¬ ∀ (mem : DummyMemory Unit), withRng 0x1000 () = some mem →
      ∀ n pages mem', mem.allocPtPages n = some (pages, mem') → Once mem.bufLen pages := by
  intro hall
  obtain ⟨mem, first, second, hmem, hlen, hy, hfirst, hcount, hsecond⟩ := withRng_yields 0x1000 ()
  have hrun := mem.allocPtPages_eq 2
  rw [hy, List.length_append, hsecond.length_eq, hcount, if_pos (by decide)] at hrun
  obtain ⟨⟨pages, mem'⟩, hrun, -⟩ := Option.map_eq_some_iff.mp hrun
  have hle := (allocPtPages_once_iff hy hfirst hsecond hrun).mp (hlen ▸ hall mem hmem 2 pages mem' hrun)
  rw [hcount] at hle
  exact absurd hle (by decide)

end DummyMemory

end Jiaa
