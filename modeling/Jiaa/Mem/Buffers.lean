/-
  Jiaa.Mem.Buffers — the buffers of a list of reads as slices of one heap.

  A backend cuts the buffers it is given into slices and copies bytes into them. The
  `i`th buffer of a list is the whole of the heap's buffer `i`; what a copy leaves is read
  back from the heap.

  - `putAll_mem`, `putAll_of_not_mem`: what a list of stores to different bytes leaves;
  - `bufsOf_putAll`: the buffers after every byte that has an answer was given it.
-/

import Jiaa.Mem.PhysMem
import Mathlib.Data.List.Nodup

namespace Jiaa

/-- Bytes stored one after the other. -/
def putAll (heap : Loc → UInt8) (l : List (UInt8 × Loc)) : Loc → UInt8 :=
  l.foldl (fun heap y => Function.update heap y.2 y.1) heap

/-- `copy_from_slice`. -/
def copyFromSlice (heap : Loc → UInt8) (s : SliceMut) (l : List UInt8) : Loc → UInt8 := putAll heap (l.zip s.locs)

/-- Slices given new bytes, one after the other. -/
def copyAll (heap : Loc → UInt8) (l : List (SliceMut × List UInt8)) : Loc → UInt8 :=
  l.foldl (fun heap p => copyFromSlice heap p.1 p.2) heap

variable {A : Type*}

def slices (data : List (A × List UInt8)) : List (A × SliceMut) :=
  data.zipIdx.map fun d => (d.1.1, ⟨d.2, 0, d.1.2.length⟩)

def heapOf (data : List (A × List UInt8)) : Loc → UInt8 := fun l =>
  ((data[l.1]?.map (·.2)).getD [])[l.2]?.getD 0

def bufsOf (data : List (A × List UInt8)) (heap : Loc → UInt8) : List (List UInt8) :=
  (slices data).map fun s => s.2.locs.map heap

/-! ## Stores -/

theorem putAll_append (heap : Loc → UInt8) (l k : List (UInt8 × Loc)) :
    putAll heap (l ++ k) = putAll (putAll heap l) k := List.foldl_append

theorem putAll_of_not_mem : ∀ {l : List (UInt8 × Loc)} {heap : Loc → UInt8} {x : Loc}, x ∉ l.map (·.2) →
    putAll heap l x = heap x := by
  intro l
  induction l with
  | nil => intro heap x _; rfl
  | cons y l ih =>
    intro heap x hx
    rw [List.map_cons, List.mem_cons, not_or] at hx
    show putAll (Function.update heap y.2 y.1) l x = _
    rw [ih hx.2, Function.update_of_ne hx.1]

/-- Of stores to different bytes each is left. -/
theorem putAll_mem : ∀ {l : List (UInt8 × Loc)} {heap : Loc → UInt8} {v : UInt8} {x : Loc}, (l.map (·.2)).Nodup →
    (v, x) ∈ l → putAll heap l x = v := by
  intro l
  induction l with
  | nil => intro heap v x _ h; cases h
  | cons y l ih =>
    intro heap v x hn h
    rw [List.map_cons, List.nodup_cons] at hn
    show putAll (Function.update heap y.2 y.1) l x = _
    rcases List.mem_cons.mp h with rfl | h
    · rw [putAll_of_not_mem hn.1, Function.update_self]
    · exact ih hn.2 h

theorem locs_eq (s : SliceMut) : s.locs = (List.range s.len).map fun j => (s.buf, s.off + j) := by
  unfold SliceMut.locs
  rw [List.range'_eq_map_range, List.map_map]
  rfl

theorem locs_nodup (s : SliceMut) : s.locs.Nodup :=
  List.Nodup.map (fun _ _ h => (Prod.mk.inj h).2) List.nodup_range'

/-- The bytes of a copy. -/
theorem copyFromSlice_mem (heap : Loc → UInt8) (s : SliceMut) {l : List UInt8} (hl : l.length = s.len) {k : Nat}
    (hk : k < s.len) : copyFromSlice heap s l (s.buf, s.off + k) = l[k] := by
  have hmap : (l.zip s.locs).map (·.2) = s.locs := List.map_snd_zip (by rw [SliceMut.length_locs, hl])
  refine putAll_mem (by rw [hmap]; exact locs_nodup s) ?_
  refine List.mem_iff_getElem?.mpr ⟨k, ?_⟩
  rw [List.zip, List.getElem?_zipWith, locs_eq, List.getElem?_map, List.getElem?_range hk,
    List.getElem?_eq_getElem (by omega)]
  rfl

theorem copyFromSlice_other (heap : Loc → UInt8) (s : SliceMut) (l : List UInt8) {x : Loc} (hx : x ∉ s.locs) :
    copyFromSlice heap s l x = heap x := by
  refine putAll_of_not_mem fun h => ?_
  obtain ⟨⟨v, y⟩, hy, rfl⟩ := List.mem_map.mp h
  exact hx (List.of_mem_zip hy).2

/-! ## Slices of different buffers -/

theorem getElem?_slices (data : List (A × List UInt8)) (i : Nat) :
    (slices data)[i]? = data[i]?.map fun d => (d.1, ⟨i, 0, d.2.length⟩) := by
  unfold slices
  rw [List.getElem?_map, List.getElem?_zipIdx, Option.map_map]
  simp [Function.comp_def]

@[simp] theorem length_slices (data : List (A × List UInt8)) : (slices data).length = data.length := by
  simp [slices]

/-- No byte belongs to two of the buffers. -/
theorem slices_nodup (data : List (A × List UInt8)) :
    ((slices data).flatMap fun s => s.2.locs).Nodup := by
  refine List.nodup_flatMap.mpr ⟨fun s _ => ?_, ?_⟩
  · exact locs_nodup s.2
  · refine List.pairwise_iff_getElem.mpr fun i j hi hj hij => ?_
    have h1 := getElem?_slices data i
    have h2 := getElem?_slices data j
    rw [List.getElem?_eq_getElem hi] at h1
    rw [List.getElem?_eq_getElem hj] at h2
    obtain ⟨d, -, hd⟩ := Option.map_eq_some_iff.mp h1.symm
    obtain ⟨e, -, he⟩ := Option.map_eq_some_iff.mp h2.symm
    rw [← hd, ← he]
    intro x hx hx'
    have h3 := (SliceMut.mem_locs.mp hx).1
    have h4 := (SliceMut.mem_locs.mp hx').1
    simp only at h3 h4
    omega

theorem getElem?_bufsOf (data : List (A × List UInt8)) (heap : Loc → UInt8) (i : Nat) :
    (bufsOf data heap)[i]? = data[i]?.map fun d => (List.range d.2.length).map fun j => heap (i, j) := by
  unfold bufsOf
  rw [List.getElem?_map, getElem?_slices, Option.map_map]
  congr 1
  funext d
  simp only [Function.comp_apply, locs_eq, List.map_map]
  refine List.map_congr_left fun j _ => ?_
  simp

theorem map_length_bufsOf (data : List (A × List UInt8)) (heap : Loc → UInt8) :
    (bufsOf data heap).map List.length = data.map fun d => d.2.length := by
  apply List.ext_getElem?
  intro i
  rw [List.getElem?_map, getElem?_bufsOf, List.getElem?_map, Option.map_map]
  congr 1
  funext d
  simp

/-- The byte at `j` of the buffer `d`. -/
theorem heapOf_eq {data : List (A × List UInt8)} {i : Nat} {d : A × List UInt8}
    (h : data[i]? = some d) (j : Nat) : heapOf data (i, j) = d.2[j]?.getD 0 := by
  simp [heapOf, h]

theorem bufsOf_heapOf (data : List (A × List UInt8)) : bufsOf data (heapOf data) = data.map (·.2) := by
  apply List.ext_getElem?
  intro i
  rw [getElem?_bufsOf, List.getElem?_map]
  cases h : data[i]? with
  | none => rfl
  | some d =>
    simp only [Option.map_some, Option.some.injEq]
    apply List.ext_getElem?
    intro j
    rw [List.getElem?_map]
    by_cases hj : j < d.2.length
    · rw [List.getElem?_range hj, Option.map_some, heapOf_eq h, List.getElem?_eq_getElem hj, Option.getD_some]
    · rw [List.getElem?_eq_none (by simp; omega), List.getElem?_eq_none (by omega)]
      rfl

/-- The stores that give every byte its answer, where it has one. -/
def answers (g : Nat → Option UInt8) (s : PhysicalAddress × SliceMut) : List (UInt8 × Loc) :=
  (s.2.locs.zipIdx s.1.address).filterMap fun x => (g x.2).map fun v => (v, x.1)

theorem answers_sublist (g : Nat → Option UInt8) (s : PhysicalAddress × SliceMut) :
    ((answers g s).map (·.2)).Sublist s.2.locs := by
  have key : ∀ (l : List Loc) (a : Nat),
      (((l.zipIdx a).filterMap fun x => (g x.2).map fun v => (v, x.1)).map (·.2)).Sublist l := by
    intro l
    induction l with
    | nil => intro a; simp
    | cons x l ih =>
      intro a
      rw [List.zipIdx_cons]
      cases hg : g a with
      | none =>
        rw [List.filterMap_cons_none (by simp [hg])]
        exact (ih (a + 1)).cons x
      | some v =>
        rw [List.filterMap_cons_some (b := (v, x)) (by simp [hg]), List.map_cons]
        exact (ih (a + 1)).cons_cons x
  exact key _ _

theorem mem_answers {g : Nat → Option UInt8} {s : PhysicalAddress × SliceMut} {v : UInt8} {x : Loc} :
    (v, x) ∈ answers g s ↔ ∃ j < s.2.len, x = (s.2.buf, s.2.off + j) ∧ g (s.1.address + j) = some v := by
  unfold answers
  rw [List.mem_filterMap]
  constructor
  · intro ⟨⟨l, a⟩, hm, hv⟩
    obtain ⟨w, hw, he⟩ := Option.map_eq_some_iff.mp hv
    obtain ⟨h1, h2⟩ := List.mk_mem_zipIdx_iff_le_and_getElem?_sub.mp hm
    rw [locs_eq, List.getElem?_map] at h2
    obtain ⟨j, hj, hl⟩ := Option.map_eq_some_iff.mp h2
    obtain ⟨hlt, hje⟩ := List.getElem?_eq_some_iff.mp hj
    rw [List.getElem_range] at hje
    rw [List.length_range] at hlt
    obtain ⟨rfl, rfl⟩ := Prod.mk.inj he
    subst hje
    exact ⟨a - s.1.address, hlt, hl.symm, by simp only at hw; rw [← hw]; congr 1; omega⟩
  · rintro ⟨j, hj, rfl, hg⟩
    refine ⟨((s.2.buf, s.2.off + j), s.1.address + j), List.mk_mem_zipIdx_iff_le_and_getElem?_sub.mpr
      ⟨Nat.le_add_right _ _, ?_⟩, by simp [hg]⟩
    rw [Nat.add_sub_cancel_left, locs_eq, List.getElem?_map, List.getElem?_range hj]
    rfl

/-- Every byte with an answer holds it, the others what they held. -/
theorem bufsOf_putAll (data : List (PhysicalAddress × List UInt8)) (g : Nat → Option UInt8) :
    bufsOf data (putAll (heapOf data) ((slices data).flatMap (answers g))) =
      data.map fun d => d.2.mapIdx fun j b => (g (d.1.address + j)).getD b := by
  have hnodup : (((slices data).flatMap (answers g)).map (·.2)).Nodup := by
    rw [List.map_flatMap]
    refine List.Nodup.sublist ?_ (slices_nodup data)
    induction slices data with
    | nil => exact List.Sublist.refl _
    | cons s l ih =>
      rw [List.flatMap_cons, List.flatMap_cons]
      exact (answers_sublist g s).append ih
  apply List.ext_getElem?
  intro i
  rw [getElem?_bufsOf, List.getElem?_map]
  cases h : data[i]? with
  | none => rfl
  | some d =>
    have hs : (d.1, (⟨i, 0, d.2.length⟩ : SliceMut)) ∈ slices data :=
      List.mem_of_getElem? (by rw [getElem?_slices, h]; rfl)
    simp only [Option.map_some, Option.some.injEq]
    apply List.ext_getElem?
    intro j
    rw [List.getElem?_map, List.getElem?_mapIdx]
    by_cases hj : j < d.2.length
    · rw [List.getElem?_range hj, Option.map_some, List.getElem?_eq_getElem hj, Option.map_some, Option.some.injEq]
      cases hg : g (d.1.address + j) with
      | some v =>
        rw [Option.getD_some]
        exact putAll_mem hnodup (List.mem_flatMap.mpr ⟨_, hs, mem_answers.mpr ⟨j, hj, by simp, hg⟩⟩)
      | none =>
        rw [Option.getD_none, putAll_of_not_mem, heapOf_eq h, List.getElem?_eq_getElem hj, Option.getD_some]
        intro hm
        obtain ⟨⟨v, x⟩, hm, rfl⟩ := List.mem_map.mp hm
        obtain ⟨s, hs', hm⟩ := List.mem_flatMap.mp hm
        obtain ⟨k, hk, he, hgk⟩ := mem_answers.mp hm
        obtain ⟨i', hi'⟩ := List.mem_iff_getElem?.mp hs'
        rw [getElem?_slices] at hi'
        obtain ⟨d', hd', rfl⟩ := Option.map_eq_some_iff.mp hi'
        simp only [Prod.mk.injEq, Nat.zero_add] at he
        obtain ⟨rfl, rfl⟩ := he
        rw [h] at hd'
        cases hd'
        rw [hg] at hgk
        cases hgk
    · rw [List.getElem?_eq_none (by simp; omega), List.getElem?_eq_none (by omega)]
      rfl

end Jiaa
