/-
  Jiaa.Mem.MapOrder — the orders in which disjoint regions can be pushed
  (memflow `mem/mem_map.rs`: `push`).

  The test for overlap takes the end of the new region as a part of it, and a region
  below all others is inserted at the end. So of disjoint regions, one that ends where a
  region held starts is refused, and one pushed below all others leaves the map unsorted.

  - `push_sorted_iff`: one push into a sorted map keeps it sorted exactly when the region
    is `Placeable`;
  - `pushAll_sorted_iff`: the orders of pushing that leave the map sorted.
-/

import Jiaa.Mem.MapPush

namespace Jiaa

variable {M : Type*} [SplitAtIndex M]

open MemoryMapping

namespace MemoryMap

def Sorted (map : MemoryMap M) : Prop := map.mappings.Pairwise fun m r => m.base < r.base

/-- Non-empty, pairwise disjoint regions of the address space. -/
structure Regions (rs : List (MemoryMapping M)) : Prop where
  nonempty : ∀ r ∈ rs, r.base < r.finish
  bounded : ∀ r ∈ rs, r.finish ≤ 2 ^ 64
  apart : rs.Pairwise Apart

/-- After the regions of `pre`, `r` is put where it belongs: one of them lies below it,
    none starts where it ends, none ends at the top of the address space, and `r` does not
    end there itself with a region at zero alone before it. -/
def Placeable (pre : List (MemoryMapping M)) (r : MemoryMapping M) : Prop :=
  (pre ≠ [] → ∃ m ∈ pre, m.base < r.base) ∧ (∀ m ∈ pre, m.base ≠ r.finish) ∧ (∀ m ∈ pre, m.finish < 2 ^ 64) ∧
    ¬ (r.finish = 2 ^ 64 ∧ pre.map (·.base) = [0])

instance (pre : List (MemoryMapping M)) (r : MemoryMapping M) : Decidable (Placeable pre r) := by
  unfold Placeable
  haveI : Decidable (pre ≠ []) := match pre with
    | [] => .isFalse fun h => h rfl
    | _ :: _ => .isTrue nofun
  infer_instance

theorem Regions.perm {rs rs' : List (MemoryMapping M)} (h : Regions rs) (hp : rs.Perm rs') : Regions rs' where
  nonempty r hr := h.nonempty r (hp.symm.subset hr)
  bounded r hr := h.bounded r (hp.symm.subset hr)
  apart := (hp.pairwise_iff fun {_ _} h a h1 h2 => h a h2 h1).mp h.apart

/-- Of two disjoint regions one lies behind the other. -/
theorem Regions.le {r : MemoryMapping M} {rs : List (MemoryMapping M)} (h : Regions (r :: rs)) {m : MemoryMapping M}
    (hm : m ∈ rs) : r.finish ≤ m.base ∨ m.finish ≤ r.base :=
  ((List.pairwise_cons.mp h.apart).1 m hm).le (h.nonempty r (List.mem_cons_self ..))
    (h.nonempty m (List.mem_cons_of_mem _ hm))

theorem Regions.ordered {rs : List (MemoryMapping M)} (h : Regions rs)
    (hs : rs.Pairwise fun m r => m.base < r.base) : rs.Pairwise fun m r => m.finish ≤ r.base :=
  (hs.and h.apart).imp_of_mem fun {m r} hm hr ⟨h1, h2⟩ => by
    have := h2.le (h.nonempty m hm) (h.nonempty r hr)
    have := h.nonempty r hr
    omega

/-- The order of a map in which a region was put is that of the map before. -/
theorem Sorted.of_push {map map' : MemoryMap M} {r : MemoryMapping M} (h : map'.Sorted)
    (hp : map.push r.base r.output = some map') : map.Sorted := List.Pairwise.sublist (push_sublist hp) h

theorem placeable_of_push {map map' : MemoryMap M} {r : MemoryMapping M} (hreg : Regions (r :: map.mappings))
    (hp : map.push r.base r.output = some map') (hs : map'.Sorted) : Placeable map.mappings r := by
  obtain ⟨below, above, he, habove, hbelow⟩ := push_some hp
  have hr := hreg.nonempty r (List.mem_cons_self ..)
  have hr' := hreg.bounded r (List.mem_cons_self ..)
  -- what lies below the insertion point starts before the region
  have hlow : ∀ m ∈ below, m.base < r.base := by
    intro m hm
    rcases hbelow with ⟨rfl, -⟩ | ⟨rest, x, rfl, -, -, h1⟩
    · cases hm
    · unfold Sorted at hs
      rw [h1] at hs
      exact (List.pairwise_append.mp hs).2.2 m hm r (List.mem_cons_self ..)
  have hbound : ∀ m ∈ map.mappings, m.finish < 2 ^ 64 := by
    intro m hm
    have h1 := hreg.bounded m (List.mem_cons_of_mem _ hm)
    by_contra hn
    have hle := hreg.le hm
    have hstop : m.stop = 0 := stop_top (by omega)
    rw [he, List.mem_append] at hm
    rcases hm with hm | hm
    · have := hlow m hm
      omega
    · have := (habove m hm).2
      omega
  refine ⟨fun hne => ?_, fun m hm heq => ?_, hbound, ?_⟩
  · rcases hbelow with ⟨rfl, h1⟩ | ⟨rest, x, rfl, -, -, -⟩
    · rw [he, List.nil_append] at hne ⊢
      obtain ⟨m, hm⟩ := List.exists_mem_of_ne_nil _ hne
      unfold Sorted at hs
      rw [h1] at hs
      exact ⟨m, hm, (List.pairwise_append.mp hs).2.2 m hm r (List.mem_singleton_self r)⟩
    · exact ⟨x, by rw [he]; simp, hlow x (by simp)⟩
  · have hm' := hm
    have hm2 := hreg.nonempty m (List.mem_cons_of_mem _ hm)
    rw [he, List.mem_append] at hm
    rcases hm with hm | hm
    · have := hlow m hm
      omega
    · refine (habove m hm).1 (Or.inr ?_)
      rw [stop_eq (hbound m hm'), stop_eq (by have := hbound m hm'; omega)]
      omega
  · intro ⟨htop, hone⟩
    obtain ⟨m, hpre, h0⟩ := List.map_eq_singleton_iff.mp hone
    have hm : m ∈ map.mappings := by rw [hpre]; exact List.mem_singleton_self m
    have hm2 := hreg.nonempty m (List.mem_cons_of_mem _ hm)
    have hhit : Hits r.base r.stop m := by
      refine Or.inr ?_
      rw [stop_top htop, stop_eq (hbound m hm)]
      omega
    rcases hbelow with ⟨rfl, -⟩ | ⟨rest, x, rfl, hn, -, -⟩
    · rw [he, List.nil_append] at hm
      exact (habove m hm).1 hhit
    · rw [hpre] at he
      have : x = m := by
        have := congrArg List.length he
        simp only [List.length_append, List.length_cons, List.length_nil] at this
        have hr0 : rest = [] := List.eq_nil_of_length_eq_zero (by omega)
        rw [hr0] at he
        simpa using (List.cons.inj he).1.symm
      exact hn (this ▸ hhit)

/-- A region at the top of the address space goes last. -/
theorem push_top {map : MemoryMap M} {r : MemoryMapping M} (hs : map.Sorted) (hreg : Regions (r :: map.mappings))
    (hp : Placeable map.mappings r) (htop : r.finish = 2 ^ 64) :
    map.push r.base r.output = some ⟨map.mappings ++ [r]⟩ := by
  have hstop : Address.add r.base (SplitAtIndex.length r.output) = 0 := stop_top htop
  unfold push
  rw [hstop]
  rcases List.eq_nil_or_concat map.mappings with hnil | ⟨init, last, hl⟩
  · rw [hnil]
    rfl
  · rw [List.concat_eq_append] at hl
    have hm : last ∈ map.mappings := by rw [hl]; simp
    have hle := hreg.le hm
    have hb := hp.2.2.1 last hm
    have hne := hreg.nonempty last (List.mem_cons_of_mem _ hm)
    have h0 : last.base ≠ 0 := by
      intro h0
      refine hp.2.2.2 ⟨htop, ?_⟩
      unfold Sorted at hs
      rw [hl] at hs ⊢
      rcases List.eq_nil_or_concat init with rfl | ⟨init, x, rfl⟩
      · rw [List.nil_append, List.map_singleton, h0]
      · have := (List.pairwise_append.mp hs).2.2 x (by simp) last (List.mem_singleton_self _)
        omega
    have hlast : ¬ ((last.base ≤ r.base ∧ r.base < last.stop) ∨ (last.base ≤ 0 ∧ 0 < last.stop)) := by
      rw [stop_eq hb]
      omega
    have hidx : init.reverse.length + 1 = map.mappings.length := by rw [hl]; simp
    rw [hl, List.reverse_append, List.reverse_singleton, List.singleton_append]
    simp only [shiftIdx]
    rw [if_neg hlast, if_pos (by rw [stop_eq hb]; omega), Option.map_some, hidx, ← hl, List.insertIdx_length_self]

/-- One push into a sorted map. -/
theorem push_sorted_iff {map : MemoryMap M} {r : MemoryMapping M} (hs : map.Sorted)
    (hreg : Regions (r :: map.mappings)) :
    (∃ map', map.push r.base r.output = some map' ∧ map'.Sorted) ↔ Placeable map.mappings r := by
  constructor
  · intro ⟨map', hp, hs'⟩
    exact placeable_of_push hreg hp hs'
  · intro hp
    obtain ⟨h1, h2, h3, -⟩ := id hp
    rcases Nat.lt_or_eq_of_le (hreg.bounded r (List.mem_cons_self ..)) with hlt | htop
    · have hsub : Regions map.mappings :=
        ⟨fun m hm => hreg.nonempty m (List.mem_cons_of_mem _ hm), fun m hm => hreg.bounded m (List.mem_cons_of_mem _ hm),
          (List.pairwise_cons.mp hreg.apart).2⟩
      have hplaced : map.Placed := ⟨hsub.ordered hs, h3⟩
      have hr := hreg.nonempty r (List.mem_cons_self ..)
      obtain ⟨map', hmap'⟩ : ∃ map', map.push r.base r.output = some map' := by
        cases hpush : map.push r.base r.output with
        | some map' => exact ⟨map', rfl⟩
        | none =>
          obtain ⟨m, hm, hh⟩ := (hplaced.push_none_iff hlt).mp hpush
          have hle := hreg.le hm
          have hne := h2 m hm
          unfold Holds at hh
          omega
      have hlow : map.mappings = [] ∨ ∃ m ∈ map.mappings, m.finish ≤ r.base := by
        by_cases hnil : map.mappings = []
        · exact Or.inl hnil
        · obtain ⟨m, hm, hlt'⟩ := h1 hnil
          have := hreg.le hm
          exact Or.inr ⟨m, hm, by omega⟩
      have hplaced' := hplaced.push hlt hlow (fun m hm hlt' => by
        have := hreg.le hm
        have := hreg.nonempty m (List.mem_cons_of_mem _ hm)
        omega) hmap'
      refine ⟨map', hmap', ?_⟩
      have hreg' := hreg.perm (push_perm hmap').symm
      exact hplaced'.ordered.imp_of_mem fun {m x} hm hx hle => by
        have := hreg'.nonempty m hm
        omega
    · refine ⟨_, push_top hs hreg hp htop, ?_⟩
      refine List.pairwise_append.mpr ⟨hs, List.pairwise_singleton .., fun m hm x hx => ?_⟩
      rw [List.mem_singleton.mp hx]
      have hle := hreg.le hm
      have := hreg.nonempty m (List.mem_cons_of_mem _ hm)
      have := h3 m hm
      omega

theorem Regions.of_append {rs rs' : List (MemoryMapping M)} (h : Regions (rs ++ rs')) : Regions rs' where
  nonempty r hr := h.nonempty r (List.mem_append_right _ hr)
  bounded r hr := h.bounded r (List.mem_append_right _ hr)
  apart := (List.pairwise_append.mp h.apart).2.1

theorem Placeable.perm {pre pre' : List (MemoryMapping M)} {r : MemoryMapping M} (h : Placeable pre r)
    (hp : pre.Perm pre') : Placeable pre' r := by
  obtain ⟨h1, h2, h3, h4⟩ := h
  refine ⟨fun hne => ?_, fun m hm => h2 m (hp.symm.subset hm), fun m hm => h3 m (hp.symm.subset hm), ?_⟩
  · obtain ⟨m, hm, hlt⟩ := h1 fun e => hne (List.perm_nil.mp (e ▸ hp.symm))
    exact ⟨m, hp.subset hm, hlt⟩
  · intro ⟨htop, hone⟩
    exact h4 ⟨htop, List.perm_singleton.mp (hone ▸ hp.map (·.base))⟩

/-- Pushing `rs` onto a sorted map, one push at a time. -/
theorem pushAll_some_iff : ∀ {rs : List (MemoryMapping M)} {map : MemoryMap M}, map.Sorted →
    Regions (map.mappings ++ rs) →
    ((∃ map', map.pushAll rs = some map' ∧ map'.Sorted) ↔
      ∀ pre r post, rs = pre ++ r :: post → Placeable (map.mappings ++ pre) r) := by
  intro rs
  induction rs with
  | nil => exact fun hs _ => ⟨fun _ pre r post he => by simp at he, fun _ => ⟨_, rfl, hs⟩⟩
  | cons r rs ih =>
    intro map hs hreg
    have hreg1 : Regions (r :: (map.mappings ++ rs)) := hreg.perm List.perm_middle
    have hreg2 : Regions (r :: map.mappings) :=
      (hreg1.perm (show (rs ++ r :: map.mappings).Perm (r :: map.mappings ++ rs) from List.perm_append_comm).symm).of_append
    constructor
    · intro ⟨map', hall, hs'⟩ pre r' post he
      obtain ⟨map1, hp, hall⟩ := Option.bind_eq_some_iff.mp hall
      -- the maps on the way are sorted, as the last one is
      have hsorted : ∀ (rs : List (MemoryMapping M)) (m : MemoryMap M), m.pushAll rs = some map' → m.Sorted := by
        intro rs
        induction rs with
        | nil => intro m hm; exact Option.some.inj hm ▸ hs'
        | cons x rs ihs =>
          intro m hm
          obtain ⟨m1, h1, h2⟩ := Option.bind_eq_some_iff.mp hm
          exact (ihs m1 h2).of_push h1
      have hs1 := hsorted rs map1 hall
      have hperm := push_perm hp
      have hreg3 : Regions (map1.mappings ++ rs) := hreg1.perm (hperm.symm.append_right rs)
      cases pre with
      | nil =>
        obtain ⟨rfl, rfl⟩ := List.cons.inj he
        rw [List.append_nil]
        exact (push_sorted_iff hs hreg2).mp ⟨map1, hp, hs1⟩
      | cons x pre =>
        obtain ⟨rfl, rfl⟩ := List.cons.inj he
        exact ((ih hs1 hreg3).mp ⟨map', hall, hs'⟩ pre r' post rfl).perm
          ((hperm.append_right pre).trans List.perm_middle.symm)
    · intro hpl
      obtain ⟨map1, hp, hs1⟩ := (push_sorted_iff hs hreg2).mpr (by simpa using hpl [] r rs rfl)
      have hperm := push_perm hp
      obtain ⟨map', hall, hs'⟩ := (ih hs1 (hreg1.perm (hperm.symm.append_right rs))).mpr fun pre r' post he =>
        (hpl (r :: pre) r' post (by rw [he]; rfl)).perm (List.perm_middle.trans (hperm.symm.append_right pre))
      exact ⟨map', by simp only [pushAll, hp, Option.bind_some, hall], hs'⟩

theorem pushAll_perm : ∀ {rs : List (MemoryMapping M)} {map map' : MemoryMap M}, map.pushAll rs = some map' →
    map'.mappings.Perm (map.mappings ++ rs) := by
  intro rs
  induction rs with
  | nil =>
    intro map map' h
    rw [← Option.some.inj h, List.append_nil]
  | cons r rs ih =>
    intro map map' h
    obtain ⟨map1, hp, h⟩ := Option.bind_eq_some_iff.mp h
    exact (ih h).trans (((push_perm hp).append_right rs).trans List.perm_middle.symm)

/-- The regions in ascending order, pushed one after the other, are the map. -/
theorem pushAll_ascending {asc : List (MemoryMapping M)} (hreg : Regions asc)
    (hs : asc.Pairwise fun m r => m.base < r.base)
    (htwo : ¬ ∃ m r, asc = [m, r] ∧ m.base = 0 ∧ r.finish = 2 ^ 64) : new.pushAll asc = some ⟨asc⟩ := by
  obtain ⟨map', hall, hs'⟩ := (pushAll_some_iff (show (new : MemoryMap M).Sorted from List.Pairwise.nil)
    (by simpa [new] using hreg)).mpr
    fun pre r post he => by
      rw [show (new : MemoryMap M).mappings ++ pre = pre from rfl]
      have hord := hreg.ordered hs
      rw [he] at hord hs
      have hbefore := (List.pairwise_append.mp hs).2.2
      have hlt : ∀ m ∈ pre, m.base < r.base := fun m hm => hbefore m hm r (List.mem_cons_self ..)
      have hle : ∀ m ∈ pre, m.finish ≤ r.base := fun m hm =>
        (List.pairwise_append.mp hord).2.2 m hm r (List.mem_cons_self ..)
      have hr : r.base < r.finish := hreg.nonempty r (by rw [he]; simp)
      have hr' : r.finish ≤ 2 ^ 64 := hreg.bounded r (by rw [he]; simp)
      refine ⟨fun hne => ?_, fun m hm => ?_, fun m hm => ?_, ?_⟩
      · obtain ⟨m, hm⟩ := List.exists_mem_of_ne_nil _ hne
        exact ⟨m, hm, hlt m hm⟩
      · have := hlt m hm
        omega
      · have := hle m hm
        omega
      · intro ⟨htop, hone⟩
        obtain ⟨m, rfl, h0⟩ := List.map_eq_singleton_iff.mp hone
        cases post with
        | nil => exact htwo ⟨m, r, he, h0, htop⟩
        | cons x post =>
          have hx : x ∈ asc := by rw [he]; simp
          have h1 := hreg.nonempty x hx
          have h2 := hreg.bounded x hx
          have h3 := (List.pairwise_cons.mp (List.pairwise_append.mp hord).2.1).1 x (List.mem_cons_self ..)
          omega
  have hperm := pushAll_perm hall
  have heq : map'.mappings = asc :=
    hperm.eq_of_pairwise (fun a b _ _ h1 h2 => absurd h1 (Nat.lt_asymm h2)) hs' hs
  rw [hall, ← heq]

/-- Pushed in the order of `rs`, the regions make a sorted map, which answers as the map
    of the ascending order `asc` does, exactly when each region is pushed where the scan
    can place it. -/
theorem pushAll_sorted_iff {T : Type*} [SplitAtIndex T] (rs asc : List (MemoryMapping M)) (hreg : Regions rs)
    (hasc : asc.Perm rs) (hs : asc.Pairwise fun m r => m.base < r.base) :
    (∃ map, new.pushAll rs = some map ∧ map.Sorted ∧
      (∀ iter : List (PhysicalAddress × T), some (map.mapIter iter) = (new.pushAll asc).map fun m => m.mapIter iter) ∧
      ∀ addr (buf : T), some (map.map addr buf) = (new.pushAll asc).map fun m => m.map addr buf) ↔
    ∀ i (h : i < rs.length), Placeable (rs.take i) rs[i] := by
  have hiff := pushAll_some_iff (show (new : MemoryMap M).Sorted from List.Pairwise.nil)
    (show Regions ((new : MemoryMap M).mappings ++ rs) by simpa [new] using hreg)
  constructor
  · rintro ⟨map, hall, hsorted, -⟩ i hi
    exact hiff.mp ⟨map, hall, hsorted⟩ (rs.take i) rs[i] (rs.drop (i + 1))
      (by rw [← List.drop_eq_getElem_cons hi, List.take_append_drop])
  · intro hpl
    have hpl' : ∀ pre r post, rs = pre ++ r :: post → Placeable pre r := by
      intro pre r post he
      have := hpl pre.length (by rw [he]; simp)
      simpa [he] using this
    obtain ⟨map, hall, hsorted⟩ := hiff.mpr fun pre r post he => hpl' pre r post he
    have hperm : map.mappings.Perm asc := (pushAll_perm hall).trans hasc.symm
    have heq : map.mappings = asc :=
      hperm.eq_of_pairwise (fun a b _ _ h1 h2 => absurd h1 (Nat.lt_asymm h2)) hsorted hs
    have hasc' : new.pushAll asc = some map := by
      rw [pushAll_ascending (hreg.perm hasc.symm) hs, ← heq]
      -- a region at zero and one at the top: neither can be pushed after the other
      intro ⟨m, r, htwo, h0, htop⟩
      rw [htwo] at hasc hs
      obtain ⟨x, y, rfl⟩ := List.length_eq_two.mp hasc.length_eq.symm
      have hy := hpl' [x] y [] rfl
      rcases List.mem_pair.mp (hasc.subset (List.mem_cons_self ..)) with rfl | rfl
      · rcases List.mem_pair.mp (hasc.subset (List.mem_cons_of_mem _ (List.mem_singleton_self r))) with rfl | rfl
        · simp at hs
        · exact hy.2.2.2 ⟨htop, by simp [h0]⟩
      · rcases List.mem_pair.mp (hasc.subset (List.mem_cons_of_mem _ (List.mem_singleton_self r))) with rfl | rfl
        · have := hy.2.2.1 r (List.mem_singleton_self r)
          omega
        · simp at hs
    exact ⟨map, hall, hsorted, fun iter => by rw [hasc']; rfl, fun addr buf => by rw [hasc']; rfl⟩

/-- Three regions, the one in the middle pushed last. -/
theorem pushAll_sorted_middleLast :
    ∃ map, new.pushAll [⟨0x1000, (0, 0x1000)⟩, ⟨0x3000, (0x1000, 0x1000)⟩, ⟨0x2000, (0x2000, 0x800)⟩] = some map ∧
      map.Sorted := by
  have h : Regions [(⟨0x1000, (0, 0x1000)⟩ : MemoryMapping (Nat × Nat)), ⟨0x3000, (0x1000, 0x1000)⟩,
      ⟨0x2000, (0x2000, 0x800)⟩] := by
    refine ⟨by decide, by decide, ?_⟩
    have : [(⟨0x1000, (0, 0x1000)⟩ : MemoryMapping (Nat × Nat)), ⟨0x3000, (0x1000, 0x1000)⟩,
        ⟨0x2000, (0x2000, 0x800)⟩].Pairwise fun m r => m.finish ≤ r.base ∨ r.finish ≤ m.base := by decide
    exact this.imp apart_of_le
  obtain ⟨map, hall, hs, -⟩ := (pushAll_sorted_iff (T := Nat) _
    [⟨0x1000, (0, 0x1000)⟩, ⟨0x2000, (0x2000, 0x800)⟩, ⟨0x3000, (0x1000, 0x1000)⟩] h (by decide) (by decide)).mpr
    (by decide +kernel)
  exact ⟨map, hall, hs⟩

/-- In descending order a region that touches the one above it is refused, and one that
    does not is put behind it. -/
theorem descending_not_sorted :
    ((⟨0x2000, (0, 0x1000)⟩ : MemoryMapping (Nat × Nat)).Apart ⟨0x1000, (0x1000, 0x1000)⟩ ∧
      new.pushAll [(⟨0x2000, (0, 0x1000)⟩ : MemoryMapping (Nat × Nat)), ⟨0x1000, (0x1000, 0x1000)⟩] = none) ∧
    (⟨0x3000, (0, 0x1000)⟩ : MemoryMapping (Nat × Nat)).Apart ⟨0x1000, (0x1000, 0x1000)⟩ ∧
      ∃ map, new.pushAll [(⟨0x3000, (0, 0x1000)⟩ : MemoryMapping (Nat × Nat)), ⟨0x1000, (0x1000, 0x1000)⟩] = some map ∧
        ¬ map.Sorted := by
  refine ⟨⟨apart_of_le (by decide), by decide +kernel⟩, apart_of_le (by decide), ?_⟩
  exact ⟨⟨[⟨0x3000, (0, 0x1000)⟩, ⟨0x1000, (0x1000, 0x1000)⟩]⟩, by decide +kernel, by unfold Sorted; decide⟩

end MemoryMap

end Jiaa
