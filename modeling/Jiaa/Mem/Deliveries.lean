/-
  Jiaa.Mem.Deliveries — what a translator delivers
  (memflow `mem/virt_translate.rs`).

  A translation says of each address where it lies and the type of its page. A translator
  gives back parts of the buffers it is given, each with the physical address of its first
  byte or as failed; `Delivers` says that every byte of the requests comes back once, and
  each part as one of a class of translations has it. A part that is empty has the result
  of the address it is at.
-/

import Jiaa.Architecture.BatchWalk
import Jiaa.Mem.VirtTranslate

namespace Jiaa

open ArchMMUSpec (requestBytes failBytes)

/-! ## Translations -/

abbrev Translation := Nat → Option (Nat × PageType)

/-- Constant-offset on the pages of `s` bytes: all of a page with one page type, or nothing. -/
def Translation.PageWise (s : Nat) (f : Translation) : Prop :=
  ∀ p, (∀ v, v / s = p → f v = none) ∨
    ∃ base t, base % s = 0 ∧ base < 2 ^ 64 ∧ ∀ v, v / s = p → f v = some (base + v % s, t)

/-- A part of `len` bytes at `v`: its bytes, or its address if it has none. -/
def Translated (f : Translation) (v len : Nat) (p : PhysicalAddress) : Prop :=
  ∀ i ≤ len - 1, f ((v + i) % 2 ^ 64) = some (Address.add p.address i, p.pageType)

def Untranslated (f : Translation) (v len : Nat) : Prop := ∀ i ≤ len - 1, f ((v + i) % 2 ^ 64) = none

/-! ## Parts of buffers -/

section Parts

variable {T : Type*} [SplitAtIndex T]

/-- The two parts of a buffer cut anywhere. -/
def AnyCut (x : Nat × T) (cut : (Nat × T) × Option (Nat × T)) : Prop :=
  ∃ n, splitAt x n = cut ∨ splitInclusiveAt x n = cut

inductive IsPart (r : Nat × T) : Nat × T → Prop
  | whole : IsPart r r
  | left {x y : Nat × T} {z : Option (Nat × T)} : IsPart r x → AnyCut x (y, z) → IsPart r y
  | right {x y z : Nat × T} : IsPart r x → AnyCut x (y, some z) → IsPart r z

def IsPartOf (reqs : List (Nat × T)) (x : Nat × T) : Prop := ∃ r ∈ reqs, IsPart r x

theorem IsPart.trans {r x y : Nat × T} (h : IsPart r x) (h' : IsPart x y) : IsPart r y := by
  induction h' with
  | whole => exact h
  | left _ hc ih => exact .left ih hc
  | right _ hc ih => exact .right ih hc

theorem IsPartOf.trans {reqs : List (Nat × T)} {x y : Nat × T} (h : IsPartOf reqs x) (h' : IsPart x y) :
    IsPartOf reqs y := by
  obtain ⟨r, hr, hp⟩ := h
  exact ⟨r, hr, hp.trans h'⟩

theorem addr_lt_of_isPart {r x : Nat × T} (hr : r.1 < 2 ^ 64) (h : IsPart r x) : x.1 < 2 ^ 64 := by
  induction h with
  | whole => exact hr
  | left _ hc ih =>
    rcases hc with ⟨n, hc | hc⟩
    · cases hc; exact ih
    · cases hc; exact ih
  | right _ hc _ =>
    rcases hc with ⟨n, hc | hc⟩
    · obtain ⟨b, -, rfl⟩ := Option.map_eq_some_iff.mp (congrArg Prod.snd hc)
      exact Address.add_lt _ _
    · obtain ⟨b, -, rfl⟩ := Option.map_eq_some_iff.mp (congrArg Prod.snd hc)
      exact Address.add_lt _ _

/-- A cut of a buffer with an address of its own moves both addresses. -/
theorem anyCut_addressed {v : Nat} {x : Nat × T} {y : Nat × Nat × T} {z : Option (Nat × Nat × T)} (hv : v = x.1)
    (h : AnyCut (v, x) (y, z)) :
    ∃ y' z', AnyCut x (y', z') ∧ y = (y'.1, y') ∧ z = z'.map fun z' => (z'.1, z') := by
  subst hv
  rcases h with ⟨n, h | h⟩
  · refine ⟨(splitAt x n).1, (splitAt x n).2, ⟨n, Or.inl rfl⟩, (congrArg Prod.fst h).symm, (congrArg Prod.snd h).symm.trans ?_⟩
    show ((splitAt x n).2.map _) = _
    simp only [splitAt, Option.map_map]
    rfl
  · refine ⟨(splitInclusiveAt x n).1, (splitInclusiveAt x n).2, ⟨n, Or.inr rfl⟩, (congrArg Prod.fst h).symm,
      (congrArg Prod.snd h).symm.trans ?_⟩
    show ((splitInclusiveAt x n).2.map _) = _
    simp only [splitInclusiveAt, Option.map_map]
    rfl

/-- So both addresses of its parts are the same. -/
theorem isPart_addressed {v : Nat} {x : Nat × T} {y : Nat × Nat × T} (hv : v = x.1) (h : IsPart (v, x) y) :
    y.1 = y.2.1 ∧ IsPart x y.2 := by
  induction h with
  | whole => exact ⟨hv, .whole⟩
  | left _ hc ih =>
    obtain ⟨y', z', hc', rfl, -⟩ := anyCut_addressed ih.1 hc
    exact ⟨rfl, .left ih.2 hc'⟩
  | right _ hc ih =>
    obtain ⟨y', z', hc', -, hz⟩ := anyCut_addressed ih.1 hc
    obtain ⟨w, hw, rfl⟩ := Option.map_eq_some_iff.mp hz.symm
    rw [hw] at hc'
    exact ⟨rfl, .right ih.2 hc'⟩

end Parts

/-! ## Deliveries -/

section Deliveries

variable {T β : Type*} [SplitAtIndex T] [lawful : LawfulSplitAtIndex T β]

/-- Every byte of the requests is in one part of `o`, delivered or failed as one of the
    translations in `F` has it. -/
structure DeliversAt (F : Translation → Prop) (reqs : List (Nat × T)) (o : Outputs T)
    (ds : List (Nat × PhysicalAddress × T)) : Prop where
  out : o.out = ds.map (·.2)
  mapped : ∀ d ∈ ds, IsPartOf reqs (d.1, d.2.2) ∧ ∃ f, F f ∧ Translated f d.1 (SplitAtIndex.length d.2.2) d.2.1
  unmapped : ∀ x ∈ o.outFail, IsPartOf reqs x.2 ∧ ∃ f, F f ∧ Untranslated f x.2.1 (SplitAtIndex.length x.2.2)
  bytes : ((ds.flatMap fun d => at64 d.1 (bytes d.2.2)) ++ failBytes o.outFail).Perm (requestBytes (β := β) reqs)

def Delivers (F : Translation → Prop) (reqs : List (Nat × T)) (o : Outputs T) : Prop := ∃ ds, DeliversAt F reqs o ds

end Deliveries

/-! ## A translator that serves a translation -/

/-- From `vat` and `mem` on, every batch is delivered as `f` has it, with the page of each
    address. -/
def Serves {V M D : Type} [VirtualTranslate V] [PhysicalMemory M] [ScopedVirtualTranslate D] (f : Translation)
    (translator : D) (vat : V) (mem : M) : Prop :=
  ∃ P : V → M → Prop, P vat mem ∧ ∀ vat mem, P vat mem →
    ∀ {T β : Type} [SplitAtIndex T] [LawfulSplitAtIndex T β] (reqs : List (Nat × T)), (∀ r ∈ reqs, r.1 < 2 ^ 64) →
      ∃ vat' mem' o, VirtualTranslate.virtToPhysIter vat mem translator reqs = some (vat', mem', o) ∧
        P vat' mem' ∧ Delivers (· = f) reqs o ∧ ∀ x ∈ o.out, x.1.hasPage = true

end Jiaa
