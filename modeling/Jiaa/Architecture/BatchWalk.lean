/-
  Jiaa.Architecture.BatchWalk — where every byte of a batch is during the walk.

  At each step every byte of the batch is delivered, failed, or in one chunk. What is
  delivered is a list of deliveries, pieces with the entry that ended their walk; a byte
  fails because its own walk does, or because another page of the batch read an entry
  with the same value (`Shared`). A chunk is a page of the batch at its step and holds
  the entry of each of its bytes (`AtStep`); `Asking` is the same between the two halves
  of a round, with the address of the entry in its place.

  - `asking_of_atStep`, `atStep_of_asking`: the two halves of a round;
  - `accounts_walkLoop`: the run;
  - `virtToPhysIter_accounts`: for a batch without a straddle, over a memory that answers.
-/

import Jiaa.Architecture.FilterParts
import Jiaa.Architecture.Walk
import Mathlib.Data.List.Pairwise

namespace Jiaa.ArchMMUSpec

open TranslationChunk

variable {M T β : Type*} [SplitAtIndex T] [lawful : LawfulSplitAtIndex T β]

/-! ## What a batch and its outputs hold -/

/-- The addressed bytes of the requests. -/
def requestBytes (reqs : List (Nat × T)) : List (Nat × β) := reqs.flatMap fun r => at64 r.1 (bytes r.2)

def failBytes (outFail : List (Error × Nat × T)) : List (Nat × β) := outFail.flatMap fun f => at64 f.2.1 (bytes f.2.2)

/-- Every byte with the physical address it was delivered at. -/
def outBytes (out : List (PhysicalAddress × T)) : List (PhysicalAddress × β) :=
  out.flatMap fun o => (at64 o.1.address (bytes o.2)).map fun y => ({ o.1 with address := y.1 }, y.2)

/-- A piece delivered at step `step` with the entry `pt`. -/
structure Delivery (T : Type*) where
  step : Nat
  pt : Nat
  addr : Nat
  buf : T

variable (spec : ArchMMUSpec)

def Delivery.result (d : Delivery T) : PhysicalAddress × T := (spec.getPhysPage d.pt d.addr d.step, d.buf)

def Delivery.bytes (d : Delivery T) : List (Nat × β) := at64 d.addr (LawfulSplitAtIndex.bytes d.buf)

section Accounts

variable (next : Next) (dtb : Nat) (reqs : List (Nat × T))

/-- The piece lies in one page of its step, and its entry ends the walk of each byte. -/
structure Delivery.Good (d : Delivery T) : Prop where
  step_lt : d.step < spec.splitCount
  piece : Piece (TranslateData.mk d.addr d.buf)
  within : ∃ r ∈ reqs, CutOf (fun v => spec.pageOf d.step v = spec.pageOf d.step d.addr) ⟨d.addr, d.buf⟩ ⟨r.1, r.2⟩
  final : spec.isFinalMapping d.pt d.step = true
  present : spec.checkEntry d.pt d.step = true
  page : ∀ y ∈ d.bytes, spec.pageOf d.step y.1 = spec.pageOf d.step d.addr
  entry : ∀ y ∈ d.bytes, spec.entryAt next dtb y.1 d.step = some d.pt

/-- Another page of the batch read an entry of the same value. -/
def Shared (v : Nat) : Prop :=
  ∃ step e, step + 1 < spec.splitCount ∧ spec.entryAt next dtb v (step + 1) = some e ∧
    ∃ z ∈ requestBytes reqs, spec.pageOf (step + 1) z.1 ≠ spec.pageOf (step + 1) v ∧ spec.entryAt next dtb z.1 (step + 1) = some e

def Fails (v : Nat) : Prop := spec.walkFrom next v spec.splitCount 0 dtb = none ∨ spec.Shared next dtb reqs v

structure Accounts (o : Outputs T) (waiting : List (Nat × β)) : Prop where
  ex : ∃ ds : List (Delivery T), o.out = ds.map (Delivery.result spec) ∧
    (∀ d ∈ ds, Delivery.Good spec next dtb reqs d) ∧ (ds.flatMap Delivery.bytes ++ failBytes o.outFail ++ waiting).Perm (requestBytes reqs)
  fails : ∀ y ∈ failBytes o.outFail, spec.Fails next dtb reqs y.1

/-- The chunks of the step, apart from the entry they hold. -/
structure Chunks (step : Nat) (cs : List (TranslationChunk T)) : Prop where
  ok : ∀ g ∈ cs, g.Ok
  nonempty : requestBytes reqs ≠ [] → ∀ g ∈ cs, g.vec ≠ []
  page : ∀ g ∈ cs, ∀ y ∈ bytesOf g.vec, ∀ z ∈ bytesOf g.vec, spec.pageOf step y.1 = spec.pageOf step z.1
  closed : ∀ g ∈ cs, ∀ y ∈ bytesOf g.vec, ∀ z ∈ requestBytes reqs, spec.pageOf step z.1 = spec.pageOf step y.1 → z ∈ bytesOf g.vec
  sub : ∀ g ∈ cs, ∀ y ∈ bytesOf g.vec, y ∈ requestBytes reqs
  within : ∀ g ∈ cs, ∀ d ∈ g.vec, ∃ r ∈ reqs, CutOf (fun v => spec.pageOf step v = spec.pageOf step d.addr) d ⟨r.1, r.2⟩
  apart : cs.Pairwise fun g h => ∀ y ∈ bytesOf g.vec, ∀ z ∈ bytesOf h.vec, spec.pageOf step y.1 ≠ spec.pageOf step z.1

/-- Before step `step`: each chunk holds the entry of its bytes. -/
structure AtStep (step : Nat) (cs : List (TranslationChunk T)) : Prop extends Chunks spec reqs step cs where
  entry : ∀ g ∈ cs, ∀ y ∈ bytesOf g.vec, spec.entryAt next dtb y.1 step = some g.ptAddr

/-- Between the halves of round `step`: each chunk holds the address of the next entry. -/
structure Asking (step : Nat) (cs : List (TranslationChunk T)) : Prop extends Chunks spec reqs (step + 1) cs where
  asks : ∀ g ∈ cs, ∀ y ∈ bytesOf g.vec, ∃ pt, spec.entryAt next dtb y.1 step = some pt ∧
    spec.checkEntry pt step = true ∧ spec.isFinalMapping pt step = false ∧ g.ptAddr = spec.vtopStep pt y.1 step

end Accounts

def chunkBytes (cs : List (TranslationChunk T)) : List (Nat × β) := cs.flatMap fun g => bytesOf g.vec

/-- No page of a step straddles: the batch's addresses in one page of a step, cut into the
    pages of the next. -/
def NoStraddleBatch (p : Nat → Prop) : Prop :=
  ∀ step, step + 1 < spec.splitCount → ∀ q,
    NoStraddle (spec.pageSizeStepUnchecked (step + 1)) fun v => p v ∧ spec.pageOf step v = q

/-! ## Moving bytes between the outputs and the chunks -/

section Proofs

variable {next : Next} {dtb : Nat} {reqs : List (Nat × T)} {o : Outputs T}

theorem failBytes_append (f g : List (Error × Nat × T)) : failBytes (f ++ g) = failBytes f ++ failBytes g := by
  simp [failBytes]

theorem failBytes_failChunk (o : Outputs T) (err : Error) (g : TranslationChunk T) :
    failBytes (o.failChunk err g).outFail = failBytes o.outFail ++ bytesOf g.vec := by
  rw [Outputs.failChunk, failBytes_append]
  simp only [failBytes, bytesOf, List.flatMap_map]
  rfl

namespace Accounts

theorem perm {w w' : List (Nat × β)} (h : spec.Accounts next dtb reqs o w) (hp : w.Perm w') :
    spec.Accounts next dtb reqs o w' := by
  obtain ⟨⟨ds, h1, h2, h3⟩, h4⟩ := h
  exact ⟨⟨ds, h1, h2, (hp.symm.append_left _).trans h3⟩, h4⟩

theorem fail {g : TranslationChunk T} {w : List (Nat × β)} (h : spec.Accounts next dtb reqs o (bytesOf g.vec ++ w))
    (hf : ∀ y ∈ bytesOf g.vec, spec.Fails next dtb reqs y.1) (err : Error) :
    spec.Accounts next dtb reqs (o.failChunk err g) w := by
  obtain ⟨⟨ds, h1, h2, h3⟩, h4⟩ := h
  refine ⟨⟨ds, h1, h2, ?_⟩, fun y hy => ?_⟩
  · rw [failBytes_failChunk]
    simpa only [List.append_assoc] using h3
  · rw [failBytes_failChunk] at hy
    exact (List.mem_append.mp hy).elim (h4 y) (hf y)

theorem deliver {g : TranslationChunk T} {w : List (Nat × β)} {step : Nat}
    (h : spec.Accounts next dtb reqs o (bytesOf g.vec ++ w))
    (hg : ∀ d ∈ g.vec, Delivery.Good spec next dtb reqs ⟨step, g.ptAddr, d.addr, d.buf⟩) :
    spec.Accounts next dtb reqs
      { o with out := o.out ++ g.vec.map fun d => (spec.getPhysPage g.ptAddr d.addr step, d.buf) } w := by
  obtain ⟨⟨ds, h1, h2, h3⟩, h4⟩ := h
  refine ⟨⟨ds ++ g.vec.map fun d => ⟨step, g.ptAddr, d.addr, d.buf⟩, ?_, ?_, ?_⟩, h4⟩
  · rw [List.map_append, h1, List.map_map]
    rfl
  · intro d hd
    rcases List.mem_append.mp hd with hd | hd
    · exact h2 d hd
    · obtain ⟨x, hx, rfl⟩ := List.mem_map.mp hd
      exact hg x hx
  · have e : ((g.vec.map fun d => (⟨step, g.ptAddr, d.addr, d.buf⟩ : Delivery T)).flatMap Delivery.bytes) =
        bytesOf g.vec := by
      simp only [List.flatMap_map]
      rfl
    rw [List.flatMap_append, e]
    refine List.Perm.trans ?_ h3
    simp only [List.append_assoc]
    refine List.Perm.append_left _ ?_
    exact List.perm_append_comm_assoc _ _ _

end Accounts

namespace Chunks

theorem sublist {step : Nat} {cs cs' : List (TranslationChunk T)} (h : spec.Chunks reqs step cs) (hs : cs'.Sublist cs) :
    spec.Chunks reqs step cs' where
  ok g hg := h.ok g (hs.subset hg)
  nonempty hL g hg := h.nonempty hL g (hs.subset hg)
  page g hg := h.page g (hs.subset hg)
  closed g hg := h.closed g (hs.subset hg)
  sub g hg := h.sub g (hs.subset hg)
  within g hg := h.within g (hs.subset hg)
  apart := h.apart.sublist hs

theorem perm {step : Nat} {cs cs' : List (TranslationChunk T)} (h : spec.Chunks reqs step cs) (hp : cs.Perm cs') :
    spec.Chunks reqs step cs' where
  ok g hg := h.ok g (hp.symm.subset hg)
  nonempty hL g hg := h.nonempty hL g (hp.symm.subset hg)
  page g hg := h.page g (hp.symm.subset hg)
  closed g hg := h.closed g (hp.symm.subset hg)
  sub g hg := h.sub g (hp.symm.subset hg)
  within g hg := h.within g (hp.symm.subset hg)
  apart := (hp.pairwise_iff fun h y hy z hz => (h z hz y hy).symm).mp h.apart

/-- The entry a chunk holds plays no part. -/
theorem withPt {step : Nat} {kept l : List (TranslationChunk T)} {g : TranslationChunk T}
    (h : spec.Chunks reqs step (kept ++ g :: l)) (pt : Nat) :
    spec.Chunks reqs step (kept ++ ({ g with ptAddr := pt } :: l)) := by
  have mem : ∀ x ∈ kept ++ ({ g with ptAddr := pt } :: l), ∃ x' ∈ kept ++ g :: l, x.vec = x'.vec ∧ (x'.Ok → x.Ok) := by
    intro x hx
    rcases List.mem_append.mp hx with hx | hx
    · exact ⟨x, List.mem_append_left _ hx, rfl, id⟩
    · rcases List.mem_cons.mp hx with rfl | hx
      · exact ⟨g, by simp, rfl, fun ⟨h1, h2, h3⟩ => ⟨h1, h2, h3⟩⟩
      · exact ⟨x, by simp [hx], rfl, id⟩
  refine ⟨?_, ?_, ?_, ?_, ?_, ?_, ?_⟩
  · intro x hx
    obtain ⟨x', hx', -, hok⟩ := mem x hx
    exact hok (h.ok x' hx')
  · intro hL x hx
    obtain ⟨x', hx', hv, -⟩ := mem x hx
    exact hv ▸ h.nonempty hL x' hx'
  · intro x hx
    obtain ⟨x', hx', hv, -⟩ := mem x hx
    exact hv ▸ h.page x' hx'
  · intro x hx
    obtain ⟨x', hx', hv, -⟩ := mem x hx
    exact hv ▸ h.closed x' hx'
  · intro x hx
    obtain ⟨x', hx', hv, -⟩ := mem x hx
    exact hv ▸ h.sub x' hx'
  · intro x hx
    obtain ⟨x', hx', hv, -⟩ := mem x hx
    exact hv ▸ h.within x' hx'
  · have ha := h.apart
    rw [List.pairwise_append, List.pairwise_cons] at ha ⊢
    refine ⟨ha.1, ⟨ha.2.1.1, ha.2.1.2⟩, fun a ha' b hb => ?_⟩
    rcases List.mem_cons.mp hb with rfl | hb
    · exact ha.2.2 a ha' g (List.mem_cons_self ..)
    · exact ha.2.2 a ha' b (List.mem_cons_of_mem _ hb)

end Chunks

/-! ## The first half of a round -/

/-- What a chunk of step `step` leaves for the next. -/
def stepCut (step : Nat) (g : TranslationChunk T) : List (TranslationChunk T) :=
  if !spec.checkEntry g.ptAddr step then [] else if spec.isFinalMapping g.ptAddr step then []
  else spec.cutChunk step g

omit lawful in
theorem stepChunk_snd (step i : Nat) (o : Outputs T) (g : TranslationChunk T) :
    (spec.stepChunk step i o g).2 = spec.stepCut step g := by
  unfold stepChunk stepCut
  split
  · rfl
  · split <;> rfl

omit lawful in
theorem visit_stepChunk (step : Nat) (cs : List (TranslationChunk T)) :
    ∀ o : Outputs T, (Lib.RevLoop.visit (spec.stepChunk step) o cs).2 = cs.flatMap (spec.stepCut step) := by
  induction cs with
  | nil => intro o; rfl
  | cons g cs ih =>
    intro o
    simp only [Lib.RevLoop.visit, List.flatMap_cons, ih, stepChunk_snd]

/-- The batch has no straddle, so a chunk is cut into its pages. -/
theorem cutChunk_pages {step : Nat} {cs : List (TranslationChunk T)} (hs : step + 1 < spec.splitCount)
    (hn : spec.NoStraddleBatch fun v => ∃ y ∈ requestBytes reqs, y.1 = v) (h : spec.Chunks reqs step cs) {g : TranslationChunk T}
    (hg : g ∈ cs) :
    ArePages (spec.pageSizeStepUnchecked (step + 1)) g
      ((pageChunks g g.minAddr (spec.pageSizeStepUnchecked (step + 1))).map (·.2)) := by
  refine pageChunks_pages (spec.pageSize_pos _) (spec.pageSize_lt (by omega)) (spec.pageSize_dvd_word _) (h.ok g hg) ?_
  rintro z x y ⟨z', hz, rfl⟩ ⟨x', hx, rfl⟩ ⟨y', hy, rfl⟩ hzx hxy
  obtain ⟨v, ⟨⟨w, hw, rfl⟩, hq⟩, h1, h2⟩ := hn step hs (spec.pageOf step x'.1) z'.1 x'.1 y'.1
    ⟨⟨z', h.sub g hg z' hz, rfl⟩, h.page g hg z' hz x' hx⟩ ⟨⟨x', h.sub g hg x' hx, rfl⟩, rfl⟩
    ⟨⟨y', h.sub g hg y' hy, rfl⟩, h.page g hg y' hy x' hx⟩ hzx hxy
  exact ⟨w.1, ⟨w, h.closed g hg x' hx w hw hq, rfl⟩, h1, h2⟩

theorem mem_stepCut {step : Nat} {g h : TranslationChunk T} (hh : h ∈ spec.stepCut step g) :
    spec.checkEntry g.ptAddr step = true ∧ spec.isFinalMapping g.ptAddr step = false ∧
      ∃ p ∈ (pageChunks g g.minAddr (spec.pageSizeStepUnchecked (step + 1))).map (·.2),
        h = { p with ptAddr := spec.vtopStep p.ptAddr p.minAddr step } := by
  unfold stepCut at hh
  split at hh
  · cases hh
  · next hc =>
    split at hh
    · cases hh
    · next hf =>
      obtain ⟨p, hp, rfl⟩ := List.mem_map.mp hh
      exact ⟨by simpa using hc, by simpa using hf, p.2, List.mem_map.mpr ⟨p, hp, rfl⟩, rfl⟩

/-- The chunks left for the second half are the pages of the next step. -/
theorem asking_of_atStep {step : Nat} {cs : List (TranslationChunk T)} (hs : step < spec.splitCount)
    (hn : spec.NoStraddleBatch fun v => ∃ y ∈ requestBytes reqs, y.1 = v) (h : spec.AtStep next dtb reqs step cs) :
    spec.Asking next dtb reqs step (cs.flatMap (spec.stepCut step)) := by
  have pages : ∀ g ∈ cs, ∀ x ∈ spec.stepCut step g,
      ArePages (spec.pageSizeStepUnchecked (step + 1)) g
        ((pageChunks g g.minAddr (spec.pageSizeStepUnchecked (step + 1))).map (·.2)) := by
    intro g hg x hx
    exact spec.cutChunk_pages (spec.succ_lt_of_not_final hs (spec.mem_stepCut hx).2.1) hn h.toChunks hg
  refine ⟨⟨?_, ?_, ?_, ?_, ?_, ?_, ?_⟩, ?_⟩
  · intro x hx
    obtain ⟨g, hg, hx⟩ := List.mem_flatMap.mp hx
    obtain ⟨-, -, p, hp, rfl⟩ := spec.mem_stepCut hx
    obtain ⟨h1, h2, h3⟩ := ((pages g hg _ hx).ok p hp).1
    exact ⟨h1, h2, h3⟩
  · intro hL x hx
    obtain ⟨g, hg, hx⟩ := List.mem_flatMap.mp hx
    obtain ⟨-, -, p, hp, rfl⟩ := spec.mem_stepCut hx
    exact (pages g hg _ hx).nonempty (h.nonempty hL g hg) p hp
  · intro x hx y hy z hz
    obtain ⟨g, hg, hx⟩ := List.mem_flatMap.mp hx
    obtain ⟨-, -, p, hp, rfl⟩ := spec.mem_stepCut hx
    exact ((pages g hg _ hx).page p hp y hy).trans ((pages g hg _ hx).page p hp z hz).symm
  · intro x hx y hy z hz hzy
    obtain ⟨g, hg, hx⟩ := List.mem_flatMap.mp hx
    obtain ⟨-, -, p, hp, rfl⟩ := spec.mem_stepCut hx
    have hpg := pages g hg _ hx
    have hyg : y ∈ bytesOf g.vec := hpg.flat.subset (List.mem_flatMap.mpr ⟨p, hp, hy⟩)
    have hzg := h.closed g hg y hyg z hz (spec.pageOf_refines hs hzy)
    obtain ⟨q, hq, hzq⟩ := List.mem_flatMap.mp (hpg.flat.symm.subset hzg)
    by_cases hpq : q = p
    · subst hpq; exact hzq
    · have hsym : Std.Symm fun g h : TranslationChunk T => ∀ y ∈ bytesOf g.vec, ∀ z ∈ bytesOf h.vec,
          y.1 / spec.pageSizeStepUnchecked (step + 1) ≠ z.1 / spec.pageSizeStepUnchecked (step + 1) :=
        ⟨fun _ _ h y hy z hz => (h z hz y hy).symm⟩
      exact absurd hzy (hpg.apart.forall hq hp hpq z hzq y hy)
  · intro x hx y hy
    obtain ⟨g, hg, hx⟩ := List.mem_flatMap.mp hx
    obtain ⟨-, -, p, hp, rfl⟩ := spec.mem_stepCut hx
    exact h.sub g hg y ((pages g hg _ hx).flat.subset (List.mem_flatMap.mpr ⟨p, hp, hy⟩))
  · intro x hx d hd
    obtain ⟨g, hg, hx⟩ := List.mem_flatMap.mp hx
    obtain ⟨-, -, p, hp, rfl⟩ := spec.mem_stepCut hx
    obtain ⟨d', hd', h1⟩ := (pages g hg _ hx).inside p hp d hd
    obtain ⟨r, hr, h2⟩ := h.within g hg d' hd'
    have hpg := pages g hg _ hx
    have hpd := (hpg.ok p hp).1.pieces d hd
    have hpd' := (h.ok g hg).pieces d' hd'
    obtain ⟨y, hy, hyd⟩ := exists_mem_piece hd hpd (Nat.le_refl _) (by have := hpd.1; omega)
    obtain ⟨z, hz, hzd⟩ := exists_mem_piece hd' hpd' (Nat.le_refl _) (by have := hpd'.1; omega)
    have hyg : y ∈ bytesOf g.vec := hpg.flat.subset (List.mem_flatMap.mpr ⟨p, hp, hy⟩)
    have hsame := h.page g hg y hyg z hz
    rw [hyd, hzd] at hsame
    exact ⟨r, hr, h1.trans (h2.mono fun v _ _ h3 => (spec.pageOf_refines hs h3).trans hsame)⟩
  · refine List.pairwise_flatMap.mpr ⟨fun g hg => ?_, h.apart.imp_of_mem fun {g g'} hg hg' hgg x hx x' hx' => ?_⟩
    · by_cases he : spec.stepCut step g = []
      · rw [he]; exact List.Pairwise.nil
      · obtain ⟨x, hx⟩ := List.exists_mem_of_ne_nil _ he
        obtain ⟨hc, hf, -⟩ := spec.mem_stepCut hx
        have hcut : spec.stepCut step g = spec.cutChunk step g := by simp [stepCut, hc, hf]
        rw [hcut, cutChunk, List.pairwise_map]
        exact List.pairwise_map.mp (pages g hg x hx).apart
    · obtain ⟨-, -, p, hp, rfl⟩ := spec.mem_stepCut hx
      obtain ⟨-, -, p', hp', rfl⟩ := spec.mem_stepCut hx'
      intro y hy z hz hyz
      exact hgg y ((pages g hg _ hx).flat.subset (List.mem_flatMap.mpr ⟨p, hp, hy⟩)) z
        ((pages g' hg' _ hx').flat.subset (List.mem_flatMap.mpr ⟨p', hp', hz⟩)) (spec.pageOf_refines hs hyz)
  · intro x hx y hy
    obtain ⟨g, hg, hx⟩ := List.mem_flatMap.mp hx
    obtain ⟨hc, hf, p, hp, rfl⟩ := spec.mem_stepCut hx
    have hpg := pages g hg _ hx
    have hyg : y ∈ bytesOf g.vec := hpg.flat.subset (List.mem_flatMap.mpr ⟨p, hp, hy⟩)
    refine ⟨g.ptAddr, h.entry g hg y hyg, hc, hf, ?_⟩
    show spec.vtopStep p.ptAddr p.minAddr step = _
    rw [(hpg.ok p hp).2]
    exact spec.vtopStep_congr hs (hpg.page p hp y hy).symm _

theorem chunkBytes_append (cs ds : List (TranslationChunk T)) :
    chunkBytes (cs ++ ds) = chunkBytes cs ++ chunkBytes ds := by simp [chunkBytes]

theorem chunkBytes_perm {cs ds : List (TranslationChunk T)} (h : cs.Perm ds) : (chunkBytes cs).Perm (chunkBytes ds) :=
  h.flatMap_right _

/-- One chunk of a step: its bytes fail, are delivered, or go to its pages. -/
theorem accounts_stepChunk {step : Nat} {cs : List (TranslationChunk T)} (hs : step < spec.splitCount)
    (hn : spec.NoStraddleBatch fun v => ∃ y ∈ requestBytes reqs, y.1 = v) (h : spec.AtStep next dtb reqs step cs) (i : Nat)
    {g : TranslationChunk T} (hg : g ∈ cs) {w : List (Nat × β)}
    (ha : spec.Accounts next dtb reqs o (bytesOf g.vec ++ w)) :
    spec.Accounts next dtb reqs (spec.stepChunk step i o g).1 (chunkBytes (spec.stepCut step g) ++ w) := by
  unfold stepChunk stepCut
  cases hc : spec.checkEntry g.ptAddr step with
  | false =>
    simp only [Bool.not_false, if_true, chunkBytes, List.flatMap_nil, List.nil_append]
    exact ha.fail spec (fun y hy => Or.inl (spec.walkFrom_absent hs (h.entry g hg y hy) hc)) _
  | true =>
    cases hf : spec.isFinalMapping g.ptAddr step with
    | true =>
      simp only [Bool.not_true, Bool.false_eq_true, if_false, if_true, chunkBytes, List.flatMap_nil, List.nil_append]
      refine ha.deliver spec fun d hd => ?_
      have hp := (h.ok g hg).pieces d hd
      obtain ⟨z, hz, hza⟩ := exists_mem_piece hd hp (Nat.le_refl _) (by have := hp.1; omega)
      have hin : ∀ y ∈ Delivery.bytes ⟨step, g.ptAddr, d.addr, d.buf⟩, y ∈ bytesOf g.vec := fun y hy =>
        List.mem_flatMap.mpr ⟨d, hd, hy⟩
      exact ⟨hs, hp, h.within g hg d hd, hf, hc, fun y hy => hza ▸ h.page g hg y (hin y hy) z hz, fun y hy => h.entry g hg y (hin y hy)⟩
    | false =>
      simp only [Bool.not_true, Bool.false_eq_true, if_false]
      have hpg := spec.cutChunk_pages (spec.succ_lt_of_not_final hs hf) hn h.toChunks hg
      have hflat : chunkBytes (spec.cutChunk step g) =
          ((pageChunks g g.minAddr (spec.pageSizeStepUnchecked (step + 1))).map (·.2)).flatMap
            fun p => bytesOf p.vec := by
        simp only [chunkBytes, cutChunk, List.flatMap_map]
      exact ha.perm spec ((hflat ▸ hpg.flat.symm).append_right _)

theorem accounts_visit {step : Nat} {cs : List (TranslationChunk T)} (hs : step < spec.splitCount)
    (hn : spec.NoStraddleBatch fun v => ∃ y ∈ requestBytes reqs, y.1 = v) (h : spec.AtStep next dtb reqs step cs) :
    ∀ (l : List (TranslationChunk T)) (o : Outputs T) (w : List (Nat × β)), (∀ g ∈ l, g ∈ cs) →
    spec.Accounts next dtb reqs o (chunkBytes l ++ w) →
    spec.Accounts next dtb reqs (Lib.RevLoop.visit (spec.stepChunk step) o l).1
      (chunkBytes (l.flatMap (spec.stepCut step)) ++ w) := by
  intro l
  induction l with
  | nil => intro o w _ ha; exact ha
  | cons g l ih =>
    intro o w hl ha
    have h1 : spec.Accounts next dtb reqs o (bytesOf g.vec ++ (chunkBytes l ++ w)) := by
      simpa only [chunkBytes, List.flatMap_cons, List.append_assoc] using ha
    have h2 := spec.accounts_stepChunk hs hn h l.length (hl g (List.mem_cons_self ..)) h1
    have h3 := ih _ _ (fun x hx => hl x (List.mem_cons_of_mem _ hx)) (h2.perm spec (List.perm_append_comm_assoc _ _ _))
    rw [List.flatMap_cons, chunkBytes_append]
    refine h3.perm spec ?_
    rw [List.append_assoc]
    exact List.perm_append_comm_assoc _ _ _

/-- The first half of a round. -/
theorem round_sort {step : Nat} {cs : List (TranslationChunk T)} (hs : step < spec.splitCount)
    (hn : spec.NoStraddleBatch fun v => ∃ y ∈ requestBytes reqs, y.1 = v) (h : spec.AtStep next dtb reqs step cs)
    (ha : spec.Accounts next dtb reqs o (chunkBytes cs)) :
    spec.Asking next dtb reqs step (Lib.RevLoop.drainRev (spec.stepChunk step) cs.length o cs).2 ∧
      spec.Accounts next dtb reqs (Lib.RevLoop.drainRev (spec.stepChunk step) cs.length o cs).1
        (chunkBytes (Lib.RevLoop.drainRev (spec.stepChunk step) cs.length o cs).2) ∧
      ((Lib.RevLoop.drainRev (spec.stepChunk step) cs.length o cs).2 ≠ [] → step + 1 < spec.splitCount) := by
  obtain ⟨h1, h2⟩ := Lib.RevLoop.drainRev_visit (spec.stepChunk step) cs.reverse o []
  simp only [List.length_reverse, List.reverse_reverse, List.append_nil] at h1 h2
  rw [spec.visit_stepChunk] at h2
  have hrev : cs.Perm cs.reverse := (List.reverse_perm cs).symm
  have hp := h2.trans (List.Perm.flatMap_right (spec.stepCut step) hrev.symm)
  refine ⟨?_, ?_, fun hne => ?_⟩
  · have hask := spec.asking_of_atStep hs hn h
    exact ⟨hask.toChunks.perm spec hp.symm, fun g hg => hask.asks g (hp.subset hg)⟩
  · rw [h1]
    have hw := spec.accounts_visit hs hn h cs.reverse o [] (fun g hg => hrev.symm.subset hg)
      (ha.perm spec (by rw [List.append_nil]; exact chunkBytes_perm hrev))
    rw [List.append_nil] at hw
    exact hw.perm spec (chunkBytes_perm h2.symm)
  · obtain ⟨x, hx⟩ := List.exists_mem_of_ne_nil _ hne
    obtain ⟨g, -, hxg⟩ := List.mem_flatMap.mp (hp.subset hx)
    exact spec.succ_lt_of_not_final hs (spec.mem_stepCut hxg).2.1

/-! ## The second half of a round -/

variable {c : Nat → UInt8}

/-- The loop over the entries: `kept` are the chunks kept so far, `l` those to come, the
    last first. -/
structure Filtering (c : Nat → UInt8) (dtb : Nat) (reqs : List (Nat × T)) (step : Nat) (st : PtRead T)
    (kept l : List (TranslationChunk T)) : Prop where
  chunks : spec.Chunks reqs (step + 1) (kept ++ l)
  entry : ∀ g ∈ kept, ∀ y ∈ bytesOf g.vec, spec.entryAt (spec.loneNext c) dtb y.1 (step + 1) = some g.ptAddr
  asks : ∀ g ∈ l, ∀ y ∈ bytesOf g.vec, ∃ pt, spec.entryAt (spec.loneNext c) dtb y.1 step = some pt ∧
    spec.checkEntry pt step = true ∧ spec.isFinalMapping pt step = false ∧ g.ptAddr = spec.vtopStep pt y.1 step
  read : st.ptRead = l.reverse.map fun g => bytesAt c g.ptAddr 8
  keys : (st.prevAddr = none → st.addrMap = []) ∧
    ∀ e ∈ st.prevAddr.toList ++ st.addrMap, ∃ g ∈ kept, g.ptAddr = e
  accounts : spec.Accounts (spec.loneNext c) dtb reqs st.outputs (chunkBytes (kept ++ l))

/-- An entry the loop keeps is the next entry of the walk of each byte. -/
theorem entryAt_of_asks {step v pt a : Nat} (hs : step + 1 < spec.splitCount)
    (he : spec.entryAt (spec.loneNext c) dtb v step = some pt) (hc : spec.checkEntry pt step = true)
    (hf : spec.isFinalMapping pt step = false) (ha : a = spec.vtopStep pt v step) :
    (spec.pteAddrMask a step ≠ spec.pteAddrMask (readU64 c a) step →
      spec.entryAt (spec.loneNext c) dtb v (step + 1) = some (readU64 c a)) ∧
    (spec.pteAddrMask a step = spec.pteAddrMask (readU64 c a) step →
      spec.walkFrom (spec.loneNext c) v spec.splitCount 0 dtb = none) := by
  subst ha
  rw [spec.pteAddrMask_vtopStep hs]
  refine ⟨fun h => ?_, fun h => ?_⟩
  · rw [spec.entryAt_succ he hc hf]
    exact if_neg h
  · exact spec.walkFrom_stop (by omega) he hc hf (if_pos h)

/-- One entry of the loop. -/
theorem filtering_step {step : Nat} (hs : step + 1 < spec.splitCount) {st : PtRead T}
    {kept l : List (TranslationChunk T)} {g : TranslationChunk T}
    (h : spec.Filtering c dtb reqs step st kept (g :: l)) :
    spec.Filtering c dtb reqs step (spec.filterEntry step l.length st g).1
      (kept ++ (spec.filterEntry step l.length st g).2) l := by
  have hread : st.ptRead = l.reverse.map (fun g => bytesAt c g.ptAddr 8) ++ [bytesAt c g.ptAddr 8] := by
    simpa using h.read
  have hrem : Lib.RevLoop.swapRemove st.ptRead l.length =
      some (bytesAt c g.ptAddr 8, l.reverse.map fun g => bytesAt c g.ptAddr 8) := by
    obtain ⟨suf, h1, h2⟩ := Lib.RevLoop.swapRemove_append (l.reverse.map fun g => bytesAt c g.ptAddr 8) []
      (bytesAt c g.ptAddr 8)
    rw [List.perm_nil.mp h2, List.length_map, List.length_reverse, List.append_nil] at h1
    rw [hread, h1]
  have hent : leU64 ((bytesAt c g.ptAddr 8).take 8) = readU64 c g.ptAddr := by
    rw [List.take_of_length_le (by simp), readU64]
  have hg : g ∈ kept ++ g :: l := by simp
  have hasks := h.asks g (List.mem_cons_self ..)
  have hrest : ∀ x ∈ l, _ := fun x hx => h.asks x (List.mem_cons_of_mem _ hx)
  have hacc : spec.Accounts (spec.loneNext c) dtb reqs st.outputs (bytesOf g.vec ++ chunkBytes (kept ++ l)) :=
    h.accounts.perm spec (chunkBytes_perm List.perm_middle)
  simp only [filterEntry, hrem, hent]
  split
  · next hcond =>
    refine ⟨?_, ?_, hrest, rfl, ⟨nofun, ?_⟩, ?_⟩
    · rw [List.append_assoc]
      exact h.chunks.withPt spec _
    · intro x hx y hy
      rcases List.mem_append.mp hx with hx | hx
      · exact h.entry x hx y hy
      · rw [List.mem_singleton.mp hx] at hy ⊢
        obtain ⟨pt, he, hc, hf, ha⟩ := hasks y hy
        exact (spec.entryAt_of_asks hs he hc hf ha).1 hcond.1
    · intro e he
      have hcases : e = readU64 c g.ptAddr ∨ e ∈ st.prevAddr.toList ++ st.addrMap := List.mem_cons.mp he
      rcases hcases with h1 | h1
      · exact ⟨_, List.mem_append_right _ (List.mem_singleton_self _), h1.symm⟩
      · obtain ⟨k, hk, hke⟩ := h.keys.2 e h1
        exact ⟨k, List.mem_append_left _ hk, hke⟩
    · have e : chunkBytes (kept ++ [{ g with ptAddr := readU64 c g.ptAddr }] ++ l) = chunkBytes (kept ++ g :: l) := by
        simp [chunkBytes]
      rw [e]
      exact h.accounts
  · next hcond =>
    rw [List.append_nil]
    refine ⟨h.chunks.sublist spec ?_, h.entry, hrest, rfl, h.keys, hacc.fail spec (fun y hy => ?_) _⟩
    · exact (List.Sublist.refl kept).append (List.sublist_cons_self g l)
    · obtain ⟨pt, he, hc, hf, ha⟩ := hasks y hy
      obtain ⟨h1, h2⟩ := spec.entryAt_of_asks hs he hc hf ha
      by_cases hm : spec.pteAddrMask g.ptAddr step = spec.pteAddrMask (readU64 c g.ptAddr) step
      · exact Or.inl (h2 hm)
      -- the value is that of an entry kept before, of another page
      · have hkey : readU64 c g.ptAddr ∈ st.prevAddr.toList ++ st.addrMap := by
          by_contra hno
          refine hcond ⟨hm, ?_⟩
          cases hp : st.prevAddr with
          | none => exact Or.inl rfl
          | some p =>
            rw [hp] at hno
            simp only [Option.toList_some, List.singleton_append, List.mem_cons, not_or] at hno
            exact Or.inr ⟨fun e => hno.1 (Option.some.inj e).symm, hno.2⟩
        obtain ⟨k, hk, hke⟩ := h.keys.2 _ hkey
        have hk' : k ∈ kept ++ g :: l := List.mem_append_left _ hk
        have hL : requestBytes reqs ≠ [] := List.ne_nil_of_mem (h.chunks.sub g hg y hy)
        obtain ⟨z, hz, -⟩ := (h.chunks.ok k hk').exists_min (h.chunks.nonempty hL k hk')
        have hapart := (List.pairwise_append.mp h.chunks.apart).2.2 k hk g (List.mem_cons_self ..)
        exact Or.inr ⟨step, readU64 c g.ptAddr, hs, h1 hm, z, h.chunks.sub k hk' z hz, hapart z hz y hy,
          hke ▸ h.entry k hk z hz⟩

theorem filtering_visit {step : Nat} (hs : step + 1 < spec.splitCount) :
    ∀ (l : List (TranslationChunk T)) (st : PtRead T) (kept : List (TranslationChunk T)),
    spec.Filtering c dtb reqs step st kept l →
    spec.Filtering c dtb reqs step (Lib.RevLoop.visit (spec.filterEntry step) st l).1
      (kept ++ (Lib.RevLoop.visit (spec.filterEntry step) st l).2) [] := by
  intro l
  induction l with
  | nil =>
    intro st kept h
    rw [Lib.RevLoop.visit, List.append_nil]
    exact h
  | cons g l ih =>
    intro st kept h
    have h1 := ih _ _ (spec.filtering_step hs h)
    simp only [Lib.RevLoop.visit]
    rw [← List.append_assoc]
    exact h1

/-- The second half of a round, the entries read. -/
theorem round_filter {step : Nat} (hs : step + 1 < spec.splitCount) {cs : List (TranslationChunk T)}
    (h : spec.Asking (spec.loneNext c) dtb reqs step cs)
    (ha : spec.Accounts (spec.loneNext c) dtb reqs o (chunkBytes cs)) {bufs : List (List UInt8)}
    (hb : bufs = cs.map fun g => bytesAt c g.ptAddr 8) :
    spec.AtStep (spec.loneNext c) dtb reqs (step + 1)
        (Lib.RevLoop.drainRev (spec.filterEntry step) cs.length ⟨bufs, none, [], o⟩ cs).2 ∧
      spec.Accounts (spec.loneNext c) dtb reqs
        (Lib.RevLoop.drainRev (spec.filterEntry step) cs.length ⟨bufs, none, [], o⟩ cs).1.outputs
        (chunkBytes (Lib.RevLoop.drainRev (spec.filterEntry step) cs.length ⟨bufs, none, [], o⟩ cs).2) := by
  obtain ⟨h1, h2⟩ := Lib.RevLoop.drainRev_visit (spec.filterEntry step) cs.reverse ⟨bufs, none, [], o⟩ []
  simp only [List.length_reverse, List.reverse_reverse, List.append_nil] at h1 h2
  have hrev : cs.Perm cs.reverse := (List.reverse_perm cs).symm
  have hf := spec.filtering_visit hs cs.reverse ⟨bufs, none, [], o⟩ []
    ⟨by simpa using h.toChunks.perm spec hrev, by simp, fun g hg => h.asks g (List.mem_reverse.mp hg),
      by simpa using hb, ⟨fun _ => rfl, by simp⟩, by simpa using ha.perm spec (chunkBytes_perm hrev)⟩
  rw [List.nil_append] at hf
  refine ⟨⟨?_, fun g hg => hf.entry g (h2.subset hg)⟩, ?_⟩
  · have := hf.chunks
    rw [List.append_nil] at this
    exact this.perm spec h2.symm
  · rw [h1]
    have := hf.accounts
    rw [List.append_nil] at this
    exact this.perm spec (chunkBytes_perm h2.symm)

end Proofs

/-! ## The run -/

section Run

variable [PhysicalMemory M] [LawfulMemory M]

theorem length_entryBufs (buf : List UInt8) (n : Nat) : (entryBufs buf n).length = n := by simp [entryBufs]

theorem length_of_mem_entryBufs {buf b : List UInt8} {n : Nat} (h : b ∈ entryBufs (resize buf (8 * n)) n) :
    b.length = 8 := by
  obtain ⟨i, hi, rfl⟩ := List.mem_map.mp h
  have := List.mem_range.mp hi
  simp only [resize, List.length_take, List.length_drop, List.length_append, List.length_replicate]
  omega

/-- Two lists of one length, the second of no consequence. -/
theorem zipWith_eq_map {α γ δ : Type*} {f : α → γ → δ} {g : α → δ} : ∀ {l : List α} {l' : List γ}, l'.length = l.length →
    (∀ x ∈ l, ∀ y ∈ l', f x y = g x) → List.zipWith f l l' = l.map g
  | [], _, _, _ => by simp
  | x :: l, y :: l', hl, h => by
    rw [List.zipWith_cons_cons, List.map_cons, h x (List.mem_cons_self ..) y (List.mem_cons_self ..),
      zipWith_eq_map (by simpa using hl) fun a ha b hb => h a (List.mem_cons_of_mem _ ha) b (List.mem_cons_of_mem _ hb)]

omit [SplitAtIndex T] lawful in
theorem map_ptReads (c : Nat → UInt8) (step : Nat) (cs : List (TranslationChunk T)) (ptBuf : List UInt8) :
    (spec.ptReads step cs ptBuf).map (fun d => bytesAt c d.1.address d.2.length) =
      cs.map fun g => bytesAt c g.ptAddr 8 := by
  rw [ptReads, List.map_zipWith]
  refine zipWith_eq_map (length_entryBufs _ _) fun g _ b hb => ?_
  rw [length_of_mem_entryBufs hb]
  rfl

variable [AnswersReads M]

omit [SplitAtIndex T] in
/-- Over a memory that answers, the entries read are the entries held. -/
theorem readPtAddressIter_ok (mem : M) (step : Nat) (cs : List (TranslationChunk T)) (ptBuf : List UInt8)
    (o : Outputs T) :
    ∃ mem' ptBuf', content mem' = content mem ∧ spec.readPtAddressIter mem step cs ptBuf o =
      (mem', ptBuf', .ok
        ((Lib.RevLoop.drainRev (spec.filterEntry step) cs.length
            ⟨cs.map fun g => bytesAt (content mem) g.ptAddr 8, none, [], o⟩ cs).2,
          (Lib.RevLoop.drainRev (spec.filterEntry step) cs.length
            ⟨cs.map fun g => bytesAt (content mem) g.ptAddr 8, none, [], o⟩ cs).1.outputs)) := by
  have hr := AnswersReads.read mem (spec.ptReads step cs ptBuf)
  have hb := LawfulMemory.read_ok mem _ hr
  have hc := LawfulMemory.read_content mem (spec.ptReads step cs ptBuf)
  rw [map_ptReads] at hb
  unfold readPtAddressIter
  generalize PhysicalMemory.physReadRawList mem (spec.ptReads step cs ptBuf) = r at hr hb hc
  obtain ⟨mem', bufs, res⟩ := r
  simp only at hr hb hc
  subst hr hb
  exact ⟨mem', _, hc, rfl⟩

/-- The rounds from `step` on, by the two halves of each. -/
theorem accounts_walkLoop {dtb : Nat} {reqs : List (Nat × T)} {c : Nat → UInt8}
    (hn : spec.NoStraddleBatch fun v => ∃ y ∈ requestBytes reqs, y.1 = v) :
    ∀ (rounds step : Nat) (mem : M) (ptBuf : List UInt8) (o : Outputs T) (cs : List (TranslationChunk T)),
    step + rounds = spec.splitCount → content mem = c → spec.AtStep (spec.loneNext c) dtb reqs step cs →
    spec.Accounts (spec.loneNext c) dtb reqs o (chunkBytes cs) →
    spec.Accounts (spec.loneNext c) dtb reqs (spec.walkLoop rounds step mem ptBuf o cs).1 [] := by
  intro rounds
  induction rounds with
  | zero =>
    intro step mem ptBuf o cs hs _ h ha
    have hnil : chunkBytes cs = [] := by
      rw [chunkBytes, List.flatMap_eq_nil_iff]
      intro g hg
      by_contra hne
      obtain ⟨y, hy⟩ := List.exists_mem_of_ne_nil _ hne
      have he := h.entry g hg y hy
      have h2 := spec.two_le_splits
      rw [show step = (spec.splitCount - 1) + 1 by unfold splitCount at *; omega] at he
      obtain ⟨pt, -, -, hf, -⟩ := spec.entryAt_succ_some he
      rw [spec.isFinalMapping_last (by unfold splitCount; omega)] at hf
      cases hf
    rw [hnil] at ha
    exact ha
  | succ rounds ih =>
    intro step mem ptBuf o cs hs hm h ha
    obtain ⟨hask, hacc, hlast⟩ := spec.round_sort (by omega) hn h ha
    rw [walkLoop]
    generalize Lib.RevLoop.drainRev (spec.stepChunk step) cs.length o cs = r at hask hacc hlast
    obtain ⟨o', cs'⟩ := r
    simp only at hask hacc hlast ⊢
    by_cases he : cs'.isEmpty = true
    · rw [if_pos he]
      rw [List.isEmpty_iff.mp he] at hacc
      exact hacc
    · rw [if_neg he]
      obtain ⟨mem', ptBuf', hm', hread⟩ := spec.readPtAddressIter_ok mem step cs' ptBuf o'
      have hbufs : (cs'.map fun g => bytesAt (content mem) g.ptAddr 8) = cs'.map fun g => bytesAt c g.ptAddr 8 := by
        rw [hm]
      obtain ⟨hat, hacc'⟩ := spec.round_filter (hlast (by simpa using he)) hask hacc hbufs
      rw [hread]
      exact ih (step + 1) mem' ptBuf' _ _ (by omega) (hm'.trans hm) hat hacc'

end Run

/-! ## Requests -/

/-- A request the filter lets through whole: not empty, at most half of the virtual
    address space, and it does not wrap. -/
structure Fits (r : Nat × T) : Prop where
  pos : 0 < SplitAtIndex.length r.2
  le_half : SplitAtIndex.length r.2 ≤ spec.virtRange
  no_wrap : r.1 + SplitAtIndex.length r.2 < 2 ^ 64

theorem virtAddrFilter_fits {a : Nat} {b : T} (h : spec.Fits (a, b)) (validOut : List (TranslateData T))
    (failOut : List (Error × Nat × T)) :
    ∃ d, spec.virtAddrFilter a b validOut failOut = some (validOut ++ [d], failOut) ∧ Piece d ∧
      d.addr = a ∧ SplitAtIndex.length d = SplitAtIndex.length b ∧ bytes d = at64 a (bytes b) := by
  obtain ⟨hpos, hhalf, hwrap⟩ := h
  simp only at hpos hhalf hwrap
  obtain ⟨d, ha, hd, hrun⟩ := spec.virtAddrFilter_short a hhalf validOut failOut
  have hsize := hd.size
  exact ⟨d, by rw [hrun, if_pos hpos], ⟨by omega, by omega⟩, ha, by omega, hd.all⟩

theorem filterAll_fits : ∀ (reqs : List (Nat × T)) (validOut : List (TranslateData T))
    (failOut : List (Error × Nat × T)), (∀ r ∈ reqs, spec.Fits r) →
    ∃ vec, spec.filterAll reqs validOut failOut = some (validOut ++ vec, failOut) ∧ (∀ d ∈ vec, Piece d) ∧
      (∀ d ∈ vec, ∃ r ∈ reqs, d.addr = r.1 ∧ SplitAtIndex.length d = SplitAtIndex.length r.2) ∧ bytesOf vec = requestBytes reqs := by
  intro reqs
  induction reqs with
  | nil => intro v f _; exact ⟨[], by simp [filterAll], by simp, by simp, rfl⟩
  | cons r reqs ih =>
    intro v f h
    obtain ⟨d, h1, h2, ha, hl, h3⟩ := spec.virtAddrFilter_fits (h r (List.mem_cons_self ..)) v f
    obtain ⟨vec, h4, h5, hins, h6⟩ := ih (v ++ [d]) f fun x hx => h x (List.mem_cons_of_mem _ hx)
    refine ⟨d :: vec, ?_, ?_, ?_, ?_⟩
    · simp only [filterAll, h1, Option.bind_some, h4, List.append_assoc, List.singleton_append]
    · intro x hx
      rcases List.mem_cons.mp hx with rfl | hx
      · exact h2
      · exact h5 x hx
    · intro x hx
      rcases List.mem_cons.mp hx with rfl | hx
      · exact ⟨r, List.mem_cons_self .., ha, hl⟩
      · obtain ⟨r', hr', h7⟩ := hins x hx
        exact ⟨r', List.mem_cons_of_mem _ hr', h7⟩
    · simp only [bytesOf, List.flatMap_cons, requestBytes, h3] at h6 ⊢
      rw [h6]

/-- The one chunk of the table base is where the walk of every byte starts. -/
theorem accounts_start (next : Next) (dtb : Nat) {reqs : List (Nat × T)} (hfit : ∀ r ∈ reqs, spec.Fits r) :
    ∃ vec, spec.filterAll reqs [] [] = some (vec, []) ∧
      spec.AtStep next dtb reqs 0 [(TranslationChunk.new dtb vec).recalcMinmax] ∧
      spec.Accounts next dtb reqs ⟨[], []⟩ (chunkBytes [(TranslationChunk.new dtb vec).recalcMinmax]) := by
  obtain ⟨vec, h1, h2, hin, h3⟩ := spec.filterAll_fits reqs [] [] hfit
  rw [List.nil_append] at h1
  refine ⟨vec, h1, ⟨⟨?_, ?_, ?_, ?_, ?_, ?_, ?_⟩, ?_⟩, ⟨⟨[], rfl, nofun, ?_⟩, nofun⟩⟩
  · intro g hg
    rw [List.mem_singleton.mp hg]
    exact ok_of_folds (List.Perm.refl _) h2 dtb
  · intro hL g hg
    rw [List.mem_singleton.mp hg]
    intro hv
    have hv : vec = [] := hv
    rw [hv] at h3
    exact hL h3.symm
  · intro g _ y _ z _
    rfl
  · intro g hg y _ z hz _
    rw [List.mem_singleton.mp hg]
    exact h3 ▸ hz
  · intro g hg y hy
    rw [List.mem_singleton.mp hg] at hy
    exact h3 ▸ hy
  · intro g hg d hd
    rw [List.mem_singleton.mp hg] at hd
    obtain ⟨r, hr, h4, h5⟩ := hin d hd
    have h6 : SplitAtIndex.length (TranslateData.mk r.1 r.2) = SplitAtIndex.length d := h5.symm
    refine ⟨r, hr, h4.symm.le, by rw [h6, h4], fun v h7 h8 _ => ?_⟩
    rw [h6] at h8
    simp only at h7 h8
    omega
  · exact List.pairwise_singleton ..
  · intro g hg y _
    rw [List.mem_singleton.mp hg]
    rfl
  · have e : chunkBytes [(TranslationChunk.new dtb vec).recalcMinmax] = bytesOf vec := by
      rw [chunkBytes, List.flatMap_singleton]
      rfl
    rw [e, h3]
    exact List.Perm.refl _

variable [PhysicalMemory M] [LawfulMemory M] [AnswersReads M]

/-- Every byte of a batch without a straddle is delivered by a good delivery, or fails
    for a reason. -/
theorem virtToPhysIter_accounts (mem : M) (dtb : Nat) {reqs : List (Nat × T)} (hfit : ∀ r ∈ reqs, spec.Fits r)
    (hn : spec.NoStraddleBatch fun v => ∃ y ∈ requestBytes reqs, y.1 = v) :
    ∃ o mem', spec.virtToPhysIter mem dtb reqs = some (o, mem') ∧
      spec.Accounts (spec.loneNext (content mem)) dtb reqs o [] := by
  obtain ⟨vec, h1, h2, h3⟩ := spec.accounts_start _ dtb hfit
  refine ⟨_, _, by rw [virtToPhysIter, h1]; rfl, ?_⟩
  exact spec.accounts_walkLoop hn _ 0 mem [] _ _ (by omega) rfl h2 h3

end Jiaa.ArchMMUSpec
