/-
  Jiaa.Architecture.Conservation — no byte of a batch is lost or doubled by the page walk.

  The memory may hold anything and fail any list of reads; a failing list of reads ends
  the walk, and the chunks that are left then go to `out_fail`.

  - `Conserved`: every byte of the requests is in one piece delivered, in one piece
    failed under its own address, or still waits;
  - `conserved_walkLoop`: each round keeps the bytes;
  - `virtToPhysIter_conserves`: at the end nothing waits.
-/

import Jiaa.Architecture.BatchWalk

namespace Jiaa

/-- A memory gives every buffer back with its length: buffers are slices. -/
class KeepsBuffers (M : Type*) [PhysicalMemory M] : Prop where
  length : ∀ (m : M) l, (PhysicalMemory.physReadRawList m l).2.1.map List.length = l.map fun d => d.2.length

instance {M : Type*} [PhysicalMemory M] [LawfulMemory M] : KeepsBuffers M := ⟨LawfulMemory.read_length⟩

namespace TranslationChunk

variable {T β : Type*} [SplitAtIndex T] [lawful : LawfulSplitAtIndex T β]

/-! ## Cuts -/

/-- The pieces of a chunk, wherever it was cut. -/
structure AreParts (c : TranslationChunk T) (gs : List (TranslationChunk T)) : Prop where
  ok : ∀ g ∈ gs, g.Ok
  flat : (gs.flatMap fun g => bytesOf g.vec).Perm (bytesOf c.vec)

theorem collect_parts (s : Nat) : ∀ (n : Nat) (c : TranslationChunk T) (cur : Nat), c.Ok → c.vec ≠ [] →
    SplitAtIndex.length c < n →
    AreParts c ((PageChunkIterator.collect n ⟨some c, cur, s, fun _ _ _ => true, 0⟩).map (·.2)) := by
  intro n
  induction n with
  | zero => intro c cur _ _ h; omega
  | succ n ih =>
    intro c cur hc hne hn
    obtain ⟨l, r, hsplit, hl, -, -, -, hlb, hr⟩ := splitAtInclusive_spec hc hne (PageChunkIterator.endLen cur s 0)
    rw [collect_cons n (next_cut s cur hsplit), List.map_cons]
    rcases hr with ⟨rfl, hall⟩ | ⟨c', rfl, hc', -, hcne, -, hcb⟩
    · rw [collect_none n rfl, List.map_nil]
      refine ⟨by simpa using hl, ?_⟩
      rw [List.filter_eq_self.mpr (by simpa using hall)] at hlb
      simpa using hlb
    · have hlen := length_rest hc hc' hcne hcb
      obtain ⟨ih1, ih2⟩ := ih c' (Address.add cur (Address.add (PageChunkIterator.endLen cur s 0) 1)) hc' hcne (by omega)
      refine ⟨fun g hg => ?_, ?_⟩
      · rcases List.mem_cons.mp hg with rfl | hg
        · exact hl
        · exact ih1 g hg
      · rw [List.flatMap_cons]
        exact (hlb.append (ih2.trans hcb)).trans (List.filter_append_perm _ _)

/-- `page_chunks` keeps the bytes of a chunk. -/
theorem pageChunks_parts {c : TranslationChunk T} (hc : c.Ok) (s : Nat) :
    AreParts c ((pageChunks c c.minAddr s).map (·.2)) := by
  by_cases hne : c.vec = []
  · obtain ⟨l, hgs, hok, hlv, -⟩ := pageChunks_nil hne s
    rw [hgs]
    exact ⟨by simpa using hok, by simp [hlv, hne]⟩
  · exact collect_parts s _ c c.minAddr hc hne (by omega)

end TranslationChunk

namespace ArchMMUSpec

open TranslationChunk

variable {M T β : Type*} [SplitAtIndex T] [lawful : LawfulSplitAtIndex T β] (spec : ArchMMUSpec)

/-! ## Bytes delivered, failed and waiting -/

/-- `delivered` gives every piece of `out` the virtual address it was asked for at. -/
def Conserved (reqs : List (Nat × T)) (o : Outputs T) (waiting : List (Nat × β)) : Prop :=
  ∃ delivered : List (Nat × T), delivered.map (·.2) = o.out.map (·.2) ∧
    (requestBytes delivered ++ failBytes o.outFail ++ waiting).Perm (requestBytes reqs)

namespace Conserved

variable {reqs : List (Nat × T)} {o : Outputs T} {w w' : List (Nat × β)} {g : TranslationChunk T}

theorem perm (h : Conserved reqs o w) (hp : w.Perm w') : Conserved reqs o w' := by
  obtain ⟨ds, h1, h2⟩ := h
  exact ⟨ds, h1, (hp.symm.append_left _).trans h2⟩

theorem fail (h : Conserved reqs o (bytesOf g.vec ++ w)) (err : Error) : Conserved reqs (o.failChunk err g) w := by
  obtain ⟨ds, h1, h2⟩ := h
  refine ⟨ds, h1, ?_⟩
  rw [failBytes_failChunk]
  simpa only [List.append_assoc] using h2

theorem deliver (h : Conserved reqs o (bytesOf g.vec ++ w)) (f : TranslateData T → PhysicalAddress) :
    Conserved reqs { o with out := o.out ++ g.vec.map fun d => (f d, d.buf) } w := by
  obtain ⟨ds, h1, h2⟩ := h
  refine ⟨ds ++ g.vec.map fun d => (d.addr, d.buf), ?_, ?_⟩
  · rw [List.map_append, List.map_append, h1, List.map_map, List.map_map]
    rfl
  · have hb : requestBytes (g.vec.map fun d => (d.addr, d.buf)) = (bytesOf g.vec : List (Nat × β)) := by
      rw [requestBytes, List.flatMap_map]
      rfl
    rw [requestBytes, List.flatMap_append, ← requestBytes, ← requestBytes, hb]
    refine List.Perm.trans ?_ h2
    simp only [List.append_assoc]
    exact (List.perm_append_comm_assoc _ _ _).append_left _

end Conserved

/-! ## The rounds -/

section Rounds

variable {reqs : List (Nat × T)}

/-- One chunk of a step: its bytes fail, are delivered, or go to its parts. -/
theorem conserved_stepChunk (step i : Nat) {o : Outputs T} {g : TranslationChunk T} (hg : g.Ok) {w : List (Nat × β)}
    (h : Conserved reqs o (bytesOf g.vec ++ w)) :
    Conserved reqs (spec.stepChunk step i o g).1 (chunkBytes (spec.stepCut step g) ++ w) ∧
      ∀ x ∈ spec.stepCut step g, x.Ok := by
  unfold stepChunk stepCut
  by_cases hc : spec.checkEntry g.ptAddr step = true
  · by_cases hf : spec.isFinalMapping g.ptAddr step = true
    · simp only [hc, hf, Bool.not_true, Bool.false_eq_true, if_false, if_true]
      exact ⟨h.deliver _, by simp⟩
    · simp only [hc, hf, Bool.not_true, Bool.false_eq_true, if_false]
      obtain ⟨hok, hflat⟩ := pageChunks_parts hg (spec.pageSizeStepUnchecked (step + 1))
      refine ⟨h.perm (List.Perm.append_right _ ?_), fun x hx => ?_⟩
      · refine hflat.symm.trans (List.Perm.of_eq ?_)
        simp only [chunkBytes, cutChunk, List.flatMap_map]
      · obtain ⟨p, hp, rfl⟩ := List.mem_map.mp hx
        have h1 := hok p.2 (List.mem_map_of_mem hp)
        exact ⟨h1.pieces, h1.bounds, h1.exact⟩
  · simp only [hc, Bool.not_false, if_true]
    exact ⟨h.fail _, by simp⟩

theorem conserved_visit_step (step : Nat) (l : List (TranslationChunk T)) :
    ∀ (o : Outputs T) (w : List (Nat × β)), (∀ g ∈ l, g.Ok) → Conserved reqs o (chunkBytes l ++ w) →
    Conserved reqs (Lib.RevLoop.visit (spec.stepChunk step) o l).1 (chunkBytes (l.flatMap (spec.stepCut step)) ++ w) ∧
      ∀ x ∈ l.flatMap (spec.stepCut step), x.Ok := by
  induction l with
  | nil => intro o w _ h; exact ⟨h, by simp⟩
  | cons g l ih =>
    intro o w hok h
    have h1 : Conserved reqs o (bytesOf g.vec ++ (chunkBytes l ++ w)) := by
      simpa only [chunkBytes, List.flatMap_cons, List.append_assoc] using h
    obtain ⟨h2, hok2⟩ := spec.conserved_stepChunk step l.length (hok g (List.mem_cons_self ..)) h1
    obtain ⟨h3, hok3⟩ := ih _ _ (fun x hx => hok x (List.mem_cons_of_mem _ hx))
      (h2.perm (List.perm_append_comm_assoc _ _ _))
    refine ⟨?_, fun x hx => ?_⟩
    · rw [List.flatMap_cons, chunkBytes_append, List.append_assoc]
      exact h3.perm (List.perm_append_comm_assoc _ _ _)
    · rw [List.flatMap_cons, List.mem_append] at hx
      exact hx.elim (hok2 x) (hok3 x)

/-- The first half of a round. -/
theorem conserved_sort (step : Nat) {o : Outputs T} {cs : List (TranslationChunk T)} (hok : ∀ g ∈ cs, g.Ok)
    (h : Conserved reqs o (chunkBytes cs)) :
    Conserved reqs (Lib.RevLoop.drainRev (spec.stepChunk step) cs.length o cs).1
        (chunkBytes (Lib.RevLoop.drainRev (spec.stepChunk step) cs.length o cs).2) ∧
      (∀ g ∈ (Lib.RevLoop.drainRev (spec.stepChunk step) cs.length o cs).2, g.Ok) ∧
      (step < spec.splitCount → (Lib.RevLoop.drainRev (spec.stepChunk step) cs.length o cs).2 ≠ [] →
        step + 1 < spec.splitCount) := by
  obtain ⟨h1, h2⟩ := Lib.RevLoop.drainRev_visit (spec.stepChunk step) cs.reverse o []
  simp only [List.length_reverse, List.reverse_reverse, List.append_nil] at h1 h2
  rw [spec.visit_stepChunk] at h2
  obtain ⟨h3, hok3⟩ := spec.conserved_visit_step step cs.reverse o [] (fun g hg => hok g (List.mem_reverse.mp hg))
    (h.perm (by rw [List.append_nil]; exact chunkBytes_perm (List.reverse_perm cs).symm))
  refine ⟨?_, fun g hg => hok3 g (h2.subset hg), fun hs hne => ?_⟩
  · rw [h1]
    rw [List.append_nil] at h3
    exact h3.perm (chunkBytes_perm h2.symm)
  · obtain ⟨x, hx⟩ := List.exists_mem_of_ne_nil _ hne
    obtain ⟨g, -, hxg⟩ := List.mem_flatMap.mp (h2.subset hx)
    exact spec.succ_lt_of_not_final hs (spec.mem_stepCut hxg).2.1

/-- The loop over the entries read, one for each chunk to come. -/
theorem conserved_visit_filter (step : Nat) (l : List (TranslationChunk T)) :
    ∀ (st : PtRead T) (w : List (Nat × β)), st.ptRead.length = l.length → (∀ g ∈ l, g.Ok) →
    Conserved reqs st.outputs (chunkBytes l ++ w) →
    Conserved reqs (Lib.RevLoop.visit (spec.filterEntry step) st l).1.outputs
        (chunkBytes (Lib.RevLoop.visit (spec.filterEntry step) st l).2 ++ w) ∧
      ∀ g ∈ (Lib.RevLoop.visit (spec.filterEntry step) st l).2, g.Ok := by
  induction l with
  | nil => intro st w _ _ h; exact ⟨h, by simp [Lib.RevLoop.visit]⟩
  | cons g l ih =>
    intro st w hlen hok h
    obtain ⟨pre, b, hpre⟩ : ∃ pre b, st.ptRead = pre ++ [b] := by
      refine ⟨st.ptRead.dropLast, st.ptRead.getLast (fun e => by rw [e] at hlen; cases hlen), ?_⟩
      exact (List.dropLast_append_getLast _).symm
    have hprelen : pre.length = l.length := by
      rw [hpre, List.length_append, List.length_singleton, List.length_cons] at hlen
      omega
    have hrem : Lib.RevLoop.swapRemove st.ptRead l.length = some (b, pre) := by
      obtain ⟨suf, h1, h2⟩ := Lib.RevLoop.swapRemove_append pre [] b
      rw [List.perm_nil.mp h2, List.append_nil, hprelen] at h1
      rw [hpre, h1]
    have hok' : ∀ x ∈ l, x.Ok := fun x hx => hok x (List.mem_cons_of_mem _ hx)
    have h1 : Conserved reqs st.outputs (bytesOf g.vec ++ (chunkBytes l ++ w)) := by
      simpa only [chunkBytes, List.flatMap_cons, List.append_assoc] using h
    simp only [Lib.RevLoop.visit, filterEntry, hrem]
    split
    · have h2 : Conserved reqs st.outputs (chunkBytes l ++ (bytesOf g.vec ++ w)) :=
        h1.perm (List.perm_append_comm_assoc _ _ _)
      obtain ⟨h3, h4⟩ := ih ⟨pre, some (leU64 (b.take 8)), st.prevAddr.toList ++ st.addrMap, st.outputs⟩ _ hprelen hok' h2
      refine ⟨?_, fun x hx => ?_⟩
      · simp only [List.singleton_append, chunkBytes, List.flatMap_cons, List.append_assoc] at h3 ⊢
        exact h3.perm (List.perm_append_comm_assoc _ _ _)
      · rcases List.mem_append.mp hx with hx | hx
        · rw [List.mem_singleton.mp hx]
          have h5 := hok g (List.mem_cons_self ..)
          exact ⟨h5.pieces, h5.bounds, h5.exact⟩
        · exact h4 x hx
    · rw [List.nil_append]
      exact ih ⟨pre, st.prevAddr, st.addrMap, st.outputs.failChunk Error.virtualTranslate g⟩ w hprelen hok' (h1.fail _)

theorem conserved_failAll (err : Error) (l : List (TranslationChunk T)) : ∀ {o : Outputs T} {w : List (Nat × β)},
    Conserved reqs o (chunkBytes l ++ w) → Conserved reqs (l.foldl (fun o g => o.failChunk err g) o) w := by
  induction l with
  | nil => intro o w h; exact h
  | cons g l ih =>
    intro o w h
    refine ih (Conserved.fail ?_ err)
    simpa only [chunkBytes, List.flatMap_cons, List.append_assoc] using h

end Rounds

/-! ## The walk -/

section Walk

variable [PhysicalMemory M] {reqs : List (Nat × T)}

/-- The rounds from `ptStep` on up to a list of reads that fails: its error, the outputs
    before it and the chunks left. -/
def abortLoop : Nat → Nat → M → List UInt8 → Outputs T → List (TranslationChunk T) →
    Option (Error × Outputs T × List (TranslationChunk T))
  | 0, _, _, _, _, _ => none
  | rounds + 1, ptStep, mem, ptBuf, o, data =>
    let (o, data) := Lib.RevLoop.drainRev (spec.stepChunk ptStep) data.length o data
    if data.isEmpty then none
    else
      match spec.readPtAddressIter mem ptStep data ptBuf o with
      | (_, _, .error err) => some (err, o, data)
      | (mem, ptBuf, .ok (data, o)) => abortLoop rounds (ptStep + 1) mem ptBuf o data

/-- Where the walk of a batch is ended by the memory. -/
def abortOf (mem : M) (dtb : Nat) (addrs : List (Nat × T)) : Option (Error × Outputs T × List (TranslationChunk T)) :=
  (spec.filterAll addrs [] []).bind fun (vec, outFail) =>
    spec.abortLoop spec.splitCount 0 mem [] ⟨[], outFail⟩ [(TranslationChunk.new dtb vec).recalcMinmax]

omit [PhysicalMemory M] [SplitAtIndex T] in
theorem length_ptReads (step : Nat) (cs : List (TranslationChunk T)) (ptBuf : List UInt8) :
    (spec.ptReads step cs ptBuf).length = cs.length := by
  unfold ptReads
  rw [List.length_zipWith, length_entryBufs, Nat.min_self]

/-- The second half of a round over a memory that answers. -/
theorem conserved_read [KeepsBuffers M] {mem mem' : M} {step : Nat} {cs cs' : List (TranslationChunk T)}
    {ptBuf ptBuf' : List UInt8} {o o' : Outputs T} (hok : ∀ g ∈ cs, g.Ok) (h : Conserved reqs o (chunkBytes cs))
    (hr : spec.readPtAddressIter mem step cs ptBuf o = (mem', ptBuf', .ok (cs', o'))) :
    Conserved reqs o' (chunkBytes cs') ∧ ∀ g ∈ cs', g.Ok := by
  have hlen := congrArg List.length (KeepsBuffers.length mem (spec.ptReads step cs ptBuf))
  rw [List.length_map, List.length_map, length_ptReads] at hlen
  unfold readPtAddressIter at hr
  rcases hread : PhysicalMemory.physReadRawList mem (spec.ptReads step cs ptBuf) with ⟨m, bufs, _ | u⟩
  · simp only [hread] at hr
    cases hr
  · simp only [hread] at hr hlen
    obtain ⟨h1, h2⟩ := Lib.RevLoop.drainRev_visit (spec.filterEntry step) cs.reverse ⟨bufs, none, [], o⟩ []
    simp only [List.length_reverse, List.reverse_reverse, List.append_nil] at h1 h2
    simp only [Prod.mk.injEq, Except.ok.injEq] at hr
    obtain ⟨-, -, rfl, rfl⟩ := hr
    obtain ⟨h3, h4⟩ := spec.conserved_visit_filter step cs.reverse ⟨bufs, none, [], o⟩ []
      (by rw [List.length_reverse]; exact hlen) (fun g hg => hok g (List.mem_reverse.mp hg))
      (h.perm (by rw [List.append_nil]; exact chunkBytes_perm (List.reverse_perm cs).symm))
    rw [List.append_nil] at h3
    exact ⟨h1 ▸ h3.perm (chunkBytes_perm h2.symm), fun g hg => h4 g (h2.subset hg)⟩

/-- The rounds from `step` on. -/
theorem conserved_walkLoop [KeepsBuffers M] : ∀ (rounds step : Nat) (mem : M) (ptBuf : List UInt8) (o : Outputs T)
    (cs : List (TranslationChunk T)), step + rounds = spec.splitCount → step < spec.splitCount → (∀ g ∈ cs, g.Ok) →
    Conserved reqs o (chunkBytes cs) →
    Conserved reqs (spec.walkLoop rounds step mem ptBuf o cs).1 [] ∧
      ∀ err before left, spec.abortLoop rounds step mem ptBuf o cs = some (err, before, left) →
        Conserved reqs before (chunkBytes left) ∧
        (spec.walkLoop rounds step mem ptBuf o cs).1 = left.foldl (fun o g => o.failChunk err g) before := by
  intro rounds
  induction rounds with
  | zero => intro step mem ptBuf o cs h1 h2; omega
  | succ rounds ih =>
    intro step mem ptBuf o cs hs hlt hok h
    obtain ⟨h1, hok1, hlast⟩ := spec.conserved_sort step hok h
    unfold walkLoop abortLoop
    generalize Lib.RevLoop.drainRev (spec.stepChunk step) cs.length o cs = r at h1 hok1 hlast
    obtain ⟨o1, cs1⟩ := r
    simp only at h1 hok1 hlast ⊢
    by_cases he : cs1.isEmpty = true
    · rw [if_pos he, if_pos he]
      rw [List.isEmpty_iff.mp he] at h1
      exact ⟨h1, nofun⟩
    · rw [if_neg he, if_neg he]
      rcases hr : spec.readPtAddressIter mem step cs1 ptBuf o1 with ⟨mem', ptBuf', e | ⟨cs', o'⟩⟩
      · -- the memory failed: what is left goes to `out_fail`
        refine ⟨conserved_failAll e cs1 (by rw [List.append_nil]; exact h1), fun err before left hab => ?_⟩
        simp only [Option.some.injEq, Prod.mk.injEq] at hab
        obtain ⟨rfl, rfl, rfl⟩ := hab
        exact ⟨h1, rfl⟩
      · obtain ⟨h2, hok2⟩ := spec.conserved_read hok1 h1 hr
        exact ih (step + 1) mem' ptBuf' o' cs' (by omega) (hlast hlt (by simpa using he)) hok2 h2

end Walk

/-! ## Requests -/

/-- Where the part of a request in the upper half would start. -/
def highStart (r : Nat × T) : Nat := r.1 + (min (SplitAtIndex.length r.2) (2 ^ (spec.addrSize * 8)) - spec.virtRange + 1)

/-- A request the filter accepts: not empty, not wrapping, and where it is longer than one
    half, long enough to have a part in the upper half, which is canonical. -/
structure Accepted (r : Nat × T) : Prop where
  pos : 0 < SplitAtIndex.length r.2
  no_wrap : r.1 + SplitAtIndex.length r.2 < 2 ^ 64
  high : spec.virtRange < SplitAtIndex.length r.2 →
    2 * spec.virtRange ≤ min (SplitAtIndex.length r.2) (2 ^ (spec.addrSize * 8)) ∧
      spec.highStart r &&& Address.bitMask (spec.virtAddrBitRange 0).2 (spec.addrSize * 8 - 1) =
        Address.bitMask (spec.virtAddrBitRange 0).2 (spec.addrSize * 8 - 1)

theorem failBytes_rejected (l : List (TranslateData T)) :
    failBytes (l.map fun d => (Error.virtualTranslate, d.addr, d.buf)) = bytesOf l := by
  rw [failBytes, List.flatMap_map]
  rfl

theorem virtAddrFilter_accepted {a : Nat} {b : T} (h : spec.Accepted (a, b)) (validOut : List (TranslateData T))
    (failOut : List (Error × Nat × T)) :
    ∃ vec fails, spec.virtAddrFilter a b validOut failOut = some (validOut ++ vec, failOut ++ fails) ∧
      (∀ d ∈ vec, Piece d) ∧ (bytesOf vec ++ failBytes fails).Perm (at64 a (bytes b)) := by
  obtain ⟨hpos, hwrap, hhigh⟩ := h
  unfold highStart at hhigh
  simp only at hpos hwrap hhigh
  have hr2 := spec.two_le_virtRange
  by_cases hhalf : SplitAtIndex.length b ≤ spec.virtRange
  · obtain ⟨d, ha, hd, hrun⟩ := spec.virtAddrFilter_short a hhalf validOut failOut
    have hsize := hd.size
    refine ⟨[d], [], by rw [hrun, if_pos hpos, List.append_nil], ?_, ?_⟩
    · intro x hx
      rw [List.mem_singleton.mp hx]
      exact ⟨by omega, by omega⟩
    · rw [bytesOf, List.flatMap_singleton, hd.all]
      exact List.Perm.of_eq (List.append_nil _)
  · obtain ⟨hlong, htest⟩ := hhigh (by omega)
    obtain ⟨lower, mid, high, reject, hla, hlow, hmid, hha, hhigh, hrej, hrun⟩ :=
      spec.virtAddrFilter_long a (by omega) hlong validOut failOut
    have hlsize := hlow.size
    have hhsize := hhigh.size
    rw [Nat.mod_eq_of_lt (by omega)] at hha
    refine ⟨[lower, high], _, by rw [hrun, if_pos (by rw [hha]; exact htest)], ?_, ?_⟩
    · intro d hd
      simp only [List.mem_cons, List.not_mem_nil, or_false] at hd
      rcases hd with rfl | rfl
      · exact ⟨by omega, by omega⟩
      · exact ⟨by omega, by omega⟩
    · rw [failBytes_rejected, ← spec.long_flat hlong hlow hmid hhigh hrej]
      simp only [bytesOf, List.flatMap_cons, List.flatMap_nil, List.flatMap_append, List.append_nil, List.append_assoc]
      refine List.Perm.append_left _ ?_
      rw [← List.append_assoc]
      exact List.perm_append_comm

theorem filterAll_accepted (reqs : List (Nat × T)) : ∀ (validOut : List (TranslateData T))
    (failOut : List (Error × Nat × T)), (∀ r ∈ reqs, spec.Accepted r) →
    ∃ vec fails, spec.filterAll reqs validOut failOut = some (validOut ++ vec, failOut ++ fails) ∧
      (∀ d ∈ vec, Piece d) ∧ (bytesOf vec ++ failBytes fails).Perm (requestBytes reqs) := by
  induction reqs with
  | nil => intro v f _; exact ⟨[], [], by simp [filterAll], by simp, List.Perm.refl _⟩
  | cons r reqs ih =>
    intro v f h
    obtain ⟨vec, fails, h1, h2, h3⟩ := spec.virtAddrFilter_accepted (h r (List.mem_cons_self ..)) v f
    obtain ⟨vec', fails', k1, k2, k3⟩ := ih (v ++ vec) (f ++ fails) fun x hx => h x (List.mem_cons_of_mem _ hx)
    refine ⟨vec ++ vec', fails ++ fails', ?_, ?_, ?_⟩
    · simp only [filterAll, h1, Option.bind_some, k1, List.append_assoc]
    · intro d hd
      exact (List.mem_append.mp hd).elim (h2 d) (k2 d)
    · rw [requestBytes, List.flatMap_cons, bytesOf, List.flatMap_append, failBytes_append]
      refine List.Perm.trans ?_ (h3.append k3)
      simp only [bytesOf, List.append_assoc]
      exact List.Perm.append_left _ (List.perm_append_comm_assoc _ _ _)

/-- No byte of accepted requests is lost or doubled, whatever the memory holds and fails;
    when it fails a list of reads, all that was not resolved fails with its error. -/
theorem virtToPhysIter_conserves [PhysicalMemory M] [KeepsBuffers M] (mem : M) (dtb : Nat) (reqs : List (Nat × T))
    (hacc : ∀ r ∈ reqs, spec.Accepted r) :
    ∃ o mem', spec.virtToPhysIter mem dtb reqs = some (o, mem') ∧ Conserved reqs o [] ∧
      ∀ err before left, spec.abortOf mem dtb reqs = some (err, before, left) →
        Conserved reqs before (chunkBytes left) ∧ o.out = before.out ∧
        o.outFail = before.outFail ++ left.flatMap fun g => g.vec.map fun d => (err, d.addr, d.buf) := by
  obtain ⟨vec, fails, h1, h2, h3⟩ := spec.filterAll_accepted reqs [] [] hacc
  rw [List.nil_append, List.nil_append] at h1
  have hstart : Conserved reqs ⟨[], fails⟩ (chunkBytes [(TranslationChunk.new dtb vec).recalcMinmax]) := by
    refine ⟨[], rfl, ?_⟩
    rw [chunkBytes, List.flatMap_singleton]
    exact List.perm_append_comm.trans h3
  have hok : ∀ g ∈ [(TranslationChunk.new dtb vec).recalcMinmax], g.Ok := by
    intro g hg
    rw [List.mem_singleton.mp hg]
    exact ok_of_folds (List.Perm.refl _) h2 dtb
  have hpos : 0 < spec.splitCount := by
    have := spec.two_le_splits
    unfold splitCount
    omega
  obtain ⟨k1, k2⟩ := spec.conserved_walkLoop spec.splitCount 0 mem [] ⟨[], fails⟩ _ (by omega) hpos hok hstart
  refine ⟨_, _, by rw [virtToPhysIter, h1]; rfl, k1, fun err before left hab => ?_⟩
  unfold abortOf at hab
  rw [h1] at hab
  obtain ⟨k3, k4⟩ := k2 err before left hab
  have hfold : ∀ (l : List (TranslationChunk T)) (o : Outputs T),
      (l.foldl (fun o g => o.failChunk err g) o).out = o.out ∧
        (l.foldl (fun o g => o.failChunk err g) o).outFail =
          o.outFail ++ l.flatMap fun g => g.vec.map fun d => (err, d.addr, d.buf) := by
    intro l
    induction l with
    | nil => intro o; exact ⟨rfl, (List.append_nil _).symm⟩
    | cons g l ih =>
      intro o
      obtain ⟨h5, h6⟩ := ih (o.failChunk err g)
      refine ⟨h5, ?_⟩
      rw [List.foldl_cons, h6, List.flatMap_cons, ← List.append_assoc]
      rfl
  exact ⟨k3, by rw [k4]; exact (hfold left before).1, by rw [k4]; exact (hfold left before).2⟩

/-- Two requests, one of them of a page that is not mapped. -/
theorem virtToPhysIter_conserves_unmapped :
    ∃ o mem', x64.virtToPhysIter (⟨fun _ => 0⟩ : FlatMemory) 0x1000
        [(0x2fff, (⟨0, 0, 2⟩ : SliceMut)), (0, (⟨1, 0, 3⟩ : SliceMut))] = some (o, mem') ∧
      Conserved [(0x2fff, (⟨0, 0, 2⟩ : SliceMut)), (0, (⟨1, 0, 3⟩ : SliceMut))] o [] := by
  obtain ⟨o, mem', h1, h2, -⟩ := x64.virtToPhysIter_conserves (⟨fun _ => 0⟩ : FlatMemory) 0x1000
    [(0x2fff, (⟨0, 0, 2⟩ : SliceMut)), (0, (⟨1, 0, 3⟩ : SliceMut))] (by
      intro r hr
      simp only [List.mem_cons, List.not_mem_nil, or_false] at hr
      rcases hr with rfl | rfl <;> exact ⟨by decide, by decide, fun h => absurd h (by decide)⟩)
  exact ⟨o, mem', h1, h2⟩

end ArchMMUSpec

end Jiaa
