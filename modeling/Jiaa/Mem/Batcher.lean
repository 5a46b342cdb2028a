/-
  Jiaa.Mem.Batcher — lists of reads and writes that are queued and then committed
  (memflow `mem/virt_mem_batcher.rs`, `mem/phys_mem_batcher.rs`).

  Both batchers are one: `commit_rw` reads what is queued for reading, then writes what is
  queued for writing, clears a list only after its call returned `Ok` and stops at the
  first error; the drop commits once more and ignores the result. `History` is what was
  queued and what was asked of the memory, in order, with the results.

  - `recorded_run`: keeping the history changes nothing;
  - `batchers_submitOnce`: in a run where no list before the drop is left behind by a call
    that did something, and the reads of the drop do not keep it from its writes, every
    queued write is submitted once, and nothing again that was carried out;
  - `batchers_not_submitOnce`: a partial read loses the writes, a failed write is
    submitted again.
-/

import Jiaa.Architecture.Translation
import Jiaa.Mem.VirtMem
import Mathlib.Data.List.Induction
import Mathlib.Data.List.Perm.Subperm

namespace Jiaa

/-! ## The batcher -/

/-- The two calls on what a batcher borrows. -/
structure ListCalls (S R W E : Type) where
  readRawList : S → List R → Option (S × Except E Unit)
  writeRawList : S → List W → Option (S × Except E Unit)

structure MemoryBatcher (S R W : Type) where
  mem : S
  readList : List R
  writeList : List W

namespace MemoryBatcher

variable {S R W E : Type}

def new (mem : S) : MemoryBatcher S R W := ⟨mem, [], []⟩

def readRawIter (self : MemoryBatcher S R W) (iter : List R) : MemoryBatcher S R W :=
  { self with readList := self.readList ++ iter }

def writeRawIter (self : MemoryBatcher S R W) (iter : List W) : MemoryBatcher S R W :=
  { self with writeList := self.writeList ++ iter }

/-- The first half of `commit_rw`. -/
def commitReads (calls : ListCalls S R W E) (self : MemoryBatcher S R W) :
    Option (MemoryBatcher S R W × Except E Unit) :=
  if self.readList.isEmpty then some (self, .ok ())
  else (calls.readRawList self.mem self.readList).map fun (mem, res) =>
    match res with
    | .ok () => ({ self with mem := mem, readList := [] }, .ok ())
    | .error e => ({ self with mem := mem }, .error e)

def commitWrites (calls : ListCalls S R W E) (self : MemoryBatcher S R W) :
    Option (MemoryBatcher S R W × Except E Unit) :=
  if self.writeList.isEmpty then some (self, .ok ())
  else (calls.writeRawList self.mem self.writeList).map fun (mem, res) =>
    match res with
    | .ok () => ({ self with mem := mem, writeList := [] }, .ok ())
    | .error e => ({ self with mem := mem }, .error e)

def commitRw (calls : ListCalls S R W E) (self : MemoryBatcher S R W) :
    Option (MemoryBatcher S R W × Except E Unit) :=
  (self.commitReads calls).bind fun (self, res) =>
    match res with
    | .error e => some (self, .error e)
    | .ok () => self.commitWrites calls

def drop (calls : ListCalls S R W E) (self : MemoryBatcher S R W) : Option S :=
  (self.commitRw calls).map fun (self, _) => self.mem

end MemoryBatcher

/-- What a batcher borrows: the memory, and the buffers of its reads. -/
structure Borrowed (T : Type) where
  mem : T
  heap : Loc → UInt8

namespace VirtualMemoryBatcher

variable {T : Type} [VirtualMemory T]

def calls : ListCalls (Borrowed T) (Nat × SliceMut) (Nat × List UInt8) (PartialError Unit) where
  readRawList vmem l :=
    (VirtualMemory.virtReadRawList vmem.mem (l.map fun d => (d.1, d.2.locs.map vmem.heap))).map fun (mem, bufs, res) =>
      (⟨mem, copyAll vmem.heap ((l.map (·.2)).zip bufs)⟩, res)
  writeRawList vmem l :=
    (VirtualMemory.virtWriteRawList vmem.mem l).map fun (mem, res) => ({ vmem with mem := mem }, res)

/-- The errors of a call that did something. -/
def isPartial : PartialError Unit → Bool
  | .error _ => false
  | .partialVirtualRead _ => true
  | .partialVirtualWrite => true

end VirtualMemoryBatcher

namespace PhysicalMemoryBatcher

variable {T : Type} [PhysicalMemory T]

def calls : ListCalls (Borrowed T) (PhysicalAddress × SliceMut) (PhysicalAddress × List UInt8) Error where
  readRawList pmem l :=
    let (mem, bufs, res) := PhysicalMemory.physReadRawList pmem.mem (l.map fun d => (d.1, d.2.locs.map pmem.heap))
    some (⟨mem, copyAll pmem.heap ((l.map (·.2)).zip bufs)⟩, res)
  writeRawList pmem l :=
    let (mem, res) := PhysicalMemory.physWriteRawList pmem.mem l
    some ({ pmem with mem := mem }, res)

/-- Its errors are all hard. -/
def isPartial (_ : Error) : Bool := false

end PhysicalMemoryBatcher

/-! ## Runs -/

/-- The calls of a batcher's user; the other queueing functions queue a list of one. -/
inductive BatcherOp (R W : Type) where
  | readRawIter (iter : List R)
  | writeRawIter (iter : List W)
  | commitRw

inductive BatchEvent (R W E : Type) where
  | queuedReads (iter : List R)
  | queuedWrites (iter : List W)
  | readRawList (list : List R) (res : Except E Unit)
  | writeRawList (list : List W) (res : Except E Unit)
  deriving DecidableEq

abbrev History (R W E : Type) := List (BatchEvent R W E)

section Runs

variable {S R W E : Type}

namespace MemoryBatcher

def op (calls : ListCalls S R W E) (self : MemoryBatcher S R W) : BatcherOp R W → Option (MemoryBatcher S R W)
  | .readRawIter iter => some (self.readRawIter iter)
  | .writeRawIter iter => some (self.writeRawIter iter)
  | .commitRw => (self.commitRw calls).map (·.1)

end MemoryBatcher

/-- The calls, noted in a history. -/
def ListCalls.recorded (calls : ListCalls S R W E) : ListCalls (S × History R W E) R W E where
  readRawList mem l := (calls.readRawList mem.1 l).map fun (s, res) => ((s, mem.2 ++ [.readRawList l res]), res)
  writeRawList mem l := (calls.writeRawList mem.1 l).map fun (s, res) => ((s, mem.2 ++ [.writeRawList l res]), res)

namespace MemoryBatcher

def note (self : MemoryBatcher (S × History R W E) R W) : BatcherOp R W → MemoryBatcher (S × History R W E) R W
  | .readRawIter iter => { self with mem := (self.mem.1, self.mem.2 ++ [.queuedReads iter]) }
  | .writeRawIter iter => { self with mem := (self.mem.1, self.mem.2 ++ [.queuedWrites iter]) }
  | .commitRw => self

/-- A run of a batcher up to its drop, with its history. -/
def runs (calls : ListCalls S R W E) (mem : S) (ops : List (BatcherOp R W)) :
    Option (MemoryBatcher (S × History R W E) R W) :=
  ops.foldlM (fun self o => (self.note o).op calls.recorded o) (new (mem, []))

def forget (self : MemoryBatcher (S × History R W E) R W) : MemoryBatcher S R W :=
  ⟨self.mem.1, self.readList, self.writeList⟩

end MemoryBatcher

/-! ## What a run submits -/

namespace BatchEvent

def queuedForRead : BatchEvent R W E → List R
  | .queuedReads iter => iter
  | _ => []

def queuedForWrite : BatchEvent R W E → List W
  | .queuedWrites iter => iter
  | _ => []

def written : BatchEvent R W E → List W
  | .writeRawList list _ => list
  | _ => []

/-- A result of a call that carried out its list, fully or partially. -/
def CarriedOut (isPartial : E → Bool) : Except E Unit → Bool
  | .ok () => true
  | .error e => isPartial e

def readDone (isPartial : E → Bool) : BatchEvent R W E → List R
  | .readRawList list res => if CarriedOut isPartial res then list else []
  | _ => []

def writeDone (isPartial : E → Bool) : BatchEvent R W E → List W
  | .writeRawList list res => if CarriedOut isPartial res then list else []
  | _ => []

/-- After `h`, what a call is given and what was carried out were queued: nothing that was
    carried out is submitted again. -/
def NotAgain (isPartial : E → Bool) (h : History R W E) : BatchEvent R W E → Prop
  | .readRawList list _ => (h.flatMap (readDone isPartial) ++ list).Subperm (h.flatMap queuedForRead)
  | .writeRawList list _ => (h.flatMap (writeDone isPartial) ++ list).Subperm (h.flatMap queuedForWrite)
  | _ => True

end BatchEvent

/-- Every queued write is submitted once, and nothing again that was carried out. -/
structure History.Once (isPartial : E → Bool) (h : History R W E) : Prop where
  writes : (h.flatMap BatchEvent.written).Perm (h.flatMap BatchEvent.queuedForWrite)
  notAgain : ∀ l ev r, h = l ++ ev :: r → BatchEvent.NotAgain isPartial l ev

/-- So it is when the batcher is dropped. -/
def SubmitsOnce (calls : ListCalls S R W E) (isPartial : E → Bool) (mem : S) (ops : List (BatcherOp R W)) : Prop :=
  ∀ b, MemoryBatcher.runs calls mem ops = some b → ∀ m, b.drop calls.recorded = some m → m.2.Once isPartial

/-- A call that leaves no list behind that it carried out: a write that is `Ok`, a read that
    is not partial. -/
def BatchEvent.Clean (isPartial : E → Bool) : BatchEvent R W E → Prop
  | .readRawList _ res => ∀ e, res = .error e → isPartial e = false
  | .writeRawList _ res => res = .ok ()
  | _ => True

/-- The calls before the drop are clean, and at the drop no write waits behind a read that
    fails. -/
def CleanRun (calls : ListCalls S R W E) (isPartial : E → Bool) (mem : S) (ops : List (BatcherOp R W)) : Prop :=
  ∀ b, MemoryBatcher.runs calls mem ops = some b →
    (∀ ev ∈ b.mem.2, ev.Clean isPartial) ∧
      ∀ b' e, b.commitReads calls.recorded = some (b', .error e) → b.writeList = []

/-! ## The history changes nothing -/

namespace MemoryBatcher

variable {calls : ListCalls S R W E} {b b' : MemoryBatcher (S × History R W E) R W} {res : Except E Unit}

theorem forget_commitReads (calls : ListCalls S R W E) (b : MemoryBatcher (S × History R W E) R W) :
    (b.commitReads calls.recorded).map (fun x => (x.1.forget, x.2)) = b.forget.commitReads calls := by
  unfold commitReads
  by_cases hl : b.readList.isEmpty
  · rw [if_pos hl, if_pos (show b.forget.readList.isEmpty from hl)]
    rfl
  · rw [if_neg hl, if_neg (show ¬ b.forget.readList.isEmpty from hl)]
    simp only [ListCalls.recorded, Option.map_map]
    refine Option.map_congr fun x _ => ?_
    rcases x with ⟨s, _ | _⟩ <;> rfl

theorem forget_commitWrites (calls : ListCalls S R W E) (b : MemoryBatcher (S × History R W E) R W) :
    (b.commitWrites calls.recorded).map (fun x => (x.1.forget, x.2)) = b.forget.commitWrites calls := by
  unfold commitWrites
  by_cases hl : b.writeList.isEmpty
  · rw [if_pos hl, if_pos (show b.forget.writeList.isEmpty from hl)]
    rfl
  · rw [if_neg hl, if_neg (show ¬ b.forget.writeList.isEmpty from hl)]
    simp only [ListCalls.recorded, Option.map_map]
    refine Option.map_congr fun x _ => ?_
    rcases x with ⟨s, _ | _⟩ <;> rfl

theorem forget_commitRw (calls : ListCalls S R W E) (b : MemoryBatcher (S × History R W E) R W) :
    (b.commitRw calls.recorded).map (fun x => (x.1.forget, x.2)) = b.forget.commitRw calls := by
  unfold commitRw
  rw [← forget_commitReads, Option.map_bind, Option.bind_map]
  refine Option.bind_congr fun x _ => ?_
  rcases x with ⟨b, _ | _⟩
  · rfl
  · exact forget_commitWrites calls b

theorem forget_op (calls : ListCalls S R W E) (b : MemoryBatcher (S × History R W E) R W) (o : BatcherOp R W) :
    ((b.note o).op calls.recorded o).map forget = b.forget.op calls o := by
  cases o with
  | readRawIter iter => rfl
  | writeRawIter iter => rfl
  | commitRw =>
    unfold op
    rw [← forget_commitRw, Option.map_map, Option.map_map]
    rfl

/-- A run without its history is the run. -/
theorem recorded_run (calls : ListCalls S R W E) (mem : S) (ops : List (BatcherOp R W)) :
    (runs calls mem ops).map forget = ops.foldlM (op calls) (new mem) := by
  have hfold : ∀ (ops : List (BatcherOp R W)) (b : MemoryBatcher (S × History R W E) R W),
      (ops.foldlM (fun self o => op calls.recorded (note self o) o) b).map forget = ops.foldlM (op calls) b.forget := by
    intro ops
    induction ops with
    | nil => intro b; rfl
    | cons o ops ih =>
      intro b
      rw [List.foldlM_cons, List.foldlM_cons, ← forget_op]
      simp only [Option.bind_eq_bind, Option.map_bind, Option.bind_map]
      exact Option.bind_congr fun x _ => ih x
  exact hfold ops _

/-! ## Commits -/

theorem commitReads_cases (h : b.commitReads calls.recorded = some (b', res)) :
    (b.readList = [] ∧ b' = b ∧ res = .ok ()) ∨
      (b'.mem.2 = b.mem.2 ++ [.readRawList b.readList res] ∧ b'.writeList = b.writeList ∧
        (res = .ok () → b'.readList = []) ∧ ∀ e, res = .error e → b'.readList = b.readList) := by
  unfold commitReads at h
  by_cases hl : b.readList.isEmpty
  · rw [if_pos hl] at h
    cases h
    exact Or.inl ⟨List.isEmpty_iff.mp hl, rfl, rfl⟩
  · rw [if_neg hl] at h
    obtain ⟨⟨mem, res'⟩, hcall, h⟩ := Option.map_eq_some_iff.mp h
    obtain ⟨⟨s, res''⟩, -, hcall⟩ := Option.map_eq_some_iff.mp hcall
    cases hcall
    right
    cases res' with
    | ok _ => cases h; exact ⟨rfl, rfl, fun _ => rfl, nofun⟩
    | error e => cases h; exact ⟨rfl, rfl, nofun, fun _ _ => rfl⟩

theorem commitWrites_cases (h : b.commitWrites calls.recorded = some (b', res)) :
    (b.writeList = [] ∧ b' = b ∧ res = .ok ()) ∨
      (b'.mem.2 = b.mem.2 ++ [.writeRawList b.writeList res] ∧ b'.readList = b.readList ∧
        (res = .ok () → b'.writeList = [])) := by
  unfold commitWrites at h
  by_cases hl : b.writeList.isEmpty
  · rw [if_pos hl] at h
    cases h
    exact Or.inl ⟨List.isEmpty_iff.mp hl, rfl, rfl⟩
  · rw [if_neg hl] at h
    obtain ⟨⟨mem, res'⟩, hcall, h⟩ := Option.map_eq_some_iff.mp h
    obtain ⟨⟨s, res''⟩, -, hcall⟩ := Option.map_eq_some_iff.mp hcall
    cases hcall
    right
    cases res' with
    | ok _ => cases h; exact ⟨rfl, rfl, fun _ => rfl⟩
    | error e => cases h; exact ⟨rfl, rfl, nofun⟩

/-- Either the reads fail and `commit_rw` stops, or it goes on to the writes. -/
theorem commitRw_cases (h : b.commitRw calls.recorded = some (b', res)) :
    (∃ e, res = .error e ∧ b.commitReads calls.recorded = some (b', .error e)) ∨
      ∃ b1, b.commitReads calls.recorded = some (b1, .ok ()) ∧ b1.commitWrites calls.recorded = some (b', res) := by
  unfold commitRw at h
  obtain ⟨⟨b1, res1⟩, hreads, h⟩ := Option.bind_eq_some_iff.mp h
  cases res1 with
  | error e => cases h; exact Or.inl ⟨e, rfl, hreads⟩
  | ok _ => exact Or.inr ⟨b1, hreads, h⟩

theorem commitReads_extends (h : b.commitReads calls.recorded = some (b', res)) : b.mem.2 <+: b'.mem.2 := by
  rcases commitReads_cases h with ⟨-, rfl, -⟩ | ⟨he, -⟩
  · exact List.prefix_rfl
  · exact ⟨_, he.symm⟩

theorem commitWrites_extends (h : b.commitWrites calls.recorded = some (b', res)) : b.mem.2 <+: b'.mem.2 := by
  rcases commitWrites_cases h with ⟨-, rfl, -⟩ | ⟨he, -⟩
  · exact List.prefix_rfl
  · exact ⟨_, he.symm⟩

theorem op_extends {o : BatcherOp R W} (h : (b.note o).op calls.recorded o = some b') : b.mem.2 <+: b'.mem.2 := by
  cases o with
  | readRawIter iter => cases h; exact List.prefix_append _ _
  | writeRawIter iter => cases h; exact List.prefix_append _ _
  | commitRw =>
    obtain ⟨⟨b1, res⟩, hcommit, rfl⟩ := Option.map_eq_some_iff.mp h
    rcases commitRw_cases hcommit with ⟨e, -, hreads⟩ | ⟨b2, hreads, hwrites⟩
    · exact commitReads_extends hreads
    · exact (commitReads_extends hreads).trans (commitWrites_extends hwrites)

end MemoryBatcher

/-! ## What is queued, waiting and done -/

theorem notAgain_snoc {isPartial : E → Bool} {h : History R W E} {ev : BatchEvent R W E}
    (hh : ∀ l e r, h = l ++ e :: r → BatchEvent.NotAgain isPartial l e) (hev : BatchEvent.NotAgain isPartial h ev) :
    ∀ l e r, h ++ [ev] = l ++ e :: r → BatchEvent.NotAgain isPartial l e := by
  intro l e r he
  rcases List.eq_nil_or_concat r with rfl | ⟨r', ev', rfl⟩
  · obtain ⟨rfl, hlast⟩ := List.append_inj' he rfl
    cases hlast
    exact hev
  · rw [List.concat_eq_append, ← List.cons_append, ← List.append_assoc] at he
    exact hh l e r' (List.append_inj' he rfl).1

/-- What was queued for reading is done or waits, and what was queued for writing was
    submitted, and done, or waits. -/
structure Accounted (isPartial : E → Bool) (b : MemoryBatcher (S × History R W E) R W) : Prop where
  reads : b.mem.2.flatMap (BatchEvent.readDone isPartial) ++ b.readList = b.mem.2.flatMap BatchEvent.queuedForRead
  writes : b.mem.2.flatMap BatchEvent.written ++ b.writeList = b.mem.2.flatMap BatchEvent.queuedForWrite
  done : b.mem.2.flatMap (BatchEvent.writeDone isPartial) = b.mem.2.flatMap BatchEvent.written
  notAgain : ∀ l ev r, b.mem.2 = l ++ ev :: r → BatchEvent.NotAgain isPartial l ev

variable {calls : ListCalls S R W E} {isPartial : E → Bool} {b b' : MemoryBatcher (S × History R W E) R W}
variable {res : Except E Unit}

theorem accounted_new (mem : S) :
    Accounted isPartial (MemoryBatcher.new (mem, []) : MemoryBatcher (S × History R W E) R W) where
  reads := rfl
  writes := rfl
  done := rfl
  notAgain l ev r h := absurd h (by simp [MemoryBatcher.new])

/-- The reads of a commit, whatever their result. -/
theorem Accounted.readsOnce (h : Accounted isPartial b) (hr : b.commitReads calls.recorded = some (b', res)) :
    (∀ l ev r, b'.mem.2 = l ++ ev :: r → BatchEvent.NotAgain isPartial l ev) ∧
      b'.mem.2.flatMap BatchEvent.written ++ b'.writeList = b'.mem.2.flatMap BatchEvent.queuedForWrite ∧
      b'.writeList = b.writeList := by
  rcases MemoryBatcher.commitReads_cases hr with ⟨-, rfl, -⟩ | ⟨he, hw, -, -⟩
  · exact ⟨h.notAgain, h.writes, rfl⟩
  · rw [he, hw]
    refine ⟨notAgain_snoc h.notAgain ?_, ?_, rfl⟩
    · show List.Subperm _ _
      rw [h.reads]
    · simpa [BatchEvent.written, BatchEvent.queuedForWrite] using h.writes

theorem Accounted.commitReads (h : Accounted isPartial b) (hr : b.commitReads calls.recorded = some (b', res))
    (hc : ∀ e, res = .error e → isPartial e = false) : Accounted isPartial b' := by
  obtain ⟨hagain, hwrites, -⟩ := h.readsOnce hr
  rcases MemoryBatcher.commitReads_cases hr with ⟨-, rfl, -⟩ | ⟨he, -, hok, herr⟩
  · exact h
  · refine ⟨?_, hwrites, ?_, hagain⟩
    · rw [he]
      cases res with
      | ok _ =>
        rw [hok rfl]
        simpa [BatchEvent.readDone, BatchEvent.CarriedOut, BatchEvent.queuedForRead] using h.reads
      | error e =>
        rw [herr e rfl]
        simpa [BatchEvent.readDone, BatchEvent.CarriedOut, BatchEvent.queuedForRead, hc e rfl] using h.reads
    · rw [he]
      simpa [BatchEvent.writeDone, BatchEvent.written] using h.done

/-- After the writes of a commit all that was queued for writing was submitted, once. -/
theorem Accounted.writesOnce (h : Accounted isPartial b) (hr : b.commitWrites calls.recorded = some (b', res)) :
    b'.mem.2.Once isPartial := by
  rcases MemoryBatcher.commitWrites_cases hr with ⟨hnil, rfl, -⟩ | ⟨he, -, -⟩
  · refine ⟨?_, h.notAgain⟩
    rw [← h.writes, hnil, List.append_nil]
  · rw [he]
    refine ⟨?_, notAgain_snoc h.notAgain ?_⟩
    · simp only [List.flatMap_append, List.flatMap_singleton, BatchEvent.written, BatchEvent.queuedForWrite,
        List.append_nil, h.writes]
      exact List.Perm.refl _
    · show List.Subperm _ _
      rw [h.done, h.writes]

theorem Accounted.commitWrites (h : Accounted isPartial b) (hr : b.commitWrites calls.recorded = some (b', .ok ())) :
    Accounted isPartial b' := by
  rcases MemoryBatcher.commitWrites_cases hr with ⟨-, rfl, -⟩ | ⟨he, hreads, hok⟩
  · exact h
  · have hagain := (h.writesOnce hr).notAgain
    refine ⟨?_, ?_, ?_, hagain⟩
    · rw [he, hreads]
      simpa [BatchEvent.readDone, BatchEvent.queuedForRead] using h.reads
    · rw [he, hok rfl]
      simpa [BatchEvent.written, BatchEvent.queuedForWrite] using h.writes
    · rw [he]
      simpa [BatchEvent.writeDone, BatchEvent.written, BatchEvent.CarriedOut] using h.done

theorem Accounted.op (h : Accounted isPartial b) {o : BatcherOp R W}
    (ho : (b.note o).op calls.recorded o = some b') (hc : ∀ ev ∈ b'.mem.2, ev.Clean isPartial) :
    Accounted isPartial b' := by
  cases o with
  | readRawIter iter =>
    cases ho
    refine ⟨?_, ?_, ?_, notAgain_snoc h.notAgain trivial⟩
    · simp [MemoryBatcher.note, MemoryBatcher.readRawIter, BatchEvent.readDone, BatchEvent.queuedForRead, ← h.reads]
    · simpa [MemoryBatcher.note, MemoryBatcher.readRawIter, BatchEvent.written, BatchEvent.queuedForWrite] using h.writes
    · simpa [MemoryBatcher.note, MemoryBatcher.readRawIter, BatchEvent.writeDone, BatchEvent.written] using h.done
  | writeRawIter iter =>
    cases ho
    refine ⟨?_, ?_, ?_, notAgain_snoc h.notAgain trivial⟩
    · simpa [MemoryBatcher.note, MemoryBatcher.writeRawIter, BatchEvent.readDone, BatchEvent.queuedForRead] using h.reads
    · simp [MemoryBatcher.note, MemoryBatcher.writeRawIter, BatchEvent.written, BatchEvent.queuedForWrite, ← h.writes]
    · simpa [MemoryBatcher.note, MemoryBatcher.writeRawIter, BatchEvent.writeDone, BatchEvent.written] using h.done
  | commitRw =>
    obtain ⟨⟨b1, res⟩, hcommit, rfl⟩ := Option.map_eq_some_iff.mp ho
    have hcommit : b.commitRw calls.recorded = some (b1, res) := hcommit
    rcases MemoryBatcher.commitRw_cases hcommit with ⟨e, -, hreads⟩ | ⟨b2, hreads, hwrites⟩
    · refine h.commitReads hreads fun e' he' => ?_
      rcases MemoryBatcher.commitReads_cases hreads with ⟨-, -, hok⟩ | ⟨hev, -⟩
      · rw [hok] at he'
        cases he'
      · exact hc (.readRawList b.readList (.error e)) (by rw [hev]; simp) e' he'
    · have h2 := h.commitReads hreads nofun
      rcases MemoryBatcher.commitWrites_cases hwrites with ⟨-, rfl, -⟩ | ⟨hev, -⟩
      · exact h2
      · have hok : res = .ok () := hc (.writeRawList b2.writeList res) (by rw [hev]; simp)
        exact h2.commitWrites (hok ▸ hwrites)

theorem Accounted.run (ops : List (BatcherOp R W)) : ∀ {b b' : MemoryBatcher (S × History R W E) R W},
    Accounted isPartial b →
    ops.foldlM (fun self o => (MemoryBatcher.note self o).op calls.recorded o) b = some b' →
    (∀ ev ∈ b'.mem.2, ev.Clean isPartial) → Accounted isPartial b' := by
  induction ops using List.reverseRecOn with
  | nil => intro b b' h ho _; cases ho; exact h
  | append_singleton ops o ih =>
    intro b b' h ho hc
    rw [List.foldlM_append] at ho
    obtain ⟨b1, h1, ho⟩ := Option.bind_eq_some_iff.mp ho
    rw [List.foldlM_cons] at ho
    obtain ⟨b2, h2, he⟩ := Option.bind_eq_some_iff.mp ho
    cases he
    exact (ih h h1 fun ev hev => hc ev ((MemoryBatcher.op_extends h2).subset hev)).op h2 hc

theorem submitsOnce_of_clean {mem : S} {ops : List (BatcherOp R W)} (hc : CleanRun calls isPartial mem ops) :
    SubmitsOnce calls isPartial mem ops := by
  intro b hb m hm
  obtain ⟨hclean, hdrop⟩ := hc b hb
  have hacc := Accounted.run ops (accounted_new mem) hb hclean
  obtain ⟨⟨b', res⟩, hcommit, rfl⟩ := Option.map_eq_some_iff.mp hm
  rcases MemoryBatcher.commitRw_cases hcommit with ⟨e, -, hreads⟩ | ⟨b1, hreads, hwrites⟩
  · obtain ⟨hagain, hw, hlist⟩ := hacc.readsOnce hreads
    refine ⟨?_, hagain⟩
    rw [← hw, hlist, hdrop b' e hreads, List.append_nil]
  · exact (hacc.commitReads hreads nofun).writesOnce hwrites

/-- The history a run ends with. -/
def finalHistory (calls : ListCalls S R W E) (mem : S) (ops : List (BatcherOp R W)) : Option (History R W E) :=
  (MemoryBatcher.runs calls mem ops).bind fun b => (b.drop calls.recorded).map (·.2)

theorem SubmitsOnce.once {mem : S} {ops : List (BatcherOp R W)} (h : SubmitsOnce calls isPartial mem ops)
    {hist : History R W E} (hrun : finalHistory calls mem ops = some hist) : hist.Once isPartial := by
  obtain ⟨b, hb, hdrop⟩ := Option.bind_eq_some_iff.mp hrun
  obtain ⟨m, hm, rfl⟩ := Option.map_eq_some_iff.mp hdrop
  exact h b hb m hm

end Runs

/-- Both batchers submit every queued write once, and nothing again that was carried out,
    in the runs that are clean. -/
theorem batchers_submitOnce {T U : Type} [VirtualMemory T] [PhysicalMemory U] (vmem : Borrowed T)
    (vops : List (BatcherOp (Nat × SliceMut) (Nat × List UInt8))) (pmem : Borrowed U)
    (pops : List (BatcherOp (PhysicalAddress × SliceMut) (PhysicalAddress × List UInt8))) :
    (CleanRun VirtualMemoryBatcher.calls VirtualMemoryBatcher.isPartial vmem vops →
      SubmitsOnce VirtualMemoryBatcher.calls VirtualMemoryBatcher.isPartial vmem vops) ∧
    (CleanRun PhysicalMemoryBatcher.calls PhysicalMemoryBatcher.isPartial pmem pops →
      SubmitsOnce PhysicalMemoryBatcher.calls PhysicalMemoryBatcher.isPartial pmem pops) :=
  ⟨submitsOnce_of_clean, submitsOnce_of_clean⟩

/-- The first page of an address space is mapped, that of `0x5000` is not. -/
def halfMapped : Borrowed (VirtualDMA FlatMemory DirectTranslate X86ScopedVirtualTranslate) :=
  ⟨⟨ArchMMUSpec.fourPages, ⟨⟩, x64Arch, ⟨x64Arch, 0x1000⟩⟩, fun _ => 7⟩

/-- A memory whose first call fails. -/
def failsFirst : Borrowed FaultyMemory := ⟨⟨fun _ => 0, [true]⟩, fun _ => 7⟩

def readAndWrite (addr : Nat) : List (BatcherOp (Nat × SliceMut) (Nat × List UInt8)) :=
  [.readRawIter [(addr, ⟨0, 0, 1⟩)], .writeRawIter [(0x1, [1])], .commitRw]

def readWriteAgain : List (BatcherOp (PhysicalAddress × SliceMut) (PhysicalAddress × List UInt8)) :=
  [.readRawIter [(⟨0, PageType.none, 0⟩, ⟨0, 0, 1⟩)], .commitRw, .commitRw, .writeRawIter [(⟨0, PageType.none, 0⟩, [1])]]

def writeTwice : List (BatcherOp (PhysicalAddress × SliceMut) (PhysicalAddress × List UInt8)) :=
  [.writeRawIter [(⟨0, PageType.none, 0⟩, [1])], .commitRw]

/-- A run is clean when no read waits at its drop and its calls are. -/
theorem cleanRun_of {S R W E : Type} {calls : ListCalls S R W E} {isPartial : E → Bool} {mem : S}
    {ops : List (BatcherOp R W)} {hist : History R W E}
    (hrun : (MemoryBatcher.runs calls mem ops).map (·.mem.2) = some hist)
    (hnil : (MemoryBatcher.runs calls mem ops).map (·.readList.isEmpty) = some true)
    (hclean : ∀ ev ∈ hist, ev.Clean isPartial) : CleanRun calls isPartial mem ops := by
  intro b hb
  rw [hb, Option.map_some, Option.some.injEq] at hrun hnil
  subst hrun
  refine ⟨hclean, fun b' e hreads => ?_⟩
  unfold MemoryBatcher.commitReads at hreads
  rw [if_pos hnil] at hreads
  cases hreads

theorem batchers_submitOnce_clean :
    SubmitsOnce VirtualMemoryBatcher.calls VirtualMemoryBatcher.isPartial halfMapped (readAndWrite 0x0) ∧
      SubmitsOnce PhysicalMemoryBatcher.calls PhysicalMemoryBatcher.isPartial failsFirst readWriteAgain := by
  have hvirt : (MemoryBatcher.runs VirtualMemoryBatcher.calls halfMapped (readAndWrite 0x0)).map (·.mem.2) =
        some [.queuedReads [(0x0, ⟨0, 0, 1⟩)], .queuedWrites [(0x1, [1])], .readRawList [(0x0, ⟨0, 0, 1⟩)] (.ok ()),
          .writeRawList [(0x1, [1])] (.ok ())] := by
    decide +kernel
  have hphys : (MemoryBatcher.runs PhysicalMemoryBatcher.calls failsFirst readWriteAgain).map (·.mem.2) =
        some [.queuedReads [(⟨0, PageType.none, 0⟩, ⟨0, 0, 1⟩)],
          .readRawList [(⟨0, PageType.none, 0⟩, ⟨0, 0, 1⟩)] (.error (.connector "phys_read_raw_list failed")),
          .readRawList [(⟨0, PageType.none, 0⟩, ⟨0, 0, 1⟩)] (.ok ()), .queuedWrites [(⟨0, PageType.none, 0⟩, [1])]] := by
    decide +kernel
  obtain ⟨hvsub, hpsub⟩ := batchers_submitOnce halfMapped (readAndWrite 0x0) failsFirst readWriteAgain
  refine ⟨hvsub (cleanRun_of hvirt (by decide +kernel) ?_), hpsub (cleanRun_of hphys (by decide +kernel) ?_)⟩
  · simp [BatchEvent.Clean]
  · simp [BatchEvent.Clean, PhysicalMemoryBatcher.isPartial]

/-- A read that is partial is submitted again and keeps the writes back for good; a write
    that fails is submitted again. -/
theorem batchers_not_submitOnce :
    ¬ SubmitsOnce VirtualMemoryBatcher.calls VirtualMemoryBatcher.isPartial halfMapped (readAndWrite 0x5000) ∧
      ¬ SubmitsOnce PhysicalMemoryBatcher.calls PhysicalMemoryBatcher.isPartial failsFirst writeTwice := by
  constructor
  · intro h
    have hrun : finalHistory VirtualMemoryBatcher.calls halfMapped (readAndWrite 0x5000) =
        some [.queuedReads [(0x5000, ⟨0, 0, 1⟩)], .queuedWrites [(0x1, [1])],
          .readRawList [(0x5000, ⟨0, 0, 1⟩)] (.error (.partialVirtualRead ())),
          .readRawList [(0x5000, ⟨0, 0, 1⟩)] (.error (.partialVirtualRead ()))] := by
      decide +kernel
    exact absurd (h.once hrun).writes (by decide)
  · intro h
    have hrun : finalHistory PhysicalMemoryBatcher.calls failsFirst writeTwice =
        some [.queuedWrites [(⟨0, PageType.none, 0⟩, [1])],
          .writeRawList [(⟨0, PageType.none, 0⟩, [1])] (.error (.connector "phys_write_raw_list failed")),
          .writeRawList [(⟨0, PageType.none, 0⟩, [1])] (.ok ())] := by
      decide +kernel
    exact absurd (h.once hrun).writes (by decide)

end Jiaa
