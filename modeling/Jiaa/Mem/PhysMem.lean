/-
  Jiaa.Mem.PhysMem — the trait every memory backend implements
  (memflow `mem/phys_mem.rs`, `mem/phys_mem/...`).

  `PhysicalMemory` is the trait: a list of reads comes back with the buffers as the call
  left them, a list of writes with a result. `LawfulMemory` says what a backend that is
  a memory does: it has `content`, a successful list of reads fills every buffer with
  it, a successful list of writes is stored in order, a failed one not at all. A
  backend may still fail any call; `AnswersReads` and `NeverFails` say that it does not.
-/

import Jiaa.Iter.SplitAtIndex

namespace Jiaa

class PhysicalMemory (M : Type*) where
  physReadRawList : M → List (PhysicalAddress × List UInt8) → M × List (List UInt8) × Except Error Unit
  physWriteRawList : M → List (PhysicalAddress × List UInt8) → M × Except Error Unit

/-! ## Contents -/

/-- The `n` bytes from `a` on. -/
def bytesAt (c : Nat → UInt8) (a n : Nat) : List UInt8 := (List.range n).map fun i => c ((a + i) % 2 ^ 64)

def applyWrite (c : Nat → UInt8) (a : Nat) (l : List UInt8) : Nat → UInt8 :=
  (at64 a l).foldl (fun c y => Function.update c y.1 y.2) c

def applyWrites (c : Nat → UInt8) (l : List (PhysicalAddress × List UInt8)) : Nat → UInt8 :=
  l.foldl (fun c w => applyWrite c w.1.address w.2) c

@[simp] theorem length_bytesAt (c : Nat → UInt8) (a n : Nat) : (bytesAt c a n).length = n := by simp [bytesAt]

theorem getElem?_bytesAt (c : Nat → UInt8) (a : Nat) {n i : Nat} (h : i < n) :
    (bytesAt c a n)[i]? = some (c ((a + i) % 2 ^ 64)) := by
  simp [bytesAt, h]

@[simp] theorem applyWrites_nil (c : Nat → UInt8) : applyWrites c [] = c := rfl

@[simp] theorem applyWrites_cons (c : Nat → UInt8) (w : PhysicalAddress × List UInt8)
    (l : List (PhysicalAddress × List UInt8)) :
    applyWrites c (w :: l) = applyWrites (applyWrite c w.1.address w.2) l := rfl

/-! ## Laws -/

class LawfulMemory (M : Type*) [PhysicalMemory M] where
  content : M → Nat → UInt8
  read_content : ∀ (m : M) l, content (PhysicalMemory.physReadRawList m l).1 = content m
  read_length : ∀ (m : M) l,
    (PhysicalMemory.physReadRawList m l).2.1.map List.length = l.map fun d => d.2.length
  read_ok : ∀ (m : M) l, (PhysicalMemory.physReadRawList m l).2.2 = .ok () →
    (PhysicalMemory.physReadRawList m l).2.1 = l.map fun d => bytesAt (content m) d.1.address d.2.length
  write_ok : ∀ (m : M) l, (PhysicalMemory.physWriteRawList m l).2 = .ok () →
    content (PhysicalMemory.physWriteRawList m l).1 = applyWrites (content m) l
  write_err : ∀ (m : M) l e, (PhysicalMemory.physWriteRawList m l).2 = .error e →
    content (PhysicalMemory.physWriteRawList m l).1 = content m

export LawfulMemory (content)

/-- A memory that answers every read. -/
class AnswersReads (M : Type*) [PhysicalMemory M] : Prop where
  read : ∀ (m : M) l, (PhysicalMemory.physReadRawList m l).2.2 = .ok ()

/-- A memory that answers every read and every write. -/
class NeverFails (M : Type*) [PhysicalMemory M] : Prop extends AnswersReads M where
  write : ∀ (m : M) l, (PhysicalMemory.physWriteRawList m l).2 = .ok ()

/-! ## A memory that is its contents -/

structure FlatMemory where
  bytes : Nat → UInt8

/-- Little-endian words at the given addresses, zero elsewhere. -/
def FlatMemory.ofWords (words : List (Nat × Nat)) : FlatMemory :=
  ⟨fun a => match words.find? fun w => w.1 ≤ a && a < w.1 + 8 with
    | some w => UInt8.ofNat (w.2 >>> (8 * (a - w.1)))
    | none => 0⟩

instance : PhysicalMemory FlatMemory where
  physReadRawList m l := (m, l.map (fun d => bytesAt m.bytes d.1.address d.2.length), .ok ())
  physWriteRawList m l := (⟨applyWrites m.bytes l⟩, .ok ())

instance : LawfulMemory FlatMemory where
  content m := m.bytes
  read_content _ _ := rfl
  read_length m l := by simp [PhysicalMemory.physReadRawList, Function.comp_def]
  read_ok _ _ _ := rfl
  write_ok _ _ _ := rfl
  write_err _ _ _ h := by cases h

instance : NeverFails FlatMemory where
  read _ _ := rfl
  write _ _ := rfl

/-- A memory with, for each call to come, whether it fails. -/
structure FaultyMemory where
  bytes : Nat → UInt8
  faults : List Bool

instance : PhysicalMemory FaultyMemory where
  physReadRawList m l :=
    if m.faults.head? = some true then
      (⟨m.bytes, m.faults.tail⟩, l.map (·.2), .error (.connector "phys_read_raw_list failed"))
    else (⟨m.bytes, m.faults.tail⟩, l.map (fun d => bytesAt m.bytes d.1.address d.2.length), .ok ())
  physWriteRawList m l :=
    if m.faults.head? = some true then (⟨m.bytes, m.faults.tail⟩, .error (.connector "phys_write_raw_list failed"))
    else (⟨applyWrites m.bytes l, m.faults.tail⟩, .ok ())

instance : LawfulMemory FaultyMemory where
  content m := m.bytes
  read_content m l := by
    unfold PhysicalMemory.physReadRawList instPhysicalMemoryFaultyMemory
    dsimp only
    split <;> rfl
  read_length m l := by
    unfold PhysicalMemory.physReadRawList instPhysicalMemoryFaultyMemory
    dsimp only
    split <;> simp [Function.comp_def]
  read_ok m l h := by
    unfold PhysicalMemory.physReadRawList instPhysicalMemoryFaultyMemory at h ⊢
    dsimp only at h ⊢
    split at h
    · cases h
    · rename_i hf; rw [if_neg hf]
  write_ok m l h := by
    unfold PhysicalMemory.physWriteRawList instPhysicalMemoryFaultyMemory at h ⊢
    dsimp only at h ⊢
    split at h
    · cases h
    · rename_i hf; rw [if_neg hf]
  write_err m l e h := by
    unfold PhysicalMemory.physWriteRawList instPhysicalMemoryFaultyMemory at h ⊢
    dsimp only at h ⊢
    split at h
    · rename_i hf; rw [if_pos hf]
    · cases h

/-! ## Little-endian words -/

def leU64 (l : List UInt8) : Nat := l.foldr (fun b acc => b.toNat + 256 * acc) 0

theorem leU64_lt (l : List UInt8) : leU64 l < 256 ^ l.length := by
  induction l with
  | nil => simp [leU64]
  | cons b l ih =>
    have hb : b.toNat < 256 := b.toNat_lt
    simp only [leU64, List.foldr_cons, List.length_cons, Nat.pow_succ] at ih ⊢
    omega

theorem leU64_append (l m : List UInt8) : leU64 (l ++ m) = leU64 l + 256 ^ l.length * leU64 m := by
  induction l with
  | nil => simp [leU64]
  | cons b l ih =>
    simp only [leU64, List.cons_append, List.foldr_cons, List.length_cons, Nat.pow_succ] at ih ⊢
    rw [ih, Nat.mul_add, Nat.mul_comm (256 ^ l.length) 256, Nat.mul_assoc, Nat.add_assoc]

theorem leU64_eq_zero_iff {l : List UInt8} : leU64 l = 0 ↔ ∀ b ∈ l, b = 0 := by
  induction l with
  | nil => simp [leU64]
  | cons b l ih =>
    have hb : b.toNat = 0 ↔ b = 0 := by
      rw [← UInt8.toNat_inj]
      rfl
    simp only [List.forall_mem_cons, ← ih, ← hb]
    simp only [leU64, List.foldr_cons]
    omega

/-- The little-endian word at `a`. -/
def readU64 (c : Nat → UInt8) (a : Nat) : Nat := leU64 (bytesAt c a 8)

end Jiaa
