/-
  Jiaa.Mem.VirtMem — reading and writing virtual memory
  (memflow `mem/virt_mem.rs`, `mem/virt_mem/virtual_dma.rs`, the partial results of
  `error.rs`).

  `VirtualDMA` translates a list of requests, clears the pieces that fail, and reads or
  writes the others. A partial transfer is an error with the data, and `map_data` is how
  the helpers of the trait change the data of a result.

  - `virtMem_reports_iff`: the helpers and the list of writes report what was not
    translated as they should exactly when all of it is translated.
-/

import Jiaa.Lib.Text
import Jiaa.Mem.Buffers
import Jiaa.Mem.VirtTranslate

namespace Jiaa

/-! ## Partial results -/

inductive PartialError (α : Type*) where
  | error (e : Error)
  | partialVirtualRead (data : α)
  | partialVirtualWrite
  deriving DecidableEq

abbrev PartialResult (α : Type*) := Except (PartialError α) α

def PartialResult.mapData {α β : Type*} (self : PartialResult α) (func : α → β) : PartialResult β :=
  match self with
  | .ok data => .ok (func data)
  | .error (.error e) => .error (.error e)
  | .error (.partialVirtualRead data) => .ok (func data)
  | .error .partialVirtualWrite => .error .partialVirtualWrite

/-- The data of a partial read is as good as that of a whole one. -/
def PartialResult.dataPart {α : Type*} (self : PartialResult α) : Except Error α :=
  match self with
  | .ok data => .ok data
  | .error (.partialVirtualRead data) => .ok data
  | .error _ => .error .partialData

/-! ## The trait -/

/-- The two lists of accesses; a read gives the buffers back as it left them. `none` is a
    panic of the translation. -/
class VirtualMemory (W : Type) where
  virtReadRawList : W → List (Nat × List UInt8) → Option (W × List (List UInt8) × PartialResult Unit)
  virtWriteRawList : W → List (Nat × List UInt8) → Option (W × PartialResult Unit)

/-- `Pod`: a value is its bytes. -/
class Pod (α : Type) where
  size : Nat
  ofBytes : List UInt8 → α

instance : Pod UInt16 := ⟨2, fun l => UInt16.ofNat (leU64 l)⟩

instance : Pod Int32 := ⟨4, fun l => (UInt32.ofNat (leU64 l)).toInt32⟩

instance : Pod UInt32 := ⟨4, fun l => UInt32.ofNat (leU64 l)⟩

instance : Pod UInt64 := ⟨8, fun l => UInt64.ofNat (leU64 l)⟩

namespace VirtualMemory

variable {W : Type} [VirtualMemory W]

def virtReadRawInto (self : W) (addr : Nat) (out : List UInt8) : Option (W × List UInt8 × PartialResult Unit) :=
  (virtReadRawList self [(addr, out)]).map fun (self, bufs, res) => (self, bufs.headD [], res)

def virtReadRaw (self : W) (addr len : Nat) : Option (W × PartialResult (List UInt8)) :=
  (virtReadRawInto self addr (List.replicate len 0)).map fun (self, buf, res) => (self, res.mapData fun _ => buf)

/-- `uninit` are the bytes the object holds before the read. -/
def virtRead (α : Type) [Pod α] (self : W) (addr : Nat) (uninit : Fin (Pod.size α) → UInt8) :
    Option (W × PartialResult α) :=
  (virtReadRawInto self addr (List.ofFn uninit)).map fun (self, obj, res) => (self, res.mapData fun _ => Pod.ofBytes obj)

def virtReadAddr32 (self : W) (addr : Nat) (uninit : Fin 4 → UInt8) : Option (W × PartialResult Nat) :=
  (virtRead UInt32 self addr uninit).map fun (self, res) => (self, res.mapData UInt32.toNat)

def virtReadAddr64 (self : W) (addr : Nat) (uninit : Fin 8 → UInt8) : Option (W × PartialResult Nat) :=
  (virtRead UInt64 self addr uninit).map fun (self, res) => (self, res.mapData UInt64.toNat)

/-- `uninit` serves both sizes. -/
def virtReadAddrArch (self : W) (arch : X86Architecture) (addr : Nat) (uninit : Nat → UInt8) :
    Option (W × PartialResult Nat) :=
  if arch.bits = 64 then virtReadAddr64 self addr fun i => uninit i
  else if arch.bits = 32 then virtReadAddr32 self addr fun i => uninit i
  else some (self, .error (.error .invalidArchitecture))

def virtReadCstr (self : W) (addr len : Nat) : Option (W × PartialResult String) :=
  (virtReadRawInto self addr (List.replicate len 0)).map fun (self, buf, res) =>
    (self, match res.dataPart with
      | .ok () => .ok (Lib.Text.fromUtf8Lossy (buf.takeWhile (· != 0)))
      | .error e => .error (.error e))

end VirtualMemory

/-! ## Access through physical memory -/

structure VirtualDMA (M V D : Type) where
  physMem : M
  vat : V
  procArch : X86Architecture
  translator : D

namespace VirtualDMA

variable {M V D : Type} [PhysicalMemory M] [VirtualTranslate V] [ScopedVirtualTranslate D]

/-- The pieces of the buffers of a list of requests. -/
def translate (self : VirtualDMA M V D) (data : List (Nat × List UInt8)) : Option (V × M × Outputs SliceMut) :=
  VirtualTranslate.virtToPhysIter self.vat self.physMem self.translator (slices data)

/-- The result of a list: an error of the memory, or that a piece was not translated. -/
def finish (res : Except Error Unit) (outFail : List (Error × Nat × SliceMut)) (failed : PartialError Unit) :
    PartialResult Unit :=
  match res with
  | .error e => .error (.error e)
  | .ok () => if outFail.isEmpty then .ok () else .error failed

instance : VirtualMemory (VirtualDMA M V D) where
  virtReadRawList self data :=
    (self.translate data).map fun (vat, mem, o) =>
      -- the pieces that fail are cleared
      let heap := copyAll (heapOf data) (o.outFail.map fun f => (f.2.2, List.replicate f.2.2.len 0))
      let (mem, bufs, res) := PhysicalMemory.physReadRawList mem (o.out.map fun p => (p.1, p.2.locs.map heap))
      ({ self with vat := vat, physMem := mem },
        bufsOf data (copyAll heap ((o.out.map (·.2)).zip bufs)), finish res o.outFail (.partialVirtualRead ()))
  virtWriteRawList self data :=
    (self.translate data).map fun (vat, mem, o) =>
      let (mem, res) := PhysicalMemory.physWriteRawList mem (o.out.map fun p => (p.1, p.2.locs.map (heapOf data)))
      ({ self with vat := vat, physMem := mem }, finish res o.outFail (.partialVirtualRead ()))

/-- When the translation returns, every byte of the requests is in a piece that was
    translated. -/
def Complete (self : VirtualDMA M V D) (data : List (Nat × List UInt8)) : Prop :=
  ∀ vat mem o, self.translate data = some (vat, mem, o) →
    ∀ s ∈ slices data, ∀ x ∈ s.2.locs, ∃ p ∈ o.out, x ∈ p.2.locs

open VirtualMemory

/-- A read of `out` at `addr` that gives a value made of the buffer by `f` is `Ok` only if
    all was translated, and otherwise a partial read with that value. -/
def ReadReports {α : Type*} (self : VirtualDMA M V D) (addr : Nat) (out : List UInt8) (f : List UInt8 → α)
    (run : Option (VirtualDMA M V D × PartialResult α)) : Prop :=
  ∀ self' buf r, virtReadRawInto self addr out = some (self', buf, r) → ∃ res, run = some (self', res) ∧
    ((∃ x, res = .ok x) → self.Complete [(addr, out)]) ∧
    (¬ self.Complete [(addr, out)] → res = .error (.partialVirtualRead (f buf)))

/-- A list of writes with a byte that was not translated is a partial write. -/
def WriteReports (self : VirtualDMA M V D) (data : List (Nat × List UInt8)) : Prop :=
  ∀ self' res, virtWriteRawList self data = some (self', res) → ¬ self.Complete data → res = .error .partialVirtualWrite

/-! ## What the helpers report -/

/-- A partial read does not survive `map_data`. -/
theorem mapData_ne {α β : Type*} (r : PartialResult α) (f : α → β) (b : β) :
    r.mapData f ≠ .error (.partialVirtualRead b) := by
  unfold PartialResult.mapData
  rcases r with (_ | _ | _) | _ <;> simp

theorem mapData_mapData {α β γ : Type*} (r : PartialResult α) (f : α → β) (g : β → γ) :
    (r.mapData f).mapData g = r.mapData fun a => g (f a) := by
  rcases r with (_ | _ | _) | _ <;> rfl

variable {α : Type*} (self : VirtualDMA M V D)

/-- Where bytes are not translated, the translation returned. -/
theorem exists_translate {data : List (Nat × List UInt8)} (h : ¬ self.Complete data) :
    ∃ t, self.translate data = some t := by
  cases ht : self.translate data with
  | none => exact absurd (fun vat mem o ho => by rw [ht] at ho; cases ho) h
  | some t => exact ⟨t, rfl⟩

theorem exists_read {addr : Nat} {out : List UInt8} (h : ¬ self.Complete [(addr, out)]) :
    ∃ self' buf r, virtReadRawInto self addr out = some (self', buf, r) := by
  obtain ⟨t, ht⟩ := self.exists_translate h
  have hsome : (virtReadRawInto self addr out).isSome := by
    show (Option.map _ (Option.map _ (self.translate [(addr, out)]))).isSome
    rw [ht]
    rfl
  obtain ⟨⟨self', buf, r⟩, hr⟩ := Option.isSome_iff_exists.mp hsome
  exact ⟨self', buf, r, hr⟩

/-- A helper that maps the result of a read reports what it should of complete reads
    only. -/
theorem readReports_iff {addr : Nat} {out : List UInt8} {f : List UInt8 → α}
    {run : Option (VirtualDMA M V D × PartialResult α)}
    (hrun : run = (virtReadRawInto self addr out).map fun (self, buf, res) => (self, res.mapData fun _ => f buf)) :
    self.ReadReports addr out f run ↔ self.Complete [(addr, out)] := by
  constructor
  · intro h
    by_contra hc
    obtain ⟨self', buf, r, hread⟩ := self.exists_read hc
    obtain ⟨res, hres, -, hpart⟩ := h self' buf r hread
    rw [hrun, hread, Option.map_some, Option.some.injEq, Prod.mk.injEq] at hres
    exact mapData_ne _ _ _ (hres.2.trans (hpart hc))
  · intro hc self' buf r hread
    rw [hrun, hread]
    exact ⟨_, rfl, fun _ => hc, fun hn => absurd hc hn⟩

theorem writeReports_iff (data : List (Nat × List UInt8)) : self.WriteReports data ↔ self.Complete data := by
  constructor
  · intro h
    by_contra hc
    obtain ⟨t, ht⟩ := self.exists_translate hc
    have hrun : virtWriteRawList self data = Option.map _ (some t) := congrArg (Option.map _) ht
    have hres := h _ _ hrun hc
    -- the list of writes ends with no partial write
    unfold finish at hres
    split at hres
    · cases hres
    · split at hres <;> cases hres
  · intro hc self' res _ hn
    exact absurd hc hn

theorem virtRead_mapData {α : Type} [Pod α] {γ : Type} (f : α → γ) (addr : Nat) (uninit : Fin (Pod.size α) → UInt8) :
    ((virtRead α self addr uninit).map fun (self, res) => (self, res.mapData f)) =
      (virtReadRawInto self addr (List.ofFn uninit)).map fun (self, buf, res) =>
        (self, res.mapData fun _ => f (Pod.ofBytes buf)) := by
  unfold virtRead
  rw [Option.map_map]
  refine Option.map_congr fun p _ => ?_
  simp only [Function.comp_apply, mapData_mapData]

theorem virtReadAddr64_eq (addr : Nat) (uninit : Fin 8 → UInt8) :
    virtReadAddr64 self addr uninit = (virtReadRawInto self addr (List.ofFn uninit)).map fun (self, buf, res) =>
      (self, res.mapData fun _ => (Pod.ofBytes buf : UInt64).toNat) :=
  self.virtRead_mapData UInt64.toNat addr uninit

theorem virtReadAddr32_eq (addr : Nat) (uninit : Fin 4 → UInt8) :
    virtReadAddr32 self addr uninit = (virtReadRawInto self addr (List.ofFn uninit)).map fun (self, buf, res) =>
      (self, res.mapData fun _ => (Pod.ofBytes buf : UInt32).toNat) :=
  self.virtRead_mapData UInt32.toNat addr uninit

/-- The reads of the trait and the list of writes report bytes that were not translated as
    they should exactly when there are none. -/
theorem virtMem_reports_iff :
    (∀ addr len, self.ReadReports addr (List.replicate len 0) (fun buf => buf) (virtReadRaw self addr len) ↔
      self.Complete [(addr, List.replicate len 0)]) ∧
    (∀ (α : Type) [Pod α] addr (uninit : Fin (Pod.size α) → UInt8),
      self.ReadReports addr (List.ofFn uninit) (Pod.ofBytes (α := α)) (virtRead α self addr uninit) ↔
        self.Complete [(addr, List.ofFn uninit)]) ∧
    (∀ addr uninit, self.ReadReports addr (List.ofFn uninit) (fun buf => (Pod.ofBytes buf : UInt32).toNat)
      (virtReadAddr32 self addr uninit) ↔ self.Complete [(addr, List.ofFn uninit)]) ∧
    (∀ addr uninit, self.ReadReports addr (List.ofFn uninit) (fun buf => (Pod.ofBytes buf : UInt64).toNat)
      (virtReadAddr64 self addr uninit) ↔ self.Complete [(addr, List.ofFn uninit)]) ∧
    (∀ (arch : X86Architecture) addr uninit,
      if arch.bits = 64 then
        self.ReadReports addr (List.ofFn fun i : Fin 8 => uninit i) (fun buf => (Pod.ofBytes buf : UInt64).toNat)
          (virtReadAddrArch self arch addr uninit) ↔ self.Complete [(addr, List.ofFn fun i : Fin 8 => uninit i)]
      else if arch.bits = 32 then
        self.ReadReports addr (List.ofFn fun i : Fin 4 => uninit i) (fun buf => (Pod.ofBytes buf : UInt32).toNat)
          (virtReadAddrArch self arch addr uninit) ↔ self.Complete [(addr, List.ofFn fun i : Fin 4 => uninit i)]
      else virtReadAddrArch self arch addr uninit = some (self, .error (.error .invalidArchitecture))) ∧
    ∀ data, self.WriteReports data ↔ self.Complete data := by
  refine ⟨fun addr len => self.readReports_iff rfl, fun α _ addr uninit => self.readReports_iff rfl,
    fun addr uninit => self.readReports_iff (self.virtReadAddr32_eq addr uninit),
    fun addr uninit => self.readReports_iff (self.virtReadAddr64_eq addr uninit), fun arch addr uninit => ?_,
    self.writeReports_iff⟩
  by_cases h64 : arch.bits = 64
  · rw [if_pos h64]
    refine self.readReports_iff ?_
    unfold virtReadAddrArch
    rw [if_pos h64, virtReadAddr64_eq]
  · rw [if_neg h64]
    by_cases h32 : arch.bits = 32
    · rw [if_pos h32]
      refine self.readReports_iff ?_
      unfold virtReadAddrArch
      rw [if_neg h64, if_pos h32, virtReadAddr32_eq]
    · rw [if_neg h32]
      unfold virtReadAddrArch
      rw [if_neg h64, if_neg h32]

/-- An address space with nothing mapped. -/
def unmapped : VirtualDMA FlatMemory DirectTranslate X86ScopedVirtualTranslate :=
  ⟨⟨fun _ => 0⟩, {}, x64Arch, ⟨x64Arch, 0x1000⟩⟩

/-- A read of an address that is not mapped is `Ok`, and a write to it a partial read. -/
theorem unmapped_not_reports :
    (virtReadRaw unmapped 0x5000 2).map (·.2) = some (.ok [0, 0]) ∧
      (virtReadAddr32 unmapped 0x5000 fun _ => 7).map (·.2) = some (.ok 0) ∧
      (virtWriteRawList unmapped [(0x5000, [1, 2])]).map (·.2) = some (.error (.partialVirtualRead ())) ∧
      (unmapped.translate [(0x5000, [0, 0])]).map (·.2.2.out) = some [] ∧
      ¬ (unmapped.ReadReports 0x5000 [0, 0] (fun buf => buf) (virtReadRaw unmapped 0x5000 2) ∧
        unmapped.WriteReports [(0x5000, [1, 2])]) := by
  have h1 : (virtReadRaw unmapped 0x5000 2).map (·.2) = some (.ok [0, 0]) := by decide +kernel
  have h2 : (unmapped.translate [(0x5000, [0, 0])]).map (·.2.2.out) = some [] := by decide +kernel
  refine ⟨h1, by decide +kernel, by decide +kernel, h2, fun ⟨hr, _⟩ => ?_⟩
  have hc := (unmapped.readReports_iff (f := fun buf => buf) rfl).mp hr
  obtain ⟨⟨vat, mem, o⟩, ht, ho⟩ := Option.map_eq_some_iff.mp h2
  obtain ⟨p, hp, -⟩ := hc vat mem o ht (0x5000, ⟨0, 0, 2⟩) (by decide) (0, 0) (by decide)
  simp only at ho
  rw [ho] at hp
  cases hp

end VirtualDMA

end Jiaa
