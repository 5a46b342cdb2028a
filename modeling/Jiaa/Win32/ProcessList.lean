/-
  Jiaa.Win32.ProcessList — the walk over the processes of a kernel
  (memflow-win32 `win32/kernel.rs`, `win32/kernel_info.rs`, `kernel/start_block.rs`).

  The links of the processes and the head of the list make a ring. The walk starts at the
  system process and ends at the head, which is the entry that leads back to the start.

  - `eprocessLoop_gives`: from an entry of the ring on, the entries up to the head;
  - `eprocessList_gives`: every process of the ring, in order and once.
-/

import Jiaa.Lib.Ring
import Jiaa.Win32.Reading

namespace Jiaa.Win32

open Lib.Ring

structure StartBlock where
  arch : X86Architecture
  kernelHint : Nat
  dtb : Nat

structure KernelInfo where
  startBlock : StartBlock
  kernelBase : Nat
  kernelSize : Nat
  kernelWinver : Win32Version
  eprocessBase : Nat

/-- A kernel without its memory and translator: its functions read through `reader`. -/
structure Kernel where
  offsets : Win32OffsetTable
  kernelInfo : KernelInfo
  sysprocDtb : Nat

namespace Kernel

def arch (self : Kernel) : X86Architecture := self.kernelInfo.startBlock.arch

def reader {M V : Type} (self : Kernel) (physMem : M) (vat : V) : VirtualDMA M V Win32VirtualTranslate :=
  ⟨physMem, vat, self.arch, ⟨self.arch, self.sysprocDtb⟩⟩

def maxIterCount : Nat := 65536

section Walk

variable {W : Type} [VirtualMemory W]

/-- The rounds of the loop that are left. -/
def eprocessLoop (self : Kernel) (uninit : Nat → UInt8) (listStart : Nat) : Nat → Nat → List Nat → ReadM W (List Nat)
  | 0, _, eprocs => pure eprocs
  | n + 1, listEntry, eprocs => do
    let eprocess := Address.sub listEntry self.offsets.eprocLink.toNat
    let flinkEntry ← readAddrArch self.arch listEntry uninit
    let blinkEntry ← readAddrArch self.arch (Address.add listEntry self.offsets.listBlink.toNat) uninit
    if flinkEntry = 0 ∨ blinkEntry = 0 ∨ flinkEntry = listStart ∨ flinkEntry = listEntry then pure eprocs
    else self.eprocessLoop uninit listStart n flinkEntry (eprocs ++ [eprocess])

def listStart (self : Kernel) : Nat := Address.add self.kernelInfo.eprocessBase self.offsets.eprocLink.toNat

def eprocessList (self : Kernel) (uninit : Nat → UInt8) : ReadM W (List Nat) :=
  self.eprocessLoop uninit self.listStart maxIterCount self.listStart []

end Walk

/-! ## A ring of processes -/

/-- The links of the processes: `es` starts with that of the system process and ends with
    the head of the list. -/
structure ProcessRing (k : Kernel) (g : GuestMemory) (es : List Nat) : Prop where
  start : es.head? = some k.listStart
  flink : IsRing (g.addrAt k.arch) es
  blink : IsRing (fun e => g.addrAt k.arch (Address.add e k.offsets.listBlink.toNat)) es.reverse
  nonNull : ∀ e ∈ es, e ≠ 0

/-- The process of a link. -/
def eprocessOf (self : Kernel) (e : Nat) : Nat := Address.sub e self.offsets.eprocLink.toNat

variable {W : Type} [VirtualMemory W] {self : Kernel} {g : GuestMemory} {P : W → Prop} {es : List Nat}

namespace ProcessRing

theorem lt (h : self.ProcessRing g es) (harch : self.arch.bits = 64 ∨ self.arch.bits = 32) {e : Nat} (he : e ∈ es) :
    e < 2 ^ 64 := by
  obtain ⟨pre, post, rfl⟩ := List.mem_iff_append.mp he
  rcases List.eq_nil_or_concat pre with rfl | ⟨pre, b, rfl⟩
  · have hs := h.start
    simp only [List.nil_append, List.head?_cons, Option.some.injEq] at hs
    rw [hs]
    exact Address.add_lt _ _
  · have hf := h.flink
    rw [List.concat_eq_append, List.append_assoc, List.singleton_append] at hf
    rw [← hf.next_of_append]
    exact addrAt_lt g harch b

theorem blink_ne (h : self.ProcessRing g es) {e : Nat} (he : e ∈ es) :
    g.addrAt self.arch (Address.add e self.offsets.listBlink.toNat) ≠ 0 :=
  h.nonNull _ (List.mem_reverse.mp (h.blink.next_mem (List.mem_reverse.mpr he)))

/-- An entry that is not the first. -/
theorem ne_start {pre post : List Nat} {a b : Nat} (h : self.ProcessRing g (pre ++ a :: b :: post)) :
    b ≠ self.listStart ∧ b ≠ a := by
  have hn := h.flink.nodup
  have hb : b ∉ pre ∧ b ≠ a := by
    have hd := List.disjoint_of_nodup_append hn
    refine ⟨fun hm => hd hm (by simp), ?_⟩
    rintro rfl
    simp [List.nodup_append] at hn
  refine ⟨fun he => ?_, hb.2⟩
  have hs := h.start
  cases pre with
  | nil =>
    simp only [List.nil_append, List.head?_cons, Option.some.injEq] at hs
    exact hb.2 (he.trans hs.symm)
  | cons x pre =>
    simp only [List.cons_append, List.head?_cons, Option.some.injEq] at hs
    exact hb.1 (by rw [he, ← hs]; exact List.mem_cons_self ..)

end ProcessRing

/-- From an entry on, the processes up to the head are added. -/
theorem eprocessLoop_gives (hs : Shows g P) (harch : self.arch.bits = 64 ∨ self.arch.bits = 32) (uninit : Nat → UInt8) :
    ∀ (rest pre : List Nat) (e n : Nat) (eprocs : List Nat), self.ProcessRing g (pre ++ e :: rest) → rest.length ≤ n →
      Gives P (self.eprocessLoop uninit self.listStart n e eprocs)
        (.ok (eprocs ++ (e :: rest).dropLast.map self.eprocessOf)) := by
  intro rest
  induction rest with
  | nil =>
    intro pre e n eprocs hring _
    rw [List.dropLast_singleton, List.map_nil, List.append_nil]
    cases n with
    | zero => exact .pure _
    | succ n =>
      have hnext := hring.flink.next_last hring.start
      refine .bind (gives_readAddrArch hs harch (hring.lt harch (by simp)) uninit) ?_
      refine .bind (gives_readAddrArch hs harch (Address.add_lt _ _) uninit) ?_
      rw [if_pos (Or.inr (Or.inr (Or.inl hnext)))]
      exact .pure _
  | cons b rest ih =>
    intro pre e n eprocs hring hn
    obtain ⟨n, rfl⟩ : ∃ m, n = m + 1 := ⟨n - 1, by simp only [List.length_cons] at hn; omega⟩
    have hnext := hring.flink.next_of_append
    have hb := hring.ne_start
    have hring' : self.ProcessRing g ((pre ++ [e]) ++ b :: rest) := by simpa using hring
    have hrest := ih (pre ++ [e]) b n (eprocs ++ [self.eprocessOf e]) hring' (by simp only [List.length_cons] at hn; omega)
    refine .bind (gives_readAddrArch hs harch (hring.lt harch (by simp)) uninit) ?_
    refine .bind (gives_readAddrArch hs harch (Address.add_lt _ _) uninit) ?_
    rw [hnext, if_neg]
    · simpa [List.append_assoc, eprocessOf] using hrest
    · rintro (h0 | h0 | h0 | h0)
      · exact hring.nonNull b (by simp) h0
      · exact hring.blink_ne (by simp) h0
      · exact hb.1 h0
      · exact hb.2 h0

/-- Entries lead to processes one to one. -/
theorem eprocessOf_inj {a b : Nat} (ha : a < 2 ^ 64) (hb : b < 2 ^ 64) (h : self.eprocessOf a = self.eprocessOf b) : a = b := by
  have hlt : self.offsets.eprocLink.toNat < 2 ^ 32 := self.offsets.eprocLink.toNat_lt
  unfold eprocessOf Address.sub at h
  omega

/-- The walk returns the process of every entry but the head, in the order of the list and
    none twice. -/
theorem eprocessList_gives (self : Kernel) (uninit : Nat → UInt8) (g : GuestMemory) (P : W → Prop) (hs : Shows g P)
    (harch : self.arch.bits = 64 ∨ self.arch.bits = 32) (es : List Nat) (hring : self.ProcessRing g es)
    (hlen : es.length ≤ maxIterCount + 1) :
    Gives P (self.eprocessList uninit) (.ok (es.dropLast.map self.eprocessOf)) ∧
      (es.dropLast.map self.eprocessOf).Nodup := by
  constructor
  · cases es with
    | nil => cases hring.start
    | cons e rest =>
      have hstart := hring.start
      rw [List.head?_cons, Option.some.injEq] at hstart
      have h := eprocessLoop_gives hs harch uninit rest [] e maxIterCount [] hring (by simpa using hlen)
      rw [List.nil_append, hstart] at h
      rw [hstart]
      exact h
  · refine List.Nodup.map_on ?_ (hring.flink.nodup.sublist (List.dropLast_sublist es))
    intro a ha b hb hab
    exact eprocessOf_inj (hring.lt harch (List.dropLast_subset es ha)) (hring.lt harch (List.dropLast_subset es hb)) hab

/-- Two processes and the head, links at offset 0x10 of 64-bit processes. -/
def twoProcesses : GuestMemory :=
  .ofWords [(0x1010, 0x2010), (0x1018, 0x3000), (0x2010, 0x3000), (0x2018, 0x1010), (0x3000, 0x1010), (0x3008, 0x2010)]

def sixtyFour : Kernel where
  offsets := ⟨8, 0x10, 0x28, 0x40, 0x50, 0x60, 0x68, 0x70, 0x78, 0x80, 0xf0, 0x2f8, 0x60, 0x30⟩
  kernelInfo := ⟨⟨x64Arch, 0, 0x1000⟩, 0x100000, 0x1000, ⟨10, 0, 19041⟩, 0x1000⟩
  sysprocDtb := 0x1000

theorem eprocessList_twoProcesses : Gives (· = twoProcesses) (sixtyFour.eprocessList fun _ => 0) (.ok [0x1000, 0x2000]) ∧
    [0x1000, 0x2000].Nodup :=
  eprocessList_gives sixtyFour (fun _ => 0) twoProcesses _ twoProcesses.shows (by decide) [0x1010, 0x2010, 0x3000]
    ⟨by decide +kernel, by decide +kernel, by decide +kernel, by decide⟩ (by decide)

end Kernel

end Jiaa.Win32
