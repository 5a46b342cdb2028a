/-
  Jiaa.Win32.ModuleList — the walk over the modules of a process
  (memflow-win32 `win32/process.rs`).

  The loader's list is a ring of entries with a head in it. The walk starts at the first
  entry, adds an entry before it looks at the next link, and ends at a null or misaligned
  link or where it started. The head is an entry like the others to it.

  - `moduleEntryLoop_gives`: the entries up to one whose link ends the walk;
  - `moduleEntryList_gives`: the modules, and after them the head unless it is null or
    misaligned;
  - `moduleEntryList_iff`: so the modules alone in that case only.
-/

import Jiaa.Lib.Ring
import Jiaa.Win32.Reading

namespace Jiaa.Win32

open Lib.Ring

structure Win32ModuleListInfo where
  moduleBase : Nat
  ldrDataBaseOffs : Nat
  ldrDataSizeOffs : Nat
  ldrDataNameOffs : Nat
  deriving DecidableEq, Repr

namespace Win32ModuleListInfo

def maxIterCount : Nat := 65536

/-- `with_base` never fails. -/
def withBase (moduleBase : Nat) (arch : X86Architecture) : Win32ModuleListInfo :=
  let offsets := Win32ArchOffsets.ofArch arch
  ⟨moduleBase, offsets.ldrDataBase, offsets.ldrDataSize, offsets.ldrDataName⟩

section Walk

variable {W : Type} [VirtualMemory W]

def withPeb (peb : Nat) (arch : X86Architecture) (uninit : Nat → UInt8) : ReadM W Win32ModuleListInfo := do
  let offsets := Win32ArchOffsets.ofArch arch
  let pebLdr ← readAddrArch arch (Address.add peb offsets.pebLdr) uninit
  let moduleBase ← readAddrArch arch (Address.add pebLdr offsets.ldrList) uninit
  pure (withBase moduleBase arch)

/-- A link that ends the walk. -/
def EndsWalk (moduleBase listEntry : Nat) : Prop := listEntry = 0 ∨ listEntry &&& 0b111 ≠ 0 ∨ listEntry = moduleBase

instance (moduleBase listEntry : Nat) : Decidable (EndsWalk moduleBase listEntry) :=
  inferInstanceAs (Decidable (_ ∨ _ ∨ _))

/-- The rounds of the loop that are left. -/
def moduleEntryLoop (self : Win32ModuleListInfo) (arch : X86Architecture) (uninit : Nat → UInt8) :
    Nat → Nat → List Nat → ReadM W (List Nat)
  | 0, _, list => pure list
  | n + 1, listEntry, list => do
    let list := list ++ [listEntry]
    let listEntry ← readAddrArch arch listEntry uninit
    if EndsWalk self.moduleBase listEntry then pure list else self.moduleEntryLoop arch uninit n listEntry list

def moduleEntryList (self : Win32ModuleListInfo) (arch : X86Architecture) (uninit : Nat → UInt8) : ReadM W (List Nat) :=
  self.moduleEntryLoop arch uninit maxIterCount self.moduleBase []

end Walk

/-! ## A ring of modules -/

/-- The head of a process's list. -/
def headOfPeb (g : GuestMemory) (peb : Nat) (arch : X86Architecture) : Nat :=
  Address.add (g.addrAt arch (Address.add peb (Win32ArchOffsets.ofArch arch).pebLdr)) (Win32ArchOffsets.ofArch arch).ldrList

/-- The loader's list with the head `head`: at least one module, each aligned. -/
structure ModuleRing (g : GuestMemory) (arch : X86Architecture) (head : Nat) (modules : List Nat) : Prop where
  ring : IsRing (g.addrAt arch) (head :: modules)
  some_module : modules ≠ []
  nonNull : ∀ m ∈ modules, m ≠ 0
  aligned : ∀ m ∈ modules, m &&& 0b111 = 0

variable {W : Type} [VirtualMemory W] {g : GuestMemory} {P : W → Prop} {arch : X86Architecture}

/-- The entries of a chain whose last link ends the walk. -/
theorem moduleEntryLoop_gives (hs : Shows g P) (harch : arch.bits = 64 ∨ arch.bits = 32) (uninit : Nat → UInt8)
    (self : Win32ModuleListInfo) : ∀ (rest : List Nat) (e n : Nat) (list : List Nat), e < 2 ^ 64 →
      (e :: rest).IsChain (fun a b => g.addrAt arch a = b) → (∀ m ∈ rest, ¬ EndsWalk self.moduleBase m) →
      (∀ z ∈ (e :: rest).getLast?, EndsWalk self.moduleBase (g.addrAt arch z)) → rest.length < n →
      Gives P (self.moduleEntryLoop arch uninit n e list) (.ok (list ++ e :: rest)) := by
  intro rest
  induction rest with
  | nil =>
    intro e n list he _ _ hlast hn
    obtain ⟨n, rfl⟩ : ∃ m, n = m + 1 := ⟨n - 1, by omega⟩
    refine .bind (gives_readAddrArch hs harch he uninit) ?_
    rw [if_pos (hlast e rfl)]
    exact .pure _
  | cons b rest ih =>
    intro e n list he hchain hgo hlast hn
    obtain ⟨n, rfl⟩ : ∃ m, n = m + 1 := ⟨n - 1, by omega⟩
    obtain ⟨hnext, hchain⟩ := List.isChain_cons_cons.mp hchain
    have hb : b < 2 ^ 64 := by
      rw [← hnext]
      exact addrAt_lt g harch e
    have hrest := ih b n (list ++ [e]) hb hchain (fun m hm => hgo m (List.mem_cons_of_mem _ hm))
      (fun z hz => hlast z (by rw [List.getLast?_cons_cons]; exact hz)) (by simp only [List.length_cons] at hn; omega)
    refine .bind (gives_readAddrArch hs harch he uninit) ?_
    rw [hnext, if_neg (hgo b (List.mem_cons_self ..))]
    simpa using hrest

/-- What the walk returns. -/
def walked (head : Nat) (modules : List Nat) : List Nat :=
  if head = 0 ∨ head &&& 0b111 ≠ 0 then modules else modules ++ [head]

theorem walked_eq_iff {head : Nat} {modules : List Nat} :
    walked head modules = modules ↔ head = 0 ∨ head &&& 0b111 ≠ 0 := by
  unfold walked
  split
  · next h => simp [h]
  · next h => simpa using h

/-- The walk from the first module. -/
theorem moduleEntryList_gives (hs : Shows g P) (harch : arch.bits = 64 ∨ arch.bits = 32) (uninit : Nat → UInt8)
    {head : Nat} {modules : List Nat} (hring : ModuleRing g arch head modules) (hlen : modules.length < maxIterCount) :
    Gives P ((withBase (g.addrAt arch head) arch).moduleEntryList arch uninit) (.ok (walked head modules)) := by
  obtain ⟨m, ms, rfl⟩ := List.exists_cons_of_ne_nil hring.some_module
  have hm : g.addrAt arch head = m := hring.ring.next_head
  have hrot := hring.ring.rotate
  have hmlt : m < 2 ^ 64 := by
    rw [← hm]
    exact addrAt_lt g harch head
  have hnodup := hring.ring.nodup
  have hgo : ∀ x ∈ ms, ¬ EndsWalk m x := by
    rintro x hx (h0 | h0 | h0)
    · exact hring.nonNull x (List.mem_cons_of_mem _ hx) h0
    · exact h0 (hring.aligned x (List.mem_cons_of_mem _ hx))
    · rw [h0] at hx
      simp [hx] at hnodup
  have hclose : g.addrAt arch head = m := hm
  unfold moduleEntryList
  rw [hm]
  have hbase : (withBase m arch).moduleBase = m := rfl
  rw [hbase]
  unfold walked
  split
  · next hend =>
    -- the link to the head ends the walk
    refine moduleEntryLoop_gives hs harch uninit _ ms m maxIterCount [] hmlt ?_ hgo ?_ (by simp only [List.length_cons] at hlen; omega)
    · exact (List.isChain_cons_cons.mp hring.ring.chain).2
    · intro z hz
      have hz' : g.addrAt arch z = head := hring.ring.closes z (by rw [List.getLast?_cons_cons]; exact hz) head rfl
      rw [hz', hbase]
      rcases hend with h0 | h0
      · exact Or.inl h0
      · exact Or.inr (Or.inl h0)
  · next hend =>
    -- the head is an entry, and its link leads back to the start
    have hhead : ¬ EndsWalk m head := by
      rintro (h0 | h0 | h0)
      · exact hend (Or.inl h0)
      · exact hend (Or.inr h0)
      · rw [h0] at hnodup
        simp at hnodup
    refine moduleEntryLoop_gives hs harch uninit _ (ms ++ [head]) m maxIterCount [] hmlt hrot.chain ?_ ?_
      (by simp only [List.length_cons] at hlen; simp; omega)
    · intro x hx
      rcases List.mem_append.mp hx with hx | hx
      · exact hgo x hx
      · rw [List.mem_singleton.mp hx]
        exact hhead
    · intro z hz
      rw [← List.cons_append, List.getLast?_concat, Option.mem_some_iff] at hz
      rw [← hz, hm, hbase]
      exact Or.inr (Or.inr rfl)

theorem withPeb_gives (hs : Shows g P) (harch : arch.bits = 64 ∨ arch.bits = 32) (uninit : Nat → UInt8) (peb : Nat) :
    Gives P (withPeb peb arch uninit) (.ok (withBase (g.addrAt arch (headOfPeb g peb arch)) arch)) := by
  refine .bind (gives_readAddrArch hs harch (Address.add_lt _ _) uninit) ?_
  refine .bind (gives_readAddrArch hs harch (Address.add_lt _ _) uninit) ?_
  exact .pure _

/-- As built, the modules of a list alone are returned where the head is null or
    misaligned. -/
theorem moduleEntryList_iff (g : GuestMemory) (P : W → Prop) (hs : Shows g P) (arch : X86Architecture)
    (harch : arch.bits = 64 ∨ arch.bits = 32) (uninit : Nat → UInt8) (head : Nat) (modules : List Nat)
    (hring : ModuleRing g arch head modules) (hlen : modules.length < maxIterCount) (w : W) (hw : P w) :
    (∀ peb, headOfPeb g peb arch = head →
      ((∃ w', (withPeb peb arch uninit >>= fun info => info.moduleEntryList arch uninit) w = some (.ok modules, w')) ↔
        head = 0 ∨ head &&& 0b111 ≠ 0)) ∧
    ((∃ w', (withBase (g.addrAt arch head) arch).moduleEntryList arch uninit w = some (.ok modules, w')) ↔
      head = 0 ∨ head &&& 0b111 ≠ 0) := by
  have hbase := moduleEntryList_gives hs harch uninit hring hlen
  refine ⟨?_, (hbase.ok_iff hw).trans walked_eq_iff⟩
  rintro peb rfl
  exact ((withPeb_gives hs harch uninit peb).bind hbase |>.ok_iff hw).trans walked_eq_iff

/-- A 32-bit process: the head lies 12 bytes into an aligned structure. -/
def loaderList32 : GuestMemory := .ofWords [(0x100c, 0x2000), (0x200c, 0x3000), (0x3000, 0x200c)]

theorem moduleEntryList_loaderList32 :
    (∀ peb, headOfPeb loaderList32 peb x32Arch = 0x200c →
      ((∃ w', (withPeb peb x32Arch (fun _ => 0) >>= fun info => info.moduleEntryList x32Arch fun _ => 0) loaderList32 =
        some (.ok [0x3000], w')) ↔ 0x200c = 0 ∨ 0x200c &&& 0b111 ≠ 0)) ∧
    ((∃ w', (withBase (loaderList32.addrAt x32Arch 0x200c) x32Arch).moduleEntryList x32Arch (fun _ => 0) loaderList32 =
      some (.ok [0x3000], w')) ↔ 0x200c = 0 ∨ 0x200c &&& 0b111 ≠ 0) :=
  moduleEntryList_iff loaderList32 (· = loaderList32) loaderList32.shows x32Arch (by decide) (fun _ => 0) 0x200c [0x3000]
    ⟨by decide +kernel, by decide, by decide, by decide⟩ (by decide) loaderList32 rfl

/-- A 64-bit process: the head lies 16 bytes into one. -/
def loaderList64 : GuestMemory := .ofWords [(0x1018, 0x2000), (0x2010, 0x3000), (0x3000, 0x2010)]

/-- The head is returned as a module. -/
theorem head_listed : ModuleRing loaderList64 x64Arch (headOfPeb loaderList64 0x1000 x64Arch) [0x3000] ∧
    ((withPeb 0x1000 x64Arch (fun _ => 0) >>= fun info => info.moduleEntryList x64Arch fun _ => 0) loaderList64).map (·.1) =
      some (.ok [0x3000, 0x2010]) :=
  ⟨⟨by decide +kernel, by decide, by decide, by decide⟩, by decide +kernel⟩

end Win32ModuleListInfo

end Jiaa.Win32
