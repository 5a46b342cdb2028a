/-
  Jiaa.Mem.VirtTranslate — the traits that translate addresses
  (memflow `mem/virt_translate.rs`, `mem/virt_translate/direct_translate.rs`,
  `architecture/mod.rs`, `architecture/x86/mod.rs`, memflow-win32 `win32/vat.rs`).

  `ScopedVirtualTranslate` translates for one table base, `VirtualTranslate` for any;
  both take a batch in buffers of any kind. `none` is a panic.
-/

import Jiaa.Architecture.VirtToPhys

namespace Jiaa

/-- `ScopedVirtualTranslate`: the batch and the tag of the table base. -/
class ScopedVirtualTranslate (D : Type) where
  virtToPhysIter : {M : Type} → [PhysicalMemory M] → {T : Type} → [SplitAtIndex T] →
    D → M → List (Nat × T) → Option (Outputs T × M)
  translationTableId : D → Nat → Nat

/-- `VirtualTranslate`. -/
class VirtualTranslate (V : Type) where
  virtToPhysIter : {M : Type} → [PhysicalMemory M] → {D : Type} → [ScopedVirtualTranslate D] → {T : Type} →
    [SplitAtIndex T] → V → M → D → List (Nat × T) → Option (V × M × Outputs T)

/-! ## The translators of `architecture/x86` -/

structure X86Architecture where
  bits : Nat
  mmu : ArchMMUSpec

def X86Architecture.pageSize (self : X86Architecture) : Nat := self.mmu.pageSizeLevel 1

structure X86ScopedVirtualTranslate where
  arch : X86Architecture
  dtb : Nat

instance : ScopedVirtualTranslate X86ScopedVirtualTranslate where
  virtToPhysIter self mem addrs := self.arch.mmu.virtToPhysIter mem self.dtb addrs
  translationTableId self _ := self.dtb >>> 12

/-- `win32/vat.rs`: the translator of a process makes one of `architecture/x86` for each batch. -/
structure Win32VirtualTranslate where
  sysArch : X86Architecture
  dtb : Nat

instance : ScopedVirtualTranslate Win32VirtualTranslate where
  virtToPhysIter self mem addrs :=
    ScopedVirtualTranslate.virtToPhysIter (⟨self.sysArch, self.dtb⟩ : X86ScopedVirtualTranslate) mem addrs
  translationTableId self _ := self.dtb >>> 12

def x64Arch : X86Architecture := ⟨64, x64⟩

def x32Arch : X86Architecture := ⟨32, x32⟩

def x32PaeArch : X86Architecture := ⟨32, x32Pae⟩

/-! ## The translation without a cache -/

structure DirectTranslate where

instance : VirtualTranslate DirectTranslate where
  virtToPhysIter self mem translator addrs :=
    (ScopedVirtualTranslate.virtToPhysIter translator mem addrs).map fun (o, mem) => (self, mem, o)

end Jiaa
