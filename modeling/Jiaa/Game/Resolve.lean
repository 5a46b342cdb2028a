/-
  Jiaa.Game.Resolve — the address that a found instruction refers to (jiaa-src `sigscanner.h`,
  `main.c`; memflow-ffi `mem/virt_mem.rs`).

  An instruction of seven bytes holds a displacement of 32 bits from its end at offset 3.

  - `getAbsoluteAddressVm_iff`: when the displacement is applied as a signed one;
  - `resolveSignature_iff`: when a search and what is added to its result resolve to the
    address, or to 0 if nothing is found.
-/

import Jiaa.Game.Sigscanner

namespace Jiaa.Game

/-! ## The FFI -/

/-- `unwrap_or_default`; the object is not initialised before. -/
def virtReadU32 (mem : GuestMemory) (addr : Nat) : UInt32 :=
  match VirtualMemory.virtRead UInt32 mem addr fun _ => 0 with
  | some (_, .ok val) => val
  | _ => 0

theorem virtReadU32_toNat (mem : GuestMemory) {addr : Nat} (h : addr < 2 ^ 64) :
    (virtReadU32 mem addr).toNat = leU64 (mem.read addr 4) := by
  obtain ⟨w, -, hread⟩ := (GuestMemory.shows mem).virtRead (α := UInt32) (by decide) rfl h fun _ => 0
  have hlt := leU64_lt (mem.read addr 4)
  rw [GuestMemory.length_read] at hlt
  simp only [virtReadU32, hread]
  exact Nat.mod_eq_of_lt hlt

namespace Sigscanner

/-! ## The reference of an instruction -/

/-- An `int` in an expression of `uintptr_t`. -/
def addInt (a : Nat) (b : Int) : Nat := ((a + b) % 2 ^ 64).toNat

def getAbsoluteAddressVm (memory : GuestMemory) (instructionPtr : Nat) (offset size : Int) : Nat :=
  if instructionPtr = 0 then 0
  else addInt ((instructionPtr + (virtReadU32 memory (addInt instructionPtr offset)).toNat) % 2 ^ 64) size

/-- `GetAbsoluteAddressVm( mem, FindPatternInMemory( … ) + d, 3, 7 )`. -/
def resolveSignature (heap : Heap) (bytes : Nat) (front : Char) (mem : GuestMemory) (pattern : List Char)
    (moduleBase moduleSize d : Nat) : Option Nat :=
  (findPatternInMemory heap bytes front mem pattern moduleBase moduleSize).map fun found =>
    getAbsoluteAddressVm mem ((found + d) % 2 ^ 64) 3 7

/-- The four bytes of the displacement, as an unsigned number. -/
def displacement (memory : GuestMemory) (ip : Nat) : Nat := leU64 (memory.read (ip + 3) 4)

/-- The end of the instruction and the signed displacement. -/
def referenced (memory : GuestMemory) (ip : Nat) : Nat :=
  ((ip + 7 + (displacement memory ip : Int).bmod (2 ^ 32)) % 2 ^ 64).toNat

/-- `r` is what the instruction at `found + d` refers to, if it can be read; 0 if nothing was found. -/
def Resolves (memory : GuestMemory) (found d r : Nat) : Prop :=
  if found = 0 then r = 0 else memory.Mapped (found + d + 3) 4 → r = referenced memory (found + d)

theorem GuestMemory.read_mod (memory : GuestMemory) (addr len : Nat) :
    memory.read (addr % 2 ^ 64) len = memory.read addr len := by
  simp [Jiaa.GuestMemory.read]

theorem displacement_lt (memory : GuestMemory) (ip : Nat) : displacement memory ip < 2 ^ 32 := by
  have h := leU64_lt (memory.read (ip + 3) 4)
  rwa [GuestMemory.length_read] at h

/-- The displacement is added as it is. -/
theorem getAbsoluteAddressVm_eq (memory : GuestMemory) (ip : Nat) :
    getAbsoluteAddressVm memory (ip % 2 ^ 64) 3 7 =
      if ip % 2 ^ 64 = 0 then 0 else (ip + 7 + displacement memory ip) % 2 ^ 64 := by
  have haddr : addInt (ip % 2 ^ 64) 3 = (ip + 3) % 2 ^ 64 := by
    unfold addInt
    omega
  have hread : (virtReadU32 memory ((ip + 3) % 2 ^ 64)).toNat = displacement memory ip := by
    rw [virtReadU32_toNat memory (Nat.mod_lt _ (Nat.two_pow_pos 64)), GuestMemory.read_mod, displacement]
  unfold getAbsoluteAddressVm
  rw [haddr, hread]
  split
  · rfl
  · unfold addInt
    omega

/-- The two readings of a displacement differ by 2 ^ 32, if at all. -/
theorem add_bmod_iff {ip n : Nat} (hn : n < 2 ^ 32) :
    (ip + 7 + n) % 2 ^ 64 = ((ip + 7 + (n : Int).bmod (2 ^ 32)) % 2 ^ 64).toNat ↔ n < 2 ^ 31 := by
  rw [Int.bmod_def]
  omega

theorem zero_bmod_iff {ip n : Nat} (hn : n < 2 ^ 32) (hip : ip % 2 ^ 64 = 0) :
    0 = ((ip + 7 + (n : Int).bmod (2 ^ 32)) % 2 ^ 64).toNat ↔ n = 0xFFFFFFF9 := by
  rw [Int.bmod_def]
  omega

theorem getAbsoluteAddressVm_iff (memory : GuestMemory) (ip : Nat) :
    getAbsoluteAddressVm memory (ip % 2 ^ 64) 3 7 = referenced memory ip ↔
      if ip % 2 ^ 64 = 0 then displacement memory ip = 0xFFFFFFF9 else displacement memory ip < 2 ^ 31 := by
  have hlt := displacement_lt memory ip
  by_cases h : ip % 2 ^ 64 = 0
  · rw [getAbsoluteAddressVm_eq, if_pos h, if_pos h]
    exact zero_bmod_iff hlt h
  · rw [getAbsoluteAddressVm_eq, if_neg h, if_neg h]
    exact add_bmod_iff hlt

theorem resolveSignature_iff {heap : Heap} {bytes : Nat} {front : Char} {mem : GuestMemory} {pattern : List Char}
    {moduleBase moduleSize d found : Nat}
    (hfound : findPatternInMemory heap bytes front mem pattern moduleBase moduleSize = some found) (hd : d < 2 ^ 31) :
    (∃ r, resolveSignature heap bytes front mem pattern moduleBase moduleSize d = some r ∧ Resolves mem found d r) ↔
      if found = 0 then d = 0
      else mem.Mapped (found + d + 3) 4 →
        if (found + d) % 2 ^ 64 = 0 then displacement mem (found + d) = 0xFFFFFFF9
        else displacement mem (found + d) < 2 ^ 31 := by
  have hrun : resolveSignature heap bytes front mem pattern moduleBase moduleSize d =
      some (getAbsoluteAddressVm mem ((found + d) % 2 ^ 64) 3 7) := by
    rw [resolveSignature, hfound, Option.map_some]
  simp only [hrun, Option.some.injEq, exists_eq_left', Resolves]
  split
  · next h0 =>
    subst h0
    have hlt := displacement_lt mem (0 + d)
    rw [getAbsoluteAddressVm_eq]
    split <;> omega
  · exact imp_congr_right fun _ => getAbsoluteAddressVm_iff mem (found + d)

/-- `48 8B 05` and a displacement, at 0x1000. -/
def movInstruction (disp : List UInt8) : GuestMemory :=
  ⟨fun a => if a < 0x1000 then none else ([0x48, 0x8b, 0x05] ++ disp)[a - 0x1000]?⟩

theorem resolveSignature_forward :
    ∃ r, resolveSignature (fun _ => 0) 0x100 ' ' (movInstruction [0x10, 0, 0, 0]) (render movPattern) 0x1000 7 0 =
        some r ∧
      Resolves (movInstruction [0x10, 0, 0, 0]) 0x1000 0 r := by
  have hfound : findPatternInMemory (fun _ => 0) 0x100 ' ' (movInstruction [0x10, 0, 0, 0]) (render movPattern)
      0x1000 7 = some 0x1000 := by
    decide +kernel
  refine (resolveSignature_iff hfound (by decide)).mpr ?_
  rw [if_neg (by decide)]
  intro _
  decide +kernel

/-- A displacement of -1, and `+ 2` without a match. -/
theorem not_resolved :
    (∃ r, resolveSignature (fun _ => 0) 0x100 ' ' (movInstruction [0xff, 0xff, 0xff, 0xff]) (render movPattern)
      0x1000 7 0 = some r ∧ ¬Resolves (movInstruction [0xff, 0xff, 0xff, 0xff]) 0x1000 0 r) ∧
    findPatternInMemory (fun _ => 0) 0x100 ' ' (movInstruction []) (render movPattern) 0x2000 7 = some 0 ∧
      resolveSignature (fun _ => 0) 0x100 ' ' (movInstruction []) (render movPattern) 0x2000 7 2 = some 9 := by
  refine ⟨⟨0x100001006, by decide +kernel, fun h => ?_⟩, by decide +kernel, by decide +kernel⟩
  rw [Resolves, if_neg (by decide)] at h
  exact absurd (h (by decide +kernel)) (by decide +kernel)

end Sigscanner

end Jiaa.Game
