/-
  Jiaa.Types.Address — addresses, page types and physical addresses
  (memflow `types/address.rs`, `types/page.rs`, `types/physical_address.rs`).

  An address is a 64-bit word, kept as a natural number. Its arithmetic wraps at
  `2 ^ 64`, as in a build without overflow checks; every theorem that needs a sum not
  to wrap says so. `usize` is 64 bits wide.
-/

import Jiaa.Lib.Bits

namespace Jiaa

namespace Address

def null : Nat := 0

/-- `!0`. -/
def invalid : Nat := 2 ^ 64 - 1

def isValid (a : Nat) : Bool := a != invalid

/-- The bits `start` to `stop`, both included: the source shifts by `63 - stop`. -/
def bitMask (start stop : Nat) : Nat :=
  ((2 ^ 64 - 1) >>> (63 - stop)) &&& (2 ^ 64 - 1 - ((1 <<< start) - 1))

def asPageAligned (a : Nat) (pageSize : Nat) : Nat := a - a % pageSize

def bitAt (a : Nat) (idx : Nat) : Bool := (a &&& (1 <<< idx)) != 0

/-- `u64 + u64` and `u64 - u64`, wrapping. -/
def add (a b : Nat) : Nat := (a + b) % 2 ^ 64

def sub (a b : Nat) : Nat := (a + 2 ^ 64 - b) % 2 ^ 64

theorem add_eq {a b : Nat} (h : a + b < 2 ^ 64) : add a b = a + b := Nat.mod_eq_of_lt h

theorem sub_eq {a b : Nat} (hb : b ≤ a) (ha : a < 2 ^ 64) : sub a b = a - b := by
  unfold sub; omega

theorem add_lt (a b : Nat) : add a b < 2 ^ 64 := Nat.mod_lt _ (by omega)

theorem asPageAligned_eq (a s : Nat) : asPageAligned a s = a / s * s := Lib.Bits.sub_mod_eq_div_mul a s

theorem asPageAligned_le (a s : Nat) : asPageAligned a s ≤ a := Nat.sub_le _ _

theorem asPageAligned_mod (a s : Nat) : asPageAligned a s % s = 0 := by
  rw [asPageAligned_eq]; exact Nat.mul_mod_left _ _

/-- The mask of `bitMask` is a band. -/
theorem bitMask_eq {start stop : Nat} (h : start ≤ stop) (hs : stop < 64) :
    bitMask start stop = 2 ^ (stop + 1) - 2 ^ start := by
  have hsh : (2 ^ 64 - 1) >>> (63 - stop) = 2 ^ (stop + 1) - 1 := by
    rw [Nat.shiftRight_eq_div_pow, show (64 : Nat) = (stop + 1) + (63 - stop) by omega, Nat.pow_add]
    have h2 : 0 < 2 ^ (63 - stop) := Nat.two_pow_pos _
    have h1 : 0 < 2 ^ (stop + 1) := Nat.two_pow_pos _
    apply Nat.div_eq_of_lt_le
    · rw [Nat.sub_mul]; omega
    · rw [show 2 ^ (stop + 1) - 1 + 1 = 2 ^ (stop + 1) by omega]
      have := Nat.mul_pos h1 h2
      omega
  have hlow : 2 ^ 64 - 1 - ((1 <<< start) - 1) = 2 ^ 64 - 2 ^ start := by
    rw [Nat.one_shiftLeft]
    have : 0 < 2 ^ start := Nat.two_pow_pos _
    omega
  unfold bitMask
  rw [hsh, hlow, Nat.and_comm, Lib.Bits.and_lowBand]
  apply Nat.eq_of_testBit_eq
  intro i
  rw [Nat.testBit_mod_two_pow, Lib.Bits.testBit_band (by omega), Lib.Bits.testBit_band (by omega)]
  by_cases hi : i < stop + 1
  · simp [hi, show i < 64 by omega]
  · simp [hi]

theorem and_bitMask {start stop : Nat} (h : start ≤ stop) (hs : stop < 64) (a : Nat) :
    a &&& bitMask start stop = a % 2 ^ (stop + 1) / 2 ^ start * 2 ^ start := by
  rw [bitMask_eq h hs, Lib.Bits.and_band (by omega)]

end Address

/-! ## Page types -/

/-- The `bitflags` byte of `types/page.rs`. -/
abbrev PageType := BitVec 8

namespace PageType

def none : PageType := 0b00000000#8
def unknown : PageType := 0b00000001#8
def pageTable : PageType := 0b00000010#8
def writeable : PageType := 0b00000100#8
def readOnly : PageType := 0b00001000#8
def noExec : PageType := 0b00010000#8

/-- `bitflags`' `contains`: every flag of `t` is set in `mask`. -/
def contains (mask t : PageType) : Bool := mask &&& t == t

def write (t : PageType) (flag : Bool) : PageType :=
  let t := t &&& ~~~(writeable ||| readOnly ||| unknown)
  if flag then t ||| writeable else t ||| readOnly

def noexec (t : PageType) (flag : Bool) : PageType :=
  let t := t &&& ~~~noExec
  if flag then t ||| noExec else t

end PageType

/-! ## Physical addresses -/

structure PhysicalAddress where
  address : Nat
  pageType : PageType
  pageSizeLog2 : Nat
  deriving DecidableEq, Repr

namespace PhysicalAddress

/-- `From<Address>`: no page information. -/
def ofAddress (a : Nat) : PhysicalAddress := ⟨a, PageType.unknown, 0⟩

def invalid : PhysicalAddress := ⟨Address.invalid, PageType.unknown, 0⟩

/-- `64 - leading_zeros` of the page size, less two, as a `u8`. -/
def withPage (a : Nat) (t : PageType) (pageSize : Nat) : PhysicalAddress :=
  ⟨a, t, ((if pageSize = 0 then 0 else pageSize.log2 + 1) + 2 ^ 8 - 2) % 2 ^ 8⟩

/-- `(2 << self.page_size_log2) as usize`, the shift one of 32 bits. -/
def pageSize (p : PhysicalAddress) : Nat := ((2#32 <<< (p.pageSizeLog2 % 32)).signExtend 64).toNat

def isValid (p : PhysicalAddress) : Bool := Address.isValid p.address

def hasPage (p : PhysicalAddress) : Bool := p.pageSizeLog2 != 0

end PhysicalAddress

/-! ## Errors (`error.rs`) -/

inductive Error where
  | other (e : String)
  | partialData
  | bounds
  | ioError (e : String)
  | invalidArchitecture
  | connector (e : String)
  | physicalMemory (e : String)
  | virtualTranslate
  | virtualMemory (e : String)
  | encoding
  deriving DecidableEq, Repr

end Jiaa
