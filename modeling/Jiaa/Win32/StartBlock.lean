/-
  Jiaa.Win32.StartBlock — where the first table base is looked for
  (memflow-win32 `kernel/start_block.rs`, `kernel/start_block/{x64,x86,x86pae}.rs`;
  memflow `architecture/x86/mod.rs`: `underlying_arch`).

  The low megabytes of the physical memory are read in one call and their pages checked
  one after the other. On x64 the stub of the boot processor is looked for first, in the
  first megabyte without its first page; a stub with a null table base counts as found,
  and the pages are searched for a table that refers to itself instead.

  A page handed to a check is always whole, so no index of a check is out of bounds.
-/

import Jiaa.Iter.PageChunks
import Jiaa.Lib.First
import Jiaa.Win32.ProcessList

namespace Jiaa

/-- The statics of `architecture/x86`, told apart by their addresses, and any other. -/
inductive ArchStatic where
  | x64
  | x32
  | x32Pae
  | other
  deriving DecidableEq, Repr

def underlyingArch : ArchStatic → Option X86Architecture
  | .x64 => some x64Arch
  | .x32 => some x32Arch
  | .x32Pae => some x32PaeArch
  | .other => none

namespace Size

def kb (n : Nat) : Nat := n * 1024

def mb (n : Nat) : Nat := n * 1024 * 1024

def gb (n : Nat) : Nat := n * 1024 * 1024 * 1024

end Size

/-- `chunks_exact`: what is left at the end is dropped. -/
def chunksExact {α : Type*} (n : Nat) (l : List α) : List (List α) :=
  (List.range (l.length / n)).map fun i => (l.drop (n * i)).take n

/-- `u64::from_le_bytes(c[i..i + 8])`. -/
def qword (c : List UInt8) (i : Nat) : Nat := leU64 ((c.drop i).take 8)

/-- `u32::from_le_bytes(c[i..i + 4])`. -/
def dword (c : List UInt8) (i : Nat) : Nat := leU64 ((c.drop i).take 4)

namespace Win32.StartBlock

/-- `ok_or_else`. -/
def okOrElse {α : Type} (o : Option α) (err : Error) : Except Error α :=
  match o with
  | some a => .ok a
  | none => .error err

@[simp] theorem okOrElse_eq_ok {α : Type} {o : Option α} {err : Error} {a : α} : okOrElse o err = .ok a ↔ o = some a := by
  cases o with
  | none => simp [okOrElse]
  | some b => simp [okOrElse]

/-! ## x64 -/

namespace X64

/-- `find_lowstub`: the three filters. -/
def isLowstub (c : List UInt8) : Bool :=
  (0xffffffffffff00ff &&& qword c 0 == 0x00000001000600E9) &&
    (0xfffff80000000003 &&& qword c 0x70 == 0xfffff80000000000) &&
    (0xffffff0000000fff &&& qword c 0xa0 == 0)

def findLowstub (stub : List UInt8) : Except Error StartBlock :=
  okOrElse ((((chunksExact x64Arch.pageSize stub).drop 1).find? isLowstub).map fun c =>
      ⟨x64Arch, qword c 0x70, qword c 0xa0⟩)
    (.initialization "unable to find x64 dtb in lowstub < 1M")

/-- The entries of the second half. -/
def upperEntries (mem : List UInt8) : List Nat := (chunksExact 8 (mem.drop 0x800)).map leU64

def findPt (addr : Nat) (mem : List UInt8) : Option Nat :=
  let maxMem := Size.gb 512
  let pte := qword mem 0
  if pte &&& 0x0000000000000087 ≠ 0x7 ∨ maxMem < pte &&& 0x0000fffffffff000 then none
  else
    ((upperEntries mem).find? fun a => (a ^^^ 0x0000000000000063) &&& (2 ^ 64 - 1 - 2 ^ 63) == addr).bind fun _ =>
      ((upperEntries mem).filter fun a => a &&& 0xff == 0x63)[5]?.map fun _ => addr

def find (mem : List UInt8) : Except Error StartBlock :=
  okOrElse (((chunksExact x64Arch.pageSize mem).zipIdx.findSome? fun x => findPt (x.2 * x64Arch.pageSize) x.1).map fun addr =>
      ⟨x64Arch, 0, addr⟩)
    (.initialization "unable to find x64 dtb in lowstub < 16M")

end X64

/-! ## x86 -/

namespace X86

def checkPage (base : Nat) (mem : List UInt8) : Bool :=
  if mem.getD 0 0 ≠ 0x67 then false
  else if dword mem 0xc00 &&& 0xfffff003 ≠ (base % 2 ^ 32 + 0x3) % 2 ^ 32 then false
  else
    16 < (((List.range ((mem.length + 3) / 4)).drop 0x200).filter fun i =>
      let x := mem.getD (4 * i) 0
      x == 0x63 || x == 0xe3).length

def find (mem : List UInt8) : Except Error StartBlock :=
  okOrElse (((pageChunks mem 0 x32Arch.pageSize).find? fun x => checkPage x.1 x.2).map fun x => ⟨x32Arch, 0, x.1⟩)
    (.initialization "unable to find x86 dtb in lowstub < 16M")

end X86

/-! ## x86 with PAE -/

namespace X86Pae

def checkPage (addr : Nat) (mem : List UInt8) : Bool :=
  (chunksExact 8 mem).zipIdx.all fun (chunk, i) =>
    let qword := leU64 chunk
    !((decide (i < 4) && qword != Address.add (Address.add addr ((i * 8) <<< 9)) 0x1001) || (decide (4 ≤ i) && qword != 0))

def find (mem : List UInt8) : Except Error StartBlock :=
  okOrElse (((pageChunks mem 0 x32PaeArch.pageSize).find? fun x => checkPage x.1 x.2).map fun x => ⟨x32PaeArch, 0, x.1⟩)
    (.initialization "unable to find x86_pae dtb in lowstub < 16M")

end X86Pae

/-! ## The search -/

section Find

variable {M : Type} [PhysicalMemory M]

/-- `phys_read_raw_into` of the low `n` bytes, with `?`. -/
def readLow (mem : M) (n : Nat) : M × Except Error (List UInt8) :=
  match PhysicalMemory.physReadRawList mem [(PhysicalAddress.ofAddress Address.null, List.replicate n 0)] with
  | (mem, bufs, .ok ()) => (mem, .ok (bufs.headD []))
  | (mem, _, .error e) => (mem, .error (.core e))

/-- A search of the low `n` bytes. -/
def inLow (mem : M) (n : Nat) (search : List UInt8 → Except Error StartBlock) : M × Except Error StartBlock :=
  let (mem, res) := readLow mem n
  (mem, res.bind search)

def findFallback (mem : M) (arch : ArchStatic) : M × Except Error StartBlock :=
  if arch = .x64 then inLow mem (Size.mb 16) X64.find
  else (mem, .error (.initialization "start_block: fallback not implemented for given arch"))

/-- `find` for an architecture that is given. -/
def findArch (mem : M) (arch : ArchStatic) : M × Except Error StartBlock :=
  if arch = .x64 then
    match readLow mem (Size.mb 1) with
    | (mem, .error e) => (mem, .error e)
    | (mem, .ok low1m) =>
      match X64.findLowstub low1m with
      | .ok d => if d.dtb ≠ 0 then (mem, .ok d) else findFallback mem arch
      | .error _ => findFallback mem arch
  else if arch = .x32Pae then inLow mem (Size.mb 16) X86Pae.find
  else if arch = .x32 then inLow mem (Size.mb 16) X86.find
  else (mem, .error .invalidArchitecture)

/-- `or_else`. -/
def orElse (x : M × Except Error StartBlock) (f : M → M × Except Error StartBlock) : M × Except Error StartBlock :=
  match x with
  | (mem, .ok d) => (mem, .ok d)
  | (mem, .error _) => f mem

def find (mem : M) : Option ArchStatic → M × Except Error StartBlock
  | some arch => findArch mem arch
  | none =>
    match orElse (orElse (findArch mem .x64) (findArch · .x32Pae)) (findArch · .x32) with
    | (mem, .ok d) => (mem, .ok d)
    | (mem, .error _) => (mem, .error (.initialization "unable to find dtb"))

end Find

end Win32.StartBlock

/-! ## Pages of a memory -/

section Pages

variable (c : Nat → UInt8)

theorem slice_bytesAt (a : Nat) {n i k : Nat} (h : i + k ≤ n) :
    ((bytesAt c a n).drop i).take k = bytesAt c (a + i) k := by
  refine List.ext_getElem? fun j => ?_
  rw [List.getElem?_take]
  by_cases hj : j < k
  · rw [if_pos hj, List.getElem?_drop, getElem?_bytesAt c a (by omega), getElem?_bytesAt c (a + i) hj, Nat.add_assoc]
  · rw [if_neg hj, List.getElem?_eq_none (by simpa using hj)]

theorem qword_bytesAt (a : Nat) {n i : Nat} (h : i + 8 ≤ n) : qword (bytesAt c a n) i = readU64 c (a + i) := by
  rw [qword, slice_bytesAt c a h, readU64]

theorem dword_bytesAt (a : Nat) {n i : Nat} (h : i + 4 ≤ n) : dword (bytesAt c a n) i = leU64 (bytesAt c (a + i) 4) := by
  rw [dword, slice_bytesAt c a h]

theorem getD_bytesAt (a : Nat) {n i : Nat} (h : i < n) (d : UInt8) : (bytesAt c a n).getD i d = c ((a + i) % 2 ^ 64) := by
  rw [List.getD_eq_getElem?_getD, getElem?_bytesAt c a h, Option.getD_some]

theorem chunksExact_bytesAt (a k : Nat) {s : Nat} (hs : 0 < s) :
    chunksExact s (bytesAt c a (s * k)) = (List.range k).map fun i => bytesAt c (a + s * i) s := by
  rw [chunksExact, length_bytesAt, Nat.mul_div_cancel_left k hs]
  refine List.map_congr_left fun i hi => slice_bytesAt c a ?_
  have hi := List.mem_range.mp hi
  calc s * i + s = s * (i + 1) := (Nat.mul_succ s i).symm
    _ ≤ s * k := Nat.mul_le_mul_left s hi

end Pages

/-! ## Whole pages of a slice -/

section Whole

open PageChunkIterator

variable {α : Type*} {s : Nat}

/-- The chunk at the start of a page is the page. -/
theorem next_page (check : Nat → List α → Option (List α) → Bool) (hc : ∀ a h t, check a h t = true) (hs : 0 < s)
    (hs' : s < 2 ^ 64) (hd : s ∣ 2 ^ 64) {a : Nat} (ha : a < 2 ^ 64) (halign : a % s = 0) {l : List α} (hl : s ≤ l.length) :
    next ⟨some l, a, s, check, 0⟩ = some ((a, l.take s),
      ⟨if s = l.length then none else some (l.drop s), (a + s) % 2 ^ 64, s, check, 0⟩) := by
  have hend : endLen a s 0 = s - 1 := by rw [endLen_zero ha hs hs' hd, halign, Nat.sub_zero]
  have hone : Address.add (s - 1) 1 = s := by rw [Address.add_eq (by omega)]; omega
  have hmid : min l.length (min l.length (s - 1) + 1) = s := by omega
  have hempty : (l.drop s).isEmpty = decide (s = l.length) := by
    rw [Bool.eq_iff_iff, List.isEmpty_iff_length_eq_zero, List.length_drop, decide_eq_true_eq]
    omega
  rw [next_of_check check a s (hc a), hend, hone]
  simp only [splitInclusiveAt, hmid, hempty, decide_eq_true_eq, Address.add]

theorem collect_whole (check : Nat → List α → Option (List α) → Bool) (hc : ∀ a h t, check a h t = true) (hs : 0 < s)
    (hs' : s < 2 ^ 64) (hd : s ∣ 2 ^ 64) : ∀ (k n a : Nat) (l : List α), l.length = s * (k + 1) → a % s = 0 →
      a + s * (k + 1) ≤ 2 ^ 64 → k + 1 < n →
      collect n ⟨some l, a, s, check, 0⟩ = (List.range (k + 1)).map fun i => (a + s * i, (l.drop (s * i)).take s) := by
  intro k
  induction k with
  | zero =>
    intro n a l hl halign ha hn
    obtain ⟨n, rfl⟩ : ∃ m, n = m + 1 := ⟨n - 1, by omega⟩
    have hone : s * (0 + 1) = s := by simp
    rw [collect_cons n (next_page check hc hs hs' hd (by omega) halign (by omega)), if_pos (by omega), collect_none n rfl]
    simp
  | succ k ih =>
    intro n a l hl halign ha hn
    obtain ⟨n, rfl⟩ : ∃ m, n = m + 1 := ⟨n - 1, by omega⟩
    have hmul : s * (k + 1 + 1) = s * (k + 1) + s := Nat.mul_succ _ _
    have hpos : 0 < s * (k + 1) := Nat.mul_pos hs (by omega)
    have hrest := ih n (a + s) (l.drop s) (by rw [List.length_drop]; omega) (by rw [Nat.add_mod_right]; exact halign)
      (by omega) (by omega)
    rw [collect_cons n (next_page check hc hs hs' hd (by omega) halign (by omega)), if_neg (by omega),
      Nat.mod_eq_of_lt (by omega), hrest]
    conv_rhs => rw [List.range_succ_eq_map, List.map_cons, List.map_map]
    refine congrArg₂ List.cons (by rw [Nat.mul_zero, Nat.add_zero, List.drop_zero]) (List.map_congr_left fun i _ => ?_)
    have hi : s * (i + 1) = s + s * i := by rw [Nat.mul_succ, Nat.add_comm]
    simp only [Function.comp_apply, Nat.succ_eq_add_one, hi, List.drop_drop, Nat.add_assoc]

/-- A memory read from a page boundary on is cut into its pages. -/
theorem pageChunks_bytesAt (c : Nat → UInt8) (hs : 0 < s) (hs' : s < 2 ^ 64) (hd : s ∣ 2 ^ 64) {a k : Nat}
    (halign : a % s = 0) (ha : a + s * (k + 1) ≤ 2 ^ 64) :
    pageChunks (bytesAt c a (s * (k + 1))) a s = (List.range (k + 1)).map fun i => (a + s * i, bytesAt c (a + s * i) s) := by
  have hk : k + 1 < (bytesAt c a (s * (k + 1))).length + 1 := by
    rw [length_bytesAt]
    have : 1 * (k + 1) ≤ s * (k + 1) := Nat.mul_le_mul_right _ hs
    omega
  refine (collect_whole _ (fun _ _ _ => rfl) hs hs' hd k _ a _ (length_bytesAt _ _ _) halign ha hk).trans ?_
  refine List.map_congr_left fun i hi => ?_
  rw [slice_bytesAt]
  have hi := List.mem_range.mp hi
  calc s * i + s = s * (i + 1) := (Nat.mul_succ s i).symm
    _ ≤ s * (k + 1) := Nat.mul_le_mul_left s hi

end Whole

/-! ## The lowest page -/

namespace Win32.StartBlock

/-- The page at `p` is the lowest from page `lo` on and below page `hi` of which `P` holds. -/
structure LowestPage (P : Nat → Prop) (lo hi p : Nat) : Prop where
  aligned : p % 4096 = 0
  from_lo : lo ≤ p / 4096
  below_hi : p / 4096 < hi
  holds : P p
  lowest : ∀ q, q % 4096 = 0 → lo ≤ q / 4096 → q < p → ¬ P q

theorem LowestPage.unique {P : Nat → Prop} {lo hi p q : Nat} (hp : LowestPage P lo hi p) (hq : LowestPage P lo hi q) :
    p = q := by
  rcases Nat.lt_trichotomy p q with h | h | h
  · exact absurd hp.holds (hq.lowest p hp.aligned hp.from_lo h)
  · exact h
  · exact absurd hq.holds (hp.lowest q hq.aligned hq.from_lo h)

/-- The first of a list of pages that passes a check is the lowest page. -/
theorem find?_pages {γ : Type*} {P : Nat → Prop} {g : Nat → γ} {q : γ → Bool} (hq : ∀ p, q (g p) = true ↔ P p)
    (lo n : Nat) (x : γ) :
    ((List.range n).map fun i => g (4096 * (lo + i))).find? q = some x ↔ ∃ p, LowestPage P lo (lo + n) p ∧ g p = x := by
  rw [Lib.First.find?_range_map_iff]
  constructor
  · rintro ⟨i, h⟩
    have hhit := h.hit
    rw [Option.ite_none_right_eq_some, hq, Option.some.injEq] at hhit
    have hi := h.lt
    refine ⟨4096 * (lo + i), ⟨by omega, by omega, by omega, hhit.1, fun r hr hlo hlt hP => ?_⟩, hhit.2⟩
    obtain ⟨j, rfl⟩ : ∃ j, r = 4096 * (lo + j) := ⟨r / 4096 - lo, by omega⟩
    have hnone := h.before j (by omega)
    rw [if_pos ((hq _).mpr hP)] at hnone
    cases hnone
  · rintro ⟨p, h, rfl⟩
    have h1 := h.aligned
    have h2 := h.from_lo
    have h3 := h.below_hi
    obtain ⟨i, rfl⟩ : ∃ i, p = 4096 * (lo + i) := ⟨p / 4096 - lo, by omega⟩
    refine ⟨i, by omega, if_pos ((hq _).mpr h.holds), fun j hj => if_neg fun hP => ?_⟩
    exact h.lowest (4096 * (lo + j)) (by omega) (by omega) (by omega) ((hq _).mp hP)

/-! ## What the checks ask of a page -/

section Checks

variable (c : Nat → UInt8)

/-- The stub of the boot processor in the page at `p`. -/
structure IsLowstub (p : Nat) : Prop where
  startBytes : 0xffffffffffff00ff &&& readU64 c p = 0x00000001000600E9
  kernelEntry : 0xfffff80000000003 &&& readU64 c (p + 0x70) = 0xfffff80000000000
  pml4 : 0xffffff0000000fff &&& readU64 c (p + 0xa0) = 0

/-- A table whose second half has an entry back to it, and six entries of the kernel. -/
structure IsPml4 (p : Nat) : Prop where
  first : readU64 c p &&& 0x87 = 0x7
  inMemory : readU64 c p &&& 0x0000fffffffff000 ≤ Size.gb 512
  selfRef : ∃ k < 256, (readU64 c (p + 0x800 + 8 * k) ^^^ 0x63) &&& (2 ^ 64 - 1 - 2 ^ 63) = p
  kernel : 5 < ((List.range 256).filter fun k => readU64 c (p + 0x800 + 8 * k) &&& 0xff == 0x63).length

/-- A table that refers to itself with entry 0x300, and has over sixteen entries of the
    kernel. -/
structure IsPageDirectory (p : Nat) : Prop where
  first : c (p % 2 ^ 64) = 0x67
  selfRef : leU64 (bytesAt c (p + 0xc00) 4) &&& 0xfffff003 = (p % 2 ^ 32 + 0x3) % 2 ^ 32
  kernel : 16 < (((List.range 1024).drop 0x200).filter fun i =>
    c ((p + 4 * i) % 2 ^ 64) == 0x63 || c ((p + 4 * i) % 2 ^ 64) == 0xe3).length

/-- Four pointers to the four tables behind the page, and nothing else in it. -/
structure IsPdpt (p : Nat) : Prop where
  pointers : ∀ i < 4, readU64 c (p + 8 * i) = Address.add (Address.add p ((i * 8) <<< 9)) 0x1001
  rest : ∀ i < 512, 4 ≤ i → readU64 c (p + 8 * i) = 0

theorem isLowstub_iff (p : Nat) : X64.isLowstub (bytesAt c p 4096) = true ↔ IsLowstub c p := by
  unfold X64.isLowstub
  rw [qword_bytesAt c p (by omega), qword_bytesAt c p (by omega), qword_bytesAt c p (by omega)]
  simp only [Bool.and_eq_true, beq_iff_eq, Nat.add_zero]
  exact ⟨fun ⟨⟨h1, h2⟩, h3⟩ => ⟨h1, h2, h3⟩, fun ⟨h1, h2, h3⟩ => ⟨⟨h1, h2⟩, h3⟩⟩

theorem upperEntries_bytesAt (p : Nat) :
    X64.upperEntries (bytesAt c p 4096) = (List.range 256).map fun k => readU64 c (p + 0x800 + 8 * k) := by
  have hdrop : (bytesAt c p 4096).drop 0x800 = bytesAt c (p + 0x800) (8 * 256) := by
    rw [← slice_bytesAt c p (n := 4096) (by omega), List.take_of_length_le (by simp)]
  rw [X64.upperEntries, hdrop, chunksExact_bytesAt c _ _ (by omega), List.map_map]
  rfl

theorem findPt_eq (p : Nat) {q : Nat} : X64.findPt p (bytesAt c p 4096) = some q ↔ IsPml4 c p ∧ p = q := by
  have hfind : (∃ e, ((List.range 256).map fun k => readU64 c (p + 0x800 + 8 * k)).find?
      (fun a => (a ^^^ 0x63) &&& (2 ^ 64 - 1 - 2 ^ 63) == p) = some e) ↔
      ∃ k < 256, (readU64 c (p + 0x800 + 8 * k) ^^^ 0x63) &&& (2 ^ 64 - 1 - 2 ^ 63) = p := by
    rw [← Option.isSome_iff_exists, List.find?_isSome]
    simp [and_comm]
  have hcount : (∃ e, (((List.range 256).map fun k => readU64 c (p + 0x800 + 8 * k)).filter
      fun a => a &&& 0xff == 0x63)[5]? = some e) ↔
      5 < ((List.range 256).filter fun k => readU64 c (p + 0x800 + 8 * k) &&& 0xff == 0x63).length := by
    rw [← Option.isSome_iff_exists, isSome_getElem?, List.filter_map, List.length_map]
    rfl
  unfold X64.findPt
  rw [qword_bytesAt c p (by omega), Nat.add_zero, upperEntries_bytesAt]
  simp only [Option.ite_none_left_eq_some, not_or, Nat.not_lt, not_not, Option.bind_eq_some_iff, Option.map_eq_some_iff]
  constructor
  · rintro ⟨⟨h1, h2⟩, e, he, x, hx, rfl⟩
    exact ⟨⟨h1, h2, hfind.mp ⟨e, he⟩, hcount.mp ⟨x, hx⟩⟩, rfl⟩
  · rintro ⟨⟨h1, h2, h3, h4⟩, rfl⟩
    obtain ⟨e, he⟩ := hfind.mpr h3
    obtain ⟨x, hx⟩ := hcount.mpr h4
    exact ⟨⟨h1, h2⟩, e, he, x, hx, rfl⟩

theorem checkPage_x86_iff (p : Nat) : X86.checkPage p (bytesAt c p 4096) = true ↔ IsPageDirectory c p := by
  have hcount : ((List.range ((4096 + 3) / 4)).drop 0x200).filter (fun i =>
      (bytesAt c p 4096).getD (4 * i) 0 == 0x63 || (bytesAt c p 4096).getD (4 * i) 0 == 0xe3) =
      ((List.range 1024).drop 0x200).filter fun i => c ((p + 4 * i) % 2 ^ 64) == 0x63 || c ((p + 4 * i) % 2 ^ 64) == 0xe3 := by
    refine List.filter_congr fun i hi => ?_
    have hi := List.mem_range.mp (List.mem_of_mem_drop hi)
    rw [getD_bytesAt c p (by omega)]
  unfold X86.checkPage
  rw [length_bytesAt, getD_bytesAt c p (by omega), dword_bytesAt c p (by omega), hcount, Nat.add_zero]
  simp only [Bool.if_false_left, Bool.and_eq_true, Bool.not_eq_true', decide_eq_false_iff_not, not_not, decide_eq_true_eq]
  exact ⟨fun ⟨h1, h2, h3⟩ => ⟨h1, h2, h3⟩, fun ⟨h1, h2, h3⟩ => ⟨h1, h2, h3⟩⟩

theorem checkPage_x86Pae_iff (p : Nat) : X86Pae.checkPage p (bytesAt c p 4096) = true ↔ IsPdpt c p := by
  have hchunks : (chunksExact 8 (bytesAt c p 4096)).zipIdx = (List.range 512).map fun i => (bytesAt c (p + 8 * i) 8, i) := by
    rw [show (4096 : Nat) = 8 * 512 from rfl, chunksExact_bytesAt c p 512 (by omega)]
    refine List.ext_getElem (by simp) fun i h1 h2 => ?_
    simp
  unfold X86Pae.checkPage
  rw [hchunks, List.all_map, List.all_eq_true]
  simp only [List.mem_range, Function.comp_apply, Bool.not_eq_true', Bool.or_eq_false_iff, Bool.and_eq_false_imp,
    decide_eq_true_eq, bne_eq_false_iff_eq]
  exact ⟨fun h => ⟨fun i hi => (h i (by omega)).1 hi, fun i hi => (h i hi).2⟩,
    fun h i hi => ⟨h.pointers i, h.rest i hi⟩⟩

end Checks

/-! ## What is found -/

/-- What a search for an architecture finds. A stub with a null table base hides the stubs
    above it. -/
inductive Located (c : Nat → UInt8) : ArchStatic → StartBlock → Prop
  | lowstub {p : Nat} : LowestPage (IsLowstub c) 1 256 p → readU64 c (p + 0xa0) ≠ 0 →
      Located c .x64 ⟨x64Arch, readU64 c (p + 0x70), readU64 c (p + 0xa0)⟩
  | pml4 {p : Nat} : (∀ q, LowestPage (IsLowstub c) 1 256 q → readU64 c (q + 0xa0) = 0) →
      LowestPage (IsPml4 c) 0 4096 p → Located c .x64 ⟨x64Arch, 0, p⟩
  | pdpt {p : Nat} : LowestPage (IsPdpt c) 0 4096 p → Located c .x32Pae ⟨x32PaeArch, 0, p⟩
  | pageDirectory {p : Nat} : LowestPage (IsPageDirectory c) 0 4096 p → Located c .x32 ⟨x32Arch, 0, p⟩

section Searches

variable (c : Nat → UInt8)

theorem findLowstub_iff (sb : StartBlock) : X64.findLowstub (bytesAt c 0 (Size.mb 1)) = .ok sb ↔
    ∃ p, LowestPage (IsLowstub c) 1 256 p ∧ ⟨x64Arch, readU64 c (p + 0x70), readU64 c (p + 0xa0)⟩ = sb := by
  have hpages : (chunksExact x64Arch.pageSize (bytesAt c 0 (Size.mb 1))).drop 1 =
      (List.range 255).map fun i => bytesAt c (4096 * (1 + i)) 4096 := by
    rw [show x64Arch.pageSize = 4096 from rfl, show Size.mb 1 = 4096 * 256 from rfl, chunksExact_bytesAt c 0 256 (by omega),
      ← List.map_drop, show (256 : Nat) = 255 + 1 from rfl, List.range_succ_eq_map, List.drop_one, List.tail_cons, List.map_map]
    refine List.map_congr_left fun i _ => ?_
    rw [Function.comp_apply, Nat.zero_add, Nat.succ_eq_add_one, Nat.add_comm]
  have hfind := find?_pages (g := fun p => bytesAt c p 4096) (q := X64.isLowstub) (isLowstub_iff c) 1 255
  have hread : ∀ p, (⟨x64Arch, qword (bytesAt c p 4096) 0x70, qword (bytesAt c p 4096) 0xa0⟩ : StartBlock) =
      ⟨x64Arch, readU64 c (p + 0x70), readU64 c (p + 0xa0)⟩ := by
    intro p
    rw [qword_bytesAt c p (by omega), qword_bytesAt c p (by omega)]
  rw [X64.findLowstub, okOrElse_eq_ok, Option.map_eq_some_iff, hpages]
  constructor
  · rintro ⟨x, hx, rfl⟩
    obtain ⟨p, hp, rfl⟩ := (hfind x).mp hx
    exact ⟨p, hp, (hread p).symm⟩
  · rintro ⟨p, hp, rfl⟩
    exact ⟨_, (hfind _).mpr ⟨p, hp, rfl⟩, hread p⟩

theorem findX64_iff (sb : StartBlock) : X64.find (bytesAt c 0 (Size.mb 16)) = .ok sb ↔
    ∃ p, LowestPage (IsPml4 c) 0 4096 p ∧ ⟨x64Arch, 0, p⟩ = sb := by
  have hpages : (chunksExact x64Arch.pageSize (bytesAt c 0 (Size.mb 16))).zipIdx =
      (List.range 4096).map fun i => (bytesAt c (4096 * i) 4096, i) := by
    rw [show x64Arch.pageSize = 4096 from rfl, show Size.mb 16 = 4096 * 4096 from rfl,
      chunksExact_bytesAt c 0 4096 (by omega)]
    refine List.ext_getElem (by simp) fun i h1 h2 => ?_
    simp
  have hlow : ∀ q, (List.range 4096).findSome? (fun i => X64.findPt (i * 4096) (bytesAt c (4096 * i) 4096)) = some q ↔
      LowestPage (IsPml4 c) 0 4096 q := by
    intro q
    rw [Lib.First.findSome?_range_iff]
    constructor
    · rintro ⟨i, h⟩
      have hhit := h.hit
      rw [Nat.mul_comm] at hhit
      obtain ⟨hp, rfl⟩ := (findPt_eq c _).mp hhit
      have hi := h.lt
      refine ⟨by omega, by omega, by omega, hp, fun r hr _ hlt hP => ?_⟩
      obtain ⟨j, rfl⟩ : ∃ j, r = 4096 * j := ⟨r / 4096, by omega⟩
      have hnone := h.before j (by omega)
      rw [Nat.mul_comm, (findPt_eq c _).mpr ⟨hP, rfl⟩] at hnone
      cases hnone
    · intro h
      have h1 := h.aligned
      have h2 := h.below_hi
      obtain ⟨i, rfl⟩ : ∃ i, q = 4096 * i := ⟨q / 4096, by omega⟩
      refine ⟨i, by omega, by rw [Nat.mul_comm]; exact (findPt_eq c _).mpr ⟨h.holds, rfl⟩, fun j hj => ?_⟩
      rw [Nat.mul_comm]
      cases hf : X64.findPt (4096 * j) (bytesAt c (4096 * j) 4096) with
      | none => rfl
      | some r => exact absurd ((findPt_eq c _).mp hf).1 (h.lowest (4096 * j) (by omega) (by omega) (by omega))
  have hsize : x64Arch.pageSize = 4096 := rfl
  rw [X64.find, okOrElse_eq_ok, Option.map_eq_some_iff, hpages, List.findSome?_map]
  simp only [Function.comp_def, hsize, hlow]

/-- The two searches that check the pages of the low 16 megabytes one after the other. -/
theorem find?_pageChunks {P : Nat → Prop} {check : Nat → List UInt8 → Bool}
    (hcheck : ∀ p, check p (bytesAt c p 4096) = true ↔ P p) (x : Nat × List UInt8) :
    (pageChunks (bytesAt c 0 (Size.mb 16)) 0 4096).find? (fun x => check x.1 x.2) = some x ↔
      ∃ p, LowestPage P 0 4096 p ∧ (p, bytesAt c p 4096) = x := by
  have hd : (4096 : Nat) ∣ 2 ^ 64 := Nat.pow_dvd_pow 2 (show 12 ≤ 64 by omega)
  have hpages := pageChunks_bytesAt c (s := 4096) (a := 0) (k := 4095) (by omega) (by omega) hd (Nat.zero_mod _) (by omega)
  rw [show Size.mb 16 = 4096 * (4095 + 1) from rfl, hpages]
  have hfind := find?_pages (P := P) (g := fun p => (p, bytesAt c p 4096)) (q := fun x => check x.1 x.2)
    (fun p => by dsimp only; exact hcheck p) 0 4096 x
  simpa only [Nat.zero_add] using hfind

theorem findX86_iff (sb : StartBlock) : X86.find (bytesAt c 0 (Size.mb 16)) = .ok sb ↔
    ∃ p, LowestPage (IsPageDirectory c) 0 4096 p ∧ ⟨x32Arch, 0, p⟩ = sb := by
  have hfind : ∀ x, (pageChunks (bytesAt c 0 (Size.mb 16)) 0 x32Arch.pageSize).find? (fun x => X86.checkPage x.1 x.2) =
      some x ↔ ∃ p, LowestPage (IsPageDirectory c) 0 4096 p ∧ (p, bytesAt c p 4096) = x := find?_pageChunks c (checkPage_x86_iff c)
  rw [X86.find, okOrElse_eq_ok, Option.map_eq_some_iff]
  constructor
  · rintro ⟨x, hx, rfl⟩
    obtain ⟨p, hp, rfl⟩ := (hfind x).mp hx
    exact ⟨p, hp, rfl⟩
  · rintro ⟨p, hp, rfl⟩
    exact ⟨_, (hfind (p, bytesAt c p 4096)).mpr ⟨p, hp, rfl⟩, rfl⟩

theorem findX86Pae_iff (sb : StartBlock) : X86Pae.find (bytesAt c 0 (Size.mb 16)) = .ok sb ↔
    ∃ p, LowestPage (IsPdpt c) 0 4096 p ∧ ⟨x32PaeArch, 0, p⟩ = sb := by
  have hfind : ∀ x, (pageChunks (bytesAt c 0 (Size.mb 16)) 0 x32PaeArch.pageSize).find? (fun x => X86Pae.checkPage x.1 x.2) =
      some x ↔ ∃ p, LowestPage (IsPdpt c) 0 4096 p ∧ (p, bytesAt c p 4096) = x := find?_pageChunks c (checkPage_x86Pae_iff c)
  rw [X86Pae.find, okOrElse_eq_ok, Option.map_eq_some_iff]
  constructor
  · rintro ⟨x, hx, rfl⟩
    obtain ⟨p, hp, rfl⟩ := (hfind x).mp hx
    exact ⟨p, hp, rfl⟩
  · rintro ⟨p, hp, rfl⟩
    exact ⟨_, (hfind (p, bytesAt c p 4096)).mpr ⟨p, hp, rfl⟩, rfl⟩

end Searches

section Find

variable {M : Type} [PhysicalMemory M] [LawfulMemory M] [AnswersReads M]

/-- A memory that answers hands over its low bytes, and they stay what they are. -/
theorem readLow_eq (mem : M) (n : Nat) :
    ∃ mem' low, readLow mem n = (mem', .ok low) ∧ low = bytesAt (content mem) 0 n ∧ content mem' = content mem := by
  have hres := AnswersReads.read mem [(PhysicalAddress.ofAddress Address.null, List.replicate n 0)]
  have hbufs := LawfulMemory.read_ok mem _ hres
  have hcont := LawfulMemory.read_content mem [(PhysicalAddress.ofAddress Address.null, List.replicate n 0)]
  rcases hread : PhysicalMemory.physReadRawList mem [(PhysicalAddress.ofAddress Address.null, List.replicate n 0)] with
    ⟨mem', bufs, res⟩
  rw [hread] at hres hbufs hcont
  dsimp only at hres hbufs hcont
  subst hres hbufs
  refine ⟨mem', _, ?_, rfl, hcont⟩
  rw [readLow, hread]
  simp [PhysicalAddress.ofAddress, Address.null]

/-- A search that leaves the memory at `c` and finds what `P` says. -/
structure Finds (c : Nat → UInt8) (P : StartBlock → Prop) (x : M × Except Error StartBlock) : Prop where
  same : content x.1 = c
  found : ∀ sb, x.2 = .ok sb ↔ P sb

/-- What `P` says, or `Q` where `P` says nothing. -/
def Either (P Q : StartBlock → Prop) (sb : StartBlock) : Prop := P sb ∨ (∀ b, ¬ P b) ∧ Q sb

omit [AnswersReads M] in
theorem Finds.orElse {c : Nat → UInt8} {P Q : StartBlock → Prop} {x : M × Except Error StartBlock}
    {f : M → M × Except Error StartBlock} (hx : Finds c P x) (hf : ∀ mem : M, content mem = c → Finds c Q (f mem)) :
    Finds c (Either P Q) (orElse x f) := by
  rcases x with ⟨mem, d | d⟩
  · have hno : ∀ b, ¬ P b := fun b hb => by cases (hx.found b).mpr hb
    have h := hf mem hx.same
    refine ⟨h.same, fun sb => (h.found sb).trans ⟨fun hq => Or.inr ⟨hno, hq⟩, ?_⟩⟩
    rintro (hp | ⟨-, hq⟩)
    · exact absurd hp (hno sb)
    · exact hq
  · have hd : P d := (hx.found d).mp rfl
    refine ⟨hx.same, fun sb => (hx.found sb).trans ⟨Or.inl, ?_⟩⟩
    rintro (hp | ⟨hno, -⟩)
    · exact hp
    · exact absurd hd (hno d)

theorem finds_inLow (mem : M) (n : Nat) {search : List UInt8 → Except Error StartBlock} {P : StartBlock → Prop}
    (h : ∀ sb, search (bytesAt (content mem) 0 n) = .ok sb ↔ P sb) : Finds (content mem) P (inLow mem n search) := by
  obtain ⟨mem', low, hread, hlow, hc⟩ := readLow_eq mem n
  rw [← hlow] at h
  rw [inLow, hread]
  exact ⟨hc, h⟩

/-- The fallback does not look for a stub. -/
theorem finds_findFallback (mem : M) : Finds (content mem)
    (fun sb => ∃ p, LowestPage (IsPml4 (content mem)) 0 4096 p ∧ ⟨x64Arch, 0, p⟩ = sb) (findFallback mem .x64) := by
  rw [findFallback, if_pos rfl]
  exact finds_inLow mem (Size.mb 16) (findX64_iff (content mem))

omit [AnswersReads M] in
/-- Where no stub with a table base is found, the pages are searched. -/
theorem Finds.pml4 {c : Nat → UInt8} {x : M × Except Error StartBlock}
    (h : Finds c (fun sb => ∃ p, LowestPage (IsPml4 c) 0 4096 p ∧ ⟨x64Arch, 0, p⟩ = sb) x)
    (hzero : ∀ p, LowestPage (IsLowstub c) 1 256 p → readU64 c (p + 0xa0) = 0) : Finds c (Located c .x64) x := by
  refine ⟨h.same, fun sb => (h.found sb).trans ⟨?_, fun hl => ?_⟩⟩
  · rintro ⟨p, hp, rfl⟩
    exact .pml4 hzero hp
  · cases hl with
    | lowstub hp hne => exact absurd (hzero _ hp) hne
    | pml4 _ hp => exact ⟨_, hp, rfl⟩

/-- The search for a given architecture. -/
theorem finds_findArch (mem : M) (arch : ArchStatic) : Finds (content mem) (Located (content mem) arch) (findArch mem arch) := by
  cases arch with
  | x64 =>
    obtain ⟨mem1, low, hread, hlow, hc1⟩ := readLow_eq mem (Size.mb 1)
    have hstub := findLowstub_iff (content mem)
    have hfall := finds_findFallback mem1
    rw [← hlow] at hstub
    rw [hc1] at hfall
    rw [findArch, if_pos rfl, hread]
    dsimp only
    cases hfind : X64.findLowstub low with
    | error e =>
      refine hfall.pml4 fun p hp => ?_
      rw [(hstub _).mpr ⟨p, hp, rfl⟩] at hfind
      cases hfind
    | ok d =>
      obtain ⟨p, hp, rfl⟩ := (hstub d).mp hfind
      dsimp only
      by_cases hz : readU64 (content mem) (p + 0xa0) = 0
      · rw [if_neg (not_not.mpr hz)]
        refine hfall.pml4 fun q hq => ?_
        rw [hq.unique hp]
        exact hz
      · rw [if_pos hz]
        refine ⟨hc1, fun sb => ?_⟩
        rw [Except.ok.injEq]
        constructor
        · rintro rfl
          exact .lowstub hp hz
        · intro h
          cases h with
          | lowstub hq _ => rw [hq.unique hp]
          | pml4 hzero _ => exact absurd (hzero _ hp) hz
  | x32 =>
    rw [findArch, if_neg (by decide), if_neg (by decide), if_pos rfl]
    refine finds_inLow mem (Size.mb 16) fun sb => (findX86_iff (content mem) sb).trans ⟨?_, fun h => ?_⟩
    · rintro ⟨p, hp, rfl⟩
      exact .pageDirectory hp
    · cases h with
      | pageDirectory hp => exact ⟨_, hp, rfl⟩
  | x32Pae =>
    rw [findArch, if_neg (by decide), if_pos rfl]
    refine finds_inLow mem (Size.mb 16) fun sb => (findX86Pae_iff (content mem) sb).trans ⟨?_, fun h => ?_⟩
    · rintro ⟨p, hp, rfl⟩
      exact .pdpt hp
    · cases h with
      | pdpt hp => exact ⟨_, hp, rfl⟩
  | other => exact ⟨rfl, fun sb => iff_of_false (by simp [findArch]) fun h => by cases h⟩

/-- What is found for an architecture, and for none: the first of the three that has one. -/
def Searched (c : Nat → UInt8) : Option ArchStatic → StartBlock → Prop
  | some arch => Located c arch
  | none => Either (Either (Located c .x64) (Located c .x32Pae)) (Located c .x32)

theorem finds_find (mem : M) (arch : Option ArchStatic) :
    Finds (content mem) (Searched (content mem) arch) (find mem arch) := by
  cases arch with
  | some arch => exact finds_findArch mem arch
  | none =>
    have hother : ∀ arch (mem' : M), content mem' = content mem →
        Finds (content mem) (Located (content mem) arch) (findArch mem' arch) := by
      intro arch mem' h
      rw [← h]
      exact finds_findArch mem' arch
    have hnone := ((hother .x64 mem rfl).orElse (hother .x32Pae)).orElse (hother .x32)
    unfold find
    rcases horelse : orElse (orElse (findArch mem .x64) (findArch · .x32Pae)) (findArch · .x32) with ⟨mem', e | d⟩
    · rw [horelse] at hnone
      exact ⟨hnone.same, fun b => (show _ ↔ _ by simp).trans (hnone.found b)⟩
    · rw [horelse] at hnone
      exact hnone

/-- The start block that is found, for an architecture and for none. -/
theorem find_iff (mem : M) (sb : StartBlock) :
    (∀ arch, (find mem (some arch)).2 = .ok sb ↔ Located (content mem) arch sb) ∧
    ((find mem none).2 = .ok sb ↔
      Either (Either (Located (content mem) .x64) (Located (content mem) .x32Pae)) (Located (content mem) .x32) sb) ∧
    ∀ arch, content (find mem arch).1 = content mem :=
  ⟨fun arch => (finds_find mem (some arch)).found sb, (finds_find mem none).found sb, fun arch => (finds_find mem arch).same⟩

/-- A table at page 1, without a stub anywhere. -/
def selfMapped : FlatMemory := .ofWords
  [(0x1000, 0x7), (0x1800, 0x1063), (0x1808, 0x1063), (0x1810, 0x1063), (0x1818, 0x1063), (0x1820, 0x1063), (0x1828, 0x1063)]

theorem no_lowstub_selfMapped (p : Nat) : ¬ LowestPage (IsLowstub selfMapped.bytes) 1 256 p := by
  have hnone : ∀ i < 256, 0xffffffffffff00ff &&& readU64 selfMapped.bytes (4096 * i) ≠ 0x00000001000600E9 := by decide +kernel
  intro h
  have h1 := h.aligned
  obtain ⟨i, rfl⟩ : ∃ i, p = 4096 * i := ⟨p / 4096, by omega⟩
  exact hnone i (by have := h.below_hi; omega) h.holds.startBytes

theorem pml4_selfMapped : LowestPage (IsPml4 selfMapped.bytes) 0 4096 0x1000 := by
  refine ⟨rfl, by omega, by omega, ⟨by decide +kernel, by decide +kernel, ⟨0, by omega, by decide +kernel⟩, by decide +kernel⟩, ?_⟩
  intro q hq _ hlt hP
  obtain rfl : q = 0 := by omega
  have hfirst : readU64 selfMapped.bytes 0 &&& 0x87 ≠ 0x7 := by decide +kernel
  exact hfirst hP.first

theorem find_iff_selfMapped : (find selfMapped none).2 = .ok ⟨x64Arch, 0, 0x1000⟩ :=
  (find_iff selfMapped ⟨x64Arch, 0, 0x1000⟩).2.1.mpr
    (Or.inl (Or.inl (.pml4 (fun q hq => absurd hq (no_lowstub_selfMapped q)) pml4_selfMapped)))

end Find

end Win32.StartBlock

end Jiaa
