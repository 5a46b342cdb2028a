/-
  Jiaa.Win32.Ntos — where the image of the kernel is looked for
  (memflow-win32 `kernel/ntos.rs`, `kernel/ntos/{x64,x86,pehelper}.rs`).

  A page is a candidate if it starts with the header of an image; the candidate whose
  export table names `ntoskrnl.exe` is the kernel. The parser is a crate's: `PeParser` is
  what is used of it, with its errors as they are converted.

  With a hint, regions of two megabytes are searched downwards from it; without one, the
  regions of a map of the pages, or with 32 bits a fixed range upwards. The address of a
  region wraps, as in a build without overflow checks.
-/

import Jiaa.Lib.First
import Jiaa.Win32.StartBlock

namespace Jiaa.Win32.Ntos

structure PeParser where
  /-- `e_magic` and `e_lfanew` of a page. -/
  dosHeader : List UInt8 → Nat × Int
  /-- `PeView::from_bytes` and `SizeOfImage` of the optional header. -/
  sizeOfImage : List UInt8 → Except Error Nat
  /-- `PeView::from_bytes`, and the name in the export table as a string. -/
  dllName : List UInt8 → Except Error String

namespace PeParser

variable (self : PeParser)

/-- The two filters on the header. -/
def isImage (page : List UInt8) : Bool := (self.dosHeader page).1 == 0x5a4d && decide ((self.dosHeader page).2 ≤ 0x800)

section Read

variable {W : Type} [VirtualMemory W]

def tryGetPeSize (probeAddr : Nat) : ReadM W Nat := do
  let probeBuf ← readRawInto probeAddr (List.replicate (Size.kb 4) 0)
  match self.sizeOfImage probeBuf with
  | .error e => throw e
  | .ok sizeOfImage =>
    if 0 < sizeOfImage then pure sizeOfImage else throw (.initialization "pe size_of_image is zero")

def tryGetPeImage (probeAddr : Nat) : ReadM W (List UInt8) := do
  let sizeOfImage ← self.tryGetPeSize probeAddr
  readRawPart probeAddr sizeOfImage

def tryGetPeName (probeAddr : Nat) : ReadM W String := do
  let image ← self.tryGetPeImage probeAddr
  match self.dllName image with
  | .error e => throw e
  | .ok name => pure name

end Read

end PeParser

variable (pe : PeParser)

section Search

variable {W : Type} [VirtualMemory W]

/-! ## x64 -/

namespace X64

/-- `unwrap_or_default` of the name. -/
def isNtos (name : Except Error String) : Bool := (name.toOption.getD "") == "ntoskrnl.exe"

def findWithVa (vaBase : Nat) : ReadM W Nat := do
  let buf ← readPart vaBase (Size.mb 2)
  let images := (chunksExact x64Arch.pageSize buf).zipIdx.filter fun x => pe.isImage x.1
  let found ← firstM (fun x : List UInt8 × Nat => do
    let name ← attempt (pe.tryGetPeName (Address.add vaBase (x.2 * x64Arch.pageSize)))
    pure (if isNtos name then some (Address.add vaBase (x.2 * x64Arch.pageSize)) else none)) images
  match found with
  | some va => pure va
  | none => throw (.initialization "unable to locate ntoskrnl.exe")

/-- The `while` loop; `none` is one that has used up its rounds. -/
def hintLoop (kernelHint : Nat) : Nat → Nat → ReadM W (Nat × Nat)
  | 0, _ => fun _ => none
  | rounds + 1, vaBase =>
    if kernelHint < Address.add vaBase (Size.mb 16) then do
      match ← attempt (findWithVa pe vaBase) with
      | .ok addr => do
        let sizeOfImage ← pe.tryGetPeSize addr
        pure (addr, sizeOfImage)
      | .error _ => hintLoop kernelHint rounds (Address.sub vaBase (Size.mb 2))
    else throw (.initialization "x64::find_with_va_hint: unable to locate ntoskrnl.exe via va hint")

/-- `kernel_hint & !0x0001_ffff`. -/
def hintBase (kernelHint : Nat) : Nat := kernelHint &&& (2 ^ 64 - 1 - 0x1ffff)

def findWithVaHint (rounds : Nat) (startBlock : StartBlock) : ReadM W (Nat × Nat) :=
  hintLoop pe startBlock.kernelHint rounds (hintBase startBlock.kernelHint)

/-- The regions of a page map that are searched. -/
def regions (pageMap : List (Nat × Nat)) : List Nat :=
  ((pageMap.flatMap fun x => pageChunks x.2 x.1 (Size.mb 2)).filter fun x => x.2 == Size.mb 2).map (·.1)

/-- `virt_page_map_range` is the method of the memory. -/
def readPageMap (virtPageMapRange : W → Nat → Nat → Nat → Option (W × List (Nat × Nat))) (startBlock : StartBlock) :
    ReadM W (List (Nat × Nat)) := fun w =>
  (virtPageMapRange w (Size.mb 2) (2 ^ 64 - 1 - 1 <<< (startBlock.arch.mmu.addressSpaceBits - 1)) (2 ^ 64 - 1)).map
    fun (w, map) => (.ok map, w)

def find (virtPageMapRange : W → Nat → Nat → Nat → Option (W × List (Nat × Nat))) (startBlock : StartBlock) :
    ReadM W (Nat × Nat) := do
  let pageMap ← readPageMap virtPageMapRange startBlock
  let found ← firstM (fun va => do
    let res ← attempt (findWithVa pe va)
    pure res.toOption) (regions pageMap)
  match found with
  | some addr => do
    let sizeOfImage ← pe.tryGetPeSize addr
    pure (addr, sizeOfImage)
  | none => throw (.initialization "x64::find: unable to locate ntoskrnl.exe with a page map")

end X64

/-! ## x86 -/

namespace X86

/-- A page with the header of an image, in the 8 megabytes at `base`. -/
def probe (base : Nat) (page : List UInt8) (i : Nat) : ReadM W (Option (Nat × Nat)) :=
  if pe.isImage page then do
    let imageBase := base + i * Size.kb 4
    match ← attempt (pe.tryGetPeName imageBase) with
    | .error _ => pure none
    | .ok name =>
      if name = "ntoskrnl.exe" then do
        match ← attempt (pe.tryGetPeSize imageBase) with
        | .ok sizeOfImage => pure (some (imageBase, sizeOfImage))
        | .error _ => pure none
      else pure none
  else pure none

def find : ReadM W (Nat × Nat) := do
  let found ← firstM (fun j => do
    let base := Size.gb 2 + j * Size.mb 8
    let buf ← readPart base (Size.mb 8)
    firstM (fun x : List UInt8 × Nat => probe pe base x.1 x.2) (chunksExact (Size.kb 4) buf).zipIdx) (List.range 32)
  match found with
  | some res => pure res
  | none => throw (.initialization "find_x86(): unable to locate ntoskrnl.exe in high mem")

end X86

/-- `match` on a result, its error logged and the next search made. -/
def orNext (x next : ReadM W (Nat × Nat)) : ReadM W (Nat × Nat) := do
  match ← attempt x with
  | .ok b => pure b
  | .error _ => next

def find (rounds : Nat) (virtPageMapRange : W → Nat → Nat → Nat → Option (W × List (Nat × Nat))) (startBlock : StartBlock) :
    ReadM W (Nat × Nat) :=
  let failed : ReadM W (Nat × Nat) := throw (.initialization "unable to find ntoskrnl.exe")
  if startBlock.arch.bits = 64 then
    let search := orNext (X64.find pe virtPageMapRange startBlock) failed
    if startBlock.kernelHint ≠ 0 then orNext (X64.findWithVaHint pe rounds startBlock) search else search
  else if startBlock.arch.bits = 32 then orNext (X86.find pe) failed
  else failed

end Search

/-! ## What the address space holds -/

section Seen

variable (g : GuestMemory)

/-- The size of the image at an address. -/
def peSize (a : Nat) : Except Error Nat :=
  (if g.Mapped a (Size.kb 4) then .ok (g.read a (Size.kb 4)) else .error (.core .partialData) : Except Error _).bind fun page =>
    (pe.sizeOfImage page).bind fun size =>
      if 0 < size then .ok size else .error (.initialization "pe size_of_image is zero")

def peName (a : Nat) : Except Error String := (peSize pe g a).bind fun size => pe.dllName (g.read a size)

/-- At `a` is an image that names itself as the kernel. -/
def IsKernel (a : Nat) : Prop := pe.isImage (g.read a (Size.kb 4)) = true ∧ peName pe g a = .ok "ntoskrnl.exe"

theorem isNtos_iff {name : Except Error String} : X64.isNtos name = true ↔ name = .ok "ntoskrnl.exe" := by
  cases name with
  | error e => simp [X64.isNtos, Except.toOption]
  | ok s => simp [X64.isNtos, Except.toOption]

instance (a : Nat) : Decidable (IsKernel pe g a) := inferInstanceAs (Decidable (_ ∧ _))

/-- The lowest image of the kernel in `n` pages. -/
def kernelIn (va n : Nat) : Option Nat :=
  (List.range n).findSome? fun i =>
    if IsKernel pe g (Address.add va (i * 4096)) then some (Address.add va (i * 4096)) else none

theorem kernelIn_isKernel {va n a : Nat} (h : kernelIn pe g va n = some a) : IsKernel pe g a := by
  obtain ⟨i, -, hi⟩ := List.exists_of_findSome?_eq_some h
  rw [Option.ite_none_right_eq_some, Option.some.injEq] at hi
  exact hi.2 ▸ hi.1

theorem peSize_pos {a size : Nat} (h : peSize pe g a = .ok size) : 0 < size := by
  unfold peSize at h
  by_cases hm : g.Mapped a (Size.kb 4)
  · rw [if_pos hm] at h
    simp only [Except.bind] at h
    split at h
    · cases h
    · split at h
      · rename_i hpos
        cases h
        exact hpos
      · cases h
  · rw [if_neg hm] at h
    cases h

/-- An image with a name has a size. -/
theorem IsKernel.size {a : Nat} (h : IsKernel pe g a) : ∃ size, peSize pe g a = .ok size := by
  have hname := h.2
  unfold peName at hname
  cases hsize : peSize pe g a with
  | error e =>
    rw [hsize] at hname
    cases hname
  | ok size => exact ⟨size, rfl⟩

end Seen

/-! ## What is returned -/

section Gives

variable {pe} {W : Type} [VirtualMemory W] {g : GuestMemory} {P : W → Prop}

theorem gives_tryGetPeSize (hs : Shows g P) {a : Nat} (ha : a < 2 ^ 64) :
    Gives P (pe.tryGetPeSize a) (peSize pe g a) := by
  have hne : List.replicate (Size.kb 4) (0 : UInt8) ≠ [] := by
    rw [Ne, List.replicate_eq_nil_iff]
    decide
  have hread := gives_readRawInto hs ha hne
  rw [List.length_replicate] at hread
  refine hread.bind_result fun page _ => ?_
  cases hsize : pe.sizeOfImage page with
  | error e => exact .throw e
  | ok size =>
    show Gives P _ (if 0 < size then _ else _)
    dsimp only
    split
    · exact .pure _
    · exact .throw _

theorem gives_tryGetPeImage (hs : Shows g P) {a : Nat} (ha : a < 2 ^ 64) :
    Gives P (pe.tryGetPeImage a) ((peSize pe g a).bind fun size => .ok (g.read a size)) :=
  (gives_tryGetPeSize hs ha).bind_result fun _ hsize => gives_readRawPart hs ha (peSize_pos pe g hsize)

theorem gives_tryGetPeName (hs : Shows g P) {a : Nat} (ha : a < 2 ^ 64) :
    Gives P (pe.tryGetPeName a) (peName pe g a) := by
  have himage : Gives P (pe.tryGetPeImage a) ((peSize pe g a).bind fun size => .ok (g.read a size)) :=
    gives_tryGetPeImage hs ha
  have hname : peName pe g a = ((peSize pe g a).bind fun size => .ok (g.read a size)).bind pe.dllName := by
    unfold peName
    cases peSize pe g a with
    | error e => rfl
    | ok size => rfl
  rw [hname]
  refine himage.bind_result fun image _ => ?_
  cases pe.dllName image with
  | error e => exact .throw e
  | ok name => exact .pure _

/-- The pages of a region of the address space. -/
theorem pages_read (g : GuestMemory) (va k : Nat) : (chunksExact 4096 (g.read va (4096 * k))).zipIdx =
    (List.range k).map fun i => (g.read (Address.add va (i * 4096)) 4096, i) := by
  have hread : ∀ a n, g.read a n = bytesAt (fun x => (g.bytes x).getD 0) a n := fun _ _ => rfl
  have hmod : ∀ a n, bytesAt (fun x => (g.bytes x).getD 0) (a % 2 ^ 64) n = bytesAt (fun x => (g.bytes x).getD 0) a n := by
    intro a n
    unfold bytesAt
    refine List.map_congr_left fun i _ => ?_
    rw [Nat.mod_add_mod]
  rw [hread, chunksExact_bytesAt _ va k (by omega)]
  refine List.ext_getElem (by simp) fun i h1 h2 => ?_
  simp only [List.getElem_zipIdx, List.getElem_map, List.getElem_range, Nat.zero_add, hread, Address.add, hmod, Nat.mul_comm]

/-- The lowest image of the kernel in a region. -/
theorem gives_findWithVa (hs : Shows g P) {va : Nat} (hva : va < 2 ^ 64) :
    Gives P (X64.findWithVa pe va) (match kernelIn pe g va 512 with
      | some a => .ok a
      | none => .error (.initialization "unable to locate ntoskrnl.exe")) := by
  unfold X64.findWithVa
  refine (gives_readPart hs hva (by decide)).bind ?_
  dsimp only
  rw [show x64Arch.pageSize = 4096 from rfl, show Size.mb 2 = 4096 * 512 from rfl, pages_read]
  have hprobe : ∀ x ∈ ((List.range 512).map fun i => (g.read (Address.add va (i * 4096)) 4096, i)).filter
      fun x => pe.isImage x.1, Gives P (do
        let name ← attempt (pe.tryGetPeName (W := W) (Address.add va (x.2 * 4096)))
        pure (if X64.isNtos name then some (Address.add va (x.2 * 4096)) else none))
      (.ok (if X64.isNtos (peName pe g (Address.add va (x.2 * 4096))) then some (Address.add va (x.2 * 4096)) else none)) :=
    fun x _ => (gives_tryGetPeName hs (Address.add_lt _ _)).attempt.bind (.pure _)
  have hfind : (((List.range 512).map fun i => (g.read (Address.add va (i * 4096)) 4096, i)).filter
      fun x => pe.isImage x.1).findSome? (fun x =>
        if X64.isNtos (peName pe g (Address.add va (x.2 * 4096))) then some (Address.add va (x.2 * 4096)) else none) =
      kernelIn pe g va 512 := by
    rw [← List.head?_filterMap, List.filterMap_filter, List.head?_filterMap, List.findSome?_map]
    refine congrArg (fun f => (List.range 512).findSome? f) (funext fun i => ?_)
    simp only [Function.comp_apply, isNtos_iff, IsKernel, Size.kb, Nat.reduceMul]
    by_cases h1 : pe.isImage (g.read (Address.add va (i * 4096)) 4096) = true
    · simp [h1]
    · simp [h1]
  refine (hfind ▸ Gives.firstM hprobe).bind ?_
  cases kernelIn pe g va 512 with
  | none => exact .throw _
  | some a => exact .pure _

/-! ## With a hint -/

theorem hintBase_eq {h : Nat} (hh : h < 2 ^ 64) : X64.hintBase h = h / 2 ^ 17 * 2 ^ 17 := by
  have hmask : 2 ^ 64 - 1 - 0x1ffff = 2 ^ 64 - 2 ^ 17 := by decide
  rw [X64.hintBase, hmask, Lib.Bits.and_band (by omega), Nat.mod_eq_of_lt hh]

/-- The regions below a hint, downwards. -/
def hintRegion (base j : Nat) : Nat := Address.sub base (j * Size.mb 2)

theorem hintRegion_succ {base : Nat} (hb : base < 2 ^ 64) {j : Nat} (hj : j < 8) :
    hintRegion (Address.sub base (Size.mb 2)) j = hintRegion base (j + 1) := by
  unfold hintRegion Address.sub Size.mb
  omega

/-- A region below the hint is tried while it is less than 16 megabytes below it. -/
theorem region_tried {hint j : Nat} (hh : hint < 2 ^ 64) (hj : j ≤ 8)
    (htop : X64.hintBase hint + Size.mb 16 < 2 ^ 64) :
    hint < Address.add (hintRegion (X64.hintBase hint) j) (Size.mb 16) ↔ j < 8 := by
  rw [hintBase_eq hh] at htop ⊢
  unfold hintRegion Address.sub Address.add Size.mb at *
  omega

/-- The last 16 megabytes of the address space: the sum wraps and nothing is tried. -/
theorem none_tried {hint : Nat} (hh : hint < 2 ^ 64) (htop : 2 ^ 64 ≤ X64.hintBase hint + Size.mb 16) :
    ¬ hint < Address.add (X64.hintBase hint) (Size.mb 16) := by
  rw [hintBase_eq hh] at htop ⊢
  unfold Address.add Size.mb at *
  omega

/-- The kernel with its size, or an error. -/
def located (pe : PeParser) (g : GuestMemory) (err : Error) (found : Option Nat) : Except Error (Nat × Nat) :=
  match found with
  | some a => (peSize pe g a).bind fun size => .ok (a, size)
  | none => .error err

theorem gives_located (hs : Shows g P) {a : Nat} (ha : a < 2 ^ 64) (err : Error) :
    Gives P (do let size ← pe.tryGetPeSize a; pure (a, size)) (located pe g err (some a)) := by
  have h : Gives P (pe.tryGetPeSize a) (peSize pe g a) := gives_tryGetPeSize hs ha
  unfold located
  dsimp only
  generalize peSize pe g a = r at h ⊢
  exact h.bind_result (s := fun size => .ok (a, size)) fun size _ => Gives.pure (a, size)

theorem kernelIn_lt {va n a : Nat} (h : kernelIn pe g va n = some a) : a < 2 ^ 64 := by
  obtain ⟨i, -, hi⟩ := List.exists_of_findSome?_eq_some h
  rw [Option.ite_none_right_eq_some, Option.some.injEq] at hi
  rw [← hi.2]
  exact Address.add_lt _ _

theorem sub_lt (a b : Nat) : Address.sub a b < 2 ^ 64 := Nat.mod_lt _ (Nat.two_pow_pos 64)

/-- The loop tries the regions that are left, until one has the kernel. -/
theorem gives_hintLoop (hs : Shows g P) (hint : Nat) : ∀ (n rounds va : Nat), va < 2 ^ 64 → n < rounds → n ≤ 8 →
    (∀ j < n, hint < Address.add (hintRegion va j) (Size.mb 16)) → ¬ hint < Address.add (hintRegion va n) (Size.mb 16) →
    Gives P (X64.hintLoop pe hint rounds va)
      (located pe g (.initialization "x64::find_with_va_hint: unable to locate ntoskrnl.exe via va hint")
        ((List.range n).findSome? fun j => kernelIn pe g (hintRegion va j) 512)) := by
  intro n
  induction n with
  | zero =>
    intro rounds va hva hr _ _ hstop
    obtain ⟨rounds, rfl⟩ : ∃ r, rounds = r + 1 := ⟨rounds - 1, by omega⟩
    have hva' : hintRegion va 0 = va := by
      unfold hintRegion Address.sub
      omega
    rw [hva'] at hstop
    rw [X64.hintLoop, if_neg hstop]
    exact .throw _
  | succ n ih =>
    intro rounds va hva hr hn htry hstop
    obtain ⟨rounds, rfl⟩ : ∃ r, rounds = r + 1 := ⟨rounds - 1, by omega⟩
    have hva' : hintRegion va 0 = va := by
      unfold hintRegion Address.sub
      omega
    have hnext : ∀ j, j ≤ n → hintRegion (Address.sub va (Size.mb 2)) j = hintRegion va (j + 1) :=
      fun j hj => hintRegion_succ hva (by omega)
    have hfirst := htry 0 (by omega)
    rw [hva'] at hfirst
    have hrest := ih rounds (Address.sub va (Size.mb 2)) (sub_lt _ _) (by omega) (by omega)
      (fun j hj => by rw [hnext j (by omega)]; exact htry (j + 1) (by omega)) (by rw [hnext n (by omega)]; exact hstop)
    rw [X64.hintLoop, if_pos hfirst, List.range_succ_eq_map, List.findSome?_cons, hva', List.findSome?_map]
    refine (gives_findWithVa hs hva).attempt.bind ?_
    cases hk : kernelIn pe g va 512 with
    | some a => exact gives_located hs (kernelIn_lt hk) _
    | none =>
      have hcongr : (List.range n).findSome? (fun j => kernelIn pe g (hintRegion (Address.sub va (Size.mb 2)) j) 512) =
          (List.range n).findSome? ((fun j => kernelIn pe g (hintRegion va j) 512) ∘ Nat.succ) := by
        rw [← List.head?_filterMap, ← List.head?_filterMap]
        refine congrArg List.head? (List.filterMap_congr fun j hj => ?_)
        simp only [Function.comp_apply, Nat.succ_eq_add_one, hnext j (by have := List.mem_range.mp hj; omega)]
      rw [hcongr] at hrest
      exact hrest

/-- What the search with a hint finds. -/
def hinted (pe : PeParser) (g : GuestMemory) (hint : Nat) : Option Nat :=
  if X64.hintBase hint + Size.mb 16 < 2 ^ 64 then
    (List.range 8).findSome? fun j => kernelIn pe g (hintRegion (X64.hintBase hint) j) 512
  else none

/-- Nine rounds are enough. -/
theorem gives_findWithVaHint (hs : Shows g P) {sb : StartBlock} (hh : sb.kernelHint < 2 ^ 64) {rounds : Nat}
    (hr : 9 ≤ rounds) : Gives P (X64.findWithVaHint pe rounds sb)
      (located pe g (.initialization "x64::find_with_va_hint: unable to locate ntoskrnl.exe via va hint")
        (hinted pe g sb.kernelHint)) := by
  have hbase : X64.hintBase sb.kernelHint < 2 ^ 64 := by
    rw [hintBase_eq hh]
    omega
  unfold hinted X64.findWithVaHint
  by_cases htop : X64.hintBase sb.kernelHint + Size.mb 16 < 2 ^ 64
  · rw [if_pos htop]
    refine gives_hintLoop hs _ 8 rounds _ hbase (by omega) (by omega) (fun j hj => ?_) ?_
    · exact (region_tried hh (by omega) htop).mpr hj
    · exact fun h => absurd ((region_tried hh (Nat.le_refl 8) htop).mp h) (by omega)
  · rw [if_neg htop]
    refine gives_hintLoop hs _ 0 rounds _ hbase (by omega) (by omega) (fun j hj => by omega) ?_
    have hzero : hintRegion (X64.hintBase sb.kernelHint) 0 = X64.hintBase sb.kernelHint := by
      unfold hintRegion Address.sub
      omega
    rw [hzero]
    exact none_tried hh (by omega)

/-! ## With a page map -/

/-- The chunks of an entry start below the top. -/
theorem collect_lt (n : Nat) : ∀ (it : PageChunkIterator Nat), it.curAddress < 2 ^ 64 →
    ∀ x ∈ PageChunkIterator.collect n it, x.1 < 2 ^ 64 := by
  induction n with
  | zero => intro it _ x hx; cases hx
  | succ n ih =>
    intro it hit x hx
    cases hnext : it.next with
    | none =>
      rw [PageChunkIterator.collect, hnext] at hx
      cases hx
    | some c =>
      obtain ⟨⟨a, h⟩, it'⟩ := c
      rw [collect_cons n hnext] at hx
      obtain ⟨b, -, hb⟩ := Option.map_eq_some_iff.mp hnext
      rcases List.mem_cons.mp hx with rfl | hx
      · rw [← (Prod.mk.inj (Prod.mk.inj hb).1).1]
        exact hit
      · refine ih it' ?_ x hx
        rw [← (Prod.mk.inj hb).2]
        exact Address.add_lt _ _

theorem regions_lt {pageMap : List (Nat × Nat)} (h : ∀ x ∈ pageMap, x.1 < 2 ^ 64) : ∀ va ∈ X64.regions pageMap, va < 2 ^ 64 := by
  intro va hva
  obtain ⟨x, hx, rfl⟩ := List.mem_map.mp hva
  obtain ⟨y, hy, hxy⟩ := List.mem_flatMap.mp (List.mem_of_mem_filter hx)
  exact collect_lt _ _ (h y hy) x hxy

/-- What the search of a page map finds. -/
def mapped (pe : PeParser) (g : GuestMemory) (pageMap : List (Nat × Nat)) : Option Nat :=
  (X64.regions pageMap).findSome? fun va => kernelIn pe g va 512

variable {virtPageMapRange : W → Nat → Nat → Nat → Option (W × List (Nat × Nat))}

/-- The page map that is asked for, in the states of `P`. -/
def MapsPages (P : W → Prop) (virtPageMapRange : W → Nat → Nat → Nat → Option (W × List (Nat × Nat))) (sb : StartBlock)
    (pageMap : List (Nat × Nat)) : Prop :=
  (∀ x ∈ pageMap, x.1 < 2 ^ 64) ∧ ∀ w, P w → ∃ w', P w' ∧
    virtPageMapRange w (Size.mb 2) (2 ^ 64 - 1 - 1 <<< (sb.arch.mmu.addressSpaceBits - 1)) (2 ^ 64 - 1) = some (w', pageMap)

theorem gives_findX64 (hs : Shows g P) {sb : StartBlock} {pageMap : List (Nat × Nat)}
    (hmap : MapsPages P virtPageMapRange sb pageMap) : Gives P (X64.find pe virtPageMapRange sb)
      (located pe g (.initialization "x64::find: unable to locate ntoskrnl.exe with a page map") (mapped pe g pageMap)) := by
  unfold X64.find
  have hpages : Gives P (X64.readPageMap virtPageMapRange sb) (.ok pageMap) := by
    intro w hw
    obtain ⟨w', hw', hrun⟩ := hmap.2 w hw
    exact ⟨w', by rw [X64.readPageMap, hrun]; rfl, hw'⟩
  refine hpages.bind ?_
  have hprobe : ∀ va ∈ X64.regions pageMap, Gives P (do let res ← attempt (X64.findWithVa pe va); pure res.toOption)
      (.ok (kernelIn pe g va 512)) := by
    intro va hva
    refine (gives_findWithVa hs (regions_lt hmap.1 va hva)).attempt.bind ?_
    cases kernelIn pe g va 512 with
    | none => exact .pure _
    | some a => exact .pure _
  refine (Gives.firstM hprobe).bind ?_
  unfold mapped
  cases hfound : (X64.regions pageMap).findSome? fun va => kernelIn pe g va 512 with
  | none => exact .throw _
  | some a =>
    obtain ⟨va, -, hva⟩ := List.exists_of_findSome?_eq_some hfound
    exact gives_located hs (kernelIn_lt hva) _

/-! ## The search -/

omit [VirtualMemory W] in
/-- A search and the next one: what the first finds, or what the second does. -/
theorem gives_orNext {x next : ReadM W (Nat × Nat)} {e e' : Error} {found found' : Option Nat}
    (hx : Gives P x (located pe g e found)) (hk : ∀ a ∈ found, IsKernel pe g a)
    (hnext : Gives P next (located pe g e' found')) : Gives P (orNext x next) (located pe g e' (found.or found')) := by
  refine hx.attempt.bind ?_
  cases found with
  | none => exact hnext
  | some a =>
    obtain ⟨size, hsize⟩ := (hk a rfl).size
    have hloc : ∀ e, located pe g e (some a) = .ok (a, size) := by
      intro e
      unfold located
      dsimp only
      rw [hsize]
      rfl
    rw [Option.some_or, hloc, hloc]
    exact .pure _

theorem hinted_isKernel {hint a : Nat} (h : a ∈ hinted pe g hint) : IsKernel pe g a := by
  unfold hinted at h
  split at h
  · obtain ⟨j, -, hj⟩ := List.exists_of_findSome?_eq_some h
    exact kernelIn_isKernel pe g hj
  · cases h

theorem mapped_isKernel {pageMap : List (Nat × Nat)} {a : Nat} (h : a ∈ mapped pe g pageMap) : IsKernel pe g a := by
  obtain ⟨va, -, hva⟩ := List.exists_of_findSome?_eq_some h
  exact kernelIn_isKernel pe g hva

/-- The address the 64-bit search comes to: the regions below the hint first, downwards,
    then those of the page map. -/
def kernelAddress (pe : PeParser) (g : GuestMemory) (sb : StartBlock) (pageMap : List (Nat × Nat)) : Option Nat :=
  (if sb.kernelHint ≠ 0 then hinted pe g sb.kernelHint else none).or (mapped pe g pageMap)

theorem kernelAddress_isKernel {sb : StartBlock} {pageMap : List (Nat × Nat)} {a : Nat}
    (h : kernelAddress pe g sb pageMap = some a) : IsKernel pe g a := by
  rcases Option.or_eq_some_iff.mp h with h | ⟨-, h⟩
  · split at h
    · exact hinted_isKernel h
    · cases h
  · exact mapped_isKernel h

theorem gives_find (hs : Shows g P) {sb : StartBlock} (hbits : sb.arch.bits = 64) (hhint : sb.kernelHint < 2 ^ 64)
    {pageMap : List (Nat × Nat)} (hmap : MapsPages P virtPageMapRange sb pageMap) {rounds : Nat} (hr : 9 ≤ rounds) :
    Gives P (find pe rounds virtPageMapRange sb)
      (located pe g (.initialization "unable to find ntoskrnl.exe") (kernelAddress pe g sb pageMap)) := by
  have hfailed : Gives P (throw (.initialization "unable to find ntoskrnl.exe") : ReadM W (Nat × Nat))
      (located pe g (.initialization "unable to find ntoskrnl.exe") none) := .throw _
  have hx64 : Gives P (X64.find pe virtPageMapRange sb) (located pe g (.initialization
      "x64::find: unable to locate ntoskrnl.exe with a page map") (mapped pe g pageMap)) := gives_findX64 hs hmap
  have hsearch := gives_orNext hx64 (fun a => mapped_isKernel) hfailed
  rw [Option.or_none] at hsearch
  unfold find kernelAddress
  dsimp only
  rw [if_pos hbits]
  split
  · exact gives_orNext (gives_findWithVaHint hs hhint hr) (fun a => hinted_isKernel) hsearch
  · exact hsearch

/-- With 64 bits the search returns that address and the size of its image, which is one
    that names itself as the kernel, or fails if there is none. -/
theorem find_kernelAddress (pe : PeParser) (g : GuestMemory) (P : W → Prop) (hs : Shows g P) (sb : StartBlock)
    (hbits : sb.arch.bits = 64) (hhint : sb.kernelHint < 2 ^ 64) (pageMap : List (Nat × Nat))
    (hmap : MapsPages P virtPageMapRange sb pageMap) (rounds : Nat) (hr : 9 ≤ rounds) :
    (∀ a, kernelAddress pe g sb pageMap = some a → IsKernel pe g a ∧ ∃ size, peSize pe g a = .ok size ∧
      Gives P (find pe rounds virtPageMapRange sb) (.ok (a, size))) ∧
    (kernelAddress pe g sb pageMap = none →
      Gives P (find pe rounds virtPageMapRange sb) (.error (.initialization "unable to find ntoskrnl.exe"))) := by
  have h : Gives P (find pe rounds virtPageMapRange sb) (located pe g (.initialization "unable to find ntoskrnl.exe")
      (kernelAddress pe g sb pageMap)) := gives_find hs hbits hhint hmap hr
  constructor
  · intro a ha
    have hk := kernelAddress_isKernel ha
    obtain ⟨size, hsize⟩ := hk.size
    refine ⟨hk, size, hsize, ?_⟩
    rw [ha] at h
    unfold located at h
    dsimp only at h
    rw [hsize] at h
    exact h
  · intro hnone
    rw [hnone] at h
    exact h

/-! ## With 32 bits -/

/-- The page is what the search of 32 bits returns for the kernel there. -/
def kernelAt (pe : PeParser) (g : GuestMemory) (a : Nat) : Option (Nat × Nat) :=
  if IsKernel pe g a then (peSize pe g a).toOption.map fun size => (a, size) else none

theorem gives_probe (hs : Shows g P) {base i : Nat} (h : base + i * 4096 < 2 ^ 64) :
    Gives P (X86.probe pe base (g.read (base + i * 4096) 4096) i) (.ok (kernelAt pe g (base + i * 4096))) := by
  unfold X86.probe kernelAt
  rw [show Size.kb 4 = 4096 from rfl]
  by_cases himage : pe.isImage (g.read (base + i * 4096) 4096) = true
  · rw [if_pos himage]
    refine (gives_tryGetPeName hs h).attempt.bind ?_
    cases hname : peName pe g (base + i * 4096) with
    | error e =>
      have hno : ¬ IsKernel pe g (base + i * 4096) := fun hk => by rw [IsKernel, hname] at hk; cases hk.2
      rw [if_neg hno]
      exact .pure _
    | ok name =>
      dsimp only
      by_cases hn : name = "ntoskrnl.exe"
      · have hk : IsKernel pe g (base + i * 4096) := ⟨himage, by rw [hname, hn]⟩
        rw [if_pos hn, if_pos hk]
        refine (gives_tryGetPeSize hs h).attempt.bind ?_
        cases peSize pe g (base + i * 4096) with
        | error e => exact .pure _
        | ok size => exact .pure _
      · have hno : ¬ IsKernel pe g (base + i * 4096) := by
          intro hk
          rw [IsKernel, hname] at hk
          exact hn (Except.ok.inj hk.2)
        rw [if_neg hn, if_neg hno]
        exact .pure _
  · have hno : ¬ IsKernel pe g (base + i * 4096) := fun hk => himage hk.1
    rw [if_neg himage, if_neg hno]
    exact .pure _

/-- The regions of 8 megabytes, one after the other. -/
theorem gives_findX86 (pe : PeParser) (hs : Shows g P) : Gives P (X86.find pe)
    (match (List.range 32).findSome? fun j => (List.range 2048).findSome? fun i =>
        kernelAt pe g (2 ^ 31 + j * 2 ^ 23 + i * 4096) with
      | some res => .ok res
      | none => .error (.initialization "find_x86(): unable to locate ntoskrnl.exe in high mem")) := by
  have hpages : ∀ base, base + 2 ^ 23 ≤ 2 ^ 64 → (chunksExact 4096 (g.read base (4096 * 2048))).zipIdx =
      (List.range 2048).map fun i => (g.read (base + i * 4096) 4096, i) := by
    intro base hb
    rw [pages_read]
    refine List.map_congr_left fun i hi => ?_
    have hi := List.mem_range.mp hi
    rw [Address.add_eq (by omega)]
  have hregion : ∀ j ∈ List.range 32, Gives P (do
      let base := Size.gb 2 + j * Size.mb 8
      let buf ← readPart (W := W) base (Size.mb 8)
      firstM (fun x : List UInt8 × Nat => X86.probe pe base x.1 x.2) (chunksExact (Size.kb 4) buf).zipIdx)
      (.ok ((List.range 2048).findSome? fun i => kernelAt pe g (2 ^ 31 + j * 2 ^ 23 + i * 4096))) := by
    intro j hj
    have hj := List.mem_range.mp hj
    dsimp only
    rw [show Size.gb 2 = 2 ^ 31 from rfl, show Size.mb 8 = 2 ^ 23 from rfl, show Size.kb 4 = 4096 from rfl]
    refine (gives_readPart hs (by omega) (by decide)).bind ?_
    rw [show (2 : Nat) ^ 23 = 4096 * 2048 from rfl, hpages _ (by omega)]
    have hprobe : ∀ x ∈ (List.range 2048).map fun i => (g.read (2 ^ 31 + j * (4096 * 2048) + i * 4096) 4096, i),
        Gives P (X86.probe pe (2 ^ 31 + j * (4096 * 2048)) x.1 x.2)
          (.ok (kernelAt pe g (2 ^ 31 + j * (4096 * 2048) + x.2 * 4096))) := by
      intro x hx
      obtain ⟨i, hi, rfl⟩ := List.mem_map.mp hx
      have hi := List.mem_range.mp hi
      dsimp only
      exact gives_probe hs (by omega)
    have hfirst := Gives.firstM hprobe
    rw [List.findSome?_map] at hfirst
    exact hfirst
  refine (Gives.firstM hregion).bind ?_
  cases (List.range 32).findSome? fun j => (List.range 2048).findSome? fun i =>
      kernelAt pe g (2 ^ 31 + j * 2 ^ 23 + i * 4096) with
  | none => exact .throw _
  | some res => exact .pure _

/-- The lowest image of the kernel in the 256 megabytes above the second gigabyte. -/
structure LowestKernel (pe : PeParser) (g : GuestMemory) (a : Nat) : Prop where
  aligned : a % 4096 = 0
  from_base : 2 ^ 31 ≤ a
  below_end : a < 2 ^ 31 + 2 ^ 28
  kernel : IsKernel pe g a
  lowest : ∀ b, b % 4096 = 0 → 2 ^ 31 ≤ b → b < a → ¬ IsKernel pe g b

theorem kernelAt_some {a : Nat} {res : Nat × Nat} :
    kernelAt pe g a = some res ↔ IsKernel pe g a ∧ res.1 = a ∧ peSize pe g a = .ok res.2 := by
  unfold kernelAt
  rw [Option.ite_none_right_eq_some]
  refine and_congr_right fun _ => ?_
  cases peSize pe g a with
  | error e => simp [Except.toOption]
  | ok size =>
    obtain ⟨x, y⟩ := res
    simp [Except.toOption, eq_comm]

theorem kernelAt_none {a : Nat} : kernelAt pe g a = none ↔ ¬ IsKernel pe g a := by
  unfold kernelAt
  by_cases hk : IsKernel pe g a
  · obtain ⟨size, hsize⟩ := hk.size
    rw [if_pos hk, hsize]
    simp [Except.toOption, hk]
  · rw [if_neg hk]
    exact iff_of_true rfl hk

/-- The two loops come to the lowest page. -/
theorem findSome?_lowest (pe : PeParser) (g : GuestMemory) (res : Nat × Nat) : ((List.range 32).findSome? fun j => (List.range 2048).findSome? fun i =>
      kernelAt pe g (2 ^ 31 + j * 2 ^ 23 + i * 4096)) = some res ↔
    LowestKernel pe g res.1 ∧ peSize pe g res.1 = .ok res.2 := by
  have hinner : ∀ j, ((List.range 2048).findSome? fun i => kernelAt pe g (2 ^ 31 + j * 2 ^ 23 + i * 4096)) = none →
      ∀ i < 2048, ¬ IsKernel pe g (2 ^ 31 + j * 2 ^ 23 + i * 4096) :=
    fun j h i hi => kernelAt_none.mp (List.findSome?_eq_none_iff.mp h i (List.mem_range.mpr hi))
  rw [Lib.First.findSome?_range_iff]
  constructor
  · rintro ⟨j, hj⟩
    obtain ⟨i, hi⟩ := Lib.First.findSome?_range_iff.mp hj.hit
    obtain ⟨hk, ha, hsize⟩ := kernelAt_some.mp hi.hit
    have hj32 := hj.lt
    have hi2048 := hi.lt
    rw [← ha] at hk hsize
    refine ⟨⟨by omega, by omega, by omega, hk, fun b hb hlo hlt hkb => ?_⟩, hsize⟩
    obtain ⟨j', i', hi', rfl⟩ : ∃ j' i', i' < 2048 ∧ b = 2 ^ 31 + j' * 2 ^ 23 + i' * 4096 :=
      ⟨(b - 2 ^ 31) / 2 ^ 23, (b - 2 ^ 31) % 2 ^ 23 / 4096, by omega, by omega⟩
    rcases Nat.lt_or_eq_of_le (show j' ≤ j by omega) with hjj | rfl
    · exact hinner j' (hj.before j' hjj) i' hi' hkb
    · exact kernelAt_none.mp (hi.before i' (by omega)) hkb
  · rintro ⟨h, hsize⟩
    have h1 := h.aligned
    have h2 := h.from_base
    have h3 := h.below_end
    obtain ⟨j, i, hi, ha⟩ : ∃ j i, i < 2048 ∧ res.1 = 2 ^ 31 + j * 2 ^ 23 + i * 4096 :=
      ⟨(res.1 - 2 ^ 31) / 2 ^ 23, (res.1 - 2 ^ 31) % 2 ^ 23 / 4096, by omega, by omega⟩
    have hno : ∀ j' i', i' < 2048 → 2 ^ 31 + j' * 2 ^ 23 + i' * 4096 < res.1 →
        kernelAt pe g (2 ^ 31 + j' * 2 ^ 23 + i' * 4096) = none :=
      fun j' i' _ hlt => kernelAt_none.mpr (h.lowest _ (by omega) (by omega) hlt)
    refine ⟨j, by omega, Lib.First.findSome?_range_iff.mpr ⟨i, hi, ?_, fun i' hi' => hno j i' (by omega) (by omega)⟩,
      fun j' hj' => List.findSome?_eq_none_iff.mpr fun i' hi' => hno j' i' (List.mem_range.mp hi') ?_⟩
    · exact kernelAt_some.mpr ⟨ha ▸ h.kernel, ha, ha ▸ hsize⟩
    · have := List.mem_range.mp hi'
      omega

/-- With 32 bits the search returns the lowest image that names itself as the kernel, with
    its size, and fails exactly if there is none. -/
theorem find_lowest (pe : PeParser) (g : GuestMemory) (P : W → Prop) (hs : Shows g P) (sb : StartBlock)
    (hbits : sb.arch.bits = 32) (rounds : Nat) (w : W) (hw : P w) :
    (∀ a size, (∃ w', find pe rounds virtPageMapRange sb w = some (.ok (a, size), w')) ↔
      LowestKernel pe g a ∧ peSize pe g a = .ok size) ∧
    ((∃ e w', find pe rounds virtPageMapRange sb w = some (.error e, w')) ↔ ∀ a, ¬ LowestKernel pe g a) := by
  have hfind := gives_findX86 pe hs
  have hlow := findSome?_lowest pe g
  have hrun : find pe rounds virtPageMapRange sb =
      orNext (X86.find pe) (throw (.initialization "unable to find ntoskrnl.exe") : ReadM W (Nat × Nat)) := by
    unfold find
    rw [hbits]
    rfl
  rw [hrun]
  cases hfound : (List.range 32).findSome? fun j => (List.range 2048).findSome? fun i =>
      kernelAt pe g (2 ^ 31 + j * 2 ^ 23 + i * 4096) with
  | some res =>
    rw [hfound] at hfind
    obtain ⟨h, hsize⟩ := (hlow res).mp hfound
    have hgives : Gives P (orNext (X86.find pe) (throw (.initialization "unable to find ntoskrnl.exe"))) (.ok res) :=
      hfind.attempt.bind (.pure _)
    refine ⟨fun a size => (hgives.ok_iff hw).trans ⟨?_, fun h' => ?_⟩, iff_of_false ?_ fun hno => hno _ h⟩
    · rintro rfl
      exact ⟨h, hsize⟩
    · have := (hlow (a, size)).mpr h'
      rw [hfound] at this
      exact Option.some.inj this
    · rintro ⟨e, w', he⟩
      obtain ⟨w'', hok, -⟩ := hgives w hw
      rw [hok] at he
      cases he
  | none =>
    rw [hfound] at hfind
    have hno : ∀ a, ¬ LowestKernel pe g a := by
      intro a ha
      obtain ⟨size, hsize⟩ := ha.kernel.size
      have := (hlow (a, size)).mpr ⟨ha, hsize⟩
      rw [hfound] at this
      cases this
    have hgives : Gives P (orNext (X86.find pe) (throw (.initialization "unable to find ntoskrnl.exe")))
        (.error (.initialization "unable to find ntoskrnl.exe") : Except Error (Nat × Nat)) :=
      hfind.attempt.bind (.throw _)
    obtain ⟨w', herr, -⟩ := hgives w hw
    refine ⟨fun a size => iff_of_false ?_ fun h => hno a h.1, iff_of_true ⟨_, w', herr⟩ hno⟩
    rintro ⟨w'', hok⟩
    rw [herr] at hok
    cases hok

end Gives

/-- The fields of a 64-bit image, at their places. -/
def headerParser : PeParser where
  dosHeader page := (leU64 (page.take 2), dword page 0x3c)
  sizeOfImage page := .ok (dword page (dword page 0x3c + 0x50))
  dllName image :=
    let exports := dword image (dword image 0x3c + 0x88)
    .ok (Lib.Text.fromUtf8Lossy ((image.drop (dword image (exports + 0xc))).takeWhile (· != 0)))

/-- An image that names itself as the kernel. -/
def imageBytes : FlatMemory := .ofWords
  [(0x0, 0x5a4d), (0x38, 0x4000000000), (0x90, 0x150), (0xc8, 0x100), (0x108, 0x14000000000), (0x140, 0x6c6e726b736f746e),
    (0x148, 0x6578652e)]

/-- The page at `base` holds the image, and nothing else is mapped. -/
def kernelImage (base : Nat) : GuestMemory :=
  ⟨fun a => if base ≤ a ∧ a < base + 0x1000 then some (imageBytes.bytes (a - base)) else none⟩

section Image

variable {base : Nat}

theorem read_kernelImage (hb : base + 0x1000 ≤ 2 ^ 64) {n : Nat} (hn : n ≤ 0x1000) :
    (kernelImage base).read base n = bytesAt imageBytes.bytes 0 n := by
  refine List.map_congr_left fun i hi => ?_
  have hi := List.mem_range.mp hi
  have hin : base ≤ (base + i) % 2 ^ 64 ∧ (base + i) % 2 ^ 64 < base + 0x1000 := by omega
  show ((if _ then some _ else none : Option UInt8)).getD 0 = _
  rw [if_pos hin, Option.getD_some]
  congr 1
  omega

theorem peSize_kernelImage (hb : base + 0x1000 ≤ 2 ^ 64) : peSize headerParser (kernelImage base) base = .ok 0x150 := by
  have hmapped : (kernelImage base).Mapped base (Size.kb 4) := by
    intro i hi
    have hi : i < 4096 := hi
    have hin : base ≤ (base + i) % 2 ^ 64 ∧ (base + i) % 2 ^ 64 < base + 0x1000 := by omega
    show ((if _ then some _ else none : Option UInt8)).isSome = true
    rw [if_pos hin, Option.isSome_some]
  have hlfanew : dword (bytesAt imageBytes.bytes 0 4096) 0x3c = 0x40 := by
    rw [dword_bytesAt _ _ (by omega)]
    decide +kernel
  have hsize : dword (bytesAt imageBytes.bytes 0 4096) (0x40 + 0x50) = 0x150 := by
    rw [dword_bytesAt _ _ (by omega)]
    decide +kernel
  unfold peSize
  rw [if_pos hmapped, show Size.kb 4 = 4096 from rfl, read_kernelImage hb (by omega)]
  simp only [Except.bind, headerParser, hlfanew, hsize]
  rfl

theorem isKernel_kernelImage (hb : base + 0x1000 ≤ 2 ^ 64) : IsKernel headerParser (kernelImage base) base := by
  constructor
  · rw [show Size.kb 4 = 4096 from rfl, read_kernelImage hb (by omega)]
    have hmagic : (bytesAt imageBytes.bytes 0 4096).take 2 = bytesAt imageBytes.bytes 0 2 :=
      slice_bytesAt imageBytes.bytes 0 (n := 4096) (i := 0) (by omega)
    have hlfanew : dword (bytesAt imageBytes.bytes 0 4096) 0x3c = 0x40 := by
      rw [dword_bytesAt _ _ (by omega)]
      decide +kernel
    simp only [PeParser.isImage, headerParser, hmagic, hlfanew]
    decide +kernel
  · unfold peName
    rw [peSize_kernelImage hb]
    show headerParser.dllName ((kernelImage base).read base 0x150) = _
    rw [read_kernelImage hb (by omega)]
    decide +kernel

/-- The first page of a region is looked at first. -/
theorem kernelIn_first {pe : PeParser} {g : GuestMemory} {va n : Nat} (hva : va < 2 ^ 64) (h : IsKernel pe g va)
    (hn : 0 < n) : kernelIn pe g va n = some va := by
  have hzero : Address.add va (0 * 4096) = va := by
    rw [Nat.zero_mul]
    exact Address.add_eq (by omega)
  obtain ⟨m, rfl⟩ : ∃ m, n = m + 1 := ⟨n - 1, by omega⟩
  unfold kernelIn
  rw [List.range_succ_eq_map, List.findSome?_cons, hzero, if_pos h]

theorem hinted_first {pe : PeParser} {g : GuestMemory} {hint va : Nat} (hbase : X64.hintBase hint = va)
    (hva : va + Size.mb 16 < 2 ^ 64) (h : IsKernel pe g va) : hinted pe g hint = some va := by
  have hzero : hintRegion va 0 = va := by
    unfold hintRegion Address.sub
    omega
  have hk := kernelIn_first (n := 512) (by omega) h (by omega)
  unfold hinted
  rw [hbase, if_pos hva]
  exact Lib.First.findSome?_range_iff.mpr ⟨0, by omega, by rw [hzero, hk], fun i hi => absurd hi (by omega)⟩

end Image

/-- A hint into the first page of the image. -/
def hintedBlock : StartBlock := ⟨x64Arch, 0xfffff80000000040, 0x1000⟩

theorem kernelAddress_hintedBlock :
    kernelAddress headerParser (kernelImage 0xfffff80000000000) hintedBlock [] = some 0xfffff80000000000 := by
  have hk : IsKernel headerParser (kernelImage 0xfffff80000000000) 0xfffff80000000000 := isKernel_kernelImage (by omega)
  have hhinted := hinted_first (by decide : X64.hintBase hintedBlock.kernelHint = 0xfffff80000000000) (by decide) hk
  unfold kernelAddress
  rw [if_pos (by decide), hhinted, Option.some_or]

theorem find_hintedBlock : ∃ size, peSize headerParser (kernelImage 0xfffff80000000000) 0xfffff80000000000 = .ok size ∧
    Gives (· = kernelImage 0xfffff80000000000)
      (find headerParser 9 (fun w _ _ _ => some (w, [])) hintedBlock) (.ok (0xfffff80000000000, size)) :=
  ((find_kernelAddress headerParser (kernelImage 0xfffff80000000000) _ (kernelImage 0xfffff80000000000).shows hintedBlock rfl
    (by decide) [] ⟨by simp, fun w hw => ⟨w, hw, rfl⟩⟩ 9 (Nat.le_refl 9)).1 _ kernelAddress_hintedBlock).2

theorem lowestKernel_kernelImage : LowestKernel headerParser (kernelImage (2 ^ 31)) (2 ^ 31) :=
  ⟨by decide, Nat.le_refl _, by decide, isKernel_kernelImage (by decide), fun b _ h1 h2 => absurd h1 (by omega)⟩

theorem find_lowest_kernelImage : ∃ w', find headerParser 0 (fun w _ _ _ => some (w, [])) ⟨x32Arch, 0, 0x1000⟩
    (kernelImage (2 ^ 31)) = some (.ok (2 ^ 31, 0x150), w') :=
  ((find_lowest headerParser (kernelImage (2 ^ 31)) (· = kernelImage (2 ^ 31)) (kernelImage (2 ^ 31)).shows
    ⟨x32Arch, 0, 0x1000⟩ rfl 0 _ rfl).1 _ _).mpr ⟨lowestKernel_kernelImage, peSize_kernelImage (by decide)⟩

end Jiaa.Win32.Ntos
