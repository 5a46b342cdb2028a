/-
  Jiaa.Mem.Cache.Slots — what taking and giving back a page does to the slots.

  - `takePage_spec`: in a cache where a slot with its buffer is not marked, a page is taken
    valid, to be read into, marked before in the same read, or not at all;
  - `splitToChunks_spec`: the parts of a request lie in one page each and tile it.
-/

import Jiaa.Mem.Cache.PageCache

namespace Jiaa

namespace PageCache

variable {n : Nat} {Q : Type*}

theorem pageSize_pos (c : PageCache n Q) : 0 < c.pageSize := by
  refine Nat.pos_of_ne_zero fun h => ?_
  have hd := c.pageSize_dvd
  rw [h] at hd
  omega

/-! ## Pages -/

theorem pageOf_le (c : PageCache n Q) (a : Nat) : c.pageOf a ≤ a := Address.asPageAligned_le _ _

theorem pageOf_mod (c : PageCache n Q) (a : Nat) : c.pageOf a % c.pageSize = 0 := Address.asPageAligned_mod _ _

theorem pageOf_add_mod (c : PageCache n Q) (a : Nat) : c.pageOf a + a % c.pageSize = a :=
  Nat.sub_add_cancel (Nat.mod_le _ _)

/-- The page of an address in a page. -/
theorem pageOf_add (c : PageCache n Q) {p j : Nat} (hp : p % c.pageSize = 0) (hj : j < c.pageSize) :
    c.pageOf (p + j) = p := by
  unfold pageOf Address.asPageAligned
  rw [Nat.add_mod, hp, Nat.zero_add, Nat.mod_mod, Nat.mod_eq_of_lt hj]
  omega

theorem pageOf_pageOf (c : PageCache n Q) (a : Nat) : c.pageOf (c.pageOf a) = c.pageOf a := by
  have h := c.pageOf_add (c.pageOf_mod a) c.pageSize_pos
  rwa [Nat.add_zero] at h

/-- Pages end inside the address space. -/
theorem page_end (c : PageCache n Q) {p j : Nat} (hp : p % c.pageSize = 0) (hlt : p < 2 ^ 64) (hj : j < c.pageSize) :
    p + j < 2 ^ 64 := by
  obtain ⟨k, hk⟩ := c.pageSize_dvd
  obtain ⟨q, rfl⟩ := Nat.dvd_of_mod_eq_zero hp
  rw [hk] at hlt ⊢
  have h1 : q + 1 ≤ k := Nat.lt_of_mul_lt_mul_left hlt
  have h2 := Nat.mul_le_mul_left c.pageSize h1
  rw [Nat.mul_add] at h2
  omega

theorem pageOf_congr {c d : PageCache n Q} (h : c.pageSize = d.pageSize) (a : Nat) : c.pageOf a = d.pageOf a := by
  unfold pageOf
  rw [h]

variable [NeZero n]

theorem pageIndex_pageOf (c : PageCache n Q) (a : Nat) : c.pageIndex (c.pageOf a) = c.pageIndex a := by
  unfold pageIndex
  rw [pageOf_pageOf]

theorem pageIndex_congr {c d : PageCache n Q} (h : c.pageSize = d.pageSize) (a : Nat) : c.pageIndex a = d.pageIndex a := by
  unfold pageIndex pageOf
  rw [h]

section Validated

variable [CacheValidator Q] (c : PageCache n Q) (a : Nat) (buf : List UInt8)

@[simp] theorem validatePage_pageSize : (c.validatePage a buf).pageSize = c.pageSize := rfl

@[simp] theorem validatePage_mask : (c.validatePage a buf).pageTypeMask = c.pageTypeMask := rfl

@[simp] theorem validatePage_address :
    (c.validatePage a buf).address = Function.update c.address (c.pageIndex a) a := rfl

@[simp] theorem validatePage_pageRefs :
    (c.validatePage a buf).pageRefs = Function.update c.pageRefs (c.pageIndex a) (some buf) := rfl

@[simp] theorem validatePage_addressOnceValidated : (c.validatePage a buf).addressOnceValidated =
    Function.update c.addressOnceValidated (c.pageIndex a) Address.invalid := rfl

@[simp] theorem validatePage_validator :
    (c.validatePage a buf).validator = validateSlot c.validator (c.pageIndex a) := rfl

end Validated

/-! ## Slots -/

/-- The slot of `a` is without its buffer and marked for the page of `a`. -/
def Marked (c : PageCache n Q) (a : Nat) : Prop :=
  c.pageRefs (c.pageIndex a) = none ∧ c.addressOnceValidated (c.pageIndex a) = c.pageOf a

/-- A mark is one of a page. -/
theorem marked_congr {c : PageCache n Q} {a b : Nat} (h : c.pageOf a = c.pageOf b) : c.Marked a ↔ c.Marked b := by
  unfold Marked
  rw [← c.pageIndex_pageOf a, ← c.pageIndex_pageOf b, h]

omit [NeZero n] in
/-- A cache where a slot with its buffer is not marked. -/
structure Unmarked (cache : PageCache n Q) : Prop where
  length : ∀ i buf, cache.pageRefs i = some buf → buf.length = cache.pageSize
  unmarked : ∀ i buf, cache.pageRefs i = some buf → cache.addressOnceValidated i = Address.invalid

/-- The slot holds the page of its address. -/
def Owns (c : PageCache n Q) (i : Fin n) : Prop :=
  c.address i % c.pageSize = 0 ∧ c.address i < 2 ^ 64 ∧ c.pageIndex (c.address i) = i

/-- The addresses of the page a slot holds. -/
theorem Owns.add {c : PageCache n Q} {i : Fin n} (h : c.Owns i) {j : Nat} (hj : j < c.pageSize) :
    c.pageOf (c.address i + j) = c.address i ∧ c.pageIndex (c.address i + j) = i ∧ c.address i + j < 2 ^ 64 := by
  have hpage := c.pageOf_add h.1 hj
  refine ⟨hpage, ?_, c.page_end h.1 h.2.1 hj⟩
  rw [← c.pageIndex_pageOf, hpage]
  exact h.2.2

variable [CacheValidator Q]

/-- A page that is in its slot, valid. -/
def Cached (c : PageCache n Q) (i : Fin n) (buf : List UInt8) : Prop :=
  c.pageRefs i = some buf ∧ isSlotValid c.validator i = true ∧ c.Owns i

def lend (c : PageCache n Q) (i : Fin n) : PageCache n Q := { c with pageRefs := Function.update c.pageRefs i none }

omit [NeZero n] [CacheValidator Q] in
theorem lend_none {c : PageCache n Q} {i : Fin n} (h : c.pageRefs i = none) : c.lend i = c := by
  unfold lend
  rw [← h, Function.update_eq_self]

omit [CacheValidator Q] in
/-- A page put back where it was taken. -/
theorem putPage_lend {c : PageCache n Q} {a : Nat} {buf : List UInt8} (h : c.pageRefs (c.pageIndex a) = some buf) :
    (c.lend (c.pageIndex a)).putPage (c.pageOf a) buf = c := by
  have hi : (c.lend (c.pageIndex a)).pageIndex (c.pageOf a) = c.pageIndex a := c.pageIndex_pageOf a
  unfold putPage
  rw [hi]
  unfold lend
  rw [Function.update_idem, ← h, Function.update_eq_self]

/-- What `take_page` gives, and what it leaves behind. -/
inductive Taken (c : PageCache n Q) (a : Nat) : PageValidity × PageCache n Q → Prop
  | valid (buf : List UInt8) (ref : c.Cached (c.pageIndex a) buf) (page : c.address (c.pageIndex a) = c.pageOf a) :
      Taken c a (.valid buf, c.lend (c.pageIndex a))
  | validatable (buf : List UInt8) (ref : c.pageRefs (c.pageIndex a) = some buf)
      (stale : c.address (c.pageIndex a) = c.pageOf a → isSlotValid c.validator (c.pageIndex a) = false) :
      Taken c a (.validatable buf, c.lend (c.pageIndex a))
  | toBeValidated (marked : c.Marked a) : Taken c a (.toBeValidated, c)
  | invalid (ref : c.pageRefs (c.pageIndex a) = none) (other : ¬ c.Marked a) : Taken c a (.invalid, c)

theorem takePage_spec {c : PageCache n Q} {a : Nat} (ha : a < 2 ^ 64)
    (hmark : ∀ buf, c.pageRefs (c.pageIndex a) = some buf → c.addressOnceValidated (c.pageIndex a) = Address.invalid) :
    c.Taken a (c.takePage a false) := by
  unfold takePage
  cases hr : c.pageRefs (c.pageIndex a) with
  | some buf =>
    simp only [hr, Bool.false_eq_true, false_or, hmark buf hr, or_true, if_true]
    split
    · next h =>
      refine .valid buf ⟨hr, h.2, ?_, ?_, ?_⟩ h.1
      · rw [h.1]
        exact c.pageOf_mod a
      · rw [h.1]
        exact Nat.lt_of_le_of_lt (c.pageOf_le a) ha
      · rw [h.1]
        exact c.pageIndex_pageOf a
    · next h =>
      refine .validatable buf hr fun hp => ?_
      cases hv : isSlotValid c.validator (c.pageIndex a) with
      | false => rfl
      | true => exact absurd ⟨hp, hv⟩ h
  | none =>
    have hl : ({ c with pageRefs := Function.update c.pageRefs (c.pageIndex a) none } : PageCache n Q) = c := lend_none hr
    simp only [hr, hl]
    split
    · next h => exact .toBeValidated ⟨hr, h⟩
    · next h => exact .invalid hr fun hm => h hm.2

/-! ## Parts of requests -/

/-- A part of a request that lies in one page. -/
def InPage {T : Type*} [SplitAtIndex T] (c : PageCache n Q) (p : PhysicalAddress × T) : Prop :=
  p.1.address < 2 ^ 64 ∧ p.1.address % c.pageSize + SplitAtIndex.length p.2 ≤ c.pageSize

omit [NeZero n] [CacheValidator Q] in
theorem InPage.congr {T : Type*} [SplitAtIndex T] {c d : PageCache n Q} {p : PhysicalAddress × T} (hp : d.InPage p)
    (h : c.pageSize = d.pageSize) : c.InPage p := by
  unfold InPage
  rw [h]
  exact hp

omit [NeZero n] [CacheValidator Q] in
theorem splitToChunks_spec {T β : Type*} [SplitAtIndex T] [LawfulSplitAtIndex T β] (c : PageCache n Q)
    {addr : PhysicalAddress} (ha : addr.address < 2 ^ 64) (out : T) :
    (∀ p ∈ c.splitToChunks addr out, c.InPage p ∧ p.1.pageType = addr.pageType) ∧
      ((c.splitToChunks addr out).flatMap fun p => at64 p.1.address (bytes p.2)) = at64 addr.address (bytes out) := by
  have hin := pageChunksBy_inPage c.pageSize_pos c.pageSize_lt c.pageSize_dvd ha out fun _ _ _ => true
  have hflat := pageChunksBy_flat out addr.address c.pageSize fun _ _ _ => true
  refine ⟨fun p hp => ?_, ?_⟩
  · obtain ⟨x, hx, rfl⟩ := List.mem_map.mp hp
    obtain ⟨h1, h2⟩ := hin x hx
    exact ⟨⟨h1, h2 fun _ _ => rfl⟩, rfl⟩
  · rw [← hflat, splitToChunks, List.flatMap_map]
    rfl

omit [NeZero n] [CacheValidator Q] in
/-- The address of the byte at `k` of a part of a page. -/
theorem InPage.add {T : Type*} [SplitAtIndex T] {c : PageCache n Q} {p : PhysicalAddress × T} (h : c.InPage p) {k : Nat}
    (hk : k < SplitAtIndex.length p.2) :
    c.pageOf (p.1.address + k) = c.pageOf p.1.address ∧ (p.1.address + k) % 2 ^ 64 = p.1.address + k ∧
      p.1.address + k = c.pageOf p.1.address + (p.1.address % c.pageSize + k) := by
  have h1 := c.pageOf_add_mod p.1.address
  have h2 := h.2
  have h3 := c.page_end (c.pageOf_mod p.1.address) (Nat.lt_of_le_of_lt (c.pageOf_le _) h.1)
    (j := p.1.address % c.pageSize + k) (by omega)
  have h4 : p.1.address + k = c.pageOf p.1.address + (p.1.address % c.pageSize + k) := by omega
  refine ⟨?_, Nat.mod_eq_of_lt (by omega), h4⟩
  rw [h4]
  exact c.pageOf_add (c.pageOf_mod _) (by omega)

end PageCache

end Jiaa
