/-
  Jiaa.Game.Sigscanner — searching the memory of a module for a pattern (jiaa-src
  `sigscanner.c`, `sigscanner.h`).

  The region is copied into a buffer. Every place in the buffer is compared with the masks,
  also the last ones, where the comparison reads on behind the buffer.

  - `compare_spec`, `findPattern_spec`: the place found is the first one that matches the
    buffer and the bytes behind it;
  - `findPatternInMemory_iff`: when this is the first match inside the region.
-/

import Jiaa.Game.Pattern
import Jiaa.Mem.GuestMemory
import Mathlib.Data.Nat.Find
import Mathlib.Order.Bounds.Basic

namespace Jiaa.Game

/-- The process' own memory, by address. -/
abbrev Heap := Nat → UInt8

namespace Sigscanner

/-- `none` is a read outside of the masks. -/
def compare (heap : Heap) : Nat → List UInt8 → List Char → Option Bool
  | _, _, [] => none
  | pData, bMask, c :: szMask =>
    if c = '\x00' then some true
    else match bMask with
      | [] => none
      | b :: bMask => if c = 'x' ∧ heap pData ≠ b then some false else compare heap (pData + 1) bMask szMask

/-- The rounds from `i`, so many of them. -/
def findFrom (heap : Heap) (bMask : List UInt8) (szMask : List Char) : Nat → Nat → Option Nat
  | 0, _ => some 0
  | rounds + 1, i => (compare heap i bMask szMask).bind fun found =>
    if found then some i else findFrom heap bMask szMask rounds (i + 1)

def findPattern (heap : Heap) (start max : Nat) (bMask : List UInt8) (szMask : List Char) : Option Nat :=
  findFrom heap bMask szMask (max - start) start

/-- The memory after the region was read into the buffer at `bytes`. -/
def copied (heap : Heap) (bytes : Nat) (region : List UInt8) : Heap := fun a =>
  if bytes ≤ a ∧ a < bytes + region.length then region.getD (a - bytes) 0 else heap a

/-- `bytes` is what `malloc` returns for the buffer, `front` lies in front of the pattern. -/
def findPatternInMemory (heap : Heap) (bytes : Nat) (front : Char) (memory : GuestMemory) (pattern : List Char)
    (start size : Nat) : Option Nat :=
  if bytes = 0 then some 0
  else (generateMasks front pattern).bind fun masks =>
    (findPattern (copied heap bytes (memory.read start size)) bytes (bytes + size) masks.bMask masks.szMask).map
      fun offset => if offset = 0 then 0 else (start + (offset - bytes)) % 2 ^ 64

/-! ## Matches -/

/-- From `i` on the bytes are those of the tokens. -/
def Matches (bytes : Nat → UInt8) (tokens : List Token) (i : Nat) : Prop :=
  ∀ (k : Nat) (v : UInt8), tokens[k]?.bind Token.value = some v → bytes (i + k) = v

theorem matches_cons {bytes : Nat → UInt8} {t : Token} {tokens : List Token} {i : Nat} :
    Matches bytes (t :: tokens) i ↔ (∀ v, t.value = some v → bytes i = v) ∧ Matches bytes tokens (i + 1) := by
  constructor
  · intro h
    refine ⟨fun v hv => h 0 v hv, fun k v hk => ?_⟩
    rw [Nat.add_right_comm]
    exact h (k + 1) v hk
  · intro ⟨h0, h⟩ k v hk
    cases k with
    | zero => exact h0 v hk
    | succ k =>
      have hnext := h k v hk
      rwa [Nat.add_right_comm] at hnext

/-- The comparison stops at the terminator of the mask. -/
theorem compare_spec (heap : Heap) (zeros : List Char) : ∀ (tokens : List Token) (bMask : List UInt8) (i : Nat),
    tokens.length ≤ bMask.length →
    (∀ (k : Nat) (v : UInt8), tokens[k]?.bind Token.value = some v → bMask[k]? = some v) →
    ∃ b, compare heap i bMask (tokens.map Token.kind ++ '\x00' :: zeros) = some b ∧
      (b = true ↔ Matches heap tokens i) := by
  intro tokens
  induction tokens with
  | nil => exact fun bMask i _ _ => ⟨true, by rw [compare.eq_def]; simp, iff_of_true rfl nofun⟩
  | cons t tokens ih =>
    intro bMask i hlen hvalues
    cases bMask with
    | nil => simp at hlen
    | cons b bMask =>
      obtain ⟨found, hrest, hfound⟩ := ih bMask (i + 1) (Nat.le_of_succ_le_succ hlen) fun k v hk => hvalues (k + 1) v hk
      cases t with
      | wildcard double =>
        refine ⟨found, ?_, ?_⟩
        · simpa [compare, Token.kind] using hrest
        · rw [matches_cons, hfound]
          simp [Token.value]
      | byte hi lo =>
        have hb : UInt8.ofNat (16 * hi.value + lo.value) = b := by simpa [Token.value, eq_comm] using hvalues 0 _ rfl
        by_cases heq : heap i = b
        · refine ⟨found, ?_, ?_⟩
          · simpa [compare, Token.kind, heq] using hrest
          · rw [matches_cons, hfound]
            simp [Token.value, hb, heq]
        · refine ⟨false, ?_, ?_⟩
          · simp [compare, Token.kind, heq]
          · rw [matches_cons]
            simp [Token.value, hb, heq]

section Scan

variable {heap : Heap} {bMask : List UInt8} {szMask : List Char} {P : Nat → Prop}
  (hcompare : ∀ i, ∃ b, compare heap i bMask szMask = some b ∧ (b = true ↔ P i))
include hcompare

theorem findFrom_found : ∀ (rounds i j : Nat), i ≤ j → j < i + rounds → P j → (∀ k, i ≤ k → k < j → ¬P k) →
    findFrom heap bMask szMask rounds i = some j := by
  intro rounds
  induction rounds with
  | zero => omega
  | succ rounds ih =>
    intro i j hij hj hp hbefore
    obtain ⟨b, hb, hbp⟩ := hcompare i
    rw [findFrom, hb, Option.bind_some]
    rcases Nat.eq_or_lt_of_le hij with rfl | hlt
    · rw [if_pos (hbp.mpr hp)]
    · rw [if_neg (fun h => hbefore i le_rfl hlt (hbp.mp h))]
      exact ih (i + 1) j hlt (by omega) hp fun k hk => hbefore k (by omega)

theorem findFrom_missing : ∀ rounds i : Nat, (∀ k, i ≤ k → k < i + rounds → ¬P k) →
    findFrom heap bMask szMask rounds i = some 0 := by
  intro rounds
  induction rounds with
  | zero => exact fun i _ => rfl
  | succ rounds ih =>
    intro i hnone
    obtain ⟨b, hb, hbp⟩ := hcompare i
    rw [findFrom, hb, Option.bind_some, if_neg (fun h => hnone i le_rfl (by omega) (hbp.mp h))]
    exact ih (i + 1) fun k hk hlt => hnone k (by omega) (by omega)

end Scan

/-! ## The first match -/

/-- All tokens lie inside the region. -/
def FullMatch (region : List UInt8) (tokens : List Token) (i : Nat) : Prop :=
  i + tokens.length ≤ region.length ∧ Matches (fun j => region.getD j 0) tokens i

/-- The tokens go on behind the buffer at `bytes`, and match there too. -/
def TailMatch (heap : Heap) (bytes : Nat) (region : List UInt8) (tokens : List Token) (i : Nat) : Prop :=
  i < region.length ∧ region.length < i + tokens.length ∧ Matches (copied heap bytes region) tokens (bytes + i)

/-- `r` is the address of the first match in the region at `start`, or 0 without one. -/
def FindsFirst (region : List UInt8) (tokens : List Token) (start r : Nat) : Prop :=
  (∃ i, IsLeast {i | FullMatch region tokens i} i ∧ r = (start + i) % 2 ^ 64) ∨
    (∀ i, ¬FullMatch region tokens i) ∧ r = 0

section Region

variable {heap : Heap} {bytes : Nat} {region : List UInt8} {tokens : List Token} {i : Nat}

theorem matches_copied (h : i + tokens.length ≤ region.length) :
    Matches (copied heap bytes region) tokens (bytes + i) ↔ Matches (fun j => region.getD j 0) tokens i := by
  refine forall_congr' fun k => forall_congr' fun v => imp_congr_right fun hk => ?_
  have hlt : k < tokens.length := by
    by_contra hge
    rw [List.getElem?_eq_none (Nat.le_of_not_lt hge)] at hk
    cases hk
  rw [copied, if_pos (by omega), show bytes + i + k - bytes = i + k by omega]

/-- A match in the buffer lies inside the region or runs over its end. -/
theorem full_or_tail (hi : i < region.length) :
    Matches (copied heap bytes region) tokens (bytes + i) ↔
      FullMatch region tokens i ∨ TailMatch heap bytes region tokens i := by
  by_cases h : i + tokens.length ≤ region.length
  · rw [matches_copied h]
    simp only [FullMatch, TailMatch, h, true_and, show ¬region.length < i + tokens.length by omega, false_and,
      and_false, or_false]
  · simp only [FullMatch, TailMatch, h, false_and, false_or, hi, show region.length < i + tokens.length by omega,
      true_and]

end Region

/-! ## The whole function -/

/-- The masks are made, and compare as the tokens do. -/
theorem generateMasks_compare (front : Char) {tokens : List Token} (hlen : 2 ≤ tokens.length)
    (hwidth : tokens.length ≤ 2 ^ 32) : ∃ masks, generateMasks front (render tokens) = some masks ∧
      ∀ heap i, ∃ b, compare heap i masks.bMask masks.szMask = some b ∧ (b = true ↔ Matches heap tokens i) := by
  obtain ⟨masks, hmasks, hfor⟩ := generateMasks_spec front tokens hwidth
  refine ⟨masks, hmasks, fun heap i => ?_⟩
  have hroom := lt_length_render hlen
  obtain ⟨n, hn⟩ : ∃ n, (render tokens).length - tokens.length = n + 1 :=
    ⟨(render tokens).length - tokens.length - 1, by omega⟩
  rw [hfor.szMask, hn, List.replicate_succ]
  exact compare_spec heap _ tokens masks.bMask i (by rw [hfor.length]; exact hroom.le) hfor.values

section Search

variable {heap : Heap} {bytes : Nat} {front : Char} {memory : GuestMemory} {tokens : List Token} {start size : Nat}
  (hlen : 2 ≤ tokens.length) (hwidth : tokens.length ≤ 2 ^ 32) (hbytes : bytes ≠ 0)
include hlen hwidth hbytes

theorem findPatternInMemory_found {i : Nat}
    (h : IsLeast {i | i < size ∧ Matches (copied heap bytes (memory.read start size)) tokens (bytes + i)} i) :
    findPatternInMemory heap bytes front memory (render tokens) start size = some ((start + i) % 2 ^ 64) := by
  obtain ⟨masks, hmasks, hcompare⟩ := generateMasks_compare front hlen hwidth
  obtain ⟨⟨hi, hmatch⟩, hleast⟩ := h
  have hfind : findPattern (copied heap bytes (memory.read start size)) bytes (bytes + size) masks.bMask masks.szMask =
      some (bytes + i) := by
    refine findFrom_found (hcompare _) _ bytes (bytes + i) (Nat.le_add_right ..) (by omega) hmatch ?_
    intro k hk hlt hmk
    have hle := hleast (a := k - bytes) ⟨by omega, by rwa [Nat.add_sub_cancel' hk]⟩
    omega
  rw [findPatternInMemory, if_neg hbytes, hmasks, Option.bind_some, hfind, Option.map_some, if_neg (by omega),
    Nat.add_sub_cancel_left]

theorem findPatternInMemory_missing
    (h : ∀ i < size, ¬Matches (copied heap bytes (memory.read start size)) tokens (bytes + i)) :
    findPatternInMemory heap bytes front memory (render tokens) start size = some 0 := by
  obtain ⟨masks, hmasks, hcompare⟩ := generateMasks_compare front hlen hwidth
  have hfind : findPattern (copied heap bytes (memory.read start size)) bytes (bytes + size) masks.bMask masks.szMask =
      some 0 := by
    refine findFrom_missing (hcompare _) _ bytes fun k hk hlt hmk => ?_
    refine h (k - bytes) (by omega) ?_
    rwa [Nat.add_sub_cancel' hk]
  rw [findPatternInMemory, if_neg hbytes, hmasks, Option.bind_some, hfind]
  rfl

end Search

theorem exists_isLeast {P : Nat → Prop} (h : ∃ i, P i) : ∃ i, IsLeast {i | P i} i := by
  classical
  exact ⟨Nat.find h, Nat.find_spec h, fun j hj => Nat.find_min' h hj⟩

/-- What lies behind the buffer does not decide the search. -/
def EndsInside (heap : Heap) (bytes : Nat) (region : List UInt8) (tokens : List Token) (start : Nat) : Prop :=
  (∃ i, FullMatch region tokens i) ∨
    ∀ i, IsLeast {i | TailMatch heap bytes region tokens i} i → (start + i) % 2 ^ 64 = 0

/-- Without the buffer nothing is found. -/
def FindsNothing (region : List UInt8) (tokens : List Token) (start : Nat) : Prop :=
  ∀ i, IsLeast {i | FullMatch region tokens i} i → (start + i) % 2 ^ 64 = 0

theorem findsFirst_zero {region : List UInt8} {tokens : List Token} {start : Nat} :
    FindsFirst region tokens start 0 ↔ FindsNothing region tokens start := by
  constructor
  · intro h i hi
    rcases h with ⟨j, hj, h0⟩ | ⟨hnone, -⟩
    · rw [hi.unique hj, ← h0]
    · exact absurd hi.1 (hnone i)
  · intro h
    by_cases hfull : ∃ i, FullMatch region tokens i
    · obtain ⟨i, hi⟩ := exists_isLeast hfull
      exact .inl ⟨i, hi, (h i hi).symm⟩
    · exact .inr ⟨fun i hi => hfull ⟨i, hi⟩, rfl⟩

section Outcome

variable {heap : Heap} {bytes : Nat} {region : List UInt8} {tokens : List Token} {i : Nat}

/-- A match inside the region comes before those that run over its end. -/
theorem isLeast_of_full (hpos : 0 < tokens.length) (h : IsLeast {i | FullMatch region tokens i} i) :
    IsLeast {i | i < region.length ∧ Matches (copied heap bytes region) tokens (bytes + i)} i := by
  obtain ⟨⟨hfit, hmatch⟩, hleast⟩ := h
  refine ⟨⟨by omega, (matches_copied hfit).mpr hmatch⟩, fun j hj => ?_⟩
  rcases (full_or_tail hj.1).mp hj.2 with hfull | htail
  · exact hleast hfull
  · have := htail.2.1
    omega

theorem isLeast_of_tail (hnone : ∀ i, ¬FullMatch region tokens i)
    (h : IsLeast {i | TailMatch heap bytes region tokens i} i) :
    IsLeast {i | i < region.length ∧ Matches (copied heap bytes region) tokens (bytes + i)} i := by
  refine ⟨⟨h.1.1, h.1.2.2⟩, fun j hj => ?_⟩
  rcases (full_or_tail hj.1).mp hj.2 with hfull | htail
  · exact absurd hfull (hnone j)
  · exact h.2 htail

end Outcome

/-- The scan reports the first match inside the region, unless there is none and one runs over
    the end of the buffer (or there is no buffer). -/
theorem findPatternInMemory_iff (heap : Heap) (bytes : Nat) (front : Char) (memory : GuestMemory) (tokens : List Token)
    (start size : Nat) (hlen : 2 ≤ tokens.length) (hwidth : tokens.length ≤ 2 ^ 32) :
    (∃ r, findPatternInMemory heap bytes front memory (render tokens) start size = some r ∧
      FindsFirst (memory.read start size) tokens start r) ↔
    if bytes = 0 then FindsNothing (memory.read start size) tokens start
    else EndsInside heap bytes (memory.read start size) tokens start := by
  have hsize : (memory.read start size).length = size := memory.length_read start size
  split
  · next hbytes =>
    simp only [findPatternInMemory, hbytes, if_true, Option.some.injEq, exists_eq_left', findsFirst_zero]
  · next hbytes =>
    by_cases hfull : ∃ i, FullMatch (memory.read start size) tokens i
    · obtain ⟨i, hi⟩ := exists_isLeast hfull
      have hbuffer : IsLeast {i | i < _ ∧ Matches (copied heap bytes (memory.read start size)) tokens (bytes + i)} i :=
        isLeast_of_full (by omega) hi
      rw [hsize] at hbuffer
      exact iff_of_true ⟨_, findPatternInMemory_found hlen hwidth hbytes hbuffer, .inl ⟨i, hi, rfl⟩⟩ (.inl hfull)
    · have hnone : ∀ i, ¬FullMatch (memory.read start size) tokens i := fun i hi => hfull ⟨i, hi⟩
      by_cases htail : ∃ i, TailMatch heap bytes (memory.read start size) tokens i
      · obtain ⟨i, hi⟩ := exists_isLeast htail
        have hbuffer := isLeast_of_tail hnone hi
        rw [hsize] at hbuffer
        simp only [findPatternInMemory_found hlen hwidth hbytes hbuffer, Option.some.injEq, exists_eq_left']
        constructor
        · intro h
          rcases h with ⟨j, hj, -⟩ | ⟨-, h0⟩
          · exact absurd hj.1 (hnone j)
          · exact .inr fun j hj => by rwa [hj.unique hi]
        · intro h
          rcases h with ⟨j, hj⟩ | h
          · exact absurd hj (hnone j)
          · exact .inr ⟨hnone, h i hi⟩
      · have hmissing : ∀ i < size, ¬Matches (copied heap bytes (memory.read start size)) tokens (bytes + i) := by
          intro i hi hmatch
          rcases (full_or_tail (by rwa [hsize])).mp hmatch with h | h
          · exact hnone i h
          · exact htail ⟨i, h⟩
        exact iff_of_true ⟨0, findPatternInMemory_missing hlen hwidth hbytes hmissing, .inr ⟨hnone, rfl⟩⟩
          (.inr fun i hi => absurd ⟨i, hi.1⟩ htail)

/-- `48 8B`. -/
def movPattern : List Token := [.byte ⟨'4', by decide⟩ ⟨'8', by decide⟩, .byte ⟨'8', by decide⟩ ⟨'B', by decide⟩]

example : String.ofList (render movPattern) = "48 8B" := by decide

/-- A region that ends with the first byte of the pattern. -/
def cutRegion : GuestMemory := ⟨fun a => if a = 0x1000 then some 0x48 else none⟩

theorem findPatternInMemory_cut : ∃ r,
    findPatternInMemory (fun _ => 0) 0x100 ' ' cutRegion (render movPattern) 0x1000 1 = some r ∧
      FindsFirst (cutRegion.read 0x1000 1) movPattern 0x1000 r := by
  refine (findPatternInMemory_iff (fun _ => 0) 0x100 ' ' cutRegion movPattern 0x1000 1 (by decide) (by decide)).mpr ?_
  rw [if_neg (by decide)]
  refine .inr fun i hi => ?_
  -- the byte behind the buffer is not the second one
  obtain ⟨hlt, -, hmatch⟩ := hi.1
  rw [GuestMemory.length_read, Nat.lt_one_iff] at hlt
  subst hlt
  exact absurd (hmatch 1 0x8b (by decide)) (by decide)

/-- With the second byte behind the buffer, the last byte of the region is reported. -/
theorem tail_reported :
    findPatternInMemory (fun _ => 0x8b) 0x100 ' ' cutRegion (render movPattern) 0x1000 1 = some 0x1000 ∧
      ¬FindsFirst (cutRegion.read 0x1000 1) movPattern 0x1000 0x1000 := by
  refine ⟨by decide +kernel, fun h => ?_⟩
  rcases h with ⟨i, hi, -⟩ | ⟨-, h0⟩
  · have hfit := hi.1.1
    rw [GuestMemory.length_read] at hfit
    exact absurd hfit (by simp [movPattern])
  · cases h0

end Sigscanner

end Jiaa.Game
