/-
  Jiaa.Lib.Text — text from bytes and from 16-bit units, with U+FFFD for what is malformed.

  - `fromUtf8Lossy`: a malformed sequence is replaced up to the first byte that no
    well-formed one has there;
  - `fromUtf16Lossy`: each unpaired surrogate is replaced;
  - `takeBytes_eq_some_iff`: a slice of the first bytes of a text ends between two characters.
-/

import Mathlib.Data.List.Basic

namespace Jiaa.Lib.Text

def replacement : Char := Char.ofNat 0xfffd

/-! ## UTF-8 -/

def isCont (b : UInt8) : Bool := 0x80 ≤ b && b ≤ 0xbf

/-- The second bytes that may follow `b0`, the first of three or four. -/
def secondOf (b0 : UInt8) : UInt8 × UInt8 :=
  if b0 = 0xe0 then (0xa0, 0xbf) else if b0 = 0xed then (0x80, 0x9f)
  else if b0 = 0xf0 then (0x90, 0xbf) else if b0 = 0xf4 then (0x80, 0x8f) else (0x80, 0xbf)

/-- The value of a sequence with the bits `b0` of its first byte. -/
def codePoint (b0 : Nat) (cont : List UInt8) : Char :=
  Char.ofNat (cont.foldl (fun n b => 64 * n + b.toNat % 64) b0)

def utf8Chars : List UInt8 → List Char
  | [] => []
  | b0 :: l0 =>
    if b0 < 0x80 then Char.ofNat b0.toNat :: utf8Chars l0
    else if b0 < 0xc2 || 0xf4 < b0 then replacement :: utf8Chars l0
    else match l0 with
      | [] => [replacement]
      | b1 :: l1 =>
        if b0 < 0xe0 then
          if isCont b1 then codePoint (b0.toNat % 32) [b1] :: utf8Chars l1
          else replacement :: utf8Chars (b1 :: l1)
        else if b1 < (secondOf b0).1 || (secondOf b0).2 < b1 then replacement :: utf8Chars (b1 :: l1)
        else match l1 with
          | [] => [replacement]
          | b2 :: l2 =>
            if !isCont b2 then replacement :: utf8Chars (b2 :: l2)
            else if b0 < 0xf0 then codePoint (b0.toNat % 16) [b1, b2] :: utf8Chars l2
            else match l2 with
              | [] => [replacement]
              | b3 :: l3 =>
                if isCont b3 then codePoint (b0.toNat % 8) [b1, b2, b3] :: utf8Chars l3
                else replacement :: utf8Chars (b3 :: l3)

def fromUtf8Lossy (bytes : List UInt8) : String := String.ofList (utf8Chars bytes)

/-! ## UTF-16 -/

def isHigh (u : UInt16) : Bool := 0xd800 ≤ u && u ≤ 0xdbff

def isLow (u : UInt16) : Bool := 0xdc00 ≤ u && u ≤ 0xdfff

def utf16Chars : List UInt16 → List Char
  | [] => []
  | u :: l =>
    if isHigh u then match l with
      | [] => [replacement]
      | v :: l' =>
        if isLow v then Char.ofNat (0x10000 + (u.toNat - 0xd800) * 0x400 + (v.toNat - 0xdc00)) :: utf16Chars l'
        else replacement :: utf16Chars (v :: l')
    else if isLow u then replacement :: utf16Chars l
    else Char.ofNat u.toNat :: utf16Chars l

def fromUtf16Lossy (units : List UInt16) : String := String.ofList (utf16Chars units)

/-! ## Slices of a text -/

/-- `&s[..n]`; `none` is the panic inside a character or past the end. -/
def takeBytes : Nat → List Char → Option (List Char)
  | 0, _ => some []
  | _ + 1, [] => none
  | n + 1, c :: cs => if c.utf8Size ≤ n + 1 then (takeBytes (n + 1 - c.utf8Size) cs).map (c :: ·) else none
termination_by structural _ cs => cs

def byteLength : List Char → Nat
  | [] => 0
  | c :: cs => c.utf8Size + byteLength cs

theorem byteLength_cons (c : Char) (cs : List Char) : byteLength (c :: cs) = c.utf8Size + byteLength cs := rfl

theorem byteLength_eq_zero {cs : List Char} : byteLength cs = 0 ↔ cs = [] := by
  cases cs with
  | nil => simp [byteLength]
  | cons c cs =>
    have := c.utf8Size_pos
    rw [byteLength_cons]
    exact iff_of_false (by omega) (by simp)

/-- The slice is the beginning of the text that has as many bytes. -/
theorem takeBytes_eq_some_iff {n : Nat} {cs p : List Char} :
    takeBytes n cs = some p ↔ byteLength p = n ∧ ∃ rest, cs = p ++ rest := by
  induction cs generalizing n p with
  | nil =>
    cases n with
    | zero =>
      rw [takeBytes, byteLength_eq_zero, Option.some.injEq]
      exact ⟨fun h => ⟨h.symm, [], by simp [← h]⟩, fun h => h.1.symm⟩
    | succ n =>
      refine iff_of_false (by simp [takeBytes]) fun ⟨hlen, rest, hrest⟩ => ?_
      obtain ⟨rfl, -⟩ := List.append_eq_nil_iff.mp hrest.symm
      simp [byteLength] at hlen
  | cons c cs ih =>
    cases n with
    | zero =>
      rw [takeBytes, byteLength_eq_zero, Option.some.injEq]
      exact ⟨fun h => ⟨h.symm, c :: cs, by simp [← h]⟩, fun h => h.1.symm⟩
    | succ n =>
      rw [takeBytes, Option.ite_none_right_eq_some, Option.map_eq_some_iff]
      constructor
      · rintro ⟨hsize, q, hq, rfl⟩
        obtain ⟨hlen, rest, rfl⟩ := ih.mp hq
        exact ⟨by rw [byteLength_cons]; omega, rest, rfl⟩
      · rintro ⟨hlen, rest, hrest⟩
        cases p with
        | nil => simp [byteLength] at hlen
        | cons d q =>
          obtain ⟨rfl, rfl⟩ := List.cons.inj hrest
          rw [byteLength_cons] at hlen
          exact ⟨by omega, q, ih.mpr ⟨by omega, rest, rfl⟩, rfl⟩

end Jiaa.Lib.Text
