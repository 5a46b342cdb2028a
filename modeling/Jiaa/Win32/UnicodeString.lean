/-
  Jiaa.Win32.UnicodeString — reading the counted strings of the kernel
  (memflow-win32 `win32/unicode_string.rs`).

  A string is a length in bytes and a pointer. Two bytes more than the length are read, and
  then overwritten with the NUL that the decoder needs: their contents do not matter, that
  they are there does.

  - `virtReadUnicodeString_gives`: what is read, once the string has units and a buffer;
  - `virtReadUnicodeString_iff`: a string that is there is decoded if and only if the two
    bytes behind it are there as well.
-/

import Jiaa.Win32.Reading

namespace Jiaa.Win32

open VirtualMemory Lib.Text

/-- The functions of the `widestring` crate: `U16CString::from_vec_with_nul` gives the units
    of the string, `to_string_lossy` its text. -/
structure Widestring where
  fromVecWithNul : List UInt16 → Option (List UInt16)
  toStringLossy : List UInt16 → String

/-- A vector with a NUL is cut at the first one. -/
structure Widestring.Documented (ws : Widestring) : Prop where
  cuts : ∀ v, 0 ∈ v → ws.fromVecWithNul v = some (v.takeWhile (· != 0))
  lossy : ∀ v, ws.toStringLossy v = fromUtf16Lossy v

/-- `chunks_exact(2)`, each pair a little-endian unit. -/
def units : List UInt8 → List UInt16
  | a :: b :: l => UInt16.ofNat (leU64 [a, b]) :: units l
  | _ => []

section Read

variable {W : Type} [VirtualMemory W]

/-- The pointer lies 8 or 4 bytes behind the length. -/
def readBuffer (procArch : X86Architecture) (addr : Nat) (uninit : Nat → UInt8) : ReadM W Nat :=
  if procArch.bits = 64 then orFail fun w => virtReadAddr64 w (Address.add addr 8) fun i => uninit i
  else if procArch.bits = 32 then orFail fun w => virtReadAddr32 w (Address.add addr 4) fun i => uninit i
  else throw .invalidArchitecture

def virtReadUnicodeString (ws : Widestring) (procArch : X86Architecture) (addr : Nat) (uninit : Nat → UInt8) :
    ReadM W String := do
  let lengthBytes ← readRawInto addr [0, 0]
  let length := leU64 lengthBytes
  if length = 0 then throw (.unicode "unable to read unicode string length")
  else do
    let buffer ← readBuffer procArch addr uninit
    if buffer = 0 then throw (.unicode "unable to read unicode string length")
    else if length % 2 ≠ 0 then throw (.unicode "unicode string length is not a multiple of two")
    else do
      let content ← readRawInto buffer (List.replicate (length + 2) 0)
      let content16 := units ((content.set length 0).set (length + 1) 0)
      match ws.fromVecWithNul content16 with
      | none => throw .encoding
      | some v => pure (ws.toStringLossy v)

end Read

/-! ## Units -/

theorem units_append : ∀ (n : Nat) (l m : List UInt8), l.length = 2 * n → units (l ++ m) = units l ++ units m := by
  intro n
  induction n with
  | zero =>
    intro l m hl
    rw [List.eq_nil_of_length_eq_zero hl]
    rfl
  | succ n ih =>
    intro l m hl
    match l with
    | a :: b :: l =>
      simp only [List.length_cons] at hl
      simp [units, ih l m (by omega)]

/-- Two bytes that are overwritten do not matter. -/
theorem set_last_two (l : List UInt8) (a b : UInt8) :
    ((l ++ [a, b]).set l.length 0).set (l.length + 1) 0 = l ++ [0, 0] := by
  simp

theorem takeWhile_append_nul (u : List UInt16) : (u ++ [0]).takeWhile (· != 0) = u.takeWhile (· != 0) := by
  induction u with
  | nil => rfl
  | cons x u ih =>
    rw [List.cons_append, List.takeWhile_cons, List.takeWhile_cons, ih]

/-! ## What is read -/

variable {W : Type} [VirtualMemory W] {g : GuestMemory} {P : W → Prop} {procArch : X86Architecture}

def lengthAt (g : GuestMemory) (addr : Nat) : Nat := leU64 (g.read addr 2)

def bufferAt (g : GuestMemory) (procArch : X86Architecture) (addr : Nat) : Nat :=
  g.addrAt procArch (Address.add addr (if procArch.bits = 64 then 8 else 4))

/-- The text of the units up to the first NUL, or of all. -/
def decoded (g : GuestMemory) (buffer length : Nat) : String :=
  fromUtf16Lossy ((units (g.read buffer length)).takeWhile (· != 0))

theorem gives_readBuffer (hs : Shows g P) (harch : procArch.bits = 64 ∨ procArch.bits = 32) (addr : Nat)
    (uninit : Nat → UInt8) : Gives P (readBuffer procArch addr uninit) (.ok (bufferAt g procArch addr)) := by
  have h := gives_readAddrArch hs harch (Address.add_lt addr (if procArch.bits = 64 then 8 else 4)) uninit
  unfold readAddrArch virtReadAddrArch at h
  unfold readBuffer bufferAt
  rcases harch with hb | hb
  · simpa [hb] using h
  · simpa [hb] using h

/-- A string with units is decoded unless its pointer is null or a byte up to two behind it
    is not mapped. -/
theorem virtReadUnicodeString_gives (hs : Shows g P) (harch : procArch.bits = 64 ∨ procArch.bits = 32) {ws : Widestring}
    (hws : ws.Documented) {addr : Nat} (uninit : Nat → UInt8) (haddr : addr < 2 ^ 64) (hheader : g.Mapped addr 2)
    (hne : lengthAt g addr ≠ 0) (heven : lengthAt g addr % 2 = 0) :
    Gives P (virtReadUnicodeString ws procArch addr uninit)
      (if bufferAt g procArch addr = 0 then .error (.unicode "unable to read unicode string length")
      else if g.Mapped (bufferAt g procArch addr) (lengthAt g addr + 2) then
        .ok (decoded g (bufferAt g procArch addr) (lengthAt g addr))
      else .error (.core .partialData)) := by
  have htwo : ([0, 0] : List UInt8) ≠ [] := by simp
  have hlen := gives_readRawInto hs haddr htwo
  simp only [List.length_cons, List.length_nil, Nat.zero_add, Nat.reduceAdd, if_pos hheader] at hlen
  unfold virtReadUnicodeString
  refine hlen.bind ?_
  have hlength : leU64 (g.read addr 2) = lengthAt g addr := rfl
  simp only [hlength, if_neg hne]
  refine (gives_readBuffer hs harch addr uninit).bind ?_
  split
  · exact .throw _
  · rw [if_neg (by omega)]
    have hout : List.replicate (lengthAt g addr + 2) (0 : UInt8) ≠ [] := by simp
    have hbuffer : bufferAt g procArch addr < 2 ^ 64 := addrAt_lt g harch _
    have hread := gives_readRawInto hs hbuffer hout
    rw [List.length_replicate] at hread
    split
    · next hm =>
      rw [if_pos hm] at hread
      refine hread.bind ?_
      have hcontent : ((g.read (bufferAt g procArch addr) (lengthAt g addr + 2)).set (lengthAt g addr) 0).set
          (lengthAt g addr + 1) 0 = g.read (bufferAt g procArch addr) (lengthAt g addr) ++ [0, 0] := by
        have h := set_last_two (g.read (bufferAt g procArch addr) (lengthAt g addr))
        rw [GuestMemory.length_read] at h
        rw [GuestMemory.read_add]
        exact h _ _
      have hunits : units (g.read (bufferAt g procArch addr) (lengthAt g addr) ++ [0, 0]) =
          units (g.read (bufferAt g procArch addr) (lengthAt g addr)) ++ [0] :=
        units_append (lengthAt g addr / 2) _ _ (by rw [GuestMemory.length_read]; omega)
      simp only [hcontent, hunits]
      rw [hws.cuts _ (by simp), takeWhile_append_nul]
      simp only [hws.lossy]
      exact .pure _
    · next hm =>
      rw [if_neg hm] at hread
      exact hread.bind_error

/-- As built, a string with its header and its bytes mapped is read if and only if the two
    bytes behind it are mapped too, and its pointer is not null. -/
theorem virtReadUnicodeString_iff (g : GuestMemory) (P : W → Prop) (hs : Shows g P) (procArch : X86Architecture)
    (harch : procArch.bits = 64 ∨ procArch.bits = 32) (ws : Widestring) (hws : ws.Documented) (addr : Nat)
    (uninit : Nat → UInt8) (haddr : addr < 2 ^ 64) (hheader : g.Mapped addr 2) (hne : lengthAt g addr ≠ 0)
    (heven : lengthAt g addr % 2 = 0) (hbytes : g.Mapped (bufferAt g procArch addr) (lengthAt g addr)) (w : W) (hw : P w) :
    (∃ w', virtReadUnicodeString ws procArch addr uninit w =
      some (.ok (decoded g (bufferAt g procArch addr) (lengthAt g addr)), w')) ↔
    bufferAt g procArch addr ≠ 0 ∧ g.Mapped (bufferAt g procArch addr + lengthAt g addr) 2 := by
  obtain ⟨w', hrun, -⟩ := virtReadUnicodeString_gives hs harch hws uninit haddr hheader hne heven w hw
  have hsplit := g.mapped_add (bufferAt g procArch addr) (lengthAt g addr) 2
  rw [hrun]
  by_cases h0 : bufferAt g procArch addr = 0
  · simp [h0]
  · by_cases hm : g.Mapped (bufferAt g procArch addr + lengthAt g addr) 2
    · simp [h0, hsplit, hm, hbytes]
    · simp [h0, hsplit, hm]

/-- The crate as it is documented. -/
def wideStrings : Widestring where
  fromVecWithNul v := if 0 ∈ v then some (v.takeWhile (· != 0)) else none
  toStringLossy := fromUtf16Lossy

theorem wideStrings_documented : wideStrings.Documented where
  cuts _ h := if_pos h
  lossy _ := rfl

/-- Four bytes of a string with two more behind them. -/
def shortString : GuestMemory := .ofWords [(0x3000, 4), (0x3008, 0x1ff8), (0x1ff8, 0x420041)]

theorem virtReadUnicodeString_shortString :
    (∃ w', virtReadUnicodeString wideStrings x64Arch 0x3000 (fun _ => 0) shortString =
      some (.ok (decoded shortString (bufferAt shortString x64Arch 0x3000) (lengthAt shortString 0x3000)), w')) ↔
    bufferAt shortString x64Arch 0x3000 ≠ 0 ∧
      shortString.Mapped (bufferAt shortString x64Arch 0x3000 + lengthAt shortString 0x3000) 2 :=
  virtReadUnicodeString_iff shortString (· = shortString) shortString.shows x64Arch (by decide) wideStrings
    wideStrings_documented 0x3000 (fun _ => 0) (by decide) (by decide +kernel) (by decide +kernel) (by decide +kernel)
    (by decide +kernel) shortString rfl

/-- Eight bytes up to the end of a page, and nothing behind them. -/
def stringAtPageEnd : GuestMemory := .ofWords [(0x3000, 8), (0x3008, 0x1ff8), (0x1ff8, 0x44004300420041)]

/-- All of the string is mapped, and reading it fails. -/
theorem page_end_fails : lengthAt stringAtPageEnd 0x3000 = 8 ∧ bufferAt stringAtPageEnd x64Arch 0x3000 = 0x1ff8 ∧
    stringAtPageEnd.Mapped 0x3000 16 ∧ stringAtPageEnd.Mapped 0x1ff8 8 ∧
    (virtReadUnicodeString wideStrings x64Arch 0x3000 (fun _ => 0) stringAtPageEnd).map (·.1) =
      some (.error (.core .partialData)) := by
  refine ⟨?_, ?_, ?_, ?_, ?_⟩ <;> decide +kernel

end Jiaa.Win32
