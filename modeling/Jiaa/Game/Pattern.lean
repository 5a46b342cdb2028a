/-
  Jiaa.Game.Pattern — patterns of the signature scanner (jiaa-src `sigscanner.c`).

  A pattern is a text of tokens with a space between two: two hexadecimal digits, or `?`
  for any byte. `FindPatternInMemory` makes two masks of it in one pass over the
  characters: the values of the bytes, and a string with a character for each token.

  - `maskLoop_text`: the characters of one token;
  - `generateMasks_spec`: what the masks hold in the end;
  - `generateMasks_inStep_iff`: they stand for the tokens as long as an `unsigned int` counts
    these.
-/

import Mathlib.Algebra.Group.Nat.Defs
import Mathlib.Data.List.Basic

namespace Jiaa.Game

/-! ## `strtoul` with base 16 -/

def isSpace (c : Char) : Bool := c ∈ [' ', '\t', '\n', '\x0b', '\x0c', '\r']

def hexValue (c : Char) : Option Nat :=
  if '0' ≤ c ∧ c ≤ '9' then some (c.toNat - 48)
  else if 'a' ≤ c ∧ c ≤ 'f' then some (c.toNat - 87)
  else if 'A' ≤ c ∧ c ≤ 'F' then some (c.toNat - 55)
  else none

def digitsFrom (n : Nat) : List Char → Nat
  | [] => n
  | c :: s =>
    match hexValue c with
    | some d => digitsFrom (16 * n + d) s
    | none => n

def withoutHexPrefix : List Char → List Char
  | '0' :: 'x' :: s => s
  | '0' :: 'X' :: s => s
  | s => s

/-- Of a buffer, up to its terminator. -/
def strtoul16 (buffer : List Char) : Nat :=
  match (buffer.takeWhile (· ≠ '\x00')).dropWhile isSpace with
  | '-' :: s => (2 ^ 64 - digitsFrom 0 (withoutHexPrefix s)) % 2 ^ 64
  | '+' :: s => digitsFrom 0 (withoutHexPrefix s)
  | s => digitsFrom 0 (withoutHexPrefix s)

/-! ## The masks -/

/-- The two buffers and where the next token goes in each; both indices are `unsigned int`. -/
structure Masks where
  bMask : List UInt8
  szMask : List Char
  bMaskIndex : Nat
  szMaskIndex : Nat
  deriving DecidableEq, Repr

namespace Masks

def zeroed (patternLen : Nat) : Masks := ⟨List.replicate patternLen 0, List.replicate patternLen '\x00', 0, 0⟩

/-- `none` is a write outside of the buffer. -/
def setKind (self : Masks) (c : Char) : Option Masks :=
  if self.szMaskIndex < self.szMask.length then some { self with szMask := self.szMask.set self.szMaskIndex c }
  else none

def setByte (self : Masks) (b : UInt8) : Option Masks :=
  if self.bMaskIndex < self.bMask.length then
    some { self with bMask := self.bMask.set self.bMaskIndex b, bMaskIndex := (self.bMaskIndex + 1) % 2 ^ 32 }
  else none

def endWord (self : Masks) (prev c next : Char) : Option Masks :=
  if next = ' ' ∨ next = '\x00' then self.setByte (UInt8.ofNat (strtoul16 [prev, c, '\x00'])) else some self

/-- One round, on `pattern[i - 1]`, `pattern[i]` and `pattern[i + 1]`. -/
def step (self : Masks) (prev c next : Char) : Option Masks :=
  if c = ' ' then some { self with szMaskIndex := (self.szMaskIndex + 1) % 2 ^ 32 }
  else (self.setKind (if c = '?' then '?' else 'x')).bind fun m => m.endWord prev c next

end Masks

/-- The rounds for the rest of a pattern, `prev` being the character in front of it. -/
def maskLoop : Char → List Char → Masks → Option Masks
  | _, [], m => some m
  | prev, c :: rest, m => (m.step prev c (rest.headD '\x00')).bind fun m => maskLoop c rest m

/-- `front` is what lies in front of the pattern, which the first round reads if the first
    token is a single character. -/
def generateMasks (front : Char) (pattern : List Char) : Option Masks := maskLoop front pattern (.zeroed pattern.length)

/-! ## Tokens -/

def hexChars : List Char := "0123456789abcdefABCDEF".toList

def HexDigit : Type := { c : Char // c ∈ hexChars }

def HexDigit.value (self : HexDigit) : Nat := (hexValue self.val).getD 0

/-- `?` or `??`, or two digits. -/
inductive Token where
  | wildcard (double : Bool)
  | byte (hi lo : HexDigit)

namespace Token

def text : Token → List Char
  | wildcard false => ['?']
  | wildcard true => ['?', '?']
  | byte hi lo => [hi.val, lo.val]

/-- Its character in the mask. -/
def kind : Token → Char
  | wildcard _ => '?'
  | byte .. => 'x'

def value : Token → Option UInt8
  | wildcard _ => none
  | byte hi lo => some (UInt8.ofNat (16 * hi.value + lo.value))

end Token

def render : List Token → List Char
  | [] => []
  | [t] => t.text
  | t :: t' :: tokens => t.text ++ ' ' :: render (t' :: tokens)

theorem hexChars_spec : ∀ c ∈ hexChars, c ≠ ' ' ∧ c ≠ '?' ∧ c ≠ '\x00' := by
  have hall : (hexChars.all fun c => c ≠ ' ' ∧ c ≠ '?' ∧ c ≠ '\x00') = true := by decide
  intro c hc
  simpa using List.all_eq_true.mp hall c hc

theorem strtoul16_digits : ∀ hi ∈ hexChars, ∀ lo ∈ hexChars,
    strtoul16 [hi, lo, '\x00'] = 16 * (hexValue hi).getD 0 + (hexValue lo).getD 0 := by
  have hall : (hexChars.all fun hi => hexChars.all fun lo =>
      strtoul16 [hi, lo, '\x00'] == 16 * (hexValue hi).getD 0 + (hexValue lo).getD 0) = true := by decide +kernel
  intro hi hhi lo hlo
  exact beq_iff_eq.mp (List.all_eq_true.mp (List.all_eq_true.mp hall hi hhi) lo hlo)

/-! ## One token -/

namespace Masks

/-- After a token: its kind is in place, and so is `b`. -/
def put (self : Masks) (t : Token) (b : UInt8) : Masks :=
  { self with
    szMask := self.szMask.set self.szMaskIndex t.kind
    bMask := self.bMask.set self.bMaskIndex b
    bMaskIndex := (self.bMaskIndex + 1) % 2 ^ 32 }

variable {m : Masks}

theorem step_inside {prev c next : Char} (hc : c ≠ ' ') (hnext : next ≠ ' ' ∧ next ≠ '\x00')
    (hs : m.szMaskIndex < m.szMask.length) :
    m.step prev c next = some { m with szMask := m.szMask.set m.szMaskIndex (if c = '?' then '?' else 'x') } := by
  simp [step, hc, setKind, hs, endWord, hnext]

theorem step_last {prev c next : Char} (hc : c ≠ ' ') (hnext : next = ' ' ∨ next = '\x00')
    (hs : m.szMaskIndex < m.szMask.length) (hb : m.bMaskIndex < m.bMask.length) :
    m.step prev c next = some { m with
      szMask := m.szMask.set m.szMaskIndex (if c = '?' then '?' else 'x')
      bMask := m.bMask.set m.bMaskIndex (UInt8.ofNat (strtoul16 [prev, c, '\x00']))
      bMaskIndex := (m.bMaskIndex + 1) % 2 ^ 32 } := by
  simp [step, hc, setKind, hs, endWord, hnext, setByte, hb]

theorem step_space {prev next : Char} :
    m.step prev ' ' next = some { m with szMaskIndex := (m.szMaskIndex + 1) % 2 ^ 32 } := by
  simp [step]

/-- A word of two characters: the kind is that of the last one. -/
theorem loop_two {prev c d : Char} {rest : List Char} (hc : c ≠ ' ') (hd : d ≠ ' ' ∧ d ≠ '\x00')
    (hrest : rest.headD '\x00' = ' ' ∨ rest.headD '\x00' = '\x00')
    (hs : m.szMaskIndex < m.szMask.length) (hb : m.bMaskIndex < m.bMask.length) :
    maskLoop prev (c :: d :: rest) m = maskLoop d rest { m with
      szMask := m.szMask.set m.szMaskIndex (if d = '?' then '?' else 'x')
      bMask := m.bMask.set m.bMaskIndex (UInt8.ofNat (strtoul16 [c, d, '\x00']))
      bMaskIndex := (m.bMaskIndex + 1) % 2 ^ 32 } := by
  rw [maskLoop, List.headD_cons, step_inside hc hd hs, Option.bind_some, maskLoop,
    step_last hd.1 hrest (by simpa using hs) (by exact hb), Option.bind_some]
  simp only [List.set_set]

end Masks

/-- A token: its kind goes into one mask and, if it is a byte, its value into the other. -/
theorem maskLoop_text (t : Token) (prev : Char) (rest : List Char)
    (hrest : rest.headD '\x00' = ' ' ∨ rest.headD '\x00' = '\x00') {m : Masks}
    (hs : m.szMaskIndex < m.szMask.length) (hb : m.bMaskIndex < m.bMask.length) :
    ∃ b last, (∀ v, t.value = some v → b = v) ∧ maskLoop prev (t.text ++ rest) m = maskLoop last rest (m.put t b) := by
  match t with
  | .wildcard false =>
    refine ⟨UInt8.ofNat (strtoul16 [prev, '?', '\x00']), '?', nofun, ?_⟩
    rw [Token.text, List.singleton_append, maskLoop, Masks.step_last (by decide) hrest hs hb]
    rfl
  | .wildcard true =>
    refine ⟨UInt8.ofNat (strtoul16 ['?', '?', '\x00']), '?', nofun, ?_⟩
    exact Masks.loop_two (by decide) (by decide) hrest hs hb
  | .byte hi lo =>
    obtain ⟨hh, -, -⟩ := hexChars_spec hi.val hi.property
    obtain ⟨hl, hq', h0⟩ := hexChars_spec lo.val lo.property
    refine ⟨UInt8.ofNat (strtoul16 [hi.val, lo.val, '\x00']), lo.val, ?_, ?_⟩
    · intro v hv
      cases hv
      rw [strtoul16_digits hi.val hi.property lo.val lo.property]
      rfl
    · have hloop : maskLoop prev (hi.val :: lo.val :: rest) m = _ := Masks.loop_two hh ⟨hl, h0⟩ hrest hs hb
      rw [if_neg hq'] at hloop
      exact hloop

/-! ## All tokens -/

/-- The masks stand for the tokens: a character for each and then zeros, and the values. -/
structure Masks.StandsFor (m : Masks) (patternLen : Nat) (tokens : List Token) : Prop where
  szMask : m.szMask = tokens.map Token.kind ++ List.replicate (patternLen - tokens.length) '\x00'
  length : m.bMask.length = patternLen
  values : ∀ (k : Nat) (v : UInt8), tokens[k]?.bind Token.value = some v → m.bMask[k]? = some v

theorem Masks.StandsFor.put {m : Masks} {patternLen : Nat} {tokens : List Token} (h : m.StandsFor patternLen tokens)
    (hs : m.szMaskIndex = tokens.length) (hb : m.bMaskIndex = tokens.length) (hroom : tokens.length < patternLen)
    {t : Token} {b : UInt8} (hvalue : ∀ v, t.value = some v → b = v) :
    (m.put t b).StandsFor patternLen (tokens ++ [t]) := by
  refine ⟨?_, by simpa [Masks.put] using h.length, fun k v hk => ?_⟩
  · obtain ⟨n, hn⟩ : ∃ n, patternLen - tokens.length = n + 1 := ⟨patternLen - tokens.length - 1, by omega⟩
    simp only [Masks.put, h.szMask, hs, hn]
    rw [List.set_append_right _ _ (by simp)]
    simp [List.replicate_succ, show patternLen - (tokens.length + 1) = n by omega]
  · simp only [Masks.put, hb]
    by_cases hlast : k = tokens.length
    · subst hlast
      rw [List.getElem?_set_self (by rw [h.length]; exact hroom), hvalue v (by simpa using hk)]
    · have hin : tokens[k]?.bind Token.value = some v := by
        by_cases hlt : k < tokens.length
        · rwa [List.getElem?_append_left hlt] at hk
        · rw [List.getElem?_eq_none (by simp; omega)] at hk
          cases hk
      rw [List.getElem?_set_ne (Ne.symm hlast)]
      exact h.values k v hin

theorem Token.text_pos (t : Token) : 0 < t.text.length := by
  cases t with
  | wildcard double => cases double <;> simp [text]
  | byte hi lo => simp [text]

theorem length_le_render : ∀ tokens : List Token, tokens.length ≤ (render tokens).length
  | [] => Nat.le_refl _
  | [t] => t.text_pos
  | t :: t' :: tokens => by
    have ih := length_le_render (t' :: tokens)
    simp only [render, List.length_append, List.length_cons] at ih ⊢
    omega

/-- With two tokens or more there is room for a terminator. -/
theorem lt_length_render {tokens : List Token} (h : 2 ≤ tokens.length) : tokens.length < (render tokens).length := by
  match tokens, h with
  | t :: t' :: tokens, _ =>
    have hpos := t.text_pos
    have hrest := length_le_render (t' :: tokens)
    simp only [render, List.length_append, List.length_cons] at hrest ⊢
    omega

/-- The rounds for the rest of the tokens, after those of `front`. -/
theorem maskLoop_render {patternLen : Nat} : ∀ (tokens : List Token) (front : List Token) (prev : Char) (m : Masks),
    m.StandsFor patternLen front → m.szMaskIndex = front.length → m.bMaskIndex = front.length →
    front.length + tokens.length ≤ patternLen → front.length + tokens.length ≤ 2 ^ 32 →
    ∃ m', maskLoop prev (render tokens) m = some m' ∧ m'.StandsFor patternLen (front ++ tokens) := by
  intro tokens
  induction tokens with
  | nil => exact fun front prev m hm _ _ _ _ => ⟨m, rfl, by rwa [List.append_nil]⟩
  | cons t tokens ih =>
    intro front prev m hm hs hb hroom hwidth
    simp only [List.length_cons] at hroom hwidth
    have hlt : m.szMaskIndex < m.szMask.length := by
      rw [hm.szMask, hs]
      simp
      omega
    have hlt' : m.bMaskIndex < m.bMask.length := by
      rw [hm.length, hb]
      omega
    cases tokens with
    | nil =>
      obtain ⟨b, last, hvalue, hloop⟩ := maskLoop_text t prev [] (.inr rfl) hlt hlt'
      refine ⟨m.put t b, ?_, hm.put hs hb (by omega) hvalue⟩
      rw [List.append_nil] at hloop
      exact hloop
    | cons t' tokens =>
      obtain ⟨b, last, hvalue, hloop⟩ := maskLoop_text t prev (' ' :: render (t' :: tokens)) (.inl rfl) hlt hlt'
      have hput := hm.put hs hb (by omega) hvalue
      have hnext : ∀ i, i = front.length → (i + 1) % 2 ^ 32 = (front ++ [t]).length := by
        intro i hi
        rw [hi, List.length_append, List.length_singleton]
        exact Nat.mod_eq_of_lt (by simp at hwidth; omega)
      obtain ⟨m', hrun, hfor⟩ := ih (front ++ [t]) ' ' { m.put t b with szMaskIndex := (m.szMaskIndex + 1) % 2 ^ 32 }
        ⟨hput.szMask, hput.length, hput.values⟩ (hnext _ hs) (hnext _ hb)
        (by simp at hroom ⊢; omega) (by simp at hwidth ⊢; omega)
      refine ⟨m', ?_, by simpa using hfor⟩
      rw [render, hloop, maskLoop, Masks.step_space, Option.bind_some]
      exact hrun

theorem zeroed_standsFor (patternLen : Nat) : (Masks.zeroed patternLen).StandsFor patternLen [] :=
  ⟨by simp [Masks.zeroed], by simp [Masks.zeroed], by simp⟩

theorem generateMasks_spec (front : Char) (tokens : List Token) (hwidth : tokens.length ≤ 2 ^ 32) :
    ∃ m, generateMasks front (render tokens) = some m ∧ m.StandsFor (render tokens).length tokens := by
  have hroom := length_le_render tokens
  obtain ⟨m, hrun, hfor⟩ := maskLoop_render tokens [] front _ (zeroed_standsFor (render tokens).length) rfl rfl
    (by simpa using hroom) (by simpa using hwidth)
  exact ⟨m, hrun, hfor⟩

/-! ## Masks in step -/

/-- `szMask` is the string of the kinds of the tokens, ended inside of its buffer, and the
    values of the bytes are at the places of their tokens. -/
structure Masks.InStep (m : Masks) (patternLen : Nat) (tokens : List Token) : Prop where
  lengths : m.bMask.length = patternLen ∧ m.szMask.length = patternLen
  kinds : m.szMask.takeWhile (· ≠ '\x00') = tokens.map Token.kind
  ended : '\x00' ∈ m.szMask
  values : ∀ (k : Nat) (v : UInt8), tokens[k]?.bind Token.value = some v → m.bMask[k]? = some v

theorem Token.kind_ne_nul (t : Token) : t.kind ≠ '\x00' := by cases t <;> simp [kind]

/-- The one pattern without room for a terminator is `?`. -/
theorem length_lt_render {tokens : List Token} (h : tokens ≠ []) (hsingle : tokens ≠ [.wildcard false]) :
    tokens.length < (render tokens).length := by
  match tokens with
  | [.wildcard true] => decide
  | [.byte hi lo] => exact Nat.lt_succ_self 1
  | t :: t' :: tokens => exact lt_length_render (by simp)

theorem Masks.StandsFor.inStep {m : Masks} {patternLen : Nat} {tokens : List Token} (h : m.StandsFor patternLen tokens)
    (hroom : tokens.length < patternLen) : m.InStep patternLen tokens := by
  have hzeros : List.replicate (patternLen - tokens.length) '\x00' =
      '\x00' :: List.replicate (patternLen - tokens.length - 1) '\x00' := by
    rw [← List.replicate_succ, Nat.sub_add_cancel (by omega)]
  refine ⟨⟨h.length, ?_⟩, ?_, ?_, h.values⟩
  · rw [h.szMask, List.length_append, List.length_map, List.length_replicate]
    omega
  · rw [h.szMask, hzeros, List.takeWhile_append_of_pos (by simp [Token.kind_ne_nul])]
    simp
  · rw [h.szMask, hzeros]
    simp

namespace Masks

/-- Nothing at the places from `2 ^ 32` on has changed, and no index points there. -/
def Untouched (m m' : Masks) : Prop :=
  m'.szMaskIndex < 2 ^ 32 ∧ ∀ i, 2 ^ 32 ≤ i → m'.szMask[i]? = m.szMask[i]?

/-- The index is an `unsigned int`, so a round does not get there. -/
theorem step_untouched {m m' : Masks} {prev c next : Char} (h : m.step prev c next = some m')
    (hs : m.szMaskIndex < 2 ^ 32) : m.Untouched m' := by
  by_cases hc : c = ' '
  · subst hc
    rw [step_space] at h
    cases h
    exact ⟨Nat.mod_lt _ (by decide), fun _ _ => rfl⟩
  · simp only [step, if_neg hc, setKind] at h
    split at h
    · simp only [Option.bind_some, endWord, setByte] at h
      have hset : ∀ i, 2 ^ 32 ≤ i → ∀ k, (m.szMask.set m.szMaskIndex k)[i]? = m.szMask[i]? :=
        fun i hi k => List.getElem?_set_ne (by omega)
      split at h
      · split at h
        · cases h
          exact ⟨hs, fun i hi => hset i hi _⟩
        · cases h
      · cases h
        exact ⟨hs, fun i hi => hset i hi _⟩
    · cases h

theorem maskLoop_untouched : ∀ (text : List Char) (prev : Char) (m m' : Masks), maskLoop prev text m = some m' →
    m.szMaskIndex < 2 ^ 32 → m.Untouched m'
  | [], _, m, m', h, hs => by
    cases h
    exact ⟨hs, fun _ _ => rfl⟩
  | c :: rest, prev, m, m', h, hs => by
    obtain ⟨m₁, hstep, hrest⟩ := Option.bind_eq_some_iff.mp h
    obtain ⟨hs₁, hsame₁⟩ := step_untouched hstep hs
    obtain ⟨hs', hsame⟩ := maskLoop_untouched rest c m₁ m' hrest hs₁
    exact ⟨hs', fun i hi => (hsame i hi).trans (hsame₁ i hi)⟩

end Masks

/-- With more tokens than an `unsigned int` counts, a kind is missing at the place `2 ^ 32`. -/
theorem not_inStep_of_long {front : Char} {tokens : List Token} (h : 2 ^ 32 < tokens.length) {m : Masks}
    (hrun : generateMasks front (render tokens) = some m) : ¬ m.InStep (render tokens).length tokens := by
  intro hstep
  have hroom := length_le_render tokens
  have hzero : m.szMask[2 ^ 32]? = some '\x00' := by
    rw [(Masks.maskLoop_untouched _ _ _ _ hrun (Nat.two_pow_pos 32)).2 _ (Nat.le_refl _)]
    simp only [Masks.zeroed]
    exact List.getElem?_replicate_of_lt (by omega)
  have hkind : m.szMask[2 ^ 32]? = (tokens.map Token.kind)[2 ^ 32]? := by
    have hcut := List.takeWhile_append_dropWhile (p := (· ≠ '\x00')) (l := m.szMask)
    rw [hstep.kinds] at hcut
    rw [← hcut, List.getElem?_append_left (by rwa [List.length_map])]
  rw [hkind, List.getElem?_map, Option.map_eq_some_iff] at hzero
  obtain ⟨t, -, ht⟩ := hzero
  exact t.kind_ne_nul ht

theorem generateMasks_inStep_iff (front : Char) (tokens : List Token) (h : tokens ≠ [])
    (hsingle : tokens ≠ [.wildcard false]) :
    (∃ m, generateMasks front (render tokens) = some m ∧ m.InStep (render tokens).length tokens) ↔
      tokens.length ≤ 2 ^ 32 := by
  constructor
  · intro ⟨m, hrun, hstep⟩
    exact Nat.le_of_not_lt fun hlong => not_inStep_of_long hlong hrun hstep
  · intro hwidth
    obtain ⟨m, hrun, hfor⟩ := generateMasks_spec front tokens hwidth
    exact ⟨m, hrun, hfor.inStep (length_lt_render h hsingle)⟩

/-- `E9 ? ?? 0F`: tokens of every width. -/
def mixedPattern : List Token :=
  [.byte ⟨'E', by decide⟩ ⟨'9', by decide⟩, .wildcard false, .wildcard true, .byte ⟨'0', by decide⟩ ⟨'F', by decide⟩]

theorem generateMasks_inStep_mixed : mixedPattern ≠ [] ∧ mixedPattern ≠ [.wildcard false] ∧
    ∃ m, generateMasks '\x00' (render mixedPattern) = some m ∧ m.InStep (render mixedPattern).length mixedPattern := by
  have h : mixedPattern ≠ [] := by simp [mixedPattern]
  have hsingle : mixedPattern ≠ [.wildcard false] := by simp [mixedPattern]
  exact ⟨h, hsingle, (generateMasks_inStep_iff '\x00' mixedPattern h hsingle).mpr (by simp [mixedPattern])⟩

/-- `2 ^ 32 + 1` times `?`: the last one is written over the first. -/
theorem wrapped_not_inStep :
    ¬ ∃ m, generateMasks '\x00' (render (List.replicate (2 ^ 32 + 1) (.wildcard false))) = some m ∧
      m.InStep (render (List.replicate (2 ^ 32 + 1) (.wildcard false))).length
        (List.replicate (2 ^ 32 + 1) (.wildcard false)) := by
  intro ⟨m, hrun, hstep⟩
  have hlong : 2 ^ 32 < (List.replicate (2 ^ 32 + 1) (Token.wildcard false)).length := by
    rw [List.length_replicate]
    exact Nat.lt_succ_self _
  exact not_inStep_of_long hlong hrun hstep

end Jiaa.Game
