/-
  Jiaa.Lib.Bits — bit bands and power-of-two pages over the naturals.

  A band is the set of bits `lo ≤ i < hi`, as the mask `2 ^ hi - 2 ^ lo`. Masking a
  number with a band keeps a quotient of a remainder (`and_band`); joining two numbers
  with `|||` is adding them and taking the bits they share away (`or_add_and`).
  A page of size `s` is the set of numbers with one quotient by `s`.
-/

import Mathlib.Data.Nat.Bitwise

namespace Jiaa.Lib.Bits

theorem testBit_band {lo hi : Nat} (h : lo ≤ hi) (i : Nat) :
    (2 ^ hi - 2 ^ lo).testBit i = (decide (i < hi) && !decide (i < lo)) := by
  have hp : 0 < 2 ^ lo := Nat.two_pow_pos lo
  have hle : 2 ^ lo ≤ 2 ^ hi := Nat.pow_le_pow_right (by omega) h
  have hs : 2 ^ hi - 2 ^ lo = 2 ^ hi - ((2 ^ lo - 1) + 1) := by omega
  rw [hs, Nat.testBit_two_pow_sub_succ (by omega), Nat.testBit_two_pow_sub_one]

/-- Masking with the band of the bits `lo` to `hi - 1`. -/
theorem and_band {lo hi : Nat} (h : lo ≤ hi) (x : Nat) :
    x &&& (2 ^ hi - 2 ^ lo) = x % 2 ^ hi / 2 ^ lo * 2 ^ lo := by
  apply Nat.eq_of_testBit_eq
  intro i
  rw [Nat.testBit_and, testBit_band h, Nat.testBit_mul_two_pow, Nat.testBit_div_two_pow, Nat.testBit_mod_two_pow]
  by_cases hl : i < lo
  · simp [hl, Nat.not_le.mpr hl]
  · have e : i - lo + lo = i := by omega
    simp [hl, Nat.not_lt.mp hl, e, Bool.and_comm]

theorem and_lowBand (x hi : Nat) : x &&& (2 ^ hi - 1) = x % 2 ^ hi := by simp

theorem or_add_and (a b : Nat) : (a ||| b) + (a &&& b) = a + b := by
  induction a using Nat.strongRecOn generalizing b with
  | ind a ih =>
    by_cases h0 : a = 0
    · subst h0; simp
    have hd := ih (a / 2) (by omega) (b / 2)
    have ho : (a ||| b) = 2 * ((a / 2) ||| (b / 2)) + ((a ||| b) % 2) := by
      have := Nat.div_add_mod (a ||| b) 2
      rw [Nat.or_div_two] at this; omega
    have hn : (a &&& b) = 2 * ((a / 2) &&& (b / 2)) + ((a &&& b) % 2) := by
      have := Nat.div_add_mod (a &&& b) 2
      rw [Nat.and_div_two] at this; omega
    have hom : (a ||| b) % 2 + (a &&& b) % 2 = a % 2 + b % 2 := by
      have h1 := Nat.or_mod_two_pow (a := a) (b := b) (n := 1)
      have h2 := Nat.and_mod_two_pow (a := a) (b := b) (n := 1)
      simp only [Nat.pow_one] at h1 h2
      rw [h1, h2]
      rcases Nat.mod_two_eq_zero_or_one a with ha | ha <;> rcases Nat.mod_two_eq_zero_or_one b with hb | hb <;>
        simp [ha, hb]
    omega

/-- Numbers of one page differ by less than the page size. -/
theorem lt_add_of_div_eq {s v w : Nat} (hs : 0 < s) (h : v / s = w / s) : w < v + s := by
  have h1 := Nat.div_add_mod v s
  have h2 := Nat.div_add_mod w s
  have h3 := Nat.mod_lt w hs
  rw [h] at h1
  omega

/-- A page of a multiple of `s` is a union of pages of `s`. -/
theorem div_eq_of_dvd {s t v w : Nat} (hd : s ∣ t) (h : v / s = w / s) : v / t = w / t := by
  obtain ⟨c, rfl⟩ := hd
  rw [← Nat.div_div_eq_div_mul, ← Nat.div_div_eq_div_mul, h]

/-- Bits above a page boundary depend on the page only. -/
theorem sub_mod_eq_div_mul (v s : Nat) : v - v % s = v / s * s := by
  have h1 := Nat.div_add_mod v s
  rw [Nat.mul_comm] at h1
  omega

end Jiaa.Lib.Bits
