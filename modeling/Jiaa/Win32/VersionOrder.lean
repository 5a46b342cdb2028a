/-
  Jiaa.Win32.VersionOrder — comparing kernel versions (memflow-win32 `kernel/mod.rs`).

  Two versions are compared by their builds if both are known (not 0), and by their major
  and minor numbers otherwise. Each of the two comparisons is an order, but three versions
  may be compared by both.

  - `cmp_eq_iff`, `cmp_swap`: `cmp` is `Equal` where `eq` holds, and reverses;
  - `lawfulOn_iff`: among which versions the comparison is a total order.
-/

import Jiaa.Win32.WindowsVersion
import Mathlib.Data.Set.Insert

namespace Jiaa.Win32.Win32Version

/-- `PartialEq`. -/
def eq (self other : Win32Version) : Bool :=
  if self.ntBuildNumber ≠ 0 ∧ other.ntBuildNumber ≠ 0 then self.ntBuildNumber == other.ntBuildNumber
  else self.ntMajorVersion == other.ntMajorVersion && self.ntMinorVersion == other.ntMinorVersion

/-- `PartialOrd`. -/
def partialCmp (self other : Win32Version) : Option Ordering := some (self.cmp other)

/-- `<=` from `partial_cmp`. -/
def le (self other : Win32Version) : Bool := (self.partialCmp other).any Ordering.isLE

/-- The relations are those of a total order on the versions of `S`. -/
structure LawfulOn (S : Set Win32Version) : Prop where
  cmp_eq : ∀ a ∈ S, ∀ b ∈ S, (a.cmp b = .eq ↔ a.eq b = true)
  eq_trans : ∀ a ∈ S, ∀ b ∈ S, ∀ c ∈ S, a.eq b = true → b.eq c = true → a.eq c = true
  cmp_swap : ∀ a ∈ S, ∀ b ∈ S, b.cmp a = (a.cmp b).swap
  le_trans : ∀ a ∈ S, ∀ b ∈ S, ∀ c ∈ S, a.le b = true → b.le c = true → a.le c = true

/-- By major and minor number. -/
def Before (a b : Win32Version) : Prop :=
  a.ntMajorVersion < b.ntMajorVersion ∨ a.ntMajorVersion = b.ntMajorVersion ∧ a.ntMinorVersion < b.ntMinorVersion

/-- The builds of two versions are in the order of their major and minor numbers. -/
def BuildsAgree (a b : Win32Version) : Prop :=
  (a.ntBuildNumber < b.ntBuildNumber ↔ a.Before b) ∧ (b.ntBuildNumber < a.ntBuildNumber ↔ b.Before a)

/-- Both versions are before `u`, or both after it. -/
def OneSide (u a b : Win32Version) : Prop := u.Before a ∧ u.Before b ∨ a.Before u ∧ b.Before u

theorem eq_iff (a b : Win32Version) : a.eq b = true ↔
    a.ntBuildNumber ≠ 0 ∧ b.ntBuildNumber ≠ 0 ∧ a.ntBuildNumber = b.ntBuildNumber ∨
      (a.ntBuildNumber = 0 ∨ b.ntBuildNumber = 0) ∧ ¬a.Before b ∧ ¬b.Before a := by
  unfold eq Before
  split
  · rw [beq_iff_eq]
    omega
  · rw [Bool.and_eq_true, beq_iff_eq, beq_iff_eq]
    omega

theorem le_iff (a b : Win32Version) : a.le b = true ↔
    a.ntBuildNumber ≠ 0 ∧ b.ntBuildNumber ≠ 0 ∧ a.ntBuildNumber ≤ b.ntBuildNumber ∨
      (a.ntBuildNumber = 0 ∨ b.ntBuildNumber = 0) ∧ ¬b.Before a := by
  unfold le partialCmp cmp Before
  rw [Option.any_some]
  split
  · rw [Nat.isLE_compare]
    omega
  · split
    · rw [Nat.isLE_compare]
      omega
    · split
      · rw [Nat.isLE_compare]
        omega
      · simp only [Ordering.isLE_eq, true_iff]
        omega

theorem cmp_eq_iff (a b : Win32Version) : a.cmp b = .eq ↔ a.eq b = true := by
  unfold cmp eq
  split
  · simp
  · split
    · next h => simp [h]
    · split <;> simp_all

theorem cmp_swap (a b : Win32Version) : b.cmp a = (a.cmp b).swap := by
  unfold cmp
  simp only [and_comm (a := b.ntBuildNumber ≠ 0), ne_comm (a := b.ntMajorVersion), ne_comm (a := b.ntMinorVersion)]
  split
  · exact (Nat.compare_swap ..).symm
  · split
    · exact (Nat.compare_swap ..).symm
    · split
      · exact (Nat.compare_swap ..).symm
      · rfl

/-- A version without a build does not come between two builds against their order. -/
def Fits (u a b : Win32Version) : Prop :=
  u.ntBuildNumber = 0 → a.ntBuildNumber ≠ 0 → b.ntBuildNumber ≠ 0 → u.OneSide a b ∨ a.BuildsAgree b

theorem le_builds {a b : Win32Version} (ha : a.ntBuildNumber ≠ 0) (hb : b.ntBuildNumber ≠ 0) :
    a.le b = true ↔ a.ntBuildNumber ≤ b.ntBuildNumber := by
  simp [le_iff, ha, hb]

theorem le_numbers {a b : Win32Version} (h : a.ntBuildNumber = 0 ∨ b.ntBuildNumber = 0) :
    a.le b = true ↔ ¬b.Before a := by
  rcases h with h | h <;> simp [le_iff, h]

theorem eq_iff_le (a b : Win32Version) : a.eq b = true ↔ a.le b = true ∧ b.le a = true := by
  by_cases h : a.ntBuildNumber = 0 ∨ b.ntBuildNumber = 0
  · rw [le_numbers h, le_numbers h.symm, eq_iff]
    rcases h with h | h <;> simp [h, and_comm]
  · obtain ⟨ha, hb⟩ := not_or.mp h
    rw [le_builds ha hb, le_builds hb ha, eq_iff]
    simp only [ha, hb, ne_eq, not_false_eq_true, true_and, or_self, false_and, or_false]
    omega

theorem not_before_trans {a b c : Win32Version} (hab : ¬b.Before a) (hbc : ¬c.Before b) : ¬c.Before a := by
  unfold Before at *
  omega

theorem Fits.symm {u a b : Win32Version} (h : u.Fits a b) : u.Fits b a := fun hu hb ha =>
  (h hu ha hb).imp (Or.imp And.symm And.symm) And.symm

/-- What a version without a build that fits between two builds says of them. -/
theorem Fits.laws {u a b : Win32Version} (h : u.Fits a b) (hu : u.ntBuildNumber = 0) (ha : a.ntBuildNumber ≠ 0)
    (hb : b.ntBuildNumber ≠ 0) :
    (¬a.Before u → a.ntBuildNumber ≤ b.ntBuildNumber → ¬b.Before u) ∧
      (¬u.Before a → ¬b.Before u → a.ntBuildNumber ≤ b.ntBuildNumber) ∧
      (a.ntBuildNumber ≤ b.ntBuildNumber → ¬u.Before b → ¬u.Before a) := by
  rcases h hu ha hb with hside | hagree
  · unfold OneSide Before at *
    omega
  · have hle : a.ntBuildNumber ≤ b.ntBuildNumber ↔ ¬b.Before a := by rw [← hagree.2, Nat.not_lt]
    rw [hle]
    exact ⟨not_before_trans, not_before_trans, not_before_trans⟩

section Three

variable {a b c : Win32Version}

theorem le_trans_of_fits (ha : a.Fits b c) (hb : b.Fits a c) (hc : c.Fits a b) (hab : a.le b = true)
    (hbc : b.le c = true) : a.le c = true := by
  by_cases ha0 : a.ntBuildNumber = 0
  · rw [le_numbers (.inl ha0)] at hab ⊢
    by_cases hbc0 : b.ntBuildNumber = 0 ∨ c.ntBuildNumber = 0
    · exact not_before_trans hab ((le_numbers hbc0).mp hbc)
    · obtain ⟨hb0, hc0⟩ := not_or.mp hbc0
      exact (ha.laws ha0 hb0 hc0).1 hab ((le_builds hb0 hc0).mp hbc)
  · by_cases hb0 : b.ntBuildNumber = 0
    · rw [le_numbers (.inr hb0)] at hab
      rw [le_numbers (.inl hb0)] at hbc
      by_cases hc0 : c.ntBuildNumber = 0
      · exact (le_numbers (.inr hc0)).mpr (not_before_trans hab hbc)
      · exact (le_builds ha0 hc0).mpr ((hb.laws hb0 ha0 hc0).2.1 hab hbc)
    · rw [le_builds ha0 hb0] at hab
      by_cases hc0 : c.ntBuildNumber = 0
      · rw [le_numbers (.inr hc0)] at hbc ⊢
        exact (hc.laws hc0 ha0 hb0).2.2 hab hbc
      · rw [le_builds hb0 hc0] at hbc
        exact (le_builds ha0 hc0).mpr (hab.trans hbc)

theorem eq_trans_of_fits (ha : a.Fits b c) (hb : b.Fits a c) (hc : c.Fits a b) (hab : a.eq b = true)
    (hbc : b.eq c = true) : a.eq c = true := by
  rw [eq_iff_le] at hab hbc ⊢
  exact ⟨le_trans_of_fits ha hb hc hab.1 hbc.1, le_trans_of_fits hc.symm hb.symm ha.symm hbc.2 hab.2⟩

end Three

/-- The laws between two builds and a version without one, as inequalities. -/
theorem oneSide_or_buildsAgree {u a b : Win32Version}
    (haub : ¬u.Before a → ¬b.Before u → a.ntBuildNumber ≤ b.ntBuildNumber)
    (hbua : ¬u.Before b → ¬a.Before u → b.ntBuildNumber ≤ a.ntBuildNumber)
    (huab : ¬a.Before u → a.ntBuildNumber ≤ b.ntBuildNumber → ¬b.Before u)
    (huba : ¬b.Before u → b.ntBuildNumber ≤ a.ntBuildNumber → ¬a.Before u)
    (habu : a.ntBuildNumber ≤ b.ntBuildNumber → ¬u.Before b → ¬u.Before a)
    (hbau : b.ntBuildNumber ≤ a.ntBuildNumber → ¬u.Before a → ¬u.Before b) : u.OneSide a b ∨ a.BuildsAgree b := by
  by_cases ha : a.Before u
  · by_cases hb : b.Before u
    · exact .inl (.inr ⟨ha, hb⟩)
    · right
      unfold BuildsAgree Before at *
      omega
  · by_cases ha' : u.Before a
    · by_cases hb : u.Before b
      · exact .inl (.inl ⟨ha', hb⟩)
      · right
        unfold BuildsAgree Before at *
        omega
    · right
      unfold BuildsAgree Before at *
      omega

theorem LawfulOn.fits {S : Set Win32Version} (h : LawfulOn S) {u a b : Win32Version} (hu : u ∈ S) (ha : a ∈ S)
    (hb : b ∈ S) : u.Fits a b := by
  intro hu0 ha0 hb0
  have haub := h.le_trans a ha u hu b hb
  have hbua := h.le_trans b hb u hu a ha
  have huab := h.le_trans u hu a ha b hb
  have huba := h.le_trans u hu b hb a ha
  have habu := h.le_trans a ha b hb u hu
  have hbau := h.le_trans b hb a ha u hu
  simp only [le_iff, hu0, ha0, hb0, ne_eq, not_true_eq_false, not_false_eq_true, false_and, true_and, and_false,
    false_or, or_false, or_true] at haub hbua huab huba habu hbau
  exact oneSide_or_buildsAgree haub hbua huab huba habu hbau

theorem lawfulOn_iff (S : Set Win32Version) : LawfulOn S ↔ ∀ u ∈ S, ∀ a ∈ S, ∀ b ∈ S, u.Fits a b := by
  refine ⟨fun h u hu a ha b hb => h.fits hu ha hb, fun h => ⟨?_, ?_, ?_, ?_⟩⟩
  · exact fun a _ b _ => cmp_eq_iff a b
  · exact fun a ha b hb c hc => eq_trans_of_fits (h a ha b hb c hc) (h b hb a ha c hc) (h c hc a ha b hb)
  · exact fun a _ b _ => cmp_swap a b
  · exact fun a ha b hb c hc => le_trans_of_fits (h a ha b hb c hc) (h b hb a ha c hc) (h c hc a ha b hb)

/-- Windows 10 with two builds, compared through the version without one. -/
theorem build_order_lost : ¬LawfulOn {⟨10, 0, 19041⟩, ⟨10, 0, 0⟩, ⟨10, 0, 10240⟩} := by
  intro h
  have hlost := h.le_trans ⟨10, 0, 19041⟩ (by simp) ⟨10, 0, 0⟩ (by simp) ⟨10, 0, 10240⟩ (by simp) (by decide)
    (by decide)
  exact absurd hlost (by decide)

end Jiaa.Win32.Win32Version
