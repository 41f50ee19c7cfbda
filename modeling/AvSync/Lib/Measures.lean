import Mathlib

/-!
# Exact measurements

Facts about numbers of an ordered field that estimators rest on: the error of an offset measured
with four timestamps (`abs_offset_sub_le`), a smoothed average of values of an interval
(`smooth_mem_Ioo`), and rounding with halves away from zero, which is monotone (`roundAway_mono`).
-/

namespace AvSync

namespace Measures

/-- The value of an interval that is closest to `x`. -/
def clamp {α : Type*} [LinearOrder α] (x lo hi : α) : α :=
  if x < lo then lo else if hi < x then hi else x

theorem clamp_mem_Icc {α : Type*} [LinearOrder α] (x : α) {lo hi : α} (h : lo ≤ hi) :
    clamp x lo hi ∈ Set.Icc lo hi := by
  unfold clamp
  split_ifs with h₁ h₂
  · exact ⟨le_rfl, h⟩
  · exact ⟨h, le_rfl⟩
  · exact ⟨not_lt.mp h₁, not_lt.mp h₂⟩

variable {K : Type*} [Field K] [LinearOrder K]

/-- The nearest integer, and of two the one that is farther from zero. -/
def roundAway [FloorRing K] (x : K) : ℤ := if 0 ≤ x then round x else -round (-x)

theorem roundAway_of_nonneg [FloorRing K] {x : K} (h : 0 ≤ x) : roundAway x = round x := if_pos h

variable [IsStrictOrderedRing K]

/-! ## Four timestamps -/

section Exchange

variable {θ t₁ t₂ t₃ t₄ : K}

/-- The round trip is what the two ways take. -/
theorem rtt_nonneg (hout : t₁ + θ ≤ t₂) (hback : t₃ ≤ t₄ + θ) :
    0 ≤ (t₄ - t₁) - (t₃ - t₂) := by
  linarith

/-- A clock that is `θ` ahead is measured with an error of half the round trip at most, however it
is divided between the two ways. -/
theorem abs_offset_sub_le (hout : t₁ + θ ≤ t₂) (hback : t₃ ≤ t₄ + θ) :
    |((t₂ - t₁) + (t₃ - t₄)) / 2 - θ| ≤ ((t₄ - t₁) - (t₃ - t₂)) / 2 := by
  rw [abs_le]
  constructor <;> linarith

end Exchange

/-! ## Smoothing -/

/-- A step from one value of an interval towards another stays within it. -/
theorem smooth_mem_Ioo {a b s p alpha : K} (hs : s ∈ Set.Ioo a b) (hp : p ∈ Set.Ioo a b)
    (halpha : alpha ∈ Set.Icc (0 : K) 1) : s + alpha * (p - s) ∈ Set.Ioo a b := by
  have h := convex_Ioo a b hs hp (sub_nonneg.mpr halpha.2) halpha.1 (sub_add_cancel 1 alpha)
  have heq : (1 - alpha) • s + alpha • p = s + alpha * (p - s) := by
    simp only [smul_eq_mul]
    ring
  exact heq ▸ h

/-! ## Rounding -/

variable [FloorRing K]

theorem round_mono : Monotone (round : K → ℤ) := by
  intro x y h
  rw [round_eq, round_eq]
  exact Int.floor_le_floor (add_le_add_left h _)

theorem roundAway_nonneg {x : K} (h : 0 ≤ x) : 0 ≤ roundAway x := by
  rw [roundAway_of_nonneg h]
  calc (0 : ℤ) = round (0 : K) := round_zero.symm
    _ ≤ round x := round_mono h

theorem roundAway_mono : Monotone (roundAway : K → ℤ) := by
  intro x y h
  by_cases hx : 0 ≤ x
  · rw [roundAway_of_nonneg hx, roundAway_of_nonneg (hx.trans h)]
    exact round_mono h
  have hneg : roundAway x = -round (-x) := if_neg hx
  by_cases hy : 0 ≤ y
  · have hle : (0 : ℤ) ≤ round (-x) := by
      calc (0 : ℤ) = round (0 : K) := round_zero.symm
        _ ≤ round (-x) := round_mono (neg_nonneg.mpr (not_le.mp hx).le)
    have := roundAway_nonneg hy
    omega
  · rw [hneg, show roundAway y = -round (-y) from if_neg hy]
    exact neg_le_neg (round_mono (neg_le_neg h))

end Measures

end AvSync
