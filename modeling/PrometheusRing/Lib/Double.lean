import Mathlib.Algebra.Order.Field.Rat
import Mathlib.Data.Int.Log
import Mathlib.Data.Rat.Floor
import Mathlib.Tactic.Linarith

/-!
# Rounding to double precision

Numbers from zero on are rounded to 53 significant bits, to the nearest and halfway between two to the even one. The
exponent has no bounds, so there is neither overflow nor underflow.
-/

namespace PrometheusRing.Double

/-- The nearest integer, and halfway between two the even one. -/
def nearest (x : ℚ) : ℤ :=
  if x - ⌊x⌋ < 1 / 2 ∨ x - ⌊x⌋ = 1 / 2 ∧ ⌊x⌋ % 2 = 0 then ⌊x⌋ else ⌊x⌋ + 1

/-- What the last of the 53 bits of a number as large as `x` counts. -/
def ulp (x : ℚ) : ℚ := 2 ^ (Int.log 2 x - 52)

def round (x : ℚ) : ℚ := nearest (x / ulp x) * ulp x

variable {x y : ℚ}

/-! ## Integers -/

theorem nearest_intCast (n : ℤ) : nearest n = n := by simp [nearest]

theorem nearest_le (x : ℚ) : nearest x ≤ x + 1 / 2 := by
  have hfloor := Int.floor_le x
  unfold nearest
  split
  case isTrue => linarith
  case isFalse h =>
      rw [not_or] at h
      push_cast
      linarith [not_lt.mp h.1]

theorem le_nearest (x : ℚ) : x - 1 / 2 ≤ nearest x := by
  have hfloor := Int.lt_floor_add_one x
  unfold nearest
  split
  case isTrue h => rcases h with h | h <;> linarith
  case isFalse => push_cast; linarith

theorem nearest_mono (h : x ≤ y) : nearest x ≤ nearest y := by
  by_contra hlt
  have hstep : (nearest y : ℚ) + 1 ≤ nearest x := by exact_mod_cast not_le.mp hlt
  -- both are half a unit away from the same number
  obtain rfl : x = y := by linarith [nearest_le x, le_nearest y]
  linarith

/-! ## Doubles -/

theorem ulp_pos (x : ℚ) : 0 < ulp x := zpow_pos two_pos _

theorem round_zero : round 0 = 0 := by
  simp [round, show nearest 0 = 0 from nearest_intCast 0]

/-- A multiple of the unit below the number stays below it. -/
theorem le_round {k : ℤ} (h : k * ulp x ≤ x) : k * ulp x ≤ round x := by
  have hk : k ≤ nearest (x / ulp x) := by
    rw [← nearest_intCast k]
    exact nearest_mono ((le_div_iff₀ (ulp_pos x)).mpr h)
  exact mul_le_mul_of_nonneg_right (by exact_mod_cast hk) (ulp_pos x).le

theorem round_le {k : ℤ} (h : x ≤ k * ulp x) : round x ≤ k * ulp x := by
  have hk : nearest (x / ulp x) ≤ k := by
    rw [← nearest_intCast k]
    exact nearest_mono ((div_le_iff₀ (ulp_pos x)).mpr h)
  exact mul_le_mul_of_nonneg_right (by exact_mod_cast hk) (ulp_pos x).le

theorem round_nonneg (h : 0 ≤ x) : 0 ≤ round x := by
  simpa using @le_round x 0 (by simpa using h)

theorem pow_eq_ulp (x : ℚ) (k : ℕ) : (2 : ℚ) ^ (Int.log 2 x - 52 + k) = (2 ^ k : ℤ) * ulp x := by
  rw [ulp, zpow_add₀ two_ne_zero, zpow_natCast, mul_comm]
  push_cast
  rfl

/-- Rounding does not pass a power of two. -/
theorem pow_le_round (h : 0 < x) : 2 ^ Int.log 2 x ≤ round x := by
  have hpow := pow_eq_ulp x 52
  rw [Nat.cast_ofNat, sub_add_cancel] at hpow
  rw [hpow]
  exact le_round (hpow ▸ Int.zpow_log_le_self Nat.one_lt_two h)

theorem round_le_pow (x : ℚ) : round x ≤ 2 ^ (Int.log 2 x + 1) := by
  have hpow := pow_eq_ulp x 53
  rw [show Int.log 2 x - 52 + (53 : ℕ) = Int.log 2 x + 1 by push_cast; ring] at hpow
  rw [hpow]
  exact round_le (hpow ▸ (Int.lt_zpow_succ_log_self Nat.one_lt_two x).le)

theorem round_mono (hx : 0 ≤ x) (h : x ≤ y) : round x ≤ round y := by
  rcases hx.eq_or_lt with rfl | hpos
  · rw [round_zero]
    exact round_nonneg h
  · rcases (Int.log_mono_right hpos h : Int.log 2 x ≤ Int.log 2 y).eq_or_lt with he | hlt
    · have hulp : ulp x = ulp y := by rw [ulp, he, ulp]
      have hnearest : nearest (x / ulp y) ≤ nearest (y / ulp y) :=
        nearest_mono (div_le_div_of_nonneg_right h (ulp_pos y).le)
      rw [round, hulp]
      exact mul_le_mul_of_nonneg_right (by exact_mod_cast hnearest) (ulp_pos y).le
    · calc round x ≤ 2 ^ (Int.log 2 x + 1) := round_le_pow x
        _ ≤ 2 ^ Int.log 2 y := zpow_le_zpow_right₀ one_le_two hlt
        _ ≤ round y := pow_le_round (hpos.trans_le h)

end PrometheusRing.Double
