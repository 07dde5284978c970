import PrometheusRing.Lib.Double

/-!
# The load of a node

The load is a percentage that is computed in double precision and cut off. The results about loads, in
`Ring.Theorems.Capacity`, need little of this: they hold of every reading that grows with the number of targets, and their
runs on fixed keys are those of the exact percentage. Everything else is about the load as it is computed.
-/

namespace PrometheusRing

/-- How `int(count / capacity * 100)` comes out. -/
class Percentage where
  percent (count : Nat) (capacity : Int) : Int
  percent_zero (capacity : Int) : percent 0 capacity = 0
  percent_mono {capacity : Int} (h : 0 < capacity) {count count' : Nat} (hle : count ≤ count') :
    percent count capacity ≤ percent count' capacity

namespace Percentage

/-- The quotient and its product with 100 are rounded, as in the code. -/
instance double : Percentage where
  percent count capacity := capacity.sign * ⌊Double.round (Double.round (count / capacity.natAbs) * 100)⌋
  percent_zero capacity := by simp [Double.round_zero]
  percent_mono {capacity} h count count' hle := by
    have hquotient : (count / capacity.natAbs : ℚ) ≤ count' / capacity.natAbs :=
      div_le_div_of_nonneg_right (by exact_mod_cast hle) (by positivity)
    have hrounded := Double.round_mono (by positivity) hquotient
    have hnonneg : 0 ≤ Double.round (count / capacity.natAbs) * 100 :=
      mul_nonneg (Double.round_nonneg (by positivity)) (by norm_num)
    simp only [Int.sign_eq_one_of_pos h, one_mul]
    exact Int.floor_le_floor (Double.round_mono hnonneg (mul_le_mul_of_nonneg_right hrounded (by norm_num)))

/-- Nothing is rounded but the result. -/
abbrev exact : Percentage where
  percent count capacity := (count * 100 : Int).tdiv capacity
  percent_zero capacity := by simp
  percent_mono {capacity} h count count' hle := by
    rw [Int.tdiv_eq_ediv_of_nonneg (by omega), Int.tdiv_eq_ediv_of_nonneg (by omega)]
    exact Int.ediv_le_ediv h (by omega)

/-- 29 of 50 are 58 per cent, but the quotient is rounded down. -/
example : double.percent 29 50 = 57 ∧ exact.percent 29 50 = 58 := by decide +kernel

end Percentage

end PrometheusRing
