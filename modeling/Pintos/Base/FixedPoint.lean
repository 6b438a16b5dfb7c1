/-
  Fixed-point arithmetic with truncation.

  A number `x` stands for `x / one`.  Products and quotients are computed exactly and then truncated
  TOWARDS ZERO, as integer division in C does, so the truncation error never adds to an absolute value.

  The decay `r ↦ c · r` with `c = x / (x + 1)` is what an exponential average is made of.  For `x ≤ m`
  the factor is at most `m / (m + 1)` (`ratio_le`), and so it takes numbers below `(m + 1) R` to numbers
  below `m R`, on both sides of zero (`mul_le_of_ratio`, `le_mul_of_ratio`).
-/
import Mathlib.Algebra.Order.Ring.Int
import Mathlib.Tactic.Ring

namespace Pintos.Base.Fixed

variable {one x m c r R : Int}

/-- The product of two fixed-point numbers. -/
def mul (one x y : Int) : Int := (x * y).tdiv one

/-- The quotient of two fixed-point numbers. -/
def div (one x y : Int) : Int := (x * one).tdiv y

theorem mul_neg (one c r : Int) : mul one c (-r) = -mul one c r := by
  rw [mul, mul, Int.mul_neg, Int.neg_tdiv]

variable (h1 : 0 < one)
include h1

theorem mul_nonneg (hc : 0 ≤ c) (hr : 0 ≤ r) : 0 ≤ mul one c r :=
  Int.tdiv_nonneg (Int.mul_nonneg hc hr) (le_of_lt h1)

/-- **The factor** `x / (x + 1)`, multiplied out. -/
theorem ratio_le (h0 : 0 ≤ x) (hx : x ≤ m * one) :
    0 ≤ div one x (x + one) ∧ div one x (x + one) * (m + 1) ≤ m * one := by
  have hpos : 0 < x + one := by omega
  have hnum : 0 ≤ x * one := Int.mul_nonneg h0 (le_of_lt h1)
  have hdef : div one x (x + one) = x * one / (x + one) := Int.tdiv_eq_ediv_of_nonneg hnum
  have hc0 : 0 ≤ x * one / (x + one) := Int.ediv_nonneg hnum (le_of_lt hpos)
  have hc : x * one / (x + one) * (x + one) ≤ x * one := Int.ediv_mul_le _ (ne_of_gt hpos)
  rw [hdef]
  refine ⟨hc0, ?_⟩
  have hm : 0 ≤ m := by
    by_contra hneg
    have : m * one < 0 := Int.mul_neg_of_neg_of_pos (by omega) h1
    omega
  -- both sides times the denominator
  have hstep : x * one / (x + one) * (m + 1) * (x + one) ≤ m * one * (x + one) := by
    calc x * one / (x + one) * (m + 1) * (x + one)
        = x * one / (x + one) * (x + one) * (m + 1) := by ring
      _ ≤ x * one * (m + 1) := Int.mul_le_mul_of_nonneg_right hc (by omega)
      _ = m * one * x + one * x := by ring
      _ ≤ m * one * x + one * (m * one) := by
          have := Int.mul_le_mul_of_nonneg_left hx (le_of_lt h1)
          omega
      _ = m * one * (x + one) := by ring
  exact Int.le_of_mul_le_mul_right hstep hpos

/-- **A decay takes numbers below `(m + 1) R` below `m R`.** -/
theorem mul_le_of_ratio (hm : 0 ≤ m) (hc0 : 0 ≤ c) (hc : c * (m + 1) ≤ m * one)
    (hR : 0 ≤ R) (hr : r ≤ (m + 1) * R) : mul one c r ≤ m * R := by
  by_cases h0 : 0 ≤ r
  · have hdef : mul one c r = c * r / one := Int.tdiv_eq_ediv_of_nonneg (Int.mul_nonneg hc0 h0)
    rw [hdef]
    have hq : c * r / one * one ≤ c * r := Int.ediv_mul_le _ (ne_of_gt h1)
    have hstep : c * r / one * (one * (m + 1)) ≤ m * R * (one * (m + 1)) := by
      calc c * r / one * (one * (m + 1)) = c * r / one * one * (m + 1) := by ring
        _ ≤ c * r * (m + 1) := Int.mul_le_mul_of_nonneg_right hq (by omega)
        _ = c * (m + 1) * r := by ring
        _ ≤ m * one * r := Int.mul_le_mul_of_nonneg_right hc h0
        _ ≤ m * one * ((m + 1) * R) :=
            Int.mul_le_mul_of_nonneg_left hr (Int.mul_nonneg hm (le_of_lt h1))
        _ = m * R * (one * (m + 1)) := by ring
    exact Int.le_of_mul_le_mul_right hstep (Int.mul_pos h1 (by omega))
  · -- towards zero: a negative number stays below zero
    have hneg := mul_nonneg h1 hc0 (show 0 ≤ -r by omega)
    rw [mul_neg] at hneg
    have := Int.mul_nonneg hm hR
    omega

theorem le_mul_of_ratio (hm : 0 ≤ m) (hc0 : 0 ≤ c) (hc : c * (m + 1) ≤ m * one)
    (hR : 0 ≤ R) (hr : -((m + 1) * R) ≤ r) : -(m * R) ≤ mul one c r := by
  have h := mul_le_of_ratio h1 hm hc0 hc hR (show -r ≤ (m + 1) * R by omega)
  rw [mul_neg] at h
  omega

end Pintos.Base.Fixed
