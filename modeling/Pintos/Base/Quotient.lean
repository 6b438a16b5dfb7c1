/-
  Quotients: an estimate from below the divisor, and remainders as distances.

  1. **Estimate and correct** — dividing by `D ≤ d` instead of `d` gives a quotient that is too large,
     by at most ONE when `d - D` is small against `D` (`div_le_div_add_one`).  One test on the
     remainder then finds the quotient (`div_of_estimate`).

  2. **Splitting the dividend** (`div_split`) — the long division of a number of two digits.

  3. **Remainders** — `n` is less than `m` away from a multiple of `d` exactly when its remainder is
     below `m` (`exists_multiple_iff`, and for integers `exists_multiple_below` and
     `exists_multiple_above`).
-/
import Mathlib.Algebra.Order.Ring.Int
import Mathlib.Tactic.Ring

namespace Pintos.Base

section Natural

variable {n d q D e b hi lo : Nat}

/-- **The estimate is at most one too large.** -/
theorem div_le_div_add_one (hD : 0 < D) (he : e * (n / (D + e) + 1) ≤ D) :
    n / D ≤ n / (D + e) + 1 := by
  have hlt : n < (D + e) * (n / (D + e) + 1) := Nat.lt_mul_div_succ n (by omega)
  have hnum : n < (n / (D + e) + 2) * D := by
    calc n < (D + e) * (n / (D + e) + 1) := hlt
      _ = D * (n / (D + e) + 1) + e * (n / (D + e) + 1) := by ring
      _ ≤ D * (n / (D + e) + 1) + D := Nat.add_le_add_left he _
      _ = (n / (D + e) + 2) * D := by ring
  have hdiv : n / D < n / (D + e) + 2 := (Nat.div_lt_iff_lt_mul hD).mpr hnum
  omega

/-- **One test corrects it**: the remainder left by `q - 1` is below `d` when `q` is too large. -/
theorem div_of_estimate (hd : 0 < d) (hlo : n / d ≤ q) (hhi : q ≤ n / d + 1) (hq : 0 < q) :
    (if n - (q - 1) * d < d then q - 1 else q) = n / d := by
  have hmod := Nat.div_add_mod n d
  have hrem := Nat.mod_lt n hd
  rcases lt_or_eq_of_le hlo with hgt | heq
  · have hq1 : q - 1 = n / d := by omega
    have hleft : n - n / d * d = n % d := by rw [mul_comm]; omega
    rw [hq1, hleft, if_pos hrem]
  · have hleft : (q - 1) * d + d = n / d * d := by
      rw [heq, ← Nat.succ_mul, Nat.succ_eq_add_one, Nat.sub_add_cancel hq]
    rw [mul_comm d] at hmod
    rw [if_neg (by omega), heq]

/-- The multiple of `d` that the test subtracts is not above `n`. -/
theorem pred_mul_le (hhi : q ≤ n / d + 1) : (q - 1) * d ≤ n := by
  calc (q - 1) * d ≤ n / d * d := Nat.mul_le_mul_right d (Nat.sub_le_iff_le_add.mpr hhi)
    _ ≤ n := Nat.div_mul_le_self n d

/-- **Splitting the dividend**: the digit `hi` is divided, and its remainder goes before `lo`. -/
theorem div_split (hd : 0 < d) : (b * hi + lo) / d = b * (hi / d) + (b * (hi % d) + lo) / d := by
  have hsplit : b * hi + lo = b * (hi % d) + lo + d * (b * (hi / d)) := by
    calc b * hi + lo = b * (d * (hi / d) + hi % d) + lo := by rw [Nat.div_add_mod]
      _ = b * (hi % d) + lo + d * (b * (hi / d)) := by ring
  rw [hsplit, Nat.add_mul_div_left _ _ hd, add_comm]

/-- The quotient of the remainder before a digit is a digit. -/
theorem div_split_lt (hd : 0 < d) (hlo : lo < b) : (b * (hi % d) + lo) / d < b := by
  rw [Nat.div_lt_iff_lt_mul hd]
  have hrem : hi % d + 1 ≤ d := Nat.mod_lt hi hd
  calc b * (hi % d) + lo < b * (hi % d) + b := by omega
    _ = b * (hi % d + 1) := by ring
    _ ≤ b * d := Nat.mul_le_mul_left b hrem

theorem exists_multiple_iff {m : Nat} : (∃ k, k * d ≤ n ∧ n < k * d + m) ↔ n % d < m := by
  constructor
  · rintro ⟨k, hle, hlt⟩
    -- the remainder is that of the distance, and so not above it
    rw [mul_comm] at hle hlt
    have hmod : (n - d * k) % d = n % d := Nat.sub_mul_mod hle
    have hdist : (n - d * k) % d ≤ n - d * k := Nat.mod_le _ d
    omega
  · intro hlt
    have hdm := Nat.div_add_mod n d
    rw [mul_comm] at hdm
    exact ⟨n / d, by omega, by omega⟩

end Natural

section Distance

variable {n d m : Int}

/-- A remainder is not above what it is a remainder of. -/
theorem emod_le_of_nonneg (hn : 0 ≤ n) : n % d ≤ n := by
  obtain ⟨a, rfl⟩ := Int.eq_ofNat_of_zero_le hn
  have habs : (a : Int) % d = (a : Int) % (d.natAbs : Int) := by
    rcases Int.natAbs_eq d with h | h
    · rw [← h]
    · rw [h, Int.emod_neg, Int.natAbs_neg, Int.natAbs_natCast]
  rw [habs]
  exact_mod_cast Nat.mod_le a d.natAbs

/-- **Above a multiple**: `n` is less than `m` above a multiple of `d`. -/
theorem exists_multiple_below (hd : d ≠ 0) : (∃ k, k * d ≤ n ∧ n < k * d + m) ↔ n % d < m := by
  constructor
  · rintro ⟨k, hle, hlt⟩
    have hmod : (n - k * d) % d = n % d := Int.sub_mul_emod_self_right n k d
    have hdist : (n - k * d) % d ≤ n - k * d := emod_le_of_nonneg (by omega)
    omega
  · intro hlt
    have hdm := Int.mul_ediv_add_emod n d
    have h0 := Int.emod_nonneg n hd
    rw [mul_comm] at hdm
    exact ⟨n / d, by omega, by omega⟩

/-- **Below a multiple**, which is above one after a change of sign. -/
theorem exists_multiple_above (hd : d ≠ 0) : (∃ k, n ≤ k * d ∧ k * d ≤ n + m) ↔ (-n) % d ≤ m := by
  have hiff := exists_multiple_below (n := -n) (m := m + 1) hd
  rw [Int.lt_add_one_iff] at hiff
  rw [← hiff]
  constructor
  · rintro ⟨k, hle, hlt⟩
    refine ⟨-k, ?_, ?_⟩
    all_goals rw [Int.neg_mul]; omega
  · rintro ⟨k, hle, hlt⟩
    refine ⟨-k, ?_, ?_⟩
    all_goals rw [Int.neg_mul]; omega

end Distance

end Pintos.Base
