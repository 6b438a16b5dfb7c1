/-
  64-bit division on a 32-bit machine (lib/arithmetic.c).

  All of it rests on the instruction `divl`, which divides 64 bits by 32 and TRAPS when the quotient
  does not fit into 32 bits.

  1. **Division** — `udiv64` divides in two steps when the divisor is short.  For a long divisor it
     shifts the divisor up (`nlz`), divides by its upper half, and corrects the estimate, which is the
     quotient or one more; so no `divl` traps (`udiv64_eq`).  `sdiv64` divides absolute values.

  2. **Remainder** — `umod64` and `smod64` compute the remainder with 64 bits and RETURN 32 of them.
     A remainder that needs more comes back cut off (`umoddi3_eq`, `moddi3_eq`).
-/
import Pintos.Base.Stops
import Pintos.Base.Quotient
import Mathlib.Tactic.IntervalCases

namespace Pintos.Lib.Arithmetic

open Base Int

/-! ## The source -/

/-- The divide error `#DE`. -/
inductive Trap where
  | divideError
  deriving DecidableEq

/-- `divl`: the halves of `n` go to `edx` and `eax`, the quotient comes back in `eax`. -/
def divl (n : BitVec 64) (d : BitVec 32) : Except Trap (BitVec 32) :=
  if d = 0#32 then .error .divideError
  else if n.toNat / d.toNat < 4294967296 then .ok (BitVec.ofNat 32 (n.toNat / d.toNat))
  else .error .divideError

/-- A test of `nlz`: when `x` is at most `bound`, `k` more zeros are counted and shifted out. -/
def nlzTest (bound : BitVec 32) (k : Nat) (nx : Nat × BitVec 32) : Nat × BitVec 32 :=
  if nx.2 ≤ bound then (nx.1 + k, nx.2 <<< k) else nx

/-- `nlz`: the leading zeros of a word that is not zero.  The last test shifts nothing. -/
def nlz (x : BitVec 32) : Nat :=
  let nx := nlzTest 0x0000FFFF#32 16 (0, x)
  let nx := nlzTest 0x00FFFFFF#32 8 nx
  let nx := nlzTest 0x0FFFFFFF#32 4 nx
  let nx := nlzTest 0x3FFFFFFF#32 2 nx
  if nx.2 ≤ 0x7FFFFFFF#32 then nx.1 + 1 else nx.1

def udiv64 (n d : BitVec 64) : Except Trap (BitVec 64) :=
  if d >>> 32 = 0#64 then do
    let b := 1#64 <<< 32
    let n1 := (n >>> 32).setWidth 32
    let n0 := n.setWidth 32
    let d0 := d.setWidth 32
    let q ← divl (b * (n1 % d0).setWidth 64 + n0.setWidth 64) d0
    return q.setWidth 64 + b * (n1 / d0).setWidth 64
  else if n < d then
    return 0#64
  else do
    let d1 := (d >>> 32).setWidth 32
    let s := nlz d1
    let q ← divl (n >>> 1) (((d <<< s) >>> 32).setWidth 32)
    let q := (q >>> (31 - s)).setWidth 64
    return if n - (q - 1#64) * d < d then q - 1#64 else q

/-- `umod64`: the result is an `uint32_t`. -/
def umod64 (n d : BitVec 64) : Except Trap (BitVec 32) := do
  let q ← udiv64 n d
  return (n - d * q).setWidth 32

/-- The absolute value of a signed word, as an unsigned one: `x >= 0 ? x : -x`. -/
def absolute (x : BitVec 64) : BitVec 64 := if 0 ≤ x.toInt then x else -x

/-- `sdiv64`.  The negation is that of the machine, on which the least integer is its own negative. -/
def sdiv64 (n d : BitVec 64) : Except Trap (BitVec 64) := do
  let qAbs ← udiv64 (absolute n) (absolute d)
  return if decide (n.toInt < 0) = decide (d.toInt < 0) then qAbs else -qAbs

/-- `smod64`: the result is an `int32_t`. -/
def smod64 (n d : BitVec 64) : Except Trap (BitVec 32) := do
  let q ← sdiv64 n d
  return (n - d * q).setWidth 32

def divdi3 (n d : BitVec 64) : Except Trap (BitVec 64) := sdiv64 n d

/-- `__moddi3`: the `int32_t` is extended by its sign. -/
def moddi3 (n d : BitVec 64) : Except Trap (BitVec 64) := do
  let r ← smod64 n d
  return r.signExtend 64

def udivdi3 (n d : BitVec 64) : Except Trap (BitVec 64) := udiv64 n d

/-- `__umoddi3`: the `uint32_t` is extended by zeros. -/
def umoddi3 (n d : BitVec 64) : Except Trap (BitVec 64) := do
  let r ← umod64 n d
  return r.setWidth 64

/-! ## `nlz` -/

/-- What the tests have found out: `x` is `x₀` shifted up by what was counted, nothing is lost,
    and at most `32 - lo` zeros are left. -/
structure Counted (x₀ : BitVec 32) (lo : Nat) (nx : Nat × BitVec 32) : Prop where
  shifted : nx.2.toNat = x₀.toNat * 2 ^ nx.1
  least : 2 ^ lo ≤ nx.2.toNat

variable {x0 : BitVec 32} {nx : Nat × BitVec 32}

/-- One test halves the zeros that may be left. -/
theorem Counted.test (bound : BitVec 32) (k : Nat)
    (hk : 2 * k ≤ 32) (hb : bound.toNat + 1 = 2 ^ (32 - k)) (h : Counted x0 (32 - 2 * k) nx) :
    Counted x0 (32 - k) (nlzTest bound k nx) := by
  unfold nlzTest
  split
  next hle =>
    have hle : nx.2.toNat ≤ bound.toNat := hle
    -- the shift loses nothing, since the word is below `2 ^ (32 - k)`
    have hfit : nx.2.toNat * 2 ^ k < 2 ^ 32 := by
      calc nx.2.toNat * 2 ^ k < 2 ^ (32 - k) * 2 ^ k :=
            Nat.mul_lt_mul_of_pos_right (by omega) (Nat.two_pow_pos k)
        _ = 2 ^ 32 := by rw [← Nat.pow_add, Nat.sub_add_cancel (by omega)]
    have hshift : (nx.2 <<< k).toNat = nx.2.toNat * 2 ^ k := by
      rw [BitVec.toNat_shiftLeft, Nat.shiftLeft_eq, Nat.mod_eq_of_lt hfit]
    refine ⟨?_, ?_⟩
    · rw [hshift, h.shifted, Nat.pow_add, mul_assoc]
    · rw [hshift]
      calc 2 ^ (32 - k) = 2 ^ (32 - 2 * k) * 2 ^ k := by rw [← Nat.pow_add]; congr 1; omega
        _ ≤ nx.2.toNat * 2 ^ k := Nat.mul_le_mul_right _ h.least
  next hgt =>
    have hgt : ¬ nx.2.toNat ≤ bound.toNat := hgt
    exact ⟨h.shifted, by omega⟩

/-- The last test, which shifts nothing. -/
theorem Counted.last (h : Counted x0 30 nx) {s : Nat}
    (hs : s = if nx.2 ≤ 0x7FFFFFFF#32 then nx.1 + 1 else nx.1) :
    2147483648 ≤ x0.toNat * 2 ^ s ∧ x0.toNat * 2 ^ s < 4294967296 := by
  have hlow : 1073741824 ≤ nx.2.toNat := h.least
  subst hs
  split
  next hle =>
    have hle : nx.2.toNat ≤ 2147483647 := hle
    rw [pow_succ, ← mul_assoc, ← h.shifted]
    omega
  next hgt =>
    have hgt : ¬ nx.2.toNat ≤ 2147483647 := hgt
    rw [← h.shifted]
    omega

variable {x : BitVec 32}

/-- **`nlz`** shifts the highest one of the word to the top. -/
theorem nlz_spec (hx : 0 < x.toNat) :
    2147483648 ≤ x.toNat * 2 ^ nlz x ∧ x.toNat * 2 ^ nlz x < 4294967296 := by
  have h0 : Counted x (32 - 2 * 16) (0, x) := ⟨by simp, hx⟩
  have h1 := h0.test 0x0000FFFF#32 16 (by decide) rfl
  have h2 := Counted.test 0x00FFFFFF#32 8 (by decide) rfl h1
  have h3 := Counted.test 0x0FFFFFFF#32 4 (by decide) rfl h2
  have h4 := Counted.test 0x3FFFFFFF#32 2 (by decide) rfl h3
  exact h4.last rfl

theorem nlz_lt (hx : 0 < x.toNat) : nlz x < 32 := by
  have hle : 2 ^ nlz x ≤ x.toNat * 2 ^ nlz x := Nat.le_mul_of_pos_left _ hx
  have hlt : 2 ^ nlz x < 2 ^ 32 := lt_of_le_of_lt hle (nlz_spec hx).2
  exact (Nat.pow_lt_pow_iff_right (by decide)).mp hlt

/-! ## The instruction -/

theorem divl_eq {n : BitVec 64} {d : BitVec 32} (hd : 0 < d.toNat)
    (hq : n.toNat / d.toNat < 4294967296) :
    divl n d = .ok (BitVec.ofNat 32 (n.toNat / d.toNat)) := by
  have hne : d ≠ 0#32 := by
    rintro rfl
    exact lt_irrefl 0 hd
  rw [divl, if_neg hne, if_pos hq]

/-! ## A short divisor -/

theorem toNat_widen (x : BitVec 32) : (x.setWidth 64).toNat = x.toNat := by
  rw [BitVec.toNat_setWidth]
  omega

theorem toNat_high (x : BitVec 64) : ((x >>> 32).setWidth 32).toNat = x.toNat / 4294967296 := by
  rw [BitVec.toNat_setWidth, BitVec.toNat_ushiftRight, Nat.shiftRight_eq_div_pow]
  omega

theorem toNat_low (x : BitVec 64) : (x.setWidth 32).toNat = x.toNat % 4294967296 :=
  BitVec.toNat_setWidth 32 x

theorem toNat_digits (hi lo : BitVec 32) :
    (1#64 <<< 32 * hi.setWidth 64 + lo.setWidth 64).toNat = 4294967296 * hi.toNat + lo.toNat := by
  have hb : (1#64 <<< 32).toNat = 4294967296 := rfl
  rw [BitVec.toNat_add, BitVec.toNat_mul, hb, toNat_widen, toNat_widen]
  omega

variable {n d : BitVec 64}

/-- **A short divisor**: the upper digit is divided first, and neither division traps. -/
theorem udiv64_short (hd : 0 < d.toNat) (hshort : d.toNat < 4294967296) :
    udiv64 n d = .ok (BitVec.ofNat 64 (n.toNat / d.toNat)) := by
  have hhigh : d >>> 32 = 0#64 := by
    apply BitVec.eq_of_toNat_eq
    rw [BitVec.toNat_ushiftRight, Nat.shiftRight_eq_div_pow]
    exact Nat.div_eq_of_lt hshort
  have hd0 : (d.setWidth 32).toNat = d.toNat := by
    rw [toNat_low]
    exact Nat.mod_eq_of_lt hshort
  have hrem : ((n >>> 32).setWidth 32 % d.setWidth 32).toNat = n.toNat / 4294967296 % d.toNat := by
    rw [BitVec.toNat_umod, toNat_high, hd0]
  have hquo : ((n >>> 32).setWidth 32 / d.setWidth 32).toNat = n.toNat / 4294967296 / d.toNat := by
    rw [BitVec.toNat_udiv, toNat_high, hd0]
  -- the dividend of the second division, whose quotient is a digit
  have hnum := toNat_digits ((n >>> 32).setWidth 32 % d.setWidth 32) (n.setWidth 32)
  have hfit : (4294967296 * (n.toNat / 4294967296 % d.toNat) + n.toNat % 4294967296) / d.toNat
      < 4294967296 := div_split_lt hd (Nat.mod_lt n.toNat (by decide))
  rw [hrem, toNat_low] at hnum
  have hdivl := divl_eq (d := d.setWidth 32) (n := 1#64 <<< 32 *
    ((n >>> 32).setWidth 32 % d.setWidth 32).setWidth 64 + (n.setWidth 32).setWidth 64)
    (by rwa [hd0]) (by rwa [hnum, hd0])
  rw [hnum, hd0] at hdivl
  have hres := toNat_digits ((n >>> 32).setWidth 32 / d.setWidth 32) (BitVec.ofNat 32
    ((4294967296 * (n.toNat / 4294967296 % d.toNat) + n.toNat % 4294967296) / d.toNat))
  rw [hquo, BitVec.toNat_ofNat, Nat.mod_eq_of_lt hfit, ← div_split hd, Nat.div_add_mod] at hres
  rw [udiv64, if_pos hhigh]
  simp only [hdivl, ok_bind]
  show Except.ok _ = Except.ok _
  rw [BitVec.add_comm, ← hres, BitVec.ofNat_toNat, BitVec.setWidth_eq]

/-! ## A long divisor -/

section Long

/-!
  `x = 2 ^ (32 - s)` is the weight of the lowest bit of `d` that survives in the upper half of `d << s`.
  That half is `d / x`, between `2 ^ 31` and `2 ^ 32`, and the estimate is `n / (d / x * x)`.
-/

variable {n d s : Nat}

/-- The upper half of a divisor shifted to the top. -/
theorem normalised (hs : s < 32) (hlo : 2147483648 ≤ d / 4294967296 * 2 ^ s)
    (hhi : d / 4294967296 * 2 ^ s < 4294967296) :
    2147483648 ≤ d / 2 ^ (32 - s) ∧ d * 2 ^ s < 18446744073709551616 := by
  have hx : 2 ^ (32 - s) * 2 ^ s = 4294967296 := by
    rw [← Nat.pow_add, Nat.sub_add_cancel (by omega)]
  have hpos : 0 < 2 ^ s := Nat.two_pow_pos s
  constructor
  · rw [Nat.le_div_iff_mul_le (Nat.two_pow_pos _)]
    calc 2147483648 * 2 ^ (32 - s) ≤ d / 4294967296 * 2 ^ s * 2 ^ (32 - s) :=
          Nat.mul_le_mul_right _ hlo
      _ = d / 4294967296 * 4294967296 := by rw [mul_assoc, mul_comm (2 ^ s), hx]
      _ ≤ d := Nat.div_mul_le_self d _
  · -- both sides of `hhi` are multiples of `2 ^ s`
    have hdig : d / 4294967296 + 1 ≤ 2 ^ (32 - s) := by
      have hmul : d / 4294967296 * 2 ^ s < 2 ^ (32 - s) * 2 ^ s := by rwa [hx]
      exact Nat.lt_of_mul_lt_mul_right hmul
    calc d * 2 ^ s < (d / 4294967296 + 1) * 4294967296 * 2 ^ s :=
          Nat.mul_lt_mul_of_pos_right (by omega) hpos
      _ ≤ 2 ^ (32 - s) * 4294967296 * 2 ^ s := Nat.mul_le_mul_right _ (Nat.mul_le_mul_right _ hdig)
      _ = 2 ^ (32 - s) * 2 ^ s * 4294967296 := by ring
      _ = 18446744073709551616 := by rw [hx]

/-- **The estimate** is the quotient, or one more. -/
theorem estimate_bounds (hn : n < 18446744073709551616) (hs : s < 32)
    (hv : 2147483648 ≤ d / 2 ^ (32 - s)) :
    n / d ≤ n / (d / 2 ^ (32 - s) * 2 ^ (32 - s)) ∧
      n / (d / 2 ^ (32 - s) * 2 ^ (32 - s)) ≤ n / d + 1 := by
  obtain ⟨x, hx⟩ : ∃ x, 2 ^ (32 - s) = x := ⟨_, rfl⟩
  have hxpos : 0 < x := hx ▸ Nat.two_pow_pos _
  have hdvd : x ∣ 8589934592 := by
    rw [← hx, show 8589934592 = 2 ^ 33 from rfl]
    exact Nat.pow_dvd_pow 2 (by omega)
  rw [hx] at hv ⊢
  have hD : 2147483648 * x ≤ d / x * x := Nat.mul_le_mul_right x hv
  have hdm : d / x * x + d % x = d := by rw [mul_comm, Nat.div_add_mod]
  have hrem := Nat.mod_lt d hxpos
  refine ⟨Nat.div_le_div_left (by omega) (by omega), ?_⟩
  -- what is left out of the divisor, times the quotient, is not above the rest of the divisor
  have hq : x * (n / d + 1) ≤ 8589934592 := by
    obtain ⟨y, hy⟩ := hdvd
    have hlt : x * (n / d) * 2147483648 < x * y * 2147483648 := by
      calc x * (n / d) * 2147483648 = n / d * (2147483648 * x) := by ring
        _ ≤ n / d * d := Nat.mul_le_mul_left _ (by omega)
        _ ≤ n := Nat.div_mul_le_self n d
        _ < x * y * 2147483648 := by rwa [← hy]
    have hlt' := Nat.lt_of_mul_lt_mul_left (Nat.lt_of_mul_lt_mul_right hlt)
    rw [hy]
    exact Nat.mul_le_mul_left x hlt'
  have hkey : d % x * (n / d + 1) ≤ d / x * x := by
    refine le_trans (Nat.mul_le_mul_right _ (Nat.le_sub_one_of_lt hrem)) ?_
    refine le_trans ?_ hD
    generalize n / d + 1 = q at hq ⊢
    rcases lt_or_ge x 4 with hsmall | hlarge
    · interval_cases x
      all_goals omega
    · calc (x - 1) * q ≤ x * q := Nat.mul_le_mul_right q (Nat.sub_le x 1)
        _ ≤ 8589934592 := hq
        _ ≤ 2147483648 * x := by omega
  have hone := div_le_div_add_one (n := n) (D := d / x * x) (e := d % x) (by omega)
    (by rwa [hdm])
  rwa [hdm] at hone

/-- The two divisions and the shift of the source make one division. -/
theorem estimate_eq (n v : Nat) (hs : s < 32) :
    n / 2 / v / 2 ^ (31 - s) = n / (v * 2 ^ (32 - s)) := by
  rw [Nat.div_div_eq_div_mul, Nat.div_div_eq_div_mul]
  congr 1
  rw [show 32 - s = 31 - s + 1 by omega, pow_succ]
  ring

end Long

/-- The last line of `udiv64`: an estimate that is the quotient or one more is corrected. -/
theorem corrected {q : BitVec 64} (hd : 0 < d.toNat) (hlo : n.toNat / d.toNat ≤ q.toNat)
    (hhi : q.toNat ≤ n.toNat / d.toNat + 1) (hq : 0 < q.toNat) :
    (if n - (q - 1#64) * d < d then q - 1#64 else q) = BitVec.ofNat 64 (n.toNat / d.toNat) := by
  have hn := n.isLt
  have hpred : (q - 1#64).toNat = q.toNat - 1 := by
    rw [BitVec.toNat_sub, BitVec.toNat_ofNat]
    omega
  have hle := pred_mul_le hhi
  have hmul : ((q - 1#64) * d).toNat = (q.toNat - 1) * d.toNat := by
    rw [BitVec.toNat_mul, hpred, Nat.mod_eq_of_lt (lt_of_le_of_lt hle hn)]
  have hsub : (n - (q - 1#64) * d).toNat = n.toNat - (q.toNat - 1) * d.toNat := by
    rw [BitVec.toNat_sub, hmul]
    omega
  have hest := div_of_estimate hd hlo hhi hq
  rw [← hest]
  apply BitVec.eq_of_toNat_eq
  simp only [BitVec.lt_def, hsub]
  split
  · rw [hpred, BitVec.toNat_ofNat, Nat.mod_eq_of_lt (by have := q.isLt; omega)]
  · rw [BitVec.toNat_ofNat, Nat.mod_eq_of_lt q.isLt]

/-- **A long divisor**: the estimate does not trap, and one correction makes it exact. -/
theorem udiv64_long (hlong : 4294967296 ≤ d.toNat) :
    udiv64 n d = .ok (BitVec.ofNat 64 (n.toNat / d.toNat)) := by
  have hn := n.isLt
  have hhigh : d >>> 32 ≠ 0#64 := by
    intro h
    have := congrArg BitVec.toNat h
    rw [BitVec.toNat_ushiftRight, Nat.shiftRight_eq_div_pow, BitVec.toNat_ofNat] at this
    omega
  rw [udiv64, if_neg hhigh]
  split
  next hlt =>
    have hlt : n.toNat < d.toNat := hlt
    rw [Nat.div_eq_of_lt hlt]
    rfl
  next hge =>
    have hge : ¬ n.toNat < d.toNat := hge
    have hd1 : 0 < ((d >>> 32).setWidth 32).toNat := by
      rw [toNat_high]
      omega
    have hs := nlz_lt hd1
    have hspec := nlz_spec hd1
    generalize hsdef : nlz ((d >>> 32).setWidth 32) = s at hs hspec
    rw [toNat_high] at hspec
    have hnorm := normalised hs hspec.1 hspec.2
    -- the divisor of `divl` is `d / 2 ^ (32 - s)`
    have hv : (((d <<< s) >>> 32).setWidth 32).toNat = d.toNat / 2 ^ (32 - s) := by
      have hx : 2 ^ s * 2 ^ (32 - s) = 4294967296 := by
        rw [← Nat.pow_add, Nat.add_sub_cancel' (by omega)]
      rw [toNat_high, BitVec.toNat_shiftLeft, Nat.shiftLeft_eq, Nat.mod_eq_of_lt hnorm.2, ← hx,
        mul_comm, Nat.mul_div_mul_left _ _ (Nat.two_pow_pos s)]
    have hhalf : (n >>> 1).toNat = n.toNat / 2 := by
      rw [BitVec.toNat_ushiftRight, Nat.shiftRight_eq_div_pow]
    have hfit : n.toNat / 2 / (d.toNat / 2 ^ (32 - s)) < 4294967296 := by
      rw [Nat.div_lt_iff_lt_mul (by omega)]
      calc n.toNat / 2 < 4294967296 * 2147483648 := by omega
        _ ≤ 4294967296 * (d.toNat / 2 ^ (32 - s)) := Nat.mul_le_mul_left _ hnorm.1
    have hdivl := divl_eq (n := n >>> 1) (d := ((d <<< s) >>> 32).setWidth 32)
      (by rw [hv]; omega) (by rwa [hhalf, hv])
    rw [hhalf, hv] at hdivl
    -- and the estimate is `n / (d / 2 ^ (32 - s) * 2 ^ (32 - s))`
    have hq : (((BitVec.ofNat 32 (n.toNat / 2 / (d.toNat / 2 ^ (32 - s)))) >>> (31 - s)).setWidth
        64).toNat = n.toNat / (d.toNat / 2 ^ (32 - s) * 2 ^ (32 - s)) := by
      rw [toNat_widen, BitVec.toNat_ushiftRight, Nat.shiftRight_eq_div_pow, BitVec.toNat_ofNat,
        Nat.mod_eq_of_lt hfit, estimate_eq _ _ hs]
    have hbounds := estimate_bounds hn hs hnorm.1
    have hone : 0 < n.toNat / d.toNat := Nat.div_pos (by omega) (by omega)
    simp only [hsdef, hdivl, ok_bind]
    show Except.ok _ = Except.ok _
    rw [corrected (by omega) (by rw [hq]; exact hbounds.1) (by rw [hq]; exact hbounds.2)
      (by rw [hq]; exact lt_of_lt_of_le hone hbounds.1)]

/-- **`udiv64`** divides exactly, and no `divl` in it traps. -/
theorem udiv64_eq (hd : 0 < d.toNat) : udiv64 n d = .ok (n / d) := by
  have hdiv : n / d = BitVec.ofNat 64 (n.toNat / d.toNat) := BitVec.udiv_def
  rw [hdiv]
  rcases lt_or_ge d.toNat 4294967296 with hshort | hlong
  · exact udiv64_short hd hshort
  · exact udiv64_long hlong

/-! ## Signed division -/

/-- The absolute value changes the sign when the top bit is set. -/
theorem absolute_eq (x : BitVec 64) : absolute x = if x.msb then -x else x := by
  have hmsb := BitVec.msb_eq_toInt (x := x)
  unfold absolute
  by_cases hx : x.toInt < 0
  · rw [if_neg (by omega), hmsb, if_pos (by simpa using hx)]
  · rw [if_pos (by omega), hmsb, if_neg (by simpa using hx)]

theorem absolute_ne_zero {x : BitVec 64} (hx : x ≠ 0#64) : absolute x ≠ 0#64 := by
  rw [absolute_eq]
  split
  · rwa [ne_eq, BitVec.neg_eq_zero_iff]
  · exact hx

/-- **`sdiv64`** is the signed division of words. -/
theorem sdiv64_eq (hd : d ≠ 0#64) : sdiv64 n d = .ok (n.sdiv d) := by
  have hpos : 0 < (absolute d).toNat := BitVec.toNat_pos_of_ne_zero (absolute_ne_zero hd)
  rw [sdiv64, udiv64_eq hpos, ok_bind, BitVec.sdiv_eq, ← BitVec.msb_eq_toInt,
    ← BitVec.msb_eq_toInt, absolute_eq, absolute_eq]
  cases n.msb <;> cases d.msb <;> rfl

/-- The pair whose quotient is no signed word. -/
def Overflows (n d : BitVec 64) : Prop := n.toInt = -9223372036854775808 ∧ d.toInt = -1

instance (n d : BitVec 64) : Decidable (Overflows n d) := inferInstanceAs (Decidable (_ ∧ _))

theorem toInt_sdiv (h : ¬ Overflows n d) : (n.sdiv d).toInt = n.toInt.tdiv d.toInt := by
  apply BitVec.toInt_sdiv_of_ne_or_ne
  by_contra hboth
  simp only [not_or, not_not] at hboth
  apply h
  rw [hboth.1, hboth.2]
  decide

/-- **64-bit division** is exact, and its instructions do not trap. -/
theorem division_exact (n d : BitVec 64) (hd : d ≠ 0#64) :
    (∃ q, udiv64 n d = .ok q ∧ q.toNat = n.toNat / d.toNat) ∧
    (¬ Overflows n d → ∃ q, sdiv64 n d = .ok q ∧ q.toInt = n.toInt.tdiv d.toInt) := by
  refine ⟨⟨n / d, udiv64_eq (BitVec.toNat_pos_of_ne_zero hd), BitVec.toNat_udiv⟩, ?_⟩
  intro h
  exact ⟨n.sdiv d, sdiv64_eq hd, toInt_sdiv h⟩

/-- A long divisor, and the least integer divided by one. -/
theorem division_exact_least :
    (∃ q, udiv64 0xFFFFFFFFFFFFFFFF#64 0x100000001#64 = .ok q ∧ q.toNat = 4294967295) ∧
    (∃ q, sdiv64 0x8000000000000000#64 1#64 = .ok q ∧ q.toInt = -9223372036854775808) :=
  ⟨(division_exact 0xFFFFFFFFFFFFFFFF#64 0x100000001#64 (by decide)).1,
    (division_exact 0x8000000000000000#64 1#64 (by decide)).2 (by decide)⟩

/-! ## Remainders -/

theorem umoddi3_eq (hd : 0 < d.toNat) :
    ∃ r, umoddi3 n d = .ok r ∧ r.toNat = n.toNat % d.toNat % 4294967296 := by
  refine ⟨((n - d * (n / d)).setWidth 32).setWidth 64, ?_, ?_⟩
  · rw [umoddi3, umod64, udiv64_eq hd]
    rfl
  have hrem : (n - d * (n / d)).toNat = n.toNat % d.toNat := by
    have hdm := Nat.div_add_mod n.toNat d.toNat
    have hmul : (d * (n / d)).toNat = d.toNat * (n.toNat / d.toNat) := by
      rw [BitVec.toNat_mul, BitVec.toNat_udiv]
      exact Nat.mod_eq_of_lt (by omega)
    rw [BitVec.toNat_sub, hmul]
    omega
  rw [toNat_widen, toNat_low, hrem]

theorem moddi3_eq (hd : d ≠ 0#64) (h : ¬ Overflows n d) :
    ∃ r, moddi3 n d = .ok r ∧ r.toInt = (n.toInt.tmod d.toInt).bmod 4294967296 := by
  refine ⟨((n - d * n.sdiv d).setWidth 32).signExtend 64, ?_, ?_⟩
  · rw [moddi3, smod64, sdiv64_eq hd]
    rfl
  have hrem : (n - d * n.sdiv d).toInt = (n.toInt.tmod d.toInt).bmod (2 ^ 64) := by
    rw [BitVec.toInt_sub, BitVec.toInt_mul, toInt_sdiv h, sub_bmod_bmod, tmod_def]
  rw [BitVec.toInt_eq_toNat_bmod] at hrem
  have hcut := congrArg (fun x : Int => x.bmod 4294967296) hrem
  simp only [bmod_bmod_of_dvd (show 4294967296 ∣ 2 ^ 64 by decide)] at hcut
  rwa [BitVec.toInt_signExtend_of_le (by decide), BitVec.toInt_setWidth]

/-- `n` is less than `2 ^ 32` above a multiple of `d`. -/
def UnsignedNear (n d : BitVec 64) : Prop :=
  ∃ k : Nat, k * d.toNat ≤ n.toNat ∧ n.toNat < k * d.toNat + 4294967296

/-- Between `n` and zero, a multiple of `d` is at most `2 ^ 31` away; less than that above zero. -/
def SignedNear (n d : BitVec 64) : Prop :=
  if 0 ≤ n.toInt then ∃ k : Int, k * d.toInt ≤ n.toInt ∧ n.toInt < k * d.toInt + 2147483648
  else ∃ k : Int, n.toInt ≤ k * d.toInt ∧ k * d.toInt ≤ n.toInt + 2147483648

theorem signedNear_iff (hd : d.toInt ≠ 0) :
    SignedNear n d ↔ -2147483648 ≤ n.toInt.tmod d.toInt ∧ n.toInt.tmod d.toInt < 2147483648 := by
  unfold SignedNear
  split
  next hn =>
    have h0 := emod_nonneg n.toInt hd
    rw [exists_multiple_below hd, tmod_eq_emod_of_nonneg hn]
    omega
  next hn =>
    have h0 := emod_nonneg (-n.toInt) hd
    have hneg : n.toInt.tmod d.toInt = -((-n.toInt) % d.toInt) := by
      rw [← tmod_eq_emod_of_nonneg (by omega), neg_tmod, neg_neg]
    rw [exists_multiple_above hd, hneg]
    omega

/-- **64-bit remainders** are exact where they fit into the 32 bits that are returned. -/
theorem remainder_exact_iff (n d : BitVec 64) (hd : d ≠ 0#64) :
    ((∃ r, umoddi3 n d = .ok r ∧ r.toNat = n.toNat % d.toNat) ↔ UnsignedNear n d) ∧
    (¬ Overflows n d →
      ((∃ r, moddi3 n d = .ok r ∧ r.toInt = n.toInt - d.toInt * n.toInt.tdiv d.toInt) ↔
        SignedNear n d)) := by
  constructor
  · obtain ⟨r, hr, hval⟩ := umoddi3_eq (n := n) (BitVec.toNat_pos_of_ne_zero hd)
    rw [hr, UnsignedNear, exists_multiple_iff]
    constructor
    · rintro ⟨r', ⟨⟩, hexact⟩
      rw [← hexact, hval]
      exact Nat.mod_lt _ (by decide)
    · intro hlt
      exact ⟨r, rfl, by rw [hval, Nat.mod_eq_of_lt hlt]⟩
  · intro h
    have hd0 : d.toInt ≠ 0 := by
      intro h0
      exact hd (BitVec.eq_of_toInt_eq (h0.trans BitVec.toInt_zero.symm))
    obtain ⟨r, hr, hval⟩ := moddi3_eq hd h
    rw [hr, signedNear_iff hd0, ← tmod_def]
    rw [bmod_def] at hval
    constructor
    · rintro ⟨r', ⟨⟩, hexact⟩
      omega
    · rintro ⟨hlo, hhi⟩
      exact ⟨r, rfl, by omega⟩

/-- Remainders of small numbers. -/
theorem remainder_exact_small :
    UnsignedNear 100#64 7#64 ∧
      ∃ r, umoddi3 100#64 7#64 = .ok r ∧ r.toNat = (100#64).toNat % (7#64).toNat :=
  ⟨⟨14, by decide, by decide⟩,
    (remainder_exact_iff 100#64 7#64 (by decide)).1.mpr ⟨14, by decide, by decide⟩⟩

/-- `2 ^ 32` modulo `2 ^ 32 + 1` comes back as zero, and `2 ^ 31` modulo `2 ^ 31 + 1` negative. -/
theorem remainder_cut_off :
    umoddi3 0x100000000#64 0x100000001#64 = .ok 0#64 ∧
    (0x100000000#64).toNat % (0x100000001#64).toNat = 4294967296 ∧
    moddi3 0x80000000#64 0x80000001#64 = .ok 0xFFFFFFFF80000000#64 ∧
    (0x80000000#64).toInt.tmod (0x80000001#64).toInt = 2147483648 :=
  ⟨rfl, by decide, rfl, by decide⟩

end Pintos.Lib.Arithmetic
