/-
  Words as records of bits.

  A word packs several things, each in bits of its own, and a mask takes one of them out.

  1. **Independence** — bits outside a mask may be set (`or_and_of_disjoint`) or cleared
     (`andNot_and_of_disjoint`) without changing what the mask takes out; bits inside it that are
     set are seen (`or_and_ne_zero`).

  2. **Pages of 4096** — the low twelve bits of a word of 32 are its remainder (`toNat_and_low`), and
     a multiple of 4096 is all above them (`and_high_of_aligned`).
-/
import Mathlib.Logic.Basic

namespace Pintos.Base

open BitVec

section

variable {w : Nat} {c m : BitVec w}

theorem or_and_of_disjoint (h : c &&& m = 0#w) (x : BitVec w) : (x ||| c) &&& m = x &&& m := by
  rw [BitVec.and_comm, BitVec.and_or_distrib_left, BitVec.and_comm m c, h, BitVec.or_zero,
    BitVec.and_comm]

theorem andNot_and_of_disjoint (h : c &&& m = 0#w) (x : BitVec w) :
    (x &&& ~~~c) &&& m = x &&& m := by
  have hm : ~~~c &&& m = m := by
    apply BitVec.eq_of_getLsbD_eq
    intro i hi
    have hbit : (c &&& m).getLsbD i = false := by rw [h, getLsbD_zero]
    rw [getLsbD_and] at hbit
    rw [getLsbD_and, getLsbD_not]
    cases hc : c.getLsbD i <;> cases hmi : m.getLsbD i <;> simp_all
  rw [BitVec.and_assoc, hm]

/-- What the mask takes out is not zero if the bits set are in it. -/
theorem or_and_ne_zero (h : c &&& m ≠ 0#w) (x : BitVec w) : (x ||| c) &&& m ≠ 0#w := by
  intro h0
  refine h (eq_of_getLsbD_eq fun i hi => ?_)
  have hbit : ((x ||| c) &&& m).getLsbD i = false := by rw [h0, getLsbD_zero]
  rw [getLsbD_and, getLsbD_or] at hbit
  rw [getLsbD_and, getLsbD_zero]
  cases hc : c.getLsbD i <;> cases hmi : m.getLsbD i <;> simp_all

end

theorem toNat_and_low (x : BitVec 32) : (x &&& 0xfff#32).toNat = x.toNat % 4096 := by
  rw [toNat_and]
  exact Nat.and_two_pow_sub_one_eq_mod x.toNat 12

theorem and_low_eq_zero {x : BitVec 32} : x &&& 0xfff#32 = 0#32 ↔ x.toNat % 4096 = 0 := by
  rw [← toNat_and_low, ← toNat_inj]
  rfl

theorem high_mask (i : Nat) (hi : i < 32) : (0xfffff000#32).getLsbD i = decide (12 ≤ i) := by
  revert i
  decide

theorem and_high_of_aligned {x : BitVec 32} (h : x.toNat % 4096 = 0) : x &&& 0xfffff000#32 = x := by
  apply eq_of_getLsbD_eq
  intro i hi
  rw [getLsbD_and, high_mask i hi]
  by_cases h12 : 12 ≤ i
  · simp [h12]
  · have hbit : (x.toNat % 2 ^ 12).testBit i = false := by
      rw [show x.toNat % 2 ^ 12 = 0 from h, Nat.zero_testBit]
    rw [Nat.testBit_mod_two_pow, decide_eq_true (by omega : i < 12), Bool.true_and] at hbit
    have hx : x.getLsbD i = false := hbit
    rw [hx, Bool.false_and]

end Pintos.Base
