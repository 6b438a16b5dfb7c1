/-
  Little-endian words of 32 bits.

  An array of bytes is a function of its index.  `le32 f a` is the word that the four bytes from `a` on
  encode, and `le32Byte x k` is the byte `k` of the encoding of `x`.

  1. **Round trip** (`le32_encode`) — four bytes that hold an encoding decode to what was encoded.

  2. **Sign** — `signed32` reads the word in two's complement, and undoes the reduction modulo 2^32.
-/
import Mathlib.Algebra.Group.Nat.Defs
import Mathlib.Logic.Basic

namespace Pintos.Base

/-- The word in the bytes `a`, `a + 1`, `a + 2` and `a + 3`. -/
def le32 (f : Nat → BitVec 8) (a : Nat) : Nat :=
  (f a).toNat + 256 * (f (a + 1)).toNat + 65536 * (f (a + 2)).toNat + 16777216 * (f (a + 3)).toNat

/-- The byte `k` of the encoding of `x`. -/
def le32Byte (x k : Nat) : BitVec 8 := BitVec.ofNat 8 (x / 256 ^ k)

/-- The two's complement reading of a word. -/
def signed32 (x : Nat) : Int := if x < 2147483648 then x else x - 4294967296

theorem le32_lt (f : Nat → BitVec 8) (a : Nat) : le32 f a < 4294967296 := by
  simp only [le32]
  omega

theorem le32_congr {f g : Nat → BitVec 8} {a : Nat} (h : ∀ k < 4, f (a + k) = g (a + k)) :
    le32 f a = le32 g a := by
  have h0 : f a = g a := h 0 (by decide)
  rw [le32, le32, h0, h 1 (by decide), h 2 (by decide), h 3 (by decide)]

/-- **Round trip.** -/
theorem le32_encode {f : Nat → BitVec 8} {a x : Nat} (hx : x < 4294967296)
    (h : ∀ k < 4, f (a + k) = le32Byte x k) : le32 f a = x := by
  have h0 : f a = le32Byte x 0 := h 0 (by decide)
  rw [le32, h0, h 1 (by decide), h 2 (by decide), h 3 (by decide)]
  simp only [le32Byte, BitVec.toNat_ofNat, Nat.reducePow]
  omega

theorem signed32_emod {x : Int} (h0 : -2147483648 ≤ x) (h1 : x < 2147483648) :
    signed32 (x % 4294967296).toNat = x := by
  unfold signed32
  split <;> omega

theorem signed32_bounds {x : Nat} (h : x < 4294967296) :
    -2147483648 ≤ signed32 x ∧ signed32 x < 2147483648 := by
  unfold signed32
  split <;> omega

end Pintos.Base
