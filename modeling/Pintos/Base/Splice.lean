/-
  Splicing arrays.

  An unbounded array is a function of its index.  `splice f a n g` is `f` with the `n` cells from `a`
  on replaced by the first `n` cells of `g`: what a copy of `n` bytes does to its destination.

  1. **Pieces** (`splice_append`) — a copy made piece by piece is one copy.

  2. **Windows** (`splice_window`) — changing a part of a window read from `f`, and writing the whole
     window back, changes that part of `f` and nothing else.
-/
import Mathlib.Logic.Basic

namespace Pintos.Base

variable {β : Type}

/-- `f`, with the cells `[a, a + n)` taken from the beginning of `g`. -/
def splice (f : Nat → β) (a n : Nat) (g : Nat → β) : Nat → β :=
  fun k => if a ≤ k ∧ k < a + n then g (k - a) else f k

section

variable {f g : Nat → β} {a n m k : Nat}

theorem splice_of_mem (h : a ≤ k ∧ k < a + n) : splice f a n g k = g (k - a) := if_pos h

theorem splice_of_not_mem (h : ¬ (a ≤ k ∧ k < a + n)) : splice f a n g k = f k := if_neg h

@[simp] theorem splice_zero (f : Nat → β) (a : Nat) (g : Nat → β) : splice f a 0 g = f := by
  funext k
  exact splice_of_not_mem (by omega)

/-- **A copy in two pieces.** -/
theorem splice_append (f : Nat → β) (a n m : Nat) (g : Nat → β) :
    splice (splice f a n g) (a + n) m (fun k => g (n + k)) = splice f a (n + m) g := by
  funext k
  by_cases h2 : a + n ≤ k ∧ k < a + n + m
  · rw [splice_of_mem h2, splice_of_mem (by omega), show n + (k - (a + n)) = k - a by omega]
  · rw [splice_of_not_mem h2]
    by_cases h1 : a ≤ k ∧ k < a + n
    · rw [splice_of_mem h1, splice_of_mem (by omega)]
    · rw [splice_of_not_mem h1, splice_of_not_mem (by omega)]

/-- **Read, modify, write.**  The window `[s, s + w)` is written back with its part from `o` on
    changed. -/
theorem splice_window (f : Nat → β) (s w o n : Nat) (g : Nat → β) (h : o + n ≤ w) :
    splice f s w (splice (fun k => f (s + k)) o n g) = splice f (s + o) n g := by
  funext k
  by_cases hw : s ≤ k ∧ k < s + w
  · rw [splice_of_mem hw]
    by_cases hn : s + o ≤ k ∧ k < s + o + n
    · rw [splice_of_mem (show o ≤ k - s ∧ k - s < o + n by omega), splice_of_mem hn,
        show k - s - o = k - (s + o) by omega]
    · rw [splice_of_not_mem (show ¬ (o ≤ k - s ∧ k - s < o + n) by omega), splice_of_not_mem hn,
        show s + (k - s) = k by omega]
  · rw [splice_of_not_mem hw, splice_of_not_mem (by omega)]

/-- **The second copy** to one place is the one that counts. -/
theorem splice_splice (f : Nat → β) (a n : Nat) (g g' : Nat → β) :
    splice (splice f a n g) a n g' = splice f a n g' := by
  funext k
  by_cases hk : a ≤ k ∧ k < a + n
  · rw [splice_of_mem hk, splice_of_mem hk]
  · rw [splice_of_not_mem hk, splice_of_not_mem hk, splice_of_not_mem hk]

/-- What is copied matters only where it is copied from. -/
theorem splice_congr {g' : Nat → β} (h : ∀ k < n, g k = g' k) :
    splice f a n g = splice f a n g' := by
  funext k
  by_cases hk : a ≤ k ∧ k < a + n
  · rw [splice_of_mem hk, splice_of_mem hk, h _ (by omega)]
  · rw [splice_of_not_mem hk, splice_of_not_mem hk]

end
end Pintos.Base
