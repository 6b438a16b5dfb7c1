/-
  Records in an array of bytes.

  An unbounded array is a function of its index.  `put f a bs` is `f` with the list `bs` written from
  `a` on, and `window f a n` is the list of the `n` cells from `a` on.

  1. **What is written is read** (`window_put`), and nothing else has changed (`put_of_not_mem`).

  2. **Strings** — `cString` is a list of cells up to the first zero; a string written with its zero
     is read back (`cString_append`).
-/
import Mathlib.Data.List.TakeWhile
import Mathlib.Data.List.GetD
import Mathlib.Logic.Basic

namespace Pintos.Base

open List

section

variable {β : Type}

/-- `f`, with `bs` written from the cell `a` on. -/
def put (f : Nat → β) (a : Nat) (bs : List β) : Nat → β :=
  fun k => if a ≤ k then bs.getD (k - a) (f k) else f k

/-- The `n` cells from `a` on. -/
def window (f : Nat → β) (a n : Nat) : List β := (range n).map fun k => f (a + k)

variable {f g : Nat → β} {a n k : Nat} {bs : List β}

theorem put_of_not_mem (h : k < a ∨ a + bs.length ≤ k) : put f a bs k = f k := by
  by_cases hk : a ≤ k
  · have hlen : bs.length ≤ k - a := by omega
    rw [put, if_pos hk, getD_eq_default _ _ hlen]
  · rw [put, if_neg hk]

theorem put_of_mem (h : k < bs.length) : put f a bs (a + k) = bs[k] := by
  rw [put, if_pos (Nat.le_add_right a k), Nat.add_sub_cancel_left, getD_eq_getElem _ _ h]

theorem put_singleton (f : Nat → β) (a : Nat) (b : β) : put f a [b] a = b :=
  put_of_mem (show 0 < [b].length from Nat.one_pos)

theorem put_singleton_of_ne {b : β} (h : k ≠ a) : put f a [b] k = f k :=
  put_of_not_mem (by simp only [length_singleton]; omega)

theorem put_nil (f : Nat → β) (a : Nat) : put f a [] = f := by
  funext k
  exact put_of_not_mem (by simp only [length_nil]; omega)

theorem put_cons (f : Nat → β) (a : Nat) (b : β) (bs : List β) :
    put (put f a [b]) (a + 1) bs = put f a (b :: bs) := by
  funext k
  rcases lt_trichotomy k a with hlt | rfl | hgt
  · rw [put_of_not_mem (by omega), put_singleton_of_ne (by omega), put_of_not_mem (by omega)]
  · rw [put_of_not_mem (by omega), put_singleton]
    exact (put_of_mem (show 0 < (b :: bs).length by simp)).symm
  obtain ⟨j, rfl⟩ := Nat.exists_eq_add_of_lt hgt
  by_cases hj : j < bs.length
  · rw [show a + j + 1 = a + 1 + j by omega, put_of_mem hj, Nat.add_assoc, Nat.add_comm 1,
      put_of_mem (show j + 1 < (b :: bs).length by simpa using hj)]
    rfl
  · rw [put_of_not_mem (by omega), put_singleton_of_ne (by omega),
      put_of_not_mem (by simp only [length_cons]; omega)]

@[simp] theorem length_window (f : Nat → β) (a n : Nat) : (window f a n).length = n := by
  simp [window]

theorem window_congr (h : ∀ k < n, f (a + k) = g (a + k)) : window f a n = window g a n :=
  map_congr_left fun k hk => h k (mem_range.mp hk)

theorem window_add (f : Nat → β) (a m n : Nat) :
    window f a (m + n) = window f a m ++ window f (a + m) n := by
  rw [window, range_add, map_append, map_map]
  congr 1
  exact map_congr_left fun k _ => congrArg f (Nat.add_assoc a m k).symm

/-- **What is written is read.** -/
theorem window_put (f : Nat → β) (a : Nat) (bs : List β) :
    window (put f a bs) a bs.length = bs := by
  refine ext_getElem (by simp) fun k h1 h2 => ?_
  simp only [window, getElem_map, getElem_range]
  exact put_of_mem h2

end

/-! ## Strings -/

section

variable {w : Nat} {s rest : List (BitVec w)}

/-- The cells before the first zero. -/
def cString (l : List (BitVec w)) : List (BitVec w) := l.takeWhile (· != 0)

theorem zero_not_mem_cString (l : List (BitVec w)) : 0 ∉ cString l := by
  intro h
  have := mem_takeWhile_imp h
  simp at this

theorem cString_of_nonzero (h : 0 ∉ s) : cString s = s := by
  refine takeWhile_eq_self_iff.mpr fun c hc => ?_
  have hne : c ≠ 0 := fun hc0 => h (hc0 ▸ hc)
  simpa using hne

theorem cString_append (h : 0 ∉ s) : cString (s ++ 0 :: rest) = s := by
  rw [cString, takeWhile_append_of_pos]
  · simp
  · exact takeWhile_eq_self_iff.mp (cString_of_nonzero h)

theorem exists_cString {l : List (BitVec w)} (h : 0 ∈ l) : ∃ rest, l = cString l ++ 0 :: rest := by
  induction l with
  | nil => cases h
  | cons x l ih =>
    rw [cString, takeWhile_cons]
    by_cases hx : x = 0
    · exact ⟨l, by simp [hx]⟩
    · obtain ⟨rest, hrest⟩ := ih ((mem_cons.mp h).resolve_left (Ne.symm hx))
      exact ⟨rest, by rw [if_pos (bne_iff_ne.mpr hx), cons_append, ← cString, ← hrest]⟩

end
end Pintos.Base
