/-
  Overlapping moves: `memmove` of lib/string.c.

  1. **Two loops** — upwards if the destination lies before the source, downwards otherwise.  Either way
     a byte is read before it is overwritten, so the move is ONE `splice` (`memmove_eq`).

  2. **The result** — the function returns its working pointer.  That comes back to `dst` downwards, and
     has moved on by `size` upwards (`memmove_iff`).

  Pointers are natural numbers: no region reaches past the end of the address space.
-/
import Mathlib.Logic.Function.Basic
import Pintos.Base.Splice

namespace Pintos.Lib

open Base Function

section

variable {β : Type}

/-- `while (size-- > 0) *dst++ = *src++;`: the pointer `dst`, and the memory. -/
def copyUp : Nat → Nat → Nat → (Nat → β) → Nat × (Nat → β)
  | 0, dst, _, m => (dst, m)
  | size + 1, dst, src, m => copyUp size (dst + 1) (src + 1) (update m dst (m src))

/-- `while (size-- > 0) *--dst = *--src;`. -/
def copyDown : Nat → Nat → Nat → (Nat → β) → Nat × (Nat → β)
  | 0, dst, _, m => (dst, m)
  | size + 1, dst, src, m => copyDown size (dst - 1) (src - 1) (update m (dst - 1) (m (src - 1)))

/-- `memmove`; `none` is a failed assertion. -/
def memmove (m : Nat → β) (dst src size : Nat) : Option (Nat × (Nat → β)) :=
  if (dst ≠ 0 ∨ size = 0) ∧ (src ≠ 0 ∨ size = 0) then
    some (if dst < src then copyUp size dst src m else copyDown size (dst + size) (src + size) m)
  else none

variable {dst src : Nat}

theorem copyUp_eq (hlt : dst < src) (size : Nat) (m : Nat → β) :
    copyUp size dst src m = (dst + size, splice m dst size fun k => m (src + k)) := by
  induction size generalizing dst src m with
  | zero => rw [copyUp, splice_zero, Nat.add_zero]
  | succ n ih =>
    rw [copyUp, ih (by omega)]
    refine Prod.ext (by simp only; omega) (funext fun i => ?_)
    -- what is still to be read lies behind the byte just written
    have hread : ∀ k, update m dst (m src) (src + 1 + k) = m (src + 1 + k) :=
      fun k => update_of_ne (by omega) _ _
    simp only [splice, hread]
    by_cases hi : i = dst
    · subst hi
      rw [if_neg (by omega), if_pos (by omega), update_self, Nat.sub_self, Nat.add_zero]
    · rw [update_of_ne hi]
      by_cases hin : dst + 1 ≤ i ∧ i < dst + 1 + n
      · rw [if_pos hin, if_pos (by omega), show src + 1 + (i - (dst + 1)) = src + (i - dst) by omega]
      · rw [if_neg hin, if_neg (by omega)]

theorem copyDown_eq (hle : src ≤ dst) (size : Nat) (m : Nat → β) :
    copyDown size (dst + size) (src + size) m = (dst, splice m dst size fun k => m (src + k)) := by
  induction size generalizing m with
  | zero => rw [copyDown, splice_zero, Nat.add_zero]
  | succ n ih =>
    rw [copyDown, show dst + (n + 1) - 1 = dst + n by omega,
      show src + (n + 1) - 1 = src + n by omega, ih]
    refine Prod.ext rfl (funext fun i => ?_)
    simp only [splice]
    by_cases hin : dst ≤ i ∧ i < dst + n
    · -- what is still to be read lies before the byte just written
      rw [if_pos hin, if_pos (by omega), update_of_ne (by omega)]
    · rw [if_neg hin]
      by_cases hi : i = dst + n
      · rw [hi, update_self, if_pos (by omega), Nat.add_sub_cancel_left]
      · rw [update_of_ne hi, if_neg (by omega)]

theorem memmove_eq (m : Nat → β) {size : Nat} (hd : dst ≠ 0 ∨ size = 0) (hs : src ≠ 0 ∨ size = 0) :
    memmove m dst src size =
      some (if dst < src then dst + size else dst, splice m dst size fun k => m (src + k)) := by
  rw [memmove, if_pos ⟨hd, hs⟩]
  by_cases hlt : dst < src
  · rw [if_pos hlt, if_pos hlt, copyUp_eq hlt]
  · rw [if_neg hlt, if_neg hlt, copyDown_eq (by omega)]

/-- **What a move is to do**: the bytes of the source come to the destination, nothing else changes,
    and the destination is returned. -/
def MovesTo (m : Nat → β) (dst src size : Nat) : Prop :=
  ∃ m', memmove m dst src size = some (dst, m') ∧ (∀ k < size, m' (dst + k) = m (src + k)) ∧
    ∀ i, i < dst ∨ dst + size ≤ i → m' i = m i

/-- **Moves**: every byte is moved right, but the pointer returned is `dst` only if the move is empty or
    goes downwards from an address that is not null. -/
theorem memmove_iff (m : Nat → β) (dst src size : Nat) :
    MovesTo m dst src size ↔ size = 0 ∨ (0 < src ∧ src ≤ dst) := by
  constructor
  · rintro ⟨m', hm, -, -⟩
    by_cases hok : (dst ≠ 0 ∨ size = 0) ∧ (src ≠ 0 ∨ size = 0)
    · rw [memmove_eq m hok.1 hok.2] at hm
      have hret := congrArg Prod.fst (Option.some.inj hm)
      simp only at hret
      split at hret <;> omega
    · rw [memmove, if_neg hok] at hm
      cases hm
  · intro h
    have hret : (if dst < src then dst + size else dst) = dst := by split <;> omega
    refine ⟨_, by rw [memmove_eq m (by omega) (by omega), hret], fun k hk => ?_, fun i hi => ?_⟩
    · rw [splice_of_mem (by omega), Nat.add_sub_cancel_left]
    · exact splice_of_not_mem (by omega)

/-- One byte moved down by one, as `newline` of devices/vga.c moves lines: the pointer behind the
    destination is returned. -/
theorem memmove_returns_end :
    (memmove (fun i => i) 1 2 1).map Prod.fst = some 2 ∧ ¬ MovesTo (fun i => i) 1 2 1 := by
  refine ⟨rfl, fun h => ?_⟩
  obtain ⟨m', hm, -⟩ := h
  have hret := congrArg (Option.map Prod.fst) hm
  cases hret

end
end Pintos.Lib
