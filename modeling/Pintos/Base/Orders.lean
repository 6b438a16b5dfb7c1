/-
  Maxima of lists, and walks that cannot go round.

  1. **Maxima** — `maxOver key m xs` is the greatest of `m` and the keys of `xs`, the fold that a
     program computes; `maxOver_eq_iff` is what it means.

  2. **Walks** — along a relation without cycles, inside a finite set, a walk is no longer than the
     set.  `Acyclic.fuel` is that fact as an INDUCTION RULE for functions that walk with a bound.
-/
import Mathlib.Data.List.Perm.Subperm
import Mathlib.Logic.Relation

namespace Pintos.Base

open List

variable {α : Type} {r : α → α → Prop}

/-! ## Maxima -/

/-- The maximum of `m` and of the keys of a list. -/
def maxOver (key : α → Int) (m : Int) (xs : List α) : Int := xs.foldr (fun x n => max (key x) n) m

section

variable {key key' : α → Int} {m p : Int} {xs : List α}

theorem maxOver_le : maxOver key m xs ≤ p ↔ m ≤ p ∧ ∀ x ∈ xs, key x ≤ p := by
  induction xs with
  | nil => exact ⟨fun h => ⟨h, fun x hx => absurd hx not_mem_nil⟩, And.left⟩
  | cons x xs ih =>
    have hcons : maxOver key m (x :: xs) = max (key x) (maxOver key m xs) := rfl
    rw [hcons, forall_mem_cons, and_left_comm, ← ih]
    omega

theorem maxOver_cases : maxOver key m xs = m ∨ ∃ x ∈ xs, key x = maxOver key m xs := by
  induction xs with
  | nil => exact .inl rfl
  | cons x xs ih =>
    have hcons : maxOver key m (x :: xs) = max (key x) (maxOver key m xs) := rfl
    by_cases hx : maxOver key m xs ≤ key x
    · exact .inr ⟨x, mem_cons_self .., by omega⟩
    · rcases ih with ih | ⟨y, hy, ih⟩
      · exact .inl (by omega)
      · exact .inr ⟨y, mem_cons_of_mem _ hy, by omega⟩

/-- **The fold is the maximum.** -/
theorem maxOver_eq_iff : p = maxOver key m xs ↔
    m ≤ p ∧ (∀ x ∈ xs, key x ≤ p) ∧ (p = m ∨ ∃ x ∈ xs, key x = p) := by
  constructor
  · rintro rfl
    obtain ⟨h1, h2⟩ := maxOver_le.mp (Int.le_refl (maxOver key m xs))
    exact ⟨h1, h2, maxOver_cases⟩
  · rintro ⟨h1, h2, h3⟩
    have hle : maxOver key m xs ≤ p := maxOver_le.mpr ⟨h1, h2⟩
    obtain ⟨h4, h5⟩ := maxOver_le.mp (Int.le_refl (maxOver key m xs))
    rcases h3 with rfl | ⟨x, hx, rfl⟩
    · exact Int.le_antisymm h4 hle
    · exact Int.le_antisymm (h5 x hx) hle

theorem maxOver_congr (h : ∀ x ∈ xs, key x = key' x) : maxOver key m xs = maxOver key' m xs := by
  induction xs with
  | nil => rfl
  | cons x xs ih =>
    obtain ⟨hx, hxs⟩ := forall_mem_cons.mp h
    show max (key x) (maxOver key m xs) = max (key' x) (maxOver key' m xs)
    rw [hx, ih hxs]

end

/-! ## Walks -/

/-- No walk along `r` comes back to where it has been. -/
def Acyclic (r : α → α → Prop) : Prop := ∀ a, ¬ Relation.TransGen r a a

/-- A relation that goes down in some measure. -/
theorem Acyclic.of_measure (f : α → Nat) (h : ∀ a b, r a b → f b < f a) : Acyclic r := by
  have hlt : ∀ a b, Relation.TransGen r a b → f b < f a := by
    intro a b hab
    induction hab with
    | single hb => exact h _ _ hb
    | tail _ hb ih => exact Nat.lt_trans (h _ _ hb) ih
  exact fun a ha => Nat.lt_irrefl _ (hlt a a ha)

/-- **The fuel rule**: if every element that has a successor is in `xs`, a property that a bound has
    at an element as soon as one less has it at its successors, is had by the length of `xs`. -/
theorem Acyclic.fuel [DecidableEq α] (hr : Acyclic r) {xs : List α}
    (hxs : ∀ a b, r a b → a ∈ xs) {P : Nat → α → Prop}
    (hP : ∀ n a, (∀ b, r a b → ∃ m, n = m + 1 ∧ P m b) → P n a) (a : α) : P xs.length a := by
  -- `seen` is the way to `a`: different elements of `xs`, one for each unit of the bound used up
  have hwalk : ∀ (n : Nat) (a : α) (seen : List α), seen.Nodup →
      (∀ s ∈ seen, s ∈ xs ∧ Relation.TransGen r s a) → n + seen.length = xs.length → P n a := by
    intro n
    induction n with
    | zero =>
      intro a seen hnd hseen hlen
      refine hP 0 a fun b hb => ?_
      have hnew : a ∉ seen := fun ha => hr a (hseen a ha).2
      have hsub : (a :: seen).Subperm xs := by
        refine subperm_of_subset (nodup_cons.mpr ⟨hnew, hnd⟩) fun s hs => ?_
        rcases mem_cons.mp hs with rfl | hs
        · exact hxs s b hb
        · exact (hseen s hs).1
      have hle := hsub.length_le
      rw [length_cons] at hle
      omega
    | succ n ih =>
      intro a seen hnd hseen hlen
      refine hP (n + 1) a fun b hb => ⟨n, rfl, ih b (a :: seen) ?_ ?_ ?_⟩
      · exact nodup_cons.mpr ⟨fun ha => hr a (hseen a ha).2, hnd⟩
      · intro s hs
        rcases mem_cons.mp hs with rfl | hs
        · exact ⟨hxs s b hb, Relation.TransGen.single hb⟩
        · exact ⟨(hseen s hs).1, (hseen s hs).2.tail hb⟩
      · rw [length_cons]
        omega
  exact hwalk xs.length a [] nodup_nil (fun s hs => absurd hs not_mem_nil) rfl

end Pintos.Base
