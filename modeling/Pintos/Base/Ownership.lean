/-
  Exclusive ownership of resources.

  An allocator marks resources as USED.  Who owns what is a RELATION computed from the state,
  `claims : O → R → Prop`, since the owners are spread over it.

  1. **`Owned`** — what is claimed is used, and has one owner.

  2. **`Covered`** — what is used is claimed: nothing has leaked.

  3. **Moves** — a step takes fresh resources (`gain`), lets some go (`lose`), or passes some on
     (`give`).  `mono` and `rename` are about the first property alone.
-/
import Mathlib.Logic.Basic

namespace Pintos.Base

variable {O R : Type} {used U : R → Prop} {claims C : O → R → Prop} {S : R → Prop} {q : O}

/-- Claimed resources are used, and each has one owner. -/
structure Owned (used : R → Prop) (claims : O → R → Prop) : Prop where
  used_of_claim : ∀ {o r}, claims o r → used r
  unique : ∀ {o o' r}, claims o r → claims o' r → o = o'

/-- Used resources are claimed. -/
def Covered (used : R → Prop) (claims : O → R → Prop) : Prop := ∀ r, used r → ∃ o, claims o r

namespace Owned

section

variable (h : Owned used claims)
include h

section

variable (hcov : Covered used claims)
include hcov

/-- **Fresh resources** go to one owner. -/
theorem gain (hfresh : ∀ r, S r → ¬ used r)
    (hused : ∀ r, U r ↔ used r ∨ S r) (hclaims : ∀ o r, C o r ↔ claims o r ∨ o = q ∧ S r) :
    Owned U C ∧ Covered U C := by
  refine ⟨⟨fun {o r} hc => ?_, fun {o o' r} hc hc' => ?_⟩, fun r hu => ?_⟩
  · rcases (hclaims o r).mp hc with hc | ⟨-, hS⟩
    · exact (hused r).mpr (.inl (h.used_of_claim hc))
    · exact (hused r).mpr (.inr hS)
  · rcases (hclaims o r).mp hc with hc | ⟨ho, hS⟩ <;>
      rcases (hclaims o' r).mp hc' with hc' | ⟨ho', hS'⟩
    · exact h.unique hc hc'
    · exact absurd (h.used_of_claim hc) (hfresh r hS')
    · exact absurd (h.used_of_claim hc') (hfresh r hS)
    · rw [ho, ho']
  · rcases (hused r).mp hu with hu | hS
    · obtain ⟨o, ho⟩ := hcov r hu
      exact ⟨o, (hclaims o r).mpr (.inl ho)⟩
    · exact ⟨q, (hclaims q r).mpr (.inr ⟨rfl, hS⟩)⟩

/-- **Letting go**: what is no longer used is no longer claimed. -/
theorem lose (hused : ∀ r, U r ↔ used r ∧ ¬ S r) (hclaims : ∀ o r, C o r ↔ claims o r ∧ ¬ S r) :
    Owned U C ∧ Covered U C := by
  refine ⟨⟨fun {o r} hc => ?_, fun {o o' r} hc hc' => ?_⟩, fun r hu => ?_⟩
  · obtain ⟨hc, hS⟩ := (hclaims o r).mp hc
    exact (hused r).mpr ⟨h.used_of_claim hc, hS⟩
  · exact h.unique ((hclaims o r).mp hc).1 ((hclaims o' r).mp hc').1
  · obtain ⟨hu, hS⟩ := (hused r).mp hu
    obtain ⟨o, ho⟩ := hcov r hu
    exact ⟨o, (hclaims o r).mpr ⟨ho, hS⟩⟩

/-- **Passing on** resources that are in use. -/
theorem give (hS : ∀ r, S r → used r) (hused : ∀ r, U r ↔ used r)
    (hclaims : ∀ o r, C o r ↔ claims o r ∧ ¬ S r ∨ o = q ∧ S r) : Owned U C ∧ Covered U C := by
  obtain ⟨hrest, hcov'⟩ := h.lose (U := fun r => used r ∧ ¬ S r)
    (C := fun o r => claims o r ∧ ¬ S r) hcov (fun _ => Iff.rfl) fun _ _ => Iff.rfl
  refine hrest.gain hcov' (fun r hs hu => hu.2 hs) (fun r => (hused r).trans ?_) hclaims
  by_cases hr : S r
  · simp [hr, hS r hr]
  · simp [hr]

end

/-- The same resources are used, and no more claimed. -/
theorem mono (hused : ∀ r, used r → U r) (hclaims : ∀ o r, C o r → claims o r) : Owned U C where
  used_of_claim := fun hc => hused _ (h.used_of_claim (hclaims _ _ hc))
  unique := fun hc hc' => h.unique (hclaims _ _ hc) (hclaims _ _ hc')

/-- **Renaming**: an owner has what one owner had before, two never what the same one had, or what
    nobody had. -/
theorem rename (prev : O → O → Prop) (fresh : O → R → Prop)
    (hprev : ∀ {o o' p}, prev o p → prev o' p → o = o')
    (hfresh : ∀ {o o' r}, fresh o r → fresh o' r → o = o')
    (hnew : ∀ {o r}, fresh o r → U r ∧ ∀ p, ¬ claims p r) (hused : ∀ r, used r → U r)
    (hclaims : ∀ o r, C o r → (∃ p, prev o p ∧ claims p r) ∨ fresh o r) : Owned U C where
  used_of_claim := by
    intro o r hc
    rcases hclaims o r hc with ⟨p, -, hp⟩ | hf
    · exact hused r (h.used_of_claim hp)
    · exact (hnew hf).1
  unique := by
    intro o o' r hc hc'
    rcases hclaims o r hc with ⟨p, hop, hp⟩ | hf <;>
      rcases hclaims o' r hc' with ⟨p', hop', hp'⟩ | hf'
    · obtain rfl := h.unique hp hp'
      exact hprev hop hop'
    · exact absurd hp ((hnew hf').2 p)
    · exact absurd hp' ((hnew hf).2 p')
    · exact hfresh hf hf'

end

end Owned

end Pintos.Base
