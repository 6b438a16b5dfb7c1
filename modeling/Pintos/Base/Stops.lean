/-
  Computations that may stop.

  A kernel routine that follows addresses it was handed either comes to a value or stops: it faults,
  panics, or ends the process that asked.  In `Except ε α` the reason is the `ε`, and what has to be
  shown is mostly WHICH reasons are possible.

  `Stops P m` says that `m` stops only for reasons in `P`, and `Returns Q m` that its value, if it
  comes to one, satisfies `Q`; both compose along `bind`, and the continuation is judged only at the
  value that was really produced.  `Meets P Q m` is the two together, the form in which a loop has an
  invariant (`Meets.foldlM`).
-/
import Mathlib.Logic.Basic

namespace Pintos.Base

variable {ε α β : Type} {f : α → Except ε β} {m' : Except ε α} {I : List β → α → Prop}

/-- If `m` stops, the reason satisfies `P`. -/
def Stops (P : ε → Prop) (m : Except ε α) : Prop := ∀ e, m = .error e → P e

variable {P : ε → Prop}

namespace Stops

variable {Q : ε → Prop}

@[simp] theorem ok (a : α) : Stops P (.ok a : Except ε α) := by
  intro e he
  cases he

@[simp] theorem pure (a : α) : Stops P (Pure.pure a : Except ε α) := ok a

theorem error {e : ε} (h : P e) : Stops P (.error e : Except ε α) := by
  intro e' he
  cases he
  exact h

theorem mono {m : Except ε α} (h : Stops P m) (hPQ : ∀ e, P e → Q e) : Stops Q m :=
  fun e he => hPQ e (h e he)

/-- **Sequencing.** -/
theorem bind {m : Except ε α} (hm : Stops P m)
    (hf : ∀ a, m = .ok a → Stops P (f a)) : Stops P (m >>= f) := by
  intro e he
  cases m with
  | error e' =>
    have : e' = e := by simpa [Bind.bind, Except.bind] using he
    exact this ▸ hm e' rfl
  | ok a => exact hf a rfl e he

theorem ite {c : Prop} [Decidable c] {m : Except ε α} (h : c → Stops P m)
    (h' : ¬ c → Stops P m') : Stops P (if c then m else m') := by
  split
  · exact h ‹_›
  · exact h' ‹_›

end Stops

/-- If `m` comes to a value, the value satisfies `Q`. -/
def Returns (Q : α → Prop) (m : Except ε α) : Prop := ∀ a, m = .ok a → Q a

/-- The rest goes on from the value. -/
theorem ok_bind (a : α) (f : α → Except ε β) : (Except.ok a >>= f) = f a := rfl

variable {m : Except ε α}

theorem bind_of_ok {a : α} {r : Except ε β} (hm : m = .ok a) (hf : f a = r) : m >>= f = r := by
  rwa [hm]

/-- What a sequence comes to: the first computation has a value, and the rest goes on from it. -/
theorem bind_eq_ok {b : β} : m >>= f = .ok b ↔ ∃ a, m = .ok a ∧ f a = .ok b := by
  cases m with
  | error =>
    constructor
    · nofun
    · rintro ⟨a, h, -⟩
      cases h
  | ok a =>
    constructor
    · intro h
      exact ⟨a, rfl, h⟩
    · rintro ⟨a', h, hf⟩
      cases h
      exact hf

section Checks

variable {c : Prop} [Decidable c] {e : ε} {a b : α}

/-- Past a check that stops where `c` is false. -/
theorem ok_of_guard (h : (if c then m else .error e) = .ok b) : c ∧ m = .ok b := by
  split at h
  · exact ⟨‹_›, h⟩
  · cases h

/-- Past a check that stops where `c` is true. -/
theorem ok_of_check (h : (if c then .error e else m) = .ok b) : ¬ c ∧ m = .ok b := by
  split at h
  · cases h
  · exact ⟨‹_›, h⟩

theorem eq_of_guard (h : (if c then .ok a else .error e : Except ε α) = .ok b) : c ∧ a = b := by
  obtain ⟨hc, ha⟩ := ok_of_guard h
  exact ⟨hc, Except.ok.inj ha⟩

end Checks

/-- A computation whose value is seen to satisfy `p`. -/
theorem exists_ok_of_any {p : α → Bool} (h : m.toOption.any p = true) :
    ∃ a, m = .ok a ∧ p a = true := by
  cases m with
  | error => cases h
  | ok a => exact ⟨a, rfl, h⟩

namespace Returns

theorem error (Q : α → Prop) (e : ε) : Returns Q (.error e : Except ε α) := by
  intro a h
  cases h

theorem bind {Q : β → Prop} (hf : ∀ a, m = .ok a → Returns Q (f a)) : Returns Q (m >>= f) := by
  intro b hb
  obtain ⟨a, ha, hfa⟩ := bind_eq_ok.mp hb
  exact hf a ha b hfa

end Returns

/-- `m` comes to a value that satisfies `Q`, or stops for a reason in `P`. -/
def Meets (P : ε → Prop) (Q : α → Prop) (m : Except ε α) : Prop := Stops P m ∧ Returns Q m

namespace Meets

variable {Q : α → Prop}

theorem ok {a : α} (h : Q a) : Meets P Q (.ok a : Except ε α) := by
  refine ⟨Stops.ok a, ?_⟩
  intro a' ha
  cases ha
  exact h

theorem error {e : ε} (h : P e) : Meets P Q (.error e : Except ε α) :=
  ⟨Stops.error h, Returns.error Q e⟩

variable {R : β → Prop}

theorem bind (hm : Meets P Q m) (hf : ∀ a, Q a → Meets P R (f a)) : Meets P R (m >>= f) :=
  ⟨hm.1.bind fun a ha => (hf a (hm.2 a ha)).1, Returns.bind fun a ha => (hf a (hm.2 a ha)).2⟩

/-- Sequencing, where nothing is known about the first value. -/
theorem bind_stops (hm : Stops P m) (hf : ∀ a, Meets P R (f a)) : Meets P R (m >>= f) :=
  bind (Q := fun _ => True) ⟨hm, fun _ _ => trivial⟩ fun a _ => hf a

theorem weaken {P' : ε → Prop} (h : Meets P Q m) (hP : ∀ e, P e → P' e) : Meets P' Q m :=
  ⟨h.1.mono hP, h.2⟩

theorem mono {Q' : α → Prop} (h : Meets P Q m) (hQ : ∀ a, Q a → Q' a) : Meets P Q' m :=
  ⟨h.1, fun a ha => hQ a (h.2 a ha)⟩

theorem ite {c : Prop} [Decidable c] (h : c → Meets P Q m)
    (h' : ¬ c → Meets P Q m') : Meets P Q (if c then m else m') := by
  split
  · exact h ‹_›
  · exact h' ‹_›

/-- A computation that never stops has a value. -/
theorem exists_ok (h : Meets (fun _ => False) Q m) : ∃ a, m = .ok a ∧ Q a := by
  cases m with
  | error e => exact (h.1 e rfl).elim
  | ok a => exact ⟨a, rfl, h.2 a rfl⟩

/-- **The rule for a loop over a list**: the invariant speaks of what is left of the list, and holds
    wherever the loop has come to. -/
theorem foldlM_append {f : α → β → Except ε α}
    (hf : ∀ x xs a, I (x :: xs) a → Meets P (I xs) (f a x)) (rest : List β) :
    ∀ (l : List β) (a : α), I (l ++ rest) a → Meets P (I rest) (l.foldlM f a)
  | [], _, h => Meets.ok h
  | x :: xs, a, h => (hf x (xs ++ rest) a h).bind fun a' ha => foldlM_append hf rest xs a' ha

/-- At the end of the loop nothing is left. -/
theorem foldlM {f : α → β → Except ε α}
    (hf : ∀ x xs a, I (x :: xs) a → Meets P (I xs) (f a x)) (l : List β) (a : α) (h : I l a) :
    Meets P (I []) (l.foldlM f a) :=
  foldlM_append hf [] l a (by rwa [List.append_nil])

end Meets

end Pintos.Base
