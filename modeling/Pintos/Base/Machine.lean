/-
  Labelled machines and their runs.

  A `Machine σ α ε` has actions of which some are ENABLED in a state, and a step function that gives
  the next state or stops with a fault `ε`.  What a concurrent program can do is one interleaving of
  its actions, so a property of every interleaving is a property of every `Run`.

  1. **Runs** — `M.Run s₀ tr s`: `tr` lists the steps, each with the state it was taken IN, so that
     histories are functions of `tr`.

  2. **Guarded runs** — `M.guard C` allows the actions that satisfy `C` in the state they are taken in.

  3. **Rules** — `Run.invariant` (of the last state), `Run.history` (of the last state AND the steps),
     and `Run.always_iff`: a property holds all along a run exactly if all its steps meet a guard.

  4. **Replay** — `M.play s as` evaluates a schedule; `run_of_play` turns the evaluation into a run.
-/
import Mathlib.Data.List.Basic
import Pintos.Base.Stops

namespace Pintos.Base

open List

/-- A labelled machine: which actions are possible in a state, and what a step does. -/
structure Machine (σ α ε : Type) where
  /-- The action may be taken in this state. -/
  enabled : σ → α → Prop
  /-- One step: the next state, or the fault that stops the machine. -/
  step : σ → α → Except ε σ

namespace Machine

variable {σ α ε : Type}

/-- `M.Run s₀ tr s` — the machine started in `s₀`, took the steps `tr` and is now in `s`. -/
inductive Run (M : Machine σ α ε) (s₀ : σ) : List (σ × α) → σ → Prop where
  | nil : Run M s₀ [] s₀
  | snoc {tr s a s'} (h : Run M s₀ tr s) (he : M.enabled s a) (hs : M.step s a = .ok s') :
      Run M s₀ (tr ++ [(s, a)]) s'

/-- The machine that only takes the actions satisfying `C` in the state they are taken in. -/
def guard (M : Machine σ α ε) (C : σ → α → Prop) : Machine σ α ε where
  enabled s a := M.enabled s a ∧ C s a
  step := M.step

instance (M : Machine σ α ε) (C : σ → α → Prop) [∀ s a, Decidable (M.enabled s a)]
    [∀ s a, Decidable (C s a)] (s : σ) (a : α) : Decidable ((M.guard C).enabled s a) :=
  inferInstanceAs (Decidable (M.enabled s a ∧ C s a))

variable {M : Machine σ α ε} {C : σ → α → Prop} {s₀ s : σ} {tr : List (σ × α)}

theorem Run.of_guard (h : (M.guard C).Run s₀ tr s) : M.Run s₀ tr s := by
  induction h with
  | nil => exact Run.nil
  | snoc _ he hs ih => exact Run.snoc ih he.1 hs

theorem Run.guard_mono {C' : σ → α → Prop} (h : (M.guard C).Run s₀ tr s)
    (hC : ∀ s a, C s a → C' s a) : (M.guard C').Run s₀ tr s := by
  induction h with
  | nil => exact Run.nil
  | snoc _ he hs ih => exact Run.snoc ih ⟨he.1, hC _ _ he.2⟩ hs

section

variable (h : M.Run s₀ tr s)
include h

theorem Run.to_guard (hC : ∀ s a, C s a) : (M.guard C).Run s₀ tr s := by
  induction h with
  | nil => exact Run.nil
  | snoc _ he hs ih => exact Run.snoc ih ⟨he, hC _ _⟩ hs

/-- **The history rule**: a property of the steps taken and of the state they lead to, true of
    the start and kept by every step, is true of every run. -/
theorem Run.history {J : List (σ × α) → σ → Prop} (h0 : J [] s₀)
    (hstep : ∀ tr s a s', M.Run s₀ tr s → J tr s → M.enabled s a → M.step s a = .ok s' →
      J (tr ++ [(s, a)]) s') : J tr s := by
  induction h with
  | nil => exact h0
  | snoc hr he hs ih => exact hstep _ _ _ _ hr ih he hs

/-- **The invariant rule**: a property of states, true of the start and kept by every step, is
    true of every state reached. -/
theorem Run.invariant {I : σ → Prop} (h0 : I s₀)
    (hstep : ∀ s a s', I s → M.enabled s a → M.step s a = .ok s' → I s') : I s :=
  h.history (J := fun _ s => I s) h0 (fun _ s a s' _ hi he hs => hstep s a s' hi he hs)

theorem Run.guarded (hC : ∀ p ∈ tr, C p.1 p.2) : (M.guard C).Run s₀ tr s := by
  induction h with
  | nil => exact Run.nil
  | @snoc tr s a s' _ he hs ih =>
    have hlast : (s, a) ∈ tr ++ [(s, a)] := mem_append_right _ (mem_singleton.mpr rfl)
    exact Run.snoc (ih fun p hp => hC p (mem_append_left _ hp)) ⟨he, hC _ hlast⟩ hs

end

/-- The states a run goes through, the last one included. -/
def states (tr : List (σ × α)) (s : σ) : List σ := tr.map Prod.fst ++ [s]

/-- **The condition is exact**: if guarded runs keep to `P`, and a step against the guard leads out
    of it, then `P` holds all along a run exactly if its steps meet the guard. -/
theorem Run.always_iff {P : σ → Prop} (h : M.Run s₀ tr s)
    (hgood : ∀ {tr s}, (M.guard C).Run s₀ tr s → P s)
    (hbad : ∀ {tr s a s'}, M.Run s₀ tr s → M.enabled s a → M.step s a = .ok s' → ¬ C s a → ¬ P s') :
    (∀ x ∈ states tr s, P x) ↔ ∀ p ∈ tr, C p.1 p.2 := by
  induction h with
  | nil =>
    constructor
    · intro _ p hp
      cases hp
    · intro _ x hx
      obtain rfl := mem_singleton.mp hx
      exact hgood Run.nil
  | @snoc tr s a s' hr he hs ih =>
    have hstates : states (tr ++ [(s, a)]) s' = states tr s ++ [s'] := by simp [states]
    rw [hstates]
    constructor
    · intro hall p hp
      rcases mem_append.mp hp with hp | hp
      · exact ih.mp (fun x hx => hall x (mem_append_left _ hx)) p hp
      · obtain rfl := mem_singleton.mp hp
        by_contra hC
        exact hbad hr he hs hC (hall s' (mem_append_right _ (mem_singleton.mpr rfl)))
    · intro hC x hx
      rcases mem_append.mp hx with hx | hx
      · exact ih.mpr (fun p hp => hC p (mem_append_left _ hp)) x hx
      · obtain rfl := mem_singleton.mp hx
        exact hgood ((Run.snoc hr he hs).guarded hC)

/-! ## Replaying a list of actions -/

/-- Evaluate a list of actions; `none` as soon as one is not enabled or faults. -/
def play (M : Machine σ α ε) [∀ s a, Decidable (M.enabled s a)] :
    σ → List α → Option (List (σ × α) × σ)
  | s, [] => some ([], s)
  | s, a :: as =>
    if M.enabled s a then
      match M.step s a with
      | .ok s' => (play M s' as).map fun r => ((s, a) :: r.1, r.2)
      | .error _ => none
    else none

theorem Run.cons {a : α} {s' : σ} (he : M.enabled s₀ a) (hs : M.step s₀ a = .ok s')
    (h : M.Run s' tr s) : M.Run s₀ ((s₀, a) :: tr) s := by
  induction h with
  | nil =>
    exact Run.snoc Run.nil he hs
  | snoc _ he' hs' ih =>
    rw [← cons_append]
    exact Run.snoc ih he' hs'

theorem run_of_play [∀ s a, Decidable (M.enabled s a)] :
    ∀ (as : List α) (s₀ : σ) {tr : List (σ × α)} {s : σ},
      M.play s₀ as = some (tr, s) → M.Run s₀ tr s
  | [], s₀, tr, s, h => by
    simp only [play, Option.some.injEq, Prod.mk.injEq] at h
    rw [← h.1, ← h.2]
    exact Run.nil
  | a :: as, s₀, tr, s, h => by
    simp only [play] at h
    split at h
    · rename_i he
      cases hs : M.step s₀ a with
      | ok s' =>
        simp only [hs] at h
        obtain ⟨r, hr, hrs⟩ := Option.map_eq_some_iff.mp h
        obtain ⟨htr, rfl⟩ := Prod.mk.inj hrs
        rw [← htr]
        exact Run.cons he hs (run_of_play as s' hr)
      | error => simp [hs] at h
    · cases h

variable (M : Machine σ α ε) (s₀ : σ) (as : List α)

/-- A schedule whose evaluation ends with `p` true exhibits a run that ends with `p` true. -/
theorem exists_run_of_play [∀ s a, Decidable (M.enabled s a)] (p : List (σ × α) → σ → Bool)
    (h : (M.play s₀ as).any (fun r => p r.1 r.2) = true) :
    ∃ tr s, M.Run s₀ tr s ∧ p tr s = true := by
  cases hr : M.play s₀ as with
  | none => simp [hr] at h
  | some r =>
    rw [hr] at h
    exact ⟨r.1, r.2, run_of_play as s₀ hr, h⟩

/-- Likewise for a property that is decided. -/
theorem exists_reached [∀ s a, Decidable (M.enabled s a)] (P : List (σ × α) → σ → Prop)
    [∀ tr, DecidablePred (P tr)] (h : (M.play s₀ as).any (fun r => decide (P r.1 r.2)) = true) :
    ∃ tr s, M.Run s₀ tr s ∧ P tr s := by
  obtain ⟨tr, s, hr, hp⟩ := M.exists_run_of_play s₀ as (fun tr s => decide (P tr s)) h
  exact ⟨tr, s, hr, of_decide_eq_true hp⟩

/-- Likewise for the value of a computation from there, such as one more step. -/
theorem exists_value {ε' β : Type} [∀ s a, Decidable (M.enabled s a)] (f : σ → Except ε' β)
    (P : σ → Prop) (Q : σ → β → Prop) [DecidablePred P]
    [∀ s, DecidablePred (Q s)] (h : (M.play s₀ as).any (fun r => decide (P r.2) &&
      (f r.2).toOption.any fun x => decide (Q r.2 x)) = true) :
    ∃ tr s x, M.Run s₀ tr s ∧ P s ∧ f s = .ok x ∧ Q s x := by
  obtain ⟨tr, s, hr, hs⟩ := M.exists_run_of_play s₀ as (fun _ s => decide (P s) &&
    (f s).toOption.any fun x => decide (Q s x)) h
  obtain ⟨hp, hany⟩ := Bool.and_eq_true_iff.mp hs
  obtain ⟨x, hx, hq⟩ := exists_ok_of_any hany
  exact ⟨tr, s, x, hr, of_decide_eq_true hp, hx, of_decide_eq_true hq⟩

end Machine
end Pintos.Base
