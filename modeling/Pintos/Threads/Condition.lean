/-
  Condition variables: who is signalled, and which assertions fail on the way.

  `cond_wait` puts its `semaphore_elem` on the condition, releases the lock and only then blocks;
  `cond_signal` sorts the condition by the priority of the thread at the FRONT of each private
  semaphore, and then pops.  So the sort looks at an empty list when a waiter has been preempted in
  between, and the pop when nobody waits (`cond_signal_assertions_fail`).

  1. **Waiters** (`waiters_balance`) — a condition holds those that have entered `cond_wait` and
     have not been signalled, each once (`Pintos.Threads.CondWait`).

  2. **Signals, broadcasts** (`Signalling`, `Broadcasting`) — between its sort and its pop a signaller
     holds the lock, so the condition is as it sorted it.

  3. **The theorem** (`condition_variables`) — where callers keep the contract and each `cond_signal`
     finds one waiter, or blocked waiters only: no assertion fails, a signal wakes a waiter of the
     highest priority, a broadcast wakes each once.
-/
import Pintos.Threads.CondWait
import Pintos.Threads.Contract
import Pintos.Threads.Priority

namespace Pintos.Threads

open Lib Base Kernel Function
open List hiding head

/-! ## History -/

/-- The threads that have entered `cond_wait (c)`, after one more step. -/
def enteredStep (c : CondRef) (w : List ThreadRef) (p : Kernel × Action) : List ThreadRef :=
  match p.1.does p.2 with
  | some (.condWait c' _) => if c' = c then p.1.current :: w else w
  | _ => w

/-- The threads that have entered `cond_wait (c)`, with repetition. -/
def entered (c : CondRef) (tr : List (Kernel × Action)) : List ThreadRef :=
  tr.foldl (enteredStep c) []

/-- The threads that a `cond_signal (c)` has popped, after one more step. -/
def signalledStep (c : CondRef) (w : List ThreadRef) (p : Kernel × Action) : List ThreadRef :=
  match p.1.does p.2 with
  | some (.condPop c') => if c' = c then (p.1.condWaiters c).head?.toList ++ w else w
  | _ => w

/-- The threads that a `cond_signal (c)` has popped, with repetition. -/
def signalled (c : CondRef) (tr : List (Kernel × Action)) : List ThreadRef :=
  tr.foldl (signalledStep c) []

/-- The state in which the last `cond_signal (c)` sorted, after one more step. -/
def lastSignalStep (c : CondRef) (o : Option Kernel) (p : Kernel × Action) : Option Kernel :=
  match p.1.does p.2 with
  | some (.condSignal c' _) => if c' = c then some p.1 else o
  | _ => o

/-- The state in which the last `cond_signal (c)` started. -/
def lastSignal (c : CondRef) (tr : List (Kernel × Action)) : Option Kernel :=
  tr.foldl (lastSignalStep c) none

/-! ## The condition -/

/-- A `cond_signal (c)` can sort and pop: somebody waits, and if more than one thread does then all
    of them are blocked already. -/
def signalReady (k : Kernel) (c : CondRef) : Prop := k.condWaiters c ≠ [] ∧
    ((k.condWaiters c).length = 1 ∨ ∀ w ∈ k.condWaiters c, (k.sema (.waiter w)).waiters ≠ [])

instance (k : Kernel) (c : CondRef) : Decidable (signalReady k c) :=
  inferInstanceAs (Decidable (_ ∧ (_ ∨ _)))

/-- **The condition on a step**: the caller keeps the contract, and a signal is ready. -/
def condOk (lockOf : CondRef → LockRef) (k : Kernel) (a : Action) : Bool :=
  keepsContract lockOf k a &&
    match k.does a with
    | some (.condSignal c _) => decide (signalReady k c)
    | _ => true

/-! ## The invariant -/

/-- What holds in every state of a run that meets the condition. -/
structure CondInv (b : Boot) (lockOf : CondRef → LockRef) (k : Kernel) : Prop where
  life : Alive b k
  code : CodeInv k
  waits : WaitCode k
  contract : Contract lockOf k
  wait : ∀ w, WaitState w k

/-- The sections that look at or change the waiters of `c`. -/
def onCond (c : CondRef) : Instr → Bool
  | .condWait c' _ | .condSignal c' _ | .condPop c' => c' = c
  | _ => false

variable {b : Boot} {lockOf : CondRef → LockRef} {k k' : Kernel} {a : Action} {c : CondRef}
  {i : Instr}

namespace CondInv

theorem init (b : Boot) (lockOf : CondRef → LockRef) : CondInv b lockOf (boot b) :=
  ⟨Life.init b, CodeInv.init b, WaitCode.init b, Contract.init b lockOf, WaitState.init b⟩

section

variable (h : CondInv b lockOf k)
include h

theorem runStep (ha : k.enabled a = true) (hs : k.step a = .ok k') : RunStep b k a k' :=
  ⟨⟨step_effect hs, ha, h.life⟩, h.code⟩

theorem step (ha : k.enabled a = true) (hok : condOk lockOf k a = true)
    (hs : k.step a = .ok k') : CondInv b lockOf k' := by
  have he := h.runStep ha hs
  have hk : keepsContract lockOf k a = true := by
    simp only [condOk, Bool.and_eq_true] at hok
    exact hok.1
  exact ⟨(h.life.step ha).1 k' hs, he.codeInv, h.waits.step he,
    h.contract.step he hk, fun w => (h.wait w).step h.waits he⟩

/-- **Only the holder of its lock works on a condition.** -/
theorem holds_onCond (ha : k.enabled a = true) (hd : k.does a = some i) (hi : onCond c i = true) :
    a = .exec ∧ k.holder (lockOf c) = some k.current := by
  obtain ⟨rfl, hh⟩ := exec_of_does ha hd (by rintro n rfl; simp [onCond] at hi)
    (by rintro n rfl; simp [onCond] at hi)
  refine ⟨rfl, ?_⟩
  obtain ⟨is, -, hs⟩ := h.contract.safe_head hh
  cases i with
  | condWait c' l | condSignal c' l =>
    obtain rfl : c' = c := by simpa [onCond] using hi
    obtain ⟨⟨rfl, hheld⟩, -⟩ := hs
    exact hheld
  | condPop c' =>
    obtain rfl : c' = c := by simpa [onCond] using hi
    exact hs.1
  | _ => simp [onCond] at hi

/-- While `t` holds the lock and does not execute, nobody works on the condition. -/
theorem not_onCond (ha : k.enabled a = true) {t : ThreadRef}
    (ht : k.holder (lockOf c) = some t) (hne : t = k.current → a ≠ .exec)
    (hd : k.does a = some i) : onCond c i = false := by
  by_contra hx
  obtain ⟨hexec, hh⟩ := h.holds_onCond ha hd (by simpa using hx)
  exact hne (Option.some.inj (ht.symm.trans hh)) hexec

theorem nodup (c : CondRef) : (k.condWaiters c).Nodup := by
  refine nodup_iff_count_le_one.mpr fun w => ?_
  cases h.wait w with
  | out _ hc | popped _ _ _ hc | upped _ _ hc => rw [hc c]; omega
  | listed c' _ _ hc =>
    rw [hc c]
    split <;> omega

/-- The first thread on a private semaphore is the one it belongs to. -/
theorem condFront_self {w : ThreadRef}
    (hw : (k.sema (.waiter w)).waiters ≠ []) : k.condFront w = some w := by
  cases hws : (k.sema (.waiter w)).waiters with
  | nil => exact absurd hws hw
  | cons t =>
    obtain ⟨-, -, hh⟩ := h.life.waiting (.waiter w) t (by rw [hws]; exact mem_cons_self ..)
    have hown := h.waits.owner t w _ (mem_of_mem_head? hh) (by simp [isDownOf])
    rw [condFront, hws, hown]
    rfl

end

end CondInv

/-! ## Waiters -/

theorem condWaiters_of_not_onCond (he : RunStep b k a k')
    (hd : ∀ i, k.does a = some i → onCond c i = false) : k'.condWaiters c = k.condWaiters c := by
  rw [he.condWaiters]
  cases hx : k.does a with
  | none => rfl
  | some i =>
    have hi := hd i hx
    cases i with
    | condWait c' l | condSignal c' l | condPop c' =>
      have hne : c ≠ c' := fun hcc => by simp [onCond, hcc] at hi
      simp [condAfter, hne]
    | _ => rfl

/-- Signals move waiters from the condition to the signalled. -/
theorem signalled_balance (he : RunStep b k a k') (S : List ThreadRef)
    (hd : ∀ l, k.does a ≠ some (.condWait c l)) :
    (signalledStep c S (k, a) ++ k'.condWaiters c).Perm (S ++ k.condWaiters c) := by
  by_cases hon : ∃ i, k.does a = some i ∧ onCond c i = true
  · obtain ⟨i, hx, hi⟩ := hon
    rw [he.condWaiters, hx]
    show (signalledStep c S (k, a) ++ k.condAfter i c).Perm _
    cases i with
    | condWait c' l =>
      obtain rfl : c' = c := by simpa [onCond] using hi
      exact absurd hx (hd l)
    | condSignal c' =>
      obtain rfl : c' = c := by simpa [onCond] using hi
      simp only [signalledStep, hx, condAfter, update_self]
      exact (listSort_perm _ _).append_left S
    | condPop c' =>
      obtain rfl : c' = c := by simpa [onCond] using hi
      simp only [signalledStep, hx, condAfter, update_self, if_true]
      cases k.condWaiters c' with
      | nil => exact Perm.refl _
      | cons =>
        exact perm_middle.symm
    | _ => simp [onCond] at hi
  · have hsame : signalledStep c S (k, a) = S := by
      unfold signalledStep
      split
      · rename_i c' hx
        exact if_neg fun hcc => hon ⟨_, hx, by simp [onCond, hcc]⟩
      · rfl
    rw [hsame, condWaiters_of_not_onCond he fun i hx => by
      by_contra hi
      exact hon ⟨i, hx, by simpa using hi⟩]

/-- **One step** keeps the balance of entries, signals and waiters. -/
theorem waiters_balance (he : RunStep b k a k') {E S : List ThreadRef}
    (h : E.Perm (S ++ k.condWaiters c)) :
    (enteredStep c E (k, a)).Perm (signalledStep c S (k, a) ++ k'.condWaiters c) := by
  by_cases hd : ∃ l, k.does a = some (.condWait c l)
  · obtain ⟨l, hx⟩ := hd
    rw [he.condWaiters, hx]
    simp only [enteredStep, signalledStep, hx, if_true, Option.elim_some, condAfter, update_self]
    -- the new waiter goes to the back of the condition
    rw [← append_assoc]
    exact (h.cons _).trans (perm_append_singleton _ _).symm
  · have hsame : enteredStep c E (k, a) = E := by
      unfold enteredStep
      split
      · rename_i c' l hx
        refine if_neg ?_
        rintro rfl
        exact hd ⟨l, hx⟩
      · rfl
    rw [hsame]
    exact h.trans (signalled_balance he S fun l hx => hd ⟨l, hx⟩).symm

/-! ## Signals -/

/-- `w` has the highest priority of those waiting on `c`. -/
def HighestWaiter (k : Kernel) (c : CondRef) (w : ThreadRef) : Prop :=
  w ∈ k.condWaiters c ∧ ∀ u ∈ k.condWaiters c, k.prio u ≤ k.prio w

/-- **A signaller finds the condition as it sorted it**: the first of the waiters had the highest
    priority when the `cond_signal` started. -/
def Signalling (tr : List (Kernel × Action)) (k : Kernel) : Prop :=
  ∀ t c, k.head t = some (.condPop c) → ∃ k₀ w ws, lastSignal c tr = some k₀ ∧ k₀.current = t ∧
    k.condWaiters c = w :: ws ∧ (w :: ws).Perm (k₀.condWaiters c) ∧ HighestWaiter k₀ c w

theorem lastSignal_snoc (c : CondRef) (tr : List (Kernel × Action)) (p : Kernel × Action) :
    lastSignal c (tr ++ [p]) = lastSignalStep c (lastSignal c tr) p := by
  simp [lastSignal, foldl_append]

/-- The sort of a `cond_signal` that is ready puts a highest waiter in front. -/
theorem CondInv.sort_highest (h : CondInv b lockOf k) (hr : signalReady k c) :
    ∃ w ws, listSort k.condvarDescSort (k.condWaiters c) = w :: ws ∧ HighestWaiter k c w := by
  obtain ⟨hne, hwait⟩ := hr
  have hperm := listSort_perm k.condvarDescSort (k.condWaiters c)
  cases hsort : listSort k.condvarDescSort (k.condWaiters c) with
  | nil =>
    rw [hsort] at hperm
    exact absurd hperm.symm.eq_nil hne
  | cons w ws =>
    rw [hsort] at hperm
    refine ⟨w, ws, rfl, hperm.subset (mem_cons_self ..), fun u hu => ?_⟩
    rcases mem_cons.mp (hperm.symm.subset hu) with rfl | hmem
    · exact Int.le_refl _
    rcases hwait with hone | hall
    · -- with one waiter there is nobody else
      have hlen := hperm.length_eq
      rw [hone, length_cons] at hlen
      rw [length_eq_zero_iff.mp (by omega : ws.length = 0)] at hmem
      exact absurd hmem not_mem_nil
    · have hsorted := listSort_sorted (strictWeak_desc k.condKey) (k.condWaiters c)
      have hsort' : listSort (fun x y => decide (k.condKey y < k.condKey x)) (k.condWaiters c) =
          w :: ws := hsort
      rw [hsort'] at hsorted
      have hle : ¬ k.condKey w < k.condKey u :=
        of_decide_eq_false (rel_of_pairwise_cons hsorted hmem)
      -- the front of each private semaphore is its owner
      have hkey : ∀ x ∈ k.condWaiters c, k.condKey x = k.prio x := by
        intro x hx
        rw [condKey, h.condFront_self (hall x hx)]
        rfl
      rw [hkey u hu, hkey w (hperm.subset (mem_cons_self ..))] at hle
      omega

/-- **One step** keeps what signallers find. -/
theorem Signalling.step {tr : List (Kernel × Action)} (h : Signalling tr k)
    (hinv : CondInv b lockOf k) (ha : k.enabled a = true) (hok : condOk lockOf k a = true)
    (hs : k.step a = .ok k') : Signalling (tr ++ [(k, a)]) k' := by
  intro t c ht
  have he := hinv.runStep ha hs
  rw [lastSignal_snoc]
  rcases he.head_step ht rfl (by simp) (by simp) with
    ⟨hold, hne⟩ | ⟨rfl, rfl, i, hi, hinto⟩
  · -- it was there before, so it holds the lock
    obtain ⟨is, -, hsafe⟩ := hinv.contract.safe_head hold
    have hnot : ∀ i, k.does a = some i → onCond c i = false :=
      fun i hd => hinv.not_onCond ha hsafe.1 hne hd
    obtain ⟨k0, w, ws, h1, h2, h3, h4, h5⟩ := h t c hold
    refine ⟨k0, w, ws, ?_, h2, (condWaiters_of_not_onCond he hnot).trans h3, h4, h5⟩
    unfold lastSignalStep
    split
    · rename_i c' l hx
      rw [if_neg fun hcc => by simpa [onCond, hcc] using hnot _ hx, h1]
    · exact h1
  · -- it has just sorted
    cases hinto with
    | sort =>
      rename_i l
      have hd : k.does .exec = some (.condSignal c l) := hi
      have hready : signalReady k c := by
        simpa [condOk, hd, keepsContract] using hok
      obtain ⟨w, ws, hsort, hhigh⟩ := hinv.sort_highest hready
      refine ⟨k, w, ws, by simp [lastSignalStep, hd], rfl, ?_, ?_, hhigh⟩
      · rw [he.condWaiters, hd]
        simp [condAfter, hsort]
      · rw [← hsort]
        exact listSort_perm _ _

/-! ## No assertion fails -/

theorem condComparable_of_blocked :
    ∀ ws : List ThreadRef, (∀ w ∈ ws, (k.condFront w).isSome = true) → k.condComparable ws = true
  | [], _ => rfl
  | [_], _ => rfl
  | x :: y :: ws, h => by
    have hx := h x (mem_cons_self ..)
    have hy := h y (mem_cons_of_mem _ (mem_cons_self ..))
    have hrest := condComparable_of_blocked (y :: ws) fun w hw => h w (mem_cons_of_mem _ hw)
    simp [condComparable, hx, hy, hrest]

/-- The sort of a `cond_signal` that is ready compares blocked waiters only. -/
theorem CondInv.comparable (h : CondInv b lockOf k) (hr : signalReady k c) :
    k.pop.condComparable (k.condWaiters c) = true := by
  rcases hr.2 with hone | hall
  · obtain ⟨w, hw⟩ := length_eq_one_iff.mp hone
    rw [hw]
    rfl
  · refine condComparable_of_blocked _ fun w hw => ?_
    show (k.condFront w).isSome = true
    rw [h.condFront_self (hall w hw)]
    rfl

/-- **No assertion fails.** -/
theorem CondInv.no_assertion {tr : List (Kernel × Action)} (h : CondInv b lockOf k)
    (hsig : Signalling tr k) (ha : k.enabled a = true) (hok : condOk lockOf k a = true)
    {f : Fault} (hf : k.step a = .error f) : f.isAssertion = false := by
  by_cases hat : Contract.atSignal (k.does a) = true
  · exfalso
    -- the two `list_front's of `cond_signal'
    cases hd : k.does a with
    | none => rw [hd] at hat; simp [Contract.atSignal] at hat
    | some i =>
      rw [hd] at hat
      cases i with
      | condSignal c l =>
        obtain ⟨rfl, hh⟩ := exec_of_does ha hd
        obtain ⟨is, hcode, hsafe⟩ := h.contract.safe_head hh
        have hready : signalReady k c := by
          simpa [condOk, hd, keepsContract] using hok
        have hheld : k.pop.holder l = some k.pop.current := hsafe.1.2
        have hcmp : k.pop.condComparable (k.pop.condWaiters c) = true := h.comparable hready
        simp [Kernel.step, h.life.current_running, act, hcode, execInstr, Kernel.condSignal,
          hheld, hcmp, continues, finish] at hf
      | condPop c =>
        obtain ⟨rfl, hh⟩ := exec_of_does ha hd
        obtain ⟨is, hcode, -⟩ := h.contract.safe_head hh
        obtain ⟨-, w, ws, -, -, hw, -⟩ := hsig _ _ hh
        have hw' : k.pop.condWaiters c = w :: ws := hw
        simp [Kernel.step, h.life.current_running, act, hcode, execInstr, Kernel.condPop, hw',
          continues, finish] at hf
      | _ => simp [Contract.atSignal] at hat
  · exact h.contract.no_assertion h.life ha hf (by simpa using hat)

/-! ## Broadcasts -/

/-- Where a thread that has called `cond_broadcast (c, l)` can be. -/
inductive BroadcastCode (c : CondRef) (l : LockRef) : List Instr → Prop
  | test : BroadcastCode c l [.condBroadcast c l]
  | signal : BroadcastCode c l [.condSignal c l, .condBroadcast c l]
  | pop : BroadcastCode c l [.condPop c, .condBroadcast c l]
  | up (w : ThreadRef) : BroadcastCode c l [.semaUp (.waiter w), .condBroadcast c l]
  | yield (u : ThreadRef) : BroadcastCode c l [.semaUpYield u, .condBroadcast c l]
  | done : BroadcastCode c l []

/-- **A broadcast on its way**: of the waiters `ws` it started with, it has signalled some and the
    condition holds the others. -/
structure Broadcasting (c : CondRef) (l : LockRef) (t : ThreadRef) (ws : List ThreadRef)
    (tr : List (Kernel × Action)) (k : Kernel) : Prop where
  code : BroadcastCode c l (k.code t)
  waiters : (signalled c tr ++ k.condWaiters c).Perm ws
  done : k.code t = [] → k.condWaiters c = []

namespace Broadcasting

variable {l : LockRef} {t : ThreadRef} {ws : List ThreadRef} {tr : List (Kernel × Action)}

theorem holds (h : Broadcasting c l t ws tr k) (hinv : CondInv b lockOf k) (hne : k.code t ≠ []) :
    k.holder (lockOf c) = some t := by
  have hsafe := hinv.contract.safe t
  have hcode := h.code
  generalize k.code t = code at hsafe hcode hne
  cases hcode with
  | test | signal =>
    obtain ⟨⟨rfl, hheld⟩, -⟩ := hsafe
    exact hheld
  | pop => exact hsafe.1
  | up w | yield u =>
    obtain ⟨⟨rfl, hheld⟩, -⟩ : (l = lockOf c ∧ k.holds t l) ∧ _ := hsafe
    exact hheld
  | done => exact absurd rfl hne

theorem step (h : Broadcasting c l t ws tr k) (hinv : CondInv b lockOf k) (hne : k.code t ≠ [])
    (he : RunStep b k a k') : Broadcasting c l t ws (tr ++ [(k, a)]) k' := by
  have hholds := h.holds hinv hne
  have hsnoc : signalled c (tr ++ [(k, a)]) = signalledStep c (signalled c tr) (k, a) := by
    simp [signalled, foldl_append]
  cases he.codeStep t with
  | same hc hx =>
    have hnot : ∀ i, k.does a = some i → onCond c i = false :=
      fun i hd => hinv.not_onCond he.possible hholds hx hd
    refine ⟨hc ▸ h.code, ?_, fun hnil => absurd (hc ▸ hnil) hne⟩
    rw [hsnoc]
    refine (signalled_balance he _ fun l hd => ?_).trans h.waiters
    have := hnot _ hd
    simp [onCond] at this
  | new _ _ hnew => exact absurd (hinv.life.codeAlive t hne) hnew
  | call i ht hx =>
    subst hx ht
    exact absurd (code_nil_of_call he.possible) hne
  | exit _ _ hh =>
    have hcode := h.code
    unfold head at hh
    generalize k.code t = code at hcode hh
    cases hcode <;> simp at hh
  | exec i is ht hx hc hc' _ =>
    subst ht hx
    have hd : k.does .exec = some i := by simp [does, head, hc]
    have hcode := h.code
    rw [hc] at hcode
    refine ⟨?_, ?_, fun hnil => ?_⟩
    · rw [hc']
      cases hcode with
      | test =>
        simp only [leaves]
        split
        · exact .done
        · exact .signal
      | signal => exact .pop
      | pop =>
        simp only [leaves]
        split
        · exact .test
        · exact .up _
      | up =>
        simp only [leaves]
        split
        · exact .test
        · exact .yield _
      | yield => exact .test
    · rw [hsnoc]
      refine (signalled_balance he _ fun l hd' => ?_).trans h.waiters
      rw [hd] at hd'
      cases hd'
      cases hcode
    · -- only the test of the loop leaves the function
      rw [hc'] at hnil
      cases hcode with
      | test =>
        have hw : k.condWaiters c = [] := by
          by_contra hx
          simp [leaves, hx] at hnil
        rwa [he.condWaiters, hd]
      | signal | pop | up w | yield u => simp at hnil

end Broadcasting

/-! ## The theorem -/

theorem cond_run {tr : List (Kernel × Action)}
    (h : (kernelMachine.guard fun k a => condOk lockOf k a = true).Run (boot b) tr k) :
    CondInv b lockOf k ∧ Signalling tr k ∧
    ∀ c, (entered c tr).Perm (signalled c tr ++ k.condWaiters c) := by
  refine h.history (J := fun tr k => CondInv b lockOf k ∧ Signalling tr k ∧
    ∀ c, (entered c tr).Perm (signalled c tr ++ k.condWaiters c)) ⟨CondInv.init b lockOf, ?_, ?_⟩ ?_
  · intro t c ht
    simp only [head, boot] at ht
    split at ht
    · simp at ht
    · split at ht <;> simp at ht
  · intro c
    exact Perm.refl []
  · rintro tr k a k' - ⟨hinv, hsig, hbal⟩ ⟨ha, hok⟩ hs
    refine ⟨hinv.step ha hok hs, hsig.step hinv ha hok hs, fun c => ?_⟩
    have hstep := waiters_balance (hinv.runStep ha hs) (hbal c)
    simpa [entered, signalled, foldl_append] using hstep

/-- **Condition variables.**  On every run whose callers keep the contract, and whose
    `cond_signal`s find at least one waiter, and either only one or only blocked ones:

    * no assertion fails;
    * the waiters of a condition are, once each, those that have entered `cond_wait` and have not
      been signalled, blocked or not;
    * a `cond_signal` takes one waiter off, one of the highest priority when the call sorted, ups
      the private semaphore of that one from 0 to 1 and no other semaphore;
    * a `cond_broadcast` signals each waiter it finds exactly once and leaves none. -/
theorem condition_variables {tr : List (Kernel × Action)}
    (h : (kernelMachine.guard fun k a => condOk lockOf k a = true).Run (boot b) tr k) :
    (∀ a f, k.enabled a = true → condOk lockOf k a = true → k.step a = .error f →
      f.isAssertion = false) ∧
    (∀ c, (k.condWaiters c).Nodup ∧ (entered c tr).Perm (signalled c tr ++ k.condWaiters c)) ∧
    (∀ c k', k.head k.current = some (.condPop c) → k.step .exec = .ok k' →
      ∃ k₀ w ws, lastSignal c tr = some k₀ ∧ k₀.current = k.current ∧
        (k.condWaiters c).Perm (k₀.condWaiters c) ∧ HighestWaiter k₀ c w ∧
        k.condWaiters c = w :: ws ∧ k'.condWaiters c = ws ∧ k'.sema = k.sema ∧
        k'.head k.current = some (.semaUp (.waiter w))) ∧
    (∀ w k', k.head k.current = some (.semaUp (.waiter w)) → k.step .exec = .ok k' →
      (k.sema (.waiter w)).value = 0 ∧ (k'.sema (.waiter w)).value = 1 ∧
      ∀ s, s ≠ .waiter w → k'.sema s = k.sema s) ∧
    (∀ c l tr' k', k.code k.current = [.condBroadcast c l] →
      (kernelMachine.guard fun k₁ a => condOk lockOf k₁ a = true ∧ k₁.code k.current ≠ []).Run k
        tr' k' →
      k'.code k.current = [] →
      (signalled c tr').Perm (k.condWaiters c) ∧ k'.condWaiters c = []) := by
  obtain ⟨hinv, hsig, hbal⟩ := cond_run h
  refine ⟨fun a f ha hok hf => hinv.no_assertion hsig ha hok hf,
    fun c => ⟨hinv.nodup c, hbal c⟩, fun c k' hh hs => ?_, fun w k' hh hs => ?_,
    fun c l tr' k' hcode hrun hnil => ?_⟩
  · obtain ⟨k₀, w, ws, h1, h2, h3, h4, h5⟩ := hsig _ c hh
    have he := hinv.runStep (by simp [enabled, hh, runnable]) hs
    have hd : k.does .exec = some (.condPop c) := hh
    obtain ⟨is, -, hcode⟩ := he.code_exec hd (by simp)
    refine ⟨k₀, w, ws, h1, h2, h3 ▸ h4, h5, h3, ?_, ?_, ?_⟩
    · rw [he.condWaiters, hd]
      simp [condAfter, h3]
    · rw [he.sema, hd]
      rfl
    · rw [head, hcode]
      simp [leaves, h3]
  · have he := step_effect hs
    have hd : k.does .exec = some (.semaUp (.waiter w)) := hh
    have hv : (k.sema (.waiter w)).value = 0 := by
      cases hinv.wait w with
      | out _ _ hu | listed _ _ _ _ hu | upped _ _ _ hu => exact absurd hh (hu _)
      | popped _ _ hv => exact hv
    refine ⟨hv, ?_, fun s hne => ?_⟩
    · rw [he.sema, hd]
      simp [semaAfter, hv]
    · rw [he.sema, hd]
      simp [semaAfter, hne]
  · -- the invariant of the broadcast, along the run from its call
    have hb : CondInv b lockOf k' ∧ Broadcasting c l k.current (k.condWaiters c) tr' k' := by
      refine hrun.history (J := fun tr' k' => CondInv b lockOf k' ∧
        Broadcasting c l k.current (k.condWaiters c) tr' k') ⟨hinv, ?_, ?_, ?_⟩ ?_
      · rw [hcode]
        exact .test
      · exact Perm.refl _
      · intro hx
        rw [hcode] at hx
        simp at hx
      · rintro tr₁ k₁ a k₂ - ⟨hinv₁, hb₁⟩ ⟨ha, hok, hne⟩ hs
        exact ⟨hinv₁.step ha hok hs, hb₁.step hinv₁ hne (hinv₁.runStep ha hs)⟩
    have hdone := hb.2.done hnil
    have hw := hb.2.waiters
    rw [hdone, append_nil] at hw
    exact ⟨hw, hdone⟩

/-- Threads 3 (priority 40) and 4 (priority 35) wait on condition 1; the initial thread has taken the
    lock, has called `cond_signal` and is about to pop thread 3. -/
theorem condition_variables_signal : ∃ tr k,
    (kernelMachine.guard fun k a => condOk (fun _ => 1) k a = true).Run (boot Boot.small) tr k ∧
    k.head k.current = some (.condPop 1) ∧ k.condWaiters 1 = [3, 4] ∧
    (k.condWaiters 1).Nodup := by
  obtain ⟨tr, k, hr, hh, hw⟩ :=
    (kernelMachine.guard fun k a => condOk (fun _ => 1) k a = true).exists_reached
      (boot Boot.small)
      (startUp ++ creates 4 35 ++ execs 1 ++ calls (.lockAcquire 1) 3 ++ calls (.condWait 1 1) 4 ++
        creates 3 40 ++ execs 1 ++ calls (.lockAcquire 1) 3 ++ calls (.condWait 1 1) 4 ++
        calls (.lockAcquire 1) 3 ++ calls (.condSignal 1 1) 1)
      (fun _ k => k.head k.current = some (.condPop 1) ∧ k.condWaiters 1 = [3, 4])
      (by decide +kernel)
  exact ⟨tr, k, hr, hh, hw, ((condition_variables hr).2.1 1).1⟩

/-- The action fails the assertion of `list_front` in this state. -/
def failsFront (k : Kernel) (a : Action) : Bool := k.enabled a &&
    match k.step a with
    | .error f => f = .listFront
    | .ok _ => false

/-- **The defects.**  All callers keep the contract, and `cond_signal` fails the assertion of
    `list_front`: first with no thread waiting; then with two waiters of which one was preempted
    between releasing the lock and blocking on its private semaphore. -/
theorem cond_signal_assertions_fail :
    (∃ tr k, (kernelMachine.guard fun k a => keepsContract (fun _ => 1) k a = true).Run
        (boot Boot.small) tr k ∧
      k.head k.current = some (.condPop 1) ∧ k.condWaiters 1 = [] ∧
      failsFront k .exec = true) ∧
    ∃ tr k, (kernelMachine.guard fun k a => keepsContract (fun _ => 1) k a = true).Run
        (boot Boot.small) tr k ∧
      k.head k.current = some (.condSignal 1 1) ∧ k.condWaiters 1 = [3, 4] ∧
      k.head 3 = some (.semaDown (.waiter 3)) ∧ failsFront k .exec = true := by
  constructor
  · exact (kernelMachine.guard fun k a => keepsContract (fun _ => 1) k a = true).exists_reached
        (boot Boot.small) (startUp ++ calls (.lockAcquire 1) 3 ++ calls (.condSignal 1 1) 1)
        (fun _ k => k.head k.current = some (.condPop 1) ∧ k.condWaiters 1 = [] ∧
          failsFront k .exec = true) (by decide +kernel)
  · exact (kernelMachine.guard fun k a => keepsContract (fun _ => 1) k a = true).exists_reached
        (boot Boot.small)
        (startUp ++ creates 3 31 ++ creates 4 31 ++ [.timer] ++ execs 1 ++
          calls (.lockAcquire 1) 3 ++ calls (.condWait 1 1) 3 ++ [.timer] ++ execs 1 ++
          calls (.lockAcquire 1) 3 ++ calls (.condWait 1 1) 4 ++ calls (.lockAcquire 1) 3 ++
          [.call (.condSignal 1 1)])
        (fun _ k => k.head k.current = some (.condSignal 1 1) ∧ k.condWaiters 1 = [3, 4] ∧
          k.head 3 = some (.semaDown (.waiter 3)) ∧ failsFront k .exec = true) (by decide +kernel)

end Pintos.Threads
