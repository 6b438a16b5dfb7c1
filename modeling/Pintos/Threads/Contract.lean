/-
  The contract of locks and conditions, and the assertions it is enough for.

  Acquire only a lock you do not hold, release only a lock you hold, use a condition only with ITS
  lock and holding it, create threads with a priority in range.  `Safe held c` says that the code `c`
  of a thread, started with the locks `held`, passes every assertion about locks down to its end.

  1. **Safety** is kept by every section of the thread itself, and nobody else changes the locks it
     holds (`Contract.step`, from the mutual exclusion of `Pintos.Threads.Lock`).

  2. **No assertion fails** (`Contract.no_assertion`) — but for `cond_signal`'s own.
-/
import Pintos.Threads.Lock

namespace Pintos.Threads

open Lib Base Kernel Kernel

/-! ## Code that passes its assertions -/

def withLock (held : LockRef → Prop) (l : LockRef) : LockRef → Prop := fun l' => l' = l ∨ held l'

def withoutLock (held : LockRef → Prop) (l : LockRef) : LockRef → Prop := fun l' => l' ≠ l ∧ held l'

/-- **The code passes every assertion about locks**, started with the locks `held`; `lockOf` is the
    lock of each condition.  A thread that leaves the kernel does not hold `tid_lock`. -/
def Safe (lockOf : CondRef → LockRef) : (LockRef → Prop) → List Instr → Prop
  | held, [] => ¬ held tidLock
  | held, i :: is =>
    match i with
    | .lockAcquire l | .semaDown (.lock l) | .semaRetest (.lock l) | .lockHold l =>
      ¬ held l ∧ Safe lockOf (withLock held l) is
    | .lockRelease l => held l ∧ Safe lockOf (withoutLock held l) is
    | .condWait c l | .condSignal c l | .condBroadcast c l =>
      (l = lockOf c ∧ held l) ∧ Safe lockOf held is
    | .condPop c => held (lockOf c) ∧ Safe lockOf held is
    | .threadCreate _ p =>
      (priMin ≤ p ∧ p ≤ priMax ∧ ¬ held tidLock) ∧ Safe lockOf held is
    | .lockTryAcquire _ | .lockTryHold _ => False
    | .threadExit => ¬ held tidLock
    | _ => Safe lockOf held is

theorem Safe.congr {lockOf : CondRef → LockRef} :
    ∀ {c : List Instr} {held held' : LockRef → Prop}, (∀ l, held l ↔ held' l) →
      Safe lockOf held c → Safe lockOf held' c
  | c, held, held', h, hs => by
    obtain rfl : held = held' := funext fun l => propext (h l)
    exact hs

def keepsContract (lockOf : CondRef → LockRef) (k : Kernel) : Action → Bool
  | .call (.lockAcquire l) => k.holder l ≠ some k.current
  | .call (.lockRelease l) => k.holder l = some k.current
  | .call (.condWait c l) | .call (.condSignal c l) | .call (.condBroadcast c l) =>
    l = lockOf c && k.holder l = some k.current
  | .call (.threadCreate _ p) => priMin ≤ p && p ≤ priMax
  | .call (.lockTryAcquire _) => false
  | _ => true

def Kernel.holds (k : Kernel) (t : ThreadRef) : LockRef → Prop := fun l => k.holder l = some t

/-- **Everybody is safe**: every lock's unit is in one place, and every thread's code passes its
    assertions with the locks it holds. -/
structure Contract (lockOf : CondRef → LockRef) (k : Kernel) : Prop where
  locks : ∀ l, LockState l k
  safe : ∀ t, Safe lockOf (k.holds t) (k.code t)

namespace Contract

variable {b : Boot} {lockOf : CondRef → LockRef} {k k' : Kernel} {a : Action}

theorem init (b : Boot) (lockOf : CondRef → LockRef) : Contract lockOf (boot b) := by
  refine ⟨LockState.init b, fun t => ?_⟩
  simp only [boot]
  split
  · simp [Safe, idleStarted, holds]
  · split
    · simp [Safe, idleLoop, idleStarted, holds]
    · simp [Safe, holds]

section

variable (h : Contract lockOf k) {t : ThreadRef} {i : Instr}
include h

theorem safe_head (hi : k.head t = some i) :
    ∃ is, k.code t = i :: is ∧ Safe lockOf (k.holds t) (i :: is) := by
  cases hc : k.code t with
  | nil => rw [head, hc] at hi; simp at hi
  | cons j js =>
    obtain rfl : j = i := by rw [head, hc] at hi; simpa using hi
    exact ⟨js, rfl, hc ▸ h.safe t⟩

/-- Nobody tries a lock. -/
theorem noFreeTry (ha : k.enabled a = true) (l : LockRef) : noFreeTry l k a := by
  intro hd
  obtain ⟨-, hi⟩ := exec_of_does ha hd
  obtain ⟨is, -, hs⟩ := h.safe_head hi
  exact absurd hs (by simp [Safe])

attribute [local simp] holderAfter

/-- **A section leaves safe code**, for the locks held after it. -/
theorem safe_exec {is : List Instr} (he : RunStep b k .exec k') (hc : k.code k.current = i :: is)
    (hexit : i ≠ .threadExit) : Safe lockOf (k'.holds k.current) (k.leaves i ++ is) := by
  have hd : k.does .exec = some i := by simp [does, head, hc]
  have hs : Safe lockOf (k.holds k.current) (i :: is) := hc ▸ h.safe k.current
  have hholder := he.holder
  rw [hd] at hholder
  -- the locks are as before, apart from the two writes of the holder
  have hsame : k.holderAfter i = k.holder → k'.holds k.current = k.holds k.current := by
    intro hx
    unfold holds
    rw [show k'.holder = k.holder from hholder.trans hx]
  cases i with
  | lockAcquire => rw [hsame rfl]; exact hs
  | semaDown s | semaRetest s =>
    rw [hsame rfl]
    cases s with
    | lock =>
      simp only [leaves]
      split
      · exact hs
      · exact hs
    | user n | waiter t =>
      simp only [leaves]
      split <;> exact hs
  | lockHold l =>
    refine Safe.congr (fun l' => ?_) hs.2
    unfold holds withLock
    rw [hholder]
    by_cases hl : l' = l
    · subst hl; simp
    · simp [hl]
  | lockRelease l =>
    have hheld : ∀ l', withoutLock (k.holds k.current) l l' ↔ k'.holds k.current l' := by
      intro l'
      unfold holds withoutLock
      rw [hholder]
      by_cases hl : l' = l
      · subst hl; simp
      · simp [hl]
    exact Safe.congr hheld hs.2
  | semaUp s =>
    rw [hsame rfl]
    have hs' : Safe lockOf (k.holds k.current) is := by cases s <;> exact hs
    simp only [leaves]
    split <;> exact hs'
  | condWait c l =>
    rw [hsame rfl]
    obtain ⟨⟨-, hheld⟩, hs⟩ := hs
    refine ⟨hheld, fun hx => hx.1 rfl, Safe.congr (fun l' => ?_) hs⟩
    -- released and acquired again: the same locks
    unfold withLock withoutLock
    by_cases hl : l' = l
    · subst hl; simp [hheld]
    · simp [hl]
  | condSignal =>
    rw [hsame rfl]
    obtain ⟨⟨rfl, hheld⟩, hs⟩ := hs
    exact ⟨hheld, hs⟩
  | condPop =>
    rw [hsame rfl]
    simp only [leaves]
    split <;> exact hs.2
  | condBroadcast =>
    rw [hsame rfl]
    simp only [leaves]
    split
    · exact hs.2
    · exact ⟨hs.1, hs⟩
  | threadCreate =>
    rw [hsame rfl]
    obtain ⟨⟨-, -, hfree⟩, hs⟩ := hs
    refine ⟨hfree, Or.inl rfl, Safe.congr (fun l' => ?_) hs⟩
    unfold withLock withoutLock
    by_cases hl : l' = tidLock
    · subst hl; simp [hfree]
    · simp [hl]
  | lockTryAcquire l | lockTryHold l => exact absurd hs (by simp [Safe])
  | threadExit => exact absurd rfl hexit
  | _ => rw [hsame rfl]; exact hs

theorem safe_call (hc : k.code k.current = [])
    (hi : callable i = true) (hk : keepsContract lockOf k (.call i) = true) :
    Safe lockOf (k.holds k.current) [i] := by
  have hnil : ¬ k.holds k.current tidLock := by
    have := h.safe k.current
    rwa [hc] at this
  cases i with
  | lockAcquire l =>
    have hl : l ≠ tidLock := by simpa [callable] using hi
    have hh : ¬ k.holds k.current l := by simpa [keepsContract, holds] using hk
    refine ⟨hh, fun hx => ?_⟩
    rcases hx with hx | hx
    · exact hl hx.symm
    · exact hnil hx
  | lockRelease l =>
    have hh : k.holds k.current l := by simpa [keepsContract, holds] using hk
    exact ⟨hh, fun hx => hnil hx.2⟩
  | condWait c l | condSignal c l | condBroadcast c l =>
    have hh : l = lockOf c ∧ k.holds k.current l := by
      simpa [keepsContract, holds] using hk
    exact ⟨hh, hnil⟩
  | threadCreate t p =>
    have hp : priMin ≤ p ∧ p ≤ priMax := by simpa [keepsContract] using hk
    exact ⟨⟨hp.1, hp.2, hnil⟩, hnil⟩
  | lockTryAcquire => simp [keepsContract] at hk
  | semaDown s | semaUp s | semaTryDown s => cases s <;> first | exact hnil | simp [callable] at hi
  | threadYield | threadBlock | threadExit | threadSetPriority p junk => exact hnil
  | _ => simp [callable] at hi

/-- **One step** keeps everybody safe. -/
theorem step (he : RunStep b k a k') (hk : keepsContract lockOf k a = true) :
    Contract lockOf k' := by
  refine ⟨fun l => (h.locks l).step he (h.noFreeTry he.possible l), fun t => ?_⟩
  have hother : t ≠ k.current → ∀ {c}, Safe lockOf (k.holds t) c → Safe lockOf (k'.holds t) c :=
    fun ht _ hs => hs.congr fun l => ((h.locks l).holder_of_ne he ht).symm
  cases he.codeStep t with
  | same hcode hne =>
    rw [hcode]
    by_cases ht : t = k.current
    · -- an action that is not an instruction of its own writes no holder
      refine (h.safe t).congr fun l => ?_
      rw [holds, holds, LockState.holder_of_ne_exec he (hne ht)]
    · exact hother ht (h.safe t)
  | new hcode ht hnew =>
    rw [hcode]
    have := h.safe t
    rw [he.alive.code_nil hnew] at this
    exact hother ht this
  | call i ht hi hcall hcode =>
    subst ht hi
    rw [hcode]
    refine (h.safe_call (code_nil_of_call he.possible) hcall hk).congr fun l => ?_
    rw [holds, holds, LockState.holder_of_ne_exec he (by simp)]
  | exit ht hx hh hcode =>
    subst ht hx
    obtain ⟨is, hcode', hs⟩ := h.safe_head hh
    rw [hcode]
    have hfree : ¬ k.holds k.current tidLock := hs
    refine fun hx => hfree ?_
    unfold holds at hx ⊢
    rwa [he.holder, show k.does .exec = some .threadExit from hh] at hx
  | exec i is ht hx hcode hcode' hexit =>
    subst ht hx
    rw [hcode']
    exact h.safe_exec he hcode hexit

end

/-! ## No assertion fails -/

/-- A `cond_signal` at one of its two `list_front`s. -/
def atSignal : Option Instr → Bool
  | some (.condSignal _ _) | some (.condPop _) => true
  | _ => false

/-- **No assertion fails** outside `cond_signal` as long as callers keep the contract. -/
theorem no_assertion (h : Contract lockOf k) (hl : Alive b k)
    (ha : k.enabled a = true) {f : Fault} (hf : k.step a = .error f)
    (hsig : atSignal (k.does a) = false) : f.isAssertion = false := by
  have hstatus := (hl.step ha).2 f hf
  -- `schedule ()` always succeeds, so the section itself has failed
  have hact : k.act a = .error f := by
    have hgood := hl.good_act ha
    unfold Kernel.step at hf
    rw [if_pos hl.current_running] at hf
    match hx : k.act a with
    | .error f' =>
      rw [hx] at hf
      rw [Except.error.inj hf]
    | .ok (k1, false) =>
      rw [hx] at hf
      exact absurd hf (by simp [finish])
    | .ok (k1, true) =>
      rw [hx] at hf hgood
      obtain ⟨k2, hs, -⟩ := Life.schedule hgood
      simp only [finish, hs] at hf
      cases hf
  cases a with
  | exec =>
    cases hc : k.code k.current with
    | nil => simp [enabled, head, hc, runnable] at ha
    | cons i is =>
      simp only [act, hc] at hact
      have hs : Safe lockOf (k.holds k.current) (i :: is) := hc ▸ h.safe k.current
      have hd : k.does .exec = some i := by simp [does, head, hc]
      rw [hd] at hsig
      cases i with
      | lockAcquire l =>
        have hk : k.pop.lockAcquire l = .error f := by
          cases hx : k.pop.lockAcquire l with
          | error => simp only [execInstr, hx, continues] at hact; rw [Except.error.inj hact]
          | ok => simp [execInstr, hx, continues] at hact
        rcases lockAcquire_error hk with ⟨-, hh⟩ | rfl | rfl
        · exact absurd hh hs.1
        · rfl
        · rfl
      | lockRelease l =>
        have hh : k.pop.holder l = some k.pop.current := hs.1
        simp [execInstr, lockRelease, hh, continues] at hact
      | condWait c l =>
        have hh : k.pop.holder l = some k.pop.current := hs.1.2
        simp [execInstr, condWait, hh, continues] at hact
      | threadCreate =>
        obtain ⟨⟨h1, h2, -⟩, -⟩ := hs
        simp [execInstr, threadCreate, h1, h2, continues] at hact
      | semaUp s =>
        obtain ⟨w, k', hk, -⟩ := (hl.pop hc (by simp) (by simp)).semaUp s
        simp only [execInstr, hk] at hact
        cases w <;> simp at hact
      | createUnblock t =>
        have hk : k.pop.threadUnblock t = .error f := by
          cases hx : k.pop.threadUnblock t with
          | error => simp only [execInstr, hx, continues] at hact; rw [Except.error.inj hact]
          | ok => simp [execInstr, hx, continues] at hact
        unfold threadUnblock at hk
        split at hk
        · cases hk
        · rw [← Except.error.inj hk] at hstatus
          cases hstatus
      | condSignal c l | condPop c => simp [atSignal] at hsig
      | lockTryAcquire l | lockTryHold l => exact absurd hs (by simp [Safe])
      | _ => simp [execInstr] at hact
  | intrSemaUp s =>
    obtain ⟨w, k', hk, -⟩ := hl.semaUp s
    simp only [act, hk] at hact
    cases hact
  | unblock t =>
    have hk : k.threadUnblock t = .error f := by
      cases hx : k.threadUnblock t with
      | error => simp only [act, hx, continues] at hact; rw [Except.error.inj hact]
      | ok => simp [act, hx, continues] at hact
    unfold threadUnblock at hk
    split at hk
    · cases hk
    · rw [← Except.error.inj hk] at hstatus
      cases hstatus
  | call i | timer | intrSemaTryDown s => simp [act] at hact

end Contract

end Pintos.Threads
