/-
  Where a thread is between entering `cond_wait` and leaving it.

  A wait has ONE semaphore of its own, on the stack of the thread that waits.  It is listed on its
  condition, or popped by a signaller that has not upped the semaphore yet, or upped; it is never in
  two of these places and never in one of them twice (`WaitState`).  So a condition holds no thread
  twice, and a wait is signalled once, whoever runs in between: a waiter that was preempted before
  it blocked is in the same place as one that sleeps.
-/
import Pintos.Threads.Code

namespace Pintos.Threads

open Lib Base Kernel
open List hiding head

/-! ## Code that waits -/

/-- The two places of `cond_wait` where `w` has its private semaphore ahead of it. -/
def isDownOf (w : ThreadRef) (i : Instr) : Bool :=
  i = .semaDown (.waiter w) || i = .semaRetest (.waiter w)

def isWait : Instr → Bool
  | .condWait _ _ => true
  | _ => false

/-- The shape of code that waits. -/
structure WaitCode (k : Kernel) : Prop where
  /-- A private semaphore is downed by the thread it belongs to. -/
  owner : ∀ t w, ∀ i ∈ k.code t, isDownOf w i = true → w = t
  /-- `cond_wait` and `thread_exit` are called from outside the kernel. -/
  alone : ∀ t, ∀ i ∈ k.code t, isWait i = true ∨ i = .threadExit → k.code t = [i]

attribute [local simp] isDownOf isWait condAfter leaves

variable {b : Boot} {k k' : Kernel} {a : Action} {c : CondRef} {i : Instr}

/-- The private downs that a section leaves: the one it found no unit for, or the one of a new
    wait. -/
theorem downs_leaves (k : Kernel) (i : Instr) (w : ThreadRef) : (k.leaves i).countP (isDownOf w) =
      if isDownOf w i = true then (if (k.sema (.waiter w)).value = 0 then 1 else 0)
      else if isWait i = true ∧ k.current = w then 1 else 0 := by
  cases i with
  | semaDown s | semaRetest s =>
    by_cases hs : s = .waiter w
    · subst hs
      by_cases hv : (k.sema (.waiter w)).value = 0 <;>
        simp [hv, afterDown]
    · by_cases hv : (k.sema s).value = 0
      · simp [hs, hv]
      · cases s with
        | lock l | user n => simp [hv, afterDown]
        | waiter t =>
          have hne : t ≠ w := fun he => hs (by rw [he])
          simp [hv, afterDown, hne]
  | semaUp s | condPop c | condBroadcast c l | lockTryAcquire l =>
    simp only [leaves]
    split <;> simp
  | condWait =>
    by_cases hw : k.current = w <;> simp [hw]
  | _ => simp

theorem leaves_not_outer (k : Kernel) (i : Instr) :
    ∀ j ∈ k.leaves i, isWait j = false ∧ j ≠ .threadExit := by
  intro j hj
  rcases mem_leaves hj with hinto | hcall
  · cases hinto <;> simp
  · cases hcall <;> simp

theorem WaitCode.init (b : Boot) : WaitCode (boot b) := by
  refine ⟨fun t w i hi hd => ?_, fun t i hi ho => ?_⟩
  · rcases Life.mem_boot_code hi with rfl | ⟨-, rfl | rfl | rfl | rfl⟩ <;> cases hd
  · rcases Life.mem_boot_code hi with rfl | ⟨-, rfl | rfl | rfl | rfl⟩ <;> simp at ho

theorem callable_not_down (h : callable i = true) (w : ThreadRef) : isDownOf w i = false := by
  cases i with
  | semaDown s => cases s <;> simp [callable] at h ⊢
  | semaRetest => simp [callable] at h
  | _ => simp

theorem WaitCode.step (h : WaitCode k) (he : RunStep b k a k') : WaitCode k' := by
  have hstep : ∀ t, (∀ w, ∀ i ∈ k'.code t, isDownOf w i = true → w = t) ∧
      ∀ i ∈ k'.code t, isWait i = true ∨ i = .threadExit → k'.code t = [i] := by
    intro t
    cases he.codeStep t with
    | same hc => rw [hc]; exact ⟨h.owner t, h.alone t⟩
    | new hc => rw [hc]; simp
    | call j _ _ hj hc =>
      rw [hc]
      refine ⟨fun w i hi hd => ?_, fun i hi _ => by rw [mem_singleton.mp hi]⟩
      obtain rfl := mem_singleton.mp hi
      rw [callable_not_down hj] at hd
      cases hd
    | exit _ _ _ hc => rw [hc]; simp
    | exec j js ht _ hc hc' _ =>
      rw [hc']
      refine ⟨fun w i hi hd => ?_, fun i hi ho => ?_⟩
      · rcases mem_append.mp hi with hi | hi
        · -- a down in what is left: the one it executed, or that of its own `cond_wait'
          have hpos : 0 < (k.leaves j).countP (isDownOf w) := countP_pos_iff.mpr ⟨i, hi, hd⟩
          rw [downs_leaves] at hpos
          split at hpos
          · rename_i hj
            exact h.owner t w j (by rw [hc]; exact mem_cons_self ..) hj
          · split at hpos
            · rename_i hw
              rw [← hw.2, ht]
            · omega
        · exact h.owner t w i (by rw [hc]; exact mem_cons_of_mem _ hi) hd
      · exfalso
        rcases mem_append.mp hi with hi | hi
        · obtain ⟨h1, h2⟩ := leaves_not_outer k j i hi
          rcases ho with ho | ho
          · rw [h1] at ho
            cases ho
          · exact h2 ho
        · -- it would have been alone
          have halone := h.alone t i (by rw [hc]; exact mem_cons_of_mem _ hi) ho
          rw [hc] at halone
          rw [(cons.inj halone).2] at hi
          exact absurd hi not_mem_nil
  exact ⟨fun t => (hstep t).1, fun t => (hstep t).2⟩

/-! ## Where a wait is -/

/-- The number of private downs that thread `w` has ahead of it. -/
def pending (k : Kernel) (w : ThreadRef) : Nat := (k.code w).countP (isDownOf w)

/-- Thread `t` is about to up the private semaphore of `w`. -/
def upsWaiter (k : Kernel) (w t : ThreadRef) : Prop := k.head t = some (.semaUp (.waiter w))

/-- **Where a wait of `w` is.** -/
inductive WaitState (w : ThreadRef) (k : Kernel) : Prop
  /-- Nowhere: `w` is not waiting. -/
  | out (hp : pending k w = 0) (hc : ∀ c, (k.condWaiters c).count w = 0)
      (hu : ∀ t, ¬ upsWaiter k w t)
  /-- It is on condition `c`, once. -/
  | listed (c : CondRef) (hp : pending k w = 1) (hv : (k.sema (.waiter w)).value = 0)
      (hc : ∀ c', (k.condWaiters c').count w = if c' = c then 1 else 0)
      (hu : ∀ t, ¬ upsWaiter k w t)
  /-- Thread `t` has popped it and is about to up its semaphore. -/
  | popped (t : ThreadRef) (hp : pending k w = 1) (hv : (k.sema (.waiter w)).value = 0)
      (hc : ∀ c, (k.condWaiters c).count w = 0) (hu : ∀ t', upsWaiter k w t' ↔ t' = t)
  /-- Its semaphore has been upped. -/
  | upped (hp : pending k w = 1) (hv : (k.sema (.waiter w)).value = 1)
      (hc : ∀ c, (k.condWaiters c).count w = 0) (hu : ∀ t, ¬ upsWaiter k w t)

namespace WaitState

variable {w : ThreadRef}

theorem init (b : Boot) (w : ThreadRef) : WaitState w (boot b) := by
  refine .out ?_ (fun c => rfl) fun t ht => ?_
  · refine countP_eq_zero.mpr fun i hi hd => ?_
    rcases Life.mem_boot_code hi with rfl | ⟨-, rfl | rfl | rfl | rfl⟩ <;> cases hd
  · rcases Life.mem_boot_code (mem_of_mem_head? ht) with hi | ⟨-, hi | hi | hi | hi⟩ <;> cases hi

theorem pending_same (hc : WaitCode k) (he : RunStep b k a k')
    (hd : ∀ i, k.does a = some i → isDownOf w i = false ∧ (isWait i = true → k.current ≠ w)) :
    pending k' w = pending k w := by
  unfold pending
  cases he.codeStep w with
  | same hcode => rw [hcode]
  | new hcode _ hw =>
    rw [hcode, he.alive.code_nil hw]
    rfl
  | call i hw hi hcall hcode =>
    subst hi hw
    rw [hcode, code_nil_of_call he.possible]
    simp [callable_not_down hcall, -isDownOf]
  | exit _ _ hh hcode =>
    have hmem : Instr.threadExit ∈ k.code w := mem_of_mem_head? hh
    rw [hcode, hc.alone w _ hmem (.inr rfl)]
    rfl
  | exec i is hw hx hcode hcode' =>
    subst hx
    have hdo : k.does .exec = some i := by
      simp only [does, head]
      rw [← hw, hcode]
      rfl
    obtain ⟨h1, h2⟩ := hd i hdo
    have h2' : ¬ (isWait i = true ∧ k.current = w) := fun hx => h2 hx.1 hx.2
    rw [hcode', hcode, countP_append, downs_leaves, h1, countP_cons, h1]
    simp [h2', -isWait]

/-- Whoever is about to up a private semaphore was so before, or has just popped it. -/
theorem ups_step (he : RunStep b k a k') {t : ThreadRef} (ht : upsWaiter k' w t) :
    (upsWaiter k w t ∧ (t = k.current → a ≠ .exec)) ∨
    (t = k.current ∧ ∃ c ws, k.does a = some (.condPop c) ∧ k.condWaiters c = w :: ws) := by
  rcases he.head_step ht rfl (by simp) (by simp) with h | h
  · exact .inl h
  · obtain ⟨rfl, rfl, i, hi, hinto⟩ := h
    cases hinto with
    | signal hw => exact .inr ⟨rfl, _, _, hi, hw⟩

/-- The number of times `w` is on a condition after a step that is not its own `cond_wait` and does
    not pop it. -/
theorem count_same (he : RunStep b k a k')
    (hwait : ∀ c l, k.does a = some (.condWait c l) → k.current ≠ w)
    (hpop : ∀ c ws, k.does a = some (.condPop c) → k.condWaiters c ≠ w :: ws) (c : CondRef) :
    (k'.condWaiters c).count w = (k.condWaiters c).count w := by
  rw [he.condWaiters]
  cases hd : k.does a with
  | none => rfl
  | some i =>
    show (k.condAfter i c).count w = _
    cases i with
    | condWait c' l =>
      by_cases hc : c = c'
      · subst hc
        have hne := hwait c l hd
        simp [count_append, hne]
      · simp [hc]
    | condSignal c' =>
      by_cases hc : c = c'
      · subst hc
        simp only [condAfter, Function.update_self]
        exact (listSort_perm _ _).count_eq w
      · simp [hc]
    | condPop c' =>
      by_cases hc : c = c'
      · subst hc
        cases hw : k.condWaiters c with
        | nil => simp [hw]
        | cons u us =>
          have hne : u ≠ w := fun hu => hpop c us hd (hu ▸ hw)
          simp [hw, hne]
      · simp [hc]
    | _ => rfl

theorem frame (h : WaitState w k) (hp : pending k' w = pending k w)
    (hv : (k'.sema (.waiter w)).value = (k.sema (.waiter w)).value)
    (hc : ∀ c, (k'.condWaiters c).count w = (k.condWaiters c).count w)
    (hu : ∀ t, upsWaiter k' w t ↔ upsWaiter k w t) : WaitState w k' := by
  cases h with
  | out h1 h2 h3 =>
    exact .out (hp.trans h1) (fun c => (hc c).trans (h2 c)) fun t ht => h3 t ((hu t).mp ht)
  | listed c h1 h2 h3 h4 =>
    exact .listed c (hp.trans h1) (hv.trans h2) (fun c => (hc c).trans (h3 c))
      fun t ht => h4 t ((hu t).mp ht)
  | popped t h1 h2 h3 h4 =>
    exact .popped t (hp.trans h1) (hv.trans h2) (fun c => (hc c).trans (h3 c))
      fun t => (hu t).trans (h4 t)
  | upped h1 h2 h3 h4 =>
    exact .upped (hp.trans h1) (hv.trans h2) (fun c => (hc c).trans (h3 c))
      fun t ht => h4 t ((hu t).mp ht)

/-- A step that neither pops `w` nor ups its semaphore changes nobody who is about to. -/
theorem ups_same (he : RunStep b k a k') (hup : k.does a ≠ some (.semaUp (.waiter w)))
    (hpop : ∀ c ws, k.does a = some (.condPop c) → k.condWaiters c ≠ w :: ws) (t : ThreadRef) :
    upsWaiter k' w t ↔ upsWaiter k w t := by
  constructor
  · intro ht
    rcases ups_step he ht with h | ⟨-, c, ws, hd, hw⟩
    · exact h.1
    · exact absurd hw (hpop c ws hd)
  · intro ht
    refine he.head_keep ht ?_
    rintro rfl rfl
    exact hup ht

section

variable (h : WaitState w k)
include h

theorem enter (hc : WaitCode k) (he : RunStep b k .exec k') {l : LockRef}
    (hd : k.does .exec = some (.condWait c l)) (hw : k.current = w) : WaitState w k' := by
  subst hw
  have halone : k.code k.current = [.condWait c l] := hc.alone _ _ (mem_of_mem_head? hd) (.inl rfl)
  have hp : pending k k.current = 0 := by
    unfold pending
    rw [halone]
    rfl
  have hcode' : k'.code k.current =
      [.lockRelease l, .semaDown (.waiter k.current), .lockAcquire l] :=
    he.code_single halone (by simp)
  -- it was on no condition, so it is on `c' once
  cases h with
  | out _ hcount hu =>
    refine .listed c ?_ ?_ (fun c' => ?_) fun t ht => ?_
    · unfold pending
      rw [hcode']
      simp
    · rw [he.sema, hd]
      simp [semaAfter]
    · rw [he.condWaiters, hd]
      by_cases hcc : c' = c
      · subst hcc
        simp [count_append, hcount]
      · simp [hcc, hcount]
    · refine hu t ((ups_same he ?_ ?_ t).mp ht)
      · rw [hd]; simp
      · intro c' ws hx
        rw [hd] at hx
        simp at hx
  | listed _ h1 | popped _ h1 | upped h1 => omega

theorem down (hc : WaitCode k) (he : RunStep b k .exec k') (hd : k.does .exec = some i)
    (hi : isDownOf w i = true) : WaitState w k' := by
  have hi' : i = .semaDown (.waiter w) ∨ i = .semaRetest (.waiter w) := by
    simpa [isDownOf] using hi
  have hcur : w = k.current := hc.owner _ w i (mem_of_mem_head? hd) hi
  have hcount := count_same (w := w) he
    (fun c l hx => by rw [hd] at hx; rcases hi' with rfl | rfl <;> simp at hx)
    (fun c ws hx => by rw [hd] at hx; rcases hi' with rfl | rfl <;> simp at hx)
  have hups := ups_same (w := w) he
    (by rw [hd]; rcases hi' with rfl | rfl <;> simp)
    (fun c ws hx => by rw [hd] at hx; rcases hi' with rfl | rfl <;> simp at hx)
  -- one down is executed, and is left again if there is no unit
  have hpend : pending k w ≠ 0 ∧ pending k' w + 1 =
      (if (k.sema (.waiter w)).value = 0 then 1 else 0) + pending k w := by
    obtain ⟨is, hc1, hc2⟩ := he.code_exec hd
      (by rcases hi' with rfl | rfl <;> simp)
    unfold pending
    rw [hcur] at hi ⊢
    rw [hc2, hc1, countP_append, downs_leaves, countP_cons, hi]
    simp only [if_true]
    constructor <;> omega
  have hsema : k'.sema (.waiter w) = k.semaAfter i (.waiter w) := by
    rw [he.sema, hd]
    rfl
  by_cases hv : (k.sema (.waiter w)).value = 0
  · rw [if_pos hv] at hpend
    refine h.frame (by omega) ?_ hcount hups
    rw [hsema]
    rcases hi' with rfl | rfl <;> simp [semaAfter, hv]
  · rw [if_neg hv] at hpend
    cases h with
    | out => omega
    | listed _ _ h2 | popped _ _ h2 => omega
    | upped h1 _ h3 h4 =>
      exact .out (by omega) (fun c => (hcount c).trans (h3 c)) fun t ht => h4 t ((hups t).mp ht)

variable (hc : WaitCode k)
include hc

theorem pop (he : RunStep b k .exec k') {ws : List ThreadRef}
    (hd : k.does .exec = some (.condPop c)) (hw : k.condWaiters c = w :: ws) : WaitState w k' := by
  have hp := pending_same (w := w) hc he
    (fun i hi => by rw [hd] at hi; obtain rfl := Option.some.inj hi; simp)
  have hcount : (k.condWaiters c).count w ≠ 0 := by rw [hw]; simp
  cases h with
  | out _ h2 | popped _ _ _ h2 | upped _ _ h2 => exact absurd (h2 c) hcount
  | listed c' h1 h2 h3 h4 =>
    have hcc : c = c' := by
      by_contra hne
      rw [h3 c, if_neg hne] at hcount
      exact hcount rfl
    subst hcc
    refine .popped k.current (hp.trans h1) ?_ (fun c' => ?_) fun t => ⟨fun ht => ?_, ?_⟩
    · rwa [he.sema, hd]
    · have h3c := h3 c'
      rw [he.condWaiters, hd]
      show (k.condAfter (.condPop c) c').count w = 0
      by_cases hcc : c' = c
      · subst hcc
        rw [hw, if_pos rfl, count_cons_self] at h3c
        simp only [condAfter, Function.update_self, hw, tail_cons]
        omega
      · simpa [condAfter, hcc] using h3c
    · rcases ups_step he ht with hx | hx
      · exact absurd hx.1 (h4 t)
      · exact hx.1
    · rintro rfl
      obtain ⟨is, -, hc2⟩ := he.code_exec hd (by simp)
      unfold upsWaiter head
      rw [hc2]
      simp [hw]

theorem up (he : RunStep b k .exec k') (hd : k.does .exec = some (.semaUp (.waiter w))) :
    WaitState w k' := by
  have hcur : upsWaiter k w k.current := hd
  have hp := pending_same (w := w) hc he
    (fun i hi => by rw [hd] at hi; obtain rfl := Option.some.inj hi; simp)
  have hcount := count_same (w := w) he (fun c l hx => by rw [hd] at hx; simp at hx)
    (fun c ws hx => by rw [hd] at hx; simp at hx)
  cases h with
  | out _ _ h3 | listed _ _ _ _ h3 | upped _ _ _ h3 => exact absurd hcur (h3 _)
  | popped t h1 h2 h3 h4 =>
    refine .upped (hp.trans h1) ?_ (fun c => (hcount c).trans (h3 c)) fun t' ht' => ?_
    · rw [he.sema, hd]
      simp [semaAfter, h2]
    · -- nobody else was about to, and the signaller is past it
      rcases ups_step he ht' with ⟨hx, hne⟩ | ⟨-, c, ws, hx, -⟩
      · exact hne (((h4 t').mp hx).trans ((h4 _).mp hcur).symm) rfl
      · rw [hd] at hx
        simp at hx

/-- **One step** keeps every wait in one place. -/
theorem step (he : RunStep b k a k') : WaitState w k' := by
  -- the four sections that move a wait
  by_cases hwait : ∃ c l, k.does a = some (.condWait c l) ∧ k.current = w
  · obtain ⟨c, l, hd, hw⟩ := hwait
    obtain ⟨rfl, -⟩ := exec_of_does he.possible hd
    exact h.enter hc he hd hw
  by_cases hdown : ∃ i, k.does a = some i ∧ isDownOf w i = true
  · obtain ⟨i, hd, hi⟩ := hdown
    have hi' : i = .semaDown (.waiter w) ∨ i = .semaRetest (.waiter w) := by
      simpa [isDownOf] using hi
    obtain ⟨rfl, -⟩ := exec_of_does he.possible hd (by rcases hi' with rfl | rfl <;> simp)
      (by rcases hi' with rfl | rfl <;> simp)
    exact h.down hc he hd hi
  by_cases hpop : ∃ c ws, k.does a = some (.condPop c) ∧ k.condWaiters c = w :: ws
  · obtain ⟨c, ws, hd, hw⟩ := hpop
    obtain ⟨rfl, -⟩ := exec_of_does he.possible hd
    exact h.pop hc he hd hw
  by_cases hup : k.does a = some (.semaUp (.waiter w))
  · obtain ⟨rfl, -⟩ := exec_of_does he.possible hup
    exact h.up hc he hup
  -- any other leaves it where it is
  have hpop' : ∀ c ws, k.does a = some (.condPop c) → k.condWaiters c ≠ w :: ws :=
    fun c ws hd hw => hpop ⟨c, ws, hd, hw⟩
  have hwait' : ∀ c l, k.does a = some (.condWait c l) → k.current ≠ w :=
    fun c l hd hw => hwait ⟨c, l, hd, hw⟩
  have hpend : pending k' w = pending k w := by
    refine pending_same hc he fun i hi => ⟨?_, fun hx => ?_⟩
    · by_contra hx
      exact hdown ⟨i, hi, by simpa [-isDownOf] using hx⟩
    · cases i with
      | condWait c l => exact hwait' c l hi
      | _ => simp at hx
  refine h.frame hpend ?_ (count_same he hwait' hpop') (ups_same he hup hpop')
  rw [he.sema]
  cases hd : k.does a with
  | none => rfl
  | some i =>
    show (k.semaAfter i _).value = _
    rw [semaAfter_of_not_onSema]
    · cases i with
      | semaDown s | semaRetest s =>
        have hs : s ≠ .waiter w := fun hs => hdown ⟨_, hd, by simp [hs]⟩
        simpa [onSema] using hs
      | semaUp s =>
        have hs : s ≠ .waiter w := fun hs => hup (by rw [hd, hs])
        simpa [onSema] using hs
      | semaTryDown s =>
        -- only semaphores of their own are tried
        have hs : s ≠ .waiter w := by
          rintro rfl
          obtain ⟨n, hn⟩ := he.inv.tries _ _ (exec_of_does he.possible hd).2
          cases hn
        simpa [onSema] using hs
      | _ => rfl
    · rintro c l rfl hs
      exact hwait' c l hd (SemaRef.waiter.inj hs).symm

end

end WaitState

end Pintos.Threads
