/-
  Semaphores: exact counting, and no wake-up is lost.

  The waiter that `sema_up` unblocks only takes the unit when it RUNS and tests the value again, and by
  then another thread may have taken it.  So counting is about completed downs, and "no lost wake-up"
  is about the threads that are woken but have not tested again.

  1. **History** — `completedDowns`, `upCount` and `woken` are functions of the steps of a run.

  2. **The invariant** (`SemaInv`) — the balance of units; the woken threads are distinct, sit at
     the test of the loop and are on no wait list; and while somebody waits, there are at least as
     many of them as there are units.

  3. **The theorem** (`semaphore_exact`), for every semaphore that is not private to a `cond_wait`.

  4. **Whom an up wakes** (`sema_up_wakes_highest`) — `sema_up` sorts the wait list first.
-/
import Pintos.Threads.Code

namespace Pintos.Threads

open Lib Base Kernel Function
open List hiding head

/-! ## History -/

/-- The step completes a down: a `sema_down` or `sema_try_down` that takes a unit. -/
def completesDown (s : SemaRef) (k : Kernel) (a : Action) : Bool :=
  match k.does a with
  | some (.semaDown s') | some (.semaRetest s') | some (.semaTryDown s') =>
    s' = s && 0 < (k.sema s).value
  | _ => false

def isUp (s : SemaRef) (k : Kernel) (a : Action) : Bool := k.does a = some (.semaUp s)

def completedDowns (s : SemaRef) (tr : List (Kernel × Action)) : Nat :=
  tr.countP fun p => completesDown s p.1 p.2

def upCount (s : SemaRef) (tr : List (Kernel × Action)) : Nat := tr.countP fun p => isUp s p.1 p.2

/-- The threads woken on `s`, after one more step: `sema_up` adds the thread it unblocks, and a
    thread that tests the value again is no longer one of them. -/
def wokenStep (s : SemaRef) (w : List ThreadRef) (p : Kernel × Action) : List ThreadRef :=
  match p.1.does p.2 with
  | some (.semaRetest s') => if s' = s then w.erase p.1.current else w
  | some (.semaUp s') =>
    if s' = s then
      match listSort p.1.listDescPrioSort (p.1.sema s).waiters with
      | [] => w
      | t :: _ => t :: w
    else w
  | _ => w

/-- The threads that a `sema_up (s)` has unblocked and that have not tested the value again. -/
def woken (s : SemaRef) (tr : List (Kernel × Action)) : List ThreadRef := tr.foldl (wokenStep s) []

/-- The up does not overflow the counter. -/
def noOverflow (s : SemaRef) (k : Kernel) (a : Action) : Prop :=
  isUp s k a = true → (k.sema s).value + 1 < 4294967296

instance (s : SemaRef) (k : Kernel) (a : Action) : Decidable (noOverflow s k a) := by
  unfold noOverflow; infer_instance

/-! ## The invariant -/

/-- **The semaphore invariant**, over the steps taken and the state reached. -/
structure SemaInv (b : Boot) (s : SemaRef) (tr : List (Kernel × Action)) (k : Kernel) : Prop where
  count : completedDowns s tr + (k.sema s).value = (b.sema s).value + upCount s tr
  nodup : (woken s tr).Nodup
  /-- A woken thread is back in the loop, not on the wait list. -/
  wokenOut : ∀ t ∈ woken s tr, k.head t = some (.semaRetest s) ∧ t ∉ (k.sema s).waiters
  /-- While somebody waits, every unit has a woken thread on its way to it. -/
  enough : (k.sema s).waiters ≠ [] → (k.sema s).value ≤ (woken s tr).length

variable {b : Boot} {s : SemaRef} {k : Kernel}

namespace SemaInv

variable {tr : List (Kernel × Action)} {k' : Kernel} {a : Action}

theorem woken_snoc : woken s (tr ++ [(k, a)]) = wokenStep s (woken s tr) (k, a) := by
  simp [woken]

theorem downs_snoc :
    completedDowns s (tr ++ [(k, a)]) = completedDowns s tr + (completesDown s k a).toNat := by
  cases h : completesDown s k a <;> simp [completedDowns, h]

theorem ups_snoc : upCount s (tr ++ [(k, a)]) = upCount s tr + (isUp s k a).toNat := by
  cases h : isUp s k a <;> simp [upCount, h]

theorem init (b : Boot) (s : SemaRef) : SemaInv b s [] (boot b) := by
  refine ⟨by simp [completedDowns, upCount, boot], nodup_nil,
    fun t ht => absurd ht not_mem_nil, fun hw => absurd ?_ hw⟩
  cases s with
  | user n => cases n <;> rfl
  | lock _ | waiter _ => rfl

/-- Whoever executes the retest is not a woken thread afterwards, and nobody else's next
    instruction changes. -/
theorem head_of_woken (he : RunStep b k a k') {t : ThreadRef} (ht : k.head t = some (.semaRetest s))
    (hd : t = k.current → k.does a ≠ some (.semaRetest s)) : k'.head t = some (.semaRetest s) := by
  refine he.head_keep ht fun hcur hx => ?_
  subst hcur hx
  exact hd rfl ht

attribute [local simp] completesDown wokenStep isUp

theorem history_of_not_onSema (hd : ∀ i, k.does a = some i → onSema s i = false) :
    completesDown s k a = false ∧ isUp s k a = false ∧ ∀ w, wokenStep s w (k, a) = w := by
  cases hi : k.does a with
  | none => simp [hi]
  | some i =>
    have hon := hd i hi
    cases i with
    | semaDown s' | semaRetest s' | semaTryDown s' | semaUp s' =>
      have hne : s' ≠ s := by simpa [onSema] using hon
      simp [hi, hne]
    | _ => simp [hi]

section

variable (hd : k.does a = some (.semaDown s) ∨ k.does a = some (.semaRetest s))
include hd

theorem history_of_down :
    (completesDown s k a = decide (0 < (k.sema s).value)) ∧ isUp s k a = false ∧
      ((k.does a = some (.semaDown s) ∧ ∀ w, wokenStep s w (k, a) = w) ∨
       (k.does a = some (.semaRetest s) ∧ ∀ w, wokenStep s w (k, a) = w.erase k.current)) := by
  rcases hd with hd | hd
  · refine ⟨by simp [hd], by simp [hd], .inl ⟨hd, fun w => ?_⟩⟩
    simp [hd]
  · refine ⟨by simp [hd], by simp [hd], .inr ⟨hd, fun w => ?_⟩⟩
    simp [hd]

theorem head_of_does : k.does a = k.head k.current := by
  cases a with
  | exec => rfl
  | _ => rcases hd with hd | hd <;> simp [does] at hd

end

variable (h : SemaInv b s tr k)
include h

/-- The woken threads after a turn of the loop of `sema_down (s)`: the same, without the current
    thread. -/
theorem woken_of_down (he : RunStep b k a k')
    (hd : k.does a = some (.semaDown s) ∨ k.does a = some (.semaRetest s)) :
    (woken s (tr ++ [(k, a)])).Nodup ∧
    (∀ t ∈ woken s (tr ++ [(k, a)]), t ≠ k.current ∧ t ∈ woken s tr ∧
      k'.head t = some (.semaRetest s)) ∧
    (woken s tr).length ≤ (woken s (tr ++ [(k, a)])).length + 1 ∧
    (k.does a = some (.semaDown s) → woken s (tr ++ [(k, a)]) = woken s tr) := by
  have hcur := head_of_does hd
  rw [woken_snoc]
  obtain ⟨-, -, ⟨hd', hw⟩ | ⟨hd', hw⟩⟩ := history_of_down hd
  · rw [hw]
    refine ⟨h.nodup, fun t ht => ?_, by omega, fun _ => rfl⟩
    have hh := (h.wokenOut t ht).1
    have hne : t ≠ k.current := by
      rintro rfl
      rw [← hcur, hd'] at hh
      cases hh
    exact ⟨hne, ht, head_of_woken he hh fun hc => absurd hc hne⟩
  · rw [hw]
    refine ⟨h.nodup.erase _, fun t ht => ?_, ?_, fun hx => ?_⟩
    · obtain ⟨hne, ht⟩ := (Nodup.mem_erase_iff h.nodup).mp ht
      exact ⟨hne, ht, head_of_woken he (h.wokenOut t ht).1 fun hc => absurd hc hne⟩
    · rw [length_erase]
      split <;> omega
    · rw [hd'] at hx
      cases hx

/-- A step that neither wakes a thread nor tests again, and lets nobody wait. -/
theorem of_same_woken (he : RunStep b k a k') (hd : k.does a ≠ some (.semaRetest s))
    (hwoken : ∀ w, wokenStep s w (k, a) = w) (hw : (k'.sema s).waiters ⊆ (k.sema s).waiters)
    (hv : (k'.sema s).waiters ≠ [] → (k'.sema s).value ≤ (k.sema s).value)
    (hcount : completedDowns s (tr ++ [(k, a)]) + (k'.sema s).value =
      (b.sema s).value + upCount s (tr ++ [(k, a)])) : SemaInv b s (tr ++ [(k, a)]) k' := by
  have hsame : woken s (tr ++ [(k, a)]) = woken s tr := woken_snoc.trans (hwoken _)
  refine ⟨hcount, hsame ▸ h.nodup, fun t ht => ?_, fun hne => ?_⟩
  · obtain ⟨hh, hout⟩ := h.wokenOut t (hsame ▸ ht)
    exact ⟨head_of_woken he hh fun _ => hd, fun hin => hout (hw hin)⟩
  · rw [hsame]
    exact Nat.le_trans (hv hne) (h.enough fun hnil => hne (subset_nil.mp (hnil ▸ hw)))

/-- **One step** keeps the semaphore invariant. -/
theorem step (hs : ∀ t, s ≠ .waiter t) (he : RunStep b k a k') (hover : noOverflow s k a) :
    SemaInv b s (tr ++ [(k, a)]) k' := by
  have hcount := h.count
  rcases he.sema_cases hs with ⟨hk, hd⟩ | ⟨hd, hv, hk⟩ | ⟨hd, hv, hk⟩ | ⟨hd, hk⟩ | ⟨hd, hk⟩
  · -- not touched
    obtain ⟨h1, h2, h3⟩ := history_of_not_onSema hd
    refine h.of_same_woken he (fun hx => ?_) h3 (by rw [hk]; simp) (by rw [hk]; simp) ?_
    · exact absurd (hd _ hx) (by simp [onSema])
    · rwa [downs_snoc, ups_snoc, h1, h2, hk]
  · -- blocked: the value is zero
    obtain ⟨h1, h2, -⟩ := history_of_down hd
    obtain ⟨hnd, hout, -, -⟩ := h.woken_of_down he hd
    refine ⟨?_, hnd, fun t ht => ?_, fun _ => ?_⟩
    · rw [downs_snoc, ups_snoc, h1, h2, hk]
      simpa [hv] using hcount
    · obtain ⟨hne, ht, hh⟩ := hout t ht
      refine ⟨hh, ?_⟩
      rw [hk]
      simp only [mem_listInsertOrdered, not_or]
      exact ⟨hne, (h.wokenOut t ht).2⟩
    · rw [hk]
      simp [hv]
  · -- took a unit: at most one thread is woken no more
    obtain ⟨h1, h2, -⟩ := history_of_down hd
    obtain ⟨hnd, hout, hlen, -⟩ := h.woken_of_down he hd
    refine ⟨?_, hnd, fun t ht => ?_, fun hw => ?_⟩
    · rw [downs_snoc, ups_snoc, h1, h2, hk]
      have hpos : 0 < (k.sema s).value := Nat.pos_of_ne_zero hv
      simp only [hpos, decide_true, Bool.toNat_true, Bool.toNat_false]
      omega
    · obtain ⟨-, ht, hh⟩ := hout t ht
      exact ⟨hh, hk ▸ (h.wokenOut t ht).2⟩
    · rw [hk] at hw ⊢
      have := h.enough hw
      simp only
      omega
  · -- `sema_try_down'
    have h2 : isUp s k a = false := by simp [hd]
    have h1 : completesDown s k a = decide (0 < (k.sema s).value) := by simp [hd]
    refine h.of_same_woken he (by simp [hd]) (by simp [hd]) (by rw [hk]; simp)
      (by rw [hk]; simp) ?_
    rw [downs_snoc, ups_snoc, h1, h2, hk]
    by_cases hpos : 0 < (k.sema s).value
    · simp only [hpos, decide_true, Bool.toNat_true, Bool.toNat_false]
      omega
    · simp only [hpos, decide_false, Bool.toNat_false]
      omega
  · -- `sema_up': the first of the sorted waiters is woken
    have h1 : completesDown s k a = false := by simp [hd]
    have h2 : isUp s k a = true := by simp [hd]
    have hval : ((k.sema s).value + 1) % 4294967296 = (k.sema s).value + 1 :=
      Nat.mod_eq_of_lt (hover h2)
    have hno : k.does a ≠ some (.semaRetest s) := by simp [hd]
    have hcount' : completedDowns s (tr ++ [(k, a)]) + (k'.sema s).value =
        (b.sema s).value + upCount s (tr ++ [(k, a)]) := by
      rw [downs_snoc, ups_snoc, h1, h2, hk]
      simp only [hval, Bool.toNat_true, Bool.toNat_false]
      omega
    cases hsort : listSort k.listDescPrioSort (k.sema s).waiters with
    | nil =>
      rw [hsort] at hk
      exact h.of_same_woken he hno (by simp [hd, hsort]) (by simp [hk]) (by simp [hk]) hcount'
    | cons t ts =>
      have h3 : ∀ w, wokenStep s w (k, a) = t :: w := fun w => by simp [hd, hsort]
      have hperm : (t :: ts).Perm (k.sema s).waiters := hsort ▸ listSort_perm _ _
      have hmem : ∀ u, u ∈ (k.sema s).waiters ↔ u = t ∨ u ∈ ts := fun u => by
        rw [← hperm.mem_iff, mem_cons]
      have ht : t ∈ (k.sema s).waiters := (hmem t).mpr (.inl rfl)
      have hts : t ∉ ts := (nodup_cons.mp (hperm.nodup_iff.mpr (he.alive.waitNodup s))).1
      have hfresh : t ∉ woken s tr := fun hw => (h.wokenOut t hw).2 ht
      rw [hsort, tail_cons] at hk
      refine ⟨hcount', ?_, fun u hu => ?_, fun hw => ?_⟩
      · rw [woken_snoc, h3]
        exact nodup_cons.mpr ⟨hfresh, h.nodup⟩
      · rw [woken_snoc, h3, mem_cons] at hu
        rw [hk]
        rcases hu with rfl | hu
        · exact ⟨head_of_woken he (he.alive.waiting s u ht).2.2 fun _ => hno, hts⟩
        · obtain ⟨hh, hout⟩ := h.wokenOut u hu
          exact ⟨head_of_woken he hh fun _ => hno, fun hx => hout ((hmem u).mpr (.inr hx))⟩
      · have := h.enough (ne_nil_of_mem ht)
        rw [woken_snoc, h3, hk, length_cons]
        simp only [hval]
        omega

end SemaInv

/-- **Exact counting and no lost wake-up.**  On every run in which the counter of `s` does not
    overflow: completed downs and the current value make up the initial value and the ups; and
    whenever somebody is on the wait list, at least `value` distinct threads have been unblocked by
    a `sema_up (s)`, are on their way back to the test, and have not tested again. -/
theorem semaphore_exact (hs : ∀ t, s ≠ .waiter t) {tr : List (Kernel × Action)}
    (h : (kernelMachine.guard (noOverflow s)).Run (boot b) tr k) :
    completedDowns s tr + (k.sema s).value = (b.sema s).value + upCount s tr ∧
    ((k.sema s).waiters ≠ [] → (k.sema s).value ≤ (woken s tr).length) ∧
    (woken s tr).Nodup ∧
    (∀ t ∈ woken s tr, k.head t = some (.semaRetest s) ∧ t ∉ (k.sema s).waiters) := by
  have hinv : SemaInv b s tr k := by
    refine h.history (J := SemaInv b s) (SemaInv.init b s) ?_
    rintro tr k a k' hr hi ⟨ha, hg⟩ hstep
    exact hi.step hs (run_step hr.of_guard ha hstep) hg
  exact ⟨hinv.count, hinv.enough, hinv.nodup, hinv.wokenOut⟩

/-- Two threads wait and an interrupt handler ups: the first is woken, the second still waits. -/
theorem semaphore_exact_two_waiters : ∃ tr k,
    (kernelMachine.guard (noOverflow (.user 1))).Run (boot Boot.small) tr k ∧
    (k.sema (.user 1)).waiters = [3] ∧ (k.sema (.user 1)).value = 1 ∧
    1 ≤ (woken (.user 1) tr).length := by
  obtain ⟨tr, k, hr, hw, hv⟩ := (kernelMachine.guard (noOverflow (.user 1))).exists_reached
    (boot Boot.small)
    (startUp ++ creates 3 20 ++ calls (.semaDown (.user 1)) 1 ++ execs 1 ++
      calls (.semaDown (.user 1)) 1 ++ [.intrSemaUp (.user 1)])
    (fun _ k => (k.sema (.user 1)).waiters = [3] ∧ (k.sema (.user 1)).value = 1)
    (by decide +kernel)
  refine ⟨tr, k, hr, hw, hv, ?_⟩
  have henough := (semaphore_exact (fun t => by simp) hr).2.1
  rw [hw, hv] at henough
  exact henough (by simp)

/-! ## Whom an up wakes -/

section

variable {t : ThreadRef} {ts : List ThreadRef}

theorem run_threadMlfqs {tr : List (Kernel × Action)} (h : kernelMachine.Run (boot b) tr k) :
    k.threadMlfqs = b.mlfqs := by
  refine h.history (J := fun _ k => k.threadMlfqs = b.mlfqs) rfl ?_
  intro tr k a k' _ hi _ hs
  rw [(step_effect hs).threadMlfqs, hi]

/-- The first of the sorted waiters has the highest priority, and the rest are the others. -/
theorem listSort_highest (hm : k.threadMlfqs = false)
    (hsort : listSort k.listDescPrioSort (k.sema s).waiters = t :: ts) :
    t ∈ (k.sema s).waiters ∧
    (∀ u ∈ (k.sema s).waiters, (k.thread u).priority ≤ (k.thread t).priority) ∧
    ts.Perm ((k.sema s).waiters.erase t) := by
  have hperm := listSort_perm k.listDescPrioSort (k.sema s).waiters
  have hsorted := listSort_sorted (strictWeak_desc k.sortKey) (k.sema s).waiters
  rw [show (fun x y => decide (k.sortKey y < k.sortKey x)) = k.listDescPrioSort from rfl] at hsorted
  rw [hsort] at hperm hsorted
  have hkey : ∀ u, k.sortKey u = (k.thread u).priority := fun u => by simp [sortKey, hm]
  refine ⟨hperm.mem_iff.mp (mem_cons_self ..), fun u hu => ?_, ?_⟩
  · rcases mem_cons.mp (hperm.mem_iff.mpr hu) with rfl | hu
    · exact Int.le_refl _
    · have hle := of_decide_eq_false ((pairwise_cons.mp hsorted).1 u hu)
      rw [hkey, hkey] at hle
      exact Int.not_lt.mp hle
  · have herase := hperm.erase t
    rwa [erase_cons_head] at herase

/-- **The waiter that `sema_up (s)` unblocks.** -/
theorem semaUp_highest (hm : k.threadMlfqs = false) (hne : (k.sema s).waiters ≠ [])
    (hblocked : ∀ t ∈ (k.sema s).waiters, (k.thread t).status = .blocked) :
    ∃ t ts, k.semaUp s = .ok (some t, raised k s t ts) ∧ t ∈ (k.sema s).waiters ∧
      (∀ u ∈ (k.sema s).waiters, (k.thread u).priority ≤ (k.thread t).priority) ∧
      ts.Perm ((k.sema s).waiters.erase t) := by
  cases hsort : listSort k.listDescPrioSort (k.sema s).waiters with
  | nil =>
    have hperm := listSort_perm k.listDescPrioSort (k.sema s).waiters
    rw [hsort] at hperm
    exact absurd hperm.symm.eq_nil hne
  | cons t ts =>
    obtain ⟨hmem, hmax, hrest⟩ := listSort_highest hm hsort
    refine ⟨t, ts, ?_, hmem, hmax, hrest⟩
    rw [semaUp_eq, hsort]
    simp only [if_pos (hblocked t hmem)]

theorem raised_status (k : Kernel) (s : SemaRef) (t : ThreadRef) (ts : List ThreadRef)
    (u : ThreadRef) : ((raised k s t ts).thread u).status =
    if u = t then .ready else (k.thread u).status :=
  setStatus_status ..

theorem mem_raised_readyList (k : Kernel) (s : SemaRef) (t : ThreadRef) (ts : List ThreadRef) :
    t ∈ (raised k s t ts).readyList :=
  mem_listInsertOrdered.mpr (.inl rfl)

theorem threadYield_status (u : ThreadRef) : (k.threadYield.thread u).status =
    if u = k.current then .ready else (k.thread u).status := by
  unfold Kernel.threadYield
  split <;> exact setStatus_status ..

theorem mem_threadYield_readyList (h : t ∈ k.readyList) : t ∈ k.threadYield.readyList := by
  unfold Kernel.threadYield
  split
  · exact h
  · exact mem_listInsertOrdered.mpr (.inr h)

/-- What a `sema_up (s)` that unblocks `t` has done when its section ends in `k₁`. -/
structure Wakes (k : Kernel) (s : SemaRef) (t : ThreadRef) (k₁ : Kernel) : Prop where
  waited : t ∈ (k.sema s).waiters
  highest : ∀ u ∈ (k.sema s).waiters, (k.thread u).priority ≤ (k.thread t).priority
  /-- The others wait still. -/
  rest : (k₁.sema s).waiters.Perm ((k.sema s).waiters.erase t)
  ready : (k₁.thread t).status = .ready ∧ t ∈ k₁.readyList
  /-- Nobody else is unblocked. -/
  others : ∀ u, u ≠ t → (k.thread u).status = .blocked → (k₁.thread u).status = .blocked

end

/-- **`sema_up` wakes the highest.**  In every reachable state of the priority scheduler, a `sema_up`
    of a thread or of an interrupt handler, on a semaphore with waiters, unblocks one of those with
    the highest priority of the moment and leaves the others waiting.  A thread then comes to the
    test that ends `sema_up`, and there yields exactly if the thread it has unblocked has a higher
    priority than its own. -/
theorem sema_up_wakes_highest (hm : b.mlfqs = false) {tr : List (Kernel × Action)}
    (hr : kernelMachine.Run (boot b) tr k) :
    (∀ a s, k.does a = some (.semaUp s) → (k.sema s).waiters ≠ [] →
      ∃ t k₁ sched, k.act a = .ok (k₁, sched) ∧ Wakes k s t k₁ ∧
        (a = .exec → sched = false ∧ k₁.current = k.current ∧
          k₁.head k.current = some (.semaUpYield t))) ∧
    ∀ t, k.head k.current = some (.semaUpYield t) →
      k.act .exec = .ok (if (k.thread k.current).priority < (k.thread t).priority
        then (k.pop.threadYield, true) else (k.pop, false)) := by
  have hl := (run_sound hr).1
  have hm' : k.threadMlfqs = false := (run_threadMlfqs hr).trans hm
  refine ⟨fun a s hd hne => ?_, fun t ht => ?_⟩
  · have hblocked : ∀ t ∈ (k.sema s).waiters, (k.thread t).status = .blocked :=
      fun t ht => (hl.waiting s t ht).2.1
    cases a with
    | exec =>
      obtain ⟨t, ts, hup, hmem, hmax, hrest⟩ := semaUp_highest (k := k.pop) hm' hne hblocked
      refine ⟨t, (raised k.pop s t ts).push [.semaUpYield t], false, ?_, ⟨hmem, hmax, ?_, ?_, ?_⟩,
        fun _ => ⟨rfl, rfl, ?_⟩⟩
      · rw [act_exec hd]
        simp only [execInstr, hup]
      · show ((update _ s _ : SemaRef → Semaphore) s).waiters.Perm _
        rwa [update_self]
      · have hready := raised_status k.pop s t ts t
        rw [if_pos rfl] at hready
        exact ⟨hready, mem_raised_readyList k.pop s t ts⟩
      · intro u hu hb
        have hsame := raised_status k.pop s t ts u
        rw [if_neg hu] at hsame
        exact hsame.trans hb
      · have hcur : (raised k.pop s t ts).current = k.current := rfl
        simp only [head, push, hcur, update_self]
        rfl
    | intrSemaUp s' =>
      obtain rfl : s' = s := by simpa [does] using hd
      obtain ⟨t, ts, hup, hmem, hmax, hrest⟩ := semaUp_highest hm' hne hblocked
      refine ⟨t, (raised k s' t ts).threadYield, true, ?_, ⟨hmem, hmax, ?_, ⟨?_, ?_⟩, ?_⟩, fun h => ?_⟩
      · simp only [act, hup]
      · rw [(threadYield_sync _).sema]
        show ((update _ s' _ : SemaRef → Semaphore) s').waiters.Perm _
        rwa [update_self]
      · rw [threadYield_status, raised_status, if_pos rfl, ite_self]
      · exact mem_threadYield_readyList (mem_raised_readyList ..)
      · intro u hu hb
        -- the interrupted thread is running
        have hcur : u ≠ (raised k s' t ts).current := hl.ne_current (by rw [hb]; decide)
        rw [threadYield_status, if_neg hcur, raised_status, if_neg hu, hb]
      · cases h
    | call _ | timer | intrSemaTryDown _ | unblock _ => simp [does] at hd
  · rw [act_exec ht]
    show Except.ok (k.pop.yieldIf
      (decide ((k.thread k.current).priority < (k.thread t).priority))) = _
    simp only [yieldIf, decide_eq_true_eq]

/-- Threads 3 and 4, of priorities 20 and 10, wait in this order; a donation has raised thread 4 to
    31, and it is the one the interrupt handler wakes. -/
theorem sema_up_wakes_donee : ∃ tr k, kernelMachine.Run (boot Boot.small) tr k ∧
    (k.sema (.user 1)).waiters = [3, 4] ∧ ∃ k₁ sched,
      k.act (.intrSemaUp (.user 1)) = .ok (k₁, sched) ∧ Wakes k (.user 1) 4 k₁ := by
  obtain ⟨tr, k, hr, hw, h3, h4⟩ := kernelMachine.exists_reached (boot Boot.small)
    (startUp ++ creates 3 20 ++ creates 4 10 ++ calls (.semaDown (.user 2)) 1 ++ execs 1 ++
      calls (.semaDown (.user 1)) 1 ++ execs 1 ++ calls (.lockAcquire 1) 3 ++
      calls (.semaDown (.user 1)) 1 ++ [.intrSemaUp (.user 2)] ++ execs 1 ++
      calls (.lockAcquire 1) 2)
    (fun _ k => (k.sema (.user 1)).waiters = [3, 4] ∧ (k.thread 3).priority = 20 ∧
      (k.thread 4).priority = 31) (by decide +kernel)
  obtain ⟨t, k₁, sched, hact, hwakes, -⟩ := (sema_up_wakes_highest rfl hr).1
    (.intrSemaUp (.user 1)) (.user 1) rfl (by rw [hw]; simp)
  obtain rfl : t = 4 := by
    have hmem := hwakes.waited
    have hmax := hwakes.highest 4 (by rw [hw]; simp)
    rw [hw] at hmem
    rcases mem_cons.mp hmem with rfl | hmem
    · omega
    · exact mem_singleton.mp hmem
  exact ⟨tr, k, hr, hw, k₁, sched, hact, hwakes⟩

end Pintos.Threads
