/-
  What scheduling leaves alone.

  `thread_yield`, `thread_unblock` and `schedule` move threads between queues and change their
  status.  Everything the synchronisation primitives are about (semaphores, holders, conditions,
  priorities, donors, and what every thread still has to do) is untouched: `SameSync`.  An invariant
  of those members therefore only has to be checked on the section an action runs (`Kernel.act`),
  never on the switch after it (`step_sync`).
-/
import Pintos.Threads.Step

namespace Pintos.Threads

open Lib Base Kernel Function Kernel Except

/-- `k'` differs from `k` in queues and statuses only. -/
structure SameSync (k k' : Kernel) : Prop where
  threadMlfqs : k'.threadMlfqs = k.threadMlfqs
  allList : k'.allList = k.allList
  idleThread : k'.idleThread = k.idleThread
  sema : k'.sema = k.sema
  holder : k'.holder = k.holder
  condWaiters : k'.condWaiters = k.condWaiters
  code : k'.code = k.code
  priority : ∀ t, (k'.thread t).priority = (k.thread t).priority
  basePriority : ∀ t, (k'.thread t).basePriority = (k.thread t).basePriority
  donorThreads : ∀ t, (k'.thread t).donorThreads = (k.thread t).donorThreads
  waitingLock : ∀ t, (k'.thread t).waitingLock = (k.thread t).waitingLock

theorem SameSync.refl (k : Kernel) : SameSync k k :=
  ⟨rfl, rfl, rfl, rfl, rfl, rfl, rfl, fun _ => rfl, fun _ => rfl, fun _ => rfl, fun _ => rfl⟩

theorem SameSync.trans {k1 k2 k3 : Kernel} (h : SameSync k1 k2) (h' : SameSync k2 k3) :
    SameSync k1 k3 where
  threadMlfqs := h'.threadMlfqs.trans h.threadMlfqs
  allList := h'.allList.trans h.allList
  idleThread := h'.idleThread.trans h.idleThread
  sema := h'.sema.trans h.sema
  holder := h'.holder.trans h.holder
  condWaiters := h'.condWaiters.trans h.condWaiters
  code := h'.code.trans h.code
  priority t := (h'.priority t).trans (h.priority t)
  basePriority t := (h'.basePriority t).trans (h.basePriority t)
  donorThreads t := (h'.donorThreads t).trans (h.donorThreads t)
  waitingLock t := (h'.waitingLock t).trans (h.waitingLock t)

theorem threadYield_sync (k : Kernel) : SameSync k k.threadYield := by
  unfold threadYield
  split
  · constructor <;> simp
  · constructor <;> simp [enqueue]

variable {k k' : Kernel} {l : LockRef} {sched : Bool} {o : ThreadRef}
  {holder : LockRef → Option ThreadRef} {f : Fault} {p : Int}

theorem threadUnblock_sync {t : ThreadRef} (h : k.threadUnblock t = .ok k') : SameSync k k' := by
  obtain ⟨-, rfl⟩ := eq_of_guard h
  constructor <;> simp [enqueue]

theorem nextThreadToRun_sync {n : Option ThreadRef}
    (h : k.nextThreadToRun = .ok (n, k')) : SameSync k k' ∧ k'.thread = k.thread := by
  unfold nextThreadToRun at h
  split at h
  · obtain ⟨-, rfl⟩ := Prod.mk.inj (ok.inj h)
    exact ⟨SameSync.refl k, rfl⟩
  split at h
  · -- the highest level with a thread
    split at h
    · cases h
    · split at h
      · cases h
      · obtain ⟨-, rfl⟩ := Prod.mk.inj (ok.inj h)
        exact ⟨by constructor <;> simp, rfl⟩
  · obtain ⟨-, rfl⟩ := Prod.mk.inj (ok.inj h)
    exact ⟨by constructor <;> simp, rfl⟩

/-- `schedule ()` succeeds in one way only: a next thread, taken out of the queues, runs. -/
theorem schedule_eq_ok (h : k.schedule = .ok k') :
    ∃ n k1, k.nextThreadToRun = .ok (some n, k1) ∧ (k.thread k.current).status ≠ .running ∧
      k' = { k1 with current := n, thread := setStatus k1.thread n .running } := by
  unfold schedule at h
  split at h
  · cases h
  · rename_i next k1 hn
    obtain ⟨hst, h⟩ := ok_of_check h
    split at h
    · cases h
    · exact ⟨_, k1, hn, hst, (ok.inj h).symm⟩

theorem schedule_sync (h : k.schedule = .ok k') : SameSync k k' := by
  obtain ⟨n, k1, hn, -, rfl⟩ := schedule_eq_ok h
  refine (nextThreadToRun_sync hn).1.trans ?_
  constructor <;> simp

/-- A section goes on, or ends in `schedule ()`. -/
theorem finish_eq_ok {res : Except Fault (Kernel × Bool)} (h : finish res = .ok k') :
    (res = .ok (k', false)) ∨ (∃ k1, res = .ok (k1, true) ∧ k1.schedule = .ok k') := by
  match res, h with
  | .ok (k1, true), h => exact .inr ⟨k1, rfl, h⟩
  | .ok (k1, false), h =>
    cases h
    exact .inl rfl

/-- A step is the section of its action and, after it, nothing that matters to synchronisation. -/
theorem step_sync {a : Action} (h : k.step a = .ok k') :
    ∃ k1 sched, k.act a = .ok (k1, sched) ∧ SameSync k1 k' := by
  rcases finish_eq_ok (ok_of_guard h).2 with h | ⟨k1, h, hs⟩
  · exact ⟨k', false, h, SameSync.refl k'⟩
  · exact ⟨k1, true, h, schedule_sync hs⟩

theorem act_exec {i : Instr} (h : k.head k.current = some i) : k.act .exec = k.pop.execInstr i := by
  cases hc : k.code k.current with
  | nil => rw [head, hc] at h; cases h
  | cons =>
    rw [head, hc] at h
    cases h
    simp only [act, hc]

theorem continues_eq_ok {res : Except Fault Kernel}
    (h : continues res = .ok (k', sched)) : res = .ok k' ∧ sched = false := by
  match res, h with
  | .ok k1, h =>
    cases h
    exact ⟨rfl, rfl⟩

theorem ok_fst {x : Kernel × Bool}
    (h : (ok x : Except Fault (Kernel × Bool)) = .ok (k', sched)) : k' = x.1 := by
  rw [ok.inj h]

theorem yieldIf_sync (k : Kernel) (test : Bool) : SameSync k (k.yieldIf test).1 := by
  unfold yieldIf
  split
  · exact threadYield_sync k
  · exact SameSync.refl k

/-- The state in which a `sema_up (s)` that unblocks `t` leaves the kernel. -/
def raised (k : Kernel) (s : SemaRef) (t : ThreadRef) (ts : List ThreadRef) : Kernel :=
  { k.enqueue t with
    thread := setStatus k.thread t .ready
    sema := update k.sema s ⟨((k.sema s).value + 1) % 4294967296, ts⟩ }

/-- `sema_up` in one piece: the sort, the `thread_unblock` and the count. -/
theorem semaUp_eq (k : Kernel) (s : SemaRef) : k.semaUp s =
    match listSort k.listDescPrioSort (k.sema s).waiters with
    | [] => .ok (none, { k with
        sema := update k.sema s ⟨((k.sema s).value + 1) % 4294967296, []⟩ })
    | t :: ts =>
      if (k.thread t).status = .blocked then .ok (some t, raised k s t ts)
      else .error .threadUnblock := by
  unfold semaUp threadUnblock
  cases listSort k.listDescPrioSort (k.sema s).waiters with
  | nil => rfl
  | cons t =>
    by_cases hst : (k.thread t).status = .blocked
    · simp only [if_pos hst, enqueue, raised, update_idem]
      rfl
    · simp only [if_neg hst]

/-- `sema_up` either finds nobody waiting, or unblocks the first of the sorted waiters. -/
theorem semaUp_eq_ok {s : SemaRef} {w : Option ThreadRef} (h : k.semaUp s = .ok (w, k')) :
    (w = none ∧ (k.sema s).waiters = [] ∧ k' = { k with
        sema := update k.sema s ⟨((k.sema s).value + 1) % 4294967296, []⟩ }) ∨
    (∃ t ts, w = some t ∧ listSort k.listDescPrioSort (k.sema s).waiters = t :: ts ∧
      k' = raised k s t ts) := by
  rw [semaUp_eq] at h
  split at h
  · rename_i hsort
    cases h
    have hnil := listSort_perm k.listDescPrioSort (k.sema s).waiters
    rw [hsort] at hnil
    exact .inl ⟨rfl, hnil.symm.eq_nil, rfl⟩
  · rename_i t ts hsort
    obtain ⟨rfl, rfl⟩ := Prod.mk.inj (eq_of_guard h).2
    exact .inr ⟨t, ts, rfl, hsort, rfl⟩

/-! ## What each section of a lock does -/

/-- The nested loop writes priorities and nothing else. -/
theorem donateNested_only :
    ∀ {n : Nat} {th th' : ThreadRef → Thread} {l : Option LockRef},
      donateNested holder p n th l = .ok th' → ∀ u, ∃ q, th' u = { th u with priority := q }
  | 0, th, th', none, h, u => by
    cases h
    exact ⟨_, rfl⟩
  | n + 1, th, th', none, h, u => by
    cases h
    exact ⟨_, rfl⟩
  | n + 1, th, th', some l, h, u => by
    rw [donateNested] at h
    split at h
    · cases h
    · obtain ⟨q, hq⟩ := donateNested_only h u
      rw [setPriority, modify_apply] at hq
      split at hq
      · exact ⟨q, hq⟩
      · exact ⟨q, hq⟩

/-- `lock_acquire` donates exactly when the lock is held by a thread of lower priority. -/
theorem donate_eq_ok (h : k.donate l o = .ok k') :
    (k' = k ∧ (k.thread k.current).priority ≤ (k.thread o).priority) ∨
    (∃ th, k' = { k with thread := th } ∧ (k.thread o).priority < (k.thread k.current).priority ∧
      donateNested k.holder (k.thread k.current).priority k.allList.length (k.donateDirect l o)
        (k.donateDirect l o o).waitingLock = .ok th) := by
  unfold donate at h
  simp only at h
  split at h
  · rename_i hlt
    split at h
    · cases h
    · rename_i th hth
      exact .inr ⟨th, (ok.inj h).symm, hlt, hth⟩
  · rename_i hlt
    exact .inl ⟨(ok.inj h).symm, Int.not_lt.mp hlt⟩

/-- A `lock_acquire` that comes to its `sema_down`: the lock is free, or its holder is donated to. -/
theorem lockAcquire_eq_ok (h : k.lockAcquire l = .ok k') :
    (k.holder l = none ∧ k' = k.push [.semaDown (.lock l)]) ∨
    (∃ o k1, k.holder l = some o ∧ o ≠ k.current ∧ k.donate l o = .ok k1 ∧
      k' = k1.push [.semaDown (.lock l)]) := by
  unfold lockAcquire at h
  split at h
  · rename_i hh
    exact .inl ⟨hh, (ok.inj h).symm⟩
  rename_i o ho
  obtain ⟨hne, h⟩ := ok_of_check h
  split at h
  · cases h
  · rename_i k1 hk
    exact .inr ⟨o, k1, ho, hne, hk, (ok.inj h).symm⟩

/-- The walk meets a lock without a holder, or goes round for ever. -/
theorem donateNested_error :
    ∀ {n : Nat} {th : ThreadRef → Thread} {l : Option LockRef},
      donateNested holder p n th l = .error f → f = .nullHolder ∨ f = .donationCycle
  | 0, th, none, h => absurd h (by simp [donateNested])
  | n + 1, th, none, h => absurd h (by simp [donateNested])
  | 0, th, some l, h => .inr (error.inj h).symm
  | n + 1, th, some l, h => by
    rw [donateNested] at h
    split at h
    · exact .inl (error.inj h).symm
    · exact donateNested_error h

theorem lockAcquire_error (h : k.lockAcquire l = .error f) :
    (f = .lockHeld ∧ k.holder l = some k.current) ∨ f = .nullHolder ∨ f = .donationCycle := by
  unfold lockAcquire at h
  split at h
  · cases h
  rename_i o ho
  split at h
  · rename_i hcur
    exact .inl ⟨(error.inj h).symm, hcur ▸ ho⟩
  split at h
  · rename_i f' hd
    obtain rfl := error.inj h
    unfold donate at hd
    simp only at hd
    split at hd
    · split at hd
      · rename_i hn
        obtain rfl := error.inj hd
        exact .inr (donateNested_error hn)
      · cases hd
    · cases hd
  · cases h

/-- A donation changes no status, no base priority and nothing outside the `struct thread`s. -/
theorem donate_only (h : k.donate l o = .ok k') :
    ∃ th, k' = { k with thread := th } ∧ ∀ u, (th u).status = (k.thread u).status ∧
      (th u).basePriority = (k.thread u).basePriority := by
  rcases donate_eq_ok h with ⟨rfl, -⟩ | ⟨th, rfl, -, hth⟩
  · exact ⟨k'.thread, rfl, fun u => ⟨rfl, rfl⟩⟩
  refine ⟨th, rfl, fun u => ?_⟩
  obtain ⟨q, hq⟩ := donateNested_only hth u
  rw [hq]
  simp only [donateDirect, modify_apply]
  constructor
  · split <;> split <;> simp
  · split <;> split <;> simp

theorem lockAcquire_only (h : k.lockAcquire l = .ok k') :
    ∃ th, k' = push { k with thread := th } [.semaDown (.lock l)] ∧
      ∀ u, (th u).status = (k.thread u).status ∧
        (th u).basePriority = (k.thread u).basePriority := by
  rcases lockAcquire_eq_ok h with ⟨-, rfl⟩ | ⟨o, k1, -, -, hk, rfl⟩
  · exact ⟨k.thread, rfl, fun u => ⟨rfl, rfl⟩⟩
  · obtain ⟨th, rfl, hth⟩ := donate_only hk
    exact ⟨th, rfl, hth⟩

end Pintos.Threads
