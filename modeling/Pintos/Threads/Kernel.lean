/-
  The thread system: `threads/thread.c` and `threads/synch.c` as functions on one kernel state.

  The CPU runs one thread at a time and a section with interrupts off runs to its end, so the
  kernel is a SEQUENTIAL machine whose interleavings are the points where interrupts are on.  This
  file holds the state and the sections; `Pintos.Threads.Step` strings them together.

  1. **State** — a `struct thread` is named by its address (`ThreadRef`), a lock and a condition by
     a number, and a semaphore by what contains it (`SemaRef`).  `code t` is what thread `t` still has
     to execute before it is back in the code that called the kernel.

  2. **Sections** — every function below is one section of the source: it stops with the `Fault` of
     the assertion that fails in it (or of the null pointer it follows), or gives the new state, and
     `true` beside it if the section ends by calling `schedule ()`.  The code of `lock_acquire` up to
     its `sema_down`, and that of `lock_release` up to its `sema_up`, run with interrupts on in the
     source and are taken as one section each.

  3. **Both schedulers** — `threadMlfqs` selects the ready structure exactly where the source tests
     it.  The recalculations of the advanced scheduler (`thread_tick`) are not part of this file.

  4. **Donor lists** are SEQUENCES.  In the source a thread has one `donor_elem`.  Only after a
     `lock_try_acquire` on a free lock can it be on two of them, and there the links would break.

  Two places of the source read memory that is not what their types say, and the model follows the
  bytes: `list_desc_prio_sort` is called on `donor_elem`s although it subtracts the offset of
  `elem` (`donorWord`), and `thread_set_priority` looks at the head of `ready_list` even when that
  list is empty (its `junk` argument).
-/
import Mathlib.Logic.Function.Basic
import Pintos.Lib.List

namespace Pintos.Threads

open Lib Function

/-! ## Names -/

/-- A `struct thread *`: the address of the page the structure starts. -/
abbrev ThreadRef := Nat

abbrev LockRef := Nat

abbrev CondRef := Nat

/-- A `struct semaphore *`, by what contains it. -/
inductive SemaRef where
  /-- A semaphore of its own. -/
  | user (n : Nat)
  /-- `&lock->semaphore`. -/
  | lock (l : LockRef)
  /-- `&waiter.semaphore`, on the stack of a thread inside `cond_wait`. -/
  | waiter (t : ThreadRef)
  deriving DecidableEq

/-- `tid_lock`, the lock of `allocate_tid`. -/
def tidLock : LockRef := 0

/-- `idle_started`, the semaphore `thread_start` waits on. -/
def idleStarted : SemaRef := .user 0

def priMin : Int := 0
def priDefault : Int := 31
def priMax : Int := 63

/-! ## The state -/

inductive ThreadStatus where
  | running
  | ready
  | blocked
  | dying
  deriving DecidableEq

/-- The members of `struct thread` that `thread.c` and `synch.c` read, links aside. -/
structure Thread where
  status : ThreadStatus
  /-- The priority without donations. -/
  basePriority : Int
  /-- The effective priority. -/
  priority : Int
  /-- `donor_threads`, front first. -/
  donorThreads : List ThreadRef
  /-- `waiting_lock`. -/
  waitingLock : Option LockRef
  deriving DecidableEq

structure Semaphore where
  value : Nat
  waiters : List ThreadRef
  deriving DecidableEq

/-- What a thread inside the kernel still has to do.  A constructor is either a call that has not
    started, or the place between two sections of a function where a thread can be found. -/
inductive Instr where
  /-- `sema_down (s)`. -/
  | semaDown (s : SemaRef)
  /-- `sema_down (s)`, back from its `thread_block ()`: about to test the value again. -/
  | semaRetest (s : SemaRef)
  /-- `sema_try_down (s)`. -/
  | semaTryDown (s : SemaRef)
  /-- `sema_up (s)`. -/
  | semaUp (s : SemaRef)
  /-- The end of a `sema_up` that unblocked `t`, interrupts on again. -/
  | semaUpYield (t : ThreadRef)
  /-- `lock_acquire (l)`. -/
  | lockAcquire (l : LockRef)
  /-- `lock_acquire (l)`, back from its `sema_down`. -/
  | lockHold (l : LockRef)
  /-- `lock_try_acquire (l)`. -/
  | lockTryAcquire (l : LockRef)
  /-- `lock_try_acquire (l)`, after a successful `sema_try_down`. -/
  | lockTryHold (l : LockRef)
  /-- `lock_release (l)`. -/
  | lockRelease (l : LockRef)
  /-- `cond_wait (c, l)`. -/
  | condWait (c : CondRef) (l : LockRef)
  /-- `cond_signal (c, l)`. -/
  | condSignal (c : CondRef) (l : LockRef)
  /-- `cond_signal (c, l)`, at its `list_pop_front`. -/
  | condPop (c : CondRef)
  /-- `cond_broadcast (c, l)`, at the test of its loop. -/
  | condBroadcast (c : CondRef) (l : LockRef)
  /-- `thread_create (priority)`, given the page `t` by the page allocator. -/
  | threadCreate (t : ThreadRef) (priority : Int)
  /-- The `thread_unblock (t)` of `thread_create`. -/
  | createUnblock (t : ThreadRef)
  /-- The end of `thread_create`. -/
  | createYield (t : ThreadRef)
  /-- `kernel_thread`, on the first switch to a thread: interrupts go on. -/
  | kernelThread
  /-- `thread_yield ()`. -/
  | threadYield
  /-- `thread_block ()`, called directly (interrupts off). -/
  | threadBlock
  /-- Back from a `thread_block ()` that was called directly. -/
  | blockReturn
  /-- `thread_exit ()`. -/
  | threadExit
  /-- `thread_set_priority (new_priority)`; `junk` is the word it reads as the priority of the
      thread at the head of an EMPTY ready list. -/
  | threadSetPriority (newPriority junk : Int)
  /-- `idle`: `idle_thread = thread_current ()`. -/
  | idleStart
  /-- The loop of `idle`, at its `thread_block ()`. -/
  | idleBlock
  deriving DecidableEq

structure Kernel where
  /-- `thread_mlfqs`. -/
  threadMlfqs : Bool
  /-- `&all_list.head`. -/
  allListHead : Nat
  /-- The `stack` words, which only the advanced scheduler's donor ordering ever looks at. -/
  stackWord : ThreadRef → Int
  /-- The `struct thread`s. -/
  thread : ThreadRef → Thread
  /-- `all_list`, front first. -/
  allList : List ThreadRef
  /-- `ready_list`, front first. -/
  readyList : List ThreadRef
  /-- `priority_levels`. -/
  priorityLevels : Nat → List ThreadRef
  /-- `highest_priority`. -/
  highestPriority : Nat
  /-- `running_thread ()`: the thread whose stack the CPU is on. -/
  current : ThreadRef
  /-- `idle_thread`. -/
  idleThread : Option ThreadRef
  /-- The semaphores. -/
  sema : SemaRef → Semaphore
  /-- `lock->holder`. -/
  holder : LockRef → Option ThreadRef
  /-- `cond->waiters`: each `semaphore_elem` is named by the thread whose stack it is on. -/
  condWaiters : CondRef → List ThreadRef
  /-- What each thread still has to execute, next first. -/
  code : ThreadRef → List Instr

/-- Why the kernel stopped: the assertion that failed, or the pointer that led nowhere. -/
inductive Fault where
  /-- `ASSERT (t->status == THREAD_RUNNING)` in `thread_current`. -/
  | threadCurrent
  /-- `ASSERT (t->status == THREAD_BLOCKED)` in `thread_unblock`. -/
  | threadUnblock
  /-- `ASSERT (cur->status != THREAD_RUNNING)` in `schedule`. -/
  | scheduleStatus
  /-- `ASSERT (is_thread (next))` in `schedule`. -/
  | scheduleNext
  /-- `ASSERT (PRI_MIN <= priority && priority <= PRI_MAX)` in `init_thread`. -/
  | initThreadPriority
  /-- `ASSERT (!lock_held_by_current_thread (lock))`. -/
  | lockHeld
  /-- `ASSERT (lock_held_by_current_thread (lock))`. -/
  | lockNotHeld
  /-- `ASSERT (!list_empty (list))` in `list_front`. -/
  | listFront
  /-- `highest_non_empty_level` walked below `priority_levels[0]`. -/
  | levelUnderflow
  /-- The nested donation loop followed a lock whose holder is null. -/
  | nullHolder
  /-- The nested donation loop went round a cycle. -/
  | donationCycle
  deriving DecidableEq

/-- The faults that are failed assertions. -/
def Fault.isAssertion : Fault → Bool
  | .levelUnderflow | .nullHolder | .donationCycle => false
  | _ => true

/-! ## Writing one member of one thread -/

def modify (th : ThreadRef → Thread) (t : ThreadRef) (f : Thread → Thread) : ThreadRef → Thread :=
  update th t (f (th t))

def setStatus (th : ThreadRef → Thread) (t : ThreadRef) (st : ThreadStatus) : ThreadRef → Thread :=
  modify th t fun r => { r with status := st }

def setPriority (th : ThreadRef → Thread) (t : ThreadRef) (p : Int) : ThreadRef → Thread :=
  modify th t fun r => { r with priority := p }

section

variable (th : ThreadRef → Thread) (t u : ThreadRef) (p : Int) (st : ThreadStatus)

theorem modify_apply (f : Thread → Thread) :
    modify th t f u = if u = t then f (th u) else th u := by
  unfold modify
  by_cases h : u = t
  · subst h; simp
  · simp [h]

@[simp] theorem setStatus_status :
    (setStatus th t st u).status = if u = t then st else (th u).status := by
  rw [setStatus, modify_apply]; split <;> rfl

@[simp] theorem setStatus_priority : (setStatus th t st u).priority = (th u).priority := by
  rw [setStatus, modify_apply]; split <;> rfl

@[simp] theorem setStatus_basePriority : (setStatus th t st u).basePriority = (th u).basePriority := by
  rw [setStatus, modify_apply]; split <;> rfl

@[simp] theorem setStatus_donorThreads : (setStatus th t st u).donorThreads = (th u).donorThreads := by
  rw [setStatus, modify_apply]; split <;> rfl

@[simp] theorem setStatus_waitingLock : (setStatus th t st u).waitingLock = (th u).waitingLock := by
  rw [setStatus, modify_apply]; split <;> rfl

@[simp] theorem setPriority_status : (setPriority th t p u).status = (th u).status := by
  rw [setPriority, modify_apply]; split <;> rfl

@[simp] theorem setPriority_priority :
    (setPriority th t p u).priority = if u = t then p else (th u).priority := by
  rw [setPriority, modify_apply]; split <;> rfl

@[simp] theorem setPriority_basePriority :
    (setPriority th t p u).basePriority = (th u).basePriority := by
  rw [setPriority, modify_apply]; split <;> rfl

@[simp] theorem setPriority_donorThreads :
    (setPriority th t p u).donorThreads = (th u).donorThreads := by
  rw [setPriority, modify_apply]; split <;> rfl

@[simp] theorem setPriority_waitingLock :
    (setPriority th t p u).waitingLock = (th u).waitingLock := by
  rw [setPriority, modify_apply]; split <;> rfl

end

namespace Kernel

/-- Put `is` in front of what the running thread has to do. -/
def push (k : Kernel) (is : List Instr) : Kernel :=
  { k with code := update k.code k.current (is ++ k.code k.current) }

/-! ## The orders -/

/-- The member `list_desc_prio_sort` compares. -/
def sortKey (k : Kernel) (t : ThreadRef) : Int :=
  if k.threadMlfqs then (k.thread t).basePriority else (k.thread t).priority

/-- `list_desc_prio_sort`, on `elem`s. -/
def listDescPrioSort (k : Kernel) (x y : ThreadRef) : Bool := decide (k.sortKey y < k.sortKey x)

/-- `allelem.prev` of `x`, whose predecessor in `all_list` is the last thread seen before it. -/
def allelemPrev (k : Kernel) (x : ThreadRef) : Int :=
  let before := k.allList.takeWhile (· ≠ x)
  -- `allelem' is 28 bytes into `struct thread'
  match before.getLast? with
  | none => k.allListHead
  | some p => p + 28

/-- What `list_desc_prio_sort` compares when it is given `donor_elem`s.  It subtracts the offset of
    `elem` (72) from a pointer to `donor_elem` (offset 60), so that the word it reads as `priority`
    (offset 40) is the one at offset 28 of the thread, `allelem.prev`; and the one it reads as
    `base_priority` is `stack`. -/
def donorWord (k : Kernel) (x : ThreadRef) : Int :=
  if k.threadMlfqs then k.stackWord x else k.allelemPrev x

/-- `list_desc_prio_sort`, on `donor_elem`s. -/
def donorSort (k : Kernel) (x y : ThreadRef) : Bool := decide (k.donorWord y < k.donorWord x)

/-! ## Scheduling -/

/-- Insert `t` into `ready_list` and, for the advanced scheduler, into its level. -/
def enqueue (k : Kernel) (t : ThreadRef) : Kernel :=
  let level := (k.thread t).priority.toNat
  { k with
    readyList := listInsertOrdered k.listDescPrioSort t k.readyList
    priorityLevels := if k.threadMlfqs then
        update k.priorityLevels level (k.priorityLevels level ++ [t])
      else k.priorityLevels
    highestPriority := if k.threadMlfqs then max k.highestPriority level else k.highestPriority }

def threadUnblock (k : Kernel) (t : ThreadRef) : Except Fault Kernel :=
  if (k.thread t).status = .blocked then
    .ok { k.enqueue t with thread := setStatus k.thread t .ready }
  else .error .threadUnblock

/-- `highest_non_empty_level`, from level `n` down. -/
def levelSearch (levels : Nat → List ThreadRef) : Nat → Option Nat
  | 0 => if levels 0 = [] then none else some 0
  | n + 1 => if levels (n + 1) = [] then levelSearch levels n else some (n + 1)

/-- `next_thread_to_run ()`: the thread, null if the ready list is empty and there is no idle
    thread yet, and the queues without it. -/
def nextThreadToRun (k : Kernel) : Except Fault (Option ThreadRef × Kernel) :=
  match k.readyList with
  | [] => .ok (k.idleThread, k)
  | t :: ts =>
    if k.threadMlfqs then
      match levelSearch k.priorityLevels k.highestPriority with
      | none => .error .levelUnderflow
      | some level =>
        match k.priorityLevels level with
        | [] => .error .listFront
        | n :: ns =>
          .ok (some n, { k with
            priorityLevels := update k.priorityLevels level ns
            readyList := k.readyList.erase n })
    else .ok (some t, { k with readyList := ts })

/-- `schedule ()` and `thread_schedule_tail`: the current thread has already changed its status. -/
def schedule (k : Kernel) : Except Fault Kernel :=
  match k.nextThreadToRun with
  | .error f => .error f
  | .ok (next, k') =>
    if (k.thread k.current).status = .running then .error .scheduleStatus
    else
      match next with
      | none => .error .scheduleNext
      | some n => .ok { k' with current := n, thread := setStatus k'.thread n .running }

def threadYield (k : Kernel) : Kernel :=
  if k.idleThread = some k.current then
    { k with thread := setStatus k.thread k.current .ready }
  else { k.enqueue k.current with thread := setStatus k.thread k.current .ready }

/-- `thread_block ()`, up to its `schedule ()`; `back` is where the thread will find itself. -/
def threadBlock (k : Kernel) (back : Instr) : Kernel :=
  { k.push [back] with thread := setStatus k.thread k.current .blocked }

def threadExit (k : Kernel) : Kernel := { k with
    allList := k.allList.erase k.current
    thread := setStatus k.thread k.current .dying
    code := update k.code k.current [] }

/-! ## Semaphores -/

/-- What follows a completed `sema_down (s)`: only `lock_acquire` downs the semaphore of a lock. -/
def afterDown : SemaRef → List Instr
  | .lock l => [.lockHold l]
  | _ => []

/-- One turn of the loop of `sema_down (s)`: block behind the waiters, or take one. -/
def semaDown (k : Kernel) (s : SemaRef) : Kernel × Bool :=
  if (k.sema s).value = 0 then
    let waiters := listInsertOrdered k.listDescPrioSort k.current (k.sema s).waiters
    (threadBlock { k with sema := update k.sema s { k.sema s with waiters := waiters } }
      (.semaRetest s), true)
  else
    (push { k with
        sema := update k.sema s { k.sema s with value := (k.sema s).value - 1 } }
      (afterDown s), false)

def semaTryDown (k : Kernel) (s : SemaRef) : Kernel :=
  if 0 < (k.sema s).value then
    { k with sema := update k.sema s { k.sema s with value := (k.sema s).value - 1 } }
  else k

/-- The section of `sema_up (s)` with interrupts off: the thread it unblocked, if any. -/
def semaUp (k : Kernel) (s : SemaRef) : Except Fault (Option ThreadRef × Kernel) :=
  let value := ((k.sema s).value + 1) % 4294967296
  match listSort k.listDescPrioSort (k.sema s).waiters with
  | [] => .ok (none, { k with sema := update k.sema s ⟨value, []⟩ })
  | t :: ts =>
    match threadUnblock { k with sema := update k.sema s ⟨(k.sema s).value, ts⟩ } t with
    | .error f => .error f
    | .ok k' => .ok (some t, { k' with sema := update k'.sema s ⟨value, ts⟩ })

/-! ## Locks -/

/-- The `while (nested_lock != NULL)` loop of `lock_acquire`, handing on priority `p`.  Each turn
    visits one holder, so a loop longer than `all_list` goes round a cycle. -/
def donateNested (holder : LockRef → Option ThreadRef) (p : Int) :
    Nat → (ThreadRef → Thread) → Option LockRef → Except Fault (ThreadRef → Thread)
  | _, th, none => .ok th
  | 0, _, some _ => .error .donationCycle
  | n + 1, th, some l =>
    match holder l with
    | none => .error .nullHolder
    | some o => donateNested holder p n (setPriority th o p) (th o).waitingLock

/-- The donation of `lock_acquire (l)` to the holder `o` itself. -/
def donateDirect (k : Kernel) (l : LockRef) (o : ThreadRef) : ThreadRef → Thread :=
  let th := setPriority k.thread o (k.thread k.current).priority
  let th := modify th o fun r =>
    { r with donorThreads := listInsertOrdered k.donorSort k.current r.donorThreads }
  modify th k.current fun r => { r with waitingLock := some l }

/-- The priority donation of `lock_acquire (l)`, held by `o`. -/
def donate (k : Kernel) (l : LockRef) (o : ThreadRef) : Except Fault Kernel :=
  let p := (k.thread k.current).priority
  if (k.thread o).priority < p then
    let th := k.donateDirect l o
    match donateNested k.holder p k.allList.length th (th o).waitingLock with
    | .error f => .error f
    | .ok th' => .ok { k with thread := th' }
  else .ok k

/-- `lock_acquire (l)`, up to its `sema_down`. -/
def lockAcquire (k : Kernel) (l : LockRef) : Except Fault Kernel :=
  match k.holder l with
  | none => .ok (k.push [.semaDown (.lock l)])
  | some o =>
    if o = k.current then .error .lockHeld
    else
      match k.donate l o with
      | .error f => .error f
      | .ok k' => .ok (k'.push [.semaDown (.lock l)])

/-- `lock_acquire (l)`, from its `sema_down` on. -/
def lockHold (k : Kernel) (l : LockRef) : Kernel := { k with
    thread := modify k.thread k.current fun r => { r with waitingLock := none }
    holder := update k.holder l (some k.current) }

/-- `lock_try_acquire (l)`, up to its `sema_try_down`, which works on a COPY of the semaphore. -/
def lockTryAcquire (k : Kernel) (l : LockRef) : Except Fault Kernel :=
  if k.holder l = some k.current then .error .lockHeld
  else if 0 < (k.sema (.lock l)).value then .ok (k.push [.lockTryHold l])
  else .ok k

/-- `lock_try_acquire (l)`, after a successful `sema_try_down`. -/
def lockTryHold (k : Kernel) (l : LockRef) : Kernel :=
  { k with holder := update k.holder l (some k.current) }

/-- The donors of `t` that `lock_release (l)` leaves: those not waiting for `l`. -/
def keptDonors (k : Kernel) (t : ThreadRef) (l : LockRef) : List ThreadRef :=
  (k.thread t).donorThreads.filter fun d => (k.thread d).waitingLock ≠ some l

/-- The priority `lock_release (l)` gives back to the releasing thread `t`. -/
def restoredPriority (k : Kernel) (t : ThreadRef) (l : LockRef) : Int :=
  if (k.thread t).donorThreads = [] then (k.thread t).priority
  else
    match k.keptDonors t l with
    | [] => (k.thread t).basePriority
    | d :: _ => (k.thread d).priority

/-- `lock_release (l)`, up to its `sema_up`. -/
def lockRelease (k : Kernel) (l : LockRef) : Except Fault Kernel :=
  if k.holder l = some k.current then
    .ok (push { k with
        holder := update k.holder l none
        thread := modify k.thread k.current fun r =>
          { r with
            donorThreads := k.keptDonors k.current l
            priority := k.restoredPriority k.current l } }
      [.semaUp (.lock l)])
  else .error .lockNotHeld

/-! ## Condition variables -/

/-- `cond_wait (c, l)`, up to its `lock_release`. -/
def condWait (k : Kernel) (c : CondRef) (l : LockRef) : Except Fault Kernel :=
  if k.holder l = some k.current then
    .ok (push { k with
        sema := update k.sema (.waiter k.current) ⟨0, []⟩
        condWaiters := update k.condWaiters c (k.condWaiters c ++ [k.current]) }
      [.lockRelease l, .semaDown (.waiter k.current), .lockAcquire l])
  else .error .lockNotHeld

/-- The first thread waiting on the private semaphore of the `semaphore_elem` of `w`. -/
def condFront (k : Kernel) (w : ThreadRef) : Option ThreadRef := (k.sema (.waiter w)).waiters.head?

/-- The priority `condvar_desc_sort` reads for the `semaphore_elem` of `w`. -/
def condKey (k : Kernel) (w : ThreadRef) : Int :=
  match k.condFront w with
  | none => 0
  | some t => (k.thread t).priority

/-- `condvar_desc_sort`, where both of its `list_front`s succeed. -/
def condvarDescSort (k : Kernel) (a b : ThreadRef) : Bool := decide (k.condKey b < k.condKey a)

/-- The first pass of `list_sort` compares each element with its successor; a comparison calls
    `list_front` on the private semaphores of both. -/
def condComparable (k : Kernel) : List ThreadRef → Bool
  | a :: b :: ws => (k.condFront a).isSome && (k.condFront b).isSome && condComparable k (b :: ws)
  | _ => true

/-- `cond_signal (c, l)`, its section with interrupts off: sort the waiters. -/
def condSignal (k : Kernel) (c : CondRef) (l : LockRef) : Except Fault Kernel :=
  if k.holder l = some k.current then
    if k.condComparable (k.condWaiters c) then
      .ok (push { k with
          condWaiters := update k.condWaiters c
            (listSort k.condvarDescSort (k.condWaiters c)) }
        [.condPop c])
    else .error .listFront
  else .error .lockNotHeld

/-- The end of `cond_signal`, up to its `sema_up`: pop the first waiter, if there is one or not. -/
def condPop (k : Kernel) (c : CondRef) : Except Fault Kernel :=
  match k.condWaiters c with
  | [] => .error .listFront
  | w :: ws =>
    .ok (push { k with condWaiters := update k.condWaiters c ws } [.semaUp (.waiter w)])

/-- One turn of the loop of `cond_broadcast (c, l)`. -/
def condBroadcast (k : Kernel) (c : CondRef) (l : LockRef) : Kernel :=
  if k.condWaiters c = [] then k else k.push [.condSignal c l, .condBroadcast c l]

/-! ## Creating threads and changing priorities -/

/-- `init_thread`: a blocked thread of the given priority, with no donors. -/
def initThread (priority : Int) : Thread where
  status := .blocked
  basePriority := priority
  priority := priority
  donorThreads := []
  waitingLock := none

/-- `thread_create (priority)` on page `t`: `init_thread`, then `allocate_tid`, then the run
    queue. -/
def threadCreate (k : Kernel) (t : ThreadRef) (priority : Int) : Except Fault Kernel :=
  if priMin ≤ priority ∧ priority ≤ priMax then
    .ok (push { k with
        thread := update k.thread t (initThread priority)
        allList := k.allList ++ [t]
        code := update k.code t [.kernelThread] }
      [.lockAcquire tidLock, .lockRelease tidLock, .createUnblock t, .createYield t])
  else .error .initThreadPriority

/-- The test at the end of `thread_create`. -/
def createYields (k : Kernel) (t : ThreadRef) : Bool :=
  if k.threadMlfqs then
    decide ((k.thread k.current).basePriority < (k.thread t).basePriority)
  else decide ((k.thread k.current).priority < (k.thread t).priority)

/-- The assignments of `thread_set_priority (p)`, for `p` in range. -/
def setBasePriority (k : Kernel) (p : Int) : Kernel :=
  { k with thread := modify k.thread k.current fun r =>
      if r.donorThreads = [] then { r with priority := p, basePriority := p }
      else if r.priority < p then { r with donorThreads := [], priority := p, basePriority := p }
      else { r with basePriority := p } }

/-- The priority `thread_set_priority` reads at the head of the ready list. -/
def readyHeadPriority (k : Kernel) (junk : Int) : Int :=
  match k.readyList with
  | [] => junk
  | t :: _ => (k.thread t).priority

def threadSetPriority (k : Kernel) (p junk : Int) : Kernel × Bool :=
  if p ≤ 63 ∧ 0 ≤ p then
    let k' := k.setBasePriority p
    if (k'.thread k'.current).priority < k'.readyHeadPriority junk then (k'.threadYield, true)
    else (k', false)
  else (k, false)

end Kernel
end Pintos.Threads
