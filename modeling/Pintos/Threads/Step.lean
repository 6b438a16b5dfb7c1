/-
  The thread system as a machine: which section runs next, and who is interrupted by whom.

  1. **Sections** — `execInstr` runs the next section of the current thread; `act` also has the
     calls a thread makes from outside the kernel, the timer, and what interrupt handlers do.

  2. **Scheduling** — `step` calls `schedule ()` after exactly the sections that end with it, so a
     scheduling point is a state `k'` with `act k a = .ok (k', true)`.

  3. **Interleavings** — an interrupt is possible whenever interrupts are on (`intrOn`).  A thread
     that resumes inside `sema_down`, inside a direct `thread_block` or in `kernel_thread` still
     has them off.

  4. **The start** — `boot` is the state in which `thread_start` turns interrupts on: the initial
     thread runs, the idle thread it has just created is ready and has not run yet.

  A semaphore, lock or condition exists from the start; the values of semaphores are arbitrary.
-/
import Pintos.Base.Machine
import Pintos.Threads.Kernel

namespace Pintos.Threads

open Base Kernel

/-! ## Sections -/

namespace Kernel

def head (k : Kernel) (t : ThreadRef) : Option Instr := (k.code t).head?

/-- The current thread starts its next instruction. -/
def pop (k : Kernel) : Kernel :=
  { k with code := Function.update k.code k.current (k.code k.current).tail }

/-- A section that goes on without a `schedule ()`. -/
def continues : Except Fault Kernel → Except Fault (Kernel × Bool)
  | .error f => .error f
  | .ok k => .ok (k, false)

/-- Yield if the test says so. -/
def yieldIf (k : Kernel) (test : Bool) : Kernel × Bool :=
  if test then (k.threadYield, true) else (k, false)

/-- The next section of the current thread, its instruction already popped. -/
def execInstr (k : Kernel) : Instr → Except Fault (Kernel × Bool)
  | .semaDown s => .ok (k.semaDown s)
  | .semaRetest s => .ok (k.semaDown s)
  | .semaTryDown s => .ok (k.semaTryDown s, false)
  | .semaUp s =>
    match k.semaUp s with
    | .error f => .error f
    | .ok (none, k') => .ok (k', false)
    | .ok (some t, k') => .ok (k'.push [.semaUpYield t], false)
  | .semaUpYield t =>
    .ok (k.yieldIf (decide ((k.thread k.current).priority < (k.thread t).priority)))
  | .lockAcquire l => continues (k.lockAcquire l)
  | .lockHold l => .ok (k.lockHold l, false)
  | .lockTryAcquire l => continues (k.lockTryAcquire l)
  | .lockTryHold l => .ok (k.lockTryHold l, false)
  | .lockRelease l => continues (k.lockRelease l)
  | .condWait c l => continues (k.condWait c l)
  | .condSignal c l => continues (k.condSignal c l)
  | .condPop c => continues (k.condPop c)
  | .condBroadcast c l => .ok (k.condBroadcast c l, false)
  | .threadCreate t p => continues (k.threadCreate t p)
  | .createUnblock t => continues (k.threadUnblock t)
  | .createYield t => .ok (k.yieldIf (k.createYields t))
  | .kernelThread => .ok (k, false)
  | .threadYield => .ok (k.threadYield, true)
  | .threadBlock => .ok (k.threadBlock .blockReturn, true)
  | .blockReturn => .ok (k, false)
  | .threadExit => .ok (k.threadExit, true)
  | .threadSetPriority p junk => .ok (k.threadSetPriority p junk)
  | .idleStart => .ok ({ k with idleThread := some k.current }, false)
  | .idleBlock => .ok (k.threadBlock .idleBlock, true)

end Kernel

inductive Action where
  /-- The current thread runs its next section. -/
  | exec
  /-- The current thread, outside the kernel, calls a kernel function. -/
  | call (i : Instr)
  /-- A timer interrupt ends the time slice: `thread_yield` on return from the interrupt. -/
  | timer
  /-- An interrupt handler calls `sema_up (s)`, and yields on return. -/
  | intrSemaUp (s : SemaRef)
  /-- An interrupt handler calls `sema_try_down (s)`. -/
  | intrSemaTryDown (s : SemaRef)
  /-- `thread_unblock (t)` called directly, by a thread or by an interrupt handler. -/
  | unblock (t : ThreadRef)
  deriving DecidableEq

namespace Kernel

/-- The section an action runs; `true` when it ends with a `schedule ()`. -/
def act (k : Kernel) : Action → Except Fault (Kernel × Bool)
  | .exec =>
    match k.code k.current with
    | [] => .ok (k, false)
    | i :: _ => k.pop.execInstr i
  | .call i => .ok (k.push [i], false)
  | .timer => .ok (k.threadYield, true)
  | .intrSemaUp s =>
    match k.semaUp s with
    | .error f => .error f
    | .ok (_, k') => .ok (k'.threadYield, true)
  | .intrSemaTryDown s => .ok (k.semaTryDown s, false)
  | .unblock t => continues (k.threadUnblock t)

/-- The end of a section: `schedule ()`, if it ends so. -/
def finish : Except Fault (Kernel × Bool) → Except Fault Kernel
  | .error f => .error f
  | .ok (k, true) => k.schedule
  | .ok (k, false) => .ok k

/-- One step: every entry into the kernel asserts that the current thread is running. -/
def step (k : Kernel) (a : Action) : Except Fault Kernel :=
  if (k.thread k.current).status = .running then finish (k.act a) else .error .threadCurrent

/-! ## What can happen when -/

def intrOn (k : Kernel) : Bool :=
  match k.head k.current with
  | some (.semaRetest _) | some .blockReturn | some .kernelThread => false
  | _ => true

/-- `t` called `thread_block ()` directly and is still blocked there. -/
def blockedDirectly (k : Kernel) (t : ThreadRef) : Bool :=
  (k.thread t).status = .blocked && k.head t = some .blockReturn

/-- The calls open to code outside the kernel: semaphores inside other objects, `tid_lock` and the
    halves of functions are not. -/
def callable : Instr → Bool
  | .semaDown (.user _) | .semaTryDown (.user _) | .semaUp (.user _) => true
  | .lockAcquire l | .lockTryAcquire l | .lockRelease l => l ≠ tidLock
  | .condWait _ l | .condSignal _ l | .condBroadcast _ l => l ≠ tidLock
  | .threadCreate _ _ | .threadYield | .threadBlock | .threadExit | .threadSetPriority _ _ => true
  | _ => false

/-- The section can run as it stands: `palloc_get_page` gives a page that no thread is on. -/
def runnable (k : Kernel) : Option Instr → Bool
  | none => false
  | some (.threadCreate t _) => t ∉ k.allList
  | some _ => true

def enabled (k : Kernel) : Action → Bool
  | .exec => k.runnable (k.head k.current)
  | .call i => k.code k.current = [] && callable i
  | .timer => k.intrOn
  | .intrSemaUp (.user _) | .intrSemaTryDown (.user _) => k.intrOn
  | .intrSemaUp _ | .intrSemaTryDown _ => false
  | .unblock t => k.intrOn && k.blockedDirectly t

end Kernel

def kernelMachine : Machine Kernel Action Fault where
  enabled k a := k.enabled a = true
  step := Kernel.step

instance (k : Kernel) (a : Action) : Decidable (kernelMachine.enabled k a) :=
  inferInstanceAs (Decidable (k.enabled a = true))

/-! ## The start -/

/-- What is not fixed by the code at the start: the scheduler, the pages of the first two threads,
    and the initial values of the semaphores. -/
structure Boot where
  mlfqs : Bool
  allListHead : Nat
  stackWord : ThreadRef → Int
  /-- The page of `initial_thread`. -/
  main : ThreadRef
  /-- The page of the idle thread. -/
  idle : ThreadRef
  main_ne_idle : main ≠ idle
  /-- The argument of each `sema_init`. -/
  semaInit : Nat → Nat

/-- The code of the idle thread from its loop on. -/
def idleLoop : List Instr := [.semaUp idleStarted, .idleBlock]

/-- The semaphores as `sema_init` leaves them; a lock's has value 1. -/
def Boot.sema (b : Boot) : SemaRef → Semaphore
  | .user 0 => ⟨0, []⟩
  | .user (n + 1) => ⟨b.semaInit (n + 1), []⟩
  | .lock _ => ⟨1, []⟩
  | .waiter _ => ⟨0, []⟩

/-- The two threads there are; any other page holds no thread. -/
def Boot.thread (b : Boot) (t : ThreadRef) : Thread :=
  if t = b.main then { initThread priDefault with status := .running }
  else if t = b.idle then { initThread priMin with status := .ready }
  else { initThread priMin with status := .dying }

/-- `thread_start`, where it turns interrupts on. -/
def boot (b : Boot) : Kernel where
  threadMlfqs := b.mlfqs
  allListHead := b.allListHead
  stackWord := b.stackWord
  thread := b.thread
  allList := [b.main, b.idle]
  readyList := [b.idle]
  priorityLevels := fun n => if b.mlfqs ∧ n = 0 then [b.idle] else []
  highestPriority := 0
  current := b.main
  idleThread := none
  sema := b.sema
  holder := fun _ => none
  condWaiters := fun _ => []
  code := fun t =>
    if t = b.main then [.semaDown idleStarted]
    else if t = b.idle then .kernelThread :: .idleStart :: idleLoop
    else []

/-! ## Schedules

  Pieces of the concrete schedules that exhibit a behaviour.
-/

/-- A small start: priority scheduler, initial thread on page 1, idle thread on page 2. -/
def Boot.small : Boot where
  mlfqs := false
  allListHead := 0
  stackWord := fun _ => 0
  main := 1
  idle := 2
  main_ne_idle := by decide
  semaInit := fun _ => 0

def execs (n : Nat) : List Action := List.replicate n .exec

/-- From `boot` to the end of `thread_start`: `idle` has started and waits in its loop. -/
def startUp : List Action := execs 6

/-- The current thread creates thread `t`, up to the end of `thread_create`. -/
def creates (t : ThreadRef) (priority : Int) : List Action :=
  .call (.threadCreate t priority) :: execs 8

/-- The current thread calls a kernel function and runs `n` sections of it. -/
def calls (i : Instr) (n : Nat) : List Action := .call i :: execs n

end Pintos.Threads
