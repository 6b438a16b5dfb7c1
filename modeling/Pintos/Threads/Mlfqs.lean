/-
  The advanced scheduler (`thread_mlfqs`): `thread_tick` and `thread_set_nice` of `threads/thread.c`.

  Besides the kernel of `Threads/Step.lean`, the state has `nice`, `recent_cpu`, `load_avg` and the two
  tick counters.

  1. **Arithmetic** — `int32` is what is done at every operation on `int32_t`s: a result that does not
     fit is an OVERFLOW, and stops the machine.  `MUL` and `DIV` are on `int64_t`s.

  2. **The timer interrupt** (`tick`) is one section.  The action `timer` of the kernel, which may end
     the time slice at any time, is not used.

  3. **`thread_set_nice`** runs with interrupts on, and can be preempted before each of its steps
     (`Pending`): it reads `recent_cpu`, and what it computes from that is written later.

  4. **`thread_create`** copies `nice` and `recent_cpu` twice, the second time when the new thread is on
     `all_list` already.  `init_thread` computes a priority too, which it throws away; but
     `highest_priority` has seen it.
-/
import Pintos.Base.FixedPoint
import Pintos.Threads.Step

namespace Pintos.Threads

open Base Kernel Function

/-! ## Arithmetic -/

inductive MlfqsFault where
  | kernel (f : Fault)
  /-- `ASSERT (new_nice >= NICE_MIN && new_nice <= NICE_MAX)`. -/
  | niceRange
  /-- A value does not fit its `int32_t`. -/
  | overflow
  /-- The divisor of `DIV` is zero. -/
  | zeroDivide
  /-- `list_remove` of a `priority_elem` that is in no list. -/
  | unlinked
  deriving DecidableEq

def fixedOne : Int := 16384

def int32 (x : Int) : Except MlfqsFault Int :=
  if -2147483648 ≤ x ∧ x < 2147483648 then .ok x else .error .overflow

/-- `INT_TO_FIXED_POINT (n, d)`, for a constant `d`. -/
def intToFixedPoint (n d : Int) : Except MlfqsFault Int := do
  let x ← int32 (n * fixedOne)
  .ok (x.tdiv d)

/-- `DIV (x, y)`. -/
def fixedDiv (x y : Int) : Except MlfqsFault Int :=
  if y = 0 then .error .zeroDivide else .ok (Fixed.div fixedOne x y)

def addFixedPointInt (x n : Int) : Except MlfqsFault Int := do
  let y ← int32 (n * fixedOne)
  int32 (x + y)

/-- The value that `update_load_avg` computes. -/
def newLoadAvg (loadAvg : Int) (readyThreads : Nat) : Except MlfqsFault Int := do
  let weight ← intToFixedPoint 59 60
  let previousSeconds ← int32 (Fixed.mul fixedOne weight loadAvg)
  let unit ← intToFixedPoint 1 60
  let newSecond ← int32 (unit * readyThreads)
  int32 (previousSeconds + newSecond)

/-- The value that `update_recent_cpu` computes. -/
def newRecentCpu (loadAvg recentCpu nice : Int) : Except MlfqsFault Int := do
  let twiceLoadAvg ← int32 (2 * loadAvg)
  let divisor ← addFixedPointInt twiceLoadAvg 1
  let quotient ← fixedDiv twiceLoadAvg divisor
  let recentCpuCoeff ← int32 quotient
  let nicePart ← int32 (nice * fixedOne)
  int32 (Fixed.mul fixedOne recentCpuCoeff recentCpu + nicePart)

/-- The priority is kept within the limits. -/
def clampPriority (p : Int) : Int := if priMax < p then priMax else if p < priMin then priMin else p

/-- The value that `update_priority` computes. -/
def newPriority (recentCpu nice : Int) : Except MlfqsFault Int := do
  let scaled ← int32 (2 * nice)
  let nicePart ← intToFixedPoint scaled 1
  let fixedPriMax ← intToFixedPoint priMax 1
  let x ← int32 (fixedPriMax - recentCpu.tdiv 4)
  let y ← int32 (x - nicePart)
  .ok (clampPriority (y.tdiv fixedOne))

/-! ## The state -/

/-- What a thread is in the middle of, besides its code. -/
inductive Pending where
  /-- `thread_set_nice`: `nice` is set, and it calls `update_priority`. -/
  | update
  /-- `thread_set_nice`: it has computed the priority `p`, and is about to write it. -/
  | write (p : Int)
  /-- `thread_set_nice`: it is about to see if it still has the highest priority. -/
  | test
  /-- `thread_create`, back from `init_thread (t)`: it is about to copy `nice` and `recent_cpu`. -/
  | inherit (t : ThreadRef)
  deriving DecidableEq

/-- The thread system with the clock. -/
structure Mlfqs where
  kernel : Kernel
  nice : ThreadRef → Int
  recentCpu : ThreadRef → Int
  loadAvg : Int
  /-- `timer_ticks ()`. -/
  ticks : Nat
  /-- `thread_ticks`. -/
  threadTicks : Nat
  pending : ThreadRef → Option Pending

namespace Kernel

/-- `highest_priority` has seen `p`. -/
def raise (k : Kernel) (p : Int) : Kernel :=
  { k with highestPriority := max k.highestPriority p.toNat }

/-- `list_remove (&t->priority_elem)`, and `list_push_back` to the level `p`. -/
def relevel (k : Kernel) (t : ThreadRef) (p : Int) : Except MlfqsFault Kernel :=
  if (List.range 64).any fun n => decide (t ∈ k.priorityLevels n) then
    let levels := fun n => (k.priorityLevels n).erase t
    .ok { k with priorityLevels := update levels p.toNat (levels p.toNat ++ [t]) }
  else .error .unlinked

/-- The end of `update_priority`, with the priority of `t` changed from `old` to `p`. -/
def requeue (k : Kernel) (t : ThreadRef) (old p : Int) : Except MlfqsFault Kernel :=
  if p ≠ old ∧ (k.thread t).status = .ready then k.relevel t p else .ok k

end Kernel

namespace Mlfqs

/-! ## `thread_tick` -/

def updatePriority (s : Mlfqs) (t : ThreadRef) : Except MlfqsFault Mlfqs :=
  if s.kernel.idleThread = some t then .ok s
  else do
    let p ← newPriority (s.recentCpu t) (s.nice t)
    let k ← requeue { s.kernel with thread := setPriority s.kernel.thread t p } t
      (s.kernel.thread t).priority p
    .ok { s with kernel := k.raise p }

def updateRecentCpu (s : Mlfqs) (t : ThreadRef) : Except MlfqsFault Mlfqs :=
  if s.kernel.idleThread = some t then .ok s
  else do
    let r ← newRecentCpu s.loadAvg (s.recentCpu t) (s.nice t)
    .ok { s with recentCpu := update s.recentCpu t r }

def countReadyThreads (s : Mlfqs) : Nat :=
  s.kernel.readyList.length + if s.kernel.idleThread = some s.kernel.current then 0 else 1

def updateLoadAvg (s : Mlfqs) : Except MlfqsFault Mlfqs := do
  let l ← newLoadAvg s.loadAvg s.countReadyThreads
  .ok { s with loadAvg := l }

def threadForeach (s : Mlfqs) (f : Mlfqs → ThreadRef → Except MlfqsFault Mlfqs) :
    Except MlfqsFault Mlfqs :=
  s.kernel.allList.foldlM f s

/-- The running thread has used the CPU for one more tick. -/
def countTick (s : Mlfqs) : Except MlfqsFault Mlfqs :=
  if s.kernel.idleThread = some s.kernel.current then .ok s
  else do
    let r ← addFixedPointInt (s.recentCpu s.kernel.current) 1
    .ok { s with recentCpu := update s.recentCpu s.kernel.current r }

/-- What `thread_tick` does every second; `TIMER_FREQ` is 100. -/
def everySecond (s : Mlfqs) : Except MlfqsFault Mlfqs :=
  if s.ticks % 100 = 0 then do
    let s ← s.updateLoadAvg
    s.threadForeach updateRecentCpu
  else .ok s

/-- What it does every fourth tick. -/
def everyFourth (s : Mlfqs) : Except MlfqsFault Mlfqs :=
  if s.ticks % 4 = 0 then s.threadForeach updatePriority else .ok s

/-- The end of `thread_tick`: the time slice, of 4 ticks, may be over. -/
def enforce (s : Mlfqs) : Mlfqs × Bool :=
  if 4 ≤ s.threadTicks + 1 then
    ({ s with threadTicks := s.threadTicks + 1, kernel := s.kernel.threadYield }, true)
  else ({ s with threadTicks := s.threadTicks + 1 }, false)

/-- `ticks++` and `thread_tick ()`, and the `thread_yield ()` on return. -/
def threadTick (s : Mlfqs) : Except MlfqsFault (Mlfqs × Bool) := do
  let s ← countTick { s with ticks := s.ticks + 1 }
  let s ← s.everySecond
  let s ← s.everyFourth
  .ok s.enforce

/-! ## `thread_set_nice` and `thread_create` -/

def setPending (s : Mlfqs) (c : Option Pending) : Mlfqs :=
  { s with pending := update s.pending s.kernel.current c }

/-- `thread_set_nice (n)`, up to its `update_priority`. -/
def threadSetNice (s : Mlfqs) (n : Int) : Except MlfqsFault Mlfqs :=
  if -20 ≤ n ∧ n ≤ 20 then
    .ok (setPending { s with nice := update s.nice s.kernel.current n } (some .update))
  else .error .niceRange

/-- `t` gets the `nice` and the `recent_cpu` of the running thread. -/
def copyTo (s : Mlfqs) (t : ThreadRef) : Mlfqs := { s with
    nice := update s.nice t (s.nice s.kernel.current)
    recentCpu := update s.recentCpu t (s.recentCpu s.kernel.current) }

/-- What `init_thread (t)` does besides, when `thread_create` calls it.  `t` is not the idle thread,
    which never exits. -/
def initThread (s : Mlfqs) (t : ThreadRef) : Except MlfqsFault Mlfqs := do
  let p ← newPriority (s.recentCpu s.kernel.current) (s.nice s.kernel.current)
  let s := { s with kernel := s.kernel.raise p, pending := update s.pending t none }
  .ok ((s.copyTo t).setPending (some (.inherit t)))

/-- The next step of a thread in the middle of something.  The thread is RUNNING, so `update_priority`
    moves it to no level. -/
def pendingStep (s : Mlfqs) : Pending → Except MlfqsFault Mlfqs
  | .update =>
    if s.kernel.idleThread = some s.kernel.current then .ok (s.setPending (some .test))
    else do
      let p ← newPriority (s.recentCpu s.kernel.current) (s.nice s.kernel.current)
      .ok (s.setPending (some (.write p)))
  | .write p =>
    let k := { s.kernel with thread := setPriority s.kernel.thread s.kernel.current p }
    .ok (setPending { s with kernel := k.raise p } (some .test))
  | .test =>
    if (s.kernel.thread s.kernel.current).priority < s.kernel.highestPriority then
      .ok (setPending { s with kernel := s.kernel.push [.threadYield] } none)
    else .ok (s.setPending none)
  | .inherit t => .ok ((s.copyTo t).setPending none)

/-- The thread that an action creates. -/
def newThread (s : Mlfqs) : Action → Option ThreadRef
  | .exec =>
    match s.kernel.head s.kernel.current with
    | some (.threadCreate t _) => some t
    | _ => none
  | _ => none

end Mlfqs

/-! ## The machine -/

inductive MlfqsAction where
  /-- An action of the thread system. -/
  | kernel (a : Action)
  /-- A timer interrupt. -/
  | tick
  /-- The current thread calls `thread_set_nice (n)`. -/
  | setNice (n : Int)
  /-- It takes the next step of what it is in the middle of. -/
  | pending
  deriving DecidableEq

namespace Mlfqs

/-- The section an action runs; `true` when it ends with a `schedule ()`. -/
def act (s : Mlfqs) : MlfqsAction → Except MlfqsFault (Mlfqs × Bool)
  | .kernel a =>
    match s.kernel.act a with
    | .error f => .error (.kernel f)
    | .ok (k, sched) =>
      match s.newThread a with
      | none => .ok ({ s with kernel := k }, sched)
      | some t => do
        let s' ← initThread { s with kernel := k } t
        .ok (s', sched)
  | .tick => s.threadTick
  | .setNice n => do
    let s' ← s.threadSetNice n
    .ok (s', false)
  | .pending =>
    match s.pending s.kernel.current with
    | none => .ok (s, false)
    | some c => do
      let s' ← s.pendingStep c
      .ok (s', false)

/-- The end of a section: a `schedule ()` starts a new time slice. -/
def finish : Except MlfqsFault (Mlfqs × Bool) → Except MlfqsFault Mlfqs
  | .error f => .error f
  | .ok (s, true) =>
    match s.kernel.schedule with
    | .error f => .error (.kernel f)
    | .ok k => .ok { s with kernel := k, threadTicks := 0 }
  | .ok (s, false) => .ok s

def step (s : Mlfqs) (a : MlfqsAction) : Except MlfqsFault Mlfqs :=
  if (s.kernel.thread s.kernel.current).status = .running then finish (s.act a)
  else .error (.kernel .threadCurrent)

/-- The current thread is in the middle of nothing. -/
def free (s : Mlfqs) : Bool := s.pending s.kernel.current = none

def enabled (s : Mlfqs) : MlfqsAction → Bool
  | .kernel .timer => false
  | .kernel .exec => s.free && s.kernel.enabled .exec
  | .kernel (.call i) => s.free && s.kernel.enabled (.call i)
  | .kernel a => s.kernel.enabled a
  | .tick => s.kernel.intrOn
  | .setNice _ => s.free && s.kernel.code s.kernel.current = []
  | .pending => !s.free

/-- `thread_start`, where it turns interrupts on: `highest_priority` has seen the priority that
    `init_thread` has computed for the initial thread. -/
def boot (b : Boot) : Mlfqs where
  kernel := Kernel.raise (Threads.boot b) ((newPriority 0 0).toOption.getD 0)
  nice _ := 0
  recentCpu _ := 0
  loadAvg := 0
  ticks := 0
  threadTicks := 0
  pending _ := none

end Mlfqs

def mlfqsMachine : Machine Mlfqs MlfqsAction MlfqsFault where
  enabled s a := s.enabled a = true
  step := Mlfqs.step

instance (s : Mlfqs) (a : MlfqsAction) : Decidable (mlfqsMachine.enabled s a) :=
  inferInstanceAs (Decidable (s.enabled a = true))

def Boot.smallMlfqs : Boot := { Boot.small with mlfqs := true }

end Pintos.Threads
