/-
  The alarm clock: `timer_sleep` and `timer_interrupt` of `devices/timer.c`.

  A thread inside `timer_sleep` links a `struct sleeping_thread` ON ITS STACK into `blocked_threads`;
  the timer interrupt counts every record down, and wakes and unlinks those that come to zero.

  1. **The machine** — a call is named by the address of its record (`Addr`), and can be interrupted
     before each of its steps (`Stage`): the times it samples, links its record and tests are three.
     Between two calls the memory serves other purposes (`reuse`).

  2. **Histories** — `calledAt`, `linkedAt` and `ups` are not stored by the code.

  3. **The condition** (`timely`) — a call that finds that its time has passed leaves at once, linked or
     not.  It counts from the time it SAMPLED, the record counts from the time it was LINKED.

  4. **The theorems** — `alarm_accounting` and `no_dangling_sleeper`, in every run whose tests are
     timely; `dangling_sleeper` is the shortest run with one that is not, `dangling_reused` what follows.
-/
import Pintos.Base.Machine
import Pintos.Lib.List

namespace Pintos.Devices

open Base Lib Function List Except

/-! ## The state -/

/-- The address of a `struct sleeping_thread`. -/
abbrev Addr := Nat

/-- `struct sleeping_thread`: the value of `sema`, and `ticks`. -/
structure SleepingThread where
  sema : Nat
  ticks : Int
  deriving DecidableEq

/-- Where a call of `timer_sleep` is. -/
inductive Stage where
  /-- About to sample `start`. -/
  | enter
  /-- About to fill its record. -/
  | sampled (start : Int)
  /-- About to link it. -/
  | filled (start : Int)
  /-- About to test `timer_elapsed (start) < ticks`. -/
  | linked (start : Int)
  /-- In `sema_down`. -/
  | down
  deriving DecidableEq

/-- The record is, or has been, linked. -/
def Stage.hasLinked : Stage → Bool
  | .linked _ | .down => true
  | _ => false

/-- A call `timer_sleep (n)` under way. -/
structure Call where
  n : Int
  stage : Stage
  /-- The time it was called. -/
  calledAt : Int
  /-- The time it linked its record. -/
  linkedAt : Int
  deriving DecidableEq

/-- The state of the alarm clock. -/
structure Alarm where
  /-- `ticks`. -/
  ticks : Int
  /-- `blocked_threads`, front first. -/
  blockedThreads : List Addr
  /-- The memory of the records. -/
  record : Addr → SleepingThread
  /-- The calls under way. -/
  call : Addr → Option Call
  /-- When the semaphore of a record was upped, since its `sema_init`. -/
  ups : Addr → List Int

inductive TimerFault where
  /-- `list_insert` of an element that is linked: the list is no list any more. -/
  | relinked
  deriving DecidableEq

namespace Alarm

/-! ## `timer_sleep` -/

def ticksLessFunc (s : Alarm) (a b : Addr) : Bool := decide ((s.record a).ticks < (s.record b).ticks)

/-- The call at `a` is at another stage. -/
def setCall (s : Alarm) (a : Addr) (c : Option Call) : Alarm := { s with call := update s.call a c }

/-- `timer_sleep (n)` is called, with its record at `a`. -/
def enter (s : Alarm) (a : Addr) (n : Int) : Alarm :=
  if 0 < n then s.setCall a (some ⟨n, .enter, s.ticks, s.ticks⟩) else s

/-- `to_sleep.ticks = ticks` and `sema_init (&to_sleep.sema, 0)`. -/
def fill (s : Alarm) (a : Addr) (n : Int) : Alarm := { s with
    record := update s.record a ⟨0, n⟩
    ups := update s.ups a [] }

/-- `list_insert_ordered`. -/
def link (s : Alarm) (a : Addr) : Except TimerFault Alarm :=
  if a ∈ s.blockedThreads then .error .relinked
  else .ok { s with blockedThreads := listInsertOrdered s.ticksLessFunc a s.blockedThreads }

/-- The end of `sema_down`. -/
def take (s : Alarm) (a : Addr) : Alarm :=
  { s with record := update s.record a { s.record a with sema := (s.record a).sema - 1 } }

/-- The next step of the call `c` at `a`. -/
def next (s : Alarm) (a : Addr) (c : Call) : Except TimerFault Alarm :=
  match c.stage with
  | .enter => .ok (s.setCall a (some { c with stage := .sampled s.ticks }))
  | .sampled start => .ok ((s.fill a c.n).setCall a (some { c with stage := .filled start }))
  | .filled start => do
    let s' ← s.link a
    .ok (s'.setCall a (some { c with stage := .linked start, linkedAt := s.ticks }))
  | .linked start =>
    if s.ticks - start < c.n then .ok (s.setCall a (some { c with stage := .down }))
    else .ok (s.setCall a none)
  | .down => .ok ((s.take a).setCall a none)

/-! ## `timer_interrupt` -/

/-- One turn of the loop: the record at `a`. -/
def visit (s : Alarm) (a : Addr) : Alarm :=
  let f := s.record a
  if 0 < f.ticks then
    if f.ticks - 1 = 0 then
      -- `sema_up', then `list_remove'
      { s with
        record := update s.record a ⟨f.sema + 1, 0⟩
        ups := update s.ups a (s.ups a ++ [s.ticks])
        blockedThreads := s.blockedThreads.erase a }
    else { s with record := update s.record a { f with ticks := f.ticks - 1 } }
  else s

/-- The loop, with `e` at the front of the list.  `list_remove` leaves the links of the removed element
    alone, so that `list_next (e)` is the element that followed it, removed or not. -/
def walk (s : Alarm) : List Addr → Alarm
  | [] => s
  | e :: es => walk (s.visit e) es

def timerInterrupt (s : Alarm) : Alarm :=
  let s := { s with ticks := s.ticks + 1 }
  s.walk s.blockedThreads

end Alarm

/-! ## The machine -/

inductive AlarmAction where
  /-- A thread calls `timer_sleep (n)`, and its record is at `a`. -/
  | call (a : Addr) (n : Int)
  /-- The call at `a` takes its next step. -/
  | step (a : Addr)
  /-- A timer interrupt. -/
  | interrupt
  /-- The memory at `a`, in no call, is used for something else. -/
  | reuse (a : Addr) (r : SleepingThread)
  deriving DecidableEq

def alarmMachine : Machine Alarm AlarmAction TimerFault where
  enabled s
    | .call a _ | .reuse a _ => s.call a = none
    | .step a =>
      match s.call a with
      | none => False
      | some c => c.stage = .down → 0 < (s.record a).sema
    | .interrupt => True
  step s
    | .call a n => .ok (s.enter a n)
    | .step a =>
      match s.call a with
      | none => .ok s
      | some c => s.next a c
    | .interrupt => .ok s.timerInterrupt
    | .reuse a r => .ok { s with record := update s.record a r }

instance (s : Alarm) (x : AlarmAction) : Decidable (alarmMachine.enabled s x) :=
  match x with
  | .call a _ | .reuse a _ => inferInstanceAs (Decidable (s.call a = none))
  | .step a =>
    match h : s.call a with
    | none => .isFalse (by simp [alarmMachine, h])
    | some c => decidable_of_iff (c.stage = .down → 0 < (s.record a).sema) (by simp [alarmMachine, h])
  | .interrupt => .isTrue trivial

/-- `timer_init`, with any memory. -/
def Alarm.init (memory : Addr → SleepingThread) : Alarm where
  ticks := 0
  blockedThreads := []
  record := memory
  call _ := none
  ups _ := []

/-- A call that tests the time, when that is up since it sampled it, does not find its record linked for
    less than that. -/
def timely (s : Alarm) : AlarmAction → Prop
  | .step a =>
    match s.call a with
    | some ⟨n, .linked start, _, linkedAt⟩ => n ≤ s.ticks - start → n ≤ s.ticks - linkedAt
    | _ => True
  | _ => True

instance (s : Alarm) (x : AlarmAction) : Decidable (timely s x) := by
  unfold timely
  split
  · split <;> infer_instance
  · infer_instance

/-! ## The walk -/

/-- A record after its visit. -/
def SleepingThread.countDown (f : SleepingThread) : SleepingThread :=
  ⟨if f.ticks = 1 then f.sema + 1 else f.sema, if 0 < f.ticks then f.ticks - 1 else f.ticks⟩

/-- What a walk along `l` does: each record of `l` is visited once, and those that come to zero are
    unlinked and upped. -/
structure Walked (l : List Addr) (s s' : Alarm) : Prop where
  ticks : s'.ticks = s.ticks
  call : s'.call = s.call
  record : ∀ a, s'.record a = if a ∈ l then (s.record a).countDown else s.record a
  ups : ∀ a, s'.ups a = if a ∈ l ∧ (s.record a).ticks = 1 then s.ups a ++ [s.ticks] else s.ups a
  sublist : s'.blockedThreads.Sublist s.blockedThreads
  mem : ∀ a, a ∈ s'.blockedThreads ↔ a ∈ s.blockedThreads ∧ ¬ (a ∈ l ∧ (s.record a).ticks = 1)

variable {start : Int} {x : AlarmAction} {s s' : Alarm} {a : Addr} {c : Call}

namespace Alarm

variable {e : Addr}

theorem visit_eq (s : Alarm) (e : Addr) : s.visit e = { s with
    record := update s.record e (s.record e).countDown
    ups := if (s.record e).ticks = 1 then update s.ups e (s.ups e ++ [s.ticks]) else s.ups
    blockedThreads := if (s.record e).ticks = 1 then s.blockedThreads.erase e
      else s.blockedThreads } := by
  unfold visit SleepingThread.countDown
  by_cases hone : (s.record e).ticks = 1
  · simp [hone]
  · by_cases hpos : 0 < (s.record e).ticks
    · have hzero : ¬ (s.record e).ticks - 1 = 0 := by omega
      simp [hone, hpos, hzero]
    · simp [hone, hpos]

theorem visit_walked (hnodup : s.blockedThreads.Nodup) : Walked [e] s (s.visit e) := by
  rw [visit_eq]
  refine ⟨rfl, rfl, fun a => ?_, fun a => ?_, ?_, fun a => ?_⟩
  · by_cases ha : a = e
    · subst ha; simp
    · simp [ha]
  · by_cases hone : (s.record e).ticks = 1
    · by_cases ha : a = e
      · subst ha; simp [hone]
      · simp [hone, ha]
    · by_cases ha : a = e
      · subst ha; simp [hone]
      · simp [hone, ha]
  · split
    · exact erase_sublist
    · exact Sublist.refl _
  · by_cases hone : (s.record e).ticks = 1
    · simp only [hone, if_true, hnodup.mem_erase_iff, mem_singleton]
      by_cases ha : a = e
      · subst ha; simp [hone]
      · simp [ha]
    · by_cases ha : a = e
      · subst ha; simp [hone]
      · simp [hone, ha]

/-- **The walk visits every record of the list once**, although it unlinks some on its way. -/
theorem walk_walked : ∀ (l : List Addr) (s : Alarm), l.Nodup → s.blockedThreads.Nodup →
    Walked l s (s.walk l)
  | [], s, _, _ => by
    refine ⟨rfl, rfl, fun a => ?_, fun a => ?_, Sublist.refl _, fun a => ?_⟩
    all_goals simp [walk]
  | e :: es, s, hl, hnodup => by
    obtain ⟨he, hes⟩ := nodup_cons.mp hl
    have h1 := visit_walked (e := e) hnodup
    have h2 := walk_walked es (s.visit e) hes (hnodup.sublist h1.sublist)
    -- the records that come after are as they were
    have hkeep : ∀ a ∈ es, a ≠ e ∧ (s.visit e).record a = s.record a := by
      intro a ha
      have hae : a ≠ e := fun h => he (h ▸ ha)
      refine ⟨hae, ?_⟩
      rw [h1.record, if_neg (by simpa using hae)]
    refine ⟨h2.ticks.trans h1.ticks, h2.call.trans h1.call, fun a => ?_, fun a => ?_,
      h2.sublist.trans h1.sublist, fun a => ?_⟩
    · rw [walk, h2.record]
      by_cases ha : a ∈ es
      · rw [if_pos ha, (hkeep a ha).2, if_pos (mem_cons_of_mem e ha)]
      · rw [if_neg ha, h1.record]
        simp [ha]
    · rw [walk, h2.ups, h1.ticks]
      by_cases ha : a ∈ es
      · obtain ⟨hae, hrec⟩ := hkeep a ha
        rw [hrec, h1.ups, if_neg (show ¬ (a ∈ [e] ∧ _) from fun h => hae (mem_singleton.mp h.1))]
        simp [ha]
      · rw [if_neg fun h => ha h.1, h1.ups]
        simp [ha]
    · rw [walk, h2.mem, h1.mem]
      by_cases ha : a ∈ es
      · obtain ⟨hae, hrec⟩ := hkeep a ha
        rw [hrec]
        simp [ha, hae]
      · simp [ha]

/-! ## The invariant -/

/-- The record of a call that has linked it: counting down, or unlinked and upped once. -/
structure Counted (s : Alarm) (a : Addr) (c : Call) : Prop where
  linkedAt : c.calledAt ≤ c.linkedAt ∧ c.linkedAt ≤ s.ticks
  counting : s.ticks < c.linkedAt + c.n →
    a ∈ s.blockedThreads ∧ s.record a = ⟨0, c.n - (s.ticks - c.linkedAt)⟩ ∧ s.ups a = []
  elapsed : c.linkedAt + c.n ≤ s.ticks →
    a ∉ s.blockedThreads ∧ s.record a = ⟨1, 0⟩ ∧ s.ups a = [c.linkedAt + c.n]

/-- What holds at each stage of a call. -/
def StageOk (s : Alarm) (a : Addr) (c : Call) : Stage → Prop
  | .enter => True
  | .sampled start => c.calledAt ≤ start ∧ start ≤ s.ticks
  | .filled start => (c.calledAt ≤ start ∧ start ≤ s.ticks) ∧ s.record a = ⟨0, c.n⟩ ∧ s.ups a = []
  | .linked start => (c.calledAt ≤ start ∧ start ≤ c.linkedAt) ∧ Counted s a c
  | .down => Counted s a c

structure CallOk (s : Alarm) (a : Addr) (c : Call) : Prop where
  pos : 0 < c.n
  called : c.calledAt ≤ s.ticks
  stage : StageOk s a c c.stage

/-- **The invariant.** -/
structure Inv (s : Alarm) : Prop where
  ordered : s.blockedThreads.Pairwise fun a b => (s.record a).ticks ≤ (s.record b).ticks
  nodup : s.blockedThreads.Nodup
  /-- Only records of calls under way are linked. -/
  live : ∀ a ∈ s.blockedThreads, ∃ c, s.call a = some c ∧ c.stage.hasLinked = true
  calls : ∀ a c, s.call a = some c → CallOk s a c

theorem Counted.same (h : Counted s a c) (ht : s'.ticks = s.ticks) (hr : s'.record a = s.record a)
    (hu : s'.ups a = s.ups a) (hb : a ∈ s'.blockedThreads ↔ a ∈ s.blockedThreads) :
    Counted s' a c := by
  refine ⟨by rw [ht]; exact h.linkedAt, ?_, ?_⟩
  · rw [ht, hr, hu, hb]; exact h.counting
  · rw [ht, hr, hu, hb]; exact h.elapsed

theorem CallOk.same (h : CallOk s a c) (ht : s'.ticks = s.ticks) (hr : s'.record a = s.record a)
    (hu : s'.ups a = s.ups a) (hb : a ∈ s'.blockedThreads ↔ a ∈ s.blockedThreads) :
    CallOk s' a c := by
  obtain ⟨n, stage, calledAt, linkedAt⟩ := c
  refine ⟨h.pos, by rw [ht]; exact h.called, ?_⟩
  have hst := h.stage
  cases stage with
  | enter => trivial
  | sampled =>
    simp only [StageOk] at hst ⊢
    rwa [ht]
  | filled =>
    simp only [StageOk] at hst ⊢
    rwa [ht, hr, hu]
  | linked => exact ⟨hst.1, hst.2.same ht hr hu hb⟩
  | down => exact Counted.same hst ht hr hu hb

theorem CallOk.counted (h : CallOk s a c) (hl : c.stage.hasLinked = true) : Counted s a c := by
  obtain ⟨n, stage, calledAt, linkedAt⟩ := c
  have hst := h.stage
  cases stage with
  | enter | sampled start | filled start => simp [Stage.hasLinked] at hl
  | linked => exact hst.2
  | down => exact hst

/-- A thread that gets through `sema_down` has been woken. -/
theorem CallOk.over_of_sema (h : CallOk s a c) (hst : c.stage = .down)
    (hsema : 0 < (s.record a).sema) :
    a ∉ s.blockedThreads ∧ s.record a = ⟨1, 0⟩ ∧ s.ups a = [c.linkedAt + c.n] ∧
      c.calledAt + c.n ≤ s.ticks := by
  have hcount := h.counted (by rw [hst]; rfl)
  have hle := hcount.linkedAt.1
  by_cases hlt : s.ticks < c.linkedAt + c.n
  · rw [(hcount.counting hlt).2.1] at hsema
    cases hsema
  · obtain ⟨h1, h2, h3⟩ := hcount.elapsed (by omega)
    exact ⟨h1, h2, h3, by omega⟩

namespace Inv

theorem init (memory : Addr → SleepingThread) : Inv (Alarm.init memory) :=
  ⟨Pairwise.nil, nodup_nil, fun _ ha => absurd ha not_mem_nil,
    fun _ _ hc => absurd hc (by simp [Alarm.init])⟩

section

variable (h : Inv s)
include h

theorem counting (ha : a ∈ s.blockedThreads) : ∃ c, s.call a = some c ∧
    c.stage.hasLinked = true ∧ s.ticks < c.linkedAt + c.n ∧ Counted s a c := by
  obtain ⟨c, hc, hl⟩ := h.live a ha
  have hcount := (h.calls a c hc).counted hl
  refine ⟨c, hc, hl, ?_, hcount⟩
  by_contra hover
  exact (hcount.elapsed (by omega)).1 ha

theorem record_pos (ha : a ∈ s.blockedThreads) : 0 < (s.record a).ticks := by
  obtain ⟨c, -, -, hlt, hcount⟩ := h.counting ha
  rw [(hcount.counting hlt).2.1]
  show 0 < c.n - (s.ticks - c.linkedAt)
  omega

/-! ## Interrupts -/

theorem interrupt_walked :
    Walked s.blockedThreads { s with ticks := s.ticks + 1 } s.timerInterrupt :=
  walk_walked _ { s with ticks := s.ticks + 1 } h.nodup h.nodup

theorem counted_interrupt (hc : Counted s a c) : Counted s.timerInterrupt a c := by
  have hw := h.interrupt_walked
  have htick : s.timerInterrupt.ticks = s.ticks + 1 := hw.ticks
  obtain ⟨h1, h2⟩ := hc.linkedAt
  refine ⟨⟨h1, by omega⟩, fun hlt => ?_, fun hover => ?_⟩
  · -- not yet zero
    obtain ⟨hmem, hrec, hups⟩ := hc.counting (by omega)
    have hne : (s.record a).ticks ≠ 1 := by rw [hrec]; simp only; omega
    have hgt : 0 < (s.record a).ticks := h.record_pos hmem
    refine ⟨(hw.mem a).mpr ⟨hmem, fun hx => hne hx.2⟩, ?_, ?_⟩
    · rw [hw.record, if_pos hmem]
      rw [SleepingThread.countDown, if_neg hne, if_pos hgt, hrec, htick]
      simp only [SleepingThread.mk.injEq, true_and]
      omega
    · rwa [hw.ups, if_neg fun hx => hne hx.2]
  · by_cases hlt : s.ticks < c.linkedAt + c.n
    · -- this interrupt brings it to zero
      obtain ⟨hmem, hrec, hups⟩ := hc.counting hlt
      have hone : (s.record a).ticks = 1 := by rw [hrec]; simp only; omega
      refine ⟨fun hx => ((hw.mem a).mp hx).2 ⟨hmem, hone⟩, ?_, ?_⟩
      · rw [hw.record, if_pos hmem]
        rw [SleepingThread.countDown, if_pos hone, hone, hrec]
        rfl
      · rw [hw.ups, if_pos ⟨hmem, hone⟩]
        rw [hups, nil_append, show s.ticks + 1 = c.linkedAt + c.n by omega]
    · obtain ⟨hmem, hrec, hups⟩ := hc.elapsed (by omega)
      refine ⟨fun hx => hmem ((hw.mem a).mp hx).1, ?_, ?_⟩
      · rwa [hw.record, if_neg hmem]
      · rwa [hw.ups, if_neg fun hx => hmem hx.1]

theorem callOk_interrupt (hc : s.call a = some c) : CallOk s.timerInterrupt a c := by
  have hw := h.interrupt_walked
  have htick : s.timerInterrupt.ticks = s.ticks + 1 := hw.ticks
  have hok := h.calls a c hc
  have hcalled := hok.called
  refine ⟨hok.pos, by omega, ?_⟩
  have hst := hok.stage
  have hout : c.stage.hasLinked = false → a ∉ s.blockedThreads := by
    intro hl hx
    obtain ⟨c', hc', hl'⟩ := h.live a hx
    cases hc.symm.trans hc'
    rw [hl] at hl'
    cases hl'
  obtain ⟨n, stage, calledAt, linkedAt⟩ := c
  cases stage with
  | enter => trivial
  | sampled =>
    simp only [StageOk] at hst ⊢
    omega
  | filled =>
    have hmem := hout rfl
    obtain ⟨htime, hrec, hups⟩ := hst
    refine ⟨by omega, ?_, ?_⟩
    · rw [hw.record, if_neg hmem]; exact hrec
    · rw [hw.ups, if_neg fun hx => hmem hx.1]; exact hups
  | linked => exact ⟨hst.1, h.counted_interrupt hst.2⟩
  | down => exact h.counted_interrupt hst

/-- **`timer_interrupt` keeps the invariant.** -/
theorem interrupt : Inv s.timerInterrupt := by
  have hw := h.interrupt_walked
  have hcall : s.timerInterrupt.call = s.call := hw.call
  refine ⟨?_, h.nodup.sublist hw.sublist, fun a ha => ?_, fun a c hc => ?_⟩
  · -- all that stay linked have lost one
    have hsub := h.ordered.sublist hw.sublist
    refine hsub.imp_of_mem fun {a b} ha hb hab => ?_
    have hlost : ∀ {x}, x ∈ s.timerInterrupt.blockedThreads →
        (s.timerInterrupt.record x).ticks = (s.record x).ticks - 1 := by
      intro x hx
      have hmem : x ∈ s.blockedThreads := ((hw.mem x).mp hx).1
      rw [hw.record, if_pos hmem]
      rw [SleepingThread.countDown, if_pos (h.record_pos hmem)]
    rw [hlost ha, hlost hb]
    omega
  · rw [hcall]
    exact h.live a ((hw.mem a).mp ha).1
  · rw [hcall] at hc
    exact h.callOk_interrupt hc

end

/-! ## The steps of a call -/

section

variable (h : Inv s)
include h

/-- A step of the call at `a` that touches no other record. -/
theorem of_call {c' : Option Call} (hcall : s'.call = update s.call a c')
    (ht : s'.ticks = s.ticks) (hb : s'.blockedThreads = s.blockedThreads)
    (hr : ∀ b, b ≠ a → s'.record b = s.record b) (hu : ∀ b, b ≠ a → s'.ups b = s.ups b)
    (hlinked : a ∈ s.blockedThreads → s'.record a = s.record a ∧
      ∃ c, c' = some c ∧ c.stage.hasLinked = true)
    (hok : ∀ c, c' = some c → CallOk s' a c) : Inv s' := by
  refine ⟨?_, by rw [hb]; exact h.nodup, fun b hbmem => ?_, fun b c hc => ?_⟩
  · rw [hb]
    refine h.ordered.imp_of_mem fun {x y} hx hy hxy => ?_
    have hsame : ∀ z ∈ s.blockedThreads, s'.record z = s.record z := by
      intro z hz
      by_cases hza : z = a
      · subst hza; exact (hlinked hz).1
      · exact hr z hza
    rwa [hsame x hx, hsame y hy]
  · rw [hb] at hbmem
    rw [hcall]
    by_cases hba : b = a
    · subst hba
      rw [update_self]
      exact (hlinked hbmem).2
    · rw [update_of_ne hba]
      exact h.live b hbmem
  · rw [hcall] at hc
    by_cases hba : b = a
    · subst hba
      rw [update_self] at hc
      exact hok c hc
    · rw [update_of_ne hba] at hc
      exact (h.calls b c hc).same ht (hr b hba) (hu b hba) (by rw [hb])

theorem not_mem (hc : ∀ c, s.call a = some c → c.stage.hasLinked = false) :
    a ∉ s.blockedThreads := by
  intro hx
  obtain ⟨c, hcall, hl⟩ := h.live a hx
  rw [hc c hcall] at hl
  cases hl

theorem enter (ha : s.call a = none) (n : Int) : Inv (s.enter a n) := by
  have hmem : a ∉ s.blockedThreads := h.not_mem fun c hc => by rw [ha] at hc; cases hc
  unfold Alarm.enter
  split
  · rename_i hn
    refine h.of_call rfl rfl rfl (fun _ _ => rfl) (fun _ _ => rfl) (fun hx => absurd hx hmem) ?_
    rintro c hc
    cases hc
    exact ⟨hn, Int.le_refl _, trivial⟩
  · exact h

/-- A call finds its record unlinked when it comes to link it. -/
theorem link_eq (hc : s.call a = some c) (hst : c.stage = .filled start) :
    a ∉ s.blockedThreads ∧ s.next a c = .ok ({ s with
      blockedThreads := listInsertOrdered s.ticksLessFunc a s.blockedThreads }.setCall a
        (some { c with stage := .linked start, linkedAt := s.ticks })) := by
  have hmem : a ∉ s.blockedThreads := by
    refine h.not_mem fun c' hc' => ?_
    cases hc.symm.trans hc'
    rw [hst]
    rfl
  refine ⟨hmem, ?_⟩
  unfold Alarm.next Alarm.link
  rw [hst]
  simp only [if_neg hmem]
  rfl

theorem link (hc : s.call a = some c) (hst : c.stage = .filled start)
    (hs : s.next a c = .ok s') : Inv s' := by
  have hok := h.calls a c hc
  have hstage := hok.stage
  rw [hst] at hstage
  obtain ⟨htime, hrec, hups⟩ := hstage
  obtain ⟨hmem, hnext⟩ := h.link_eq hc hst
  rw [hnext] at hs
  cases hs
  refine ⟨?_, nodup_listInsertOrdered hmem h.nodup, fun b hb => ?_, fun b c' hc' => ?_⟩
  · -- smallest first is largest negation first
    have hiff : ∀ x y, s.ticksLessFunc y x = false ↔ (s.record x).ticks ≤ (s.record y).ticks := by
      intro x y
      unfold ticksLessFunc
      rw [decide_eq_false_iff_not, Int.not_lt]
    have hsorted : Sorted s.ticksLessFunc s.blockedThreads :=
      h.ordered.imp fun {x y} hxy => (hiff x y).mpr hxy
    have hweak : StrictWeak s.ticksLessFunc := by
      have hdesc := strictWeak_desc fun x => -(s.record x).ticks
      have heq : s.ticksLessFunc = fun x y => decide (-(s.record y).ticks < -(s.record x).ticks) := by
        funext x y
        exact decide_eq_decide.mpr (by omega)
      rwa [heq]
    exact (listInsertOrdered_sorted hweak (x := a) hsorted).imp fun {x y} hxy => (hiff x y).mp hxy
  · show ∃ c', update s.call a _ b = some c' ∧ _
    by_cases hba : b = a
    · subst hba
      rw [update_self]
      exact ⟨_, rfl, rfl⟩
    · rw [update_of_ne hba]
      exact h.live b ((mem_listInsertOrdered.mp hb).resolve_left hba)
  · have hc'' : update s.call a _ b = some c' := hc'
    by_cases hba : b = a
    · subst hba
      rw [update_self] at hc''
      cases hc''
      have hpos := hok.pos
      refine ⟨hpos, hok.called, ⟨htime, ⟨hok.called, Int.le_refl _⟩, fun _ => ?_, fun hx => ?_⟩⟩
      · refine ⟨mem_listInsertOrdered.mpr (.inl rfl), ?_, hups⟩
        show s.record b = ⟨0, c.n - (s.ticks - s.ticks)⟩
        rw [hrec, Int.sub_self, Int.sub_zero]
      · have hx' : s.ticks + c.n ≤ s.ticks := hx
        omega
    · rw [update_of_ne hba] at hc''
      refine (h.calls b c' hc'').same rfl rfl rfl ?_
      exact ⟨fun hx => (mem_listInsertOrdered.mp hx).resolve_left hba,
        fun hx => mem_listInsertOrdered.mpr (.inr hx)⟩

/-- **A step of `timer_sleep`** keeps the invariant, if its test is timely. -/
theorem next (hc : s.call a = some c) (hdown : c.stage = .down → 0 < (s.record a).sema)
    (hg : timely s (.step a)) (hs : s.next a c = .ok s') : Inv s' := by
  have hok := h.calls a c hc
  have hstage := hok.stage
  have hout : c.stage.hasLinked = false → a ∉ s.blockedThreads := by
    intro hl
    refine h.not_mem fun c' hc' => ?_
    cases hc.symm.trans hc'
    exact hl
  obtain ⟨n, stage, calledAt, linkedAt⟩ := c
  cases stage with
  | enter =>
    cases hs
    refine h.of_call rfl rfl rfl (fun _ _ => rfl) (fun _ _ => rfl)
      (fun hx => absurd hx (hout rfl)) fun c' hc' => ?_
    cases hc'
    exact ⟨hok.pos, hok.called, hok.called, Int.le_refl _⟩
  | sampled =>
    cases hs
    refine h.of_call rfl rfl rfl (fun b hb => ?_) (fun b hb => ?_)
      (fun hx => absurd hx (hout rfl)) fun c' hc' => ?_
    · exact update_of_ne hb ..
    · exact update_of_ne hb ..
    · cases hc'
      exact ⟨hok.pos, hok.called, hstage, update_self .., update_self ..⟩
  | filled => exact h.link hc rfl hs
  | linked =>
    simp only [Alarm.next] at hs
    split at hs
    · cases hs
      refine h.of_call rfl rfl rfl (fun _ _ => rfl) (fun _ _ => rfl)
        (fun _ => ⟨rfl, _, rfl, rfl⟩) fun c' hc' => ?_
      cases hc'
      exact ⟨hok.pos, hok.called, hstage.2.linkedAt, hstage.2.counting, hstage.2.elapsed⟩
    · -- it leaves: its record must have been unlinked
      cases hs
      simp only [timely, hc] at hg
      have hmem := (hstage.2.elapsed (show linkedAt + n ≤ s.ticks by omega)).1
      exact h.of_call rfl rfl rfl (fun _ _ => rfl) (fun _ _ => rfl) (fun hx => absurd hx hmem)
        fun c' hc' => by cases hc'
  | down =>
    cases hs
    have hmem := (CallOk.over_of_sema hok rfl (hdown rfl)).1
    refine h.of_call rfl rfl rfl (fun b hb => ?_) (fun _ _ => rfl) (fun hx => absurd hx hmem)
      fun c' hc' => by cases hc'
    exact update_of_ne hb ..

/-- **One step** keeps the invariant, if it is timely; and links no record that is linked. -/
theorem step (he : alarmMachine.enabled s x) (hg : timely s x)
    (hs : alarmMachine.step s x = .ok s') : Inv s' := by
  cases x with
  | call a n =>
    cases hs
    exact h.enter he n
  | step a =>
    simp only [alarmMachine] at he hs
    split at he
    · exact he.elim
    · rename_i c hc
      rw [hc] at hs
      exact h.next hc he hg hs
  | interrupt =>
    cases hs
    exact h.interrupt
  | reuse a =>
    cases hs
    have ha : s.call a = none := he
    have hmem : a ∉ s.blockedThreads := h.not_mem fun c hc => by rw [ha] at hc; cases hc
    have hcall : s.call = update s.call a none := by rw [← ha, update_eq_self]
    exact h.of_call hcall rfl rfl (fun b hb => update_of_ne hb ..) (fun _ _ => rfl)
      (fun hx => absurd hx hmem) fun c hc => by cases hc

/-- No step stops. -/
theorem progress (he : alarmMachine.enabled s x) : ∃ s', alarmMachine.step s x = .ok s' := by
  cases x with
  | call a n | interrupt | reuse a r => exact ⟨_, rfl⟩
  | step a =>
    simp only [alarmMachine] at he ⊢
    split at he
    · exact he.elim
    rename_i c hc
    cases hst : c.stage with
    | filled => exact ⟨_, (h.link_eq hc hst).2⟩
    | linked =>
      simp only [Alarm.next, hst]
      split <;> exact ⟨_, rfl⟩
    | enter | sampled start | down =>
      simp only [Alarm.next, hst]
      exact ⟨_, rfl⟩

end

/-- **Every run** whose tests are timely keeps the invariant. -/
theorem run {memory : Addr → SleepingThread} {tr : List (Alarm × AlarmAction)}
    (h : (alarmMachine.guard timely).Run (Alarm.init memory) tr s) : Inv s :=
  h.invariant (I := Inv) (init memory) fun _ _ _ hi he hs => hi.step he.1 he.2 hs

end Inv

/-! ## Time -/

theorem link_eq_ok (hs : s.link a = .ok s') : s' =
    { s with blockedThreads := listInsertOrdered s.ticksLessFunc a s.blockedThreads } := by
  unfold Alarm.link at hs
  split at hs
  · cases hs
  · exact (ok.inj hs).symm

/-- A step of the call at `a` takes no time, and is seen by no other call. -/
theorem next_frame (hs : s.next a c = .ok s') :
    s'.ticks = s.ticks ∧ ∃ c', s'.call = update s.call a c' := by
  unfold Alarm.next at hs
  split at hs
  · obtain rfl := ok.inj hs; exact ⟨rfl, _, rfl⟩
  · obtain rfl := ok.inj hs; exact ⟨rfl, _, rfl⟩
  · obtain ⟨s1, h1, h2⟩ := bind_eq_ok.mp hs
    obtain rfl := link_eq_ok h1
    cases h2
    exact ⟨rfl, _, rfl⟩
  · split at hs <;> obtain rfl := ok.inj hs <;> exact ⟨rfl, _, rfl⟩
  · obtain rfl := ok.inj hs; exact ⟨rfl, _, rfl⟩

theorem walk_frame : ∀ (l : List Addr) (s : Alarm),
    (s.walk l).ticks = s.ticks ∧ (s.walk l).call = s.call
  | [], _ => ⟨rfl, rfl⟩
  | e :: es, s => by
    obtain ⟨h1, h2⟩ := walk_frame es (s.visit e)
    rw [visit_eq] at h1 h2
    rw [walk, visit_eq]
    exact ⟨h1, h2⟩

end Alarm

/-- The number of timer interrupts in a history. -/
def interrupts (tr : List (Alarm × AlarmAction)) : Nat := tr.countP fun e => e.2 = .interrupt

section

variable {memory : Addr → SleepingThread} {tr : List (Alarm × AlarmAction)}

theorem ticks_eq (h : alarmMachine.Run (Alarm.init memory) tr s) : s.ticks = interrupts tr := by
  refine h.history (J := fun tr s => s.ticks = interrupts tr) rfl ?_
  rintro tr s x s' - hi - hs
  have hcount : interrupts (tr ++ [(s, x)]) = interrupts tr + if x = .interrupt then 1 else 0 := by
    unfold interrupts
    simp
  rw [hcount]
  cases x with
  | call a n =>
    cases hs
    have hticks : (s.enter a n).ticks = s.ticks := by unfold Alarm.enter; split <;> rfl
    rwa [hticks]
  | step =>
    simp only [alarmMachine] at hs
    split at hs
    · cases hs
      exact hi
    · rwa [(Alarm.next_frame hs).1]
  | interrupt =>
    cases hs
    have hticks : s.timerInterrupt.ticks = s.ticks + 1 := (Alarm.walk_frame ..).1
    rw [hticks, hi, if_pos rfl]
    rfl
  | reuse =>
    cases hs
    exact hi

/-! ## Returning -/

theorem returns_step
    (hs : alarmMachine.step s x = .ok s') (hc : s.call a = some c) (hr : s'.call a = none)
    (he : alarmMachine.enabled s x) : x = .step a ∧ s.next a c = .ok s' := by
  cases x with
  | call b =>
    cases hs
    have hb : s.call b = none := he
    have hba : a ≠ b := fun h => by rw [h, hb] at hc; cases hc
    unfold Alarm.enter at hr
    split at hr
    · simp only [Alarm.setCall, update_of_ne hba, hc] at hr
      cases hr
    · rw [hc] at hr
      cases hr
  | step b =>
    simp only [alarmMachine] at hs he
    split at he
    · exact he.elim
    rename_i c' hc'
    rw [hc'] at hs
    obtain ⟨-, o, ho⟩ := Alarm.next_frame hs
    by_cases hba : a = b
    · subst hba
      cases hc.symm.trans hc'
      exact ⟨rfl, hs⟩
    · rw [ho, update_of_ne hba, hc] at hr
      cases hr
  | interrupt =>
    cases hs
    have hcall : s.timerInterrupt.call = s.call := (Alarm.walk_frame ..).2
    rw [hcall, hc] at hr
    cases hr
  | reuse =>
    cases hs
    have hr' : s.call a = none := hr
    rw [hc] at hr'
    cases hr'

/-- A call ends at its test, or with its `sema_down`. -/
theorem returns_cases (hs : s.next a c = .ok s') (hr : s'.call a = none) :
    (∃ start, c.stage = .linked start ∧ c.n ≤ s.ticks - start ∧ s' = s.setCall a none) ∨
    (c.stage = .down ∧ s' = (s.take a).setCall a none) := by
  have hstill : ∀ (s1 : Alarm) (c' : Call), (s1.setCall a (some c')).call a ≠ none := by
    simp [Alarm.setCall]
  obtain ⟨n, stage, calledAt, linkedAt⟩ := c
  cases stage with
  | enter => obtain rfl := ok.inj hs; exact absurd hr (hstill _ _)
  | sampled => obtain rfl := ok.inj hs; exact absurd hr (hstill _ _)
  | filled =>
    obtain ⟨s1, -, h2⟩ := bind_eq_ok.mp hs
    cases h2
    exact absurd hr (hstill _ _)
  | linked start =>
    simp only [Alarm.next] at hs
    split at hs
    · cases hs
      exact absurd hr (hstill _ _)
    · cases hs
      exact .inl ⟨start, rfl, by simp only; omega, rfl⟩
  | down =>
    cases hs
    exact .inr ⟨rfl, rfl⟩

/-- Whatever its record does, a call that is over its time leaves only when it is timely. -/
theorem timely_linked (hc : s.call a = some c) (hst : c.stage = .linked start) :
    timely s (.step a) ↔ (c.n ≤ s.ticks - start → c.n ≤ s.ticks - c.linkedAt) := by
  obtain ⟨n, stage, calledAt, linkedAt⟩ := c
  obtain rfl : stage = .linked start := hst
  simp only [timely, hc]

theorem timely_down (hc : s.call a = some c) (hst : c.stage = .down) : timely s (.step a) := by
  obtain ⟨n, stage, calledAt, linkedAt⟩ := c
  obtain rfl : stage = .down := hst
  simp only [timely, hc]

/-- **A call returns in time, and its record is unlinked if and only if the return is timely.** -/
theorem Alarm.Inv.returns (h : s.Inv) (hc : s.call a = some c)
    (he : alarmMachine.enabled s (.step a)) (hs : s.next a c = .ok s') (hr : s'.call a = none) :
    c.calledAt + c.n ≤ s.ticks ∧ (a ∈ s'.blockedThreads ↔ ¬ timely s (.step a)) ∧
    (timely s (.step a) → s.ups a = [c.linkedAt + c.n]) := by
  have hok := h.calls a c hc
  rcases returns_cases hs hr with ⟨start, hst, htest, rfl⟩ | ⟨hst, rfl⟩
  · have hstage := hok.stage
    rw [hst] at hstage
    obtain ⟨⟨h1, h2⟩, hcount⟩ := hstage
    rw [timely_linked hc hst]
    refine ⟨by omega, ⟨fun hx hg => ?_, fun hg => ?_⟩, fun hg => ?_⟩
    · exact (hcount.elapsed (by omega)).1 hx
    · refine (hcount.counting ?_).1
      by_contra hover
      exact hg fun _ => by omega
    · exact (hcount.elapsed (by omega)).2.2
  · simp only [alarmMachine, hc] at he
    obtain ⟨h1, -, h3, h4⟩ := hok.over_of_sema hst (he hst)
    refine ⟨h4, ⟨fun hx => absurd hx h1, fun hg => absurd (timely_down hc hst) hg⟩, fun _ => h3⟩

end

/-! ## The theorems -/

/-- The accounting of the records: the list is ordered; each linked record is that of a call under way,
    and what remains is what was asked for less the interrupts since it was linked; the semaphore has
    been upped once, by the interrupt that brought the count to zero, or not at all before that. -/
structure Accounting (s : Alarm) : Prop where
  ordered : s.blockedThreads.Pairwise fun a b => (s.record a).ticks ≤ (s.record b).ticks
  remaining : ∀ a ∈ s.blockedThreads, ∃ c, s.call a = some c ∧ c.stage.hasLinked = true ∧
    (s.record a).ticks = c.n - (s.ticks - c.linkedAt) ∧ 0 < (s.record a).ticks
  upped : ∀ a c, s.call a = some c → c.stage.hasLinked = true →
    s.ups a = if s.ticks < c.linkedAt + c.n then [] else [c.linkedAt + c.n]

theorem Alarm.Inv.accounting (h : s.Inv) : Accounting s := by
  refine ⟨h.ordered, fun a ha => ?_, fun a c hc hl => ?_⟩
  · obtain ⟨c, hc, hl, hlt, hcount⟩ := h.counting ha
    refine ⟨c, hc, hl, ?_, h.record_pos ha⟩
    rw [(hcount.counting hlt).2.1]
  · have hcount := (h.calls a c hc).counted hl
    split
    · rename_i hlt
      exact (hcount.counting hlt).2.2
    · exact (hcount.elapsed (by omega)).2.2

/-- **Alarm clock accounting**, in every run in which each call that finds its time up has had its record
    linked for that time: `ticks` counts the interrupts; the accounting holds in every state; no record
    is linked twice; and a call `timer_sleep (n)` returns no earlier than `n` ticks after it was called,
    its semaphore upped exactly once. -/
theorem alarm_accounting {memory : Addr → SleepingThread} {tr : List (Alarm × AlarmAction)}
    (h : (alarmMachine.guard timely).Run (Alarm.init memory) tr s) :
    s.ticks = interrupts tr ∧ Accounting s ∧
    ∀ x, alarmMachine.enabled s x → timely s x → ∃ s', alarmMachine.step s x = .ok s' ∧
      ∀ a c, s.call a = some c → s'.call a = none →
        c.calledAt + c.n ≤ s.ticks ∧ s.ups a = [c.linkedAt + c.n] := by
  have hinv := Alarm.Inv.run h
  refine ⟨ticks_eq h.of_guard, hinv.accounting, fun x he hg => ?_⟩
  obtain ⟨s', hs⟩ := hinv.progress he
  refine ⟨s', hs, fun a c hc hr => ?_⟩
  obtain ⟨rfl, hnext⟩ := returns_step hs hc hr he
  obtain ⟨h1, -, h3⟩ := hinv.returns hc he hnext hr
  exact ⟨h1, h3 hg⟩

def zeros : Addr → SleepingThread := fun _ => ⟨0, 0⟩

def steps (a : Addr) (k : Nat) : List AlarmAction := replicate k (.step a)

/-- Two sleepers, one of which has been woken by the second of two interrupts. -/
theorem alarm_accounting_two : ∃ tr s,
    (alarmMachine.guard timely).Run (Alarm.init zeros) tr s ∧ s.blockedThreads = [8] ∧
    (s.record 8).ticks = 3 ∧ s.ups 7 = [2] ∧ Accounting s := by
  obtain ⟨tr, s, hr, h1, h2, h3⟩ := (alarmMachine.guard timely).exists_reached (Alarm.init zeros)
    ([.call 8 5] ++ steps 8 4 ++ [.call 7 2] ++ steps 7 3 ++ [.interrupt] ++ steps 7 1 ++ [.interrupt])
    (fun _ s => s.blockedThreads = [8] ∧ (s.record 8).ticks = 3 ∧ s.ups 7 = [2])
    (by decide)
  exact ⟨tr, s, hr, h1, h2, h3, (alarm_accounting hr).2.1⟩

/-- **The defect, and what becomes of the list.**  A call `timer_sleep (1)` is interrupted between
    sampling the time and linking its record, finds its time up and leaves, with the record at 7
    linked.  Another thread goes to sleep for 3 ticks, and then the first calls `timer_sleep (5)`,
    whose record is at 7 again: it writes 5 to a record that is LINKED, ahead of the one with 3. -/
theorem dangling_reused : ∃ tr s, alarmMachine.Run (Alarm.init zeros) tr s ∧
    s.blockedThreads = [7, 8] ∧ (s.record 7).ticks = 5 ∧ (s.record 8).ticks = 3 ∧ ¬ Accounting s := by
  obtain ⟨tr, s, hr, h1, h2, h3⟩ := alarmMachine.exists_reached (Alarm.init zeros)
    ([.call 7 1] ++ steps 7 1 ++ [.interrupt] ++ steps 7 3 ++ [.call 8 3] ++ steps 8 3 ++
      [.call 7 5] ++ steps 7 2)
    (fun _ s => s.blockedThreads = [7, 8] ∧ (s.record 7).ticks = 5 ∧
      (s.record 8).ticks = 3) (by decide)
  refine ⟨tr, s, hr, h1, h2, h3, fun hacc => ?_⟩
  have hord := hacc.ordered
  rw [h1] at hord
  have hle := (pairwise_cons.mp hord).1 8 (mem_singleton_self 8)
  omega

/-- **No dangling sleeper**, in every run in which each call that finds its time up has had its record
    linked for that time: only records of calls under way are linked, so that `timer_interrupt` visits no
    other; and a call that returns leaves its record linked if and only if it is not timely. -/
theorem no_dangling_sleeper {memory : Addr → SleepingThread} {tr : List (Alarm × AlarmAction)}
    (h : (alarmMachine.guard timely).Run (Alarm.init memory) tr s) :
    (∀ a ∈ s.blockedThreads, s.call a ≠ none) ∧
    ∀ a c s', alarmMachine.enabled s (.step a) → alarmMachine.step s (.step a) = .ok s' →
      s.call a = some c → s'.call a = none → (a ∈ s'.blockedThreads ↔ ¬ timely s (.step a)) := by
  have hinv := Alarm.Inv.run h
  refine ⟨fun a ha hn => ?_, fun a c s' he hs hc hr => ?_⟩
  · obtain ⟨c, hc, -⟩ := hinv.live a ha
    rw [hn] at hc
    cases hc
  · obtain ⟨-, hnext⟩ := returns_step hs hc hr he
    exact (hinv.returns hc he hnext hr).2.1

/-- A call that sleeps for one tick, and is about to get through its `sema_down`. -/
theorem no_dangling_sleeper_woken : ∃ tr s s',
    (alarmMachine.guard timely).Run (Alarm.init zeros) tr s ∧
    alarmMachine.step s (.step 7) = .ok s' ∧ s'.call 7 = none ∧ 7 ∉ s'.blockedThreads := by
  obtain ⟨tr, s, hr, hc, hsema⟩ := (alarmMachine.guard timely).exists_reached (Alarm.init zeros)
    ([.call 7 1] ++ steps 7 4 ++ [.interrupt])
    (fun _ s => s.call 7 = some ⟨1, .down, 0, 0⟩ ∧ 0 < (s.record 7).sema)
    (by decide)
  have he : alarmMachine.enabled s (.step 7) := by
    simp only [alarmMachine, hc]
    exact fun _ => hsema
  have hstep : alarmMachine.step s (.step 7) = .ok ((s.take 7).setCall 7 none) := by
    simp only [alarmMachine, hc]
    rfl
  have hgone : ((s.take 7).setCall 7 none).call 7 = none := by simp [Alarm.setCall]
  have hiff := (no_dangling_sleeper hr).2 7 _ _ he hstep hc hgone
  exact ⟨tr, s, _, hr, hstep, hgone, fun hx => hiff.mp hx (timely_down hc rfl)⟩

/-- **The defect.**  An interrupt falls between the sampling of the time and the linking of the
    record: the call returns, and its record is linked. -/
theorem dangling_sleeper : ∃ tr s s', alarmMachine.Run (Alarm.init zeros) tr s ∧
    alarmMachine.step s (.step 7) = .ok s' ∧ s.call 7 = some ⟨1, .linked 0, 0, 1⟩ ∧
    s'.call 7 = none ∧ 7 ∈ s'.blockedThreads := by
  obtain ⟨tr, s, hr, hc, ht, hmem⟩ := alarmMachine.exists_reached (Alarm.init zeros)
    ([.call 7 1] ++ steps 7 1 ++ [.interrupt] ++ steps 7 2)
    (fun _ s => s.call 7 = some ⟨1, .linked 0, 0, 1⟩ ∧ s.ticks = 1 ∧ 7 ∈ s.blockedThreads)
    (by decide)
  refine ⟨tr, s, s.setCall 7 none, hr, ?_, hc, ?_, hmem⟩
  · simp only [alarmMachine, hc, Alarm.next, ht]
    rfl
  · simp [Alarm.setCall]

end Pintos.Devices
