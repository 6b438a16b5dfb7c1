/-
  What one section does to priorities.

  Continues `Pintos.Threads.Effects` for the two priorities of every thread, its donors and the lock
  it waits for: `prioAfter`, `baseAfter`, `donorsAfter` and `waitsAfter` are functions of the state
  before the section.  The interesting one is `lock_acquire`, which writes the priority of EVERY
  thread on a chain of holders: `donees` is that chain, a walk along `waiting_lock`s in the state
  before the donation.
-/
import Pintos.Threads.Code
import Pintos.Threads.Records

namespace Pintos.Threads

open Lib Base Function

namespace Kernel

def prio (k : Kernel) (t : ThreadRef) : Int := (k.thread t).priority

def base (k : Kernel) (t : ThreadRef) : Int := (k.thread t).basePriority

/-- The holders met from a lock, going from a holder to the lock it waits for. -/
def walk (holder : LockRef → Option ThreadRef) (waits : ThreadRef → Option LockRef) :
    Nat → Option LockRef → List ThreadRef
  | n + 1, some l =>
    match holder l with
    | none => []
    | some o => o :: walk holder waits n (waits o)
  | _, _ => []

/-- `waiting_lock` of every thread, the current one counted as waiting for `l`. -/
def waitsFor (k : Kernel) (l : LockRef) (t : ThreadRef) : Option LockRef :=
  if t = k.current then some l else (k.thread t).waitingLock

/-- The threads a donating `lock_acquire (l)` writes its priority to. -/
def donees (k : Kernel) (l : LockRef) : List ThreadRef :=
  walk k.holder (k.waitsFor l) (k.allList.length + 1) (some l)

/-- `lock_acquire (l)` donates: the lock is held by a thread of lower priority. -/
def donates (k : Kernel) (l : LockRef) : Bool :=
  match k.holder l with
  | none => false
  | some o => k.prio o < k.prio k.current

/-- The effective priorities after a section of `i`. -/
def prioAfter (k : Kernel) : Instr → ThreadRef → Int
  | .lockAcquire l => fun t =>
    if k.donates l = true ∧ t ∈ k.donees l then k.prio k.current else k.prio t
  | .lockRelease l => update k.prio k.current (k.restoredPriority k.current l)
  | .threadCreate t p => update k.prio t p
  | .threadSetPriority p _ =>
    if (p ≤ 63 ∧ 0 ≤ p) ∧ ((k.thread k.current).donorThreads = [] ∨ k.prio k.current < p) then
      update k.prio k.current p
    else k.prio
  | _ => k.prio

def baseAfter (k : Kernel) : Instr → ThreadRef → Int
  | .threadCreate t p => update k.base t p
  | .threadSetPriority p _ =>
    if p ≤ 63 ∧ 0 ≤ p then update k.base k.current p else k.base
  | _ => k.base

def donors (k : Kernel) (t : ThreadRef) : List ThreadRef := (k.thread t).donorThreads

def waits (k : Kernel) (t : ThreadRef) : Option LockRef := (k.thread t).waitingLock

def donorsAfter (k : Kernel) : Instr → ThreadRef → List ThreadRef
  | .lockAcquire l => fun t =>
    if k.donates l = true ∧ k.holder l = some t then
      listInsertOrdered k.donorSort k.current (k.donors t)
    else k.donors t
  | .lockRelease l => update k.donors k.current (k.keptDonors k.current l)
  | .threadCreate t _ => update k.donors t []
  | .threadSetPriority p _ =>
    if (p ≤ 63 ∧ 0 ≤ p) ∧ k.prio k.current < p then update k.donors k.current []
    else k.donors
  | _ => k.donors

def waitsAfter (k : Kernel) : Instr → ThreadRef → Option LockRef
  | .lockAcquire l =>
    if k.donates l = true then update k.waits k.current (some l) else k.waits
  | .lockHold _ => update k.waits k.current none
  | .threadCreate t _ => update k.waits t none
  | _ => k.waits

end Kernel

open Kernel

variable {k k' k₁ : Kernel} {i : Instr} {sched : Bool}

/-- `k'` has the priorities of `k` after a section of `i`. -/
structure PrioEffect (k : Kernel) (i : Instr) (k' : Kernel) : Prop where
  prio : k'.prio = k.prioAfter i
  base : k'.base = k.baseAfter i

/-- `k'` has the donor lists and `waiting_lock`s of `k` after a section of `i`. -/
structure DonorEffect (k : Kernel) (i : Instr) (k' : Kernel) : Prop where
  donors : k'.donors = k.donorsAfter i
  waits : k'.waits = k.waitsAfter i

/-- `k'` has the records of `k` after a section of `i`, statuses apart. -/
structure RecordEffect (k : Kernel) (i : Instr) (k' : Kernel) : Prop extends
  PrioEffect k i k', DonorEffect k i k'

theorem RecordEffect.sync (h : RecordEffect k i k₁) (hs : SameSync k₁ k') :
    RecordEffect k i k' where
  prio := (funext hs.priority : k'.prio = k₁.prio).trans h.prio
  base := (funext hs.basePriority : k'.base = k₁.base).trans h.base
  donors := (funext hs.donorThreads : k'.donors = k₁.donors).trans h.donors
  waits := (funext hs.waitingLock : k'.waits = k₁.waits).trans h.waits

/-! ## The donation -/

variable {p junk : Int}

/-- The nested loop writes its priority to the holders on its walk. -/
theorem donateNested_prio {holder : LockRef → Option ThreadRef} :
    ∀ {n : Nat} {th th' : ThreadRef → Thread} {l : Option LockRef},
      donateNested holder p n th l = .ok th' → ∀ u, (th' u).priority =
        if u ∈ walk holder (fun t => (th t).waitingLock) n l then p else (th u).priority
  | 0, th, th', none, h, u => by
    cases h
    simp [walk]
  | n + 1, th, th', none, h, u => by
    cases h
    simp [walk]
  | n + 1, th, th', some l, h, u => by
    rw [donateNested] at h
    split at h
    · cases h
    rename_i o ho
    -- writing a priority does not change where the walk goes
    have hwalk : (fun t => (setPriority th o p t).waitingLock) = fun t => (th t).waitingLock :=
      funext fun t => setPriority_waitingLock ..
    rw [donateNested_prio h u, hwalk, walk]
    simp only [ho, List.mem_cons, setPriority_priority]
    by_cases hw : u ∈ walk holder (fun t => (th t).waitingLock) n (th o).waitingLock
    · simp [hw]
    · by_cases hu : u = o <;> simp [hw, hu]

section

variable (k : Kernel) (l : LockRef) (o t : ThreadRef)

theorem donateDirect_waitingLock : (k.donateDirect l o t).waitingLock = k.waitsFor l t := by
  simp only [donateDirect, modify_apply, waitsFor]
  by_cases ht : t = k.current
  · simp [ht]
  · by_cases ho : t = o
    · subst ho; simp [ht]
    · simp [ht, ho]

theorem donateDirect_priority :
    (k.donateDirect l o t).priority = if t = o then k.prio k.current else k.prio t := by
  simp only [donateDirect, modify_apply, prio, apply_ite Thread.priority, setPriority_priority,
    ite_self]

theorem donateDirect_donorThreads : (k.donateDirect l o t).donorThreads =
      if t = o then listInsertOrdered k.donorSort k.current (k.donors t) else k.donors t := by
  simp only [donateDirect, modify_apply, donors, apply_ite Thread.donorThreads,
    setPriority_donorThreads, ite_self]

end

attribute [local simp] prioAfter baseAfter donorsAfter waitsAfter

/-- Without a donation, `lock_acquire` writes no record. -/
theorem lockAcquire_idle {l : LockRef} (hno : k.donates l = false) (hth : k'.thread = k.thread) :
    RecordEffect k (.lockAcquire l) k' := by
  refine ⟨⟨funext fun t => ?_, funext fun t => ?_⟩, ⟨funext fun t => ?_, funext fun t => ?_⟩⟩
  all_goals
    simp [hno, prio, base, donors, waits, hth]

/-- **The donation writes the priority of the caller to the donees**, and to nobody else. -/
theorem lockAcquire_record {l : LockRef} (h : k.lockAcquire l = .ok k') :
    RecordEffect k (.lockAcquire l) k' := by
  rcases lockAcquire_eq_ok h with ⟨hh, rfl⟩ | ⟨o, k₁, hh, -, hd, rfl⟩
  · exact lockAcquire_idle (by simp [donates, hh]) rfl
  rcases donate_eq_ok hd with ⟨rfl, hle⟩ | ⟨th, rfl, hlt, hth⟩
  · refine lockAcquire_idle ?_ rfl
    simp only [donates, hh, prio]
    exact decide_eq_false (Int.not_lt.mpr hle)
  have hyes : k.donates l = true := by
    simp only [donates, hh, prio]
    exact decide_eq_true hlt
  refine ⟨⟨funext fun t => ?_, ?_⟩, ⟨funext fun t => ?_, funext fun t => ?_⟩⟩
  · have hwaits : (fun t => (k.donateDirect l o t).waitingLock) = k.waitsFor l :=
      funext fun t => donateDirect_waitingLock k l o t
    show (th t).priority = _
    rw [donateNested_prio hth t, hwaits, donateDirect_waitingLock, donateDirect_priority]
    have hdon : ∀ u, u ∈ k.donees l ↔
        u = o ∨ u ∈ walk k.holder (k.waitsFor l) k.allList.length (k.waitsFor l o) := by
      intro u
      unfold donees
      rw [walk]
      simp only [hh, List.mem_cons]
    simp only [prioAfter, hyes, true_and, hdon]
    by_cases hw : t ∈ walk k.holder (k.waitsFor l) k.allList.length (k.waitsFor l o)
    · simp [hw, prio]
    · by_cases ho : t = o
      · subst ho; simp [hw, prio]
      · simp [hw, ho]
  · obtain ⟨th', hk', hbase⟩ := lockAcquire_only h
    rw [hk']
    exact funext fun u => (hbase u).2
  · -- the nested loop writes priorities only
    show (th t).donorThreads = _
    obtain ⟨q, hq⟩ := donateNested_only hth t
    rw [hq]
    rw [donateDirect_donorThreads]
    simp only [donorsAfter, hyes, hh, Option.some.injEq, true_and, eq_comm]
  · show (th t).waitingLock = _
    obtain ⟨q, hq⟩ := donateNested_only hth t
    rw [hq]
    rw [donateDirect_waitingLock]
    simp only [waitsAfter, hyes, if_true, waitsFor]
    by_cases ht : t = k.current
    · subst ht
      rw [if_pos rfl, update_self]
    · rw [if_neg ht, update_of_ne ht]
      rfl

/-! ## The other sections -/

theorem lockRelease_record {l : LockRef} (h : k.lockRelease l = .ok k') :
    RecordEffect k (.lockRelease l) k' := by
  obtain ⟨-, rfl⟩ := eq_of_guard h
  refine ⟨⟨funext fun t => ?_, funext fun t => ?_⟩, ⟨funext fun t => ?_, funext fun t => ?_⟩⟩
  all_goals
    simp only [prio, base, donors, waits, push, modify_apply, prioAfter, baseAfter, donorsAfter,
      waitsAfter]
    by_cases ht : t = k.current
    · subst ht; simp
    · simp [ht, prio, donors]

theorem threadCreate_record {t : ThreadRef} (h : k.threadCreate t p = .ok k') :
    RecordEffect k (.threadCreate t p) k' := by
  obtain ⟨-, rfl⟩ := eq_of_guard h
  refine ⟨⟨funext fun u => ?_, funext fun u => ?_⟩, ⟨funext fun u => ?_, funext fun u => ?_⟩⟩
  all_goals
    by_cases hu : u = t
    · subst hu
      simp [prio, base, donors, waits, push, initThread]
    · simp [prio, base, donors, waits, push, hu]

theorem setBasePriority_record (hp : p ≤ 63 ∧ 0 ≤ p) :
    RecordEffect k (.threadSetPriority p junk) (k.setBasePriority p) := by
  refine ⟨⟨funext fun t => show ((k.setBasePriority p).thread t).priority = _ from ?_,
    funext fun t => show ((k.setBasePriority p).thread t).basePriority = (_ : Int) from ?_⟩,
    ⟨funext fun t => show ((k.setBasePriority p).thread t).donorThreads = _ from ?_,
    funext fun t => show ((k.setBasePriority p).thread t).waitingLock = k.waits t from ?_⟩⟩
  all_goals
    simp only [setBasePriority, modify_apply]
    by_cases ht : t = k.current
    · subst ht
      by_cases hlt : (k.thread k.current).priority < p <;>
        by_cases hd : (k.thread k.current).donorThreads = [] <;>
        simp [hp, hd, hlt, prio, donors, waits]
    · simp only [if_neg ht, prioAfter, baseAfter, donorsAfter]
      first
      | rfl
      | split <;> simp [ht, prio, base, donors]

theorem threadSetPriority_record :
    RecordEffect k (.threadSetPriority p junk) (k.threadSetPriority p junk).1 := by
  unfold Kernel.threadSetPriority
  split
  · rename_i hp
    simp only
    split
    · exact (setBasePriority_record hp).sync (threadYield_sync _)
    · exact setBasePriority_record hp
  · rename_i hp
    constructor <;> constructor <;> simp [hp]

theorem lockHold_record (l : LockRef) : RecordEffect k (.lockHold l) (k.lockHold l) := by
  refine ⟨⟨funext fun t => ?_, funext fun t => ?_⟩, ⟨funext fun t => ?_, funext fun t => ?_⟩⟩
  all_goals
    simp only [prio, base, donors, waits, lockHold, modify_apply, prioAfter, baseAfter,
      donorsAfter, waitsAfter]
    by_cases ht : t = k.current
    · subst ht; simp
    · simp [ht, waits]

theorem RecordEffect.same (hs : SameRecords k k') (hi : writesRecord i = false) :
    RecordEffect k i k' := by
  have hp : k'.prio = k.prio := funext hs.priority
  have hb : k'.base = k.base := funext hs.basePriority
  have hd : k'.donors = k.donors := funext hs.donorThreads
  have hw : k'.waits = k.waits := funext hs.waitingLock
  cases i with
  | lockAcquire l | lockHold l | lockRelease l | threadCreate t p | threadSetPriority p junk =>
    cases hi
  | _ => exact ⟨⟨hp, hb⟩, ⟨hd, hw⟩⟩

/-- **The records after a section.** -/
theorem execInstr_record (h : k.execInstr i = .ok (k', sched)) : RecordEffect k i k' := by
  cases i with
  | lockAcquire => exact lockAcquire_record (continues_eq_ok h).1
  | lockRelease => exact lockRelease_record (continues_eq_ok h).1
  | threadCreate => exact threadCreate_record (continues_eq_ok h).1
  | threadSetPriority =>
    rw [ok_fst h]
    exact threadSetPriority_record
  | lockHold l =>
    rw [ok_fst h]
    exact lockHold_record l
  | _ => exact .same (execInstr_records h rfl) rfl

/-- `k'` has the records of `k` after action `a`, statuses apart. -/
structure ActRecord (k : Kernel) (a : Action) (k' : Kernel) : Prop where
  prio : k'.prio = (k.does a).elim k.prio k.prioAfter
  base : k'.base = (k.does a).elim k.base k.baseAfter
  donors : k'.donors = (k.does a).elim k.donors k.donorsAfter
  waits : k'.waits = (k.does a).elim k.waits k.waitsAfter

variable {a : Action}

/-- **The records after an action.** -/
theorem act_record (h : k.act a = .ok (k', sched)) : ActRecord k a k' := by
  rcases act_records h with ⟨hs, hno⟩ | ⟨i, hd, -, hk⟩
  · cases hd : k.does a with
    | none =>
      constructor <;> rw [hd]
      · exact funext hs.priority
      · exact funext hs.basePriority
      · exact funext hs.donorThreads
      · exact funext hs.waitingLock
    | some i =>
      have he := RecordEffect.same hs (hno i hd)
      constructor <;> rw [hd]
      · exact he.prio
      · exact he.base
      · exact he.donors
      · exact he.waits
  · have he := execInstr_record hk
    constructor <;> rw [hd]
    · rw [he.prio]
      cases i <;> rfl
    · rw [he.base]
      cases i <;> rfl
    · rw [he.donors]
      cases i <;> rfl
    · rw [he.waits]
      cases i <;> rfl

/-- **The records after a step.** -/
theorem step_record (h : k.step a = .ok k') : ActRecord k a k' := by
  obtain ⟨k₁, sched, hact, hs⟩ := step_sync h
  have he := act_record hact
  exact ⟨(funext hs.priority : k'.prio = k₁.prio).trans he.prio,
    (funext hs.basePriority : k'.base = k₁.base).trans he.base,
    (funext hs.donorThreads : k'.donors = k₁.donors).trans he.donors,
    (funext hs.waitingLock : k'.waits = k₁.waits).trans he.waits⟩

/-! ## Priorities stay in range -/

/-- Every priority is one that `PRI_MIN` and `PRI_MAX` allow. -/
def InRange (k : Kernel) : Prop :=
  ∀ t, (0 ≤ k.prio t ∧ k.prio t ≤ 63) ∧ 0 ≤ k.base t ∧ k.base t ≤ 63

section

variable (h : InRange k)
include h

theorem InRange.of_eq (hp : ∀ t, k'.prio t = k.prio t)
    (hb : ∀ t, k'.base t = k.base t) : InRange k' := by
  intro t
  rw [hp, hb]
  exact h t

theorem InRange.update {u : ThreadRef} {q : Int}
    (hp : k'.prio = update k.prio u p) (hb : k'.base = update k.base u q)
    (hp' : 0 ≤ p ∧ p ≤ 63) (hq : 0 ≤ q ∧ q ≤ 63) : InRange k' := by
  intro t
  rw [hp, hb]
  by_cases ht : t = u
  · subst ht
    rw [update_self, update_self]
    exact ⟨hp', hq⟩
  · rw [update_of_ne ht, update_of_ne ht]
    exact h t

/-- A section writes only priorities that were there, and arguments that it has checked. -/
theorem InRange.after (hp : k'.prio = k.prioAfter i) (hb : k'.base = k.baseAfter i)
    (hcreate : ∀ t p, i = .threadCreate t p → 0 ≤ p ∧ p ≤ 63) : InRange k' := by
  have hself : ∀ u, Function.update k.base u (k.base u) = k.base := fun u => update_eq_self ..
  cases i with
  | lockAcquire =>
    intro t
    rw [hp, hb]
    refine ⟨?_, (h t).2⟩
    simp only [prioAfter]
    split
    · exact (h _).1
    · exact (h t).1
  | lockRelease =>
    refine h.update hp (hb.trans (hself k.current).symm) ?_ (h k.current).2
    unfold restoredPriority
    split
    · exact (h k.current).1
    · split
      · exact (h k.current).2
      · exact (h _).1
  | threadCreate t p => exact h.update hp hb (hcreate t p rfl) (hcreate t p rfl)
  | threadSetPriority p =>
    simp only [prioAfter, baseAfter] at hp hb
    by_cases hr : p ≤ 63 ∧ 0 ≤ p
    · rw [if_pos hr] at hb
      by_cases hd : (k.thread k.current).donorThreads = [] ∨ k.prio k.current < p
      · rw [if_pos ⟨hr, hd⟩] at hp
        exact h.update hp hb hr.symm hr.symm
      · rw [if_neg fun hx => hd hx.2] at hp
        exact h.update (hp.trans (update_eq_self k.current k.prio).symm) hb
          (h k.current).1 hr.symm
    · rw [if_neg hr] at hb
      rw [if_neg fun hx => hr hx.1] at hp
      exact h.of_eq (fun t => congrFun hp t) fun t => congrFun hb t
  | _ => exact h.of_eq (fun t => congrFun hp t) fun t => congrFun hb t

/-- **An action keeps priorities in range.** -/
theorem InRange.act (hk : k.act a = .ok (k', sched)) : InRange k' := by
  obtain ⟨hp, hb, -, -⟩ := act_record hk
  cases hd : k.does a with
  | none =>
    rw [hd] at hp hb
    exact h.of_eq (fun t => congrFun hp t) fun t => congrFun hb t
  | some i =>
    rw [hd] at hp hb
    refine h.after hp hb ?_
    rintro t p rfl
    -- only the thread itself executes `thread_create', which asserts the range
    cases a with
    | exec =>
      cases hc : k.code k.current with
      | nil => simp [does, head, hc] at hd
      | cons i =>
        obtain rfl : i = .threadCreate t p := by simpa [does, head, hc] using hd
        simp only [Kernel.act, hc] at hk
        exact (eq_of_guard (continues_eq_ok hk).1).1
    | _ => simp [does] at hd

theorem InRange.schedule (hk : k.schedule = .ok k') : InRange k' :=
  h.of_eq (schedule_sync hk).priority (schedule_sync hk).basePriority

/-- **One step** keeps priorities in range. -/
theorem InRange.step (hk : k.step a = .ok k') : InRange k' := by
  obtain ⟨k₁, sched, hact, hs⟩ := step_sync hk
  exact (h.act hact).of_eq hs.priority hs.basePriority

end

theorem InRange.init (b : Boot) : InRange (boot b) := by
  intro t
  show (0 ≤ (b.thread t).priority ∧ (b.thread t).priority ≤ 63) ∧
    0 ≤ (b.thread t).basePriority ∧ (b.thread t).basePriority ≤ 63
  unfold Boot.thread
  split
  · decide
  · split <;> decide

end Pintos.Threads
