/-
  Which sections write a `struct thread`.

  A thread changes its STATUS all the time; the other members of its record (priorities, donors, the
  lock it waits for) are written by five functions only (`writesRecord`), and the ready list is by
  those that yield or unblock (`queues`).  So a statement about one of those members is read off
  these functions, and every other section is dealt with here, once: `SameRecords`, `SameReady`.
-/
import Pintos.Threads.Effects

namespace Pintos.Threads

open Lib Base Kernel

variable {k k' k₁ : Kernel} {i : Instr} {sched : Bool}

/-- Every record is as before, its status apart. -/
def SameRecords (k k' : Kernel) : Prop :=
  ∀ t, k'.thread t = { k.thread t with status := (k'.thread t).status }

namespace SameRecords

theorem refl (k : Kernel) : SameRecords k k := fun _ => rfl

theorem trans (h : SameRecords k k₁) (h' : SameRecords k₁ k') : SameRecords k k' := by
  intro t
  rw [h' t, h t]

theorem of_setStatus {t : ThreadRef} {st : ThreadStatus} (h : k'.thread = setStatus k.thread t st) :
    SameRecords k k' := by
  intro u
  rw [h, setStatus, modify_apply]
  split <;> rfl

theorem of_sync (h : SameSync k k') : SameRecords k k' := by
  intro t
  have hp := h.priority t
  have hb := h.basePriority t
  have hd := h.donorThreads t
  have hw := h.waitingLock t
  revert hp hb hd hw
  cases k'.thread t
  cases k.thread t
  rintro rfl rfl rfl rfl
  rfl

section

variable (h : SameRecords k k') (t : ThreadRef)
include h

theorem priority : (k'.thread t).priority = (k.thread t).priority := by rw [h t]

theorem basePriority : (k'.thread t).basePriority = (k.thread t).basePriority := by rw [h t]

theorem donorThreads : (k'.thread t).donorThreads = (k.thread t).donorThreads := by rw [h t]

theorem waitingLock : (k'.thread t).waitingLock = (k.thread t).waitingLock := by rw [h t]

end

end SameRecords

/-- The functions that write a member of a `struct thread` besides its status. -/
def writesRecord : Instr → Bool
  | .lockAcquire _ | .lockHold _ | .lockRelease _ | .threadCreate _ _ | .threadSetPriority _ _ => true
  | _ => false

structure SameReady (k k' : Kernel) : Prop where
  threadMlfqs : k'.threadMlfqs = k.threadMlfqs
  readyList : k'.readyList = k.readyList
  priorityLevels : k'.priorityLevels = k.priorityLevels
  highestPriority : k'.highestPriority = k.highestPriority

/-- The instructions whose sections insert into the ready list. -/
def queues : Instr → Bool
  | .semaUp _ | .semaUpYield _ | .createUnblock _ | .createYield _ | .threadYield
  | .threadSetPriority _ _ => true
  | _ => false

/-- **The other sections** write no record and leave the queues alone. -/
theorem execInstr_quiet (h : k.execInstr i = .ok (k', sched)) (hi : writesRecord i = false)
    (hq : queues i = false) : SameRecords k k' ∧ SameReady k k' := by
  cases i with
  | lockAcquire l | lockHold l | lockRelease l | threadCreate t p | threadSetPriority p junk =>
    cases hi
  | semaUp s | semaUpYield t | createYield t | threadYield | createUnblock t => cases hq
  | semaDown s | semaRetest s =>
    rw [ok_fst h]
    simp only [Kernel.semaDown]
    split
    · exact ⟨SameRecords.of_setStatus rfl, rfl, rfl, rfl, rfl⟩
    · exact ⟨SameRecords.refl k, rfl, rfl, rfl, rfl⟩
  | semaTryDown =>
    rw [ok_fst h]
    simp only [Kernel.semaTryDown]
    split <;> exact ⟨SameRecords.refl k, rfl, rfl, rfl, rfl⟩
  | lockTryAcquire =>
    have hk := (ok_of_check (continues_eq_ok h).1).2
    split at hk <;> obtain rfl := Except.ok.inj hk <;>
      exact ⟨SameRecords.refl k, rfl, rfl, rfl, rfl⟩
  | condWait =>
    obtain ⟨-, rfl⟩ := eq_of_guard (continues_eq_ok h).1
    exact ⟨SameRecords.refl k, rfl, rfl, rfl, rfl⟩
  | condSignal =>
    obtain ⟨-, rfl⟩ := eq_of_guard (ok_of_guard (continues_eq_ok h).1).2
    exact ⟨SameRecords.refl k, rfl, rfl, rfl, rfl⟩
  | condPop =>
    have hk := (continues_eq_ok h).1
    unfold Kernel.condPop at hk
    split at hk
    · cases hk
    · cases hk
      exact ⟨SameRecords.refl k, rfl, rfl, rfl, rfl⟩
  | condBroadcast =>
    rw [ok_fst h]
    simp only [Kernel.condBroadcast]
    split <;> exact ⟨SameRecords.refl k, rfl, rfl, rfl, rfl⟩
  | threadBlock | idleBlock | threadExit =>
    rw [ok_fst h]
    exact ⟨SameRecords.of_setStatus rfl, rfl, rfl, rfl, rfl⟩
  | lockTryHold l | kernelThread | blockReturn | idleStart =>
    rw [ok_fst h]
    exact ⟨SameRecords.refl k, rfl, rfl, rfl, rfl⟩

theorem semaUp_records {s : SemaRef} {w : Option ThreadRef} (h : k.semaUp s = .ok (w, k')) :
    SameRecords k k' := by
  rcases semaUp_eq_ok h with ⟨-, -, rfl⟩ | ⟨t, ts, -, -, rfl⟩
  · exact SameRecords.refl k
  · exact SameRecords.of_setStatus rfl

theorem execInstr_records (h : k.execInstr i = .ok (k', sched)) (hi : writesRecord i = false) :
    SameRecords k k' := by
  cases i with
  | semaUp s =>
    simp only [execInstr] at h
    split at h
    · cases h
    · rename_i hk
      rw [ok_fst h]
      exact semaUp_records hk
    · rename_i hk
      rw [ok_fst h]
      exact fun t => semaUp_records hk t
  | semaUpYield t | createYield t =>
    rw [ok_fst h]
    exact SameRecords.of_sync (yieldIf_sync _ _)
  | threadYield =>
    rw [ok_fst h]
    exact SameRecords.of_sync (threadYield_sync _)
  | createUnblock => exact SameRecords.of_sync (threadUnblock_sync (continues_eq_ok h).1)
  | _ => exact (execInstr_quiet h hi (by first | rfl | cases hi)).1

theorem execInstr_ready (h : k.execInstr i = .ok (k', sched)) (hq : queues i = false) :
    SameReady k k' := by
  cases i with
  | lockAcquire =>
    obtain ⟨th, rfl, -⟩ := lockAcquire_only (continues_eq_ok h).1
    exact ⟨rfl, rfl, rfl, rfl⟩
  | lockRelease l | threadCreate t p =>
    obtain ⟨-, rfl⟩ := eq_of_guard (continues_eq_ok h).1
    exact ⟨rfl, rfl, rfl, rfl⟩
  | lockHold =>
    rw [ok_fst h]
    exact ⟨rfl, rfl, rfl, rfl⟩
  | threadSetPriority => cases hq
  | _ => exact (execInstr_quiet h rfl hq).2

/-- **An action** writes a record only by executing one of the five. -/
theorem act_records {a : Action} (h : k.act a = .ok (k', sched)) :
    (SameRecords k k' ∧ ∀ i, k.does a = some i → writesRecord i = false) ∨
      ∃ i, k.does a = some i ∧ writesRecord i = true ∧ k.pop.execInstr i = .ok (k', sched) := by
  cases a with
  | exec =>
    simp only [act] at h
    cases hc : k.code k.current with
    | nil =>
      rw [hc] at h
      rw [ok_fst h]
      exact .inl ⟨SameRecords.refl k, by simp [does, head, hc]⟩
    | cons i =>
      rw [hc] at h
      have hd : k.does .exec = some i := by simp [does, head, hc]
      cases hi : writesRecord i with
      | false =>
        refine .inl ⟨execInstr_records (k := k.pop) h hi, fun j hj => ?_⟩
        rwa [← Option.some.inj (hd.symm.trans hj)]
      | true => exact .inr ⟨i, hd, hi, h⟩
  | call =>
    rw [ok_fst h]
    exact .inl ⟨SameRecords.refl k, by simp [does]⟩
  | timer =>
    rw [ok_fst h]
    exact .inl ⟨SameRecords.of_sync (threadYield_sync k), by simp [does]⟩
  | intrSemaUp s =>
    simp only [act] at h
    split at h
    · cases h
    · rename_i w k₁ hk
      rw [ok_fst h]
      refine .inl ⟨(semaUp_records hk).trans (SameRecords.of_sync (threadYield_sync k₁)), ?_⟩
      rintro i ⟨⟩
      rfl
  | intrSemaTryDown =>
    rw [ok_fst h]
    refine .inl ⟨?_, by rintro i ⟨⟩; rfl⟩
    simp only [Kernel.semaTryDown]
    split <;> exact SameRecords.refl k
  | unblock =>
    exact .inl ⟨SameRecords.of_sync (threadUnblock_sync (continues_eq_ok h).1), by simp [does]⟩

end Pintos.Threads
