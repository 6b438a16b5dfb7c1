/-
  What one section does, component by component.

  `Kernel.execInstr` says what a section does to the whole state.  The invariants of this
  development are about a few components each, so this file says ONCE what a section does to each
  of them, as functions of the state before it:

  1. **Code** (`leaves`, `codeAfter`) — what the current thread still has to do;
  2. **Semaphores** (`semaAfter`), **holders** (`holderAfter`), **conditions** (`condAfter`);
  3. **Threads** (`allAfter`) — who exists.

  `execInstr_effect` and `act_effect` connect them to the code; no invariant proof unfolds a section
  again.  `does` is the instruction an action executes: an interrupt handler that calls `sema_up`
  does what a thread that calls it does.
-/
import Pintos.Threads.Frame

namespace Pintos.Threads

open Lib Base Function Option

namespace Kernel

/-! ## The components -/

/-- What a section of `i` leaves the current thread to do before the rest of its code. -/
def leaves (k : Kernel) : Instr → List Instr
  | .semaDown s | .semaRetest s =>
    if (k.sema s).value = 0 then [.semaRetest s] else afterDown s
  | .semaUp s =>
    match listSort k.listDescPrioSort (k.sema s).waiters with
    | [] => []
    | t :: _ => [.semaUpYield t]
  | .lockAcquire l => [.semaDown (.lock l)]
  | .lockTryAcquire l => if 0 < (k.sema (.lock l)).value then [.lockTryHold l] else []
  | .lockRelease l => [.semaUp (.lock l)]
  | .condWait _ l => [.lockRelease l, .semaDown (.waiter k.current), .lockAcquire l]
  | .condSignal c _ => [.condPop c]
  | .condPop c =>
    match k.condWaiters c with
    | [] => []
    | w :: _ => [.semaUp (.waiter w)]
  | .condBroadcast c l =>
    if k.condWaiters c = [] then [] else [.condSignal c l, .condBroadcast c l]
  | .threadCreate t _ =>
    [.lockAcquire tidLock, .lockRelease tidLock, .createUnblock t, .createYield t]
  | .threadBlock => [.blockReturn]
  | .idleBlock => [.idleBlock]
  | _ => []

def codeAfter (k : Kernel) (i : Instr) : ThreadRef → List Instr :=
  match i with
  | .threadExit => update k.code k.current []
  | .threadCreate t _ =>
    let code := update k.code t [.kernelThread]
    update code k.current (k.leaves i ++ code k.current)
  | _ => update k.code k.current (k.leaves i ++ k.code k.current)

def semaAfter (k : Kernel) : Instr → SemaRef → Semaphore
  | .semaDown s | .semaRetest s =>
    update k.sema s
      (if (k.sema s).value = 0 then
        { k.sema s with
          waiters := listInsertOrdered k.listDescPrioSort k.current (k.sema s).waiters }
      else { k.sema s with value := (k.sema s).value - 1 })
  | .semaTryDown s => update k.sema s { k.sema s with value := (k.sema s).value - 1 }
  | .semaUp s =>
    update k.sema s
      ⟨((k.sema s).value + 1) % 4294967296, (listSort k.listDescPrioSort (k.sema s).waiters).tail⟩
  | .condWait _ _ => update k.sema (.waiter k.current) ⟨0, []⟩
  | _ => k.sema

def holderAfter (k : Kernel) : Instr → LockRef → Option ThreadRef
  | .lockHold l | .lockTryHold l => update k.holder l (some k.current)
  | .lockRelease l => update k.holder l none
  | _ => k.holder

/-- The waiters of the conditions after a section of `i`. -/
def condAfter (k : Kernel) : Instr → CondRef → List ThreadRef
  | .condWait c _ => update k.condWaiters c (k.condWaiters c ++ [k.current])
  | .condSignal c _ =>
    update k.condWaiters c (listSort k.condvarDescSort (k.condWaiters c))
  | .condPop c => update k.condWaiters c (k.condWaiters c).tail
  | _ => k.condWaiters

def allAfter (k : Kernel) : Instr → List ThreadRef
  | .threadCreate t _ => k.allList ++ [t]
  | .threadExit => k.allList.erase k.current
  | _ => k.allList

/-- The lock that the current thread has to hold for the section to pass its assertion. -/
def mustHold : Instr → Option LockRef
  | .lockRelease l | .condWait _ l | .condSignal _ l => some l
  | _ => none

end Kernel

open Kernel

/-- `k'` is `k` after a section of `i`, as far as these components go. -/
structure Effect (k : Kernel) (i : Instr) (k' : Kernel) : Prop where
  held : ∀ l, mustHold i = some l → k.holder l = some k.current
  threadMlfqs : k'.threadMlfqs = k.threadMlfqs
  code : k'.code = k.codeAfter i
  sema : k'.sema = k.semaAfter i
  holder : k'.holder = k.holderAfter i
  condWaiters : k'.condWaiters = k.condAfter i
  allList : k'.allList = k.allAfter i

variable {k k' k₁ : Kernel} {i : Instr} {sched : Bool}

theorem Effect.sync (h : Effect k i k₁) (hs : SameSync k₁ k') : Effect k i k' where
  held := h.held
  threadMlfqs := hs.threadMlfqs.trans h.threadMlfqs
  code := hs.code.trans h.code
  sema := hs.sema.trans h.sema
  holder := hs.holder.trans h.holder
  condWaiters := hs.condWaiters.trans h.condWaiters
  allList := hs.allList.trans h.allList

theorem Effect.idle (hheld : mustHold i = none) (hcode : k.codeAfter i = k.code)
    (hsema : k.semaAfter i = k.sema) (hholder : k.holderAfter i = k.holder)
    (hcond : k.condAfter i = k.condWaiters) (hall : k.allAfter i = k.allList) : Effect k i k :=
  ⟨fun l hl => absurd (hheld.symm.trans hl) (by simp), rfl, hcode.symm, hsema.symm, hholder.symm,
    hcond.symm, hall.symm⟩

/-! ## The sections -/

attribute [local simp] codeAfter leaves semaAfter holderAfter condAfter allAfter mustHold

variable {s : SemaRef} {l : LockRef} {a : Action} {c : CondRef} {t : ThreadRef} {p : Int}

theorem semaDown_effect (hi : i = .semaDown s ∨ i = .semaRetest s) :
    Effect k i (k.semaDown s).1 := by
  unfold Kernel.semaDown
  split
  · rename_i hv
    rcases hi with rfl | rfl
    all_goals
      constructor <;> simp [threadBlock, push, hv]
  · rename_i hv
    rcases hi with rfl | rfl
    all_goals
      constructor <;> simp [push, hv]

theorem semaTryDown_effect : Effect k (.semaTryDown s) (k.semaTryDown s) := by
  unfold Kernel.semaTryDown
  split
  · constructor <;> simp
  have hv0 : (k.sema s).value = 0 := by omega
  -- the truncated subtraction stands for the test
  have hsame : { k.sema s with value := (k.sema s).value - 1 } = k.sema s := by
    cases hs : k.sema s with
    | mk =>
      rw [hs] at hv0
      simp only at hv0 ⊢
      rw [hv0]
  exact Effect.idle rfl (by simp) (by simp [hsame]) rfl rfl rfl

theorem semaUp_sema {w : Option ThreadRef} (h : k.semaUp s = .ok (w, k')) :
    k'.sema = k.semaAfter (.semaUp s) ∧ k'.threadMlfqs = k.threadMlfqs ∧ k'.code = k.code ∧
    k'.holder = k.holder ∧ k'.condWaiters = k.condWaiters ∧ k'.allList = k.allList ∧
    k'.current = k.current := by
  rcases semaUp_eq_ok h with ⟨-, hw, rfl⟩ | ⟨t, ts, -, hsort, rfl⟩
  · have hnil : listSort k.listDescPrioSort (k.sema s).waiters = [] := by rw [hw]; rfl
    refine ⟨?_, rfl, rfl, rfl, rfl, rfl, rfl⟩
    simp only [semaAfter, hnil]
    rfl
  · refine ⟨?_, rfl, rfl, rfl, rfl, rfl, rfl⟩
    simp only [semaAfter, hsort]
    rfl

theorem semaUp_effect (h : k.execInstr (.semaUp s) = .ok (k', sched)) :
    Effect k (.semaUp s) k' := by
  simp only [execInstr] at h
  split at h
  · cases h
  · rename_i k₁ hk
    cases h
    obtain ⟨hs, hm, hc, hh, hcw, ha, -⟩ := semaUp_sema hk
    refine ⟨by simp, hm, ?_, hs, hh, hcw, ha⟩
    rcases semaUp_eq_ok hk with ⟨-, hw, -⟩ | ⟨t, ts, hn, -⟩
    · have hnil : listSort k.listDescPrioSort (k.sema s).waiters = [] := by rw [hw]; rfl
      simp [hnil, hc]
    · cases hn
  · rename_i t k₁ hk
    cases h
    obtain ⟨hs, hm, hc, hh, hcw, ha, hcur⟩ := semaUp_sema hk
    refine ⟨by simp, hm, ?_, hs, hh, hcw, ha⟩
    rcases semaUp_eq_ok hk with ⟨hn, -⟩ | ⟨u, ts, hn, hsort, -⟩
    · cases hn
    · cases hn
      simp [push, hsort, hc, hcur]

theorem lockAcquire_effect (h : k.lockAcquire l = .ok k') : Effect k (.lockAcquire l) k' := by
  obtain ⟨th, rfl, -⟩ := lockAcquire_only h
  exact ⟨by simp, rfl, rfl, rfl, rfl, rfl, rfl⟩

theorem lockTryAcquire_effect (h : k.lockTryAcquire l = .ok k') :
    Effect k (.lockTryAcquire l) k' := by
  obtain ⟨-, h⟩ := ok_of_check h
  split at h <;> rename_i hv <;> cases h
  · constructor <;> simp [push, hv]
  · have hv0 : (k.sema (.lock l)).value = 0 := by omega
    exact Effect.idle rfl (by simp [hv0]) rfl rfl rfl rfl

theorem lockRelease_effect (h : k.lockRelease l = .ok k') : Effect k (.lockRelease l) k' := by
  obtain ⟨hh, rfl⟩ := eq_of_guard h
  exact ⟨fun l' hl => some.inj hl ▸ hh, rfl, rfl, rfl, rfl, rfl, rfl⟩

theorem condWait_effect (h : k.condWait c l = .ok k') : Effect k (.condWait c l) k' := by
  obtain ⟨hh, rfl⟩ := eq_of_guard h
  exact ⟨fun l' hl => some.inj hl ▸ hh, rfl, rfl, rfl, rfl, rfl, rfl⟩

theorem condSignal_effect (h : k.condSignal c l = .ok k') : Effect k (.condSignal c l) k' := by
  obtain ⟨hh, h⟩ := ok_of_guard h
  obtain ⟨-, rfl⟩ := eq_of_guard h
  exact ⟨fun l' hl => some.inj hl ▸ hh, rfl, rfl, rfl, rfl, rfl, rfl⟩

theorem condPop_effect (h : k.condPop c = .ok k') : Effect k (.condPop c) k' := by
  unfold Kernel.condPop at h
  split at h
  · cases h
  · rename_i w ws hw
    cases h
    refine ⟨by simp, rfl, ?_, rfl, rfl, ?_, rfl⟩
    · simp [push, hw]
    · simp [push, hw]

theorem threadCreate_effect (h : k.threadCreate t p = .ok k') :
    Effect k (.threadCreate t p) k' := by
  obtain ⟨-, rfl⟩ := eq_of_guard h
  exact ⟨by simp, rfl, rfl, rfl, rfl, rfl, rfl⟩

theorem threadSetPriority_effect {junk : Int} :
    Effect k (.threadSetPriority p junk) (k.threadSetPriority p junk).1 := by
  have hidle : ∀ k : Kernel, Effect k (.threadSetPriority p junk) k := fun k =>
    Effect.idle rfl (by simp) rfl rfl rfl rfl
  have hset : Effect k (.threadSetPriority p junk) (k.setBasePriority p) := by
    constructor <;> simp [setBasePriority]
  unfold Kernel.threadSetPriority
  split
  · simp only
    split
    · exact hset.sync (threadYield_sync _)
    · exact hset
  · exact hidle k

/-- **The effect of a section.** -/
theorem execInstr_effect (h : k.execInstr i = .ok (k', sched)) : Effect k i k' := by
  cases i with
  | semaDown => rw [ok_fst h]; exact semaDown_effect (.inl rfl)
  | semaRetest => rw [ok_fst h]; exact semaDown_effect (.inr rfl)
  | semaTryDown => rw [ok_fst h]; exact semaTryDown_effect
  | semaUp => exact semaUp_effect h
  | lockAcquire => exact lockAcquire_effect (continues_eq_ok h).1
  | lockTryAcquire => exact lockTryAcquire_effect (continues_eq_ok h).1
  | lockRelease => exact lockRelease_effect (continues_eq_ok h).1
  | condWait => exact condWait_effect (continues_eq_ok h).1
  | condSignal => exact condSignal_effect (continues_eq_ok h).1
  | condPop => exact condPop_effect (continues_eq_ok h).1
  | threadCreate => exact threadCreate_effect (continues_eq_ok h).1
  | threadSetPriority => rw [ok_fst h]; exact threadSetPriority_effect
  | condBroadcast c l =>
    rw [ok_fst h]
    simp only [condBroadcast]
    split
    · rename_i hw
      exact Effect.idle rfl (by simp [hw]) rfl rfl rfl rfl
    · rename_i hw
      constructor <;> simp [push, hw]
  | lockHold l | lockTryHold l =>
    rw [ok_fst h]
    constructor <;> simp [lockHold, lockTryHold]
  | semaUpYield t | createYield t =>
    rw [ok_fst h]
    exact Effect.sync (Effect.idle rfl (by simp) rfl rfl rfl rfl)
      (yieldIf_sync _ _)
  | threadYield =>
    rw [ok_fst h]
    exact Effect.sync (Effect.idle rfl (by simp) rfl rfl rfl rfl)
      (threadYield_sync _)
  | createUnblock =>
    exact Effect.sync (Effect.idle rfl (by simp) rfl rfl rfl rfl)
      (threadUnblock_sync (continues_eq_ok h).1)
  | kernelThread | blockReturn =>
    rw [ok_fst h]
    exact Effect.idle rfl (by simp) rfl rfl rfl rfl
  | threadBlock | idleBlock | threadExit =>
    rw [ok_fst h]
    exact ⟨by simp, rfl, rfl, rfl, rfl, rfl, rfl⟩
  | idleStart =>
    rw [ok_fst h]
    constructor <;> simp

/-! ## The actions -/

namespace Kernel

/-- The instruction an action executes, by whomever. -/
def does (k : Kernel) : Action → Option Instr
  | .exec => k.head k.current
  | .intrSemaUp s => some (.semaUp s)
  | .intrSemaTryDown s => some (.semaTryDown s)
  | _ => none

def codeAct (k : Kernel) : Action → ThreadRef → List Instr
  | .exec =>
    match k.code k.current with
    | [] => k.code
    | i :: _ => k.pop.codeAfter i
  | .call i => update k.code k.current (i :: k.code k.current)
  | _ => k.code

end Kernel

/-- `k'` is `k` after action `a`, as far as these components go. -/
structure ActEffect (k : Kernel) (a : Action) (k' : Kernel) : Prop where
  held : ∀ i l, k.does a = some i → mustHold i = some l → k.holder l = some k.current
  threadMlfqs : k'.threadMlfqs = k.threadMlfqs
  code : k'.code = k.codeAct a
  sema : k'.sema = (k.does a).elim k.sema k.semaAfter
  holder : k'.holder = (k.does a).elim k.holder k.holderAfter
  condWaiters : k'.condWaiters = (k.does a).elim k.condWaiters k.condAfter
  allList : k'.allList = (k.does a).elim k.allList k.allAfter

theorem ActEffect.sync (h : ActEffect k a k₁) (hs : SameSync k₁ k') : ActEffect k a k' where
  held := h.held
  threadMlfqs := hs.threadMlfqs.trans h.threadMlfqs
  code := hs.code.trans h.code
  sema := hs.sema.trans h.sema
  holder := hs.holder.trans h.holder
  condWaiters := hs.condWaiters.trans h.condWaiters
  allList := hs.allList.trans h.allList

/-- **The effect of an action.** -/
theorem act_effect (h : k.act a = .ok (k', sched)) : ActEffect k a k' := by
  have hsame : ∀ a, k.does a = none → k.codeAct a = k.code → ActEffect k a k := fun a hd hc => by
    constructor <;> simp [hd, hc]
  cases a with
  | exec =>
    simp only [act] at h
    cases hc : k.code k.current with
    | nil =>
      rw [hc] at h
      rw [ok_fst h]
      exact hsame _ (by simp [does, head, hc]) (by simp [codeAct, hc])
    | cons i =>
      rw [hc] at h
      have he := execInstr_effect h
      have hd : k.does .exec = some i := by simp [does, head, hc]
      refine ⟨fun j l hj hl => ?_, he.threadMlfqs, ?_, ?_, ?_, ?_, ?_⟩
      · cases hd.symm.trans hj
        exact he.held l hl
      · rw [he.code]; simp only [codeAct, hc]
      · rw [he.sema, hd]; cases i <;> rfl
      · rw [he.holder, hd]; cases i <;> rfl
      · rw [he.condWaiters, hd]; cases i <;> rfl
      · rw [he.allList, hd]; cases i <;> rfl
  | call =>
    rw [ok_fst h]
    exact ⟨by simp [does], rfl, rfl, rfl, rfl, rfl, rfl⟩
  | timer =>
    rw [ok_fst h]
    exact (hsame _ rfl rfl).sync (threadYield_sync k)
  | intrSemaUp s =>
    simp only [act] at h
    split at h
    · cases h
    rename_i w k₁ hk
    rw [ok_fst h]
    obtain ⟨hs, hm, hc, hh, hcw, ha, -⟩ := semaUp_sema hk
    refine ActEffect.sync ⟨?_, hm, hc, hs, hh, hcw, ha⟩ (threadYield_sync k₁)
    rintro i l ⟨⟩ hl
    exact absurd hl (by simp)
  | intrSemaTryDown s =>
    rw [ok_fst h]
    have he := semaTryDown_effect (k := k) (s := s)
    refine ⟨?_, he.threadMlfqs, ?_, he.sema, he.holder, he.condWaiters, he.allList⟩
    · rintro i l ⟨⟩ hl
      exact absurd hl (by simp)
    · rw [he.code]
      simp [codeAct]
  | unblock => exact (hsame _ rfl rfl).sync (threadUnblock_sync (continues_eq_ok h).1)

/-- **The effect of a step**: scheduling adds nothing. -/
theorem step_effect (h : k.step a = .ok k') : ActEffect k a k' := by
  obtain ⟨k₁, sched, hact, hs⟩ := step_sync h
  exact (act_effect hact).sync hs

/-! ## One semaphore -/

/-- The instructions of the semaphore functions on `s`. -/
def onSema (s : SemaRef) : Instr → Bool
  | .semaDown s' | .semaRetest s' | .semaTryDown s' | .semaUp s' => s' = s
  | _ => false

/-- A section of anything else does not touch `s`; only `cond_wait` initialises a private one. -/
theorem semaAfter_of_not_onSema (hi : onSema s i = false)
    (hw : ∀ c l, i = .condWait c l → s ≠ .waiter k.current) : k.semaAfter i s = k.sema s := by
  cases i with
  | semaDown s' | semaRetest s' | semaTryDown s' | semaUp s' =>
    have hne : s ≠ s' := fun he => by simp [onSema, he] at hi
    simp [hne]
  | condWait c l => simp [hw c l rfl]
  | _ => rfl

/-- **What an action does to one semaphore** that is not private to a `cond_wait`. -/
theorem ActEffect.sema_cases (h : ActEffect k a k') (hs : ∀ t, s ≠ .waiter t) :
    (k'.sema s = k.sema s ∧ ∀ i, k.does a = some i → onSema s i = false) ∨
    ((k.does a = some (.semaDown s) ∨ k.does a = some (.semaRetest s)) ∧ (k.sema s).value = 0 ∧
      k'.sema s = { k.sema s with
        waiters := listInsertOrdered k.listDescPrioSort k.current (k.sema s).waiters }) ∨
    ((k.does a = some (.semaDown s) ∨ k.does a = some (.semaRetest s)) ∧
      (k.sema s).value ≠ 0 ∧ k'.sema s = { k.sema s with value := (k.sema s).value - 1 }) ∨
    (k.does a = some (.semaTryDown s) ∧
      k'.sema s = { k.sema s with value := (k.sema s).value - 1 }) ∨
    (k.does a = some (.semaUp s) ∧ k'.sema s =
      ⟨((k.sema s).value + 1) % 4294967296, (listSort k.listDescPrioSort (k.sema s).waiters).tail⟩) := by
  rw [h.sema]
  cases hd : k.does a with
  | none => exact .inl ⟨rfl, fun i hi => absurd hi (by simp)⟩
  | some i =>
    by_cases hi : onSema s i = true
    · cases i with
      | semaDown s' | semaRetest s' =>
        obtain rfl : s' = s := by simpa [onSema] using hi
        by_cases hv : (k.sema s').value = 0
        · exact .inr (.inl ⟨by simp, hv, by simp [hv]⟩)
        · exact .inr (.inr (.inl ⟨by simp, hv, by simp [hv]⟩))
      | semaTryDown s' =>
        obtain rfl : s' = s := by simpa [onSema] using hi
        exact .inr (.inr (.inr (.inl ⟨rfl, by simp⟩)))
      | semaUp s' =>
        obtain rfl : s' = s := by simpa [onSema] using hi
        exact .inr (.inr (.inr (.inr ⟨rfl, by simp⟩)))
      | _ => exact absurd hi (by simp [onSema])
    · have hi' : onSema s i = false := by simpa using hi
      refine .inl ⟨semaAfter_of_not_onSema hi' fun _ _ _ => hs _, ?_⟩
      intro j hj
      rwa [← some.inj hj]

end Pintos.Threads
