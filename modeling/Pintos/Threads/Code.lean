/-
  Where a thread can be.

  The code of a thread is a stack of calls.  Only its FIRST instruction can be in the middle of a
  function; what stands behind it are calls that have not started (`isEntry`).  So the places that
  matter to an invariant (a thread about to become the holder of a lock, a thread about to up the
  semaphore of a lock it has released) are read off next instructions alone, and a thread gets to
  such a place only by the section that leaves it there (`RunStep.head_step`).
-/
import Pintos.Threads.Effects
import Pintos.Threads.LifeCycle

namespace Pintos.Threads

open Lib Base Kernel Option

/-- A call that has not started, of those that stand behind another instruction. -/
def isEntry : Instr → Bool
  | .semaRetest _ | .semaTryDown _ | .semaUpYield _ | .lockHold _ | .lockTryHold _
  | .blockReturn | .kernelThread | .condPop _ => false
  | .semaDown (.lock _) | .semaUp (.lock _) | .semaUp (.waiter _) => false
  | _ => true

/-- The shape of every thread's code. -/
structure CodeInv (k : Kernel) : Prop where
  tails : ∀ t, ∀ j ∈ (k.code t).tail, isEntry j = true
  /-- Only semaphores of their own are ever tried. -/
  tries : ∀ t s, k.head t = some (.semaTryDown s) → ∃ n, s = .user n

/-- One turn of the loop of `sema_down`, on the semaphore of a lock. -/
theorem Kernel.leaves_down (k : Kernel) (l : LockRef) :
    k.leaves (.semaDown (.lock l)) = [.semaRetest (.lock l)] ∨
    k.leaves (.semaDown (.lock l)) = [.lockHold l] := by
  simp only [leaves]
  split
  · exact .inl rfl
  · exact .inr rfl

theorem leaves_tail (k : Kernel) (i : Instr) : ∀ j ∈ (k.leaves i).tail, isEntry j = true := by
  intro j hj
  cases i with
  | semaDown s | semaRetest s =>
    simp only [leaves] at hj
    split at hj
    · simp at hj
    · cases s <;> simp [afterDown] at hj
  | semaUp | condPop | lockTryAcquire =>
    simp only [leaves] at hj
    split at hj <;> simp at hj
  | condBroadcast c l =>
    simp only [leaves] at hj
    split at hj
    · simp at hj
    · obtain rfl : j = .condBroadcast c l := by simpa using hj
      rfl
  | condWait c l =>
    have hj' : j = .semaDown (.waiter k.current) ∨ j = .lockAcquire l := by
      simpa [leaves] using hj
    rcases hj' with rfl | rfl <;> rfl
  | threadCreate t =>
    have hj' : j = .lockRelease tidLock ∨ j = .createUnblock t ∨ j = .createYield t := by
      simpa [leaves] using hj
    rcases hj' with rfl | rfl | rfl <;> rfl
  | _ => simp [leaves] at hj

/-- The ways into the middle of a function: a section of the first leaves the second next. -/
inductive Into (k : Kernel) : Instr → Instr → Prop
  | block {s : SemaRef} (hv : (k.sema s).value = 0) : Into k (.semaDown s) (.semaRetest s)
  | blockAgain {s : SemaRef} (hv : (k.sema s).value = 0) : Into k (.semaRetest s) (.semaRetest s)
  | take {l : LockRef} (hv : (k.sema (.lock l)).value ≠ 0) :
      Into k (.semaDown (.lock l)) (.lockHold l)
  | takeWoken {l : LockRef} (hv : (k.sema (.lock l)).value ≠ 0) :
      Into k (.semaRetest (.lock l)) (.lockHold l)
  | wake {s : SemaRef} {t : ThreadRef} {ts : List ThreadRef}
      (hsort : listSort k.listDescPrioSort (k.sema s).waiters = t :: ts) :
      Into k (.semaUp s) (.semaUpYield t)
  | acquire {l : LockRef} : Into k (.lockAcquire l) (.semaDown (.lock l))
  | tryFree {l : LockRef} (hv : (k.sema (.lock l)).value ≠ 0) :
      Into k (.lockTryAcquire l) (.lockTryHold l)
  | release {l : LockRef} : Into k (.lockRelease l) (.semaUp (.lock l))
  | sort {c : CondRef} {l : LockRef} : Into k (.condSignal c l) (.condPop c)
  | signal {c : CondRef} {w : ThreadRef} {ws : List ThreadRef} (hw : k.condWaiters c = w :: ws) :
      Into k (.condPop c) (.semaUp (.waiter w))
  | sleep : Into k .threadBlock .blockReturn

/-- The calls that a section leaves to be made later. -/
inductive Calls (k : Kernel) : Instr → Instr → Prop
  | waitRelease {c : CondRef} {l : LockRef} : Calls k (.condWait c l) (.lockRelease l)
  | waitDown {c : CondRef} {l : LockRef} : Calls k (.condWait c l) (.semaDown (.waiter k.current))
  | waitAcquire {c : CondRef} {l : LockRef} : Calls k (.condWait c l) (.lockAcquire l)
  | signal {c : CondRef} {l : LockRef} : Calls k (.condBroadcast c l) (.condSignal c l)
  | again {c : CondRef} {l : LockRef} : Calls k (.condBroadcast c l) (.condBroadcast c l)
  | tidAcquire {t : ThreadRef} {p : Int} : Calls k (.threadCreate t p) (.lockAcquire tidLock)
  | tidRelease {t : ThreadRef} {p : Int} : Calls k (.threadCreate t p) (.lockRelease tidLock)
  | unblock {t : ThreadRef} {p : Int} : Calls k (.threadCreate t p) (.createUnblock t)
  | yield {t : ThreadRef} {p : Int} : Calls k (.threadCreate t p) (.createYield t)
  | idle : Calls k .idleBlock .idleBlock

attribute [local simp] isEntry codeAfter

variable {j : Instr}

/-- **What a section leaves**, instruction by instruction. -/
theorem mem_leaves {k : Kernel} {i : Instr} (h : j ∈ k.leaves i) : Into k i j ∨ Calls k i j := by
  cases i with
  | semaDown s | semaRetest s =>
    simp only [leaves] at h
    split at h
    · rename_i hv
      obtain rfl := List.mem_singleton.mp h
      exact .inl (by constructor; exact hv)
    · rename_i hv
      cases s with
      | lock =>
        obtain rfl := List.mem_singleton.mp h
        exact .inl (by constructor; exact hv)
      | user n | waiter t => simp [afterDown] at h
  | semaUp s =>
    simp only [leaves] at h
    split at h
    · simp at h
    · rename_i hsort
      obtain rfl := List.mem_singleton.mp h
      exact .inl (.wake hsort)
  | condPop c =>
    simp only [leaves] at h
    split at h
    · simp at h
    · rename_i hw
      obtain rfl := List.mem_singleton.mp h
      exact .inl (.signal hw)
  | lockTryAcquire =>
    simp only [leaves] at h
    split at h
    · obtain rfl := List.mem_singleton.mp h
      exact .inl (.tryFree (by omega))
    · simp at h
  | condSignal | lockAcquire | lockRelease | threadBlock =>
    obtain rfl := List.mem_singleton.mp h
    exact .inl (by constructor)
  | condBroadcast =>
    simp only [leaves] at h
    split at h
    · simp at h
    · rcases List.mem_pair.mp h with rfl | rfl
      · exact .inr .signal
      · exact .inr .again
  | idleBlock =>
    obtain rfl := List.mem_singleton.mp h
    exact .inr .idle
  | condWait | threadCreate =>
    simp only [leaves, List.mem_cons, List.not_mem_nil, or_false] at h
    rcases h with rfl | rfl | h
    · exact .inr (by constructor)
    · exact .inr (by constructor)
    · rcases h with rfl | rfl <;> exact .inr (by constructor)
  | _ => simp [leaves] at h

theorem into_of_leaves {k : Kernel} {i : Instr} (h : (k.leaves i).head? = some j)
    (hmid : isEntry j = false) : Into k i j := by
  rcases mem_leaves (List.mem_of_head? h) with hinto | hcall
  · exact hinto
  · cases hcall <;> simp at hmid

variable {k k' : Kernel} {a : Action}

/-! ## The code after an action, thread by thread -/

/-- What an action can do to the code of thread `t`. -/
inductive CodeStep (k : Kernel) (a : Action) (k' : Kernel) (t : ThreadRef) : Prop
  /-- Nothing: it does not execute. -/
  | same (h : k'.code t = k.code t) (hne : t = k.current → a ≠ .exec)
  /-- It has just been created. -/
  | new (h : k'.code t = [.kernelThread]) (hne : t ≠ k.current) (ht : t ∉ k.allList)
  /-- It enters the kernel. -/
  | call (i : Instr) (ht : t = k.current) (ha : a = .call i) (hi : callable i = true)
      (h : k'.code t = [i])
  | exit (ht : t = k.current) (ha : a = .exec) (hh : k.head t = some .threadExit)
      (h : k'.code t = [])
  /-- It executes a section of `i`. -/
  | exec (i : Instr) (is : List Instr) (ht : t = k.current) (ha : a = .exec)
      (hc : k.code t = i :: is) (h : k'.code t = k.leaves i ++ is) (hexit : i ≠ .threadExit)

theorem pop_leaves (k : Kernel) (i : Instr) : k.pop.leaves i = k.leaves i := by
  cases i <;> rfl

variable {i : Instr} {t : ThreadRef} {b : Boot}

theorem codeAfter_current (hi : i ≠ .threadExit)
    (hnew : ∀ u p, i = .threadCreate u p → u ≠ k.current) :
    k.codeAfter i k.current = k.leaves i ++ k.code k.current := by
  cases i with
  | threadExit => exact absurd rfl hi
  | threadCreate u p =>
    have hu := (hnew u p rfl).symm
    simp [hu]
  | _ => simp

theorem codeAfter_of_ne (ht : t ≠ k.current)
    (hnew : ∀ u p, i = .threadCreate u p → t ≠ u) : k.codeAfter i t = k.code t := by
  cases i with
  | threadCreate u p => simp [ht, hnew u p rfl]
  | _ => simp [ht]

/-- Only a thread that is in no function of the kernel can call one. -/
theorem code_nil_of_call (ha : k.enabled (.call i) = true) : k.code k.current = [] := by
  simp only [enabled, Bool.and_eq_true, decide_eq_true_eq] at ha
  exact ha.1

/-- **What a possible action did**, in a state whose threads are alive. -/
structure ActStep (b : Boot) (k : Kernel) (a : Action) (k' : Kernel) : Prop
    extends ActEffect k a k' where
  possible : k.enabled a = true
  alive : Alive b k

/-- **A step in a run**: the state before it has code of the shape above too. -/
structure RunStep (b : Boot) (k : Kernel) (a : Action) (k' : Kernel) : Prop
    extends ActStep b k a k' where
  inv : CodeInv k

namespace ActStep

theorem cur (h : ActStep b k a k') : k.current ∈ k.allList := h.alive.runMem _ rfl

/-- **Every action is one of these**, for every thread. -/
theorem codeStep (h : ActStep b k a k') (t : ThreadRef) : CodeStep k a k' t := by
  have ha := h.possible
  cases a with
  | exec =>
    cases hc : k.code k.current with
    | nil => simp [enabled, head, hc, runnable] at ha
    | cons i is =>
      have hcode : k'.code = k.pop.codeAfter i := by
        rw [h.code]
        simp only [codeAct, hc]
      have hnew : ∀ u p, i = .threadCreate u p → u ∉ k.allList := by
        rintro u p rfl
        simpa [enabled, head, hc, runnable] using ha
      by_cases ht : t = k.current
      · subst ht
        by_cases hi : i = .threadExit
        · subst hi
          exact .exit rfl rfl (by simp [head, hc]) (by simp [hcode, pop])
        · refine .exec i is rfl rfl hc ?_ hi
          have := codeAfter_current (k := k.pop) hi fun u p he hu => hnew u p he (hu ▸ h.cur)
          rw [hcode, show k.current = k.pop.current from rfl, this, pop_leaves]
          simp [pop, hc]
      · by_cases hu : ∃ p, i = .threadCreate t p
        · obtain ⟨p, rfl⟩ := hu
          exact .new (by simp [hcode, pop, ht]) ht (hnew t p rfl)
        · refine .same ?_ fun he => absurd he ht
          rw [hcode, codeAfter_of_ne (k := k.pop) ht fun u p he hx => hu ⟨p, hx ▸ he⟩]
          simp [pop, ht]
  | call i =>
    obtain ⟨hc, hi⟩ : k.code k.current = [] ∧ callable i = true := by
      simpa [enabled] using ha
    by_cases ht : t = k.current
    · subst ht
      exact .call i rfl rfl hi (by simp [h.code, codeAct, hc])
    · exact .same (by simp [h.code, codeAct, ht]) fun he => absurd he ht
  | timer | intrSemaUp s | intrSemaTryDown s | unblock u =>
    exact .same (by rw [h.code]; rfl) (by simp)

theorem code_exec (h : ActStep b k .exec k') (hd : k.does .exec = some i) (hexit : i ≠ .threadExit) :
    ∃ is, k.code k.current = i :: is ∧ k'.code k.current = k.leaves i ++ is := by
  have hhead : k.head k.current = some i := hd
  cases h.codeStep k.current with
  | same _ hne => exact absurd rfl (hne rfl)
  | new _ hne => exact absurd rfl hne
  | call j _ hx => cases hx
  | exit _ _ hh => exact absurd (some.inj (hhead.symm.trans hh)) hexit
  | exec j is _ _ hc hc' =>
    obtain rfl : j = i := by
      rw [head, hc] at hhead
      exact some.inj hhead
    exact ⟨is, hc, hc'⟩

theorem head_current (h : ActStep b k .exec k') {js : List Instr} (hi : k.head k.current = some i)
    (hexit : i ≠ .threadExit) (hj : k.leaves i = j :: js) : k'.head k.current = some j := by
  obtain ⟨is, -, hc'⟩ := h.code_exec hi hexit
  rw [head, hc', hj]
  rfl

/-- A thread with one instruction to execute. -/
theorem code_single (h : ActStep b k .exec k') (hc : k.code k.current = [i])
    (hexit : i ≠ .threadExit) : k'.code k.current = k.leaves i := by
  obtain ⟨is, hc0, hc'⟩ := h.code_exec (by simp [does, head, hc]) hexit
  rw [hc] at hc0
  rw [hc', ← (List.cons.inj hc0).2, List.append_nil]

theorem head_keep (h : ActStep b k a k') (hj : k.head t = some j)
    (hne : t = k.current → a ≠ .exec) : k'.head t = some j := by
  have hcode : k.code t ≠ [] := fun hc => by rw [head, hc] at hj; cases hj
  cases h.codeStep t with
  | same hc => rwa [head, hc]
  | new _ _ ht => exact absurd (h.alive.codeAlive t hcode) ht
  | call i ht hi =>
    subst hi
    exact absurd (ht ▸ code_nil_of_call h.possible) hcode
  | exit ht hx => exact absurd hx (hne ht)
  | exec i is ht hx => exact absurd hx (hne ht)

end ActStep

/-! ## The invariant is kept -/

theorem CodeInv.init (b : Boot) : CodeInv (boot b) := by
  refine ⟨fun t j hj => ?_, fun t s hs => ?_⟩
  · simp only [boot] at hj
    split at hj
    · simp at hj
    · split at hj
      · have hj' : j = .idleStart ∨ j = .semaUp idleStarted ∨ j = .idleBlock := by
          simpa [idleLoop] using hj
        rcases hj' with rfl | rfl | rfl <;> rfl
      · simp at hj
  · rcases Life.mem_boot_code (List.mem_of_head? hs) with hi | ⟨-, hi | hi | hi | hi⟩ <;> cases hi

theorem callable_entry (h : callable i = true) :
    isEntry i = true ∨ ∃ n, i = .semaTryDown (.user n) := by
  cases i with
  | semaDown s => cases s <;> simp [callable] at h ⊢
  | semaUp s => cases s <;> simp [callable] at h ⊢
  | semaTryDown s => cases s <;> simp [callable] at h ⊢
  | _ => simp [callable] at h ⊢

namespace RunStep

/-- **One step** keeps the shape of the code. -/
theorem codeInv (h : RunStep b k a k') : CodeInv k' := by
  have hstep : ∀ t, (∀ j ∈ (k'.code t).tail, isEntry j = true) ∧
      ∀ s, (k'.code t).head? = some (.semaTryDown s) → ∃ n, s = .user n := by
    intro t
    cases h.codeStep t with
    | same hc => rw [hc]; exact ⟨h.inv.tails t, h.inv.tries t⟩
    | new hc => rw [hc]; simp
    | call i _ _ hi hc =>
      rw [hc]
      refine ⟨by simp, fun s hs => ?_⟩
      obtain rfl : i = .semaTryDown s := by simpa using hs
      rcases callable_entry hi with hx | ⟨n, hx⟩
      · simp at hx
      · exact ⟨n, by simpa using hx⟩
    | exit _ _ _ hc => rw [hc]; simp
    | exec i is _ _ hc hc' =>
      have his : ∀ j ∈ is, isEntry j = true := by
        have := h.inv.tails t
        rwa [hc] at this
      rw [hc']
      cases hl : k.leaves i with
      | nil =>
        refine ⟨fun j hj => his j (List.mem_of_mem_tail hj), fun s hs => ?_⟩
        have := his _ (List.mem_of_mem_head? hs)
        simp at this
      | cons =>
        refine ⟨fun j hj => ?_, fun s hs => ?_⟩
        · -- behind the first of what is left stand the rest of it and the old tail
          rcases List.mem_append.mp hj with hj | hj
          · exact leaves_tail k i j (by rwa [hl])
          · exact his j hj
        · have hinto : Into k i (.semaTryDown s) := into_of_leaves (by rwa [hl]) rfl
          cases hinto
  exact ⟨fun t => (hstep t).1, fun t => (hstep t).2⟩

/-- A thread gets to a place in the middle of a function only by the section that leaves it
    there. -/
theorem head_step (h : RunStep b k a k') (hj : k'.head t = some j) (hmid : isEntry j = false)
    (hnew : j ≠ .kernelThread) (htry : ∀ s, j ≠ .semaTryDown s) :
    (k.head t = some j ∧ (t = k.current → a ≠ .exec)) ∨
    (t = k.current ∧ a = .exec ∧ ∃ i, k.head t = some i ∧ Into k i j) := by
  cases h.codeStep t with
  | same hc hne => exact Or.inl ⟨by rwa [head, hc] at hj, hne⟩
  | new hc =>
    rw [head, hc] at hj
    exact absurd (some.inj hj).symm hnew
  | call i _ _ hi hc =>
    rw [head, hc] at hj
    obtain rfl : i = j := by simpa using hj
    rcases callable_entry hi with hx | ⟨n, hx⟩
    · rw [hmid] at hx
      cases hx
    · exact absurd hx (htry _)
  | exit _ _ _ hc => rw [head, hc] at hj; simp at hj
  | exec i is ht hexec hc hc' _ =>
    rw [head, hc'] at hj
    refine Or.inr ⟨ht, hexec, i, by rw [head, hc]; rfl, into_of_leaves ?_ hmid⟩
    cases hl : k.leaves i with
    | nil =>
      rw [hl, List.nil_append] at hj
      have := h.inv.tails t j (by rw [hc]; exact List.mem_of_mem_head? hj)
      rw [hmid] at this
      cases this
    | cons =>
      rwa [hl] at hj

end RunStep

/-- Interrupt handlers touch semaphores of their own only, so any other instruction is executed by
    the current thread. -/
theorem exec_of_does (ha : k.enabled a = true) (hd : k.does a = some i)
    (hup : ∀ n, i ≠ .semaUp (.user n) := by simp)
    (htry : ∀ n, i ≠ .semaTryDown (.user n) := by simp) : a = .exec ∧ k.head k.current = some i := by
  cases a with
  | exec => exact ⟨rfl, hd⟩
  | intrSemaUp s =>
    cases s with
    | user n => exact absurd (some.inj hd).symm (hup n)
    | lock l | waiter t => simp [enabled] at ha
  | intrSemaTryDown s =>
    cases s with
    | user n => exact absurd (some.inj hd).symm (htry n)
    | lock l | waiter t => simp [enabled] at ha
  | _ => simp [does] at hd

/-- **Every state reached** satisfies the life-cycle invariant and has code of this shape. -/
theorem run_sound {tr : List (Kernel × Action)} (h : kernelMachine.Run (boot b) tr k) :
    Alive b k ∧ CodeInv k := by
  refine h.invariant (I := fun k => Alive b k ∧ CodeInv k)
    ⟨Life.init b, CodeInv.init b⟩ ?_
  rintro k a k' ⟨hl, hc⟩ ha hs
  exact ⟨(hl.step ha).1 k' hs, RunStep.codeInv ⟨⟨step_effect hs, ha, hl⟩, hc⟩⟩

theorem run_step {tr : List (Kernel × Action)} (h : kernelMachine.Run (boot b) tr k)
    (ha : k.enabled a = true) (hs : k.step a = .ok k') : RunStep b k a k' :=
  ⟨⟨step_effect hs, ha, (run_sound h).1⟩, (run_sound h).2⟩

end Pintos.Threads
