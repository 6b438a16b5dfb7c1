/-
  Locks: mutual exclusion.

  A lock is a semaphore of value 1 and a `holder`, and the two are not written together: in two gaps,
  one in `lock_acquire` and one in `lock_release`, a thread carries the lock without being its holder.

  1. **The invariant** (`LockState`) — there is ONE unit per lock, and it is in exactly one place:
     in the semaphore, with the holder, or with one thread in one of the two gaps.

  2. **The defect** — `lock_try_acquire` downs a COPY of the semaphore.  A successful try makes the
     caller the holder and leaves the value at 1 (`lock_try_acquire_breaks_exclusion`).

  3. **The theorem** (`lock_mutual_exclusion`) — on every run in which no `lock_try_acquire (l)`
     finds the lock free, at most one thread is inside.
-/
import Pintos.Threads.Code

namespace Pintos.Threads

open Lib Base Kernel

/-! ## History -/

/-- The threads between a successful acquire of `l` and its release, after one more step. -/
def insideStep (l : LockRef) (w : List ThreadRef) (p : Kernel × Action) : List ThreadRef :=
  match p.1.does p.2 with
  | some (.lockHold l') | some (.lockTryHold l') => if l' = l then p.1.current :: w else w
  | some (.lockRelease l') => if l' = l then w.erase p.1.current else w
  | _ => w

/-- The threads that have returned from a `lock_acquire (l)`, or with true from a
    `lock_try_acquire (l)`, and have not called `lock_release (l)` since. -/
def inside (l : LockRef) (tr : List (Kernel × Action)) : List ThreadRef :=
  tr.foldl (insideStep l) []

/-- A thread is in a gap of `l`: it is about to write the holder, or to up the semaphore. -/
def inGap (l : LockRef) (k : Kernel) (t : ThreadRef) : Prop :=
  k.head t = some (.lockHold l) ∨ k.head t = some (.lockTryHold l) ∨
    k.head t = some (.semaUp (.lock l))

/-- No operation on `l` is half done. -/
def settled (l : LockRef) (k : Kernel) : Prop := ∀ t, ¬ inGap l k t

/-- The step is not a `lock_try_acquire (l)` that finds the lock free. -/
def noFreeTry (l : LockRef) (k : Kernel) (a : Action) : Prop :=
  k.does a = some (.lockTryAcquire l) → (k.sema (.lock l)).value = 0

instance (l : LockRef) (k : Kernel) (a : Action) : Decidable (noFreeTry l k a) := by
  unfold noFreeTry; infer_instance

/-! ## The invariant -/

/-- **The unit of the lock is in one place.** -/
inductive LockState (l : LockRef) (k : Kernel) : Prop
  /-- In the semaphore. -/
  | free (hv : (k.sema (.lock l)).value = 1) (hh : k.holder l = none) (hg : settled l k)
  /-- With the holder. -/
  | held (o : ThreadRef) (hv : (k.sema (.lock l)).value = 0) (hh : k.holder l = some o)
      (hg : settled l k)
  /-- With a thread that has downed the semaphore and will be the holder. -/
  | taking (o : ThreadRef) (hv : (k.sema (.lock l)).value = 0) (hh : k.holder l = none)
      (ho : k.head o = some (.lockHold l)) (hg : ∀ t, inGap l k t → t = o)
  /-- With a thread that has been the holder and will up the semaphore. -/
  | giving (o : ThreadRef) (hv : (k.sema (.lock l)).value = 0) (hh : k.holder l = none)
      (ho : k.head o = some (.semaUp (.lock l))) (hg : ∀ t, inGap l k t → t = o)

namespace LockState

variable {b : Boot} {l : LockRef} {k k' : Kernel} {a : Action}

theorem init (b : Boot) (l : LockRef) : LockState l (boot b) := by
  refine .free rfl rfl fun t ht => ?_
  rcases ht with ht | ht | ht <;>
    rcases Life.mem_boot_code (List.mem_of_head? ht) with hi | ⟨-, hi | hi | hi | hi⟩ <;> cases hi

variable {t : ThreadRef}

/-- **In a gap**: the unit is with the one thread that is there, and the lock has no holder. -/
theorem of_gap (h : LockState l k) (ht : inGap l k t) :
    (k.sema (.lock l)).value = 0 ∧ k.holder l = none ∧ k.head t ≠ some (.lockTryHold l) ∧
      ∀ u, inGap l k u → u = t := by
  cases h with
  | free _ _ hset | held _ _ _ hset => exact absurd ht (hset t)
  | taking o hv hh ho hu | giving o hv hh ho hu =>
    obtain rfl := hu t ht
    exact ⟨hv, hh, by simp [ho], hu⟩

/-- The unit is with the holder. -/
theorem of_holder (h : LockState l k) (ht : k.holder l = some t) :
    (k.sema (.lock l)).value = 0 ∧ settled l k := by
  cases h with
  | free _ hh _ | taking _ _ hh _ _ | giving _ _ hh _ _ => cases hh.symm.trans ht
  | held _ hv _ hset => exact ⟨hv, hset⟩

theorem inGap_step (he : RunStep b k a k') (ht : inGap l k' t) :
    (inGap l k t ∧ (t = k.current → a ≠ .exec)) ∨
    (t = k.current ∧ a = .exec ∧ ∃ i j, k.head t = some i ∧ k'.head t = some j ∧ Into k i j) := by
  obtain ⟨j, hj, hgap⟩ : ∃ j, k'.head t = some j ∧
      (j = .lockHold l ∨ j = .lockTryHold l ∨ j = .semaUp (.lock l)) := by
    rcases ht with ht | ht | ht <;> exact ⟨_, ht, by simp⟩
  -- the three places are in the middle of a function
  rcases he.head_step hj (by rcases hgap with rfl | rfl | rfl <;> rfl)
    (by rintro rfl; simp at hgap) (by rintro s rfl; simp at hgap) with
    ⟨hh, hne⟩ | ⟨h1, h2, i, h3, h4⟩
  · exact .inl ⟨by simpa [inGap, hh] using hgap, hne⟩
  · exact .inr ⟨h1, h2, i, j, h3, hj, h4⟩

theorem does_ne_tryLock (hc : CodeInv k) (ha : k.enabled a = true)
    (hd : k.does a = some (.semaTryDown (.lock l))) : False := by
  obtain ⟨-, hh⟩ := exec_of_does ha hd
  obtain ⟨n, hn⟩ := hc.tries _ _ hh
  cases hn

/-- The places of `lock_acquire (l)` and `lock_release (l)` where the unit moves or is looked at. -/
def movesUnit (l : LockRef) : Instr → Bool
  | .semaDown (.lock l') | .semaRetest (.lock l') | .semaUp (.lock l') => l' = l
  | .lockHold l' | .lockTryHold l' | .lockRelease l' => l' = l
  | _ => false

attribute [local simp] movesUnit holderAfter

/-- The unit stays where it is. -/
theorem same (h : LockState l k) (hv : (k'.sema (.lock l)).value = (k.sema (.lock l)).value)
    (hh : k'.holder l = k.holder l) (hgap : ∀ {t}, inGap l k' t → inGap l k t)
    (hstay : ∀ {o j}, inGap l k o → k.head o = some j → k'.head o = some j) : LockState l k' := by
  cases h with
  | free hv' hh' hset => exact .free (hv.trans hv') (hh.trans hh') fun t ht => hset t (hgap ht)
  | held o hv' hh' hset => exact .held o (hv.trans hv') (hh.trans hh') fun t ht => hset t (hgap ht)
  | taking o hv' hh' ho hu =>
    exact .taking o (hv.trans hv') (hh.trans hh') (hstay (.inl ho) ho) fun t ht => hu t (hgap ht)
  | giving o hv' hh' ho hu =>
    exact .giving o (hv.trans hv') (hh.trans hh') (hstay (.inr (.inr ho)) ho)
      fun t ht => hu t (hgap ht)

theorem step_of_not_movesUnit (h : LockState l k) (he : RunStep b k a k') (hg : noFreeTry l k a)
    (hm : ∀ i, k.does a = some i → movesUnit l i = false) : LockState l k' := by
  have hsema : (k'.sema (.lock l)).value = (k.sema (.lock l)).value := by
    have hno : ∀ {i}, k.does a = some i → movesUnit l i = true → False := fun hd hi => by
      rw [hm _ hd] at hi
      cases hi
    rcases he.sema_cases (s := .lock l) (by simp) with
      ⟨hk, -⟩ | ⟨hd | hd, -⟩ | ⟨hd | hd, -⟩ | ⟨hd, -⟩ | ⟨hd, -⟩
    · rw [hk]
    · exact (hno hd (by simp)).elim
    · exact (hno hd (by simp)).elim
    · exact (hno hd (by simp)).elim
    · exact (hno hd (by simp)).elim
    · exact (does_ne_tryLock he.inv he.possible hd).elim
    · exact (hno hd (by simp)).elim
  have hholder : k'.holder l = k.holder l := by
    rw [he.holder]
    cases hd : k.does a with
    | none => rfl
    | some i =>
      have hi := hm i hd
      cases i with
      | lockHold l' | lockTryHold l' | lockRelease l' =>
        have hne : l ≠ l' := fun heq => by simp [heq] at hi
        simp [hne]
      | _ => rfl
  -- nobody enters or leaves a gap
  refine h.same hsema hholder (fun {t} ht => ?_) fun {o j} ho hj => ?_
  · rcases inGap_step he ht with ⟨hh, -⟩ | ⟨rfl, rfl, i, j, hi, hj, hinto⟩
    · exact hh
    have hmi := hm i hi
    have hjg : j = .lockHold l ∨ j = .lockTryHold l ∨ j = .semaUp (.lock l) := by
      simpa [inGap, hj] using ht
    rcases hjg with rfl | rfl | rfl
    · cases hinto <;> simp at hmi
    · cases hinto with
      | tryFree hv => exact absurd (hg hi) hv
    · cases hinto
      simp at hmi
  · refine he.head_keep hj fun hoc hx => ?_
    subst hoc hx
    have hmj := hm j hj
    rcases ho with ho | ho | ho <;> cases hj.symm.trans ho <;> simp at hmj

/-- The current thread leaves the gap when it executes an instruction that leads into none. -/
theorem current_not_inGap (he : RunStep b k .exec k') {i : Instr} (hi : k.head k.current = some i)
    (hinto : ∀ j, Into k i j → j ≠ .lockHold l ∧ j ≠ .lockTryHold l ∧ j ≠ .semaUp (.lock l)) :
    ¬ inGap l k' k.current := by
  intro hg
  rcases inGap_step he hg with ⟨-, hne⟩ | ⟨-, -, i', j, hi', hj, hint⟩
  · exact hne rfl rfl
  cases hi.symm.trans hi'
  obtain ⟨h1, h2, h3⟩ := hinto j hint
  rcases hg with hg | hg | hg <;> rw [hj] at hg <;> cases hg
  · exact h1 rfl
  · exact h2 rfl
  · exact h3 rfl

/-- **One step** keeps the unit in one place, unless a `lock_try_acquire` finds the lock free. -/
theorem step (h : LockState l k) (he : RunStep b k a k') (hg : noFreeTry l k a) : LockState l k' := by
  by_cases hm : ∀ i, k.does a = some i → movesUnit l i = false
  · exact h.step_of_not_movesUnit he hg hm
  obtain ⟨i, hd, hmv⟩ : ∃ i, k.does a = some i ∧ movesUnit l i = true := by
    by_contra hno
    exact hm fun i hd => by
      by_contra hi
      exact hno ⟨i, hd, by simpa using hi⟩
  obtain ⟨rfl, hi⟩ := exec_of_does he.possible hd (by rintro n rfl; simp at hmv)
    (by rintro n rfl; simp at hmv)
  -- only the current thread can be newly in a gap
  have hother : ∀ {t}, t ≠ k.current → inGap l k' t → inGap l k t := by
    intro t hne ht
    rcases inGap_step he ht with ⟨hh, -⟩ | ⟨ht, -⟩
    · exact hh
    · exact absurd ht hne
  -- when the one thread in the gap leaves it, nobody is there
  have hgone : inGap l k k.current → ¬ inGap l k' k.current → settled l k' := by
    intro hin hout t ht
    by_cases hne : t = k.current
    · exact hout (hne ▸ ht)
    · exact hne ((h.of_gap hin).2.2.2 t (hother hne ht))
  have hsema := he.sema
  have hholder := he.holder
  rw [hd] at hsema hholder
  cases i with
  | semaDown s | semaRetest s =>
    cases s with
    | user n | waiter t => simp at hmv
    | lock l' =>
      obtain rfl : l' = l := by simpa [movesUnit] using hmv
      have hcurGap : ¬ inGap l' k k.current := by simp [inGap, hi]
      by_cases hv : (k.sema (.lock l')).value = 0
      · -- it blocks: the unit is elsewhere and stays there
        have hself : ¬ inGap l' k' k.current := by
          refine current_not_inGap he hi fun j hj => ?_
          cases hj <;> first | contradiction | simp
        have hall : ∀ {t}, inGap l' k' t → inGap l' k t := fun {t} ht =>
          hother (fun heq => hself (heq ▸ ht)) ht
        have hv' : (k'.sema (.lock l')).value = (k.sema (.lock l')).value := by
          rw [hsema]
          simp [semaAfter, hv]
        exact h.same hv' (by rw [hholder]; rfl) hall fun hgo hj =>
          he.head_keep hj fun ho => absurd (ho ▸ hgo) hcurGap
      · -- it takes the unit out of the semaphore
        cases h with
        | free hv1 hh hset =>
          refine .taking k.current ?_ ?_ ?_ fun t ht => ?_
          · rw [hsema]
            simp [semaAfter, hv1]
          · rwa [hholder]
          · exact he.head_current hi (by simp) (by simp only [leaves, if_neg hv]; rfl)
          · by_contra hne
            exact hset t (hother hne ht)
        | held _ hv0 _ _ | taking _ hv0 _ _ _ | giving _ hv0 _ _ _ => exact absurd hv0 hv
  | semaUp s =>
    cases s with
    | user n | waiter t => simp at hmv
    | lock l' =>
      obtain rfl : l' = l := by simpa [movesUnit] using hmv
      -- it puts the unit back
      have hcurGap : inGap l' k k.current := .inr (.inr hi)
      have hself : ¬ inGap l' k' k.current := by
        refine current_not_inGap he hi fun j hj => ?_
        cases hj
        simp
      obtain ⟨hv, hh, -⟩ := h.of_gap hcurGap
      refine .free ?_ ?_ (hgone hcurGap hself)
      · rw [hsema]
        simp [semaAfter, hv]
      · rwa [hholder]
  | lockHold l' =>
    obtain rfl : l' = l := by simpa [movesUnit] using hmv
    -- it becomes the holder
    have hcurGap : inGap l' k k.current := .inl hi
    have hself : ¬ inGap l' k' k.current :=
      current_not_inGap he hi fun j hj => by cases hj
    refine .held k.current ?_ ?_ (hgone hcurGap hself)
    · rw [hsema]
      exact (h.of_gap hcurGap).1
    · rw [hholder]
      simp
  | lockTryHold l' =>
    obtain rfl : l' = l := by simpa [movesUnit] using hmv
    -- nobody is there
    exact absurd hi (h.of_gap (.inr (.inl hi))).2.2.1
  | lockRelease l' =>
    obtain rfl : l' = l := by simpa [movesUnit] using hmv
    -- the assertion says who the holder is; it takes the unit with it
    obtain ⟨hv, hset⟩ := h.of_holder (he.held _ l' hd rfl)
    refine .giving k.current ?_ ?_ (he.head_current hi (by simp) rfl) fun t ht => ?_
    · rwa [hsema]
    · rw [hholder]
      simp
    · by_contra hne
      exact hset t (hother hne ht)
  | _ => simp at hmv

/-- Only a section of a thread changes a holder. -/
theorem holder_of_ne_exec (he : RunStep b k a k') (ha : a ≠ .exec) : k'.holder = k.holder := by
  rw [he.holder]
  cases a with
  | exec => exact absurd rfl ha
  | _ => rfl

/-- An action changes for its current thread alone whether it is the holder. -/
theorem holder_of_ne (hs : LockState l k) (he : RunStep b k a k') (ht : t ≠ k.current) :
    k'.holder l = some t ↔ k.holder l = some t := by
  have hcur : some k.current ≠ some t := fun h => ht (Option.some.inj h).symm
  rw [he.holder]
  cases hd : k.does a with
  | none => rfl
  | some i =>
    cases i with
    | lockHold l' | lockTryHold l' =>
      by_cases hl : l = l'
      · subst hl
        obtain ⟨-, hi⟩ := exec_of_does he.possible hd
        -- whoever writes the holder comes from a gap, and there is no holder yet
        have hnone := (hs.of_gap (t := k.current) (by simp [inGap, hi])).2.1
        simp [hnone, hcur]
      · simp [hl]
    | lockRelease l' =>
      by_cases hl : l = l'
      · subst hl
        have hh := he.held _ l hd rfl
        simp [hh, hcur]
      · simp [hl]
    | _ => rfl

end LockState

attribute [local simp] holderAfter insideStep

/-! ## Mutual exclusion -/

theorem inside_step {l : LockRef} {tr : List (Kernel × Action)} {k k' : Kernel} {a : Action}
    (h : LockState l k) (hin : inside l tr = (k.holder l).toList) (he : RunStep b k a k') :
    inside l (tr ++ [(k, a)]) = (k'.holder l).toList := by
  have hsnoc : inside l (tr ++ [(k, a)]) = insideStep l (inside l tr) (k, a) := by simp [inside]
  rw [hsnoc, hin, he.holder]
  cases hd : k.does a with
  | none => simp [hd]
  | some i =>
    cases i with
    | lockHold l' | lockTryHold l' =>
      by_cases hl : l' = l
      · subst hl
        -- whoever writes the holder comes from a gap, so there was no holder
        obtain ⟨-, hi⟩ := exec_of_does he.possible hd
        have hnone := (h.of_gap (t := k.current) (by simp [inGap, hi])).2.1
        simp [hd, hnone]
      · have hl' : l ≠ l' := fun heq => hl heq.symm
        simp [hd, hl, hl']
    | lockRelease l' =>
      by_cases hl : l' = l
      · subst hl
        have hh := he.held _ l' hd rfl
        simp [hd, hh]
      · have hl' : l ≠ l' := fun heq => hl heq.symm
        simp [hd, hl, hl']
    | _ => simp [hd]

/-- **Mutual exclusion.**  On every run in which no `lock_try_acquire (l)` finds the lock free: at
    most one thread is between a successful acquire of `l` and its release; the value of the
    semaphore never exceeds 1; and where no operation on `l` is half done, it is 0 exactly when
    there is a holder. -/
theorem lock_mutual_exclusion {b : Boot} {l : LockRef} {tr : List (Kernel × Action)} {k : Kernel}
    (h : (kernelMachine.guard (noFreeTry l)).Run (boot b) tr k) :
    (inside l tr).length ≤ 1 ∧ (k.sema (.lock l)).value ≤ 1 ∧
    (settled l k → ((k.sema (.lock l)).value = 0 ↔ k.holder l ≠ none)) := by
  have hinv : LockState l k ∧ inside l tr = (k.holder l).toList := by
    refine h.history (J := fun tr k => LockState l k ∧ inside l tr = (k.holder l).toList)
      ⟨LockState.init b l, rfl⟩ ?_
    rintro tr k a k' hr ⟨hs, hin⟩ ⟨ha, hg⟩ hstep
    have he := run_step hr.of_guard ha hstep
    exact ⟨hs.step he hg, inside_step hs hin he⟩
  obtain ⟨hstate, hin⟩ := hinv
  refine ⟨?_, ?_, fun hset => ?_⟩
  · rw [hin]
    cases k.holder l <;> simp
  · cases hstate <;> omega
  · cases hstate with
    | free hv hh => simp [hv, hh]
    | held o hv hh => simp [hv, hh]
    | taking o _ _ ho => exact absurd (.inl ho) (hset o)
    | giving o _ _ ho => exact absurd (.inr (.inr ho)) (hset o)

/-- The initial thread holds a lock that another thread tries without success. -/
theorem lock_mutual_exclusion_tried : ∃ tr k,
    (kernelMachine.guard (noFreeTry 1)).Run (boot Boot.small) tr k ∧
    k.holder 1 = some 1 ∧ k.current = 3 ∧ (inside 1 tr).length ≤ 1 := by
  obtain ⟨tr, k, hr, hh, hcur⟩ := (kernelMachine.guard (noFreeTry 1)).exists_reached
    (boot Boot.small)
    (startUp ++ calls (.lockAcquire 1) 3 ++ creates 3 40 ++ execs 1 ++ calls (.lockTryAcquire 1) 1)
    (fun _ k => k.holder 1 = some 1 ∧ k.current = 3) (by decide +kernel)
  exact ⟨tr, k, hr, hh, hcur, (lock_mutual_exclusion hr).1⟩

/-- **The defect.**  A thread that tries a free lock becomes its holder, is preempted, and the next
    thread acquires the lock too: both are inside. -/
theorem lock_try_acquire_breaks_exclusion : ∃ tr k,
    kernelMachine.Run (boot Boot.small) tr k ∧ inside 1 tr = [1, 3] ∧
    (k.sema (.lock 1)).value = 0 := by
  exact kernelMachine.exists_reached (boot Boot.small)
    (startUp ++ creates 3 31 ++ [.timer] ++ execs 1 ++ calls (.lockTryAcquire 1) 2 ++ [.timer] ++
      calls (.lockAcquire 1) 3)
    (fun tr k => inside 1 tr = [1, 3] ∧ (k.sema (.lock 1)).value = 0) (by decide +kernel)

end Pintos.Threads
