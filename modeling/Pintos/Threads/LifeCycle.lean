/-
  The life cycle of threads: who runs, who is ready, who is blocked and on which list.

  The single link `elem` of `struct thread` serves the ready list and every semaphore's wait list.
  That is sound because the memberships exclude one another in every state that can be reached.

  1. **The invariant** (`Life b r k`) — `r` is the thread that is running: `some k.current` between
     two sections, and `none` after the current thread has given up the CPU and before `schedule ()`
     has chosen the next.  A blocked thread says by its NEXT INSTRUCTION what it is blocked on.

  2. **Frame** (`Life.frame`) — a section that moves no thread keeps the invariant as soon as the
     code it leaves to the current thread is harmless (`CodeOk`).

  3. **Moves** — `Life.yield`, `Life.block`, `Life.exit`, `Life.unblock`, `Life.create` and
     `Life.schedule`; every action is made of these (`Life.step`), hence `thread_life_cycle`.
-/
import Mathlib.Data.List.Perm.Subperm
import Pintos.Threads.Frame

namespace Pintos.Threads

open Lib Base Kernel Function List Kernel Option
open Instr (createUnblock)

/-! ## The queues of the advanced scheduler -/

/-- `priority_levels` holds exactly the ready list, each thread on one level, none above
    `highest_priority`. -/
structure Levels (levels : Nat → List ThreadRef) (high : Nat) (ready : List ThreadRef) : Prop where
  nodup : ∀ n, (levels n).Nodup
  mem : ∀ n t, t ∈ levels n → t ∈ ready ∧ n ≤ high
  cover : ∀ t ∈ ready, ∃ n, t ∈ levels n
  unique : ∀ n m t, t ∈ levels n → t ∈ levels m → n = m

variable {levels : Nat → List ThreadRef} {i : Instr} {s : SemaRef} {high n : Nat}
  {ready : List ThreadRef}

theorem levelSearch_eq_some :
    ∀ {high n : Nat}, n ≤ high → levels n ≠ [] →
      ∃ m, levelSearch levels high = some m ∧ levels m ≠ []
  | 0, n, hn, hne => by
    obtain rfl : n = 0 := Nat.le_zero.mp hn
    exact ⟨0, by rw [levelSearch, if_neg hne], hne⟩
  | high + 1, n, hn, hne => by
    rw [levelSearch]
    split
    · rename_i hempty
      have hlt : n ≤ high := by grind
      exact levelSearch_eq_some hlt hne
    · grind

section

variable (h : Levels levels high ready)
include h

theorem Levels.enqueue {ready' : List ThreadRef} {t : ThreadRef}
    (ht : t ∉ ready) (hready : ∀ u, u ∈ ready' ↔ u = t ∨ u ∈ ready) :
    Levels (update levels n (levels n ++ [t])) (max high n) ready' := by
  have hfresh : ∀ m, t ∉ levels m := fun m hm => ht (h.mem m t hm).1
  have hmem : ∀ m u, u ∈ update levels n (levels n ++ [t]) m ↔ u ∈ levels m ∨ (m = n ∧ u = t) := by
    intro m u
    by_cases hm : m = n
    · subst hm; simp
    · simp [hm]
  refine ⟨fun m => ?_, fun m u hu => ?_, fun u hu => ?_, fun m m' u hu hu' => ?_⟩
  · by_cases hm : m = n
    · subst hm
      rw [update_self]
      refine nodup_append.mpr ⟨h.nodup m, nodup_singleton t, ?_⟩
      intro a ha c hc hac
      rw [mem_singleton] at hc
      exact hfresh m (hc ▸ hac ▸ ha)
    · rw [update_of_ne hm]
      exact h.nodup m
  · rcases (hmem m u).mp hu with hu | ⟨rfl, rfl⟩
    · obtain ⟨h1, h2⟩ := h.mem m u hu
      exact ⟨(hready u).mpr (.inr h1), Nat.le_trans h2 (Nat.le_max_left ..)⟩
    · exact ⟨(hready u).mpr (.inl rfl), Nat.le_max_right ..⟩
  · rcases (hready u).mp hu with rfl | hu
    · exact ⟨n, (hmem n u).mpr (.inr ⟨rfl, rfl⟩)⟩
    · obtain ⟨m, hm⟩ := h.cover u hu
      exact ⟨m, (hmem m u).mpr (.inl hm)⟩
  · rcases (hmem m u).mp hu with hm | ⟨rfl, rfl⟩
    · rcases (hmem m' u).mp hu' with hm' | ⟨-, rfl⟩
      · exact h.unique m m' u hm hm'
      · exact absurd hm (hfresh m)
    · rcases (hmem m' u).mp hu' with hm' | ⟨rfl, -⟩
      · exact absurd hm' (hfresh m')
      · rfl

theorem Levels.erase (hnodup : ready.Nodup) (t : ThreadRef) :
    Levels (fun m => (levels m).erase t) high (ready.erase t) := by
  have hmem : ∀ m u, u ∈ (levels m).erase t ↔ u ≠ t ∧ u ∈ levels m :=
    fun m u => (h.nodup m).mem_erase_iff
  refine ⟨fun m => (h.nodup m).erase t, fun m u hu => ?_, fun u hu => ?_, fun m m' u hu hu' => ?_⟩
  · obtain ⟨hne, hu⟩ := (hmem m u).mp hu
    obtain ⟨h1, h2⟩ := h.mem m u hu
    exact ⟨hnodup.mem_erase_iff.mpr ⟨hne, h1⟩, h2⟩
  · obtain ⟨hne, hu⟩ := hnodup.mem_erase_iff.mp hu
    obtain ⟨m, hm⟩ := h.cover u hu
    exact ⟨m, (hmem m u).mpr ⟨hne, hm⟩⟩
  · exact h.unique m m' u ((hmem m u).mp hu).2 ((hmem m' u).mp hu').2

theorem Levels.dequeue {t : ThreadRef} {ts : List ThreadRef}
    (hn : levels n = t :: ts) (hnodup : ready.Nodup) :
    Levels (update levels n ts) high (ready.erase t) := by
  have htn : t ∈ levels n := by rw [hn]; exact mem_cons_self ..
  -- `t` is on no other level
  have heq : (fun m => (levels m).erase t) = update levels n ts := by
    funext m
    by_cases hm : m = n
    · rw [hm, update_self, hn, erase_cons_head]
    · rw [update_of_ne hm, erase_of_not_mem fun ht => hm (h.unique m n t ht htn)]
  rw [← heq]
  exact h.erase hnodup t

end

/-! ## The invariant -/

/-- Where the idle thread can be: before it has set `idle_thread`, or in its loop. -/
def IdleCode (b : Boot) (idle : Option ThreadRef) (c : List Instr) : Prop :=
  (idle = none ∧ (c = .kernelThread :: .idleStart :: idleLoop ∨ c = .idleStart :: idleLoop)) ∨
  (idle = some b.idle ∧ (c = idleLoop ∨ (∃ t, c = [.semaUpYield t, .idleBlock]) ∨ c = [.idleBlock]))

/-- **The life-cycle invariant**, with `r` the running thread. -/
structure Life (b : Boot) (r : Option ThreadRef) (k : Kernel) : Prop where
  allNodup : k.allList.Nodup
  /-- The CPU runs `r` and nobody else. -/
  running : ∀ t, (k.thread t).status = .running ↔ r = some t
  runMem : ∀ t, r = some t → t ∈ k.allList
  alive : ∀ t ∈ k.allList, (k.thread t).status ≠ .dying
  readyNodup : k.readyList.Nodup
  /-- The ready list is the ready threads, the idle thread aside. -/
  ready : ∀ t, t ∈ k.readyList ↔
    t ∈ k.allList ∧ (k.thread t).status = .ready ∧ k.idleThread ≠ some t
  levels : k.threadMlfqs = true → Levels k.priorityLevels k.highestPriority k.readyList
  waitNodup : ∀ s, (k.sema s).waiters.Nodup
  /-- A thread on a wait list is blocked in the loop of `sema_down` on that semaphore. -/
  waiting : ∀ s t, t ∈ (k.sema s).waiters →
    t ∈ k.allList ∧ (k.thread t).status = .blocked ∧ k.head t = some (.semaRetest s)
  /-- A thread whose `thread_create` is not over is blocked and has never run. -/
  newborn : ∀ t u, createUnblock t ∈ k.code u →
    t ∈ k.allList ∧ (k.thread t).status = .blocked ∧ k.head t = some .kernelThread
  creator : ∀ t u v, createUnblock t ∈ k.code u → createUnblock t ∈ k.code v → u = v
  createdOnce : ∀ t u, (k.code u).count (.createUnblock t) ≤ 1
  codeAlive : ∀ t, k.code t ≠ [] → t ∈ k.allList
  idleMem : b.idle ∈ k.allList
  idleCode : IdleCode b k.idleThread (k.code b.idle)
  idleStart : ∀ t, Instr.idleStart ∈ k.code t → t = b.idle
  /-- Until `idle_thread` is set, the idle thread is an ordinary ready or running thread. -/
  idleReady : k.idleThread = none → b.idle ∈ k.readyList ∨ r = some b.idle

/-- The invariant while the current thread runs. -/
abbrev Alive (b : Boot) (k : Kernel) : Prop := Life b (some k.current) k

/-- Thread `t` is blocked and goes on at `i`. -/
def Parked (k : Kernel) (t : ThreadRef) (i : Instr) : Prop :=
  t ∈ k.allList ∧ (k.thread t).status = .blocked ∧ k.head t = some i

theorem Parked.move {k k' : Kernel} {t : ThreadRef} (h : Parked k t i)
    (hmem : t ∈ k.allList → t ∈ k'.allList)
    (hst : (k'.thread t).status = (k.thread t).status) (hcode : k'.code t = k.code t) :
    Parked k' t i := by
  obtain ⟨h1, h2, h3⟩ := h
  refine ⟨hmem h1, hst.trans h2, ?_⟩
  unfold Kernel.head at h3 ⊢
  rw [hcode, h3]

variable {b : Boot} {r : Option ThreadRef} {k k' : Kernel}

namespace Life

section

variable (h : Alive b k) {t : ThreadRef}
include h

theorem current_running : (k.thread k.current).status = .running := (h.running _).mpr rfl

theorem ne_current (ht : (k.thread t).status ≠ .running) : t ≠ k.current :=
  fun he => ht (he ▸ h.current_running)

theorem parked_ne_current (ht : Parked k t i) : t ≠ k.current :=
  h.ne_current (by rw [ht.2.1]; decide)

end

theorem idle_eq (h : Life b r k) {t : ThreadRef} (ht : k.idleThread = some t) : t = b.idle := by
  rcases h.idleCode with ⟨hn, -⟩ | ⟨hs, -⟩
  · rw [hn] at ht; cases ht
  · rw [hs] at ht; exact (some.inj ht).symm

/-- The instructions the idle thread executes. -/
def idleInstr : Instr → Bool
  | .kernelThread | .idleStart | .semaUp _ | .semaUpYield _ | .idleBlock => true
  | _ => false

/-- The idle thread is never outside the kernel and executes nothing but its loop. -/
theorem idle_head (h : Life b r k) : ∃ i is, k.code b.idle = i :: is ∧ idleInstr i = true := by
  rcases h.idleCode with ⟨-, hc | hc⟩ | ⟨-, hc | ⟨t, hc⟩ | hc⟩
  all_goals exact ⟨_, _, hc, rfl⟩

theorem not_idle_of_head (h : Life b r k) {t : ThreadRef} {is : List Instr}
    (hc : k.code t = i :: is) (hi : idleInstr i = false) : t ≠ b.idle := by
  rintro rfl
  obtain ⟨j, js, hj, hij⟩ := h.idle_head
  rw [hc] at hj
  rw [(cons.inj hj).1, hij] at hi
  cases hi

theorem not_idle_of_nil (h : Life b r k) {t : ThreadRef} (hc : k.code t = []) : t ≠ b.idle := by
  rintro rfl
  obtain ⟨j, js, hj, -⟩ := h.idle_head
  rw [hc] at hj
  cases hj

/-! ## Sections that move nobody -/

end Life

/-- Queues and statuses are as before; wait lists may only have lost threads. -/
structure SameQueues (k k' : Kernel) : Prop where
  threadMlfqs : k'.threadMlfqs = k.threadMlfqs
  current : k'.current = k.current
  allList : k'.allList = k.allList
  readyList : k'.readyList = k.readyList
  priorityLevels : k'.priorityLevels = k.priorityLevels
  highestPriority : k'.highestPriority = k.highestPriority
  status : ∀ t, (k'.thread t).status = (k.thread t).status
  waiters : ∀ s, (k'.sema s).waiters.Subperm (k.sema s).waiters

theorem SameQueues.of_status {th : ThreadRef → Thread} {code : ThreadRef → List Instr}
    {holder : LockRef → Option ThreadRef} {cw : CondRef → List ThreadRef}
    (h : ∀ t, (th t).status = (k.thread t).status) :
    SameQueues k { k with thread := th, code := code, holder := holder, condWaiters := cw } :=
  ⟨rfl, rfl, rfl, rfl, rfl, rfl, h, fun _ => Subperm.refl _⟩

/-- The code `c` may be left to the current thread: it creates no thread that was not being
    created, and the idle thread stays in its code. -/
structure CodeOk (b : Boot) (k : Kernel) (idle : Option ThreadRef) (c : List Instr) : Prop where
  created : ∀ t, c.count (.createUnblock t) ≤ (k.code k.current).count (.createUnblock t)
  idleStart : Instr.idleStart ∈ c → Instr.idleStart ∈ k.code k.current
  idleCode : k.current = b.idle → IdleCode b idle c

namespace Life

variable {r' : Option ThreadRef} {is : List Instr}

theorem mem_code_of_ok {c : List Instr} {idle : Option ThreadRef} (hc : CodeOk b k idle c)
    (hcur : k'.code k.current = c) (hother : ∀ t, t ≠ k.current → k'.code t = k.code t)
    {t u : ThreadRef} (h : createUnblock t ∈ k'.code u) :
    createUnblock t ∈ k.code u := by
  by_cases hu : u = k.current
  · subst hu
    rw [hcur] at h
    have h1 := count_pos_iff.mpr h
    have h2 := hc.created t
    exact count_pos_iff.mp (by omega)
  · rwa [hother u hu] at h

/-- What becomes of the current thread: it goes on, or it stops and is not on the ready list. -/
inductive After (b : Boot) (k k' : Kernel) : Option ThreadRef → Prop
  | runs (hst : (k'.thread k.current).status = .running) (hmem : k.current ∈ k'.allList) :
      After b k k' (some k.current)
  | stops (hrun : (k'.thread k.current).status ≠ .running)
      (hready : (k'.thread k.current).status = .ready → k.idleThread = some k.current)
      (halive : k.current ∈ k'.allList → (k'.thread k.current).status ≠ .dying)
      (hidle : k.idleThread = none → k.current ≠ b.idle) : After b k k' none

section

variable (h : Alive b k) (hm : k'.threadMlfqs = k.threadMlfqs)
  (hready : k'.readyList = k.readyList) (hlev : k'.priorityLevels = k.priorityLevels)
  (hhigh : k'.highestPriority = k.highestPriority) (hidle : k'.idleThread = k.idleThread)
  (hother : ∀ t, t ≠ k.current → k'.code t = k.code t)
  (hc : CodeOk b k k.idleThread (k'.code k.current)) (hwn : ∀ s, (k'.sema s).waiters.Nodup)
include h hm hready hlev hhigh hidle hother hc hwn

/-- **Sections of one thread**: nobody but the current thread changes its status or its code, and
    nobody but it joins a wait list. -/
theorem change (ha : After b k k' r') (hnodup : k'.allList.Nodup)
    (hall : ∀ t, t ≠ k.current → (t ∈ k'.allList ↔ t ∈ k.allList))
    (hst : ∀ t, t ≠ k.current → (k'.thread t).status = (k.thread t).status)
    (hmem : k'.code k.current ≠ [] ∨ k.current = b.idle → k.current ∈ k'.allList)
    (hwait : ∀ s t, t ∈ (k'.sema s).waiters → t ∈ (k.sema s).waiters ∨
      (t = k.current ∧ Parked k' t (.semaRetest s))) : Life b r' k' := by
  have hcode : ∀ {t u}, createUnblock t ∈ k'.code u → createUnblock t ∈ k.code u :=
    mem_code_of_ok hc rfl hother
  have hparked : ∀ {t i}, Parked k t i → Parked k' t i := by
    intro t i ht
    have hne := h.parked_ne_current ht
    exact ht.move (hall t hne).mpr (hst t hne) (hother t hne)
  constructor
  · exact hnodup
  · intro t
    by_cases ht : t = k.current
    · subst ht
      cases ha with
      | runs hrun => simp [hrun]
      | stops hrun => simp [hrun]
    · rw [hst t ht, h.running t]
      cases ha with
      | runs => rfl
      | stops => simp [Ne.symm ht]
  · intro t ht
    cases ha with
    | runs _ hmem => exact some.inj ht ▸ hmem
    | stops => cases ht
  · intro t ht
    by_cases hu : t = k.current
    · subst hu
      cases ha with
      | runs hrun => simp [hrun]
      | stops _ _ halive => exact halive ht
    · rw [hst t hu]
      exact h.alive t ((hall t hu).mp ht)
  · rw [hready]; exact h.readyNodup
  · intro t
    rw [hready, hidle, h.ready t]
    by_cases ht : t = k.current
    · subst ht
      cases ha with
      | runs hrun => simp [hrun, h.current_running]
      | stops _ hr => simpa [h.current_running] using fun _ => hr
    · rw [hall t ht, hst t ht]
  · intro hm'
    rw [hlev, hhigh, hready]
    exact h.levels (hm ▸ hm')
  · exact hwn
  · intro s t ht
    rcases hwait s t ht with ht | ⟨-, ht⟩
    · exact hparked (h.waiting s t ht)
    · exact ht
  · intro t u htu
    exact hparked (h.newborn t u (hcode htu))
  · intro t u v hu hv
    exact h.creator t u v (hcode hu) (hcode hv)
  · intro t u
    by_cases hu : u = k.current
    · subst hu
      exact Nat.le_trans (hc.created t) (h.createdOnce t _)
    · rw [hother u hu]; exact h.createdOnce t u
  · intro t ht
    by_cases hu : t = k.current
    · subst hu
      exact hmem (.inl ht)
    · exact (hall t hu).mpr (h.codeAlive t (by rwa [hother t hu] at ht))
  · by_cases hu : b.idle = k.current
    · exact hu ▸ hmem (.inr hu.symm)
    · exact (hall _ hu).mpr h.idleMem
  · rw [hidle]
    by_cases hu : b.idle = k.current
    · rw [hu]; exact hc.idleCode hu.symm
    · rw [hother _ hu]; exact h.idleCode
  · intro t ht
    by_cases hu : t = k.current
    · subst hu; exact h.idleStart _ (hc.idleStart ht)
    · rw [hother t hu] at ht; exact h.idleStart t ht
  · intro hn
    rw [hidle] at hn
    rw [hready]
    rcases h.idleReady hn with hi | hi
    · exact .inl hi
    · cases ha with
      | runs => exact .inr hi
      | stops _ _ _ hne => exact absurd (some.inj hi) (hne hn)

/-- The current thread blocks; if it goes on a wait list, it is at the test of that semaphore. -/
theorem block (hne : k.idleThread = none → k.current ≠ b.idle) (hall : k'.allList = k.allList)
    (hst : ∀ t, (k'.thread t).status = if t = k.current then .blocked else (k.thread t).status)
    (hwait : ∀ s t, t ∈ (k'.sema s).waiters → t ∈ (k.sema s).waiters ∨
      (t = k.current ∧ k'.head k.current = some (.semaRetest s))) : Life b none k' := by
  have hself : (k'.thread k.current).status = .blocked := by rw [hst, if_pos rfl]
  have hmem : k.current ∈ k'.allList := hall ▸ h.runMem _ rfl
  refine h.change hm hready hlev hhigh hidle hother hc hwn (.stops ?_ ?_ (fun _ => ?_) hne)
    (hall ▸ h.allNodup) (fun t _ => by rw [hall]) (fun t ht => by rw [hst, if_neg ht])
    (fun _ => hmem) fun s t ht => (hwait s t ht).imp_right ?_
  · simp [hself]
  · simp [hself]
  · simp [hself]
  · rintro ⟨rfl, hh⟩
    exact ⟨rfl, hmem, hself, hh⟩

end

/-- **The frame rule**: a section that moves no thread and leaves harmless code keeps the
    invariant. -/
theorem frame (h : Alive b k) (hq : SameQueues k k') (hidle : k'.idleThread = k.idleThread)
    (hother : ∀ t, t ≠ k.current → k'.code t = k.code t)
    (hc : CodeOk b k k.idleThread (k'.code k.current)) : Alive b k' := by
  have hmem : k.current ∈ k'.allList := by
    rw [hq.allList]
    exact h.runMem _ rfl
  rw [Alive, hq.current]
  refine h.change hq.threadMlfqs hq.readyList hq.priorityLevels hq.highestPriority hidle hother hc
    (fun s => ?_) (.runs ?_ hmem) ?_ (fun t _ => by rw [hq.allList]) (fun t _ => hq.status t)
    (fun _ => hmem) fun s t ht => .inl (Subperm.subset (hq.waiters s) ht)
  · obtain ⟨l, hp, hs⟩ := hq.waiters s
    exact hp.nodup_iff.mp ((h.waitNodup s).sublist hs)
  · rw [hq.status]
    exact h.current_running
  · rw [hq.allList]
    exact h.allNodup

theorem setSema (h : Life b r k) {v : Semaphore} (hnd : v.waiters.Nodup)
    (hsub : ∀ t ∈ v.waiters, t ∈ (k.sema s).waiters) :
    Life b r { k with sema := update k.sema s v } := by
  refine { h with waitNodup := fun s' => ?_, waiting := fun s' t ht => ?_ }
  · by_cases hs : s' = s
    · subst hs; simpa using hnd
    · simpa [hs] using h.waitNodup s'
  · by_cases hs : s' = s
    · subst hs; exact h.waiting s' t (hsub t (by simpa using ht))
    · exact h.waiting s' t (by simpa [hs] using ht)

/-! ## Moves -/

section

variable (h : Life b r k)
include h

variable {t : ThreadRef}

/-- A thread that is neither ready nor on a wait list goes to the ready list: `thread_yield` by an
    ordinary thread, and `thread_unblock`. -/
theorem makeReady (hr : ∀ u, r' = some u ↔ r = some u ∧ u ≠ t) (hmem : t ∈ k.allList)
    (hst : (k.thread t).status ≠ .ready) (hidle : k.idleThread ≠ some t)
    (hwait : ∀ s, t ∉ (k.sema s).waiters) (hnew : ∀ u, createUnblock t ∉ k.code u) :
    Life b r' { k.enqueue t with thread := setStatus k.thread t .ready } := by
  have hnot : t ∉ k.readyList := fun ht => hst ((h.ready t).mp ht).2.1
  have hparked : ∀ {u i}, u ≠ t → Parked k u i →
      Parked { k.enqueue t with thread := setStatus k.thread t .ready } u i := fun hne hu =>
    hu.move id (by rw [setStatus_status, if_neg hne]) rfl
  refine { h with
    running := ?_, runMem := ?_, alive := ?_, readyNodup := ?_, ready := ?_, levels := ?_,
    waiting := ?_, newborn := ?_, idleReady := ?_ }
  · intro u
    rw [hr u, ← h.running u, setStatus_status]
    split
    · rename_i hu
      simp [hu]
    · rename_i hu
      simp [hu]
  · intro u hu
    exact h.runMem u ((hr u).mp hu).1
  · intro u hu
    rw [setStatus_status]
    split
    · decide
    · exact h.alive u hu
  · exact nodup_listInsertOrdered hnot h.readyNodup
  · intro u
    show u ∈ listInsertOrdered _ _ _ ↔ _
    rw [mem_listInsertOrdered, setStatus_status, h.ready u]
    by_cases hu : u = t
    · subst hu
      simp [hidle, show u ∈ (k.enqueue u).allList from hmem,
        show (k.enqueue u).idleThread = k.idleThread from rfl]
    · simp [hu, show (k.enqueue t).allList = k.allList from rfl,
        show (k.enqueue t).idleThread = k.idleThread from rfl]
  · intro hm
    have hm' : k.threadMlfqs = true := hm
    unfold enqueue
    simp only [hm', if_true]
    exact (h.levels hm').enqueue hnot (fun u => mem_listInsertOrdered)
  · exact fun s u hu => hparked (fun he => hwait s (he ▸ hu)) (h.waiting s u hu)
  · exact fun u v hv => hparked (fun he => hnew v (he ▸ hv)) (h.newborn u v hv)
  · intro hn
    rcases h.idleReady hn with hi | hi
    · exact .inl (mem_listInsertOrdered.mpr (.inr hi))
    · by_cases ht : b.idle = t
      · exact .inl (mem_listInsertOrdered.mpr (.inl ht))
      · exact .inr ((hr _).mpr ⟨hi, ht⟩)

theorem code_nil (ht : t ∉ k.allList) : k.code t = [] := by
  by_contra hx
  exact ht (h.codeAlive t hx)

/-- A thread is parked in one place only. -/
theorem not_waiting_of_head (ht : k.head t = some i) (hi : i ≠ .semaRetest s) : t ∉ (k.sema s).waiters :=
  fun hw => hi (some.inj (ht.symm.trans (h.waiting s t hw).2.2))

theorem not_newborn_of_head (ht : k.head t = some i)
    (hi : i ≠ .kernelThread) (u : ThreadRef) : createUnblock t ∉ k.code u :=
  fun hw => hi (some.inj (ht.symm.trans (h.newborn t u hw).2.2))

theorem idleThread_ne_of_head (ht : k.head t = some i)
    (hi : idleInstr i = false) : k.idleThread ≠ some t := by
  intro he
  obtain ⟨j, js, hj, hij⟩ := h.idle_head
  rw [Kernel.head, h.idle_eq he, hj] at ht
  rw [← some.inj ht] at hi
  exact absurd (hij.symm.trans hi) (by decide)

theorem not_waiting_of_status
    (ht : (k.thread t).status ≠ .blocked) (s : SemaRef) : t ∉ (k.sema s).waiters :=
  fun hw => ht (h.waiting s t hw).2.1

theorem not_newborn_of_status
    (ht : (k.thread t).status ≠ .blocked) (u : ThreadRef) : createUnblock t ∉ k.code u :=
  fun hw => ht (h.newborn t u hw).2.1

end

theorem yield (h : Alive b k) : Life b none k.threadYield := by
  have hrun := h.current_running
  have hnb : (k.thread k.current).status ≠ .blocked := by rw [hrun]; decide
  unfold threadYield
  split
  · rename_i hidle
    refine h.change rfl rfl rfl rfl rfl (fun _ _ => rfl)
      ⟨fun _ => Nat.le_refl _, id, fun he => he ▸ h.idleCode⟩ h.waitNodup
      (.stops ?_ (fun _ => hidle) (fun _ => ?_) fun hn => ?_) h.allNodup (fun _ _ => Iff.rfl)
      (fun t ht => by rw [setStatus_status, if_neg ht]) (fun _ => h.runMem _ rfl)
      fun s t ht => .inl ht
    · simp
    · simp
    · rw [hidle] at hn
      cases hn
  · rename_i hidle
    refine h.makeReady ?_ (h.runMem _ rfl) (by rw [hrun]; decide) hidle
      (h.not_waiting_of_status hnb) (h.not_newborn_of_status hnb)
    intro u
    rw [some.injEq]
    exact ⟨fun he => absurd he (by simp), fun ⟨he, hne⟩ => absurd he.symm hne⟩

theorem unblock {t : ThreadRef} (h : Life b r k) (hmem : t ∈ k.allList)
    (hst : (k.thread t).status = .blocked) (hidle : k.idleThread ≠ some t)
    (hwait : ∀ s, t ∉ (k.sema s).waiters) (hnew : ∀ u, createUnblock t ∉ k.code u) :
    ∃ k', k.threadUnblock t = .ok k' ∧ k'.current = k.current ∧ Life b r k' := by
  refine ⟨_, if_pos hst, rfl, h.makeReady ?_ hmem (by rw [hst]; decide) hidle hwait hnew⟩
  intro u
  refine ⟨fun hu => ⟨hu, fun he => ?_⟩, And.left⟩
  have := (h.running u).mpr hu
  rw [he, hst] at this
  cases this

theorem exit (h : Alive b k) (hne : k.current ≠ b.idle) : Life b none k.threadExit := by
  have hcode : k.threadExit.code k.current = [] := by simp [threadExit]
  refine h.change rfl rfl rfl rfl rfl (fun t ht => by simp [threadExit, ht]) ?_ h.waitNodup
    (.stops ?_ ?_ (fun hx => ?_) fun _ => hne) (h.allNodup.erase _)
    (fun t ht => mem_erase_of_ne ht)
    (fun t ht => by simp only [threadExit, setStatus_status, if_neg ht]) ?_ fun s t ht => .inl ht
  · rw [hcode]
    exact ⟨fun t => by simp, fun hs => absurd hs not_mem_nil, fun he => absurd he hne⟩
  · simp [threadExit]
  · simp [threadExit]
  · exact absurd rfl (h.allNodup.mem_erase_iff.mp hx).1
  · rintro (hx | hx)
    · exact absurd hcode hx
    · exact absurd hx hne

/-- `next_thread_to_run ()` finds a thread that is not running, waits nowhere and is not being
    created, and takes it out of the queues. -/
theorem next (h : Life b none k) : ∃ n ready levels,
    k.nextThreadToRun = .ok (some n, { k with readyList := ready, priorityLevels := levels }) ∧
    n ∈ k.allList ∧ (∀ s, n ∉ (k.sema s).waiters) ∧ (∀ u, createUnblock n ∉ k.code u) ∧
    ready.Nodup ∧ (∀ u, u ∈ ready ↔ u ∈ k.readyList ∧ u ≠ n) ∧
    (k.threadMlfqs = true → Levels levels k.highestPriority ready) := by
  -- any thread of the ready list is ready, so it is neither waiting nor new
  have hready : ∀ {t}, t ∈ k.readyList → t ∈ k.allList ∧ (∀ s, t ∉ (k.sema s).waiters) ∧
      (∀ u, createUnblock t ∉ k.code u) := by
    intro t ht
    obtain ⟨hm, hs, -⟩ := (h.ready t).mp ht
    have hnb : (k.thread t).status ≠ .blocked := by rw [hs]; decide
    exact ⟨hm, h.not_waiting_of_status hnb, h.not_newborn_of_status hnb⟩
  cases hl : k.readyList with
  | nil =>
    -- the idle thread: there is one, since before `idle_thread' is set it is on the ready list
    rcases h.idleCode with ⟨hn, -⟩ | ⟨hs, hcode⟩
    · rcases h.idleReady hn with hi | hi
      · rw [hl] at hi
        exact absurd hi not_mem_nil
      · cases hi
    · have hhead : ∀ i, k.head b.idle = some i → idleInstr i = true ∧ i ≠ .kernelThread := by
        intro i hi
        unfold Kernel.head at hi
        rcases hcode with hc | ⟨t, hc⟩ | hc <;> rw [hc] at hi <;>
          obtain rfl := some.inj hi <;> exact ⟨rfl, by simp⟩
      refine ⟨b.idle, k.readyList, k.priorityLevels, ?_, h.idleMem, ?_, ?_, h.readyNodup, ?_,
        h.levels⟩
      · show k.nextThreadToRun = .ok (some b.idle, k)
        unfold nextThreadToRun
        simp only [hl]
        rw [hs]
      · intro s hw
        exact absurd (hhead _ (h.waiting s _ hw).2.2).1 (by simp [idleInstr])
      · intro u hw
        exact absurd rfl (hhead _ (h.newborn _ u hw).2.2).2
      · intro u; simp [hl]
  | cons t ts =>
    unfold nextThreadToRun
    simp only [hl]
    cases hm : k.threadMlfqs with
    | false =>
      have ht : t ∈ k.readyList := by rw [hl]; exact mem_cons_self ..
      obtain ⟨h1, h2, h3⟩ := hready ht
      have hnd : (t :: ts).Nodup := hl ▸ h.readyNodup
      obtain ⟨hts, hnd⟩ := nodup_cons.mp hnd
      refine ⟨t, ts, k.priorityLevels, rfl, h1, h2, h3, hnd, ?_, by simp⟩
      intro u
      rw [mem_cons]
      constructor
      · intro hu
        exact ⟨.inr hu, fun he => hts (he ▸ hu)⟩
      · rintro ⟨hu | hu, hne⟩
        · exact absurd hu hne
        · exact hu
    | true =>
      have hlev := h.levels hm
      have ht : t ∈ k.readyList := by rw [hl]; exact mem_cons_self ..
      -- the search starts at or above the level of `t', so it finds a non-empty one
      obtain ⟨m, hmt⟩ := hlev.cover t ht
      obtain ⟨level, hsearch, hne⟩ := levelSearch_eq_some (hlev.mem m t hmt).2
        (ne_nil_of_mem hmt)
      obtain ⟨n, ns, hns⟩ := exists_cons_of_ne_nil hne
      have hn : n ∈ k.readyList := (hlev.mem level n (by rw [hns]; exact mem_cons_self ..)).1
      obtain ⟨h1, h2, h3⟩ := hready hn
      simp only [if_true, hsearch, hns]
      refine ⟨n, (t :: ts).erase n, _, rfl, h1, h2, h3, hl ▸ h.readyNodup.erase n, ?_, ?_⟩
      · intro u
        rw [← hl, Nodup.mem_erase_iff h.readyNodup, and_comm]
      · intro _
        exact hl ▸ hlev.dequeue hns h.readyNodup

/-- **`schedule ()` always succeeds**, and then exactly the thread it chose is running. -/
theorem schedule (h : Life b none k) : ∃ k', k.schedule = .ok k' ∧ Alive b k' := by
  have hnr : (k.thread k.current).status ≠ .running := fun he =>
    absurd ((h.running _).mp he) (by simp)
  obtain ⟨n, ready, levels, hn, hmem, hwait, hnew, hnd, hready, hlev⟩ := h.next
  unfold Kernel.schedule
  simp only [hn, if_neg hnr]
  refine ⟨_, rfl, ?_⟩
  refine { h with
    running := ?_, runMem := ?_, alive := ?_, readyNodup := hnd, ready := ?_, levels := hlev,
    waiting := ?_, newborn := ?_, idleReady := ?_ }
  · intro u
    rw [setStatus_status]
    split
    · rename_i hu; simp [hu]
    · rename_i hu
      rw [h.running u, some.injEq]
      exact ⟨fun he => absurd he (by simp), fun he => absurd he.symm hu⟩
  · intro u hu
    rwa [← some.inj hu]
  · intro u hu
    rw [setStatus_status]
    split
    · decide
    · exact h.alive u hu
  · intro u
    rw [hready u, h.ready u, setStatus_status]
    by_cases hu : u = n
    · simp [hu]
    · simp [hu]
  · intro s u hu
    have hne : u ≠ n := fun he => hwait s (he ▸ hu)
    exact Parked.move (h.waiting s u hu) id (by rw [setStatus_status, if_neg hne]) rfl
  · intro u v huv
    have hne : u ≠ n := fun he => hnew v (he ▸ huv)
    exact Parked.move (h.newborn u v huv) id (by rw [setStatus_status, if_neg hne]) rfl
  · intro hi
    rcases h.idleReady hi with hr | hr
    · by_cases he : b.idle = n
      · exact .inr (by rw [he])
      · exact .inl ((hready _).mpr ⟨hr, he⟩)
    · cases hr

theorem create {t : ThreadRef} {p : Int} (h : Alive b k) (ht : t ∉ k.allList)
    (hne : k.current ≠ b.idle) (hk : k.threadCreate t p = .ok k') : Alive b k' := by
  have hcur : t ≠ k.current := fun he => ht (he ▸ h.runMem _ rfl)
  have hidle : t ≠ b.idle := fun he => ht (he ▸ h.idleMem)
  have hfresh : ∀ u, createUnblock t ∉ k.code u := fun u hu => ht (h.newborn t u hu).1
  have hold : ∀ {v}, v ∈ k.allList → v ≠ t := fun hv he => ht (he ▸ hv)
  unfold threadCreate at hk
  split at hk
  case isFalse => exact absurd hk (by simp)
  obtain rfl := Except.ok.inj hk
  set call : List Instr :=
    [.lockAcquire tidLock, .lockRelease tidLock, .createUnblock t, .createYield t] with hcall
  set k2 : Kernel := push _ call with hk2
  -- who has which code afterwards
  have hcodeCur : k2.code k.current = call ++ k.code k.current := by
    simp [hk2, push, Ne.symm hcur]
  have hcodeNew : k2.code t = [.kernelThread] := by simp [hk2, push, hcur]
  have hcodeOld : ∀ u, u ≠ k.current → u ≠ t → k2.code u = k.code u := by
    intro u hu hut
    simp [hk2, push, hu, hut]
  have hthread : ∀ u, u ≠ t → k2.thread u = k.thread u := by
    intro u hu
    simp [hk2, push, hu]
  have hnew : k2.thread t = initThread p := by simp [hk2, push]
  have hmem : ∀ {v u}, createUnblock v ∈ k2.code u →
      createUnblock v ∈ k.code u ∨ (u = k.current ∧ v = t) := by
    intro v u hv
    by_cases hu : u = k.current
    · subst hu
      rw [hcodeCur] at hv
      rcases mem_append.mp hv with hv | hv
      · exact .inr ⟨rfl, by simpa [hcall] using hv⟩
      · exact .inl hv
    · by_cases hut : u = t
      · rw [hut, hcodeNew] at hv
        exact absurd hv (by simp)
      · rw [hcodeOld u hu hut] at hv
        exact .inl hv
  have hall : ∀ u, u ∈ k2.allList ↔ u ∈ k.allList ∨ u = t := by
    intro u
    simp [hk2, push]
  have hparked : ∀ {u i}, Parked k u i → Parked k2 u i := fun {u i} hu =>
    hu.move (fun hx => (hall u).mpr (.inl hx)) (by rw [hthread u (hold hu.1)])
      (hcodeOld u (h.parked_ne_current hu) (hold hu.1))
  constructor
  · refine nodup_append.mpr ⟨h.allNodup, nodup_singleton t, ?_⟩
    intro a ha c hc hac
    rw [mem_singleton] at hc
    exact ht (hc ▸ hac ▸ ha)
  · intro u
    by_cases hu : u = t
    · subst hu
      rw [hnew]
      exact ⟨fun he => absurd he (by simp [initThread]), fun he => absurd (some.inj he).symm hcur⟩
    · rw [hthread u hu]
      exact h.running u
  · intro u hu
    exact (hall u).mpr (.inl (h.runMem u hu))
  · intro u hu
    rcases (hall u).mp hu with hu | rfl
    · rw [hthread u (hold hu)]
      exact h.alive u hu
    · rw [hnew]
      simp [initThread]
  · exact h.readyNodup
  · intro u
    show u ∈ k.readyList ↔ u ∈ k2.allList ∧ _ ∧ k.idleThread ≠ some u
    rw [hall u]
    by_cases hu : u = t
    · subst hu
      rw [hnew]
      refine ⟨fun hr => absurd ((h.ready u).mp hr).1 ht, fun hr => absurd hr.2.1 ?_⟩
      simp [initThread]
    · rw [hthread u hu, h.ready u]
      simp [hu]
  · exact h.levels
  · exact h.waitNodup
  · intro s u hu
    exact hparked (h.waiting s u hu)
  · intro u v huv
    rcases hmem huv with huv | ⟨-, rfl⟩
    · exact hparked (h.newborn u v huv)
    · refine ⟨(hall u).mpr (.inr rfl), by rw [hnew]; rfl, ?_⟩
      unfold Kernel.head
      rw [hcodeNew]
      rfl
  · intro v u w hu hw
    rcases hmem hu with hu | ⟨rfl, hv⟩
    · rcases hmem hw with hw | ⟨rfl, hv⟩
      · exact h.creator v u w hu hw
      · exact absurd (hv ▸ hu) (hfresh u)
    · rcases hmem hw with hw | ⟨rfl, -⟩
      · exact absurd (hv ▸ hw) (hfresh w)
      · rfl
  · intro v u
    by_cases hu : u = k.current
    · subst hu
      rw [hcodeCur, count_append]
      have h1 := h.createdOnce v k.current
      by_cases hv : v = t
      · subst hv
        rw [count_eq_zero.mpr (hfresh _)]
        simp [hcall]
      · have h0 : call.count (.createUnblock v) = 0 := count_eq_zero.mpr (by simp [hcall, hv])
        omega
    · by_cases hut : u = t
      · rw [hut, hcodeNew]; simp
      · rw [hcodeOld u hu hut]; exact h.createdOnce v u
  · intro u hu
    by_cases huc : u = k.current
    · exact (hall u).mpr (.inl (huc ▸ h.runMem _ rfl))
    · by_cases hut : u = t
      · exact (hall u).mpr (.inr hut)
      · rw [hcodeOld u huc hut] at hu
        exact (hall u).mpr (.inl (h.codeAlive u hu))
  · exact (hall _).mpr (.inl h.idleMem)
  · rw [hcodeOld _ hne.symm hidle.symm]
    exact h.idleCode
  · intro u hu
    by_cases huc : u = k.current
    · subst huc
      rw [hcodeCur] at hu
      rcases mem_append.mp hu with hu | hu
      · exact absurd hu (by simp [hcall])
      · exact h.idleStart _ hu
    · by_cases hut : u = t
      · rw [hut, hcodeNew] at hu
        exact absurd hu (by simp)
      · rw [hcodeOld u huc hut] at hu
        exact h.idleStart u hu
  · exact h.idleReady

theorem startIdle (h : Alive b k) (hc : k.code k.current = .idleStart :: is) :
    Life b (some k.current) { k.pop with idleThread := some k.current } := by
  have hcur : k.current = b.idle := h.idleStart _ (by rw [hc]; exact mem_cons_self ..)
  have hcode := h.idleCode
  rw [← hcur, hc] at hcode
  -- the only place of its code that starts so is the one before the loop
  have hloop : k.idleThread = none ∧ is = idleLoop := by
    rcases hcode with ⟨hn, hi | hi⟩ | ⟨-, hi | ⟨t, hi⟩ | hi⟩
    · cases hi
    · exact ⟨hn, (cons.inj hi).2⟩
    · exact absurd hi (by simp [idleLoop])
    · cases hi
    · cases hi
  obtain ⟨hnone, rfl⟩ := hloop
  have hpop : k.pop.code = update k.code k.current idleLoop := by
    unfold pop
    rw [hc]
    rfl
  have hmem : ∀ {i u}, i ∈ k.pop.code u → i ∈ k.code u := by
    intro i u hi
    rw [hpop] at hi
    by_cases hu : u = k.current
    · subst hu
      rw [update_self] at hi
      rw [hc]
      exact mem_cons_of_mem _ hi
    · rwa [update_of_ne hu] at hi
  have hparked : ∀ {u i}, Parked k u i →
      Parked { k.pop with idleThread := some k.current } u i := fun {u i} hu =>
    hu.move id rfl ((congrFun hpop u).trans (update_of_ne (h.parked_ne_current hu) _ _))
  refine { h with
    ready := ?_, waiting := ?_, newborn := ?_, creator := ?_, createdOnce := ?_, codeAlive := ?_,
    idleCode := ?_, idleStart := ?_, idleReady := ?_ }
  · intro u
    show u ∈ k.readyList ↔ u ∈ k.allList ∧ (k.thread u).status = .ready ∧ some k.current ≠ some u
    rw [h.ready u]
    refine and_congr_right fun _ => and_congr_right fun hs => ?_
    have hne := h.ne_current (by rw [hs]; decide)
    simp [hnone, Ne.symm hne]
  · exact fun s u hu => hparked (h.waiting s u hu)
  · exact fun u v huv => hparked (h.newborn u v (hmem huv))
  · intro t u v hu hv
    exact h.creator t u v (hmem hu) (hmem hv)
  · intro t u
    rw [hpop]
    by_cases hu : u = k.current
    · subst hu
      simp [idleLoop]
    · rw [update_of_ne hu]
      exact h.createdOnce t u
  · intro u hu
    obtain ⟨i, hi⟩ := exists_mem_of_ne_nil _ hu
    exact h.codeAlive u (ne_nil_of_mem (hmem hi))
  · rw [hpop, ← hcur, update_self]
    exact .inr ⟨by rw [hcur], .inl rfl⟩
  · intro u hu
    exact h.idleStart u (hmem hu)
  · intro hn
    cases hn

/-! ## The sections -/

/-- The instructions that do not concern the idle thread or a thread being created. -/
def harmless : Instr → Bool
  | .createUnblock _ | .idleStart => false
  | _ => true

/-- Starting an instruction keeps the invariant, at the two places of `idle` apart where the next
    one is not in its code. -/
theorem pop (h : Alive b k)
    (hc : k.code k.current = i :: is) (hi : i ≠ .idleStart) (hi' : i ≠ .idleBlock) :
    Alive b k.pop := by
  have hpop : k.pop.code k.current = is := by
    simp [Kernel.pop, hc]
  refine h.frame (.of_status fun _ => rfl) rfl
    (fun t ht => by simp [Kernel.pop, ht]) ⟨fun t => ?_, fun hs => ?_, fun hidle => ?_⟩
  · rw [hpop, hc]
    exact (sublist_cons_self i is).count_le _
  · rw [hpop] at hs
    rw [hc]
    exact mem_cons_of_mem _ hs
  · have hcode := h.idleCode
    rw [← hidle, hc] at hcode
    rw [hpop]
    rcases hcode with ⟨hn, he | he⟩ | ⟨hs, he | ⟨t, he⟩ | he⟩
    · exact .inl ⟨hn, .inr (cons.inj he).2⟩
    · exact absurd (cons.inj he).1 hi
    · exact .inr ⟨hs, .inr (.inr (cons.inj he).2)⟩
    · exact .inr ⟨hs, .inr (.inr (cons.inj he).2)⟩
    · exact absurd (cons.inj he).1 hi'

theorem codeOk_append {js : List Instr} (hne : k.current ≠ b.idle)
    (hjs : js.all harmless = true) (idle : Option ThreadRef) :
    CodeOk b k idle (js ++ k.code k.current) := by
  have hmem : ∀ j ∈ js, harmless j = true := all_eq_true.mp hjs
  refine ⟨fun t => ?_, fun hs => ?_, fun he => absurd he hne⟩
  · have h0 : js.count (.createUnblock t) = 0 := by
      refine count_eq_zero.mpr fun ht => ?_
      exact absurd (hmem _ ht) (by simp [harmless])
    exact Nat.le_of_eq (by rw [count_append, h0, Nat.zero_add])
  · rcases mem_append.mp hs with hs | hs
    · exact absurd (hmem _ hs) (by simp [harmless])
    · exact hs

theorem quiet (h : Alive b k) (hne : k.current ≠ b.idle) (js : List Instr)
    (hq : SameQueues k k') (hidle : k'.idleThread = k.idleThread)
    (hcode : k'.code = update k.code k.current (js ++ k.code k.current))
    (hjs : js.all harmless = true) : Alive b k' := by
  refine h.frame hq hidle (fun t ht => ?_) ?_
  · rw [hcode, update_of_ne ht]
  · rw [hcode, update_self]
    exact codeOk_append hne hjs _

/-! ### Semaphores -/

/-- A thread taken off a wait list is unblocked without a failed assertion. -/
theorem semaUp (h : Alive b k) (s : SemaRef) :
    ∃ w k', k.semaUp s = .ok (w, k') ∧ k'.current = k.current ∧ k'.code = k.code ∧
      k'.idleThread = k.idleThread ∧ Alive b k' := by
  set value := ((k.sema s).value + 1) % 4294967296 with hvalue
  cases hsort : listSort k.listDescPrioSort (k.sema s).waiters with
  | nil =>
    refine ⟨none, { k with sema := update k.sema s ⟨value, []⟩ }, ?_, rfl, rfl, rfl, ?_⟩
    · rw [semaUp_eq, hsort]
    · exact h.setSema nodup_nil (by simp)
  | cons t ts =>
    have hperm : (t :: ts).Perm (k.sema s).waiters := hsort ▸ listSort_perm _ _
    obtain ⟨hts, hnd⟩ := nodup_cons.mp (hperm.nodup_iff.mpr (h.waitNodup s))
    have ht : t ∈ (k.sema s).waiters := hperm.subset (mem_cons_self ..)
    obtain ⟨hmem, hst, hhead⟩ := h.waiting s t ht
    -- first off the wait list, then onto the ready list
    have h1 : Life b (some k.current) { k with sema := update k.sema s ⟨value, ts⟩ } :=
      h.setSema hnd fun u hu => hperm.subset (mem_cons_of_mem t hu)
    have hout : ∀ s', t ∉ (update k.sema s ⟨value, ts⟩ s').waiters := by
      intro s' hw
      by_cases hs : s' = s
      · subst hs
        exact hts (by simpa using hw)
      · refine h.not_waiting_of_head hhead (s := s') ?_ (by simpa [hs] using hw)
        simpa using Ne.symm hs
    refine ⟨some t, raised k s t ts, ?_, rfl, rfl, rfl, ?_⟩
    · rw [semaUp_eq, hsort]
      exact if_pos hst
    · refine h1.makeReady (fun u => ⟨fun hu => ⟨hu, ?_⟩, And.left⟩) hmem (by rw [hst]; decide)
        (h.idleThread_ne_of_head hhead rfl) hout (h.not_newborn_of_head hhead (by simp))
      rintro rfl
      rw [(h.running u).mpr hu] at hst
      cases hst

end Life

/-- The assertions about a thread's status. -/
def Fault.isStatus : Fault → Bool
  | .threadCurrent | .threadUnblock | .scheduleStatus | .scheduleNext => true
  | _ => false

/-- The outcome of a section is good: the invariant holds after it, and a fault it ends with is not
    about a status. -/
def Good (b : Boot) : Except Fault (Kernel × Bool) → Prop
  | .error f => f.isStatus = false
  | .ok (k, false) => Alive b k
  | .ok (k, true) => Life b none k

namespace Life

section

variable (h : Alive b k)
include h

theorem good_yieldIf (test : Bool) : Good b (.ok (k.yieldIf test)) := by
  cases test with
  | true => exact h.yield
  | false => exact h

/-- `thread_block ()` by the current thread, which may have joined a wait list before. -/
theorem good_threadBlock {back : Instr} (hne : k.current ≠ b.idle) (hback : harmless back = true) :
    Life b none (k.threadBlock back) := by
  refine h.block rfl rfl rfl rfl rfl (fun t ht => ?_) ?_ h.waitNodup (fun _ => hne) rfl
    (fun t => setStatus_status ..) (fun s t ht => .inl ht)
  · simp [threadBlock, push, ht]
  · simp only [threadBlock, push, update_self]
    exact codeOk_append hne (by simp [hback]) _

theorem good_semaDown (hne : k.current ≠ b.idle) (s : SemaRef) : Good b (.ok (k.semaDown s)) := by
  have hnot : k.current ∉ (k.sema s).waiters := by
    refine h.not_waiting_of_status ?_ s
    rw [h.current_running]
    decide
  unfold semaDown
  split
  · -- no unit to take: join the wait list and block
    refine h.block rfl rfl rfl rfl rfl (fun t ht => ?_) ?_ (fun s' => ?_) (fun _ => hne) rfl
      (fun t => setStatus_status ..) (fun s' t ht => ?_)
    · simp [threadBlock, push, ht]
    · simp only [threadBlock, push, update_self]
      exact codeOk_append hne rfl _
    · by_cases hs : s' = s
      · subst hs
        simpa [threadBlock, push] using
          nodup_listInsertOrdered hnot (h.waitNodup s')
      · simpa [threadBlock, push, hs] using h.waitNodup s'
    · by_cases hs : s' = s
      · subst hs
        have ht' : t = k.current ∨ t ∈ (k.sema s').waiters := by
          simpa [Kernel.threadBlock, Kernel.push, mem_listInsertOrdered] using ht
        rcases ht' with rfl | ht'
        · exact .inr ⟨rfl, by simp [Kernel.head, Kernel.threadBlock, Kernel.push]⟩
        · exact .inl ht'
      · exact .inl (by simpa [threadBlock, push, hs] using ht)
  · refine h.quiet hne (afterDown s)
      ⟨rfl, rfl, rfl, rfl, rfl, rfl, fun _ => rfl, fun s' => ?_⟩ rfl rfl ?_
    · by_cases hs : s' = s
      · subst hs
        simp [push, Subperm.refl]
      · simp [push, hs, Subperm.refl]
    · cases s <;> rfl

theorem good_semaTryDown (s : SemaRef) :
    Life b (some (k.semaTryDown s).current) (k.semaTryDown s) := by
  unfold semaTryDown
  split
  · exact h.setSema (h.waitNodup s) fun _ ht => ht
  · exact h

end

/-! ### Locks, conditions, priorities -/

section

variable (h : Alive b k)
include h

section

variable (hne : k.current ≠ b.idle) (l : LockRef)
include hne

theorem good_lockAcquire : Good b (continues (k.lockAcquire l)) := by
  cases hk : k.lockAcquire l with
  | error =>
    rcases lockAcquire_error hk with ⟨rfl, -⟩ | rfl | rfl <;> rfl
  | ok =>
    obtain ⟨th, rfl, hth⟩ := lockAcquire_only hk
    exact h.quiet hne [.semaDown (.lock l)] (.of_status fun u => (hth u).1) rfl rfl rfl

theorem good_lockHold : Life b (some (k.lockHold l).current) (k.lockHold l) := by
  refine h.quiet hne [] (.of_status fun u => ?_) rfl (by simp [lockHold]) rfl
  simp only [modify_apply]
  split <;> rfl

theorem good_lockTryAcquire : Good b (continues (k.lockTryAcquire l)) := by
  unfold lockTryAcquire
  split
  · rfl
  · split
    · exact h.quiet hne [.lockTryHold l] (.of_status fun _ => rfl) rfl rfl rfl
    · exact h

end

theorem good_lockTryHold (l : LockRef) : Life b (some k.current) (k.lockTryHold l) :=
  { h with }

section

variable (hne : k.current ≠ b.idle) (c : CondRef) (l : LockRef)
include hne

theorem good_lockRelease : Good b (continues (k.lockRelease l)) := by
  unfold lockRelease
  split
  · refine h.quiet hne [.semaUp (.lock l)] (.of_status fun u => ?_) rfl rfl rfl
    simp only [modify_apply]
    split <;> rfl
  · rfl

theorem good_condWait : Good b (continues (k.condWait c l)) := by
  unfold condWait
  split
  · refine h.quiet hne [.lockRelease l, .semaDown (.waiter k.current), .lockAcquire l]
      ⟨rfl, rfl, rfl, rfl, rfl, rfl, fun _ => rfl, fun s => ?_⟩ rfl rfl rfl
    by_cases hs : s = .waiter k.current
    · subst hs
      simp [push, nil_subperm]
    · simp [push, hs, Subperm.refl]
  · rfl

theorem good_condSignal : Good b (continues (k.condSignal c l)) := by
  unfold condSignal
  split
  · split
    · exact h.quiet hne [.condPop c] (.of_status fun _ => rfl) rfl rfl rfl
    · rfl
  · rfl

theorem good_condPop : Good b (continues (k.condPop c)) := by
  unfold condPop
  split
  · rfl
  · rename_i w ws _
    exact h.quiet hne [.semaUp (.waiter w)] (.of_status fun _ => rfl) rfl rfl rfl

theorem good_condBroadcast : Life b (some (k.condBroadcast c l).current) (k.condBroadcast c l) := by
  unfold condBroadcast
  split
  · exact h
  · exact h.quiet hne [.condSignal c l, .condBroadcast c l] (.of_status fun _ => rfl) rfl rfl rfl

theorem good_threadSetPriority (p junk : Int) : Good b (.ok (k.threadSetPriority p junk)) := by
  have hset : Life b (some (k.setBasePriority p).current) (k.setBasePriority p) := by
    refine h.quiet hne [] (.of_status fun u => ?_) rfl (by simp [setBasePriority]) rfl
    simp only [modify_apply]
    split
    · split
      · rfl
      · split <;> rfl
    · rfl
  unfold threadSetPriority
  split
  · simp only
    split
    · exact hset.yield
    · exact hset
  · exact h

end

end

/-! ## The step -/

section

variable (h : Alive b k)
include h

variable {is : List Instr} {a : Action}

/-- Where the idle thread is when it calls `sema_up`. -/
theorem idle_semaUp (hc : k.code k.current = .semaUp s :: is) :
    k.current = b.idle → k.idleThread = some b.idle ∧ is = [.idleBlock] := by
  intro hcur
  have hcode := h.idleCode
  rw [← hcur, hc] at hcode
  rcases hcode with ⟨-, hh | hh⟩ | ⟨hs, hh | ⟨u, hh⟩ | hh⟩
  · cases hh
  · cases hh
  · exact ⟨hcur ▸ hs, (cons.inj hh).2⟩
  · cases hh
  · cases hh

theorem good_semaUp (s : SemaRef) (hidle : k.current = b.idle →
      k.idleThread = some b.idle ∧ k.code k.current = [.idleBlock]) :
    Good b (k.execInstr (.semaUp s)) := by
  obtain ⟨w, k', hk, hcur, hcode, hid, hl⟩ := h.semaUp s
  simp only [execInstr, hk]
  cases w with
  | none => exact hl
  | some t =>
    refine hl.frame (.of_status fun _ => rfl) rfl
      (fun u hu => ?_) ⟨fun u => ?_, fun hs => ?_, fun he => ?_⟩
    · simp [push, hu]
    · simp [push]
    · simpa [push] using hs
    · obtain ⟨hs, hloop⟩ := hidle (hcur ▸ he)
      simp only [push, update_self, hid, hcode, hcur, hloop]
      exact .inr ⟨hs, .inr (.inl ⟨t, rfl⟩)⟩

/-- The `thread_unblock (t)` of `thread_create`: nobody else is creating `t`, and it has waited
    nowhere yet. -/
theorem good_createUnblock {t : ThreadRef}
    (hc : k.code k.current = .createUnblock t :: is) (hp : Alive b k.pop) :
    Good b (k.pop.execInstr (.createUnblock t)) := by
  have hin : createUnblock t ∈ k.code k.current := by rw [hc]; exact mem_cons_self ..
  obtain ⟨hmem, hst, hhead⟩ := h.newborn t _ hin
  have hcode : k.pop.code k.current = is := by simp [Kernel.pop, hc]
  have hnew : ∀ u, createUnblock t ∉ k.pop.code u := by
    intro u hu
    by_cases huc : u = k.current
    · subst huc
      rw [hcode] at hu
      have h1 := h.createdOnce t k.current
      have h2 := count_pos_iff.mpr hu
      rw [hc, count_cons_self] at h1
      omega
    · have hu' : createUnblock t ∈ k.code u := by simpa [Kernel.pop, huc] using hu
      exact huc (h.creator t u k.current hu' hin)
  have hidle : k.idleThread ≠ some t := by
    intro he
    rcases h.idleCode with ⟨hn, -⟩ | ⟨-, hl⟩
    · rw [hn] at he
      cases he
    · rw [Kernel.head, h.idle_eq he] at hhead
      rcases hl with hl | ⟨u, hl⟩ | hl
      all_goals
        rw [hl] at hhead
        exact absurd hhead (by simp [idleLoop])
  obtain ⟨k', hk, hcur, hl⟩ := hp.unblock hmem hst hidle
    (fun s => h.not_waiting_of_head hhead (by simp)) hnew
  simp only [execInstr, hk]
  show Alive b k'
  rwa [Alive, hcur]

theorem good_exec
    (hc : k.code k.current = i :: is) (hcreate : ∀ t p, i = .threadCreate t p → t ∉ k.allList) :
    Good b (k.pop.execInstr i) := by
  -- the two instructions of `idle' after which it is not in a place where it can stay
  by_cases hstart : i = .idleStart
  · subst hstart
    exact h.startIdle hc
  by_cases hblock : i = .idleBlock
  · subst hblock
    refine h.block rfl rfl rfl rfl rfl (fun t ht => ?_) ?_ h.waitNodup ?_ rfl
      (fun t => setStatus_status ..) (fun s t ht => .inl ht)
    · simp [Kernel.threadBlock, Kernel.push, Kernel.pop, ht]
    · -- the loop goes round: the code is the one it had
      have hsame : (k.pop.threadBlock .idleBlock).code k.current = k.code k.current := by
        simp [Kernel.threadBlock, Kernel.push, Kernel.pop, hc]
      rw [hsame]
      refine ⟨fun t => Nat.le_refl _, id, fun hcur => ?_⟩
      rw [hcur]
      exact h.idleCode
    · intro hn hcur
      have hcode := h.idleCode
      rw [← hcur, hc] at hcode
      rcases hcode with ⟨-, he | he⟩ | ⟨hs, -⟩
      · cases he
      · cases he
      · rw [hn] at hs
        cases hs
  have hp : Alive b k.pop := h.pop hc hstart hblock
  have hne : idleInstr i = false → k.pop.current ≠ b.idle := fun hi => h.not_idle_of_head hc hi
  cases i with
  | semaDown s => exact hp.good_semaDown (hne rfl) s
  | semaRetest s => exact hp.good_semaDown (hne rfl) s
  | semaTryDown s => exact hp.good_semaTryDown s
  | semaUp s =>
    refine hp.good_semaUp s fun hcur => ?_
    obtain ⟨hs, rfl⟩ := h.idle_semaUp hc hcur
    exact ⟨hs, by simp [Kernel.pop, hc]⟩
  | semaUpYield => exact hp.good_yieldIf _
  | lockAcquire l => exact hp.good_lockAcquire (hne rfl) l
  | lockHold l => exact hp.good_lockHold (hne rfl) l
  | lockTryAcquire l => exact hp.good_lockTryAcquire (hne rfl) l
  | lockTryHold l => exact hp.good_lockTryHold l
  | lockRelease l => exact hp.good_lockRelease (hne rfl) l
  | condWait c l => exact hp.good_condWait (hne rfl) c l
  | condSignal c l => exact hp.good_condSignal (hne rfl) c l
  | condPop c => exact hp.good_condPop (hne rfl) c
  | condBroadcast c l => exact hp.good_condBroadcast (hne rfl) c l
  | threadCreate t p =>
    simp only [execInstr]
    cases hk : k.pop.threadCreate t p with
    | error =>
      unfold threadCreate at hk
      split at hk
      · cases hk
      · obtain rfl := Except.error.inj hk
        rfl
    | ok => exact hp.create (hcreate t p rfl) (hne rfl) hk
  | createUnblock => exact h.good_createUnblock hc hp
  | createYield => exact hp.good_yieldIf _
  | kernelThread => exact hp
  | threadYield => exact hp.yield
  | threadBlock => exact hp.good_threadBlock (hne rfl) rfl
  | blockReturn => exact hp
  | threadExit => exact hp.exit (hne rfl)
  | threadSetPriority p junk => exact hp.good_threadSetPriority (hne rfl) p junk
  | idleStart => exact absurd rfl hstart
  | idleBlock => exact absurd rfl hblock

theorem good_act (ha : k.enabled a = true) : Good b (k.act a) := by
  cases a with
  | exec =>
    simp only [act]
    cases hc : k.code k.current with
    | nil => exact h
    | cons =>
      refine h.good_exec hc fun t p hi => ?_
      subst hi
      simpa [Kernel.enabled, Kernel.head, hc, Kernel.runnable] using ha
  | call i =>
    obtain ⟨hc, hi⟩ : k.code k.current = [] ∧ callable i = true := by
      simpa [enabled] using ha
    refine h.quiet (h.not_idle_of_nil hc) [i] (.of_status fun _ => rfl) rfl rfl ?_
    cases i <;> first | rfl | exact absurd hi (by simp [callable])
  | timer => exact h.yield
  | intrSemaUp s =>
    obtain ⟨w, k', hk, -, -, -, hl⟩ := h.semaUp s
    simp only [act, hk]
    exact hl.yield
  | intrSemaTryDown s => exact h.good_semaTryDown s
  | unblock t =>
    -- a thread that called `thread_block ()' directly is where no other blocked thread is
    obtain ⟨-, hst, hhead⟩ : _ ∧ (k.thread t).status = .blocked ∧ k.head t = some .blockReturn := by
      simpa [enabled, blockedDirectly] using ha
    have hmem : t ∈ k.allList := by
      refine h.codeAlive t fun he => ?_
      rw [Kernel.head, he] at hhead
      cases hhead
    obtain ⟨k', hk, hcur, hl⟩ := h.unblock hmem hst (h.idleThread_ne_of_head hhead rfl)
      (fun s => h.not_waiting_of_head hhead (by simp)) (h.not_newborn_of_head hhead (by simp))
    simp only [act, hk]
    show Alive b k'
    rwa [Alive, hcur]

/-- **One step** keeps the invariant, and no assertion about a status fails in it. -/
theorem step (ha : k.enabled a = true) : (∀ k', k.step a = .ok k' → Alive b k') ∧
    (∀ f, k.step a = .error f → f.isStatus = false) := by
  have hgood := h.good_act ha
  unfold Kernel.step
  rw [if_pos h.current_running]
  match hact : k.act a with
  | .error f =>
    rw [hact] at hgood
    refine ⟨fun k' hk => absurd hk (by simp [finish]), fun f' hf => ?_⟩
    obtain rfl := Except.error.inj hf
    exact hgood
  | .ok (k1, false) =>
    rw [hact] at hgood
    refine ⟨fun k' hk => ?_, fun f hf => absurd hf (by simp [finish])⟩
    cases hk
    exact hgood
  | .ok (k1, true) =>
    rw [hact] at hgood
    obtain ⟨k2, hs, hl⟩ := Life.schedule hgood
    simp only [finish, hs]
    refine ⟨fun k' hk => ?_, fun f hf => absurd hf (by simp)⟩
    cases hk
    exact hl

end

/-- What there is to do when the kernel starts. -/
theorem mem_boot_code {u : ThreadRef} (hi : i ∈ (boot b).code u) :
    i = .semaDown idleStarted ∨
    (u = b.idle ∧ (i = .kernelThread ∨ i = .idleStart ∨ i = .semaUp idleStarted ∨ i = .idleBlock)) := by
  simp only [boot] at hi
  split at hi
  · exact .inl (mem_singleton.mp hi)
  · split at hi
    · exact .inr ⟨by assumption, by simpa [idleLoop] using hi⟩
    · exact absurd hi not_mem_nil

theorem init (b : Boot) : Life b (some (boot b).current) (boot b) := by
  have hne := b.main_ne_idle
  have hwait : ∀ s, (b.sema s).waiters = [] := by
    intro s
    match s with
    | .user 0 | .user (n + 1) | .lock _ | .waiter _ => rfl
  have hnew : ∀ t u, createUnblock t ∉ (boot b).code u := by
    intro t u hu
    rcases mem_boot_code hu with hi | ⟨-, hi | hi | hi | hi⟩ <;> cases hi
  constructor
  · simp [boot, hne]
  · intro t
    simp only [boot, Boot.thread, some.injEq]
    by_cases ht : t = b.main
    · simp [ht]
    · rw [if_neg ht]
      refine ⟨fun he => ?_, fun he => absurd he.symm ht⟩
      split at he <;> cases he
  · intro t ht
    simp only [boot, some.injEq] at ht
    simp [boot, ht]
  · intro t ht
    simp only [boot, mem_cons, not_mem_nil, or_false] at ht
    simp only [boot, Boot.thread]
    rcases ht with rfl | rfl
    · simp
    · simp [hne.symm]
  · simp [boot]
  · intro t
    simp only [boot, Boot.thread, mem_cons, not_mem_nil, or_false]
    by_cases ht : t = b.idle
    · simp [ht, hne.symm]
    · by_cases ht' : t = b.main
      · simp [ht', hne]
      · simp [ht, ht']
  · intro hm
    have hm' : b.mlfqs = true := hm
    simp only [boot, hm', true_and]
    refine ⟨fun n => ?_, fun n t ht => ?_, fun t ht => ⟨0, by simpa using ht⟩, fun n m t hn hm => ?_⟩
    · split <;> simp
    · split at ht
      · exact ⟨ht, by omega⟩
      · exact absurd ht not_mem_nil
    · split at hn
      · split at hm
        · omega
        · exact absurd hm not_mem_nil
      · exact absurd hn not_mem_nil
  · intro s
    simp [boot, hwait s]
  · intro s t ht
    rw [show (boot b).sema = b.sema from rfl, hwait s] at ht
    exact absurd ht not_mem_nil
  · intro t u hu
    exact absurd hu (hnew t u)
  · intro t u v hu
    exact absurd hu (hnew t u)
  · intro t u
    rw [count_eq_zero.mpr (hnew t u)]
    omega
  · intro t ht
    simp only [boot] at ht ⊢
    by_cases h1 : t = b.main
    · simp [h1]
    · by_cases h2 : t = b.idle
      · simp [h2]
      · simp [h1, h2] at ht
  · simp [boot]
  · left
    simp [boot, hne.symm]
  · intro t ht
    rcases mem_boot_code ht with hi | ⟨rfl, -⟩
    · cases hi
    · rfl
  · intro _
    left
    simp [boot]

end Life

/-- **Thread life cycle.**  In every state reachable from `thread_start`, under either scheduler:
    exactly one thread is running; `ready_list` is, without duplicates, the ready threads other than
    `idle_thread`; a thread on a wait list is blocked, is there once, is on no other wait list and
    is not ready; and no step fails an assertion of `thread_current`, `thread_unblock` or `schedule`
    about a status. -/
theorem thread_life_cycle {tr : List (Kernel × Action)} (h : kernelMachine.Run (boot b) tr k) :
    (∃! t, (k.thread t).status = .running) ∧
    k.readyList.Nodup ∧
    (∀ t, t ∈ k.readyList ↔ t ∈ k.allList ∧ (k.thread t).status = .ready ∧ k.idleThread ≠ some t) ∧
    (∀ s t, t ∈ (k.sema s).waiters →
      (k.thread t).status = .blocked ∧ (k.sema s).waiters.count t = 1 ∧
      (∀ s', t ∈ (k.sema s').waiters → s' = s) ∧ t ∉ k.readyList) ∧
    (∀ a f, kernelMachine.enabled k a → kernelMachine.step k a = .error f →
      f.isStatus = false) := by
  have hl : Alive b k := h.invariant (I := fun k => Alive b k) (Life.init b)
      (fun s a s' hs ha hstep => (hs.step ha).1 s' hstep)
  refine ⟨⟨k.current, hl.current_running, fun t ht => ?_⟩, hl.readyNodup, hl.ready, ?_,
    fun a f ha hf => (hl.step ha).2 f hf⟩
  · exact (some.inj ((hl.running t).mp ht)).symm
  intro s t ht
  obtain ⟨-, hst, hhead⟩ := hl.waiting s t ht
  refine ⟨hst, count_eq_one_of_mem (hl.waitNodup s) ht, fun s' ht' => ?_, fun hr => ?_⟩
  · -- the next instruction of a waiting thread names the semaphore
    have := (hl.waiting s' t ht').2.2
    rw [hhead] at this
    simpa using this.symm
  · have := ((hl.ready t).mp hr).2.1
    rw [hst] at this
    cases this

/-- The initial thread is blocked on a semaphore and the idle thread runs. -/
theorem thread_life_cycle_blocked : ∃ tr k, kernelMachine.Run (boot Boot.small) tr k ∧
    (k.sema (.user 1)).waiters = [1] ∧ k.idleThread = some 2 ∧
    (k.thread 1).status = .blocked ∧ 1 ∉ k.readyList := by
  obtain ⟨tr, k, hr, hw, hi⟩ := kernelMachine.exists_reached (boot Boot.small)
    (startUp ++ calls (.semaDown (.user 1)) 1)
    (fun _ k => (k.sema (.user 1)).waiters = [1] ∧ k.idleThread = some 2)
    (by decide)
  obtain ⟨-, -, -, hwait, -⟩ := thread_life_cycle hr
  obtain ⟨hst, -, -, hready⟩ := hwait (.user 1) 1 (by rw [hw]; exact mem_cons_self ..)
  exact ⟨tr, k, hr, hw, hi, hst, hready⟩

end Pintos.Threads
