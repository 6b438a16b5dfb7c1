/-
  The lock of the frame table: `ft_lock` of `vm/frame.c`.

  `acquire_ft_lock` does nothing for a thread that holds the lock already.  But there is no counter:
  the FIRST `release_ft_lock` is the one that counts.

  1. **Operations** — `ft_add`, `ft_remove` and `ft_get`, with `ft_evict` inside the first.  A thread is
     IN an operation from the return of its `acquire_ft_lock` to its last `release_ft_lock`.

  2. **The theorem** (`ft_lock_covers`) — all along a run every thread in an operation holds the lock,
     and there is at most one, exactly if `ft_get` never releases the lock for `ft_remove`.

  3. **The defect** (`ft_remove_unlocked`) — `ft_get` ALWAYS does: one thread is in the middle of its
     `hash_delete`, another in the middle of its `hash_insert`.

  In `ft_evict` the `ft_remove` comes after `swap_write`, which does not return; the path is here all
  the same.
-/
import Pintos.Threads.Scripts

namespace Pintos.Vm.FrameLock

open Base Threads

def ftLock : LockRef := 1

/-- The operations, and what they do to the table and the queue. -/
inductive Place where
  | ftAdd | ftRemove | ftGet | ftEvict
  | hashInsert | hashDelete | hashFind
  /-- `list_push_front`, `list_push_back`. -/
  | lruPush
  | lruRemove
  | lruPop
  deriving DecidableEq

/-! ## The operations -/

/-- An operation on the table or the queue. -/
def update (p : Place) : List (Op Place) := [.enter p, .leave]

def ftGet : List (Op Place) := [.acquireIf, .enter .ftGet] ++ update .hashFind ++ [.leave, .releaseIf]

def ftRemove : List (Op Place) :=
  [.acquireIf, .enter .ftRemove] ++ ftGet ++ update .hashDelete ++ update .lruRemove ++
    [.leave, .releaseIf]

/-- `ft_evict`, which only `ft_add` calls.  If the swap table is full the last release is the one
    before the panic. -/
def ftEvict (full : Bool) : List (Op Place) := [.acquireIf, .enter .ftEvict] ++
    if full then [.leave, .leave, .releaseIf, .stop]
    else update .lruPop ++ ftRemove ++ [.leave, .releaseIf]

/-- `ft_add`; `evict` says whether it has to make room, and whether the swap table is full then. -/
def ftAdd (evict : Option Bool) (frameMemory : Bool) : List (Op Place) :=
  [.acquireIf, .enter .ftAdd] ++ evict.elim [] ftEvict ++
    if frameMemory then update .hashInsert ++ update .lruPush ++ [.leave, .releaseIf] else [.stop]

/-- What a thread can do with the frame table, or end. -/
inductive Request where
  | ftAdd (evict : Option Bool) (frameMemory : Bool)
  | ftRemove
  | ftGet
  | exit
  deriving DecidableEq

/-- **The program.** -/
def frameTable : Program Request Place where
  lock := ftLock
  body
    | .ftAdd evict frameMemory => FrameLock.ftAdd evict frameMemory
    | .ftRemove => FrameLock.ftRemove
    | .ftGet => FrameLock.ftGet
    | .exit => [.exit]

/-! ## The check -/

/-- In an operation the lock is held. -/
def Covered (stk : List Place) (held : Bool) : Prop := stk ≠ [] → held = true

/-- In `ft_remove` it is not to be released. -/
def InRemove (stk : List Place) : Prop := .ftRemove ∈ stk

/-- A script that keeps the lock in its operations. -/
abbrev KeepsLock (held : Bool) (stk : List Place) (ops : List (Op Place)) : Prop :=
  Keeps Covered InRemove held stk ops

theorem covered_nil (held : Bool) : Covered [] held := fun h => absurd rfl h

theorem covered_held (stk : List Place) : Covered stk true := fun _ => rfl

variable {stk : List Place} {ops : List (Op Place)} {held : Bool}

theorem keeps_update (hops : KeepsLock true stk ops)
    (p : Place) : KeepsLock true stk (update p ++ ops) :=
  .enter (covered_held _) (.leave (covered_held _) hops)

theorem keeps_acquire (hout : held = false → stk = []) (hops : KeepsLock true stk ops) :
    KeepsLock held stk (.acquireIf :: ops) := by
  refine .acquireIf (fun hh => ?_) (covered_held _) hops
  rw [hout hh]
  exact covered_nil false

theorem keeps_release (hops : KeepsLock false [] ops) : KeepsLock true [] (.releaseIf :: ops) :=
  .releaseIf (covered_nil _) (fun _ => covered_nil _) hops

/-- Up to the inner release, `ft_remove` keeps the lock, whoever calls it. -/
theorem keeps_ftRemove (hout : held = false → stk = [])
    (ops : List (Op Place)) : KeepsLock held stk (ftRemove ++ ops) := by
  have hinner : ∀ rest, KeepsLock true (.ftRemove :: stk) (ftGet ++ rest) := by
    intro rest
    refine keeps_acquire (by simp) (.enter (covered_held _) ?_)
    refine keeps_update ?_ .hashFind
    exact .leave (covered_held _) (.barred (covered_held _) (List.mem_cons_self ..))
  exact keeps_acquire hout (.enter (covered_held _) (hinner _))

/-- **Every operation keeps the lock**, up to a release inside `ft_remove`. -/
theorem keeps_body (c : Request) : KeepsLock false [] (frameTable.body c) := by
  have hdone : KeepsLock false [] [] := .done (covered_nil _)
  have hend : KeepsLock true [.ftAdd] [.leave, .releaseIf] :=
    .leave (covered_held _) (keeps_release hdone)
  cases c with
  | exit => exact .exit (covered_nil _)
  | ftRemove =>
    have hremove : KeepsLock false [] (ftRemove ++ []) := keeps_ftRemove (by simp) []
    rwa [List.append_nil] at hremove
  | ftGet =>
    refine keeps_acquire (by simp) (.enter (covered_held _) (keeps_update ?_ .hashFind))
    exact .leave (covered_held _) (keeps_release hdone)
  | ftAdd evict frameMemory =>
    have hrest : KeepsLock true [.ftAdd]
        (if frameMemory then update .hashInsert ++ update .lruPush ++ [.leave, .releaseIf]
          else [.stop]) := by
      split
      · exact keeps_update (keeps_update hend .lruPush) .hashInsert
      · exact .stop (covered_held _)
    refine keeps_acquire (by simp) (.enter (covered_held _) ?_)
    cases evict with
    | none => exact hrest
    | some full =>
      refine keeps_acquire (by simp) (.enter (covered_held _) ?_)
      cases full with
      | true =>
        exact .leave (covered_held _) (.leave (covered_held _) (keeps_release (.stop (covered_nil _))))
      | false =>
        exact keeps_update (keeps_ftRemove (by simp) _) .lruPop

/-! ## The lock covers the operations -/

/-- A thread in an operation holds the lock, and no other thread is in one. -/
def Exclusive (s : Scripted Place) : Prop :=
  (∀ t, s.stack t ≠ [] → s.kernel.holder ftLock = some t) ∧
  ∀ t u, s.stack t ≠ [] → s.stack u ≠ [] → t = u

/-- The step is the `lock_release` of a `release_ft_lock` inside `ft_remove`, which is that of
    its `ft_get`. -/
def releasesInRemove (s : Scripted Place) : Move Request → Bool
  | .kernel .exec =>
    s.kernel.head s.kernel.current = some (.lockRelease ftLock) &&
      .ftRemove ∈ s.stack s.kernel.current
  | _ => false

variable {b : Boot} {s s' : Scripted Place} {tr : List (Scripted Place × Move Request)}
  {a : Move Request}

theorem noBarred_of_not_releasesInRemove (h : releasesInRemove s a = false) :
    frameTable.noBarred InRemove s a := by
  rintro rfl hhead hin
  simp [releasesInRemove, frameTable] at h hhead
  exact h hhead hin

theorem exclusive_of_guarded
    (hr : (frameTable.machine.guard fun s a => releasesInRemove s a = false).Run (.start b) tr s) :
    Exclusive s := by
  have hr' := hr.guard_mono fun s a => noBarred_of_not_releasesInRemove
  have hholds : ∀ t, s.stack t ≠ [] → s.kernel.holder ftLock = some t := by
    intro t ht
    exact of_decide_eq_true (run_ok (P := frameTable) (by decide) (covered_nil _) keeps_body hr' t ht)
  refine ⟨hholds, fun t u ht hu => ?_⟩
  exact Option.some.inj ((hholds t ht).symm.trans (hholds u hu))

/-- The release inside `ft_remove` leaves its thread in the operation without the lock. -/
theorem not_exclusive_of_release
    (hs : frameTable.machine.step s a = .ok s') (hrel : ¬ releasesInRemove s a = false) :
    ¬ Exclusive s' := by
  intro h
  match a, hrel with
  | .kernel .exec, hrel =>
    have hrel' : s.kernel.head s.kernel.current = some (.lockRelease ftLock) ∧
        .ftRemove ∈ s.stack s.kernel.current := by
      simpa [releasesInRemove] using hrel
    obtain ⟨hhead, hin⟩ := hrel'
    obtain ⟨k', hk', hret⟩ := bind_eq_ok.mp hs
    cases hret
    have hnone : k'.holder ftLock = none := by
      have hd : s.kernel.does .exec = some (.lockRelease ftLock) := hhead
      rw [(step_effect hk').holder, hd]
      simp [Kernel.holderAfter]
    have hsome := h.1 s.kernel.current (List.ne_nil_of_mem hin)
    simp [hnone] at hsome
  | .kernel (.call _), hrel | .kernel .timer, hrel | .kernel (.intrSemaUp _), hrel
  | .kernel (.intrSemaTryDown _), hrel | .kernel (.unblock _), hrel | .start _, hrel
  | .next, hrel => exact hrel rfl

/-- **The frame-table lock covers whole operations.**  In every run of any number of threads: all
    along the run each thread in an operation holds `ft_lock` and is alone in one, exactly if no step
    is the release by `ft_get` inside `ft_remove`. -/
theorem ft_lock_covers (hr : frameTable.machine.Run (.start b) tr s) :
    (∀ x ∈ Machine.states tr s, Exclusive x) ↔ ∀ p ∈ tr, releasesInRemove p.1 p.2 = false :=
  hr.always_iff (fun hg => exclusive_of_guarded hg)
    fun _ _ hs hrel => not_exclusive_of_release hs hrel

/-- One thread adds a frame while another waits to look one up. -/
theorem ft_lock_covers_add : ∃ tr s,
    frameTable.machine.Run (.start Boot.small) tr s ∧ s.stack 1 = [.hashInsert, .ftAdd] ∧
    s.kernel.head 3 = some (.semaRetest (.lock ftLock)) ∧
    ∀ x ∈ Machine.states tr s, Exclusive x := by
  obtain ⟨tr, s, hr, h1, h3, hall⟩ := frameTable.machine.exists_reached (.start Boot.small)
    (inThreads (startUp ++ creates 3 31) ++ [.start (.ftAdd none true)] ++ nexts 1 ++
      inThreads (execs 3) ++ nexts 2 ++ inThreads ([.timer] ++ execs 1) ++ [.start .ftGet] ++
      nexts 1 ++ inThreads (execs 2))
    (fun tr s => s.stack 1 = [.hashInsert, .ftAdd] ∧
      s.kernel.head 3 = some (.semaRetest (.lock ftLock)) ∧
      ∀ p ∈ tr, releasesInRemove p.1 p.2 = false) (by decide +kernel)
  exact ⟨tr, s, hr, h1, h3, (ft_lock_covers hr).mpr hall⟩

/-- **The defect.**  The initial thread removes a frame.  `ft_get` has released the lock; at its
    `hash_delete` the thread is interrupted, and another one gets the lock and inserts a frame. -/
theorem ft_remove_unlocked : ∃ tr s,
    frameTable.machine.Run (.start Boot.small) tr s ∧ s.stack 1 = [.hashDelete, .ftRemove] ∧
    s.stack 3 = [.hashInsert, .ftAdd] ∧ ¬ ∀ x ∈ Machine.states tr s, Exclusive x := by
  obtain ⟨tr, s, hr, h1, h3⟩ := frameTable.machine.exists_reached (.start Boot.small)
    (inThreads (startUp ++ creates 3 31) ++ [.start (.ftAdd none true)] ++ nexts 1 ++
      inThreads (execs 3) ++ nexts 7 ++ inThreads (execs 2) ++
      -- the frame is in the table; now it is removed
      [.start .ftRemove] ++ nexts 1 ++ inThreads (execs 3) ++ nexts 7 ++ inThreads (execs 2) ++
      nexts 1 ++ inThreads ([.timer] ++ execs 1) ++ [.start (.ftAdd none true)] ++ nexts 1 ++
      inThreads (execs 3) ++ nexts 2)
    (fun _ s => s.stack 1 = [.hashDelete, .ftRemove] ∧ s.stack 3 = [.hashInsert, .ftAdd])
    (by decide +kernel)
  refine ⟨tr, s, hr, h1, h3, fun hall => ?_⟩
  have hlast : s ∈ Machine.states tr s := List.mem_append_right _ (List.mem_singleton.mpr rfl)
  have hne : (1 : ThreadRef) ≠ 3 := by decide
  exact hne ((hall s hlast).2 1 3 (by simp [h1]) (by simp [h3]))

end Pintos.Vm.FrameLock
