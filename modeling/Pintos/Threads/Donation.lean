/-
  Priority donation: when is it exact?

  The PURPOSE of donation is an equation: the effective priority of a thread is the maximum of its
  base priority and of the effective priorities of the threads waiting for a lock it holds
  (`Kernel.due`).  The code keeps it by local updates, none of which is right in every state.

  1. **Waiting** (`Kernel.awaits`) — the lock a thread is blocked on in `lock_acquire`, or is about
     to block on after its donation.

  2. **The condition** (`donationOk`) — the walk follows the real waits and never lowers a priority;
     a thread that gets a lock, or goes back to waiting for one, is not outranked by its waiters;
     the first donor kept at a release is the highest remaining waiter; a new base priority is not
     below a waiter that is not registered as a donor.

  3. **The theorem** (`donation_exact`) — the equation holds in every run whose steps meet it.

  4. **The defect** (`low_waiter_is_forgotten`) — a waiter that is too low to donate when it comes
     is never registered, so that lowering the holder's base priority forgets it.
-/
import Pintos.Base.Orders
import Pintos.Threads.Lock
import Pintos.Threads.Priority

namespace Pintos.Threads

open Lib Base Function Kernel Option

namespace Kernel

/-! ## Waiting -/

/-- The lock that `u` waits for in `lock_acquire`: it is blocked on it, or has done with its
    donation and is about to test the semaphore. -/
def awaits (k : Kernel) (u : ThreadRef) : Option LockRef :=
  match k.head u with
  | some (.semaDown (.lock l)) => some l
  | some (.semaRetest (.lock l)) => if u ∈ (k.sema (.lock l)).waiters then some l else none
  | _ => none

/-- The lock that `u` is blocked on in `lock_acquire`. -/
def blockedIn (k : Kernel) (u : ThreadRef) : Option LockRef :=
  match k.head u with
  | some (.semaRetest (.lock l)) => if u ∈ (k.sema (.lock l)).waiters then some l else none
  | _ => none

/-- The threads whose lock, according to `f`, is held by `t`. -/
def heldUp (k : Kernel) (f : ThreadRef → Option LockRef) (t : ThreadRef) : List ThreadRef :=
  k.allList.filter fun u => (f u).any fun l => k.holder l = some t

/-- The maximum of the base priority of `t` and of the effective priorities of `us`. -/
def due (k : Kernel) (us : List ThreadRef) (t : ThreadRef) : Int :=
  us.foldr (fun u m => max (k.prio u) m) (k.base t)

/-- The threads waiting for a lock other than `l` that `t` holds. -/
def otherWaiters (k : Kernel) (t : ThreadRef) (l : LockRef) : List ThreadRef :=
  k.allList.filter fun u => (k.awaits u).any fun l' => l' ≠ l ∧ k.holder l' = some t

/-! ## The condition -/

/-- The donation reaches the right threads: none above the priority it brings; from a thread that
    waits for a lock it goes on to the holder, unless that has the priority already; and it goes
    along real waits only. -/
def chainOk (k : Kernel) (l : LockRef) : Prop := ∀ h ∈ k.donees l, k.prio h ≤ k.prio k.current ∧
    (∀ l' ∈ k.awaits h, ∀ q ∈ k.holder l', q ∈ k.donees l ∨ k.prio k.current ≤ k.prio q) ∧
    (k.holder l = some h ∨ ∃ h' ∈ k.donees l, ∃ l' ∈ k.awaits h', k.holder l' = some h)

/-- The release restores the right priority.  Without donors the priority stays: it has to be due to
    the base or to a remaining waiter.  With no donor kept it is the base: no remaining waiter is
    above.  Otherwise it is that of the first donor kept, which has to be the highest there is. -/
def releaseOk (k : Kernel) (l : LockRef) : Prop := ((k.thread k.current).donorThreads = [] →
    k.prio k.current = k.base k.current ∨
      ∃ u ∈ k.otherWaiters k.current l, k.prio u = k.prio k.current) ∧
  ((k.thread k.current).donorThreads ≠ [] → k.keptDonors k.current l = [] →
    ∀ u ∈ k.otherWaiters k.current l, k.prio u ≤ k.base k.current) ∧
  ((k.thread k.current).donorThreads ≠ [] → ∀ d ∈ (k.keptDonors k.current l).head?,
    k.base k.current ≤ k.prio d ∧ (∀ u ∈ k.otherWaiters k.current l, k.prio u ≤ k.prio d) ∧
      (k.prio d = k.base k.current ∨ ∃ u ∈ k.otherWaiters k.current l, k.prio u = k.prio d))

/-- The new base priority `p` is right.  Without donors it becomes the priority, so no waiter is
    above it; with donors, and below the priority, the priority stays, so a waiter has it. -/
def setOk (k : Kernel) (p : Int) : Prop := ((k.thread k.current).donorThreads = [] →
    ∀ u ∈ k.heldUp k.awaits k.current, k.prio u ≤ p) ∧
  ((k.thread k.current).donorThreads ≠ [] → p < k.prio k.current →
    ∃ u ∈ k.heldUp k.awaits k.current, k.prio u = k.prio k.current)

end Kernel

open Kernel

instance (k : Kernel) (l : LockRef) : Decidable (k.chainOk l) :=
  inferInstanceAs (Decidable (∀ h ∈ k.donees l, _ ∧ _ ∧ _))

instance (k : Kernel) (l : LockRef) : Decidable (k.releaseOk l) :=
  inferInstanceAs (Decidable (_ ∧ _ ∧ _))

instance (k : Kernel) (p : Int) : Decidable (k.setOk p) := inferInstanceAs (Decidable (_ ∧ _))

/-- **The condition on a step.**  Threads do not exit and no lock is tried. -/
def donationOk (k : Kernel) (a : Action) : Bool :=
  match k.does a with
  | some (.lockAcquire l) => !k.donates l || decide (k.chainOk l)
  | some (.semaRetest (.lock l)) =>
    decide ((k.sema (.lock l)).value = 0 → ∀ o ∈ k.holder l, k.prio k.current ≤ k.prio o)
  | some (.lockHold l) =>
    decide (∀ u ∈ k.allList, k.awaits u = some l → k.prio u ≤ k.prio k.current)
  | some (.lockRelease l) => decide (k.releaseOk l)
  | some (.threadSetPriority p _) => decide (p ≤ 63 ∧ 0 ≤ p → k.setOk p)
  | some .threadExit | some (.lockTryAcquire _) => false
  | _ => true

/-! ## Who waits for what, after a step -/

variable {b : Boot} {k k' : Kernel} {a : Action} {u t : ThreadRef} {l : LockRef}

theorem awaits_eq_some : k.awaits u = some l ↔ k.head u = some (.semaDown (.lock l)) ∨
    (k.head u = some (.semaRetest (.lock l)) ∧ u ∈ (k.sema (.lock l)).waiters) := by
  unfold awaits
  split
  · grind
  · grind
  · grind

/-- A thread that waits is alive, and if it is the current one it is about to block. -/
theorem awaits_mem (hl : Alive b k) (h : k.awaits u = some l) : u ∈ k.allList := by
  refine hl.codeAlive u fun hc => ?_
  rcases awaits_eq_some.mp h with hh | ⟨hh, -⟩ <;> rw [head, hc] at hh <;> simp at hh

theorem not_awaits_of_head {i : Instr} (hi : k.head u = some i)
    (h1 : ∀ l, i ≠ .semaDown (.lock l)) (h2 : ∀ l, i ≠ .semaRetest (.lock l)) :
    k.awaits u ≠ some l := by
  intro h
  rcases awaits_eq_some.mp h with hh | ⟨hh, -⟩ <;> rw [hi] at hh
  · exact h1 l (some.inj hh)
  · exact h2 l (some.inj hh)

/-- The step makes the current thread wait for `l`: it is `lock_acquire`, or a woken thread finds the
    lock taken. -/
def startsWait (k : Kernel) (a : Action) (l : LockRef) : Prop := k.does a = some (.lockAcquire l) ∨
    (k.does a = some (.semaRetest (.lock l)) ∧ (k.sema (.lock l)).value = 0)

/-- **New waits** are those of the current thread. -/
theorem awaits_step (he : RunStep b k a k') (h : k'.awaits u = some l) :
    k.awaits u = some l ∨ (u = k.current ∧ startsWait k a l) := by
  rcases awaits_eq_some.mp h with hh | ⟨hh, hw⟩
  · rcases he.head_step hh rfl (by simp) (by simp) with
      ⟨hk, -⟩ | ⟨rfl, rfl, i, hi, hinto⟩
    · exact .inl (awaits_eq_some.mpr (.inl hk))
    · cases hinto
      exact .inr ⟨rfl, .inl hi⟩
  · rcases he.head_step hh rfl (by simp) (by simp) with
      ⟨hk, hne⟩ | ⟨rfl, rfl, i, hi, hinto⟩
    · -- it did not execute, so it was on the wait list before
      refine .inl (awaits_eq_some.mpr (.inr ⟨hk, ?_⟩))
      have hdown : (k.does a = some (.semaDown (.lock l)) ∨
          k.does a = some (.semaRetest (.lock l))) → u ≠ k.current := by
        intro hd heq
        rcases hd with hd | hd
        · exact hne heq (exec_of_does he.possible hd).1
        · exact hne heq (exec_of_does he.possible hd).1
      rcases he.sema_cases (s := .lock l) (by simp) with
        ⟨hs, -⟩ | ⟨hd, -, hs⟩ | ⟨-, -, hs⟩ | ⟨-, hs⟩ | ⟨-, hs⟩ <;> rw [hs] at hw
      · exact hw
      · rcases mem_listInsertOrdered.mp hw with hx | hx
        · exact absurd hx (hdown hd)
        · exact hx
      · exact hw
      · exact hw
      · exact mem_listSort.mp (List.mem_of_mem_tail hw)
    · cases hinto with
      | block => exact .inl (awaits_eq_some.mpr (.inl hi))
      | blockAgain hv => exact .inr ⟨rfl, .inr ⟨hi, hv⟩⟩

/-- **Waits last** as long as the lock is held. -/
theorem awaits_keep (he : RunStep b k a k') (hs : LockState l k) (hh : k.holder l = some t)
    (h : k.awaits u = some l) : k'.awaits u = some l := by
  -- a held lock has value 0 and nobody is in a gap
  obtain ⟨hv, hset⟩ := hs.of_holder hh
  have hup : k.does a ≠ some (.semaUp (.lock l)) := fun hd =>
    hset k.current (.inr (.inr (exec_of_does he.possible hd).2))
  rcases awaits_eq_some.mp h with hk | ⟨hk, hw⟩
  · by_cases hx : u = k.current ∧ a = .exec
    · -- it executes the test, finds zero and blocks
      obtain ⟨rfl, rfl⟩ := hx
      refine awaits_eq_some.mpr (.inr ⟨?_, ?_⟩)
      · exact he.head_current hk (by simp) (by simp only [leaves, if_pos hv]; rfl)
      · rw [he.sema, show k.does .exec = _ from hk]
        simp [semaAfter, hv]
    · exact awaits_eq_some.mpr (.inl (he.head_keep hk fun h1 h2 => hx ⟨h1, h2⟩))
  · have hne : u ≠ k.current := he.alive.ne_current (by rw [(he.alive.waiting _ u hw).2.1]; decide)
    refine awaits_eq_some.mpr (.inr ⟨he.head_keep hk fun h1 => absurd h1 hne, ?_⟩)
    rcases he.sema_cases (s := .lock l) (by simp) with
      ⟨hs, -⟩ | ⟨-, -, hs⟩ | ⟨-, -, hs⟩ | ⟨-, hs⟩ | ⟨hd, -⟩
    · rw [hs]; exact hw
    · rw [hs]; exact mem_listInsertOrdered.mpr (.inr hw)
    · rw [hs]; exact hw
    · rw [hs]; exact hw
    · exact absurd hd hup

/-! ## The invariant -/

/-- `p` is the maximum of the base priority of `t` and of the priorities of the threads that wait
    for a lock `t` holds. -/
structure IsDue (k : Kernel) (t : ThreadRef) (p : Int) : Prop where
  base : k.base t ≤ p
  above : ∀ l u, k.holder l = some t → k.awaits u = some l → k.prio u ≤ p
  reached : p = k.base t ∨ ∃ l u, k.holder l = some t ∧ k.awaits u = some l ∧ k.prio u = p

/-- **The donation invariant.** -/
structure Exact (k : Kernel) : Prop where
  due : ∀ t ∈ k.allList, IsDue k t (k.prio t)
  holderAlive : ∀ l t, k.holder l = some t → t ∈ k.allList
  locks : ∀ l, LockState l k

namespace Exact

theorem mem_waiting (hl : Alive b k) {P : LockRef → Bool} :
    u ∈ k.allList.filter (fun u => (k.awaits u).any P) ↔ ∃ l, k.awaits u = some l ∧ P l = true := by
  rw [List.mem_filter, any_eq_true]
  refine ⟨And.right, ?_⟩
  rintro ⟨l, hw, hp⟩
  exact ⟨awaits_mem hl hw, l, hw, hp⟩

theorem mem_heldUp (hl : Alive b k) :
    u ∈ k.heldUp k.awaits t ↔ ∃ l, k.awaits u = some l ∧ k.holder l = some t := by
  rw [heldUp, mem_waiting hl]
  simp

theorem mem_otherWaiters (hl : Alive b k) :
    u ∈ k.otherWaiters t l ↔ ∃ l', k.awaits u = some l' ∧ l' ≠ l ∧ k.holder l' = some t := by
  rw [otherWaiters, mem_waiting hl]
  simp

/-! ### The steps that change a priority or a holder -/

section

variable (h : Exact k) (he : RunStep b k a k')
include h he

variable {p : Int}

/-- `p` is due to `t` after the step, if it is the maximum of the base and of the priorities of those
    that waited for the locks of `t` or begin to. -/
theorem due_of (hbase : k'.base t ≤ p)
    (habove : ∀ l u, k'.holder l = some t → k.awaits u = some l → k'.prio u ≤ p)
    (hnew : ∀ l, k'.holder l = some t → startsWait k a l → k'.prio k.current ≤ p)
    (hreach : p = k'.base t ∨ ∃ l u, k.holder l = some t ∧ k'.holder l = some t ∧
      k.awaits u = some l ∧ k'.prio u = p) : IsDue k' t p := by
  refine ⟨hbase, fun l u hh hw => ?_, hreach.imp_right ?_⟩
  · rcases awaits_step he hw with hw | ⟨rfl, hx⟩
    · exact habove l u hh hw
    · exact hnew l hh hx
  · rintro ⟨l, u, hk, hh, hw, hp⟩
    exact ⟨l, u, hh, awaits_keep he (h.locks l) hk hw, hp⟩

/-- What a step changes is only seen by the threads it concerns: if the priorities, the base and
    the locks of `t` are as before and every new wait for a lock of `t` is covered, `t` still has
    its due. -/
theorem frame (ht : t ∈ k.allList) (hbase : k'.base t = k.base t) (hprio : k'.prio t = k.prio t)
    (hholder : ∀ l, k'.holder l = some t ↔ k.holder l = some t)
    (hwaiter : ∀ l u, k.awaits u = some l → k'.prio u = k.prio u)
    (hnew : ∀ l, k.holder l = some t → startsWait k a l → k'.prio k.current ≤ k.prio t) :
    IsDue k' t (k'.prio t) := by
  have hd := h.due t ht
  rw [hprio]
  refine h.due_of he (hbase ▸ hd.base) (fun l u hh hw => ?_)
    (fun l hh => hnew l ((hholder l).mp hh)) ?_
  · rw [hwaiter l u hw]
    exact hd.above l u ((hholder l).mp hh) hw
  · rw [hbase]
    refine hd.reached.imp_right ?_
    rintro ⟨l, u, hh, hw, hp⟩
    exact ⟨l, u, hh, (hholder l).mpr hh, hw, (hwaiter l u hw).trans hp⟩

theorem acquire (hd : k.does a = some (.lockAcquire l))
    (hprio : k'.prio = k.prioAfter (.lockAcquire l)) (hbase : k'.base = k.base)
    (hholder : k'.holder = k.holder) (hok : k.donates l = true → k.chainOk l)
    (ht : t ∈ k.allList) : IsDue k' t (k'.prio t) := by
  have hlock : ∀ {l'}, startsWait k a l' → l' = l := by
    rintro l' (hx | ⟨hx, -⟩) <;> grind
  by_cases hdon : k.donates l = true
  · -- every donee gets the priority of the current thread, everybody else keeps its own
    have hchain := hok hdon
    have hval : ∀ x, k'.prio x =
        if x ∈ k.donees l then k.prio k.current else k.prio x := by
      intro x
      rw [hprio]
      simp only [prioAfter, hdon, true_and]
    have hcur : k'.prio k.current = k.prio k.current := by rw [hval]; split <;> rfl
    have hmono : ∀ x, k.prio x ≤ k'.prio x := by
      intro x
      rw [hval]
      split
      · exact (hchain x ‹_›).1
      · exact Int.le_refl _
    obtain ⟨o, ho⟩ : ∃ o, k.holder l = some o := by
      unfold donates at hdon
      split at hdon
      · cases hdon
      · exact ⟨_, ‹_›⟩
    have hofirst : o ∈ k.donees l := by
      unfold donees
      rw [walk]
      simp only [ho]
      exact List.mem_cons_self ..
    have hdue := h.due t ht
    have hup : ∀ l' u, k.holder l' = some t → k.awaits u = some l' → k'.prio u ≤ k'.prio t := by
      intro l' u hh hw
      rw [hval u]
      split
      · rename_i hu
        rcases (hchain u hu).2.1 l' hw t hh with hq | hq
        · exact Int.le_of_eq (by rw [hval t, if_pos hq])
        · exact Int.le_trans hq (hmono t)
      · exact Int.le_trans (hdue.above l' u hh hw) (hmono t)
    refine ⟨by rw [hbase]; exact Int.le_trans hdue.base (hmono t), fun l' u hh hw => ?_, ?_⟩
    · rw [hholder] at hh
      rcases awaits_step he hw with hw | ⟨rfl, hx⟩
      · exact hup l' u hh hw
      · -- the current thread waits for a lock of `t': it is the first donee
        obtain rfl := hlock hx
        obtain rfl : o = t := some.inj (ho.symm.trans hh)
        exact Int.le_of_eq (by rw [hcur, hval o, if_pos hofirst])
    · rw [hbase, hholder]
      by_cases htd : t ∈ k.donees l
      · refine .inr ?_
        rw [hval t, if_pos htd]
        rcases (hchain t htd).2.2 with hx | ⟨h', hh', l', hw, hh⟩
        · -- the new wait of the current thread
          obtain ⟨rfl, hi⟩ := exec_of_does he.possible hd
          refine ⟨l, k.current, hx, awaits_eq_some.mpr (.inl ?_), hcur⟩
          exact he.head_current hi (by simp) rfl
        · refine ⟨l', h', hh, awaits_keep he (h.locks l') hh hw, ?_⟩
          rw [hval h', if_pos hh']
      · refine hdue.reached.imp (fun hr => by rwa [hval t, if_neg htd]) ?_
        rintro ⟨l', u, hh, hw, hpu⟩
        refine ⟨l', u, hh, awaits_keep he (h.locks l') hh hw, ?_⟩
        -- its waiter had the priority of `t' and has no more now
        refine Int.le_antisymm (hup l' u hh hw) ?_
        rw [hval t, if_neg htd, ← hpu]
        exact hmono u
  · -- the holder is not below the current thread
    have hval : k'.prio = k.prio := by
      rw [hprio]
      funext x
      simp [prioAfter, hdon]
    refine h.frame he ht (by rw [hbase]) (by rw [hval]) (fun l' => by rw [hholder])
      (fun _ _ _ => by rw [hval]) fun l' hh hx => ?_
    obtain rfl := hlock hx
    rw [hval]
    unfold donates at hdon
    simp only [hh, decide_eq_true_eq, Int.not_lt] at hdon
    exact hdon

/-- A step in which the current thread `t` changes ITS priority and begins no wait: its waiters for
    the locks it keeps decide. -/
theorem due_current {w : List ThreadRef} (hnone : ∀ l, ¬ startsWait k a l)
    (hother : ∀ u, u ≠ k.current → k'.prio u = k.prio u) (hcurw : ∀ l, k.awaits k.current ≠ some l)
    (hwaits : ∀ u, u ∈ w ↔ ∃ l, k.awaits u = some l ∧ k.holder l = some k.current ∧
      k'.holder l = some k.current)
    (hgain : ∀ l, k'.holder l = some k.current → k.holder l = some k.current)
    (hbase : k'.base k.current ≤ p) (habove : ∀ u ∈ w, k.prio u ≤ p)
    (hreach : p = k'.base k.current ∨ ∃ u ∈ w, k.prio u = p) : IsDue k' k.current p := by
  have hkeep : ∀ l u, k.awaits u = some l → k'.prio u = k.prio u := fun l u hw =>
    hother u fun heq => hcurw l (heq ▸ hw)
  refine h.due_of he hbase (fun l u hh hw => ?_) (fun l _ hx => absurd hx (hnone l)) ?_
  · rw [hkeep l u hw]
    exact habove u ((hwaits u).mpr ⟨l, hw, hgain l hh, hh⟩)
  · refine hreach.imp_right ?_
    rintro ⟨u, hu, hp⟩
    obtain ⟨l, hw, hk, hh⟩ := (hwaits u).mp hu
    exact ⟨l, u, hk, hh, hw, (hkeep l u hw).trans hp⟩

/-- `lock_release (l)`: the current thread gives up the lock and the priority it had for it. -/
theorem release (hd : k.does a = some (.lockRelease l))
    (hprio : k'.prio = k.prioAfter (.lockRelease l)) (hbase : k'.base = k.base)
    (hholder : k'.holder = update k.holder l none) (hok : k.releaseOk l)
    (ht : t ∈ k.allList) : IsDue k' t (k'.prio t) := by
  have hi := (exec_of_does he.possible hd).2
  have hcurw : ∀ l', k.awaits k.current ≠ some l' := fun l' =>
    not_awaits_of_head hi (by simp) (by simp)
  have hother : ∀ u, u ≠ k.current → k'.prio u = k.prio u := fun u hu => by
    rw [hprio]
    exact update_of_ne hu ..
  have hnone : ∀ l', ¬ startsWait k a l' := by
    unfold startsWait
    simp [hd]
  have hheld : k.holder l = some k.current := he.held _ l hd rfl
  have hholds : ∀ l' x, k'.holder l' = some x ↔ l' ≠ l ∧ k.holder l' = some x := by
    intro l' x
    rw [hholder]
    by_cases hx : l' = l
    · subst hx; simp
    · simp [hx]
  by_cases htc : t = k.current
  · -- the remaining waiters decide
    subst htc
    have hdue := h.due _ ht
    have hmax := fun p => h.due_current he (p := p) hnone hother hcurw
      (w := k.otherWaiters k.current l) (fun u => by rw [mem_otherWaiters he.alive]; grind)
      (fun l' hh => ((hholds l' _).mp hh).2)
    rw [hbase] at hmax
    rw [show k'.prio k.current = k.restoredPriority k.current l from
      hprio ▸ update_self ..]
    unfold restoredPriority
    obtain ⟨hnd, hnk, hkept⟩ := hok
    by_cases hdon : (k.thread k.current).donorThreads = []
    · rw [if_pos hdon]
      refine hmax _ hdue.base (fun u hu => ?_) (hnd hdon)
      obtain ⟨l', hw, -, hh⟩ := (mem_otherWaiters he.alive).mp hu
      exact hdue.above l' u hh hw
    · rw [if_neg hdon]
      cases hk : k.keptDonors k.current l with
      | nil => exact hmax _ (Int.le_refl _) (hnk hdon hk) (.inl rfl)
      | cons d =>
        obtain ⟨h1, h2, h3⟩ := hkept hdon d (by rw [hk]; rfl)
        exact hmax _ h1 h2 h3
  · refine h.frame he ht (by rw [hbase]) (hother t htc) (fun l' => ?_)
      (fun l' u hw => hother u fun heq => hcurw l' (heq ▸ hw)) fun l' _ hx => absurd hx (hnone l')
    grind

theorem setPriority {junk : Int} (hd : k.does a = some (.threadSetPriority p junk))
    (hprio : k'.prio = k.prioAfter (.threadSetPriority p junk))
    (hbase : k'.base = k.baseAfter (.threadSetPriority p junk)) (hholder : k'.holder = k.holder)
    (hok : p ≤ 63 ∧ 0 ≤ p → k.setOk p) (ht : t ∈ k.allList) : IsDue k' t (k'.prio t) := by
  have hi := (exec_of_does he.possible hd).2
  have hcurw : ∀ l', k.awaits k.current ≠ some l' := fun l' =>
    not_awaits_of_head hi (by simp) (by simp)
  have hnone : ∀ l, ¬ startsWait k a l := by
    unfold startsWait
    simp [hd]
  have hother : ∀ u, u ≠ k.current → k'.prio u = k.prio u ∧ k'.base u = k.base u := by
    intro u hu
    rw [hprio, hbase]
    simp only [prioAfter, baseAfter]
    constructor <;> split <;> simp [hu]
  by_cases htc : t = k.current
  · subst htc
    have hdue := h.due _ ht
    have hmax := fun p => h.due_current he (p := p) hnone (fun u hu => (hother u hu).1)
      hcurw (w := k.heldUp k.awaits k.current)
      (fun u => by rw [mem_heldUp he.alive, hholder]; grind) (fun l' hh => hholder ▸ hh)
    have habove : ∀ u ∈ k.heldUp k.awaits k.current, k.prio u ≤ k.prio k.current := by
      intro u hu
      obtain ⟨l, hw, hh⟩ := (mem_heldUp he.alive).mp hu
      exact hdue.above l u hh hw
    by_cases hp : p ≤ 63 ∧ 0 ≤ p
    · have hb : k'.base k.current = p := by
        rw [hbase]
        simp [baseAfter, hp]
      obtain ⟨hnd, hwd⟩ := hok hp
      rw [hb] at hmax
      by_cases hdon : (k.thread k.current).donorThreads = [] ∨ k.prio k.current < p
      · -- the priority becomes `p'
        have hv : k'.prio k.current = p := by
          rw [hprio]
          simp only [prioAfter, hp, hdon, and_self, if_true]
          exact update_self ..
        rw [hv]
        refine hmax _ (Int.le_refl _) (fun u hu => ?_) (.inl rfl)
        rcases hdon with hnil | hlt
        · exact hnd hnil u hu
        · exact Int.le_trans (habove u hu) (Int.le_of_lt hlt)
      · -- the priority stays
        have hv : k'.prio k.current = k.prio k.current := by
          rw [hprio]
          simp only [prioAfter, hdon, and_false, if_false]
        rw [not_or, Int.not_lt] at hdon
        rw [hv]
        refine hmax _ hdon.2 habove ?_
        by_cases heq : k.prio k.current = p
        · exact .inl heq
        · exact .inr (hwd hdon.1 (by omega))
    · -- out of range: nothing happens
      have hv : k'.prio k.current = k.prio k.current := by
        rw [hprio]
        simp only [prioAfter, hp, false_and, if_false]
      have hb : k'.base k.current = k.base k.current := by
        rw [hbase]
        simp only [baseAfter, hp, if_false]
      rw [hb] at hmax
      rw [hv]
      refine hmax _ hdue.base habove (hdue.reached.imp_right ?_)
      rintro ⟨l, u, hh, hw, hq⟩
      exact ⟨u, (mem_heldUp he.alive).mpr ⟨l, hw, hh⟩, hq⟩
  · exact h.frame he ht (hother t htc).2 (hother t htc).1 (fun l' => by rw [hholder])
      (fun l' u hw => (hother u fun heq => hcurw l' (heq ▸ hw)).1)
      fun l' _ hx => absurd hx (hnone l')

/-- `lock_acquire (l)` is over: the waiters of `l` are waiters of the current thread now. -/
theorem hold (hd : k.does a = some (.lockHold l))
    (hprio : k'.prio = k.prio) (hbase : k'.base = k.base)
    (hholder : k'.holder = update k.holder l (some k.current))
    (hok : ∀ u ∈ k.allList, k.awaits u = some l → k.prio u ≤ k.prio k.current)
    (ht : t ∈ k.allList) : IsDue k' t (k'.prio t) := by
  have hi := (exec_of_does he.possible hd).2
  -- it had no holder: the current thread was in the gap
  have hfree := ((h.locks l).of_gap (.inl hi)).2.1
  have hdue := h.due t ht
  rw [hprio]
  refine h.due_of he (hbase ▸ hdue.base) (fun l' u hh hw => ?_)
    (fun l' _ hx => absurd hx (by unfold startsWait; simp [hd])) ?_
  · rw [hprio]
    by_cases hne : l' = l
    · subst hne
      rw [hholder, update_self] at hh
      cases hh
      exact hok u (awaits_mem he.alive hw) hw
    · rw [hholder, update_of_ne hne] at hh
      exact hdue.above l' u hh hw
  · rw [hbase, hprio]
    refine hdue.reached.imp_right ?_
    rintro ⟨l', u, hh, hw, hp⟩
    have hne : l' ≠ l := by grind
    exact ⟨l', u, hh, by rwa [hholder, update_of_ne hne], hw, hp⟩

/-- `thread_create (p)`: the new thread holds nothing and waits for nothing. -/
theorem create (hd : k.does a = some (.threadCreate t p)) (hprio : k'.prio = update k.prio t p)
    (hbase : k'.base = update k.base t p) (hholder : k'.holder = k.holder)
    (hnew : t ∉ k.allList) {x : ThreadRef} (hx : x ∈ k.allList ∨ x = t) :
    IsDue k' x (k'.prio x) := by
  have hother : ∀ u ∈ k.allList, k'.prio u = k.prio u ∧ k'.base u = k.base u := by
    intro u hu
    have hne : u ≠ t := fun heq => hnew (heq ▸ hu)
    rw [hprio, hbase]
    exact ⟨update_of_ne hne .., update_of_ne hne ..⟩
  rcases hx with hx | rfl
  · exact h.frame he hx (hother x hx).2 (hother x hx).1 (fun l' => by rw [hholder])
      (fun l' u hw => (hother u (awaits_mem he.alive hw)).1)
      fun l' _ hy => absurd hy (by unfold startsWait; simp [hd])
  · have hb : k'.base x = p := by rw [hbase]; exact update_self ..
    have hp : k'.prio x = p := by rw [hprio]; exact update_self ..
    rw [hp]
    refine ⟨Int.le_of_eq hb, fun l' u hh _ => ?_, .inl hb.symm⟩
    rw [hholder] at hh
    exact absurd (h.holderAlive l' x hh) hnew

/-- **One step** keeps donation exact, under the condition. -/
theorem step (hp : k'.prio = (k.does a).elim k.prio k.prioAfter ∧
      k'.base = (k.does a).elim k.base k.baseAfter) (hg : donationOk k a = true) : Exact k' := by
  have htry : ∀ l, noFreeTry l k a := by
    intro l hd
    simp [donationOk, hd] at hg
  refine ⟨fun t ht => ?_, fun l t hh => ?_, fun l => (h.locks l).step he (htry l)⟩
  · have hall := he.allList
    have hholder := he.holder
    cases hd : k.does a with
    | none =>
      rw [hd] at hp hall hholder
      rw [hall] at ht
      exact h.frame he ht (by rw [hp.2]; rfl) (by rw [hp.1]; rfl)
        (fun l => by rw [hholder]; rfl) (fun _ _ _ => by rw [hp.1]; rfl)
        fun l _ hx => by simp [startsWait, hd] at hx
    | some i =>
      rw [hd] at hp hall hholder
      unfold donationOk at hg
      rw [hd] at hg
      -- the instructions that concern neither priorities nor holders nor waits
      have hquiet : (∀ l, i ≠ .lockAcquire l) → (∀ l, i ≠ .semaRetest (.lock l)) →
          k.allAfter i = k.allList → k.holderAfter i = k.holder → k.prioAfter i = k.prio →
          k.baseAfter i = k.base → IsDue k' t (k'.prio t) := by
        intro h1 h2 ha' hh' hp' hb'
        have hprio : k'.prio = k.prio := hp.1.trans hp'
        have hbase : k'.base = k.base := hp.2.trans hb'
        have hhold : k'.holder = k.holder := hholder.trans hh'
        rw [show k'.allList = k.allList from hall.trans ha'] at ht
        refine h.frame he ht (by rw [hbase]) (by rw [hprio]) (fun l => by rw [hhold])
          (fun _ _ _ => by rw [hprio]) fun l _ hx => ?_
        rcases hx with hx | ⟨hx, -⟩ <;> grind
      have hin : k.allAfter i = k.allList → t ∈ k.allList := fun hx => by
        rwa [show k'.allList = k.allList from hall.trans hx] at ht
      cases i with
      | lockAcquire =>
        refine h.acquire he hd hp.1 hp.2 hholder (fun hdon => ?_) (hin rfl)
        simpa [hdon] using hg
      | semaRetest s =>
        cases s with
        | lock l =>
          have hok : (k.sema (.lock l)).value = 0 → ∀ o ∈ k.holder l,
              k.prio k.current ≤ k.prio o := of_decide_eq_true hg
          have hprio : k'.prio = k.prio := hp.1
          rw [show k'.allList = k.allList from hall] at ht
          refine h.frame he ht (by rw [hp.2]; rfl) (by rw [hprio])
            (fun l => by rw [hholder]; rfl) (fun _ _ _ => by rw [hprio]) fun l' hh hx => ?_
          rw [hprio]
          rcases hx with hx | ⟨hx, hv⟩ <;> grind
        | user => exact hquiet (by simp) (by simp) rfl rfl rfl rfl
        | waiter => exact hquiet (by simp) (by simp) rfl rfl rfl rfl
      | lockHold =>
        exact h.hold he hd hp.1 hp.2 hholder (of_decide_eq_true hg) (hin rfl)
      | lockTryHold l =>
        -- nobody gets there
        exfalso
        have hi := (exec_of_does he.possible hd).2
        exact ((h.locks l).of_gap (.inr (.inl hi))).2.2.1 hi
      | lockRelease =>
        exact h.release he hd hp.1 hp.2 hholder (of_decide_eq_true hg) (hin rfl)
      | threadSetPriority =>
        exact h.setPriority he hd hp.1 hp.2 hholder (of_decide_eq_true hg) (hin rfl)
      | threadCreate u =>
        have hu : u ∉ k.allList := by
          obtain ⟨rfl, hi⟩ := exec_of_does he.possible hd
          simpa [enabled, hi, runnable] using he.possible
        refine h.create he hd hp.1 hp.2 hholder hu ?_
        rw [show k'.allList = k.allList ++ [u] from hall] at ht
        simpa using ht
      | threadExit => cases hg
      | lockTryAcquire => cases hg
      | _ => exact hquiet (by simp) (by simp) rfl rfl rfl rfl
  · -- a holder is a thread that was alive, or the current one; nobody has exited
    have hkept : ∀ x ∈ k.allList, x ∈ k'.allList := by
      intro x hx
      rw [he.allList]
      cases hd : k.does a with
      | none => exact hx
      | some i =>
        cases i with
        | threadCreate => exact List.mem_append_left _ hx
        | threadExit => simp [donationOk, hd] at hg
        | _ => exact hx
    rw [he.holder] at hh
    cases hd : k.does a with
    | none =>
      rw [hd] at hh
      exact hkept t (h.holderAlive l t hh)
    | some i =>
      rw [hd] at hh
      cases i with
      | lockHold l' | lockTryHold l' =>
        by_cases hne : l = l'
        · subst hne
          simp only [Option.elim, holderAfter, update_self] at hh
          exact hkept t (some.inj hh ▸ he.cur)
        · simp only [Option.elim, holderAfter, update_of_ne hne] at hh
          exact hkept t (h.holderAlive l t hh)
      | lockRelease l' =>
        by_cases hne : l = l'
        · subst hne
          simp [holderAfter] at hh
        · simp only [Option.elim, holderAfter, update_of_ne hne] at hh
          exact hkept t (h.holderAlive l t hh)
      | _ => exact hkept t (h.holderAlive l t hh)

end

theorem init (b : Boot) : Exact (boot b) := by
  refine ⟨fun t _ => ?_, fun l t hh => absurd hh (by simp [boot]), LockState.init b⟩
  have heq : (boot b).prio t = (boot b).base t := by
    simp only [prio, base, boot, Boot.thread]
    split
    · rfl
    · split <;> rfl
  exact ⟨Int.le_of_eq heq.symm, fun l u hh _ => absurd hh (by simp [boot]), .inl heq⟩

end Exact

/-! ## Exact donation -/

/-- **Donation is exact** with the priority scheduler, on every run whose steps meet the condition:
    the effective priority of every thread is the maximum of its base priority and of the effective
    priorities of the threads that wait for a lock it holds.  Where no thread stands between its
    donation and its test of the semaphore, those are the threads blocked in `lock_acquire`. -/
theorem donation_exact (_hm : b.mlfqs = false) {tr : List (Kernel × Action)}
    (h : (kernelMachine.guard fun k a => donationOk k a = true).Run (boot b) tr k) :
    (∀ t ∈ k.allList, k.prio t = k.due (k.heldUp k.awaits t) t) ∧
    ((∀ u l, k.head u ≠ some (.semaDown (.lock l))) →
      ∀ t ∈ k.allList, k.prio t = k.due (k.heldUp k.blockedIn t) t) := by
  have hinv : Exact k := by
    refine h.history (J := fun _ k => Exact k) (Exact.init b) ?_
    rintro tr k a k' hr hi ⟨ha, hg⟩ hstep
    exact hi.step (run_step hr.of_guard ha hstep) ⟨(step_record hstep).prio, (step_record hstep).base⟩ hg
  have hl := (run_sound h.of_guard).1
  have hall : ∀ t ∈ k.allList, k.prio t = k.due (k.heldUp k.awaits t) t := by
    intro t ht
    have hdue := hinv.due t ht
    refine maxOver_eq_iff.mpr ⟨hdue.base, fun u hu => ?_, hdue.reached.imp_right ?_⟩
    · obtain ⟨l, hw, hh⟩ := (Exact.mem_heldUp hl).mp hu
      exact hdue.above l u hh hw
    · rintro ⟨l, u, hh, hw, hp⟩
      exact ⟨u, (Exact.mem_heldUp hl).mpr ⟨l, hw, hh⟩, hp⟩
  refine ⟨hall, fun hset t ht => ?_⟩
  have hsame : k.blockedIn = k.awaits := by
    funext u
    unfold blockedIn awaits
    cases hh : k.head u with
    | none => rfl
    | some i =>
      cases i with
      | semaDown => grind
      | semaRetest s => cases s <;> rfl
      | _ => rfl
  rw [hsame]
  exact hall t ht

/-- A thread of priority 40 waits for a lock of the initial thread, which has priority 40 for it. -/
theorem donation_exact_one_donor : ∃ tr k,
    (kernelMachine.guard fun k a => donationOk k a = true).Run (boot Boot.small) tr k ∧
    k.heldUp k.awaits 1 = [3] ∧ k.prio 1 = 40 ∧ k.base 1 = 31 ∧
    k.prio 1 = k.due (k.heldUp k.awaits 1) 1 := by
  obtain ⟨tr, k, hr, h1, h2, h3, h4⟩ :=
    (kernelMachine.guard fun k a => donationOk k a = true).exists_reached (boot Boot.small)
      (startUp ++ calls (.lockAcquire 1) 3 ++ creates 3 40 ++ execs 1 ++ calls (.lockAcquire 1) 2)
      (fun _ k => 1 ∈ k.allList ∧ k.heldUp k.awaits 1 = [3] ∧ k.prio 1 = 40 ∧
        k.base 1 = 31) (by decide +kernel)
  exact ⟨tr, k, hr, h2, h3, h4, (donation_exact rfl hr).1 1 h1⟩

/-- The operations that donation is about: threads are created, acquire and release locks and set
    their priorities, and the scheduler runs. -/
def isDonationOp : Action → Bool
  | .exec | .timer => true
  | .call (.threadCreate _ _) | .call (.lockAcquire _) | .call (.lockRelease _)
  | .call (.threadSetPriority _ _) => true
  | _ => false

/-- **The defect.**  The initial thread holds a lock and has lowered its priority to 20; thread 3, of
    priority 20, waits for the lock and has not donated; the initial thread lowers its priority to 5
    and nothing remembers that a thread of priority 20 waits for it. -/
theorem low_waiter_is_forgotten : ∃ tr k,
    kernelMachine.Run (boot Boot.small) tr k ∧ (∀ p ∈ tr, isDonationOp p.2 = true) ∧
    k.heldUp k.blockedIn 1 = [3] ∧ k.prio 3 = 20 ∧ k.prio 1 = 5 ∧
    k.prio 1 ≠ k.due (k.heldUp k.blockedIn 1) 1 := by
  exact kernelMachine.exists_reached (boot Boot.small)
    (startUp ++ calls (.lockAcquire 1) 3 ++ creates 3 20 ++ calls (.threadSetPriority 20 0) 1 ++
      [.timer] ++ execs 1 ++ calls (.lockAcquire 1) 2 ++ calls (.threadSetPriority 5 0) 1)
    (fun tr k => (∀ p ∈ tr, isDonationOp p.2 = true) ∧ k.heldUp k.blockedIn 1 = [3] ∧
      k.prio 3 = 20 ∧ k.prio 1 = 5 ∧ k.prio 1 ≠ k.due (k.heldUp k.blockedIn 1) 1)
    (by decide +kernel)

end Pintos.Threads
