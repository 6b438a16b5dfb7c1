/-
  The steps of a donation: what `lock_acquire` gives, and what `lock_release` gives back.

  The donor is on the list `donor_threads` of the holder, and its own `waiting_lock` says what it waits
  for.  Neither is looked after between the donation and the end of `lock_acquire`.

  1. **Invariants** (`DonorInv`) — a thread with a `waiting_lock` is inside `lock_acquire` of that
     lock, and nobody is its own donor.

  2. **The walk** (`Kernel.Chain`) — the holders that the nested loop of `lock_acquire` comes to.
     In a graph without cycles it ends EXACTLY IF it does not come back to the caller and no thread
     on it waits for a lock that has been released and not been taken yet (`nested_walk_safe`); and
     it lowers no priority exactly if no thread on it has a higher one (`donation_never_lowers`).

  3. **The release** (`release_restores`) — the priority is right exactly if the FIRST donor that is
     kept is the highest, and above the base.
-/
import Mathlib.Logic.Relation
import Pintos.Threads.Donation

namespace Pintos.Threads

open Lib Base Function Boot Option
open List hiding head

open Kernel

/-! ## Invariants -/

/-- `t` is inside `lock_acquire (l)`, past its donation. -/
def Kernel.acquiring (k : Kernel) (t : ThreadRef) (l : LockRef) : Prop :=
  k.head t = some (.semaDown (.lock l)) ∨ k.head t = some (.semaRetest (.lock l)) ∨
    k.head t = some (.lockHold l)

/-- **Donors and waiting locks.** -/
structure DonorInv (k : Kernel) : Prop where
  /-- A thread with a `waiting_lock` is inside `lock_acquire`. -/
  waits : ∀ t l, k.waits t = some l → k.acquiring t l
  /-- Nobody donates to itself. -/
  self : ∀ t, t ∉ k.donors t

variable {b : Boot} {k k' : Kernel} {tr : List (Kernel × Action)}

namespace DonorInv

variable {a : Action}

theorem init (b : Boot) : DonorInv (boot b) := by
  have hrec : ∀ t, (b.thread t).waitingLock = none ∧ (b.thread t).donorThreads = [] := by
    intro t
    unfold Boot.thread
    split
    · exact ⟨rfl, rfl⟩
    · split <;> exact ⟨rfl, rfl⟩
  refine ⟨fun t l h => ?_, fun t h => ?_⟩
  · have h' : (b.thread t).waitingLock = some l := h
    rw [(hrec t).1] at h'
    cases h'
  · have h' : t ∈ (b.thread t).donorThreads := h
    rw [(hrec t).2] at h'
    cases h'

/-- A thread inside `lock_acquire (l)` stays there, until it has become the holder. -/
theorem acquiring_step {t : ThreadRef} {l : LockRef} (he : ActStep b k a k') (h : k.acquiring t l)
    (hhold : t = k.current → k.does a ≠ some (.lockHold l)) : k'.acquiring t l := by
  by_cases hx : t = k.current ∧ a = .exec
  · obtain ⟨rfl, rfl⟩ := hx
    -- one turn of the loop of `sema_down'
    have hturn : ∀ i, k.head k.current = some i → i ≠ .threadExit →
        k.leaves i = k.leaves (.semaDown (.lock l)) → k'.acquiring k.current l := by
      intro i hi hexit heq
      rcases k.leaves_down l with hx | hx
      · exact .inr (.inl (he.head_current hi hexit (heq.trans hx)))
      · exact .inr (.inr (he.head_current hi hexit (heq.trans hx)))
    rcases h with h | h | h
    · exact hturn _ h (by simp) rfl
    · exact hturn _ h (by simp) rfl
    · exact absurd h (hhold rfl)
  · have hne : t = k.current → a ≠ .exec := fun h1 h2 => hx ⟨h1, h2⟩
    rcases h with hh | hh | hh
    · exact .inl (he.head_keep hh hne)
    · exact .inr (.inl (he.head_keep hh hne))
    · exact .inr (.inr (he.head_keep hh hne))

theorem waits_step (h : DonorInv k) (hl : Alive b k) (hs : k.step a = .ok k')
    (ha : k.enabled a = true) {t : ThreadRef} {l : LockRef} (ht : k'.waits t = some l) :
    k'.acquiring t l := by
  have he : ActStep b k a k' := ⟨step_effect hs, ha, hl⟩
  -- a wait that was there before
  have hold : k.waits t = some l → (t = k.current → k.does a ≠ some (.lockHold l)) →
      k'.acquiring t l := fun hw hhold => acquiring_step he (h.waits t l hw) hhold
  rw [(step_record hs).waits] at ht
  cases hd : k.does a with
  | none =>
    rw [hd] at ht
    exact hold ht (by simp [hd])
  | some i =>
    rw [hd] at ht
    cases i with
    | lockAcquire l' =>
      by_cases hdon : k.donates l' = true
      · by_cases hcur : t = k.current
        · subst hcur
          obtain rfl : l' = l := by simpa [waitsAfter, hdon] using ht
          obtain ⟨rfl, hhead⟩ := exec_of_does ha hd
          exact .inl (he.head_current hhead (by simp) rfl)
        · exact hold (by simpa [waitsAfter, hdon, hcur] using ht) fun hx => absurd hx hcur
      · exact hold (by simpa [waitsAfter, hdon] using ht) (by simp [hd])
    | lockHold =>
      by_cases hcur : t = k.current
      · subst hcur
        simp [waitsAfter] at ht
      · exact hold (by simpa [waitsAfter, hcur] using ht) fun hx => absurd hx hcur
    | threadCreate u =>
      by_cases hu : t = u
      · subst hu
        simp [waitsAfter] at ht
      · exact hold (by simpa [waitsAfter, hu] using ht) (by simp [hd])
    | _ => exact hold ht (by simp [hd])

theorem self_step (h : DonorInv k) (hs : k.step a = .ok k') (t : ThreadRef) : t ∉ k'.donors t := by
  have hupdate : ∀ {u l}, u ∉ l → t ∉ update k.donors u l t := by
    intro u l hu
    by_cases ht : t = u
    · rwa [ht, update_self]
    · rw [update_of_ne ht]
      exact h.self t
  rw [(step_record hs).donors]
  cases hd : k.does a with
  | none => exact h.self t
  | some i =>
    cases i with
    | lockAcquire l =>
      show t ∉ k.donorsAfter (.lockAcquire l) t
      simp only [donorsAfter]
      split
      · rename_i hdon
        -- the holder has a lower priority than the caller, so it is another thread
        have hlt : k.prio t < k.prio k.current := by simpa [donates, hdon.2] using hdon.1
        intro hmem
        rcases mem_listInsertOrdered.mp hmem with rfl | hmem
        · exact absurd hlt (Int.lt_irrefl _)
        · exact h.self t hmem
      · exact h.self t
    | lockRelease => exact hupdate fun hmem => h.self _ (mem_of_mem_filter hmem)
    | threadCreate => exact hupdate not_mem_nil
    | threadSetPriority p junk =>
      show t ∉ k.donorsAfter (.threadSetPriority p junk) t
      simp only [donorsAfter]
      split
      · exact hupdate not_mem_nil
      · exact h.self t
    | _ => exact h.self t

theorem alive (h : DonorInv k) (hl : Alive b k) {t : ThreadRef} {l : LockRef}
    (hw : k.waits t = some l) : t ∈ k.allList := by
  refine hl.codeAlive t fun hc => ?_
  rcases h.waits t l hw with hh | hh | hh <;> rw [head, hc] at hh <;> cases hh

/-- **Every state reached.** -/
theorem run (h : kernelMachine.Run (boot b) tr k) : DonorInv k := by
  refine h.history (J := fun _ k => DonorInv k) (init b) ?_
  intro tr k a k' hr hi ha hs
  have hl := (run_sound hr).1
  exact ⟨fun t l ht => hi.waits_step hl hs ha ht, hi.self_step hs⟩

end DonorInv

/-! ## The walk -/

/-- From a thread to the holder of the lock it waits for. -/
def follow (holder : LockRef → Option ThreadRef) (waits : ThreadRef → Option LockRef)
    (t u : ThreadRef) : Prop :=
  ∃ l, waits t = some l ∧ holder l = some u

/-- **The waits-for graph**, as `waiting_lock` and `holder` have it. -/
def Kernel.follows (k : Kernel) : ThreadRef → ThreadRef → Prop := follow k.holder k.waits

/-- The threads on the way from `o` along the waits-for graph. -/
def Kernel.Chain (k : Kernel) (o : ThreadRef) : ThreadRef → Prop :=
  Relation.ReflTransGen k.follows o

/-- The walk from a lock comes to a thread that waits for none. -/
inductive Ends (holder : LockRef → Option ThreadRef) (waits : ThreadRef → Option LockRef) :
    Option LockRef → Prop
  | stop : Ends holder waits none
  | turn {l : LockRef} {o : ThreadRef} (ho : holder l = some o) (hnext : Ends holder waits (waits o)) :
      Ends holder waits (some l)

variable {t o : ThreadRef} {l : LockRef}

section Walk

variable {holder : LockRef → Option ThreadRef} {waits : ThreadRef → Option LockRef} {u : ThreadRef}
  {p : Int}

namespace Ends

theorem next (h : Ends holder waits (some l)) (ho : holder l = some o) :
    Ends holder waits (waits o) := by
  cases h with
  | turn ho' hnext =>
    cases ho.symm.trans ho'
    exact hnext

theorem reach (h : Ends holder waits (waits o))
    (hr : Relation.ReflTransGen (follow holder waits) o t) : Ends holder waits (waits t) := by
  induction hr with
  | refl => exact h
  | tail _ hstep ih =>
    obtain ⟨l, hw, hh⟩ := hstep
    rw [hw] at ih
    exact ih.next hh

theorem not_cycle {lo : Option LockRef} (h : Ends holder waits lo) :
    ∀ o, waits o = lo → ¬ Relation.TransGen (follow holder waits) o o := by
  induction h with
  | stop =>
    intro o hw hc
    obtain ⟨u, ⟨l, hw', -⟩, -⟩ := Relation.TransGen.head'_iff.mp hc
    rw [hw] at hw'
    cases hw'
  | turn ho hnext ih =>
    intro o hw hc
    obtain ⟨u, ⟨l, hw', hh⟩, hrest⟩ := Relation.TransGen.head'_iff.mp hc
    cases hw.symm.trans hw'
    cases ho.symm.trans hh
    -- the cycle, begun at the next thread
    exact ih _ rfl (Relation.TransGen.tail' hrest ⟨_, hw, hh⟩)

end Ends

theorem follow_head : Relation.ReflTransGen (follow holder waits) o u ↔
    u = o ∨ ∃ l v, waits o = some l ∧ holder l = some v ∧
      Relation.ReflTransGen (follow holder waits) v u := by
  rw [Relation.ReflTransGen.cases_head_iff, eq_comm]
  refine or_congr_right ⟨?_, ?_⟩
  · rintro ⟨v, ⟨l, hl, hv⟩, hr⟩
    exact ⟨l, v, hl, hv, hr⟩
  · rintro ⟨l, v, hl, hv, hr⟩
    exact ⟨v, ⟨l, hl, hv⟩, hr⟩

theorem donateNested_ends :
    ∀ {n : Nat} {th th' : ThreadRef → Thread} {lo : Option LockRef},
      donateNested holder p n th lo = .ok th' → Ends holder (fun t => (th t).waitingLock) lo
  | 0, _, _, none, _ => .stop
  | _ + 1, _, _, none, _ => .stop
  | n + 1, th, th', some l, h => by
    rw [donateNested] at h
    split at h
    · cases h
    rename_i o ho
    have hrest := donateNested_ends h
    have hwaits : (fun t => (setPriority th o p t).waitingLock) = fun t => (th t).waitingLock :=
      funext fun t => setPriority_waitingLock ..
    rw [hwaits] at hrest
    exact .turn ho hrest

theorem mem_walk :
    ∀ {n : Nat} {th th' : ThreadRef → Thread} {lo : Option LockRef},
      donateNested holder p n th lo = .ok th' → (fun t => (th t).waitingLock) = waits →
      (u ∈ walk holder waits n lo ↔
        ∃ l o, lo = some l ∧ holder l = some o ∧ Relation.ReflTransGen (follow holder waits) o u)
  | 0, _, _, none, _, _ => by simp [walk]
  | _ + 1, _, _, none, _, _ => by simp [walk]
  | n + 1, th, th', some l, h, hw => by
    rw [donateNested] at h
    split at h
    · cases h
    rename_i o ho
    have hw' : (fun t => (setPriority th o p t).waitingLock) = waits := by
      rw [← hw]
      exact funext fun t => setPriority_waitingLock ..
    have ho' : (th o).waitingLock = waits o := congrFun hw o
    rw [ho'] at h
    have ih := mem_walk h hw'
    rw [walk]
    simp only [ho, mem_cons, ih]
    rw [← follow_head]
    constructor
    · exact fun hr => ⟨l, o, rfl, ho, hr⟩
    · rintro ⟨l', o', hl', ho1, hr⟩
      cases hl'
      cases ho.symm.trans ho1
      exact hr

end Walk

/-- Where the walk does not come to the caller, the lock that the caller now waits for makes no
    difference. -/
theorem chain_iff_waitsFor (hl : k.holder l = some o)
    (hends : Ends k.holder (k.waitsFor l) (k.waitsFor l o)) :
    (¬ k.Chain o k.current) ∧
      ∀ t, Relation.ReflTransGen (follow k.holder (k.waitsFor l)) o t ↔ k.Chain o t := by
  have hne : ∀ t, Relation.ReflTransGen (follow k.holder (k.waitsFor l)) o t → t ≠ k.current := by
    rintro t hr rfl
    refine hends.not_cycle o rfl (Relation.TransGen.tail' hr ⟨l, ?_, hl⟩)
    rw [waitsFor, if_pos rfl]
  have hto : ∀ t, k.Chain o t → Relation.ReflTransGen (follow k.holder (k.waitsFor l)) o t := by
    intro t hr
    induction hr with
    | refl => exact Relation.ReflTransGen.refl
    | tail _ hstep ih =>
      obtain ⟨l', hw, hh⟩ := hstep
      refine ih.tail ⟨l', ?_, hh⟩
      rwa [waitsFor, if_neg (hne _ ih)]
  refine ⟨fun hc => hne _ (hto _ hc) rfl, fun t => ⟨fun hr => ?_, hto t⟩⟩
  induction hr with
  | refl => exact Relation.ReflTransGen.refl
  | tail hr hstep ih =>
    obtain ⟨l', hw, hh⟩ := hstep
    rw [waitsFor, if_neg (hne _ hr)] at hw
    exact Relation.ReflTransGen.tail ih ⟨l', hw, hh⟩

theorem donate_walk (ho : k.holder l = some o) (hlt : k.prio o < k.prio k.current)
    (h : k.donate l o = .ok k') :
    Ends k.holder (k.waitsFor l) (k.waitsFor l o) ∧ ∀ t, t ∈ k.donees l ↔ k.Chain o t := by
  rcases donate_eq_ok h with ⟨-, hle⟩ | ⟨th, rfl, -, hth⟩
  · exact absurd hlt (Int.not_lt.mpr hle)
  have hwaits : (fun t => (k.donateDirect l o t).waitingLock) = k.waitsFor l :=
    funext fun t => donateDirect_waitingLock k l o t
  have hends := donateNested_ends hth
  rw [hwaits, donateDirect_waitingLock] at hends
  refine ⟨hends, fun t => ?_⟩
  rw [donateDirect_waitingLock] at hth
  have hmem := mem_walk (u := t) hth hwaits
  rw [← (chain_iff_waitsFor ho hends).2 t, donees, walk]
  simp only [ho, mem_cons, hmem]
  exact follow_head.symm

/-- **The walk ends** where there is no cycle, no way back to the caller and no lock without a
    holder: each thread on it that waits is alive, so `all_list` is long enough. -/
theorem donate_ok (hi : DonorInv k) (hl : Alive b k) (hac : Acyclic k.follows)
    (hsafe : ∀ t, k.Chain o t → t ≠ k.current ∧ ∀ l', k.waits t = some l' → k.holder l' ≠ none) :
    ∃ k', k.donate l o = .ok k' := by
  have halive : ∀ t u, k.follows t u → t ∈ k.allList := fun t u ⟨l', hw, _⟩ => hi.alive hl hw
  have hwalk := hac.fuel halive
    (P := fun n t => k.Chain o t → ∀ th : ThreadRef → Thread,
      (∀ u, (th u).waitingLock = k.waitsFor l u) →
      ∃ th', donateNested k.holder (k.prio k.current) n th (k.waitsFor l t) = .ok th') ?_ o
      Relation.ReflTransGen.refl (k.donateDirect l o) (donateDirect_waitingLock k l o)
  · obtain ⟨th', hth⟩ := hwalk
    rw [← donateDirect_waitingLock k l o o] at hth
    unfold Kernel.donate
    simp only
    split
    · rw [show (k.thread k.current).priority = k.prio k.current from rfl, hth]
      exact ⟨_, rfl⟩
    · exact ⟨k, rfl⟩
  · intro n t hnext hchain th hth
    obtain ⟨hne, hnull⟩ := hsafe t hchain
    rw [waitsFor, if_neg hne]
    cases hw : (k.thread t).waitingLock with
    | none => exact ⟨th, by cases n <;> rfl⟩
    | some l' =>
      obtain ⟨u, hu⟩ := ne_none_iff_exists'.mp (hnull l' hw)
      obtain ⟨m, rfl, hm⟩ := hnext u ⟨l', hw, hu⟩
      simp only [donateNested, hu, hth u]
      refine hm (Relation.ReflTransGen.tail hchain ⟨l', hw, hu⟩) _ fun v => ?_
      rw [setPriority_waitingLock, hth v]

/-! ## What the donation does -/

theorem step_lockAcquire
    (hd : k.head k.current = some (.lockAcquire l)) (hs : k.step .exec = .ok k') :
    k'.prio = k.prioAfter (.lockAcquire l) ∧ k.pop.lockAcquire l = .ok k' := by
  refine ⟨?_, ?_⟩
  · have hp := (step_record hs).prio
    rwa [show k.does .exec = some (.lockAcquire l) from hd] at hp
  · have hf := (ok_of_guard hs).2
    rw [act_exec hd] at hf
    rcases finish_eq_ok hf with h | ⟨k1, h, -⟩
    · exact (continues_eq_ok h).1
    · cases (continues_eq_ok h).2

/-- **No priority is lowered** by the donation of `lock_acquire (l)`, EXACTLY IF no thread on the
    chain of holders has a higher priority than the caller: the walk writes it to all of them. -/
theorem donation_never_lowers
    (hd : k.head k.current = some (.lockAcquire l)) (ho : k.holder l = some o)
    (hs : k.step .exec = .ok k') :
    (∀ t, k.prio t ≤ k'.prio t) ↔
      (k.prio o < k.prio k.current → ∀ t, k.Chain o t → k.prio t ≤ k.prio k.current) := by
  obtain ⟨hprio, hacq⟩ := step_lockAcquire hd hs
  rw [hprio]
  by_cases hlt : k.prio o < k.prio k.current
  · have hdon : k.donates l = true := by
      simp only [donates, ho]
      exact decide_eq_true hlt
    have hmem : ∀ t, t ∈ k.donees l ↔ k.Chain o t := by
      rcases lockAcquire_eq_ok hacq with ⟨hno, -⟩ | ⟨o', k₁, ho', -, hk₁, -⟩
      · have hno' : k.holder l = none := hno
        rw [ho] at hno'
        cases hno'
      · obtain rfl : o = o' := some.inj (ho.symm.trans ho')
        exact (donate_walk (k := k.pop) ho hlt hk₁).2
    simp only [prioAfter]
    constructor
    · intro h _ t ht
      have hle := h t
      rwa [if_pos ⟨hdon, (hmem t).mpr ht⟩] at hle
    · intro h t
      split
      · rename_i hx
        exact h hlt t ((hmem t).mp hx.2)
      · exact Int.le_refl _
  · have hdon : k.donates l = false := by
      simp only [donates, ho]
      exact decide_eq_false hlt
    simp only [prioAfter, hdon, Bool.false_eq_true, false_and, if_false, Int.le_refl, implies_true,
      hlt, false_implies]

theorem chain_two (hw : k.waits 3 = some 1) (hh : k.holder 1 = some 1)
    (hend : k.waits 1 = none) (h : k.Chain 3 t) : t = 3 ∨ t = 1 := by
  induction h with
  | refl => exact .inl rfl
  | tail _ hstep ih =>
    obtain ⟨l, hl, hu⟩ := hstep
    rcases ih with rfl | rfl
    · cases hw.symm.trans hl
      exact .inr (some.inj (hu.symm.trans hh))
    · rw [hend] at hl
      cases hl

/-- Thread 3 (priority 35) holds lock 2 and waits for lock 1 of the initial thread; thread 4, of
    priority 50, is about to acquire lock 2. -/
def twoLocks : List Action :=
  startUp ++ calls (.lockAcquire 1) 3 ++ creates 3 35 ++ execs 1 ++ calls (.lockAcquire 2) 3 ++
    calls (.lockAcquire 1) 2 ++ creates 4 50 ++ execs 1 ++ [.call (.lockAcquire 2)]

/-- The donation of thread 4 reaches both. -/
theorem donation_never_lowers_two : ∃ tr k k', kernelMachine.Run (boot Boot.small) tr k ∧
    k.step .exec = .ok k' ∧ k'.prio 3 = 50 ∧ k'.prio 1 = 50 ∧ ∀ t, k.prio t ≤ k'.prio t := by
  obtain ⟨tr, k, k', hr, ⟨hd, ho, hw, hh, hend, h3, h1, hcur⟩, hs, h3', h1'⟩ :=
    kernelMachine.exists_value (boot small) twoLocks (fun k => k.step .exec)
      (fun k => k.head k.current = some (.lockAcquire 2) ∧ k.holder 2 = some 3 ∧
        k.waits 3 = some 1 ∧ k.holder 1 = some 1 ∧ k.waits 1 = none ∧ k.prio 3 = 35 ∧
        k.prio 1 = 35 ∧ k.prio k.current = 50)
      (fun _ k' => k'.prio 3 = 50 ∧ k'.prio 1 = 50) (by decide +kernel)
  refine ⟨tr, k, k', hr, hs, h3', h1', (donation_never_lowers hd ho hs).mpr fun _ t ht => ?_⟩
  rcases chain_two hw hh hend ht with rfl | rfl <;> omega

/-- **The defect.**  The initial thread has priority 50 from a thread that waits for its lock 3.
    Thread 5, of priority 40, acquires a lock of thread 3, which waits for lock 1 of the initial
    thread: the walk writes 40 to it. -/
theorem donation_lowers : ∃ tr k k', kernelMachine.Run (boot Boot.small) tr k ∧
    k.head k.current = some (.lockAcquire 2) ∧ k.holder 2 = some 3 ∧ k.step .exec = .ok k' ∧
    k.prio 1 = 50 ∧ k'.prio 1 = 40 := by
  obtain ⟨tr, k, k', hr, ⟨hd, ho, h1⟩, hs, h1'⟩ := kernelMachine.exists_value (boot small)
    (startUp ++ calls (.lockAcquire 1) 3 ++ calls (.lockAcquire 3) 3 ++ creates 3 35 ++ execs 1 ++
      calls (.lockAcquire 2) 3 ++ calls (.lockAcquire 1) 2 ++ creates 4 50 ++ execs 1 ++
      calls (.lockAcquire 3) 2 ++ creates 5 40 ++ calls (.semaDown (.user 1)) 1 ++
      execs 1 ++ [.call (.lockAcquire 2)]) (fun k => k.step .exec)
    (fun k => k.head k.current = some (.lockAcquire 2) ∧ k.holder 2 = some 3 ∧ k.prio 1 = 50)
    (fun _ k' => k'.prio 1 = 40) (by decide +kernel)
  exact ⟨tr, k, k', hr, hd, ho, hs, h1, h1'⟩

/-- **The nested walk is safe**, in a state whose waits-for graph has no cycle, EXACTLY IF it does
    not lead back to the caller and no thread on it waits for a lock that has no holder.  A lock has
    none from the moment it is released until the thread that was woken for it runs. -/
theorem nested_walk_safe (hr : kernelMachine.Run (boot b) tr k) (hac : Acyclic k.follows)
    (ho : k.holder l = some o) :
    (∃ k', k.donate l o = .ok k') ↔ (k.prio o < k.prio k.current → ∀ t, k.Chain o t →
        t ≠ k.current ∧ ∀ l', k.waits t = some l' → k.holder l' ≠ none) := by
  constructor
  · rintro ⟨k', hk⟩ hlt t ht
    have hends := (donate_walk ho hlt hk).1
    obtain ⟨hcur, hchain⟩ := chain_iff_waitsFor ho hends
    have hne : t ≠ k.current := by
      rintro rfl
      exact hcur ht
    refine ⟨hne, fun l' hw hnone => ?_⟩
    -- the walk has gone on from `t'
    have ht' := hends.reach ((hchain t).mpr ht)
    rw [waitsFor, if_neg hne, show (k.thread t).waitingLock = some l' from hw] at ht'
    cases ht' with
    | turn hh => rw [hnone] at hh; cases hh
  · intro h
    by_cases hlt : k.prio o < k.prio k.current
    · exact donate_ok (DonorInv.run hr) (run_sound hr).1 hac (h hlt)
    · exact ⟨k, if_neg hlt⟩

/-- A waits-for graph that goes down in some measure.  Only the threads that are alive count. -/
theorem follows_acyclic (hr : kernelMachine.Run (boot b) tr k) (m : ThreadRef → Nat)
    (h : ∀ t ∈ k.allList, ∀ l ∈ k.waits t, ∀ u ∈ k.holder l, m u < m t) : Acyclic k.follows := by
  refine Acyclic.of_measure m ?_
  rintro t u ⟨l, hw, hh⟩
  exact h t ((DonorInv.run hr).alive (run_sound hr).1 hw) l hw u hh

/-- The walk of thread 4 visits thread 3 and the initial thread. -/
theorem nested_walk_safe_two : ∃ tr k, kernelMachine.Run (boot Boot.small) tr k ∧
    k.prio 3 < k.prio k.current ∧ k.follows 3 1 ∧ ∃ k', k.donate 2 3 = .ok k' := by
  obtain ⟨tr, k, hr, hcur, ho, hw, hh, hend, hlt, hdown⟩ :=
    kernelMachine.exists_reached (boot small) twoLocks
    (fun _ k => k.current = 4 ∧ k.holder 2 = some 3 ∧ k.waits 3 = some 1 ∧
      k.holder 1 = some 1 ∧ k.waits 1 = none ∧ k.prio 3 < k.prio k.current ∧
      ∀ t ∈ k.allList, ∀ l ∈ k.waits t, ∀ u ∈ k.holder l, u < t) (by decide +kernel)
  refine ⟨tr, k, hr, hlt, ⟨1, hw, hh⟩,
    (nested_walk_safe hr (follows_acyclic hr id hdown) ho).mpr fun _ t ht => ?_⟩
  rcases chain_two hw hh hend ht with rfl | rfl
  · refine ⟨by rw [hcur]; decide, fun l' hl' => ?_⟩
    cases hw.symm.trans hl'
    simp [hh]
  · refine ⟨by rw [hcur]; decide, fun l' hl' => ?_⟩
    rw [hend] at hl'
    cases hl'

/-- **The defect.**  The initial thread has released lock 1 and woken thread 3, which has not run:
    its `waiting_lock` is lock 1 still.  Thread 4 acquires lock 2 of thread 3, and the walk follows
    the null holder of lock 1. -/
theorem nested_walk_null : ∃ tr k, kernelMachine.Run (boot Boot.small) tr k ∧ Acyclic k.follows ∧
    k.head k.current = some (.lockAcquire 2) ∧ k.holder 2 = some 3 ∧
    k.waits 3 = some 1 ∧ k.holder 1 = none ∧ k.donate 2 3 = .error .nullHolder ∧
    k.step .exec = .error .nullHolder := by
  obtain ⟨tr, k, hr, hk⟩ := kernelMachine.exists_run_of_play (boot small)
    (startUp ++ calls (.lockAcquire 1) 3 ++ creates 3 35 ++ execs 1 ++ calls (.lockAcquire 2) 3 ++
      calls (.lockAcquire 1) 2 ++ creates 4 50 ++ execs 1 ++ calls (.semaDown (.user 1)) 1 ++
      calls (.lockRelease 1) 2 ++ [.intrSemaUp (.user 1)] ++ execs 1 ++ [.call (.lockAcquire 2)])
    (fun _ k => decide (k.head k.current = some (.lockAcquire 2) ∧ k.holder 2 = some 3 ∧
        k.waits 3 = some 1 ∧ k.holder 1 = none ∧
        ∀ t ∈ k.allList, ∀ l ∈ k.waits t, ∀ u ∈ k.holder l, u < t) &&
      match k.donate 2 3, k.step .exec with
      | .error .nullHolder, .error .nullHolder => true
      | _, _ => false) (by decide +kernel)
  obtain ⟨hk, hafter⟩ := Bool.and_eq_true_iff.mp hk
  obtain ⟨hd, ho, hw, hh, hdown⟩ := of_decide_eq_true hk
  split at hafter
  · rename_i hdonate hstep
    exact ⟨tr, k, hr, follows_acyclic hr id hdown, hd, ho, hw, hh, hdonate, hstep⟩
  · cases hafter

/-! ## What the release gives back -/

/-- **After a release** nobody on the donor list waits for the lock. -/
theorem release_donors
    (hd : k.head k.current = some (.lockRelease l)) (hs : k.step .exec = .ok k') :
    k'.donors k.current = k.keptDonors k.current l ∧
      ∀ d ∈ k'.donors k.current, k'.waits d ≠ some l := by
  obtain ⟨-, -, hdonors, hwaits⟩ := step_record hs
  rw [show k.does .exec = some (.lockRelease l) from hd] at hdonors hwaits
  have hkept : k'.donors k.current = k.keptDonors k.current l := by
    rw [hdonors]
    exact update_self ..
  refine ⟨hkept, fun d hmem => ?_⟩
  rw [hkept] at hmem
  rw [hwaits]
  exact of_decide_eq_true (mem_filter.mp hmem).2

/-- **The release restores the right priority** EXACTLY IF the donor that comes first among those
    that are kept has the highest priority of them, and one that is not below the base priority.
    The list is in no order of priority: `list_desc_prio_sort` reads another word of a donor. -/
theorem release_restores (hr : kernelMachine.Run (boot b) tr k)
    (hd : k.head k.current = some (.lockRelease l)) (hdon : k.donors k.current ≠ [])
    (hs : k.step .exec = .ok k') :
    ((∀ d ∈ k'.donors k.current, k'.waits d ≠ some l) ∧
        k'.prio k.current = k'.due (k'.donors k.current) k.current) ↔
      ∀ d ds, k.keptDonors k.current l = d :: ds →
        k.base k.current ≤ k.prio d ∧ ∀ u ∈ ds, k.prio u ≤ k.prio d := by
  obtain ⟨hkept, hnone⟩ := release_donors hd hs
  obtain ⟨hprio, hbase, -, -⟩ := step_record hs
  rw [show k.does .exec = some (.lockRelease l) from hd] at hprio hbase
  have hcur : k'.prio k.current = k.restoredPriority k.current l := by
    rw [hprio]
    exact update_self ..
  have hbase' : k'.base k.current = k.base k.current := by rw [hbase]; rfl
  -- the donors that are kept have the priorities they had
  have hsame : ∀ u ∈ k.keptDonors k.current l, k'.prio u = k.prio u := by
    intro u hu
    have hne : u ≠ k.current := by
      rintro rfl
      exact (DonorInv.run hr).self _ (mem_of_mem_filter hu)
    rw [hprio]
    exact update_of_ne hne ..
  have hdue : k'.due (k'.donors k.current) k.current =
      maxOver k.prio (k.base k.current) (k.keptDonors k.current l) := by
    show maxOver k'.prio (k'.base k.current) (k'.donors k.current) = _
    rw [hbase', hkept]
    exact maxOver_congr hsame
  have hdon' : ¬ (k.thread k.current).donorThreads = [] := hdon
  rw [and_iff_right hnone, hcur, hdue, restoredPriority, if_neg hdon']
  cases hk : k.keptDonors k.current l with
  | nil => simp [maxOver, base]
  | cons d ds =>
    have hfirst : k.prio d = maxOver k.prio (k.base k.current) (d :: ds) ↔
        k.base k.current ≤ k.prio d ∧ ∀ u ∈ ds, k.prio u ≤ k.prio d := by
      rw [maxOver_eq_iff, forall_mem_cons]
      constructor
      · rintro ⟨h1, ⟨-, h2⟩, -⟩
        exact ⟨h1, h2⟩
      · rintro ⟨h1, h2⟩
        exact ⟨h1, ⟨Int.le_refl _, h2⟩, .inr ⟨d, mem_cons_self .., rfl⟩⟩
    refine hfirst.trans ⟨fun h d' ds' heq => ?_, fun h => h d ds rfl⟩
    obtain ⟨rfl, rfl⟩ := cons.inj heq
    exact h

/-- The initial thread holds locks 1, 2 and 3. -/
def threeLocks : List Action :=
  startUp ++ calls (.lockAcquire 1) 3 ++ calls (.lockAcquire 2) 3 ++ calls (.lockAcquire 3) 3

/-- Threads 3 and 4, of priorities 35 and 40, wait for two of the locks; the third is released. -/
theorem release_restores_forty : ∃ tr k k', kernelMachine.Run (boot Boot.small) tr k ∧
    k.step .exec = .ok k' ∧ k'.donors k.current = [4, 3] ∧ k'.prio k.current = 40 ∧
    k'.prio k.current = k'.due (k'.donors k.current) k.current := by
  obtain ⟨tr, k, k', hr, ⟨hd, hdon, hkept, hbase, h4, h3⟩, hs, hdon', hprio'⟩ :=
    kernelMachine.exists_value (boot small)
      (threeLocks ++ creates 3 35 ++ execs 1 ++ calls (.lockAcquire 1) 2 ++ creates 4 40 ++
        execs 1 ++ calls (.lockAcquire 2) 2 ++ [.call (.lockRelease 3)]) (fun k => k.step .exec)
      (fun k => k.head k.current = some (.lockRelease 3) ∧ k.donors k.current = [4, 3] ∧
        k.keptDonors k.current 3 = [4, 3] ∧ k.base k.current = 31 ∧ k.prio 4 = 40 ∧ k.prio 3 = 35)
      (fun k k' => k'.donors k.current = [4, 3] ∧ k'.prio k.current = 40) (by decide +kernel)
  refine ⟨tr, k, k', hr, hs, hdon', hprio',
    ((release_restores hr hd (by simp [hdon]) hs).mpr fun d ds heq => ?_).2⟩
  rw [hkept] at heq
  obtain ⟨rfl, rfl⟩ := cons.inj heq
  simp [hbase, h4, h3]

/-- **The defect.**  Thread 3, of priority 50, was created before thread 4, of priority 40, and comes
    second whoever donated first: the initial thread is left with 40. -/
theorem release_restores_less : ∃ tr k k', kernelMachine.Run (boot Boot.small) tr k ∧
    k.head k.current = some (.lockRelease 3) ∧ k.donors k.current = [4, 3] ∧
    k.step .exec = .ok k' ∧ k'.donors k.current = [4, 3] ∧ k'.prio k.current = 40 ∧
    k'.due (k'.donors k.current) k.current = 50 := by
  obtain ⟨tr, k, k', hr, ⟨hd, hdon⟩, hs, hk'⟩ := kernelMachine.exists_value (boot small)
    (threeLocks ++ creates 3 50 ++ execs 1 ++ calls (.semaDown (.user 1)) 1 ++ creates 4 40 ++
      execs 1 ++ calls (.lockAcquire 1) 2 ++ [.intrSemaUp (.user 1)] ++ execs 1 ++
      calls (.lockAcquire 2) 2 ++ [.call (.lockRelease 3)]) (fun k => k.step .exec)
    (fun k => k.head k.current = some (.lockRelease 3) ∧ k.donors k.current = [4, 3])
    (fun k k' => k'.donors k.current = [4, 3] ∧ k'.prio k.current = 40 ∧
      k'.due (k'.donors k.current) k.current = 50) (by decide +kernel)
  exact ⟨tr, k, k', hr, hd, hdon, hs, hk'⟩

end Pintos.Threads
