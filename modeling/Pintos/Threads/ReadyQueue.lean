/-
  The ready list is ordered by effective priority, or not.

  Threads are inserted at the right place for the priorities of the moment.  So the order can only
  break when the priority of a thread that is ALREADY on the list changes, and one operation does that
  without putting the list in order: the donation of `lock_acquire` (`donation_breaks_ready_order`).

  1. **Order** (`Ordered`) — what is shared with other properties of the queues is `QueueRule`.

  2. **The condition** (`keepsOrder`) — a donation of priority `p` leaves the order of the list as
     it is: no thread ahead of a donee is below `p`, and none behind is above, donees aside.

  3. **The theorem** (`ready_list_ordered`), at every scheduling point.
-/
import Pintos.Threads.Priority

namespace Pintos.Threads

open Lib Base Kernel Kernel

/-- `ready_list` is in non-increasing order of effective priority. -/
def Ordered (k : Kernel) : Prop := k.readyList.Pairwise fun x y => k.prio y ≤ k.prio x

/-- The lock of a `lock_acquire` that the step starts. -/
def Kernel.acquires (k : Kernel) (a : Action) : Option LockRef :=
  match k.does a with
  | some (.lockAcquire l) => some l
  | _ => none

/-- If the step is a donation of priority `p`, any two threads of the ready list of which only one
    is a donee stand in the order that giving `p` to the donee asks for. -/
def keepsOrder (k : Kernel) (a : Action) : Prop := ∀ l ∈ k.acquires a, k.donates l = true →
    k.readyList.Pairwise fun x y =>
      (y ∈ k.donees l → x ∉ k.donees l → k.prio k.current ≤ k.prio x) ∧
      (x ∈ k.donees l → y ∉ k.donees l → k.prio y ≤ k.prio k.current)

instance (k : Kernel) (a : Action) : Decidable (keepsOrder k a) :=
  inferInstanceAs (Decidable (∀ l ∈ k.acquires a, _ → _))

/-! ## Queues -/

/-- **A property of the queues** and of the priorities of the threads in them, that inserting a thread
    keeps.  Donations apart, which write the priorities of queued threads, every section then keeps
    it (`QueueRule.act`). -/
structure QueueRule (Q : Kernel → Prop) : Prop where
  same : ∀ {k k' : Kernel}, Q k → SameReady k k' → (∀ t ∈ k.readyList, k'.prio t = k.prio t) → Q k'
  enqueue : ∀ {k : Kernel} (t : ThreadRef), Q k → InRange k → Q (k.enqueue t)

variable {a : Action} {sched : Bool} {b : Boot} {k k' : Kernel}

namespace QueueRule

variable {Q : Kernel → Prop}

theorem keep (rule : QueueRule Q) (h : Q k) (hs : SameReady k k') (hp : ∀ t, k'.prio t = k.prio t) :
    Q k' :=
  rule.same h hs fun t _ => hp t

variable (rule : QueueRule Q) (h : Q k) (hr : InRange k)
include rule h hr

theorem yield : Q k.threadYield := by
  unfold threadYield
  split
  · exact rule.keep h ⟨rfl, rfl, rfl, rfl⟩ fun t => setStatus_priority ..
  · exact rule.keep (rule.enqueue k.current h hr) ⟨rfl, rfl, rfl, rfl⟩ fun t => setStatus_priority ..

theorem yieldIf (test : Bool) : Q (k.yieldIf test).1 := by
  unfold Kernel.yieldIf
  split
  · exact rule.yield h hr
  · exact h

theorem unblock {t : ThreadRef} (hk : k.threadUnblock t = .ok k') : Q k' := by
  obtain ⟨-, rfl⟩ := eq_of_guard hk
  exact rule.keep (rule.enqueue t h hr) ⟨rfl, rfl, rfl, rfl⟩ fun u => setStatus_priority ..

theorem semaUp {s : SemaRef} {w : Option ThreadRef} (hk : k.semaUp s = .ok (w, k')) : Q k' := by
  rcases semaUp_eq_ok hk with ⟨-, -, rfl⟩ | ⟨t, ts, -, -, rfl⟩
  · exact rule.keep h ⟨rfl, rfl, rfl, rfl⟩ fun _ => rfl
  · exact rule.keep (rule.enqueue t h hr) ⟨rfl, rfl, rfl, rfl⟩ fun u => setStatus_priority ..

/-- **A section keeps the property**, if it does so where it donates. -/
theorem act (hl : Alive b k) (ha : k.enabled a = true)
    (hdon : ∀ l ∈ k.acquires a, ∀ k', SameReady k k' → k'.prio = k.prioAfter (.lockAcquire l) → Q k')
    (hk : k.act a = .ok (k', sched)) : Q k' := by
  -- neither the current thread nor a new one is on the list
  have hcur : ∀ t ∈ k.readyList, t ≠ k.current := fun t ht =>
    hl.ne_current (by rw [((hl.ready t).mp ht).2.1]; decide)
  cases a with
  | exec =>
    have hp := (act_record hk).prio
    simp only [Kernel.act] at hk
    cases hc : k.code k.current with
    | nil =>
      rw [hc] at hk
      rwa [ok_fst hk]
    | cons i is =>
      rw [hc] at hk
      have hd : k.does .exec = some i := by simp [does, head, hc]
      rw [hd] at hp
      have hpop : Q k.pop := rule.keep h ⟨rfl, rfl, rfl, rfl⟩ fun _ => rfl
      have hrpop : InRange k.pop := hr
      by_cases hq : queues i = false
      · have hs : SameReady k k' := by
          obtain ⟨h1, h2, h3, h4⟩ := execInstr_ready hk hq
          exact ⟨h1, h2, h3, h4⟩
        cases i with
        | lockAcquire l => exact hdon l (by simp [acquires, hd]) k' hs hp
        | lockRelease =>
          refine rule.same h hs fun t ht => ?_
          rw [hp]
          exact Function.update_of_ne (hcur t ht) ..
        | threadCreate u =>
          have hu : u ∉ k.allList := by simpa [enabled, head, hc, runnable] using ha
          refine rule.same h hs fun t ht => ?_
          have hne : t ≠ u := fun he => hu (he ▸ ((hl.ready t).mp ht).1)
          rw [hp]
          exact Function.update_of_ne hne ..
        | threadSetPriority => simp [queues] at hq
        | _ => exact rule.keep h hs fun t => by rw [hp]; rfl
      · cases i with
        | semaUp s =>
          simp only [execInstr] at hk
          split at hk
          · cases hk
          · rename_i hs
            rw [ok_fst hk]
            exact rule.semaUp hpop hrpop hs
          · rename_i hs
            rw [ok_fst hk]
            exact rule.keep (rule.semaUp hpop hrpop hs) ⟨rfl, rfl, rfl, rfl⟩ fun _ => rfl
        | semaUpYield t | createYield t => rw [ok_fst hk]; exact rule.yieldIf hpop hrpop _
        | createUnblock => exact rule.unblock hpop hrpop (continues_eq_ok hk).1
        | threadYield => rw [ok_fst hk]; exact rule.yield hpop hrpop
        | threadSetPriority p junk =>
          rw [ok_fst hk]
          unfold threadSetPriority
          split
          · rename_i hp63
            have hset : Q (k.pop.setBasePriority p) := by
              refine rule.same hpop ⟨rfl, rfl, rfl, rfl⟩ fun t ht => ?_
              simp only [prio, setBasePriority, modify_apply]
              rw [if_neg (show t ≠ k.pop.current from hcur t ht)]
            have heff : RecordEffect k.pop (.threadSetPriority p junk) (k.pop.setBasePriority p) :=
              setBasePriority_record hp63
            have hrset : InRange (k.pop.setBasePriority p) :=
              hrpop.after heff.prio heff.base fun t q he => by cases he
            simp only
            split
            · exact rule.yield hset hrset
            · exact hset
          · exact hpop
        | _ => exact absurd rfl hq
  | call => rw [ok_fst hk]; exact rule.keep h ⟨rfl, rfl, rfl, rfl⟩ fun _ => rfl
  | timer => rw [ok_fst hk]; exact rule.yield h hr
  | intrSemaUp s =>
    simp only [Kernel.act] at hk
    split at hk
    · cases hk
    · rename_i w k1 hs
      rw [ok_fst hk]
      exact rule.yield (rule.semaUp h hr hs)
        (hr.of_eq (semaUp_records hs).priority (semaUp_records hs).basePriority)
  | intrSemaTryDown =>
    rw [ok_fst hk]
    simp only [semaTryDown]
    split <;> exact rule.keep h ⟨rfl, rfl, rfl, rfl⟩ fun _ => rfl
  | unblock => exact rule.unblock h hr (continues_eq_ok hk).1

end QueueRule

/-! ## Order is kept -/

theorem Ordered.insert (h : Ordered k) (hm : k.threadMlfqs = false) (t : ThreadRef) :
    (listInsertOrdered k.listDescPrioSort t k.readyList).Pairwise
      fun x y => k.prio y ≤ k.prio x := by
  have hkey : ∀ u, k.sortKey u = k.prio u := fun u => by
    unfold sortKey
    rw [hm]
    rfl
  have hiff : ∀ x y, k.listDescPrioSort y x = false ↔ k.prio y ≤ k.prio x := fun x y => by
    unfold listDescPrioSort
    rw [hkey, hkey, decide_eq_false_iff_not, Int.not_lt]
  have hsorted : Sorted k.listDescPrioSort k.readyList := h.imp fun {x y} hxy => (hiff x y).mpr hxy
  have hins := listInsertOrdered_sorted (strictWeak_desc k.sortKey) (x := t) hsorted
  exact hins.imp fun {x y} hxy => (hiff x y).mp hxy

/-- Order is such a property, with the priority scheduler. -/
theorem ordered_rule : QueueRule fun k => Ordered k ∧ k.threadMlfqs = false where
  same := by
    rintro k k' ⟨h, hm⟩ hs hp
    refine ⟨?_, hs.threadMlfqs.trans hm⟩
    unfold Ordered at h ⊢
    rw [hs.readyList]
    refine h.imp_of_mem fun {x y} hx hy hxy => ?_
    rwa [hp x hx, hp y hy]
  enqueue := by
    rintro k t ⟨h, hm⟩ -
    exact ⟨h.insert hm t, hm⟩

theorem Ordered.schedule (h : Ordered k) (hm : k.threadMlfqs = false)
    (hk : k.schedule = .ok k') : Ordered k' := by
  have hp : k'.prio = k.prio := funext (schedule_sync hk).priority
  obtain ⟨n, k1, hn, -, rfl⟩ := schedule_eq_ok hk
  unfold Ordered at h ⊢
  rw [hp]
  unfold nextThreadToRun at hn
  split at hn
  · obtain ⟨-, rfl⟩ := Prod.mk.inj (Except.ok.inj hn)
    exact h
  · rename_i t ts hl
    rw [hm] at hn
    obtain ⟨-, rfl⟩ := Prod.mk.inj (Except.ok.inj hn)
    rw [hl] at h
    exact (List.pairwise_cons.mp h).2

/-- A donation that keeps the order: the donees end up where their new priority belongs. -/
theorem Ordered.donation {l : LockRef} (h : Ordered k) (hr : k'.readyList = k.readyList)
    (hp : k'.prio = k.prioAfter (.lockAcquire l))
    (hg : k.donates l = true → k.readyList.Pairwise fun x y =>
      (y ∈ k.donees l → x ∉ k.donees l → k.prio k.current ≤ k.prio x) ∧
      (x ∈ k.donees l → y ∉ k.donees l → k.prio y ≤ k.prio k.current)) : Ordered k' := by
  unfold Ordered
  rw [hr, hp]
  by_cases hd : k.donates l = true
  · refine (List.Pairwise.and h (hg hd)).imp fun {x y} hxy => ?_
    obtain ⟨hle, h1, h2⟩ := hxy
    simp only [prioAfter, hd, true_and]
    by_cases hx : x ∈ k.donees l <;> by_cases hy : y ∈ k.donees l
    · simp [hx, hy]
    · simpa [hx, hy] using h2 hx hy
    · simpa [hx, hy] using h1 hy hx
    · simpa [hx, hy] using hle
  · refine h.imp fun {x y} hxy => ?_
    simpa [prioAfter, hd] using hxy

/-- **A section keeps the order**, a donation apart that breaks it. -/
theorem Ordered.act (h : Ordered k) (hr : InRange k)
    (hl : Alive b k) (hm : k.threadMlfqs = false) (ha : k.enabled a = true)
    (hg : keepsOrder k a) (hk : k.act a = .ok (k', sched)) : Ordered k' := by
  refine (ordered_rule.act ⟨h, hm⟩ hr hl ha (fun l hl k' hs hp => ⟨?_, ?_⟩) hk).1
  · exact h.donation hs.readyList hp (hg l hl)
  · exact hs.threadMlfqs.trans hm

/-- **One step** keeps the order. -/
theorem Ordered.step (h : Ordered k) (hr : InRange k) (hl : Alive b k)
    (hm : k.threadMlfqs = false) (ha : k.enabled a = true) (hg : keepsOrder k a)
    (hk : k.step a = .ok k') : Ordered k' := by
  unfold Kernel.step at hk
  rw [if_pos hl.current_running] at hk
  rcases finish_eq_ok hk with hact | ⟨k1, hact, hs⟩
  · exact h.act hr hl hm ha hg hact
  · exact (h.act hr hl hm ha hg hact).schedule ((act_effect hact).threadMlfqs.trans hm) hs

/-! ## Scheduling points -/

/-- Only sections without a donation end with `schedule ()`. -/
theorem keepsOrder_of_sched {k1 : Kernel} (h : k.act a = .ok (k1, true)) : keepsOrder k a := by
  intro l hl _
  exfalso
  unfold acquires at hl
  split at hl
  · rename_i l' hd
    cases a with
    | exec =>
      cases hc : k.code k.current with
      | nil => simp [does, head, hc] at hd
      | cons i =>
        obtain rfl : i = .lockAcquire l' := by simpa [does, head, hc] using hd
        simp only [act, hc] at h
        exact absurd (continues_eq_ok h).2 (by decide)
    | _ => simp [does] at hd
  · simp at hl

/-- **The ready list is ordered at every scheduling point**, with the priority scheduler, on every
    run whose donations all keep the order; and then the thread that `next_thread_to_run` picks has
    the highest effective priority of the list. -/
theorem ready_list_ordered (hm : b.mlfqs = false) {tr : List (Kernel × Action)}
    {k₁ : Kernel} (h : (kernelMachine.guard keepsOrder).Run (boot b) tr k)
    (ha : k.enabled a = true) (hact : k.act a = .ok (k₁, true)) :
    Ordered k₁ ∧ ∀ n k₂, k₁.readyList ≠ [] → k₁.nextThreadToRun = .ok (some n, k₂) →
      ∀ t ∈ k₁.readyList, k₁.prio t ≤ k₁.prio n := by
  have hinv : Ordered k ∧ InRange k ∧ k.threadMlfqs = false := by
    refine h.history (J := fun _ k => Ordered k ∧ InRange k ∧ k.threadMlfqs = false)
      ⟨List.pairwise_singleton .., InRange.init b, hm⟩ ?_
    rintro tr k a k' hr ⟨ho, hrange, hmk⟩ ⟨ha, hg⟩ hstep
    exact ⟨ho.step hrange (run_sound hr.of_guard).1 hmk ha hg hstep, hrange.step hstep,
      (step_effect hstep).threadMlfqs.trans hmk⟩
  obtain ⟨hord, hrange, hmk⟩ := hinv
  have hord₁ : Ordered k₁ :=
    hord.act hrange (run_sound h.of_guard).1 hmk ha (keepsOrder_of_sched hact) hact
  have hm₁ : k₁.threadMlfqs = false := (act_effect hact).threadMlfqs.trans hmk
  refine ⟨hord₁, fun n k₂ hne hn t ht => ?_⟩
  -- the front of an ordered list is its maximum
  unfold nextThreadToRun at hn
  split at hn
  · rename_i hl
    exact absurd hl hne
  rename_i u us hl
  rw [hm₁] at hn
  obtain ⟨hn', -⟩ := Prod.mk.inj (Except.ok.inj hn)
  cases hn'
  unfold Ordered at hord₁
  rw [hl] at hord₁ ht
  rcases List.mem_cons.mp ht with rfl | ht
  · exact Int.le_refl _
  · exact (List.pairwise_cons.mp hord₁).1 t ht

/-- A time slice ends while two threads of different priority are ready. -/
theorem ready_list_ordered_timer : ∃ tr k k₁,
    (kernelMachine.guard keepsOrder).Run (boot Boot.small) tr k ∧ k.act .timer = .ok (k₁, true) ∧
    k₁.readyList = [1, 3] ∧ k₁.prio 3 ≤ k₁.prio 1 := by
  obtain ⟨tr, k, hr, ha, hq⟩ := (kernelMachine.guard keepsOrder).exists_reached (boot Boot.small)
    (startUp ++ creates 3 20)
    (fun _ k => k.enabled .timer = true ∧ k.threadYield.readyList = [1, 3]) (by decide +kernel)
  refine ⟨tr, k, k.threadYield, hr, rfl, hq, ?_⟩
  obtain ⟨hord, -⟩ := ready_list_ordered rfl hr ha (show k.act .timer = _ from rfl)
  unfold Ordered at hord
  rw [hq] at hord
  exact (List.pairwise_cons.mp hord).1 3 (List.mem_cons_self ..)

/-- **The defect.**  Thread 3 (priority 10) holds a lock and is ready, behind thread 4 (priority
    20); the initial thread (priority 31) donates to it and blocks.  Thread 3 now has priority 31
    and is still behind thread 4, which is the one picked. -/
theorem donation_breaks_ready_order : ∃ tr k k₁ k₂,
    kernelMachine.Run (boot Boot.small) tr k ∧ k.enabled .exec = true ∧
    k.act .exec = .ok (k₁, true) ∧ k₁.nextThreadToRun = .ok (some 4, k₂) ∧
    k₁.readyList = [4, 3] ∧ k₁.prio 4 = 20 ∧ k₁.prio 3 = 31 := by
  obtain ⟨tr, k, ⟨k₁, sched⟩, hr, ha, hact, rfl, hnext, hq⟩ :=
    kernelMachine.exists_value (boot Boot.small)
      (startUp ++ creates 3 10 ++ calls (.semaDown (.user 1)) 1 ++ execs 1 ++
        calls (.lockAcquire 1) 3 ++ [.intrSemaUp (.user 1)] ++ execs 1 ++ creates 4 20 ++
        calls (.lockAcquire 1) 1) (fun k => k.act .exec) (fun k => k.enabled .exec = true)
      (fun _ x => x.2 = true ∧
        (x.1.nextThreadToRun.toOption.any fun n => decide (n.1 = some 4)) = true ∧
        x.1.readyList = [4, 3] ∧ x.1.prio 4 = 20 ∧ x.1.prio 3 = 31) (by decide +kernel)
  obtain ⟨⟨n, k₂⟩, hn, hfour⟩ := exists_ok_of_any hnext
  obtain rfl : n = some 4 := of_decide_eq_true hfour
  exact ⟨tr, k, k₁, k₂, hr, ha, hact, hn, hq⟩

end Pintos.Threads
