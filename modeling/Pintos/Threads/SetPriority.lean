/-
  `thread_set_priority`: what a sequence of calls leaves, and when a call yields.

  The caller may have donors.  A new priority above its effective one makes it FORGET them
  (`list_init`); any other leaves the effective priority as it is.

  1. **One call** (`setPriority_call`) — base priority, effective priority and donors after it.

  2. **Sequences** (`only_last_counts`) — a call that forgets the donors is final: from then on the
     caller has no donors, however many threads wait for its locks.

  3. **The yield** (`setPriority_yields`) — the call looks at the thread in front of `ready_list`, or
     at a word before the list if it is empty.
-/
import Pintos.Threads.Donors

namespace Pintos.Threads

open Base Kernel Function List

/-! ## One call -/

/-- The effective priority of the running thread after `thread_set_priority (p)`. -/
def Kernel.priorityFor (k : Kernel) (p : Int) : Int :=
  if k.donors k.current = [] ∨ k.prio k.current < p then p else k.prio k.current

section

variable {k k' : Kernel} {p q junk : Int} {ps : List Int}

theorem threadSetPriority_current : (k.threadSetPriority p junk).1.current = k.current := by
  unfold Kernel.threadSetPriority
  split
  · simp only
    split
    · unfold Kernel.threadYield
      split <;> rfl
    · rfl
  · rfl

/-- **What one call does** to the record of its caller. -/
theorem setPriority_call (hp : 0 ≤ p ∧ p ≤ 63) (hk : (k.threadSetPriority p junk).1 = k') :
    k'.base k.current = p ∧ k'.prio k.current = k.priorityFor p ∧
    k'.donors k.current = if k.prio k.current < p then [] else k.donors k.current := by
  subst hk
  have heff : RecordEffect k (.threadSetPriority p junk) _ := threadSetPriority_record
  refine ⟨?_, ?_, ?_⟩
  · rw [heff.base, baseAfter, if_pos hp.symm, update_self]
  · rw [heff.prio, prioAfter, priorityFor]
    by_cases hset : k.donors k.current = [] ∨ k.prio k.current < p
    · rw [if_pos hset, if_pos ⟨hp.symm, hset⟩, update_self]
    · rw [if_neg hset, if_neg fun hx => hset hx.2]
  · rw [heff.donors, donorsAfter]
    by_cases hlt : k.prio k.current < p
    · rw [if_pos hlt, if_pos ⟨hp.symm, hlt⟩, update_self]
    · rw [if_neg hlt, if_neg fun hx => hlt hx.2]

/-! ## Sequences of calls -/

/-- Calls of `thread_set_priority` in a row, by the running thread: none of them yields, the last one
    apart. -/
inductive SetCalls : Kernel → List Int → Kernel → Prop
  | last (k : Kernel) (p junk : Int) : SetCalls k [p] (k.threadSetPriority p junk).1
  | more {k k' : Kernel} {p junk : Int} {ps : List Int}
      (hstay : (k.threadSetPriority p junk).2 = false)
      (hrest : SetCalls (k.threadSetPriority p junk).1 ps k') : SetCalls k (p :: ps) k'

theorem SetCalls.ne_nil (h : SetCalls k ps k') : ps ≠ [] := by
  cases h <;> simp

/-- **What the calls leave**: the last value, if there are no donors or if some call has made the
    caller forget them. -/
theorem setPriority_calls (h : SetCalls k ps k') (hps : ∀ p ∈ ps, 0 ≤ p ∧ p ≤ 63)
    (hq : ps.getLast? = some q) :
    k'.base k.current = q ∧
    k'.prio k.current =
      if k.donors k.current = [] ∨ ∃ p ∈ ps, k.prio k.current < p then q else k.prio k.current := by
  induction h with
  | last k p =>
    obtain rfl : p = q := by simpa using hq
    obtain ⟨hbase, hprio, -⟩ := setPriority_call (hps p (mem_cons_self ..)) rfl
    refine ⟨hbase, hprio.trans ?_⟩
    simp only [priorityFor, mem_singleton, exists_eq_left]
  | @more k k' p junk ps hstay hrest ih =>
    obtain ⟨hp, hps'⟩ := forall_mem_cons.mp hps
    obtain ⟨hbase, hprio, hdonors⟩ :=
      setPriority_call hp (show (k.threadSetPriority p junk).1 = _ from rfl)
    have hq' : ps.getLast? = some q := by
      rwa [getLast?_cons_of_ne_nil hrest.ne_nil] at hq
    have hrun := ih hps' hq'
    rw [threadSetPriority_current, hprio, hdonors] at hrun
    refine ⟨hrun.1, hrun.2.trans ?_⟩
    by_cases hnil : k.donors k.current = []
    · simp [hnil]
    by_cases hlt : k.prio k.current < p
    · -- this call forgets the donors
      simp [hlt]
    · simp [priorityFor, hnil, hlt]

/-- **Only the last base priority counts**, EXACTLY IF there are no donors; or no value exceeds the
    priority that the caller has, and that priority is the right one for the last value too; or some
    value exceeds it, and no donor is above the last value. -/
theorem only_last_counts (h : SetCalls k ps k') (hps : ∀ p ∈ ps, 0 ≤ p ∧ p ≤ 63)
    (hq : ps.getLast? = some q) :
    (k'.base k.current = q ∧ k'.prio k.current = maxOver k.prio q (k.donors k.current)) ↔
      k.donors k.current = [] ∨
      ((∀ p ∈ ps, p ≤ k.prio k.current) ∧
        k.prio k.current = maxOver k.prio q (k.donors k.current)) ∨
      ((∃ p ∈ ps, k.prio k.current < p) ∧ ∀ d ∈ k.donors k.current, k.prio d ≤ q) := by
  obtain ⟨hbase, hprio⟩ := setPriority_calls h hps hq
  rw [hbase, hprio, and_iff_right rfl]
  by_cases hnil : k.donors k.current = []
  · simp [hnil, maxOver]
  by_cases hsome : ∃ p ∈ ps, k.prio k.current < p
  · have hnot : ¬ ∀ p ∈ ps, p ≤ k.prio k.current := by
      obtain ⟨p, hp, hlt⟩ := hsome
      exact fun hall => absurd (hall p hp) (Int.not_le.mpr hlt)
    rw [if_pos (.inr hsome), maxOver_eq_iff]
    constructor
    · rintro ⟨-, hle, -⟩
      exact .inr (.inr ⟨hsome, hle⟩)
    · rintro (hx | ⟨hx, -⟩ | ⟨-, hle⟩)
      · exact absurd hx hnil
      · exact absurd hx hnot
      · exact ⟨Int.le_refl _, hle, .inl rfl⟩
  · have hall : ∀ p ∈ ps, p ≤ k.prio k.current :=
      fun p hp => Int.not_lt.mp fun hlt => hsome ⟨p, hp, hlt⟩
    rw [if_neg fun hx => hx.elim hnil hsome]
    constructor
    · exact fun heq => .inr (.inl ⟨hall, heq⟩)
    · rintro (hx | ⟨-, heq⟩ | ⟨hx, -⟩)
      · exact absurd hx hnil
      · exact heq
      · exact absurd hx hsome

end

/-- The initial thread holds lock 1, for which thread 3, of priority 35, waits. -/
def oneDonor : List Action :=
  startUp ++ calls (.lockAcquire 1) 3 ++ creates 3 35 ++ execs 1 ++ calls (.lockAcquire 1) 2

/-- Two values below the donation: it stays in force. -/
theorem only_last_counts_below : ∃ tr k k', kernelMachine.Run (boot Boot.small) tr k ∧
    k.donors k.current = [3] ∧ SetCalls k [34, 10] k' ∧ k'.base k.current = 10 ∧
    k'.prio k.current = maxOver k.prio 10 (k.donors k.current) := by
  obtain ⟨tr, k, hr, hdon, h3, hcur, hstay⟩ := kernelMachine.exists_reached (boot Boot.small) oneDonor
    (fun _ k => k.donors k.current = [3] ∧ k.prio 3 = 35 ∧ k.prio k.current = 35 ∧
      (k.threadSetPriority 34 0).2 = false) (by decide +kernel)
  have hcalls : SetCalls k [34, 10] _ := .more hstay (.last _ 10 0)
  refine ⟨tr, k, _, hr, hdon, hcalls, (only_last_counts hcalls (by decide) rfl).mpr ?_⟩
  refine .inr (.inl ⟨by simp [hcur], ?_⟩)
  rw [hdon, hcur]
  simp only [maxOver, foldr, h3]
  decide

/-- **The defect.**  The first value is above the donation and makes the caller forget it; the second
    is below, and becomes the effective priority, although thread 3 still waits. -/
theorem set_priority_forgets : ∃ tr k k', kernelMachine.Run (boot Boot.small) tr k ∧
    k.donors k.current = [3] ∧ SetCalls k [40, 10] k' ∧ k'.waits 3 = some 1 ∧
    k'.holder 1 = some k.current ∧ k'.prio k.current = 10 ∧
    maxOver k.prio 10 (k.donors k.current) = 35 := by
  obtain ⟨tr, k, hr, hk⟩ := kernelMachine.exists_run_of_play (boot Boot.small) oneDonor
    (fun _ k => decide (k.donors k.current = [3] ∧ (k.threadSetPriority 40 0).2 = false) &&
      let k' := ((k.threadSetPriority 40 0).1.threadSetPriority 10 0).1
      decide (k'.waits 3 = some 1 ∧ k'.holder 1 = some k.current ∧ k'.prio k.current = 10 ∧
        maxOver k.prio 10 (k.donors k.current) = 35)) (by decide +kernel)
  obtain ⟨hk, hafter⟩ := Bool.and_eq_true_iff.mp hk
  obtain ⟨hdon, hstay⟩ := of_decide_eq_true hk
  exact ⟨tr, k, _, hr, hdon, .more hstay (.last _ 10 0), of_decide_eq_true hafter⟩

/-! ## The yield -/

section

variable {k k₁ : Kernel} {p junk : Int} {sched : Bool}

/-- What `thread_set_priority` compares: the result with what it takes for the first ready thread. -/
theorem threadSetPriority_sched (hp : 0 ≤ p ∧ p ≤ 63) : (k.threadSetPriority p junk).2 = true ↔
      (k.setBasePriority p).prio k.current < (k.setBasePriority p).readyHeadPriority junk := by
  unfold Kernel.threadSetPriority
  rw [if_pos hp.symm]
  simp only
  split
  · rename_i hlt
    exact ⟨fun _ => hlt, fun _ => rfl⟩
  · rename_i hlt
    exact ⟨fun hx => absurd hx (by simp), fun hx => absurd hx hlt⟩

/-- **The call yields exactly when it must**, that is when a ready thread has a higher priority than
    its result, EXACTLY IF what it looks at decides: with nobody ready, the word before the list does
    not exceed the result; otherwise, if any ready thread exceeds it the first one does. -/
theorem setPriority_yields {b : Boot} {tr : List (Kernel × Action)}
    (hr : kernelMachine.Run (boot b) tr k) (hp : 0 ≤ p ∧ p ≤ 63)
    (hd : k.head k.current = some (.threadSetPriority p junk)) (hk : k.act .exec = .ok (k₁, sched)) :
    (sched = true ↔ ∃ t ∈ k.readyList, k₁.prio k.current < k₁.prio t) ↔
      (k.readyList = [] → junk ≤ k.priorityFor p) ∧
      ∀ h ts, k.readyList = h :: ts →
        (∃ t ∈ ts, k.priorityFor p < k.prio t) → k.priorityFor p < k.prio h := by
  have hact : k.act .exec = .ok (k.pop.threadSetPriority p junk) := act_exec hd
  obtain ⟨rfl, rfl⟩ : k₁ = (k.pop.threadSetPriority p junk).1 ∧
      sched = (k.pop.threadSetPriority p junk).2 := by
    rw [hact] at hk
    exact ⟨congrArg Prod.fst (Except.ok.inj hk).symm, congrArg Prod.snd (Except.ok.inj hk).symm⟩
  have hcur : (k.pop.threadSetPriority p junk).1.prio k.current = k.priorityFor p :=
    (setPriority_call hp rfl).2.1
  have hbase : RecordEffect k.pop (.threadSetPriority p junk) _ := setBasePriority_record hp.symm
  have hwhole : RecordEffect k.pop (.threadSetPriority p junk) _ := threadSetPriority_record
  -- the call writes no priority of a ready thread
  have hready : ∀ t ∈ k.readyList, k.pop.prioAfter (.threadSetPriority p junk) t = k.prio t := by
    intro t ht
    have hl := (run_sound hr).1
    have hne : t ≠ k.current := hl.ne_current (by rw [((hl.ready t).mp ht).2.1]; decide)
    rw [prioAfter]
    split
    · exact update_of_ne hne ..
    · rfl
  have hmust : (∃ t ∈ k.readyList, (k.pop.threadSetPriority p junk).1.prio k.current <
      (k.pop.threadSetPriority p junk).1.prio t) ↔ ∃ t ∈ k.readyList, k.priorityFor p < k.prio t := by
    refine exists_congr fun t => and_congr_right fun ht => ?_
    rw [hcur, hwhole.prio, hready t ht]
  rw [hmust, threadSetPriority_sched hp]
  have hres : (k.pop.setBasePriority p).prio k.pop.current = k.priorityFor p := by
    rwa [hbase.prio, ← hwhole.prio]
  rw [hres]
  cases hlist : k.readyList with
  | nil =>
    have hhead : (k.pop.setBasePriority p).readyHeadPriority junk = junk := by
      rw [readyHeadPriority, show (k.pop.setBasePriority p).readyList = [] from hlist]
    rw [hhead]
    simp
  | cons h ts =>
    have hhead : (k.pop.setBasePriority p).readyHeadPriority junk = k.prio h := by
      have hh := hready h (by rw [hlist]; exact mem_cons_self ..)
      rw [← hbase.prio] at hh
      rw [← hh, readyHeadPriority, show (k.pop.setBasePriority p).readyList = h :: ts from hlist]
      rfl
    rw [hhead]
    constructor
    · intro hiff
      refine ⟨fun hx => absurd hx (by simp), ?_⟩
      rintro h' ts' heq ⟨t, ht, hlt⟩
      obtain ⟨rfl, rfl⟩ := cons.inj heq
      exact hiff.mpr ⟨t, mem_cons_of_mem _ ht, hlt⟩
    · rintro ⟨-, hfirst⟩
      refine ⟨fun hlt => ⟨h, mem_cons_self .., hlt⟩, ?_⟩
      rintro ⟨t, ht, hlt⟩
      rcases mem_cons.mp ht with rfl | ht
      · exact hlt
      · exact hfirst h ts rfl ⟨t, ht, hlt⟩

end

/-- The initial thread goes below thread 3, which is ready with priority 20, and yields. -/
theorem setPriority_yields_below : ∃ tr k k₁, kernelMachine.Run (boot Boot.small) tr k ∧
    k.act .exec = .ok (k₁, true) ∧ ∃ t ∈ k.readyList, k₁.prio k.current < k₁.prio t := by
  obtain ⟨tr, k, ⟨k₁, sched⟩, hr, ⟨hd, hlist⟩, hok, rfl⟩ :=
    kernelMachine.exists_value (boot Boot.small)
      (startUp ++ creates 3 20 ++ [.call (.threadSetPriority 10 0)]) (fun k => k.act .exec)
      (fun k => k.head k.current = some (.threadSetPriority 10 0) ∧ k.readyList = [3])
      (fun _ x => x.2 = true) (by decide)
  refine ⟨tr, k, k₁, hr, hok, ((setPriority_yields hr (by decide) hd hok).mpr ⟨?_, ?_⟩).mp rfl⟩
  · rw [hlist]
    exact fun hx => absurd hx (by simp)
  · rintro h ts heq ⟨t, ht, -⟩
    rw [hlist] at heq
    obtain ⟨rfl, rfl⟩ := cons.inj heq
    cases ht

/-- **The defect.**  Thread 3, of priority 20, is ready and behind thread 6 when the donation of the
    initial thread raises it to 31.  Thread 5 goes from 25 to 28: it looks at thread 6, of priority
    25, and goes on running. -/
theorem set_priority_stays : ∃ tr k k₁, kernelMachine.Run (boot Boot.small) tr k ∧
    k.head k.current = some (.threadSetPriority 28 0) ∧ k.act .exec = .ok (k₁, false) ∧
    k.readyList = [6, 3] ∧ k₁.prio k.current = 28 ∧ k₁.prio 6 = 25 ∧ k₁.prio 3 = 31 := by
  obtain ⟨tr, k, ⟨k₁, sched⟩, hr, ⟨hd, hlist⟩, hok, rfl, hprios⟩ :=
    kernelMachine.exists_value (boot Boot.small)
      (startUp ++ creates 3 20 ++ calls (.semaDown (.user 1)) 1 ++ execs 1 ++
        calls (.lockAcquire 1) 3 ++ [.intrSemaUp (.user 1)] ++ execs 1 ++ creates 5 25 ++
        creates 6 25 ++ calls (.lockAcquire 1) 2 ++ execs 1 ++ [.call (.threadSetPriority 28 0)])
      (fun k => k.act .exec)
      (fun k => k.head k.current = some (.threadSetPriority 28 0) ∧ k.readyList = [6, 3])
      (fun k x => x.2 = false ∧ x.1.prio k.current = 28 ∧ x.1.prio 6 = 25 ∧ x.1.prio 3 = 31)
      (by decide +kernel)
  exact ⟨tr, k, k₁, hr, hd, hok, hlist, hprios⟩

end Pintos.Threads
