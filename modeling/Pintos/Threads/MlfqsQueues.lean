/-
  The queues of the advanced scheduler: `priority_levels` against `ready_list` and against `priority`.

  A ready thread is linked twice, in `ready_list` and in one of the 64 levels.  `highest_priority` has
  been 63 since `init_thread` of the initial thread, and can only rise.

  1. **Recalculation** (`updatePriority_eq`) — a ready thread whose priority changes is moved to the
     level of its new priority (`moved`).

  2. **The invariant** (`Sound b P r s`) — on top of the life cycle of threads; `P` says whether each
     thread is also in the level of its priority (`Placed`).

  3. **Consistency** (`mlfqs_queues`) — the levels are the ready list, and the search for a non-empty
     one ends, in every run.

  4. **The choice** (`mlfqs_picks_highest`) — in every run whose donations change the priority of no
     ready thread; `donation_leaves_level` is one that does.
-/
import Pintos.Threads.ReadyQueue
import Pintos.Threads.Mlfqs

namespace Pintos.Threads

open Lib Base Kernel Function Kernel Stops Meets
open List hiding head

/-! ## Arithmetic -/

/-- The faults of the arithmetic. -/
def MlfqsFault.isArithmetic : MlfqsFault → Prop
  | .overflow | .zeroDivide => True
  | _ => False

theorem int32_stops (x : Int) : Stops MlfqsFault.isArithmetic (int32 x) :=
  ite (fun _ => ok x) fun _ => error trivial

theorem intToFixedPoint_stops (n d : Int) : Stops MlfqsFault.isArithmetic (intToFixedPoint n d) :=
  (int32_stops _).bind fun _ _ => ok _

theorem addFixedPointInt_stops (x n : Int) : Stops MlfqsFault.isArithmetic (addFixedPointInt x n) :=
  (int32_stops _).bind fun _ _ => int32_stops _

theorem newLoadAvg_stops (loadAvg : Int) (ready : Nat) :
    Stops MlfqsFault.isArithmetic (newLoadAvg loadAvg ready) := by
  refine (intToFixedPoint_stops _ _).bind fun weight _ => ?_
  refine (int32_stops _).bind fun previousSeconds _ => ?_
  refine (intToFixedPoint_stops _ _).bind fun unit _ => ?_
  exact (int32_stops _).bind fun newSecond _ => int32_stops _

theorem newRecentCpu_stops (loadAvg recentCpu nice : Int) :
    Stops MlfqsFault.isArithmetic (newRecentCpu loadAvg recentCpu nice) := by
  refine (int32_stops _).bind fun twiceLoadAvg _ => ?_
  refine (addFixedPointInt_stops _ _).bind fun divisor _ => ?_
  refine bind ?_ fun quotient _ => ?_
  · exact ite (fun _ => error trivial) fun _ => ok _
  · exact (int32_stops _).bind fun coeff _ => (int32_stops _).bind fun nicePart _ => int32_stops _

theorem clampPriority_range (p : Int) : 0 ≤ clampPriority p ∧ clampPriority p ≤ 63 := by
  unfold clampPriority priMax priMin
  split
  · omega
  · split <;> omega

/-- **`update_priority` keeps within the limits.** -/
theorem newPriority_meets (recentCpu nice : Int) :
    Meets MlfqsFault.isArithmetic (fun p => 0 ≤ p ∧ p ≤ 63) (newPriority recentCpu nice) := by
  refine bind_stops (int32_stops _) fun scaled => ?_
  refine bind_stops (intToFixedPoint_stops _ _) fun nicePart => ?_
  refine bind_stops (intToFixedPoint_stops _ _) fun fixedPriMax => ?_
  refine bind_stops (int32_stops _) fun x => bind_stops (int32_stops _) fun y => ?_
  exact ok (clampPriority_range _)

/-! ## Moving between levels -/

/-- The levels with `t` moved to level `n`. -/
def moved (levels : Nat → List ThreadRef) (t : ThreadRef) (n : Nat) : Nat → List ThreadRef :=
  update (fun m => (levels m).erase t) n ((levels n).erase t ++ [t])

section

variable {levels : Nat → List ThreadRef} {high n : Nat} {ready : List ThreadRef} {t : ThreadRef}

theorem Levels.moved (h : Levels levels high ready) (hnodup : ready.Nodup) (ht : t ∈ ready)
    (hn : n ≤ high) : Levels (moved levels t n) high ready := by
  have hfresh : t ∉ ready.erase t := fun hx => (hnodup.mem_erase_iff.mp hx).1 rfl
  have hback : ∀ u, u ∈ ready ↔ u = t ∨ u ∈ ready.erase t := by
    intro u
    rw [hnodup.mem_erase_iff]
    by_cases hu : u = t
    · subst hu; simp [ht]
    · simp [hu]
  have hl := (h.erase hnodup t).enqueue (n := n) hfresh hback
  rwa [Nat.max_eq_left hn] at hl

theorem mem_moved_self : t ∈ moved levels t n n := by
  unfold moved
  rw [update_self]
  exact mem_append_right _ (mem_singleton_self t)

theorem mem_moved_of_ne {u : ThreadRef} {m : Nat} (hne : u ≠ t) (hu : u ∈ levels m) :
    u ∈ moved levels t n m := by
  have herase : u ∈ (levels m).erase t := (mem_erase_of_ne hne).mpr hu
  unfold moved
  by_cases hm : m = n
  · subst hm
    rw [update_self]
    exact mem_append_left _ herase
  · rwa [update_of_ne hm]

/-- The level search ends at the highest non-empty level. -/
theorem levelSearch_top :
    ∀ {high n : Nat}, levelSearch levels high = some n →
      n ≤ high ∧ levels n ≠ [] ∧ ∀ m, n < m → m ≤ high → levels m = []
  | 0, n, h => by
    rw [levelSearch] at h
    split at h
    · cases h
    · grind
  | high + 1, n, h => by
    rw [levelSearch] at h
    split at h
    · rename_i hempty
      obtain ⟨hle, hne, htop⟩ := levelSearch_top h
      refine ⟨Nat.le_succ_of_le hle, hne, fun m h1 h2 => ?_⟩
      rcases lt_or_eq_of_le h2 with h2 | h2
      · exact htop m h1 (by omega)
      · rw [h2]; exact hempty
    · grind

end

/-- The state after `update_priority (t)` has found `p`. -/
def Kernel.recalculated (k : Kernel) (t : ThreadRef) (p : Int) : Kernel := { k with
    thread := setPriority k.thread t p
    priorityLevels := if p ≠ k.prio t ∧ t ∈ k.readyList then moved k.priorityLevels t p.toNat
      else k.priorityLevels }

/-! ## The invariant -/

/-- Each ready thread is in the level of its priority. -/
def Placed (k : Kernel) : Prop := ∀ t ∈ k.readyList, t ∈ k.priorityLevels (k.prio t).toNat

/-- **The invariant of the advanced scheduler**, with `r` the running thread. -/
structure Sound (b : Boot) (P : Prop) (r : Option ThreadRef) (s : Mlfqs) : Prop where
  life : Life b r s.kernel
  mlfqs : s.kernel.threadMlfqs = true
  range : InRange s.kernel
  highest : s.kernel.highestPriority = 63
  placed : P → Placed s.kernel
  /-- The idle thread is in the middle of nothing but its loop. -/
  busy : ∀ t, s.pending t ≠ none → t ≠ b.idle
  written : ∀ t p, s.pending t = some (.write p) → 0 ≤ p ∧ p ≤ 63

variable {b : Boot} {r : Option ThreadRef} {k k' : Kernel} {p : Int}

theorem Life.of_status (h : Life b r k)
    {th : ThreadRef → Thread} (hst : ∀ t, (th t).status = (k.thread t).status) :
    Life b r { k with thread := th } := by
  refine { h with running := ?_, alive := ?_, ready := ?_, waiting := ?_, newborn := ?_ }
  · intro t; rw [hst]; exact h.running t
  · intro t ht; rw [hst]; exact h.alive t ht
  · intro t; rw [hst]; exact h.ready t
  · intro s t ht; rw [hst]; exact h.waiting s t ht
  · intro t u hu; rw [hst]; exact h.newborn t u hu

theorem InRange.setPriority (h : InRange k) {t : ThreadRef}
    (hp : 0 ≤ p ∧ p ≤ 63) (levels : Nat → List ThreadRef) :
    InRange { k with thread := setPriority k.thread t p, priorityLevels := levels } := by
  intro u
  show (0 ≤ (Threads.setPriority k.thread t p u).priority ∧
      (Threads.setPriority k.thread t p u).priority ≤ 63) ∧
    0 ≤ (Threads.setPriority k.thread t p u).basePriority ∧
      (Threads.setPriority k.thread t p u).basePriority ≤ 63
  rw [setPriority_priority, setPriority_basePriority]
  split
  · exact ⟨hp, (h u).2⟩
  · exact h u

/-- `highest_priority` has seen 63. -/
theorem raise_eq (hk : k.highestPriority = 63) (hp : 0 ≤ p ∧ p ≤ 63) : k.raise p = k := by
  have hmax : max k.highestPriority p.toNat = k.highestPriority := by omega
  unfold raise
  rw [hmax]

variable {P : Prop} {s s' : Mlfqs}

namespace Sound

variable {c : Option Pending} {t : ThreadRef}

section

variable (h : Sound b P r s)
include h

theorem same (hk : s'.kernel = s.kernel) (hp : s'.pending = s.pending) : Sound b P r s' := by
  refine ⟨?_, ?_, ?_, ?_, ?_, ?_, ?_⟩
  · rw [hk]; exact h.life
  · rw [hk]; exact h.mlfqs
  · rw [hk]; exact h.range
  · rw [hk]; exact h.highest
  · rw [hk]; exact h.placed
  · rw [hp]; exact h.busy
  · rw [hp]; exact h.written

theorem updatePending
    (hbusy : c ≠ none → t ≠ b.idle) (hw : ∀ p, c = some (.write p) → 0 ≤ p ∧ p ≤ 63) :
    Sound b P r { s with pending := update s.pending t c } := by
  refine ⟨h.life, h.mlfqs, h.range, h.highest, h.placed, ?_, ?_⟩
  · rw [forall_update_iff s.pending (p := fun u x => x ≠ none → u ≠ b.idle)]
    exact ⟨hbusy, fun u _ => h.busy u⟩
  · rw [forall_update_iff s.pending
      (p := fun _ x => ∀ p, x = some (.write p) → 0 ≤ p ∧ p ≤ 63)]
    exact ⟨hw, fun u _ => h.written u⟩

theorem setPending (hbusy : c ≠ none → s.kernel.current ≠ b.idle)
    (hw : ∀ p, c = some (.write p) → 0 ≤ p ∧ p ≤ 63) : Sound b P r (s.setPending c) :=
  h.updatePending hbusy hw

/-! ## Recalculation -/

/-- **`update_priority`** finds each ready thread in a level, and moves it. -/
theorem updatePriority_eq (ht : t ∈ s.kernel.allList)
    (hidle : s.kernel.idleThread ≠ some t) (hp : newPriority (s.recentCpu t) (s.nice t) = .ok p) :
    s.updatePriority t = .ok { s with kernel := s.kernel.recalculated t p } := by
  have hrange := (newPriority_meets _ _).2 p hp
  have hready : (s.kernel.thread t).status = .ready ↔ t ∈ s.kernel.readyList := by
    rw [h.life.ready t]
    exact ⟨fun hs => ⟨ht, hs, hidle⟩, fun hs => hs.2.1⟩
  have hrequeue : requeue { s.kernel with thread := setPriority s.kernel.thread t p } t
      (s.kernel.thread t).priority p = .ok (s.kernel.recalculated t p) := by
    have hst : (setPriority s.kernel.thread t p t).status = .ready ↔ t ∈ s.kernel.readyList := by
      rwa [setPriority_status]
    by_cases hmove : p ≠ s.kernel.prio t ∧ t ∈ s.kernel.readyList
    · rw [requeue, if_pos ⟨hmove.1, hst.mpr hmove.2⟩, recalculated, if_pos hmove]
      obtain ⟨n, hn⟩ := (h.life.levels h.mlfqs).cover t hmove.2
      have hle := ((h.life.levels h.mlfqs).mem n t hn).2
      rw [h.highest] at hle
      rw [relevel, if_pos]
      · rfl
      · rw [any_eq_true]
        exact ⟨n, mem_range.mpr (by omega), decide_eq_true hn⟩
    · rw [requeue, if_neg fun hx => hmove ⟨hx.1, hst.mp hx.2⟩, recalculated, if_neg hmove]
  unfold Mlfqs.updatePriority
  rw [if_neg hidle]
  refine bind_eq_ok.mpr ⟨p, hp, bind_of_ok hrequeue ?_⟩
  have hsame : (s.kernel.recalculated t p).highestPriority = 63 := h.highest
  rw [raise_eq hsame hrange]

end

theorem recalculated_placed (h : Placed k) (t : ThreadRef) (p : Int) :
    Placed (k.recalculated t p) := by
  intro u hu
  have hu' : u ∈ k.priorityLevels (k.prio u).toNat := h u hu
  show u ∈ (if p ≠ k.prio t ∧ t ∈ k.readyList then _ else _ : Nat → List ThreadRef)
    (setPriority k.thread t p u).priority.toNat
  rw [setPriority_priority]
  by_cases hut : u = t
  · subst hut
    rw [if_pos rfl]
    split
    · exact mem_moved_self
    · rename_i hsame
      have hp : p = k.prio u := by
        by_contra hne
        exact hsame ⟨hne, hu⟩
      rwa [hp]
  · rw [if_neg hut]
    split
    · exact mem_moved_of_ne hut hu'
    · exact hu'

theorem recalculated (h : Sound b P r s) (hp : 0 ≤ p ∧ p ≤ 63) (t : ThreadRef) :
    Sound b P r { s with kernel := s.kernel.recalculated t p } := by
  have hlife : Life b r { s.kernel with thread := setPriority s.kernel.thread t p } :=
    h.life.of_status fun u => setPriority_status ..
  refine ⟨{ hlife with levels := fun _ => ?_ }, h.mlfqs, h.range.setPriority hp _, h.highest,
    fun hP => recalculated_placed (h.placed hP) t p, h.busy, h.written⟩
  have hlev := h.life.levels h.mlfqs
  show Levels (if p ≠ s.kernel.prio t ∧ t ∈ s.kernel.readyList then _ else _) _ s.kernel.readyList
  split
  · rename_i hmove
    exact hlev.moved h.life.readyNodup hmove.2 (by rw [h.highest]; omega)
  · exact hlev

/-- **One `update_priority`** keeps the invariant. -/
theorem updatePriority (h : Sound b P r s) (ht : t ∈ s.kernel.allList) :
    Meets MlfqsFault.isArithmetic
      (fun s' => Sound b P r s' ∧ s'.kernel.allList = s.kernel.allList ∧
        s'.kernel.current = s.kernel.current)
      (s.updatePriority t) := by
  by_cases hidle : s.kernel.idleThread = some t
  · rw [Mlfqs.updatePriority, if_pos hidle]
    exact ok ⟨h, rfl, rfl⟩
  cases hp : newPriority (s.recentCpu t) (s.nice t) with
  | error f =>
    have hf : s.updatePriority t = .error f := by
      rw [Mlfqs.updatePriority, if_neg hidle, hp]
      rfl
    rw [hf]
    exact error ((newPriority_meets _ _).1 f hp)
  | ok p =>
    rw [h.updatePriority_eq ht hidle hp]
    exact ok ⟨h.recalculated ((newPriority_meets _ _).2 p hp) t, rfl, rfl⟩

/-! ## The timer interrupt -/

/-- A step of the clock that leaves threads and queues alone. -/
def Kept (s s' : Mlfqs) : Prop := s'.kernel = s.kernel ∧ s'.pending = s.pending

theorem countTick_meets (s : Mlfqs) : Meets MlfqsFault.isArithmetic (Kept s) s.countTick := by
  refine ite (fun _ => ok ⟨rfl, rfl⟩) fun _ => ?_
  exact bind_stops (addFixedPointInt_stops _ _) fun _ => ok ⟨rfl, rfl⟩

theorem updateRecentCpu_meets (s : Mlfqs) (t : ThreadRef) :
    Meets MlfqsFault.isArithmetic (Kept s) (s.updateRecentCpu t) := by
  refine ite (fun _ => ok ⟨rfl, rfl⟩) fun _ => ?_
  exact bind_stops (newRecentCpu_stops _ _ _) fun _ => ok ⟨rfl, rfl⟩

theorem updateLoadAvg_meets (s : Mlfqs) : Meets MlfqsFault.isArithmetic (Kept s) s.updateLoadAvg :=
  bind_stops (newLoadAvg_stops _ _) fun _ => ok ⟨rfl, rfl⟩

theorem everySecond_meets (s : Mlfqs) : Meets MlfqsFault.isArithmetic (Kept s) s.everySecond := by
  refine ite (fun _ => ?_) fun _ => ok ⟨rfl, rfl⟩
  refine (updateLoadAvg_meets s).bind fun s1 h1 => ?_
  refine foldlM (I := fun _ s' => Kept s s') ?_ _ s1 h1
  intro t ts s2 h2
  exact (updateRecentCpu_meets s2 t).mono fun s3 h3 => ⟨h3.1.trans h2.1, h3.2.trans h2.2⟩

theorem everyFourth (h : Sound b P r s) :
    Meets MlfqsFault.isArithmetic
      (fun s' => Sound b P r s' ∧ s'.kernel.current = s.kernel.current) s.everyFourth := by
  refine ite (fun _ => ?_) fun _ => ok ⟨h, rfl⟩
  -- what is left of `all_list' is on the list, which does not change
  have hloop := foldlM (P := MlfqsFault.isArithmetic) (f := Mlfqs.updatePriority)
    (I := fun l s' => Sound b P r s' ∧ (∀ t ∈ l, t ∈ s'.kernel.allList) ∧
      s'.kernel.current = s.kernel.current) ?_ s.kernel.allList s ⟨h, fun t ht => ht, rfl⟩
  · exact hloop.mono fun s' hs => ⟨hs.1, hs.2.2⟩
  rintro t ts s1 ⟨h1, hmem, hcur⟩
  refine (h1.updatePriority (hmem t (mem_cons_self ..))).mono ?_
  rintro s2 ⟨h2, hall, hcur2⟩
  refine ⟨h2, fun u hu => ?_, hcur2.trans hcur⟩
  rw [hall]
  exact hmem u (mem_cons_of_mem t hu)

/-- After a section: the invariant, with the running thread gone if it ends with `schedule ()`. -/
def After (b : Boot) (P : Prop) (x : Mlfqs × Bool) : Prop :=
  Sound b P (if x.2 then none else some x.1.kernel.current) x.1

end Sound

/-! ### Insertions -/

/-- Inserting a thread puts it into the level of its priority. -/
theorem placed_rule (P : Prop) :
    QueueRule fun k => k.threadMlfqs = true ∧ k.highestPriority = 63 ∧ (P → Placed k) where
  same := by
    rintro k k' ⟨hm, hh, hpl⟩ hs hp
    refine ⟨hs.threadMlfqs.trans hm, hs.highestPriority.trans hh, fun hP t ht => ?_⟩
    rw [hs.readyList] at ht
    rw [hs.priorityLevels, hp t ht]
    exact hpl hP t ht
  enqueue := by
    rintro k t ⟨hm, hh, hpl⟩ hr
    have hlevel := (hr t).1
    unfold prio at hlevel
    refine ⟨hm, ?_, fun hP u hu => ?_⟩
    · show (if k.threadMlfqs then max k.highestPriority _ else _) = 63
      rw [if_pos hm, hh]
      omega
    · show u ∈ (if k.threadMlfqs then update k.priorityLevels (k.prio t).toNat
        (k.priorityLevels (k.prio t).toNat ++ [t]) else _ : Nat → List ThreadRef) (k.prio u).toNat
      rw [if_pos hm]
      rcases mem_listInsertOrdered.mp hu with rfl | hu
      · rw [update_self]
        exact mem_append_right _ (mem_singleton_self u)
      · by_cases hsame : (k.prio u).toNat = (k.prio t).toNat
        · rw [hsame, update_self, ← hsame]
          exact mem_append_left _ (hpl hP u hu)
        · rw [update_of_ne hsame]
          exact hpl hP u hu

theorem Placed.schedule (h : Placed k) (hl : Life b none k)
    (hm : k.threadMlfqs = true) (hk : k.schedule = .ok k') : Placed k' := by
  have hp : k'.prio = k.prio := funext (schedule_sync hk).priority
  obtain ⟨n, k1, hn, -, rfl⟩ := schedule_eq_ok hk
  intro t ht
  rw [hp]
  have ht1 : t ∈ k1.readyList := ht
  unfold nextThreadToRun at hn
  split at hn
  · obtain ⟨-, rfl⟩ := Prod.mk.inj (Except.ok.inj hn)
    exact h t ht1
  rw [if_pos hm] at hn
  split at hn
  · cases hn
  rename_i level hlevel
  split at hn
  · cases hn
  rename_i m ms hms
  obtain ⟨-, rfl⟩ := Prod.mk.inj (Except.ok.inj hn)
  obtain ⟨hne, hmem⟩ := hl.readyNodup.mem_erase_iff.mp ht1
  have hlev := h t hmem
  show t ∈ update k.priorityLevels level ms _
  by_cases hsame : (k.prio t).toNat = level
  · rw [hsame, update_self]
    rw [hsame, hms] at hlev
    rcases mem_cons.mp hlev with rfl | hlev
    · exact absurd rfl hne
    · exact hlev
  · rwa [update_of_ne hsame]

/-! ## Every section -/

/-- A donation gives no ready thread a priority that it does not have. -/
def keepsLevels (s : Mlfqs) : MlfqsAction → Prop
  | .kernel a => ∀ l ∈ s.kernel.acquires a, s.kernel.donates l = true →
      ∀ t ∈ s.kernel.readyList, t ∈ s.kernel.donees l →
        s.kernel.prio t = s.kernel.prio s.kernel.current
  | _ => True

instance (s : Mlfqs) (a : MlfqsAction) : Decidable (keepsLevels s a) :=
  match a with
  | .kernel a => inferInstanceAs (Decidable (∀ l ∈ s.kernel.acquires a, _ → _))
  | .tick | .setNice _ | .pending => inferInstanceAs (Decidable True)

variable {tr : List (Mlfqs × MlfqsAction)}

namespace Sound

variable {a : Action} {sched : Bool} {t : ThreadRef}

theorem enabled_kernel (ha : s.enabled (.kernel a) = true) : s.kernel.enabled a = true := by
  cases a with
  | exec | call i => exact ((Bool.and_eq_true _ _).mp ha).2
  | timer => exact absurd ha (by simp [Mlfqs.enabled])
  | intrSemaUp x | intrSemaTryDown x | unblock t => exact ha

theorem kernelAct (h : Sound b P (some s.kernel.current) s)
    (ha : s.kernel.enabled a = true) (hg : P → keepsLevels s (.kernel a))
    (hk : s.kernel.act a = .ok (k, sched)) : After b P ({ s with kernel := k }, sched) := by
  have hrule := (placed_rule P).act ⟨h.mlfqs, h.highest, h.placed⟩ h.range h.life ha ?_ hk
  · have hgood := h.life.good_act ha
    rw [hk] at hgood
    obtain ⟨hm, hh, hpl⟩ := hrule
    cases sched with
    | true => exact ⟨hgood, hm, h.range.act hk, hh, hpl, h.busy, h.written⟩
    | false => exact ⟨hgood, hm, h.range.act hk, hh, hpl, h.busy, h.written⟩
  · intro l hl k' hs hp
    refine ⟨hs.threadMlfqs.trans h.mlfqs, hs.highestPriority.trans h.highest, fun hP t ht => ?_⟩
    rw [hs.readyList] at ht
    rw [hs.priorityLevels, hp]
    have hlev := h.placed hP t ht
    simp only [prioAfter]
    split
    · rename_i hdon
      rwa [← hg hP l hl hdon.1 t ht hdon.2]
    · exact hlev

theorem initThread (h : Sound b P (some s.kernel.current) s) (hne : s.kernel.current ≠ b.idle) :
    Meets MlfqsFault.isArithmetic
      (fun s' => Sound b P (some s'.kernel.current) s') (s.initThread t) := by
  refine (newPriority_meets _ _).bind fun p hp => ok ?_
  rw [raise_eq h.highest hp]
  have hcleared := h.updatePending (t := t) (c := none) (by simp) (by simp)
  refine Sound.setPending ?_ (fun _ => hne) fun q hq => ?_
  · exact hcleared.same rfl rfl
  · cases hq

/-- The thread that an action creates is created by an ordinary thread. -/
theorem newThread_eq (hl : Alive b s.kernel) (h : s.newThread a = some t) :
    s.kernel.current ≠ b.idle ∧ ∃ p, a = .exec ∧ s.kernel.does .exec = some (.threadCreate t p) := by
  cases a with
  | exec =>
    cases hc : s.kernel.code s.kernel.current with
    | nil => simp [Mlfqs.newThread, head, hc] at h
    | cons i =>
      cases i with
      | threadCreate u p =>
        obtain rfl : u = t := by simpa [Mlfqs.newThread, head, hc] using h
        exact ⟨hl.not_idle_of_head hc rfl, p, rfl, by simp [does, head, hc]⟩
      | _ => simp [Mlfqs.newThread, head, hc] at h
  | _ => simp [Mlfqs.newThread] at h

/-- The section of `thread_create` leaves the running thread where it is. -/
theorem act_create
    (hd : k.does .exec = some (.threadCreate t p)) (hk : k.act .exec = .ok (k', sched)) :
    k'.current = k.current ∧ sched = false := by
  cases hc : k.code k.current with
  | nil => simp [does, head, hc] at hd
  | cons i =>
    obtain rfl : i = .threadCreate t p := by simpa [does, head, hc] using hd
    simp only [act, hc] at hk
    obtain ⟨hcreate, hs⟩ := continues_eq_ok hk
    obtain ⟨-, rfl⟩ := eq_of_guard hcreate
    exact ⟨rfl, hs⟩

section

variable (h : Sound b P (some s.kernel.current) s)
include h

theorem threadTick : Meets MlfqsFault.isArithmetic (After b P) s.threadTick := by
  refine (countTick_meets _).bind fun s1 h1 => ?_
  refine (everySecond_meets s1).bind fun s2 h2 => ?_
  have hs2 : Sound b P (some s2.kernel.current) s2 := by
    have hk : s2.kernel = s.kernel := h2.1.trans h1.1
    rw [hk]
    exact h.same hk (h2.2.trans h1.2)
  refine hs2.everyFourth.bind fun s3 h3 => ok ?_
  obtain ⟨hs3, hcur⟩ := h3
  rw [← hcur] at hs3
  unfold Mlfqs.enforce
  split
  · have hrule := (placed_rule P).yield ⟨hs3.mlfqs, hs3.highest, hs3.placed⟩ hs3.range
    obtain ⟨hm, hh, hpl⟩ := hrule
    have hsync := threadYield_sync s3.kernel
    exact ⟨hs3.life.yield, hm, hs3.range.of_eq hsync.priority hsync.basePriority, hh, hpl, hs3.busy,
      hs3.written⟩
  · exact hs3.same rfl rfl

theorem pendingStep {c : Pending} (hc : s.pending s.kernel.current = some c) :
    Meets MlfqsFault.isArithmetic
      (fun s' => Sound b P (some s'.kernel.current) s') (s.pendingStep c) := by
  have hne : s.kernel.current ≠ b.idle := h.busy _ (by rw [hc]; simp)
  cases c with
  | update =>
    refine ite (fun _ => ok ?_) fun _ => ?_
    · exact h.setPending (fun _ => hne) (by simp)
    · refine (newPriority_meets _ _).bind fun p hp => ok ?_
      refine h.setPending (fun _ => hne) fun q hq => ?_
      obtain rfl : p = q := by simpa using hq
      exact hp
  | write p =>
    have hp := h.written _ p hc
    have hset : Sound b P (some s.kernel.current) { s with kernel :=
        { s.kernel with thread := setPriority s.kernel.thread s.kernel.current p } } := by
      refine ⟨h.life.of_status fun u => setPriority_status .., h.mlfqs, h.range.setPriority hp _,
        h.highest, fun hP t ht => ?_, h.busy, h.written⟩
      -- the running thread is in no level
      have hcur : t ≠ s.kernel.current :=
        h.life.ne_current (by rw [((h.life.ready t).mp ht).2.1]; decide)
      show t ∈ s.kernel.priorityLevels (setPriority _ _ p t).priority.toNat
      rw [setPriority_priority, if_neg hcur]
      exact h.placed hP t ht
    have hraise := raise_eq (k := { s.kernel with
      thread := setPriority s.kernel.thread s.kernel.current p }) h.highest hp
    simp only [Mlfqs.pendingStep, hraise]
    exact ok (hset.setPending (fun _ => hne) (by simp))
  | test =>
    refine ite (fun _ => ok ?_) fun _ => ok ?_
    · have hlife : Life b (some (s.kernel.push [.threadYield]).current)
          (s.kernel.push [.threadYield]) :=
        h.life.quiet hne [.threadYield]
          ⟨rfl, rfl, rfl, rfl, rfl, rfl, fun _ => rfl, fun _ => Subperm.refl _⟩ rfl rfl rfl
      have hpush : Sound b P (some s.kernel.current)
          { s with kernel := s.kernel.push [.threadYield] } :=
        ⟨hlife, h.mlfqs, h.range, h.highest, h.placed, h.busy, h.written⟩
      exact hpush.setPending (by simp) (by simp)
    · exact h.setPending (by simp) (by simp)
  | inherit t =>
    refine ok ?_
    exact Sound.setPending (s := s.copyTo t) (h.same rfl rfl) (by simp) (by simp)

/-- **Every section keeps the invariant**, and finds in a level each thread that it takes out of one. -/
theorem act {a : MlfqsAction} (ha : s.enabled a = true)
    (hg : P → keepsLevels s a) : Meets (· ≠ .unlinked) (After b P) (s.act a) := by
  have harith : ∀ f : MlfqsFault, f.isArithmetic → f ≠ .unlinked := by
    rintro f hf rfl
    exact hf
  -- a section that does not end with `schedule'
  have hstays : ∀ {m : Except MlfqsFault Mlfqs},
      Meets (· ≠ .unlinked) (fun s' => Sound b P (some s'.kernel.current) s') m →
      Meets (· ≠ .unlinked) (After b P) (do let s' ← m; .ok (s', false)) :=
    fun hm => hm.bind fun s' hs => ok hs
  cases a with
  | kernel a =>
    simp only [Mlfqs.act]
    cases hk : s.kernel.act a with
    | error => exact error (by simp)
    | ok x =>
      obtain ⟨k, sched⟩ := x
      have hafter := h.kernelAct (enabled_kernel ha) hg hk
      cases hn : s.newThread a with
      | none => exact ok hafter
      | some t =>
        obtain ⟨hne, p, rfl, hd⟩ := newThread_eq h.life hn
        obtain ⟨hcur, rfl⟩ := act_create hd hk
        have hinit := initThread (s := { s with kernel := k }) (t := t) hafter (by rwa [hcur])
        exact hstays (hinit.weaken harith)
  | tick => exact h.threadTick.weaken harith
  | setNice =>
    have hne : s.kernel.current ≠ b.idle := by
      refine h.life.not_idle_of_nil ?_
      have := ((Bool.and_eq_true _ _).mp ha).2
      simpa using this
    refine hstays (ite (fun _ => ok ?_) fun _ => error (by simp))
    refine Sound.setPending ?_ (fun _ => hne) fun p hp => absurd hp (by simp)
    exact h.same rfl rfl
  | pending =>
    simp only [Mlfqs.act]
    cases hc : s.pending s.kernel.current with
    | none => exact ok h
    | some => exact hstays ((h.pendingStep hc).weaken harith)

end

/-- **`schedule ()` succeeds.** -/
theorem schedule (h : Sound b P none s) : ∃ k', s.kernel.schedule = .ok k' ∧
    Sound b P (some k'.current) { s with kernel := k', threadTicks := 0 } := by
  obtain ⟨k', hk, hl⟩ := h.life.schedule
  have hhigh : k'.highestPriority = s.kernel.highestPriority := by
    obtain ⟨n, ready, levels, hn, -⟩ := h.life.next
    obtain ⟨m, k1, hn', -, rfl⟩ := schedule_eq_ok hk
    rw [hn] at hn'
    obtain ⟨-, rfl⟩ := Prod.mk.inj (Except.ok.inj hn')
    rfl
  refine ⟨k', hk, hl, (schedule_sync hk).threadMlfqs.trans h.mlfqs, h.range.schedule hk,
    hhigh.trans h.highest, fun hP => ?_, h.busy, h.written⟩
  exact (h.placed hP).schedule h.life h.mlfqs hk

/-- **One step** keeps the invariant. -/
theorem step {a : MlfqsAction} (h : Sound b P (some s.kernel.current) s) (ha : s.enabled a = true)
    (hg : P → keepsLevels s a) (hs : s.step a = .ok s') : Sound b P (some s'.kernel.current) s' := by
  have hact := (h.act ha hg).2
  unfold Mlfqs.step at hs
  rw [if_pos h.life.current_running] at hs
  match hx : s.act a, hs with
  | .ok (s1, true), hs =>
    obtain ⟨k', hk, hsound⟩ := schedule (hact _ hx)
    simp only [Mlfqs.finish, hk] at hs
    cases hs
    exact hsound
  | .ok (s1, false), hs =>
    cases hs
    exact hact _ hx

theorem init (hm : b.mlfqs = true) (P : Prop) :
    Sound b P (some (Mlfqs.boot b).kernel.current) (Mlfqs.boot b) := by
  have h63 : (newPriority 0 0).toOption.getD 0 = 63 := by decide
  have hhigh : (Mlfqs.boot b).kernel.highestPriority = 63 := by
    show max 0 ((newPriority 0 0).toOption.getD 0).toNat = 63
    rw [h63]
    rfl
  refine ⟨{ Life.init b with levels := fun hmk => ?_ }, hm, InRange.init b, hhigh, fun _ t ht => ?_,
    by simp [Mlfqs.boot], by simp [Mlfqs.boot]⟩
  · have hl := (Life.init b).levels hmk
    refine { hl with mem := fun n t ht => ⟨(hl.mem n t ht).1, ?_⟩ }
    have h0 : n ≤ 0 := (hl.mem n t ht).2
    omega
  · -- the idle thread, with priority 0, is in level 0
    obtain rfl : t = b.idle := mem_singleton.mp ht
    show b.idle ∈ if b.mlfqs ∧ (b.thread b.idle).priority.toNat = 0 then [b.idle] else []
    have hp : (b.thread b.idle).priority = 0 := by
      rw [Boot.thread, if_neg b.main_ne_idle.symm, if_pos rfl]
      rfl
    rw [hp, if_pos ⟨hm, rfl⟩]
    exact mem_singleton_self _

/-- **Every run** keeps the invariant. -/
theorem run (hm : b.mlfqs = true)
    {C : Mlfqs → MlfqsAction → Prop} (hC : P → ∀ s a, C s a → keepsLevels s a)
    (h : (mlfqsMachine.guard C).Run (Mlfqs.boot b) tr s) : Sound b P (some s.kernel.current) s := by
  refine h.invariant (I := fun s => Sound b P (some s.kernel.current) s) (init hm P) ?_
  rintro s a s' hs ⟨ha, hg⟩ hstep
  exact hs.step ha (fun hP => hC hP s a hg) hstep

end Sound

/-! ## Consistency -/

/-- The threads linked in `ready_list` are those linked in the levels 0 to 63, each in one of them and
    once; no level above `highest_priority` has a thread; and priorities are indices of levels. -/
structure QueuesOk (k : Kernel) : Prop where
  ready : ∀ t, t ∈ k.readyList ↔ ∃ n, n ≤ 63 ∧ t ∈ k.priorityLevels n
  disjoint : ∀ n m t, t ∈ k.priorityLevels n → t ∈ k.priorityLevels m → n = m
  once : k.readyList.Nodup ∧ ∀ n, (k.priorityLevels n).Nodup
  below : ∀ n, k.priorityLevels n ≠ [] → n ≤ k.highestPriority
  highest : k.highestPriority ≤ 63
  index : ∀ t, 0 ≤ (k.thread t).priority ∧ (k.thread t).priority ≤ 63

theorem Sound.queuesOk (h : Sound b P r s) : QueuesOk s.kernel := by
  have hl := h.life.levels h.mlfqs
  have h63 := h.highest
  refine ⟨fun t => ⟨fun ht => ?_, ?_⟩, hl.unique, ⟨h.life.readyNodup, hl.nodup⟩, fun n hn => ?_,
    by omega, fun t => (h.range t).1⟩
  · obtain ⟨n, hn⟩ := hl.cover t ht
    have := (hl.mem n t hn).2
    exact ⟨n, by omega, hn⟩
  · rintro ⟨n, -, hn⟩
    exact (hl.mem n t hn).1
  · obtain ⟨t, ts, hts⟩ := exists_cons_of_ne_nil hn
    exact (hl.mem n t (by rw [hts]; exact mem_cons_self ..)).2

theorem QueuesOk.search (h : QueuesOk k) (hne : k.readyList ≠ []) :
    ∃ n, n ≤ 63 ∧ levelSearch k.priorityLevels k.highestPriority = some n ∧
      k.priorityLevels n ≠ [] := by
  obtain ⟨t, ts, hts⟩ := exists_cons_of_ne_nil hne
  obtain ⟨m, -, hm⟩ := (h.ready t).mp (by rw [hts]; exact mem_cons_self ..)
  have hmne := ne_nil_of_mem hm
  obtain ⟨n, hn, hn'⟩ := levelSearch_eq_some (h.below m hmne) hmne
  exact ⟨n, le_trans (h.below n hn') h.highest, hn, hn'⟩

/-- **The queues stay consistent and the level search is safe**, in every state reached and after every
    section, with whatever interleaving of calls, of the steps of `thread_set_nice` and of timer
    interrupts: when a section ends with `schedule ()`, that succeeds; and `update_priority` never
    unlinks a thread that is not linked. -/
theorem mlfqs_queues (hm : b.mlfqs = true) (h : mlfqsMachine.Run (Mlfqs.boot b) tr s) :
    QueuesOk s.kernel ∧ ∀ a, s.enabled a = true → s.act a ≠ .error .unlinked ∧
      ∀ s₁ sched, s.act a = .ok (s₁, sched) → QueuesOk s₁.kernel ∧
        (s₁.kernel.readyList ≠ [] → ∃ n, n ≤ 63 ∧
          levelSearch s₁.kernel.priorityLevels s₁.kernel.highestPriority = some n ∧
          s₁.kernel.priorityLevels n ≠ []) ∧
        (sched = true → ∃ k', s₁.kernel.schedule = .ok k') := by
  have hs : Sound b False (some s.kernel.current) s :=
    Sound.run hm False.elim (h.to_guard (C := fun _ _ => True) fun _ _ => trivial)
  refine ⟨hs.queuesOk, fun a ha => ?_⟩
  obtain ⟨hstop, hret⟩ := hs.act ha False.elim
  refine ⟨fun he => hstop _ he rfl, fun s₁ sched hact => ?_⟩
  have hafter := hret _ hact
  refine ⟨hafter.queuesOk, hafter.queuesOk.search, ?_⟩
  rintro rfl
  obtain ⟨k', hk, -⟩ := Sound.schedule hafter
  exact ⟨k', hk⟩

/-- The current thread creates thread `t`, up to the end of `thread_create`. -/
def mlfqsCreates (t : ThreadRef) (priority : Int) : List MlfqsAction :=
  (calls (.threadCreate t priority) 1).map .kernel ++ [.pending] ++ (execs 7).map .kernel

/-- The initial thread has been inside `thread_set_nice` while three ticks went by, and a fourth ends its
    time slice. -/
theorem mlfqs_queues_slice : ∃ tr s s₁,
    mlfqsMachine.Run (Mlfqs.boot Boot.smallMlfqs) tr s ∧ s.act .tick = .ok (s₁, true) ∧
    s₁.kernel.readyList = [3, 1] ∧ QueuesOk s₁.kernel ∧ ∃ k', s₁.kernel.schedule = .ok k' := by
  obtain ⟨tr, s, ⟨s₁, sched⟩, hr, ha, hact, rfl, hready⟩ :=
    mlfqsMachine.exists_value (Mlfqs.boot Boot.smallMlfqs)
      (startUp.map .kernel ++ mlfqsCreates 3 31 ++
        [.tick, .setNice 5, .tick, .pending, .tick, .pending]) (fun s => s.act .tick)
      (fun s => s.enabled .tick = true)
      (fun _ x => x.2 = true ∧ x.1.kernel.readyList = [3, 1]) (by decide +kernel)
  obtain ⟨hok, -, hsched⟩ := ((mlfqs_queues rfl hr).2 .tick ha).2 s₁ true hact
  exact ⟨tr, s, s₁, hr, hact, hready, hok, hsched rfl⟩

/-! ## The choice -/

/-- Where each thread is in the level of its priority, the thread taken has the highest one. -/
theorem Sound.highest_next (h : Sound b True r s)
    (hne : s.kernel.readyList ≠ []) : ∃ n k', s.kernel.nextThreadToRun = .ok (some n, k') ∧
      n ∈ s.kernel.readyList ∧ ∀ t ∈ s.kernel.readyList, s.kernel.prio t ≤ s.kernel.prio n := by
  have hl := h.life.levels h.mlfqs
  obtain ⟨level, -, hsearch, hlevel⟩ := h.queuesOk.search hne
  obtain ⟨t0, ts, hts⟩ := exists_cons_of_ne_nil hne
  obtain ⟨n, ns, hns⟩ := exists_cons_of_ne_nil hlevel
  have hn : n ∈ s.kernel.priorityLevels level := by rw [hns]; exact mem_cons_self ..
  have hmem : n ∈ s.kernel.readyList := (hl.mem level n hn).1
  refine ⟨n, { s.kernel with
      priorityLevels := update s.kernel.priorityLevels level ns
      readyList := s.kernel.readyList.erase n }, ?_, hmem, fun t ht => ?_⟩
  · unfold nextThreadToRun
    rw [hts]
    simp only [h.mlfqs, if_true, hsearch, hns]
  · -- the level of `t' is not above the one found, which is the level of `n'
    have hat := h.placed trivial t ht
    have hsame := hl.unique _ _ n hn (h.placed trivial n hmem)
    obtain ⟨-, -, htop⟩ := levelSearch_top hsearch
    have hle : (s.kernel.prio t).toNat ≤ level := by
      by_contra hlt
      have hempty := htop _ (by omega) (hl.mem _ t hat).2
      rw [hempty] at hat
      exact absurd hat not_mem_nil
    have h2 := (h.range n).1
    omega

/-- **The thread picked has the highest priority**, in every run whose donations give no ready thread
    a priority that it does not have: each ready thread is then in the level of its priority, in every
    state reached and after every section. -/
theorem mlfqs_picks_highest (hm : b.mlfqs = true)
    (h : (mlfqsMachine.guard keepsLevels).Run (Mlfqs.boot b) tr s) :
    Placed s.kernel ∧ ∀ a s₁ sched, s.enabled a = true → keepsLevels s a →
      s.act a = .ok (s₁, sched) → Placed s₁.kernel ∧
        (s₁.kernel.readyList ≠ [] → ∃ n k', s₁.kernel.nextThreadToRun = .ok (some n, k') ∧
          n ∈ s₁.kernel.readyList ∧
          ∀ t ∈ s₁.kernel.readyList, (s₁.kernel.thread t).priority ≤ (s₁.kernel.thread n).priority) := by
  have hs : Sound b True (some s.kernel.current) s := Sound.run hm (fun _ _ _ hg => hg) h
  refine ⟨hs.placed trivial, fun a s₁ sched ha hg hact => ?_⟩
  have hafter := (hs.act ha fun _ => hg).2 _ hact
  exact ⟨hafter.placed trivial, hafter.highest_next⟩

/-- A time slice ends with two threads of different priority ready. -/
theorem mlfqs_picks_highest_slice : ∃ tr s s₁ n k',
    (mlfqsMachine.guard keepsLevels).Run (Mlfqs.boot Boot.smallMlfqs) tr s ∧
    s.act .tick = .ok (s₁, true) ∧ s₁.kernel.readyList = [1, 3] ∧
    s₁.kernel.nextThreadToRun = .ok (some n, k') ∧
    (s₁.kernel.thread 1).priority ≤ (s₁.kernel.thread n).priority ∧
    (s₁.kernel.thread 3).priority ≤ (s₁.kernel.thread n).priority := by
  obtain ⟨tr, s, ⟨s₁, sched⟩, hr, ha, hact, rfl, hready⟩ :=
    (mlfqsMachine.guard keepsLevels).exists_value (Mlfqs.boot Boot.smallMlfqs)
      (startUp.map .kernel ++ mlfqsCreates 3 20 ++ [.tick, .tick, .tick]) (fun s => s.act .tick)
      (fun s => s.enabled .tick = true)
      (fun _ x => x.2 = true ∧ x.1.kernel.readyList = [1, 3]) (by decide +kernel)
  obtain ⟨-, hnext⟩ := (mlfqs_picks_highest rfl hr).2 .tick s₁ true ha trivial hact
  obtain ⟨n, k', hn, -, hmax⟩ := hnext (by rw [hready]; simp)
  rw [hready] at hmax
  exact ⟨tr, s, s₁, n, k', hr, hact, hready, hn, hmax 1 (by simp), hmax 3 (by simp)⟩

/-- **The defect.**  Thread 3 (priority 20) holds a lock and is ready; the initial thread
    (priority 31) donates to it and blocks.  Thread 3 now has priority 31 and is still in level 20, and
    the thread picked is thread 4, of priority 25. -/
theorem donation_leaves_level : ∃ tr s s₁ k',
    mlfqsMachine.Run (Mlfqs.boot Boot.smallMlfqs) tr s ∧ s.enabled (.kernel .exec) = true ∧
    s.act (.kernel .exec) = .ok (s₁, true) ∧ s₁.kernel.nextThreadToRun = .ok (some 4, k') ∧
    s₁.kernel.readyList = [4, 3] ∧ s₁.kernel.priorityLevels 20 = [3] ∧
    (s₁.kernel.thread 4).priority = 25 ∧ (s₁.kernel.thread 3).priority = 31 := by
  obtain ⟨tr, s, ⟨s₁, sched⟩, hr, ha, hact, rfl, hnext, hq⟩ :=
    mlfqsMachine.exists_value (Mlfqs.boot Boot.smallMlfqs)
      (startUp.map .kernel ++ mlfqsCreates 3 20 ++
        (calls (.semaDown (.user 1)) 1 ++ execs 1 ++ calls (.lockAcquire 1) 3 ++
          [Action.intrSemaUp (.user 1)] ++ execs 1).map .kernel ++
        mlfqsCreates 4 25 ++ (calls (.lockAcquire 1) 1).map .kernel)
      (fun s => s.act (.kernel .exec)) (fun s => s.enabled (.kernel .exec) = true)
      (fun _ x => x.2 = true ∧
        (x.1.kernel.nextThreadToRun.toOption.any fun n => decide (n.1 = some 4)) = true ∧
        x.1.kernel.readyList = [4, 3] ∧ x.1.kernel.priorityLevels 20 = [3] ∧
        (x.1.kernel.thread 4).priority = 25 ∧ (x.1.kernel.thread 3).priority = 31)
      (by decide +kernel)
  obtain ⟨⟨n, k'⟩, hn, hfour⟩ := exists_ok_of_any hnext
  obtain rfl : n = some 4 := of_decide_eq_true hfour
  exact ⟨tr, s, s₁, k', hr, ha, hact, hn, hq⟩

end Pintos.Threads
