/-
  The arithmetic of the advanced scheduler stays within `int32_t`.

  With at most `N` threads, `load_avg` is at most `N`, so the factor by which `recent_cpu` decays every
  second is at most `2N / (2N + 1)`, and the bounds of `recent_cpu` are those of which the decay, 100
  ticks and a `nice` of 20 make no more:

      (240N + 120) · 2N / (2N + 1) + 20  =  240N + 20,      100 ticks later 240N + 120;
      (40N + 20) · 2N / (2N + 1) + 20    =  40N + 20        on the other side of zero.

  **The invariant** (`Bounds b N e s`) — `e` is the number of ticks since the last recalculation of
  `recent_cpu`.  The theorem (`mlfqs_arithmetic`) is about the states inside `thread_tick` too.
-/
import Pintos.Threads.MlfqsQueues

namespace Pintos.Threads

open Lib Base Kernel Function List Meets Mlfqs

/-! ## Values -/

variable {x : Int}

theorem int32_eq (h1 : -2147483648 ≤ x) (h2 : x < 2147483648) : int32 x = .ok x := if_pos ⟨h1, h2⟩

theorem addFixedPointInt_eq {n : Int} (h1 : -2147483648 ≤ n * 16384) (h2 : n * 16384 < 2147483648)
    (h3 : -2147483648 ≤ x + n * 16384) (h4 : x + n * 16384 < 2147483648) :
    addFixedPointInt x n = .ok (x + n * 16384) :=
  bind_eq_ok.mpr ⟨_, int32_eq h1 h2, int32_eq h3 h4⟩

variable {loadAvg : Int}

/-- `load_avg` stays an average: 16110 and 273 add up to less than `F`. -/
theorem newLoadAvg_eq {N : Int} {ready : Nat} (hN : N ≤ 500)
    (h0 : 0 ≤ loadAvg) (hl : loadAvg ≤ N * 16384) (hr : ready ≤ N) :
    ∃ l, newLoadAvg loadAvg ready = .ok l ∧ 0 ≤ l ∧ l ≤ N * 16384 := by
  have hmul : Fixed.mul fixedOne 16110 loadAvg = 16110 * loadAvg / 16384 :=
    Int.tdiv_eq_ediv_of_nonneg (by omega)
  have hprev : int32 (Fixed.mul fixedOne 16110 loadAvg) = .ok (16110 * loadAvg / 16384) := by
    rw [hmul]
    exact int32_eq (by omega) (by omega)
  have hnew : int32 (273 * (ready : Int)) = .ok (273 * (ready : Int)) :=
    int32_eq (by omega) (by omega)
  have hsum : int32 (16110 * loadAvg / 16384 + 273 * (ready : Int)) = .ok _ :=
    int32_eq (by omega) (by omega)
  refine ⟨_, bind_eq_ok.mpr ⟨16110, rfl, bind_eq_ok.mpr ⟨_, hprev, bind_eq_ok.mpr ⟨273, rfl,
    bind_eq_ok.mpr ⟨_, hnew, hsum⟩⟩⟩⟩, by omega, by omega⟩

variable {recentCpu nice : Int}

/-- **The decay of `recent_cpu`.** -/
theorem newRecentCpu_eq {N : Int} (hN0 : 0 ≤ N) (hN : N ≤ 500)
    (h0 : 0 ≤ loadAvg) (hl : loadAvg ≤ N * 16384) (hn : -20 ≤ nice ∧ nice ≤ 20)
    (hlow : -((40 * N + 20) * 16384) ≤ recentCpu) (hhigh : recentCpu ≤ (240 * N + 120) * 16384) :
    ∃ r, newRecentCpu loadAvg recentCpu nice = .ok r ∧
      -((40 * N + 20) * 16384) ≤ r ∧ r ≤ (240 * N + 20) * 16384 := by
  have htwice : int32 (2 * loadAvg) = .ok (2 * loadAvg) := int32_eq (by omega) (by omega)
  have hdivisor : addFixedPointInt (2 * loadAvg) 1 = .ok (2 * loadAvg + 1 * 16384) :=
    addFixedPointInt_eq (by omega) (by omega) (by omega) (by omega)
  obtain ⟨hc0, hc⟩ := Fixed.ratio_le (x := 2 * loadAvg) (m := 2 * N)
    (show (0 : Int) < 16384 by decide) (by omega) (by omega)
  have hquotient : fixedDiv (2 * loadAvg) (2 * loadAvg + 1 * 16384) =
      .ok (Fixed.div 16384 (2 * loadAvg) (2 * loadAvg + 16384)) := by
    rw [fixedDiv, if_neg (by omega), one_mul]
    rfl
  generalize Fixed.div 16384 (2 * loadAvg) (2 * loadAvg + 16384) = c at hc0 hc hquotient
  -- the factor is a fixed-point number itself
  have hcle : c ≤ c * (2 * N + 1) := by
    have := Int.mul_le_mul_of_nonneg_left (show 1 ≤ 2 * N + 1 by omega) hc0
    omega
  have hcoeff : int32 c = .ok c := int32_eq (by omega) (by omega)
  have hnice : int32 (nice * fixedOne) = .ok (nice * 16384) := by
    unfold fixedOne
    exact int32_eq (by omega) (by omega)
  have hup := Fixed.mul_le_of_ratio (R := 120 * 16384) (r := recentCpu) (by omega)
    (show 0 ≤ 2 * N by omega) hc0 hc (by omega) (by omega)
  have hdown := Fixed.le_mul_of_ratio (R := 20 * 16384) (r := recentCpu) (by omega)
    (show 0 ≤ 2 * N by omega) hc0 hc (by omega) (by omega)
  have hsum : int32 (Fixed.mul 16384 c recentCpu + nice * 16384) =
      .ok (Fixed.mul 16384 c recentCpu + nice * 16384) := int32_eq (by omega) (by omega)
  refine ⟨_, bind_eq_ok.mpr ⟨_, htwice, bind_eq_ok.mpr ⟨_, hdivisor, bind_eq_ok.mpr ⟨_, hquotient,
    bind_eq_ok.mpr ⟨_, hcoeff, bind_eq_ok.mpr ⟨_, hnice, hsum⟩⟩⟩⟩⟩, by omega, by omega⟩

theorem newPriority_eq (hn : -20 ≤ nice ∧ nice ≤ 20)
    (hlow : -2000000000 ≤ recentCpu) (hhigh : recentCpu ≤ 2000000000) :
    ∃ p, newPriority recentCpu nice = .ok p ∧ 0 ≤ p ∧ p ≤ 63 := by
  have hscaled : int32 (2 * nice) = .ok (2 * nice) := int32_eq (by omega) (by omega)
  have hnice : intToFixedPoint (2 * nice) 1 = .ok (2 * nice * 16384) := by
    refine bind_eq_ok.mpr ⟨2 * nice * 16384, int32_eq ?_ ?_, ?_⟩
    · unfold fixedOne; omega
    · unfold fixedOne; omega
    · rw [Int.tdiv_one]
  have hquarter : recentCpu.tdiv 4 ≤ 500000000 ∧ -500000000 ≤ recentCpu.tdiv 4 := by
    rcases le_total 0 recentCpu with h | h
    · rw [Int.tdiv_eq_ediv_of_nonneg h]
      omega
    · have hneg : recentCpu.tdiv 4 = -((-recentCpu) / 4) := by
        rw [← Int.tdiv_eq_ediv_of_nonneg (by omega), Int.neg_tdiv, Int.neg_neg]
      omega
  have hx : int32 (1032192 - recentCpu.tdiv 4) = .ok (1032192 - recentCpu.tdiv 4) :=
    int32_eq (by omega) (by omega)
  have hy : int32 (1032192 - recentCpu.tdiv 4 - 2 * nice * 16384) = .ok _ :=
    int32_eq (by omega) (by omega)
  refine ⟨_, bind_eq_ok.mpr ⟨_, hscaled, bind_eq_ok.mpr ⟨_, hnice, bind_eq_ok.mpr ⟨1032192, rfl,
    bind_eq_ok.mpr ⟨_, hx, bind_of_ok hy rfl⟩⟩⟩⟩, clampPriority_range _⟩

/-! ## The invariant -/

/-- The values of a thread that is recalculated, `e` ticks after the last recalculation. -/
structure Bounds (N : Nat) (e : Int) (s : Mlfqs) : Prop where
  load : 0 ≤ s.loadAvg ∧ s.loadAvg ≤ N * 16384
  nice : ∀ t ∈ s.kernel.allList, -20 ≤ s.nice t ∧ s.nice t ≤ 20
  low : ∀ t ∈ s.kernel.allList, -((40 * N + 20) * 16384) ≤ s.recentCpu t
  high : ∀ t ∈ s.kernel.allList, s.recentCpu t ≤ (240 * N + 120) * 16384
  /-- The idle thread apart, a thread has gained at most `e` ticks. -/
  fine : ∀ t ∈ s.kernel.allList, s.kernel.idleThread ≠ some t →
    s.recentCpu t ≤ (240 * N + 20 + e) * 16384

namespace Bounds

variable {b : Boot} {N : Nat} {e : Int} {s s' : Mlfqs} {t : ThreadRef}

section

variable (h : Bounds N e s)
include h

theorem mono {e' : Int} (he : e ≤ e') (hload : s'.loadAvg = s.loadAvg)
    (hnice : s'.nice = s.nice) (hcpu : s'.recentCpu = s.recentCpu)
    (hall : ∀ t ∈ s'.kernel.allList, t ∈ s.kernel.allList)
    (hidle : ∀ t, s.kernel.idleThread = some t → s'.kernel.idleThread = some t) :
    Bounds N e' s' := by
  refine ⟨?_, fun t ht => ?_, fun t ht => ?_, fun t ht => ?_, fun t ht hne => ?_⟩
  · rw [hload]; exact h.load
  · rw [hnice]; exact h.nice t (hall t ht)
  · rw [hcpu]; exact h.low t (hall t ht)
  · rw [hcpu]; exact h.high t (hall t ht)
  · rw [hcpu]
    have := h.fine t (hall t ht) fun hi => hne (hidle t hi)
    omega

theorem same (hload : s'.loadAvg = s.loadAvg) (hnice : s'.nice = s.nice)
    (hcpu : s'.recentCpu = s.recentCpu) (hall : s'.kernel.allList = s.kernel.allList)
    (hidle : s'.kernel.idleThread = s.kernel.idleThread) : Bounds N e s' :=
  h.mono (le_refl e) hload hnice hcpu (fun _ ht => hall ▸ ht) fun _ ht => hidle.trans ht

theorem copyTo (hcur : s.kernel.current ∈ s.kernel.allList)
    (hidle : s.kernel.idleThread ≠ some s.kernel.current)
    (hload : s'.loadAvg = s.loadAvg) (hnice : s'.nice = (s.copyTo t).nice)
    (hcpu : s'.recentCpu = (s.copyTo t).recentCpu)
    (hall : ∀ u ∈ s'.kernel.allList, u = t ∨ u ∈ s.kernel.allList)
    (hidle' : ∀ u, s.kernel.idleThread = some u → s'.kernel.idleThread = some u) :
    Bounds N e s' := by
  -- each thread has the values of some thread that there was
  have hfrom : ∀ u ∈ s'.kernel.allList, ∃ v ∈ s.kernel.allList, s'.nice u = s.nice v ∧
      s'.recentCpu u = s.recentCpu v ∧
      (s'.kernel.idleThread ≠ some u → s.kernel.idleThread ≠ some v) := by
    intro u hu
    rw [hnice, hcpu]
    by_cases hut : u = t
    · subst hut
      exact ⟨_, hcur, by simp [Mlfqs.copyTo], by simp [Mlfqs.copyTo], fun _ => hidle⟩
    · refine ⟨u, (hall u hu).resolve_left hut, ?_, ?_, fun hne hi => hne (hidle' u hi)⟩
      · simp [Mlfqs.copyTo, hut]
      · simp [Mlfqs.copyTo, hut]
  refine ⟨hload ▸ h.load, fun u hu => ?_, fun u hu => ?_, fun u hu => ?_, fun u hu hne => ?_⟩
  all_goals obtain ⟨v, hv, hn, hc, hi⟩ := hfrom u hu
  · rw [hn]; exact h.nice v hv
  · rw [hc]; exact h.low v hv
  · rw [hc]; exact h.high v hv
  · rw [hc]; exact h.fine v hv (hi hne)

theorem write {r : Int} (hlow : -((40 * N + 20) * 16384) ≤ r) (hhigh : r ≤ (240 * N + 120) * 16384)
    (hfine : r ≤ (240 * N + 20 + e) * 16384) :
    Bounds N e { s with recentCpu := update s.recentCpu t r } := by
  refine ⟨h.load, h.nice, fun u hu => ?_, fun u hu => ?_, fun u hu hne => ?_⟩
  all_goals
    simp only
    by_cases hut : u = t
  · subst hut; rw [update_self]; exact hlow
  · rw [update_of_ne hut]; exact h.low u hu
  · subst hut; rw [update_self]; exact hhigh
  · rw [update_of_ne hut]; exact h.high u hu
  · subst hut; rw [update_self]; exact hfine
  · rw [update_of_ne hut]; exact h.fine u hu hne

theorem priority (hN : N ≤ 500) (ht : t ∈ s.kernel.allList) :
    ∃ p, newPriority (s.recentCpu t) (s.nice t) = .ok p ∧ 0 ≤ p ∧ p ≤ 63 := by
  have h1 := h.low t ht
  have h2 := h.high t ht
  exact newPriority_eq (h.nice t ht) (by omega) (by omega)

end

/-! ## The timer interrupt -/

def never : MlfqsFault → Prop := fun _ => False

/-- The kernel and the time are those of `s`. -/
def Clock (s s' : Mlfqs) : Prop :=
  s'.kernel = s.kernel ∧ s'.ticks = s.ticks ∧ s'.pending = s.pending

theorem countTick (h : Bounds N e s) (hN : N ≤ 500) (he0 : 0 ≤ e) (he : e ≤ 99)
    (hcur : s.kernel.current ∈ s.kernel.allList) :
    Meets never (fun s' => Bounds N (e + 1) s' ∧ Clock s s') s.countTick := by
  refine ite (fun _ => ok ⟨?_, rfl, rfl, rfl⟩) fun hidle => ?_
  · exact h.mono (by omega) rfl rfl rfl (fun t ht => ht) fun t ht => ht
  have hlow := h.low _ hcur
  have hfine := h.fine _ hcur hidle
  have hadd : addFixedPointInt (s.recentCpu s.kernel.current) 1 =
      .ok (s.recentCpu s.kernel.current + 1 * 16384) :=
    addFixedPointInt_eq (by omega) (by omega) (by omega) (by omega)
  rw [hadd]
  refine ok ⟨?_, rfl, rfl, rfl⟩
  have hlater : Bounds N (e + 1) s :=
    h.mono (by omega) rfl rfl rfl (fun t ht => ht) fun t ht => ht
  exact hlater.write (by omega) (by omega) (by omega)

variable {P : Prop} {r : Option ThreadRef} {l rest : List ThreadRef} {k k' : Kernel} {a : Action}

/-- The ready threads are threads, and the running one is not among them. -/
theorem countReady_le (h : Sound b P (some s.kernel.current) s) :
    s.countReadyThreads ≤ s.kernel.allList.length := by
  have hmem : ∀ t ∈ s.kernel.readyList, t ∈ s.kernel.allList :=
    fun t ht => ((h.life.ready t).mp ht).1
  have hnot : s.kernel.current ∉ s.kernel.readyList := fun hx => by
    have := ((h.life.ready _).mp hx).2.1
    rw [h.life.current_running] at this
    cases this
  have hle : (s.kernel.current :: s.kernel.readyList).length ≤ s.kernel.allList.length := by
    refine Subperm.length_le (Nodup.subperm ?_ ?_)
    · exact nodup_cons.mpr ⟨hnot, h.life.readyNodup⟩
    · intro t ht
      rcases mem_cons.mp ht with rfl | ht
      · exact h.life.runMem _ rfl
      · exact hmem t ht
  rw [length_cons] at hle
  unfold countReadyThreads
  split <;> omega

theorem updateLoadAvg (h : Bounds N e s) (hN : N ≤ 500) (hready : s.countReadyThreads ≤ N) :
    Meets never (fun s' => Bounds N e s' ∧ Clock s s') s.updateLoadAvg := by
  obtain ⟨l, hl, hl0, hlN⟩ := newLoadAvg_eq (N := N) (by omega) h.load.1 h.load.2
    (show (s.countReadyThreads : Int) ≤ N by omega)
  unfold Mlfqs.updateLoadAvg
  rw [hl]
  exact ok ⟨⟨⟨hl0, hlN⟩, h.nice, h.low, h.high, h.fine⟩, rfl, rfl, rfl⟩

/-- What holds while `recent_cpu` is being recalculated, with the threads `rest` still to come. -/
def Decaying (N : Nat) (s : Mlfqs) (rest : List ThreadRef) (s' : Mlfqs) : Prop :=
  Bounds N 100 s' ∧ Clock s s' ∧ ∀ t ∈ s.kernel.allList, t ∉ rest → s.kernel.idleThread ≠ some t →
    s'.recentCpu t ≤ (240 * N + 20) * 16384

theorem updateRecentCpu (hN : N ≤ 500) {ts : List ThreadRef}
    (ht : t ∈ s.kernel.allList) (h : Decaying N s (t :: ts) s') :
    Meets never (Decaying N s ts) (s'.updateRecentCpu t) := by
  obtain ⟨hb, hclock, hdone⟩ := h
  have hk : s'.kernel = s.kernel := hclock.1
  have ht' : t ∈ s'.kernel.allList := by rwa [hk]
  have hother : ∀ u, u ≠ t → u ∉ ts → u ∉ t :: ts := fun u hut hu hx =>
    (mem_cons.mp hx).elim hut hu
  refine ite (fun hidle => ok ⟨hb, hclock, fun u hu hrest hne => ?_⟩) fun _ => ?_
  · refine hdone u hu (hother u (fun hut => hne ?_) hrest) hne
    rwa [hut, ← hk]
  obtain ⟨r, hr, hlow, hhigh⟩ := newRecentCpu_eq (N := N) (by omega) (by omega) hb.load.1
    hb.load.2 (hb.nice t ht') (hb.low t ht') (hb.high t ht')
  rw [hr]
  refine ok ⟨hb.write hlow (by omega) (by omega), hclock, fun u hu hrest hne => ?_⟩
  show update s'.recentCpu t r u ≤ _
  by_cases hut : u = t
  · subst hut; rw [update_self]; exact hhigh
  · rw [update_of_ne hut]
    exact hdone u hu (hother u hut hrest) hne

/-- The loop that recalculates `recent_cpu`, up to wherever it has come. -/
theorem decaying (h : Bounds N 100 s) (hN : N ≤ 500) (hl : l ++ rest = s.kernel.allList) :
    Meets never (Decaying N s rest) (l.foldlM Mlfqs.updateRecentCpu s) := by
  have hloop := foldlM_append (P := never) (f := Mlfqs.updateRecentCpu)
    (I := fun rest s' => (∀ t ∈ rest, t ∈ s.kernel.allList) ∧ Decaying N s rest s') ?_ rest l s ?_
  · exact hloop.mono fun s' hs => hs.2
  · rintro t ts s1 ⟨hmem, hs1⟩
    refine (updateRecentCpu hN (hmem t (mem_cons_self ..)) hs1).mono fun s2 hs2 => ⟨?_, hs2⟩
    exact fun u hu => hmem u (mem_cons_of_mem t hu)
  · refine ⟨fun t ht => hl ▸ ht, h, ⟨rfl, rfl, rfl⟩, fun t ht hrest => ?_⟩
    rw [hl] at hrest
    exact absurd ht hrest

/-- **Every second**, the count of ticks starts again. -/
theorem everySecond (h : Bounds N e s) (hN : N ≤ 500) (he : e ≤ 100)
    (hready : s.countReadyThreads ≤ N) :
    Meets never (fun s' => Bounds N (if s.ticks % 100 = 0 then 0 else e) s' ∧ Clock s s')
      s.everySecond := by
  have h100 : Bounds N 100 s := h.mono he rfl rfl rfl (fun t ht => ht) fun t ht => ht
  unfold Mlfqs.everySecond
  split
  · refine (h100.updateLoadAvg hN hready).bind ?_
    rintro s1 ⟨h1, hk, ht, hp⟩
    refine (h1.decaying hN (append_nil _)).mono ?_
    rintro s2 ⟨h2, ⟨hk2, ht2, hp2⟩, hdone⟩
    refine ⟨⟨h2.load, h2.nice, h2.low, h2.high, fun t ht hne => ?_⟩, hk2.trans hk, ht2.trans ht,
      hp2.trans hp⟩
    rw [hk2] at ht hne
    have := hdone t ht not_mem_nil hne
    omega
  · exact ok ⟨h, rfl, rfl, rfl⟩

/-- What holds while priorities are being recalculated. -/
def Recalculating (b : Boot) (P : Prop) (r : Option ThreadRef) (N : Nat) (e : Int) (s s' : Mlfqs) :
    Prop :=
  Sound b P r s' ∧ Bounds N e s' ∧ s'.kernel.allList = s.kernel.allList ∧ s'.ticks = s.ticks

/-- The loop that recalculates priorities, up to wherever it has come. -/
theorem recalculating (hs : Sound b P r s) (h : Bounds N e s)
    (hN : N ≤ 500) (hl : l ++ rest = s.kernel.allList) :
    Meets never (Recalculating b P r N e s) (l.foldlM Mlfqs.updatePriority s) := by
  have hloop := foldlM_append (P := never) (f := updatePriority)
    (I := fun rest s' => (∀ t ∈ rest, t ∈ s.kernel.allList) ∧ Recalculating b P r N e s s') ?_
    rest l s ⟨fun t ht => hl ▸ ht, hs, h, rfl, rfl⟩
  · exact hloop.mono fun s' hs => hs.2
  rintro t ts s1 ⟨hmem, hs1, h1, hall, hticks⟩
  have hrest : ∀ u ∈ ts, u ∈ s.kernel.allList := fun u hu => hmem u (mem_cons_of_mem t hu)
  have ht : t ∈ s1.kernel.allList := by rw [hall]; exact hmem t (mem_cons_self ..)
  by_cases hidle : s1.kernel.idleThread = some t
  · rw [updatePriority, if_pos hidle]
    exact ok ⟨hrest, hs1, h1, hall, hticks⟩
  · obtain ⟨p, hp, hrange⟩ := h1.priority hN ht
    rw [hs1.updatePriority_eq ht hidle hp]
    exact ok ⟨hrest, hs1.recalculated hrange t, h1.same rfl rfl rfl rfl rfl, hall, hticks⟩

theorem everyFourth (hs : Sound b P r s) (h : Bounds N e s)
    (hN : N ≤ 500) : Meets never (Recalculating b P r N e s) s.everyFourth :=
  ite (fun _ => recalculating hs h hN (append_nil _)) fun _ => ok ⟨hs, h, rfl, rfl⟩

theorem ticks_succ (n : Nat) :
    ((if (n + 1) % 100 = 0 then 0 else ((n % 100 : Nat) : Int) + 1) : Int) = ((n + 1) % 100 : Nat) := by
  split <;> omega

/-- **A tick** never stops. -/
theorem threadTick (hs : Sound b P (some s.kernel.current) s)
    (h : Bounds N (s.ticks % 100 : Nat) s) (hN : N ≤ 500) (hlen : s.kernel.allList.length ≤ N) :
    Meets never (fun x => Bounds N (x.1.ticks % 100 : Nat) x.1) s.threadTick := by
  have hready := countReady_le hs
  have h0 : Bounds N (s.ticks % 100 : Nat) { s with ticks := s.ticks + 1 } :=
    h.same rfl rfl rfl rfl rfl
  refine (h0.countTick hN (by omega) (by omega) (hs.life.runMem _ rfl)).bind ?_
  rintro s1 ⟨h1, hk1, ht1, hp1⟩
  have hready1 : s1.countReadyThreads ≤ N := by
    unfold countReadyThreads at hready ⊢
    rw [hk1]
    exact le_trans hready hlen
  refine (h1.everySecond hN (by omega) hready1).bind ?_
  rintro s2 ⟨h2, hk2, ht2, hp2⟩
  rw [ht1] at h2
  rw [show ({ s with ticks := s.ticks + 1 } : Mlfqs).ticks = s.ticks + 1 from rfl, ticks_succ] at h2
  have hs2 : Sound b P (some s.kernel.current) s2 := hs.same (hk2.trans hk1) (hp2.trans hp1)
  refine (everyFourth hs2 h2 hN).bind ?_
  rintro s3 ⟨-, h3, -, ht3⟩
  have hticks : s3.ticks = s.ticks + 1 := ht3.trans (ht2.trans ht1)
  rw [← hticks] at h3
  refine ok ?_
  unfold enforce
  split
  · have hsync := threadYield_sync s3.kernel
    exact h3.same rfl rfl rfl hsync.allList hsync.idleThread
  · exact h3.same rfl rfl rfl rfl rfl

/-! ## The other sections -/

theorem idleStart_not_leaves (k : Kernel) (i : Instr) : Instr.idleStart ∉ k.leaves i := by
  intro h
  rcases mem_leaves h with hinto | hcall
  · cases hinto
  · cases hcall

/-- `idle_thread`, once set, stays as it is: only before that is there an `idleStart` to do. -/
theorem idleThread_kept (hl' : Life b r k') (he : ActStep b k a k') (ht : k.idleThread = some t) :
    k'.idleThread = some t := by
  have hcode : Instr.idleStart ∉ k.code b.idle := by
    rcases he.alive.idleCode with ⟨hn, -⟩ | ⟨-, hc | ⟨u, hc⟩ | hc⟩
    · rw [hn] at ht; cases ht
    all_goals rw [hc]; simp [idleLoop]
  have hcode' : Instr.idleStart ∉ k'.code b.idle := by
    intro hx
    cases he.codeStep b.idle with
    | same h => exact hcode (h ▸ hx)
    | new h hne hnew => exact hnew he.alive.idleMem
    | call i _ _ hi h =>
      rw [h, mem_singleton] at hx
      subst hx
      exact absurd hi (by simp [callable])
    | exit _ _ _ h => rw [h] at hx; exact absurd hx not_mem_nil
    | exec i is _ _ hc h =>
      rw [h, mem_append] at hx
      refine hx.elim (idleStart_not_leaves k i) fun hx => hcode ?_
      rw [hc]
      exact mem_cons_of_mem i hx
  rw [he.alive.idle_eq ht]
  rcases hl'.idleCode with ⟨-, hc | hc⟩ | ⟨hs, -⟩
  · exact absurd (by rw [hc]; simp) hcode'
  · exact absurd (by rw [hc]; simp) hcode'
  · exact hs

theorem allList_kept (he : ActStep b k a k') (hnew : ∀ t p, k.does a ≠ some (.threadCreate t p))
    (ht : t ∈ k'.allList) : t ∈ k.allList := by
  rw [he.allList] at ht
  cases hd : k.does a with
  | none => rw [hd] at ht; exact ht
  | some i =>
    rw [hd] at ht
    cases i with
    | threadCreate u p => exact absurd hd (hnew u p)
    | threadExit => exact mem_of_mem_erase ht
    | _ => exact ht

section

variable {a : MlfqsAction} (hs : Sound b P (some s.kernel.current) s)
  (h : Bounds N (s.ticks % 100 : Nat) s) (hN : N ≤ 500) (hlen : s.kernel.allList.length ≤ N)
  (ha : s.enabled a = true) (hg : P → keepsLevels s a)
include hs h hN hlen ha hg

/-- **No section stops for an arithmetic reason**, and each keeps the bounds. -/
theorem act :
    Meets (fun f => ¬ f.isArithmetic) (fun x => Bounds N (x.1.ticks % 100 : Nat) x.1) (s.act a) := by
  have hcur : s.kernel.current ∈ s.kernel.allList := hs.life.runMem _ rfl
  have hidle : ∀ {t}, t ≠ b.idle → s.kernel.idleThread ≠ some t :=
    fun hne hi => hne (hs.life.idle_eq hi)
  cases a with
  | kernel a =>
    simp only [Mlfqs.act]
    have hae := Sound.enabled_kernel ha
    cases hk : s.kernel.act a with
    | error => exact error fun hf => hf
    | ok x =>
      obtain ⟨k, sched⟩ := x
      have he : ActStep b _ _ _ := ⟨act_effect hk, hae, hs.life⟩
      have hafter := hs.kernelAct hae hg hk
      have hkept : ∀ t, s.kernel.idleThread = some t → k.idleThread = some t :=
        fun t ht => idleThread_kept hafter.life he ht
      cases hn : s.newThread a with
      | none =>
        refine ok (h.mono (le_refl _) rfl rfl rfl (fun t ht => ?_) hkept)
        refine allList_kept he (fun u p hd => ?_) ht
        cases a with
        | exec => simp [newThread, show s.kernel.head s.kernel.current = _ from hd] at hn
        | _ => simp [does] at hd
      | some t =>
        obtain ⟨hne, p, rfl, hd⟩ := Sound.newThread_eq hs.life hn
        obtain ⟨hcurk, rfl⟩ := Sound.act_create hd hk
        obtain ⟨q, hq, hrange⟩ := h.priority hN hcur
        have hall : k.allList = s.kernel.allList ++ [t] := by rw [he.allList, hd]; rfl
        have hinit : initThread { s with kernel := k } t = .ok _ :=
          bind_eq_ok.mpr ⟨q, by rw [← hcurk] at hq; exact hq, rfl⟩
        refine bind (Q := fun s' : Mlfqs => Bounds N (s'.ticks % 100 : Nat) s') ?_
          fun s' hs' => ok hs'
        rw [hinit]
        refine ok (h.copyTo hcur (hidle hne) (t := t) rfl ?_ ?_ (fun u hu => ?_) hkept)
        · simp [Mlfqs.setPending, Mlfqs.copyTo, raise, hcurk]
        · simp [Mlfqs.setPending, Mlfqs.copyTo, raise, hcurk]
        · have hu' : u ∈ k.allList := hu
          rw [hall, mem_append, mem_singleton] at hu'
          exact hu'.symm
  | tick =>
    obtain ⟨x, hx, hb⟩ := (h.threadTick hs hN hlen).exists_ok
    rw [show s.act .tick = s.threadTick from rfl, hx]
    exact ok hb
  | setNice n =>
    by_cases hn : -20 ≤ n ∧ n ≤ 20
    · have hset : s.threadSetNice n = .ok _ := if_pos hn
      simp only [Mlfqs.act, hset]
      refine ok ⟨h.load, fun t ht => ?_, h.low, h.high, h.fine⟩
      show -20 ≤ update s.nice s.kernel.current n t ∧ update s.nice s.kernel.current n t ≤ 20
      by_cases htc : t = s.kernel.current
      · subst htc; rw [update_self]; exact hn
      · rw [update_of_ne htc]; exact h.nice t ht
    · have hset : s.threadSetNice n = .error .niceRange := if_neg hn
      simp only [Mlfqs.act, hset]
      exact error fun hf => hf
  | pending =>
    simp only [Mlfqs.act]
    cases hc : s.pending s.kernel.current with
    | none => exact ok h
    | some c =>
      have hne : s.kernel.current ≠ b.idle := hs.busy _ (by rw [hc]; simp)
      refine bind (Q := fun s' : Mlfqs => Bounds N (s'.ticks % 100 : Nat) s') ?_
        fun s' hs' => ok hs'
      cases c with
      | update =>
        refine ite (fun _ => ok ?_) fun _ => ?_
        · exact h.same rfl rfl rfl rfl rfl
        · obtain ⟨p, hp, -⟩ := h.priority hN hcur
          rw [hp]
          exact ok (h.same rfl rfl rfl rfl rfl)
      | write => exact ok (h.same rfl rfl rfl rfl rfl)
      | test =>
        refine ite (fun _ => ok ?_) fun _ => ok ?_
        · exact h.same rfl rfl rfl rfl rfl
        · exact h.same rfl rfl rfl rfl rfl
      | inherit t =>
        exact ok (h.copyTo hcur (hidle hne) (t := t) rfl rfl rfl (fun u hu => Or.inr hu)
          fun u hu => hu)

/-- **One step** keeps the bounds. -/
theorem step (hstep : s.step a = .ok s') : Bounds N (s'.ticks % 100 : Nat) s' := by
  have hact := (h.act hs hN hlen ha hg).2
  unfold Mlfqs.step at hstep
  rw [if_pos hs.life.current_running] at hstep
  match hx : s.act a, hstep with
  | .ok (s1, true), hstep =>
    simp only [Mlfqs.finish] at hstep
    split at hstep
    · cases hstep
    · rename_i k hk
      cases hstep
      have hsync := schedule_sync hk
      exact (hact _ hx).same rfl rfl rfl hsync.allList hsync.idleThread
  | .ok (s1, false), hstep =>
    cases hstep
    exact hact _ hx

end

theorem init (b : Boot) (N : Nat) : Bounds N 0 (Mlfqs.boot b) := by
  have h0 : ∀ t, (Mlfqs.boot b).recentCpu t = 0 := fun _ => rfl
  have hn : ∀ t, (Mlfqs.boot b).nice t = 0 := fun _ => rfl
  refine ⟨⟨le_refl 0, ?_⟩, fun t _ => ?_, fun t _ => ?_, fun t _ => ?_, fun t _ _ => ?_⟩
  · show (0 : Int) ≤ _
    omega
  · rw [hn]; omega
  all_goals rw [h0]; omega

end Bounds

/-! ## The theorem -/

def atMost (N : Nat) (s : Mlfqs) (_ : MlfqsAction) : Prop := s.kernel.allList.length ≤ N

instance (N : Nat) (s : Mlfqs) (a : MlfqsAction) : Decidable (atMost N s a) :=
  inferInstanceAs (Decidable (_ ≤ N))

/-- The values that the scheduler keeps are within the bounds for `N` threads, and so are the priorities
    it would compute from them. -/
structure Within (N : Nat) (s : Mlfqs) : Prop where
  load : 0 ≤ s.loadAvg ∧ s.loadAvg ≤ N * 2 ^ 14
  recentCpu : ∀ t ∈ s.kernel.allList,
    -((40 * N + 20) * 2 ^ 14) ≤ s.recentCpu t ∧ s.recentCpu t ≤ (240 * N + 120) * 2 ^ 14
  nice : ∀ t ∈ s.kernel.allList, -20 ≤ s.nice t ∧ s.nice t ≤ 20
  priority : ∀ t ∈ s.kernel.allList,
    ∃ p, newPriority (s.recentCpu t) (s.nice t) = .ok p ∧ 0 ≤ p ∧ p ≤ 63

theorem Bounds.within {N : Nat} {e : Int} {s : Mlfqs} (h : Bounds N e s) (hN : N ≤ 500) :
    Within N s where
  load := h.load
  recentCpu t ht := ⟨h.low t ht, h.high t ht⟩
  nice := h.nice
  priority _ ht := h.priority hN ht

/-- The states that `thread_tick`, called in `s`, goes through. -/
inductive TickState (s : Mlfqs) : Mlfqs → Prop
  /-- The tick has been counted. -/
  | counted {s₁} (h : Mlfqs.countTick { s with ticks := s.ticks + 1 } = .ok s₁) : TickState s s₁
  /-- `update_load_avg` is done, and `update_recent_cpu` for the threads `l`. -/
  | decayed {s₁ s₂ s₃} {l rest : List ThreadRef}
      (h₁ : Mlfqs.countTick { s with ticks := s.ticks + 1 } = .ok s₁) (h100 : s₁.ticks % 100 = 0)
      (h₂ : s₁.updateLoadAvg = .ok s₂) (hl : l ++ rest = s₂.kernel.allList)
      (h₃ : l.foldlM Mlfqs.updateRecentCpu s₂ = .ok s₃) : TickState s s₃
  /-- `update_priority` is done for the threads `l`. -/
  | recalculated {s₁ s₂ s₃} {l rest : List ThreadRef}
      (h₁ : Mlfqs.countTick { s with ticks := s.ticks + 1 } = .ok s₁) (h₂ : s₁.everySecond = .ok s₂)
      (hl : l ++ rest = s₂.kernel.allList) (h₃ : l.foldlM Mlfqs.updatePriority s₂ = .ok s₃) :
      TickState s s₃

theorem Bounds.tickState {b : Boot} {P : Prop} {N : Nat} {s s' : Mlfqs}
    (hs : Sound b P (some s.kernel.current) s) (h : Bounds N (s.ticks % 100 : Nat) s)
    (hN : N ≤ 500) (hlen : s.kernel.allList.length ≤ N) (ht : TickState s s') : Within N s' := by
  have hready := countReady_le hs
  have h0 : Bounds N (s.ticks % 100 : Nat) { s with ticks := s.ticks + 1 } :=
    h.same rfl rfl rfl rfl rfl
  have hcount := (h0.countTick hN (by omega) (by omega) (hs.life.runMem _ rfl)).2
  have hready1 : ∀ s1 : Mlfqs, s1.kernel = s.kernel → s1.countReadyThreads ≤ N := by
    intro s1 hk
    unfold countReadyThreads at hready ⊢
    rw [hk]
    exact le_trans hready hlen
  cases ht with
  | counted h1 => exact (hcount _ h1).1.within hN
  | @decayed s1 s2 _ l rest h1 _ h2 hl h3 =>
    obtain ⟨hb, hk, -⟩ := hcount _ h1
    have hb1 : Bounds N 100 s1 := hb.mono (by omega) rfl rfl rfl (fun _ ht => ht) fun _ ht => ht
    obtain ⟨hb2, -⟩ := (hb1.updateLoadAvg hN (hready1 s1 hk)).2 _ h2
    exact ((hb2.decaying hN hl).2 _ h3).1.within hN
  | @recalculated s1 s2 _ l rest h1 h2 hl h3 =>
    obtain ⟨hb, hk, -, hp⟩ := hcount _ h1
    obtain ⟨hb2, hk2, -, hp2⟩ := (hb.everySecond hN (by omega) (hready1 s1 hk)).2 _ h2
    have hs2 : Sound b P (some s.kernel.current) s2 := hs.same (hk2.trans hk) (hp2.trans hp)
    exact ((recalculating hs2 hb2 hN hl).2 _ h3).2.1.within hN

/-- **The arithmetic never overflows.**  In every run in which at most `N ≤ 500` threads exist, and in
    every state inside `thread_tick`, `load_avg` and each `recent_cpu` are within bounds that fit an
    `int32_t`, and `update_priority` gives a priority from 0 to 63; and no section of any kind overflows
    or divides by zero. -/
theorem mlfqs_arithmetic {b : Boot} (hm : b.mlfqs = true) {N : Nat} (hN : N ≤ 500)
    {tr : List (Mlfqs × MlfqsAction)} {s : Mlfqs}
    (h : (mlfqsMachine.guard (atMost N)).Run (Mlfqs.boot b) tr s)
    (hlen : s.kernel.allList.length ≤ N) :
    Within N s ∧ (∀ s', TickState s s' → Within N s') ∧
    ∀ a, s.enabled a = true → s.act a ≠ .error .overflow ∧ s.act a ≠ .error .zeroDivide := by
  have hinv : Sound b False (some s.kernel.current) s ∧ Bounds N (s.ticks % 100 : Nat) s := by
    refine h.invariant (I := fun s => Sound b False (some s.kernel.current) s ∧
      Bounds N (s.ticks % 100 : Nat) s) ⟨Sound.init hm False, Bounds.init b N⟩ ?_
    rintro s a s' ⟨hs, hb⟩ ⟨ha, hg⟩ hstep
    exact ⟨hs.step ha False.elim hstep, hb.step hs hN hg ha False.elim hstep⟩
  obtain ⟨hs, hb⟩ := hinv
  refine ⟨hb.within hN, fun s' ht => hb.tickState hs hN hlen ht, fun a ha => ?_⟩
  have hstop := (hb.act hs hN hlen ha False.elim).1
  exact ⟨fun he => hstop _ he trivial, fun he => hstop _ he trivial⟩

/-- Two threads, and four ticks have gone by. -/
theorem mlfqs_arithmetic_ticks : ∃ tr s,
    (mlfqsMachine.guard (atMost 2)).Run (Mlfqs.boot Boot.smallMlfqs) tr s ∧
    s.recentCpu 1 = 4 * 2 ^ 14 ∧ (s.kernel.thread 1).priority = 62 ∧ Within 2 s := by
  obtain ⟨tr, s, hr, hc, hp, hlen⟩ := (mlfqsMachine.guard (atMost 2)).exists_reached
    (Mlfqs.boot Boot.smallMlfqs) (startUp.map .kernel ++ [.tick, .tick, .tick, .tick])
    (fun _ s => s.recentCpu 1 = 4 * 2 ^ 14 ∧ (s.kernel.thread 1).priority = 62 ∧
      s.kernel.allList.length ≤ 2) (by decide)
  exact ⟨tr, s, hr, hc, hp, (mlfqs_arithmetic rfl (by decide) hr hlen).1⟩

end Pintos.Threads
