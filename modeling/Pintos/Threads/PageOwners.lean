/-
  Who owns the pages (`threads/palloc.c`).

  1. **Ownership** — the bits that are set are owned, each by one owner: an extent that is live, or
     a call that is marking its group, about to return it, or giving it back.

  2. **The crux (`PhaseOk`)** — a bit that a scan has found free STAYS free until the scan's own
     thread sets it: other allocators wait for the lock, and frees only reset bits.

  3. **Steps** — most steps are `Inv.quiet`; the ones that move pages are `mark_steps` (a gain),
     `reset_steps` (a loss), `ret_steps` and `free_steps` (pages change hands).
-/
import Pintos.Base.Ownership
import Pintos.Threads.Palloc

namespace Pintos.Threads.Palloc

open Base Lib Userprog Function List State Option

/-! ## Who owns a page -/

/-- The owner of a page: an extent that is live, or a thread in a call. -/
inductive Owner where
  | extent (e : Extent)
  | call (t : Nat)

/-- The pages that a call owns. -/
def Phase.Has : Phase → PoolId × Nat → Prop
  | .mark f _ i j, r => r.1 = f.pool ∧ i ≤ r.2 ∧ r.2 < i + j
  | .release f cnt (some i), r => r.1 = f.pool ∧ i ≤ r.2 ∧ r.2 < i + cnt
  | .ret f cnt (some i), r => r.1 = f.pool ∧ i ≤ r.2 ∧ r.2 < i + cnt
  | .check u i cnt _, r => r.1 = u ∧ i ≤ r.2 ∧ r.2 < i + cnt
  | .reset u i cnt j, r => r.1 = u ∧ i + j ≤ r.2 ∧ r.2 < i + cnt
  | _, _ => False

/-- The pages of an extent. -/
def Extent.Has (base : PoolId → Nat) (e : Extent) (r : PoolId × Nat) : Prop :=
  r.1 = e.pool ∧ e.pages ≤ base r.1 + pgSize * r.2 ∧ base r.1 + pgSize * r.2 < e.pages + pgSize * e.cnt

def Claims (base : PoolId → Nat) (phase : Nat → Phase) (live : List Extent) :
    Owner → PoolId × Nat → Prop
  | .extent e, r => e ∈ live ∧ e.Has base r
  | .call t, r => (phase t).Has r

def Used (pool : PoolId → Pool) (r : PoolId × Nat) : Prop :=
  r.2 < (pool r.1).size ∧ (pool r.1).usedMap.bit r.2 = true

/-- **What a thread may rely on**: the group that it is looking at is inside the pool, and the bits it
    has found false, or has yet to set, are false. -/
def PhaseOk (pool : PoolId → Pool) (t : Nat) : Phase → Prop
  | .idle => True
  | .acquire _ cnt => 0 < cnt
  | .test f cnt i j => (pool f.pool).lock = some t ∧ i + cnt ≤ (pool f.pool).size ∧ j < cnt ∧
      ∀ j' < j, (pool f.pool).usedMap.bit (i + j') = false
  | .mark f cnt i j => (pool f.pool).lock = some t ∧ i + cnt ≤ (pool f.pool).size ∧ j < cnt ∧
      ∀ j', j ≤ j' → j' < cnt → (pool f.pool).usedMap.bit (i + j') = false
  | .release f cnt idx => (pool f.pool).lock = some t ∧ 0 < cnt ∧
      ∀ i, idx = some i → i + cnt ≤ (pool f.pool).size
  | .ret f cnt idx => 0 < cnt ∧ ∀ i, idx = some i → i + cnt ≤ (pool f.pool).size
  | .check u i cnt j => i + cnt ≤ (pool u).size ∧ j < cnt
  | .reset u i cnt j => i + cnt ≤ (pool u).size ∧ j < cnt

/-- An extent is a group of pages of its pool. -/
def ExtentOk (pool : PoolId → Pool) (e : Extent) : Prop :=
  0 < e.cnt ∧ ∃ i, e.pages = (pool e.pool).base + pgSize * i ∧ i + e.cnt ≤ (pool e.pool).size

/-- **The invariant.** -/
structure Inv (s : State) : Prop where
  layout : Layout s.pool
  owned : Owned (Used s.pool) (Claims (fun u => (s.pool u).base) s.phase s.live)
  covered : Covered (Used s.pool) (Claims (fun u => (s.pool u).base) s.phase s.live)
  phases : ∀ t, PhaseOk s.pool t (s.phase t)
  extents : ∀ e ∈ s.live, ExtentOk s.pool e
  nodup : s.live.Nodup

/-- Who owns what in `s`. -/
abbrev State.claims (s : State) : Owner → PoolId × Nat → Prop :=
  Claims (fun u => (s.pool u).base) s.phase s.live

theorem Inv.phaseOk {s : State} (h : Inv s) {t : Nat} {p : Phase} (hp : s.phase t = p) :
    PhaseOk s.pool t p := by
  rw [← hp]
  exact h.phases t

/-! ## What a step leaves alone -/

/-- The pools are where they were. -/
def Shape (pool pool' : PoolId → Pool) : Prop :=
  ∀ u, (pool' u).base = (pool u).base ∧ (pool' u).mapAddr = (pool u).mapAddr ∧
    (pool' u).size = (pool u).size

variable {e e' : Extent} {b : Bitmap}

section Frame

variable {s s' : State} {pool pool' : PoolId → Pool} {t t' : Nat} {p : Phase} {u : PoolId}
  {live : List Extent}

theorem shape_refl (pool : PoolId → Pool) : Shape pool pool := fun _ => ⟨rfl, rfl, rfl⟩

theorem shape_setLock (s : State) (u : PoolId) (holder : Option Nat) :
    Shape s.pool (s.setLock u holder).pool := by
  intro v
  by_cases hv : v = u
  · subst hv
    simp [setLock, Pool.size]
  · simp [setLock, hv]

theorem shape_setMap (s : State) (u : PoolId)
    (hb : b.bitCnt = (s.pool u).usedMap.bitCnt) : Shape s.pool (s.setMap u b).pool := by
  intro v
  by_cases hv : v = u
  · subst hv
    simp [setMap, Pool.size, hb]
  · simp [setMap, hv]

theorem Layout.shape (h : Layout pool) (hs : Shape pool pool') : Layout pool' where
  aligned u := by
    rw [(hs u).1]
    exact h.aligned u
  map u := by
    rw [(hs u).1, (hs u).2.1, (hs u).2.2]
    exact h.map u
  low := by
    rw [(hs .kernel).2.1]
    exact h.low
  order := by
    rw [(hs .kernel).1, (hs .kernel).2.2, (hs .user).2.1]
    exact h.order
  top := by
    rw [(hs .user).1, (hs .user).2.2]
    exact h.top

theorem ExtentOk.shape (h : ExtentOk pool e) (hs : Shape pool pool') : ExtentOk pool' e := by
  rwa [ExtentOk, (hs e.pool).1, (hs e.pool).2.2]

/-- **The phase of another thread stands**: its locks are still its own, and the bits of the pools it
    has locked have not been set. -/
theorem PhaseOk.frame (h : PhaseOk pool t p) (hs : Shape pool pool')
    (hlock : ∀ u, (pool u).lock = some t → (pool' u).lock = some t)
    (hfalse : ∀ u k, (pool u).lock = some t → k < (pool u).size →
      (pool u).usedMap.bit k = false → (pool' u).usedMap.bit k = false) : PhaseOk pool' t p := by
  cases p with
  | idle => exact h
  | acquire => exact h
  | test f =>
    obtain ⟨hl, hi, hj, hbits⟩ := h
    refine ⟨hlock _ hl, (hs f.pool).2.2 ▸ hi, hj, fun j' hj' => ?_⟩
    exact hfalse _ _ hl (by omega) (hbits j' hj')
  | mark f =>
    obtain ⟨hl, hi, hj, hbits⟩ := h
    refine ⟨hlock _ hl, (hs f.pool).2.2 ▸ hi, hj, fun j' hj' hc => ?_⟩
    exact hfalse _ _ hl (by omega) (hbits j' hj' hc)
  | release f =>
    obtain ⟨hl, hc, hi⟩ := h
    exact ⟨hlock _ hl, hc, fun i h => (hs f.pool).2.2 ▸ hi i h⟩
  | ret f => exact ⟨h.1, fun i hi => (hs f.pool).2.2 ▸ h.2 i hi⟩
  | check u => exact ⟨(hs u).2.2 ▸ h.1, h.2⟩
  | reset u => exact ⟨(hs u).2.2 ▸ h.1, h.2⟩

/-- A thread that goes on changes only what ITS call owns. -/
theorem claims_update {base : PoolId → Nat} {phase : Nat → Phase} {o : Owner} {r : PoolId × Nat} :
    Claims base (update phase t p) live o r ↔
      (o = .call t ∧ p.Has r) ∨ (o ≠ .call t ∧ Claims base phase live o r) := by
  cases o with
  | extent => simp [Claims]
  | call t' =>
    by_cases ht : t' = t
    · subst ht
      simp [Claims]
    · simp [Claims, ht]

/-- A step of thread `t` that keeps the pools where they are: what is left to show is who owns
    what. -/
theorem Inv.move (h : Inv s) (hs : Shape s.pool pool')
    (hlock : ∀ t' u, t' ≠ t → (s.pool u).lock = some t' → (pool' u).lock = some t')
    (hfalse : ∀ t' u k, t' ≠ t → (s.pool u).lock = some t' → k < (s.pool u).size →
      (s.pool u).usedMap.bit k = false → (pool' u).usedMap.bit k = false)
    (hp : PhaseOk pool' t p) (hlive : ∀ e ∈ live, ExtentOk s.pool e) (hnodup : live.Nodup)
    (hown : Owned (Used pool') (Claims (fun u => (s.pool u).base) (update s.phase t p) live) ∧
      Covered (Used pool') (Claims (fun u => (s.pool u).base) (update s.phase t p) live)) :
    Inv { pool := pool', phase := update s.phase t p, live := live } := by
  have hbase : (fun u => (pool' u).base) = fun u => (s.pool u).base := funext fun u => (hs u).1
  rw [← hbase] at hown
  refine ⟨h.layout.shape hs, hown.1, hown.2, fun t' => ?_, fun e he => (hlive e he).shape hs,
    hnodup⟩
  · show PhaseOk pool' t' (update s.phase t p t')
    by_cases ht : t' = t
    · subst ht
      rwa [update_self]
    · rw [update_of_ne ht]
      exact (h.phases t').frame hs (fun u => hlock t' u ht) (fun u k => hfalse t' u k ht)

/-- A step that neither takes a page nor gives one back. -/
theorem Inv.quiet (h : Inv s) (hs : Shape s.pool pool')
    (hmap : ∀ u, (pool' u).usedMap = (s.pool u).usedMap)
    (hlock : ∀ t' u, t' ≠ t → (s.pool u).lock = some t' → (pool' u).lock = some t')
    (hp : PhaseOk pool' t p) (hhas : ∀ r, p.Has r ↔ (s.phase t).Has r) :
    Inv { pool := pool', phase := update s.phase t p, live := s.live } := by
  have hused : Used pool' = Used s.pool := by
    funext r
    rw [Used, Used, (hs r.1).2.2, hmap]
  have hclaims : Claims (fun u => (s.pool u).base) (update s.phase t p) s.live = s.claims := by
    funext o r
    refine propext (claims_update.trans ?_)
    by_cases ho : o = .call t
    · subst ho
      simpa [Claims] using hhas r
    · simp [ho]
  refine h.move hs hlock (fun t' u k _ _ _ hb => ?_) hp h.extents h.nodup ?_
  · rwa [hmap]
  · rw [hused, hclaims]
    exact ⟨h.owned, h.covered⟩

theorem Inv.goto (h : Inv s) (hp : PhaseOk s.pool t p) (hhas : ∀ r, p.Has r ↔ (s.phase t).Has r) :
    Inv (s.goto t p) :=
  h.quiet (shape_refl _) (fun _ => rfl) (fun _ _ _ hl => hl) hp hhas

end Frame

/-! ## One step -/

/-- A step keeps the invariant, or stops because there are no pages and the caller insists. -/
def Steps (m : Except Stop State) : Prop := (∃ s', m = .ok s' ∧ Inv s') ∨ m = .error .outOfPages

section Step

variable {s : State} {t cnt i j : Nat} {u w : PoolId} {f : Flags} {holder idx : Option Nat}

theorem used_setMap {k : Nat} {v : Bool} (hk : k < (s.pool u).size)
    (hb : Bitmap.Filled (s.pool u).usedMap k 1 v b) (r : PoolId × Nat) :
    Used (s.setMap u b).pool r ↔ if r = (u, k) then v = true else Used s.pool r := by
  obtain ⟨w, n⟩ := r
  obtain ⟨hcnt, hbit⟩ := hb
  by_cases hw : w = u
  · subst hw
    have hn : (k ≤ n ∧ n < k + 1) ↔ n = k := by omega
    simp only [Used, setMap, update_self, Pool.size, hcnt, hbit, hn, Prod.mk.injEq, true_and]
    by_cases hnk : n = k
    · have hlt : n < (s.pool w).usedMap.bitCnt := hnk ▸ hk
      simp [hnk, hnk ▸ hlt]
    · simp [hnk]
  · simp [Used, setMap, hw]

theorem bit_setMap_ne (hw : w ≠ u) (k : Nat) :
    ((s.setMap u b).pool w).usedMap.bit k = (s.pool w).usedMap.bit k := by
  simp [setMap, hw]

theorem lock_setMap (w : PoolId) : ((s.setMap u b).pool w).lock = (s.pool w).lock := by
  by_cases hw : w = u
  · subst hw
    simp [setMap]
  · simp [setMap, hw]

theorem usedMap_setLock (w : PoolId) :
    ((s.setLock u holder).pool w).usedMap = (s.pool w).usedMap := by
  by_cases hw : w = u
  · subst hw
    simp [setLock]
  · simp [setLock, hw]

theorem lock_setLock (hold : (s.pool u).lock = none ∨ (s.pool u).lock = some t)
    {t' : Nat} (ht : t' ≠ t) (h : (s.pool w).lock = some t') :
    ((s.setLock u holder).pool w).lock = some t' := by
  by_cases hw : w = u
  · subst hw
    rcases hold with hold | hold
    · rw [hold] at h
      cases h
    · rw [hold] at h
      exact absurd (some.inj h).symm ht
  · simpa [setLock, hw] using h

/-- The scan comes to the next group, or is over. -/
theorem scanAt_ok {pool' : PoolId → Pool} (hc : 0 < cnt)
    (hl : (pool' f.pool).lock = some t) (hs : (pool' f.pool).size = (s.pool f.pool).size) :
    PhaseOk pool' t (s.scanAt f cnt i) ∧ ∀ r, ¬ (s.scanAt f cnt i).Has r := by
  unfold scanAt
  split
  · rename_i hi
    exact ⟨⟨hl, hs ▸ hi, hc, fun j' hj' => absurd hj' (Nat.not_lt_zero j')⟩, fun r hr => hr⟩
  · refine ⟨⟨hl, hc, fun i hi => ?_⟩, fun r hr => hr⟩
    cases hi

section

variable (h : Inv s)
include h

/-- `lock_acquire (&pool->lock)`. -/
theorem acquire_steps (hp : s.phase t = .acquire f cnt)
    (hfree : (s.pool f.pool).lock = none) : Steps (s.stepThread t) := by
  have hok := h.phaseOk hp
  have hshape := shape_setLock s f.pool (some t)
  have hscan := scanAt_ok (s := s) (f := f) (t := t) (i := 0) hok
    (show ((s.setLock f.pool (some t)).pool f.pool).lock = some t by simp [setLock])
    (hshape f.pool).2.2
  refine .inl ⟨_, by rw [stepThread, hp], ?_⟩
  refine h.quiet hshape usedMap_setLock (fun t' u ht hl => lock_setLock (.inl hfree) ht hl)
    hscan.1 (fun r => ?_)
  rw [hp]
  exact ⟨fun hr => absurd hr (hscan.2 r), fun hr => hr.elim⟩

/-- One turn of the scan for free pages. -/
theorem test_steps (hp : s.phase t = .test f cnt i j) : Steps (s.stepThread t) := by
  obtain ⟨hl, hi, hj, hbits⟩ := h.phaseOk hp
  have htest := Bitmap.test_eq (show i + j < (s.pool f.pool).usedMap.bitCnt by
    have : (s.pool f.pool).size = (s.pool f.pool).usedMap.bitCnt := rfl
    omega)
  have hnone : ∀ r, (s.phase t).Has r ↔ False := by
    intro r
    rw [hp]
    exact Iff.rfl
  cases hb : (s.pool f.pool).usedMap.bit (i + j) with
  | true =>
    -- the group is not free: `bitmap_contains` returns true
    have hscan := scanAt_ok (s := s) (i := i + 1) (Nat.zero_lt_of_lt hj) hl rfl
    refine .inl ⟨s.goto t (s.scanAt f cnt (i + 1)), ?_, ?_⟩
    · simp only [stepThread, hp, htest, hb]
    · refine h.goto hscan.1 (fun r => ?_)
      rw [hnone]
      exact ⟨fun hr => hscan.2 r hr, fun hr => hr.elim⟩
  | false =>
    have hbits' : ∀ j' < j + 1, (s.pool f.pool).usedMap.bit (i + j') = false := by
      intro j' hj'
      rcases Nat.lt_succ_iff_lt_or_eq.mp hj' with hj' | rfl
      · exact hbits j' hj'
      · exact hb
    refine .inl ⟨s.goto t (if j + 1 < cnt then .test f cnt i (j + 1) else .mark f cnt i 0), ?_, ?_⟩
    · simp only [stepThread, hp, htest, hb]
    by_cases hc : j + 1 < cnt
    · rw [if_pos hc]
      exact h.goto ⟨hl, hi, hc, hbits'⟩ (fun r => (hnone r).symm)
    rw [if_neg hc]
    refine h.goto ⟨hl, hi, by omega, fun j' _ hj' => hbits' j' (by omega)⟩ (fun r => ?_)
    rw [hnone]
    refine ⟨fun hr => ?_, fun hr => hr.elim⟩
    have hr : r.1 = f.pool ∧ i ≤ r.2 ∧ r.2 < i + 0 := hr
    omega

/-- **A bit is set** that nobody owned: the call owns it. -/
theorem mark_steps (hp : s.phase t = .mark f cnt i j) : Steps (s.stepThread t) := by
  obtain ⟨hl, hi, hj, hbits⟩ := h.phaseOk hp
  have hlt : i + j < (s.pool f.pool).size := by omega
  obtain ⟨b, hset, hfill⟩ := Bitmap.set_eq hlt true
  generalize hnext : (if j + 1 < cnt then Phase.mark f cnt i (j + 1) else .release f cnt (some i)) = p
  have hhas : ∀ r : PoolId × Nat, p.Has r ↔ r.1 = f.pool ∧ i ≤ r.2 ∧ r.2 < i + (j + 1) := by
    intro r
    rw [← hnext]
    by_cases hc : j + 1 < cnt
    · rw [if_pos hc]
      exact Iff.rfl
    · rw [if_neg hc, show j + 1 = cnt by omega]
      exact Iff.rfl
  have hused := used_setMap hlt hfill
  have hfresh : ¬ Used s.pool (f.pool, i + j) := by
    rintro ⟨-, hb⟩
    rw [hbits j (Nat.le_refl j) hj] at hb
    cases hb
  have hsize := (shape_setMap s f.pool hfill.1 f.pool).2.2
  refine .inl ⟨(s.setMap f.pool b).goto t p, ?_, ?_⟩
  · simp only [stepThread, hp, hset, hnext]
  refine h.move (shape_setMap s f.pool hfill.1) (fun t' w _ hw => (lock_setMap w).trans hw)
    (fun t' w k ht hw _ hb => ?_) ?_ h.extents h.nodup ?_
  · -- another thread has a lock, so it is the lock of the other pool
    have hne : w ≠ f.pool := by
      rintro rfl
      exact ht (some.inj (hw.symm.trans hl))
    exact (bit_setMap_ne hne k).trans hb
  · rw [← hnext]
    by_cases hc : j + 1 < cnt
    · rw [if_pos hc]
      refine ⟨(lock_setMap _).trans hl, hsize ▸ hi, hc, fun j' h1 h2 => ?_⟩
      have := hfill.2 (i + j')
      rw [if_neg (by omega), hbits j' (by omega) h2] at this
      simpa [setMap] using this
    · rw [if_neg hc]
      exact ⟨(lock_setMap _).trans hl, by omega, fun i' hi' => by
        cases hi'
        rwa [hsize]⟩
  · refine h.owned.gain (S := fun r => r = (f.pool, i + j)) (q := .call t) h.covered ?_ ?_ ?_
    · rintro r rfl
      exact hfresh
    · intro r
      rw [hused]
      split
      · simp [*]
      · simp [*]
    · intro o r
      rw [claims_update]
      by_cases ho : o = .call t
      · subst ho
        rw [hhas]
        simp only [Claims, hp, Phase.Has, Prod.ext_iff]
        by_cases hr : r.1 = f.pool
        · simp only [hr, true_and, ne_eq, not_true_eq_false, false_and, or_false]
          omega
        · simp [hr]
      · simp [ho, setMap]

theorem release_steps (hp : s.phase t = .release f cnt idx) : Steps (s.stepThread t) := by
  obtain ⟨hl, hc, hi⟩ := h.phaseOk hp
  have hshape := shape_setLock s f.pool none
  refine .inl ⟨(s.setLock f.pool none).goto t (.ret f cnt idx), ?_, ?_⟩
  · simp only [stepThread, hp, if_pos hl]
  refine h.quiet hshape usedMap_setLock (fun t' u ht hw => lock_setLock (.inr hl) ht hw)
    ⟨hc, fun i hidx => (hshape f.pool).2.2 ▸ hi i hidx⟩ (fun r => ?_)
  rw [hp]
  cases idx with
  | none => exact Iff.rfl
  | some => exact Iff.rfl

/-- One turn of the `bitmap_all` that `palloc_free_multiple` asserts. -/
theorem check_steps {idx : Nat} (hp : s.phase t = .check u idx cnt j) : Steps (s.stepThread t) := by
  obtain ⟨hi, hj⟩ := h.phaseOk hp
  -- the call owns the page, so its bit is set
  have hmine : s.claims (.call t) (u, idx + j) := by
    show (s.phase t).Has _
    rw [hp]
    exact ⟨rfl, by show idx ≤ idx + j; omega, by show idx + j < idx + cnt; omega⟩
  obtain ⟨hlt, hb⟩ := h.owned.used_of_claim hmine
  have htest := Bitmap.test_eq (b := (s.pool u).usedMap) (i := idx + j) hlt
  refine .inl ⟨s.goto t (if j + 1 < cnt then .check u idx cnt (j + 1) else .reset u idx cnt 0),
    ?_, ?_⟩
  · simp only [stepThread, hp, htest, hb]
  by_cases hc : j + 1 < cnt
  · rw [if_pos hc]
    refine h.goto ⟨hi, hc⟩ (fun r => ?_)
    rw [hp]
    exact Iff.rfl
  · rw [if_neg hc]
    refine h.goto ⟨hi, by omega⟩ (fun r => ?_)
    rw [hp]
    exact Iff.rfl

/-- **A bit is reset**: the call owns it no longer. -/
theorem reset_steps {idx : Nat} (hp : s.phase t = .reset u idx cnt j) : Steps (s.stepThread t) := by
  obtain ⟨hi, hj⟩ := h.phaseOk hp
  have hlt : idx + j < (s.pool u).size := by omega
  obtain ⟨b, hset, hfill⟩ := Bitmap.set_eq hlt false
  generalize hnext : (if j + 1 < cnt then Phase.reset u idx cnt (j + 1) else .idle) = p
  have hhas : ∀ r : PoolId × Nat, p.Has r ↔ r.1 = u ∧ idx + (j + 1) ≤ r.2 ∧ r.2 < idx + cnt := by
    intro r
    rw [← hnext]
    by_cases hc : j + 1 < cnt
    · rw [if_pos hc]
      exact Iff.rfl
    · rw [if_neg hc]
      refine ⟨fun hr => hr.elim, fun hr => ?_⟩
      omega
  have hused := used_setMap hlt hfill
  have hsize := (shape_setMap s u hfill.1 u).2.2
  have hmine : s.claims (.call t) (u, idx + j) := by
    show (s.phase t).Has _
    rw [hp]
    exact ⟨rfl, Nat.le_refl _, by show idx + j < idx + cnt; omega⟩
  refine .inl ⟨(s.setMap u b).goto t p, ?_, ?_⟩
  · simp only [stepThread, hp, hset, hnext]
  refine h.move (shape_setMap s u hfill.1) (fun t' w _ hw => (lock_setMap w).trans hw)
    (fun t' w k _ _ _ hb => ?_) ?_ h.extents h.nodup ?_
  · -- a bit that is false stays false
    by_cases hw : w = u
    · subst hw
      have := hfill.2 k
      rw [hb, ite_self] at this
      simpa [setMap] using this
    · exact (bit_setMap_ne hw k).trans hb
  · rw [← hnext]
    by_cases hc : j + 1 < cnt
    · rw [if_pos hc]
      exact ⟨hsize ▸ hi, hc⟩
    · rw [if_neg hc]
      trivial
  · refine h.owned.lose (S := fun r => r = (u, idx + j)) h.covered ?_ ?_
    · intro r
      rw [hused]
      split
      · simp [*]
      · simp [*]
    · intro o r
      rw [claims_update]
      by_cases ho : o = .call t
      · subst ho
        rw [hhas]
        simp only [Claims, hp, Phase.Has, Prod.ext_iff]
        by_cases hr : r.1 = u
        · simp only [hr, true_and, ne_eq, not_true_eq_false, false_and, or_false]
          omega
        · simp [hr]
      · simp only [ho, false_and, ne_eq, not_false_eq_true, true_and, false_or]
        refine ⟨fun hold => ⟨hold, ?_⟩, And.left⟩
        rintro rfl
        exact ho (h.owned.unique hold hmine)

end

/-! ### Pages that change hands -/

theorem Inv.below_top (h : Inv s) (u : PoolId) :
    (s.pool u).base + pgSize * (s.pool u).size ≤ addrSpace := by
  have h1 := h.layout.order
  have h2 := h.layout.map .user
  have h3 := h.layout.top
  cases u with
  | kernel => omega
  | user => exact h3

theorem Inv.base_pos (h : Inv s) (u : PoolId) : 0 < (s.pool u).base := by
  have h1 := h.layout.order
  have h2 := h.layout.map .user
  have h3 := h.layout.map .kernel
  have h4 := h.layout.low
  cases u with
  | kernel => omega
  | user => omega

theorem pagesAt_eq (h : Inv s) (hc : 0 < cnt) (hi : i + cnt ≤ (s.pool f.pool).size) :
    s.pagesAt f (some i) = (s.pool f.pool).base + pgSize * i := by
  have h1 := h.below_top f.pool
  refine Nat.mod_eq_of_lt ?_
  simp only [pgSize] at h1 ⊢
  omega

theorem extent_has (he : e.pages = (s.pool e.pool).base + pgSize * i) (r : PoolId × Nat) :
    e.Has (fun u => (s.pool u).base) r ↔ r.1 = e.pool ∧ i ≤ r.2 ∧ r.2 < i + e.cnt := by
  obtain ⟨w, k⟩ := r
  refine and_congr_right fun hw => ?_
  subst hw
  rw [he]
  simp only [pgSize]
  omega

section

variable (h : Inv s)
include h

/-- **The pages are returned**: the extent owns what the call did. -/
theorem ret_steps (hp : s.phase t = .ret f cnt idx) : Steps (s.stepThread t) := by
  obtain ⟨hc, hidx⟩ := h.phaseOk hp
  cases idx with
  | none =>
    cases ha : f.assert with
    | true =>
      refine .inr ?_
      simp [stepThread, hp, pagesAt, ha]
    | false =>
      refine .inl ⟨s.goto t .idle, by simp [stepThread, hp, pagesAt, ha], ?_⟩
      refine h.goto trivial (fun r => ?_)
      rw [hp]
      exact Iff.rfl
  | some i =>
    have hi := hidx i rfl
    have hpages := pagesAt_eq h hc hi
    have hpos := h.base_pos f.pool
    generalize he : Extent.mk f.pool (s.pagesAt f (some i)) cnt = e
    have hnew : ∀ r, e.Has (fun u => (s.pool u).base) r ↔ (s.phase t).Has r := by
      intro r
      rw [hp, extent_has (by rwa [← he]), ← he]
      exact Iff.rfl
    have hmine : ∀ r, (s.phase t).Has r → s.claims (.call t) r := fun r hr => hr
    refine .inl ⟨{ s.goto t .idle with live := e :: s.live }, ?_, ?_⟩
    · have hne : s.pagesAt f (some i) ≠ 0 := by omega
      simp only [stepThread, hp, if_pos hne, he]
    refine h.move (shape_refl _) (fun _ _ _ hl => hl) (fun _ _ _ _ _ _ hb => hb) trivial ?_ ?_ ?_
    · intro e' he'
      rcases mem_cons.mp he' with rfl | he'
      · rw [← he]
        exact ⟨hc, i, hpages, hi⟩
      · exact h.extents e' he'
    · refine nodup_cons.mpr ⟨fun hmem => ?_, h.nodup⟩
      have hfirst : (s.phase t).Has (f.pool, i) := by
        rw [hp]
        exact ⟨rfl, Nat.le_refl i, by show i < i + cnt; omega⟩
      have hext : s.claims (.extent e) (f.pool, i) := ⟨hmem, (hnew _).mpr hfirst⟩
      cases h.owned.unique hext (hmine _ hfirst)
    · refine h.owned.give (S := (s.phase t).Has) (q := .extent e) h.covered
        (fun r hr => h.owned.used_of_claim (hmine r hr)) (fun _ => Iff.rfl) fun o r => ?_
      have hout : o ≠ .call t → s.claims o r →
          ¬ (s.phase t).Has r := fun ho hr hS => ho (h.owned.unique hr (hmine r hS))
      rw [claims_update]
      cases o with
      | call t' =>
        by_cases ht : t' = t
        · subst ht
          simp [Claims, Phase.Has]
        · have hne : Owner.call t' ≠ .call t := fun hx => ht (Owner.call.inj hx)
          simpa [hne, Claims] using hout hne
      | extent =>
        simp only [reduceCtorEq, false_and, ne_eq, not_false_eq_true, true_and, false_or, Claims,
          mem_cons, Owner.extent.injEq]
        refine ⟨?_, ?_⟩
        · rintro ⟨rfl | hmem, hr⟩
          · exact .inr ⟨rfl, (hnew r).mp hr⟩
          · exact .inl ⟨⟨hmem, hr⟩, hout (by simp) ⟨hmem, hr⟩⟩
        · rintro (⟨⟨hmem, hr⟩, -⟩ | ⟨rfl, hr⟩)
          · exact ⟨.inr hmem, hr⟩
          · exact ⟨.inl rfl, (hnew r).mpr hr⟩

section

variable (he : e ∈ s.live)
include he

theorem Inv.inside : (s.pool e.pool).base ≤ e.pages ∧
    e.pages + pgSize * e.cnt ≤ (s.pool e.pool).base + pgSize * (s.pool e.pool).size := by
  obtain ⟨hc, i, hi, hsize⟩ := h.extents e he
  have := Nat.mul_le_mul_left pgSize hsize
  rw [Nat.mul_add] at this
  omega

/-- No extent reaches into the other pool. -/
theorem Inv.off_pool (hu : u ≠ e.pool) :
    Apart e.pages (pgSize * e.cnt) (s.pool u).base (pgSize * (s.pool u).size) := by
  have h1 := h.layout.order
  have h2 := h.layout.map .user
  have hin := h.inside he
  rw [Apart]
  cases hp : e.pool with
  | kernel =>
    rw [hp] at hin hu
    cases u with
    | kernel => exact absurd rfl hu
    | user => omega
  | user =>
    rw [hp] at hin hu
    cases u with
    | kernel => omega
    | user => exact absurd rfl hu

/-- **Live extents do not overlap**: a common page would have two owners. -/
theorem Inv.apart (he' : e' ∈ s.live) (hne : e ≠ e') :
    Apart e.pages (pgSize * e.cnt) e'.pages (pgSize * e'.cnt) := by
  obtain ⟨hc, i, hi, hsize⟩ := h.extents e he
  obtain ⟨hc', i', hi', hsize'⟩ := h.extents e' he'
  by_contra hover
  have hpool : e.pool = e'.pool := by
    by_contra hpool
    have hoff := h.off_pool he (Ne.symm hpool)
    have hin := h.inside he'
    rw [Apart] at hoff hover
    omega
  -- they begin in one pool, so the later one begins with a page of the other
  have hshare : ∃ k, (i ≤ k ∧ k < i + e.cnt) ∧ i' ≤ k ∧ k < i' + e'.cnt := by
    rw [Apart, hi, hi', hpool] at hover
    simp only [pgSize] at hover
    refine ⟨max i i', ?_⟩
    omega
  obtain ⟨k, hk, hk'⟩ := hshare
  have hown : s.claims (.extent e) (e.pool, k) := ⟨he, (extent_has hi _).mpr ⟨rfl, hk⟩⟩
  have hown' : s.claims (.extent e') (e.pool, k) := ⟨he', (extent_has hi' _).mpr ⟨hpool, hk'⟩⟩
  exact hne (Owner.extent.inj (h.owned.unique hown hown'))

theorem extent_unique (he' : e' ∈ s.live) (hpages : e.pages = e'.pages) : e = e' := by
  by_contra hne
  have hapart := h.apart he he' hne
  have hc := (h.extents e he).1
  have hc' := (h.extents e' he').1
  rw [Apart, hpages] at hapart
  simp only [pgSize] at hapart
  omega

end

/-- `page_from_pool` finds the pool, and the index in it. -/
theorem poolOf_extent
    (hi : e.pages = (s.pool e.pool).base + pgSize * i) (hsize : i < (s.pool e.pool).size) :
    s.poolOf e.pages = some e.pool ∧ pgNo e.pages - pgNo (s.pool e.pool).base = i := by
  have hk := h.layout.aligned .kernel
  have hu := h.layout.aligned .user
  have h1 := h.layout.order
  have h2 := h.layout.map .user
  cases hpool : e.pool with
  | kernel =>
    rw [hpool] at hi hsize
    have hfrom : (s.pool .kernel).fromPool e.pages = true := by
      simp only [Pool.fromPool, pgNo, pgSize, hi, ge_iff_le, Bool.and_eq_true, decide_eq_true_eq] at *
      omega
    refine ⟨by rw [poolOf, if_pos hfrom], ?_⟩
    simp only [pgNo, pgSize] at hk hi ⊢
    omega
  | user =>
    rw [hpool] at hi hsize
    have hnot : (s.pool .kernel).fromPool e.pages = false := by
      simp only [Pool.fromPool, pgNo, pgSize, hi, ge_iff_le, Bool.and_eq_false_iff,
        decide_eq_false_iff_not] at *
      omega
    have hfrom : (s.pool .user).fromPool e.pages = true := by
      simp only [Pool.fromPool, pgNo, pgSize, hi, ge_iff_le, Bool.and_eq_true, decide_eq_true_eq] at *
      omega
    refine ⟨by rw [poolOf, if_neg (by rw [hnot]; decide), if_pos hfrom], ?_⟩
    simp only [pgNo, pgSize] at hu hi ⊢
    omega

theorem freeMultiple_eq (hi : e.pages = (s.pool e.pool).base + pgSize * i) (hc : 0 < e.cnt)
    (hsize : i + e.cnt ≤ (s.pool e.pool).size) :
    s.freeMultiple t e.pages e.cnt = .ok { s.goto t (.check e.pool i e.cnt 0) with
      live := s.live.filter fun e' => e'.pages ≠ e.pages } := by
  obtain ⟨hpool, hidx⟩ := poolOf_extent h hi (by omega)
  have hbase := h.base_pos e.pool
  have halign : pgOfs e.pages = 0 := by
    have := h.layout.aligned e.pool
    simp only [pgOfs, pgSize] at this hi ⊢
    omega
  rw [freeMultiple, if_neg (by rw [halign]; decide), if_neg (by omega)]
  simp only [hpool]
  rw [hidx, if_pos (by omega)]
  rfl

/-- **Pages are given back**: the call owns what the extent did, until it has reset their bits. -/
theorem free_steps (hidle : s.phase t = .idle) (he : e ∈ s.live) :
    Steps (s.freeMultiple t e.pages e.cnt) := by
  obtain ⟨hc, i, hi, hsize⟩ := h.extents e he
  have hmine : ∀ r, e.Has (fun u => (s.pool u).base) r →
      s.claims (.extent e) r := fun r hr => ⟨he, hr⟩
  have hnew : ∀ r, (Phase.check e.pool i e.cnt 0).Has r ↔ e.Has (fun u => (s.pool u).base) r :=
    fun r => (extent_has hi r).symm
  refine .inl ⟨_, freeMultiple_eq h hi hc hsize, ?_⟩
  refine h.move (shape_refl _) (fun _ _ _ hl => hl) (fun _ _ _ _ _ _ hb => hb) ⟨hsize, hc⟩ ?_ ?_ ?_
  · exact fun e' he' => h.extents e' (mem_filter.mp he').1
  · exact h.nodup.filter _
  refine h.owned.give (S := e.Has fun u => (s.pool u).base) (q := .call t) h.covered
    (fun r hr => h.owned.used_of_claim (hmine r hr)) (fun _ => Iff.rfl) fun o r => ?_
  have hout : o ≠ .extent e → s.claims o r →
      ¬ e.Has (fun u => (s.pool u).base) r := fun ho hr hS => ho (h.owned.unique hr (hmine r hS))
  rw [claims_update]
  cases o with
  | call t' =>
    by_cases ht : t' = t
    · subst ht
      simp [Claims, hidle, Phase.Has, ← hnew]
    · have hne : Owner.call t' ≠ .call t := fun hx => ht (Owner.call.inj hx)
      simpa [hne, Claims] using hout (by simp)
  | extent =>
    simp only [reduceCtorEq, false_and, ne_eq, not_false_eq_true, true_and, false_or, or_false,
      Claims, mem_filter, decide_eq_true_eq]
    refine ⟨?_, ?_⟩
    · rintro ⟨⟨hmem, hne⟩, hr⟩
      refine ⟨⟨hmem, hr⟩, hout (fun hx => hne ?_) ⟨hmem, hr⟩⟩
      rw [Owner.extent.inj hx]
    · rintro ⟨⟨hmem, hr⟩, hS⟩
      refine ⟨⟨hmem, fun hx => hS ?_⟩, hr⟩
      rwa [extent_unique h he hmem hx.symm]

theorem get_inv (hidle : s.phase t = .idle) (f : Flags) (cnt : Nat) :
    Inv (s.getMultiple t f cnt) := by
  rw [getMultiple]
  split
  · exact h
  · rename_i hc
    refine h.goto (Nat.pos_of_ne_zero hc) (fun r => ?_)
    rw [hidle]
    exact Iff.rfl

end

end Step

variable {a : Act}

/-- **The step lemma.** -/
theorem step_steps {s : State} (h : Inv s) (he : Enabled s a) : Steps (step s a) := by
  cases a with
  | get t f cnt => exact .inl ⟨_, rfl, get_inv h he f cnt⟩
  | free =>
    obtain ⟨hidle, e, hmem, rfl, rfl⟩ := he
    exact free_steps h hidle hmem
  | step t =>
    have hready : s.ready t = true := he
    rw [ready] at hready
    cases hp : s.phase t with
    | idle =>
      rw [hp] at hready
      cases hready
    | acquire =>
      rw [hp] at hready
      exact acquire_steps h hp (isNone_iff_eq_none.mp hready)
    | test => exact test_steps h hp
    | mark => exact mark_steps h hp
    | release => exact release_steps h hp
    | ret => exact ret_steps h hp
    | check => exact check_steps h hp
    | reset => exact reset_steps h hp

theorem inv_start {pool : PoolId → Pool} (hlayout : Layout pool)
    (hfree : ∀ u, ∀ k < (pool u).size, (pool u).usedMap.bit k = false) :
    Inv (State.start pool) := by
  refine ⟨hlayout, ⟨fun {o r} hc => ?_, fun {o o' r} hc => ?_⟩, ?_, fun t => trivial, ?_, ?_⟩
  · cases o with
    | extent => exact absurd hc.1 not_mem_nil
    | call => exact hc.elim
  · cases o with
    | extent => exact absurd hc.1 not_mem_nil
    | call => exact hc.elim
  · rintro r ⟨hlt, hb⟩
    rw [show (start pool).pool = pool from rfl, hfree r.1 r.2 hlt] at hb
    cases hb
  · exact fun e he => absurd he not_mem_nil
  · exact nodup_nil

theorem inv_step {s s' : State} (h : Inv s) (he : Enabled s a) (hs : step s a = .ok s') :
    Inv s' := by
  rcases step_steps h he with ⟨s1, hs1, hinv⟩ | herr
  · cases hs1.symm.trans hs
    exact hinv
  · cases herr.symm.trans hs

theorem inv_run {pool : PoolId → Pool} (hlayout : Layout pool)
    (hfree : ∀ u, ∀ k < (pool u).size, (pool u).usedMap.bit k = false) {tr : List (State × Act)}
    {s : State} (h : machine.Run (State.start pool) tr s) : Inv s := by
  refine h.invariant (I := Inv) (inv_start hlayout hfree) ?_
  exact fun s a s' hinv he hs => inv_step hinv he hs

end Pintos.Threads.Palloc
