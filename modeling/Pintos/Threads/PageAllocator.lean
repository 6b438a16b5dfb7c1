/-
  The page allocator as a whole: extents apart, no failed assertion, and allocations that fail only
  if they must.

  The last part is about ONE call: from its start to its return no bit is reset, so the groups that
  its scan has passed are still not free (`Scanned`), although other threads may have set bits.
-/
import Pintos.Threads.PageOwners

namespace Pintos.Threads.Palloc

open Base Lib Userprog State

/-! ## Scans that are not disturbed -/

/-- The pools are as large as before, and no bit has been reset. -/
def Grows (pool pool' : PoolId → Pool) : Prop := ∀ u, (pool' u).size = (pool u).size ∧
    ∀ k, (pool u).usedMap.bit k = true → (pool' u).usedMap.bit k = true

/-- What a scan knows if no bit is reset meanwhile: the groups it has passed are not free. -/
def Scanned (pool : PoolId → Pool) : Phase → Prop
  | .test f cnt i _ => ∀ i' < i, ¬ Bitmap.Group (pool f.pool).usedMap i' cnt false
  | .release f cnt none => Bitmap.Found (pool f.pool).usedMap 0 cnt false none
  | .ret f cnt none => Bitmap.Found (pool f.pool).usedMap 0 cnt false none
  | _ => True

/-- The step resets no bit; so it is, in particular, if no thread is in `palloc_free_multiple`. -/
def NoReset (s : State) : Act → Prop
  | .step t => ∀ u i cnt j, s.phase t ≠ .reset u i cnt j
  | _ => True

section Scan

variable {s s' : State} {pool pool' : PoolId → Pool} {t i cnt : Nat} {u : PoolId}

theorem grows_refl (pool : PoolId → Pool) : Grows pool pool := fun _ => ⟨rfl, fun _ h => h⟩

theorem not_group_grows (hg : Grows pool pool') (h : ¬ Bitmap.Group (pool u).usedMap i cnt false) :
    ¬ Bitmap.Group (pool' u).usedMap i cnt false := by
  refine fun hgroup => h fun j hj => ?_
  by_contra hb
  have := (hg u).2 _ (Bool.ne_false_iff.mp hb)
  rw [hgroup j hj] at this
  cases this

theorem Scanned.grows {p : Phase} (h : Scanned pool p) (hg : Grows pool pool') : Scanned pool' p := by
  have hfound : ∀ {u cnt}, Bitmap.Found (pool u).usedMap 0 cnt false none →
      Bitmap.Found (pool' u).usedMap 0 cnt false none := by
    intro u cnt hf i hi hsize
    have hsize' : i + cnt ≤ (pool' u).size := hsize
    rw [(hg u).1] at hsize'
    exact not_group_grows hg (hf i hi hsize')
  cases p with
  | test => exact fun i' hi' => not_group_grows hg (h i' hi')
  | release f cnt idx =>
    cases idx with
    | none => exact hfound h
    | some => trivial
  | ret f cnt idx =>
    cases idx with
    | none => exact hfound h
    | some => trivial
  | _ => trivial

theorem grows_setLock (s : State) (u : PoolId) (holder : Option Nat) :
    Grows s.pool (s.setLock u holder).pool := by
  intro w
  rw [(shape_setLock s u holder w).2.2, usedMap_setLock]
  exact ⟨rfl, fun _ h => h⟩

theorem grows_mark {k : Nat} {b : Bitmap}
    (hb : (s.pool u).usedMap.set k true = some b) : Grows s.pool (s.setMap u b).pool := by
  have hk : k < (s.pool u).usedMap.bitCnt := by
    by_contra hk
    rw [Bitmap.set, if_neg hk] at hb
    cases hb
  obtain ⟨b', hb', hfill⟩ := Bitmap.set_eq hk true
  cases hb'.symm.trans hb
  intro w
  refine ⟨(shape_setMap s u hfill.1 w).2.2, fun n hn => ?_⟩
  by_cases hw : w = u
  · subst hw
    have := hfill.2 n
    rw [hn, ite_self] at this
    simpa [setMap] using this
  · exact (bit_setMap_ne hw n).trans hn

/-- The scan comes to the group at `i`, and the groups before it are not free. -/
theorem scanned_scanAt {f : Flags}
    (h : ∀ i' < i, ¬ Bitmap.Group (s.pool f.pool).usedMap i' cnt false) :
    Scanned s.pool (s.scanAt f cnt i) := by
  unfold scanAt
  split
  · exact h
  · intro i' _ hi'
    have hi' : i' + cnt ≤ (s.pool f.pool).size := hi'
    exact h i' (by omega)

/-- A step of a thread that resets no bit: the maps grow, and the thread's own scan goes on. -/
theorem stepThread_scanned (hok : PhaseOk s.pool t (s.phase t)) (hs : s.stepThread t = .ok s')
    (hno : ∀ u i cnt j, s.phase t ≠ .reset u i cnt j) :
    Grows s.pool s'.pool ∧ (∀ t', t' ≠ t → s'.phase t' = s.phase t') ∧
      (Scanned s.pool (s.phase t) → Scanned s'.pool (s'.phase t)) := by
  cases hp : s.phase t with
  | idle =>
    simp only [stepThread, hp] at hs
    cases hs
    refine ⟨grows_refl _, fun _ _ => rfl, fun _ => ?_⟩
    rw [hp]
    trivial
  | acquire f =>
    simp only [stepThread, hp] at hs
    cases hs
    refine ⟨grows_setLock s f.pool (some t), fun _ => goto_of_ne _ _, fun _ => ?_⟩
    rw [goto_self]
    exact (scanned_scanAt fun i' hi' => absurd hi' (Nat.not_lt_zero i')).grows
      (grows_setLock s f.pool (some t))
  | test f cnt i j =>
    simp only [stepThread, hp] at hs
    cases htest : (s.pool f.pool).usedMap.test (i + j) with
    | none =>
      rw [htest] at hs
      cases hs
    | some v =>
      rw [htest] at hs
      have hbit : (s.pool f.pool).usedMap.bit (i + j) = v := by
        rw [Bitmap.test] at htest
        split at htest
        · exact Option.some.inj htest
        · cases htest
      cases v with
      | true =>
        cases hs
        refine ⟨grows_refl _, fun _ => goto_of_ne _ _, fun hold => ?_⟩
        rw [goto_self]
        refine scanned_scanAt fun i' hi' => ?_
        rcases Nat.lt_succ_iff_lt_or_eq.mp hi' with hi' | rfl
        · exact hold i' hi'
        · intro hgroup
          rw [hp] at hok
          cases hbit.symm.trans (hgroup j hok.2.2.1)
      | false =>
        cases hs
        refine ⟨grows_refl _, fun _ => goto_of_ne _ _, fun hold => ?_⟩
        rw [goto_self]
        split
        · exact hold
        · trivial
  | mark f cnt i j =>
    simp only [stepThread, hp] at hs
    cases hset : (s.pool f.pool).usedMap.set (i + j) true with
    | none =>
      rw [hset] at hs
      cases hs
    | some =>
      rw [hset] at hs
      cases hs
      refine ⟨grows_mark hset, fun _ => goto_of_ne _ _, fun _ => ?_⟩
      rw [goto_self]
      split <;> trivial
  | release f cnt idx =>
    simp only [stepThread, hp] at hs
    split at hs
    · cases hs
      refine ⟨grows_setLock s f.pool none, fun _ => goto_of_ne _ _, fun hold => ?_⟩
      rw [goto_self]
      have hold : Scanned s.pool (.ret f cnt idx) := by
        cases idx with
        | none => exact hold
        | some => trivial
      exact hold.grows (grows_setLock s f.pool none)
    · cases hs
  | ret =>
    simp only [stepThread, hp] at hs
    split at hs
    · cases hs
      refine ⟨grows_refl _, fun _ => goto_of_ne _ _, fun _ => ?_⟩
      rw [goto_self]
      trivial
    · split at hs
      · cases hs
      · cases hs
        refine ⟨grows_refl _, fun _ => goto_of_ne _ _, fun _ => ?_⟩
        rw [goto_self]
        trivial
  | check u idx cnt j =>
    simp only [stepThread, hp] at hs
    cases htest : (s.pool u).usedMap.test (idx + j) with
    | none =>
      rw [htest] at hs
      cases hs
    | some v =>
      rw [htest] at hs
      cases v with
      | false => cases hs
      | true =>
        cases hs
        refine ⟨grows_refl _, fun _ => goto_of_ne _ _, fun _ => ?_⟩
        rw [goto_self]
        split <;> trivial
  | reset u idx cnt j => exact absurd hp (hno u idx cnt j)

/-- **A scan that is not disturbed** has passed no group that is free. -/
theorem scanned_step {a : Act} (h : Inv s) (he : Enabled s a) (hno : NoReset s a)
    (hs : step s a = .ok s') (hscan : Scanned s.pool (s.phase t)) : Scanned s'.pool (s'.phase t) := by
  cases a with
  | get t' =>
    cases hs
    rw [getMultiple]
    split
    · exact hscan
    · by_cases ht : t = t'
      · subst ht
        rw [goto_self]
        trivial
      · rwa [goto_of_ne _ _ ht]
  | free t' =>
    obtain ⟨hidle, e, hmem, rfl, rfl⟩ := he
    obtain ⟨hc, i, hi, hsize⟩ := h.extents e hmem
    cases (freeMultiple_eq h hi hc hsize).symm.trans hs
    by_cases ht : t = t'
    · subst ht
      rw [goto_self]
      trivial
    · rwa [goto_of_ne _ _ ht]
  | step t' =>
    obtain ⟨hgrows, hothers, hown⟩ := stepThread_scanned (h.phases t') hs hno
    by_cases ht : t = t'
    · subst ht
      exact hown hscan
    · rw [hothers t ht]
      exact hscan.grows hgrows

end Scan

/-! ## The allocator -/

/-- The live extents: apart from each other, page aligned, inside the pool that was asked for, and
    apart from the bitmaps and from the other pool. -/
structure ExtentsApart (s : State) : Prop where
  disjoint : s.live.Pairwise fun e e' => Apart e.pages (pgSize * e.cnt) e'.pages (pgSize * e'.cnt)
  aligned : ∀ e ∈ s.live, pgOfs e.pages = 0
  inside : ∀ e ∈ s.live, (s.pool e.pool).base ≤ e.pages ∧
    e.pages + pgSize * e.cnt ≤ (s.pool e.pool).base + pgSize * (s.pool e.pool).size
  offMaps : ∀ e ∈ s.live, ∀ u,
    Apart e.pages (pgSize * e.cnt) (s.pool u).mapAddr (Bitmap.bufSize (s.pool u).size)
  offOther : ∀ e ∈ s.live, ∀ u, u ≠ e.pool →
    Apart e.pages (pgSize * e.cnt) (s.pool u).base (pgSize * (s.pool u).size)

variable {s : State} {e : Extent}

theorem extentsApart (h : Inv s) : ExtentsApart s := by
  have h1 := h.layout.order
  have h2 := h.layout.map .user
  have h3 := h.layout.map .kernel
  refine ⟨?_, fun e he => ?_, fun e he => h.inside he, fun e he u => ?_, fun e he u => h.off_pool he⟩
  · refine h.nodup.imp_of_mem ?_
    intro e e' he he' hne
    exact h.apart he he' hne
  · obtain ⟨-, i, hi, -⟩ := h.extents e he
    have := h.layout.aligned e.pool
    simp only [pgOfs, pgSize] at this hi ⊢
    omega
  · have hin := h.inside he
    rw [Apart]
    cases hp : e.pool <;> cases u <;> rw [hp] at hin <;> omega

/-- An allocation that is called in a state `s` and runs without a bit being reset meanwhile: when it
    comes to return null, its pool has no group of pages that is free. -/
def NullOnlyIfFull (s : State) : Prop :=
  ∀ t f cnt, s.phase t = .idle → ∀ seg s', (machine.guard NoReset).Run (s.getMultiple t f cnt) seg s' →
    ∀ f' cnt' idx, s'.phase t = .ret f' cnt' idx → s'.pagesAt f' idx = 0 →
      ∀ i, i + cnt' ≤ (s'.pool f'.pool).size → ¬ Bitmap.Group (s'.pool f'.pool).usedMap i cnt' false

theorem nullOnlyIfFull (h : Inv s) : NullOnlyIfFull s := by
  intro t f cnt hidle seg s' hr f' cnt' idx hret hnull
  have hstart : Inv (s.getMultiple t f cnt) ∧
      Scanned (s.getMultiple t f cnt).pool ((s.getMultiple t f cnt).phase t) := by
    refine ⟨get_inv h hidle f cnt, ?_⟩
    rw [getMultiple]
    split
    · rw [hidle]
      trivial
    · rw [goto_self]
      trivial
  obtain ⟨hinv, hscan⟩ := hr.invariant (I := fun s => Inv s ∧ Scanned s.pool (s.phase t)) hstart
    fun s a s' hi he hs => by
      refine ⟨?_, scanned_step hi.1 he.1 he.2 hs hi.2⟩
      exact inv_step hi.1 he.1 hs
  rw [hret] at hscan
  cases idx with
  | none => exact fun i hi => hscan i (Nat.zero_le i) hi
  | some i =>
    have hok := hinv.phases t
    rw [hret] at hok
    rw [pagesAt_eq hinv hok.1 (hok.2 i rfl)] at hnull
    have := hinv.base_pos f'.pool
    omega

/-- **The page allocator**, for every limit and size of RAM that `palloc_init` accepts and every
    interleaving: the extents are apart, an allocation that is not disturbed fails only if it must,
    and nothing stops the kernel but a call that insists on pages that are not there. -/
theorem page_allocator {userPageLimit ramPages : Nat} {mem : PoolId → Nat → BitVec 32}
    {pool : PoolId → Pool} (hlo : 256 ≤ ramPages) (hhi : ramPages < 262144)
    (hinit : pallocInit userPageLimit ramPages mem = some pool) {tr : List (State × Act)}
    (h : machine.Run (State.start pool) tr s) :
    ExtentsApart s ∧ NullOnlyIfFull s ∧
    ∀ a e, Enabled s a → step s a = .error e → e = .outOfPages := by
  obtain ⟨hlayout, hfree⟩ := layout_init hlo hhi hinit
  have hinv := inv_run hlayout (fun u => (hfree u).2) h
  refine ⟨extentsApart hinv, nullOnlyIfFull hinv, fun a e he hs => ?_⟩
  rcases step_steps hinv he with ⟨s', hs', -⟩ | herr
  · cases hs'.symm.trans hs
  · exact (Except.error.inj (herr.symm.trans hs)).symm

instance (s : State) (a : Act) : Decidable (machine.enabled s a) := by
  cases a <;> dsimp only [machine, Enabled] <;> infer_instance

/-- Thread 1 asks for two pages of the kernel pool, and thread 2, which calls meanwhile and waits for
    the lock, for one. -/
def twoCalls : List Act :=
  [.get 1 ⟨true, false⟩ 2, .step 1, .get 2 ⟨true, false⟩ 1] ++ List.replicate 6 (.step 1) ++
    List.replicate 7 (.step 2)

/-- Pools of 31 pages, and the two calls. -/
theorem page_allocator_two_calls :
    ∃ pool tr s, pallocInit 64 320 (fun _ _ => 0) = some pool ∧
      machine.Run (State.start pool) tr s ∧
      s.live = [⟨.kernel, 0xc0103000, 1⟩, ⟨.kernel, 0xc0101000, 2⟩] ∧
      ExtentsApart s ∧ NullOnlyIfFull s ∧
      ∀ a e, Enabled s a → step s a = .error e → e = .outOfPages := by
  have hplay : (pallocInit 64 320 fun _ _ => 0).any (fun pool =>
      (machine.play (start pool) twoCalls).any fun r =>
        r.2.live = [⟨.kernel, 0xc0103000, 1⟩, ⟨.kernel, 0xc0101000, 2⟩]) = true := by
    decide
  obtain ⟨pool, hinit, hplay⟩ := (Option.any_eq_true _ _).mp hplay
  obtain ⟨tr, s, hr, hlive⟩ := machine.exists_reached (start pool) twoCalls
    (fun _ s => s.live = [⟨.kernel, 0xc0103000, 1⟩, ⟨.kernel, 0xc0101000, 2⟩]) hplay
  exact ⟨pool, tr, s, hinit, hr, hlive, page_allocator (by decide) (by decide) hinit hr⟩

end Pintos.Threads.Palloc
