/-
  The contents of pages, and what eviction does to them.

  1. **Contents** (`ContentsKept`) — as long as a process lives, each of its pages keeps its bytes
     through every step, its own stores excepted; this holds in every run.

  2. **Eviction** (`EvictionOk`) — `ft_evict` marks the page as being in swap, and then the kernel hangs
     in `swap_write`: the frame is still mapped, and the page is marked as moved out for ever.  So
     eviction is right only about records of frames that nobody maps any more, which dead processes
     have left behind (`eviction_preserves_contents`).
-/
import Pintos.Vm.Soundness

namespace Pintos.Vm.Paging

open Base Userprog Vm.Frames Function List Option

/-! ## Contents -/

/-- The bytes that `q` has at its page `v`. -/
def view (s : State) (q v : Nat) : Option (Nat → Nat) := (mapAt s q v).map s.ram

/-- What an action makes of the bytes that `q` has at `v`. -/
def written (a : Act) (q v : Nat) (bytes : Nat → Nat) : Nat → Nat :=
  match a with
  | .store pid va byte =>
    if q = pid ∧ v = pgRoundDown va then update bytes (pgOfs va) byte else bytes
  | .start .. => bytes
  | .fault .. => bytes
  | .exit .. => bytes

/-- Every page of a process that is still alive has the bytes it had, and what has been stored. -/
def ContentsKept (s : State) (a : Act) (s' : State) : Prop :=
  ∀ q v bytes, v % pgSize = 0 → v < physBase → view s q v = some bytes → alive s' q = true →
    view s' q v = some (written a q v bytes)

variable {pool : List Nat} {s s' : State}

section Contents

variable {s₁ : State} {pid q a v : Nat} {p : Proc} {f : PageFault} {c : FaultChoice}

theorem view_eq (hm : mapAt s' q v = some a) (hr : s'.ram a = s.ram a) :
    view s' q v = some (s.ram a) := by
  rw [view, hm, map_some, hr]

theorem alive_of_exited (hx : Exited s pid s') (ha : alive s' q = true) : alive s q = true := by
  rw [hx.alive] at ha
  split at ha
  · cases ha
  · exact ha

theorem contents_exited (hx : Exited s pid s') (hm : Maps s q v a)
    (ha : alive s' q = true) : view s' q v = some (s.ram a) := by
  have hq : q ≠ pid := by
    intro hq
    rw [hx.alive, if_pos hq] at ha
    cases ha
  refine view_eq ?_ (congrFun hx.ram a)
  rw [hx.mapAt, if_neg hq]
  exact hm.2.2

section

variable (h : Sound pool s)
include h

theorem contents_started (hnew : s.procs pid = none) (hs : Started s pid s') (hm : Maps s q v a)
    (ha : alive s' q = true) : view s' q v = some (s.ram a) := by
  obtain ⟨hv, hu, hva⟩ := hm
  have hused := (h.used q v a ⟨hv, hu, hva⟩).2
  cases hs with
  | failed free hb hf hperm hram hx =>
    rw [contents_exited hx ⟨hv, hu, (hb.mapAt q v).trans hva⟩ ha, hram a hused]
  | loaded addr hb hfree hf1 hf hal hmap hram =>
    have hq : q ≠ pid := by
      intro hq
      simp [mapAt, hq, hnew] at hva
    refine view_eq ?_ (hram a fun haddr => hused (haddr ▸ hfree))
    rwa [hmap q v hv, if_neg fun h => hq h.1, hb.mapAt]

/-- A frame that has been taken was nobody's. -/
theorem ram_taken (hr : FaultRaised s p f c) {addr : Nat}
    (ht : Taken s pid p f c addr s₁) (hm : Maps s q v a) : s₁.ram a = s.ram a := by
  refine ht.ram a fun haddr => ?_
  have hg := hr.page
  rw [ht.page] at hg
  exact (h.used q v a hm).2 (haddr ▸ hg)

theorem contents_fault (hrun : s.running pid = some p)
    (hr : FaultRaised s p f c) {v : Verdict} (hb : BroughtIn s pid p f c v s₁)
    (hcase : v = .failure ∧ Exited s₁ pid s' ∨ v ≠ .failure ∧ s' = s₁) {w : Nat}
    (hm : Maps s q w a) (ha : alive s' q = true) : view s' q w = some (s.ram a) := by
  -- the page and its bytes are as before when the handler is done
  have key : mapAt s₁ q w = some a ∧ s₁.ram a = s.ram a := by
    cases hb with
    | noFrame => exact ⟨hm.2.2, rfl⟩
    | evicted head rest hw hpage hq hf hs hram =>
      exact ⟨(hs.maps.mpr hm).2.2, congrFun hram a⟩
    | mapped addr ht hok hf hal hmap hram =>
      refine ⟨?_, (congrFun hram a).trans (ram_taken h hr ht hm)⟩
      rw [hmap q w hm.1, if_neg]
      · exact hm.2.2
      rintro ⟨hq, hw⟩
      have habs : mapAt s pid (upageOf f) = none :=
        (mapAt_self (running_iff.mp hrun).1 _).trans (absent_upage hr.absent)
      have hmapped := hm.2.2
      rw [hq, hw, habs] at hmapped
      cases hmapped
    | removed addr r ht =>
      exact ⟨(ht.same.maps.mpr hm).2.2, ram_taken h hr ht hm⟩
    | abandoned addr ht => exact ⟨(ht.same.maps.mpr hm).2.2, ram_taken h hr ht hm⟩
    | stuck addr ht => exact ⟨(ht.same.maps.mpr hm).2.2, ram_taken h hr ht hm⟩
  rcases hcase with ⟨-, hx⟩ | ⟨-, rfl⟩
  · rw [contents_exited hx ⟨hm.1, hm.2.1, key.1⟩ ha, key.2]
  · exact view_eq key.1 key.2

theorem contents_store (hp : s.procs pid = some p) {va : Nat}
    (hva : canStore p va = true) (byte : Nat) (hm : Maps s q v a) :
    view (store s p va byte) q v =
      some (if q = pid ∧ v = pgRoundDown va then update (s.ram a) (pgOfs va) byte
        else s.ram a) := by
  have halign : pgRoundDown va % pgSize = 0 := by
    simp only [pgRoundDown, pgOfs, pgSize]
    omega
  have hlt : pgRoundDown va < physBase := by
    simp only [canStore, Bool.and_eq_true, decide_eq_true_eq] at hva
    exact Nat.lt_of_le_of_lt (Nat.sub_le ..) hva.1
  have hmap : mapAt (store s p va byte) q v = some a := ((store_same s p va byte).1.maps.mpr hm).2.2
  unfold store at hmap ⊢
  cases hpg : pagedirGetPage p.pagedir (pgRoundDown va) with
  | none =>
    rw [view]
    simp only [hpg] at hmap ⊢
    rw [hmap, map_some, if_neg]
    rintro ⟨hq, hv⟩
    have hmapped := hm.2.2
    rw [hq, hv, mapAt_self hp, hpg] at hmapped
    cases hmapped
  | some addr =>
    rw [view]
    simp only [hpg] at hmap ⊢
    rw [hmap, map_some]
    have hst : Maps s pid (pgRoundDown va) addr := ⟨halign, hlt, (mapAt_self hp _).trans hpg⟩
    by_cases hqv : q = pid ∧ v = pgRoundDown va
    · rw [if_pos hqv]
      have haa : a = addr := by
        have hmapped := hm.2.2
        rw [hqv.1, hqv.2, hst.2.2] at hmapped
        exact (some.inj hmapped).symm
      rw [haa, update_self]
    · rw [if_neg hqv, update_of_ne]
      intro haa
      rw [haa] at hm
      exact hqv (h.inj q v pid _ addr hm hst)

/-- **Contents are kept** by every step. -/
theorem contents_step {a : Act} (he : Possible s a) (hs : step s a = .ok s') :
    ContentsKept s a s' := by
  intro q v bytes hv hu hview ha
  obtain ⟨addr, haddr, rfl⟩ := map_eq_some_iff.mp hview
  have hm : Maps s q v addr := ⟨hv, hu, haddr⟩
  cases step_cases h he hs with
  | start hnew hs => exact contents_started h hnew hs hm ha
  | fault hrun hr hb hcase => exact contents_fault h hrun hr hb hcase hm ha
  | store hp hva => exact contents_store h hp hva _ hm
  | exit hx => exact contents_exited hx hm ha

end

end Contents

/-! ## Eviction -/

/-- The record of the frame that a step evicts. -/
def evicted (s : State) : Act → Option Record
  | .fault pid f c =>
    match s.running pid with
    | none => none
    | some p => if wantsFrame p f c = true ∧ c.page = none then s.frames.lruQueue.head? else none
  | .start .. => none
  | .store .. => none
  | .exit .. => none

/-- The page of the record is marked as being in swap. -/
def Out (s : State) (r : Record) : Prop := loc s r.owner r.upage = some .swap

/-- **Eviction preserves contents**, as far as the run `tr` has come: while a page is out, no page
    directory still maps its frame as it did when it was evicted; and when a step brings it back, its
    owner has the bytes it had then. -/
def EvictionOk (tr : List (State × Act)) (s : State) : Prop :=
  ∀ p ∈ tr, ∀ r, evicted p.1 p.2 = some r →
    (Out s r → ∀ q v, ¬ (Maps p.1 q v r.addr ∧ Maps s q v r.addr)) ∧
    ∀ tr' b, tr = tr' ++ [b] → p ∈ tr' → Out b.1 r → ¬ Out s r →
      view s r.owner r.upage = view p.1 r.owner r.upage

/-- **The condition** on a step: it does not evict a frame that a page directory maps. -/
def EvictsNoMapped (s : State) (a : Act) : Prop :=
  ∀ r, evicted s a = some r → ∀ q v, ¬ Maps s q v r.addr

section Evictions

variable {a : Act} {r : Record}

/-- A page that is out stays out: nothing comes back from swap. -/
theorem out_step (h : Sound pool s) (he : Possible s a) (hs : step s a = .ok s')
    (ho : Out s r) : Out s' r := by
  have hsome : (loc s r.owner r.upage).isSome = true := by
    rw [ho]
    rfl
  cases step_cases h he hs with
  | start _ hs =>
    cases hs with
    | failed free hb hf hperm hram hx =>
      show loc s' _ _ = _
      rw [hx.loc]
      exact (hb.locs.swapped _ _).mpr ho
    | loaded addr hb hfree hf1 hf hal hmap hram hl =>
      show loc s' _ _ = _
      rw [hl]
      exact (hb.locs.swapped _ _).mpr ho
  | @fault _ _ _ _ _ s₁ _ _ _ hb hcase =>
    have key : Out s₁ r := by
      cases hb with
      | noFrame => exact ho
      | evicted head rest hw hpage hq hf hsame hram hsome' hswap =>
        exact (hswap _ _ hsome).mpr (Or.inl ho)
      | mapped addr ht hok hf hal hmap hram hl hswap =>
        exact (hswap _ _).mpr ((ht.locs.swapped _ _).mpr ho)
      | removed addr r' ht => exact (ht.locs.swapped _ _).mpr ho
      | abandoned addr ht => exact (ht.locs.swapped _ _).mpr ho
      | stuck addr ht => exact (ht.locs.swapped _ _).mpr ho
    rcases hcase with ⟨-, hx⟩ | ⟨-, rfl⟩
    · show loc s' _ _ = _
      rw [hx.loc]
      exact key
    · exact key
  | store => exact ((store_same ..).2.2 _ _).trans ho
  | exit hx => exact (hx.loc _ _).trans ho

/-- **An eviction** marks the page as moved out, and leaves every mapping where it is. -/
theorem evicted_step (h : Sound pool s) (he : Possible s a) (hs : step s a = .ok s')
    (hev : evicted s a = some r) : Out s' r ∧ Same s s' := by
  cases step_cases h he hs with
  | start | store | exit => cases hev
  | @fault pid f c _ _ _ _ hrun hr hb hcase =>
    simp only [evicted, hrun] at hev
    split at hev
    · rename_i hcond
      obtain ⟨hw, hpage⟩ := hcond
      have hpage' : ∀ addr, c.page ≠ some addr := by
        intro addr hsome
        rw [hpage] at hsome
        cases hsome
      cases hb with
      | noFrame hw' =>
        rw [hw] at hw'
        cases hw'
      | evicted head rest hw' hpage hq hf hsame hram hsome hswap =>
        rcases hcase with ⟨hv, -⟩ | ⟨-, rfl⟩
        · cases hv
        · rw [hq] at hev
          obtain rfl := some.inj hev
          refine ⟨(hswap _ _ (h.pages head ?_)).mpr (Or.inr ⟨rfl, rfl⟩), hsame⟩
          rw [hq]
          exact mem_cons_self
      | mapped addr ht => exact absurd ht.page (hpage' addr)
      | removed addr r' ht => exact absurd ht.page (hpage' addr)
      | abandoned addr ht => exact absurd ht.page (hpage' addr)
      | stuck addr ht => exact absurd ht.page (hpage' addr)
    · cases hev

end Evictions

variable {base n : Nat} {ram : Nat → Nat → Nat} {tr : List (State × Act)}

section

variable (h : (machine.guard EvictsNoMapped).Run (State.start base n ram) tr s)
include h

/-- The pages evicted in a run that meets the condition are out, and their frames were nobody's. -/
theorem evictions_run :
    ∀ p ∈ tr, ∀ r, evicted p.1 p.2 = some r → Out s r ∧ ∀ q v, ¬ Maps p.1 q v r.addr := by
  refine h.history (J := fun tr s => ∀ p ∈ tr, ∀ r, evicted p.1 p.2 = some r →
    Out s r ∧ ∀ q v, ¬ Maps p.1 q v r.addr) (fun p hp => absurd hp not_mem_nil) ?_
  intro tr s a s' hr ih he hs p hp r hev
  have hsound := sound_run hr.of_guard
  rcases mem_append.mp hp with hp | hp
  · obtain ⟨ho, hno⟩ := ih p hp r hev
    exact ⟨out_step hsound he.1 hs ho, hno⟩
  · rw [mem_singleton.mp hp] at hev ⊢
    exact ⟨(evicted_step hsound he.1 hs hev).1, he.2 r hev⟩

theorem evictionOk_run : EvictionOk tr s := by
  intro p hp r hev
  obtain ⟨ho, hno⟩ := evictions_run h p hp r hev
  exact ⟨fun _ q v hq => hno q v hq.1, fun _ _ _ _ _ hback => absurd ho hback⟩

end

/-- **Eviction preserves contents** in every run whose steps evict no frame that is mapped, and a step
    that evicts one breaks it; every step keeps the contents of the pages that are mapped. -/
theorem eviction_preserves_contents (base n : Nat) (ram : Nat → Nat → Nat)
    (h : (machine.guard EvictsNoMapped).Run (State.start base n ram) tr s) :
    EvictionOk tr s ∧
    ∀ a s', Possible s a → step s a = .ok s' →
      ContentsKept s a s' ∧ (EvictionOk (tr ++ [(s, a)]) s' ↔ EvictsNoMapped s a) := by
  have hsound := sound_run h.of_guard
  refine ⟨evictionOk_run h, fun a s' he hs => ⟨contents_step hsound he hs, ?_, fun hno => ?_⟩⟩
  · intro hok r hev q v hm
    obtain ⟨ho, hsame⟩ := evicted_step hsound he hs hev
    have hlast := (hok (s, a) (mem_append_right tr mem_cons_self) r hev).1 ho q v
    exact hlast ⟨hm, hsame.maps.mpr hm⟩
  · exact evictionOk_run (Machine.Run.snoc h ⟨he, hno⟩ hs)

/-- The process that an action starts. -/
def Act.starts : Act → Option Nat
  | .start pid .. => some pid
  | .fault .. => none
  | .store .. => none
  | .exit .. => none

/-- Only what has been started is alive. -/
theorem alive_started {pids : List Nat}
    (h : (machine.guard fun _ a => ∀ q ∈ a.starts, q ∈ pids).Run (State.start base n ram) tr s) :
    ∀ q, alive s q = true → q ∈ pids := by
  refine h.history (J := fun _ s => ∀ q, alive s q = true → q ∈ pids)
    (fun q hq => absurd hq (by simp [alive, State.start])) ?_
  rintro tr s a s' hr ih ⟨he, hpids⟩ hs q ha
  cases step_cases (sound_run hr.of_guard) he hs with
  | @start pid _ _ _ _ _ _ hs =>
    by_cases hq : q = pid
    · exact hpids q (hq ▸ rfl)
    · refine ih q ?_
      cases hs with
      | failed _ hb _ _ _ hx => rwa [hx.alive, if_neg hq, hb.alive, if_neg hq] at ha
      | loaded _ hb _ _ _ hal => rwa [hal, hb.alive, if_neg hq] at ha
  | fault _ _ hb hcase =>
    refine ih q ((hb.alive q).symm.trans ?_)
    rcases hcase with ⟨-, hx⟩ | ⟨-, rfl⟩
    · exact alive_of_exited hx ha
    · exact ha
  | store => exact ih q (((store_same ..).1.alive q).symm.trans ha)
  | exit hx => exact ih q (alive_of_exited hx ha)

/-- Process 1 cannot have a page table for its stack and ends: its new frame is lost, and its record
    is stale.  Process 2 starts. -/
def lostFrame : List Act :=
  [.start 1 [] true (some 0xc0400000) true,
   .fault 1 { faultAddr := 0xbfb00000, esp := 0xbfb00000, errorCode := 6 }
     { wellChosen (some 0xc0401000) with pageTable := false },
   .start 2 [(0x8048000, { pageReadBytes := 4096, writable := false, pLoc := .mmf })] true
     (some 0xc0400000) true]

def noFrameLeft : Act :=
  .fault 2 { faultAddr := 0x8048074, esp := 0xbffffff0, errorCode := 4 } (wellChosen none)

/-- Process 2 faults, and the stale record is evicted: nobody maps its frame. -/
theorem eviction_stale_record :
    ∃ tr s, (machine.guard EvictsNoMapped).Run (State.start 0xc0400000 2 fun _ _ => 0) tr s ∧
      (∃ p ∈ tr, (evicted p.1 p.2).isSome = true) ∧ EvictionOk tr s ∧
      ∀ a s', Possible s a → step s a = .ok s' →
        ContentsKept s a s' ∧ (EvictionOk (tr ++ [(s, a)]) s' ↔ EvictsNoMapped s a) := by
  obtain ⟨tr, s, s', hr, ⟨he, r, hev, hno⟩, hs, -⟩ := Machine.exists_value
    (machine.guard fun s a => evicted s a = none ∧ ∀ q ∈ a.starts, q ∈ [1, 2])
    (State.start 0xc0400000 2 fun _ _ => 0) lostFrame (step · noFrameLeft)
    (fun s => Possible s noFrameLeft ∧ ∃ r ∈ evicted s noFrameLeft, ∀ q ∈ ([1, 2] : List Nat), ∀ p ∈ s.procs q,
      r.addr ∉ mappedPages p.pagedir) (fun _ _ => True) (by decide +kernel)
  have hrun : (machine.guard EvictsNoMapped).Run (State.start 0xc0400000 2 fun _ _ => 0) tr s := by
    refine hr.guard_mono fun s a hnone r hev => ?_
    rw [hnone.1] at hev
    cases hev
  have hguard : EvictsNoMapped s noFrameLeft := by
    rintro r' hr' q v ⟨hv, hu, hm⟩
    obtain rfl := some.inj (hev.symm.trans hr')
    have hq : q ∈ [1, 2] := by
      refine alive_started (hr.guard_mono fun s a h => h.2) q ?_
      by_contra hdead
      rw [(sound_run hr.of_guard).dead q v hv (Bool.eq_false_iff.mpr hdead)] at hm
      cases hm
    obtain ⟨p, hp, hpage⟩ := bind_eq_some_iff.mp hm
    exact hno q hq p hp (mem_mappedPages.mpr ⟨v, hv, hu, hpage⟩)
  have hrun' := Machine.Run.snoc (a := noFrameLeft) hrun ⟨he, hguard⟩ hs
  exact ⟨_, s', hrun', ⟨(s, noFrameLeft), by simp, isSome_of_mem hev⟩, eviction_preserves_contents 0xc0400000 2 _ hrun'⟩

instance (s : State) (q v a : Nat) : Decidable (Maps s q v a) := by
  unfold Maps; infer_instance

instance (s : State) (r : Record) : Decidable (Out s r) := by
  unfold Out; infer_instance

/-- The second page faults when both frames of a small pool are in use.  The first page is evicted:
    it is marked as being in swap, its owner still maps the old frame, and the kernel thread hangs with
    `ft_lock` held. -/
theorem evicted_page_still_mapped :
    ∃ tr s, machine.Run (State.start 0xc0400000 2 fun _ _ => 0) tr s ∧ s.ftLock = some 1 ∧
      (∃ p ∈ tr, ∃ r ∈ evicted p.1 p.2, Out s r ∧ Maps p.1 r.owner r.upage r.addr ∧
        Maps s r.owner r.upage r.addr) ∧
      ¬ EvictionOk tr s := by
  obtain ⟨tr, s, hr, hlock, p, hptr, r, hev, ho, hm, hm'⟩ := machine.exists_reached
    (State.start 0xc0400000 2 fun _ _ => 0)
    (firstPage ++ [.fault 1 { faultAddr := 0x8049000, esp := 0xbffffff0, errorCode := 4 }
      (wellChosen none)])
    (fun tr s => s.ftLock = some 1 ∧ ∃ p ∈ tr, ∃ r ∈ evicted p.1 p.2, Out s r ∧
      Maps p.1 r.owner r.upage r.addr ∧ Maps s r.owner r.upage r.addr) (by decide)
  refine ⟨tr, s, hr, hlock, ⟨p, hptr, r, hev, ho, hm, hm'⟩, fun hok => ?_⟩
  exact (hok p hptr r hev).1 ho r.owner r.upage ⟨hm, hm'⟩

end Pintos.Vm.Paging
