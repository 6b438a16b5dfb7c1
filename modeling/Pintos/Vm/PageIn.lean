/-
  What is left of a page that could not be brought in.

  When `spt_get_frame` returns false, it has called `ft_remove` and `pagedir_clear_page`; whether that
  takes back what it did depends on three things.

  1. **Which failure** — after a refused `install_page` it goes on to `p_loc = MEM`, and the page counts
     as being in memory, where it is not.

  2. **Which record** — `ft_remove` removes the record that an uninitialised pointer leads to.  It is the
     new one EXACTLY IF the pointer happens to lead to the user address of the page and the new record
     is in the hash table at all (`removed_new_iff`).

  3. **The page directory** — a page that was mapped is unmapped.

  The frame itself is given back in every case (`failed_pages`).
-/
import Pintos.Vm.Soundness

namespace Pintos.Vm.Paging

open Base Lib Userprog Vm.Frames List Option Hash

/-- **Everything is as before**: the locations of pages, the frame table and its queue, the free pages
    and what is mapped.  The order in a bucket and that of the free pages do not matter. -/
structure AsBefore (s s' : State) : Prop where
  locs : ∀ q u, loc s' q u = loc s q u
  table : s'.frames.ft.elems.Perm s.frames.ft.elems
  queue : s'.frames.lruQueue = s.frames.lruQueue
  pages : s'.frames.freePages.Perm s.frames.freePages
  maps : ∀ q v, v % pgSize = 0 → mapAt s' q v = mapAt s q v

/-- No record of the frame table has the user address. -/
def FreshKey (t : Table) (upage : Nat) : Prop := ∀ r ∈ t.ft.elems, r.upage ≠ upage

/-- The failures that are taken back. -/
structure TakenBack (s : State) (p : Proc) (upage : Nat) (pg : Page) (c : FaultChoice) : Prop where
  shortRead : c.bytesRead ≠ pg.pageReadBytes
  probe : c.stale = some upage
  fresh : FreshKey s.frames upage
  unmapped : pagedirGetPage p.pagedir upage = none

/-! ## The frame table -/

variable {upage addr : Nat} {c : FaultChoice} {r : Record}

section Table

variable {t : Table} {cur : Nat}

/-- The new record is in the table exactly if no other has its user address. -/
theorem newFrame_mem_iff (h : Records t) :
    newFrame t cur upage addr ∈ (added t cur upage addr c.toChoice).ft.elems ↔
      FreshKey t upage := by
  constructor
  · intro hm r hr hkey
    exact Nat.lt_irrefl _ (h.ids _ (.inl ((h.added_old hr hkey).mem_iff.mp hm)))
  · intro hfresh
    exact (h.added_new hfresh).mem_iff.mpr mem_cons_self

/-- **Which record is removed**: the new one, if the probe leads to its user address and it is there. -/
theorem removed_new_iff (h : Records t)
    (hget : ftGet (added t cur upage addr c.toChoice) addr c.stale = .ok (some r)) :
    r = newFrame t cur upage addr ↔ c.stale = some upage ∧ FreshKey t upage := by
  obtain ⟨hm, hstale⟩ := (h.added cur upage addr c.toChoice).mem_of_ftGet hget
  constructor
  · rintro rfl
    exact ⟨hstale, (newFrame_mem_iff h).mp hm⟩
  · rintro ⟨hprobe, hfresh⟩
    have hkey : r.upage = upage := some.inj (hstale.symm.trans hprobe)
    rcases mem_cons.mp ((h.added_new hfresh).mem_iff.mp hm) with hnew | hold
    · exact hnew
    · exact absurd hkey (hfresh r hold)

/-- The hash table is as before exactly if the new record was removed. -/
theorem removedFrame_perm_iff (h : Records t)
    (hm : r ∈ (added t cur upage addr c.toChoice).ft.elems) :
    (removedFrame (added t cur upage addr c.toChoice) c addr r).ft.elems.Perm t.ft.elems ↔
      r = newFrame t cur upage addr := by
  have hadded := h.added cur upage addr c.toChoice
  have hleft {x : Record} := mem_hashDelete ftFns_keyed hadded.wf c.bucketMemory hm (x := x)
  constructor
  · intro hperm
    by_contra hne
    by_cases hfresh : FreshKey t upage
    · -- the new record is still there
      have hnew := hleft.mpr ⟨(newFrame_mem_iff h).mpr hfresh, Ne.symm hne⟩
      exact Nat.lt_irrefl _ (h.ids _ (.inl (hperm.mem_iff.mp hnew)))
    · -- an old one is not
      simp only [FreshKey, not_forall, not_not] at hfresh
      obtain ⟨old, hold, hkey⟩ := hfresh
      have hsame := (h.added_old hold hkey).mem_iff.mp hm
      exact (hleft.mp (hperm.mem_iff.mpr hsame)).2 rfl
  · rintro rfl
    obtain ⟨-, -, hdelete⟩ := hashDelete_elems ftFns_keyed hadded.wf c.bucketMemory hm rfl
    exact (hdelete.trans (h.added_new ((newFrame_mem_iff h).mp hm))).cons_inv

/-- So is then the queue. -/
theorem removedFrame_queue (h : Records t) :
    (removedFrame (added t cur upage addr c.toChoice) c addr (newFrame t cur upage addr)).lruQueue
      = t.lruQueue := by
  show (t.lruQueue ++ [newFrame t cur upage addr]).erase (newFrame t cur upage addr) = t.lruQueue
  rw [erase_append_right _ (h.newFrame_not_mem cur upage addr), erase_cons_head, append_nil]

end Table

/-! ## The failures -/

section Failures

variable {s s' : State} {pid : Nat} {p : Proc} {pg : Page}

/-- The state in which a frame that was taken for the page has been given back. -/
def givenBack (s : State) (pid upage addr : Nat) (pg : Page) (c : FaultChoice) (r : Record) :
    State :=
  { s with
    frames := removedFrame (added s.frames pid upage addr c.toChoice) c addr r
    ram := Function.update s.ram addr (fileContents c pg (s.ram addr)) }.clearPage pid upage

/-- **The ways to fail**, for a page that is not in memory: a short read, or `install_page`. -/
theorem sptGetFrame_failure (hb : s.frames.swap = Swap.boot) (hloc : pg.pLoc ≠ .mem)
    (h : sptGetFrame s pid p upage pg c = .ok (.failure, s')) :
    pg.pLoc = .mmf ∧ ∃ addr r, c.page = some addr ∧
      ftGet (added s.frames pid upage addr c.toChoice) addr c.stale = .ok (some r) ∧
      ((c.bytesRead ≠ pg.pageReadBytes ∧ s' = givenBack s pid upage addr pg c r) ∨
        (c.bytesRead = pg.pageReadBytes ∧
          s' = (givenBack s pid upage addr pg c r).setLoc pid upage .mem)) := by
  rcases withFrame_cases hb h with ⟨addr, hpage, hk⟩ | ⟨-, head, rest, -, hv, -⟩
  · cases hpl : pg.pLoc with
    | mem => exact absurd hpl hloc
    | swap =>
      simp only [hpl] at hk
      have hread := readSwap_boot
        { s with frames := added s.frames pid upage addr c.toChoice } hb pid p upage addr pg c
      cases hread.symm.trans hk
    | mmf =>
      refine ⟨rfl, addr, ?_⟩
      simp only [hpl] at hk
      split at hk
      · rename_i hbytes
        unfold install at hk
        split at hk
        · cases hk
        · obtain ⟨⟨v, s1⟩, hgive, hret⟩ := bind_eq_ok.mp hk
          rcases giveBack_cases hgive with ⟨r, hget, rfl, rfl⟩ | ⟨-, rfl, rfl⟩
          · cases hret
            exact ⟨r, hpage, hget, .inr ⟨hbytes, rfl⟩⟩
          · cases hret
      · rename_i hbytes
        rcases giveBack_cases hk with ⟨r, hget, -, hs⟩ | ⟨-, hv, -⟩
        · exact ⟨r, hpage, hget, .inl ⟨hbytes, hs⟩⟩
        · cases hv
  · cases hv

theorem loc_givenBack (q u : Nat) : loc (givenBack s pid upage addr pg c r) q u = loc s q u :=
  loc_clearPage _ pid upage q u

theorem mapAt_givenBack (hp : s.procs pid = some p) (hal : upage % pgSize = 0) {q v : Nat}
    (hv : v % pgSize = 0) :
    mapAt (givenBack s pid upage addr pg c r) q v =
      if q = pid ∧ v = upage then none else mapAt s q v := by
  unfold givenBack State.clearPage mapAt
  rw [procs_modify]
  by_cases hq : q = pid
  · rw [if_pos hq, hq]
    simp only [hp, map_some, bind_some, getPage_clear hal hv, true_and]
  · rw [if_neg hq, if_neg fun h => hq h.1]

/-- **A short read**: what has to be true for everything to be as before. -/
theorem asBefore_givenBack (h : Records s.frames) (hp : s.procs pid = some p)
    (hal : upage % pgSize = 0) (hfree : addr ∈ s.frames.freePages)
    (hget : ftGet (added s.frames pid upage addr c.toChoice) addr c.stale = .ok (some r)) :
    AsBefore s (givenBack s pid upage addr pg c r) ↔
      c.stale = some upage ∧ FreshKey s.frames upage ∧ pagedirGetPage p.pagedir upage = none := by
  have hm := ((h.added pid upage addr c.toChoice).mem_of_ftGet hget).1
  have hmap : mapAt s pid upage = pagedirGetPage p.pagedir upage := by
    rw [mapAt, hp, bind_some]
  rw [← and_assoc, ← removed_new_iff h hget]
  constructor
  · intro hbefore
    refine ⟨(removedFrame_perm_iff h hm).mp hbefore.table, ?_⟩
    have hgone := hbefore.maps pid upage hal
    rw [mapAt_givenBack hp hal hal, if_pos ⟨rfl, rfl⟩] at hgone
    exact hmap.symm.trans hgone.symm
  · rintro ⟨rfl, hnone⟩
    refine ⟨loc_givenBack, (removedFrame_perm_iff h hm).mpr rfl, removedFrame_queue h,
      (perm_cons_erase hfree).symm, fun q v hv => ?_⟩
    rw [mapAt_givenBack hp hal hv]
    split
    · rename_i hqv
      rw [hqv.1, hqv.2, hmap, hnone]
    · rfl

/-- **A refused `install_page`** is never taken back. -/
theorem not_asBefore_refused (hp : s.procs pid = some p) (hpg : p.spt upage = some pg)
    (hmmf : pg.pLoc = .mmf) :
    ¬ AsBefore s ((givenBack s pid upage addr pg c r).setLoc pid upage .mem) := by
  intro hbefore
  have hloc := hbefore.locs pid upage
  rw [loc_setLoc, if_pos ⟨rfl, rfl⟩, loc_givenBack] at hloc
  simp only [loc, hp, bind_some, hpg, map_some, hmmf] at hloc
  cases hloc

end Failures

/-- **Which failed page-ins leave everything as it was**: in every state that is reached, for every page
    that is not in memory, those that end with a short read, whose probe leads to the record just made,
    of a page that is not mapped. -/
theorem page_in_failure_iff (base n : Nat) (ram : Nat → Nat → Nat) {tr : List (State × Act)}
    {s s' : State} {pid : Nat} {p : Proc} {pg : Page}
    (hrun : machine.Run (State.start base n ram) tr s) (hp : s.procs pid = some p)
    (hpg : p.spt upage = some pg) (hal : upage % pgSize = 0) (hloc : pg.pLoc ≠ .mem)
    (hgrants : Grants s.frames.freePages c.page)
    (hfail : sptGetFrame s pid p upage pg c = .ok (.failure, s')) :
    AsBefore s s' ↔ TakenBack s p upage pg c := by
  have h := (sound_run hrun).records
  obtain ⟨hmmf, addr, r, hpage, hget, hcases⟩ := sptGetFrame_failure h.swap hloc hfail
  rw [hpage] at hgrants
  rcases hcases with ⟨hshort, rfl⟩ | ⟨hwhole, rfl⟩
  · rw [asBefore_givenBack h hp hal hgrants hget]
    constructor
    · rintro ⟨hprobe, hfresh, hunmapped⟩
      exact ⟨hshort, hprobe, hfresh, hunmapped⟩
    · intro hback
      exact ⟨hback.probe, hback.fresh, hback.unmapped⟩
  · refine iff_of_false (not_asBefore_refused hp hpg hmmf) fun hback => ?_
    exact hback.shortRead hwhole

/-! ## One program -/

/-- The first page of the program that `firstPage` starts. -/
def codePage : Page := { pageReadBytes := 4096, writable := false, pLoc := .mmf }

/-- A frame is free, and there is no page for a page table. -/
def failing (bytesRead : Nat) (stale : Option Nat) : FaultChoice :=
  { wellChosen (some 0xc0401000) with
    bytesRead := bytesRead, stale := stale, pageTable := false }

/-- The first page cannot be brought in, and `P` is true of the states before and after. -/
def failsWith (c : FaultChoice) (P : State → Proc → State → Bool) (s : State) : Bool :=
  (s.procs 1).any fun p => decide (p.spt 0x8048000 = some codePage) &&
    (sptGetFrame s 1 p 0x8048000 codePage c).toOption.any fun r =>
      decide (r.1 = .failure) && P s p r.2

theorem exists_failed (c : FaultChoice) (P : State → Proc → State → Bool)
    (h : (machine.play (State.start 0xc0400000 2 fun _ _ => 0) (firstPage.take 1)).any
      (fun r => failsWith c P r.2) = true) :
    ∃ tr s p s', machine.Run (State.start 0xc0400000 2 fun _ _ => 0) tr s ∧
      s.procs 1 = some p ∧ p.spt 0x8048000 = some codePage ∧
      sptGetFrame s 1 p 0x8048000 codePage c = .ok (.failure, s') ∧ P s p s' = true := by
  obtain ⟨tr, s, hrun, hs⟩ := Machine.exists_run_of_play machine _ _ (fun _ s => failsWith c P s) h
  obtain ⟨p, hp, hproc⟩ := (any_eq_true _ _).mp hs
  obtain ⟨hpg, hcall⟩ := Bool.and_eq_true_iff.mp hproc
  obtain ⟨⟨v, s'⟩, hfail, hP⟩ := exists_ok_of_any hcall
  obtain ⟨hv, hP⟩ := Bool.and_eq_true_iff.mp hP
  cases of_decide_eq_true hv
  exact ⟨tr, s, p, s', hrun, hp, of_decide_eq_true hpg, hfail, hP⟩

/-- A short read, with a probe that leads to the page. -/
theorem page_in_short_read :
    ∃ tr s p s', machine.Run (State.start 0xc0400000 2 fun _ _ => 0) tr s ∧ s.procs 1 = some p ∧
      sptGetFrame s 1 p 0x8048000 codePage (failing 100 (some 0x8048000)) = .ok (.failure, s') ∧
      AsBefore s s' := by
  obtain ⟨tr, s, p, s', hrun, hp, hpg, hfail, hP⟩ :=
    exists_failed (failing 100 (some 0x8048000)) (fun s p _ =>
      decide (Grants s.frames.freePages (some 0xc0401000)) && decide (s.frames.ft.elems = []) &&
        decide (pagedirGetPage p.pagedir 0x8048000 = none)) (by decide +kernel)
  simp only [Bool.and_eq_true, decide_eq_true_eq] at hP
  obtain ⟨⟨hgrants, hempty⟩, hunmapped⟩ := hP
  refine ⟨tr, s, p, s', hrun, hp, hfail, ?_⟩
  refine (page_in_failure_iff 0xc0400000 2 _ hrun hp hpg (by decide) (by decide) hgrants hfail).mpr
    ⟨by decide, rfl, fun r hr => ?_, hunmapped⟩
  rw [hempty] at hr
  cases hr

/-- All of the page is read, and there is no page table to map it with: the page is marked as being in
    memory. -/
theorem page_in_refused :
    ∃ tr s p s', machine.Run (State.start 0xc0400000 2 fun _ _ => 0) tr s ∧ s.procs 1 = some p ∧
      sptGetFrame s 1 p 0x8048000 codePage (failing 4096 (some 0x8048000)) = .ok (.failure, s') ∧
      loc s 1 0x8048000 = some .mmf ∧ loc s' 1 0x8048000 = some .mem ∧ ¬ AsBefore s s' := by
  obtain ⟨tr, s, p, s', hrun, hp, hpg, hfail, hP⟩ :=
    exists_failed (failing 4096 (some 0x8048000)) (fun s _ s' =>
      decide (loc s 1 0x8048000 = some .mmf) && decide (loc s' 1 0x8048000 = some .mem))
      (by decide +kernel)
  simp only [Bool.and_eq_true, decide_eq_true_eq] at hP
  obtain ⟨hbefore, hafter⟩ := hP
  refine ⟨tr, s, p, s', hrun, hp, hfail, hbefore, hafter, fun hsame => ?_⟩
  have hloc := hsame.locs 1 0x8048000
  rw [hbefore, hafter] at hloc
  cases hloc

end Pintos.Vm.Paging
