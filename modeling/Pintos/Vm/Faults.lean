/-
  What a page fault and an exit come to.

  1. **Outcomes** (`BroughtIn`, `bringIn_cases`) — the handler finds no frame to ask for; it evicts, and
     hangs; the page is mapped; the page cannot be brought in, and its frame is given back or kept; or
     the kernel hangs after it has got the frame.  Everything below is a case analysis on these.

  2. **Exits** (`Exited`) — the frames that the directory mapped are free afterwards, and nothing else
     has changed; the records of the frame table, in particular, are all there.
-/
import Pintos.Vm.Paging

namespace Pintos.Vm.Paging

open Base Lib Userprog Vm.Frames Function Option

/-! ## Outcomes -/

/-- The page tables say where the pages are as before, as far as swap is concerned, and have all the
    pages they had. -/
structure KeepsLocs (s s' : State) : Prop where
  isSome : ∀ q u, (loc s q u).isSome = true → (loc s' q u).isSome = true
  swapped : ∀ q u, loc s' q u = some .swap ↔ loc s q u = some .swap

/-- The user page of a fault. -/
def upageOf (f : PageFault) : Nat := pgRoundDown f.faultAddr

/-- The page can be brought in: it is not in swap, the file is long enough, and there is a page
    table. -/
def PageInOk (p : Proc) (f : PageFault) (c : FaultChoice) : Prop :=
  (∀ pg, p.spt (upageOf f) = some pg →
    pg.pLoc ≠ .swap ∧ (pg.pLoc = .mmf → c.bytesRead = pg.pageReadBytes)) ∧
  ¬ (p.pagedir (pdNo (upageOf f)) = none ∧ c.pageTable = false)

/-- A frame has been taken for the page of the fault, and nothing mapped. -/
structure Taken (s : State) (pid : Nat) (p : Proc) (f : PageFault) (c : FaultChoice) (addr : Nat)
    (s' : State) : Prop where
  wants : wantsFrame p f c = true
  page : c.page = some addr
  same : Same s s'
  ram : ∀ a, a ≠ addr → s'.ram a = s.ram a
  locs : KeepsLocs s s'
  here : (loc s' pid (upageOf f)).isSome = true

/-- The frame table with the record of a new frame. -/
def addedFrame (s : State) (pid : Nat) (f : PageFault) (c : FaultChoice) (addr : Nat) : Table :=
  added s.frames pid (upageOf f) addr c.toChoice

/-- The frame table after `ft_remove` has come to the record `r`. -/
def removedFrame (t : Table) (c : FaultChoice) (addr : Nat) (r : Record) : Table := { t with
    ft := (t.ft.hashDelete ftFns c.bucketMemory r).2
    lruQueue := t.lruQueue.erase r
    freePages := addr :: t.freePages }

/-- **The outcomes** of the body of the handler. -/
inductive BroughtIn (s : State) (pid : Nat) (p : Proc) (f : PageFault) (c : FaultChoice) :
    Verdict → State → Prop where
  | noFrame (hw : wantsFrame p f c = false) : BroughtIn s pid p f c .failure s
  | evicted {s'} (head : Record) (rest : List Record) (hw : wantsFrame p f c = true)
      (hpage : c.page = none) (hq : s.frames.lruQueue = head :: rest)
      (hf : s'.frames = { s.frames with lruQueue := rest }) (hs : Same s s') (hr : s'.ram = s.ram)
      (hsome : ∀ q u, (loc s q u).isSome = true → (loc s' q u).isSome = true)
      (hswap : ∀ q u, (loc s q u).isSome = true → (loc s' q u = some .swap ↔
        loc s q u = some .swap ∨ q = head.owner ∧ u = head.upage)) :
      BroughtIn s pid p f c .hung s'
  | mapped {s' s₁} (addr : Nat) (ht : Taken s pid p f c addr s₁) (hok : PageInOk p f c)
      (hf : s'.frames = addedFrame s pid f c addr) (ha : ∀ q, alive s' q = alive s q)
      (hm : ∀ q v, v % pgSize = 0 →
        mapAt s' q v = if q = pid ∧ v = upageOf f then some addr else mapAt s q v)
      (hr : s'.ram = s₁.ram) (hl : ∀ q u, (loc s' q u).isSome = (loc s₁ q u).isSome)
      (hswap : ∀ q u, loc s' q u = some .swap ↔ loc s₁ q u = some .swap) :
      BroughtIn s pid p f c .success s'
  | removed {s'} (addr : Nat) (r : Record) (ht : Taken s pid p f c addr s')
      (hok : ¬ PageInOk p f c) (hpg : ∀ pg, p.spt (upageOf f) = some pg → pg.pLoc ≠ .swap)
      (hspt : p.spt (upageOf f) ≠ none)
      (hget : ftGet (addedFrame s pid f c addr) addr c.stale = .ok (some r))
      (hf : s'.frames = removedFrame (addedFrame s pid f c addr) c addr r) :
      BroughtIn s pid p f c .failure s'
  | abandoned {s'} (addr : Nat) (ht : Taken s pid p f c addr s') (hok : ¬ PageInOk p f c)
      (hspt : p.spt (upageOf f) = none) (hf : s'.frames = addedFrame s pid f c addr) :
      BroughtIn s pid p f c .failure s'
  | stuck {s'} (addr : Nat) (ht : Taken s pid p f c addr s') (hok : ¬ PageInOk p f c)
      (hget : (∃ pg, p.spt (upageOf f) = some pg ∧ pg.pLoc = .swap) ∨
        ∀ r, ftGet (addedFrame s pid f c addr) addr c.stale ≠ .ok (some r))
      (hf : s'.frames = addedFrame s pid f c addr) :
      BroughtIn s pid p f c .hung s'

namespace KeepsLocs

theorem of_eq {s s' : State} (h : ∀ q u, loc s' q u = loc s q u) : KeepsLocs s s' where
  isSome q u hs := by
    rwa [h]
  swapped q u := by rw [h]

theorem trans {s s' s'' : State} (h : KeepsLocs s s') (h' : KeepsLocs s' s'') :
    KeepsLocs s s'' where
  isSome q u hs := h'.isSome q u (h.isSome q u hs)
  swapped q u := (h'.swapped q u).trans (h.swapped q u)

theorem setLoc_mem {s : State} {pid u : Nat} (h : loc s pid u ≠ some .swap) :
    KeepsLocs s (s.setLoc pid u .mem) where
  isSome q w hs := by
    rwa [isSome_loc_setLoc]
  swapped q w := by
    rw [loc_setLoc]
    split
    · rename_i hqw
      rw [hqw.1, hqw.2]
      cases hl : loc s pid u with
      | none => simp
      | some =>
        rw [hl] at h
        simp only [map_some, some.injEq]
        constructor
        · intro hm
          cases hm
        · intro hm
          exact absurd (congrArg some hm) h
    · rfl

end KeepsLocs

variable {s s' : State} {pid addr : Nat} {c : FaultChoice} {v : Verdict} {pg : Page}

section Parts

variable {upage : Nat}

/-- The thread that has evicted a frame. -/
def evictHang (s : State) (pid : Nat) (head : Record) (rest : List Record) : State :=
  ({ s with frames := { s.frames with lruQueue := rest } }.setLoc head.owner head.upage .swap).hang
    pid true

/-- `ft_add` comes back with a page, or evicts. -/
theorem withFrame_cases (hb : s.frames.swap = Swap.boot) {k : Nat → State → Handled}
    (h : withFrame s pid upage c k = .ok (v, s')) :
    (∃ addr, c.page = some addr ∧
      k addr { s with frames := added s.frames pid upage addr c.toChoice } = .ok (v, s')) ∨
    (c.page = none ∧ ∃ head rest, s.frames.lruQueue = head :: rest ∧ v = .hung ∧
      s' = evictHang s pid head rest) := by
  unfold withFrame at h
  cases hp : c.page with
  | some addr =>
    cases hadd : Frames.ftAdd s.frames pid upage c.toChoice with
    | ok =>
      obtain ⟨-, addr', ha, rfl⟩ := ftAdd_eq_ok.mp hadd
      rw [hp] at ha
      cases ha
      rw [hadd] at h
      exact .inl ⟨addr, rfl, h⟩
    | error =>
      rw [hadd] at h
      simp only [ftAdd_panics hp hadd] at h
      cases h
  | none =>
    obtain ⟨left, hl, hcases⟩ := ftEvict_error pid c.toChoice s.frames
    rw [ftAdd_evicts hp hl] at h
    rcases hcases with ⟨-, -, hstop⟩ | ⟨head, rest, -, hq, ht, hvic, hh, hstop, hw⟩
    · simp only [hstop] at h
      cases h
    -- the lock pointer of the swap table is null
    rw [hb] at hw
    cases hw
    simp only [hstop, hvic, ht] at h
    cases h
    exact .inr ⟨rfl, head, rest, hq, rfl, rfl⟩

theorem readSwap_boot (s : State) (hb : s.frames.swap = Swap.boot) (pid : Nat) (p : Proc)
    (upage addr : Nat) (pg : Page) (c : FaultChoice) :
    readSwap s pid p upage addr pg c = .ok (.hung, s.hang pid false) := by
  unfold readSwap
  rw [hb]
  rfl

theorem giveBack_cases (h : giveBack s pid upage addr c = .ok (v, s')) :
    (∃ r, ftGet s.frames addr c.stale = .ok (some r) ∧ v = .failure ∧
      s' = { s with frames := removedFrame s.frames c addr r }.clearPage pid upage) ∨
    ((∀ r, ftGet s.frames addr c.stale ≠ .ok (some r)) ∧ v = .hung ∧
      s' = s.hang pid c.stale.isNone) := by
  unfold giveBack at h
  cases hrem : Frames.ftRemove s.frames addr c.stale c.bucketMemory with
  | ok =>
    rw [hrem] at h
    cases h
    obtain ⟨r, hget, -, rfl⟩ := ftRemove_eq_ok.mp hrem
    exact .inl ⟨r, hget, rfl, rfl⟩
  | error stop =>
    rw [hrem] at h
    cases stop with
    | freeTwice => cases h
    | halt hh =>
      cases hh with
      | exit => cases h
      | panic => cases h
      | overrun => cases h
      | kernelFault =>
        cases h
        refine .inr ⟨fun r hget => ?_, rfl, rfl⟩
        rw [Frames.ftRemove, hget] at hrem
        simp only [Bind.bind, Except.bind, pallocFreePage] at hrem
        split at hrem
        · cases hrem
        · cases hrem

end Parts

variable {p : Proc}

section Cases

variable {s₁ s₂ : State} {f : PageFault}

theorem Taken.step (h : Taken s pid p f c addr s₁) (hs : Same s₁ s₂)
    (hr : ∀ a, a ≠ addr → s₂.ram a = s₁.ram a) (hl : KeepsLocs s₁ s₂) :
    Taken s pid p f c addr s₂ where
  wants := h.wants
  page := h.page
  same := h.same.trans hs
  ram a ha := (hr a ha).trans (h.ram a ha)
  locs := h.locs.trans hl
  here := hl.isSome _ _ h.here

theorem upageOf_aligned (f : PageFault) : upageOf f % pgSize = 0 := by
  simp only [upageOf, pgRoundDown, pgOfs, pgSize]
  omega

theorem upageOf_lt (h : f.faultAddr < physBase) : upageOf f < physBase := by
  have : upageOf f ≤ f.faultAddr := Nat.sub_le ..
  omega

theorem absent_upage (h : pagedirGetPage p.pagedir f.faultAddr = none) :
    pagedirGetPage p.pagedir (upageOf f) = none :=
  getPage_roundDown h

theorem same_clear (hp : s₁.procs pid = some p)
    (habs : pagedirGetPage p.pagedir (upageOf f) = none) :
    Same s₁ (s₁.clearPage pid (upageOf f)) := by
  refine ⟨alive_modify fun _ => rfl, fun q v hv => mapAt_modify (fun p' hp' => ?_) q⟩
  rw [hp] at hp'
  cases hp'
  rw [getPage_clear (upageOf_aligned f) hv]
  split
  · rename_i hvu
    rw [hvu, habs]
  · rfl

section

variable (h : Taken s pid p f c addr s₁)
include h

theorem taken_hang (lock : Bool) : Taken s pid p f c addr (s₁.hang pid lock) :=
  h.step (same_hang s₁ pid lock) (fun _ _ => rfl) (KeepsLocs.of_eq (loc_hang s₁ pid lock))

/-- The page has been cleared from the directory, where it was not, and the frame table changed. -/
theorem taken_clear (hp : s₁.procs pid = some p)
    (habs : pagedirGetPage p.pagedir (upageOf f) = none) (t : Table) :
    Taken s pid p f c addr ({ s₁ with frames := t }.clearPage pid (upageOf f)) := by
  have ht : Same s₁ { s₁ with frames := t } := ⟨fun _ => rfl, fun _ _ _ => rfl⟩
  refine h.step (ht.trans (same_clear hp habs)) (fun _ _ => rfl) (KeepsLocs.of_eq fun q u => ?_)
  rw [loc_clearPage]
  rfl

end

section

variable (ht : Taken s pid p f c addr s₁) (hp : s₁.procs pid = some p)
  (habs : pagedirGetPage p.pagedir (upageOf f) = none)
  (hf : s₁.frames = addedFrame s pid f c addr)
include ht hp habs hf

theorem giveBack_broughtIn (hok : ¬ PageInOk p f c)
    (hpg : ∀ pg, p.spt (upageOf f) = some pg → pg.pLoc ≠ .swap) (hspt : p.spt (upageOf f) ≠ none)
    (h : giveBack s₁ pid (upageOf f) addr c = .ok (v, s')) : BroughtIn s pid p f c v s' := by
  rcases giveBack_cases h with ⟨r, hget, rfl, rfl⟩ | ⟨hget, rfl, rfl⟩
  · rw [hf] at hget ⊢
    exact .removed addr r (taken_clear ht hp habs _) hok hpg hspt hget rfl
  · rw [hf] at hget
    exact .stuck addr (taken_hang ht _) hok (.inr hget) hf

theorem install_broughtIn (hspt : p.spt (upageOf f) = some pg)
    (hpg : pg.pLoc ≠ .swap) (hbytes : pg.pLoc = .mmf → c.bytesRead = pg.pageReadBytes)
    (h : install s₁ pid p (upageOf f) addr pg c = .ok (v, s')) : BroughtIn s pid p f c v s' := by
  have hloc : loc s₁ pid (upageOf f) ≠ some .swap := by
    simp only [loc, hp, bind_some, hspt, map_some]
    exact fun h => hpg (some.inj h)
  have hpg' : ∀ pg', p.spt (upageOf f) = some pg' → pg'.pLoc ≠ .swap := by
    intro pg' hpg'
    rw [hspt] at hpg'
    exact some.inj hpg' ▸ hpg
  unfold install at h
  rcases installPage_cases habs addr pg.writable c.pageTable with
    ⟨h1, h2, hi⟩ | ⟨hn, pd, hi, hl⟩
  · rw [hi] at h
    have hok : ¬ PageInOk p f c := fun hok => hok.2 ⟨h1, h2⟩
    obtain ⟨⟨v1, s₂⟩, hg, hret⟩ := bind_eq_ok.mp h
    rcases giveBack_cases hg with ⟨r, hget, rfl, rfl⟩ | ⟨hget, rfl, rfl⟩
    · cases hret
      rw [hf] at hget
      refine .removed addr r ((taken_clear ht hp habs _).step (same_setLoc ..) (fun _ _ => rfl)
        (KeepsLocs.setLoc_mem ?_)) hok hpg' (fun hnone => by rw [hspt] at hnone; cases hnone) hget ?_
      · rwa [loc_clearPage]
      · show removedFrame s₁.frames c addr r = _
        rw [hf]
    · cases hret
      rw [hf] at hget
      exact .stuck addr (taken_hang ht _) hok (.inr hget) hf
  · rw [hi] at h
    cases h
    have hset : pagedirSetPage p.pagedir (upageOf f) addr pg.writable c.pageTable = some pd := by
      unfold installPage at hi
      rwa [habs] at hi
    refine .mapped addr ht ⟨fun pg' hpg1 => ?_, hn⟩ hf (fun q => ?_) (fun q v hv => ?_) rfl
      (fun q u => ?_) (fun q u => ?_)
    · rw [hspt] at hpg1
      cases hpg1
      exact ⟨hpg, hbytes⟩
    · rw [(same_setLoc _ pid (upageOf f) .mem).alive q, alive_setPagedir]
      exact ht.same.alive q
    · rw [(same_setLoc _ pid (upageOf f) .mem).mapAt q v hv, ← ht.same.mapAt q v hv]
      exact mapAt_setPagedir hp (upageOf_aligned f) hset q hv
    · rw [isSome_loc_setLoc, loc_setPagedir]
    · have hk : KeepsLocs (s₁.setPagedir pid pd) _ := KeepsLocs.setLoc_mem (by rwa [loc_setPagedir])
      rw [hk.swapped q u, loc_setPagedir]

end

/-- An eviction by a process whose state has, but for the page tables, not changed. -/
theorem evicted_broughtIn {s0 : State} {head : Record} {rest : List Record}
    (hw : wantsFrame p f c = true) (hpage : c.page = none)
    (hq : s0.frames.lruQueue = head :: rest) (hf : s0.frames = s.frames) (hs : Same s s0)
    (hr : s0.ram = s.ram) (hsome : ∀ q u, (loc s q u).isSome = true → loc s0 q u = loc s q u) :
    BroughtIn s pid p f c .hung (evictHang s0 pid head rest) := by
  have hloc : ∀ q u, loc (evictHang s0 pid head rest) q u =
      if q = head.owner ∧ u = head.upage then (loc s0 q u).map (fun _ => .swap) else loc s0 q u := by
    intro q u
    rw [evictHang, loc_hang, loc_setLoc]
    rfl
  refine .evicted head rest hw hpage (hf ▸ hq) ?_ ?_ hr (fun q u hl => ?_) (fun q u hl => ?_)
  · show { s0.frames with lruQueue := rest } = _
    rw [hf]
  · have h0 : Same s0 { s0 with frames := { s0.frames with lruQueue := rest } } :=
      ⟨fun _ => rfl, fun _ _ _ => rfl⟩
    exact hs.trans (h0.trans ((same_setLoc ..).trans (same_hang ..)))
  · rw [hloc, hsome q u hl]
    split
    · rwa [isSome_map]
    · exact hl
  · rw [hloc, hsome q u hl]
    split
    · rename_i hqu
      cases hlq : loc s q u with
      | none =>
        rw [hlq] at hl
        cases hl
      | some => simp [hqu]
    · rename_i hqu
      simp [hqu]

theorem sptGetFrame_broughtIn (hb : s.frames.swap = Swap.boot) (hp : s.procs pid = some p)
    (habs : pagedirGetPage p.pagedir (upageOf f) = none) (hspt : p.spt (upageOf f) = some pg)
    (h : sptGetFrame s pid p (upageOf f) pg c = .ok (v, s')) : BroughtIn s pid p f c v s' := by
  have hw : wantsFrame p f c = true := by
    have hsome : (p.spt (pgRoundDown f.faultAddr)).isSome = true := by
      show (p.spt (upageOf f)).isSome = true
      rw [hspt]
      rfl
    rw [wantsFrame, hsome, Bool.true_or]
  have hhere : loc s pid (upageOf f) = some pg.pLoc := by
    simp only [loc, hp, bind_some, hspt, map_some]
  rcases withFrame_cases hb h with ⟨addr, hpage, hk⟩ | ⟨hpage, head, rest, hq, rfl, rfl⟩
  · have ht : Taken s pid p f c addr { s with frames := addedFrame s pid f c addr } := by
      refine ⟨hw, hpage, ⟨fun _ => rfl, fun _ _ _ => rfl⟩, fun _ _ => rfl,
        KeepsLocs.of_eq fun _ _ => rfl, ?_⟩
      show (loc s pid (upageOf f)).isSome = true
      rw [hhere]
      rfl
    cases hloc : pg.pLoc with
    | mem =>
      simp only [hloc] at hk
      exact install_broughtIn ht hp habs rfl hspt (by rw [hloc]; decide)
        (fun h => by rw [hloc] at h; cases h) hk
    | swap =>
      have hok : ¬ PageInOk p f c := fun hok => (hok.1 pg hspt).1 hloc
      simp only [hloc] at hk
      have hread := readSwap_boot { s with frames := addedFrame s pid f c addr } hb pid p
        (upageOf f) addr pg c
      cases hread.symm.trans hk
      exact .stuck addr (taken_hang ht false) hok (.inl ⟨pg, hspt, hloc⟩) rfl
    | mmf =>
      have ht' : Taken s pid p f c addr { s with
          frames := addedFrame s pid f c addr
          ram := update s.ram addr (fileContents c pg (s.ram addr)) } :=
        ht.step ⟨fun _ => rfl, fun _ _ _ => rfl⟩ (fun a ha => update_of_ne ha ..)
          (KeepsLocs.of_eq fun _ _ => rfl)
      simp only [hloc] at hk
      have hne : pg.pLoc ≠ .swap := by
        rw [hloc]
        decide
      split at hk
      · rename_i hbytes
        exact install_broughtIn ht' hp habs rfl hspt hne (fun _ => hbytes) hk
      rename_i hbytes
      refine giveBack_broughtIn ht' hp habs rfl (fun hok => hbytes ((hok.1 pg hspt).2 hloc)) ?_ ?_
        hk
      · intro pg' hpg'
        rw [hspt] at hpg'
        cases hpg'
        exact hne
      · rw [hspt]
        exact some_ne_none pg
  · exact evicted_broughtIn hw hpage hq rfl (Same.refl s) rfl (fun _ _ _ => rfl)

theorem same_spCreate (s : State) (pid upage : Nat) : Same s (s.spCreate pid upage) :=
  same_modify (fun _ => rfl) (fun _ => rfl)

theorem loc_spCreate (hp : s.procs pid = some p) (upage q u : Nat) :
    loc (s.spCreate pid upage) q u = if q = pid ∧ u = upage then some .mem else loc s q u := by
  unfold loc State.spCreate
  rw [procs_modify, hp]
  by_cases hq : q = pid
  · rw [if_pos hq, hq, hp]
    by_cases hu : u = upage
    · simp [hu, stackPage]
    · simp [hu]
  · rw [if_neg hq, if_neg (fun h => hq h.1)]

theorem newPageOnStack_broughtIn (hb : s.frames.swap = Swap.boot) (hp : s.procs pid = some p)
    (habs : pagedirGetPage p.pagedir (upageOf f) = none) (hspt : p.spt (upageOf f) = none)
    (hnear : f.nearStack = true)
    (h : newPageOnStack s pid p f.esp (upageOf f) c = .ok (v, s')) : BroughtIn s pid p f c v s' := by
  have hnone : loc s pid (upageOf f) = none := by
    simp only [loc, hp, bind_some, hspt, map_none]
  have hisNone : (p.spt (pgRoundDown f.faultAddr)).isSome = false := by
    show (p.spt (upageOf f)).isSome = false
    rw [hspt]
    rfl
  unfold newPageOnStack at h
  split at h
  · rename_i hcond
    have hw : wantsFrame p f c = true := by
      simp [wantsFrame, hnear, hcond.1, hcond.2]
    have hsome : ∀ q u, (loc s q u).isSome = true →
        loc (s.spCreate pid (upageOf f)) q u = loc s q u := by
      intro q u hl
      rw [loc_spCreate hp, if_neg]
      rintro ⟨rfl, rfl⟩
      rw [hnone] at hl
      cases hl
    rcases withFrame_cases (s := s.spCreate pid (upageOf f)) hb h with
      ⟨addr, hpage, hk⟩ | ⟨hpage, head, rest, hq, rfl, rfl⟩
    · have ht : Taken s pid p f c addr
          { s.spCreate pid (upageOf f) with frames := addedFrame s pid f c addr } := by
        have hsame := same_spCreate s pid (upageOf f)
        refine ⟨hw, hpage, ⟨hsame.alive, hsame.mapAt⟩, fun _ _ => rfl, ⟨fun q u hl => ?_,
          fun q u => ?_⟩, ?_⟩
        · show (loc (s.spCreate pid (upageOf f)) q u).isSome = true
          rwa [hsome q u hl]
        · show loc (s.spCreate pid (upageOf f)) q u = some .swap ↔ _
          rw [loc_spCreate hp]
          split
          · rename_i hqu
            rw [hqu.1, hqu.2, hnone]
            simp
          · rfl
        · show (loc (s.spCreate pid (upageOf f)) pid (upageOf f)).isSome = true
          rw [loc_spCreate hp, if_pos ⟨rfl, rfl⟩]
          rfl
      rcases installPage_cases habs addr stackPage.writable c.pageTable with
        ⟨h1, h2, hi⟩ | ⟨hn, pd, hi, -⟩
      · simp only [hi] at hk
        cases hk
        exact .abandoned addr ht (fun hok => hok.2 ⟨h1, h2⟩) hspt rfl
      · simp only [hi] at hk
        cases hk
        have hset : pagedirSetPage p.pagedir (upageOf f) addr stackPage.writable c.pageTable =
            some pd := by
          unfold installPage at hi
          rwa [habs] at hi
        refine .mapped addr ht ⟨fun pg hpg => ?_, hn⟩ rfl (fun q => ?_) (fun q v hv => ?_) rfl
          (fun q u => ?_) (fun q u => ?_)
        · rw [hspt] at hpg
          cases hpg
        · rw [alive_setPagedir]
          exact ht.same.alive q
        · have hp' : (s.spCreate pid (upageOf f)).procs pid = some { p with
              spt := update p.spt (upageOf f) (some stackPage) } := by
            rw [State.spCreate, procs_modify, if_pos rfl, hp]
            rfl
          rw [← ht.same.mapAt q v hv]
          exact mapAt_setPagedir hp' (upageOf_aligned f) hset q hv
        · rw [loc_setPagedir]
          rfl
        · rw [loc_setPagedir]
          rfl
    · exact evicted_broughtIn hw hpage hq rfl (same_spCreate ..) rfl hsome
  · rename_i hcond
    cases h
    refine .noFrame ?_
    rw [wantsFrame, hisNone, Bool.false_or, hnear, Bool.true_and]
    by_cases hesp : physBase - maxStack < f.esp
    · have hm : c.pageMemory = false := by
        simpa [hesp] using hcond
      rw [hm, Bool.and_false]
    · simp [hesp]

/-- **What the handler comes to.** -/
theorem bringIn_cases (hb : s.frames.swap = Swap.boot) (hp : s.procs pid = some p)
    (hr : FaultRaised s p f c)
    (h : bringIn s pid p f c = .ok (v, s')) : BroughtIn s pid p f c v s' := by
  have habs := absent_upage (p := p) (f := f) hr.absent
  unfold bringIn at h
  cases hspt : p.spt (upageOf f) with
  | some pg =>
    have hspt' : p.spt (pgRoundDown f.faultAddr) = some pg := hspt
    rw [hspt'] at h
    exact sptGetFrame_broughtIn hb hp habs hspt h
  | none =>
    have hspt' : p.spt (pgRoundDown f.faultAddr) = none := hspt
    rw [hspt'] at h
    cases hnear : f.nearStack with
    | true =>
      simp only [hnear, if_true] at h
      exact newPageOnStack_broughtIn hb hp habs hspt hnear h
    | false =>
      simp only [hnear] at h
      cases h
      refine .noFrame ?_
      simp [wantsFrame, hspt', hnear]

end Cases

/-! ## Exits -/

/-- `pid` has exited: the frames it had mapped are free, and nothing else has changed. -/
structure Exited (s : State) (pid : Nat) (s' : State) : Prop where
  alive : ∀ q, alive s' q = if q = pid then false else alive s q
  mapAt : ∀ q v, mapAt s' q v = if q = pid then none else mapAt s q v
  frames : ∃ freed, s'.frames = { s.frames with freePages := freed ++ s.frames.freePages } ∧
    freed.Nodup ∧ (∀ a ∈ freed, a ∉ s.frames.freePages) ∧ ∀ a, a ∈ freed ↔ ∃ v, Maps s pid v a
  ram : s'.ram = s.ram
  loc : ∀ q u, loc s' q u = loc s q u

section

variable (hp : s.procs pid = some p)
include hp

theorem mapAt_self (v : Nat) : mapAt s pid v = pagedirGetPage p.pagedir v := by
  simp only [mapAt, hp, bind_some]

theorem mem_mappedPages_iff {a : Nat} : a ∈ mappedPages p.pagedir ↔ ∃ v, Maps s pid v a := by
  simp only [mem_mappedPages, Maps, mapAt_self hp]

theorem processExit_exited (h : processExit s pid = .ok s') : Exited s pid s' := by
  unfold processExit at h
  simp only [hp] at h
  obtain ⟨t, ht, hret⟩ := bind_eq_ok.mp h
  cases hret
  obtain ⟨hn, hd, htf⟩ := foldlM_free.mp ht
  refine ⟨fun q => ?_, fun q v => ?_, ⟨(mappedPages p.pagedir).reverse, htf,
    List.nodup_reverse.mpr hn, fun a ha => ?_, fun a => ?_⟩, rfl, fun q u => ?_⟩
  · show (((s.modify pid _).procs q).map Proc.alive).getD false = _
    rw [procs_modify, hp]
    split
    · rfl
    · rfl
  · show ((s.modify pid _).procs q).bind _ = _
    rw [procs_modify, hp]
    split
    · rfl
    · rfl
  · exact hd a (List.mem_reverse.mp ha)
  · rw [List.mem_reverse]
    exact mem_mappedPages_iff hp
  · apply loc_modify
    intro p'
    rfl

/-- An exit comes to an end if the frames mapped are different, and in use. -/
theorem processExit_ok (hinj : ∀ u v a, Maps s pid u a → Maps s pid v a → u = v)
    (hused : ∀ v a, Maps s pid v a → a ∉ s.frames.freePages) :
    ∃ s', processExit s pid = .ok s' := by
  have hn : (mappedPages p.pagedir).Nodup := by
    refine nodup_mappedPages fun u v a hu hul hv hvl hua hva => ?_
    exact hinj u v a ⟨hu, hul, (mapAt_self hp u).trans hua⟩ ⟨hv, hvl, (mapAt_self hp v).trans hva⟩
  have hd : ∀ a ∈ mappedPages p.pagedir, a ∉ s.frames.freePages := by
    intro a ha
    obtain ⟨v, hv⟩ := (mem_mappedPages_iff hp).mp ha
    exact hused v a hv
  unfold processExit
  simp only [hp]
  refine ⟨_, bind_eq_ok.mpr ⟨_, foldlM_free.mpr ⟨hn, hd, rfl⟩, rfl⟩⟩

end

end Pintos.Vm.Paging
