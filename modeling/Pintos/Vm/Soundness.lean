/-
  What every run of the paging machine keeps.

  1. **Soundness** (`Sound`, `sound_run`) — whatever has become of the frame table, no two pages are
     mapped to one frame, no mapped frame is free, and processes that have exited map nothing.

  2. **Frees** (`Sound.not_twice`) — hence `palloc_free_page` is never called on a page that is free.

  The steps are taken apart by `BroughtIn` (a fault), `Started` (a new process) and `Exited`; each
  preservation lemma is about one of their cases.
-/
import Pintos.Vm.Faults

namespace Pintos.Vm.Paging

open Base Lib Userprog Vm.Frames Function List Stops Option

/-! ## The invariant -/

/-- What holds of the records, whatever has become of them. -/
structure Records (t : Table) : Prop where
  swap : t.swap = Swap.boot
  wf : t.ft.WF ftFns Record.upage
  lru : t.lruQueue.Nodup
  ids : ∀ r, r ∈ t.ft.elems ∨ r ∈ t.lruQueue → r.id < t.nextId

/-- What holds in every run, of the records and of the pages of the user pool. -/
structure Sound (pool : List Nat) (s : State) : Prop where
  records : Records s.frames
  free : s.frames.freePages.Nodup
  inPool : ∀ a ∈ s.frames.freePages, a ∈ pool
  used : ∀ q v a, Maps s q v a → a ∈ pool ∧ a ∉ s.frames.freePages
  inj : ∀ q v q' v' a, Maps s q v a → Maps s q' v' a → q = q' ∧ v = v'
  dead : ∀ q v, v % pgSize = 0 → alive s q = false → mapAt s q v = none
  /-- The page of every record is in the table of its owner. -/
  pages : ∀ r ∈ s.frames.lruQueue, (loc s r.owner r.upage).isSome = true

variable {r : Record} {v : Verdict}

namespace Records

variable {t : Table}

section

variable (h : Records t)
include h

/-- A new record has a new id. -/
theorem newFrame_not_mem (cur upage addr : Nat) : newFrame t cur upage addr ∉ t.lruQueue := by
  intro hm
  have hid : t.nextId < t.nextId := h.ids _ (.inr hm)
  exact Nat.lt_irrefl _ hid

variable {cur upage addr : Nat} {c : Choice}

/-- A user address that no record has: the new record is inserted. -/
theorem added_new (hno : ∀ r ∈ t.ft.elems, r.upage ≠ upage) :
    (added t cur upage addr c).ft.elems.Perm (newFrame t cur upage addr :: t.ft.elems) :=
  (Hash.hashInsert_new ftFns_keyed h.wf _ (e := newFrame t cur upage addr) hno).2.2

/-- Some record has the user address: the new one is not inserted. -/
theorem added_old (hr : r ∈ t.ft.elems) (hu : r.upage = upage) :
    (added t cur upage addr c).ft.elems.Perm t.ft.elems :=
  (Hash.hashInsert_old ftFns_keyed h.wf _ (e := newFrame t cur upage addr) hr hu).2.2

theorem added (cur upage addr : Nat) (c : Choice) : Records (added t cur upage addr c) := by
  obtain ⟨hwf, hel⟩ :=
    Hash.hashInsert_wf ftFns_keyed h.wf c.bucketMemory (newFrame t cur upage addr)
  refine ⟨h.swap, hwf, ?_, fun r hr => ?_⟩
  · refine Nodup.append h.lru (nodup_singleton _) fun r hr hsing => ?_
    rw [mem_singleton.mp hsing] at hr
    exact h.newFrame_not_mem cur upage addr hr
  · have hcases : r = newFrame t cur upage addr ∨ r ∈ t.ft.elems ∨ r ∈ t.lruQueue := by
      rcases hr with hr | hr
      · rcases hel r hr with hr | hr
        · exact .inl hr
        · exact .inr (.inl hr)
      · rcases mem_append.mp hr with hr | hr
        · exact .inr (.inr hr)
        · exact .inl (mem_singleton.mp hr)
    rcases hcases with rfl | hr
    · exact Nat.lt_succ_self _
    · exact Nat.lt_succ_of_lt (h.ids r hr)

theorem mem_of_ftGet {addr : Nat} {stale : Option Nat}
    (hget : ftGet t addr stale = .ok (some r)) : r ∈ t.ft.elems ∧ stale = some r.upage := by
  cases stale with
  | none => cases hget
  | some =>
    obtain ⟨hm, hu⟩ := (Hash.hashFind_eq_some ftFns_keyed h.wf).mp (Except.ok.inj hget)
    exact ⟨hm, congrArg some hu.symm⟩

theorem removed (c : FaultChoice) (addr : Nat)
    (hr : r ∈ t.ft.elems) : Records (removedFrame t c addr r) := by
  obtain ⟨-, hwf, -⟩ := Hash.hashDelete_elems ftFns_keyed h.wf c.bucketMemory hr rfl
  refine ⟨h.swap, hwf, h.lru.erase r, fun x hx => h.ids x ?_⟩
  rcases hx with hx | hx
  · exact .inl ((Hash.mem_hashDelete ftFns_keyed h.wf c.bucketMemory hr).mp hx).1
  · exact .inr (mem_of_mem_erase hx)

theorem popped {head : Record} {rest : List Record}
    (hq : t.lruQueue = head :: rest) : Records { t with lruQueue := rest } where
  swap := h.swap
  wf := h.wf
  lru := (nodup_cons.mp (hq ▸ h.lru)).2
  ids r hr := by
    refine h.ids r (hr.imp_right fun hr => ?_)
    rw [hq]
    exact mem_cons_of_mem _ hr

theorem freePages (free : List Nat) : Records { t with freePages := free } :=
  ⟨h.swap, h.wf, h.lru, h.ids⟩

end

end Records

variable {pool : List Nat} {s s' : State} {pid addr : Nat} {p : Proc} {f : PageFault}
  {c : FaultChoice}

section Keep

variable {s₁ : State} {a : Nat}

theorem sound_start (base n : Nat) (ram : Nat → Nat → Nat) :
    Sound (userPool base n) (State.start base n ram) where
  records := by
    refine ⟨rfl, Hash.init_wf, nodup_nil, fun r hr => ?_⟩
    simp [State.start, Table.start] at hr
  free := nodup_userPool base n
  inPool a ha := ha
  used := by
    rintro q v a ⟨-, -, h⟩
    cases h
  inj := by
    rintro q v q' v' a ⟨-, -, h⟩
    cases h
  dead q v _ _ := rfl
  pages := by
    intro r hr
    cases hr

section

variable (h : Sound pool s)
include h

theorem Sound.unmapped (ha : a ∈ s.frames.freePages) (q v : Nat) : ¬ Maps s q v a :=
  fun hm => (h.used q v a hm).2 ha

/-- Where no mapping changes, only the free pages and the records are to be checked. -/
theorem Sound.congr (hs : Grown s s') (hrec : Records s'.frames) (hn : s'.frames.freePages.Nodup)
    (hfree : ∀ a ∈ s'.frames.freePages, a ∈ pool ∧ ∀ q v, ¬ Maps s q v a)
    (hl : ∀ r ∈ s'.frames.lruQueue, (loc s' r.owner r.upage).isSome = true) : Sound pool s' where
  records := hrec
  free := hn
  inPool a ha := (hfree a ha).1
  used q v a hm := ⟨(h.used q v a (hs.maps.mp hm)).1, fun ha => (hfree a ha).2 q v (hs.maps.mp hm)⟩
  inj q v q' v' a hm hm' := h.inj q v q' v' a (hs.maps.mp hm) (hs.maps.mp hm')
  dead q v hv ha := by
    refine (hs.mapAt q v hv).trans (h.dead q v hv ?_)
    cases hq : alive s q with
    | false => rfl
    | true =>
      rw [hs.alive q hq] at ha
      cases ha
  pages := hl

/-- A free frame is taken: nobody mapped it. -/
theorem Sound.taken (ht : Taken s pid p f c addr s')
    (hf : s'.frames = addedFrame s pid f c addr) : Sound pool s' := by
  refine h.congr ht.same.grown (hf ▸ h.records.added ..) ?_ (fun a ha => ?_) (fun r hr => ?_)
  · rw [hf]
    exact h.free.erase addr
  · rw [hf] at ha
    have ha' : a ∈ s.frames.freePages := mem_of_mem_erase ha
    exact ⟨h.inPool a ha', fun q v => h.unmapped ha' q v⟩
  · rw [hf] at hr
    rcases mem_append.mp hr with hr | hr
    · exact ht.locs.isSome _ _ (h.pages r hr)
    · rw [mem_singleton.mp hr]
      exact ht.here

theorem Sound.givenBack (hfree : addr ∈ s.frames.freePages) (ht : Taken s pid p f c addr s')
    (hr : r ∈ (addedFrame s pid f c addr).ft.elems)
    (hf : s'.frames = removedFrame (addedFrame s pid f c addr) c addr r) : Sound pool s' := by
  have hrec : Records (addedFrame s pid f c addr) := h.records.added ..
  have hmem : ∀ a, a ∈ s'.frames.freePages → a ∈ s.frames.freePages := by
    intro a ha
    rw [hf] at ha
    rcases mem_cons.mp ha with rfl | ha
    · exact hfree
    · exact mem_of_mem_erase ha
  refine h.congr ht.same.grown (hf ▸ hrec.removed c addr hr) ?_ (fun a ha => ?_) (fun x hx => ?_)
  · rw [hf]
    exact nodup_cons.mpr ⟨h.free.not_mem_erase, h.free.erase addr⟩
  · exact ⟨h.inPool a (hmem a ha), fun q v => h.unmapped (hmem a ha) q v⟩
  · rw [hf] at hx
    rcases mem_append.mp (mem_of_mem_erase hx) with hx | hx
    · exact ht.locs.isSome _ _ (h.pages x hx)
    · rw [mem_singleton.mp hx]
      exact ht.here

/-- The page `v` of a process that is alive is mapped to a frame that nobody has. -/
theorem Sound.map {u : Nat} (hu : u % pgSize = 0) (hul : u < physBase)
    (ha : ∀ q, alive s' q = alive s q) (halive : alive s pid = true)
    (hm : ∀ q v, v % pgSize = 0 → mapAt s' q v = if q = pid ∧ v = u then some addr else mapAt s q v)
    (hf : s'.frames = s.frames) (hpool : addr ∈ pool) (hfree : addr ∉ s.frames.freePages)
    (hno : ∀ q v, ¬ Maps s q v addr)
    (hl : ∀ q w, (loc s' q w).isSome = (loc s q w).isSome) : Sound pool s' := by
  have hmaps : ∀ q v a, Maps s' q v a → (q = pid ∧ v = u ∧ a = addr) ∨ Maps s q v a := by
    rintro q v a ⟨hv, hvl, hva⟩
    rw [hm q v hv] at hva
    split at hva
    · rename_i hqv
      exact .inl ⟨hqv.1, hqv.2, (some.inj hva).symm⟩
    · exact .inr ⟨hv, hvl, hva⟩
  refine ⟨hf ▸ h.records, hf ▸ h.free, hf ▸ h.inPool, ?_, ?_, ?_, ?_⟩
  · intro q v a hq
    rw [hf]
    rcases hmaps q v a hq with ⟨-, -, rfl⟩ | hq
    · exact ⟨hpool, hfree⟩
    · exact h.used q v a hq
  · intro q v q' v' a hq hq'
    rcases hmaps q v a hq with ⟨rfl, rfl, rfl⟩ | hq
    · rcases hmaps q' v' a hq' with ⟨rfl, rfl, -⟩ | hq'
      · exact ⟨rfl, rfl⟩
      · exact absurd hq' (hno q' v')
    · rcases hmaps q' v' a hq' with ⟨-, -, rfl⟩ | hq'
      · exact absurd hq (hno q v)
      · exact h.inj q v q' v' a hq hq'
  · intro q v hv hdead
    rw [hm q v hv]
    rw [ha q] at hdead
    split
    · rename_i hqv
      rw [hqv.1, halive] at hdead
      cases hdead
    · exact h.dead q v hv hdead
  · intro r hr
    rw [hl]
    exact h.pages r (hf ▸ hr)

theorem Sound.exit_ok (hp : s.procs pid = some p) : ∃ s', processExit s pid = .ok s' :=
  processExit_ok hp (fun u v a hu hv => (h.inj pid u pid v a hu hv).2)
    (fun v a hv => (h.used pid v a hv).2)

end

theorem Exited.maps (h : Exited s pid s') {q v : Nat} : Maps s' q v a ↔ Maps s q v a ∧ q ≠ pid := by
  unfold Maps
  rw [h.mapAt]
  split
  · rename_i hq
    simp [hq]
  · rename_i hq
    simp [hq]

/-- An exit frees the frames that the process mapped, which nobody else does. -/
theorem Sound.exited (h : Sound pool s) (hx : Exited s pid s') : Sound pool s' := by
  obtain ⟨freed, hf, hn, hd, hmem⟩ := hx.frames
  have hfree : ∀ a, a ∈ s'.frames.freePages ↔ (∃ v, Maps s pid v a) ∨ a ∈ s.frames.freePages := by
    intro a
    rw [hf, mem_append, hmem]
  refine ⟨hf ▸ h.records.freePages _, ?_, ?_, ?_, ?_, ?_, ?_⟩
  · rw [hf]
    exact Nodup.append hn h.free fun a ha hb => hd a ha hb
  · intro a ha
    rcases (hfree a).mp ha with ⟨v, hv⟩ | ha
    · exact (h.used pid v a hv).1
    · exact h.inPool a ha
  · intro q v a hm
    obtain ⟨hm, hq⟩ := hx.maps.mp hm
    refine ⟨(h.used q v a hm).1, fun ha => ?_⟩
    rcases (hfree a).mp ha with ⟨w, hw⟩ | ha
    · exact hq (h.inj q v pid w a hm hw).1
    · exact (h.used q v a hm).2 ha
  · intro q v q' v' a hm hm'
    exact h.inj q v q' v' a (hx.maps.mp hm).1 (hx.maps.mp hm').1
  · intro q v hv ha
    rw [hx.mapAt]
    split
    · rfl
    · rename_i hq
      rw [hx.alive, if_neg hq] at ha
      exact h.dead q v hv ha
  · intro r hr
    rw [hx.loc]
    rw [hf] at hr
    exact h.pages r hr

/-- **The handler** keeps the state sound. -/
theorem Sound.broughtIn (h : Sound pool s) (hr : FaultRaised s p f c) (hp : s.procs pid = some p)
    (halive : p.alive = true) (hb : BroughtIn s pid p f c v s') : Sound pool s' := by
  have hfree : ∀ addr, c.page = some addr → addr ∈ s.frames.freePages := by
    intro addr hpage
    have hg := hr.page
    rwa [hpage] at hg
  cases hb with
  | noFrame => exact h
  | evicted head rest hw hpage hq hf hs hram hsome =>
    refine h.congr hs.grown (hf ▸ h.records.popped hq) (hf ▸ h.free) (fun a ha => ?_) (fun r hr => ?_)
    · rw [hf] at ha
      exact ⟨h.inPool a ha, fun q v => h.unmapped ha q v⟩
    · rw [hf] at hr
      refine hsome _ _ (h.pages r ?_)
      rw [hq]
      exact mem_cons_of_mem _ hr
  | @mapped _ s₁ addr ht hok hf ha hm hram hl hswap =>
    have hfr := hfree addr ht.page
    have ht1 : Taken s pid p f c addr { s₁ with frames := addedFrame s pid f c addr } :=
      ht.step ⟨fun _ => rfl, fun _ _ _ => rfl⟩ (fun _ _ => rfl) (KeepsLocs.of_eq fun _ _ => rfl)
    have hs1 : Sound pool { s₁ with frames := addedFrame s pid f c addr } := h.taken ht1 rfl
    have hal : alive { s₁ with frames := addedFrame s pid f c addr } pid = true := by
      rw [ht1.same.alive pid]
      simp [alive, hp, halive]
    refine hs1.map (upageOf_aligned f) (upageOf_lt hr.address) (fun q => ?_) hal (fun q v hv => ?_)
      hf (h.inPool addr hfr) h.free.not_mem_erase (fun q v => ?_) hl
    · exact (ha q).trans (ht.same.alive q).symm
    · rw [hm q v hv]
      split
      · rfl
      · exact (ht.same.mapAt q v hv).symm
    · intro hmaps
      exact h.unmapped hfr q v (ht.same.maps.mp hmaps)
  | removed addr r ht hok hpg hspt hget hf =>
    have hrec : Records (addedFrame s pid f c addr) := h.records.added ..
    exact h.givenBack (hfree addr ht.page) ht (hrec.mem_of_ftGet hget).1 hf
  | abandoned addr ht hok hspt hf => exact h.taken ht hf
  | stuck addr ht hok hget hf => exact h.taken ht hf

end Keep

/-! ## Steps -/

variable {segments : List (Nat × Page)} {stack : Option Nat}

theorem procs_of_alive (h : alive s pid = true) : ∃ p, s.procs pid = some p := by
  unfold alive at h
  cases hp : s.procs pid with
  | none =>
    rw [hp] at h
    cases h
  | some p => exact ⟨p, rfl⟩

theorem running_iff : s.running pid = some p ↔
    s.procs pid = some p ∧ p.alive = true ∧ p.hung = false := by
  unfold State.running
  rw [filter_eq_some_iff]
  simp

theorem alive_of_running (h : s.running pid = some p) : alive s pid = true := by
  obtain ⟨hp, ha, -⟩ := running_iff.mp h
  simp [alive, hp, ha]

theorem BroughtIn.alive (h : BroughtIn s pid p f c v s') (q : Nat) :
    alive s' q = Paging.alive s q := by
  cases h with
  | noFrame => rfl
  | evicted head rest hw hpage hq hf hs => exact hs.alive q
  | mapped addr ht hok hf ha => exact ha q
  | removed addr r ht => exact ht.same.alive q
  | abandoned addr ht => exact ht.same.alive q
  | stuck addr ht => exact ht.same.alive q

/-- **A fault** is what the handler comes to, and an exit if it fails. -/
theorem pageFault_cases (h : Sound pool s) (hrun : s.running pid = some p)
    (hr : FaultRaised s p f c) (hstep : pageFault s pid p f c = .ok s') :
    ∃ v s₁, BroughtIn s pid p f c v s₁ ∧
      (v = .failure ∧ Exited s₁ pid s' ∨ v ≠ .failure ∧ s' = s₁) := by
  obtain ⟨hp, -, -⟩ := running_iff.mp hrun
  obtain ⟨⟨v, s₁⟩, hb, hrest⟩ := bind_eq_ok.mp hstep
  have hbr := bringIn_cases h.records.swap hp hr hb
  refine ⟨v, s₁, hbr, ?_⟩
  by_cases hv : v = .failure
  · simp only [hv, if_true] at hrest
    obtain ⟨p1, hp1⟩ := procs_of_alive ((hbr.alive pid).trans (alive_of_running hrun))
    exact .inl ⟨hv, processExit_exited hp1 hrest⟩
  · simp only [hv, if_false] at hrest
    exact .inr ⟨hv, (Except.ok.inj hrest).symm⟩

/-- A process has begun to load, and nothing of it is mapped. -/
structure Born (s : State) (pid : Nat) (s' : State) : Prop where
  alive : ∀ q, Paging.alive s' q = if q = pid then true else Paging.alive s q
  mapAt : ∀ q v, Paging.mapAt s' q v = Paging.mapAt s q v
  locs : KeepsLocs s s'

theorem Born.grown (h : Born s pid s') : Grown s s' where
  alive q ha := by
    rw [h.alive]
    split
    · rfl
    · exact ha
  mapAt q v _ := h.mapAt q v

/-- **A start**: the process ends at once, its page, if it got one, being given back; or its stack is
    mapped. -/
inductive Started (s : State) (pid : Nat) : State → Prop where
  | failed {s₁ s'} (free : List Nat) (hb : Born s pid s₁)
      (hf : s₁.frames = { s.frames with freePages := free })
      (hperm : free.Perm s.frames.freePages)
      (hram : ∀ a, a ∉ s.frames.freePages → s₁.ram a = s.ram a) (hx : Exited s₁ pid s') :
      Started s pid s'
  | loaded {s₁ s'} (addr : Nat) (hb : Born s pid s₁) (hfree : addr ∈ s.frames.freePages)
      (hf₁ : s₁.frames = { s.frames with freePages := s.frames.freePages.erase addr })
      (hf : s'.frames = s₁.frames) (ha : ∀ q, alive s' q = alive s₁ q)
      (hm : ∀ q v, v % pgSize = 0 →
        mapAt s' q v = if q = pid ∧ v = stackUpage then some addr else mapAt s₁ q v)
      (hram : ∀ a, a ≠ addr → s'.ram a = s.ram a) (hl : ∀ q u, loc s' q u = loc s₁ q u) :
      Started s pid s'

/-- The state in which `load` begins. -/
def newborn (s : State) (pid : Nat) (segments : List (Nat × Page)) : State :=
  { s with procs := update s.procs pid (some (loading segments)) }

theorem newborn_procs (s : State) (pid : Nat) (segments : List (Nat × Page)) (q : Nat) :
    (newborn s pid segments).procs q = if q = pid then some (loading segments) else s.procs q := by
  by_cases hq : q = pid
  · rw [if_pos hq, hq]
    exact update_self ..
  · rw [if_neg hq]
    exact update_of_ne hq ..

theorem newborn_born (hnew : s.procs pid = none)
    (hseg : FromFile segments) : Born s pid (newborn s pid segments) where
  alive q := by
    unfold Paging.alive
    rw [newborn_procs]
    split
    · rfl
    · rfl
  mapAt q v := by
    unfold Paging.mapAt
    rw [newborn_procs]
    split
    · rename_i hq
      rw [hq, hnew]
      rfl
    · rfl
  locs := by
    have hloc : ∀ q u, loc (newborn s pid segments) q u =
        if q = pid then ((loading segments).spt u).map Page.pLoc else loc s q u := by
      intro q u
      unfold loc
      rw [newborn_procs]
      split
      · rfl
      · rfl
    have hnone : ∀ u, loc s pid u = none := by
      intro u
      unfold loc
      rw [hnew]
      rfl
    refine ⟨fun q u hs => ?_, fun q u => ?_⟩
    · rw [hloc]
      split
      · rename_i hq
        rw [hq, hnone] at hs
        cases hs
      · exact hs
    · rw [hloc]
      split
      · rename_i hq
        rw [hq, hnone]
        constructor
        · intro h
          obtain ⟨pg, hpg, hl⟩ := map_eq_some_iff.mp h
          obtain ⟨seg, hfind, rfl⟩ := map_eq_some_iff.mp hpg
          rw [(hseg seg (mem_of_find?_eq_some hfind)).1] at hl
          cases hl
        · nofun
      · rfl

/-- Every way in which `load` can end. -/
theorem start_cases {valid : Bool}
    {pageTable : Bool} (hnew : s.procs pid = none) (hseg : FromFile segments)
    (hg : Grants s.frames.freePages stack)
    (hstep : start s pid segments valid stack pageTable = .ok s') : Started s pid s' := by
  have hb := newborn_born hnew hseg
  have hp : (newborn s pid segments).procs pid = some (loading segments) := by
    rw [newborn_procs, if_pos rfl]
  unfold start at hstep
  cases hst : (if valid then stack else none) with
  | none =>
    simp only [hst] at hstep
    exact .failed s.frames.freePages hb rfl (Perm.refl _) (fun _ _ => rfl)
      (processExit_exited hp hstep)
  | some addr =>
    have hfree : addr ∈ s.frames.freePages := by
      cases valid with
      | false => cases hst
      | true =>
        have hst' : stack = some addr := hst
        rwa [hst'] at hg
    have hperm : (addr :: s.frames.freePages.erase addr).Perm s.frames.freePages :=
      (perm_cons_erase hfree).symm
    -- the state with the page of the stack taken
    have hb1 : Born s pid { newborn s pid segments with
        frames := { s.frames with freePages := s.frames.freePages.erase addr }
        ram := update s.ram addr fun _ => 0 } :=
      ⟨hb.alive, hb.mapAt, hb.locs.trans (KeepsLocs.of_eq fun _ _ => rfl)⟩
    have hram : ∀ a, a ≠ addr → update s.ram addr (fun _ => 0) a = s.ram a :=
      fun a ha => update_of_ne ha ..
    simp only [hst] at hstep
    cases hi : installPage (loading segments).pagedir stackUpage addr true pageTable with
    | none =>
      simp only [hi] at hstep
      obtain ⟨t, ht, hx⟩ := bind_eq_ok.mp hstep
      unfold pallocFreePage at ht
      split at ht
      · cases ht
      cases ht
      refine .failed (addr :: s.frames.freePages.erase addr) ?_ rfl hperm (fun a ha => ?_)
        (processExit_exited (p := loading segments) (by exact hp) hx)
      · exact ⟨hb.alive, hb.mapAt, hb.locs.trans (KeepsLocs.of_eq fun _ _ => rfl)⟩
      · refine hram a fun h => ha ?_
        rwa [h]
    | some pd =>
      simp only [hi] at hstep
      cases hstep
      have hset : pagedirSetPage (loading segments).pagedir stackUpage addr true pageTable =
          some pd := hi
      refine .loaded addr hb1 hfree rfl rfl (fun q => ?_) (fun q v hv => ?_) hram (fun q u => ?_)
      · exact alive_setPagedir ..
      · exact mapAt_setPagedir hp (by decide) hset q hv
      · exact loc_setPagedir ..

/-- A process that loads has nothing mapped, whatever pages have been taken for it. -/
theorem Sound.born (h : Sound pool s) (hb : Born s pid s') {free : List Nat}
    (hf : s'.frames = { s.frames with freePages := free }) (hn : free.Nodup)
    (hsub : ∀ a ∈ free, a ∈ s.frames.freePages) : Sound pool s' := by
  refine h.congr hb.grown (hf ▸ h.records.freePages free) ?_ (fun a ha => ?_) (fun r hr => ?_)
  · rwa [hf]
  · rw [hf] at ha
    exact ⟨h.inPool a (hsub a ha), fun q v => h.unmapped (hsub a ha) q v⟩
  · rw [hf] at hr
    exact hb.locs.isSome _ _ (h.pages r hr)

theorem Sound.started (h : Sound pool s) (hs : Started s pid s') : Sound pool s' := by
  cases hs with
  | failed free hb hf hperm hram hx =>
    have h1 := h.born hb hf (hperm.nodup_iff.mpr h.free) fun a => hperm.mem_iff.mp
    exact h1.exited hx
  | loaded addr hb hfree hf1 hf ha hm hram hl =>
    have h1 := h.born hb hf1 (h.free.erase addr) fun a => mem_of_mem_erase
    have hal : alive _ pid = true := (hb.alive pid).trans (if_pos rfl)
    refine h1.map (by decide) (by decide) ha hal hm hf (h.inPool addr hfree) ?_ (fun q v hq => ?_)
      (fun q u => by rw [hl])
    · rw [hf1]
      exact h.free.not_mem_erase
    · exact h.unmapped hfree q v (hb.grown.maps.mp hq)

theorem store_same (s : State) (p : Proc) (va byte : Nat) :
    Same s (store s p va byte) ∧ (store s p va byte).frames = s.frames ∧
      ∀ q u, loc (store s p va byte) q u = loc s q u := by
  unfold store
  split
  · exact ⟨Same.refl s, rfl, fun _ _ => rfl⟩
  · exact ⟨⟨fun _ => rfl, fun _ _ _ => rfl⟩, rfl, fun _ _ => rfl⟩

theorem Sound.store (h : Sound pool s) (p : Proc) (va byte : Nat) :
    Sound pool (store s p va byte) := by
  obtain ⟨hs, hf, hl⟩ := store_same s p va byte
  refine h.congr hs.grown (hf ▸ h.records) (hf ▸ h.free) (fun a ha => ?_) (fun r hr => ?_)
  · rw [hf] at ha
    exact ⟨h.inPool a ha, fun q v => h.unmapped ha q v⟩
  · rw [hl]
    exact h.pages r (hf ▸ hr)

/-- **What a step does**, action by action: every invariant is shown from these four cases. -/
inductive Stepped (s : State) : Act → State → Prop where
  | start {pid : Nat} {segments valid stack pageTable s'} (hnew : s.procs pid = none)
      (hs : Started s pid s') : Stepped s (.start pid segments valid stack pageTable) s'
  | fault {pid : Nat} {f c p v s₁ s'} (hrun : s.running pid = some p) (hr : FaultRaised s p f c)
      (hb : BroughtIn s pid p f c v s₁)
      (hcase : v = .failure ∧ Exited s₁ pid s' ∨ v ≠ .failure ∧ s' = s₁) :
      Stepped s (.fault pid f c) s'
  | store {pid va byte : Nat} {p} (hp : s.procs pid = some p) (hva : canStore p va = true) :
      Stepped s (.store pid va byte) (store s p va byte)
  | exit {pid : Nat} {s'} (hx : Exited s pid s') : Stepped s (.exit pid) s'

theorem step_cases (h : Sound pool s) {a : Act} (he : Possible s a) (hs : step s a = .ok s') :
    Stepped s a s' := by
  cases a with
  | start =>
    obtain ⟨hnew, hg, hseg⟩ := he
    have hnew' := isNone_iff_eq_none.mp hnew
    exact .start hnew' (start_cases hnew' hseg hg hs)
  | fault =>
    obtain ⟨p, hrun, hr⟩ := he
    simp only [step, (running_iff.mp hrun).1] at hs
    obtain ⟨v, s₁, hb, hcase⟩ := pageFault_cases h hrun hr hs
    exact .fault hrun hr hb hcase
  | store =>
    obtain ⟨p, hrun, hva⟩ := he
    have hp := (running_iff.mp hrun).1
    simp only [step, hp] at hs
    cases hs
    exact .store hp hva
  | exit =>
    obtain ⟨p, hrun⟩ := he
    exact .exit (processExit_exited (running_iff.mp hrun).1 hs)

/-- **The step lemma.** -/
theorem sound_step (h : Sound pool s) {a : Act} (he : Possible s a) (hs : step s a = .ok s') :
    Sound pool s' := by
  cases step_cases h he hs with
  | start _ hs => exact h.started hs
  | fault hrun hr hb hcase =>
    obtain ⟨hp, halive, -⟩ := running_iff.mp hrun
    have h1 := h.broughtIn hr hp halive hb
    rcases hcase with ⟨-, hx⟩ | ⟨-, rfl⟩
    · exact h1.exited hx
    · exact h1
  | store => exact h.store ..
  | exit hx => exact h.exited hx

/-- **The run lemma.** -/
theorem sound_run {base n : Nat} {ram : Nat → Nat → Nat} {tr : List (State × Act)}
    (h : machine.Run (State.start base n ram) tr s) : Sound (userPool base n) s := by
  refine h.invariant (I := Sound (userPool base n)) (sound_start base n ram) ?_
  intro s a s' hs he hstep
  exact sound_step hs he hstep

/-! ## Nothing is freed twice -/

section Free

variable {upage : Nat}

/-- It is not a page that is free which is freed. -/
def NotTwice (stop : Frames.Stop) : Prop := ∀ a, stop ≠ .freeTwice a

/-- `ft_add` frees nothing. -/
theorem withFrame_stops (hb : s.frames.swap = Swap.boot) {k : Nat → State → Handled}
    (hk : ∀ addr, c.page = some addr → Stops NotTwice
      (k addr { s with frames := added s.frames pid upage addr c.toChoice })) :
    Stops NotTwice (withFrame s pid upage c k) := by
  unfold withFrame
  cases hadd : Frames.ftAdd s.frames pid upage c.toChoice with
  | ok =>
    obtain ⟨-, addr, hp, rfl⟩ := ftAdd_eq_ok.mp hadd
    exact hk addr hp
  | error =>
    dsimp only
    cases hp : c.page with
    | some =>
      rw [ftAdd_panics hp hadd]
      apply error
      intro a ha
      cases ha
    | none =>
      obtain ⟨left', hl, hcases⟩ := ftEvict_error pid c.toChoice s.frames
      rw [ftAdd_evicts hp hl] at hadd
      cases hadd
      rcases hcases with ⟨-, -, hstop⟩ | ⟨head, rest, -, -, -, hvic, hh, hstop, hw⟩
      · rw [hstop]
        apply error
        intro a ha
        cases ha
      · rw [hb] at hw
        cases hw
        rw [hstop, hvic]
        apply ok

theorem giveBack_stops (ha : addr ∉ s.frames.freePages) :
    Stops NotTwice (giveBack s pid upage addr c) := by
  unfold giveBack
  cases hrem : Frames.ftRemove s.frames addr c.stale c.bucketMemory with
  | ok => apply ok
  | error stop =>
    -- the page that is given back has just been taken
    obtain rfl := ftRemove_error ha hrem
    apply ok

theorem install_stops (ha : addr ∉ s.frames.freePages) (pg : Page) :
    Stops NotTwice (install s pid p upage addr pg c) := by
  unfold install
  split
  · apply ok
  · refine bind (giveBack_stops ha) fun r _ => ?_
    apply Stops.pure

theorem bringIn_stops (h : Sound pool s) (f : PageFault) : Stops NotTwice (bringIn s pid p f c) := by
  have hfresh : ∀ u addr, addr ∉ (added s.frames pid u addr c.toChoice).freePages :=
    fun _ _ => h.free.not_mem_erase
  unfold bringIn
  split
  · refine withFrame_stops h.records.swap fun addr _ => ?_
    split
    · refine ite (fun _ => install_stops ?_ _) (fun _ => giveBack_stops ?_)
      · exact hfresh _ addr
      · exact hfresh _ addr
    · exact install_stops (hfresh _ addr) _
    · rw [readSwap_boot]
      · apply ok
      · exact h.records.swap
  · refine ite (fun _ => ?_) (fun _ => ok _)
    refine ite (fun _ => ?_) (fun _ => ok _)
    refine withFrame_stops (s := s.spCreate pid _) h.records.swap fun addr _ => ?_
    split
    · apply ok
    · apply ok

theorem start_stops (h : Sound pool s) (hnew : s.procs pid = none)
    (hseg : FromFile segments) (valid : Bool)
    (hg : Grants s.frames.freePages stack) (pageTable : Bool) :
    Stops NotTwice (start s pid segments valid stack pageTable) := by
  have hb := newborn_born hnew hseg
  have hp : (newborn s pid segments).procs pid = some (loading segments) := by
    rw [newborn_procs, if_pos rfl]
  -- the process ends, with a page taken for its stack or not
  have hexit : ∀ s₁ free, Born s pid s₁ → s₁.procs pid = some (loading segments) →
      s₁.frames = { s.frames with freePages := free } → free.Nodup →
      (∀ a ∈ free, a ∈ s.frames.freePages) → Stops NotTwice (processExit s₁ pid) := by
    intro s₁ free hb1 hp1 hf hn hsub
    obtain ⟨s', hx⟩ := (h.born hb1 hf hn hsub).exit_ok hp1
    rw [hx]
    apply ok
  unfold start
  cases hst : (if valid then stack else none) with
  | none => exact hexit (newborn s pid segments) _ hb hp rfl h.free fun a ha => ha
  | some addr =>
    have hfree : addr ∈ s.frames.freePages := by
      cases valid with
      | false => cases hst
      | true =>
        have hst' : stack = some addr := hst
        rwa [hst'] at hg
    dsimp only
    split
    · apply ok
    have hout : addr ∉ s.frames.freePages.erase addr := h.free.not_mem_erase
    refine bind ?_ fun t ht => ?_
    · rw [pallocFreePage, if_neg hout]
      apply ok
    rw [pallocFreePage, if_neg hout] at ht
    cases ht
    refine hexit _ (addr :: s.frames.freePages.erase addr) ?_ hp rfl
      (nodup_cons.mpr ⟨hout, h.free.erase addr⟩) fun a ha => ?_
    · exact ⟨hb.alive, hb.mapAt, hb.locs.trans (KeepsLocs.of_eq fun _ _ => rfl)⟩
    · rcases mem_cons.mp ha with rfl | ha
      · exact hfree
      · exact mem_of_mem_erase ha

/-- **No page is freed twice.** -/
theorem Sound.not_twice (h : Sound pool s) {a : Act} (he : Possible s a) :
    Stops NotTwice (step s a) := by
  cases a with
  | start pid segments valid stack pageTable =>
    obtain ⟨hnew, hg, hseg⟩ := he
    exact start_stops h (isNone_iff_eq_none.mp hnew) hseg valid hg pageTable
  | fault pid f =>
    obtain ⟨p, hrun, hr⟩ := he
    obtain ⟨hp, halive, -⟩ := running_iff.mp hrun
    simp only [step, hp]
    refine bind (bringIn_stops h f) fun r hb => ?_
    have hbr := bringIn_cases h.records.swap hp hr hb
    refine ite (fun _ => ?_) (fun _ => pure _)
    obtain ⟨p1, hp1⟩ := procs_of_alive ((hbr.alive pid).trans (alive_of_running hrun))
    obtain ⟨s', hx⟩ := (h.broughtIn hr hp halive hbr).exit_ok hp1
    rw [hx]
    apply ok
  | store =>
    obtain ⟨p, hrun, -⟩ := he
    simp only [step, (running_iff.mp hrun).1]
    apply ok
  | exit =>
    obtain ⟨p, hrun⟩ := he
    obtain ⟨s', hx⟩ := h.exit_ok (running_iff.mp hrun).1
    simp only [step, hx]
    apply ok

end Free

end Pintos.Vm.Paging
