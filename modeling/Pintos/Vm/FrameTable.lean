/-
  The frame table over whole runs.

  In step with the page directories and the allocator, `ft` and `lru_queue` would hold the same
  records, no two of one frame, and the owner of each would be alive and have the frame mapped.

  1. **What breaks it** — an EXIT, because `process_exit` frees the frames and leaves the records; a
     fault at a user address that some record of `ft` has; an EVICTION, because `ft_evict` takes the
     record off the queue and hangs; and a page-in that fails, unless the probe of `ft_get` happens to
     find the new record (`Kept` is the rest).

  2. **The theorem** (`frame_table_in_step`) — the invariant holds in every run whose steps meet that
     condition, and the first step that does not meet it breaks the invariant.
-/
import Pintos.Vm.Soundness

namespace Pintos.Vm.Paging

open Base Lib Userprog Vm.Frames

/-- **The invariant of the frame table.** -/
structure InStep (pool : List Nat) (s : State) : Prop where
  same : ∀ r, r ∈ s.frames.ft.elems ↔ r ∈ s.frames.lruQueue
  addrs : ∀ r ∈ s.frames.ft.elems, ∀ r' ∈ s.frames.ft.elems, r.addr = r'.addr → r = r'
  inUse : ∀ r ∈ s.frames.ft.elems, r.addr ∈ pool ∧ r.addr ∉ s.frames.freePages
  mapped : ∀ r ∈ s.frames.ft.elems, Maps s r.owner r.upage r.addr
  owner : ∀ r ∈ s.frames.ft.elems, alive s r.owner = true
  free : ∀ a, Possible s a → ∀ x, step s a ≠ .error (.freeTwice x)

/-- The process has no record in the table. -/
def OwnsNone (s : State) (pid : Nat) : Prop := ∀ r ∈ s.frames.ft.elems, r.owner ≠ pid

/-- A fault that keeps the table in step: it ends a process that has no records, or it gets a frame
    for a user address that no record has, and brings the page in; or fails to, finds the new record
    by chance, and ends a process that has no other. -/
def FaultKept (s : State) (pid : Nat) (p : Proc) (f : PageFault) (c : FaultChoice) : Prop :=
  (wantsFrame p f c = false ∧ OwnsNone s pid) ∨
  (wantsFrame p f c = true ∧ c.page ≠ none ∧ (∀ r ∈ s.frames.ft.elems, r.upage ≠ upageOf f) ∧
    (PageInOk p f c ∨
      p.spt (upageOf f) ≠ none ∧ (∀ pg, p.spt (upageOf f) = some pg → pg.pLoc ≠ .swap) ∧
        c.stale = some (upageOf f) ∧ OwnsNone s pid))

/-- **The condition** on a step. -/
def Kept (s : State) : Act → Prop
  | .start .. => True
  | .fault pid f c => ∀ p, s.running pid = some p → FaultKept s pid p f c
  | .store .. => True
  | .exit pid => OwnsNone s pid

/-! ## The core of the invariant -/

/-- The rest of the invariant follows from this, in a sound state. -/
structure Core (s : State) : Prop where
  same : ∀ r, r ∈ s.frames.ft.elems ↔ r ∈ s.frames.lruQueue
  mapped : ∀ r ∈ s.frames.ft.elems, Maps s r.owner r.upage r.addr

section

variable {pool : List Nat} {s s' s₁ : State} {pid addr : Nat} {p : Proc} {f : PageFault}
  {c : FaultChoice} {r : Record}

theorem alive_of_maps (h : Sound pool s) {q v a : Nat} (hm : Maps s q v a) : alive s q = true := by
  cases ha : alive s q with
  | true => rfl
  | false =>
    obtain ⟨hv, -, hva⟩ := hm
    rw [h.dead q v hv ha] at hva
    cases hva

theorem inStep_iff (h : Sound pool s) : InStep pool s ↔ Core s := by
  constructor
  · intro hi
    exact ⟨hi.same, hi.mapped⟩
  · intro hc
    refine ⟨hc.same, fun r hr r' hr' ha => ?_, fun r hr => ?_, hc.mapped, fun r hr => ?_, ?_⟩
    · have hm := hc.mapped r hr
      rw [ha] at hm
      obtain ⟨-, hu⟩ := h.inj _ _ _ _ _ hm (hc.mapped r' hr')
      exact h.records.wf.eq_of_key hr hr' hu
    · exact h.used _ _ _ (hc.mapped r hr)
    · exact alive_of_maps h (hc.mapped r hr)
    · intro a he x hx
      exact h.not_twice he _ hx x rfl

/-! ## Steps that touch no record -/

theorem Core.congr (hc : Core s) (hft : s'.frames.ft = s.frames.ft)
    (hlru : s'.frames.lruQueue = s.frames.lruQueue)
    (hm : ∀ r ∈ s.frames.ft.elems, Maps s' r.owner r.upage r.addr) : Core s' where
  same r := by
    rw [hft, hlru]
    exact hc.same r
  mapped r hr := hm r (hft ▸ hr)

/-- **An exit** keeps the table in step exactly if the process has no records. -/
theorem core_exited (hc : Core s) (hx : Exited s pid s') : Core s' ↔ OwnsNone s pid := by
  obtain ⟨freed, hf, -⟩ := hx.frames
  have hft : s'.frames.ft = s.frames.ft := by rw [hf]
  have hlru : s'.frames.lruQueue = s.frames.lruQueue := by rw [hf]
  constructor
  · intro hc' r hr howner
    have hm := hc'.mapped r (hft ▸ hr)
    exact (hx.maps.mp hm).2 howner
  · intro hno
    exact hc.congr hft hlru fun r hr => hx.maps.mpr ⟨hc.mapped r hr, hno r hr⟩

theorem core_started (h : Sound pool s) (hc : Core s) (hnew : s.procs pid = none)
    (hs : Started s pid s') : Core s' := by
  have hother : ∀ r ∈ s.frames.ft.elems, r.owner ≠ pid := by
    intro r hr howner
    have ha := alive_of_maps h (hc.mapped r hr)
    rw [howner] at ha
    simp [alive, hnew] at ha
  cases hs with
  | failed free hb hf hperm hram hx =>
    have hc1 := hc.congr (by rw [hf]) (by rw [hf]) fun r hr => hb.grown.maps.mpr (hc.mapped r hr)
    refine (core_exited hc1 hx).mpr fun r hr => hother r ?_
    rwa [hf] at hr
  | loaded addr hb hfree hf1 hf ha hm =>
    refine hc.congr (by rw [hf, hf1]) (by rw [hf, hf1]) fun r hr => ?_
    obtain ⟨hv, hu, hva⟩ := hc.mapped r hr
    refine ⟨hv, hu, ?_⟩
    rwa [hm _ _ hv, if_neg fun hq => hother r hr hq.1, hb.mapAt]

/-! ## Faults -/

/-- The record of the frame that a fault takes. -/
def newRecord (s : State) (pid : Nat) (f : PageFault) (addr : Nat) : Record :=
  newFrame s.frames pid (upageOf f) addr

theorem newRecord_not_mem (h : Sound pool s) (pid : Nat) (f : PageFault) (addr : Nat) :
    newRecord s pid f addr ∉ s.frames.ft.elems := by
  intro hm
  have hid : s.frames.nextId < s.frames.nextId := h.records.ids _ (.inl hm)
  exact Nat.lt_irrefl _ hid

/-- No record has the user address: the new one is inserted. -/
theorem mem_added_of_free (h : Sound pool s) (hno : ∀ r ∈ s.frames.ft.elems, r.upage ≠ upageOf f)
    (addr : Nat) (x : Record) : x ∈ (addedFrame s pid f c addr).ft.elems ↔
      x = newRecord s pid f addr ∨ x ∈ s.frames.ft.elems :=
  (h.records.added_new hno).mem_iff.trans List.mem_cons

theorem mem_added_lru (addr : Nat) (x : Record) :
    x ∈ (addedFrame s pid f c addr).lruQueue ↔ x ∈ s.frames.lruQueue ∨ x = newRecord s pid f addr := by
  show x ∈ s.frames.lruQueue ++ [newRecord s pid f addr] ↔ _
  rw [List.mem_append, List.mem_singleton]

theorem free_of_mem_added (h : Sound pool s)
    (hm : newRecord s pid f addr ∈ (addedFrame s pid f c addr).ft.elems) :
    ∀ r ∈ s.frames.ft.elems, r.upage ≠ upageOf f := by
  intro r hr hu
  exact newRecord_not_mem h pid f addr ((h.records.added_old hr hu).mem_iff.mp hm)

/-- The frame was taken, and the page is not mapped afterwards. -/
theorem not_core_of_taken (hlru : newRecord s pid f addr ∈ s'.frames.lruQueue)
    (hm : mapAt s' pid (upageOf f) = none) : ¬ Core s' := by
  intro hc
  obtain ⟨-, -, hva⟩ := hc.mapped _ ((hc.same _).mpr hlru)
  have hva' : mapAt s' pid (upageOf f) = some addr := hva
  rw [hm] at hva'
  cases hva'

theorem not_core_of_exited (hlru : newRecord s pid f addr ∈ s₁.frames.lruQueue)
    (hx : Exited s₁ pid s') : ¬ Core s' := by
  obtain ⟨freed, hf, -⟩ := hx.frames
  have hlru' : newRecord s pid f addr ∈ s'.frames.lruQueue := by
    rwa [hf]
  refine not_core_of_taken hlru' ?_
  rw [hx.mapAt, if_pos rfl]

section

variable (h : Sound pool s)
include h

/-- **The page is mapped**: in step exactly if no record had the user address. -/
theorem core_mapped (hc : Core s) (hr : FaultRaised s p f c)
    (hf : s'.frames = addedFrame s pid f c addr) (hm : ∀ q v, v % pgSize = 0 →
      mapAt s' q v = if q = pid ∧ v = upageOf f then some addr else mapAt s q v) :
    Core s' ↔ ∀ r ∈ s.frames.ft.elems, r.upage ≠ upageOf f := by
  constructor
  · intro hc'
    have hlru : newRecord s pid f addr ∈ s'.frames.lruQueue := by
      rw [hf]
      exact (mem_added_lru addr _).mpr (.inr rfl)
    have hft := (hc'.same _).mpr hlru
    rw [hf] at hft
    exact free_of_mem_added h hft
  · intro hno
    refine ⟨fun r => ?_, fun r hr' => ?_⟩
    · rw [hf, mem_added_of_free h hno, mem_added_lru, hc.same, or_comm]
    rw [hf] at hr'
    rcases (mem_added_of_free h hno addr r).mp hr' with rfl | hold
    · refine ⟨upageOf_aligned f, upageOf_lt hr.address, ?_⟩
      show mapAt s' pid (upageOf f) = some addr
      rw [hm _ _ (upageOf_aligned f), if_pos ⟨rfl, rfl⟩]
    · obtain ⟨hv, hu, hva⟩ := hc.mapped r hold
      refine ⟨hv, hu, ?_⟩
      rwa [hm _ _ hv, if_neg fun hq => hno r hold hq.2]

/-- What `ft_get` finds, if no record had the user address and the probe has it: the new record. -/
theorem found_new (hno : ∀ r ∈ s.frames.ft.elems, r.upage ≠ upageOf f)
    (hst : c.stale = some (upageOf f)) (addr : Nat) :
    ftGet (addedFrame s pid f c addr) addr c.stale = .ok (some (newRecord s pid f addr)) := by
  have hrec : Records (addedFrame s pid f c addr) := h.records.added ..
  rw [hst]
  refine congrArg Except.ok ((Hash.hashFind_eq_some ftFns_keyed hrec.wf).mpr ⟨?_, rfl⟩)
  exact (mem_added_of_free h hno addr _).mpr (.inl rfl)

/-- **The frame is given back** and the process ends: in step exactly if the record removed is the new
    one, and the process has no other. -/
theorem core_removed (hc : Core s) (ht : Taken s pid p f c addr s₁)
    (hget : ftGet (addedFrame s pid f c addr) addr c.stale = .ok (some r))
    (hf : s₁.frames = removedFrame (addedFrame s pid f c addr) c addr r) (hx : Exited s₁ pid s') :
    Core s' ↔ (∀ r ∈ s.frames.ft.elems, r.upage ≠ upageOf f) ∧ c.stale = some (upageOf f) ∧
      OwnsNone s pid := by
  have hrec : Records (addedFrame s pid f c addr) := h.records.added ..
  obtain ⟨hmem, hst⟩ := hrec.mem_of_ftGet hget
  have hlru : ∀ x, x ∈ s₁.frames.lruQueue ↔
      (x ∈ s.frames.lruQueue ∨ x = newRecord s pid f addr) ∧ x ≠ r := by
    intro x
    rw [hf, ← mem_added_lru (c := c)]
    show x ∈ (addedFrame s pid f c addr).lruQueue.erase r ↔ _
    rw [hrec.lru.mem_erase_iff]
    exact And.comm
  by_cases hrn : r = newRecord s pid f addr
  · rw [hrn] at hmem hst
    have hno := free_of_mem_added h hmem
    have hst' : c.stale = some (upageOf f) := hst
    have hft : ∀ x, x ∈ s₁.frames.ft.elems ↔ x ∈ s.frames.ft.elems := by
      intro x
      rw [hf, hrn]
      show x ∈ ((addedFrame s pid f c addr).ft.hashDelete ftFns c.bucketMemory _).2.elems ↔ _
      rw [Hash.mem_hashDelete ftFns_keyed hrec.wf c.bucketMemory hmem, mem_added_of_free h hno]
      constructor
      · rintro ⟨hx | hx, hne⟩
        · exact absurd hx hne
        · exact hx
      · intro hx
        refine ⟨.inr hx, fun hxn => ?_⟩
        rw [hxn] at hx
        exact newRecord_not_mem h pid f addr hx
    have hc1 : Core s₁ := by
      refine ⟨fun x => ?_, fun x hx => ?_⟩
      · rw [hft, hlru, hc.same, hrn]
        constructor
        · intro hx
          refine ⟨.inl hx, fun hxn => ?_⟩
          rw [hxn] at hx
          exact newRecord_not_mem h pid f addr ((hc.same _).mpr hx)
        · rintro ⟨hx | hx, hne⟩
          · exact hx
          · exact absurd hx hne
      · exact ht.same.maps.mpr (hc.mapped x ((hft x).mp hx))
    rw [core_exited hc1 hx]
    constructor
    · intro hown
      exact ⟨hno, hst', fun x hx => hown x ((hft x).mpr hx)⟩
    · rintro ⟨-, -, hown⟩ x hx
      exact hown x ((hft x).mp hx)
  · constructor
    · -- the new record has lost its frame and its owner
      intro hc'
      have hl : newRecord s pid f addr ∈ s₁.frames.lruQueue :=
        (hlru _).mpr ⟨.inr rfl, fun h => hrn h.symm⟩
      exact absurd hc' (not_core_of_exited hl hx)
    · rintro ⟨hno, hst', -⟩
      rw [found_new h hno hst' addr] at hget
      exact absurd (Option.some.inj (Except.ok.inj hget)).symm hrn

/-- **A fault** keeps the table in step exactly if it meets the condition. -/
theorem core_fault (hc : Core s) (hrun : s.running pid = some p)
    (hr : FaultRaised s p f c) {v : Verdict} (hb : BroughtIn s pid p f c v s₁)
    (hcase : v = .failure ∧ Exited s₁ pid s' ∨ v ≠ .failure ∧ s' = s₁) :
    Core s' ↔ FaultKept s pid p f c := by
  have habs : mapAt s pid (upageOf f) = none :=
    (mapAt_self (running_iff.mp hrun).1 _).trans (absent_upage hr.absent)
  cases hb with
  | noFrame hw =>
    obtain ⟨-, hx⟩ | ⟨hv, -⟩ := hcase
    · rw [core_exited hc hx]
      simp [FaultKept, hw]
    · exact absurd rfl hv
  | evicted head rest hw hpage hq hf =>
    obtain ⟨hv, -⟩ | ⟨-, rfl⟩ := hcase
    · cases hv
    -- the oldest record is in the table and no longer in the queue
    have hhead : head ∈ s.frames.ft.elems := by
      refine (hc.same head).mpr ?_
      rw [hq]
      exact List.mem_cons_self
    have hnot : head ∉ rest := (List.nodup_cons.mp (hq ▸ h.records.lru)).1
    constructor
    · intro hc'
      have hm := hc'.same head
      rw [hf] at hm
      exact absurd (hm.mp hhead) hnot
    · intro hk
      simp [FaultKept, hw, hpage] at hk
  | mapped addr ht hok hf ha hm =>
    obtain ⟨hv, -⟩ | ⟨-, rfl⟩ := hcase
    · cases hv
    · rw [core_mapped h hc hr hf hm]
      simp [FaultKept, ht.wants, ht.page, hok]
  | removed addr r ht hok hpg hspt hget hf =>
    obtain ⟨-, hx⟩ | ⟨hv, -⟩ := hcase
    · rw [core_removed h hc ht hget hf hx]
      constructor
      · rintro ⟨hno, hst, hown⟩
        refine .inr ⟨ht.wants, ?_, hno, .inr ⟨hspt, hpg, hst, hown⟩⟩
        rw [ht.page]
        exact Option.some_ne_none addr
      · rintro (⟨hw, -⟩ | ⟨-, -, hno, hok' | ⟨-, -, hst, hown⟩⟩)
        · rw [ht.wants] at hw
          cases hw
        · exact absurd hok' hok
        · exact ⟨hno, hst, hown⟩
    · exact absurd rfl hv
  | abandoned addr ht hok hspt hf =>
    obtain ⟨-, hx⟩ | ⟨hv, -⟩ := hcase
    · have hlru : newRecord s pid f addr ∈ s₁.frames.lruQueue := by
        rw [hf]
        exact (mem_added_lru addr _).mpr (.inr rfl)
      constructor
      · intro hc'
        exact absurd hc' (not_core_of_exited hlru hx)
      · rintro (⟨hw, -⟩ | ⟨-, -, -, hok' | ⟨hspt', -⟩⟩)
        · rw [ht.wants] at hw
          cases hw
        · exact absurd hok' hok
        · exact absurd hspt hspt'
    · exact absurd rfl hv
  | stuck addr ht hok hget hf =>
    obtain ⟨hv, -⟩ | ⟨-, rfl⟩ := hcase
    · cases hv
    have hlru : newRecord s pid f addr ∈ s'.frames.lruQueue := by
      rw [hf]
      exact (mem_added_lru addr _).mpr (.inr rfl)
    constructor
    · intro hc'
      refine absurd hc' (not_core_of_taken hlru ?_)
      rwa [ht.same.mapAt _ _ (upageOf_aligned f)]
    · rintro (⟨hw, -⟩ | ⟨-, -, hno, hok' | ⟨-, hpg, hst, -⟩⟩)
      · rw [ht.wants] at hw
        cases hw
      · exact absurd hok' hok
      · rcases hget with ⟨pg, hspt, hloc⟩ | hget
        · exact absurd hloc (hpg pg hspt)
        · exact absurd (found_new h hno hst addr) (hget _)

/-- **The step lemma**: a step keeps the table in step if it meets the condition, and only then. -/
theorem core_step (hc : Core s) {a : Act} (he : Possible s a)
    (hs : step s a = .ok s') : Core s' ↔ Kept s a := by
  cases step_cases h he hs with
  | start hnew hs => exact ⟨fun _ => trivial, fun _ => core_started h hc hnew hs⟩
  | fault hrun hr hb hcase =>
    rw [core_fault h hc hrun hr hb hcase]
    constructor
    · intro hk p' hrun'
      rw [hrun] at hrun'
      cases hrun'
      exact hk
    · intro hk
      exact hk _ hrun
  | store =>
    obtain ⟨hsame, hf, -⟩ := store_same ..
    refine ⟨fun _ => trivial, fun _ => hc.congr (by rw [hf]) (by rw [hf]) fun r hr => ?_⟩
    exact hsame.maps.mpr (hc.mapped r hr)
  | exit hx => exact core_exited hc hx

end

end

theorem core_run {base n : Nat} {ram : Nat → Nat → Nat} {tr : List (State × Act)} {s : State}
    (h : (machine.guard Kept).Run (State.start base n ram) tr s) : Core s := by
  refine h.history (J := fun _ s => Core s) ?_ ?_
  · refine ⟨fun r => ?_, fun r hr => ?_⟩
    · simp [State.start, Table.start]
    · simp [State.start, Table.start] at hr
  · intro tr s a s' hr hc he hs
    exact (core_step (sound_run hr.of_guard) hc he.1 hs).mpr he.2

/-- **The frame table is in step** with the page directories and the allocator in every run whose
    steps meet the condition; and a step that does not meet it leaves the table out of step. -/
theorem frame_table_in_step (base n : Nat) (ram : Nat → Nat → Nat) {tr : List (State × Act)}
    {s : State} (h : (machine.guard Kept).Run (State.start base n ram) tr s) :
    InStep (userPool base n) s ∧
    ∀ a s', Possible s a → step s a = .ok s' → (InStep (userPool base n) s' ↔ Kept s a) := by
  have hs := sound_run h.of_guard
  refine ⟨(inStep_iff hs).mpr (core_run h), fun a s' he hstep => ?_⟩
  rw [inStep_iff (sound_step hs he hstep)]
  exact core_step hs (core_run h) he hstep

instance (s : State) (pid : Nat) : Decidable (OwnsNone s pid) := by
  unfold OwnsNone; infer_instance

instance (p : Proc) (f : PageFault) (c : FaultChoice) : Decidable (PageInOk p f c) := by
  unfold PageInOk; infer_instance

instance (s : State) (pid : Nat) (p : Proc) (f : PageFault) (c : FaultChoice) :
    Decidable (FaultKept s pid p f c) := by
  unfold FaultKept; infer_instance

instance (s : State) (a : Act) : Decidable (Kept s a) := by
  cases a <;> unfold Kept <;> infer_instance

theorem frame_table_first_page :
    ∃ tr s, (machine.guard Kept).Run (State.start 0xc0400000 4 fun _ _ => 0) tr s ∧
      s.frames.ft.elems.length = 1 ∧ InStep (userPool 0xc0400000 4) s ∧
      ∀ a s', Possible s a → step s a = .ok s' → (InStep (userPool 0xc0400000 4) s' ↔ Kept s a) := by
  obtain ⟨tr, s, hr, hp⟩ := (machine.guard Kept).exists_reached
    (State.start 0xc0400000 4 fun _ _ => 0) firstPage (fun _ s => s.frames.ft.elems.length = 1)
    (by decide +kernel)
  exact ⟨tr, s, hr, hp, frame_table_in_step 0xc0400000 4 _ hr⟩

/-- The process exits: its record stays, with a frame that is free and an owner that is gone. -/
theorem exit_leaves_record :
    ∃ tr s, machine.Run (State.start 0xc0400000 4 fun _ _ => 0) tr s ∧
      (∃ r ∈ s.frames.ft.elems, alive s r.owner = false ∧ r.addr ∈ s.frames.freePages) ∧
      ¬ InStep (userPool 0xc0400000 4) s := by
  obtain ⟨tr, s, hr, r, hmem, hdead, hfree⟩ := machine.exists_reached
    (State.start 0xc0400000 4 fun _ _ => 0) (firstPage ++ [.exit 1])
    (fun _ s => ∃ r ∈ s.frames.ft.elems, alive s r.owner = false ∧ r.addr ∈ s.frames.freePages)
    (by decide +kernel)
  refine ⟨tr, s, hr, ⟨r, hmem, hdead, hfree⟩, fun hi => ?_⟩
  exact (hi.inUse r hmem).2 hfree

end Pintos.Vm.Paging
