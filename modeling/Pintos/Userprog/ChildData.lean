/-
  Who may touch a `child_data` record, and until when.

  The record of child `c` is CLAIMED by one thread at most: the parent that is about to insert it, or
  has it in `child_processes`.  `process_execute` does not return before the child's `process_exit`
  has upped `wait_sema`, so a parent outside `process_execute` has finished children only; in
  particular `process_wait` never blocks, and no parent exits before a child.

  1. **Claims** (`Process.claims`, `Process.awaits`) — read off the place and the list of a thread.

  2. **The record** (`ChildState`) — where it is in its life: not there yet, awaited by its parent
     while the child runs, finished and kept, or freed.

  3. **Local variables** (`Locals`) — what the pointers and flags that a thread has read are worth.
-/
import Pintos.Userprog.Process

namespace Pintos.Userprog

open Base Processes Function Process Processes

/-! ## Claims -/

namespace Process

/-- The child a thread has created and not inserted yet. -/
def creating (th : Process) : Option Int :=
  match th.place with
  | .executeLookup c | .executeRead c _ | .executeInsert c _ => if 0 < c then some c else none
  | _ => none

/-- The records a thread can still reach through its list of children. -/
def kept (th : Process) : List Int :=
  match th.place with
  | .exitChildren rest => rest
  | .exitChild p rest _ => p :: rest
  | .exitSelf | .exitOwn _ | .exitUp | .exitRemove => []
  | _ => th.childProcesses

/-- The number of ways a thread can reach the record of `c`. -/
def claims (th : Process) (c : Int) : Nat :=
  (if th.creating = some c then 1 else 0) + th.kept.count c

/-- The child whose `wait_sema` a thread is about to down in `process_execute`. -/
def downOf (th : Process) : Option Int :=
  match th.place with
  | .executeDown _ p => some p
  | _ => none

/-- The thread is in `process_execute` for `c` and has not passed its `sema_down`. -/
def awaits (th : Process) (c : Int) : Prop := th.creating = some c ∨ th.downOf = some c

end Process

/-- How far a thread is on its way out. -/
inductive Phase where
  | running
  /-- It has set `finished`. -/
  | marked
  /-- It has upped `wait_sema`. -/
  | gone
  deriving DecidableEq

/-- The phase of a thread, by its place. -/
def Place.phase : Place → Phase
  | .exitUp => .marked
  | .exitRemove => .gone
  | _ => .running

def Processes.phase (s : Processes) (c : Int) : Phase :=
  if c ∈ s.allList then (s.thread c).place.phase else .gone

/-- What the records read of a thread. -/
def Process.view (th : Process) : List Int × Option Int × Option Int × Phase :=
  (th.kept, th.creating, th.downOf, th.place.phase)

/-! ## The life of a record -/

/-- The flags of an awaited record follow the child. -/
inductive Progress : Bool → Nat → Phase → Prop
  | running : Progress false 0 .running
  | marked : Progress true 0 .marked
  | gone : Progress true 1 .gone

/-- **Where the record of `c` is.** -/
inductive ChildState (s : Processes) (c : Int) : Prop
  /-- There is no thread `c` yet. -/
  | unborn (hn : s.nextTid ≤ c) (ha : c ∉ s.allList) (hd : s.childData c = none)
      (hq : ∀ q ∈ s.allList, (s.thread q).claims c = 0)
  /-- Thread `c` never had one: the initial thread, and one whose `malloc` failed. -/
  | bare (hn : c < s.nextTid) (ha : c ∈ s.allList) (hdata : (s.thread c).data = none)
      (hd : s.childData c = none) (hp : s.phase c = .running)
      (hq : ∀ q ∈ s.allList, (s.thread q).kept.count c = 0)
  /-- Thread `p` awaits it in `process_execute`. -/
  | awaited (p : Int) (d : ChildData) (hn : c < s.nextTid) (hp : p ∈ s.allList)
      (hw : (s.thread p).awaits c) (hdata : (s.thread c).data = some c)
      (hd : s.childData c = some d) (hpid : d.pid = c)
      (hg : Progress d.finished d.waitSema (s.phase c))
      (hq : ∀ q ∈ s.allList, (s.thread q).claims c = if q = p then 1 else 0)
  /-- The child is gone and its parent `p` keeps the record. -/
  | done (p : Int) (d : ChildData) (hn : c < s.nextTid) (hp : p ∈ s.allList)
      (hw : ¬ (s.thread p).awaits c) (hd : s.childData c = some d) (hpid : d.pid = c)
      (hf : d.finished = true) (hv : d.waitSema = 0) (hg : s.phase c = .gone)
      (hq : ∀ q ∈ s.allList, (s.thread q).claims c = if q = p then 1 else 0)
  /-- The child is gone and so is the record. -/
  | freed (hn : c < s.nextTid) (hd : s.childData c = none) (hg : s.phase c = .gone)
      (hq : ∀ q ∈ s.allList, (s.thread q).claims c = 0)

/-- What a thread's local variables are worth. -/
def LocalsAt (s : Processes) (t : Int) : Place → Prop
  | .executeRead tid found => ∀ c, found = some c → c = tid ∧ 0 < c
  | .executeInsert tid childProcess => 0 < tid ∧ childProcess = (s.thread tid).data
  | .executeDown tid p | .executeTest tid p | .waitTest tid p | .waitRead tid p =>
    p = tid ∧ tid ∈ (s.thread t).childProcesses
  | .waitDown _ _ => False
  | .exitChild _ _ finished => finished = true
  | .exitOwn finished => finished = false
  | _ => True

/-- **The invariant of the process system.** -/
structure Inv (s : Processes) : Prop where
  range : ∀ t ∈ s.allList, 0 < t ∧ t < s.nextTid
  nodup : s.allList.Nodup
  /-- A thread's `data` is its own record. -/
  own : ∀ t ∈ s.allList, ∀ c, (s.thread t).data = some c → c = t
  /-- Nobody knows a parent. -/
  parent : ∀ t ∈ s.allList, (s.thread t).parent = none
  positive : ∀ t ∈ s.allList, ∀ c ∈ (s.thread t).childProcesses, 0 < c
  keptOf : ∀ t ∈ s.allList, ∀ c ∈ (s.thread t).kept, c ∈ (s.thread t).childProcesses
  locals : ∀ t ∈ s.allList, LocalsAt s t (s.thread t).place
  child : ∀ c, 0 < c → ChildState s c

/-! ## What a step leaves alone -/

/-- What the invariant reads of a record. -/
def SameRecord (o o' : Option ChildData) : Prop :=
  o'.map (fun d => (d.pid, d.finished, d.waitSema)) =
    o.map (fun d => (d.pid, d.finished, d.waitSema))

theorem SameRecord.refl (o : Option ChildData) : SameRecord o o := rfl

theorem SameRecord.some {o o' : Option ChildData} {d : ChildData} (h : SameRecord o o')
    (hd : o = some d) :
    ∃ d', o' = some d' ∧ d'.pid = d.pid ∧ d'.finished = d.finished ∧ d'.waitSema = d.waitSema := by
  subst hd
  cases o' with
  | none => simp [SameRecord] at h
  | some d' =>
    obtain ⟨h1, h2, h3⟩ : d'.pid = d.pid ∧ d'.finished = d.finished ∧ d'.waitSema = d.waitSema := by
      simpa [SameRecord] using h
    exact ⟨d', rfl, h1, h2, h3⟩

theorem SameRecord.none {o o' : Option ChildData} (h : SameRecord o o') (hd : o = none) :
    o' = none := by
  subst hd
  simpa [SameRecord] using h

/-- What the record of `c` reads of a thread. -/
structure SameFor (c : Int) (th th' : Process) : Prop where
  claims : th'.claims c = th.claims c
  kept : th'.kept.count c = th.kept.count c
  awaits : th'.awaits c ↔ th.awaits c

theorem SameFor.refl (c : Int) (th : Process) : SameFor c th th := ⟨rfl, rfl, Iff.rfl⟩

theorem SameFor.of_eq {c : Int} {th th' : Process} (hk : th'.kept.count c = th.kept.count c)
    (hc : th'.creating = some c ↔ th.creating = some c)
    (hd : th'.downOf = some c ↔ th.downOf = some c) : SameFor c th th' := by
  refine ⟨?_, hk, ?_⟩
  · unfold Process.claims
    rw [hk]
    by_cases hx : th.creating = some c
    · rw [if_pos hx, if_pos (hc.mpr hx)]
    · rw [if_neg hx, if_neg fun hx' => hx (hc.mp hx')]
  · unfold Process.awaits
    rw [hc, hd]

variable {s s' : Processes} {q p : Int} {pl : Place} {P : Int → Process → Prop} {o : DataRef}
  {d : ChildData}

/-- **The frame rule of a record**: the threads come and go, but nothing it reads has changed. -/
theorem ChildState.move {c : Int} (h : ChildState s c)
    (hn : c < s'.nextTid ↔ c < s.nextTid) (hout : c ∉ s.allList → c ∉ s'.allList)
    (hin : c ∈ s.allList → s.phase c = .running → c ∈ s'.allList)
    (hrec : SameRecord (s.childData c) (s'.childData c))
    (hold : ∀ q ∈ s.allList, q ∈ s'.allList → SameFor c (s.thread q) (s'.thread q))
    (hnew : ∀ q ∈ s'.allList, q ∉ s.allList → (s'.thread q).claims c = 0)
    (hstay : ∀ q ∈ s.allList, (s.thread q).claims c ≠ 0 → q ∈ s'.allList)
    (hphase : s'.phase c = s.phase c) (hdata : (s'.thread c).data = (s.thread c).data) :
    ChildState s' c := by
  -- a newcomer has no claim, so the claims of before are those of now
  have hclaims : ∀ n : Int → Nat, (∀ q ∈ s.allList, (s.thread q).claims c = n q) →
      (∀ q, q ∉ s.allList → n q = 0) → ∀ q ∈ s'.allList, (s'.thread q).claims c = n q := by
    intro n h1 h2 q hq
    by_cases hm : q ∈ s.allList
    · rw [(hold q hm hq).claims, h1 q hm]
    · rw [hnew q hq hm, h2 q hm]
  have hone : ∀ p ∈ s.allList, (∀ q ∈ s.allList, (s.thread q).claims c = if q = p then 1 else 0) →
      p ∈ s'.allList ∧ ∀ q ∈ s'.allList, (s'.thread q).claims c = if q = p then 1 else 0 := by
    intro p hp hq
    refine ⟨hstay p hp (by rw [hq p hp, if_pos rfl]; omega), hclaims _ hq fun q hm => if_neg ?_⟩
    rintro rfl
    exact hm hp
  cases h with
  | unborn h1 h2 h3 h4 =>
    exact .unborn (by omega) (hout h2) (hrec.none h3) (hclaims _ h4 fun _ _ => rfl)
  | bare h1 h2 h3 h4 h5 h6 =>
    refine .bare (hn.mpr h1) (hin h2 h5) (hdata.trans h3) (hrec.none h4) (hphase.trans h5)
      fun q hq => ?_
    by_cases hm : q ∈ s.allList
    · rw [(hold q hm hq).kept, h6 q hm]
    · have := hnew q hq hm
      unfold claims at this
      omega
  | awaited p d h1 h2 h3 h4 h5 h6 h7 h8 =>
    obtain ⟨d', hd', hpid, hfin, hv⟩ := hrec.some h5
    obtain ⟨hp, hq⟩ := hone p h2 h8
    refine .awaited p d' (hn.mpr h1) hp ((hold p h2 hp).awaits.mpr h3) (hdata.trans h4) hd'
      (hpid.trans h6) ?_ hq
    rwa [hfin, hv, hphase]
  | done p d h1 h2 h3 h4 h5 h6 h7 h8 h9 =>
    obtain ⟨d', hd', hpid, hfin, hv⟩ := hrec.some h4
    obtain ⟨hp, hq⟩ := hone p h2 h9
    exact .done p d' (hn.mpr h1) hp (fun hx => h3 ((hold p h2 hp).awaits.mp hx)) hd'
      (hpid.trans h5) (hfin.trans h6) (hv.trans h7) (hphase.trans h8) hq
  | freed h1 h2 h3 h4 =>
    exact .freed (hn.mpr h1) (hrec.none h2) (hphase.trans h3) (hclaims _ h4 fun _ _ => rfl)

/-- What a thread has read stays true. -/
theorem LocalsAt.move (h : LocalsAt s q pl)
    (hlist : (s'.thread q).childProcesses = (s.thread q).childProcesses)
    (hdata : ∀ tid o, pl = .executeInsert tid o → (s'.thread tid).data = (s.thread tid).data) :
    LocalsAt s' q pl := by
  cases pl with
  | executeInsert tid o => exact ⟨h.1, h.2.trans (hdata tid o rfl).symm⟩
  | executeDown tid p | executeTest tid p | waitTest tid p | waitRead tid p =>
    unfold LocalsAt at h ⊢
    rwa [hlist]
  | _ => exact h

/-! ## Steps of one thread -/

/-- Thread `t` becomes `th`, and the records become `cd`. -/
def Processes.put (s : Processes) (t : Int) (th : Process) (cd : Int → Option ChildData) :
    Processes :=
  { s with thread := update s.thread t th, childData := cd }

variable {t c : Int} {th : Process}

section Put

variable {cd : Int → Option ChildData}

@[simp] theorem put_allList : (s.put t th cd).allList = s.allList := rfl
@[simp] theorem put_nextTid : (s.put t th cd).nextTid = s.nextTid := rfl
@[simp] theorem put_childData : (s.put t th cd).childData = cd := rfl
@[simp] theorem put_thread_self : (s.put t th cd).thread t = th := by simp [Processes.put]

@[simp] theorem put_thread_of_ne (hq : q ≠ t) : (s.put t th cd).thread q = s.thread q := by
  simp [Processes.put, hq]

theorem put_data (hd : th.data = (s.thread t).data) (q : Int) :
    ((s.put t th cd).thread q).data = (s.thread q).data := by
  by_cases hq : q = t
  · subst hq; simpa using hd
  · rw [put_thread_of_ne hq]

theorem put_phase_of_ne (hc : c ≠ t) : (s.put t th cd).phase c = s.phase c := by
  unfold phase
  rw [put_thread_of_ne hc]
  rfl

theorem put_phase (hp : th.place.phase = (s.thread t).place.phase) (c : Int) :
    (s.put t th cd).phase c = s.phase c := by
  by_cases hc : c = t
  · subst hc
    unfold phase
    simp [hp]
  · exact put_phase_of_ne hc

theorem put_phase_self (ht : t ∈ s.allList) : (s.put t th cd).phase t = th.place.phase := by
  unfold phase
  simp [ht]

theorem forall_put (hself : t ∈ s.allList → P t th)
    (hrest : ∀ q ∈ s.allList, q ≠ t → P q (s.thread q)) :
    ∀ q ∈ (s.put t th cd).allList, P q ((s.put t th cd).thread q) := by
  intro q hq
  by_cases hqt : q = t
  · subst hqt
    rw [put_thread_self]
    exact hself hq
  · rw [put_thread_of_ne hqt]
    exact hrest q hq hqt

theorem ChildState.put (h : ChildState s c) (hrec : SameRecord (s.childData c) (cd c))
    (hth : SameFor c (s.thread t) th) (hdata : th.data = (s.thread t).data)
    (hphase : c = t → th.place.phase = (s.thread t).place.phase) :
    ChildState (s.put t th cd) c := by
  have hsame : ∀ q ∈ s.allList, SameFor c (s.thread q) ((s.put t th cd).thread q) :=
    forall_put (P := fun q p => SameFor c (s.thread q) p) (fun _ => hth)
      fun q _ _ => SameFor.refl c _
  refine h.move Iff.rfl id (fun hx _ => hx) hrec (fun q _ hq => hsame q hq)
    (fun q hq hx => absurd hq hx) (fun q hq _ => hq) ?_ (put_data hdata c)
  by_cases hc : c = t
  · exact put_phase (hphase hc) c
  · exact put_phase_of_ne hc

theorem Inv.put (h : Inv s) (hdata : th.data = (s.thread t).data)
    (hparent : th.parent = (s.thread t).parent)
    (hpos : ∀ c ∈ th.childProcesses, 0 < c) (hkept : ∀ c ∈ th.kept, c ∈ th.childProcesses)
    (hloc : LocalsAt (s.put t th cd) t th.place)
    (hchild : ∀ c, 0 < c → ChildState (s.put t th cd) c) : Inv (s.put t th cd) := by
  refine ⟨h.range, h.nodup, ?_, ?_, ?_, ?_, ?_, hchild⟩
  · intro q hq c hc
    rw [put_data hdata] at hc
    exact h.own q hq c hc
  · exact forall_put (P := fun _ p => p.parent = none) (fun ht => hparent.trans (h.parent t ht))
      fun q hq _ => h.parent q hq
  · exact forall_put (P := fun _ p => ∀ c ∈ p.childProcesses, 0 < c) (fun _ => hpos)
      fun q hq _ => h.positive q hq
  · exact forall_put (P := fun _ p => ∀ c ∈ p.kept, c ∈ p.childProcesses) (fun _ => hkept)
      fun q hq _ => h.keptOf q hq
  · -- what others have read of the data of a child is still its data
    refine forall_put (P := fun q p => LocalsAt (s.put t th cd) q p.place) (fun _ => hloc)
      fun q hq hqt => (h.locals q hq).move ?_ fun tid _ _ => put_data hdata tid
    rw [put_thread_of_ne hqt]

/-- **The plain steps**: `t` keeps its list and its claims, and no flag of a record changes. -/
theorem Inv.put_plain (h : Inv s) (ht : t ∈ s.allList) (hdata : th.data = (s.thread t).data)
    (hparent : th.parent = (s.thread t).parent)
    (hlist : th.childProcesses = (s.thread t).childProcesses)
    (hview : th.view = (s.thread t).view) (hrec : ∀ c, SameRecord (s.childData c) (cd c))
    (hloc : LocalsAt (s.put t th cd) t th.place) : Inv (s.put t th cd) := by
  obtain ⟨hkept, hcreate, hdown, hphase⟩ : th.kept = (s.thread t).kept ∧
      th.creating = (s.thread t).creating ∧ th.downOf = (s.thread t).downOf ∧
      th.place.phase = (s.thread t).place.phase := by
    simpa [view] using hview
  refine h.put hdata hparent ?_ ?_ hloc fun c hc => ?_
  · rw [hlist]; exact h.positive t ht
  · rw [hkept, hlist]; exact h.keptOf t ht
  · refine (h.child c hc).put (hrec c) (SameFor.of_eq ?_ ?_ ?_) hdata fun _ => hphase
    · rw [hkept]
    · rw [hcreate]
    · rw [hdown]

end Put

/-! ## Reading records -/

theorem getData_eq_ok (h : s.getData o = .ok (c, d)) : o = some c ∧ s.childData c = some d := by
  cases o with
  | none => simp [getData] at h
  | some c' =>
    simp only [getData] at h
    cases hd : s.childData c' with
    | none => rw [hd] at h; simp at h
    | some =>
      rw [hd] at h
      cases h
      exact ⟨rfl, hd⟩

theorem ok_of_getData {k : Int → ChildData → Except Fault Processes} (h : (match s.getData o with
      | .error f => Except.error f | .ok (c, d) => k c d) = .ok s') :
    ∃ c d, o = some c ∧ s.childData c = some d ∧ k c d = .ok s' := by
  cases hget : s.getData o with
  | error => rw [hget] at h; simp at h
  | ok p =>
    rw [hget] at h
    obtain ⟨hc, hd⟩ := getData_eq_ok hget
    exact ⟨p.1, p.2, hc, hd, h⟩

theorem findChild_eq_ok {childTid : Int} :
    ∀ {l : List Int}, s.findChild childTid l = .ok (some p) →
      p ∈ l ∧ ∃ d, s.childData p = some d ∧ d.pid = childTid
  | [], h => by simp [findChild] at h
  | c :: cs, h => by
    simp only [findChild] at h
    cases hd : s.childData c with
    | none => rw [hd] at h; simp at h
    | some =>
      simp only [hd] at h
      split at h
      · grind
      · obtain ⟨hm, hx⟩ := findChild_eq_ok h
        exact ⟨List.mem_cons_of_mem _ hm, hx⟩

namespace Inv

variable {data : DataRef}

theorem claims_ne_zero_of_kept (hk : c ∈ th.kept) : th.claims c ≠ 0 := by
  have := List.count_pos_iff.mpr hk
  unfold claims
  omega

/-- Whoever has a claim is the holder. -/
theorem eq_holder (ht : t ∈ s.allList) (hclaim : (s.thread t).claims c ≠ 0)
    (hq : ∀ q ∈ s.allList, (s.thread q).claims c = if q = p then 1 else 0) : p = t := by
  by_contra hp
  exact hclaim ((hq t ht).trans (if_neg fun hx => hp hx.symm))

/-- **A child that its parent keeps and does not await is finished**, and its record is there. -/
theorem kept_done (h : Inv s) (ht : t ∈ s.allList) (hk : c ∈ (s.thread t).kept)
    (hw : ¬ (s.thread t).awaits c) :
    ∃ d, s.childData c = some d ∧ d.pid = c ∧ d.finished = true ∧ d.waitSema = 0 ∧
      s.phase c = .gone ∧ c < s.nextTid ∧
      ∀ q ∈ s.allList, (s.thread q).claims c = if q = t then 1 else 0 := by
  have hpos : 0 < c := h.positive t ht c (h.keptOf t ht c hk)
  have hcount := List.count_pos_iff.mpr hk
  have hclaims := claims_ne_zero_of_kept hk
  cases h.child c hpos with
  | unborn _ _ _ hq | freed _ _ _ hq => exact absurd (hq t ht) hclaims
  | bare _ _ _ _ _ hq => exact absurd (hq t ht) (by omega)
  | awaited p d _ _ hwp _ _ _ _ hq => exact absurd (eq_holder ht hclaims hq ▸ hwp) hw
  | done p d hn _ _ hd hpid hf hv hg hq =>
    obtain rfl := eq_holder ht hclaims hq
    exact ⟨d, hd, hpid, hf, hv, hg, hn, hq⟩

/-- **A thread that is not on its way out has an unfinished record**, which somebody awaits. -/
theorem own_running (h : Inv s) (ht : t ∈ s.allList)
    (hdata : (s.thread t).data = some c) (hd : s.childData c = some d)
    (hph : s.phase t = .running) : c = t ∧ d.pid = t ∧ d.finished = false ∧ d.waitSema = 0 := by
  obtain rfl := h.own t ht c hdata
  cases h.child c (h.range c ht).1 with
  | unborn _ ha => exact absurd ht ha
  | bare _ _ hx => rw [hx] at hdata; simp at hdata
  | awaited p d' _ _ _ _ hd' hpid hg =>
    obtain rfl := Option.some.inj (hd'.symm.trans hd)
    rw [hph] at hg
    generalize hf : d'.finished = f at hg
    generalize hv : d'.waitSema = v at hg
    cases hg
    exact ⟨rfl, hpid, rfl, rfl⟩
  | done _ _ _ _ _ _ _ _ _ hg => rw [hph] at hg; simp at hg
  | freed _ hx => rw [hx] at hd; simp at hd

/-! ## Plain places -/

/-- The places from which a thread reaches all its children, awaits none and is not on its way
    out. -/
def plain : Place → Bool
  | .startProcess | .loaded _ | .user | .executePage _ | .executeCreate _ | .executeTest _ _
  | .executeReturn _ _ | .waitFind _ | .waitTest _ _ | .waitDown _ _ | .waitRead _ _
  | .waitReturn _ _ | .exit _ | .processExit => true
  | _ => false

section

variable (hp : plain th.place = true)
include hp

theorem plain_view : th.view = (th.childProcesses, none, none, .running) := by
  unfold view kept creating downOf
  cases hpl : th.place with
  | executeLookup | executeRead | executeInsert | executeDown | exitChildren | exitChild | exitSelf
  | exitOwn | exitUp | exitRemove => rw [hpl] at hp; simp [plain] at hp
  | _ => rfl

theorem plain_kept : th.kept = th.childProcesses :=
  congrArg Prod.fst (plain_view hp)

theorem plain_not_awaits (c : Int) : ¬ th.awaits c := by
  have hc : th.creating = none := congrArg (fun v => v.2.1) (plain_view hp)
  have hd : th.downOf = none := congrArg (fun v => v.2.2.1) (plain_view hp)
  unfold awaits
  rw [hc, hd]
  simp

end

theorem awaited_of_claim (h : Inv s) (ht : t ∈ s.allList) (hpos : 0 < c)
    (hclaim : (s.thread t).claims c ≠ 0) (hw : (s.thread t).awaits c)
    (hdata : (s.thread c).data ≠ none ∨ c ∈ (s.thread t).kept) :
    ∃ d, c < s.nextTid ∧ (s.thread c).data = some c ∧ s.childData c = some d ∧ d.pid = c ∧
      Progress d.finished d.waitSema (s.phase c) ∧
      ∀ q ∈ s.allList, (s.thread q).claims c = if q = t then 1 else 0 := by
  cases h.child c hpos with
  | unborn _ _ _ hq | freed _ _ _ hq => exact absurd (hq t ht) hclaim
  | bare _ _ hx _ _ hq =>
    rcases hdata with hdata | hk
    · exact absurd hx hdata
    · have := List.count_pos_iff.mpr hk
      exact absurd (hq t ht) (by omega)
  | awaited p d hn _ _ hdat hd hpid hg hq =>
    obtain rfl := eq_holder ht hclaim hq
    exact ⟨d, hn, hdat, hd, hpid, hg, hq⟩
  | done p d _ _ hnw _ _ _ _ _ hq => exact absurd (eq_holder ht hclaim hq ▸ hw) hnw

/-! ## Creating a child -/

/-- `s'` is `s` after `t` has created a thread with the given `data`. -/
structure Born (s : Processes) (t : Int) (data : DataRef) (s' : Processes) : Prop where
  nextTid : s'.nextTid = s.nextTid + 1
  allList : s'.allList = s.allList ++ [s.nextTid]
  parent : s'.thread t = { s.thread t with place := .executeLookup s.nextTid }
  child : s'.thread s.nextTid =
    { isUserProcess := false, parent := none, data := data, childProcesses := [],
      place := .startProcess }
  others : ∀ q, q ≠ t → q ≠ s.nextTid → s'.thread q = s.thread q
  records : ∀ c, c ≠ s.nextTid → s'.childData c = s.childData c
  record : (data = none ∧ s'.childData s.nextTid = none) ∨
    (data = some s.nextTid ∧ ∃ d, s'.childData s.nextTid = some d ∧ d.pid = s.nextTid ∧
      d.finished = false ∧ d.waitSema = 0)

theorem Born.mem_iff (hb : Born s t data s') (q : Int) :
    q ∈ s'.allList ↔ q ∈ s.allList ∨ q = s.nextTid := by
  rw [hb.allList]
  simp

theorem Born.forall (hb : Born s t data s') (hnot : s.nextTid ∉ s.allList)
    (hself : t ∈ s.allList → P t { s.thread t with place := .executeLookup s.nextTid })
    (hchild : P s.nextTid
      { isUserProcess := false, parent := none, data := data, childProcesses := [],
        place := .startProcess })
    (hrest : ∀ q ∈ s.allList, q ≠ t → P q (s.thread q)) :
    ∀ q ∈ s'.allList, P q (s'.thread q) := by
  intro q hq
  rcases (hb.mem_iff q).mp hq with hm | rfl
  · by_cases hqt : q = t
    · subst hqt
      rw [hb.parent]
      exact hself hm
    · rw [hb.others q hqt fun hx => hnot (hx ▸ hm)]
      exact hrest q hm hqt
  · rwa [hb.child]

theorem Born.data_eq (hb : Born s t data s') (hc : c ≠ s.nextTid) :
    (s'.thread c).data = (s.thread c).data := by
  by_cases hct : c = t
  · subst hct
    rw [hb.parent]
  · rw [hb.others c hct hc]

theorem born_goTo (ht : t ≠ s.nextTid) {cd : Int → Option ChildData}
    (hrest : ∀ c, c ≠ s.nextTid → cd c = s.childData c)
    (hrec : (data = none ∧ cd s.nextTid = none) ∨
      (data = some s.nextTid ∧ ∃ d, cd s.nextTid = some d ∧ d.pid = s.nextTid ∧
        d.finished = false ∧ d.waitSema = 0)) :
    Born s t data
      (({ s.threadCreate data with childData := cd } : Processes).goTo t
        (.executeLookup s.nextTid)) := by
  refine ⟨rfl, rfl, ?_, ?_, fun q hq hn => ?_, hrest, hrec⟩
  · simp [goTo, setThread, threadCreate, ht]
  · simp [goTo, setThread, threadCreate, Ne.symm ht]
  · simp [goTo, setThread, threadCreate, hq, hn]

/-- `thread_create` gives birth to a thread, if it gives one at all. -/
theorem born_of_create (ht : t ≠ s.nextTid) (hfree : s.childData s.nextTid = none)
    {fileName : List Char} {cr : Creation} (hs : s.executeCreate t fileName cr = .ok s') :
    (cr = .noThread ∧ s' = s.goTo t (.executeLookup tidError)) ∨
    (cr = .noData ∧ Born s t none s') ∨ (cr = .created ∧ Born s t (some s.nextTid) s') := by
  cases cr with
  | noThread => exact .inl ⟨rfl, (Except.ok.inj hs).symm⟩
  | noData =>
    simp only [executeCreate] at hs
    split at hs
    · simp at hs
    · obtain rfl := Except.ok.inj hs
      exact .inr (.inl ⟨rfl, born_goTo ht (fun _ _ => rfl) (.inl ⟨rfl, hfree⟩)⟩)
  | created =>
    simp only [executeCreate] at hs
    split at hs
    · simp at hs
    · obtain rfl := Except.ok.inj hs
      refine .inr (.inr ⟨rfl, born_goTo ht (fun c hc => update_of_ne hc _ _) ?_⟩)
      exact .inr ⟨rfl, _, update_self .., rfl, rfl, rfl⟩

theorem creating_pos (hc : th.creating = some c) : 0 < c := by
  unfold creating at hc
  split at hc
  case h_4 => simp at hc
  all_goals
    split at hc
    · rename_i hpos
      exact Option.some.inj hc ▸ hpos
    · simp at hc

theorem creating_lt (h : Inv s) (ht : t ∈ s.allList) (hc : (s.thread t).creating = some c) :
    c < s.nextTid := by
  cases h.child c (creating_pos hc) with
  | unborn _ _ _ hq =>
    have := hq t ht
    rw [claims, if_pos hc] at this
    omega
  | bare hn | awaited _ _ hn | done _ _ hn | freed hn => exact hn

theorem next_unborn (h : Inv s) (ht : t ∈ s.allList) :
    0 < s.nextTid ∧ s.nextTid ∉ s.allList ∧ s.childData s.nextTid = none ∧
    ∀ q ∈ s.allList, (s.thread q).claims s.nextTid = 0 := by
  have hr := h.range t ht
  have hpos : 0 < s.nextTid := by omega
  cases h.child s.nextTid hpos with
  | unborn _ ha hd hq => exact ⟨hpos, ha, hd, hq⟩
  | bare hn | awaited _ _ hn | done _ _ hn | freed hn => omega

end Inv

/-- `child_thread` does not point at a thread. -/
def harmless : Action → Bool
  | .read _ (.thread _) => false
  | _ => true

theorem enabled_iff {a : Action} :
    s.enabled a = true ↔ a.actor ∈ s.allList ∧ s.allows a.actor a = true := by
  simp [enabled]

end Pintos.Userprog
