/-
  The turns of a thread.

  `Inv.step` says what every step keeps.  What a thread has LEARNED on its way (which status it has
  read, which child it has looked for) is told by the turns it has taken, so this file lists them
  once: `Turn s t a th cd` is one turn of `t`, after which its members are `th` and the records are
  `cd`.  Local variables that the invariant determines are already replaced by their values: a
  `childProcess` is the child, a test of `finished` has come out the only way it can.

  A birth (`Inv.Born`) and the removal from `all_list` are the two steps that are not turns.  The
  invariant is kept by each of the three (`Inv.turn`, `Inv.born`, `Inv.exitRemove`), and so by every
  step (`Inv.step`).
-/
import Pintos.Userprog.ChildData

namespace Pintos.Userprog

open Base Processes Function List Process Processes Option Bool

/-- **The turns** of thread `t`. -/
inductive Turn (s : Processes) (t : Int) : Action → Process → (Int → Option ChildData) → Prop
  | load (success : Bool) (hp : (s.thread t).place = .startProcess) :
      Turn s t (.load t success)
        { s.thread t with isUserProcess := true, place := .loaded success } s.childData
  | loaded (success : Bool) (hp : (s.thread t).place = .loaded success) :
      Turn s t (.step t)
        { s.thread t with place := if success then .user else .exit badExit } s.childData
  | execute (fileName : List Char) (hp : (s.thread t).place = .user) :
      Turn s t (.execute t fileName) { s.thread t with place := .executePage fileName } s.childData
  | wait (childTid : Int) (hp : (s.thread t).place = .user) :
      Turn s t (.wait t childTid) { s.thread t with place := .waitFind childTid } s.childData
  | exit (status : Int) (hp : (s.thread t).place = .user) :
      Turn s t (.exit t status) { s.thread t with place := .exit status } s.childData
  | pageFault (hp : (s.thread t).place = .user) :
      Turn s t (.pageFault t) { s.thread t with place := .exit badExit } s.childData
  | kill (cs : Segment) (hp : (s.thread t).place = .user) :
      Turn s t (.kill t cs) { s.thread t with place := .processExit } s.childData
  | page (fileName : List Char) (hp : (s.thread t).place = .executePage fileName) :
      Turn s t (.page t true) { s.thread t with place := .executeCreate fileName } s.childData
  | noPage (fileName : List Char) (hp : (s.thread t).place = .executePage fileName) :
      Turn s t (.page t false)
        { s.thread t with place := .executeReturn none tidError } s.childData
  | noThread (fileName : List Char) (hp : (s.thread t).place = .executeCreate fileName) :
      Turn s t (.create t .noThread)
        { s.thread t with place := .executeLookup tidError } s.childData
  | lookup (tid : Int) (hp : (s.thread t).place = .executeLookup tid) :
      Turn s t (.step t)
        { s.thread t with place := .executeRead tid (s.threadByTid tid) } s.childData
  | read (tid : Int) (hp : (s.thread t).place = .executeRead tid (some tid)) (hpos : 0 < tid)
      (hm : tid ∈ s.allList) :
      Turn s t (.read t .elsewhere)
        { s.thread t with place := .executeInsert tid (s.thread tid).data } s.childData
  | insert (c : Int) (hp : (s.thread t).place = .executeInsert c (some c)) (hpos : 0 < c) :
      Turn s t (.step t)
        { s.thread t with
          childProcesses := (s.thread t).childProcesses ++ [c], place := .executeDown c c }
        s.childData
  | down (c : Int) (d : ChildData) (hp : (s.thread t).place = .executeDown c c)
      (hd : s.childData c = some d) :
      Turn s t (.step t) { s.thread t with place := .executeTest c c }
        (update s.childData c (some { d with waitSema := d.waitSema - 1 }))
  | test (c : Int) (d : ChildData) (hp : (s.thread t).place = .executeTest c c)
      (hm : c ∈ (s.thread t).childProcesses) (hd : s.childData c = some d) :
      Turn s t (.step t)
        { s.thread t with place :=
            .executeReturn (some c) (if d.returnStatus = badExit then badExit else c) }
        s.childData
  | executeReturn (o : Option Int) (r : Int) (hp : (s.thread t).place = .executeReturn o r) :
      Turn s t (.step t) { s.thread t with place := .user } s.childData
  | findNone (childTid : Int) (hp : (s.thread t).place = .waitFind childTid)
      (hm : childTid ∉ (s.thread t).childProcesses) :
      Turn s t (.step t) { s.thread t with place := .waitReturn childTid badExit } s.childData
  | find (c : Int) (hp : (s.thread t).place = .waitFind c) :
      Turn s t (.step t) { s.thread t with place := .waitTest c c } s.childData
  | waitTest (c : Int) (hp : (s.thread t).place = .waitTest c c) :
      Turn s t (.step t) { s.thread t with place := .waitRead c c } s.childData
  | waitRead (c : Int) (d : ChildData) (hp : (s.thread t).place = .waitRead c c)
      (hm : c ∈ (s.thread t).childProcesses) (hd : s.childData c = some d) :
      Turn s t (.step t)
        { s.thread t with
          childProcesses := (s.thread t).childProcesses.erase c
          place := .waitReturn c d.returnStatus }
        (update s.childData c none)
  | waitReturn (c r : Int) (hp : (s.thread t).place = .waitReturn c r) :
      Turn s t (.step t) { s.thread t with place := .user } s.childData
  | record (status : Int) (d : ChildData) (hp : (s.thread t).place = .exit status)
      (hd : s.childData t = some d) :
      Turn s t (.step t) { s.thread t with place := .processExit }
        (update s.childData t (some { d with returnStatus := status }))
  | processExit (hp : (s.thread t).place = .processExit) :
      Turn s t (.step t)
        { s.thread t with place := .exitChildren (s.thread t).childProcesses } s.childData
  | childrenDone (hp : (s.thread t).place = .exitChildren []) :
      Turn s t (.step t) { s.thread t with place := .exitSelf } s.childData
  | childrenNext (c : Int) (rest : List Int)
      (hp : (s.thread t).place = .exitChildren (c :: rest)) :
      Turn s t (.step t) { s.thread t with place := .exitChild c rest true } s.childData
  | child (c : Int) (rest : List Int) (hp : (s.thread t).place = .exitChild c rest true) :
      Turn s t (.step t) { s.thread t with place := .exitChildren rest }
        (update s.childData c none)
  | self (hp : (s.thread t).place = .exitSelf) :
      Turn s t (.step t) { s.thread t with place := .exitOwn false } s.childData
  | mark (d : ChildData) (hp : (s.thread t).place = .exitOwn false)
      (hd : s.childData t = some d) :
      Turn s t (.step t) { s.thread t with place := .exitUp }
        (update s.childData t (some { d with finished := true }))
  | up (d : ChildData) (hp : (s.thread t).place = .exitUp) (hd : s.childData t = some d) :
      Turn s t (.step t) { s.thread t with place := .exitRemove }
        (update s.childData t (some { d with waitSema := d.waitSema + 1 }))

variable {a : Action} {childTid : Int}

/-- Nothing is left open to a thread that looks for a child or waits for one. -/
theorem Turn.eq_step {s : Processes} {t : Int} {th : Process}
    {cd : Int → Option ChildData} (h : Turn s t a th cd)
    (hp : (∃ c, (s.thread t).place = .waitFind c) ∨ ∃ c, (s.thread t).place = .executeDown c c) :
    a = .step t := by
  cases h <;> simp_all

/-- What a step can be. -/
inductive Steps (s : Processes) (a : Action) (s' : Processes) : Prop
  | turn (th : Process) (cd : Int → Option ChildData) (h : Turn s a.actor a th cd)
      (hs : s' = s.put a.actor th cd)
  | noData (t : Int) (fileName : List Char) (ha : a = .create t .noData)
      (hp : (s.thread t).place = .executeCreate fileName) (h : Inv.Born s t none s')
  | created (t : Int) (fileName : List Char) (ha : a = .create t .created)
      (hp : (s.thread t).place = .executeCreate fileName) (hn : firstToken fileName ≠ none)
      (h : Inv.Born s t (some s.nextTid) s')
      (hd : ∃ d, s'.childData s.nextTid = some d ∧ d.returnStatus = 0)
  | remove (t : Int) (ha : a = .step t) (hp : (s.thread t).place = .exitRemove)
      (hs : s' = s.exitRemove t)

theorem Steps.of_turn {s s' : Processes} {th : Process} {cd : Int → Option ChildData}
    (h : Turn s a.actor a th cd)
    (hs : (.ok (s.put a.actor th cd) : Except Fault Processes) = .ok s') : Steps s a s' :=
  .turn th cd h (Except.ok.inj hs).symm

variable {fileName : List Char}

theorem created_clean {s s' : Processes} {t : Int}
    (hs : s.executeCreate t fileName .created = .ok s') :
    firstToken fileName ≠ none ∧ ∃ d, s'.childData s.nextTid = some d ∧ d.returnStatus = 0 := by
  simp only [executeCreate] at hs
  cases hn : firstToken fileName with
  | none => rw [hn] at hs; simp at hs
  | some =>
    rw [hn] at hs
    cases hs
    refine ⟨by simp, { pid := s.nextTid, returnStatus := 0, finished := false, waitSema := 0 },
      ?_, rfl⟩
    simp [goTo, setThread, setData]

theorem findChild_eq_none {s : Processes} :
    ∀ {l : List Int}, s.findChild childTid l = .ok none →
      ∀ c ∈ l, ∀ d, s.childData c = some d → d.pid ≠ childTid
  | [], _, c, hc, _, _ => absurd hc not_mem_nil
  | x :: xs, h, c, hc, d, hd => by
    simp only [findChild] at h
    cases hx : s.childData x with
    | none => rw [hx] at h; simp at h
    | some =>
      simp only [hx] at h
      split at h
      · simp at h
      · rcases mem_cons.mp hc with rfl | hc
        · rwa [← some.inj (hx.symm.trans hd)]
        · exact findChild_eq_none h c hc d hd

variable {f : Bool} {v : Nat}

theorem Progress.mark (h : Progress f v .running) : Progress true v .marked := by
  cases h
  exact .marked

theorem Progress.up (h : Progress f v .marked) : Progress f (v + 1) .gone := by
  cases h
  exact .gone

namespace Inv

variable {s s' : Processes} {t : Int}

theorem turn_executeRead (h : Inv s) (ht : t ∈ s.allList) {tid : Int} {found : Option Int}
    {g : Garbage} (hp : (s.thread t).place = .executeRead tid found)
    (hg : ∀ u, g ≠ .thread u) (hs : s.executeRead t tid found g = .ok s') :
    Steps s (.read t g) s' := by
  have hloc := h.locals t ht
  rw [hp] at hloc
  cases found with
  | none => simp [executeRead] at hs
  | some c =>
    obtain ⟨rfl, hpos⟩ := hloc c rfl
    simp only [executeRead] at hs
    split at hs
    · rename_i hm
      cases g with
      | null => simp at hs
      | thread u => exact absurd rfl (hg u)
      | elsewhere => exact .of_turn (.read c hp hpos hm) hs
    · simp at hs

theorem mem_of_waitFind {c p : Int} (hs : s.waitFind t c = .ok s')
    (hpl : (s'.thread t).place = .waitTest c p) : p ∈ (s.thread t).childProcesses := by
  unfold waitFind at hs
  split at hs
  · cases hs
    simp [goTo, setThread] at hpl
  split at hs
  · simp at hs
  · cases hs
    simp [goTo, setThread] at hpl
  · rename_i q hfind
    cases hs
    obtain rfl : q = p := by simpa [goTo, setThread] using hpl
    exact (findChild_eq_ok hfind).1

theorem turn_waitFind (h : Inv s) (ht : t ∈ s.allList)
    (hp : (s.thread t).place = .waitFind childTid) (hs : s.waitFind t childTid = .ok s') :
    Steps s (.step t) s' := by
  have hplain : plain (s.thread t).place = true := by rw [hp]; rfl
  -- the records on the list are there, each under the name of its child
  have hdone : ∀ c ∈ (s.thread t).childProcesses, ∃ d, s.childData c = some d ∧ d.pid = c := by
    intro c hc
    obtain ⟨d, hd, hpid, -⟩ := h.kept_done ht (plain_kept hplain ▸ hc) (plain_not_awaits hplain c)
    exact ⟨d, hd, hpid⟩
  unfold waitFind at hs
  split at hs
  · rename_i herr
    refine .of_turn (.findNone childTid hp fun hm => ?_) hs
    have := h.positive t ht childTid hm
    rw [herr] at this
    cases this
  · split at hs
    · simp at hs
    · rename_i hnone
      refine .of_turn (.findNone childTid hp fun hm => ?_) hs
      obtain ⟨d, hd, hpid⟩ := hdone childTid hm
      exact findChild_eq_none hnone childTid hm d hd hpid
    · rename_i p hfind
      obtain ⟨hm, d, hd, hpid⟩ := findChild_eq_ok hfind
      obtain ⟨d', hd', hpid'⟩ := hdone p hm
      cases hd'.symm.trans hd
      obtain rfl : p = childTid := hpid'.symm.trans hpid
      exact .of_turn (.find p hp) hs

attribute [local simp] creating Place.phase downOf kept

/-- **Every step of a thread** that leaves nothing open is a turn, or takes it off `all_list`. -/
theorem steps_stepAt (h : Inv s) (ht : t ∈ s.allList) (ha : s.enabled (.step t) = true)
    (hs : s.stepAt t (s.thread t).place = .ok s') : Steps s (.step t) s' := by
  have hloc := h.locals t ht
  generalize hp : (s.thread t).place = pl at hs hloc
  cases pl with
  | loaded success =>
    simp only [stepAt, loaded, h.parent t ht] at hs
    exact .of_turn (.loaded success hp) hs
  | executeLookup tid => exact .of_turn (.lookup tid hp) hs
  | executeInsert tid =>
    obtain ⟨hpos, rfl⟩ := hloc
    obtain ⟨c, d, hdata, -, hs⟩ := ok_of_getData hs
    have hcreate : (s.thread t).creating = some tid := by simp [hp, hpos]
    obtain ⟨-, -, hdat, -⟩ := h.awaited_of_claim ht hpos (by simp [claims, hcreate, -creating])
      (.inl hcreate) (.inl (by rw [hdata]; simp))
    obtain rfl : c = tid := some.inj (hdata.symm.trans hdat)
    rw [hdata] at hp
    exact .of_turn (.insert c hp hpos) hs
  | executeDown tid p =>
    obtain ⟨rfl, -⟩ := hloc
    obtain ⟨c, d, hc, hd, hs⟩ := ok_of_getData hs
    cases hc
    exact .of_turn (.down p d hp hd) hs
  | executeTest tid p =>
    obtain ⟨rfl, hm⟩ := hloc
    obtain ⟨c, d, hc, hd, hs⟩ := ok_of_getData hs
    cases hc
    exact .of_turn (.test p d hp hm hd) hs
  | executeReturn o r => exact .of_turn (.executeReturn o r hp) hs
  | waitFind => exact h.turn_waitFind ht hp hs
  | waitTest childTid p =>
    obtain ⟨rfl, hm⟩ := hloc
    have hplain : plain (s.thread t).place = true := by rw [hp]; rfl
    obtain ⟨d', hd', -, hf, -⟩ := h.kept_done ht (plain_kept hplain ▸ hm)
      (plain_not_awaits hplain p)
    simp only [stepAt, waitTest, getData, hd', hf, if_true] at hs
    exact .of_turn (.waitTest p hp) hs
  | waitDown => exact hloc.elim
  | waitRead childTid p =>
    obtain ⟨rfl, hm⟩ := hloc
    obtain ⟨c, d, hc, hd, hs⟩ := ok_of_getData hs
    cases hc
    exact .of_turn (.waitRead p d hp hm hd) hs
  | waitReturn c r => exact .of_turn (.waitReturn c r hp) hs
  | exit status =>
    obtain ⟨c, d, hdata, hd, hs⟩ := ok_of_getData hs
    obtain rfl := h.own t ht c hdata
    exact .of_turn (.record status d hp hd) hs
  | processExit =>
    simp only [stepAt, processExit] at hs
    split at hs
    · exact .of_turn (.processExit hp) hs
    · split at hs
      · simp at hs
      · exact .of_turn (.processExit hp) hs
  | exitChildren rest =>
    cases rest with
    | nil => exact .of_turn (.childrenDone hp) hs
    | cons p rest =>
      obtain ⟨d, hd, -, hf, -⟩ := h.kept_done (c := p) ht (by simp [hp])
        (by simp [awaits, hp])
      simp only [stepAt, exitChildren, getData, hd, hf] at hs
      exact .of_turn (.childrenNext p rest hp) hs
  | exitChild p rest finished =>
    obtain rfl : finished = true := hloc
    obtain ⟨c, d, -, -, hs⟩ := ok_of_getData hs
    exact .of_turn (.child p rest hp) hs
  | exitSelf =>
    obtain ⟨c, d, hdata, hd, hs⟩ := ok_of_getData hs
    obtain ⟨-, -, hf, -⟩ := h.own_running ht hdata hd
      (by simp [phase, ht, hp])
    rw [hf] at hs
    exact .of_turn (.self hp) hs
  | exitOwn finished =>
    obtain rfl : finished = false := hloc
    obtain ⟨c, d, hdata, hd, hs⟩ := ok_of_getData hs
    obtain rfl := h.own t ht c hdata
    exact .of_turn (.mark d hp hd) hs
  | exitUp =>
    obtain ⟨c, d, hdata, hd, hs⟩ := ok_of_getData hs
    obtain rfl := h.own t ht c hdata
    exact .of_turn (.up d hp hd) hs
  | exitRemove => exact .remove t rfl hp (Except.ok.inj hs).symm
  | startProcess | user | executePage fileName | executeCreate fileName | executeRead tid found =>
    have := (enabled_iff.mp ha).2
    simp [allows, Action.actor, hp] at this

/-- **Every step** is a turn, a birth or a removal. -/
theorem steps (h : Inv s) (ha : s.enabled a = true) (hg : harmless a = true)
    (hs : s.step a = .ok s') : Steps s a s' := by
  obtain ⟨ht, hp⟩ := enabled_iff.mp ha
  cases a with
  | load t success => exact .of_turn (.load success (of_decide_eq_true hp)) hs
  | execute t fileName => exact .of_turn (.execute fileName (of_decide_eq_true hp)) hs
  | wait t childTid => exact .of_turn (.wait childTid (of_decide_eq_true hp)) hs
  | exit t status => exact .of_turn (.exit status (of_decide_eq_true (and_eq_true_iff.mp hp).1)) hs
  | pageFault => exact .of_turn (.pageFault (of_decide_eq_true (and_eq_true_iff.mp hp).1)) hs
  | kill t cs =>
    have hpl : (s.thread t).place = .user := of_decide_eq_true (and_eq_true_iff.mp hp).1
    cases cs with
    | kernel => simp [step, kill] at hs
    | user => exact .of_turn (.kill .user hpl) hs
    | other => exact .of_turn (.kill .other hpl) hs
  | page t ok =>
    simp only [step] at hs
    cases hpl : (s.thread t).place with
    | executePage fileName =>
      rw [hpl] at hs
      cases ok with
      | true => exact .of_turn (.page fileName hpl) hs
      | false => exact .of_turn (.noPage fileName hpl) hs
    | _ => simp [allows, Action.actor, hpl] at hp
  | create t =>
    simp only [step] at hs
    cases hpl : (s.thread t).place with
    | executeCreate fileName =>
      rw [hpl] at hs
      obtain ⟨-, hnot, hfree, -⟩ := h.next_unborn ht
      rcases born_of_create (fun hx => hnot (hx ▸ ht)) hfree hs with
        ⟨rfl, rfl⟩ | ⟨rfl, hb⟩ | ⟨rfl, hb⟩
      · exact .turn _ _ (.noThread fileName hpl) rfl
      · exact .noData t fileName rfl hpl hb
      · obtain ⟨hn, hd⟩ := created_clean hs
        exact .created t fileName rfl hpl hn hb hd
    | _ => simp [allows, Action.actor, hpl] at hp
  | read t =>
    simp only [step] at hs
    cases hpl : (s.thread t).place with
    | executeRead =>
      rw [hpl] at hs
      exact h.turn_executeRead ht hpl (fun u hu => by rw [hu] at hg; simp [harmless] at hg) hs
    | _ => simp [allows, Action.actor, hpl] at hp
  | step => exact h.steps_stepAt ht ha hs

/-! ## Turns keep the invariant -/

section Keep

variable {th : Process} {cd : Int → Option ChildData} {c : Int}

section

variable (h : Inv s)
include h

section

variable (ht : t ∈ s.allList) {d : ChildData}
include ht

theorem put_go (hdata : th.data = (s.thread t).data) (hparent : th.parent = (s.thread t).parent)
    (hlist : th.childProcesses = (s.thread t).childProcesses)
    (hp : plain (s.thread t).place = true) (hp' : plain th.place = true)
    (hrec : ∀ c, SameRecord (s.childData c) (cd c))
    (hloc : LocalsAt (s.put t th cd) t th.place) : Inv (s.put t th cd) := by
  refine h.put_plain ht hdata hparent hlist ?_ hrec hloc
  rw [plain_view hp', plain_view hp, hlist]

theorem put_insert (hpos : 0 < c) (hp : (s.thread t).place = .executeInsert c (some c)) :
    Inv (s.put t { s.thread t with
        childProcesses := (s.thread t).childProcesses ++ [c], place := .executeDown c c }
      s.childData) := by
  have hloc := h.locals t ht
  rw [hp] at hloc
  have hcreate : (s.thread t).creating = some c := by simp [hp, hpos]
  have hdown : (s.thread t).downOf = none := by simp [hp]
  have hkept : (s.thread t).kept = (s.thread t).childProcesses := by simp [hp]
  obtain ⟨d, hn, hdat, hd, hpid, hg, hq⟩ := h.awaited_of_claim ht hpos
    (by simp [claims, hcreate, -creating]) (.inl hcreate) (.inl (by rw [← hloc.2]; simp))
  have hclaims : (s.thread t).childProcesses.count c = 0 := by
    have := hq t ht
    rw [if_pos rfl, claims, if_pos hcreate, hkept] at this
    omega
  refine h.put rfl rfl ?_ (fun c' hc' => hc') ⟨rfl, by simp⟩ fun c' hc' => ?_
  · intro c' hc'
    rcases mem_append.mp hc' with hx | hx
    · exact h.positive t ht c' hx
    · rw [mem_singleton.mp hx]; exact hpos
  · by_cases hcc : c' = c
    · subst hcc
      -- the claim moves from the local variable to the list
      refine .awaited t d hn ht ?_ (Eq.trans (put_data (by rfl) c') hdat) hd hpid ?_ ?_
      · rw [put_thread_self]
        exact .inr rfl
      · rwa [put_phase (by simp [hp])]
      · refine forall_put (P := fun q p => p.claims c' = if q = t then 1 else 0) (fun _ => ?_)
          fun q hqm _ => hq q hqm
        simp [claims, count_append, hclaims]
    · refine (h.child c' hc').put (SameRecord.refl _) (SameFor.of_eq ?_ ?_ ?_) rfl ?_
      · have hne : c ≠ c' := fun hx => hcc hx.symm
        simp [hp, count_append, hne]
      · rw [hcreate]
        simp [Ne.symm hcc]
      · rw [hdown]
        simp [Ne.symm hcc]
      · intro _
        simp [hp]

theorem put_down (hp : (s.thread t).place = .executeDown c c) (hd : s.childData c = some d)
    (hv : 0 < d.waitSema) : Inv (s.put t { s.thread t with place := .executeTest c c }
      (update s.childData c (some { d with waitSema := d.waitSema - 1 }))) := by
  have hloc := h.locals t ht
  rw [hp] at hloc
  have hm := hloc.2
  have hkept : c ∈ (s.thread t).kept := by simpa [kept, hp] using hm
  obtain ⟨d', hn, -, hd', hpid, hg, hcl⟩ := h.awaited_of_claim ht (h.positive t ht c hm)
    (claims_ne_zero_of_kept hkept) (.inr (by simp [hp])) (.inr hkept)
  obtain rfl := some.inj (hd'.symm.trans hd)
  refine h.put rfl rfl (h.positive t ht) (fun c hc => hc) ⟨rfl, by simpa using hm⟩ fun c' hc' => ?_
  by_cases hcc : c' = c
  · subst hcc
    -- the unit was put there by the child on its way out
    generalize hf : d'.finished = f at hg
    generalize hw' : d'.waitSema = v at hg hv
    generalize hph : s.phase c' = ph at hg
    cases hg with
    | running | marked => omega
    | gone =>
      refine .done t _ hn ht ?_ (update_self ..) hpid rfl ?_ ?_ ?_
      · rw [put_thread_self]
        simp [awaits]
      · rfl
      · rwa [put_phase (by simp [hp])]
      · refine forall_put (P := fun q p => p.claims c' = if q = t then 1 else 0) (fun _ => ?_)
          fun q hqm _ => hcl q hqm
        simpa [claims, creating, kept, hp] using hcl t ht
  · refine (h.child c' hc').put ?_ (SameFor.of_eq ?_ ?_ ?_) rfl ?_
    · simp [SameRecord, hcc]
    · simp [hp]
    · simp [hp]
    · simp [hp, Ne.symm hcc]
    · intro _
      simp [hp]

/-- A parent that keeps a finished record frees it, and can reach it no more. -/
theorem put_free (hk : c ∈ (s.thread t).kept) (hw : ¬ (s.thread t).awaits c)
    (hdata : th.data = (s.thread t).data) (hparent : th.parent = (s.thread t).parent)
    (hpos : ∀ c ∈ th.childProcesses, 0 < c) (hkept : ∀ c ∈ th.kept, c ∈ th.childProcesses)
    (hone : th.claims c + 1 = (s.thread t).claims c)
    (hsame : ∀ c', c' ≠ c → SameFor c' (s.thread t) th)
    (hph : th.place.phase = (s.thread t).place.phase)
    (hloc : LocalsAt (s.put t th (update s.childData c none)) t th.place) :
    Inv (s.put t th (update s.childData c none)) := by
  obtain ⟨d, hd, -, -, -, hgone, hn, hcl⟩ := h.kept_done ht hk hw
  refine h.put hdata hparent hpos hkept hloc fun c' hc' => ?_
  by_cases hcc : c' = c
  · subst hcc
    refine .freed hn (by simp) ((put_phase hph c').trans hgone) ?_
    refine forall_put (P := fun _ p => p.claims c' = 0) (fun _ => ?_) fun q hq hqt => ?_
    · have := hcl t ht
      rw [if_pos rfl] at this
      omega
    · rw [hcl q hq, if_neg hqt]
  · exact (h.child c' hc').put (by simp [SameRecord, hcc]) (hsame c' hcc) hdata fun _ => hph

theorem put_waitRead {r : Int}
    (hp : (s.thread t).place = .waitRead c c) (hm : c ∈ (s.thread t).childProcesses) :
    Inv (s.put t { s.thread t with
        childProcesses := (s.thread t).childProcesses.erase c, place := .waitReturn c r }
      (update s.childData c none)) := by
  have hplain : plain (s.thread t).place = true := by rw [hp]; rfl
  refine h.put_free ht (plain_kept hplain ▸ hm) (plain_not_awaits hplain c) rfl rfl ?_
    (fun c hc => hc) ?_ (fun c' hc => SameFor.of_eq ?_ ?_ ?_) ?_ trivial
  · intro c' hc
    exact h.positive t ht c' (mem_of_mem_erase hc)
  · have hcount := count_pos_iff.mpr hm
    simp only [claims, creating, kept, hp, count_erase_self]
    simp only [reduceCtorEq, if_false]
    omega
  · simp [hp, count_erase_of_ne hc]
  · simp [hp]
  · simp [hp]
  · simp [hp]

theorem put_exitChild {rest : List Int} (hp : (s.thread t).place = .exitChild c rest true) :
    Inv (s.put t { s.thread t with place := .exitChildren rest } (update s.childData c none)) := by
  have hkept : (s.thread t).kept = c :: rest := by simp [hp]
  refine h.put_free ht (by rw [hkept]; exact mem_cons_self ..)
    (by simp [awaits, hp]) rfl rfl (h.positive t ht) ?_ ?_
    (fun c' hc => SameFor.of_eq ?_ ?_ ?_) ?_ trivial
  · intro c' hc
    exact h.keptOf t ht c' (by rw [hkept]; exact mem_cons_of_mem _ hc)
  · simp [claims, hp]
  · have hne : c ≠ c' := fun hx => hc hx.symm
    simp [hp, hne]
  · simp [hp]
  · simp [hp]
  · simp [hp]

/-- A child on its way out writes its own record, and goes on in the phase that fits. -/
theorem put_own {d' : ChildData} {pl : Place} (hd : s.childData t = some d) (hpid : d'.pid = d.pid)
    (hkept : ({ s.thread t with place := pl } : Process).kept = (s.thread t).kept)
    (hcreate : ({ s.thread t with place := pl } : Process).creating = (s.thread t).creating)
    (hdown : ({ s.thread t with place := pl } : Process).downOf = (s.thread t).downOf)
    {g : Phase} (hph : (s.thread t).place.phase = g) (hout : g ≠ .gone)
    (hg : Progress d.finished d.waitSema g → Progress d'.finished d'.waitSema pl.phase)
    (hloc : LocalsAt (s.put t { s.thread t with place := pl }
      (update s.childData t (some d'))) t pl) :
    Inv (s.put t { s.thread t with place := pl } (update s.childData t (some d'))) := by
  have hsame : ∀ c, SameFor c (s.thread t) { s.thread t with place := pl } := fun c =>
    SameFor.of_eq (by rw [hkept]) (by rw [hcreate]) (by rw [hdown])
  have hphase : s.phase t = g := by rwa [phase, if_pos ht]
  refine h.put rfl rfl (h.positive t ht) ?_ hloc fun c hc => ?_
  · rw [hkept]
    exact h.keptOf t ht
  by_cases hct : c = t
  · subst hct
    cases h.child c hc with
    | unborn _ _ hx _ | bare _ _ _ hx _ _ | freed _ hx _ _ => rw [hx] at hd; simp at hd
    | awaited p e hn hp hw hdata he hpid' hg' hq =>
      obtain rfl := some.inj (he.symm.trans hd)
      refine .awaited p d' hn hp ?_ (Eq.trans (put_data (by rfl) c) hdata) (by simp)
        (hpid.trans hpid') ?_ ?_
      · exact forall_put (P := fun q th => (s.thread q).awaits c → th.awaits c)
          (fun _ => (hsame c).awaits.mpr) (fun _ _ _ => id) p hp hw
      · rw [put_phase_self ht]
        exact hg (hphase ▸ hg')
      · exact forall_put (P := fun q th => th.claims c = if q = p then 1 else 0)
          (fun _ => (hsame c).claims.trans (hq c ht)) fun q hqm _ => hq q hqm
    | done _ _ _ _ _ _ _ _ _ hgone => exact absurd (hphase.symm.trans hgone) hout
  · exact (h.child c hc).put (by simp [SameRecord, hct]) (hsame c) rfl fun hx => absurd hx hct

/-- **A turn** keeps the invariant, if `process_wait` finds children only and no `sema_down` goes
    below 0. -/
theorem turn (hturn : Turn s t a th cd)
    (hfind : ∀ c, (s.thread t).place = .waitFind c → th.place = .waitTest c c →
      c ∈ (s.thread t).childProcesses)
    (hdown : ∀ c, (s.thread t).place = .executeDown c c → s.canDown c = true) :
    Inv (s.put t th cd) := by
  have hsame : ∀ c, SameRecord (s.childData c) (s.childData c) := fun c => SameRecord.refl _
  have hloc := h.locals t ht
  cases hturn with
  | load _ hp | execute _ hp | wait _ hp | exit _ hp | pageFault hp | kill _ hp | page _ hp
  | noPage _ hp | test _ _ hp | executeReturn _ _ hp | findNone _ hp | waitReturn _ _ hp =>
    exact h.put_go ht rfl rfl rfl (by rw [hp]; rfl) rfl hsame trivial
  | loaded success hp =>
    cases success <;> exact h.put_go ht rfl rfl rfl (by rw [hp]; rfl) rfl hsame trivial
  | noThread _ hp | processExit hp | childrenDone hp | childrenNext _ _ hp | self hp =>
    refine h.put_plain ht rfl rfl rfl ?_ hsame (by trivial)
    simp [view, hp, tidError]
  | lookup tid hp =>
    refine h.put_plain ht rfl rfl rfl ?_ hsame fun c hc => ?_
    · simp [view, hp]
    · have heq : c = tid := by simpa using find?_some hc
      exact ⟨heq, (h.range c (mem_of_find?_eq_some hc)).1⟩
  | read tid hp hpos =>
    refine h.put_plain ht rfl rfl rfl ?_ hsame ⟨hpos, Eq.symm (put_data (by rfl) tid)⟩
    simp [view, hp]
  | find c hp =>
    exact h.put_go ht rfl rfl rfl (by rw [hp]; rfl) rfl hsame ⟨rfl, by simpa using hfind c hp rfl⟩
  | waitTest c hp =>
    rw [hp] at hloc
    exact h.put_go ht rfl rfl rfl (by rw [hp]; rfl) rfl hsame ⟨rfl, by simpa using hloc.2⟩
  | record status d hp hd =>
    refine h.put_go ht rfl rfl rfl (by rw [hp]; rfl) rfl (fun c => ?_) trivial
    -- only the status is written
    by_cases hc : c = t
    · subst hc
      simp [SameRecord, hd]
    · simp [SameRecord, hc]
  | insert c hp hpos => exact h.put_insert ht hpos hp
  | down c d hp hd => exact h.put_down ht hp hd (by simpa [canDown, hd] using hdown c hp)
  | waitRead c d hp hm => exact h.put_waitRead ht hp hm
  | child c rest hp => exact h.put_exitChild ht hp
  | mark d hp hd =>
    refine h.put_own (g := .running) ht hd rfl ?_ ?_ ?_ ?_ (by simp) .mark trivial <;>
      simp [hp]
  | up d hp hd =>
    refine h.put_own (g := .marked) ht hd rfl ?_ ?_ ?_ ?_ (by simp) .up trivial <;>
      simp [hp]

end

end

end Keep

/-- A thread that leaves `all_list` has no claims. -/
theorem exitRemove (h : Inv s) (ht : t ∈ s.allList)
    (hp : (s.thread t).place = .exitRemove) : Inv (s.exitRemove t) := by
  have hmem : ∀ q, q ∈ (s.exitRemove t).allList ↔ q ≠ t ∧ q ∈ s.allList := fun q =>
    h.nodup.mem_erase_iff
  have hsub : ∀ q ∈ (s.exitRemove t).allList, q ∈ s.allList := fun q hq => ((hmem q).mp hq).2
  have hnone : ∀ c, (s.thread t).claims c = 0 := by
    intro c
    simp [claims, hp]
  have hgone : s.phase t = .gone := by simp [phase, ht, hp]
  have hphase : ∀ c, (s.exitRemove t).phase c = s.phase c := by
    intro c
    by_cases hc : c = t
    · subst hc
      rw [hgone, Processes.phase, if_neg fun hx => ((hmem c).mp hx).1 rfl]
    · simp [Processes.phase, hc, Processes.exitRemove]
  refine ⟨fun q hq => h.range q (hsub q hq), h.nodup.erase t, fun q hq => h.own q (hsub q hq),
    fun q hq => h.parent q (hsub q hq), fun q hq => h.positive q (hsub q hq),
    fun q hq => h.keptOf q (hsub q hq), fun q hq => h.locals q (hsub q hq), fun c hc => ?_⟩
  refine (h.child c hc).move Iff.rfl (fun hx hy => hx (hsub c hy)) (fun hx hrun => ?_)
    (SameRecord.refl _) (fun q _ _ => SameFor.refl c _) (fun q hq hx => absurd (hsub q hq) hx)
    (fun q hq hclaim => ?_) (hphase c) rfl
  · grind
  · -- the holder of a record is somebody else
    refine (hmem q).mpr ⟨?_, hq⟩
    rintro rfl
    exact hclaim (hnone c)

/-- **A birth** keeps the invariant. -/
theorem born (h : Inv s) (ht : t ∈ s.allList) {data : DataRef}
    (hp : (s.thread t).place = .executeCreate fileName) (hb : Born s t data s') : Inv s' := by
  obtain ⟨hnpos, hnot, -, hnq⟩ := h.next_unborn ht
  have hmem := hb.mem_iff
  have hne : ∀ q ∈ s.allList, q ≠ s.nextTid := fun q hq hx => hnot (hx ▸ hq)
  -- every thread keeps its list and its phase, and awaits nothing but the child
  have hlist : ∀ q ∈ s'.allList, q ∈ s.allList →
      (s'.thread q).childProcesses = (s.thread q).childProcesses ∧
      (s'.thread q).kept = (s.thread q).kept ∧
      (s'.thread q).place.phase = (s.thread q).place.phase ∧
      ∀ c, c ≠ s.nextTid → SameFor c (s.thread q) (s'.thread q) := by
    refine hb.forall hnot (P := fun q p => q ∈ s.allList →
      p.childProcesses = (s.thread q).childProcesses ∧ p.kept = (s.thread q).kept ∧
      p.place.phase = (s.thread q).place.phase ∧
      ∀ c, c ≠ s.nextTid → SameFor c (s.thread q) p) ?_ (fun hx => absurd hx hnot)
      fun q _ _ _ => ⟨rfl, rfl, rfl, fun c _ => SameFor.refl c _⟩
    intro _ _
    refine ⟨rfl, by simp [hp], by simp [hp], fun c hc => ?_⟩
    refine SameFor.of_eq ?_ ?_ ?_
    · simp [hp]
    · simp [hp, hnpos, Ne.symm hc]
    · simp [hp]
  refine ⟨?_, ?_, ?_, ?_, ?_, ?_, ?_, fun c hc => ?_⟩
  · intro q hq
    rw [hb.nextTid]
    rcases (hmem q).mp hq with hq | rfl
    · have := h.range q hq
      omega
    · omega
  · rw [hb.allList]
    exact nodup_append.mpr ⟨h.nodup, by simp, by
      intro x hx y hy
      rw [mem_singleton.mp hy]
      exact hne x hx⟩
  · refine hb.forall hnot (P := fun q p => ∀ c, p.data = some c → c = q) (h.own t) (fun c hc => ?_)
      fun q hq _ => h.own q hq
    rcases hb.record with ⟨hd, -⟩ | ⟨hd, -⟩
    · rw [hd] at hc; simp at hc
    · rw [hd] at hc; exact (some.inj hc).symm
  · exact hb.forall hnot (P := fun _ p => p.parent = none) (h.parent t) rfl
      fun q hq _ => h.parent q hq
  · exact hb.forall hnot (P := fun _ p => ∀ c ∈ p.childProcesses, 0 < c) (h.positive t) (by simp)
      fun q hq _ => h.positive q hq
  · refine hb.forall hnot (P := fun _ p => ∀ c ∈ p.kept, c ∈ p.childProcesses) (fun _ c hc => hc)
      (by simp) fun q hq _ => h.keptOf q hq
  · refine hb.forall hnot (P := fun q p => LocalsAt s' q p.place) (fun _ => trivial) trivial
      fun q hq hqt => (h.locals q hq).move ?_ fun tid o hpl => hb.data_eq ?_
    · rw [hb.others q hqt (hne q hq)]
    · -- the child it is about to insert is not the new one
      have hloc := h.locals q hq
      rw [hpl] at hloc
      have := h.creating_lt hq (c := tid) (by simp [hpl, hloc.1])
      omega
  · by_cases hcn : c = s.nextTid
    · subst hcn
      have hin : s.nextTid ∈ s'.allList := (hmem _).mpr (.inr rfl)
      have hrun : s'.phase s.nextTid = .running := by
        unfold phase
        rw [if_pos hin, hb.child]
        rfl
      have hlt : s.nextTid < s'.nextTid := by rw [hb.nextTid]; omega
      -- the creator alone can reach the new record
      have hkept : ∀ q ∈ s'.allList, (s'.thread q).kept.count s.nextTid = 0 := by
        intro q hq
        rcases (hmem q).mp hq with hm | rfl
        · have := hnq q hm
          unfold claims at this
          rw [(hlist q hq hm).2.1]
          omega
        · rw [hb.child]
          rfl
      rcases hb.record with ⟨hd, hrec⟩ | ⟨hd, d, hrec, hpid, hf, hv⟩
      · exact .bare hlt hin (by rw [hb.child, hd]) hrec hrun hkept
      refine .awaited t d hlt ((hmem t).mpr (.inl ht)) ?_ (by rw [hb.child, hd]) hrec hpid ?_ ?_
      · rw [hb.parent]
        exact .inl (by simp [hnpos])
      · rw [hf, hv, hrun]
        exact .running
      refine fun q hq => ?_
      have hcr : (s'.thread q).creating = some s.nextTid ↔ q = t := by
        refine hb.forall hnot (P := fun q p => p.creating = some s.nextTid ↔ q = t)
          (fun _ => ?_) ?_ (fun q hq hqt => ?_) q hq
        · simp [hnpos]
        · simp [(hne t ht).symm]
        · have := hnq q hq
          unfold claims at this
          refine ⟨fun hx => ?_, fun hx => absurd hx hqt⟩
          rw [if_pos hx] at this
          omega
      simp only [claims, hkept q hq, hcr]
      rfl
    · refine (h.child c hc).move (by rw [hb.nextTid]; omega) (fun hx hy => ?_)
        (fun hx _ => (hmem c).mpr (.inl hx)) ?_ (fun q hq hq' => (hlist q hq' hq).2.2.2 c hcn)
        (fun q hq hx => ?_) (fun q hq _ => (hmem q).mpr (.inl hq)) ?_ (hb.data_eq hcn)
      · exact ((hmem c).mp hy).elim hx hcn
      · rw [hb.records c hcn]
        exact SameRecord.refl _
      · obtain rfl := ((hmem q).mp hq).resolve_left hx
        rw [hb.child]
        rfl
      · unfold phase
        by_cases hx : c ∈ s.allList
        · have hx' := (hmem c).mpr (.inl hx)
          rw [if_pos hx, if_pos hx', (hlist c hx' hx).2.2.1]
        · rw [if_neg hx, if_neg fun hy => ((hmem c).mp hy).elim hx hcn]

theorem init : Inv boot := by
  have hmem : ∀ q, q ∈ boot.allList ↔ q = mainTid := fun q => mem_singleton
  refine ⟨?_, by simp [boot], ?_, ?_, ?_, ?_, ?_, fun c hc => ?_⟩
  · intro q hq
    rw [(hmem q).mp hq]
    decide
  · intro q _ c hc
    simp [boot] at hc
  · intro q _
    rfl
  · intro q _ c hc
    exact absurd hc not_mem_nil
  · intro q _ c hc
    exact hc
  · intro q _
    exact trivial
  · -- the initial thread has no record, the idle thread and everybody else is not there
    by_cases h3 : 3 ≤ c
    · exact .unborn h3 (fun hx => by rw [(hmem c).mp hx] at h3; exact absurd h3 (by decide)) rfl
        fun q _ => rfl
    by_cases h1 : c = mainTid
    · subst h1
      exact .bare (by decide) ((hmem _).mpr rfl) rfl rfl rfl fun q _ => rfl
    have hlt : c < boot.nextTid := by
      show c < 3
      omega
    refine .freed hlt rfl ?_ fun q _ => rfl
    unfold phase
    rw [if_neg fun hx => h1 ((hmem c).mp hx)]

/-- **One step** keeps the invariant. -/
theorem step (h : Inv s) (ha : s.enabled a = true) (hg : harmless a = true)
    (hs : s.step a = .ok s') : Inv s' := by
  obtain ⟨ht, hal⟩ := enabled_iff.mp ha
  cases h.steps ha hg hs with
  | turn th cd hturn hput =>
    subst hput
    generalize a.actor = t at *
    refine h.turn ht hturn (fun c hp hpl => ?_) fun c hp => ?_
    · obtain rfl := hturn.eq_step (.inl ⟨c, hp⟩)
      simp only [step, hp, stepAt] at hs
      exact mem_of_waitFind hs (by rwa [put_thread_self])
    · obtain rfl := hturn.eq_step (.inr ⟨c, hp⟩)
      simpa [allows, hp] using hal
  | noData t fileName hx hp hb | created t fileName hx hp _ hb _ =>
    subst hx
    exact h.born ht hp hb
  | remove t hx hp hrm =>
    subst hx
    subst hrm
    exact h.exitRemove ht hp

end Inv

end Pintos.Userprog
