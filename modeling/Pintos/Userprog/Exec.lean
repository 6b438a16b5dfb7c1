/-
  `process_execute`: the hand-shake between a parent and the child it has just created.

  Three things can go wrong (`process_execute_fails`):

  1. a failed `thread_create` returns -1, no thread has that `tid`, and the null result of
     `thread_by_tid` is followed; so it is if the child has already left `all_list`;
  2. `child_thread` is never initialised, and may be null itself;
  3. a child that loads and later exits with -1 looks like one that did not load.

  **The theorem** (`execute_protocol`) — on every run without these, no step inside
  `process_execute` faults, every child created is inserted exactly once, and -1 is returned
  exactly if the page could not be had or `load` failed.
-/
import Pintos.Userprog.Wait

namespace Pintos.Userprog

open Base Processes Process Option Userprog.Action

/-! ## The condition -/

/-- A thread at this place has yet to follow a pointer to thread `c`. -/
def Place.looksFor : Place → Int → Bool
  | .executeLookup tid, c | .executeRead tid _, c => tid = c
  | _, _ => false

/-- **The condition on a step**: `thread_create` succeeds, `child_thread` points at memory of
    nobody's, command lines name a program, a process that has loaded does not exit with -1, and no
    child leaves `all_list` before its parent has looked it up. -/
def executeOk (s : Processes) : Action → Bool
  | .create _ cr => cr = .created
  | .read _ g => g = .elsewhere
  | .execute _ fileName => (firstToken fileName).isSome
  | .exit _ status => status ≠ badExit
  | .pageFault _ => false
  | .step t => (s.thread t).place ≠ .exitRemove ||
      s.allList.all fun p => !(s.thread p).place.looksFor t
  | _ => true

/-- A bound on the steps a thread inside `process_execute` has left up to the return. -/
def Place.executing : Place → Option Nat
  | .executePage _ => some 7
  | .executeCreate _ => some 6
  | .executeLookup _ => some 5
  | .executeRead _ _ => some 4
  | .executeInsert _ _ => some 3
  | .executeDown _ _ => some 2
  | .executeTest _ _ => some 1
  | .executeReturn _ _ => some 0
  | _ => none

/-! ## Parents find their children -/

/-- What the condition adds to the invariant. -/
structure Seeks (s : Processes) : Prop where
  /-- A child that is yet to be looked up is there. -/
  present : ∀ p ∈ s.allList, ∀ c, (s.thread p).place.looksFor c = true → 0 < c ∧ c ∈ s.allList
  found : ∀ p ∈ s.allList, ∀ c o, (s.thread p).place = .executeRead c o → o = some c
  data : ∀ p ∈ s.allList, ∀ c, (s.thread p).creating = some c → (s.thread c).data = some c
  named : ∀ p ∈ s.allList, ∀ fileName, (s.thread p).place = .executePage fileName ∨
    (s.thread p).place = .executeCreate fileName → firstToken fileName ≠ none

variable {s : Processes} {c : Int} {th : Process} {tr : List (Processes × Action)}

theorem threadByTid_of_mem (h : c ∈ s.allList) : s.threadByTid c = some c := by
  unfold threadByTid
  cases hf : s.allList.find? (· = c) with
  | none =>
    have := List.find?_eq_none.mp hf c h
    simp at this
  | some x =>
    have hx : x = c := by simpa using List.find?_some hf
    rw [hx]

theorem Turn.data {t : Int} {a : Action}
    {cd : Int → Option ChildData} (h : Turn s t a th cd) : th.data = (s.thread t).data := by
  cases h <;> rfl

namespace Seeks

variable {s s' : Processes} {t : Int} {a : Action}

attribute [local simp] Place.looksFor actor allows creating

theorem init : Seeks boot := by
  refine ⟨fun p _ c hc => ?_, fun p _ c o hp => ?_, fun p _ c hc => ?_, fun p _ fn hp => ?_⟩
  · simp [boot] at hc
  · simp [boot] at hp
  · simp [boot] at hc
  · simp [boot] at hp

variable {cd : Int → Option ChildData} {n : Nat} {o : DataRef} {tid : Int}

theorem put (h : Seeks s) (hdata : th.data = (s.thread t).data)
    (h1 : ∀ c, th.place.looksFor c = true → 0 < c ∧ c ∈ s.allList)
    (h2 : ∀ c o, th.place = .executeRead c o → o = some c)
    (h3 : ∀ c, th.creating = some c → (s.thread c).data = some c)
    (h4 : ∀ fileName, th.place = .executePage fileName ∨ th.place = .executeCreate fileName →
      firstToken fileName ≠ none) : Seeks (s.put t th cd) := by
  refine ⟨?_, ?_, ?_, ?_⟩
  · exact forall_put (P := fun _ p => ∀ c, p.place.looksFor c = true → 0 < c ∧ c ∈ s.allList)
      (fun _ => h1) fun p hp _ => h.present p hp
  · exact forall_put (P := fun _ p => ∀ c o, p.place = .executeRead c o → o = some c)
      (fun _ => h2) fun p hp _ => h.found p hp
  · intro p hp c hc
    rw [put_data hdata]
    exact forall_put (P := fun _ p => ∀ c, p.creating = some c → (s.thread c).data = some c)
      (fun _ => h3) (fun p hp _ => h.data p hp) p hp c hc
  · exact forall_put (P := fun _ p => ∀ fn, p.place = .executePage fn ∨
      p.place = .executeCreate fn → firstToken fn ≠ none) (fun _ => h4) fun p hp _ => h.named p hp

/-- Places where nothing is looked for. -/
def Quiet (th : Process) : Prop :=
  (∀ c, th.place.looksFor c = false) ∧ (∀ c o, th.place ≠ .executeRead c o) ∧
  th.creating = none ∧ (∀ fn, th.place ≠ .executePage fn ∧ th.place ≠ .executeCreate fn)

section

variable (h : Seeks s)
include h

theorem put_quiet
    (hdata : th.data = (s.thread t).data) (hc : Quiet th) : Seeks (s.put t th cd) := by
  obtain ⟨h1, h2, h3, h4⟩ := hc
  refine h.put hdata (fun c hx => ?_) (fun c o hx => absurd hx (h2 c o)) (fun c hx => ?_)
    fun fn hx => ?_
  · rw [h1 c] at hx
    simp at hx
  · rw [h3] at hx
    simp at hx
  · rcases hx with hx | hx
    · exact absurd hx (h4 fn).1
    · exact absurd hx (h4 fn).2

/-- **A turn** keeps every child to be looked up in place. -/
theorem turn (ht : t ∈ s.allList)
    (hturn : Turn s t a th cd) (hok : executeOk s a = true) : Seeks (s.put t th cd) := by
  have hdata := hturn.data
  cases hturn with
  | execute fileName =>
    refine h.put hdata (by simp) (by simp) (by simp)
      fun fn hx => ?_
    obtain rfl : fileName = fn := by simpa using hx
    have hsome : (firstToken fileName).isSome = true := hok
    exact isSome_iff_ne_none.mp hsome
  | page fileName hp =>
    refine h.put hdata (by simp) (by simp) (by simp)
      fun fn hx => ?_
    obtain rfl : fileName = fn := by simpa using hx
    exact h.named t ht fileName (.inl hp)
  | lookup tid hp =>
    obtain ⟨hpos, hm⟩ := h.present t ht tid (by simp [hp])
    refine h.put hdata (fun c hx => ?_) (fun c o hx => ?_) (fun c hx => ?_) (by simp)
    · obtain rfl : tid = c := by simpa [Place.looksFor] using hx
      exact ⟨hpos, hm⟩
    · obtain ⟨rfl, rfl⟩ : tid = c ∧ s.threadByTid tid = o := by simpa using hx
      exact threadByTid_of_mem hm
    · refine h.data t ht c ?_
      simpa [creating, hp] using hx
  | read tid hp =>
    refine h.put hdata ?_ ?_ (fun c hx => ?_) (by simp)
    · simp
    · simp
    · refine h.data t ht c ?_
      simpa [creating, hp] using hx
  | noThread => exact absurd hok (by simp [executeOk])
  | loaded success =>
    refine h.put_quiet hdata ?_
    cases success <;> simp [Quiet]
  | _ => exact h.put_quiet hdata (by simp [Quiet])

/-- **A birth**: the parent looks for the child it has just made. -/
theorem birth (hinv : Inv s) (ht : t ∈ s.allList)
    (hb : Inv.Born s t (some s.nextTid) s') : Seeks s' := by
  obtain ⟨hnpos, hnot, -, -⟩ := hinv.next_unborn ht
  refine ⟨?_, ?_, ?_, ?_⟩
  · refine hb.forall hnot (P := fun _ p => ∀ c, p.place.looksFor c = true → 0 < c ∧ c ∈ s'.allList)
      (fun _ c hc => ?_) ?_ fun p hpm _ c hc => ?_
    · obtain rfl : s.nextTid = c := by simpa [Place.looksFor] using hc
      exact ⟨hnpos, (hb.mem_iff _).mpr (.inr rfl)⟩
    · simp
    · obtain ⟨h1, h2⟩ := h.present p hpm c hc
      exact ⟨h1, (hb.mem_iff c).mpr (.inl h2)⟩
  · exact hb.forall hnot (P := fun _ p => ∀ c o, p.place = .executeRead c o → o = some c)
      (by simp) (by simp) fun p hpm _ => h.found p hpm
  · refine hb.forall hnot (P := fun _ p => ∀ c, p.creating = some c → (s'.thread c).data = some c)
      (fun _ c hc => ?_) (by simp) fun p hpm _ c hc => ?_
    · obtain ⟨-, rfl⟩ : 0 < s.nextTid ∧ s.nextTid = c := by simpa [creating] using hc
      rw [hb.child]
    · have hlt := hinv.creating_lt hpm hc
      rw [hb.data_eq (by omega)]
      exact h.data p hpm c hc
  · exact hb.forall hnot (P := fun _ p => ∀ fn, p.place = .executePage fn ∨
      p.place = .executeCreate fn → firstToken fn ≠ none) (by simp) (by simp)
      fun p hpm _ => h.named p hpm

/-- **A removal** is not that of a child to be looked up. -/
theorem remove (hinv : Inv s) (hp : (s.thread t).place = .exitRemove)
    (hok : executeOk s (.step t) = true) : Seeks (s.exitRemove t) := by
  have hfree : ∀ p ∈ s.allList, (s.thread p).place.looksFor t = false := by
    simpa [executeOk, hp] using hok
  have hsub : ∀ q ∈ (s.exitRemove t).allList, q ∈ s.allList := fun q hq => List.mem_of_mem_erase hq
  refine ⟨fun p hpm c hc => ?_, fun p hpm => h.found p (hsub p hpm),
    fun p hpm => h.data p (hsub p hpm), fun p hpm => h.named p (hsub p hpm)⟩
  obtain ⟨hpos, hm⟩ := h.present p (hsub p hpm) c hc
  refine ⟨hpos, hinv.nodup.mem_erase_iff.mpr ⟨?_, hm⟩⟩
  rintro rfl
  have hx := hfree p (hsub p hpm)
  have hc' : (s.thread p).place.looksFor c = true := hc
  rw [hx] at hc'
  simp at hc'

/-- **One step** that meets the condition. -/
theorem step (hinv : Inv s) (ha : s.enabled a = true)
    (hok : executeOk s a = true) (hg : harmless a = true) (hs : s.step a = .ok s') : Seeks s' := by
  obtain ⟨ht, -⟩ := enabled_iff.mp ha
  cases hinv.steps ha hg hs with
  | turn th cd hturn hput => rw [hput]; exact h.turn ht hturn hok
  | noData t fileName hx =>
    subst hx
    simp [executeOk] at hok
  | created t fileName hx hp _ hb =>
    subst hx
    exact h.birth hinv ht hb
  | remove t hx hp hrm =>
    subst hx
    rw [hrm]
    exact h.remove hinv hp hok

end

/-! ## No step of `process_execute` faults -/

theorem creating_of_insert (hinv : Inv s) (ht : t ∈ s.allList)
    (hp : (s.thread t).place = .executeInsert c o) : (s.thread t).creating = some c := by
  have hloc := hinv.locals t ht
  rw [hp] at hloc
  simp [hp, hloc.1]

/-- The record a parent is about to insert is there. -/
theorem insert_data (h : Seeks s) (hinv : Inv s) (ht : t ∈ s.allList)
    (hp : (s.thread t).place = .executeInsert c o) : o = some c ∧ ∃ d, s.childData c = some d := by
  have hloc := hinv.locals t ht
  rw [hp] at hloc
  have hcr := creating_of_insert hinv ht hp
  have hdata := h.data t ht c hcr
  obtain ⟨d, -, -, hd, -⟩ := hinv.awaited_of_claim ht hloc.1
    (by simp [claims, hcr, -creating]) (.inl hcr) (by simp [hdata])
  exact ⟨hloc.2.trans hdata, d, hd⟩

theorem gone_unit {finished : Bool} (h : Progress finished n .gone) : 0 < n := by
  cases h
  omega

/-- So is the record it waits on, and one whose child is gone holds a unit. -/
theorem down_data (hinv : Inv s) (ht : t ∈ s.allList)
    (hp : (s.thread t).place = .executeDown tid c) :
    ∃ d, s.childData c = some d ∧ (s.phase c = .gone → 0 < d.waitSema) := by
  have hloc := hinv.locals t ht
  rw [hp] at hloc
  obtain ⟨rfl, hm⟩ := hloc
  have hkept : c ∈ (s.thread t).kept := by simpa [kept, hp] using hm
  obtain ⟨d, -, -, hd, -, hg, -⟩ := hinv.awaited_of_claim ht (hinv.positive t ht c hm)
    (Inv.claims_ne_zero_of_kept hkept) (.inr (by simp [downOf, hp])) (.inr hkept)
  refine ⟨d, hd, fun hgone => ?_⟩
  rw [hgone] at hg
  exact gone_unit hg

theorem test_data (hinv : Inv s) (ht : t ∈ s.allList)
    (hp : (s.thread t).place = .executeTest tid c) : ∃ d, s.childData c = some d := by
  have hloc := hinv.locals t ht
  rw [hp] at hloc
  have hplain : Inv.plain (s.thread t).place = true := by rw [hp]; rfl
  obtain ⟨rfl, hm⟩ := hloc
  obtain ⟨d, hd, -⟩ := hinv.kept_done ht (Inv.plain_kept hplain ▸ hm)
    (Inv.plain_not_awaits hplain _)
  exact ⟨d, hd⟩

/-- Where a step of `process_execute` leads: nearer to the return, and from there out of it. -/
def Nearer (pl : Place) (n : Nat) : Prop :=
  if n = 0 then pl = .user else ∃ m < n, pl.executing = some m

/-- **No fault**: every step that meets the condition succeeds. -/
theorem proceeds (h : Seeks s) (hinv : Inv s) (ha : s.enabled a = true) (hok : executeOk s a = true)
    (hn : (s.thread a.actor).place.executing = some n) :
    ∃ s', s.step a = .ok s' ∧ Nearer (s'.thread a.actor).place n := by
  obtain ⟨ht, hal⟩ := enabled_iff.mp ha
  have hgo : ∀ (s : Processes) (t : Int) (pl : Place), ((s.goTo t pl).thread t).place = pl :=
    fun s t pl => by simp [goTo, setThread]
  cases a with
  | step t =>
    simp only [actor] at ht hn ⊢
    simp only [Processes.step]
    cases hp : (s.thread t).place with
    | executeLookup =>
      obtain rfl : 5 = n := by simpa [hp, Place.executing] using hn
      refine ⟨_, rfl, ?_⟩
      rw [hgo]
      exact ⟨4, by omega, rfl⟩
    | executeInsert =>
      obtain rfl : 3 = n := by simpa [hp, Place.executing] using hn
      obtain ⟨rfl, d, hd⟩ := h.insert_data hinv ht hp
      simp only [stepAt, executeInsert, getData, hd]
      refine ⟨_, rfl, 2, by omega, ?_⟩
      simp [setThread, Place.executing]
    | executeDown =>
      obtain rfl : 2 = n := by simpa [hp, Place.executing] using hn
      obtain ⟨d, hd, -⟩ := down_data hinv ht hp
      simp only [stepAt, semaDown, getData, hd]
      refine ⟨_, rfl, 1, by omega, ?_⟩
      rw [hgo]
      rfl
    | executeTest =>
      obtain rfl : 1 = n := by simpa [hp, Place.executing] using hn
      obtain ⟨d, hd⟩ := test_data hinv ht hp
      simp only [stepAt, executeTest, getData, hd]
      refine ⟨_, rfl, 0, by omega, ?_⟩
      rw [hgo]
      rfl
    | executeReturn =>
      obtain rfl : 0 = n := by simpa [hp, Place.executing] using hn
      exact ⟨_, rfl, hgo s t .user⟩
    | executePage _ | executeCreate _ | executeRead _ _ =>
      simp [hp] at hal
    | _ => simp [hp, Place.executing] at hn
  | page t ok =>
    simp only [actor] at ht hn ⊢
    simp only [Processes.step]
    cases hp : (s.thread t).place with
    | executePage =>
      obtain rfl : 7 = n := by simpa [hp, Place.executing] using hn
      refine ⟨_, rfl, ?_⟩
      cases ok with
      | true =>
        simp only [executePage, if_true]
        rw [hgo]
        exact ⟨6, by omega, rfl⟩
      | false =>
        simp only [executePage, Bool.false_eq_true, if_false]
        rw [hgo]
        exact ⟨0, by omega, rfl⟩
    | _ => simp [hp] at hal
  | create t cr =>
    simp only [actor] at ht hn ⊢
    simp only [Processes.step]
    cases hp : (s.thread t).place with
    | executeCreate fileName =>
      obtain rfl : 6 = n := by simpa [hp, Place.executing] using hn
      obtain rfl : cr = .created := by simpa [executeOk] using hok
      obtain ⟨name, hname⟩ := ne_none_iff_exists'.mp (h.named t ht fileName (.inr hp))
      simp only [createAt, executeCreate, hname]
      refine ⟨_, rfl, 5, by omega, ?_⟩
      rw [hgo]
      rfl
    | _ => simp [hp] at hal
  | read t g =>
    simp only [actor] at ht hn ⊢
    simp only [Processes.step]
    cases hp : (s.thread t).place with
    | executeRead tid o =>
      obtain rfl : 4 = n := by simpa [hp, Place.executing] using hn
      obtain rfl : g = .elsewhere := by simpa [executeOk] using hok
      obtain rfl := h.found t ht tid o hp
      obtain ⟨-, hm⟩ := h.present t ht tid (by simp [hp])
      simp only [readAt, executeRead, if_pos hm]
      refine ⟨_, rfl, 3, by omega, ?_⟩
      rw [hgo]
      rfl
    | _ => simp [hp] at hal
  | load t success | execute t fileName | wait t childTid =>
    have hp := of_decide_eq_true hal
    rw [hp] at hn
    simp [Place.executing] at hn
  | exit t status | pageFault t | kill t cs =>
    have hp := of_decide_eq_true (Bool.and_eq_true_iff.mp hal).1
    rw [hp] at hn
    simp [Place.executing] at hn

/-- **No deadlock of its own**: a thread inside `process_execute` has a step to take, unless it
    waits for a child that has yet to exit. -/
theorem next (hinv : Inv s) (ht : t ∈ s.allList) (hn : (s.thread t).place.executing = some n) :
    (∃ a, a.actor = t ∧ s.enabled a = true ∧ executeOk s a = true) ∨
    ∃ tid c, (s.thread t).place = .executeDown tid c ∧ s.phase c ≠ .gone := by
  have hstep : (s.thread t).place ≠ .exitRemove → s.allows t (.step t) = true →
      ∃ a, a.actor = t ∧ s.enabled a = true ∧ executeOk s a = true := fun hne hal =>
    ⟨.step t, rfl, enabled_iff.mpr ⟨ht, hal⟩, by simp [executeOk, hne]⟩
  cases hp : (s.thread t).place with
  | executePage =>
    exact .inl ⟨.page t true, rfl, enabled_iff.mpr ⟨ht, by simp [hp]⟩, rfl⟩
  | executeCreate =>
    exact .inl
      ⟨.create t .created, rfl, enabled_iff.mpr ⟨ht, by simp [hp]⟩, rfl⟩
  | executeRead =>
    exact .inl
      ⟨.read t .elsewhere, rfl, enabled_iff.mpr ⟨ht, by simp [hp]⟩, rfl⟩
  | executeDown tid c =>
    by_cases hg : s.phase c = .gone
    · obtain ⟨d, hd, hunit⟩ := down_data hinv ht hp
      refine .inl (hstep (by simp [hp]) ?_)
      simp [hp, canDown, hd, hunit hg]
    · exact .inr ⟨tid, c, rfl, hg⟩
  | executeLookup tid | executeInsert tid o | executeTest tid c | executeReturn o r =>
    exact .inl (hstep (by simp [hp]) (by simp [hp]))
  | _ => simp [hp, Place.executing] at hn

end Seeks

/-! ## The protocol -/

theorem harmless_of_executeOk {a : Action} (h : executeOk s a = true) : harmless a = true := by
  cases a with
  | read t g =>
    obtain rfl : g = .elsewhere := by simpa [executeOk] using h
    rfl
  | _ => rfl

section

variable (h : (processMachine.guard fun s a => executeOk s a = true).Run boot tr s)
include h

theorem run_seeks : Inv s ∧ Seeks s := by
  refine h.invariant (I := fun s => Inv s ∧ Seeks s) ⟨Inv.init, Seeks.init⟩ ?_
  rintro s a s' ⟨hinv, hseeks⟩ ⟨ha, hok⟩ hs
  have hg := harmless_of_executeOk hok
  exact ⟨hinv.step ha hg hs, hseeks.step hinv ha hok hg hs⟩

/-- Under the condition -1 is written only by a process whose `load` failed. -/
theorem run_bad_exit
    {e : Ending} (he : (ledger tr).ended c = some e) : e.written = badExit ↔ e = .loadFailed := by
  refine run_endings (P := fun e => e.written = badExit ↔ e = .loadFailed) h
    (fun s a e ha hx => ?_) c e he
  cases a with
  | exit t status =>
    cases hx
    have hne : status ≠ badExit := by simpa [executeOk] using ha
    simpa [Ending.written] using hne
  | load t success =>
    cases success with
    | true => simp [ending] at hx
    | false => obtain rfl := some.inj hx; simp [Ending.written]
  | kill t cs =>
    have : e = .kill := by
      cases cs <;> simp_all [ending]
    subst this
    simp [Ending.written, badExit]
  | pageFault => simp [executeOk] at ha
  | _ => simp [ending] at hx

end

/-- **The exec protocol.**  On every run in which each step meets `executeOk`:

    * no step of a thread inside `process_execute` faults, and each brings it nearer to the return;
      there is one to take unless the thread waits for a child that has yet to exit;
    * the children a thread has created are those it has inserted, each once, and the one it is
      about to insert;
    * a `process_execute` that is about to return does so with -1 exactly if the page for the
      command line was not to be had or the child's `load` failed, and otherwise with the child's
      `tid`, the child having been inserted. -/
theorem execute_protocol
    (h : (processMachine.guard fun s a => executeOk s a = true).Run boot tr s) :
    (∀ a n, s.enabled a = true → executeOk s a = true →
      (s.thread a.actor).place.executing = some n →
      ∃ s', s.step a = .ok s' ∧ Seeks.Nearer (s'.thread a.actor).place n) ∧
    (∀ p ∈ s.allList, ∀ n, (s.thread p).place.executing = some n →
      (∃ a, a.actor = p ∧ s.enabled a = true ∧ executeOk s a = true) ∨
      ∃ tid c, (s.thread p).place = .executeDown tid c ∧ s.phase c ≠ .gone) ∧
    (∀ p, ((ledger tr).inserted p).Nodup ∧ ∀ c, c ∈ (ledger tr).children p ↔
      c ∈ (ledger tr).inserted p ∨ (s.thread p).creating = some c) ∧
    (∀ p o r, (s.thread p).place = .executeReturn o r →
      (r = -1 ↔ o = none ∨ ∃ c, o = some c ∧ (ledger tr).ended c = some .loadFailed) ∧
      ∀ c, o = some c → c ∈ (ledger tr).inserted p ∧ (r ≠ -1 → r = c)) := by
  obtain ⟨hinv, hseeks⟩ := run_seeks h
  have htold := (run_told (h.guard_mono fun s a => harmless_of_executeOk)).2
  refine ⟨fun a n ha hok hn => hseeks.proceeds hinv ha hok hn,
    fun p hp n hn => Seeks.next hinv hp hn,
    fun p => ⟨(htold.books p).nodup, (htold.books p).created⟩, fun p o r hp => ?_⟩
  rcases (htold.books p).executeReturn o r hp with ⟨rfl, rfl⟩ | ⟨c, e, rfl, hins, he, rfl⟩
  · exact ⟨by simp [badExit], by simp⟩
  have hpos : 0 < c := (htold.born p c (((htold.books p).created c).mpr (.inl hins))).1
  have hbad := run_bad_exit h he
  by_cases hw : e.written = badExit
  · obtain rfl := hbad.mp hw
    rw [if_pos hw]
    refine ⟨by simp [badExit, he], ?_⟩
    rintro x hx
    cases hx
    exact ⟨hins, fun hne => absurd rfl hne⟩
  · rw [if_neg hw]
    have hne : e ≠ .loadFailed := fun hx => hw (hbad.mpr hx)
    refine ⟨?_, ?_⟩
    · constructor
      · intro hc
        omega
      · rintro (hx | ⟨x, hx, hl⟩)
        · simp at hx
        · cases hx
          exact absurd (some.inj (he.symm.trans hl)) hne
    · rintro x hx
      cases hx
      exact ⟨hins, fun _ => rfl⟩

/-- A child that exits with 7: `process_execute` returns its `tid`. -/
theorem execute_protocol_seven : ∃ tr s,
    (processMachine.guard fun s a => executeOk s a = true).Run boot tr s ∧
    (s.thread 1).place = .executeReturn (some 3) 3 ∧ 3 ∈ (ledger tr).inserted 1 ∧
    (ledger tr).ended 3 ≠ some .loadFailed := by
  obtain ⟨tr, s, hr, hp⟩ :=
    (processMachine.guard fun s a => executeOk s a = true).exists_reached boot
      (executes ++ loads ++ [.exit 3 7, .step 3] ++ exits ++ List.replicate 2 (.step 1))
      (fun _ s => (s.thread 1).place = .executeReturn (some 3) 3) (by decide)
  obtain ⟨hiff, hins⟩ := (execute_protocol hr).2.2.2 1 (some 3) 3 hp
  refine ⟨tr, s, hr, hp, (hins 3 rfl).1, fun hl => ?_⟩
  have := hiff.mpr (.inr ⟨3, rfl, hl⟩)
  omega

/-- Why a step stopped the kernel. -/
def faultOf : Except Fault Processes → Option Fault
  | .error f => some f
  | .ok _ => none

theorem eq_error_of_faultOf {r : Except Fault Processes} {f : Fault} (h : faultOf r = some f) :
    r = .error f := by
  cases r with
  | error => exact congrArg _ (some.inj h)
  | ok => simp [faultOf] at h

/-- **The defects.**  A null `struct thread *` is followed if the child runs to its end before the
    parent looks it up, if `thread_create` fails, and if `child_thread` happens to be null; and a
    child that has loaded and exits with -1 makes `process_execute` return -1. -/
theorem process_execute_fails :
    (∃ tr s, processMachine.Run boot tr s ∧ (ledger tr).children 1 = [3] ∧
      s.enabled (.read 1 .elsewhere) = true ∧
      s.step (.read 1 .elsewhere) = .error .nullThread) ∧
    (∃ tr s, processMachine.Run boot tr s ∧ (ledger tr).children 1 = [] ∧
      s.enabled (.read 1 .elsewhere) = true ∧
      s.step (.read 1 .elsewhere) = .error .nullThread) ∧
    (∃ tr s, processMachine.Run boot tr s ∧ s.enabled (.read 1 .null) = true ∧
      s.step (.read 1 .null) = .error .nullThread) ∧
    (∃ tr s, processMachine.Run boot tr s ∧ (s.thread 1).place = .executeReturn (some 3) (-1) ∧
      (ledger tr).ended 3 = some (.exit (-1))) := by
  refine ⟨?_, ?_, ?_, ?_⟩
  · -- the child runs first
    obtain ⟨tr, s, hr, hc, he, hf⟩ := processMachine.exists_reached boot
      (executes.take 3 ++ loads ++ [.exit 3 7, .step 3] ++ exits ++ [.step 1])
      (fun tr s => (ledger tr).children 1 = [3] ∧ s.enabled (.read 1 .elsewhere) = true ∧
        faultOf (s.step (.read 1 .elsewhere)) = some .nullThread) (by decide)
    exact ⟨tr, s, hr, hc, he, eq_error_of_faultOf hf⟩
  · obtain ⟨tr, s, hr, hc, he, hf⟩ := processMachine.exists_reached boot
      (executes.take 2 ++ [.create 1 .noThread, .step 1])
      (fun tr s => (ledger tr).children 1 = [] ∧ s.enabled (.read 1 .elsewhere) = true ∧
        faultOf (s.step (.read 1 .elsewhere)) = some .nullThread) (by decide)
    exact ⟨tr, s, hr, hc, he, eq_error_of_faultOf hf⟩
  · obtain ⟨tr, s, hr, he, hf⟩ := processMachine.exists_reached boot (executes.take 4)
      (fun _ s => s.enabled (.read 1 .null) = true ∧
        faultOf (s.step (.read 1 .null)) = some .nullThread) (by decide)
    exact ⟨tr, s, hr, he, eq_error_of_faultOf hf⟩
  · exact processMachine.exists_reached boot
      (executes ++ loads ++ [.exit 3 (-1), .step 3] ++ exits ++ List.replicate 2 (.step 1))
      (fun tr s => (s.thread 1).place = .executeReturn (some 3) (-1) ∧
        (ledger tr).ended 3 = some (.exit (-1))) (by decide)

end Pintos.Userprog
