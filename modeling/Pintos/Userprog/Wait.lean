/-
  `process_wait`: what a parent is told about its children.

  `process_execute` comes back only after the child's `process_exit`, so `process_wait` never has to
  wait: it looks the child up, finds it finished, takes the status and frees the record.

  1. **The theorem** (`wait_status`) — on every run without `kill`, and in which the uninitialised
     pointer of `process_execute` hits no thread, a first wait on a child returns the status promised
     for its ending, any other wait returns -1, and every wait returns within its own next steps.

  2. **The defect** (`killed_child_reports_success`) — `kill` writes no status, and the parent is told 0.
-/
import Pintos.Userprog.Ledger

namespace Pintos.Userprog

open Base Processes Place

/-- **The condition on a step**: it kills nobody, and `child_thread` points at no thread. -/
def waitOk : Action → Bool
  | .kill _ _ => false
  | a => harmless a

/-- The child a thread is inside `process_wait` for, and a bound on its steps up to the return. -/
def Place.waiting : Place → Option (Int × Nat)
  | .waitFind c => some (c, 4)
  | .waitTest c _ => some (c, 3)
  | .waitDown c _ => some (c, 2)
  | .waitRead c _ => some (c, 1)
  | .waitReturn c _ => some (c, 0)
  | _ => none

section

variable {s : Processes} {p c : Int}

theorem findChild_ok {childTid : Int} :
    ∀ {l : List Int}, (∀ c ∈ l, s.childData c ≠ none) → ∃ o, s.findChild childTid l = .ok o
  | [], _ => ⟨none, rfl⟩
  | c :: cs, h => by
    cases hd : s.childData c with
    | none => exact absurd hd (h c (List.mem_cons_self ..))
    | some =>
      simp only [findChild, hd]
      split
      · exact ⟨_, rfl⟩
      · exact findChild_ok fun x hx => h x (List.mem_cons_of_mem _ hx)

/-- **A wait goes on**: the next step of a thread inside `process_wait` is possible, does not fault
    and brings it nearer to the return. -/
theorem Inv.wait_proceeds (h : Inv s) (hp : p ∈ s.allList) {n : Nat}
    (hw : (s.thread p).place.waiting = some (c, n + 1)) :
    s.enabled (.step p) = true ∧ ∃ s' m, s.step (.step p) = .ok s' ∧
      (s'.thread p).place.waiting = some (c, m) ∧ m ≤ n := by
  have hloc := h.locals p hp
  have hplain : plain (s.thread p).place = true := by
    cases hpl : (s.thread p).place <;> rw [hpl] at hw <;> first | rfl | simp [waiting] at hw
  have hdone : ∀ x ∈ (s.thread p).childProcesses, ∃ d, s.childData x = some d ∧
      d.finished = true := by
    intro x hx
    obtain ⟨d, hd, -, hf, -⟩ := h.kept_done hp (plain_kept hplain ▸ hx) (plain_not_awaits hplain x)
    exact ⟨d, hd, hf⟩
  have hgo : ∀ pl : Place, ((s.goTo p pl).thread p).place = pl := fun pl => by
    simp [Processes.goTo, setThread]
  have hon : s.allows p (.step p) = true → s.enabled (.step p) = true := fun hx =>
    enabled_iff.mpr ⟨hp, hx⟩
  cases hpl : (s.thread p).place with
  | waitFind childTid =>
    rw [hpl] at hw
    obtain ⟨rfl, rfl⟩ : childTid = c ∧ n = 3 := by simpa [waiting] using hw
    refine ⟨hon (by simp [allows, hpl]), ?_⟩
    obtain ⟨o, ho⟩ : ∃ o, s.findChild childTid (s.thread p).childProcesses = .ok o :=
      findChild_ok fun x hx => by
        obtain ⟨d, hd, -⟩ := hdone x hx
        rw [hd]
        simp
    simp only [Processes.step, hpl, stepAt, Processes.waitFind]
    by_cases herr : childTid = tidError
    · rw [if_pos herr]
      exact ⟨_, 0, rfl, by rw [hgo]; rfl, by omega⟩
    · rw [if_neg herr, ho]
      cases o with
      | none => exact ⟨_, 0, rfl, by rw [hgo]; rfl, by omega⟩
      | some => exact ⟨_, 3, rfl, by rw [hgo]; rfl, by omega⟩
  | waitTest childTid q =>
    rw [hpl] at hw hloc
    obtain ⟨rfl, rfl⟩ : childTid = c ∧ n = 2 := by simpa [waiting] using hw
    obtain ⟨rfl, hm⟩ := hloc
    obtain ⟨d, hd, hf⟩ := hdone q hm
    refine ⟨hon (by simp [allows, hpl]), ?_⟩
    simp only [Processes.step, hpl, stepAt, Processes.waitTest, getData, hd, hf, if_true]
    exact ⟨_, 1, rfl, by rw [hgo]; rfl, by omega⟩
  | waitRead childTid q =>
    rw [hpl] at hw hloc
    obtain ⟨rfl, rfl⟩ : childTid = c ∧ n = 0 := by simpa [waiting] using hw
    obtain ⟨rfl, hm⟩ := hloc
    obtain ⟨d, hd, hf⟩ := hdone q hm
    refine ⟨hon (by simp [allows, hpl]), ?_⟩
    simp only [Processes.step, hpl, stepAt, Processes.waitRead, getData, hd]
    exact ⟨_, 0, rfl, by simp [setThread, waiting], by omega⟩
  | waitDown => rw [hpl] at hloc; exact hloc.elim
  | _ => rw [hpl] at hw; simp [waiting] at hw

end

theorem Ending.written_eq {e : Ending} (h : e ≠ .kill) : e.written = e.status := by
  cases e with
  | kill => exact absurd rfl h
  | _ => rfl

/-- **What `process_wait` returns.**  On every run in which no process is killed and `child_thread`
    points at no thread:

    * a `process_wait (c)` that is about to return `v`, the first on child `c`, has the status that
      `c` passed to `exit`, or -1 if `c` did not load or died of a page fault; a later one, and one
      on a `tid` that is no child, returns -1;
    * it never blocks and never faults: its own next steps lead to the return. -/
theorem wait_status {tr : List (Processes × Action)} {s : Processes}
    (h : (processMachine.guard fun _ a => waitOk a = true).Run boot tr s) :
    (∀ p c v, (s.thread p).place = .waitReturn c v →
      if c ∈ (ledger tr).children p ∧ c ∉ (ledger tr).waited p then
        ∃ e, (ledger tr).ended c = some e ∧ v = e.status
      else v = -1) ∧
    (∀ p ∈ s.allList, ∀ c n, (s.thread p).place.waiting = some (c, n + 1) →
      s.enabled (.step p) = true ∧ ∃ s' m, s.step (.step p) = .ok s' ∧
        (s'.thread p).place.waiting = some (c, m) ∧ m ≤ n) := by
  have hharm : (processMachine.guard fun _ a => harmless a = true).Run boot tr s := by
    refine h.guard_mono fun s a ha => ?_
    cases a <;> first | exact ha | rfl
  obtain ⟨hinv, htold⟩ := run_told hharm
  have hkill : ∀ c e, (ledger tr).ended c = some e → e ≠ .kill := by
    refine run_endings h fun _ a e ha he => ?_
    cases a with
    | kill => simp [waitOk] at ha
    | load t success =>
      cases success with
      | true => simp [Action.ending] at he
      | false => obtain rfl := Option.some.inj he; simp
    | exit t status | pageFault t => obtain rfl := Option.some.inj he; simp
    | _ => simp [Action.ending] at he
  refine ⟨fun p c v hp => ?_, fun p hp c n hw => hinv.wait_proceeds hp hw⟩
  have hbooks := htold.books p
  rcases hbooks.waitReturn c v hp with ⟨h1, h2, -, e, he, hv⟩ | ⟨hv, hnot⟩
  · have hchild : c ∈ (ledger tr).children p := (hbooks.created c).mpr (Or.inl h1)
    rw [if_pos ⟨hchild, h2⟩]
    exact ⟨e, he, hv.trans (Ending.written_eq (hkill c e he))⟩
  · rw [if_neg]
    · exact hv
    · rintro ⟨h1, h2⟩
      rcases hnot with h3 | h3
      · exact h3 h1
      · exact h2 h3

/-! ## Schedules -/

/-- The initial thread executes a program, up to its `sema_down`; the child is thread 3. -/
def executes : List Action :=
  [.execute 1 ['a'], .page 1 true, .create 1 .created, .step 1, .read 1 .elsewhere, .step 1]

/-- Thread 3 loads its program. -/
def loads : List Action := [.load 3 true, .step 3]

/-- Thread 3 goes through `process_exit` and off `all_list`. -/
def exits : List Action := List.replicate 6 (.step 3)

/-- The initial thread returns from `process_execute`. -/
def returns : List Action := List.replicate 3 (.step 1)

/-- The initial thread waits for thread 3, up to the return. -/
def waits : List Action := .wait 1 3 :: List.replicate 3 (.step 1)

/-- A child that calls `exit (7)`. -/
theorem wait_status_seven : ∃ tr s,
    (processMachine.guard fun _ a => waitOk a = true).Run boot tr s ∧
    (s.thread 1).place = .waitReturn 3 7 ∧ 3 ∈ (ledger tr).children 1 ∧
    3 ∉ (ledger tr).waited 1 ∧ ∃ e, (ledger tr).ended 3 = some e ∧ 7 = e.status := by
  obtain ⟨tr, s, hr, hp, hc, hw⟩ :=
    (processMachine.guard fun _ a => waitOk a = true).exists_reached boot
      (executes ++ loads ++ [.exit 3 7, .step 3] ++ exits ++ returns ++ waits)
      (fun tr s => (s.thread 1).place = .waitReturn 3 7 ∧ 3 ∈ (ledger tr).children 1 ∧
        3 ∉ (ledger tr).waited 1) (by decide)
  have hv := (wait_status hr).1 1 3 7 hp
  rw [if_pos ⟨hc, hw⟩] at hv
  exact ⟨tr, s, hr, hp, hc, hw, hv⟩

/-- **The defect.**  A child that is killed by an exception: its parent's first `process_wait`
    returns 0. -/
theorem killed_child_reports_success : ∃ tr s,
    processMachine.Run boot tr s ∧ (s.thread 1).place = .waitReturn 3 0 ∧
    3 ∈ (ledger tr).children 1 ∧ 3 ∉ (ledger tr).waited 1 ∧
    (ledger tr).ended 3 = some .kill ∧ Ending.kill.status = -1 := by
  obtain ⟨tr, s, hr, hp, hc, hw, he⟩ := processMachine.exists_reached boot
    (executes ++ loads ++ [.kill 3 .user] ++ exits ++ returns ++ waits)
    (fun tr s => (s.thread 1).place = .waitReturn 3 0 ∧ 3 ∈ (ledger tr).children 1 ∧
      3 ∉ (ledger tr).waited 1 ∧ (ledger tr).ended 3 = some .kill) (by decide)
  exact ⟨tr, s, hr, hp, hc, hw, he, rfl⟩

end Pintos.Userprog
