/-
  The books of a run: what has been promised to parents, and what is in the records.

  A `Ledger` is computed from the steps of a run ALONE: which children a thread has created, which it
  has inserted into `child_processes`, for which its `process_wait` has returned, and how every
  process ended.  Two invariants connect it with the state.

  1. **Statuses** (`StatusAt`) — the `return_status` in a record is what the ending of the child has
     written there, from the moment it is written.  `exit`, a failed `load` and a page fault write
     theirs; `kill` writes NOTHING, so the 0 of `thread_create` stays.

  2. **Books** (`Books`) — every child created is inserted once, every child inserted is still on the
     list or has been waited for, and what a thread is about to return is what it should know.
-/
import Mathlib.Data.List.Nodup
import Pintos.Userprog.Turn

namespace Pintos.Userprog

open Base Processes Function List Process Processes Option

/-! ## The ledger -/

inductive Ending where
  /-- Its program called `exit (status)`. -/
  | exit (status : Int)
  /-- Its `load` failed. -/
  | loadFailed
  /-- A page fault could not be resolved. -/
  | pageFault
  /-- Another exception: `kill`. -/
  | kill
  deriving DecidableEq

/-- The status its parent is to be told. -/
def Ending.status : Ending → Int
  | .exit status => status
  | .loadFailed | .pageFault | .kill => -1

/-- The status that is written into its record. -/
def Ending.written : Ending → Int
  | .exit status => status
  | .loadFailed | .pageFault => badExit
  | .kill => 0

/-- What has happened so far, thread by thread. -/
structure Ledger where
  /-- The children it has created. -/
  children : Int → List Int
  /-- The children it has inserted into `child_processes`. -/
  inserted : Int → List Int
  /-- Its children for which its `process_wait` has returned. -/
  waited : Int → List Int
  /-- How it ended. -/
  ended : Int → Option Ending

namespace Ledger

def empty : Ledger := ⟨fun _ => [], fun _ => [], fun _ => [], fun _ => none⟩

/-- Thread `t` ends; the first ending counts. -/
def ends (L : Ledger) (t : Int) (e : Ending) : Ledger :=
  { L with ended := update L.ended t ((L.ended t).or (some e)) }

/-- A step of `t` that leaves nothing open. -/
def noteAt (L : Ledger) (t : Int) : Place → Ledger
  | .executeInsert _ (some c) =>
    { L with inserted := update L.inserted t (L.inserted t ++ [c]) }
  | .waitReturn c _ =>
    if c ∈ L.children t then { L with waited := update L.waited t (L.waited t ++ [c]) }
    else L
  | _ => L

def note (L : Ledger) (p : Processes × Action) : Ledger :=
  match p.2 with
  | .load t false => L.ends t .loadFailed
  | .exit t status => L.ends t (.exit status)
  | .pageFault t => L.ends t .pageFault
  | .kill t _ => L.ends t .kill
  | .create t .noData | .create t .created =>
    { L with children := update L.children t (L.children t ++ [p.1.nextTid]) }
  | .step t => L.noteAt t (p.1.thread t).place
  | _ => L

end Ledger

/-- The ending an action is. -/
def Action.ending : Action → Option Ending
  | .load _ false => some .loadFailed
  | .exit _ status => some (.exit status)
  | .pageFault _ => some .pageFault
  | .kill _ _ => some .kill
  | _ => none

variable {a : Action} {e : Ending}

theorem Ledger.ended_note {L : Ledger} {s : Processes} {c : Int}
    (h : (L.note (s, a)).ended c = some e) : L.ended c = some e ∨ a.ending = some e := by
  have hends : ∀ t x, (L.ends t x).ended c = some e → L.ended c = some e ∨ some x = some e := by
    intro t x hx
    by_cases hc : c = t
    · subst hc
      cases hold : L.ended c with
      | none =>
        simp only [ends, hold, update_self, none_or] at hx
        exact .inr hx
      | some =>
        simp only [ends, hold, update_self, some_or] at hx
        exact .inl hx
    · simp only [ends, update_of_ne hc] at hx
      exact .inl hx
  cases a with
  | load t success =>
    cases success with
    | true => exact .inl h
    | false => exact hends t _ h
  | exit t status | pageFault t | kill t cs => exact hends t _ h
  | create t cr => cases cr <;> exact .inl h
  | step t =>
    have hsame : (L.noteAt t (s.thread t).place).ended = L.ended := by
      unfold noteAt
      split
      · rfl
      · split <;> rfl
      · rfl
    exact .inl (hsame ▸ h)
  | execute t fileName | wait t childTid | page t ok | read t g => exact .inl h

/-- The ledger of a run. -/
def ledger (tr : List (Processes × Action)) : Ledger := tr.foldl Ledger.note Ledger.empty

theorem ledger_snoc (tr : List (Processes × Action)) (p : Processes × Action) :
    ledger (tr ++ [p]) = (ledger tr).note p := by
  simp [ledger, foldl_append]

variable {tr : List (Processes × Action)} (L : Ledger) (t : Int)

theorem run_endings {C : Processes → Action → Prop}
    {s : Processes} {P : Ending → Prop} (h : (processMachine.guard C).Run boot tr s)
    (hC : ∀ s a e, C s a → a.ending = some e → P e) :
    ∀ c e, (ledger tr).ended c = some e → P e := by
  refine h.history (J := fun tr _ => ∀ c e, (ledger tr).ended c = some e → P e) ?_ ?_
  · intro c e he
    simp [ledger, Ledger.empty] at he
  · intro tr s a s' _ ih ha _ c e he
    rw [ledger_snoc] at he
    rcases Ledger.ended_note he with hx | hx
    · exact ih c e hx
    · exact hC s a e ha.2 hx

/-- `L'` is `L` with new entries for thread `t` only, and no ending revised. -/
structure Notes (t : Int) (L L' : Ledger) : Prop where
  others : ∀ q, q ≠ t → L'.children q = L.children q ∧ L'.inserted q = L.inserted q ∧
    L'.waited q = L.waited q ∧ L'.ended q = L.ended q
  stays : ∀ c e, L.ended c = some e → L'.ended c = some e

theorem Notes.refl (L : Ledger) : Notes t L L :=
  ⟨fun _ _ => ⟨rfl, rfl, rfl, rfl⟩, fun _ _ h => h⟩

theorem Ledger.notes_ends (e : Ending) : Notes t L (L.ends t e) := by
  refine ⟨fun q hq => ⟨rfl, rfl, rfl, ?_⟩, fun c e' h => ?_⟩
  · simp [ends, hq]
  · by_cases hc : c = t
    · subst hc
      simp [ends, h]
    · simp [ends, hc, h]

theorem Ledger.notes_noteAt (pl : Place) : Notes t L (L.noteAt t pl) := by
  unfold noteAt
  split
  · exact ⟨fun q hq => ⟨rfl, by simp [hq], rfl, rfl⟩, fun _ _ h => h⟩
  · split
    · exact ⟨fun q hq => ⟨rfl, rfl, by simp [hq], rfl⟩, fun _ _ h => h⟩
    · exact Notes.refl t L
  · exact Notes.refl t L

/-- A return from `process_wait` enters nothing but a wait. -/
theorem Ledger.noteAt_waitReturn (c r : Int) :
    (L.noteAt t (.waitReturn c r)).children = L.children ∧
    (L.noteAt t (.waitReturn c r)).inserted = L.inserted ∧
    (L.noteAt t (.waitReturn c r)).ended = L.ended := by
  simp only [noteAt]
  split <;> exact ⟨rfl, rfl, rfl⟩

/-! ## Statuses -/

/-- How far a thread is with its ending. -/
inductive Stage where
  | alive
  /-- It has ended, and is about to write the status. -/
  | writing (status : Int)
  /-- Its record holds the status. -/
  | over
  deriving DecidableEq

/-- The stage of a thread, by its place. -/
def Place.stage : Place → Stage
  | .loaded false => .writing badExit
  | .exit status => .writing status
  | .processExit | .exitChildren _ | .exitChild _ _ _ | .exitSelf | .exitOwn _ | .exitUp
  | .exitRemove => .over
  | _ => .alive

def Processes.stage (s : Processes) (c : Int) : Stage :=
  if c ∈ s.allList then (s.thread c).place.stage else .over

/-- What the ledger knows of the ending, and what the record holds. -/
def StatusAt (e : Option Ending) (returnStatus : Int) : Stage → Prop
  | .alive => e = none ∧ returnStatus = 0
  | .writing status => ∃ x, e = some x ∧ x.written = status
  | .over => ∃ x, e = some x ∧ returnStatus = x.written

/-! ## Books -/

/-- **The books of thread `p`.** -/
structure Books (th : Process) (L : Ledger) (p : Int) : Prop where
  nodup : (L.inserted p).Nodup
  /-- A child is inserted, or is about to be. -/
  created : ∀ c, c ∈ L.children p ↔ c ∈ L.inserted p ∨ th.creating = some c
  apart : ∀ c, th.creating = some c → c ∉ L.inserted p
  waited : ∀ c ∈ L.waited p, c ∈ L.inserted p
  listed : ∀ c ∈ th.childProcesses, c ∈ L.inserted p ∧ c ∉ L.waited p
  /-- No child is lost. -/
  kept : ∀ c ∈ L.inserted p, c ∈ th.childProcesses ∨ c ∈ L.waited p ∨
    ∃ v, th.place = .waitReturn c v
  waitReturn : ∀ c v, th.place = .waitReturn c v →
    (c ∈ L.inserted p ∧ c ∉ L.waited p ∧ c ∉ th.childProcesses ∧
      ∃ e, L.ended c = some e ∧ v = e.written) ∨
    (v = badExit ∧ (c ∉ L.children p ∨ c ∈ L.waited p))
  executeReturn : ∀ o r, th.place = .executeReturn o r → (o = none ∧ r = badExit) ∨
    ∃ c e, o = some c ∧ c ∈ L.inserted p ∧ L.ended c = some e ∧
      r = if e.written = badExit then badExit else c

/-- **What a run knows**: every record holds its status, and every thread's books are in order. -/
structure Told (s : Processes) (L : Ledger) : Prop where
  status : ∀ c d, s.childData c = some d → StatusAt (L.ended c) d.returnStatus (s.stage c)
  books : ∀ p, Books (s.thread p) L p
  born : ∀ p, ∀ c ∈ L.children p, 0 < c ∧ c < s.nextTid
  /-- Nothing is known of threads that are not there yet. -/
  unborn : ∀ p, s.nextTid ≤ p →
    L.children p = [] ∧ L.inserted p = [] ∧ L.waited p = [] ∧ L.ended p = none

namespace Books

variable {th th' : Process} {L L' : Ledger} {p c : Int}

/-- Other threads' endings do not matter to what is known already. -/
theorem mono (h : Books th L p) (hc : L'.children p = L.children p)
    (hi : L'.inserted p = L.inserted p) (hw : L'.waited p = L.waited p)
    (hs : ∀ c e, L.ended c = some e → L'.ended c = some e) : Books th L' p := by
  refine ⟨hi ▸ h.nodup, ?_, ?_, ?_, ?_, ?_, ?_, ?_⟩
  · rw [hc, hi]; exact h.created
  · rw [hi]; exact h.apart
  · rw [hw, hi]; exact h.waited
  · rw [hi, hw]; exact h.listed
  · rw [hi, hw]; exact h.kept
  · intro c v hp
    rw [hi, hw, hc]
    rcases h.waitReturn c v hp with ⟨h1, h2, h3, e, h4, h5⟩ | h1
    · exact .inl ⟨h1, h2, h3, e, hs c e h4, h5⟩
    · exact .inr h1
  · intro o r hp
    rw [hi]
    rcases h.executeReturn o r hp with h1 | ⟨c, e, h1, h2, h3, h4⟩
    · exact .inl h1
    · exact .inr ⟨c, e, h1, h2, hs c e h3, h4⟩

/-- Places from which nothing is returned. -/
def quiet : Place → Bool
  | .waitReturn _ _ | .executeReturn _ _ => false
  | _ => true

section

variable (h : Books th L p) (hold : ∀ c v, th.place ≠ .waitReturn c v)
include h hold

/-- Outside of `process_wait`, a child that is not on the list has been waited for. -/
theorem kept_of : ∀ c ∈ L.inserted p, c ∈ th.childProcesses ∨ c ∈ L.waited p := fun c hc =>
  (h.kept c hc).imp_right fun hx => hx.resolve_right fun ⟨v, hv⟩ => hold c v hv

variable (hl : th'.childProcesses = th.childProcesses) (hcr : th'.creating = th.creating)
include hl hcr

/-- A turn with the list and the claim as before: what is left is what the thread is about to
    return. -/
theorem move
    (hwait : ∀ c v, th'.place = .waitReturn c v → v = badExit ∧ (c ∉ L.children p ∨ c ∈ L.waited p))
    (hexec : ∀ o r, th'.place = .executeReturn o r →
      (o = none ∧ r = badExit) ∨ ∃ c e, o = some c ∧ c ∈ L.inserted p ∧ L.ended c = some e ∧
        r = if e.written = badExit then badExit else c) : Books th' L p := by
  refine ⟨h.nodup, ?_, ?_, h.waited, ?_, ?_, fun c v hp => .inr (hwait c v hp), hexec⟩
  · rw [hcr]; exact h.created
  · rw [hcr]; exact h.apart
  · rw [hl]; exact h.listed
  · rw [hl]
    exact fun c hc => (h.kept_of hold c hc).imp_right .inl

theorem go (hq : quiet th'.place = true) : Books th' L p := by
  refine h.move hold hl hcr (fun c v hp => ?_) fun o r hp => ?_
  · rw [hp] at hq
    simp [quiet] at hq
  · rw [hp] at hq
    simp [quiet] at hq

end

end Books

/-! ## One step -/

/-- No record is made up, and the statuses in them stay. -/
def SameStatuses (cd cd' : Int → Option ChildData) : Prop :=
  ∀ c d', cd' c = some d' → ∃ d, cd c = some d ∧ d'.returnStatus = d.returnStatus

theorem SameStatuses.refl (cd : Int → Option ChildData) : SameStatuses cd cd :=
  fun _ d h => ⟨d, h, rfl⟩

variable {d : ChildData}

theorem SameStatuses.write {cd : Int → Option ChildData} {c : Int} {d' : ChildData}
    (hd : cd c = some d) (hs : d'.returnStatus = d.returnStatus) :
    SameStatuses cd (update cd c (some d')) := by
  intro x e he
  by_cases hx : x = c
  · subst hx
    rw [update_self] at he
    exact ⟨d, hd, by rw [← some.inj he, hs]⟩
  · rw [update_of_ne hx] at he
    exact ⟨e, he, rfl⟩

theorem SameStatuses.free (cd : Int → Option ChildData) (c : Int) :
    SameStatuses cd (update cd c none) := by
  intro x e he
  by_cases hx : x = c
  · subst hx
    simp at he
  · rw [update_of_ne hx] at he
    exact ⟨e, he, rfl⟩

namespace Told

variable {s s' : Processes} {L L' : Ledger} {t c : Int} {th : Process}
  {cd : Int → Option ChildData}

theorem stage_of_mem (ht : t ∈ s.allList) : s.stage t = (s.thread t).place.stage := by
  simp [stage, ht]

section

variable (h : Told s L)
include h

theorem put (hn : Notes t L L') (ht : t ∈ s.allList) (hlt : t < s.nextTid)
    (hrec : ∀ c d', c ≠ t → cd c = some d' →
      ∃ d, s.childData c = some d ∧ d'.returnStatus = d.returnStatus)
    (hself : ∀ d', cd t = some d' → StatusAt (L'.ended t) d'.returnStatus th.place.stage)
    (hchildren : L'.children t = L.children t) (hbooks : Books th L' t) :
    Told (s.put t th cd) L' := by
  refine ⟨fun c d' hd' => ?_, fun p => ?_, fun p c hc => ?_, fun p hp => ?_⟩
  · by_cases hct : c = t
    · subst hct
      have hst : (s.put c th cd).stage c = th.place.stage := by simp [stage, ht]
      rw [hst]
      exact hself d' hd'
    · obtain ⟨d, hd, heq⟩ := hrec c d' hct hd'
      have hst : (s.put t th cd).stage c = s.stage c := by
        simp [stage, put_thread_of_ne hct]
      rw [hst, (hn.others c hct).2.2.2, heq]
      exact h.status c d hd
  · by_cases hpt : p = t
    · subst hpt
      rwa [put_thread_self]
    · rw [put_thread_of_ne hpt]
      obtain ⟨h1, h2, h3, -⟩ := hn.others p hpt
      exact (h.books p).mono h1 h2 h3 hn.stays
  · by_cases hpt : p = t
    · subst hpt
      exact h.born p c (hchildren ▸ hc)
    · rw [(hn.others p hpt).1] at hc
      exact h.born p c hc
  · have hpt : p ≠ t := by
      rintro rfl
      have : s.nextTid ≤ p := hp
      omega
    obtain ⟨h1, h2, h3, h4⟩ := hn.others p hpt
    rw [h1, h2, h3, h4]
    exact h.unborn p hp

section

variable (ht : t ∈ s.allList) (hlt : t < s.nextTid)
include ht hlt

theorem put_same (hL : L' = L)
    (hrec : SameStatuses s.childData cd) (hstage : th.place.stage = (s.thread t).place.stage)
    (hbooks : Books th L t) : Told (s.put t th cd) L' := by
  subst hL
  refine h.put (Notes.refl t L') ht hlt (fun c d' _ hd' => hrec c d' hd') (fun d' hd' => ?_) rfl
    hbooks
  obtain ⟨d, hd, heq⟩ := hrec t d' hd'
  rw [hstage, heq, ← stage_of_mem ht]
  exact h.status t d hd

theorem put_quiet (hL : L' = L)
    (hrec : SameStatuses s.childData cd) (hstage : th.place.stage = (s.thread t).place.stage)
    (hl : th.childProcesses = (s.thread t).childProcesses)
    (hcr : th.creating = (s.thread t).creating) (hq : Books.quiet th.place = true)
    (hold : ∀ c v, (s.thread t).place ≠ .waitReturn c v) : Told (s.put t th cd) L' :=
  h.put_same ht hlt hL hrec hstage ((h.books t).go hold hl hcr hq)

theorem put_ends (e : Ending) (pl : Place) (halive : (s.thread t).place.stage = .alive)
    (hst : ∀ r, r = 0 → StatusAt (some e) r pl.stage)
    (hcr : ({ s.thread t with place := pl } : Process).creating = (s.thread t).creating)
    (hu : Bool) (hq : Books.quiet pl = true)
    (hold : ∀ c v, (s.thread t).place ≠ .waitReturn c v) :
    Told (s.put t { s.thread t with isUserProcess := hu, place := pl } s.childData)
      (L.ends t e) := by
  refine h.put (L.notes_ends t e) ht hlt (fun c d' _ hd' => ⟨d', hd', rfl⟩) (fun d' hd' => ?_) rfl ?_
  · -- it had not ended before
    have hstat := h.status t d' hd'
    rw [stage_of_mem ht, halive] at hstat
    obtain ⟨hnone, hzero⟩ := hstat
    have hended : (L.ends t e).ended t = some e := by simp [Ledger.ends, hnone]
    rw [hended]
    exact hst d'.returnStatus hzero
  · have hgo : Books { s.thread t with isUserProcess := hu, place := pl } L t :=
      (h.books t).go hold rfl hcr hq
    exact hgo.mono rfl rfl rfl (L.notes_ends t e).stays

end

/-- **A finished child's record holds what its ending has written.** -/
theorem status_of_gone (hd : s.childData c = some d)
    (hg : s.phase c = .gone) : ∃ e, L.ended c = some e ∧ d.returnStatus = e.written := by
  have hstat := h.status c d hd
  have hover : s.stage c = .over := by
    unfold phase at hg
    unfold stage
    split at hg
    · rename_i hm
      rw [if_pos hm]
      cases hp : (s.thread c).place <;> rw [hp] at hg <;> simp [Place.phase] at hg
      rfl
    · rename_i hm
      rw [if_neg hm]
  rwa [hover] at hstat

end

theorem kept_nodup (hinv : Inv s) (ht : t ∈ s.allList) : (s.thread t).kept.Nodup := by
  refine nodup_iff_count_le_one.mpr fun c => ?_
  by_cases hc : c ∈ (s.thread t).kept
  · have hpos := hinv.positive t ht c (hinv.keptOf t ht c hc)
    have hle : (s.thread t).kept.count c ≤ (s.thread t).claims c := by
      unfold claims
      omega
    cases hinv.child c hpos with
    | unborn _ _ _ hq | freed _ _ _ hq => rw [hq t ht] at hle; omega
    | bare _ _ _ _ _ hq => rw [hq t ht]; omega
    | awaited p _ _ _ _ _ _ _ _ hq | done p _ _ _ _ _ _ _ _ _ hq =>
      rw [hq t ht] at hle
      split at hle <;> omega
  · rw [count_eq_zero.mpr hc]
    omega

/-! ## The turns that are entered in the books -/

attribute [local simp] creating Place.stage Ledger.noteAt Ledger.note

section

variable (h : Books (s.thread t) L t) {r : Int}
include h

theorem books_insert (hpos : 0 < c) (hp : (s.thread t).place = .executeInsert c (some c)) :
    Books { s.thread t with
        childProcesses := (s.thread t).childProcesses ++ [c], place := .executeDown c c }
      (L.noteAt t (.executeInsert c (some c))) t := by
  have hcr : (s.thread t).creating = some c := by simp [hp, hpos]
  have hins : (L.noteAt t (.executeInsert c (some c))).inserted t = L.inserted t ++ [c] := by
    simp
  have hnew := h.apart c hcr
  refine ⟨?_, ?_, ?_, ?_, ?_, ?_, ?_, ?_⟩
  · rw [hins]
    refine nodup_append.mpr ⟨h.nodup, by simp, ?_⟩
    rintro x hx y hy rfl
    rw [mem_singleton.mp hy] at hx
    exact hnew hx
  · intro x
    rw [hins]
    show x ∈ L.children t ↔ _
    rw [h.created x, hcr]
    simp [eq_comm]
  · intro x hx
    simp at hx
  · intro x hx
    rw [hins]
    exact mem_append_left _ (h.waited x hx)
  · intro x hx
    rw [hins]
    rcases mem_append.mp hx with hx | hx
    · exact ⟨mem_append_left _ (h.listed x hx).1, (h.listed x hx).2⟩
    · rw [mem_singleton.mp hx]
      exact ⟨by simp, fun hw => hnew (h.waited c hw)⟩
  · intro x hx
    rw [hins] at hx
    rcases mem_append.mp hx with hx | hx
    · exact (h.kept_of (by simp [hp]) x hx).imp (mem_append_left _) .inl
    · exact .inl (mem_append_right _ hx)
  · intro x v hx
    simp at hx
  · intro o r hx
    simp at hx

theorem books_findNone
    (hp : (s.thread t).place = .waitFind c) (hm : c ∉ (s.thread t).childProcesses) :
    Books { s.thread t with place := .waitReturn c badExit } L t := by
  have hcr : (s.thread t).creating = none := by simp [hp]
  refine h.move (by rw [hp]; simp) rfl hcr.symm (fun x v hx => ?_) (by simp)
  obtain ⟨rfl, rfl⟩ : c = x ∧ badExit = v := by simpa using hx
  refine ⟨rfl, ?_⟩
  -- a child that is not on the list has been waited for
  by_cases hx : c ∈ L.children t
  · rcases (h.created c).mp hx with h1 | h1
    · exact .inr ((h.kept_of (by simp [hp]) c h1).resolve_left hm)
    · rw [hcr] at h1
      simp at h1
  · exact .inl hx

theorem books_waitRead (hp : (s.thread t).place = .waitRead c c)
    (hm : c ∈ (s.thread t).childProcesses) (hnd : (s.thread t).childProcesses.Nodup)
    (he : L.ended c = some e) (hr : r = e.written) :
    Books { s.thread t with
        childProcesses := (s.thread t).childProcesses.erase c, place := .waitReturn c r } L t := by
  have hcr : (s.thread t).creating = none := by simp [hp]
  have herase : ∀ x, x ∈ (s.thread t).childProcesses.erase c ↔
      x ≠ c ∧ x ∈ (s.thread t).childProcesses := fun x => hnd.mem_erase_iff
  refine ⟨h.nodup, ?_, fun x hx => ?_, h.waited, fun x hx => ?_, fun x hx => ?_, fun x v hx => ?_,
    fun o r hx => ?_⟩
  · intro x
    rw [h.created x, hcr]
    simp
  · simp at hx
  · exact h.listed x ((herase x).mp hx).2
  · by_cases hxc : x = c
    · subst hxc
      exact .inr (.inr ⟨r, rfl⟩)
    · exact (h.kept_of (by simp [hp]) x hx).imp (fun h1 => (herase x).mpr ⟨hxc, h1⟩) .inl
  · obtain ⟨rfl, rfl⟩ : c = x ∧ r = v := by simpa using hx
    exact .inl ⟨(h.listed c hm).1, (h.listed c hm).2, fun hx => ((herase c).mp hx).1 rfl, e, he, hr⟩
  · simp at hx

/-- Returning from `process_wait`: the child is entered, if it is one. -/
theorem books_waitReturn (hp : (s.thread t).place = .waitReturn c r) :
    Books { s.thread t with place := .user } (L.noteAt t (.waitReturn c r)) t := by
  have hcr : (s.thread t).creating = none := by simp [hp]
  obtain ⟨hch, hi, -⟩ := L.noteAt_waitReturn t c r
  have hw : ∀ x, x ∈ (L.noteAt t (.waitReturn c r)).waited t ↔
      x ∈ L.waited t ∨ (x = c ∧ c ∈ L.children t) := by
    intro x
    by_cases hc : c ∈ L.children t
    · simp [hc]
    · simp [hc]
  -- a child was inserted and is off the list
  have hfact : c ∈ L.children t → c ∈ L.inserted t ∧ c ∉ (s.thread t).childProcesses := by
    intro hc
    rcases h.waitReturn c r hp with ⟨h1, -, h3, -⟩ | ⟨-, h1 | h1⟩
    · exact ⟨h1, h3⟩
    · exact absurd hc h1
    · exact ⟨h.waited c h1, fun hx => (h.listed c hx).2 h1⟩
  refine ⟨hi ▸ h.nodup, ?_, fun x hx => ?_, fun x hx => ?_, fun x hx => ?_, fun x hx => ?_,
    fun x v hx => ?_, fun o r hx => ?_⟩
  · intro x
    rw [hi, hch, h.created x, hcr]
    simp
  · simp at hx
  · rw [hi]
    rcases (hw x).mp hx with hx | ⟨rfl, hc⟩
    · exact h.waited x hx
    · exact (hfact hc).1
  · rw [hi, hw]
    refine ⟨(h.listed x hx).1, ?_⟩
    rintro (hx' | ⟨rfl, hc⟩)
    · exact (h.listed x hx).2 hx'
    · exact (hfact hc).2 hx
  · rw [hi] at hx
    rw [hw]
    rcases h.kept x hx with h1 | h1 | ⟨v, h1⟩
    · exact .inl h1
    · exact .inr (.inl (.inl h1))
    · obtain ⟨rfl, rfl⟩ : c = x ∧ r = v := by
        rw [hp] at h1
        simpa using h1
      exact .inr (.inl (.inr ⟨rfl, (h.created c).mpr (.inl hx)⟩))
  · simp at hx
  · simp at hx

end

/-! ## The steps -/

/-- **A turn** keeps the books. -/
theorem turn (h : Told s L) (hinv : Inv s) (ht : t ∈ s.allList)
    (hturn : Turn s t a th cd) : Told (s.put t th cd) (L.note (s, a)) := by
  have hlt := (hinv.range t ht).2
  have hsame := SameStatuses.refl s.childData
  -- what a parent reads of a child it keeps
  have hgone : ∀ c d, Inv.plain (s.thread t).place = true → c ∈ (s.thread t).childProcesses →
      s.childData c = some d → ∃ e, L.ended c = some e ∧ d.returnStatus = e.written := by
    intro c d hplain hm hd
    obtain ⟨d', hd', -, -, -, hg, -⟩ := hinv.kept_done ht (Inv.plain_kept hplain ▸ hm)
      (Inv.plain_not_awaits hplain c)
    exact h.status_of_gone hd hg
  cases hturn with
  | load success hp =>
    cases success with
    | true =>
      refine h.put_quiet ht hlt rfl hsame ?_ rfl ?_ rfl ?_ <;>
        simp [hp]
    | false =>
      refine h.put_ends ht hlt .loadFailed (.loaded false) ?_ (fun r _ => ⟨_, rfl, rfl⟩) ?_ true rfl
        ?_ <;>
        simp [hp]
  | exit status hp =>
    refine h.put_ends ht hlt (.exit status) (.exit status) ?_ (fun r _ => ⟨_, rfl, rfl⟩) ?_ _ rfl
      ?_ <;>
      simp [hp]
  | pageFault hp =>
    refine h.put_ends ht hlt .pageFault (.exit badExit) ?_ (fun r _ => ⟨_, rfl, rfl⟩) ?_ _ rfl
      ?_ <;>
      simp [hp]
  | kill cs hp =>
    -- nothing is written: the record still says 0
    refine h.put_ends ht hlt .kill .processExit ?_ (fun r hr => ⟨_, rfl, hr⟩) ?_ _ rfl ?_ <;>
      simp [hp]
  | loaded success hp =>
    cases success <;> refine h.put_quiet ht hlt ?_ hsame ?_ rfl ?_ rfl ?_ <;>
      simp [hp]
  | execute _ hp | wait _ hp | page _ hp | noThread _ hp | lookup _ hp | read _ hp
  | executeReturn _ _ hp | find _ hp | waitTest _ hp | processExit hp | childrenDone hp
  | childrenNext _ _ hp | self hp =>
    refine h.put_quiet ht hlt ?_ hsame ?_ rfl ?_ rfl ?_ <;>
      simp [hp, tidError]
  | down c d hp hd | mark d hp hd | up d hp hd =>
    refine h.put_quiet ht hlt ?_ (.write hd rfl) ?_ rfl ?_ rfl ?_ <;>
      simp [hp]
  | child c rest hp =>
    refine h.put_quiet ht hlt ?_ (.free _ c) ?_ rfl ?_ rfl ?_ <;>
      simp [hp]
  | noPage fileName hp =>
    refine h.put_same ht hlt rfl hsame (by simp [hp])
      ((h.books t).move ?_ rfl ?_ ?_ ?_)
    · simp [hp]
    · simp [hp]
    · simp
    · intro o r hx
      obtain ⟨rfl, rfl⟩ : none = o ∧ tidError = r := by simpa using hx
      exact .inl ⟨rfl, rfl⟩
  | insert c hp hpos =>
    have hL : L.note (s, .step t) = L.noteAt t (.executeInsert c (some c)) := by
      simp [hp]
    rw [hL]
    refine h.put (L.notes_noteAt t _) ht hlt (fun c d' _ hd' => ⟨d', hd', rfl⟩) (fun d' hd' => ?_)
      rfl (books_insert (h.books t) hpos hp)
    have hst := h.status t d' hd'
    rwa [stage_of_mem ht, hp] at hst
  | test c d hp hm hd =>
    refine h.put_same ht hlt (by simp [hp]) hsame
      (by simp [hp]) ((h.books t).move ?_ rfl ?_ ?_ ?_)
    · simp [hp]
    · simp [hp]
    · simp
    · intro o r hx
      obtain ⟨rfl, rfl⟩ : some c = o ∧ (if d.returnStatus = badExit then badExit else c) = r := by
        simpa using hx
      obtain ⟨e, he, hr⟩ := hgone c d (by rw [hp]; rfl) hm hd
      exact .inr ⟨c, e, rfl, ((h.books t).listed c hm).1, he, by rw [hr]⟩
  | findNone childTid hp hm =>
    exact h.put_same ht hlt (by simp [hp]) hsame
      (by simp [hp]) (books_findNone (h.books t) hp hm)
  | waitRead c d hp hm hd =>
    have hplain : Inv.plain (s.thread t).place = true := by rw [hp]; rfl
    obtain ⟨e, he, hr⟩ := hgone c d hplain hm hd
    exact h.put_same ht hlt (by simp [hp]) (.free _ c)
      (by simp [hp])
      (books_waitRead (h.books t) hp hm (Inv.plain_kept hplain ▸ kept_nodup hinv ht) he hr)
  | waitReturn c r hp =>
    have hL : L.note (s, .step t) = L.noteAt t (.waitReturn c r) := by simp [hp]
    obtain ⟨hch, -, hended⟩ := L.noteAt_waitReturn t c r
    rw [hL]
    refine h.put (L.notes_noteAt t _) ht hlt (fun c d' _ hd' => ⟨d', hd', rfl⟩) (fun d' hd' => ?_)
      (congrFun hch t) (books_waitReturn (h.books t) hp)
    have hst := h.status t d' hd'
    rw [stage_of_mem ht, hp] at hst
    rwa [hended]
  | record status d hp hd =>
    have hL : L.note (s, .step t) = L := by simp [hp]
    rw [hL]
    refine h.put (Notes.refl t L) ht hlt (fun c d' hc hd' => ?_) (fun d' hd' => ?_) rfl
      ((h.books t).go (by simp [hp]) rfl (by simp [hp]) rfl)
    · rw [update_of_ne hc] at hd'
      exact ⟨d', hd', rfl⟩
    · rw [update_self] at hd'
      obtain ⟨e, he, hw⟩ : ∃ x, L.ended t = some x ∧ x.written = status := by
        have hst := h.status t d hd
        rwa [stage_of_mem ht, hp] at hst
      exact ⟨e, he, by rw [← some.inj hd', hw]⟩

/-- **A birth** is entered in the books of the parent. -/
theorem birth (h : Told s L) (hinv : Inv s) (ht : t ∈ s.allList) {fileName : List Char}
    {data : DataRef} (hp : (s.thread t).place = .executeCreate fileName) (hb : Inv.Born s t data s')
    (hclean : ∀ d, s'.childData s.nextTid = some d → d.returnStatus = 0)
    (hL : L' = { L with children := update L.children t (L.children t ++ [s.nextTid]) }) :
    Told s' L' := by
  subst hL
  obtain ⟨hnpos, hnot, -, -⟩ := hinv.next_unborn ht
  have htn : t ≠ s.nextTid := fun hx => hnot (hx ▸ ht)
  obtain ⟨hc0, hi0, hw0, he0⟩ := h.unborn s.nextTid (Int.le_refl _)
  refine ⟨fun c d hd => ?_, fun p => ?_, fun p c hc => ?_, fun p hp' => ?_⟩
  · by_cases hcn : c = s.nextTid
    · subst hcn
      have hst : s'.stage s.nextTid = .alive := by
        simp [stage, hb.allList, hb.child]
      rw [hst]
      exact ⟨he0, hclean d hd⟩
    · rw [hb.records c hcn] at hd
      have hst : s'.stage c = s.stage c := by
        unfold stage
        rw [hb.allList]
        by_cases hct : c = t
        · subst hct
          rw [if_pos (mem_append_left _ ht), if_pos ht, hb.parent, hp]
          rfl
        · rw [hb.others c hct hcn]
          simp [hcn]
      rw [hst]
      exact h.status c d hd
  · by_cases hpt : p = t
    · subst hpt
      have hbk := h.books p
      have hcr : (s.thread p).creating = none := by simp [hp]
      have hcr' : (s'.thread p).creating = some s.nextTid := by
        rw [hb.parent]
        simp [hnpos]
      have hlist : (s'.thread p).childProcesses = (s.thread p).childProcesses := by
        rw [hb.parent]
      have hold : ∀ c v, (s.thread p).place ≠ .waitReturn c v := by
        rw [hp]
        simp
      refine ⟨hbk.nodup, fun c => ?_, fun c hc => ?_, hbk.waited, ?_, fun c hc => ?_, ?_, ?_⟩
      · show c ∈ update L.children p (L.children p ++ [s.nextTid]) p ↔ _
        rw [update_self, mem_append, hbk.created c, hcr, hcr', mem_singleton]
        simp [eq_comm]
      · rw [hcr'] at hc
        cases hc
        intro hx
        have := (h.born p s.nextTid ((hbk.created _).mpr (.inl hx))).2
        omega
      · rw [hlist]
        exact hbk.listed
      · rw [hlist]
        rcases hbk.kept c hc with h1 | h1 | ⟨v, h1⟩
        · exact .inl h1
        · exact .inr (.inl h1)
        · exact absurd h1 (hold c v)
      · rw [hb.parent]
        simp
      · rw [hb.parent]
        simp
    · by_cases hpn : p = s.nextTid
      · -- the child starts with empty books
        subst hpn
        have hch : update L.children t (L.children t ++ [s.nextTid]) s.nextTid = [] := by
          rw [update_of_ne hpt, hc0]
        rw [hb.child]
        refine ⟨by simp [hi0], fun c => ?_, ?_, ?_, ?_, ?_, ?_, ?_⟩
        · simp [hch, hi0]
        · simp
        · simp [hw0]
        · simp
        · simp [hi0]
        · simp
        · simp
      · rw [hb.others p hpt hpn]
        exact (h.books p).mono (update_of_ne hpt _ _) rfl rfl fun _ _ hx => hx
  · rw [hb.nextTid]
    by_cases hpt : p = t
    · subst hpt
      have hc' : c ∈ L.children p ++ [s.nextTid] := by simpa using hc
      rcases mem_append.mp hc' with hx | hx
      · have := h.born p c hx
        omega
      · rw [mem_singleton.mp hx]
        omega
    · have hc' : c ∈ L.children p := by simpa [hpt] using hc
      have := h.born p c hc'
      omega
  · rw [hb.nextTid] at hp'
    have hpt : p ≠ t := by
      rintro rfl
      have := (hinv.range p ht).2
      omega
    obtain ⟨h1, h2, h3, h4⟩ := h.unborn p (by omega)
    exact ⟨by simp [hpt, h1], h2, h3, h4⟩

/-- **A removal** changes nothing that is known. -/
theorem remove (h : Told s L) (hinv : Inv s) (hp : (s.thread t).place = .exitRemove) :
    Told (s.exitRemove t) L := by
  refine ⟨fun c d hd => ?_, h.books, h.born, h.unborn⟩
  have hst : (s.exitRemove t).stage c = s.stage c := by
    unfold stage
    have hmem : c ∈ (s.exitRemove t).allList ↔ c ≠ t ∧ c ∈ s.allList := hinv.nodup.mem_erase_iff
    by_cases hct : c = t
    · subst hct
      rw [if_neg fun hx => (hmem.mp hx).1 rfl, hp]
      split <;> rfl
    · by_cases hx : c ∈ s.allList
      · rw [if_pos hx, if_pos (hmem.mpr ⟨hct, hx⟩)]
        rfl
      · rw [if_neg hx, if_neg fun hy => hx (hmem.mp hy).2]
  rw [hst]
  exact h.status c d hd

theorem init : Told boot Ledger.empty := by
  refine ⟨fun c d hd => ?_, fun p => ?_, fun p c hc => ?_, fun p _ => ⟨rfl, rfl, rfl, rfl⟩⟩
  · simp [boot] at hd
  · refine ⟨nodup_nil, fun c => ?_, ?_, ?_, ?_, ?_, ?_, ?_⟩ <;>
      simp [Ledger.empty, boot]
  · exact absurd hc not_mem_nil

/-- **One step** keeps the books. -/
theorem step (h : Told s L) (hinv : Inv s) (ha : s.enabled a = true)
    (hg : harmless a = true) (hs : s.step a = .ok s') : Told s' (L.note (s, a)) := by
  obtain ⟨ht, -⟩ := enabled_iff.mp ha
  cases hinv.steps ha hg hs with
  | turn th cd hturn hput => rw [hput]; exact h.turn hinv ht hturn
  | noData t fileName hx hp hb =>
    subst hx
    refine h.birth hinv ht hp hb (fun d hd => ?_) rfl
    rcases hb.record with ⟨-, hnone⟩ | ⟨hx, -⟩
    · rw [hnone] at hd; simp at hd
    · simp at hx
  | created t fileName hx hp _ hb hclean =>
    subst hx
    obtain ⟨d', hd', hzero⟩ := hclean
    exact h.birth hinv ht hp hb (fun d hd => some.inj (hd'.symm.trans hd) ▸ hzero) rfl
  | remove t hx hp hrm =>
    subst hx
    rw [hrm]
    have hL : L.note (s, .step t) = L := by simp [hp]
    rw [hL]
    exact h.remove hinv hp

end Told

/-- **Every run** in which `child_thread` points at no thread keeps the invariant and the books. -/
theorem run_told {s : Processes}
    (h : (processMachine.guard fun _ a => harmless a = true).Run boot tr s) :
    Inv s ∧ Told s (ledger tr) := by
  refine h.history (J := fun tr s => Inv s ∧ Told s (ledger tr)) ⟨Inv.init, Told.init⟩ ?_
  rintro tr s a s' - ⟨hinv, htold⟩ ⟨ha, hg⟩ hs
  refine ⟨hinv.step ha hg hs, ?_⟩
  rw [ledger_snoc]
  exact htold.step hinv ha hg hs

end Pintos.Userprog
