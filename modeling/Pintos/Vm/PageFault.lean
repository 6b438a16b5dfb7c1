/-
  `page_fault`: which faults are settled.

  A page fault is SETTLED if the handler ends the process or the kernel, or returns with the page
  mapped and the access allowed.  Otherwise the instruction faults again, for ever.

  1. **The handler** (`pageFault`) does something only for a user access to a user page that is not
     present.

  2. **The theorem** (`page_fault_settled`) — a fault that the processor raises is settled IF AND
     ONLY IF it is of that kind, the page-in does not itself fault or run over its frame, and the
     access is not a write to a page that is brought in read-only (`FaultOk`).

  3. **The defects** (`faults_left_pending`).
-/
import Pintos.Vm.Page

namespace Pintos.Vm

open Userprog Option

/-- What the processor passes to the handler: `cr2`, and the members of `struct intr_frame` that are
    read. -/
structure PageFault where
  faultAddr : Nat
  esp : Nat
  errorCode : Nat
  deriving DecidableEq

namespace PageFault

variable (f : PageFault)

def notPresent : Bool := f.errorCode % 2 = 0

def write : Bool := f.errorCode / 2 % 2 = 1

def user : Bool := f.errorCode / 4 % 2 = 1

/-- The address is close enough to the stack pointer, and the stack small enough;
    `OVERFLOW_LIMIT` is 32. -/
def nearStack : Bool := (f.esp + addrSpace - 32) % addrSpace ≤ f.faultAddr &&
    (physBase + addrSpace - f.esp) % addrSpace ≤ maxStack

end PageFault

/-- The body of `page_fault`: whether the page is there now. -/
def bringIn (c : Choices) (vm : Memory) (f : PageFault) : Except Halt (Bool × Memory) :=
  match sptGet vm f.faultAddr with
  | some pg => sptGetFrame c vm (pgRoundDown f.faultAddr) pg
  | none => if f.nearStack then newPageOnStack c vm f.esp f.faultAddr else .ok (false, vm)

/-- `if (!success) exit (BAD_EXIT);`. -/
def finish : Except Halt (Bool × Memory) → Except Halt Memory
  | .ok (true, vm) => .ok vm
  | .ok (false, _) => .error (.exit badExit)
  | .error e => .error e

def pageFault (c : Choices) (vm : Memory) (f : PageFault) : Except Halt Memory :=
  if f.user && isUserVaddr f.faultAddr && f.notPresent then finish (bringIn c vm f) else .ok vm

/-! ## Settled faults -/

/-- The processor lets the access through; in kernel mode too, `CR0_WP` is set. -/
def permits (pd : PageDir) (f : PageFault) : Bool :=
  match lookupPage pd f.faultAddr with
  | none => false
  | some pte => pte.present && (!f.user || pte.user) && (!f.write || pte.writable)

/-- The processor raises this fault: the access is not allowed, and `PF_P` says whether the page is
    there. -/
def Raised (pd : PageDir) (f : PageFault) : Prop :=
  permits pd f = false ∧ (f.notPresent = true ↔ pagedirGetPage pd f.faultAddr = none)

/-- **A fault is settled**: the process or the kernel is ended, or the access is allowed now. -/
def Settled (f : PageFault) : Except Halt Memory → Prop
  | .ok vm => permits vm.pagedir f = true
  | .error (.exit _) => True
  | .error .panic => True
  | .error .kernelFault => False
  | .error .overrun => False

/-- The handler will ask for a frame. -/
def needsFrame (c : Choices) (vm : Memory) (f : PageFault) : Prop :=
  (sptGet vm f.faultAddr).isSome = true ∨
    f.nearStack = true ∧ physBase - maxStack < f.esp ∧ c.pageMemory = true

/-- The page cannot be brought in: the file is too short, or there is no page table for it. -/
def PageInFails (c : Choices) (vm : Memory) (f : PageFault) (pg : Page) : Prop :=
  pg.pLoc = .mmf ∧ c.bytesRead ≠ pg.pageReadBytes ∨
    vm.pagedir (pdNo f.faultAddr) = none ∧ c.pageTable = false

/-- The page is not in swap, does not overrun its frame, and is brought in with the right to write if
    that is the access, or else cannot be brought in and its frame is given back. -/
def PageOk (c : Choices) (vm : Memory) (f : PageFault) (pg : Page) : Prop :=
  pg.pLoc ≠ .swap ∧ (pg.pLoc = .mmf → c.bytesRead ≤ pgSize) ∧
    (PageInFails c vm f pg → c.staleFrame ≠ none) ∧
    (¬ PageInFails c vm f pg → f.write = true → pg.writable = true)

/-- **The condition**: a user access to a user page that is not present; a frame is free, or there
    are none at all; and with a frame, the page can be brought in or is refused. -/
structure FaultOk (c : Choices) (vm : Memory) (f : PageFault) : Prop where
  user : f.user = true
  address : isUserVaddr f.faultAddr = true
  notPresent : f.notPresent = true
  frame : needsFrame c vm f → c.userPage = none → vm.lruQueue = []
  page : ∀ pg, sptGet vm f.faultAddr = some pg → GotFrame c → PageOk c vm f pg

section

variable {c : Choices} {vm : Memory} {f : PageFault} {pd : PageDir}

/-- A page that has just been installed can be accessed, if only it can be written to. -/
theorem permits_installed {kpage : Nat} {writable : Bool} (hu : f.user = true)
    (h : lookupPage pd (pgRoundDown f.faultAddr) = some (pteCreateUser kpage writable)) :
    permits pd f = true ↔ (f.write = true → writable = true) := by
  rw [lookupPage_roundDown] at h
  simp only [permits, h, pteCreateUser, hu]
  cases f.write <;> simp

theorem getPage_roundDown (h : pagedirGetPage pd f.faultAddr = none) :
    pagedirGetPage pd (pgRoundDown f.faultAddr) = none := by
  unfold pagedirGetPage at h ⊢
  rw [lookupPage_roundDown]
  cases hl : lookupPage pd f.faultAddr with
  | none => rfl
  | some pte =>
    rw [hl] at h
    cases hp : pte.present <;> simp [hp] at h ⊢

theorem settled_ftRemove {g : Memory → Memory} :
    Settled f (finish (do let vm ← ftRemove c vm; return (false, g vm))) ↔ c.staleFrame ≠ none := by
  unfold ftRemove
  cases c.staleFrame with
  | none => simp [Bind.bind, Except.bind, finish, Settled]
  | some => simp [Bind.bind, Except.bind, Pure.pure, Except.pure, finish, Settled]

/-- The page could not be mapped for want of a page table. -/
def NoTable (c : Choices) (vm : Memory) (f : PageFault) : Prop :=
  vm.pagedir (pdNo f.faultAddr) = none ∧ c.pageTable = false

theorem settled_installLoaded (c : Choices) (vm : Memory) (hu : f.user = true)
    (hp : pagedirGetPage vm.pagedir f.faultAddr = none) (addr : Nat) (pg : Page) :
    Settled f (finish (installLoaded c vm (pgRoundDown f.faultAddr) addr pg)) ↔
      (NoTable c vm f → c.staleFrame ≠ none) ∧
      (¬ NoTable c vm f → f.write = true → pg.writable = true) := by
  unfold installLoaded NoTable
  rw [← (pgRoundDown_indices f.faultAddr).2]
  rcases installPage_cases (getPage_roundDown hp) addr pg.writable c.pageTable with
    ⟨h1, h2, hi⟩ | ⟨hn, pd', hi, hl⟩
  · rw [hi, and_iff_left fun h => absurd ⟨h1, h2⟩ h, imp_iff_right ⟨h1, h2⟩]
    exact settled_ftRemove
  · rw [hi, and_iff_right fun h => absurd h hn, imp_iff_right hn]
    exact permits_installed hu hl

variable (hu : f.user = true) (hp : pagedirGetPage vm.pagedir f.faultAddr = none)
include hu hp

/-- **A page of the supplemental page table.** -/
theorem settled_page (pg : Page) :
    Settled f (finish (sptGetFrame c vm (pgRoundDown f.faultAddr) pg)) ↔
      (c.userPage = none → vm.lruQueue = []) ∧ (GotFrame c → PageOk c vm f pg) := by
  rcases ftAdd_cases c vm (pgRoundDown f.faultAddr) with
    ⟨hg, addr, q, hadd⟩ | ⟨hg, hq, hadd⟩ | ⟨hg, hnone, hq, hadd⟩
  · rw [and_iff_right fun h => absurd h hg.1, imp_iff_right hg, PageOk]
    have hinst := settled_installLoaded c { vm with lruQueue := q } hu hp addr pg
    have hrun : ∀ loaded, pageIn c pg = .ok loaded → sptGetFrame c vm (pgRoundDown f.faultAddr) pg =
          if loaded then installLoaded c { vm with lruQueue := q } (pgRoundDown f.faultAddr) addr pg
          else do
            let vm ← ftRemove c { vm with lruQueue := q }
            return (false, { vm with
              pagedir := pagedirClearPage vm.pagedir (pgRoundDown f.faultAddr) }) := by
      intro loaded hl
      simp only [sptGetFrame, hadd, hl, Bind.bind, Except.bind]
    cases hloc : pg.pLoc with
    | mem =>
      have hfails : PageInFails c vm f pg ↔ NoTable c vm f := by simp [PageInFails, NoTable, hloc]
      rw [hrun true (by simp [pageIn, hloc]), if_pos rfl, hinst, hfails]
      simp [NoTable]
    | swap =>
      simp [sptGetFrame, hadd, pageIn, hloc, acquireSwapLock, Bind.bind, Except.bind, finish,
        Settled]
    | mmf =>
      by_cases hover : pgSize < c.bytesRead
      · have hstop : sptGetFrame c vm (pgRoundDown f.faultAddr) pg = .error .overrun := by
          simp [sptGetFrame, hadd, pageIn, hloc, hover, Bind.bind, Except.bind]
        rw [hstop]
        simp only [finish, Settled, false_iff]
        exact fun h => absurd (h.2.1 trivial) (by omega)
      · have hin : pageIn c pg = .ok (decide (c.bytesRead = pg.pageReadBytes)) := by
          simp [pageIn, hloc, hover]
        rw [hrun _ hin]
        by_cases hread : c.bytesRead = pg.pageReadBytes
        · have hfails : PageInFails c vm f pg ↔ NoTable c vm f := by
            simp [PageInFails, NoTable, hread]
          rw [if_pos (decide_eq_true hread), hinst, hfails]
          simp [NoTable, Nat.not_lt.mp hover]
        · have hfails : PageInFails c vm f pg := Or.inl ⟨hloc, hread⟩
          rw [if_neg (by simpa using hread), settled_ftRemove]
          simp [hfails, Nat.not_lt.mp hover]
  · simp only [sptGetFrame, hadd, Bind.bind, Except.bind, finish, Settled, true_iff]
    exact ⟨hq, fun h => absurd h hg⟩
  · simp only [sptGetFrame, hadd, Bind.bind, Except.bind, finish, Settled, false_iff]
    exact fun h => hq (h.1 hnone)

/-- **A new page on the stack** can be written to. -/
theorem settled_stack :
    Settled f (finish (newPageOnStack c vm f.esp f.faultAddr)) ↔
      (physBase - maxStack < f.esp ∧ c.pageMemory = true → c.userPage = none →
        vm.lruQueue = []) := by
  unfold newPageOnStack
  by_cases hgrow : physBase - maxStack < f.esp ∧ c.pageMemory = true
  · rw [if_pos hgrow, imp_iff_right hgrow]
    rcases ftAdd_cases c (spCreate vm (pgRoundDown f.faultAddr)) (pgRoundDown f.faultAddr) with
      ⟨hg, addr, q, hadd⟩ | ⟨hg, hq, hadd⟩ | ⟨hg, hnone, hq, hadd⟩
    · simp only [hadd, Bind.bind, Except.bind]
      refine iff_of_true ?_ fun h => absurd h hg.1
      rcases installPage_cases (getPage_roundDown hp) addr stackPage.writable c.pageTable with
        ⟨_, _, hi⟩ | ⟨_, pd', hi, hl⟩
      · simp only [spCreate, hi]
        trivial
      · simp only [spCreate, hi]
        exact (permits_installed hu hl).mpr fun _ => rfl
    · simp only [hadd, Bind.bind, Except.bind, finish, Settled, true_iff]
      exact hq
    · simp only [hadd, Bind.bind, Except.bind, finish, Settled, false_iff]
      exact fun h => hq (h hnone)
  · rw [if_neg hgrow]
    exact iff_of_true trivial fun h => absurd h hgrow

theorem settled_bringIn :
    Settled f (finish (bringIn c vm f)) ↔
      (needsFrame c vm f → c.userPage = none → vm.lruQueue = []) ∧
      ∀ pg, sptGet vm f.faultAddr = some pg → GotFrame c → PageOk c vm f pg := by
  unfold bringIn needsFrame
  cases hs : sptGet vm f.faultAddr with
  | some pg =>
    simp only [isSome_some, true_or, forall_const, some.injEq, forall_eq']
    exact settled_page hu hp pg
  | none =>
    simp only [isSome_none, Bool.false_eq_true, false_or, reduceCtorEq, false_imp_iff,
      implies_true, and_true]
    cases hn : f.nearStack with
    | false => simp [finish, Settled]
    | true =>
      rw [if_pos rfl, settled_stack hu hp]
      simp

end

/-- **Which page faults are settled.**  A fault that the processor raises is settled EXACTLY IF it is
    a user access to a user page that is not present, and bringing the page in neither faults nor
    overruns its frame nor, for a write, ends with a page that is read-only. -/
theorem page_fault_settled (c : Choices) (vm : Memory) (f : PageFault)
    (h : Raised vm.pagedir f) : Settled f (pageFault c vm f) ↔ FaultOk c vm f := by
  obtain ⟨hforbid, hpresent⟩ := h
  by_cases hhandled : (f.user && isUserVaddr f.faultAddr && f.notPresent) = true
  · obtain ⟨⟨hu, ha⟩, hn⟩ : (f.user = true ∧ isUserVaddr f.faultAddr = true) ∧
        f.notPresent = true := by simpa using hhandled
    rw [pageFault, if_pos hhandled, settled_bringIn hu (hpresent.mp hn)]
    exact ⟨fun hx => ⟨hu, ha, hn, hx.1, hx.2⟩, fun hx => ⟨hx.frame, hx.page⟩⟩
  · -- nothing is done, and the access is as forbidden as before
    rw [pageFault, if_neg hhandled]
    constructor
    · intro hx
      have hx' : permits vm.pagedir f = true := hx
      rw [hforbid] at hx'
      cases hx'
    · rintro ⟨hu, ha, hn, -, -⟩
      exact absurd (by rw [hu, ha, hn]; rfl) hhandled

/-! ## Faults -/

/-- A process with a read-only page that is present, at page 1; and in its supplemental page table a
    read-only page, at page 2, and a page that can be written to, at page 3.  There is nothing at
    page 4.  Kernel memory is mapped for the kernel. -/
def process : Memory where
  pagedir := fun d =>
    if d = 0 then some fun t =>
      { present := decide (t = 1), writable := false, user := true, page := physBase }
    else if d = pdNo physBase then some fun t =>
      { present := true, writable := true, user := false, page := physBase + t * pgSize }
    else none
  spt := fun upage =>
    if upage = 2 * pgSize then some { pageReadBytes := 8, writable := false, pLoc := .mmf }
    else if upage = 3 * pgSize then some { pageReadBytes := 8, writable := true, pLoc := .mmf }
    else none
  lruQueue := [{ addr := physBase, upage := pgSize }]

/-- There is enough of everything, and files are long enough. -/
def plenty : Choices where
  userPage := some (physBase + pgSize)
  frameMemory := true
  pageMemory := true
  pageTable := true
  bytesRead := 8
  staleFrame := none

/-- A write of the user's to a page that can be written to. -/
theorem page_fault_settled_write :
    Raised process.pagedir { faultAddr := 12288, esp := physBase, errorCode := 6 } ∧
    Settled { faultAddr := 12288, esp := physBase, errorCode := 6 }
      (pageFault plenty process { faultAddr := 12288, esp := physBase, errorCode := 6 }) := by
  have hraised : Raised process.pagedir
      { faultAddr := 12288, esp := physBase, errorCode := 6 } := by
    unfold Raised
    decide
  refine ⟨hraised, (page_fault_settled _ _ _ hraised).mpr ⟨rfl, rfl, rfl, ?_, ?_⟩⟩
  · intro _ hnone
    cases hnone
  intro pg hpg _
  obtain rfl : { pageReadBytes := 8, writable := true, pLoc := .mmf } = pg := some.inj hpg
  refine ⟨by decide, fun _ => by decide, ?_, fun _ _ => rfl⟩
  rintro (⟨_, h⟩ | ⟨h, _⟩)
  · exact absurd rfl h
  · cases h

/-- The handler returns from the fault, and the access is still forbidden. -/
def LeftPending (c : Choices) (vm : Memory) (f : PageFault) : Prop :=
  Raised vm.pagedir f ∧ ∃ vm', pageFault c vm f = .ok vm' ∧ permits vm'.pagedir f = false

/-- **The defects.**  A user access to kernel memory; a write to a read-only page that is present; an
    access of the kernel's to a page that is not; and a write to a read-only page that is not
    present, which is mapped read-only. -/
theorem faults_left_pending :
    LeftPending plenty process { faultAddr := physBase, esp := physBase, errorCode := 5 } ∧
    LeftPending plenty process { faultAddr := pgSize, esp := physBase, errorCode := 7 } ∧
    LeftPending plenty process { faultAddr := 4 * pgSize, esp := physBase, errorCode := 0 } ∧
    LeftPending plenty process { faultAddr := 2 * pgSize, esp := physBase, errorCode := 6 } := by
  unfold LeftPending Raised
  refine ⟨⟨by decide, _, rfl, ?_⟩, ⟨by decide, _, rfl, ?_⟩, ⟨by decide, _, rfl, ?_⟩,
    ⟨by decide, _, rfl, ?_⟩⟩
  · decide
  · decide
  · decide
  · decide

end Pintos.Vm
