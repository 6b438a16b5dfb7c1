/-
  Processes: `process_execute`, `start_process`, `process_wait` and `process_exit`.

  A parent and a child share ONE record, the `child_data` of the child: its `return_status` carries
  the exit status, its `wait_sema` the wake-up, and its `finished` flag says which of the two goes
  away first and who frees the record.

  1. **Names** — a thread and its `child_data` are named by the `tid_t`.  It is an UNBOUNDED `Int`
     here and a 32-bit `int` in the source, where `allocate_tid` starts again after 2^31 threads.  A
     pointer that is null, or to a record that has been freed, stops the machine with a `Fault` when
     it is followed.

  2. **Places** — every thread is at one `Place`, which carries the local variables that are live
     there.  Between two places other threads run, so a test and the write it decides are two steps.
     `wait_sema` is its value: `sema_down` can be passed when there is a unit.

  3. **Choices** — what the code leaves to its environment is part of the `Action`: whether an
     allocation or a `load` succeeds, what a user program does next, and what the pointer
     `child_thread` of `process_execute` holds, which NOBODY ever initialises (`Garbage`).

  `close_all_files`, the page directory and the console take no part in the protocol.
-/
import Mathlib.Logic.Function.Basic
import Pintos.Base.Machine

namespace Pintos.Userprog

open Base Function

/-! ## The state -/

def tidError : Int := -1

def badExit : Int := -1

/-- `struct child_data`; `loaded_successfully` and `sync_sema` are never read. -/
structure ChildData where
  pid : Int
  returnStatus : Int
  finished : Bool
  /-- The value of `wait_sema`. -/
  waitSema : Nat
  deriving DecidableEq

/-- A `struct child_data *`: null, or the record of a thread. -/
abbrev DataRef := Option Int

inductive Place where
  /-- `start_process`, at its `load`. -/
  | startProcess
  /-- `start_process`, back from `load`. -/
  | loaded (success : Bool)
  /-- Outside these functions: in user code, or in `run_task` for the initial thread. -/
  | user
  /-- `process_execute`, at its `palloc_get_page`. -/
  | executePage (fileName : List Char)
  /-- At its `thread_create`. -/
  | executeCreate (fileName : List Char)
  /-- At its `thread_by_tid`. -/
  | executeLookup (tid : Int)
  /-- At the assignment to `child_thread->data`; `found` is what `thread_by_tid` returned. -/
  | executeRead (tid : Int) (found : Option Int)
  /-- At its `list_insert`. -/
  | executeInsert (tid : Int) (childProcess : DataRef)
  /-- At its `sema_down`. -/
  | executeDown (tid : Int) (childProcess : Int)
  /-- Back from its `sema_down`. -/
  | executeTest (tid : Int) (childProcess : Int)
  /-- About to return `r`; `tid` is the variable of that name, if it has been assigned. -/
  | executeReturn (tid : Option Int) (r : Int)
  /-- `process_wait (childTid)`, at its search. -/
  | waitFind (childTid : Int)
  /-- At its test of `p->finished`. -/
  | waitTest (childTid : Int) (p : Int)
  /-- At its `sema_down`. -/
  | waitDown (childTid : Int) (p : Int)
  /-- Where it reads the status, removes `p` from the list and frees it. -/
  | waitRead (childTid : Int) (p : Int)
  /-- About to return `r`. -/
  | waitReturn (childTid : Int) (r : Int)
  /-- `exit (status)`. -/
  | exit (status : Int)
  /-- `thread_exit`, at the start of `process_exit`. -/
  | processExit
  /-- `process_exit`, in the loop over its children. -/
  | exitChildren (rest : List Int)
  /-- In the body of the loop; `finished` is what it has read. -/
  | exitChild (p : Int) (rest : List Int) (finished : Bool)
  /-- Past the loop. -/
  | exitSelf
  /-- `finished` is what it has read of its own record. -/
  | exitOwn (finished : Bool)
  /-- At its `sema_up`. -/
  | exitUp
  /-- Back in `thread_exit`, about to leave `all_list`. -/
  | exitRemove
  deriving DecidableEq

/-- The members of `struct thread` that these functions read. -/
structure Process where
  isUserProcess : Bool
  /-- `parent`: `init_thread` clears it, and nothing ever assigns it. -/
  parent : Option Int
  data : DataRef
  /-- `child_processes`, front first. -/
  childProcesses : List Int
  place : Place
  deriving DecidableEq

structure Processes where
  /-- `next_tid`. -/
  nextTid : Int
  /-- `all_list`. -/
  allList : List Int
  /-- The `struct thread`s. -/
  thread : Int → Process
  /-- The `child_data` records that are allocated. -/
  childData : Int → Option ChildData

inductive Fault where
  /-- A null `struct thread *` was followed. -/
  | nullThread
  /-- A `struct thread *` was followed to a page that has been freed. -/
  | freedThread
  /-- A null `struct child_data *` was followed. -/
  | nullData
  /-- A `struct child_data *` was followed to a record that has been freed. -/
  | freedData
  /-- `ASSERT (name != NULL)` in `init_thread`. -/
  | threadName
  /-- `PANIC` in `kill`. -/
  | kernelBug
  deriving DecidableEq

/-! ## What is left to the environment -/

/-- What becomes of a `thread_create`. -/
inductive Creation where
  /-- There is no page for the thread. -/
  | noThread
  /-- There is no memory for its `child_data`. -/
  | noData
  | created
  deriving DecidableEq

/-- What the uninitialised `child_thread` of `process_execute` points at. -/
inductive Garbage where
  | null
  /-- A thread, whose `data` is overwritten. -/
  | thread (t : Int)
  /-- Memory that holds none of the records modelled here. -/
  | elsewhere
  deriving DecidableEq

/-- The code segment an exception comes from. -/
inductive Segment where
  | user
  | kernel
  | other
  deriving DecidableEq

inductive Action where
  /-- It takes a step that leaves nothing open. -/
  | step (t : Int)
  /-- Its `load` returns. -/
  | load (t : Int) (success : Bool)
  /-- It calls `process_execute (fileName)`. -/
  | execute (t : Int) (fileName : List Char)
  /-- It calls `process_wait (childTid)`. -/
  | wait (t : Int) (childTid : Int)
  /-- Its user program calls `exit (status)`. -/
  | exit (t : Int) (status : Int)
  /-- Its user program takes a page fault that cannot be resolved. -/
  | pageFault (t : Int)
  /-- Its user program takes any other exception. -/
  | kill (t : Int) (cs : Segment)
  /-- Its `palloc_get_page` returns. -/
  | page (t : Int) (ok : Bool)
  /-- Its `thread_create` returns. -/
  | create (t : Int) (c : Creation)
  /-- It reads the `data` of its child through `child_thread`. -/
  | read (t : Int) (g : Garbage)
  deriving DecidableEq

def Action.actor : Action → Int
  | .step t | .load t _ | .execute t _ | .wait t _ | .exit t _ | .pageFault t | .kill t _
  | .page t _ | .create t _ | .read t _ => t

/-! ## The functions -/

namespace Processes

def setThread (s : Processes) (t : Int) (th : Process) : Processes :=
  { s with thread := update s.thread t th }

def goTo (s : Processes) (t : Int) (pl : Place) : Processes :=
  s.setThread t { s.thread t with place := pl }

def setData (s : Processes) (c : Int) (d : ChildData) : Processes :=
  { s with childData := update s.childData c (some d) }

def freeData (s : Processes) (c : Int) : Processes :=
  { s with childData := update s.childData c none }

/-- Follow a `struct child_data *`. -/
def getData (s : Processes) : DataRef → Except Fault (Int × ChildData)
  | none => .error .nullData
  | some c =>
    match s.childData c with
    | none => .error .freedData
    | some d => .ok (c, d)

def threadByTid (s : Processes) (tid : Int) : Option Int := s.allList.find? (· = tid)

/-- The first token of a command line, as `strtok_r` finds it. -/
def firstToken (fileName : List Char) : Option (List Char) :=
  match fileName.dropWhile (· = ' ') with
  | [] => none
  | c :: cs => some ((c :: cs).takeWhile (· ≠ ' '))

/-- `palloc_get_page` in `process_execute`. -/
def executePage (s : Processes) (t : Int) (fileName : List Char) (ok : Bool) : Processes :=
  if ok then s.goTo t (.executeCreate fileName) else s.goTo t (.executeReturn none tidError)

/-- `thread_create` of a child, up to the point where it can run. -/
def threadCreate (s : Processes) (data : DataRef) : Processes :=
  let th : Process :=
    { isUserProcess := false, parent := none, data := data, childProcesses := [],
      place := .startProcess }
  { s.setThread s.nextTid th with
    nextTid := s.nextTid + 1
    allList := s.allList ++ [s.nextTid] }

/-- `thread_create` in `process_execute`. -/
def executeCreate (s : Processes) (t : Int) (fileName : List Char) :
    Creation → Except Fault Processes
  | .noThread => .ok (s.goTo t (.executeLookup tidError))
  | .noData =>
    match firstToken fileName with
    | none => .error .threadName
    | some _ => .ok ((s.threadCreate none).goTo t (.executeLookup s.nextTid))
  | .created =>
    match firstToken fileName with
    | none => .error .threadName
    | some _ =>
      let child : ChildData :=
        { pid := s.nextTid, returnStatus := 0, finished := false, waitSema := 0 }
      .ok (((s.threadCreate (some s.nextTid)).setData s.nextTid child).goTo t
        (.executeLookup s.nextTid))

/-- `child_thread->data = thread_by_tid (tid)->data; child_process = child_thread->data;`. -/
def executeRead (s : Processes) (t tid : Int) (found : Option Int) (g : Garbage) :
    Except Fault Processes :=
  match found with
  | none => .error .nullThread
  | some c =>
    if c ∈ s.allList then
      let data := (s.thread c).data
      match g with
      | .null => .error .nullThread
      | .elsewhere => .ok (s.goTo t (.executeInsert tid data))
      | .thread u =>
        .ok ((s.setThread u { s.thread u with data := data }).goTo t (.executeInsert tid data))
    else .error .freedThread

/-- `list_insert (list_tail (&current_thread->child_processes), &child_process->elem)`. -/
def executeInsert (s : Processes) (t tid : Int) (childProcess : DataRef) : Except Fault Processes :=
  match s.getData childProcess with
  | .error f => .error f
  | .ok (c, _) =>
    .ok (s.setThread t
      { s.thread t with
        childProcesses := (s.thread t).childProcesses ++ [c]
        place := .executeDown tid c })

/-- Pass `sema_down (&p->wait_sema)`, which has a unit, and go on at `pl`. -/
def semaDown (s : Processes) (t p : Int) (pl : Place) : Except Fault Processes :=
  match s.getData (some p) with
  | .error f => .error f
  | .ok (_, d) => .ok ((s.setData p { d with waitSema := d.waitSema - 1 }).goTo t pl)

/-- `if (child_process->return_status == BAD_EXIT)`. -/
def executeTest (s : Processes) (t tid childProcess : Int) : Except Fault Processes :=
  match s.getData (some childProcess) with
  | .error f => .error f
  | .ok (_, d) =>
    .ok (s.goTo t
      (.executeReturn (some tid) (if d.returnStatus = badExit then badExit else tid)))

/-- The loop of `process_wait` over `child_processes`; null if no record matches. -/
def findChild (s : Processes) (childTid : Int) : List Int → Except Fault DataRef
  | [] => .ok none
  | c :: cs =>
    match s.childData c with
    | none => .error .freedData
    | some d => if d.pid = childTid then .ok (some c) else findChild s childTid cs

/-- `process_wait (childTid)`, up to the record it waits for. -/
def waitFind (s : Processes) (t childTid : Int) : Except Fault Processes :=
  if childTid = tidError then .ok (s.goTo t (.waitReturn childTid badExit))
  else
    match s.findChild childTid (s.thread t).childProcesses with
    | .error f => .error f
    | .ok none => .ok (s.goTo t (.waitReturn childTid badExit))
    | .ok (some p) => .ok (s.goTo t (.waitTest childTid p))

def waitTest (s : Processes) (t childTid p : Int) : Except Fault Processes :=
  match s.getData (some p) with
  | .error f => .error f
  | .ok (_, d) =>
    .ok (s.goTo t (if d.finished then .waitRead childTid p else .waitDown childTid p))

/-- The end of `process_wait`: read the status, `list_remove`, `free`. -/
def waitRead (s : Processes) (t childTid p : Int) : Except Fault Processes :=
  match s.getData (some p) with
  | .error f => .error f
  | .ok (_, d) =>
    .ok ((s.freeData p).setThread t
      { s.thread t with
        childProcesses := (s.thread t).childProcesses.erase p
        place := .waitReturn childTid d.returnStatus })

/-- `exit (status)`: record the status in `thread_current ()->data`. -/
def exit (s : Processes) (t : Int) (status : Int) : Except Fault Processes :=
  match s.getData (s.thread t).data with
  | .error f => .error f
  | .ok (c, d) => .ok ((s.setData c { d with returnStatus := status }).goTo t .processExit)

/-- `process_exit`, at its `printf`: `return_status` is read if there is a record. -/
def processExit (s : Processes) (t : Int) : Except Fault Processes :=
  match (s.thread t).data with
  | none => .ok (s.goTo t (.exitChildren (s.thread t).childProcesses))
  | some c =>
    match s.getData (some c) with
    | .error f => .error f
    | .ok _ => .ok (s.goTo t (.exitChildren (s.thread t).childProcesses))

/-- The loop of `process_exit`, at its test. -/
def exitChildren (s : Processes) (t : Int) : List Int → Except Fault Processes
  | [] => .ok (s.goTo t .exitSelf)
  | p :: rest =>
    match s.getData (some p) with
    | .error f => .error f
    | .ok (_, d) => .ok (s.goTo t (.exitChild p rest d.finished))

/-- The body of the loop of `process_exit`. -/
def exitChild (s : Processes) (t p : Int) (rest : List Int) (finished : Bool) :
    Except Fault Processes :=
  match s.getData (some p) with
  | .error f => .error f
  | .ok (_, d) =>
    if finished then .ok ((s.freeData p).goTo t (.exitChildren rest))
    else .ok ((s.setData p { d with finished := true }).goTo t (.exitChildren rest))

def exitSelf (s : Processes) (t : Int) : Except Fault Processes :=
  match s.getData (s.thread t).data with
  | .error f => .error f
  | .ok (_, d) => .ok (s.goTo t (.exitOwn d.finished))

/-- The two branches of that test, up to the `sema_up`. -/
def exitOwn (s : Processes) (t : Int) (finished : Bool) : Except Fault Processes :=
  match s.getData (s.thread t).data with
  | .error f => .error f
  | .ok (c, d) =>
    if finished then .ok ((s.freeData c).goTo t .exitRemove)
    else .ok ((s.setData c { d with finished := true }).goTo t .exitUp)

def exitUp (s : Processes) (t : Int) : Except Fault Processes :=
  match s.getData (s.thread t).data with
  | .error f => .error f
  | .ok (c, d) => .ok ((s.setData c { d with waitSema := d.waitSema + 1 }).goTo t .exitRemove)

/-- `list_remove (&thread_current ()->allelem)`: the thread is gone. -/
def exitRemove (s : Processes) (t : Int) : Processes := { s with allList := s.allList.erase t }

/-- `start_process`, back from `load`: the `sema_up` is for a child that knows its parent. -/
def loaded (s : Processes) (t : Int) (success : Bool) : Except Fault Processes :=
  let go : Place := if success then .user else .exit badExit
  match (s.thread t).parent with
  | none => .ok (s.goTo t go)
  | some _ =>
    match s.getData (s.thread t).data with
    | .error f => .error f
    | .ok (c, d) => .ok ((s.setData c { d with waitSema := d.waitSema + 1 }).goTo t go)

/-- `start_process`, up to the end of `load`. -/
def startProcess (s : Processes) (t : Int) (success : Bool) : Processes :=
  s.setThread t { s.thread t with isUserProcess := true, place := .loaded success }

def kill (s : Processes) (t : Int) : Segment → Except Fault Processes
  | .user | .other => .ok (s.goTo t .processExit)
  | .kernel => .error .kernelBug

/-- The steps that leave nothing open. -/
def stepAt (s : Processes) (t : Int) : Place → Except Fault Processes
  | .loaded success => s.loaded t success
  | .executeLookup tid => .ok (s.goTo t (.executeRead tid (s.threadByTid tid)))
  | .executeInsert tid childProcess => s.executeInsert t tid childProcess
  | .executeDown tid childProcess => s.semaDown t childProcess (.executeTest tid childProcess)
  | .executeTest tid childProcess => s.executeTest t tid childProcess
  | .executeReturn _ _ => .ok (s.goTo t .user)
  | .waitFind childTid => s.waitFind t childTid
  | .waitTest childTid p => s.waitTest t childTid p
  | .waitDown childTid p => s.semaDown t p (.waitRead childTid p)
  | .waitRead childTid p => s.waitRead t childTid p
  | .waitReturn _ _ => .ok (s.goTo t .user)
  | .exit status => s.exit t status
  | .processExit => s.processExit t
  | .exitChildren rest => s.exitChildren t rest
  | .exitChild p rest finished => s.exitChild t p rest finished
  | .exitSelf => s.exitSelf t
  | .exitOwn finished => s.exitOwn t finished
  | .exitUp => s.exitUp t
  | .exitRemove => .ok (s.exitRemove t)
  | .startProcess | .user | .executePage _ | .executeCreate _ | .executeRead _ _ => .ok s

/-- The end of `palloc_get_page`, at the place for it. -/
def pageAt (s : Processes) (t : Int) (ok : Bool) : Place → Except Fault Processes
  | .executePage fileName => .ok (s.executePage t fileName ok)
  | _ => .ok s

/-- The end of `thread_create`, at the place for it. -/
def createAt (s : Processes) (t : Int) (c : Creation) : Place → Except Fault Processes
  | .executeCreate fileName => s.executeCreate t fileName c
  | _ => .ok s

/-- The reading of the child's `data`, at the place for it. -/
def readAt (s : Processes) (t : Int) (g : Garbage) : Place → Except Fault Processes
  | .executeRead tid found => s.executeRead t tid found g
  | _ => .ok s

def step (s : Processes) : Action → Except Fault Processes
  | .step t => s.stepAt t (s.thread t).place
  | .load t success => .ok (s.startProcess t success)
  | .execute t fileName => .ok (s.goTo t (.executePage fileName))
  | .wait t childTid => .ok (s.goTo t (.waitFind childTid))
  | .exit t status => .ok (s.goTo t (.exit status))
  | .pageFault t => .ok (s.goTo t (.exit badExit))
  | .kill t cs => s.kill t cs
  | .page t ok => s.pageAt t ok (s.thread t).place
  | .create t c => s.createAt t c (s.thread t).place
  | .read t g => s.readAt t g (s.thread t).place

/-! ## What can happen when -/

/-- A `sema_down (&p->wait_sema)` is not blocked. -/
def canDown (s : Processes) (p : Int) : Bool :=
  match s.childData p with
  | none => true
  | some d => 0 < d.waitSema

/-- The place of a thread allows the action. -/
def allows (s : Processes) (t : Int) : Action → Bool
  | .step _ =>
    match (s.thread t).place with
    | .startProcess | .user | .executePage _ | .executeCreate _ | .executeRead _ _ => false
    | .executeDown _ p | .waitDown _ p => s.canDown p
    | _ => true
  | .load _ _ => (s.thread t).place = .startProcess
  | .execute _ _ | .wait _ _ => (s.thread t).place = .user
  | .exit _ _ | .pageFault _ | .kill _ _ =>
    (s.thread t).place = .user && (s.thread t).isUserProcess
  | .page _ _ => ((s.thread t).place matches .executePage _)
  | .create _ _ => ((s.thread t).place matches .executeCreate _)
  | .read _ _ => ((s.thread t).place matches .executeRead _ _)

def enabled (s : Processes) (a : Action) : Bool := a.actor ∈ s.allList && s.allows a.actor a

end Processes

def processMachine : Machine Processes Action Fault where
  enabled s a := s.enabled a = true
  step := Processes.step

instance (s : Processes) (a : Action) : Decidable (processMachine.enabled s a) :=
  inferInstanceAs (Decidable (s.enabled a = true))

/-- The initial thread, which is no process and has no `child_data`. -/
def mainTid : Int := 1

/-- `run_task`: the initial thread is about to call `process_execute`; the idle thread has `tid`
    2. -/
def boot : Processes where
  nextTid := 3
  allList := [mainTid]
  thread := fun _ =>
    { isUserProcess := false, parent := none, data := none, childProcesses := [], place := .user }
  childData := fun _ => none

end Pintos.Userprog
