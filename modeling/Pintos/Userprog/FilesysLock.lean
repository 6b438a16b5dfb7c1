/-
  The file-system lock: `filesys_access` of `userprog/syscall.c`.

  1. **Callers** — the system calls, the exit of a process, `deny_write_to_exec`, the page fault of a
     memory-mapped page, and `load`.  The scripts below say for every path through each of them which
     functions of the file system it calls, and where it takes the lock.  `create` and `remove` use
     `lock_acquire`, the others `acquire_filesys_lock`; `load` uses NEITHER.

  2. **`exec` waits** — `process_execute` downs the `wait_sema` of the child.  `start_process` ups it
     only if `parent` is set, which no statement does, so the parent is back when the child has come
     to the end of its `process_exit`.

  3. **The theorem** (`filesys_exclusion`) — all along a run every thread inside the file system holds
     the lock, and there is at most one, exactly if no step of the run is a call from `load`.

  4. **The defect** (`load_inside_unlocked`) — a process that is being loaded is inside the file system,
     and nobody holds the lock.

  `inode_*`, `dir_*` and `free_map_*` are called by `filesys_*` and `file_*` only.
-/
import Pintos.Threads.Scripts

namespace Pintos.Userprog.FilesysLock

open Base Threads List

def filesysAccess : LockRef := 1

/-- The functions that the file system offers to the rest of the kernel. -/
inductive FsFunction where
  | filesysCreate | filesysOpen | filesysRemove
  | fileReopen | fileClose | fileRead | fileReadAt | fileWrite | fileDenyWrite
  | fileSeek | fileTell | fileLength
  deriving DecidableEq

/-- Where a thread is: in `load`, or in a function of the file system. -/
inductive Place where
  | load
  | fs (f : FsFunction)
  deriving DecidableEq

/-! ## The callers -/

def fsCalls (fs : List FsFunction) : List (Op Place) := fs.flatMap fun f => [.enter (.fs f), .leave]

/-- Calls between `acquire_filesys_lock` and `release_filesys_lock`. -/
def locked (fs : List FsFunction) : List (Op Place) := [.acquireIf] ++ fsCalls fs ++ [.releaseIf]

/-- A call that is made if the descriptor is that of an open file. -/
def lockedIf (found : Bool) (f : FsFunction) : List (Op Place) := if found then locked [f] else []

/-- `create`; `remove` is the same around another function. -/
def create : List (Op Place) := [.acquire] ++ fsCalls [.filesysCreate] ++ [.release]

def remove : List (Op Place) := [.acquire] ++ fsCalls [.filesysRemove] ++ [.release]

/-- `close_all_files`, of a process with this many open files. -/
def closeAllFiles (files : Nat) (parent : Bool) : List (Op Place) :=
  locked (replicate files .fileClose ++ [if parent then .fileDenyWrite else .fileClose])

/-- `thread_exit`, with `process_exit`: it ups the `wait_sema`, since `finished` is only set by a parent
    that has exited before its child, and parents wait. -/
def threadExit (files : Nat) (parent : Bool) : List (Op Place) :=
  closeAllFiles files parent ++ [.post, .exit]

/-- `deny_write_to_exec`; the file may not be there. -/
def denyWriteToExec (found : Bool) : List (Op Place) :=
  locked (if found then [.filesysOpen, .fileDenyWrite] else [.filesysOpen])

/-! ### `load` -/

/-- What `load` makes of a segment. -/
inductive SegmentPath where
  /-- `validate_segment` finds different page offsets. -/
  | unaligned
  /-- `validate_segment` fails later. -/
  | invalid
  /-- `load_segment` finds no memory. -/
  | noMemory
  | loaded
  deriving DecidableEq

/-- What `load` makes of a program header. -/
inductive HeaderPath where
  /-- `file_ofs < 0`. -/
  | badOffset
  /-- `file_ofs > file_length (file)`. -/
  | beyond
  | shortRead
  /-- `PT_DYNAMIC`, `PT_INTERP` and `PT_SHLIB`. -/
  | refused
  | ignored
  | segment (p : SegmentPath)
  deriving DecidableEq

/-- The calls of one turn of the loop over the program headers. -/
def HeaderPath.calls : HeaderPath → List FsFunction
  | .badOffset => []
  | .beyond => [.fileLength]
  | .shortRead | .refused | .ignored | .segment .unaligned => [.fileLength, .fileSeek, .fileRead]
  | .segment .invalid => [.fileLength, .fileSeek, .fileRead, .fileLength]
  | .segment .noMemory | .segment .loaded =>
    [.fileLength, .fileSeek, .fileRead, .fileLength, .fileSeek]

/-- The loop goes on; otherwise `goto done`. -/
def HeaderPath.goesOn : HeaderPath → Bool
  | .ignored | .segment .loaded => true
  | _ => false

def headerCalls : List HeaderPath → List FsFunction
  | [] => []
  | h :: hs => h.calls ++ if h.goesOn then headerCalls hs else []

/-- The paths through `load`. -/
inductive LoadPath where
  | noPagedir
  | noFile
  | badHeader
  /-- The program headers, and whether there is memory for the stack. -/
  | headers (hs : List HeaderPath) (stack : Bool)
  deriving DecidableEq

/-- The calls of `load`; `file_close (file)` is reached on every path. -/
def LoadPath.calls : LoadPath → List FsFunction
  | .noPagedir => [.fileClose]
  | .noFile => [.filesysOpen, .fileClose]
  | .badHeader => [.filesysOpen, .fileRead, .fileClose]
  | .headers hs _ => [.filesysOpen, .fileRead] ++ headerCalls hs ++ [.fileClose]

def LoadPath.success : LoadPath → Bool
  | .headers hs stack => hs.all HeaderPath.goesOn && stack
  | _ => false

/-- `load`: no lock is taken. -/
def load (p : LoadPath) : List (Op Place) := [.enter .load] ++ fsCalls p.calls ++ [.leave]

/-- `start_process`, up to the first instruction of the program. -/
def startProcess (found parent : Bool) (p : LoadPath) : List (Op Place) :=
  denyWriteToExec found ++ load p ++ if p.success then [] else threadExit 0 parent

/-! ### All of them -/

/-- What a process asks for, with what decides the path. -/
inductive Request where
  | create
  | remove
  | openFile
  | filesize (found : Bool)
  | read (found : Bool)
  | write (found : Bool)
  | seek (found : Bool)
  | tell (found : Bool)
  | close (found : Bool)
  /-- `valid`: the arguments pass the first test. -/
  | mmap (valid : Bool)
  /-- The new process is on page `child`. -/
  | exec (child : ThreadRef) (found parent : Bool) (p : LoadPath)
  | exit (files : Nat) (parent : Bool)
  /-- `mapped`: the page is in a file; `files` and `parent` matter to a fault that ends the
      process. -/
  | pageFault (mapped success : Bool) (files : Nat) (parent : Bool)
  deriving DecidableEq

/-- **The program**: what each request does with the file system and its lock. -/
def processes : Program Request Place where
  lock := filesysAccess
  body
    | .create => FilesysLock.create
    | .remove => FilesysLock.remove
    | .openFile => locked [.filesysOpen]
    | .filesize found => lockedIf found .fileLength
    | .read found => lockedIf found .fileRead
    | .write found => lockedIf found .fileWrite
    | .seek found => lockedIf found .fileSeek
    | .tell found => lockedIf found .fileTell
    | .close found => lockedIf found .fileClose
    | .mmap valid => if valid then locked [.fileReopen, .fileLength] else []
    | .exec child found parent p =>
      [.create child priDefault (startProcess found parent p), .wait child]
    | .exit files parent => threadExit files parent
    | .pageFault mapped success files parent =>
      lockedIf mapped .fileReadAt ++ if success then [] else threadExit files parent

/-- The calls that only the scripts make: those on a `wait_sema`, which `thread_create` sets to 0. -/
def waitSemaKept (s : Scripted Place) : Move Request → Bool
  | .kernel (.call (.semaDown (.user _))) | .kernel (.call (.semaTryDown (.user _))) => false
  | .kernel (.call (.semaUp (.user _))) | .kernel (.intrSemaUp (.user _)) => false
  | .kernel (.intrSemaTryDown (.user _)) => false
  | .start (.exec child _ _ _) => (s.kernel.sema (.user child)).value = 0
  | _ => true

/-- The processes, on the thread system.  A thread that `thread_create` makes without `exec` stands for
    a process whose load is over. -/
def system : Machine (Scripted Place) (Move Request) Fault :=
  processes.machine.guard fun s a => waitSemaKept s a = true

instance (s : Scripted Place) (a : Move Request) : Decidable (system.enabled s a) :=
  inferInstanceAs (Decidable (_ ∧ _))

/-! ## The check -/

/-- The rule that the scripts keep: the lock is held inside the file system, and not inside `load`. -/
def lockRule : List Place → Bool → Bool
  | [], _ => true
  | [.fs _], held => held
  | [.load], held | [.fs _, .load], held => !held
  | _, _ => false

/-- A script that keeps to the rule. -/
abbrev KeepsRule (held : Bool) (stk : List Place) (ops : List (Op Place)) : Prop :=
  Keeps (fun stk held => lockRule stk held = true) (fun _ => False) held stk ops

variable {ops : List (Op Place)} {held : Bool} {stk : List Place}

theorem keeps_fsCalls
    (hops : KeepsRule held stk ops) (hfs : ∀ f, lockRule (.fs f :: stk) held = true)
    (fs : List FsFunction) : KeepsRule held stk (fsCalls fs ++ ops) := by
  induction fs with
  | nil => exact hops
  | cons f fs ih => exact .enter hops.here (.leave (hfs f) ih)

theorem keeps_locked (hops : KeepsRule false [] ops)
    (fs : List FsFunction) : KeepsRule false [] (locked fs ++ ops) := by
  have hrelease : KeepsRule true [] (.releaseIf :: ops) := .releaseIf rfl (fun _ => rfl) hops
  have := keeps_fsCalls hrelease (fun _ => rfl) fs
  simpa [locked] using Keeps.acquireIf (fun _ => rfl) rfl this

theorem keeps_lockedIf (hops : KeepsRule false [] ops) (found : Bool)
    (f : FsFunction) : KeepsRule false [] (lockedIf found f ++ ops) := by
  cases found with
  | false => exact hops
  | true => exact keeps_locked hops [f]

theorem keeps_threadExit (files : Nat) (parent : Bool) :
    KeepsRule false [] (threadExit files parent) :=
  keeps_locked (.post rfl (.exit rfl)) _

/-- `load` calls the file system without the lock. -/
theorem keeps_load (hops : KeepsRule false [] ops) (p : LoadPath) :
    KeepsRule false [] (load p ++ ops) := by
  have hleave : KeepsRule false [.load] (.leave :: ops) := .leave rfl hops
  have := keeps_fsCalls hleave (fun _ => rfl) p.calls
  simpa [load] using Keeps.enter rfl this

theorem keeps_startProcess (found parent : Bool) (p : LoadPath) :
    KeepsRule false [] (startProcess found parent p) := by
  have hend : KeepsRule false [] (if p.success then [] else threadExit 0 parent) := by
    split
    · exact .done rfl
    · exact keeps_threadExit 0 parent
  have := keeps_locked (keeps_load hend p)
    (if found then [.filesysOpen, .fileDenyWrite] else [.filesysOpen])
  simpa [startProcess, denyWriteToExec] using this

/-- **Every request keeps to the rule.** -/
theorem keeps_body (c : Request) : KeepsRule false [] (processes.body c) := by
  have hdone : KeepsRule false [] [] := .done rfl
  have hplain : ∀ f, KeepsRule false [] ([.acquire] ++ fsCalls [f] ++ [.release]) := by
    intro f
    refine .acquire rfl rfl (.enter rfl (.leave rfl (.release rfl rfl hdone)))
  have hif : ∀ found f, KeepsRule false [] (lockedIf found f) := by
    intro found f
    simpa using keeps_lockedIf hdone found f
  cases c with
  | create => exact hplain .filesysCreate
  | remove => exact hplain .filesysRemove
  | openFile => simpa [processes] using keeps_locked hdone [.filesysOpen]
  | filesize found | read found | write found | seek found | tell found | close found =>
    exact hif found _
  | mmap valid =>
    cases valid with
    | false => exact hdone
    | true => simpa [processes] using keeps_locked hdone [.fileReopen, .fileLength]
  | exec child found parent p =>
    exact .create rfl (keeps_startProcess found parent p) (.wait rfl hdone)
  | exit files parent => exact keeps_threadExit files parent
  | pageFault mapped success files parent =>
    refine keeps_lockedIf ?_ mapped .fileReadAt
    split
    · exact hdone
    · exact keeps_threadExit files parent

/-! ## Exclusion -/

/-- A thread inside the file system holds the lock, and no other thread is inside. -/
def Exclusive (s : Scripted Place) : Prop :=
  (∀ t f, .fs f ∈ s.stack t → s.kernel.holder filesysAccess = some t) ∧
  ∀ t u f g, .fs f ∈ s.stack t → .fs g ∈ s.stack u → t = u

/-- The step is a call of the file system by `load`. -/
def calledByLoad (s : Scripted Place) : Move Request → Bool
  | .next =>
    match s.script s.kernel.current with
    | .enter (.fs _) :: _ => .load ∈ s.stack s.kernel.current
    | _ => false
  | _ => false

variable {b : Boot} {s s' : Scripted Place} {tr : List (Scripted Place × Move Request)}

theorem run_lockRule (hr : processes.machine.Run (.start b) tr s) (t : ThreadRef) :
    lockRule (s.stack t) (decide (s.kernel.holder filesysAccess = some t)) = true :=
  run_ok (P := processes) (by decide) rfl keeps_body (hr.to_guard fun _ _ _ _ h => h) t

theorem lockRule_cases (h : lockRule stk held = true) {f : FsFunction} (hf : .fs f ∈ stk) :
    (stk = [.fs f] ∧ held = true) ∨ (stk = [.fs f, .load] ∧ held = false) := by
  unfold lockRule at h
  split at h
  · cases hf
  · obtain rfl : f = _ := by simpa using hf
    exact Or.inl ⟨rfl, h⟩
  · simp at hf
  · obtain rfl : f = _ := by simpa using hf
    exact Or.inr ⟨rfl, by simpa using h⟩
  · cases h

/-- A state is in order exactly if nobody has come into the file system from `load`. -/
theorem exclusive_iff (hr : processes.machine.Run (.start b) tr s) :
    Exclusive s ↔ ∀ t f, s.stack t ≠ [.fs f, .load] := by
  constructor
  · intro h t f ht
    have hrule := run_lockRule hr t
    rw [h.1 t f (by simp [ht]), ht] at hrule
    simp [lockRule] at hrule
  · intro h
    have hholds : ∀ t f, .fs f ∈ s.stack t → s.kernel.holder filesysAccess = some t := by
      intro t f hf
      rcases lockRule_cases (run_lockRule hr t) hf with ⟨-, hx⟩ | ⟨hx, -⟩
      · exact of_decide_eq_true hx
      · exact absurd hx (h t f)
    refine ⟨hholds, fun t u f g hf hg => ?_⟩
    exact Option.some.inj ((hholds t f hf).symm.trans (hholds u g hg))

theorem none_from_load (hr : (processes.machine.guard fun s a => calledByLoad s a = false).Run
    (.start b) tr s) : ∀ t f, s.stack t ≠ [.fs f, .load] := by
  refine hr.history (J := fun _ s => ∀ t f, s.stack t ≠ [.fs f, .load]) (by simp [Scripted.start]) ?_
  rintro tr s a s' hr ih ⟨ha, hg⟩ hs t f ht
  rcases Program.stack_step hs t with hx | ⟨rfl, rfl, hx | ⟨m, ops, hscript, hx⟩⟩
  · exact ih t f (hx ▸ ht)
  · -- no stack is deeper than that
    rw [hx] at ht
    have hrule := run_lockRule hr.of_guard s.kernel.current
    cases hstk : s.stack s.kernel.current with
    | nil => simp [hstk] at ht
    | cons =>
      rw [hstk, tail_cons] at ht
      rw [hstk, ht] at hrule
      simp [lockRule] at hrule
  · rw [hx] at ht
    obtain ⟨rfl, hstk⟩ := cons.inj ht
    simp [calledByLoad, hscript, hstk] at hg

theorem not_exclusive_of_load {a : Move Request} (hr : processes.machine.Run (.start b) tr s)
    (ha : processes.machine.enabled s a) (hs : processes.machine.step s a = .ok s')
    (hload : ¬ calledByLoad s a = false) : ¬ Exclusive s' := by
  have hr' := hr.snoc ha hs
  rw [exclusive_iff hr']
  intro hno
  cases a with
  | kernel a | start c => simp [calledByLoad] at hload
  | next =>
    simp only [calledByLoad] at hload
    split at hload
    · rename_i f ops hscript
      have hmem : Place.load ∈ s.stack s.kernel.current := by simpa using hload
      have hs' : processes.step s .next = .ok s' := hs
      simp only [Program.step, hscript, Program.exec] at hs'
      obtain rfl := Except.ok.inj hs'
      have hrule := run_lockRule hr' s.kernel.current
      simp only [Function.update_self] at hrule
      rcases lockRule_cases hrule (mem_cons_self ..) with ⟨hx, -⟩ | ⟨hx, -⟩
      · rw [(cons.inj hx).2] at hmem
        cases hmem
      · exact hno s.kernel.current f (by simpa using hx)
    · exact hload rfl

/-- **File-system mutual exclusion.**  In every run of any number of processes: all along the run
    each thread inside the file system holds `filesys_access` and is alone there, exactly if no step
    is a call of the file system by `load`. -/
theorem filesys_exclusion (hr : system.Run (.start b) tr s) :
    (∀ x ∈ Machine.states tr s, Exclusive x) ↔ ∀ p ∈ tr, calledByLoad p.1 p.2 = false :=
  hr.of_guard.always_iff (fun hg => (exclusive_iff hg.of_guard).mpr (none_from_load hg))
    fun hr ha hs hload => not_exclusive_of_load hr ha hs hload

/-- The initial thread is inside `filesys_create`, and the thread that wants to open a file waits. -/
theorem filesys_exclusion_create : ∃ tr s,
    system.Run (.start Boot.small) tr s ∧ s.stack 1 = [.fs .filesysCreate] ∧
    s.kernel.head 3 = some (.semaRetest (.lock filesysAccess)) ∧
    ∀ x ∈ Machine.states tr s, Exclusive x := by
  obtain ⟨tr, s, hr, h1, h3, hall⟩ := system.exists_reached (.start Boot.small)
    (inThreads (startUp ++ creates 3 31) ++ [.start .create] ++ nexts 1 ++ inThreads (execs 3) ++
      nexts 1 ++ inThreads ([.timer] ++ execs 1) ++ [.start .openFile] ++ nexts 1 ++
      inThreads (execs 2))
    (fun tr s => s.stack 1 = [.fs .filesysCreate] ∧
      s.kernel.head 3 = some (.semaRetest (.lock filesysAccess)) ∧
      ∀ p ∈ tr, calledByLoad p.1 p.2 = false) (by decide +kernel)
  exact ⟨tr, s, hr, h1, h3, (filesys_exclusion hr).mpr hall⟩

/-! ### The defect -/

/-- **The defect.**  The initial thread executes a program and waits.  The new process 3 has been through
    `deny_write_to_exec`, and is inside `filesys_open`, called by `load`; nobody holds the lock. -/
theorem load_inside_unlocked : ∃ tr s, system.Run (.start Boot.small) tr s ∧
    s.kernel.head 1 = some (.semaRetest (.user 3)) ∧ s.stack 3 = [.fs .filesysOpen, .load] ∧
    s.kernel.holder filesysAccess = none ∧ ¬ ∀ x ∈ Machine.states tr s, Exclusive x := by
  obtain ⟨tr, s, hr, h1, h3, hfree⟩ := system.exists_reached (.start Boot.small)
    (inThreads startUp ++ [.start (.exec 3 true true (.headers [] true))] ++ nexts 1 ++
      inThreads (execs 8) ++ nexts 1 ++ inThreads (execs 1) ++
      -- process 3: `deny_write_to_exec` with its lock, and `load`
      inThreads (execs 1) ++ nexts 1 ++ inThreads (execs 3) ++ nexts 5 ++ inThreads (execs 2) ++
      nexts 2)
    (fun _ s => s.kernel.head 1 = some (.semaRetest (.user 3)) ∧
      s.stack 3 = [.fs .filesysOpen, .load] ∧ s.kernel.holder filesysAccess = none)
    (by decide +kernel)
  refine ⟨tr, s, hr, h1, h3, hfree, fun hall => ?_⟩
  have hlast : s ∈ Machine.states tr s := mem_append_right _ (mem_singleton.mpr rfl)
  have hholds := (hall s hlast).1 3 .filesysOpen (by simp [h3])
  rw [hfree] at hholds
  cases hholds

end Pintos.Userprog.FilesysLock
