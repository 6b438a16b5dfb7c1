/-
  `syscall_handler`: the arguments of system calls.

  The handler calls `is_correct_user_memory` on addresses before it follows them, which looks at ONE
  byte: the first of a word, of a string, of a buffer.  Some pointers it does not check at all.

  1. **The handler** (`syscallHandler`) — every case of the switch, with the user memory that the
     functions behind it touch.  `Answer` is what they are called with, or what they make of it.

  2. **What a call requires** (`Requires`) — the bytes of the call number, of the arguments, of the
     strings up to their terminators and of the buffers.  A call is `ArgumentSafe` if no access is
     illegal, and if the process is ended whenever a required byte is not mapped.

  3. **The theorem** (`syscall_argument_safety`) — the call is safe IF AND ONLY IF whatever begins on a
     mapped byte is mapped to its end, and what is not checked at all is mapped (`ArgumentsOk`).
-/
import Pintos.Userprog.Process
import Pintos.Userprog.UserMemory

namespace Pintos.Userprog

open Base UserMemory Stops

/-! ## The calls -/

/-- The system call numbers that the handler knows. -/
inductive SysCall where
  | halt | exit | exec | wait | create | remove | open | filesize | read | write | seek | tell
  | close | mmap | munmap
  deriving DecidableEq

/-- `lib/syscall-nr.h`. -/
def SysCall.ofWord : Nat → Option SysCall
  | 0 => some .halt
  | 1 => some .exit
  | 2 => some .exec
  | 3 => some .wait
  | 4 => some .create
  | 5 => some .remove
  | 6 => some .open
  | 7 => some .filesize
  | 8 => some .read
  | 9 => some .write
  | 10 => some .seek
  | 11 => some .tell
  | 12 => some .close
  | 13 => some .mmap
  | 14 => some .munmap
  | _ => none

/-- An open file: the length of its inode, and the members of `struct file`. -/
structure OpenFile where
  length : Nat
  pos : Nat
  /-- `deny_write_cnt` of the inode is not zero. -/
  denyWrite : Bool
  deriving DecidableEq

/-- What a system call meets: the memory of its process, its open files, and what the allocators and
    the file system will say. -/
structure CallState where
  memory : UserMemory
  /-- `list_of_fds`. -/
  listOfFds : List (Int × OpenFile)
  /-- `process_execute` gets a page for the command line. -/
  commandPage : Bool
  /-- `dir_open_root` succeeds. -/
  rootDir : Bool
  /-- The names that `lookup` comes across in the root directory. -/
  entries : List (List UInt8)
  /-- `free_map_allocate` succeeds. -/
  freeMap : Bool
  /-- `inode_create` succeeds. -/
  inodeCreated : Bool
  /-- `dir_add` can write its entry. -/
  slotWritten : Bool
  /-- There is memory for a bounce buffer. -/
  bounce : Bool

inductive Answer where
  /-- The copies of the command line that `process_execute` goes on with, if it has a page. -/
  | exec (copies : Option (List UInt8 × List UInt8))
  | wait (pid : Int)
  | create (created : Bool)
  | remove (found : Bool)
  | open (found : Bool)
  | filesize (fd : Int)
  /-- The loop over `input_getc`, which stores nothing. -/
  | keyboard (size : Nat)
  | read (bytes : Int)
  | write (bytes : Int)
  | seek (fd position : Int)
  | tell (fd : Int)
  | close (fd : Int)
  | mmap (fd : Int) (addr : Nat)
  | munmap (mapping : Int)
  /-- No case of the switch. -/
  | unknown
  deriving DecidableEq

def toInt (w : Nat) : Int := if w < 2147483648 then w else (w : Int) - 4294967296

/-! ## Checks -/

/-- `is_correct_user_memory (address)`, which ends the process itself. -/
def UserMemory.isCorrectUserMemory (m : UserMemory) (address : Nat) : Except Stop Unit :=
  let isValid :=
    address ≠ 0 && isUserVaddr address && (pagedirGetPage m.pagedir address).isSome
  if !isValid then .error (.exit badExit) else .ok ()

def refuse (c : Bool) : Except Stop Unit := if c then .error (.exit badExit) else .ok ()

/-- The pointer to argument `j`, of `esp`. -/
def argPtr (esp j : Nat) : Nat := byteAddr esp (4 * (j + 1))

namespace CallState

variable (k : CallState)

/-! ## Behind the switch -/

def lookupFdStruct (fd : Int) : Option OpenFile :=
  (k.listOfFds.find? fun d => d.1 = fd).map Prod.snd

/-- `process_execute (fileName)`, up to its `thread_create`. -/
def processExecute (fileName : Nat) : Except Stop (Option (List UInt8 × List UInt8)) :=
  if k.commandPage then do
    let fnCopy ← k.memory.strlcpy fileName pgSize
    let cmdLen ← k.memory.strlen fileName
    let _ ← k.memory.strlen fileName
    let cmdCopy ← k.memory.strlcpy fileName (cmdLen + 1)
    return some (fnCopy, cmdCopy)
  else .ok none

/-- `lookup`, in a directory with these entries in use. -/
def lookup (name : Nat) : List (List UInt8) → Except Stop Bool
  | [] => .ok false
  | e :: es => do
    let same ← k.memory.strcmp name e
    if same then return true else lookup name es

/-- `dir_add`; `NAME_MAX` is 14. -/
def dirAdd (name : Nat) : Except Stop Bool := do
  let c ← k.memory.loadByte name
  if c = 0 then return false
  else
    let n ← k.memory.strlen name
    if 14 < n then return false
    else
      let used ← k.lookup name k.entries
      if used then return false
      else
        let _ ← k.memory.strlcpy name 15
        return k.slotWritten

/-- `filesys_create`; `inode_create` asserts that the size, an `off_t`, is not negative. -/
def filesysCreate (name initialSize : Nat) : Except Stop Bool :=
  if !k.rootDir || !k.freeMap then .ok false
  else if toInt initialSize < 0 then .error .panic
  else if !k.inodeCreated then .ok false
  else k.dirAdd name

/-- The search of `filesys_open` and of `filesys_remove`. -/
def filesysFind (name : Nat) : Except Stop Bool :=
  if k.rootDir then k.lookup name k.entries else .ok false

/-- `read`; 0 is `READ_FROM_KEYBOARD`. -/
def read (fd : Int) (buffer size : Nat) : Except Stop Answer :=
  if fd = 0 then .ok (.keyboard size)
  else
    match k.lookupFdStruct fd with
    | none => .ok (.read badExit)
    | some file => do
      let n ← k.memory.copySectors file.length k.bounce buffer (toInt size).toNat file.pos
      return .read n

/-- `write`; 1 is `WRITE_TO_CONSOLE`. -/
def write (fd : Int) (buffer size : Nat) : Except Stop Answer :=
  if fd = 1 then do
    k.memory.writeConsole buffer 0 size
    return .write (toInt size)
  else
    match k.lookupFdStruct fd with
    | none => .ok (.write 0)
    | some file =>
      if file.denyWrite then .ok (.write 0)
      else do
        let n ← k.memory.copySectors file.length k.bounce buffer (toInt size).toNat file.pos
        return .write n

/-- `seek`; `file_seek` asserts that the position, an `off_t`, is not negative. -/
def seek (fd : Int) (position : Nat) : Except Stop Answer :=
  match k.lookupFdStruct fd with
  | none => .ok (.seek fd (toInt position))
  | some _ => if toInt position < 0 then .error .panic else .ok (.seek fd (toInt position))

/-! ## The switch -/

/-- A case with one argument, which is a value. -/
def oneArgument (esp : Nat) (f : Nat → Except Stop Answer) : Except Stop Answer := do
  k.memory.isCorrectUserMemory (argPtr esp 0)
  let w ← k.memory.loadWord (argPtr esp 0)
  f w

def dispatch (esp : Nat) : SysCall → Except Stop Answer
  | .halt => .error .halt
  | .exit => k.oneArgument esp fun status => .error (.exit (toInt status))
  | .exec => k.oneArgument esp fun cmdLine => do
    refuse (cmdLine = 0)
    k.memory.isCorrectUserMemory cmdLine
    refuse (!isUserVaddr cmdLine)
    return .exec (← k.processExecute cmdLine)
  | .wait => k.oneArgument esp fun pid => .ok (.wait (toInt pid))
  | .create => do
    k.memory.isCorrectUserMemory (argPtr esp 0)
    k.memory.isCorrectUserMemory (argPtr esp 1)
    let file ← k.memory.loadWord (argPtr esp 0)
    k.memory.isCorrectUserMemory file
    let initialSize ← k.memory.loadWord (argPtr esp 1)
    refuse (file = 0 || !isUserVaddr file)
    return .create (← k.filesysCreate file initialSize)
  | .remove => k.oneArgument esp fun file => do
    refuse (file = 0 || !isUserVaddr file)
    return .remove (← k.filesysFind file)
  | .open => k.oneArgument esp fun file => do
    refuse (file = 0)
    k.memory.isCorrectUserMemory file
    refuse (!isUserVaddr file)
    return .open (← k.filesysFind file)
  | .filesize => k.oneArgument esp fun fd => .ok (.filesize (toInt fd))
  | .read => do
    k.memory.isCorrectUserMemory (argPtr esp 0)
    k.memory.isCorrectUserMemory (argPtr esp 1)
    k.memory.isCorrectUserMemory (argPtr esp 2)
    let fd ← k.memory.loadWord (argPtr esp 0)
    let buffer ← k.memory.loadWord (argPtr esp 1)
    let size ← k.memory.loadWord (argPtr esp 2)
    refuse (buffer = 0 || !isUserVaddr buffer)
    k.read (toInt fd) buffer size
  | .write => do
    k.memory.isCorrectUserMemory (argPtr esp 0)
    k.memory.isCorrectUserMemory (argPtr esp 1)
    k.memory.isCorrectUserMemory (argPtr esp 2)
    let fd ← k.memory.loadWord (argPtr esp 0)
    let buffer ← k.memory.loadWord (argPtr esp 1)
    let size ← k.memory.loadWord (argPtr esp 2)
    refuse (buffer = 0)
    k.memory.isCorrectUserMemory buffer
    refuse (!isUserVaddr buffer)
    k.write (toInt fd) buffer size
  | .seek => do
    k.memory.isCorrectUserMemory (argPtr esp 0)
    k.memory.isCorrectUserMemory (argPtr esp 1)
    let fd ← k.memory.loadWord (argPtr esp 0)
    let position ← k.memory.loadWord (argPtr esp 1)
    k.seek (toInt fd) position
  | .tell => k.oneArgument esp fun fd => .ok (.tell (toInt fd))
  | .close => k.oneArgument esp fun fd => .ok (.close (toInt fd))
  | .mmap => do
    -- the second argument is fetched, but only the first is checked
    k.memory.isCorrectUserMemory (argPtr esp 0)
    let fd ← k.memory.loadWord (argPtr esp 0)
    let addr ← k.memory.loadWord (argPtr esp 1)
    return .mmap (toInt fd) addr
  | .munmap => k.oneArgument esp fun mapping => .ok (.munmap (toInt mapping))

/-- `syscall_handler`, entered with this user stack pointer. -/
def syscallHandler (esp : Nat) : Except Stop Answer := do
  k.memory.isCorrectUserMemory esp
  let functionNo ← k.memory.loadWord esp
  match SysCall.ofWord functionNo with
  | some c => k.dispatch esp c
  | none => return .unknown

end CallState

/-! ## What a call requires -/

inductive Argument where
  | value
  /-- A pointer to a string. -/
  | string
  /-- A pointer to a buffer, whose size is argument `n`. -/
  | buffer (n : Nat)
  deriving DecidableEq

/-- The arguments of each call, as `lib/user/syscall.h` declares them. -/
def SysCall.arguments : SysCall → List Argument
  | .halt => []
  | .exit | .wait | .filesize | .tell | .close | .munmap => [.value]
  | .exec | .remove | .open => [.string]
  | .create => [.string, .value]
  | .read | .write => [.value, .buffer 2, .value]
  | .seek | .mmap => [.value, .value]

/-- The arguments that go with a call number. -/
def argumentsOf (functionNo : Nat) : List Argument :=
  match SysCall.ofWord functionNo with
  | some c => c.arguments
  | none => []

/-- The four bytes at `w` are mapped user memory. -/
def UserMemory.WordMapped (m : UserMemory) (w : Nat) : Prop :=
  ∀ i < 4, m.mapped (byteAddr w i) = true

/-- So is the string at `p`, up to its terminator. -/
def UserMemory.StringMapped (m : UserMemory) (p : Nat) : Prop :=
  ∀ a, m.StringByte p a → m.mapped a = true

/-- So are the `n` bytes at `p`. -/
def UserMemory.BufferMapped (m : UserMemory) (p n : Nat) : Prop :=
  ∀ a, BufferByte p n a → m.mapped a = true

def UserMemory.WordsMapped (m : UserMemory) (esp : Nat) : Prop :=
  m.WordMapped esp ∧ ∀ j < (argumentsOf (m.word esp)).length, m.WordMapped (argPtr esp j)

/-- The byte at `a` is part of the call made with this stack pointer. -/
inductive Requires (m : UserMemory) (esp : Nat) : Nat → Prop
  | number (i : Nat) (hi : i < 4) : Requires m esp (byteAddr esp i)
  | word (j i : Nat) (hesp : m.WordMapped esp) (hj : j < (argumentsOf (m.word esp)).length)
      (hi : i < 4) : Requires m esp (byteAddr (argPtr esp j) i)
  | string (j a : Nat) (hw : m.WordsMapped esp)
      (hj : (argumentsOf (m.word esp))[j]? = some .string)
      (ha : m.StringByte (m.word (argPtr esp j)) a) : Requires m esp a
  | buffer (j n a : Nat) (hw : m.WordsMapped esp)
      (hj : (argumentsOf (m.word esp))[j]? = some (.buffer n))
      (ha : BufferByte (m.word (argPtr esp j)) (m.word (argPtr esp n)) a) : Requires m esp a

/-- Some byte of the call is not mapped user memory. -/
def Faulty (m : UserMemory) (esp : Nat) : Prop := ∃ a, Requires m esp a ∧ m.mapped a = false

/-- No access is illegal, and the process is ended in case of `R`. -/
def Meets (R : Prop) {α : Type} (x : Except Stop α) : Prop :=
  (∀ a, x ≠ .error (.illegal a)) ∧ (R → x = .error (.exit badExit))

/-- **Argument safety** of one call. -/
def ArgumentSafe (k : CallState) (esp : Nat) : Prop :=
  Meets (Faulty k.memory esp) (k.syscallHandler esp)

/-! ## When it is met -/

/-- The address passes `is_correct_user_memory`. -/
def UserMemory.Checked (m : UserMemory) (a : Nat) : Prop := a ≠ 0 ∧ m.mapped a = true

/-- **The condition on a call**, after its number has been read. -/
def UserMemory.CallOk (m : UserMemory) (esp : Nat) : SysCall → Prop
  | .halt => True
  | .exit | .wait | .filesize | .tell | .close | .munmap =>
    m.Checked (argPtr esp 0) → m.WordMapped (argPtr esp 0)
  | .exec | .open => m.Checked (argPtr esp 0) → m.WordMapped (argPtr esp 0) ∧
    (m.Checked (m.word (argPtr esp 0)) → m.StringMapped (m.word (argPtr esp 0)))
  | .remove => m.Checked (argPtr esp 0) → m.WordMapped (argPtr esp 0) ∧
    (m.word (argPtr esp 0) ≠ 0 ∧ m.word (argPtr esp 0) < physBase →
      m.StringMapped (m.word (argPtr esp 0)))
  | .create => m.Checked (argPtr esp 0) → m.Checked (argPtr esp 1) → m.WordMapped (argPtr esp 0) ∧
    (m.Checked (m.word (argPtr esp 0)) →
      m.WordMapped (argPtr esp 1) ∧ m.StringMapped (m.word (argPtr esp 0)))
  | .read => m.Checked (argPtr esp 0) → m.Checked (argPtr esp 1) → m.Checked (argPtr esp 2) →
    m.WordMapped (argPtr esp 0) ∧ m.WordMapped (argPtr esp 1) ∧ m.WordMapped (argPtr esp 2) ∧
    (m.word (argPtr esp 1) ≠ 0 ∧ m.word (argPtr esp 1) < physBase →
      m.BufferMapped (m.word (argPtr esp 1)) (m.word (argPtr esp 2)))
  | .write => m.Checked (argPtr esp 0) → m.Checked (argPtr esp 1) → m.Checked (argPtr esp 2) →
    m.WordMapped (argPtr esp 0) ∧ m.WordMapped (argPtr esp 1) ∧ m.WordMapped (argPtr esp 2) ∧
    (m.Checked (m.word (argPtr esp 1)) →
      m.BufferMapped (m.word (argPtr esp 1)) (m.word (argPtr esp 2)))
  | .seek => m.Checked (argPtr esp 0) → m.Checked (argPtr esp 1) →
    m.WordMapped (argPtr esp 0) ∧ m.WordMapped (argPtr esp 1)
  | .mmap => m.Checked (argPtr esp 0) → m.WordMapped (argPtr esp 0) ∧ m.WordMapped (argPtr esp 1)

/-- **The condition**: what begins on a byte that passes the check is mapped to its end, and so is
    what is not checked. -/
def UserMemory.ArgumentsOk (m : UserMemory) (esp : Nat) : Prop :=
  m.Checked esp → m.WordMapped esp ∧ ∀ c, SysCall.ofWord (m.word esp) = some c → m.CallOk esp c

/-! ## Rules -/

variable {m : UserMemory} {R : Prop}

section Rules

variable {α β : Type} {x : Except Stop α}

theorem meets_check {a : Nat} :
    Meets R (m.isCorrectUserMemory a >>= fun _ => x) ↔ (m.Checked a → Meets R x) := by
  have hiff : (!(decide (a ≠ 0) && isUserVaddr a && (pagedirGetPage m.pagedir a).isSome)) = true ↔
      ¬ m.Checked a := by
    simp only [Checked, mapped]
    grind
  unfold isCorrectUserMemory
  by_cases hc : m.Checked a
  · simp only [hc, forall_const]
    rw [if_neg (by rw [hiff]; simpa using hc)]
    rfl
  · simp only [hc, false_imp_iff, iff_true]
    rw [if_pos (hiff.mpr hc)]
    exact ⟨fun b hb => (by cases hb), fun _ => rfl⟩

theorem meets_refuse {c : Bool} : Meets R (refuse c >>= fun _ => x) ↔ (c = false → Meets R x) := by
  cases c with
  | false => simp [refuse, Bind.bind, Except.bind]
  | true =>
    simp only [Bool.true_eq_false, false_imp_iff, iff_true]
    exact ⟨fun b hb => (by cases hb), fun _ => rfl⟩

theorem touchBytes_cases (p n : Nat) :
    ((∀ i < n, m.mapped (byteAddr p i) = true) ∧ m.touchBytes p n = .ok ()) ∨
    ((¬ ∀ i < n, m.mapped (byteAddr p i) = true) ∧ ∃ a, m.touchBytes p n = .error (.illegal a)) := by
  induction n with
  | zero => exact .inl ⟨fun i hi => absurd hi (by omega), rfl⟩
  | succ n ih =>
    rcases ih with ⟨hall, hok⟩ | ⟨hnot, a, ha⟩
    · by_cases hn : m.mapped (byteAddr p n) = true
      · refine .inl ⟨fun i hi => ?_, ?_⟩
        · rcases Nat.lt_succ_iff_lt_or_eq.mp hi with hlt | rfl
          · exact hall i hlt
          · exact hn
        · simp [touchBytes, hok, loadByte, hn, Bind.bind, Except.bind, Pure.pure, Except.pure]
      · refine .inr ⟨fun h => hn (h n (by omega)), byteAddr p n, ?_⟩
        simp [touchBytes, hok, loadByte, hn, Bind.bind, Except.bind]
    · refine .inr ⟨fun h => hnot fun i hi => h i (by omega), a, ?_⟩
      simp [touchBytes, ha, Bind.bind, Except.bind]

theorem meets_loadWord {w : Nat} {f : Nat → Except Stop α} :
    Meets R (m.loadWord w >>= f) ↔ m.WordMapped w ∧ Meets R (f (m.word w)) := by
  rcases touchBytes_cases (m := m) w 4 with ⟨hall, hok⟩ | ⟨hnot, a, ha⟩
  · have hw : m.loadWord w = .ok (m.word w) := by
      simp [loadWord, hok, Bind.bind, Except.bind, Pure.pure, Except.pure]
    rw [hw]
    exact ⟨fun h => ⟨hall, h⟩, fun h => h.2⟩
  · have hw : m.loadWord w = .error (.illegal a) := by
      simp [loadWord, ha, Bind.bind, Except.bind]
    rw [hw]
    exact ⟨fun h => absurd rfl (h.1 a), fun h => absurd h.1 hnot⟩

/-- What ends without an access is safe if nothing was wrong. -/
theorem meets_of_not (hR : ¬ R) (hx : ∀ a, x ≠ .error (.illegal a)) :
    Meets R x := ⟨hx, fun h => absurd h hR⟩

/-- **The function behind a case**: it touches only `S`, so it is safe exactly if `S` is mapped. -/
theorem meets_body {S : Nat → Prop} (hx : Touches m S x) (hR : R ↔ ¬ ∀ a, S a → m.mapped a = true) :
    Meets R x ↔ ∀ a, S a → m.mapped a = true := by
  constructor
  · intro h
    by_contra hS
    exact hx.not_exit _ (h.2 (hR.mpr hS))
  · intro hS
    exact meets_of_not (fun h => hR.mp h hS) (hx.legal hS)

end Rules

/-! ## What can be wrong with a call -/

/-- What an argument points at is mapped. -/
def UserMemory.PointedMapped (m : UserMemory) (esp j : Nat) : Argument → Prop
  | .value => True
  | .string => m.StringMapped (m.word (argPtr esp j))
  | .buffer n => m.BufferMapped (m.word (argPtr esp j)) (m.word (argPtr esp n))

variable {esp : Nat} {c : SysCall}

/-- With the argument words in order, only what they point at can be wrong. -/
theorem faulty_iff (hw : m.WordsMapped esp) :
    Faulty m esp ↔
      ¬ ∀ j arg, (argumentsOf (m.word esp))[j]? = some arg → m.PointedMapped esp j arg := by
  constructor
  · rintro ⟨a, hreq, ha⟩ hall
    have hmapped : m.mapped a = true := by
      cases hreq with
      | number i hi => exact hw.1 i hi
      | word j i _ hj hi => exact hw.2 j hj i hi
      | string j a _ hj hb => exact hall j _ hj a hb
      | buffer j n a _ hj hb => exact hall j _ hj a hb
    rw [hmapped] at ha
    cases ha
  · intro hnot
    by_contra hf
    -- a byte of the call that is required is mapped
    have hreq : ∀ a, Requires m esp a → m.mapped a = true := fun a ha => by
      by_contra hm
      exact hf ⟨a, ha, by simpa using hm⟩
    refine hnot fun j arg hj => ?_
    cases arg with
    | value => trivial
    | string => exact fun a ha => hreq a (.string j a hw hj ha)
    | buffer n => exact fun a ha => hreq a (.buffer j n a hw hj ha)

theorem forall_getElem?_cons {α : Type} {x : α} {l : List α} {P : Nat → α → Prop} :
    (∀ j a, (x :: l)[j]? = some a → P j a) ↔ P 0 x ∧ ∀ j a, l[j]? = some a → P (j + 1) a := by
  constructor
  · intro h
    exact ⟨h 0 x rfl, fun j a hj => h (j + 1) a hj⟩
  · rintro ⟨h0, hs⟩ j a hj
    cases j with
    | zero => exact Option.some.inj hj ▸ h0
    | succ j => exact hs j a hj

theorem argumentsOf_eq (hc : SysCall.ofWord (m.word esp) = some c) :
    argumentsOf (m.word esp) = c.arguments := by
  rw [argumentsOf, hc]

section

variable (hesp : m.WordMapped esp)
include hesp

section

variable (hc : SysCall.ofWord (m.word esp) = some c)
include hc

theorem wordsMapped
    (h : ∀ j < c.arguments.length, m.WordMapped (argPtr esp j)) : m.WordsMapped esp := by
  refine ⟨hesp, ?_⟩
  rwa [argumentsOf_eq hc]

theorem not_faulty_values (hv : ∀ arg ∈ c.arguments, arg = .value)
    (h : ∀ j < c.arguments.length, m.WordMapped (argPtr esp j)) : ¬ Faulty m esp := by
  rw [faulty_iff (wordsMapped hesp hc h), argumentsOf_eq hc, not_not]
  intro j arg hj
  rw [hv arg (List.mem_of_getElem? hj)]
  trivial

theorem faulty_string {rest : List Argument} (hargs : c.arguments = .string :: rest)
    (hv : ∀ arg ∈ rest, arg = .value) (h : ∀ j < c.arguments.length, m.WordMapped (argPtr esp j)) :
    Faulty m esp ↔ ¬ m.StringMapped (m.word (argPtr esp 0)) := by
  rw [faulty_iff (wordsMapped hesp hc h), argumentsOf_eq hc, hargs, forall_getElem?_cons]
  refine not_congr ⟨fun hx => hx.1, fun hx => ⟨hx, fun j arg hj => ?_⟩⟩
  rw [hv arg (List.mem_of_getElem? hj)]
  trivial

theorem faulty_buffer
    (hargs : c.arguments = [.value, .buffer 2, .value]) (h0 : m.WordMapped (argPtr esp 0))
    (h1 : m.WordMapped (argPtr esp 1)) (h2 : m.WordMapped (argPtr esp 2)) :
    Faulty m esp ↔ ¬ m.BufferMapped (m.word (argPtr esp 1)) (m.word (argPtr esp 2)) := by
  have hwords : ∀ j < c.arguments.length, m.WordMapped (argPtr esp j) := by
    intro j hj
    rw [hargs] at hj
    match j, hj with
    | 0, _ => exact h0
    | 1, _ => exact h1
    | 2, _ => exact h2
  rw [faulty_iff (wordsMapped hesp hc hwords), argumentsOf_eq hc, hargs, forall_getElem?_cons,
    forall_getElem?_cons, forall_getElem?_cons]
  refine not_congr ⟨fun hx => hx.2.1, fun hx => ⟨trivial, hx, trivial, fun j arg hj => ?_⟩⟩
  simp at hj

end

end

/-! ## The functions behind the switch -/

variable {k : CallState} {p : Nat}

section

variable {size : Nat} {fd : Int}

theorem touches_processExecute : Touches k.memory (k.memory.StringByte p) (k.processExecute p) := by
  refine ite (fun _ => ?_) fun _ => ok _
  refine bind touches_strlcpy fun _ _ => bind touches_strlen fun _ _ => ?_
  refine bind touches_strlen fun _ _ => bind touches_strlcpy fun _ _ => ok _

theorem touches_lookup {es : List (List UInt8)} :
    Touches k.memory (k.memory.StringByte p) (k.lookup p es) := by
  induction es with
  | nil => exact ok _
  | cons e es ih =>
    exact bind touches_strcmp fun _ _ => ite (fun _ => ok _) fun _ => ih

theorem touches_filesysCreate {n : Nat} :
    Touches k.memory (k.memory.StringByte p) (k.filesysCreate p n) := by
  refine ite (fun _ => ok _) fun _ => ite (fun _ => error (.inl rfl))
    fun _ => ite (fun _ => ok _) fun _ => ?_
  refine bind (Touches.loadByte StringByte.head) fun _ _ => ?_
  refine ite (fun _ => ok _) fun _ => bind touches_strlen fun _ _ => ?_
  refine ite (fun _ => ok _) fun _ => bind touches_lookup fun _ _ => ?_
  exact ite (fun _ => ok _) fun _ => bind touches_strlcpy fun _ _ => ok _

theorem touches_filesysFind : Touches k.memory (k.memory.StringByte p) (k.filesysFind p) :=
  ite (fun _ => touches_lookup) fun _ => ok _

/-- A negative `off_t` copies nothing. -/
theorem toInt_toNat_le (w : Nat) : (toInt w).toNat ≤ w := by
  unfold toInt
  split <;> omega

theorem touches_copy {length buffer offset : Nat} :
    Touches k.memory (BufferByte buffer size)
      (k.memory.copySectors length k.bounce buffer (toInt size).toNat offset) :=
  touches_copySectors.mono fun _ ⟨i, hi, ha⟩ =>
    ⟨i, Nat.lt_of_lt_of_le hi (toInt_toNat_le size), ha⟩

theorem touches_read : Touches k.memory (BufferByte p size) (k.read fd p size) := by
  refine ite (fun _ => ok _) fun _ => ?_
  cases k.lookupFdStruct fd with
  | none => exact ok _
  | some => exact bind touches_copy fun _ _ => ok _

theorem touches_write : Touches k.memory (BufferByte p size) (k.write fd p size) := by
  refine ite (fun _ => bind ?_ fun _ _ => ok _) fun _ => ?_
  · exact touches_writeConsole.mono fun _ ⟨i, hi, ha⟩ => ⟨i, by omega, ha⟩
  · cases k.lookupFdStruct fd with
    | none => exact ok _
    | some =>
      exact ite (fun _ => ok _) fun _ => bind touches_copy fun _ _ => ok _

end

/-! ## The cases of the switch -/

section

variable {f : Nat → Except Stop Answer} {x : Except Stop Answer}

theorem meets_oneArgument :
    Meets R (k.oneArgument esp f) ↔ (k.memory.Checked (argPtr esp 0) →
      k.memory.WordMapped (argPtr esp 0) ∧ Meets R (f (k.memory.word (argPtr esp 0)))) := by
  unfold CallState.oneArgument
  rw [meets_check, meets_loadWord]

theorem meets_value (hesp : k.memory.WordMapped esp)
    (hc : SysCall.ofWord (k.memory.word esp) = some c) (hargs : c.arguments = [.value])
    (hf : ∀ w a, f w ≠ .error (.illegal a)) :
    Meets (Faulty k.memory esp) (k.oneArgument esp f) ↔
      (k.memory.Checked (argPtr esp 0) → k.memory.WordMapped (argPtr esp 0)) := by
  rw [meets_oneArgument]
  refine imp_congr_right fun _ => and_iff_left_of_imp fun hw => ?_
  refine meets_of_not (not_faulty_values hesp hc (by simp [hargs]) fun j hj => ?_) (hf _)
  obtain rfl : j = 0 := by simpa [hargs] using hj
  exact hw

/-- A pointer that has passed the check is neither null nor a kernel address. -/
theorem UserMemory.Checked.lt (h : m.Checked p) : p ≠ 0 ∧ p < physBase :=
  ⟨h.1, lt_physBase h.2⟩

theorem meets_user :
    Meets R (do refuse (p = 0 || !isUserVaddr p); x) ↔ (p ≠ 0 ∧ p < physBase → Meets R x) := by
  rw [meets_refuse]
  simp [isUserVaddr]

/-- The three tests of `exec`, `open` and `write` are one. -/
theorem meets_pointer :
    Meets R (do refuse (p = 0); m.isCorrectUserMemory p; refuse (!isUserVaddr p); x) ↔
      (m.Checked p → Meets R x) := by
  rw [meets_refuse, meets_check, meets_refuse]
  constructor
  · intro h hp
    exact h (by simpa using hp.1) hp (by simpa [isUserVaddr] using hp.lt.2)
  · intro h _ hp _
    exact h hp

section

variable (hesp : k.memory.WordMapped esp)
include hesp

/-- A call with one string, behind tests that let it through in case of `C`. -/
theorem meets_string
    (hc : SysCall.ofWord (k.memory.word esp) = some c) (hargs : c.arguments = [.string])
    {C : Nat → Prop} {g : Nat → Except Stop Answer}
    (hf : ∀ p, Meets (Faulty k.memory esp) (f p) ↔ (C p → Meets (Faulty k.memory esp) (g p)))
    (hg : ∀ p, Touches k.memory (k.memory.StringByte p) (g p)) :
    Meets (Faulty k.memory esp) (k.oneArgument esp f) ↔ (k.memory.Checked (argPtr esp 0) →
      k.memory.WordMapped (argPtr esp 0) ∧
      (C (k.memory.word (argPtr esp 0)) → k.memory.StringMapped (k.memory.word (argPtr esp 0)))) := by
  rw [meets_oneArgument]
  refine imp_congr_right fun _ => and_congr_right fun hw => ?_
  rw [hf]
  refine imp_congr_right fun _ => meets_body (hg _) (faulty_string hesp hc hargs (by simp) ?_)
  intro j hj
  obtain rfl : j = 0 := by simpa [hargs] using hj
  exact hw

theorem meets_create (hc : SysCall.ofWord (k.memory.word esp) = some .create) :
    Meets (Faulty k.memory esp) (k.dispatch esp .create) ↔ k.memory.CallOk esp .create := by
  simp only [CallState.dispatch, CallOk, meets_check, meets_loadWord, meets_user]
  refine imp_congr_right fun _ => imp_congr_right fun _ => and_congr_right fun h0 =>
    imp_congr_right fun hp => and_congr_right fun h1 => ?_
  rw [imp_iff_right hp.lt]
  refine meets_body (bind touches_filesysCreate fun _ _ => ok _)
    (faulty_string hesp hc rfl (by simp) fun j hj => ?_)
  match j, hj with
  | 0, _ => exact h0
  | 1, _ => exact h1

theorem meets_read (hc : SysCall.ofWord (k.memory.word esp) = some .read) :
    Meets (Faulty k.memory esp) (k.dispatch esp .read) ↔ k.memory.CallOk esp .read := by
  simp only [CallState.dispatch, CallOk, meets_check, meets_loadWord, meets_user]
  refine imp_congr_right fun _ => imp_congr_right fun _ => imp_congr_right fun _ =>
    and_congr_right fun h0 => and_congr_right fun h1 => and_congr_right fun h2 =>
    imp_congr_right fun _ => ?_
  exact meets_body touches_read (faulty_buffer hesp hc rfl h0 h1 h2)

theorem meets_write (hc : SysCall.ofWord (k.memory.word esp) = some .write) :
    Meets (Faulty k.memory esp) (k.dispatch esp .write) ↔ k.memory.CallOk esp .write := by
  simp only [CallState.dispatch, CallOk, meets_check, meets_loadWord, meets_pointer]
  refine imp_congr_right fun _ => imp_congr_right fun _ => imp_congr_right fun _ =>
    and_congr_right fun h0 => and_congr_right fun h1 => and_congr_right fun h2 =>
    imp_congr_right fun _ => ?_
  exact meets_body touches_write (faulty_buffer hesp hc rfl h0 h1 h2)

theorem not_faulty_two
    (hc : SysCall.ofWord (k.memory.word esp) = some c) (hargs : c.arguments = [.value, .value])
    (h0 : k.memory.WordMapped (argPtr esp 0)) (h1 : k.memory.WordMapped (argPtr esp 1)) :
    ¬ Faulty k.memory esp := by
  refine not_faulty_values hesp hc (by simp [hargs]) fun j hj => ?_
  rw [hargs] at hj
  match j, hj with
  | 0, _ => exact h0
  | 1, _ => exact h1

theorem meets_seek (hc : SysCall.ofWord (k.memory.word esp) = some .seek) :
    Meets (Faulty k.memory esp) (k.dispatch esp .seek) ↔ k.memory.CallOk esp .seek := by
  simp only [CallState.dispatch, CallOk, meets_check, meets_loadWord]
  refine imp_congr_right fun _ => imp_congr_right fun _ => and_congr_right fun h0 =>
    and_iff_left_of_imp fun h1 => meets_of_not (not_faulty_two hesp hc rfl h0 h1) fun a ha => ?_
  unfold CallState.seek at ha
  split at ha
  · cases ha
  · split at ha <;> cases ha

theorem meets_mmap (hc : SysCall.ofWord (k.memory.word esp) = some .mmap) :
    Meets (Faulty k.memory esp) (k.dispatch esp .mmap) ↔ k.memory.CallOk esp .mmap := by
  simp only [CallState.dispatch, CallOk, meets_check, meets_loadWord]
  refine imp_congr_right fun _ => and_congr_right fun h0 =>
    and_iff_left_of_imp fun h1 => meets_of_not (not_faulty_two hesp hc rfl h0 h1) fun a ha => ?_
  cases ha

/-- **Every case of the switch.** -/
theorem meets_dispatch (hc : SysCall.ofWord (k.memory.word esp) = some c) :
    Meets (Faulty k.memory esp) (k.dispatch esp c) ↔ k.memory.CallOk esp c := by
  cases c with
  | halt =>
    refine iff_of_true (meets_of_not (not_faulty_values hesp hc ?_ ?_) fun a ha => ?_) trivial
    · simp [SysCall.arguments]
    · simp [SysCall.arguments]
    · cases ha
  | exit | wait | filesize | tell | close | munmap =>
    exact meets_value hesp hc rfl fun w a ha => by cases ha
  | exec =>
    exact meets_string hesp hc rfl (fun _ => meets_pointer) fun _ =>
      bind touches_processExecute fun _ _ => ok _
  | «open» =>
    exact meets_string hesp hc rfl (fun _ => meets_pointer) fun _ =>
      bind touches_filesysFind fun _ _ => ok _
  | remove =>
    exact meets_string hesp hc rfl (fun _ => meets_user) fun _ =>
      bind touches_filesysFind fun _ _ => ok _
  | create => exact meets_create hesp hc
  | read => exact meets_read hesp hc
  | write => exact meets_write hesp hc
  | seek => exact meets_seek hesp hc
  | mmap => exact meets_mmap hesp hc

end

end

/-- **Argument safety.**  For every user memory, page directory, stack pointer and state of the file
    system, a system call makes no illegal access, and ends the process if any byte of its number,
    its arguments, its strings or its buffer is not mapped, EXACTLY IF every one of these that
    begins on a byte that passes `is_correct_user_memory` is mapped to its end, and so are those
    that are followed without that check: the second argument of `mmap`, the name of `remove` and
    the buffer of `read`. -/
theorem syscall_argument_safety (k : CallState) (esp : Nat) :
    ArgumentSafe k esp ↔ k.memory.ArgumentsOk esp := by
  unfold ArgumentSafe CallState.syscallHandler ArgumentsOk
  rw [meets_check, meets_loadWord]
  refine imp_congr_right fun _ => and_congr_right fun hesp => ?_
  cases hc : SysCall.ofWord (k.memory.word esp) with
  | none =>
    refine iff_of_true (meets_of_not ?_ fun a ha => ?_) (by simp)
    · rw [faulty_iff ⟨hesp, ?_⟩] <;> simp [argumentsOf, hc]
    · cases ha
  | some =>
    simp only [Option.some.injEq, forall_eq']
    exact meets_dispatch hesp hc

/-! ## The defects -/

/-- A process with one page of memory, which holds these words from its start on. -/
def onePage (words : List Nat) : CallState where
  memory :=
    { pagedir := fun d => if d = 0 then some fun t =>
        { present := decide (t = 1), writable := true, user := true, page := physBase } else none
      byte := fun a => UInt8.ofNat ((words.getD ((a - pgSize) / 4) 0) / Nat.pow 256 (a % 4)) }
  listOfFds := [(2, { length := 8, pos := 0, denyWrite := false })]
  commandPage := true
  rootDir := true
  entries := [List.replicate 5 97]
  freeMap := true
  inodeCreated := true
  slotWritten := true
  bounce := true

/-- **The defects.**  A call number that runs over the end of the page; an `mmap` whose second
    argument is on the next page; a `remove` of a name that is nowhere; a `read` into a buffer that
    is nowhere; and a string that runs over the end of the page. -/
theorem unchecked_bytes_are_touched :
    (onePage []).syscallHandler 8190 = .error (.illegal 8192) ∧
    (onePage (List.replicate 1022 0 ++ [13])).syscallHandler 8184 = .error (.illegal 8192) ∧
    (onePage [5, 16384]).syscallHandler 4096 = .error (.illegal 16384) ∧
    (onePage [8, 2, 16384, 8]).syscallHandler 4096 = .error (.illegal 16384) ∧
    (onePage ([6, 8188] ++ List.replicate 1021 0 ++ [0x61616161])).syscallHandler 4096 =
      .error (.illegal 8192) := by
  refine ⟨?_, ?_, ?_, ?_, ?_⟩
  · decide
  · decide +kernel
  · decide
  · decide +kernel
  · decide +kernel

end Pintos.Userprog
