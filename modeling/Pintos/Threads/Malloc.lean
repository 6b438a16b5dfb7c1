/-
  The kernel heap (`threads/malloc.c`).

  1. **Arenas** — a page that is cut into blocks of one size, or a run of pages that is one big
     block, begins with a header of 12 bytes.  `h.arena a` is the header at the address `a`, if there
     is one with the magic number.

  2. **Free lists** — one for each descriptor, the blocks of ALL its arenas mixed; a block is its
     address.  Unlinking a block that is on no list would corrupt memory, so it is an error here.

  3. **Pages** — which pages `palloc` returns is a choice of the environment.  `h.held a` is what it
     has handed out at `a` and not got back; its assertion on pages given back is an error here.

  The locks of the descriptors are not modelled, and neither are the contents of the blocks.
-/
import Pintos.Base.Machine
import Pintos.Userprog.PageDir

namespace Pintos.Threads.Malloc

open Base Userprog Function

/-! ## Descriptors -/

/-- `struct desc`, without the list and the lock. -/
structure Desc where
  blockSize : Nat
  blocksPerArena : Nat
  deriving DecidableEq

def sizeofArena : Nat := 12

/-- The loop of `malloc_init`, with room for `n` descriptors left: `none` is the failed assertion. -/
def descsFrom (blockSize : Nat) : Nat → Option (List Desc)
  | 0 => if blockSize < pgSize / 2 then none else some []
  | n + 1 =>
    if blockSize < pgSize / 2 then
      (descsFrom (blockSize * 2) n).map
        (⟨blockSize, (pgSize - sizeofArena) / blockSize⟩ :: ·)
    else some []

/-- `malloc_init`, for an array of 10 descriptors. -/
def mallocInit : Option (List Desc) := descsFrom 16 10

/-- `descs`, up to `desc_cnt`. -/
def descs : List Desc := [⟨16, 255⟩, ⟨32, 127⟩, ⟨64, 63⟩, ⟨128, 31⟩, ⟨256, 15⟩, ⟨512, 7⟩, ⟨1024, 3⟩]

theorem mallocInit_eq : mallocInit = some descs := by decide

abbrev DescId := Fin descs.length

def DescId.blockSize (d : DescId) : Nat := (descs.get d).blockSize

def DescId.blocksPerArena (d : DescId) : Nat := (descs.get d).blocksPerArena

theorem DescId.fits : ∀ d : DescId, 0 < d.blockSize ∧ 0 < d.blocksPerArena ∧
    sizeofArena + d.blocksPerArena * d.blockSize ≤ pgSize := by
  decide

/-! ## The heap -/

/-- `struct arena`, with its magic number. -/
structure Arena where
  /-- The descriptor, `none` for a big block. -/
  desc : Option DescId
  /-- Free blocks; pages of a big block. -/
  freeCnt : Nat
  deriving DecidableEq

structure Heap where
  arena : Nat → Option Arena
  freeList : DescId → List Nat
  held : Nat → Option Nat

inductive Stop where
  | assertion
  /-- `palloc_free_multiple` of pages that were not handed out like this. -/
  | wrongPages
  /-- `list_remove` of a block that is not on the list. -/
  | notOnList
  deriving DecidableEq

namespace Heap

def empty : Heap := { arena := fun _ => none, freeList := fun _ => [], held := fun _ => none }

def setArena (h : Heap) (a : Nat) (A : Option Arena) : Heap :=
  { h with arena := update h.arena a A }

def setList (h : Heap) (d : DescId) (l : List Nat) : Heap :=
  { h with freeList := update h.freeList d l }

/-- `block_to_arena`, with the header. -/
def blockToArena (h : Heap) (b : Nat) : Except Stop (Nat × Arena) :=
  let a := pgRoundDown b
  if a = 0 then .error .assertion
  else
    match h.arena a with
    | none => .error .assertion
    | some A =>
      match A.desc with
      | some d =>
        -- `pg_ofs (b) - sizeof *a` is unsigned
        if (pgOfs b + addrSpace - sizeofArena) % addrSpace % d.blockSize = 0 then .ok (a, A)
        else .error .assertion
      | none => if pgOfs b = sizeofArena then .ok (a, A) else .error .assertion

def arenaToBlock (h : Heap) (a idx : Nat) : Except Stop Nat :=
  if a = 0 then .error .assertion
  else
    match h.arena a with
    | none => .error .assertion
    | some A =>
      match A.desc with
      | none => .error .assertion
      | some d =>
        if idx < d.blocksPerArena then .ok (a + sizeofArena + idx * d.blockSize)
        else .error .assertion

/-- The pages that a big block takes; the sum is unsigned. -/
def bigPages (size : Nat) : Nat := (size + sizeofArena + pgSize - 1) % addrSpace / pgSize

/-- The first descriptor whose blocks are large enough. -/
def findDesc (size : Nat) : Option DescId := descs.findFinIdx? fun d => size ≤ d.blockSize

/-- `palloc_get_multiple` has returned `cnt` pages at `a`, and the header is written. -/
def newHeader (h : Heap) (a cnt : Nat) (A : Arena) : Heap := { h with
    arena := update h.arena a (some A)
    held := update h.held a (some cnt) }

/-- `palloc_free_multiple`: the pages are overwritten, the header with them. -/
def pallocFree (h : Heap) (a cnt : Nat) : Except Stop Heap :=
  if h.held a = some cnt then
    .ok { h with arena := update h.arena a none, held := update h.held a none }
  else .error .wrongPages

/-- The loop that puts the blocks of a new arena on the list, from block `i` on. -/
def addBlocks (h : Heap) (a : Nat) (d : DescId) (i : Nat) : Nat → Except Stop Heap
  | 0 => .ok h
  | n + 1 => do
    let b ← h.arenaToBlock a i
    addBlocks (h.setList d (h.freeList d ++ [b])) a d (i + 1) n

def listRemove (h : Heap) (d : DescId) (b : Nat) : Except Stop Heap :=
  if b ∈ h.freeList d then .ok (h.setList d ((h.freeList d).erase b)) else .error .notOnList

/-- The loop that takes the blocks of an arena off the list, from block `i` on. -/
def removeBlocks (h : Heap) (a : Nat) (d : DescId) (i : Nat) : Nat → Except Stop Heap
  | 0 => .ok h
  | n + 1 => do
    let b ← h.arenaToBlock a i
    let h' ← h.listRemove d b
    removeBlocks h' a d (i + 1) n

/-- The end of `malloc`: a block is taken from the list. -/
def takeBlock (h : Heap) (d : DescId) : Except Stop (Option Nat × Heap) :=
  match h.freeList d with
  -- the assertion of `list_pop_front`
  | [] => .error .assertion
  | b :: rest => do
    let (a, A) ← (h.setList d rest).blockToArena b
    .ok (some b, (h.setList d rest).setArena a (some { A with freeCnt := A.freeCnt - 1 }))

/-- `malloc`; `page` is what `palloc` returns, if it is asked. -/
def malloc (h : Heap) (size : Nat) (page : Option Nat) : Except Stop (Option Nat × Heap) :=
  if size = 0 then .ok (none, h)
  else
    match findDesc size with
    | none =>
      match page with
      | none => .ok (none, h)
      | some a =>
        .ok (some (a + sizeofArena), h.newHeader a (bigPages size) ⟨none, bigPages size⟩)
    | some d =>
      match h.freeList d with
      | [] =>
        match page with
        | none => .ok (none, h)
        | some a => do
          let h' ← (h.newHeader a 1 ⟨some d, d.blocksPerArena⟩).addBlocks a d 0 d.blocksPerArena
          h'.takeBlock d
      | _ :: _ => h.takeBlock d

/-- `calloc`; the product is unsigned. -/
def calloc (h : Heap) (a b : Nat) (page : Option Nat) : Except Stop (Option Nat × Heap) :=
  let size := a * b % addrSpace
  if size < a ∨ size < b then .ok (none, h) else h.malloc size page

def blockSize (h : Heap) (block : Nat) : Except Stop Nat := do
  let (_, A) ← h.blockToArena block
  match A.desc with
  | some d => .ok d.blockSize
  | none => .ok (pgSize * A.freeCnt - pgOfs block)

/-- `free` of a normal block: on the list, and off again with its siblings if it was the last. -/
def freeNormal (h : Heap) (p a : Nat) (d : DescId) (A : Arena) : Except Stop Heap :=
  let freeCnt := A.freeCnt + 1
  let h' := (h.setList d (p :: h.freeList d)).setArena a (some { A with freeCnt := freeCnt })
  if freeCnt ≥ d.blocksPerArena then
    if freeCnt = d.blocksPerArena then do
      let h'' ← h'.removeBlocks a d 0 d.blocksPerArena
      h''.pallocFree a 1
    else .error .assertion
  else .ok h'

def free (h : Heap) (p : Option Nat) : Except Stop Heap :=
  match p with
  | none => .ok h
  | some p => do
    let (a, A) ← h.blockToArena p
    match A.desc with
    | some d => h.freeNormal p a d A
    | none => h.pallocFree a A.freeCnt

def realloc (h : Heap) (oldBlock : Option Nat) (newSize : Nat) (page : Option Nat) :
    Except Stop (Option Nat × Heap) :=
  if newSize = 0 then do
    let h' ← h.free oldBlock
    .ok (none, h')
  else do
    let (newBlock, h') ← h.malloc newSize page
    match oldBlock with
    | none => .ok (newBlock, h')
    | some old =>
      match newBlock with
      | none => .ok (none, h')
      | some new => do
        -- the size says how much is copied
        let _ ← h'.blockSize old
        let h'' ← h'.free (some old)
        .ok (some new, h'')

/-- The pages that `malloc` will ask for. -/
def asks (h : Heap) (size : Nat) : Option Nat :=
  if size = 0 then none
  else
    match findDesc size with
    | none => some (bigPages size)
    | some d => if h.freeList d = [] then some 1 else none

end Heap

/-! ## Clients -/

/-- A block that was returned and has not been freed, with the size asked for. -/
structure Block where
  addr : Nat
  size : Nat
  deriving DecidableEq

structure State where
  heap : Heap
  live : List Block

def State.start : State := { heap := Heap.empty, live := [] }

inductive Act where
  | malloc (size : Nat) (page : Option Nat)
  | calloc (a b : Nat) (page : Option Nat)
  | realloc (old : Option Nat) (size : Nat) (page : Option Nat)
  | free (p : Option Nat)
  deriving DecidableEq

/-- The block that was returned is live. -/
def State.returned (live : List Block) (p : Option Nat) (size : Nat) : List Block :=
  match p with
  | none => live
  | some p => ⟨p, size⟩ :: live

/-- The block that was passed to `free` is not. -/
def State.freed (live : List Block) (p : Option Nat) : List Block :=
  live.filter fun B => some B.addr ≠ p

def step (s : State) : Act → Except Stop State
  | .malloc size page => do
    let (p, h) ← s.heap.malloc size page
    .ok ⟨h, State.returned s.live p size⟩
  | .calloc a b page => do
    let (p, h) ← s.heap.calloc a b page
    .ok ⟨h, State.returned s.live p (a * b % addrSpace)⟩
  | .realloc old size page => do
    let (p, h) ← s.heap.realloc old size page
    -- `realloc` frees the old block if it returns another one, or was asked for nothing
    if p.isSome ∨ size = 0 then .ok ⟨h, State.returned (State.freed s.live old) p size⟩
    else .ok ⟨h, s.live⟩
  | .free p => do
    let h ← s.heap.free p
    .ok ⟨h, State.freed s.live p⟩

/-- What `palloc` may return: pages that are not handed out. -/
def Fresh (h : Heap) (a cnt : Nat) : Prop :=
  a % pgSize = 0 ∧ 0 < a ∧ a + pgSize * cnt ≤ addrSpace ∧ 0 < cnt ∧
  ∀ b n, h.held b = some n → Apart a (pgSize * cnt) b (pgSize * n)

/-- `palloc` returns null, or fresh pages. -/
def PageOk (h : Heap) (size : Nat) (page : Option Nat) : Prop :=
  ∀ a n, page = some a → h.asks size = some n → Fresh h a n

/-- The pointer is null, or that of a live block. -/
def LiveOrNull (s : State) (p : Option Nat) : Prop := ∀ a, p = some a → ∃ B ∈ s.live, B.addr = a

def maxRequest : Nat := 2147483648

/-- Requests of at most 2^31 bytes; only live blocks are passed to `free` and `realloc`. -/
def Enabled (s : State) : Act → Prop
  | .malloc size page => size ≤ maxRequest ∧ PageOk s.heap size page
  | .calloc a b page => a * b % addrSpace ≤ maxRequest ∧ PageOk s.heap (a * b % addrSpace) page
  | .realloc old size page => size ≤ maxRequest ∧ PageOk s.heap size page ∧ LiveOrNull s old
  | .free p => LiveOrNull s p

def machine : Machine State Act Stop where
  enabled := Enabled
  step := step

end Pintos.Threads.Malloc
