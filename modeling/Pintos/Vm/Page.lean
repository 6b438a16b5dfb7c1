/-
  Pages and frames: `vm/page.c` and `vm/frame.c`, as far as a page fault needs them.

  Bringing a page in takes a frame, the contents of the page, and an entry in the page directory; each
  can fail, and what happens then is not always an error return:

  1. **Eviction** — if there is no free frame, `ft_evict` calls `swap_write`, which reads
     `swap_lock->holder`.  `swap_lock` is a POINTER that nothing ever assigns, so the kernel takes a
     page fault of its own (`Halt.kernelFault`).

  2. **Removal** — `ft_remove` looks the frame up with a record whose `matching_page` is not
     initialised; the frame it finds, if it finds one, is a choice of the environment.

  3. **Reading** — a page of a mapped file may ask for more than a page of bytes, and then the read
     runs over the end of the frame (`Halt.overrun`).

  The frame table `ft` is read by nothing but that lookup, and is left out.  So are page contents.
-/
import Pintos.Userprog.PageDir
import Pintos.Userprog.Process

namespace Pintos.Vm

open Userprog

inductive PageLocation where
  | mmf | mem | swap
  deriving DecidableEq

/-- `struct page`, without its key `upage`. -/
structure Page where
  pageReadBytes : Nat
  writable : Bool
  pLoc : PageLocation
  deriving DecidableEq

structure Frame where
  addr : Nat
  /-- The `upage` of `matching_page`. -/
  upage : Nat
  deriving DecidableEq

/-- The memory of the current process, and the frames in use. -/
structure Memory where
  pagedir : PageDir
  /-- The supplemental page table. -/
  spt : Nat → Option Page
  /-- `lru_queue`. -/
  lruQueue : List Frame

/-- What the allocators, the disk and the stack will say. -/
structure Choices where
  /-- `palloc_get_page (PAL_USER)`. -/
  userPage : Option Nat
  /-- There is memory for a `struct frame`. -/
  frameMemory : Bool
  /-- There is memory for a `struct page`. -/
  pageMemory : Bool
  /-- There is a page for a page table. -/
  pageTable : Bool
  /-- What `file_read_at` returns. -/
  bytesRead : Nat
  /-- What `hash_find` comes up with in `ft_get`. -/
  staleFrame : Option Frame

inductive Halt where
  /-- `exit (status)`. -/
  | exit (status : Int)
  /-- `PANIC`, or a failed assertion. -/
  | panic
  /-- The kernel follows a null or wild pointer and takes a page fault itself. -/
  | kernelFault
  /-- The kernel writes over memory behind the frame. -/
  | overrun
  deriving DecidableEq

/-- `acquire_swap_lock`: `swap_lock` is null. -/
def acquireSwapLock : Halt := .kernelFault

/-- `ft_evict` does not come back: `list_pop_front` asserts that there is a frame, and `swap_write`
    acquires its lock. -/
def ftEvict (vm : Memory) : Halt := if vm.lruQueue = [] then .panic else acquireSwapLock

def ftAdd (c : Choices) (vm : Memory) (upage : Nat) : Except Halt (Nat × Memory) :=
  match c.userPage with
  | some addr =>
    if c.frameMemory then
      .ok (addr, { vm with lruQueue := vm.lruQueue ++ [{ addr := addr, upage := upage }] })
    else .error .panic
  | none => .error (ftEvict vm)

def ftRemove (c : Choices) (vm : Memory) : Except Halt Memory :=
  match c.staleFrame with
  | some frame => .ok { vm with lruQueue := vm.lruQueue.erase frame }
  | none => .error .kernelFault

def sptGet (vm : Memory) (addr : Nat) : Option Page := vm.spt (pgRoundDown addr)

/-- The switch of `spt_get_frame`: whether the contents of the page have been brought in. -/
def pageIn (c : Choices) (pg : Page) : Except Halt Bool :=
  match pg.pLoc with
  | .mmf => if pgSize < c.bytesRead then .error .overrun else .ok (c.bytesRead = pg.pageReadBytes)
  | .mem => .ok true
  | .swap => .error acquireSwapLock

/-- The end of `spt_get_frame`, at its `install_page`. -/
def installLoaded (c : Choices) (vm : Memory) (upage addr : Nat) (pg : Page) :
    Except Halt (Bool × Memory) :=
  let spt := Function.update vm.spt upage (some { pg with pLoc := .mem })
  match installPage vm.pagedir upage addr pg.writable c.pageTable with
  | some pagedir => .ok (true, { vm with pagedir := pagedir, spt := spt })
  | none => do
    let vm ← ftRemove c vm
    return (false, { vm with pagedir := pagedirClearPage vm.pagedir upage, spt := spt })

/-- `spt_get_frame`, for the page at `upage`. -/
def sptGetFrame (c : Choices) (vm : Memory) (upage : Nat) (pg : Page) :
    Except Halt (Bool × Memory) := do
  let (addr, vm) ← ftAdd c vm upage
  let loaded ← pageIn c pg
  if loaded then installLoaded c vm upage addr pg
  else
    let vm ← ftRemove c vm
    return (false, { vm with pagedir := pagedirClearPage vm.pagedir upage })

def maxStack : Nat := 8388608

/-- The page that `new_page_on_stack` passes to `sp_create`. -/
def stackPage : Page := { pageReadBytes := 0, writable := true, pLoc := .mem }

/-- `sp_create`, once it has memory for the page. -/
def spCreate (vm : Memory) (upage : Nat) : Memory :=
  { vm with spt := Function.update vm.spt upage (some stackPage) }

def newPageOnStack (c : Choices) (vm : Memory) (esp addr : Nat) : Except Halt (Bool × Memory) :=
  if physBase - maxStack < esp ∧ c.pageMemory = true then do
    let (kpage, vm) ← ftAdd c (spCreate vm (pgRoundDown addr)) (pgRoundDown addr)
    match installPage vm.pagedir (pgRoundDown addr) kpage stackPage.writable c.pageTable with
    | some pagedir => return (true, { vm with pagedir := pagedir })
    | none => return (false, vm)
  else .ok (false, vm)

/-! ## What they come to -/

/-- A frame is to be had. -/
def GotFrame (c : Choices) : Prop := c.userPage ≠ none ∧ c.frameMemory = true

theorem ftAdd_cases (c : Choices) (vm : Memory) (upage : Nat) :
    (GotFrame c ∧ ∃ addr q, ftAdd c vm upage = .ok (addr, { vm with lruQueue := q })) ∨
    (¬ GotFrame c ∧ (c.userPage = none → vm.lruQueue = []) ∧ ftAdd c vm upage = .error .panic) ∨
    (¬ GotFrame c ∧ c.userPage = none ∧ vm.lruQueue ≠ [] ∧
      ftAdd c vm upage = .error .kernelFault) := by
  unfold ftAdd GotFrame
  cases hu : c.userPage with
  | some addr =>
    cases hf : c.frameMemory with
    | true => exact .inl ⟨by simp, addr, _, rfl⟩
    | false => exact .inr (.inl (by simp))
  | none =>
    by_cases hq : vm.lruQueue = []
    · exact .inr (.inl (by simp [ftEvict, hq]))
    · exact .inr (.inr (by simp [ftEvict, hq, acquireSwapLock]))

theorem installPage_cases {pd : PageDir} {upage : Nat} (hp : pagedirGetPage pd upage = none)
    (kpage : Nat) (writable pageTable : Bool) :
    (pd (pdNo upage) = none ∧ pageTable = false ∧
      installPage pd upage kpage writable pageTable = none) ∨
    (¬ (pd (pdNo upage) = none ∧ pageTable = false) ∧
      ∃ pd', installPage pd upage kpage writable pageTable = some pd' ∧
        lookupPage pd' upage = some (pteCreateUser kpage writable)) := by
  have hi : installPage pd upage kpage writable pageTable =
      pagedirSetPage pd upage kpage writable pageTable := by simp [installPage, hp]
  rw [hi]
  cases hs : pagedirSetPage pd upage kpage writable pageTable with
  | none =>
    obtain ⟨h1, h2⟩ := pagedirSetPage_eq_none.mp hs
    exact .inl ⟨h1, h2, rfl⟩
  | some pd' =>
    refine .inr ⟨fun h => ?_, pd', rfl, lookupPage_set hs⟩
    rw [pagedirSetPage_eq_none.mpr h] at hs
    cases hs

end Pintos.Vm
