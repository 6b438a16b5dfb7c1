/-
  Page directories and page tables in memory, bit by bit (`threads/vaddr.h`, `threads/pte.h`,
  `userprog/pagedir.c`, and `paging_init` of `threads/init.c`).

  Where `Pintos.Userprog.PageDir` takes a page table for a function, here it is a PAGE of kernel memory:
  1024 words, reached through the physical address that a word of the directory packs together with
  its flags.  Nothing but the code keeps two tables apart.

  1. **Words** — an entry holds a physical page address above twelve bits of flags.

  2. **Memory** — `PageMem` is the kernel's memory, page by page.

  3. **The machine** — calls of the four functions that change a directory, in any order, each one
     with the arguments that it asserts.  The TLB is not modelled.
-/
import Mathlib.Logic.Function.Basic
import Mathlib.Order.Basic
import Pintos.Base.Machine
import Pintos.Base.Words

namespace Pintos.Userprog.PageTable

open Base Function

abbrev Word := BitVec 32

/-- Kernel memory: the word `i` of the page at a kernel address. -/
abbrev PageMem := Word → Nat → Word

/-- The word `i` of a page is written. -/
def PageMem.set (mem : PageMem) (page : Word) (i : Nat) (w : Word) : PageMem :=
  update mem page (update (mem page) i w)

def PageMem.zero (mem : PageMem) (page : Word) : PageMem := update mem page fun _ => 0

inductive PtFault
  | assertion
  | nullPointer
  deriving DecidableEq

def assert (p : Prop) [Decidable p] : Except PtFault Unit :=
  if p then .ok () else .error .assertion

/-! ## Addresses -/

def physBase : Word := 0xc0000000

def pgOfs (va : Word) : Word := va &&& 0xfff

def pgNo (va : Word) : Word := va >>> 12

def ptNo (va : Word) : Nat := ((va &&& 0x3ff000) >>> 12).toNat

def pdNo (va : Word) : Nat := (va >>> 22).toNat

def isUserVaddr (va : Word) : Bool := va < physBase

def isKernelVaddr (va : Word) : Bool := physBase ≤ va

def ptov (paddr : Word) : Except PtFault Word := do
  assert (paddr < physBase)
  .ok (paddr + physBase)

def vtop (vaddr : Word) : Except PtFault Word := do
  assert (isKernelVaddr vaddr)
  .ok (vaddr - physBase)

/-! ## Entries -/

def pteAddr : Word := 0xfffff000

def pteP : Word := 0x1

def pteW : Word := 0x2

def pteU : Word := 0x4

def pteA : Word := 0x20

def pteD : Word := 0x40

def pdeCreate (pt : Word) : Except PtFault Word := do
  assert (pgOfs pt = 0)
  let paddr ← vtop pt
  .ok (paddr ||| pteU ||| pteP ||| pteW)

def pdeGetPt (pde : Word) : Except PtFault Word := do
  assert (pde &&& pteP ≠ 0)
  ptov (pde &&& pteAddr)

def pteCreateKernel (page : Word) (writable : Bool) : Except PtFault Word := do
  assert (pgOfs page = 0)
  let paddr ← vtop page
  .ok (paddr ||| pteP ||| (if writable then pteW else 0))

def pteCreateUser (page : Word) (writable : Bool) : Except PtFault Word := do
  let pte ← pteCreateKernel page writable
  .ok (pte ||| pteU)

def pteGetPage (pte : Word) : Except PtFault Word := ptov (pte &&& pteAddr)

/-! ## `paging_init` -/

/-- A page that `palloc_get_page` may return. -/
def KernelPage (page : Word) : Prop := pgOfs page = 0 ∧ physBase ≤ page

instance (page : Word) : Decidable (KernelPage page) := inferInstanceAs (Decidable (_ ∧ _))

/-- What `paging_init` is given: the amount of memory, the extent of the kernel's text, and the pages
    that `palloc_get_page` returns to it, one for the directory and one for each of its entries. -/
structure Boot where
  initRamPages : Nat
  textStart : Word
  textEnd : Word
  initPageDir : Word
  alloc : Nat → Word
  /-- The loader caps memory at 64 MB. -/
  ram_le : initRamPages ≤ 16384
  alloc_page : ∀ i < 1024, KernelPage (alloc i)
  alloc_ne : ∀ i < 1024, alloc i ≠ initPageDir
  alloc_inj : ∀ i < 1024, ∀ j < 1024, alloc i = alloc j → i = j

/-- The table for the directory index `i`: the one that is there, or a new one.  The loop of
    `paging_init` keeps the last new one in `pt`. -/
def initTable (b : Boot) (mem : PageMem) (pt : Option Word) (i : Nat) :
    Except PtFault (PageMem × Option Word) :=
  if mem b.initPageDir i = 0 then do
    let pde ← pdeCreate (b.alloc i)
    .ok ((mem.zero (b.alloc i)).set b.initPageDir i pde, some (b.alloc i))
  else .ok (mem, pt)

/-- A turn of the loop of `paging_init`. -/
def initPage (b : Boot) (s : PageMem × Option Word) (page : Nat) :
    Except PtFault (PageMem × Option Word) := do
  let vaddr ← ptov (BitVec.ofNat 32 (page * 4096))
  let s ← initTable b s.1 s.2 (pdNo vaddr)
  match s.2 with
  | none => .error .nullPointer
  | some pt => do
    let pte ← pteCreateKernel vaddr (!(b.textStart ≤ vaddr && vaddr < b.textEnd))
    .ok (s.1.set pt (ptNo vaddr) pte, some pt)

def pagingInit (b : Boot) (mem : PageMem) : Except PtFault PageMem := do
  let s ← (List.range b.initRamPages).foldlM (initPage b) (mem.zero b.initPageDir, none)
  .ok s.1

/-! ## `pagedir.c` -/

/-- `pagedir_create`, with the page that `palloc_get_page (0)` returns. -/
def pagedirCreate (b : Boot) (mem : PageMem) (page : Option Word) : Option Word × PageMem :=
  match page with
  | none => (none, mem)
  | some pd => (some pd, update mem pd (mem b.initPageDir))

/-- `lookup_page`: the table and the index in it for the pointer to an entry.  The page table that
    `palloc_get_page (PAL_ZERO)` returns, if it is called, is `table`. -/
def lookupPage (mem : PageMem) (pd vaddr : Word) (create : Bool) (table : Option Word) :
    Except PtFault (Option (Word × Nat) × PageMem) := do
  assert (pd ≠ 0)
  assert (!create || isUserVaddr vaddr)
  if mem pd (pdNo vaddr) = 0 then
    if create then
      match table with
      | none => .ok (none, mem)
      | some pt => do
        let mem := mem.zero pt
        let pde ← pdeCreate pt
        let mem := mem.set pd (pdNo vaddr) pde
        let pt ← pdeGetPt (mem pd (pdNo vaddr))
        .ok (some (pt, ptNo vaddr), mem)
    else .ok (none, mem)
  else do
    let pt ← pdeGetPt (mem pd (pdNo vaddr))
    .ok (some (pt, ptNo vaddr), mem)

def pagedirSetPage (b : Boot) (mem : PageMem) (pd upage kpage : Word) (writable : Bool)
    (table : Option Word) : Except PtFault (Bool × PageMem) := do
  assert (pgOfs upage = 0)
  assert (pgOfs kpage = 0)
  assert (isUserVaddr upage)
  let paddr ← vtop kpage
  assert ((paddr >>> 12).toNat < b.initRamPages)
  assert (pd ≠ b.initPageDir)
  let r ← lookupPage mem pd upage true table
  match r.1 with
  | none => .ok (false, r.2)
  | some (pt, i) => do
    assert (r.2 pt i &&& pteP = 0)
    let pte ← pteCreateUser kpage writable
    .ok (true, r.2.set pt i pte)

/-- `pagedir_get_page`; `none` is a null pointer. -/
def pagedirGetPage (mem : PageMem) (pd uaddr : Word) : Except PtFault (Option Word) := do
  assert (isUserVaddr uaddr)
  let r ← lookupPage mem pd uaddr false none
  match r.1 with
  | none => .ok none
  | some (pt, i) =>
    if r.2 pt i &&& pteP ≠ 0 then do
      let page ← pteGetPage (r.2 pt i)
      .ok (some (page + pgOfs uaddr))
    else .ok none

def pagedirClearPage (mem : PageMem) (pd upage : Word) : Except PtFault PageMem := do
  assert (pgOfs upage = 0)
  assert (isUserVaddr upage)
  let r ← lookupPage mem pd upage false none
  match r.1 with
  | none => .ok r.2
  | some (pt, i) =>
    if r.2 pt i &&& pteP ≠ 0 then .ok (r.2.set pt i (r.2 pt i &&& ~~~pteP)) else .ok r.2

/-- Whether a flag is set in the entry for `vpage`. -/
def hasFlag (flag : Word) (mem : PageMem) (pd vpage : Word) : Except PtFault Bool := do
  let r ← lookupPage mem pd vpage false none
  match r.1 with
  | none => .ok false
  | some (pt, i) => .ok (r.2 pt i &&& flag != 0)

/-- A flag is set to `value` in the entry for `vpage`. -/
def setFlag (flag : Word) (mem : PageMem) (pd vpage : Word) (value : Bool) :
    Except PtFault PageMem := do
  let r ← lookupPage mem pd vpage false none
  match r.1 with
  | none => .ok r.2
  | some (pt, i) =>
    .ok (r.2.set pt i (if value then r.2 pt i ||| flag else r.2 pt i &&& ~~~flag))

def pagedirIsDirty := hasFlag pteD

def pagedirSetDirty := setFlag pteD

def pagedirIsAccessed := hasFlag pteA

def pagedirSetAccessed := setFlag pteA

/-! ## The machine -/

/-- A call that changes the page directory; a `setPage` comes with the page that `palloc_get_page`
    would return for a page table. -/
inductive PagedirOp
  | setPage (upage kpage : Word) (writable : Bool) (table : Option Word)
  | clearPage (upage : Word)
  | setDirty (vpage : Word) (dirty : Bool)
  | setAccessed (vpage : Word) (accessed : Bool)

namespace PagedirOp

def page : PagedirOp → Word
  | setPage upage _ _ _ => upage
  | clearPage upage => upage
  | setDirty vpage _ => vpage
  | setAccessed vpage _ => vpage

/-- The call: what it returns (`true` where it returns nothing), and the memory after it. -/
def run (b : Boot) (pd : Word) (mem : PageMem) : PagedirOp → Except PtFault (Bool × PageMem)
  | setPage upage kpage writable table => pagedirSetPage b mem pd upage kpage writable table
  | clearPage upage => (pagedirClearPage mem pd upage).map (true, ·)
  | setDirty vpage dirty => (pagedirSetDirty mem pd vpage dirty).map (true, ·)
  | setAccessed vpage accessed => (pagedirSetAccessed mem pd vpage accessed).map (true, ·)

end PagedirOp

/-- A page that is neither the directory nor one of its tables. -/
def Fresh (mem : PageMem) (pd page : Word) : Prop :=
  KernelPage page ∧ page ≠ pd ∧ ∀ i < 1024, mem pd i ≠ 0 → pdeGetPt (mem pd i) ≠ .ok page

instance (mem : PageMem) (pd page : Word) : Decidable (Fresh mem pd page) := by
  unfold Fresh; infer_instance

/-- A page table, if there is memory for it, is a fresh page. -/
def FreshTable (mem : PageMem) (pd : Word) : Option Word → Prop
  | none => True
  | some pt => Fresh mem pd pt

instance (mem : PageMem) (pd : Word) (table : Option Word) : Decidable (FreshTable mem pd table) := by
  cases table <;> unfold FreshTable <;> infer_instance

/-- What a call may be given: pages, a frame below the limit of memory for a page that is not mapped,
    and any address for the flags. -/
def Allowed (b : Boot) (pd : Word) (mem : PageMem) : PagedirOp → Prop
  | .setPage upage kpage _ table =>
    (pgOfs upage = 0 ∧ isUserVaddr upage) ∧
      (KernelPage kpage ∧ ((kpage - physBase) >>> 12).toNat < b.initRamPages) ∧
      pagedirGetPage mem pd upage = .ok none ∧ FreshTable mem pd table
  | .clearPage upage => pgOfs upage = 0 ∧ isUserVaddr upage
  | .setDirty _ _ => True
  | .setAccessed _ _ => True

instance (b : Boot) (pd : Word) (mem : PageMem) (op : PagedirOp) : Decidable (Allowed b pd mem op) := by
  cases op <;> unfold Allowed <;> infer_instance

/-- Calls on the page directory `pd`, one after the other. -/
def pagedirMachine (b : Boot) (pd : Word) : Machine PageMem PagedirOp PtFault where
  enabled := Allowed b pd
  step mem op := (op.run b pd mem).map (·.2)

instance (b : Boot) (pd : Word) (mem : PageMem) (op : PagedirOp) :
    Decidable ((pagedirMachine b pd).enabled mem op) :=
  inferInstanceAs (Decidable (Allowed b pd mem op))

/-! ## What the tables are for -/

def returned (b : Boot) (pd : Word) (mem : PageMem) (op : PagedirOp) : Bool :=
  match op.run b pd mem with
  | .ok r => r.1
  | .error _ => false

/-- The frame of a page of user memory, before and after a call. -/
def frameAfter (b : Boot) (pd va : Word) (frame : Option Word) (step : PageMem × PagedirOp) :
    Option Word :=
  match step.2 with
  | .setPage upage kpage _ _ =>
    if pgNo upage = pgNo va ∧ returned b pd step.1 step.2 then some kpage else frame
  | .clearPage upage => if pgNo upage = pgNo va then none else frame
  | .setDirty _ _ => frame
  | .setAccessed _ _ => frame

/-- The frame that was last set for the page of `va`, unless the page was cleared since. -/
def lastSet (b : Boot) (pd : Word) (tr : List (PageMem × PagedirOp)) (va : Word) : Option Word :=
  tr.foldl (frameAfter b pd va) none

/-- All that can be observed of an address: what is there, and its two flags. -/
def observed (mem : PageMem) (pd va : Word) :
    Except PtFault (Option Word) × Except PtFault Bool × Except PtFault Bool :=
  (pagedirGetPage mem pd va, pagedirIsDirty mem pd va, pagedirIsAccessed mem pd va)

end Pintos.Userprog.PageTable
