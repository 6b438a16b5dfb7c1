/-
  Processes, their page faults, and the frames they share.

  Any number of processes start, take page faults, store to their pages and exit, over one frame
  table, one pool of user pages and one memory.  Each of these is one step.

  1. **A process** keeps its page directory until it exits; `process_exit` gives every page that the
     directory maps back to the allocator, and does NOT call `spt_destroy`: the records of its frames
     stay in the frame table.

  2. **A fault** brings a page in (`sptGetFrame`), puts a new page on the stack (`newPageOnStack`), or
     ends the process.  The kernel may also fault itself: its handler returns at once and the thread
     faults again, for ever (`hang`).  Other threads go on, but no frame is to be had any more if
     `ft_lock` was held.
-/
import Pintos.Vm.Frame
import Pintos.Vm.PageFault

namespace Pintos.Vm.Paging

open Base Lib Userprog Vm.Frames Function

structure Proc where
  /-- It has not exited. -/
  alive : Bool
  pagedir : PageDir
  /-- The supplemental page table.  Its pages are not freed when the process exits. -/
  spt : Nat → Option Page
  /-- Its thread faults in the kernel for ever. -/
  hung : Bool

/-- The processes and what they share. -/
structure State where
  procs : Nat → Option Proc
  frames : Table
  /-- The contents of the frames, by address and offset. -/
  ram : Nat → Nat → Nat
  /-- The thread that holds `ft_lock` and will not release it. -/
  ftLock : Option Nat

/-- What the allocators, the disk and the stack will say in one fault. -/
structure FaultChoice extends Choice where
  /-- There is memory for a `struct page`. -/
  pageMemory : Bool
  /-- There is a page for a page table. -/
  pageTable : Bool
  /-- What `file_read_at` returns. -/
  bytesRead : Nat
  /-- The bytes that it reads. -/
  data : Nat → Nat

inductive Act where
  /-- A process is loaded: its segments go into the supplemental page table and, if the file is as
      it should be, one page, the stack, is mapped. -/
  | start (pid : Nat) (segments : List (Nat × Page)) (valid : Bool) (stack : Option Nat)
      (pageTable : Bool)
  | fault (pid : Nat) (f : PageFault) (c : FaultChoice)
  /-- A user program stores a byte. -/
  | store (pid va byte : Nat)
  | exit (pid : Nat)

/-! ## Parts of the state -/

def State.modify (s : State) (pid : Nat) (g : Proc → Proc) : State :=
  { s with procs := update s.procs pid ((s.procs pid).map g) }

/-- `pg->p_loc = loc`, for the page of `pid` at `upage`. -/
def State.setLoc (s : State) (pid upage : Nat) (loc : PageLocation) : State :=
  s.modify pid fun p =>
    { p with spt := update p.spt upage ((p.spt upage).map ({ · with pLoc := loc })) }

def State.setPagedir (s : State) (pid : Nat) (pd : PageDir) : State :=
  s.modify pid ({ · with pagedir := pd })

/-- `pagedir_clear_page`, on the page directory of `pid`. -/
def State.clearPage (s : State) (pid upage : Nat) : State :=
  s.modify pid fun p => { p with pagedir := pagedirClearPage p.pagedir upage }

/-- The thread of `pid` faults in the kernel, holding `ft_lock` or not. -/
def State.hang (s : State) (pid : Nat) (lock : Bool) : State :=
  { s.modify pid ({ · with hung := true }) with ftLock := if lock then some pid else s.ftLock }

/-- The process, if it can run. -/
def State.running (s : State) (pid : Nat) : Option Proc :=
  (s.procs pid).filter fun p => p.alive && !p.hung

def tablePages (pt : Nat → Pte) : List Nat :=
  (List.range 1024).filterMap fun j => if (pt j).present then some (pt j).page else none

/-- The frames that `pagedir_destroy` comes to, directory entry by directory entry. -/
def mappedPages (pd : PageDir) : List Nat :=
  (List.range 768).flatMap fun i =>
    match pd i with
    | none => []
    | some pt => tablePages pt

/-- `process_exit`, as far as memory goes: `pagedir_destroy`. -/
def processExit (s : State) (pid : Nat) : Except Frames.Stop State :=
  match s.procs pid with
  | none => .ok s
  | some p => do
    let t ← (mappedPages p.pagedir).foldlM pallocFreePage s.frames
    return { s.modify pid ({ · with alive := false, pagedir := fun _ => none }) with frames := t }

/-! ## The page fault handler -/

/-- How the handler leaves a process. -/
inductive Verdict where
  | success | failure | hung
  deriving DecidableEq

abbrev Handled := Except Frames.Stop (Verdict × State)

/-- `ft_add`, and what follows if it returns. -/
def withFrame (s : State) (pid upage : Nat) (c : FaultChoice)
    (k : Nat → State → Handled) : Handled :=
  match Frames.ftAdd s.frames pid upage c.toChoice with
  | .ok (frame, t) => k frame.addr { s with frames := t }
  | .error left =>
    match left.stop with
    | .halt .kernelFault =>
      let s := { s with frames := left.table }
      match left.victim with
      | none => .ok (.hung, s.hang pid true)
      | some r => .ok (.hung, (s.setLoc r.owner r.upage .swap).hang pid true)
    | stop => .error stop

/-- `ft_remove (frame->addr)` and `pagedir_clear_page`, when a page cannot be brought in. -/
def giveBack (s : State) (pid upage addr : Nat) (c : FaultChoice) : Handled :=
  match Frames.ftRemove s.frames addr c.stale c.bucketMemory with
  | .ok t =>
    .ok (.failure, { s with frames := t }.clearPage pid upage)
  -- in `ft_get`, with the lock, or in `hash_delete`, when `ft_get` has released it
  | .error (.halt .kernelFault) => .ok (.hung, s.hang pid c.stale.isNone)
  | .error stop => .error stop

/-- The end of `spt_get_frame`, at its `install_page`. -/
def install (s : State) (pid : Nat) (p : Proc) (upage addr : Nat) (pg : Page) (c : FaultChoice) :
    Handled :=
  match installPage p.pagedir upage addr pg.writable c.pageTable with
  | some pd => .ok (.success, (s.setPagedir pid pd).setLoc pid upage .mem)
  | none => do
    let (v, s) ← giveBack s pid upage addr c
    -- a thread that faults in `ft_remove` does not get here
    return (v, if v = .hung then s else s.setLoc pid upage .mem)

/-- What `file_read_at` and, if all could be read, `memset` leave in a frame. -/
def fileContents (c : FaultChoice) (pg : Page) (old : Nat → Nat) (ofs : Nat) : Nat :=
  if ofs < c.bytesRead then c.data ofs
  else if c.bytesRead = pg.pageReadBytes ∧ ofs < pgSize then 0 else old ofs

/-- The case `SWAP` of `spt_get_frame`. -/
def readSwap (s : State) (pid : Nat) (p : Proc) (upage addr : Nat) (pg : Page) (c : FaultChoice) :
    Handled :=
  match s.frames.swap.swapReadOnly pid c.wild 0 with
  | .error .kernelFault => .ok (.hung, s.hang pid false)
  | .error h => .error (.halt h)
  -- `swap_read_only` does not return
  | .ok swap => install { s with frames := { s.frames with swap := swap } } pid p upage addr pg c

def sptGetFrame (s : State) (pid : Nat) (p : Proc) (upage : Nat) (pg : Page) (c : FaultChoice) :
    Handled :=
  withFrame s pid upage c fun addr s =>
    match pg.pLoc with
    | .mmf =>
      let s := { s with
        ram := update s.ram addr (fileContents c pg (s.ram addr)) }
      if c.bytesRead = pg.pageReadBytes then install s pid p upage addr pg c
      else giveBack s pid upage addr c
    | .mem => install s pid p upage addr pg c
    | .swap => readSwap s pid p upage addr pg c

/-- `sp_create`, once it has memory for the page. -/
def State.spCreate (s : State) (pid upage : Nat) : State :=
  s.modify pid fun p => { p with spt := update p.spt upage (some stackPage) }

def newPageOnStack (s : State) (pid : Nat) (p : Proc) (esp upage : Nat) (c : FaultChoice) :
    Handled :=
  if physBase - maxStack < esp ∧ c.pageMemory = true then
    withFrame (s.spCreate pid upage) pid upage c fun addr s =>
      match installPage p.pagedir upage addr stackPage.writable c.pageTable with
      | some pd => .ok (.success, s.setPagedir pid pd)
      | none => .ok (.failure, s)
  else .ok (.failure, s)

/-- The body of `page_fault`. -/
def bringIn (s : State) (pid : Nat) (p : Proc) (f : PageFault) (c : FaultChoice) : Handled :=
  match p.spt (pgRoundDown f.faultAddr) with
  | some pg => sptGetFrame s pid p (pgRoundDown f.faultAddr) pg c
  | none =>
    if f.nearStack then newPageOnStack s pid p f.esp (pgRoundDown f.faultAddr) c
    else .ok (.failure, s)

/-- `page_fault`, for a user access to a user page that is not present. -/
def pageFault (s : State) (pid : Nat) (p : Proc) (f : PageFault) (c : FaultChoice) :
    Except Frames.Stop State := do
  let (v, s) ← bringIn s pid p f c
  if v = .failure then processExit s pid else return s

/-! ## The machine -/

/-- The handler comes to `ft_add`. -/
def wantsFrame (p : Proc) (f : PageFault) (c : FaultChoice) : Bool :=
  (p.spt (pgRoundDown f.faultAddr)).isSome ||
    f.nearStack && (physBase - maxStack < f.esp && c.pageMemory)

/-- What the processor and the allocator make of a fault of `p`. -/
@[mk_iff]
structure FaultRaised (s : State) (p : Proc) (f : PageFault) (c : FaultChoice) : Prop where
  user : f.user = true
  notPresent : f.notPresent = true
  address : f.faultAddr < physBase
  absent : pagedirGetPage p.pagedir f.faultAddr = none
  page : Grants s.frames.freePages c.page
  lock : wantsFrame p f c = true → s.ftLock = none
  bytes : ∀ pg, p.spt (pgRoundDown f.faultAddr) = some pg → c.bytesRead ≤ pg.pageReadBytes

/-- The entry allows a user program to write. -/
def canStore (p : Proc) (va : Nat) : Bool :=
  va < physBase && (lookupPage p.pagedir va).any fun pte => pte.present && pte.writable && pte.user

/-- The address of the page of the initial stack. -/
def stackUpage : Nat := physBase - pgSize

/-- The pages that `load_segment` enters are to be read from a file, a page at most. -/
def FromFile (segments : List (Nat × Page)) : Prop :=
  ∀ seg ∈ segments, seg.2.pLoc = .mmf ∧ seg.2.pageReadBytes ≤ pgSize

/-- A process as `load` begins: nothing is mapped. -/
def loading (segments : List (Nat × Page)) : Proc :=
  { alive := true
    pagedir := fun _ => none
    spt := fun u => (segments.find? fun seg => seg.1 = u).map Prod.snd
    hung := false }

/-- `load`, and `process_exit` if it fails. -/
def start (s : State) (pid : Nat) (segments : List (Nat × Page)) (valid : Bool)
    (stack : Option Nat) (pageTable : Bool) : Except Frames.Stop State :=
  let born := { s with procs := update s.procs pid (some (loading segments)) }
  match if valid then stack else none with
  | none => processExit born pid
  | some addr =>
    -- `setup_stack`
    let s := { born with
      frames := { born.frames with freePages := born.frames.freePages.erase addr }
      ram := update born.ram addr fun _ => 0 }
    match installPage (loading segments).pagedir stackUpage addr true pageTable with
    | some pd => .ok (s.setPagedir pid pd)
    | none => do
      let t ← pallocFreePage s.frames addr
      processExit { s with frames := t } pid

/-- A store of a user program. -/
def store (s : State) (p : Proc) (va byte : Nat) : State :=
  match pagedirGetPage p.pagedir (pgRoundDown va) with
  | none => s
  | some addr =>
    { s with ram := update s.ram addr (update (s.ram addr) (pgOfs va) byte) }

def Possible (s : State) : Act → Prop
  | .start pid segments _ stack _ =>
    (s.procs pid).isNone = true ∧ Grants s.frames.freePages stack ∧ FromFile segments
  | .fault pid f c => ∃ p, s.running pid = some p ∧ FaultRaised s p f c
  | .store pid va _ => ∃ p, s.running pid = some p ∧ canStore p va = true
  | .exit pid => ∃ p, s.running pid = some p

def step (s : State) : Act → Except Frames.Stop State
  | .start pid segments valid stack pageTable => start s pid segments valid stack pageTable
  | .fault pid f c =>
    match s.procs pid with
    | none => .ok s
    | some p => pageFault s pid p f c
  | .store pid va byte =>
    match s.procs pid with
    | none => .ok s
    | some p => .ok (store s p va byte)
  | .exit pid => processExit s pid

instance (s : State) (p : Proc) (f : PageFault) (c : FaultChoice) :
    Decidable (FaultRaised s p f c) :=
  have : Decidable (∀ pg, p.spt (pgRoundDown f.faultAddr) = some pg →
      c.bytesRead ≤ pg.pageReadBytes) := inferInstanceAs (Decidable (∀ pg ∈ p.spt _, _))
  decidable_of_iff _ (faultRaised_iff s p f c).symm

instance (segments : List (Nat × Page)) : Decidable (FromFile segments) := by
  unfold FromFile; infer_instance

instance (s : State) : (a : Act) → Decidable (Possible s a)
  | .start .. => inferInstanceAs (Decidable (_ ∧ _ ∧ _))
  | .fault pid .. => inferInstanceAs (Decidable (∃ p ∈ s.running pid, _))
  | .store pid .. => inferInstanceAs (Decidable (∃ p ∈ s.running pid, _))
  | .exit _ => decidable_of_iff _ Option.isSome_iff_exists

/-- **The machine.** -/
def machine : Machine State Act Frames.Stop where
  enabled := Possible
  step := step

instance (s : State) (a : Act) : Decidable (machine.enabled s a) :=
  inferInstanceAs (Decidable (Possible s a))

/-- No process, and `n` pages in the user pool. -/
def State.start (base n : Nat) (ram : Nat → Nat → Nat) : State where
  procs := fun _ => none
  frames := Table.start base n
  ram := ram
  ftLock := none

/-- What the allocators and the disk say when all goes well, and `page` is the free page. -/
def wellChosen (page : Option Nat) : FaultChoice :=
  { page := page, pageAgain := none, frameMemory := true, bucketMemory := true, stale := none,
    wild := none, pageMemory := true, pageTable := true, bytesRead := 4096,
    data := fun ofs => ofs % 256 }

/-- A program of two pages starts, and reads its first page from a file. -/
def firstPage : List Act :=
  [.start 1 [(0x8048000, { pageReadBytes := 4096, writable := false, pLoc := .mmf }),
     (0x8049000, { pageReadBytes := 4096, writable := true, pLoc := .mmf })] true
     (some 0xc0400000) true,
   .fault 1 { faultAddr := 0x8048074, esp := 0xbffffff0, errorCode := 4 }
     (wellChosen (some 0xc0401000))]

/-! ## What there is to see of a state -/

/-- The process has started and not exited. -/
def alive (s : State) (q : Nat) : Bool := ((s.procs q).map Proc.alive).getD false

/-- What the page directory of `q` has at `v`. -/
def mapAt (s : State) (q v : Nat) : Option Nat :=
  (s.procs q).bind fun p => pagedirGetPage p.pagedir v

/-- Where the page of `q` at `u` is, according to its `p_loc`. -/
def loc (s : State) (q u : Nat) : Option PageLocation :=
  (s.procs q).bind fun p => (p.spt u).map Page.pLoc

/-- The user page `v` of `q` is mapped to the frame `a`. -/
def Maps (s : State) (q v a : Nat) : Prop :=
  v % pgSize = 0 ∧ v < physBase ∧ mapAt s q v = some a

/-- The processes are alive, and their pages mapped, as before. -/
structure Same (s s' : State) : Prop where
  alive : ∀ q, alive s' q = alive s q
  mapAt : ∀ q v, v % pgSize = 0 → mapAt s' q v = mapAt s q v

variable {s' : State}

namespace Same

theorem refl (s : State) : Same s s := ⟨fun _ => rfl, fun _ _ _ => rfl⟩

theorem trans {s s'' : State} (h : Same s s') (h' : Same s' s'') : Same s s'' :=
  ⟨fun q => (h'.alive q).trans (h.alive q), fun q v hv => (h'.mapAt q v hv).trans (h.mapAt q v hv)⟩

end Same

/-- Pages are mapped as before, and no process has ended; there may be a new one. -/
structure Grown (s s' : State) : Prop where
  alive : ∀ q, Paging.alive s q = true → Paging.alive s' q = true
  mapAt : ∀ q v, v % pgSize = 0 → Paging.mapAt s' q v = Paging.mapAt s q v

variable {a v q : Nat}

theorem Grown.maps {s : State} (h : Grown s s') : Maps s' q v a ↔ Maps s q v a := by
  constructor
  · rintro ⟨hv, hu, ha⟩
    exact ⟨hv, hu, h.mapAt q v hv ▸ ha⟩
  · rintro ⟨hv, hu, ha⟩
    exact ⟨hv, hu, (h.mapAt q v hv).trans ha⟩

theorem Same.grown {s : State} (h : Same s s') : Grown s s' :=
  ⟨fun q ha => (h.alive q).trans ha, h.mapAt⟩

theorem Same.maps {s : State} (h : Same s s') : Maps s' q v a ↔ Maps s q v a :=
  h.grown.maps

section Modify

variable {s : State} {pid : Nat} {g : Proc → Proc}

theorem procs_modify (s : State) (pid : Nat) (g : Proc → Proc) (q : Nat) :
    (s.modify pid g).procs q = if q = pid then (s.procs pid).map g else s.procs q := by
  by_cases hq : q = pid
  · rw [if_pos hq, hq]
    exact update_self ..
  · rw [if_neg hq]
    exact update_of_ne hq ..

theorem alive_modify (hg : ∀ p, (g p).alive = p.alive) (q : Nat) :
    alive (s.modify pid g) q = alive s q := by
  unfold alive
  rw [procs_modify]
  split
  · rename_i hq
    rw [hq]
    cases s.procs pid with
    | none => rfl
    | some p => exact hg p
  · rfl

theorem mapAt_modify (hg : ∀ p, s.procs pid = some p →
      pagedirGetPage (g p).pagedir v = pagedirGetPage p.pagedir v) (q : Nat) :
    mapAt (s.modify pid g) q v = mapAt s q v := by
  unfold mapAt
  rw [procs_modify]
  split
  · rename_i hq
    rw [hq]
    cases hp : s.procs pid with
    | none => rfl
    | some p => exact hg p hp
  · rfl

theorem loc_modify (hg : ∀ p, (g p).spt = p.spt) (q u : Nat) :
    loc (s.modify pid g) q u = loc s q u := by
  unfold loc
  rw [procs_modify]
  split
  · rename_i hq
    rw [hq]
    cases s.procs pid with
    | none => rfl
    | some p =>
      show ((g p).spt u).map Page.pLoc = (p.spt u).map Page.pLoc
      rw [hg]
  · rfl

theorem same_modify (ha : ∀ p, (g p).alive = p.alive) (hd : ∀ p, (g p).pagedir = p.pagedir) :
    Same s (s.modify pid g) :=
  ⟨alive_modify ha, fun q v _ => mapAt_modify (fun p _ => by rw [hd]) q⟩

theorem same_setLoc (s : State) (pid u : Nat) (l : PageLocation) : Same s (s.setLoc pid u l) :=
  same_modify (fun _ => rfl) (fun _ => rfl)

theorem same_hang (s : State) (pid : Nat) (lock : Bool) : Same s (s.hang pid lock) := by
  have h : Same s (s.modify pid ({ · with hung := true })) :=
    same_modify (fun _ => rfl) (fun _ => rfl)
  exact ⟨h.alive, h.mapAt⟩

theorem loc_hang (s : State) (pid : Nat) (lock : Bool) (q u : Nat) :
    loc (s.hang pid lock) q u = loc s q u := by
  apply loc_modify
  intro p
  rfl

theorem loc_setLoc (s : State) (pid u : Nat) (l : PageLocation) (q w : Nat) :
    loc (s.setLoc pid u l) q w =
      if q = pid ∧ w = u then (loc s q w).map (fun _ => l) else loc s q w := by
  unfold loc State.setLoc
  rw [procs_modify]
  by_cases hq : q = pid
  · rw [if_pos hq, hq]
    cases s.procs pid with
    | none => simp
    | some p =>
      by_cases hw : w = u
      · rw [if_pos ⟨rfl, hw⟩, hw]
        cases hpu : p.spt u with
        | none => simp [hpu]
        | some => simp [hpu]
      · rw [if_neg (fun h => hw h.2)]
        simp [update_of_ne hw]
  · rw [if_neg hq, if_neg (fun h => hq h.1)]

theorem isSome_loc_setLoc (s : State) (pid u : Nat) (l : PageLocation) (q w : Nat) :
    (loc (s.setLoc pid u l) q w).isSome = (loc s q w).isSome := by
  rw [loc_setLoc]
  split
  · exact Option.isSome_map ..
  · rfl

/-- A page that is installed is the only change of the mapping. -/
theorem mapAt_setPagedir {p : Proc} {u : Nat} {w : Bool} {pt pd} (hp : s.procs pid = some p)
    (hu : u % pgSize = 0) (hset : pagedirSetPage p.pagedir u a w pt = some pd) (q : Nat)
    (hv : v % pgSize = 0) :
    mapAt (s.setPagedir pid pd) q v = if q = pid ∧ v = u then some a else mapAt s q v := by
  unfold mapAt State.setPagedir
  rw [procs_modify, hp]
  by_cases hq : q = pid
  · rw [if_pos hq, hq, hp]
    show pagedirGetPage pd v = _
    rw [getPage_set hu hset hv]
    simp
  · rw [if_neg hq, if_neg fun h => hq h.1]

theorem alive_setPagedir (s : State) (pid : Nat) (pd : PageDir) (q : Nat) :
    alive (s.setPagedir pid pd) q = alive s q := by
  apply alive_modify
  intro p
  rfl

theorem loc_setPagedir (s : State) (pid : Nat) (pd : PageDir) (q u : Nat) :
    loc (s.setPagedir pid pd) q u = loc s q u := by
  apply loc_modify
  intro p
  rfl

theorem loc_clearPage (s : State) (pid upage : Nat) (q u : Nat) :
    loc (s.clearPage pid upage) q u = loc s q u := by
  apply loc_modify
  intro p
  rfl

end Modify

/-! ## Destroying a page directory -/

variable {pd : PageDir} {i j : Nat} {pt : Nat → Pte}

/-- The entry `j` of the table `i` is that of the page with the number `i * 1024 + j`. -/
theorem getPage_slot (hpt : pd i = some pt)
    (hj : j < 1024) : pagedirGetPage pd ((i * 1024 + j) * pgSize) =
      if (pt j).present then some (pt j).page else none := by
  have h1 : pdNo ((i * 1024 + j) * pgSize) = i := by
    simp only [pdNo, pgSize]
    omega
  have h2 : ptNo ((i * 1024 + j) * pgSize) = j := by
    simp only [ptNo, pgSize]
    omega
  have h3 : pgOfs ((i * 1024 + j) * pgSize) = 0 := Nat.mul_mod_left ..
  simp only [pagedirGetPage, lookupPage, h1, hpt, h2, h3, add_zero]

theorem slot_lt (hi : i < 768) (hj : j < 1024) : (i * 1024 + j) * pgSize < physBase := by
  simp only [pgSize, physBase]
  omega

theorem mem_tablePages :
    a ∈ tablePages pt ↔ ∃ j < 1024, (if (pt j).present then some (pt j).page else none) = some a := by
  simp only [tablePages, List.mem_filterMap, List.mem_range]

theorem mem_mappedPages :
    a ∈ mappedPages pd ↔ ∃ v, v % pgSize = 0 ∧ v < physBase ∧ pagedirGetPage pd v = some a := by
  unfold mappedPages
  simp only [List.mem_flatMap, List.mem_range]
  constructor
  · rintro ⟨i, hi, ha⟩
    cases hpt : pd i with
    | none =>
      rw [hpt] at ha
      cases ha
    | some =>
      rw [hpt] at ha
      obtain ⟨j, hj, hja⟩ := mem_tablePages.mp ha
      refine ⟨(i * 1024 + j) * pgSize, Nat.mul_mod_left .., slot_lt hi hj, ?_⟩
      rwa [getPage_slot hpt hj]
  · rintro ⟨v, hv, hu, ha⟩
    have h3 : pgOfs v = 0 := hv
    have hi : pdNo v < 768 := by
      simp only [physBase] at hu
      simp only [pdNo, pgSize]
      omega
    have hj : ptNo v < 1024 := Nat.mod_lt _ (by decide)
    refine ⟨pdNo v, hi, ?_⟩
    cases hpt : pd (pdNo v) with
    | none =>
      simp only [pagedirGetPage, lookupPage, hpt] at ha
      cases ha
    | some =>
      simp only [pagedirGetPage, lookupPage, hpt, h3, add_zero] at ha
      exact mem_tablePages.mpr ⟨ptNo v, hj, ha⟩

/-- If no two pages are mapped to one frame, no frame is come to twice. -/
theorem nodup_mappedPages
    (hinj : ∀ u v a, u % pgSize = 0 → u < physBase → v % pgSize = 0 → v < physBase →
      pagedirGetPage pd u = some a → pagedirGetPage pd v = some a → u = v) :
    (mappedPages pd).Nodup := by
  have slots : ∀ i < 768, ∀ j < 1024, ∀ i' < 768, ∀ j' < 1024, ∀ pt pt' a,
      pd i = some pt → pd i' = some pt' →
      (if (pt j).present then some (pt j).page else none) = some a →
      (if (pt' j').present then some (pt' j').page else none) = some a →
      i * 1024 + j = i' * 1024 + j' := by
    intro i hi j hj i' hi' j' hj' pt pt' a hpt hpt' ha ha'
    have h := hinj _ _ a (Nat.mul_mod_left ..) (slot_lt hi hj) (Nat.mul_mod_left ..)
      (slot_lt hi' hj') ((getPage_slot hpt hj).trans ha) ((getPage_slot hpt' hj').trans ha')
    exact Nat.eq_of_mul_eq_mul_right (by decide) h
  refine List.nodup_flatMap.mpr ⟨fun i hi => ?_, ?_⟩
  · cases hpt : pd i with
    | none => exact List.nodup_nil
    | some pt =>
      refine List.pairwise_filterMap.mpr (List.Pairwise.imp_of_mem ?_ List.nodup_range)
      intro j j' hj hj' hne a ha a' ha' haa
      have h := slots i (List.mem_range.mp hi) j (List.mem_range.mp hj) i (List.mem_range.mp hi)
        j' (List.mem_range.mp hj') pt pt a hpt hpt ha (haa ▸ ha')
      exact hne (add_left_cancel h)
  · refine List.Pairwise.imp_of_mem ?_ List.nodup_range
    intro i i' hi hi' hne a ha ha'
    cases hpt : pd i with
    | none =>
      simp only [hpt] at ha
      cases ha
    | some pt =>
      cases hpt' : pd i' with
      | none =>
        simp only [hpt'] at ha'
        cases ha'
      | some pt' =>
        simp only [hpt] at ha
        simp only [hpt'] at ha'
        obtain ⟨j, hj, hja⟩ := mem_tablePages.mp ha
        obtain ⟨j', hj', hja'⟩ := mem_tablePages.mp ha'
        have h := slots i (List.mem_range.mp hi) j hj i' (List.mem_range.mp hi') j' hj'
          pt pt' a hpt hpt' hja hja'
        exact hne (by omega)

/-- Freeing a list of pages, one at a time: all of them must be in use. -/
theorem foldlM_free {pages : List Nat} {t t' : Table} :
    pages.foldlM pallocFreePage t = .ok t' ↔
      pages.Nodup ∧ (∀ a ∈ pages, a ∉ t.freePages) ∧
        t' = { t with freePages := pages.reverse ++ t.freePages } := by
  induction pages generalizing t with
  | nil =>
    constructor
    · intro h
      cases h
      exact ⟨List.nodup_nil, fun a ha => absurd ha List.not_mem_nil, rfl⟩
    · rintro ⟨-, -, rfl⟩
      rfl
  | cons a pages ih =>
    rw [List.foldlM_cons, bind_eq_ok]
    constructor
    · rintro ⟨t1, h1, h⟩
      unfold pallocFreePage at h1
      split at h1
      · cases h1
      rename_i hfree
      cases h1
      obtain ⟨hn, hd, rfl⟩ := ih.mp h
      refine ⟨List.nodup_cons.mpr ⟨fun ha => hd a ha List.mem_cons_self, hn⟩, ?_, ?_⟩
      · intro b hb
        rcases List.mem_cons.mp hb with rfl | hb
        · exact hfree
        · exact fun h => hd b hb (List.mem_cons_of_mem _ h)
      · simp
    · rintro ⟨hn, hd, rfl⟩
      obtain ⟨ha, hn⟩ := List.nodup_cons.mp hn
      refine ⟨{ t with freePages := a :: t.freePages }, ?_, ih.mpr ⟨hn, fun b hb hm => ?_, ?_⟩⟩
      · rw [pallocFreePage, if_neg (hd a List.mem_cons_self)]
      · rcases List.mem_cons.mp hm with rfl | hm
        · exact ha hb
        · exact hd b (List.mem_cons_of_mem _ hb) hm
      · simp

end Pintos.Vm.Paging
