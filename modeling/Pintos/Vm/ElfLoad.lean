/-
  Loading an executable, and bringing its pages in on demand (`load` and its helpers in
  `userprog/process.c`, `spt_load_page`, `spt_get` and `spt_get_frame` in `vm/page.c`).

  Where `Pintos.Vm.Page` follows a page fault without the CONTENTS of the page, here every byte counts.

  1. **Headers** — `load` reads the ELF header and, one by one, the program headers; a `PT_LOAD` header
     that passes `validate_segment` becomes a row of page records.

  2. **Page records** (`loadSegment`) — a record says which bytes of the file its page begins with; the
     rest of the page is zero.  The records are in a hash table, by the address of the page.

  3. **Demand** (`sptGetFrame`) — a page is read into a frame when it is first touched.

  4. **The stack** — `load` also installs the highest user page, and does not ask whether a segment has
     a record for that page.

  What the allocators say is an argument, `LoadMemory` for a load and `FrameMemory` for a fault.
-/
import Pintos.Base.LittleEndian
import Pintos.Filesys.Inode
import Pintos.Lib.Hash
import Pintos.Vm.Page

namespace Pintos.Vm.Elf

open Base Lib Filesys Userprog Function

/-! ## The executable -/

/-- A file, with all its bytes; its length is an `off_t`. -/
structure Executable where
  dev : Device
  inode : InodeDisk
  onDevice : OnDevice dev inode
  length_lt : inode.length < 2147483648

namespace Executable

def byte (x : Executable) (pos : Nat) : Byte := fileByte x.dev x.inode pos

end Executable

/-- A half word of an ELF header. -/
def le16 (f : Nat → Byte) (a : Nat) : Nat := (f a).toNat + 256 * (f (a + 1)).toNat

def u32 (n : Nat) : Nat := n % 4294967296

/-- `struct Elf32_Phdr`, without `p_paddr` and `p_align`, which nobody reads. -/
structure Phdr where
  type : Nat
  offset : Nat
  vaddr : Nat
  filesz : Nat
  memsz : Nat
  flags : Nat
  deriving DecidableEq

/-- The program header in a buffer. -/
def Phdr.decode (buf : Nat → Byte) : Phdr where
  type := le32 buf 0
  offset := le32 buf 4
  vaddr := le32 buf 8
  filesz := le32 buf 16
  memsz := le32 buf 20
  flags := le32 buf 24

/-- `sizeof (struct Elf32_Ehdr)`. -/
def ehdrSize : Nat := 52

/-- `sizeof (struct Elf32_Phdr)`. -/
def phdrSize : Nat := 32

/-- `e_phoff`, as the `off_t` that it is assigned to. -/
def ePhoff (ehdr : Nat → Byte) : Int := signed32 (le32 ehdr 28)

def ePhnum (ehdr : Nat → Byte) : Nat := le16 ehdr 44

/-- What `load` asks of the ELF header. -/
def validEhdr (ehdr : Nat → Byte) : Bool :=
  (List.range 7).map ehdr == [0x7f, 0x45, 0x4c, 0x46, 1, 1, 1] && le16 ehdr 16 == 2 &&
    le16 ehdr 18 == 3 && le32 ehdr 20 == 1 && le16 ehdr 42 == phdrSize && ePhnum ehdr ≤ 1024

def Phdr.writable (ph : Phdr) : Bool := ph.flags / 2 % 2 = 1

/-- `validate_segment`, in a file of this length. -/
def validateSegment (ph : Phdr) (length : Int) : Bool :=
  pgOfs ph.offset == pgOfs ph.vaddr && !(u32 length.toNat < ph.offset) &&
    !(ph.memsz < ph.filesz) && ph.memsz != 0 && isUserVaddr ph.vaddr &&
    isUserVaddr (u32 (ph.vaddr + ph.memsz)) && !(u32 (ph.vaddr + ph.memsz) < ph.vaddr) &&
    !(ph.vaddr < pgSize)

/-! ## Page records -/

structure PageRecord where
  /-- The file, by its inode; `sp_create` does not assign it. -/
  file : Option InodeDisk
  fileOffset : Int
  upage : Nat
  pageReadBytes : Nat
  pageZeroBytes : Nat
  writable : Bool
  pLoc : PageLocation
  deriving DecidableEq

/-- `spt_hash` and `spt_less`. -/
def sptFns : HashFns PageRecord where
  hash e := Hash.hashInt e.upage
  less a b := a.upage < b.upage

/-- Which allocations of a load succeed, and where things are. -/
structure LoadMemory where
  pagedir : Bool
  /-- `filesys_open` returned the file. -/
  opened : Bool
  /-- The bounce buffer of `inode_read_at`. -/
  bounce : Bool
  /-- The record of a page, and the buckets of a `rehash`. -/
  record : Nat → Bool
  rehash : Nat → Bool
  /-- The frame and the page table of the stack, and the record that `sp_create` makes. -/
  stackFrame : Option Nat
  stackTable : Bool
  stackRecord : Bool
  /-- The address of the interrupt frame's `esp`, which `load` passes to `sp_create`. -/
  espAddr : Nat

/-- `spt_load_page`: what it returns, and the table. -/
def sptLoadPage (x : Executable) (m : LoadMemory) (spt : Hash PageRecord) (ofs : Int)
    (writable : Bool) (upage pageReadBytes pageZeroBytes : Nat) : Bool × Hash PageRecord :=
  if m.record upage then
    let r := spt.hashInsert sptFns (m.rehash upage)
      { file := some x.inode, fileOffset := ofs, upage, pageReadBytes, pageZeroBytes, writable,
        pLoc := .mmf }
    (r.1.isNone, r.2)
  else (false, spt)

/-- The loop of `load_segment`, for at most `n` turns.  The bytes to read and the bytes to zero make
    whole pages, so neither difference is below zero. -/
def segmentLoop (x : Executable) (m : LoadMemory) (writable : Bool) :
    Nat → Int → Nat → Nat → Nat → Hash PageRecord → Option (Hash PageRecord)
  | 0, _, _, _, _, spt => some spt
  | n + 1, ofs, upage, readBytes, zeroBytes, spt =>
    if 0 < readBytes ∨ 0 < zeroBytes then
      let pageReadBytes := if readBytes < pgSize then readBytes else pgSize
      let pageZeroBytes := pgSize - pageReadBytes
      let r := sptLoadPage x m spt ofs writable upage pageReadBytes pageZeroBytes
      if r.1 then
        segmentLoop x m writable n (wrap32 (ofs + pageReadBytes)) (upage + pgSize)
          (readBytes - pageReadBytes) (zeroBytes - pageZeroBytes) r.2
      else none
    else some spt

/-- `load_segment`; nothing if it returns false. -/
def loadSegment (x : Executable) (m : LoadMemory) (spt : Hash PageRecord) (ofs : Int)
    (upage readBytes zeroBytes : Nat) (writable : Bool) :
    Except Filesys.Stop (Option (Hash PageRecord)) :=
  if u32 (readBytes + zeroBytes) % pgSize = 0 ∧ pgOfs upage = 0 ∧ ofs % pgSize = 0 ∧ 0 ≤ ofs then
    .ok (segmentLoop x m writable ((readBytes + zeroBytes) / pgSize) ofs upage readBytes zeroBytes
      spt)
  else .error .assertion

/-! ## `load` -/

def roundUp (n : Nat) : Nat := u32 (u32 (n + pgSize - 1) / pgSize * pgSize)

/-- The bytes that `load` has read from the file for a segment, from the start of its first page. -/
def Phdr.readBytes (ph : Phdr) : Nat := if 0 < ph.filesz then u32 (pgOfs ph.vaddr + ph.filesz) else 0

/-- And those that it has zeroed. -/
def Phdr.zeroBytes (ph : Phdr) : Nat :=
  if 0 < ph.filesz then
    u32 (roundUp (u32 (pgOfs ph.vaddr + ph.memsz)) + 4294967296 - ph.readBytes)
  else roundUp (u32 (pgOfs ph.vaddr + ph.memsz))

/-- The case `PT_LOAD`. -/
def loadPhdr (x : Executable) (m : LoadMemory) (spt : Hash PageRecord) (ph : Phdr) :
    Except Filesys.Stop (Option (Hash PageRecord)) :=
  if validateSegment ph x.inode.length then
    loadSegment x m spt (pgRoundDown ph.offset) (pgRoundDown ph.vaddr) ph.readBytes ph.zeroBytes
      ph.writable
  else .ok none

/-- Reading the program header at `ofs`. -/
def readPhdr (x : Executable) (m : LoadMemory) (ofs : Int) : Except Filesys.Stop (Option Phdr) :=
  if ofs < 0 ∨ x.inode.length < ofs then .ok none
  else do
    let r ← inodeReadAt x.dev x.inode (fun _ => 0) phdrSize ofs m.bounce
    .ok (if r.1 = phdrSize then some (Phdr.decode r.2) else none)

/-- What `load` does about a header: `PT_LOAD` is loaded; `PT_DYNAMIC`, `PT_INTERP` and `PT_SHLIB` are
    refused; all others are ignored. -/
def onPhdr (x : Executable) (m : LoadMemory) (spt : Hash PageRecord) (ph : Phdr) :
    Except Filesys.Stop (Option (Hash PageRecord)) :=
  if ph.type = 1 then loadPhdr x m spt ph
  else if ph.type = 2 ∨ ph.type = 3 ∨ ph.type = 5 then .ok none
  else .ok (some spt)

/-- The loop of `load` over the program headers, with `n` of them left. -/
def phdrLoop (x : Executable) (m : LoadMemory) :
    Nat → Int → Hash PageRecord → Except Filesys.Stop (Option (Hash PageRecord))
  | 0, _, spt => .ok (some spt)
  | n + 1, ofs, spt => do
    match ← readPhdr x m ofs with
    | none => .ok none
    | some ph =>
      match ← onPhdr x m spt ph with
      | none => .ok none
      | some spt => phdrLoop x m n (ofs + phdrSize) spt

/-- The memory of a process: its page records, its page directory, the contents of the frames and
    `lru_queue`. -/
structure Image where
  spt : Hash PageRecord
  pagedir : PageDir
  ram : Nat → Nat → Byte
  lruQueue : List Frame

/-- The page of the stack. -/
def stackUpage : Nat := physBase - pgSize

/-- `setup_stack`: the page directory, and the frame, which is zeroed. -/
def setupStack (m : LoadMemory) (ram : Nat → Nat → Byte) :
    Option (PageDir × (Nat → Nat → Byte)) :=
  match m.stackFrame with
  | none => none
  | some kpage =>
    (installPage (fun _ => none) stackUpage kpage true m.stackTable).map fun pd =>
      (pd, update ram kpage fun _ => 0)

/-- `sp_create (esp, 0, true, 0, 0)`; the caller drops what it returns. -/
def stackRecord (m : LoadMemory) (spt : Hash PageRecord) : Hash PageRecord :=
  if m.stackRecord then
    (spt.hashInsert sptFns (m.rehash m.espAddr)
      { file := none, fileOffset := 0, upage := m.espAddr, pageReadBytes := 0, pageZeroBytes := 0,
        writable := true, pLoc := .mem }).2
  else spt

/-- The end of `load`, with all headers read. -/
def finishLoad (m : LoadMemory) (ram : Nat → Nat → Byte) (queue : List Frame)
    (spt : Hash PageRecord) : Option Image :=
  (setupStack m ram).map fun r =>
    { spt := stackRecord m spt, pagedir := r.1, ram := r.2, lruQueue := queue }

/-- `load`, in a new thread; nothing if it returns false. -/
def load (x : Executable) (m : LoadMemory) (ram : Nat → Nat → Byte) (queue : List Frame) :
    Except Filesys.Stop (Option Image) :=
  if m.pagedir && m.opened then do
    let r ← inodeReadAt x.dev x.inode (fun _ => 0) ehdrSize 0 m.bounce
    if r.1 = ehdrSize ∧ validEhdr r.2 then do
      match ← phdrLoop x m (ePhnum r.2) (ePhoff r.2) Hash.init with
      | none => .ok none
      | some spt => .ok (finishLoad m ram queue spt)
    else .ok none
  else .ok none

/-! ## Demand -/

/-- Which allocations of a page fault succeed. -/
structure FrameMemory where
  /-- `palloc_get_page (PAL_USER)`, and the `struct frame`. -/
  frame : Option Nat
  frameRecord : Bool
  /-- The bounce buffer of `inode_read_at`. -/
  bounce : Bool
  pageTable : Bool
  /-- What `hash_find` comes up with in `ft_get`. -/
  staleFrame : Option Frame

/-- `spt_get`; only the `upage` of its local record is assigned. -/
def sptGet (img : Image) (addr : Nat) : Option PageRecord := img.spt.hashFind sptFns
    { file := none, fileOffset := 0, upage := pgRoundDown addr, pageReadBytes := 0,
      pageZeroBytes := 0, writable := false, pLoc := .mmf }

/-- `pg->p_loc = MEM`, in the record of the page. -/
def markLoaded (upage : Nat) (spt : Hash PageRecord) : Hash PageRecord :=
  { spt with buckets := spt.buckets.map fun b => b.map fun r =>
      if r.upage = upage then { r with pLoc := .mem } else r }

def ftAdd (c : FrameMemory) (img : Image) (upage : Nat) : Except Halt (Nat × Image) :=
  match c.frame with
  | some addr =>
    if c.frameRecord then
      .ok (addr, { img with lruQueue := img.lruQueue ++ [{ addr := addr, upage := upage }] })
    else .error .panic
  | none => .error (if img.lruQueue = [] then .panic else acquireSwapLock)

/-- `ft_remove` and `pagedir_clear_page`, when a page cannot be brought in. -/
def giveBack (c : FrameMemory) (img : Image) (upage : Nat) : Except Halt Image :=
  match c.staleFrame with
  | some frame =>
    .ok { img with lruQueue := img.lruQueue.erase frame
                   pagedir := pagedirClearPage img.pagedir upage }
  | none => .error .kernelFault

/-- The end of `spt_get_frame`, at its `install_page`. -/
def installLoaded (c : FrameMemory) (img : Image) (pg : PageRecord) (addr : Nat) :
    Except Halt (Bool × Image) :=
  match installPage img.pagedir pg.upage addr pg.writable c.pageTable with
  | some pd => .ok (true, { img with pagedir := pd, spt := markLoaded pg.upage img.spt })
  | none => do
    let img ← giveBack c img pg.upage
    .ok (false, { img with spt := markLoaded pg.upage img.spt })

/-- The case `MMF` of `spt_get_frame`: `file_read_at`, and `memset` behind what was read. -/
def readPage (x : Executable) (c : FrameMemory) (img : Image) (pg : PageRecord) (addr : Nat) :
    Except Halt (Bool × Image) :=
  match pg.file with
  | none => .error .kernelFault
  | some inode =>
    match inodeReadAt x.dev inode (img.ram addr) pg.pageReadBytes pg.fileOffset c.bounce with
    | .error _ => .error .panic
    | .ok (bRead, buf) =>
      if pgSize < bRead then .error .overrun
      else if bRead = pg.pageReadBytes then
        let filled := splice buf bRead (pgSize - bRead) fun _ => 0
        installLoaded c { img with ram := update img.ram addr filled } pg addr
      else do
        let img ← giveBack c { img with ram := update img.ram addr buf } pg.upage
        .ok (false, img)

def sptGetFrame (x : Executable) (c : FrameMemory) (img : Image) (pg : PageRecord) :
    Except Halt (Bool × Image) := do
  let r ← ftAdd c img pg.upage
  match pg.pLoc with
  | .mmf => readPage x c r.2 pg r.1
  | .mem => installLoaded c r.2 pg r.1
  | .swap => .error acquireSwapLock

/-! ## What it is for -/

namespace Executable

/-- The program header `i` of the file. -/
def phdr (x : Executable) (i : Nat) : Phdr :=
  Phdr.decode fun k => x.byte ((ePhoff x.byte).toNat + phdrSize * i + k)

/-- The `PT_LOAD` headers of the file. -/
def segments (x : Executable) : List Phdr :=
  ((List.range (ePhnum x.byte)).map x.phdr).filter fun ph => ph.type = 1

/-- **The image**: the byte that a segment has at the address `a`. -/
def imageByte (x : Executable) (ph : Phdr) (a : Nat) : Byte :=
  if a - ph.vaddr < ph.filesz then x.byte (ph.offset + (a - ph.vaddr)) else 0

end Executable

/-- What a process sees at an address: the byte, and whether it may be written. -/
def Image.seen (img : Image) (a : Nat) : Option (Byte × Bool) :=
  match lookupPage img.pagedir a with
  | none => none
  | some pte => if pte.present then some (img.ram pte.page (pgOfs a), pte.writable) else none

theorem Image.seen_of_present {img : Image} {a : Nat} {pte : Pte}
    (h : lookupPage img.pagedir a = some pte) (hp : pte.present = true) :
    img.seen a = some (img.ram pte.page (pgOfs a), pte.writable) := by
  rw [Image.seen, h]
  exact if_pos hp

/-- There is a frame, and memory for what goes with it. -/
def FrameMemory.Available (c : FrameMemory) : Prop :=
  c.frame ≠ none ∧ c.frameRecord = true ∧ c.bounce = true ∧ c.pageTable = true

/-- The file has what the records of its pages ask for. -/
def FullReads (x : Executable) (img : Image) : Prop :=
  ∀ pg ∈ img.spt.elems, pg.pLoc = .mmf → ∀ buf, ∃ buf',
    inodeReadAt x.dev x.inode buf pg.pageReadBytes pg.fileOffset true = .ok (pg.pageReadBytes, buf')

/-- **A byte on demand**: the page of `a` is found, and when it has been brought in, the byte at `a` is
    that of the segment, and it is writable if the segment is. -/
def OnDemand (x : Executable) (img : Image) (ph : Phdr) (a : Nat) : Prop :=
  ∃ pg, sptGet img a = some pg ∧ pg.upage = pgRoundDown a ∧
    ∀ c : FrameMemory, c.Available → ∃ img', sptGetFrame x c img pg = .ok (true, img') ∧
      img'.seen a = some (x.imageByte ph a, ph.writable)

end Pintos.Vm.Elf
