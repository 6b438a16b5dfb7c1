/-
  The free map and the open inodes (`filesys/free-map.c`, `filesys/inode.c`).

  1. **The state** — the device, the free map in memory, the file it is kept in, and the list of open
     inodes.  An inode or a file is known by its ADDRESS, a number that is never given out twice.

  2. **On the disk** — an inode is a sector with two words in it (`InodeDisk.encode`); the free map is
     a file, so every allocation and release writes it through the inode layer that it describes.

  3. **Memory** — a function takes a `Bool` for each allocation it makes.  NULL is `Option`; `PANIC`, a
     failed assertion and a dangling pointer end the computation (`Stop`).
-/
import Mathlib.Order.Basic
import Pintos.Base.LittleEndian
import Pintos.Filesys.Inode

namespace Pintos.Filesys

open Base Lib

/-! ## Records on the disk -/

def freeMapSector : Nat := 0

def rootDirSector : Nat := 1

def inodeMagic : Nat := 0x494e4f44

/-- The sector of a `struct inode_disk`; `calloc` zeroes what is not used. -/
def InodeDisk.encode (i : InodeDisk) (k : Nat) : Byte :=
  if k < 4 then le32Byte i.start k
  else if k < 8 then le32Byte (i.length % 4294967296).toNat (k - 4)
  else if k < 12 then le32Byte inodeMagic (k - 8)
  else 0

/-- The `struct inode_disk` of a sector. -/
def InodeDisk.decode (sector : Nat → Byte) : InodeDisk := ⟨le32 sector 0, signed32 (le32 sector 4)⟩

/-! ## The state -/

/-- `struct file`; `id` is its address, and `inode` that of its inode. -/
structure File where
  id : Nat
  inode : Nat
  pos : Int
  denyWrite : Bool
  deriving DecidableEq

/-- What the modules of the file system keep. -/
structure Fs where
  /-- `fs_device`. -/
  dev : Device
  freeMap : Bitmap
  freeMapFile : Option File
  openInodes : List Inode
  /-- No address from here on has been given out. -/
  nextId : Nat

/-- The assertions of a bitmap function. -/
def asserted {α : Type} : Option α → Except Stop α
  | some a => .ok a
  | none => .error .assertion

namespace Fs

def inode (fs : Fs) (id : Nat) : Except Stop Inode :=
  match fs.openInodes.find? fun i => i.id = id with
  | some i => .ok i
  | none => .error .dangling

/-- The inode at the address of `i` becomes `i`. -/
def update (fs : Fs) (i : Inode) : Fs :=
  { fs with openInodes := fs.openInodes.map fun j => if j.id = i.id then i else j }

def drop (fs : Fs) (id : Nat) : Fs :=
  { fs with openInodes := fs.openInodes.filter fun j => j.id ≠ id }

end Fs

/-! ## Opening inodes -/

def inodeOpen (fs : Fs) (sector : Nat) (alloc : Bool) : Except Stop (Option Nat × Fs) :=
  match fs.openInodes.find? fun i => i.sector = sector with
  | some i => .ok (some i.id, fs.update { i with openCnt := i.openCnt + 1 })
  | none =>
    if alloc then do
      let bytes ← fs.dev.blockRead sector
      let i : Inode := ⟨fs.nextId, sector, 1, false, 0, InodeDisk.decode bytes⟩
      .ok (some i.id, { fs with openInodes := i :: fs.openInodes, nextId := fs.nextId + 1 })
    else .ok (none, fs)

def inodeReopen (fs : Fs) (id : Nat) : Except Stop Fs := do
  let i ← fs.inode id
  .ok (fs.update { i with openCnt := i.openCnt + 1 })

def inodeRemove (fs : Fs) (id : Nat) : Except Stop Fs := do
  let i ← fs.inode id
  .ok (fs.update { i with removed := true })

def inodeAllowWrite (fs : Fs) (id : Nat) : Except Stop Fs := do
  let i ← fs.inode id
  if 0 < i.denyWriteCnt ∧ i.denyWriteCnt ≤ i.openCnt then
    .ok (fs.update { i with denyWriteCnt := i.denyWriteCnt - 1 })
  else .error .assertion

/-! ## The free map -/

def bitmapWrite (fs : Fs) (b : Bitmap) (file : File) (bounce : Bool) : Except Stop (Bool × Fs) := do
  let i ← fs.inode file.inode
  let r ← inodeWriteAt fs.dev i.data i.denyWriteCnt b.bytes (byteCnt b.bitCnt) 0 bounce
  .ok (r.1 == byteCnt b.bitCnt, { fs with dev := r.2 })

/-- `bitmap_read`, into the free map. -/
def bitmapRead (fs : Fs) (file : File) (bounce : Bool) : Except Stop (Bool × Fs) :=
  let b := fs.freeMap
  if 0 < b.bitCnt then do
    let i ← fs.inode file.inode
    let r ← inodeReadAt fs.dev i.data b.bytes (byteCnt b.bitCnt) 0 bounce
    .ok (r.1 == byteCnt b.bitCnt, { fs with freeMap := (b.load r.2).maskLast })
  else .ok (true, fs)

/-- `free_map_allocate`: the first of `cnt` sectors, or none. -/
def freeMapAllocate (fs : Fs) (cnt : Nat) (bounce : Bool) : Except Stop (Option Nat × Fs) := do
  let r ← asserted (fs.freeMap.scanAndFlip 0 cnt false)
  match r.1, fs.freeMapFile with
  | none, _ => .ok (none, fs)
  | some sector, none => .ok (some sector, { fs with freeMap := r.2 })
  | some sector, some file => do
    let w ← bitmapWrite { fs with freeMap := r.2 } r.2 file bounce
    if w.1 then .ok (some sector, w.2)
    else do
      let b ← asserted (r.2.setMultiple sector cnt false)
      .ok (none, { w.2 with freeMap := b })

def freeMapRelease (fs : Fs) (sector cnt : Nat) (bounce : Bool) : Except Stop Fs := do
  let all ← asserted (fs.freeMap.all sector cnt)
  if all then do
    let b ← asserted (fs.freeMap.setMultiple sector cnt false)
    match fs.freeMapFile with
    | none => .error .dangling
    | some file => do
      let w ← bitmapWrite { fs with freeMap := b } b file bounce
      .ok w.2
  else .error .assertion

/-! ## Closing and creating inodes -/

/-- `inode_close`; the two `Bool`s are for the writes of the free map. -/
def inodeClose (fs : Fs) (id : Nat) (mapInode mapData : Bool) : Except Stop Fs := do
  let i ← fs.inode id
  if i.openCnt = 1 then
    let fs := fs.drop id
    if i.removed then do
      let fs ← freeMapRelease fs i.sector 1 mapInode
      freeMapRelease fs i.data.start (bytesToSectors i.data.length) mapData
    else .ok fs
  else .ok (fs.update { i with openCnt := i.openCnt - 1 })

/-- The loop of `inode_create` that writes zeros. -/
def zeroSectors (d : Device) (start : Nat) : Nat → Except Stop Device
  | 0 => .ok d
  | n + 1 => do
    let d ← d.blockWrite start fun _ => 0
    zeroSectors d (start + 1) n

def inodeCreate (fs : Fs) (sector : Nat) (length : Int) (diskInode bounce : Bool) :
    Except Stop (Bool × Fs) :=
  if length < 0 then .error .assertion
  else if diskInode then do
    let r ← freeMapAllocate fs (bytesToSectors length) bounce
    match r.1 with
    | none => .ok (false, r.2)
    | some start => do
      let d ← r.2.dev.blockWrite sector (InodeDisk.encode ⟨start, length⟩)
      let d ← zeroSectors d start (bytesToSectors length)
      .ok (true, { r.2 with dev := d })
  else .ok (false, fs)

end Pintos.Filesys
