/-
  The file system (`filesys/filesys.c`, `filesys/file.c`).

  1. **Calls** — `filesys_create`, `filesys_open`, `filesys_remove`, and the functions of open files.
     `filesys_create` is the chain of four steps that the source has, and after a failure its one
     clean-up statement.

  2. **Mounting** — `filesys_init`, with or without `do_format`.

  3. **The system** is a machine whose state has, besides the file system, the open files: the
     handles that the callers hold.  Its actions are the calls, in any order.

  Writes never grow a file, and the length of a file is an `off_t`.
-/
import Mathlib.Order.Basic
import Pintos.Base.Machine
import Pintos.Filesys.Directory

namespace Pintos.Filesys

open Base Lib

/-! ## Files -/

def fileOpen (fs : Fs) (inode : Option Nat) (alloc mapInode mapData : Bool) :
    Except Stop (Option File × Fs) :=
  match inode with
  | none => .ok (none, fs)
  | some id =>
    if alloc then .ok (some ⟨fs.nextId, id, 0, false⟩, { fs with nextId := fs.nextId + 1 })
    else do
      let fs ← inodeClose fs id mapInode mapData
      .ok (none, fs)

def fileReopen (fs : Fs) (file : File) (m : Memory) : Except Stop (Option File × Fs) := do
  let fs ← inodeReopen fs file.inode
  fileOpen fs (some file.inode) m.file m.mapInode m.mapData

def fileAllowWrite (fs : Fs) (file : File) : Except Stop Fs :=
  if file.denyWrite then inodeAllowWrite fs file.inode else .ok fs

def fileClose (fs : Fs) (file : File) (mapInode mapData : Bool) : Except Stop Fs := do
  let fs ← fileAllowWrite fs file
  inodeClose fs file.inode mapInode mapData

/-- `file_write`: the file with its new position. -/
def fileWrite (fs : Fs) (file : File) (buffer : Nat → Byte) (size : Int) (bounce : Bool) :
    Except Stop (File × Fs) := do
  let i ← fs.inode file.inode
  let r ← inodeWriteAt fs.dev i.data i.denyWriteCnt buffer size file.pos bounce
  .ok ({ file with pos := file.pos + r.1 }, { fs with dev := r.2 })

/-- `file_read`: the number of bytes and the buffer, and the file with its new position. -/
def fileRead (fs : Fs) (file : File) (buffer : Nat → Byte) (size : Int) (bounce : Bool) :
    Except Stop ((Nat × (Nat → Byte)) × File) := do
  let i ← fs.inode file.inode
  let r ← inodeReadAt fs.dev i.data buffer size file.pos bounce
  .ok (r, { file with pos := file.pos + r.1 })

def fileLength (fs : Fs) (file : File) : Except Stop Int := do
  let i ← fs.inode file.inode
  .ok i.data.length

/-! ## Calls by name -/

/-- The chain of `filesys_create` behind `dir_open_root`: whether it succeeded, and `inode_sector`,
    which is 0 if none was allocated. -/
def createSteps (fs : Fs) (dir : Nat) (name : Name) (initialSize : Int) (m : Memory) :
    Except Stop ((Bool × Nat) × Fs) := do
  let a ← freeMapAllocate fs 1 m.mapSector
  match a.1 with
  | none => .ok ((false, 0), a.2)
  | some sector => do
    let c ← inodeCreate a.2 sector initialSize m.diskInode m.mapExtent
    if c.1 then do
      let d ← dirAdd c.2 dir name sector m
      .ok ((d.1, sector), d.2)
    else .ok ((false, sector), c.2)

/-- The clean-up of `filesys_create`. -/
def createUndo (fs : Fs) (success : Bool) (sector : Nat) (m : Memory) : Except Stop Fs :=
  if success = false ∧ sector ≠ 0 then freeMapRelease fs sector 1 m.mapUndo else .ok fs

def filesysCreate (fs : Fs) (name : Name) (initialSize : Int) (m : Memory) :
    Except Stop (Bool × Fs) := do
  let r ← dirOpenRoot fs m
  match r.1 with
  | none => .ok (false, r.2)
  | some dir => do
    let c ← createSteps r.2 dir name initialSize m
    let fs ← createUndo c.2 c.1.1 c.1.2 m
    let fs ← dirClose fs dir m
    .ok (c.1.1, fs)

def filesysOpen (fs : Fs) (name : Name) (m : Memory) : Except Stop (Option File × Fs) := do
  let r ← dirOpenRoot fs m
  match r.1 with
  | none => .ok (none, r.2)
  | some dir => do
    let l ← dirLookup r.2 dir name m
    let fs ← dirClose l.2 dir m
    fileOpen fs l.1 m.file m.mapInode m.mapData

def filesysRemove (fs : Fs) (name : Name) (m : Memory) : Except Stop (Bool × Fs) := do
  let r ← dirOpenRoot fs m
  match r.1 with
  | none => .ok (false, r.2)
  | some dir => do
    let d ← dirRemove r.2 dir name m
    let fs ← dirClose d.2 dir m
    .ok (d.1, fs)

def Memory.ready : Memory where
  rootInode := true
  dir := true
  diskInode := true
  mapSector := true
  mapExtent := true
  mapUndo := true
  lookup _ := true
  slot _ := true
  entry := true
  stack _ := 0
  inode := true
  file := true
  mapInode := true
  mapData := true

/-! ## Mounting -/

/-- Which allocations succeed while the file system is mounted, and what the memory of the free map
    holds at first. -/
structure BootMemory where
  /-- `free_map_init`. -/
  bitmap : Bool
  words : Nat → BitVec 32
  /-- `free_map_create`. -/
  mapDisk : Bool
  mapInode : Bool
  mapFile : Bool
  mapWrite : Bool
  /-- `dir_create`. -/
  rootDisk : Bool
  rootWrite : Bool
  /-- `free_map_open`. -/
  openInode : Bool
  openFile : Bool
  openRead : Bool

/-- All allocations succeed; the memory of the free map is zero. -/
def BootMemory.ready : BootMemory where
  bitmap := true
  words _ := 0
  mapDisk := true
  mapInode := true
  mapFile := true
  mapWrite := true
  rootDisk := true
  rootWrite := true
  openInode := true
  openFile := true
  openRead := true

def freeMapInit (dev : Device) (m : BootMemory) : Except Stop Fs :=
  if m.bitmap then do
    let b ← asserted (Bitmap.create dev.size m.words)
    .ok ⟨dev, (b.mark freeMapSector).mark rootDirSector, none, [], 0⟩
  else .error .panic

/-- `free_map_file = file_open (inode_open (FREE_MAP_SECTOR))`, and the check behind it. -/
def openMapFile (fs : Fs) (inode file : Bool) : Except Stop (File × Fs) := do
  let i ← inodeOpen fs freeMapSector inode
  let f ← fileOpen i.2 i.1 file true true
  match f.1 with
  | none => .error .panic
  | some file => .ok (file, { f.2 with freeMapFile := some file })

def freeMapCreate (fs : Fs) (m : BootMemory) : Except Stop Fs := do
  let c ← inodeCreate fs freeMapSector (byteCnt fs.freeMap.bitCnt) m.mapDisk true
  if c.1 then do
    let f ← openMapFile c.2 m.mapInode m.mapFile
    let w ← bitmapWrite f.2 f.2.freeMap f.1 m.mapWrite
    if w.1 then .ok w.2 else .error .panic
  else .error .panic

def freeMapOpen (fs : Fs) (m : BootMemory) : Except Stop Fs := do
  let f ← openMapFile fs m.openInode m.openFile
  let r ← bitmapRead f.2 f.1 m.openRead
  if r.1 then .ok r.2 else .error .panic

/-- `free_map_close`, which leaves the pointer as it is. -/
def freeMapClose (fs : Fs) : Except Stop Fs :=
  match fs.freeMapFile with
  | none => .ok fs
  | some file => fileClose fs file true true

/-- The number of entries of the root directory. -/
def rootEntries : Nat := 16

def doFormat (fs : Fs) (m : BootMemory) : Except Stop Fs := do
  let fs ← freeMapCreate fs m
  let d ← inodeCreate fs rootDirSector (rootEntries * entrySize : Nat) m.rootDisk m.rootWrite
  if d.1 then freeMapClose d.2 else .error .panic

def filesysInit (dev : Device) (format : Bool) (m : BootMemory) : Except Stop Fs := do
  let fs ← freeMapInit dev m
  let fs ← if format then doFormat fs m else .ok fs
  freeMapOpen fs m

/-! ## The system -/

structure Sys where
  fs : Fs
  files : List File

inductive Call where
  | filesysCreate (name : Name) (initialSize : Int) (m : Memory)
  | filesysOpen (name : Name) (m : Memory)
  | filesysRemove (name : Name) (m : Memory)
  | fileReopen (file : File) (m : Memory)
  | fileWrite (file : File) (buffer : Nat → Byte) (size : Int) (bounce : Bool)
  | fileClose (file : File) (m : Memory)

/-- Files are open, and sizes are sizes: not negative, and an `off_t`. -/
def Call.Ok (s : Sys) : Call → Prop
  | .filesysCreate _ size _ => 0 ≤ size ∧ size < 2147483648
  | .filesysOpen _ _ => True
  | .filesysRemove _ _ => True
  | .fileReopen file _ => file ∈ s.files
  | .fileWrite file _ _ _ => file ∈ s.files
  | .fileClose file _ => file ∈ s.files

instance (s : Sys) (c : Call) : Decidable (c.Ok s) := by
  cases c <;> unfold Call.Ok <;> infer_instance

def Sys.step (s : Sys) : Call → Except Stop Sys
  | .filesysCreate name size m => do
    let r ← filesysCreate s.fs name size m
    .ok ⟨r.2, s.files⟩
  | .filesysOpen name m => do
    let r ← filesysOpen s.fs name m
    .ok ⟨r.2, r.1.toList ++ s.files⟩
  | .filesysRemove name m => do
    let r ← filesysRemove s.fs name m
    .ok ⟨r.2, s.files⟩
  | .fileReopen file m => do
    let r ← fileReopen s.fs file m
    .ok ⟨r.2, r.1.toList ++ s.files⟩
  | .fileWrite file buffer size bounce => do
    let r ← fileWrite s.fs file buffer size bounce
    .ok ⟨r.2, s.files.map fun f => if f = file then r.1 else f⟩
  | .fileClose file m => do
    let fs ← fileClose s.fs file m.mapInode m.mapData
    .ok ⟨fs, s.files.erase file⟩

def machine : Machine Sys Call Stop where
  enabled s c := c.Ok s
  step := Sys.step

end Pintos.Filesys
