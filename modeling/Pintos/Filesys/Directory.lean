/-
  The root directory (`filesys/directory.c`).

  1. **Entries** are records of 20 bytes in the directory's file: the sector of the inode, the name
     with its NUL, and a flag.  They are kept here as the bytes they are; `entrySector`, `entryName`
     and `entryInUse` read them.

  2. **Searches** read entry after entry until a read comes back short: at the end of the file, or
     where there was no memory for the bounce buffer.

  3. `dir_add` keeps what its local entry holds from the search behind the name that it copies, and
     writes wherever the search has stopped, EVEN IF that entry is in use.

  A `struct dir` is known by the address of its inode; nothing else of it is used.
-/
import Mathlib.Order.Basic
import Pintos.Filesys.FreeMap

namespace Pintos.Filesys

open Base Lib

/-- Which allocations of a call succeed, and what its stack holds. -/
structure Memory where
  /-- The root directory: its `struct inode` and `struct dir`. -/
  rootInode : Bool
  dir : Bool
  /-- A new file: its `struct inode_disk`, and the writes of the free map. -/
  diskInode : Bool
  mapSector : Bool
  mapExtent : Bool
  mapUndo : Bool
  /-- The reads of the searches, and the write of an entry. -/
  lookup : Nat → Bool
  slot : Nat → Bool
  entry : Bool
  stack : Nat → Byte
  /-- An opened file: its `struct inode` and `struct file`. -/
  inode : Bool
  file : Bool
  /-- The writes of the free map when an inode is closed. -/
  mapInode : Bool
  mapData : Bool

/-! ## Entries -/

/-- `sizeof (struct dir_entry)`. -/
def entrySize : Nat := 20

def nameMax : Nat := 14

/-- A C string, without its NUL. -/
structure Name where
  chars : List Byte
  nonzero : 0 ∉ chars
  deriving DecidableEq

/-- `e.inode_sector`. -/
def entrySector (e : Nat → Byte) : Nat := le32 e 0

/-- `e.name`, up to its NUL. -/
def entryName (e : Nat → Byte) : List Byte :=
  ((List.range (nameMax + 1)).map fun k => e (4 + k)).takeWhile (· != 0)

/-- `e.in_use`. -/
def entryInUse (e : Nat → Byte) : Bool := e 19 != 0

/-- The entry that `dir_add` makes of `e`. -/
def entryFor (e : Nat → Byte) (name : Name) (sector : Nat) (k : Nat) : Byte :=
  if k < 4 then le32Byte sector k
  else if k < 4 + name.chars.length then name.chars.getD (k - 4) 0
  else if k = 4 + name.chars.length then 0
  else if k = 19 then 1
  else e k

/-- The entry that `dir_remove` makes of `e`. -/
def entryFreed (e : Nat → Byte) (k : Nat) : Byte := if k = 19 then 0 else e k

/-- Reading the entry `k` into `e`: whether it was read, and `e` after that. -/
def readEntry (fs : Fs) (dir : Nat) (e : Nat → Byte) (k : Nat) (bounce : Bool) :
    Except Stop (Bool × (Nat → Byte)) := do
  let i ← fs.inode dir
  let r ← inodeReadAt fs.dev i.data e entrySize (entrySize * k : Nat) bounce
  .ok (r.1 == entrySize, r.2)

/-- Writing `e` as the entry `k`. -/
def writeEntry (fs : Fs) (dir : Nat) (e : Nat → Byte) (k : Nat) (bounce : Bool) :
    Except Stop (Bool × Fs) := do
  let i ← fs.inode dir
  let r ← inodeWriteAt fs.dev i.data i.denyWriteCnt e entrySize (entrySize * k : Nat) bounce
  .ok (r.1 == entrySize, { fs with dev := r.2 })

/-! ## Opening and closing -/

def dirOpenRoot (fs : Fs) (m : Memory) : Except Stop (Option Nat × Fs) := do
  let r ← inodeOpen fs rootDirSector m.rootInode
  match r.1 with
  | none => .ok (none, r.2)
  | some id =>
    if m.dir then .ok (some id, r.2)
    else do
      let fs ← inodeClose r.2 id m.mapInode m.mapData
      .ok (none, fs)

def dirClose (fs : Fs) (dir : Nat) (m : Memory) : Except Stop Fs :=
  inodeClose fs dir m.mapInode m.mapData

/-! ## Searches -/

/-- The loop of `lookup`, from the entry `k` on. -/
def lookupLoop (fs : Fs) (dir : Nat) (name : Name) (bounce : Nat → Bool) :
    Nat → Nat → (Nat → Byte) → Except Stop (Option (Nat × (Nat → Byte)))
  | 0, _, _ => .ok none
  | n + 1, k, e => do
    let r ← readEntry fs dir e k (bounce k)
    if r.1 then
      if entryInUse r.2 ∧ entryName r.2 = name.chars then .ok (some (k, r.2))
      else lookupLoop fs dir name bounce n (k + 1) r.2
    else .ok none

/-- `lookup`: the number of the entry, and its bytes. -/
def lookup (fs : Fs) (dir : Nat) (name : Name) (bounce : Nat → Bool) :
    Except Stop (Option (Nat × (Nat → Byte))) := do
  let i ← fs.inode dir
  lookupLoop fs dir name bounce (i.data.length.toNat / entrySize + 1) 0 fun _ => 0

/-- The search of `dir_add` for a free entry, from the entry `k` on. -/
def slotLoop (fs : Fs) (dir : Nat) (bounce : Nat → Bool) :
    Nat → Nat → (Nat → Byte) → Except Stop (Nat × (Nat → Byte))
  | 0, k, e => .ok (k, e)
  | n + 1, k, e => do
    let r ← readEntry fs dir e k (bounce k)
    if r.1 ∧ entryInUse r.2 then slotLoop fs dir bounce n (k + 1) r.2 else .ok (k, r.2)

/-- Where `dir_add` writes, and what its entry holds then. -/
def findSlot (fs : Fs) (dir : Nat) (bounce : Nat → Bool) (stack : Nat → Byte) :
    Except Stop (Nat × (Nat → Byte)) := do
  let i ← fs.inode dir
  slotLoop fs dir bounce (i.data.length.toNat / entrySize + 1) 0 stack

/-! ## The functions of the directory -/

/-- `dir_lookup`: the inode of the file. -/
def dirLookup (fs : Fs) (dir : Nat) (name : Name) (m : Memory) : Except Stop (Option Nat × Fs) := do
  match ← lookup fs dir name m.lookup with
  | some r => inodeOpen fs (entrySector r.2) m.inode
  | none => .ok (none, fs)

def dirAdd (fs : Fs) (dir : Nat) (name : Name) (sector : Nat) (m : Memory) :
    Except Stop (Bool × Fs) :=
  if name.chars = [] ∨ nameMax < name.chars.length then .ok (false, fs)
  else do
    match ← lookup fs dir name m.lookup with
    | some _ => .ok (false, fs)
    | none => do
      let r ← findSlot fs dir m.slot m.stack
      writeEntry fs dir (entryFor r.2 name sector) r.1 m.entry

/-- The end of `dir_remove`, with the inode of the file open. -/
def eraseEntry (fs : Fs) (dir k : Nat) (e : Nat → Byte) (id : Nat) (m : Memory) :
    Except Stop (Bool × Fs) := do
  let w ← writeEntry fs dir (entryFreed e) k m.entry
  let fs ← if w.1 then inodeRemove w.2 id else .ok w.2
  let fs ← inodeClose fs id m.mapInode m.mapData
  .ok (w.1, fs)

def dirRemove (fs : Fs) (dir : Nat) (name : Name) (m : Memory) : Except Stop (Bool × Fs) := do
  match ← lookup fs dir name m.lookup with
  | none => .ok (false, fs)
  | some (k, e) => do
    let r ← inodeOpen fs (entrySector e) m.inode
    match r.1 with
    | none => .ok (false, r.2)
    | some id => eraseEntry r.2 dir k e id m

end Pintos.Filesys
