/-
  Moving files to and from the scratch device (`filesys/fsutil.c`).

  1. **`fsutil_append`** writes a header, the file's data in whole sectors, and the end-of-archive
     marker.  The marker is to be two sectors of zeros; the code writes ONE sector twice, the second
     time from one byte further on in memory, so its last byte comes from BEHIND the buffer.

  2. **`fsutil_extract`** reads headers until one is all zeros, makes the files, and then erases the
     first two sectors.

  Each of the two has a static variable `sector` of its own.
-/
import Pintos.Filesys.Filesys
import Pintos.Lib.Ustar

namespace Pintos.Filesys

open Base Lib

/-- The file system, the scratch device, and the two static variables. -/
structure Fsutil where
  fs : Fs
  scratch : Device
  /-- `sector` of `fsutil_extract`. -/
  extractSector : Nat
  /-- `sector` of `fsutil_append`. -/
  appendSector : Nat

/-- Which allocations of an action succeed, and what is behind its buffer. -/
structure FsutilMemory where
  /-- The buffers. -/
  buffer : Bool
  /-- The byte of the heap behind the 512 bytes of the buffer. -/
  behind : Byte
  /-- `filesys_create` and `filesys_open`, for the file whose header is in a sector. -/
  create : Nat → Memory
  opening : Nat → Memory
  /-- The bounce buffer, for the transfer from or to a sector. -/
  bounce : Nat → Bool

/-- `chunk_size`. -/
def copyChunk (size : Int) : Int := if size > sectorSize then sectorSize else size

/-! ## Appending -/

/-- `ustar_make_header` of a regular file, and the check behind it. -/
def makeHeader (fileName : Name) (size : Int) : Except Stop (Nat → Byte) :=
  match ustarMakeHeader fileName.chars .regular size with
  | .ok (some header) => .ok header
  | .ok none => .error .panic
  | .error .assertion => .error .assertion

/-- The copy loop of `fsutil_append`, for at most `n` turns. -/
def appendLoop (fs : Fs) (bounce : Nat → Bool) :
    Nat → (dst : Device) → (sector : Nat) → (src : File) → (buffer : Nat → Byte) → (size : Int) →
    Except Stop (Device × Nat × File)
  | 0, dst, sector, src, _, _ => .ok (dst, sector, src)
  | n + 1, dst, sector, src, buffer, size =>
    let chunk := copyChunk size
    if size > 0 then
      if sector ≥ dst.size then .error .panic
      else do
        let r ← fileRead fs src buffer chunk (bounce sector)
        if (r.1.1 : Int) ≠ chunk then .error .panic
        else do
          let buffer := splice r.1.2 chunk.toNat (sectorSize - chunk.toNat) fun _ => 0
          let dst ← dst.blockWrite sector buffer
          appendLoop fs bounce n dst (sector + 1) r.2 buffer (size - chunk)
    else .ok (dst, sector, src)

/-- The end-of-archive marker, from `buffer` and then from `buffer + 1`. -/
def writeMarker (dst : Device) (sector : Nat) (behind : Byte) : Except Stop Device := do
  let memory : Nat → Byte := fun k => if k < sectorSize then 0 else behind
  let dst ← dst.blockWrite sector memory
  dst.blockWrite sector fun k => memory (1 + k)

def fsutilAppend (a : Fsutil) (fileName : Name) (m : FsutilMemory) : Except Stop Fsutil :=
  if m.buffer then do
    let mem := m.opening a.appendSector
    let o ← filesysOpen a.fs fileName mem
    match o.1 with
    | none => .error .panic
    | some src => do
      let size ← fileLength o.2 src
      let header ← makeHeader fileName size
      let dst ← a.scratch.blockWrite a.appendSector header
      let c ← appendLoop o.2 m.bounce size.toNat dst (a.appendSector + 1) src header size
      let dst ← writeMarker c.1 c.2.1 m.behind
      let fs ← fileClose o.2 c.2.2 mem.mapInode mem.mapData
      .ok ⟨fs, dst, a.extractSector, c.2.1⟩
  else .error .panic

def fsutilAppends (a : Fsutil) (calls : List (Name × FsutilMemory)) : Except Stop Fsutil :=
  calls.foldlM (fun a c => fsutilAppend a c.1 c.2) a

/-! ## Extracting -/

/-- The string at a pointer, up to its NUL. -/
def Name.ofChars (chars : List Byte) : Name := ⟨cString chars, zero_not_mem_cString chars⟩

/-- The copy loop of `fsutil_extract`, for at most `n` turns.  What `file_write` returns is how far
    it has moved the position. -/
def extractLoop (src : Device) (bounce : Nat → Bool) :
    Nat → (fs : Fs) → (sector : Nat) → (dst : File) → (size : Int) → Except Stop (Fs × Nat × File)
  | 0, fs, sector, dst, _ => .ok (fs, sector, dst)
  | n + 1, fs, sector, dst, size =>
    let chunk := copyChunk size
    if size > 0 then do
      let data ← src.blockRead sector
      let w ← fileWrite fs dst data chunk (bounce sector)
      if w.1.pos - dst.pos ≠ chunk then .error .panic
      else extractLoop src bounce n w.2 (sector + 1) w.1 (size - chunk)
    else .ok (fs, sector, dst)

/-- A message of `ustar_parse_header` is a panic. -/
def checkHeader : Except String UstarEntry → Except Stop UstarEntry
  | .error _ => .error .panic
  | .ok e => .ok e

def readHeader (src : Device) (sector : Nat) : Except Stop UstarEntry := do
  let header ← src.blockRead sector
  checkHeader (ustarParseHeader header)

/-- A regular file, with its data from `sector` on. -/
def extractFile (fs : Fs) (src : Device) (sector : Nat) (fileName : Name) (size : Int)
    (m : FsutilMemory) : Except Stop (Fs × Nat) := do
  let c ← filesysCreate fs fileName size (m.create sector)
  if c.1 then do
    let mem := m.opening sector
    let o ← filesysOpen c.2 fileName mem
    match o.1 with
    | none => .error .panic
    | some dst => do
      let w ← extractLoop src m.bounce size.toNat o.2 sector dst size
      let fs ← fileClose w.1 w.2.2 mem.mapInode mem.mapData
      .ok (fs, w.2.1)
  else .error .panic

/-- The loop over the headers, for at most `n` turns.  Each turn reads a sector, and one past the end
    of the device is a panic. -/
def extractEntries (src : Device) (m : FsutilMemory) : Nat → Fs → Nat → Except Stop (Fs × Nat)
  | 0, _, _ => .error .panic
  | n + 1, fs, sector => do
    let e ← readHeader src sector
    match e.type with
    | .eof => .ok (fs, sector + 1)
    | .directory => extractEntries src m n fs (sector + 1)
    | .regular => do
      let r ← extractFile fs src (sector + 1) (Name.ofChars (e.fileName.getD [])) e.size m
      extractEntries src m n r.1 r.2

def fsutilExtract (a : Fsutil) (m : FsutilMemory) : Except Stop Fsutil :=
  if m.buffer then do
    let r ← extractEntries a.scratch m (a.scratch.size + 1) a.fs a.extractSector
    let src ← a.scratch.blockWrite 0 fun _ => 0
    let src ← src.blockWrite 1 fun _ => 0
    .ok ⟨r.1, src, r.2, a.appendSector⟩
  else .error .panic

end Pintos.Filesys
