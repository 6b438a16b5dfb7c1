/-
  Inodes and the bytes of files (`filesys/inode.c`, `devices/block.c`).

  1. **The device** is an array of bytes, read and written by whole sectors; a sector past its end is a
     panic.

  2. **Extents** — a file is one contiguous extent: its byte `i` is the byte `512 start + i` of the
     device.  That is the abstract view: `splice` at that address.

  3. **Transfers** go by chunks that end at a sector or at the end of the file.  A full sector is
     transferred directly, a part of one through a bounce buffer; `writeChunk_eq` is the reason that
     the two agree.

  The loops recurse on a number of iterations, for which the size is enough.  `off_t` is `Int`; none
  of its sums overflows, since they stay between the offset and the length.
-/
import Mathlib.Order.Basic
import Pintos.Base.Splice
import Pintos.Base.Stops
import Pintos.Lib.Bitmap

namespace Pintos.Filesys

open Base Lib

abbrev Byte := BitVec 8

/-- `BLOCK_SECTOR_SIZE`. -/
def sectorSize : Nat := 512

inductive Stop where
  /-- `PANIC`. -/
  | panic
  /-- A failed assertion. -/
  | assertion
  /-- A pointer to a record that is not there. -/
  | dangling
  deriving DecidableEq

/-! ## The device -/

structure Device where
  /-- The number of sectors. -/
  size : Nat
  bytes : Nat → Byte

namespace Device

def blockRead (d : Device) (sector : Nat) : Except Stop (Nat → Byte) :=
  if sector < d.size then .ok fun k => d.bytes (sectorSize * sector + k) else .error .panic

/-- The device with the bytes `[a, a + n)` taken from the buffer. -/
def put (d : Device) (a n : Nat) (buffer : Nat → Byte) : Device :=
  { d with bytes := splice d.bytes a n buffer }

def blockWrite (d : Device) (sector : Nat) (buffer : Nat → Byte) : Except Stop Device :=
  if sector < d.size then .ok (d.put (sectorSize * sector) sectorSize buffer) else .error .panic

end Device

/-! ## Inodes -/

/-- `struct inode_disk`, without the magic number, which nobody reads. -/
structure InodeDisk where
  start : Nat
  length : Int
  deriving DecidableEq

/-- `struct inode`; `id` is its address. -/
structure Inode where
  id : Nat
  sector : Nat
  openCnt : Nat
  removed : Bool
  denyWriteCnt : Nat
  data : InodeDisk
  deriving DecidableEq

/-- The 32-bit two's complement value of an integer. -/
def wrap32 (x : Int) : Int := (x + 2147483648) % 4294967296 - 2147483648

/-- `bytes_to_sectors`: the sum is an `int`, the quotient becomes a `size_t`. -/
def bytesToSectors (size : Int) : Nat :=
  ((wrap32 (size + sectorSize - 1)).tdiv sectorSize % 4294967296).toNat

def byteToSector (i : InodeDisk) (pos : Int) : Nat :=
  if pos < i.length then i.start + (pos / sectorSize).toNat else 4294967295

/-- `chunk_size`, in `inode_read_at` and `inode_write_at`. -/
def chunkSize (length size offset : Int) : Int :=
  let sectorOfs := offset % sectorSize
  let inodeLeft := length - offset
  let sectorLeft := sectorSize - sectorOfs
  let minLeft := if inodeLeft < sectorLeft then inodeLeft else sectorLeft
  if size < minLeft then size else minLeft

/-- The loop of `inode_read_at`, with `n` iterations left; `alloc` says whether there is memory for
    the bounce buffer, if it is needed. -/
def readLoop (d : Device) (i : InodeDisk) (alloc : Bool) :
    Nat → (buffer : Nat → Byte) → (size offset : Int) → (bytesRead : Nat) →
    Except Stop (Nat × (Nat → Byte))
  | 0, buffer, _, _, bytesRead => .ok (bytesRead, buffer)
  | n + 1, buffer, size, offset, bytesRead =>
    let sectorOfs := (offset % sectorSize).toNat
    let chunk := chunkSize i.length size offset
    if size ≤ 0 ∨ chunk ≤ 0 then .ok (bytesRead, buffer)
    else if sectorOfs = 0 ∧ chunk = sectorSize then do
      let sector ← d.blockRead (byteToSector i offset)
      readLoop d i alloc n (splice buffer bytesRead sectorSize sector) (size - chunk)
        (offset + chunk) (bytesRead + chunk.toNat)
    else if alloc then do
      let bounce ← d.blockRead (byteToSector i offset)
      readLoop d i alloc n
        (splice buffer bytesRead chunk.toNat fun k => bounce (sectorOfs + k)) (size - chunk)
        (offset + chunk) (bytesRead + chunk.toNat)
    else .ok (bytesRead, buffer)

/-- `inode_read_at`: the number of bytes read, and the buffer. -/
def inodeReadAt (d : Device) (i : InodeDisk) (buffer : Nat → Byte) (size offset : Int)
    (alloc : Bool) : Except Stop (Nat × (Nat → Byte)) :=
  readLoop d i alloc size.toNat buffer size offset 0

/-- What goes into the bounce buffer first: the sector, or zeros if the chunk fills it. -/
def bounceFor (d : Device) (i : InodeDisk) (offset chunk : Int) : Except Stop (Nat → Byte) :=
  if offset % sectorSize > 0 ∨ chunk < sectorSize - offset % sectorSize then
    d.blockRead (byteToSector i offset)
  else .ok fun _ => 0

/-- One chunk of `inode_write_at`, directly or through the bounce buffer. -/
def writeChunk (d : Device) (i : InodeDisk) (buffer : Nat → Byte) (offset chunk : Int) :
    Except Stop Device :=
  let sectorOfs := (offset % sectorSize).toNat
  if sectorOfs = 0 ∧ chunk = sectorSize then d.blockWrite (byteToSector i offset) buffer
  else do
    let bounce ← bounceFor d i offset chunk
    d.blockWrite (byteToSector i offset) (splice bounce sectorOfs chunk.toNat buffer)

def writeLoop (i : InodeDisk) (alloc : Bool) (buffer : Nat → Byte) :
    Nat → Device → (size offset : Int) → (bytesWritten : Nat) → Except Stop (Nat × Device)
  | 0, d, _, _, bytesWritten => .ok (bytesWritten, d)
  | n + 1, d, size, offset, bytesWritten =>
    let chunk := chunkSize i.length size offset
    if size ≤ 0 ∨ chunk ≤ 0 then .ok (bytesWritten, d)
    else if (offset % sectorSize = 0 ∧ chunk = sectorSize) ∨ alloc then do
      let d ← writeChunk d i (fun k => buffer (bytesWritten + k)) offset chunk
      writeLoop i alloc buffer n d (size - chunk) (offset + chunk) (bytesWritten + chunk.toNat)
    else .ok (bytesWritten, d)

/-- `inode_write_at`: the number of bytes written, and the device. -/
def inodeWriteAt (d : Device) (i : InodeDisk) (denyWriteCnt : Nat) (buffer : Nat → Byte)
    (size offset : Int) (alloc : Bool) : Except Stop (Nat × Device) :=
  if denyWriteCnt ≠ 0 then .ok (0, d)
  else writeLoop i alloc buffer size.toNat d size offset 0

/-! ## Chunks -/

variable {d : Device} {i : InodeDisk} {size offset : Int}

/-- The extent of the file is on the device. -/
def OnDevice (d : Device) (i : InodeDisk) : Prop :=
  0 ≤ i.length ∧ ∀ pos, 0 ≤ pos → pos < i.length → i.start + (pos / sectorSize).toNat < d.size

/-- The bytes that are transferred at an offset. -/
def transferred (i : InodeDisk) (size offset : Int) : Nat := (min size (i.length - offset)).toNat

def byteAt (i : InodeDisk) (offset : Int) : Nat := sectorSize * i.start + offset.toNat

theorem chunkSize_eq (length size offset : Int) :
    chunkSize length size offset =
      min size (min (length - offset) (sectorSize - offset % sectorSize)) := by
  simp only [chunkSize]
  split <;> split <;> omega

theorem transferred_eq_zero
    (h : size ≤ 0 ∨ chunkSize i.length size offset ≤ 0) : transferred i size offset = 0 := by
  rw [chunkSize_eq] at h
  simp only [transferred, sectorSize] at h ⊢
  omega

theorem transferred_step (hc : 0 < chunkSize i.length size offset) :
    transferred i size offset = (chunkSize i.length size offset).toNat +
      transferred i (size - chunkSize i.length size offset)
        (offset + chunkSize i.length size offset) := by
  rw [chunkSize_eq] at hc ⊢
  simp only [transferred, sectorSize] at hc ⊢
  omega

/-- The sector of a chunk is on the device, and begins `offset % 512` bytes before it. -/
theorem sector_of_chunk (hd : OnDevice d i) (ho : 0 ≤ offset)
    (hc : 0 < chunkSize i.length size offset) :
    byteToSector i offset < d.size ∧
    sectorSize * byteToSector i offset + (offset % sectorSize).toNat = byteAt i offset ∧
    (offset % sectorSize).toNat + (chunkSize i.length size offset).toNat ≤ sectorSize := by
  rw [chunkSize_eq] at hc ⊢
  have hlt : offset < i.length := by omega
  have hdev := hd.2 offset ho hlt
  rw [byteToSector, if_pos hlt]
  refine ⟨hdev, ?_, ?_⟩
  · simp only [byteAt, sectorSize]
    omega
  · simp only [sectorSize] at hc ⊢
    omega

/-- **The two ways to write agree**: a chunk changes its own bytes and no others. -/
theorem writeChunk_eq (hd : OnDevice d i) (ho : 0 ≤ offset)
    (hc : 0 < chunkSize i.length size offset) (buffer : Nat → Byte) :
    writeChunk d i buffer offset (chunkSize i.length size offset) =
      .ok (d.put (byteAt i offset) (chunkSize i.length size offset).toNat buffer) := by
  obtain ⟨hlt, haddr, hle⟩ := sector_of_chunk hd ho hc
  generalize chunkSize i.length size offset = chunk at hc hle ⊢
  unfold writeChunk
  by_cases hfull : (offset % sectorSize).toNat = 0 ∧ chunk = sectorSize
  · rw [if_pos hfull, Device.blockWrite, if_pos hlt, ← haddr, hfull.1, hfull.2]
    rfl
  rw [if_neg hfull, ← haddr]
  by_cases hpart : offset % sectorSize > 0 ∨ chunk < sectorSize - offset % sectorSize
  · rw [bounceFor, if_pos hpart, Device.blockRead, if_pos hlt]
    show Device.blockWrite d _ _ = _
    rw [Device.blockWrite, if_pos hlt, Device.put, splice_window _ _ _ _ _ _ hle]
    rfl
  · -- then the chunk is a full sector
    refine absurd ?_ hfull
    omega

/-! ## Transfers -/

/-- How much of `t` bytes at an offset is transferred: all, or without memory for the bounce buffer
    the full sectors before the first part of one. -/
def moved (alloc : Bool) (offset : Int) (t : Nat) : Nat :=
  if alloc then t else if offset % sectorSize = 0 then t / sectorSize * sectorSize else 0

section Transfers

variable {buffer : Nat → Byte}

theorem moved_le (alloc : Bool) (offset : Int) (t : Nat) : moved alloc offset t ≤ t := by
  unfold moved
  split
  · exact Nat.le_refl t
  · split
    · exact Nat.div_mul_le_self t sectorSize
    · exact Nat.zero_le t

theorem moved_zero (alloc : Bool) (offset : Int) : moved alloc offset 0 = 0 :=
  Nat.le_zero.mp (moved_le alloc offset 0)

theorem moved_true (offset : Int) (t : Nat) : moved true offset t = t := rfl

/-- A chunk that is a full sector, or that there is memory for, counts. -/
theorem moved_step {alloc : Bool} {chunk : Int} {t : Nat}
    (h : (offset % sectorSize = 0 ∧ chunk = sectorSize) ∨ alloc = true) :
    moved alloc offset (chunk.toNat + t) = chunk.toNat + moved alloc (offset + chunk) t := by
  unfold moved
  cases alloc with
  | true => rfl
  | false =>
    rcases h with ⟨h0, h1⟩ | h
    · rw [if_neg Bool.false_ne_true, if_pos h0, if_neg Bool.false_ne_true, if_pos]
      · rw [h1]
        simp only [sectorSize]
        omega
      · rw [h1]
        simp only [sectorSize] at h0 ⊢
        omega
    · cases h

/-- A part of a sector that there is no memory for ends the transfer. -/
theorem moved_eq_zero (hc : 0 < chunkSize i.length size offset)
    (h : ¬ (offset % sectorSize = 0 ∧ chunkSize i.length size offset = sectorSize)) :
    moved false offset (transferred i size offset) = 0 := by
  unfold moved
  rw [if_neg Bool.false_ne_true]
  split
  · rename_i h0
    rw [chunkSize_eq] at hc h
    simp only [transferred, sectorSize] at hc h h0 ⊢
    omega
  · rfl

/-- **The loop of `inode_write_at`** splices bytes of the buffer into the extent. -/
theorem writeLoop_eq (alloc : Bool) (buffer : Nat → Byte) : ∀ (n : Nat) {d : Device}
    {size offset : Int} (bytesWritten : Nat), OnDevice d i → 0 ≤ offset → size.toNat ≤ n →
    writeLoop i alloc buffer n d size offset bytesWritten =
      .ok (bytesWritten + moved alloc offset (transferred i size offset),
        d.put (byteAt i offset) (moved alloc offset (transferred i size offset))
          fun k => buffer (bytesWritten + k))
  | 0, d, size, offset, bytesWritten, _, ho, hn => by
    rw [transferred_eq_zero (.inl (by omega)), moved_zero, Device.put, splice_zero]
    rfl
  | n + 1, d, size, offset, bytesWritten, hd, ho, hn => by
    rw [writeLoop]
    by_cases hend : size ≤ 0 ∨ chunkSize i.length size offset ≤ 0
    · rw [if_pos hend, transferred_eq_zero hend, moved_zero, Device.put, splice_zero]
      rfl
    have hc : 0 < chunkSize i.length size offset := by omega
    rw [if_neg hend]
    by_cases hgo : (offset % sectorSize = 0 ∧ chunkSize i.length size offset = sectorSize) ∨
        alloc = true
    · have hchunk := writeChunk_eq hd ho hc fun k => buffer (bytesWritten + k)
      have hstep := transferred_step hc
      rw [if_pos hgo, hchunk]
      generalize chunkSize i.length size offset = chunk at hc hgo hstep ⊢
      -- the rest of the transfer, on the device that the chunk has left
      refine Eq.trans (writeLoop_eq alloc buffer n (bytesWritten + chunk.toNat)
        (show OnDevice (d.put _ _ _) i from hd) (by omega) (by omega)) ?_
      have haddr : byteAt i (offset + chunk) = byteAt i offset + chunk.toNat := by
        simp only [byteAt]
        omega
      rw [hstep, moved_step hgo, haddr]
      generalize moved alloc (offset + chunk) _ = rest
      have happend := splice_append d.bytes (byteAt i offset) chunk.toNat rest
        fun k => buffer (bytesWritten + k)
      simp only [← Nat.add_assoc] at happend
      rw [← Nat.add_assoc, Device.put, Device.put, happend]
      rfl
    · obtain rfl : alloc = false := Bool.eq_false_iff.mpr fun h => hgo (.inr h)
      rw [if_neg hgo, moved_eq_zero hc fun h => hgo (.inl h), Device.put, splice_zero]
      rfl

/-- **The loop of `inode_read_at`** splices bytes of the extent into the buffer. -/
theorem readLoop_eq (alloc : Bool) (hd : OnDevice d i) : ∀ (n : Nat) (buffer : Nat → Byte)
    {size offset : Int} (bytesRead : Nat), 0 ≤ offset → size.toNat ≤ n →
    readLoop d i alloc n buffer size offset bytesRead =
      .ok (bytesRead + moved alloc offset (transferred i size offset),
        splice buffer bytesRead (moved alloc offset (transferred i size offset))
          fun k => d.bytes (byteAt i offset + k))
  | 0, buffer, size, offset, bytesRead, ho, hn => by
    rw [transferred_eq_zero (.inl (by omega)), moved_zero, splice_zero]
    rfl
  | n + 1, buffer, size, offset, bytesRead, ho, hn => by
    rw [readLoop]
    by_cases hend : size ≤ 0 ∨ chunkSize i.length size offset ≤ 0
    · rw [if_pos hend, transferred_eq_zero hend, moved_zero, splice_zero]
      rfl
    have hc : 0 < chunkSize i.length size offset := by omega
    obtain ⟨hlt, haddr, hle⟩ := sector_of_chunk hd ho hc
    have hstep := transferred_step hc
    have hstop := moved_eq_zero hc
    rw [if_neg hend]
    generalize chunkSize i.length size offset = chunk at hc hle hstep hstop ⊢
    have hnext : byteAt i (offset + chunk) = byteAt i offset + chunk.toNat := by
      simp only [byteAt]
      omega
    -- if the chunk is copied, the rest follows
    have hrest : (offset % sectorSize = 0 ∧ chunk = sectorSize) ∨ alloc = true →
        readLoop d i alloc n
          (splice buffer bytesRead chunk.toNat fun k => d.bytes (byteAt i offset + k))
          (size - chunk) (offset + chunk) (bytesRead + chunk.toNat) =
        .ok (bytesRead + moved alloc offset (transferred i size offset), splice buffer bytesRead
          (moved alloc offset (transferred i size offset)) fun k => d.bytes (byteAt i offset + k)) := by
      intro hgo
      rw [readLoop_eq alloc hd n _ _ (by omega) (by omega), hstep, moved_step hgo, hnext]
      generalize moved alloc (offset + chunk) _ = rest
      have happend := splice_append buffer bytesRead chunk.toNat rest
        fun k => d.bytes (byteAt i offset + k)
      simp only [← Nat.add_assoc] at happend ⊢
      rw [happend]
    by_cases hfull : (offset % sectorSize).toNat = 0 ∧ chunk = sectorSize
    · rw [if_pos hfull, Device.blockRead, if_pos hlt]
      refine Eq.trans ?_ (hrest (.inl ⟨?_, hfull.2⟩))
      · rw [← haddr, hfull.1, hfull.2]
        rfl
      · have := hfull.1
        simp only [sectorSize] at this ⊢
        omega
    · cases alloc with
      | true =>
        rw [if_neg hfull, if_pos rfl, Device.blockRead, if_pos hlt]
        refine Eq.trans ?_ (hrest (.inr rfl))
        simp only [← haddr, Nat.add_assoc]
        rfl
      | false =>
        rw [if_neg hfull, if_neg Bool.false_ne_true, hstop, splice_zero]
        · rfl
        · rintro ⟨h0, h1⟩
          refine hfull ⟨?_, h1⟩
          rw [h0]
          rfl

/-- **`inode_write_at`**, with no writes denied. -/
theorem inodeWriteAt_eq (hd : OnDevice d i) (buffer : Nat → Byte) (size : Int)
    (ho : 0 ≤ offset) (alloc : Bool) :
    inodeWriteAt d i 0 buffer size offset alloc =
      .ok (moved alloc offset (transferred i size offset),
        d.put (byteAt i offset) (moved alloc offset (transferred i size offset)) buffer) := by
  have h := writeLoop_eq alloc buffer size.toNat 0 hd ho (Nat.le_refl size.toNat)
  simp only [Nat.zero_add] at h
  exact h

/-- **`inode_read_at`.** -/
theorem inodeReadAt_eq (hd : OnDevice d i) (buffer : Nat → Byte) (size : Int)
    (ho : 0 ≤ offset) (alloc : Bool) :
    inodeReadAt d i buffer size offset alloc = .ok (moved alloc offset (transferred i size offset),
        splice buffer 0 (moved alloc offset (transferred i size offset))
          fun k => d.bytes (byteAt i offset + k)) := by
  have h := readLoop_eq alloc hd size.toNat buffer 0 ho (Nat.le_refl size.toNat)
  rwa [Nat.zero_add] at h

end Transfers

/-! ## Files as arrays -/

def fileByte (d : Device) (i : InodeDisk) (pos : Int) : Byte := d.bytes (byteAt i pos)

/-- The sector holds a byte of the file. -/
def InExtent (i : InodeDisk) (sector : Nat) : Prop :=
  ∃ pos : Int, 0 ≤ pos ∧ pos < i.length ∧ sector = i.start + (pos / sectorSize).toNat

/-- The array after a write of `n` bytes at `offset`. -/
def overwritten (d : Device) (i : InodeDisk) (buffer : Nat → Byte) (offset : Int) (n : Nat)
    (pos : Int) : Byte :=
  if offset ≤ pos ∧ pos < offset + n then buffer (pos - offset).toNat else fileByte d i pos

/-- What a write to a file does: how much is written, what is on the device then, and what every
    read finds. -/
structure WritesArray (d : Device) (i : Inode) (buffer : Nat → Byte) (size offset : Int) (n : Nat)
    (d' : Device) : Prop where
  count : (n : Int) = max 0 (min size (i.data.length - offset))
  size_eq : d'.size = d.size
  /-- Sectors outside the extent are as they were. -/
  outside : ∀ s, ¬ InExtent i.data s → ∀ k < sectorSize,
    d'.bytes (sectorSize * s + k) = d.bytes (sectorSize * s + k)
  /-- So are the bytes outside the range. -/
  others : ∀ a, ¬ (byteAt i.data offset ≤ a ∧ a < byteAt i.data offset + n) → d'.bytes a = d.bytes a
  reads : ∀ buffer' size' offset', 0 ≤ offset' → ∃ m out,
    inodeReadAt d' i.data buffer' size' offset' true = .ok (m, out) ∧
    (m : Int) = max 0 (min size' (i.data.length - offset')) ∧
    ∀ k, out k = if k < m then overwritten d i.data buffer offset n (offset' + k) else buffer' k

section Arrays

variable {k : Nat}

theorem transferred_count (i : InodeDisk) (size offset : Int) :
    (transferred i size offset : Int) = max 0 (min size (i.length - offset)) := by
  rw [transferred]
  omega

theorem transferred_le (hk : k < transferred i size offset) : offset + k < i.length := by
  rw [transferred] at hk
  omega

theorem fileByte_put (ho : 0 ≤ offset) (buffer : Nat → Byte) (n : Nat) {pos : Int} (hp : 0 ≤ pos) :
    fileByte (d.put (byteAt i offset) n buffer) i pos = overwritten d i buffer offset n pos := by
  unfold fileByte overwritten
  by_cases hin : offset ≤ pos ∧ pos < offset + n
  · rw [if_pos hin]
    refine (splice_of_mem ?_).trans (congrArg buffer ?_)
    · simp only [byteAt]
      omega
    · simp only [byteAt]
      omega
  · rw [if_neg hin]
    refine splice_of_not_mem ?_
    simp only [byteAt]
    omega

/-- What is written is in the extent. -/
theorem inExtent_of_range (ho : 0 ≤ offset) {s : Nat} (hk : k < sectorSize)
    (h : byteAt i offset ≤ sectorSize * s + k ∧
      sectorSize * s + k < byteAt i offset + transferred i size offset) : InExtent i s := by
  have hle := transferred_le
    (show sectorSize * s + k - byteAt i offset < transferred i size offset by omega)
  refine ⟨offset + (sectorSize * s + k - byteAt i offset : Nat), by omega, hle, ?_⟩
  simp only [byteAt, sectorSize] at h hk ⊢
  omega

end Arrays

/-- **Files are flat arrays of bytes**: for every alignment of the offset and the size, a write
    replaces the range that it has room for, every read sees that, and nothing else changes. -/
theorem inode_flat_array {i : Inode} (hd : OnDevice d i.data)
    (hdeny : i.denyWriteCnt = 0) (buffer : Nat → Byte) (size : Int) (ho : 0 ≤ offset) :
    ∃ n d', inodeWriteAt d i.data i.denyWriteCnt buffer size offset true = .ok (n, d') ∧
      WritesArray d i buffer size offset n d' := by
  have hwrite := inodeWriteAt_eq hd buffer size ho true
  refine ⟨_, _, by rwa [hdeny], ?_⟩
  refine ⟨transferred_count i.data size offset, rfl, ?_, fun a ha => splice_of_not_mem ha, ?_⟩
  · intro s hs k hk
    exact splice_of_not_mem fun hin => hs (inExtent_of_range ho hk hin)
  intro buffer' size' offset' ho'
  have hread := inodeReadAt_eq (show OnDevice (d.put (byteAt i.data offset)
    (transferred i.data size offset) buffer) i.data from hd) buffer' size' ho' true
  rw [moved_true] at hread
  refine ⟨_, _, hread, transferred_count i.data size' offset', fun k => ?_⟩
  by_cases hk : k < transferred i.data size' offset'
  · rw [if_pos hk, splice_of_mem ⟨Nat.zero_le k, by omega⟩,
      ← fileByte_put ho buffer _ (show 0 ≤ offset' + k by omega), fileByte]
    congr 1
    simp only [byteAt]
    omega
  · rw [if_neg hk, splice_of_not_mem (by omega)]

/-- A file of 1000 bytes on a device of 8 sectors: a write of 600 bytes at 300 ends in its second
    sector. -/
theorem inode_flat_array_two_sectors :
    ∃ n d', inodeWriteAt ⟨8, fun _ => 0⟩ ⟨2, 1000⟩ 0 (fun _ => 7) 600 300 true = .ok (n, d') ∧
      WritesArray ⟨8, fun _ => 0⟩ ⟨1, 5, 1, false, 0, ⟨2, 1000⟩⟩ (fun _ => 7) 600 300 n d' := by
  refine inode_flat_array (i := ⟨1, 5, 1, false, 0, ⟨2, 1000⟩⟩) ⟨by decide, fun pos h0 hl => ?_⟩ rfl
    (fun _ => 7) 600 (by decide)
  have hl : pos < 1000 := hl
  simp only [sectorSize]
  omega

end Pintos.Filesys
