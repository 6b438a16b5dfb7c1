/-
  The arithmetic of a segment: `validate_segment`, the case `PT_LOAD` of `load`, and the loop of
  `load_segment` (userprog/process.c), in words of 32 bits.

  1. **The loop** (`pageLoop_eq`) — `read_bytes` and `zero_bytes` are decreased separately.  Together
     they make whole pages, so they reach zero TOGETHER, and the pages are consecutive.  They are
     what the loop of `Vm/ElfLoad.lean` enters into the table (`segmentLoop_eq_pageLoop`).

  2. **The segment** (`segment_arithmetic`) — for a header that `validate_segment` accepts nothing
     wraps, the assertions hold, and the pages are those that the segment touches.

  3. **The file offset** is an `off_t`, with a SIGN.  `validate_segment` compares `p_offset` with the
     length of the file, but not `p_offset + p_filesz`; a segment that reads past offset `2 ^ 31` has
     pages with negative offsets (`segment_pages_iff`).
-/
import Pintos.Vm.DemandLoad
import Mathlib

namespace Pintos.Vm.Elf

open Base Lib Filesys Userprog List

/-! ## The loop -/

def sub32 (a b : Nat) : Nat := u32 (a + 4294967296 - b)

/-- The loop of `load_segment`, with the records that it has `spt_load_page` enter; nothing if it has
    not ended after `n` tests of its condition. -/
def pageLoop (x : Executable) (writable : Bool) :
    Nat → Int → Nat → Nat → Nat → Option (List PageRecord)
  | 0, _, _, _, _ => none
  | n + 1, ofs, upage, readBytes, zeroBytes =>
    if 0 < readBytes ∨ 0 < zeroBytes then
      let pageReadBytes := if readBytes < pgSize then readBytes else pgSize
      let pageZeroBytes := sub32 pgSize pageReadBytes
      let page : PageRecord :=
        { file := some x.inode, fileOffset := ofs, upage, pageReadBytes, pageZeroBytes, writable,
          pLoc := .mmf }
      (pageLoop x writable n (wrap32 (ofs + pageReadBytes)) (u32 (upage + pgSize))
        (sub32 readBytes pageReadBytes) (sub32 zeroBytes pageZeroBytes)).map (page :: ·)
    else some []

section

variable {x : Executable} {m : LoadMemory} {writable : Bool} {n upage readBytes zeroBytes : Nat}
  {ofs : Int}

/-- **The loop** ends after as many turns as there are pages, and enters each of them. -/
theorem pageLoop_eq {fuel : Nat}
    (hofs : wrap32 ofs = ofs) (hsum : readBytes + zeroBytes = pgSize * n)
    (htop : upage + pgSize * n ≤ physBase) (hfuel : n < fuel) :
    pageLoop x writable fuel ofs upage readBytes zeroBytes =
      some ((range n).map (pageOf x writable ofs upage readBytes)) := by
  have hsize : pgSize = 4096 := rfl
  have hbase : physBase = 3221225472 := rfl
  -- on the pages that are left
  induction n generalizing fuel ofs upage readBytes zeroBytes with
  | zero =>
    obtain _ | fuel := fuel
    · omega
    exact if_neg (by omega)
  | succ n ih =>
    obtain _ | fuel := fuel
    · omega
    rw [hsize] at hsum htop
    have hread : (if readBytes < pgSize then readBytes else pgSize) = min pgSize readBytes := by
      split <;> omega
    have hzero : sub32 pgSize (min pgSize readBytes) = pgSize - min pgSize readBytes := by
      rw [sub32, u32]
      omega
    -- neither counter goes below zero
    have hread' : sub32 readBytes (min pgSize readBytes) = readBytes - min pgSize readBytes := by
      rw [sub32, u32]
      omega
    have hzero' : sub32 zeroBytes (pgSize - min pgSize readBytes)
        = zeroBytes - (pgSize - min pgSize readBytes) := by
      rw [sub32, u32]
      omega
    have hupage : u32 (upage + pgSize) = upage + pgSize := by
      rw [u32]
      omega
    have hrest : pageLoop x writable fuel (wrap32 (ofs + (min pgSize readBytes : Nat)))
        (upage + pgSize) (readBytes - min pgSize readBytes)
        (zeroBytes - (pgSize - min pgSize readBytes)) = _ :=
      ih (wrap32_idem _) (by rw [hsize]; omega) (by rw [hsize]; omega) (by omega)
    rw [pageLoop, if_pos (by omega)]
    simp only [hread, hzero, hread', hzero', hupage, hrest, Option.map_some]
    rw [range_succ_eq_map, map_cons, map_map, pageOf_zero hofs]
    refine congrArg some (congrArg (cons _) ?_)
    exact map_congr_left fun k _ => pageOf_succ.symm

/-- **The loop over the table** enters the pages of this loop: in words of 32 bits or not, they are the
    same. -/
theorem segmentLoop_eq_pageLoop {spt : Hash PageRecord} (hofs : wrap32 ofs = ofs)
    (hsum : readBytes + zeroBytes = pgSize * n) (htop : upage + pgSize * n ≤ physBase) :
    some (segmentLoop x m writable n ofs upage readBytes zeroBytes spt) =
      (pageLoop x writable (n + 1) ofs upage readBytes zeroBytes).map (enterPages x m · spt) := by
  rw [pageLoop_eq hofs hsum htop (Nat.lt_succ_self n), segmentLoop_eq hofs hsum]
  rfl

/-! ## The segment -/

theorem sum_pageReadBytes (h : readBytes ≤ pgSize * n) :
    (((range n).map (pageOf x writable ofs upage readBytes)).map
      PageRecord.pageReadBytes).sum = readBytes := by
  have hsize : pgSize = 4096 := rfl
  -- what the first `k` pages read
  have hfirst : ∀ k, (((range k).map (pageOf x writable ofs upage readBytes)).map
      PageRecord.pageReadBytes).sum = min readBytes (pgSize * k) := by
    intro k
    induction k with
    | zero => simp
    | succ k ih =>
      rw [range_succ, map_append, map_append, sum_append, ih]
      simp only [map_cons, map_nil, sum_cons, sum_nil, pageOf, hsize]
      omega
  rw [hfirst]
  omega

/-- The address `a`, rounded up to a page. -/
def pgRoundUp (a : Nat) : Nat := (a + pgSize - 1) / pgSize * pgSize

/-- **What the arithmetic of a segment comes to**: its sums do not wrap, the assertions hold, the loop
    ends, and the pages are exactly those that the segment touches, in user memory and above page
    zero. -/
structure SegmentOk (x : Executable) (ph : Phdr) (pages : List PageRecord) : Prop where
  readBytes : ph.readBytes = if 0 < ph.filesz then pgOfs ph.vaddr + ph.filesz else 0
  zeroBytes : ph.readBytes + ph.zeroBytes = pgRoundUp (pgOfs ph.vaddr + ph.memsz)
  whole : u32 (ph.readBytes + ph.zeroBytes) % pgSize = 0
  upageAligned : pgOfs (pgRoundDown ph.vaddr) = 0
  ofsAligned : wrap32 (pgRoundDown ph.offset) % pgSize = 0
  ends : ∀ fuel > pages.length, pageLoop x ph.writable fuel (wrap32 (pgRoundDown ph.offset))
    (pgRoundDown ph.vaddr) ph.readBytes ph.zeroBytes = some pages
  upages : pages.map PageRecord.upage =
    (range ((pgRoundUp (ph.vaddr + ph.memsz) - pgRoundDown ph.vaddr) / pgSize)).map
      fun i => pgRoundDown ph.vaddr + pgSize * i
  user : ∀ p ∈ pages, pgSize ≤ p.upage ∧ p.upage + pgSize ≤ physBase
  sum : (pages.map PageRecord.pageReadBytes).sum = ph.readBytes

/-- The pages that read a byte have the offsets that follow each other from `p_offset` on. -/
def OffsetsOk (ph : Phdr) (pages : List PageRecord) : Prop :=
  ∀ i (hi : i < pages.length), 0 < pages[i].pageReadBytes →
    pages[i].fileOffset = ((pgRoundDown ph.offset + pgSize * i : Nat) : Int)

/-- **The condition**: the last page that reads a byte begins before the offset `2 ^ 31`. -/
def OffsetsFit (ph : Phdr) : Prop := ph.filesz = 0 ∨
    pgRoundDown ph.offset + pgSize * ((pgOfs ph.vaddr + ph.filesz - 1) / pgSize) < 2147483648

variable {ph : Phdr} {length : Int}

/-- The pages of a segment, as the loop enters them. -/
def Phdr.row (x : Executable) (ph : Phdr) : List PageRecord := (range ph.pages).map (ph.page x)

/-- Rounding down loses less than a page. -/
theorem wrap32_offset (hlen : length < 2147483648) (hfits : ph.Fits length) :
    wrap32 (pgRoundDown ph.offset) = pgRoundDown ph.offset := by
  have hle := hfits.offset_le
  simp only [wrap32, pgRoundDown, pgOfs]
  omega

/-- **The arithmetic of a segment** is right for every header that is accepted. -/
theorem segment_arithmetic (hv : ph.vaddr < 4294967296) (hm : ph.memsz < 4294967296)
    (h : validateSegment ph x.inode.length = true) : SegmentOk x ph (ph.row x) := by
  have hfits := fits_of_validate hv hm ⟨x.onDevice.1, x.length_lt⟩ h
  have hofs := wrap32_offset x.length_lt hfits
  have htotal := hfits.total_eq
  have huser := hfits.user
  have hsize : pgSize = 4096 := rfl
  have hbase : physBase = 3221225472 := rfl
  have hdown : pgRoundDown ph.vaddr = ph.vaddr - ph.vaddr % 4096 := rfl
  have hpages : ph.pages = (ph.vaddr % 4096 + ph.memsz + 4096 - 1) / 4096 := rfl
  have hlow : 4096 ≤ ph.vaddr := by
    simp only [validateSegment, Bool.and_eq_true, Bool.not_eq_true', decide_eq_false_iff_not] at h
    exact Nat.le_of_not_lt h.2
  have hlength : (ph.row x).length = ph.pages := by simp [Phdr.row]
  constructor
  case readBytes => exact hfits.readBytes_eq
  case zeroBytes =>
    rw [htotal, pgRoundUp, mul_comm]
    rfl
  case whole =>
    rw [htotal, u32, hsize]
    omega
  case upageAligned =>
    simp only [pgOfs, hsize, hdown]
    omega
  case ofsAligned =>
    rw [hofs]
    simp only [pgRoundDown, pgOfs, hsize]
    omega
  case ends =>
    intro fuel hfuel
    rw [hlength] at hfuel
    rw [hofs, pageLoop_eq hofs htotal (by rw [hsize, hdown]; omega) hfuel]
    rfl
  case upages =>
    have hcount : (pgRoundUp (ph.vaddr + ph.memsz) - pgRoundDown ph.vaddr) / pgSize = ph.pages := by
      rw [pgRoundUp, hsize, hdown, hpages]
      omega
    rw [hcount, Phdr.row, map_map]
    rfl
  case user =>
    intro p hp
    obtain ⟨k, hk, rfl⟩ := mem_map.mp hp
    rw [mem_range] at hk
    show pgSize ≤ pgRoundDown ph.vaddr + pgSize * k ∧
      pgRoundDown ph.vaddr + pgSize * k + pgSize ≤ physBase
    rw [hsize, hdown]
    omega
  case sum => exact sum_pageReadBytes (by omega)

/-- The pages of a segment have the right offsets where these are an `off_t`. -/
theorem offsetsOk_row_iff (hfits : ph.Fits length) : OffsetsOk ph (ph.row x) ↔ OffsetsFit ph := by
  have hsize : pgSize = 4096 := rfl
  have hread := hfits.readBytes_eq
  have htotal := hfits.total_eq
  have hlength : (ph.row x).length = ph.pages := by simp [Phdr.row]
  -- a page that reads a byte
  have hpage (i : Nat) (hi : i < (ph.row x).length) :
      (ph.row x)[i].pageReadBytes = min pgSize (ph.readBytes - pgSize * i) ∧
        (ph.row x)[i].fileOffset
          = wrap32 (pgRoundDown ph.offset + (min ph.readBytes (pgSize * i) : Nat)) := by
    simp [Phdr.row, Phdr.page, pageOf]
  constructor
  · intro h
    by_contra hfit
    rw [OffsetsFit, not_or] at hfit
    rw [if_pos (by omega)] at hread
    -- the last page that reads one
    obtain ⟨hbytes, hoffset⟩ := hpage ((pgOfs ph.vaddr + ph.filesz - 1) / pgSize)
      (by rw [hlength]; rw [hsize] at htotal ⊢; omega)
    have hok := h ((pgOfs ph.vaddr + ph.filesz - 1) / pgSize) _
      (by rw [hbytes, hread, hsize]; omega)
    rw [hoffset, wrap32] at hok
    omega
  · intro h i hi hpos
    obtain ⟨hbytes, hoffset⟩ := hpage i hi
    have hfile : 0 < ph.filesz := by
      by_contra h0
      rw [hbytes, hread, if_neg h0] at hpos
      omega
    rw [if_pos hfile] at hread
    rw [hbytes, hread, hsize] at hpos
    rcases h with h0 | hfit
    · omega
    · rw [hoffset, hread, wrap32, hsize]
      rw [hsize] at hfit
      omega

/-- **Everything is right about a segment**, its sums, its pages and where they read from, exactly when
    its file offsets fit. -/
theorem segment_pages_iff (x : Executable) (ph : Phdr) (hv : ph.vaddr < 4294967296)
    (hm : ph.memsz < 4294967296) (h : validateSegment ph x.inode.length = true) :
    (∃ pages, SegmentOk x ph pages ∧ OffsetsOk ph pages) ↔ OffsetsFit ph := by
  have hok := segment_arithmetic hv hm h
  have hfits := fits_of_validate hv hm ⟨x.onDevice.1, x.length_lt⟩ h
  rw [← offsetsOk_row_iff (x := x) hfits]
  constructor
  · rintro ⟨pages, hpages, hoffsets⟩
    -- the loop has one result
    have hsame : pages = ph.row x := by
      have h1 := hpages.ends (max pages.length (ph.row x).length + 1) (by omega)
      have h2 := hok.ends (max pages.length (ph.row x).length + 1) (by omega)
      exact Option.some.inj (h1.symm.trans h2)
    exact hsame ▸ hoffsets
  · intro hoffsets
    exact ⟨ph.row x, hok, hoffsets⟩

/-- A segment of one page and a half, at the start of the file. -/
theorem segment_pages_small :
    OffsetsFit ⟨1, 0, 0x8048000, 6000, 6000, 5⟩ ∧ ∃ pages,
      SegmentOk (Executable.tiny []) ⟨1, 0, 0x8048000, 6000, 6000, 5⟩ pages ∧
        OffsetsOk ⟨1, 0, 0x8048000, 6000, 6000, 5⟩ pages :=
  ⟨.inr (by decide), (segment_pages_iff (Executable.tiny []) ⟨1, 0, 0x8048000, 6000, 6000, 5⟩
    (by decide) (by decide) (by decide)).mpr (.inr (by decide))⟩

/-- A segment of `2 ^ 31` bytes and a page: its last page would be read at a negative offset. -/
theorem segment_offset_negative :
    validateSegment ⟨1, 0, 0x1000, 0x80001000, 0x80001000, 5⟩ (Executable.tiny []).inode.length
      = true ∧
    ∃ pages p, (∀ fuel > 524289, pageLoop (Executable.tiny []) false fuel 0 0x1000 0x80001000 0
      = some pages) ∧ pages[524288]? = some p ∧ p.pageReadBytes = pgSize ∧
        p.fileOffset = -2147483648 := by
  refine ⟨by decide, _, pageOf (Executable.tiny []) false 0 0x1000 0x80001000 524288,
    fun fuel hfuel => pageLoop_eq (n := 524289) rfl rfl (by decide) hfuel, ?_, by decide, by decide⟩
  rw [getElem?_map, getElem?_range (by decide)]
  rfl

end

end Pintos.Vm.Elf
