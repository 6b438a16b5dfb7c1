/-
  Demand loading reproduces the executable, except under the stack.

  1. **Segments** (`Phdr.Fits`) — what `validate_segment` has let pass is in user memory, and nothing in
     the arithmetic of `load` wraps.

  2. **Records** (`segmentLoop_eq`, `phdrLoop_spec`) — a segment that is loaded has the record `pageOf`
     for each of its pages in the table, and no later step takes one away.

  3. **A page** (`sptGetFrame_page`) — the record is found by any address of its page, and the bytes that
     are brought in are those of the image.

  4. **The page of the stack** is installed already when `load` returns; a segment that reaches into it
     can not be brought in there (`sptGetFrame_stack`).  `demand_loading` says that this is the only
     exception.
-/
import Pintos.Vm.ElfLoad

namespace Pintos.Vm.Elf

open Base Lib Filesys Userprog List Hash Bool Except

theorem sptFns_keyed : Hash.Keyed sptFns PageRecord.upage where
  equal a b := by
    simp only [sptFns, and_eq_true, not_eq_true', decide_eq_false_iff_not]
    omega
  hash a b h := by simp only [sptFns, h]

/-! ## Segments -/

/-- A segment in user memory, with its arithmetic done. -/
structure Phdr.Fits (ph : Phdr) (length : Int) : Prop where
  aligned : ph.offset % pgSize = ph.vaddr % pgSize
  offset_le : (ph.offset : Int) ≤ length
  filesz_le : ph.filesz ≤ ph.memsz
  pos : 0 < ph.memsz
  user : ph.vaddr + ph.memsz < physBase

/-- The pages of a segment. -/
def Phdr.pages (ph : Phdr) : Nat := (pgOfs ph.vaddr + ph.memsz + pgSize - 1) / pgSize

theorem fits_of_validate {ph : Phdr} {length : Int} (hv : ph.vaddr < 4294967296)
    (hm : ph.memsz < 4294967296) (hl : 0 ≤ length ∧ length < 2147483648)
    (h : validateSegment ph length = true) : ph.Fits length := by
  simp only [validateSegment, and_eq_true, not_eq_true', beq_iff_eq, bne_iff_ne,
    decide_eq_false_iff_not, isUserVaddr, decide_eq_true_eq] at h
  obtain ⟨⟨⟨⟨⟨⟨⟨h1, h2⟩, h3⟩, h4⟩, h5⟩, h6⟩, h7⟩, h8⟩ := h
  have hbase : physBase = 3221225472 := rfl
  rw [u32] at h2 h6 h7
  refine ⟨h1, by omega, by omega, by omega, by omega⟩

variable {ph : Phdr} {writable : Bool}

section

variable {length : Int}

theorem Phdr.Fits.readBytes_eq (h : ph.Fits length) :
    ph.readBytes = if 0 < ph.filesz then pgOfs ph.vaddr + ph.filesz else 0 := by
  have hu := h.user
  have hf := h.filesz_le
  have hbase : physBase = 3221225472 := rfl
  simp only [Phdr.readBytes, u32, pgOfs, pgSize]
  split <;> omega

theorem Phdr.Fits.total_eq (h : ph.Fits length) :
    ph.readBytes + ph.zeroBytes = pgSize * ph.pages := by
  have hr := h.readBytes_eq
  have hu := h.user
  have hf := h.filesz_le
  have hbase : physBase = 3221225472 := rfl
  simp only [Phdr.zeroBytes, roundUp, u32, pgOfs, pgSize, Phdr.pages] at hr ⊢
  split at hr <;> rename_i h0
  · rw [if_pos h0, hr]
    omega
  · rw [if_neg h0, hr]
    omega

end

/-! ## Records -/

/-- The record of the page `k` of a segment: `ofs`, `upage` and `readBytes` are those of the segment. -/
def pageOf (x : Executable) (writable : Bool) (ofs : Int) (upage readBytes k : Nat) : PageRecord where
  file := some x.inode
  fileOffset := wrap32 (ofs + min readBytes (pgSize * k))
  upage := upage + pgSize * k
  pageReadBytes := min pgSize (readBytes - pgSize * k)
  pageZeroBytes := pgSize - min pgSize (readBytes - pgSize * k)
  writable := writable
  pLoc := .mmf

abbrev TableOk (spt : Hash PageRecord) : Prop := spt.WF sptFns PageRecord.upage

/-- `spt` has become `spt'`: all records are still there. -/
structure Grown (spt spt' : Hash PageRecord) : Prop where
  ok : TableOk spt'
  kept : ∀ r ∈ spt.elems, r ∈ spt'.elems

variable {spt : Hash PageRecord}

theorem Grown.refl (h : TableOk spt) : Grown spt spt := ⟨h, fun _ hr => hr⟩

theorem Grown.trans {a b c : Hash PageRecord} (h : Grown a b) (h' : Grown b c) : Grown a c :=
  ⟨h'.ok, fun r hr => h'.kept r (h.kept r hr)⟩

theorem wrap32_wrap32 (a b : Int) : wrap32 (wrap32 a + b) = wrap32 (a + b) := by
  simp only [wrap32]
  omega

theorem wrap32_idem (a : Int) : wrap32 (wrap32 a) = wrap32 a := by
  simpa using wrap32_wrap32 a 0

variable {k : Nat} {x : Executable} {m : LoadMemory}

section

variable {ofs : Int} {upage readBytes : Nat} {spt' : Hash PageRecord}

theorem sptLoadPage_spec (h : TableOk spt) {pageReadBytes pageZeroBytes : Nat}
    (hr : (sptLoadPage x m spt ofs writable upage pageReadBytes pageZeroBytes).1 = true) :
    Grown spt (sptLoadPage x m spt ofs writable upage pageReadBytes pageZeroBytes).2 ∧
      { file := some x.inode, fileOffset := ofs, upage, pageReadBytes, pageZeroBytes, writable,
        pLoc := .mmf } ∈
        (sptLoadPage x m spt ofs writable upage pageReadBytes pageZeroBytes).2.elems := by
  unfold sptLoadPage at hr ⊢
  by_cases hm : m.record upage = true
  · rw [if_pos hm] at hr
    rw [if_pos hm]
    exact ⟨⟨(hashInsert_wf sptFns_keyed h _ _).1, fun r hr => mem_hashInsert sptFns_keyed h _ _ hr⟩,
      mem_hashInsert_self sptFns_keyed h (Option.isNone_iff_eq_none.mp hr)⟩
  · rw [if_neg hm] at hr
    cases hr

theorem pageOf_zero (hofs : wrap32 ofs = ofs) :
    pageOf x writable ofs upage readBytes 0 =
      { file := some x.inode, fileOffset := ofs, upage := upage
        pageReadBytes := min pgSize readBytes
        pageZeroBytes := pgSize - min pgSize readBytes, writable := writable, pLoc := .mmf } := by
  simp only [pageOf, Nat.mul_zero, Nat.min_zero, Int.ofNat_zero, Int.add_zero, hofs, Nat.add_zero,
    Nat.sub_zero]

/-- The pages behind it are the row that begins one page later. -/
theorem pageOf_succ :
    pageOf x writable ofs upage readBytes (k + 1) =
      pageOf x writable (wrap32 (ofs + (min pgSize readBytes : Nat))) (upage + pgSize)
        (readBytes - min pgSize readBytes) k := by
  have hsize : pgSize = 4096 := rfl
  have h1 : min readBytes (pgSize * (k + 1)) =
      min pgSize readBytes + min (readBytes - min pgSize readBytes) (pgSize * k) := by
    rw [hsize]
    omega
  have h2 : readBytes - pgSize * (k + 1) = readBytes - min pgSize readBytes - pgSize * k := by
    rw [hsize]
    omega
  have h3 : upage + pgSize * (k + 1) = upage + pgSize + pgSize * k := by
    rw [hsize]
    omega
  simp only [pageOf, wrap32_wrap32, h1, h2, h3, Int.natCast_add, Int.add_assoc]

/-- Entering pages one after the other, as long as there is memory and no record in the way. -/
def enterPages (x : Executable) (m : LoadMemory) :
    List PageRecord → Hash PageRecord → Option (Hash PageRecord)
  | [], spt => some spt
  | p :: ps, spt =>
    let r := sptLoadPage x m spt p.fileOffset p.writable p.upage p.pageReadBytes p.pageZeroBytes
    if r.1 then enterPages x m ps r.2 else none

/-- **The loop of `load_segment`** enters the pages of the row. -/
theorem segmentLoop_eq {n zeroBytes : Nat} (hofs : wrap32 ofs = ofs)
    (hsum : readBytes + zeroBytes = pgSize * n) :
    segmentLoop x m writable n ofs upage readBytes zeroBytes spt =
      enterPages x m ((range n).map (pageOf x writable ofs upage readBytes)) spt := by
  have hsize : pgSize = 4096 := rfl
  induction n generalizing ofs upage readBytes zeroBytes spt with
  | zero => rfl
  | succ n ih =>
    have hread : (if readBytes < pgSize then readBytes else pgSize) = min pgSize readBytes := by
      split <;> omega
    rw [segmentLoop, if_pos (by rw [hsize] at hsum; omega), range_succ_eq_map, map_cons, map_map,
      pageOf_zero hofs, enterPages]
    simp only [hread]
    split
    · rw [ih (wrap32_idem _) (by rw [hsize] at hsum ⊢; omega)]
      refine congrArg (fun ps => enterPages x m ps _) ?_
      exact map_congr_left fun k _ => pageOf_succ.symm
    · rfl

theorem enterPages_spec {ps : List PageRecord} (h : TableOk spt)
    (hps : ∀ p ∈ ps, p.file = some x.inode ∧ p.pLoc = .mmf)
    (heq : enterPages x m ps spt = some spt') : Grown spt spt' ∧ ∀ p ∈ ps, p ∈ spt'.elems := by
  induction ps generalizing spt with
  | nil =>
    cases heq
    exact ⟨Grown.refl h, by simp⟩
  | cons p ps ih =>
    rw [enterPages] at heq
    split at heq
    · rename_i hr
      obtain ⟨hgrown, hmem⟩ := sptLoadPage_spec h hr
      obtain ⟨hrest, hpages⟩ := ih hgrown.ok (fun q hq => hps q (mem_cons_of_mem p hq)) heq
      refine ⟨hgrown.trans hrest, forall_mem_cons.mpr ⟨hrest.kept _ ?_, hpages⟩⟩
      obtain ⟨hfile, hloc⟩ := hps p mem_cons_self
      rwa [← hfile, ← hloc] at hmem
    · cases heq

/-- The record of the page `k` of a segment. -/
def Phdr.page (x : Executable) (ph : Phdr) (k : Nat) : PageRecord :=
  pageOf x ph.writable (pgRoundDown ph.offset) (pgRoundDown ph.vaddr) ph.readBytes k

structure Loaded (x : Executable) (ph : Phdr) (spt : Hash PageRecord) : Prop where
  fits : ph.Fits x.inode.length
  pages : ∀ k < ph.pages, ph.page x k ∈ spt.elems

theorem Loaded.grown (h : Loaded x ph spt) (hg : Grown spt spt') : Loaded x ph spt' :=
  ⟨h.fits, fun k hk => hg.kept _ (h.pages k hk)⟩

theorem loadPhdr_spec (h : TableOk spt) (hv : ph.vaddr < 4294967296) (hm : ph.memsz < 4294967296)
    (heq : loadPhdr x m spt ph = .ok (some spt')) : Grown spt spt' ∧ Loaded x ph spt' := by
  rw [loadPhdr] at heq
  split at heq
  · rename_i hvalid
    have hfits := fits_of_validate hv hm ⟨x.onDevice.1, x.length_lt⟩ hvalid
    rw [loadSegment] at heq
    split at heq
    · have hlen := x.length_lt
      have hofs := hfits.offset_le
      have hwrap : wrap32 (pgRoundDown ph.offset) = pgRoundDown ph.offset := by
        simp only [wrap32, pgRoundDown, pgOfs]
        omega
      have hsum := hfits.total_eq
      rw [hsum, Nat.mul_div_cancel_left _ (show 0 < pgSize by decide)] at heq
      have heq := ok.inj heq
      rw [segmentLoop_eq hwrap hsum] at heq
      obtain ⟨hgrown, hpages⟩ := enterPages_spec h (by simp [pageOf]) heq
      exact ⟨hgrown, hfits, fun k hk => hpages _ (mem_map_of_mem (mem_range.mpr hk))⟩
    · cases heq
  · cases heq

theorem read_whole {buffer out : Nat → Byte} {size n : Nat} {alloc : Bool}
    (ho : 0 ≤ ofs) (h : inodeReadAt x.dev x.inode buffer size ofs alloc = .ok (n, out))
    (hn : n = size) :
    (ofs + size ≤ x.inode.length ∨ size = 0) ∧
      ∀ k, out k = if k < size then x.byte (ofs.toNat + k) else buffer k := by
  rw [inodeReadAt_eq x.onDevice buffer size ho alloc] at h
  obtain ⟨hcount, hout⟩ := Prod.mk.inj (ok.inj h)
  have hle := moved_le alloc ofs (transferred x.inode size ofs)
  have htrans := transferred_count x.inode size ofs
  constructor
  · omega
  · intro k
    rw [← hout, hcount, hn]
    by_cases hk : k < size
    · rw [if_pos hk, splice_of_mem ⟨Nat.zero_le k, by omega⟩, Executable.byte, fileByte]
      congr 1
      simp only [byteAt]
      omega
    · rw [if_neg hk, splice_of_not_mem (by omega)]

theorem readPhdr_spec (h : readPhdr x m ofs = .ok (some ph)) :
    0 ≤ ofs ∧ ph = Phdr.decode fun k => x.byte (ofs.toNat + k) := by
  rw [readPhdr] at h
  split at h
  · cases h
  have h0 : 0 ≤ ofs := by omega
  obtain ⟨r, hr, heq⟩ := bind_eq_ok.mp h
  have heq := ok.inj heq
  split at heq
  · rename_i hcount
    obtain ⟨-, hbytes⟩ := read_whole (n := r.1) h0 hr hcount
    refine ⟨h0, ?_⟩
    rw [← Option.some.inj heq]
    have hword : ∀ a, a + 3 < phdrSize → le32 r.2 a = le32 (fun k => x.byte (ofs.toNat + k)) a := by
      intro a ha
      refine le32_congr fun k hk => ?_
      rw [hbytes, if_pos (by omega)]
    simp only [Phdr.decode]
    rw [hword 0 (by decide), hword 4 (by decide), hword 8 (by decide), hword 16 (by decide),
      hword 20 (by decide), hword 24 (by decide)]
  · cases heq

/-- **The loop of `load`**, from the header `i` on. -/
theorem phdrLoop_spec (base : Nat) : ∀ (n i : Nat) {spt spt' : Hash PageRecord}, TableOk spt →
    phdrLoop x m n (base + phdrSize * i : Nat) spt = .ok (some spt') →
      Grown spt spt' ∧ ∀ j, i ≤ j → j < i + n →
        (Phdr.decode fun k => x.byte (base + phdrSize * j + k)).type = 1 →
        Loaded x (Phdr.decode fun k => x.byte (base + phdrSize * j + k)) spt'
  | 0, i, spt, spt', h, heq => by
    cases ok.inj heq
    exact ⟨Grown.refl h, fun j h1 h2 => absurd h2 (by omega)⟩
  | n + 1, i, spt, spt', h, heq => by
    obtain ⟨r, hr, heq⟩ := bind_eq_ok.mp heq
    cases r with
    | none => cases heq
    | some ph =>
      obtain ⟨-, hph⟩ := readPhdr_spec hr
      rw [Int.toNat_natCast] at hph
      obtain ⟨r', hr', heq⟩ := bind_eq_ok.mp heq
      cases r' with
      | none => cases heq
      | some spt1 =>
        have hstep : Grown spt spt1 ∧ (ph.type = 1 → Loaded x ph spt1) := by
          rw [onPhdr] at hr'
          split at hr'
          · have hv : ph.vaddr < 4294967296 := by rw [hph]; exact le32_lt _ _
            have hm : ph.memsz < 4294967296 := by rw [hph]; exact le32_lt _ _
            obtain ⟨hg, hl⟩ := loadPhdr_spec h hv hm hr'
            exact ⟨hg, fun _ => hl⟩
          · rename_i htype
            split at hr'
            · cases hr'
            · cases ok.inj hr'
              exact ⟨Grown.refl h, fun ht => absurd ht htype⟩
        have hnext : ((base + phdrSize * i : Nat) : Int) + (phdrSize : Nat) =
            (base + phdrSize * (i + 1) : Nat) := by
          rw [Nat.mul_succ, ← add_assoc, Int.natCast_add _ phdrSize]
        have heq : phdrLoop x m n ((base + phdrSize * i : Nat) + (phdrSize : Nat)) spt1 =
          .ok (some spt') := heq
        obtain ⟨hrest, hloaded⟩ := phdrLoop_spec base n (i + 1) hstep.1.ok heq
        refine ⟨hstep.1.trans hrest, fun j h1 h2 ht => ?_⟩
        by_cases hj : j = i
        · rw [hj] at ht ⊢
          rw [← hph] at ht ⊢
          exact (hstep.2 ht).grown hrest
        · exact hloaded j (by omega) (by omega) ht

end

/-! ## What `load` leaves -/

/-- A process that has been loaded: the records of all segments, and one page installed. -/
structure Ready (x : Executable) (img : Image) : Prop where
  table : TableOk img.spt
  loaded : ∀ ph ∈ x.segments, Loaded x ph img.spt
  stack : ∃ kpage, ∀ v, v % pgSize = 0 →
    pagedirGetPage img.pagedir v = if v = stackUpage then some kpage else none

variable {img : Image}

section

variable {ram : Nat → Nat → Byte} {queue : List Frame}

theorem stackRecord_grown (h : TableOk spt) : Grown spt (stackRecord m spt) := by
  rw [stackRecord]
  split
  · exact ⟨(hashInsert_wf sptFns_keyed h _ _).1, fun r hr => mem_hashInsert sptFns_keyed h _ _ hr⟩
  · exact Grown.refl h

theorem setupStack_spec {r : PageDir × (Nat → Nat → Byte)} (h : setupStack m ram = some r) :
    ∃ kpage, ∀ v, v % pgSize = 0 →
      pagedirGetPage r.1 v = if v = stackUpage then some kpage else none := by
  rw [setupStack] at h
  cases hf : m.stackFrame with
  | none =>
    rw [hf] at h
    cases h
  | some kpage =>
    rw [hf] at h
    obtain ⟨pd, hpd, hr⟩ := Option.map_eq_some_iff.mp h
    refine ⟨kpage, fun v hv => ?_⟩
    have hset : pagedirSetPage (fun _ => none) stackUpage kpage true m.stackTable = some pd := hpd
    rw [← hr]
    exact getPage_set (by decide) hset hv

theorem segments_loaded
    (h : phdrLoop x m (ePhnum x.byte) (ePhoff x.byte) Hash.init = .ok (some spt)) :
    Grown Hash.init spt ∧ ∀ ph ∈ x.segments, Loaded x ph spt := by
  have hsegments : ∀ ph ∈ x.segments, ∃ j < ePhnum x.byte, ph = x.phdr j ∧ ph.type = 1 := by
    intro ph hph
    obtain ⟨hmem, ht⟩ := mem_filter.mp hph
    obtain ⟨j, hj, rfl⟩ := mem_map.mp hmem
    exact ⟨j, mem_range.mp hj, rfl, of_decide_eq_true ht⟩
  by_cases h0 : 0 ≤ ePhoff x.byte
  · obtain ⟨base, hbase⟩ := Int.eq_ofNat_of_zero_le h0
    obtain ⟨hgrown, hloaded⟩ := phdrLoop_spec base (ePhnum x.byte) 0 init_wf
      (by rwa [Nat.mul_zero, add_zero, ← hbase])
    refine ⟨hgrown, fun ph hph => ?_⟩
    obtain ⟨j, hj, rfl, ht⟩ := hsegments ph hph
    have hphdr : x.phdr j = Phdr.decode fun k => x.byte (base + phdrSize * j + k) := by
      rw [Executable.phdr, hbase]
      rfl
    rw [hphdr] at ht ⊢
    exact hloaded j (Nat.zero_le j) (by rwa [zero_add]) ht
  · -- the first header is not read, so there is none
    cases hn : ePhnum x.byte with
    | zero =>
      rw [hn] at h
      cases ok.inj h
      refine ⟨Grown.refl init_wf, fun ph hph => ?_⟩
      obtain ⟨j, hj, -⟩ := hsegments ph hph
      omega
    | succ =>
      have hread : readPhdr x m (ePhoff x.byte) = .ok none := if_pos (by omega)
      rw [hn, phdrLoop, hread] at h
      cases h

/-- **`load`.** -/
theorem ready_of_load (h : load x m ram queue = .ok (some img)) : Ready x img := by
  rw [load] at h
  split at h
  · obtain ⟨r, hr, h⟩ := bind_eq_ok.mp h
    split at h
    · rename_i hehdr
      obtain ⟨-, hbytes⟩ := read_whole (n := r.1) (Int.le_refl 0) hr hehdr.1
      have hbyte : ∀ k < ehdrSize, r.2 k = x.byte k := by
        intro k hk
        rw [hbytes, if_pos hk, Int.toNat_zero, zero_add]
      have hnum : ePhnum r.2 = ePhnum x.byte := by
        rw [ePhnum, ePhnum, le16, le16, hbyte 44 (by decide), hbyte (44 + 1) (by decide)]
      have hoff : ePhoff r.2 = ePhoff x.byte := by
        rw [ePhoff, ePhoff, le32_congr fun k hk => hbyte (28 + k) (by simp only [ehdrSize]; omega)]
      rw [hnum, hoff] at h
      obtain ⟨r', hr', h⟩ := bind_eq_ok.mp h
      cases r' with
      | none => cases h
      | some =>
        obtain ⟨s, hs, himg⟩ := Option.map_eq_some_iff.mp (ok.inj h)
        have hspt := segments_loaded hr'
        have hgrown := stackRecord_grown (m := m) hspt.1.ok
        rw [← himg]
        exact ⟨hgrown.ok, fun ph hph => (hspt.2 ph hph).grown hgrown, setupStack_spec hs⟩
    · cases h
  · cases h

end

/-! ## A page on demand -/

variable {a : Nat}

/-- Where an address of a segment is: in which page, and at which byte of the file. -/
theorem Phdr.Fits.locate {length : Int} (h : ph.Fits length)
    (hlo : ph.vaddr ≤ a) (hhi : a < ph.vaddr + ph.memsz) :
    ∃ k < ph.pages, pgRoundDown ph.vaddr + pgSize * k = pgRoundDown a ∧
      (pgOfs a < min pgSize (ph.readBytes - pgSize * k) ↔ a - ph.vaddr < ph.filesz) ∧
      (a - ph.vaddr < ph.filesz → pgRoundDown ph.offset + min ph.readBytes (pgSize * k) + pgOfs a =
        ph.offset + (a - ph.vaddr)) := by
  have halign := h.aligned
  have hread := h.readBytes_eq
  have hpages : ph.pages = (pgOfs ph.vaddr + ph.memsz + pgSize - 1) / pgSize := rfl
  refine ⟨(a - pgRoundDown ph.vaddr) / pgSize, ?_, ?_, ?_, ?_⟩
  · rw [hpages]
    simp only [pgRoundDown, pgOfs, pgSize]
    omega
  · simp only [pgRoundDown, pgOfs, pgSize]
    omega
  · rw [hread]
    simp only [pgRoundDown, pgOfs, pgSize]
    split <;> omega
  · intro hfile
    rw [hread, if_pos (by omega)]
    simp only [pgRoundDown, pgOfs, pgSize] at halign ⊢
    omega

theorem Loaded.in_file (h : Loaded x ph img.spt) (hfull : FullReads x img) :
    ((pgRoundDown ph.offset + ph.readBytes : Nat) : Int) ≤ x.inode.length := by
  have hofs := h.fits.offset_le
  have htotal := h.fits.total_eq
  have hlen := x.length_lt
  by_contra hshort
  obtain ⟨len, hlen'⟩ := Int.eq_ofNat_of_zero_le x.onDevice.1
  -- the page where the file ends is not read whole
  have hk : (len - pgRoundDown ph.offset) / pgSize < ph.pages := by
    simp only [pgSize, pgRoundDown, pgOfs] at *
    omega
  obtain ⟨buf', hread⟩ := hfull _ (h.pages _ hk) rfl (fun _ => 0)
  have hoffset : (ph.page x ((len - pgRoundDown ph.offset) / pgSize)).fileOffset =
      (pgRoundDown ph.offset + pgSize * ((len - pgRoundDown ph.offset) / pgSize) : Nat) := by
    simp only [Phdr.page, pageOf, wrap32, pgSize, pgRoundDown, pgOfs] at *
    omega
  have hbytes : (ph.page x ((len - pgRoundDown ph.offset) / pgSize)).pageReadBytes =
      min pgSize (ph.readBytes - pgSize * ((len - pgRoundDown ph.offset) / pgSize)) := rfl
  have hwhole := (read_whole (by omega) hread rfl).1
  simp only [pgSize, pgRoundDown, pgOfs] at *
  omega

theorem Ready.sptGet_page (h : Ready x img) (hl : Loaded x ph img.spt)
    (hk : k < ph.pages) (ha : pgRoundDown ph.vaddr + pgSize * k = pgRoundDown a) :
    sptGet img a = some (ph.page x k) :=
  (hashFind_eq_some sptFns_keyed h.table).mpr ⟨hl.pages k hk, ha⟩

/-- Bringing the page in: what is left to do once the file has been read. -/
theorem sptGetFrame_eq (hl : Loaded x ph img.spt) (hfull : FullReads x img)
    (hk : k < ph.pages) {c : FrameMemory} {addr : Nat} (hframe : c.frame = some addr)
    (hrecord : c.frameRecord = true) (hbounce : c.bounce = true) :
    ∃ ram queue, sptGetFrame x c img (ph.page x k) =
        installLoaded c { img with ram := ram, lruQueue := queue } (ph.page x k) addr ∧
      ∀ ofs < pgSize, ram addr ofs = if ofs < min pgSize (ph.readBytes - pgSize * k) then
        x.byte (pgRoundDown ph.offset + min ph.readBytes (pgSize * k) + ofs) else 0 := by
  have hfile := hl.in_file hfull
  have hlen := x.length_lt
  generalize hn : min pgSize (ph.readBytes - pgSize * k) = n
  generalize ho : pgRoundDown ph.offset + min ph.readBytes (pgSize * k) = o
  have hle : n ≤ pgSize := by omega
  have hpage : (ph.page x k).pageReadBytes = n ∧ (ph.page x k).fileOffset = (o : Int) := by
    refine ⟨hn, ?_⟩
    show wrap32 _ = _
    simp only [wrap32]
    omega
  obtain ⟨buf, hread⟩ := hfull _ (hl.pages k hk) rfl (img.ram addr)
  rw [hpage.1, hpage.2] at hread
  obtain ⟨-, hbuf⟩ := read_whole (Int.natCast_nonneg o) hread rfl
  refine ⟨Function.update img.ram addr (splice buf n (pgSize - n) fun _ => 0),
    img.lruQueue ++ [{ addr := addr, upage := (ph.page x k).upage }], ?_, ?_⟩
  · have hfadd : ftAdd c img (ph.page x k).upage = .ok (addr, { img with
        lruQueue := img.lruQueue ++ [{ addr := addr, upage := (ph.page x k).upage }] }) := by
      rw [ftAdd, hframe]
      exact if_pos hrecord
    rw [sptGetFrame, hfadd]
    show readPage x c _ (ph.page x k) addr = _
    have hfile : (ph.page x k).file = some x.inode := rfl
    rw [readPage, hfile]
    simp only [hpage.1, hpage.2, hbounce, hread]
    rw [if_neg (by omega)]
    exact if_pos trivial
  · intro ofs hofs
    rw [Function.update_self]
    by_cases hin : ofs < n
    · rw [if_pos hin, splice_of_not_mem (by omega), hbuf, if_pos hin, Int.toNat_natCast]
    · rw [if_neg hin, splice_of_mem (by omega)]

/-- **A page that is not the stack's** is brought in with the bytes of the image. -/
theorem Ready.onDemand (h : Ready x img) (hfull : FullReads x img) (hph : ph ∈ x.segments)
    (hlo : ph.vaddr ≤ a) (hhi : a < ph.vaddr + ph.memsz) (hstack : pgRoundDown a ≠ stackUpage) :
    OnDemand x img ph a := by
  have hl := h.loaded ph hph
  obtain ⟨k, hk, hpage, hin, hofs⟩ := hl.fits.locate hlo hhi
  obtain ⟨kpage, hget⟩ := h.stack
  have halign : pgRoundDown a % pgSize = 0 := by
    simp only [pgRoundDown, pgOfs, pgSize]
    omega
  refine ⟨ph.page x k, h.sptGet_page hl hk hpage, hpage, ?_⟩
  rintro c ⟨hframe, hrecord, hbounce, htable⟩
  obtain ⟨addr, haddr⟩ := Option.ne_none_iff_exists'.mp hframe
  obtain ⟨ram, queue, hrun, hbytes⟩ := sptGetFrame_eq hl hfull hk haddr hrecord hbounce
  have hupage : (ph.page x k).upage = pgRoundDown a := hpage
  have hnone : pagedirGetPage img.pagedir (pgRoundDown a) = none := by
    rw [hget _ halign, if_neg hstack]
  rcases installPage_cases hnone addr ph.writable c.pageTable with ⟨-, hno, -⟩ | ⟨-, pd, hpd, hpte⟩
  · rw [htable] at hno
    cases hno
  rw [hrun, installLoaded, hupage]
  have hwritable : (ph.page x k).writable = ph.writable := rfl
  rw [hwritable, hpd]
  refine ⟨_, rfl, ?_⟩
  rw [lookupPage_roundDown] at hpte
  refine Eq.trans (Image.seen_of_present hpte rfl) ?_
  show some (ram addr (pgOfs a), ph.writable) = _
  rw [hbytes _ (show pgOfs a < pgSize by simp only [pgOfs, pgSize]; omega), Executable.imageByte]
  by_cases hfile : a - ph.vaddr < ph.filesz
  · rw [if_pos (hin.mpr hfile), if_pos hfile, hofs hfile]
  · rw [if_neg (fun hc => hfile (hin.mp hc)), if_neg hfile]

/-- **The page of the stack** is taken, and `install_page` refuses. -/
theorem Ready.not_onDemand (h : Ready x img) (hfull : FullReads x img) (hph : ph ∈ x.segments)
    (hlo : ph.vaddr ≤ a) (hhi : a < ph.vaddr + ph.memsz)
    (hstack : pgRoundDown a = stackUpage) : ¬ OnDemand x img ph a := by
  rintro ⟨pg, hfind, -, hdemand⟩
  have hl := h.loaded ph hph
  obtain ⟨k, hk, hpage, -⟩ := hl.fits.locate hlo hhi
  obtain ⟨kpage, hget⟩ := h.stack
  rw [h.sptGet_page hl hk hpage] at hfind
  cases hfind
  obtain ⟨img', hrun, -⟩ := hdemand ⟨some 0, true, true, true, none⟩ ⟨by simp, rfl, rfl, rfl⟩
  obtain ⟨ram, queue, heq, -⟩ := sptGetFrame_eq hl hfull hk
    (c := ⟨some 0, true, true, true, none⟩) rfl rfl rfl
  have hupage : (ph.page x k).upage = stackUpage := hpage.trans hstack
  have htaken : pagedirGetPage img.pagedir stackUpage = some kpage := by
    rw [hget _ (by decide), if_pos rfl]
  rw [heq, installLoaded, hupage, installPage, htaken] at hrun
  cases hrun

/-- **Demand loading reproduces the executable** that `load` has accepted, provided the file has all that
    its segments ask for, EXACTLY if no segment reaches into the page of the stack. -/
theorem demand_loading (x : Executable) (m : LoadMemory) (ram : Nat → Nat → Byte)
    (queue : List Frame) (img : Image) (hload : load x m ram queue = .ok (some img))
    (hfull : FullReads x img) :
    (∀ ph ∈ x.segments, ∀ a, ph.vaddr ≤ a → a < ph.vaddr + ph.memsz → OnDemand x img ph a) ↔
      ∀ ph ∈ x.segments, ph.vaddr + ph.memsz ≤ stackUpage := by
  have hready := ready_of_load hload
  have hsize : pgSize = 4096 := rfl
  have hbase : physBase = 3221225472 := rfl
  have hstack : stackUpage = 3221221376 := rfl
  constructor
  · intro h ph hph
    by_contra hlong
    have huser := (hready.loaded ph hph).fits.user
    have hpos := (hready.loaded ph hph).fits.pos
    -- the first address of the segment in the page of the stack
    have hround : pgRoundDown (max ph.vaddr stackUpage) = stackUpage := by
      simp only [pgRoundDown, pgOfs, hsize]
      omega
    exact hready.not_onDemand hfull hph (Nat.le_max_left _ _) (by omega) hround
      (h ph hph _ (Nat.le_max_left _ _) (by omega))
  · intro h ph hph a hlo hhi
    have hle := h ph hph
    refine hready.onDemand hfull hph hlo hhi ?_
    simp only [pgRoundDown, pgOfs, hsize]
    omega

/-! ## Two executables -/

/-- The ELF header, and one program header, for 84 bytes at the start of the file and 16 zeros behind
    them. -/
def tinyElf (vaddr : List Byte) : List Byte :=
  [0x7f, 0x45, 0x4c, 0x46, 1, 1, 1] ++ replicate 9 0 ++ [2, 0, 3, 0, 1, 0, 0, 0] ++
    [0, 0, 0, 0, 52, 0, 0, 0] ++ replicate 8 0 ++ [52, 0, 32, 0, 1, 0, 0, 0, 0, 0, 0, 0] ++
    [1, 0, 0, 0, 0, 0, 0, 0] ++ vaddr ++ [0, 0, 0, 0] ++ [84, 0, 0, 0, 100, 0, 0, 0] ++
    [6, 0, 0, 0, 0, 0, 0, 0]

theorem tiny_onDevice (bytes : Nat → Byte) : OnDevice ⟨1, bytes⟩ ⟨0, 84⟩ := by
  refine ⟨by decide, fun pos h0 hl => ?_⟩
  have hl : pos < 84 := hl
  simp only [sectorSize]
  omega

/-- It is the one file on a device of one sector. -/
def Executable.tiny (vaddr : List Byte) : Executable where
  dev := { size := 1, bytes := fun k => (tinyElf vaddr).getD k 0 }
  inode := { start := 0, length := 84 }
  onDevice := tiny_onDevice _
  length_lt := by decide

def LoadMemory.ready : LoadMemory where
  pagedir := true
  opened := true
  bounce := true
  record _ := true
  rehash _ := true
  stackFrame := some 0xc0100000
  stackTable := true
  stackRecord := true
  espAddr := 0xc0200ff8

/-- A load, and whether its records ask for what the file has. -/
def loadsFully (x : Executable) (m : LoadMemory) : Bool :=
  match load x m (fun _ _ => 0) [] with
  | .ok (some img) => img.spt.elems.all fun pg =>
      0 ≤ pg.fileOffset ∧ transferred x.inode pg.pageReadBytes pg.fileOffset = pg.pageReadBytes
  | _ => false

theorem exists_load (h : loadsFully x m = true) :
    ∃ img, load x m (fun _ _ => 0) [] = .ok (some img) ∧ FullReads x img := by
  rw [loadsFully] at h
  split at h
  · rename_i img hload
    refine ⟨img, hload, fun pg hpg _ buf => ?_⟩
    obtain ⟨h0, hcount⟩ := of_decide_eq_true (all_eq_true.mp h pg hpg)
    have hread := inodeReadAt_eq x.onDevice buf pg.pageReadBytes h0 true
    rw [moved_true, hcount] at hread
    exact ⟨_, hread⟩
  · cases h

/-- **Under the stack**: a segment at `0xbffff000` is accepted, and its first byte is not brought in. -/
theorem segment_under_stack :
    ∃ img, load (.tiny [0x00, 0xf0, 0xff, 0xbf]) .ready (fun _ _ => 0) [] = .ok (some img) ∧
      FullReads (.tiny [0x00, 0xf0, 0xff, 0xbf]) img ∧
      ∃ ph ∈ (Executable.tiny [0x00, 0xf0, 0xff, 0xbf]).segments,
        ph.vaddr ≤ 0xbffff000 ∧ 0xbffff000 < ph.vaddr + ph.memsz ∧
        ¬ OnDemand (.tiny [0x00, 0xf0, 0xff, 0xbf]) img ph 0xbffff000 := by
  obtain ⟨img, hload, hfull⟩ := exists_load
    (show loadsFully (.tiny [0x00, 0xf0, 0xff, 0xbf]) .ready = true by decide +kernel)
  have hmem : (⟨1, 0, 0xbffff000, 84, 100, 6⟩ : Phdr) ∈
      (Executable.tiny [0x00, 0xf0, 0xff, 0xbf]).segments := by decide
  exact ⟨img, hload, hfull, _, hmem, by decide, by decide,
    (ready_of_load hload).not_onDemand hfull hmem (by decide) (by decide) (by decide)⟩

/-- An executable at `0x08048000`: the last byte of the file, and the zero behind it. -/
theorem demand_loading_tiny :
    ∃ img, load (.tiny [0x00, 0x80, 0x04, 0x08]) .ready (fun _ _ => 0) [] = .ok (some img) ∧
      OnDemand (.tiny [0x00, 0x80, 0x04, 0x08]) img ⟨1, 0, 0x08048000, 84, 100, 6⟩ 0x08048053 ∧
      OnDemand (.tiny [0x00, 0x80, 0x04, 0x08]) img ⟨1, 0, 0x08048000, 84, 100, 6⟩ 0x08048054 := by
  obtain ⟨img, hload, hfull⟩ := exists_load
    (show loadsFully (.tiny [0x00, 0x80, 0x04, 0x08]) .ready = true by decide +kernel)
  have hsegments : (Executable.tiny [0x00, 0x80, 0x04, 0x08]).segments =
      [⟨1, 0, 0x08048000, 84, 100, 6⟩] := by decide
  have hall := (demand_loading _ _ _ _ img hload hfull).mpr (by
    rw [hsegments]
    decide)
  exact ⟨img, hload, hall _ mem_cons_self _ (by decide) (by decide),
    hall _ mem_cons_self _ (by decide) (by decide)⟩

end Pintos.Vm.Elf
