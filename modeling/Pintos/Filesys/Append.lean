/-
  What `fsutil_append` leaves on the scratch device (`filesys/fsutil.c`).

  1. **Archives** — `HoldsFiles` says which files follow each other from a sector on: a header that is
     read as the file's, and its data, padded with zeros to whole sectors.

  2. **The copy loop** (`appendLoop_eq`) is one write: sectors of the file, and zeros behind its end.

  3. **One call** (`fsutilAppend_spec`) writes from `sector` on: the file, and one more sector, which
     is zeros but for its last byte.  Nothing before or behind is touched; so a sequence of calls
     leaves all the files, and the last call's marker (`fsutilAppends_spec`).
-/
import Pintos.Filesys.Contents
import Pintos.Filesys.Fsutil

namespace Pintos.Filesys

open Base Lib List

/-! ## Archives -/

/-- The number of sectors that the data of a file takes. -/
def dataSectors (length : Int) : Nat := ((length + sectorSize - 1) / sectorSize).toNat

/-- The number of sectors of the files, without the marker. -/
def archiveSectors : List FileData → Nat
  | [] => 0
  | f :: files => 1 + dataSectors f.length + archiveSectors files

/-- From the sector `s` on: the header of the file, and its data. -/
structure HoldsFile (d : Device) (s : Nat) (f : FileData) : Prop where
  header : ustarParseHeader (fun k => d.bytes (sectorSize * s + k)) =
    .ok { fileName := some f.name.chars, type := .regular, size := f.length }
  data : ∀ j < sectorSize * dataSectors f.length,
    d.bytes (sectorSize * (s + 1) + j) = if (j : Int) < f.length then f.bytes j else 0

/-- From the sector `s` on: these files, in order. -/
def HoldsFiles (d : Device) : Nat → List FileData → Prop
  | _, [] => True
  | s, f :: files => HoldsFile d s f ∧ HoldsFiles d (s + (1 + dataSectors f.length)) files

/-- **An archive**: these files from sector 0 on, and two sectors of zeros. -/
structure HoldsArchive (d : Device) (files : List FileData) : Prop where
  entries : HoldsFiles d 0 files
  marker : ∀ k < 2 * sectorSize, d.bytes (sectorSize * archiveSectors files + k) = 0

/-- Names that are archived as they are: no slash, and no dot in front. -/
structure Name.Archivable (name : Name) : Prop where
  nonempty : name.chars ≠ []
  length_le : name.chars.length ≤ nameMax
  noSlash : ascii '/' ∉ name.chars
  noDot : name.chars.head? ≠ some (ascii '.')

/-- There is memory for everything that an action allocates. -/
structure FsutilMemory.Ready (m : FsutilMemory) : Prop where
  buffer : m.buffer = true
  create : ∀ s, (m.create s).Ready
  opening : ∀ s, (m.opening s).Ready
  bounce : ∀ s, m.bounce s = true

def FsutilMemory.ready (behind : Byte) : FsutilMemory where
  buffer := true
  behind := behind
  create _ := .ready
  opening _ := .ready
  bounce _ := true

theorem FsutilMemory.ready_ready (behind : Byte) : (FsutilMemory.ready behind).Ready :=
  ⟨rfl, fun _ => Memory.ready_ready, fun _ => Memory.ready_ready, fun _ => rfl⟩

theorem Name.Archivable.strip {name : Name} (h : name.Archivable) :
    stripAntisocialPrefixes name.chars = name.chars := by
  refine strip_of_not (Bool.eq_false_iff.mpr fun hs => h.noSlash (slash_of_antisocial hs))
    h.nonempty fun hdots => h.noDot ?_
  rw [hdots]
  rfl

variable {d d' : Device} {s : Nat} {f : FileData}

theorem length_le_archiveSectors (files : List FileData) : files.length ≤ archiveSectors files := by
  induction files with
  | nil => exact le_refl 0
  | cons =>
    rw [length_cons, archiveSectors]
    omega

theorem HoldsFile.congr (h : HoldsFile d s f)
    (heq : ∀ b < sectorSize * (s + (1 + dataSectors f.length)), d'.bytes b = d.bytes b) :
    HoldsFile d' s f := by
  refine ⟨?_, fun j hj => ?_⟩
  · rw [← h.header]
    refine ustarParseHeader_congr fun i hi => heq _ ?_
    have hi : i < sectorSize := hi
    rw [mul_add, mul_add]
    omega
  · rw [← h.data j hj]
    refine heq _ ?_
    rw [← add_assoc, mul_add sectorSize (s + 1)]
    omega

/-! ## The copy loop -/

section Loop

variable {fs : Fs} {i : Inode} {bounce : Nat → Bool}

theorem copyChunk_eq (size : Int) : copyChunk size = min size sectorSize := by
  rw [copyChunk]
  split <;> omega

theorem dataSectors_chunk {size : Int} (h : 0 < size) :
    dataSectors size = 1 + dataSectors (size - copyChunk size) := by
  rw [copyChunk_eq]
  simp only [dataSectors, sectorSize]
  omega

theorem dataSectors_zero : dataSectors 0 = 0 := by decide

/-- If a chunk is not the last one, it is a whole sector. -/
theorem copyChunk_of_more (size : Int) (h : 0 < dataSectors (size - copyChunk size)) :
    copyChunk size = sectorSize := by
  rw [copyChunk_eq] at h ⊢
  simp only [dataSectors, sectorSize] at h ⊢
  omega

theorem transferred_chunk {size pos : Int} (h0 : 0 < size) (hlen : pos + size = i.data.length) :
    (transferred i.data (copyChunk size) pos : Int) = copyChunk size := by
  rw [transferred, copyChunk_eq]
  omega

/-- **The copy loop** writes the rest of the file, and zeros to the end of the last sector. -/
theorem appendLoop_eq (hd : OnDevice fs.dev i.data) (hb : ∀ s, bounce s = true) :
    ∀ (n : Nat) (dst : Device) (sector : Nat) (src : File) (buffer : Nat → Byte) {size : Int},
      fs.inode src.inode = .ok i → 0 ≤ src.pos → 0 ≤ size → src.pos + size = i.data.length →
      size.toNat ≤ n → sector + dataSectors size ≤ dst.size →
      appendLoop fs bounce n dst sector src buffer size =
        .ok (dst.put (sectorSize * sector) (sectorSize * dataSectors size) (fun k =>
            if (k : Int) < size then fs.dev.bytes (byteAt i.data src.pos + k) else 0),
          sector + dataSectors size, { src with pos := src.pos + size })
  | 0, dst, sector, src, buffer, size, _, _, h0, _, hn, _ => by
    obtain rfl : size = 0 := by omega
    rw [dataSectors_zero, mul_zero, Device.put, splice_zero, Int.add_zero]
    rfl
  | n + 1, dst, sector, src, buffer, size, hi, hpos, h0, hlen, hn, hroom => by
    rw [appendLoop]
    by_cases hsize : size > 0
    · have hstep := dataSectors_chunk hsize
      have hmore := copyChunk_of_more size
      have htrans := transferred_chunk hsize hlen
      have hchunk : 0 < copyChunk size ∧ copyChunk size ≤ size ∧ copyChunk size ≤ sectorSize ∧
          (copyChunk size < sectorSize → copyChunk size = size) := by
        rw [copyChunk_eq]
        simp only [sectorSize]
        omega
      rw [if_pos hsize, if_neg (by omega), hb sector, fileRead_eq hi hd hpos]
      generalize copyChunk size = chunk at hstep hmore htrans hchunk ⊢
      have htrans' : transferred i.data chunk src.pos = chunk.toNat := by omega
      show (if ((transferred i.data chunk src.pos : Nat) : Int) ≠ chunk then _ else _) = _
      rw [if_neg (not_not.mpr htrans), Device.blockWrite, if_pos (by omega)]
      -- the rest of the file, on the device that the sector has been written to
      refine Eq.trans (appendLoop_eq hd hb n _ (sector + 1) { src with pos := src.pos + _ } _ hi
        (by show 0 ≤ src.pos + _; omega) (by omega) (by show src.pos + _ + (size - chunk) = _; omega)
        (by omega) (by show sector + 1 + _ ≤ dst.size; omega)) ?_
      have haddr : byteAt i.data (src.pos + (transferred i.data chunk src.pos : Nat)) =
          byteAt i.data src.pos + chunk.toNat := by
        simp only [byteAt]
        omega
      have hfirst : ∀ k < sectorSize, splice (splice buffer 0 (transferred i.data chunk src.pos)
            fun k => fs.dev.bytes (byteAt i.data src.pos + k)) chunk.toNat
            (sectorSize - chunk.toNat) (fun _ => 0) k =
          if (k : Int) < size then fs.dev.bytes (byteAt i.data src.pos + k) else 0 := by
        intro k hk
        by_cases hin : k < chunk.toNat
        · rw [splice_of_not_mem (by omega), splice_of_mem (by omega), if_pos (by omega), Nat.sub_zero]
        · rw [splice_of_mem (by omega), if_neg (by omega)]
      have hrest : ∀ k < sectorSize * dataSectors (size - chunk), (if (k : Int) < size - chunk then
            fs.dev.bytes (byteAt i.data src.pos + chunk.toNat + k) else 0) =
          if ((sectorSize + k : Nat) : Int) < size then
            fs.dev.bytes (byteAt i.data src.pos + (sectorSize + k)) else 0 := by
        intro k hk
        have hc := hmore (Nat.pos_of_mul_pos_left (lt_of_le_of_lt (Nat.zero_le k) hk))
        rw [show chunk.toNat = sectorSize by omega, add_assoc]
        simp only [show (k : Int) < size - chunk ↔ ((sectorSize + k : Nat) : Int) < size by omega]
      simp only [haddr]
      rw [Device.put, Device.put, Device.put, splice_congr hfirst, mul_add sectorSize sector 1,
        mul_one, splice_congr hrest, splice_append, hstep, mul_add sectorSize 1, mul_one]
      congr 3
      · omega
      · simp only [File.mk.injEq, true_and, and_true]
        omega
    · obtain rfl : size = 0 := by omega
      rw [if_neg hsize, dataSectors_zero, mul_zero, Device.put, splice_zero, Int.add_zero]
      rfl

end Loop

/-! ## Calls -/

/-- What appending leaves on the device, from the sector `s` on: the files, and a sector of zeros but
    for its last byte. -/
structure Appended (d : Device) (s : Nat) (files : List FileData) (behind : Byte) (d' : Device) :
    Prop where
  size : d'.size = d.size
  before : ∀ b < sectorSize * s, d'.bytes b = d.bytes b
  after : ∀ b, sectorSize * (s + archiveSectors files + 1) ≤ b → d'.bytes b = d.bytes b
  entries : HoldsFiles d' s files
  marker : ∀ k < sectorSize, d'.bytes (sectorSize * (s + archiveSectors files) + k) =
    if k < sectorSize - 1 then 0 else behind

section Calls

variable {P : Prop} {refs : List Ref} {d₁ : Device} {behind : Byte}

/-- **Two sequences of calls**: the second overwrites the marker of the first. -/
theorem Appended.trans {files : List FileData} {last : Byte} (h1 : Appended d s [f] last d₁)
    (h2 : Appended d₁ (s + (1 + dataSectors f.length)) files behind d') :
    Appended d s (f :: files) behind d' := by
  have hsum : s + archiveSectors (f :: files) =
      s + (1 + dataSectors f.length) + archiveSectors files := (add_assoc ..).symm
  refine ⟨h2.size.trans h1.size, fun b hb => ?_, fun b hb => ?_, ?_, fun k hk => ?_⟩
  · rw [h2.before b (lt_of_lt_of_le hb (Nat.mul_le_mul_left _ (by omega))), h1.before b hb]
  · rw [hsum] at hb
    refine (h2.after b hb).trans (h1.after b (le_trans (Nat.mul_le_mul_left _ ?_) hb))
    rw [archiveSectors, archiveSectors]
    omega
  · exact ⟨h1.entries.1.congr h2.before, h2.entries⟩
  · rw [hsum]
    exact h2.marker k hk

/-- The header, the data and the marker, written one after the other. -/
theorem appended_put (d : Device) (s : Nat) (f : FileData) (behind : Byte) (header data : Nat → Byte)
    (hheader : ustarParseHeader header =
      .ok { fileName := some f.name.chars, type := .regular, size := f.length })
    (hdata : ∀ j < sectorSize * dataSectors f.length,
      data j = if (j : Int) < f.length then f.bytes j else 0) :
    Appended d s [f] behind (((d.put (sectorSize * s) sectorSize header).put (sectorSize * (s + 1))
      (sectorSize * dataSectors f.length) data).put (sectorSize * (s + 1 + dataSectors f.length))
      sectorSize fun k => if k < sectorSize - 1 then 0 else behind) := by
  have hsum : s + archiveSectors [f] = s + 1 + dataSectors f.length := by
    rw [archiveSectors, archiveSectors]
    omega
  have h1 : sectorSize * (s + 1) = sectorSize * s + sectorSize := by rw [mul_add, mul_one]
  have h2 : sectorSize * (s + 1 + dataSectors f.length) =
      sectorSize * (s + 1) + sectorSize * dataSectors f.length := mul_add ..
  refine ⟨rfl, fun b hb => ?_, fun b hb => ?_, ⟨⟨?_, fun j hj => ?_⟩, trivial⟩, fun k hk => ?_⟩
  · simp only [Device.put]
    rw [splice_of_not_mem (by omega), splice_of_not_mem (by omega), splice_of_not_mem (by omega)]
  · rw [hsum, mul_add _ _ 1, mul_one] at hb
    simp only [Device.put]
    rw [splice_of_not_mem (by omega), splice_of_not_mem (by omega), splice_of_not_mem (by omega)]
  · rw [← hheader]
    refine ustarParseHeader_congr fun i hi => ?_
    have hi : i < sectorSize := hi
    simp only [Device.put]
    rw [splice_of_not_mem (by omega), splice_of_not_mem (by omega), splice_of_mem (by omega),
      Nat.add_sub_cancel_left]
  · simp only [Device.put]
    rw [splice_of_not_mem (by omega), splice_of_mem (by omega), Nat.add_sub_cancel_left, hdata j hj]
  · rw [hsum]
    simp only [Device.put]
    rw [splice_of_mem (by omega), Nat.add_sub_cancel_left]

theorem makeHeader_eq {name : Name} (hname : name.Archivable) (size : Int) :
    makeHeader name size = .ok (madeHeader name.chars .regular size) := by
  have hlen := hname.length_le
  rw [nameMax] at hlen
  rw [makeHeader, ustarMakeHeader_eq (Or.inl rfl), hname.strip, if_neg (by omega)]

theorem blockWrite_eq (hs : s < d.size) (buffer : Nat → Byte) :
    d.blockWrite s buffer = .ok (d.put (sectorSize * s) sectorSize buffer) := if_pos hs

theorem writeMarker_eq (hs : s < d.size) (behind : Byte) :
    writeMarker d s behind = .ok (d.put (sectorSize * s) sectorSize
      fun k => if k < sectorSize - 1 then 0 else behind) := by
  have hmarker : ∀ k < sectorSize, (if 1 + k < sectorSize then 0 else behind) =
      if k < sectorSize - 1 then 0 else behind := by
    intro k hk
    simp only [show 1 + k < sectorSize ↔ k < sectorSize - 1 by omega]
  have hsecond := blockWrite_eq (d := d.put (sectorSize * s) sectorSize fun k =>
    if k < sectorSize then 0 else behind) hs fun k => if 1 + k < sectorSize then 0 else behind
  rw [Device.put, Device.put, splice_splice, splice_congr hmarker] at hsecond
  exact bind_of_ok (blockWrite_eq hs _) hsecond

/-- **`fsutil_append`** of a file that is there. -/
theorem fsutilAppend_spec {a : Fsutil} {m : FsutilMemory} (h : Consistent P a.fs refs)
    (hm : m.Ready) (hf : a.fs.Stores f) (hname : f.name.Archivable)
    (hroom : a.appendSector + archiveSectors [f] < a.scratch.size) :
    ∃ a', fsutilAppend a f.name m = .ok a' ∧ Consistent P a'.fs refs ∧ a'.fs.dev = a.fs.dev ∧
      a'.appendSector = a.appendSector + archiveSectors [f] ∧
      Appended a.scratch a.appendSector [f] m.behind a'.scratch := by
  have hsum : archiveSectors [f] = 1 + dataSectors f.length := rfl
  obtain ⟨k, hfind, hfile⟩ := (stores_iff h).mp hf
  have hholds := holds_of_find hfind
  obtain ⟨src, fs1, hopen, h₁, hdev, -, ho⟩ := filesysOpen_some h (hm.opening a.appendSector) hfind
  have hdisk : fs1.disk (entrySector (a.fs.entry k)) = a.fs.inodeOf k := disk_of_dev hdev _
  obtain ⟨i, hi, hdata, -⟩ := ho.inode_eq h₁
  have hlength := fileLength_eq h₁ ho
  rw [hdisk] at hdata hlength
  rw [hfile.length] at hlength
  have hd : OnDevice fs1.dev i.data := by
    rw [hdata, hdev]
    exact h.onDevice hholds
  obtain ⟨h0, h1⟩ := hf.lengthOk h
  have hheader : ustarParseHeader (madeHeader f.name.chars .regular f.length) =
      .ok { fileName := some f.name.chars, type := .regular, size := f.length } := by
    have hlen := hname.length_le
    rw [nameMax] at hlen
    exact parse_madeHeader f.name.nonzero (by omega) hname.strip (Or.inl rfl) ⟨h0, by omega⟩
  -- the header is written, then the copy, and then the marker
  have hmake := makeHeader_eq hname f.length
  generalize madeHeader f.name.chars .regular f.length = header at hheader hmake
  have hwrite := blockWrite_eq (show a.appendSector < a.scratch.size by omega) header
  have hloop := appendLoop_eq hd hm.bounce f.length.toNat
    (a.scratch.put (sectorSize * a.appendSector) sectorSize header) (a.appendSector + 1) src header hi
    (le_of_eq ho.pos.symm) h0 (by rw [ho.pos, hdata, hfile.length, zero_add])
    (le_refl _) (by show _ ≤ a.scratch.size; omega)
  rw [ho.pos] at hloop
  have hcopy : ∀ j < sectorSize * dataSectors f.length,
      (if (j : Int) < f.length then fs1.dev.bytes (byteAt i.data 0 + j) else 0) =
        if (j : Int) < f.length then f.bytes j else 0 := by
    intro j hj
    split
    · rw [hdev, hdata, hfile.bytes j ‹_›]
    · rfl
  have hmarker := writeMarker_eq (s := a.appendSector + 1 + dataSectors f.length)
    (d := (a.scratch.put (sectorSize * a.appendSector) sectorSize header).put
      (sectorSize * (a.appendSector + 1)) (sectorSize * dataSectors f.length) fun k =>
        if (k : Int) < f.length then fs1.dev.bytes (byteAt i.data 0 + k) else 0)
    (show _ < a.scratch.size by omega) m.behind
  have hlinked : fs1.Linked (entrySector (a.fs.entry k)) := by
    rw [Fs.Holds, ← entry_of_dev hdev] at hholds
    rw [← entry_of_dev hdev]
    exact ⟨k, hholds⟩
  have h₁' : Consistent P fs1 (File.ref { src with pos := 0 + f.length } :: refs) := h₁
  obtain ⟨fs2, hclose, h2, hdev2, -⟩ := fileClose_linked h₁' ho.denyWrite ho.inode hlinked
    (m.opening a.appendSector).mapInode (m.opening a.appendSector).mapData
  refine ⟨⟨fs2, _, a.extractSector, a.appendSector + 1 + dataSectors f.length⟩, ?_, h2,
    hdev2.trans hdev, add_assoc ..,
    appended_put a.scratch a.appendSector f m.behind header _ hheader hcopy⟩
  unfold fsutilAppend
  rw [if_pos hm.buffer]
  exact bind_of_ok hopen (bind_of_ok hlength (bind_of_ok hmake (bind_of_ok hwrite
    (bind_of_ok hloop (bind_of_ok hmarker (bind_of_ok hclose rfl))))))

/-- **A sequence of calls.** -/
theorem fsutilAppends_spec : ∀ {a : Fsutil} (calls : List (Name × FsutilMemory))
    (files : List FileData) (hne : calls ≠ []), Consistent P a.fs refs →
    files.map (·.name) = calls.map (·.1) → (∀ c ∈ calls, c.2.Ready) →
    (∀ f ∈ files, a.fs.Stores f ∧ f.name.Archivable) →
    a.appendSector + archiveSectors files < a.scratch.size →
    ∃ a', fsutilAppends a calls = .ok a' ∧ Consistent P a'.fs refs ∧
      Appended a.scratch a.appendSector files (calls.getLast hne).2.behind a'.scratch
  | _, [], _, hne, _, _, _, _, _ => absurd rfl hne
  | _, _ :: _, [], _, _, hmap, _, _, _ => by cases hmap
  | a, c :: calls, f :: files, hne, h, hmap, hready, hfiles, hroom => by
    obtain ⟨hc, hmap⟩ := cons.inj hmap
    have hc : f.name = c.1 := hc
    obtain ⟨hstores, hname⟩ := hfiles f mem_cons_self
    have hsum : archiveSectors (f :: files) = archiveSectors [f] + archiveSectors files := rfl
    obtain ⟨a1, heq, h1, hdev, hs, hone⟩ :=
      fsutilAppend_spec h (hready c mem_cons_self) hstores hname (by omega)
    rw [hc] at heq
    have hstep : fsutilAppends a (c :: calls) = fsutilAppends a1 calls := by
      unfold fsutilAppends
      rw [foldlM_cons, heq]
      rfl
    rw [hstep]
    by_cases hrest : calls = []
    · subst hrest
      obtain rfl := map_eq_nil_iff.mp hmap
      exact ⟨a1, rfl, h1, hone⟩
    · obtain ⟨a', heq', h', hall⟩ := fsutilAppends_spec calls files hrest h1 hmap
        (fun c' hc' => hready c' (mem_cons_of_mem _ hc'))
        (fun f' hf' => ⟨stores_of_dev h h1 hdev (hfiles f' (mem_cons_of_mem _ hf')).1,
          (hfiles f' (mem_cons_of_mem _ hf')).2⟩)
        (by rw [hs, hone.size]; omega)
      refine ⟨a', heq', h', ?_⟩
      rw [hs] at hall
      rw [getLast_cons hrest]
      exact hone.trans hall

end Calls
end Pintos.Filesys
