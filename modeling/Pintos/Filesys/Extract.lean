/-
  Archives and back (`filesys/fsutil.c`).

  1. **The copy loop** of `fsutil_extract` is one write to the file (`extractLoop_eq`).

  2. **Extracted files** — `Extracted fs files p`: the first entries are these files, no other is in
     use, and the first `p` sectors are.  Each entry of an archive adds one (`extractFile_spec`).

  3. **Round trip** (`archive_round_trip`) — appended files are extracted as they were, EXACTLY IF the
     byte behind the last buffer is zero and so is the sector after the one that the marker goes to.
-/
import Pintos.Filesys.Append
import Pintos.Filesys.Create
import Pintos.Filesys.Histories

namespace Pintos.Filesys

open Base Lib List FsutilMemory

/-! ## The copy loop -/

variable {src d : Device}

section Loop

variable {bounce : Nat → Bool} {i : Inode}

theorem blockRead_eq {s : Nat} (hs : s < d.size) :
    d.blockRead s = .ok fun k => d.bytes (sectorSize * s + k) := if_pos hs

/-- **The copy loop** writes the rest of the file. -/
theorem extractLoop_eq (hb : ∀ s, bounce s = true) (hdeny : i.denyWriteCnt = 0) :
    ∀ (n : Nat) (fs : Fs) (sector : Nat) (dst : File) {size : Int}, fs.inode dst.inode = .ok i →
      OnDevice fs.dev i.data → 0 ≤ dst.pos → 0 ≤ size → dst.pos + size = i.data.length →
      size.toNat ≤ n → sector + dataSectors size ≤ src.size →
      extractLoop src bounce n fs sector dst size =
        .ok (fs.put (byteAt i.data dst.pos) size.toNat (fun k => src.bytes (sectorSize * sector + k)),
          sector + dataSectors size, { dst with pos := dst.pos + size })
  | 0, fs, sector, dst, size, _, _, _, h0, _, hn, _ => by
    obtain rfl : size = 0 := by omega
    rw [dataSectors_zero, Int.add_zero, Fs.put, Device.put]
    simp only [Int.toNat_zero, splice_zero]
    rfl
  | n + 1, fs, sector, dst, size, hi, hd, hpos, h0, hlen, hn, hroom => by
    rw [extractLoop]
    by_cases hsize : size > 0
    · have hstep := dataSectors_chunk hsize
      have hmore := copyChunk_of_more size
      have htrans := transferred_chunk hsize hlen
      have hchunk : 0 < copyChunk size ∧ copyChunk size ≤ size ∧
          (copyChunk size < size → copyChunk size = sectorSize) := by
        rw [copyChunk_eq]
        simp only [sectorSize]
        omega
      rw [if_pos hsize, blockRead_eq (by omega), hb sector]
      generalize copyChunk size = chunk at hstep hmore htrans hchunk ⊢
      obtain ⟨hc0, hcs, hcfull⟩ := hchunk
      have htrans' : transferred i.data chunk dst.pos = chunk.toNat := by omega
      have hwrite := fileWrite_eq hi hdeny hd hpos (fun k => src.bytes (sectorSize * sector + k)) chunk
      rw [htrans'] at hwrite
      refine bind_of_ok rfl (bind_of_ok hwrite ((if_neg (by
        show ¬ dst.pos + (chunk.toNat : Int) - dst.pos ≠ chunk
        omega)).trans ?_))
      -- the rest of the file, in the file system that the sector has been written to
      refine Eq.trans (extractLoop_eq hb hdeny n (fs.put _ _ _) (sector + 1)
        { dst with pos := dst.pos + _ } hi hd (by show 0 ≤ dst.pos + _; omega) (by omega)
        (by show dst.pos + _ + (size - chunk) = _; omega) (by omega) (by omega)) ?_
      have haddr : byteAt i.data (dst.pos + (chunk.toNat : Int)) =
          byteAt i.data dst.pos + chunk.toNat := by
        simp only [byteAt]
        omega
      have hrest : ∀ k < (size - chunk).toNat, src.bytes (sectorSize * (sector + 1) + k) =
          src.bytes (sectorSize * sector + (chunk.toNat + k)) := by
        intro k hk
        rw [show chunk.toNat = sectorSize by omega, mul_add, mul_one, add_assoc]
      simp only [haddr]
      rw [Fs.put, Fs.put, Fs.put, Device.put, Device.put, Device.put, splice_congr hrest]
      simp only
      rw [splice_append fs.dev.bytes (byteAt i.data dst.pos) chunk.toNat (size - chunk).toNat
        fun k => src.bytes (sectorSize * sector + k),
        show chunk.toNat + (size - chunk).toNat = size.toNat by omega,
        show sector + 1 + dataSectors (size - chunk) = sector + dataSectors size by omega,
        show dst.pos + (chunk.toNat : Int) + (size - chunk) = dst.pos + size by omega]
    · obtain rfl : size = 0 := by omega
      rw [if_neg hsize, dataSectors_zero, Int.add_zero, Fs.put, Device.put]
      simp only [Int.toNat_zero, splice_zero]
      rfl

end Loop

/-! ## Extracted files -/

/-- The number of sectors that the files take in a file system. -/
def fileSectors : List FileData → Nat
  | [] => 0
  | f :: files => 1 + bytesToSectors f.length + fileSectors files

/-- The first entries are these files, no other entry is in use, and the first `p` sectors are. -/
structure Extracted (fs : Fs) (files : List FileData) (p : Nat) : Prop where
  consistent : Consistent True fs []
  entries : ∀ k f, files[k]? = some f → fs.FileAt k f
  used : fs.UsedTo files.length
  marks : fs.freeMap.UpTo p

variable {fs : Fs} {files : List FileData} {m : FsutilMemory}

section Extraction

variable {done : List FileData} {p s : Nat} {f : FileData} {name : Name}

theorem extracted_nil (h : Fresh fs) :
    ∃ p, Extracted fs [] p ∧ p + fs.freeMap.zeroCnt = fs.dev.size := by
  obtain ⟨p, hp⟩ := h.marks
  refine ⟨p, ⟨h.consistent, fun k f hf => by simp at hf, fun k hk => h.unused k hk, hp⟩, ?_⟩
  have hle := hp.1
  rw [hp.zeroCnt_eq, ← h.consistent.bitCnt]
  omega

theorem name_eq_of_chars {name' : Name} (h : name.chars = name'.chars) : name = name' := by
  cases name
  cases name'
  cases h
  rfl

section

variable (he : Extracted fs files p)
include he

/-- An entry in use is one of the files. -/
theorem Extracted.name_of_named {k : Nat} (hk : k < rootEntries)
    (hname : fs.Named name k) : ∃ f, files[k]? = some f ∧ f.name = name := by
  have huse := he.used k hk
  rw [hname.1] at huse
  have hlt : k < files.length := of_decide_eq_true huse.symm
  refine ⟨files[k], getElem?_eq_getElem hlt, name_eq_of_chars ?_⟩
  rw [← (he.entries k _ (getElem?_eq_getElem hlt)).named.2, hname.2]

theorem Extracted.find_none (hnew : ∀ f ∈ files, f.name ≠ name) : fs.find name = none := by
  refine find_eq_none.mpr fun k hk hname => ?_
  obtain ⟨f, hf, hfn⟩ := he.name_of_named hk hname
  exact hnew f (mem_of_getElem? hf) hfn

/-- **Each file is found**, if their names differ. -/
theorem Extracted.stores (hle : files.length ≤ rootEntries)
    (hdistinct : (files.map (·.name)).Nodup) (hf : f ∈ files) : fs.Stores f := by
  obtain ⟨k, hk, rfl⟩ := mem_iff_getElem.mp hf
  have hfile := he.entries k _ (getElem?_eq_getElem hk)
  refine (stores_iff he.consistent).mpr ⟨k, find_eq_some (by omega) hfile.named ?_, hfile⟩
  intro j hj hname
  obtain ⟨g, hg, hgn⟩ := he.name_of_named hj hname
  obtain ⟨hjl, rfl⟩ := List.getElem?_eq_some_iff.mp hg
  have hsize : (files.map (·.name)).length = files.length := length_map _
  have hsame : (files.map (·.name))[j] = (files.map (·.name))[k] := by
    rw [getElem_map, getElem_map, hgn]
  exact hdistinct.getElem_inj_iff.mp hsame

end

theorem lt_dataSectors {length : Int} {j : Nat} (hj : (j : Int) < length) :
    j < sectorSize * dataSectors length := by
  simp only [dataSectors, sectorSize]
  omega

/-- **A file of the archive** becomes the next file of the file system. -/
theorem extractFile_spec (he : Extracted fs done p) (hm : m.Ready) (hf : HoldsFile src s f)
    (hname : f.name.Archivable) (hlen : f.LengthOk) (hnew : ∀ g ∈ done, g.name ≠ f.name)
    (hslot : done.length < rootEntries) (hroom : p + (1 + bytesToSectors f.length) ≤ fs.dev.size)
    (hsrc : s + (1 + dataSectors f.length) ≤ src.size) :
    ∃ fs', extractFile fs src (s + 1) f.name f.length m =
        .ok (fs', s + (1 + dataSectors f.length)) ∧
      Extracted fs' (done ++ [f]) (p + (1 + bytesToSectors f.length)) ∧
      fs'.dev.size = fs.dev.size := by
  have hfind := he.find_none hnew
  -- the file is created
  obtain ⟨fs1, hcreate, h1, hmade, hp1⟩ := filesysCreate_ready he.consistent (hm.create (s + 1))
    hname.nonempty hname.length_le hfind hslot he.used hlen.1 hlen.2 he.marks (by omega)
  have hfind1 : fs1.find f.name = some done.length := by
    refine find_eq_some hslot hmade.named fun j hj hj' => ?_
    by_contra hne
    have hsame := hmade.entries j hj hne
    rw [Fs.Named, entryInUse_congr hsame, entryName_congr hsame] at hj'
    exact find_eq_none.mp hfind j hj hj'
  -- opened
  obtain ⟨dst, fs2, hopen, h2, hdev2, hmap2, ho⟩ := filesysOpen_some h1 (hm.opening (s + 1)) hfind1
  obtain ⟨i, hi, hdata, hdeny⟩ := ho.inode_eq h2
  have hdata : i.data = fs2.inodeOf done.length := by
    rw [hdata, Fs.inodeOf, entry_of_dev hdev2]
  have hlength : i.data.length = f.length := by
    rw [hdata, inodeOf_of_dev hdev2, hmade.length]
  have hholds : fs2.Holds (.entry done.length) (entrySector (fs2.entry done.length)) := by
    refine ⟨hslot, ?_, rfl⟩
    rw [entry_of_dev hdev2]
    exact hmade.named.1
  have hd : OnDevice fs2.dev i.data := by
    rw [hdata]
    exact h2.onDevice hholds
  -- and written
  have hloop := extractLoop_eq hm.bounce hdeny f.length.toNat fs2 (s + 1) dst hi hd
    (le_of_eq ho.pos.symm) hlen.1 (by rw [ho.pos, hlength, zero_add]) (le_refl _)
    (show s + 1 + dataSectors f.length ≤ src.size by omega)
  rw [ho.pos] at hloop
  have hin : Within (byteAt i.data 0) f.length.toNat (fs2.claims (.entry done.length, .body)) := by
    rw [hdata]
    have hmoved : f.length.toNat ≤ transferred (fs2.inodeOf done.length) f.length 0 := by
      rw [transferred, ← hdata, hlength]
      omega
    exact within_file hholds (le_refl 0) hmoved
  have hbody : ∀ r, fs2.claims (.entry done.length, .body) r → ∀ o, fs2.claims o r →
      o = (.entry done.length, .body) := fun r hr o hc => h2.owned.unique hc hr
  generalize hbuffer : (fun k => src.bytes (sectorSize * (s + 1) + k)) = buffer at hloop
  have hsame : SameFiles fs2 (fs2.put (byteAt i.data 0) f.length.toNat buffer) :=
    sameFiles_put h2 hin fun r hr o hc => by
      rw [hbody r hr o hc]
      exact ⟨rfl, Who.noConfusion⟩
  have h3 : Consistent True (fs2.put (byteAt i.data 0) f.length.toNat buffer)
      [File.ref { dst with pos := 0 + f.length }] := by
    refine h2.put hin fun r hr o hc => ?_
    rw [hbody r hr o hc]
    exact ⟨rfl, Who.noConfusion, Who.noConfusion⟩
  have hlinked : (fs2.put (byteAt i.data 0) f.length.toNat buffer).Linked
      (entrySector (fs1.entry done.length)) := by
    refine (hsame.linked _).mpr ⟨done.length, hslot, hholds.2.1, ?_⟩
    rw [entry_of_dev hdev2]
  obtain ⟨fs4, hclose, h4, hdev4, hmap4⟩ := fileClose_linked h3 ho.denyWrite ho.inode hlinked
    (m.opening (s + 1)).mapInode (m.opening (s + 1)).mapData
  refine ⟨fs4, ?_, ⟨h4, fun k g hg => ?_, fun k hk => ?_, ?_⟩, ?_⟩
  · rw [← add_assoc]
    exact bind_of_ok hcreate (bind_of_ok hopen (bind_of_ok hloop (bind_of_ok hclose rfl)))
  · refine Fs.FileAt.of_dev ?_ hdev4
    rcases lt_or_ge k done.length with hk | hk
    · -- a file that was there
      rw [getElem?_append_left hk] at hg
      have hold := hmade.files k (by omega) (by omega) g (he.entries k g hg)
      refine (hold.of_dev hdev2).put h2 (by omega) (fun hw => ?_) hin Who.noConfusion buffer
      have := Who.entry.inj hw
      omega
    · -- the new one
      rw [List.getElem?_append_right hk] at hg
      obtain ⟨hlt, hg⟩ := List.getElem?_eq_some_iff.mp hg
      obtain rfl : k = done.length := by
        rw [length_singleton] at hlt
        omega
      obtain rfl : f = g := by simpa using hg
      have hentry := hsame.entries done.length hslot
      have hinode3 : (fs2.put (byteAt i.data 0) f.length.toNat buffer).inodeOf done.length =
          i.data := by
        rw [Fs.inodeOf, entrySector_congr hentry, hsame.disk _ _ hholds, hdata, Fs.inodeOf]
      refine ⟨?_, by rw [hinode3, hlength], fun j hj => ?_⟩
      · rw [Fs.Named, entryInUse_congr hentry, entryName_congr hentry, entry_of_dev hdev2]
        exact hmade.named
      · rw [hinode3]
        refine (splice_of_mem (by omega)).trans ?_
        rw [Nat.add_sub_cancel_left, ← hbuffer]
        exact (hf.data j (lt_dataSectors hj)).trans (if_pos hj)
  · rw [entry_of_dev hdev4, entryInUse_congr (hsame.entries k hk), entry_of_dev hdev2,
      length_append, length_singleton]
    by_cases hkn : k = done.length
    · rw [hkn, hmade.named.1, decide_eq_true (by omega)]
    · rw [entryInUse_congr (hmade.entries k hk hkn), he.used k hk, decide_eq_decide]
      omega
  · rw [hmap4, ← add_assoc]
    show fs2.freeMap.UpTo _
    rwa [hmap2]
  · rw [hdev4]
    show fs2.dev.size = _
    rw [hdev2, hmade.devSize]

theorem readHeader_eq {r : Except String UstarEntry} (hs : s < src.size)
    (heq : ustarParseHeader (fun k => src.bytes (sectorSize * s + k)) = r) :
    readHeader src s = checkHeader r := by
  unfold readHeader
  rw [blockRead_eq hs, ok_bind, heq]

/-- **The loop over the headers** comes to the end of the files with all of them. -/
theorem extractEntries_files (hm : m.Ready) (n : Nat) : ∀ (files : List FileData)
    {done : List FileData} {fs : Fs} {p s : Nat}, Extracted fs done p → HoldsFiles src s files →
    (∀ f ∈ files, f.name.Archivable ∧ f.LengthOk) → ((done ++ files).map (·.name)).Nodup →
    (done ++ files).length ≤ rootEntries → p + fileSectors files ≤ fs.dev.size →
    s + archiveSectors files ≤ src.size →
    ∃ fs', extractEntries src m (n + files.length) fs s =
        extractEntries src m n fs' (s + archiveSectors files) ∧
      Extracted fs' (done ++ files) (p + fileSectors files)
  | [], done, fs, p, s, he, _, _, _, _, _, _ => ⟨fs, rfl, by rwa [append_nil]⟩
  | f :: files, done, fs, p, s, he, hholds, hfiles, hdistinct, hle, hroom, hsrc => by
    obtain ⟨hfile, hholds⟩ := hholds
    obtain ⟨hname, hlen⟩ := hfiles f mem_cons_self
    rw [archiveSectors] at hsrc ⊢
    rw [fileSectors] at hroom ⊢
    have hnew : ∀ g ∈ done, g.name ≠ f.name := by grind
    rw [length_append, length_cons] at hle
    obtain ⟨fs1, heq, he1, hsize⟩ := extractFile_spec he hm hfile hname hlen hnew (by omega)
      (by omega) (by omega)
    have happend : done ++ f :: files = done ++ [f] ++ files := by grind
    rw [happend] at hdistinct ⊢
    obtain ⟨fs', heq', he'⟩ := extractEntries_files hm n files he1 hholds
      (fun g hg => hfiles g (mem_cons_of_mem _ hg)) hdistinct
      (by rw [length_append, length_append, length_singleton]; omega)
      (by rw [hsize]; omega) (by omega)
    rw [add_assoc s] at heq'
    rw [add_assoc p] at he'
    refine ⟨fs', ?_, he'⟩
    rw [← heq', length_cons, ← add_assoc n]
    have hname : Name.ofChars f.name.chars = f.name :=
      name_eq_of_chars (cString_of_nonzero f.name.nonzero)
    rw [← hname] at heq
    exact bind_of_ok (readHeader_eq (show s < src.size by omega) hfile.header) (bind_of_ok heq rfl)

end Extraction

/-! ## Round trip -/

/-- There are entries and sectors for the files. -/
def Fs.HasRoom (fs : Fs) (files : List FileData) : Prop :=
  files.length ≤ rootEntries ∧ fileSectors files ≤ fs.freeMap.zeroCnt

instance (fs : Fs) (files : List FileData) : Decidable (fs.HasRoom files) :=
  inferInstanceAs (Decidable (_ ∧ _))

/-- A program finds these files, and no others. -/
structure Fs.StoresExactly (fs : Fs) (files : List FileData) : Prop where
  stored : ∀ f ∈ files, fs.Stores f
  only : ∀ name, (∀ f ∈ files, f.name ≠ name) → contents fs name = .ok none

section RoundTrip

variable {P : Prop} {fs₀ : Fs} {refs : List Ref} {scratch dev : Device} {b : BootMemory}

section

variable (h : Fresh fs) (hm : m.Ready) (hfiles : ∀ f ∈ files, f.name.Archivable ∧ f.LengthOk)
  (hdistinct : (files.map (·.name)).Nodup) (hroom : fs.HasRoom files)
  (hsize : archiveSectors files + 2 ≤ scratch.size)
include h hm hfiles hdistinct hroom hsize

/-- **The files of an archive** are extracted into a new file system, and the marker is read. -/
theorem extractEntries_fresh (hholds : HoldsFiles scratch 0 files) :
    ∃ n fs', extractEntries scratch m (scratch.size + 1) fs 0 =
        extractEntries scratch m (n + 1) fs' (archiveSectors files) ∧
      ∃ p, Extracted fs' files p := by
  obtain ⟨p, he, hp⟩ := extracted_nil h
  have hlen := length_le_archiveSectors files
  obtain ⟨fs', heq, he'⟩ := extractEntries_files hm (scratch.size - files.length + 1) files he hholds
    hfiles hdistinct hroom.1 (by have := hroom.2; omega) (by omega)
  refine ⟨scratch.size - files.length, fs', ?_, _, he'⟩
  rw [zero_add] at heq
  rw [← heq]
  congr 1
  omega

/-- **`fsutil_extract`** of an archive, into a new file system. -/
theorem fsutilExtract_spec (harchive : HoldsArchive scratch files) :
    ∃ a, fsutilExtract ⟨fs, scratch, 0, 0⟩ m = .ok a ∧ a.fs.StoresExactly files := by
  obtain ⟨n, fs', heq, p, he'⟩ :=
    extractEntries_fresh h hm hfiles hdistinct hroom hsize harchive.entries
  have hend : extractEntries scratch m (n + 1) fs' (archiveSectors files) =
      .ok (fs', archiveSectors files + 1) :=
    bind_of_ok (readHeader_eq (by omega) (ustarParseHeader_zero fun k hk =>
      harchive.marker k (by have hk : k < sectorSize := hk; omega))) rfl
  rw [hend] at heq
  have hfirst := blockWrite_eq (show 0 < scratch.size by omega) fun _ => 0
  have hsecond := blockWrite_eq (d := scratch.put (sectorSize * 0) sectorSize fun _ => 0)
    (show 1 < scratch.size by omega) fun _ => 0
  have hrun : ∃ d s, fsutilExtract ⟨fs, scratch, 0, 0⟩ m = .ok ⟨fs', d, s, 0⟩ := by
    unfold fsutilExtract
    rw [if_pos hm.buffer]
    exact ⟨_, _, bind_of_ok heq (bind_of_ok hfirst (bind_of_ok hsecond rfl))⟩
  obtain ⟨d, s, hrun⟩ := hrun
  refine ⟨_, hrun, ⟨fun f hf => he'.stores hroom.1 hdistinct hf, fun name hname => ?_⟩⟩
  rw [contents_find he'.consistent, he'.find_none hname]
  rfl

/-- **A marker that ends in another byte** is not taken for one. -/
theorem fsutilExtract_panic {behind : Byte}
    (happended : Appended d 0 files behind scratch) (hbehind : behind ≠ 0) :
    fsutilExtract ⟨fs, scratch, 0, 0⟩ m = .error .panic := by
  obtain ⟨n, fs', heq, -⟩ :=
    extractEntries_fresh h hm hfiles hdistinct hroom hsize happended.entries
  have hmarker := happended.marker
  rw [zero_add] at hmarker
  have hparse : ustarParseHeader (fun k => scratch.bytes (sectorSize * archiveSectors files + k)) =
      .error "not a ustar archive" := by
    refine ustarParseHeader_no_magic (i := sectorSize - 1) (by decide) ?_ ?_
    · rwa [hmarker _ (by decide), if_neg (lt_irrefl _)]
    · rw [hmarker _ (by decide), if_pos (by decide)]
  have hread : readHeader scratch (archiveSectors files) = .error .panic :=
    readHeader_eq (by omega) hparse
  rw [fsutilExtract, if_pos hm.buffer, heq, extractEntries, hread]
  rfl

end

/-- **To the scratch device and back.**  Files that are appended one after the other are on the device
    as an archive, and are extracted from there into a new file system, EXACTLY IF the byte of memory
    behind the buffer of the last call is zero, and the sector after the one that the marker goes to
    was zeros before. -/
theorem archive_round_trip (h : Consistent P fs refs) (scratch : Device)
    (calls : List (Name × FsutilMemory)) (hne : calls ≠ []) (files : List FileData)
    (hcalls : files.map (·.name) = calls.map (·.1)) (hready : ∀ c ∈ calls, c.2.Ready)
    (hfiles : ∀ f ∈ files, fs.Stores f ∧ f.name.Archivable) (hdistinct : (files.map (·.name)).Nodup)
    (hsize : archiveSectors files + 2 ≤ scratch.size) (hdev : dev.size < 4294967296)
    (hinit : filesysInit dev true b = .ok fs₀) (hroom : fs₀.HasRoom files) (m : FsutilMemory)
    (hm : m.Ready) :
    (∃ a a', fsutilAppends ⟨fs, scratch, 0, 0⟩ calls = .ok a ∧ HoldsArchive a.scratch files ∧
      fsutilExtract ⟨fs₀, a.scratch, 0, 0⟩ m = .ok a' ∧ a'.fs.StoresExactly files) ↔
    (calls.getLast hne).2.behind = 0 ∧
      ∀ k < sectorSize, scratch.bytes (sectorSize * (archiveSectors files + 1) + k) = 0 := by
  obtain ⟨a, heq, -, happended⟩ :=
    fsutilAppends_spec (a := ⟨fs, scratch, 0, 0⟩) calls files hne h hcalls hready hfiles
      (show 0 + archiveSectors files < scratch.size by omega)
  have hmarker := happended.marker
  have hafter := happended.after
  simp only [zero_add] at hmarker hafter
  -- the second sector of the marker is where it was
  have hsecond : ∀ k < sectorSize,
      a.scratch.bytes (sectorSize * archiveSectors files + (sectorSize + k)) =
        scratch.bytes (sectorSize * (archiveSectors files + 1) + k) := by
    intro k hk
    rw [← add_assoc, ← Nat.mul_succ]
    exact hafter _ (Nat.le_add_right _ k)
  constructor
  · rintro ⟨a₁, -, heq₁, harchive, -⟩
    cases heq.symm.trans heq₁
    refine ⟨?_, fun k hk => ?_⟩
    · have hlast := harchive.marker (sectorSize - 1) (by decide)
      rwa [hmarker _ (by decide), if_neg (lt_irrefl _)] at hlast
    · rw [← hsecond k hk]
      exact harchive.marker _ (by omega)
  · rintro ⟨hbehind, hzero⟩
    have harchive : HoldsArchive a.scratch files := by
      refine ⟨happended.entries, fun k hk => ?_⟩
      by_cases hfirst : k < sectorSize
      · rw [hmarker k hfirst, hbehind, ite_self]
      · rw [show k = sectorSize + (k - sectorSize) by omega, hsecond _ (by omega)]
        exact hzero _ (by omega)
    obtain ⟨a', heq', hstores⟩ := fsutilExtract_spec (filesysInit_fresh hdev hinit) hm
      (fun f hf => ⟨(hfiles f hf).2, (hfiles f hf).1.lengthOk h⟩) hdistinct hroom
      (by rwa [happended.size]) harchive
    exact ⟨a, a', heq, harchive, heq', hstores⟩

end RoundTrip

def nameB : Name := ⟨[98], by decide⟩

def fileA : FileData := ⟨nameA, 5, fun _ => 1⟩

def fileB : FileData := ⟨nameB, 3, fun _ => 2⟩

def makeFiles : List Call := [.filesysCreate nameA 5 .ready, .filesysOpen nameA .ready,
    .fileWrite ⟨7, 6, 0, false⟩ (fun _ => 1) 5 true, .fileClose ⟨7, 6, 5, false⟩ .ready,
    .filesysCreate nameB 3 .ready, .filesysOpen nameB .ready,
    .fileWrite ⟨11, 10, 0, false⟩ (fun _ => 2) 3 true]

/-- A file system with the two files, and another one with room for them. -/
theorem exists_files : ∃ fs fs₀ refs, Consistent False fs refs ∧
    (∀ f ∈ [fileA, fileB], fs.Stores f ∧ f.name.Archivable) ∧
    filesysInit (blank 10) true .ready = .ok fs₀ ∧ fs₀.HasRoom [fileA] ∧
    fs₀.HasRoom [fileA, fileB] := by
  obtain ⟨fs, tr, s, hinit, hrun, hp⟩ := exists_history machine (blank 10) .ready makeFiles
    (fun s => decide (s.fs.Stores fileA ∧ s.fs.Stores fileB)) (by decide)
  obtain ⟨fs₀, hinit0, hroom⟩ := exists_ok_of_any
    (show (filesysInit (blank 10) true .ready).toOption.any
      (fun fs => decide (fs.HasRoom [fileA] ∧ fs.HasRoom [fileA, fileB])) = true by decide)
  obtain ⟨hA, hB⟩ := of_decide_eq_true hp
  refine ⟨s.fs, fs₀, _, (sysOk_of_run (by decide) hinit hrun).consistent, ?_, hinit0,
    of_decide_eq_true hroom⟩
  simp only [forall_mem_cons]
  exact ⟨⟨hA, by decide, by decide, by decide, by decide⟩,
    ⟨hB, by decide, by decide, by decide, by decide⟩, forall_mem_nil _⟩

/-- On a scratch device of zeros, with a zero behind the buffer. -/
theorem archive_round_trip_two : ∃ fs fs₀ a a',
    (∀ f ∈ [fileA, fileB], fs.Stores f ∧ f.name.Archivable) ∧
    filesysInit (blank 10) true .ready = .ok fs₀ ∧
    fsutilAppends ⟨fs, blank 6, 0, 0⟩ [(nameA, .ready 0), (nameB, .ready 0)] = .ok a ∧
    HoldsArchive a.scratch [fileA, fileB] ∧
    fsutilExtract ⟨fs₀, a.scratch, 0, 0⟩ (.ready 0) = .ok a' ∧
    a'.fs.StoresExactly [fileA, fileB] := by
  obtain ⟨fs, fs₀, refs, h, hfiles, hinit₀, -, hroom⟩ := exists_files
  have hready : ∀ c ∈ [(nameA, ready 0), (nameB, ready 0)], c.2.Ready := by
    simp [ready_ready]
  obtain ⟨a, a', happend, harchive, hextract, hexactly⟩ :=
    (archive_round_trip h (blank 6) [(nameA, .ready 0), (nameB, .ready 0)] (by simp)
      [fileA, fileB] rfl hready hfiles (by decide) (by decide) (by decide) hinit₀ hroom (.ready 0)
      (ready_ready 0)).mpr ⟨rfl, fun _ _ => rfl⟩
  exact ⟨fs, fs₀, a, a', hfiles, hinit₀, happend, harchive, hextract, hexactly⟩

/-- **The marker is one sector**: on a device that is not zeros, old data follows it; and with another
    byte behind the buffer it is not taken for a marker. -/
theorem marker_one_sector : ∃ fs fs₀ a, fs.Stores fileA ∧
    filesysInit (blank 10) true .ready = .ok fs₀ ∧ fs₀.HasRoom [fileA] ∧
    fsutilAppends ⟨fs, ⟨4, fun _ => 255⟩, 0, 0⟩ [(nameA, .ready 204)] = .ok a ∧
    a.scratch.bytes (sectorSize * 3) = 255 ∧ ¬ HoldsArchive a.scratch [fileA] ∧
    fsutilExtract ⟨fs₀, a.scratch, 0, 0⟩ (.ready 0) = .error .panic := by
  obtain ⟨fs, fs₀, refs, h, hboth, hinit₀, hroom, -⟩ := exists_files
  have hfiles : ∀ f ∈ [fileA], fs.Stores f ∧ f.name.Archivable :=
    fun f hf => hboth f (mem_cons.mpr (.inl (mem_singleton.mp hf)))
  obtain ⟨a, happend, -, happended⟩ := fsutilAppends_spec (a := ⟨fs, ⟨4, fun _ => 255⟩, 0, 0⟩)
    [(nameA, .ready 204)] [fileA] (by simp) h rfl
    (fun c hc => by rw [mem_singleton.mp hc]; exact ready_ready 204) hfiles
    (show 0 + archiveSectors [fileA] < 4 by decide)
  have hold : a.scratch.bytes (sectorSize * 3) = 255 :=
    happended.after _ (show sectorSize * (0 + archiveSectors [fileA] + 1) ≤ sectorSize * 3 by decide)
  refine ⟨fs, fs₀, a, (hfiles fileA (by simp)).1, hinit₀, hroom, happend, hold, fun harchive => ?_,
    ?_⟩
  · have hzero : a.scratch.bytes (sectorSize * 3) = 0 := harchive.marker 512 (by decide)
    rw [hold] at hzero
    cases hzero
  · exact fsutilExtract_panic (filesysInit_fresh (by decide) hinit₀) (ready_ready 0)
      (fun f hf => ⟨(hfiles f hf).2, (hfiles f hf).1.lengthOk h⟩) (by decide) hroom
      (by rw [happended.size]; exact (show archiveSectors [fileA] + 2 ≤ 4 by decide)) happended
      (by decide)

end Pintos.Filesys
