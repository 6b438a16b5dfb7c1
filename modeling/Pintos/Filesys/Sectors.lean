/-
  Who owns the sectors of the disk (`filesys/inode.c`, `filesys/free-map.c`).

  1. **Files** — the free map, the root directory, the file of each directory entry in use, and each
     open inode that no entry names any more (`Who`).  The sector of its inode and the extent of its
     data are its two parts, and each part OWNS its sectors.

  2. **The invariant (`Consistent`)** — what is owned is marked in the free map, and has one owner;
     an open inode is as on the disk, and its `open_cnt` is the number of references to it.

  3. **The free map on the disk** is the one in memory, as long as its writes succeed (`synced`).

  4. **Frames** — a write to the body of a file, or to sectors that nobody owns, leaves all files as
     they are (`Consistent.frame`, `sameFiles_put`).
-/
import Mathlib.Data.List.Nodup
import Pintos.Base.Ownership
import Pintos.Filesys.Filesys

namespace Pintos.Filesys

open Base Lib List Fs InodeDisk

/-! ## Files and their sectors -/

inductive Who where
  | map
  | root
  /-- The file of the directory entry `k`. -/
  | entry (k : Nat)
  /-- The file of an open inode that has no entry. -/
  | opened (id : Nat)
  deriving DecidableEq

inductive Part where
  | head
  | body
  deriving DecidableEq

/-- The sectors of the extent. -/
def InodeDisk.Has (i : InodeDisk) (s : Nat) : Prop :=
  i.start ≤ s ∧ s < i.start + bytesToSectors i.length

namespace Fs

/-- The inode in the sector `x` of the disk. -/
def disk (fs : Fs) (x : Nat) : InodeDisk :=
  InodeDisk.decode fun k => fs.dev.bytes (sectorSize * x + k)

/-- The entry `k` of the root directory. -/
def entry (fs : Fs) (k : Nat) : Nat → Byte :=
  fun j => fs.dev.bytes (sectorSize * (fs.disk rootDirSector).start + entrySize * k + j)

/-- An entry in use names the sector. -/
def Linked (fs : Fs) (x : Nat) : Prop :=
  ∃ k < rootEntries, entryInUse (fs.entry k) = true ∧ entrySector (fs.entry k) = x

/-- The sector of the inode of a file. -/
def Holds (fs : Fs) : Who → Nat → Prop
  | .map, x => x = freeMapSector
  | .root, x => x = rootDirSector
  | .entry k, x => k < rootEntries ∧ entryInUse (fs.entry k) = true ∧ entrySector (fs.entry k) = x
  | .opened id, x => (∃ i ∈ fs.openInodes, i.id = id ∧ i.sector = x) ∧ x ≠ freeMapSector ∧
      x ≠ rootDirSector ∧ ¬ fs.Linked x

/-- The sectors of the parts of files. -/
def claims (fs : Fs) : Who × Part → Nat → Prop
  | (w, .head), s => fs.Holds w s
  | (w, .body), s => ∃ x, fs.Holds w x ∧ (fs.disk x).Has s

def used (fs : Fs) (s : Nat) : Prop := s < fs.dev.size ∧ fs.freeMap.bit s = true

/-- A sector that is marked and that nobody owns: one that a call has just allocated. -/
def Spare (fs : Fs) (s : Nat) : Prop := fs.used s ∧ ∀ o, ¬ fs.claims o s

/-- The bit `k` of the free map's file. -/
def mapBit (fs : Fs) (k : Nat) : Bool :=
  (fs.dev.bytes (sectorSize * (fs.disk freeMapSector).start + k / 8)).getLsbD (k % 8)

/-- The free map on the disk is the one in memory. -/
def Synced (fs : Fs) : Prop := ∀ k < fs.dev.size, fs.mapBit k = fs.freeMap.bit k

/-- The inode that the free map's file refers to. -/
def mapRefs (fs : Fs) : List Nat := fs.freeMapFile.toList.map (·.inode)

end Fs

/-- A reference to an open inode: a file's, or a directory's. -/
structure Ref where
  inode : Nat
  dir : Bool
  deriving DecidableEq

/-- Directories are the root directory, and files are neither that nor the free map. -/
def Ref.At (r : Ref) (x : Nat) : Prop :=
  if r.dir then x = rootDirSector else x ≠ freeMapSector ∧ x ≠ rootDirSector

/-- An open inode is as on the disk, is counted right, and if it is removed has no entry. -/
structure OpenOk (fs : Fs) (refs : List Ref) (i : Inode) : Prop where
  data : i.data = fs.disk i.sector
  deny : i.denyWriteCnt = 0
  id_lt : i.id < fs.nextId
  count : i.openCnt = (fs.mapRefs ++ refs.map (·.inode)).count i.id
  pos : 0 < i.openCnt
  removed : i.removed = true →
    i.sector ≠ freeMapSector ∧ i.sector ≠ rootDirSector ∧ ¬ fs.Linked i.sector

/-- **The invariant**, with references `refs` besides the free map's. -/
structure Consistent (P : Prop) (fs : Fs) (refs : List Ref) : Prop where
  bitCnt : fs.freeMap.bitCnt = fs.dev.size
  size_lt : fs.dev.size < 4294967296
  mapLength : (fs.disk freeMapSector).length = byteCnt fs.dev.size
  rootLength : (fs.disk rootDirSector).length = (rootEntries * entrySize : Nat)
  extents : ∀ w x, fs.Holds w x → 0 ≤ (fs.disk x).length ∧
    (fs.disk x).start + bytesToSectors (fs.disk x).length ≤ fs.dev.size
  owned : Owned fs.used fs.claims
  mapFile : ∃ f, fs.freeMapFile = some f ∧ f.denyWrite = false ∧
    ∃ i ∈ fs.openInodes, i.id = f.inode ∧ i.sector = freeMapSector
  opened : ∀ i ∈ fs.openInodes, OpenOk fs refs i
  sectors : (fs.openInodes.map (·.sector)).Nodup
  ids : (fs.openInodes.map (·.id)).Nodup
  refs : ∀ r ∈ refs, ∃ i ∈ fs.openInodes, i.id = r.inode ∧ r.At i.sector
  synced : P → fs.Synced

/-! ## Records -/

theorem InodeDisk.decode_congr {f g : Nat → Byte} (h : ∀ k < 8, f k = g k) :
    InodeDisk.decode f = InodeDisk.decode g := by
  rw [decode, decode, le32_congr (a := 0) fun k hk => h _ (by omega),
    le32_congr (a := 4) fun k hk => h _ (by omega)]

theorem InodeDisk.decode_encode {i : InodeDisk} (hs : i.start < 4294967296)
    (h0 : -2147483648 ≤ i.length) (h1 : i.length < 2147483648) {f : Nat → Byte}
    (h : ∀ k < 8, f k = i.encode k) : InodeDisk.decode f = i := by
  have hstart : le32 f 0 = i.start := by
    refine le32_encode hs fun k hk => ?_
    rw [zero_add, h k (by omega), encode, if_pos hk]
  have hlength : le32 f 4 = (i.length % 4294967296).toNat := by
    refine le32_encode (by omega) fun k hk => ?_
    rw [h _ (by omega), encode, if_neg (by omega), if_pos (by omega),
      show 4 + k - 4 = k by omega]
  rw [decode, hstart, hlength, signed32_emod h0 h1]

variable {fs fs' : Fs} {e e' : Nat → Byte}

theorem disk_of_dev (hdev : fs'.dev = fs.dev) (x : Nat) : fs'.disk x = fs.disk x := by
  rw [disk, hdev, disk]

theorem entry_of_dev (hdev : fs'.dev = fs.dev) (k : Nat) : fs'.entry k = fs.entry k := by
  unfold entry
  rw [disk_of_dev hdev, hdev]

theorem Fs.disk_length_lt (fs : Fs) (x : Nat) : (fs.disk x).length < 2147483648 :=
  (signed32_bounds (le32_lt _ _)).2

/-- Every byte of a file is in a sector of its extent, though the number of sectors may wrap. -/
theorem div_lt_bytesToSectors {length pos : Int} (hl : length < 2147483648) (h0 : 0 ≤ pos)
    (hp : pos < length) : (pos / sectorSize).toNat < bytesToSectors length := by
  simp only [bytesToSectors, wrap32, sectorSize]
  by_cases hw : length ≤ 2147483136
  · rw [show (length + (512 : Nat) - 1 + 2147483648) % 4294967296 - 2147483648 = length + 511 by
      omega, Int.tdiv_eq_ediv_of_nonneg (by omega)]
    omega
  · have hneg : (length + (512 : Nat) - 1 + 2147483648) % 4294967296 - 2147483648 =
        -(4294966785 - length) := by omega
    rw [hneg, Int.neg_tdiv, Int.tdiv_eq_ediv_of_nonneg (by omega)]
    omega

theorem bytesToSectors_root : bytesToSectors (rootEntries * entrySize : Nat) = 1 := by decide

variable {k : Nat}

theorem entry_addr {x j : Nat} (hk : k < rootEntries) (hj : j < entrySize) :
    (sectorSize * x + entrySize * k + j) / sectorSize = x := by
  simp only [sectorSize, rootEntries, entrySize] at *
  omega

theorem sector_addr {x : Nat} (hk : k < sectorSize) : (sectorSize * x + k) / sectorSize = x := by
  simp only [sectorSize] at *
  omega

section

variable (h : ∀ j < entrySize, e j = e' j)
include h

theorem entryInUse_congr : entryInUse e = entryInUse e' := by
  rw [entryInUse, entryInUse, h 19 (by decide)]

theorem entrySector_congr : entrySector e = entrySector e' :=
  le32_congr fun k hk => h _ (by simp only [entrySize]; omega)

theorem entryName_congr : entryName e = entryName e' := by
  unfold entryName
  refine congrArg _ (map_congr_left fun k hk => h _ ?_)
  have hlt := mem_range.mp hk
  simp only [nameMax, entrySize] at *
  omega

end

/-- The sectors of the parts, where no more inodes are held than before. -/
theorem claims_of_holds (hholds : ∀ w x, fs'.Holds w x → fs.Holds w x)
    (hdisk : ∀ w x, fs'.Holds w x → fs'.disk x = fs.disk x) (o : Who × Part) (s : Nat)
    (hc : fs'.claims o s) : fs.claims o s := by
  obtain ⟨w, p⟩ := o
  cases p with
  | head => exact hholds w s hc
  | body =>
    obtain ⟨x, hx, hs⟩ := hc
    exact ⟨x, hholds w x hx, by rwa [← hdisk w x hx]⟩

/-! ## What the invariant gives -/

theorem onDevice_of_extent {x : Nat} (h0 : 0 ≤ (fs.disk x).length)
    (hle : (fs.disk x).start + bytesToSectors (fs.disk x).length ≤ fs.dev.size) :
    OnDevice fs.dev (fs.disk x) := by
  refine ⟨h0, fun pos hpos hp => ?_⟩
  have hlt := div_lt_bytesToSectors (fs.disk_length_lt x) hpos hp
  omega

/-- The inode of an open file belongs to some file. -/
theorem Fs.held {i : Inode} (hi : i ∈ fs.openInodes) : ∃ w, fs.Holds w i.sector := by
  by_cases h0 : i.sector = freeMapSector
  · exact ⟨.map, h0⟩
  by_cases h1 : i.sector = rootDirSector
  · exact ⟨.root, h1⟩
  by_cases hl : fs.Linked i.sector
  · obtain ⟨k, hk, hu, hx⟩ := hl
    exact ⟨.entry k, hk, hu, hx⟩
  · exact ⟨.opened i.id, ⟨i, hi, rfl, rfl⟩, h0, h1, hl⟩

variable {P : Prop} {refs : List Ref}

namespace Consistent

variable {w w' : Who} {x s : Nat} {i j : Inode}

section

variable (h : Consistent P fs refs)
include h

theorem lt_of_claim {o : Who × Part} (hc : fs.claims o s) :
    s < fs.dev.size := (h.owned.used_of_claim hc).1

theorem onDevice (hw : fs.Holds w x) : OnDevice fs.dev (fs.disk x) :=
  onDevice_of_extent (h.extents w x hw).1 (h.extents w x hw).2

theorem who_eq (hw : fs.Holds w x) (hw' : fs.Holds w' x) : w = w' :=
  congrArg Prod.fst (h.owned.unique (show fs.claims (w, .head) x from hw)
    (show fs.claims (w', .head) x from hw'))

theorem not_body_of_holds (hw : fs.Holds w x) : ¬ fs.claims (w', .body) x := by
  intro hb
  cases h.owned.unique (o := (w, .head)) hw hb

theorem eq_of_sector (hi : i ∈ fs.openInodes) (hj : j ∈ fs.openInodes)
    (hs : i.sector = j.sector) : i = j :=
  inj_on_of_nodup_map h.sectors hi hj hs

theorem eq_of_id (hi : i ∈ fs.openInodes) (hj : j ∈ fs.openInodes) (hs : i.id = j.id) : i = j :=
  inj_on_of_nodup_map h.ids hi hj hs

theorem inode_eq (hi : i ∈ fs.openInodes) : fs.inode i.id = .ok i := by
  unfold inode
  cases hf : fs.openInodes.find? fun j => j.id = i.id with
  | none =>
    have := find?_eq_none.mp hf i hi
    simp at this
  | some j =>
    have hid : j.id = i.id := by simpa using find?_some hf
    rw [h.eq_of_id (mem_of_find?_eq_some hf) hi hid]

theorem root_body : fs.claims (.root, .body) s ↔ s = (fs.disk rootDirSector).start := by
  constructor
  · rintro ⟨x, rfl, h0, h1⟩
    rw [h.rootLength, bytesToSectors_root] at h1
    omega
  · rintro rfl
    refine ⟨rootDirSector, rfl, Nat.le_refl _, ?_⟩
    rw [h.rootLength, bytesToSectors_root]
    omega

end

end Consistent

/-! ## Frames -/

/-- The files are the same, and so are the entries of the directory. -/
structure SameFiles (fs fs' : Fs) : Prop where
  holds : ∀ w x, fs'.Holds w x ↔ fs.Holds w x
  disk : ∀ w x, fs.Holds w x → fs'.disk x = fs.disk x
  entries : ∀ k < rootEntries, ∀ j < entrySize, fs'.entry k j = fs.entry k j

namespace SameFiles

variable {fs'' : Fs}

theorem refl (fs : Fs) : SameFiles fs fs :=
  ⟨fun _ _ => Iff.rfl, fun _ _ _ => rfl, fun _ _ _ _ => rfl⟩

variable (h : SameFiles fs fs')
include h

theorem trans (h' : SameFiles fs' fs'') : SameFiles fs fs'' where
  holds w x := (h'.holds w x).trans (h.holds w x)
  disk w x hw := (h'.disk w x ((h.holds w x).mpr hw)).trans (h.disk w x hw)
  entries k hk j hj := (h'.entries k hk j hj).trans (h.entries k hk j hj)

theorem claims (o : Who × Part) (s : Nat) : fs'.claims o s ↔ fs.claims o s :=
  ⟨claims_of_holds (fun w x => (h.holds w x).mp)
      (fun w x hw => h.disk w x ((h.holds w x).mp hw)) o s,
    claims_of_holds (fun w x => (h.holds w x).mpr) (fun w x hw => (h.disk w x hw).symm) o s⟩

theorem linked (x : Nat) : fs'.Linked x ↔ fs.Linked x :=
  exists_congr fun k => h.holds (.entry k) x

end SameFiles

/-- The same inodes open, the same inodes on the disk, and the same directory. -/
theorem sameFiles_of_disk (hopen : fs'.openInodes = fs.openInodes)
    (hdisk : ∀ w x, fs.Holds w x → fs'.disk x = fs.disk x)
    (hentry : ∀ k < rootEntries, ∀ j < entrySize, fs'.entry k j = fs.entry k j) :
    SameFiles fs fs' := by
  have hent : ∀ k x, fs'.Holds (.entry k) x ↔ fs.Holds (.entry k) x := by
    intro k x
    constructor
    · rintro ⟨hk, hu, hx⟩
      exact ⟨hk, by rwa [← entryInUse_congr (hentry k hk)],
        by rwa [← entrySector_congr (hentry k hk)]⟩
    · rintro ⟨hk, hu, hx⟩
      exact ⟨hk, by rwa [entryInUse_congr (hentry k hk)], by rwa [entrySector_congr (hentry k hk)]⟩
  have hlink : ∀ x, fs'.Linked x ↔ fs.Linked x := fun x => exists_congr (hent · x)
  refine ⟨fun w x => ?_, hdisk, hentry⟩
  cases w with
  | map => exact Iff.rfl
  | root => exact Iff.rfl
  | entry k => exact hent k x
  | opened =>
    show _ ∧ _ ∧ _ ∧ ¬ fs'.Linked x ↔ _ ∧ _ ∧ _ ∧ ¬ fs.Linked x
    rw [hlink, hopen]

/-- What a step leaves alone that only writes to the disk and to the free map. -/
structure Kept (fs fs' : Fs) : Prop extends SameFiles fs fs' where
  openInodes : fs'.openInodes = fs.openInodes
  freeMapFile : fs'.freeMapFile = fs.freeMapFile
  nextId : fs'.nextId = fs.nextId
  size : fs'.dev.size = fs.dev.size
  bitCnt : fs'.freeMap.bitCnt = fs.freeMap.bitCnt

theorem Kept.refl (fs : Fs) : Kept fs fs := ⟨SameFiles.refl fs, rfl, rfl, rfl, rfl, rfl⟩

theorem Kept.trans {fs'' : Fs} (h : Kept fs fs') (h' : Kept fs' fs'') : Kept fs fs'' :=
  ⟨h.toSameFiles.trans h'.toSameFiles, h'.openInodes.trans h.openInodes,
    h'.freeMapFile.trans h.freeMapFile, h'.nextId.trans h.nextId, h'.size.trans h.size,
    h'.bitCnt.trans h.bitCnt⟩

/-- A step that besides leaves alone the bytes of all files, but for the free map's data. -/
structure Quiet (fs fs' : Fs) : Prop extends Kept fs fs' where
  bytes : ∀ o s, fs.claims o s → o ≠ (.map, .body) → ∀ b, b / sectorSize = s →
    fs'.dev.bytes b = fs.dev.bytes b

theorem Quiet.refl (fs : Fs) : Quiet fs fs := ⟨Kept.refl fs, fun _ _ _ _ _ _ => rfl⟩

theorem Quiet.trans {fs'' : Fs} (h : Quiet fs fs') (h' : Quiet fs' fs'') : Quiet fs fs'' := by
  refine ⟨h.toKept.trans h'.toKept, fun o s ho hne b hb => ?_⟩
  exact (h'.bytes o s ((h.claims o s).mpr ho) hne b hb).trans (h.bytes o s ho hne b hb)

namespace Consistent

/-- **The frame rule**: what is left to show is that the owned sectors are still marked, and that
    the free map is on the disk. -/
theorem frame (h : Consistent P fs refs) (hk : Kept fs fs')
    (hused : ∀ o r, fs.claims o r → fs'.used r) (hsync : P → fs'.Synced) :
    Consistent P fs' refs := by
  have hrefs : fs'.mapRefs = fs.mapRefs := by rw [mapRefs, hk.freeMapFile, mapRefs]
  constructor
  · rw [hk.bitCnt, h.bitCnt, hk.size]
  · rw [hk.size]
    exact h.size_lt
  · rw [hk.disk .map _ rfl, hk.size]
    exact h.mapLength
  · rw [hk.disk .root _ rfl]
    exact h.rootLength
  · intro w x hw
    have hw' := (hk.holds w x).mp hw
    rw [hk.disk w x hw', hk.size]
    exact h.extents w x hw'
  · constructor
    · intro o r hc
      exact hused o r ((hk.claims o r).mp hc)
    · intro o o' r hc hc'
      exact h.owned.unique ((hk.claims o r).mp hc) ((hk.claims o' r).mp hc')
  · rw [hk.freeMapFile, hk.openInodes]
    exact h.mapFile
  · intro i hi
    rw [hk.openInodes] at hi
    have ho := h.opened i hi
    obtain ⟨w, hw⟩ := held hi
    refine ⟨?_, ho.deny, ?_, ?_, ho.pos, ?_⟩
    · rw [hk.disk w _ hw]
      exact ho.data
    · rw [hk.nextId]
      exact ho.id_lt
    · rw [hrefs]
      exact ho.count
    · rw [hk.linked]
      exact ho.removed
  · rw [hk.openInodes]
    exact h.sectors
  · rw [hk.openInodes]
    exact h.ids
  · rw [hk.openInodes]
    exact h.refs
  · exact hsync

end Consistent

/-! ## Writes -/

/-- The device is written from the address `a` on. -/
def Fs.put (fs : Fs) (a n : Nat) (buffer : Nat → Byte) : Fs :=
  { fs with dev := fs.dev.put a n buffer }

/-- All the bytes in `[a, a + n)` are in sectors that satisfy `S`. -/
def Within (a n : Nat) (S : Nat → Prop) : Prop := ∀ b, a ≤ b → b < a + n → S (b / sectorSize)

section Writes

variable {a n x : Nat} {S : Nat → Prop} {buffer : Nat → Byte}

theorem put_bytes (hin : Within a n S) {b : Nat} (hb : ¬ S (b / sectorSize)) :
    (fs.put a n buffer).dev.bytes b = fs.dev.bytes b :=
  splice_of_not_mem fun h => hb (hin b h.1 h.2)

theorem disk_put (hin : Within a n S) (hx : ¬ S x) : (fs.put a n buffer).disk x = fs.disk x := by
  refine decode_congr fun k hk => put_bytes hin ?_
  rwa [sector_addr (by simp only [sectorSize]; omega)]

section

variable (h : Consistent P fs refs) (hin : Within a n S)
include h hin

section

variable (hS : ∀ s, S s → ∀ o, fs.claims o s → o.2 = .body ∧ o.1 ≠ .root)
include hS

/-- **Writing outside of inodes and directory** keeps the files. -/
theorem sameFiles_put : SameFiles fs (fs.put a n buffer) := by
  have hdisk : ∀ w x, fs.Holds w x → (fs.put a n buffer).disk x = fs.disk x := by
    refine fun w x hw => disk_put hin fun hs => ?_
    cases (hS x hs (w, .head) hw).1
  have hentry : ∀ k < rootEntries, ∀ j < entrySize,
      (fs.put a n buffer).entry k j = fs.entry k j := by
    intro k hk j hj
    rw [entry, entry, hdisk .root _ rfl]
    refine put_bytes hin ?_
    rw [entry_addr hk hj]
    exact fun hs => (hS _ hs (.root, .body) (h.root_body.mpr rfl)).2 rfl
  exact sameFiles_of_disk rfl hdisk hentry

theorem kept_put : Kept fs (fs.put a n buffer) :=
  ⟨sameFiles_put h hin hS, rfl, rfl, rfl, rfl, rfl⟩

end

theorem quiet_put
    (hS : ∀ s, S s → ∀ o, fs.claims o s → o = (.map, .body)) : Quiet fs (fs.put a n buffer) := by
  refine ⟨kept_put h hin fun s hs o ho => ?_, fun o s ho hne b hb => put_bytes hin fun hs => ?_⟩
  · rw [hS s hs o ho]
    exact ⟨rfl, Who.noConfusion⟩
  · rw [hb] at hs
    exact hne (hS s hs o ho)

end

section

variable (hlen : (fs.disk freeMapSector).length = byteCnt fs.dev.size)
include hlen

theorem mapBit_has (hk : k < fs.dev.size) :
    (fs.disk freeMapSector).Has
      ((sectorSize * (fs.disk freeMapSector).start + k / 8) / sectorSize) := by
  have hpos : (k / 8 : Nat) < (fs.disk freeMapSector).length := by
    rw [hlen, byteCnt, elemCnt, divRoundUp, elemBits]
    omega
  have hlt := div_lt_bytesToSectors (fs.disk_length_lt freeMapSector) (Int.natCast_nonneg _) hpos
  simp only [InodeDisk.Has, sectorSize] at hlt ⊢
  omega

/-- A write next to the free map and its inode keeps its bits. -/
theorem mapBit_put (hin : Within a n S) (h0 : ¬ S freeMapSector)
    (hS : ∀ s, S s → ¬ (fs.disk freeMapSector).Has s) (hk : k < fs.dev.size) :
    (fs.put a n buffer).mapBit k = fs.mapBit k := by
  unfold mapBit
  rw [disk_put hin h0, put_bytes hin fun hs => hS _ hs (mapBit_has hlen hk)]

end

theorem synced_put (h : Consistent P fs refs) (hin : Within a n S)
    (hmap : ∀ s, S s → ∀ o, fs.claims o s → o.1 ≠ .map) (hs : fs.Synced) :
    (fs.put a n buffer).Synced := by
  intro k hk
  refine (mapBit_put h.mapLength hin ?_ ?_ hk).trans (hs k hk)
  · exact fun hS => hmap _ hS (.map, .head) rfl rfl
  · exact fun s hS hhas => hmap s hS (.map, .body) ⟨freeMapSector, rfl, hhas⟩ rfl

/-- **Writing to the body of a file**, or to sectors that nobody owns. -/
theorem Consistent.put (h : Consistent P fs refs) (hin : Within a n S)
    (hS : ∀ s, S s → ∀ o, fs.claims o s → o.2 = .body ∧ o.1 ≠ .root ∧ o.1 ≠ .map) :
    Consistent P (fs.put a n buffer) refs := by
  refine h.frame (kept_put h hin fun s hs o ho => ⟨(hS s hs o ho).1, (hS s hs o ho).2.1⟩)
    (fun _ _ hc => h.owned.used_of_claim hc) fun hP => ?_
  exact synced_put h hin (fun s hs o ho => (hS s hs o ho).2.2) (h.synced hP)

end Writes

end Pintos.Filesys
