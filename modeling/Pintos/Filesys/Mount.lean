/-
  Mounting and formatting (`filesys_init`, `do_format`).

  1. **Mounting** — only the free map's file is open then.  If the device is that of a consistent file
     system whose free map is on the disk, what is mounted is consistent, with the same free map
     (`freeMapOpen_spec`).

  2. **Formatting** begins on a device of which nothing is known.  `MapCreated` is what holds between
     `free_map_create` and `dir_create`, and `Formatted` what holds after that: two files, on four
     groups of sectors.
-/
import Pintos.Filesys.Calls

namespace Pintos.Filesys

open Base Lib List Fs Bitmap

/-! ## Mounting -/

/-- Only the free map's file is open. -/
def Mounted (fs : Fs) : Prop :=
  ∃ n, fs.openInodes = [⟨n, freeMapSector, 1, false, 0, fs.disk freeMapSector⟩] ∧
    fs.freeMapFile = some ⟨n + 1, n, 0, false⟩ ∧ n < fs.nextId

/-- The state after `free_map_file` has been opened. -/
def Fs.mounted (fs : Fs) : Fs := ⟨fs.dev, fs.freeMap, some ⟨fs.nextId + 1, fs.nextId, 0, false⟩,
    [⟨fs.nextId, freeMapSector, 1, false, 0, fs.disk freeMapSector⟩], fs.nextId + 1 + 1⟩

section Mounting

variable {fs fs' : Fs} {refs : List Ref} {bounce : Bool} {f : File}

theorem mounted_mounted (fs : Fs) : Mounted fs.mounted :=
  ⟨fs.nextId, rfl, rfl, Nat.lt_succ_of_lt (Nat.lt_succ_self fs.nextId)⟩

theorem Mounted.setMap (h : Mounted fs) (b : Bitmap) : Mounted (fs.setMap b) := h

theorem Mounted.inode (h : Mounted fs) :
    ∃ f i, fs.freeMapFile = some f ∧ fs.inode f.inode = .ok i ∧
      i.data = fs.disk freeMapSector ∧ i.denyWriteCnt = 0 := by
  obtain ⟨n, hl, hf, -⟩ := h
  refine ⟨_, ⟨n, freeMapSector, 1, false, 0, fs.disk freeMapSector⟩, hf, ?_, rfl, rfl⟩
  unfold Fs.inode
  rw [hl, find?_cons_of_pos (by simp)]

/-- No other inode is open, so none is without an entry. -/
theorem Mounted.not_orphan (h : Mounted fs) {id x : Nat} : ¬ fs.Holds (.opened id) x := by
  rintro ⟨⟨i, hi, rfl, rfl⟩, h0, -, -⟩
  obtain ⟨n, hl, -, -⟩ := h
  rw [hl] at hi
  obtain rfl := mem_singleton.mp hi
  exact h0 rfl

/-- **The list of open inodes** is as the invariant wants it. -/
theorem Mounted.list (h : Mounted fs) : (∃ f, fs.freeMapFile = some f ∧ f.denyWrite = false ∧
      ∃ i ∈ fs.openInodes, i.id = f.inode ∧ i.sector = freeMapSector) ∧
    (∀ i ∈ fs.openInodes, OpenOk fs [] i) ∧ (fs.openInodes.map (·.sector)).Nodup ∧
    (fs.openInodes.map (·.id)).Nodup := by
  obtain ⟨n, hl, hf, hn⟩ := h
  refine ⟨⟨_, hf, rfl, _, by rw [hl]; exact mem_singleton.mpr rfl, rfl, rfl⟩, fun i hi => ?_,
    by rw [hl]; exact nodup_singleton _, by rw [hl]; exact nodup_singleton _⟩
  rw [hl] at hi
  obtain rfl := mem_singleton.mp hi
  refine ⟨rfl, rfl, hn, ?_, Nat.one_pos, nofun⟩
  rw [mapRefs, hf]
  simp

theorem openMapFile_ok (hl : fs.openInodes = []) (hx : freeMapSector < fs.dev.size) :
    openMapFile fs true true = .ok (⟨fs.nextId + 1, fs.nextId, 0, false⟩, fs.mounted) := by
  obtain ⟨dev, map, file, inodes, n⟩ := fs
  obtain rfl : inodes = [] := hl
  exact bind_of_ok (bind_of_ok (if_pos hx) rfl) rfl

theorem openMapFile_inv (hl : fs.openInodes = []) (hx : freeMapSector < fs.dev.size)
    {inode file : Bool} (h : openMapFile fs inode file = .ok (f, fs')) :
    f = ⟨fs.nextId + 1, fs.nextId, 0, false⟩ ∧ fs' = fs.mounted := by
  cases inode with
  | false =>
    obtain ⟨dev, map, mf, inodes, n⟩ := fs
    obtain rfl : inodes = [] := hl
    cases h
  | true =>
    cases file with
    | true =>
      rw [openMapFile_ok hl hx] at h
      cases h
      exact ⟨rfl, rfl⟩
    | false =>
      -- without memory for the file there is a panic, whatever closing the inode does
      obtain ⟨⟨o, fs1⟩, -, hfile⟩ := bind_eq_ok.mp h
      obtain ⟨r, hr, hpanic⟩ := bind_eq_ok.mp hfile
      have hnone : r.1 = none := by
        cases o with
        | none =>
          cases hr
          rfl
        | some id =>
          obtain ⟨fs2, -, hr⟩ := bind_eq_ok.mp (show (inodeClose fs1 id true true >>= _) = _ from hr)
          cases hr
          rfl
      rw [hnone] at hpanic
      cases hpanic

/-- **`bitmap_read`** reads the bits that are on the disk. -/
theorem bitmapRead_eq (h : MapOk fs) (hpos : 0 < fs.dev.size)
    (hf : fs.freeMapFile = some f) (bounce : Bool) :
    ∃ (ok : Bool) (b : Bitmap), bitmapRead fs f bounce = .ok (ok, fs.setMap b) ∧
      (ok = true ↔ fs.Fits bounce) ∧ b.bitCnt = fs.dev.size ∧
      (ok = true → ∀ k < fs.dev.size, b.bit k = fs.mapBit k) := by
  obtain ⟨f', i, hf', hinode, hdata, -⟩ := h.inode
  obtain rfl : f = f' := Option.some.inj (hf.symm.trans hf')
  have hread := inodeReadAt_eq h.onDevice fs.freeMap.bytes (byteCnt fs.dev.size) (Int.le_refl 0)
    bounce
  rw [h.whole] at hread
  refine ⟨moved bounce 0 (byteCnt fs.dev.size) == byteCnt fs.dev.size,
    (fs.freeMap.load (splice fs.freeMap.bytes 0 (moved bounce 0 (byteCnt fs.dev.size))
      fun k => fs.dev.bytes (sectorSize * (fs.disk freeMapSector).start + k))).maskLast,
    ?_, ?_, ?_, ?_⟩
  · unfold bitmapRead
    rw [if_pos (by rwa [h.bitCnt]), h.bitCnt]
    exact bind_of_ok hinode (bind_of_ok (by rwa [hdata]) rfl)
  · rw [beq_iff_eq, moved_eq_iff]
    exact Iff.rfl
  · exact h.bitCnt
  · intro hok k hk
    rw [beq_iff_eq] at hok
    have hk' : k < fs.freeMap.bitCnt := by rwa [h.bitCnt]
    refine (bit_maskLast (show k < (fs.freeMap.load _).bitCnt from hk')).trans ?_
    rw [bit_load _ hk', hok, splice_of_mem]
    · rfl
    · refine ⟨Nat.zero_le _, ?_⟩
      rw [byteCnt, elemCnt, divRoundUp, elemBits]
      omega

/-- **A consistent image**, mounted, is consistent. -/
theorem Consistent.mount (h : Consistent True fs refs) (hm : Mounted fs') (hdev : fs'.dev = fs.dev)
    (hcnt : fs'.freeMap.bitCnt = fs.freeMap.bitCnt)
    (hbits : ∀ k < fs.dev.size, fs'.freeMap.bit k = fs.freeMap.bit k) : Consistent True fs' [] := by
  have hdisk := disk_of_dev hdev
  obtain ⟨hfile, hopened, hsectors, hids⟩ := hm.list
  have hholds : ∀ w x, fs'.Holds w x → fs.Holds w x := by
    intro w x hw
    cases w with
    | map => exact hw
    | root => exact hw
    | entry =>
      obtain ⟨hk, hu, hx⟩ := hw
      rw [entry_of_dev hdev] at hu hx
      exact ⟨hk, hu, hx⟩
    | opened => exact absurd hw hm.not_orphan
  refine ⟨?_, ?_, ?_, ?_, ?_, ?_, hfile, hopened, hsectors, hids, nofun, ?_⟩
  · rw [hcnt, hdev]
    exact h.bitCnt
  · rw [hdev]
    exact h.size_lt
  · rw [hdisk, hdev]
    exact h.mapLength
  · rw [hdisk]
    exact h.rootLength
  · intro w x hw
    rw [hdisk, hdev]
    exact h.extents w x (hholds w x hw)
  · refine h.owned.mono (fun r hr => ?_) (claims_of_holds hholds fun _ x _ => hdisk x)
    refine ⟨by rw [hdev]; exact hr.1, ?_⟩
    rw [hbits r hr.1]
    exact hr.2
  · intro _ k hk
    rw [hdev] at hk
    rw [hbits k hk, ← h.synced trivial k hk]
    unfold mapBit
    rw [hdisk, hdev]

/-- **`free_map_open`**, on the device of a consistent file system. -/
theorem freeMapOpen_spec (h : Consistent True fs refs) {fs0 : Fs} (hl : fs0.openInodes = [])
    (hdev : fs0.dev = fs.dev) (hcnt : fs0.freeMap.bitCnt = fs.freeMap.bitCnt) {m : BootMemory} :
    (m.openInode = true ∧ m.openFile = true ∧ fs.Fits m.openRead →
      ∃ fs', freeMapOpen fs0 m = .ok fs') ∧
    ∀ fs', freeMapOpen fs0 m = .ok fs' → Consistent True fs' [] ∧ Mounted fs' ∧ fs'.dev = fs.dev ∧
      ∀ k < fs.dev.size, fs'.freeMap.bit k = fs.freeMap.bit k := by
  have hpos : 0 < fs.dev.size := Nat.lt_of_le_of_lt (Nat.zero_le _) h.root_lt
  have hx : freeMapSector < fs0.dev.size := by
    rwa [hdev]
  have hdisk : fs0.mounted.disk freeMapSector = fs.disk freeMapSector := by
    exact disk_of_dev hdev freeMapSector
  have hmap : MapOk fs0.mounted := by
    refine ⟨?_, ?_, ?_, (mounted_mounted fs0).inode⟩
    · show fs0.freeMap.bitCnt = fs0.dev.size
      rw [hcnt, hdev]
      exact h.bitCnt
    · rw [hdisk]
      show _ = ((byteCnt fs0.dev.size : Nat) : Int)
      rw [hdev]
      exact h.mapLength
    · rw [hdisk]
      show OnDevice fs0.dev _
      rw [hdev]
      exact h.onDevice (w := .map) rfl
  obtain ⟨ok, b, hread, hok, hb, hbits⟩ := bitmapRead_eq hmap hx rfl m.openRead
  have hfits : fs0.mounted.Fits m.openRead ↔ fs.Fits m.openRead := by
    show _ ∨ byteCnt fs0.dev.size % _ = 0 ↔ _
    rw [hdev]
    exact Iff.rfl
  constructor
  · rintro ⟨hi, hf, hfit⟩
    refine ⟨fs0.mounted.setMap b, ?_⟩
    rw [hok.mpr (hfits.mpr hfit)] at hread
    exact bind_of_ok (by rw [hi, hf]; exact openMapFile_ok hl hx) (bind_of_ok hread rfl)
  · intro fs' hopen
    obtain ⟨r, hr, hopen⟩ := bind_eq_ok.mp hopen
    obtain ⟨f, fs1⟩ := r
    obtain ⟨rfl, rfl⟩ := openMapFile_inv hl hx hr
    obtain ⟨r', hr', hopen⟩ := bind_eq_ok.mp hopen
    rw [hread] at hr'
    cases hr'
    cases ok with
    | false => cases hopen
    | true =>
      cases hopen
      have hsame : ∀ k < fs.dev.size, b.bit k = fs.freeMap.bit k := by
        intro k hk
        rw [← h.synced trivial k hk, hbits rfl k (by show k < fs0.dev.size; rwa [hdev])]
        unfold mapBit
        rw [hdisk]
        show (fs0.dev.bytes _).getLsbD _ = _
        rw [hdev]
      have hcnt' : (fs0.mounted.setMap b).freeMap.bitCnt = fs.freeMap.bitCnt := by
        show b.bitCnt = _
        rw [hb, h.bitCnt]
        show fs0.dev.size = _
        rw [hdev]
      exact ⟨h.mount ((mounted_mounted fs0).setMap b) hdev hcnt' hsame,
        (mounted_mounted fs0).setMap b, hdev, hsame⟩

end Mounting

/-! ## Formatting -/

/-- A new file system: the free map in the sectors 0 and `[s, s + n)`, the root directory in the
    sectors 1 and `t`, and no entry in use. -/
structure Formatted (fs : Fs) (s t : Nat) : Prop where
  bitCnt : fs.freeMap.bitCnt = fs.dev.size
  size_lt : fs.dev.size < 4294967296
  map : fs.disk freeMapSector = ⟨s, byteCnt fs.dev.size⟩
  root : fs.disk rootDirSector = ⟨t, (rootEntries * entrySize : Nat)⟩
  unused : ∀ k < rootEntries, entryInUse (fs.entry k) = false
  map_room : 2 ≤ s ∧ s + bytesToSectors (byteCnt fs.dev.size) ≤ fs.dev.size
  root_room : 2 ≤ t ∧ t < fs.dev.size
  apart : ¬ (s ≤ t ∧ t < s + bytesToSectors (byteCnt fs.dev.size))
  bits : ∀ k, k < 2 ∨ k = t ∨ (s ≤ k ∧ k < s + bytesToSectors (byteCnt fs.dev.size)) →
    fs.freeMap.bit k = true
  mounted : Mounted fs
  synced : fs.Synced

section Formatting

variable {fs fs' : Fs} {s t x cnt n : Nat} {length : Int} {bounce diskInode : Bool} {b : Bitmap}

theorem Formatted.claims (h : Formatted fs s t) {o : Who × Part} {r : Nat} (hc : fs.claims o r) :
    o = (.map, .head) ∧ r = 0 ∨ o = (.root, .head) ∧ r = 1 ∨
    o = (.map, .body) ∧ (s ≤ r ∧ r < s + bytesToSectors (byteCnt fs.dev.size)) ∨
    o = (.root, .body) ∧ r = t := by
  have hholds : ∀ w x, fs.Holds w x → w = .map ∧ x = 0 ∨ w = .root ∧ x = 1 := by
    intro w x hw
    cases w with
    | map => exact .inl ⟨rfl, hw⟩
    | root => exact .inr ⟨rfl, hw⟩
    | entry k =>
      obtain ⟨hk, hu, -⟩ := hw
      rw [h.unused k hk] at hu
      cases hu
    | opened => exact absurd hw h.mounted.not_orphan
  obtain ⟨w, p⟩ := o
  cases p with
  | head =>
    rcases hholds w r hc with ⟨rfl, rfl⟩ | ⟨rfl, rfl⟩
    · exact .inl ⟨rfl, rfl⟩
    · exact .inr (.inl ⟨rfl, rfl⟩)
  | body =>
    obtain ⟨x, hx, h0, h1⟩ := hc
    rcases hholds w x hx with ⟨rfl, rfl⟩ | ⟨rfl, rfl⟩
    · rw [show fs.disk 0 = _ from h.map] at h0 h1
      exact .inr (.inr (.inl ⟨rfl, h0, h1⟩))
    · rw [show fs.disk 1 = _ from h.root] at h0 h1
      have h0 : t ≤ r := h0
      have h1 : r < t + bytesToSectors (rootEntries * entrySize : Nat) := h1
      rw [bytesToSectors_root] at h1
      exact .inr (.inr (.inr ⟨rfl, by omega⟩))

/-- **A new file system is consistent.** -/
theorem Formatted.consistent (h : Formatted fs s t) : Consistent True fs [] := by
  obtain ⟨hs2, hs⟩ := h.map_room
  obtain ⟨ht2, ht⟩ := h.root_room
  have hapart := h.apart
  obtain ⟨hfile, hopened, hsectors, hids⟩ := h.mounted.list
  refine ⟨h.bitCnt, h.size_lt, by rw [h.map], by rw [h.root], ?_, ⟨?_, ?_⟩, hfile, hopened, hsectors,
    hids, nofun, fun _ => h.synced⟩
  · intro w x hw
    rcases h.claims (o := (w, .head)) hw with ⟨-, rfl⟩ | ⟨-, rfl⟩ | ⟨ho, -⟩ | ⟨ho, -⟩
    · rw [show fs.disk 0 = _ from h.map]
      exact ⟨Int.natCast_nonneg _, hs⟩
    · rw [show fs.disk 1 = _ from h.root]
      refine ⟨Int.natCast_nonneg _, ?_⟩
      show t + bytesToSectors (rootEntries * entrySize : Nat) ≤ _
      rw [bytesToSectors_root]
      omega
    · cases ho
    · cases ho
  · intro o r hc
    rcases h.claims hc with ⟨-, hr⟩ | ⟨-, hr⟩ | ⟨-, hr⟩ | ⟨-, hr⟩
    · exact ⟨by omega, h.bits r (.inl (by omega))⟩
    · exact ⟨by omega, h.bits r (.inl (by omega))⟩
    · exact ⟨by omega, h.bits r (.inr (.inr hr))⟩
    · exact ⟨by omega, h.bits r (.inr (.inl hr))⟩
  · intro o o' r hc hc'
    rcases h.claims hc with ⟨rfl, hr⟩ | ⟨rfl, hr⟩ | ⟨rfl, hr⟩ | ⟨rfl, hr⟩ <;>
      rcases h.claims hc' with ⟨rfl, hr'⟩ | ⟨rfl, hr'⟩ | ⟨rfl, hr'⟩ | ⟨rfl, hr'⟩ <;>
      first
        | rfl
        | (exfalso; omega)

/-! ### What successful steps have done -/

/-- A successful `inode_create` has allocated, and written the inode and the zeros. -/
theorem inodeCreate_inv (h : inodeCreate fs x length diskInode bounce = .ok (true, fs')) :
    ∃ s fs1, freeMapAllocate fs (bytesToSectors length) bounce = .ok (some s, fs1) ∧
      x < fs1.dev.size ∧
      (s + bytesToSectors length ≤ fs1.dev.size →
        fs' = (fs1.put (sectorSize * x) sectorSize (InodeDisk.encode ⟨s, length⟩)).put
          (sectorSize * s) (sectorSize * bytesToSectors length) fun _ => 0) := by
  unfold inodeCreate at h
  split at h
  · cases h
  split at h
  · obtain ⟨⟨r, fs1⟩, halloc, hrest⟩ := bind_eq_ok.mp h
    cases r with
    | none => cases hrest
    | some s =>
      obtain ⟨d1, hwrite, hrest⟩ := bind_eq_ok.mp
        (show (fs1.dev.blockWrite x _ >>= _) = _ from hrest)
      obtain ⟨d2, hzero, hrest⟩ := bind_eq_ok.mp hrest
      obtain ⟨hx, rfl⟩ := eq_of_guard hwrite
      refine ⟨s, fs1, halloc, hx, fun hroom => ?_⟩
      rw [zeroSectors_eq _ (show _ ≤ (fs1.dev.put _ _ _).size from hroom)] at hzero
      cases hzero
      exact (Prod.mk.inj (Except.ok.inj hrest)).2.symm
  · cases h

/-- An allocation before the free map has a file. -/
theorem freeMapAllocate_inv_none (hf : fs.freeMapFile = none)
    (h : freeMapAllocate fs cnt bounce = .ok (some s, fs')) :
    Bitmap.Found fs.freeMap 0 cnt false (some s) ∧
      ∃ b, Bitmap.Filled fs.freeMap s cnt true b ∧ fs' = fs.setMap b := by
  obtain ⟨dev, map, file, inodes, n⟩ := fs
  obtain rfl : file = none := hf
  unfold freeMapAllocate at h
  rcases scanAndFlip_eq (Nat.zero_le map.bitCnt) cnt false with
    ⟨hscan, -⟩ | ⟨s', b, hscan, hfound, hfill⟩
  · rw [show scanAndFlip (freeMap ⟨dev, map, none, inodes, n⟩) 0 cnt false = _ from
      hscan] at h
    cases h
  · rw [show scanAndFlip (freeMap ⟨dev, map, none, inodes, n⟩) 0 cnt false = _ from
      hscan] at h
    obtain ⟨hs, rfl⟩ := Prod.mk.inj (Except.ok.inj h)
    cases hs
    exact ⟨hfound, b, hfill, rfl⟩

/-- An allocation when it has one. -/
theorem freeMapAllocate_inv_some (hm : MapOk fs)
    (h : freeMapAllocate fs cnt bounce = .ok (some s, fs')) :
    Bitmap.Found fs.freeMap 0 cnt false (some s) ∧ fs.Fits bounce ∧
      ∃ b, Bitmap.Filled fs.freeMap s cnt true b ∧ fs' = fs.mapStep b b bounce := by
  obtain ⟨f, i, hf, -⟩ := hm.inode
  rcases scanAndFlip_eq (Nat.zero_le fs.freeMap.bitCnt) cnt false with
    ⟨hscan, -⟩ | ⟨s', b, hscan, hfound, hfill⟩
  · unfold freeMapAllocate at h
    rw [hscan] at h
    cases h
  · obtain ⟨ok, hwrite, hok⟩ := bitmapWrite_eq hm hf hfill.1 b bounce
    rw [freeMapAllocate_some hf hscan, hwrite] at h
    cases ok with
    | true =>
      obtain ⟨hs, rfl⟩ := Prod.mk.inj (Except.ok.inj h)
      cases hs
      exact ⟨hfound, hok.mp rfl, b, hfill, rfl⟩
    | false =>
      obtain ⟨b', -, hnone⟩ := bind_eq_ok.mp
        (show (asserted (b.setMultiple s' cnt false) >>= _) = _ from h)
      cases hnone

/-! ### The free map first -/

/-- The first `cnt` free sectors in a row have been marked. -/
def Marks (fs : Fs) (cnt : Nat) (fs' : Fs) : Prop :=
  ∃ s, Bitmap.Found fs.freeMap 0 cnt false (some s) ∧ Bitmap.Filled fs.freeMap s cnt true fs'.freeMap

theorem Marks.upTo (hm : Marks fs cnt fs') {p : Nat} (hp : fs.freeMap.UpTo p) :
    fs'.freeMap.UpTo (p + cnt) := by
  obtain ⟨s, hfound, hfill⟩ := hm
  exact hp.found hfound hfill

/-- The free map in the sectors 0 and `[s, s + n)`, and its file open. -/
structure MapCreated (fs : Fs) (s : Nat) : Prop where
  bitCnt : fs.freeMap.bitCnt = fs.dev.size
  size_lt : fs.dev.size < 4294967296
  map : fs.disk freeMapSector = ⟨s, byteCnt fs.dev.size⟩
  room : 2 ≤ s ∧ s + bytesToSectors (byteCnt fs.dev.size) ≤ fs.dev.size
  bits : ∀ k, k < 2 ∨ (s ≤ k ∧ k < s + bytesToSectors (byteCnt fs.dev.size)) →
    fs.freeMap.bit k = true
  mounted : Mounted fs

namespace MapCreated

section

variable (h : MapCreated fs s)
include h

theorem map_length : (fs.disk freeMapSector).length = byteCnt fs.dev.size := by
  rw [h.map]

theorem mapOk : MapOk fs := by
  refine ⟨h.bitCnt, h.map_length, onDevice_of_extent ?_ ?_, h.mounted.inode⟩
  · rw [h.map_length]
    exact Int.natCast_nonneg _
  · rw [h.map]
    exact h.room.2

theorem put {a : Nat} {S : Nat → Prop} (buffer : Nat → Byte)
    (hin : Within a n S) (hS : ¬ S freeMapSector) : MapCreated (fs.put a n buffer) s := by
  have hdisk : (fs.put a n buffer).disk freeMapSector = fs.disk freeMapSector := disk_put hin hS
  refine ⟨h.bitCnt, h.size_lt, hdisk.trans h.map, h.room, h.bits, ?_⟩
  obtain ⟨n, hl, hf, hn⟩ := h.mounted
  refine ⟨n, ?_, hf, hn⟩
  rwa [hdisk]

theorem setMap (hb : b.bitCnt = fs.freeMap.bitCnt)
    (hbits : ∀ k, fs.freeMap.bit k = true → b.bit k = true) : MapCreated (fs.setMap b) s :=
  ⟨hb.trans h.bitCnt, h.size_lt, h.map, h.room, fun k hk => hbits k (h.bits k hk),
    h.mounted.setMap b⟩

theorem not_has {x : Nat} (hx : x < 2) : ¬ (fs.disk freeMapSector).Has x := by
  rw [h.map]
  rintro ⟨h0, -⟩
  have h0 : s ≤ x := h0
  have := h.room.1
  omega

/-- A step of the free map keeps it, and a full one puts the map on the disk. -/
theorem mapStep (bounce : Bool) (hb : b.bitCnt = fs.freeMap.bitCnt)
    (hbits : ∀ k, fs.freeMap.bit k = true → b.bit k = true) :
    MapCreated (fs.mapStep b b bounce) s ∧ (fs.Fits bounce → (fs.mapStep b b bounce).Synced) := by
  have hin := within_map h.map_length bounce
  have hnot := h.not_has (x := freeMapSector) Nat.two_pos
  exact ⟨(h.setMap hb hbits).put _ hin hnot, synced_mapStep (disk_put hin hnot)⟩

end

end MapCreated

theorem one_le_bytesToSectors (h0 : 0 < n) (h1 : n < 4294967296) :
    1 ≤ bytesToSectors (byteCnt n) := by
  have hb : (byteCnt n : Int) < 2147483648 ∧ 0 < (byteCnt n : Int) := by
    rw [byteCnt, elemCnt, divRoundUp, elemBits]
    omega
  have hlt := div_lt_bytesToSectors hb.1 (Int.le_refl 0) hb.2
  omega

variable {m : BootMemory} {dev : Device}

/-- **`free_map_create`**, when nothing is open and the first sectors are marked. -/
theorem freeMapCreate_inv (hbits : fs.freeMap.bitCnt = fs.dev.size)
    (hsize : fs.dev.size < 4294967296) (hf : fs.freeMapFile = none) (hl : fs.openInodes = [])
    (hmark : ∀ k < fs.dev.size, k < 2 → fs.freeMap.bit k = true)
    (h : freeMapCreate fs m = .ok fs') :
    ∃ s, MapCreated fs' s ∧ Marks fs (bytesToSectors (byteCnt fs.dev.size)) fs' ∧
      fs'.dev.size = fs.dev.size := by
  obtain ⟨⟨ok, fs1⟩, hcreate, h⟩ := bind_eq_ok.mp h
  cases ok with
  | false => cases h
  | true =>
  obtain ⟨⟨f, fs2⟩, hopen, h⟩ := bind_eq_ok.mp h
  obtain ⟨⟨ok, fs3⟩, hwrite, h⟩ := bind_eq_ok.mp h
  cases ok with
  | false => cases h
  | true =>
  cases h
  obtain ⟨s, fs0, halloc, hx, hmade⟩ := inodeCreate_inv hcreate
  obtain ⟨hfound, b, hfill, rfl⟩ := freeMapAllocate_inv_none hf halloc
  have hx : 0 < fs.dev.size := hx
  rw [hbits] at hfound hfill hmade
  obtain ⟨-, hroom, hgroup, -⟩ := id hfound
  rw [hbits] at hroom
  have hone := one_le_bytesToSectors hx hsize
  -- the first sectors are marked, so the extent is behind them
  have hs : 2 ≤ s := by
    by_contra hlt
    have hfree := hgroup 0 (by omega)
    rw [add_zero, hmark s (by omega) (by omega)] at hfree
    cases hfree
  have hmade := hmade hroom
  have hl1 : fs1.openInodes = [] := by
    rw [hmade]
    exact hl
  have hx1 : freeMapSector < fs1.dev.size := by
    rw [hmade]
    exact hx
  obtain ⟨rfl, rfl⟩ := openMapFile_inv hl1 hx1 hopen
  subst hmade
  have hlen : (byteCnt fs.dev.size : Int) < 2147483648 := by
    rw [byteCnt, elemCnt, divRoundUp, elemBits]
    omega
  have hdisk := disk_create (fs.setMap b) (x := freeMapSector)
    (show s < 4294967296 by omega) (Int.natCast_nonneg (byteCnt fs.dev.size)) hlen (by
      show ¬ (s ≤ 0 ∧ _)
      omega)
  have hcreated : MapCreated (mounted (((fs.setMap b).put (sectorSize * freeMapSector) sectorSize
      (InodeDisk.encode ⟨s, byteCnt fs.dev.size⟩)).put (sectorSize * s)
      (sectorSize * bytesToSectors (byteCnt fs.dev.size)) fun _ => 0)) s := by
    refine ⟨hfill.1.trans hbits, hsize, hdisk, ⟨hs, hroom⟩, fun k hk => ?_, mounted_mounted _⟩
    show b.bit k = true
    have hk : k < 2 ∨ (s ≤ k ∧ k < s + bytesToSectors (byteCnt fs.dev.size)) := hk
    rw [hfill.2]
    by_cases hin : s ≤ k ∧ k < s + bytesToSectors (byteCnt fs.dev.size)
    · rw [if_pos hin]
    · rw [if_neg hin]
      exact hmark k (by omega) (by omega)
  obtain ⟨ok, hwrite', -⟩ := bitmapWrite_eq hcreated.mapOk rfl rfl b m.mapWrite
  obtain ⟨-, rfl⟩ := Prod.mk.inj (Except.ok.inj (hwrite'.symm.trans hwrite))
  exact ⟨s, (hcreated.mapStep m.mapWrite rfl fun _ => id).1, ⟨s, hfound, hfill⟩, rfl⟩

/-! ### The root directory -/

/-- **`dir_create`** of the root directory. -/
theorem MapCreated.formatted (h : MapCreated fs s)
    (hcreate : inodeCreate fs rootDirSector (rootEntries * entrySize : Nat) diskInode bounce =
      .ok (true, fs')) : ∃ t, Formatted fs' s t ∧ Marks fs 1 fs' := by
  obtain ⟨t, fs1, halloc, hx, hmade⟩ := inodeCreate_inv hcreate
  rw [bytesToSectors_root] at halloc hmade
  obtain ⟨hfound, hfits, b, hfill, rfl⟩ := freeMapAllocate_inv_some h.mapOk halloc
  obtain ⟨-, hroom, hgroup, -⟩ := id hfound
  rw [h.bitCnt] at hroom
  have hfree : fs.freeMap.bit t = false := hgroup 0 Nat.one_pos
  have hnew : ¬ (t < 2 ∨ (s ≤ t ∧ t < s + bytesToSectors (byteCnt fs.dev.size))) := by
    intro ht
    rw [h.bits t ht] at hfree
    cases hfree
  have hbit : ∀ k, k = t ∨ fs.freeMap.bit k = true → b.bit k = true := by
    intro k hk
    rw [hfill.2]
    split
    · rfl
    · exact hk.resolve_left (by omega)
  obtain ⟨h₁, hsync⟩ := h.mapStep bounce hfill.1 fun k hk => hbit k (.inr hk)
  obtain rfl := hmade hroom
  -- neither of the two sectors is the free map's
  have hin1 : Within (sectorSize * rootDirSector) sectorSize fun r => r = 1 := by
    intro a h0 h1
    simp only [sectorSize, rootDirSector] at *
    omega
  have hin2 : Within (sectorSize * t) (sectorSize * 1) fun r => r = t := by
    intro a h0 h1
    simp only [sectorSize] at *
    omega
  have h2 := h₁.put (InodeDisk.encode ⟨t, (rootEntries * entrySize : Nat)⟩) hin1 (by decide)
  have h3 := h2.put (fun _ => 0) hin2 (by
    show ¬ 0 = t
    omega)
  have hroot := disk_create (fs.mapStep b b bounce) (x := rootDirSector)
    (show t < 4294967296 by have := h.size_lt; omega)
    (Int.natCast_nonneg (rootEntries * entrySize)) (by decide) (by
      show ¬ (t ≤ 1 ∧ _)
      omega)
  rw [bytesToSectors_root] at hroot
  refine ⟨t, ⟨h3.bitCnt, h3.size_lt, h3.map, hroot, ?_, h3.room, ⟨by omega, hroom⟩, fun ht => ?_,
    fun k hk => ?_, h3.mounted, fun k hk => ?_⟩, t, hfound, hfill⟩
  · -- the entries are zeros
    intro k hk
    rw [entryInUse, entry, hroot, bne_eq_false_iff_eq]
    refine (splice_of_mem (g := fun _ => 0) ?_).trans rfl
    simp only [sectorSize, entrySize, rootEntries] at *
    omega
  · exact hnew (.inr ht)
  · rcases hk with hk | hk | hk
    · exact hbit k (.inr (h.bits k (.inl hk)))
    · exact hbit k (.inl hk)
    · exact hbit k (.inr (h.bits k (.inr hk)))
  · rw [mapBit_put h2.map_length hin2 (by show ¬ 0 = t; omega) ?_ hk,
      mapBit_put h₁.map_length hin1 (by decide) ?_ hk]
    · exact hsync hfits k hk
    · rintro r rfl
      exact h₁.not_has (by decide)
    · rintro r rfl hhas
      rw [h2.map] at hhas
      exact hnew (.inr hhas)

/-- **`free_map_close`** closes the only inode. -/
theorem freeMapClose_inv (hm : Mounted fs) (h : freeMapClose fs = .ok fs') :
    fs'.openInodes = [] ∧ fs'.dev = fs.dev ∧ fs'.freeMap = fs.freeMap := by
  obtain ⟨n, hl, hf, -⟩ := hm
  generalize fs.disk freeMapSector = i at hl
  obtain ⟨dev, map, file, inodes, next⟩ := fs
  obtain rfl : file = _ := hf
  obtain rfl : inodes = _ := hl
  have hinode : inode ⟨dev, map, some ⟨n + 1, n, 0, false⟩,
      [⟨n, freeMapSector, 1, false, 0, i⟩], next⟩ n = .ok ⟨n, freeMapSector, 1, false, 0, i⟩ := by
    unfold inode
    rw [find?_cons_of_pos (by simp)]
  have h : inodeClose _ n true true = _ := h
  unfold inodeClose at h
  rw [hinode] at h
  cases h
  refine ⟨?_, rfl, rfl⟩
  simp [Fs.drop]

theorem upTo_mark_mark (hroom : 2 ≤ b.bitCnt) (hzero : ∀ k < b.bitCnt, b.bit k = false) :
    ((b.mark freeMapSector).mark rootDirSector).UpTo 2 := by
  refine ⟨hroom, fun k hk => ?_⟩
  have hk : k < b.bitCnt := hk
  show ((b.mark 0).mark 1).bit k = _
  rw [bit_mark (show 1 < (b.mark 0).bitCnt from hroom),
    bit_mark (show 0 < b.bitCnt by omega), hzero k hk]
  by_cases h1 : k = 1
  · simp [h1]
  · by_cases h0 : k = 0
    · simp [h0]
    · rw [if_neg h1, if_neg h0, decide_eq_false (by omega)]

/-- A new file system: no entry is in use, and the sectors in use are the first ones. -/
structure Fresh (fs : Fs) : Prop where
  consistent : Consistent True fs []
  mounted : Mounted fs
  unused : ∀ k < rootEntries, entryInUse (fs.entry k) = false
  marks : ∃ p, fs.freeMap.UpTo p

/-- **A formatted device** is mounted with a new file system. -/
theorem filesysInit_fresh (hsize : dev.size < 4294967296)
    (h : filesysInit dev true m = .ok fs) : Fresh fs := by
  obtain ⟨fs0, hinit, h⟩ := bind_eq_ok.mp h
  obtain ⟨fs1, hformat, hopen⟩ := bind_eq_ok.mp h
  obtain ⟨b, hb, hcnt, hzero⟩ := create_eq dev.size m.words
  unfold freeMapInit at hinit
  split at hinit
  · rw [hb] at hinit
    cases hinit
    obtain ⟨fs2, hcreate, hformat⟩ := bind_eq_ok.mp (show doFormat _ m = _ from hformat)
    obtain ⟨s, hcreated, hmarks, hsize2⟩ := freeMapCreate_inv hcnt hsize rfl rfl (by
      intro k hk hlt
      have hk : k < b.bitCnt := by rwa [hcnt]
      show ((b.mark 0).mark 1).bit k = true
      by_cases h0 : k = 0
      · refine bit_mark_of_bit ?_ 1
        rw [bit_mark (by omega), if_pos h0]
      · rw [bit_mark (show 1 < (b.mark 0).bitCnt by show 1 < b.bitCnt; omega),
          if_pos (by omega)]) hcreate
    obtain ⟨⟨ok, fs3⟩, hroot, hclose⟩ := bind_eq_ok.mp hformat
    cases ok with
    | false => cases hclose
    | true =>
      obtain ⟨t, hformatted, hmarks'⟩ := hcreated.formatted hroot
      obtain ⟨hl, hdev, hmap⟩ := freeMapClose_inv hformatted.mounted hclose
      have hspec := freeMapOpen_spec hformatted.consistent hl hdev (by rw [hmap]) (m := m)
      obtain ⟨hcons, hmounted, hdev', hbits⟩ := hspec.2 fs hopen
      refine ⟨hcons, hmounted, fun k hk => ?_, ?_⟩
      · rw [entry_of_dev hdev']
        exact hformatted.unused k hk
      -- the free map has the inodes, then the map itself, and then the directory
      have hroom : 2 ≤ dev.size := by
        have := hcreated.room
        have hsize2 : fs2.dev.size = dev.size := hsize2
        omega
      have hp := hmarks'.upTo (hmarks.upTo (upTo_mark_mark (by rwa [hcnt]) (by rwa [hcnt])))
      refine ⟨2 + bytesToSectors (byteCnt dev.size) + 1, ?_, fun k hk => ?_⟩
      · rw [hcons.bitCnt, hdev', ← hformatted.bitCnt]
        exact hp.1
      · rw [hcons.bitCnt, hdev'] at hk
        rw [hbits k hk, hp.2 k (by rwa [hformatted.bitCnt])]
  · cases hinit

theorem filesysInit_format (hsize : dev.size < 4294967296)
    (h : filesysInit dev true m = .ok fs) : Consistent True fs [] ∧ Mounted fs :=
  ⟨(filesysInit_fresh hsize h).consistent, (filesysInit_fresh hsize h).mounted⟩

end Formatting
end Pintos.Filesys
