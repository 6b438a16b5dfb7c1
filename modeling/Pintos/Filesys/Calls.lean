/-
  The calls keep the invariant (`filesys/filesys.c`, `filesys/directory.c`, `filesys/file.c`).

  1. **`dir_add`** — when exactly it fails (`AddFails`), in terms of the directory before it.

  2. **`filesys_create`** — `Chain` is what its four steps can come to.  What each failure leaves
     behind is said there, and the call's clean-up is then seen to be enough or not.

  3. **`filesys_remove`** — the entry goes first, so that the file is the inode's own when the inode is
     marked; the last close releases it.

  4. **Calls come back**: none of them stops, whatever memory there is.
-/
import Pintos.Filesys.DirSteps

namespace Pintos.Filesys

open Base Lib List

/-- There is memory for the writes of the free map. -/
def Memory.MapWrites (m : Memory) : Prop :=
  m.mapSector = true ∧ m.mapExtent = true ∧ m.mapUndo = true ∧ m.mapInode = true ∧ m.mapData = true

/-! ## `dir_add` -/

/-- `dir_add` does not add an entry: the name is bad or found, the directory is full, or there is no
    memory for the write. -/
def AddFails (fs : Fs) (name : Name) (m : Memory) : Prop :=
  name.chars = [] ∨ nameMax < name.chars.length ∨
  (∃ j < rootEntries, (∀ i ≤ j, m.lookup i = true) ∧ fs.Named name j) ∨
  m.entry = false ∨
  ∀ i < rootEntries, m.slot i = true ∧ entryInUse (fs.entry i) = true

variable {k dir x : Nat} {P : Prop} {fs fs' : Fs} {refs : List Ref} {name : Name} {m : Memory}
  {e : Nat → Byte}

section

variable (h : ∀ k < rootEntries, ∀ j < entrySize, fs'.entry k j = fs.entry k j)
include h

theorem named_congr (hk : k < rootEntries) : fs'.Named name k ↔ fs.Named name k := by
  rw [Fs.Named, Fs.Named, entryInUse_congr (h k hk), entryName_congr (h k hk)]

theorem addFails_congr : AddFails fs' name m ↔ AddFails fs name m := by
  have hfound : (∃ j < rootEntries, (∀ i ≤ j, m.lookup i = true) ∧ fs'.Named name j) ↔
      ∃ j < rootEntries, (∀ i ≤ j, m.lookup i = true) ∧ fs.Named name j := by
    refine exists_congr fun j => and_congr_right fun hj => and_congr_right fun _ => ?_
    exact named_congr h hj
  have hfull : (∀ i < rootEntries, m.slot i = true ∧ entryInUse (fs'.entry i) = true) ↔
      ∀ i < rootEntries, m.slot i = true ∧ entryInUse (fs.entry i) = true := by
    refine forall_congr' fun i => imp_congr_right fun hi => ?_
    rw [entryInUse_congr (h i hi)]
  rw [AddFails, AddFails, hfound, hfull]

end

theorem entryInUse_entryFor (hlen : ¬ nameMax < name.chars.length) :
    entryInUse (entryFor e name x) = true := by
  rw [nameMax] at hlen
  rw [entryInUse, entryFor, if_neg (by omega), if_neg (by omega), if_neg (by omega), if_pos rfl]
  rfl

theorem entrySector_entryFor (hx : x < 4294967296) : entrySector (entryFor e name x) = x := by
  refine le32_encode hx fun k hk => ?_
  rw [zero_add, entryFor, if_pos hk]

/-- **`dir_add`** of a new file. -/
theorem dirAdd_spec (h : Consistent P fs refs) (hdir : fs.RootAt dir) (hnew : NewFile fs x)
    (name : Name) (m : Memory) :
    (dirAdd fs dir name x m = .ok (false, fs) ∧ AddFails fs name m) ∨
    ∃ k e, dirAdd fs dir name x m = .ok (true, fs.putEntry k e) ∧
      Consistent P (fs.putEntry k e) refs ∧ ¬ AddFails fs name m := by
  unfold dirAdd
  by_cases hbad : name.chars = [] ∨ nameMax < name.chars.length
  · rw [if_pos hbad]
    refine .inl ⟨rfl, ?_⟩
    rcases hbad with hbad | hbad
    · exact .inl hbad
    · exact .inr (.inl hbad)
  rw [if_neg hbad]
  obtain ⟨r, hlook, hspec, -⟩ := lookup_spec h hdir name m.lookup
  rw [hlook]
  cases hspec with
  | found hk hj hread hname =>
    exact .inl ⟨rfl, .inr (.inr (.inl ⟨_, hj, fun i hi => hread i (Nat.zero_le i) hi, hname⟩))⟩
  | none hno =>
    obtain ⟨j, e, hfind, hslot⟩ := findSlot_spec h hdir m.slot m.stack
    have heq : (findSlot fs dir m.slot m.stack >>= fun r =>
        writeEntry fs dir (entryFor r.2 name x) r.1 m.entry) =
        writeEntry fs dir (entryFor e name x) j m.entry := bind_of_ok hfind rfl
    rcases writeEntry_eq h hdir (entryFor e name x) j m.entry with ⟨hb, hj, hwrite⟩ | ⟨hstop, hwrite⟩
    · refine .inr ⟨j, entryFor e name x, heq.trans hwrite, h.putEntry hj fun _ => ?_, ?_⟩
      · rwa [entrySector_entryFor (Nat.lt_trans hnew.head.1.1 h.size_lt)]
      rintro (hc | hc | ⟨i, hi, hread, hname⟩ | hc | hfull)
      · exact hbad (.inl hc)
      · exact hbad (.inr hc)
      · exact hno i (Nat.zero_le i) hi (fun i' _ hi' => hread i' hi') hname
      · rw [hb] at hc
        cases hc
      · exact hslot.stop hj (hfull j hj)
    · refine .inl ⟨heq.trans hwrite, .inr (.inr (.inr ?_))⟩
      cases hb : m.entry with
      | false => exact .inl rfl
      | true =>
        refine .inr fun i hi => hslot.used i (Nat.zero_le i) ?_
        have : ¬ j < rootEntries := fun hj => hstop ⟨hb, hj⟩
        omega

/-! ## The root directory is opened and closed -/

def RootOpens (fs : Fs) (m : Memory) : Prop :=
  m.dir = true ∧ (m.rootInode = true ∨ ∃ i ∈ fs.openInodes, i.sector = rootDirSector)

variable {fs₁ fs₃ : Fs} {id : Nat}

theorem Consistent.rootAt (h : Consistent P fs (⟨dir, true⟩ :: refs)) : fs.RootAt dir :=
  h.refs ⟨dir, true⟩ mem_cons_self

theorem Fs.unref_unchanged (fs : Fs) (i : Inode) : (fs.unref i).dev = fs.dev ∧
    (fs.unref i).freeMap = fs.freeMap ∧ (fs.unref i).freeMapFile = fs.freeMapFile := by
  unfold Fs.unref
  split
  · exact ⟨rfl, rfl, rfl⟩
  · exact ⟨rfl, rfl, rfl⟩

/-- **Opening and closing** an inode leaves the list as it was. -/
theorem Opens.restore (ho : Opens fs x id fs₁) (h : Consistent P fs refs) {i : Inode}
    (hi : i ∈ fs₁.openInodes) (hid : i.id = id) (hl : fs₃.openInodes = fs₁.openInodes) :
    (fs₃.unref i).openInodes = fs.openInodes := by
  rcases ho with ⟨i0, hi0, -, rfl, rfl⟩ | ⟨-, rfl, rfl⟩
  · -- it was open, and is counted up and down
    have hup : ({ i0 with openCnt := i0.openCnt + 1 } : Inode).id = i0.id := rfl
    obtain rfl : i = { i0 with openCnt := i0.openCnt + 1 } := by
      rcases (Consistent.mem_update hi0 hup).mp hi with rfl | ⟨-, hne⟩
      · rfl
      · exact absurd hid hne
    have hpos := (h.opened i0 hi0).pos
    unfold Fs.unref
    rw [if_neg (show i0.openCnt + 1 ≠ 1 by omega)]
    show fs₃.openInodes.map _ = fs.openInodes
    rw [hl, Fs.update, map_map]
    refine (map_congr_left fun j hj => ?_).trans (map_id _)
    simp only [Function.comp_apply, Nat.add_sub_cancel, id_eq]
    by_cases hji : j.id = i0.id
    · obtain rfl := h.eq_of_id hj hi0 hji
      rw [if_pos rfl, if_pos rfl]
    · rw [if_neg hji, if_neg hji]
  · -- it was not, and its record comes and goes
    obtain rfl : i = ⟨fs.nextId, x, 1, false, 0, fs.disk x⟩ := by
      rcases mem_cons.mp hi with rfl | hi
      · rfl
      · exact absurd hid (Nat.ne_of_lt (h.opened i hi).id_lt)
    unfold Fs.unref
    rw [if_pos rfl]
    show fs₃.openInodes.filter _ = fs.openInodes
    rw [hl, Fs.push, filter_cons_of_neg (by simp)]
    refine filter_eq_self.mpr fun j hj => ?_
    exact decide_eq_true (Nat.ne_of_lt (h.opened j hj).id_lt)

/-- **`dir_close`** of the root directory, after a call that has not changed the list. -/
theorem dirClose_spec (ho : Opens fs rootDirSector dir fs₁) (h : Consistent P fs refs)
    (h3 : Consistent P fs₃ (⟨dir, true⟩ :: refs)) (hl : fs₃.openInodes = fs₁.openInodes)
    (m : Memory) :
    ∃ fs₄, dirClose fs₃ dir m = .ok fs₄ ∧ Consistent P fs₄ refs ∧ fs₄.dev = fs₃.dev ∧
      fs₄.freeMap = fs₃.freeMap ∧ fs₄.freeMapFile = fs₃.freeMapFile ∧
      fs₄.openInodes = fs.openInodes := by
  obtain ⟨i, hi, rfl, hs⟩ := h3.rootAt
  have hrem : i.removed = true → i.openCnt ≠ 1 :=
    fun hr => absurd hs ((h3.opened i hi).removed hr).2.1
  obtain ⟨hdev, hmap, hfile⟩ := fs₃.unref_unchanged i
  refine ⟨fs₃.unref i, inodeClose_unref h3 hi hrem, h3.unref hi, hdev, hmap, hfile, ?_⟩
  rw [hl] at hi
  exact ho.restore h hi rfl hl

theorem Consistent.root_lt (h : Consistent P fs refs) : rootDirSector < fs.dev.size :=
  h.lt_of_claim (o := (.root, .head)) rfl

/-- **`dir_open_root`.** -/
theorem dirOpenRoot_spec (h : Consistent P fs refs) (m : Memory) :
    (∃ fs', dirOpenRoot fs m = .ok (none, fs') ∧ Consistent P fs' refs ∧ fs'.dev = fs.dev ∧
      fs'.freeMap = fs.freeMap ∧ fs'.freeMapFile = fs.freeMapFile ∧
      fs'.openInodes = fs.openInodes ∧ ¬ RootOpens fs m) ∨
    ∃ dir fs', dirOpenRoot fs m = .ok (some dir, fs') ∧ Consistent P fs' (⟨dir, true⟩ :: refs) ∧
      Opens fs rootDirSector dir fs' ∧ RootOpens fs m := by
  unfold dirOpenRoot
  rcases inodeOpen_eq h.root_lt m.rootInode with ⟨hno, hnew, heq⟩ | ⟨dir, fs₁, heq, ho⟩
  · rw [heq]
    refine .inl ⟨fs, rfl, h, rfl, rfl, rfl, rfl, ?_⟩
    rintro ⟨-, hr | ⟨i, hi, hs⟩⟩
    · rw [hno] at hr
      cases hr
    · exact hnew i hi hs
  · have h1 : Consistent P fs₁ (⟨dir, true⟩ :: refs) := ho.consistent h (.inl rfl) rfl
    rw [heq]
    cases hd : m.dir with
    | true =>
      refine .inr ⟨dir, fs₁, rfl, h1, ho, hd, ?_⟩
      cases hr : m.rootInode with
      | true => exact .inl rfl
      | false =>
        -- without memory it must have been open
        rcases ho with ⟨i, hi, hs, -, -⟩ | ⟨hnew, -, -⟩
        · exact .inr ⟨i, hi, hs⟩
        · exfalso
          rw [hr] at heq
          unfold inodeOpen at heq
          rw [find?_eq_none.mpr fun i hi => by simpa using hnew i hi] at heq
          cases heq
    | false =>
      obtain ⟨fs₄, hclose, h4, hdev, hmap, hfile, hlist⟩ := dirClose_spec ho h h1 rfl m
      obtain ⟨hdev1, hmap1, hfile1⟩ := ho.unchanged
      refine .inl ⟨fs₄, bind_of_ok rfl (bind_of_ok hclose rfl), h4, hdev.trans hdev1, hmap.trans hmap1,
        hfile.trans hfile1, hlist, ?_⟩
      rintro ⟨hr, -⟩
      rw [hd] at hr
      cases hr

/-! ## `filesys_create` -/

/-- There are `n` consecutive free sectors besides `x`. -/
def Fs.Room (fs : Fs) (x n : Nat) : Prop := ∃ start, start + n ≤ fs.dev.size ∧
    ∀ k, start ≤ k → k < start + n → fs.freeMap.bit k = false ∧ k ≠ x

def Fs.FirstFree (fs : Fs) (x : Nat) : Prop := Bitmap.Found fs.freeMap 0 1 false (some x)

/-- **What the steps of `filesys_create` come to**, and why. -/
inductive Chain (fs : Fs) (name : Name) (size : Int) (m : Memory) : Bool → Nat → Fs → Prop where
  | noSector {fs' : Fs} (bits : ∀ k, fs'.freeMap.bit k = fs.freeMap.bit k)
      (why : ¬ (fs.Fits m.mapSector ∧ ∃ x, fs.FirstFree x)) : Chain fs name size m false 0 fs'
  | noInode {x : Nat} {fs' : Fs} (first : fs.FirstFree x) (spare : fs'.Spare x)
      (bits : ∀ k, fs'.freeMap.bit k = if k = x then true else fs.freeMap.bit k)
      (why : ¬ (m.diskInode = true ∧ fs.Fits m.mapExtent ∧ fs.Room x (bytesToSectors size))) :
      Chain fs name size m false x fs'
  /-- Here the sectors of the data are marked. -/
  | noEntry {x start : Nat} {fs' : Fs} (first : fs.FirstFree x) (spare : fs'.Spare x)
      (sector : fs.Fits m.mapSector) (memory : m.diskInode = true) (extent : fs.Fits m.mapExtent)
      (room : start + bytesToSectors size ≤ fs.dev.size)
      (free : ∀ k, start ≤ k → k < start + bytesToSectors size → fs.freeMap.bit k = false ∧ k ≠ x)
      (bits : ∀ k, fs'.freeMap.bit k = if k = x ∨ start ≤ k ∧ k < start + bytesToSectors size
        then true else fs.freeMap.bit k)
      (fails : AddFails fs name m) : Chain fs name size m false x fs'
  | done {x : Nat} {fs' : Fs} (adds : ¬ AddFails fs name m) : Chain fs name size m true x fs'

variable {n : Nat} {size : Int}

section Creation

variable {b b' : Bitmap}

theorem firstFree_bit (hx : fs.FirstFree x) : fs.freeMap.bit x = false := hx.2.2.1 0 Nat.one_pos

theorem firstFree_unique {y : Nat} (hx : fs.FirstFree x) (hy : fs.FirstFree y) : x = y := by
  rcases Nat.lt_trichotomy x y with hlt | heq | hlt
  · exact absurd hx.2.2.1 (hy.2.2.2 x (Nat.zero_le x) hlt)
  · exact heq
  · exact absurd hy.2.2.1 (hx.2.2.2 y (Nat.zero_le y) hlt)

/-- The sector of the free map is not free. -/
theorem Consistent.firstFree_ne_zero (h : Consistent P fs refs) (hx : fs.FirstFree x) : x ≠ 0 := by
  rintro rfl
  have hused := (h.owned.used_of_claim (o := (.map, .head)) (r := freeMapSector) rfl).2
  rw [show fs.freeMap.bit freeMapSector = false from firstFree_bit hx] at hused
  cases hused

theorem filled_one {v : Bool} (h : Bitmap.Filled b x 1 v b') (k : Nat) :
    b'.bit k = if k = x then v else b.bit k := by
  rw [h.2]
  simp only [show (x ≤ k ∧ k < x + 1) ↔ k = x by omega]

theorem free_of_group {start : Nat} (hbits : ∀ k, b'.bit k = if k = x then true else b.bit k)
    (hg : Bitmap.Group b' start n false) (h0 : start ≤ k) (h1 : k < start + n) :
    b.bit k = false ∧ k ≠ x := by
  have hk := hg.bit_eq h0 h1
  rw [hbits] at hk
  by_cases hkx : k = x
  · rw [if_pos hkx] at hk
    cases hk
  · rw [if_neg hkx] at hk
    exact ⟨hk, hkx⟩

/-- **The steps of `filesys_create`** keep the invariant. -/
theorem createSteps_spec (h : Consistent P fs refs) (hdir : fs.RootAt dir) (name : Name)
    (h0 : 0 ≤ size) (h1 : size < 2147483648) (hP : P → m.MapWrites) :
    ∃ ok x fs', createSteps fs dir name size m = .ok ((ok, x), fs') ∧ Consistent P fs' refs ∧
      fs'.openInodes = fs.openInodes ∧ (ok = false → Quiet fs fs') ∧
      Chain fs name size m ok x fs' := by
  obtain ⟨r, fs₁, halloc, h₁, ha⟩ := freeMapAllocate_spec h 1 fun hp => (hP hp).1
  cases r with
  | none =>
    obtain ⟨hwhy, hbits⟩ := ha.failed rfl
    refine ⟨false, 0, fs₁, bind_of_ok halloc rfl, h₁, ha.openInodes, fun _ => ha.toQuiet,
      .noSector hbits ?_⟩
    rintro ⟨hfits, x, hx⟩
    rcases hwhy with hnone | hnot
    · exact hnone x (Nat.zero_le x) hx.2.1 hx.2.2.1
    · exact hnot hfits
  | some x =>
    obtain ⟨hfirst, hfits, hfill⟩ := ha.found x rfl
    obtain ⟨hx1, -⟩ := ha.spare h (Nat.le_refl x) (Nat.lt_succ_self x)
    have hbits1 := filled_one hfill
    have hsame : fs₁.Fits m.mapExtent ↔ fs.Fits m.mapExtent := by
      rw [Fs.Fits, Fs.Fits, ha.size]
    obtain ⟨made, fs2, hcreate, h2, hc⟩ :=
      inodeCreate_spec h₁ hx1 h0 h1 m.diskInode fun hp => (hP hp).2.1
    have hq2 := ha.toQuiet.trans hc.toQuiet
    cases made with
    | false =>
      obtain ⟨hwhy, hbits⟩ := hc.failed rfl
      refine ⟨false, x, fs2, bind_of_ok halloc (bind_of_ok hcreate rfl), h2, hq2.openInodes,
        fun _ => hq2, .noInode hfirst hc.spare (fun k => by rw [hbits, hbits1]) ?_⟩
      rintro ⟨hmem, hext, start, hroom, hfree⟩
      rcases hwhy with hno | hno | hno
      · rw [hno] at hmem
        cases hmem
      · exact hno (hsame.mpr hext)
      · refine hno start (Nat.zero_le _) (by rwa [h₁.bitCnt, ha.size]) fun j hj => ?_
        obtain ⟨hbit, hne⟩ := hfree (start + j) (by omega) (by omega)
        rwa [hbits1, if_neg hne]
    | true =>
      obtain ⟨hmem, hext, start, hfound, hfill2, hdisk, hroom, hbody⟩ := hc.made rfl
      have hfree : ∀ k, start ≤ k → k < start + bytesToSectors size →
          fs.freeMap.bit k = false ∧ k ≠ x :=
        fun k hk0 hk1 => free_of_group hbits1 hfound.2.2.1 hk0 hk1
      have hnew : NewFile fs2 x := by
        refine ⟨hc.spare, hbody, ?_, ?_⟩
        · rwa [hdisk]
        · rwa [hdisk, hc.size]
      have hdir2 : fs2.RootAt dir := by
        rwa [Fs.RootAt, hq2.openInodes]
      rcases dirAdd_spec h2 hdir2 hnew name m with ⟨hadd, hfails⟩ | ⟨k, e, hadd, h3, hadds⟩
      · refine ⟨false, x, fs2, bind_of_ok halloc (bind_of_ok hcreate (bind_of_ok hadd rfl)), h2,
          hq2.openInodes, fun _ => hq2,
          .noEntry hfirst hc.spare hfits hmem (hsame.mp hext) (by rwa [← ha.size]) hfree
            (fun k => ?_) ((addFails_congr hq2.entries).mp hfails)⟩
        rw [hfill2.2, hbits1]
        by_cases hk : start ≤ k ∧ k < start + bytesToSectors size
        · rw [if_pos hk, if_pos (.inr hk)]
        · simp only [hk, or_false, if_false]
      · exact ⟨true, x, fs2.putEntry k e,
          bind_of_ok halloc (bind_of_ok hcreate (bind_of_ok hadd rfl)), h3, hq2.openInodes, nofun,
          .done fun hf => hadds ((addFails_congr hq2.entries).mpr hf)⟩

end Creation

/-- The call comes to `dir_add` with data sectors marked, and `dir_add` fails. -/
structure Leaks (fs : Fs) (name : Name) (size : Int) (m : Memory) : Prop where
  root : RootOpens fs m
  sector : fs.Fits m.mapSector
  memory : m.diskInode = true
  extent : fs.Fits m.mapExtent
  room : ∃ x, fs.FirstFree x ∧ fs.Room x (bytesToSectors size)
  data : 0 < bytesToSectors size
  fails : AddFails fs name m

/-- The directory, the open inodes and the contents of every file are as before, those of the free map's
    file apart: it follows the bitmap, in so far as it can be written. -/
structure LeftAlone (fs fs' : Fs) : Prop extends SameFiles fs fs' where
  openInodes : fs'.openInodes = fs.openInodes
  freeMapFile : fs'.freeMapFile = fs.freeMapFile
  size : fs'.dev.size = fs.dev.size
  bytes : ∀ o s, fs.claims o s → o ≠ (.map, .body) → ∀ b, b / sectorSize = s →
    fs'.dev.bytes b = fs.dev.bytes b

section Create

variable {fs₄ : Fs}

/-- Opening takes no file away. -/
theorem Opens.claims (ho : Opens fs x id fs₁) (h : Consistent P fs refs) {o : Who × Part} {s : Nat}
    (hc : fs.claims o s) : fs₁.claims o s := by
  have hdisk := disk_of_dev ho.unchanged.1
  have hentry := entry_of_dev ho.unchanged.1
  have hmem : ∀ i ∈ fs.openInodes, ∃ j ∈ fs₁.openInodes, j.id = i.id ∧ j.sector = i.sector := by
    intro i hi
    rcases ho with ⟨i0, hi0, -, -, rfl⟩ | ⟨-, -, rfl⟩
    · have hup : ({ i0 with openCnt := i0.openCnt + 1 } : Inode).id = i0.id := rfl
      by_cases hii : i.id = i0.id
      · obtain rfl := h.eq_of_id hi hi0 hii
        exact ⟨_, (Consistent.mem_update hi0 hup).mpr (.inl rfl), rfl, rfl⟩
      · exact ⟨i, (Consistent.mem_update hi0 hup).mpr (.inr ⟨hi, hii⟩), rfl, rfl⟩
    · exact ⟨i, mem_cons_of_mem _ hi, rfl, rfl⟩
  have hholds : ∀ w y, fs.Holds w y → fs₁.Holds w y := by
    intro w y hw
    cases w with
    | map => exact hw
    | root => exact hw
    | entry k =>
      show k < rootEntries ∧ entryInUse (fs₁.entry k) = true ∧ entrySector (fs₁.entry k) = y
      rwa [hentry]
    | opened =>
      obtain ⟨⟨i, hi, rfl, rfl⟩, h0, h1, hl⟩ := hw
      refine ⟨hmem i hi, h0, h1, ?_⟩
      rintro ⟨k, hk, hu, hx⟩
      rw [hentry] at hu hx
      exact hl ⟨k, hk, hu, hx⟩
  exact claims_of_holds hholds (fun _ x _ => (hdisk x).symm) o s hc

theorem leftAlone_of_quiet (ho : Opens fs x id fs₁) (h : Consistent P fs refs) (hq : Quiet fs₁ fs₃)
    (hdev : fs₄.dev = fs₃.dev) (hfile : fs₄.freeMapFile = fs₃.freeMapFile)
    (hl : fs₄.openInodes = fs.openInodes) : LeftAlone fs fs₄ := by
  obtain ⟨hdev1, -, hfile1⟩ := ho.unchanged
  refine ⟨sameFiles_of_disk hl ?_ ?_, hl, ?_, ?_, ?_⟩
  · intro w y hw
    rw [disk_of_dev hdev, hq.disk w y (ho.claims h (o := (w, .head)) hw), disk_of_dev hdev1]
  · intro k hk j hj
    rw [entry_of_dev hdev, hq.entries k hk j hj, entry_of_dev hdev1]
  · rw [hfile, hq.freeMapFile, hfile1]
  · rw [hdev, hq.size, hdev1]
  · intro o s hc hne b hb
    rw [hdev, hq.bytes o s (ho.claims h hc) hne b hb, hdev1]

theorem leftAlone_of_dev (hdev : fs'.dev = fs.dev)
    (hfile : fs'.freeMapFile = fs.freeMapFile) (hl : fs'.openInodes = fs.openInodes) :
    LeftAlone fs fs' :=
  ⟨sameFiles_of_disk hl (fun _ x _ => disk_of_dev hdev x) fun k _ _ _ => by rw [entry_of_dev hdev],
    hl, hfile, by rw [hdev], fun _ _ _ _ b _ => by rw [hdev]⟩

/-- The same free map, as far as the outcome of an allocation goes. -/
theorem chain_of_opens (ho : Opens fs rootDirSector dir fs₁) {ok : Bool}
    (hc : Chain fs₁ name size m ok x fs') : Chain fs name size m ok x fs' := by
  obtain ⟨hdev, hmap, -⟩ := ho.unchanged
  have hadd : AddFails fs₁ name m ↔ AddFails fs name m :=
    addFails_congr fun k _ j _ => by rw [entry_of_dev hdev]
  cases hc with
  | noSector bits why =>
    rw [hmap] at bits
    rw [Fs.Fits, hdev] at why
    exact .noSector bits fun hf => why ⟨hf.1, by simpa only [Fs.FirstFree, hmap] using hf.2⟩
  | noInode first spare bits why =>
    rw [Fs.FirstFree, hmap] at first
    rw [hmap] at bits
    rw [Fs.Fits, Fs.Room, hdev, hmap] at why
    exact .noInode first spare bits why
  | noEntry first spare sector memory extent room free bits fails =>
    rw [Fs.FirstFree, hmap] at first
    rw [hmap] at bits free
    rw [Fs.Fits, hdev] at sector extent
    rw [hdev] at room
    exact .noEntry first spare sector memory extent room free bits (hadd.mp fails)
  | done adds => exact .done fun hf => adds (hadd.mpr hf)

/-- **What a creation that fails leaves in the free map**: marks if it `Leaks`, and otherwise nothing. -/
def FreeMapAfter (fs : Fs) (name : Name) (size : Int) (m : Memory) (fs' : Fs) : Prop :=
  (Leaks fs name size m ∧ ∃ k < fs.dev.size, fs.freeMap.bit k = false ∧ fs'.freeMap.bit k = true) ∨
  (¬ Leaks fs name size m ∧ ∀ k, fs'.freeMap.bit k = fs.freeMap.bit k)

/-- The one clean-up statement takes back the sector of the inode. -/
theorem chain_undo (h : Consistent P fs refs) (hroot : RootOpens fs m) {refs' : List Ref}
    (h3 : Consistent P fs₃ refs') (hc : Chain fs name size m false x fs₃) (hP : P → m.MapWrites) :
    ∃ fs', createUndo fs₃ false x m = .ok fs' ∧
      Consistent P fs' refs' ∧ Quiet fs₃ fs' ∧ FreeMapAfter fs name size m fs' := by
  -- the release of a spare sector
  have hrelease : ∀ {y}, fs.FirstFree y → fs₃.Spare y → ∃ fs', createUndo fs₃ false y m = .ok fs' ∧
      Consistent P fs' refs' ∧ Quiet fs₃ fs' ∧
      ∀ k, fs'.freeMap.bit k = if k = y then false else fs₃.freeMap.bit k := by
    intro y hfirst hspare
    obtain ⟨fs', hrel, h', hq, hfill⟩ := freeMapRelease_spec y 1 h3
      (by have := hspare.1.1; omega)
      (fun k h0 h1 => by
        obtain rfl : k = y := by omega
        exact hspare)
      fun hp => (hP hp).2.2.1
    refine ⟨fs', ?_, h', hq, filled_one hfill⟩
    rwa [createUndo, if_pos ⟨rfl, h.firstFree_ne_zero hfirst⟩]
  cases hc with
  | noSector bits why =>
    refine ⟨fs₃, if_neg fun hz => hz.2 rfl, h3, Quiet.refl fs₃, .inr ⟨fun hl => why ?_, bits⟩⟩
    obtain ⟨x, hx, -⟩ := hl.room
    exact ⟨hl.sector, x, hx⟩
  | noInode first spare bits why =>
    obtain ⟨fs', hrel, h', hq, hbits⟩ := hrelease first spare
    refine ⟨fs', hrel, h', hq, .inr ⟨fun hl => why ?_, fun k => ?_⟩⟩
    · obtain ⟨y, hy, hroom⟩ := hl.room
      obtain rfl := firstFree_unique first hy
      exact ⟨hl.memory, hl.extent, hroom⟩
    · rw [hbits, bits]
      by_cases hk : k = x
      · rw [if_pos hk, hk, firstFree_bit first]
      · rw [if_neg hk, if_neg hk]
  | @noEntry _ start _ first spare sector memory extent room free bits fails =>
    obtain ⟨fs', hrel, h', hq, hbits⟩ := hrelease first spare
    refine ⟨fs', hrel, h', hq, ?_⟩
    by_cases hdata : 0 < bytesToSectors size
    · -- the first sector of the data stays marked
      obtain ⟨hfree, hne⟩ := free start (Nat.le_refl start) (by omega)
      refine .inl ⟨⟨hroot, sector, memory, extent, ⟨x, first, start, room, free⟩, hdata, fails⟩,
        start, by omega, hfree, ?_⟩
      rw [hbits, if_neg hne, bits, if_pos (.inr ⟨Nat.le_refl start, by omega⟩)]
    · refine .inr ⟨fun hl => hdata hl.data, fun k => ?_⟩
      rw [hbits, bits]
      by_cases hk : k = x
      · rw [if_pos hk, hk, firstFree_bit first]
      · rw [if_neg hk, if_neg (by omega)]

/-- **`filesys_create`** keeps the invariant, and returns. -/
theorem filesysCreate_spec (h : Consistent P fs refs) (name : Name) (h0 : 0 ≤ size)
    (h1 : size < 2147483648) (hP : P → m.MapWrites) :
    ∃ ok fs', filesysCreate fs name size m = .ok (ok, fs') ∧ Consistent P fs' refs ∧
      (ok = true → ¬ AddFails fs name m) ∧
      (ok = false → LeftAlone fs fs' ∧ FreeMapAfter fs name size m fs') := by
  rcases dirOpenRoot_spec h m with
    ⟨fs', hopen, h', hdev, hmap, hfile, hl, hno⟩ | ⟨dir, fs₁, hopen, h₁, ho, hroot⟩
  · exact ⟨false, fs', bind_of_ok hopen rfl, h', nofun, fun _ => ⟨leftAlone_of_dev hdev hfile hl,
      .inr ⟨fun hk => hno hk.root, fun k => by rw [hmap]⟩⟩⟩
  obtain ⟨ok, x, fs2, hsteps, h2, hl2, hquiet, hchain⟩ :=
    createSteps_spec h₁ h₁.rootAt name h0 h1 hP
  have hchain := chain_of_opens ho hchain
  cases ok with
  | true =>
    obtain ⟨fs₄, hclose, h4, -⟩ := dirClose_spec ho h h2 hl2 m
    refine ⟨true, fs₄, bind_of_ok hopen (bind_of_ok hsteps (bind_of_ok rfl (bind_of_ok hclose rfl))),
      h4, fun _ => ?_, nofun⟩
    cases hchain with
    | done adds => exact adds
  | false =>
    obtain ⟨fs₃, hundo, h3, hq3, hafter⟩ := chain_undo h hroot h2 hchain hP
    obtain ⟨fs₄, hclose, h4, hdev, hmap, hfile, hl⟩ :=
      dirClose_spec ho h h3 (hq3.openInodes.trans hl2) m
    refine ⟨false, fs₄,
      bind_of_ok hopen (bind_of_ok hsteps (bind_of_ok hundo (bind_of_ok hclose rfl))), h4, nofun,
      fun _ => ⟨?_, ?_⟩⟩
    · exact leftAlone_of_quiet ho h ((hquiet rfl).trans hq3) hdev hfile hl
    · rwa [FreeMapAfter, hmap]

end Create

/-! ## Files are opened -/

def File.ref (f : File) : Ref := ⟨f.inode, false⟩

/-- A file that nobody has denied writes to, at a position. -/
def File.Plain (f : File) : Prop := f.denyWrite = false ∧ 0 ≤ f.pos

section Files

variable {file : File} {mapInode mapData : Bool}

theorem Consistent.bump (h : Consistent P fs refs) :
    Consistent P { fs with nextId := fs.nextId + 1 } refs := by
  refine h.relist (fun i hi _ _ _ => ⟨i, hi, rfl, rfl⟩) (fun i hi _ => ⟨i, hi, rfl, rfl⟩)
    (fun i hi => ?_) h.sectors h.ids h.refs
  have ho := h.opened i hi
  exact ⟨ho.data, ho.deny, Nat.lt_succ_of_lt ho.id_lt, ho.count, ho.pos, ho.removed⟩

/-- **`file_open`** takes over the reference, or closes the inode. -/
theorem fileOpen_spec {inode : Option Nat}
    (h : Consistent P fs (inode.toList.map (fun id => ⟨id, false⟩) ++ refs)) (alloc : Bool)
    (hP : P → mapInode = true ∧ mapData = true) :
    ∃ f fs', fileOpen fs inode alloc mapInode mapData = .ok (f, fs') ∧
      Consistent P fs' (f.toList.map File.ref ++ refs) ∧ ∀ g ∈ f, g.Plain := by
  cases inode with
  | none => exact ⟨none, fs, rfl, h, nofun⟩
  | some id =>
    cases alloc with
    | true =>
      refine ⟨some ⟨fs.nextId, id, 0, false⟩, _, rfl, h.bump, fun g hg => ?_⟩
      cases hg
      exact ⟨rfl, Int.le_refl 0⟩
    | false =>
      obtain ⟨fs', hclose, h'⟩ := inodeClose_spec
        (show Consistent P fs (⟨id, false⟩ :: refs) from h) hP
      exact ⟨none, fs', bind_of_ok hclose rfl, h', nofun⟩

/-- The file of an entry is neither the directory nor the free map. -/
theorem Consistent.linked_at (h : Consistent P fs refs) (id : Nat) (hx : fs.Linked x) :
    Ref.At ⟨id, false⟩ x ∧ x < fs.dev.size := by
  obtain ⟨k, hk⟩ := hx
  have hholds : fs.Holds (.entry k) x := hk
  refine ⟨⟨fun h0 => ?_, fun h1 => ?_⟩, h.lt_of_claim (o := (.entry k, .head)) hholds⟩
  · cases h.who_eq hholds (show fs.Holds .map x from h0)
  · cases h.who_eq hholds (show fs.Holds .root x from h1)

theorem Lookup.linked {bounce : Nat → Bool} {j : Nat}
    (hl : Lookup fs name bounce 0 (some (j, e))) : fs.Linked (entrySector e) := by
  cases hl with
  | found hk hj hread hname he => exact ⟨j, hj, hname.1, (entrySector_congr he).symm⟩

section

variable (h : Consistent P fs refs)
include h

/-- **`dir_lookup`.** -/
theorem dirLookup_spec (hdir : fs.RootAt dir) (name : Name) (m : Memory) :
    ∃ r fs', dirLookup fs dir name m = .ok (r, fs') ∧
      Consistent P fs' (r.toList.map (fun id => ⟨id, false⟩) ++ refs) := by
  obtain ⟨r, hlook, hspec, -⟩ := lookup_spec h hdir name m.lookup
  cases r with
  | none => exact ⟨none, fs, bind_of_ok hlook rfl, h⟩
  | some =>
    have hlinked := hspec.linked
    rcases inodeOpen_eq (h.linked_at 0 hlinked).2 m.inode with
      ⟨-, -, heq⟩ | ⟨id, fs', heq, ho⟩
    · exact ⟨none, fs, bind_of_ok hlook heq, h⟩
    · exact ⟨some id, fs', bind_of_ok hlook heq,
        ho.consistent h (.inr hlinked) (h.linked_at id hlinked).1⟩

/-- **`filesys_open`** keeps the invariant, and returns. -/
theorem filesysOpen_spec (name : Name) (hP : P → m.MapWrites) :
    ∃ f fs', filesysOpen fs name m = .ok (f, fs') ∧
      Consistent P fs' (f.toList.map File.ref ++ refs) ∧ ∀ g ∈ f, g.Plain := by
  rcases dirOpenRoot_spec h m with ⟨fs', hopen, h', -⟩ | ⟨dir, fs₁, hopen, h1, -, -⟩
  · exact ⟨none, fs', bind_of_ok hopen rfl, h', nofun⟩
  · obtain ⟨r, fs2, hlook, h2⟩ := dirLookup_spec h1 h1.rootAt name m
    obtain ⟨fs₃, hclose, h3⟩ := inodeClose_spec (h2.perm perm_middle) fun hp => (hP hp).2.2.2
    obtain ⟨f, fs₄, hfile, h4, hplain⟩ := fileOpen_spec h3 m.file fun hp => (hP hp).2.2.2
    exact ⟨f, fs₄, bind_of_ok hopen (bind_of_ok hlook (bind_of_ok hclose hfile)), h4, hplain⟩

/-- **`file_reopen`.** -/
theorem fileReopen_spec (hfile : file.ref ∈ refs) (hP : P → m.MapWrites) :
    ∃ f fs', fileReopen fs file m = .ok (f, fs') ∧
      Consistent P fs' (f.toList.map File.ref ++ refs) ∧ ∀ g ∈ f, g.Plain := by
  obtain ⟨i, hi, hid, hat⟩ := h.refs _ hfile
  have hid : i.id = file.inode := hid
  have hup : Consistent P (fs.update { i with openCnt := i.openCnt + 1 }) (⟨i.id, false⟩ :: refs) :=
    h.countUp hi hat
  rw [hid] at hup
  obtain ⟨f, fs', hopen, h', hplain⟩ :=
    fileOpen_spec (show Consistent P _ ((some file.inode).toList.map _ ++ refs) from hup) m.file
      fun hp => (hP hp).2.2.2
  refine ⟨f, fs', ?_, h', hplain⟩
  unfold fileReopen inodeReopen
  rw [← hid, h.inode_eq hi]
  rwa [← hid] at hopen

end

/-! ## Files are removed, closed and written -/

/-- **The end of `dir_remove`**: the entry is erased, and then its file is the inode's. -/
theorem eraseEntry_spec (h : Consistent P fs (⟨id, false⟩ :: refs))
    (hdir : fs.RootAt dir) (hk : fs.Holds (.entry k) (entrySector e))
    (hid : ∃ i ∈ fs.openInodes, i.id = id ∧ i.sector = entrySector e) (hP : P → m.MapWrites) :
    ∃ ok fs', eraseEntry fs dir k e id m = .ok (ok, fs') ∧ Consistent P fs' refs := by
  rcases writeEntry_eq h hdir (entryFreed e) k m.entry with ⟨-, hlt, hwrite⟩ | ⟨-, hwrite⟩
  · obtain ⟨i, hi, rfl, hs⟩ := hid
    have h1 : Consistent P (fs.putEntry k (entryFreed e)) (⟨i.id, false⟩ :: refs) := by
      refine h.putEntry hlt fun hu => ?_
      cases hu
    have hi1 : i ∈ (fs.putEntry k (entryFreed e)).openInodes := hi
    have ho := h1.opened i hi1
    -- no other entry names the file
    have hgone : ¬ (fs.putEntry k (entryFreed e)).Linked i.sector := by
      rw [linked_putEntry h hlt, hs]
      rintro (⟨hu, -⟩ | ⟨k', hne, hk'⟩)
      · cases hu
      · exact hne (Who.entry.inj (h.who_eq hk' hk))
    have hat : i.sector ≠ freeMapSector ∧ i.sector ≠ rootDirSector := by
      rw [hs]
      exact (h.linked_at 0 ⟨k, hk⟩).1
    have h2 : Consistent P ((fs.putEntry k (entryFreed e)).update { i with removed := true })
        (⟨i.id, false⟩ :: refs) :=
      h1.update hi1 rfl rfl ⟨ho.data, ho.deny, ho.id_lt, ho.count, ho.pos,
        fun _ => ⟨hat.1, hat.2, hgone⟩⟩ (fun _ _ _ => rfl) h1.refs
    obtain ⟨fs', hclose, h'⟩ := inodeClose_spec h2 fun hp => (hP hp).2.2.2
    have hremove : inodeRemove (fs.putEntry k (entryFreed e)) i.id =
        .ok ((fs.putEntry k (entryFreed e)).update { i with removed := true }) :=
      bind_of_ok (h1.inode_eq hi1) rfl
    exact ⟨true, fs', bind_of_ok hwrite (bind_of_ok hremove (bind_of_ok hclose rfl)), h'⟩
  · obtain ⟨fs', hclose, h'⟩ := inodeClose_spec h fun hp => (hP hp).2.2.2
    exact ⟨false, fs', bind_of_ok hwrite (bind_of_ok rfl (bind_of_ok hclose rfl)), h'⟩

/-- **`dir_remove`.** -/
theorem dirRemove_spec (h : Consistent P fs (⟨dir, true⟩ :: refs)) (name : Name)
    (hP : P → m.MapWrites) :
    ∃ ok fs', dirRemove fs dir name m = .ok (ok, fs') ∧ Consistent P fs' (⟨dir, true⟩ :: refs) := by
  obtain ⟨r, hlook, hspec, -⟩ := lookup_spec h h.rootAt name m.lookup
  cases r with
  | none => exact ⟨false, fs, bind_of_ok hlook rfl, h⟩
  | some r =>
    obtain ⟨k, e⟩ := r
    have hlinked := hspec.linked
    have hk : fs.Holds (.entry k) (entrySector e) := by
      cases hspec with
      | found _ hj _ hname he => exact ⟨hj, hname.1, (entrySector_congr he).symm⟩
    rcases inodeOpen_eq (h.linked_at 0 hlinked).2 m.inode with
      ⟨-, -, heq⟩ | ⟨id, fs₁, heq, ho⟩
    · exact ⟨false, fs, bind_of_ok hlook (bind_of_ok heq rfl), h⟩
    have hat : Ref.At ⟨id, false⟩ (entrySector e) := (h.linked_at id hlinked).1
    have h1 := ho.consistent h (.inr hlinked) hat
    have hdir1 : fs₁.RootAt dir := h1.refs ⟨dir, true⟩ (mem_cons_of_mem _ mem_cons_self)
    have hk1 : fs₁.Holds (.entry k) (entrySector e) := ho.claims h (o := (.entry k, .head)) hk
    obtain ⟨ok, fs', herase, h'⟩ := eraseEntry_spec h1 hdir1 hk1 ho.mem hP
    exact ⟨ok, fs', bind_of_ok hlook (bind_of_ok heq herase), h'⟩

/-- **`filesys_remove`** keeps the invariant, and returns. -/
theorem filesysRemove_spec (h : Consistent P fs refs) (name : Name) (hP : P → m.MapWrites) :
    ∃ ok fs', filesysRemove fs name m = .ok (ok, fs') ∧ Consistent P fs' refs := by
  rcases dirOpenRoot_spec h m with ⟨fs', hopen, h', -⟩ | ⟨dir, fs₁, hopen, h1, -, -⟩
  · exact ⟨false, fs', bind_of_ok hopen rfl, h'⟩
  · obtain ⟨ok, fs2, hremove, h2⟩ := dirRemove_spec h1 name hP
    obtain ⟨fs₃, hclose, h3⟩ := inodeClose_spec h2 fun hp => (hP hp).2.2.2
    exact ⟨ok, fs₃, bind_of_ok hopen (bind_of_ok hremove (bind_of_ok hclose rfl)), h3⟩

/-- **`file_close`.** -/
theorem fileClose_spec (h : Consistent P fs (file.ref :: refs)) (hplain : file.Plain)
    (hP : P → mapInode = true ∧ mapData = true) :
    ∃ fs', fileClose fs file mapInode mapData = .ok fs' ∧ Consistent P fs' refs := by
  obtain ⟨fs', hclose, h'⟩ := inodeClose_spec h hP
  refine ⟨fs', ?_, h'⟩
  unfold fileClose fileAllowWrite
  rwa [if_neg (by rw [hplain.1]; exact Bool.false_ne_true)]

/-- The bytes that a write transfers are in the extent of the file. -/
theorem within_file {w : Who} (hw : fs.Holds w x) {size offset : Int}
    (ho : 0 ≤ offset) (hn : n ≤ transferred (fs.disk x) size offset) :
    Within (byteAt (fs.disk x) offset) n (fs.claims (w, .body)) := by
  intro b h0 h1
  have hk : b - byteAt (fs.disk x) offset < transferred (fs.disk x) size offset := by omega
  have hlt := transferred_le hk
  have hdiv := div_lt_bytesToSectors (fs.disk_length_lt x) (by omega) hlt
  refine ⟨x, hw, ?_⟩
  simp only [InodeDisk.Has, byteAt, sectorSize] at *
  omega

/-- **`file_write`** writes to its own file. -/
theorem fileWrite_spec (h : Consistent P fs refs) (hfile : file.ref ∈ refs)
    (hplain : file.Plain) (buffer : Nat → Byte) (size : Int) (bounce : Bool) :
    ∃ file' fs', fileWrite fs file buffer size bounce = .ok (file', fs') ∧ Consistent P fs' refs ∧
      file'.ref = file.ref ∧ file'.Plain := by
  obtain ⟨i, hi, hid, h0, h1⟩ := h.refs _ hfile
  have hid : i.id = file.inode := hid
  have ho := h.opened i hi
  obtain ⟨w, hw⟩ := Fs.held hi
  have hwrite := inodeWriteAt_eq (h.onDevice hw) buffer size hplain.2 bounce
  rw [← ho.data, ← ho.deny] at hwrite
  have hwithin := within_file hw hplain.2 (moved_le bounce file.pos
    (transferred (fs.disk i.sector) size file.pos))
  have hput : Consistent P (fs.put (byteAt (fs.disk i.sector) file.pos)
      (moved bounce file.pos (transferred (fs.disk i.sector) size file.pos)) buffer) refs := by
    refine h.put hwithin fun s hs o hc => ?_
    rw [h.owned.unique hc hs]
    refine ⟨rfl, ?_, ?_⟩
    · rintro rfl
      exact h1 hw
    · rintro rfl
      exact h0 hw
  rw [← ho.data] at hput
  exact ⟨_, _, bind_of_ok (hid ▸ h.inode_eq hi) (bind_of_ok hwrite rfl), hput, rfl, hplain.1,
    Int.add_nonneg hplain.2 (Int.natCast_nonneg _)⟩

end Files
end Pintos.Filesys
