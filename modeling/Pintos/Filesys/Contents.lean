/-
  What a program finds under a name (`filesys/filesys.c`, `filesys/file.c`).

  1. **Finding** — `Fs.find` is the first entry in use under a name, a function of the directory's
     bytes.  With memory for its reads, `lookup` computes it (`lookup_find`).

  2. **Contents** — what `filesys_open` and `file_read` say is a function of the device
     (`contents_find`), whatever else is open.  `Fs.Stores` says it of one file as a whole, and
     `Fs.FileAt` the same of the entry, the inode and the sectors.
-/
import Mathlib.Data.List.Find
import Pintos.Filesys.Calls

namespace Pintos.Filesys

open Base Lib List Option

/-- There is memory for everything that a call allocates. -/
structure Memory.Ready (m : Memory) : Prop where
  rootInode : m.rootInode = true
  dir : m.dir = true
  diskInode : m.diskInode = true
  mapSector : m.mapSector = true
  mapExtent : m.mapExtent = true
  mapUndo : m.mapUndo = true
  lookup : ∀ k, m.lookup k = true
  slot : ∀ k, m.slot k = true
  entry : m.entry = true
  inode : m.inode = true
  file : m.file = true
  mapInode : m.mapInode = true
  mapData : m.mapData = true

theorem Memory.ready_ready : Memory.ready.Ready :=
  ⟨rfl, rfl, rfl, rfl, rfl, rfl, fun _ => rfl, fun _ => rfl, rfl, rfl, rfl, rfl, rfl⟩

/-! ## Finding -/

instance (fs : Fs) (name : Name) (k : Nat) : Decidable (fs.Named name k) :=
  inferInstanceAs (Decidable (_ ∧ _))

/-- The first entry under a name. -/
def Fs.find (fs : Fs) (name : Name) : Option Nat :=
  (range rootEntries).find? fun k => decide (fs.Named name k)

variable {P : Prop} {fs fs' : Fs} {refs : List Ref} {k : Nat} {name : Name}

section Finding

variable {dir : Nat}

theorem find_congr (h : ∀ k < rootEntries, ∀ j < entrySize, fs'.entry k j = fs.entry k j)
    (name : Name) : fs'.find name = fs.find name := by
  refine find?_congr fun k hk => ?_
  rw [decide_eq_decide]
  exact named_congr h (mem_range.mp hk)

theorem named_of_find (h : fs.find name = some k) : k < rootEntries ∧ fs.Named name k :=
  ⟨mem_range.mp (mem_of_find?_eq_some h),
    of_decide_eq_true (find?_some (p := fun k => decide (fs.Named name k)) h)⟩

theorem find_eq_none : fs.find name = none ↔ ∀ k < rootEntries, ¬ fs.Named name k := by
  unfold Fs.find
  rw [find?_eq_none]
  constructor
  · intro h k hk hname
    exact h k (mem_range.mpr hk) (decide_eq_true hname)
  · intro h k hk hname
    exact h k (mem_range.mp hk) (of_decide_eq_true hname)

theorem find_of_first (hk : k < rootEntries) (hname : fs.Named name k)
    (hfirst : ∀ j < k, ¬ fs.Named name j) : fs.find name = some k := by
  refine find?_range_eq_some.mpr ⟨decide_eq_true hname, mem_range.mpr hk, fun j hj => ?_⟩
  rw [decide_eq_false (hfirst j hj)]
  rfl

/-- A name that only one entry has. -/
theorem find_eq_some (hk : k < rootEntries) (hname : fs.Named name k)
    (honly : ∀ j < rootEntries, fs.Named name j → j = k) : fs.find name = some k :=
  find_of_first hk hname fun j hj hj' => ne_of_lt hj (honly j (lt_trans hj hk) hj')

/-- **`lookup`** finds the first entry under the name, when all its reads succeed. -/
theorem lookup_find (h : Consistent P fs refs) (hdir : fs.RootAt dir) (name : Name)
    {bounce : Nat → Bool} (hb : ∀ k, bounce k = true) :
    ∃ r, lookup fs dir name bounce = .ok r ∧ r.map Prod.fst = fs.find name ∧
      ∀ p ∈ r, ∀ i < entrySize, p.2 i = fs.entry p.1 i := by
  obtain ⟨r, hr, hspec, hfirst⟩ := lookup_spec h hdir name bounce
  refine ⟨r, hr, ?_⟩
  cases hspec with
  | found _ hj _ hname he =>
    refine ⟨(find_of_first hj hname (hfirst _ rfl)).symm, fun p hp => ?_⟩
    cases hp
    exact he
  | none hno =>
    have hnone : fs.find name = none :=
      find_eq_none.mpr fun k hk => hno k (Nat.zero_le k) hk fun i _ _ => hb i
    exact ⟨hnone.symm, nofun⟩

end Finding

/-! ## Opening and closing -/

variable {file : File} {i : Inode} {x : Nat}

section Opening

variable {m : Memory}

theorem Fs.mem_unref {j : Inode} (hi : i ∈ fs.openInodes) (hj : j ∈ (fs.unref i).openInodes) :
    ∃ j' ∈ fs.openInodes, j'.id = j.id ∧ j'.sector = j.sector := by
  unfold Fs.unref at hj
  split at hj
  · exact ⟨j, (mem_filter.mp hj).1, rfl, rfl⟩
  · have hid : ({ i with openCnt := i.openCnt - 1 } : Inode).id = i.id := rfl
    rcases (Consistent.mem_update hi hid).mp hj with rfl | ⟨hj, -⟩
    · exact ⟨i, hi, rfl, rfl⟩
    · exact ⟨j, hj, rfl, rfl⟩

/-- What an opened file is: at its beginning, with its inode in the sector `x`. -/
structure OpenedAt (fs : Fs) (file : File) (x : Nat) : Prop where
  pos : file.pos = 0
  denyWrite : file.denyWrite = false
  inode : ∃ i ∈ fs.openInodes, i.id = file.inode ∧ i.sector = x

theorem dirOpenRoot_ready (h : Consistent P fs refs) (hm : m.Ready) :
    ∃ dir fs', dirOpenRoot fs m = .ok (some dir, fs') ∧ Consistent P fs' (⟨dir, true⟩ :: refs) ∧
      Opens fs rootDirSector dir fs' := by
  rcases dirOpenRoot_spec h m with ⟨-, -, -, -, -, -, -, hno⟩ | ⟨dir, fs', hopen, h', ho, -⟩
  · exact absurd ⟨hm.dir, Or.inl hm.rootInode⟩ hno
  · exact ⟨dir, fs', hopen, h', ho⟩

/-- The root directory is never removed. -/
theorem dirClose_eq {dir : Nat} (h : Consistent P fs (⟨dir, true⟩ :: refs)) (m : Memory) :
    ∃ i ∈ fs.openInodes, dirClose fs dir m = .ok (fs.unref i) ∧ Consistent P (fs.unref i) refs := by
  obtain ⟨i, hi, rfl, hs⟩ := h.rootAt
  refine ⟨i, hi, inodeClose_unref h hi fun hr => ?_, h.unref hi⟩
  exact absurd hs ((h.opened i hi).removed hr).2.1

theorem find_of_dev {fs' : Fs} (hdev : fs'.dev = fs.dev) (name : Name) :
    fs'.find name = fs.find name :=
  find_congr (fun k _ j _ => by rw [entry_of_dev hdev]) name

/-- **`filesys_open`** of a name that is not there. -/
theorem filesysOpen_none (h : Consistent P fs refs) (hm : m.Ready) (hfind : fs.find name = none) :
    ∃ fs', filesysOpen fs name m = .ok (none, fs') := by
  obtain ⟨dir, fs1, hopen, h1, ho⟩ := dirOpenRoot_ready h hm
  obtain ⟨r, hlook, hr, -⟩ := lookup_find h1 h1.rootAt name hm.lookup
  rw [find_of_dev ho.unchanged.1, hfind] at hr
  obtain rfl := map_eq_none_iff.mp hr
  obtain ⟨i, -, hclose, -⟩ := dirClose_eq h1 m
  exact ⟨fs1.unref i, bind_of_ok hopen (bind_of_ok (bind_of_ok hlook rfl) (bind_of_ok hclose rfl))⟩

/-- **`filesys_open`** of a name that is there. -/
theorem filesysOpen_some (h : Consistent P fs refs) (hm : m.Ready) (hfind : fs.find name = some k) :
    ∃ file fs', filesysOpen fs name m = .ok (some file, fs') ∧
      Consistent P fs' (file.ref :: refs) ∧ fs'.dev = fs.dev ∧ fs'.freeMap = fs.freeMap ∧
      OpenedAt fs' file (entrySector (fs.entry k)) := by
  obtain ⟨hk, hname⟩ := named_of_find hfind
  obtain ⟨dir, fs1, hopen, h1, ho⟩ := dirOpenRoot_ready h hm
  obtain ⟨hdev1, hmap1, -⟩ := ho.unchanged
  obtain ⟨r, hlook, hr, hbytes⟩ := lookup_find h1 h1.rootAt name hm.lookup
  rw [find_of_dev hdev1, hfind] at hr
  obtain ⟨⟨k', e⟩, rfl, rfl⟩ := map_eq_some_iff.mp hr
  -- the bytes that were read name the sector that the entry names
  have hsector : entrySector e = entrySector (fs.entry k') := by
    rw [← entry_of_dev hdev1]
    exact entrySector_congr (hbytes _ rfl)
  have hlinked : fs1.Linked (entrySector (fs.entry k')) := by
    rw [← entry_of_dev hdev1]
    exact ⟨k', hk, by rw [entry_of_dev hdev1]; exact hname.1, rfl⟩
  obtain ⟨hat, hlt⟩ := h1.linked_at 0 hlinked
  rcases inodeOpen_eq hlt m.inode with ⟨hno, -⟩ | ⟨id, fs2, hinode, ho2⟩
  · rw [hm.inode] at hno
    cases hno
  obtain ⟨hdev2, hmap2, -⟩ := ho2.unchanged
  have h2 : Consistent P fs2 (⟨id, false⟩ :: ⟨dir, true⟩ :: refs) :=
    ho2.consistent h1 (Or.inr hlinked) hat
  obtain ⟨i0, hi0, hid0, hs0⟩ := ho2.mem
  -- the directory is closed, and the inode of the file stays
  obtain ⟨i, hi, hclose, h3⟩ := dirClose_eq (h2.perm (Perm.swap _ _ _)) m
  obtain ⟨hdev3, hmap3, -⟩ := fs2.unref_unchanged i
  obtain ⟨j, hj, hjid, -⟩ := h3.refs ⟨id, false⟩ mem_cons_self
  have hjs : j.sector = entrySector (fs.entry k') := by
    obtain ⟨j', hj', hid', hs'⟩ := Fs.mem_unref hi hj
    rw [← hs', ← hs0]
    exact congrArg Inode.sector (h2.eq_of_id hj' hi0 ((hid'.trans hjid).trans hid0.symm))
  refine ⟨⟨(fs2.unref i).nextId, id, 0, false⟩,
    { fs2.unref i with nextId := (fs2.unref i).nextId + 1 }, ?_, h3.bump,
    hdev3.trans (hdev2.trans hdev1), hmap3.trans (hmap2.trans hmap1), rfl, rfl, j, hj, hjid, hjs⟩
  have hfound : dirLookup fs1 dir name m = .ok (some id, fs2) :=
    bind_of_ok hlook (by rw [← hsector] at hinode; exact hinode)
  refine bind_of_ok hopen (bind_of_ok hfound (bind_of_ok hclose ?_))
  rw [hm.file]
  rfl

theorem OpenedAt.inode_eq (ho : OpenedAt fs file x) (h : Consistent P fs refs) :
    ∃ i, fs.inode file.inode = .ok i ∧ i.data = fs.disk x ∧ i.denyWriteCnt = 0 := by
  obtain ⟨i, hi, hid, rfl⟩ := ho.inode
  have hok := h.opened i hi
  exact ⟨i, by rw [← hid]; exact h.inode_eq hi, hok.data, hok.deny⟩

/-- **`file_close`** of a file that has an entry. -/
theorem fileClose_linked (h : Consistent P fs (file.ref :: refs))
    (hplain : file.denyWrite = false) (hinode : ∃ i ∈ fs.openInodes, i.id = file.inode ∧ i.sector = x)
    (hx : fs.Linked x) (mapInode mapData : Bool) :
    ∃ fs', fileClose fs file mapInode mapData = .ok fs' ∧ Consistent P fs' refs ∧
      fs'.dev = fs.dev ∧ fs'.freeMap = fs.freeMap := by
  obtain ⟨i, hi, hid, rfl⟩ := hinode
  have hrem : i.removed = true → i.openCnt ≠ 1 :=
    fun hr => absurd hx ((h.opened i hi).removed hr).2.2
  have hrefs : Consistent P fs (⟨i.id, false⟩ :: refs) := by
    rwa [hid]
  obtain ⟨hdev, hmap, -⟩ := fs.unref_unchanged i
  refine ⟨fs.unref i, ?_, hrefs.unref hi, hdev, hmap⟩
  unfold fileClose fileAllowWrite
  rw [if_neg (by rw [hplain]; exact Bool.false_ne_true), ← hid]
  exact inodeClose_unref h hi hrem

end Opening

/-! ## Contents -/

/-- What a program finds under a name: the length of the file, the number of bytes it can read, and a
    buffer with them. -/
def contents (fs : Fs) (name : Name) : Except Stop (Option (Int × (Nat × (Nat → Byte)))) := do
  let r ← filesysOpen fs name .ready
  match r.1 with
  | none => .ok none
  | some file => do
    let length ← fileLength r.2 file
    let d ← fileRead r.2 file (fun _ => 0) length true
    .ok (some (length, d.1))

/-- What `contents` reads of an inode. -/
def InodeDisk.view (dev : Device) (i : InodeDisk) : Int × (Nat × (Nat → Byte)) :=
  (i.length, (transferred i i.length 0, splice (fun _ => 0) 0 (transferred i i.length 0) fun k =>
    dev.bytes (byteAt i 0 + k)))

/-- A file: its name, its length and its bytes. -/
structure FileData where
  name : Name
  length : Int
  bytes : Nat → Byte

def Fs.Stores (fs : Fs) (f : FileData) : Prop :=
  ∃ buffer, contents fs f.name = .ok (some (f.length, (f.length.toNat, buffer))) ∧
    ∀ j < f.length.toNat, buffer j = f.bytes j

instance (fs : Fs) (f : FileData) : Decidable (fs.Stores f) :=
  match h : contents fs f.name with
  | .error _ => .isFalse fun ⟨_, heq, _⟩ => by rw [h] at heq; cases heq
  | .ok none => .isFalse fun ⟨_, heq, _⟩ => by rw [h] at heq; cases heq
  | .ok (some (length, (n, buffer))) =>
    decidable_of_iff (length = f.length ∧ n = f.length.toNat ∧
        ∀ j < f.length.toNat, buffer j = f.bytes j) (by
      unfold Fs.Stores
      rw [h]
      constructor
      · grind
      · rintro ⟨buffer', heq, hbytes⟩
        cases heq
        exact ⟨rfl, rfl, hbytes⟩)

/-- The length of a file is an `off_t`. -/
def FileData.LengthOk (f : FileData) : Prop := 0 ≤ f.length ∧ f.length < 2147483648

/-- The inode that the entry `k` names. -/
def Fs.inodeOf (fs : Fs) (k : Nat) : InodeDisk := fs.disk (entrySector (fs.entry k))

/-- The entry `k` names this file. -/
structure Fs.FileAt (fs : Fs) (k : Nat) (f : FileData) : Prop where
  named : fs.Named f.name k
  length : (fs.inodeOf k).length = f.length
  bytes : ∀ j : Nat, j < f.length → fs.dev.bytes (byteAt (fs.inodeOf k) 0 + j) = f.bytes j

section Contents

variable {Q : Prop} {refs' : List Ref} {f : FileData}

/-- **`file_read`**, with memory for the bounce buffer. -/
theorem fileRead_eq (hi : fs.inode file.inode = .ok i)
    (hd : OnDevice fs.dev i.data) (hpos : 0 ≤ file.pos) (buffer : Nat → Byte) (size : Int) :
    fileRead fs file buffer size true =
      .ok ((transferred i.data size file.pos, splice buffer 0 (transferred i.data size file.pos)
          fun k => fs.dev.bytes (byteAt i.data file.pos + k)),
        { file with pos := file.pos + transferred i.data size file.pos }) :=
  bind_of_ok hi (bind_of_ok (inodeReadAt_eq hd buffer size hpos true) rfl)

/-- **`file_write`**, with memory for the bounce buffer. -/
theorem fileWrite_eq (hi : fs.inode file.inode = .ok i)
    (hdeny : i.denyWriteCnt = 0) (hd : OnDevice fs.dev i.data) (hpos : 0 ≤ file.pos)
    (buffer : Nat → Byte) (size : Int) :
    fileWrite fs file buffer size true =
      .ok ({ file with pos := file.pos + transferred i.data size file.pos },
        fs.put (byteAt i.data file.pos) (transferred i.data size file.pos) buffer) := by
  have hwrite := inodeWriteAt_eq hd buffer size hpos true
  rw [← hdeny] at hwrite
  exact bind_of_ok hi (bind_of_ok hwrite rfl)

/-- **`file_length`.** -/
theorem fileLength_eq (h : Consistent P fs refs) (ho : OpenedAt fs file x) :
    fileLength fs file = .ok (fs.disk x).length := by
  obtain ⟨i, hi, hdata, -⟩ := ho.inode_eq h
  exact bind_of_ok hi (by rw [hdata])

theorem holds_of_find (hfind : fs.find name = some k) :
    fs.Holds (.entry k) (entrySector (fs.entry k)) :=
  ⟨(named_of_find hfind).1, (named_of_find hfind).2.1, rfl⟩

theorem inodeOf_of_dev (hdev : fs'.dev = fs.dev) (k : Nat) : fs'.inodeOf k = fs.inodeOf k := by
  rw [Fs.inodeOf, entry_of_dev hdev, disk_of_dev hdev, Fs.inodeOf]

section

variable (h : Consistent P fs refs)
include h

/-- **What a program finds** is on the device. -/
theorem contents_find (name : Name) :
    contents fs name = .ok ((fs.find name).map fun k => (fs.inodeOf k).view fs.dev) := by
  cases hfind : fs.find name with
  | none =>
    obtain ⟨fs', hopen⟩ := filesysOpen_none h Memory.ready_ready hfind
    exact bind_of_ok hopen rfl
  | some k =>
    obtain ⟨file, fs', hopen, h', hdev, -, ho⟩ := filesysOpen_some h Memory.ready_ready hfind
    obtain ⟨i, hi, hdata, -⟩ := ho.inode_eq h'
    have hdisk : fs'.disk (entrySector (fs.entry k)) = fs.inodeOf k := disk_of_dev hdev _
    have hd : OnDevice fs.dev (fs.inodeOf k) := h.onDevice (holds_of_find hfind)
    have hlength := fileLength_eq h' ho
    rw [hdisk] at hlength hdata
    have hread := fileRead_eq hi (by rwa [hdata, hdev]) (le_of_eq ho.pos.symm)
      (fun _ => 0) (fs.inodeOf k).length
    rw [hdata, hdev, ho.pos] at hread
    exact bind_of_ok hopen (bind_of_ok hlength (bind_of_ok hread rfl))

/-- Two file systems on one device, whatever is open. -/
theorem contents_congr (h' : Consistent Q fs' refs') (hdev : fs'.dev = fs.dev) (name : Name) :
    ∃ r, contents fs name = .ok r ∧ contents fs' name = .ok r ∧
      (r.isSome = true ↔ ∃ k < rootEntries, fs.Named name k) := by
  have hview : ∀ k, (fs'.inodeOf k).view fs'.dev = (fs.inodeOf k).view fs.dev := fun k => by
    rw [inodeOf_of_dev hdev, hdev]
  refine ⟨_, contents_find h name, ?_, ?_⟩
  · rw [contents_find h', find_of_dev hdev]
    simp only [hview]
  rw [isSome_map]
  constructor
  · intro hsome
    obtain ⟨k, hk⟩ := isSome_iff_exists.mp hsome
    exact ⟨k, named_of_find hk⟩
  · rintro ⟨k, hk, hname⟩
    rw [isSome_iff_ne_none]
    exact fun hnone => find_eq_none.mp hnone k hk hname

/-- **A file is found** where its name is found first. -/
theorem stores_iff : fs.Stores f ↔ ∃ k, fs.find f.name = some k ∧ fs.FileAt k f := by
  have htransferred : ∀ i : InodeDisk, transferred i i.length 0 = i.length.toNat := by
    intro i
    rw [transferred]
    omega
  rw [Fs.Stores, contents_find h]
  constructor
  · rintro ⟨buffer, heq, hbytes⟩
    obtain ⟨k, hk, hview⟩ := map_eq_some_iff.mp (Except.ok.inj heq)
    obtain ⟨hlength, hview⟩ := Prod.mk.inj hview
    obtain ⟨-, hbuffer⟩ := Prod.mk.inj hview
    refine ⟨k, hk, (named_of_find hk).2, hlength, fun j hj => ?_⟩
    rw [← hbytes j (by omega), ← hbuffer, htransferred, hlength, splice_of_mem (by omega),
      Nat.sub_zero]
  · rintro ⟨k, hk, hfile⟩
    refine ⟨_, by rw [hk, map_some, InodeDisk.view, htransferred, hfile.length], fun j hj => ?_⟩
    rw [splice_of_mem (by omega), Nat.sub_zero, hfile.bytes j (by omega)]

end

theorem Fs.Stores.lengthOk (hf : fs.Stores f) (h : Consistent P fs refs) : f.LengthOk := by
  obtain ⟨k, hfind, hfile⟩ := (stores_iff h).mp hf
  rw [FileData.LengthOk, ← hfile.length]
  exact ⟨(h.extents _ _ (holds_of_find hfind)).1, fs.disk_length_lt _⟩

theorem stores_of_dev (h : Consistent P fs refs) (h' : Consistent Q fs' refs')
    (hdev : fs'.dev = fs.dev) (hf : fs.Stores f) : fs'.Stores f := by
  obtain ⟨buffer, heq, hbytes⟩ := hf
  obtain ⟨r, hr, hr', -⟩ := contents_congr h h' hdev f.name
  refine ⟨buffer, ?_, hbytes⟩
  rwa [hr', ← hr]

end Contents
end Pintos.Filesys
