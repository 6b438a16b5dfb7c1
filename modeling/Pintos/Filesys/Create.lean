/-
  A file that is created, and then written (`filesys/filesys.c`).

  `Filesys/Calls.lean` says when a creation fails and what it leaves behind.  Here is what one does
  that succeeds, with memory for everything, in a file system whose sectors are in use from the front.

  1. **Frames** — a file is seen through its entry, its inode and its data (`FileAt.frame`), so what
     touches none of the three leaves it as it was.

  2. **`dir_add`** writes the first entry that is not in use.

  3. **`filesys_create`** (`filesysCreate_ready`) makes that entry a file of the given length, and
     leaves all other entries and their files alone.
-/
import Pintos.Base.Bytes
import Pintos.Filesys.Contents

namespace Pintos.Filesys

open Base Lib List

/-! ## Frames -/

variable {P : Prop} {fs : Fs} {refs : List Ref} {n : Nat} {name : Name}

section Frames

variable {fs' : Fs} {k : Nat} {f : FileData}

theorem Fs.FileAt.holds (hf : fs.FileAt k f) (hk : k < rootEntries) :
    fs.Holds (.entry k) (entrySector (fs.entry k)) := ⟨hk, hf.named.1, rfl⟩

/-- A byte of a file is in a sector of its extent. -/
theorem claims_byte (hw : fs.Holds (.entry k) (entrySector (fs.entry k))) {j : Nat}
    (hj : j < (fs.inodeOf k).length) :
    fs.claims (.entry k, .body) ((byteAt (fs.inodeOf k) 0 + j) / sectorSize) := by
  refine ⟨_, hw, ?_⟩
  have hlt := div_lt_bytesToSectors (fs.disk_length_lt (entrySector (fs.entry k)))
    (Int.natCast_nonneg j) hj
  rw [Fs.inodeOf] at *
  simp only [InodeDisk.Has, byteAt, sectorSize] at *
  omega

section

variable (hf : fs.FileAt k f)
include hf

/-- **The frame of a file**: its entry, its inode, and its data. -/
theorem Fs.FileAt.frame (hk : k < rootEntries)
    (hentry : ∀ j < entrySize, fs'.entry k j = fs.entry k j)
    (hdisk : fs'.disk (entrySector (fs.entry k)) = fs.inodeOf k)
    (hbytes : ∀ b, fs.claims (.entry k, .body) (b / sectorSize) → fs'.dev.bytes b = fs.dev.bytes b) :
    fs'.FileAt k f := by
  have hinode : fs'.inodeOf k = fs.inodeOf k := by
    rw [Fs.inodeOf, entrySector_congr hentry, hdisk]
  refine ⟨?_, ?_, fun j hj => ?_⟩
  · rw [Fs.Named, entryInUse_congr hentry, entryName_congr hentry]
    exact hf.named
  · rw [hinode]
    exact hf.length
  · rw [hinode, hbytes _ (claims_byte (hf.holds hk) (by rwa [hf.length])), hf.bytes j hj]

theorem Fs.FileAt.of_dev (hdev : fs'.dev = fs.dev) : fs'.FileAt k f := by
  obtain ⟨hnamed, hlength, hbytes⟩ := hf
  rw [← inodeOf_of_dev hdev] at hlength hbytes
  rw [Fs.Named, ← entry_of_dev hdev] at hnamed
  rw [← hdev] at hbytes
  exact ⟨hnamed, hlength, hbytes⟩

theorem Fs.FileAt.quiet (hk : k < rootEntries) (hq : Quiet fs fs') : fs'.FileAt k f := by
  refine hf.frame hk (hq.entries k hk) (hq.disk (.entry k) _ (hf.holds hk)) fun b hb => ?_
  exact hq.bytes _ _ hb (fun he => Who.noConfusion (congrArg Prod.fst he)) b rfl

theorem Fs.FileAt.putEntry (h : Consistent P fs refs) (hk : k < rootEntries)
    (hn : n < rootEntries) (hne : k ≠ n) (e : Nat → Byte) : (fs.putEntry n e).FileAt k f := by
  refine hf.frame hk (fun j hj => ?_) (disk_putEntry hn (h.ne_rootStart (hf.holds hk))) fun b hb => ?_
  · rw [entry_putEntry h hn k hj, if_neg hne]
  · refine put_bytes (within_entry fs hn) fun hs => ?_
    cases h.owned.unique hb (h.root_body.mpr hs)

theorem Fs.FileAt.put (h : Consistent P fs refs) (hk : k < rootEntries)
    {w : Who} (hne : w ≠ .entry k) {a len : Nat} (hin : Within a len (fs.claims (w, .body)))
    (hw : w ≠ .root) (buffer : Nat → Byte) : (fs.put a len buffer).FileAt k f := by
  have hsame : SameFiles fs (fs.put a len buffer) := sameFiles_put h hin fun s hs o ho => by
    rw [h.owned.unique ho hs]
    exact ⟨rfl, hw⟩
  refine hf.frame hk (hsame.entries k hk) (hsame.disk (.entry k) _ (hf.holds hk)) fun b hb => ?_
  refine put_bytes hin fun hs => hne ?_
  exact congrArg Prod.fst (h.owned.unique hs hb)

end

end Frames

/-! ## `dir_add` -/

variable {dir : Nat} {m : Memory}

section Adding

variable {x : Nat} {e : Nat → Byte}

theorem window_entryFor (e : Nat → Byte) (name : Name) (x : Nat) :
    window (entryFor e name x) 4 (name.chars.length + 1) = name.chars ++ [0] := by
  rw [window_add]
  refine congrArg₂ (· ++ ·) (ext_getElem (by simp) fun k h₁ h₂ => ?_) ?_
  · simp only [window, getElem_map, getElem_range, entryFor]
    rw [if_neg (by omega), if_pos (by omega), Nat.add_sub_cancel_left, getD_eq_getElem _ _ h₂]
  · simp [window, entryFor]

theorem entryName_entryFor (hlen : name.chars.length ≤ nameMax) :
    entryName (entryFor e name x) = name.chars := by
  show cString (window (entryFor e name x) 4 (nameMax + 1)) = _
  rw [show nameMax + 1 = name.chars.length + 1 + (nameMax - name.chars.length) by omega, window_add,
    window_entryFor, append_assoc, singleton_append, cString_append name.nonzero]

/-- The entries in use are the first `n`. -/
def Fs.UsedTo (fs : Fs) (n : Nat) : Prop :=
  ∀ k < rootEntries, entryInUse (fs.entry k) = decide (k < n)

/-- **`dir_add`** of a new name. -/
theorem dirAdd_ready (h : Consistent P fs refs) (hdir : fs.RootAt dir) (hm : m.Ready)
    (hnil : name.chars ≠ []) (hlen : name.chars.length ≤ nameMax) (hfind : fs.find name = none)
    (hn : n < rootEntries) (hused : fs.UsedTo n) (x : Nat) :
    ∃ e, dirAdd fs dir name x m = .ok (true, fs.putEntry n (entryFor e name x)) := by
  obtain ⟨r, hlook, hr, -⟩ := lookup_find h hdir name hm.lookup
  rw [hfind] at hr
  obtain rfl := Option.map_eq_none_iff.mp hr
  obtain ⟨j, e, hslot, hspec⟩ := findSlot_spec h hdir m.slot m.stack
  obtain rfl : j = n := by
    rcases lt_trichotomy j n with hlt | heq | hlt
    · refine absurd ⟨hm.slot j, ?_⟩ (hspec.stop (by omega))
      rw [hused j (by omega), decide_eq_true hlt]
    · exact heq
    · have huse := (hspec.used n (Nat.zero_le n) hlt).2
      rw [hused n hn, decide_eq_true_eq] at huse
      omega
  refine ⟨e, ?_⟩
  unfold dirAdd
  rw [if_neg (by rw [not_or]; exact ⟨hnil, by omega⟩)]
  rcases writeEntry_eq h hdir (entryFor e name x) j m.entry with ⟨-, -, hwrite⟩ | ⟨hstop, -⟩
  · exact bind_of_ok hlook (bind_of_ok hslot hwrite)
  · exact absurd ⟨hm.entry, hn⟩ hstop

end Adding

/-! ## `filesys_create` -/

/-- The entry `n` has become a file of this name and length, and nothing else has changed. -/
structure NewAt (fs : Fs) (n : Nat) (name : Name) (size : Int) (fs' : Fs) : Prop where
  devSize : fs'.dev.size = fs.dev.size
  named : fs'.Named name n
  length : (fs'.inodeOf n).length = size
  entries : ∀ k < rootEntries, k ≠ n → ∀ j < entrySize, fs'.entry k j = fs.entry k j
  files : ∀ k < rootEntries, k ≠ n → ∀ f, fs.FileAt k f → fs'.FileAt k f

section Creating

variable {fs₁ : Fs} {p : Nat} {size : Int} (h : Consistent P fs refs) (hm : m.Ready)
  (hnil : name.chars ≠ []) (hlen : name.chars.length ≤ nameMax) (hfind : fs.find name = none)
  (hn : n < rootEntries) (hused : fs.UsedTo n) (h0 : 0 ≤ size) (h1 : size < 2147483648)
  (hp : fs.freeMap.UpTo p) (hroom : p + 1 + bytesToSectors size ≤ fs.dev.size)
include h hm hnil hlen hfind hn hused h0 h1 hp hroom

/-- **The steps of `filesys_create`**, when there is room. -/
theorem createSteps_ready (hdir : fs.RootAt dir) :
    ∃ x fs', createSteps fs dir name size m = .ok ((true, x), fs') ∧ Consistent P fs' refs ∧
      fs'.openInodes = fs.openInodes ∧ NewAt fs n name size fs' ∧
      fs'.freeMap.UpTo (p + 1 + bytesToSectors size) := by
  obtain ⟨r, fs₁, halloc, h₁, ha⟩ := freeMapAllocate_spec h 1 fun _ => hm.mapSector
  cases r with
  | none =>
    rcases (ha.failed rfl).1 with hno | hno
    · exact absurd hno (hp.not_found_none (by rw [h.bitCnt]; omega))
    · exact absurd (Or.inl hm.mapSector) hno
  | some x =>
  obtain ⟨hfound, -, hfill⟩ := ha.found x rfl
  obtain ⟨hx1, -⟩ := ha.spare h (le_refl x) (Nat.lt_succ_self x)
  have hp1 := hp.found hfound hfill
  obtain ⟨made, fs2, hcreate, h2, hc⟩ :=
    inodeCreate_spec h₁ hx1 h0 h1 m.diskInode fun _ => hm.mapExtent
  have hq := ha.toQuiet.trans hc.toQuiet
  cases made with
  | false =>
    rcases (hc.failed rfl).1 with hno | hno | hno
    · rw [hm.diskInode] at hno
      cases hno
    · exact absurd (Or.inl hm.mapExtent) hno
    · exact absurd hno (hp1.not_found_none (by rw [h₁.bitCnt, ha.size]; omega))
  | true =>
  obtain ⟨-, -, start, hfound2, hfill2, hdisk, hext, hbody⟩ := hc.made rfl
  have hnew : NewFile fs2 x := by
    refine ⟨hc.spare, hbody, ?_, ?_⟩
    · rwa [hdisk]
    · rwa [hdisk, hc.size]
  have hdir2 : fs2.RootAt dir := by
    rwa [Fs.RootAt, hq.openInodes]
  have hused2 : fs2.UsedTo n := fun k hk => by rw [entryInUse_congr (hq.entries k hk), hused k hk]
  obtain ⟨e, hadd⟩ := dirAdd_ready h2 hdir2 hm hnil hlen ((find_congr hq.entries name).trans hfind)
    hn hused2 x
  have hsector : entrySector (entryFor e name x) = x :=
    entrySector_entryFor (lt_trans hnew.head.1.1 h2.size_lt)
  have hentry : ∀ j < entrySize,
      (fs2.putEntry n (entryFor e name x)).entry n j = entryFor e name x j :=
    fun j hj => by rw [entry_putEntry h2 hn n hj, if_pos rfl]
  refine ⟨x, fs2.putEntry n (entryFor e name x),
    bind_of_ok halloc (bind_of_ok hcreate (bind_of_ok hadd rfl)), ?_, hq.openInodes,
    ⟨hq.size, ⟨?_, ?_⟩, ?_, ?_, ?_⟩, hp1.found hfound2 hfill2⟩
  · refine h2.putEntry hn fun _ => ?_
    rwa [hsector]
  · rw [entryInUse_congr hentry]
    exact entryInUse_entryFor (by omega)
  · rw [entryName_congr hentry]
    exact entryName_entryFor hlen
  · rw [Fs.inodeOf, entrySector_congr hentry, hsector, disk_putEntry hn, hdisk]
    exact fun hx => hnew.head.2 _ (h2.root_body.mpr hx)
  · intro k hk hne j hj
    rw [entry_putEntry h2 hn k hj, if_neg hne, hq.entries k hk j hj]
  · intro k hk hne f hf
    exact (hf.quiet hk hq).putEntry h2 hk hn hne _

/-- **`filesys_create`**, when there is room. -/
theorem filesysCreate_ready :
    ∃ fs', filesysCreate fs name size m = .ok (true, fs') ∧ Consistent P fs' refs ∧
      NewAt fs n name size fs' ∧ fs'.freeMap.UpTo (p + 1 + bytesToSectors size) := by
  obtain ⟨dir, fs₁, hopen, h₁, ho⟩ := dirOpenRoot_ready h hm
  obtain ⟨hdev, hmap, -⟩ := ho.unchanged
  have hentry : ∀ k, fs₁.entry k = fs.entry k := entry_of_dev hdev
  obtain ⟨x, fs2, hsteps, h2, hl2, hnew, hp2⟩ := createSteps_ready h₁ hm hnil hlen
    ((find_of_dev hdev name).trans hfind) hn (fun k hk => by rw [hentry, hused k hk]) h0 h1
    (by rwa [hmap]) (by rwa [hdev]) h₁.rootAt
  obtain ⟨fs3, hclose, h3, hdev3, hmap3, -⟩ := dirClose_spec ho h h2 hl2 m
  refine ⟨fs3, ?_, h3, ⟨?_, ?_, ?_, ?_, ?_⟩, by rwa [hmap3]⟩
  · have hundo : createUndo fs2 true x m = .ok fs2 := if_neg fun hc => by cases hc.1
    exact bind_of_ok hopen (bind_of_ok hsteps (bind_of_ok hundo (bind_of_ok hclose rfl)))
  · rw [hdev3, hnew.devSize, hdev]
  · rw [Fs.Named, entry_of_dev hdev3]
    exact hnew.named
  · rw [inodeOf_of_dev hdev3]
    exact hnew.length
  · intro k hk hne j hj
    rw [entry_of_dev hdev3, hnew.entries k hk hne j hj, hentry]
  · intro k hk hne f hf
    exact (hnew.files k hk hne f (hf.of_dev hdev)).of_dev hdev3

end Creating
end Pintos.Filesys
