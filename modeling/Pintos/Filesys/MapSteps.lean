/-
  Steps of the inode layer and the free map keep the invariant (`filesys/inode.c`,
  `filesys/free-map.c`).

  1. **The list of open inodes** — an inode is counted up or down (`update`), a new one is put in front
     (`push`), the last reference is gone (`drop`).

  2. **The free map** — an allocation or release is one change of the map in memory and one write of
     its file (`mapStep`).  What was allocated is `Spare`: marked, and owned by nobody yet.

  3. **Closing** a removed inode for the last time first makes its sectors spare and then releases
     them; that they are marked, and nobody else's, is what the assertion needs.
-/
import Pintos.Filesys.Sectors

namespace Pintos.Filesys

open Base Lib List

/-! ## The list of open inodes -/

/-- The list with the inode that `inode_open` makes. -/
def Fs.push (fs : Fs) (x : Nat) : Fs := { fs with
    openInodes := ⟨fs.nextId, x, 1, false, 0, fs.disk x⟩ :: fs.openInodes
    nextId := fs.nextId + 1 }

variable {n x : Nat} {P : Prop} {fs : Fs} {refs : List Ref} {i : Inode}

namespace Consistent

variable {refs' : List Ref} {i' : Inode}

theorem perm (h : Consistent P fs refs) (hp : refs.Perm refs') : Consistent P fs refs' := by
  refine { h with opened := fun i hi => ?_, refs := fun r hr => h.refs r (hp.mem_iff.mpr hr) }
  have ho := h.opened i hi
  exact { ho with count := ho.count.trans ((Perm.append_left _ (hp.map _)).count_eq _) }

/-- **The list of open inodes** may change, as long as its members are all right and those without an
    entry were there before. -/
theorem relist (h : Consistent P fs refs) {l : List Inode}
    (horphan : ∀ i ∈ l, i.sector ≠ freeMapSector → i.sector ≠ rootDirSector → ¬ fs.Linked i.sector →
      ∃ j ∈ fs.openInodes, j.id = i.id ∧ j.sector = i.sector)
    (hmap : ∀ i ∈ fs.openInodes, i.sector = freeMapSector → ∃ j ∈ l, j.id = i.id ∧ j.sector = i.sector)
    (hopened : ∀ i ∈ l, OpenOk { fs with openInodes := l, nextId := n } refs' i)
    (hsectors : (l.map (·.sector)).Nodup) (hids : (l.map (·.id)).Nodup)
    (hrefs : ∀ r ∈ refs', ∃ i ∈ l, i.id = r.inode ∧ r.At i.sector) :
    Consistent P { fs with openInodes := l, nextId := n } refs' := by
  have hholds : ∀ w x, Fs.Holds { fs with openInodes := l, nextId := n } w x → fs.Holds w x := by
    intro w x hw
    cases w with
    | map => exact hw
    | root => exact hw
    | entry => exact hw
    | opened =>
      obtain ⟨⟨i, hi, rfl, rfl⟩, h0, h1, hl⟩ := hw
      exact ⟨horphan i hi h0 h1 hl, h0, h1, hl⟩
  refine ⟨h.bitCnt, h.size_lt, h.mapLength, h.rootLength, fun w x hw => h.extents w x (hholds w x hw),
    ?_, ?_, hopened, hsectors, hids, hrefs, h.synced⟩
  · exact h.owned.mono (fun r hr => hr) (claims_of_holds hholds fun _ _ _ => rfl)
  · obtain ⟨f, hf, hd, i, hi, hid, hs⟩ := h.mapFile
    obtain ⟨j, hj, hjd, hjs⟩ := hmap i hi hs
    exact ⟨f, hf, hd, j, hj, hjd.trans hid, hjs.trans hs⟩

theorem mem_update (hi : i ∈ fs.openInodes) (hid : i'.id = i.id) {j : Inode} :
    j ∈ (fs.update i').openInodes ↔ j = i' ∨ j ∈ fs.openInodes ∧ j.id ≠ i.id := by
  simp only [Fs.update, mem_map]
  constructor
  · rintro ⟨a, ha, rfl⟩
    by_cases haid : a.id = i'.id
    · rw [if_pos haid]
      exact .inl rfl
    · rw [if_neg haid]
      exact .inr ⟨ha, fun he => haid (he.trans hid.symm)⟩
  · rintro (rfl | ⟨hj, hne⟩)
    · exact ⟨i, hi, if_pos hid.symm⟩
    · exact ⟨j, hj, if_neg fun he => hne (he.trans hid)⟩

/-- **An open inode is changed**, and with it the references. -/
theorem update (h : Consistent P fs refs) (hi : i ∈ fs.openInodes) (hid : i'.id = i.id)
    (hsec : i'.sector = i.sector) (hok : OpenOk fs refs' i')
    (hcount : ∀ j ∈ fs.openInodes, j.id ≠ i.id →
      (refs'.map (·.inode)).count j.id = (refs.map (·.inode)).count j.id)
    (hrefs : ∀ r ∈ refs', ∃ j ∈ fs.openInodes, j.id = r.inode ∧ r.At j.sector) :
    Consistent P (fs.update i') refs' := by
  have hmem : ∀ j ∈ fs.openInodes, ∃ j' ∈ (fs.update i').openInodes,
      j'.id = j.id ∧ j'.sector = j.sector := by
    intro j hj
    by_cases hji : j.id = i.id
    · obtain rfl := h.eq_of_id hj hi hji
      exact ⟨i', (mem_update hi hid).mpr (.inl rfl), hid, hsec⟩
    · exact ⟨j, (mem_update hi hid).mpr (.inr ⟨hj, hji⟩), rfl, rfl⟩
  refine h.relist ?_ (fun j hj _ => hmem j hj) ?_ ?_ ?_ ?_
  · intro j hj _ _ _
    rcases (mem_update hi hid).mp hj with rfl | ⟨hj, -⟩
    · exact ⟨i, hi, hid.symm, hsec.symm⟩
    · exact ⟨j, hj, rfl, rfl⟩
  · intro j hj
    rcases (mem_update hi hid).mp hj with rfl | ⟨hj, hne⟩
    · exact ⟨hok.data, hok.deny, hok.id_lt, hok.count, hok.pos, hok.removed⟩
    · have ho := h.opened j hj
      refine ⟨ho.data, ho.deny, ho.id_lt, ?_, ho.pos, ho.removed⟩
      show j.openCnt = (fs.mapRefs ++ refs'.map (·.inode)).count j.id
      rw [ho.count, count_append, count_append, hcount j hj hne]
  · refine (congrArg Nodup ?_).mpr h.sectors
    rw [map_map]
    refine map_congr_left fun j hj => ?_
    show (if j.id = i'.id then i' else j).sector = j.sector
    by_cases hji : j.id = i'.id
    · rw [if_pos hji, hsec, h.eq_of_id hj hi (hji.trans hid)]
    · rw [if_neg hji]
  · refine (congrArg Nodup ?_).mpr h.ids
    rw [map_map]
    refine map_congr_left fun j hj => ?_
    show (if j.id = i'.id then i' else j).id = j.id
    by_cases hji : j.id = i'.id
    · rw [if_pos hji, hji]
    · rw [if_neg hji]
  · intro r hr
    obtain ⟨j, hj, hjr, hat⟩ := hrefs r hr
    obtain ⟨j', hj', hjd, hjs⟩ := hmem j hj
    exact ⟨j', hj', hjd.trans hjr, by rwa [hjs]⟩

/-- References are to addresses that have been given out. -/
theorem ref_lt (h : Consistent P fs refs) {r : Nat} (hr : r ∈ fs.mapRefs ++ refs.map (·.inode)) :
    r < fs.nextId := by
  rcases mem_append.mp hr with hr | hr
  · obtain ⟨f, hf, -, i, hi, hid, -⟩ := h.mapFile
    rw [Fs.mapRefs, hf] at hr
    obtain rfl : r = f.inode := mem_singleton.mp hr
    rw [← hid]
    exact (h.opened i hi).id_lt
  · obtain ⟨ref, href, rfl⟩ := mem_map.mp hr
    obtain ⟨i, hi, hid, -⟩ := h.refs ref href
    rw [← hid]
    exact (h.opened i hi).id_lt

variable {dir : Bool}

/-- **A new inode**, for a sector that is in a file already. -/
theorem push (h : Consistent P fs refs) (hx : x = rootDirSector ∨ fs.Linked x)
    (hnew : ∀ i ∈ fs.openInodes, i.sector ≠ x) (hat : Ref.At ⟨fs.nextId, dir⟩ x) :
    Consistent P (fs.push x) (⟨fs.nextId, dir⟩ :: refs) := by
  have hfresh : fs.nextId ∉ fs.mapRefs ++ refs.map (·.inode) := fun hr => Nat.lt_irrefl _ (h.ref_lt hr)
  refine h.relist ?_ (fun i hi _ => ⟨i, mem_cons_of_mem _ hi, rfl, rfl⟩) ?_ ?_ ?_ ?_
  · intro i hi _ h1 hl
    rcases mem_cons.mp hi with rfl | hi
    · rcases hx with hx | hx
      · exact absurd hx h1
      · exact absurd hx hl
    · exact ⟨i, hi, rfl, rfl⟩
  · intro i hi
    have hcount : ∀ id, (fs.mapRefs ++ fs.nextId :: refs.map (·.inode)).count id =
        (fs.mapRefs ++ refs.map (·.inode)).count id + if fs.nextId = id then 1 else 0 := by
      intro id
      rw [count_append, count_cons, count_append]
      simp only [beq_iff_eq]
      omega
    rcases mem_cons.mp hi with rfl | hi
    · refine ⟨rfl, rfl, Nat.lt_succ_self _, ?_, Nat.one_pos, nofun⟩
      show 1 = (fs.mapRefs ++ fs.nextId :: refs.map (·.inode)).count fs.nextId
      rw [hcount, if_pos rfl, count_eq_zero.mpr hfresh]
    · have ho := h.opened i hi
      refine ⟨ho.data, ho.deny, Nat.lt_succ_of_lt ho.id_lt, ?_, ho.pos, ho.removed⟩
      show i.openCnt = (fs.mapRefs ++ fs.nextId :: refs.map (·.inode)).count i.id
      rw [hcount, if_neg (Nat.ne_of_gt ho.id_lt), ho.count, add_zero]
  · refine nodup_cons.mpr ⟨fun hm => ?_, h.sectors⟩
    obtain ⟨i, hi, hs⟩ := mem_map.mp hm
    exact hnew i hi hs
  · refine nodup_cons.mpr ⟨fun hm => ?_, h.ids⟩
    obtain ⟨i, hi, hs⟩ := mem_map.mp hm
    exact Nat.ne_of_lt (h.opened i hi).id_lt hs
  · intro r hr
    rcases mem_cons.mp hr with rfl | hr
    · exact ⟨_, mem_cons_self, rfl, hat⟩
    · obtain ⟨i, hi, hir⟩ := h.refs r hr
      exact ⟨i, mem_cons_of_mem _ hi, hir⟩

theorem count_tail (h : Consistent P fs (⟨i.id, dir⟩ :: refs))
    (hi : i ∈ fs.openInodes) : i.openCnt = (fs.mapRefs ++ refs.map (·.inode)).count i.id + 1 := by
  rw [(h.opened i hi).count, map_cons, count_append, count_cons_self, count_append]
  rfl

/-- **The last reference goes**, and with it the inode. -/
theorem drop (h : Consistent P fs (⟨i.id, dir⟩ :: refs)) (hi : i ∈ fs.openInodes)
    (hone : i.openCnt = 1) : Consistent P (fs.drop i.id) refs := by
  have hzero : (fs.mapRefs ++ refs.map (·.inode)).count i.id = 0 := by
    have := h.count_tail hi
    omega
  have hnot : i.id ∉ fs.mapRefs ++ refs.map (·.inode) := count_eq_zero.mp hzero
  have hmem : ∀ j, j ∈ (fs.drop i.id).openInodes ↔ j ∈ fs.openInodes ∧ j.id ≠ i.id := by
    intro j
    simp only [Fs.drop, mem_filter, decide_eq_true_eq]
  refine h.relist ?_ ?_ ?_ ?_ ?_ ?_
  · intro j hj _ _ _
    exact ⟨j, ((hmem j).mp hj).1, rfl, rfl⟩
  · intro j hj hs
    refine ⟨j, (hmem j).mpr ⟨hj, fun hid => hnot ?_⟩, rfl, rfl⟩
    -- it would be the inode of the free map, which is still referred to
    obtain ⟨f, hf, -, i0, hi0, hid0, hs0⟩ := h.mapFile
    obtain rfl := h.eq_of_sector hj hi0 (hs.trans hs0.symm)
    rw [← hid, hid0, Fs.mapRefs, hf]
    exact mem_append_left _ (mem_singleton.mpr rfl)
  · intro j hj
    obtain ⟨hj, hne⟩ := (hmem j).mp hj
    have ho := h.opened j hj
    refine ⟨ho.data, ho.deny, ho.id_lt, ?_, ho.pos, ho.removed⟩
    show j.openCnt = (fs.mapRefs ++ refs.map (·.inode)).count j.id
    rw [ho.count, map_cons, count_append, count_append, count_cons_of_ne (Ne.symm hne)]
  · exact h.sectors.sublist (filter_sublist.map _)
  · exact h.ids.sublist (filter_sublist.map _)
  · intro r hr
    obtain ⟨j, hj, hjr⟩ := h.refs r (mem_cons_of_mem _ hr)
    refine ⟨j, (hmem j).mpr ⟨hj, fun hid => hnot ?_⟩, hjr⟩
    rw [← hid, hjr.1]
    exact mem_append_right _ (mem_map_of_mem hr)

theorem countUp (h : Consistent P fs refs) (hi : i ∈ fs.openInodes)
    (hat : Ref.At ⟨i.id, dir⟩ i.sector) :
    Consistent P (fs.update { i with openCnt := i.openCnt + 1 }) (⟨i.id, dir⟩ :: refs) := by
  have ho := h.opened i hi
  refine h.update hi rfl rfl ⟨ho.data, ho.deny, ho.id_lt, ?_, Nat.succ_pos _, ho.removed⟩ ?_ ?_
  · show i.openCnt + 1 = (fs.mapRefs ++ i.id :: refs.map (·.inode)).count i.id
    rw [ho.count, count_append, count_append, count_cons_self]
    rfl
  · intro j hj hne
    exact count_cons_of_ne (Ne.symm hne)
  · intro r hr
    rcases mem_cons.mp hr with rfl | hr
    · exact ⟨i, hi, rfl, hat⟩
    · exact h.refs r hr

theorem countDown (h : Consistent P fs (⟨i.id, dir⟩ :: refs)) (hi : i ∈ fs.openInodes)
    (hmore : i.openCnt ≠ 1) :
    Consistent P (fs.update { i with openCnt := i.openCnt - 1 }) refs := by
  have ho := h.opened i hi
  have hcount := h.count_tail hi
  refine h.update hi rfl rfl ⟨ho.data, ho.deny, ho.id_lt, ?_, ?_, ho.removed⟩ ?_ ?_
  · show i.openCnt - 1 = (fs.mapRefs ++ refs.map (·.inode)).count i.id
    omega
  · show 0 < i.openCnt - 1
    omega
  · intro j hj hne
    exact (count_cons_of_ne (Ne.symm hne)).symm
  · intro r hr
    exact h.refs r (mem_cons_of_mem _ hr)

end Consistent

variable {id : Nat} {fs' : Fs}

/-- What `inode_open` does when it opens the inode in a sector. -/
def Opens (fs : Fs) (x id : Nat) (fs' : Fs) : Prop :=
  (∃ i ∈ fs.openInodes, i.sector = x ∧ id = i.id ∧
    fs' = fs.update { i with openCnt := i.openCnt + 1 }) ∨
  (∀ i ∈ fs.openInodes, i.sector ≠ x) ∧ id = fs.nextId ∧ fs' = fs.push x

/-- **`inode_open`**: it fails if there is no memory and the inode is not open. -/
theorem inodeOpen_eq (hx : x < fs.dev.size) (alloc : Bool) :
    (alloc = false ∧ (∀ i ∈ fs.openInodes, i.sector ≠ x) ∧ inodeOpen fs x alloc = .ok (none, fs)) ∨
    ∃ id fs', inodeOpen fs x alloc = .ok (some id, fs') ∧ Opens fs x id fs' := by
  unfold inodeOpen
  cases hf : fs.openInodes.find? fun i => i.sector = x with
  | some i =>
    have hs : i.sector = x := by simpa using find?_some hf
    exact .inr ⟨i.id, _, rfl, .inl ⟨i, mem_of_find?_eq_some hf, hs, rfl, rfl⟩⟩
  | none =>
    have hnew : ∀ i ∈ fs.openInodes, i.sector ≠ x := by
      intro i hi hs
      have := find?_eq_none.mp hf i hi
      simp [hs] at this
    cases alloc with
    | false => exact .inl ⟨rfl, hnew, rfl⟩
    | true =>
      exact .inr ⟨fs.nextId, fs.push x, bind_of_ok (if_pos hx) rfl, .inr ⟨hnew, rfl, rfl⟩⟩

/-- **Opening keeps the invariant**, with one more reference. -/
theorem Opens.consistent (ho : Opens fs x id fs') (h : Consistent P fs refs)
    (hx : x = rootDirSector ∨ fs.Linked x) {dir : Bool} (hat : Ref.At ⟨id, dir⟩ x) :
    Consistent P fs' (⟨id, dir⟩ :: refs) := by
  rcases ho with ⟨i, hi, rfl, rfl, rfl⟩ | ⟨hnew, rfl, rfl⟩
  · exact h.countUp hi hat
  · exact h.push hx hnew hat

theorem Opens.mem (ho : Opens fs x id fs') : ∃ i ∈ fs'.openInodes, i.id = id ∧ i.sector = x := by
  rcases ho with ⟨i, hi, hs, rfl, rfl⟩ | ⟨hnew, rfl, rfl⟩
  · have hid : ({ i with openCnt := i.openCnt + 1 } : Inode).id = i.id := rfl
    exact ⟨_, (Consistent.mem_update hi hid).mpr (.inl rfl), rfl, hs⟩
  · exact ⟨_, mem_cons_self, rfl, rfl⟩

theorem Opens.unchanged (ho : Opens fs x id fs') :
    fs'.dev = fs.dev ∧ fs'.freeMap = fs.freeMap ∧ fs'.freeMapFile = fs.freeMapFile := by
  rcases ho with ⟨i, -, -, -, rfl⟩ | ⟨-, -, rfl⟩
  · exact ⟨rfl, rfl, rfl⟩
  · exact ⟨rfl, rfl, rfl⟩

/-! ## The free map -/

namespace Fs

def setMap (fs : Fs) (b : Bitmap) : Fs := { fs with freeMap := b }

/-- The free map in memory is `b`, and `c` has been written to its file. -/
def mapStep (fs : Fs) (b c : Bitmap) (bounce : Bool) : Fs :=
  (fs.setMap b).put (sectorSize * (fs.disk freeMapSector).start)
    (moved bounce 0 (byteCnt fs.dev.size)) c.bytes

/-- The file of the free map can be written without a bounce buffer, or there is one. -/
def Fits (fs : Fs) (bounce : Bool) : Prop := bounce = true ∨ byteCnt fs.dev.size % sectorSize = 0

end Fs

variable {f : File} {b : Bitmap} {bounce : Bool} {s cnt : Nat}

section FreeMap

variable {c : Bitmap}

theorem moved_eq_iff (bounce : Bool) (t : Nat) :
    moved bounce 0 t = t ↔ bounce = true ∨ t % sectorSize = 0 := by
  cases bounce with
  | true => simp [moved]
  | false =>
    simp only [moved, Bool.false_eq_true, if_false, false_or]
    rw [if_pos (by decide)]
    simp only [sectorSize]
    omega

theorem within_map (hlen : (fs.disk freeMapSector).length = byteCnt fs.dev.size) (bounce : Bool) :
    Within (sectorSize * (fs.disk freeMapSector).start) (moved bounce 0 (byteCnt fs.dev.size))
      (fs.disk freeMapSector).Has := by
  intro a h0 h1
  have hle := moved_le bounce 0 (byteCnt fs.dev.size)
  have hpos : ((a - sectorSize * (fs.disk freeMapSector).start : Nat) : Int) <
      (fs.disk freeMapSector).length := by
    rw [hlen]
    omega
  have hlt := div_lt_bytesToSectors (fs.disk_length_lt freeMapSector) (Int.natCast_nonneg _) hpos
  simp only [InodeDisk.Has, sectorSize] at *
  omega

theorem kept_setMap (hb : b.bitCnt = fs.freeMap.bitCnt) : Kept fs (fs.setMap b) :=
  ⟨⟨fun _ _ => Iff.rfl, fun _ _ _ => rfl, fun _ _ _ _ => rfl⟩, rfl, rfl, rfl, rfl, hb⟩

/-- The invariant does not see bits that nobody needs. -/
theorem Consistent.setMap (h : Consistent P fs refs) (hb : b.bitCnt = fs.freeMap.bitCnt)
    (hused : ∀ o r, fs.claims o r → b.bit r = true) : Consistent False (fs.setMap b) refs := by
  refine Consistent.frame (P := False) { h with synced := False.elim } (kept_setMap hb) ?_ False.elim
  intro o r hc
  exact ⟨h.lt_of_claim hc, hused o r hc⟩

/-- **A step of the free map** touches no file but its own. -/
theorem quiet_mapStep (h : Consistent P fs refs) (hb : b.bitCnt = fs.freeMap.bitCnt)
    (hused : ∀ o r, fs.claims o r → b.bit r = true) : Quiet fs (fs.mapStep b c bounce) := by
  have hset := h.setMap hb hused
  have hq : Quiet fs (fs.setMap b) := ⟨kept_setMap hb, fun _ _ _ _ _ _ => rfl⟩
  refine hq.trans (quiet_put hset (within_map h.mapLength bounce) fun s hs o ho => ?_)
  exact h.owned.unique ho ⟨freeMapSector, rfl, hs⟩

theorem synced_mapStep (hdisk : (fs.mapStep b b bounce).disk freeMapSector = fs.disk freeMapSector)
    (hfits : fs.Fits bounce) : (fs.mapStep b b bounce).Synced := by
  intro k hk
  have hk' : k < fs.dev.size := hk
  unfold Fs.mapBit
  rw [hdisk]
  show (splice fs.dev.bytes _ _ b.bytes _).getLsbD (k % 8) = b.bit k
  rw [(moved_eq_iff bounce _).mpr hfits, splice_of_mem, Nat.add_sub_cancel_left, Bitmap.bit_bytes]
  refine ⟨Nat.le_add_right _ _, ?_⟩
  rw [byteCnt, elemCnt, divRoundUp, elemBits]
  omega

theorem Consistent.mapStep (h : Consistent P fs refs) (hb : b.bitCnt = fs.freeMap.bitCnt)
    (hused : ∀ o r, fs.claims o r → b.bit r = true) (hsync : P → b = c ∧ fs.Fits bounce) :
    Consistent P (fs.mapStep b c bounce) refs := by
  refine h.frame (quiet_mapStep h hb hused).toKept ?_ ?_
  · intro o r hc
    exact ⟨h.lt_of_claim hc, hused o r hc⟩
  · intro hP
    obtain ⟨rfl, hfits⟩ := hsync hP
    exact synced_mapStep ((quiet_mapStep h hb hused).disk .map _ rfl) hfits

/-- What writing the free map needs: its file is open, and as long as the map. -/
structure MapOk (fs : Fs) : Prop where
  bitCnt : fs.freeMap.bitCnt = fs.dev.size
  length : (fs.disk freeMapSector).length = byteCnt fs.dev.size
  onDevice : OnDevice fs.dev (fs.disk freeMapSector)
  inode : ∃ f i, fs.freeMapFile = some f ∧ fs.inode f.inode = .ok i ∧
    i.data = fs.disk freeMapSector ∧ i.denyWriteCnt = 0

theorem Consistent.mapOk (h : Consistent P fs refs) : MapOk fs := by
  obtain ⟨f, hf, -, i, hi, hid, hs⟩ := h.mapFile
  have ho := h.opened i hi
  refine ⟨h.bitCnt, h.mapLength, h.onDevice (w := .map) rfl, f, i, hf, ?_, ?_, ho.deny⟩
  · rw [← hid]
    exact h.inode_eq hi
  · rw [ho.data, hs]

/-- The whole file is read and written. -/
theorem MapOk.whole (h : MapOk fs) :
    transferred (fs.disk freeMapSector) (byteCnt fs.dev.size) 0 = byteCnt fs.dev.size := by
  rw [transferred, h.length]
  omega

/-- **`bitmap_write`** to the free map's file. -/
theorem bitmapWrite_eq (h : MapOk fs) (hf : fs.freeMapFile = some f)
    (hc : c.bitCnt = fs.freeMap.bitCnt) (b : Bitmap) (bounce : Bool) :
    ∃ ok : Bool, bitmapWrite (fs.setMap b) c f bounce = .ok (ok, fs.mapStep b c bounce) ∧
      (ok = true ↔ fs.Fits bounce) := by
  obtain ⟨f', i, hf', hinode, hdata, hdeny⟩ := h.inode
  obtain rfl : f = f' := Option.some.inj (hf.symm.trans hf')
  have hwrite := inodeWriteAt_eq h.onDevice c.bytes (byteCnt fs.dev.size) (Int.le_refl 0) bounce
  rw [h.whole] at hwrite
  refine ⟨moved bounce 0 (byteCnt fs.dev.size) == byteCnt fs.dev.size, ?_, ?_⟩
  · rw [bitmapWrite, hc.trans h.bitCnt]
    exact bind_of_ok hinode (bind_of_ok (by rwa [hdata, hdeny]) rfl)
  · rw [beq_iff_eq, moved_eq_iff]
    exact Iff.rfl

end FreeMap

/-! ## Allocating and releasing -/

structure Allocated (fs : Fs) (cnt : Nat) (bounce : Bool) (r : Option Nat) (fs' : Fs) : Prop
    extends Quiet fs fs' where
  found : ∀ s, r = some s → Bitmap.Found fs.freeMap 0 cnt false (some s) ∧ fs.Fits bounce ∧
    Bitmap.Filled fs.freeMap s cnt true fs'.freeMap
  failed : r = none → (Bitmap.Found fs.freeMap 0 cnt false none ∨ ¬ fs.Fits bounce) ∧
    ∀ k, fs'.freeMap.bit k = fs.freeMap.bit k

section Allocating

variable {k : Nat}

theorem freeMapAllocate_some (hf : fs.freeMapFile = some f)
    (hscan : fs.freeMap.scanAndFlip 0 cnt false = some (some s, b)) :
    freeMapAllocate fs cnt bounce = (do
      let w ← bitmapWrite (fs.setMap b) b f bounce
      if w.1 then .ok (some s, w.2)
      else do
        let b' ← asserted (b.setMultiple s cnt false)
        .ok (none, w.2.setMap b')) := by
  obtain ⟨dev, map, file, inodes, n⟩ := fs
  obtain rfl : file = some f := hf
  exact bind_of_ok (congrArg asserted hscan) rfl

theorem freeMapRelease_some (hf : fs.freeMapFile = some f) (hall : fs.freeMap.all s cnt = some true)
    (hset : fs.freeMap.setMultiple s cnt false = some b) :
    freeMapRelease fs s cnt bounce = (do
      let w ← bitmapWrite (fs.setMap b) b f bounce
      .ok w.2) := by
  obtain ⟨dev, map, file, inodes, n⟩ := fs
  obtain rfl : file = some f := hf
  exact bind_of_ok (congrArg asserted hall) (bind_of_ok (congrArg asserted hset) rfl)

theorem filled_undone {b' b'' : Bitmap} (hg : Bitmap.Group b s cnt false)
    (h : Bitmap.Filled b s cnt true b') (h' : Bitmap.Filled b' s cnt false b'') (k : Nat) :
    b''.bit k = b.bit k := by
  rw [h'.2, h.2]
  by_cases hk : s ≤ k ∧ k < s + cnt
  · rw [if_pos hk, hg.bit_eq hk.1 hk.2]
  · rw [if_neg hk, if_neg hk]

/-- **`free_map_allocate`** keeps the invariant. -/
theorem freeMapAllocate_spec (h : Consistent P fs refs) (cnt : Nat) (hP : P → bounce = true) :
    ∃ r fs', freeMapAllocate fs cnt bounce = .ok (r, fs') ∧ Consistent P fs' refs ∧
      Allocated fs cnt bounce r fs' := by
  obtain ⟨f, hf, -, -⟩ := h.mapFile
  rcases Bitmap.scanAndFlip_eq (Nat.zero_le fs.freeMap.bitCnt) cnt false with
    ⟨hscan, hnone⟩ | ⟨s, b, hscan, hfound, hfill⟩
  · unfold freeMapAllocate
    rw [hscan]
    exact ⟨none, fs, rfl, h, ⟨Quiet.refl fs, nofun, fun _ => ⟨.inl hnone, fun k => rfl⟩⟩⟩
  · obtain ⟨ok, hwrite, hok⟩ := bitmapWrite_eq h.mapOk hf hfill.1 b bounce
    have hused : ∀ o r, fs.claims o r → b.bit r = true := by
      intro o r hc
      rw [hfill.2]
      split
      · rfl
      · exact (h.owned.used_of_claim hc).2
    rw [freeMapAllocate_some hf hscan, hwrite]
    cases ok with
    | true =>
      have hfits := hok.mp rfl
      refine ⟨some s, fs.mapStep b b bounce, rfl, h.mapStep hfill.1 hused fun _ => ⟨rfl, hfits⟩,
        ⟨quiet_mapStep h hfill.1 hused, fun s' hs => ?_, nofun⟩⟩
      cases hs
      exact ⟨hfound, hfits, hfill⟩
    | false =>
      have hnot : ¬ fs.Fits bounce := fun hfits => by
        have := hok.mpr hfits
        cases this
      have hle : s + cnt ≤ b.bitCnt := by
        rw [hfill.1]
        exact hfound.2.1
      obtain ⟨b', hset, hfill'⟩ := Bitmap.setMultiple_eq hle false
      have hbits := filled_undone hfound.2.2.1 hfill hfill'
      have hcnt : b'.bitCnt = fs.freeMap.bitCnt := hfill'.1.trans hfill.1
      have hused' : ∀ o r, fs.claims o r → b'.bit r = true := by
        intro o r hc
        rw [hbits]
        exact (h.owned.used_of_claim hc).2
      exact ⟨none, fs.mapStep b' b bounce, bind_of_ok rfl (bind_of_ok (congrArg asserted hset) rfl),
        h.mapStep hcnt hused' fun hp => absurd (.inl (hP hp)) hnot,
        ⟨quiet_mapStep h hcnt hused', nofun, fun _ => ⟨.inr hnot, hbits⟩⟩⟩

/-- What was allocated is spare. -/
theorem Allocated.spare (h : Consistent P fs refs)
    (ha : Allocated fs cnt bounce (some s) fs') (h0 : s ≤ k) (h1 : k < s + cnt) :
    fs'.Spare k ∧ ¬ fs.used k := by
  obtain ⟨hfound, -, hfill⟩ := ha.found s rfl
  have hnot : ¬ fs.used k := by
    rintro ⟨-, hu⟩
    rw [hfound.2.2.1.bit_eq h0 h1] at hu
    cases hu
  refine ⟨⟨⟨?_, ?_⟩, fun o ho => hnot (h.owned.used_of_claim ((ha.claims o k).mp ho))⟩, hnot⟩
  · have hle := hfound.2.1
    rw [h.bitCnt] at hle
    rw [ha.size]
    omega
  · rw [hfill.2, if_pos ⟨h0, h1⟩]

theorem Allocated.spare_of_spare {r : Option Nat} (ha : Allocated fs cnt bounce r fs')
    (hk : fs.Spare k) : fs'.Spare k := by
  refine ⟨⟨?_, ?_⟩, fun o ho => hk.2 o ((ha.claims o k).mp ho)⟩
  · rw [ha.size]
    exact hk.1.1
  cases r with
  | none =>
    rw [(ha.failed rfl).2]
    exact hk.1.2
  | some s =>
    rw [(ha.found s rfl).2.2.2]
    split
    · rfl
    · exact hk.1.2

/-- **`free_map_release`** of spare sectors: the assertion holds. -/
theorem freeMapRelease_spec (s cnt : Nat) (h : Consistent P fs refs) (hle : s + cnt ≤ fs.dev.size)
    (hspare : ∀ k, s ≤ k → k < s + cnt → fs.Spare k) (hP : P → bounce = true) :
    ∃ fs', freeMapRelease fs s cnt bounce = .ok fs' ∧ Consistent P fs' refs ∧ Quiet fs fs' ∧
      Bitmap.Filled fs.freeMap s cnt false fs'.freeMap := by
  obtain ⟨f, hf, -, -⟩ := h.mapFile
  have hle' : s + cnt ≤ fs.freeMap.bitCnt := by rwa [h.bitCnt]
  have hall : fs.freeMap.all s cnt = some true :=
    (Bitmap.all_eq hle').mpr fun j hj => (hspare (s + j) (by omega) (by omega)).1.2
  obtain ⟨b, hset, hfill⟩ := Bitmap.setMultiple_eq hle' false
  obtain ⟨ok, hwrite, -⟩ := bitmapWrite_eq h.mapOk hf hfill.1 b bounce
  have hused : ∀ o r, fs.claims o r → b.bit r = true := by
    intro o r hc
    rw [hfill.2, if_neg fun hin => (hspare r hin.1 hin.2).2 o hc]
    exact (h.owned.used_of_claim hc).2
  refine ⟨fs.mapStep b b bounce, ?_, h.mapStep hfill.1 hused fun hp => ⟨rfl, .inl (hP hp)⟩,
    quiet_mapStep h hfill.1 hused, hfill⟩
  rw [freeMapRelease_some hf hall hset, hwrite]
  rfl

end Allocating

/-! ## Closing inodes -/

/-- An inode that is not removed is closed. -/
def Fs.unref (fs : Fs) (i : Inode) : Fs :=
  if i.openCnt = 1 then fs.drop i.id else fs.update { i with openCnt := i.openCnt - 1 }

section Closing

variable {mapInode mapData dir : Bool}

theorem Consistent.unref (h : Consistent P fs (⟨i.id, dir⟩ :: refs))
    (hi : i ∈ fs.openInodes) : Consistent P (fs.unref i) refs := by
  unfold Fs.unref
  split
  · exact h.drop hi ‹_›
  · exact h.countDown hi ‹_›

theorem inodeClose_unref (h : Consistent P fs refs) (hi : i ∈ fs.openInodes)
    (hrem : i.removed = true → i.openCnt ≠ 1) :
    inodeClose fs i.id mapInode mapData = .ok (fs.unref i) := by
  unfold inodeClose Fs.unref
  rw [h.inode_eq hi]
  show (if i.openCnt = 1 then _ else _) = _
  by_cases hone : i.openCnt = 1
  · rw [if_pos hone, if_pos hone, if_neg fun hr => hrem hr hone]
  · rw [if_neg hone, if_neg hone]

/-- What is held without the inode was held with it. -/
theorem holds_drop {w : Who} (hw : (fs.drop id).Holds w x) : fs.Holds w x ∧ w ≠ .opened id := by
  cases w with
  | map => exact ⟨hw, Who.noConfusion⟩
  | root => exact ⟨hw, Who.noConfusion⟩
  | entry => exact ⟨hw, Who.noConfusion⟩
  | opened =>
    obtain ⟨⟨j, hj, rfl, rfl⟩, h0, h1, hl⟩ := hw
    obtain ⟨hj, hne⟩ := mem_filter.mp hj
    refine ⟨⟨⟨j, hj, rfl, rfl⟩, h0, h1, hl⟩, fun he => ?_⟩
    exact of_decide_eq_true hne (Who.opened.inj he)

theorem claims_drop {o : Who × Part} (hc : (fs.drop id).claims o s) :
    fs.claims o s ∧ o.1 ≠ .opened id := by
  refine ⟨claims_of_holds (fun w x hw => (holds_drop hw).1) (fun _ _ _ => rfl) o s hc, ?_⟩
  obtain ⟨w, _ | _⟩ := o
  · exact (holds_drop hc).2
  · obtain ⟨x, hx, -⟩ := hc
    exact (holds_drop hx).2

/-- **The sectors of a removed file** are nobody's when its inode is gone. -/
theorem Consistent.spare_drop (h : Consistent P fs refs) (hi : i ∈ fs.openInodes)
    (hrem : i.removed = true) :
    (fs.drop i.id).Spare i.sector ∧ ∀ s, i.data.Has s → (fs.drop i.id).Spare s ∧ s ≠ i.sector := by
  have ho := h.opened i hi
  obtain ⟨h0, h1, hl⟩ := ho.removed hrem
  have hholds : fs.Holds (.opened i.id) i.sector := ⟨⟨i, hi, rfl, rfl⟩, h0, h1, hl⟩
  have hspare : ∀ p s, fs.claims (.opened i.id, p) s → (fs.drop i.id).Spare s := by
    intro p s hc
    refine ⟨h.owned.used_of_claim hc, fun o ho => ?_⟩
    obtain ⟨hc', hne⟩ := claims_drop ho
    exact hne (congrArg Prod.fst (h.owned.unique hc' hc))
  refine ⟨hspare .head _ hholds, fun s hs => ?_⟩
  have hbody : fs.claims (.opened i.id, .body) s := ⟨i.sector, hholds, by rwa [← ho.data]⟩
  refine ⟨hspare .body s hbody, ?_⟩
  rintro rfl
  exact h.not_body_of_holds hholds hbody

/-- **`inode_close`** keeps the invariant, and no assertion fails. -/
theorem inodeClose_spec (h : Consistent P fs (⟨id, dir⟩ :: refs))
    (hP : P → mapInode = true ∧ mapData = true) :
    ∃ fs', inodeClose fs id mapInode mapData = .ok fs' ∧ Consistent P fs' refs := by
  obtain ⟨i, hi, rfl, -⟩ := h.refs ⟨id, dir⟩ mem_cons_self
  by_cases hlast : i.removed = true ∧ i.openCnt = 1
  · obtain ⟨hrem, hone⟩ := hlast
    have hdrop := h.drop hi hone
    obtain ⟨hhead, hbody⟩ := h.spare_drop hi hrem
    have hext : i.data.start + bytesToSectors i.data.length ≤ fs.dev.size := by
      obtain ⟨w, hw⟩ := Fs.held hi
      rw [(h.opened i hi).data]
      exact (h.extents w _ hw).2
    -- first the sector of the inode
    obtain ⟨fs1, hrel1, hcons1, hquiet1, hfill1⟩ := freeMapRelease_spec i.sector 1
      hdrop (by have := hhead.1.1; omega)
      (fun k h0 h1 => by
        obtain rfl : k = i.sector := by omega
        exact hhead)
      fun hp => (hP hp).1
    -- and then the data, which is still spare
    obtain ⟨fs2, hrel2, hcons2, -, -⟩ := freeMapRelease_spec i.data.start
      (bytesToSectors i.data.length) hcons1 (by rwa [hquiet1.size])
      (fun k h0 h1 => by
        obtain ⟨hsp, hne⟩ := hbody k ⟨h0, h1⟩
        refine ⟨⟨?_, ?_⟩, fun o ho => hsp.2 o ((hquiet1.claims o k).mp ho)⟩
        · rw [hquiet1.size]
          exact hsp.1.1
        · rw [hfill1.2, if_neg (by omega)]
          exact hsp.1.2)
      fun hp => (hP hp).2
    refine ⟨fs2, ?_, hcons2⟩
    unfold inodeClose
    rw [h.inode_eq hi]
    show (if i.openCnt = 1 then _ else _) = _
    rwa [if_pos hone, if_pos hrem, hrel1]
  · exact ⟨fs.unref i, inodeClose_unref h hi fun hr h1 => hlast ⟨hr, h1⟩, h.unref hi⟩

end Closing

/-! ## Creating inodes -/

section Creating

variable {length : Int}

/-- **The zeros** of a new file are written in one piece. -/
theorem zeroSectors_eq : ∀ (n : Nat) {d : Device} {start : Nat}, start + n ≤ d.size →
    zeroSectors d start n = .ok (d.put (sectorSize * start) (sectorSize * n) fun _ => 0)
  | 0, d, start, _ => by
    rw [Nat.mul_zero, Device.put, splice_zero]
    rfl
  | n + 1, d, start, h => by
    have hlt : start < d.size := by omega
    have hrest := zeroSectors_eq n (d := d.put (sectorSize * start) sectorSize fun _ => 0)
      (show start + 1 + n ≤ d.size by omega)
    refine bind_of_ok (if_pos hlt) (hrest.trans ?_)
    have happend := splice_append d.bytes (sectorSize * start) sectorSize (sectorSize * n)
      fun _ => (0 : Byte)
    rw [Device.put, Device.put, Device.put, Nat.mul_succ, happend, Nat.mul_succ,
      add_comm sectorSize]

theorem Consistent.put_spare (h : Consistent P fs refs) {a : Nat} {S : Nat → Prop}
    (hin : Within a n S) (hS : ∀ s, S s → ∀ o, ¬ fs.claims o s) (buffer : Nat → Byte) :
    Consistent P (fs.put a n buffer) refs ∧ Quiet fs (fs.put a n buffer) :=
  ⟨h.put hin fun s hs o ho => absurd ho (hS s hs o),
    quiet_put h hin fun s hs o ho => absurd ho (hS s hs o)⟩

theorem within_sectors (start n : Nat) :
    Within (sectorSize * start) (sectorSize * n) fun s => start ≤ s ∧ s < start + n := by
  intro b h0 h1
  simp only [sectorSize] at *
  omega

/-- The inode that `inode_create` writes, and after it the zeros, is read back. -/
theorem disk_create (fs : Fs) {start : Nat} (hstart : start < 4294967296) (h0 : 0 ≤ length)
    (h1 : length < 2147483648) (hx : ¬ (start ≤ x ∧ x < start + bytesToSectors length)) :
    Fs.disk ((fs.put (sectorSize * x) sectorSize (InodeDisk.encode ⟨start, length⟩)).put
      (sectorSize * start) (sectorSize * bytesToSectors length) fun _ => 0) x = ⟨start, length⟩ := by
  rw [disk_put (within_sectors start (bytesToSectors length)) hx]
  refine InodeDisk.decode_encode hstart (by show _ ≤ length; omega) h1 fun k hk => ?_
  refine (splice_of_mem ?_).trans (congrArg _ (Nat.add_sub_cancel_left _ _))
  simp only [sectorSize]
  omega

structure Created (fs : Fs) (x : Nat) (length : Int) (diskInode bounce ok : Bool) (fs' : Fs) : Prop
    extends Quiet fs fs' where
  spare : fs'.Spare x
  /-- It succeeds if there is memory, and room on the disk. -/
  made : ok = true → diskInode = true ∧ fs.Fits bounce ∧ ∃ start,
    Bitmap.Found fs.freeMap 0 (bytesToSectors length) false (some start) ∧
    Bitmap.Filled fs.freeMap start (bytesToSectors length) true fs'.freeMap ∧
    fs'.disk x = ⟨start, length⟩ ∧ start + bytesToSectors length ≤ fs.dev.size ∧
    ∀ s, (fs'.disk x).Has s → fs'.Spare s ∧ s ≠ x
  failed : ok = false → (diskInode = false ∨ ¬ fs.Fits bounce ∨
    Bitmap.Found fs.freeMap 0 (bytesToSectors length) false none) ∧
    ∀ k, fs'.freeMap.bit k = fs.freeMap.bit k

/-- **`inode_create`** in a spare sector. -/
theorem inodeCreate_spec (h : Consistent P fs refs) (hx : fs.Spare x) (h0 : 0 ≤ length)
    (h1 : length < 2147483648) (diskInode : Bool) (hP : P → bounce = true) :
    ∃ ok fs', inodeCreate fs x length diskInode bounce = .ok (ok, fs') ∧ Consistent P fs' refs ∧
      Created fs x length diskInode bounce ok fs' := by
  unfold inodeCreate
  rw [if_neg (by omega)]
  cases diskInode with
  | false =>
    exact ⟨false, fs, rfl, h, ⟨Quiet.refl fs, hx, nofun, fun _ => ⟨.inl rfl, fun k => rfl⟩⟩⟩
  | true =>
    obtain ⟨r, fs1, halloc, hcons1, ha⟩ := freeMapAllocate_spec h (bytesToSectors length) hP
    have hx1 := ha.spare_of_spare hx
    cases r with
    | none =>
      obtain ⟨hwhy, hbits⟩ := ha.failed rfl
      exact ⟨false, fs1, bind_of_ok halloc rfl, hcons1,
        ⟨ha.toQuiet, hx1, nofun, fun _ => ⟨.inr hwhy.symm, hbits⟩⟩⟩
    | some start =>
      obtain ⟨hfound, hfits, hfill⟩ := ha.found start rfl
      have hle : start + bytesToSectors length ≤ fs.dev.size := by
        have := hfound.2.1
        rwa [h.bitCnt] at this
      have hext : ∀ s, start ≤ s ∧ s < start + bytesToSectors length → fs1.Spare s ∧ s ≠ x := by
        rintro s ⟨hs0, hs1⟩
        obtain ⟨hsp, hnew⟩ := ha.spare h hs0 hs1
        refine ⟨hsp, ?_⟩
        rintro rfl
        exact hnew hx.1
      -- the inode is written, and then the zeros
      have hin2 : Within (sectorSize * x) sectorSize fun s => x ≤ s ∧ s < x + 1 := by
        have := within_sectors x 1
        rwa [mul_one] at this
      obtain ⟨hcons2, hq2⟩ := hcons1.put_spare hin2 (fun s hs => by
        obtain rfl : s = x := by omega
        exact hx1.2) (InodeDisk.encode ⟨start, length⟩)
      obtain ⟨hcons3, hq3⟩ := hcons2.put_spare (within_sectors start (bytesToSectors length))
        (fun s hs o ho => (hext s hs).1.2 o ((hq2.claims o s).mp ho)) fun _ => 0
      have hq := (ha.toQuiet.trans hq2).trans hq3
      have hspare : ∀ s, fs1.Spare s → Fs.Spare ((fs1.put (sectorSize * x) sectorSize
          (InodeDisk.encode ⟨start, length⟩)).put (sectorSize * start)
          (sectorSize * bytesToSectors length) fun _ => 0) s := by
        intro s hs
        exact ⟨hs.1, fun o ho => hs.2 o ((hq2.claims o s).mp ((hq3.claims o s).mp ho))⟩
      have hsize := h.size_lt
      have hdisk := disk_create fs1 (show start < 4294967296 by omega) h0 h1
        fun hs => (hext x hs).2 rfl
      have hroom : start + bytesToSectors length ≤ fs1.dev.size := by rwa [ha.size]
      refine ⟨true, _, ?_, hcons3, ⟨hq, hspare x hx1, fun _ => ⟨rfl, hfits, start, hfound, hfill,
        hdisk, hle, fun s hs => ?_⟩, nofun⟩⟩
      · exact bind_of_ok halloc
          (bind_of_ok (if_pos hx1.1.1) (bind_of_ok (zeroSectors_eq _ hroom) rfl))
      · rw [hdisk] at hs
        exact ⟨hspare s (hext s hs).1, (hext s hs).2⟩

end Creating
end Pintos.Filesys
