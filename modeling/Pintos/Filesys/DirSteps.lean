/-
  The root directory keeps the invariant (`filesys/directory.c`).

  1. **Bytes to entries** — reading or writing the entry `k` through the inode layer is reading or
     writing the 20 bytes of `fs.entry k`, if there is memory and `k` is one of the 16
     (`readEntry_eq`, `writeEntry_eq`).

  2. **Searches** — `Lookup` and `Slot` say where the two loops stop, in terms of the entries and of
     the memory for each read.

  3. **Writing an entry** (`Consistent.writeEntry`) is where files change hands.  The old entry's
     file, if it is open, is then owned by its inode; the new entry's file was spare.
-/
import Pintos.Filesys.MapSteps

namespace Pintos.Filesys

open Base Lib

/-- The root directory's inode is open, at this address. -/
def Fs.RootAt (fs : Fs) (dir : Nat) : Prop :=
  ∃ r ∈ fs.openInodes, r.id = dir ∧ r.sector = rootDirSector

/-- The entry is in use, under this name. -/
def Fs.Named (fs : Fs) (name : Name) (k : Nat) : Prop :=
  entryInUse (fs.entry k) = true ∧ entryName (fs.entry k) = name.chars

/-! ## Reading and writing entries -/

variable {j dir : Nat} {P : Prop} {fs : Fs} {refs : List Ref}

theorem Consistent.rootInode (h : Consistent P fs refs) (hdir : fs.RootAt dir) :
    ∃ r, fs.inode dir = .ok r ∧ r.data = fs.disk rootDirSector ∧ r.denyWriteCnt = 0 := by
  obtain ⟨r, hr, rfl, hs⟩ := hdir
  have ho := h.opened r hr
  exact ⟨r, h.inode_eq hr, by rw [ho.data, hs], ho.deny⟩

theorem moved_entry (h : Consistent P fs refs) (k : Nat) (bounce : Bool) :
    moved bounce (entrySize * k : Nat)
      (transferred (fs.disk rootDirSector) entrySize (entrySize * k : Nat)) =
      if bounce = true ∧ k < rootEntries then entrySize else 0 := by
  have ht : transferred (fs.disk rootDirSector) entrySize (entrySize * k : Nat) =
      if k < rootEntries then entrySize else 0 := by
    rw [transferred, h.rootLength]
    by_cases hk : k < rootEntries
    · rw [if_pos hk]
      simp only [rootEntries, entrySize] at *
      omega
    · rw [if_neg hk]
      simp only [rootEntries, entrySize] at *
      omega
  rw [ht]
  cases bounce with
  | true => simp [moved]
  | false =>
    simp only [moved, Bool.false_eq_true, if_false, false_and]
    split
    · split
      · decide
      · rfl
    · rfl

theorem byteAt_entry (fs : Fs) (k : Nat) :
    byteAt (fs.disk rootDirSector) (entrySize * k : Nat) =
      sectorSize * (fs.disk rootDirSector).start + entrySize * k := by
  rw [byteAt, Int.toNat_natCast]

/-- **Reading an entry.** -/
theorem readEntry_eq (h : Consistent P fs refs) (hdir : fs.RootAt dir) (e : Nat → Byte) (k : Nat)
    (bounce : Bool) :
    (bounce = true ∧ k < rootEntries ∧
      readEntry fs dir e k bounce = .ok (true, splice e 0 entrySize (fs.entry k))) ∨
    (¬ (bounce = true ∧ k < rootEntries) ∧ readEntry fs dir e k bounce = .ok (false, e)) := by
  obtain ⟨r, hr, hdata, -⟩ := h.rootInode hdir
  have hread := inodeReadAt_eq (h.onDevice (w := .root) rfl) e entrySize
    (Int.natCast_nonneg (entrySize * k)) bounce
  rw [moved_entry h, byteAt_entry] at hread
  have heq : readEntry fs dir e k bounce =
      .ok ((if bounce = true ∧ k < rootEntries then entrySize else 0) == entrySize,
        splice e 0 (if bounce = true ∧ k < rootEntries then entrySize else 0) (fs.entry k)) :=
    bind_of_ok hr (bind_of_ok (by rwa [hdata]) rfl)
  by_cases hc : bounce = true ∧ k < rootEntries
  · rw [if_pos hc] at heq
    exact .inl ⟨hc.1, hc.2, heq⟩
  · rw [if_neg hc, splice_zero] at heq
    exact .inr ⟨hc, heq⟩

/-- The file system with the entry `k` overwritten. -/
def Fs.putEntry (fs : Fs) (k : Nat) (e : Nat → Byte) : Fs :=
  fs.put (sectorSize * (fs.disk rootDirSector).start + entrySize * k) entrySize e

/-- **Writing an entry.** -/
theorem writeEntry_eq (h : Consistent P fs refs) (hdir : fs.RootAt dir) (e : Nat → Byte) (k : Nat)
    (bounce : Bool) :
    (bounce = true ∧ k < rootEntries ∧ writeEntry fs dir e k bounce = .ok (true, fs.putEntry k e)) ∨
    (¬ (bounce = true ∧ k < rootEntries) ∧ writeEntry fs dir e k bounce = .ok (false, fs)) := by
  obtain ⟨r, hr, hdata, hdeny⟩ := h.rootInode hdir
  have hwrite := inodeWriteAt_eq (h.onDevice (w := .root) rfl) e entrySize
    (Int.natCast_nonneg (entrySize * k)) bounce
  rw [moved_entry h, byteAt_entry] at hwrite
  have heq : writeEntry fs dir e k bounce =
      .ok ((if bounce = true ∧ k < rootEntries then entrySize else 0) == entrySize,
        fs.put (sectorSize * (fs.disk rootDirSector).start + entrySize * k)
          (if bounce = true ∧ k < rootEntries then entrySize else 0) e) :=
    bind_of_ok hr (bind_of_ok (by rwa [hdata, hdeny]) rfl)
  by_cases hc : bounce = true ∧ k < rootEntries
  · rw [if_pos hc] at heq
    exact .inl ⟨hc.1, hc.2, heq⟩
  · rw [if_neg hc, Fs.put, Device.put, splice_zero] at heq
    exact .inr ⟨hc, heq⟩

theorem splice_entry (e e' : Nat → Byte) (hj : j < entrySize) : splice e 0 entrySize e' j = e' j :=
  splice_of_mem ⟨Nat.zero_le j, by omega⟩

/-! ## Searches -/

/-- Where `lookup` stops, from the entry `k` on. -/
inductive Lookup (fs : Fs) (name : Name) (bounce : Nat → Bool) (k : Nat) :
    Option (Nat × (Nat → Byte)) → Prop where
  | found {j : Nat} {e : Nat → Byte} (hk : k ≤ j) (hj : j < rootEntries)
      (hread : ∀ i, k ≤ i → i ≤ j → bounce i = true) (hname : fs.Named name j)
      (he : ∀ i < entrySize, e i = fs.entry j i) : Lookup fs name bounce k (some (j, e))
  | none (h : ∀ j, k ≤ j → j < rootEntries → (∀ i, k ≤ i → i ≤ j → bounce i = true) →
      ¬ fs.Named name j) : Lookup fs name bounce k none

/-- Where the search of `dir_add` stops, from the entry `k` on. -/
structure Slot (fs : Fs) (bounce : Nat → Bool) (k j : Nat) : Prop where
  le : k ≤ j
  bound : j ≤ rootEntries
  used : ∀ i, k ≤ i → i < j → bounce i = true ∧ entryInUse (fs.entry i) = true
  stop : j < rootEntries → ¬ (bounce j = true ∧ entryInUse (fs.entry j) = true)

/-- **The loop of `lookup`**; the fuel is enough to come to the end of the directory, and no entry
    before the one that is found has the name. -/
theorem lookupLoop_spec (h : Consistent P fs refs) (hdir : fs.RootAt dir) (name : Name)
    (bounce : Nat → Bool) : ∀ (n k : Nat) (e : Nat → Byte), k + n = rootEntries + 1 →
    ∃ r, lookupLoop fs dir name bounce n k e = .ok r ∧ Lookup fs name bounce k r ∧
      ∀ p ∈ r, ∀ i, k ≤ i → i < p.1 → ¬ fs.Named name i
  | 0, k, e, hn => ⟨none, rfl, .none fun j hk hj => by omega, nofun⟩
  | n + 1, k, e, hn => by
    rcases readEntry_eq h hdir e k (bounce k) with ⟨hb, hk, hread⟩ | ⟨hstop, hread⟩
    · have hentry : ∀ i < entrySize, splice e 0 entrySize (fs.entry k) i = fs.entry k i :=
        fun i hi => splice_entry e (fs.entry k) hi
      have hsame : (entryInUse (splice e 0 entrySize (fs.entry k)) = true ∧
          entryName (splice e 0 entrySize (fs.entry k)) = name.chars) ↔ fs.Named name k := by
        rw [entryInUse_congr hentry, entryName_congr hentry, Fs.Named]
      by_cases hm : fs.Named name k
      · refine ⟨some (k, _), bind_of_ok hread (if_pos (hsame.mpr hm)),
          .found (Nat.le_refl k) hk (fun i h0 h1 => ?_) hm hentry, fun p hp i h0 h1 => ?_⟩
        · obtain rfl : i = k := by omega
          exact hb
        · cases hp
          exact absurd h1 (Nat.not_lt.mpr h0)
      · obtain ⟨r, hr, hspec, hfirst⟩ := lookupLoop_spec h hdir name bounce n (k + 1)
          (splice e 0 entrySize (fs.entry k)) (by omega)
        refine ⟨r, bind_of_ok hread ((if_neg fun hc => hm (hsame.mp hc)).trans hr), ?_,
          fun p hp i h0 h1 => ?_⟩
        · cases hspec with
          | found hk' hj hall hname' he =>
            refine .found (by omega) hj (fun i h0 h1 => ?_) hname' he
            rcases Nat.eq_or_lt_of_le h0 with rfl | hlt
            · exact hb
            · exact hall i hlt h1
          | none hno =>
            refine .none fun j h0 hj hall => ?_
            rcases Nat.eq_or_lt_of_le h0 with rfl | hlt
            · exact hm
            · exact hno j hlt hj fun i h0' h1 => hall i (by omega) h1
        · rcases Nat.eq_or_lt_of_le h0 with rfl | hlt
          · exact hm
          · exact hfirst p hp i hlt h1
    · refine ⟨none, bind_of_ok hread rfl, .none fun j h0 hj hall => ?_, nofun⟩
      exact absurd ⟨hall k (Nat.le_refl k) h0, by omega⟩ hstop

theorem fuel_eq (h : Consistent P fs refs) {r : Inode} (hr : r.data = fs.disk rootDirSector) :
    r.data.length.toNat / entrySize + 1 = rootEntries + 1 := by
  rw [hr, h.rootLength]
  rfl

/-- **`lookup`.** -/
theorem lookup_spec (h : Consistent P fs refs) (hdir : fs.RootAt dir) (name : Name)
    (bounce : Nat → Bool) :
    ∃ r, lookup fs dir name bounce = .ok r ∧ Lookup fs name bounce 0 r ∧
      ∀ p ∈ r, ∀ i < p.1, ¬ fs.Named name i := by
  obtain ⟨r, hr, hdata, -⟩ := h.rootInode hdir
  obtain ⟨res, hres, hspec, hfirst⟩ := lookupLoop_spec h hdir name bounce (rootEntries + 1) 0
    (fun _ => 0) (zero_add _)
  rw [← fuel_eq h hdata] at hres
  exact ⟨res, bind_of_ok hr hres, hspec, fun p hp i hi => hfirst p hp i (Nat.zero_le i) hi⟩

/-- **The search of `dir_add`.** -/
theorem slotLoop_spec (h : Consistent P fs refs) (hdir : fs.RootAt dir) (bounce : Nat → Bool) :
    ∀ (n k : Nat) (e : Nat → Byte), k + n = rootEntries + 1 → k ≤ rootEntries →
    ∃ j e', slotLoop fs dir bounce n k e = .ok (j, e') ∧ Slot fs bounce k j
  | 0, k, e, hn, hle => by omega
  | n + 1, k, e, hn, hle => by
    rcases readEntry_eq h hdir e k (bounce k) with ⟨hb, hk, hread⟩ | ⟨hstop, hread⟩
    · have huse : entryInUse (splice e 0 entrySize (fs.entry k)) = entryInUse (fs.entry k) :=
        entryInUse_congr fun i hi => splice_entry e (fs.entry k) hi
      by_cases hu : entryInUse (fs.entry k) = true
      · obtain ⟨j, e', hr, hspec⟩ := slotLoop_spec h hdir bounce n (k + 1)
          (splice e 0 entrySize (fs.entry k)) (by omega) (by omega)
        refine ⟨j, e', bind_of_ok hread ((if_pos ⟨rfl, huse.trans hu⟩).trans hr),
          Nat.le_of_succ_le hspec.le, hspec.bound, fun i h0 h1 => ?_, hspec.stop⟩
        rcases Nat.eq_or_lt_of_le h0 with rfl | hlt
        · exact ⟨hb, hu⟩
        · exact hspec.used i hlt h1
      · refine ⟨k, splice e 0 entrySize (fs.entry k), bind_of_ok hread (if_neg fun hc => hu ?_),
          Nat.le_refl k, hle, fun i h0 h1 => by omega, fun _ hc => hu hc.2⟩
        exact huse.symm.trans hc.2
    · exact ⟨k, e, bind_of_ok hread rfl, Nat.le_refl k, hle, fun i h0 h1 => by omega,
        fun hk hc => hstop ⟨hc.1, hk⟩⟩

theorem findSlot_spec (h : Consistent P fs refs) (hdir : fs.RootAt dir) (bounce : Nat → Bool)
    (stack : Nat → Byte) :
    ∃ j e, findSlot fs dir bounce stack = .ok (j, e) ∧ Slot fs bounce 0 j := by
  obtain ⟨r, hr, hdata, -⟩ := h.rootInode hdir
  obtain ⟨j, e, hres, hspec⟩ := slotLoop_spec h hdir bounce (rootEntries + 1) 0 stack
    (zero_add _) (Nat.zero_le _)
  rw [← fuel_eq h hdata] at hres
  exact ⟨j, e, bind_of_ok hr hres, hspec⟩

/-! ## What an overwritten entry changes -/

section PutEntry

variable {k x : Nat} {e : Nat → Byte} {w : Who}

theorem within_entry (fs : Fs) (hk : k < rootEntries) :
    Within (sectorSize * (fs.disk rootDirSector).start + entrySize * k) entrySize
      (· = (fs.disk rootDirSector).start) := by
  intro b h0 h1
  simp only [sectorSize, entrySize, rootEntries] at *
  omega

theorem disk_putEntry (hk : k < rootEntries) (hx : x ≠ (fs.disk rootDirSector).start) :
    (fs.putEntry k e).disk x = fs.disk x :=
  disk_put (within_entry fs hk) hx

section

variable (h : Consistent P fs refs)
include h

/-- An inode is not in the directory's data. -/
theorem Consistent.ne_rootStart (hw : fs.Holds w x) : x ≠ (fs.disk rootDirSector).start :=
  fun hx => h.not_body_of_holds hw (h.root_body.mpr hx)

section

variable (hk : k < rootEntries)
include hk

theorem entry_putEntry (k' : Nat) (hj : j < entrySize) :
    (fs.putEntry k e).entry k' j = if k' = k then e j else fs.entry k' j := by
  unfold Fs.entry
  rw [disk_putEntry hk (h.ne_rootStart (w := .root) rfl)]
  show splice fs.dev.bytes _ _ e _ = _
  by_cases hkk : k' = k
  · subst hkk
    rw [if_pos rfl, splice_of_mem (by omega), Nat.add_sub_cancel_left]
  · rw [if_neg hkk]
    refine splice_of_not_mem ?_
    simp only [entrySize] at *
    omega

theorem holds_putEntry_of_ne {k' : Nat}
    (hne : k' ≠ k) : (fs.putEntry k e).Holds (.entry k') x ↔ fs.Holds (.entry k') x := by
  have hsame : ∀ j < entrySize, (fs.putEntry k e).entry k' j = fs.entry k' j :=
    fun j hj => by rw [entry_putEntry h hk k' hj, if_neg hne]
  constructor
  · rintro ⟨hk', hu, hx⟩
    exact ⟨hk', by rwa [← entryInUse_congr hsame], by rwa [← entrySector_congr hsame]⟩
  · rintro ⟨hk', hu, hx⟩
    exact ⟨hk', by rwa [entryInUse_congr hsame], by rwa [entrySector_congr hsame]⟩

theorem holds_putEntry_self :
    (fs.putEntry k e).Holds (.entry k) x ↔ entryInUse e = true ∧ entrySector e = x := by
  have hsame : ∀ j < entrySize, (fs.putEntry k e).entry k j = e j :=
    fun j hj => by rw [entry_putEntry h hk k hj, if_pos rfl]
  constructor
  · rintro ⟨-, hu, hx⟩
    exact ⟨by rwa [← entryInUse_congr hsame], by rwa [← entrySector_congr hsame]⟩
  · rintro ⟨hu, hx⟩
    exact ⟨hk, by rwa [entryInUse_congr hsame], by rwa [entrySector_congr hsame]⟩

theorem linked_putEntry : (fs.putEntry k e).Linked x ↔
      (entryInUse e = true ∧ entrySector e = x) ∨ ∃ k', k' ≠ k ∧ fs.Holds (.entry k') x := by
  constructor
  · rintro ⟨k', hk'⟩
    by_cases hne : k' = k
    · rw [hne] at hk'
      exact .inl ((holds_putEntry_self h hk).mp hk')
    · exact .inr ⟨k', hne, (holds_putEntry_of_ne h hk hne).mp hk'⟩
  · rintro (hnew | ⟨k', hne, hk'⟩)
    · exact ⟨k, (holds_putEntry_self h hk).mpr hnew⟩
    · exact ⟨k', (holds_putEntry_of_ne h hk hne).mpr hk'⟩

end

end

/-- The file of a new entry was spare. -/
structure NewFile (fs : Fs) (x : Nat) : Prop where
  head : fs.Spare x
  body : ∀ s, (fs.disk x).Has s → fs.Spare s ∧ s ≠ x
  length : 0 ≤ (fs.disk x).length
  extent : (fs.disk x).start + bytesToSectors (fs.disk x).length ≤ fs.dev.size

/-- Who had the files that `w` has after the entry `k` was overwritten. -/
def Fs.Before (fs : Fs) (k : Nat) (w w' : Who) : Prop := (w = w' ∧ w ≠ .entry k) ∨
  w' = .entry k ∧ ∃ i ∈ fs.openInodes, w = .opened i.id ∧ fs.Holds (.entry k) i.sector

theorem before_injective (h : Consistent P fs refs) {w1 w2 : Who} (h1 : fs.Before k w1 w)
    (h2 : fs.Before k w2 w) : w1 = w2 := by
  rcases h1 with ⟨rfl, hne⟩ | ⟨rfl, i, hi, rfl, hk⟩ <;> rcases h2 with ⟨he, hne'⟩ | ⟨he, j, hj, rfl, hk'⟩
  · exact he.symm
  · exact absurd he hne
  · exact absurd he hne'
  · rw [h.eq_of_sector hi hj (hk.2.2.symm.trans hk'.2.2)]

/-- **Who holds what after that**: what somebody held before, or the new file. -/
theorem holds_putEntry (h : Consistent P fs refs) (hk : k < rootEntries)
    (hw : (fs.putEntry k e).Holds w x) :
    (∃ w', fs.Before k w w' ∧ fs.Holds w' x) ∨
      (w = .entry k ∧ entryInUse e = true ∧ entrySector e = x) := by
  cases w with
  | map => exact .inl ⟨.map, .inl ⟨rfl, Who.noConfusion⟩, hw⟩
  | root => exact .inl ⟨.root, .inl ⟨rfl, Who.noConfusion⟩, hw⟩
  | entry k' =>
    by_cases hne : k' = k
    · subst hne
      exact .inr ⟨rfl, (holds_putEntry_self h hk).mp hw⟩
    · refine .inl ⟨.entry k', .inl ⟨rfl, fun he => hne (Who.entry.inj he)⟩, ?_⟩
      exact (holds_putEntry_of_ne h hk hne).mp hw
  | opened id =>
    obtain ⟨⟨i, hi, rfl, rfl⟩, h0, h1, hl⟩ := hw
    rw [linked_putEntry h hk] at hl
    by_cases hold : fs.Linked i.sector
    · -- the only entry that named it is the one overwritten
      obtain ⟨k', hk'⟩ := hold
      by_cases hne : k' = k
      · subst hne
        exact .inl ⟨.entry k', .inr ⟨rfl, i, hi, rfl, hk'⟩, hk'⟩
      · exact absurd (.inr ⟨k', hne, hk'⟩) hl
    · exact .inl ⟨.opened i.id, .inl ⟨rfl, Who.noConfusion⟩, ⟨i, hi, rfl, rfl⟩, h0, h1, hold⟩

/-- **Overwriting an entry** keeps the invariant. -/
theorem Consistent.putEntry (h : Consistent P fs refs) (hk : k < rootEntries)
    (hnew : entryInUse e = true → NewFile fs (entrySector e)) :
    Consistent P (fs.putEntry k e) refs := by
  have hroot : fs.claims (.root, .body) (fs.disk rootDirSector).start := h.root_body.mpr rfl
  have hdisk : ∀ w x, (fs.putEntry k e).Holds w x → (fs.putEntry k e).disk x = fs.disk x := by
    intro w x hw
    refine disk_putEntry hk ?_
    rcases holds_putEntry h hk hw with ⟨w', -, hw'⟩ | ⟨-, hu, rfl⟩
    · exact h.ne_rootStart hw'
    · exact fun hx => (hnew hu).head.2 _ (h.root_body.mpr hx)
  have hdisk' : ∀ w x, fs.Holds w x → (fs.putEntry k e).disk x = fs.disk x :=
    fun w x hw => disk_putEntry hk (h.ne_rootStart hw)
  refine ⟨h.bitCnt, h.size_lt, ?_, ?_, ?_, ?_, h.mapFile, ?_, h.sectors, h.ids, h.refs, ?_⟩
  · rw [hdisk' .map _ rfl]
    exact h.mapLength
  · rw [hdisk' .root _ rfl]
    exact h.rootLength
  · intro w x hw
    rw [hdisk w x hw]
    rcases holds_putEntry h hk hw with ⟨w', -, hw'⟩ | ⟨-, hu, rfl⟩
    · exact h.extents w' x hw'
    · exact ⟨(hnew hu).length, (hnew hu).extent⟩
  · refine h.owned.rename (fun o o' => o.2 = o'.2 ∧ fs.Before k o.1 o'.1)
      (fun o r => o.1 = .entry k ∧ entryInUse e = true ∧
        (o.2 = .head ∧ r = entrySector e ∨ o.2 = .body ∧ (fs.disk (entrySector e)).Has r))
      ?_ ?_ ?_ (fun r hr => hr) ?_
    · rintro ⟨w, p⟩ ⟨w', p'⟩ ⟨w'', p''⟩ ⟨hp, hb⟩ ⟨hp', hb'⟩
      exact Prod.ext (before_injective h hb hb') (hp.trans hp'.symm)
    · rintro ⟨w, p⟩ ⟨w', p'⟩ r ⟨hw, hu, hr⟩ ⟨hw', -, hr'⟩
      refine Prod.ext (hw.trans hw'.symm) ?_
      rcases hr with ⟨hp, rfl⟩ | ⟨hp, hb⟩ <;> rcases hr' with ⟨hp', hr'⟩ | ⟨hp', hb'⟩
      · exact hp.trans hp'.symm
      · exact absurd rfl ((hnew hu).body _ hb').2
      · exact absurd hr' ((hnew hu).body _ hb).2
      · exact hp.trans hp'.symm
    · rintro ⟨w, p⟩ r ⟨-, hu, hr⟩
      rcases hr with ⟨-, rfl⟩ | ⟨-, hb⟩
      · exact (hnew hu).head
      · exact ((hnew hu).body r hb).1
    · rintro ⟨w, p⟩ r hc
      cases p with
      | head =>
        rcases holds_putEntry h hk hc with ⟨w', hb, hw'⟩ | ⟨rfl, hu, rfl⟩
        · exact .inl ⟨(w', .head), ⟨rfl, hb⟩, hw'⟩
        · exact .inr ⟨rfl, hu, .inl ⟨rfl, rfl⟩⟩
      | body =>
        obtain ⟨x, hx, hs⟩ := hc
        rw [hdisk w x hx] at hs
        rcases holds_putEntry h hk hx with ⟨w', hb, hw'⟩ | ⟨rfl, hu, rfl⟩
        · exact .inl ⟨(w', .body), ⟨rfl, hb⟩, x, hw', hs⟩
        · exact .inr ⟨rfl, hu, .inr ⟨rfl, hs⟩⟩
  · intro i hi
    have ho := h.opened i hi
    obtain ⟨w, hw⟩ : ∃ w, fs.Holds w i.sector := Fs.held hi
    refine ⟨?_, ho.deny, ho.id_lt, ho.count, ho.pos, fun hrem => ?_⟩
    · rw [hdisk' w _ hw]
      exact ho.data
    obtain ⟨h0, h1, hl⟩ := ho.removed hrem
    refine ⟨h0, h1, fun hl' => ?_⟩
    rcases (linked_putEntry h hk).mp hl' with ⟨hu, hx⟩ | ⟨k', -, hk'⟩
    · rw [← hx] at hw
      exact (hnew hu).head.2 (w, .head) hw
    · exact hl ⟨k', hk'⟩
  · intro hP
    refine synced_put h (within_entry fs hk) ?_ (h.synced hP)
    rintro s rfl o ho
    rw [h.owned.unique ho hroot]
    exact Who.noConfusion

end PutEntry
end Pintos.Filesys
