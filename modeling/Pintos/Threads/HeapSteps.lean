/-
  What the parts of `malloc` and `free` do to the invariant of the heap.

  1. **`Core.take`** — a block leaves its list and becomes live.
  2. **`Core.push`** — a live block goes on the list of its descriptor.
  3. **`Core.newArena`**, **`Core.drop`** — an arena with all its blocks on the list comes and goes.
  4. **`Core.newBig`**, **`Core.dropBig`** — a big block likewise, as a live block.

  The counts (`freeBlocks`) change by one with the list: the block was not on it before, or is not
  any more, because it has one owner.
-/
import Pintos.Threads.HeapBlocks

namespace Pintos.Threads.Malloc

open Base Userprog Function List

/-! ## Counting the blocks on a list -/

variable {a : Nat} {d : DescId}

section Counts

variable {i : Nat} {l l' : List Nat}

theorem freeBlocks_congr (h : ∀ i < d.blocksPerArena, slot a d i ∈ l ↔ slot a d i ∈ l') :
    freeBlocks l a d = freeBlocks l' a d := by
  refine congrArg Finset.card (Finset.filter_congr fun i hi => ?_)
  exact h i (Finset.mem_range.mp hi)

/-- A block that was not on the list makes one more. -/
theorem freeBlocks_cons (hi : i < d.blocksPerArena) (hno : slot a d i ∉ l) :
    freeBlocks (slot a d i :: l) a d = freeBlocks l a d + 1 := by
  have hnew : i ∉ (Finset.range d.blocksPerArena).filter fun j => slot a d j ∈ l := by
    intro h
    exact hno (Finset.mem_filter.mp h).2
  rw [freeBlocks, freeBlocks, ← Finset.card_insert_of_notMem hnew]
  congr 1
  ext j
  simp only [Finset.mem_filter, Finset.mem_range, Finset.mem_insert, mem_cons]
  constructor
  · rintro ⟨hj, heq | hmem⟩
    · exact .inl (slot_inj heq)
    · exact .inr ⟨hj, hmem⟩
  · rintro (rfl | ⟨hj, hmem⟩)
    · exact ⟨hi, .inl rfl⟩
    · exact ⟨hj, .inr hmem⟩

theorem freeBlocks_le (l : List Nat) (a : Nat) (d : DescId) :
    freeBlocks l a d ≤ d.blocksPerArena := by
  have h := Finset.card_filter_le (Finset.range d.blocksPerArena) fun i => slot a d i ∈ l
  rwa [Finset.card_range] at h

/-- All blocks are on the list: here `free` gives the arena back. -/
theorem freeBlocks_eq_all :
    freeBlocks l a d = d.blocksPerArena ↔ ∀ i < d.blocksPerArena, slot a d i ∈ l := by
  have h := Finset.card_filter_eq_iff (s := Finset.range d.blocksPerArena)
    (p := fun i => slot a d i ∈ l)
  rw [Finset.card_range] at h
  simp only [Finset.mem_range] at h
  exact h

end Counts

variable {d' : DescId} {m b r n : Nat} {h : Heap} {live : List Block}

theorem Placed.setList (hc : Placed h) (d : DescId) (l : List Nat) : Placed (h.setList d l) :=
  ⟨hc.aligned, hc.pos, hc.pages, hc.top, hc.held, hc.apart⟩

theorem setList_self (h : Heap) (d : DescId) (l : List Nat) : (h.setList d l).freeList d = l :=
  update_self ..

theorem setList_of_ne (hd : d' ≠ d) (l : List Nat) : (h.setList d l).freeList d' = h.freeList d' :=
  update_of_ne hd ..

theorem mem_setList {l : List Nat} :
    r ∈ (h.setList d l).freeList d' ↔ (d' = d ∧ r ∈ l) ∨ (d' ≠ d ∧ r ∈ h.freeList d') := by
  by_cases hd : d' = d
  · subst hd
    rw [setList_self]
    simp
  · rw [setList_of_ne hd]
    simp [hd]

/-- The counts of the other arenas: only slots of `a` have come to the list, or left it. -/
theorem Placed.count_other (hc : Placed h) {l : List Nat}
    (ha : h.arena a = some ⟨some d, n⟩) (hb : h.arena b = some ⟨some d', m⟩) (hne : b ≠ a)
    (hl : ∀ r, ¬ (Arena.mk (some d) n).HasSlot a r → (r ∈ l ↔ r ∈ h.freeList d)) :
    freeBlocks ((h.setList d l).freeList d') b d' = freeBlocks (h.freeList d') b d' := by
  refine freeBlocks_congr fun i hi => ?_
  rw [mem_setList]
  by_cases hd : d' = d
  · subst hd
    -- a block lies in one arena only
    have hno : ¬ (Arena.mk (some d') n).HasSlot a (slot b d' i) := fun hs =>
      hne (hc.slot_unique hb ha ⟨i, hi, rfl⟩ hs)
    simp [hl _ hno]
  · simp [hd]

/-! ## From the list to a client, and back -/

section Moves

variable {h' : Heap} {size : Nat} {rest l : List Nat} {B B0 : Block}

/-- Every header stays, at most with another `free_cnt`. -/
def Kept (h h' : Heap) : Prop := ∀ b C, h.arena b = some C →
    ∃ C', h'.arena b = some C' ∧ C'.desc = C.desc ∧ C'.usable = C.usable

theorem Kept.lists (hk : Kept h h')
    (hr : ∃ b k i, h.arena b = some ⟨some d', k⟩ ∧ i < d'.blocksPerArena ∧ r = slot b d' i) :
    ∃ b k i, h'.arena b = some ⟨some d', k⟩ ∧ i < d'.blocksPerArena ∧ r = slot b d' i := by
  obtain ⟨b, k, i, hb, hi, hr⟩ := hr
  obtain ⟨⟨desc, cnt⟩, hb', hdesc, -⟩ := hk _ _ hb
  obtain rfl : desc = some d' := hdesc
  exact ⟨b, cnt, i, hb', hi, hr⟩

theorem Kept.fits (hk : Kept h h')
    (hB : ∃ b C, h.arena b = some C ∧ C.HasSlot b B.addr ∧ B.size ≤ C.usable) :
    ∃ b C, h'.arena b = some C ∧ C.HasSlot b B.addr ∧ B.size ≤ C.usable := by
  obtain ⟨b, C, hb, hs, hfit⟩ := hB
  obtain ⟨C', hb', hdesc, husable⟩ := hk _ _ hb
  exact ⟨b, C', hb', (hasSlot_congr hdesc).mpr hs, husable ▸ hfit⟩

theorem kept_setCnt (ha : h.arena a = some ⟨some d, n⟩) : Kept h (h.setCnt a d m) :=
  fun _ _ hb => arena_setCnt ha hb

theorem kept_newHeader (hnone : h.arena a = none) (cnt : Nat) (A : Arena) :
    Kept h (h.newHeader a cnt A) := by
  intro b C hb
  refine ⟨C, arena_update_iff.mpr (.inr ⟨?_, hb⟩), rfl, rfl⟩
  rintro rfl
  rw [hnone] at hb
  cases hb

/-- The count of the arena whose block has moved, and the counts of the others. -/
theorem Placed.count_setCnt (hc : Placed h) (ha : h.arena a = some ⟨some d, n⟩)
    (hcount : ∀ {b d' k}, h.arena b = some ⟨some d', k⟩ → k = freeBlocks (h.freeList d') b d')
    (hself : m = freeBlocks l a d)
    (hl : ∀ r, ¬ (Arena.mk (some d) n).HasSlot a r → (r ∈ l ↔ r ∈ h.freeList d)) {k : Nat}
    (hb : ((h.setList d l).setCnt a d m).arena b = some ⟨some d', k⟩) :
    k = freeBlocks ((h.setList d l).freeList d') b d' := by
  rcases arena_update_iff.mp hb with ⟨rfl, hA⟩ | ⟨hne, hb⟩
  · obtain ⟨hd, hm⟩ := Arena.mk.inj (Option.some.inj hA)
    cases hd
    rw [setList_self, ← hself, hm]
  · rw [hc.count_other ha hb hne hl, ← hcount hb]

theorem nodup_setList (hnodup : ∀ d, (h.freeList d).Nodup) (hl : l.Nodup)
    (d' : DescId) : ((h.setList d l).freeList d').Nodup := by
  by_cases hd : d' = d
  · subst hd
    rwa [setList_self]
  · rw [setList_of_ne hd]
    exact hnodup d'

/-- **A block is taken from the list.** -/
theorem Core.take (hc : Core h live) (hl : h.freeList d = r :: rest) (hsize : size ≤ d.blockSize) :
    ∃ a n, pgRoundDown r = a ∧ 0 < n ∧ n ≤ d.blocksPerArena ∧
      h.takeBlock d = .ok (some r, (h.setList d rest).setCnt a d (n - 1)) ∧
      Core ((h.setList d rest).setCnt a d (n - 1)) (⟨r, size⟩ :: live) := by
  have hmem : r ∈ h.freeList d := hl ▸ mem_cons_self
  obtain ⟨a, n, i, ha, hi, hr⟩ := hc.lists hmem
  have hslot : (Arena.mk (some d) n).HasSlot a r := ⟨i, hi, hr⟩
  have hnodup := hc.nodup d
  rw [hl] at hnodup
  have hnot : r ∉ rest := (nodup_cons.mp hnodup).1
  have hcount := hc.count ha
  rw [hl, hr, freeBlocks_cons hi (hr ▸ hnot)] at hcount
  have hpl := hc.toPlaced.setList d rest
  have ha' : (h.setList d rest).arena a = some ⟨some d, n⟩ := ha
  have hfree : Claims h.freeList live (.free d) r := hmem
  refine ⟨a, n, roundDown_slot hslot (hc.pages ha) (hc.aligned ha), by omega, ?_, ?_, ?_⟩
  · rw [hc.count ha]
    exact freeBlocks_le _ a d
  · have hto := hpl.blockToArena_slot ha' hslot
    rw [Heap.takeBlock]
    simp only [hl, hto]
    rfl
  have hout : ∀ {o r'}, o ≠ .free d → Claims h.freeList live o r' → r' ≠ r := by
    rintro o r' ho hold rfl
    exact ho (hc.owned.unique hold hfree)
  obtain ⟨howned, hcovered⟩ := hc.owned.give (S := fun r' => r' = r) (q := .live ⟨r, size⟩)
    (C := Claims (h.setList d rest).freeList (⟨r, size⟩ :: live)) hc.covered
    (fun r' hr' => hr' ▸ hc.owned.used_of_claim hfree)
    (fun r' => isSlot_setCnt (m := n - 1) ha') fun o r' => by
      cases o with
      | free d' =>
        simp only [Claims, mem_setList, reduceCtorEq, false_and, or_false]
        by_cases hd : d' = d
        · subst hd
          rw [hl]
          by_cases heq : r' = r
          · simp [heq, hnot]
          · simp [heq]
        · simpa [hd, Claims] using hout (o := .free d') (fun hx => hd (Owner.free.inj hx))
      | live B =>
        simp only [Claims, mem_cons, Owner.live.injEq]
        constructor
        · rintro ⟨rfl | hB, hr'⟩
          · exact .inr ⟨rfl, hr'⟩
          · exact .inl ⟨⟨hB, hr'⟩, hout (o := .live B) (by simp) ⟨hB, hr'⟩⟩
        · rintro (⟨⟨hB, hr'⟩, -⟩ | ⟨rfl, hr'⟩)
          · exact ⟨.inr hB, hr'⟩
          · exact ⟨.inl rfl, hr'⟩
  refine ⟨hpl.setCnt ha', howned, hcovered, ?_, ?_, ?_, ?_, ?_⟩
  · intro d' r' hr'
    have hold : r' ∈ h.freeList d' := by
      rcases mem_setList.mp hr' with ⟨rfl, hrest⟩ | ⟨-, hold⟩
      · rw [hl]
        exact mem_cons_of_mem r hrest
      · exact hold
    exact (kept_setCnt ha').lists (hc.lists hold)
  · exact nodup_setList hc.nodup (nodup_cons.mp hnodup).2
  · intro b d' m hb
    refine hc.toPlaced.count_setCnt ha hc.count (by omega) (fun r' hr' => ?_) hb
    rw [hl, mem_cons]
    exact ⟨.inr, fun h1 => h1.resolve_left fun heq => hr' (heq ▸ hslot)⟩
  · refine nodup_cons.mpr ⟨fun hB => ?_, hc.nodupLive⟩
    exact hout (o := .live ⟨r, size⟩) (by simp) ⟨hB, rfl⟩ rfl
  · intro B hB
    rcases mem_cons.mp hB with rfl | hB
    · exact ⟨a, ⟨some d, n - 1⟩, update_self .., ⟨i, hi, hr⟩, hsize⟩
    · exact (kept_setCnt ha').fits (hc.fits B hB)

theorem mem_freed {p : Nat} : B ∈ State.freed live (some p) ↔ B ∈ live ∧ B.addr ≠ p := by
  simp [State.freed]

/-- **A live block goes on the list.** -/
theorem Core.push (hc : Core h live) (hB0 : B0 ∈ live)
    (ha : h.arena a = some ⟨some d, n⟩) (hslot : (Arena.mk (some d) n).HasSlot a B0.addr) :
    Core ((h.setList d (B0.addr :: h.freeList d)).setCnt a d (n + 1))
      (State.freed live (some B0.addr)) := by
  have hlive : Claims h.freeList live (.live B0) B0.addr := ⟨hB0, rfl⟩
  have ha' : (h.setList d (B0.addr :: h.freeList d)).arena a = some ⟨some d, n⟩ := ha
  -- a live block is on no list
  have hout : ∀ {d' r}, r ∈ h.freeList d' → r ≠ B0.addr := by
    rintro d' r hold rfl
    cases hc.owned.unique (o := .free d') hold hlive
  obtain ⟨howned, hcovered⟩ := hc.owned.give (S := fun r => r = B0.addr) (q := .free d)
    (C := Claims (h.setList d (B0.addr :: h.freeList d)).freeList
      (State.freed live (some B0.addr))) hc.covered
    (fun r hr => hr ▸ hc.owned.used_of_claim hlive)
    (fun r => isSlot_setCnt (m := n + 1) ha') fun o r => by
      cases o with
      | free d' =>
        simp only [Claims, mem_setList, Owner.free.injEq]
        by_cases hd : d' = d
        · subst hd
          simpa [or_comm] using or_congr_left (and_iff_left_of_imp hout).symm
        · simpa [hd] using hout
      | live =>
        simp only [Claims, mem_freed, reduceCtorEq, false_and, or_false]
        constructor
        · rintro ⟨⟨hB, hne⟩, rfl⟩
          exact ⟨⟨hB, rfl⟩, hne⟩
        · rintro ⟨⟨hB, rfl⟩, hne⟩
          exact ⟨⟨hB, hne⟩, rfl⟩
  refine ⟨(hc.toPlaced.setList _ _).setCnt ha', howned, hcovered, ?_, ?_, ?_, ?_, ?_⟩
  · intro d' r hr
    refine (kept_setCnt ha').lists ?_
    rcases mem_setList.mp hr with ⟨rfl, hr⟩ | ⟨-, hold⟩
    · rcases mem_cons.mp hr with rfl | hold
      · obtain ⟨i, hi, hr⟩ := hslot
        exact ⟨a, n, i, ha, hi, hr⟩
      · exact hc.lists hold
    · exact hc.lists hold
  · exact nodup_setList hc.nodup (nodup_cons.mpr ⟨fun hmem => hout hmem rfl, hc.nodup d⟩)
  · intro b d' m hb
    refine hc.toPlaced.count_setCnt ha hc.count ?_ (fun r' hr' => ?_) hb
    · obtain ⟨i, hi, hr⟩ := hslot
      rw [hr, freeBlocks_cons hi (fun hmem => hout hmem hr.symm), ← hc.count ha]
    · rw [mem_cons]
      exact ⟨fun h1 => h1.resolve_left fun heq => hr' (heq ▸ hslot), .inr⟩
  · exact hc.nodupLive.filter _
  · exact fun B hB => (kept_setCnt ha').fits (hc.fits B (mem_freed.mp hB).1)

/-! ## Arenas -/

/-- The slots of an arena of a descriptor. -/
def slots (a : Nat) (d : DescId) : List Nat := (range d.blocksPerArena).map (slot a d)

theorem mem_slots : r ∈ slots a d ↔ (Arena.mk (some d) n).HasSlot a r := by
  rw [slots, mem_map]
  constructor
  · rintro ⟨i, hi, rfl⟩
    exact ⟨i, mem_range.mp hi, rfl⟩
  · rintro ⟨i, hi, rfl⟩
    exact ⟨i, mem_range.mpr hi, rfl⟩

variable (hc : Core h live)
include hc

/-- **A new arena**, with all its blocks on the list. -/
theorem Core.newArena (hf : Fresh h a 1) :
    Core ((h.newHeader a 1 ⟨some d, d.blocksPerArena⟩).setList d (h.freeList d ++ slots a d))
      live := by
  generalize hA : Arena.mk (some d) d.blocksPerArena = A
  have hpages : A.pages = 1 := by rw [← hA]; rfl
  have hf : Fresh h a A.pages := hpages.symm ▸ hf
  have hpl : Placed (h.newHeader a 1 A) := hpages ▸ hc.toPlaced.newHeader hf
  have hnone := hc.toPlaced.fresh_none hf
  have hnew : ∀ {r}, r ∈ slots a d ↔ A.HasSlot a r := by
    intro r
    rw [← hA]
    exact mem_slots
  have hfresh : ∀ {r}, A.HasSlot a r → ¬ IsSlot h r := fun hr => hc.toPlaced.fresh_slot hf hr
  have hself : (h.newHeader a 1 A).arena a = some ⟨some d, d.blocksPerArena⟩ := by
    rw [hA]
    exact update_self ..
  obtain ⟨howned, hcovered⟩ := hc.owned.gain (S := A.HasSlot a) (q := .free d)
    (C := Claims (h.setList d (h.freeList d ++ slots a d)).freeList live) hc.covered
    (fun r hr => hfresh hr) (fun r => isSlot_newHeader hnone 1) fun o r => by
      cases o with
      | free d' =>
        simp only [Claims, mem_setList, Owner.free.injEq]
        by_cases hd : d' = d
        · subst hd
          simp [hnew]
        · simp [hd]
      | live => simp [Claims]
  refine ⟨hpl.setList _ _, howned, hcovered, ?_, ?_, ?_, hc.nodupLive, ?_⟩
  · intro d' r hr
    have hold := fun hold : r ∈ h.freeList d' =>
      (kept_newHeader hnone 1 A).lists (hc.lists hold)
    rcases mem_setList.mp hr with ⟨rfl, hr⟩ | ⟨-, hr⟩
    · rcases mem_append.mp hr with hr | hr
      · exact hold hr
      · obtain ⟨i, hi, hr⟩ := mem_slots (n := d'.blocksPerArena) |>.mp hr
        exact ⟨a, d'.blocksPerArena, i, hself, hi, hr⟩
    · exact hold hr
  · refine nodup_setList hc.nodup (nodup_append.mpr ⟨hc.nodup d, ?_, ?_⟩)
    · exact nodup_range.map fun i j hij => slot_inj hij
    · rintro r hr r' hr' rfl
      exact hfresh (hnew.mp hr') (hc.owned.used_of_claim (o := .free d) hr)
  · intro b d' k hb
    by_cases hne : b = a
    · subst hne
      obtain ⟨hd, hk⟩ := Arena.mk.inj (Option.some.inj (hself.symm.trans hb))
      cases hd
      rw [← hk, setList_self, eq_comm, freeBlocks_eq_all]
      exact fun i hi => mem_append_right _ (mem_slots (n := 0) |>.mpr ⟨i, hi, rfl⟩)
    · have hb' : (h.newHeader a 1 A).arena b = some ⟨some d', k⟩ := hb
      rw [hpl.count_other hself hb' hne]
      · rcases arena_update_iff.mp hb' with ⟨rfl, -⟩ | ⟨-, hold⟩
        · exact absurd rfl hne
        · exact hc.count hold
      · intro r hr
        rw [mem_append, mem_slots (n := d.blocksPerArena)]
        exact ⟨fun h1 => h1.resolve_right hr, .inl⟩
  · exact fun B hB => (kept_newHeader hnone 1 A).fits (hc.fits B hB)

/-- **An arena is given back** with all its blocks on the list: they leave it. -/
theorem Core.drop (ha : h.arena a = some ⟨some d, n⟩)
    (hall : ∀ i < d.blocksPerArena, slot a d i ∈ h.freeList d) (hnodup : l.Nodup)
    (hl : ∀ r, r ∈ l ↔ r ∈ h.freeList d ∧ ¬ (Arena.mk (some d) n).HasSlot a r) :
    Core ((h.setList d l).dropPages a) live := by
  have hfree : ∀ {r}, (Arena.mk (some d) n).HasSlot a r → Claims h.freeList live (.free d) r := by
    rintro r ⟨i, hi, rfl⟩
    exact hall i hi
  have ha' : (h.setList d l).arena a = some ⟨some d, n⟩ := ha
  have hpl := hc.toPlaced.setList d l
  have hout : ∀ {o r}, o ≠ .free d → Claims h.freeList live o r →
      ¬ (Arena.mk (some d) n).HasSlot a r := fun ho hold hs => ho (hc.owned.unique hold (hfree hs))
  obtain ⟨howned, hcovered⟩ := hc.owned.lose (S := (Arena.mk (some d) n).HasSlot a)
    (C := Claims (h.setList d l).freeList live) hc.covered
    (fun r => hpl.isSlot_dropPages ha') fun o r => by
      cases o with
      | free d' =>
        simp only [Claims, mem_setList]
        by_cases hd : d' = d
        · subst hd
          simp [hl]
        · simpa [hd, Claims] using hout (o := .free d') (fun hx => hd (Owner.free.inj hx))
      | live B => exact (and_iff_left_of_imp (hout (o := .live B) (by simp))).symm
  refine ⟨hpl.dropPages a, howned, hcovered, ?_, nodup_setList hc.nodup hnodup, ?_, hc.nodupLive, ?_⟩
  · intro d' r hr
    obtain ⟨hold, hno⟩ : r ∈ h.freeList d' ∧ (d' = d → ¬ (Arena.mk (some d) n).HasSlot a r) := by
      rcases mem_setList.mp hr with ⟨rfl, hmem⟩ | ⟨hd, hold⟩
      · exact ⟨((hl r).mp hmem).1, fun _ => ((hl r).mp hmem).2⟩
      · exact ⟨hold, fun h => absurd h hd⟩
    obtain ⟨b, k, i, hb, hi, hslot⟩ := hc.lists hold
    refine ⟨b, k, i, dropPages_arena.mpr ⟨?_, hb⟩, hi, hslot⟩
    rintro rfl
    obtain ⟨hd, -⟩ := Arena.mk.inj (Option.some.inj (ha.symm.trans hb))
    cases hd
    exact hno rfl ⟨i, hi, hslot⟩
  · intro b d' k hb
    obtain ⟨hne, hb⟩ := dropPages_arena.mp hb
    show k = freeBlocks ((h.setList d l).freeList d') b d'
    rw [hc.toPlaced.count_other ha hb hne fun r hr => ?_, ← hc.count hb]
    rw [hl]
    exact ⟨fun h1 => h1.1, fun h1 => ⟨h1, hr⟩⟩
  · intro B hB
    obtain ⟨b, C, hb, hs, hfit⟩ := hc.fits B hB
    refine ⟨b, C, dropPages_arena.mpr ⟨?_, hb⟩, hs, hfit⟩
    rintro rfl
    rw [ha] at hb
    cases hb
    exact hout (o := .live B) (by simp) ⟨hB, rfl⟩ hs

/-- **A big block** comes, and is live. -/
theorem Core.newBig {cnt : Nat} (hf : Fresh h a cnt) (hsize : size + sizeofArena ≤ pgSize * cnt) :
    Core (h.newHeader a cnt ⟨none, cnt⟩) (⟨a + sizeofArena, size⟩ :: live) := by
  generalize hA : Arena.mk none cnt = A
  have hpages : A.pages = cnt := by rw [← hA]; rfl
  have hslot : ∀ {r}, A.HasSlot a r ↔ r = a + sizeofArena := by
    intro r
    rw [← hA]
    exact Iff.rfl
  have hf : Fresh h a A.pages := hpages.symm ▸ hf
  have hnone := hc.toPlaced.fresh_none hf
  obtain ⟨howned, hcovered⟩ := hc.owned.gain (S := A.HasSlot a)
    (q := .live ⟨a + sizeofArena, size⟩)
    (C := Claims h.freeList (⟨a + sizeofArena, size⟩ :: live)) hc.covered
    (fun r hr => hc.toPlaced.fresh_slot hf hr) (fun r => isSlot_newHeader hnone cnt) fun o r => by
      cases o with
      | free => simp [Claims]
      | live =>
        simp only [Claims, mem_cons, Owner.live.injEq, hslot, or_and_right]
        rw [or_comm]
        refine or_congr_right (and_congr_right ?_)
        rintro rfl
        rfl
  refine ⟨hpages ▸ hc.toPlaced.newHeader hf, howned, hcovered, ?_, hc.nodup, ?_, ?_, ?_⟩
  · exact fun hr => (kept_newHeader hnone cnt A).lists (hc.lists hr)
  · intro b d' k hb
    rcases arena_update_iff.mp hb with ⟨-, hnew⟩ | ⟨-, hold⟩
    · rw [← hA] at hnew
      cases hnew
    · exact hc.count hold
  · refine nodup_cons.mpr ⟨fun hB => ?_, hc.nodupLive⟩
    have hold : Claims h.freeList live (.live ⟨a + sizeofArena, size⟩) (a + sizeofArena) := ⟨hB, rfl⟩
    exact hc.toPlaced.fresh_slot hf (hslot.mpr rfl) (hc.owned.used_of_claim hold)
  · intro B hB
    rcases mem_cons.mp hB with rfl | hB
    · refine ⟨a, A, update_self .., hslot.mpr rfl, ?_⟩
      rw [← hA]
      show size ≤ pgSize * cnt - sizeofArena
      omega
    · exact (kept_newHeader hnone cnt A).fits (hc.fits B hB)

/-- **A big block is freed**, and its pages with it. -/
theorem Core.dropBig (hB0 : B0 ∈ live)
    (ha : h.arena a = some ⟨none, n⟩) (hslot : (Arena.mk none n).HasSlot a B0.addr) :
    Core (h.dropPages a) (State.freed live (some B0.addr)) := by
  have hlive : Claims h.freeList live (.live B0) B0.addr := ⟨hB0, rfl⟩
  have hsame : ∀ {r}, (Arena.mk none n).HasSlot a r ↔ r = B0.addr := by
    intro r
    exact ⟨fun hr => Eq.trans hr (Eq.symm hslot), fun hr => hr ▸ hslot⟩
  obtain ⟨howned, hcovered⟩ := hc.owned.lose (S := fun r => r = B0.addr)
    (C := Claims h.freeList (State.freed live (some B0.addr))) hc.covered
    (fun r => (hc.toPlaced.isSlot_dropPages ha).trans (by rw [hsame])) fun o r => by
      cases o with
      | free d' =>
        refine (and_iff_left_of_imp fun hold => ?_).symm
        rintro rfl
        cases hc.owned.unique (o := .free d') hold hlive
      | live =>
        simp only [Claims, mem_freed]
        constructor
        · rintro ⟨⟨hB, hne⟩, rfl⟩
          exact ⟨⟨hB, rfl⟩, hne⟩
        · rintro ⟨⟨hB, rfl⟩, hne⟩
          exact ⟨⟨hB, hne⟩, rfl⟩
  refine ⟨hc.toPlaced.dropPages a, howned, hcovered, ?_, hc.nodup, ?_, hc.nodupLive.filter _, ?_⟩
  · intro d' r hr
    obtain ⟨b, k, i, hb, hi, hr⟩ := hc.lists hr
    refine ⟨b, k, i, dropPages_arena.mpr ⟨?_, hb⟩, hi, hr⟩
    rintro rfl
    cases ha.symm.trans hb
  · intro b d' k hb
    exact hc.count (dropPages_arena.mp hb).2
  · intro B hB
    obtain ⟨hB, hne⟩ := mem_freed.mp hB
    obtain ⟨b, C, hb, hs, hfit⟩ := hc.fits B hB
    refine ⟨b, C, dropPages_arena.mpr ⟨?_, hb⟩, hs, hfit⟩
    rintro rfl
    rw [ha] at hb
    cases hb
    exact hne (hsame.mp hs)

end Moves

end Pintos.Threads.Malloc
