/-
  The blocks of the kernel heap and who has them (`threads/malloc.c`).

  1. **Slots** — an arena of a descriptor has a slot for each of its blocks, a big block is the one
     slot of its arena.  A slot is its address; `pg_round_down` leads back to the arena.

  2. **Ownership** — every slot is on the free list of its descriptor or is a live block, and not
     both: the moves of `Owned` and `Covered`, with lists and blocks as owners.

  3. **`Core`** — the invariant, but for the clause that an arena has a block in use: that one is
     broken inside `malloc`, when the arena is new, and inside `free`, before it is given back.
-/
import Mathlib.Data.Finset.Card
import Mathlib.Data.Finset.Range
import Pintos.Base.Ownership
import Pintos.Threads.Malloc

namespace Pintos.Threads.Malloc

open Base Userprog Function Option

/-! ## Slots -/

def slot (a : Nat) (d : DescId) (i : Nat) : Nat := a + sizeofArena + i * d.blockSize

namespace Arena

def pages (A : Arena) : Nat :=
  match A.desc with
  | some _ => 1
  | none => A.freeCnt

def usable (A : Arena) : Nat :=
  match A.desc with
  | some d => d.blockSize
  | none => pgSize * A.freeCnt - sizeofArena

def HasSlot (A : Arena) (a r : Nat) : Prop :=
  match A.desc with
  | some d => ∃ i < d.blocksPerArena, r = slot a d i
  | none => r = a + sizeofArena

end Arena

theorem slot_inj {a i j : Nat} {d : DescId} (h : slot a d i = slot a d j) : i = j := by
  rw [slot, slot, Nat.add_left_cancel_iff] at h
  exact Nat.eq_of_mul_eq_mul_right d.fits.1 h

/-- A block ends before the page does. -/
theorem slot_end {i : Nat} {d : DescId} (hi : i < d.blocksPerArena) (a : Nat) :
    slot a d i + d.blockSize ≤ a + pgSize := by
  have h1 : (i + 1) * d.blockSize ≤ d.blocksPerArena * d.blockSize := Nat.mul_le_mul_right _ hi
  have h2 := d.fits.2.2
  rw [Nat.succ_mul] at h1
  rw [slot]
  omega

/-- **Where a slot lies**: behind the header, and inside the pages. -/
theorem slot_inside {A : Arena} {a r : Nat} (hr : A.HasSlot a r) (hpages : 0 < A.pages) :
    a + sizeofArena ≤ r ∧ r + A.usable ≤ a + pgSize * A.pages ∧ 0 < A.usable ∧ r < a + pgSize := by
  obtain ⟨desc, cnt⟩ := A
  cases desc with
  | none =>
    have hr : r = a + sizeofArena := hr
    have hpages : 0 < cnt := hpages
    show _ ∧ r + (pgSize * cnt - sizeofArena) ≤ a + pgSize * cnt ∧ 0 < pgSize * cnt - sizeofArena ∧ _
    simp only [sizeofArena, pgSize] at hr ⊢
    omega
  | some d =>
    obtain ⟨i, hi, rfl⟩ := hr
    have hend := slot_end hi a
    have hpos := d.fits.1
    show _ ∧ slot a d i + d.blockSize ≤ a + pgSize * 1 ∧ 0 < d.blockSize ∧ _
    have hstart : a + sizeofArena ≤ slot a d i := Nat.le_add_right _ _
    omega

theorem roundDown_slot {A : Arena} {a r : Nat} (hr : A.HasSlot a r) (hpages : 0 < A.pages)
    (ha : a % pgSize = 0) : pgRoundDown r = a := by
  obtain ⟨h1, -, -, h2⟩ := slot_inside hr hpages
  simp only [pgRoundDown, pgOfs, pgSize, sizeofArena] at h1 h2 ha ⊢
  omega

theorem slots_apart {A : Arena} {a r r' : Nat} (hr : A.HasSlot a r) (hr' : A.HasSlot a r')
    (hne : r ≠ r') : Apart r A.usable r' A.usable := by
  obtain ⟨desc, cnt⟩ := A
  cases desc with
  | none => exact absurd (Eq.trans hr (Eq.symm hr')) hne
  | some d =>
    obtain ⟨i, -, rfl⟩ := hr
    obtain ⟨j, -, rfl⟩ := hr'
    show slot a d i + d.blockSize ≤ slot a d j ∨ slot a d j + d.blockSize ≤ slot a d i
    rcases lt_trichotomy i j with hij | rfl | hij
    · have h := Nat.mul_le_mul_right d.blockSize (show i + 1 ≤ j from hij)
      rw [Nat.succ_mul] at h
      simp only [slot]
      omega
    · exact absurd rfl hne
    · have h := Nat.mul_le_mul_right d.blockSize (show j + 1 ≤ i from hij)
      rw [Nat.succ_mul] at h
      simp only [slot]
      omega

def IsSlot (h : Heap) (r : Nat) : Prop := ∃ a A, h.arena a = some A ∧ A.HasSlot a r

/-! ## The invariant -/

/-- Who has a block: the list of a descriptor, or a client. -/
inductive Owner where
  | free (d : DescId)
  | live (B : Block)

def Claims (freeList : DescId → List Nat) (live : List Block) : Owner → Nat → Prop
  | .free d, r => r ∈ freeList d
  | .live B, r => B ∈ live ∧ r = B.addr

/-- The blocks of an arena that are on the list of its descriptor. -/
def freeBlocks (l : List Nat) (a : Nat) (d : DescId) : Nat :=
  ((Finset.range d.blocksPerArena).filter fun i => slot a d i ∈ l).card

/-- Every page that is held begins with a header, and every header is at pages that are held. -/
structure Placed (h : Heap) : Prop where
  aligned : ∀ {a A}, h.arena a = some A → a % pgSize = 0
  pos : ∀ {a A}, h.arena a = some A → 0 < a
  pages : ∀ {a A}, h.arena a = some A → 0 < A.pages
  top : ∀ {a A}, h.arena a = some A → a + pgSize * A.pages ≤ addrSpace
  held : ∀ a, h.held a = (h.arena a).map Arena.pages
  apart : ∀ {a A b B}, h.arena a = some A → h.arena b = some B → a ≠ b →
    Apart a (pgSize * A.pages) b (pgSize * B.pages)

/-- **The invariant**, but for arenas that have no block in use. -/
structure Core (h : Heap) (live : List Block) : Prop extends Placed h where
  owned : Owned (IsSlot h) (Claims h.freeList live)
  covered : Covered (IsSlot h) (Claims h.freeList live)
  lists : ∀ {d r}, r ∈ h.freeList d →
    ∃ a n i, h.arena a = some ⟨some d, n⟩ ∧ i < d.blocksPerArena ∧ r = slot a d i
  nodup : ∀ d, (h.freeList d).Nodup
  count : ∀ {a d n}, h.arena a = some ⟨some d, n⟩ → n = freeBlocks (h.freeList d) a d
  nodupLive : live.Nodup
  fits : ∀ B ∈ live, ∃ a A, h.arena a = some A ∧ A.HasSlot a B.addr ∧ B.size ≤ A.usable

/-- Every arena of a descriptor has a block in use. -/
def Busy (h : Heap) : Prop := ∀ {a d n}, h.arena a = some ⟨some d, n⟩ → n < d.blocksPerArena

variable {h : Heap} {live : List Block} {a b r : Nat} {A B : Arena} {d : DescId}

theorem Placed.slot_unique (hc : Placed h) (ha : h.arena a = some A) (hb : h.arena b = some B)
    (hr : A.HasSlot a r) (hr' : B.HasSlot b r) : a = b := by
  rw [← roundDown_slot hr (hc.pages ha) (hc.aligned ha), roundDown_slot hr' (hc.pages hb) (hc.aligned hb)]

theorem Placed.blockToArena_slot (hc : Placed h) (ha : h.arena a = some A) (hr : A.HasSlot a r) :
    h.blockToArena r = .ok (a, A) := by
  have hround := roundDown_slot hr (hc.pages ha) (hc.aligned ha)
  have hpos := hc.pos ha
  have halign := hc.aligned ha
  unfold Heap.blockToArena
  simp only [hround, ha]
  rw [if_neg (by omega)]
  obtain ⟨desc, cnt⟩ := A
  cases desc with
  | none =>
    have hr : r = a + sizeofArena := hr
    refine if_pos ?_
    simp only [pgOfs, pgSize, sizeofArena] at hr halign ⊢
    omega
  | some d =>
    obtain ⟨i, hi, hr⟩ := hr
    have hend := slot_end hi a
    have hpos' := d.fits.1
    refine if_pos ?_
    have hofs : (pgOfs r + addrSpace - sizeofArena) % addrSpace = i * d.blockSize := by
      simp only [slot, pgOfs, pgSize, sizeofArena, addrSpace] at hr halign hend ⊢
      omega
    rw [hofs, Nat.mul_mod_left]

theorem Placed.arenaToBlock_slot (hc : Placed h) {n : Nat} (ha : h.arena a = some ⟨some d, n⟩)
    {i : Nat} (hi : i < d.blocksPerArena) : h.arenaToBlock a i = .ok (slot a d i) := by
  have hpos := hc.pos ha
  unfold Heap.arenaToBlock
  rw [if_neg (by omega)]
  simp only [ha, if_pos hi]
  rfl

/-! ## Headers come and go -/

section Headers

variable {n m : Nat}

theorem arena_update_iff {f : Nat → Option Arena} {C : Option Arena} :
    update f a C b = some B ↔ (b = a ∧ C = some B) ∨ (b ≠ a ∧ f b = some B) := by
  by_cases hb : b = a
  · subst hb
    simp
  · simp [hb]

/-- Pages that `palloc` may return have no header. -/
theorem Placed.fresh_none (hc : Placed h) (hf : Fresh h a n) : h.arena a = none := by
  cases ha : h.arena a with
  | none => rfl
  | some A =>
    obtain ⟨-, -, -, hn, hapart⟩ := hf
    have hpages := hc.pages ha
    have hheld : h.held a = some A.pages := by rw [hc.held, ha, map_some]
    have hap := hapart a A.pages hheld
    rw [Apart] at hap
    simp only [pgSize] at hap
    omega

theorem Placed.newHeader (hc : Placed h) (hf : Fresh h a A.pages) :
    Placed (h.newHeader a A.pages A) := by
  obtain ⟨halign, hpos, htop, hpages, hapart⟩ := hf
  have hheld : ∀ {b B}, h.arena b = some B → h.held b = some B.pages := by
    intro b B hb
    rw [hc.held, hb, map_some]
  refine ⟨fun hb => ?_, fun hb => ?_, fun hb => ?_, fun hb => ?_, fun b => ?_, fun hb hb' hne => ?_⟩
  · rcases arena_update_iff.mp hb with ⟨rfl, -⟩ | ⟨-, hb⟩
    · exact halign
    · exact hc.aligned hb
  · rcases arena_update_iff.mp hb with ⟨rfl, -⟩ | ⟨-, hb⟩
    · exact hpos
    · exact hc.pos hb
  · rcases arena_update_iff.mp hb with ⟨rfl, hA⟩ | ⟨-, hb⟩
    · rwa [← some.inj hA]
    · exact hc.pages hb
  · rcases arena_update_iff.mp hb with ⟨rfl, hA⟩ | ⟨-, hb⟩
    · rwa [← some.inj hA]
    · exact hc.top hb
  · show update h.held a (some A.pages) b = (update h.arena a (some A) b).map Arena.pages
    by_cases hb : b = a
    · subst hb
      simp
    · rw [update_of_ne hb, update_of_ne hb, hc.held]
  · rcases arena_update_iff.mp hb with ⟨rfl, hA⟩ | ⟨-, hold⟩ <;>
      rcases arena_update_iff.mp hb' with ⟨rfl, hA'⟩ | ⟨-, hold'⟩
    · exact absurd rfl hne
    · rw [← some.inj hA]
      exact hapart _ _ (hheld hold')
    · rw [← some.inj hA']
      exact Or.symm (hapart _ _ (hheld hold))
    · exact hc.apart hold hold' hne

theorem Placed.fresh_slot (hc : Placed h) (hf : Fresh h a A.pages) (hr : A.HasSlot a r) :
    ¬ IsSlot h r := by
  rintro ⟨b, B, hb, hr'⟩
  have hhead : (h.newHeader a A.pages A).arena a = some A := update_self ..
  have hne : b ≠ a := by
    rintro rfl
    rw [hc.fresh_none hf] at hb
    cases hb
  have hb' : (h.newHeader a A.pages A).arena b = some B := (update_of_ne hne ..).trans hb
  exact hne ((hc.newHeader hf).slot_unique hb' hhead hr' hr)

theorem isSlot_newHeader (hnone : h.arena a = none) (cnt : Nat) :
    IsSlot (h.newHeader a cnt A) r ↔ IsSlot h r ∨ A.HasSlot a r := by
  constructor
  · rintro ⟨b, B, hb, hr⟩
    rcases arena_update_iff.mp hb with ⟨rfl, hA⟩ | ⟨-, hb⟩
    · rw [← some.inj hA] at hr
      exact .inr hr
    · exact .inl ⟨b, B, hb, hr⟩
  · rintro (⟨b, B, hb, hr⟩ | hr)
    · refine ⟨b, B, arena_update_iff.mpr (.inr ⟨fun hba => ?_, hb⟩), hr⟩
      rw [hba, hnone] at hb
      cases hb
    · exact ⟨a, A, arena_update_iff.mpr (.inl ⟨rfl, rfl⟩), hr⟩

/-- The header of an arena of a descriptor, with another number of free blocks. -/
def Heap.setCnt (h : Heap) (a : Nat) (d : DescId) (m : Nat) : Heap := h.setArena a (some ⟨some d, m⟩)

theorem setCnt_arena (ha : h.arena a = some ⟨some d, n⟩) (hb : (h.setCnt a d m).arena b = some B) :
    ∃ B', h.arena b = some B' ∧ B'.desc = B.desc ∧ B'.pages = B.pages := by
  rcases arena_update_iff.mp hb with ⟨rfl, hA⟩ | ⟨-, hb⟩
  · rw [← some.inj hA]
    exact ⟨_, ha, rfl, rfl⟩
  · exact ⟨B, hb, rfl, rfl⟩

theorem arena_setCnt (ha : h.arena a = some ⟨some d, n⟩) (hb : h.arena b = some B) :
    ∃ B', (h.setCnt a d m).arena b = some B' ∧ B'.desc = B.desc ∧ B'.usable = B.usable := by
  by_cases hba : b = a
  · subst hba
    rw [ha] at hb
    cases hb
    exact ⟨⟨some d, m⟩, update_self .., rfl, rfl⟩
  · exact ⟨B, (update_of_ne hba ..).trans hb, rfl, rfl⟩

theorem hasSlot_congr (hdesc : B.desc = A.desc) : B.HasSlot a r ↔ A.HasSlot a r := by
  rw [Arena.HasSlot, Arena.HasSlot, hdesc]

theorem Placed.setCnt (hc : Placed h) (ha : h.arena a = some ⟨some d, n⟩) :
    Placed (h.setCnt a d m) := by
  refine ⟨fun hb => ?_, fun hb => ?_, fun hb => ?_, fun hb => ?_, fun b => ?_, fun hb hb' hne => ?_⟩
  · obtain ⟨B', hb, -, -⟩ := setCnt_arena ha hb
    exact hc.aligned hb
  · obtain ⟨B', hb, -, -⟩ := setCnt_arena ha hb
    exact hc.pos hb
  · obtain ⟨B', hb, -, hp⟩ := setCnt_arena ha hb
    exact hp ▸ hc.pages hb
  · obtain ⟨B', hb, -, hp⟩ := setCnt_arena ha hb
    exact hp ▸ hc.top hb
  · show h.held b = (update h.arena a (some ⟨some d, m⟩) b).map Arena.pages
    by_cases hb : b = a
    · subst hb
      rw [update_self, hc.held, ha]
      rfl
    · rw [update_of_ne hb, hc.held]
  · obtain ⟨B', hb, -, hp⟩ := setCnt_arena ha hb
    obtain ⟨C', hb', -, hp'⟩ := setCnt_arena ha hb'
    exact hp ▸ hp' ▸ hc.apart hb hb' hne

theorem isSlot_setCnt (ha : h.arena a = some ⟨some d, n⟩) :
    IsSlot (h.setCnt a d m) r ↔ IsSlot h r := by
  constructor
  · rintro ⟨b, B, hb, hr⟩
    obtain ⟨B', hb', hdesc, -⟩ := setCnt_arena ha hb
    exact ⟨b, B', hb', (hasSlot_congr hdesc).mpr hr⟩
  · rintro ⟨b, B, hb, hr⟩
    obtain ⟨B', hb', hdesc, -⟩ := arena_setCnt (m := m) ha hb
    exact ⟨b, B', hb', (hasSlot_congr hdesc).mpr hr⟩

/-- The heap without the pages at `a`. -/
def Heap.dropPages (h : Heap) (a : Nat) : Heap :=
  { h with arena := update h.arena a none, held := update h.held a none }

theorem dropPages_arena : (h.dropPages a).arena b = some B ↔ b ≠ a ∧ h.arena b = some B := by
  refine arena_update_iff.trans ⟨?_, .inr⟩
  rintro (⟨-, hnone⟩ | hb)
  · cases hnone
  · exact hb

theorem Placed.dropPages (hc : Placed h) (a : Nat) : Placed (h.dropPages a) := by
  refine ⟨fun hb => ?_, fun hb => ?_, fun hb => ?_, fun hb => ?_, fun b => ?_, fun hb hb' hne => ?_⟩
  · exact hc.aligned (dropPages_arena.mp hb).2
  · exact hc.pos (dropPages_arena.mp hb).2
  · exact hc.pages (dropPages_arena.mp hb).2
  · exact hc.top (dropPages_arena.mp hb).2
  · show update h.held a none b = (update h.arena a none b).map Arena.pages
    by_cases hb : b = a
    · subst hb
      simp
    · rw [update_of_ne hb, update_of_ne hb, hc.held]
  · exact hc.apart (dropPages_arena.mp hb).2 (dropPages_arena.mp hb').2 hne

theorem Placed.isSlot_dropPages (hc : Placed h) (ha : h.arena a = some A) :
    IsSlot (h.dropPages a) r ↔ IsSlot h r ∧ ¬ A.HasSlot a r := by
  constructor
  · rintro ⟨b, B, hb, hr⟩
    obtain ⟨hne, hb⟩ := dropPages_arena.mp hb
    exact ⟨⟨b, B, hb, hr⟩, fun hr' => hne (hc.slot_unique hb ha hr hr')⟩
  · rintro ⟨⟨b, B, hb, hr⟩, hno⟩
    refine ⟨b, B, dropPages_arena.mpr ⟨fun hba => ?_, hb⟩, hr⟩
    subst hba
    rw [ha] at hb
    exact hno (some.inj hb ▸ hr)

theorem Placed.pallocFree_eq (hc : Placed h) (ha : h.arena a = some A) :
    h.pallocFree a A.pages = .ok (h.dropPages a) := by
  refine if_pos ?_
  rw [hc.held, ha, map_some]

end Headers

end Pintos.Threads.Malloc
