/-
  The kernel heap over whole runs (`threads/malloc.c`).

  1. **Loops** — `addBlocks_eq` and `removeBlocks_eq`: what the loops over the blocks of an arena do
     to the list; in the second, every block is still there when its turn comes.

  2. **Calls** — `malloc_spec`, `free_spec`, `realloc_spec`: each call returns, and keeps the
     invariant with its block live, or no longer live.

  3. **Runs** — `heap_invariant`: blocks apart, counts exact, each free block on one list once, pages
     held exactly while a block in them is live; and no assertion fails.
-/
import Pintos.Threads.HeapSteps

namespace Pintos.Threads.Malloc

open Base Userprog List State Option Heap

/-! ## Loops -/

variable {h : Heap} {d : DescId} {tr : List (State × Act)}

section Loops

variable {a n : Nat}

theorem setList_setList (h : Heap) (d : DescId) (l l' : List Nat) :
    (h.setList d l).setList d l' = h.setList d l' := by
  rw [setList, setList, setList, Function.update_idem]

theorem addBlocks_eq (k : Nat) : ∀ (m : Nat) (h : Heap) (i : Nat), Placed h →
    h.arena a = some ⟨some d, n⟩ → i + m = k → k ≤ d.blocksPerArena →
    h.addBlocks a d i m = .ok (h.setList d (h.freeList d ++ (range' i m).map (slot a d)))
  | 0, h, i, _, _, _, _ => by
    show Except.ok h = _
    rw [range'_zero, map_nil, append_nil, Heap.setList, Function.update_eq_self]
  | m + 1, h, i, hpl, ha, hk, hle => by
    have hblock := hpl.arenaToBlock_slot ha (show i < d.blocksPerArena by omega)
    have hrest := addBlocks_eq k m (h.setList d (h.freeList d ++ [slot a d i])) (i + 1)
      (hpl.setList _ _) ha (by omega) hle
    rw [setList_self, setList_setList] at hrest
    rw [Heap.addBlocks, hblock]
    refine hrest.trans ?_
    rw [range'_succ, map_cons, append_assoc, singleton_append]

theorem removeBlocks_eq (k : Nat) : ∀ (m : Nat) (h : Heap) (i : Nat), Placed h →
    h.arena a = some ⟨some d, n⟩ → i + m = k → k ≤ d.blocksPerArena → (h.freeList d).Nodup →
    (∀ j, i ≤ j → j < k → slot a d j ∈ h.freeList d) →
    ∃ l, h.removeBlocks a d i m = .ok (h.setList d l) ∧ l.Nodup ∧
      ∀ r, r ∈ l ↔ r ∈ h.freeList d ∧ ∀ j, i ≤ j → j < k → r ≠ slot a d j
  | 0, h, i, _, _, hk, _, hnodup, _ => by
    refine ⟨h.freeList d, ?_, hnodup, fun r => ⟨fun hr => ⟨hr, fun j _ _ => by omega⟩, fun hr => hr.1⟩⟩
    rw [Heap.setList, Function.update_eq_self]
    rfl
  | m + 1, h, i, hpl, ha, hk, hle, hnodup, hall => by
    have hblock := hpl.arenaToBlock_slot ha (show i < d.blocksPerArena by omega)
    have hmem := hall i (le_refl i) (by omega)
    have hremove : h.listRemove d (slot a d i) =
        .ok (h.setList d ((h.freeList d).erase (slot a d i))) := if_pos hmem
    obtain ⟨l, hl, hln, hlm⟩ := removeBlocks_eq k m
      (h.setList d ((h.freeList d).erase (slot a d i))) (i + 1) (hpl.setList _ _) ha (by omega) hle
      (by
        rw [setList_self]
        exact hnodup.erase _)
      (fun j hj hjk => by
        rw [setList_self, hnodup.mem_erase_iff]
        exact ⟨fun heq => by have := slot_inj heq; omega, hall j (by omega) hjk⟩)
    rw [setList_self] at hlm
    refine ⟨l, ?_, hln, fun r => ?_⟩
    · rw [Heap.removeBlocks, hblock]
      show h.listRemove d (slot a d i) >>= _ = _
      rw [hremove]
      refine Eq.trans hl ?_
      rw [setList_setList]
    · grind

end Loops

/-! ## Calls -/

/-- **The invariant of the heap.** -/
structure Inv (h : Heap) (live : List Block) : Prop extends Core h live where
  busy : Busy h

variable {r : Nat} {live : List Block}

section Calls

variable {size a : Nat} {page : Option Nat}

theorem findDesc_le (hd : Heap.findDesc size = some d) : size ≤ d.blockSize := by
  obtain ⟨hle, -⟩ := findFinIdx?_eq_some_iff.mp hd
  exact of_decide_eq_true hle

theorem bigPages_le (hs : size ≤ maxRequest) :
    size + sizeofArena ≤ pgSize * Heap.bigPages size := by
  simp only [bigPages, maxRequest, sizeofArena, pgSize, addrSpace] at hs ⊢
  omega

theorem take_spec (hc : Core h live) {rest : List Nat}
    (hl : h.freeList d = r :: rest) (hsize : size ≤ d.blockSize)
    (hbusy : ∀ {b d' m}, h.arena b = some ⟨some d', m⟩ → b ≠ pgRoundDown r →
      m < d'.blocksPerArena) :
    ∃ h', h.takeBlock d = .ok (some r, h') ∧ Inv h' (⟨r, size⟩ :: live) := by
  obtain ⟨a, n, hround, hpos, hle, htake, hcore⟩ := hc.take hl hsize
  refine ⟨_, htake, hcore, fun {b d' m} hb => ?_⟩
  rcases arena_update_iff.mp hb with ⟨-, hA⟩ | ⟨hne, hold⟩
  · obtain ⟨hd, hm⟩ := Arena.mk.inj (some.inj hA)
    cases hd
    omega
  · exact hbusy hold (hround ▸ hne)

theorem newArena_spec (hi : Inv h live) (hl : h.freeList d = [])
    (hsize : size ≤ d.blockSize) (hf : Fresh h a 1) :
    ∃ r h', ((h.newHeader a 1 ⟨some d, d.blocksPerArena⟩).addBlocks a d 0 d.blocksPerArena >>=
      fun h' => h'.takeBlock d) = .ok (some r, h') ∧ Inv h' (⟨r, size⟩ :: live) := by
  have hpl : Placed (h.newHeader a 1 ⟨some d, d.blocksPerArena⟩) :=
    hi.toPlaced.newHeader (A := ⟨some d, d.blocksPerArena⟩) hf
  have hself : (h.newHeader a 1 ⟨some d, d.blocksPerArena⟩).arena a =
      some ⟨some d, d.blocksPerArena⟩ := Function.update_self ..
  have hadd := addBlocks_eq d.blocksPerArena d.blocksPerArena _ 0 hpl hself (Nat.zero_add _)
    (le_refl _)
  have hcore := hi.toCore.newArena (d := d) hf
  have hslots : (range' 0 d.blocksPerArena).map (slot a d) = slots a d := by
    rw [slots, range_eq_range']
  -- the first block
  obtain ⟨k, hk⟩ := Nat.exists_eq_succ_of_ne_zero (ne_of_gt d.fits.2.1)
  have hcons : h.freeList d ++ slots a d = slot a d 0 :: (range' 1 k).map (slot a d) := by
    rw [hl, nil_append, ← hslots, hk, range'_succ, map_cons]
  obtain ⟨h', htake, hinv⟩ := take_spec hcore ((setList_self ..).trans hcons) hsize (by
    intro b d' m hb hne
    rcases arena_update_iff.mp hb with ⟨rfl, -⟩ | ⟨-, hold⟩
    · refine absurd (Eq.symm ?_) hne
      exact roundDown_slot (A := ⟨some d, d.blocksPerArena⟩) ⟨0, d.fits.2.1, rfl⟩ Nat.zero_lt_one hf.1
    · exact hi.busy hold)
  refine ⟨slot a d 0, h', ?_, hinv⟩
  rwa [hadd, hslots]

/-- **`malloc`** returns null and changes nothing, or returns a block that is live from then on. -/
theorem malloc_spec (hi : Inv h live) (hs : size ≤ maxRequest) (hp : PageOk h size page) :
    ∃ p h', h.malloc size page = .ok (p, h') ∧ Inv h' (State.returned live p size) := by
  unfold malloc
  by_cases hzero : size = 0
  · exact ⟨none, h, if_pos hzero, hi⟩
  rw [if_neg hzero]
  cases hd : findDesc size with
  | none =>
    cases page with
    | none => exact ⟨none, h, rfl, hi⟩
    | some a =>
      have hask : h.asks size = some (bigPages size) := by
        simp only [asks, if_neg hzero, hd]
      refine ⟨_, _, rfl, hi.toCore.newBig (hp a _ rfl hask) (bigPages_le hs), fun {b d' m} hb => ?_⟩
      rcases arena_update_iff.mp hb with ⟨-, hA⟩ | ⟨-, hold⟩
      · cases hA
      · exact hi.busy hold
  | some d =>
    have hle := findDesc_le hd
    cases hl : h.freeList d with
    | nil =>
      cases page with
      | none =>
        refine ⟨none, h, ?_, hi⟩
        simp only [hl]
      | some a =>
        have hask : h.asks size = some 1 := by
          simp only [asks, if_neg hzero, hd, if_pos hl]
        obtain ⟨r, h', heq, hinv⟩ := newArena_spec hi hl hle (hp a 1 rfl hask)
        refine ⟨some r, h', ?_, hinv⟩
        simp only [hl]
        exact heq
    | cons r =>
      obtain ⟨h', htake, hinv⟩ := take_spec hi.toCore hl hle fun hb _ => hi.busy hb
      refine ⟨some r, h', ?_, hinv⟩
      simp only [hl]
      exact htake

theorem freeNormal_spec (hi : Inv h live) {B0 : Block} (hB0 : B0 ∈ live) {n : Nat}
    (ha : h.arena a = some ⟨some d, n⟩) (hslot : (Arena.mk (some d) n).HasSlot a B0.addr) :
    ∃ h', h.freeNormal B0.addr a d ⟨some d, n⟩ = .ok h' ∧
      Inv h' (State.freed live (some B0.addr)) := by
  have hpush := hi.toCore.push hB0 ha hslot
  have hbusy := hi.busy ha
  have ha' : ((h.setList d (B0.addr :: h.freeList d)).setCnt a d (n + 1)).arena a =
      some ⟨some d, n + 1⟩ := Function.update_self ..
  unfold freeNormal
  by_cases hlast : n + 1 = d.blocksPerArena
  · -- all blocks of the arena are on the list now
    have hall : ∀ i < d.blocksPerArena, slot a d i ∈
        ((h.setList d (B0.addr :: h.freeList d)).setCnt a d (n + 1)).freeList d := by
      refine freeBlocks_eq_all.mp ?_
      rw [← hpush.count ha', hlast]
    obtain ⟨l, hl, hnodup, hmem⟩ := removeBlocks_eq d.blocksPerArena d.blocksPerArena _ 0
      hpush.toPlaced ha' (Nat.zero_add _) (le_refl _) (hpush.nodup d) fun j _ hj => hall j hj
    have hdrop := hpush.drop ha' hall hnodup fun r => by
      rw [hmem]
      refine and_congr_right fun _ => ⟨?_, ?_⟩
      · rintro hno ⟨i, hi, hr⟩
        exact hno i (Nat.zero_le i) hi hr
      · exact fun hno j _ hj hr => hno ⟨j, hj, hr⟩
    have hfree := (hpush.toPlaced.setList d l).pallocFree_eq ha'
    refine ⟨_, ?_, hdrop, fun {b d' m} hb => ?_⟩
    · rw [if_pos (le_of_eq hlast.symm), if_pos hlast]
      rw [setCnt] at hl
      rwa [hl]
    · obtain ⟨hne, hb⟩ := dropPages_arena.mp hb
      rcases arena_update_iff.mp hb with ⟨heq, -⟩ | ⟨-, hold⟩
      · exact absurd heq hne
      · exact hi.busy hold
  · refine ⟨_, ?_, hpush, fun {b d' m} hb => ?_⟩
    · show (if n + 1 ≥ d.blocksPerArena then _ else _) = _
      rw [if_neg (by omega)]
      rfl
    · rcases arena_update_iff.mp hb with ⟨-, hA⟩ | ⟨-, hold⟩
      · obtain ⟨hd, hm⟩ := Arena.mk.inj (some.inj hA)
        cases hd
        omega
      · exact hi.busy hold

/-- **`free`** of a live block, or of a null pointer. -/
theorem free_spec (hi : Inv h live) {p : Option Nat}
    (hp : ∀ a, p = some a → ∃ B ∈ live, B.addr = a) :
    ∃ h', h.free p = .ok h' ∧ Inv h' (State.freed live p) := by
  cases p with
  | none =>
    refine ⟨h, rfl, ?_⟩
    have : freed live none = live := filter_eq_self.mpr fun B _ => rfl
    rwa [this]
  | some p =>
    obtain ⟨B0, hB0, rfl⟩ := hp p rfl
    obtain ⟨a, ⟨desc, n⟩, ha, hslot, -⟩ := hi.fits B0 hB0
    have hto := hi.toPlaced.blockToArena_slot ha hslot
    cases desc with
    | some =>
      obtain ⟨h', hfree, hinv⟩ := freeNormal_spec hi hB0 ha hslot
      refine ⟨h', ?_, hinv⟩
      rwa [free, hto]
    | none =>
      refine ⟨h.dropPages a, ?_, hi.toCore.dropBig hB0 ha hslot, fun {b d' m} hb => ?_⟩
      · rw [free, hto]
        exact hi.toPlaced.pallocFree_eq ha
      · exact hi.busy (dropPages_arena.mp hb).2

theorem blockSize_live (hc : Core h live) {B : Block} (hB : B ∈ live) :
    ∃ a A, h.arena a = some A ∧ A.HasSlot a B.addr ∧ h.blockSize B.addr = .ok A.usable ∧
      B.size ≤ A.usable := by
  obtain ⟨a, A, ha, hslot, hfit⟩ := hc.fits B hB
  refine ⟨a, A, ha, hslot, ?_, hfit⟩
  rw [blockSize, hc.toPlaced.blockToArena_slot ha hslot]
  have halign := hc.aligned ha
  obtain ⟨desc, n⟩ := A
  cases desc with
  | some => rfl
  | none =>
    have hslot : B.addr = a + sizeofArena := hslot
    have hofs : pgOfs B.addr = sizeofArena := by
      simp only [pgOfs, pgSize, sizeofArena] at hslot halign ⊢
      omega
    show Except.ok (pgSize * n - pgOfs B.addr) = Except.ok (pgSize * n - sizeofArena)
    rw [hofs]

/-- **`realloc`**: the new block is live and the old one is not, or nothing has changed. -/
theorem realloc_spec (hi : Inv h live) (hs : size ≤ maxRequest) (hpage : PageOk h size page)
    {old : Option Nat} (hold : ∀ a, old = some a → ∃ B ∈ live, B.addr = a) :
    ∃ p h', h.realloc old size page = .ok (p, h') ∧
      Inv h' (if p.isSome ∨ size = 0 then State.returned (State.freed live old) p size else live) := by
  unfold realloc
  by_cases hzero : size = 0
  · obtain ⟨h', hfree, hinv⟩ := free_spec hi hold
    refine ⟨none, h', ?_, ?_⟩
    · rw [if_pos hzero, hfree]
      rfl
    · rwa [if_pos (.inr hzero)]
  rw [if_neg hzero]
  obtain ⟨p, h', hm, hinv⟩ := malloc_spec hi hs hpage
  rw [hm]
  cases p with
  | none =>
    refine ⟨none, h', ?_, ?_⟩
    · cases old <;> rfl
    · rwa [if_neg (by simp [hzero])]
  | some new =>
    cases old with
    | none =>
      refine ⟨some new, h', rfl, ?_⟩
      rw [if_pos (.inl isSome_some)]
      have : freed live none = live := filter_eq_self.mpr fun B _ => rfl
      rwa [this]
    | some old =>
      obtain ⟨B0, hB0, rfl⟩ := hold old rfl
      have hB0' : B0 ∈ returned live (some new) size := mem_cons_of_mem _ hB0
      obtain ⟨-, A, -, -, hbs, -⟩ := blockSize_live hinv.toCore hB0'
      obtain ⟨h'', hfree, hinv'⟩ := free_spec hinv (p := some B0.addr)
        fun a ha => ⟨B0, hB0', some.inj ha⟩
      refine ⟨some new, h'', ?_, ?_⟩
      · show (h'.blockSize B0.addr >>= fun _ => h'.free (some B0.addr) >>= _) = _
        rw [hbs]
        rw [hfree]
        rfl
      · -- the new block is not the old one
        have hne : new ≠ B0.addr := by
          intro heq
          have hnew : Claims h'.freeList (returned live (some new) size) (.live ⟨new, size⟩) new :=
            ⟨mem_cons_self, rfl⟩
          have holdc : Claims h'.freeList (returned live (some new) size) (.live B0) new :=
            ⟨hB0', heq⟩
          have hsame := Owner.live.inj (hinv.owned.unique hnew holdc)
          exact (nodup_cons.mp hinv.nodupLive).1 (hsame ▸ hB0)
        rw [if_pos (.inl isSome_some)]
        have hfreed : freed (returned live (some new) size) (some B0.addr) =
            returned (freed live (some B0.addr)) (some new) size := by
          refine filter_cons_of_pos ?_
          simpa using hne
        rwa [← hfreed]

end Calls

/-! ## Runs -/

/-- The bytes of a block, as `block_size` has them. -/
def bytes (h : Heap) (p : Nat) : Nat :=
  match h.blockSize p with
  | .ok n => n
  | .error _ => 0

/-- What holds of the heap and of the blocks in use. -/
structure HeapOk (s : State) : Prop where
  /-- The blocks have the size asked for. -/
  sized : ∀ B ∈ s.live, s.heap.blockSize B.addr = .ok (bytes s.heap B.addr) ∧
    B.size ≤ bytes s.heap B.addr
  disjoint : s.live.Pairwise fun B C =>
    Apart B.addr (bytes s.heap B.addr) C.addr (bytes s.heap C.addr)
  offHeaders : ∀ B ∈ s.live, ∀ a A, s.heap.arena a = some A →
    Apart B.addr (bytes s.heap B.addr) a sizeofArena
  inPages : ∀ B ∈ s.live, ∃ a n, s.heap.held a = some n ∧ a ≤ B.addr ∧
    B.addr + bytes s.heap B.addr ≤ a + pgSize * n
  counts : ∀ a d n, s.heap.arena a = some ⟨some d, n⟩ → n = freeBlocks (s.heap.freeList d) a d
  /-- A block that is not live is on the list of its descriptor once, and on no other. -/
  once : ∀ a d n i, s.heap.arena a = some ⟨some d, n⟩ → i < d.blocksPerArena →
    (∀ B ∈ s.live, B.addr ≠ slot a d i) →
    ∀ d', (s.heap.freeList d').count (slot a d i) = if d' = d then 1 else 0
  /-- What is on a list is such a block. -/
  listed : ∀ d r, r ∈ s.heap.freeList d → (∀ B ∈ s.live, B.addr ≠ r) ∧
    ∃ a n i, s.heap.held a = some 1 ∧ s.heap.arena a = some ⟨some d, n⟩ ∧ i < d.blocksPerArena ∧
      r = slot a d i
  /-- Pages are held exactly while a block in them is live. -/
  pages : ∀ a, s.heap.held a ≠ none ↔ ∃ B ∈ s.live, pgRoundDown B.addr = a

variable {s : State}

section Facts

variable {B C : Block} {a : Nat}

section

variable (hc : Core h live) {A : Arena}
include hc

theorem bytes_live (hB : B ∈ live) :
    ∃ a A, h.arena a = some A ∧ A.HasSlot a B.addr ∧ bytes h B.addr = A.usable := by
  obtain ⟨a, A, ha, hslot, hbs, -⟩ := blockSize_live hc hB
  exact ⟨a, A, ha, hslot, by rw [bytes, hbs]⟩

/-- Live blocks are apart: in one arena by their slots, in two by the pages. -/
theorem live_apart (hB : B ∈ live) (hC : C ∈ live) (hne : B ≠ C) :
    Apart B.addr (bytes h B.addr) C.addr (bytes h C.addr) := by
  have haddr : B.addr ≠ C.addr := by
    intro heq
    have h1 : Claims h.freeList live (.live B) B.addr := ⟨hB, rfl⟩
    have h2 : Claims h.freeList live (.live C) B.addr := ⟨hC, heq⟩
    exact hne (Owner.live.inj (hc.owned.unique h1 h2))
  obtain ⟨a, A, ha, hslot, hbytes⟩ := bytes_live hc hB
  obtain ⟨b, A', hb, hslot', hbytes'⟩ := bytes_live hc hC
  rw [hbytes, hbytes']
  by_cases hab : a = b
  · subst hab
    cases ha.symm.trans hb
    exact slots_apart hslot hslot' haddr
  · have h1 := slot_inside hslot (hc.pages ha)
    have h2 := slot_inside hslot' (hc.pages hb)
    have h3 := hc.apart ha hb hab
    simp only [Apart] at h3 ⊢
    omega

theorem live_offHeaders (hB : B ∈ live)
    (ha : h.arena a = some A) : Apart B.addr (bytes h B.addr) a sizeofArena := by
  obtain ⟨b, A', hb, hslot, hbytes⟩ := bytes_live hc hB
  rw [hbytes]
  have h1 := slot_inside hslot (hc.pages hb)
  by_cases hab : b = a
  · subst hab
    exact .inr h1.1
  · have h3 := hc.apart hb ha hab
    simp only [Apart, sizeofArena, pgSize] at h1 h3 ⊢
    omega

theorem not_live (hr : r ∈ h.freeList d) : ∀ B ∈ live, B.addr ≠ r := by
  intro B hB heq
  have h1 : Claims h.freeList live (.live B) r := ⟨hB, heq.symm⟩
  cases hc.owned.unique (o := .free d) hr h1

/-- A slot of an arena that is not on its list is live. -/
theorem live_of_not_listed (ha : h.arena a = some A)
    (hslot : A.HasSlot a r) (hno : ∀ d, A.desc = some d → r ∉ h.freeList d) :
    ∃ B ∈ live, B.addr = r := by
  obtain ⟨o, ho⟩ := hc.covered r ⟨a, A, ha, hslot⟩
  cases o with
  | free d =>
    obtain ⟨b, m, i, hb, hi, hr⟩ := hc.lists (r := r) ho
    obtain rfl := hc.toPlaced.slot_unique ha hb hslot ⟨i, hi, hr⟩
    cases ha.symm.trans hb
    exact absurd ho (hno d rfl)
  | live B => exact ⟨B, ho.1, ho.2.symm⟩

theorem listed_once {n i : Nat} (ha : h.arena a = some ⟨some d, n⟩) (hi : i < d.blocksPerArena)
    (hno : ∀ B ∈ live, B.addr ≠ slot a d i) (d' : DescId) :
    (h.freeList d').count (slot a d i) = if d' = d then 1 else 0 := by
  have hmem : slot a d i ∈ h.freeList d := by
    by_contra hout
    obtain ⟨B, hB, hBa⟩ := live_of_not_listed hc ha ⟨i, hi, rfl⟩ fun d' hd => by
      cases hd
      exact hout
    exact hno B hB hBa
  by_cases hd : d' = d
  · subst hd
    rw [if_pos rfl]
    exact count_eq_one_of_mem (hc.nodup d') hmem
  · rw [if_neg hd, count_eq_zero]
    intro hmem'
    have hown : Claims h.freeList live (.free d) (slot a d i) := hmem
    exact hd (Owner.free.inj (hc.owned.unique (o := .free d') hmem' hown))

end

theorem held_iff (hi : Inv h live) (a : Nat) :
    h.held a ≠ none ↔ ∃ B ∈ live, pgRoundDown B.addr = a := by
  constructor
  · intro hheld
    rw [hi.held] at hheld
    cases ha : h.arena a with
    | none =>
      rw [ha] at hheld
      exact absurd rfl hheld
    | some A =>
      have hround : ∀ {r}, A.HasSlot a r → pgRoundDown r = a :=
        fun hr => roundDown_slot hr (hi.pages ha) (hi.aligned ha)
      obtain ⟨desc, n⟩ := A
      cases desc with
      | none =>
        obtain ⟨B, hB, hBa⟩ := live_of_not_listed hi.toCore ha (r := a + sizeofArena) rfl
          fun d hd => by cases hd
        exact ⟨B, hB, hBa ▸ hround rfl⟩
      | some d =>
        -- not all blocks are on the list
        have hlt := hi.busy ha
        have hsome : ∃ i < d.blocksPerArena, slot a d i ∉ h.freeList d := by
          by_contra hall
          push Not at hall
          have hcount := hi.count ha
          rw [freeBlocks_eq_all.mpr hall] at hcount
          omega
        obtain ⟨i, hi', hout⟩ := hsome
        obtain ⟨B, hB, hBa⟩ := live_of_not_listed hi.toCore ha ⟨i, hi', rfl⟩ fun d' hd => by
          cases hd
          exact hout
        exact ⟨B, hB, hBa ▸ hround ⟨i, hi', rfl⟩⟩
  · rintro ⟨B, hB, rfl⟩
    obtain ⟨a, A, ha, hslot, -⟩ := hi.fits B hB
    rw [roundDown_slot hslot (hi.pages ha) (hi.aligned ha), hi.held, ha]
    simp

theorem heapOk (hi : Inv s.heap s.live) : HeapOk s where
  sized B hB := by
    obtain ⟨a, A, -, -, hbs, hfit⟩ := blockSize_live hi.toCore hB
    rw [bytes, hbs]
    exact ⟨rfl, hfit⟩
  disjoint := hi.nodupLive.imp_of_mem fun hB hC hne => live_apart hi.toCore hB hC hne
  offHeaders B hB a A ha := live_offHeaders hi.toCore hB ha
  inPages B hB := by
    obtain ⟨a, A, ha, hslot, hbytes⟩ := bytes_live hi.toCore hB
    have h1 := slot_inside hslot (hi.pages ha)
    refine ⟨a, A.pages, by rw [hi.held, ha, map_some], ?_, ?_⟩
    · exact le_trans (Nat.le_add_right _ _) h1.1
    · rw [hbytes]
      exact h1.2.1
  counts a d n ha := hi.count ha
  once a d n i ha hlt hno d' := listed_once hi.toCore ha hlt hno d'
  listed d r hr := by
    obtain ⟨a, n, i, ha, hlt, hslot⟩ := hi.lists hr
    refine ⟨not_live hi.toCore hr, a, n, i, ?_, ha, hlt, hslot⟩
    rw [hi.held, ha]
    rfl
  pages a := held_iff hi a

end Facts

/-- **The step lemma**: every call returns, and keeps the invariant. -/
theorem step_inv {a : Act} (hi : Inv s.heap s.live) (he : Enabled s a) :
    ∃ s', step s a = .ok s' ∧ Inv s'.heap s'.live := by
  cases a with
  | malloc size =>
    obtain ⟨p, h', hm, hinv⟩ := malloc_spec hi he.1 he.2
    refine ⟨⟨h', returned s.live p size⟩, ?_, hinv⟩
    rw [step, hm]
    rfl
  | calloc x y =>
    by_cases hover : x * y % addrSpace < x ∨ x * y % addrSpace < y
    · refine ⟨⟨s.heap, s.live⟩, ?_, hi⟩
      rw [step, calloc, if_pos hover]
      rfl
    · obtain ⟨p, h', hm, hinv⟩ := malloc_spec hi he.1 he.2
      refine ⟨⟨h', returned s.live p (x * y % addrSpace)⟩, ?_, hinv⟩
      rw [step, calloc, if_neg hover, hm]
      rfl
  | realloc old size =>
    obtain ⟨p, h', hm, hinv⟩ := realloc_spec hi he.1 he.2.1 he.2.2
    refine ⟨⟨h', if p.isSome ∨ size = 0 then returned (freed s.live old) p size
      else s.live⟩, ?_, hinv⟩
    rw [step, hm]
    show (if p.isSome ∨ size = 0 then _ else _) = _
    split <;> rfl
  | free p =>
    obtain ⟨h', hf, hinv⟩ := free_spec hi he
    refine ⟨⟨h', freed s.live p⟩, ?_, hinv⟩
    rw [step, hf]
    rfl

theorem inv_start : Inv State.start.heap State.start.live := by
  have hnone : ∀ {a A}, ¬ empty.arena a = some A := by
    intro a A h
    cases h
  refine ⟨⟨⟨?_, ?_, ?_, ?_, fun _ => rfl, ?_⟩, ?_, ?_, ?_, fun _ => nodup_nil, ?_,
    nodup_nil, ?_⟩, ?_⟩
  · exact fun h => absurd h hnone
  · exact fun h => absurd h hnone
  · exact fun h => absurd h hnone
  · exact fun h => absurd h hnone
  · exact fun h => absurd h hnone
  · refine ⟨fun {o r} ho => ?_, fun {o o' r} ho => ?_⟩
    · cases o with
      | free => exact absurd ho not_mem_nil
      | live => exact absurd ho.1 not_mem_nil
    · cases o with
      | free => exact absurd ho not_mem_nil
      | live => exact absurd ho.1 not_mem_nil
  · rintro r ⟨a, A, ha, -⟩
    exact absurd ha hnone
  · exact fun hr => absurd hr not_mem_nil
  · exact fun h => absurd h hnone
  · exact fun B hB => absurd hB not_mem_nil
  · exact fun h => absurd h hnone

theorem inv_run (h : machine.Run State.start tr s) : Inv s.heap s.live := by
  refine h.invariant (I := fun s => Inv s.heap s.live) inv_start ?_
  intro s a s' hi he hs
  obtain ⟨s1, hs1, hinv⟩ := step_inv hi he
  cases hs1.symm.trans hs
  exact hinv

/-- **The kernel heap** after every sequence of calls: the blocks are apart and the lists exact, and
    the next call returns without a failed assertion. -/
theorem heap_invariant (h : machine.Run State.start tr s) :
    HeapOk s ∧ ∀ a, Enabled s a → ∃ s', step s a = .ok s' := by
  refine ⟨heapOk (inv_run h), fun a he => ?_⟩
  obtain ⟨s', hs, -⟩ := step_inv (inv_run h) he
  exact ⟨s', hs⟩

/-- 20 bytes and 24 bytes, from one new arena. -/
theorem heap_invariant_two_blocks :
    ∃ tr s, machine.Run State.start tr s ∧ s.live = [⟨0xc010102c, 24⟩, ⟨0xc010100c, 20⟩] ∧
      HeapOk s ∧ ∀ a, Enabled s a → ∃ s', step s a = .ok s' := by
  have he₁ : Enabled start (.malloc 20 (some 0xc0101000)) := by
    refine ⟨by decide, fun a n ha hn => ?_⟩
    cases ha
    obtain rfl : 1 = n := some.inj hn
    exact ⟨by decide, by decide, by decide, by decide, fun b m hb => by cases hb⟩
  obtain ⟨s₁, hs₁, -⟩ := step_inv inv_start he₁
  have hr₁ : machine.Run start [(start, .malloc 20 (some 0xc0101000))] s₁ :=
    Machine.Run.snoc Machine.Run.nil he₁ hs₁
  have he₂ : Enabled s₁ (.malloc 24 none) := ⟨by decide, fun a n ha => by cases ha⟩
  obtain ⟨s₂, hs₂, -⟩ := step_inv (inv_run hr₁) he₂
  have hr₂ : machine.Run start
      ([(start, .malloc 20 (some 0xc0101000))] ++ [(s₁, .malloc 24 none)]) s₂ :=
    Machine.Run.snoc hr₁ he₂ hs₂
  have hlive : ((step start (.malloc 20 (some 0xc0101000))).bind fun s₁ =>
      step s₁ (.malloc 24 none)).toOption.map live = some [⟨0xc010102c, 24⟩, ⟨0xc010100c, 20⟩] := by
    decide +kernel
  rw [hs₁] at hlive
  have hlive : (step s₁ (.malloc 24 none)).toOption.map live = _ := hlive
  rw [hs₂] at hlive
  exact ⟨_, s₂, hr₂, some.inj hlive, heap_invariant hr₂⟩

end Pintos.Threads.Malloc
