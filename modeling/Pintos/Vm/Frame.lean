/-
  The frame table: `vm/frame.c`.  Its records are in the hash table `ft` and, from the oldest to the
  newest, in `lru_queue`.

  1. **The key** — `ft_hash` and `ft_less` read `matching_page->upage`, a user address.  Two processes
     have the same user addresses: the second record is not inserted.

  2. **The lookup** — `ft_get (addr)` sets the member `addr` of its probe, which nothing reads, and
     leaves `matching_page` uninitialised.  What is found is the record of whatever user address the
     stack happens to lead to (`stale`; `none` if reading it faults).

  3. **Eviction** — `ft_evict` calls `swap_write`, which does not return.

  So the table is a map from frame addresses to records as long as user addresses are not shared and
  the probe happens to be the right one, and ONLY so long (`frame_table_by_address`).
-/
import Pintos.Vm.Swap

namespace Pintos.Vm.Frames

open Base Lib Userprog List Hash

structure Record where
  /-- The address of the record itself. -/
  id : Nat
  addr : Nat
  /-- `matching_page->upage`. -/
  upage : Nat
  owner : Nat
  deriving DecidableEq

/-- The globals of `frame.c`, the free pages of the user pool, and the swap table. -/
structure Table where
  ft : Hash Record
  lruQueue : List Record
  freePages : List Nat
  swap : Swap
  /-- The address of the next record to be allocated. -/
  nextId : Nat

/-- What the allocators and the stack will say in one call. -/
structure Choice where
  /-- `palloc_get_page (PAL_USER)`. -/
  page : Option Nat
  /-- The second `palloc_get_page (PAL_USER)`, after an eviction. -/
  pageAgain : Option Nat
  /-- There is memory for a `struct frame`. -/
  frameMemory : Bool
  /-- There is memory for new buckets of a hash table. -/
  bucketMemory : Bool
  /-- The `upage` that the uninitialised `matching_page` of `ft_get` leads to. -/
  stale : Option Nat
  /-- The uninitialised pointer of `swap_write`. -/
  wild : Option Nat
  deriving DecidableEq

inductive Stop where
  | halt (h : Halt)
  /-- The assertion of `palloc_free_page`, that the page is in use, fails. -/
  | freeTwice (addr : Nat)
  deriving DecidableEq

/-- A call that does not return: why, what it leaves of the table, and the record whose page it has
    marked as being in swap. -/
structure Left where
  stop : Stop
  table : Table
  victim : Option Record

def ftFns : HashFns Record where
  hash := fun e => Hash.hashBytes (Hash.wordBytes e.upage)
  less := fun a b => a.upage < b.upage

def userPool (base n : Nat) : List Nat := (range n).map fun i => base + i * pgSize

theorem nodup_userPool (base n : Nat) : (userPool base n).Nodup := by
  refine Nodup.map (fun i j hij => ?_) nodup_range
  have h : base + i * 4096 = base + j * 4096 := hij
  omega

/-- The table after `ft_init`, when all pages of the user pool are free. -/
def Table.start (base n : Nat) : Table where
  ft := Hash.init
  lruQueue := []
  freePages := userPool base n
  swap := Swap.boot
  nextId := 0

/-- What `palloc_get_page (PAL_USER)` may return: a free page, and none only if there is none. -/
def Grants (free : List Nat) : Option Nat → Prop
  | some addr => addr ∈ free
  | none => free = []

instance (free : List Nat) (page : Option Nat) : Decidable (Grants free page) := by
  cases page <;> unfold Grants <;> infer_instance

/-- The probe of `ft_get`. -/
def probe (addr upage : Nat) : Record := { id := 0, addr := addr, upage := upage, owner := 0 }

/-- `ft_get`; the pointer returned is a record only if `hash_find` has found one. -/
def ftGet (t : Table) (addr : Nat) (stale : Option Nat) : Except Stop (Option Record) :=
  match stale with
  | none => .error (.halt .kernelFault)
  | some upage => .ok (t.ft.hashFind ftFns (probe addr upage))

/-- `palloc_free_page`, for a page of the user pool. -/
def pallocFreePage (t : Table) (addr : Nat) : Except Stop Table :=
  if addr ∈ t.freePages then .error (.freeTwice addr)
  else .ok { t with freePages := addr :: t.freePages }

def ftRemove (t : Table) (addr : Nat) (stale : Option Nat) (memory : Bool) : Except Stop Table := do
  let found ← ftGet t addr stale
  match found with
  -- the null pointer, less the offset of `ft_elem`, is followed
  | none => .error (.halt .kernelFault)
  | some r =>
    pallocFreePage { t with
      ft := (t.ft.hashDelete ftFns memory r).2
      lruQueue := t.lruQueue.erase r } addr

/-- `ft_evict`, as far as the table goes. -/
def ftEvict (cur : Nat) (c : Choice) (t : Table) : Except Left Table :=
  if t.swap.swapTableFull then .error { stop := .halt .panic, table := t, victim := none }
  else
    match t.lruQueue with
    -- `ASSERT (!list_empty (list))` in `list_front`
    | [] => .error { stop := .halt .panic, table := t, victim := none }
    | head :: rest =>
      match t.swap.swapWrite cur c.wild c.bucketMemory with
      | .error h =>
        .error { stop := .halt h, table := { t with lruQueue := rest }, victim := some head }
      | .ok (_, swap) =>
        let t := { t with lruQueue := rest, swap := swap }
        match ftRemove t head.addr c.stale c.bucketMemory with
        | .error stop => .error { stop := stop, table := t, victim := some head }
        | .ok t => .ok t

/-- The record that `ft_add` makes. -/
def newFrame (t : Table) (cur upage addr : Nat) : Record :=
  { id := t.nextId, addr := addr, upage := upage, owner := cur }

/-- `ft_add` from its `malloc` on. -/
def addFrame (t : Table) (cur upage addr : Nat) (c : Choice) : Except Left (Record × Table) :=
  let frame := newFrame t cur upage addr
  let t := { t with freePages := t.freePages.erase addr }
  if c.frameMemory then
    .ok (frame, { t with
      ft := (t.ft.hashInsert ftFns c.bucketMemory frame).2
      lruQueue := t.lruQueue ++ [frame]
      nextId := t.nextId + 1 })
  else .error { stop := .halt .panic, table := t, victim := none }

/-- `ft_add`, by the thread `cur`, for its page at `upage`. -/
def ftAdd (t : Table) (cur upage : Nat) (c : Choice) : Except Left (Record × Table) :=
  match c.page with
  | some addr => addFrame t cur upage addr c
  | none => do
    let t ← ftEvict cur c t
    -- a null pointer is stored as it is
    addFrame t cur upage (c.pageAgain.getD 0) c

/-! ## What they come to -/

theorem ftFns_keyed : Hash.Keyed ftFns Record.upage where
  equal := by
    intro a b
    simp only [ftFns, Bool.and_eq_true, Bool.not_eq_true', decide_eq_false_iff_not, Nat.not_lt]
    omega
  hash := by
    intro a b h
    show hashBytes (wordBytes a.upage) = hashBytes (wordBytes b.upage)
    rw [h]

/-- **Eviction** never comes to an end: there is nothing to evict, or `swap_write` stops after the
    oldest record has been taken off the queue. -/
theorem ftEvict_error (cur : Nat) (c : Choice) (t : Table) :
    ∃ left, ftEvict cur c t = .error left ∧
      ((left.table = t ∧ left.victim = none ∧ left.stop = .halt .panic) ∨
       ∃ head rest, t.swap.swapTableFull = false ∧ t.lruQueue = head :: rest ∧
         left.table = { t with lruQueue := rest } ∧ left.victim = some head ∧
         ∃ h, left.stop = .halt h ∧ t.swap.swapWrite cur c.wild c.bucketMemory = .error h) := by
  unfold ftEvict
  split
  · exact ⟨_, rfl, .inl ⟨rfl, rfl, rfl⟩⟩
  rename_i hfull
  split
  · exact ⟨_, rfl, .inl ⟨rfl, rfl, rfl⟩⟩
  rename_i head rest hq
  split
  · rename_i h hw
    exact ⟨_, rfl, .inr ⟨head, rest, by simpa using hfull, hq, rfl, rfl, h, rfl, hw⟩⟩
  · rename_i r swap hw
    exact (Swap.swapWrite_stops cur c.wild c.bucketMemory t.swap _ hw).elim

/-- The table after an `ft_add` that returns. -/
def added (t : Table) (cur upage addr : Nat) (c : Choice) : Table := { t with
    freePages := t.freePages.erase addr
    ft := (t.ft.hashInsert ftFns c.bucketMemory (newFrame t cur upage addr)).2
    lruQueue := t.lruQueue ++ [newFrame t cur upage addr]
    nextId := t.nextId + 1 }

variable {upage cur : Nat} {t : Table} {c : Choice} {tr : List (Use × Call)} {stale : Option Nat}
  {memory : Bool}

/-- `ft_add` returns exactly if there are a page and memory for the record. -/
theorem ftAdd_eq_ok {r : Record × Table} :
    ftAdd t cur upage c = .ok r ↔ c.frameMemory = true ∧ ∃ addr, c.page = some addr ∧
        r = (newFrame t cur upage addr, added t cur upage addr c) := by
  unfold ftAdd
  cases hp : c.page with
  | none =>
    obtain ⟨left, hl, -⟩ := ftEvict_error cur c t
    constructor
    · intro h
      obtain ⟨t', ht', -⟩ := bind_eq_ok.mp h
      rw [hl] at ht'
      cases ht'
    · rintro ⟨-, addr, ha, -⟩
      cases ha
  | some addr =>
    unfold addFrame
    cases hm : c.frameMemory with
    | false =>
      constructor
      · intro h
        cases h
      · rintro ⟨h, -⟩
        cases h
    | true =>
      constructor
      · intro h
        cases h
        exact ⟨rfl, addr, rfl, rfl⟩
      · rintro ⟨-, addr', ha, rfl⟩
        cases ha
        rfl

variable {left : Left}

/-- Without a page `ft_add` ends in `ft_evict`. -/
theorem ftAdd_evicts (h : c.page = none)
    (hl : ftEvict cur c t = .error left) : ftAdd t cur upage c = .error left := by
  unfold ftAdd
  rw [h]
  rw [hl]
  rfl

variable {addr : Nat}

/-- With a page it can only fail for want of memory. -/
theorem ftAdd_panics (h : c.page = some addr) (hl : ftAdd t cur upage c = .error left) :
    left.stop = .halt .panic := by
  unfold ftAdd at hl
  rw [h] at hl
  unfold addFrame at hl
  cases hm : c.frameMemory with
  | true =>
    simp only [hm, if_true] at hl
    cases hl
  | false =>
    simp only [hm] at hl
    cases hl
    rfl

/-- `ft_remove` returns exactly if its probe leads to a record and the page is in use. -/
theorem ftRemove_eq_ok {t' : Table} :
    ftRemove t addr stale memory = .ok t' ↔
      ∃ r, ftGet t addr stale = .ok (some r) ∧ addr ∉ t.freePages ∧ t' = { t with
          ft := (t.ft.hashDelete ftFns memory r).2
          lruQueue := t.lruQueue.erase r
          freePages := addr :: t.freePages } := by
  unfold ftRemove
  rw [bind_eq_ok]
  constructor
  · rintro ⟨found, hf, h⟩
    cases found with
    | none => cases h
    | some r =>
      refine ⟨r, hf, ?_⟩
      dsimp only [pallocFreePage] at h
      split at h
      · cases h
      · rename_i hfree
        cases h
        exact ⟨hfree, rfl⟩
  · rintro ⟨r, hf, hfree, rfl⟩
    refine ⟨some r, hf, ?_⟩
    dsimp only [pallocFreePage]
    rw [if_neg hfree]

/-- Nothing but a null pointer stops it, when the page is not free. -/
theorem ftRemove_error {stop : Stop} (ha : addr ∉ t.freePages)
    (h : ftRemove t addr stale memory = .error stop) : stop = .halt .kernelFault := by
  cases stale with
  | none =>
    cases h
    rfl
  | some upage =>
    rw [ftRemove, ftGet, ok_bind] at h
    split at h
    · cases h
      rfl
    · rw [pallocFreePage, if_neg ha] at h
      cases h

/-! ## The table as a map -/

inductive Call where
  | add (cur upage : Nat) (c : Choice)
  | get (addr : Nat) (stale : Option Nat)
  | remove (addr : Nat) (stale : Option Nat) (memory : Bool)

/-- The table, and the records of the frames that `ft_add` has returned and `ft_remove` has not been
    given. -/
structure Use where
  table : Table
  live : List Record

/-- The calls that can be made: `ft_get` and `ft_remove` with the addresses of live frames. -/
def Callable (s : Use) : Call → Prop
  | .add _ _ c => Grants s.table.freePages c.page
  | .get addr _ => ∃ fr ∈ s.live, fr.addr = addr
  | .remove addr _ _ => ∃ fr ∈ s.live, fr.addr = addr

def tableMachine : Machine Use Call Stop where
  enabled := Callable
  step s a :=
    match a with
    | .add cur upage c =>
      match ftAdd s.table cur upage c with
      | .ok (frame, t) => .ok { table := t, live := frame :: s.live }
      | .error left => .error left.stop
    | .get addr stale =>
      match ftGet s.table addr stale with
      | .ok _ => .ok s
      | .error stop => .error stop
    | .remove addr stale memory =>
      match ftRemove s.table addr stale memory with
      | .ok t => .ok { table := t, live := s.live.filter fun fr => fr.addr ≠ addr }
      | .error stop => .error stop

/-- The call does what a map from addresses to records does. -/
def ActsAsMap (s : Use) : Call → Prop
  -- it returns, and its record can be found
  | .add cur upage c => ∃ frame t, ftAdd s.table cur upage c = .ok (frame, t) ∧
      c.page = some frame.addr ∧ t.ft.hashFind ftFns frame = some frame
  -- it returns the record of the frame
  | .get addr stale => ∃ fr ∈ s.live, fr.addr = addr ∧ ftGet s.table addr stale = .ok (some fr)
  -- it removes the record of the frame, and no other
  | .remove addr stale memory => ∃ fr ∈ s.live, fr.addr = addr ∧ ∃ t,
      ftRemove s.table addr stale memory = .ok t ∧
      (∀ x, x ∈ t.ft.elems ↔ x ∈ s.table.ft.elems ∧ x ≠ fr) ∧
      ∀ x, x ∈ t.lruQueue ↔ x ∈ s.table.lruQueue ∧ x ≠ fr

/-- The condition on a call: `ft_add` has a page and memory for its record, and no record of the
    table has the user address of the new one; the probe of `ft_get` happens to lead to the user
    address of the frame that is looked for. -/
def Distinct (s : Use) : Call → Prop
  | .add _ upage c => c.page ≠ none ∧ c.frameMemory = true ∧ ∀ fr ∈ s.table.ft.elems, fr.upage ≠ upage
  | .get addr stale => ∃ fr ∈ s.live, fr.addr = addr ∧ stale = some fr.upage
  | .remove addr stale _ => ∃ fr ∈ s.live, fr.addr = addr ∧ stale = some fr.upage

/-- What holds as long as the calls meet the condition: table, queue and the live frames are the same
    records, and the frames are different pages that are not free. -/
structure Agree (s : Use) : Prop where
  wf : s.table.ft.WF ftFns Record.upage
  lru_iff : ∀ fr, fr ∈ s.table.lruQueue ↔ fr ∈ s.table.ft.elems
  lru_nodup : s.table.lruQueue.Nodup
  live_iff : ∀ fr, fr ∈ s.live ↔ fr ∈ s.table.ft.elems
  ids : ∀ fr ∈ s.table.ft.elems, fr.id < s.table.nextId
  addrs : ∀ a ∈ s.live, ∀ b ∈ s.live, a.addr = b.addr → a = b
  used : ∀ fr ∈ s.live, fr.addr ∉ s.table.freePages
  free : s.table.freePages.Nodup

theorem agree_start (base n : Nat) : Agree { table := Table.start base n, live := [] } where
  wf := Hash.init_wf
  lru_iff := by
    intro fr
    simp [Table.start]
  lru_nodup := nodup_nil
  live_iff := by
    intro fr
    simp [Table.start]
  ids := by
    intro fr hfr
    simp [Table.start] at hfr
  addrs := by
    intro a ha
    cases ha
  used := by
    intro fr hfr
    cases hfr
  free := nodup_userPool base n

section Steps

variable {s s' : Use}

section

variable (hI : Agree s) {fr : Record}
include hI

/-- The probe leads to a live frame exactly if it has the user address of that frame. -/
theorem ftGet_live (hfr : fr ∈ s.live) (addr : Nat)
    (stale : Option Nat) : ftGet s.table addr stale = .ok (some fr) ↔ stale = some fr.upage := by
  have hm := (hI.live_iff fr).mp hfr
  cases stale with
  | none =>
    constructor
    · nofun
    · nofun
  | some upage =>
    have hfind := hashFind_eq_some ftFns_keyed hI.wf (e := probe addr upage) (x := fr)
    constructor
    · intro h
      have h' : s.table.ft.hashFind ftFns (probe addr upage) = some fr := Except.ok.inj h
      rw [← show fr.upage = upage from (hfind.mp h').2]
    · intro h
      have hu : fr.upage = upage := (Option.some.inj h).symm
      exact congrArg Except.ok (hfind.mpr ⟨hm, hu⟩)

theorem removed_elems (hfr : fr ∈ s.live) (memory : Bool) :
    (s.table.ft.hashDelete ftFns memory fr).2.WF ftFns Record.upage ∧
      ∀ x, x ∈ (s.table.ft.hashDelete ftFns memory fr).2.elems ↔ x ∈ s.table.ft.elems ∧ x ≠ fr := by
  have hm := (hI.live_iff fr).mp hfr
  obtain ⟨-, hwf, -⟩ := hashDelete_elems ftFns_keyed hI.wf memory hm rfl
  exact ⟨hwf, fun x => mem_hashDelete ftFns_keyed hI.wf memory hm⟩

theorem added_elems (cur addr : Nat) (c : Choice)
    (hnew : ∀ fr ∈ s.table.ft.elems, fr.upage ≠ upage) :
    (added s.table cur upage addr c).ft.WF ftFns Record.upage ∧
      ∀ x, x ∈ (added s.table cur upage addr c).ft.elems ↔
        x = newFrame s.table cur upage addr ∨ x ∈ s.table.ft.elems := by
  obtain ⟨-, hwf, hp⟩ :=
    hashInsert_new ftFns_keyed hI.wf c.bucketMemory (e := newFrame s.table cur upage addr) hnew
  refine ⟨hwf, fun x => ?_⟩
  rw [← mem_cons]
  exact hp.mem_iff

theorem actsAsMap_iff (a : Call) : ActsAsMap s a ↔ Distinct s a := by
  cases a with
  | add cur upage c =>
    constructor
    · rintro ⟨frame, t, hadd, -, hfind⟩
      obtain ⟨hmem, addr, hp, hr⟩ := ftAdd_eq_ok.mp hadd
      obtain ⟨rfl, rfl⟩ := Prod.mk.inj hr
      refine ⟨by simp [hp], hmem, fun fr hfr hu => ?_⟩
      -- the record of `fr` is found in place of the new one, which is younger
      obtain ⟨-, hwf, hperm⟩ := hashInsert_old ftFns_keyed hI.wf c.bucketMemory
        (e := newFrame s.table cur upage addr) hfr hu
      have hm := ((hashFind_eq_some ftFns_keyed hwf).mp hfind).1
      have hid : s.table.nextId < s.table.nextId := hI.ids _ (hperm.mem_iff.mp hm)
      exact Nat.lt_irrefl _ hid
    · rintro ⟨hp, hmem, hnew⟩
      cases hpage : c.page with
      | none => exact absurd hpage hp
      | some addr =>
        refine ⟨newFrame s.table cur upage addr, added s.table cur upage addr c, ?_, hpage, ?_⟩
        · exact ftAdd_eq_ok.mpr ⟨hmem, addr, hpage, rfl⟩
        · obtain ⟨hwf, hel⟩ := added_elems hI cur addr c hnew
          exact (hashFind_eq_some ftFns_keyed hwf).mpr ⟨(hel _).mpr (.inl rfl), rfl⟩
  | get addr stale =>
    constructor
    · rintro ⟨fr, hfr, ha, hget⟩
      exact ⟨fr, hfr, ha, (ftGet_live hI hfr addr stale).mp hget⟩
    · rintro ⟨fr, hfr, ha, hst⟩
      exact ⟨fr, hfr, ha, (ftGet_live hI hfr addr stale).mpr hst⟩
  | remove addr stale memory =>
    constructor
    · rintro ⟨fr, hfr, ha, t, hrem, hel, -⟩
      refine ⟨fr, hfr, ha, ?_⟩
      obtain ⟨r, hget, -, rfl⟩ := ftRemove_eq_ok.mp hrem
      -- the record removed is the one the probe led to
      have hr : r ∈ s.live := by
        cases stale with
        | none => cases hget
        | some =>
          have hfind := Except.ok.inj hget
          exact (hI.live_iff r).mpr ((hashFind_eq_some ftFns_keyed hI.wf).mp hfind).1
      have hrf : r = fr := by
        have hgone := (removed_elems hI hr memory).2 r
        have hel' := hel r
        by_contra hne
        exact (hgone.mp (hel'.mpr ⟨(hI.live_iff r).mp hr, hne⟩)).2 rfl
      exact (ftGet_live hI hfr addr stale).mp (hrf ▸ hget)
    · rintro ⟨fr, hfr, ha, hst⟩
      have hget := (ftGet_live hI hfr addr stale).mpr hst
      refine ⟨fr, hfr, ha, _, ftRemove_eq_ok.mpr ⟨fr, hget, ha ▸ hI.used fr hfr, rfl⟩, ?_, ?_⟩
      · exact (removed_elems hI hfr memory).2
      · intro x
        rw [hI.lru_nodup.mem_erase_iff]
        exact And.comm

theorem agree_added
    (hfree : addr ∈ s.table.freePages) (hnew : ∀ fr ∈ s.table.ft.elems, fr.upage ≠ upage) :
    Agree { table := added s.table cur upage addr c,
            live := newFrame s.table cur upage addr :: s.live } := by
  obtain ⟨hwf, hel⟩ := added_elems hI cur addr c hnew
  have hout : newFrame s.table cur upage addr ∉ s.table.ft.elems := by
    intro hm
    have hid : s.table.nextId < s.table.nextId := hI.ids _ hm
    exact Nat.lt_irrefl _ hid
  have hother : ∀ fr ∈ s.live, fr.addr ≠ addr := by
    intro fr hfr ha
    exact hI.used fr hfr (ha.symm ▸ hfree)
  refine ⟨hwf, fun fr => ?_, ?_, fun fr => ?_, fun fr hfr => ?_, ?_, fun fr hfr => ?_,
    hI.free.erase addr⟩
  · rw [hel, ← hI.lru_iff]
    show fr ∈ s.table.lruQueue ++ [_] ↔ _
    rw [mem_append, mem_singleton, or_comm]
  · refine Nodup.append hI.lru_nodup (nodup_singleton _) ?_
    intro fr hfr hsing
    rw [mem_singleton.mp hsing] at hfr
    exact hout ((hI.lru_iff _).mp hfr)
  · rw [hel, ← hI.live_iff, mem_cons]
  · rcases (hel fr).mp hfr with rfl | hold
    · exact Nat.lt_succ_self _
    · exact Nat.lt_succ_of_lt (hI.ids fr hold)
  · intro a ha b hb hab
    rcases mem_cons.mp ha with rfl | ha
    · rcases mem_cons.mp hb with rfl | hb
      · rfl
      · exact absurd hab.symm (hother b hb)
    · rcases mem_cons.mp hb with rfl | hb
      · exact absurd hab (hother a ha)
      · exact hI.addrs a ha b hb hab
  · show fr.addr ∉ s.table.freePages.erase addr
    rw [hI.free.mem_erase_iff]
    rcases mem_cons.mp hfr with rfl | hold
    · exact fun h => h.1 rfl
    · exact fun h => hI.used fr hold h.2

theorem agree_removed (hfr : fr ∈ s.live) (memory : Bool) :
    Agree { table := { s.table with
              ft := (s.table.ft.hashDelete ftFns memory fr).2
              lruQueue := s.table.lruQueue.erase fr
              freePages := fr.addr :: s.table.freePages },
            live := s.live.filter fun x => x.addr ≠ fr.addr } := by
  obtain ⟨hwf, hel⟩ := removed_elems hI hfr memory
  have hlive : ∀ x, x ∈ s.live.filter (fun x => x.addr ≠ fr.addr) ↔ x ∈ s.live ∧ x ≠ fr := by
    intro x
    rw [mem_filter]
    constructor
    · rintro ⟨hx, hne⟩
      refine ⟨hx, fun h => ?_⟩
      rw [h] at hne
      simp at hne
    · rintro ⟨hx, hne⟩
      refine ⟨hx, decide_eq_true fun ha => ?_⟩
      exact hne (hI.addrs x hx fr hfr ha)
  refine ⟨hwf, fun x => ?_, hI.lru_nodup.erase fr, fun x => ?_, fun x hx => ?_,
    fun a ha b hb => ?_, fun x hx => ?_, ?_⟩
  · rw [hel, ← hI.lru_iff]
    rw [hI.lru_nodup.mem_erase_iff]
    exact And.comm
  · rw [hel, ← hI.live_iff]
    exact hlive x
  · exact hI.ids x ((hel x).mp hx).1
  · exact hI.addrs a ((hlive a).mp ha).1 b ((hlive b).mp hb).1
  · obtain ⟨hxl, hne⟩ := (hlive x).mp hx
    intro h
    rcases mem_cons.mp h with h | h
    · exact hne (hI.addrs x hxl fr hfr h)
    · exact hI.used x hxl h
  · exact nodup_cons.mpr ⟨hI.used fr hfr, hI.free⟩

/-- **The step lemma.** -/
theorem agree_step {a : Call} (he : (tableMachine.guard Distinct).enabled s a)
    (hs : tableMachine.step s a = .ok s') : Agree s' := by
  obtain ⟨hen, hd⟩ := he
  cases a with
  | add cur upage c =>
    obtain ⟨hp, hmem, hnew⟩ := hd
    cases hpage : c.page with
    | none => exact absurd hpage hp
    | some addr =>
      have hadd : ftAdd s.table cur upage c = .ok (newFrame s.table cur upage addr, _) :=
        ftAdd_eq_ok.mpr ⟨hmem, addr, hpage, rfl⟩
      simp only [tableMachine, Callable, hpage, Grants] at hen
      simp only [tableMachine, hadd, Except.ok.injEq] at hs
      rw [← hs]
      exact agree_added hI hen hnew
  | get addr stale =>
    obtain ⟨fr, hfr, ha, hst⟩ := hd
    have hget := (ftGet_live hI hfr addr stale).mpr hst
    simp only [tableMachine, hget, Except.ok.injEq] at hs
    rwa [← hs]
  | remove addr stale memory =>
    obtain ⟨fr, hfr, rfl, hst⟩ := hd
    have hget := (ftGet_live hI hfr fr.addr stale).mpr hst
    have hrem : ftRemove s.table fr.addr stale memory = .ok _ :=
      ftRemove_eq_ok.mpr ⟨fr, hget, hI.used fr hfr, rfl⟩
    simp only [tableMachine, hrem, Except.ok.injEq] at hs
    rw [← hs]
    exact agree_removed hI hfr memory

end

end Steps

/-- **The run lemma.** -/
theorem agree_run {base n : Nat} {s : Use}
    (h : (tableMachine.guard Distinct).Run { table := Table.start base n, live := [] } tr s) :
    Agree s := by
  refine h.invariant (I := Agree) (agree_start base n) ?_
  intro s a s' hI he hs
  exact agree_step hI he hs

/-- **The frame table is a map keyed by frame addresses** in every run whose calls find the user
    address of the new record untaken, and the probe leading to the record that is looked for; and
    the first call that does not meet this condition does not act as on a map. -/
theorem frame_table_by_address (base n : Nat) {s : Use}
    (h : (tableMachine.guard Distinct).Run { table := Table.start base n, live := [] } tr s) :
    (∀ p ∈ tr, ActsAsMap p.1 p.2) ∧ ∀ a, ActsAsMap s a ↔ Distinct s a := by
  refine ⟨?_, actsAsMap_iff (agree_run h)⟩
  refine h.history (J := fun tr _ => ∀ p ∈ tr, ActsAsMap p.1 p.2)
    (fun p hp => absurd hp not_mem_nil) ?_
  intro tr s a s' hr htr he hs p hp
  rcases mem_append.mp hp with hp | hp
  · exact htr p hp
  · rw [mem_singleton.mp hp]
    exact (actsAsMap_iff (agree_run hr) a).mpr he.2

/-- Two frames of the pool, for pages at different addresses; the first is removed, its probe
    leading to its page. -/
def twoFrames : List Call := [.add 1 0x8048000 ⟨some 0xc0400000, none, true, true, none, none⟩,
   .add 2 0x8049000 ⟨some 0xc0401000, none, true, true, none, none⟩,
   .remove 0xc0400000 (some 0x8048000) true]

instance (s : Use) (a : Call) : Decidable (Callable s a) := by
  cases a <;> unfold Callable <;> infer_instance

instance (s : Use) (a : Call) : Decidable (Distinct s a) := by
  cases a <;> unfold Distinct <;> infer_instance

instance (s : Use) (a : Call) : Decidable (tableMachine.enabled s a) :=
  inferInstanceAs (Decidable (Callable s a))

theorem frame_table_two_frames :
    ∃ tr s, (tableMachine.guard Distinct).Run
        { table := Table.start 0xc0400000 2, live := [] } tr s ∧
      tr.length = 3 ∧ (∀ p ∈ tr, ActsAsMap p.1 p.2) ∧ ∀ a, ActsAsMap s a ↔ Distinct s a := by
  obtain ⟨tr, s, hr, hp⟩ := (tableMachine.guard Distinct).exists_reached
    { table := Table.start 0xc0400000 2, live := [] } twoFrames (fun tr _ => tr.length = 3)
    (by decide +kernel)
  exact ⟨tr, s, hr, hp, frame_table_by_address 0xc0400000 2 hr⟩

/-- One frame for the page of process 1 at 0x8048000.  A frame for the page of process 2 at the same
    address is not findable; and a probe that leads to another address does not find the frame. -/
theorem shared_user_address :
    ∃ tr s, tableMachine.Run { table := Table.start 0xc0400000 2, live := [] } tr s ∧
      ¬ ActsAsMap s (.add 2 0x8048000 ⟨some 0xc0401000, none, true, true, none, none⟩) ∧
      ¬ ActsAsMap s (.get 0xc0400000 (some 0x8049000)) := by
  obtain ⟨tr, s, hr, h1, h2⟩ := (tableMachine.guard Distinct).exists_reached
    { table := Table.start 0xc0400000 2, live := [] } (twoFrames.take 1)
    (fun _ s => ¬ Distinct s (.add 2 0x8048000 ⟨some 0xc0401000, none, true, true, none, none⟩) ∧
      ¬ Distinct s (.get 0xc0400000 (some 0x8049000))) (by decide +kernel)
  have hI := agree_run hr
  exact ⟨tr, s, hr.of_guard, fun h => h1 ((actsAsMap_iff hI _).mp h),
    fun h => h2 ((actsAsMap_iff hI _).mp h)⟩

end Pintos.Vm.Frames
