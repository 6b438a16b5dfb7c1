/-
  Memory-mapped files: `mmap` and `munmap` (userprog/syscall.c).

  1. **`mmap_lock`** is a global variable that no statement initialises.  Its list of waiters begins
     with a null pointer, which `sema_down` follows, so `lock_acquire` does not come back
     (`lockAcquire_mmapLock`).  Hence `mmap` returns no identifier (`mmap_never_maps`), and `munmap`
     does not return at all (`munmap_never_unmaps`).

  2. **The loop of `mmap`** — its bound is INCLUSIVE, so it enters one page too many, and
     `file_offset` is never advanced, so every page is a copy of the first (`mmap_enters`).

  3. **Errors** — the pages before one that is taken stay entered.  A descriptor that is not open is
     followed before it is tested.  `mmap_clean_iff` says which calls fail as they should.
-/
import Pintos.Vm.Segments

namespace Pintos.Vm.Mmap

open Base Lib Filesys Userprog Vm.Elf List Hash LoadMemory

/-! ## The source -/

abbrev Spt := { t : Hash PageRecord // TableOk t }

/-- `struct map_info`; `file` is the address of the `struct file`. -/
structure MapInfo where
  mapId : Int
  fileLength : Int
  addr : Nat
  file : Nat
  deriving DecidableEq

/-- The members of `struct thread` that are used. -/
structure Process where
  listOfFds : List (Int × Executable)
  spt : Spt
  mmappedFiles : List MapInfo
  mapLatestId : Int

def Process.lookupFdStruct (p : Process) (fd : Int) : Option Executable :=
  (p.listOfFds.find? fun d => d.1 = fd).map Prod.snd

inductive Outcome where
  | returned (result : Int) (p : Process)
  /-- A page fault in the kernel, which is taken again and again. -/
  | hang (p : Process)
  /-- A failed assertion. -/
  | panic
  /-- A pointer that was never assigned is followed. -/
  | wild

def mmapError : Int := -1

/-- `struct lock`: `value` and `waiters.head.next` of its semaphore; null is nothing. -/
structure Lock where
  value : Nat
  first : Option Nat
  deriving DecidableEq

/-- What `lock_acquire` does to a thread that does not hold the lock. -/
inductive Acquire where
  | acquired
  | waits
  | fault
  deriving DecidableEq

/-- `lock_acquire`: if the semaphore is down, the thread is inserted into the list of waiters, whose
    first element is looked at. -/
def lockAcquire (l : Lock) : Acquire :=
  if 0 < l.value then .acquired else if l.first.isSome then .waits else .fault

/-- `mmap_lock`, which `lock_init` is never called on. -/
def mmapLock : Lock := { value := 0, first := none }

def sptGet (t : Spt) (addr : Nat) : Option PageRecord := t.1.hashFind sptFns
    { file := none, fileOffset := 0, upage := pgRoundDown addr, pageReadBytes := 0,
      pageZeroBytes := 0, writable := false, pLoc := .mmf }

theorem sptLoadPage_ok (x : Executable) (m : LoadMemory) (t : Spt) (ofs : Int) (writable : Bool)
    (upage pageReadBytes pageZeroBytes : Nat) :
    TableOk (sptLoadPage x m t.1 ofs writable upage pageReadBytes pageZeroBytes).2 := by
  unfold sptLoadPage
  split
  · exact (hashInsert_wf sptFns_keyed t.2 _ _).1
  · exact t.2

def loadPage (x : Executable) (m : LoadMemory) (t : Spt) (ofs : Int) (writable : Bool)
    (upage pageReadBytes pageZeroBytes : Nat) : Bool × Spt :=
  ((sptLoadPage x m t.1 ofs writable upage pageReadBytes pageZeroBytes).1,
    ⟨_, sptLoadPage_ok x m t ofs writable upage pageReadBytes pageZeroBytes⟩)

def filePgSize (fileLen : Int) : Nat :=
  fileLen.toNat / pgSize + if fileLen.toNat % pgSize ≠ 0 then 1 else 0

/-- `page_read_bytes` in `mmap`, at a `file_offset`. -/
def pageReadBytes (x : Executable) (upperBoundAddr upage : Nat) (fileOffset : Int) : Nat :=
  if upperBoundAddr < u32 (upage + pgSize) then
    u32 (wrap32 (x.inode.length - fileOffset) % 4294967296).toNat
  else pgSize

/-- The loop of `mmap`: whether it came to its end, and the table; nothing if it is still going after
    `n` tests of its condition. -/
def mapLoop (x : Executable) (m : LoadMemory) (upperBoundAddr : Nat) :
    Nat → Nat → Spt → Option (Bool × Spt)
  | 0, _, _ => none
  | n + 1, upage, t =>
    if upage ≤ upperBoundAddr then
      match sptGet t upage with
      | some _ => some (false, t)
      | none =>
        -- `file_offset` is set to zero before the loop, and not advanced in it
        let bytes := pageReadBytes x upperBoundAddr upage 0
        let r := loadPage x m t 0 true upage bytes (sub32 pgSize bytes)
        if r.1 then mapLoop x m upperBoundAddr n (u32 (upage + pgSize)) r.2 else some (false, r.2)
    else some (true, t)

/-- The pages of the address space, and one more: no loop over pages that are not in the table is
    longer. -/
def maxTurns : Nat := 1048577

/-- `(((int) addr) - (int) PHYS_BASE) % PGSIZE != 0`. -/
def misaligned (addr : Nat) : Bool := (wrap32 (signed32 addr - signed32 physBase)).tmod pgSize ≠ 0

/-- The end of `mmap`: `map` is declared and never assigned. -/
def bookkeeping (l : Lock) (p : Process) : Outcome :=
  match lockAcquire l with
  | .acquired => .wild
  | .waits | .fault => .hang p

/-- `mmap (fd, addr)`; `reopened` says that `file_reopen` has memory. -/
def mmap (l : Lock) (m : LoadMemory) (reopened : Bool) (p : Process) (fd : Int) (addr : Nat) :
    Outcome :=
  if addr = 0 ∨ fd = 0 ∨ fd = 1 ∨ misaligned addr = true then .returned mmapError p
  else
    match p.lookupFdStruct fd with
    -- `file_descriptor->file`, of a null pointer
    | none => .hang p
    | some x =>
      -- `file_length (NULL)`
      if reopened = false then .panic
      else if x.inode.length = 0 then .returned mmapError p
      else
        let upperBoundAddr := u32 (addr + filePgSize x.inode.length * pgSize)
        match mapLoop x m upperBoundAddr maxTurns addr p.spt with
        | none => .hang p
        | some (false, t) => .returned mmapError { p with spt := t }
        | some (true, t) => bookkeeping l { p with spt := t }

theorem hashDelete_ok (t : Spt) (memory : Bool) (r : PageRecord) :
    TableOk (t.1.hashDelete sptFns memory r).2 := by
  by_cases h : ∃ y ∈ t.1.elems, y.upage = r.upage
  · obtain ⟨y, hy, hk⟩ := h
    exact (hashDelete_elems sptFns_keyed t.2 memory hy hk).2.1
  · have hnone : t.1.hashFind sptFns r = none :=
      (hashFind_eq_none sptFns_keyed t.2).mpr fun y hy hk => h ⟨y, hy, hk⟩
    rw [hashDelete, hnone]
    exact t.2

/-- The loop of `munmap`, with `n` pages left: `spt_page_removed` follows a null pointer for a page
    that is not there, calls `swap_read` for one in swap, and follows the `addr` of one in memory,
    which is never assigned. -/
def unmapLoop (memory : Bool) (p : Process) : Nat → Nat → Spt → Outcome ⊕ Spt
  | 0, _, t => .inr t
  | n + 1, addr, t =>
    match sptGet t addr with
    | none => .inl (.hang { p with spt := t })
    | some pg =>
      match pg.pLoc with
      | .mmf =>
        unmapLoop memory p n (u32 (addr + pgSize))
          ⟨(t.1.hashDelete sptFns memory pg).2, hashDelete_ok t memory pg⟩
      | .swap => .inl (.hang { p with spt := t })
      | .mem => .inl .wild

/-- `munmap (mapping)`.  The list of mappings is copied, so the end of the copy is never met and the
    walk goes on past the last element.  `map->file` is taken for a descriptor, and
    `addr + file_pg_size` for the end of the range. -/
def munmap (l : Lock) (memory : Bool) (p : Process) (mapping : Int) : Outcome :=
  match lockAcquire l with
  | .waits | .fault => .hang p
  | .acquired =>
    match p.mmappedFiles.find? fun map => map.mapId = mapping with
    | none => .wild
    | some map =>
      match p.lookupFdStruct (signed32 map.file) with
      | none => .returned mmapError p
      | some _ =>
        if map.fileLength = 0 then .returned mmapError p
        else
          match unmapLoop memory p (filePgSize map.fileLength / pgSize + 1) map.addr p.spt with
          | .inl o => o
          | .inr t => .returned 0 { p with spt := t, mmappedFiles := p.mmappedFiles.erase map }

/-! ## The lock -/

/-- **`mmap_lock` cannot be acquired.** -/
theorem lockAcquire_mmapLock : lockAcquire mmapLock = .fault := rfl

/-- What `mmap` returns is an error, and the mappings are those from before. -/
theorem mmap_returned {m : LoadMemory} {reopened : Bool} {p p' : Process} {fd result : Int}
    {addr : Nat} (h : mmap mmapLock m reopened p fd addr = .returned result p') :
    result = mmapError ∧ p'.mmappedFiles = p.mmappedFiles ∧ p'.mapLatestId = p.mapLatestId := by
  unfold mmap at h
  split at h
  · cases h
    exact ⟨rfl, rfl, rfl⟩
  split at h
  · cases h
  split at h
  · cases h
  split at h
  · cases h
    exact ⟨rfl, rfl, rfl⟩
  dsimp only at h
  split at h
  · cases h
  · cases h
    exact ⟨rfl, rfl, rfl⟩
  · cases h

/-! ## One page -/

variable {x : Executable} {m : LoadMemory}

section

variable {t t' : Spt} {upper upage u n fuel : Nat}

/-- The page that a turn of the loop enters. -/
def entered (x : Executable) (upper upage : Nat) : PageRecord where
  file := some x.inode
  fileOffset := 0
  upage := upage
  pageReadBytes := pageReadBytes x upper upage 0
  pageZeroBytes := sub32 pgSize (pageReadBytes x upper upage 0)
  writable := true
  pLoc := .mmf

/-- A page that the loop does not enter: it is there already, or there is no memory for it. -/
def Refused (m : LoadMemory) (t : Spt) (u : Nat) : Prop := sptGet t u ≠ none ∨ m.record u = false

theorem sptGet_eq_none (hu : u % pgSize = 0) :
    sptGet t u = none ↔ ∀ r ∈ t.1.elems, r.upage ≠ u := by
  have hround : pgRoundDown u = u := by
    rw [pgRoundDown, pgOfs, hu, Nat.sub_zero]
  rw [sptGet, hashFind_eq_none sptFns_keyed t.2, hround]

theorem sptGet_of_perm {r : PageRecord} (hu : u % pgSize = 0) (hne : r.upage ≠ u)
    (h : t'.1.elems.Perm (r :: t.1.elems)) : sptGet t' u = none ↔ sptGet t u = none := by
  rw [sptGet_eq_none hu, sptGet_eq_none hu]
  constructor
  · intro hall y hy
    exact hall y (h.mem_iff.mpr (mem_cons_of_mem r hy))
  · intro hall y hy
    rcases mem_cons.mp (h.mem_iff.mp hy) with rfl | hold
    · exact hne
    · exact hall y hold

theorem mapLoop_refused (hle : upage ≤ upper) (h : Refused m t upage) :
    mapLoop x m upper (n + 1) upage t = some (false, t) := by
  rw [mapLoop, if_pos hle]
  cases hget : sptGet t upage with
  | some => rfl
  | none =>
    have hmem : m.record upage = false := by
      rcases h with hpresent | hmem
      · exact absurd hget hpresent
      · exact hmem
    have hload (ofs : Int) (writable : Bool) (r z : Nat) :
        loadPage x m t ofs writable upage r z = (false, t) := by
      have hsame : sptLoadPage x m t.1 ofs writable upage r z = (false, t.1) := by
        rw [sptLoadPage, if_neg (by rw [hmem]; decide)]
      have hfst : (loadPage x m t ofs writable upage r z).1 = false := congrArg Prod.fst hsame
      have hsnd : (loadPage x m t ofs writable upage r z).2.1 = t.1 := congrArg Prod.snd hsame
      exact Prod.ext hfst (Subtype.ext hsnd)
    simp only [hload]
    rfl

theorem mapLoop_entered (hle : upage ≤ upper) (hal : upage % pgSize = 0) (h : ¬ Refused m t upage) :
    ∃ t' : Spt, t'.1.elems.Perm (entered x upper upage :: t.1.elems) ∧
      ∀ n, mapLoop x m upper (n + 1) upage t = mapLoop x m upper n (u32 (upage + pgSize)) t' := by
  rw [Refused, not_or, not_not, Bool.not_eq_false] at h
  obtain ⟨hget, hmem⟩ := h
  obtain ⟨hnone, -, hperm⟩ := hashInsert_new sptFns_keyed t.2 (m.rehash upage)
    (e := entered x upper upage) ((sptGet_eq_none hal).mp hget)
  obtain ⟨bytes, hbytes⟩ : ∃ bytes, pageReadBytes x upper upage 0 = bytes := ⟨_, rfl⟩
  have hentered : entered x upper upage =
      { file := some x.inode, fileOffset := 0, upage := upage, pageReadBytes := bytes
        pageZeroBytes := sub32 pgSize bytes, writable := true, pLoc := .mmf } := by
    rw [entered, hbytes]
  have hload : sptLoadPage x m t.1 0 true upage bytes (sub32 pgSize bytes)
      = (true, (t.1.hashInsert sptFns (m.rehash upage) (entered x upper upage)).2) := by
    rw [sptLoadPage, if_pos hmem, ← hentered]
    simp only [hnone, Option.isNone_none]
  refine ⟨(loadPage x m t 0 true upage bytes (sub32 pgSize bytes)).2, ?_, ?_⟩
  · have hsnd : (loadPage x m t 0 true upage bytes (sub32 pgSize bytes)).2.1
        = (t.1.hashInsert sptFns (m.rehash upage) (entered x upper upage)).2 :=
      congrArg Prod.snd hload
    rwa [hsnd]
  · intro n
    have hfst : (loadPage x m t 0 true upage bytes (sub32 pgSize bytes)).1 = true :=
      congrArg Prod.fst hload
    rw [mapLoop, if_pos hle, hget]
    simp only [hbytes, hfst, if_true]

/-! ## The loop -/

theorem mapLoop_kept {b : Bool} (hal : upage % pgSize = 0)
    (h : mapLoop x m upper fuel upage t = some (b, t')) : ∀ r ∈ t.1.elems, r ∈ t'.1.elems := by
  induction fuel generalizing upage t with
  | zero => cases h
  | succ n ih =>
    intro r hr
    by_cases hle : upage ≤ upper
    · by_cases href : Refused m t upage
      · rw [mapLoop_refused hle href] at h
        cases h
        exact hr
      · obtain ⟨t1, hperm, hnext⟩ := mapLoop_entered (x := x) hle hal href
        rw [hnext] at h
        have hal' : u32 (upage + pgSize) % pgSize = 0 := by
          rw [u32, show pgSize = 4096 from rfl] at *
          omega
        exact ih hal' h r (hperm.mem_iff.mpr (mem_cons_of_mem _ hr))
    · rw [mapLoop, if_neg hle] at h
      cases h
      exact hr

/-- **The loop over a range** with `k` pages left, the last of which is at `upper`: either no page is
    refused and all are entered, or one is refused. -/
theorem mapLoop_range (x : Executable) (m : LoadMemory) (t : Spt) {k : Nat} (hal : upage % pgSize = 0)
    (hk : upage + pgSize * k = upper + pgSize) (htop : upper + pgSize < 4294967296)
    (hf : k < fuel) :
    (∃ t', mapLoop x m upper fuel upage t = some (true, t') ∧
      (∀ j < k, ¬ Refused m t (upage + pgSize * j)) ∧
      t'.1.elems.Perm (((range k).map fun j => entered x upper (upage + pgSize * j)) ++
        t.1.elems)) ∨
    (∃ t', mapLoop x m upper fuel upage t = some (false, t')) ∧
      ∃ j < k, Refused m t (upage + pgSize * j) := by
  have hsize : pgSize = 4096 := rfl
  -- on the pages that are left; the table grows by one page in each turn
  induction k generalizing fuel upage t with
  | zero =>
    obtain _ | fuel := fuel
    · omega
    refine .inl ⟨t, ?_, fun j hj => absurd hj (Nat.not_lt_zero j), Perm.refl _⟩
    rw [mapLoop, if_neg (by omega)]
  | succ k ih =>
    obtain _ | fuel := fuel
    · omega
    rw [hsize] at hk hal
    have hle : upage ≤ upper := by omega
    by_cases href : Refused m t upage
    · exact .inr ⟨⟨t, mapLoop_refused hle href⟩, 0, by omega, href⟩
    obtain ⟨t1, hperm, hnext⟩ := mapLoop_entered (x := x) hle hal href
    have hstep : u32 (upage + pgSize) = upage + pgSize := by
      rw [u32]
      omega
    rw [hnext, hstep]
    -- the pages behind are refused as before
    have hsame (j : Nat) : Refused m t1 (upage + pgSize + pgSize * j) ↔
        Refused m t (upage + pgSize * (j + 1)) := by
      have haddr : upage + pgSize + pgSize * j = upage + pgSize * (j + 1) := by
        rw [hsize]
        omega
      rw [haddr, Refused, Refused, ne_eq, ne_eq, sptGet_of_perm _ _ hperm]
      · rw [hsize]
        omega
      · show upage ≠ _
        omega
    have hrest := ih t1 (show (upage + pgSize) % pgSize = 0 by rw [hsize]; omega)
      (by rw [hsize]; omega) (show k < fuel by omega)
    rcases hrest with ⟨t', hrun, hnone, hall⟩ | ⟨⟨t', hrun⟩, j, hj, hbad⟩
    · refine .inl ⟨t', hrun, ?_, ?_⟩
      · intro j hj
        cases j with
        | zero => exact href
        | succ j => exact fun hbad => hnone j (by omega) ((hsame j).mpr hbad)
      · refine (hall.trans (Perm.append_left _ hperm)).trans ?_
        rw [range_succ_eq_map, map_cons, map_map]
        refine perm_middle.trans (Perm.of_eq ?_)
        refine congrArg (cons _) (congrArg (· ++ t.1.elems) ?_)
        refine map_congr_left fun j _ => congrArg (entered x upper) ?_
        rw [hsize]
        omega
    · exact .inr ⟨⟨t', hrun⟩, j + 1, by omega, (hsame j).mp hbad⟩

/-- **The loop up to the end of the address space** does not end before it meets a page that is there:
    its own first page, if no other. -/
theorem mapLoop_endless {addr i j : Nat} (hal : addr % pgSize = 0)
    (haddr : addr < 4294967296) (hi : i + j = 1048576) (hf : j < fuel)
    (hpage : ∃ r ∈ t.1.elems, r.upage = addr) :
    ∃ t', mapLoop x m 4294963200 fuel (u32 (addr + pgSize * i)) t = some (false, t') := by
  have hsize : pgSize = 4096 := rfl
  rw [hsize] at hal
  have hle (i : Nat) : u32 (addr + pgSize * i) ≤ 4294963200 := by
    rw [u32, hsize]
    omega
  have hmul (i : Nat) : u32 (addr + pgSize * i) % pgSize = 0 := by
    rw [u32, hsize]
    omega
  induction j generalizing i fuel t with
  | zero =>
    obtain _ | fuel := fuel
    · omega
    obtain ⟨r, hr, hra⟩ := hpage
    have hback : u32 (addr + pgSize * i) = addr := by
      rw [u32, hsize]
      omega
    refine ⟨t, mapLoop_refused (hle i) (.inl fun hnone => ?_)⟩
    exact (sptGet_eq_none (hmul i)).mp hnone r hr (hra.trans hback.symm)
  | succ j ih =>
    obtain _ | fuel := fuel
    · omega
    by_cases href : Refused m t (u32 (addr + pgSize * i))
    · exact ⟨t, mapLoop_refused (hle i) href⟩
    obtain ⟨t1, hperm, hnext⟩ := mapLoop_entered (x := x) (hle i) (hmul i) href
    obtain ⟨r, hr, hra⟩ := hpage
    have hstep : u32 (u32 (addr + pgSize * i) + pgSize) = u32 (addr + pgSize * (i + 1)) := by
      rw [u32, u32, u32, hsize]
      omega
    rw [hnext, hstep]
    exact ih (by omega) (by omega) ⟨r, hperm.mem_iff.mpr (mem_cons_of_mem _ hr), hra⟩

end

/-! ## Calls -/

/-- The request is refused for its descriptor or its address alone. -/
def BadArguments (fd : Int) (addr : Nat) : Prop := addr = 0 ∨ fd = 0 ∨ fd = 1 ∨ addr % pgSize ≠ 0

def upperBound (x : Executable) (addr : Nat) : Nat :=
  u32 (addr + filePgSize x.inode.length * pgSize)

section

variable {reopened : Bool} {p : Process} {fd : Int} {addr : Nat}

theorem misaligned_iff : misaligned addr = true ↔ addr % pgSize ≠ 0 := by
  have hbase : signed32 physBase = -1073741824 := by decide
  have hdvd : wrap32 (signed32 addr - signed32 physBase) % 4096 = (addr % 4096 : Nat) := by
    rw [hbase, wrap32, signed32]
    split <;> omega
  rw [misaligned]
  generalize wrap32 (signed32 addr - signed32 physBase) = d at hdvd ⊢
  have hzero : d.tmod pgSize = 0 ↔ d % pgSize = 0 :=
    ⟨fun h => Int.emod_eq_zero_of_dvd (Int.dvd_of_tmod_eq_zero h),
      fun h => Int.tmod_eq_zero_of_dvd (Int.dvd_of_emod_eq_zero h)⟩
  have hsize : pgSize = 4096 := rfl
  rw [hsize] at hzero
  simp only [decide_eq_true_eq, ne_eq, hsize, hzero]
  omega

theorem aligned_of_good (h : ¬ BadArguments fd addr) : addr % pgSize = 0 := by
  by_contra hne
  exact h (.inr (.inr (.inr hne)))

theorem mmap_badArguments (l : Lock) (h : BadArguments fd addr) :
    mmap l m reopened p fd addr = .returned mmapError p := by
  rw [mmap, if_pos]
  rwa [misaligned_iff]

theorem good_of_not_bad (h : ¬ BadArguments fd addr) :
    ¬ (addr = 0 ∨ fd = 0 ∨ fd = 1 ∨ misaligned addr = true) := by
  rwa [misaligned_iff]

section

variable (l : Lock) (h : ¬ BadArguments fd addr)
include h

theorem mmap_notOpen (hopen : p.lookupFdStruct fd = none) :
    mmap l m reopened p fd addr = .hang p := by
  rw [mmap, if_neg (good_of_not_bad h), hopen]

theorem mmap_notReopened
    (hopen : p.lookupFdStruct fd = some x) : mmap l m false p fd addr = .panic := by
  rw [mmap, if_neg (good_of_not_bad h), hopen]
  rfl

theorem mmap_empty (hopen : p.lookupFdStruct fd = some x)
    (hlen : x.inode.length = 0) : mmap l m true p fd addr = .returned mmapError p := by
  rw [mmap, if_neg (good_of_not_bad h), hopen]
  simp only [Bool.true_eq_false, if_false, hlen, if_true]

end

theorem mmap_loop (h : ¬ BadArguments fd addr)
    (hopen : p.lookupFdStruct fd = some x) (hlen : x.inode.length ≠ 0) :
    mmap mmapLock m true p fd addr =
      match mapLoop x m (upperBound x addr) maxTurns addr p.spt with
      | none => .hang p
      | some (false, t) => .returned mmapError { p with spt := t }
      | some (true, t) => .hang { p with spt := t } := by
  rw [mmap, if_neg (good_of_not_bad h), hopen]
  simp only [Bool.true_eq_false, if_false, hlen]
  rfl

/-- The pages of a file are at most half of the address space. -/
theorem filePgSize_bounds (hlen : x.inode.length ≠ 0) :
    0 < filePgSize x.inode.length ∧ filePgSize x.inode.length ≤ 524288 := by
  have h0 := x.onDevice.1
  have hlt := x.length_lt
  have hsize : pgSize = 4096 := rfl
  rw [filePgSize]
  by_cases hpart : x.inode.length.toNat % pgSize = 0
  · rw [if_neg (not_not.mpr hpart)]
    rw [hsize] at hpart ⊢
    omega
  · rw [if_pos hpart]
    rw [hsize] at hpart ⊢
    omega

/-- The bound, and whether it is past the end of the address space. -/
theorem upperBound_cases (haddr : addr < 4294967296) (hal : addr % pgSize = 0)
    (hlen : x.inode.length ≠ 0) :
    upperBound x addr < addr ∨ upperBound x addr = addr + pgSize * filePgSize x.inode.length := by
  have hn := filePgSize_bounds hlen
  have hsize : pgSize = 4096 := rfl
  rw [upperBound, u32, hsize]
  rw [hsize] at hal
  omega

/-- The pages that the loop visits: one more than the file has. -/
theorem range_end (hupper : upperBound x addr = addr + pgSize * filePgSize x.inode.length) :
    addr + pgSize * (filePgSize x.inode.length + 1) = upperBound x addr + pgSize := by
  rw [hupper, mul_add, mul_one, add_assoc]

theorem turns_lt (hlen : x.inode.length ≠ 0) : filePgSize x.inode.length + 1 < maxTurns := by
  have hn := filePgSize_bounds hlen
  have hturns : maxTurns = 1048577 := rfl
  omega

/-- **What `mmap` does** to a request that nothing stands in the way of: it enters one page more than
    the file has, all of them with the offset zero, and never comes back. -/
theorem mmap_enters (h : ¬ BadArguments fd addr) (hopen : p.lookupFdStruct fd = some x)
    (hlen : x.inode.length ≠ 0)
    (htop : addr + pgSize * (filePgSize x.inode.length + 1) < 4294967296)
    (hfree : ∀ i ≤ filePgSize x.inode.length, ¬ Refused m p.spt (addr + pgSize * i)) :
    ∃ t : Spt, mmap mmapLock m true p fd addr = .hang { p with spt := t } ∧
      t.1.elems.Perm (((range (filePgSize x.inode.length + 1)).map fun i =>
        entered x (upperBound x addr) (addr + pgSize * i)) ++ p.spt.1.elems) := by
  have hsize : pgSize = 4096 := rfl
  have hal := aligned_of_good h
  rw [hsize] at htop
  have hupper : upperBound x addr = addr + 4096 * filePgSize x.inode.length := by
    rw [upperBound, u32, hsize]
    omega
  rcases mapLoop_range x m p.spt hal (range_end hupper) (by omega) (turns_lt hlen) with
    ⟨t, hrun, -, hperm⟩ | ⟨-, j, hj, hbad⟩
  · refine ⟨t, ?_, hperm⟩
    rw [mmap_loop h hopen hlen, hrun]
  · exact absurd hbad (hfree j (by omega))

/-! ## Mapping a file -/

/-- The page `i` of a mapping. -/
def wholePage (x : Executable) (addr i : Nat) : PageRecord where
  file := some x.inode
  fileOffset := ((pgSize * i : Nat) : Int)
  upage := addr + pgSize * i
  pageReadBytes := min pgSize (x.inode.length.toNat - pgSize * i)
  pageZeroBytes := pgSize - min pgSize (x.inode.length.toNat - pgSize * i)
  writable := true
  pLoc := .mmf

/-- **The whole file is mapped**, and nothing else: its pages are entered, and one mapping with a new
    identifier. -/
structure MapsWhole (x : Executable) (addr : Nat) (mapId : Int) (p p' : Process) : Prop where
  pages : p'.spt.1.elems.Perm
    (((range (filePgSize x.inode.length)).map (wholePage x addr)) ++ p.spt.1.elems)
  fresh : ∀ map ∈ p.mmappedFiles, map.mapId ≠ mapId
  info : ∃ file, p'.mmappedFiles.Perm (⟨mapId, x.inode.length, addr, file⟩ :: p.mmappedFiles)

/-- **No file is ever mapped**: whatever is asked of it, `mmap` does not return an identifier. -/
theorem mmap_never_maps (m : LoadMemory) (reopened : Bool) (p : Process) (fd : Int) (addr : Nat)
    (x : Executable) :
    ¬ ∃ mapId p', mmap mmapLock m reopened p fd addr = .returned mapId p' ∧
      MapsWhole x addr mapId p p' := by
  rintro ⟨mapId, p', hreturned, hmaps⟩
  obtain ⟨file, hinfo⟩ := hmaps.info
  have hlength := hinfo.length_eq
  rw [(mmap_returned hreturned).2.1, length_cons] at hlength
  omega

/-- The supplemental page table that `load` leaves, for a program at `0x08048000`: the record of its one
    page, and the one with the kernel address of `esp`. -/
def loadedSpt : Spt :=
  match h : load (.tiny [0x00, 0x80, 0x04, 0x08]) .ready (fun _ _ => 0) [] with
  | .ok (some img) => ⟨img.spt, (ready_of_load h).table⟩
  | _ => ⟨Hash.init, Hash.init_wf⟩

/-- The process that runs it, with one open file, of 84 bytes. -/
def tinyProcess : Process where
  listOfFds := [(2, Executable.tiny [])]
  spt := loadedSpt
  mmappedFiles := []
  mapLatestId := 0

/-- What a call returns, if it does, and its pages by address, offset and bytes to read; nothing if it
    does not end in a known state. -/
def Outcome.pages : Outcome → Option (Option Int × List (Nat × Int × Nat))
  | .returned result p => some (some result, pagesOf p)
  | .hang p => some (none, pagesOf p)
  | .panic | .wild => none
where
  pagesOf (p : Process) : List (Nat × Int × Nat) :=
    p.spt.1.elems.map fun r => (r.upage, r.fileOffset, r.pageReadBytes)

/-- Its file is mapped at `0x10000000`: the first page is to be read whole, a page behind it is
    entered, and the call hangs. -/
theorem mmap_tiny_hangs : (mmap mmapLock ready true tinyProcess 2 0x10000000).pages
      = some (none, [(0x10001000, 0, 84), (0x10000000, 0, 4096), (0x08048000, 0, 84),
        (0xc0200ff8, 0, 0)]) := by
  decide +kernel

/-- The same file: two pages are entered besides the two records of the program. -/
theorem mmap_enters_tiny : ∃ t : Spt, mmap mmapLock ready true tinyProcess 2 0x10000000 =
      .hang { tinyProcess with spt := t } ∧ t.1.elems.length = 4 := by
  have hgood : ¬ BadArguments 2 0x10000000 := by
    unfold BadArguments
    decide
  obtain ⟨t, hhang, hperm⟩ := mmap_enters (m := ready) (p := tinyProcess) hgood rfl
    (by decide) (by decide) (by unfold Refused; decide +kernel)
  exact ⟨t, hhang, hperm.length_eq.trans (by decide +kernel)⟩

/-! ## Requests that fail -/

/-- **The request is invalid**: a bad descriptor or address, an empty file, or a page of the range that
    is there already. -/
def Invalid (p : Process) (fd : Int) (addr : Nat) : Prop :=
  BadArguments fd addr ∨ p.lookupFdStruct fd = none ∨
    ∃ x, p.lookupFdStruct fd = some x ∧ (x.inode.length = 0 ∨
      ∃ i < filePgSize x.inode.length, sptGet p.spt (u32 (addr + pgSize * i)) ≠ none)

/-- Nothing of the process is changed that `mmap` may change. -/
structure Unchanged (p p' : Process) : Prop where
  spt : p'.spt = p.spt
  mappings : p'.mmappedFiles = p.mmappedFiles
  latestId : p'.mapLatestId = p.mapLatestId

/-- **The call fails cleanly**: an error leaves everything as it was, and what is invalid is an
    error. -/
structure FailsCleanly (m : LoadMemory) (reopened : Bool) (p : Process) (fd : Int) (addr : Nat) :
    Prop where
  unchanged : ∀ p', mmap mmapLock m reopened p fd addr = .returned mmapError p' → Unchanged p p'
  refused : Invalid p fd addr → ∃ p', mmap mmapLock m reopened p fd addr = .returned mmapError p'

def lastPage : Nat := 4294963200

/-- No page of the range, and not the page behind it, stands in the way. -/
def RangeFree (m : LoadMemory) (t : Spt) (x : Executable) (addr : Nat) : Prop :=
  ∀ i ≤ filePgSize x.inode.length, ¬ Refused m t (addr + pgSize * i)

/-- The calls that fail cleanly.  A file that is not empty is mapped without an error if the loop is
    not reached or meets nothing; the only error that is clean is that of the FIRST page. -/
def CleanWhen (m : LoadMemory) (reopened : Bool) (p : Process) (fd : Int) (addr : Nat) : Prop :=
  BadArguments fd addr ∨ ∃ x, p.lookupFdStruct fd = some x ∧ (x.inode.length = 0 ∧ reopened = true ∨
      x.inode.length ≠ 0 ∧ (reopened = false ∨ upperBound x addr < addr) ∧
        (∀ i < filePgSize x.inode.length, sptGet p.spt (u32 (addr + pgSize * i)) = none) ∨
      x.inode.length ≠ 0 ∧ reopened = true ∧ addr ≤ upperBound x addr ∧
        (Refused m p.spt addr ∨ upperBound x addr ≠ lastPage ∧ RangeFree m p.spt x addr))

theorem failsCleanly_of_returned {p' : Process}
    (h : mmap mmapLock m reopened p fd addr = .returned mmapError p') :
    FailsCleanly m reopened p fd addr ↔ p'.spt = p.spt := by
  constructor
  · exact fun hclean => (hclean.unchanged p' h).spt
  · intro hspt
    refine ⟨fun q hq => ?_, fun _ => ⟨p', h⟩⟩
    rw [h] at hq
    cases hq
    obtain ⟨-, hmappings, hid⟩ := mmap_returned h
    exact ⟨hspt, hmappings, hid⟩

theorem failsCleanly_of_lost (h : ∀ p', mmap mmapLock m reopened p fd addr ≠ .returned mmapError p') :
    FailsCleanly m reopened p fd addr ↔ ¬ Invalid p fd addr := by
  constructor
  · intro hclean hinvalid
    obtain ⟨p', hp'⟩ := hclean.refused hinvalid
    exact h p' hp'
  · intro hvalid
    exact ⟨fun p' hp' => absurd hp' (h p'), fun hinvalid => absurd hinvalid hvalid⟩

theorem invalid_iff (h : ¬ BadArguments fd addr) (hopen : p.lookupFdStruct fd = some x)
    (hlen : x.inode.length ≠ 0) : ¬ Invalid p fd addr ↔
      ∀ i < filePgSize x.inode.length, sptGet p.spt (u32 (addr + pgSize * i)) = none := by
  constructor
  · intro hvalid i hi
    by_contra hget
    exact hvalid (.inr (.inr ⟨x, hopen, .inr ⟨i, hi, hget⟩⟩))
  · rintro hfree (hbad | hnone | ⟨y, hy, hempty | ⟨i, hi, hget⟩⟩)
    · exact h hbad
    · rw [hopen] at hnone
      cases hnone
    · rw [hopen] at hy
      cases hy
      exact hlen hempty
    · rw [hopen] at hy
      cases hy
      exact hget (hfree i hi)

/-- An error after the first page has been entered leaves that page behind. -/
theorem mapLoop_first_stays {upper : Nat} {t t' : Spt} (hle : addr ≤ upper)
    (hal : addr % pgSize = 0) (hfree : ¬ Refused m t addr)
    (h : mapLoop x m upper maxTurns addr t = some (false, t')) : t' ≠ t := by
  obtain ⟨t1, hperm, hnext⟩ := mapLoop_entered (x := x) hle hal hfree
  rw [show maxTurns = 1048576 + 1 from rfl, hnext] at h
  have hal' : u32 (addr + pgSize) % pgSize = 0 := by
    rw [u32, show pgSize = 4096 from rfl] at *
    omega
  have hnew := mapLoop_kept hal' h _ (hperm.mem_iff.mpr (mem_cons_self))
  rintro rfl
  rw [Refused, not_or, not_not] at hfree
  exact (sptGet_eq_none hal).mp hfree.1 _ hnew rfl

/-- The loop over a range whose first page is not refused: it gets to its end, or it fails and leaves
    a page behind. -/
theorem mapLoop_outcome (haddr : addr < 4294967296) (hal : addr % pgSize = 0)
    (hlen : x.inode.length ≠ 0) (hle : addr ≤ upperBound x addr) (hfirst : ¬ Refused m p.spt addr) :
    (upperBound x addr ≠ lastPage ∧ RangeFree m p.spt x addr ∧
      ∃ t, mapLoop x m (upperBound x addr) maxTurns addr p.spt = some (true, t)) ∨
    (¬ (upperBound x addr ≠ lastPage ∧ RangeFree m p.spt x addr) ∧
      ∃ t, mapLoop x m (upperBound x addr) maxTurns addr p.spt = some (false, t) ∧ t ≠ p.spt) := by
  have hsize : pgSize = 4096 := rfl
  have hlast : lastPage = 4294963200 := rfl
  have hupper : upperBound x addr = addr + pgSize * filePgSize x.inode.length := by
    rcases upperBound_cases haddr hal hlen with hlt | heq
    · omega
    · exact heq
  by_cases hend : upperBound x addr = lastPage
  · -- the condition of the loop is always true
    refine .inr ⟨fun h => h.1 hend, ?_⟩
    obtain ⟨t1, hperm, hnext⟩ := mapLoop_entered (x := x) hle hal hfirst
    have hrun : ∃ t, mapLoop x m (upperBound x addr) maxTurns addr p.spt = some (false, t) := by
      rw [show maxTurns = 1048576 + 1 from rfl, hnext, hend]
      exact mapLoop_endless (i := 1) (j := 1048575) hal haddr (by omega) (by omega)
        ⟨_, hperm.mem_iff.mpr (mem_cons_self), rfl⟩
    obtain ⟨t, ht⟩ := hrun
    exact ⟨t, ht, mapLoop_first_stays hle hal hfirst ht⟩
  · have hlt : upperBound x addr < 4294967296 := Nat.mod_lt _ (by decide)
    have hmul : upperBound x addr % 4096 = 0 := by
      rw [hupper, hsize]
      rw [hsize] at hal
      omega
    rcases mapLoop_range x m p.spt hal (range_end hupper) (by omega) (turns_lt hlen)
      with ⟨t, hrun, hfree, -⟩ | ⟨⟨t, hrun⟩, j, hj, hbad⟩
    · exact .inl ⟨hend, fun i hi => hfree i (by omega), t, hrun⟩
    · exact .inr ⟨fun h => h.2 j (by omega) hbad, t, hrun, mapLoop_first_stays hle hal hfirst hrun⟩

theorem failsCleanly_loop (haddr : addr < 4294967296) (h : ¬ BadArguments fd addr)
    (hopen : p.lookupFdStruct fd = some x) (hlen : x.inode.length ≠ 0)
    (hle : addr ≤ upperBound x addr) :
    FailsCleanly m true p fd addr ↔
      Refused m p.spt addr ∨ upperBound x addr ≠ lastPage ∧ RangeFree m p.spt x addr := by
  have hal := aligned_of_good h
  have hcall := mmap_loop (m := m) h hopen hlen
  by_cases hfirst : Refused m p.spt addr
  · rw [show maxTurns = 1048576 + 1 from rfl, mapLoop_refused hle hfirst] at hcall
    rw [failsCleanly_of_returned hcall]
    exact ⟨fun _ => .inl hfirst, fun _ => rfl⟩
  · rcases mapLoop_outcome haddr hal hlen hle hfirst
      with ⟨hend, hfree, t, hrun⟩ | ⟨hnot, t, hrun, hne⟩
    · rw [hrun] at hcall
      rw [failsCleanly_of_lost (by rw [hcall]; rintro p' ⟨⟩), invalid_iff h hopen hlen]
      refine ⟨fun _ => .inr ⟨hend, hfree⟩, fun _ i hi => ?_⟩
      have hget := hfree i (le_of_lt hi)
      rw [Refused, not_or, not_not] at hget
      have hin : u32 (addr + pgSize * i) = addr + pgSize * i := by
        have hsize : pgSize = 4096 := rfl
        have hlt : upperBound x addr < 4294967296 := Nat.mod_lt _ (by decide)
        rcases upperBound_cases haddr hal hlen with hwrap | hupper
        · omega
        · rw [u32, Nat.mod_eq_of_lt]
          rw [hsize] at hupper ⊢
          omega
      rw [hin]
      exact hget.1
    · rw [hrun] at hcall
      rw [failsCleanly_of_returned hcall]
      exact ⟨fun hsame => absurd hsame hne, fun hor => absurd (hor.resolve_left hfirst) hnot⟩

section

variable (h : ¬ BadArguments fd addr)
include h

theorem failsCleanly_lost (hopen : p.lookupFdStruct fd = some x)
    (hlen : x.inode.length ≠ 0) (hlost : reopened = false ∨ upperBound x addr < addr) :
    FailsCleanly m reopened p fd addr ↔
      ∀ i < filePgSize x.inode.length, sptGet p.spt (u32 (addr + pgSize * i)) = none := by
  rw [← invalid_iff h hopen hlen]
  refine failsCleanly_of_lost fun p' hp' => ?_
  cases reopened with
  | false =>
    rw [mmap_notReopened mmapLock h hopen] at hp'
    cases hp'
  | true =>
    have hlt : upperBound x addr < addr := hlost.resolve_left (by decide)
    rw [mmap_loop h hopen hlen, show maxTurns = 1048576 + 1 from rfl, mapLoop,
      if_neg (Nat.not_le.mpr hlt)] at hp'
    cases hp'

theorem failsCleanly_empty (hopen : p.lookupFdStruct fd = some x)
    (hlen : x.inode.length = 0) : FailsCleanly m reopened p fd addr ↔ reopened = true := by
  cases reopened with
  | false =>
    have hinvalid : Invalid p fd addr := .inr (.inr ⟨x, hopen, .inl hlen⟩)
    rw [failsCleanly_of_lost (by rw [mmap_notReopened mmapLock h hopen]; rintro p' ⟨⟩)]
    exact ⟨fun hvalid => absurd hinvalid hvalid, fun hno => absurd hno (by decide)⟩
  | true =>
    rw [failsCleanly_of_returned (mmap_empty mmapLock h hopen hlen)]
    exact ⟨fun _ => rfl, fun _ => rfl⟩

/-- A call for a descriptor that is not open does not fail: it hangs. -/
theorem not_failsCleanly_notOpen (hopen : p.lookupFdStruct fd = none) :
    ¬ FailsCleanly m reopened p fd addr := by
  rw [failsCleanly_of_lost (by rw [mmap_notOpen mmapLock h hopen]; rintro p' ⟨⟩), not_not]
  exact .inr (.inl hopen)

end

/-- **Which calls fail cleanly**, for every process, descriptor and address. -/
theorem mmap_clean_iff (m : LoadMemory) (reopened : Bool) (p : Process) (fd : Int) (addr : Nat)
    (haddr : addr < 4294967296) :
    FailsCleanly m reopened p fd addr ↔ CleanWhen m reopened p fd addr := by
  by_cases hbad : BadArguments fd addr
  · rw [failsCleanly_of_returned (mmap_badArguments mmapLock hbad)]
    exact ⟨fun _ => .inl hbad, fun _ => rfl⟩
  rw [CleanWhen, or_iff_right hbad]
  cases hopen : p.lookupFdStruct fd with
  | none =>
    refine ⟨fun hclean => absurd hclean (not_failsCleanly_notOpen hbad hopen), ?_⟩
    rintro ⟨x, hx, -⟩
    cases hx
  | some x =>
    simp only [Option.some.injEq, exists_eq_left']
    by_cases hlen : x.inode.length = 0
    · rw [failsCleanly_empty hbad hopen hlen]
      simp only [hlen, true_and, ne_eq, not_true_eq_false, false_and, or_false]
    by_cases hlost : reopened = false ∨ upperBound x addr < addr
    · rw [failsCleanly_lost hbad hopen hlen hlost]
      have hnot : ¬ (reopened = true ∧ addr ≤ upperBound x addr) := by
        rintro ⟨rfl, hle⟩
        exact absurd (hlost.resolve_left (by decide)) (Nat.not_lt.mpr hle)
      simp only [hlen, false_and, ne_eq, not_false_eq_true, true_and, hlost, false_or]
      tauto
    · rw [not_or, Bool.not_eq_false, not_lt] at hlost
      obtain ⟨rfl, hle⟩ := hlost
      rw [failsCleanly_loop haddr hbad hopen hlen hle]
      simp only [hlen, false_and, ne_eq, not_false_eq_true, true_and, false_or, hle,
        Bool.true_eq_false, Nat.not_lt.mpr hle, or_self]

/-- An address that is not the beginning of a page. -/
theorem mmap_clean_misaligned : FailsCleanly ready true tinyProcess 2 0x10000001 :=
  (mmap_clean_iff ready true tinyProcess 2 0x10000001 (by decide)).mpr
    (.inl (.inr (.inr (.inr (by decide)))))

/-- The process, with the page `0x10001000` in use. -/
def takenProcess : Process := { tinyProcess with
    spt := (loadPage (Executable.tiny []) ready tinyProcess.spt 0 true 0x10001000 84
      4012).2 }

/-- The file is mapped at `0x10000000`: there is an error, and the page at `0x10000000` is left
    behind.  The descriptor 5 is not open: the call hangs. -/
theorem mmap_leaves_page : (mmap mmapLock ready true takenProcess 2 0x10000000).pages
        = some (some mmapError, [(0x10000000, 0, 4096), (0x10001000, 0, 84), (0x08048000, 0, 84),
          (0xc0200ff8, 0, 0)]) ∧
      (mmap mmapLock ready true takenProcess 5 0x10000000).pages
        = some (none, [(0x10001000, 0, 84), (0x08048000, 0, 84), (0xc0200ff8, 0, 0)]) := by
  decide +kernel

/-! ## Unmapping -/

/-- What a process does with its mappings. -/
inductive Call where
  | mmap (m : LoadMemory) (reopened : Bool) (fd : Int) (addr : Nat)
  | munmap (memory : Bool) (mapping : Int)
  /-- A page fault, or a call that is not about mappings: the table may be any other one. -/
  | other (t : Spt)

def Call.run (p : Process) : Call → Outcome
  | .mmap m reopened fd addr => Mmap.mmap mmapLock m reopened p fd addr
  | .munmap memory mapping => Mmap.munmap mmapLock memory p mapping
  | .other t => .returned 0 { p with spt := t }

/-- One after another, as long as they return. -/
def calls (p : Process) : List Call → Outcome
  | [] => .returned 0 p
  | c :: cs =>
    match c.run p with
    | .returned _ p' => calls p' cs
    | o => o

theorem munmap_hangs (memory : Bool) (p : Process) (mapping : Int) :
    munmap mmapLock memory p mapping = .hang p := by
  rw [munmap, lockAcquire_mmapLock]

/-- **No mapping is ever undone.**  Whatever a process does, in whatever state: if it maps a file, the
    call gives it no identifier, and if there is a `munmap` among its calls they do not come to an
    end. -/
theorem munmap_never_unmaps (p : Process) (before after : List Call) (memory : Bool)
    (mapping : Int) :
    (∀ m reopened fd addr result p', (Call.mmap m reopened fd addr).run p = .returned result p' →
      result = mmapError) ∧
    ∀ result p', calls p (before ++ .munmap memory mapping :: after) ≠ .returned result p' := by
  refine ⟨fun m reopened fd addr result p' h => (mmap_returned h).1, fun result p' => ?_⟩
  induction before generalizing p with
  | nil => simp [calls, Call.run, munmap_hangs]
  | cons c cs ih =>
    rw [cons_append, calls]
    split
    · exact ih _
    · rename_i hno
      exact fun h => hno _ _ h

/-- `mmap (2, 0x10000000); munmap (0)`: the process enters two pages, and never comes out of `mmap`. -/
theorem munmap_mapped_hangs :
    (calls tinyProcess [.mmap .ready true 2 0x10000000, .munmap true 0]).pages =
      some (none, [(0x10001000, 0, 84), (0x10000000, 0, 4096), (0x08048000, 0, 84),
        (0xc0200ff8, 0, 0)]) := by
  decide +kernel

end

end Pintos.Vm.Mmap
