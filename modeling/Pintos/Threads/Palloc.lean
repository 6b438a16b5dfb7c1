/-
  The page allocator (`threads/palloc.c`), at the granularity of single bits.

  1. **Program** — `palloc_get_multiple` takes the lock of its pool, tests bits one by one until it
     has a group that is free, and sets them one by one; `palloc_free_multiple` takes NO lock: it
     tests the bits of its pages and resets them one by one.  A thread is at a `Phase` of one of the
     two, each step handles one bit, and the steps of different threads interleave freely.

  2. **Memory** — `palloc_init` splits what is free between the pools, and each pool begins with its
     own bitmap; `layout_init` has the regions apart from each other, in this order.

  The contents of the pages are not modelled (`PAL_ZERO`, the fill with 0xcc), and pointers are
  natural numbers: RAM ends below the top of the address space.
-/
import Pintos.Base.Machine
import Pintos.Lib.Bitmap
import Pintos.Userprog.PageDir

namespace Pintos.Threads.Palloc

open Base Lib Userprog Function Option

/-! ## The two pools -/

/-- Which pool: `kernel_pool` or `user_pool`. -/
inductive PoolId where
  | kernel
  | user
  deriving DecidableEq

/-- `enum palloc_flags`, without `PAL_ZERO`. -/
structure Flags where
  /-- `PAL_ASSERT`. -/
  assert : Bool
  /-- `PAL_USER`. -/
  user : Bool
  deriving DecidableEq

/-- `flags & PAL_USER ? &user_pool : &kernel_pool`. -/
def Flags.pool (f : Flags) : PoolId := if f.user then .user else .kernel

structure Pool where
  /-- The holder of `lock`. -/
  lock : Option Nat
  /-- The address of the bitmap. -/
  mapAddr : Nat
  /-- `*used_map`. -/
  usedMap : Bitmap
  base : Nat

def Pool.size (p : Pool) : Nat := p.usedMap.bitCnt

def pgNo (va : Nat) : Nat := va / pgSize

/-- `ptov`, with its assertion. -/
def ptov (paddr : Nat) : Option Nat :=
  if paddr < physBase then some ((paddr + physBase) % addrSpace) else none

/-- `init_pool`; `none` is the panic, or a failed assertion. -/
def initPool (base pageCnt : Nat) (mem : Nat → BitVec 32) : Option Pool :=
  let bmPages := divRoundUp (Bitmap.bufSize pageCnt) pgSize
  if pageCnt < bmPages then none
  else do
    let usedMap ← Bitmap.createInBuf (pageCnt - bmPages) (bmPages * pgSize) mem
    some { lock := none, mapAddr := base, usedMap := usedMap, base := base + bmPages * pgSize }

/-- The globals `kernel_pool` and `user_pool`. -/
def pools (kernelPool userPool : Pool) : PoolId → Pool
  | .kernel => kernelPool
  | .user => userPool

/-- `palloc_init`, with `ramPages` for `init_ram_pages`; `mem` is what the memory of the bitmaps
    holds. -/
def pallocInit (userPageLimit ramPages : Nat) (mem : PoolId → Nat → BitVec 32) :
    Option (PoolId → Pool) := do
  let freeStart ← ptov (1024 * 1024)
  let freeEnd ← ptov (ramPages * pgSize)
  let freePages := (freeEnd - freeStart) / pgSize
  let userPages := if freePages / 2 > userPageLimit then userPageLimit else freePages / 2
  let kernelPages := freePages - userPages
  let kernelPool ← initPool freeStart kernelPages (mem .kernel)
  let userPool ← initPool (freeStart + kernelPages * pgSize) userPages (mem .user)
  some (pools kernelPool userPool)

/-- `page_from_pool`. -/
def Pool.fromPool (p : Pool) (page : Nat) : Bool :=
  pgNo page ≥ pgNo p.base && pgNo page < pgNo p.base + p.size

/-! ## Where the pools lie -/

/-- The pools in memory: each begins with its bitmap, the kernel's is below the user's. -/
structure Layout (pool : PoolId → Pool) : Prop where
  aligned : ∀ u, (pool u).base % pgSize = 0
  map : ∀ u, (pool u).mapAddr + Bitmap.bufSize (pool u).size ≤ (pool u).base
  low : 0 < (pool .kernel).mapAddr
  order : (pool .kernel).base + pgSize * (pool .kernel).size ≤ (pool .user).mapAddr
  top : (pool .user).base + pgSize * (pool .user).size ≤ addrSpace

theorem initPool_eq {base pageCnt : Nat} {mem : Nat → BitVec 32} {p : Pool}
    (h : initPool base pageCnt mem = some p) :
    p.lock = none ∧ p.mapAddr = base ∧ (∀ k < p.size, p.usedMap.bit k = false) ∧
    base + Bitmap.bufSize p.size ≤ p.base ∧ p.base + pgSize * p.size = base + pgSize * pageCnt ∧
    ∃ n, p.base = base + n * pgSize := by
  unfold initPool at h
  dsimp only at h
  split at h
  · cases h
  rename_i hle
  obtain ⟨b, hb, h⟩ := bind_eq_some_iff.mp h
  unfold Bitmap.createInBuf at hb
  split at hb
  · rename_i hbuf
    obtain ⟨b', hb', hcnt, hbit⟩ := Bitmap.create_eq
      (pageCnt - divRoundUp (Bitmap.bufSize pageCnt) pgSize) mem
    obtain rfl : b' = b := some.inj (hb'.symm.trans hb)
    cases h
    refine ⟨rfl, rfl, fun k hk => hbit k (hcnt ▸ hk), ?_, ?_, _, rfl⟩
    · show base + Bitmap.bufSize b'.bitCnt ≤ _
      rw [hcnt]
      exact Nat.add_le_add_left hbuf base
    · show base + _ * pgSize + pgSize * b'.bitCnt = _
      rw [hcnt, Nat.mul_sub, Nat.mul_comm _ pgSize]
      have := Nat.mul_le_mul_left pgSize (Nat.le_of_not_lt hle)
      omega
  · cases hb

/-- **The pools are apart**, whatever the limit and the size of RAM. -/
theorem layout_init {userPageLimit ramPages : Nat} {mem : PoolId → Nat → BitVec 32}
    {pool : PoolId → Pool} (hlo : 256 ≤ ramPages) (hhi : ramPages < 262144)
    (h : pallocInit userPageLimit ramPages mem = some pool) :
    Layout pool ∧ ∀ u, (pool u).lock = none ∧ ∀ k < (pool u).size, (pool u).usedMap.bit k = false := by
  unfold pallocInit at h
  obtain ⟨freeStart, hstart, h⟩ := bind_eq_some_iff.mp h
  obtain ⟨freeEnd, hend, h⟩ := bind_eq_some_iff.mp h
  obtain ⟨kp, hk, h⟩ := bind_eq_some_iff.mp h
  obtain ⟨up, hu, h⟩ := bind_eq_some_iff.mp h
  cases h
  have hone : ptov (1024 * 1024) = some 0xc0100000 := by decide
  rw [hone, some_inj] at hstart
  subst hstart
  have hram : freeEnd = physBase + ramPages * pgSize := by
    rw [ptov] at hend
    split at hend
    · have := some.inj hend
      simp only [pgSize, physBase, addrSpace] at this ⊢
      omega
    · cases hend
  obtain ⟨hkl, hkm, hkb, hk1, hk2, kn, hk3⟩ := initPool_eq hk
  obtain ⟨hul, hum, hub, hu1, hu2, un, hu3⟩ := initPool_eq hu
  have hpages : (freeEnd - 0xc0100000) / pgSize = ramPages - 256 := by
    simp only [hram, pgSize, physBase]
    omega
  rw [hpages] at hk2 hu2 hum hu3
  refine ⟨⟨?_, ?_, ?_, ?_, ?_⟩, ?_⟩
  · rintro (_ | _)
    · show kp.base % pgSize = 0
      rw [hk3]
      simp only [pgSize]
      omega
    · show up.base % pgSize = 0
      rw [hu3]
      simp only [pgSize]
      omega
  · rintro (_ | _)
    · show kp.mapAddr + _ ≤ kp.base
      rwa [hkm]
    · show up.mapAddr + _ ≤ up.base
      rw [hum]
      rwa [hpages] at hu1
  · show 0 < kp.mapAddr
    rw [hkm]
    decide
  · show kp.base + pgSize * kp.size ≤ up.mapAddr
    exact Nat.le_of_eq (by rw [hk2, hum, Nat.mul_comm pgSize])
  · show up.base + pgSize * up.size ≤ addrSpace
    rw [hu2]
    simp only [pgSize, addrSpace]
    split <;> omega
  · rintro (_ | _)
    · exact ⟨hkl, hkb⟩
    · exact ⟨hul, hub⟩

/-! ## Calls, bit by bit -/

inductive Phase where
  /-- In neither function. -/
  | idle
  /-- `palloc_get_multiple`, at `lock_acquire`. -/
  | acquire (f : Flags) (cnt : Nat)
  /-- In `bitmap_scan`: the group at `i` is looked at, its first `j` bits are false. -/
  | test (f : Flags) (cnt i j : Nat)
  /-- In `bitmap_set_multiple`: the first `j` bits of the group at `i` have been set. -/
  | mark (f : Flags) (cnt i j : Nat)
  /-- At `lock_release`, with `page_idx`. -/
  | release (f : Flags) (cnt : Nat) (idx : Option Nat)
  /-- After it. -/
  | ret (f : Flags) (cnt : Nat) (idx : Option Nat)
  /-- `palloc_free_multiple`, in `bitmap_all`: the first `j` bits of the pages are true. -/
  | check (u : PoolId) (idx cnt j : Nat)
  /-- In `bitmap_set_multiple`: the first `j` bits of the pages have been reset. -/
  | reset (u : PoolId) (idx cnt j : Nat)
  deriving DecidableEq

/-- Pages that `palloc_get_multiple` has returned and that have not been given back: the pool that
    was asked for, the address and the number of pages. -/
structure Extent where
  pool : PoolId
  pages : Nat
  cnt : Nat
  deriving DecidableEq

structure State where
  pool : PoolId → Pool
  phase : Nat → Phase
  live : List Extent

inductive Stop where
  /-- `PANIC ("palloc_get: out of pages")`. -/
  | outOfPages
  /-- A failed assertion, or `NOT_REACHED`. -/
  | assertion
  deriving DecidableEq

inductive Act where
  /-- A thread calls `palloc_get_multiple`. -/
  | get (t : Nat) (f : Flags) (cnt : Nat)
  /-- A thread calls `palloc_free_multiple`. -/
  | free (t : Nat) (pages cnt : Nat)
  /-- A thread takes the next step of its call. -/
  | step (t : Nat)
  deriving DecidableEq

namespace State

def start (pool : PoolId → Pool) : State := { pool := pool, phase := fun _ => .idle, live := [] }

def goto (s : State) (t : Nat) (p : Phase) : State := { s with phase := update s.phase t p }

theorem goto_self (s : State) (t : Nat) (p : Phase) : (s.goto t p).phase t = p := update_self ..

theorem goto_of_ne (s : State) {t t' : Nat} (p : Phase) (h : t' ≠ t) :
    (s.goto t p).phase t' = s.phase t' :=
  update_of_ne h ..

def setLock (s : State) (u : PoolId) (holder : Option Nat) : State :=
  { s with pool := update s.pool u { s.pool u with lock := holder } }

def setMap (s : State) (u : PoolId) (b : Bitmap) : State :=
  { s with pool := update s.pool u { s.pool u with usedMap := b } }

/-- The loop of `bitmap_scan` comes to the group at `i`: `cnt <= bit_cnt` and `i <= last`, or it is
    over. -/
def scanAt (s : State) (f : Flags) (cnt i : Nat) : Phase :=
  if i + cnt ≤ (s.pool f.pool).size then .test f cnt i 0 else .release f cnt none

/-- `pages`, as `palloc_get_multiple` computes it. -/
def pagesAt (s : State) (f : Flags) (idx : Option Nat) : Nat :=
  match idx with
  | some i => ((s.pool f.pool).base + pgSize * i) % addrSpace
  | none => 0

/-- One step of a thread inside a call. -/
def stepThread (s : State) (t : Nat) : Except Stop State :=
  match s.phase t with
  | .idle => .ok s
  | .acquire f cnt => .ok ((s.setLock f.pool (some t)).goto t (s.scanAt f cnt 0))
  | .test f cnt i j =>
    match (s.pool f.pool).usedMap.test (i + j) with
    | none => .error .assertion
    | some true => .ok (s.goto t (s.scanAt f cnt (i + 1)))
    | some false =>
      .ok (s.goto t (if j + 1 < cnt then .test f cnt i (j + 1) else .mark f cnt i 0))
  | .mark f cnt i j =>
    match (s.pool f.pool).usedMap.set (i + j) true with
    | none => .error .assertion
    | some b =>
      .ok ((s.setMap f.pool b).goto t
        (if j + 1 < cnt then .mark f cnt i (j + 1) else .release f cnt (some i)))
  | .release f cnt idx =>
    if (s.pool f.pool).lock = some t then
      .ok ((s.setLock f.pool none).goto t (.ret f cnt idx))
    else .error .assertion
  | .ret f cnt idx =>
    if s.pagesAt f idx ≠ 0 then
      .ok { s.goto t .idle with live := ⟨f.pool, s.pagesAt f idx, cnt⟩ :: s.live }
    else if f.assert then .error .outOfPages
    else .ok (s.goto t .idle)
  | .check u idx cnt j =>
    match (s.pool u).usedMap.test (idx + j) with
    | none => .error .assertion
    | some false => .error .assertion
    | some true =>
      .ok (s.goto t (if j + 1 < cnt then .check u idx cnt (j + 1) else .reset u idx cnt 0))
  | .reset u idx cnt j =>
    match (s.pool u).usedMap.set (idx + j) false with
    | none => .error .assertion
    | some b =>
      .ok ((s.setMap u b).goto t (if j + 1 < cnt then .reset u idx cnt (j + 1) else .idle))

/-- `palloc_get_multiple` up to its `lock_acquire`. -/
def getMultiple (s : State) (t : Nat) (f : Flags) (cnt : Nat) : State :=
  if cnt = 0 then s else s.goto t (.acquire f cnt)

/-- The pool that `palloc_free_multiple` finds; `none` is `NOT_REACHED`. -/
def poolOf (s : State) (pages : Nat) : Option PoolId :=
  if (s.pool .kernel).fromPool pages then some .kernel
  else if (s.pool .user).fromPool pages then some .user
  else none

/-- `palloc_free_multiple` up to the first bit that it tests. -/
def freeMultiple (s : State) (t : Nat) (pages cnt : Nat) : Except Stop State :=
  let s' := { s with live := s.live.filter fun e => e.pages ≠ pages }
  if pgOfs pages ≠ 0 then .error .assertion
  else if pages = 0 ∨ cnt = 0 then .ok s'
  else
    match s.poolOf pages with
    | none => .error .assertion
    | some u =>
      let pageIdx := pgNo pages - pgNo (s.pool u).base
      -- the assertions of `bitmap_contains`
      if pageIdx ≤ (s.pool u).size ∧ pageIdx + cnt ≤ (s.pool u).size then
        .ok (s'.goto t (.check u pageIdx cnt 0))
      else .error .assertion

end State

def step (s : State) : Act → Except Stop State
  | .get t f cnt => .ok (s.getMultiple t f cnt)
  | .free t pages cnt => s.freeMultiple t pages cnt
  | .step t => s.stepThread t

/-- The thread is in a call, and does not wait for a lock that is held. -/
def State.ready (s : State) (t : Nat) : Bool :=
  match s.phase t with
  | .idle => false
  | .acquire f _ => (s.pool f.pool).lock.isNone
  | _ => true

/-- A thread makes one call at a time, and gives back only what is live. -/
def Enabled (s : State) : Act → Prop
  | .get t _ _ => s.phase t = .idle
  | .free t pages cnt => s.phase t = .idle ∧ ∃ e ∈ s.live, e.pages = pages ∧ e.cnt = cnt
  | .step t => s.ready t = true

def machine : Machine State Act Stop where
  enabled := Enabled
  step := step

end Pintos.Threads.Palloc
