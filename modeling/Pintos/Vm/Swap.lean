/-
  The swap table: `vm/swap.c` and the globals of `vm/swap.h`.

  Free slots are to be found in a bump counter (`first_unused_chunk`, up to `swap_size_in_chunks`)
  and in a list of slots given back; slots in use are in a hash table.

  1. **`swap_lock`** is a POINTER.  No statement of the kernel assigns it, so it is null: `swap_init`
     panics in `lock_init`, and `acquire_swap_lock` takes a page fault in the kernel.

  2. **Shadowing** — `swap_init` declares `swap_block`, `first_unused_chunk` and
     `swap_size_in_chunks` AGAIN, as locals; the globals stay null and zero.

  3. **`release_swap_lock`** passes `&swap_lock` to `lock_release`, which takes the pointer for the
     lock and asserts that its holder, the first word, is the current thread.

  4. **Wild pointers** — `swap_write` and `swap_read` write through a `struct page_chunk *` that is
     not initialised; what it points to is a choice of the environment.

  Hence no call of `swap_write` ever returns (`swapWrite_stops`), and the table is full from the
  start (`swap_slot_accounting`).
-/
import Pintos.Lib.Hash
import Pintos.Vm.Page

namespace Pintos.Vm

open Base Lib Returns

/-- The globals of `swap.h`.  Pointers are `none` if they are null. -/
structure Swap where
  /-- `*swap_lock`, by the holder of the lock. -/
  swapLock : Option (Option Nat)
  /-- `swap_block`, by the number of its sectors. -/
  swapBlock : Option Nat
  firstUnusedChunk : Nat
  swapSizeInChunks : Nat
  /-- The slots given back, as pointers to `struct page_chunk`; `none` before `list_init`. -/
  freePageChunks : Option (List Nat)
  /-- The slots in use; `none` before `hash_init`. -/
  usedPageChunks : Option (Hash Nat)
  /-- The member `chunk_address` of the `struct page_chunk` at an address. -/
  chunkAddress : Nat → Nat

namespace Swap

def sectorsPerPage : Nat := 8

/-- The globals when the kernel has been loaded: all zero. -/
def boot : Swap where
  swapLock := none
  swapBlock := none
  firstUnusedChunk := 0
  swapSizeInChunks := 0
  freePageChunks := none
  usedPageChunks := none
  chunkAddress := fun _ => 0

def swapFns (g : Swap) : HashFns Nat where
  hash := fun p => Hash.hashInt (g.chunkAddress p)
  less := fun p q => g.chunkAddress p < g.chunkAddress q

/-- `swap_init`; `device` is what `block_get_role (BLOCK_SWAP)` returns, by its sectors. -/
def swapInit (device : Option Nat) (g : Swap) : Except Halt Swap :=
  match g.swapLock with
  -- `ASSERT (lock != NULL)` in `lock_init`
  | none => .error .panic
  | some _ =>
    match device with
    -- `block_size (NULL)`
    | none => .error .kernelFault
    | some _ =>
      -- the size of the device goes to a local variable
      .ok { g with
        swapLock := some none
        usedPageChunks := some Hash.init
        freePageChunks := some [] }

/-- `list_empty (&free_page_chunks)`: in a list that is all zero, `head.next` is not the tail. -/
def freeListEmpty (g : Swap) : Bool := g.freePageChunks = some []

def swapTableFull (g : Swap) : Bool := g.freeListEmpty && g.swapSizeInChunks ≤ g.firstUnusedChunk

/-- `acquire_swap_lock`, by the thread `cur`; no other thread holds the lock. -/
def acquireSwapLock (cur : Nat) (g : Swap) : Except Halt Swap :=
  match g.swapLock with
  | none => .error .kernelFault
  | some _ => .ok { g with swapLock := some (some cur) }

/-- `release_swap_lock`: `lock_release (&swap_lock)` finds a lock that `cur` does not hold. -/
def releaseSwapLock (cur : Nat) (g : Swap) : Except Halt Swap :=
  match g.swapLock with
  | none => .error .kernelFault
  | some holder => if holder = some cur then .error .panic else .ok g

/-- The transfer of one slot to or from `swap_block`: a null device is followed, and a slot past its
    end is a panic of `check_sector`. -/
def transferChunk (g : Swap) (chunk : Nat) : Except Halt Unit :=
  match g.swapBlock with
  | none => .error .kernelFault
  | some sectors =>
    if chunk * sectorsPerPage + sectorsPerPage ≤ sectors then .ok () else .error .panic

/-- `p->chunk_address = key`, through a pointer that is not initialised.  If it points to one of the
    slots the kernel has linked, what follows is not to be told. -/
def setWildChunk (g : Swap) (wild : Option Nat) (key : Nat) : Except Halt (Nat × Swap) :=
  match wild with
  | none => .error .kernelFault
  | some p =>
    if p ∈ g.freePageChunks.getD [] ++ (g.usedPageChunks.getD Hash.init).elems then
      .error .overrun
    else .ok (p, { g with chunkAddress := Function.update g.chunkAddress p key })

/-- `hash_insert (&used_page_chunks, &p->h_elem)`. -/
def useChunk (g : Swap) (memory : Bool) (p : Nat) : Except Halt Swap :=
  match g.usedPageChunks with
  | none => .error .kernelFault
  | some used => .ok { g with usedPageChunks := some (used.hashInsert g.swapFns memory p).2 }

/-- `swap_write`: the slot, and the globals. -/
def swapWrite (cur : Nat) (wild : Option Nat) (memory : Bool) (g : Swap) :
    Except Halt (Nat × Swap) := do
  let g ← g.acquireSwapLock cur
  match g.freePageChunks with
  -- `list_begin` of a list that is all zero is null
  | none => .error .kernelFault
  | some (p :: rest) =>
    let chunkAddr := g.chunkAddress p
    g.transferChunk chunkAddr
    let g ← { g with freePageChunks := some rest }.useChunk memory p
    let g ← g.releaseSwapLock cur
    return (chunkAddr, g)
  | some [] =>
    let chunkAddr := g.firstUnusedChunk
    g.transferChunk chunkAddr
    let (p, g) ← g.setWildChunk wild chunkAddr
    let g ← g.useChunk memory p
    let g ← { g with firstUnusedChunk := chunkAddr + 1 }.releaseSwapLock cur
    return (chunkAddr, g)

def swapRead (cur : Nat) (wild : Option Nat) (memory : Bool) (key : Nat) (g : Swap) :
    Except Halt Swap := do
  let g ← g.acquireSwapLock cur
  let (p, g) ← g.setWildChunk wild key
  match g.usedPageChunks with
  | none => .error .kernelFault
  | some used =>
    match used.hashDelete g.swapFns memory p with
    | (none, _) => g.releaseSwapLock cur
    | (some found, used) =>
      g.transferChunk (g.chunkAddress found)
      { g with
        usedPageChunks := some used
        freePageChunks := g.freePageChunks.map (· ++ [found]) }.releaseSwapLock cur

def swapReadOnly (cur : Nat) (wild : Option Nat) (key : Nat) (g : Swap) : Except Halt Swap := do
  let g ← g.acquireSwapLock cur
  let (p, g) ← g.setWildChunk wild key
  match g.usedPageChunks with
  | none => .error .kernelFault
  | some used =>
    match used.hashFind g.swapFns p with
    | none => g.releaseSwapLock cur
    | some found =>
      g.transferChunk (g.chunkAddress found)
      g.releaseSwapLock cur

/-! ## No write returns -/

section Stopped

variable {cur : Nat} {g g' : Swap}

theorem acquireSwapLock_holder (h : g.acquireSwapLock cur = .ok g') :
    g'.swapLock = some (some cur) := by
  unfold acquireSwapLock at h
  split at h
  · cases h
  · cases h
    rfl

theorem setWildChunk_lock {wild : Option Nat} {key : Nat} {r : Nat × Swap}
    (h : g.setWildChunk wild key = .ok r) : r.2.swapLock = g.swapLock := by
  unfold setWildChunk at h
  split at h
  · cases h
  · split at h
    · cases h
    · cases h
      rfl

theorem useChunk_lock {memory : Bool} {p : Nat} (h : g.useChunk memory p = .ok g') :
    g'.swapLock = g.swapLock := by
  unfold useChunk at h
  split at h
  · cases h
  · cases h
    rfl

theorem releaseSwapLock_held (h : g.swapLock = some (some cur)) (Q : Swap → Prop) :
    Returns Q (g.releaseSwapLock cur) := by
  have he : g.releaseSwapLock cur = .error .panic := by simp [releaseSwapLock, h]
  rw [he]
  exact error _ _

/-- `swap_write` does not return: the lock it has taken cannot be released. -/
theorem swapWrite_stops (cur : Nat) (wild : Option Nat) (memory : Bool) (g : Swap) :
    Returns (fun _ => False) (g.swapWrite cur wild memory) := by
  refine bind fun g1 h1 => ?_
  have hl1 := acquireSwapLock_holder h1
  split
  · exact error _ _
  · refine bind fun _ _ => bind fun g2 h2 => bind fun g3 h3 => ?_
    exact (releaseSwapLock_held ((useChunk_lock h2).trans hl1) (fun _ => False) g3 h3).elim
  · refine bind fun _ _ => bind fun r h2 => bind fun g3 h3 =>
      bind fun g4 h4 => ?_
    have hl3 : g3.swapLock = some (some cur) :=
      (useChunk_lock h3).trans ((setWildChunk_lock h2).trans hl1)
    exact absurd h4 (by simp [releaseSwapLock, hl3])

end Stopped

/-! ## The accounting of slots -/

inductive SwapCall where
  | write (cur : Nat) (wild : Option Nat) (memory : Bool)
  | read (cur : Nat) (wild : Option Nat) (memory : Bool) (key : Nat)

/-- The table, and the keys that `swap_write` has returned and `swap_read` has not been given. -/
structure Slots where
  swap : Swap
  inUse : List Nat

/-- The uses of the table that its callers may make: to write when it is not full, and to read a key
    that is in use. -/
def swapMachine : Machine Slots SwapCall Halt where
  enabled s a :=
    match a with
    | .write .. => s.swap.swapTableFull = false
    | .read _ _ _ key => key ∈ s.inUse
  step s a :=
    match a with
    | .write cur wild memory => do
      let (key, swap) ← s.swap.swapWrite cur wild memory
      return { swap := swap, inUse := key :: s.inUse }
    | .read cur wild memory key => do
      let swap ← s.swap.swapRead cur wild memory key
      return { swap := swap, inUse := s.inUse.erase key }

/-- The three places agree, in a state where the keys `inUse` are in use, on a device of `n` slots:
    the table is full exactly if all are in use, a write comes back with a new one, and a read comes
    back. -/
structure Accounts (n : Nat) (s : Slots) : Prop where
  full_iff : s.swap.swapTableFull = true ↔ s.inUse.length = n
  write : s.swap.swapTableFull = false → ∀ cur wild memory, ∃ key swap,
    s.swap.swapWrite cur wild memory = .ok (key, swap) ∧ key < n ∧ key ∉ s.inUse
  read : ∀ key ∈ s.inUse, ∀ cur wild memory, ∃ swap, s.swap.swapRead cur wild memory key = .ok swap

/-- `swap_init`, with the pointer `swap_lock` as given, sets up a table on a device of so many
    sectors that accounts for its slots from then on. -/
def SwapAccounting (swapLock : Option (Option Nat)) (sectors : Nat) : Prop :=
  ∃ g, { boot with swapLock := swapLock }.swapInit (some sectors) = .ok g ∧
    ∀ tr s, swapMachine.Run { swap := g, inUse := [] } tr s → Accounts (sectors / sectorsPerPage) s

/-- The table that `swap_init` would set up if `swap_lock` pointed to a lock. -/
def shadowed : Swap :=
  { boot with swapLock := some none, usedPageChunks := some Hash.init, freePageChunks := some [] }

/-- From a table that is full with no key in use nothing happens. -/
theorem run_shadowed {tr : List (Slots × SwapCall)} {s : Slots}
    (h : swapMachine.Run { swap := shadowed, inUse := [] } tr s) :
    s = { swap := shadowed, inUse := [] } := by
  refine h.invariant (I := fun s => s = { swap := shadowed, inUse := [] }) rfl ?_
  rintro s a s' rfl he -
  cases a with
  | write => cases he
  | read => cases he

theorem accounting_of_lock (holder : Option Nat) (sectors : Nat) :
    SwapAccounting (some holder) sectors ↔ sectors / sectorsPerPage = 0 := by
  constructor
  · rintro ⟨g, hg, hrun⟩
    cases hg
    have hfull := (hrun [] _ Machine.Run.nil).full_iff
    exact (hfull.mp rfl).symm
  · intro hn
    refine ⟨shadowed, rfl, fun tr s hr => ?_⟩
    rw [run_shadowed hr, hn]
    refine ⟨⟨fun _ => rfl, fun _ => rfl⟩, fun h => ?_, fun key hk => ?_⟩
    · cases h
    · cases hk

/-- **Swap-slot accounting** holds on NO device: `swap_lock` is null when `swap_init` is called.
    With a lock in its place the table would be full from the start on every device, and account for
    its slots on one that has none. -/
theorem swap_slot_accounting (sectors : Nat) :
    ¬ SwapAccounting boot.swapLock sectors ∧
    ∀ holder, SwapAccounting (some holder) sectors ↔ sectors / sectorsPerPage = 0 := by
  refine ⟨fun h => ?_, fun holder => accounting_of_lock holder sectors⟩
  obtain ⟨g, hg, -⟩ := h
  cases hg

/-- A swap disk of 8 slots: `swap_init` panics. -/
theorem swap_init_panics :
    boot.swapInit (some 64) = .error .panic ∧ ¬ SwapAccounting boot.swapLock 64 := by
  refine ⟨rfl, ?_⟩
  rintro ⟨g, hg, -⟩
  cases hg

end Swap
end Pintos.Vm
