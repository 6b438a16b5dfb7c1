/-
  Virtual addresses and the two-level page directory (`threads/vaddr.h`, `threads/pte.h`,
  `userprog/pagedir.c`).

  Addresses are `Nat`s below 2^32.  A page directory entry that is zero has no page table; page
  tables are functions of their ten-bit index, and an entry keeps its other bits when
  `pagedir_clear_page` takes its present bit away.

  The assertions of `pagedir_set_page` on its arguments are not modelled: its callers here pass page
  addresses.
-/
import Mathlib.Logic.Function.Basic

namespace Pintos.Userprog

open Function

/-! ## Addresses -/

def pgSize : Nat := 4096

def physBase : Nat := 0xc0000000

def addrSpace : Nat := 4294967296

def pgOfs (va : Nat) : Nat := va % pgSize

def pgRoundDown (va : Nat) : Nat := va - pgOfs va

def ptNo (va : Nat) : Nat := va / pgSize % 1024

def pdNo (va : Nat) : Nat := va / pgSize / 1024

def isUserVaddr (va : Nat) : Bool := va < physBase

/-- The regions of memory `[a, a + n)` and `[b, b + m)` have no byte in common. -/
def Apart (a n b m : Nat) : Prop := a + n ≤ b ∨ b + m ≤ a

theorem pgRoundDown_indices (va : Nat) :
    ptNo (pgRoundDown va) = ptNo va ∧ pdNo (pgRoundDown va) = pdNo va := by
  have h : pgRoundDown va / pgSize = va / pgSize := by
    simp only [pgRoundDown, pgOfs, pgSize]
    omega
  exact ⟨by rw [ptNo, h, ptNo], by rw [pdNo, h, pdNo]⟩

/-! ## Page tables -/

/-- A page table entry; a zeroed one is not present. -/
structure Pte where
  /-- `PTE_P`. -/
  present : Bool
  /-- `PTE_W`. -/
  writable : Bool
  /-- `PTE_U`. -/
  user : Bool
  /-- The kernel address of the page. -/
  page : Nat
  deriving DecidableEq

/-- A page directory: the page table of each directory index, if there is one. -/
abbrev PageDir := Nat → Option (Nat → Pte)

/-- `lookup_page (pd, vaddr, false)`, with the entry for the pointer to it. -/
def lookupPage (pd : PageDir) (vaddr : Nat) : Option Pte :=
  match pd (pdNo vaddr) with
  | none => none
  | some pt => some (pt (ptNo vaddr))

/-- `pagedir_get_page (pd, uaddr)`; `none` is a null pointer. -/
def pagedirGetPage (pd : PageDir) (uaddr : Nat) : Option Nat :=
  match lookupPage pd uaddr with
  | none => none
  | some pte => if pte.present then some (pte.page + pgOfs uaddr) else none

/-- The page table entry of a page that has been mapped. -/
def pteCreateUser (page : Nat) (writable : Bool) : Pte :=
  { present := true, writable := writable, user := true, page := page }

/-- A page table that `palloc_get_page (PAL_ZERO)` returned. -/
def zeroTable : Nat → Pte :=
  fun _ => { present := false, writable := false, user := false, page := 0 }

/-- `pagedir_set_page`; `pageTable` says whether there is memory for a page table, if it takes one.
    `none` is a failure. -/
def pagedirSetPage (pd : PageDir) (upage kpage : Nat) (writable pageTable : Bool) :
    Option PageDir :=
  let set (pt : Nat → Pte) : PageDir := update pd (pdNo upage)
    (some (update pt (ptNo upage) (pteCreateUser kpage writable)))
  match pd (pdNo upage) with
  | some pt => some (set pt)
  | none => if pageTable then some (set zeroTable) else none

def pagedirClearPage (pd : PageDir) (upage : Nat) : PageDir :=
  match pd (pdNo upage) with
  | none => pd
  | some pt =>
    update pd (pdNo upage)
      (some (update pt (ptNo upage) { pt (ptNo upage) with present := false }))

def installPage (pd : PageDir) (upage kpage : Nat) (writable pageTable : Bool) : Option PageDir :=
  if (pagedirGetPage pd upage).isNone then pagedirSetPage pd upage kpage writable pageTable
  else none

theorem lookupPage_roundDown (pd : PageDir) (va : Nat) :
    lookupPage pd (pgRoundDown va) = lookupPage pd va := by
  obtain ⟨h1, h2⟩ := pgRoundDown_indices va
  rw [lookupPage, lookupPage, h1, h2]

variable {writable pageTable : Bool} {pd pd' : PageDir} {u v kpage upage : Nat}

attribute [local simp] lookupPage

theorem lookupPage_set (h : pagedirSetPage pd upage kpage writable pageTable = some pd') :
    lookupPage pd' upage = some (pteCreateUser kpage writable) := by
  unfold pagedirSetPage at h
  cases hp : pd (pdNo upage) with
  | some =>
    rw [hp] at h
    cases h
    simp
  | none =>
    rw [hp] at h
    cases pageTable with
    | false => simp at h
    | true =>
      cases h
      simp

section

variable (hu : u % pgSize = 0)
include hu

theorem indices_inj (hv : v % pgSize = 0)
    (hp : pdNo u = pdNo v) (ht : ptNo u = ptNo v) : u = v := by
  simp only [pdNo, ptNo, pgSize] at hu hv hp ht
  omega

theorem getPage_update (hv : v % pgSize = 0)
    (pt : Nat → Pte) (pte : Pte) (hpt : pd (pdNo u) = some pt ∨ pd (pdNo u) = none ∧ pt = zeroTable) :
    pagedirGetPage
        (update pd (pdNo u) (some (update pt (ptNo u) pte))) v =
      if v = u then (if pte.present then some pte.page else none) else pagedirGetPage pd v := by
  have hofs : pgOfs v = 0 := hv
  by_cases hvu : v = u
  · rw [if_pos hvu, ← hvu]
    simp [pagedirGetPage, hofs]
  rw [if_neg hvu]
  by_cases hpd : pdNo v = pdNo u
  · have htn : ptNo v ≠ ptNo u := fun ht => hvu (indices_inj hv hu hpd ht)
    rcases hpt with hpt | ⟨hpt, rfl⟩
    · simp [pagedirGetPage, hpd, hpt, update_of_ne htn]
    · simp [pagedirGetPage, hpd, hpt, update_of_ne htn, zeroTable]
  · simp [pagedirGetPage, update_of_ne hpd]

/-- **Mapping a page** changes what is at that page, and nothing else. -/
theorem getPage_set (h : pagedirSetPage pd u kpage writable pageTable = some pd')
    (hv : v % pgSize = 0) :
    pagedirGetPage pd' v = if v = u then some kpage else pagedirGetPage pd v := by
  unfold pagedirSetPage at h
  cases hp : pd (pdNo u) with
  | some pt =>
    rw [hp] at h
    cases h
    exact getPage_update hu hv pt (pteCreateUser kpage writable) (.inl hp)
  | none =>
    rw [hp] at h
    cases pageTable with
    | false => cases h
    | true =>
      cases h
      exact getPage_update hu hv zeroTable (pteCreateUser kpage writable) (.inr ⟨hp, rfl⟩)

theorem getPage_clear (hv : v % pgSize = 0) :
    pagedirGetPage (pagedirClearPage pd u) v = if v = u then none else pagedirGetPage pd v := by
  unfold pagedirClearPage
  cases hp : pd (pdNo u) with
  | some pt => exact getPage_update hu hv pt _ (.inl hp)
  | none =>
    by_cases hvu : v = u
    · simp [pagedirGetPage, hvu, hp]
    · rw [if_neg hvu]

end

/-- It can be set unless a page table is needed and not to be had. -/
theorem pagedirSetPage_eq_none :
    pagedirSetPage pd upage kpage writable pageTable = none ↔
      pd (pdNo upage) = none ∧ pageTable = false := by
  unfold pagedirSetPage
  cases hp : pd (pdNo upage) with
  | some => simp
  | none => cases pageTable <;> simp

end Pintos.Userprog
