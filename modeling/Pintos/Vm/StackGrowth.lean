/-
  How far the stack grows.

  `page_fault` holds the stack POINTER against `MAX_STACK`, and then maps the page of the FAULT
  ADDRESS, which may be `OVERFLOW_LIMIT` bytes below it.

  1. **One fault** (`stack_growth_iff`) — the page that is mapped lies within the limit EXACTLY IF the
     fault address does.

  2. **Whole runs** — the stack never gets further than ONE page past its limit (`run_pages`), which is
     kept exactly by those runs in which no fault address is below it (`run_within_iff`).
-/
import Pintos.Vm.PageFault

namespace Pintos.Vm

open Base Userprog Option

def stackLimit : Nat := physBase - maxStack

/-- The page lies in `[bottom, PHYS_BASE)`. -/
def PageWithin (bottom v : Nat) : Prop := bottom ≤ v ∧ v + pgSize ≤ physBase

/-- A page that is mapped now, and was not before. -/
def Installs (pd pd' : PageDir) (v : Nat) : Prop :=
  v % pgSize = 0 ∧ pagedirGetPage pd v = none ∧ pagedirGetPage pd' v ≠ none

/-- **The fault grows the stack**: the handler gets to `new_page_on_stack`, which is successful. -/
structure GrowsStack (c : Choices) (vm : Memory) (f : PageFault) (vm' : Memory) : Prop where
  user : f.user = true
  address : isUserVaddr f.faultAddr = true
  notPresent : f.notPresent = true
  absent : sptGet vm f.faultAddr = none
  near : f.nearStack = true
  grown : newPageOnStack c vm f.esp f.faultAddr = .ok (true, vm')

/-- The page `u` has been mapped and entered, and nothing else. -/
structure Adds (u : Nat) (vm vm' : Memory) : Prop where
  fresh : pagedirGetPage vm.pagedir u = none
  mapped : ∀ v, v % pgSize = 0 →
    (pagedirGetPage vm'.pagedir v ≠ none ↔ v = u ∨ pagedirGetPage vm.pagedir v ≠ none)
  entered : ∀ v, vm'.spt v ≠ none ↔ v = u ∨ vm.spt v ≠ none

section

variable {c : Choices} {vm vm' : Memory} {f : PageFault} {u addr : Nat} {pg : Page}

/-! ## Pages that are brought in -/

theorem pgRoundDown_mod (va : Nat) : pgRoundDown va % pgSize = 0 := by
  rw [pgRoundDown, pgOfs, pgSize]
  omega

theorem ftAdd_keeps (h : ftAdd c vm u = .ok (addr, vm')) :
    vm'.pagedir = vm.pagedir ∧ vm'.spt = vm.spt := by
  rcases ftAdd_cases c vm u with ⟨-, a, q, hadd⟩ | ⟨-, -, hadd⟩ | ⟨-, -, -, hadd⟩
  · rw [hadd] at h
    cases h
    exact ⟨rfl, rfl⟩
  · rw [hadd] at h
    cases h
  · rw [hadd] at h
    cases h

theorem installPage_maps {pd pd' : PageDir} {kpage : Nat} {writable pageTable : Bool}
    (hu : u % pgSize = 0) (h : installPage pd u kpage writable pageTable = some pd') :
    pagedirGetPage pd u = none ∧ ∀ v, v % pgSize = 0 →
      (pagedirGetPage pd' v ≠ none ↔ v = u ∨ pagedirGetPage pd v ≠ none) := by
  unfold installPage at h
  split at h
  · rename_i hnone
    refine ⟨isNone_iff_eq_none.mp hnone, fun v hv => ?_⟩
    rw [getPage_set hu h hv]
    by_cases hvu : v = u
    · rw [if_pos hvu]
      exact iff_of_true (some_ne_none kpage) (.inl hvu)
    · rw [if_neg hvu, or_iff_right hvu]
  · cases h

theorem update_entered (spt : Nat → Option Page) (u : Nat) (pg : Page) (v : Nat) :
    Function.update spt u (some pg) v ≠ none ↔ v = u ∨ spt v ≠ none := by
  by_cases hvu : v = u
  · rw [hvu, Function.update_self]
    exact iff_of_true (some_ne_none pg) (.inl rfl)
  · rw [Function.update_of_ne hvu, or_iff_right hvu]

theorem installLoaded_adds (hu : u % pgSize = 0)
    (h : installLoaded c vm u addr pg = .ok (true, vm')) : Adds u vm vm' := by
  unfold installLoaded at h
  split at h
  · rename_i pd' hset
    cases h
    obtain ⟨hfresh, hmaps⟩ := installPage_maps hu hset
    exact ⟨hfresh, hmaps, update_entered vm.spt u _⟩
  · obtain ⟨vm1, -, hfail⟩ := bind_eq_ok.mp h
    cases hfail

theorem sptGetFrame_adds (hu : u % pgSize = 0) (h : sptGetFrame c vm u pg = .ok (true, vm')) :
    Adds u vm vm' := by
  obtain ⟨⟨addr, vm1⟩, hadd, h⟩ := bind_eq_ok.mp h
  obtain ⟨hpd, hspt⟩ := ftAdd_keeps hadd
  obtain ⟨loaded, -, h⟩ := bind_eq_ok.mp h
  split at h
  · have hadds := installLoaded_adds hu h
    exact ⟨hpd ▸ hadds.fresh, hpd ▸ hadds.mapped, hspt ▸ hadds.entered⟩
  · obtain ⟨vm2, -, hfail⟩ := bind_eq_ok.mp h
    cases hfail

theorem newPageOnStack_adds {esp : Nat} (h : newPageOnStack c vm esp addr = .ok (true, vm')) :
    stackLimit < esp ∧ Adds (pgRoundDown addr) vm vm' := by
  unfold newPageOnStack at h
  split at h
  · rename_i hgrow
    refine ⟨hgrow.1, ?_⟩
    obtain ⟨⟨kpage, vm1⟩, hadd, h⟩ := bind_eq_ok.mp h
    obtain ⟨hpd, hspt⟩ := ftAdd_keeps hadd
    dsimp only at h
    split at h
    · rename_i pd' hset
      cases h
      rw [hpd] at hset
      obtain ⟨hfresh, hmaps⟩ := installPage_maps (pgRoundDown_mod addr) hset
      refine ⟨hfresh, hmaps, fun v => ?_⟩
      rw [hspt]
      exact update_entered vm.spt (pgRoundDown addr) stackPage v
    · cases h
  · cases h

/-- **What a fault does** from which the handler returns: nothing, or it adds the page, which is in
    the supplemental page table or grows the stack. -/
theorem pageFault_cases (h : pageFault c vm f = .ok vm') :
    vm' = vm ∨ Adds (pgRoundDown f.faultAddr) vm vm' ∧
      (vm.spt (pgRoundDown f.faultAddr) ≠ none ∨ GrowsStack c vm f vm') := by
  have hsuccess : ∀ {m}, finish m = .ok vm' → m = .ok (true, vm') := by
    intro m hm
    match m, hm with
    | .ok (true, _), rfl => rfl
  unfold pageFault at h
  split at h
  · rename_i hhandled
    obtain ⟨⟨huser, haddress⟩, hnp⟩ : (f.user = true ∧ isUserVaddr f.faultAddr = true) ∧
        f.notPresent = true := by simpa using hhandled
    have hbring := hsuccess h
    unfold bringIn at hbring
    split at hbring
    · rename_i pg hpg
      refine .inr ⟨sptGetFrame_adds (pgRoundDown_mod f.faultAddr) hbring, .inl fun hnone => ?_⟩
      rw [sptGet, hnone] at hpg
      cases hpg
    · rename_i habsent
      split at hbring
      · rename_i hnear
        exact .inr ⟨(newPageOnStack_adds hbring).2, .inr ⟨huser, haddress, hnp, habsent, hnear, hbring⟩⟩
      · cases hbring
  · exact .inl (Except.ok.inj h).symm

/-! ## One fault -/

namespace GrowsStack

section

variable (h : GrowsStack c vm f vm')
include h

theorem returns : pageFault c vm f = .ok vm' := by
  rw [pageFault, if_pos (by rw [h.user, h.address, h.notPresent]; rfl), bringIn, h.absent]
  simp only [h.near, if_true, h.grown]
  rfl

theorem adds : Adds (pgRoundDown f.faultAddr) vm vm' := (newPageOnStack_adds h.grown).2

theorem installs_iff {v : Nat} :
    Installs vm.pagedir vm'.pagedir v ↔ v = pgRoundDown f.faultAddr := by
  constructor
  · rintro ⟨hv, hbefore, hafter⟩
    exact ((h.adds.mapped v hv).mp hafter).resolve_right (not_not.mpr hbefore)
  · rintro rfl
    exact ⟨pgRoundDown_mod _, h.adds.fresh, (h.adds.mapped _ (pgRoundDown_mod _)).mpr (.inl rfl)⟩

/-- The page ends below `PHYS_BASE`, and starts at the limit or above exactly if the address is not
    below it. -/
theorem pageWithin_iff :
    PageWithin stackLimit (pgRoundDown f.faultAddr) ↔ stackLimit ≤ f.faultAddr := by
  have haddr : f.faultAddr < physBase := of_decide_eq_true h.address
  have hlimit : stackLimit = 3212836864 := by decide
  rw [PageWithin, hlimit, pgRoundDown, pgOfs, pgSize]
  rw [show physBase = 3221225472 from rfl] at haddr ⊢
  omega

/-- **The stack gets at most one page past its limit.** -/
theorem pageWithin (hword : f.esp < addrSpace) :
    PageWithin (stackLimit - pgSize) (pgRoundDown f.faultAddr) := by
  have haddr : f.faultAddr < physBase := of_decide_eq_true h.address
  have hesp := (newPageOnStack_adds h.grown).1
  have hnear := h.near
  simp only [PageFault.nearStack, Bool.and_eq_true, decide_eq_true_eq] at hnear
  have hlimit : stackLimit = 3212836864 := by decide
  have hbase : physBase = 3221225472 := rfl
  have hspace : addrSpace = 4294967296 := rfl
  have hmax : maxStack = 8388608 := rfl
  rw [PageWithin, pgRoundDown, pgOfs, show pgSize = 4096 from rfl]
  rw [hspace] at hword hnear
  omega

end

end GrowsStack

end

/-- **How far one fault grows the stack**: the page that is mapped lies in
    `[PHYS_BASE - MAX_STACK, PHYS_BASE)` exactly if the fault address is not below that. -/
theorem stack_growth_iff (c : Choices) (vm : Memory) (f : PageFault) (vm' : Memory)
    (h : GrowsStack c vm f vm') :
    (∀ v, Installs vm.pagedir vm'.pagedir v → PageWithin stackLimit v) ↔
      stackLimit ≤ f.faultAddr := by
  rw [← h.pageWithin_iff]
  constructor
  · intro hall
    exact hall _ (h.installs_iff.mpr rfl)
  · intro hwithin v hv
    rwa [h.installs_iff.mp hv]

/-- A process that pushes below its first page. -/
theorem stack_growth_second_page :
    ∃ vm', GrowsStack plenty process
        { faultAddr := 0xbfffeffc, esp := 0xbffff000, errorCode := 6 } vm' ∧
      ∀ v, Installs process.pagedir vm'.pagedir v → PageWithin stackLimit v := by
  have hgrows : GrowsStack plenty process
      { faultAddr := 0xbfffeffc, esp := 0xbffff000, errorCode := 6 } _ :=
    ⟨rfl, rfl, rfl, rfl, rfl, rfl⟩
  exact ⟨_, hgrows, (stack_growth_iff _ _ _ _ hgrows).mpr (by decide)⟩

/-- The stack pointer is 4 bytes above the limit, and the address 32 bytes below that: the page BELOW
    the limit is mapped. -/
theorem stack_growth_below :
    ∃ vm', pageFault plenty process
        { faultAddr := stackLimit - 28, esp := stackLimit + 4, errorCode := 6 } = .ok vm' ∧
      Installs process.pagedir vm'.pagedir (stackLimit - pgSize) := by
  have hgrows : GrowsStack plenty process
      { faultAddr := stackLimit - 28, esp := stackLimit + 4, errorCode := 6 } _ :=
    ⟨rfl, by decide, rfl, rfl, by decide, rfl⟩
  exact ⟨_, hgrows.returns, hgrows.installs_iff.mpr (by decide)⟩

/-! ## Runs -/

/-- A process that is only interrupted by page faults, with a stack pointer of 32 bits. -/
def faulting : Machine Memory (Choices × PageFault) Halt where
  enabled _ a := a.2.esp < addrSpace
  step vm a := pageFault a.1 vm a.2

/-- The process has the page `v`, mapped or to be brought in. -/
def Has (vm : Memory) (v : Nat) : Prop := pagedirGetPage vm.pagedir v ≠ none ∨ vm.spt v ≠ none

/-- Every page it has was there in the beginning, or is one of the stack down to `bottom`. -/
def StackWithin (bottom : Nat) (vm₀ vm : Memory) : Prop :=
  ∀ v, v % pgSize = 0 → Has vm v → Has vm₀ v ∨ PageWithin bottom v

/-- The stack is not grown by an address below the limit. -/
def AboveLimit (vm : Memory) (a : Choices × PageFault) : Prop :=
  ∀ vm', GrowsStack a.1 vm a.2 vm' → stackLimit ≤ a.2.faultAddr

section

variable {vm₀ vm vm' : Memory} {tr : List (Memory × (Choices × PageFault))} {u v bottom : Nat}

theorem Adds.has_iff (h : Adds u vm vm') (hv : v % pgSize = 0) : Has vm' v ↔ v = u ∨ Has vm v := by
  rw [Has, h.mapped v hv, h.entered v, Has]
  tauto

/-- One fault: a page is added that the process had, or one of the stack. -/
theorem stackWithin_step {a : Choices × PageFault} (h : StackWithin bottom vm₀ vm)
    (hstep : pageFault a.1 vm a.2 = .ok vm')
    (hgrow : GrowsStack a.1 vm a.2 vm' → PageWithin bottom (pgRoundDown a.2.faultAddr)) :
    StackWithin bottom vm₀ vm' := by
  rcases pageFault_cases hstep with rfl | ⟨hadds, hcase⟩
  · exact h
  intro v hv hhas
  rcases (hadds.has_iff hv).mp hhas with rfl | hold
  · rcases hcase with hentered | hgrows
    · exact h _ hv (.inr hentered)
    · exact .inr (hgrow hgrows)
  · exact h v hv hold

section

variable (h : faulting.Run vm₀ tr vm)
include h

/-- **Pages of a process**, after any number of faults: those it had, and a stack that ends at most one
    page past its limit. -/
theorem run_pages : StackWithin (stackLimit - pgSize) vm₀ vm := by
  refine h.invariant (I := StackWithin (stackLimit - pgSize) vm₀) (fun v _ hv => .inl hv) ?_
  intro vm a vm' hin hword hstep
  exact stackWithin_step hin hstep fun hgrows => hgrows.pageWithin hword

theorem run_keeps : ∀ v, v % pgSize = 0 → Has vm₀ v → Has vm v := by
  refine h.invariant (I := fun vm => ∀ v, v % pgSize = 0 → Has vm₀ v → Has vm v)
    (fun _ _ hv => hv) ?_
  intro vm a vm' ih _ hstep v hv hhas
  have hold := ih v hv hhas
  rcases pageFault_cases hstep with rfl | ⟨hadds, -⟩
  · exact hold
  · exact (hadds.has_iff hv).mpr (.inr hold)

/-- **Which runs keep the limit**: those in which the stack is not grown by an address below it. -/
theorem run_within_iff : (∀ x ∈ Machine.states tr vm, StackWithin stackLimit vm₀ x) ↔
      ∀ p ∈ tr, AboveLimit p.1 p.2 := by
  refine h.always_iff (C := AboveLimit) (P := StackWithin stackLimit vm₀) ?_ ?_
  · intro tr vm hrun
    refine hrun.invariant (I := StackWithin stackLimit vm₀) (fun v _ hv => .inl hv) ?_
    intro vm a vm' hin henabled hstep
    refine stackWithin_step hin hstep fun hgrows => ?_
    exact hgrows.pageWithin_iff.mpr (henabled.2 vm' hgrows)
  · intro tr vm a vm' hrun _ hstep hnot hwithin
    obtain ⟨vm'', hgrows, hbelow⟩ := not_forall₂.mp hnot
    obtain rfl : vm' = vm'' := Except.ok.inj (hstep.symm.trans hgrows.returns)
    have hal := pgRoundDown_mod a.2.faultAddr
    rcases hwithin _ hal ((hgrows.adds.has_iff hal).mpr (.inl rfl)) with hstart | hpage
    · -- the page was neither mapped nor entered before the fault, so not in the beginning
      rcases run_keeps hrun _ hal hstart with hmapped | hentered
      · exact hmapped hgrows.adds.fresh
      · exact hentered hgrows.absent
    · exact hbelow (hgrows.pageWithin_iff.mp hpage)

end

end

/-- A push below the first page of the stack. -/
def push : Choices × PageFault := (plenty, ⟨0xbfffeffc, 0xbffff000, 6⟩)

theorem run_pages_push : ∃ vm, faulting.step process push = .ok vm ∧
    StackWithin (stackLimit - pgSize) process vm :=
  ⟨_, rfl, run_pages (.snoc .nil (by decide : push.2.esp < addrSpace) rfl)⟩

theorem run_within_push : ∃ vm, faulting.step process push = .ok vm ∧
    ∀ x ∈ [process, vm], StackWithin stackLimit process x := by
  have hword : faulting.enabled process push := (by decide : push.2.esp < addrSpace)
  refine ⟨_, rfl, (run_within_iff (.snoc .nil hword rfl)).mpr fun p hp vm' _ => ?_⟩
  cases List.mem_singleton.mp hp
  decide

end Pintos.Vm
