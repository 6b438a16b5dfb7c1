/-
  The page tables are a map from pages to frames.

  1. **Packing** — what `pdeCreate` and `pteCreateUser` pack is taken out again, and the flags of an
     entry may change without its address.

  2. **Tables apart** (`TablesOk`) — the tables of a directory are pages of their own: none is the
     directory, and no two entries have the same.  So `entry`, the word that is looked up for an
     address (zero if there is no table), changes at ONE page when a word of a table is written
     (`TablesOk.write`), and at none when a table is added (`TablesOk.create`).

  3. **Calls** (`Call`) — what a call does to the entries, and that it runs to its end.

  4. **Refinement** (`pagedir_refines_map`) — after any calls, what is found at an address is the
     frame last set for its page.
-/
import Pintos.Userprog.PageTable

namespace Pintos.Userprog.PageTable

open Base Function List BitVec Boot

/-! ## Assertions -/

theorem assert_bind {α : Type} {p : Prop} [Decidable p] (h : p) (f : Unit → Except PtFault α) :
    (assert p >>= f) = f () := by
  rw [assert, if_pos h]
  rfl

/-! ## Indices -/

variable {u v : Word}

theorem pgNo_eq : pgNo u = pgNo v ↔ u.toNat / 4096 = v.toNat / 4096 := by
  rw [pgNo, pgNo, ← toNat_inj, toNat_ushiftRight, toNat_ushiftRight,
    Nat.shiftRight_eq_div_pow, Nat.shiftRight_eq_div_pow]

theorem pdNo_eq (va : Word) : pdNo va = va.toNat / 4194304 := by
  rw [pdNo, toNat_ushiftRight, Nat.shiftRight_eq_div_pow]

theorem ptNo_eq (va : Word) : ptNo va = va.toNat / 4096 % 1024 := by
  rw [ptNo, toNat_ushiftRight, toNat_and, Nat.shiftRight_and_distrib, Nat.shiftRight_eq_div_pow]
  exact Nat.and_two_pow_sub_one_eq_mod (va.toNat / 4096) 10

/-- **An address is in the page that its two indices name.** -/
theorem pgNo_eq_iff : pgNo u = pgNo v ↔ pdNo u = pdNo v ∧ ptNo u = ptNo v := by
  rw [pgNo_eq, pdNo_eq, pdNo_eq, ptNo_eq, ptNo_eq]
  omega

theorem pdNo_lt (va : Word) : pdNo va < 1024 := by
  rw [pdNo_eq]
  omega

variable {va : Word}

theorem isUserVaddr_iff : isUserVaddr va = true ↔ va.toNat < 3221225472 := by
  rw [isUserVaddr, decide_eq_true_iff, lt_def]
  rfl

theorem pdNo_user : pdNo va < 768 ↔ isUserVaddr va = true := by
  rw [isUserVaddr_iff, pdNo_eq]
  omega

/-! ## Packing -/

section

variable {p : Word}

theorem physBase_le : physBase ≤ p ↔ 3221225472 ≤ p.toNat := by
  rw [le_def]
  rfl

section

variable (h : KernelPage p)
include h

theorem KernelPage.toNat_sub : (p - physBase).toNat = p.toNat - 3221225472 := by
  have hle := physBase_le.mp h.2
  rw [BitVec.toNat_sub, show physBase.toNat = 3221225472 from rfl]
  omega

theorem KernelPage.sub_mod : (p - physBase).toNat % 4096 = 0 := by
  have hmod := and_low_eq_zero.mp h.1
  rw [h.toNat_sub]
  omega

theorem KernelPage.sub_lt : p - physBase < physBase := by
  rw [lt_def, h.toNat_sub, show physBase.toNat = 3221225472 from rfl]
  omega

theorem KernelPage.ne_zero : p ≠ 0 := by
  intro h0
  have hle := physBase_le.mp h.2
  rw [h0] at hle
  cases hle

theorem KernelPage.vtop_eq : vtop p = .ok (p - physBase) := by
  rw [vtop, assert_bind (show isKernelVaddr p = true from decide_eq_true h.2)]

theorem KernelPage.ptov_eq : ptov (p - physBase) = .ok p := by
  rw [ptov, assert_bind h.sub_lt, sub_add_cancel]

/-- The address comes out of the word, whatever flags it was packed with. -/
theorem KernelPage.unpack {flags : Word} (hf : flags &&& pteAddr = 0) :
    (p - physBase ||| flags) &&& pteAddr = p - physBase := by
  rw [or_and_of_disjoint hf]
  exact and_high_of_aligned h.sub_mod

end

/-- The word that `pde_create` makes. -/
def pdeWord (pt : Word) : Word := pt - physBase ||| 7

/-- The word that `pte_create_user` makes. -/
def pteWord (page : Word) (writable : Bool) : Word :=
  page - physBase ||| (if writable then 7 else 5)

theorem KernelPage.pdeCreate_eq (h : KernelPage p) : pdeCreate p = .ok (pdeWord p) := by
  have hflags : p - physBase ||| pteU ||| pteP ||| pteW = pdeWord p := by
    rw [BitVec.or_assoc, BitVec.or_assoc]
    rfl
  rw [pdeCreate, assert_bind h.1, h.vtop_eq, ok_bind, hflags]

theorem KernelPage.pdeGetPt_eq (h : KernelPage p) : pdeGetPt (pdeWord p) = .ok p := by
  have hpresent : pdeWord p &&& pteP ≠ 0 := or_and_ne_zero (by decide) _
  have haddr : pdeWord p &&& pteAddr = p - physBase := h.unpack (by decide)
  rw [pdeGetPt, assert_bind hpresent, haddr, h.ptov_eq]

theorem pdeWord_ne_zero : pdeWord p ≠ 0 := by
  intro h
  have hpresent : pdeWord p &&& pteP ≠ 0 := or_and_ne_zero (by decide) _
  rw [h] at hpresent
  exact hpresent (by decide)

theorem KernelPage.pteCreateUser_eq (h : KernelPage p) (writable : Bool) :
    pteCreateUser p writable = .ok (pteWord p writable) := by
  have hflags : (p - physBase ||| pteP ||| (if writable then pteW else 0)) ||| pteU =
      pteWord p writable := by
    rw [BitVec.or_assoc, BitVec.or_assoc]
    cases writable <;> rfl
  rw [pteCreateUser, pteCreateKernel, assert_bind h.1, h.vtop_eq, ok_bind, ok_bind, hflags]

theorem pteWord_present (writable : Bool) : pteWord p writable &&& pteP ≠ 0 := by
  cases writable <;> exact or_and_ne_zero (by decide) _

theorem KernelPage.pteWord_addr (h : KernelPage p) (writable : Bool) :
    pteWord p writable &&& pteAddr = p - physBase := by
  cases writable <;> exact h.unpack (by decide)

end

/-! ## Tables apart -/

/-- The table that the entry `i` of the directory points to. -/
def tableAt (mem : PageMem) (pd : Word) (i : Nat) : Word := (mem pd i &&& pteAddr) + physBase

/-- The word that is looked up for an address; zero if there is no table. -/
def entry (mem : PageMem) (pd va : Word) : Word :=
  if mem pd (pdNo va) = 0 then 0 else mem (tableAt mem pd (pdNo va)) (ptNo va)

/-- The tables of the directory are pages of their own, and the entries for user addresses have
    addresses in physical memory. -/
structure TablesOk (mem : PageMem) (pd : Word) : Prop where
  page : KernelPage pd
  table : ∀ i < 1024, mem pd i ≠ 0 →
    KernelPage (tableAt mem pd i) ∧ tableAt mem pd i ≠ pd ∧ mem pd i = pdeWord (tableAt mem pd i)
  apart : ∀ i < 1024, ∀ j < 1024, mem pd i ≠ 0 → mem pd j ≠ 0 →
    tableAt mem pd i = tableAt mem pd j → i = j
  frame : ∀ i < 768, mem pd i ≠ 0 → ∀ j, mem (tableAt mem pd i) j &&& pteAddr < physBase

variable {i : Nat} {t : Word}

theorem KernelPage.tableAt_eq {mem : PageMem} {pd : Word} (h : KernelPage t)
    (hi : mem pd i = pdeWord t) : tableAt mem pd i = t := by
  have haddr : pdeWord t &&& pteAddr = t - physBase := h.unpack (by decide)
  rw [tableAt, hi, haddr, sub_add_cancel]

variable {mem : PageMem} {pd : Word}

namespace TablesOk

section

variable (h : TablesOk mem pd)
include h

theorem getPt (hi : i < 1024) (h0 : mem pd i ≠ 0) :
    pdeGetPt (mem pd i) = .ok (tableAt mem pd i) := by
  obtain ⟨hpage, -, hword⟩ := h.table i hi h0
  rw [hword]
  exact hpage.pdeGetPt_eq

theorem lookup (va : Word) :
    lookupPage mem pd va false none = .ok (if mem pd (pdNo va) = 0 then none
        else some (tableAt mem pd (pdNo va), ptNo va), mem) := by
  rw [lookupPage, assert_bind h.page.ne_zero,
    assert_bind (show (!false || isUserVaddr va) = true from rfl)]
  by_cases h0 : mem pd (pdNo va) = 0
  · rw [if_pos h0, if_pos h0, if_neg (by decide)]
  · rw [if_neg h0, if_neg h0, h.getPt (pdNo_lt va) h0, ok_bind]

theorem hasFlag_eq (flag va : Word) :
    hasFlag flag mem pd va = .ok (entry mem pd va &&& flag != 0) := by
  rw [hasFlag, h.lookup va, ok_bind, entry]
  by_cases h0 : mem pd (pdNo va) = 0
  · rw [if_pos h0, if_pos h0, show (0 : Word) &&& flag = 0 from zero_and]
    rfl
  · rw [if_neg h0, if_neg h0]

theorem entry_lt (hva : isUserVaddr va = true) : entry mem pd va &&& pteAddr < physBase := by
  rw [entry]
  split
  · decide
  · next h0 => exact h.frame _ (pdNo_user.mpr hva) h0 _

theorem getPage_eq (hva : isUserVaddr va = true) :
    pagedirGetPage mem pd va = .ok (if entry mem pd va &&& pteP ≠ 0 then
      some ((entry mem pd va &&& pteAddr) + physBase + pgOfs va) else none) := by
  have hlt := h.entry_lt hva
  rw [pagedirGetPage, assert_bind hva, h.lookup va, ok_bind]
  by_cases h0 : mem pd (pdNo va) = 0
  · have hentry : entry mem pd va = 0 := if_pos h0
    rw [if_pos h0, hentry, if_neg (by decide)]
  have hentry : entry mem pd va = mem (tableAt mem pd (pdNo va)) (ptNo va) := if_neg h0
  rw [hentry] at hlt ⊢
  rw [if_neg h0]
  by_cases hp : mem (tableAt mem pd (pdNo va)) (ptNo va) &&& pteP ≠ 0
  · simp only [if_pos hp]
    rw [pteGetPage, ptov, assert_bind hlt, ok_bind]
  · simp only [if_neg hp]

end

theorem getPage_kernel (hva : isUserVaddr va = false) :
    pagedirGetPage mem pd va = .error .assertion := by
  rw [pagedirGetPage, assert, if_neg (by rw [hva]; decide)]
  rfl

variable (h : TablesOk mem pd)
include h

/-- **What is observed** of an address is a matter of its entry. -/
theorem observed_congr {mem' : PageMem} (h' : TablesOk mem' pd)
    (he : entry mem' pd va = entry mem pd va) : observed mem' pd va = observed mem pd va := by
  have hflag : ∀ flag, hasFlag flag mem' pd va = hasFlag flag mem pd va := by
    intro flag
    rw [h.hasFlag_eq, h'.hasFlag_eq, he]
  have hget : pagedirGetPage mem' pd va = pagedirGetPage mem pd va := by
    cases hva : isUserVaddr va with
    | true => rw [h.getPage_eq hva, h'.getPage_eq hva, he]
    | false => rw [getPage_kernel hva, getPage_kernel hva]
  rw [observed, observed, hget, pagedirIsDirty, pagedirIsAccessed, hflag, hflag]

/-- **Writing a word of a table** changes the entry of one page. -/
theorem write {w : Word} (h0 : mem pd (pdNo u) ≠ 0)
    (hw : isUserVaddr u = true → w &&& pteAddr < physBase) :
    TablesOk (mem.set (tableAt mem pd (pdNo u)) (ptNo u) w) pd ∧
      ∀ va, entry (mem.set (tableAt mem pd (pdNo u)) (ptNo u) w) pd va =
        if pgNo va = pgNo u then w else entry mem pd va := by
  obtain ⟨-, hne, -⟩ := h.table _ (pdNo_lt u) h0
  generalize ht : tableAt mem pd (pdNo u) = t at hne ⊢
  -- the directory itself is not written
  have hdir : (mem.set t (ptNo u) w) pd = mem pd := update_of_ne (Ne.symm hne) _ _
  have htable : ∀ i, tableAt (mem.set t (ptNo u) w) pd i = tableAt mem pd i := by
    intro i
    rw [tableAt, tableAt, hdir]
  have hword : ∀ i < 1024, mem pd i ≠ 0 → ∀ j, mem.set t (ptNo u) w (tableAt mem pd i) j =
      if i = pdNo u ∧ j = ptNo u then w else mem (tableAt mem pd i) j := by
    intro i hi hi0 j
    by_cases hiu : i = pdNo u
    · rw [hiu, ht, PageMem.set, update_self]
      by_cases hj : j = ptNo u
      · rw [hj, update_self, if_pos ⟨rfl, rfl⟩]
      · rw [update_of_ne hj, if_neg (fun hc => hj hc.2)]
    · have hti : tableAt mem pd i ≠ t := by
        intro heq
        exact hiu (h.apart i hi _ (pdNo_lt u) hi0 h0 (heq.trans ht.symm))
      rw [PageMem.set, update_of_ne hti, if_neg (fun hc => hiu hc.1)]
  constructor
  · constructor
    · exact h.page
    · intro i hi hi0
      rw [hdir] at hi0 ⊢
      rw [htable]
      exact h.table i hi hi0
    · intro i hi j hj hi0 hj0 heq
      rw [hdir] at hi0 hj0
      rw [htable, htable] at heq
      exact h.apart i hi j hj hi0 hj0 heq
    · intro i hi hi0 j
      rw [hdir] at hi0
      rw [htable, hword i (by omega) hi0]
      split
      · next hc => exact hw (pdNo_user.mp (hc.1 ▸ hi))
      · exact h.frame i hi hi0 j
  · intro va
    rw [entry, entry, hdir]
    by_cases hva0 : mem pd (pdNo va) = 0
    · have hne' : pgNo va ≠ pgNo u := by
        intro heq
        rw [(pgNo_eq_iff.mp heq).1] at hva0
        exact h0 hva0
      rw [if_pos hva0, if_pos hva0, if_neg hne']
    · rw [if_neg hva0, if_neg hva0, htable, hword _ (pdNo_lt va) hva0]
      by_cases heq : pgNo va = pgNo u
      · rw [if_pos heq, if_pos (pgNo_eq_iff.mp heq)]
      · rw [if_neg heq, if_neg (fun hc => heq (pgNo_eq_iff.mpr hc))]

/-- **A table is added** without a change to any entry. -/
theorem create (ht : Fresh mem pd t) (h0 : mem pd i = 0) :
    TablesOk ((mem.zero t).set pd i (pdeWord t)) pd ∧
      ∀ va, entry ((mem.zero t).set pd i (pdeWord t)) pd va = entry mem pd va := by
  obtain ⟨hpage, hne, hfresh⟩ := ht
  generalize hm : (mem.zero t).set pd i (pdeWord t) = mem'
  have hdir : ∀ j, mem' pd j = if j = i then pdeWord t else mem pd j := by
    intro j
    rw [← hm, PageMem.set, update_self, PageMem.zero, update_of_ne (Ne.symm hne)]
    by_cases hj : j = i
    · rw [hj, update_self, if_pos rfl]
    · rw [update_of_ne hj, if_neg hj]
  have hzero : mem' t = fun _ => 0 := by
    rw [← hm, PageMem.set, update_of_ne hne, PageMem.zero, update_self]
  have hother : ∀ p, p ≠ pd → p ≠ t → mem' p = mem p := by
    intro p hp hpt
    rw [← hm, PageMem.set, update_of_ne hp, PageMem.zero, update_of_ne hpt]
  have hold : ∀ j < 1024, mem pd j ≠ 0 → tableAt mem pd j ≠ t := by
    intro j hj hj0 heq
    exact hfresh j hj hj0 (by rw [h.getPt hj hj0, heq])
  have hnew : tableAt mem' pd i = t := hpage.tableAt_eq (by rw [hdir, if_pos rfl])
  have hkeep : ∀ j, j ≠ i → tableAt mem' pd j = tableAt mem pd j := by
    intro j hj
    rw [tableAt, tableAt, hdir, if_neg hj]
  constructor
  · constructor
    · exact h.page
    · intro j hj hj0
      by_cases hji : j = i
      · rw [hji, hnew, hdir, if_pos rfl]
        exact ⟨hpage, hne, rfl⟩
      · rw [hdir, if_neg hji] at hj0 ⊢
        rw [hkeep j hji]
        exact h.table j hj hj0
    · intro j hj k hk hj0 hk0 heq
      by_cases hji : j = i
      · by_cases hki : k = i
        · rw [hji, hki]
        · rw [hdir, if_neg hki] at hk0
          rw [hji, hnew, hkeep k hki] at heq
          exact absurd heq.symm (hold k hk hk0)
      · rw [hdir, if_neg hji] at hj0
        by_cases hki : k = i
        · rw [hki, hnew, hkeep j hji] at heq
          exact absurd heq (hold j hj hj0)
        · rw [hdir, if_neg hki] at hk0
          rw [hkeep j hji, hkeep k hki] at heq
          exact h.apart j hj k hk hj0 hk0 heq
    · intro j hj hj0 l
      by_cases hji : j = i
      · rw [hji, hnew, hzero]
        show (0 : Word) &&& pteAddr < physBase
        decide
      · rw [hdir, if_neg hji] at hj0
        obtain ⟨-, hpd, -⟩ := h.table j (by omega) hj0
        rw [hkeep j hji, hother _ hpd (hold j (by omega) hj0)]
        exact h.frame j hj hj0 l
  · intro va
    rw [entry, entry]
    by_cases hva : pdNo va = i
    · rw [hva, hdir, if_pos rfl, if_neg pdeWord_ne_zero, hnew, hzero, if_pos h0]
    rw [hdir, if_neg hva]
    split
    · rfl
    · next hva0 =>
      obtain ⟨-, hpd, -⟩ := h.table _ (pdNo_lt va) hva0
      rw [hkeep _ hva, hother _ hpd (hold _ (pdNo_lt va) hva0)]

end TablesOk

/-! ## Calls -/

/-- What a call makes of the entry `e` of its page. -/
def Becomes (op : PagedirOp) (result : Bool) (e e' : Word) : Prop :=
  match op with
  | .setPage _ kpage writable _ => e' = if result then pteWord kpage writable else e
  | .clearPage _ => e' &&& pteP = 0
  | .setDirty _ _ => e' &&& pteP = e &&& pteP ∧ e' &&& pteAddr = e &&& pteAddr
  | .setAccessed _ _ => e' &&& pteP = e &&& pteP ∧ e' &&& pteAddr = e &&& pteAddr

/-- **A call** runs to its end, keeps the tables apart, and changes the entry of its page only. -/
def Call (b : Boot) (pd : Word) (mem : PageMem) (op : PagedirOp) : Prop :=
  ∃ result mem', op.run b pd mem = .ok (result, mem') ∧ TablesOk mem' pd ∧
    (∀ va, pgNo va ≠ pgNo op.page → entry mem' pd va = entry mem pd va) ∧
    ∀ va, pgNo va = pgNo op.page → Becomes op result (entry mem pd va) (entry mem' pd va)

variable {op : PagedirOp} {b : Boot}

theorem entry_page (h : pgNo v = pgNo u) : entry mem pd v = entry mem pd u := by
  obtain ⟨hd, ht⟩ := pgNo_eq_iff.mp h
  rw [entry, entry, hd, ht]

section

variable (h : TablesOk mem pd) {table : Option Word} {upage : Word}
include h

/-- `lookup_page` with `create`: memory for the table, or none; the entries are as they were. -/
theorem TablesOk.lookup_create (hu : isUserVaddr u = true) (ht : FreshTable mem pd table) :
    (lookupPage mem pd u true table = .ok (none, mem)) ∨ ∃ mem', lookupPage mem pd u true table =
          .ok (some (tableAt mem' pd (pdNo u), ptNo u), mem') ∧
        TablesOk mem' pd ∧ mem' pd (pdNo u) ≠ 0 ∧ ∀ va, entry mem' pd va = entry mem pd va := by
  have huser : (!true || isUserVaddr u) = true := by rw [hu]; rfl
  by_cases h0 : mem pd (pdNo u) = 0
  · cases table with
    | none =>
      left
      rw [lookupPage, assert_bind h.page.ne_zero, assert_bind huser, if_pos h0, if_pos rfl]
    | some t =>
      right
      have hword : (mem.zero t).set pd (pdNo u) (pdeWord t) pd (pdNo u) ≠ 0 := by
        rw [PageMem.set, update_self, update_self]
        exact pdeWord_ne_zero
      obtain ⟨hok, hentry⟩ := h.create ht h0
      refine ⟨_, ?_, hok, hword, hentry⟩
      rw [lookupPage, assert_bind h.page.ne_zero, assert_bind huser, if_pos h0, if_pos rfl]
      simp only [ht.1.pdeCreate_eq, ok_bind]
      rw [hok.getPt (pdNo_lt u) hword, ok_bind]
  · right
    refine ⟨mem, ?_, h, h0, fun _ => rfl⟩
    rw [lookupPage.eq_def, assert_bind h.page.ne_zero, assert_bind huser, if_neg h0,
      h.getPt (pdNo_lt u) h0, ok_bind]

theorem call_setPage (hne : pd ≠ b.initPageDir) {kpage : Word} {writable : Bool}
    (ha : Allowed b pd mem (.setPage upage kpage writable table)) :
    Call b pd mem (.setPage upage kpage writable table) := by
  obtain ⟨⟨hofs, huser⟩, ⟨hk, hram⟩, hfree, hfresh⟩ := ha
  have hnot : entry mem pd upage &&& pteP = 0 := by
    rw [h.getPage_eq huser] at hfree
    by_contra hp
    rw [if_pos hp] at hfree
    cases hfree
  rcases h.lookup_create huser hfresh with hl | ⟨mem1, hl, h1, h0, hentry⟩
  · refine ⟨false, mem, ?_, h, fun _ _ => rfl, fun _ _ => rfl⟩
    rw [PagedirOp.run, pagedirSetPage, assert_bind hofs, assert_bind hk.1, assert_bind huser,
      hk.vtop_eq, ok_bind, assert_bind hram, assert_bind hne, hl, ok_bind]
  · have hold : mem1 (tableAt mem1 pd (pdNo upage)) (ptNo upage) = entry mem pd upage := by
      rw [← hentry upage, entry, if_neg h0]
    obtain ⟨hok, hwrite⟩ := h1.write h0 (w := pteWord kpage writable)
      (fun _ => by rw [hk.pteWord_addr]; exact hk.sub_lt)
    refine ⟨true, _, ?_, hok, ?_, ?_⟩
    · rw [PagedirOp.run, pagedirSetPage, assert_bind hofs, assert_bind hk.1, assert_bind huser,
        hk.vtop_eq, ok_bind, assert_bind hram, assert_bind hne, hl, ok_bind]
      simp only
      rw [assert_bind (by rwa [hold]), hk.pteCreateUser_eq, ok_bind]
    · intro va (hva : pgNo va ≠ pgNo upage)
      rw [hwrite, if_neg hva, hentry]
    · intro va (hva : pgNo va = pgNo upage)
      rw [hwrite, if_pos hva]
      rfl

theorem call_clearPage
    (ha : Allowed b pd mem (.clearPage upage)) : Call b pd mem (.clearPage upage) := by
  obtain ⟨hofs, huser⟩ := ha
  have hrun : ∀ mem', pagedirClearPage mem pd upage = .ok mem' →
      (PagedirOp.clearPage upage).run b pd mem = .ok (true, mem') := by
    intro mem' heq
    rw [PagedirOp.run, heq]
    rfl
  rw [pagedirClearPage, assert_bind hofs, assert_bind huser, h.lookup upage, ok_bind] at hrun
  by_cases h0 : mem pd (pdNo upage) = 0
  · rw [if_pos h0] at hrun
    refine ⟨true, mem, hrun _ rfl, h, fun _ _ => rfl, fun va (hva : pgNo va = pgNo upage) => ?_⟩
    have hentry : entry mem pd upage = 0 := if_pos h0
    rw [entry_page hva, hentry]
    show (0 : Word) &&& pteP = 0
    decide
  · have hentry : entry mem pd upage = mem (tableAt mem pd (pdNo upage)) (ptNo upage) := if_neg h0
    rw [if_neg h0] at hrun
    simp only [← hentry] at hrun
    by_cases hp : entry mem pd upage &&& pteP ≠ 0
    · obtain ⟨hok, hwrite⟩ := h.write h0 (w := entry mem pd upage &&& ~~~pteP) (fun _ => by
        rw [andNot_and_of_disjoint (by decide)]
        exact h.entry_lt huser)
      refine ⟨true, _, hrun _ (if_pos hp), hok, ?_, ?_⟩
      · intro va (hva : pgNo va ≠ pgNo upage)
        rw [hwrite, if_neg hva]
      · intro va (hva : pgNo va = pgNo upage)
        rw [hwrite, if_pos hva]
        show (entry mem pd upage &&& ~~~pteP) &&& pteP = 0
        rw [BitVec.and_assoc, show ~~~pteP &&& pteP = 0 by decide]
        exact and_zero
    · refine ⟨true, mem, hrun _ (if_neg hp), h, fun _ _ => rfl,
        fun va (hva : pgNo va = pgNo upage) => ?_⟩
      rw [entry_page hva]
      exact not_not.mp hp

theorem call_setFlag {flag : Word} (vpage : Word) (value : Bool)
    (hp : flag &&& pteP = 0) (haddr : flag &&& pteAddr = 0) :
    ∃ mem', setFlag flag mem pd vpage value = .ok mem' ∧ TablesOk mem' pd ∧
      (∀ va, pgNo va ≠ pgNo vpage → entry mem' pd va = entry mem pd va) ∧
      ∀ va, pgNo va = pgNo vpage → entry mem' pd va &&& pteP = entry mem pd va &&& pteP ∧
        entry mem' pd va &&& pteAddr = entry mem pd va &&& pteAddr := by
  rw [setFlag, h.lookup vpage, ok_bind]
  by_cases h0 : mem pd (pdNo vpage) = 0
  · rw [if_pos h0]
    exact ⟨mem, rfl, h, fun _ _ => rfl, fun _ _ => ⟨rfl, rfl⟩⟩
  have hentry : entry mem pd vpage = mem (tableAt mem pd (pdNo vpage)) (ptNo vpage) := if_neg h0
  rw [if_neg h0]
  simp only [← hentry]
  generalize hw : (if value = true then entry mem pd vpage ||| flag
    else entry mem pd vpage &&& ~~~flag) = w
  have hmask : ∀ m, flag &&& m = 0 → w &&& m = entry mem pd vpage &&& m := by
    intro m hm
    rw [← hw]
    cases value with
    | true => exact or_and_of_disjoint hm _
    | false => exact andNot_and_of_disjoint hm _
  obtain ⟨hok, hwrite⟩ := h.write h0 (w := w) (fun huser => by
    rw [hmask _ haddr]
    exact h.entry_lt huser)
  refine ⟨_, rfl, hok, ?_, ?_⟩
  · intro va hva
    rw [hwrite, if_neg hva]
  · intro va hva
    rw [hwrite, if_pos hva, entry_page hva]
    exact ⟨hmask _ hp, hmask _ haddr⟩

theorem call_of_allowed (hne : pd ≠ b.initPageDir)
    (ha : Allowed b pd mem op) : Call b pd mem op := by
  cases op with
  | setPage => exact call_setPage h hne ha
  | clearPage => exact call_clearPage h ha
  | setDirty vpage dirty =>
    obtain ⟨mem', hrun, hok, hother, hpage⟩ :=
      call_setFlag h vpage dirty (show pteD &&& pteP = 0 by decide) (by decide)
    exact ⟨true, mem', by rw [PagedirOp.run, pagedirSetDirty, hrun]; rfl, hok, hother, hpage⟩
  | setAccessed vpage accessed =>
    obtain ⟨mem', hrun, hok, hother, hpage⟩ :=
      call_setFlag h vpage accessed (show pteA &&& pteP = 0 by decide) (by decide)
    exact ⟨true, mem', by rw [PagedirOp.run, pagedirSetAccessed, hrun]; rfl, hok, hother, hpage⟩

end

/-! ## Page directories that are created -/

/-- The directory of `paging_init`: nothing for user addresses, and a table of its own for each entry
    in use. -/
def KernelOnly (b : Boot) (mem : PageMem) : Prop :=
  ∀ i < 1024, mem b.initPageDir i = 0 ∨ 768 ≤ i ∧ mem b.initPageDir i = pdeWord (b.alloc i)

/-- The loop of `paging_init`: the directory so far, and a table to write to once there is one. -/
structure InitOk (b : Boot) (s : PageMem × Option Word) : Prop where
  kernelOnly : KernelOnly b s.1
  table : ∀ i < 1024, s.1 b.initPageDir i ≠ 0 → ∃ pt, s.2 = some pt
  apart : ∀ pt, s.2 = some pt → pt ≠ b.initPageDir

variable {n : Nat}

theorem pdNo_physical (h : n < 16384) :
    BitVec.ofNat 32 (n * 4096) < physBase ∧ 768 ≤ pdNo (BitVec.ofNat 32 (n * 4096) + physBase) := by
  have hnat : (BitVec.ofNat 32 (n * 4096)).toNat = n * 4096 := by
    rw [toNat_ofNat]
    omega
  have hbase : physBase.toNat = 3221225472 := rfl
  constructor
  · rw [lt_def, hnat, hbase]
    omega
  · rw [pdNo_eq, toNat_add, hnat, hbase]
    omega

theorem kernelPage_physical (h : n < 16384) :
    KernelPage (BitVec.ofNat 32 (n * 4096) + physBase) := by
  have hnat : (BitVec.ofNat 32 (n * 4096) + physBase).toNat = n * 4096 + 3221225472 := by
    rw [toNat_add, toNat_ofNat, show physBase.toNat = 3221225472 from rfl]
    omega
  constructor
  · rw [pgOfs]
    exact and_low_eq_zero.mpr (by rw [hnat]; omega)
  · rw [physBase_le, hnat]
    omega

section

variable {s : PageMem × Option Word}

theorem initTable_ok (h : InitOk b s) (hlow : 768 ≤ i) (hi : i < 1024) :
    ∃ s', initTable b s.1 s.2 i = .ok s' ∧ InitOk b s' ∧ ∃ pt, s'.2 = some pt := by
  by_cases h0 : s.1 b.initPageDir i = 0
  · have hdir : ∀ j, (s.1.zero (b.alloc i)).set b.initPageDir i (pdeWord (b.alloc i)) b.initPageDir
        j = if j = i then pdeWord (b.alloc i) else s.1 b.initPageDir j := by
      intro j
      rw [PageMem.set, update_self, PageMem.zero, update_of_ne (b.alloc_ne i hi).symm, update_apply]
    refine ⟨((s.1.zero (b.alloc i)).set b.initPageDir i (pdeWord (b.alloc i)), some (b.alloc i)),
      ?_, ⟨?_, fun _ _ _ => ⟨_, rfl⟩, ?_⟩, _, rfl⟩
    · rw [initTable, if_pos h0, (b.alloc_page i hi).pdeCreate_eq, ok_bind]
    · intro j hj
      simp only [hdir]
      by_cases hji : j = i
      · rw [if_pos hji, hji]
        exact .inr ⟨hlow, rfl⟩
      · rw [if_neg hji]
        exact h.kernelOnly j hj
    · intro pt hpt
      cases hpt
      exact b.alloc_ne i hi
  · exact ⟨s, by rw [initTable, if_neg h0], h, h.table i hi h0⟩

theorem initPage_ok (h : InitOk b s)
    (hn : n < b.initRamPages) : ∃ s', initPage b s n = .ok s' ∧ InitOk b s' := by
  have hram : n < 16384 := Nat.lt_of_lt_of_le hn b.ram_le
  obtain ⟨hlt, hlow⟩ := pdNo_physical hram
  have hpage := kernelPage_physical hram
  obtain ⟨s1, hs1, h1, pt, hpt⟩ := initTable_ok h hlow (pdNo_lt _)
  have hrun : ∀ writable, ∃ pte, pteCreateKernel (BitVec.ofNat 32 (n * 4096) + physBase) writable =
      .ok pte := fun writable =>
    ⟨_, by rw [pteCreateKernel, assert_bind hpage.1, hpage.vtop_eq, ok_bind]⟩
  obtain ⟨pte, hpte⟩ := hrun (!(b.textStart ≤ BitVec.ofNat 32 (n * 4096) + physBase &&
    BitVec.ofNat 32 (n * 4096) + physBase < b.textEnd))
  have hdir : s1.1.set pt (ptNo (BitVec.ofNat 32 (n * 4096) + physBase)) pte b.initPageDir =
      s1.1 b.initPageDir := update_of_ne (h1.apart pt hpt).symm _ _
  refine ⟨(s1.1.set pt (ptNo (BitVec.ofNat 32 (n * 4096) + physBase)) pte, some pt), ?_,
    ⟨?_, fun _ _ _ => ⟨_, rfl⟩, ?_⟩⟩
  · rw [initPage, ptov, assert_bind hlt, ok_bind, hs1, ok_bind]
    simp only [hpt, hpte, ok_bind]
  · intro i hi
    simp only [hdir]
    exact h1.kernelOnly i hi
  · intro pt' hpt'
    cases hpt'
    exact h1.apart pt hpt

/-- **`paging_init`** comes to its end, and enters kernel addresses only. -/
theorem pagingInit_ok (b : Boot) (mem : PageMem) :
    ∃ mem', pagingInit b mem = .ok mem' ∧ KernelOnly b mem' := by
  have hloop : ∀ (l : List Nat) (s : PageMem × Option Word), (∀ n ∈ l, n < b.initRamPages) →
      InitOk b s → ∃ s', l.foldlM (initPage b) s = .ok s' ∧ InitOk b s' := by
    intro l
    induction l with
    | nil => exact fun s _ h => ⟨s, rfl, h⟩
    | cons n l ih =>
      intro s hl h
      obtain ⟨s1, hs1, h1⟩ := initPage_ok h (hl n mem_cons_self)
      obtain ⟨s', hs', h'⟩ := ih s1 (fun m hm => hl m (mem_cons_of_mem _ hm)) h1
      exact ⟨s', by rw [foldlM_cons, hs1, ok_bind, hs'], h'⟩
  have hstart : InitOk b (mem.zero b.initPageDir, none) := by
    have hzero : mem.zero b.initPageDir b.initPageDir = fun _ => 0 := update_self _ _ _
    refine ⟨fun i _ => .inl (congrFun hzero i), fun i _ h0 => ?_, fun pt hpt => by cases hpt⟩
    exact absurd (congrFun hzero i) h0
  obtain ⟨s', hs', h'⟩ := hloop (range b.initRamPages) _ (fun n hn => mem_range.mp hn)
    hstart
  exact ⟨s'.1, by rw [pagingInit, hs', ok_bind], h'.kernelOnly⟩

/-- **A new page directory** has nothing for user addresses. -/
theorem tablesOk_create (hk : KernelOnly b mem) (hf : Fresh mem b.initPageDir pd) :
    TablesOk (update mem pd (mem b.initPageDir)) pd ∧ ∀ va, isUserVaddr va = true →
        entry (update mem pd (mem b.initPageDir)) pd va = 0 := by
  obtain ⟨hpage, -, hfresh⟩ := hf
  generalize hm : update mem pd (mem b.initPageDir) = mem'
  have hdir : mem' pd = mem b.initPageDir := by rw [← hm, update_self]
  have htable : ∀ i < 1024, mem' pd i ≠ 0 →
      768 ≤ i ∧ mem' pd i = pdeWord (b.alloc i) ∧ tableAt mem' pd i = b.alloc i := by
    intro i hi h0
    rw [hdir] at h0
    rcases hk i hi with hz | ⟨hlow, hword⟩
    · exact absurd hz h0
    · rw [← hdir] at hword
      exact ⟨hlow, hword, (b.alloc_page i hi).tableAt_eq hword⟩
  constructor
  · constructor
    · exact hpage
    · intro i hi h0
      obtain ⟨-, hword, ht⟩ := htable i hi h0
      rw [ht]
      refine ⟨b.alloc_page i hi, ?_, hword⟩
      intro heq
      refine hfresh i hi (hdir ▸ h0) ?_
      rw [← hdir, hword, (b.alloc_page i hi).pdeGetPt_eq, heq]
    · intro i hi j hj hi0 hj0 heq
      rw [(htable i hi hi0).2.2, (htable j hj hj0).2.2] at heq
      exact b.alloc_inj i hi j hj heq
    · intro i hi h0
      have hlow := (htable i (by omega) h0).1
      omega
  · intro va hva
    refine if_pos ?_
    by_contra h0
    have hlow := (htable _ (pdNo_lt va) h0).1
    have huser := pdNo_user.mpr hva
    omega

end

/-! ## Refinement -/

/-- The entry of a page whose frame is `frame`. -/
def FrameOf (e : Word) : Option Word → Prop
  | none => e &&& pteP = 0
  | some kpage => KernelPage kpage ∧ e &&& pteP ≠ 0 ∧ e &&& pteAddr = kpage - physBase

variable {frame : Option Word}

theorem FrameOf.congr {e e' : Word} (h : FrameOf e frame)
    (hp : e' &&& pteP = e &&& pteP) (ha : e' &&& pteAddr = e &&& pteAddr) : FrameOf e' frame := by
  cases frame with
  | none => exact hp.trans h
  | some => exact ⟨h.1, by rw [hp]; exact h.2.1, ha.trans h.2.2⟩

theorem TablesOk.getPage_frame
    (h : TablesOk mem pd) (hva : isUserVaddr va = true) (hf : FrameOf (entry mem pd va) frame) :
    pagedirGetPage mem pd va = .ok (frame.map (· + pgOfs va)) := by
  rw [h.getPage_eq hva]
  cases frame with
  | none =>
    have hnot : ¬ (entry mem pd va &&& pteP ≠ 0) := not_not.mpr hf
    rw [if_neg hnot]
    rfl
  | some =>
    rw [if_pos hf.2.1, hf.2.2, sub_add_cancel]
    rfl

section

variable {mem' : PageMem}

theorem setPage_of_false (h : op.run b pd mem = .ok (false, mem')) :
    ∃ upage kpage writable table, op = .setPage upage kpage writable table := by
  have hmap : ∀ m : Except PtFault PageMem, m.map (true, ·) ≠ .ok (false, mem') := by
    intro m hm
    cases m with
    | error => cases hm
    | ok => cases hm
  cases op with
  | setPage => exact ⟨_, _, _, _, rfl⟩
  | clearPage => exact absurd h (hmap _)
  | setDirty => exact absurd h (hmap _)
  | setAccessed => exact absurd h (hmap _)

theorem frame_step {result : Bool} (ha : Allowed b pd mem op)
    (hrun : op.run b pd mem = .ok (result, mem'))
    (hother : ∀ va, pgNo va ≠ pgNo op.page → entry mem' pd va = entry mem pd va)
    (hpage : ∀ va, pgNo va = pgNo op.page → Becomes op result (entry mem pd va) (entry mem' pd va))
    (hf : FrameOf (entry mem pd va) frame) :
    FrameOf (entry mem' pd va) (frameAfter b pd va frame (mem, op)) := by
  have hret : returned b pd mem op = result := by rw [returned, hrun]
  by_cases hva : pgNo va = pgNo op.page
  · have hb := hpage va hva
    cases op with
    | setPage upage kpage writable table =>
      cases result with
      | true =>
        have hnew : frameAfter b pd va frame (mem, .setPage upage kpage writable table) =
            some kpage := if_pos ⟨hva.symm, hret⟩
        have hkpage : KernelPage kpage := ha.2.1.1
        rw [hnew, show entry mem' pd va = pteWord kpage writable from hb]
        exact ⟨hkpage, pteWord_present writable, hkpage.pteWord_addr writable⟩
      | false =>
        have hnew : frameAfter b pd va frame (mem, .setPage upage kpage writable table) = frame :=
          if_neg (fun hc => absurd (hret.symm.trans hc.2) (by decide))
        rwa [hnew, show entry mem' pd va = entry mem pd va from hb]
    | clearPage upage =>
      have hnew : frameAfter b pd va frame (mem, .clearPage upage) = none := if_pos hva.symm
      rwa [hnew]
    | setDirty => exact hf.congr hb.1 hb.2
    | setAccessed => exact hf.congr hb.1 hb.2
  · have hnew : frameAfter b pd va frame (mem, op) = frame := by
      cases op with
      | setPage => exact if_neg (fun hc => hva hc.1.symm)
      | clearPage => exact if_neg (fun hc => hva hc.symm)
      | setDirty => rfl
      | setAccessed => rfl
    rwa [hnew, hother va hva]

/-- **Every run** keeps the tables apart and the entries as the calls have left them. -/
theorem pagedir_run {start : PageMem} {tr : List (PageMem × PagedirOp)}
    (hne : pd ≠ b.initPageDir) (hstart : TablesOk start pd)
    (hempty : ∀ va, isUserVaddr va = true → entry start pd va = 0)
    (hrun : (pagedirMachine b pd).Run start tr mem) :
    TablesOk mem pd ∧
      ∀ va, isUserVaddr va = true → FrameOf (entry mem pd va) (lastSet b pd tr va) := by
  refine hrun.history (J := fun tr mem => TablesOk mem pd ∧
    ∀ va, isUserVaddr va = true → FrameOf (entry mem pd va) (lastSet b pd tr va)) ?_ ?_
  · refine ⟨hstart, fun va hva => ?_⟩
    rw [hempty va hva]
    show (0 : Word) &&& pteP = 0
    decide
  · intro tr mem op mem' _ ⟨hok, hframes⟩ ha hs
    obtain ⟨result, mem1, hcall, hok', hother, hpage⟩ := call_of_allowed hok hne ha
    have hmem : mem1 = mem' := by
      have hs' : (op.run b pd mem).map (·.2) = .ok mem' := hs
      rw [hcall] at hs'
      exact Except.ok.inj hs'
    subst hmem
    refine ⟨hok', fun va hva => ?_⟩
    rw [lastSet, foldl_append]
    exact frame_step ha hcall hother hpage (hframes va hva)

end

/-- **The page tables refine a map.**  In a page directory that `pagedir_create` made, after any calls
    that the functions allow: what is found at a user address is the frame last set for its page and
    not cleared since; and every further call runs to its end, changes nothing that is observed at
    another page, and, if it is a `pagedir_set_page` that fails, nothing that is observed at all. -/
theorem pagedir_refines_map (b : Boot) (mem₀ kernel : PageMem) (hboot : pagingInit b mem₀ = .ok kernel)
    (mem : PageMem) (hkept : mem b.initPageDir = kernel b.initPageDir)
    (page pd : Word) (hpage : Fresh mem b.initPageDir page) (start : PageMem)
    (hcreate : pagedirCreate b mem (some page) = (some pd, start))
    (tr : List (PageMem × PagedirOp)) (now : PageMem)
    (hrun : (pagedirMachine b pd).Run start tr now) :
    (∀ va, isUserVaddr va = true →
      pagedirGetPage now pd va = .ok ((lastSet b pd tr va).map (· + pgOfs va))) ∧
    ∀ op, Allowed b pd now op → ∃ result next, op.run b pd now = .ok (result, next) ∧
      (∀ va, pgNo va ≠ pgNo op.page → observed next pd va = observed now pd va) ∧
      (result = false → ∀ va, observed next pd va = observed now pd va) := by
  obtain ⟨kernel', hkernel, honly⟩ := pagingInit_ok b mem₀
  have hk : KernelOnly b mem := by
    have heq : kernel' = kernel := Except.ok.inj (hkernel.symm.trans hboot)
    intro i hi
    rw [hkept, ← heq]
    exact honly i hi
  obtain ⟨hpd, hstart⟩ := Prod.mk.inj hcreate
  cases hpd
  obtain ⟨hok, hempty⟩ := tablesOk_create hk hpage
  rw [hstart] at hok hempty
  obtain ⟨hnow, hframes⟩ := pagedir_run hpage.2.1 hok hempty hrun
  refine ⟨fun va hva => hnow.getPage_frame hva (hframes va hva), fun op ha => ?_⟩
  obtain ⟨result, next, hcall, hnext, hother, hbecomes⟩ := call_of_allowed hnow hpage.2.1 ha
  refine ⟨result, next, hcall, fun va hva => hnow.observed_congr hnext (hother va hva), ?_⟩
  intro hfalse va
  refine hnow.observed_congr hnext ?_
  by_cases hva : pgNo va = pgNo op.page
  · obtain ⟨upage, kpage, writable, table, rfl⟩ := setPage_of_false (hfalse ▸ hcall)
    subst hfalse
    exact hbecomes va hva
  · exact hother va hva

/-- A machine with two pages of memory, and pages for tables wherever they are asked for. -/
def Boot.twoPages : Boot where
  initRamPages := 2
  textStart := 0xc0020000
  textEnd := 0xc0030000
  initPageDir := 0xc0005000
  alloc i := 0xc0010000 + BitVec.ofNat 32 (i * 4096)
  ram_le := by decide
  alloc_page := by decide +kernel
  alloc_ne := by decide +kernel
  alloc_inj i hi j hj h := by
    have hnat := congrArg BitVec.toNat h
    simp only [BitVec.toNat_add, BitVec.toNat_ofNat] at hnat
    omega

/-- Its memory after `paging_init`, which found it zeroed. -/
def Boot.twoPagesMem : PageMem :=
  match pagingInit Boot.twoPages (fun _ _ => 0) with
  | .ok mem => mem
  | .error _ => fun _ _ => 0

theorem Boot.pagingInit_twoPages :
    pagingInit Boot.twoPages (fun _ _ => 0) = .ok Boot.twoPagesMem := by
  obtain ⟨mem, hmem, -⟩ := pagingInit_ok twoPages (fun _ _ => 0)
  rw [twoPagesMem, hmem]

/-- A page is set, marked dirty and cleared, its neighbour in the same table stays: the second set
    takes no new table. -/
theorem pagedir_refines_map_two :
    ∃ tr now, (pagedirMachine Boot.twoPages 0xc0006000).Run
        (pagedirCreate Boot.twoPages Boot.twoPagesMem (some 0xc0006000)).2 tr now ∧
      lastSet Boot.twoPages 0xc0006000 tr 0x08048123 = none ∧
      pagedirGetPage now 0xc0006000 0x08049abc = .ok (some 0xc0001abc) := by
  obtain ⟨tr, now, hrun, hlast⟩ := (pagedirMachine twoPages 0xc0006000).exists_reached
    (pagedirCreate twoPages twoPagesMem (some 0xc0006000)).2
    [.setPage 0x08048000 0xc0000000 false (some 0xc0007000),
      .setPage 0x08049000 0xc0001000 true none, .setDirty 0x08048000 true, .clearPage 0x08048000]
    (fun tr _ => lastSet twoPages 0xc0006000 tr 0x08048123 = none ∧
      lastSet twoPages 0xc0006000 tr 0x08049abc = some 0xc0001000)
    (by decide +kernel)
  have hget := (pagedir_refines_map twoPages _ _ pagingInit_twoPages _ rfl 0xc0006000
    0xc0006000 (by decide +kernel) _ rfl tr now hrun).1 0x08049abc (by decide)
  rw [hlast.2] at hget
  exact ⟨tr, now, hrun, hlast.1, hget⟩

end Pintos.Userprog.PageTable
