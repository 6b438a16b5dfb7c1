/-
  `list_sort` and `list_unique` with their links: the in-place natural merge sort of
  `lib/kernel/list.c`, and the loop that takes duplicates out.

  1. **Program** — the loops of the source on pointers, each with a bound on its turns.  The
     `ASSERT`s are run: `is_sorted` walks both runs before every merge, and the whole list at the end.

  2. **Refinement** — every loop does to the sequence what the function of the same name in
     `Pintos.Lib.List` does, a merge by one `list_splice` for each element that moves.  A pointer
     into the list is written as the FIRST CELL of what is left of it, the tail included.

  3. **The theorems** — what `list_sort` leaves (`list_sort_correct`) and what `list_unique` leaves
     in both lists (`listUnique_leads`), and that they end.
-/
import Pintos.Lib.List
import Pintos.Lib.ListLinks

namespace Pintos.Lib.Cells

open Base Links Function List Option

set_option linter.unusedSectionVars false

variable {P : Type} [DecidableEq P]

/-! ## Program -/

/-- `less (a, b, aux)`. -/
def callLess (less : P → P → Bool) : Option P → Option P → Except Fault Bool
  | some a, some b => .ok (less a b)
  | _, _ => .error .nullPointer

def isSortedLoop (H : Links P) (less : P → P → Bool) (b : Option P) :
    Nat → Option P → Except Fault Bool
  | 0, _ => .error .endless
  | fuel + 1, a => do
    let a ← listNext H a
    if a = b then return true
    if ← callLess less a (← listPrev H a) then return false
    isSortedLoop H less b fuel a

def isSorted (fuel : Nat) (H : Links P) (less : P → P → Bool) (a b : Option P) :
    Except Fault Bool :=
  if a ≠ b then isSortedLoop H less b fuel a else .ok true

def endOfRunLoop (H : Links P) (less : P → P → Bool) (b : Option P) :
    Nat → Option P → Except Fault (Option P)
  | 0, _ => .error .endless
  | fuel + 1, a => do
    let a ← listNext H a
    if a = b then return a
    if ← callLess less a (← listPrev H a) then return a
    endOfRunLoop H less b fuel a

def findEndOfRun (fuel : Nat) (H : Links P) (less : P → P → Bool) (a b : Option P) :
    Except Fault (Option P) := do
  assertThat a.isSome
  assertThat b.isSome
  assertThat (a ≠ b)
  endOfRunLoop H less b fuel a

def mergeLoop (less : P → P → Bool) (b1 : Option P) :
    Nat → Links P → Option P → Option P → Except Fault (Links P)
  | 0, H, a0, a1b0 => if a0 = a1b0 ∨ a1b0 = b1 then .ok H else .error .endless
  | fuel + 1, H, a0, a1b0 =>
    if a0 = a1b0 ∨ a1b0 = b1 then .ok H
    else do
      if !(← callLess less a1b0 a0) then
        mergeLoop less b1 fuel H (← listNext H a0) a1b0
      else
        let a1b0 ← listNext H a1b0
        let H ← listSplice H a0 (← listPrev H a1b0) a1b0
        mergeLoop less b1 fuel H a0 a1b0

def inplaceMerge (fuel : Nat) (H : Links P) (less : P → P → Bool) (a0 a1b0 b1 : Option P) :
    Except Fault (Links P) := do
  assertThat a0.isSome
  assertThat a1b0.isSome
  assertThat b1.isSome
  assertThat (← isSorted fuel H less a0 a1b0)
  assertThat (← isSorted fuel H less a1b0 b1)
  mergeLoop less b1 fuel H a0 a1b0

/-- The `for` loop of `list_sort`: one pass, counting the runs it puts out. -/
def passLoop (fuel : Nat) (less : P → P → Bool) (L : ListObj P) :
    Nat → Links P → Option P → Nat → Except Fault (Links P × Nat)
  | 0, H, a0, cnt => if a0 = listEnd L then .ok (H, cnt) else .error .endless
  | n + 1, H, a0, cnt =>
    if a0 = listEnd L then .ok (H, cnt)
    else do
      let a1b0 ← findEndOfRun fuel H less a0 (listEnd L)
      if a1b0 = listEnd L then return (H, cnt + 1)
      let b1 ← findEndOfRun fuel H less a1b0 (listEnd L)
      let H ← inplaceMerge fuel H less a0 a1b0 b1
      passLoop fuel less L n H b1 (cnt + 1)

/-- The `do … while (output_run_cnt > 1)` loop of `list_sort`, and the assertion after it. -/
def sortLoop (fuel : Nat) (less : P → P → Bool) (L : ListObj P) :
    Nat → Links P → Except Fault (Links P)
  | 0, _ => .error .endless
  | n + 1, H => do
    let (H, cnt) ← passLoop fuel less L fuel H (listBegin H L) 0
    if 1 < cnt then sortLoop fuel less L n H
    else
      assertThat (← isSorted fuel H less (listBegin H L) (listEnd L))
      return H

def listSort (fuel : Nat) (H : Links P) (L : ListObj P) (less : P → P → Bool) :
    Except Fault (Links P) :=
  sortLoop fuel less L fuel H

/-- The last statement of the branch of `list_unique` that removes an element. -/
def pushDuplicate (H : Links P) (elem : Option P) : Option (ListObj P) → Except Fault (Links P)
  | none => .ok H
  | some duplicates => listPushBack H duplicates elem

/-- The loop of `list_unique`. -/
def uniqueLoop (less : P → P → Bool) (L : ListObj P) (duplicates : Option (ListObj P)) :
    Nat → Links P → Option P → Except Fault (Links P)
  | 0, _, _ => .error .endless
  | fuel + 1, H, elem => do
    let next ← listNext H elem
    if next = listEnd L then return H
    if !(← callLess less elem next) && !(← callLess less next elem) then
      let (H, _) ← listRemove H next
      let H ← pushDuplicate H next duplicates
      uniqueLoop less L duplicates fuel H elem
    else uniqueLoop less L duplicates fuel H next

def listUnique (fuel : Nat) (H : Links P) (L : ListObj P) (duplicates : Option (ListObj P))
    (less : P → P → Bool) : Except Fault (Links P) :=
  if listEmpty H L then .ok H else uniqueLoop less L duplicates fuel H (listBegin H L)

/-! ## Refinement -/

section

variable {ι : Type} [DecidableEq ι] {hdr : ι → ListObj P} {H H' : Links P} {F F' : ι → List P}
  {i : ι} {less : P → P → Bool} {fuel m : Nat} {a b c : P} {xs ys l as bs mid : List P}

theorem WellFormed.listNext (h : WellFormed hdr H F) (hF : F i = xs ++ a :: ys) :
    Cells.listNext H (some a) = .ok (some (ys.headD (hdr i).tail)) := by
  have hj := h.joined (show F i = xs ++ [a] ++ ys by simpa using hF)
  rw [getLastD_concat] at hj
  exact listNext_eq hj.1

theorem WellFormed.listPrev (h : WellFormed hdr H F) (hF : F i = xs ++ a :: ys) :
    Cells.listPrev H (some (ys.headD (hdr i).tail)) = .ok (some a) := by
  have hj := h.joined (show F i = xs ++ [a] ++ ys by simpa using hF)
  rw [getLastD_concat] at hj
  exact listPrev_eq hj.2

/-- The cell after a stretch is not in it. -/
theorem WellFormed.ne_headD (h : WellFormed hdr H F) (hF : F i = xs ++ mid ++ ys) (hc : c ∈ mid) :
    ¬ some c = some (ys.headD (hdr i).tail) := by
  have hnd := h.nodup i
  simp only [hF, chain_append₃] at hnd
  rw [some.injEq]
  grind

theorem WellFormed.ne_end (h : WellFormed hdr H F) (hF : F i = xs ++ a :: ys) :
    ¬ some a = listEnd (hdr i) :=
  h.ne_headD (show F i = xs ++ (a :: ys) ++ [] by simpa using hF) mem_cons_self

/-- Two steps, of which the first changes the sequences of its lists only. -/
theorem Leads.trans {is : List ι} {H'' : Links P} {F'' : ι → List P}
    (h : Leads hdr H F is H' F') (hF : ∀ k, k ∉ is → F' k = F k)
    (h' : Leads hdr H' F' is H'' F'') : Leads hdr H F is H'' F'' where
  wellFormed := h'.wellFormed
  frame k hk := by
    have hsame := h'.frame k hk
    rw [hF k hk] at hsame
    exact (h.frame k hk).trans hsame

theorem Leads.trans_update (h : Leads hdr H F [i] H' (update F i l)) {H'' : Links P}
    (h' : Leads hdr H' (update F i l) [i] H'' F') : Leads hdr H F [i] H'' F' :=
  h.trans (fun _ hk => update_of_ne (by simpa using hk) ..) h'

section

variable (h : WellFormed hdr H F)
include h

theorem Leads.refl (hl : l = F i) : Leads hdr H F [i] H (update F i l) := by
  rw [hl, update_eq_self]
  exact ⟨h, fun k _ c _ => ⟨rfl, rfl⟩⟩

theorem isSortedLoop_eq (hF : F i = xs ++ (a :: as) ++ ys)
    (hsorted : Sorted less (a :: as)) (hfuel : as.length < fuel) :
    isSortedLoop H less (some (ys.headD (hdr i).tail)) fuel (some a) = .ok true := by
  induction as generalizing xs a fuel with
  | nil =>
    have hF' : F i = xs ++ a :: ys := by simpa using hF
    cases fuel with
    | zero => omega
    | succ =>
      rw [isSortedLoop, h.listNext hF', ok_bind, if_pos rfl]
      rfl
  | cons c as ih =>
    have hF1 : F i = xs ++ a :: (c :: (as ++ ys)) := by simpa using hF
    have hF2 : F i = (xs ++ [a]) ++ (c :: as) ++ ys := by simpa using hF
    obtain ⟨hhead, htail⟩ := pairwise_cons.mp hsorted
    cases fuel with
    | zero => omega
    | succ =>
      have hprev := h.listPrev hF1
      rw [headD_cons] at hprev
      rw [isSortedLoop, h.listNext hF1, ok_bind, headD_cons,
        if_neg (h.ne_headD hF2 (mem_cons_self ..)), hprev, ok_bind, callLess,
        hhead c (mem_cons_self ..)]
      exact ih hF2 htail (by simpa using hfuel)

theorem isSorted_eq (hF : F i = xs ++ as ++ ys) (hsorted : Sorted less as)
    (hfuel : as.length ≤ fuel) :
    isSorted fuel H less (some ((as ++ ys).headD (hdr i).tail)) (some (ys.headD (hdr i).tail)) =
      .ok true := by
  cases as with
  | nil => exact if_neg (fun hx => hx rfl)
  | cons =>
    rw [isSorted, cons_append, headD_cons, if_pos (h.ne_headD hF (mem_cons_self ..))]
    exact isSortedLoop_eq h hF hsorted hfuel

theorem endOfRunLoop_eq (hF : F i = xs ++ a :: as) (hfuel : as.length < fuel) :
    endOfRunLoop H less (listEnd (hdr i)) fuel (some a) =
      .ok (some ((Lib.findEndOfRun less a as).2.headD (hdr i).tail)) := by
  induction as generalizing xs a fuel with
  | nil =>
    cases fuel with
    | zero => omega
    | succ =>
      rw [endOfRunLoop, h.listNext hF, ok_bind, headD_nil, listEnd, if_pos rfl]
      rfl
  | cons c as ih =>
    have hF' : F i = (xs ++ [a]) ++ c :: as := by simpa using hF
    cases fuel with
    | zero => omega
    | succ =>
      have hprev := h.listPrev hF
      rw [headD_cons] at hprev
      rw [endOfRunLoop, h.listNext hF, ok_bind, headD_cons, if_neg (h.ne_end hF'), hprev,
        ok_bind, callLess, ok_bind, Lib.findEndOfRun]
      by_cases hlt : less c a = true
      · rw [if_pos hlt, if_pos hlt]
        rfl
      · rw [if_neg hlt, if_neg hlt]
        exact ih hF' (by simpa using hfuel)

end

theorem findEndOfRun_eq (less : P → P → Bool) (h : WellFormed hdr H F) (hF : F i = xs ++ a :: as)
    (hfuel : as.length < fuel) :
    findEndOfRun fuel H less (some a) (listEnd (hdr i)) =
      .ok (some ((Lib.findEndOfRun less a as).2.headD (hdr i).tail)) := by
  rw [findEndOfRun, assertThat_true (c := (some a).isSome) rfl, ok_bind,
    assertThat_true (c := (listEnd (hdr i)).isSome) rfl, ok_bind,
    assertThat_true (by simpa using h.ne_end hF), ok_bind]
  exact endOfRunLoop_eq h hF hfuel

theorem inplaceMerge_nil (less : P → P → Bool) (as : List P) : Lib.inplaceMerge less as [] = as := by
  cases as <;> rfl

theorem inplaceMerge_cons (less : P → P → Bool) (a b : P) (as bs : List P) :
    Lib.inplaceMerge less (a :: as) (b :: bs) =
      if less b a then b :: Lib.inplaceMerge less (a :: as) bs
      else a :: Lib.inplaceMerge less as (b :: bs) := rfl

/-- **The merge**: each element of the second run that is less than the first of the first run is
    spliced in before it. -/
theorem mergeLoop_leads (less : P → P → Bool) (h : WellFormed hdr H F) (hF : F i = xs ++ as ++ bs ++ ys) :
    ∃ H', (∀ fuel, as.length + bs.length ≤ fuel →
        mergeLoop less (some (ys.headD (hdr i).tail)) fuel H
          (some ((as ++ bs ++ ys).headD (hdr i).tail)) (some ((bs ++ ys).headD (hdr i).tail)) =
          .ok H') ∧
      Leads hdr H F [i] H' (update F i (xs ++ Lib.inplaceMerge less as bs ++ ys)) := by
  -- each turn shortens one of the two runs
  induction hn : as.length + bs.length generalizing xs as bs H F with
  | zero =>
    obtain ⟨rfl, rfl⟩ : as = [] ∧ bs = [] := by
      constructor <;> apply length_eq_zero_iff.mp <;> omega
    refine ⟨H, fun fuel _ => ?_, Leads.refl h ?_⟩
    · cases fuel <;> exact if_pos (.inl rfl)
    · rw [hF]
      simp [Lib.inplaceMerge]
  | succ n ih =>
    cases as with
    | nil =>
      refine ⟨H, fun fuel _ => ?_, Leads.refl h ?_⟩
      · cases fuel <;> exact if_pos (.inl rfl)
      · rw [hF]
        simp [Lib.inplaceMerge]
    | cons a as =>
      cases bs with
      | nil =>
        refine ⟨H, fun fuel _ => ?_, Leads.refl h ?_⟩
        · cases fuel <;> exact if_pos (.inr rfl)
        · rw [hF, inplaceMerge_nil]
          simp
      | cons b bs =>
        have hgo : ¬ (some a = some b ∨ some b = some (ys.headD (hdr i).tail)) := by
          rintro (hx | hx)
          · have hsplit : F i = xs ++ (a :: as) ++ (b :: bs ++ ys) := by simpa using hF
            exact h.ne_headD hsplit (mem_cons_self ..) hx
          · exact h.ne_headD hF (mem_cons_self ..) hx
        by_cases hlt : less b a = true
        · -- `b' goes in front of `a'
          have hFb : F i = (xs ++ a :: as) ++ b :: (bs ++ ys) := by simpa using hF
          have hcut : update F i (xs ++ a :: as ++ (bs ++ ys)) i =
              xs ++ (a :: as ++ bs ++ ys) := by simp
          have hone : F i = (xs ++ a :: as) ++ [b] ++ (bs ++ ys) := by simpa using hFb
          obtain ⟨H1, hsplice, hleads⟩ := listSplice_leads h hone rfl hcut
          have hleads1 : Leads hdr H F [i] H1
              (update F i ((xs ++ [b]) ++ (a :: as) ++ bs ++ ys)) := by
            refine ⟨?_, fun k hk => hleads.frame k (by simpa using hk)⟩
            simpa using hleads.wellFormed
          obtain ⟨H2, hloop, hleads2⟩ := ih hleads1.wellFormed (update_self ..)
            (by simp only [length_cons] at hn ⊢; omega)
          refine ⟨H2, fun fuel hfuel => ?_, ?_⟩
          · cases fuel with
            | zero => omega
            | succ fuel =>
              simp only [cons_append, headD_cons] at hloop hsplice ⊢
              rw [mergeLoop, if_neg hgo, callLess, ok_bind, hlt, if_neg (by decide),
                h.listNext hFb, ok_bind, h.listPrev hFb, ok_bind, hsplice, ok_bind]
              exact hloop fuel (by omega)
          · rw [inplaceMerge_cons, if_pos hlt]
            have := hleads1.trans_update hleads2
            simpa using this
        · -- `a' stays where it is
          have hFa : F i = xs ++ a :: (as ++ b :: bs ++ ys) := by simpa using hF
          have hnext : F i = (xs ++ [a]) ++ as ++ (b :: bs) ++ ys := by simpa using hF
          obtain ⟨H2, hloop, hleads2⟩ := ih h hnext (by simp only [length_cons] at hn ⊢; omega)
          refine ⟨H2, fun fuel hfuel => ?_, ?_⟩
          · cases fuel with
            | zero => omega
            | succ fuel =>
              simp only [cons_append, headD_cons] at hloop ⊢
              rw [mergeLoop, if_neg hgo, callLess, ok_bind, if_pos (by simpa using hlt),
                h.listNext hFa, ok_bind]
              simpa using hloop fuel (by omega)
          · rw [inplaceMerge_cons, if_neg hlt]
            simpa using hleads2

theorem inplaceMerge_leads (h : WellFormed hdr H F) (hF : F i = xs ++ as ++ bs ++ ys)
    (has : Sorted less as) (hbs : Sorted less bs) :
    ∃ H', (∀ fuel, as.length + bs.length ≤ fuel →
        inplaceMerge fuel H less (some ((as ++ bs ++ ys).headD (hdr i).tail))
          (some ((bs ++ ys).headD (hdr i).tail)) (some (ys.headD (hdr i).tail)) = .ok H') ∧
      Leads hdr H F [i] H' (update F i (xs ++ Lib.inplaceMerge less as bs ++ ys)) := by
  obtain ⟨H', hloop, hleads⟩ := mergeLoop_leads less h hF
  refine ⟨H', fun fuel hfuel => ?_, hleads⟩
  have hsplit : F i = xs ++ as ++ (bs ++ ys) := by simpa using hF
  have hfirst := isSorted_eq h hsplit has (show as.length ≤ fuel by omega)
  have hsecond := isSorted_eq h hF hbs (show bs.length ≤ fuel by omega)
  rw [← append_assoc] at hfirst
  simp only [inplaceMerge, isSome_some, assertThat_true, ok_bind, hfirst, hsecond]
  exact hloop fuel hfuel

section StrictWeak

variable (hw : StrictWeak less)

include hw

/-- **One pass.** -/
theorem passLoop_leads (h : WellFormed hdr H F) (hF : F i = xs ++ l) (hm : l.length ≤ m) :
    ∃ H', (∀ fuel n cnt, l.length ≤ fuel → l.length ≤ n →
        passLoop fuel less (hdr i) n H (some (l.headD (hdr i).tail)) cnt =
          .ok (H', cnt + (sortPass less m l).2)) ∧
      Leads hdr H F [i] H' (update F i (xs ++ (sortPass less m l).1)) := by
  induction m generalizing xs l H F with
  | zero =>
    obtain rfl : l = [] := length_eq_zero_iff.mp (Nat.le_zero.mp hm)
    refine ⟨H, fun fuel n cnt _ _ => ?_, Leads.refl h hF.symm⟩
    cases n <;> exact if_pos rfl
  | succ m ih =>
    cases l with
    | nil =>
      refine ⟨H, fun fuel n cnt _ _ => ?_, Leads.refl h hF.symm⟩
      cases n <;> exact if_pos rfl
    | cons a as =>
      have hend := h.ne_end hF
      cases hr : Lib.findEndOfRun less a as with
      | mk r rest =>
        have hcut : r ++ rest = as := by simpa [hr] using findEndOfRun_append less a as
        have hsorted : Sorted less (a :: r) := by simpa [hr] using findEndOfRun_sorted hw a as
        have hrun : ∀ fuel, (a :: as).length ≤ fuel →
            findEndOfRun fuel H less (some a) (listEnd (hdr i)) =
              .ok (some (rest.headD (hdr i).tail)) := by
          intro fuel hfuel
          rw [findEndOfRun_eq less h hF hfuel, hr]
        subst hcut
        cases rest with
        | nil =>
          -- one run is left
          rw [sortPass_one hr]
          refine ⟨H, fun fuel n cnt hfuel hn => ?_, Leads.refl h (by simpa using hF.symm)⟩
          cases n with
          | zero => simp at hn
          | succ =>
            rw [passLoop, headD_cons, if_neg hend, hrun fuel hfuel, ok_bind, headD_nil,
              listEnd, if_pos rfl]
            rfl
        | cons b bs =>
          cases hr' : Lib.findEndOfRun less b bs with
          | mk r' rest =>
            have hcut' : r' ++ rest = bs := by simpa [hr'] using findEndOfRun_append less b bs
            have hsorted' : Sorted less (b :: r') := by
              simpa [hr'] using findEndOfRun_sorted hw b bs
            subst hcut'
            have hF1 : F i = xs ++ (a :: r) ++ (b :: r') ++ rest := by simpa using hF
            have hF2 : F i = (xs ++ a :: r) ++ b :: (r' ++ rest) := by simpa using hF
            simp only [length_cons, length_append] at hm hrun ⊢
            obtain ⟨H1, hmerge, hleads1⟩ := inplaceMerge_leads h hF1 hsorted hsorted'
            obtain ⟨H2, hpass, hleads2⟩ := ih hleads1.wellFormed (update_self ..) (by omega)
            rw [sortPass_two hr hr']
            refine ⟨H2, fun fuel n cnt hfuel hn => ?_, ?_⟩
            · cases n with
              | zero => omega
              | succ n =>
                have hlength : (r' ++ rest).length < fuel := by
                  simp only [length_append]
                  omega
                have hrun' := findEndOfRun_eq less h hF2 hlength
                have hmerge' := hmerge fuel (by simp only [length_cons]; omega)
                rw [hr'] at hrun'
                simp only [cons_append, headD_cons] at hmerge'
                rw [passLoop, headD_cons, if_neg hend, hrun fuel hfuel, ok_bind,
                  headD_cons, if_neg (h.ne_end hF2), hrun', ok_bind, hmerge', ok_bind,
                  hpass fuel n (cnt + 1) (by omega) (by omega), Nat.add_assoc, Nat.add_comm 1]
            · rw [update_idem] at hleads2
              have hboth := hleads1.trans_update hleads2
              rwa [append_assoc] at hboth

/-- **All passes**: there are no more of them than runs, and one if there is no run. -/
theorem sortLoop_leads (h : WellFormed hdr H F) (hruns : runs less (F i) ≤ m) :
    ∃ H', (∀ fuel n, (F i).length ≤ fuel → m < n → sortLoop fuel less (hdr i) n H = .ok H') ∧
      Leads hdr H F [i] H' (update F i (Lib.sortLoop less m (F i))) := by
  induction m generalizing H F with
  | zero =>
    have hnil : F i = [] := by
      cases hF : F i with
      | nil => rfl
      | cons a as =>
        rw [hF] at hruns
        exact absurd hruns (Nat.not_le.mpr (runsFrom_pos less a as))
    have hbegin : listBegin H (hdr i) = listEnd (hdr i) := by
      rw [h.listBegin, hnil]
      rfl
    refine ⟨H, fun fuel n _ hn => ?_, Leads.refl h rfl⟩
    cases n with
    | zero => omega
    | succ =>
      have hpass : passLoop fuel less (hdr i) fuel H (listEnd (hdr i)) 0 = .ok (H, 0) := by
        cases fuel <;> exact if_pos rfl
      have hassert : isSorted fuel H less (listEnd (hdr i)) (listEnd (hdr i)) = .ok true :=
        if_neg fun hx => hx rfl
      simp only [sortLoop, hbegin, hpass, ok_bind, Nat.not_lt_zero, if_false, hassert,
        assertThat_true]
      rfl
  | succ m ih =>
    obtain ⟨hcount, hout⟩ := sortPass_spec hw (F i).length (F i) (le_refl _)
    have hperm := sortPass_perm less (F i).length (F i)
    obtain ⟨H1, hpass, hleads1⟩ := passLoop_leads hw h (show F i = [] ++ F i from rfl)
      (le_refl _)
    rw [nil_append] at hleads1
    rw [Lib.sortLoop]
    by_cases hmore : 1 < (sortPass less (F i).length (F i)).2
    · -- another pass
      obtain ⟨H2, hloop, hleads2⟩ := ih hleads1.wellFormed (by rw [update_self]; omega)
      rw [if_pos hmore]
      rw [update_self, update_idem] at hleads2
      refine ⟨H2, fun fuel n hfuel hn => ?_, hleads1.trans_update hleads2⟩
      cases n with
      | zero => omega
      | succ n =>
        simp only [sortLoop, h.listBegin, hpass fuel fuel 0 hfuel hfuel, ok_bind, Nat.zero_add,
          if_pos hmore]
        refine hloop fuel n ?_ (by omega)
        rwa [update_self, hperm.length_eq]
    · -- one run is left, and the assertion holds
      rw [if_neg hmore]
      refine ⟨H1, fun fuel n hfuel hn => ?_, hleads1⟩
      cases n with
      | zero => omega
      | succ =>
        have hsorted : Sorted less (sortPass less (F i).length (F i)).1 :=
          sorted_of_runs hw (by omega)
        have hbegin := hleads1.wellFormed.listBegin (i := i)
        have hall : update F i (sortPass less (F i).length (F i)).1 i =
            [] ++ (sortPass less (F i).length (F i)).1 ++ [] := by simp
        have hlength : (sortPass less (F i).length (F i)).1.length ≤ fuel := by
          rwa [hperm.length_eq]
        have hassert := isSorted_eq hleads1.wellFormed hall hsorted hlength
        rw [update_self] at hbegin
        rw [append_nil, ← hbegin] at hassert
        simp only [sortLoop, h.listBegin, hpass fuel fuel 0 hfuel hfuel, ok_bind, Nat.zero_add,
          if_neg hmore]
        rw [show listEnd (hdr i) = some (([] : List P).headD (hdr i).tail) from rfl, hassert]
        rfl

/-- **`list_sort` sorts.**  For every list and every strict weak order, `list_sort` ends, no
    assertion in it fails, and it leaves the elements of the list in an order in which none is less
    than an earlier one and those of which neither is less keep their order.  No other list is
    touched. -/
theorem list_sort_correct (h : WellFormed hdr H F) (i : ι) :
    ∃ H' out n, (∀ fuel, n ≤ fuel → listSort fuel H (hdr i) less = .ok H') ∧
      Leads hdr H F [i] H' (update F i out) ∧ out.Perm (F i) ∧ Sorted less out ∧
      ∀ a b, [a, b].Sublist (F i) → less a b = false → less b a = false → [a, b].Sublist out := by
  obtain ⟨H', hsort, hleads⟩ := sortLoop_leads (i := i) hw h (runs_le_length less (F i))
  refine ⟨H', Lib.listSort less (F i), (F i).length + 1, fun fuel hfuel => ?_, hleads,
    listSort_perm less (F i), listSort_sorted hw (F i), fun a b hsub hab hba => ?_⟩
  · exact hsort fuel fuel (by omega) (by omega)
  · exact listSort_stable hw hab hba hsub

end StrictWeak

/-! ## `list_unique` -/

/-- The sequences when `kept` is left in list `i`, and `removed` has gone to `duplicates`. -/
def parted (F : ι → List P) (i : ι) (duplicates : Option ι) (kept removed : List P) : ι → List P :=
  match duplicates with
  | none => update F i kept
  | some j => update (update F i kept) j (F j ++ removed)

variable {d : Option ι} (hd : d ≠ some i)
include hd

omit hd in
theorem parted_of_not_mem {k : ι} {kept removed : List P} (hk : k ∉ i :: d.toList) :
    parted F i d kept removed k = F k := by
  cases d <;> simp_all [parted]

omit hd in
theorem Leads.parted_nil (h : WellFormed hdr H F) (hl : l = F i) :
    Leads hdr H F (i :: d.toList) H (parted F i d l []) := by
  have hsame : parted F i d l [] = F := by cases d <;> simp [parted, hl]
  rw [hsame]
  exact ⟨h, fun k _ c _ => ⟨rfl, rfl⟩⟩

theorem parted_self (kept removed : List P) : parted F i d kept removed i = kept := by
  cases d with
  | none => exact update_self ..
  | some j => exact (update_of_ne (fun hx => hd (by rw [hx])) ..).trans (update_self ..)

theorem parted_parted (k₁ r₁ k₂ r₂ : List P) :
    parted (parted F i d k₁ r₁) i d k₂ r₂ = parted F i d k₂ (r₁ ++ r₂) := by
  cases d with
  | none => exact update_idem ..
  | some j =>
    have hj : j ≠ i := fun hx => hd (by rw [hx])
    simp only [parted, update_self, append_assoc]
    rw [update_comm hj, update_idem, update_idem, update_comm hj.symm]

variable (h : WellFormed hdr H F)
include h

/-- **One element goes**: it leaves list `i` for the end of `duplicates`. -/
theorem uniqueStep_leads (hF : F i = xs ++ b :: ys) :
    ∃ H₁ H', listRemove H (some b) = .ok (H₁, some (ys.headD (hdr i).tail)) ∧
      pushDuplicate H₁ (some b) (d.map hdr) = .ok H' ∧
      Leads hdr H F (i :: d.toList) H' (parted F i d (xs ++ ys) [b]) := by
  obtain ⟨H₁, hremove, hleads⟩ := listRemove_leads h hF
  cases d with
  | none => exact ⟨H₁, H₁, hremove, rfl, hleads⟩
  | some j =>
    have hj : j ≠ i := fun hx => hd (by rw [hx])
    have hout := h.out_fresh (show F i = xs ++ [b] ++ ys by simpa using hF)
    obtain ⟨H', hinsert, hleads'⟩ := listInsert_leads hleads.wellFormed
      (show update F i (xs ++ ys) j = F j ++ [] by rw [update_of_ne hj, append_nil])
      fun k => hout k b mem_cons_self
    refine ⟨H₁, H', hremove, hinsert, hleads'.wellFormed, fun k hk => ?_⟩
    have hk' : k ≠ i ∧ k ≠ j := by simpa using hk
    have hframe := hleads'.frame k (by simpa using hk'.2)
    rw [update_of_ne hk'.1] at hframe
    exact (hleads.frame k (by simpa using hk'.1)).trans hframe

/-- **The loop**, from an element on. -/
theorem uniqueLoop_leads (hF : F i = xs ++ a :: l) :
    ∃ H', (∀ fuel, l.length < fuel →
        uniqueLoop less (hdr i) (d.map hdr) fuel H (some a) = .ok H') ∧
      Leads hdr H F (i :: d.toList) H'
        (parted F i d (xs ++ a :: (uniqueFrom less a l).1) (uniqueFrom less a l).2) := by
  induction l generalizing H F xs a with
  | nil =>
    refine ⟨H, fun fuel hfuel => ?_, Leads.parted_nil h hF.symm⟩
    cases fuel with
    | zero => cases hfuel
    | succ =>
      rw [uniqueLoop, h.listNext hF, ok_bind, headD_nil, listEnd, if_pos rfl]
      rfl
  | cons b l ih =>
    have hF' : F i = (xs ++ [a]) ++ b :: l := by simpa using hF
    have hend := h.ne_end hF'
    rw [uniqueFrom]
    by_cases hlike : (!less a b && !less b a) = true
    · obtain ⟨H₁, H₂, hremove, hpush, hleads⟩ := uniqueStep_leads hd h hF'
      obtain ⟨H', hloop, hleads'⟩ := ih hleads.wellFormed
        (show _ = xs ++ a :: l by rw [parted_self hd]; simp)
      rw [if_pos hlike]
      refine ⟨H', fun fuel hfuel => ?_, ?_⟩
      · cases fuel with
        | zero => cases hfuel
        | succ fuel =>
          simp only [uniqueLoop, h.listNext hF, ok_bind, headD_cons, if_neg hend, callLess, hlike,
            if_true, hremove, hpush]
          exact hloop fuel (by simpa using hfuel)
      · rw [parted_parted hd] at hleads'
        exact hleads.trans (fun k hk => parted_of_not_mem hk) hleads'
    · obtain ⟨H', hloop, hleads⟩ := ih h hF'
      rw [if_neg hlike]
      refine ⟨H', fun fuel hfuel => ?_, by simpa using hleads⟩
      cases fuel with
      | zero => cases hfuel
      | succ fuel =>
        simp only [uniqueLoop, h.listNext hF, ok_bind, headD_cons, if_neg hend, callLess, if_neg hlike]
        exact hloop fuel (by simpa using hfuel)

/-- **`list_unique` on links** ends and does to the two sequences what it is meant to do. -/
theorem listUnique_leads :
    ∃ H' kept removed, (∀ fuel, (F i).length ≤ fuel →
        listUnique fuel H (hdr i) (d.map hdr) less = .ok H') ∧
      Lib.listUnique less (d.map F) (F i) = (kept, (d.map F).map (· ++ removed)) ∧
      Leads hdr H F (i :: d.toList) H' (parted F i d kept removed) := by
  cases hF : F i with
  | nil =>
    refine ⟨H, [], [], fun fuel _ => if_pos (h.listEmpty_iff.mpr hF), ?_, .parted_nil h hF.symm⟩
    cases d <;> simp [Lib.listUnique]
  | cons a l =>
    obtain ⟨H', hloop, hleads⟩ := uniqueLoop_leads hd h (show F i = [] ++ a :: l from hF)
    refine ⟨H', _, _, fun fuel hfuel => ?_, rfl, hleads⟩
    have hne : ¬ listEmpty H (hdr i) = true := by simp [h.listEmpty_iff, hF]
    rw [listUnique, if_neg hne, h.listBegin, hF]
    exact hloop fuel hfuel

end

/-- The cells from `n` to 0, one list. -/
def countdown (n : Nat) : Links Nat where
  prev c := if c < n then some (c + 1) else none
  next c := if 0 < c ∧ c ≤ n then some (c - 1) else none

theorem countdown_wellFormed :
    WellFormed (fun _ : Unit => ⟨5, 0⟩) (countdown 5) fun _ => [4, 3, 2, 1] where
  linked _ := by
    show IsChain (countdown 5).Joined [5, 4, 3, 2, 1, 0]
    simp [Links.Joined, countdown]
  first _ a ha := by obtain rfl := some.inj ha; rfl
  last _ a ha := by obtain rfl := some.inj ha; rfl
  nodup _ := by
    show [5, 4, 3, 2, 1, 0].Nodup
    decide
  apart i j hij := absurd rfl hij

/-- Sorted by their last bit, the even elements come first and both kinds keep their order. -/
theorem list_sort_bits : ∃ H' out n, (∀ fuel, n ≤ fuel →
      listSort fuel (countdown 5) ⟨5, 0⟩ (fun a b => decide (a % 2 < b % 2)) = .ok H') ∧
    out.Perm [4, 3, 2, 1] ∧ [4, 2].Sublist out ∧ [3, 1].Sublist out := by
  have hw : StrictWeak fun a b : Nat => decide (a % 2 < b % 2) :=
    ⟨fun h => by simp only [decide_eq_true_eq, decide_eq_false_iff_not] at *; omega,
      fun h h' => by simp only [decide_eq_false_iff_not] at *; omega⟩
  obtain ⟨H', out, n, hsort, -, hperm, -, hstable⟩ := list_sort_correct hw countdown_wellFormed ()
  exact ⟨H', out, n, hsort, hperm, hstable 4 2 (by decide) rfl rfl, hstable 3 1 (by decide) rfl rfl⟩

end Pintos.Lib.Cells
