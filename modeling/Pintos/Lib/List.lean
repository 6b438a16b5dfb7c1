/-
  The ordered operations of `lib/kernel/list.c`: `list_insert_ordered`, `list_sort`, `list_unique`.

  A `struct list` is the Lean list of its elements, front first; the links are another file's business.

  1. **Program** — `listInsertOrdered` puts the element in front of the first one it is `less` than,
     hence BEHIND its equals.  `listSort` is the natural merge sort of the source: a pass
     (`sortPass`) cuts the list into maximal runs, merges them two by two and counts the runs it
     produced; passes repeat while more than one run came out.

  2. **Specification** — both permute, whatever `less` is, and for a strict weak order both give a
     sorted list.  The sort is stable (`listSort_stable`): a merge moves an element to the front only
     past greater ones.

  3. **The crux** — `listSort` stops.  A pass over `l` produces at most half of its maximal runs, rounded
     up (`sortPass_count`), in as many sorted pieces (`sortPass_runs`).

  4. **Duplicates** — `list_unique` compares NEIGHBOURS; of a sorted list it keeps one of each class.
-/
import Mathlib.Data.List.Nodup
import Mathlib.Data.List.Pairwise

namespace Pintos.Lib

open List Bool

variable {α : Type}

/-! ## `list_insert_ordered` -/

/-- `list_insert_ordered (list, elem, less)`: walk from the front to the first `e` with
    `less (elem, e)` and insert just before it. -/
def listInsertOrdered (less : α → α → Bool) (x : α) : List α → List α
  | [] => [x]
  | e :: es => if less x e then x :: e :: es else e :: listInsertOrdered less x es

theorem listInsertOrdered_perm (less : α → α → Bool) (x : α) (l : List α) :
    (listInsertOrdered less x l).Perm (x :: l) := by
  induction l with
  | nil => exact Perm.refl _
  | cons e es ih =>
    rw [listInsertOrdered]
    split
    · exact Perm.refl _
    · exact (ih.cons e).trans (Perm.swap x e es)

variable {less : α → α → Bool} {l as r : List α} {x a y b : α} {fuel : Nat}

@[simp] theorem mem_listInsertOrdered : y ∈ listInsertOrdered less x l ↔ y = x ∨ y ∈ l := by
  rw [(listInsertOrdered_perm less x l).mem_iff, mem_cons]

theorem nodup_listInsertOrdered (hx : x ∉ l) (hl : l.Nodup) : (listInsertOrdered less x l).Nodup :=
  (listInsertOrdered_perm less x l).nodup_iff.mpr (nodup_cons.mpr ⟨hx, hl⟩)

/-! ## Strict weak orders, and sortedness as the kernel means it -/

/-- What a comparison callback must satisfy: `less` is asymmetric and its negation transitive. -/
structure StrictWeak (less : α → α → Bool) : Prop where
  asymm : ∀ {a b}, less a b = true → less b a = false
  trans : ∀ {a b c}, less b a = false → less c b = false → less c a = false

/-- `is_sorted`: no element is `less` than one in front of it. -/
def Sorted (less : α → α → Bool) (l : List α) : Prop := l.Pairwise (fun a b => less b a = false)

def alike (less : α → α → Bool) (c x : α) : Bool := !less x c && !less c x

theorem strictWeak_desc (key : α → Int) : StrictWeak (fun a b => decide (key b < key a)) where
  asymm := by
    intro a b h
    have h' := of_decide_eq_true h
    exact decide_eq_false (by omega)
  trans := by
    intro a b c hba hcb
    have h1 := of_decide_eq_false hba
    have h2 := of_decide_eq_false hcb
    exact decide_eq_false (by omega)

theorem Sorted.cons_of_head (hw : StrictWeak less) (h : Sorted less (b :: l))
    (hba : less b a = false) : Sorted less (a :: b :: l) := by
  refine pairwise_cons.mpr ⟨fun c hc => ?_, h⟩
  rcases mem_cons.mp hc with rfl | hc
  · exact hba
  · exact hw.trans hba ((pairwise_cons.mp h).1 c hc)

/-- **Insertion keeps a sorted list sorted.** -/
theorem listInsertOrdered_sorted (hw : StrictWeak less) :
    ∀ {l : List α}, Sorted less l → Sorted less (listInsertOrdered less x l)
  | [], _ => pairwise_singleton ..
  | e :: es, h => by
    obtain ⟨hhead, htail⟩ := pairwise_cons.mp h
    rw [listInsertOrdered]
    split
    · rename_i hxe
      exact h.cons_of_head hw (hw.asymm hxe)
    · rename_i hxe
      refine pairwise_cons.mpr ⟨fun b hb => ?_, listInsertOrdered_sorted hw htail⟩
      rcases mem_listInsertOrdered.mp hb with rfl | hb
      · exact eq_false_iff.mpr hxe
      · exact hhead b hb

/-! ## `list_sort` -/

/-- `find_end_of_run`: the elements that continue the run ending with `prev`, and the rest. -/
def findEndOfRun (less : α → α → Bool) (prev : α) : List α → List α × List α
  | [] => ([], [])
  | a :: as =>
    if less a prev then ([], a :: as)
    else ((a :: (findEndOfRun less a as).1), (findEndOfRun less a as).2)

/-- The inner loop of `inplace_merge`: move the elements of the second run that are `less` than
    `a` in front of it, then go on with the rest of the first run (`next`). -/
def mergeBefore (less : α → α → Bool) (a : α) (as : List α) (next : List α → List α) :
    List α → List α
  | [] => a :: as
  | b :: bs => if less b a then b :: mergeBefore less a as next bs else a :: next (b :: bs)

/-- `inplace_merge`: merge two adjacent sorted runs, the first one winning ties. -/
def inplaceMerge (less : α → α → Bool) : List α → List α → List α
  | [], bs => bs
  | a :: as, bs => mergeBefore less a as (inplaceMerge less as) bs

/-- One pass of `list_sort`: merge the runs two by two and count the runs put out.  `fuel` bounds
    the number of pairs of runs; the length of the list is always enough. -/
def sortPass (less : α → α → Bool) : Nat → List α → List α × Nat
  | 0, l => (l, 0)
  | _, [] => ([], 0)
  | fuel + 1, a :: as =>
    match findEndOfRun less a as with
    | (r, []) => (a :: r, 1)
    | (r, b :: bs) =>
      let (r', rest) := findEndOfRun less b bs
      let (out, n) := sortPass less fuel rest
      (inplaceMerge less (a :: r) (b :: r') ++ out, n + 1)

theorem sortPass_one
    (hr : findEndOfRun less a as = (r, [])) : sortPass less (fuel + 1) (a :: as) = (a :: r, 1) := by
  simp only [sortPass, hr]

theorem sortPass_two {bs r' rest : List α}
    (hr : findEndOfRun less a as = (r, b :: bs)) (hr' : findEndOfRun less b bs = (r', rest)) :
    sortPass less (fuel + 1) (a :: as) =
      (inplaceMerge less (a :: r) (b :: r') ++ (sortPass less fuel rest).1,
        (sortPass less fuel rest).2 + 1) := by
  simp only [sortPass, hr, hr']

/-- The `do … while (output_run_cnt > 1)` loop of `list_sort`. -/
def sortLoop (less : α → α → Bool) : Nat → List α → List α
  | 0, l => l
  | fuel + 1, l =>
    if 1 < (sortPass less l.length l).2 then sortLoop less fuel (sortPass less l.length l).1
    else (sortPass less l.length l).1

def listSort (less : α → α → Bool) (l : List α) : List α := sortLoop less l.length l

example : listSort (fun a b : Nat => decide (b < a)) [3, 1, 4, 1, 5, 9, 2, 6] =
    [9, 6, 5, 4, 3, 2, 1, 1] := by decide

/-! ### Every step of the sort is a permutation -/

theorem findEndOfRun_append (less : α → α → Bool) :
    ∀ (prev : α) (l : List α), (findEndOfRun less prev l).1 ++ (findEndOfRun less prev l).2 = l
  | _, [] => rfl
  | prev, a :: as => by
    rw [findEndOfRun]
    split
    · rfl
    · exact congrArg (a :: ·) (findEndOfRun_append less a as)

variable {next : List α → List α}

theorem mergeBefore_perm (hnext : ∀ bs, (next bs).Perm (as ++ bs)) :
    ∀ bs, (mergeBefore less a as next bs).Perm (a :: as ++ bs)
  | [] => by rw [mergeBefore, append_nil]
  | b :: bs => by
    rw [mergeBefore]
    split
    · exact ((mergeBefore_perm hnext bs).cons b).trans perm_middle.symm
    · exact (hnext (b :: bs)).cons a

theorem inplaceMerge_perm (less : α → α → Bool) :
    ∀ as bs : List α, (inplaceMerge less as bs).Perm (as ++ bs)
  | [], _ => Perm.refl _
  | _ :: as, bs => mergeBefore_perm (inplaceMerge_perm less as) bs

theorem sortPass_perm (less : α → α → Bool) :
    ∀ (fuel : Nat) (l : List α), (sortPass less fuel l).1.Perm l
  | 0, _ => Perm.refl _
  | _ + 1, [] => Perm.refl _
  | fuel + 1, a :: as => by
    have hrun := findEndOfRun_append less a as
    rw [sortPass]
    cases hr : findEndOfRun less a as with
    | mk r rest =>
      rw [hr] at hrun
      cases rest with
      | nil =>
        have hr' : r = as := by simpa using hrun
        simp only [hr']
        exact Perm.refl _
      | cons b bs =>
        have hrun' := findEndOfRun_append less b bs
        have hrest := sortPass_perm less fuel (findEndOfRun less b bs).2
        have hmerge := inplaceMerge_perm less (a :: r) (b :: (findEndOfRun less b bs).1)
        have hcut : r ++ b :: bs = as := hrun
        simp only
        refine (hmerge.append hrest).trans ?_
        rw [append_assoc, cons_append, cons_append, hrun', hcut]

theorem sortLoop_perm (less : α → α → Bool) :
    ∀ (fuel : Nat) (l : List α), (sortLoop less fuel l).Perm l
  | 0, _ => Perm.refl _
  | fuel + 1, l => by
    rw [sortLoop]
    split
    · exact (sortLoop_perm less fuel _).trans (sortPass_perm less l.length l)
    · exact sortPass_perm less l.length l

/-- **`list_sort` permutes its list**, whatever the callback does. -/
theorem listSort_perm (less : α → α → Bool) (l : List α) : (listSort less l).Perm l :=
  sortLoop_perm less l.length l

@[simp] theorem mem_listSort : x ∈ listSort less l ↔ x ∈ l :=
  (listSort_perm less l).mem_iff

/-! ### Counting runs -/

/-- The number of maximal runs of `prev :: l`. -/
def runsFrom (less : α → α → Bool) (prev : α) : List α → Nat
  | [] => 1
  | a :: as => if less a prev then runsFrom less a as + 1 else runsFrom less a as

def runs (less : α → α → Bool) : List α → Nat
  | [] => 0
  | a :: as => runsFrom less a as

theorem runsFrom_pos (less : α → α → Bool) : ∀ (a : α) (l : List α), 1 ≤ runsFrom less a l
  | _, [] => Nat.le_refl _
  | _, a :: as => by
    rw [runsFrom]
    have := runsFrom_pos less a as
    split <;> omega

theorem runsFrom_le (less : α → α → Bool) : ∀ (a : α) (l : List α), runsFrom less a l ≤ l.length + 1
  | _, [] => Nat.le_refl _
  | _, a :: as => by
    rw [runsFrom, length_cons]
    have := runsFrom_le less a as
    split <;> omega

theorem runs_le_length (less : α → α → Bool) : ∀ l : List α, runs less l ≤ l.length
  | [] => Nat.le_refl _
  | a :: as => runsFrom_le less a as

/-- `find_end_of_run` takes exactly one run off the front. -/
theorem runsFrom_findEndOfRun (less : α → α → Bool) :
    ∀ (a : α) (l : List α), runsFrom less a l = runs less (findEndOfRun less a l).2 + 1
  | _, [] => rfl
  | prev, a :: as => by
    rw [runsFrom, findEndOfRun]
    split
    · rfl
    · exact runsFrom_findEndOfRun less a as

theorem runsFrom_append (less : α → α → Bool) :
    ∀ (a : α) (xs ys : List α), runsFrom less a (xs ++ ys) ≤ runsFrom less a xs + runs less ys
  | _, [], [] => Nat.le_refl _
  | _, [], b :: ys => by
    simp only [nil_append, runsFrom, runs]
    split <;> omega
  | _, b :: xs, ys => by
    have := runsFrom_append less b xs ys
    simp only [cons_append, runsFrom]
    split <;> omega

theorem runs_append (less : α → α → Bool) :
    ∀ xs ys : List α, runs less (xs ++ ys) ≤ runs less xs + runs less ys
  | [], ys => by simp only [nil_append, runs, Nat.zero_add, Nat.le_refl]
  | a :: xs, ys => runsFrom_append less a xs ys

theorem runsFrom_of_sorted : ∀ {a : α} {l : List α}, Sorted less (a :: l) → runsFrom less a l = 1
  | _, [], _ => rfl
  | a, b :: l, h => by
    obtain ⟨hhead, htail⟩ := pairwise_cons.mp h
    rw [runsFrom, if_neg (by rw [hhead b (mem_cons_self ..)]; decide)]
    exact runsFrom_of_sorted htail

theorem runs_of_sorted (h : Sorted less l) : runs less l ≤ 1 := by
  cases l with
  | nil => exact Nat.zero_le _
  | cons => exact Nat.le_of_eq (runsFrom_of_sorted h)

section StrictWeak

variable (hw : StrictWeak less)

include hw

theorem sorted_of_runsFrom : ∀ {a : α} {l : List α}, runsFrom less a l = 1 → Sorted less (a :: l)
  | a, [], _ => pairwise_singleton ..
  | a, b :: l, h => by
    rw [runsFrom] at h
    split at h
    · have := runsFrom_pos less b l
      omega
    · rename_i hba
      exact (sorted_of_runsFrom h).cons_of_head hw (eq_false_iff.mpr hba)

theorem sorted_of_runs (h : runs less l ≤ 1) : Sorted less l := by
  cases l with
  | nil => exact Pairwise.nil
  | cons a l =>
    have hpos := runsFrom_pos less a l
    have hle : runsFrom less a l ≤ 1 := h
    exact sorted_of_runsFrom hw (by omega)

theorem findEndOfRun_sorted : ∀ (a : α) (l : List α), Sorted less (a :: (findEndOfRun less a l).1)
  | _, [] => pairwise_singleton ..
  | a, b :: l => by
    rw [findEndOfRun]
    split
    · exact pairwise_singleton ..
    · rename_i hba
      exact (findEndOfRun_sorted b l).cons_of_head hw (eq_false_iff.mpr hba)

theorem mergeBefore_sorted (has : Sorted less (a :: as)) (hperm : ∀ bs, (next bs).Perm (as ++ bs))
    (hnext : ∀ bs, Sorted less bs → Sorted less (next bs)) :
    ∀ bs, Sorted less bs → Sorted less (mergeBefore less a as next bs)
  | [], _ => has
  | b :: bs, hbs => by
    obtain ⟨hb, htail⟩ := pairwise_cons.mp hbs
    obtain ⟨ha, _⟩ := pairwise_cons.mp has
    rw [mergeBefore]
    split
    · rename_i hba
      refine pairwise_cons.mpr ⟨fun c hc => ?_, mergeBefore_sorted has hperm hnext bs htail⟩
      have hc' := (mergeBefore_perm hperm bs).mem_iff.mp hc
      rcases mem_cons.mp hc' with rfl | hc'
      · exact hw.asymm hba
      · rcases mem_append.mp hc' with hc' | hc'
        · exact hw.trans (hw.asymm hba) (ha c hc')
        · exact hb c hc'
    · rename_i hba
      refine pairwise_cons.mpr ⟨fun c hc => ?_, hnext (b :: bs) hbs⟩
      rcases mem_append.mp ((hperm (b :: bs)).mem_iff.mp hc) with hc' | hc'
      · exact ha c hc'
      · rcases mem_cons.mp hc' with rfl | hc'
        · exact eq_false_iff.mpr hba
        · exact hw.trans (eq_false_iff.mpr hba) (hb c hc')

theorem inplaceMerge_sorted :
    ∀ {as : List α}, Sorted less as → ∀ bs, Sorted less bs → Sorted less (inplaceMerge less as bs)
  | [], _, _, hbs => hbs
  | _ :: as, has, bs, hbs =>
    mergeBefore_sorted hw has (inplaceMerge_perm less as)
      (inplaceMerge_sorted (pairwise_cons.mp has).2) bs hbs

/-- A pass halves the number of runs, and puts out at most as many runs as it counts. -/
theorem sortPass_spec : ∀ (fuel : Nat) (l : List α), l.length ≤ fuel →
    (sortPass less fuel l).2 = (runs less l + 1) / 2 ∧
    runs less (sortPass less fuel l).1 ≤ (sortPass less fuel l).2
  | 0, l, h => by
    obtain rfl : l = [] := length_eq_zero_iff.mp (Nat.le_zero.mp h)
    exact ⟨by simp [sortPass, runs], by simp [sortPass, runs]⟩
  | _ + 1, [], _ => ⟨by simp [sortPass, runs], by simp [sortPass, runs]⟩
  | fuel + 1, a :: as, h => by
    have hcut := findEndOfRun_append less a as
    have hcount := runsFrom_findEndOfRun less a as
    have hsorted := findEndOfRun_sorted hw a as
    rw [sortPass, runs]
    cases hr : findEndOfRun less a as with
    | mk r rest =>
      rw [hr] at hcut hcount hsorted
      cases rest with
      | nil =>
        rw [show runsFrom less a as = 1 from hcount]
        exact ⟨rfl, runs_of_sorted hsorted⟩
      | cons b bs =>
        have hcut' := findEndOfRun_append less b bs
        have hcount' : runsFrom less b bs = _ := runsFrom_findEndOfRun less b bs
        have hlen : (findEndOfRun less b bs).2.length ≤ fuel := by
          have h1 := congrArg length hcut
          have h2 := congrArg length hcut'
          simp only [length_append, length_cons] at h h1 h2
          omega
        obtain ⟨hn, hruns⟩ := sortPass_spec fuel (findEndOfRun less b bs).2 hlen
        have hmerge := inplaceMerge_sorted hw hsorted _ (findEndOfRun_sorted hw b bs)
        have happ := runs_append less
          (inplaceMerge less (a :: r) (b :: (findEndOfRun less b bs).1))
          (sortPass less fuel (findEndOfRun less b bs).2).1
        have hone : runs less (inplaceMerge less (a :: r) (b :: (findEndOfRun less b bs).1)) ≤ 1 :=
          runs_of_sorted hmerge
        have hsplit : runsFrom less a as = runsFrom less b bs + 1 := hcount
        simp only
        exact ⟨by omega, by omega⟩

theorem sortLoop_sorted : ∀ (fuel : Nat) (l : List α), runs less l ≤ fuel →
    Sorted less (sortLoop less fuel l)
  | 0, l, h => sorted_of_runs hw (Nat.le_trans h (Nat.zero_le 1))
  | fuel + 1, l, h => by
    obtain ⟨hn, hruns⟩ := sortPass_spec hw l.length l (Nat.le_refl _)
    rw [sortLoop]
    split
    · exact sortLoop_sorted fuel _ (by omega)
    · exact sorted_of_runs hw (by omega)

/-- **`list_sort` sorts** with respect to every strict weak order. -/
theorem listSort_sorted (l : List α) : Sorted less (listSort less l) :=
  sortLoop_sorted hw l.length l (runs_le_length less l)

/-! ### Equals keep their order -/

variable {c : α}

/-- Two elements alike to a third are alike. -/
theorem less_eq_false_of_alike (hx : alike less c x = true) (hy : alike less c y = true) :
    less x y = false := by
  simp only [alike, and_eq_true, not_eq_true'] at hx hy
  exact hw.trans hy.2 hx.1

theorem mergeBefore_alike (has : Sorted less (a :: as))
    (hnext : ∀ bs, (next bs).filter (alike less c) =
      as.filter (alike less c) ++ bs.filter (alike less c)) :
    ∀ bs, (mergeBefore less a as next bs).filter (alike less c) =
      (a :: as).filter (alike less c) ++ bs.filter (alike less c)
  | [] => by rw [mergeBefore, filter_nil, append_nil]
  | b :: bs => by
    rw [mergeBefore]
    split
    · rename_i hba
      rw [filter_cons, mergeBefore_alike has hnext bs]
      by_cases hb : alike less c b = true
      · -- an element that is moved to the front passes none that is alike
        have hnone : (a :: as).filter (alike less c) = [] := by
          refine filter_eq_nil_iff.mpr fun x hx hax => ?_
          have hbx : less b x = false := less_eq_false_of_alike hw hb hax
          have hxa : less x a = false := by
            rcases mem_cons.mp hx with rfl | hx
            · exact less_eq_false_of_alike hw hax hax
            · exact (pairwise_cons.mp has).1 x hx
          rw [hw.trans hxa hbx] at hba
          cases hba
        simp [hnone, hb]
      · simp [hb]
    · rw [filter_cons, filter_cons, hnext (b :: bs)]
      split
      · rw [cons_append]
      · rfl

theorem inplaceMerge_alike : ∀ {as : List α}, Sorted less as → ∀ bs,
    (inplaceMerge less as bs).filter (alike less c) =
      as.filter (alike less c) ++ bs.filter (alike less c)
  | [], _, _ => rfl
  | _ :: _, has, bs =>
    mergeBefore_alike hw has (inplaceMerge_alike (pairwise_cons.mp has).2) bs

theorem sortPass_alike : ∀ (fuel : Nat) (l : List α),
    (sortPass less fuel l).1.filter (alike less c) = l.filter (alike less c)
  | 0, _ => rfl
  | _ + 1, [] => rfl
  | fuel + 1, a :: as => by
    have hcut := findEndOfRun_append less a as
    have hsorted := findEndOfRun_sorted hw a as
    rw [sortPass]
    cases hr : findEndOfRun less a as with
    | mk r rest =>
      rw [hr] at hcut hsorted
      cases rest with
      | nil =>
        have hr' : r = as := by simpa using hcut
        simp only [hr']
      | cons b bs =>
        have hcut' := findEndOfRun_append less b bs
        have hwhole : a :: as =
            (a :: r) ++ ((b :: (findEndOfRun less b bs).1) ++ (findEndOfRun less b bs).2) := by
          rw [cons_append, cons_append, hcut', show r ++ b :: bs = as from hcut]
        simp only
        rw [hwhole, filter_append, inplaceMerge_alike hw hsorted,
          sortPass_alike fuel (findEndOfRun less b bs).2, filter_append, filter_append,
          append_assoc]

theorem sortLoop_alike : ∀ (fuel : Nat) (l : List α),
    (sortLoop less fuel l).filter (alike less c) = l.filter (alike less c)
  | 0, _ => rfl
  | fuel + 1, l => by
    rw [sortLoop]
    split
    · rw [sortLoop_alike fuel, sortPass_alike hw]
    · exact sortPass_alike hw l.length l

/-- **`list_sort` is stable**: of two elements neither of which is `less` than the other, the one
    that came first comes first. -/
theorem listSort_stable (hab : less a b = false) (hba : less b a = false)
    (h : [a, b].Sublist l) : [a, b].Sublist (listSort less l) := by
  have haa : less a a = false := by
    cases hx : less a a with
    | false => rfl
    | true => exact absurd (hw.asymm hx) (by rw [hx]; decide)
  have hpair : [a, b].filter (alike less a) = [a, b] := by simp [alike, hab, hba, haa]
  have hsub := h.filter (alike less a)
  rw [hpair, ← sortLoop_alike hw l.length l] at hsub
  exact hsub.trans filter_sublist

end StrictWeak

/-! ## `list_unique` -/

/-- The loop of `list_unique`: what stays of the elements behind `elem`, and what is removed. -/
def uniqueFrom (less : α → α → Bool) (elem : α) : List α → List α × List α
  | [] => ([], [])
  | next :: l =>
    if !less elem next && !less next elem then
      ((uniqueFrom less elem l).1, next :: (uniqueFrom less elem l).2)
    else (next :: (uniqueFrom less next l).1, (uniqueFrom less next l).2)

/-- `list_unique`: the list, and the list `duplicates` if there is one. -/
def listUnique (less : α → α → Bool) (duplicates : Option (List α)) :
    List α → List α × Option (List α)
  | [] => ([], duplicates)
  | elem :: l =>
    (elem :: (uniqueFrom less elem l).1, duplicates.map (· ++ (uniqueFrom less elem l).2))

theorem uniqueFrom_spec (less : α → α → Bool) : ∀ (l : List α) (elem : α),
    ((uniqueFrom less elem l).1 ++ (uniqueFrom less elem l).2).Perm l ∧
      (uniqueFrom less elem l).1.Sublist l ∧ (uniqueFrom less elem l).2.Sublist l ∧
      (elem :: (uniqueFrom less elem l).1).IsChain fun a b => alike less b a = false
  | [], elem => ⟨.refl _, .refl _, .refl _, .singleton elem⟩
  | next :: l, elem => by
    rw [uniqueFrom]
    split
    · obtain ⟨hperm, hkept, hremoved, hchain⟩ := uniqueFrom_spec less l elem
      exact ⟨perm_middle.trans (hperm.cons next), hkept.cons next, hremoved.cons_cons next, hchain⟩
    · rename_i hne
      obtain ⟨hperm, hkept, hremoved, hchain⟩ := uniqueFrom_spec less l next
      exact ⟨hperm.cons next, hkept.cons_cons next, hremoved.cons next,
        isChain_cons_cons.mpr ⟨eq_false_iff.mpr hne, hchain⟩⟩

/-- Elements that are alike are alike to the same ones. -/
theorem alike_congr (hw : StrictWeak less) (h : alike less a b = true) (c : α) :
    alike less c a = alike less c b := by
  rw [Bool.eq_iff_iff]
  simp only [alike, and_eq_true, not_eq_true'] at h ⊢
  constructor
  · intro hc
    exact ⟨hw.trans hc.1 h.1, hw.trans h.2 hc.2⟩
  · intro hc
    exact ⟨hw.trans hc.1 h.2, hw.trans h.1 hc.2⟩

theorem uniqueFrom_sorted (hw : StrictWeak less) : ∀ {l : List α} {elem : α},
    Sorted less (elem :: l) →
    (elem :: (uniqueFrom less elem l).1).Pairwise (fun a b => less a b = true) ∧
      ∀ c, (elem :: (uniqueFrom less elem l).1).filter (alike less c) =
        ((elem :: l).filter (alike less c)).take 1
  | [], elem, _ => by
    refine ⟨pairwise_singleton .., fun c => ?_⟩
    cases h : alike less c elem <;> simp [uniqueFrom, h]
  | next :: l, elem, h => by
    obtain ⟨hhead, htail⟩ := pairwise_cons.mp h
    rw [uniqueFrom]
    split
    · rename_i heq
      have hskip := h.sublist (.cons_cons elem (sublist_cons_self next l))
      obtain ⟨hlt, hclass⟩ := uniqueFrom_sorted hw hskip
      refine ⟨hlt, fun c => (hclass c).trans ?_⟩
      have hsame := alike_congr hw (show alike less next elem = true from heq) c
      cases hc : alike less c elem <;> simp [hc, hsame]
    · rename_i hne
      obtain ⟨hlt, hclass⟩ := uniqueFrom_sorted hw htail
      have hnext : less elem next = true := by
        simpa [hhead next mem_cons_self] using hne
      -- what follows is not less than `next`
      have hless : ∀ y ∈ next :: l, less elem y = true := by
        intro y hy
        by_contra hy'
        have hle : less y next = false := by
          rcases mem_cons.mp hy with rfl | hy
          · exact absurd hnext hy'
          · exact (pairwise_cons.mp htail).1 y hy
        exact absurd hnext (by simp [hw.trans hle (eq_false_iff.mpr hy')])
      refine ⟨pairwise_cons.mpr ⟨fun y hy => hless y ?_, hlt⟩, fun c => ?_⟩
      · exact (Sublist.cons_cons next (uniqueFrom_spec less l next).2.1).subset hy
      cases hc : alike less c elem with
      | false =>
        have hno : ¬ alike less c elem = true := by simp [hc]
        rw [filter_cons_of_neg hno, filter_cons_of_neg hno, hclass c]
      | true =>
        have hnone : (next :: l).filter (alike less c) = [] := by
          rw [filter_eq_nil_iff]
          intro y hy hcy
          exact absurd (hless y hy) (by simp [less_eq_false_of_alike hw hc hcy])
        rw [filter_cons_of_pos hc, filter_cons_of_pos hc, hclass c, hnone]
        rfl

/-- **`list_unique`** leaves no two neighbours alike and gives the others to `duplicates`, in order;
    of a sorted list it leaves the first element of each class, strictly increasing. -/
theorem list_unique_correct (less : α → α → Bool) (duplicates : Option (List α)) (l : List α) :
    ∃ kept removed, listUnique less duplicates l = (kept, duplicates.map (· ++ removed)) ∧
      (kept ++ removed).Perm l ∧ kept.Sublist l ∧ removed.Sublist l ∧
      (kept.IsChain fun a b => alike less b a = false) ∧
      (StrictWeak less → Sorted less l → (kept.Pairwise fun a b => less a b = true) ∧
        ∀ c, kept.filter (alike less c) = (l.filter (alike less c)).take 1) := by
  cases l with
  | nil =>
    refine ⟨[], [], ?_, .refl _, .refl _, .refl _, .nil, fun _ _ => ⟨.nil, fun c => rfl⟩⟩
    cases duplicates <;> simp [listUnique]
  | cons elem l =>
    obtain ⟨hperm, hkept, hremoved, hchain⟩ := uniqueFrom_spec less l elem
    exact ⟨_, _, rfl, hperm.cons elem, hkept.cons_cons elem, hremoved.cons elem, hchain,
      fun hw => uniqueFrom_sorted hw⟩

end Pintos.Lib
