/-
  Sequences of list operations refine operations on sequences.

  1. **Operations** (`Op`) — a call of one function of `list.c`.  Which list an element is in is no
     argument of the function: the indices in an `Op` say where the caller believes it to be, and
     only the precondition and the sequences see them.

  2. **Sequences** — `Op.apply` is what the call is meant to do; a place in a list is named by the
     element that follows it, or by the tail.

  3. **The theorem** (`lists_refine`), by induction on the calls from one step lemma
     (`exec_leads`).
-/
import Mathlib.Data.List.TakeWhile
import Pintos.Lib.ListLinks

namespace Pintos.Lib.Cells

open Base Links Function List Option

set_option linter.unusedSectionVars false

variable {P : Type} [DecidableEq P] {fuel : Nat}

/-! ## Operations on sequences -/

/-- `mid` inserted just before `b`; at the end, if `b` is the tail. -/
def place (mid : List P) (b : P) (l : List P) : List P :=
  l.takeWhile (· ≠ b) ++ mid ++ l.dropWhile (· ≠ b)

/-- The elements from `first` on, up to `last` and without it. -/
def range (first last : P) (l : List P) : List P := (l.dropWhile (· ≠ first)).takeWhile (· ≠ last)

def without (first last : P) (l : List P) : List P :=
  l.takeWhile (· ≠ first) ++ (l.dropWhile (· ≠ first)).dropWhile (· ≠ last)

section

variable {b c f t : P} {l : List P}

theorem headD_dropWhile (h : b ∈ l ++ [t]) : (l.dropWhile (· ≠ b)).headD t = b := by
  induction l with
  | nil => simpa [eq_comm] using h
  | cons x l ih =>
    by_cases hx : x = b
    · simp [hx]
    · rw [dropWhile_cons_of_pos (by simpa using hx)]
      refine ih ?_
      rcases mem_cons.mp h with rfl | h
      · exact absurd rfl hx
      · exact h

theorem range_split (first last : P) (l : List P) :
    l = l.takeWhile (· ≠ first) ++ range first last l ++
      (l.dropWhile (· ≠ first)).dropWhile (· ≠ last) := by
  rw [range, append_assoc, takeWhile_append_dropWhile, takeWhile_append_dropWhile]

theorem head?_range (hf : f ∈ l ++ [t]) (hc : c ∈ l.dropWhile (· ≠ f) ++ [t]) (hne : f ≠ c) :
    (range f c l).head? = some f := by
  have hhead := headD_dropWhile hf
  rw [range]
  cases hrest : l.dropWhile (· ≠ f) with
  | nil =>
    rw [hrest] at hhead hc
    exact absurd (hhead.symm.trans (mem_singleton.mp hc).symm) hne
  | cons x =>
    rw [hrest] at hhead
    obtain rfl : x = f := hhead
    rw [takeWhile_cons_of_pos (by simpa using hne)]
    rfl

theorem range_self (f : P) (l : List P) : range f f l = [] := by
  rw [range]
  cases hrest : l.dropWhile (· ≠ f) with
  | nil => rfl
  | cons =>
    have hx := head_dropWhile_not (fun y => decide (y ≠ f)) (l := l) (by rw [hrest]; simp)
    simp only [hrest, head_cons] at hx
    exact takeWhile_cons_of_neg (by simpa using hx)

end

/-! ## Calls -/

inductive Op (ι P : Type) where
  | init (i : ι)
  | insert (i : ι) (before elem : P)
  | splice (i : ι) (before : P) (j : ι) (first last : P)
  | pushFront (i : ι) (elem : P)
  | pushBack (i : ι) (elem : P)
  | remove (i : ι) (elem : P)
  | popFront (i : ι)
  | popBack (i : ι)
  | reverse (i : ι)

namespace Op

variable {ι : Type}

/-- **The call**: the heap after it, and what it returns (null, if nothing). -/
def exec (hdr : ι → ListObj P) (fuel : Nat) (H : Links P) :
    Op ι P → Except Fault (Links P × Option P)
  | .init i => .ok (listInit H (hdr i), none)
  | .insert _ before elem => do
    let H ← listInsert H (some before) (some elem)
    return (H, none)
  | .splice _ before _ first last => do
    let H ← listSplice H (some before) (some first) (some last)
    return (H, none)
  | .pushFront i elem => do
    let H ← listPushFront H (hdr i) (some elem)
    return (H, none)
  | .pushBack i elem => do
    let H ← listPushBack H (hdr i) (some elem)
    return (H, none)
  | .remove _ elem => listRemove H (some elem)
  | .popFront i => listPopFront H (hdr i)
  | .popBack i => listPopBack H (hdr i)
  | .reverse i => do
    let H ← listReverse fuel H (hdr i)
    return (H, none)

/-- **The precondition**: a new element is in no list, the place to insert at is an element or the
    tail, `last` does not come before `first`, and `before` is not one of the elements that move. -/
def pre (hdr : ι → ListObj P) (F : ι → List P) : Op ι P → Prop
  | .init _ => True
  | .insert i before elem =>
    before ∈ F i ++ [(hdr i).tail] ∧ ∀ k, elem ∉ chain (hdr k) (F k)
  | .splice i before j first last =>
    before ∈ F i ++ [(hdr i).tail] ∧ first ∈ F j ++ [(hdr j).tail] ∧
      last ∈ (F j).dropWhile (· ≠ first) ++ [(hdr j).tail] ∧ before ∉ range first last (F j)
  | .pushFront _ elem => ∀ k, elem ∉ chain (hdr k) (F k)
  | .pushBack _ elem => ∀ k, elem ∉ chain (hdr k) (F k)
  | .remove i elem => elem ∈ F i
  | .popFront i => F i ≠ []
  | .popBack i => F i ≠ []
  | .reverse _ => True

variable [DecidableEq ι]

/-- **The operation on the sequences.** -/
def apply (F : ι → List P) : Op ι P → ι → List P
  | .init i => update F i []
  | .insert i before elem => update F i (place [elem] before (F i))
  | .splice i before j first last =>
    let F₁ := update F j (without first last (F j))
    update F₁ i (place (range first last (F j)) before (F₁ i))
  | .pushFront i elem => update F i (elem :: F i)
  | .pushBack i elem => update F i (F i ++ [elem])
  | .remove i elem => update F i ((F i).erase elem)
  | .popFront i => update F i (F i).tail
  | .popBack i => update F i (F i).dropLast
  | .reverse i => update F i (F i).reverse

/-- What the call returns, in terms of the sequences. -/
def returns (hdr : ι → ListObj P) (F : ι → List P) : Op ι P → Option P
  | .remove i elem => some (((F i).dropWhile (· ≠ elem)).tail.headD (hdr i).tail)
  | .popFront i => (F i).head?
  | .popBack i => (F i).getLast?
  | _ => none

def touches : Op ι P → List ι
  | .splice i _ j _ _ => [i, j]
  | .init i | .insert i _ _ | .pushFront i _ | .pushBack i _ | .remove i _ | .popFront i
  | .popBack i | .reverse i => [i]

end Op

/-! ## One call -/

section

variable {ι : Type} [DecidableEq ι] {hdr : ι → ListObj P} {H : Links P} {F : ι → List P} {i j : ι}
  {b c e f : P} {op : Op ι P} {ops : List (Op ι P)}

section

variable (h : WellFormed hdr H F)
include h

theorem splice_leads (hpre : (Op.splice i b j f c).pre hdr F) :
    ∃ H', listSplice H (some b) (some f) (some c) = .ok H' ∧
      Leads hdr H F [i, j] H' ((Op.splice i b j f c).apply F) := by
  obtain ⟨hb, hf, hc, hout⟩ := hpre
  by_cases hfc : f = c
  · -- no elements at all
    subst hfc
    have hwithout : without f f (F j) = F j := by
      have hsplit := range_split f f (F j)
      rw [range_self, append_nil] at hsplit
      exact hsplit.symm
    refine ⟨H, ?_, ?_, fun k _ a _ => ⟨rfl, rfl⟩⟩
    · have hprev := (h.joined (i := i) (takeWhile_append_dropWhile (p := (· ≠ b))).symm).2
      rw [headD_dropWhile hb] at hprev
      rw [listSplice, interior_or_tail (by simp [hprev]), ok_bind, if_pos rfl]
      rfl
    · simp only [Op.apply, hwithout, range_self, place, append_nil,
        update_eq_self, takeWhile_append_dropWhile]
      exact h
  · have hmem : b ∈ update F j (without f c (F j)) i ++ [(hdr i).tail] := by
      by_cases hij : i = j
      · subst hij
        rw [update_self, without]
        rw [range_split f c (F i)] at hb
        simp only [mem_append] at hb ⊢
        tauto
      · rwa [update_of_ne hij]
    obtain ⟨H', hexec, hleads⟩ := listSplice_leads h (range_split f c (F j))
      (head?_range hf hc hfc)
      (takeWhile_append_dropWhile (p := (· ≠ b)) (l := update F j (without f c (F j)) i)).symm
    rw [headD_dropWhile hmem, headD_dropWhile hc] at hexec
    exact ⟨H', hexec, hleads⟩

theorem remove_leads (he : e ∈ F i) :
    ∃ H', listRemove H (some e) = .ok (H', (Op.remove i e).returns hdr F) ∧
      Leads hdr H F [i] H' ((Op.remove i e).apply F) := by
  have hsplit : F i = (F i).takeWhile (· ≠ e) ++ e :: ((F i).dropWhile (· ≠ e)).tail := by
    have hhead : ((F i).dropWhile (· ≠ e)).headD e = e := headD_dropWhile (mem_append_left _ he)
    have hne : (F i).dropWhile (· ≠ e) ≠ [] := by
      intro hx
      have := dropWhile_eq_nil_iff.mp hx e he
      simp at this
    cases hd : (F i).dropWhile (· ≠ e) with
    | nil => exact absurd hd hne
    | cons x =>
      rw [hd] at hhead
      obtain rfl : x = e := hhead
      rw [tail_cons, ← hd, takeWhile_append_dropWhile]
  have hnot : e ∉ (F i).takeWhile (· ≠ e) := by
    intro hx
    simpa using mem_takeWhile_imp hx
  have herase : (F i).erase e = (F i).takeWhile (· ≠ e) ++ ((F i).dropWhile (· ≠ e)).tail := by
    conv_lhs => rw [hsplit]
    rw [erase_append_right _ hnot, erase_cons_head]
  obtain ⟨H', hexec, hleads⟩ := listRemove_leads h hsplit
  refine ⟨H', hexec, ?_⟩
  rwa [Op.apply, herase]

theorem listFront_eq {x : P} {xs : List P} (hF : F i = x :: xs) :
    listFront H (hdr i) = .ok (some x) := by
  have hassert : (!listEmpty H (hdr i)) = true := by
    rw [Bool.not_eq_true', ← Bool.not_eq_true, h.listEmpty_iff, hF]
    exact cons_ne_nil x xs
  have hbegin := h.listBegin (i := i)
  rw [hF] at hbegin
  rw [listFront, assertThat_true hassert]
  exact congrArg Except.ok hbegin

theorem listBack_eq {m : P} (hF : (F i).getLast? = some m) : listBack H (hdr i) = .ok (some m) := by
  have hassert : (!listEmpty H (hdr i)) = true := by
    rw [Bool.not_eq_true', ← Bool.not_eq_true, h.listEmpty_iff]
    intro hnil
    rw [hnil] at hF
    cases hF
  have hprev := h.prev_tail (i := i)
  rw [getLastD_eq_getLast?, hF] at hprev
  rw [listBack, assertThat_true hassert]
  exact congrArg Except.ok hprev

/-- **One call** within its precondition does what it is meant to do, and touches no other list. -/
theorem exec_leads (hpre : op.pre hdr F) :
    ∃ H' n, (∀ fuel, n ≤ fuel → op.exec hdr fuel H = .ok (H', op.returns hdr F)) ∧
      Leads hdr H F op.touches H' (op.apply F) := by
  cases op with
  | init => exact ⟨_, 0, fun fuel _ => rfl, listInit_leads h⟩
  | insert i before =>
    obtain ⟨H', hexec, hleads⟩ := listInsert_leads h
      (takeWhile_append_dropWhile (p := (· ≠ before))).symm hpre.2
    rw [headD_dropWhile hpre.1] at hexec
    refine ⟨H', 0, fun fuel _ => ?_, ?_⟩
    · simp only [Op.exec, hexec, ok_bind]
      rfl
    · rwa [Op.apply, place, append_assoc]
  | splice =>
    obtain ⟨H', hexec, hleads⟩ := splice_leads h hpre
    refine ⟨H', 0, fun fuel _ => ?_, hleads⟩
    simp only [Op.exec, hexec, ok_bind]
    rfl
  | pushFront i =>
    obtain ⟨H', hexec, hleads⟩ := listInsert_leads h (show F i = [] ++ F i from rfl) hpre
    refine ⟨H', 0, fun fuel _ => ?_, hleads⟩
    simp only [Op.exec, listPushFront, h.listBegin, hexec]
    rfl
  | pushBack i elem =>
    obtain ⟨H', hexec, hleads⟩ :=
      listInsert_leads h (show F i = F i ++ [] from (append_nil _).symm) hpre
    refine ⟨H', 0, fun fuel _ => ?_, hleads⟩
    simp only [Op.exec, listPushBack, listEnd]
    rw [show listInsert H (some (hdr i).tail) (some elem) = _ from hexec]
    rfl
  | remove =>
    obtain ⟨H', hexec, hleads⟩ := remove_leads h hpre
    exact ⟨H', 0, fun fuel _ => hexec, hleads⟩
  | popFront i =>
    cases hF : F i with
    | nil => exact absurd hF hpre
    | cons x xs =>
      obtain ⟨H', hexec, hleads⟩ := listRemove_leads h (show F i = [] ++ x :: xs from hF)
      refine ⟨H', 0, fun fuel _ => ?_, ?_⟩
      · simp only [Op.exec, listPopFront, listFront_eq h hF, ok_bind, hexec, Op.returns, hF]
        rfl
      · rwa [Op.apply, hF]
  | popBack i =>
    obtain ⟨m, hm⟩ : ∃ m, (F i).getLast? = some m :=
      ne_none_iff_exists'.mp (mt getLast?_eq_none_iff.mp hpre)
    have hsplit : F i = (F i).dropLast ++ [m] := (dropLast_append_getLast? m hm).symm
    obtain ⟨H', hexec, hleads⟩ := listRemove_leads h hsplit
    refine ⟨H', 0, fun fuel _ => ?_, ?_⟩
    · simp only [Op.exec, listPopBack, listBack_eq h hm, ok_bind, hexec, Op.returns, hm]
      rfl
    · rwa [append_nil] at hleads
  | reverse i =>
    obtain ⟨H', hexec, hleads⟩ := listReverse_leads (i := i) h
    refine ⟨H', (F i).length, fun fuel hfuel => ?_, hleads⟩
    simp only [Op.exec, hexec fuel hfuel, ok_bind]
    rfl

end

/-! ## Many calls -/

/-- The calls one after the other: the heap at the end, and what each returned. -/
def runOps (hdr : ι → ListObj P) (fuel : Nat) :
    Links P → List (Op ι P) → Except Fault (Links P × List (Option P))
  | H, [] => .ok (H, [])
  | H, op :: ops => do
    let (H, r) ← op.exec hdr fuel H
    let (H, rs) ← runOps hdr fuel H ops
    return (H, r :: rs)

/-- The operations on the sequences, one after the other. -/
def applyOps (F : ι → List P) (ops : List (Op ι P)) : ι → List P := ops.foldl Op.apply F

def returnsOps (hdr : ι → ListObj P) : (ι → List P) → List (Op ι P) → List (Option P)
  | _, [] => []
  | F, op :: ops => op.returns hdr F :: returnsOps hdr (op.apply F) ops

/-- Every call is made within its precondition. -/
def Admissible (hdr : ι → ListObj P) : (ι → List P) → List (Op ι P) → Prop
  | _, [] => True
  | F, op :: ops => op.pre hdr F ∧ Admissible hdr (op.apply F) ops

theorem apply_of_not_touches {k : ι} (hk : k ∉ op.touches) : op.apply F k = F k := by
  cases op with
  | splice =>
    simp only [Op.touches, mem_cons, not_or, not_mem_nil, not_false_eq_true, and_true] at hk
    simp [Op.apply, update_of_ne hk.1, update_of_ne hk.2]
  | _ =>
    simp only [Op.touches, mem_singleton] at hk
    exact update_of_ne hk ..

theorem traverseFrom_eq (h : WellFormed hdr H F) {xs ys : List P}
    (hF : F i = xs ++ ys) (hfuel : ys.length ≤ fuel) :
    traverseFrom H (hdr i) fuel (some (ys.headD (hdr i).tail)) = .ok ys := by
  induction ys generalizing xs fuel with
  | nil => cases fuel <;> exact if_pos rfl
  | cons y ys ih =>
    have hF' : F i = xs ++ [y] ++ ys := by simpa using hF
    have hnd := h.nodup i
    simp only [hF, chain] at hnd
    have hend : ¬ some y = listEnd (hdr i) := by
      simp only [listEnd, some.injEq]
      grind
    have hnext := (h.joined hF').1
    rw [getLastD_concat] at hnext
    cases fuel with
    | zero => simp at hfuel
    | succ =>
      rw [headD_cons, traverseFrom, if_neg hend, listNext_eq hnext, ok_bind,
        ih hF' (by simpa using hfuel)]
      rfl

/-- **A traversal visits the sequence.** -/
theorem traverse_eq (h : WellFormed hdr H F) (hfuel : (F i).length ≤ fuel) :
    traverse fuel H (hdr i) = .ok (F i) := by
  rw [traverse, h.listBegin]
  exact traverseFrom_eq h (nil_append _).symm hfuel

/-- **Sequences of calls refine operations on sequences.**  From lists that represent the sequences
    `F`, calls within their preconditions end without a fault; the lists then represent what the
    operations make of `F`, a traversal of each visits just that, and the lists that no call
    involves have the links they had. -/
theorem lists_refine (h : WellFormed hdr H F) (hpre : Admissible hdr F ops) :
    ∃ H' n, (∀ fuel, n ≤ fuel → runOps hdr fuel H ops = .ok (H', returnsOps hdr F ops)) ∧
      WellFormed hdr H' (applyOps F ops) ∧
      (∀ i fuel, (applyOps F ops i).length ≤ fuel →
        traverse fuel H' (hdr i) = .ok (applyOps F ops i)) ∧
      ∀ k, (∀ op ∈ ops, k ∉ op.touches) →
        applyOps F ops k = F k ∧ Agree H H' (chain (hdr k) (F k)) := by
  induction ops generalizing H F with
  | nil =>
    exact ⟨H, 0, fun fuel _ => rfl, h, fun i fuel hfuel => traverse_eq h hfuel,
      fun k _ => ⟨rfl, fun c _ => ⟨rfl, rfl⟩⟩⟩
  | cons op ops ih =>
    obtain ⟨hop, hrest⟩ := hpre
    obtain ⟨H₁, n₁, hexec, hleads⟩ := exec_leads h hop
    obtain ⟨H₂, n₂, hrun, hwf, htrav, hframe⟩ := ih hleads.wellFormed hrest
    refine ⟨H₂, max n₁ n₂, fun fuel hfuel => ?_, hwf, htrav, fun k hk => ?_⟩
    · simp only [runOps, hexec fuel (by omega), hrun fuel (by omega), ok_bind]
      rfl
    · obtain ⟨hk₁, hk₂⟩ := forall_mem_cons.mp hk
      obtain ⟨hsame, hagree⟩ := hframe k hk₂
      have hfirst := apply_of_not_touches (F := F) hk₁
      rw [hfirst] at hsame hagree
      exact ⟨hsame, (hleads.frame k hk₁).trans hagree⟩

end

/-- Two lists, with their headers at 0 and 1 and at 2 and 3. -/
def twoLists : Bool → ListObj Nat
  | false => ⟨0, 1⟩
  | true => ⟨2, 3⟩

/-- Both initialised, whatever the memory held. -/
def twoEmpty (H : Links Nat) : Links Nat := listInit (listInit H (twoLists false)) (twoLists true)

theorem twoEmpty_wellFormed (H : Links Nat) : WellFormed twoLists (twoEmpty H) fun _ => [] where
  linked := by
    rintro (_ | _) <;> exact isChain_cons_cons.mpr ⟨⟨rfl, rfl⟩, isChain_singleton _⟩
  first := by rintro (_ | _) a ha <;> obtain rfl := some.inj ha <;> rfl
  last := by rintro (_ | _) a ha <;> obtain rfl := some.inj ha <;> rfl
  nodup := by decide
  apart := by decide

/-- Elements pushed, a list reversed, ranges spliced from one list into the other and within one,
    elements inserted, removed and popped. -/
def someCalls : List (Op Bool Nat) :=
  [.pushBack false 4, .pushBack false 5, .pushFront false 6, .reverse false,
    .splice true 3 false 4 1, .splice true 4 true 6 3, .insert true 4 7, .remove true 6,
    .popFront true, .popBack false]

/-- What is left of them is one element. -/
theorem lists_refine_two : ∃ H' n,
    (∀ fuel, n ≤ fuel → runOps twoLists fuel (twoEmpty ⟨fun _ => none, fun _ => none⟩) someCalls =
      .ok (H', [none, none, none, none, none, none, none, some 7, some 7, some 5])) ∧
    traverse 1 H' (twoLists true) = .ok [4] ∧ traverse 1 H' (twoLists false) = .ok [] := by
  have hcalls : Admissible twoLists (fun _ => []) someCalls := by
    simp only [someCalls, Admissible, Op.pre]
    decide
  obtain ⟨H', n, hrun, -, htrav, -⟩ :=
    lists_refine (twoEmpty_wellFormed ⟨fun _ => none, fun _ => none⟩) hcalls
  exact ⟨H', n, hrun, htrav true 1 (by decide), htrav false 1 (by decide)⟩

end Pintos.Lib.Cells
