/-
  Cells with a link in each direction, and the chains they form.

  1. **Chains** — `Linked H l` says that each cell of `l` leads to the next one and back.  A write
     that joins two cells matters to a chain only where the chain goes on after the first or comes
     to the second (`Linked.join`).

  2. **Families** (`Sound`) — chains without a common cell, each closed at both ends.  All that a
     program does to a family is to `cut` a stretch out of a chain, to `paste` one in, or to turn a
     chain round between its ends (`turn`); the chains that it does not touch keep their links.
-/
import Mathlib.Data.List.Chain
import Mathlib.Data.List.Nodup
import Mathlib.Logic.Function.Basic

namespace Pintos.Base

open Function List

/-- What cells point to. -/
structure Links (P : Type) where
  prev : P → Option P
  next : P → Option P

namespace Links

variable {P ι : Type} [DecidableEq P] [DecidableEq ι] {H H' : Links P} {a b c f m p : P}
  {l xs ys mid us vs : List P}

/-! ## Chains -/

/-- `b` comes after `a`, and both know it. -/
def Joined (H : Links P) (a b : P) : Prop := H.next a = some b ∧ H.prev b = some a

/-- Each cell is joined to the one after it. -/
def Linked (H : Links P) (l : List P) : Prop := l.IsChain H.Joined

/-- Make `b` come after `a`. -/
def join (H : Links P) (a b : P) : Links P where
  prev := update H.prev b (some a)
  next := update H.next a (some b)

/-- The two have the same links in the cells of `l`. -/
def Agree (H H' : Links P) (l : List P) : Prop :=
  ∀ c ∈ l, H'.prev c = H.prev c ∧ H'.next c = H.next c

omit [DecidableEq P] in
theorem Linked.congr (h : Linked H l) (hnext : ∀ c ∈ l.dropLast, H'.next c = H.next c)
    (hprev : ∀ c ∈ l.tail, H'.prev c = H.prev c) : Linked H' l := by
  induction l with
  | nil => exact isChain_nil
  | cons a l ih =>
    cases l with
    | nil => exact isChain_singleton a
    | cons b =>
      obtain ⟨⟨hab, hba⟩, htail⟩ := isChain_cons_cons.mp h
      refine isChain_cons_cons.mpr ⟨⟨?_, ?_⟩, ih htail ?_ ?_⟩
      · rw [hnext a (mem_cons_self ..), hab]
      · rw [hprev b (mem_cons_self ..), hba]
      · exact fun c hc => hnext c (mem_cons_of_mem _ hc)
      · exact fun c hc => hprev c (mem_cons_of_mem _ hc)

omit [DecidableEq P] in
theorem Linked.agree (h : Linked H l) (hs : Agree H H' l) : Linked H' l :=
  h.congr (fun c hc => (hs c (dropLast_subset l hc)).2)
    fun c hc => (hs c (mem_of_mem_tail hc)).1

theorem join_next_of_ne (h : c ≠ a) : (H.join a b).next c = H.next c := update_of_ne h ..

theorem join_prev_of_ne (h : c ≠ b) : (H.join a b).prev c = H.prev c := update_of_ne h ..

theorem agree_join (ha : a ∉ l) (hb : b ∉ l) : Agree H (H.join a b) l := by
  intro c hc
  have hcb : c ≠ b := fun h => hb (h ▸ hc)
  have hca : c ≠ a := fun h => ha (h ▸ hc)
  exact ⟨join_prev_of_ne hcb, join_next_of_ne hca⟩

omit [DecidableEq P] in
theorem Agree.trans {H'' : Links P} (h : Agree H H' l) (h' : Agree H' H'' l) : Agree H H'' l :=
  fun c hc => ⟨(h' c hc).1.trans (h c hc).1, (h' c hc).2.trans (h c hc).2⟩

theorem Linked.join_last (h : Linked H (us ++ [p])) (hp : p ∉ us) (hb : b ∉ us ++ [p]) :
    Linked (H.join p b) (us ++ [p]) := by
  refine h.congr (fun c hc => ?_) fun c hc => ?_
  · rw [dropLast_concat] at hc
    exact join_next_of_ne fun hx => hp (hx ▸ hc)
  · exact join_prev_of_ne fun hx => hb (hx ▸ mem_of_mem_tail hc)

theorem Linked.join_first (h : Linked H (b :: vs)) (hb : b ∉ vs) (ha : a ∉ b :: vs) :
    Linked (H.join a b) (b :: vs) := by
  refine h.congr (fun c hc => ?_) fun c hc => ?_
  · exact join_next_of_ne fun hx => ha (hx ▸ dropLast_subset _ hc)
  · exact join_prev_of_ne fun hx => hb (hx ▸ hc)

/-- **Two chains joined.** -/
theorem Linked.join (hl : Linked H (xs ++ [a])) (hr : Linked H (b :: ys))
    (hnd : (xs ++ a :: b :: ys).Nodup) : Linked (H.join a b) (xs ++ a :: b :: ys) := by
  refine isChain_append_cons_cons.mpr ⟨hl.join_last ?_ ?_, ⟨?_, ?_⟩, hr.join_first ?_ ?_⟩
  · grind
  · grind
  · exact update_self ..
  · exact update_self ..
  · grind
  · grind

/-- **A stretch taken out** of a chain. -/
theorem Linked.cut (h : Linked H (xs ++ a :: (mid ++ c :: ys)))
    (hnd : (xs ++ a :: (mid ++ c :: ys)).Nodup) :
    Linked (H.join a c) (xs ++ a :: c :: ys) ∧ Linked (H.join a c) mid := by
  obtain ⟨hl, hr⟩ := isChain_split.mp h
  obtain ⟨hmid, hys⟩ := isChain_cons_split.mp hr
  have hmid' : Linked H mid := hmid.tail.left_of_append
  exact ⟨Linked.join hl hys (by grind), hmid'.agree (agree_join (by grind) (by grind))⟩

/-- **A stretch put in**, from `f` to `m`, between two neighbours. -/
theorem Linked.paste (h : Linked H (us ++ p :: b :: vs)) (hmid : Linked H mid)
    (hf : mid.head? = some f) (hm : mid.getLast? = some m)
    (hnd : (us ++ p :: (mid ++ b :: vs)).Nodup) :
    Linked ((H.join p f).join m b) (us ++ p :: (mid ++ b :: vs)) := by
  obtain ⟨hl, -, hr⟩ := isChain_append_cons_cons.mp h
  -- first the left junction, then the right one
  obtain ⟨rest, rfl⟩ : ∃ rest, mid = f :: rest := by
    cases mid with
    | nil => cases hf
    | cons x rest => exact ⟨rest, by rw [Option.some.inj hf]⟩
  have hleft : Linked (H.join p f) (us ++ p :: f :: rest) := Linked.join hl hmid (by grind)
  obtain ⟨front, hfront⟩ : ∃ front, us ++ p :: f :: rest = front ++ [m] := by
    refine ⟨(us ++ p :: f :: rest).dropLast, ?_⟩
    have hlast : (us ++ p :: f :: rest).getLast? = some m := by
      simpa [getLast?_append, getLast?_cons_cons] using hm
    exact (dropLast_append_getLast? m hlast).symm
  have hright : Linked (H.join p f) (b :: vs) := by
    refine Linked.agree hr (agree_join ?_ ?_)
    · grind
    · grind
  have hnd' : (front ++ m :: b :: vs).Nodup := by
    rw [append_cons, ← hfront]
    simpa using hnd
  rw [hfront] at hleft
  have hall := Linked.join hleft hright hnd'
  rw [append_cons, ← hfront] at hall
  simpa using hall

/-- The links of the cells of `xs` exchanged. -/
def exchange (H : Links P) (xs : List P) : Links P where
  prev c := if c ∈ xs then H.next c else H.prev c
  next c := if c ∈ xs then H.prev c else H.next c

/-- The chain from `h` over `xs` to `t` turned round between its ends, where `x` is the first and
    `m` the last cell of `xs`: the inner links exchanged, and the outer ones led to the other
    side. -/
def turn (H : Links P) (h : P) (xs : List P) (t x m : P) : Links P where
  prev := update (update (H.exchange xs).prev t (some x)) m (some h)
  next := update (update (H.exchange xs).next h (some m)) x (some t)

section Turn

variable {h t x : P}

theorem turn_prev_mem (hc : c ∈ xs) (ht : c ≠ t) (hm : c ≠ m) :
    (H.turn h xs t x m).prev c = H.next c := by
  show update _ _ _ c = _
  rw [update_of_ne hm, update_of_ne ht]
  exact if_pos hc

theorem turn_next_mem (hc : c ∈ xs) (hh : c ≠ h) (hx : c ≠ x) :
    (H.turn h xs t x m).next c = H.prev c := by
  show update _ _ _ c = _
  rw [update_of_ne hx, update_of_ne hh]
  exact if_pos hc

theorem turn_prev_of_not_mem (hc : c ∉ xs) (ht : c ≠ t) (hm : c ≠ m) :
    (H.turn h xs t x m).prev c = H.prev c := by
  show update _ _ _ c = _
  rw [update_of_ne hm, update_of_ne ht]
  exact if_neg hc

theorem turn_next_of_not_mem (hc : c ∉ xs) (hh : c ≠ h) (hx : c ≠ x) :
    (H.turn h xs t x m).next c = H.next c := by
  show update _ _ _ c = _
  rw [update_of_ne hx, update_of_ne hh]
  exact if_neg hc

theorem turn_ends (hx : x ≠ h) (hm : m ≠ t) :
    (H.turn h xs t x m).Joined x t ∧ (H.turn h xs t x m).Joined h m := by
  refine ⟨⟨update_self .., ?_⟩, ?_, update_self ..⟩
  · show update _ _ _ t = _
    rw [update_of_ne hm.symm, update_self]
  · show update _ _ _ h = _
    rw [update_of_ne hx.symm, update_self]

/-- **Turned round.** -/
theorem Linked.turn (hl : Linked H (h :: (xs ++ [t]))) (hnd : (h :: (xs ++ [t])).Nodup)
    (hx : xs.head? = some x) (hm : xs.getLast? = some m) :
    Linked (H.turn h xs t x m) (h :: (xs.reverse ++ [t])) := by
  have hxmem : x ∈ xs := mem_of_mem_head? hx
  have hmmem : m ∈ xs := mem_of_getLast? hm
  obtain ⟨hxt, hhm⟩ : (H.turn h xs t x m).Joined x t ∧ (H.turn h xs t x m).Joined h m :=
    turn_ends (by grind) (by grind)
  have hin : Linked H xs := hl.tail.left_of_append
  -- inside, the way back is the way there
  have hback : xs.IsChain fun a b => (H.turn h xs t x m).Joined b a := by
    refine isChain_iff_forall_rel_of_append_cons_cons.mpr fun a b us vs heq => ?_
    subst heq
    have hab := (isChain_append_cons_cons.mp hin).2.1
    refine ⟨(turn_next_mem (by simp) (by grind) ?_).trans hab.2,
      (turn_prev_mem (by simp) (by grind) ?_).trans hab.1⟩
    · cases us <;> grind
    · rintro rfl
      grind
  have hmid : Linked (H.turn h xs t x m) xs.reverse := isChain_reverse.mpr hback
  refine isChain_cons.mpr ⟨?_, isChain_append.mpr ⟨hmid, isChain_singleton t, ?_⟩⟩
  · intro y hy
    rw [head?_append, head?_reverse, hm] at hy
    obtain rfl : m = y := by simpa using hy
    exact hhm
  · intro y hy z hz
    rw [getLast?_reverse, hx] at hy
    obtain rfl : x = y := by simpa using hy
    obtain rfl : t = z := by simpa using hz
    exact hxt

end Turn

/-! ## Families -/

/-- **Chains without a common cell**, and closed at both ends. -/
structure Sound (H : Links P) (C : ι → List P) : Prop where
  linked : ∀ i, Linked H (C i)
  first : ∀ i, ∀ a ∈ (C i).head?, H.prev a = none
  last : ∀ i, ∀ a ∈ (C i).getLast?, H.next a = none
  nodup : ∀ i, (C i).Nodup
  apart : ∀ i j, i ≠ j → ∀ a ∈ C i, a ∉ C j

namespace Sound

variable {C : ι → List P} {i : ι}

omit [DecidableEq P] in
/-- **One chain at a time**: the others keep their links. -/
theorem replace (h : Sound H C) (hlinked : Linked H' l) (hfirst : ∀ a ∈ l.head?, H'.prev a = none)
    (hlast : ∀ a ∈ l.getLast?, H'.next a = none) (hnd : l.Nodup)
    (hapart : ∀ j, j ≠ i → ∀ a ∈ l, a ∉ C j) (hsame : ∀ j, j ≠ i → Agree H H' (C j)) :
    Sound H' (update C i l) := by
  refine ⟨fun j => ?_, fun j a ha => ?_, fun j a ha => ?_, fun j => ?_, fun j j' hj a ha ha' => ?_⟩
  · by_cases hj : j = i
    · subst hj; rwa [update_self]
    · rw [update_of_ne hj]
      exact (h.linked j).agree (hsame j hj)
  · by_cases hj : j = i
    · subst hj
      rw [update_self] at ha
      exact hfirst a ha
    · rw [update_of_ne hj] at ha
      rw [(hsame j hj a (mem_of_mem_head? ha)).1]
      exact h.first j a ha
  · by_cases hj : j = i
    · subst hj
      rw [update_self] at ha
      exact hlast a ha
    · rw [update_of_ne hj] at ha
      rw [(hsame j hj a (mem_of_getLast? ha)).2]
      exact h.last j a ha
  · by_cases hj : j = i
    · subst hj; rwa [update_self]
    · rw [update_of_ne hj]
      exact h.nodup j
  · by_cases hji : j = i
    · subst hji
      rw [update_self] at ha
      rw [update_of_ne (Ne.symm hj)] at ha'
      exact hapart j' (Ne.symm hj) a ha ha'
    · rw [update_of_ne hji] at ha
      by_cases hji' : j' = i
      · subst hji'
        rw [update_self] at ha'
        exact hapart j hji a ha' ha
      · rw [update_of_ne hji'] at ha'
        exact h.apart j j' hj a ha ha'

/-- **Cut**: a stretch of the chain `i` is taken out. -/
theorem cut (h : Sound H C) (hi : C i = xs ++ a :: (mid ++ c :: ys)) :
    Sound (H.join a c) (update C i (xs ++ a :: c :: ys)) ∧ Linked (H.join a c) mid ∧
      (∀ j, j ≠ i → Agree H (H.join a c) (C j)) := by
  have hnd := h.nodup i
  have hlink := h.linked i
  have hfirst := h.first i
  have hlast := h.last i
  have hother := h.apart i
  rw [hi] at hnd hlink hfirst hlast hother
  obtain ⟨hrest, hmid⟩ := hlink.cut hnd
  have hsame : ∀ j, j ≠ i → Agree H (H.join a c) (C j) := fun j hj =>
    agree_join (hother j (Ne.symm hj) a (by simp)) (hother j (Ne.symm hj) c (by simp))
  refine ⟨h.replace hrest (fun x hx => ?_) (fun x hx => ?_) ?_ ?_ hsame, hmid, hsame⟩
  · have hx' : x ∈ (xs ++ a :: (mid ++ c :: ys)).head? := by
      cases xs <;> exact hx
    rw [join_prev_of_ne ?_]
    · exact hfirst x hx'
    · rintro rfl
      cases xs <;> grind
  · have hx' : x ∈ (xs ++ a :: (mid ++ c :: ys)).getLast? := by
      simpa [getLast?_append, getLast?_cons] using hx
    rw [join_next_of_ne ?_]
    · exact hlast x hx'
    · rintro rfl
      have hxin : x ∈ c :: ys := by
        apply mem_of_getLast?
        simpa [getLast?_append, getLast?_cons] using hx
      grind
  · grind
  · intro j hj x hx
    exact hother j (Ne.symm hj) x (by grind)

/-- **Paste**: a stretch of cells that are in no chain is put into the chain `i`. -/
theorem paste (h : Sound H C) (hi : C i = us ++ p :: b :: vs) (hmid : Linked H mid)
    (hf : mid.head? = some f) (hm : mid.getLast? = some m) (hnd : mid.Nodup)
    (hfresh : ∀ j, ∀ a ∈ mid, a ∉ C j) :
    Sound ((H.join p f).join m b) (update C i (us ++ p :: (mid ++ b :: vs))) ∧
      ∀ j, j ≠ i → Agree H ((H.join p f).join m b) (C j) := by
  have hndi := h.nodup i
  have hlink := h.linked i
  have hfirst := h.first i
  have hlast := h.last i
  have hother := h.apart i
  have hfi := hfresh i
  rw [hi] at hndi hlink hfirst hlast hother hfi
  have hfmem : f ∈ mid := mem_of_mem_head? hf
  have hmmem : m ∈ mid := mem_of_getLast? hm
  have hnd' : (us ++ p :: (mid ++ b :: vs)).Nodup := by grind
  have hsame : ∀ j, j ≠ i → Agree H ((H.join p f).join m b) (C j) := fun j hj =>
    (agree_join (hother j (Ne.symm hj) p (by simp)) (hfresh j f hfmem)).trans
      (agree_join (hfresh j m hmmem) (hother j (Ne.symm hj) b (by simp)))
  refine ⟨h.replace (hlink.paste hmid hf hm hnd') (fun x hx => ?_) (fun x hx => ?_) hnd' ?_ hsame,
    hsame⟩
  · have hx' : x ∈ (us ++ p :: b :: vs).head? := by
      cases us <;> exact hx
    have hxin : x ∈ us ++ [p] := by
      cases us <;> grind
    rw [join_prev_of_ne (by grind), join_prev_of_ne (by grind)]
    exact hfirst x hx'
  · have hx' : x ∈ (us ++ p :: b :: vs).getLast? := by
      simpa [getLast?_append, getLast?_cons] using hx
    have hxin : x ∈ b :: vs := by grind
    rw [join_next_of_ne (by grind), join_next_of_ne (by grind)]
    exact hlast x hx'
  · grind

/-- **Turn**: the chain `i` is turned round between its ends. -/
theorem turn {h t x : P} (hs : Sound H C) (hi : C i = h :: (xs ++ [t])) (hx : xs.head? = some x)
    (hm : xs.getLast? = some m) :
    Sound (H.turn h xs t x m) (update C i (h :: (xs.reverse ++ [t]))) ∧
      ∀ j, j ≠ i → Agree H (H.turn h xs t x m) (C j) := by
  have hnd := hs.nodup i
  have hlink := hs.linked i
  have hfirst := hs.first i
  have hlast := hs.last i
  have hother := hs.apart i
  rw [hi] at hnd hlink hfirst hlast hother
  have hxmem : x ∈ xs := mem_of_mem_head? hx
  have hmmem : m ∈ xs := mem_of_getLast? hm
  have hsame : ∀ j, j ≠ i → Agree H (H.turn h xs t x m) (C j) := by
    intro j hj c hc
    have hout : c ∉ h :: (xs ++ [t]) := fun hx => hother j (Ne.symm hj) c hx hc
    exact ⟨turn_prev_of_not_mem (by grind) (by grind) (by grind),
      turn_next_of_not_mem (by grind) (by grind) (by grind)⟩
  have hperm : (h :: (xs.reverse ++ [t])).Perm (h :: (xs ++ [t])) :=
    ((reverse_perm xs).append_right [t]).cons h
  refine ⟨hs.replace (hlink.turn hnd hx hm) (fun a ha => ?_) (fun a ha => ?_)
    (hperm.nodup_iff.mpr hnd) ?_ hsame, hsame⟩
  · obtain rfl : h = a := by simpa using ha
    rw [turn_prev_of_not_mem (by grind) (by grind) (by grind)]
    exact hfirst h rfl
  · obtain rfl : t = a := by
      rw [← cons_append, getLast?_concat] at ha
      exact Option.some.inj ha
    rw [turn_next_of_not_mem (by grind) (by grind) (by grind)]
    refine hlast t ?_
    rw [← cons_append, getLast?_concat]
    rfl
  · intro j hj a ha
    exact hother j (Ne.symm hj) a (hperm.mem_iff.mp ha)

end Sound

end Links
end Pintos.Base
