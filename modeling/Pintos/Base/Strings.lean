/-
  Strings in memory, and their tokens.

  1. **Strings** — `StringAt f p l` says that the cells of `f` from `p` on hold `l` and a zero behind
     it.  A zero written into a string ends it there (`StringAt.cut`) and leaves the part behind it
     (`StringAt.behind`).

  2. **Tokens** — `tokens sep l` are the maximal non-empty runs without separators.  They are found
     from left to right: skip separators, take what is not one, go on behind the separator that ends
     it (`tokens_eq_cons`; proofs go the same way, `tokens_induction`).  However the separators lie,
     the tokens with a cell more for each take at most one cell more than the string
     (`sum_length_tokens_le`).
-/
import Pintos.Base.Bytes
import Mathlib

namespace Pintos.Base

open List

/-! ## Strings -/

section StringAt

variable {w : Nat}

/-- `l` stands at `p`, with a zero behind it and none in it. -/
def StringAt (f : Nat → BitVec w) : Nat → List (BitVec w) → Prop
  | p, [] => f p = 0
  | p, c :: l => f p = c ∧ c ≠ 0 ∧ StringAt f (p + 1) l

instance decidableStringAt (f : Nat → BitVec w) :
    (p : Nat) → (l : List (BitVec w)) → Decidable (StringAt f p l)
  | p, [] => inferInstanceAs (Decidable (f p = 0))
  | p, c :: l =>
    have := decidableStringAt f (p + 1) l
    inferInstanceAs (Decidable (f p = c ∧ c ≠ 0 ∧ StringAt f (p + 1) l))

variable {f g : Nat → BitVec w} {p : Nat} {l s rest : List (BitVec w)}

theorem StringAt.congr (h : StringAt f p l) (hfg : ∀ k, p ≤ k → k ≤ p + l.length → g k = f k) :
    StringAt g p l := by
  induction l generalizing p with
  | nil => exact (hfg p (le_refl p) (le_refl p)).trans h
  | cons c l ih =>
    have hlen : (c :: l).length = l.length + 1 := rfl
    refine ⟨(hfg p (le_refl p) (by omega)).trans h.1, h.2.1, ?_⟩
    apply ih h.2.2
    intro k hlo hhi
    exact hfg k (by omega) (by omega)

theorem StringAt.drop (h : StringAt f p (s ++ rest)) : StringAt f (p + s.length) rest := by
  induction s generalizing p with
  | nil => exact h
  | cons c s ih =>
    have htail := ih h.2.2
    rwa [add_assoc, add_comm 1] at htail

/-- **A zero cuts the string.** -/
theorem StringAt.cut (h : StringAt f p (s ++ rest)) : StringAt (put f (p + s.length) [0]) p s := by
  induction s generalizing p with
  | nil => exact put_singleton f p 0
  | cons c s ih =>
    have hne : p ≠ p + (c :: s).length := by
      simp only [length_cons]
      omega
    have htail := ih h.2.2
    rw [add_assoc, add_comm 1] at htail
    exact ⟨(put_singleton_of_ne hne).trans h.1, h.2.1, htail⟩

/-- **The rest** behind the cell that was cut. -/
theorem StringAt.behind {c : BitVec w} (h : StringAt f p (s ++ c :: rest)) :
    StringAt (put f (p + s.length) [0]) (p + s.length + 1) rest := by
  have hrest := h.drop.2.2
  apply hrest.congr
  intro k hlo _
  exact put_singleton_of_ne (by omega)

theorem StringAt.of_window (hs : 0 ∉ s) (h : window f p (s.length + 1) = s ++ [0]) :
    StringAt f p s := by
  induction s generalizing p with
  | nil => simpa [window, StringAt] using h
  | cons c s ih =>
    have hsplit : window f p ((c :: s).length + 1) = f p :: window f (p + 1) (s.length + 1) := by
      rw [length_cons, add_comm (s.length + 1), window_add]
      rfl
    rw [hsplit, cons_append, cons.injEq] at h
    have hne : c ≠ 0 := fun hc => hs (hc ▸ mem_cons_self)
    exact ⟨h.1, hne, ih (fun h0 => hs (mem_cons_of_mem c h0)) h.2⟩

theorem StringAt.zero_not_mem (h : StringAt f p l) : 0 ∉ l := by
  induction l generalizing p with
  | nil => exact not_mem_nil
  | cons c l ih =>
    rw [mem_cons, not_or]
    exact ⟨h.2.1.symm, ih h.2.2⟩

theorem StringAt.window_eq (h : StringAt f p l) : window f p l.length = l := by
  induction l generalizing p with
  | nil => rfl
  | cons c l ih =>
    rw [length_cons, add_comm, window_add, ih h.2.2]
    show f p :: l = c :: l
    rw [h.1]

end StringAt

/-! ## Tokens -/

section Tokens

variable {α : Type} (sep : α → Bool) {c : α}

/-- The maximal non-empty runs of `l` without separators. -/
def tokens (l : List α) : List (List α) := (l.splitOnP sep).filter (!·.isEmpty)

/-- The first of them. -/
def firstToken (l : List α) : List α := (l.dropWhile sep).takeWhile (!sep ·)

/-- What stands behind the separator that ends it. -/
def afterToken (l : List α) : List α := ((l.dropWhile sep).dropWhile (!sep ·)).tail

variable {sep} {l : List α}

theorem tokens_cons_sep (hc : sep c = true) : tokens sep (c :: l) = tokens sep l := by
  rw [tokens, splitOnP_cons_eq_if_modifyHead, if_pos hc]
  rfl

/-- Separators in front do not count. -/
theorem tokens_dropWhile (l : List α) : tokens sep (l.dropWhile sep) = tokens sep l := by
  induction l with
  | nil => rfl
  | cons c l ih =>
    by_cases hc : sep c = true
    · rw [dropWhile_cons_of_pos hc, ih, tokens_cons_sep hc]
    · rw [dropWhile_cons_of_neg hc]

theorem tokens_eq_nil (h : l.dropWhile sep = []) : tokens sep l = [] := by
  rw [← tokens_dropWhile, h]
  rfl

/-- A run up to the end, or up to a separator. -/
theorem tokens_run {run : List α} (hrun : ∀ x ∈ run, sep x = false) (hne : run ≠ []) :
    tokens sep run = [run] ∧
      ∀ c rest, sep c = true → tokens sep (run ++ c :: rest) = run :: tokens sep rest := by
  have hkeep : (!run.isEmpty) = true := by simpa using hne
  constructor
  · rw [tokens, splitOnP_eq_singleton hrun]
    simp [hkeep]
  · intro c rest hc
    rw [tokens, splitOnP_append_cons_of_forall_mem hrun c hc rest, filter_cons, if_pos hkeep]
    rfl

theorem head_dropWhile {m : List α} (h : l.dropWhile sep = c :: m) : sep c = false := by
  have hhead := head_dropWhile_not sep (l := l) (by simp [h])
  simpa [h] using hhead

theorem firstToken_ne_nil (h : l.dropWhile sep ≠ []) : firstToken sep l ≠ [] := by
  obtain ⟨c, m, hm⟩ := exists_cons_of_ne_nil h
  rw [firstToken, hm, takeWhile_cons_of_pos (by simp [head_dropWhile hm])]
  exact cons_ne_nil _ _

/-- **From left to right.** -/
theorem tokens_eq_cons (h : l.dropWhile sep ≠ []) :
    tokens sep l = firstToken sep l :: tokens sep (afterToken sep l) := by
  have hrun : ∀ x ∈ firstToken sep l, sep x = false := by
    intro x hx
    simpa using mem_takeWhile_imp hx
  obtain ⟨hend, hmid⟩ := tokens_run hrun (firstToken_ne_nil h)
  have hsplit : firstToken sep l ++ (l.dropWhile sep).dropWhile (!sep ·) = l.dropWhile sep :=
    takeWhile_append_dropWhile
  rw [← tokens_dropWhile, ← hsplit, afterToken]
  cases hafter : (l.dropWhile sep).dropWhile (!sep ·) with
  | nil =>
    rw [append_nil]
    exact hend
  | cons d rest => exact hmid d rest (by simpa using head_dropWhile hafter)

/-- What is skipped, the token, and what stands behind it. -/
theorem length_parts (sep : α → Bool) (l : List α) :
    (l.takeWhile sep).length + (firstToken sep l).length +
        ((l.dropWhile sep).dropWhile (!sep ·)).length = l.length ∧
      (afterToken sep l).length = ((l.dropWhile sep).dropWhile (!sep ·)).length - 1 := by
  have hskip := congrArg length (takeWhile_append_dropWhile (p := sep) (l := l))
  have hrun := congrArg length
    (takeWhile_append_dropWhile (p := (!sep ·)) (l := l.dropWhile sep))
  rw [length_append] at hskip hrun
  rw [firstToken, afterToken, length_tail]
  omega

/-- What is left behind a token is shorter. -/
theorem length_rest_lt (h : l.dropWhile sep ≠ []) : (afterToken sep l).length < l.length := by
  have hparts := length_parts sep l
  have hpos := length_pos_of_ne_nil (firstToken_ne_nil h)
  omega

/-- **Induction by the tokens**: a list has none, or one and those of the rest. -/
theorem tokens_induction (sep : α → Bool) {motive : List α → Prop}
    (nil : ∀ l, l.dropWhile sep = [] → motive l)
    (cons : ∀ l, l.dropWhile sep ≠ [] → motive (afterToken sep l) → motive l) (l : List α) :
    motive l := by
  -- by the number of cells that are left
  induction hn : l.length using Nat.strong_induction_on generalizing l with
  | _ n ih =>
    by_cases hl : l.dropWhile sep = []
    · exact nil l hl
    · exact cons l hl (ih _ (hn ▸ length_rest_lt hl) _ rfl)

theorem mem_of_mem_tokens {sep : α → Bool} {l tok : List α} (h : tok ∈ tokens sep l)
    (hc : c ∈ tok) : c ∈ l := by
  induction l using tokens_induction sep with
  | nil l hl =>
    rw [tokens_eq_nil hl] at h
    exact absurd h not_mem_nil
  | cons l hl ih =>
    rw [tokens_eq_cons hl, mem_cons] at h
    rcases h with rfl | h
    · exact (dropWhile_sublist _).subset ((takeWhile_sublist _).subset hc)
    · exact (dropWhile_sublist _).subset
        ((dropWhile_sublist _).subset ((tail_sublist _).subset (ih h)))

/-- What the tokens take, with a cell more for each. -/
theorem sum_length_tokens_le (sep : α → Bool) (l : List α) :
    ((tokens sep l).map (·.length + 1)).sum ≤ l.length + 1 := by
  induction l using tokens_induction sep with
  | nil l h =>
    rw [tokens_eq_nil h]
    exact Nat.zero_le _
  | cons l h ih =>
    have hparts := length_parts sep l
    rw [tokens_eq_cons h, map_cons, sum_cons]
    by_cases hend : (l.dropWhile sep).dropWhile (!sep ·) = []
    · have hnone : tokens sep ([] : List α).tail = [] := rfl
      rw [afterToken, hend, hnone]
      simp only [map_nil, sum_nil]
      omega
    · have := length_pos_of_ne_nil hend
      omega

end Tokens

end Pintos.Base
