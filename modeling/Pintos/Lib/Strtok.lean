/-
  Strings in memory: `strlen`, `strchr` and `strtok_r` (lib/string.c).

  Memory is an array of bytes and a pointer an index.  The loops go on until they meet a NUL, so a
  bound on their turns is passed; without a result (`none`) they have not come to an end within it.

  1. **One call** (`strtokR_none`, `strtokR_some`) — from a string `l`, the call returns the first
     token of `l`, now a string of its own, and saves the position of what stands behind it; or it
     returns NULL if only delimiters are left.

  2. **The loop** (`countTokens_eq`) — called until it returns NULL, it finds the `tokens` of the string.

  3. **The tokens** (`strtok_tokens`) — they are where they were in the string, each ended by the
     delimiter behind it; NOTHING else changes, and what comes behind the NUL is not looked at.
-/
import Pintos.Base.Strings
import Pintos.Lib.Stdio

namespace Pintos.Lib

open Base List Option

/-! ## The source -/

/-- `strchr (string, c) != NULL`; the empty list is the NUL at the end, which is looked at too. -/
def strchr : List CChar → CChar → Bool
  | [], c => c == 0
  | d :: ds, c => d == c || strchr ds c

def strlen (f : Nat → CChar) : Nat → Nat → Option Nat
  | 0, _ => none
  | n + 1, p => if f p = 0 then some 0 else (strlen f n (p + 1)).map (· + 1)

/-- "Skip any DELIMITERS at our current position": where the loop leaves off, and whether there is
    a token. -/
def skipDelimiters (ds : List CChar) (f : Nat → CChar) : Nat → Nat → Option (Bool × Nat)
  | 0, _ => none
  | n + 1, s =>
    if strchr ds (f s) then
      if f s = 0 then some (false, s) else skipDelimiters ds f n (s + 1)
    else some (true, s)

/-- "Skip any non-DELIMITERS up to the end of the string." -/
def skipToken (ds : List CChar) (f : Nat → CChar) : Nat → Nat → Option Nat
  | 0, _ => none
  | n + 1, s => if strchr ds (f s) then some s else skipToken ds f n (s + 1)

/-- What a call of `strtok_r` leaves: the token, the saved position, and the memory. -/
structure Strtok where
  token : Option Nat
  save : Nat
  mem : Nat → CChar

def strtokR (n : Nat) (ds : List CChar) (f : Nat → CChar) (s : Option Nat) (save : Nat) :
    Option Strtok := do
  let (found, token) ← skipDelimiters ds f n (s.getD save)
  if found then
    let e ← skipToken ds f n token
    if f e ≠ 0 then return ⟨some token, e + 1, put f e [0]⟩
    else return ⟨some token, e, f⟩
  else return ⟨none, token, f⟩

/-- The loop `for (token = strtok_r (s, ..); token != NULL; token = strtok_r (NULL, ..)) count++;`
    after its first call. -/
def countTokens (n : Nat) (ds : List CChar) : Nat → Strtok → Nat → Option Nat
  | 0, _, _ => none
  | k + 1, t, count =>
    match t.token with
    | none => some count
    | some _ => do
      let t ← strtokR n ds t.mem none t.save
      countTokens n ds k t (count + 1)

/-! ## The loops -/

section

variable {ds : List CChar} {f : Nat → CChar} {n s save : Nat} {p : Option Nat} {l : List CChar}

/-- `c` is one of the delimiters. -/
def among (ds : List CChar) (c : CChar) : Bool := ds.contains c

theorem strchr_eq (ds : List CChar) (c : CChar) : strchr ds c = (among ds c || c == 0) := by
  induction ds with
  | nil => rfl
  | cons d ds ih =>
    have hcons : among (d :: ds) c = (d == c || among ds c) := by
      rw [among, contains_cons, Bool.beq_comm]
      rfl
    rw [strchr, ih, hcons, Bool.or_assoc]

theorem strlen_eq (h : StringAt f s l) (hn : l.length < n) : strlen f n s = some l.length := by
  induction l generalizing s n with
  | nil =>
    obtain _ | n := n
    · omega
    exact if_pos h
  | cons c l ih =>
    obtain _ | n := n
    · omega
    have hne : f s ≠ 0 := by
      rw [h.1]
      exact h.2.1
    rw [strlen, if_neg hne, ih h.2.2 (Nat.lt_of_succ_lt_succ hn)]
    rfl

/-- The first loop stops at the first byte that is no delimiter, which may be the NUL. -/
theorem skipDelimiters_eq (ds : List CChar) (h : StringAt f s l) (hn : l.length < n) :
    skipDelimiters ds f n s =
      some (!(l.dropWhile (among ds)).isEmpty, s + (l.takeWhile (among ds)).length) := by
  induction l generalizing s n with
  | nil =>
    obtain _ | n := n
    · omega
    have h0 : f s = 0 := h
    rw [skipDelimiters, strchr_eq, h0, if_pos (by simp), if_pos rfl]
    rfl
  | cons c l ih =>
    obtain _ | n := n
    · omega
    have hc : f s = c := h.1
    have hne : (c == 0) = false := by simpa using h.2.1
    rw [skipDelimiters, strchr_eq, hc, hne, Bool.or_false]
    by_cases hmem : among ds c = true
    · rw [if_pos hmem, if_neg h.2.1, ih h.2.2 (Nat.lt_of_succ_lt_succ hn),
        dropWhile_cons_of_pos hmem, takeWhile_cons_of_pos hmem, length_cons,
        add_assoc, add_comm 1]
    · rw [if_neg hmem, dropWhile_cons_of_neg hmem, takeWhile_cons_of_neg hmem]
      rfl

/-- The second loop stops at the first delimiter or the NUL. -/
theorem skipToken_eq (ds : List CChar) (h : StringAt f s l) (hn : l.length < n) :
    skipToken ds f n s = some (s + (l.takeWhile (!among ds ·)).length) := by
  induction l generalizing s n with
  | nil =>
    obtain _ | n := n
    · omega
    have h0 : f s = 0 := h
    rw [skipToken, strchr_eq, h0, if_pos (by simp)]
    rfl
  | cons c l ih =>
    obtain _ | n := n
    · omega
    have hc : f s = c := h.1
    have hne : (c == 0) = false := by simpa using h.2.1
    rw [skipToken, strchr_eq, hc, hne, Bool.or_false]
    by_cases hmem : among ds c = true
    · rw [if_pos hmem, takeWhile_cons_of_neg (by simp [hmem])]
      rfl
    · rw [if_neg hmem, ih h.2.2 (Nat.lt_of_succ_lt_succ hn),
        takeWhile_cons_of_pos (by simpa using hmem), length_cons, add_assoc,
        add_comm 1]

/-! ## A call -/

theorem strtokR_none (h : StringAt f (p.getD save) l) (hn : l.length < n)
    (hl : l.dropWhile (among ds) = []) :
    strtokR n ds f p save = some ⟨none, p.getD save + l.length, f⟩ := by
  have hall := takeWhile_append_dropWhile (p := among ds) (l := l)
  rw [hl, append_nil] at hall
  rw [strtokR, skipDelimiters_eq ds h hn, hl, hall]
  rfl

/-- **A token** of the string `l` at `s`: it is a string of its own at `a`, and the position saved is
    that of the rest.  No byte changes but the delimiter behind the token. -/
structure Token (ds l : List CChar) (s : Nat) (f : Nat → CChar) (a e : Nat) (g : Nat → CChar) :
    Prop where
  token : StringAt g a (firstToken (among ds) l)
  rest : StringAt g e (afterToken (among ds) l)
  start : a = s + (l.takeWhile (among ds)).length
  save : e + (afterToken (among ds) l).length = s + l.length
  changed : ∀ x, g x ≠ f x →
    among ds (f x) = true ∧ x = a + (firstToken (among ds) l).length ∧ x < e

theorem strtokR_some (h : StringAt f (p.getD save) l) (hn : l.length < n)
    (hl : l.dropWhile (among ds) ≠ []) :
    ∃ a e g, strtokR n ds f p save = some ⟨some a, e, g⟩ ∧ Token ds l (p.getD save) f a e g := by
  have hfound : (!(l.dropWhile (among ds)).isEmpty) = true := by simpa using hl
  have hparts := length_parts (among ds) l
  rw [strtokR, skipDelimiters_eq ds h hn, hfound]
  rw [← takeWhile_append_dropWhile (p := among ds) (l := l)] at h
  -- the token begins where the delimiters end
  have hrun := h.drop
  have htoken := skipToken_eq (n := n) ds hrun (lt_of_le_of_lt (dropWhile_sublist _).length_le hn)
  simp only [bind_eq_bind, bind_some, if_true, htoken]
  rw [← takeWhile_append_dropWhile (p := (!among ds ·)) (l := l.dropWhile (among ds))] at hrun
  change StringAt f _ (firstToken (among ds) l ++ _) at hrun
  cases hafter : (l.dropWhile (among ds)).dropWhile (!among ds ·) with
  | nil =>
    rw [hafter] at hrun hparts
    have hrest : afterToken (among ds) l = [] := congrArg tail hafter
    have hend := hrun.drop
    refine ⟨_, _, f, ?_, by rwa [append_nil] at hrun, by rwa [hrest], rfl, ?_, fun x hx => absurd rfl hx⟩
    · exact if_neg (not_not.mpr hend)
    · simp only [length_nil] at hparts
      omega
  | cons c rest =>
    rw [hafter] at hrun hparts
    have hrest : afterToken (among ds) l = rest := congrArg tail hafter
    have hdelim := hrun.drop.1
    refine ⟨_, _, _, ?_, hrun.cut, hrest ▸ hrun.behind, rfl, ?_, fun x hx => ?_⟩
    · exact if_pos (hdelim ▸ hrun.drop.2.1)
    · rw [length_cons] at hparts
      omega
    obtain rfl : x = _ := by
      by_contra hne
      exact hx (put_singleton_of_ne hne)
    refine ⟨?_, rfl, Nat.lt_succ_self _⟩
    rw [hdelim]
    simpa using head_dropWhile hafter

/-! ## The loop -/

/-- **All tokens** are found, and each once. -/
theorem countTokens_eq {k : Nat} (count : Nat) (h : StringAt f (p.getD save) l)
    (hn : l.length < n) (hk : l.length < k) :
    (strtokR n ds f p save).bind (fun t => countTokens n ds k t count) =
      some (count + (tokens (among ds) l).length) := by
  induction k generalizing f p save l count with
  | zero => omega
  | succ k ih =>
    by_cases hl : l.dropWhile (among ds) = []
    · rw [strtokR_none h hn hl, tokens_eq_nil hl]
      rfl
    obtain ⟨a, e, g, hcall, -, hrest, -⟩ := strtokR_some h hn hl
    have hshort := length_rest_lt hl
    have hnext := ih (p := none) (count + 1) hrest (by omega) (by omega)
    rw [add_right_comm] at hnext
    rw [hcall, tokens_eq_cons hl, length_cons, ← add_assoc, ← hnext]
    rfl

/-! ## The tokens -/

/-- The calls up to the first that returns NULL: the tokens, and what that call leaves. -/
def strtokCalls (n : Nat) (ds : List CChar) :
    Nat → (Nat → CChar) → Option Nat → Nat → Option (List Nat × Strtok)
  | 0, _, _, _ => none
  | k + 1, f, s, save => do
    let t ← strtokR n ds f s save
    match t.token with
    | none => some ([], t)
    | some p =>
      let (ps, t) ← strtokCalls n ds k t.mem none t.save
      some (p :: ps, t)

/-- In `g` the tokens of `l`, a string of `f` at `s`, are strings at `ps`, and nothing but the
    delimiters behind them is not as in `f`. -/
structure Tokenized (ds l : List CChar) (s : Nat) (ps : List Nat) (f g : Nat → CChar) : Prop where
  strings : Forall₂ (fun p tok => p + tok.length ≤ s + l.length ∧ StringAt g p tok) ps
    (tokens (among ds) l)
  changed : ∀ x, g x ≠ f x → among ds (f x) = true ∧ s ≤ x ∧ x < s + l.length ∧
    ∃ q ∈ ps.zip (tokens (among ds) l), x = q.1 + q.2.length

/-- A call more, in front of the others. -/
theorem Tokenized.cons {a e : Nat} {g g' : Nat → CChar} {ps : List Nat}
    (hl : l.dropWhile (among ds) ≠ []) (ht : Token ds l s f a e g)
    (h : Tokenized ds (afterToken (among ds) l) e ps g g') : Tokenized ds l s (a :: ps) f g' := by
  have hparts := length_parts (among ds) l
  have hsave := ht.save
  have hstart := ht.start
  refine ⟨?_, fun x hx => ?_⟩
  · rw [tokens_eq_cons hl, ← hsave]
    refine .cons ⟨by omega, ht.token.congr fun x _ hx => ?_⟩ h.strings
    -- what the other calls change is behind the token
    by_contra hne
    have := h.changed x hne
    omega
  · rw [tokens_eq_cons hl, zip_cons_cons]
    by_cases hx' : g' x = g x
    · obtain ⟨hd, hxa, hxe⟩ := ht.changed x (hx' ▸ hx)
      exact ⟨hd, by omega, by omega, _, mem_cons_self, hxa⟩
    obtain ⟨hd, hlo, hhi, q, hq, hxq⟩ := h.changed x hx'
    have hsame : g x = f x := by
      by_contra hne
      have := ht.changed x hne
      omega
    exact ⟨hsame ▸ hd, by omega, by omega, q, mem_cons_of_mem _ hq, hxq⟩

/-- **The tokenizer**: the calls find the tokens of the string, in order, each a string of its own, and
    change nothing but the delimiters behind them; a call after the last returns NULL again.  Where
    the tokens are does not depend on the memory around the string. -/
theorem strtok_tokens (ds l : List CChar) (s : Nat) :
    ∃ ps : List Nat, ps.Pairwise (· < ·) ∧ (∀ q ∈ ps, s ≤ q) ∧
      ∀ f p save n k, p.getD save = s → StringAt f s l → l.length < n → l.length < k →
        ∃ g, strtokCalls n ds k f p save = some (ps, ⟨none, s + l.length, g⟩) ∧
          Tokenized ds l s ps f g ∧
          strtokR n ds g none (s + l.length) = some ⟨none, s + l.length, g⟩ := by
  induction l using tokens_induction (among ds) generalizing s with
  | nil l hl =>
    refine ⟨[], Pairwise.nil, by simp, fun f p save n k hp h hn hk => ⟨f, ?_, ⟨?_, ?_⟩, ?_⟩⟩
    · obtain _ | k := k
      · omega
      subst hp
      rw [strtokCalls, strtokR_none h hn hl]
      rfl
    · rw [tokens_eq_nil hl]
      exact .nil
    · exact fun x hx => absurd rfl hx
    · rw [← append_nil l] at h
      exact strtokR_none (p := none) (l := []) h.drop (Nat.zero_lt_of_lt hn) rfl
  | cons l hl ih =>
    have hparts := length_parts (among ds) l
    have hpos := length_pos_of_ne_nil (firstToken_ne_nil hl)
    obtain ⟨ps, hlt, hge, hcalls⟩ := ih (s + l.length - (afterToken (among ds) l).length)
    refine ⟨(s + (l.takeWhile (among ds)).length) :: ps, ?_, ?_, ?_⟩
    · refine pairwise_cons.mpr ⟨fun q hq => ?_, hlt⟩
      have := hge q hq
      omega
    · intro q hq
      rcases mem_cons.mp hq with rfl | hq
      · omega
      · have := hge q hq
        omega
    rintro f p save n k rfl h hn hk
    obtain _ | k := k
    · omega
    obtain ⟨a, e, g, hcall, ht⟩ := strtokR_some h hn hl
    have hsave := ht.save
    obtain rfl := ht.start
    obtain rfl : e = p.getD save + l.length - (afterToken (among ds) l).length := by omega
    obtain ⟨g', hnext, htok, hagain⟩ :=
      hcalls g none _ n k rfl ht.rest (by omega) (by omega)
    rw [hsave] at hnext hagain
    refine ⟨g', ?_, htok.cons hl ht, hagain⟩
    rw [strtokCalls, hcall]
    show (strtokCalls n ds k g none _).bind _ = _
    rw [hnext]
    rfl

end

/-- `" a  b "`, with spaces in front, two between the tokens, and one behind. -/
theorem strtok_tokens_spaces : ∃ f g, StringAt f 0 [32#8, 97#8, 32#8, 32#8, 98#8, 32#8] ∧
    strtokCalls 7 [32#8] 7 f (some 0) 0 = some ([1, 4], ⟨none, 6, g⟩) ∧
    Tokenized [32#8] [32#8, 97#8, 32#8, 32#8, 98#8, 32#8] 0 [1, 4] f g := by
  obtain ⟨ps, -, -, h⟩ := strtok_tokens [32#8] [32#8, 97#8, 32#8, 32#8, 98#8, 32#8] 0
  obtain ⟨g, hcalls, htokens, -⟩ := h (put (fun _ => 0) 0 [32#8, 97#8, 32#8, 32#8, 98#8, 32#8])
    (some 0) 0 7 7 rfl (by decide) (by decide) (by decide)
  obtain rfl : ps = [1, 4] := by
    have := congrArg (Option.map Prod.fst) hcalls
    exact some.inj (this.symm.trans (by decide))
  exact ⟨_, g, by decide, hcalls, htokens⟩

end Pintos.Lib
