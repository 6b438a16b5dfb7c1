/-
  `lib/kernel/list.c` with its links: doubly linked lists between two header elements.

  A `struct list_elem` is named by its address; the heap is the two links of every address (`Links`).
  Every function stops with the `Fault` of the assertion that fails in it, of the null pointer that it
  follows, or of a loop that takes more turns than it was given.

  1. **Program** — the functions of the source, statement by statement.

  2. **Sequences** (`WellFormed`) — a family of lists REPRESENTS a family of sequences if the chain
     of each is its head, the elements and its tail, and no two have a common cell.

  3. **Effects** (`Leads`) — each function cuts a stretch out of a sequence, pastes one in or turns one
     round, and touches no cell of any other list.
-/
import Pintos.Base.Links
import Pintos.Base.Stops

namespace Pintos.Lib.Cells

open Base Links Function List

set_option linter.unusedSectionVars false

variable {P : Type} [DecidableEq P]

/-! ## Pointers -/

inductive Fault where
  /-- An `ASSERT` fails. -/
  | assertion
  /-- A null pointer is followed. -/
  | nullPointer
  /-- A loop takes more turns than it was given. -/
  | endless
  deriving DecidableEq

def assertThat (c : Bool) : Except Fault Unit := if c then .ok () else .error .assertion

/-- A member of `struct list_elem`. -/
inductive Link where
  | prev
  | next
  deriving DecidableEq

/-- `struct list`: the addresses of its two header elements. -/
structure ListObj (P : Type) where
  head : P
  tail : P

def getLink (H : Links P) (e : P) : Link → Option P
  | .prev => H.prev e
  | .next => H.next e

def setLink (H : Links P) (e : P) (l : Link) (v : Option P) : Links P :=
  match l with
  | .prev => { H with prev := update H.prev e v }
  | .next => { H with next := update H.next e v }

/-- Reading a member through a pointer. -/
def load (H : Links P) (p : Option P) (l : Link) : Except Fault (Option P) :=
  match p with
  | none => .error .nullPointer
  | some e => .ok (getLink H e l)

def store (H : Links P) (p : Option P) (l : Link) (v : Option P) : Except Fault (Links P) :=
  match p with
  | none => .error .nullPointer
  | some e => .ok (setLink H e l v)

/-! ## Program -/

def isHead (H : Links P) : Option P → Bool
  | none => false
  | some e => (H.prev e).isNone && (H.next e).isSome

def isInterior (H : Links P) : Option P → Bool
  | none => false
  | some e => (H.prev e).isSome && (H.next e).isSome

def isTail (H : Links P) : Option P → Bool
  | none => false
  | some e => (H.prev e).isSome && (H.next e).isNone

def listInit (H : Links P) (L : ListObj P) : Links P :=
  let H := setLink H L.head .prev none
  let H := setLink H L.head .next (some L.tail)
  let H := setLink H L.tail .prev (some L.head)
  setLink H L.tail .next none

def listBegin (H : Links P) (L : ListObj P) : Option P := H.next L.head

def listEnd (L : ListObj P) : Option P := some L.tail

def listNext (H : Links P) (e : Option P) : Except Fault (Option P) := do
  assertThat (isHead H e || isInterior H e)
  load H e .next

def listPrev (H : Links P) (e : Option P) : Except Fault (Option P) := do
  assertThat (isInterior H e || isTail H e)
  load H e .prev

def listInsert (H : Links P) (before elem : Option P) : Except Fault (Links P) := do
  assertThat (isInterior H before || isTail H before)
  assertThat elem.isSome
  let H ← store H elem .prev (← load H before .prev)
  let H ← store H elem .next before
  let H ← store H (← load H before .prev) .next elem
  store H before .prev elem

def listSplice (H : Links P) (before first last : Option P) : Except Fault (Links P) := do
  assertThat (isInterior H before || isTail H before)
  if first = last then return H
  let last ← listPrev H last
  assertThat (isInterior H first)
  assertThat (isInterior H last)
  -- take the elements out of their list
  let H ← store H (← load H first .prev) .next (← load H last .next)
  let H ← store H (← load H last .next) .prev (← load H first .prev)
  -- put them into the new one
  let H ← store H first .prev (← load H before .prev)
  let H ← store H last .next before
  let H ← store H (← load H before .prev) .next first
  store H before .prev last

def listPushFront (H : Links P) (L : ListObj P) (elem : Option P) : Except Fault (Links P) :=
  listInsert H (listBegin H L) elem

def listPushBack (H : Links P) (L : ListObj P) (elem : Option P) : Except Fault (Links P) :=
  listInsert H (listEnd L) elem

def listRemove (H : Links P) (elem : Option P) : Except Fault (Links P × Option P) := do
  assertThat (isInterior H elem)
  let H ← store H (← load H elem .prev) .next (← load H elem .next)
  let H ← store H (← load H elem .next) .prev (← load H elem .prev)
  return (H, ← load H elem .next)

def listEmpty (H : Links P) (L : ListObj P) : Bool := listBegin H L = listEnd L

def listFront (H : Links P) (L : ListObj P) : Except Fault (Option P) := do
  assertThat (!listEmpty H L)
  return H.next L.head

def listBack (H : Links P) (L : ListObj P) : Except Fault (Option P) := do
  assertThat (!listEmpty H L)
  return H.prev L.tail

def listPopFront (H : Links P) (L : ListObj P) : Except Fault (Links P × Option P) := do
  let front ← listFront H L
  let (H, _) ← listRemove H front
  return (H, front)

def listPopBack (H : Links P) (L : ListObj P) : Except Fault (Links P × Option P) := do
  let back ← listBack H L
  let (H, _) ← listRemove H back
  return (H, back)

def swap (H : Links P) (p : Option P) (l : Link) (q : Option P) (m : Link) :
    Except Fault (Links P) := do
  let t ← load H p l
  let H ← store H p l (← load H q m)
  store H q m t

/-- The `for` loop of `list_reverse`, from `e` on. -/
def reverseLoop (L : ListObj P) : Nat → Links P → Option P → Except Fault (Links P)
  | 0, H, e => if e = listEnd L then .ok H else .error .endless
  | fuel + 1, H, e =>
    if e = listEnd L then .ok H
    else do
      let H ← swap H e .prev e .next
      reverseLoop L fuel H (← load H e .prev)

def listReverse (fuel : Nat) (H : Links P) (L : ListObj P) : Except Fault (Links P) :=
  if listEmpty H L then .ok H
  else do
    let H ← reverseLoop L fuel H (listBegin H L)
    let H ← swap H (some L.head) .next (some L.tail) .prev
    swap H (H.next L.head) .prev (H.prev L.tail) .next

/-- The elements from `e` on, as a `for` loop over the list visits them. -/
def traverseFrom (H : Links P) (L : ListObj P) : Nat → Option P → Except Fault (List P)
  | 0, e => if e = listEnd L then .ok [] else .error .endless
  | _ + 1, none => .error .nullPointer
  | fuel + 1, some x =>
    if some x = listEnd L then .ok []
    else do
      let rest ← traverseFrom H L fuel (← listNext H (some x))
      return x :: rest

/-- **The forward traversal**: `for (e = list_begin (list); e != list_end (list);
    e = list_next (e))`. -/
def traverse (fuel : Nat) (H : Links P) (L : ListObj P) : Except Fault (List P) :=
  traverseFrom H L fuel (listBegin H L)

/-! ## What the assignments amount to -/

section

variable {H : Links P} {a b c e f m p : P}

theorem assertThat_true {c : Bool} (h : c = true) : assertThat c = .ok () := if_pos h

theorem listNext_eq (hn : H.next e = some b) : listNext H (some e) = .ok (some b) := by
  have hassert : (isHead H (some e) || isInterior H (some e)) = true := by
    cases hp : H.prev e <;> simp [isHead, isInterior, hp, hn]
  rw [listNext, assertThat_true hassert, ok_bind, load, getLink, hn]

/-- The assertion about a place to insert at. -/
theorem interior_or_tail (hp : H.prev e ≠ none) :
    assertThat (isInterior H (some e) || isTail H (some e)) = .ok () := by
  refine assertThat_true ?_
  cases hn : H.next e <;> simp [isTail, isInterior, Option.isSome_iff_ne_none, hp, hn]

theorem listPrev_eq (hp : H.prev e = some a) : listPrev H (some e) = .ok (some a) := by
  rw [listPrev, interior_or_tail (by simp [hp]), ok_bind, load, getLink, hp]

theorem listInsert_eq (hp : H.prev b = some a) (hae : a ≠ e) (hbe : b ≠ e) :
    listInsert H (some b) (some e) = .ok ((H.join a e).join e b) := by
  rw [listInsert, interior_or_tail (by simp [hp]), ok_bind,
    assertThat_true (c := (some e).isSome) rfl]
  simp only [ok_bind, load, store, getLink, setLink, hp, update_of_ne hbe, join]
  rw [update_comm hae]

theorem listRemove_eq (hp : H.prev e = some a) (hn : H.next e = some b) (hae : a ≠ e) :
    listRemove H (some e) = .ok (H.join a b, some b) := by
  have hassert : isInterior H (some e) = true := by simp [isInterior, hp, hn]
  rw [listRemove, assertThat_true hassert]
  simp only [ok_bind, load, store, getLink, setLink, hp, hn, update_of_ne hae.symm, join]
  rfl

/-- `list_splice` is one join where the elements were and two where they go; the predecessor of
    `before` is what it is after the first. -/
theorem listSplice_eq (hfc : f ≠ c) (hc : H.prev c = some m) (hf : H.prev f = some a)
    (hm : H.next m = some c) (hmp : H.prev m ≠ none) (hfn : H.next f ≠ none) (ham : a ≠ m)
    (hb : (H.join a c).prev b = some p) (hbp : H.prev b ≠ none) (hbf : b ≠ f) (hpm : p ≠ m) :
    listSplice H (some b) (some f) (some c) = .ok (((H.join a c).join p f).join m b) := by
  have hassert1 : isInterior H (some f) = true := by
    simp [isInterior, hf, Option.isSome_iff_ne_none, hfn]
  have hassert2 : isInterior H (some m) = true := by
    simp [isInterior, hm, Option.isSome_iff_ne_none, hmp]
  have hb' : update H.prev c (some a) b = some p := hb
  rw [listSplice, interior_or_tail hbp, ok_bind, if_neg (by simpa using hfc), listPrev_eq hc,
    ok_bind, assertThat_true hassert1, ok_bind, assertThat_true hassert2]
  simp only [ok_bind, load, store, getLink, setLink, hf, hm, hb', update_of_ne ham.symm,
    update_of_ne hbf, join]
  rw [update_comm hpm]

end

/-! ## Sequences -/

/-- The cells of a list with the elements `xs`. -/
def chain (L : ListObj P) (xs : List P) : List P := L.head :: (xs ++ [L.tail])

section

variable {ι : Type} [DecidableEq ι]

/-- **The lists represent the sequences**: the header and the elements of each are linked in both
    directions, the outer links are null, and no cell is in two places. -/
def WellFormed (hdr : ι → ListObj P) (H : Links P) (F : ι → List P) : Prop :=
  Sound H fun i => chain (hdr i) (F i)

/-- From `H`, the step to `H'` keeps the lists a representation, now of `F'`, and leaves the cells
    of the lists that are not in `is` alone. -/
structure Leads (hdr : ι → ListObj P) (H : Links P) (F : ι → List P) (is : List ι) (H' : Links P)
    (F' : ι → List P) : Prop where
  wellFormed : WellFormed hdr H' F'
  frame : ∀ k, k ∉ is → Agree H H' (chain (hdr k) (F k))

variable {hdr : ι → ListObj P} {H : Links P} {F : ι → List P} {i j : ι} {L : ListObj P}
  {b e f m x : P} {xs ys mid us vs : List P}

theorem chain_update : (fun k => chain (hdr k) (update F i xs k)) =
      update (fun k => chain (hdr k) (F k)) i (chain (hdr i) xs) := by
  funext k
  by_cases hk : k = i
  · subst hk; simp
  · simp [hk]

theorem chain_append₃ (L : ListObj P) (xs mid ys : List P) : chain L (xs ++ mid ++ ys) =
    (L.head :: xs).dropLast ++ xs.getLastD L.head ::
      (mid ++ ys.headD L.tail :: (ys ++ [L.tail]).tail) := by
  have hleft : L.head :: xs = (L.head :: xs).dropLast ++ [xs.getLastD L.head] := by
    have h := dropLast_append_getLast (cons_ne_nil L.head xs)
    rwa [getLast_eq_getLastD, eq_comm] at h
  have hright : ys ++ [L.tail] = ys.headD L.tail :: (ys ++ [L.tail]).tail := by
    cases ys <;> rfl
  calc chain L (xs ++ mid ++ ys) = (L.head :: xs) ++ (mid ++ (ys ++ [L.tail])) := by simp [chain]
    _ = _ := by rw [hleft, hright]; simp

theorem chain_append (L : ListObj P) (xs ys : List P) : chain L (xs ++ ys) =
    (L.head :: xs).dropLast ++ xs.getLastD L.head :: ys.headD L.tail :: (ys ++ [L.tail]).tail := by
  have h := chain_append₃ L xs [] ys
  rwa [append_nil] at h

namespace WellFormed

variable (h : WellFormed hdr H F)
include h

/-- Where a list is cut in two, the last cell before and the first behind are joined. -/
theorem joined (hF : F i = xs ++ ys) :
    H.Joined (xs.getLastD (hdr i).head) (ys.headD (hdr i).tail) := by
  have hlink := h.linked i
  simp only [hF, chain_append] at hlink
  exact (isChain_append_cons_cons.mp hlink).2.1

theorem listBegin : Cells.listBegin H (hdr i) = some ((F i).headD (hdr i).tail) :=
  (h.joined (show F i = [] ++ F i from rfl)).1

theorem prev_tail : H.prev (hdr i).tail = some ((F i).getLastD (hdr i).head) :=
  (h.joined (show F i = F i ++ [] from (append_nil _).symm)).2

theorem listEmpty_iff : listEmpty H (hdr i) = true ↔ F i = [] := by
  have hnd := h.nodup i
  rw [listEmpty, decide_eq_true_eq, h.listBegin, listEnd, Option.some.injEq]
  cases hF : F i with
  | nil => simp
  | cons =>
    simp only [hF, chain] at hnd
    grind

/-- **Cut.** -/
theorem cut (hF : F i = xs ++ mid ++ ys) :
    Leads hdr H F [i] (H.join (xs.getLastD (hdr i).head) (ys.headD (hdr i).tail))
      (update F i (xs ++ ys)) ∧
    Linked (H.join (xs.getLastD (hdr i).head) (ys.headD (hdr i).tail)) mid := by
  obtain ⟨hsound, hmid, hframe⟩ :=
    Sound.cut h ((congrArg (chain (hdr i)) hF).trans (chain_append₃ ..))
  refine ⟨⟨?_, fun k hk => hframe k (by simpa using hk)⟩, hmid⟩
  rwa [WellFormed, chain_update, chain_append]

/-- **Paste.** -/
theorem paste (hF : F i = xs ++ ys) (hmid : Linked H mid)
    (hf : mid.head? = some f) (hm : mid.getLast? = some m) (hnd : mid.Nodup)
    (hfresh : ∀ k, ∀ a ∈ mid, a ∉ chain (hdr k) (F k)) :
    Leads hdr H F [i]
      ((H.join (xs.getLastD (hdr i).head) f).join m (ys.headD (hdr i).tail))
      (update F i (xs ++ mid ++ ys)) := by
  obtain ⟨hsound, hframe⟩ :=
    Sound.paste h ((congrArg (chain (hdr i)) hF).trans (chain_append ..)) hmid hf hm hnd hfresh
  refine ⟨?_, fun k hk => hframe k (by simpa using hk)⟩
  rwa [WellFormed, chain_update, chain_append₃]

/-- What is cut out of a list is then in no list. -/
theorem out_fresh (hF : F i = xs ++ mid ++ ys) :
    ∀ k, ∀ a ∈ mid, a ∉ chain (hdr k) (update F i (xs ++ ys) k) := by
  intro k a ha
  have hnd := h.nodup i
  simp only [hF, chain_append₃] at hnd
  by_cases hk : k = i
  · subst hk
    rw [update_self, chain_append]
    grind
  · rw [update_of_ne hk]
    exact h.apart i k (Ne.symm hk) a (by simp only [hF, chain_append₃]; grind)

end WellFormed

/-! ## What each function does to the sequences -/

theorem getLastD_mem_chain (L : ListObj P) (xs ys : List P) :
    xs.getLastD L.head ∈ chain L (xs ++ ys) := by
  rw [chain_append]
  simp

theorem headD_mem_chain (L : ListObj P) (xs ys : List P) :
    ys.headD L.tail ∈ chain L (xs ++ ys) := by
  rw [chain_append]
  simp

section

variable (h : WellFormed hdr H F)
include h

/-- **`list_insert`**, in front of what `before` points to. -/
theorem listInsert_leads (hF : F i = xs ++ ys) (hfresh : ∀ k, e ∉ chain (hdr k) (F k)) :
    ∃ H', listInsert H (some (ys.headD (hdr i).tail)) (some e) = .ok H' ∧
      Leads hdr H F [i] H' (update F i (xs ++ e :: ys)) := by
  have hfi := hfresh i
  rw [hF] at hfi
  refine ⟨_, listInsert_eq (h.joined hF).2 (fun hx => hfi ?_) (fun hx => hfi ?_), ?_⟩
  · rw [← hx]
    exact getLastD_mem_chain ..
  · rw [← hx]
    exact headD_mem_chain ..
  · have hmid : Linked H [e] := isChain_singleton e
    have hpaste := h.paste hF hmid rfl rfl (nodup_singleton e) fun k a ha => by
      rw [mem_singleton.mp ha]
      exact hfresh k
    rwa [append_assoc] at hpaste

/-- **`list_remove`**; the element behind is returned. -/
theorem listRemove_leads (hF : F i = xs ++ e :: ys) :
    ∃ H', listRemove H (some e) = .ok (H', some (ys.headD (hdr i).tail)) ∧
      Leads hdr H F [i] H' (update F i (xs ++ ys)) := by
  have hleft := h.joined hF
  have hsplit : F i = xs ++ [e] ++ ys := by simpa using hF
  have hright := h.joined hsplit
  rw [getLastD_concat] at hright
  refine ⟨_, listRemove_eq hleft.2 hright.1 ?_, (h.cut hsplit).1⟩
  have hnd := h.nodup i
  simp only [hF, chain_append] at hnd
  intro hx
  grind

/-- `list_splice`: the elements `mid` go from one place to another, possibly of the same list. -/
theorem listSplice_leads (hj : F j = xs ++ mid ++ ys)
    (hf : mid.head? = some f) (hi : update F j (xs ++ ys) i = us ++ vs) :
    ∃ H', listSplice H (some (vs.headD (hdr i).tail)) (some f) (some (ys.headD (hdr j).tail)) =
        .ok H' ∧
      Leads hdr H F [i, j] H'
        (update (update F j (xs ++ ys)) i (us ++ mid ++ vs)) := by
  obtain ⟨⟨hcut, hframe1⟩, hmid⟩ := h.cut hj
  obtain ⟨rest, rfl⟩ : ∃ rest, mid = f :: rest := by
    cases mid with
    | nil => cases hf
    | cons x rest => exact ⟨rest, by rw [Option.some.inj hf]⟩
  obtain ⟨m, hm⟩ : ∃ m, (f :: rest).getLast? = some m := ⟨_, getLast?_cons⟩
  have hmmem : m ∈ f :: rest := mem_of_getLast? hm
  -- the elements are in no list while they are out
  have hnd := h.nodup j
  simp only [hj, chain_append₃] at hnd
  have hfresh := h.out_fresh hj
  have hpaste := hcut.paste hi hmid hf hm (by grind) hfresh
  have hfi := hfresh i
  rw [hi] at hfi
  -- what the links were
  have hstart := h.joined (show F j = xs ++ (f :: rest ++ ys) by rw [hj, append_assoc])
  have hstop := h.joined hj
  have hlast : (xs ++ f :: rest).getLastD (hdr j).head = m := by
    rw [getLastD_eq_getLast?, getLast?_append, hm]
    rfl
  rw [hlast] at hstop
  have hplace := (hcut.joined hi).2
  have hinner : ∀ x ∈ f :: rest, H.prev x ≠ none ∧ H.next x ≠ none := by
    intro x hx
    obtain ⟨l1, l2, hsplit⟩ := append_of_mem hx
    have hbefore := h.joined (show F j = (xs ++ l1) ++ (x :: l2 ++ ys) by rw [hj, hsplit]; simp)
    have hafter := h.joined
      (show F j = (xs ++ l1 ++ [x]) ++ (l2 ++ ys) by rw [hj, hsplit]; simp)
    rw [getLastD_concat] at hafter
    exact ⟨ne_of_eq_of_ne hbefore.2 (by simp), ne_of_eq_of_ne hafter.1 (by simp)⟩
  refine ⟨_, listSplice_eq ?_ hstop.2 hstart.2 hstop.1 (hinner m hmmem).1
    (hinner f (mem_cons_self ..)).2 ?_ hplace ?_ ?_ ?_, hpaste.wellFormed, fun k hk => ?_⟩
  · grind
  · grind
  · by_cases hb : vs.headD (hdr i).tail = ys.headD (hdr j).tail
    · rw [hb, hstop.2]
      simp
    · rw [join_prev_of_ne hb] at hplace
      rw [hplace]
      simp
  · intro hx
    exact hfi f (mem_cons_self ..) (hx ▸ headD_mem_chain ..)
  · intro hx
    exact hfi m hmmem (hx ▸ getLastD_mem_chain ..)
  · have hki : k ∉ [i] := by simp_all
    have hkj : k ≠ j := by simp_all
    have hsecond := hpaste.frame k hki
    rw [update_of_ne hkj] at hsecond
    exact (hframe1 k (by simpa using hkj)).trans hsecond

theorem listInit_leads : Leads hdr H F [i] (listInit H (hdr i)) (update F i []) := by
  have hnd := h.nodup i
  have hne : (hdr i).head ≠ (hdr i).tail := by
    intro hx
    simp [chain, hx] at hnd
  have hcell : ∀ k, k ≠ i → ∀ c ∈ chain (hdr k) (F k), c ≠ (hdr i).head ∧ c ≠ (hdr i).tail := by
    intro k hk c hc
    refine ⟨fun hx => ?_, fun hx => ?_⟩
    · exact h.apart i k (Ne.symm hk) c (by simp [chain, hx]) hc
    · exact h.apart i k (Ne.symm hk) c (by simp [chain, hx]) hc
  have hsame : ∀ k, k ≠ i → Agree H (listInit H (hdr i)) (chain (hdr k) (F k)) := by
    intro k hk c hc
    obtain ⟨h1, h2⟩ := hcell k hk c hc
    simp [listInit, setLink, h1, h2]
  refine ⟨?_, fun k hk => hsame k (by simpa using hk)⟩
  rw [WellFormed, chain_update]
  refine h.replace ?_ ?_ ?_ ?_ ?_ hsame
  · refine isChain_cons_cons.mpr ⟨⟨?_, ?_⟩, isChain_singleton _⟩
    · simp [listInit, setLink, hne]
    · simp [listInit, setLink]
  · simp [chain, listInit, setLink, hne]
  · simp [chain, listInit, setLink]
  · simp [chain, hne]
  · intro k hk c hc hc'
    obtain ⟨h1, h2⟩ := hcell k hk c hc'
    simp [chain, h1, h2] at hc

end

/-! ### `list_reverse` -/

/-- One turn of `list_reverse`: the two links of a cell change places. -/
theorem swap_exchange (H : Links P) (hx : x ∉ xs) :
    swap (H.exchange xs) (some x) .prev (some x) .next = .ok (H.exchange (xs ++ [x])) := by
  simp only [swap, load, store, getLink, setLink, ok_bind, exchange, hx, if_false]
  congr 2
  · funext c
    by_cases hc : c = x
    · subst hc; simp
    · simp [hc]
  · funext c
    by_cases hc : c = x
    · subst hc; simp
    · simp [hc]

/-- The loop of `list_reverse` has exchanged the links of `xs` and comes to `ys`. -/
theorem reverseLoop_eq (h : WellFormed hdr H F) {fuel : Nat} (hF : F i = xs ++ ys)
    (hfuel : ys.length ≤ fuel) :
    reverseLoop (hdr i) fuel (H.exchange xs) (some (ys.headD (hdr i).tail)) =
      .ok (H.exchange (F i)) := by
  induction ys generalizing xs fuel with
  | nil =>
    rw [hF, append_nil]
    cases fuel <;> exact if_pos rfl
  | cons y ys ih =>
    have hF' : F i = xs ++ [y] ++ ys := by simpa using hF
    have hnd := h.nodup i
    simp only [hF, chain] at hnd
    have hend : ¬ some ((y :: ys).headD (hdr i).tail) = listEnd (hdr i) := by
      simp only [listEnd, headD_cons, Option.some.injEq]
      grind
    have hy : y ∉ xs := by grind
    have hnext := (h.joined hF').1
    rw [getLastD_concat] at hnext
    cases fuel with
    | zero => simp at hfuel
    | succ =>
      rw [reverseLoop, if_neg hend]
      simp only [headD_cons, swap_exchange H hy, ok_bind]
      have hload : load (H.exchange (xs ++ [y])) (some y) .prev =
          .ok (some (ys.headD (hdr i).tail)) := by
        simp [load, getLink, exchange, hnext]
      rw [hload, ok_bind]
      exact ih hF' (by simpa using hfuel)

/-- The two swaps after the loop lead the outer links to the other side. -/
theorem swap_ends (hx : x ∈ xs) (hm : m ∈ xs) (hh : L.head ∉ xs)
    (ht : L.tail ∉ xs) (hbegin : H.Joined L.head x) (hend : H.Joined m L.tail) :
    (do
      let H ← swap (H.exchange xs) (some L.head) .next (some L.tail) .prev
      swap H (H.next L.head) .prev (H.prev L.tail) .next) =
      .ok (H.turn L.head xs L.tail x m) := by
  have hxh : x ≠ L.head := fun h => hh (h ▸ hx)
  have hmt : m ≠ L.tail := fun h => ht (h ▸ hm)
  have h1 : (H.exchange xs).next L.head = some x := by simp only [exchange, if_neg hh, hbegin.1]
  have h2 : (H.exchange xs).prev L.tail = some m := by simp only [exchange, if_neg ht, hend.2]
  have h3 : (H.exchange xs).prev m = some L.tail := by simp only [exchange, if_pos hm, hend.1]
  have h4 : (H.exchange xs).next x = some L.head := by simp only [exchange, if_pos hx, hbegin.2]
  simp only [swap, load, store, getLink, setLink, ok_bind, update_self, h1, h2,
    update_of_ne hmt, update_of_ne hxh, h3, h4, turn]

/-- `list_reverse`, in no more turns than there are elements. -/
theorem listReverse_leads (h : WellFormed hdr H F) :
    ∃ H', (∀ fuel, (F i).length ≤ fuel → listReverse fuel H (hdr i) = .ok H') ∧
      Leads hdr H F [i] H' (update F i (F i).reverse) := by
  have hnd := h.nodup i
  cases hF : F i with
  | nil =>
    refine ⟨H, fun fuel _ => ?_, ?_, fun k _ c _ => ⟨rfl, rfl⟩⟩
    · rw [listReverse, if_pos (h.listEmpty_iff.mpr hF)]
    · rwa [reverse_nil, ← hF, update_eq_self]
  | cons x xs =>
    obtain ⟨m, hm⟩ : ∃ m, (x :: xs).getLast? = some m := ⟨_, getLast?_cons⟩
    have hmmem : m ∈ x :: xs := mem_of_getLast? hm
    have hbegin : H.Joined (hdr i).head x := h.joined (show F i = [] ++ x :: xs from hF)
    have hend : H.Joined m (hdr i).tail := by
      have hj := h.joined (show F i = x :: xs ++ [] by rw [hF, append_nil])
      rwa [getLastD_eq_getLast?, hm] at hj
    have hchain : chain (hdr i) (F i) = (hdr i).head :: (x :: xs ++ [(hdr i).tail]) := by
      rw [hF, chain]
    obtain ⟨hsound, hframe⟩ := Sound.turn h hchain rfl hm
    refine ⟨_, fun fuel hfuel => ?_, ?_, fun k hk => hframe k (by simpa using hk)⟩
    · have hempty : ¬ listEmpty H (hdr i) = true := by
        rw [h.listEmpty_iff, hF]
        exact cons_ne_nil x xs
      have hloop := reverseLoop_eq h (show F i = [] ++ x :: xs from hF) hfuel
      rw [show H.exchange [] = H by simp [exchange], hF] at hloop
      rw [listReverse, if_neg hempty, h.listBegin, hF, hloop, ok_bind]
      exact swap_ends (mem_cons_self ..) hmmem (by grind) (by grind) hbegin hend
    · rwa [WellFormed, chain_update]

end

end Pintos.Lib.Cells
