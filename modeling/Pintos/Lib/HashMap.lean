/-
  The hash table refines a finite map from keys to elements, where a KEY is a class of elements that
  are equal for `less`.  Buckets and failures of `malloc` in `rehash` are not to be seen.

  1. **The map** (`HashOp.onMap`) — the four operations on one key, and `hash_clear`.

  2. **Refinement** (`Refines`) — the elements of the table are the values of the map.  Every operation
     keeps it and returns what the map returns (`Refines.step`), hence every sequence (`Refines.run`).

  3. **Keys** — a strict weak order has classes (`classes`), and they are keys as soon as equal
     elements have equal hashes (`keyed_classes`): `hash_refines_map`.

  4. **Iteration** — what is `left` behind a place is one list, and `hash_next` goes to its head.
-/
import Mathlib.Logic.Function.Basic
import Pintos.Lib.List
import Pintos.Lib.Hash

namespace Pintos.Lib

open Function List Hash

variable {α κ : Type} {fuel : Nat}

/-- The operations of a hash table. -/
inductive HashOp (α : Type) where
  | insert (e : α)
  | replace (e : α)
  | find (e : α)
  | delete (e : α)
  | clear
  deriving Repr

namespace HashOp

/-- What an operation returns, and the table after it; `memory` says whether a `rehash` finds memory. -/
def onHash [DecidableEq α] (f : HashFns α) (memory : Bool) (h : Hash α) :
    HashOp α → Option α × Hash α
  | .insert e => h.hashInsert f memory e
  | .replace e => h.hashReplace f memory e
  | .find e => (h.hashFind f e, h)
  | .delete e => h.hashDelete f memory e
  | .clear => (none, h.hashClear.2)

open Classical in
/-- **The abstract behaviour**: what an operation returns, and the map after it. -/
noncomputable def onMap (key : α → κ) (m : κ → Option α) : HashOp α → Option α × (κ → Option α)
  | .insert e => (m (key e), if m (key e) = none then update m (key e) (some e) else m)
  | .replace e => (m (key e), update m (key e) (some e))
  | .find e => (m (key e), m)
  | .delete e => (m (key e), update m (key e) none)
  | .clear => (none, fun _ => none)

def runHash [DecidableEq α] (f : HashFns α) :
    Hash α → List (HashOp α × Bool) → List (Option α) × Hash α
  | h, [] => ([], h)
  | h, (op, memory) :: ops =>
    let (r, h') := op.onHash f memory h
    let (rs, h'') := runHash f h' ops
    (r :: rs, h'')

/-- The same sequence on the map. -/
noncomputable def runMap (key : α → κ) :
    (κ → Option α) → List (HashOp α × Bool) → List (Option α) × (κ → Option α)
  | m, [] => ([], m)
  | m, (op, _) :: ops =>
    let (r, m') := op.onMap key m
    let (rs, m'') := runMap key m' ops
    (r :: rs, m'')

end HashOp

/-! ## Refinement -/

/-- The table holds the values of the map, in a number of buckets that is a power of 2. -/
structure Refines (f : HashFns α) (key : α → κ) (h : Hash α) (m : κ → Option α) : Prop where
  wf : h.WF f key
  elems : ∀ k e, m k = some e ↔ e ∈ h.elems ∧ key e = k
  pow : ∃ j, 2 ≤ j ∧ h.buckets.length = 2 ^ j

namespace Refines

variable {f : HashFns α} {key : α → κ} {h h' : Hash α} {m : κ → Option α}

theorem init : Refines f key Hash.init (fun _ => none) where
  wf := Hash.init_wf
  elems k e := by simp
  pow := ⟨2, Nat.le_refl 2, rfl⟩

theorem find (hr : Refines f key h m) (hf : Hash.Keyed f key) (e : α) :
    h.hashFind f e = m (key e) := by
  cases hm : m (key e) with
  | none =>
    rw [hashFind_eq_none hf hr.wf]
    intro x hx hk
    rw [(hr.elems (key e) x).mpr ⟨hx, hk⟩] at hm
    cases hm
  | some x => exact (hashFind_eq_some hf hr.wf).mpr ((hr.elems _ x).mp hm)

theorem rehash_pow (hp : ∃ j, 2 ≤ j ∧ h.buckets.length = 2 ^ j) (memory : Bool) :
    ∃ j, 2 ≤ j ∧ (h.rehash f memory).buckets.length = 2 ^ j := by
  rcases rehash_cases (f := f) memory h with he | ⟨-, he, -, -⟩
  · rw [he]; exact hp
  · rw [he]; exact newBucketCnt_pow _

/-- The number of buckets changes only in `rehash`. -/
theorem onHash_pow [DecidableEq α] (hp : ∃ j, 2 ≤ j ∧ h.buckets.length = 2 ^ j) (memory : Bool)
    (op : HashOp α) : ∃ j, 2 ≤ j ∧ (op.onHash f memory h).2.buckets.length = 2 ^ j := by
  have hlen : ∀ {g : List α → List α} {i n}, ∃ j, 2 ≤ j ∧
      (Hash.mk (h.buckets.modify i g) n).buckets.length = 2 ^ j := by
    intro g i n
    rwa [length_modify]
  cases op with
  | insert =>
    simp only [HashOp.onHash, hashInsert]
    split
    · exact rehash_pow hlen memory
    · exact rehash_pow hp memory
  | replace =>
    simp only [HashOp.onHash, hashReplace]
    split
    · exact rehash_pow hlen memory
    · refine rehash_pow ?_ memory
      obtain ⟨j, hj, hl⟩ := hp
      refine ⟨j, hj, ?_⟩
      simp only [insertElem, removeElem, length_modify]
      exact hl
  | find => exact hp
  | delete =>
    simp only [HashOp.onHash, hashDelete]
    split
    · exact hp
    · exact rehash_pow hlen memory
  | clear =>
    obtain ⟨j, hj, hl⟩ := hp
    exact ⟨j, hj, by simpa [HashOp.onHash, hashClear] using hl⟩

open Classical in
/-- **One operation** returns what the map returns, and keeps the refinement. -/
theorem step [DecidableEq α] (hr : Refines f key h m) (hf : Hash.Keyed f key) (memory : Bool)
    (op : HashOp α) : (op.onHash f memory h).1 = (op.onMap key m).1 ∧
      Refines f key (op.onHash f memory h).2 (op.onMap key m).2 := by
  have hpow := onHash_pow (f := f) hr.pow memory op
  cases op with
  | insert e =>
    simp only [HashOp.onMap]
    cases hm : m (key e) with
    | none =>
      have hnew : ∀ x ∈ h.elems, key x ≠ key e := by
        rw [← hr.find hf e] at hm
        exact (hashFind_eq_none hf hr.wf).mp hm
      obtain ⟨h1, h2, h3⟩ := hashInsert_new hf hr.wf memory hnew
      refine ⟨h1, h2, fun k x => ?_, hpow⟩
      rw [if_pos rfl]
      show _ ↔ x ∈ (h.hashInsert f memory e).2.elems ∧ _
      rw [h3.mem_iff, mem_cons]
      by_cases hk : k = key e
      · subst hk
        rw [update_self]
        constructor
        · rintro ⟨⟩
          exact ⟨.inl rfl, rfl⟩
        · rintro ⟨rfl | hx, hxk⟩
          · rfl
          · exact absurd hxk (hnew x hx)
      · rw [update_of_ne hk, hr.elems]
        refine ⟨fun hx => ⟨.inr hx.1, hx.2⟩, ?_⟩
        rintro ⟨rfl | hx, hxk⟩
        · exact absurd hxk.symm hk
        · exact ⟨hx, hxk⟩
    | some old =>
      obtain ⟨hold, hk⟩ := (hr.elems _ old).mp hm
      obtain ⟨h1, h2, h3⟩ := hashInsert_old hf hr.wf memory hold hk
      refine ⟨h1, h2, fun k x => ?_, hpow⟩
      rw [if_neg (by simp)]
      show _ ↔ x ∈ (h.hashInsert f memory e).2.elems ∧ _
      rw [h3.mem_iff]
      exact hr.elems k x
  | replace e =>
    obtain ⟨h1, h2, h3⟩ := hashReplace_wf hf hr.wf memory e
    refine ⟨h1.trans (hr.find hf e), h2, fun k x => ?_, hpow⟩
    show update m (key e) (some e) k = some x ↔ x ∈ (h.hashReplace f memory e).2.elems ∧ _
    rw [h3]
    by_cases hk : k = key e
    · subst hk
      rw [update_self]
      constructor
      · rintro ⟨⟩
        exact ⟨.inl rfl, rfl⟩
      · rintro ⟨rfl | hx, hxk⟩
        · rfl
        · exact absurd hxk hx.2
    · rw [update_of_ne hk, hr.elems]
      constructor
      · rintro ⟨hx, rfl⟩
        exact ⟨.inr ⟨hx, hk⟩, rfl⟩
      · rintro ⟨rfl | hx, hxk⟩
        · exact absurd hxk.symm hk
        · exact ⟨hx.1, hxk⟩
  | find e => exact ⟨hr.find hf e, hr⟩
  | delete e =>
    cases hm : m (key e) with
    | none =>
      have hfind : h.hashFind f e = none := (hr.find hf e).trans hm
      have hdel : h.hashDelete f memory e = (none, h) := by rw [hashDelete, hfind]
      have hsame : update m (key e) none = m := by rw [← hm, update_eq_self]
      simp only [HashOp.onHash, HashOp.onMap, hdel, hsame, hm, true_and]
      exact hr
    | some old =>
      obtain ⟨hold, hk⟩ := (hr.elems _ old).mp hm
      obtain ⟨h1, h2, h3⟩ := hashDelete_elems hf hr.wf memory hold hk
      refine ⟨h1.trans hm.symm, h2, fun k x => ?_, hpow⟩
      show update m (key e) none k = some x ↔ x ∈ (h.hashDelete f memory e).2.elems ∧ _
      have hnodup := (h3.map key).nodup_iff.mpr hr.wf.keys
      obtain ⟨hnot, -⟩ := nodup_cons.mp hnodup
      by_cases hke : k = key e
      · subst hke
        rw [update_self]
        constructor
        · rintro ⟨⟩
        · rintro ⟨hx, hxk⟩
          exact absurd (mem_map.mpr ⟨x, hx, hxk.trans hk.symm⟩) hnot
      · rw [update_of_ne hke, hr.elems, ← h3.mem_iff, mem_cons]
        refine ⟨?_, fun hx => ⟨.inr hx.1, hx.2⟩⟩
        rintro ⟨rfl | hx, hxk⟩
        · exact absurd (hxk.symm.trans hk) hke
        · exact ⟨hx, hxk⟩
  | clear =>
    refine ⟨rfl, hashClear_wf hr.wf, fun k x => ?_, hpow⟩
    show (none = some x) ↔ x ∈ h.hashClear.2.elems ∧ _
    rw [hashClear_elems]
    simp

/-- **Every sequence of operations** returns what it returns on the map. -/
theorem run [DecidableEq α] (hf : Hash.Keyed f key) :
    ∀ (ops : List (HashOp α × Bool)) {h : Hash α} {m : κ → Option α}, Refines f key h m →
      (HashOp.runHash f h ops).1 = (HashOp.runMap key m ops).1 ∧
        Refines f key (HashOp.runHash f h ops).2 (HashOp.runMap key m ops).2
  | [], _, _, hr => ⟨rfl, hr⟩
  | (op, memory) :: ops, h, m, hr => by
    obtain ⟨h1, h2⟩ := hr.step hf memory op
    obtain ⟨h3, h4⟩ := run hf ops h2
    exact ⟨congrArg₂ cons h1 h3, h4⟩

end Refines

/-! ## Keys -/

def HashFns.equal (f : HashFns α) (a b : α) : Prop := f.less a b = false ∧ f.less b a = false

/-- The classes of a strict weak order. -/
def classes (f : HashFns α) (hw : StrictWeak f.less) : Setoid α where
  r := f.equal
  iseqv := by
    refine ⟨fun a => ?_, fun h => ⟨h.2, h.1⟩, fun h h' => ⟨hw.trans h'.1 h.1, hw.trans h.2 h'.2⟩⟩
    have hself : f.less a a = false := by
      cases ha : f.less a a with
      | false => rfl
      | true => exact ha.symm.trans (hw.asymm ha)
    exact ⟨hself, hself⟩

def classOf (f : HashFns α) (hw : StrictWeak f.less) (e : α) : Quotient (classes f hw) :=
  Quotient.mk (classes f hw) e

theorem classOf_eq {f : HashFns α} {hw : StrictWeak f.less} {a b : α} :
    classOf f hw a = classOf f hw b ↔ f.equal a b :=
  ⟨fun h => Quotient.exact h, fun h => Quotient.sound (s := classes f hw) h⟩

/-- The classes are keys if equal elements have equal hashes. -/
theorem keyed_classes {f : HashFns α} (hw : StrictWeak f.less)
    (hh : ∀ a b, f.equal a b → f.hash a = f.hash b) : Hash.Keyed f (classOf f hw) where
  equal a b := by
    rw [classOf_eq, HashFns.equal]
    simp
  hash a b hk := hh a b (classOf_eq.mp hk)

/-- **The hash table refines a finite map**, for every sequence of operations from `hash_init`, wherever
    `rehash` finds no memory: each operation returns what it returns on the map; the elements of the
    table are the values of the map, `elem_cnt` is their number; each is in the bucket that `find_bucket`
    computes and in no other, once; no two are equal; and `bucket_cnt` is a power of 2, 4 or more.
    `hash_clear` hands exactly the elements to its destructor. -/
theorem hash_refines_map [DecidableEq α] {f : HashFns α} (hw : StrictWeak f.less)
    (hh : ∀ a b, f.equal a b → f.hash a = f.hash b) (ops : List (HashOp α × Bool))
    {results : List (Option α)} {h : Hash α} (hrun : HashOp.runHash f Hash.init ops = (results, h)) :
    ∃ m, HashOp.runMap (classOf f hw) (fun _ => none) ops = (results, m) ∧
      (∀ e, e ∈ h.elems ↔ m (classOf f hw e) = some e) ∧
      (∀ k e, m k = some e → classOf f hw e = k) ∧
      h.elemCnt = h.elems.length ∧ h.elems.Nodup ∧
      (∀ e ∈ h.elems, ∀ i, e ∈ h.bucket i ↔ i = h.findBucket f e) ∧
      (∀ a ∈ h.elems, ∀ b ∈ h.elems, f.equal a b → a = b) ∧
      (∃ j, 2 ≤ j ∧ h.buckets.length = 2 ^ j) ∧ h.hashClear.1 = h.elems := by
  have hf := keyed_classes hw hh
  obtain ⟨hres, hr⟩ := Refines.run hf ops Refines.init
  rw [hrun] at hres hr
  refine ⟨_, Prod.ext hres.symm rfl, fun e => ?_, fun k e he => ((hr.elems k e).mp he).2, hr.wf.count,
    hr.wf.nodup, fun e he i => ?_, fun a ha b hb hab => ?_, hr.pow, rfl⟩
  · rw [hr.elems]
    exact ⟨fun he => ⟨he, rfl⟩, And.left⟩
  · constructor
    · intro hi
      exact (hr.wf.placed i e hi).symm
    · rintro rfl
      exact hr.wf.mem_bucket.mpr he
  · exact hr.wf.eq_of_key ha hb (classOf_eq.mpr hab)

/-- Numbers compared and hashed by their last digit. -/
def lastDigit : HashFns Nat where
  hash e := e % 10
  less a b := decide (a % 10 < b % 10)

/-- A table of numbers with different last digits, one of them replaced, and grown without memory. -/
theorem hash_refines_map_digits : ∃ h, HashOp.runHash lastDigit Hash.init
      [(.insert 3, true), (.insert 13, false), (.replace 23, true), (.find 33, true)] =
      ([none, some 3, some 3, some 23], h) ∧
    h.elems = [23] ∧ h.elemCnt = h.elems.length := by
  have hw : StrictWeak lastDigit.less := by
    have hdesc := strictWeak_desc fun e : Nat => -((e % 10 : Nat) : Int)
    have heq : lastDigit.less =
        fun a b => decide (-((b % 10 : Nat) : Int) < -((a % 10 : Nat) : Int)) := by
      funext a b
      exact decide_eq_decide.mpr (by omega)
    rwa [heq]
  have hh : ∀ a b, lastDigit.equal a b → lastDigit.hash a = lastDigit.hash b := by
    intro a b hab
    have h1 : ¬ a % 10 < b % 10 := of_decide_eq_false hab.1
    have h2 : ¬ b % 10 < a % 10 := of_decide_eq_false hab.2
    show a % 10 = b % 10
    omega
  have hrun : HashOp.runHash lastDigit init
      [(.insert 3, true), (.insert 13, false), (.replace 23, true), (.find 33, true)] =
      ([none, some 3, some 3, some 23], ⟨[[], [], [], [23]], 1⟩) := by decide +kernel
  obtain ⟨m, -, -, -, hcount, -⟩ := hash_refines_map hw hh _ hrun
  exact ⟨_, hrun, rfl, hcount⟩

/-! ## Iteration -/

/-- `struct hash_iterator`.  A place in a bucket is 0 for the head of its list and `k + 1` for the
    element `k`; the tail comes behind the last one.  `elem` is null at the end. -/
structure HashIterator where
  bucket : Nat
  elem : Option Nat

namespace Hash

def hashFirst : HashIterator := ⟨0, some 0⟩

/-- The loop of `hash_next`, at the place `elem`; no result if it looks at a bucket that is not in the
    array. -/
def nextLoop (h : Hash α) : Nat → Nat → Nat → Option HashIterator
  | 0, _, _ => none
  | fuel + 1, bucket, elem =>
    h.buckets[bucket]?.bind fun l =>
      if elem = l.length + 1 then
        if bucket + 1 ≥ h.buckets.length then some ⟨bucket + 1, none⟩
        else nextLoop h fuel (bucket + 1) 1
      else some ⟨bucket, some elem⟩

def hashNext (h : Hash α) (i : HashIterator) : Option HashIterator :=
  i.elem.bind fun elem => h.nextLoop h.buckets.length i.bucket (elem + 1)

/-- The element that `hash_cur` points to; the head and the tail are none. -/
def hashCur (h : Hash α) (i : HashIterator) : Option α :=
  match i.elem with
  | some (k + 1) => (h.bucket i.bucket)[k]?
  | _ => none

/-- `while (hash_next (i))`: the elements visited. -/
def visit (h : Hash α) : Nat → HashIterator → Option (List α)
  | 0, _ => none
  | fuel + 1, i =>
    (h.hashNext i).bind fun i' =>
      if i'.elem = none then some []
      else (h.hashCur i').bind fun e => (h.visit fuel i').map (e :: ·)

def hashApply {σ : Type} (h : Hash α) (action : α → σ → σ) (s : σ) : σ :=
  h.buckets.foldl (fun s bucket => bucket.foldl (fun s e => action e s) s) s

/-- `hash_clear` with its destructor, if there is one: a bucket is popped until it is empty. -/
def hashClearWith {σ : Type} (h : Hash α) (destructor : Option (α → σ → σ)) (s : σ) : σ × Hash α :=
  (h.buckets.foldl (fun s bucket => match destructor with
    | none => s
    | some d => bucket.foldl (fun s e => d e s) s) s, h.hashClear.2)

variable {h : Hash α}

/-- What comes behind the place `k` of the bucket `b`. -/
def left (h : Hash α) (b k : Nat) : List α := (h.bucket b).drop k ++ (h.buckets.drop (b + 1)).flatten

/-- **`hash_next`** goes to the first element that is left, over any number of empty buckets. -/
theorem nextLoop_spec : ∀ {b k : Nat}, b < h.buckets.length →
    h.buckets.length ≤ b + fuel → k ≤ (h.bucket b).length →
    (h.left b k = [] ∧ h.nextLoop fuel b (k + 1) = some ⟨h.buckets.length, none⟩) ∨
    ∃ b' k' e, h.nextLoop fuel b (k + 1) = some ⟨b', some (k' + 1)⟩ ∧ b' < h.buckets.length ∧
      (h.bucket b')[k']? = some e ∧ h.left b k = e :: h.left b' (k' + 1) := by
  induction fuel with
  | zero =>
    intro b k hb hfuel
    omega
  | succ fuel ih =>
    intro b k hb hfuel hk
    have hbucket : h.bucket b = h.buckets[b] := getD_eq_getElem _ _ hb
    rw [nextLoop, getElem?_eq_getElem hb, ← hbucket]
    show _ ∧ ite _ _ _ = _ ∨ ∃ b' k' e, ite _ _ _ = _ ∧ _
    by_cases hend : k = (h.bucket b).length
    · have hleft : h.left b k = (h.buckets.drop (b + 1)).flatten := by
        rw [left, hend, drop_length, nil_append]
      rw [if_pos (by rw [hend]), hleft]
      by_cases hlast : b + 1 ≥ h.buckets.length
      · rw [if_pos hlast, drop_eq_nil_of_le hlast]
        exact .inl ⟨rfl, by rw [show b + 1 = h.buckets.length by omega]⟩
      · rw [if_neg hlast, drop_eq_getElem_cons (by omega), flatten_cons,
          ← getD_eq_getElem _ [] (by omega)]
        exact ih (b := b + 1) (k := 0) (by omega) (by omega) (Nat.zero_le _)
    · have hlt : k < (h.bucket b).length := by omega
      rw [if_neg (by omega)]
      refine .inr ⟨b, k, _, rfl, hb, getElem?_eq_getElem hlt, ?_⟩
      rw [left, drop_eq_getElem_cons hlt, cons_append]
      rfl

theorem visit_eq : ∀ {b k : Nat}, b < h.buckets.length → k ≤ (h.bucket b).length →
    (h.left b k).length < fuel → h.visit fuel ⟨b, some k⟩ = some (h.left b k) := by
  induction fuel with
  | zero =>
    intro b k _ _ hfuel
    omega
  | succ fuel ih =>
    intro b k hb hk hfuel
    show (h.nextLoop h.buckets.length b (k + 1)).bind _ = _
    rcases nextLoop_spec hb (Nat.le_add_left ..) hk with
      ⟨hleft, hnext⟩ | ⟨b', k', e, hnext, hb', he, hleft⟩
    · rw [hnext, hleft]
      rfl
    rw [hleft, length_cons] at hfuel
    have hk' : k' + 1 ≤ _ := (List.getElem?_eq_some_iff.mp he).1
    rw [hnext, hleft]
    show ((h.bucket b')[k']?.bind fun e => (h.visit fuel ⟨b', some (k' + 1)⟩).map (e :: ·)) = _
    rw [he, ih hb' hk' (by omega)]
    rfl

end Hash

/-- A table that is reached from `hash_init` has a bucket. -/
theorem HashOp.runHash_pow [DecidableEq α] {f : HashFns α} :
    ∀ (ops : List (HashOp α × Bool)) {h : Hash α}, (∃ j, 2 ≤ j ∧ h.buckets.length = 2 ^ j) →
      ∃ j, 2 ≤ j ∧ (runHash f h ops).2.buckets.length = 2 ^ j
  | [], _, hp => hp
  | (op, memory) :: ops, _, hp => runHash_pow ops (Refines.onHash_pow hp memory op)

/-- **Iteration is exact**: in every table that is reached, `hash_next` visits the elements one by one and
    then returns null, without leaving the array of buckets; `hash_apply` calls its action on each, and
    `hash_clear` its destructor, which leaves the table empty. -/
theorem hash_iteration_exact [DecidableEq α] (f : HashFns α) (ops : List (HashOp α × Bool)) :
    let h := (HashOp.runHash f Hash.init ops).2
    h.visit (h.elems.length + 1) hashFirst = some h.elems ∧
      ∀ {σ : Type} (action : α → σ → σ) (s : σ),
        h.hashApply action s = h.elems.foldl (fun s e => action e s) s ∧
        ∃ h', h.hashClearWith (some action) s = (h.elems.foldl (fun s e => action e s) s, h') ∧
          h'.elems = [] ∧ h'.elemCnt = 0 := by
  intro h
  obtain ⟨j, -, hj⟩ := HashOp.runHash_pow (f := f) (h := init) ops ⟨2, Nat.le_refl 2, rfl⟩
  have hpos : 0 < h.buckets.length := hj ▸ Nat.two_pow_pos j
  have hall : h.left 0 0 = h.elems := by
    rw [Hash.elems, ← h.buckets.drop_zero, drop_eq_getElem_cons hpos, flatten_cons,
      ← getD_eq_getElem _ [] hpos]
    rfl
  refine ⟨?_, fun action s => ?_⟩
  · rw [← hall]
    exact visit_eq hpos (Nat.zero_le _) (Nat.lt_succ_self _)
  · have hfold := foldl_flatten (f := fun s e => action e s) (b := s) (L := h.buckets)
    exact ⟨hfold.symm, _, Prod.ext hfold.symm rfl, hashClear_elems, rfl⟩

end Pintos.Lib
