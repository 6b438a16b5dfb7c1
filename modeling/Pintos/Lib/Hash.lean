/-
  The hash table of `lib/kernel/hash.c`.

  A `struct hash` is the list of its buckets, each the list of its elements, front first.  The
  callbacks `hash` and `less` are the arguments `f` of every operation; two elements are EQUAL if
  neither is `less` than the other.

  1. **Program** — whether `rehash` finds memory for its new buckets is an argument.

  2. **Specification** — `Keyed f key` says that the callbacks compare and hash by a `key`, and `WF`
     that every element is in the bucket of its hash value and no two have one key.  Then `hash_find`
     finds exactly what the table holds, and insertion and deletion add and remove ONE element.

  3. **The crux** — moving the elements to other buckets loses none (`rehash_elems`) and puts each
     one where it will be looked for (`rehash_wf`).  The number of buckets stays a power of 2, because
     turning off the lowest bit keeps the highest one (`newBucketCnt_pow`).
-/
import Mathlib.Algebra.Group.Nat.Defs
import Mathlib.Data.List.GetD
import Mathlib.Data.List.Nodup

namespace Pintos.Lib

open List

variable {α κ : Type}

/-- The callbacks of a hash table. -/
structure HashFns (α : Type) where
  hash : α → Nat
  less : α → α → Bool

/-- `struct hash`; `bucket_cnt` is the length of `buckets`. -/
structure Hash (α : Type) where
  buckets : List (List α)
  elemCnt : Nat
  deriving DecidableEq

namespace Hash

/-! ## The program -/

/-- `hash_init`, once it has memory for the buckets. -/
def init : Hash α := { buckets := replicate 4 [], elemCnt := 0 }

def bucket (h : Hash α) (i : Nat) : List α := h.buckets.getD i []

/-- All the elements, bucket by bucket. -/
def elems (h : Hash α) : List α := h.buckets.flatten

/-- The index that `find_bucket` computes in a table of `bucketCnt` buckets. -/
def bucketIdx (f : HashFns α) (bucketCnt : Nat) (e : α) : Nat := f.hash e &&& (bucketCnt - 1)

def findBucket (f : HashFns α) (h : Hash α) (e : α) : Nat := bucketIdx f h.buckets.length e

def findElem (f : HashFns α) (bucket : List α) (e : α) : Option α :=
  bucket.find? fun hi => !f.less hi e && !f.less e hi

def insertElem (h : Hash α) (i : Nat) (e : α) : Hash α :=
  { buckets := h.buckets.modify i (e :: ·), elemCnt := h.elemCnt + 1 }

/-- `remove_elem`, of an element of bucket `i`. -/
def removeElem [DecidableEq α] (h : Hash α) (i : Nat) (e : α) : Hash α :=
  { buckets := h.buckets.modify i (·.erase e), elemCnt := h.elemCnt - 1 }

def turnOffLeast1bit (x : Nat) : Nat := x &&& (x - 1)

def isPowerOf2 (x : Nat) : Bool := x ≠ 0 && turnOffLeast1bit x = 0

theorem turnOffLeast1bit_lt {x : Nat} (h : x ≠ 0) : turnOffLeast1bit x < x :=
  Nat.lt_of_le_of_lt Nat.and_le_right (Nat.sub_lt (Nat.pos_of_ne_zero h) Nat.one_pos)

/-- The loop of `rehash` that makes a bucket count a power of 2.  It is never entered with 0. -/
def powerOf2Below (x : Nat) : Nat :=
  if x = 0 ∨ isPowerOf2 x = true then x else powerOf2Below (turnOffLeast1bit x)
termination_by x
decreasing_by
  rename_i hx
  exact turnOffLeast1bit_lt fun h0 => hx (.inl h0)

/-- The bucket count that `rehash` wants for `elemCnt` elements. -/
def newBucketCnt (elemCnt : Nat) : Nat := powerOf2Below (if elemCnt / 2 < 4 then 4 else elemCnt / 2)

/-- Moving one element to the front of its new bucket. -/
def move (f : HashFns α) (buckets : List (List α)) (e : α) : List (List α) :=
  buckets.modify (bucketIdx f buckets.length e) (e :: ·)

/-- `rehash`; `memory` says whether there is memory for the new buckets. -/
def rehash (f : HashFns α) (memory : Bool) (h : Hash α) : Hash α :=
  if newBucketCnt h.elemCnt = h.buckets.length then h
  else if memory then
    { h with buckets := h.elems.foldl (move f) (replicate (newBucketCnt h.elemCnt) []) }
  else h

def hashFind (f : HashFns α) (h : Hash α) (e : α) : Option α :=
  findElem f (h.bucket (h.findBucket f e)) e

/-- `hash_insert`: the old element, if there is an equal one, and the table. -/
def hashInsert (f : HashFns α) (memory : Bool) (h : Hash α) (e : α) : Option α × Hash α :=
  match h.hashFind f e with
  | none => (none, (h.insertElem (h.findBucket f e) e).rehash f memory)
  | some old => (some old, h.rehash f memory)

/-- `hash_delete`: the element found, and the table. -/
def hashDelete [DecidableEq α] (f : HashFns α) (memory : Bool) (h : Hash α) (e : α) :
    Option α × Hash α :=
  match h.hashFind f e with
  | none => (none, h)
  | some found => (some found, (h.removeElem (h.findBucket f e) found).rehash f memory)

/-- `hash_replace`: the element replaced, and the table. -/
def hashReplace [DecidableEq α] (f : HashFns α) (memory : Bool) (h : Hash α) (e : α) :
    Option α × Hash α :=
  let i := h.findBucket f e
  match h.hashFind f e with
  | none => (none, (h.insertElem i e).rehash f memory)
  | some old => (some old, ((h.removeElem i old).insertElem i e).rehash f memory)

/-- `hash_clear`: the elements in the order the destructor is called on them, and the table. -/
def hashClear (h : Hash α) : List α × Hash α :=
  (h.elems, { buckets := h.buckets.map fun _ => [], elemCnt := 0 })

/-! ## Hash functions -/

/-- One round of the loop of `hash_bytes`; an `unsigned` has 32 bits. -/
def hashByte (hash byte : Nat) : Nat := (hash * 16777619 % 4294967296) ^^^ byte

def hashBytes (buf : List Nat) : Nat := buf.foldl hashByte 2166136261

/-- The four bytes of a word, in the order they have in memory. -/
def wordBytes (w : Nat) : List Nat := [w % 256, w / 256 % 256, w / 65536 % 256, w / 16777216 % 256]

def hashInt (i : Nat) : Nat := hashBytes (wordBytes i)

/-! ## Well-formed tables -/

/-- The callbacks compare and hash by a key. -/
structure Keyed (f : HashFns α) (key : α → κ) : Prop where
  equal : ∀ a b, (!f.less a b && !f.less b a) = true ↔ key a = key b
  hash : ∀ a b, key a = key b → f.hash a = f.hash b

/-- Every element is in the bucket of its hash value, and no two have one key. -/
structure WF (f : HashFns α) (key : α → κ) (h : Hash α) : Prop where
  pos : 0 < h.buckets.length
  placed : ∀ i e, e ∈ h.bucket i → h.findBucket f e = i
  keys : (h.elems.map key).Nodup
  count : h.elemCnt = h.elems.length

variable {f : HashFns α} {key : α → κ} {h : Hash α}

theorem bucketIdx_lt {n : Nat} (hn : 0 < n) (e : α) : bucketIdx f n e < n :=
  Nat.lt_of_le_of_lt Nat.and_le_right (Nat.sub_lt hn Nat.one_pos)

variable {e x : α} {bs : List (List α)} {i : Nat} {l : List α} (n : Nat)

theorem mem_elems : e ∈ h.elems ↔ ∃ i, e ∈ h.bucket i := by
  constructor
  · intro he
    obtain ⟨b, hb, heb⟩ := mem_flatten.mp he
    obtain ⟨i, hi, rfl⟩ := mem_iff_getElem.mp hb
    refine ⟨i, ?_⟩
    rwa [bucket, getD_eq_getElem _ _ hi]
  · rintro ⟨i, he⟩
    by_cases hi : i < h.buckets.length
    · rw [bucket, getD_eq_getElem _ _ hi] at he
      exact mem_flatten.mpr ⟨_, getElem_mem hi, he⟩
    · rw [bucket, getD_eq_default _ _ (Nat.le_of_not_lt hi)] at he
      cases he

theorem WF.mem_bucket (hw : h.WF f key) : e ∈ h.bucket (h.findBucket f e) ↔ e ∈ h.elems := by
  constructor
  · intro he
    exact mem_elems.mpr ⟨_, he⟩
  · intro he
    obtain ⟨i, hi⟩ := mem_elems.mp he
    rwa [hw.placed i e hi]

theorem WF.eq_of_key (hw : h.WF f key) {a b : α} (ha : a ∈ h.elems) (hb : b ∈ h.elems)
    (hk : key a = key b) : a = b :=
  inj_on_of_nodup_map hw.keys ha hb hk

theorem WF.nodup (hw : h.WF f key) : h.elems.Nodup := Nodup.of_map key hw.keys

section

variable (hf : Keyed f key)
include hf

theorem findElem_eq_some (hx : findElem f l e = some x) : x ∈ l ∧ key x = key e := by
  have he := find?_some hx
  exact ⟨mem_of_find?_eq_some hx, (hf.equal x e).mp he⟩

theorem findElem_eq_none : findElem f l e = none ↔ ∀ x ∈ l, key x ≠ key e := by
  rw [findElem, find?_eq_none]
  constructor
  · intro h x hx hk
    exact h x hx ((hf.equal x e).mpr hk)
  · intro h x hx hk
    exact h x hx ((hf.equal x e).mp hk)

/-- **Lookup**: `hash_find` finds the element of the table that has the key, and nothing else. -/
theorem hashFind_eq_some (hw : h.WF f key) :
    h.hashFind f e = some x ↔ x ∈ h.elems ∧ key x = key e := by
  constructor
  · intro hx
    obtain ⟨hm, hk⟩ := findElem_eq_some hf hx
    exact ⟨mem_elems.mpr ⟨_, hm⟩, hk⟩
  · rintro ⟨hm, hk⟩
    have hb : h.findBucket f e = h.findBucket f x := by
      rw [findBucket, findBucket, bucketIdx, bucketIdx, hf.hash x e hk]
    cases hfind : h.hashFind f e with
    | none =>
      have hno := (findElem_eq_none hf).mp hfind x
      rw [hb] at hno
      exact absurd hk (hno (hw.mem_bucket.mpr hm))
    | some =>
      obtain ⟨hy, hky⟩ := findElem_eq_some hf hfind
      rw [hw.eq_of_key (mem_elems.mpr ⟨_, hy⟩) hm (hky.trans hk.symm)]

theorem hashFind_eq_none (hw : h.WF f key) :
    h.hashFind f e = none ↔ ∀ x ∈ h.elems, key x ≠ key e := by
  constructor
  · intro hn x hx hk
    rw [(hashFind_eq_some hf hw).mpr ⟨hx, hk⟩] at hn
    cases hn
  · intro hno
    cases hx : h.hashFind f e with
    | none => rfl
    | some x =>
      obtain ⟨hm, hk⟩ := (hashFind_eq_some hf hw).mp hx
      exact absurd hk (hno x hm)

end

/-! ## One element more, one element less -/

theorem flatten_modify_cons (hi : i < bs.length) (e : α) :
    (bs.modify i (e :: ·)).flatten.Perm (e :: bs.flatten) := by
  induction bs generalizing i with
  | nil => exact absurd hi (Nat.not_lt_zero i)
  | cons b bs ih =>
    cases i with
    | zero => simp
    | succ =>
      exact ((ih (Nat.lt_of_succ_lt_succ hi)).append_left b).trans perm_middle

theorem flatten_modify_erase [DecidableEq α]
    (he : e ∈ bs.getD i []) : (e :: (bs.modify i (·.erase e)).flatten).Perm bs.flatten := by
  induction bs generalizing i with
  | nil => simp at he
  | cons b bs ih =>
    cases i with
    | zero =>
      have hb : (e :: b.erase e).Perm b := (perm_cons_erase he).symm
      simpa using hb.append_right bs.flatten
    | succ i =>
      have hih := ih (i := i) (by simpa using he)
      exact perm_middle.symm.trans (hih.append_left b)

theorem getD_modify (hi : i < bs.length) (g : List α → List α)
    (j : Nat) : (bs.modify i g).getD j [] = if i = j then g (bs.getD i []) else bs.getD j [] := by
  rw [getD_eq_getElem?_getD, getElem?_modify]
  by_cases hij : i = j
  · subst hij
    simp [getElem?_eq_getElem hi]
  · simp [hij, getD_eq_getElem?_getD]

theorem insertElem_elems (hw : h.WF f key) (e : α) :
    (h.insertElem (h.findBucket f e) e).elems.Perm (e :: h.elems) :=
  flatten_modify_cons (bucketIdx_lt hw.pos e) e

theorem insertElem_wf (hw : h.WF f key) (hnew : ∀ x ∈ h.elems, key x ≠ key e) :
    (h.insertElem (h.findBucket f e) e).WF f key := by
  have hlen : (h.insertElem (h.findBucket f e) e).buckets.length = h.buckets.length :=
    length_modify ..
  have hperm := insertElem_elems hw e
  refine ⟨hlen ▸ hw.pos, fun i x hx => ?_, ?_, ?_⟩
  · rw [findBucket, hlen]
    rw [bucket, insertElem, findBucket, getD_modify (bucketIdx_lt hw.pos e)] at hx
    split at hx
    · rename_i hi
      rcases mem_cons.mp hx with rfl | hx
      · exact hi
      · rw [hi] at hx
        exact hw.placed i x hx
    · exact hw.placed i x hx
  · rw [(hperm.map key).nodup_iff]
    refine nodup_cons.mpr ⟨fun hk => ?_, hw.keys⟩
    obtain ⟨x, hx, hxk⟩ := mem_map.mp hk
    exact hnew x hx hxk
  · rw [hperm.length_eq, length_cons, ← hw.count]
    rfl

section Remove

variable [DecidableEq α]

theorem removeElem_elems (he : e ∈ h.bucket i) : (e :: (h.removeElem i e).elems).Perm h.elems :=
  flatten_modify_erase he

theorem removeElem_wf (hw : h.WF f key) (he : e ∈ h.bucket i) : (h.removeElem i e).WF f key := by
  have hlen : (h.removeElem i e).buckets.length = h.buckets.length := length_modify ..
  have hi : i < h.buckets.length := hw.placed i e he ▸ bucketIdx_lt hw.pos e
  have hperm := removeElem_elems he
  refine ⟨hlen ▸ hw.pos, fun j x hx => ?_, ?_, ?_⟩
  · rw [findBucket, hlen]
    rw [bucket, removeElem, getD_modify hi] at hx
    split at hx
    · rename_i hij
      rw [← hij]
      exact hw.placed i x (mem_of_mem_erase hx)
    · exact hw.placed j x hx
  · have hn := (hperm.map key).nodup_iff.mpr hw.keys
    exact (nodup_cons.mp hn).2
  · have hl := hperm.length_eq
    rw [length_cons, ← hw.count] at hl
    show h.elemCnt - 1 = (h.removeElem i e).elems.length
    omega

end Remove

/-! ## Rehashing -/

theorem powerOf2Below_pos (x : Nat) (hx : 0 < x) : 0 < powerOf2Below x := by
  fun_induction powerOf2Below x with
  | case1 x _ => exact hx
  | case2 x hn ih =>
    apply ih
    have h0 : ¬ (isPowerOf2 x = true) := fun hp => hn (.inr hp)
    have hne : x ≠ 0 := Nat.pos_iff_ne_zero.mp hx
    rw [Nat.pos_iff_ne_zero]
    intro ht
    exact h0 (by simp [isPowerOf2, hne, ht])

theorem newBucketCnt_pos : 0 < newBucketCnt n := by
  apply powerOf2Below_pos
  split <;> omega

/-- Turning off the lowest bit of a number that is no power of 2 leaves its highest bit on. -/
theorem two_pow_le_turnOff {x k : Nat} (hk : 2 ^ k ≤ x) (hlt : x < 2 ^ (k + 1)) (hne : x ≠ 2 ^ k) :
    2 ^ k ≤ turnOffLeast1bit x := by
  apply Nat.ge_two_pow_of_testBit
  rw [turnOffLeast1bit, Nat.testBit_and, Bool.and_eq_true]
  constructor
  · exact Nat.testBit_of_two_pow_le_and_two_pow_add_one_gt hk hlt
  · exact Nat.testBit_of_two_pow_le_and_two_pow_add_one_gt (by omega) (by omega)

theorem isPowerOf2_log {x : Nat} (h : isPowerOf2 x = true) : x = 2 ^ x.log2 := by
  obtain ⟨h0, hoff⟩ : x ≠ 0 ∧ turnOffLeast1bit x = 0 := by simpa [isPowerOf2] using h
  by_contra hne
  have hle := two_pow_le_turnOff (Nat.log2_self_le h0) Nat.lt_log2_self hne
  have hpos : 0 < 2 ^ x.log2 := Nat.pow_pos (by omega)
  omega

/-- The loop ends at a power of 2, and keeps at least 4 if it starts there. -/
theorem powerOf2Below_pow (x : Nat) (hx : 4 ≤ x) : ∃ j, 2 ≤ j ∧ powerOf2Below x = 2 ^ j := by
  fun_induction powerOf2Below x with
  | case1 x hstop =>
    rcases hstop with h0 | hp
    · omega
    · exact ⟨x.log2, (Nat.le_log2 (by omega)).mpr hx, isPowerOf2_log hp⟩
  | case2 x hgo ih =>
    apply ih
    have h0 : x ≠ 0 := by omega
    -- it goes on, so `x' is no power of 2
    have hne : x ≠ 2 ^ x.log2 := by
      intro he
      apply hgo
      right
      have hoff : turnOffLeast1bit x = 0 := by
        rw [he, turnOffLeast1bit, Nat.and_two_pow_sub_one_eq_mod, Nat.mod_self]
      simp [isPowerOf2, h0, hoff]
    have hfour : 2 ^ 2 ≤ 2 ^ x.log2 := Nat.pow_le_pow_right (by omega) ((Nat.le_log2 h0).mpr hx)
    exact Nat.le_trans hfour (two_pow_le_turnOff (Nat.log2_self_le h0) Nat.lt_log2_self hne)

theorem newBucketCnt_pow : ∃ j, 2 ≤ j ∧ newBucketCnt n = 2 ^ j := by
  apply powerOf2Below_pow
  split <;> omega

/-- Every element is in the bucket of its hash value: `WF.placed`, of bare buckets. -/
def Placed (f : HashFns α) (bs : List (List α)) : Prop :=
  ∀ i e, e ∈ bs.getD i [] → bucketIdx f bs.length e = i

theorem move_length (bs : List (List α)) (e : α) : (move f bs e).length = bs.length :=
  length_modify ..

theorem move_placed (hn : 0 < bs.length) (hp : Placed f bs) (e : α) : Placed f (move f bs e) := by
  intro i x hx
  rw [move_length]
  rw [move, getD_modify (bucketIdx_lt hn e)] at hx
  split at hx
  · rename_i hi
    rcases mem_cons.mp hx with rfl | hx
    · exact hi
    · rw [← hi]
      exact hp _ x hx
  · exact hp i x hx

/-- Moving a list of elements, one at a time, puts all of them into buckets of their own. -/
theorem foldl_move (l : List α) (bs : List (List α)) (hn : 0 < bs.length) (hp : Placed f bs) :
    (l.foldl (move f) bs).length = bs.length ∧ Placed f (l.foldl (move f) bs) ∧
      (l.foldl (move f) bs).flatten.Perm (l ++ bs.flatten) := by
  induction l generalizing bs with
  | nil => exact ⟨rfl, hp, Perm.refl _⟩
  | cons e l ih =>
    have hn' : 0 < (move f bs e).length := (move_length bs e).symm ▸ hn
    obtain ⟨h1, h2, h3⟩ := ih (move f bs e) hn' (move_placed hn hp e)
    refine ⟨h1.trans (move_length bs e), h2, h3.trans ?_⟩
    have hm := (flatten_modify_cons (bucketIdx_lt (f := f) hn e) e).append_left l
    exact hm.trans perm_middle

theorem getD_replicate_nil (n i : Nat) : (replicate n ([] : List α)).getD i [] = [] := by
  rw [getD_eq_getElem?_getD, getElem?_replicate]
  split <;> rfl

theorem placed_replicate : Placed f (replicate n ([] : List α)) := by
  intro i e he
  rw [getD_replicate_nil] at he
  cases he

/-- The buckets of `rehash`: either the old ones, or new ones that hold the same elements. -/
theorem rehash_cases (memory : Bool) (h : Hash α) :
    h.rehash f memory = h ∨
    ((h.rehash f memory).elemCnt = h.elemCnt ∧
      (h.rehash f memory).buckets.length = newBucketCnt h.elemCnt ∧
      Placed f (h.rehash f memory).buckets ∧ (h.rehash f memory).elems.Perm h.elems) := by
  unfold rehash
  split
  · exact .inl rfl
  split
  · have hn : 0 < (replicate (newBucketCnt h.elemCnt) ([] : List α)).length := by
      rw [length_replicate]
      exact newBucketCnt_pos _
    obtain ⟨h1, h2, h3⟩ := foldl_move (f := f) h.elems _ hn (placed_replicate _)
    refine .inr ⟨rfl, h1.trans length_replicate, h2, ?_⟩
    rwa [flatten_replicate_nil, append_nil] at h3
  · exact .inl rfl

theorem rehash_elems (memory : Bool) (h : Hash α) : (h.rehash f memory).elems.Perm h.elems := by
  rcases rehash_cases (f := f) memory h with he | he
  · rw [he]
  · exact he.2.2.2

theorem rehash_wf (hw : h.WF f key) (memory : Bool) : (h.rehash f memory).WF f key := by
  rcases rehash_cases (f := f) memory h with he | ⟨hc, hn, hp, hperm⟩
  · rwa [he]
  · refine ⟨hn ▸ newBucketCnt_pos _, hp, (hperm.map key).nodup_iff.mpr hw.keys, ?_⟩
    rw [hc, hperm.length_eq]
    exact hw.count

/-! ## The operations -/

theorem init_wf : (init : Hash α).WF f key where
  pos := Nat.succ_pos 3
  placed := placed_replicate 4
  keys := by simp [init, elems]
  count := by simp [init, elems]

@[simp] theorem init_elems : (init : Hash α).elems = [] := by simp [init, elems]

section

variable (hf : Keyed f key) (hw : h.WF f key) (memory : Bool)
include hf hw

/-- **Insertion** of an element whose key is not there. -/
theorem hashInsert_new (hnew : ∀ x ∈ h.elems, key x ≠ key e) :
    (h.hashInsert f memory e).1 = none ∧ (h.hashInsert f memory e).2.WF f key ∧
      (h.hashInsert f memory e).2.elems.Perm (e :: h.elems) := by
  rw [hashInsert, (hashFind_eq_none hf hw).mpr hnew]
  exact ⟨rfl, rehash_wf (insertElem_wf hw hnew) memory,
    (rehash_elems memory _).trans (insertElem_elems hw e)⟩

/-- Insertion of an element whose key is taken leaves the table with the elements it has. -/
theorem hashInsert_old (hx : x ∈ h.elems) (hk : key x = key e) :
    (h.hashInsert f memory e).1 = some x ∧ (h.hashInsert f memory e).2.WF f key ∧
      (h.hashInsert f memory e).2.elems.Perm h.elems := by
  rw [hashInsert, (hashFind_eq_some hf hw).mpr ⟨hx, hk⟩]
  exact ⟨rfl, rehash_wf hw memory, rehash_elems memory h⟩

theorem hashInsert_wf (e : α) : (h.hashInsert f memory e).2.WF f key ∧
      ∀ x ∈ (h.hashInsert f memory e).2.elems, x = e ∨ x ∈ h.elems := by
  by_cases hk : ∃ x ∈ h.elems, key x = key e
  · obtain ⟨x, hx, hxk⟩ := hk
    obtain ⟨-, hwf, hp⟩ := hashInsert_old hf hw memory hx hxk
    exact ⟨hwf, fun y hy => .inr (hp.mem_iff.mp hy)⟩
  · obtain ⟨-, hwf, hp⟩ := hashInsert_new hf hw memory fun x hx hxk => hk ⟨x, hx, hxk⟩
    exact ⟨hwf, fun y hy => mem_cons.mp (hp.mem_iff.mp hy)⟩

theorem mem_hashInsert (e : α) (hx : x ∈ h.elems) : x ∈ (h.hashInsert f memory e).2.elems := by
  by_cases hk : ∃ y ∈ h.elems, key y = key e
  · obtain ⟨y, hy, hyk⟩ := hk
    exact (hashInsert_old hf hw memory hy hyk).2.2.mem_iff.mpr hx
  · have hnew := hashInsert_new hf hw memory fun y hy hyk => hk ⟨y, hy, hyk⟩
    exact hnew.2.2.mem_iff.mpr (mem_cons_of_mem e hx)

/-- An insertion that returns nothing has put the element in. -/
theorem mem_hashInsert_self {memory : Bool}
    (hnone : (h.hashInsert f memory e).1 = none) : e ∈ (h.hashInsert f memory e).2.elems := by
  by_cases hk : ∃ y ∈ h.elems, key y = key e
  · obtain ⟨y, hy, hyk⟩ := hk
    rw [(hashInsert_old hf hw memory hy hyk).1] at hnone
    cases hnone
  · have hnew := hashInsert_new hf hw memory fun y hy hyk => hk ⟨y, hy, hyk⟩
    exact hnew.2.2.mem_iff.mpr mem_cons_self

/-- **Deletion** of the element found. -/
theorem hashDelete_elems [DecidableEq α] (hx : x ∈ h.elems) (hk : key x = key e) :
    (h.hashDelete f memory e).1 = some x ∧ (h.hashDelete f memory e).2.WF f key ∧
      (x :: (h.hashDelete f memory e).2.elems).Perm h.elems := by
  have hfind := (hashFind_eq_some hf hw).mpr ⟨hx, hk⟩
  have hb : x ∈ h.bucket (h.findBucket f e) := (findElem_eq_some hf hfind).1
  rw [hashDelete, hfind]
  exact ⟨rfl, rehash_wf (removeElem_wf hw hb) memory,
    ((rehash_elems memory _).cons x).trans (removeElem_elems hb)⟩

theorem mem_hashDelete [DecidableEq α] (he : e ∈ h.elems) :
    x ∈ (h.hashDelete f memory e).2.elems ↔ x ∈ h.elems ∧ x ≠ e := by
  obtain ⟨-, -, hp⟩ := hashDelete_elems hf hw memory he rfl
  have hn := hp.nodup_iff.mpr hw.nodup
  rw [← hp.mem_iff, mem_cons]
  constructor
  · intro hx
    refine ⟨.inr hx, fun hxe => ?_⟩
    rw [hxe] at hx
    exact (nodup_cons.mp hn).1 hx
  · rintro ⟨hx | hx, hne⟩
    · exact absurd hx hne
    · exact hx

/-- **Replacement** of the element that has the key, if there is one. -/
theorem hashReplace_wf [DecidableEq α] (e : α) :
    (h.hashReplace f memory e).1 = h.hashFind f e ∧ (h.hashReplace f memory e).2.WF f key ∧
      ∀ x, x ∈ (h.hashReplace f memory e).2.elems ↔ x = e ∨ x ∈ h.elems ∧ key x ≠ key e := by
  unfold hashReplace
  cases hfind : h.hashFind f e with
  | none =>
    have hnew := (hashFind_eq_none hf hw).mp hfind
    refine ⟨rfl, rehash_wf (insertElem_wf hw hnew) memory, fun x => ?_⟩
    rw [(rehash_elems memory _).mem_iff, (insertElem_elems hw e).mem_iff, mem_cons]
    exact or_congr_right ⟨fun hx => ⟨hx, hnew x hx⟩, And.left⟩
  | some old =>
    obtain ⟨hold, hk⟩ := (hashFind_eq_some hf hw).mp hfind
    have hb : old ∈ h.bucket (h.findBucket f e) := (findElem_eq_some hf hfind).1
    have hw1 := removeElem_wf hw hb
    have hperm := removeElem_elems hb
    -- what is left has other keys
    have hleft : ∀ x, x ∈ (h.removeElem (h.findBucket f e) old).elems ↔
        x ∈ h.elems ∧ key x ≠ key e := by
      intro x
      have hnodup := (hperm.map key).nodup_iff.mpr hw.keys
      obtain ⟨hnot, -⟩ := nodup_cons.mp hnodup
      constructor
      · intro hx
        refine ⟨hperm.mem_iff.mp (mem_cons_of_mem old hx), fun hxk => hnot ?_⟩
        exact mem_map.mpr ⟨x, hx, hxk.trans hk.symm⟩
      · rintro ⟨hx, hxk⟩
        rcases mem_cons.mp (hperm.mem_iff.mpr hx) with rfl | hx
        · exact absurd hk hxk
        · exact hx
    have hidx : h.findBucket f e = (h.removeElem (h.findBucket f e) old).findBucket f e := by
      simp only [findBucket, removeElem, length_modify]
    show some old = some old ∧ (rehash f memory (insertElem _ (h.findBucket f e) e)).WF f key ∧
      ∀ x, x ∈ (rehash f memory (insertElem _ (h.findBucket f e) e)).elems ↔ _
    generalize h.removeElem (h.findBucket f e) old = h1 at hw1 hleft hidx
    rw [hidx]
    refine ⟨rfl, rehash_wf (insertElem_wf hw1 fun x hx => ((hleft x).mp hx).2) memory, fun x => ?_⟩
    rw [(rehash_elems memory _).mem_iff, (insertElem_elems hw1 e).mem_iff, mem_cons, hleft]

end

theorem hashClear_elems : (hashClear h).2.elems = [] := by
  simp [hashClear, elems]

/-- **Clearing** leaves the buckets, empty. -/
theorem hashClear_wf (hw : h.WF f key) : (hashClear h).2.WF f key where
  pos := by
    show 0 < (h.buckets.map _).length
    rw [length_map]
    exact hw.pos
  placed i e he := by
    have hm : e ∈ (hashClear h).2.elems := mem_elems.mpr ⟨i, he⟩
    rw [hashClear_elems] at hm
    cases hm
  keys := by
    rw [hashClear_elems]
    exact nodup_nil
  count := by
    rw [hashClear_elems]
    rfl

end Hash
end Pintos.Lib
