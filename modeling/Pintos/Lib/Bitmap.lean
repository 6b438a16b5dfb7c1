/-
  Bitmaps (`lib/kernel/bitmap.c`), over elements of 32 bits.

  1. **Two views** — from the inside a bitmap is a list of elements; from the outside it is an array
     of bits, and `b.bit i` is that view.  Every function has one lemma that says what it does to the
     bits, and nothing else is used of them.

  2. **Assertions** — a function whose `ASSERT` fails is `none`.

  3. **Storage** — `bitmap_create` takes memory that is not zeroed, and `bitmap_set_all` writes only
     the bits that count: the bits behind the last one are whatever the memory held.

  4. **Vectors** (`bitmap_refines`) — operations one after another do to the bits what they do to an
     abstract vector, whose first group is what a scan finds.

  Sizes are natural numbers: no caller comes near 2^32 bits.
-/
import Mathlib.Data.List.GetD
import Mathlib.Order.Basic

namespace Pintos.Lib

open List

/-- `DIV_ROUND_UP` (`lib/round.h`). -/
def divRoundUp (x step : Nat) : Nat := (x + step - 1) / step

def elemBits : Nat := 32

def elemIdx (bitIdx : Nat) : Nat := bitIdx / elemBits

def bitMask (bitIdx : Nat) : BitVec 32 := 1#32 <<< (bitIdx % elemBits)

def elemCnt (bitCnt : Nat) : Nat := divRoundUp bitCnt elemBits

def byteCnt (bitCnt : Nat) : Nat := 4 * elemCnt bitCnt

/-- `struct bitmap`, with the elements that `bits` points to. -/
structure Bitmap where
  bitCnt : Nat
  bits : List (BitVec 32)
  length_bits : bits.length = elemCnt bitCnt
  deriving DecidableEq

namespace Bitmap

/-! ## Single bits -/

/-- The element `idx` is changed by `f`. -/
def modify (b : Bitmap) (idx : Nat) (f : BitVec 32 → BitVec 32) : Bitmap where
  bitCnt := b.bitCnt
  bits := b.bits.modify idx f
  length_bits := by rw [length_modify, b.length_bits]

def mark (b : Bitmap) (bitIdx : Nat) : Bitmap := b.modify (elemIdx bitIdx) (· ||| bitMask bitIdx)

def reset (b : Bitmap) (bitIdx : Nat) : Bitmap :=
  b.modify (elemIdx bitIdx) (· &&& ~~~bitMask bitIdx)

def flip (b : Bitmap) (bitIdx : Nat) : Bitmap := b.modify (elemIdx bitIdx) (· ^^^ bitMask bitIdx)

def bit (b : Bitmap) (idx : Nat) : Bool := (b.bits.getD (elemIdx idx) 0 &&& bitMask idx) != 0

def set (b : Bitmap) (idx : Nat) (value : Bool) : Option Bitmap :=
  if idx < b.bitCnt then some (if value then b.mark idx else b.reset idx) else none

def test (b : Bitmap) (idx : Nat) : Option Bool := if idx < b.bitCnt then some (b.bit idx) else none

theorem bit_eq (b : Bitmap) (i : Nat) : b.bit i = (b.bits.getD (i / 32) 0).getLsbD (i % 32) := by
  rw [Bool.eq_iff_iff, bit, bne_iff_ne, bitMask, ← BitVec.twoPow_eq, BitVec.and_twoPow]
  constructor
  · intro h
    by_contra hb
    exact h (if_neg hb)
  · intro hb h
    rw [elemIdx, elemBits, if_pos hb, ← BitVec.toNat_inj, BitVec.toNat_twoPow_of_lt] at h
    · exact Nat.ne_of_gt (Nat.two_pow_pos _) h
    · exact Nat.mod_lt i (by decide)

variable {b : Bitmap} {i k : Nat} {start cnt k : Nat}

theorem bit_modify (hi : i < b.bitCnt) (f : BitVec 32 → BitVec 32) (k : Nat) :
    (b.modify (elemIdx i) f).bit k =
      if k / 32 = i / 32 then (f (b.bits.getD (i / 32) 0)).getLsbD (k % 32) else b.bit k := by
  have hlen : i / 32 < b.bits.length := by
    rw [b.length_bits, elemCnt, divRoundUp, elemBits]
    omega
  rw [bit_eq, bit_eq]
  show ((b.bits.modify (i / 32) f).getD (k / 32) 0).getLsbD (k % 32) = _
  by_cases hk : k / 32 = i / 32
  · rw [if_pos hk, hk, getD_eq_getElem _ _ (by rwa [length_modify]),
      getElem_modify_eq, getD_eq_getElem _ _ hlen]
  · rw [if_neg hk, getD_eq_getElem?_getD, getD_eq_getElem?_getD,
      getElem?_modify_ne _ _ (Ne.symm hk)]

theorem getLsbD_bitMask (j : Nat) : (bitMask i).getLsbD j = decide (j = i % 32) := by
  have hm : i % 32 < 32 := Nat.mod_lt i (by decide)
  simp [bitMask, elemBits, ← BitVec.twoPow_eq, BitVec.getLsbD_twoPow, hm, eq_comm]

/-- A change of the element that concerns one of its bits only. -/
theorem bit_modify_at (hi : i < b.bitCnt) {f : BitVec 32 → BitVec 32} {g : Bool → Bool}
    (hf : ∀ v j, j < 32 →
      (f v).getLsbD j = if j = i % 32 then g (v.getLsbD j) else v.getLsbD j) (k : Nat) :
    (b.modify (elemIdx i) f).bit k = if k = i then g (b.bit k) else b.bit k := by
  rw [bit_modify hi]
  by_cases hk : k / 32 = i / 32
  · have hki : k % 32 = i % 32 ↔ k = i := by omega
    rw [if_pos hk, hf _ _ (Nat.mod_lt k (by decide)), bit_eq, hk]
    simp only [hki]
  · have hki : k ≠ i := by
      rintro rfl
      exact hk rfl
    rw [if_neg hk, if_neg hki]

/-- **Setting a bit** changes that bit only. -/
theorem bit_mark (hi : i < b.bitCnt) (k : Nat) :
    (b.mark i).bit k = if k = i then true else b.bit k := by
  apply bit_modify_at hi (g := fun _ => true)
  intro v j hj
  rw [BitVec.getLsbD_or, getLsbD_bitMask]
  by_cases h : j = i % 32 <;> simp [h]

/-- Setting any bit, even one behind the last, keeps the bits that are set. -/
theorem bit_mark_of_bit (h : b.bit k = true) (i : Nat) : (b.mark i).bit k = true := by
  rw [bit_eq] at h ⊢
  show ((b.bits.modify (i / 32) _).getD (k / 32) 0).getLsbD (k % 32) = true
  by_cases hk : i / 32 = k / 32
  · have hlen : k / 32 < b.bits.length := by
      by_contra hle
      rw [getD_eq_default _ _ (Nat.le_of_not_lt hle)] at h
      simp at h
    rw [getD_eq_getElem _ _ hlen] at h
    rw [hk, getD_eq_getElem _ _ (by rwa [length_modify]), getElem_modify_eq,
      BitVec.getLsbD_or, h, Bool.true_or]
  · rwa [getD_eq_getElem?_getD, getElem?_modify_ne _ _ hk, ← getD_eq_getElem?_getD]

/-- **Resetting a bit** changes that bit only. -/
theorem bit_reset (hi : i < b.bitCnt) (k : Nat) :
    (b.reset i).bit k = if k = i then false else b.bit k := by
  apply bit_modify_at hi (g := fun _ => false)
  intro v j hj
  rw [BitVec.getLsbD_and, BitVec.getLsbD_not, getLsbD_bitMask]
  by_cases h : j = i % 32 <;> simp [h, hj]

theorem bit_flip (hi : i < b.bitCnt) (k : Nat) :
    (b.flip i).bit k = if k = i then !b.bit i else b.bit k := by
  have hflip : (b.flip i).bit k = if k = i then !b.bit k else b.bit k := by
    apply bit_modify_at hi
    intro v j hj
    rw [BitVec.getLsbD_xor, getLsbD_bitMask]
    by_cases h : j = i % 32 <;> simp [h]
  rw [hflip]
  by_cases hk : k = i <;> simp [hk]

/-- The bits of `b'` are those of `b`, but for the ones in `[start, start + cnt)`, which are
    `value`. -/
def Filled (b : Bitmap) (start cnt : Nat) (value : Bool) (b' : Bitmap) : Prop :=
  b'.bitCnt = b.bitCnt ∧
  ∀ k, b'.bit k = if start ≤ k ∧ k < start + cnt then value else b.bit k

theorem filled_one {b' : Bitmap} {x : Bool} (hcnt : b'.bitCnt = b.bitCnt)
    (h : ∀ k, b'.bit k = if k = i then x else b.bit k) : Filled b i 1 x b' := by
  refine ⟨hcnt, fun k => ?_⟩
  have hk : (i ≤ k ∧ k < i + 1) ↔ k = i := by omega
  rw [h, if_congr hk rfl rfl]

theorem set_eq (hi : i < b.bitCnt) (value : Bool) :
    ∃ b', b.set i value = some b' ∧ Filled b i 1 value b' := by
  refine ⟨_, if_pos hi, ?_⟩
  cases value with
  | false => exact filled_one rfl (bit_reset hi)
  | true => exact filled_one rfl (bit_mark hi)

theorem test_eq (hi : i < b.bitCnt) : b.test i = some (b.bit i) := if_pos hi

/-! ## Several bits -/

/-- The loop of `bitmap_set_multiple`, with `cnt` bits to go. -/
def setRange (b : Bitmap) (start : Nat) (value : Bool) : Nat → Option Bitmap
  | 0 => some b
  | cnt + 1 => do
    let b' ← b.set start value
    setRange b' (start + 1) value cnt

def setMultiple (b : Bitmap) (start cnt : Nat) (value : Bool) : Option Bitmap :=
  if start ≤ b.bitCnt ∧ start + cnt ≤ b.bitCnt then b.setRange start value cnt else none

def setAll (b : Bitmap) (value : Bool) : Option Bitmap := b.setMultiple 0 b.bitCnt value

def containsRange (b : Bitmap) (start : Nat) (value : Bool) : Nat → Option Bool
  | 0 => some false
  | cnt + 1 => do
    let bit ← b.test start
    if bit = value then some true else containsRange b (start + 1) value cnt

def contains (b : Bitmap) (start cnt : Nat) (value : Bool) : Option Bool :=
  if start ≤ b.bitCnt ∧ start + cnt ≤ b.bitCnt then b.containsRange start value cnt else none

def all (b : Bitmap) (start cnt : Nat) : Option Bool := (b.contains start cnt false).map (!·)

/-- The loop of `bitmap_scan`, with the indices `[i, i + n)` to go. -/
def scanRange (b : Bitmap) (cnt : Nat) (value : Bool) (i : Nat) : Nat → Option (Option Nat)
  | 0 => some none
  | n + 1 => do
    let found ← b.contains i cnt (!value)
    if found then scanRange b cnt value (i + 1) n else some (some i)

/-- `bitmap_scan`; the inner `none` is `BITMAP_ERROR`. -/
def scan (b : Bitmap) (start cnt : Nat) (value : Bool) : Option (Option Nat) :=
  if start ≤ b.bitCnt then
    if cnt ≤ b.bitCnt then b.scanRange cnt value start (b.bitCnt - cnt + 1 - start) else some none
  else none

def scanAndFlip (b : Bitmap) (start cnt : Nat) (value : Bool) : Option (Option Nat × Bitmap) := do
  let idx ← b.scan start cnt value
  match idx with
  | none => some (none, b)
  | some i =>
    let b' ← b.setMultiple i cnt (!value)
    some (some i, b')

/-- `bitmap_create`, with memory available; `mem` is what the memory of the elements holds. -/
def create (bitCnt : Nat) (mem : Nat → BitVec 32) : Option Bitmap :=
  setAll ⟨bitCnt, (range (elemCnt bitCnt)).map mem, by rw [length_map, length_range]⟩
    false

def bufSize (bitCnt : Nat) : Nat := 8 + byteCnt bitCnt

def createInBuf (bitCnt blockSize : Nat) (mem : Nat → BitVec 32) : Option Bitmap :=
  if bufSize bitCnt ≤ blockSize then create bitCnt mem else none

theorem setRange_eq (value : Bool) : ∀ (cnt : Nat) {b : Bitmap} {start : Nat},
    start + cnt ≤ b.bitCnt → ∃ b', b.setRange start value cnt = some b' ∧ Filled b start cnt value b'
  | 0, b, start, _ => ⟨b, rfl, rfl, fun k => by rw [if_neg (by omega)]⟩
  | cnt + 1, b, start, h => by
    obtain ⟨b1, hset, hcnt, hbit⟩ := set_eq (show start < b.bitCnt by omega) value
    have hrest : start + 1 + cnt ≤ b1.bitCnt := by omega
    obtain ⟨b2, hrest, hcnt2, hbit2⟩ := setRange_eq value cnt hrest
    refine ⟨b2, ?_, hcnt2.trans hcnt, fun k => ?_⟩
    · show (b.set start value).bind _ = some b2
      rwa [hset]
    · grind

/-- **Setting a range** fills it. -/
theorem setMultiple_eq (h : start + cnt ≤ b.bitCnt) (value : Bool) :
    ∃ b', b.setMultiple start cnt value = some b' ∧ Filled b start cnt value b' := by
  rw [setMultiple, if_pos ⟨by omega, h⟩]
  exact setRange_eq value cnt h

theorem create_eq (bitCnt : Nat) (mem : Nat → BitVec 32) :
    ∃ b, create bitCnt mem = some b ∧ b.bitCnt = bitCnt ∧ ∀ k < bitCnt, b.bit k = false := by
  obtain ⟨b, hb, hcnt, hbit⟩ := setMultiple_eq (b := ⟨bitCnt, (range (elemCnt bitCnt)).map mem,
    by rw [length_map, length_range]⟩) (Nat.le_of_eq (Nat.zero_add bitCnt)) false
  refine ⟨b, hb, hcnt, fun k hk => ?_⟩
  rw [hbit, if_pos ⟨Nat.zero_le k, by omega⟩]

theorem containsRange_eq (value : Bool) : ∀ (cnt : Nat) {start : Nat}, start + cnt ≤ b.bitCnt →
    b.containsRange start value cnt = some (decide (∃ j < cnt, b.bit (start + j) = value))
  | 0, start, _ => by simp [containsRange]
  | cnt + 1, start, h => by
    show (b.test start).bind _ = _
    rw [test_eq (by omega)]
    show (if b.bit start = value then _ else _) = _
    by_cases hv : b.bit start = value
    · rw [if_pos hv, decide_eq_true ⟨0, by omega, hv⟩]
    rw [if_neg hv, containsRange_eq value cnt (by omega)]
    congr 1
    rw [decide_eq_decide]
    constructor
    · rintro ⟨j, hj, hb⟩
      exact ⟨j + 1, by omega, by rwa [← Nat.add_assoc, Nat.add_right_comm]⟩
    · rintro ⟨j, hj, hb⟩
      cases j with
      | zero => exact absurd hb hv
      | succ j => exact ⟨j, by omega, by rwa [Nat.add_right_comm, Nat.add_assoc]⟩

theorem contains_eq (h : start + cnt ≤ b.bitCnt) (value : Bool) :
    b.contains start cnt value = some (decide (∃ j < cnt, b.bit (start + j) = value)) := by
  rw [contains, if_pos ⟨by omega, h⟩, containsRange_eq value cnt h]

/-- All the bits in `[i, i + cnt)` have the value. -/
def Group (b : Bitmap) (i cnt : Nat) (value : Bool) : Prop := ∀ j < cnt, b.bit (i + j) = value

variable {value : Bool}

theorem Group.bit_eq (h : Group b i cnt value)
    (h0 : i ≤ k) (h1 : k < i + cnt) : b.bit k = value := by
  have hk := h (k - i) (by omega)
  rwa [Nat.add_sub_cancel' h0] at hk

theorem not_contains_iff : ¬ (∃ j < cnt, b.bit (i + j) = !value) ↔ Group b i cnt value := by
  constructor
  · intro hno j hj
    by_contra hb
    exact hno ⟨j, hj, Bool.eq_not.mpr hb⟩
  · rintro hall ⟨j, hj, hb⟩
    rw [hall j hj] at hb
    cases value <;> cases hb

theorem all_eq (h : start + cnt ≤ b.bitCnt) :
    b.all start cnt = some true ↔ Group b start cnt true := by
  rw [all, contains_eq h, Option.map_some, Option.some_inj, Bool.not_eq_true', decide_eq_false_iff_not,
    ← not_contains_iff]
  rfl

/-- The group that the scan is to find: the first one at or after `start`, if there is one. -/
def Found (b : Bitmap) (start cnt : Nat) (value : Bool) : Option Nat → Prop
  | some i => start ≤ i ∧ i + cnt ≤ b.bitCnt ∧ Group b i cnt value ∧
      ∀ i', start ≤ i' → i' < i → ¬ Group b i' cnt value
  | none => ∀ i, start ≤ i → i + cnt ≤ b.bitCnt → ¬ Group b i cnt value

theorem scanRange_eq (b : Bitmap) (cnt : Nat) (value : Bool) : ∀ (n i : Nat),
    (n = 0 ∨ i + n + cnt = b.bitCnt + 1) →
    ∃ r, b.scanRange cnt value i n = some r ∧ ∀ start, start ≤ i → (n = 0 → b.bitCnt < i + cnt) →
        (∀ i', start ≤ i' → i' < i → ¬ Group b i' cnt value) → Found b start cnt value r
  | 0, i, _ => by
    refine ⟨none, rfl, fun start hs hend hno i' h1 h2 => hno i' h1 ?_⟩
    omega
  | n + 1, i, h => by
    have hi : i + cnt ≤ b.bitCnt := by omega
    by_cases hg : Group b i cnt value
    · refine ⟨some i, ?_, fun start hs _ hno => ⟨hs, hi, hg, hno⟩⟩
      show (b.contains i cnt (!value)).bind _ = _
      rw [contains_eq hi, decide_eq_false (not_contains_iff.mpr hg)]
      rfl
    · obtain ⟨r, hr, hfound⟩ := scanRange_eq b cnt value n (i + 1) (by omega)
      refine ⟨r, ?_, fun start hs _ hno => hfound start (by omega) (by omega) ?_⟩
      · show (b.contains i cnt (!value)).bind _ = _
        rwa [contains_eq hi, decide_eq_true (by by_contra hc; exact hg (not_contains_iff.mp hc))]
      · grind

/-- **The scan** finds the first group, or there is none. -/
theorem scan_eq (hs : start ≤ b.bitCnt) (cnt : Nat) (value : Bool) :
    ∃ r, b.scan start cnt value = some r ∧ Found b start cnt value r := by
  rw [scan, if_pos hs]
  by_cases hc : cnt ≤ b.bitCnt
  · rw [if_pos hc]
    obtain ⟨r, hr, hf⟩ := scanRange_eq b cnt value (b.bitCnt - cnt + 1 - start) start (by omega)
    exact ⟨r, hr, hf start (Nat.le_refl start) (by omega) (fun i' h1 h2 => by omega)⟩
  · rw [if_neg hc]
    exact ⟨none, rfl, fun i _ hi => by omega⟩

/-- **Scan and flip**: the first group is flipped, and no other bit. -/
theorem scanAndFlip_eq (hs : start ≤ b.bitCnt) (cnt : Nat) (value : Bool) :
    (b.scanAndFlip start cnt value = some (none, b) ∧ Found b start cnt value none) ∨
    ∃ i b', b.scanAndFlip start cnt value = some (some i, b') ∧ Found b start cnt value (some i) ∧
      Filled b i cnt (!value) b' := by
  obtain ⟨r, hr, hf⟩ := scan_eq hs cnt value
  cases r with
  | none =>
    refine Or.inl ⟨?_, hf⟩
    show (b.scan start cnt value).bind _ = _
    rw [hr]
    rfl
  | some i =>
    obtain ⟨b', hb', hfill⟩ := setMultiple_eq hf.2.1 (!value)
    refine Or.inr ⟨i, b', ?_, hf, hfill⟩
    show (b.scan start cnt value).bind _ = _
    rw [hr]
    show (b.setMultiple i cnt (!value)).bind _ = _
    rw [hb']
    rfl

/-! ## Operations one after another -/

/-- The operations on a bitmap of `n` bits. -/
inductive Op (n : Nat) where
  | set (idx : Fin n) (value : Bool)
  | mark (bitIdx : Fin n)
  | reset (bitIdx : Fin n)
  | flip (bitIdx : Fin n)
  | setMultiple (start cnt : Nat) (value : Bool) (h : start + cnt ≤ n)
  | scanAndFlip (start cnt : Nat) (value : Bool) (h : start ≤ n)

def Op.run {n : Nat} (b : Bitmap) : Op n → Option Bitmap
  | set idx value => b.set idx value
  | mark bitIdx => some (b.mark bitIdx)
  | reset bitIdx => some (b.reset bitIdx)
  | flip bitIdx => some (b.flip bitIdx)
  | setMultiple start cnt value _ => b.setMultiple start cnt value
  | scanAndFlip start cnt value _ => (b.scanAndFlip start cnt value).map (·.2)

/-- The first `i` at or after `start` such that `cnt` of the `n` bits of `v` from `i` on have the
    value. -/
def firstGroup (n : Nat) (v : Nat → Bool) (start cnt : Nat) (value : Bool) : Option Nat :=
  (range (n + 1)).find? fun i =>
    decide (start ≤ i ∧ i + cnt ≤ n ∧ ∀ j < cnt, v (i + j) = value)

def fill (v : Nat → Bool) (start cnt : Nat) (value : Bool) (k : Nat) : Bool :=
  if start ≤ k ∧ k < start + cnt then value else v k

def flipGroup (n : Nat) (v : Nat → Bool) (start cnt : Nat) (value : Bool) : Nat → Bool :=
  match firstGroup n v start cnt value with
  | none => v
  | some i => fill v i cnt (!value)

/-- The operation on an abstract vector of `n` bits. -/
def Op.onBits {n : Nat} (v : Nat → Bool) : Op n → Nat → Bool
  | set idx value => fill v idx 1 value
  | mark bitIdx => fill v bitIdx 1 true
  | reset bitIdx => fill v bitIdx 1 false
  | flip bitIdx => fill v bitIdx 1 (!v bitIdx)
  | setMultiple start cnt value _ => fill v start cnt value
  | scanAndFlip start cnt value _ => flipGroup n v start cnt value

theorem Found.firstGroup_eq {r : Option Nat} (h : Found b start cnt value r) :
    firstGroup b.bitCnt b.bit start cnt value = r := by
  cases r with
  | none =>
    rw [firstGroup, find?_range_eq_none]
    intro i _
    rw [Bool.not_eq_true', decide_eq_false_iff_not]
    exact fun hi => h i hi.1 hi.2.1 hi.2.2
  | some i =>
    obtain ⟨hs, hi, hg, hleast⟩ := h
    rw [firstGroup, find?_range_eq_some]
    refine ⟨decide_eq_true ⟨hs, hi, hg⟩, mem_range.mpr (by omega), fun k hk => ?_⟩
    rw [Bool.not_eq_true', decide_eq_false_iff_not]
    exact fun hk' => hleast k hk'.1 hk hk'.2.2

theorem scanAndFlip_bits (hs : start ≤ b.bitCnt) (cnt : Nat) (value : Bool) :
    ∃ b', b.scanAndFlip start cnt value = some (firstGroup b.bitCnt b.bit start cnt value, b') ∧
      b'.bitCnt = b.bitCnt ∧ ∀ k, b'.bit k = flipGroup b.bitCnt b.bit start cnt value k := by
  rw [flipGroup]
  rcases scanAndFlip_eq hs cnt value with ⟨heq, hf⟩ | ⟨i, b', heq, hf, hfill⟩
  · rw [hf.firstGroup_eq]
    exact ⟨b, heq, rfl, fun _ => rfl⟩
  · rw [hf.firstGroup_eq]
    exact ⟨b', heq, hfill⟩

/-- **One operation** does to the bits what it does to a vector. -/
theorem run_eq (op : Op b.bitCnt) :
    ∃ b', op.run b = some b' ∧ b'.bitCnt = b.bitCnt ∧ ∀ k, b'.bit k = op.onBits b.bit k := by
  cases op with
  | set idx value => exact set_eq idx.isLt value
  | mark i => exact ⟨_, rfl, filled_one rfl (bit_mark i.isLt)⟩
  | reset i => exact ⟨_, rfl, filled_one rfl (bit_reset i.isLt)⟩
  | flip i => exact ⟨_, rfl, filled_one rfl (bit_flip i.isLt)⟩
  | setMultiple start cnt value h => exact setMultiple_eq h value
  | scanAndFlip start cnt value h =>
    obtain ⟨b', heq, hbits⟩ := scanAndFlip_bits h cnt value
    exact ⟨b', by rw [Op.run, heq]; rfl, hbits⟩

theorem runs_eq {n : Nat} (ops : List (Op n)) (hn : b.bitCnt = n) :
    ∃ b', ops.foldlM Op.run b = some b' ∧ b'.bitCnt = n ∧ b'.bit = ops.foldl Op.onBits b.bit := by
  induction ops generalizing b with
  | nil => exact ⟨b, rfl, hn, rfl⟩
  | cons op ops ih =>
    subst hn
    obtain ⟨b₁, hrun, hcnt, hbit⟩ := run_eq op
    obtain ⟨b₂, hruns, hcnt₂, hbit₂⟩ := ih hcnt
    refine ⟨b₂, ?_, hcnt₂, ?_⟩
    · rw [foldlM_cons, hrun]
      exact hruns
    · rw [hbit₂, funext hbit, foldl_cons]

/-- **A bitmap is a vector of bits**: after any operations, `bitmap_test` gives the bits of the vector
    that they make, `bitmap_scan` finds its first group, and `bitmap_scan_and_flip` flips that. -/
theorem bitmap_refines (b : Bitmap) (ops : List (Op b.bitCnt)) :
    ∃ b' v, ops.foldlM Op.run b = some b' ∧ v = ops.foldl Op.onBits b.bit ∧
      (∀ i < b.bitCnt, b'.test i = some (v i)) ∧
      ∀ start ≤ b.bitCnt, ∀ cnt value,
        b'.scan start cnt value = some (firstGroup b.bitCnt v start cnt value) ∧
        ∃ b'', b'.scanAndFlip start cnt value = some (firstGroup b.bitCnt v start cnt value, b'') ∧
          ∀ i < b.bitCnt, b''.test i = some (flipGroup b.bitCnt v start cnt value i) := by
  obtain ⟨b', hrun, hcnt, hbit⟩ := runs_eq ops rfl
  refine ⟨b', b'.bit, hrun, hbit, ?_⟩
  rw [← hcnt]
  refine ⟨fun i hi => test_eq hi, fun start hs cnt value => ?_⟩
  obtain ⟨r, hscan, hfound⟩ := scan_eq hs cnt value
  obtain ⟨b'', hflip, hcnt', hbit'⟩ := scanAndFlip_bits hs cnt value
  refine ⟨by rw [hscan, hfound.firstGroup_eq], b'', hflip, fun i hi => ?_⟩
  rw [test_eq (by rwa [hcnt']), hbit']

/-! ## Filled from the front -/

/-- The bits below `p` are set, and the others are not. -/
def UpTo (b : Bitmap) (p : Nat) : Prop := p ≤ b.bitCnt ∧ ∀ k < b.bitCnt, b.bit k = decide (k < p)

section

variable {b b' : Bitmap} {p cnt s : Nat}

/-- **First fit** in such a bitmap is the next group. -/
theorem UpTo.found (h : b.UpTo p) (hfound : Found b 0 cnt false (some s))
    (hfill : Filled b s cnt true b') : b'.UpTo (p + cnt) := by
  obtain ⟨-, hle, hgroup, hfirst⟩ := hfound
  by_cases hcnt : cnt = 0
  · subst hcnt
    refine ⟨by rw [hfill.1]; exact h.1, fun k hk => ?_⟩
    rw [hfill.2, if_neg (by omega), h.2 k (by rwa [← hfill.1]), Nat.add_zero]
  · have hfree : b.bit s = false := hgroup 0 (by omega)
    rw [h.2 s (by omega), decide_eq_false_iff_not] at hfree
    have hs : s = p := by
      by_contra hne
      refine hfirst p (Nat.zero_le p) (by omega) fun j hj => ?_
      rw [h.2 (p + j) (by omega), decide_eq_false (by omega)]
    subst hs
    refine ⟨by rwa [hfill.1], fun k hk => ?_⟩
    rw [hfill.2, h.2 k (by rwa [← hfill.1])]
    by_cases hin : s ≤ k ∧ k < s + cnt
    · rw [if_pos hin, decide_eq_true hin.2]
    · rw [if_neg hin, decide_eq_decide]
      omega

theorem UpTo.not_found_none (h : b.UpTo p) (hroom : p + cnt ≤ b.bitCnt) :
    ¬ Found b 0 cnt false none := by
  intro hno
  refine hno p (Nat.zero_le p) hroom fun j hj => ?_
  rw [h.2 (p + j) (by omega), decide_eq_false (by omega)]

/-- The number of bits that are not set. -/
def zeroCnt (b : Bitmap) : Nat := (range b.bitCnt).countP fun k => !b.bit k

theorem UpTo.zeroCnt_eq (h : b.UpTo p) : b.zeroCnt = b.bitCnt - p := by
  have hcount : ∀ n, (range n).countP (fun k => !decide (k < p)) = n - p := by
    intro n
    induction n with
    | zero => simp
    | succ n ih =>
      rw [range_succ, countP_append, ih]
      by_cases hn : n < p
      · simp [hn]
        omega
      · simp [hn]
        omega
  rw [← hcount, zeroCnt]
  refine countP_congr fun k hk => ?_
  rw [h.2 k (mem_range.mp hk)]

end

/-! ## Bytes -/

/-- The byte `k` of the elements, as they stand in memory. -/
def bytes (b : Bitmap) (k : Nat) : BitVec 8 := (b.bits.getD (k / 4) 0).extractLsb' (8 * (k % 4)) 8

/-- The elements, with their memory overwritten by the bytes. -/
def load (b : Bitmap) (f : Nat → BitVec 8) : Bitmap where
  bitCnt := b.bitCnt
  bits := (range (elemCnt b.bitCnt)).map fun j =>
    f (4 * j + 3) ++ f (4 * j + 2) ++ f (4 * j + 1) ++ f (4 * j)
  length_bits := by rw [length_map, length_range]

def lastMask (b : Bitmap) : BitVec 32 :=
  let lastBits := b.bitCnt % elemBits
  if lastBits ≠ 0 then (1#32 <<< lastBits) - 1 else BitVec.allOnes 32

/-- The end of `bitmap_read`: the bits behind the last one are cleared. -/
def maskLast (b : Bitmap) : Bitmap := b.modify (elemCnt b.bitCnt - 1) (· &&& b.lastMask)

theorem bit_bytes (b : Bitmap) (i : Nat) : b.bit i = (b.bytes (i / 8)).getLsbD (i % 8) := by
  have hword : i / 8 / 4 = i / 32 := by omega
  have hbit : 8 * (i / 8 % 4) + i % 8 = i % 32 := by omega
  rw [bit_eq, bytes, BitVec.getLsbD_extractLsb', hword, hbit, decide_eq_true (by omega),
    Bool.true_and]

theorem bit_load (f : Nat → BitVec 8) (hi : i < b.bitCnt) :
    (b.load f).bit i = (f (i / 8)).getLsbD (i % 8) := by
  have hlen : i / 32 < elemCnt b.bitCnt := by
    rw [elemCnt, divRoundUp, elemBits]
    omega
  rw [bit_eq]
  simp only [load]
  rw [getD_eq_getElem _ _ (by rwa [length_map, length_range]), getElem_map, getElem_range]
  -- which of the four bytes it is
  have hcases : i / 8 = 4 * (i / 32) ∨ i / 8 = 4 * (i / 32) + 1 ∨ i / 8 = 4 * (i / 32) + 2 ∨
      i / 8 = 4 * (i / 32) + 3 := by omega
  simp only [BitVec.getLsbD_append]
  rcases hcases with h | h | h | h
  · rw [if_pos (by omega), h, show i % 8 = i % 32 by omega]
  · rw [if_neg (by omega), if_pos (by omega), h, show i % 8 = i % 32 - 8 by omega]
  · rw [if_neg (by omega), if_neg (by omega), if_pos (by omega), h,
      show i % 8 = i % 32 - 8 - 8 by omega]
  · rw [if_neg (by omega), if_neg (by omega), if_neg (by omega), h,
      show i % 8 = i % 32 - 8 - 8 - 8 by omega]

/-- The bits that count are below the mask. -/
theorem getLsbD_lastMask (hi : i < b.bitCnt)
    (hlast : i / 32 = (b.bitCnt - 1) / 32) : b.lastMask.getLsbD (i % 32) = true := by
  have hm : i % 32 < 32 := Nat.mod_lt i (by decide)
  unfold lastMask
  by_cases h0 : b.bitCnt % elemBits = 0
  · rw [if_neg (by rwa [not_not]), BitVec.getLsbD_allOnes]
    exact decide_eq_true hm
  rw [if_pos h0]
  have hlt : b.bitCnt % 32 < 32 := Nat.mod_lt _ (by decide)
  have hle : i % 32 < b.bitCnt % 32 := by
    rw [elemBits] at h0
    omega
  rw [elemBits, ← BitVec.twoPow_eq]
  generalize b.bitCnt % 32 = w at hlt hle ⊢
  generalize i % 32 = j at hle ⊢
  revert hle
  revert j
  revert hlt
  revert w
  decide

/-- The mask clears no bit that counts. -/
theorem bit_maskLast (hi : i < b.bitCnt) : b.maskLast.bit i = b.bit i := by
  have hidx : elemCnt b.bitCnt - 1 = elemIdx (b.bitCnt - 1) := by
    rw [elemCnt, divRoundUp, elemIdx, elemBits]
    omega
  rw [maskLast, hidx, bit_modify (by omega)]
  by_cases hlast : i / 32 = (b.bitCnt - 1) / 32
  · rw [if_pos hlast, BitVec.getLsbD_and, getLsbD_lastMask hi hlast, Bool.and_true, ← hlast, bit_eq]
  · rw [if_neg hlast]

end Bitmap
end Pintos.Lib
