/-
  Formatted output of integers (`format_integer` and `snprintf` of `lib/stdio.c`), and `strlcpy`
  (`lib/string.c`).

  1. **Digits** come out of the loop in reverse: they are the digits that Mathlib's `Nat.digits`
     gives (`digitLoop_eq`).

  2. **Zero padding** (`formatOctal_eq`) — a value below `8 ^ w` printed with `%0<w>o` is its octal
     digits behind enough zeros to make `w` characters.

  3. **Into a field** — `snprintf` and `strlcpy` both write what fits of a string, and a NUL.

  A string that is written here is the list of its characters, without the NUL.
-/
import Mathlib.Data.Nat.Digits.Lemmas
import Pintos.Base.Bytes

namespace Pintos.Lib

open Base List

abbrev CChar := BitVec 8

def ascii (c : Char) : CChar := BitVec.ofNat 8 c.toNat

/-! ## `format_integer` -/

/-- `struct printf_conversion`: its flags, field width and precision. -/
structure PrintfConversion where
  minus : Bool := false
  plus : Bool := false
  space : Bool := false
  pound : Bool := false
  zero : Bool := false
  group : Bool := false
  width : Int
  precision : Int

structure IntegerBase where
  base : Nat
  digits : List CChar
  /-- The `x` character to use, or 0. -/
  x : CChar
  group : Nat

def baseO : IntegerBase :=
  { base := 8, digits := ['0', '1', '2', '3', '4', '5', '6', '7'].map ascii, x := 0, group := 3 }

/-- The loop over the digits of `value`, for at most `n` turns; `cnt` digits are already out. -/
def digitLoop (b : IntegerBase) (group : Bool) : Nat → Nat → Nat → List CChar
  | 0, _, _ => []
  | n + 1, value, cnt =>
    if 0 < value then
      (if group ∧ 0 < cnt ∧ cnt % b.group = 0 then [ascii ','] else []) ++
        b.digits.getD (value % b.base) 0 :: digitLoop b group n (value / b.base) (cnt + 1)
    else []

/-- The sign character, or 0. -/
def signChar (isSigned negative : Bool) (c : PrintfConversion) : CChar :=
  if isSigned then
    if c.plus then if negative then ascii '-' else ascii '+'
    else if c.space then if negative then ascii '-' else ascii ' '
    else if negative then ascii '-'
    else 0
  else 0

/-- The buffer when the digits and the zeros for the precision are in it: the last character first.
    A `uintmax_t` has at most 64 digits in any base. -/
def digitBuffer (value : Nat) (b : IntegerBase) (c : PrintfConversion) : List CChar :=
  let digits := digitLoop b c.group 64 value 0
  let precision := if c.precision < 0 then 1 else c.precision.toNat
  let buf := digits ++ replicate (min precision 63 - digits.length) (ascii '0')
  if c.pound ∧ b.base = 8 ∧ buf.getLast? ≠ some (ascii '0') then buf ++ [ascii '0'] else buf

/-- `format_integer`: what it outputs. -/
def formatInteger (value : Nat) (isSigned negative : Bool) (b : IntegerBase)
    (c : PrintfConversion) : List CChar :=
  let sign := signChar isSigned negative c
  let x := if c.pound ∧ value ≠ 0 then b.x else 0
  let buf := digitBuffer value b c
  let padCnt := (c.width - buf.length - (if x ≠ 0 then 2 else 0) -
    (if sign ≠ 0 then 1 else 0)).toNat
  (if c.minus ∨ c.zero then [] else replicate padCnt (ascii ' ')) ++
    (if sign ≠ 0 then [sign] else []) ++
    (if x ≠ 0 then [ascii '0', x] else []) ++
    (if c.zero then replicate padCnt (ascii '0') else []) ++
    buf.reverse ++
    (if c.minus then replicate padCnt (ascii ' ') else [])

/-- What `parse_conversion` makes of the flag `0` and the field width `w`. -/
def zeroPadded (w : Nat) : PrintfConversion := { zero := true, width := w, precision := -1 }

/-- What the conversion `%0<w>o` prints for an `unsigned`. -/
def formatOctal (w value : Nat) : List CChar := formatInteger value false false baseO (zeroPadded w)

/-! ## Digits -/

theorem digitLoop_eq (b : IntegerBase) (hb : 1 < b.base) :
    ∀ (n value cnt : Nat), value < b.base ^ n →
      digitLoop b false n value cnt = (Nat.digits b.base value).map fun d => b.digits.getD d 0
  | 0, value, cnt, h => by
    have hv : value = 0 := by simpa using h
    simp [hv, digitLoop]
  | n + 1, value, cnt, h => by
    by_cases hv : 0 < value
    · have hlt : value / b.base < b.base ^ n :=
        Nat.div_lt_of_lt_mul (by rwa [pow_succ, mul_comm] at h)
      rw [digitLoop, if_pos hv, Nat.digits_def' hb hv, digitLoop_eq b hb n _ _ hlt]
      simp
    · have hv0 : value = 0 := by omega
      simp [hv0, digitLoop]

def octalDigit (d : Nat) : CChar := BitVec.ofNat 8 (48 + d)

theorem baseO_digit {d : Nat} (h : d < 8) : baseO.digits.getD d 0 = octalDigit d := by
  interval_cases d <;> rfl

theorem octalDigits_eq (value : Nat) (h : value < 8 ^ 64) (cnt : Nat) :
    digitLoop baseO false 64 value cnt = (Nat.digits 8 value).map octalDigit := by
  rw [digitLoop_eq baseO (by decide) 64 value cnt h]
  exact map_congr_left fun d hd => baseO_digit (Nat.digits_lt_base (by decide) hd)

/-- **Zero padding.** -/
theorem formatOctal_eq {w value : Nat} (hw : 0 < w) (hmax : w ≤ 64) (h : value < 8 ^ w) :
    formatOctal w value =
      (replicate (w - (Nat.digits 8 value).length) 0 ++ (Nat.digits 8 value).reverse).map
        octalDigit := by
  have hlen : (Nat.digits 8 value).length ≤ w := (Nat.digits_length_le_iff (by decide) value).mpr h
  have hbig : value < 8 ^ 64 := lt_of_lt_of_le h (Nat.pow_le_pow_right (by decide) hmax)
  have hzero : octalDigit 0 = ascii '0' := rfl
  have hbuf : digitBuffer value baseO (zeroPadded w) = (Nat.digits 8 value).map octalDigit ++
      replicate (1 - (Nat.digits 8 value).length) (ascii '0') := by
    simp [digitBuffer, zeroPadded, octalDigits_eq value hbig]
  simp only [formatOctal, formatInteger, hbuf]
  simp only [zeroPadded, signChar, map_append, map_replicate, map_reverse, hzero,
    reverse_append, reverse_replicate, length_append, length_map,
    length_replicate]
  simp only [Bool.false_eq_true, false_and, or_true, if_true, if_false, ne_eq, not_true_eq_false,
    nil_append, append_nil, sub_zero]
  -- the zeros of the field width, and the one that the precision asks for when there is no digit
  rw [← append_assoc, ← replicate_add]
  congr 2
  omega

theorem length_formatOctal {w value : Nat} (hw : 0 < w) (hmax : w ≤ 64) (h : value < 8 ^ w) :
    (formatOctal w value).length = w := by
  have hlen : (Nat.digits 8 value).length ≤ w := (Nat.digits_length_le_iff (by decide) value).mpr h
  rw [formatOctal_eq hw hmax h]
  simp only [length_map, length_append, length_replicate, length_reverse]
  omega

/-! ## Strings into a field -/

/-- `strlcpy`, into the `size` bytes of `f` from `a` on. -/
def strlcpy (f : Nat → CChar) (a size : Nat) (src : List CChar) : Nat → CChar :=
  if 0 < size then put f a (src.take (size - 1) ++ [0]) else f

/-- `snprintf`, into the `size` bytes of `f` from `a` on, with `output` printed. -/
def snprintf (f : Nat → CChar) (a size : Nat) (output : List CChar) : Nat → CChar :=
  if 0 < size then put f a (output.take (size - 1) ++ [0]) else f

section

variable {f g : Nat → CChar} {a size k : Nat} {s : List CChar}

theorem strlcpy_of_not_mem (h : k < a ∨ a + size ≤ k) : strlcpy f a size s k = f k := by
  rw [strlcpy]
  split
  · refine put_of_not_mem ?_
    simp only [length_append, length_take, length_singleton]
    omega
  · rfl

theorem snprintf_of_not_mem (h : k < a ∨ a + size ≤ k) : snprintf f a size s k = f k :=
  strlcpy_of_not_mem h

/-- **A string that fits** is read back, with its NUL; only the bytes that it takes count. -/
theorem window_strlcpy (h : s.length < size)
    (hg : ∀ k < s.length + 1, g (a + k) = strlcpy f a size s (a + k)) :
    window g a (s.length + 1) = s ++ [0] := by
  have hput : strlcpy f a size s = put f a (s ++ [0]) := by
    rw [strlcpy, if_pos (by omega), take_of_length_le (by omega)]
  have hlen : s.length + 1 = (s ++ [0]).length := by simp
  rw [window_congr hg, hput, hlen, window_put]

theorem window_formatOctal {w value : Nat} (hw : 0 < w) (hmax : w ≤ 64) (h : value < 8 ^ w)
    (hg : ∀ k < w + 1, g (a + k) = snprintf f a (w + 1) (formatOctal w value) (a + k)) :
    window g a (w + 1) = formatOctal w value ++ [0] := by
  have hlen := length_formatOctal hw hmax h
  have hfield := window_strlcpy (s := formatOctal w value) (f := f) (g := g) (a := a)
    (show _ < w + 1 by omega) (by rwa [hlen])
  rwa [hlen] at hfield

/-- The last byte of a field is zero if it was. -/
theorem strlcpy_last (hf : f k = 0) (h : s.length + a ≤ k) : strlcpy f a size s k = 0 := by
  rw [strlcpy]
  split
  · by_cases hk : k = a + (s.take (size - 1)).length
    · rw [hk, put_of_mem (by simp)]
      simp
    · rw [put_of_not_mem, hf]
      simp only [length_append, length_take, length_singleton] at hk ⊢
      omega
  · exact hf

end
end Pintos.Lib
