/-
  Headers of `ustar` archives (`lib/ustar.c`).

  1. **Layout** — a header is 512 bytes; a field is known by its offset and its size.

  2. **Names** — `strip_antisocial_prefixes` drops leading `/`, `./` and `../`, again and again.  What
     it returns it leaves alone (`strip_strip`), so a name that was stripped when the header was
     made is the name that the reader finds.

  3. **Octal fields** (`parseOctalField_format`) — what `snprintf` prints with `%0<w>o`, the reader
     takes for the same number, provided that number is below 2^32.

  4. **The checksum** is taken as if its own field held spaces, so writing the field does not change
     it (`calculateChksum_congr`), and it is small enough for the seven digits it gets.

  5. **Round trip** (`ustar_round_trip`).
-/
import Mathlib.Algebra.Order.BigOperators.Group.List
import Pintos.Base.Stops
import Pintos.Lib.Stdio

namespace Pintos.Lib

open Base List Function

/-! ## The header -/

def ustarHeaderSize : Nat := 512

inductive UstarType
  | regular
  | directory
  | eof
  deriving DecidableEq

/-- The type as the `typeflag` of a header. -/
def UstarType.flag : UstarType → CChar
  | .regular => ascii '0'
  | .directory => ascii '5'
  | .eof => -1

inductive UstarStop
  | assertion
  deriving DecidableEq

def calculateChksum (h : Nat → CChar) : Nat := ((range ustarHeaderSize).map fun i =>
    if 148 ≤ i ∧ i < 156 then (ascii ' ').toNat else (h i).toNat).sum

/-! ## Names -/

/-- Whether the name starts with `/`, `./` or `../`. -/
def isAntisocial (name : List CChar) : Bool :=
  name.head? == some (ascii '/') || name.take 2 == ['.', '/'].map ascii ||
    name.take 3 == ['.', '.', '/'].map ascii

/-- `strchr (name, '/') + 1`. -/
def pastSlash (name : List CChar) : List CChar := (name.dropWhile (· != ascii '/')).tail

/-- The loop of `strip_antisocial_prefixes`, for at most `n` turns. -/
def stripLoop : Nat → List CChar → List CChar
  | 0, name => name
  | n + 1, name => if isAntisocial name then stripLoop n (pastSlash name) else name

/-- `strip_antisocial_prefixes`.  Each turn of its loop drops a character at least. -/
def stripAntisocialPrefixes (name : List CChar) : List CChar :=
  let name := stripLoop name.length name
  if name = [] ∨ name = ['.', '.'].map ascii then [ascii '.'] else name

/-! ## Making a header -/

/-- The header, before the checksum is in it. -/
def headerWithoutChksum (name : List CChar) (type : UstarType) (size : Int) : Nat → CChar :=
  let h := fun _ => 0
  let h := strlcpy h 0 100 name
  let h := snprintf h 100 8 (formatOctal 7 (if type = .regular then 0o644 else 0o755))
  let h := strlcpy h 108 8 (replicate 7 (ascii '0'))
  let h := strlcpy h 116 8 (replicate 7 (ascii '0'))
  let h := snprintf h 124 12 (formatOctal 11 (size % 4294967296).toNat)
  let h := snprintf h 136 12 (formatOctal 11 1136102400)
  let h := put h 156 [type.flag]
  let h := strlcpy h 257 6 (['u', 's', 't', 'a', 'r'].map ascii)
  let h := put (put h 264 [ascii '0']) 263 [ascii '0']
  let h := strlcpy h 297 32 (['r', 'o', 'o', 't'].map ascii)
  strlcpy h 265 32 (['r', 'o', 'o', 't'].map ascii)

/-- `ustar_make_header`: the header, or nothing if the name is too long. -/
def ustarMakeHeader (name : List CChar) (type : UstarType) (size : Int) :
    Except UstarStop (Option (Nat → CChar)) :=
  if type = .regular ∨ type = .directory then
    let name := stripAntisocialPrefixes name
    if 99 < name.length then .ok none
    else
      let h := headerWithoutChksum name type size
      .ok (some (snprintf h 148 8 (formatOctal 7 (calculateChksum h))))
  else .error .assertion

/-! ## Parsing a header -/

/-- The loop of `parse_octal_field` over the rest of the field. -/
def octalLoop : List CChar → Nat → Nat → Option Nat
  | [], _, _ => none
  | c :: cs, ofs, value =>
    if 48 ≤ c.toNat ∧ c.toNat ≤ 55 then
      if 4294967295 / 8 < value then none
      else octalLoop cs (ofs + 1) (c.toNat - 48 + value * 8)
    else if c = ascii ' ' ∨ c = 0 then if 0 < ofs then some value else none
    else none

/-- `parse_octal_field`, on the field of `size` bytes from `a` on. -/
def parseOctalField (h : Nat → CChar) (a size : Nat) : Option Nat := octalLoop (window h a size) 0 0

/-- What a header says: the name (absent at the end of the archive), the type and the size. -/
structure UstarEntry where
  fileName : Option (List CChar)
  type : UstarType
  size : Int
  deriving DecidableEq

/-- The size that the header `h` of an entry gives. -/
def parseSize (h : Nat → CChar) : Except String Int :=
  if h 156 = UstarType.regular.flag then
    match parseOctalField h 124 12 with
    | none => .error "corrupt file size field"
    | some size => if 2147483647 < size then .error "file too large" else .ok size
  else .ok 0

/-- `ustar_parse_header`: what the header says, or a message. -/
def ustarParseHeader (h : Nat → CChar) : Except String UstarEntry :=
  if (window h 0 ustarHeaderSize).all (· == 0) then
    .ok { fileName := none, type := .eof, size := 0 }
  else if window h 257 6 ≠ ['u', 's', 't', 'a', 'r'].map ascii ++ [0] then
    .error "not a ustar archive"
  else if h 263 ≠ ascii '0' ∨ h 264 ≠ ascii '0' then .error "invalid ustar version"
  else
    match parseOctalField h 148 8 with
    | none => .error "corrupt chksum field"
    | some chksum =>
      if chksum ≠ calculateChksum h then .error "checksum mismatch"
      else if h 99 ≠ 0 ∨ h 345 ≠ 0 then .error "file name too long"
      else if h 156 ≠ UstarType.regular.flag ∧ h 156 ≠ UstarType.directory.flag then
        .error "unimplemented file type"
      else do
        let size ← parseSize h
        .ok { fileName := some (stripAntisocialPrefixes (cString (window h 0 100)))
              type := if h 156 = UstarType.regular.flag then .regular else .directory
              size := size }

theorem ustarParseHeader_congr {h h' : Nat → CChar} (heq : ∀ i < ustarHeaderSize, h i = h' i) :
    ustarParseHeader h = ustarParseHeader h' := by
  have hwindow : ∀ a n, a + n ≤ ustarHeaderSize → window h a n = window h' a n :=
    fun a n hle => window_congr fun k hk => heq _ (by omega)
  have hfield : ∀ a n, a + n ≤ ustarHeaderSize → parseOctalField h a n = parseOctalField h' a n :=
    fun a n hle => by rw [parseOctalField, parseOctalField, hwindow a n hle]
  have hchksum : calculateChksum h = calculateChksum h' :=
    congrArg sum (map_congr_left fun i hi => by rw [heq i (mem_range.mp hi)])
  unfold ustarParseHeader parseSize
  rw [hwindow 0 ustarHeaderSize (by decide), hwindow 257 6 (by decide), hwindow 0 100 (by decide),
    hfield 148 8 (by decide), hfield 124 12 (by decide), hchksum, heq 263 (by decide),
    heq 264 (by decide), heq 99 (by decide), heq 345 (by decide), heq 156 (by decide)]

variable {h : Nat → CChar} {name : List CChar}

theorem ustarParseHeader_zero (h0 : ∀ i < ustarHeaderSize, h i = 0) :
    ustarParseHeader h = .ok { fileName := none, type := .eof, size := 0 } := by
  rw [ustarParseHeader, if_pos]
  rw [all_eq_true]
  intro c hc
  obtain ⟨i, hi, rfl⟩ := mem_map.mp hc
  rw [zero_add, h0 i (mem_range.mp hi)]
  rfl

/-- Something else than zeros, without the magic. -/
theorem ustarParseHeader_no_magic {i : Nat} (hi : i < ustarHeaderSize)
    (hne : h i ≠ 0) (h0 : h 257 = 0) : ustarParseHeader h = .error "not a ustar archive" := by
  rw [ustarParseHeader, if_neg, if_pos]
  · intro hmagic
    have hhead : (window h 257 6).head? = some (h 257) := rfl
    rw [hmagic, h0] at hhead
    cases hhead
  · rw [all_eq_true]
    intro hall
    refine hne (eq_of_beq (hall (h i) (mem_map.mpr ⟨i, mem_range.mpr hi, ?_⟩)))
    rw [zero_add]

/-! ## Stripping -/

theorem isAntisocial_cases (h : isAntisocial name = true) :
    ∃ p rest, name = p ++ rest ∧ pastSlash name = rest ∧ p ≠ [] := by
  simp only [isAntisocial, Bool.or_eq_true, beq_iff_eq] at h
  rcases h with (h | h) | h
  · obtain ⟨rest, rfl⟩ := head?_eq_some_iff.mp h
    exact ⟨[ascii '/'], rest, rfl, by simp [pastSlash], by simp⟩
  · have hname := take_append_drop 2 name
    rw [h] at hname
    exact ⟨_, name.drop 2, hname.symm, by rw [← hname]; simp [pastSlash]; rfl, by simp⟩
  · have hname := take_append_drop 3 name
    rw [h] at hname
    exact ⟨_, name.drop 3, hname.symm, by rw [← hname]; simp [pastSlash]; rfl, by simp⟩

/-- **The loop ends** with a suffix of the name that has none of the prefixes. -/
theorem stripLoop_spec : ∀ (n : Nat) (name : List CChar), name.length ≤ n →
    isAntisocial (stripLoop n name) = false ∧ stripLoop n name <:+ name
  | 0, name, h => by
    have hnil : name = [] := length_eq_zero_iff.mp (by omega)
    subst hnil
    exact ⟨rfl, suffix_refl _⟩
  | n + 1, name, h => by
    by_cases ha : isAntisocial name = true
    · obtain ⟨p, rest, hname, hpast, hp⟩ := isAntisocial_cases ha
      have hlen : name.length = p.length + rest.length := by rw [hname, length_append]
      have hpos : 0 < p.length := length_pos_iff.mpr hp
      obtain ⟨hfree, hsuf⟩ := stripLoop_spec n rest (by omega)
      rw [stripLoop, if_pos ha, hpast]
      exact ⟨hfree, hsuf.trans ⟨p, hname.symm⟩⟩
    · rw [stripLoop, if_neg ha]
      exact ⟨by simpa using ha, suffix_refl _⟩

theorem stripLoop_of_not (h : isAntisocial name = false) (n : Nat) : stripLoop n name = name := by
  cases n with
  | zero => rfl
  | succ => rw [stripLoop, if_neg (by simp [h])]

theorem strip_of_not (h : isAntisocial name = false) (hnil : name ≠ [])
    (hdots : name ≠ ['.', '.'].map ascii) : stripAntisocialPrefixes name = name := by
  rw [stripAntisocialPrefixes, stripLoop_of_not h, if_neg (not_or.mpr ⟨hnil, hdots⟩)]

theorem slash_of_antisocial (h : isAntisocial name = true) : ascii '/' ∈ name := by
  simp only [isAntisocial, Bool.or_eq_true, beq_iff_eq] at h
  rcases h with (h | h) | h
  · exact mem_of_mem_head? h
  · exact mem_of_mem_take (i := 2) (by rw [h]; decide)
  · exact mem_of_mem_take (i := 3) (by rw [h]; decide)

/-- A stripped name has none of the prefixes, and is neither empty nor `..`. -/
theorem strip_spec (name : List CChar) :
    isAntisocial (stripAntisocialPrefixes name) = false ∧ stripAntisocialPrefixes name ≠ [] ∧
      stripAntisocialPrefixes name ≠ ['.', '.'].map ascii := by
  simp only [stripAntisocialPrefixes]
  split
  · decide
  · next h =>
    rw [not_or] at h
    exact ⟨(stripLoop_spec _ name le_rfl).1, h.1, h.2⟩

/-- **Stripping again changes nothing.** -/
theorem strip_strip (name : List CChar) :
    stripAntisocialPrefixes (stripAntisocialPrefixes name) = stripAntisocialPrefixes name := by
  obtain ⟨hfree, hnil, hdots⟩ := strip_spec name
  generalize stripAntisocialPrefixes name = s at hfree hnil hdots ⊢
  exact strip_of_not hfree hnil hdots

theorem strip_nonzero (h : 0 ∉ name) : 0 ∉ stripAntisocialPrefixes name := by
  rw [stripAntisocialPrefixes]
  split
  · decide
  · intro h0
    exact h ((stripLoop_spec _ name le_rfl).2.subset h0)

/-! ## Octal fields -/

theorem octalDigit_toNat {d : Nat} (h : d < 8) : (octalDigit d).toNat = 48 + d := by
  rw [octalDigit, BitVec.toNat_ofNat]
  omega

/-- The value of digits read from the left. -/
def octalValue (ds : List Nat) (value : Nat) : Nat := ds.foldl (fun v d => d + v * 8) value

theorem le_octalValue : ∀ (ds : List Nat) (value : Nat), value ≤ octalValue ds value
  | [], _ => le_rfl
  | d :: ds, value => by
    have hrest := le_octalValue ds (d + value * 8)
    rw [octalValue, foldl_cons, ← octalValue]
    omega

theorem octalLoop_digits : ∀ (ds : List Nat) (ofs value : Nat) (rest : List CChar),
    (∀ d ∈ ds, d < 8) → 0 < ofs + ds.length → octalValue ds value < 4294967296 →
      octalLoop (ds.map octalDigit ++ 0 :: rest) ofs value = some (octalValue ds value)
  | [], ofs, value, rest, _, hofs, _ => by
    have h0 : 0 < ofs := by simpa using hofs
    simp [octalLoop, octalValue, h0]
  | d :: ds, ofs, value, rest, hds, hofs, hmax => by
    have hd : d < 8 := hds d mem_cons_self
    have hle := le_octalValue ds (d + value * 8)
    have hval : octalValue (d :: ds) value = octalValue ds (d + value * 8) := rfl
    rw [map_cons, cons_append, octalLoop, octalDigit_toNat hd, if_pos (by omega),
      if_neg (by omega), Nat.add_sub_cancel_left]
    exact octalLoop_digits ds (ofs + 1) _ rest
      (fun x hx => hds x (mem_cons_of_mem _ hx)) (by omega) hmax

theorem octalValue_padded (n value : Nat) :
    octalValue (replicate n 0 ++ (Nat.digits 8 value).reverse) 0 = value := by
  have hzeros : (replicate n 0).foldl (fun v d => d + v * 8) 0 = 0 := by
    induction n with
    | zero => rfl
    | succ n ih =>
      rw [replicate_succ, foldl_cons]
      exact ih
  rw [octalValue, foldl_append, hzeros, foldl_reverse]
  calc (Nat.digits 8 value).foldr (fun d v => d + v * 8) 0
      = (Nat.digits 8 value).foldr (fun d v => d + 8 * v) 0 := by simp only [mul_comm]
    _ = Nat.ofDigits 8 (Nat.digits 8 value) := (Nat.ofDigits_eq_foldr 8 _).symm
    _ = value := Nat.ofDigits_digits 8 value

/-- **What is printed is parsed.** -/
theorem parseOctalField_format {a w value : Nat} (hw : 0 < w) (hmax : w ≤ 64)
    (hfits : value < 8 ^ w) (hval : value < 4294967296)
    (hfield : window h a (w + 1) = formatOctal w value ++ [0]) :
    parseOctalField h a (w + 1) = some value := by
  rw [parseOctalField, hfield, formatOctal_eq hw hmax hfits]
  have hlen : (Nat.digits 8 value).length ≤ w :=
    (Nat.digits_length_le_iff (by decide) value).mpr hfits
  have hparse := octalLoop_digits
    (replicate (w - (Nat.digits 8 value).length) 0 ++ (Nat.digits 8 value).reverse) 0 0 []
  rw [octalValue_padded] at hparse
  refine hparse ?_ ?_ hval
  · intro d hd
    rcases mem_append.mp hd with hd | hd
    · rw [eq_of_mem_replicate hd]
      decide
    · exact Nat.digits_lt_base (by decide) (mem_reverse.mp hd)
  · simp only [length_append, length_replicate, length_reverse]
    omega

/-! ## The checksum -/

theorem calculateChksum_congr {h' : Nat → CChar}
    (heq : ∀ i, i < 148 ∨ 156 ≤ i → h i = h' i) : calculateChksum h = calculateChksum h' := by
  refine congrArg sum (map_congr_left fun i _ => ?_)
  by_cases hi : 148 ≤ i ∧ i < 156
  · rw [if_pos hi, if_pos hi]
  · rw [if_neg hi, if_neg hi, heq i (by omega)]

/-- The sum of 512 bytes has at most six octal digits. -/
theorem calculateChksum_lt (h : Nat → CChar) : calculateChksum h < 8 ^ 6 := by
  have hsum := sum_le_card_nsmul ((range ustarHeaderSize).map fun i =>
    if 148 ≤ i ∧ i < 156 then (ascii ' ').toNat else (h i).toNat) 255 (by
      intro x hx
      obtain ⟨i, -, rfl⟩ := mem_map.mp hx
      split
      · decide
      · omega)
  rw [length_map, length_range, ← calculateChksum] at hsum
  have hbound : ustarHeaderSize • 255 < 8 ^ 6 := by decide
  omega

/-! ## The fields of a header -/

section

variable {type : UstarType} {size : Int}

/-- The header that `ustar_make_header` makes for a name that is not too long. -/
def madeHeader (name : List CChar) (type : UstarType) (size : Int) : Nat → CChar :=
  snprintf (headerWithoutChksum name type size) 148 8
    (formatOctal 7 (calculateChksum (headerWithoutChksum name type size)))

theorem ustarMakeHeader_eq (ht : type = .regular ∨ type = .directory) :
    ustarMakeHeader name type size = .ok (if 99 < (stripAntisocialPrefixes name).length then none
        else some (madeHeader (stripAntisocialPrefixes name) type size)) := by
  rw [ustarMakeHeader, if_pos ht]
  by_cases hlong : 99 < (stripAntisocialPrefixes name).length
  · simp only [if_pos hlong]
  · simp only [if_neg hlong, madeHeader]

-- A byte of the header is looked up in the fields, from the last that was written to the first.
attribute [local simp] madeHeader headerWithoutChksum strlcpy_of_not_mem snprintf_of_not_mem
  put_singleton_of_ne put_singleton

theorem madeHeader_name (hname : name.length ≤ 99) :
    window (madeHeader name type size) 0 (name.length + 1) = name ++ [0] := by
  refine window_strlcpy (f := fun _ => 0) (show name.length < 100 by omega) fun k hk => ?_
  simp (disch := omega)

theorem madeHeader_cString (h0 : 0 ∉ name) (hname : name.length ≤ 99) :
    cString (window (madeHeader name type size) 0 100) = name := by
  have hsplit : window (madeHeader name type size) 0 100 = name ++ 0 ::
      window (madeHeader name type size) (0 + (name.length + 1)) (99 - name.length) := by
    rw [show 100 = (name.length + 1) + (99 - name.length) by omega, window_add,
      madeHeader_name hname, append_assoc, singleton_append]
  rw [hsplit, cString_append h0]

/-- The last byte of the name, and the prefix. -/
theorem madeHeader_zero (hname : name.length ≤ 99) :
    madeHeader name type size 99 = 0 ∧ madeHeader name type size 345 = 0 := by
  constructor
  · simp (disch := omega)
    exact strlcpy_last rfl hname
  · simp (disch := omega)

theorem madeHeader_size (h0 : 0 ≤ size) (hmax : size ≤ 2147483647) :
    window (madeHeader name type size) 124 12 = formatOctal 11 size.toNat ++ [0] := by
  have hmod : (size % 4294967296).toNat = size.toNat := by omega
  have hfits : size.toNat < 8 ^ 11 := by omega
  refine window_formatOctal (f := ?_) (by decide) (by decide) hfits fun k hk => ?_
  swap
  simp (disch := omega) [hmod]
  rfl

theorem madeHeader_chksum :
    window (madeHeader name type size) 148 8 =
      formatOctal 7 (calculateChksum (madeHeader name type size)) ++ [0] := by
  have hsame : calculateChksum (headerWithoutChksum name type size) =
      calculateChksum (madeHeader name type size) :=
    calculateChksum_congr fun i hi => (snprintf_of_not_mem (by omega)).symm
  have hfits := calculateChksum_lt (headerWithoutChksum name type size)
  rw [← hsame]
  exact window_formatOctal (by decide) (by decide) (by omega) fun _ _ => rfl

theorem parse_chksum : parseOctalField (madeHeader name type size) 148 8 =
    some (calculateChksum (madeHeader name type size)) := by
  have hlt := calculateChksum_lt (madeHeader name type size)
  exact parseOctalField_format (by decide) (by decide) (by omega) (by omega) madeHeader_chksum

theorem madeHeader_magic :
    window (madeHeader name type size) 257 6 = ['u', 's', 't', 'a', 'r'].map ascii ++ [0] := by
  have hlen : (['u', 's', 't', 'a', 'r'].map ascii).length < 6 := by decide
  refine window_strlcpy (f := ?_) hlen fun k hk => ?_
  swap
  simp (disch := omega)
  rfl

theorem madeHeader_version :
    madeHeader name type size 263 = ascii '0' ∧ madeHeader name type size 264 = ascii '0' := by
  constructor <;> simp (disch := omega)

theorem madeHeader_flag : madeHeader name type size 156 = type.flag := by
  simp (disch := omega)

/-- A header is not all zeros: its magic is not. -/
theorem madeHeader_not_zero :
    (window (madeHeader name type size) 0 ustarHeaderSize).all (· == 0) = false := by
  rw [all_eq_false]
  refine ⟨madeHeader name type size 263, ?_, ?_⟩
  · exact mem_map.mpr ⟨263, mem_range.mpr (by decide), by rw [zero_add]⟩
  · rw [madeHeader_version.1]
    decide

/-- **The header is read as it was meant.** -/
theorem parse_madeHeader (h0 : 0 ∉ name) (hname : name.length ≤ 99)
    (hstrip : stripAntisocialPrefixes name = name)
    (ht : type = .regular ∨ type = .directory) (hs : 0 ≤ size ∧ size ≤ 2147483647) :
    ustarParseHeader (madeHeader name type size) =
      .ok { fileName := some name, type := type, size := if type = .regular then size else 0 } := by
  have hsize : parseOctalField (madeHeader name type size) 124 12 = some size.toNat :=
    parseOctalField_format (by decide) (by decide) (by omega) (by omega)
      (madeHeader_size hs.1 hs.2)
  have hversion : madeHeader name type size 263 = ascii '0' ∧
      madeHeader name type size 264 = ascii '0' := madeHeader_version
  have hzero : madeHeader name type size 99 = 0 ∧ madeHeader name type size 345 = 0 :=
    madeHeader_zero hname
  have hcast : (size.toNat : Int) = size := Int.toNat_of_nonneg hs.1
  rw [ustarParseHeader, if_neg (by rw [madeHeader_not_zero]; decide),
    if_neg (not_not.mpr madeHeader_magic), if_neg (by rw [hversion.1, hversion.2]; decide),
    parse_chksum]
  simp only [parseSize, hsize, hzero.1, hzero.2, madeHeader_cString h0 hname, hstrip,
    madeHeader_flag]
  rcases ht with rfl | rfl
  · have hsmall : ¬ 2147483647 < size.toNat := by omega
    simp [hsmall, hcast, bind, Except.bind]
  · have hflag : UstarType.directory.flag ≠ UstarType.regular.flag := by decide
    simp [hflag, bind, Except.bind]

/-- **Round trip.**  A header is made unless the stripped name is longer than 99 characters, and what
    is made is read back: the stripped name, the type, and the size of a regular file. -/
theorem ustar_round_trip (name : List CChar) (h0 : 0 ∉ name) (type : UstarType)
    (ht : type = .regular ∨ type = .directory) (size : Int) (hs : 0 ≤ size ∧ size ≤ 2147483647) :
    (ustarMakeHeader name type size = .ok none ↔ 99 < (stripAntisocialPrefixes name).length) ∧
      ((stripAntisocialPrefixes name).length ≤ 99 →
        ∃ h, ustarMakeHeader name type size = .ok (some h) ∧ ustarParseHeader h = .ok
            { fileName := some (stripAntisocialPrefixes name)
              type := type
              size := if type = .regular then size else 0 }) := by
  rw [ustarMakeHeader_eq ht]
  refine ⟨?_, fun hlen => ⟨_, by rw [if_neg (by omega)], ?_⟩⟩
  · by_cases hlong : 99 < (stripAntisocialPrefixes name).length
    · simp [hlong]
    · simp [hlong]
  · exact parse_madeHeader (strip_nonzero h0) hlen (strip_strip name) ht hs

/-- The directory `../a/..`, which is archived as `a/..`; and the size of a directory is 0. -/
theorem ustar_round_trip_dots :
    (stripAntisocialPrefixes (['.', '.', '/', 'a', '/', '.', '.'].map ascii)).length ≤ 99 ∧
      ∃ h, ustarMakeHeader (['.', '.', '/', 'a', '/', '.', '.'].map ascii) .directory 77 =
          .ok (some h) ∧
        ustarParseHeader h = .ok
          { fileName := some (['a', '/', '.', '.'].map ascii), type := .directory, size := 0 } :=
  ⟨by decide, (ustar_round_trip (['.', '.', '/', 'a', '/', '.', '.'].map ascii) (by decide)
    .directory (.inr rfl) 77 (by decide)).2 (by decide)⟩

/-! ## Names in the name field

What `strip_antisocial_prefixes` does with the name of an ARBITRARY header.  A pointer into the field is
what stands there from it on; to read behind the field is to stop (`none`). -/

/-- `!memcmp (p, s, n)`, for the `n` bytes of `s`; with a NUL at the end of `s`, `!strcmp (p, s)`. -/
def matchesAt : List CChar → List CChar → Option Bool
  | [], _ => some true
  | _ :: _, [] => none
  | c :: cs, x :: xs => if x = c then matchesAt cs xs else some false

def antisocialAt (p : List CChar) : Option Bool := do
  if ← matchesAt [ascii '/'] p then some true
  else if ← matchesAt (['.', '/'].map ascii) p then some true
  else matchesAt (['.', '.', '/'].map ascii) p

/-- `strchr (p, '/') + 1`; a null pointer would be followed. -/
def pastSlashAt : List CChar → Option (List CChar)
  | [] => none
  | x :: xs => if x = ascii '/' then some xs else if x = 0 then none else pastSlashAt xs

def stripAt : Nat → List CChar → Option (List CChar)
  | 0, _ => none
  | n + 1, p => do if ← antisocialAt p then stripAt n (← pastSlashAt p) else some p

/-- `strip_antisocial_prefixes (h->name)`: a pointer into the field, or none for the literal `"."`. -/
def stripField (field : List CChar) : Option (Option (List CChar)) := do
  let p ← stripAt field.length field
  if ← matchesAt [0] p then some none
  else if ← matchesAt (['.', '.'].map ascii ++ [0]) p then some none else some (some p)

section

variable {rest : List CChar}

/-- A comparison stops at the NUL at the latest, so it stays in the field. -/
theorem matchesAt_eq : ∀ s l : List CChar, 0 ∉ s.dropLast →
    matchesAt s (l ++ 0 :: rest) = some (s.isPrefixOf (l ++ [0]))
  | [], _, _ => rfl
  | c :: cs, [], hs => by
    rw [nil_append, nil_append, matchesAt, isPrefixOf_cons_cons]
    by_cases hc : 0 = c
    · have hnil : cs = [] := by
        cases cs with
        | nil => rfl
        | cons => exact absurd (mem_cons.mpr (.inl hc)) hs
      rw [if_pos hc, hnil, ← hc]
      rfl
    · rw [if_neg hc, beq_eq_false_iff_ne.mpr (Ne.symm hc), Bool.false_and]
  | c :: cs, x :: l, hs => by
    rw [cons_append, cons_append, matchesAt, isPrefixOf_cons_cons]
    by_cases hx : x = c
    · have hrest : 0 ∉ cs.dropLast := by
        cases cs with
        | nil => exact not_mem_nil
        | cons => exact fun hm => hs (mem_cons_of_mem c hm)
      rw [if_pos hx, matchesAt_eq cs l hrest, hx, beq_self_eq_true, Bool.true_and]
    · rw [if_neg hx, beq_eq_false_iff_ne.mpr (Ne.symm hx), Bool.false_and]

theorem antisocialAt_eq (l : List CChar) :
    antisocialAt (l ++ 0 :: rest) = some (isAntisocial l) := by
  have htake : ∀ s : List CChar, 0 ∉ s → s.isPrefixOf (l ++ [0]) = (l.take s.length == s) := by
    intro s hs
    rw [Bool.eq_iff_iff, isPrefixOf_iff_prefix, beq_iff_eq, prefix_concat_iff, prefix_iff_eq_take]
    refine ⟨?_, fun he => Or.inr he.symm⟩
    rintro (he | he)
    · exact absurd (he ▸ mem_append_right _ (mem_singleton_self 0)) hs
    · exact he.symm
  have hfirst : (l.head? == some (ascii '/')) = (l.take 1 == [ascii '/']) := by
    cases l with
    | nil => rfl
    | cons => simp
  rw [antisocialAt, matchesAt_eq _ l (by decide), matchesAt_eq _ l (by decide),
    matchesAt_eq _ l (by decide), htake _ (by decide), htake _ (by decide), htake _ (by decide),
    isAntisocial, hfirst]
  simp only [length_map, length_cons, length_nil, Nat.reduceAdd]
  cases l.take 1 == [ascii '/'] with
  | true => rfl
  | false =>
    cases l.take 2 == ['.', '/'].map ascii with
    | true => rfl
    | false => rfl

theorem pastSlashAt_eq : ∀ {l : List CChar}, 0 ∉ l → ascii '/' ∈ l →
    pastSlashAt (l ++ 0 :: rest) = some (pastSlash l ++ 0 :: rest)
  | [], _, hm => absurd hm not_mem_nil
  | x :: l, h0, hm => by
    rw [cons_append, pastSlashAt]
    by_cases hx : x = ascii '/'
    · rw [if_pos hx, hx]
      rfl
    · rw [if_neg hx, if_neg fun h => h0 (mem_cons.mpr (.inl h.symm)),
        pastSlashAt_eq (fun h => h0 (mem_cons_of_mem x h)) ((mem_cons.mp hm).resolve_left (Ne.symm hx)),
        pastSlash, pastSlash, dropWhile_cons, if_pos (bne_iff_ne.mpr hx)]

/-- **The loop on the pointer** does what the loop on the string does, and stays in the field. -/
theorem stripAt_eq : ∀ (n m : Nat) (l : List CChar), 0 ∉ l → l.length < n → l.length ≤ m →
    stripAt n (l ++ 0 :: rest) = some (stripLoop m l ++ 0 :: rest)
  | 0, _, _, _, hn, _ => absurd hn (Nat.not_lt_zero _)
  | n + 1, m, l, h0, hn, hm => by
    rw [stripAt, antisocialAt_eq]
    by_cases ha : isAntisocial l = true
    · obtain ⟨s, t, rfl, hpast, hs⟩ := isAntisocial_cases ha
      have hpos := length_pos_iff.mpr hs
      rw [length_append] at hn hm
      obtain ⟨m, rfl⟩ := Nat.exists_eq_add_of_lt (show 0 < m by omega)
      have hnext := stripAt_eq n (0 + m) t (fun h => h0 (mem_append_right s h)) (by omega) (by omega)
      rw [ha, pastSlashAt_eq h0 (slash_of_antisocial ha), hpast, stripLoop, if_pos ha, hpast]
      exact hnext
    · rw [stripLoop_of_not (by simpa using ha), Bool.eq_false_iff.mpr ha]
      rfl

/-- What is returned is a pointer to the stripped name, in the field, or the literal. -/
theorem stripField_eq {l : List CChar} (h0 : 0 ∉ l) :
    ∃ r, stripField (l ++ 0 :: rest) = some r ∧
      (r = none ∧ stripAntisocialPrefixes l = [ascii '.'] ∨
        r = some (stripAntisocialPrefixes l ++ 0 :: rest) ∧ stripAntisocialPrefixes l <:+ l) := by
  have hstrip : stripAt (l ++ 0 :: rest).length (l ++ 0 :: rest) = _ :=
    stripAt_eq _ l.length l h0 (by simp) le_rfl
  have hsuf := (stripLoop_spec l.length l le_rfl).2
  have h0' : 0 ∉ stripLoop l.length l := fun h => h0 (hsuf.subset h)
  rw [stripField, hstrip, stripAntisocialPrefixes]
  generalize stripLoop l.length l = s at hsuf h0' ⊢
  -- a string with its NUL begins with another one only if they are the same
  have hsame : ∀ t, 0 ∉ t → ((t ++ [0]).isPrefixOf (s ++ [0]) = true ↔ s = t) := by
    intro t ht
    rw [ isPrefixOf_iff_prefix, prefix_concat_iff]
    refine ⟨?_, fun h => .inl (by rw [h])⟩
    rintro (h | h)
    · exact (append_cancel_right h).symm
    · exact absurd (h.subset (mem_append_right t (mem_singleton_self 0))) h0'
  show ∃ r, ((matchesAt ([] ++ [0]) (s ++ 0 :: rest)).bind fun b => _) = _ ∧ _
  rw [matchesAt_eq _ s (by decide), matchesAt_eq (['.', '.'].map ascii ++ [0]) s (by decide)]
  by_cases hbad : s = [] ∨ s = ['.', '.'].map ascii
  · refine ⟨none, ?_, .inl ⟨rfl, if_pos hbad⟩⟩
    by_cases h1 : s = []
    · exact if_pos ((hsame [] not_mem_nil).mpr h1)
    · exact (if_neg (mt (hsame [] not_mem_nil).mp h1)).trans
        (if_pos ((hsame _ (by decide)).mpr (hbad.resolve_left h1)))
  · refine ⟨_, ?_, .inr ⟨rfl, by rwa [if_neg hbad]⟩⟩
    rw [if_neg hbad]
    rw [not_or] at hbad
    exact (if_neg (mt (hsame [] not_mem_nil).mp hbad.1)).trans
      (if_neg (mt (hsame _ (by decide)).mp hbad.2))

end

theorem parseSize_bounds (hsize : parseSize h = .ok size) : 0 ≤ size ∧ size ≤ 2147483647 := by
  unfold parseSize at hsize
  split at hsize
  · split at hsize
    · cases hsize
    · split at hsize
      · cases hsize
      · cases hsize
        omega
  · cases hsize
    decide

/-- **Accepted headers are safe**: the name is a stripped string of at most 99 characters, found without
    reading behind the field; the type is that of a file or a directory, and the size is an `int`. -/
theorem ustar_parse_safe (h : Nat → CChar) (e : UstarEntry) (hparse : ustarParseHeader h = .ok e)
    (heof : e.type ≠ .eof) :
    ∃ name r, e.fileName = some name ∧ name ≠ [] ∧ 0 ∉ name ∧ name.length ≤ 99 ∧
      isAntisocial name = false ∧ name ≠ ['.', '.'].map ascii ∧
      stripField (window h 0 100) = some r ∧
      (r = none ∧ name = [ascii '.'] ∨ ∃ rest, r = some (name ++ 0 :: rest)) ∧
      (e.type = .regular ∨ e.type = .directory) ∧ 0 ≤ e.size ∧ e.size ≤ 2147483647 := by
  unfold ustarParseHeader at hparse
  split at hparse
  · cases hparse
    exact absurd rfl heof
  split at hparse
  · cases hparse
  split at hparse
  · cases hparse
  split at hparse
  · cases hparse
  split at hparse
  · cases hparse
  split at hparse
  · cases hparse
  split at hparse
  · cases hparse
  rename_i hzero _
  obtain ⟨size, hsize, he⟩ := bind_eq_ok.mp hparse
  cases he
  -- the field ends with a NUL, so the string in it ends before that
  have h99 : h 99 = 0 := not_not.mp fun hne => hzero (.inl hne)
  obtain ⟨rest, hfield⟩ := exists_cString
    (show 0 ∈ window h 0 100 from mem_map.mpr ⟨99, mem_range.mpr (by decide), h99⟩)
  have hlen := congrArg length hfield
  rw [length_window, length_append, length_cons] at hlen
  have h0 := zero_not_mem_cString (window h 0 100)
  obtain ⟨r, hr, hcases⟩ : ∃ r, stripField (_ ++ 0 :: rest) = some r ∧ _ := stripField_eq h0
  obtain ⟨hfree, hnil, hdots⟩ := strip_spec (cString (window h 0 100))
  rw [← hfield] at hr
  refine ⟨_, r, rfl, hnil, strip_nonzero h0, ?_, hfree, hdots, hr, ?_, ?_, parseSize_bounds hsize⟩
  · rcases hcases with ⟨-, hone⟩ | ⟨-, hsuf⟩
    · rw [hone]
      decide
    · have := hsuf.length_le
      omega
  · exact hcases.imp id fun ⟨hsome, _⟩ => ⟨rest, hsome⟩
  · simp only
    split
    · exact .inl rfl
    · exact .inr rfl

/-- The header of `a`, five bytes. -/
theorem ustar_parse_safe_made : ∃ name r, some [ascii 'a'] = some name ∧ name ≠ [] ∧ 0 ∉ name ∧
    name.length ≤ 99 ∧ isAntisocial name = false ∧ name ≠ ['.', '.'].map ascii ∧
    stripField (window (madeHeader [ascii 'a'] .regular 5) 0 100) = some r ∧
    (r = none ∧ name = [ascii '.'] ∨ ∃ rest, r = some (name ++ 0 :: rest)) ∧
    (UstarType.regular = .regular ∨ UstarType.regular = .directory) ∧ (0 : Int) ≤ 5 ∧
      (5 : Int) ≤ 2147483647 :=
  ustar_parse_safe _ { fileName := some [ascii 'a'], type := .regular, size := 5 }
    (parse_madeHeader (by decide) (by decide) (by decide) (.inl rfl) (by decide)) (by decide)

/-! ## One byte changed -/

theorem sum_map_range_of_ne {f g : Nat → Nat} {j n : Nat} (hj : j < n) (h : ∀ i, i ≠ j → f i = g i) :
    ((range n).map f).sum + g j = ((range n).map g).sum + f j := by
  induction n with
  | zero => omega
  | succ n ih =>
    simp only [range_succ, map_append, sum_append, map_singleton, sum_singleton]
    by_cases hn : j = n
    · subst hn
      have hsame : (range j).map f = (range j).map g :=
        map_congr_left fun i hi => h i (by have := mem_range.mp hi; omega)
      rw [hsame]
      omega
    · have hrest := ih (by omega)
      rw [h n (Ne.symm hn)]
      omega

/-- A field that holds another number than the checksum: whichever check fails first, one does. -/
theorem parse_error_of_chksum {v : Nat} (hfield : parseOctalField h 148 8 = some v)
    (hne : v ≠ calculateChksum h) : ∃ msg, ustarParseHeader h = .error msg := by
  have hzero : ¬ (window h 0 ustarHeaderSize).all (· == 0) = true := by
    intro hall
    have h148 : h 148 = 0 := by
      have := all_eq_true.mp hall (h 148) (mem_map.mpr ⟨148, mem_range.mpr (by decide), by simp⟩)
      exact eq_of_beq this
    have hhead : window h 148 8 = h 148 :: window h 149 7 := rfl
    rw [parseOctalField, hhead, h148] at hfield
    cases hfield
  rw [ustarParseHeader, if_neg hzero]
  split
  · exact ⟨_, rfl⟩
  split
  · exact ⟨_, rfl⟩
  simp only [hfield, if_pos hne]
  exact ⟨_, rfl⟩

/-- **One wrong byte is noticed**, wherever it is but in the checksum. -/
theorem ustar_corruption_detected (name : List CChar) (type : UstarType) (size : Int)
    (h h' : Nat → CChar) (hmake : ustarMakeHeader name type size = .ok (some h)) (j : Nat)
    (hj : j < ustarHeaderSize) (hout : j < 148 ∨ 156 ≤ j) (hne : h' j ≠ h j)
    (hsame : ∀ i < ustarHeaderSize, i ≠ j → h' i = h i) :
    ∃ msg, ustarParseHeader h' = .error msg := by
  obtain ⟨s, rfl⟩ : ∃ s, h = madeHeader s type size := by
    unfold ustarMakeHeader at hmake
    split at hmake
    · simp only at hmake
      split at hmake
      · cases hmake
      · exact ⟨_, (Option.some.inj (Except.ok.inj hmake)).symm⟩
    · cases hmake
  have hcongr : ustarParseHeader h' =
      ustarParseHeader (update (madeHeader s type size) j (h' j)) := by
    refine ustarParseHeader_congr fun i hi => ?_
    by_cases hij : i = j
    · rw [hij, update_self]
    · rw [update_of_ne hij, hsame i hi hij]
  rw [hcongr]
  refine parse_error_of_chksum (v := calculateChksum (madeHeader s type size)) ?_ fun heq => ?_
  · rw [← parse_chksum, parseOctalField, parseOctalField]
    exact congrArg (octalLoop · 0 0)
      (window_congr fun k hk => update_of_ne (by omega) _ _)
  · have hsum := sum_map_range_of_ne (j := j)
      (f := fun i => if 148 ≤ i ∧ i < 156 then (ascii ' ').toNat
        else (update (madeHeader s type size) j (h' j) i).toNat)
      (g := fun i => if 148 ≤ i ∧ i < 156 then (ascii ' ').toNat
        else (madeHeader s type size i).toNat) hj
      fun i hi => by rw [update_of_ne hi]
    rw [← calculateChksum, ← calculateChksum, ← heq] at hsum
    simp only [if_neg (show ¬ (148 ≤ j ∧ j < 156) by omega), update_self] at hsum
    exact hne (BitVec.eq_of_toNat_eq (by omega))

/-- The first letter of the name changed. -/
theorem ustar_corruption_name : ∃ msg, ustarParseHeader
    (Function.update (madeHeader [ascii 'a'] .regular 5) 0 (ascii 'b')) = .error msg := by
  have hmake : ustarMakeHeader [ascii 'a'] .regular 5 =
      .ok (some (madeHeader [ascii 'a'] .regular 5)) := ustarMakeHeader_eq (.inl rfl)
  have hletter : madeHeader [ascii 'a'] .regular 5 0 = ascii 'a' := by
    have hname : window (madeHeader [ascii 'a'] .regular 5) 0 2 = [ascii 'a'] ++ [0] :=
      madeHeader_name (by decide)
    exact (cons.inj hname).1
  refine ustar_corruption_detected _ _ _ _ _ hmake 0 (by decide) (.inl (by decide)) ?_
    fun i _ hi => update_of_ne hi _ _
  rw [update_self, hletter]
  decide

end
end Pintos.Lib
