/-
  The kernel command line (`threads/init.c`) and the random numbers (`lib/random.c`).

  1. **Words** — `read_command_line` stores a pointer for each word, as many as the loader COUNTED.  The
     array has room for words of two bytes, and a word may have none but its NUL; the count is an
     `int` that may be negative.  It panics if the count is above `wordsFrom`, the words there are
     room for; `read_command_line_iff` says when all it stores is in the array.

  2. **Options** — `parse_options` seeds the generator for `-rs`, and seeds it AGAIN with the time when
     it has come to the end, whatever the options were: two boots at the same time give the same
     bytes even for DIFFERENT seeds, and no seed makes the bytes independent of the time
     (`fixed_seed_iff`).
-/
import Mathlib.Data.List.GetD
import Pintos.Lib.Stdio

namespace Pintos.Threads

open Lib List Option

/-! ## The words of the command line -/

/-- `LOADER_ARGS_LEN`. -/
def loaderArgsLen : Nat := 128

/-- The length of the array `argv`. -/
def argvLen : Nat := loaderArgsLen / 2 + 1

def strnlen (f : Nat → CChar) (p : Nat) : Nat → Nat
  | 0 => 0
  | maxlen + 1 => if f p = 0 then 0 else strnlen f (p + 1) maxlen + 1

/-- The loop of `read_command_line`, with `n` words to go: the pointers that it stores.  Without a
    result it has panicked. -/
def readArgs (f : Nat → CChar) : Nat → Nat → Option (List Nat)
  | 0, _ => some []
  | n + 1, p =>
    if loaderArgsLen ≤ p then none
    else (readArgs f n (p + strnlen f p (loaderArgsLen - p) + 1)).map (p :: ·)

/-- `read_command_line`, for the argument area `f`: what it stores to `argv`, and at which index. -/
def readCommandLine (argCnt : BitVec 32) (f : Nat → CChar) : Option (List (Int × Option Nat)) :=
  (readArgs f argCnt.toInt.toNat 0).map fun ps =>
    (ps.zipIdx.map fun p => ((p.2 : Int), some p.1)) ++ [(argCnt.toInt, none)]

/-- `q` is where the next word begins behind the one at `p`. -/
def NextWord (f : Nat → CChar) (p q : Nat) : Prop :=
  p < q ∧ f (q - 1) = 0 ∧ ∀ r, p ≤ r → r + 1 < q → f r ≠ 0

/-- All that is stored is in `argv`: the words of the area from the first on, and a null pointer. -/
structure Split (f : Nat → CChar) (argc : Int) (stored : List (Int × Option Nat)) : Prop where
  inside : ∀ w ∈ stored, 0 ≤ w.1 ∧ w.1 < argvLen
  words : ∃ ps : List Nat, (ps.length : Int) = argc ∧
    stored = (ps.zipIdx.map fun p => ((p.2 : Int), some p.1)) ++ [(argc, none)] ∧
    (∀ p ∈ ps.head?, p = 0) ∧ (∀ p ∈ ps, p < loaderArgsLen) ∧ ps.IsChain (NextWord f)

variable {f : Nat → CChar} {p n : Nat}

theorem strnlen_spec : (∀ r, p ≤ r → r < p + strnlen f p n → f r ≠ 0) ∧
    (strnlen f p n < n → f (p + strnlen f p n) = 0) := by
  induction n generalizing p with
  | zero => exact ⟨fun r h1 h2 => by rw [strnlen] at h2; omega, fun h => by omega⟩
  | succ n ih =>
    rw [strnlen]
    split
    · exact ⟨fun r h1 h2 => by omega, fun _ => by assumption⟩
    rename_i hp
    obtain ⟨hin, hend⟩ := ih (p := p + 1)
    rw [add_right_comm] at hin hend
    refine ⟨fun r h1 h2 => ?_, fun h => hend (by omega)⟩
    rcases eq_or_lt_of_le h1 with rfl | h1
    · exact hp
    · exact hin r h1 h2

theorem readArgs_spec {ps : List Nat} (h : readArgs f n p = some ps) :
    ps.length = n ∧ (∀ q ∈ ps.head?, q = p) ∧ (∀ q ∈ ps, q < loaderArgsLen) ∧
      ps.IsChain (NextWord f) := by
  induction n generalizing p ps with
  | zero =>
    cases h
    exact ⟨rfl, by simp, by simp, .nil⟩
  | succ n ih =>
    rw [readArgs] at h
    split at h
    · cases h
    rename_i hp
    obtain ⟨ps, hps, rfl⟩ := map_eq_some_iff.mp h
    obtain ⟨hlen, hhead, hin, hchain⟩ := ih hps
    refine ⟨by rw [length_cons, hlen], by simp, ?_, ?_⟩
    · simpa using ⟨Nat.lt_of_not_le hp, hin⟩
    cases ps with
    | nil => exact .singleton p
    | cons q =>
      obtain rfl := hhead q rfl
      have hq := hin _ mem_cons_self
      obtain ⟨hword, hnul⟩ := strnlen_spec (f := f) (n := loaderArgsLen - p) (p := p)
      refine isChain_cons_cons.mpr ⟨⟨by omega, hnul (by omega), fun r h1 h2 => ?_⟩, hchain⟩
      exact hword r h1 (by omega)

/-- How many words begin in the area at `p` or behind it: one at `p`, and one behind each NUL that is
    not the last byte. -/
def wordsFrom (f : Nat → CChar) (p : Nat) : Nat :=
  if p < loaderArgsLen then (range' p (loaderArgsLen - 1 - p)).countP (f · = 0) + 1 else 0

theorem wordsFrom_next (hp : p < loaderArgsLen) :
    wordsFrom f p = wordsFrom f (p + strnlen f p (loaderArgsLen - p) + 1) + 1 := by
  obtain ⟨hword, hnul⟩ := strnlen_spec (f := f) (n := loaderArgsLen - p) (p := p)
  generalize strnlen f p (loaderArgsLen - p) = k at hword hnul
  rw [wordsFrom, wordsFrom, if_pos hp]
  split
  · -- the word ends at a NUL that another word follows
    rename_i hk
    have hlen : loaderArgsLen - 1 - p = k + (loaderArgsLen - 1 - (p + k + 1) + 1) := by omega
    have hnone : (range' p k).countP (f · = 0) = 0 := by
      rw [countP_eq_zero]
      intro r hr
      obtain ⟨h1, h2⟩ := mem_range'_1.mp hr
      simpa using hword r h1 h2
    rw [hlen, ← range'_append_1, countP_append, hnone, range'_succ,
      countP_cons_of_pos (by simpa using hnul (by omega)), zero_add]
  · -- the last word: no NUL is left in front of the last byte
    rename_i hk
    rw [countP_eq_zero.mpr]
    intro r hr
    obtain ⟨h1, h2⟩ := mem_range'_1.mp hr
    simpa using hword r h1 (by omega)

/-- `read_command_line` panics if it is to find more words than begin in the area. -/
theorem readArgs_eq_none_iff : readArgs f n p = none ↔ wordsFrom f p < n := by
  induction n generalizing p with
  | zero => simp [readArgs]
  | succ n ih =>
    rw [readArgs]
    split
    · rename_i hp
      simp [wordsFrom, Nat.not_lt.mpr hp]
    · rename_i hp
      rw [map_eq_none_iff, ih, wordsFrom_next (Nat.lt_of_not_le hp)]
      omega

/-- **The command line is split within `argv`** exactly if the count is one of 0, …, 64, or the kernel
    panics because fewer words than that begin in the area. -/
theorem read_command_line_iff (argCnt : BitVec 32) (f : Nat → CChar) :
    (∀ stored, readCommandLine argCnt f = some stored → Split f argCnt.toInt stored) ↔
      wordsFrom f 0 < argCnt.toInt ∨ (0 ≤ argCnt.toInt ∧ argCnt.toInt < argvLen) := by
  have hpanic := readArgs_eq_none_iff (f := f) (n := argCnt.toInt.toNat) (p := 0)
  cases h : readArgs f argCnt.toInt.toNat 0 with
  | none =>
    have := hpanic.mp h
    simp [readCommandLine, h, show (wordsFrom f 0 : Int) < argCnt.toInt by omega]
  | some ps =>
    have hno : ¬ (wordsFrom f 0 : Int) < argCnt.toInt := by
      rw [h] at hpanic
      have := hpanic.not.mp (by simp)
      omega
    obtain ⟨hlen, hhead, hin, hchain⟩ := readArgs_spec h
    simp only [readCommandLine, h, map_some, some.injEq, hno, false_or, forall_eq']
    constructor
    · intro hsplit
      exact hsplit.inside _ (mem_append_right _ mem_cons_self)
    · rintro ⟨h0, h1⟩
      refine ⟨fun w hw => ?_, ps, by omega, rfl, hhead, hin, hchain⟩
      rcases mem_append.mp hw with hw | hw
      · obtain ⟨p, hp, rfl⟩ := mem_map.mp hw
        have := snd_lt_of_mem_zipIdx hp
        show (0 : Int) ≤ p.2 ∧ (p.2 : Int) < argvLen
        omega
      · rw [mem_singleton.mp hw]
        exact ⟨h0, h1⟩

/-- **Sixty-five empty words**: the null pointer is stored behind the end of the array. -/
theorem read_command_line_overflow :
    ∃ stored, readCommandLine 65 (fun _ => 0) = some stored ∧ (65, none) ∈ stored ∧
      argvLen = 65 := by
  refine ⟨_, rfl, ?_, rfl⟩
  decide

/-! ## The random numbers -/

/-- The generator: `s`, `s_i`, `s_j` and `inited`. -/
structure Random where
  s : List (BitVec 8)
  i : BitVec 8
  j : BitVec 8
  inited : Bool

def swapByte (s : List (BitVec 8)) (a b : BitVec 8) : List (BitVec 8) :=
  (s.set a.toNat (s.getD b.toNat 0)).set b.toNat (s.getD a.toNat 0)

/-- The second loop of `random_init`, with `n` turns to go. -/
def mixSeed (seed : BitVec 32) : Nat → Nat → List (BitVec 8) → BitVec 8 → List (BitVec 8)
  | 0, _, s, _ => s
  | n + 1, i, s, j =>
    let j := j + (s.getD i 0 + seed.extractLsb' (8 * (i % 4)) 8)
    mixSeed seed n (i + 1) (swapByte s (BitVec.ofNat 8 i) j) j

def randomInit (seed : BitVec 32) : Random :=
  ⟨mixSeed seed 256 0 ((range 256).map (BitVec.ofNat 8)) 0, 0, 0, true⟩

/-- The loop of `random_bytes`. -/
def nextBytes (r : Random) : Nat → List (BitVec 8)
  | 0 => []
  | size + 1 =>
    let i := r.i + 1
    let j := r.j + r.s.getD i.toNat 0
    let s := swapByte r.s i j
    s.getD (s.getD i.toNat 0 + s.getD j.toNat 0).toNat 0 :: nextBytes ⟨s, i, j, r.inited⟩ size

/-- What `random_bytes` writes. -/
def randomBytes (r : Random) (size : Nat) : List (BitVec 8) :=
  nextBytes (if r.inited then r else randomInit 0) size

/-! ## The options -/

/-- What the options set. -/
structure Options where
  powerOff : Option Bool
  formatFilesys : Bool
  filesysBdevName : Option (List CChar)
  scratchBdevName : Option (List CChar)
  swapBdevName : Option (List CChar)
  threadMlfqs : Bool
  userPageLimit : BitVec 32
  random : Random

inductive Halt where
  | usage
  | unknownOption (name : List CChar)
  | assertion

def chars (s : String) : List CChar := s.toList.map ascii

def isspace (c : CChar) : Bool := c = ascii ' ' ∨ (9 ≤ c ∧ c ≤ 13)

def parseDigits : List CChar → BitVec 32 → BitVec 32
  | [], value => value
  | c :: s, value =>
    if ascii '0' ≤ c ∧ c ≤ ascii '9' then
      parseDigits s (value * 10 - (c - ascii '0').setWidth 32)
    else value

def atoi : Option (List CChar) → Except Halt (BitVec 32)
  | none => .error .assertion
  | some s =>
    match s.dropWhile isspace with
    | [] => .ok 0
    | c :: s =>
      if c = ascii '+' then .ok (-parseDigits s 0)
      else if c = ascii '-' then .ok (parseDigits s 0)
      else .ok (-parseDigits (c :: s) 0)

/-- A turn of the loop of `parse_options`, after `strtok_r`. -/
def parseOption (o : Options) (name : List CChar) (value : Option (List CChar)) :
    Except Halt Options :=
  if name = chars "-h" then .error .usage
  else if name = chars "-q" then .ok { o with powerOff := some true }
  else if name = chars "-r" then .ok { o with powerOff := some false }
  else if name = chars "-f" then .ok { o with formatFilesys := true }
  else if name = chars "-filesys" then .ok { o with filesysBdevName := value }
  else if name = chars "-scratch" then .ok { o with scratchBdevName := value }
  else if name = chars "-swap" then .ok { o with swapBdevName := value }
  else if name = chars "-rs" then do .ok { o with random := randomInit (← atoi value) }
  else if name = chars "-mlfqs" then .ok { o with threadMlfqs := true }
  else if name = chars "-ul" then do .ok { o with userPageLimit := (← atoi value) }
  else .error (.unknownOption name)

/-- An argument is cut at its first `=`. -/
def optionName (arg : List CChar) : List CChar := arg.takeWhile (· ≠ ascii '=')

/-- The value is what follows, if anything does. -/
def optionValue (arg : List CChar) : Option (List CChar) :=
  let rest := (arg.dropWhile (· ≠ ascii '=')).tail
  if rest = [] then none else some rest

/-- The loop of `parse_options`, over the arguments that begin with `-`. -/
def parseLoop (o : Options) : List (List CChar) → Except Halt Options
  | [] => .ok o
  | arg :: argv =>
    if arg.head? = some (ascii '-') then do
      let o ← parseOption o (optionName arg) (optionValue arg)
      parseLoop o argv
    else .ok o

/-- `parse_options`; `time` is what `rtc_get_time` returns. -/
def parseOptions (o : Options) (argv : List (List CChar)) (time : BitVec 32) :
    Except Halt Options := do
  let o ← parseLoop o argv
  .ok { o with random := randomInit time }

/-! ### Which command lines are accepted -/

/-- The options that are complete without a value; `-h` stops the boot. -/
def plainOptions : List (List CChar) :=
  ["-q", "-r", "-f", "-filesys", "-scratch", "-swap", "-mlfqs"].map chars

/-- The options whose value goes through `atoi`, which has to get one. -/
def valueOptions : List (List CChar) := ["-rs", "-ul"].map chars

/-- The boot gets past the options. -/
def accepted (argv : List (List CChar)) : Bool :=
  (argv.takeWhile (·.head? = some (ascii '-'))).all fun arg =>
    optionName arg ∈ plainOptions ∨ (optionName arg ∈ valueOptions ∧ (optionValue arg).isSome)

theorem exists_atoi (s : List CChar) : ∃ n, atoi (some s) = .ok n := by
  rw [atoi]
  split
  · exact ⟨_, rfl⟩
  · split_ifs <;> exact ⟨_, rfl⟩

theorem parseOption_isSome (o : Options) (name : List CChar) (value : Option (List CChar)) :
    (parseOption o name value).toOption.isSome ↔
      name ∈ plainOptions ∨ (name ∈ valueOptions ∧ value.isSome) := by
  unfold parseOption
  by_cases hplain : name ∈ plainOptions
  · simp only [hplain, true_or, iff_true]
    simp only [plainOptions, map_cons, map_nil, mem_cons, not_mem_nil, or_false] at hplain
    rcases hplain with rfl | rfl | rfl | rfl | rfl | rfl | rfl <;> rfl
  by_cases hvalue : name ∈ valueOptions
  · simp only [hplain, hvalue, false_or, true_and]
    simp only [valueOptions, map_cons, map_nil, mem_cons, not_mem_nil, or_false] at hvalue
    cases value with
    | none => rcases hvalue with rfl | rfl <;> rfl
    | some s =>
      obtain ⟨n, hn⟩ := exists_atoi s
      simp only [hn]
      rcases hvalue with rfl | rfl <;> rfl
  · simp only [hplain, hvalue, false_and, or_false, iff_false]
    simp only [plainOptions, valueOptions, map_cons, map_nil, mem_cons, not_mem_nil, or_false,
      not_or] at hplain hvalue
    simp only [hplain, hvalue, if_false]
    split <;> simp [Except.toOption]

/-- The loop comes to its end exactly on the accepted command lines. -/
theorem parseLoop_isSome (o : Options) (argv : List (List CChar)) :
    (parseLoop o argv).toOption.isSome = accepted argv := by
  induction argv generalizing o with
  | nil => rfl
  | cons arg argv ih =>
    rw [parseLoop]
    split
    · rename_i harg
      have hopt := parseOption_isSome o (optionName arg) (optionValue arg)
      rw [accepted, takeWhile_cons_of_pos (by simpa using harg), all_cons, ← accepted]
      cases hp : parseOption o (optionName arg) (optionValue arg) with
      | error =>
        rw [hp] at hopt
        rw [decide_eq_false (hopt.not.mp (by simp [Except.toOption])), Bool.false_and]
        rfl
      | ok o' =>
        rw [hp] at hopt
        rw [decide_eq_true (hopt.mp rfl), Bool.true_and, ← ih o']
        rfl
    · rename_i harg
      simp [accepted, Except.toOption, harg]

/-- Of an accepted command line only the time is left in the generator. -/
theorem parseOptions_bytes (o : Options) (argv : List (List CChar)) (time : BitVec 32) (size : Nat) :
    (parseOptions o argv time).toOption.map (randomBytes ·.random size) =
      if accepted argv then some (randomBytes (randomInit time) size) else none := by
  rw [← parseLoop_isSome o]
  cases h : parseLoop o argv <;> simp [parseOptions, h, bind, Except.bind, Except.toOption]

theorem randomBytes_zero_one :
    randomBytes (randomInit 0) 1 = [222] ∧ randomBytes (randomInit 1) 1 = [1] := by
  decide +kernel

/-- **The seed of `-rs` is lost.**  A command line gives the same random bytes at every two times
    exactly if it stops the boot.  At one time all accepted command lines give the same bytes,
    WHATEVER their seeds. -/
theorem fixed_seed_iff (o : Options) (argv : List (List CChar)) :
    ((∀ time time' size, (parseOptions o argv time).toOption.map (randomBytes ·.random size) =
        (parseOptions o argv time').toOption.map (randomBytes ·.random size)) ↔
      accepted argv = false) ∧
    ∀ argv' time size, accepted argv' = accepted argv →
      (parseOptions o argv' time).toOption.map (randomBytes ·.random size) =
        (parseOptions o argv time).toOption.map (randomBytes ·.random size) := by
  simp only [parseOptions_bytes]
  refine ⟨⟨fun hsame => ?_, fun hstops => by simp [hstops]⟩, fun argv' time size h => by rw [h]⟩
  -- the two clocks 0 and 1 differ in the first byte
  by_contra haccepted
  have := hsame 0 1 1
  rw [randomBytes_zero_one.1, randomBytes_zero_one.2, if_pos (by simpa using haccepted)] at this
  simp at this

/-- The options before the command line is read. -/
def noOptions : Options := ⟨none, false, none, none, none, false, -1, ⟨[], 0, 0, false⟩⟩

/-- With `-rs=7`, and clocks that are a second apart. -/
theorem fixed_seed_lost :
    (parseOptions noOptions [chars "-rs=7"] 0).toOption.map (randomBytes ·.random 1) = some [222] ∧
      (parseOptions noOptions [chars "-rs=7"] 1).toOption.map (randomBytes ·.random 1) =
        some [1] := by
  have haccepted : accepted [chars "-rs=7"] = true := by decide
  simp only [parseOptions_bytes, haccepted, if_true, randomBytes_zero_one, and_self]

end Pintos.Threads
