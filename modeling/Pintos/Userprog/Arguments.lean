/-
  The initial user stack: `start_process` and `push_arguments` (userprog/process.c).

  `push_arguments` pushes the tokens of the command line as strings, one to four zero bytes, a null
  pointer, the addresses of the strings from the last to the first, the address of the first of these,
  `argc`, and a null return address, in the page below `PHYS_BASE`.

  1. **The image** (`startProcess_eq`) — the whole of it is ONE sequence of blocks pushed downwards
     (`image`), whatever spaces stand in the command line.

  2. **Decoding** (`argument_stack_iff`) — what fits into the page is read back as the C calling
     convention wants it, except for the alignment: `4 - esp % 4` bytes are pushed where `esp % 4`
     would align, and for an ODD number of bytes of strings `esp` ends between two words.

  3. **The page** (`arguments_in_page_iff`) — the strings of a command line always fit, and the pointers
     are not tested.  When they do not fit, the kernel writes BELOW the page, takes a page fault that
     its handler does not settle, and never comes back.
-/
import Pintos.Base.PushDown
import Pintos.Base.LittleEndian
import Pintos.Lib.Strtok
import Pintos.Userprog.PageDir

namespace Pintos.Userprog.Arguments

open Base Lib List Stack

/-! ## The source -/

/-- Why `start_process` does not come to start the process: a store to a page that is not there,
    at this address; a failed assertion; or a loop that did not end within its bound. -/
inductive Stop where
  | fault (addr : Nat)
  | assertion
  | endless
  deriving DecidableEq

/-- The result of a loop with a bound. -/
def ended {α : Type} : Option α → Except Stop α
  | some a => .ok a
  | none => .error .endless

variable {α : Type}

theorem ended_some (a : α) : ended (some a) = .ok a := rfl

/-- The delimiters `" "`. -/
def space : List CChar := [32#8]

def maxArgsSize : Nat := 4096

def wordSize : Nat := 4

/-- The lowest address of the page that `setup_stack` installs. -/
def stackPage : Nat := physBase - pgSize

/-- A store at `*esp`.  No other user page is present yet, and the handler returns from a page fault
    in the kernel without bringing one in. -/
def store (bs : List CChar) (s : Stack CChar) : Except Stop (Stack CChar) :=
  if stackPage ≤ s.top ∧ s.top + bs.length ≤ physBase then
    .ok { s with cells := put s.cells s.top bs }
  else .error (.fault s.top)

def wordBytes (x : Nat) : List CChar := (range 4).map (le32Byte x)

/-- What `strlcpy (dst, src, size)` stores for a positive `size`. -/
def strlcpyBytes (n : Nat) (buf : Nat → CChar) (src size : Nat) : Option (List CChar) := do
  let srcLen ← strlen buf n src
  return window buf src (min srcLen (size - 1)) ++ [0]

def pushArg (n : Nat) (buf : Nat → CChar) (arg : Nat) (s : Stack CChar) :
    Except Stop (Stack CChar) := do
  let arglen := (← ended (strlen buf n arg)) + 1
  let bs ← ended (strlcpyBytes n buf arg arglen)
  store bs { s with top := s.top - arglen }

def pushByte (s : Stack CChar) : Except Stop (Stack CChar) := store [0] { s with top := s.top - 1 }

/-- `push_arg_ptr`, and the other stores of a word. -/
def pushArgPtr (ptr : Nat) (s : Stack CChar) : Except Stop (Stack CChar) :=
  store (wordBytes ptr) { s with top := s.top - wordSize }

/-- What the local variables hold before they are assigned to. -/
structure Junk where
  strcopy : Nat → CChar
  argvAddr : Nat → Nat
  savePtr : Nat

/-- `num_tokens`: the tokens of a copy. -/
def numTokens (n : Nat) (j : Junk) (buf : Nat → CChar) (str : Nat) : Option Nat := do
  let len := (← strlen buf n str) + 1
  let strcopy := put j.strcopy 0 (← strlcpyBytes n buf str len)
  let t ← strtokR n space strcopy (some 0) j.savePtr
  countTokens n space n t 0

/-- The loop that pushes the arguments, after its first call of `strtok_r`; without `argvAddr` when
    it returns because there are too many. -/
def argLoop (n argc : Nat) : Nat → Strtok → Nat → (Nat → Nat) → Stack CChar →
    Except Stop (Option (Nat → Nat) × Stack CChar)
  | 0, _, _, _, _ => .error .endless
  | k + 1, t, i, argvAddr, s =>
    match t.token with
    | none => .ok (some argvAddr, s)
    | some arg =>
      if maxArgsSize < physBase - s.top then .ok (none, s)
      else if ¬ i < argc then .error .assertion
      else do
        let s ← pushArg n t.mem arg s
        let t ← ended (strtokR n space t.mem none t.save)
        argLoop n argc k t (i + 1) (put argvAddr i [s.top]) s

/-- `for (i = 0; i < k; i++) push_byte (esp);`. -/
def pushBytes : Nat → Stack CChar → Except Stop (Stack CChar)
  | 0, s => .ok s
  | k + 1, s => pushByte s >>= pushBytes k

/-- `for (i = k - 1; i >= 0; i--) push_arg_ptr (argvAddr[i], esp);`. -/
def pushPtrs (argvAddr : Nat → Nat) : Nat → Stack CChar → Except Stop (Stack CChar)
  | 0, s => .ok s
  | k + 1, s => pushArgPtr (argvAddr k) s >>= pushPtrs argvAddr k

/-- The rest of `push_arguments`, behind the strings. -/
def pushFrame (argc : Nat) (argvAddr : Nat → Nat) (s : Stack CChar) : Except Stop (Stack CChar) := do
  let numWordAlign := wordSize - s.top % wordSize
  let s ← pushBytes numWordAlign s
  let s ← pushArgPtr 0 s
  let s ← pushPtrs argvAddr argc s
  let argBasePtr := s.top
  let s ← pushArgPtr argBasePtr s
  let s ← pushArgPtr argc s
  pushArgPtr 0 s

/-- `push_arguments`, with its result: 1, or 0 if there are too many arguments. -/
def pushArguments (n : Nat) (j : Junk) (buf : Nat → CChar) (fileName arguments : Nat)
    (s : Stack CChar) : Except Stop (Nat × Stack CChar) := do
  let argc := (← ended (numTokens n j buf arguments)) + 1
  let s ← pushArg n buf fileName s
  let t ← ended (strtokR n space buf (some arguments) j.savePtr)
  match ← argLoop n argc n t 1 (put j.argvAddr 0 [s.top]) s with
  | (none, s) => return (0, s)
  | (some argvAddr, s) =>
    let s ← pushFrame argc argvAddr s
    return (1, s)

/-- `start_process`, where `load` succeeds: the stack with which the process is started.  The result
    of `push_arguments` is not looked at; without a file name, opening the executable fails an
    assertion. -/
def startProcess (n : Nat) (j : Junk) (fnCopy cells : Nat → CChar) : Except Stop (Stack CChar) := do
  let t ← ended (strtokR n space fnCopy (some 0) 0)
  match t.token with
  | none => .error .assertion
  | some nameOfFile =>
    let (_, s) ← pushArguments n j t.mem nameOfFile t.save ⟨cells, physBase⟩
    return s

/-! ## Single pushes -/

abbrev pushBlocks (bss : List (List CChar)) (s : Stack CChar) : Except Stop (Stack CChar) :=
  Stack.pushAll Stop.fault stackPage bss s

section

variable {n k i argc save q top : Nat} {p : Option Nat} {buf : Nat → CChar} {s s' : Stack CChar}
  {l str : List CChar} {bss : List (List CChar)} {argvAddr : Nat → Nat} (toks : List (List CChar))

theorem store_eq (bs : List CChar) (hs : s.top ≤ physBase) :
    store bs { s with top := s.top - bs.length } = pushBlocks [bs] s := by
  have hpage : stackPage = 3221221376 := rfl
  rw [pushBlocks, pushAll_single]
  unfold store push
  by_cases hfit : stackPage + bs.length ≤ s.top
  · rw [if_pos hfit, if_pos ⟨by show _ ≤ s.top - _; omega, by show s.top - _ + _ ≤ _; omega⟩]
  · rw [if_neg hfit, if_neg (fun h => hfit (by have : _ ≤ s.top - _ := h.1; omega))]

theorem pushByte_eq (hs : s.top ≤ physBase) : pushByte s = pushBlocks [[0]] s := store_eq [0] hs

@[simp] theorem length_wordBytes (x : Nat) : (wordBytes x).length = 4 := by
  simp [wordBytes]

theorem pushArgPtr_eq (x : Nat) (hs : s.top ≤ physBase) :
    pushArgPtr x s = pushBlocks [wordBytes x] s := by
  have hstore := store_eq (wordBytes x) hs
  rwa [length_wordBytes] at hstore

theorem strlcpyBytes_eq (h : StringAt buf q str) (hn : str.length < n) :
    strlcpyBytes n buf q (str.length + 1) = some (str ++ [0]) := by
  rw [strlcpyBytes, strlen_eq h hn]
  show some (window buf q (min str.length (str.length + 1 - 1)) ++ [0]) = some (str ++ [0])
  rw [Nat.add_sub_cancel, Nat.min_self, h.window_eq]

theorem pushArg_eq (h : StringAt buf q str) (hn : str.length < n)
    (hs : s.top ≤ physBase) : pushArg n buf q s = pushBlocks [str ++ [0]] s := by
  have hstore := store_eq (str ++ [0]) hs
  rw [length_append, length_singleton] at hstore
  rw [pushArg, strlen_eq h hn]
  simp only [ended_some, ok_bind, strlcpyBytes_eq h hn]
  exact hstore

theorem pushBlocks_append (a b : List (List CChar)) (s : Stack CChar) :
    pushBlocks (a ++ b) s = pushBlocks a s >>= pushBlocks b :=
  pushAll_append a b s

/-- What comes after some blocks starts from a stack that is lower by their size. -/
theorem pushBlocks_bind {f g : Stack CChar → Except Stop α}
    (hfg : ∀ t : Stack CChar, t.top + Stack.size bss = s.top → f t = g t) :
    pushBlocks bss s >>= f = pushBlocks bss s >>= g :=
  pushAll_bind_congr fun t ht => hfg t (pushAll_frame ht).1

/-! ## The loops -/

theorem numTokens_eq (j : Junk) (h : StringAt buf q l) (hn : l.length < n) :
    numTokens n j buf q = some (tokens (among space) l).length := by
  have hcopy : StringAt (put j.strcopy 0 (l ++ [0])) 0 l := by
    refine StringAt.of_window h.zero_not_mem ?_
    have hput := window_put j.strcopy 0 (l ++ [0])
    rwa [length_append] at hput
  have hcount : (strtokR n space (put j.strcopy 0 (l ++ [0])) (some 0) j.savePtr).bind
      (fun t => countTokens n space n t 0) = some (0 + (tokens (among space) l).length) :=
    countTokens_eq (p := some 0) 0 hcopy hn hn
  rw [numTokens, strlen_eq h hn]
  simp only [Option.bind_eq_bind, Option.bind_some, strlcpyBytes_eq h hn]
  rw [hcount, zero_add]

theorem pushBytes_eq (k : Nat) (hs : s.top ≤ physBase) :
    pushBytes k s = pushBlocks (replicate k [0]) s := by
  induction k generalizing s with
  | zero => rfl
  | succ k ih =>
    rw [pushBytes, pushByte_eq hs]
    show _ = pushBlocks ([[0]] ++ replicate k [0]) s
    rw [pushBlocks_append]
    exact pushBlocks_bind fun t ht => ih (by omega)

/-- The addresses are pushed from the last to the first. -/
theorem pushPtrs_eq (argvAddr : Nat → Nat) (k : Nat) (hs : s.top ≤ physBase) :
    pushPtrs argvAddr k s =
      pushBlocks ((range k).map fun i => wordBytes (argvAddr i)).reverse s := by
  induction k generalizing s with
  | zero => rfl
  | succ k ih =>
    rw [pushPtrs, pushArgPtr_eq _ hs, range_succ, map_append, reverse_append,
      pushBlocks_append]
    exact pushBlocks_bind fun t ht => ih (by omega)

/-! ## The frame -/

/-- The blocks behind the strings, from the address `top` on. -/
def frameBlocks (argc : Nat) (argvAddr : Nat → Nat) (top : Nat) : List (List CChar) :=
  let pad := wordSize - top % wordSize
  replicate pad [0] ++ [wordBytes 0] ++
    ((range argc).map fun i => wordBytes (argvAddr i)).reverse ++
    [wordBytes (top - pad - 4 - 4 * argc), wordBytes argc, wordBytes 0]

theorem size_words (k : Nat) (f : Nat → Nat) :
    Stack.size ((range k).map fun i => wordBytes (f i)).reverse = 4 * k := by
  induction k with
  | zero => rfl
  | succ k ih =>
    rw [range_succ, map_append, reverse_append, size_append, ih]
    simp
    omega

theorem size_zeros (k : Nat) : Stack.size (replicate k ([0] : List CChar)) = k := by
  induction k with
  | zero => rfl
  | succ k ih =>
    rw [replicate_succ, size_cons, ih, length_singleton]
    omega

theorem pushFrame_eq (argc : Nat) (argvAddr : Nat → Nat) (hs : s.top ≤ physBase) :
    pushFrame argc argvAddr s = pushBlocks (frameBlocks argc argvAddr s.top) s := by
  have hlast (t : Stack CChar) (b c : Nat) (ht : t.top ≤ physBase) :
      (do let u ← pushArgPtr b t; let u ← pushArgPtr c u; pushArgPtr 0 u)
        = pushBlocks [wordBytes b, wordBytes c, wordBytes 0] t := by
    show _ = pushBlocks ([wordBytes b] ++ ([wordBytes c] ++ [wordBytes 0])) t
    rw [pushArgPtr_eq _ ht, pushBlocks_append]
    apply pushBlocks_bind
    intro u hu
    rw [pushArgPtr_eq _ (by omega), pushBlocks_append]
    exact pushBlocks_bind fun v hv => pushArgPtr_eq _ (by omega)
  unfold pushFrame frameBlocks
  simp only [pushBlocks_append, bind_assoc, pushBytes_eq _ hs]
  apply pushBlocks_bind
  intro t ht
  rw [size_zeros] at ht
  rw [pushArgPtr_eq _ (by omega)]
  apply pushBlocks_bind
  intro u hu
  rw [size_cons, size_nil, length_wordBytes] at hu
  rw [pushPtrs_eq _ _ (by omega)]
  apply pushBlocks_bind
  intro v hv
  rw [size_words] at hv
  have hbase : v.top = s.top - (wordSize - s.top % wordSize) - 4 - 4 * argc := by omega
  rw [hlast v _ _ (by omega), hbase]

/-! ## The strings -/

/-- The strings that are pushed, each with its NUL. -/
def strings (toks : List (List CChar)) : List (List CChar) := toks.map (· ++ [0])

/-- Where they begin, when the first is pushed below `top`. -/
def argvAddrs (top : Nat) : List (List CChar) → List Nat
  | [] => []
  | tok :: toks => (top - (tok.length + 1)) :: argvAddrs (top - (tok.length + 1)) toks

theorem size_strings_cons (tok : List CChar) (toks : List (List CChar)) :
    Stack.size (strings (tok :: toks)) = tok.length + 1 + Stack.size (strings toks) := by
  simp [strings]

theorem pushString (tok : List CChar) (h : stackPage + (tok.length + 1) ≤ s.top) :
    ∃ s', pushBlocks [tok ++ [0]] s = .ok s' ∧ s'.top = s.top - (tok.length + 1) := by
  have hsize : size [tok ++ [0]] = tok.length + 1 := by simp
  obtain ⟨s', hs'⟩ : ∃ s', pushBlocks [tok ++ [0]] s = .ok s' :=
    pushAll_ok (by rwa [hsize])
  have htop := (pushAll_frame hs').1
  exact ⟨s', hs', by omega⟩

/-- **The loop**: as long as the strings fit, it pushes them all and notes where they are. -/
theorem argLoop_eq (h : StringAt buf (p.getD save) l) (hn : l.length < n) (hk : l.length < k)
    (hargc : i + (tokens (among space) l).length ≤ argc) (hs : s.top ≤ physBase)
    (hroom : stackPage + Stack.size (strings (tokens (among space) l)) ≤ s.top) :
    ∃ s', pushBlocks (strings (tokens (among space) l)) s = .ok s' ∧
      (ended (strtokR n space buf p save) >>= fun t => argLoop n argc k t i argvAddr s) =
        .ok (some (put argvAddr i (argvAddrs s.top (tokens (among space) l))), s') := by
  -- by the turns that are left; a turn takes one token off the string
  induction k generalizing buf p save l i argvAddr s with
  | zero => omega
  | succ k ih =>
    by_cases hl : l.dropWhile (among space) = []
    · refine ⟨s, ?_, ?_⟩
      · rw [tokens_eq_nil hl]
        rfl
      · rw [strtokR_none h hn hl, tokens_eq_nil hl, argvAddrs, put_nil]
        rfl
    · obtain ⟨a, e, g, hcall, htok, hrest, -⟩ := strtokR_some h hn hl
      have hshort := length_rest_lt hl
      have htoklen := length_parts (among space) l
      rw [tokens_eq_cons hl] at hargc hroom ⊢
      rw [size_strings_cons] at hroom
      rw [length_cons] at hargc
      generalize firstToken (among space) l = tok at htok htoklen hroom ⊢
      -- the string is pushed
      obtain ⟨s1, hpush, htop⟩ := pushString (s := s) tok (by omega)
      have hbase : stackPage = 3221221376 := rfl
      -- and the loop goes on with the rest
      generalize afterToken (among space) l = rest at hrest hshort hargc hroom ⊢
      obtain ⟨s', hblocks, hloop⟩ : ∃ s', pushBlocks (strings (tokens (among space) rest)) s1 = .ok s' ∧
          (ended (strtokR n space g none e) >>= fun t =>
            argLoop n argc k t (i + 1) (put argvAddr i [s1.top]) s1) = .ok (some (put
              (put argvAddr i [s1.top]) (i + 1) (argvAddrs s1.top (tokens (among space) rest))), s') :=
        ih (p := none) hrest (by omega) (by omega) (by omega) (by omega) (by omega)
      refine ⟨s', ?_, ?_⟩
      · show pushBlocks ([tok ++ [0]] ++ strings _) s = _
        rw [pushBlocks_append, hpush, ok_bind, hblocks]
      have hsmall : ¬ maxArgsSize < physBase - s.top := by
        have hmax : maxArgsSize = 4096 := rfl
        have hphys : physBase = 3221225472 := rfl
        omega
      rw [hcall]
      simp only [ended_some, ok_bind, argLoop]
      rw [if_neg hsmall, if_neg (by omega), pushArg_eq htok (by omega) hs, hpush, ok_bind]
      refine hloop.trans ?_
      rw [put_cons, htop]
      rfl

/-! ## The image -/

/-- **The image** of a command line: the blocks in the order in which they are pushed. -/
def image (toks : List (List CChar)) : List (List CChar) :=
  strings toks ++ frameBlocks toks.length (fun i => (argvAddrs physBase toks).getD i 0)
    (physBase - Stack.size (strings toks))

theorem frameBlocks_congr {f g : Nat → Nat} (hfg : ∀ i < argc, f i = g i) :
    frameBlocks argc f top = frameBlocks argc g top := by
  have hmap : ((range argc).map fun i => wordBytes (f i))
      = (range argc).map fun i => wordBytes (g i) :=
    map_congr_left fun i hi => by rw [hfg i (mem_range.mp hi)]
  rw [frameBlocks, hmap]
  rfl

@[simp] theorem length_argvAddrs (top : Nat) (toks : List (List CChar)) :
    (argvAddrs top toks).length = toks.length := by
  induction toks generalizing top with
  | nil => rfl
  | cons tok toks ih => rw [argvAddrs, length_cons, length_cons, ih]

/-- **`start_process` pushes the image** of the tokens, if only the strings fit. -/
theorem startProcess_eq (j : Junk) (cells : Nat → CChar) (h : StringAt buf 0 l) (hn : l.length < n)
    (htoks : tokens (among space) l ≠ [])
    (hroom : Stack.size (strings (tokens (among space) l)) ≤ pgSize) :
    startProcess n j buf cells = pushBlocks (image (tokens (among space) l)) ⟨cells, physBase⟩ := by
  have hl : l.dropWhile (among space) ≠ [] := fun hnil => htoks (tokens_eq_nil hnil)
  have hpg : pgSize = 4096 := rfl
  have hphys : physBase = 3221225472 := rfl
  have hbase : stackPage = 3221221376 := rfl
  have h0 : StringAt buf ((some 0).getD 0) l := h
  obtain ⟨a, e, g, hcall, htok, hrest, -⟩ := strtokR_some h0 hn hl
  have hshort := length_rest_lt hl
  have htoklen := length_parts (among space) l
  rw [tokens_eq_cons hl] at hroom ⊢
  rw [size_strings_cons] at hroom
  generalize firstToken (among space) l = tok at htok htoklen hroom ⊢
  generalize afterToken (among space) l = rest at hrest hshort hroom ⊢
  -- the file name, and then the arguments
  obtain ⟨s1, hpush, htop⟩ := pushString (s := ⟨cells, physBase⟩) tok
    (by show _ ≤ physBase; omega)
  have htop : s1.top = physBase - (tok.length + 1) := htop
  obtain ⟨s2, hblocks, hloop⟩ : ∃ s2, pushBlocks (strings (tokens (among space) rest)) s1 = .ok s2 ∧
      (ended (strtokR n space g (some e) j.savePtr) >>= fun t =>
        argLoop n ((tokens (among space) rest).length + 1) n t 1 (put j.argvAddr 0 [s1.top]) s1) =
        .ok (some (put (put j.argvAddr 0 [s1.top]) (0 + 1)
          (argvAddrs s1.top (tokens (among space) rest))), s2) :=
    argLoop_eq (p := some e) hrest (by omega) (by omega) (by omega) (by omega) (by omega)
  have hargv : ∀ i < (tokens (among space) rest).length + 1, put (put j.argvAddr 0 [s1.top]) (0 + 1)
      (argvAddrs s1.top (tokens (among space) rest)) i =
        (argvAddrs physBase (tok :: tokens (among space) rest)).getD i 0 := by
    intro i hi
    have haddrs : argvAddrs physBase (tok :: tokens (among space) rest)
        = s1.top :: argvAddrs s1.top (tokens (among space) rest) := by rw [htop]; rfl
    have hi : i < (s1.top :: argvAddrs s1.top (tokens (among space) rest)).length := by
      rwa [length_cons, length_argvAddrs]
    have hput := put_of_mem (f := j.argvAddr) (a := 0) hi
    rw [zero_add] at hput
    rw [put_cons, haddrs, hput, getD_eq_getElem _ _ hi]
  have htop2 := (pushAll_frame hblocks).1
  have hsize := size_strings_cons tok (tokens (among space) rest)
  have hstrings : pushBlocks (strings (tok :: tokens (among space) rest)) ⟨cells, physBase⟩ = .ok s2 := by
    show pushBlocks ([tok ++ [0]] ++ strings _) _ = _
    rw [pushBlocks_append, hpush, ok_bind, hblocks]
  have hframe : pushFrame ((tokens (among space) rest).length + 1) _ s2
      = pushBlocks (frameBlocks _ _ s2.top) s2 := pushFrame_eq _ (put (put j.argvAddr 0 [s1.top])
        (0 + 1) (argvAddrs s1.top (tokens (among space) rest))) (by omega)
  rw [frameBlocks_congr hargv] at hframe
  have hargs : pushArguments n j g a e ⟨cells, physBase⟩ = (pushFrame
      ((tokens (among space) rest).length + 1) (put (put j.argvAddr 0 [s1.top]) (0 + 1)
        (argvAddrs s1.top (tokens (among space) rest))) s2 >>= fun s => .ok (1, s)) := by
    rw [pushArguments, numTokens_eq j hrest (by omega)]
    simp only [ended_some, ok_bind]
    rw [pushArg_eq htok (by omega) (le_refl _), hpush, ok_bind, ← bind_assoc, hloop]
    rfl
  rw [image, pushBlocks_append, hstrings, ok_bind, startProcess, hcall]
  simp only [ended_some, ok_bind, hargs, hframe, bind_assoc, bind_pure]
  rw [show physBase - size (strings (tok :: tokens (among space) rest)) = s2.top by omega]
  rfl

/-! ## Decoding -/

def stringsSize (toks : List (List CChar)) : Nat := (toks.map (·.length + 1)).sum

/-- The bytes that everything takes: the strings, one to four bytes of alignment, the pointers with
    a null behind them, and three words. -/
def argsSize (toks : List (List CChar)) : Nat :=
  stringsSize toks + (wordSize - (physBase - stringsSize toks) % wordSize) +
    4 * (toks.length + 1) + 12

theorem size_strings : Stack.size (strings toks) = stringsSize toks := by
  induction toks with
  | nil => rfl
  | cons tok toks ih => rw [size_strings_cons, ih, stringsSize, stringsSize, map_cons, sum_cons]

theorem size_image : Stack.size (image toks) = argsSize toks := by
  rw [image, frameBlocks, argsSize, ← size_strings]
  simp only [size_append, size_zeros, size_words, size_cons, size_nil, length_wordBytes]
  omega

/-- **The words and strings** of a process that begins: at `esp` the return address, `argc` and
    `argv`; then the pointers to the strings and a null; the strings above, apart from each other. -/
structure Layout (g : Nat → CChar) (esp : Nat) (toks : List (List CChar)) : Prop where
  returnAddress : le32 g esp = 0
  argc : le32 g (esp + 4) = toks.length
  argv : le32 g (esp + 8) = esp + 12
  strings : ∀ i (hi : i < toks.length), StringAt g (le32 g (esp + 12 + 4 * i)) toks[i]
  null : le32 g (esp + 12 + 4 * toks.length) = 0
  above : ∀ i (hi : i < toks.length), esp + 12 + 4 * (toks.length + 1) ≤ le32 g (esp + 12 + 4 * i) ∧
    le32 g (esp + 12 + 4 * i) + toks[i].length + 1 ≤ physBase
  apart : ∀ i k (hk : k < toks.length), i < k →
    le32 g (esp + 12 + 4 * k) + toks[k].length + 1 ≤ le32 g (esp + 12 + 4 * i)

/-- **The stack decodes**: the layout, at an address that is a multiple of four. -/
structure Decodes (g : Nat → CChar) (esp : Nat) (toks : List (List CChar)) : Prop
    extends Layout g esp toks where
  aligned : esp % 4 = 0

theorem getElem_argvAddrs {toks : List (List CChar)} (hi : i < (argvAddrs top toks).length) :
    (argvAddrs top toks)[i] = top - stringsSize (toks.take (i + 1)) := by
  induction toks generalizing top i with
  | nil => exact absurd hi (Nat.not_lt_zero i)
  | cons tok toks ih =>
    cases i with
    | zero => simp [argvAddrs, stringsSize]
    | succ i =>
      have hi' : i < (argvAddrs (top - (tok.length + 1)) toks).length := by
        simpa [argvAddrs] using hi
      have hrest := ih hi'
      simp only [argvAddrs, getElem_cons_succ, hrest, stringsSize, take_succ_cons,
        map_cons, sum_cons]
      omega

def padding (toks : List (List CChar)) : Nat := wordSize - (physBase - stringsSize toks) % wordSize

/-- The pointers to the strings `k` of a set of indices. -/
def pointers (toks : List (List CChar)) (ks : List Nat) : List (List CChar) :=
  (ks.map fun k => wordBytes ((argvAddrs physBase toks).getD k 0)).reverse

theorem image_eq :
    image toks = strings toks ++ (replicate (padding toks) [0] ++ (wordBytes 0 ::
      (pointers toks (range toks.length) ++
        [wordBytes (physBase - stringsSize toks - padding toks - 4 - 4 * toks.length),
          wordBytes toks.length, wordBytes 0]))) := by
  rw [image, frameBlocks, size_strings]
  simp only [append_assoc, singleton_append]
  rfl

theorem size_pointers (k : Nat) : Stack.size (pointers toks (range k)) = 4 * k :=
  size_words k _

theorem stringsSize_append (a b : List (List CChar)) :
    stringsSize (a ++ b) = stringsSize a + stringsSize b := by
  rw [stringsSize, map_append, sum_append, stringsSize, stringsSize]

theorem stringsSize_take_succ {toks : List (List CChar)} (hi : i < toks.length) :
    stringsSize (toks.take (i + 1)) = stringsSize (toks.take i) + (toks[i].length + 1) := by
  rw [take_add_one, getElem?_eq_getElem hi, stringsSize_append]
  simp [stringsSize]

theorem stringsSize_take_mono {m : Nat} (him : i ≤ m) :
    stringsSize (toks.take i) ≤ stringsSize (toks.take m) := by
  have hsplit : toks.take m = (toks.take m).take i ++ (toks.take m).drop i :=
    (take_append_drop i _).symm
  rw [hsplit, stringsSize_append, take_take, Nat.min_eq_left him]
  exact Nat.le_add_right _ _

theorem stringsSize_take_le (i : Nat) : stringsSize (toks.take i) ≤ stringsSize toks := by
  conv => rhs; rw [← take_append_drop i toks, stringsSize_append]
  exact Nat.le_add_right _ _

section

variable {toks pre post : List (List CChar)} {x : Nat} {cells : Nat → CChar}
  (h : pushBlocks (image toks) ⟨cells, physBase⟩ = .ok s')

include h

theorem top_add_argsSize : s'.top + argsSize toks = physBase := by
  have := (pushAll_frame h).1
  rwa [size_image] at this

theorem word_at (hsplit : image toks = pre ++ wordBytes x :: post) (hx : x < 4294967296) :
    le32 s'.cells (s'.top + Stack.size post) = x := by
  have htop := (pushAll_frame h).1
  rw [hsplit, size_append, size_cons, length_wordBytes] at htop
  rw [hsplit] at h
  have hw := window_pushAll h
  have haddr : physBase - size pre - 4 = s'.top + size post := by
    have htop : s'.top + (size pre + (4 + size post)) = physBase := htop
    omega
  apply le32_encode hx
  intro k hk
  rw [← haddr]
  exact map_inj_left.mp hw k (mem_range.mpr hk)

/-- The pointer to an argument: the pointers before it are pushed after it. -/
theorem pointer_at (hi : i < toks.length) :
    le32 s'.cells (s'.top + 12 + 4 * i) = physBase - stringsSize (toks.take (i + 1)) := by
  have haddr : (argvAddrs physBase toks).getD i 0 = physBase - stringsSize (toks.take (i + 1)) := by
    have hi' : i < (argvAddrs physBase toks).length := by rwa [length_argvAddrs]
    rw [getD_eq_getElem _ _ hi', getElem_argvAddrs]
  have hrange : range toks.length
      = range i ++ i :: (range (toks.length - i - 1)).map (i + 1 + ·) := by
    obtain ⟨m, hm⟩ := Nat.exists_eq_add_of_lt hi
    rw [hm, show i + m + 1 - i - 1 = m by omega, show i + m + 1 = i + 1 + m by omega,
      range_add, range_succ, append_assoc]
    rfl
  have hsplit := image_eq toks
  have hpointers : pointers toks (range toks.length)
      = pointers toks ((range (toks.length - i - 1)).map (i + 1 + ·)) ++
        (wordBytes ((argvAddrs physBase toks).getD i 0) :: pointers toks (range i)) := by
    rw [hrange, pointers, map_append, reverse_append, map_cons, reverse_cons, append_assoc]
    rfl
  rw [hpointers, append_assoc, cons_append, ← cons_append, ← append_assoc, ← append_assoc] at hsplit
  have hphys : physBase = 3221225472 := rfl
  have hword := word_at h hsplit (by rw [haddr]; omega)
  rw [size_append, size_pointers, size_cons, size_cons, size_cons,
    size_nil, length_wordBytes, length_wordBytes, length_wordBytes, haddr] at hword
  rwa [show s'.top + 12 + 4 * i = s'.top + (4 * i + (4 + (4 + (4 + 0)))) by omega]

theorem string_at (hi : i < toks.length) (hzero : 0 ∉ toks[i]) :
    StringAt s'.cells (physBase - stringsSize (toks.take (i + 1))) toks[i] := by
  have hstrings : strings toks
      = strings (toks.take i) ++ (toks[i] ++ [0]) :: strings (toks.drop (i + 1)) := by
    conv => lhs; rw [← take_append_drop i toks, ← cons_getElem_drop_succ (h := hi)]
    simp only [strings, map_append, map_cons]
  rw [image_eq, hstrings, append_assoc, cons_append] at h
  have hw := window_pushAll h
  apply StringAt.of_window hzero
  rw [stringsSize_take_succ hi, ← size_strings]
  rw [length_append, length_singleton] at hw
  rwa [Nat.sub_add_eq]

/-- **The image has the layout** of the tokens, if it fits into the page. -/
theorem layout (hsize : argsSize toks ≤ pgSize) (hzero : ∀ tok ∈ toks, 0 ∉ tok) :
    Layout s'.cells s'.top toks := by
  have hphys : physBase = 3221225472 := rfl
  have hpg : pgSize = 4096 := rfl
  have htop := top_add_argsSize h
  have hargs : argsSize toks = stringsSize toks + padding toks + 4 * (toks.length + 1) + 12 := rfl
  obtain ⟨base, hbase⟩ : ∃ base,
      physBase - stringsSize toks - padding toks - 4 - 4 * toks.length = base := ⟨_, rfl⟩
  -- the three words at the end
  obtain ⟨pre, hend⟩ : ∃ pre,
      image toks = pre ++ [wordBytes base, wordBytes toks.length, wordBytes 0] := by
    rw [image_eq, ← cons_append, ← append_assoc, ← append_assoc, hbase]
    exact ⟨_, rfl⟩
  have hret : image toks = (pre ++ [wordBytes base, wordBytes toks.length]) ++ wordBytes 0 :: [] := by
    rw [hend, append_assoc]
    rfl
  have hargc : image toks = (pre ++ [wordBytes base]) ++ wordBytes toks.length :: [wordBytes 0] := by
    rw [hend, append_assoc]
    rfl
  constructor
  case returnAddress => exact word_at h hret (by decide)
  case argc => exact word_at h hargc (by omega)
  case argv =>
    have hargv := word_at h hend (by omega)
    rwa [show s'.top + 12 = base by omega]
  case null =>
    have hnull := image_eq toks
    rw [← append_assoc] at hnull
    have hzeroWord := word_at h hnull (by decide)
    rw [size_append, size_pointers] at hzeroWord
    rwa [show s'.top + 12 + 4 * toks.length = s'.top + (4 * toks.length + 12) by omega]
  case strings =>
    intro i hi
    rw [pointer_at h hi]
    exact string_at h hi (hzero _ (getElem_mem hi))
  case above =>
    intro i hi
    have hle := stringsSize_take_le toks (i + 1)
    have hsucc := stringsSize_take_succ hi
    rw [pointer_at h hi]
    omega
  case apart =>
    intro i k hk hik
    have hmono := stringsSize_take_mono toks (show i + 1 ≤ k by omega)
    have hle := stringsSize_take_le toks (k + 1)
    have hsucc := stringsSize_take_succ hk
    rw [pointer_at h hk, pointer_at h (by omega)]
    omega

/-- `4 - esp % 4` bytes align the stack only if `esp` was even. -/
theorem aligned_iff (hsize : argsSize toks ≤ pgSize) :
    s'.top % 4 = 0 ↔ stringsSize toks % 2 = 0 := by
  have hphys : physBase = 3221225472 := rfl
  have hpg : pgSize = 4096 := rfl
  have htop := top_add_argsSize h
  have hargs : argsSize toks = stringsSize toks + (4 - (physBase - stringsSize toks) % 4) +
    4 * (toks.length + 1) + 12 := rfl
  omega

end

end

/-! ## The results -/

section

abbrev args (l : List CChar) : List (List CChar) := tokens (among space) l

variable {n : Nat} (j : Junk) {fnCopy : Nat → CChar} (cells : Nat → CChar) {l : List CChar}

/-- **Enough room**: the process is started, with the layout of its arguments. -/
theorem startProcess_ok (h : StringAt fnCopy 0 l) (hn : l.length < n) (htoks : args l ≠ [])
    (hsize : argsSize (args l) ≤ pgSize) :
    ∃ s, startProcess n j fnCopy cells = .ok s ∧ Layout s.cells s.top (args l) ∧
      (s.top % 4 = 0 ↔ stringsSize (args l) % 2 = 0) := by
  have hstrings : stringsSize (args l) ≤ argsSize (args l) := by
    rw [argsSize]
    omega
  obtain ⟨s, hs⟩ : ∃ s, pushBlocks (image (args l)) ⟨cells, physBase⟩ = .ok s := by
    apply pushAll_ok
    rw [size_image]
    show stackPage + _ ≤ physBase
    have hbase : stackPage + pgSize = physBase := rfl
    omega
  refine ⟨s, ?_, layout hs hsize ?_, aligned_iff hs hsize⟩
  · rw [startProcess_eq j cells h hn htoks (by rw [size_strings]; exact le_trans hstrings hsize), hs]
  · intro tok htok hmem
    exact h.zero_not_mem (mem_of_mem_tokens htok hmem)

/-- **Not enough room**: the kernel stores below the page. -/
theorem startProcess_fault (h : StringAt fnCopy 0 l) (hn : l.length < n) (htoks : args l ≠ [])
    (hstrings : stringsSize (args l) ≤ pgSize) (hsize : pgSize < argsSize (args l)) :
    ∃ a < stackPage, startProcess n j fnCopy cells = .error (.fault a) := by
  have hbase : stackPage + pgSize = physBase := rfl
  rw [startProcess_eq j cells h hn htoks (by rwa [size_strings])]
  apply pushAll_fault
  · decide
  · exact le_of_lt (show stackPage < physBase by decide)
  · rw [size_image]
    show physBase < stackPage + argsSize (args l)
    omega

/-- **The initial stack** decodes to the command line exactly when its strings take an even number
    of bytes, and the bytes of alignment that are pushed fit too. -/
theorem argument_stack_iff (h : StringAt fnCopy 0 l) (hn : l.length < n) (htoks : args l ≠ [])
    (hroom : stringsSize (args l) + 4 * ((args l).length + 1) + 12 ≤ pgSize) :
    (∃ s, startProcess n j fnCopy cells = .ok s ∧ Decodes s.cells s.top (args l)) ↔
      stringsSize (args l) % 2 = 0 ∧ argsSize (args l) ≤ pgSize := by
  rcases lt_or_ge pgSize (argsSize (args l)) with hbig | hsize
  · obtain ⟨a, -, hfault⟩ := startProcess_fault j cells h hn htoks (by omega) hbig
    constructor
    · rintro ⟨s, hs, -⟩
      rw [hfault] at hs
      cases hs
    · rintro ⟨-, hle⟩
      omega
  · obtain ⟨s, hs, hlayout, haligned⟩ := startProcess_ok j cells h hn htoks hsize
    constructor
    · rintro ⟨s', hs', hdec⟩
      rw [hs] at hs'
      cases hs'
      exact ⟨haligned.mp hdec.aligned, hsize⟩
    · rintro ⟨heven, -⟩
      exact ⟨s, hs, hlayout, haligned.mpr heven⟩

def zeroJunk : Junk := ⟨fun _ => 0, fun _ => 0, 0⟩

/-- A page with a command line in it. -/
def commandLine (l : List CChar) : Nat → CChar := put (fun _ => 0) 0 l

/-- The command line `ls -l`, with six bytes of strings. -/
theorem argument_stack_ls : ∃ s,
    startProcess 8 zeroJunk (commandLine [108#8, 115#8, 32#8, 45#8, 108#8]) (fun _ => 0) = .ok s ∧
      Decodes s.cells s.top [[108#8, 115#8], [45#8, 108#8]] :=
  (argument_stack_iff (l := [108#8, 115#8, 32#8, 45#8, 108#8]) zeroJunk (fun _ => 0) (by decide)
    (by decide) (by decide) (by decide)).mpr (by decide)

/-- The command line `ab`, with three bytes of strings: `esp` is no multiple of four. -/
theorem argument_stack_odd :
    args [97#8, 98#8] = [[97#8, 98#8]] ∧
    stringsSize [[97#8, 98#8]] + 4 * (1 + 1) + 12 ≤ pgSize ∧
    ∃ s, startProcess 8 zeroJunk (commandLine [97#8, 98#8]) (fun _ => 0) = .ok s ∧
      s.top = 3221225446 ∧ s.top % 4 = 2 :=
  ⟨by decide, by decide, _, rfl, by decide, by decide⟩

/-- **The page is not left** exactly when everything fits into it; and no process is started with
    part of its stack. -/
theorem arguments_in_page_iff (h : StringAt fnCopy 0 l) (hn : l.length < n)
    (hcopy : l.length < pgSize) (htoks : args l ≠ []) :
    ((∀ a, startProcess n j fnCopy cells ≠ .error (.fault a)) ∧
      ∀ s, startProcess n j fnCopy cells = .ok s → Layout s.cells s.top (args l)) ↔
      argsSize (args l) ≤ pgSize := by
  -- the strings of a command line that fits are not longer than its copy
  have hstrings : stringsSize (args l) ≤ l.length + 1 := sum_length_tokens_le (among space) l
  rcases lt_or_ge pgSize (argsSize (args l)) with hbig | hsize
  · obtain ⟨a, -, hfault⟩ := startProcess_fault j cells h hn htoks (by omega) hbig
    constructor
    · rintro ⟨hno, -⟩
      exact absurd hfault (hno a)
    · intro hle
      omega
  · obtain ⟨s, hs, hlayout, -⟩ := startProcess_ok j cells h hn htoks hsize
    refine ⟨fun _ => hsize, fun _ => ⟨?_, ?_⟩⟩
    · intro a ha
      rw [hs] at ha
      cases ha
    · intro s' hs'
      rw [hs] at hs'
      cases hs'
      exact hlayout

/-- The command line `ls -l` stays in the page. -/
theorem arguments_in_page_ls :
    argsSize [[108#8, 115#8], [45#8, 108#8]] ≤ pgSize ∧ ∀ a,
      startProcess 8 zeroJunk (commandLine [108#8, 115#8, 32#8, 45#8, 108#8]) (fun _ => 0)
        ≠ .error (.fault a) :=
  ⟨by decide, ((arguments_in_page_iff (l := [108#8, 115#8, 32#8, 45#8, 108#8]) zeroJunk
    (fun _ => 0) (by decide) (by decide) (by decide) (by decide)).mpr (by decide)).1⟩

theorem stringAt_commandLine (hl : 0 ∉ l) : StringAt (commandLine l) 0 l := by
  apply StringAt.of_window hl
  have hend : window (commandLine l) (0 + l.length) 1 = [0] := by
    show [put (fun _ => 0) 0 l (0 + l.length + 0)] = [0]
    rw [put_of_not_mem (by omega)]
  rw [window_add, hend]
  exact congrArg (· ++ [0]) (window_put _ 0 l)

/-- A program with a name of one letter and `k` arguments `b`. -/
def withArguments (name : CChar) (k : Nat) : List CChar :=
  name :: (replicate k [32#8, 98#8]).flatten

theorem args_withArguments {c : CChar} (hc : among space c = false) (k : Nat) :
    args (withArguments c k) = [c] :: replicate k [98#8] := by
  induction k generalizing c with
  | zero =>
    show tokens (among space) [c] = [[c]]
    exact (tokens_run (by simpa using hc) (by simp)).1
  | succ k ih =>
    show tokens (among space) ([c] ++ 32#8 :: withArguments 98#8 k) = _
    rw [(tokens_run (by simpa using hc) (by simp)).2 _ _ (by decide), ← args, ih (by decide)]
    rfl

/-- With 679 arguments and more the pointers do not fit, though the strings do. -/
theorem withArguments_fault {k : Nat} (hlo : 679 ≤ k) (hhi : k ≤ 2047) :
    ∃ a < stackPage, startProcess 4096 zeroJunk (commandLine (withArguments 97#8 k))
      (fun _ => 0) = .error (.fault a) := by
  have hsize : pgSize = 4096 := rfl
  have htoks := args_withArguments (c := 97#8) (by decide) k
  have hstrings : stringsSize ([97#8] :: replicate k [98#8]) = 2 * k + 2 := by
    simp [stringsSize]
    omega
  apply startProcess_fault _ _ (stringAt_commandLine (by simp [withArguments]))
  · simp [withArguments]
    omega
  · simp [htoks]
  · rw [htoks, hstrings]
    omega
  · rw [htoks, argsSize, hstrings, length_cons, length_replicate]
    have := Nat.mod_lt (physBase - (2 * k + 2)) (show 0 < wordSize by decide)
    omega

/-- The program `a` with 700 arguments: a line of 1401 characters. -/
theorem arguments_leave_page : 2 * 700 + 1 < pgSize ∧
    ∃ a < stackPage, startProcess 4096 zeroJunk (commandLine (withArguments 97#8 700))
      (fun _ => 0) = .error (.fault a) :=
  ⟨by decide, withArguments_fault (by decide) (by decide)⟩

end

end Pintos.Userprog.Arguments
