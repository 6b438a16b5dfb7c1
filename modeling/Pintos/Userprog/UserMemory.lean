/-
  The memory of a user process, as the kernel sees it during a system call.

  The kernel follows user pointers directly.  A byte it touches is at a MAPPED USER ADDRESS or the
  access is illegal, and the computation stops there (`Stop.illegal`).

  1. **Loads** — bytes and little-endian words.
  2. **Strings** — `strlen`, `strlcpy` and `strcmp` of `lib/string.c` on a string in user memory.
  3. **Buffers** — `putbuf`, and the sector loop of `inode_read_at` and `inode_write_at`.

  Each of them touches only bytes of the string or the buffer it was given (`Touches`).
-/
import Pintos.Base.Stops
import Pintos.Userprog.PageDir

namespace Pintos.Userprog

open Base Stops

/-- The page directory of the current thread, and what user memory holds. -/
structure UserMemory where
  pagedir : PageDir
  byte : Nat → UInt8

inductive Stop where
  /-- The kernel touched a byte that is not at a mapped user address. -/
  | illegal (a : Nat)
  /-- `exit (status)`. -/
  | exit (status : Int)
  /-- `shutdown_power_off`. -/
  | halt
  /-- A failed assertion. -/
  | panic
  deriving DecidableEq

namespace UserMemory

variable (m : UserMemory)

def mapped (a : Nat) : Bool := isUserVaddr a && (pagedirGetPage m.pagedir a).isSome

/-! ## Loads -/

def loadByte (a : Nat) : Except Stop UInt8 :=
  if m.mapped a then .ok (m.byte a) else .error (.illegal a)

/-- The address of byte `i` of what is at `p`. -/
def byteAddr (p i : Nat) : Nat := (p + i) % addrSpace

/-- What the word at `w` holds. -/
def word (w : Nat) : Nat := (m.byte (byteAddr w 0)).toNat + 256 * (m.byte (byteAddr w 1)).toNat +
    65536 * (m.byte (byteAddr w 2)).toNat + 16777216 * (m.byte (byteAddr w 3)).toNat

/-- Touch the bytes at `p`, the first `n` of them. -/
def touchBytes (p : Nat) : Nat → Except Stop Unit
  | 0 => .ok ()
  | n + 1 => do
    touchBytes p n
    let _ ← m.loadByte (byteAddr p n)

/-- `*w` for a `uint32_t *`. -/
def loadWord (w : Nat) : Except Stop Nat := do
  m.touchBytes w 4
  return m.word w

/-! ## Strings -/

def strlen (p : Nat) : Except Stop Nat :=
  if h : m.mapped p = true then
    if m.byte p = 0 then .ok 0
    else do
      let n ← strlen (p + 1)
      return n + 1
  else .error (.illegal p)
termination_by physBase - p
decreasing_by
  have : p < physBase := of_decide_eq_true (Bool.and_eq_true_iff.mp h).1
  omega

/-- `strlcpy (dst, p, size)` for a kernel buffer `dst`: the string it holds afterwards. -/
def strlcpy (p size : Nat) : Except Stop (List UInt8) := do
  let srcLen ← m.strlen p
  if 0 < size then
    let dstLen := min srcLen (size - 1)
    m.touchBytes p dstLen
    return (List.range dstLen).map fun i => m.byte (byteAddr p i)
  else return []

/-- `!strcmp (p, b)` for a kernel string `b`, without its terminator. -/
def strcmp : Nat → List UInt8 → Except Stop Bool
  | p, [] => do
    let c ← m.loadByte p
    return c = 0
  | p, b :: bs => do
    let c ← m.loadByte p
    if c ≠ 0 ∧ c = b then strcmp (p + 1) bs else return c = b

/-! ## Buffers -/

def putbuf (buffer n : Nat) : Except Stop Unit := m.touchBytes buffer n

def maxBuffer : Nat := 255

/-- The loop of `write` to the console, and the `putbuf` after it. -/
def writeConsole (buffer bufferPos sizeCount : Nat) : Except Stop Unit :=
  if maxBuffer < sizeCount then do
    m.putbuf (byteAddr buffer bufferPos) maxBuffer
    writeConsole buffer (bufferPos + maxBuffer) (sizeCount - maxBuffer)
  else m.putbuf (byteAddr buffer bufferPos) sizeCount
termination_by sizeCount
decreasing_by
  simp only [maxBuffer] at *
  omega

/-- The loop of `inode_read_at` and `inode_write_at` over the sectors of an inode: how many bytes
    are copied.  A part of a sector goes through a `bounce` buffer, if there is memory for one. -/
def copySectors (length : Nat) (bounce : Bool) (buffer size offset : Nat) : Except Stop Nat :=
  let sectorOfs := offset % 512
  let minLeft := min (length - offset) (512 - sectorOfs)
  let chunkSize := min size minLeft
  if _h : chunkSize = 0 then .ok 0
  else if (sectorOfs = 0 ∧ chunkSize = 512) ∨ bounce = true then do
    m.touchBytes buffer chunkSize
    let n ← copySectors length bounce (byteAddr buffer chunkSize) (size - chunkSize)
      (offset + chunkSize)
    return n + chunkSize
  else .ok 0
termination_by size
decreasing_by omega

end UserMemory

/-! ## What is touched -/

/-- A computation touches only bytes in `S`, and ends no process. -/
def Touches (m : UserMemory) (S : Nat → Prop) {α : Type} (x : Except Stop α) : Prop :=
  Stops (fun e => e = .panic ∨ ∃ a, S a ∧ m.mapped a = false ∧ e = .illegal a) x

/-- `a` is a byte of the string at `p`: there is no terminator before it, and all before it are
    mapped. -/
def UserMemory.StringByte (m : UserMemory) (p a : Nat) : Prop :=
  ∃ k, a = p + k ∧ ∀ l < k, m.mapped (p + l) = true ∧ m.byte (p + l) ≠ 0

/-- `a` is one of the `n` bytes at `p`. -/
def BufferByte (p n a : Nat) : Prop := ∃ i < n, a = UserMemory.byteAddr p i

variable {a : Nat}

namespace Touches

variable {m : UserMemory} {S S' : Nat → Prop} {α : Type} {x : Except Stop α}

theorem mono (h : Touches m S x) (hS : ∀ a, S a → S' a) : Touches m S' x :=
  Stops.mono h fun _ he => he.imp_right fun ⟨a, ha, hx⟩ => ⟨a, hS a ha, hx⟩

theorem not_exit (h : Touches m S x) (status : Int) : x ≠ .error (.exit status) := by
  intro hx
  rcases h _ hx with he | ⟨a, -, -, he⟩ <;> cases he

theorem legal (h : Touches m S x) (hS : ∀ a, S a → m.mapped a = true) (a : Nat) :
    x ≠ .error (.illegal a) := by
  intro hx
  rcases h _ hx with he | ⟨b, hb, hm, -⟩
  · cases he
  · rw [hS b hb] at hm
    cases hm

theorem loadByte (h : S a) : Touches m S (m.loadByte a) := by
  refine ite (fun _ => ok _) fun hm => error ?_
  exact Or.inr ⟨a, h, by simpa using hm, rfl⟩

theorem touchBytes {p : Nat} : ∀ {n : Nat}, (∀ i < n, S (UserMemory.byteAddr p i)) →
    Touches m S (m.touchBytes p n)
  | 0, _ => Stops.ok _
  | n + 1, h => by
    refine Stops.bind (touchBytes fun i hi => h i (by omega)) fun _ _ => ?_
    exact Stops.bind (loadByte (h n (by omega))) fun _ _ => Stops.ok _

end Touches

namespace UserMemory

variable {m : UserMemory} {p n size buffer : Nat}

theorem lt_physBase (h : m.mapped a = true) : a < physBase :=
  of_decide_eq_true (Bool.and_eq_true_iff.mp h).1

theorem byteAddr_of_mapped {i : Nat} (h : m.mapped (p + i) = true) : byteAddr p i = p + i := by
  have := lt_physBase h
  simp only [physBase] at this
  exact Nat.mod_eq_of_lt (by simp only [addrSpace]; omega)

theorem byteAddr_byteAddr (i j : Nat) : byteAddr (byteAddr p i) j = byteAddr p (i + j) := by
  simp only [byteAddr, addrSpace]
  omega

theorem StringByte.tail (hp : m.mapped p = true) (h0 : m.byte p ≠ 0)
    (h : m.StringByte (p + 1) a) : m.StringByte p a := by
  obtain ⟨k, rfl, hk⟩ := h
  refine ⟨k + 1, by omega, fun l hl => ?_⟩
  cases l with
  | zero => exact ⟨hp, h0⟩
  | succ l =>
    have := hk l (by omega)
    rwa [show p + 1 + l = p + (l + 1) from by omega] at this

theorem StringByte.head : m.StringByte p p := ⟨0, rfl, fun _ hl => absurd hl (by omega)⟩

theorem touches_strlen : Touches m (m.StringByte p) (m.strlen p) := by
  induction p using strlen.induct m with
  | case1 p hp h0 =>
    rw [strlen, dif_pos hp, if_pos h0]
    exact ok _
  | case2 p hp h0 ih =>
    rw [strlen, dif_pos hp, if_neg h0]
    refine bind (ih.mono fun a ha => ha.tail hp h0) fun _ _ => ok _
  | case3 p hp =>
    rw [strlen, dif_neg hp]
    exact error (Or.inr ⟨p, StringByte.head, by simpa using hp, rfl⟩)

/-- The bytes up to the length it returns are mapped and belong to the string. -/
theorem strlen_ok (h : m.strlen p = .ok n) :
    ∀ i ≤ n, m.mapped (p + i) = true ∧ m.StringByte p (p + i) := by
  induction p using strlen.induct m generalizing n with
  | case1 p hp h0 =>
    rw [strlen, dif_pos hp, if_pos h0] at h
    cases h
    intro i hi
    obtain rfl : i = 0 := by omega
    exact ⟨hp, StringByte.head⟩
  | case2 p hp h0 ih =>
    rw [strlen, dif_pos hp, if_neg h0] at h
    cases hr : m.strlen (p + 1) with
    | error =>
      rw [hr] at h
      cases h
    | ok k =>
      rw [hr] at h
      obtain rfl : k + 1 = n := Except.ok.inj h
      intro i hi
      cases i with
      | zero => exact ⟨hp, StringByte.head⟩
      | succ i =>
        have := ih hr i (by omega)
        rw [show p + 1 + i = p + (i + 1) from by omega] at this
        exact ⟨this.1, this.2.tail hp h0⟩
  | case3 p hp =>
    rw [strlen, dif_neg hp] at h
    cases h

theorem touches_strlcpy : Touches m (m.StringByte p) (m.strlcpy p size) := by
  refine bind touches_strlen fun n hn => ite (fun _ => ?_) fun _ => ok _
  refine bind (Touches.touchBytes fun i hi => ?_) fun _ _ => ok _
  obtain ⟨hm, hb⟩ := strlen_ok hn i (by omega)
  rwa [byteAddr_of_mapped hm]

theorem touches_strcmp {b : List UInt8} : Touches m (m.StringByte p) (m.strcmp p b) := by
  induction b generalizing p with
  | nil => exact bind (Touches.loadByte StringByte.head) fun _ _ => ok _
  | cons c cs ih =>
    refine bind (Touches.loadByte StringByte.head) fun x hx => ?_
    refine ite (fun hc => ?_) fun _ => ok _
    -- the byte was loaded, so it is mapped, and it is no terminator
    have hp : m.mapped p = true ∧ m.byte p = x := by
      simp only [UserMemory.loadByte] at hx
      split at hx
      · exact ⟨‹_›, Except.ok.inj hx⟩
      · cases hx
    exact ih.mono fun a ha => ha.tail hp.1 (hp.2 ▸ hc.1)

theorem touches_writeConsole {pos : Nat} :
    Touches m (BufferByte buffer (pos + n)) (m.writeConsole buffer pos n) := by
  have hput : ∀ {pos k n : Nat}, k ≤ n →
      Touches m (BufferByte buffer (pos + n)) (m.putbuf (byteAddr buffer pos) k) := by
    intro pos k n hk
    refine Touches.touchBytes fun i hi => ⟨pos + i, by omega, byteAddr_byteAddr ..⟩
  induction pos, n using writeConsole.induct with
  | case1 pos n hn ih =>
    rw [writeConsole, if_pos hn]
    refine Stops.bind (hput (by omega)) fun _ _ => ?_
    exact ih.mono fun a ⟨i, hi, ha⟩ => ⟨i, by omega, ha⟩
  | case2 pos n hn =>
    rw [writeConsole, if_neg hn]
    exact hput (Nat.le_refl _)

theorem touches_copySectors {length offset : Nat} {bounce : Bool} :
    Touches m (BufferByte buffer size) (m.copySectors length bounce buffer size offset) := by
  induction buffer, size, offset using copySectors.induct length bounce with
  | case1 buffer size offset sectorOfs minLeft chunkSize h =>
    rw [copySectors, dif_pos h]
    exact ok _
  | case2 buffer size offset sectorOfs minLeft chunkSize h hc ih =>
    rw [copySectors, dif_neg h, if_pos hc]
    have hle : chunkSize ≤ size := Nat.min_le_left ..
    refine bind (Touches.touchBytes fun i hi => ⟨i, by omega, rfl⟩) fun _ _ => ?_
    refine bind (ih.mono ?_) fun _ _ => ok _
    rintro a ⟨i, hi, rfl⟩
    exact ⟨chunkSize + i, by omega, byteAddr_byteAddr ..⟩
  | case3 buffer size offset sectorOfs minLeft chunkSize h hc =>
    rw [copySectors, dif_neg h, if_neg hc]
    exact ok _

end UserMemory

end Pintos.Userprog
