/-
  A stack that grows downwards in an array of cells.

  `push` writes a block right below the top and makes it the top.  There are no cells below `lo`: a
  block that would reach there stops the computation, with the address where it would begin.

  1. **Room** — a sequence of blocks is pushed exactly when all of it fits (`pushAll_ok`,
     `pushAll_fault`).

  2. **Layout** — where a block begins depends on the sizes of the blocks before it only, and what is
     pushed later does not touch it (`window_pushAll`).
-/
import Pintos.Base.Stops
import Pintos.Base.Bytes
import Mathlib

namespace Pintos.Base

/-- Cells, and the lowest of them that is in use. -/
structure Stack (β : Type) where
  cells : Nat → β
  top : Nat

namespace Stack

variable {β ε : Type} (fault : Nat → ε) (lo : Nat)

def push (bs : List β) (s : Stack β) : Except ε (Stack β) :=
  if lo + bs.length ≤ s.top then .ok ⟨put s.cells (s.top - bs.length) bs, s.top - bs.length⟩
  else .error (fault (s.top - bs.length))

def pushAll : List (List β) → Stack β → Except ε (Stack β)
  | [], s => .ok s
  | bs :: bss, s => push fault lo bs s >>= pushAll bss

/-- The cells that blocks take. -/
def size (bss : List (List β)) : Nat := (bss.map List.length).sum

@[simp] theorem size_nil : size ([] : List (List β)) = 0 := rfl

@[simp] theorem size_cons (bs : List β) (bss : List (List β)) :
    size (bs :: bss) = bs.length + size bss := by
  rw [size, List.map_cons, List.sum_cons, size]

@[simp] theorem size_append (a b : List (List β)) : size (a ++ b) = size a + size b := by
  rw [size, List.map_append, List.sum_append, size, size]

variable {fault lo} {bs : List β} {bss pre post : List (List β)} {s s' : Stack β}

theorem pushAll_append (a b : List (List β)) (s : Stack β) :
    pushAll fault lo (a ++ b) s = pushAll fault lo a s >>= pushAll fault lo b := by
  induction a generalizing s with
  | nil => rfl
  | cons bs a ih =>
    show push fault lo bs s >>= pushAll fault lo (a ++ b)
      = (push fault lo bs s >>= pushAll fault lo a) >>= pushAll fault lo b
    cases push fault lo bs s with
    | error => rfl
    | ok t => exact ih t

theorem pushAll_single (bs : List β) (s : Stack β) :
    pushAll fault lo [bs] s = push fault lo bs s := by
  show push fault lo bs s >>= (fun t => .ok t) = push fault lo bs s
  cases push fault lo bs s <;> rfl

/-- What comes after some blocks starts below them. -/
theorem pushAll_bind_congr {α : Type} {f g : Stack β → Except ε α}
    (hfg : ∀ t, pushAll fault lo bss s = .ok t → f t = g t) :
    pushAll fault lo bss s >>= f = pushAll fault lo bss s >>= g := by
  cases hpush : pushAll fault lo bss s with
  | error => rfl
  | ok t => exact hfg t hpush

theorem push_eq_ok : push fault lo bs s = .ok s' ↔
    lo + bs.length ≤ s.top ∧ s' = ⟨put s.cells (s.top - bs.length) bs, s.top - bs.length⟩ := by
  unfold push
  split
  next h =>
    constructor
    · intro he
      cases he
      exact ⟨h, rfl⟩
    · rintro ⟨-, rfl⟩
      rfl
  next h =>
    constructor
    · intro he
      cases he
    · intro he
      exact absurd he.1 h

/-- **Room**: blocks that fit are pushed. -/
theorem pushAll_ok (h : lo + size bss ≤ s.top) : ∃ s', pushAll fault lo bss s = .ok s' := by
  induction bss generalizing s with
  | nil => exact ⟨s, rfl⟩
  | cons bs bss ih =>
    rw [size_cons] at h
    have hpush : push fault lo bs s = .ok ⟨put s.cells (s.top - bs.length) bs, s.top - bs.length⟩ :=
      push_eq_ok.mpr ⟨by omega, rfl⟩
    obtain ⟨s', hs'⟩ := ih (s := ⟨put s.cells (s.top - bs.length) bs, s.top - bs.length⟩)
      (by show _ ≤ s.top - bs.length; omega)
    exact ⟨s', by rw [pushAll, hpush, ok_bind, hs']⟩

/-- Blocks that do not fit stop at a cell below `lo`. -/
theorem pushAll_fault (hlo : 0 < lo) (hs : lo ≤ s.top) (h : s.top < lo + size bss) :
    ∃ a < lo, pushAll fault lo bss s = .error (fault a) := by
  induction bss generalizing s with
  | nil =>
    rw [size_nil] at h
    omega
  | cons bs bss ih =>
    rw [size_cons] at h
    by_cases hfit : lo + bs.length ≤ s.top
    · have hpush : push fault lo bs s
          = .ok ⟨put s.cells (s.top - bs.length) bs, s.top - bs.length⟩ :=
        push_eq_ok.mpr ⟨hfit, rfl⟩
      obtain ⟨a, ha, hfault⟩ := ih (s := ⟨put s.cells (s.top - bs.length) bs, s.top - bs.length⟩)
        (by show _ ≤ s.top - bs.length; omega) (by show s.top - bs.length < _; omega)
      exact ⟨a, ha, by rw [pushAll, hpush, ok_bind, hfault]⟩
    · refine ⟨s.top - bs.length, by omega, ?_⟩
      rw [pushAll, push, if_neg hfit]
      rfl

/-- Where the top is afterwards, and that nothing above the old one has changed. -/
theorem pushAll_frame (h : pushAll fault lo bss s = .ok s') :
    s'.top + size bss = s.top ∧ ∀ k, s.top ≤ k → s'.cells k = s.cells k := by
  induction bss generalizing s with
  | nil =>
    cases h
    exact ⟨rfl, fun k _ => rfl⟩
  | cons bs bss ih =>
    obtain ⟨t, ht, hrest⟩ := bind_eq_ok.mp h
    obtain ⟨hfit, rfl⟩ := push_eq_ok.mp ht
    obtain ⟨htop, hframe⟩ := ih hrest
    have htop : s'.top + size bss = s.top - bs.length := htop
    rw [size_cons]
    refine ⟨by omega, fun k hk => ?_⟩
    have hle : s.top - bs.length ≤ k := by omega
    rw [hframe k hle]
    exact put_of_not_mem (by omega)

/-- **Layout**: a block is read back below the blocks that were pushed before it. -/
theorem window_pushAll (h : pushAll fault lo (pre ++ bs :: post) s = .ok s') :
    window s'.cells (s.top - size pre - bs.length) bs.length = bs := by
  rw [pushAll_append] at h
  obtain ⟨t, ht, hrest⟩ := bind_eq_ok.mp h
  obtain ⟨u, hu, hpost⟩ := bind_eq_ok.mp hrest
  obtain ⟨hfit, rfl⟩ := push_eq_ok.mp hu
  have htop := (pushAll_frame ht).1
  have hframe := (pushAll_frame hpost).2
  have haddr : s.top - size pre - bs.length = t.top - bs.length := by omega
  rw [haddr]
  refine (window_congr fun k _ => ?_).trans (window_put t.cells (t.top - bs.length) bs)
  exact hframe _ (Nat.le_add_right _ _)

end Stack

end Pintos.Base
