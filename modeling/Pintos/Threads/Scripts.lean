/-
  Programs around one lock.

  Some code outside the thread system has to hold a lock while it does certain things.  A thread is
  given by a SCRIPT: when it takes the lock, when it gives it back, and where it is meanwhile.

  1. **Scripts** (`Op`) — the plain `lock_acquire` and the "acquire unless I am the holder", with their
     releases; regions that are entered and left; the creation and the end of threads, and the
     semaphore by which one waits for the end of another.

  2. **The machine** (`Program.machine`) — the thread system of `Pintos.Threads.Step`, in which every
     thread also has a script and a stack of regions.  Between two operations a thread may call the
     kernel as it likes (`apart`: not on THIS lock), and anybody may be interrupted anywhere.

  3. **The check** (`Keeps`) — a script is followed with two facts only, whether the lock is held and
     the stack, which have to be in the relation `ok`.  It ends at a `lock_release` inside `bars`.

  4. **The theorem** (`run_ok`) — if all scripts pass, then in every run that carries out no barred
     release each thread is in the relation `ok` with the REAL holder of the lock.
-/
import Pintos.Threads.Lock

namespace Pintos.Threads

open Lib Base Kernel Function Bool
open List hiding head

/-! ## Scripts -/

/-- What a thread does, as far as one lock is concerned; `μ` are the regions it can be in. -/
inductive Op (μ : Type) where
  /-- `lock_acquire`. -/
  | acquire
  /-- `lock_release`. -/
  | release
  /-- `lock_acquire`, unless the thread is the holder. -/
  | acquireIf
  /-- `lock_release`, if the thread is the holder. -/
  | releaseIf
  | enter (m : μ)
  | leave
  /-- `thread_create`, of a thread with a script. -/
  | create (t : ThreadRef) (priority : Int) (script : List (Op μ))
  /-- `sema_down` on the `wait_sema` of the thread on page `t`. -/
  | wait (t : ThreadRef)
  /-- `sema_up` on that of the current thread. -/
  | post
  /-- The end of `thread_exit`. -/
  | exit
  /-- The kernel panics. -/
  | stop

/-- The lock, and what threads can start to do. -/
structure Program (ι μ : Type) where
  lock : LockRef
  body : ι → List (Op μ)

structure Scripted (μ : Type) where
  kernel : Kernel
  /-- What a thread still has to do. -/
  script : ThreadRef → List (Op μ)
  /-- The regions a thread is in, the innermost first. -/
  stack : ThreadRef → List μ

inductive Move (ι : Type) where
  /-- In the thread system. -/
  | kernel (a : Action)
  /-- The current thread, between two scripts, starts one. -/
  | start (c : ι)
  /-- The current thread takes the next step of its script. -/
  | next

/-- The instruction is not about taking or giving back lock `l`. -/
def apart (l : LockRef) : Instr → Bool
  | .semaDown (.lock l') | .semaRetest (.lock l') => l' ≠ l
  | .lockAcquire l' | .lockHold l' | .lockTryAcquire l' | .lockTryHold l' | .lockRelease l' =>
    l' ≠ l
  | .condWait _ l' => l' ≠ l
  | _ => true

/-- The action is not a call that a script has to make. -/
def unscripted (l : LockRef) : Action → Bool
  | .call i => apart l i && i ≠ .threadExit
  | _ => true

variable {μ : Type}

namespace Scripted

def call (s : Scripted μ) (i : Instr) : Except Fault (Scripted μ) := do
  let k ← s.kernel.step (.call i)
  return { s with kernel := k }

/-- The current thread can take this step; `thread_create` gets a page that is not in use. -/
def ready (s : Scripted μ) : Op μ → Bool
  | .create t _ _ => t ∉ s.kernel.allList && (s.script t).isEmpty
  | .stop => false
  | _ => true

/-- The start of the thread system, where no thread has a script. -/
def start (b : Boot) : Scripted μ where
  kernel := boot b
  script := fun _ => []
  stack := fun _ => []

end Scripted

variable {ι : Type}

namespace Program

variable (P : Program ι μ)

/-- One step of the current thread's script, taken off it already. -/
def exec (s : Scripted μ) : Op μ → Except Fault (Scripted μ)
  | .acquire => s.call (.lockAcquire P.lock)
  | .release => s.call (.lockRelease P.lock)
  | .acquireIf =>
    if s.kernel.holder P.lock = some s.kernel.current then .ok s
    else s.call (.lockAcquire P.lock)
  | .releaseIf =>
    if s.kernel.holder P.lock = some s.kernel.current then s.call (.lockRelease P.lock)
    else .ok s
  | .enter m =>
    .ok { s with
      stack := update s.stack s.kernel.current (m :: s.stack s.kernel.current) }
  | .leave =>
    .ok { s with
      stack := update s.stack s.kernel.current (s.stack s.kernel.current).tail }
  | .create t priority script =>
    { s with script := update s.script t script }.call (.threadCreate t priority)
  | .wait t => s.call (.semaDown (.user t))
  | .post => s.call (.semaUp (.user s.kernel.current))
  | .exit => { s with script := update s.script s.kernel.current [] }.call .threadExit
  | .stop => .ok s

def step (s : Scripted μ) : Move ι → Except Fault (Scripted μ)
  | .kernel a => do
    let k ← s.kernel.step a
    return { s with kernel := k }
  | .start c => .ok { s with script := update s.script s.kernel.current (P.body c) }
  | .next =>
    match s.script s.kernel.current with
    | [] => .ok s
    | op :: ops =>
      P.exec { s with script := update s.script s.kernel.current ops } op

def enabled (s : Scripted μ) : Move ι → Bool
  | .kernel a => s.kernel.enabled a && unscripted P.lock a
  | .start _ => s.kernel.code s.kernel.current = [] && (s.script s.kernel.current).isEmpty
  | .next => s.kernel.code s.kernel.current = [] && (s.script s.kernel.current).head?.any s.ready

def machine : Machine (Scripted μ) (Move ι) Fault where
  enabled s a := P.enabled s a = true
  step := P.step

instance (s : Scripted μ) (a : Move ι) : Decidable (P.machine.enabled s a) :=
  inferInstanceAs (Decidable (P.enabled s a = true))

/-- The step does not carry out a release of the lock at a barred place. -/
def noBarred (bars : List μ → Prop) (s : Scripted μ) (a : Move ι) : Prop :=
  a = .kernel .exec → s.kernel.head s.kernel.current = some (.lockRelease P.lock) →
    ¬ bars (s.stack s.kernel.current)

end Program

/-- A piece of a schedule in the thread system. -/
def inThreads (as : List Action) : List (Move ι) := as.map .kernel

/-- `n` steps of scripts, of whoever is running. -/
def nexts (n : Nat) : List (Move ι) := List.replicate n .next

/-! ## The check -/

/-- **The check of a script**, from a place where the lock is held (`h`) or not and the thread is in
    the regions `stk`: at every place the two are in the relation `ok`.  While it waits for the lock
    a thread may have it already or not yet, so both have to be in order. -/
inductive Keeps (ok : List μ → Bool → Prop) (bars : List μ → Prop) :
    Bool → List μ → List (Op μ) → Prop
  | done (hok : ok [] false) : Keeps ok bars false [] []
  | acquire {h stk ops} (hfree : ok stk false) (hheld : ok stk true)
      (hops : Keeps ok bars true stk ops) : Keeps ok bars h stk (.acquire :: ops)
  | release {h stk ops} (hfree : ok stk false) (hheld : ok stk true)
      (hops : Keeps ok bars false stk ops) : Keeps ok bars h stk (.release :: ops)
  | acquireIf {h stk ops} (hfree : h = false → ok stk false) (hheld : ok stk true)
      (hops : Keeps ok bars true stk ops) : Keeps ok bars h stk (.acquireIf :: ops)
  | releaseIf {h stk ops} (hfree : ok stk false) (hheld : h = true → ok stk true)
      (hops : Keeps ok bars false stk ops) : Keeps ok bars h stk (.releaseIf :: ops)
  /-- The release is not carried out, so what comes after it does not matter. -/
  | barred {stk ops} (hheld : ok stk true) (hbar : bars stk) :
      Keeps ok bars true stk (.releaseIf :: ops)
  | enter {h stk m ops} (hok : ok stk h) (hops : Keeps ok bars h (m :: stk) ops) :
      Keeps ok bars h stk (.enter m :: ops)
  | leave {h stk m ops} (hok : ok (m :: stk) h) (hops : Keeps ok bars h stk ops) :
      Keeps ok bars h (m :: stk) (.leave :: ops)
  | create {h stk t priority script ops} (hok : ok stk h) (hnew : Keeps ok bars false [] script)
      (hops : Keeps ok bars h stk ops) : Keeps ok bars h stk (.create t priority script :: ops)
  | wait {h stk t ops} (hok : ok stk h) (hops : Keeps ok bars h stk ops) :
      Keeps ok bars h stk (.wait t :: ops)
  | post {h stk ops} (hok : ok stk h) (hops : Keeps ok bars h stk ops) :
      Keeps ok bars h stk (.post :: ops)
  | exit {ops} (hok : ok [] false) : Keeps ok bars false [] (.exit :: ops)
  | stop {h stk ops} (hok : ok stk h) : Keeps ok bars h stk (.stop :: ops)

variable {ok : List μ → Bool → Prop} {bars : List μ → Prop} {h : Bool} {stk : List μ}
  {ops : List (Op μ)}

theorem Keeps.here (hk : Keeps ok bars h stk ops) : ok stk h := by
  cases hk with
  | done hok | enter hok _ | leave hok _ | create hok _ _ | wait hok _ | post hok _ | exit hok
  | stop hok => exact hok
  | acquire hfree hheld _ | release hfree hheld _ => cases h <;> assumption
  | acquireIf hfree hheld =>
    cases h with
    | false => exact hfree rfl
    | true => exact hheld
  | releaseIf hfree hheld =>
    cases h with
    | false => exact hfree
    | true => exact hheld rfl
  | barred hheld => exact hheld

theorem Keeps.nil (hk : Keeps ok bars h stk []) : h = false ∧ stk = [] := by
  cases hk
  exact ⟨rfl, rfl⟩

/-! ## What holds of each thread -/

/-- The places of a `lock_acquire (l)`. -/
def acquires (l : LockRef) (i : Instr) : Prop :=
  i = .lockAcquire l ∨ i = .semaDown (.lock l) ∨ i = .semaRetest (.lock l) ∨ i = .lockHold l

/-- How thread `t` stands to lock `l`, where its script has got to a place with or without it. -/
inductive Phase (l : LockRef) (ok : List μ → Bool → Prop) (k : Kernel) (t : ThreadRef)
    (stk : List μ) : Bool → Prop
  /-- It is not about to take or to give back the lock. -/
  | settled {h : Bool} (hcode : ∀ i ∈ k.code t, apart l i = true)
      (hh : k.holder l = some t ↔ h = true) : Phase l ok k t stk h
  /-- It is in `lock_acquire`. -/
  | acquiring {i : Instr} (hcode : k.code t = [i]) (hi : acquires l i) (hfree : ok stk false)
      (hheld : ok stk true) : Phase l ok k t stk true
  /-- It is at the start of `lock_release`. -/
  | releasing (hcode : k.code t = [.lockRelease l]) (hfree : ok stk false) (hheld : ok stk true) :
      Phase l ok k t stk false

/-- A thread goes on with its script, or has come to a barred release. -/
inductive OnScript (l : LockRef) (ok : List μ → Bool → Prop) (bars : List μ → Prop) (k : Kernel)
    (t : ThreadRef) (stk : List μ) (ops : List (Op μ)) : Prop
  | going {h : Bool} (hp : Phase l ok k t stk h) (hk : Keeps ok bars h stk ops) :
      OnScript l ok bars k t stk ops
  | barred (hcode : k.code t = [.lockRelease l]) (hh : k.holder l = some t) (hheld : ok stk true)
      (hbar : bars stk) : OnScript l ok bars k t stk ops

variable {l : LockRef} {k k' : Kernel} {t : ThreadRef} {i : Instr}

/-- One instruction is left, which is not about the lock. -/
theorem Phase.single {h : Bool} (hc : k.code t = [i]) (hi : apart l i = true)
    (hh : k.holder l = some t ↔ h = true) : Phase l ok k t stk h := by
  refine .settled (fun j hj => ?_) hh
  rw [hc] at hj
  obtain rfl := mem_singleton.mp hj
  exact hi

/-- **Each thread is in order** with the real holder. -/
theorem OnScript.inOrder (ht : OnScript l ok bars k t stk ops) :
    ok stk (decide (k.holder l = some t)) := by
  have hboth : ok stk false → ok stk true → ok stk (decide (k.holder l = some t)) := by
    intro hfree hheld
    cases decide (k.holder l = some t) with
    | false => exact hfree
    | true => exact hheld
  cases ht with
  | @going h hp hk =>
    cases hp with
    | settled hcode hh =>
      have hd : decide (k.holder l = some t) = h := by
        cases h <;> simp [hh]
      rw [hd]
      exact hk.here
    | acquiring _ _ hfree hheld => exact hboth hfree hheld
    | releasing _ hfree hheld => exact hboth hfree hheld
  | barred _ hh =>
    rwa [decide_eq_true hh]

theorem OnScript.settled (ht : OnScript l ok bars k t stk ops) (hc : k.code t = []) :
    ∃ h, (k.holder l = some t ↔ h = true) ∧ Keeps ok bars h stk ops := by
  cases ht with
  | going hp hk =>
    cases hp with
    | settled hcode hh => exact ⟨_, hh, hk⟩
    | acquiring hcode => simp [hc] at hcode
    | releasing hcode => simp [hc] at hcode
  | barred hcode => simp [hc] at hcode

/-- At the end of its script a thread can begin another one. -/
theorem OnScript.restart (ht : OnScript l ok bars k t stk []) (hc : k.code t = [])
    (hnew : Keeps ok bars false [] ops) : OnScript l ok bars k t stk ops := by
  obtain ⟨h, hh, hend⟩ := ht.settled hc
  obtain ⟨rfl, rfl⟩ := hend.nil
  exact .going (.settled (by simp [hc]) hh) hnew

/-! ## One step of the thread system -/

variable {b : Boot}

section KernelStep

variable {a : Action}

/-- What a section leaves to do is not about the lock, if the section is not. -/
theorem apart_leaves (hl : l ≠ tidLock) (hi : apart l i = true) :
    ∀ j ∈ k.leaves i, apart l j = true := by
  intro j hj
  rcases mem_leaves hj with hinto | hcall
  · cases hinto with
    | @block s => cases s <;> exact hi
    | blockAgain | take | takeWoken | acquire | tryFree => exact hi
    | wake | release | sort | signal | sleep => rfl
  · cases hcall with
    | waitRelease | waitAcquire => exact hi
    | tidAcquire | tidRelease => simpa [apart] using hl.symm
    | waitDown | signal | again | unblock | yield | idle => rfl

attribute [local simp] holderAfter

theorem holderAfter_apart (hi : apart l i = true) : k.holderAfter i l = k.holder l := by
  cases i with
  | lockHold l' | lockTryHold l' | lockRelease l' =>
    have hne : l ≠ l' := fun he => by simp [apart, he] at hi
    simp [hne]
  | _ => rfl

theorem OnScript.other (ht : OnScript l ok bars k t stk ops) (hs : LockState l k)
    (he : RunStep b k a k') (hne : t ≠ k.current) : OnScript l ok bars k' t stk ops := by
  have hholder := hs.holder_of_ne he hne
  -- a new thread has been on no script in the kernel
  have hcode : (k'.code t = k.code t) ∨ (k.code t = [] ∧ k'.code t = [.kernelThread]) := by
    cases he.codeStep t with
    | same hc => exact .inl hc
    | new hc _ hnew => exact .inr ⟨he.alive.code_nil hnew, hc⟩
    | call _ hx _ _ _ | exit hx _ _ _ | exec _ _ hx _ _ _ _ => exact absurd hx hne
  cases ht with
  | going hp hk =>
    refine .going ?_ hk
    cases hp with
    | settled hapart hh =>
      rcases hcode with hc | ⟨-, hc⟩
      · exact .settled (hc ▸ hapart) (hholder.trans hh)
      · exact .single hc rfl (hholder.trans hh)
    | acquiring hc hi hfree hheld =>
      rcases hcode with hc' | ⟨hc', -⟩
      · exact .acquiring (hc'.trans hc) hi hfree hheld
      · simp [hc'] at hc
    | releasing hc hfree hheld =>
      rcases hcode with hc' | ⟨hc', -⟩
      · exact .releasing (hc'.trans hc) hfree hheld
      · simp [hc'] at hc
  | barred hc hh hheld hbar =>
    rcases hcode with hc' | ⟨hc', -⟩
    · exact .barred (hc'.trans hc) (hholder.mpr hh) hheld hbar
    · simp [hc'] at hc

/-- The running thread inside `lock_acquire`: it becomes the holder, or is still inside. -/
theorem Phase.acquire_step (he : RunStep b k .exec k') (hc : k.code k.current = [i])
    (hi : acquires l i) (hfree : ok stk false) (hheld : ok stk true) :
    Phase l ok k' k.current stk true := by
  have hd : k.does .exec = some i := by simp [does, head, hc]
  have hexit : i ≠ .threadExit := by
    rintro rfl
    simp [acquires] at hi
  have hc' := he.code_single hc hexit
  have hdown := k.leaves_down l
  rcases hi with rfl | rfl | rfl | rfl
  · exact .acquiring hc' (.inr (.inl rfl)) hfree hheld
  · rcases hdown with hx | hx
    · exact .acquiring (hc'.trans hx) (.inr (.inr (.inl rfl))) hfree hheld
    · exact .acquiring (hc'.trans hx) (.inr (.inr (.inr rfl))) hfree hheld
  · rcases hdown with hx | hx
    · exact .acquiring (hc'.trans hx) (.inr (.inr (.inl rfl))) hfree hheld
    · exact .acquiring (hc'.trans hx) (.inr (.inr (.inr rfl))) hfree hheld
  · refine .settled (fun j hj => ?_) ?_
    · rw [hc'] at hj
      exact absurd hj (by simp [leaves])
    · rw [he.holder, hd]
      simp

/-- The running thread at the start of `lock_release` ceases to be the holder. -/
theorem Phase.release_step (he : RunStep b k .exec k') (hc : k.code k.current = [.lockRelease l]) :
    Phase l ok k' k.current stk false := by
  have hd : k.does .exec = some (.lockRelease l) := by simp [does, head, hc]
  have hc' := he.code_single hc (by simp)
  refine .single hc' rfl ?_
  rw [he.holder, hd]
  simp

variable (ht : OnScript l ok bars k k.current stk ops)
include ht

theorem OnScript.current (hltid : l ≠ tidLock) (he : RunStep b k a k') (hun : unscripted l a = true)
    (hbar : a = .exec → k.head k.current = some (.lockRelease l) → ¬ bars stk) :
    OnScript l ok bars k' k.current stk ops := by
  by_cases hexec : a = .exec
  · subst hexec
    cases ht with
    | barred hc _ _ hb => exact absurd hb (hbar rfl (by simp [head, hc]))
    | going hp hk =>
      refine .going ?_ hk
      cases hp with
      | acquiring hc hi hfree hheld => exact Phase.acquire_step he hc hi hfree hheld
      | releasing hc => exact Phase.release_step he hc
      | settled hapart =>
        have hholder : ∀ {i}, k.head k.current = some i → k'.holder l = k.holder l := by
          intro i hi
          have hd : k.does .exec = some i := hi
          rw [he.holder, hd]
          exact holderAfter_apart (hapart i (mem_of_mem_head? hi))
        cases he.codeStep k.current with
        | same _ hne => exact absurd rfl (hne rfl)
        | new _ hne => exact absurd rfl hne
        | call i _ hx => cases hx
        | exit _ _ hhead hc =>
          refine .settled (fun i hi => ?_) (by rwa [hholder hhead])
          rw [hc] at hi
          cases hi
        | exec i is _ _ hc hc' _ =>
          have hhead : k.head k.current = some i := by rw [head, hc]; rfl
          refine .settled (fun j hj => ?_) (by rwa [hholder hhead])
          rw [hc] at hapart
          rw [hc'] at hj
          rcases mem_append.mp hj with hj | hj
          · exact apart_leaves hltid (hapart i (mem_cons_self ..)) j hj
          · exact hapart j (mem_cons_of_mem _ hj)
  · have hholder := LockState.holder_of_ne_exec he hexec
    cases he.codeStep k.current with
    | new _ hne => exact absurd rfl hne
    | exit _ hx _ _ | exec _ _ _ hx _ _ _ => exact absurd hx hexec
    | call i _ hx _ hc =>
      -- a call the script has to make would be one about the lock
      subst hx
      obtain ⟨h, hh, hk⟩ := ht.settled (code_nil_of_call he.possible)
      simp only [unscripted, and_eq_true] at hun
      exact .going (.single hc hun.1 (by rwa [hholder])) hk
    | same hc _ =>
      cases ht with
      | going hp hk =>
        refine .going ?_ hk
        cases hp with
        | settled => exact .settled (by rwa [hc]) (by rwa [hholder])
        | acquiring hc' hi hfree hheld => exact .acquiring (hc.trans hc') hi hfree hheld
        | releasing hc' hfree hheld => exact .releasing (hc.trans hc') hfree hheld
      | barred hc' hh hheld hb => exact .barred (hc.trans hc') (by rwa [hholder]) hheld hb

theorem OnScript.noFreeTry (ha : k.enabled a = true) : noFreeTry l k a := by
  intro hd
  obtain ⟨-, hi⟩ := exec_of_does ha hd
  exfalso
  cases ht with
  | barred hc => simp [head, hc] at hi
  | going hp =>
    cases hp with
    | settled hapart _ =>
      have := hapart _ (mem_of_mem_head? hi)
      simp [apart] at this
    | acquiring hc hx =>
      rw [head, hc] at hi
      cases hi
      simp [acquires] at hx
    | releasing hc => simp [head, hc] at hi

end KernelStep

/-! ## One step of the whole -/

/-- **The invariant.** -/
structure Scripted.Sound (P : Program ι μ) (ok : List μ → Bool → Prop) (bars : List μ → Prop)
    (b : Boot) (s : Scripted μ) : Prop where
  life : Alive b s.kernel
  code : CodeInv s.kernel
  lock : LockState P.lock s.kernel
  scripts : ∀ t, OnScript P.lock ok bars s.kernel t (s.stack t) (s.script t)

section Step

variable {P : Program ι μ} {s s' : Scripted μ} {script : ThreadRef → List (Op μ)}
  {stack : ThreadRef → List μ} {a : Move ι} {tr : List (Scripted μ × Move ι)}

theorem Scripted.Sound.init (hok : ok [] false) : (Scripted.start b).Sound P ok bars b where
  life := Life.init b
  code := CodeInv.init b
  lock := LockState.init b P.lock
  scripts := by
    intro t
    refine .going (.settled (fun i hi => ?_) ?_) (.done hok)
    · rcases Life.mem_boot_code hi with rfl | ⟨-, rfl | rfl | rfl | rfl⟩ <;> rfl
    · simp [Scripted.start, boot]

theorem Scripted.Sound.runStep (h : s.Sound P ok bars b) {a : Action}
    (ha : s.kernel.enabled a = true) (hs : s.kernel.step a = .ok k') : RunStep b s.kernel a k' :=
  ⟨⟨step_effect hs, ha, h.life⟩, h.code⟩

theorem Scripted.Sound.kernelStep (h : s.Sound P ok bars b) {a : Action}
    (ha : s.kernel.enabled a = true) (hs : s.kernel.step a = .ok k')
    (hscripts : ∀ t, OnScript P.lock ok bars k' t (stack t) (script t)) :
    Scripted.Sound P ok bars b { kernel := k', script := script, stack := stack } where
  life := (h.life.step ha).1 k' hs
  code := (h.runStep ha hs).codeInv
  lock := h.lock.step (h.runStep ha hs) ((h.scripts _).noFreeTry ha)
  scripts := hscripts

/-- A call, whatever it does to the scripts of the others. -/
theorem Scripted.Sound.called (h : s.Sound P ok bars b)
    (hc : s.kernel.code s.kernel.current = []) (hi : callable i = true)
    (hs : s.kernel.step (.call i) = .ok k')
    (hcur : k'.code s.kernel.current = [i] → k'.holder = s.kernel.holder →
      OnScript P.lock ok bars k' s.kernel.current (stack s.kernel.current)
        (script s.kernel.current))
    (hother : ∀ t, t ≠ s.kernel.current → OnScript P.lock ok bars s.kernel t (stack t) (script t)) :
    Scripted.Sound P ok bars b { kernel := k', script := script, stack := stack } := by
  have ha : s.kernel.enabled (.call i) = true := by simp [Kernel.enabled, hc, hi]
  have he := h.runStep ha hs
  refine h.kernelStep ha hs fun t => ?_
  by_cases ht : t = s.kernel.current
  · subst ht
    refine hcur ?_ (LockState.holder_of_ne_exec he (by simp))
    rw [he.code]
    simp [codeAct, hc]
  · exact (hother t ht).other h.lock he ht

theorem Scripted.call_eq_ok (hs : s.call i = .ok s') :
    ∃ k', s.kernel.step (.call i) = .ok k' ∧ s' = { s with kernel := k' } := by
  obtain ⟨k', hk, hk'⟩ := bind_eq_ok.mp hs
  exact ⟨k', hk, (Except.ok.inj hk').symm⟩

/-- A step that the thread system does not see. -/
theorem Scripted.Sound.quiet (h : s.Sound P ok bars b) {stk : List μ}
    (hcur : OnScript P.lock ok bars s.kernel s.kernel.current stk ops) :
    Scripted.Sound P ok bars b { s with
      script := update s.script s.kernel.current ops
      stack := update s.stack s.kernel.current stk } := by
  refine { h with scripts := fun t => ?_ }
  by_cases ht : t = s.kernel.current
  · subst ht
    simpa only [update_self] using hcur
  · simp only [update_of_ne ht]
    exact h.scripts t

/-- A step that calls the kernel. -/
theorem Scripted.Sound.calls (h : s.Sound P ok bars b) (hc : s.kernel.code s.kernel.current = [])
    (hi : callable i = true)
    (hs : { s with script := update s.script s.kernel.current ops }.call i = .ok s')
    (hcur : ∀ k' : Kernel, k'.code s.kernel.current = [i] → k'.holder = s.kernel.holder →
      OnScript P.lock ok bars k' s.kernel.current (s.stack s.kernel.current) ops) :
    s'.Sound P ok bars b := by
  obtain ⟨k', hk', rfl⟩ := Scripted.call_eq_ok hs
  refine h.called hc hi hk' (fun hcode hsame => ?_) fun t ht => ?_
  · simpa only [update_self] using hcur k' hcode hsame
  · simp only [update_of_ne ht]
    exact h.scripts t

/-- **One operation** of the running thread's script, one case for each. -/
theorem Scripted.Sound.execStep (h : s.Sound P ok bars b) (hlock : P.lock ≠ tidLock) {op : Op μ}
    (hc : s.kernel.code s.kernel.current = [])
    (hscript : s.script s.kernel.current = op :: ops) (hready : s.ready op = true)
    (hs : P.exec { s with script := update s.script s.kernel.current ops } op = .ok s') :
    s'.Sound P ok bars b := by
  have hnotid : ∀ i, i = .lockAcquire P.lock ∨ i = .lockRelease P.lock → callable i = true := by
    rintro i (rfl | rfl) <;> simpa [callable] using hlock
  have hapart : ∀ i ∈ s.kernel.code s.kernel.current, apart P.lock i = true := by simp [hc]
  obtain ⟨held, hh, hk⟩ := (h.scripts s.kernel.current).settled hc
  obtain ⟨stk, hstk⟩ : ∃ stk, s.stack s.kernel.current = stk := ⟨_, rfl⟩
  rw [hscript, hstk] at hk
  have hquiet {stk'} (hops : Keeps ok bars held stk' ops) :=
    h.quiet (.going (.settled hapart hh) hops)
  -- the lock is held already, or was not: nothing is done
  have hstay : Keeps ok bars held stk ops → Scripted.Sound P ok bars b { s with
      script := update s.script s.kernel.current ops } := by
    intro hops
    have := hquiet hops
    rwa [← hstk, update_eq_self] at this
  cases op with
  | acquire =>
    cases hk with
    | acquire hfree hheld hops =>
      exact h.calls hc (hnotid _ (.inl rfl)) hs fun k' hcode _ =>
        hstk ▸ .going (.acquiring hcode (.inl rfl) hfree hheld) hops
  | release =>
    cases hk with
    | release hfree hheld hops =>
      exact h.calls hc (hnotid _ (.inr rfl)) hs fun k' hcode _ =>
        hstk ▸ .going (.releasing hcode hfree hheld) hops
  | acquireIf =>
    simp only [Program.exec] at hs
    cases hk with
    | acquireIf hfree hheld hops =>
      split at hs
      · rename_i hholds
        cases hs
        obtain rfl := hh.mp hholds
        exact hstay hops
      · rename_i hno
        obtain rfl : held = false := eq_false_iff.mpr fun hx => hno (hh.mpr hx)
        exact h.calls hc (hnotid _ (.inl rfl)) hs fun k' hcode _ =>
          hstk ▸ .going (.acquiring hcode (.inl rfl) (hfree rfl) hheld) hops
  | releaseIf =>
    simp only [Program.exec] at hs
    split at hs
    · rename_i hholds
      obtain rfl := hh.mp hholds
      refine h.calls hc (hnotid _ (.inr rfl)) hs fun k' hcode hsame => ?_
      rw [hstk]
      cases hk with
      | releaseIf hfree hheld hops => exact .going (.releasing hcode hfree (hheld rfl)) hops
      | barred hheld hbar => exact .barred hcode (by rwa [hsame]) hheld hbar
    · rename_i hno
      cases hs
      obtain rfl : held = false := eq_false_iff.mpr fun hx => hno (hh.mpr hx)
      cases hk with
      | releaseIf _ _ hops => exact hstay hops
  | enter =>
    cases hs
    cases hk with
    | enter _ hops => simpa only [hstk] using hquiet hops
  | leave =>
    cases hs
    cases hk with
    | leave _ hops => simpa only [hstk, tail_cons] using hquiet hops
  | create t =>
    obtain ⟨k', hk', rfl⟩ := Scripted.call_eq_ok hs
    simp only [Scripted.ready, and_eq_true, decide_eq_true_eq, List.isEmpty_iff] at hready
    obtain ⟨hdead, hidle⟩ := hready
    have htc : t ≠ s.kernel.current := by
      rintro rfl
      exact hdead (h.life.runMem _ rfl)
    cases hk with
    | create _ hnew hops =>
      refine h.called hc rfl hk' (fun hcode hsame => ?_) fun u hu => ?_
      · simp only [update_of_ne htc.symm, update_self, hstk]
        exact .going (.single hcode rfl (by rwa [hsame])) hops
      by_cases hut : u = t
      · -- the page of the new thread: whoever was on it has finished
        subst hut
        simp only [update_self]
        have hend := h.scripts u
        rw [hidle] at hend
        exact hend.restart (h.life.code_nil hdead) hnew
      · simp only [update_of_ne hut, update_of_ne hu]
        exact h.scripts u
  | wait =>
    cases hk with
    | wait _ hops =>
      exact h.calls hc rfl hs fun k' hcode hsame =>
        hstk ▸ .going (.single hcode rfl (by rwa [hsame])) hops
  | post =>
    cases hk with
    | post _ hops =>
      exact h.calls hc rfl hs fun k' hcode hsame =>
        hstk ▸ .going (.single hcode rfl (by rwa [hsame])) hops
  | exit =>
    obtain ⟨k', hk', rfl⟩ := Scripted.call_eq_ok hs
    cases hk with
    | exit hok =>
      refine h.called hc rfl hk' (fun hcode hsame => ?_) fun u hu => ?_
      · simp only [update_self, hstk]
        exact .going (.single hcode rfl (by rwa [hsame])) (.done hok)
      · simp only [update_of_ne hu]
        exact h.scripts u
  | stop => exact absurd hready (by simp [Scripted.ready])

/-- **One step** keeps every thread on its script. -/
theorem Scripted.Sound.step (h : s.Sound P ok bars b) (hlock : P.lock ≠ tidLock)
    (hbody : ∀ c, Keeps ok bars false [] (P.body c)) (ha : P.enabled s a = true)
    (hg : P.noBarred bars s a) (hs : P.step s a = .ok s') : s'.Sound P ok bars b := by
  cases a with
  | kernel =>
    obtain ⟨k', hk', hret⟩ := bind_eq_ok.mp hs
    cases hret
    simp only [Program.enabled, and_eq_true] at ha
    obtain ⟨ha, hun⟩ := ha
    have he := h.runStep ha hk'
    refine h.kernelStep ha hk' fun t => ?_
    by_cases ht : t = s.kernel.current
    · subst ht
      refine (h.scripts _).current hlock he hun ?_
      rintro rfl
      exact hg rfl
    · exact (h.scripts t).other h.lock he ht
  | start c =>
    cases hs
    simp only [Program.enabled, and_eq_true, decide_eq_true_eq, List.isEmpty_iff] at ha
    obtain ⟨hc, hnil⟩ := ha
    have hend := h.scripts s.kernel.current
    rw [hnil] at hend
    have hquiet := h.quiet (hend.restart hc (hbody c))
    rwa [update_eq_self] at hquiet
  | next =>
    simp only [Program.enabled, and_eq_true, decide_eq_true_eq] at ha
    obtain ⟨hc, hready⟩ := ha
    simp only [Program.step] at hs
    cases hscript : s.script s.kernel.current with
    | nil => simp [hscript] at hready
    | cons =>
      rw [hscript] at hs hready
      exact h.execStep hlock hc hscript (by simpa using hready) hs

/-- **Every state of every run** that carries out no barred release: each thread keeps to its
    script. -/
theorem run_scripts (hlock : P.lock ≠ tidLock) (hok : ok [] false)
    (hbody : ∀ c, Keeps ok bars false [] (P.body c))
    (hr : (P.machine.guard (P.noBarred bars)).Run (.start b) tr s) : s.Sound P ok bars b := by
  refine hr.invariant (.init hok) ?_
  rintro s a s' h ⟨ha, hg⟩ hs
  exact h.step hlock hbody ha hg hs

/-- **Every thread is in order** with the real holder of the lock, wherever it is. -/
theorem run_ok (hlock : P.lock ≠ tidLock) (hok : ok [] false)
    (hbody : ∀ c, Keeps ok bars false [] (P.body c))
    (hr : (P.machine.guard (P.noBarred bars)).Run (.start b) tr s) (t : ThreadRef) :
    ok (s.stack t) (decide (s.kernel.holder P.lock = some t)) :=
  ((run_scripts hlock hok hbody hr).scripts t).inOrder

theorem Program.stack_step (hs : P.step s a = .ok s') (t : ThreadRef) :
    s'.stack t = s.stack t ∨ (t = s.kernel.current ∧ a = .next ∧ (s'.stack t = (s.stack t).tail ∨
        ∃ m ops, s.script t = .enter m :: ops ∧ s'.stack t = m :: s.stack t)) := by
  have hcall : ∀ {s0 : Scripted μ} {i}, s0.call i = .ok s' → s'.stack = s0.stack := by
    intro s0 i h
    obtain ⟨k', -, rfl⟩ := Scripted.call_eq_ok h
    rfl
  cases a with
  | kernel =>
    obtain ⟨k', -, hret⟩ := bind_eq_ok.mp hs
    cases hret
    exact .inl rfl
  | start =>
    cases hs
    exact .inl rfl
  | next =>
    simp only [Program.step] at hs
    cases hscript : s.script s.kernel.current with
    | nil =>
      rw [hscript] at hs
      cases hs
      exact .inl rfl
    | cons op ops =>
      rw [hscript] at hs
      cases op with
      | acquire | release | create _ _ _ | wait _ | post | exit =>
        exact .inl (congrFun (hcall hs) t)
      | acquireIf =>
        simp only [Program.exec] at hs
        split at hs
        · cases hs
          exact .inl rfl
        · exact .inl (congrFun (hcall hs) t)
      | releaseIf =>
        simp only [Program.exec] at hs
        split at hs
        · exact .inl (congrFun (hcall hs) t)
        · cases hs
          exact .inl rfl
      | stop =>
        cases hs
        exact .inl rfl
      | enter m =>
        cases hs
        by_cases ht : t = s.kernel.current
        · subst ht
          exact .inr ⟨rfl, rfl, .inr ⟨m, ops, hscript, by simp⟩⟩
        · exact .inl (by simp [ht])
      | leave =>
        cases hs
        by_cases ht : t = s.kernel.current
        · subst ht
          exact .inr ⟨rfl, rfl, .inl (by simp)⟩
        · exact .inl (by simp [ht])

end Step

end Pintos.Threads
