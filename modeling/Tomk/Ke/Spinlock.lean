/-
# `spinlock.asm`

Any number of processes, on any number of processors, execute the instructions of
`spinlock_acquire` and `spinlock_release` in any interleaving; `lock cmpxchg` is
one step.  A process may acquire any lock at any time, and releases a lock that it
has acquired.

A process owns a lock from the exchange that finds it free to the store that
frees it (`SpinProc.tokens`), and there is never more than one owner: between
two processes, and for one process that asks for a lock that it has, the second
one spins.  The null pointer is no lock: both functions return.
-/
import Tomk.Lib.Runs
import Tomk.Word
import Mathlib.Logic.Function.Basic

namespace Tomk

open Function Runs

/-! ## The source -/

/-- The next instruction of `spinlock_acquire`. -/
inductive AcquirePc where
  | push
  | mov
  | test
  | jz
  /-- `.spin` -/
  | zero
  | one
  | cmpxchg
  | jnz
  /-- `.done` -/
  | pop
  | ret
deriving DecidableEq

/-- The next instruction of `spinlock_release`. -/
inductive ReleasePc where
  | mov
  | test
  | jz
  | store
  | ret
deriving DecidableEq

/-- Where a process is, with the argument of the function that it is in. -/
inductive SpinPc where
  | out
  | acquire (lock : U32) (pc : AcquirePc)
  | release (lock : U32) (pc : ReleasePc)
deriving DecidableEq

/-- A process: its registers, the `edx` that it has pushed, and the locks that it has
acquired and not begun to release. -/
structure SpinProc where
  pc : SpinPc
  eax : U32
  ecx : U32
  edx : U32
  zf : Bool
  pushed : U32
  held : List U32

/-- The `locked` field of every lock, and the processes. -/
structure SpinState (P : Type) where
  locked : U32 → U32
  procs : P → SpinProc

variable {P : Type} [DecidableEq P]

/-- An instruction of `spinlock_acquire`. -/
def acquireInsn (locked : U32 → U32) (x : SpinProc) (lock : U32) : AcquirePc → (U32 → U32) × SpinProc
  | .push => (locked, { x with pc := .acquire lock .mov, pushed := x.edx })
  | .mov => (locked, { x with pc := .acquire lock .test, edx := lock })
  | .test => (locked, { x with pc := .acquire lock .jz, zf := x.edx = 0 })
  | .jz => (locked, { x with pc := .acquire lock (if x.zf then .pop else .zero) })
  | .zero => (locked, { x with pc := .acquire lock .one, eax := 0 })
  | .one => (locked, { x with pc := .acquire lock .cmpxchg, ecx := 1 })
  | .cmpxchg =>
      if locked x.edx = x.eax then
        (update locked x.edx x.ecx, { x with pc := .acquire lock .jnz, zf := true })
      else (locked, { x with pc := .acquire lock .jnz, zf := false, eax := locked x.edx })
  | .jnz => (locked, { x with pc := .acquire lock (if x.zf then .pop else .zero) })
  | .pop => (locked, { x with pc := .acquire lock .ret, edx := x.pushed })
  | .ret => (locked, { x with pc := .out, held := if lock = 0 then x.held else lock :: x.held })

/-- An instruction of `spinlock_release`. -/
def releaseInsn (locked : U32 → U32) (x : SpinProc) (lock : U32) : ReleasePc → (U32 → U32) × SpinProc
  | .mov => (locked, { x with pc := .release lock .test, eax := lock })
  | .test => (locked, { x with pc := .release lock .jz, zf := x.eax = 0 })
  | .jz => (locked, { x with pc := .release lock (if x.zf then .ret else .store) })
  | .store => (update locked x.eax 0, { x with pc := .release lock .ret })
  | .ret => (locked, { x with pc := .out })

def SpinProc.insn (locked : U32 → U32) (x : SpinProc) : (U32 → U32) × SpinProc :=
  match x.pc with
  | .out => (locked, x)
  | .acquire lock pc => acquireInsn locked x lock pc
  | .release lock pc => releaseInsn locked x lock pc

inductive SpinMove (P : Type) where
  | acquire (p : P) (lock : U32)
  | release (p : P) (lock : U32)
  | insn (p : P)

/-- A process calls when it is in neither function, and releases what it has. -/
def SpinMove.Legal (s : SpinState P) : SpinMove P → Prop
  | .acquire p _ => (s.procs p).pc = .out
  | .release p lock => (s.procs p).pc = .out ∧ (lock = 0 ∨ lock ∈ (s.procs p).held)
  | .insn _ => True

def SpinMove.run (s : SpinState P) : SpinMove P → SpinState P
  | .acquire p lock =>
      ⟨s.locked, update s.procs p { s.procs p with pc := .acquire lock .push }⟩
  | .release p lock =>
      ⟨s.locked, update s.procs p
        { s.procs p with pc := .release lock .mov, held := (s.procs p).held.erase lock }⟩
  | .insn p => ⟨((s.procs p).insn s.locked).1, update s.procs p ((s.procs p).insn s.locked).2⟩

def SpinStep (m : SpinMove P) (s s' : SpinState P) : Prop := m.Legal s ∧ s' = m.run s

/-- All locks are free, and no process is in one of the functions. -/
structure SpinStart (s : SpinState P) : Prop where
  locked : ∀ l, s.locked l = 0
  out : ∀ p, (s.procs p).pc = .out
  held : ∀ p, (s.procs p).held = []

def SpinReach : SpinState P → Prop := Reach SpinStart SpinStep

/-! ## Owners -/

/-- Where a process is in the two functions while it owns the lock. -/
def SpinProc.Owning (x : SpinProc) (l : U32) : Prop :=
  x.pc = .acquire l .jnz ∧ x.zf = true ∨ x.pc = .acquire l .pop ∨ x.pc = .acquire l .ret ∨
    x.pc = .release l .mov ∨ x.pc = .release l .test ∨ x.pc = .release l .jz ∨ x.pc = .release l .store

instance (x : SpinProc) (l : U32) : Decidable (x.Owning l) := inferInstanceAs (Decidable (_ ∨ _))

/-- How many times a process owns a lock. -/
def SpinProc.tokens (x : SpinProc) (l : U32) : Nat :=
  x.held.count l + if x.Owning l then 1 else 0

def SpinState.Owns (s : SpinState P) (p : P) (l : U32) : Prop := 0 < (s.procs p).tokens l

/-- The registers, as the instructions before have left them. -/
def SpinProc.RegsOk (x : SpinProc) : Prop :=
  match x.pc with
  | .acquire lock .test => x.edx = lock
  | .acquire lock .jz => x.edx = lock ∧ x.zf = decide (lock = 0)
  | .acquire lock .zero => x.edx = lock ∧ lock ≠ 0
  | .acquire lock .one => x.edx = lock ∧ lock ≠ 0 ∧ x.eax = 0
  | .acquire lock .cmpxchg => x.edx = lock ∧ lock ≠ 0 ∧ x.eax = 0 ∧ x.ecx = 1
  | .acquire lock .jnz => x.edx = lock ∧ lock ≠ 0
  | .release lock .test => x.eax = lock
  | .release lock .jz => x.eax = lock ∧ x.zf = decide (lock = 0)
  | .release lock .store => x.eax = lock ∧ lock ≠ 0
  | _ => True

/-- A lock that is free has no owner, and one that is taken has one, once. -/
def LockOk (s : SpinState P) (l : U32) : Prop :=
  (s.locked l = 0 ∧ ∀ p, (s.procs p).tokens l = 0) ∨
    s.locked l = 1 ∧ ∃ p, (s.procs p).tokens l = 1 ∧ ∀ q, q ≠ p → (s.procs q).tokens l = 0

structure SpinState.Inv (s : SpinState P) : Prop where
  regs : ∀ p, (s.procs p).RegsOk
  locks : ∀ l, l ≠ 0 → LockOk s l

variable {s s' : SpinState P} {p q : P} {l lock : U32} {x : SpinProc} {locked : U32 → U32}

/-! ## One instruction -/

/-- What an instruction does to a lock: nothing, or it takes it or frees it. -/
inductive LockMove (locked : U32 → U32) (x : SpinProc) (locked' : U32 → U32) (x' : SpinProc) (l : U32) :
    Prop
  | same : locked' l = locked l → x'.tokens l = x.tokens l → LockMove locked x locked' x' l
  | taken : locked l = 0 → locked' l = 1 → x'.tokens l = x.tokens l + 1 → LockMove locked x locked' x' l
  | freed : locked' l = 0 → x.tokens l = x'.tokens l + 1 → LockMove locked x locked' x' l

theorem tokens_eq (x : SpinProc) (l : U32) :
    x.tokens l = x.held.count l + if x.Owning l then 1 else 0 := rfl

/-- **One instruction of `spinlock_acquire`**: the exchange takes the lock that it finds free, and
the return makes it one of those that the process has. -/
theorem acquireInsn_spec {pc : AcquirePc} (hpc : x.pc = .acquire lock pc) (hr : x.RegsOk) (hl : l ≠ 0) :
    (acquireInsn locked x lock pc).2.RegsOk ∧
      LockMove locked x (acquireInsn locked x lock pc).1 (acquireInsn locked x lock pc).2 l := by
  cases x with
  | mk xpc eax ecx edx zf pushed held =>
  obtain rfl : xpc = .acquire lock pc := hpc
  cases pc with
  | push => exact ⟨trivial, .same rfl (by simp [tokens_eq, acquireInsn, SpinProc.Owning])⟩
  | mov => exact ⟨rfl, .same rfl (by simp [tokens_eq, acquireInsn, SpinProc.Owning])⟩
  | test =>
      obtain rfl : edx = lock := hr
      exact ⟨⟨rfl, rfl⟩, .same rfl (by simp [tokens_eq, acquireInsn, SpinProc.Owning])⟩
  | jz =>
      obtain ⟨rfl, hz⟩ : edx = lock ∧ zf = decide (lock = 0) := hr
      cases zf with
      | true =>
          have hne : edx ≠ l := fun h => hl (h ▸ of_decide_eq_true hz.symm)
          exact ⟨trivial, .same rfl (by simp [tokens_eq, acquireInsn, SpinProc.Owning, hne])⟩
      | false =>
          refine ⟨⟨rfl, of_decide_eq_false hz.symm⟩, .same rfl ?_⟩
          simp [tokens_eq, acquireInsn, SpinProc.Owning]
  | zero =>
      obtain ⟨rfl, h0⟩ : edx = lock ∧ lock ≠ 0 := hr
      exact ⟨⟨rfl, h0, rfl⟩, .same rfl (by simp [tokens_eq, acquireInsn, SpinProc.Owning])⟩
  | one =>
      obtain ⟨rfl, h0, rfl⟩ : edx = lock ∧ lock ≠ 0 ∧ eax = 0 := hr
      exact ⟨⟨rfl, h0, rfl, rfl⟩, .same rfl (by simp [tokens_eq, acquireInsn, SpinProc.Owning])⟩
  | cmpxchg =>
      obtain ⟨rfl, h0, rfl, rfl⟩ : edx = lock ∧ lock ≠ 0 ∧ eax = 0 ∧ ecx = 1 := hr
      by_cases hfree : locked edx = 0
      · have hrun : acquireInsn locked ⟨.acquire edx .cmpxchg, 0, 1, edx, zf, pushed, held⟩ edx .cmpxchg
            = (update locked edx 1, ⟨.acquire edx .jnz, 0, 1, edx, true, pushed, held⟩) := if_pos hfree
        rw [hrun]
        refine ⟨⟨rfl, h0⟩, ?_⟩
        by_cases hle : edx = l
        · subst hle
          exact .taken hfree (update_self ..) (by simp [tokens_eq, SpinProc.Owning])
        · refine .same (update_of_ne (Ne.symm hle) ..) ?_
          simp [tokens_eq, SpinProc.Owning, hle]
      · have hrun : acquireInsn locked ⟨.acquire edx .cmpxchg, 0, 1, edx, zf, pushed, held⟩ edx .cmpxchg
            = (locked, ⟨.acquire edx .jnz, locked edx, 1, edx, false, pushed, held⟩) := if_neg hfree
        rw [hrun]
        exact ⟨⟨rfl, h0⟩, .same rfl (by simp [tokens_eq, SpinProc.Owning])⟩
  | jnz =>
      obtain ⟨rfl, h0⟩ : edx = lock ∧ lock ≠ 0 := hr
      cases zf with
      | true => exact ⟨trivial, .same rfl (by simp [tokens_eq, acquireInsn, SpinProc.Owning])⟩
      | false => exact ⟨⟨rfl, h0⟩, .same rfl (by simp [tokens_eq, acquireInsn, SpinProc.Owning])⟩
  | pop => exact ⟨trivial, .same rfl (by simp [tokens_eq, acquireInsn, SpinProc.Owning])⟩
  | ret =>
      refine ⟨trivial, .same rfl ?_⟩
      by_cases h0 : lock = 0
      · have hne : lock ≠ l := fun h => hl (h ▸ h0)
        rw [show acquireInsn locked _ lock .ret = (locked, ⟨.out, eax, ecx, edx, zf, pushed, held⟩) by
          rw [acquireInsn, if_pos h0]]
        simp [tokens_eq, SpinProc.Owning, hne]
      · rw [show acquireInsn locked _ lock .ret
            = (locked, ⟨.out, eax, ecx, edx, zf, pushed, lock :: held⟩) by rw [acquireInsn, if_neg h0]]
        simp [tokens_eq, SpinProc.Owning, List.count_cons]

/-- **One instruction of `spinlock_release`**: the store frees the lock. -/
theorem releaseInsn_spec {pc : ReleasePc} (hpc : x.pc = .release lock pc) (hr : x.RegsOk) (hl : l ≠ 0) :
    (releaseInsn locked x lock pc).2.RegsOk ∧
      LockMove locked x (releaseInsn locked x lock pc).1 (releaseInsn locked x lock pc).2 l := by
  cases x with
  | mk xpc eax ecx edx zf pushed held =>
  obtain rfl : xpc = .release lock pc := hpc
  cases pc with
  | mov => exact ⟨rfl, .same rfl (by simp [tokens_eq, releaseInsn, SpinProc.Owning])⟩
  | test =>
      obtain rfl : eax = lock := hr
      exact ⟨⟨rfl, rfl⟩, .same rfl (by simp [tokens_eq, releaseInsn, SpinProc.Owning])⟩
  | jz =>
      obtain ⟨rfl, hz⟩ : eax = lock ∧ zf = decide (lock = 0) := hr
      cases zf with
      | true =>
          have hne : eax ≠ l := fun h => hl (h ▸ of_decide_eq_true hz.symm)
          exact ⟨trivial, .same rfl (by simp [tokens_eq, releaseInsn, SpinProc.Owning, hne])⟩
      | false =>
          refine ⟨⟨rfl, of_decide_eq_false hz.symm⟩, .same rfl ?_⟩
          simp [tokens_eq, releaseInsn, SpinProc.Owning]
  | store =>
      obtain ⟨rfl, h0⟩ : eax = lock ∧ lock ≠ 0 := hr
      refine ⟨trivial, ?_⟩
      by_cases hle : l = eax
      · subst hle
        exact .freed (by simp [releaseInsn]) (by simp [tokens_eq, releaseInsn, SpinProc.Owning])
      · refine .same (by simp [releaseInsn, update_of_ne hle]) ?_
        simp [tokens_eq, releaseInsn, SpinProc.Owning, Ne.symm hle]
  | ret => exact ⟨trivial, .same rfl (by simp [tokens_eq, releaseInsn, SpinProc.Owning])⟩

theorem insn_spec (locked : U32 → U32) (hr : x.RegsOk) (hl : l ≠ 0) :
    (x.insn locked).2.RegsOk ∧ LockMove locked x (x.insn locked).1 (x.insn locked).2 l := by
  rw [SpinProc.insn]
  cases hpc : x.pc with
  | out => exact ⟨hr, .same rfl rfl⟩
  | acquire lock pc => exact acquireInsn_spec hpc hr hl
  | release lock pc => exact releaseInsn_spec hpc hr hl

/-! ## One move -/

/-- A process that changes no lock's owner. -/
theorem LockOk.same {y : SpinProc} (h : LockOk s l) (hlocked : locked l = s.locked l)
    (ht : y.tokens l = (s.procs p).tokens l) : LockOk ⟨locked, update s.procs p y⟩ l := by
  have hall : ∀ q, (update s.procs p y q).tokens l = (s.procs q).tokens l := fun q => by
    by_cases hq : q = p
    · rw [hq, update_self, ht]
    · rw [update_of_ne hq]
  rcases h with ⟨h0, hfree⟩ | ⟨h1, o, ho, hothers⟩
  · exact Or.inl ⟨hlocked.trans h0, fun q => (hall q).trans (hfree q)⟩
  · exact Or.inr ⟨hlocked.trans h1, o, (hall o).trans ho, fun q hq => (hall q).trans (hothers q hq)⟩

/-- **An instruction** keeps every lock with at most one owner. -/
theorem LockOk.move {y : SpinProc} (h : LockOk s l) (hm : LockMove s.locked (s.procs p) locked y l) :
    LockOk ⟨locked, update s.procs p y⟩ l := by
  cases hm with
  | same hlocked ht => exact h.same hlocked ht
  | taken h0 h1 ht =>
      rcases h with ⟨_, hfree⟩ | ⟨hone, _⟩
      · refine Or.inr ⟨h1, p, ?_, fun q hq => ?_⟩
        · simp only [update_self, ht, hfree p]
        · simp only [update_of_ne hq, hfree q]
      · exact absurd (hone.symm.trans h0) (by decide)
  | freed h0 ht =>
      rcases h with ⟨_, hfree⟩ | ⟨_, o, ho, hothers⟩
      · rw [hfree p] at ht
        exact absurd ht.symm (Nat.succ_ne_zero _)
      · -- the process is the owner
        obtain rfl : o = p := by
          by_contra hne
          rw [hothers p (Ne.symm hne)] at ht
          exact Nat.succ_ne_zero _ ht.symm
        refine Or.inl ⟨h0, fun q => ?_⟩
        by_cases hq : q = o
        · simp only [hq, update_self]
          omega
        · simp only [update_of_ne hq, hothers q hq]

theorem SpinState.Inv.set {y : SpinProc} (h : s.Inv) (hr : y.RegsOk)
    (hl : ∀ l, l ≠ 0 → LockOk ⟨locked, update s.procs p y⟩ l) :
    SpinState.Inv ⟨locked, update s.procs p y⟩ where
  regs := fun q => by
    by_cases hq : q = p
    · simp only [hq, update_self]
      exact hr
    · simp only [update_of_ne hq]
      exact h.regs q
  locks := hl

/-- **One move** keeps the invariant. -/
theorem SpinState.Inv.step {m : SpinMove P} (h : s.Inv) (hstep : SpinStep m s s') : s'.Inv := by
  obtain ⟨hlegal, rfl⟩ := hstep
  cases m with
  | acquire p lock =>
      have hout : (s.procs p).pc = .out := hlegal
      refine h.set trivial fun l hl => (h.locks l hl).same rfl ?_
      simp [tokens_eq, SpinProc.Owning, hout]
  | release p lock =>
      obtain ⟨hout, hheld⟩ := hlegal
      refine h.set trivial fun l hl => (h.locks l hl).same rfl ?_
      by_cases hle : lock = l
      · -- what was held is now being released
        subst hle
        have hmem := List.count_pos_iff.mpr (hheld.resolve_left hl)
        simp [tokens_eq, SpinProc.Owning, hout]
        omega
      · simp [tokens_eq, SpinProc.Owning, hout, hle, List.count_erase_of_ne (Ne.symm hle)]
  | insn p =>
      refine h.set (insn_spec s.locked (h.regs p) (l := 1) (by decide)).1 fun l hl => ?_
      exact (h.locks l hl).move (insn_spec s.locked (h.regs p) hl).2

omit [DecidableEq P] in
theorem SpinStart.inv (h : SpinStart s) : s.Inv where
  regs := fun p => by
    rw [SpinProc.RegsOk, h.out p]
    trivial
  locks := fun l _ => by
    refine Or.inl ⟨h.locked l, fun p => ?_⟩
    simp [tokens_eq, SpinProc.Owning, h.out p, h.held p]

theorem SpinReach.inv (h : SpinReach s) : s.Inv :=
  Reach.invariant SpinState.Inv (fun _ h => h.inv) (fun _ _ _ h hstep => h.step hstep) h

/-! ## Mutual exclusion -/

/-- The next four instructions of a process. -/
def SpinState.fourInsns (s : SpinState P) (p : P) : SpinState P :=
  (fun s => (SpinMove.insn p).run s)^[4] s

theorem insn_run_update (locked : U32 → U32) (procs : P → SpinProc) (p : P) (y : SpinProc) :
    (SpinMove.insn p).run ⟨locked, update procs p y⟩
      = ⟨(y.insn locked).1, update procs p (y.insn locked).2⟩ := by
  simp only [SpinMove.run, update_self, update_idem]

/-- A process that spins finds the lock free. -/
theorem fourInsns_spin (procs : P → SpinProc) (p : P) (hr : x.RegsOk)
    (hpc : x.pc = .acquire l .zero) (h0 : locked l = 0) :
    SpinState.fourInsns ⟨locked, update procs p x⟩ p = ⟨update locked l 1, update procs p
      { x with pc := .acquire l .pop, eax := 0, ecx := 1, zf := true }⟩ := by
  cases x with
  | mk pc eax ecx edx zf pushed held =>
  obtain rfl : pc = .acquire l .zero := hpc
  obtain ⟨rfl, _⟩ : edx = l ∧ l ≠ 0 := hr
  have hzero : SpinProc.insn locked ⟨.acquire edx .zero, eax, ecx, edx, zf, pushed, held⟩
      = (locked, ⟨.acquire edx .one, 0, ecx, edx, zf, pushed, held⟩) := rfl
  have hone : SpinProc.insn locked ⟨.acquire edx .one, 0, ecx, edx, zf, pushed, held⟩
      = (locked, ⟨.acquire edx .cmpxchg, 0, 1, edx, zf, pushed, held⟩) := rfl
  have hcmpxchg : SpinProc.insn locked ⟨.acquire edx .cmpxchg, 0, 1, edx, zf, pushed, held⟩
      = (update locked edx 1, ⟨.acquire edx .jnz, 0, 1, edx, true, pushed, held⟩) := if_pos h0
  show (SpinMove.insn p).run ((SpinMove.insn p).run ((SpinMove.insn p).run
    ((SpinMove.insn p).run ⟨locked, update procs p _⟩))) = _
  rw [insn_run_update, hzero, insn_run_update, hone, insn_run_update, hcmpxchg, insn_run_update]
  rfl

/-- **Spin locks exclude.**  In every interleaving, a lock is 1 if it has an owner and 0
if not, and it has at most one; what a process has acquired and not begun to
release it owns.  A process that spins on a free lock has it after four
instructions of its own. -/
theorem spinlock_exclusive (h : SpinReach s) (hl : l ≠ 0) :
    (∃ o : Option P, s.locked l = (if o.isSome then 1 else 0) ∧ ∀ p, s.Owns p l ↔ o = some p) ∧
      (∀ p, l ∈ (s.procs p).held → s.Owns p l) ∧
      ∀ p, s.locked l = 0 → (s.procs p).pc = .acquire l .zero →
        ((s.fourInsns p).procs p).pc = .acquire l .pop ∧ (s.fourInsns p).Owns p l := by
  refine ⟨?_, fun p hp => ?_, fun p h0 hpc => ?_⟩
  · rcases h.inv.locks l hl with ⟨h0, hfree⟩ | ⟨h1, o, ho, hothers⟩
    · refine ⟨none, h0, fun p => ?_⟩
      rw [SpinState.Owns, hfree p]
      exact iff_of_false (Nat.lt_irrefl 0) (Option.some_ne_none p).symm
    · refine ⟨some o, h1, fun p => ?_⟩
      rw [SpinState.Owns, Option.some_inj]
      constructor
      · intro hp
        by_contra hne
        rw [hothers p (Ne.symm hne)] at hp
        exact Nat.lt_irrefl 0 hp
      · rintro rfl
        rw [ho]
        exact Nat.one_pos
  · rw [SpinState.Owns, tokens_eq]
    exact Nat.add_pos_left (List.count_pos_iff.mpr hp) _
  · have hrun := fourInsns_spin s.procs p (h.inv.regs p) hpc h0
    rw [update_eq_self] at hrun
    rw [show s.fourInsns p = _ from hrun, SpinState.Owns]
    simp only [update_self]
    exact ⟨trivial, by simp [tokens_eq, SpinProc.Owning]⟩

/-- No process has called. -/
def noSpins : SpinState Bool := ⟨fun _ => 0, fun _ => ⟨.out, 0, 0, 0, false, 0, []⟩⟩

/-- Two processes call for the lock at 0x1000. -/
def twoSpins : SpinState Bool :=
  (SpinMove.acquire false 0x1000).run ((SpinMove.acquire true 0x1000).run noSpins)

theorem twoSpins_reach : SpinReach twoSpins := by
  have hfirst : SpinStep (.acquire true 0x1000) noSpins ((SpinMove.acquire true 0x1000).run noSpins) :=
    ⟨(rfl : (noSpins.procs true).pc = .out), rfl⟩
  have hsecond : SpinStep (.acquire false 0x1000) ((SpinMove.acquire true 0x1000).run noSpins) twoSpins :=
    ⟨(rfl : (((SpinMove.acquire true 0x1000).run noSpins).procs false).pc = .out), rfl⟩
  exact .next (.next (.start ⟨fun _ => rfl, fun _ => rfl, fun _ => rfl⟩) hfirst) hsecond

/-- The instructions of the processes, in this order. -/
def SpinState.insns (s : SpinState P) (l : List P) : SpinState P :=
  l.foldl (fun s p => (SpinMove.insn p).run s) s

/-- The second process has come to the exchange when the first one takes the lock. -/
def twoSpinsInsns : List Bool :=
  List.replicate 6 false ++ List.replicate 10 true ++ List.replicate 5 false

theorem spinlock_exclusive_two : ((twoSpins.insns twoSpinsInsns).procs true).held = [0x1000] ∧
    ∃ o : Option Bool, (twoSpins.insns twoSpinsInsns).locked 0x1000 = (if o.isSome then 1 else 0) ∧
      ∀ p, (twoSpins.insns twoSpinsInsns).Owns p 0x1000 ↔ o = some p := by
  have hreach : SpinReach (twoSpins.insns twoSpinsInsns) :=
    Reach.foldl (fun p _ => ⟨.insn p, trivial, rfl⟩) twoSpins_reach twoSpinsInsns
  exact ⟨by decide +kernel, (spinlock_exclusive hreach (by decide)).1⟩

end Tomk
