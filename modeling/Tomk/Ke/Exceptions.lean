/-
# `exceptions.c` and `stackframe.c`: the call stack

`print_call_stack` follows the saved `ebp` from frame to frame.  It stops at the null pointer and
at an address that the page tables do not map, and it reads two dwords of every
other frame, whatever they are.  An access that the processor does not let through ends the walk as
well.  The memory is as it was when the exception came: what `kprint` writes, the screen and its own
words, is not followed here.

Nothing in the loop measures the frames against each other.  So the walk ends if and only if its
chain of links does not come back to a frame (`printCallStack_terminates_iff`); a frame that is its own
caller is enough to print for ever (`printCallStack_endless`).
-/
import Tomk.Disasm.Mnem
import Tomk.Lib.Chain

namespace Tomk

open Chain Disasm

/-! ## The source -/

/-- Of `exception_state_t`, what `print_call_stack` reads. -/
structure ExceptionState where
  eip : U32
  ebp : U32

/-- `stackframe_next`: `frame->caller`. -/
def stackframeNext (mmu : Mmu) (frame : U32) : Option U32 :=
  if frame = 0 then some 0 else loadDword frame mmu

/-- The condition of the loop. -/
def frameLive (mmu : Mmu) (frame : U32) : Option Bool :=
  if frame = 0 then some false else (pgVirt2phys mmu frame).map fun phys => phys ≠ 0

inductive WalkEnd where
  | ret
  | fault
deriving DecidableEq

/-- The loop of `print_call_stack`, for `n` evaluations of its condition at most, with the
addresses printed so far. -/
def printCallStackLoop (mmu : Mmu) : Nat → U32 → List U32 → Option (WalkEnd × List U32)
  | 0, _, _ => none
  | n + 1, frame, printed =>
      match frameLive mmu frame with
      | none => some (.fault, printed)
      | some false => some (.ret, printed)
      | some true =>
          match loadDword (frame + 4) mmu with
          | none => some (.fault, printed)
          | some returnAddress =>
              let printed := printed ++ [returnAddress - 1]
              match stackframeNext mmu frame with
              | none => some (.fault, printed)
              | some caller => printCallStackLoop mmu n caller printed

def printCallStack (mmu : Mmu) (n : Nat) (state : ExceptionState) : Option (WalkEnd × List U32) :=
  printCallStackLoop mmu n state.ebp [state.eip]

/-! ## The chain of frames -/

/-- `print_call_stack` visits finitely many frames: some number of turns is enough. -/
def WalkEnds (mmu : Mmu) (state : ExceptionState) : Prop :=
  ∃ n, (printCallStack mmu n state).isSome

/-- The link that the walk takes from a frame: the saved `ebp`, where the frame is live and can be
read. -/
def savedEbp (mmu : Mmu) (frame : U32) : Option U32 := do
  let live ← frameLive mmu frame
  if live then
    let _ ← loadDword (frame + 4) mmu
    stackframeNext mmu frame
  else none

variable {mmu : Mmu} {frame caller : U32} {printed : List U32}

/-- With no link to take the loop stops in this turn. -/
theorem printCallStackLoop_stops (h : savedEbp mmu frame = none) (n : Nat) (printed : List U32) :
    (printCallStackLoop mmu (n + 1) frame printed).isSome := by
  rw [printCallStackLoop]
  rw [savedEbp] at h
  cases hlive : frameLive mmu frame with
  | none => rfl
  | some live =>
      cases live with
      | false => rfl
      | true =>
          cases hret : loadDword (frame + 4) mmu with
          | none => rfl
          | some returnAddress =>
              have hnext : stackframeNext mmu frame = none := by
                rw [hlive, hret] at h
                exact h
              rw [hnext]
              rfl

/-- With a link to take the loop goes on behind it. -/
theorem printCallStackLoop_goes (h : savedEbp mmu frame = some caller) (printed : List U32) :
    ∃ line, ∀ n, printCallStackLoop mmu (n + 1) frame printed =
      printCallStackLoop mmu n caller (printed ++ [line]) := by
  rw [savedEbp] at h
  obtain ⟨live, hlive, h⟩ := Option.bind_eq_some_iff.mp h
  cases live with
  | false => cases h
  | true =>
      obtain ⟨returnAddress, hret, hnext⟩ := Option.bind_eq_some_iff.mp h
      refine ⟨returnAddress - 1, fun n => ?_⟩
      rw [printCallStackLoop, hlive, hret, hnext]

/-- **The turns** of the loop are the links of the chain. -/
theorem printCallStackLoop_isSome_iff (n : Nat) (frame : U32) (printed : List U32) :
    (printCallStackLoop mmu n frame printed).isSome ↔ nth (savedEbp mmu) n frame = none := by
  induction n generalizing frame printed with
  | zero =>
      rw [printCallStackLoop, nth]
      exact iff_of_false Bool.false_ne_true (Option.some_ne_none _)
  | succ n ih =>
      rw [nth]
      cases hlink : savedEbp mmu frame with
      | none => exact iff_of_true (printCallStackLoop_stops hlink n printed) rfl
      | some caller =>
          obtain ⟨line, hgoes⟩ := printCallStackLoop_goes hlink printed
          rw [hgoes n]
          exact ih caller _

theorem walkEnds_iff (mmu : Mmu) (state : ExceptionState) :
    WalkEnds mmu state ↔ Ends (savedEbp mmu) state.ebp :=
  exists_congr fun n => printCallStackLoop_isSome_iff n state.ebp _

/-! ## Termination -/

instance finite_word : Finite U32 :=
  Finite.of_injective BitVec.toFin fun _ _ h => BitVec.eq_of_toFin_eq h

/-- **The walk terminates** if and only if the links from `ebp` do not come back to a frame that they
have been at. -/
theorem printCallStack_terminates_iff (mmu : Mmu) (state : ExceptionState) :
    WalkEnds mmu state ↔ ¬ Recurs (savedEbp mmu) state.ebp :=
  (walkEnds_iff mmu state).trans ends_iff

/-- One page at `0x1000`, with a frame that holds its own address. -/
def selfLinked : Mmu where
  cr3 := 1
  mem f i :=
    if f = 1 then if i = 1023 then 0x1003 else if i = 0 then 0x2003 else 0
    else if f = 2 then if i = 1 then 0x3003 else 0
    else if f = 3 then if i = 0 then 0x1000 else if i = 1 then 0x80100001 else 0
    else 0

theorem savedEbp_selfLinked : savedEbp selfLinked 0x1000 = some 0x1000 := by decide +kernel

/-- A frame that is its own caller. -/
theorem printCallStack_endless : ¬ ∀ mmu state, WalkEnds mmu state := by
  intro h
  have hends := (walkEnds_iff selfLinked ⟨0x80100001, 0x1000⟩).mp (h _ _)
  have hrec : Recurs (savedEbp selfLinked) 0x1000 :=
    ⟨0, 1, 0x1000, Nat.zero_lt_one, rfl, by rw [nth, savedEbp_selfLinked]; rfl⟩
  exact hrec.not_ends hends

end Tomk
