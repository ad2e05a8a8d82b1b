/-
# `scheduler_unload_process`, one instruction at a time

The four steps of `UnloadMove` take each list operation for one step.  Here it is
what the source has: `critsec_enter`, the statements of `procman_remove` or
`procman_append`, and `critsec_leave`, with the timer between any two
instructions where the interrupt flag is set, and `scheduler_switch` in its
handler.

Any number of processes unload the same process.  Wherever an interrupt may come, the scheduler is
in a state that the four-step system reaches (`unload_refines`); so what is proved of that one
over every interleaving of steps holds over every interleaving of instructions.
-/
import Tomk.Ke.Critsec
import Tomk.Sched.Unload

namespace Tomk

open Function Masking Runs

/-! ## The source -/

/-- The statements of `procman_append`. -/
def procmanAppendBody (w : Which) (proc : U32) : Stmt Sched :=
  .seq (.write fun s => s.setProc proc { s.procs proc with next := 0 })
    (.seq (.write fun s => s.setProc proc { s.procs proc with prev := (s.man w).tail })
      (.seq (.write fun s => s.setNext w (s.man w).tail proc)
        (.write fun s => s.setMan w { s.man w with tail := proc })))

/-- The statements of `procman_remove`. -/
def procmanRemoveBody (w : Which) (proc : U32) : Stmt Sched :=
  .seq (.write fun s => s.setNext w (s.procs proc).prev (s.procs proc).next)
    (.seq (.write fun s => s.setPrev w (s.procs proc).next (s.procs proc).prev)
      (.seq (.write fun s => s.setProc proc { s.procs proc with next := 0 })
        (.seq (.write fun s => s.setProc proc { s.procs proc with prev := 0 })
          (.write fun s =>
            if (s.man w).current = proc then s.setMan w { s.man w with current := 0 } else s))))

theorem procmanAppendBody_effect (w : Which) (proc : U32) (s : Sched) :
    (procmanAppendBody w proc).effect s = procmanAppend s w proc := rfl

theorem procmanRemoveBody_effect (w : Which) (proc : U32) (s : Sched) :
    (procmanRemoveBody w proc).effect s = procmanRemove s w proc := rfl

/-- `proc->flags |= PROC_FLAG_KILL;` -/
def setKill (proc : U32) (s : Sched) : Sched :=
  s.setProc proc { s.procs proc with flags := (s.procs proc).flags ||| procFlagKill }

/-- `proc_deregister` behind its tests. -/
def moveCode (proc : U32) : List (Insn Sched) :=
  (Stmt.critical (procmanRemoveBody .active proc)).code ++
    ((Stmt.critical (procmanAppendBody .inactive proc)).code ++ [.write (setKill proc)])

/-- `proc_deregister`; the test of the pointer needs nothing that is shared. -/
def procDeregisterCode (proc : U32) : List (Insn Sched) :=
  if proc = 0 then []
  else .test (fun s => decide ¬ (s.procs proc).Has procFlagKill) :: .jz (moveCode proc).length ::
    moveCode proc

/-- The processes are about to call. -/
structure UnloadCodeStart (proc : U32) (xs ys : List U32) (s : State Nat (Thread Sched) Sched) :
    Prop where
  lists : s.shared.Lists xs ys
  active : proc ∈ xs
  flag : ∀ i, (s.threads i).If
  code : ∀ i, (s.threads i).code = procDeregisterCode proc

/-- The handler of the timer. -/
def timerHandler (s : Sched) : Sched := (schedulerSwitch s).2

def UnloadCodeReach (proc : U32) (xs ys : List U32) : State Nat (Thread Sched) Sched → Prop :=
  Reach (UnloadCodeStart proc xs ys) ((threads Sched).Step timerHandler)

/-! ## The four steps -/

/-- What one step of `UnloadState.next` does. -/
def unloadNext (proc : U32) (pc : UnloadPc) (s : Sched) : UnloadPc × Sched :=
  match pc with
  | .idle => (if proc = 0 ∨ (s.procs proc).Has procFlagKill then .done else .tested, s)
  | .tested => (.removed, procmanRemove s .active proc)
  | .removed => (.appended, procmanAppend s .inactive proc)
  | .appended => (.done, setKill proc s)
  | .done => (.done, s)

variable {proc : U32} {xs ys : List U32} {u : UnloadState} {t : Thread Sched}

theorem next_eq (u : UnloadState) (i : Nat) : u.next proc i =
    ⟨(unloadNext proc (u.pc i) u.sched).2, update u.pc i (unloadNext proc (u.pc i) u.sched).1⟩ := by
  rw [UnloadState.next]
  cases h : u.pc i with
  | idle =>
      simp only [unloadNext]
      split <;> rfl
  | done => simp only [unloadNext, ← h, update_eq_self]
  | _ => rfl

/-- An action of the one system is a move of the other. -/
theorem unloadReach_of_actions {init : Actions Nat UnloadPc Sched → Prop}
    (h0 : ∀ n, init n → UnloadStart proc xs ys ⟨n.shared, n.threads⟩) {n : Actions Nat UnloadPc Sched}
    (h : Reach init (ActionStep (unloadNext proc) timerHandler) n) :
    Reach (UnloadStart proc xs ys) (UnloadStep proc) ⟨n.shared, n.threads⟩ := by
  induction h with
  | start hi => exact .start (h0 _ hi)
  | @next a n n' _ hstep ih =>
      cases a with
      | none =>
          obtain rfl := hstep
          exact .next ih (show UnloadStep proc .switch _ _ from rfl)
      | some i =>
          obtain rfl := hstep
          exact .next ih (show UnloadStep proc (.call i) _ _ from (next_eq ⟨n.shared, n.threads⟩ i).symm)

/-! ## Instructions -/

/-- Where a process is in the code when it has come to a step, with interrupts on. -/
inductive AtStep (proc : U32) (t : Thread Sched) : UnloadPc → Prop
  | idle : t.code = procDeregisterCode proc → AtStep proc t .idle
  | clear : t.code = .jz (moveCode proc).length :: moveCode proc → t.zf = false → AtStep proc t .tested
  | tested : Entering (procmanRemoveBody .active proc)
      ((Stmt.critical (procmanAppendBody .inactive proc)).code ++ [.write (setKill proc)]) t →
      AtStep proc t .tested
  | removed : Entering (procmanAppendBody .inactive proc) [.write (setKill proc)] t →
      AtStep proc t .removed
  | appended : t.code = [.write (setKill proc)] → AtStep proc t .appended
  | killed : t.code = .jz (moveCode proc).length :: moveCode proc → t.zf = true → AtStep proc t .done
  | done : t.code = [] → AtStep proc t .done

def AtPc (proc : U32) (t : Thread Sched) (pc : UnloadPc) : Prop := t.If ∧ AtStep proc t pc

theorem implements_unload (proc : U32) :
    Implements (threads Sched) (unloadNext proc) (AtPc proc) where
  unmasked := fun t pc h => not_not.mpr h.1
  step := fun t pc x h => by
    obtain ⟨hon, h⟩ := h
    show (AtPc proc (t.step x).1 pc ∧ (t.step x).2 = x) ∨ Closes (threads Sched) (AtPc proc)
      (unloadNext proc pc x).1 (unloadNext proc pc x).2 (t.step x).1 (t.step x).2
    cases h with
    | idle hcode =>
        by_cases hp : proc = 0
        · rw [procDeregisterCode, if_pos hp] at hcode
          rw [Thread.step, hcode, unloadNext, if_pos (Or.inl hp)]
          exact Or.inr (.done ⟨hon, .done hcode⟩)
        · rw [procDeregisterCode, if_neg hp] at hcode
          rw [step_cons hcode, unloadNext]
          refine Or.inr (.done ⟨hon, ?_⟩)
          by_cases hk : (x.procs proc).Has procFlagKill
          · rw [if_pos (Or.inr hk)]
            exact .killed rfl (by simp [Insn.run, hk])
          · rw [if_neg (not_or.mpr ⟨hp, hk⟩)]
            exact .clear rfl (by simp [Insn.run, hk])
    | clear hcode hz =>
        rw [step_cons hcode]
        refine Or.inl ⟨⟨?_, .tested (.start ?_)⟩, ?_⟩
        all_goals simp only [Insn.run, hz, Bool.false_eq_true, if_false]
        · exact hon
        · rfl
    | tested hent =>
        rw [unloadNext, ← procmanRemoveBody_effect]
        exact hent.step hon (fun t' h' hon' => ⟨hon', .tested h'⟩)
          (fun t' h' hon' => ⟨hon', .removed (.start h')⟩) x
    | removed hent =>
        rw [unloadNext, ← procmanAppendBody_effect]
        exact hent.step hon (fun t' h' hon' => ⟨hon', .removed h'⟩)
          (fun t' h' hon' => ⟨hon', .appended h'⟩) x
    | appended hcode =>
        rw [step_cons hcode]
        exact Or.inr (.done ⟨hon, .done rfl⟩)
    | killed hcode hz =>
        rw [step_cons hcode]
        refine Or.inl ⟨⟨?_, .done ?_⟩, ?_⟩
        all_goals simp only [Insn.run, hz, if_true]
        · exact hon
        · exact List.drop_length
    | done hcode =>
        rw [Thread.step, hcode]
        exact Or.inl ⟨⟨hon, .done hcode⟩, rfl⟩

/-- **Instructions refine the four steps.**  Wherever an interrupt may come, the scheduler
is as in a run of the four-step system, with every process where it is there;
and a process that is not running is never within a list operation. -/
theorem unload_refines {s : State Nat (Thread Sched) Sched} (h : UnloadCodeReach proc xs ys s) :
    ∃ u, Reach (UnloadStart proc xs ys) (UnloadStep proc) u ∧
      (∀ i, i ≠ s.running → AtPc proc (s.threads i) (u.pc i)) ∧
      ((s.threads s.running).If →
        AtPc proc (s.threads s.running) (u.pc s.running) ∧ s.shared = u.sched) := by
  have h0 : ∀ s, UnloadCodeStart proc xs ys s → ∃ n : Actions Nat UnloadPc Sched,
      UnloadStart proc xs ys ⟨n.shared, n.threads⟩ ∧ Simulates (threads Sched) (AtPc proc) s n := by
    intro s hs
    have hat : ∀ i, AtPc proc (s.threads i) .idle := fun i => ⟨hs.flag i, .idle (hs.code i)⟩
    exact ⟨⟨s.shared, fun _ => .idle⟩, ⟨hs.lists, hs.active, fun _ => rfl⟩, .done (hat s.running),
      fun i _ => hat i⟩
  obtain ⟨n, hn, hsim⟩ := (implements_unload proc).simulates h0 h
  refine ⟨_, unloadReach_of_actions (fun n hn => hn) hn, hsim.others, fun hon => ?_⟩
  obtain ⟨hall, hx⟩ := hsim.open (not_not.mpr hon)
  exact ⟨hall s.running, hx⟩

/-- The processes of `twoCalls`, at the first instruction. -/
def twoCallsCode : State Nat (Thread Sched) Sched :=
  ⟨twoActive, fun _ => ⟨procDeregisterCode 0x400, 0, false, 0x202, [], []⟩, 0⟩

/-- The one process has begun to enter `procman_remove` when the timer comes, and the other one
is within it. -/
def twoCallsMoves : List (Move Nat) :=
  List.replicate 4 .insn ++ .tick 1 :: List.replicate 10 .insn

theorem unload_refines_two : ∃ s u,
    twoCallsMoves.foldlM ((threads Sched).run timerHandler) twoCallsCode = some s ∧
      Reach (UnloadStart 0x400 [0x100, 0x400] []) (UnloadStep 0x400) u ∧
      AtPc 0x400 (s.threads 0) (u.pc 0) := by
  obtain ⟨s, hrun, hrunning⟩ : ∃ s,
      twoCallsMoves.foldlM ((threads Sched).run timerHandler) twoCallsCode = some s ∧
        s.running = 1 := ⟨_, rfl, rfl⟩
  have hstart : UnloadCodeStart 0x400 [0x100, 0x400] [] twoCallsCode :=
    ⟨twoCalls_start.lists, twoCalls_start.active,
      fun _ => (by decide : (0x202 : U32).getLsbD 9 = true), fun _ => rfl⟩
  obtain ⟨u, hu, hothers, _⟩ :=
    unload_refines (.foldlM (fun _ _ _ _ h => Threads.run_step h) (.start hstart) hrun)
  refine ⟨s, u, hrun, hu, hothers 0 ?_⟩
  rw [hrunning]
  decide

end Tomk
