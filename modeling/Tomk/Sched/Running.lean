/-
# Which process is running

A tick of the timer interrupts the process that was loaded last, saves its
registers into the process that `scheduler_switch` names, and loads the next
one.  The process on the processor is not a variable of the scheduler: it is
kept beside the state here, with the registers that every process had when it
was last interrupted.

The scheduler takes its current process for the one on the processor.  Unloading
the process that is running makes them differ: there is no current process then,
the next tick takes the first one of the list, and soon saves into it what
belongs to the process that was unloaded (`schedulerRun_unloadRunning`).  In
every run without that, each save is into the process that was interrupted, and
a process comes back with the registers it had (`schedulerRun_resumes`).
-/
import Tomk.Sched.SchedulerRun

namespace Tomk

open DList Function Runs

/-! ## Ticks -/

/-- A tick: the registers that it interrupts, and what the calls of the handler
leave in the registers that they may change. -/
structure Tick where
  gate : Gate
  cpu : Cpu
  eax : U32
  ecx : U32
  edx : U32
  eflags : U32

/-- The scheduler, the process that was loaded last, and the registers of the
processes at their last interruption. -/
structure RunState extends SchedState where
  running : U32
  saved : U32 → Option Cpu

/-- `cswitch_handler`. -/
def RunState.tick (s : RunState) (t : Tick) : RunState :=
  let saved := update s.saved s.running (some t.cpu)
  match schedulerSwitch s.sched with
  | (none, sched) => { s with sched := sched, saved := saved }
  | (some (current, next), sched) =>
      let (regs, frame) := handlerEntry t.gate t.cpu t.eax t.ecx t.edx t.eflags
      let x := sched.procs current
      let x := { x with context := cswitchSave regs frame x.context }
      { s with sched := sched.setProc current x, running := next, saved := saved }

inductive Event where
  | call (c : SchedCall)
  | tick (t : Tick)

/-- The process is switched by ticks only. -/
def Event.Legal (s : RunState) : Event → Prop
  | .call c => c ≠ .switch ∧ c.Legal s.toSchedState
  | .tick _ => True

/-- A process that is made anew has not been interrupted. -/
def Event.run (y : Symbols) (s : RunState) : Event → RunState
  | .call c => { s with toSchedState := c.run y s.toSchedState, saved := update s.saved c.made none }
  | .tick t => s.tick t

def RunStep (y : Symbols) (e : Event) (s s' : RunState) : Prop :=
  e.Legal s ∧ s' = e.run y s

/-- After `scheduler_init` has come to the end; `.kinit` is running. -/
def RunStart (y : Symbols) (s : RunState) : Prop :=
  ∃ s0 kinit idle sched idleStack schedStack, kinit ≠ 0 ∧ idle ≠ 0 ∧ sched ≠ 0 ∧
    (initProcs kinit idle sched).Nodup ∧
    s = ⟨⟨schedulerInit y s0 kinit idle sched idleStack schedStack, initProcs kinit idle sched⟩,
      kinit, fun _ => none⟩

/-! ## What is asked -/

/-- The registers that are loaded from the context are `c`. -/
def Context.Restores (ctx : Context) (c : Cpu) : Prop := ∀ m, (cswitchLoad m ctx).toCpu = c

/-- A tick saves into the process it interrupted, and loads the next one with the
registers that it had at its last interruption. -/
def RunState.Resumes (s : RunState) : Prop :=
  ∀ (t : Tick) (current next : U32), (schedulerSwitch s.sched).1 = some (current, next) →
    current = s.running ∧ ∀ c, (s.tick t).saved next = some c →
      ((s.tick t).sched.procs next).context.Restores c

/-- The property as it is asked: in every state that a run reaches. -/
def SchedulerResumes : Prop :=
  ∀ (y : Symbols) (s : RunState), Reach (RunStart y) (RunStep y) s → s.Resumes

/-- The running process has had its time, and another one follows. -/
def RunState.TurnOver (s : RunState) : Prop :=
  (processUpdate s.sched s.running).1 = true ∧ nextInTurn s.sched s.running ≠ s.running

/-- Processes are unloaded where they can be taken out, and the running one is not. -/
def Event.Removable : Event → RunState → Prop
  | .call c, s => c.Orderly s.toSchedState ∧
      (c = .unload s.running → (s.sched.procs s.running).Has procFlagKill)
  | .tick _, _ => True

/-- The running process is not unloaded; a user that a tick saves has its stack
where its context has it, up to the lower 16 bits. -/
def Event.Orderly : Event → RunState → Prop
  | .call c, s => c.Orderly s.toSchedState ∧
      (c = .unload s.running → (s.sched.procs s.running).Has procFlagKill)
  | .tick t, s => s.TurnOver → ¬ UserMode t.cpu.cs.dword ∨
      t.cpu.esp >>> 16 = (s.sched.procs s.running).context.esp >>> 16

variable {y : Symbols} {s s' : RunState} {t t' : Sched} {w : Which} {p q : U32} {xs ys : List U32}
  {S : U32 → Prop}

/-! ## What the calls keep -/

/-- The current process stays, and so do the contexts of the processes outside
`S`. -/
structure Keeps (S : U32 → Prop) (t t' : Sched) : Prop where
  current : t'.active.current = t.active.current
  context : ∀ q, ¬ S q → (t'.procs q).context = (t.procs q).context

theorem Keeps.refl (S : U32 → Prop) (t : Sched) : Keeps S t t := ⟨rfl, fun _ _ => rfl⟩

theorem Keeps.trans {t'' : Sched} (h : Keeps S t t') (h' : Keeps S t' t'') : Keeps S t t'' where
  current := h'.current.trans h.current
  context := fun q hq => (h'.context q hq).trans (h.context q hq)

theorem keeps_setProc (t : Sched) (p : U32) (x : Process) (hx : S p ∨ x.context = (t.procs p).context) :
    Keeps S t (t.setProc p x) where
  current := rfl
  context := fun q hq => by
    rw [Sched.setProc_procs]
    split
    · next hqp =>
        subst hqp
        exact hx.resolve_left hq
    · rfl

theorem keeps_append (S : U32 → Prop) (t : Sched) (w : Which) (hp : p ≠ 0) :
    Keeps S t (procmanAppend t w p) :=
  ⟨(procmanAppend_writes t w hp).current .active, fun q _ => (Process.core_eq (procmanAppend_core t w hp q)).1⟩

/-- A process that is not the current one is removed. -/
theorem keeps_remove (S : U32 → Prop) (t : Sched) (hp : p ≠ 0)
    (hc : w = .active → t.active.current ≠ p) : Keeps S t (procmanRemove t w p) := by
  refine ⟨?_, fun q _ => (Process.core_eq (procmanRemove_core t w hp q)).1⟩
  have hcur := procmanRemove_current (unlinkProc_writes t w hp) .active
  rw [if_neg] at hcur
  · exact hcur
  · rintro ⟨rfl, hcp⟩
    exact hc rfl hcp

theorem keeps_register (t : Sched) (p path entry flags : U32) :
    Keeps (fun q => q = p) t (procRegister t p path entry flags) := by
  by_cases hp : p = 0
  · simp only [procRegister, if_pos hp]
    exact Keeps.refl _ t
  · simp only [procRegister, if_neg hp]
    have hset : ∀ (t : Sched) (x : Process), Keeps (fun q => q = p) t (t.setProc p x) :=
      fun t x => keeps_setProc t p x (Or.inl rfl)
    exact ((((hset t _).trans (hset _ _)).trans (hset _ _)).trans (hset _ _)).trans
      (keeps_append _ _ .inactive hp)

theorem keeps_deregister (S : U32 → Prop) (t : Sched) (p : U32)
    (hc : p ≠ 0 → ¬ (t.procs p).Has procFlagKill → t.active.current ≠ p) :
    Keeps S t (procDeregister t p) := by
  by_cases hp : p = 0
  · rw [procDeregister, if_pos hp]
    exact Keeps.refl S t
  by_cases hk : (t.procs p).Has procFlagKill
  · rw [procDeregister, if_neg hp, if_pos hk]
    exact Keeps.refl S t
  · simp only [procDeregister, if_neg hp, if_neg hk]
    exact ((keeps_remove S t hp fun _ => hc hp hk).trans (keeps_append S _ .inactive hp)).trans
      (keeps_setProc _ p _ (Or.inr rfl))

theorem keeps_create (y : Symbols) (t : Sched) (hp : p ≠ 0) (stack pd : U32) :
    Keeps (fun q => q = p) t (createProc y t p stack pd).2 := by
  rcases createProc_cases y t p stack pd with ⟨_, x, _, _, _, hrun⟩ | ⟨_, x, mem, _, hrun⟩
  · rw [hrun]
    exact keeps_setProc t p x (Or.inl rfl)
  · rw [hrun]
    have hset : Keeps (fun q => q = p) t (t.setProc p x) := keeps_setProc t p x (Or.inl rfl)
    have hprep : Keeps (fun q => q = p) t (preparedProc t p x mem) := ⟨rfl, hset.context⟩
    generalize preparedProc t p x mem = u at hprep
    have hrem : Keeps (fun q => q = p) u (procmanRemove u .inactive p) :=
      keeps_remove _ u hp fun h => absurd h (by decide)
    exact (hprep.trans hrem).trans (keeps_append _ _ .active hp)

theorem keeps_destroy (S : U32 → Prop) (t : Sched) (p : U32) : Keeps S t (destroyProc t p).2 := by
  by_cases hp : p = 0
  · rw [destroyProc, if_pos hp]
    exact Keeps.refl S t
  · rw [destroyProc_snd hp]
    exact keeps_remove S t hp fun h => absurd h (by decide)

/-- **One call**: the current process stays, unless it is unloaded, and the
contexts but of a process that is made anew. -/
theorem SchedCall.keeps {s : SchedState} {c : SchedCall} (hs : s.Holds xs ys) (hlegal : c.Legal s)
    (hne : c ≠ .switch)
    (hc : c = .unload s.sched.active.current →
      (s.sched.procs s.sched.active.current).Has procFlagKill) :
    Keeps (fun q => q = c.made) s.sched (c.run y s).sched := by
  cases c with
  | load user proc path entry => cases user <;> exact keeps_register s.sched proc path entry _
  | unload proc =>
      refine keeps_deregister _ s.sched proc fun _ hk hcur => ?_
      subst hcur
      exact hk (hc rfl)
  | create proc stack pd =>
      exact keeps_create y s.sched (hs.lists.inactive.ne (hs.lists.scanned_iff.mp hlegal.1)) stack pd
  | destroy proc => exact keeps_destroy _ s.sched proc
  | switch => exact absurd rfl hne

/-! ## The invariant -/

/-- The current process is the one that is running. -/
structure RunState.Follows (s : RunState) (xs : List U32) : Prop where
  current : s.sched.active.current = s.running
  running : s.running ∈ xs

/-- The other active processes have the registers of their last interruption in their
contexts. -/
structure RunState.Faithful (s : RunState) (xs : List U32) : Prop extends s.Follows xs where
  saved : ∀ q ∈ xs, q ≠ s.running → ∀ c, s.saved q = some c →
    (s.sched.procs q).context.Restores c

/-- The registers of a process stay what they are, if it is not made anew. -/
structure CallKeeps (c : SchedCall) (t t' : Sched) (xs xs' : List U32) : Prop where
  keeps : Keeps (fun q => q = c.made) t t'
  active : ∀ q ∈ xs', q ∈ xs ∨ q = c.made

theorem Event.Orderly.removable {e : Event} (h : e.Orderly s) : e.Removable s := by
  cases e with
  | call c => exact h
  | tick t => trivial

theorem RunState.Follows.call {c : SchedCall} (hf : s.Follows xs)
    (hs : s.toSchedState.Holds xs ys) (hlegal : (Event.call c).Legal s)
    (ho : (Event.call c).Removable s) : ∃ xs' ys',
      ((Event.call c).run y s).toSchedState.Holds xs' ys' ∧ ((Event.call c).run y s).Follows xs' ∧
        CallKeeps c s.sched ((Event.call c).run y s).sched xs xs' := by
  obtain ⟨hne, hlegal⟩ := hlegal
  obtain ⟨ho, hrun⟩ := ho
  obtain ⟨xs', ys', hs', hin, hout⟩ := hs.step (y := y) ho ⟨hlegal, rfl⟩
  have hk : Keeps (fun q => q = c.made) s.sched (c.run y s.toSchedState).sched :=
    SchedCall.keeps hs hlegal hne (by rw [hf.current]; exact hrun)
  refine ⟨xs', ys', hs', ⟨hk.current.trans hf.current, ?_⟩, hk, hin⟩
  rcases hout s.running hf.running with h | ⟨h, hkill⟩
  · exact h
  · exact absurd (hrun h) hkill

theorem RunState.Faithful.call {c : SchedCall} (hf : s.Faithful xs)
    (hs : s.toSchedState.Holds xs ys) (hlegal : (Event.call c).Legal s)
    (ho : (Event.call c).Orderly s) : ∃ xs' ys',
      ((Event.call c).run y s).toSchedState.Holds xs' ys' ∧ ((Event.call c).run y s).Faithful xs' := by
  obtain ⟨xs', ys', hs', hf', hk⟩ := hf.toFollows.call (y := y) hs hlegal ho.removable
  refine ⟨xs', ys', hs', hf', fun q hq hqr r hr => ?_⟩
  have hqm : q ≠ c.made := by
    rintro rfl
    simp [Event.run] at hr
  have hr' : s.saved q = some r := by
    rw [← hr]
    exact (update_of_ne hqm _ _).symm
  rw [hk.keeps.context q hqm]
  exact hf.saved q ((hk.active q hq).resolve_right hqm) hqr r hr'

/-- **One tick**: what it saves, and where. -/
theorem RunState.Follows.tick_cases (hf : s.Follows xs) (hs : s.sched.Lists xs ys) (t : Tick) :
    ∃ u, Ticked s.sched u ∧
      ((schedulerSwitch s.sched = (none, u) ∧
          s.tick t = { s with sched := u, saved := update s.saved s.running (some t.cpu) }) ∨
        s.TurnOver ∧ (schedulerSwitch s.sched).1 = some (s.running, nextInTurn s.sched s.running) ∧
          ∃ x : Process, x.next = (u.procs s.running).next ∧ x.prev = (u.procs s.running).prev ∧
            x.context = cswitchSave (handlerEntry t.gate t.cpu t.eax t.ecx t.edx t.eflags).1
              (handlerEntry t.gate t.cpu t.eax t.ecx t.edx t.eflags).2
              (s.sched.procs s.running).context ∧
            s.tick t = ⟨⟨{ u.setProc s.running x with
                active := { u.active with current := nextInTurn s.sched s.running } }, s.live⟩,
              nextInTurn s.sched s.running, update s.saved s.running (some t.cpu)⟩) := by
  have hc : s.sched.active.current ≠ 0 := by
    rw [hf.current]
    exact hs.active.ne hf.running
  obtain ⟨u, hu, hrun⟩ := schedulerSwitch_current hc
  rw [hf.current] at hrun
  refine ⟨u, hu, ?_⟩
  rcases hrun with hrun | ⟨hturn, hrun⟩
  · refine Or.inl ⟨hrun, ?_⟩
    simp only [RunState.tick, hrun]
  · have hctx : (u.procs s.running).context = (s.sched.procs s.running).context := by
      obtain ⟨n, hn⟩ := hu.proc s.running
      rw [hn]
    refine Or.inr ⟨hturn, by rw [hrun], { u.procs s.running with
      context := cswitchSave (handlerEntry t.gate t.cpu t.eax t.ecx t.edx t.eflags).1
        (handlerEntry t.gate t.cpu t.eax t.ecx t.edx t.eflags).2
        (s.sched.procs s.running).context }, rfl, rfl, rfl, ?_⟩
    simp only [RunState.tick, hrun, ← hctx]
    rfl

/-- The registers of a tick that saves are restored. -/
theorem Tick.restores {t : Tick} {ctx : Context}
    (h : ¬ UserMode t.cpu.cs.dword ∨ t.cpu.esp >>> 16 = ctx.esp >>> 16) :
    (cswitchSave (handlerEntry t.gate t.cpu t.eax t.ecx t.edx t.eflags).1
      (handlerEntry t.gate t.cpu t.eax t.ecx t.edx t.eflags).2 ctx).Restores t.cpu :=
  cswitchLoad_save_exact t.gate t.eax t.ecx t.edx t.eflags h

theorem RunState.Follows.tick (hf : s.Follows xs) (hs : s.toSchedState.Holds xs ys) (t : Tick) :
    (s.tick t).toSchedState.Holds xs ys ∧ (s.tick t).Follows xs := by
  obtain ⟨u, hu, hrun⟩ := hf.tick_cases hs.lists t
  have hl := hs.lists.same hu.sameLists (congrArg Procman.current hu.active)
  have hcur : u.active.current = s.running := (congrArg Procman.current hu.active).trans hf.current
  rcases hrun with ⟨_, hrun⟩ | ⟨_, _, x, hnext, hprev, _, hrun⟩
  · rw [hrun]
    exact ⟨⟨hl, hs.live⟩, hcur, hf.running⟩
  · rw [hrun]
    have hmem := hs.lists.nextInTurn_mem hf.running
    have hl' := hl.same (sameLists_setProc (x := x) hnext hprev) rfl
    exact ⟨⟨hl'.setCurrent hmem, hs.live⟩, rfl, hmem⟩

theorem RunState.Faithful.tick (hf : s.Faithful xs) (hs : s.toSchedState.Holds xs ys) {t : Tick}
    (ho : (Event.tick t).Orderly s) : (s.tick t).toSchedState.Holds xs ys ∧ (s.tick t).Faithful xs := by
  obtain ⟨hs', hf'⟩ := hf.toFollows.tick hs t
  refine ⟨hs', hf', ?_⟩
  obtain ⟨u, hu, hrun⟩ := hf.tick_cases hs.lists t
  have hctx : ∀ q, (u.procs q).context = (s.sched.procs q).context := fun q => by
    obtain ⟨n, hn⟩ := hu.proc q
    rw [hn]
  have hsaved : ∀ q, q ≠ s.running → ∀ c, update s.saved s.running (some t.cpu) q = some c →
      s.saved q = some c := fun q hq c hc => by
    rw [← hc, update_of_ne hq]
  rcases hrun with ⟨_, hrun⟩ | ⟨hturn, _, x, _, _, hx, hrun⟩
  · rw [hrun]
    intro q hq hqr c hc
    rw [hctx q]
    exact hf.saved q hq hqr c (hsaved q hqr c hc)
  · rw [hrun]
    intro q hq _ c hc
    show ((u.setProc s.running x).procs q).context.Restores c
    rw [Sched.setProc_procs]
    by_cases hqr : q = s.running
    · -- the process that was interrupted
      have hc' : some t.cpu = some c := by
        rw [← hc]
        show some t.cpu = update s.saved s.running (some t.cpu) q
        rw [hqr, update_self]
      rw [if_pos hqr, hx, ← Option.some.inj hc']
      exact Tick.restores (ho hturn)
    · rw [if_neg hqr, hctx q]
      exact hf.saved q hq hqr c (hsaved q hqr c hc)

/-- Each save is into the process that was interrupted. -/
def RunState.Tracked (s : RunState) : Prop :=
  ∃ xs ys, s.toSchedState.Holds xs ys ∧ s.Faithful xs

/-- **One event.** -/
theorem RunState.Tracked.step {e : Event} (h : s.Tracked) (ho : e.Orderly s) (hstep : RunStep y e s s') :
    s'.Tracked := by
  obtain ⟨hlegal, rfl⟩ := hstep
  obtain ⟨xs, ys, hs, hf⟩ := h
  cases e with
  | call c => exact hf.call hs hlegal ho
  | tick t => exact ⟨xs, ys, hf.tick hs ho⟩

theorem RunStart.tracked (h : RunStart y s) : s.Tracked := by
  obtain ⟨s0, kinit, idle, sched, idleStack, schedStack, h1, h2, h3, hn, rfl⟩ := h
  obtain ⟨xs, ys, hl, hmem, hcur⟩ := schedulerInit_lists y s0 idleStack schedStack hn
  have hk := hcur h1 h2 h3
  refine ⟨xs, ys, ⟨hl, hmem⟩, ⟨hk, ?_⟩, fun q _ _ c hc => (nomatch hc)⟩
  have hrun := hl.current.resolve_left (by rw [hk]; exact h1)
  rw [hk] at hrun
  exact hrun

/-- The invariant is what is asked of the ticks. -/
theorem RunState.Faithful.resumes (hf : s.Faithful xs) (hs : s.sched.Lists xs ys) : s.Resumes := by
  intro t current next hsw
  obtain ⟨u, hu, hrun⟩ := hf.tick_cases hs t
  rcases hrun with ⟨hnone, _⟩ | ⟨hturn, hsome, x, _, _, _, hrun⟩
  · rw [hnone] at hsw
    exact (nomatch hsw)
  · rw [hsome] at hsw
    obtain ⟨rfl, rfl⟩ := Prod.mk.inj (Option.some.inj hsw)
    refine ⟨rfl, fun c hc => ?_⟩
    rw [hrun] at hc ⊢
    have hc' : s.saved (nextInTurn s.sched s.running) = some c := by
      rw [← hc]
      exact (update_of_ne hturn.2 _ _).symm
    show ((u.setProc s.running x).procs _).context.Restores c
    obtain ⟨n, hn⟩ := hu.proc (nextInTurn s.sched s.running)
    rw [Sched.setProc_procs, if_neg hturn.2, hn]
    exact hf.saved _ (hs.nextInTurn_mem hf.running) hturn.2 c hc'

/-- **A tick saves into the process that it interrupted**, and a process comes
back with the registers of its last interruption: in every state of every run
in which the running process is not unloaded. -/
theorem schedulerRun_resumes (h : Reach (RunStart y) (Guarded Event.Orderly (RunStep y)) s) :
    s.Resumes := by
  have htracked : s.Tracked := Reach.invariant RunState.Tracked (fun _ hs => hs.tracked)
    (fun e s s' hs hstep => hs.step hstep.1 hstep.2) h
  obtain ⟨xs, ys, hs, hf⟩ := htracked
  exact hf.resumes hs.lists

/-! ## Small runs -/

/-- A tick in the kernel. -/
def kernelTick : Tick :=
  ⟨timerGate, { userCpu with cs := 0x08, ss := 0x10, ds := 0x10, es := 0x10, fs := 0x10, gs := 0x10 },
    0, 0, 0, 0⟩

/-- After `scheduler_init`; `.kinit` is at 0x100. -/
def smallRunning : RunState := ⟨smallSched, 0x100, fun _ => none⟩

theorem smallRunning_start : RunStart smallSymbols smallRunning :=
  ⟨_, _, _, _, _, _, by decide, by decide, by decide, by decide, rfl⟩

/-- After two ticks `.idle` is running, and `.kinit` has been interrupted. -/
theorem schedulerRun_resumes_two : ((smallRunning.tick kernelTick).tick kernelTick).Resumes := by
  have horderly : ∀ s, (Event.tick kernelTick).Orderly s := fun s _ => Or.inl (by decide)
  have hstep : ∀ s, Guarded Event.Orderly (RunStep smallSymbols) (.tick kernelTick) s
      (s.tick kernelTick) := fun s => ⟨horderly s, trivial, rfl⟩
  exact schedulerRun_resumes (.next (.next (.start smallRunning_start) (hstep _)) (hstep _))

/-- **Unloading the running process**: the second tick after it saves into the
process that follows. -/
theorem schedulerRun_unloadRunning : ¬ SchedulerResumes := by
  intro hall
  let unloaded := (Event.call (.unload 0x100)).run smallSymbols smallRunning
  have hlive : (0x100 : U32) ∈ smallRunning.live := by decide
  have hstep : RunStep smallSymbols (.call (.unload 0x100)) smallRunning unloaded :=
    ⟨⟨nofun, Or.inr hlive⟩, rfl⟩
  have htick : RunStep smallSymbols (.tick kernelTick) unloaded (unloaded.tick kernelTick) :=
    ⟨trivial, rfl⟩
  have hresumes := hall smallSymbols _ (.next (.next (.start smallRunning_start) hstep) htick)
  have hswitch : (schedulerSwitch (unloaded.tick kernelTick).sched).1 = some (0x200, 0x300) := by
    decide +kernel
  have hrunning : (unloaded.tick kernelTick).running = 0x100 := by decide +kernel
  have hsame := (hresumes kernelTick 0x200 0x300 hswitch).1
  rw [hrunning] at hsame
  exact absurd hsame (by decide)

end Tomk
