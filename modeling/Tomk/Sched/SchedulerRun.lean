/-
# Runs of the scheduler

A run loads and unloads processes, creates and destroys the ones that the
scheduler process finds in the inactive list, and switches.  What `kmalloc`
returns for a new process is memory of no process; which processes there are is
kept beside the state.

`proc_deregister` removes the process from the active list, wherever it is.  If
it is still inactive, and is the first or the last there, the ends of the active
list are overwritten (`schedulerRun_unloadNew`).  In every run in which
processes are unloaded out of the active list, or out of the middle of the
inactive one (`SchedCall.Orderly`), the two lists are well formed, every process
is in exactly one of them, and the current process is active
(`schedulerRun_wellFormed`).
-/
import Tomk.Lib.Runs
import Tomk.Sched.Lists

namespace Tomk

open DList Function Runs

/-! ## Calls -/

/-- The scheduler, and the processes that have been loaded and not destroyed. -/
structure SchedState where
  sched : Sched
  live : List U32

/-- The calls, with what `kmalloc` and `pgd_create_pd` return in them. -/
inductive SchedCall where
  | load (user : Bool) (proc path entry : U32)
  | unload (proc : U32)
  | create (proc stack pd : U32)
  | destroy (proc : U32)
  | switch

/-- `scheduler_proc` comes to the process, from the tail of the inactive list. -/
def Sched.Scanned (s : Sched) (p : U32) : Prop :=
  Walk (fun q => (s.procs q).prev) 0 s.inactive.tail p

/-- The process is in the active list. -/
def Sched.Active (s : Sched) (p : U32) : Prop :=
  Walk (fun q => (s.procs q).next) 0 s.active.head p

/-- What `kmalloc` may return, and how the scheduler process calls. -/
def SchedCall.Legal (s : SchedState) : SchedCall → Prop
  | .load _ proc _ _ => proc ∉ s.live
  | .unload proc => proc = 0 ∨ proc ∈ s.live
  | .create proc _ _ => s.sched.Scanned proc ∧ (s.sched.procs proc).Has procFlagCreate
  | .destroy proc => s.sched.Scanned proc ∧ ¬ (s.sched.procs proc).Has procFlagCreate ∧
      (s.sched.procs proc).Has procFlagServiceMask
  | .switch => True

def SchedCall.run (y : Symbols) (s : SchedState) : SchedCall → SchedState
  | .load user proc path entry =>
      ⟨if user then schedulerLoadUprocess s.sched proc path entry
        else schedulerLoadKprocess s.sched proc path entry,
        if proc = 0 then s.live else proc :: s.live⟩
  | .unload proc => { s with sched := schedulerUnloadProcess s.sched proc }
  | .create proc stack pd => { s with sched := (createProc y s.sched proc stack pd).2 }
  | .destroy proc => ⟨(destroyProc s.sched proc).2, s.live.filter fun q => q ≠ proc⟩
  | .switch => { s with sched := (schedulerSwitch s.sched).2 }

def SchedStep (y : Symbols) (c : SchedCall) (s s' : SchedState) : Prop :=
  c.Legal s ∧ s' = c.run y s

/-- The processes of `scheduler_init`, up to the first that could not be
allocated. -/
def initProcs (kinit idle sched : U32) : List U32 :=
  if kinit = 0 then []
  else if idle = 0 then [kinit]
  else if sched = 0 then [kinit, idle]
  else [kinit, idle, sched]

/-- After `scheduler_init`. -/
def SchedStart (y : Symbols) (s : SchedState) : Prop :=
  ∃ s0 kinit idle sched idleStack schedStack, (initProcs kinit idle sched).Nodup ∧
    s = ⟨schedulerInit y s0 kinit idle sched idleStack schedStack, initProcs kinit idle sched⟩

def SchedReach (y : Symbols) : SchedState → Prop := Reach (SchedStart y) (SchedStep y)

/-! ## What is asked -/

/-- The lists are well formed, every process is in exactly one of them, and the
current process is active. -/
def SchedState.WellFormed (s : SchedState) : Prop :=
  ∃ xs ys, s.sched.Lists xs ys ∧ ∀ p, p ∈ s.live ↔ p ∈ xs ∨ p ∈ ys

/-- The property as it is asked: in every state that a run reaches. -/
def SchedulerWellFormed : Prop :=
  ∀ (y : Symbols) (s : SchedState), SchedReach y s → s.WellFormed

/-- Processes are unloaded where `procman_remove` can take them out: out of the
active list, or between two neighbours in the inactive one. -/
def SchedCall.Orderly (c : SchedCall) (s : SchedState) : Prop :=
  match c with
  | .unload proc => proc = 0 ∨ (s.sched.procs proc).Has procFlagKill ∨ s.sched.Active proc ∨
      s.sched.Scanned proc ∧ (s.sched.procs proc).prev ≠ 0 ∧ (s.sched.procs proc).next ≠ 0
  | _ => True

variable {y : Symbols} {s s' : SchedState} {p : U32} {xs ys pre post : List U32}
  {t : Sched}

/-! ## Membership -/

/-- The scheduler process comes to every inactive process, and to no other. -/
theorem Sched.Lists.scanned_iff (hl : t.Lists xs ys) : t.Scanned p ↔ p ∈ ys := by
  have hf : ∀ q ∈ ys.reverse, (t.procs q).prev = (t.links .inactive).prev q := fun q hq =>
    links_prev t .inactive (hl.inactive.ne (List.mem_reverse.mp hq))
  rw [← List.mem_reverse]
  constructor
  · intro hw
    exact Walk.mem (g := (t.links .inactive).prev) (a := 0) hw hl.inactive.prev hf
  · intro hp
    exact hl.inactive.prev.walk (List.nodup_cons.mp hl.inactive.nodup_reverse).1 hf hp

theorem Sched.Lists.active_iff (hl : t.Lists xs ys) : t.Active p ↔ p ∈ xs := by
  have hf : ∀ q ∈ xs, (t.procs q).next = (t.links .active).next q := fun q hq =>
    links_next t .active (hl.active.ne hq)
  constructor
  · intro hw
    exact Walk.mem (g := (t.links .active).next) (a := 0) hw hl.active.next hf
  · intro hp
    exact hl.active.next.walk (List.nodup_cons.mp hl.active.nodup).1 hf hp

/-- Without a head the active list is empty. -/
theorem Sched.Lists.eq_nil (hl : t.Lists xs ys) (hh : t.active.head = 0) : xs = [] := by
  have hfirst : t.active.head = xs.headD 0 := hl.active.head
  cases xs with
  | nil => rfl
  | cons x xs =>
      rw [hh] at hfirst
      exact absurd hfirst.symm (hl.active.ne List.mem_cons_self)

/-! ## One call -/

/-- The lists of the state, and its processes. -/
structure SchedState.Holds (s : SchedState) (xs ys : List U32) : Prop where
  lists : s.sched.Lists xs ys
  live : ∀ p, p ∈ s.live ↔ p ∈ xs ∨ p ∈ ys

theorem SchedState.Holds.wellFormed (hs : s.Holds xs ys) : s.WellFormed :=
  ⟨xs, ys, hs.lists, hs.live⟩

theorem SchedState.Holds.load (hs : s.Holds xs ys) (path entry flags : U32) (hnew : p ∉ s.live) :
    ∃ ys', SchedState.Holds
      ⟨procRegister s.sched p path entry flags, if p = 0 then s.live else p :: s.live⟩ xs ys' := by
  by_cases hp : p = 0
  · refine ⟨ys, ?_, ?_⟩
    · simp only [procRegister, if_pos hp]
      exact hs.lists
    · rw [if_pos hp]
      exact hs.live
  · have hno : p ∉ xs ∧ p ∉ ys := by
      rw [hs.live, not_or] at hnew
      exact hnew
    refine ⟨ys ++ [p], hs.lists.register hp hno.1 hno.2 path entry flags, fun q => ?_⟩
    rw [if_neg hp, List.mem_cons, hs.live, List.mem_append, List.mem_singleton]
    grind

/-- Moving a process does not change which ones there are. -/
theorem mem_move_active {q : U32} : q ∈ pre ++ post ∨ q ∈ ys ++ [p] ↔ q ∈ pre ++ p :: post ∨ q ∈ ys := by
  simp only [List.mem_append, List.mem_cons, List.not_mem_nil, or_false]
  grind

theorem mem_move_inactive {q : U32} :
    q ∈ xs ++ [p] ∨ q ∈ pre ++ post ↔ q ∈ xs ∨ q ∈ pre ++ p :: post := by
  simp only [List.mem_append, List.mem_cons, List.not_mem_nil, or_false]
  grind

/-- A process is unloaded out of the active list, or moved to the end of the
inactive one. -/
theorem SchedState.Holds.unload (hs : s.Holds xs ys) (ho : (SchedCall.unload p).Orderly s) :
    ∃ xs' ys', ((SchedCall.unload p).run y s).Holds xs' ys' ∧ xs' ⊆ xs ∧
      ∀ q ∈ xs, q ∈ xs' ∨ q = p ∧ ¬ (s.sched.procs q).Has procFlagKill := by
  obtain ⟨hl, hmem⟩ := hs
  by_cases hp : p = 0
  · refine ⟨xs, ys, ⟨?_, hmem⟩, List.Subset.refl xs, fun q hq => Or.inl hq⟩
    simp only [SchedCall.run, schedulerUnloadProcess, procDeregister, if_pos hp]
    exact hl
  by_cases hk : (s.sched.procs p).Has procFlagKill
  · refine ⟨xs, ys, ⟨?_, hmem⟩, List.Subset.refl xs, fun q hq => Or.inl hq⟩
    simp only [SchedCall.run, schedulerUnloadProcess, procDeregister, if_neg hp, if_pos hk]
    exact hl
  rcases ho with h | h | h | ⟨h, hprev, hnext⟩
  · exact absurd h hp
  · exact absurd h hk
  · obtain ⟨pre, post, rfl⟩ := List.append_of_mem (hl.active_iff.mp h)
    refine ⟨pre ++ post, ys ++ [p], ⟨hl.deregister hk, fun q => ?_⟩, ?_, fun q hq => ?_⟩
    · exact (hmem q).trans mem_move_active.symm
    · exact ((List.sublist_cons_self p post).append_left pre).subset
    · by_cases hqp : q = p
      · subst hqp
        exact Or.inr ⟨rfl, hk⟩
      · rw [List.mem_append, List.mem_cons] at hq
        rw [List.mem_append]
        exact Or.inl (hq.imp id fun h => h.resolve_left hqp)
  · obtain ⟨pre, post, rfl⟩ := List.append_of_mem (hl.scanned_iff.mp h)
    rw [links_prev s.sched .inactive hp, hl.inactive.prev_eq] at hprev
    rw [links_next s.sched .inactive hp, hl.inactive.next_eq] at hnext
    refine ⟨xs, pre ++ post ++ [p], ⟨hl.deregisterMiddle hk hprev hnext, fun q => ?_⟩,
      List.Subset.refl xs, fun q hq => Or.inl hq⟩
    rw [show ((SchedCall.unload p).run y s).live = s.live from rfl, hmem]
    simp only [List.mem_append, List.mem_cons, List.not_mem_nil, or_false]
    grind

theorem SchedState.Holds.create (hs : s.Holds xs ys) (hp : s.sched.Scanned p) (stack pd : U32) :
    ∃ xs' ys', ((SchedCall.create p stack pd).run y s).Holds xs' ys' ∧ xs ⊆ xs' ∧
      ∀ q ∈ xs', q ∈ xs ∨ q = p := by
  obtain ⟨hl, hmem⟩ := hs
  obtain ⟨pre, post, rfl⟩ := List.append_of_mem (hl.scanned_iff.mp hp)
  rcases hl.create y stack pd with ⟨_, hl'⟩ | ⟨_, hl'⟩
  · exact ⟨xs, pre ++ p :: post, ⟨hl', hmem⟩, List.Subset.refl xs, fun q hq => Or.inl hq⟩
  · refine ⟨xs ++ [p], pre ++ post, ⟨hl', fun q => ?_⟩, List.subset_append_left xs [p],
      fun q hq => ?_⟩
    · exact (hmem q).trans mem_move_inactive.symm
    · rw [List.mem_append, List.mem_singleton] at hq
      exact hq

theorem SchedState.Holds.destroy (hs : s.Holds xs ys) (hp : s.sched.Scanned p) :
    ∃ ys', ((SchedCall.destroy p).run y s).Holds xs ys' := by
  obtain ⟨hl, hmem⟩ := hs
  obtain ⟨pre, post, rfl⟩ := List.append_of_mem (hl.scanned_iff.mp hp)
  have hn := (List.nodup_cons.mp hl.inactive.nodup).2
  rw [List.nodup_middle, List.nodup_cons, List.mem_append, not_or] at hn
  have hx : p ∉ xs := fun hx => hl.disjoint p hx (List.mem_append_right pre List.mem_cons_self)
  refine ⟨pre ++ post, hl.destroy, fun q => ?_⟩
  rw [show ((SchedCall.destroy p).run y s).live = s.live.filter fun q => q ≠ p from rfl,
    List.mem_filter, hmem, decide_eq_true_iff]
  simp only [List.mem_append, List.mem_cons]
  constructor
  · rintro ⟨hq, hne⟩
    grind
  · intro hq
    refine ⟨by grind, ?_⟩
    rintro rfl
    grind

/-- **`scheduler_switch`** keeps the lists. -/
theorem Sched.Lists.switch (hl : t.Lists xs ys) : (schedulerSwitch t).2.Lists xs ys := by
  -- from a current process of the list
  have hcur : ∀ t : Sched, t.Lists xs ys → t.active.current ≠ 0 →
      (schedulerSwitch t).2.Lists xs ys := by
    intro t hl hc
    obtain ⟨u, hu, hrun⟩ := schedulerSwitch_current hc
    have hl' := hl.same hu.sameLists (congrArg Procman.current hu.active)
    rcases hrun with hrun | ⟨_, hrun⟩
    · rw [hrun]
      exact hl'
    · rw [hrun]
      exact hl'.setCurrent (hl.nextInTurn_mem (hl.current.resolve_left hc))
  by_cases hc : t.active.current = 0
  · by_cases hh : t.active.head = 0
    · rw [schedulerSwitch, if_pos ⟨hc, hh⟩]
      exact hl
    · -- the first process becomes the current one
      have hmem : t.active.head ∈ xs := hl.active_iff.mp (.start hh)
      have hl' : (chooseCurrent t).Lists xs ys := by
        rw [chooseCurrent, if_pos hc]
        exact hl.setCurrent hmem
      have hcc : (chooseCurrent t).active.current ≠ 0 := by
        rw [chooseCurrent, if_pos hc]
        exact hh
      have hrun : schedulerSwitch t = schedulerSwitch (chooseCurrent t) := by
        rw [schedulerSwitch, schedulerSwitch, if_neg fun h => hh h.2, if_neg fun h => hcc h.1]
        rw [show chooseCurrent (chooseCurrent t) = chooseCurrent t from if_neg hcc]
      rw [hrun]
      exact hcur _ hl' hcc
  · exact hcur t hl hc

/-- The process that a call makes anew. -/
def SchedCall.made : SchedCall → U32
  | .load _ proc _ _ => proc
  | .create proc _ _ => proc
  | _ => 0

/-- **One call** keeps the lists well formed.  Only a process that is made anew
becomes active, and only one that is unloaded leaves the active list. -/
theorem SchedState.Holds.step {c : SchedCall} (hs : s.Holds xs ys) (ho : c.Orderly s)
    (hstep : SchedStep y c s s') : ∃ xs' ys', s'.Holds xs' ys' ∧ (∀ q ∈ xs', q ∈ xs ∨ q = c.made) ∧
      ∀ q ∈ xs, q ∈ xs' ∨ c = .unload q ∧ ¬ (s.sched.procs q).Has procFlagKill := by
  obtain ⟨hlegal, rfl⟩ := hstep
  have hsame : ∀ q ∈ xs, q ∈ xs ∨ q = c.made := fun q hq => Or.inl hq
  have hsame' : ∀ q ∈ xs, q ∈ xs ∨ c = .unload q ∧ ¬ (s.sched.procs q).Has procFlagKill :=
    fun q hq => Or.inl hq
  cases c with
  | load user proc path entry =>
      cases user
      · obtain ⟨ys', h⟩ := hs.load path entry (procFlagKernel ||| procFlagStack ||| procFlagHeap)
          hlegal
        exact ⟨xs, ys', h, hsame, hsame'⟩
      · obtain ⟨ys', h⟩ := hs.load path entry (procFlagUser ||| procFlagStack ||| procFlagHeap)
          hlegal
        exact ⟨xs, ys', h, hsame, hsame'⟩
  | unload proc =>
      obtain ⟨xs', ys', h, hsub, hout⟩ := hs.unload (y := y) ho
      refine ⟨xs', ys', h, fun q hq => Or.inl (hsub hq), fun q hq => ?_⟩
      exact (hout q hq).imp id fun hqp => ⟨by rw [hqp.1], hqp.2⟩
  | create proc stack pd =>
      obtain ⟨xs', ys', h, hsub, hin⟩ := hs.create (y := y) hlegal.1 stack pd
      exact ⟨xs', ys', h, hin, fun q hq => Or.inl (hsub hq)⟩
  | destroy proc =>
      obtain ⟨ys', h⟩ := hs.destroy (y := y) hlegal.1
      exact ⟨xs, ys', h, hsame, hsame'⟩
  | switch => exact ⟨xs, ys, ⟨hs.lists.switch, hs.live⟩, hsame, hsame'⟩

theorem SchedState.WellFormed.step {c : SchedCall} (hs : s.WellFormed) (ho : c.Orderly s)
    (hstep : SchedStep y c s s') : s'.WellFormed := by
  obtain ⟨xs, ys, hl, hmem⟩ := hs
  obtain ⟨xs', ys', h, _⟩ := SchedState.Holds.step ⟨hl, hmem⟩ ho hstep
  exact h.wellFormed

/-! ## `scheduler_init` -/

/-- A process is loaded and created; without a stack it becomes active. -/
theorem Sched.Lists.registerCreate (hl : t.Lists xs ys) (hp : p ≠ 0) (hx : p ∉ xs) (hy : p ∉ ys)
    (y : Symbols) (path entry flags stack pd : U32) :
    ∃ xs' ys',
      Sched.Lists (createProc y (procRegister t p path entry flags) p stack pd).2 xs' ys' ∧
      (∀ q, (q ∈ xs' ∨ q ∈ ys') ↔ q = p ∨ q ∈ xs ∨ q ∈ ys) ∧ xs ⊆ xs' ∧
      ((flags ||| procFlagCreate) &&& procFlagStack = 0 → p ∈ xs') := by
  have hreg : Sched.Lists _ xs (ys ++ p :: []) := hl.register hp hx hy path entry flags
  have hflags : ((procRegister t p path entry flags).procs p).flags = flags ||| procFlagCreate :=
    congrArg Process.flags (procRegister_core hl hp hx hy path entry flags)
  rcases hreg.create y stack pd with ⟨⟨hs, _⟩, hl'⟩ | ⟨_, hl'⟩
  · refine ⟨xs, ys ++ [p], hl', fun q => ?_, List.Subset.refl xs, fun h0 => ?_⟩
    · simp only [List.mem_append, List.mem_cons, List.not_mem_nil, or_false]
      grind
    · rw [Process.Has, hflags] at hs
      exact absurd h0 hs
  · refine ⟨xs ++ [p], ys ++ [], hl', fun q => ?_, List.subset_append_left xs [p],
      fun _ => List.mem_append_right xs List.mem_cons_self⟩
    simp only [List.mem_append, List.mem_cons, List.not_mem_nil, or_false]
    grind

theorem kinit_no_stack :
    (procFlagKernel ||| procSharedAddrSpace ||| procFlagCreate) &&& procFlagStack = 0 := by decide

/-- The empty lists. -/
theorem lists_nil (t : Sched) :
    Sched.Lists { t with active := ⟨0, 0, 0, 0⟩, inactive := ⟨0, 0, 0, 0⟩ } [] [] :=
  ⟨Ring.nil rfl rfl, Ring.nil rfl rfl, fun _ hp => (nomatch hp), Or.inl rfl⟩

/-- The state that `scheduler_init` leaves, and its current process. -/
theorem schedulerInit_lists (y : Symbols) (s0 : Sched) {kinit idle sched : U32}
    (idleStack schedStack : U32) (hn : (initProcs kinit idle sched).Nodup) :
    ∃ xs ys, (schedulerInit y s0 kinit idle sched idleStack schedStack).Lists xs ys ∧
      (∀ p, p ∈ initProcs kinit idle sched ↔ p ∈ xs ∨ p ∈ ys) ∧
      (kinit ≠ 0 → idle ≠ 0 → sched ≠ 0 →
        (schedulerInit y s0 kinit idle sched idleStack schedStack).active.current = kinit) := by
  have hl0 := lists_nil s0
  simp only [schedulerInit, initProcs] at hn ⊢
  by_cases h1 : kinit = 0
  · rw [if_pos h1, if_pos h1]
    exact ⟨[], [], hl0, fun p => by simp, fun h => absurd h1 h⟩
  rw [if_neg h1] at hn
  rw [if_neg h1, if_neg h1]
  obtain ⟨xs1, ys1, hl1, hm1, _, hk1⟩ := hl0.registerCreate h1 (by simp) (by simp) y y.kinitPath 0
    (procFlagKernel ||| procSharedAddrSpace) 0 0
  have hkinit := hk1 kinit_no_stack
  by_cases h2 : idle = 0
  · rw [if_pos h2, if_pos h2]
    exact ⟨xs1, ys1, hl1, fun p => by simp [hm1], fun _ h => absurd h2 h⟩
  rw [if_neg h2] at hn
  rw [if_neg h2, if_neg h2]
  have hne : idle ≠ kinit := by
    rintro rfl
    split at hn <;> simp at hn
  have hnew2 : ¬ (idle ∈ xs1 ∨ idle ∈ ys1) := by
    rw [hm1]
    simp [hne]
  rw [not_or] at hnew2
  obtain ⟨xs2, ys2, hl2, hm2, hsub2, _⟩ := hl1.registerCreate h2 hnew2.1 hnew2.2 y y.idlePath
    y.idleProc (procFlagKernel ||| procSharedAddrSpace ||| procFlagStack) idleStack 0
  by_cases h3 : sched = 0
  · rw [if_pos h3, if_pos h3]
    refine ⟨xs2, ys2, hl2, fun p => ?_, fun _ _ h => absurd h3 h⟩
    rw [hm2, hm1]
    simp only [List.mem_cons, List.not_mem_nil, or_false]
    grind
  rw [if_neg h3] at hn
  rw [if_neg h3, if_neg h3]
  have hnew3 : ¬ (sched ∈ xs2 ∨ sched ∈ ys2) := by
    rw [hm2, hm1]
    simp only [List.nodup_cons, List.mem_cons, List.not_mem_nil, or_false, not_or] at hn ⊢
    exact ⟨Ne.symm hn.2.1, Ne.symm hn.1.2⟩
  rw [not_or] at hnew3
  obtain ⟨xs3, ys3, hl3, hm3, hsub3, _⟩ := hl2.registerCreate h3 hnew3.1 hnew3.2 y y.schedulerPath
    y.schedulerProc (procFlagKernel ||| procSharedAddrSpace ||| procFlagStack ||| procFlagHeap)
    schedStack 0
  refine ⟨xs3, ys3, ?_, fun p => ?_, fun _ _ _ => rfl⟩
  · exact hl3.setCurrent (hsub3 (hsub2 hkinit))
  · rw [hm3, hm2, hm1]
    simp only [List.mem_cons, List.not_mem_nil, or_false]
    grind

theorem SchedStart.wellFormed (h : SchedStart y s) : s.WellFormed := by
  obtain ⟨s0, kinit, idle, sched, idleStack, schedStack, hn, rfl⟩ := h
  obtain ⟨xs, ys, hl, hmem, _⟩ := schedulerInit_lists y s0 idleStack schedStack hn
  exact ⟨xs, ys, hl, hmem⟩

/-- **The lists of the scheduler.**  In every state that is reached by calls that
unload processes out of the active list, or out of the middle of the inactive
one, the lists are well formed, every process is in exactly one of them, and the
current process is active. -/
theorem schedulerRun_wellFormed
    (h : Reach (SchedStart y) (Guarded SchedCall.Orderly (SchedStep y)) s) : s.WellFormed :=
  Reach.invariant SchedState.WellFormed (fun _ hs => hs.wellFormed)
    (fun _ _ _ hs hstep => hs.step hstep.1 hstep.2) h

/-! ## Small runs -/

/-- Symbols of a small kernel. -/
def smallSymbols : Symbols :=
  ⟨0x08, 0x10, 0x10, 0x18, 0x20, 0x20, 0xC0101000, 0xC0102000, 0xC0103000, 0xC0104000, 0xC0104010,
    0xC0104020, 0xC0110000⟩

/-- After `scheduler_init`, with the three processes at 0x100, 0x200 and 0x300. -/
def smallSched : SchedState :=
  ⟨schedulerInit smallSymbols ⟨⟨0, 0, 0, 0⟩, ⟨0, 0, 0, 0⟩, fun _ => newProcess, fun _ => 0⟩
    0x100 0x200 0x300 0x10000 0x120000, initProcs 0x100 0x200 0x300⟩

theorem smallSched_start : SchedStart smallSymbols smallSched :=
  ⟨_, _, _, _, _, _, by decide, rfl⟩

/-- A fourth process is loaded, and created. -/
def smallLoaded : SchedState := (SchedCall.load false 0x400 0 0xC0105000).run smallSymbols smallSched

def smallCreated : SchedState :=
  (SchedCall.create 0x400 0x240000 0x300000).run smallSymbols smallLoaded

theorem smallLoaded_step :
    SchedStep smallSymbols (.load false 0x400 0 0xC0105000) smallSched smallLoaded :=
  ⟨by show (0x400 : U32) ∉ initProcs 0x100 0x200 0x300; decide, rfl⟩

theorem smallCreated_step :
    SchedStep smallSymbols (.create 0x400 0x240000 0x300000) smallLoaded smallCreated := by
  have htail : smallLoaded.sched.inactive.tail = 0x400 := by decide +kernel
  have hscan : smallLoaded.sched.Scanned 0x400 := by
    rw [Sched.Scanned, htail]
    exact .start (by decide)
  have hflag : (smallLoaded.sched.procs 0x400).Has procFlagCreate := by decide +kernel
  exact ⟨⟨hscan, hflag⟩, rfl⟩

/-- The first process is unloaded from there. -/
theorem schedulerRun_wellFormed_four :
    ((SchedCall.unload 0x100).run smallSymbols smallCreated).WellFormed := by
  have hhead : smallCreated.sched.active.head = 0x100 := by decide +kernel
  have hactive : smallCreated.sched.Active 0x100 := by
    rw [Sched.Active, hhead]
    exact .start (by decide)
  have hlive : (0x100 : U32) ∈ smallCreated.live := by decide +kernel
  have hload : (SchedCall.load false 0x400 0 0xC0105000).Orderly smallSched := trivial
  have hcreate : (SchedCall.create 0x400 0x240000 0x300000).Orderly smallLoaded := trivial
  have hloaded : Reach (SchedStart smallSymbols)
      (Guarded SchedCall.Orderly (SchedStep smallSymbols)) smallLoaded :=
    .next (.start smallSched_start) ⟨hload, smallLoaded_step⟩
  have hcreated : Reach (SchedStart smallSymbols)
      (Guarded SchedCall.Orderly (SchedStep smallSymbols)) smallCreated :=
    .next hloaded ⟨hcreate, smallCreated_step⟩
  have horderly : (SchedCall.unload 0x100).Orderly smallCreated := Or.inr (Or.inr (Or.inl hactive))
  have hstep : SchedStep smallSymbols (.unload 0x100) smallCreated
      ((SchedCall.unload 0x100).run smallSymbols smallCreated) := ⟨Or.inr hlive, rfl⟩
  exact schedulerRun_wellFormed (.next hcreated ⟨horderly, hstep⟩)

/-- **Unloading a process that has not been created** overwrites the ends of the
active list. -/
theorem schedulerRun_unloadNew : ¬ SchedulerWellFormed := by
  intro hall
  have hlive : (0x400 : U32) ∈ smallLoaded.live := by decide +kernel
  have hhead : ((SchedCall.unload 0x400).run smallSymbols smallLoaded).sched.active.head = 0 := by
    decide +kernel
  have hcur : ((SchedCall.unload 0x400).run smallSymbols smallLoaded).sched.active.current ≠ 0 := by
    decide +kernel
  have hloaded : SchedReach smallSymbols smallLoaded := .next (.start smallSched_start) smallLoaded_step
  have hstep : SchedStep smallSymbols (.unload 0x400) smallLoaded
      ((SchedCall.unload 0x400).run smallSymbols smallLoaded) := ⟨Or.inr hlive, rfl⟩
  have hwf := hall smallSymbols _ (.next hloaded hstep)
  generalize (SchedCall.unload 0x400).run smallSymbols smallLoaded = s at hhead hcur hwf
  obtain ⟨xs, ys, hl, _⟩ := hwf
  -- the active list is empty, and has a current process
  have hmem := hl.current.resolve_left hcur
  rw [hl.eq_nil hhead] at hmem
  exact absurd hmem List.not_mem_nil

end Tomk
