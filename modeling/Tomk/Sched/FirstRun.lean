/-
# The first turn of a process

A process that is loaded has a context of zeros.  `create_proc` fills in where it
begins: `startup_proc` with the process as its argument, on top of the stack, with
the segments of its ring and interrupts on.  No tick and no other call changes that
before the first turn, so that what is loaded then is what was filled in
(`schedulerRun_enters`); all later turns load what the last interruption saved
(`schedulerRun_resumes`).

`.kinit` has no first turn: it runs when the scheduler begins, and its context is
overwritten before it is read.
-/
import Tomk.Sched.Running
import Tomk.Sched.Create

namespace Tomk

open DList Function Runs

/-! ## What is loaded -/

/-- The registers that a context stands for. -/
def Context.cpu (ctx : Context) : Cpu where
  eax := ctx.eax
  ecx := ctx.ecx
  edx := ctx.edx
  ebx := ctx.ebx
  esp := ctx.esp
  ebp := ctx.ebp
  esi := ctx.esi
  edi := ctx.edi
  eip := ctx.eip
  cs := selector ctx.cs
  eflags := ctx.eflags
  ss := selector ctx.ss
  ds := selector ctx.ds
  es := selector ctx.es
  fs := selector ctx.fs
  gs := selector ctx.gs
  cr3 := ctx.cr3

/-- They are loaded, whatever ran before. -/
theorem Context.restores_cpu (ctx : Context) : ctx.Restores ctx.cpu := by
  intro m
  by_cases hu : UserMode ctx.cs
  · simp only [cswitchLoad, iret, Machine.push, Machine.pop, hu, if_true, List.headD_cons,
      List.tail_cons, Context.cpu]
  · -- three pushes, and three pops of the `iret`
    have hesp : ctx.esp - 4 - 4 - 4 + 4 + 4 + 4 = ctx.esp := by bv_omega
    simp only [cswitchLoad, iret, Machine.push, Machine.pop, hu, if_false, List.headD_cons,
      List.tail_cons, Context.cpu, hesp]

/-- The stack pointer of a process with this stack: below it are its argument and the return
address of `startup_proc`. -/
def entryTop (stack : U32) : U32 := stack + defaultStack - 8

/-- The dwords that `create_proc` writes to the stack. -/
def entryWords (stack : U32) : List U32 := [entryTop stack, entryTop stack + 4]

/-- What `create_proc` makes of a context of zeros. -/
def entryContext (y : Symbols) (x : Process) : Context :=
  let (selcode, selstack, seldata) := selectors y x.flags
  let esp := if x.Has procFlagStack then entryTop x.stack else 0
  { zeroContext with
    cr3 := x.context.cr3
    es := seldata
    ds := seldata
    fs := seldata
    gs := seldata
    ss := selstack
    esp := esp
    ebp := esp
    eip := y.startupProc
    cs := selcode
    eflags := 0x202 }

/-- A process that has been created and has not run. -/
structure EntersAt (y : Symbols) (t : Sched) (p : U32) : Prop where
  context : (t.procs p).context = entryContext y (t.procs p)
  stack : (t.procs p).Has procFlagStack → (t.procs p).stack ≠ 0
  ret : (t.procs p).Has procFlagStack → t.mem (entryTop (t.procs p).stack) = 0
  arg : (t.procs p).Has procFlagStack → t.mem (entryTop (t.procs p).stack + 4) = p

theorem setupProc_entry (y : Symbols) {x : Process} (hx : x.context = zeroContext) (stack id pd : U32) :
    (setupProc y (openProc y x) stack id pd).context
      = entryContext y (setupProc y (openProc y x) stack id pd) := by
  have hflags : (setupProc y (openProc y x) stack id pd).flags = (openProc y x).flags :=
    setupProc_flags y _ _ _ _
  rw [entryContext, hflags]
  by_cases hs : (openProc y x).Has procFlagStack
  · rw [if_pos ((has_congr hflags).mpr hs), setupProc_stack y hs]
    simp only [setupProc, if_pos hs]
    simp only [openProc, hx, entryTop]
  · rw [if_neg fun h => hs ((has_congr hflags).mp h)]
    simp only [setupProc, if_neg hs]
    simp only [openProc, hx]

/-! ## What the calls keep -/

variable {y : Symbols} {t t' t'' : Sched} {w : Which} {p q stack pd : U32} {xs ys pre post : List U32}
  {F : U32 → Prop}

/-- What a process begins with. -/
structure Steady (t t' : Sched) (q : U32) : Prop where
  context : (t'.procs q).context = (t.procs q).context
  flags : (t'.procs q).flags = (t.procs q).flags
  stack : (t'.procs q).stack = (t.procs q).stack

theorem Steady.of_core (h : (t'.procs q).core = (t.procs q).core) : Steady t t' q := by
  obtain ⟨hcontext, hflags, hstack⟩ := Process.core_eq h
  exact ⟨hcontext, hflags, hstack⟩

theorem Steady.trans (h : Steady t t' q) (h' : Steady t' t'' q) : Steady t t'' q :=
  ⟨h'.context.trans h.context, h'.flags.trans h.flags, h'.stack.trans h.stack⟩

theorem steady_setProc {x : Process} (hq : q ≠ p) : Steady t (t.setProc p x) q := by
  refine ⟨?_, ?_, ?_⟩ <;> rw [Sched.setProc_procs, if_neg hq]

theorem Ticked.steady (h : Ticked t t') (q : U32) : Steady t t' q := by
  obtain ⟨n, hn⟩ := h.proc q
  refine ⟨?_, ?_, ?_⟩ <;> rw [hn]

theorem entryContext_congr {x x' : Process} (hc : x'.context = x.context) (hf : x'.flags = x.flags)
    (hs : x'.stack = x.stack) : entryContext y x' = entryContext y x := by
  cases x
  cases x'
  subst hc hf hs
  rfl

theorem EntersAt.steady (h : EntersAt y t p) (hs : Steady t t' p)
    (hmem : (t.procs p).Has procFlagStack → ∀ a ∈ entryWords (t.procs p).stack, t'.mem a = t.mem a) :
    EntersAt y t' p := by
  have hhas : (t'.procs p).Has procFlagStack ↔ (t.procs p).Has procFlagStack := has_congr hs.flags
  refine ⟨?_, fun h' => ?_, fun h' => ?_, fun h' => ?_⟩
  · rw [hs.context, entryContext_congr hs.context hs.flags hs.stack, h.context]
  · rw [hs.stack]
    exact h.stack (hhas.mp h')
  · rw [hs.stack, hmem (hhas.mp h') _ List.mem_cons_self]
    exact h.ret (hhas.mp h')
  · rw [hs.stack, hmem (hhas.mp h') _ (List.mem_cons_of_mem _ List.mem_cons_self)]
    exact h.arg (hhas.mp h')

theorem setMan_mem (t : Sched) (w : Which) (m : Procman) : (t.setMan w m).mem = t.mem := by
  cases w <;> rfl

theorem setNext_mem (t : Sched) (w : Which) (p v : U32) : (t.setNext w p v).mem = t.mem := by
  rw [Sched.setNext]
  split
  · rfl
  · exact setMan_mem t w _

theorem setPrev_mem (t : Sched) (w : Which) (p v : U32) : (t.setPrev w p v).mem = t.mem := by
  rw [Sched.setPrev]
  split
  · rfl
  · exact setMan_mem t w _

theorem procmanAppend_mem (t : Sched) (w : Which) (p : U32) : (procmanAppend t w p).mem = t.mem := by
  rw [procmanAppend, setMan_mem, setNext_mem]
  rfl

theorem procmanRemove_mem (t : Sched) (w : Which) (p : U32) : (procmanRemove t w p).mem = t.mem := by
  have hunlink : (unlinkProc t w p).mem = t.mem := by
    rw [unlinkProc]
    exact (setPrev_mem _ w _ _).trans (setNext_mem t w _ _)
  rw [procmanRemove_eq]
  split
  · rw [setMan_mem, hunlink]
  · exact hunlink

/-- A process is moved from one list to the other. -/
theorem moveProc_steady (t : Sched) (w w' : Which) (hp : p ≠ 0) (q : U32) :
    Steady t (procmanAppend (procmanRemove t w p) w' p) q :=
  (Steady.of_core (procmanRemove_core t w hp q)).trans (.of_core (procmanAppend_core _ w' hp q))

theorem moveProc_mem (t : Sched) (w w' : Which) (p : U32) :
    (procmanAppend (procmanRemove t w p) w' p).mem = t.mem :=
  (procmanAppend_mem _ w' p).trans (procmanRemove_mem t w p)

/-- What `create_proc` does to other processes, to the process itself, and to memory. -/
structure EntryFilled (y : Symbols) (t t' : Sched) (p stack : U32) : Prop where
  others : ∀ q, q ≠ p → Steady t t' q
  enters : (t.procs p).context = zeroContext → EntersAt y t' p
  mem : ∀ a, ((t.procs p).Has procFlagStack → a ∉ entryWords stack) → t'.mem a = t.mem a

/-- **`create_proc`** stops, or fills in where the process begins; its flag is gone in both cases. -/
theorem createProc_entry (y : Symbols) (t : Sched) (hp : p ≠ 0) (stack pd : U32) :
    ¬ ((createProc y t p stack pd).2.procs p).Has procFlagCreate ∧
      (((createProc y t p stack pd).2.procs p).Has procFlagStack →
        ((createProc y t p stack pd).2.procs p).stack = stack) ∧
      (((t.procs p).Has procFlagStack ∧ stack = 0) ∧
          (∀ q, q ≠ p → Steady t (createProc y t p stack pd).2 q) ∧
          (createProc y t p stack pd).2.mem = t.mem ∨
        ¬ ((t.procs p).Has procFlagStack ∧ stack = 0) ∧
          EntryFilled y t (createProc y t p stack pd).2 p stack) := by
  have hs : (openProc y (t.procs p)).Has procFlagStack ↔ (t.procs p).Has procFlagStack :=
    openProc_has y (t.procs p) (by decide)
  by_cases h : (t.procs p).Has procFlagStack ∧ stack = 0
  · simp only [createProc]
    rw [if_pos ⟨hs.mpr h.1, h.2⟩]
    rw [Sched.setProc_procs, if_pos rfl]
    exact ⟨not_has_create (f := (t.procs p).flags) rfl, fun _ => h.2.symm,
      Or.inl ⟨h, fun q hq => steady_setProc hq, rfl⟩⟩
  · simp only [createProc]
    rw [if_neg fun hc => h ⟨hs.mp hc.1, hc.2⟩]
    have harg : stack + defaultStack - 4 = entryTop stack + 4 := by
      rw [entryTop]
      bv_omega
    have hne : entryTop stack + 4 ≠ entryTop stack := by
      rw [entryTop]
      bv_omega
    rw [harg, show stack + defaultStack - 8 = entryTop stack from rfl]
    generalize hx : setupProc y (openProc y (t.procs p)) stack t.active.count pd = x
    generalize hm : (if (openProc y (t.procs p)).Has procFlagStack then
      update (update t.mem (entryTop stack + 4) p) (entryTop stack) 0 else t.mem) = mem
    generalize hu : ({ t.setProc p x with
      mem := mem, active := { t.active with count := t.active.count + 1 } } : Sched) = u
    have humem : u.mem = mem := by rw [← hu]
    have huprocs : u.procs = (t.setProc p x).procs := by rw [← hu]
    have hup : u.procs p = x := by rw [huprocs, Sched.setProc_procs, if_pos rfl]
    have hmove := moveProc_steady u .inactive .active hp
    have hflags : x.flags = (openProc y (t.procs p)).flags := by
      rw [← hx]
      exact setupProc_flags y _ _ _ _
    have hstack : (u.procs p).Has procFlagStack → (openProc y (t.procs p)).Has procFlagStack :=
      fun h' => (has_congr hflags).mp (hup ▸ h')
    have hgiven : (u.procs p).Has procFlagStack → (u.procs p).stack = stack := fun h' => by
      rw [hup, ← hx]
      exact setupProc_stack y (hstack h') _ _ _
    refine ⟨?_, fun h' => ?_, Or.inr ⟨h, fun q hq => ?_, fun hzero => ?_, fun a ha => ?_⟩⟩
    · refine not_has_create (f := (t.procs p).flags) ?_
      rw [(hmove p).flags, hup, hflags]
      rfl
    · rw [(hmove p).stack]
      exact hgiven ((has_congr (hmove p).flags).mp h')
    · refine Steady.trans ⟨?_, ?_, ?_⟩ (hmove q)
      all_goals rw [huprocs, Sched.setProc_procs, if_neg hq]
    · refine EntersAt.steady ⟨?_, fun h' => ?_, fun h' => ?_, fun h' => ?_⟩ (hmove p)
        fun _ a _ => by rw [moveProc_mem]
      · rw [hup, ← hx]
        exact setupProc_entry y hzero _ _ _
      · rw [hgiven h']
        exact fun h0 => h ⟨hs.mp (hstack h'), h0⟩
      · rw [hgiven h', humem, ← hm, if_pos (hstack h'), update_self]
      · rw [hgiven h', humem, ← hm, if_pos (hstack h'), update_of_ne hne, update_self]
    · rw [moveProc_mem, humem, ← hm]
      split
      · next h' =>
          have hout := ha (hs.mp h')
          rw [entryWords, List.mem_cons, List.mem_singleton, not_or] at hout
          rw [update_of_ne hout.1, update_of_ne hout.2]
      · rfl

/-! ## Who waits, and who has not run -/

/-- A process that waits to be created has a context of zeros; of the active ones, those of `F`
have not run. -/
structure Starts (y : Symbols) (t : Sched) (F : U32 → Prop) (xs ys : List U32) : Prop where
  waiting : ∀ q ∈ ys, (t.procs q).Has procFlagCreate → (t.procs q).context = zeroContext
  created : ∀ q ∈ xs, ¬ (t.procs q).Has procFlagCreate
  entry : ∀ q ∈ xs, F q → EntersAt y t q

/-- What `kmalloc` returns is not the stack of another process. -/
def Sched.Apart (t : Sched) (ps : List U32) (p stack : U32) : Prop :=
  ∀ q ∈ ps, q ≠ p → (t.procs q).Has procFlagStack → (t.procs q).stack ≠ 0 →
    ∀ a ∈ entryWords (t.procs q).stack, a ∉ entryWords stack

variable {xs' ys' : List U32} {F' : U32 → Prop}

/-- Where nothing begins. -/
theorem Starts.steady (h : Starts y t F xs ys) (hmem : t'.mem = t.mem) (hF : ∀ q ∈ xs', F' q → F q)
    (hx : ∀ q ∈ xs', q ∈ xs ∧ Steady t t' q)
    (hy : ∀ q ∈ ys', q ∈ ys ∧ Steady t t' q ∨
      ((t'.procs q).Has procFlagCreate → (t'.procs q).context = zeroContext)) :
    Starts y t' F' xs' ys' where
  waiting := fun q hq hcreate => by
    rcases hy q hq with ⟨hq', hs⟩ | hzero
    · rw [hs.context]
      exact h.waiting q hq' ((has_congr hs.flags).mp hcreate)
    · exact hzero hcreate
  created := fun q hq hcreate => by
    obtain ⟨hq', hs⟩ := hx q hq
    exact h.created q hq' ((has_congr hs.flags).mp hcreate)
  entry := fun q hq hFq => by
    obtain ⟨hq', hs⟩ := hx q hq
    exact (h.entry q hq' (hF q hq hFq)).steady hs fun _ a _ => by rw [hmem]

theorem procRegister_steady (t : Sched) (p path entry flags : U32) (hq : q ≠ p) :
    Steady t (procRegister t p path entry flags) q := by
  by_cases hp : p = 0
  · rw [procRegister, if_pos hp]
    exact ⟨rfl, rfl, rfl⟩
  · simp only [procRegister, if_neg hp]
    have hset : ∀ (t : Sched) (x : Process), Steady t (t.setProc p x) q := fun t x => steady_setProc hq
    exact ((((hset t _).trans (hset _ _)).trans (hset _ _)).trans (hset _ _)).trans
      (.of_core (procmanAppend_core _ .inactive hp q))

/-- What is registered is to be created. -/
theorem procRegister_create (hl : t.Lists xs ys) (hp : p ≠ 0) (hx : p ∉ xs) (hy : p ∉ ys)
    (path entry flags : U32) :
    ((procRegister t p path entry flags).procs p).Has procFlagCreate := by
  have hflags := congrArg Process.flags (procRegister_core hl hp hx hy path entry flags)
  rw [Process.Has, show ((procRegister t p path entry flags).procs p).flags = flags ||| procFlagCreate
    from hflags]
  intro h0
  have hbit := congrArg (fun x : U32 => x.getLsbD 29) h0
  simp [procFlagCreate] at hbit

theorem procRegister_mem (t : Sched) (p path entry flags : U32) :
    (procRegister t p path entry flags).mem = t.mem := by
  by_cases hp : p = 0
  · rw [procRegister, if_pos hp]
  · simp only [procRegister, if_neg hp, procmanAppend_mem]
    rfl

theorem Starts.register (h : Starts y t F xs ys) (hl : t.Lists xs ys) (hp : p ≠ 0) (hx : p ∉ xs)
    (hy : p ∉ ys) (path entry flags : U32) :
    Starts y (procRegister t p path entry flags) F xs (ys ++ [p]) := by
  have hne : ∀ {zs : List U32}, p ∉ zs → ∀ q ∈ zs, q ≠ p := fun hz q hq he => hz (he ▸ hq)
  refine h.steady (procRegister_mem t p path entry flags) (fun _ _ => id)
    (fun q hq => ⟨hq, procRegister_steady t p path entry flags (hne hx q hq)⟩) fun q hq => ?_
  rcases List.mem_append.mp hq with hq | hq
  · exact Or.inl ⟨hq, procRegister_steady t p path entry flags (hne hy q hq)⟩
  · have hcore := procRegister_core hl hp hx hy path entry flags
    rw [List.mem_singleton.mp hq]
    exact Or.inr fun _ => congrArg Process.context hcore

/-- The other processes are as they were; this one is not to be created because of it. -/
theorem procDeregister_steady (t : Sched) (hp : p ≠ 0) (hk : ¬ (t.procs p).Has procFlagKill) :
    (∀ q, q ≠ p → Steady t (procDeregister t p) q) ∧
      ((procDeregister t p).procs p).context = (t.procs p).context ∧
      (((procDeregister t p).procs p).Has procFlagCreate ↔ (t.procs p).Has procFlagCreate) ∧
      (procDeregister t p).mem = t.mem := by
  simp only [procDeregister, if_neg hp, if_neg hk]
  have hmove := moveProc_steady t .active .inactive hp
  have hmem := moveProc_mem t .active .inactive p
  generalize procmanAppend (procmanRemove t .active p) .inactive p = u at hmove hmem
  refine ⟨fun q hq => (hmove q).trans (steady_setProc hq), ?_, ?_, hmem⟩
  · rw [Sched.setProc_procs, if_pos rfl]
    exact (hmove p).context
  · have hcreate : ((u.procs p).flags ||| procFlagKill) &&& procFlagCreate
        = (u.procs p).flags &&& procFlagCreate := by
      rw [BitVec.and_or_distrib_right, show procFlagKill &&& procFlagCreate = 0 from rfl]
      exact BitVec.or_zero
    rw [Sched.setProc_procs, if_pos rfl, Process.Has, hcreate, (hmove p).flags]
    rfl

theorem Starts.unload {s : SchedState} (h : Starts y s.sched F xs ys) (hs : s.Holds xs ys)
    (ho : (SchedCall.unload p).Orderly s) :
    ∃ xs' ys', (procDeregister s.sched p).Lists xs' ys' ∧
      Starts y (procDeregister s.sched p) F xs' ys' := by
  obtain ⟨hl, -⟩ := hs
  by_cases hp : p = 0
  · rw [procDeregister, if_pos hp]
    exact ⟨xs, ys, hl, h⟩
  by_cases hk : (s.sched.procs p).Has procFlagKill
  · rw [procDeregister, if_neg hp, if_pos hk]
    exact ⟨xs, ys, hl, h⟩
  obtain ⟨hsteady, hcontext, hcreate, hmem⟩ := procDeregister_steady s.sched hp hk
  rcases ho with ho | ho | ho | ⟨ho, hprev, hnext⟩
  · exact absurd ho hp
  · exact absurd ho hk
  · -- out of the active list
    have hpx := hl.active_iff.mp ho
    have hpy := hl.disjoint p hpx
    obtain ⟨pre, post, rfl⟩ := List.append_of_mem hpx
    have hn := (List.nodup_cons.mp hl.active.nodup).2
    rw [List.nodup_middle, List.nodup_cons] at hn
    have hne : ∀ q ∈ pre ++ post, q ≠ p := fun q hq he => hn.1 (he ▸ hq)
    have hsub : pre ++ post ⊆ pre ++ p :: post := ((List.sublist_cons_self p post).append_left pre).subset
    refine ⟨pre ++ post, ys ++ [p], hl.deregister hk,
      h.steady hmem (fun _ _ => id) (fun q hq => ⟨hsub hq, hsteady q (hne q hq)⟩) fun q hq => ?_⟩
    rcases List.mem_append.mp hq with hq | hq
    · exact Or.inl ⟨hq, hsteady q fun he => hpy (he ▸ hq)⟩
    · rw [List.mem_singleton.mp hq]
      exact Or.inr fun hc => absurd (hcreate.mp hc) (h.created p hpx)
  · -- from the middle of the inactive list to its end
    have hpy := hl.scanned_iff.mp ho
    have hpx : p ∉ xs := fun hx => hl.disjoint p hx hpy
    obtain ⟨pre, post, rfl⟩ := List.append_of_mem hpy
    rw [links_prev s.sched .inactive hp, hl.inactive.prev_eq] at hprev
    rw [links_next s.sched .inactive hp, hl.inactive.next_eq] at hnext
    refine ⟨xs, pre ++ post ++ [p], hl.deregisterMiddle hk hprev hnext, h.steady hmem (fun _ _ => id)
      (fun q hq => ⟨hq, hsteady q fun he => hpx (he ▸ hq)⟩) fun q hq => ?_⟩
    by_cases hqp : q = p
    · subst hqp
      exact Or.inr fun hc => hcontext.trans (h.waiting q hpy (hcreate.mp hc))
    · refine Or.inl ⟨?_, hsteady q hqp⟩
      simp only [List.mem_append, List.mem_cons] at hq ⊢
      grind

/-- **`create_proc`**: the process begins, if it becomes active. -/
theorem Starts.create (h : Starts y t F xs ys) (hl : t.Lists xs ys) (hp : p ∈ ys)
    (hc : (t.procs p).Has procFlagCreate) (hapart : t.Apart xs p stack) (pd : U32) :
    ∃ xs' ys', (createProc y t p stack pd).2.Lists xs' ys' ∧
      Starts y (createProc y t p stack pd).2 (fun q => F q ∨ q = p) xs' ys' ∧
      (∀ q ∈ xs', q ∈ xs ∨ q = p) ∧ ∀ q, (q ∈ xs' ∨ q ∈ ys') ↔ q ∈ xs ∨ q ∈ ys := by
  have hp0 := hl.inactive.ne hp
  have hpx : p ∉ xs := fun hx => hl.disjoint p hx hp
  obtain ⟨hnot, _, hcases⟩ := createProc_entry y t hp0 stack pd
  obtain ⟨pre, post, rfl⟩ := List.append_of_mem hp
  rcases hl.create y stack pd with ⟨hno, hl'⟩ | ⟨hyes, hl'⟩
  · obtain ⟨_, hsteady, hmem⟩ := hcases.resolve_right fun hr => hr.1 hno
    refine ⟨xs, pre ++ p :: post, hl', h.steady hmem (fun q hq hF => ?_)
      (fun q hq => ⟨hq, hsteady q fun he => hpx (he ▸ hq)⟩) (fun q hq => ?_), fun q hq => Or.inl hq,
      fun _ => Iff.rfl⟩
    · exact hF.resolve_right fun he => hpx (he ▸ hq)
    · by_cases hqp : q = p
      · subst hqp
        exact Or.inr fun hc => absurd hc hnot
      · exact Or.inl ⟨hq, hsteady q hqp⟩
  · obtain ⟨_, hsteady, henter, hmem⟩ := hcases.resolve_left fun hr => hyes hr.1
    have hn := (List.nodup_cons.mp hl.inactive.nodup).2
    rw [List.nodup_middle, List.nodup_cons] at hn
    have hothers : ∀ q ∈ xs, q ≠ p := fun q hq he => hpx (he ▸ hq)
    have hsub : pre ++ post ⊆ pre ++ p :: post := ((List.sublist_cons_self p post).append_left pre).subset
    refine ⟨xs ++ [p], pre ++ post, hl', ⟨fun q hq hcq => ?_, fun q hq => ?_, fun q hq hF => ?_⟩,
      fun q hq => ?_, fun _ => mem_move_inactive⟩
    · have hs := hsteady q fun he => hn.1 (he ▸ hq)
      rw [hs.context]
      exact h.waiting q (hsub hq) ((has_congr hs.flags).mp hcq)
    · rcases List.mem_append.mp hq with hq | hq
      · exact fun hcq => h.created q hq ((has_congr (hsteady q (hothers q hq)).flags).mp hcq)
      · rw [List.mem_singleton.mp hq]
        exact hnot
    · rcases List.mem_append.mp hq with hq | hq
      · have henters := h.entry q hq (hF.resolve_right (hothers q hq))
        refine henters.steady (hsteady q (hothers q hq)) fun hst a ha => hmem a fun _ => ?_
        exact hapart q hq (hothers q hq) hst (henters.stack hst) a ha
      · rw [List.mem_singleton.mp hq]
        exact henter (h.waiting p hp hc)
    · exact (List.mem_append.mp hq).imp id List.mem_singleton.mp

theorem Starts.destroy (h : Starts y t F xs ys) (hl : t.Lists xs ys) (hp : p ∈ ys) :
    ∃ ys', (destroyProc t p).2.Lists xs ys' ∧ Starts y (destroyProc t p).2 F xs ys' := by
  have hp0 := hl.inactive.ne hp
  obtain ⟨pre, post, rfl⟩ := List.append_of_mem hp
  have hsub : pre ++ post ⊆ pre ++ p :: post := ((List.sublist_cons_self p post).append_left pre).subset
  have hsteady : ∀ q, Steady t (destroyProc t p).2 q := fun q => by
    rw [destroyProc_snd hp0]
    exact .of_core (procmanRemove_core t .inactive hp0 q)
  have hmem : (destroyProc t p).2.mem = t.mem := by
    rw [destroyProc_snd hp0]
    exact procmanRemove_mem t .inactive p
  exact ⟨pre ++ post, hl.destroy, h.steady hmem (fun _ _ => id) (fun q hq => ⟨hq, hsteady q⟩)
    fun q hq => Or.inl ⟨hsub hq, hsteady q⟩⟩

/-! ## Events -/

variable {s s' : RunState}

/-- A process that has not been on the processor. -/
def RunState.Unrun (s : RunState) (q : U32) : Prop := q ≠ s.running ∧ s.saved q = none

/-- The running process is not unloaded, and what is unloaded can be taken out; and a new stack
is not the one of another process. -/
def Event.Entering (e : Event) (s : RunState) : Prop :=
  e.Removable s ∧ ∀ p stack pd, e = .call (.create p stack pd) → s.sched.Apart s.live p stack

/-- A process that is not active does not begin. -/
theorem Starts.made (h : Starts y t F xs ys) (hp : p ∉ xs) : Starts y t (fun q => F q ∨ q = p) xs ys :=
  ⟨h.waiting, h.created, fun q hq hF => h.entry q hq (hF.resolve_right fun he => hp (he ▸ hq))⟩

theorem Starts.load {s : SchedState} (h : Starts y s.sched F xs ys) (hs : s.Holds xs ys)
    (hp : p ∉ s.live) (path entry flags : U32) :
    ∃ xs' ys', (procRegister s.sched p path entry flags).Lists xs' ys' ∧
      Starts y (procRegister s.sched p path entry flags) (fun q => F q ∨ q = p) xs' ys' := by
  have hlive := mt (hs.live p).mpr hp
  rw [not_or] at hlive
  by_cases h0 : p = 0
  · rw [procRegister, if_pos h0]
    exact ⟨xs, ys, hs.lists, h.made hlive.1⟩
  · exact ⟨xs, ys ++ [p], hs.lists.register h0 hlive.1 hlive.2 path entry flags,
      (h.register hs.lists h0 hlive.1 hlive.2 path entry flags).made hlive.1⟩

/-- **One call.** -/
theorem Starts.call {c : SchedCall} {s : SchedState} (h : Starts y s.sched F xs ys) (hs : s.Holds xs ys)
    (ho : c.Orderly s) (hlegal : c.Legal s) (hne : c ≠ .switch)
    (hapart : ∀ p stack pd, c = .create p stack pd → s.sched.Apart s.live p stack) :
    ∃ xs' ys', (c.run y s).sched.Lists xs' ys' ∧
      Starts y (c.run y s).sched (fun q => F q ∨ q = c.made) xs' ys' := by
  cases c with
  | load user proc path entry =>
      cases user
      · exact h.load hs hlegal path entry _
      · exact h.load hs hlegal path entry _
  | unload proc =>
      obtain ⟨xs', ys', hl', h'⟩ := h.unload hs ho
      exact ⟨xs', ys', hl', h'.made fun h0 => hl'.active.ne h0 rfl⟩
  | create proc stack pd =>
      have hxs : s.sched.Apart xs proc stack := fun q hq =>
        hapart proc stack pd rfl q ((hs.live q).mpr (Or.inl hq))
      obtain ⟨xs', ys', hl', h', _⟩ :=
        h.create hs.lists (hs.lists.scanned_iff.mp hlegal.1) hlegal.2 hxs pd
      exact ⟨xs', ys', hl', h'⟩
  | destroy proc =>
      obtain ⟨ys', hl', h'⟩ := h.destroy hs.lists (hs.lists.scanned_iff.mp hlegal.1)
      exact ⟨xs, ys', hl', h'.made fun h0 => hl'.active.ne h0 rfl⟩
  | switch => exact absurd rfl hne

theorem processUpdate_mem (t : Sched) (p : U32) : (processUpdate t p).2.mem = t.mem := by
  rw [processUpdate]
  split
  · rfl
  · simp only
    split <;> rfl

theorem schedulerSwitch_mem (t : Sched) : (schedulerSwitch t).2.mem = t.mem := by
  have hchoose : (chooseCurrent t).mem = t.mem := by
    rw [chooseCurrent]
    split <;> rfl
  rw [schedulerSwitch]
  split
  · rfl
  · simp only
    split
    · exact (processUpdate_mem _ _).trans hchoose
    · exact (processUpdate_mem _ _).trans hchoose

theorem RunState.tick_mem (s : RunState) (tick : Tick) : (s.tick tick).sched.mem = s.sched.mem := by
  have hmem := schedulerSwitch_mem s.sched
  rw [RunState.tick]
  split
  · next u hrun => rw [hrun] at hmem; exact hmem
  · next current next u hrun => rw [hrun] at hmem; exact hmem

/-- **One tick**: only the process that is interrupted changes, and only its context. -/
theorem RunState.Follows.tick_steady (hf : s.Follows xs) (hl : s.sched.Lists xs ys) (tick : Tick) :
    (∀ q, q ≠ s.running → Steady s.sched (s.tick tick).sched q) ∧
      (∀ q, ((s.tick tick).sched.procs q).flags = (s.sched.procs q).flags) ∧
      (s.tick tick).saved = update s.saved s.running (some tick.cpu) := by
  have hc : s.sched.active.current ≠ 0 := by
    rw [hf.current]
    exact hl.active.ne hf.running
  obtain ⟨u, hu, hrun⟩ := schedulerSwitch_current hc
  rw [hf.current] at hrun
  rcases hrun with hrun | ⟨_, hrun⟩
  · simp only [RunState.tick, hrun]
    exact ⟨fun q _ => hu.steady q, fun q => (hu.steady q).flags, trivial⟩
  · simp only [RunState.tick, hrun]
    refine ⟨fun q hq => (hu.steady q).trans ?_, fun q => ?_, trivial⟩
    · refine ⟨?_, ?_, ?_⟩ <;> rw [Sched.setProc_procs, if_neg hq]
    · rw [Sched.setProc_procs]
      split
      · next hq => rw [hq, ← (hu.steady s.running).flags]
      · exact (hu.steady q).flags

theorem Starts.tick (h : Starts y s.sched s.Unrun xs ys) (hf : s.Follows xs) (hl : s.sched.Lists xs ys)
    (tick : Tick) : Starts y (s.tick tick).sched (s.tick tick).Unrun xs ys := by
  obtain ⟨hsteady, hflags, hsaved⟩ := hf.tick_steady hl tick
  have hdisjoint : ∀ q ∈ ys, q ≠ s.running := fun q hq he => hl.disjoint _ hf.running (he ▸ hq)
  refine ⟨fun q hq hc => ?_, fun q hq hc => ?_, fun q hq hF => ?_⟩
  · rw [(hsteady q (hdisjoint q hq)).context]
    exact h.waiting q hq ((has_congr (hflags q)).mp hc)
  · exact h.created q hq ((has_congr (hflags q)).mp hc)
  · -- it is not the process that was interrupted
    have hnone : update s.saved s.running (some tick.cpu) q = none := by
      rw [← hsaved]
      exact hF.2
    have hne : q ≠ s.running := fun he => by
      rw [he, update_self] at hnone
      cases hnone
    rw [update_of_ne hne] at hnone
    refine (h.entry q hq ⟨hne, hnone⟩).steady (hsteady q hne) fun _ a _ => ?_
    rw [RunState.tick_mem]

/-- **One event.** -/
theorem Starts.event {e : Event} (h : Starts y s.sched s.Unrun xs ys) (hs : s.toSchedState.Holds xs ys)
    (hf : s.Follows xs) (he : e.Entering s) (hstep : RunStep y e s s') :
    ∃ xs' ys', s'.toSchedState.Holds xs' ys' ∧ s'.Follows xs' ∧
      Starts y s'.sched s'.Unrun xs' ys' := by
  obtain ⟨hlegal, rfl⟩ := hstep
  cases e with
  | call c =>
      obtain ⟨xs', ys', hs', hf', _⟩ := hf.call (y := y) hs hlegal he.1
      obtain ⟨xs'', ys'', hl, h'⟩ := h.call hs he.1.1 hlegal.2 hlegal.1 fun p stack pd hc =>
        he.2 p stack pd (congrArg Event.call hc)
      have hl' := hs'.lists
      obtain rfl : xs'' = xs' := hl.active.unique hl'.active
      obtain rfl : ys'' = ys' := hl.inactive.unique hl'.inactive
      refine ⟨xs'', ys'', hs', hf', h'.waiting, h'.created, fun q hq hF => h'.entry q hq ?_⟩
      by_cases hq : q = c.made
      · exact Or.inr hq
      · refine Or.inl ⟨hF.1, ?_⟩
        have hnone : update s.saved c.made none q = none := hF.2
        rwa [update_of_ne hq] at hnone
  | tick tick =>
      obtain ⟨hs', hf'⟩ := hf.tick hs tick
      exact ⟨xs, ys, hs', hf', h.tick hf hs.lists tick⟩

/-! ## `scheduler_init` -/

/-- What `scheduler_init` has made so far, with stacks out of `S`. -/
structure Begun (y : Symbols) (t : Sched) (S xs ys : List U32) : Prop where
  lists : t.Lists xs ys
  starts : Starts y t (fun _ => True) xs ys
  given : ∀ q ∈ xs, (t.procs q).Has procFlagStack → (t.procs q).stack ∈ S

/-- One more process. -/
theorem Begun.registerCreate {S : List U32} (h : Begun y t S xs ys) (hp : p ≠ 0) (hx : p ∉ xs)
    (hy : p ∉ ys) (path entry flags stack pd : U32)
    (hapart : ∀ a ∈ S, a ≠ 0 → ∀ v ∈ entryWords a, v ∉ entryWords stack) :
    ∃ xs' ys', Begun y (createProc y (procRegister t p path entry flags) p stack pd).2 (stack :: S) xs' ys' ∧
      ∀ q, (q ∈ xs' ∨ q ∈ ys') ↔ q = p ∨ q ∈ xs ∨ q ∈ ys := by
  have hreg := h.starts.register h.lists hp hx hy path entry flags
  have hl : Sched.Lists (procRegister t p path entry flags) xs (ys ++ [p]) :=
    h.lists.register hp hx hy path entry flags
  have hne : ∀ q ∈ xs, q ≠ p := fun q hq he => hx (he ▸ hq)
  have hgiven : ∀ q ∈ xs, ((procRegister t p path entry flags).procs q).Has procFlagStack →
      ((procRegister t p path entry flags).procs q).stack ∈ S := fun q hq hst => by
    have hs := procRegister_steady t p path entry flags (hne q hq)
    rw [hs.stack]
    exact h.given q hq ((has_congr hs.flags).mp hst)
  have hcreate := procRegister_create h.lists hp hx hy path entry flags
  generalize procRegister t p path entry flags = u at hreg hl hgiven hcreate ⊢
  have hp' : p ∈ ys ++ [p] := List.mem_append_right ys List.mem_cons_self
  have hu : u.Apart xs p stack := fun q hq _ hst h0 => hapart _ (hgiven q hq hst) h0
  obtain ⟨_, hstack, hcases⟩ := createProc_entry y u hp stack pd
  have hsteady : ∀ q, q ≠ p → Steady u (createProc y u p stack pd).2 q :=
    hcases.elim (fun h => h.2.1) fun h => h.2.others
  obtain ⟨xs', ys', hl', hs', hin, hmem⟩ := hreg.create hl hp' hcreate hu pd
  refine ⟨xs', ys', ⟨hl', ⟨hs'.waiting, hs'.created, fun q hq _ => hs'.entry q hq (Or.inl trivial)⟩,
    fun q hq hst => ?_⟩, fun q => ?_⟩
  · by_cases hqp : q = p
    · subst hqp
      rw [hstack hst]
      exact List.mem_cons_self
    · have hs := hsteady q hqp
      rw [hs.stack]
      exact List.mem_cons_of_mem _
        (hgiven q ((hin q hq).resolve_right hqp) ((has_congr hs.flags).mp hst))
  · rw [hmem, List.mem_append, List.mem_singleton]
    grind

/-- After `scheduler_init` has come to the end, with two stacks that are apart; `.kinit` is
running. -/
def EnterStart (y : Symbols) (s : RunState) : Prop :=
  ∃ s0 kinit idle sched idleStack schedStack, kinit ≠ 0 ∧ idle ≠ 0 ∧ sched ≠ 0 ∧
    (initProcs kinit idle sched).Nodup ∧ (∀ a ∈ entryWords idleStack, a ∉ entryWords schedStack) ∧
    s = ⟨⟨schedulerInit y s0 kinit idle sched idleStack schedStack, initProcs kinit idle sched⟩,
      kinit, fun _ => none⟩

theorem EnterStart.runStart (h : EnterStart y s) : RunStart y s := by
  obtain ⟨s0, kinit, idle, sched, idleStack, schedStack, h1, h2, h3, hn, _, rfl⟩ := h
  exact ⟨s0, kinit, idle, sched, idleStack, schedStack, h1, h2, h3, hn, rfl⟩

theorem schedulerInit_starts (y : Symbols) (s0 : Sched) {kinit idle sched idleStack schedStack : U32}
    (h1 : kinit ≠ 0) (h2 : idle ≠ 0) (h3 : sched ≠ 0) (hn : (initProcs kinit idle sched).Nodup)
    (hapart : ∀ a ∈ entryWords idleStack, a ∉ entryWords schedStack) :
    ∃ xs ys, (schedulerInit y s0 kinit idle sched idleStack schedStack).Lists xs ys ∧
      Starts y (schedulerInit y s0 kinit idle sched idleStack schedStack) (fun _ => True) xs ys := by
  obtain ⟨xs, ys, hl, _⟩ := schedulerInit_lists y s0 idleStack schedStack hn
  refine ⟨xs, ys, hl, ?_⟩
  rw [initProcs, if_neg h1, if_neg h2, if_neg h3] at hn
  simp only [schedulerInit, if_neg h1, if_neg h2, if_neg h3] at hl ⊢
  have hnone : ∀ {v : U32}, v ∉ ([] : List U32) := List.not_mem_nil
  have h0 : Begun y { s0 with active := ⟨0, 0, 0, 0⟩, inactive := ⟨0, 0, 0, 0⟩ } [] [] [] :=
    ⟨lists_nil s0, ⟨fun _ hq => absurd hq hnone, fun _ hq => absurd hq hnone,
      fun _ hq => absurd hq hnone⟩, fun _ hq => absurd hq hnone⟩
  obtain ⟨xs1, ys1, hb1, hm1⟩ := h0.registerCreate h1 hnone hnone y.kinitPath 0
    (procFlagKernel ||| procSharedAddrSpace) 0 0 fun _ ha => absurd ha hnone
  have hnew2 : ¬ (idle ∈ xs1 ∨ idle ∈ ys1) := by
    rw [hm1]
    rintro (rfl | hq | hq)
    · exact (List.nodup_cons.mp hn).1 List.mem_cons_self
    · cases hq
    · cases hq
  rw [not_or] at hnew2
  obtain ⟨xs2, ys2, hb2, hm2⟩ := hb1.registerCreate h2 hnew2.1 hnew2.2 y.idlePath y.idleProc
    (procFlagKernel ||| procSharedAddrSpace ||| procFlagStack) idleStack 0
    fun a ha ha0 => absurd (List.mem_singleton.mp ha) ha0
  have hnew3 : ¬ (sched ∈ xs2 ∨ sched ∈ ys2) := by
    rw [hm2, hm1]
    simp only [List.nodup_cons, List.mem_cons, List.not_mem_nil, or_false, not_or] at hn ⊢
    exact ⟨Ne.symm hn.2.1, Ne.symm hn.1.2⟩
  rw [not_or] at hnew3
  obtain ⟨xs3, ys3, hb3, _⟩ := hb2.registerCreate h3 hnew3.1 hnew3.2 y.schedulerPath y.schedulerProc
    (procFlagKernel ||| procSharedAddrSpace ||| procFlagStack ||| procFlagHeap) schedStack 0
    fun a ha ha0 => by
      rw [List.mem_cons, List.mem_singleton] at ha
      rw [ha.resolve_right ha0]
      exact hapart
  -- `.kinit` becomes the current process, which is no part of this
  obtain rfl : xs = xs3 := hl.active.unique hb3.lists.active
  obtain rfl : ys = ys3 := hl.inactive.unique hb3.lists.inactive
  exact hb3.starts.steady rfl (fun _ _ => id) (fun q hq => ⟨hq, rfl, rfl, rfl⟩)
    fun q hq => Or.inl ⟨hq, rfl, rfl, rfl⟩

/-! ## Runs -/

/-- A process that comes to its first turn gets what `create_proc` filled in. -/
def RunState.Enters (y : Symbols) (s : RunState) : Prop :=
  ∀ (tick : Tick) (current next : U32), (schedulerSwitch s.sched).1 = some (current, next) →
    (s.tick tick).saved next = none →
      EntersAt y (s.tick tick).sched next ∧
        ((s.tick tick).sched.procs next).context.Restores
          (entryContext y ((s.tick tick).sched.procs next)).cpu

theorem Starts.enters (h : Starts y s.sched s.Unrun xs ys) (hf : s.Follows xs)
    (hl : s.sched.Lists xs ys) : s.Enters y := by
  intro tick current next hsw hnone
  obtain ⟨u, -, hrun⟩ := hf.tick_cases hl tick
  rcases hrun with ⟨hno, _⟩ | ⟨hturn, hsome, x, _, _, _, hrun⟩
  · rw [hno] at hsw
    cases hsw
  · rw [hsome] at hsw
    obtain ⟨rfl, rfl⟩ := Prod.mk.inj (Option.some.inj hsw)
    obtain ⟨hsteady, _, hsaved⟩ := hf.tick_steady hl tick
    rw [hsaved, update_of_ne hturn.2] at hnone
    have henters := h.entry _ (hl.nextInTurn_mem hf.running) ⟨hturn.2, hnone⟩
    have henters' := henters.steady (hsteady _ hturn.2) fun _ a _ => by rw [RunState.tick_mem]
    refine ⟨henters', ?_⟩
    rw [← henters'.context]
    exact Context.restores_cpu _

/-- The invariant of runs. -/
def RunState.Sound (y : Symbols) (s : RunState) : Prop :=
  ∃ xs ys, s.toSchedState.Holds xs ys ∧ s.Follows xs ∧ Starts y s.sched s.Unrun xs ys

theorem EnterStart.sound (h : EnterStart y s) : s.Sound y := by
  obtain ⟨xs, ys, hholds, hf⟩ := h.runStart.tracked
  obtain ⟨s0, kinit, idle, sched, idleStack, schedStack, h1, h2, h3, hn, hapart, rfl⟩ := h
  obtain ⟨xs', ys', hl, hstarts⟩ := schedulerInit_starts y s0 h1 h2 h3 hn hapart
  have hl' := hholds.lists
  obtain rfl : xs' = xs := hl.active.unique hl'.active
  obtain rfl : ys' = ys := hl.inactive.unique hl'.inactive
  exact ⟨xs', ys', hholds, hf.toFollows, hstarts.waiting, hstarts.created,
    fun q hq _ => hstarts.entry q hq trivial⟩

theorem RunState.Sound.step {e : Event} (h : s.Sound y) (he : e.Entering s)
    (hstep : RunStep y e s s') : s'.Sound y := by
  obtain ⟨xs, ys, hholds, hf, hstarts⟩ := h
  exact hstarts.event hholds hf he hstep

theorem RunState.Sound.enters (h : s.Sound y) : s.Enters y := by
  obtain ⟨xs, ys, hholds, hf, hstarts⟩ := h
  exact hstarts.enters hf hholds.lists

/-- **The first turn.**  In every run in which the running process is not unloaded, what is
unloaded can be taken out, and stacks are apart, a tick that switches to a process for the
first time loads `startup_proc`, the segments of its ring, interrupts on and the stack of
the process, with the process as the argument on it. -/
theorem schedulerRun_enters (h : Reach (EnterStart y) (Guarded Event.Entering (RunStep y)) s) :
    s.Enters y := by
  have hsound : s.Sound y := Reach.invariant (RunState.Sound y) (fun s hs => hs.sound)
    (fun e s s' hs hstep => hs.step hstep.1 hstep.2) h
  exact hsound.enters

/-- After `scheduler_init`, and a tick that interrupts `.kinit`. -/
theorem schedulerRun_enters_one : (smallRunning.tick kernelTick).Enters smallSymbols := by
  have hapart : ∀ a ∈ entryWords 0x10000, a ∉ entryWords 0x120000 := by
    simp [entryWords, entryTop, defaultStack]
  have hstart : EnterStart smallSymbols smallRunning :=
    ⟨_, _, _, _, _, _, by decide, by decide, by decide, by decide, hapart, rfl⟩
  have horderly : (Event.tick kernelTick).Entering smallRunning :=
    ⟨trivial, fun _ _ _ h => nomatch h⟩
  exact schedulerRun_enters (.next (.start hstart) ⟨horderly, trivial, rfl⟩)

end Tomk
