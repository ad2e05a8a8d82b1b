/-
# Creating a process when allocations fail

`create_proc` clears `PROC_FLAG_CREATE` before it allocates.  Without a stack it
returns with the process where it was: the scheduler process comes to it again,
and neither creates it, since the flag is gone, nor destroys it
(`createProc_noStack`).  What `pgd_create_pd` returns is not looked at: without a
page directory the process becomes active with 0 in `cr3`.

`createProc_settles` says when neither happens.
-/
import Tomk.Sched.SchedulerRun

namespace Tomk

open DList Function

/-- The process is active, with a stack if it is to have one and a page
directory; or it is inactive, and the scheduler process will create or destroy
it. -/
def Sched.Settled (s : Sched) (p : U32) : Prop :=
  (s.Active p ∧ ((s.procs p).Has procFlagStack → (s.procs p).stack ≠ 0) ∧
      (s.procs p).context.cr3 ≠ 0) ∨
    s.Scanned p ∧ ((s.procs p).Has procFlagCreate ∨ (s.procs p).Has procFlagServiceMask)

/-- The property as it is asked: for every process that is registered, and
whatever the allocations return. -/
def CreateSettles : Prop :=
  ∀ (y : Symbols) (s : Sched) (xs ys : List U32) (p stack pd : U32), s.Lists xs ys → p ∈ ys →
    (s.procs p).Has procFlagCreate → (createProc y s p stack pd).2.Settled p

/-- A process without a stack is to be destroyed anyway; a process with its stack
gets a page directory. -/
def Process.Provided (y : Symbols) (x : Process) (stack pd : U32) : Prop :=
  if x.Has procFlagStack ∧ stack = 0 then x.Has procFlagServiceMask
  else (if x.Has procSharedAddrSpace then v2p y.pgPd else pd) ≠ 0

instance (y : Symbols) (x : Process) (stack pd : U32) : Decidable (x.Provided y stack pd) :=
  inferInstanceAs (Decidable (if x.Has procFlagStack ∧ stack = 0 then x.Has procFlagServiceMask
    else (if x.Has procSharedAddrSpace then v2p y.pgPd else pd) ≠ 0))

variable {y : Symbols} {s t : Sched} {p stack pd : U32} {xs ys pre post : List U32}

/-- The flag is gone. -/
theorem not_has_create {x : Process} {f : U32} (h : x.flags = f &&& ~~~procFlagCreate) :
    ¬ x.Has procFlagCreate := by
  rw [Process.Has, h, BitVec.and_assoc, BitVec.and_comm (~~~procFlagCreate) procFlagCreate,
    BitVec.and_not_self]
  exact fun hc => hc (BitVec.and_zero)

theorem Sched.Lists.not_active (hl : t.Lists xs ys) (hp : p ∈ ys) : ¬ t.Active p := by
  rw [hl.active_iff]
  exact fun hx => hl.disjoint p hx hp

theorem Sched.Lists.not_scanned (hl : t.Lists xs ys) (hp : p ∈ xs) : ¬ t.Scanned p := by
  rw [hl.scanned_iff]
  exact hl.disjoint p hp

/-- **Without a stack** the process stays, and only a service flag makes the
scheduler process take it. -/
theorem createProc_noStack (hl : s.Lists xs ys) (hp : p ∈ ys) (y : Symbols) (pd : U32)
    (hs : (s.procs p).Has procFlagStack) :
    (createProc y s p 0 pd).2.Settled p ↔ (s.procs p).Has procFlagServiceMask := by
  obtain ⟨_, x, hnext, hprev, hflags, hrun⟩ : _ ∧ ∃ x : Process, _ :=
    (createProc_cases y s p 0 pd).resolve_right fun h => h.1 ⟨hs, rfl⟩
  rw [hrun]
  have hl' := hl.same (sameLists_setProc hnext hprev) rfl
  have hx : (s.setProc p x).procs p = x := by rw [Sched.setProc_procs, if_pos rfl]
  have hservice : x.Has procFlagServiceMask ↔ (s.procs p).Has procFlagServiceMask := by
    rw [Process.Has, Process.Has, hflags, clear_create _ (by decide)]
  rw [Sched.Settled, hx, hservice]
  constructor
  · rintro (⟨h, _⟩ | ⟨_, h | h⟩)
    · exact absurd h (hl'.not_active hp)
    · exact absurd h (not_has_create hflags)
    · exact h
  · intro h
    exact Or.inr ⟨hl'.scanned_iff.mpr hp, Or.inr h⟩

/-- **With its stack**, or in no need of one, the process becomes active with the
page directory that it got. -/
theorem createProc_stack (hl : s.Lists xs ys) (hp : p ∈ ys) (y : Symbols) (pd : U32)
    (hs : ¬ ((s.procs p).Has procFlagStack ∧ stack = 0)) :
    (createProc y s p stack pd).2.Settled p ↔
      (if (s.procs p).Has procSharedAddrSpace then v2p y.pgPd else pd) ≠ 0 := by
  obtain ⟨pre, post, rfl⟩ := List.append_of_mem hp
  have hp0 := hl.inactive.ne hp
  obtain ⟨_, x, mem, hpr, hrun⟩ := (createProc_cases y s p stack pd).resolve_left fun h => hs h.1
  have hl' := hl.move hpr mem
  have hcore : ((procmanAppend (procmanRemove (preparedProc s p x mem) .inactive p) .active p).procs
      p).core = x.core := by
    rw [procmanAppend_core _ _ hp0, procmanRemove_core _ _ hp0]
    rw [show (preparedProc s p x mem).procs p = x from by
      rw [show (preparedProc s p x mem).procs p = (s.setProc p x).procs p from rfl,
        Sched.setProc_procs, if_pos rfl]]
  rw [hrun]
  generalize procmanAppend (procmanRemove (preparedProc s p x mem) .inactive p) .active p = u
    at hl' hcore
  obtain ⟨hcontext, hflags, hstack⟩ := Process.core_eq hcore
  have hmem : p ∈ xs ++ [p] := List.mem_append_right xs List.mem_cons_self
  have hcr3 : (u.procs p).context.cr3 =
      if (s.procs p).Has procSharedAddrSpace then v2p y.pgPd else pd := by
    rw [← hpr.cr3, hcontext]
  have hgiven : (u.procs p).Has procFlagStack → (u.procs p).stack ≠ 0 := by
    intro h
    have hold : (s.procs p).Has procFlagStack := by
      rw [Process.Has, hflags, hpr.flags, clear_create _ (by decide)] at h
      exact h
    rw [hstack, hpr.stack hold]
    exact fun h0 => hs ⟨hold, h0⟩
  rw [Sched.Settled, hcr3]
  constructor
  · rintro (⟨_, _, h⟩ | ⟨h, _⟩)
    · exact h
    · exact absurd h (hl'.not_scanned hmem)
  · intro h
    exact Or.inl ⟨hl'.active_iff.mpr hmem, hgiven, h⟩

/-- **`create_proc`** of an inactive process leaves it settled if and only if what
it needs is provided. -/
theorem createProc_settles (hl : s.Lists xs ys) (hp : p ∈ ys) :
    (createProc y s p stack pd).2.Settled p ↔ (s.procs p).Provided y stack pd := by
  rw [Process.Provided]
  by_cases hs : (s.procs p).Has procFlagStack ∧ stack = 0
  · obtain ⟨hs, rfl⟩ := hs
    rw [if_pos ⟨hs, rfl⟩]
    exact createProc_noStack hl hp y pd hs
  · rw [if_neg hs]
    exact createProc_stack hl hp y pd hs

/-! ## A process that no one takes -/

/-- An inactive list of one process, as `scheduler_load_kprocess` makes it. -/
def oneInactive : Sched :=
  ⟨⟨0, 0, 0, 0⟩, ⟨0x400, 0x400, 0, 0⟩, fun _ => { newProcess with
    flags := procFlagKernel ||| procFlagStack ||| procFlagHeap ||| procFlagCreate }, fun _ => 0⟩

theorem oneInactive_lists : oneInactive.Lists [] [0x400] :=
  ⟨Ring.nil rfl rfl, Ring.singleton (by decide) rfl rfl rfl rfl, fun _ hp => (nomatch hp), Or.inl rfl⟩

/-- With its stack and a page directory it is settled. -/
theorem createProc_settles_one :
    (createProc smallSymbols oneInactive 0x400 0x240000 0x300000).2.Settled 0x400 :=
  (createProc_settles oneInactive_lists List.mem_cons_self).mpr (by decide)

/-- **Without its stack** the process stays in the inactive list, and is neither
created nor destroyed. -/
theorem createProc_leaves_inactive : ¬ CreateSettles := by
  intro h
  have hsettled := h smallSymbols oneInactive [] [0x400] 0x400 0 0x300000 oneInactive_lists
    List.mem_cons_self (by decide)
  rw [createProc_noStack oneInactive_lists List.mem_cons_self smallSymbols 0x300000 (by decide)]
    at hsettled
  exact absurd hsettled (by decide)

end Tomk
