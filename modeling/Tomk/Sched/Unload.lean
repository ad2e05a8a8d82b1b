/-
# Unloading under preemption

`scheduler_unload_process` tests `PROC_FLAG_KILL`, takes the process out of the
active list, appends it to the inactive one, and sets the flag.  Each of the two
list operations is a critical section; between the four steps the timer may
switch to another process, which may unload the same one.

A call that comes between the test and the set of another finds the flag clear
as well, and the process is moved twice (`unloadPreempt_twice`).  In every
interleaving in which no test comes there, the lists are well formed, nothing
else moves, and when all calls have returned the process is once in the inactive
list (`unloadPreempt_sound`).
-/
import Tomk.Sched.SchedulerRun

namespace Tomk

open DList Function Runs

/-! ## The steps -/

/-- Where a call is. -/
inductive UnloadPc where
  | idle
  /-- The flag was clear; `procman_remove` is next. -/
  | tested
  | removed
  | appended
  | done
deriving DecidableEq

/-- The scheduler, and any number of calls of `scheduler_unload_process`. -/
structure UnloadState where
  sched : Sched
  pc : Nat → UnloadPc

inductive UnloadMove where
  | call (i : Nat)
  | switch

/-- The next step of a call. -/
def UnloadState.next (p : U32) (s : UnloadState) (i : Nat) : UnloadState :=
  match s.pc i with
  | .idle =>
      if p = 0 ∨ (s.sched.procs p).Has procFlagKill then { s with pc := update s.pc i .done }
      else { s with pc := update s.pc i .tested }
  | .tested => ⟨procmanRemove s.sched .active p, update s.pc i .removed⟩
  | .removed => ⟨procmanAppend s.sched .inactive p, update s.pc i .appended⟩
  | .appended =>
      ⟨s.sched.setProc p { s.sched.procs p with flags := (s.sched.procs p).flags ||| procFlagKill },
        update s.pc i .done⟩
  | .done => s

def UnloadMove.run (p : U32) (s : UnloadState) : UnloadMove → UnloadState
  | .call i => s.next p i
  | .switch => { s with sched := (schedulerSwitch s.sched).2 }

def UnloadStep (p : U32) (m : UnloadMove) (s s' : UnloadState) : Prop := s' = m.run p s

/-- No call has begun; the lists are `xs` and `ys`, and the process is active. -/
structure UnloadStart (p : U32) (xs ys : List U32) (s : UnloadState) : Prop where
  lists : s.sched.Lists xs ys
  active : p ∈ xs
  idle : ∀ i, s.pc i = .idle

/-! ## What is asked -/

/-- No call is between its first and its last step. -/
def UnloadState.Quiet (s : UnloadState) : Prop := ∀ i, s.pc i = .idle ∨ s.pc i = .done

/-- The lists are well formed, the other processes are where they were, and when
the calls have returned the process is in the inactive list, once. -/
def UnloadState.Sound (s : UnloadState) (p : U32) (xs0 ys0 : List U32) : Prop :=
  ∃ xs ys, s.sched.Lists xs ys ∧ (∀ q, q ≠ p → (q ∈ xs ↔ q ∈ xs0) ∧ (q ∈ ys ↔ q ∈ ys0)) ∧
    (s.Quiet → (∃ i, s.pc i = .done) → ys.count p = 1 ∧ p ∉ xs)

/-- The property as it is asked: for every interleaving. -/
def UnloadIdempotent : Prop :=
  ∀ (p : U32) (xs ys : List U32) (s : UnloadState),
    Reach (UnloadStart p xs ys) (UnloadStep p) s → s.Sound p xs ys

/-- A test that finds the flag clear is not between the test and the set of
another call. -/
def UnloadMove.Alone (p : U32) : UnloadMove → UnloadState → Prop
  | .call i, s => s.pc i = .idle → ¬ (s.sched.procs p).Has procFlagKill → s.Quiet
  | .switch, _ => True

/-- The process can still be unloaded. -/
def UnloadStart.Clear (p : U32) (s : UnloadState) : Prop := ¬ (s.sched.procs p).Has procFlagKill

variable {p : U32} {xs ys xs0 ys0 : List U32} {s s' : UnloadState} {t : Sched} {i : Nat}

/-! ## One step of a call -/

theorem next_idle_stop (h : s.pc i = .idle) (hk : p = 0 ∨ (s.sched.procs p).Has procFlagKill) :
    s.next p i = { s with pc := update s.pc i .done } := by
  simp only [UnloadState.next, h]
  exact if_pos hk

theorem next_idle (h : s.pc i = .idle) (hp : p ≠ 0) (hk : ¬ (s.sched.procs p).Has procFlagKill) :
    s.next p i = { s with pc := update s.pc i .tested } := by
  simp only [UnloadState.next, h]
  exact if_neg (not_or.mpr ⟨hp, hk⟩)

theorem next_tested (h : s.pc i = .tested) :
    s.next p i = ⟨procmanRemove s.sched .active p, update s.pc i .removed⟩ := by
  simp only [UnloadState.next, h]

theorem next_removed (h : s.pc i = .removed) :
    s.next p i = ⟨procmanAppend s.sched .inactive p, update s.pc i .appended⟩ := by
  simp only [UnloadState.next, h]

theorem next_appended (h : s.pc i = .appended) :
    s.next p i = ⟨s.sched.setProc p { s.sched.procs p with
      flags := (s.sched.procs p).flags ||| procFlagKill }, update s.pc i .done⟩ := by
  simp only [UnloadState.next, h]

theorem next_done (h : s.pc i = .done) : s.next p i = s := by
  simp only [UnloadState.next, h]

/-- **The four steps in order are `proc_deregister`.** -/
theorem unload_steps (s : UnloadState) (p : U32) (hi : s.pc i = .idle) :
    ((((s.next p i).next p i).next p i).next p i).sched = procDeregister s.sched p ∧
      ((((s.next p i).next p i).next p i).next p i).pc i = .done := by
  have hself : ∀ (s : UnloadState) (t : Sched) (pc : UnloadPc),
      (⟨t, update s.pc i pc⟩ : UnloadState).pc i = pc := fun s _ pc => update_self i pc s.pc
  by_cases hk : p = 0 ∨ (s.sched.procs p).Has procFlagKill
  · rw [next_idle_stop hi hk, next_done (hself _ _ _), next_done (hself _ _ _), next_done (hself _ _ _)]
    refine ⟨?_, hself _ _ _⟩
    rw [procDeregister]
    by_cases hp : p = 0
    · rw [if_pos hp]
    · rw [if_neg hp, if_pos (hk.resolve_left hp)]
  · obtain ⟨hp, hk⟩ := not_or.mp hk
    rw [next_idle hi hp hk, next_tested (hself _ _ _), next_removed (hself _ _ _),
      next_appended (hself _ _ _)]
    refine ⟨?_, hself _ _ _⟩
    simp only [procDeregister, if_neg hp, if_neg hk]

/-! ## Flags -/

theorem has_kill (f : U32) : (f ||| procFlagKill) &&& procFlagKill ≠ 0 := by
  intro h
  have hbit := congrArg (fun x : U32 => x.getLsbD 30) h
  simp [procFlagKill] at hbit

/-- The flags of a process are not written by a switch. -/
theorem schedulerSwitch_flags (t : Sched) (p : U32) :
    ((schedulerSwitch t).2.procs p).flags = (t.procs p).flags := by
  have hchoose : (chooseCurrent t).procs = t.procs := by
    rw [chooseCurrent]
    split <;> rfl
  obtain ⟨n, hn⟩ := (processUpdate_ticked (chooseCurrent t) (chooseCurrent t).active.current).proc p
  rw [schedulerSwitch]
  split
  · rfl
  · simp only
    split
    all_goals
      simp only [hn, hchoose]

theorem has_flags {x x' : Process} {mask : U32} (h : x'.core = x.core) : x'.Has mask ↔ x.Has mask :=
  has_congr (Process.core_eq h).2.1

/-! ## The invariant -/

/-- Where the process is, and the calls: there is at most one between its first
step and its last. -/
inductive Stage (p : U32) (s : UnloadState) (xs ys : List U32) : Prop
  | before : (∀ j, s.pc j = .idle) → p ∈ xs → ¬ (s.sched.procs p).Has procFlagKill → Stage p s xs ys
  | tested (i : Nat) : s.pc i = .tested → (∀ j, j ≠ i → s.pc j = .idle) → p ∈ xs →
      ¬ (s.sched.procs p).Has procFlagKill → Stage p s xs ys
  | removed (i : Nat) : s.pc i = .removed → (∀ j, j ≠ i → s.pc j = .idle) → p ∉ xs → p ∉ ys →
      ¬ (s.sched.procs p).Has procFlagKill → Stage p s xs ys
  | appended (i : Nat) : s.pc i = .appended → (∀ j, j ≠ i → s.pc j = .idle) → p ∈ ys →
      ¬ (s.sched.procs p).Has procFlagKill → Stage p s xs ys
  | after : s.Quiet → p ∈ ys → (s.sched.procs p).Has procFlagKill → Stage p s xs ys

/-- The lists, the other processes, and the stage. -/
def UnloadState.Inv (s : UnloadState) (p : U32) (xs0 ys0 : List U32) : Prop :=
  ∃ xs ys, s.sched.Lists xs ys ∧ p ≠ 0 ∧
    (∀ q, q ≠ p → (q ∈ xs ↔ q ∈ xs0) ∧ (q ∈ ys ↔ q ∈ ys0)) ∧ Stage p s xs ys

/-- A call that is not the one under way has not begun. -/
theorem others_idle {pc : Nat → UnloadPc} {i : Nat} (h : ∀ j, j ≠ i → pc j = .idle) (c : UnloadPc) :
    ∀ j, j ≠ i → update pc i c j = .idle := fun j hj => by
  rw [update_of_ne hj]
  exact h j hj

theorem quiet_done {pc : Nat → UnloadPc} {i : Nat} (h : ∀ j, j ≠ i → pc j = .idle ∨ pc j = .done) :
    ∀ j, update pc i .done j = .idle ∨ update pc i .done j = .done := fun j => by
  by_cases hj : j = i
  · rw [hj, update_self]
    exact Or.inr rfl
  · rw [update_of_ne hj]
    exact h j hj

theorem not_quiet {c : UnloadPc} (hi : s.pc i = c) (hc : c ≠ .idle ∧ c ≠ .done) : ¬ s.Quiet := by
  intro h
  rcases h i with hj | hj
  · exact hc.1 (hi.symm.trans hj)
  · exact hc.2 (hi.symm.trans hj)

theorem UnloadState.Inv.call (hs : s.Inv p xs0 ys0) (ho : (UnloadMove.call i).Alone p s) :
    (s.next p i).Inv p xs0 ys0 := by
  obtain ⟨xs, ys, hl, hp, hother, hstage⟩ := hs
  cases hstage with
  | before hidle hx hk =>
      rw [next_idle (hidle i) hp hk]
      exact ⟨xs, ys, hl, hp, hother, .tested i (update_self _ _ _)
        (others_idle (fun j _ => hidle j) _) hx hk⟩
  | tested i0 hi0 hrest hx hk =>
      by_cases hi : i = i0
      · subst hi
        rw [next_tested hi0]
        obtain ⟨pre, post, rfl⟩ := List.append_of_mem hx
        have hn := (List.nodup_cons.mp hl.active.nodup).2
        rw [List.nodup_middle, List.nodup_cons] at hn
        refine ⟨pre ++ post, ys, hl.removeActive, hp, fun q hq => ⟨?_, (hother q hq).2⟩,
          .removed i (update_self _ _ _) (others_idle hrest _) hn.1 (hl.disjoint p hx) ?_⟩
        · rw [← (hother q hq).1]
          simp only [List.mem_append, List.mem_cons, hq, false_or]
        · rw [has_flags (procmanRemove_core s.sched .active hp p)]
          exact hk
      · exact absurd (ho (hrest i hi) hk) (not_quiet hi0 (by decide))
  | removed i0 hi0 hrest hx hy hk =>
      by_cases hi : i = i0
      · subst hi
        rw [next_removed hi0]
        refine ⟨xs, ys ++ [p], hl.appendInactive hp hx hy, hp, fun q hq => ⟨(hother q hq).1, ?_⟩,
          .appended i (update_self _ _ _) (others_idle hrest _)
            (List.mem_append_right ys List.mem_cons_self) ?_⟩
        · rw [← (hother q hq).2]
          simp only [List.mem_append, List.mem_singleton, hq, or_false]
        · rw [has_flags (procmanAppend_core s.sched .inactive hp p)]
          exact hk
      · exact absurd (ho (hrest i hi) hk) (not_quiet hi0 (by decide))
  | appended i0 hi0 hrest hy hk =>
      by_cases hi : i = i0
      · subst hi
        rw [next_appended hi0]
        refine ⟨xs, ys, hl.setFlags p _, hp, hother,
          .after (quiet_done fun j hj => Or.inl (hrest j hj)) hy ?_⟩
        rw [Process.Has, Sched.setProc_procs, if_pos rfl]
        exact has_kill _
      · exact absurd (ho (hrest i hi) hk) (not_quiet hi0 (by decide))
  | after hq hy hk =>
      rcases hq i with h | h
      · rw [next_idle_stop h (Or.inr hk)]
        exact ⟨xs, ys, hl, hp, hother, .after (quiet_done fun j _ => hq j) hy hk⟩
      · rw [next_done h]
        exact ⟨xs, ys, hl, hp, hother, .after hq hy hk⟩

/-- The timer keeps the lists and the flags. -/
theorem UnloadState.Inv.switch (hs : s.Inv p xs0 ys0) :
    (UnloadMove.switch.run p s).Inv p xs0 ys0 := by
  obtain ⟨xs, ys, hl, hp, hother, hstage⟩ := hs
  refine ⟨xs, ys, hl.switch, hp, hother, ?_⟩
  have hk : ((schedulerSwitch s.sched).2.procs p).Has procFlagKill
      ↔ (s.sched.procs p).Has procFlagKill := has_congr (schedulerSwitch_flags s.sched p)
  cases hstage with
  | before h1 h2 h3 => exact .before h1 h2 (fun h => h3 (hk.mp h))
  | tested i h1 h2 h3 h4 => exact .tested i h1 h2 h3 (fun h => h4 (hk.mp h))
  | removed i h1 h2 h3 h4 h5 => exact .removed i h1 h2 h3 h4 (fun h => h5 (hk.mp h))
  | appended i h1 h2 h3 h4 => exact .appended i h1 h2 h3 (fun h => h4 (hk.mp h))
  | after h1 h2 h3 => exact .after h1 h2 (hk.mpr h3)

/-- The stage says what is asked. -/
theorem UnloadState.Inv.sound (hs : s.Inv p xs0 ys0) : s.Sound p xs0 ys0 := by
  obtain ⟨xs, ys, hl, hp, hother, hstage⟩ := hs
  refine ⟨xs, ys, hl, hother, fun hquiet hdone => ?_⟩
  obtain ⟨j, hj⟩ := hdone
  cases hstage with
  | before h _ _ => exact absurd (hj.symm.trans (h j)) (by decide)
  | tested i h _ _ _ => exact absurd hquiet (not_quiet h (by decide))
  | removed i h _ _ _ _ => exact absurd hquiet (not_quiet h (by decide))
  | appended i h _ _ _ => exact absurd hquiet (not_quiet h (by decide))
  | after _ hy _ =>
      have hn := (List.nodup_cons.mp hl.inactive.nodup).2
      exact ⟨List.count_eq_one_of_mem hn hy, fun hx => hl.disjoint p hx hy⟩

/-- **Unloading is idempotent** where no test that finds the flag clear comes
between the test and the set of another call, and the flag is clear at first:
in every state of every such interleaving, on lists of any shape. -/
theorem unloadPreempt_sound
    (h : Reach (fun s => UnloadStart p xs ys s ∧ UnloadStart.Clear p s)
      (Guarded (UnloadMove.Alone p) (UnloadStep p)) s) : s.Sound p xs ys := by
  have hinv : s.Inv p xs ys := by
    refine Reach.invariant (fun s : UnloadState => s.Inv p xs ys) (fun s hs => ?_)
      (fun m s s' hs hstep => ?_) h
    · obtain ⟨⟨hl, hx, hidle⟩, hk⟩ := hs
      exact ⟨xs, ys, hl, hl.active.ne hx, fun _ _ => ⟨Iff.rfl, Iff.rfl⟩, .before hidle hx hk⟩
    · obtain ⟨ho, rfl⟩ := hstep
      cases m with
      | call i => exact hs.call ho
      | switch => exact hs.switch
  exact hinv.sound

/-! ## Two calls -/

/-- Two active processes. -/
def twoActive : Sched :=
  ⟨⟨0x100, 0x400, 0x100, 2⟩, ⟨0, 0, 0, 0⟩, fun p => { newProcess with
    flags := procFlagKernel ||| procFlagStack ||| procFlagHeap
    next := if p = 0x100 then 0x400 else 0
    prev := if p = 0x400 then 0x100 else 0 }, fun _ => 0⟩

def twoCalls : UnloadState := ⟨twoActive, fun _ => .idle⟩

theorem twoCalls_start : UnloadStart 0x400 [0x100, 0x400] [] twoCalls :=
  ⟨⟨⟨by decide, ⟨rfl, rfl, rfl⟩, ⟨rfl, rfl, rfl⟩⟩, Ring.nil rfl rfl, fun _ _ => List.not_mem_nil,
    Or.inr List.mem_cons_self⟩, List.mem_cons_of_mem _ List.mem_cons_self, fun _ => rfl⟩

/-- One call, until it has returned. -/
theorem unloadPreempt_sound_one :
    ((((twoCalls.next 0x400 0).next 0x400 0).next 0x400 0).next 0x400 0).Sound 0x400
      [0x100, 0x400] [] := by
  have hstep : ∀ s : UnloadState, (s.pc 0 = .idle → s.Quiet) →
      Guarded (UnloadMove.Alone 0x400) (UnloadStep 0x400) (.call 0) s (s.next 0x400 0) :=
    fun s hs => ⟨fun hi _ => hs hi, rfl⟩
  have hclear : ¬ (twoCalls.sched.procs 0x400).Has procFlagKill := by decide
  have h1 := hstep twoCalls fun _ _ => Or.inl rfl
  have h2 := hstep (twoCalls.next 0x400 0) fun h => absurd h (by decide)
  have h3 := hstep ((twoCalls.next 0x400 0).next 0x400 0) fun h => absurd h (by decide)
  have h4 := hstep (((twoCalls.next 0x400 0).next 0x400 0).next 0x400 0) fun h =>
    absurd h (by decide)
  exact unloadPreempt_sound
    (.next (.next (.next (.next (.start ⟨twoCalls_start, hclear⟩) h1) h2) h3) h4)

/-- The steps of the calls, in this order. -/
def UnloadState.calls (p : U32) (s : UnloadState) (l : List Nat) : UnloadState :=
  l.foldl (UnloadState.next p) s

theorem reach_calls {init : UnloadState → Prop} (l : List Nat) (h : Reach init (UnloadStep p) s) :
    Reach init (UnloadStep p) (s.calls p l) :=
  Reach.foldl (fun i _ => ⟨.call i, rfl⟩) h l

/-- **Two calls that both find the flag clear** move the process twice; it is
then its own neighbour. -/
theorem unloadPreempt_twice : ¬ UnloadIdempotent := by
  intro hall
  -- both test, one call returns, and the other goes on
  have hs := hall _ _ _ _ (reach_calls [0, 1, 0, 0, 0, 1, 1, 1] (.start twoCalls_start))
  have htail : (twoCalls.calls 0x400 [0, 1, 0, 0, 0, 1, 1, 1]).sched.inactive.tail = 0x400 := by
    decide +kernel
  have hself : ((twoCalls.calls 0x400 [0, 1, 0, 0, 0, 1, 1, 1]).sched.procs 0x400).next = 0x400 := by
    decide +kernel
  generalize twoCalls.calls 0x400 [0, 1, 0, 0, 0, 1, 1, 1] = s at hs htail hself
  obtain ⟨xs, ys, hl, _⟩ := hs
  have hscanned : s.sched.Scanned 0x400 := by
    rw [Sched.Scanned, htail]
    exact .start (by decide)
  have hne := hl.inactive.next_ne (hl.scanned_iff.mp hscanned)
  rw [← links_next s.sched .inactive (by decide)] at hne
  exact hne hself

end Tomk
