/-
# How long a process waits

A round of the active list is fair while the list is what it is.  Here it changes
while a process waits for its turn: others are created, and unloaded.  One that is
created goes to the end of the list, and that may be before the one that waits; so
each of them costs it a turn, of two ticks, and nothing else does.

In every run in which the running process is not unloaded, and what is unloaded can be
taken out of its list, a process that is active and not running is reached within
`2 * (n - 1 + c)` ticks, where `n` processes were active when it began to wait, and
`create_proc` has been called `c` times since (`schedulerRun_waits`).
-/
import Tomk.Lib.Turns
import Tomk.Sched.RoundRobin

namespace Tomk

open DList Function Runs Turns

variable {y : Symbols} {s s' : RunState} {t : Sched} {p q r : U32} {xs ys bs : List U32}

/-! ## Runs in which a process waits -/

def Event.ticks : Event → Nat
  | .tick _ => 1
  | .call _ => 0

def Event.creates : Event → Nat
  | .call (.create _ _ _) => 1
  | _ => 0

/-- A run from `s` of `k` ticks and `c` calls of `create_proc`, in which `p` is not
unloaded, and does not run. -/
inductive Waiting (y : Symbols) (p : U32) (s : RunState) : Nat → Nat → RunState → Prop
  | start : s.running ≠ p → Waiting y p s 0 0 s
  | next {k c : Nat} {e : Event} {u u' : RunState} : Waiting y p s k c u →
      Guarded Event.Removable (RunStep y) e u u' → e ≠ .call (.unload p) → u'.running ≠ p →
      Waiting y p s (k + e.ticks) (c + e.creates) u'

/-! ## The ticks of a process -/

theorem ticks_of_core {x x' : Process} (h : x'.core = x.core) : x'.ticks = x.ticks := by
  have hticks := congrArg Process.ticks h
  exact hticks

theorem procRegister_ticks (t : Sched) (hp : p ≠ 0) (path entry flags q : U32) :
    ((procRegister t p path entry flags).procs q).ticks
      = if q = p then 0 else (t.procs q).ticks := by
  simp only [procRegister, if_neg hp]
  rw [ticks_of_core (procmanAppend_core _ .inactive hp q)]
  simp only [Sched.setProc_procs]
  by_cases hq : q = p
  · simp only [if_pos hq, if_true]
    rfl
  · simp only [if_neg hq]

theorem procDeregister_ticks (t : Sched) (p q : U32) :
    ((procDeregister t p).procs q).ticks = (t.procs q).ticks := by
  by_cases hp : p = 0
  · rw [procDeregister, if_pos hp]
  by_cases hk : (t.procs p).Has procFlagKill
  · rw [procDeregister, if_neg hp, if_pos hk]
  simp only [procDeregister, if_neg hp, if_neg hk]
  have hmove : ((procmanAppend (procmanRemove t .active p) .inactive p).procs q).ticks
      = (t.procs q).ticks :=
    (ticks_of_core (procmanAppend_core _ .inactive hp q)).trans
      (ticks_of_core (procmanRemove_core t .active hp q))
  rw [Sched.setProc_procs]
  split
  · next hq =>
      rw [← hmove, hq]
  · exact hmove

theorem setupProc_ticks (y : Symbols) (x : Process) (stack id pd : U32) :
    (setupProc y x stack id pd).ticks = x.ticks := by
  simp only [setupProc]
  split <;> rfl

theorem createProc_ticks (y : Symbols) (t : Sched) (hp : p ≠ 0) (stack pd q : U32) :
    ((createProc y t p stack pd).2.procs q).ticks = (t.procs q).ticks := by
  have hset : ∀ x : Process, x.ticks = (t.procs p).ticks →
      ((t.setProc p x).procs q).ticks = (t.procs q).ticks := fun x hx => by
    rw [Sched.setProc_procs]
    split
    · next hq => rw [hx, hq]
    · rfl
  simp only [createProc]
  split
  · exact hset _ rfl
  · exact (ticks_of_core (procmanAppend_core _ .active hp q)).trans
      ((ticks_of_core (procmanRemove_core _ .inactive hp q)).trans (hset _ (setupProc_ticks y _ _ _ _)))

theorem destroyProc_ticks (t : Sched) (p q : U32) :
    ((destroyProc t p).2.procs q).ticks = (t.procs q).ticks := by
  by_cases hp : p = 0
  · rw [destroyProc, if_pos hp]
  · rw [destroyProc_snd hp]
    exact ticks_of_core (procmanRemove_core t .inactive hp q)

/-- The processes that wait have not begun their time. -/
structure RunState.Unbegun (s : RunState) : Prop where
  running : (s.sched.procs s.running).ticks = 0 ∨ (s.sched.procs s.running).ticks = 1
  others : ∀ q ∈ s.live, q ≠ s.running → (s.sched.procs q).ticks = 0

/-- A call changes no ticks, and a process that is loaded has none. -/
theorem SchedCall.ticks {s : SchedState} {c : SchedCall} (hs : s.Holds xs ys) (hlegal : c.Legal s)
    (hne : c ≠ .switch) (q : U32) :
    (q ∈ s.live → ((c.run y s).sched.procs q).ticks = (s.sched.procs q).ticks) ∧
      (q ∉ s.live → q ∈ (c.run y s).live → ((c.run y s).sched.procs q).ticks = 0) := by
  cases c with
  | load user proc path entry =>
      have hreg : ∀ flags, (q ∈ s.live →
          ((procRegister s.sched proc path entry flags).procs q).ticks = (s.sched.procs q).ticks) ∧
          (q ∉ s.live → q ∈ (if proc = 0 then s.live else proc :: s.live) →
            ((procRegister s.sched proc path entry flags).procs q).ticks = 0) := by
        intro flags
        by_cases hp : proc = 0
        · rw [procRegister, if_pos hp, if_pos hp]
          exact ⟨fun _ => rfl, fun hq hq' => absurd hq' hq⟩
        · rw [procRegister_ticks s.sched hp, if_neg hp]
          refine ⟨fun hq => if_neg fun he : q = proc => hlegal (he ▸ hq), fun hq hq' => ?_⟩
          exact if_pos ((List.mem_cons.mp hq').resolve_right hq)
      cases user
      · exact hreg _
      · exact hreg _
  | unload proc => exact ⟨fun _ => procDeregister_ticks _ _ q, fun hq hq' => absurd hq' hq⟩
  | create proc stack pd =>
      have hp := hs.lists.inactive.ne (hs.lists.scanned_iff.mp hlegal.1)
      exact ⟨fun _ => createProc_ticks y _ hp stack pd q, fun hq hq' => absurd hq' hq⟩
  | destroy proc =>
      exact ⟨fun _ => destroyProc_ticks _ _ q, fun hq hq' => absurd (List.mem_of_mem_filter hq') hq⟩
  | switch => exact absurd rfl hne

/-! ## A tick -/

/-- What a tick counts, and whose turn it is then. -/
theorem schedulerSwitch_spec (hc : t.active.current ≠ 0) :
    (schedulerSwitch t).2.procs = (processUpdate t t.active.current).2.procs ∧
      (schedulerSwitch t).2.active.current = if (processUpdate t t.active.current).1
        then nextInTurn t t.active.current else t.active.current := by
  have ht := processUpdate_ticked t t.active.current
  have hchoose : chooseCurrent t = t := if_neg hc
  rw [schedulerSwitch, if_neg fun h => hc h.1, hchoose]
  simp only
  split
  · refine ⟨rfl, ?_⟩
    simp only [nextInTurn, ht.sameLists.next, ht.active]
  · exact ⟨rfl, congrArg Procman.current ht.active⟩

/-- **A tick**: the running process has had one more, or the next one has its turn. -/
theorem RunState.Unbegun.tick (hu : s.Unbegun) (hf : s.Follows xs) (hs : s.toSchedState.Holds xs ys)
    (k : Tick) :
    ((s.sched.procs s.running).ticks = 0 ∧ (s.tick k).sched.active.current = s.running ∨
      (s.sched.procs s.running).ticks = 1 ∧
        (s.tick k).sched.active.current = nextInTurn s.sched s.running) ∧
    ∀ q, ((s.tick k).sched.procs q).ticks = if q = s.running then
      (if (s.sched.procs s.running).ticks = 0 then 1 else 0) else (s.sched.procs q).ticks := by
  have hr := hs.lists.active.ne hf.running
  have hquiet := fun q => s.tick_undisturbed k [q]
  have hticks : ∀ q, ((s.tick k).sched.procs q).ticks
      = ((processUpdate s.sched s.running).2.procs q).ticks := fun q => by
    rw [(hquiet q).ticks q List.mem_cons_self, (schedulerSwitch_spec (by rw [hf.current]; exact hr)).1,
      hf.current]
  have hcur : (s.tick k).sched.active.current = if (processUpdate s.sched s.running).1
      then nextInTurn s.sched s.running else s.running := by
    rw [(hquiet 0).active, (schedulerSwitch_spec (by rw [hf.current]; exact hr)).2, hf.current]
  rcases hu.running with h0 | h1
  · have hfirst := processUpdate_first hr h0
    refine ⟨Or.inl ⟨h0, ?_⟩, fun q => ?_⟩
    · rw [hcur, hfirst, if_neg Bool.false_ne_true]
    · rw [hticks, hfirst, Sched.setProc_procs, if_pos h0]
      split <;> rfl
  · obtain ⟨hdone, hsecond⟩ := processUpdate_second hr h1
    refine ⟨Or.inr ⟨h1, ?_⟩, fun q => ?_⟩
    · rw [hcur, hdone, if_pos rfl]
    · have hne : (s.sched.procs s.running).ticks ≠ 0 := by
        rw [h1]
        decide
      rw [hticks, hsecond, if_neg hne]

/-- Whose turn it is next. -/
theorem Sched.Lists.nextInTurn_behind (hl : t.Lists xs ys) (hb : Behind xs r (q :: bs)) :
    nextInTurn t r = q := by
  obtain ⟨pre, post, rfl, heq⟩ := hb
  have hr := hl.active.ne (List.mem_append_right pre List.mem_cons_self)
  have hnext : (t.procs r).next = post.headD 0 := by
    rw [links_next t .active hr]
    exact hl.active.next_eq
  rw [nextInTurn, hnext]
  cases post with
  | nil =>
      rw [List.nil_append] at heq
      subst heq
      exact hl.active.head
  | cons c post =>
      obtain ⟨rfl, _⟩ := List.cons.inj heq
      have hq : q ≠ 0 :=
        hl.active.ne (List.mem_append_right pre (List.mem_cons_of_mem r List.mem_cons_self))
      exact if_pos hq

/-! ## How many ticks are left -/

/-- It is the turn of `p` after `n` ticks, at most, if the list stays as it is. -/
def RunState.Waits (s : RunState) (xs : List U32) (p : U32) (n : Nat) : Prop :=
  ∃ bs, Behind xs s.running bs ∧ p ∈ bs ∧
    2 * (bs.idxOf p + 1) ≤ n + (s.sched.procs s.running).ticks.toNat

/-- **What a call does to the active list.** -/
theorem SchedState.Holds.active_step {s : SchedState} {c : SchedCall} {xs' ys' : List U32}
    (hs : s.Holds xs ys) (hlegal : c.Legal s) (ho : c.Orderly s) (hne : c ≠ .switch)
    (hs' : (c.run y s).Holds xs' ys') :
    xs' = xs ∨ (∃ q stack pd, c = .create q stack pd ∧ xs' = xs ++ [q]) ∨
      ∃ q pre post, c = .unload q ∧ ¬ (s.sched.procs q).Has procFlagKill ∧
        xs = pre ++ q :: post ∧ xs' = pre ++ post := by
  have hring := hs'.lists.active
  cases c with
  | load user proc path entry =>
      refine Or.inl ?_
      cases user
      · obtain ⟨_, h⟩ := hs.load path entry (procFlagKernel ||| procFlagStack ||| procFlagHeap) hlegal
        exact hring.unique h.lists.active
      · obtain ⟨_, h⟩ := hs.load path entry (procFlagUser ||| procFlagStack ||| procFlagHeap) hlegal
        exact hring.unique h.lists.active
  | unload p =>
      have hsame : procDeregister s.sched p = s.sched → xs' = xs := fun heq => by
        simp only [SchedCall.run, schedulerUnloadProcess, heq] at hring
        exact hring.unique hs.lists.active
      by_cases hp : p = 0
      · exact Or.inl (hsame (by rw [procDeregister, if_pos hp]))
      by_cases hk : (s.sched.procs p).Has procFlagKill
      · exact Or.inl (hsame (by rw [procDeregister, if_neg hp, if_pos hk]))
      rcases ho with h | h | h | ⟨h, hprev, hnext⟩
      · exact absurd h hp
      · exact absurd h hk
      · obtain ⟨pre, post, rfl⟩ := List.append_of_mem (hs.lists.active_iff.mp h)
        have hl := hs.lists.deregister hk
        exact Or.inr (Or.inr ⟨p, pre, post, rfl, hk, rfl, hring.unique hl.active⟩)
      · obtain ⟨pre, post, rfl⟩ := List.append_of_mem (hs.lists.scanned_iff.mp h)
        rw [links_prev s.sched .inactive hp, hs.lists.inactive.prev_eq] at hprev
        rw [links_next s.sched .inactive hp, hs.lists.inactive.next_eq] at hnext
        exact Or.inl (hring.unique (hs.lists.deregisterMiddle hk hprev hnext).active)
  | create p stack pd =>
      obtain ⟨pre, post, rfl⟩ := List.append_of_mem (hs.lists.scanned_iff.mp hlegal.1)
      rcases hs.lists.create y stack pd with ⟨_, hl⟩ | ⟨_, hl⟩
      · exact Or.inl (hring.unique hl.active)
      · exact Or.inr (Or.inl ⟨p, stack, pd, rfl, hring.unique hl.active⟩)
  | destroy p =>
      obtain ⟨_, h⟩ := hs.destroy (y := y) hlegal.1
      exact Or.inl (hring.unique h.lists.active)
  | switch => exact absurd rfl hne

/-- A call costs a turn, if it creates a process. -/
theorem RunState.Waits.call {c : SchedCall} {n : Nat} {xs' ys' : List U32} (hw : s.Waits xs p n)
    (hf : s.Follows xs) (hs : s.toSchedState.Holds xs ys) (hlegal : (Event.call c).Legal s)
    (ho : (Event.call c).Removable s) (hp : c ≠ .unload p)
    (hs' : ((Event.call c).run y s).toSchedState.Holds xs' ys') :
    ((Event.call c).run y s).Waits xs' p (n + 2 * (Event.call c).creates) := by
  obtain ⟨bs, hb, hmem, hle⟩ := hw
  obtain ⟨hne, hlegal⟩ := hlegal
  have hticks : (((Event.call c).run y s).sched.procs s.running).ticks
      = (s.sched.procs s.running).ticks :=
    (SchedCall.ticks hs hlegal hne s.running).1 ((hs.live _).mpr (Or.inl hf.running))
  rw [RunState.Waits, show ((Event.call c).run y s).running = s.running from rfl, hticks]
  rcases hs.active_step hlegal ho.1 hne hs' with rfl | ⟨q, stack, pd, rfl, rfl⟩ |
    ⟨q, pre, post, rfl, hk, rfl, rfl⟩
  · exact ⟨bs, hb, hmem, Nat.le_trans hle (by omega)⟩
  · obtain ⟨bs', hb', hidx⟩ := hb.append q
    obtain ⟨hmem', hle'⟩ := hidx p hmem
    refine ⟨bs', hb', hmem', ?_⟩
    rw [Event.creates]
    omega
  · -- it is neither the one that runs nor the one that waits
    have hq : q ≠ s.running := fun he => hk (he ▸ ho.2 (he ▸ rfl))
    obtain ⟨bs', hb', hidx⟩ := hb.remove hq
    obtain ⟨hmem', hle'⟩ := hidx p hmem fun he => hp (he ▸ rfl)
    exact ⟨bs', hb', hmem', by omega⟩

/-- **A tick brings the turn nearer**, or it is here. -/
theorem RunState.Waits.tick {n : Nat} (hw : s.Waits xs p n) (hu : s.Unbegun) (hf : s.Follows xs)
    (hs : s.toSchedState.Holds xs ys) (k : Tick) (hf' : (s.tick k).Follows xs) :
    (s.tick k).running = p ∨ ∃ n', n = n' + 1 ∧ (s.tick k).Waits xs p n' := by
  obtain ⟨bs, hb, hmem, hle⟩ := hw
  obtain ⟨hturn, hticks⟩ := hu.tick hf hs k
  rw [hf'.current] at hturn
  rcases hturn with ⟨h0, hrun⟩ | ⟨h1, hrun⟩
  · have hone : ((s.tick k).sched.procs s.running).ticks = 1 := by
      rw [hticks, if_pos rfl, if_pos h0]
    rw [h0] at hle
    have hle : 2 * (bs.idxOf p + 1) ≤ n := hle
    refine Or.inr ⟨n - 1, by omega, bs, by rw [hrun]; exact hb, hmem, ?_⟩
    rw [hrun, hone]
    show 2 * (bs.idxOf p + 1) ≤ n - 1 + 1
    omega
  · cases bs with
    | nil => exact absurd hmem List.not_mem_nil
    | cons q bs =>
        rw [hs.lists.nextInTurn_behind hb] at hrun
        by_cases hq : q = p
        · exact Or.inl (hrun.trans hq)
        have hle : 2 * ((q :: bs).idxOf p + 1) ≤ n + 1 := by
          rw [h1] at hle
          exact hle
        rw [List.idxOf_cons_ne _ hq] at hle
        have hmem' := (List.mem_cons.mp hmem).resolve_left (Ne.symm hq)
        refine Or.inr ⟨n - 1, by omega, bs ++ [s.running], by rw [hrun]; exact hb.next,
          List.mem_append_left _ hmem', ?_⟩
        rw [List.idxOf_append, if_pos hmem']
        omega

/-! ## Runs -/

/-- The invariant of a run. -/
structure RunState.Timed (s : RunState) (xs ys : List U32) : Prop where
  holds : s.toSchedState.Holds xs ys
  follows : s.Follows xs
  unbegun : s.Unbegun

theorem RunState.Timed.call {c : SchedCall} (h : s.Timed xs ys) (hlegal : (Event.call c).Legal s)
    (ho : (Event.call c).Removable s) : ∃ xs' ys', ((Event.call c).run y s).Timed xs' ys' := by
  obtain ⟨xs', ys', hs', hf', _⟩ := h.follows.call (y := y) h.holds hlegal ho
  have hticks := fun q => SchedCall.ticks (y := y) h.holds hlegal.2 hlegal.1 q
  have hrun := (hticks s.running).1 ((h.holds.live _).mpr (Or.inl h.follows.running))
  refine ⟨xs', ys', hs', hf', ?_, fun q hq hne => ?_⟩
  · show ((c.run y s.toSchedState).sched.procs s.running).ticks = 0 ∨
      ((c.run y s.toSchedState).sched.procs s.running).ticks = 1
    rw [hrun]
    exact h.unbegun.running
  · by_cases hlive : q ∈ s.live
    · exact ((hticks q).1 hlive).trans (h.unbegun.others q hlive hne)
    · exact (hticks q).2 hlive hq

theorem RunState.Timed.tick (h : s.Timed xs ys) (k : Tick) : (s.tick k).Timed xs ys := by
  obtain ⟨hs', hf'⟩ := h.follows.tick h.holds k
  obtain ⟨hturn, hticks⟩ := h.unbegun.tick h.follows h.holds k
  rw [hf'.current] at hturn
  have hlive : (s.tick k).live = s.live := by
    rw [RunState.tick]
    split <;> rfl
  have hzero : ∀ q ∈ s.live, q ≠ s.running → ((s.tick k).sched.procs q).ticks = 0 := fun q hq hne => by
    rw [hticks, if_neg hne]
    exact h.unbegun.others q hq hne
  have hold : ((s.tick k).sched.procs s.running).ticks
      = if (s.sched.procs s.running).ticks = 0 then 1 else 0 := by
    rw [hticks, if_pos rfl]
  refine ⟨hs', hf', ?_, fun q hq hne => ?_⟩
  · by_cases hsame : (s.tick k).running = s.running
    · rw [hsame, hold]
      split
      · exact Or.inr rfl
      · exact Or.inl rfl
    · have hmem := (hs'.live _).mpr (Or.inl hf'.running)
      rw [hlive] at hmem
      exact Or.inl (hzero _ hmem hsame)
  · rw [hlive] at hq
    by_cases hsame : q = s.running
    · -- the one that was running has had its time
      rcases hturn with ⟨_, hrun⟩ | ⟨h1, _⟩
      · exact absurd (hsame.trans hrun.symm) hne
      · rw [hsame, hold, h1]
        rfl
    · exact hzero q hq hsame

theorem RunState.Timed.step {e : Event} (h : s.Timed xs ys) (ho : e.Removable s)
    (hstep : RunStep y e s s') : ∃ xs' ys', s'.Timed xs' ys' := by
  obtain ⟨hlegal, rfl⟩ := hstep
  cases e with
  | call c => exact h.call hlegal ho
  | tick k => exact ⟨xs, ys, h.tick k⟩

/-- `scheduler_init` leaves them with no ticks. -/
theorem schedulerInit_ticks (y : Symbols) (t : Sched) {kinit idle sched : U32} (h1 : kinit ≠ 0)
    (h2 : idle ≠ 0) (h3 : sched ≠ 0) (idleStack schedStack : U32) (hq : q ∈ initProcs kinit idle sched) :
    ((schedulerInit y t kinit idle sched idleStack schedStack).procs q).ticks = 0 := by
  simp only [initProcs, if_neg h1, if_neg h2, if_neg h3, List.mem_cons, List.not_mem_nil, or_false]
    at hq
  simp only [schedulerInit, if_neg h1, if_neg h2, if_neg h3]
  rw [createProc_ticks y _ h3, procRegister_ticks _ h3, createProc_ticks y _ h2,
    procRegister_ticks _ h2, createProc_ticks y _ h1, procRegister_ticks _ h1]
  rcases hq with rfl | rfl | rfl
  · rw [if_pos rfl]
    split
    · rfl
    · split <;> rfl
  · rw [if_pos rfl]
    split <;> rfl
  · exact if_pos rfl

theorem RunStart.timed (h : RunStart y s) : ∃ xs ys, s.Timed xs ys := by
  obtain ⟨xs, ys, hs, hf⟩ := h.tracked
  obtain ⟨s0, kinit, idle, sched, idleStack, schedStack, h1, h2, h3, hn, rfl⟩ := h
  have hticks := fun q => schedulerInit_ticks (q := q) y s0 h1 h2 h3 idleStack schedStack
  have hkinit : kinit ∈ initProcs kinit idle sched := by
    rw [initProcs, if_neg h1, if_neg h2, if_neg h3]
    exact List.mem_cons_self
  exact ⟨xs, ys, hs, hf.toFollows, Or.inl (hticks kinit hkinit), fun q hq _ => hticks q hq⟩

/-- While it waits, the ticks that are left get fewer. -/
theorem Waiting.waits {k c : Nat} {u : RunState} (h : s.Timed xs ys) (hp : p ∈ xs)
    (hw : Waiting y p s k c u) :
    ∃ xs' ys' n, u.Timed xs' ys' ∧ u.Waits xs' p n ∧ n + k ≤ 2 * (xs.length - 1 + c) := by
  induction hw with
  | start hne =>
      obtain ⟨bs, hb⟩ := exists_behind h.follows.running
      have hmem := hb.mem hp (Ne.symm hne)
      have hlen := hb.perm.length_eq
      have hidx := List.idxOf_lt_length_of_mem hmem
      rw [List.length_cons] at hlen
      exact ⟨xs, ys, 2 * (xs.length - 1), h, ⟨bs, hb, hmem, by omega⟩, by omega⟩
  | @next k c e u u' _ hstep hunload hne ih =>
      obtain ⟨xs', ys', n, hu, hwaits, hle⟩ := ih
      obtain ⟨ho, hlegal, rfl⟩ := hstep
      cases e with
      | call call =>
          obtain ⟨xs1, ys1, hu'⟩ := hu.call (y := y) hlegal ho
          have hwaits' := hwaits.call hu.follows hu.holds hlegal ho (fun he => hunload (he ▸ rfl)) hu'.holds
          exact ⟨xs1, ys1, _, hu', hwaits', by rw [Event.ticks]; omega⟩
      | tick tick =>
          have hu' := hu.tick tick
          rcases hwaits.tick hu.unbegun hu.follows hu.holds tick hu'.follows with hrun | ⟨n', rfl, hwaits'⟩
          · exact absurd hrun hne
          · refine ⟨xs', ys', n', hu', hwaits', ?_⟩
            show n' + (k + 1) ≤ 2 * (xs.length - 1 + c)
            omega

/-- **No process starves.**  In every run in which the running process is not unloaded, and
what is unloaded can be taken out, an active process waits for less than two ticks for
each other process that was active when it began to wait, and two for each call of
`create_proc` since. -/
theorem schedulerRun_waits (h : Reach (RunStart y) (Guarded Event.Removable (RunStep y)) s)
    (hring : Ring (s.sched.links .active) 0 xs) (hp : p ∈ xs) {k c : Nat} {u : RunState}
    (hw : Waiting y p s k c u) : k < 2 * (xs.length - 1 + c) := by
  have hinv : ∃ xs ys, s.Timed xs ys := by
    refine Reach.invariant (fun s => ∃ xs ys, s.Timed xs ys) (fun _ hs => hs.timed)
      (fun e s s' hs hstep => ?_) h
    obtain ⟨xs, ys, hs⟩ := hs
    exact hs.step hstep.1 hstep.2
  obtain ⟨xs', ys', htimed⟩ := hinv
  obtain rfl := hring.unique htimed.holds.lists.active
  obtain ⟨_, _, n, hu, ⟨bs, _, _, hle⟩, hbound⟩ := Waiting.waits htimed hp hw
  -- it is at least one tick away
  have hone : (u.sched.procs u.running).ticks.toNat ≤ 1 := by
    rcases hu.unbegun.running with h0 | h1
    · rw [h0]
      decide
    · rw [h1]
      decide
  omega

/-- `.scheduler` waits for `.kinit` and `.idle`, and has one tick to go after three. -/
theorem schedulerRun_waits_three :
    Waiting smallSymbols 0x300 smallRunning 3 0
        (((smallRunning.tick kernelTick).tick kernelTick).tick kernelTick) ∧
      3 < 2 * ([(0x100 : U32), 0x200, 0x300].length - 1 + 0) := by
  have hstep : ∀ s, Guarded Event.Removable (RunStep smallSymbols) (.tick kernelTick) s
      (s.tick kernelTick) := fun s => ⟨trivial, trivial, rfl⟩
  have h0 : Waiting smallSymbols 0x300 smallRunning 0 0 smallRunning := .start (by decide)
  have h1 := h0.next (hstep _) nofun (by decide +kernel)
  have h2 := h1.next (hstep _) nofun (by decide +kernel)
  have h3 := h2.next (hstep _) nofun (by decide +kernel)
  have hends : (smallRunning.sched.links .active).next 0x300 = 0 ∧
      (smallRunning.sched.links .active).prev 0x100 = 0 := by decide +kernel
  have hring : Ring (smallRunning.sched.links .active) 0 [0x100, 0x200, 0x300] :=
    ⟨by decide, ⟨by decide +kernel, by decide +kernel, by decide +kernel, hends.1⟩,
      ⟨by decide +kernel, by decide +kernel, by decide +kernel, hends.2⟩⟩
  exact ⟨h3, schedulerRun_waits (.start smallRunning_start) hring (by decide) h3⟩

end Tomk
