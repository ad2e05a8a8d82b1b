/-
# `scheduler_proc`

The scheduler process goes through the inactive list from its end, without
end.  A process with `PROC_FLAG_CREATE` is created, one with a service flag is
destroyed, and then it goes on with the process *after* that one; a process with
neither is passed over.  So it turns round at each process that it takes, and
comes back over processes that it has passed over before; where a stack is
missing it starts again at the end.

It still comes to all of them (`schedulerProc_serves`): each process that it
takes leaves less to do, and between two of them it only goes one way
(`Serving.turn`).  What is left then is the processes that are neither created
nor destroyed, among them those that got no stack.

A process with a heap has an address window with a bitmap.  A missing stack is
a return value of `create_proc`; a missing bitmap is a failed assertion, in
`vmm_init` when the process is created and in `vmm_destroy` when it is destroyed, and
ends the loop.  So does a type that neither knows a function for.  `Windowed` says
when nothing of this happens.
-/
import Tomk.Sched.Create

namespace Tomk

open DList Function

/-! ## The source -/

/-- What the allocations return for a process: its stack, its page directory, and the
bitmap of its window. -/
structure Grant where
  stack : U32
  pd : U32
  bitmap : U32

/-- The variable of the loops, the lists, and the bitmaps that the processes have. -/
structure Service where
  proc : U32
  sched : Sched
  windows : U32 → U32

/-- A turn of the loops of `scheduler_proc`: of the outer one where `proc` is
`NULL`.  There is none behind an assertion that fails, or a call of `NULL`. -/
def schedulerProcTurn (y : Symbols) (give : U32 → Grant) (r : Service) : Option Service :=
  let p := r.proc
  let x := r.sched.procs p
  if p = 0 then some { r with proc := r.sched.inactive.tail }
  else if x.Has procFlagCreate then
    let (next, s) := createProc y r.sched p (give p).stack (give p).pd
    -- `alloc` is `NULL` for a type that `create_proc` does not know
    if x.Has procFlagStack ∧ ¬ x.Typed then none
    else if x.Has procFlagStack ∧ (give p).stack = 0 then some { r with proc := next, sched := s }
    else if x.Has procFlagHeap ∧ (give p).bitmap = 0 then none
    else some ⟨next, s, update r.windows p
      (if x.Has procFlagHeap then (give p).bitmap else r.windows p)⟩
  else if x.Has procFlagServiceMask then
    let (next, s) := destroyProc r.sched p
    if x.Has procFlagHeap ∧ r.windows p = 0 then none
    else if x.Has procFlagStack ∧ x.stack ≠ 0 ∧ ¬ x.Typed then none
    else some ⟨next, s, update r.windows p 0⟩
  else some { r with proc := x.prev }

/-- `n` turns. -/
def schedulerProcTurns (y : Symbols) (give : U32 → Grant) : Nat → Service → Option Service
  | 0, r => some r
  | n + 1, r => (schedulerProcTurn y give r).bind (schedulerProcTurns y give n)

/-! ## What becomes of a process -/

/-- It is created, with the stack that it needs. -/
def Sched.Creates (s : Sched) (give : U32 → Grant) (p : U32) : Prop :=
  (s.procs p).Has procFlagCreate ∧ ¬ ((s.procs p).Has procFlagStack ∧ (give p).stack = 0)

/-- It is neither created nor destroyed. -/
def Sched.Leaves (s : Sched) (give : U32 → Grant) (p : U32) : Prop :=
  ¬ s.Creates give p ∧ ¬ (s.procs p).Has procFlagServiceMask

instance (s : Sched) (give : U32 → Grant) : DecidablePred (s.Creates give) :=
  fun _ => inferInstanceAs (Decidable (_ ∧ _))

instance (s : Sched) (give : U32 → Grant) : DecidablePred (s.Leaves give) :=
  fun _ => inferInstanceAs (Decidable (_ ∧ _))

/-- A process with a heap gets its window when it is created, and has it when it is destroyed;
one with a stack is of the kernel or of a user. -/
structure Windowed (give : U32 → Grant) (s : Sched) (windows : U32 → U32) (ys : List U32) : Prop where
  window : ∀ p ∈ ys, (s.procs p).Has procFlagHeap →
    if s.Creates give p then (give p).bitmap ≠ 0
    else (s.procs p).Has procFlagServiceMask → windows p ≠ 0
  typed : ∀ p ∈ ys, (s.procs p).Has procFlagStack → (s.procs p).Typed

/-- The scheduler process passes over it. -/
def Sched.Idle (s : Sched) (p : U32) : Prop :=
  ¬ (s.procs p).Has procFlagCreate ∧ ¬ (s.procs p).Has procFlagServiceMask

/-- It can run. -/
def Sched.Ready (s : Sched) (p : U32) : Prop :=
  ¬ (s.procs p).Has procFlagCreate ∧ ((s.procs p).Has procFlagStack → (s.procs p).stack ≠ 0)

/-- How often the scheduler process has to take it. -/
def Sched.chores (s : Sched) (p : U32) : Nat :=
  (if (s.procs p).Has procFlagCreate then 1 else 0) +
    (if (s.procs p).Has procFlagServiceMask then 1 else 0)

def Sched.work (s : Sched) (ys : List U32) : Nat := (ys.map s.chores).sum

theorem schedulerProcTurns_add (y : Symbols) (give : U32 → Grant) (m : Nat) :
    ∀ (n : Nat) (r : Service), schedulerProcTurns y give (n + m) r =
      (schedulerProcTurns y give n r).bind (schedulerProcTurns y give m)
  | 0, r => by rw [Nat.zero_add, schedulerProcTurns, Option.bind_some]
  | n + 1, r => by
      rw [Nat.add_right_comm, schedulerProcTurns, schedulerProcTurns, Option.bind_assoc]
      exact congrArg _ (funext fun r' => schedulerProcTurns_add y give m n r')

variable {y : Symbols} {give : U32 → Grant} {s s' : Sched} {p q stack pd : U32}
  {xs ys pre post : List U32}

/-! ## Processes that are not touched -/

theorem flags_of_core (h : (s'.procs q).core = (s.procs q).core) :
    (s'.procs q).flags = (s.procs q).flags := (Process.core_eq h).2.1

theorem typed_congr {x x' : Process} (h : x'.flags &&& procFlagTypeMask = x.flags &&& procFlagTypeMask) :
    x'.Typed ↔ x.Typed := by
  rw [Process.Typed, Process.Typed, h]

theorem creates_congr (h : (s'.procs q).flags = (s.procs q).flags) :
    s'.Creates give q ↔ s.Creates give q := by
  rw [Sched.Creates, Sched.Creates, has_congr h, has_congr h]

theorem leaves_congr (h : (s'.procs q).flags = (s.procs q).flags) :
    s'.Leaves give q ↔ s.Leaves give q := by
  rw [Sched.Leaves, Sched.Leaves, creates_congr h, has_congr h]

theorem idle_congr (h : (s'.procs q).flags = (s.procs q).flags) : s'.Idle q ↔ s.Idle q := by
  rw [Sched.Idle, Sched.Idle, has_congr h, has_congr h]

theorem chores_congr (h : (s'.procs q).flags = (s.procs q).flags) : s'.chores q = s.chores q := by
  rw [Sched.chores, Sched.chores, if_congr (has_congr h) rfl rfl, if_congr (has_congr h) rfl rfl]

theorem ready_congr (h : (s'.procs q).core = (s.procs q).core) : s'.Ready q ↔ s.Ready q := by
  obtain ⟨_, hflags, hstack⟩ := Process.core_eq h
  rw [Sched.Ready, Sched.Ready, has_congr hflags, has_congr hflags, hstack]

/-- The flags of these processes are as they were. -/
def FlagsKept (s s' : Sched) (ys : List U32) : Prop :=
  ∀ q ∈ ys, (s'.procs q).flags = (s.procs q).flags

theorem FlagsKept.creates (h : FlagsKept s s' ys) :
    ys.filter (s'.Creates give) = ys.filter (s.Creates give) :=
  List.filter_congr fun q hq => decide_eq_decide.mpr (creates_congr (h q hq))

theorem FlagsKept.leaves (h : FlagsKept s s' ys) :
    ys.filter (s'.Leaves give) = ys.filter (s.Leaves give) :=
  List.filter_congr fun q hq => decide_eq_decide.mpr (leaves_congr (h q hq))

theorem FlagsKept.work (h : FlagsKept s s' ys) : s'.work ys = s.work ys := by
  rw [Sched.work, Sched.work, List.map_congr_left fun q hq => chores_congr (h q hq)]

theorem work_cons (s : Sched) (pre post : List U32) (p : U32) :
    s.work (pre ++ p :: post) = s.work (pre ++ post) + s.chores p := by
  simp only [Sched.work, List.map_append, List.map_cons, List.sum_append, List.sum_cons]
  omega

theorem Sched.Idle.chores (h : s.Idle p) : s.chores p = 0 := by
  rw [Sched.chores, if_neg h.1, if_neg h.2]

theorem idle_of_chores (h : s.chores p = 0) : s.Idle p := by
  rw [Sched.chores] at h
  refine ⟨fun hc => ?_, fun hs => ?_⟩
  · rw [if_pos hc] at h
    omega
  · rw [if_pos hs] at h
    omega

theorem work_eq_zero : s.work ys = 0 ↔ ∀ q ∈ ys, s.Idle q := by
  rw [Sched.work, List.sum_eq_zero_iff_forall_eq_nat, List.forall_mem_map]
  exact ⟨fun h q hq => idle_of_chores (h q hq), fun h q hq => (h q hq).chores⟩

theorem filter_creates_idle (h : ∀ q ∈ ys, s.Idle q) : ys.filter (s.Creates give) = [] :=
  List.filter_eq_nil_iff.mpr fun q hq hc => (h q hq).1 (of_decide_eq_true hc).1

/-! ## Taking a process -/

/-- What `create_proc` leaves of a process that it moves. -/
structure Made (s s' : Sched) (p : U32) : Prop where
  others : ∀ q, q ≠ p → (s'.procs q).core = (s.procs q).core
  ready : s'.Ready p

theorem next_eq_headD (hl : s.Lists xs (pre ++ p :: post)) : (s.procs p).next = post.headD 0 := by
  rw [links_next s .inactive (hl.inactive.ne (List.mem_append_right pre List.mem_cons_self)),
    hl.inactive.next_eq]

theorem prev_eq_getLastD (hl : s.Lists xs (pre ++ p :: post)) :
    (s.procs p).prev = pre.getLastD 0 := by
  rw [links_prev s .inactive (hl.inactive.ne (List.mem_append_right pre List.mem_cons_self)),
    hl.inactive.prev_eq]

/-- **With its stack** the process becomes active, and the next one is returned. -/
theorem createProc_made (y : Symbols) (pd : U32) (hl : s.Lists xs (pre ++ p :: post))
    (hs : ¬ ((s.procs p).Has procFlagStack ∧ stack = 0)) :
    (createProc y s p stack pd).1 = post.headD 0 ∧
      (createProc y s p stack pd).2.Lists (xs ++ [p]) (pre ++ post) ∧
      Made s (createProc y s p stack pd).2 p := by
  have hp := hl.inactive.ne (List.mem_append_right pre List.mem_cons_self)
  obtain ⟨_, x, mem, hpr, hrun⟩ := (createProc_cases y s p stack pd).resolve_left fun h => hs h.1
  have hmoved := hl.move hpr mem
  have hcore : ∀ q, ((procmanAppend (procmanRemove (preparedProc s p x mem) .inactive p) .active p).procs
      q).core = ((s.setProc p x).procs q).core := fun q => by
    rw [procmanAppend_core _ _ hp, procmanRemove_core _ _ hp]
    rfl
  rw [hrun]
  generalize procmanAppend (procmanRemove (preparedProc s p x mem) .inactive p) .active p = u
    at hmoved hcore ⊢
  refine ⟨next_eq_headD hl, hmoved, fun q hq => ?_, ?_⟩
  · rw [hcore q, Sched.setProc_procs, if_neg hq]
  · have hx : (u.procs p).core = x.core := by rw [hcore p, Sched.setProc_procs, if_pos rfl]
    obtain ⟨_, hflags, hstack⟩ := Process.core_eq hx
    refine ⟨not_has_create (hflags.trans hpr.flags), fun hhas => ?_⟩
    have hold : (s.procs p).Has procFlagStack := by
      rw [Process.Has, hflags, hpr.flags, clear_create _ (by decide)] at hhas
      exact hhas
    rw [hstack, hpr.stack hold]
    exact fun h0 => hs ⟨hold, h0⟩

/-- What it leaves of one that got no stack. -/
structure Unmade (s s' : Sched) (p : U32) : Prop where
  others : ∀ q, q ≠ p → s'.procs q = s.procs q
  flags : (s'.procs p).flags = (s.procs p).flags &&& ~~~procFlagCreate

/-- **Without its stack** it stays, and has no `PROC_FLAG_CREATE` any more. -/
theorem createProc_kept (y : Symbols) (pd : U32) (hl : s.Lists xs ys)
    (hs : (s.procs p).Has procFlagStack ∧ stack = 0) :
    (createProc y s p stack pd).1 = 0 ∧ (createProc y s p stack pd).2.Lists xs ys ∧
      Unmade s (createProc y s p stack pd).2 p := by
  obtain ⟨_, x, hnext, hprev, hflags, hrun⟩ : _ ∧ ∃ x : Process, _ :=
    (createProc_cases y s p stack pd).resolve_right fun h => h.1 hs
  rw [hrun]
  refine ⟨rfl, hl.same (sameLists_setProc hnext hprev) rfl, fun q hq => ?_, ?_⟩
  · rw [Sched.setProc_procs, if_neg hq]
  · rw [Sched.setProc_procs, if_pos rfl, hflags]

/-- Its other flags are as they were. -/
theorem Unmade.has (h : Unmade s s' p) {f : U32} (hf : ~~~procFlagCreate &&& f = f) :
    (s'.procs p).Has f ↔ (s.procs p).Has f := by
  rw [Process.Has, Process.Has, h.flags, clear_create _ hf]

theorem Unmade.typed (h : Unmade s s' p) : (s'.procs p).Typed ↔ (s.procs p).Typed :=
  typed_congr (by rw [h.flags, clear_create _ (by decide)])

/-- There is less to do. -/
theorem Unmade.work (h : Unmade s s' p) (hc : (s.procs p).Has procFlagCreate) (hp : p ∈ ys)
    (hn : ys.Nodup) : s'.work ys < s.work ys := by
  obtain ⟨pre, post, rfl⟩ := List.append_of_mem hp
  rw [List.nodup_middle, List.nodup_cons] at hn
  have hsame : FlagsKept s s' (pre ++ post) := fun q hq => by
    rw [h.others q (ne_of_mem_of_not_mem hq hn.1)]
  rw [work_cons, work_cons, hsame.work, Sched.chores, Sched.chores, if_neg (not_has_create h.flags),
    if_pos hc, if_congr (h.has (by decide)) rfl rfl]
  omega

section

variable (h : Unmade s s' p) (hs : (s.procs p).Has procFlagStack ∧ (give p).stack = 0)

include h hs

theorem Unmade.creates (q : U32) : s'.Creates give q ↔ s.Creates give q := by
  by_cases hq : q = p
  · subst hq
    exact iff_of_false (fun hc => not_has_create h.flags hc.1) fun hc => hc.2 hs
  · exact creates_congr (by rw [h.others q hq])

theorem Unmade.leaves (q : U32) : s'.Leaves give q ↔ s.Leaves give q := by
  rw [Sched.Leaves, Sched.Leaves, h.creates hs q]
  by_cases hq : q = p
  · subst hq
    rw [h.has (by decide)]
  · rw [h.others q hq]

theorem Unmade.windowed {w : U32 → U32} (hw : Windowed give s w ys) : Windowed give s' w ys := by
  refine ⟨fun q hq => ?_, fun q hq => ?_⟩
  · have hwin := hw.window q hq
    by_cases hqp : q = p
    · subst hqp
      simp only [h.has (f := procFlagHeap) (by decide), h.has (f := procFlagServiceMask) (by decide),
        if_congr (h.creates hs q) rfl rfl]
      exact hwin
    · simp only [h.others q hqp, if_congr (h.creates hs q) rfl rfl]
      exact hwin
  · have htyped := hw.typed q hq
    by_cases hqp : q = p
    · subst hqp
      rwa [h.has (by decide), h.typed]
    · rwa [h.others q hqp]

end

/-! ## The loops -/

/-- Where `proc` is in the inactive list: before a pass, or at a process after
which all are passed over; and how far it is from the start of the list. -/
inductive Place (s : Sched) (ys : List U32) : U32 → Nat → Prop
  | outside : Place s ys 0 (ys.length + 1)
  | inside {front back : List U32} {proc : U32} : ys = front ++ proc :: back →
      (∀ q ∈ back, s.Idle q) → Place s ys proc front.length

/-- The loops, with `n` left to do: all that is created of `ys` comes behind `xs`, in the
order of the passes, and what is left of it stays.  `old` were active before. -/
structure Serving (give : U32 → Grant) (old as bs : List U32) (n k : Nat) (r : Service)
    (xs ys : List U32) : Prop where
  lists : r.sched.Lists xs ys
  place : Place r.sched ys r.proc k
  work : r.sched.work ys = n
  made : xs ++ ys.reverse.filter (r.sched.Creates give) = as
  left : ys.filter (r.sched.Leaves give) = bs
  ready : ∀ q ∈ xs, q ∉ old → r.sched.Ready q
  windows : Windowed give r.sched r.windows ys

/-- A process with all behind it passed over, or none. -/
theorem place_next (pre : List U32) (hidle : ∀ q ∈ post, s.Idle q) (hp : p = post.headD 0) :
    ∃ k, Place s (pre ++ post) p k := by
  subst hp
  cases post with
  | nil => exact ⟨_, .outside⟩
  | cons q post => exact ⟨_, .inside rfl fun x hx => hidle x (List.mem_cons_of_mem q hx)⟩

/-- A process of the list with all before it still to come, or none. -/
theorem place_prev (pre post : List U32) (hidle : ∀ q ∈ post, s.Idle q) (hp : p = pre.getLastD 0) :
    ∃ k, Place s (pre ++ post) p k ∧ (pre ≠ [] → k < pre.length) := by
  subst hp
  cases pre using List.reverseRecOn with
  | nil => exact ⟨_, .outside, fun h => absurd rfl h⟩
  | append_singleton pre q =>
      rw [List.getLastD_concat, List.append_assoc, List.singleton_append]
      refine ⟨_, .inside rfl hidle, fun _ => ?_⟩
      rw [List.length_append, List.length_singleton]
      omega

variable {old as bs : List U32} {n k : Nat} {r : Service}

/-- Windows of processes whose flags stay. -/
theorem Windowed.kept {w w' : U32 → U32} (h : Windowed give s w ys) (hflags : FlagsKept s s' ys)
    (hw : ∀ q ∈ ys, w' q = w q) : Windowed give s' w' ys := by
  refine ⟨fun q hq hheap => ?_, fun q hq hstack => ?_⟩
  · rw [has_congr (hflags q hq)] at hheap
    have hq' := h.window q hq hheap
    simp only [if_congr (creates_congr (hflags q hq)) rfl rfl, has_congr (hflags q hq), hw q hq]
    exact hq'
  · rw [has_congr (hflags q hq)] at hstack
    exact (typed_congr (by rw [hflags q hq])).mpr (h.typed q hq hstack)

theorem Windowed.sub {w : U32 → U32} {zs : List U32} (h : Windowed give s w ys) (hs : zs ⊆ ys) :
    Windowed give s w zs :=
  ⟨fun q hq => h.window q (hs hq), fun q hq => h.typed q (hs hq)⟩

/-- A process has been taken out of the list. -/
theorem Serving.taken {l : List U32} (h : Serving give old as bs n k r xs (pre ++ p :: post))
    (r' : Service) (hidle : ∀ q ∈ post, r.sched.Idle q) {xs' : List U32}
    (hl : r'.sched.Lists xs' (pre ++ post)) (hr : r'.proc = post.headD 0)
    (hcore : ∀ q, q ≠ p → (r'.sched.procs q).core = (r.sched.procs q).core)
    (hwindows : ∀ q, q ≠ p → r'.windows q = r.windows q)
    (hls : [p].filter (r.sched.Creates give) = l) (hxs : xs' = xs ++ l)
    (hready : ∀ q ∈ l, r'.sched.Ready q) (hleft : ¬ r.sched.Leaves give p)
    (hwork : r.sched.chores p ≠ 0) :
    ∃ n' k', n' < n ∧ Serving give old as bs n' k' r' xs' (pre ++ post) := by
  have hn := (List.nodup_cons.mp h.lists.inactive.nodup).2
  rw [List.nodup_middle, List.nodup_cons] at hn
  have hne : ∀ q ∈ pre ++ post, q ≠ p := fun q hq => ne_of_mem_of_not_mem hq hn.1
  have hsame : FlagsKept r.sched r'.sched (pre ++ post) := fun q hq => flags_of_core (hcore q (hne q hq))
  have hback : ∀ q ∈ post, r'.sched.Idle q := fun q hq =>
    (idle_congr (hsame q (List.mem_append_right pre hq))).mpr (hidle q hq)
  obtain ⟨k', hk'⟩ := place_next pre hback hr
  have hrev : FlagsKept r.sched r'.sched (pre ++ post).reverse := fun q hq =>
    hsame q (List.mem_reverse.mp hq)
  refine ⟨r'.sched.work (pre ++ post), k', ?_, hl, hk', rfl, ?_, ?_, fun q hq hold => ?_, ?_⟩
  · have hw := h.work
    rw [work_cons] at hw
    rw [hsame.work]
    omega
  · -- behind the process nothing is created
    have hpost : post.reverse.filter (r.sched.Creates give) = [] :=
      filter_creates_idle fun q hq => hidle q (List.mem_reverse.mp hq)
    have hmade := h.made
    rw [List.reverse_append, List.reverse_cons, List.filter_append, List.filter_append, hpost, hls,
      List.nil_append] at hmade
    rw [hrev.creates, List.reverse_append, List.filter_append, hpost, List.nil_append, hxs,
      List.append_assoc, hmade]
  · have hl := h.left
    rw [List.filter_append, List.filter_cons, if_neg (by simpa using hleft), ← List.filter_append] at hl
    rw [hsame.leaves, hl]
  · subst hxs
    rcases List.mem_append.mp hq with hq | hq
    · have hne : q ≠ p := fun hc =>
        h.lists.disjoint q hq (hc ▸ List.mem_append_right pre List.mem_cons_self)
      exact (ready_congr (hcore q hne)).mpr (h.ready q hq hold)
    · exact hready q hq
  · exact (h.windows.sub (List.append_subset.mpr ⟨List.subset_append_left _ _,
      fun q hq => List.mem_append_right pre (List.mem_cons_of_mem p hq)⟩)).kept hsame
        fun q hq => hwindows q (hne q hq)

/-- A process has got no stack. -/
theorem Serving.kept (y : Symbols) (h : Serving give old as bs n k r xs ys) (hp : p ∈ ys)
    (hc : (r.sched.procs p).Has procFlagCreate)
    (hs : (r.sched.procs p).Has procFlagStack ∧ (give p).stack = 0) :
    ∃ n' k', n' < n ∧ Serving give old as bs n' k'
      { r with proc := (createProc y r.sched p (give p).stack (give p).pd).1,
               sched := (createProc y r.sched p (give p).stack (give p).pd).2 } xs ys := by
  obtain ⟨hnull, hl, hun⟩ := createProc_kept y (give p).pd h.lists hs
  generalize (createProc y r.sched p (give p).stack (give p).pd).1 = next at *
  generalize (createProc y r.sched p (give p).stack (give p).pd).2 = t at *
  refine ⟨t.work ys, ys.length + 1, ?_, hl, ?_, rfl, ?_, ?_, fun q hq hold => ?_, hun.windowed hs h.windows⟩
  · rw [← h.work]
    exact hun.work hc hp (List.nodup_cons.mp hl.inactive.nodup).2
  · rw [hnull]
    exact .outside
  · rw [List.filter_congr fun q _ => decide_eq_decide.mpr (hun.creates hs q), h.made]
  · rw [List.filter_congr fun q _ => decide_eq_decide.mpr (hun.leaves hs q), h.left]
  · have hne : q ≠ p := fun hc => hl.disjoint q hq (hc ▸ hp)
    exact (ready_congr (by rw [hun.others q hne])).mpr (h.ready q hq hold)

section

variable {s : Sched} {w : U32 → U32} (h : Serving give old as bs n k ⟨p, s, w⟩ xs (pre ++ p :: post))

include h

/-- The turn at a process that is created: it is taken, or has got no stack. -/
theorem Serving.turn_create (y : Symbols) (hidle : ∀ q ∈ post, s.Idle q)
    (hc : (s.procs p).Has procFlagCreate) :
    ∃ r' n' k' xs' ys', schedulerProcTurn y give ⟨p, s, w⟩ = some r' ∧
      Serving give old as bs n' k' r' xs' ys' ∧ n' < n := by
  have hmem : p ∈ pre ++ p :: post := List.mem_append_right pre List.mem_cons_self
  have hp := h.lists.inactive.ne hmem
  have hknown : ¬ ((s.procs p).Has procFlagStack ∧ ¬ (s.procs p).Typed) :=
    fun hno => hno.2 (h.windows.typed p hmem hno.1)
  by_cases hs : (s.procs p).Has procFlagStack ∧ (give p).stack = 0
  · obtain ⟨n', k', hlt, h'⟩ := h.kept y hmem hc hs
    refine ⟨_, n', k', xs, _, ?_, h', hlt⟩
    simp only [schedulerProcTurn, if_neg hp, if_pos hc, if_neg hknown, if_pos hs]
  · obtain ⟨hnext, hl, hmade⟩ := createProc_made y (give p).pd h.lists hs
    have hcr : s.Creates give p := ⟨hc, hs⟩
    have hb : ¬ ((s.procs p).Has procFlagHeap ∧ (give p).bitmap = 0) := by
      rintro ⟨hheap, hb⟩
      have hgiven := h.windows.window p hmem hheap
      rw [if_pos hcr] at hgiven
      exact hgiven hb
    obtain ⟨n', k', hlt, h'⟩ :=
      h.taken ⟨(createProc y s p (give p).stack (give p).pd).1,
          (createProc y s p (give p).stack (give p).pd).2, update w p
            (if (s.procs p).Has procFlagHeap then (give p).bitmap else w p)⟩
        hidle hl hnext hmade.others (fun q hq => update_of_ne hq _ _)
        (l := [p]) (List.filter_cons_of_pos (decide_eq_true hcr)) rfl
        (fun q hq => List.mem_singleton.mp hq ▸ hmade.ready) (fun hno => hno.1 hcr)
        (by rw [Sched.chores, if_pos hc]; omega)
    refine ⟨_, n', k', _, _, ?_, h', hlt⟩
    simp only [schedulerProcTurn, if_neg hp, if_pos hc, if_neg hknown, if_neg hs, if_neg hb]

/-- The turn at a process that is destroyed. -/
theorem Serving.turn_destroy (y : Symbols) (hidle : ∀ q ∈ post, s.Idle q)
    (hc : ¬ (s.procs p).Has procFlagCreate) (hd : (s.procs p).Has procFlagServiceMask) :
    ∃ r' n' k' xs' ys', schedulerProcTurn y give ⟨p, s, w⟩ = some r' ∧
      Serving give old as bs n' k' r' xs' ys' ∧ n' < n := by
  have hmem : p ∈ pre ++ p :: post := List.mem_append_right pre List.mem_cons_self
  have hp := h.lists.inactive.ne hmem
  have hcr : ¬ s.Creates give p := fun hno => hc hno.1
  have hcore : ∀ q, ((destroyProc s p).2.procs q).core = (s.procs q).core := fun q => by
    rw [destroyProc_snd hp, procmanRemove_core _ _ hp]
  have hnext : (destroyProc s p).1 = post.headD 0 := by
    rw [destroyProc, if_neg hp]
    exact next_eq_headD h.lists
  have hw : ¬ ((s.procs p).Has procFlagHeap ∧ w p = 0) := by
    rintro ⟨hheap, hw⟩
    have hgiven := h.windows.window p hmem hheap
    rw [if_neg hcr] at hgiven
    exact hgiven hd hw
  have hknown : ¬ ((s.procs p).Has procFlagStack ∧ (s.procs p).stack ≠ 0 ∧ ¬ (s.procs p).Typed) :=
    fun hno => hno.2.2 (h.windows.typed p hmem hno.1)
  obtain ⟨n', k', hlt, h'⟩ :=
    h.taken ⟨(destroyProc s p).1, (destroyProc s p).2, update w p 0⟩ hidle h.lists.destroy
      hnext (fun q _ => hcore q) (fun q hq => update_of_ne hq _ _)
      (l := []) (List.filter_cons_of_neg (by simpa using hcr))
      (List.append_nil xs).symm (fun _ hq => absurd hq List.not_mem_nil) (fun hno => hno.2 hd)
      (by rw [Sched.chores, if_pos hd]; omega)
  refine ⟨_, n', k', _, _, ?_, h', hlt⟩
  simp only [schedulerProcTurn, if_neg hp, if_neg hc, if_pos hd, if_neg hw, if_neg hknown]

end

/-- **A turn**: no assertion fails, and a process is taken, or the loops go on towards one. -/
theorem Serving.turn (y : Symbols) (h : Serving give old as bs n k r xs ys) (hn : n ≠ 0) :
    ∃ r' n' k' xs' ys', schedulerProcTurn y give r = some r' ∧
      Serving give old as bs n' k' r' xs' ys' ∧ (n' < n ∨ n' = n ∧ k' < k) := by
  obtain ⟨p, s, w⟩ := r
  obtain ⟨hl, hplace, hwork, hmade, hleft, hready, hwin⟩ := id h
  have hys : ys ≠ [] := fun hc => hn (by rw [← hwork, hc]; rfl)
  cases hplace with
  | outside =>
      -- the pass begins at the last process
      obtain ⟨k', hk', hlt⟩ := place_prev (s := s) ys [] (fun _ hq => nomatch hq)
        hl.inactive.tail
      rw [List.append_nil] at hk'
      exact ⟨_, n, k', xs, ys, rfl, ⟨hl, hk', hwork, hmade, hleft, hready, hwin⟩,
        Or.inr ⟨rfl, Nat.lt_succ_of_lt (hlt hys)⟩⟩
  | @inside front back _ heq hidle =>
      subst heq
      by_cases hc : (s.procs p).Has procFlagCreate
      · obtain ⟨r', n', k', xs', ys', hturn, h', hlt⟩ := h.turn_create y hidle hc
        exact ⟨r', n', k', xs', ys', hturn, h', Or.inl hlt⟩
      by_cases hd : (s.procs p).Has procFlagServiceMask
      · obtain ⟨r', n', k', xs', ys', hturn, h', hlt⟩ := h.turn_destroy y hidle hc hd
        exact ⟨r', n', k', xs', ys', hturn, h', Or.inl hlt⟩
      · have hp := hl.inactive.ne (List.mem_append_right front List.mem_cons_self)
        have hback : ∀ q ∈ p :: back, s.Idle q := by
          rintro q (_ | ⟨_, hq⟩)
          · exact ⟨hc, hd⟩
          · exact hidle q hq
        obtain ⟨k', hk', hlt⟩ := place_prev front _ hback (prev_eq_getLastD hl)
        -- there is something left before it
        have hfront : front ≠ [] := by
          rintro rfl
          exact hn (hwork.symm.trans (work_eq_zero.mpr hback))
        refine ⟨⟨(s.procs p).prev, s, w⟩, n, k', xs, _, ?_,
          ⟨hl, hk', hwork, hmade, hleft, hready, hwin⟩, Or.inr ⟨rfl, hlt hfront⟩⟩
        simp only [schedulerProcTurn, if_neg hp, if_neg hc, if_neg hd]

/-- **With nothing left to do** a turn changes nothing. -/
theorem Serving.rest (y : Symbols) (h : Serving give old as bs 0 k r xs ys) :
    ∃ r' k', schedulerProcTurn y give r = some r' ∧ Serving give old as bs 0 k' r' xs ys ∧
      r'.sched = r.sched := by
  obtain ⟨p, s, w⟩ := r
  obtain ⟨hl, hplace, hwork, hmade, hleft, hready, hwin⟩ := h
  have hidle := work_eq_zero.mp hwork
  cases hplace with
  | outside =>
      obtain ⟨k', hk', _⟩ := place_prev (s := s) ys [] (fun _ hq => nomatch hq)
        hl.inactive.tail
      rw [List.append_nil] at hk'
      exact ⟨_, k', rfl, ⟨hl, hk', hwork, hmade, hleft, hready, hwin⟩, rfl⟩
  | @inside front back _ heq hback =>
      subst heq
      have hp := hl.inactive.ne (List.mem_append_right front List.mem_cons_self)
      obtain ⟨hc, hd⟩ := hidle p (List.mem_append_right front List.mem_cons_self)
      obtain ⟨k', hk', _⟩ := place_prev (s := s) front (p :: back)
        (fun q hq => hidle q (List.mem_append_right front hq)) (prev_eq_getLastD hl)
      refine ⟨⟨(s.procs p).prev, s, w⟩, k', ?_, ⟨hl, hk', hwork, hmade, hleft, hready, hwin⟩, rfl⟩
      simp only [schedulerProcTurn, if_neg hp, if_neg hc, if_neg hd]

/-- After enough turns nothing is left to do. -/
theorem Serving.done (y : Symbols) (h : Serving give old as bs n k r xs ys) :
    ∃ N r' k' xs' ys', schedulerProcTurns y give N r = some r' ∧
      Serving give old as bs 0 k' r' xs' ys' := by
  induction n using Nat.strong_induction_on generalizing k r xs ys with
  | _ n ihn =>
      induction k using Nat.strong_induction_on generalizing r xs ys with
      | _ k ihk =>
          by_cases hn : n = 0
          · subst hn
            exact ⟨0, r, k, xs, ys, rfl, h⟩
          · obtain ⟨r1, n', k', xs', ys', hturn, h', hlt⟩ := h.turn y hn
            have hN : ∃ N r' k' xs' ys', schedulerProcTurns y give N r1 = some r' ∧
                Serving give old as bs 0 k' r' xs' ys' := by
              rcases hlt with hlt | ⟨rfl, hlt⟩
              · exact ihn n' hlt h'
              · exact ihk k' hlt h'
            obtain ⟨N, r', hrest⟩ := hN
            refine ⟨N + 1, r', ?_⟩
            rwa [schedulerProcTurns, hturn, Option.bind_some]

/-- And so it stays. -/
theorem Serving.rests (y : Symbols) (h : Serving give old as bs 0 k r xs ys) (m : Nat) :
    ∃ r', schedulerProcTurns y give m r = some r' ∧ r'.sched = r.sched := by
  induction m generalizing k r with
  | zero => exact ⟨r, rfl, rfl⟩
  | succ m ih =>
      obtain ⟨r1, k1, hturn, h1, heq1⟩ := h.rest y
      obtain ⟨r', hrun, heq⟩ := ih h1
      refine ⟨r', ?_, heq.trans heq1⟩
      rw [schedulerProcTurns, hturn, Option.bind_some, hrun]

/-- **The scheduler process serves all.**  From any two lists, whatever the
allocations of stacks return and with the windows that the assertions ask for,
after some number of turns each process that was to be created and got its stack is
active, behind those that were, the last one of the inactive list first; each
other one with a service flag is destroyed; and what is left in the inactive list
stays there, however long the loops go on. -/
theorem schedulerProc_serves (hl : s.Lists xs ys) (y : Symbols) (give : U32 → Grant)
    (windows : U32 → U32) (hw : Windowed give s windows ys) :
    ∃ N t, (∀ n, N ≤ n → ∃ r, schedulerProcTurns y give n ⟨0, s, windows⟩ = some r ∧ r.sched = t) ∧
      t.Lists (xs ++ ys.reverse.filter (s.Creates give)) (ys.filter (s.Leaves give)) ∧
      (∀ p ∈ ys.reverse.filter (s.Creates give), t.Ready p) ∧
      ∀ p ∈ ys.filter (s.Leaves give), t.Idle p := by
  have h0 : Serving give xs (xs ++ ys.reverse.filter (s.Creates give)) (ys.filter (s.Leaves give))
      (s.work ys) (ys.length + 1) ⟨0, s, windows⟩ xs ys :=
    ⟨hl, .outside, rfl, rfl, rfl, fun q hq hold => absurd hq hold, hw⟩
  obtain ⟨N, r, k, as, bs, hrun, h⟩ := h0.done y
  -- nothing of what is left is created or destroyed
  have hidle := work_eq_zero.mp h.work
  have has : as = xs ++ ys.reverse.filter (s.Creates give) := by
    rw [← h.made, filter_creates_idle fun q hq => hidle q (List.mem_reverse.mp hq), List.append_nil]
  have hbs : bs = ys.filter (s.Leaves give) := by
    rw [← h.left, List.filter_eq_self.mpr fun q hq => decide_eq_true
      ⟨fun hc => (hidle q hq).1 hc.1, (hidle q hq).2⟩]
  subst has hbs
  refine ⟨N, r.sched, fun n hn => ?_, h.lists, fun p hp => ?_, hidle⟩
  · obtain ⟨m, rfl⟩ := Nat.exists_eq_add_of_le hn
    obtain ⟨r', hrest, heq⟩ := h.rests y m
    exact ⟨r', by rw [schedulerProcTurns_add, hrun, Option.bind_some, hrest], heq⟩
  · refine h.ready p (List.mem_append_right xs hp) fun hx => ?_
    exact hl.disjoint p hx (List.mem_reverse.mp (List.mem_of_mem_filter hp))

/-! ## Three inactive processes -/

/-- A process to be created, one that has been killed, and another one to be created; the
first two with a heap. -/
def threeInactive : Sched :=
  ⟨⟨0, 0, 0, 0⟩, ⟨0x100, 0x300, 0, 0⟩, fun p =>
    if p = 0x100 then
      { newProcess with
        flags := procFlagKernel ||| procFlagStack ||| procFlagHeap ||| procFlagCreate, next := 0x200 }
    else if p = 0x200 then
      { newProcess with
        flags := procFlagKernel ||| procFlagHeap ||| procFlagKill, next := 0x300, prev := 0x100 }
    else { newProcess with flags := procFlagKernel ||| procFlagStack ||| procFlagCreate, prev := 0x200 },
    fun _ => 0⟩

theorem threeInactive_lists : threeInactive.Lists [] [0x100, 0x200, 0x300] :=
  ⟨Ring.nil rfl rfl, ⟨by decide, ⟨rfl, rfl, rfl, rfl⟩, ⟨rfl, rfl, rfl, rfl⟩⟩,
    fun _ hp => (nomatch hp), Or.inl rfl⟩

/-- There is a stack for the first one only, and a bitmap for its window. -/
def oneStack (p : U32) : Grant := ⟨if p = 0x100 then 0x240000 else 0, 0x300000, 0x260000⟩

theorem threeInactive_windowed :
    Windowed oneStack threeInactive (fun _ => 0x250000) [0x100, 0x200, 0x300] := by
  refine ⟨fun p _ _ => ?_, fun p hp _ => ?_⟩
  · split
    · exact (by decide : (0x260000 : U32) ≠ 0)
    · exact fun _ => (by decide : (0x250000 : U32) ≠ 0)
  · simp only [List.mem_cons, List.not_mem_nil, or_false] at hp
    rcases hp with rfl | rfl | rfl <;> exact Or.inl rfl

theorem schedulerProc_serves_three : ∃ N t,
    (∀ n, N ≤ n → ∃ r, schedulerProcTurns smallSymbols oneStack n
        ⟨0, threeInactive, fun _ => 0x250000⟩ = some r ∧ r.sched = t) ∧
      t.Lists [0x100] [0x300] ∧ t.Ready 0x100 ∧ t.Idle 0x300 := by
  obtain ⟨N, t, hturns, hl, hready, hidle⟩ :=
    schedulerProc_serves threeInactive_lists smallSymbols oneStack (fun _ => 0x250000)
      threeInactive_windowed
  have hmade : ([0x100, 0x200, 0x300] : List U32).reverse.filter (threeInactive.Creates oneStack) = [0x100] := by
    decide
  have hleft : ([0x100, 0x200, 0x300] : List U32).filter (threeInactive.Leaves oneStack) = [0x300] := by decide
  rw [hmade] at hl hready
  rw [hleft] at hl hidle
  exact ⟨N, t, hturns, hl, hready 0x100 List.mem_cons_self, hidle 0x300 List.mem_cons_self⟩

end Tomk
