/-
# Process ids

`create_proc` takes the id of a process from the counter of the active list,
which nothing counts down: not the end of a process, and not a process that got no
stack.  A process with a new id comes to the end of the list.  So the active list
is in the order of the ids, and no two processes have the same one
(`schedulerRun_pids`), until the counter comes round.

Each of the other functions writes links, flags or ticks (`SamePids`), and takes
processes out of the list, or leaves it.
-/
import Tomk.Sched.SchedulerRun

namespace Tomk

open DList Function Runs

/-- The number of a process. -/
def Sched.pid (s : Sched) (p : U32) : Nat := (s.procs p).id.toNat

/-- The ids go up along the list, and the counter is above them. -/
structure PidOrder (s : Sched) (xs : List U32) : Prop where
  sorted : xs.Pairwise fun p q => s.pid p < s.pid q
  below : ∀ p ∈ xs, s.pid p < s.active.count.toNat

/-- The counter does not come round in this call. -/
def SchedCall.HasPid (c : SchedCall) (s : SchedState) : Prop :=
  match c with
  | .create _ _ _ => s.sched.active.count.toNat + 1 < 2 ^ 32
  | _ => True

variable {s s' s'' : Sched} {w w' : Which} {p q : U32} {xs ys pre post : List U32} {y : Symbols}

/-! ## What does not give ids -/

structure SamePids (s s' : Sched) : Prop where
  pid : ∀ q, s'.pid q = s.pid q
  count : s'.active.count = s.active.count

theorem SamePids.trans (h : SamePids s s') (h' : SamePids s' s'') : SamePids s s'' :=
  ⟨fun q => (h'.pid q).trans (h.pid q), h'.count.trans h.count⟩

/-- The list `xs'` comes after `xs`: what is in it was in it with its id, or has got one that
was not given before. -/
structure PidsAfter (s : Sched) (xs : List U32) (s' : Sched) (xs' : List U32) : Prop where
  order : PidOrder s' xs'
  count : s.active.count.toNat ≤ s'.active.count.toNat
  ids : ∀ p ∈ xs', p ∈ xs ∧ s'.pid p = s.pid p ∨ s.active.count.toNat ≤ s'.pid p

theorem PidOrder.refl (h : PidOrder s xs) : PidsAfter s xs s xs :=
  ⟨h, Nat.le_refl _, fun _ hp => Or.inl ⟨hp, rfl⟩⟩

theorem PidsAfter.trans {xs' xs'' : List U32} (h : PidsAfter s xs s' xs')
    (h' : PidsAfter s' xs' s'' xs'') : PidsAfter s xs s'' xs'' where
  order := h'.order
  count := Nat.le_trans h.count h'.count
  ids := fun p hp => by
    rcases h'.ids p hp with ⟨hp', heq⟩ | hle
    · rw [heq]
      exact h.ids p hp'
    · exact Or.inr (Nat.le_trans h.count hle)

theorem PidsAfter.andThen {xs' xs'' : List U32} (h : PidsAfter s xs s' xs')
    (h' : PidOrder s' xs' → PidsAfter s' xs' s'' xs'') : PidsAfter s xs s'' xs'' :=
  h.trans (h' h.order)

/-- A list without some of its processes. -/
theorem PidOrder.sublist (h : PidOrder s xs) {xs' : List U32} (hsub : xs'.Sublist xs)
    (he : SamePids s s') : PidsAfter s xs s' xs' where
  order := by
    refine ⟨?_, fun p hp => ?_⟩
    · have hs := h.sorted.sublist hsub
      simpa only [he.pid] using hs
    · rw [he.pid, he.count]
      exact h.below p (hsub.subset hp)
  count := Nat.le_of_eq (congrArg BitVec.toNat he.count.symm)
  ids := fun p hp => Or.inl ⟨hsub.subset hp, he.pid p⟩

/-- No two processes of the list have the same id. -/
theorem PidOrder.inj (h : PidOrder s xs) (hp : p ∈ xs) (hq : q ∈ xs) (he : s.pid p = s.pid q) : p = q := by
  have hnodup : (xs.map s.pid).Nodup :=
    List.pairwise_map.mpr (h.sorted.imp fun hlt => Nat.ne_of_lt hlt)
  exact List.inj_on_of_nodup_map hnodup hp hq he

theorem samePids_setProc {x : Process} (hx : x.id = (s.procs p).id) : SamePids s (s.setProc p x) where
  pid := fun q => by
    rw [Sched.pid, Sched.setProc_procs]
    split
    · next hq => rw [hx, ← hq, Sched.pid]
    · rfl
  count := rfl

theorem samePids_setMan {m : Procman} (hm : m.count = (s.man w).count) :
    SamePids s (s.setMan w m) where
  pid := fun q => by rw [Sched.pid, Sched.setMan_procs, Sched.pid]
  count := by
    cases w
    · exact hm
    · rfl

theorem samePids_setNext (v : U32) : SamePids s (s.setNext w p v) := by
  rw [Sched.setNext]
  split
  · exact samePids_setProc rfl
  · exact samePids_setMan rfl

theorem samePids_setPrev (v : U32) : SamePids s (s.setPrev w p v) := by
  rw [Sched.setPrev]
  split
  · exact samePids_setProc rfl
  · exact samePids_setMan rfl

theorem procmanAppend_pids (s : Sched) (w : Which) (hp : p ≠ 0) : SamePids s (procmanAppend s w p) := by
  rw [procmanAppend_eq hp]
  exact (((samePids_setNext _).trans (samePids_setPrev _)).trans (samePids_setNext _)).trans
    (samePids_setPrev _)

theorem procmanRemove_pids (s : Sched) (w : Which) (hp : p ≠ 0) : SamePids s (procmanRemove s w p) := by
  have hunlink : SamePids s (unlinkProc s w p) := by
    rw [unlinkProc_eq hp]
    exact (((samePids_setNext _).trans (samePids_setPrev _)).trans (samePids_setNext _)).trans
      (samePids_setPrev _)
  rw [procmanRemove_eq]
  split
  · exact hunlink.trans (samePids_setMan rfl)
  · exact hunlink

theorem procDeregister_pids (s : Sched) (p : U32) : SamePids s (procDeregister s p) := by
  rw [procDeregister]
  split
  · exact ⟨fun _ => rfl, rfl⟩
  · next hp =>
      split
      · exact ⟨fun _ => rfl, rfl⟩
      · exact ((procmanRemove_pids s .active hp).trans (procmanAppend_pids _ .inactive hp)).trans
          (samePids_setProc rfl)

theorem destroyProc_pids (s : Sched) (p : U32) : SamePids s (destroyProc s p).2 := by
  rw [destroyProc]
  split
  · exact ⟨fun _ => rfl, rfl⟩
  · next hp => exact procmanRemove_pids s .inactive hp

theorem Ticked.pids (t : Ticked s s') : SamePids s s' where
  pid := fun q => by
    obtain ⟨n, hn⟩ := t.proc q
    rw [Sched.pid, hn, Sched.pid]
  count := by rw [t.active]

theorem schedulerSwitch_pids (s : Sched) : SamePids s (schedulerSwitch s).2 := by
  rw [schedulerSwitch]
  split
  · exact ⟨fun _ => rfl, rfl⟩
  · have hchoose : SamePids s (chooseCurrent s) := by
      rw [chooseCurrent]
      split
      · exact ⟨fun _ => rfl, rfl⟩
      · exact ⟨fun _ => rfl, rfl⟩
    have hupdate := hchoose.trans
      (processUpdate_ticked (chooseCurrent s) (chooseCurrent s).active.current).pids
    simp only
    split
    · exact hupdate.trans ⟨fun _ => rfl, rfl⟩
    · exact hupdate

/-- New memory has an id of its own, but is no process yet. -/
theorem PidOrder.register (h : PidOrder s xs) (hx : p ∉ xs) (path entry flags : U32) :
    PidsAfter s xs (procRegister s p path entry flags) xs := by
  rw [procRegister]
  split
  · exact h.refl
  · next hp =>
      have hset : ∀ (t : Sched) (x : Process), PidOrder t xs → PidsAfter t xs (t.setProc p x) xs := by
        intro t x ht
        have hpid : ∀ q ∈ xs, (t.setProc p x).pid q = t.pid q := fun q hq => by
          rw [Sched.pid, Sched.setProc_procs, if_neg (ne_of_mem_of_not_mem hq hx), Sched.pid]
        refine ⟨⟨ht.sorted.imp_of_mem fun hq hr hlt => ?_, fun q hq => ?_⟩, Nat.le_refl _,
          fun q hq => Or.inl ⟨hq, hpid q hq⟩⟩
        · rw [hpid _ hq, hpid _ hr]
          exact hlt
        · rw [hpid q hq]
          exact ht.below q hq
      exact ((((hset _ _ h).andThen (hset _ _)).andThen (hset _ _)).andThen (hset _ _)).andThen
        fun h' => h'.sublist (List.Sublist.refl xs) (procmanAppend_pids _ .inactive hp)

/-! ## What gives one -/

theorem setupProc_id (y : Symbols) (x : Process) (stack id pd : U32) :
    (setupProc y x stack id pd).id = id := by
  simp only [setupProc]

/-- **`create_proc`** moves the process with the next id, or gives none. -/
theorem createProc_pid (y : Symbols) (s : Sched) (hp : p ≠ 0) (stack pd : U32) :
    ((s.procs p).Has procFlagStack ∧ stack = 0 ∧ SamePids s (createProc y s p stack pd).2) ∨
      (¬ ((s.procs p).Has procFlagStack ∧ stack = 0) ∧
        (∀ q, q ≠ p → (createProc y s p stack pd).2.pid q = s.pid q) ∧
        (createProc y s p stack pd).2.pid p = s.active.count.toNat ∧
        (createProc y s p stack pd).2.active.count = s.active.count + 1) := by
  have hs : (openProc y (s.procs p)).Has procFlagStack ↔ (s.procs p).Has procFlagStack :=
    openProc_has y (s.procs p) (by decide)
  by_cases h : (s.procs p).Has procFlagStack ∧ stack = 0
  · refine Or.inl ⟨h.1, h.2, ?_⟩
    simp only [createProc]
    rw [if_pos ⟨hs.mpr h.1, h.2⟩]
    exact samePids_setProc rfl
  · refine Or.inr ⟨h, ?_⟩
    simp only [createProc]
    rw [if_neg fun hc => h ⟨hs.mp hc.1, hc.2⟩]
    generalize ht : ({ s.setProc p (setupProc y (openProc y (s.procs p)) stack s.active.count pd) with
      mem := _, active := _ } : Sched) = t
    have hmove : SamePids t (procmanAppend (procmanRemove t .inactive p) .active p) :=
      (procmanRemove_pids t .inactive hp).trans (procmanAppend_pids _ .active hp)
    have hproc : t.procs = (s.setProc p
        (setupProc y (openProc y (s.procs p)) stack s.active.count pd)).procs := by rw [← ht]
    refine ⟨fun q hq => ?_, ?_, ?_⟩
    · rw [hmove.pid, Sched.pid, hproc, Sched.setProc_procs, if_neg hq, Sched.pid]
    · rw [hmove.pid, Sched.pid, hproc, Sched.setProc_procs, if_pos rfl, setupProc_id]
    · rw [hmove.count, ← ht]

/-- The process comes behind all others, in the list and in the ids. -/
theorem PidOrder.create (h : PidOrder s xs) (hp : p ≠ 0) (hx : p ∉ xs) {stack pd : U32}
    (hs : ¬ ((s.procs p).Has procFlagStack ∧ stack = 0)) (hroom : s.active.count.toNat + 1 < 2 ^ 32) :
    PidsAfter s xs (createProc y s p stack pd).2 (xs ++ [p]) := by
  obtain ⟨_, hothers, hpid, hcount⟩ :=
    (createProc_pid y s hp stack pd).resolve_left fun hc => hs ⟨hc.1, hc.2.1⟩
  have hsame : ∀ q ∈ xs, (createProc y s p stack pd).2.pid q = s.pid q := fun q hq =>
    hothers q (ne_of_mem_of_not_mem hq hx)
  have hnext : (createProc y s p stack pd).2.active.count.toNat = s.active.count.toNat + 1 := by
    rw [hcount, BitVec.toNat_add]
    exact Nat.mod_eq_of_lt hroom
  refine ⟨⟨?_, fun q hq => ?_⟩, ?_, fun q hq => ?_⟩
  · rw [List.pairwise_append]
    refine ⟨?_, List.pairwise_singleton _ _, fun q hq r hr => ?_⟩
    · refine h.sorted.imp_of_mem fun hq hr hlt => ?_
      rw [hsame _ hq, hsame _ hr]
      exact hlt
    · rw [List.mem_singleton.mp hr, hsame q hq, hpid]
      exact h.below q hq
  · rw [hnext]
    rcases List.mem_append.mp hq with hq | hq
    · rw [hsame q hq]
      exact Nat.lt_succ_of_lt (h.below q hq)
    · rw [List.mem_singleton.mp hq, hpid]
      exact Nat.lt_succ_self _
  · rw [hnext]
    exact Nat.le_succ _
  · rcases List.mem_append.mp hq with hq | hq
    · exact Or.inl ⟨hq, hsame q hq⟩
    · rw [List.mem_singleton.mp hq, hpid]
      exact Or.inr (Nat.le_refl _)

/-! ## One call -/

/-- The lists are what the links make them. -/
theorem Sched.Lists.unique {xs' ys' : List U32} (hl : s.Lists xs ys) (hl' : s.Lists xs' ys') :
    xs' = xs := hl'.active.unique hl.active

/-- A process is created, or not. -/
theorem PidOrder.createAny (h : PidOrder s xs) (hl : s.Lists xs (pre ++ p :: post))
    (hroom : s.active.count.toNat + 1 < 2 ^ 32) {stack pd : U32} {xs' ys' : List U32}
    (hl' : (createProc y s p stack pd).2.Lists xs' ys') :
    PidsAfter s xs (createProc y s p stack pd).2 xs' := by
  have hmem : p ∈ pre ++ p :: post := List.mem_append_right pre List.mem_cons_self
  have hp := hl.inactive.ne hmem
  rcases hl.create y stack pd with ⟨hs, hkept⟩ | ⟨hs, hmoved⟩
  · obtain ⟨_, _, hsame⟩ := (createProc_pid y s hp stack pd).resolve_right fun hc => hc.1 hs
    rw [hkept.unique hl']
    exact h.sublist (List.Sublist.refl xs) hsame
  · rw [hmoved.unique hl']
    exact h.create hp (fun hx => hl.disjoint p hx hmem) hs hroom

variable {t t' : SchedState}

/-- What is unloaded comes out of the active list, if it was in it. -/
theorem unload_sublist (hs : t.Holds xs ys) (ho : (SchedCall.unload p).Orderly t) {xs' ys' : List U32}
    (hl' : (procDeregister t.sched p).Lists xs' ys') : xs'.Sublist xs := by
  have hl := hs.lists
  by_cases hp : p = 0
  · rw [procDeregister, if_pos hp] at hl'
    rw [hl.unique hl']
  by_cases hk : (t.sched.procs p).Has procFlagKill
  · rw [procDeregister, if_neg hp, if_pos hk] at hl'
    rw [hl.unique hl']
  rcases ho with h | h | h | ⟨h, hprev, hnext⟩
  · exact absurd h hp
  · exact absurd h hk
  · obtain ⟨pre, post, rfl⟩ := List.append_of_mem (hl.active_iff.mp h)
    rw [(hl.deregister hk).unique hl']
    exact (List.sublist_cons_self p post).append_left pre
  · obtain ⟨pre, post, rfl⟩ := List.append_of_mem (hl.scanned_iff.mp h)
    rw [links_prev t.sched .inactive hp, hl.inactive.prev_eq] at hprev
    rw [links_next t.sched .inactive hp, hl.inactive.next_eq] at hnext
    rw [(hl.deregisterMiddle hk hprev hnext).unique hl']

/-- **One call** keeps the order. -/
theorem PidOrder.step {c : SchedCall} (h : PidOrder t.sched xs) (hs : t.Holds xs ys) (ho : c.Orderly t)
    (hroom : c.HasPid t) (hstep : SchedStep y c t t') :
    ∃ xs' ys', t'.Holds xs' ys' ∧ PidsAfter t.sched xs t'.sched xs' := by
  obtain ⟨xs', ys', hs', _⟩ := hs.step ho hstep
  refine ⟨xs', ys', hs', ?_⟩
  obtain ⟨hlegal, rfl⟩ := hstep
  have hl' := hs'.lists
  cases c with
  | load user proc path entry =>
      have hx : proc ∉ xs := fun hx => hlegal ((hs.live proc).mpr (Or.inl hx))
      cases user
      · obtain ⟨_, h'⟩ := hs.load path entry (procFlagKernel ||| procFlagStack ||| procFlagHeap) hlegal
        rw [h'.lists.unique hl']
        exact h.register hx _ _ _
      · obtain ⟨_, h'⟩ := hs.load path entry (procFlagUser ||| procFlagStack ||| procFlagHeap) hlegal
        rw [h'.lists.unique hl']
        exact h.register hx _ _ _
  | unload proc =>
      exact h.sublist (unload_sublist hs ho hl') (procDeregister_pids t.sched proc)
  | create proc stack pd =>
      obtain ⟨pre, post, rfl⟩ := List.append_of_mem (hs.lists.scanned_iff.mp hlegal.1)
      exact h.createAny hs.lists hroom hl'
  | destroy proc =>
      obtain ⟨_, h'⟩ := hs.destroy (y := y) hlegal.1
      rw [h'.lists.unique hl']
      exact h.sublist (List.Sublist.refl xs) (destroyProc_pids t.sched proc)
  | switch =>
      rw [hs.lists.switch.unique hl']
      exact h.sublist (List.Sublist.refl xs) (schedulerSwitch_pids t.sched)

/-! ## `scheduler_init` -/

/-- The lists of `ps`, with ids below `n`. -/
structure Numbered (s : Sched) (ps : List U32) (n : Nat) (xs ys : List U32) : Prop where
  lists : s.Lists xs ys
  order : PidOrder s xs
  mem : ∀ p, p ∈ ps ↔ p ∈ xs ∨ p ∈ ys
  count : s.active.count.toNat ≤ n

/-- One more process. -/
theorem Numbered.registerCreate {ps : List U32} {n : Nat} (h : Numbered s ps n xs ys) (hp : p ≠ 0)
    (hps : p ∉ ps) (hn : n + 1 < 2 ^ 32) (y : Symbols) (path entry flags stack pd : U32) :
    ∃ xs' ys', Numbered (createProc y (procRegister s p path entry flags) p stack pd).2 (ps ++ [p])
      (n + 1) xs' ys' := by
  rw [h.mem, not_or] at hps
  have hroom : s.active.count.toNat + 1 < 2 ^ 32 := Nat.lt_of_le_of_lt (Nat.succ_le_succ h.count) hn
  obtain ⟨xs', ys', hl', hmem, _⟩ :=
    h.lists.registerCreate hp hps.1 hps.2 y path entry flags stack pd
  -- the counter of the list is not changed before the process is created
  have hcount : (procRegister s p path entry flags).active.count = s.active.count := by
    simp only [procRegister, if_neg hp]
    exact (procmanAppend_pids _ .inactive hp).count
  refine ⟨xs', ys', hl', ?_, fun q => ?_, ?_⟩
  · refine PidsAfter.order ((h.order.register hps.1 path entry flags).order.createAny
      (h.lists.register hp hps.1 hps.2 path entry flags) ?_ hl')
    rw [hcount]
    exact hroom
  · rw [hmem, ← h.mem, List.mem_append, List.mem_singleton, or_comm]
  · rcases createProc_pid y (procRegister s p path entry flags) hp stack pd with
      ⟨_, _, hsame⟩ | ⟨_, _, _, hnext⟩
    · rw [hsame.count, hcount]
      exact Nat.le_succ_of_le h.count
    · rw [hnext, hcount, BitVec.toNat_add]
      exact Nat.le_trans (Nat.mod_le _ _) (Nat.succ_le_succ h.count)

/-- The processes of `scheduler_init` have the ids 0, 1 and 2. -/
theorem schedulerInit_pids (y : Symbols) (s0 : Sched) {kinit idle sched : U32}
    (idleStack schedStack : U32) (hn : (initProcs kinit idle sched).Nodup) :
    ∃ xs ys, Numbered (schedulerInit y s0 kinit idle sched idleStack schedStack)
      (initProcs kinit idle sched) 3 xs ys := by
  have h0 : Numbered { s0 with active := ⟨0, 0, 0, 0⟩, inactive := ⟨0, 0, 0, 0⟩ } [] 0 [] [] :=
    ⟨lists_nil s0, ⟨List.Pairwise.nil, fun _ hp => (nomatch hp)⟩, fun p => by simp, Nat.le_refl 0⟩
  have hle : ∀ {s ps n xs ys}, n ≤ 3 → Numbered s ps n xs ys → Numbered s ps 3 xs ys :=
    fun hn h => ⟨h.lists, h.order, h.mem, Nat.le_trans h.count hn⟩
  simp only [schedulerInit, initProcs] at hn ⊢
  by_cases h1 : kinit = 0
  · rw [if_pos h1, if_pos h1]
    exact ⟨_, _, hle (by decide) h0⟩
  rw [if_neg h1] at hn
  rw [if_neg h1, if_neg h1]
  obtain ⟨xs1, ys1, hs1⟩ := h0.registerCreate h1 List.not_mem_nil (by decide) y y.kinitPath 0
    (procFlagKernel ||| procSharedAddrSpace) 0 0
  by_cases h2 : idle = 0
  · rw [if_pos h2, if_pos h2]
    exact ⟨_, _, hle (by decide) hs1⟩
  rw [if_neg h2] at hn
  rw [if_neg h2, if_neg h2]
  have hne2 : idle ∉ [] ++ [kinit] := by
    rw [List.nil_append, List.mem_singleton]
    rintro rfl
    split at hn <;> simp at hn
  obtain ⟨xs2, ys2, hs2⟩ := hs1.registerCreate h2 hne2 (by decide) y y.idlePath y.idleProc
    (procFlagKernel ||| procSharedAddrSpace ||| procFlagStack) idleStack 0
  by_cases h3 : sched = 0
  · rw [if_pos h3, if_pos h3]
    exact ⟨_, _, hle (by decide) hs2⟩
  rw [if_neg h3] at hn
  rw [if_neg h3, if_neg h3]
  have hne3 : sched ∉ [] ++ [kinit] ++ [idle] := by
    simp only [List.nodup_cons, List.mem_cons, List.not_mem_nil, or_false, not_or] at hn
    simp only [List.nil_append, List.mem_append, List.mem_singleton, not_or]
    exact ⟨Ne.symm hn.1.2, Ne.symm hn.2.1⟩
  obtain ⟨xs3, ys3, hs3⟩ := hs2.registerCreate h3 hne3 (by decide) y y.schedulerPath y.schedulerProc
    (procFlagKernel ||| procSharedAddrSpace ||| procFlagStack ||| procFlagHeap) schedStack 0
  -- `.kinit` becomes the current process, which is no part of this
  obtain ⟨xs, ys, hl, hmem, _⟩ := schedulerInit_lists y s0 idleStack schedStack
    (show (initProcs kinit idle sched).Nodup by
      simp only [initProcs, if_neg h1, if_neg h2, if_neg h3]
      exact hn)
  simp only [schedulerInit, initProcs, if_neg h1, if_neg h2, if_neg h3] at hl hmem
  obtain rfl : xs = xs3 := hl.active.unique hs3.lists.active
  exact ⟨xs, ys, hl, PidsAfter.order (hs3.order.sublist (List.Sublist.refl _) ⟨fun _ => rfl, rfl⟩),
    hmem, hs3.count⟩

/-! ## Runs -/

/-- The calls of a run of the scheduler. -/
def PidCond (c : SchedCall) (t : SchedState) : Prop := c.Orderly t ∧ c.HasPid t

theorem pids_of_reach (h : Reach (SchedStart y) (Guarded PidCond (SchedStep y)) t) :
    ∃ xs ys, t.Holds xs ys ∧ PidOrder t.sched xs := by
  refine Reach.invariant (fun t => ∃ xs ys, t.Holds xs ys ∧ PidOrder t.sched xs) ?_ ?_ h
  · rintro _ ⟨s0, kinit, idle, sched, idleStack, schedStack, hn, rfl⟩
    obtain ⟨xs, ys, hs⟩ := schedulerInit_pids y s0 idleStack schedStack hn
    exact ⟨xs, ys, ⟨hs.lists, hs.mem⟩, hs.order⟩
  · rintro c t t' ⟨xs, ys, hs, ho⟩ ⟨⟨horderly, hroom⟩, hstep⟩
    obtain ⟨xs', ys', hs', hafter⟩ := ho.step hs horderly hroom hstep
    exact ⟨xs', ys', hs', hafter.order⟩

/-- **Ids are not used twice.**  From every state of a run, to every later one, with calls that
unload processes where `procman_remove` can take them out and with fewer than 2^32
processes created: in both the active list is in the order of the ids, and a process that
is active later was active before, with the same id, or has one that no process had. -/
theorem schedulerRun_pids (h : Reach (SchedStart y) (Guarded PidCond (SchedStep y)) t)
    (h' : Reach (fun u => u = t) (Guarded PidCond (SchedStep y)) t') :
    ∃ xs ys xs' ys', t.Holds xs ys ∧ t'.Holds xs' ys' ∧ PidOrder t.sched xs ∧ PidOrder t'.sched xs' ∧
      ∀ p ∈ xs', p ∈ xs ∧ t'.sched.pid p = t.sched.pid p ∨
        t.sched.active.count.toNat ≤ t'.sched.pid p := by
  obtain ⟨xs, ys, hs, ho⟩ := pids_of_reach h
  obtain ⟨xs', ys', hs', hafter⟩ : ∃ xs' ys', t'.Holds xs' ys' ∧ PidsAfter t.sched xs t'.sched xs' := by
    refine Reach.invariant (fun u => ∃ xs' ys', u.Holds xs' ys' ∧ PidsAfter t.sched xs u.sched xs')
      ?_ ?_ h'
    · rintro u rfl
      exact ⟨xs, ys, hs, ho.refl⟩
    · rintro c u u' ⟨xs1, ys1, hs1, hafter1⟩ ⟨⟨horderly, hroom⟩, hstep⟩
      obtain ⟨xs2, ys2, hs2, hafter2⟩ := hafter1.order.step hs1 horderly hroom hstep
      exact ⟨xs2, ys2, hs2, hafter1.trans hafter2⟩
  exact ⟨xs, ys, xs', ys', hs, hs', ho, hafter.order, hafter.ids⟩

/-- A fourth process is loaded after `scheduler_init`, and created. -/
theorem smallLoaded_reach :
    Reach (SchedStart smallSymbols) (Guarded PidCond (SchedStep smallSymbols)) smallLoaded := by
  have hload : PidCond (.load false 0x400 0 0xC0105000) smallSched := ⟨trivial, trivial⟩
  exact .next (.start smallSched_start) ⟨hload, smallLoaded_step⟩

theorem smallCreated_after {init : SchedState → Prop}
    (h : Reach init (Guarded PidCond (SchedStep smallSymbols)) smallLoaded) :
    Reach init (Guarded PidCond (SchedStep smallSymbols)) smallCreated := by
  have hroom : smallLoaded.sched.active.count.toNat + 1 < 2 ^ 32 := by decide +kernel
  have hcreate : PidCond (.create 0x400 0x240000 0x300000) smallLoaded := ⟨trivial, hroom⟩
  exact .next h ⟨hcreate, smallCreated_step⟩

theorem schedulerRun_pids_four : ∃ xs ys xs' ys', smallLoaded.Holds xs ys ∧ smallCreated.Holds xs' ys' ∧
    PidOrder smallLoaded.sched xs ∧ PidOrder smallCreated.sched xs' ∧
    ∀ p ∈ xs', p ∈ xs ∧ smallCreated.sched.pid p = smallLoaded.sched.pid p ∨
      smallLoaded.sched.active.count.toNat ≤ smallCreated.sched.pid p :=
  schedulerRun_pids smallLoaded_reach (smallCreated_after (.start rfl))

end Tomk
