/-
# The two lists of the scheduler

`Sched.Lists s xs ys`: the active list is `xs`, the inactive list is `ys`, they
have no process in common, and the current process is in the active list or
there is none.

Each function that moves a process has its lemma, with the lists afterwards.
`create_proc` also writes fields of the process, and may stop before it moves
it; what it writes is stated once (`createProc_cases`).
-/
import Tomk.Sched.SchedulerSpec

namespace Tomk

open DList Function

variable {s s' : Sched} {w w' : Which} {p q : U32} {xs ys pre post : List U32}

structure Sched.Lists (s : Sched) (xs ys : List U32) : Prop where
  active : Ring (s.links .active) 0 xs
  inactive : Ring (s.links .inactive) 0 ys
  disjoint : ∀ p ∈ xs, p ∉ ys
  current : s.active.current = 0 ∨ s.active.current ∈ xs

/-- Only what is no link and no end of a list differs. -/
structure SameLists (s s' : Sched) : Prop where
  next : ∀ q, (s'.procs q).next = (s.procs q).next
  prev : ∀ q, (s'.procs q).prev = (s.procs q).prev
  head : ∀ w, (s'.man w).head = (s.man w).head
  tail : ∀ w, (s'.man w).tail = (s.man w).tail

theorem SameLists.ring (e : SameLists s s') (hr : Ring (s.links w) 0 xs) : Ring (s'.links w) 0 xs :=
  ring_congr hr (e.head w) (e.tail w) (fun x _ => e.next x) fun x _ => e.prev x

theorem Sched.Lists.same (hl : s.Lists xs ys) (e : SameLists s s')
    (hc : s'.active.current = s.active.current) : s'.Lists xs ys :=
  ⟨e.ring hl.active, e.ring hl.inactive, hl.disjoint, by rw [hc]; exact hl.current⟩

/-- Other fields of a process are set. -/
theorem sameLists_setProc {x : Process} (hn : x.next = (s.procs p).next)
    (hp : x.prev = (s.procs p).prev) : SameLists s (s.setProc p x) where
  next := fun q => by
    rw [Sched.setProc_procs]
    split
    · next hq => rw [hn, hq]
    · rfl
  prev := fun q => by
    rw [Sched.setProc_procs]
    split
    · next hq => rw [hp, hq]
    · rfl
  head := fun w => by rw [Sched.setProc_man]
  tail := fun w => by rw [Sched.setProc_man]

/-- Another active process becomes the current one. -/
theorem Sched.Lists.setCurrent (hl : s.Lists xs ys) (hp : p ∈ xs) :
    Sched.Lists { s with active := { s.active with current := p } } xs ys :=
  ⟨ring_congr hl.active rfl rfl (fun _ _ => rfl) fun _ _ => rfl,
    ring_congr hl.inactive rfl rfl (fun _ _ => rfl) fun _ _ => rfl, hl.disjoint, Or.inr hp⟩

/-! ## Moving a process -/

/-- A process that is in no list is appended to the inactive one. -/
theorem Sched.Lists.appendInactive (hl : s.Lists xs ys) (hp : p ≠ 0) (hx : p ∉ xs) (hy : p ∉ ys) :
    (procmanAppend s .inactive p).Lists xs (ys ++ [p]) := by
  have ht := procmanAppend_touches hp hl.inactive
  refine ⟨ht.ring (by decide) hl.active fun x hmem hc => ?_, procmanAppend_ring hl.inactive hp hy,
    fun x hmem hc => ?_, ?_⟩
  · rcases hc with rfl | hc
    · exact hx hmem
    · exact hl.disjoint x hmem hc
  · rcases List.mem_append.mp hc with hc | hc
    · exact hl.disjoint x hmem hc
    · rw [List.mem_singleton.mp hc] at hmem
      exact hx hmem
  · have hc := ht.current .active
    rw [show (procmanAppend s .inactive p).active.current = s.active.current from hc]
    exact hl.current

theorem Sched.Lists.appendActive (hl : s.Lists xs ys) (hp : p ≠ 0) (hx : p ∉ xs) (hy : p ∉ ys) :
    (procmanAppend s .active p).Lists (xs ++ [p]) ys := by
  have ht := procmanAppend_touches hp hl.active
  refine ⟨procmanAppend_ring hl.active hp hx, ht.ring (by decide) hl.inactive fun y hmem hc => ?_,
    fun x hmem hc => ?_, ?_⟩
  · rcases hc with rfl | hc
    · exact hy hmem
    · exact hl.disjoint y hc hmem
  · rcases List.mem_append.mp hmem with hmem | hmem
    · exact hl.disjoint x hmem hc
    · rw [List.mem_singleton.mp hmem] at hc
      exact hy hc
  · have hc := ht.current .active
    rw [show (procmanAppend s .active p).active.current = s.active.current from hc]
    exact hl.current.imp id (List.mem_append_left _)

theorem Sched.Lists.removeActive (hl : s.Lists (pre ++ p :: post) ys) :
    (procmanRemove s .active p).Lists (pre ++ post) ys := by
  have ht := unlinkProc_touches hl.active .active
  refine ⟨?_, ?_, fun x hx => hl.disjoint x ?_, ?_⟩
  · rw [procmanRemove_links]
    exact unlinkProc_ring hl.active
  · rw [procmanRemove_links]
    exact ht.ring (by decide) hl.inactive fun y hy hc => hl.disjoint y hc hy
  · rw [List.mem_append] at hx ⊢
    exact hx.imp id (List.mem_cons_of_mem p)
  · have hc := procmanRemove_current ht .active
    rw [show (procmanRemove s .active p).active.current = _ from hc]
    split
    · exact Or.inl rfl
    · next hne =>
        refine hl.current.imp id fun hmem => ?_
        rw [List.mem_append, List.mem_cons] at hmem
        rw [List.mem_append]
        exact hmem.imp id fun hmem => hmem.resolve_left fun heq => hne ⟨rfl, heq⟩

theorem Sched.Lists.removeInactive (hl : s.Lists xs (pre ++ p :: post)) :
    (procmanRemove s .inactive p).Lists xs (pre ++ post) := by
  have ht := unlinkProc_touches hl.inactive .inactive
  refine ⟨?_, ?_, fun x hx hc => hl.disjoint x hx ?_, ?_⟩
  · rw [procmanRemove_links]
    exact ht.ring (by decide) hl.active fun x hx hc => hl.disjoint x hx hc
  · rw [procmanRemove_links]
    exact unlinkProc_ring hl.inactive
  · rw [List.mem_append] at hc ⊢
    exact hc.imp id (List.mem_cons_of_mem p)
  · have hc := procmanRemove_current ht .active
    rw [if_neg fun h => absurd h.1 (by decide)] at hc
    rw [show (procmanRemove s .inactive p).active.current = s.active.current from hc]
    exact hl.current

/-- `procman_remove` from the active list takes an inactive process that has two
neighbours out of the inactive list. -/
theorem Sched.Lists.removeMiddle (hl : s.Lists xs (pre ++ p :: post)) (hpre : pre.getLastD 0 ≠ 0)
    (hpost : post.headD 0 ≠ 0) : (procmanRemove s .active p).Lists xs (pre ++ post) := by
  have hp := hl.inactive.ne (List.mem_append_right pre List.mem_cons_self)
  have hmid : unlinkProc s .active p = unlinkProc s .inactive p := by
    refine unlinkProc_middle ?_ ?_ .active .inactive
    · rw [links_prev s .inactive hp, hl.inactive.prev_eq]
      exact hpre
    · rw [links_next s .inactive hp, hl.inactive.next_eq]
      exact hpost
  have ht := unlinkProc_touches hl.inactive .inactive
  have hrem := hl.removeInactive
  refine ⟨?_, ?_, hrem.disjoint, ?_⟩
  · have := hrem.active
    rw [procmanRemove_links] at this ⊢
    rw [hmid]
    exact this
  · have := hrem.inactive
    rw [procmanRemove_links] at this ⊢
    rw [hmid]
    exact this
  · have hta := unlinkProc_touches hl.inactive .active
    have hc := procmanRemove_current hta .active
    rw [show (procmanRemove s .active p).active.current = _ from hc]
    split
    · exact Or.inl rfl
    · exact hl.current

/-! ## `proc_register` and `proc_deregister` -/

/-- The links of a process that is in no list do not matter. -/
theorem Sched.Lists.setProc (hl : s.Lists xs ys) (hx : p ∉ xs) (hy : p ∉ ys) (x : Process) :
    (s.setProc p x).Lists xs ys := by
  have hne : ∀ q, q ≠ p → (s.setProc p x).procs q = s.procs q := fun q hq => by
    rw [Sched.setProc_procs, if_neg hq]
  refine ⟨ring_congr hl.active ?_ ?_ (fun q hq => ?_) fun q hq => ?_,
    ring_congr hl.inactive ?_ ?_ (fun q hq => ?_) fun q hq => ?_, hl.disjoint, hl.current⟩
  · rw [Sched.setProc_man]
  · rw [Sched.setProc_man]
  · rw [hne q (ne_of_mem_of_not_mem hq hx)]
  · rw [hne q (ne_of_mem_of_not_mem hq hx)]
  · rw [Sched.setProc_man]
  · rw [Sched.setProc_man]
  · rw [hne q (ne_of_mem_of_not_mem hq hy)]
  · rw [hne q (ne_of_mem_of_not_mem hq hy)]

/-- **`proc_register`** of new memory. -/
theorem Sched.Lists.register (hl : s.Lists xs ys) (hp : p ≠ 0) (hx : p ∉ xs) (hy : p ∉ ys)
    (path entry flags : U32) : (procRegister s p path entry flags).Lists xs (ys ++ [p]) := by
  simp only [procRegister, if_neg hp]
  exact ((((hl.setProc hx hy _).setProc hx hy _).setProc hx hy _).setProc hx hy _).appendInactive
    hp hx hy

/-- A process without its links is what it was made. -/
theorem procRegister_core (hl : s.Lists xs ys) (hp : p ≠ 0) (hx : p ∉ xs) (hy : p ∉ ys)
    (path entry flags : U32) : ((procRegister s p path entry flags).procs p).core
      = { newProcess with entry := entry, path := path, flags := flags ||| procFlagCreate } := by
  have hl' := (((hl.setProc hx hy newProcess).setProc hx hy { newProcess with entry := entry }).setProc
    hx hy { newProcess with entry := entry, path := path }).setProc hx hy
      { newProcess with entry := entry, path := path, flags := flags ||| procFlagCreate }
  have ht := (procmanAppend_touches hp hl'.inactive).core p
  simp only [Sched.setProc_procs, if_true] at ht
  simp only [procRegister, if_neg hp, Sched.setProc_procs, if_true]
  exact ht

/-- The flags are no part of the lists. -/
theorem Sched.Lists.setFlags (hl : s.Lists xs ys) (p f : U32) :
    (s.setProc p { s.procs p with flags := f }).Lists xs ys :=
  hl.same (sameLists_setProc rfl rfl) rfl

/-- **`proc_deregister`** of an active process. -/
theorem Sched.Lists.deregister (hl : s.Lists (pre ++ p :: post) ys)
    (hk : ¬ (s.procs p).Has procFlagKill) :
    (procDeregister s p).Lists (pre ++ post) (ys ++ [p]) := by
  have hp := hl.active.ne (List.mem_append_right pre List.mem_cons_self)
  have hn := (List.nodup_cons.mp hl.active.nodup).2
  rw [List.nodup_middle, List.nodup_cons] at hn
  have hy := hl.disjoint p (List.mem_append_right pre List.mem_cons_self)
  simp only [procDeregister, if_neg hp, if_neg hk]
  exact (hl.removeActive.appendInactive hp hn.1 hy).setFlags p _

/-- **`proc_deregister`** of an inactive process with two neighbours. -/
theorem Sched.Lists.deregisterMiddle (hl : s.Lists xs (pre ++ p :: post))
    (hk : ¬ (s.procs p).Has procFlagKill) (hpre : pre.getLastD 0 ≠ 0) (hpost : post.headD 0 ≠ 0) :
    (procDeregister s p).Lists xs (pre ++ post ++ [p]) := by
  have hp := hl.inactive.ne (List.mem_append_right pre List.mem_cons_self)
  have hn := (List.nodup_cons.mp hl.inactive.nodup).2
  rw [List.nodup_middle, List.nodup_cons] at hn
  have hx : p ∉ xs := fun hx => hl.disjoint p hx (List.mem_append_right pre List.mem_cons_self)
  simp only [procDeregister, if_neg hp, if_neg hk]
  exact ((hl.removeMiddle hpre hpost).appendInactive hp hx hn.1).setFlags p _

/-! ## `create_proc` and `destroy_proc` -/

/-- A flag that is not `PROC_FLAG_CREATE` is not cleared with it. -/
theorem clear_create (f : U32) {mask : U32} (hm : ~~~procFlagCreate &&& mask = mask) :
    (f &&& ~~~procFlagCreate) &&& mask = f &&& mask := by
  rw [BitVec.and_assoc, hm]

theorem has_congr {x x' : Process} {mask : U32} (hf : x'.flags = x.flags) :
    x'.Has mask ↔ x.Has mask := by
  rw [Process.Has, Process.Has, hf]

theorem openProc_has (y : Symbols) (x : Process) {mask : U32} (hm : ~~~procFlagCreate &&& mask = mask) :
    (openProc y x).Has mask ↔ x.Has mask := by
  rw [Process.Has, Process.Has, ← clear_create x.flags hm]
  rfl

/-- What `create_proc` sets up. -/
structure Prepared (y : Symbols) (x x' : Process) (stack pd : U32) : Prop where
  next : x'.next = x.next
  prev : x'.prev = x.prev
  flags : x'.flags = x.flags &&& ~~~procFlagCreate
  stack : x.Has procFlagStack → x'.stack = stack
  cr3 : x'.context.cr3 = if x.Has procSharedAddrSpace then v2p y.pgPd else pd

theorem setupProc_next (y : Symbols) (x : Process) (stack id pd : U32) :
    (setupProc y x stack id pd).next = x.next := by
  simp only [setupProc]
  split <;> rfl

theorem setupProc_prev (y : Symbols) (x : Process) (stack id pd : U32) :
    (setupProc y x stack id pd).prev = x.prev := by
  simp only [setupProc]
  split <;> rfl

theorem setupProc_flags (y : Symbols) (x : Process) (stack id pd : U32) :
    (setupProc y x stack id pd).flags = x.flags := by
  simp only [setupProc]
  split <;> rfl

theorem setupProc_stack (y : Symbols) {x : Process} (hx : x.Has procFlagStack) (stack id pd : U32) :
    (setupProc y x stack id pd).stack = stack := by
  simp only [setupProc, if_pos hx]

theorem setupProc_cr3 (y : Symbols) (x : Process) (stack id pd : U32) :
    (setupProc y x stack id pd).context.cr3
      = if x.Has procSharedAddrSpace then v2p y.pgPd else pd := by
  simp only [setupProc]
  by_cases hx : x.Has procFlagStack
  · simp only [if_pos hx]
    exact if_congr (has_congr rfl) rfl rfl
  · simp only [if_neg hx]
    exact if_congr (has_congr rfl) rfl rfl

theorem setupProc_prepared (y : Symbols) (x : Process) (stack id pd : U32) :
    Prepared y x (setupProc y (openProc y x) stack id pd) stack pd where
  next := setupProc_next y _ _ _ _
  prev := setupProc_prev y _ _ _ _
  flags := setupProc_flags y _ _ _ _
  stack := fun hs => setupProc_stack y ((openProc_has y x (by decide)).mpr hs) _ _ _
  cr3 := by
    rw [setupProc_cr3]
    exact if_congr (openProc_has y x (by decide)) rfl rfl

/-- The state in which `create_proc` moves the process. -/
def preparedProc (s : Sched) (p : U32) (x : Process) (mem : U32 → U32) : Sched :=
  { s.setProc p x with mem := mem, active := { s.active with count := s.active.count + 1 } }

/-- **`create_proc`**: it stops where the stack is missing, or moves the process
to the active list. -/
theorem createProc_cases (y : Symbols) (s : Sched) (p stack pd : U32) :
    (((s.procs p).Has procFlagStack ∧ stack = 0) ∧ ∃ x : Process,
        x.next = (s.procs p).next ∧ x.prev = (s.procs p).prev ∧
        x.flags = (s.procs p).flags &&& ~~~procFlagCreate ∧
        createProc y s p stack pd = (0, s.setProc p x)) ∨
      (¬ ((s.procs p).Has procFlagStack ∧ stack = 0) ∧ ∃ x mem,
        Prepared y (s.procs p) x stack pd ∧ createProc y s p stack pd = ((s.procs p).next,
          procmanAppend (procmanRemove (preparedProc s p x mem) .inactive p) .active p)) := by
  have hs : (openProc y (s.procs p)).Has procFlagStack ↔ (s.procs p).Has procFlagStack :=
    openProc_has y (s.procs p) (by decide)
  by_cases h : (s.procs p).Has procFlagStack ∧ stack = 0
  · refine Or.inl ⟨h, { openProc y (s.procs p) with stack := 0 }, rfl, rfl, rfl, ?_⟩
    simp only [createProc]
    rw [if_pos ⟨hs.mpr h.1, h.2⟩]
  · have hpr := setupProc_prepared y (s.procs p) stack s.active.count pd
    let top := stack + defaultStack
    let mem := if (openProc y (s.procs p)).Has procFlagStack then
      update (update s.mem (top - 4) p) (top - 8) 0 else s.mem
    refine Or.inr ⟨h, setupProc y (openProc y (s.procs p)) stack s.active.count pd, mem, hpr, ?_⟩
    simp only [createProc]
    rw [if_neg fun hc => h ⟨hs.mp hc.1, hc.2⟩, Sched.setProc_procs, if_pos rfl, hpr.next]
    rfl

/-- The move from the inactive to the active list. -/
theorem Sched.Lists.move (hl : s.Lists xs (pre ++ p :: post)) {y : Symbols} {x : Process}
    {stack pd : U32} (hpr : Prepared y (s.procs p) x stack pd) (mem : U32 → U32) :
    (procmanAppend (procmanRemove (preparedProc s p x mem) .inactive p) .active p).Lists
      (xs ++ [p]) (pre ++ post) := by
  have hp := hl.inactive.ne (List.mem_append_right pre List.mem_cons_self)
  have hn := (List.nodup_cons.mp hl.inactive.nodup).2
  rw [List.nodup_middle, List.nodup_cons] at hn
  have hx : p ∉ xs := fun hx => hl.disjoint p hx (List.mem_append_right pre List.mem_cons_self)
  have e := sameLists_setProc (s := s) hpr.next hpr.prev
  have hl' : (preparedProc s p x mem).Lists xs (pre ++ p :: post) := by
    refine hl.same ⟨e.next, e.prev, fun w => ?_, fun w => ?_⟩ rfl
    · cases w <;> rfl
    · cases w <;> rfl
  exact hl'.removeInactive.appendActive hp hx hn.1

/-- **`create_proc`** of an inactive process. -/
theorem Sched.Lists.create (hl : s.Lists xs (pre ++ p :: post)) (y : Symbols) (stack pd : U32) :
    (((s.procs p).Has procFlagStack ∧ stack = 0) ∧
        (createProc y s p stack pd).2.Lists xs (pre ++ p :: post)) ∨
      (¬ ((s.procs p).Has procFlagStack ∧ stack = 0) ∧
        (createProc y s p stack pd).2.Lists (xs ++ [p]) (pre ++ post)) := by
  rcases createProc_cases y s p stack pd with ⟨h, x, hxn, hxp, _, hrun⟩ | ⟨h, x, mem, hpr, hrun⟩
  · refine Or.inl ⟨h, ?_⟩
    rw [hrun]
    exact hl.same (sameLists_setProc hxn hxp) rfl
  · refine Or.inr ⟨h, ?_⟩
    rw [hrun]
    exact hl.move hpr mem

theorem destroyProc_snd (hp : p ≠ 0) : (destroyProc s p).2 = procmanRemove s .inactive p := by
  rw [destroyProc, if_neg hp]

/-- **`destroy_proc`** of an inactive process. -/
theorem Sched.Lists.destroy (hl : s.Lists xs (pre ++ p :: post)) :
    (destroyProc s p).2.Lists xs (pre ++ post) := by
  rw [destroyProc_snd (hl.inactive.ne (List.mem_append_right pre List.mem_cons_self))]
  exact hl.removeInactive

/-! ## `scheduler_switch` -/

/-- Only the ticks of the process differ. -/
structure Ticked (s s' : Sched) : Prop where
  active : s'.active = s.active
  inactive : s'.inactive = s.inactive
  proc : ∀ q, ∃ n, s'.procs q = { s.procs q with ticks := n }

theorem Ticked.trans {s'' : Sched} (t : Ticked s s') (t' : Ticked s' s'') : Ticked s s'' where
  active := t'.active.trans t.active
  inactive := t'.inactive.trans t.inactive
  proc := fun q => by
    obtain ⟨n, hn⟩ := t.proc q
    obtain ⟨n', hn'⟩ := t'.proc q
    exact ⟨n', by rw [hn', hn]⟩

theorem ticked_setProc (s : Sched) (p n : U32) :
    Ticked s (s.setProc p { s.procs p with ticks := n }) where
  active := rfl
  inactive := rfl
  proc := fun q => by
    rw [Sched.setProc_procs]
    split
    · next hq => exact ⟨n, by rw [hq]⟩
    · exact ⟨_, rfl⟩

/-- **`process_update`** counts. -/
theorem processUpdate_ticked (s : Sched) (p : U32) : Ticked s (processUpdate s p).2 := by
  rw [processUpdate]
  split
  · exact ⟨rfl, rfl, fun _ => ⟨_, rfl⟩⟩
  · simp only
    split
    · exact ticked_setProc s p _
    · exact (ticked_setProc s p _).trans (ticked_setProc _ p _)

theorem Ticked.sameLists (t : Ticked s s') : SameLists s s' where
  next := fun q => by
    obtain ⟨n, hn⟩ := t.proc q
    rw [hn]
  prev := fun q => by
    obtain ⟨n, hn⟩ := t.proc q
    rw [hn]
  head := fun w => by
    cases w
    · exact congrArg Procman.head t.active
    · exact congrArg Procman.head t.inactive
  tail := fun w => by
    cases w
    · exact congrArg Procman.tail t.active
    · exact congrArg Procman.tail t.inactive

/-- The process after the current one in the active list, or the first. -/
def nextInTurn (s : Sched) (p : U32) : U32 :=
  if (s.procs p).next ≠ 0 then (s.procs p).next else s.active.head

theorem Sched.Lists.nextInTurn_mem (hl : s.Lists xs ys) (hp : p ∈ xs) : nextInTurn s p ∈ xs := by
  obtain ⟨pre, post, rfl⟩ := List.append_of_mem hp
  have hp0 := hl.active.ne hp
  have hnext : (s.procs p).next = post.headD 0 := by
    rw [links_next s .active hp0]
    exact hl.active.next_eq
  rw [nextInTurn]
  split
  · next hne =>
      rw [hnext] at hne ⊢
      cases post with
      | nil => exact absurd rfl hne
      | cons c post => exact List.mem_append_right pre (List.mem_cons_of_mem p List.mem_cons_self)
  · have hhead : s.active.head = (pre ++ p :: post).headD 0 := hl.active.head
    rw [hhead]
    cases pre with
    | nil => exact List.mem_cons_self
    | cons a pre => exact List.mem_cons_self

/-- **`scheduler_switch`**, while there is a current process: it has more time, or
no other process is there, or the turn goes to the next one. -/
theorem schedulerSwitch_current (hc : s.active.current ≠ 0) :
    ∃ t, Ticked s t ∧
      (schedulerSwitch s = (none, t) ∨
        ((processUpdate s s.active.current).1 = true ∧
          nextInTurn s s.active.current ≠ s.active.current) ∧
        schedulerSwitch s = (some (s.active.current, nextInTurn s s.active.current),
          { t with active := { t.active with current := nextInTurn s s.active.current } })) := by
  have ht := processUpdate_ticked s s.active.current
  refine ⟨(processUpdate s s.active.current).2, ht, ?_⟩
  have hno : ¬ (s.active.current = 0 ∧ s.active.head = 0) := fun h => hc h.1
  have hchoose : chooseCurrent s = s := if_neg hc
  have hnext : nextInTurn (processUpdate s s.active.current).2 s.active.current
      = nextInTurn s s.active.current := by
    rw [nextInTurn, nextInTurn, ht.sameLists.next, ht.active]
  rw [schedulerSwitch, if_neg hno, hchoose]
  simp only
  cases hd : (processUpdate s s.active.current).1 with
  | false => exact Or.inl rfl
  | true =>
      rw [if_pos rfl, ht.active]
      rw [show (if ((processUpdate s s.active.current).2.procs s.active.current).next ≠ 0 then
        ((processUpdate s s.active.current).2.procs s.active.current).next
        else s.active.head) = nextInTurn s s.active.current from by
          rw [← hnext, nextInTurn, ht.active]]
      by_cases hsame : nextInTurn s s.active.current = s.active.current
      · refine Or.inl ?_
        rw [if_neg (not_not.mpr hsame), hsame]
        have hactive := ht.active
        generalize (processUpdate s s.active.current).2 = u at hactive
        cases u
        cases hactive
        rfl
      · exact Or.inr ⟨⟨rfl, hsame⟩, by rw [if_pos hsame]⟩

end Tomk
