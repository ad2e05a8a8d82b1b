/-
# Who holds the kernel heap

Runs of the scheduler take what `kmalloc` returns as an argument of their calls,
and assume of it that a new process is none of the old ones and a new stack is not
the stack of another process.  Here the two are one system: the calls of the
scheduler allocate and free in the heap, in the order of the source, while others
use the heap for themselves.  A call of the heap is one step.

Nothing is assumed of the pointers then.  The blocks of the heap are held by
processes, each for its `process_t`, its stack and the bitmap of its window, or by
others, and each by one of them (`OwnedRun.Accounts`); no block is lost when a
process is destroyed.  So every run of the system is a run of the scheduler with the
assumptions met, and processes begin and come back as they should
(`ownedRun_accounts`).
-/
import Tomk.Mm.KheapRun
import Tomk.Sched.FirstRun
import Tomk.Sched.ProcMemory

namespace Tomk

open DList Function Runs

variable {V : Type} {ops : VmmOps V}

/-! ## `kmalloc` and `kfree` -/

/-- What a call that returned `ptr` has allocated. -/
def allocated (ptr size : U32) : List (U32 × U32) := if ptr = 0 then [] else [(ptr, size)]

/-- `heap_alloc`, with its result. -/
def HeapState.alloc (ops : VmmOps V) (s : HeapState V) (size : U32) (contiguous : Bool) :
    Option (U32 × HeapState V) :=
  (heapAlloc ops s.heap s.vmm size contiguous).map fun r =>
    (r.1, ⟨r.2.1, r.2.2, allocated r.1 size ++ s.live⟩)

/-- `heap_free` -/
def HeapState.free (ops : VmmOps V) (s : HeapState V) (ptr : U32) : Option (HeapState V) :=
  (heapFree ops s.heap s.vmm ptr).map fun r => ⟨r.1, r.2, s.live.filter fun a => a.1 ≠ ptr⟩

variable {s s' : HeapState V} {ptr size : U32} {k : Bool} {ls rest : List (U32 × U32)}

theorem HeapState.alloc_run (h : s.alloc ops size k = some (ptr, s')) :
    HeapCall.run ops s (.alloc size k) = some s' := by
  obtain ⟨⟨p, heap, vmm⟩, hrun, heq⟩ := Option.map_eq_some_iff.mp h
  obtain ⟨rfl, rfl⟩ := Prod.mk.inj heq
  simp only [HeapCall.run, hrun, Option.bind_eq_bind, Option.bind_some, Option.pure_def, allocated]
  split <;> rfl

theorem HeapState.free_run (h : s.free ops ptr = some s') :
    HeapCall.run ops s (.free ptr) = some s' := by
  obtain ⟨⟨heap, vmm⟩, hrun, rfl⟩ := Option.map_eq_some_iff.mp h
  simp only [HeapCall.run, hrun, Option.bind_eq_bind, Option.bind_some, Option.pure_def]

theorem HeapState.Inv.step {c : HeapCall} (h : s.Inv ops) (hc : c.Legal) (hrun : c.run ops s = some s') :
    s'.Inv ops := by
  obtain ⟨t, ht, hinv⟩ := h.call hc
  rw [hrun] at ht
  exact Option.some.inj ht ▸ hinv

theorem HeapState.Inv.alloc (h : s.Inv ops) (hsize : size.toNat ≤ 0xFFFFE000)
    (hrun : s.alloc ops size k = some (ptr, s')) :
    s'.Inv ops ∧ s'.live = allocated ptr size ++ s.live := by
  refine ⟨h.step (c := .alloc size k) hsize (HeapState.alloc_run hrun), ?_⟩
  obtain ⟨r, _, heq⟩ := Option.map_eq_some_iff.mp hrun
  obtain ⟨rfl, rfl⟩ := Prod.mk.inj heq
  rfl

/-- The manager is used by others, and the heap keeps the ranges it has. -/
theorem HeapState.Inv.vmm (h : s.Inv ops) {v : V} (hok : ops.Ok v)
    (hkeep : ∀ r n, ops.Given s.vmm r n → ops.Given v r n) :
    HeapState.Inv ops { s with vmm := v } := by
  obtain ⟨rs, B, hk, hl⟩ := h
  exact ⟨rs, B, ⟨hok, hk.ring, hk.pending, hk.region, fun r hr => hkeep _ _ (hk.given r hr), hk.apart⟩, hl⟩

/-- The blocks of the heap. -/
structure HeapState.Sound (s : HeapState V) : Prop where
  nodup : (s.live.map Prod.fst).Nodup
  aligned : ∀ a ∈ s.live, a.1 ≠ 0 ∧ a.1.toNat % 16 = 0
  apart : s.live.Pairwise fun a c => Apart a.1.toNat a.2.toNat c.1.toNat c.2.toNat

theorem HeapState.Inv.sound (h : s.Inv ops) : s.Sound := by
  obtain ⟨rs, B, hk, hl⟩ := h
  have ha := hk.liveApart hl
  refine ⟨hl.nodup, fun a hmem => ⟨fun h0 => ?_, ha.aligned a hmem⟩, ha.apart⟩
  obtain ⟨r, hr, b, hb, hh⟩ := hl.block a hmem
  have hpay := (hk.payload hr hb hh).1
  rw [h0] at hpay
  exact absurd hpay (by simp)

/-- A pointer that is free leaves the others. -/
theorem filter_perm {a : U32 × U32} (hn : (ls.map Prod.fst).Nodup) (hp : ls.Perm (a :: rest)) :
    (ls.filter fun x => x.1 ≠ a.1).Perm rest := by
  have hn' := (hp.map Prod.fst).nodup_iff.mp hn
  rw [List.map_cons, List.nodup_cons] at hn'
  refine (hp.filter _).trans (List.Perm.of_eq ?_)
  rw [List.filter_cons_of_neg (by simp), List.filter_eq_self]
  intro x hx
  exact decide_eq_true fun he => hn'.1 (he ▸ List.mem_map_of_mem hx)

/-- **`kfree`** of a block that is held. -/
theorem HeapState.Inv.free {a : U32 × U32} (h : s.Inv ops) (hp : s.live.Perm (a :: rest))
    (hrun : s.free ops a.1 = some s') : s'.Inv ops ∧ s'.live.Perm rest := by
  refine ⟨h.step (c := .free a.1) trivial (HeapState.free_run hrun), ?_⟩
  obtain ⟨r, _, rfl⟩ := Option.map_eq_some_iff.mp hrun
  exact filter_perm h.sound.nodup hp

/-! ## What a process holds -/

/-- The size of the bitmap of `proc->vmm`. -/
def windowBitmapSize : U32 := 0x18000

/-- What `vmm_init` asks for. -/
example : (vmmSizes zeroVmm uvirt uvirtEnd).map Vmm.bitmapSize = some windowBitmapSize := by decide

/-- The blocks of a process: itself, its stack, and the bitmap of its window. -/
def Process.held (x : Process) (p bitmap : U32) : List (U32 × U32) :=
  (p, sizeofProcess) :: (allocated x.stack defaultStack ++ allocated bitmap windowBitmapSize)

/-- A process that waits to be created holds itself only, and the others what their
flags say. -/
structure Process.Holds (x : Process) (bitmap : U32) : Prop where
  waiting : x.Has procFlagCreate → x.stack = 0 ∧ bitmap = 0
  stack : x.stack ≠ 0 → x.Has procFlagStack
  heap : bitmap ≠ 0 → x.Has procFlagHeap

/-- What all processes hold. -/
def holdings (t : Sched) (bitmap : U32 → U32) (live : List U32) : List (U32 × U32) :=
  live.flatMap fun p => (t.procs p).held p (bitmap p)

/-- The fields that it depends on. -/
structure SameHold (t t' : Sched) (q : U32) : Prop where
  stack : (t'.procs q).stack = (t.procs q).stack
  has : ∀ mask, procFlagKill &&& mask = 0 → ((t'.procs q).Has mask ↔ (t.procs q).Has mask)

variable {y : Symbols} {t t' : Sched} {p q b : U32} {bm bm' : U32 → U32} {live : List U32}

theorem Steady.sameHold (h : Steady t t' q) : SameHold t t' q := ⟨h.stack, fun _ _ => has_congr h.flags⟩

theorem SameHold.held (h : SameHold t t' q) (b : U32) :
    (t'.procs q).held q b = (t.procs q).held q b := by
  rw [Process.held, Process.held, h.stack]

theorem SameHold.holds (h : SameHold t t' q) (hq : (t.procs q).Holds b) : (t'.procs q).Holds b where
  waiting := fun hc => by
    rw [h.stack]
    exact hq.waiting ((h.has _ (by decide)).mp hc)
  stack := fun h0 => (h.has _ (by decide)).mpr (hq.stack (h.stack ▸ h0))
  heap := fun h0 => (h.has _ (by decide)).mpr (hq.heap h0)

/-- What is held stays so, if each process keeps its own. -/
theorem holdings_congr (h : ∀ q ∈ live, (t'.procs q).held q (bm' q) = (t.procs q).held q (bm q)) :
    holdings t' bm' live = holdings t bm live := List.flatMap_congr h

/-- What one process holds, and what the others do. -/
theorem holdings_erase (hp : p ∈ live) :
    (holdings t bm live).Perm ((t.procs p).held p (bm p) ++ holdings t bm (live.erase p)) :=
  (List.perm_cons_erase hp).flatMap_right _

/-- One process has changed what it holds. -/
theorem holdings_change (hn : live.Nodup) (hp : p ∈ live)
    (h : ∀ q ∈ live, q ≠ p → (t'.procs q).held q (bm' q) = (t.procs q).held q (bm q)) :
    (holdings t' bm' live).Perm ((t'.procs p).held p (bm' p) ++ holdings t bm (live.erase p)) := by
  refine (holdings_erase hp).trans (List.Perm.of_eq (congrArg _ (holdings_congr fun q hq => ?_)))
  have hq' := (hn.mem_erase_iff).mp hq
  exact h q hq'.2 hq'.1

/-! ## What the calls of the scheduler keep -/

/-- A process that is registered holds itself only. -/
theorem procRegister_held (t : Sched) (hp : p ≠ 0) (path entry flags : U32) :
    ((procRegister t p path entry flags).procs p).stack = 0 ∧
      ((procRegister t p path entry flags).procs p).flags = flags ||| procFlagCreate := by
  simp only [procRegister, if_neg hp]
  obtain ⟨_, hflags, hstack⟩ := Process.core_eq (procmanAppend_core _ .inactive hp p)
  rw [hflags, hstack]
  constructor
  · simp only [Sched.setProc_procs, if_true]
    rfl
  · simp only [Sched.setProc_procs, if_true]

/-- `create_proc` gives it the stack. -/
theorem createProc_held (y : Symbols) (t : Sched) (hp : p ≠ 0) (stack pd : U32) :
    ((createProc y t p stack pd).2.procs p).stack
        = (if (t.procs p).Has procFlagStack then stack else 0) ∧
      ∀ mask, ~~~procFlagCreate &&& mask = mask →
        (((createProc y t p stack pd).2.procs p).Has mask ↔ (t.procs p).Has mask) := by
  have hs : (openProc y (t.procs p)).Has procFlagStack ↔ (t.procs p).Has procFlagStack :=
    openProc_has y (t.procs p) (by decide)
  by_cases h : (t.procs p).Has procFlagStack ∧ stack = 0
  · simp only [createProc]
    rw [if_pos ⟨hs.mpr h.1, h.2⟩, Sched.setProc_procs, if_pos rfl, if_pos h.1]
    exact ⟨h.2.symm, fun mask hm => openProc_has y (t.procs p) hm⟩
  · simp only [createProc]
    rw [if_neg fun hc => h ⟨hs.mp hc.1, hc.2⟩]
    generalize hx : setupProc y (openProc y (t.procs p)) stack t.active.count pd = x
    generalize hu : ({ t.setProc p x with
      mem := _, active := { t.active with count := t.active.count + 1 } } : Sched) = u
    have hup : u.procs p = x := by
      rw [← hu]
      show (t.setProc p x).procs p = x
      rw [Sched.setProc_procs, if_pos rfl]
    have hmove := moveProc_steady u .inactive .active hp p
    have hflags : x.flags = (openProc y (t.procs p)).flags := by
      rw [← hx]
      exact setupProc_flags y _ _ _ _
    refine ⟨?_, fun mask hm => ?_⟩
    · rw [hmove.stack, hup, ← hx]
      by_cases h' : (t.procs p).Has procFlagStack
      · rw [if_pos h', setupProc_stack y (hs.mpr h')]
      · rw [if_neg h']
        simp only [setupProc, if_neg (mt hs.mp h')]
    · rw [has_congr hmove.flags, hup, has_congr hflags]
      exact openProc_has y (t.procs p) hm

/-- Unloading sets a flag that says nothing of memory. -/
theorem procDeregister_sameHold (t : Sched) (p q : U32) : SameHold t (procDeregister t p) q := by
  by_cases hp : p = 0
  · rw [procDeregister, if_pos hp]
    exact ⟨rfl, fun _ _ => Iff.rfl⟩
  by_cases hk : (t.procs p).Has procFlagKill
  · rw [procDeregister, if_neg hp, if_pos hk]
    exact ⟨rfl, fun _ _ => Iff.rfl⟩
  simp only [procDeregister, if_neg hp, if_neg hk]
  have hmove := moveProc_steady t .active .inactive hp
  generalize procmanAppend (procmanRemove t .active p) .inactive p = u at hmove
  by_cases hq : q = p
  · subst hq
    refine ⟨?_, fun mask hm => ?_⟩
    · rw [Sched.setProc_procs, if_pos rfl]
      exact (hmove q).stack
    · have hflags : ((u.procs q).flags ||| procFlagKill) &&& mask = (t.procs q).flags &&& mask := by
        rw [BitVec.and_or_distrib_right, hm, (hmove q).flags]
        exact BitVec.or_zero
      rw [Sched.setProc_procs, if_pos rfl, Process.Has, Process.Has, hflags]
  · exact ((hmove q).trans (steady_setProc hq)).sameHold

/-- Of a process only its ticks change. -/
theorem schedulerSwitch_steady (t : Sched) (q : U32) : Steady t (schedulerSwitch t).2 q := by
  have hchoose : (chooseCurrent t).procs = t.procs := by
    rw [chooseCurrent]
    split <;> rfl
  have hstart : Steady t (chooseCurrent t) q := ⟨by rw [hchoose], by rw [hchoose], by rw [hchoose]⟩
  have hupdate : Steady t (processUpdate (chooseCurrent t) (chooseCurrent t).active.current).2 q :=
    hstart.trans ((processUpdate_ticked _ _).steady q)
  rw [schedulerSwitch]
  split
  · exact ⟨rfl, rfl, rfl⟩
  · simp only
    split
    · exact ⟨hupdate.context, hupdate.flags, hupdate.stack⟩
    · exact hupdate

/-- A tick changes contexts and ticks. -/
theorem RunState.tick_sameHold (r : RunState) (tick : Tick) (q : U32) :
    SameHold r.sched (r.tick tick).sched q := by
  have hswitch := schedulerSwitch_steady r.sched q
  rw [RunState.tick]
  split
  · next u hrun =>
      rw [hrun] at hswitch
      exact hswitch.sameHold
  · next current next u hrun =>
      rw [hrun] at hswitch
      by_cases hq : q = current
      · subst hq
        refine ⟨?_, fun mask _ => ?_⟩
        · rw [← hswitch.stack, Sched.setProc_procs, if_pos rfl]
        · rw [← has_congr hswitch.flags, Sched.setProc_procs, if_pos rfl]
          exact Iff.rfl
      · exact (hswitch.trans (steady_setProc hq)).sameHold

/-! ## The system -/

/-- The heap, the scheduler, the bitmap of each process, and the blocks that others
hold. -/
structure OwnedRun (V : Type) where
  heap : HeapState V
  run : RunState
  bitmap : U32 → U32
  others : List (U32 × U32)

inductive OwnedCall (V : Type) where
  | load (user : Bool) (path entry : U32)
  | unload (proc : U32)
  | create (proc pd : U32)
  | destroy (proc : U32)
  | tick (t : Tick)
  /-- `kmalloc` and `kfree` by others. -/
  | alloc (size : U32) (contiguous : Bool)
  | free (ptr : U32)
  /-- Others use the manager: `pgd_create_pd`, `vmm_alloc`. -/
  | vmm (v : V)

/-- `proc->stack = alloc(DEFAULT_STACK)` -/
def allocStack (ops : VmmOps V) (h : HeapState V) (x : Process) : Option (U32 × HeapState V) :=
  if x.Has procFlagStack then
    if x.Typed then h.alloc ops defaultStack true else none
  else some (0, h)

/-- The bitmap of `vmm_init`, which must be there.  Without a stack `create_proc` has
returned before. -/
def allocBitmap (ops : VmmOps V) (h : HeapState V) (x : Process) (stack : U32) :
    Option (U32 × HeapState V) :=
  if x.Has procFlagStack ∧ stack = 0 then some (0, h)
  else if x.Has procFlagHeap then
    (h.alloc ops windowBitmapSize true).bind fun r => if r.1 = 0 then none else some r
  else some (0, h)

/-- `vmm_destroy(&proc->vmm, kfree)`, as far as the heap goes. -/
def freeBitmap (ops : VmmOps V) (h : HeapState V) (x : Process) (bitmap : U32) :
    Option (HeapState V) :=
  if x.Has procFlagHeap then
    if bitmap = 0 then none else h.free ops bitmap
  else some h

def freeStack (ops : VmmOps V) (h : HeapState V) (x : Process) : Option (HeapState V) :=
  if x.Has procFlagStack ∧ x.stack ≠ 0 then
    if x.Typed then h.free ops x.stack else none
  else some h

/-- A call of the scheduler, in the system. -/
def OwnedRun.calls (y : Symbols) (k : OwnedRun V) (h : HeapState V) (c : SchedCall)
    (bitmap : U32 → U32) : OwnedRun V :=
  { k with heap := h, run := (Event.call c).run y k.run, bitmap := bitmap }

def OwnedCall.run (ops : VmmOps V) (y : Symbols) (k : OwnedRun V) : OwnedCall V → Option (OwnedRun V)
  | .load user path entry => do
      let (proc, h) ← k.heap.alloc ops sizeofProcess true
      pure (k.calls y h (.load user proc path entry) (update k.bitmap proc 0))
  | .unload proc => some (k.calls y k.heap (.unload proc) k.bitmap)
  | .create proc pd => do
      let x := k.run.sched.procs proc
      let (stack, h) ← allocStack ops k.heap x
      let (bitmap, h) ← allocBitmap ops h x stack
      pure (k.calls y h (.create proc stack pd) (update k.bitmap proc bitmap))
  | .destroy proc => do
      let x := k.run.sched.procs proc
      let h ← freeBitmap ops k.heap x (k.bitmap proc)
      let h ← freeStack ops h x
      let h ← h.free ops proc
      pure (k.calls y h (.destroy proc) k.bitmap)
  | .tick t => some { k with run := k.run.tick t }
  | .alloc size contiguous => do
      let (ptr, h) ← k.heap.alloc ops size contiguous
      pure { k with heap := h, others := allocated ptr size ++ k.others }
  | .free ptr => do
      let h ← k.heap.free ops ptr
      pure { k with heap := h, others := k.others.filter fun a => a.1 ≠ ptr }
  | .vmm v => some { k with heap := { k.heap with vmm := v } }

/-- How the scheduler process calls; others free what they hold, and leave the heap
the ranges it has. -/
def OwnedCall.Legal (ops : VmmOps V) (k : OwnedRun V) : OwnedCall V → Prop
  | .unload proc => proc = 0 ∨ proc ∈ k.run.live
  | .create proc _ => k.run.sched.Scanned proc ∧ (k.run.sched.procs proc).Has procFlagCreate
  | .destroy proc => k.run.sched.Scanned proc ∧ ¬ (k.run.sched.procs proc).Has procFlagCreate ∧
      (k.run.sched.procs proc).Has procFlagServiceMask
  | .alloc size _ => size.toNat ≤ 0xFFFFE000
  | .free ptr => ptr ∈ k.others.map Prod.fst
  | .vmm v => ops.Ok v ∧ ∀ r n, ops.Given k.heap.vmm r n → ops.Given v r n
  | _ => True

def OwnedStep (ops : VmmOps V) (y : Symbols) (c : OwnedCall V) (k k' : OwnedRun V) : Prop :=
  c.Legal ops k ∧ c.run ops y k = some k'

/-- As for runs of the scheduler: the running process is not unloaded, and a user that
is interrupted has its stack where its context has it. -/
def OwnedCall.Orderly (c : OwnedCall V) (k : OwnedRun V) : Prop :=
  match c with
  | .unload proc => (Event.call (.unload proc)).Orderly k.run
  | .tick t => (Event.tick t).Orderly k.run
  | _ => True

/-- `scheduler_init`, where nothing that it allocates is missing. -/
def ownedInit (ops : VmmOps V) (y : Symbols) (h : HeapState V) (t : Sched) : Option (OwnedRun V) := do
  let (kinit, h) ← h.alloc ops sizeofProcess true
  let (idle, h) ← h.alloc ops sizeofProcess true
  let (idleStack, h) ← h.alloc ops defaultStack true
  let (sched, h) ← h.alloc ops sizeofProcess true
  let (schedStack, h) ← h.alloc ops defaultStack true
  let (bitmap, h) ← h.alloc ops windowBitmapSize true
  if kinit = 0 ∨ idle = 0 ∨ idleStack = 0 ∨ sched = 0 ∨ schedStack = 0 ∨ bitmap = 0 then none
  else
    let state := schedulerInit y t kinit idle sched idleStack schedStack
    pure ⟨h, ⟨⟨state, initProcs kinit idle sched⟩, kinit, fun _ => none⟩,
      update (fun _ => 0) sched bitmap, []⟩

/-- `heap_init`, and then `scheduler_init`. -/
def OwnedStart (ops : VmmOps V) (y : Symbols) (k : OwnedRun V) : Prop :=
  ∃ h t, HeapStart ops h ∧ ownedInit ops y h t = some k

/-- The states of the runs. -/
def OwnedReach (ops : VmmOps V) (y : Symbols) : OwnedRun V → Prop :=
  Reach (OwnedStart ops y) (Guarded OwnedCall.Orderly (OwnedStep ops y))

/-! ## The books -/

/-- The blocks of the heap are those that processes and others hold. -/
structure Booked (ops : VmmOps V) (t : Sched) (bm : U32 → U32) (live : List U32) (h : HeapState V)
    (others : List (U32 × U32)) : Prop where
  heap : h.Inv ops
  nodup : live.Nodup
  owned : h.live.Perm (holdings t bm live ++ others)
  holds : ∀ p ∈ live, (t.procs p).Holds (bm p)

variable {h h' h'' : HeapState V} {x : Process} {stack bitmap pd : U32} {others : List (U32 × U32)}

theorem Booked.mem (hb : Booked ops t bm live h others) (hp : p ∈ live) {a : U32 × U32}
    (ha : a ∈ (t.procs p).held p (bm p)) : a ∈ h.live :=
  hb.owned.mem_iff.mpr (List.mem_append_left _ (List.mem_flatMap.mpr ⟨p, hp, ha⟩))

/-- A process is not at `NULL`. -/
theorem Booked.ne_zero (hb : Booked ops t bm live h others) (hp : p ∈ live) : p ≠ 0 :=
  (hb.heap.sound.aligned _ (hb.mem hp List.mem_cons_self)).1

/-- What is allocated was held by nobody. -/
theorem HeapState.Sound.fresh (hs : h'.Sound) (hlive : h'.live = allocated ptr size ++ h.live)
    (h0 : ptr ≠ 0) {n : U32} : (ptr, n) ∉ h.live := by
  intro hmem
  have hn := hs.nodup
  rw [hlive, allocated, if_neg h0, List.singleton_append, List.map_cons, List.nodup_cons] at hn
  exact hn.1 (List.mem_map.mpr ⟨_, hmem, rfl⟩)

theorem mem_allocated {a : U32 × U32} : a ∈ allocated ptr size ↔ ptr ≠ 0 ∧ a = (ptr, size) := by
  rw [allocated]
  split
  · next h0 => exact ⟨fun ha => (nomatch ha), fun ha => absurd h0 ha.1⟩
  · next h0 => exact ⟨fun ha => ⟨h0, List.mem_singleton.mp ha⟩, fun ha => List.mem_singleton.mpr ha.2⟩

theorem ne_add_four {a b : U32} (ha : a.toNat % 16 = 0) (hb : b.toNat % 16 = 0) : a ≠ b + 4 := by
  intro he
  have hn := congrArg BitVec.toNat he
  rw [BitVec.toNat_add, show (4 : U32).toNat = 4 from rfl] at hn
  omega

/-- The words of two stacks are apart where the stacks are. -/
theorem entryWords_disjoint {a b : U32} (ha : a.toNat % 16 = 0) (hb : b.toNat % 16 = 0) (hne : a ≠ b) :
    ∀ v ∈ entryWords a, v ∉ entryWords b := by
  have htop : ∀ {c d e : U32}, entryTop c = entryTop d + e → c = d + e := fun {c d e} h => by
    rw [entryTop, entryTop] at h
    bv_omega
  have hzero : entryTop a ≠ entryTop b := fun h => hne (by
    rw [entryTop, entryTop] at h
    bv_omega)
  intro v hv hv'
  rw [entryWords, List.mem_cons, List.mem_singleton] at hv hv'
  rcases hv with rfl | rfl <;> rcases hv' with hv' | hv'
  · exact hzero hv'
  · exact ne_add_four ha hb (htop hv')
  · exact ne_add_four hb ha (htop hv'.symm)
  · exact hzero (by bv_omega)

/-! ## What the calls allocate -/

theorem allocStack_spec (hi : h.Inv ops) (hrun : allocStack ops h x = some (stack, h')) :
    h'.Inv ops ∧ h'.live = allocated stack defaultStack ++ h.live ∧
      (stack ≠ 0 → x.Has procFlagStack) := by
  rw [allocStack] at hrun
  split at hrun
  · next hs =>
      split at hrun
      · obtain ⟨hi', hl⟩ := hi.alloc (by decide) hrun
        exact ⟨hi', hl, fun _ => hs⟩
      · cases hrun
  · cases hrun
    exact ⟨hi, rfl, fun h0 => absurd rfl h0⟩

theorem allocBitmap_spec (hi : h.Inv ops) (hrun : allocBitmap ops h x stack = some (bitmap, h')) :
    h'.Inv ops ∧ h'.live = allocated bitmap windowBitmapSize ++ h.live ∧
      (bitmap ≠ 0 → x.Has procFlagHeap) := by
  rw [allocBitmap] at hrun
  split at hrun
  · cases hrun
    exact ⟨hi, rfl, fun h0 => absurd rfl h0⟩
  split at hrun
  · next hh =>
      obtain ⟨r, hr, hret⟩ := Option.bind_eq_some_iff.mp hrun
      split at hret
      · cases hret
      · cases hret
        obtain ⟨hi', hl⟩ := hi.alloc (by decide) hr
        exact ⟨hi', hl, fun _ => hh⟩
  · cases hrun
    exact ⟨hi, rfl, fun h0 => absurd rfl h0⟩

theorem freeBitmap_spec (hi : h.Inv ops) (hx : x.Holds bitmap)
    (hp : h.live.Perm (allocated bitmap windowBitmapSize ++ rest))
    (hrun : freeBitmap ops h x bitmap = some h') : h'.Inv ops ∧ h'.live.Perm rest := by
  rw [freeBitmap] at hrun
  split at hrun
  · split at hrun
    · cases hrun
    · next h0 =>
        rw [allocated, if_neg h0, List.singleton_append] at hp
        exact hi.free hp hrun
  · next hno =>
      cases hrun
      have h0 : bitmap = 0 := by_contra fun h0 => hno (hx.heap h0)
      rw [allocated, if_pos h0] at hp
      exact ⟨hi, hp⟩

theorem freeStack_spec (hi : h.Inv ops) (hx : x.Holds bitmap)
    (hp : h.live.Perm (allocated x.stack defaultStack ++ rest))
    (hrun : freeStack ops h x = some h') : h'.Inv ops ∧ h'.live.Perm rest := by
  rw [freeStack] at hrun
  split at hrun
  · next hs =>
      split at hrun
      · rw [allocated, if_neg hs.2, List.singleton_append] at hp
        exact hi.free hp hrun
      · cases hrun
  · next hno =>
      cases hrun
      have h0 : x.stack = 0 := by_contra fun h0 => hno ⟨hx.stack h0, h0⟩
      rw [allocated, if_pos h0] at hp
      exact ⟨hi, hp⟩

/-! ## The books after a call -/

/-- A process that waits holds itself only. -/
theorem Process.Holds.held_waiting (hx : x.Holds bitmap) (hc : x.Has procFlagCreate) (p : U32) :
    x.held p bitmap = [(p, sizeofProcess)] := by
  obtain ⟨hs, hb⟩ := hx.waiting hc
  rw [Process.held, allocated, if_pos hs, allocated, if_pos hb]
  rfl

theorem Booked.same (hb : Booked ops t bm live h others) (hsame : ∀ q ∈ live, SameHold t t' q) :
    Booked ops t' bm live h others where
  heap := hb.heap
  nodup := hb.nodup
  owned := by
    rw [holdings_congr fun q hq => (hsame q hq).held _]
    exact hb.owned
  holds := fun q hq => (hsame q hq).holds (hb.holds q hq)

/-- **`proc_register`**: the process is new. -/
theorem Booked.register (hb : Booked ops t bm live h others)
    (hrun : h.alloc ops sizeofProcess true = some (p, h')) (path entry flags : U32) :
    p ∉ live ∧ Booked ops (procRegister t p path entry flags) (update bm p 0)
      (if p = 0 then live else p :: live) h' others := by
  obtain ⟨hh, hlive⟩ := hb.heap.alloc (by decide) hrun
  have hnew : p ∉ live := fun hp =>
    hh.sound.fresh hlive (hb.ne_zero hp) (hb.mem hp List.mem_cons_self)
  have hothers : ∀ q ∈ live, SameHold t (procRegister t p path entry flags) q ∧ update bm p 0 q = bm q :=
    fun q hq => by
      have hne : q ≠ p := fun he => hnew (he ▸ hq)
      exact ⟨(procRegister_steady t p path entry flags hne).sameHold, update_of_ne hne _ _⟩
  have hheld : holdings (procRegister t p path entry flags) (update bm p 0) live = holdings t bm live :=
    holdings_congr fun q hq => by rw [(hothers q hq).2, (hothers q hq).1.held]
  have hholds : ∀ q ∈ live, ((procRegister t p path entry flags).procs q).Holds (update bm p 0 q) :=
    fun q hq => by
      rw [(hothers q hq).2]
      exact (hothers q hq).1.holds (hb.holds q hq)
  refine ⟨hnew, ?_⟩
  by_cases h0 : p = 0
  · rw [if_pos h0]
    refine ⟨hh, hb.nodup, ?_, hholds⟩
    rw [hlive, hheld, allocated, if_pos h0]
    exact hb.owned
  · rw [if_neg h0]
    have hstack := (procRegister_held t h0 path entry flags).1
    refine ⟨hh, List.nodup_cons.mpr ⟨hnew, hb.nodup⟩, ?_, fun q hq => ?_⟩
    · rw [holdings, List.flatMap_cons, ← holdings, hheld, hlive, Process.held, hstack, update_self,
        allocated, if_neg h0, allocated, if_pos rfl, allocated, if_pos rfl]
      exact hb.owned.cons _
    · rcases List.mem_cons.mp hq with rfl | hq
      · rw [update_self]
        exact ⟨fun _ => ⟨hstack, rfl⟩, fun hne => absurd hstack hne, fun hne => absurd rfl hne⟩
      · exact hholds q hq

theorem perm_gives {a : U32 × U32} (A B R O : List (U32 × U32)) (hp : ls.Perm ([a] ++ R ++ O)) :
    (B ++ (A ++ ls)).Perm (a :: (A ++ B) ++ R ++ O) := by
  rw [List.perm_iff_count] at hp ⊢
  intro c
  have := hp c
  simp only [List.count_append, List.count_cons, List.count_nil] at this ⊢
  omega

/-- **`create_proc`**: a new stack is nobody's. -/
theorem Booked.create (y : Symbols) (pd : U32) (hb : Booked ops t bm live h others) (hp : p ∈ live)
    (hcreate : (t.procs p).Has procFlagCreate)
    (hs : allocStack ops h (t.procs p) = some (stack, h'))
    (hbm : allocBitmap ops h' (t.procs p) stack = some (bitmap, h'')) :
    t.Apart live p stack ∧
      Booked ops (createProc y t p stack pd).2 (update bm p bitmap) live h'' others := by
  have hp0 := hb.ne_zero hp
  obtain ⟨hh, hlive, hstack⟩ := allocStack_spec hb.heap hs
  obtain ⟨hh', hlive', hbitmap⟩ := allocBitmap_spec hh hbm
  refine ⟨fun q hq _ hhas hq0 => ?_, ?_⟩
  · have hmem : ((t.procs q).stack, defaultStack) ∈ h.live :=
      hb.mem hq (List.mem_cons_of_mem _ (List.mem_append_left _ (mem_allocated.mpr ⟨hq0, rfl⟩)))
    refine entryWords_disjoint (hb.heap.sound.aligned _ hmem).2 ?_ fun he => ?_
    · by_cases h0 : stack = 0
      · rw [h0]
        rfl
      · refine (hh.sound.aligned (stack, defaultStack) ?_).2
        rw [hlive]
        exact List.mem_append_left _ (mem_allocated.mpr ⟨h0, rfl⟩)
    · rw [he] at hmem hq0
      exact hh.sound.fresh hlive hq0 hmem
  obtain ⟨hstack', hhas⟩ := createProc_held y t hp0 stack pd
  obtain ⟨hnot, _, hcases⟩ := createProc_entry y t hp0 stack pd
  have hothers : ∀ q, q ≠ p → Steady t (createProc y t p stack pd).2 q :=
    hcases.elim (fun h => h.2.1) fun h => h.2.others
  have hgiven : ((createProc y t p stack pd).2.procs p).stack = stack := by
    rw [hstack']
    split
    · rfl
    · next hno => exact by_contra fun h0 => hno (hstack (Ne.symm h0))
  refine ⟨hh', hb.nodup, ?_, fun q hq => ?_⟩
  · have hbefore := hb.owned.trans ((holdings_erase hp).append_right others)
    rw [(hb.holds p hp).held_waiting hcreate] at hbefore
    have hkeep : ∀ q ∈ live, q ≠ p → ((createProc y t p stack pd).2.procs q).held q (update bm p bitmap q)
        = (t.procs q).held q (bm q) := fun q _ hne => by
      rw [update_of_ne hne, (hothers q hne).sameHold.held]
    refine List.Perm.trans ?_ ((holdings_change hb.nodup hp hkeep).append_right others).symm
    rw [hlive', hlive, Process.held, hgiven, update_self]
    exact perm_gives _ _ _ _ hbefore
  · by_cases hq' : q = p
    · subst hq'
      rw [update_self]
      refine ⟨fun hc => absurd hc hnot, fun h0 => ?_, fun h0 => ?_⟩
      · rw [hgiven] at h0
        exact (hhas _ (by decide)).mpr (hstack h0)
      · exact (hhas _ (by decide)).mpr (hbitmap h0)
    · rw [update_of_ne hq']
      exact (hothers q hq').sameHold.holds (hb.holds q hq)

theorem perm_takes {a : U32 × U32} (A B R O : List (U32 × U32)) (hp : ls.Perm (a :: (A ++ B) ++ R ++ O)) :
    ls.Perm (B ++ (A ++ a :: (R ++ O))) := by
  rw [List.perm_iff_count] at hp ⊢
  intro c
  have := hp c
  simp only [List.count_append, List.count_cons] at this ⊢
  omega

/-- **`destroy_proc`** gives back what the process holds. -/
theorem Booked.destroy (hb : Booked ops t bm live h others) (hp : p ∈ live)
    {h1 h2 h3 : HeapState V} (hbm : freeBitmap ops h (t.procs p) (bm p) = some h1)
    (hs : freeStack ops h1 (t.procs p) = some h2) (hf : h2.free ops p = some h3) :
    Booked ops (destroyProc t p).2 bm (live.filter fun q => q ≠ p) h3 others := by
  have hp0 := hb.ne_zero hp
  have hsame : ∀ q, SameHold t (destroyProc t p).2 q := fun q => by
    rw [destroyProc_snd hp0]
    exact (Steady.of_core (procmanRemove_core t .inactive hp0 q)).sameHold
  have hall := perm_takes _ _ _ _ (hb.owned.trans ((holdings_erase hp).append_right others))
  have hx := hb.holds p hp
  obtain ⟨hh1, hl1⟩ := freeBitmap_spec hb.heap hx hall hbm
  obtain ⟨hh2, hl2⟩ := freeStack_spec hh1 hx hl1 hs
  obtain ⟨hh3, hl3⟩ := hh2.free (a := (p, sizeofProcess)) hl2 hf
  have herase : (live.filter fun q => q ≠ p) = live.erase p := by
    rw [hb.nodup.erase_eq_filter]
    exact List.filter_congr fun q _ => Bool.eq_iff_iff.mpr (by simp)
  rw [herase]
  have hsub : ∀ q ∈ live.erase p, q ∈ live := fun q hq => List.mem_of_mem_erase hq
  refine ⟨hh3, hb.nodup.erase p, ?_, fun q hq => (hsame q).holds (hb.holds q (hsub q hq))⟩
  rw [holdings_congr fun q _ => (hsame q).held _]
  exact hl3

/-! ## The steps -/

/-- Processes begin as they should, and come back as they should. -/
structure RunState.Sane (y : Symbols) (s : RunState) : Prop where
  sound : s.Sound y
  tracked : s.Tracked

theorem RunState.Sane.step {e : Event} {s s' : RunState} (h : s.Sane y) (ho : e.Orderly s)
    (hapart : ∀ p stack pd, e = .call (.create p stack pd) → s.sched.Apart s.live p stack)
    (hstep : RunStep y e s s') : s'.Sane y :=
  ⟨h.sound.step ⟨ho.removable, hapart⟩ hstep, h.tracked.step ho hstep⟩

structure OwnedRun.Inv (ops : VmmOps V) (y : Symbols) (k : OwnedRun V) : Prop where
  sane : k.run.Sane y
  booked : Booked ops k.run.sched k.bitmap k.run.live k.heap k.others

variable {k k' : OwnedRun V}

/-- A call of the system is one of the scheduler. -/
theorem OwnedRun.Inv.event (hi : k.Inv ops y) {c : SchedCall} (hne : c ≠ .switch)
    (hlegal : c.Legal k.run.toSchedState) (ho : (Event.call c).Orderly k.run)
    (hapart : ∀ p stack pd, c = .create p stack pd → k.run.sched.Apart k.run.live p stack) :
    ((Event.call c).run y k.run).Sane y :=
  hi.sane.step ho (fun p s d heq => hapart p s d (Event.call.inj heq)) ⟨⟨hne, hlegal⟩, rfl⟩

theorem RunState.Sound.scanned {r : RunState} (hr : r.Sound y) (hp : r.sched.Scanned p) : p ∈ r.live := by
  obtain ⟨xs, ys, hholds, _, _⟩ := hr
  exact (hholds.live p).mpr (Or.inr (hholds.lists.scanned_iff.mp hp))

/-- **One step.** -/
theorem OwnedRun.Inv.step {c : OwnedCall V} (hi : k.Inv ops y) (ho : c.Orderly k)
    (hstep : OwnedStep ops y c k k') : k'.Inv ops y := by
  obtain ⟨hlegal, hrun⟩ := hstep
  have hb := hi.booked
  cases c with
  | load user path entry =>
      obtain ⟨⟨proc, h⟩, halloc, hret⟩ := Option.bind_eq_some_iff.mp hrun
      cases hret
      cases user
      · obtain ⟨hnew, hb'⟩ := hb.register halloc path entry
          (procFlagKernel ||| procFlagStack ||| procFlagHeap)
        exact ⟨hi.event nofun hnew ⟨trivial, nofun⟩ nofun, hb'⟩
      · obtain ⟨hnew, hb'⟩ := hb.register halloc path entry
          (procFlagUser ||| procFlagStack ||| procFlagHeap)
        exact ⟨hi.event nofun hnew ⟨trivial, nofun⟩ nofun, hb'⟩
  | unload proc =>
      cases hrun
      exact ⟨hi.event nofun hlegal ho nofun, hb.same fun q _ => procDeregister_sameHold _ _ q⟩
  | create proc pd =>
      obtain ⟨⟨stack, h⟩, hstack, hrest⟩ := Option.bind_eq_some_iff.mp hrun
      obtain ⟨⟨bitmap, h'⟩, hbitmap, hret⟩ := Option.bind_eq_some_iff.mp hrest
      cases hret
      have hp := hi.sane.sound.scanned hlegal.1
      obtain ⟨hapart, hb'⟩ := hb.create y pd hp hlegal.2 hstack hbitmap
      refine ⟨hi.event nofun hlegal ⟨trivial, nofun⟩ fun p s d heq => ?_, hb'⟩
      cases heq
      exact hapart
  | destroy proc =>
      obtain ⟨h1, hbitmap, hrest⟩ := Option.bind_eq_some_iff.mp hrun
      obtain ⟨h2, hstack, hrest'⟩ := Option.bind_eq_some_iff.mp hrest
      obtain ⟨h3, hfree, hret⟩ := Option.bind_eq_some_iff.mp hrest'
      cases hret
      exact ⟨hi.event nofun hlegal ⟨trivial, nofun⟩ nofun,
        hb.destroy (hi.sane.sound.scanned hlegal.1) hbitmap hstack hfree⟩
  | tick t =>
      cases hrun
      have hsane : (k.run.tick t).Sane y := hi.sane.step (e := .tick t) ho nofun ⟨trivial, rfl⟩
      have hlive : (k.run.tick t).live = k.run.live := by
        rw [RunState.tick]
        split <;> rfl
      refine ⟨hsane, ?_⟩
      show Booked ops (k.run.tick t).sched k.bitmap (k.run.tick t).live k.heap k.others
      rw [hlive]
      exact hb.same fun q _ => k.run.tick_sameHold t q
  | alloc size contiguous =>
      obtain ⟨⟨ptr, h⟩, halloc, hret⟩ := Option.bind_eq_some_iff.mp hrun
      cases hret
      obtain ⟨hh, hlive⟩ := hb.heap.alloc hlegal halloc
      refine ⟨hi.sane, hh, hb.nodup, ?_, hb.holds⟩
      rw [hlive]
      refine (hb.owned.append_left _).trans ?_
      rw [← List.append_assoc, ← List.append_assoc]
      exact List.perm_append_comm.append_right k.others
  | free ptr =>
      obtain ⟨h, hfree, hret⟩ := Option.bind_eq_some_iff.mp hrun
      cases hret
      obtain ⟨a, hmem, rfl⟩ := List.mem_map.mp hlegal
      have hothers := List.perm_cons_erase hmem
      have hall := (hb.owned.trans (hothers.append_left _)).trans List.perm_middle
      obtain ⟨hh, hlive⟩ := hb.heap.free hall hfree
      have hn := (hb.owned.map Prod.fst).nodup_iff.mp hb.heap.sound.nodup
      rw [List.map_append] at hn
      have hfilter := filter_perm (List.nodup_append.mp hn).2.1 hothers
      exact ⟨hi.sane, hh, hb.nodup, hlive.trans (hfilter.symm.append_left _), hb.holds⟩
  | vmm v =>
      cases hrun
      exact ⟨hi.sane, hb.heap.vmm hlegal.1 hlegal.2, hb.nodup, hb.owned, hb.holds⟩

/-! ## `scheduler_init` -/

theorem Booked.perm {live' : List U32} (hb : Booked ops t bm live h others) (hl : live'.Perm live) :
    Booked ops t bm live' h others where
  heap := hb.heap
  nodup := hl.nodup_iff.mpr hb.nodup
  owned := hb.owned.trans ((hl.symm.flatMap_right _).append_right others)
  holds := fun p hp => hb.holds p (hl.mem_iff.mp hp)

/-- A process is registered and created, by what its flags ask for. -/
theorem Booked.spawn (y : Symbols) (hb : Booked ops t bm live h others) (hp : p ≠ 0)
    {h1 h2 h3 : HeapState V} (halloc : h.alloc ops sizeofProcess true = some (p, h1))
    (path entry flags stack bitmap : U32)
    (hs : ∀ x : Process, x.flags = flags ||| procFlagCreate → allocStack ops h1 x = some (stack, h2))
    (hbm : ∀ x : Process, x.flags = flags ||| procFlagCreate →
      allocBitmap ops h2 x stack = some (bitmap, h3)) :
    Booked ops (createProc y (procRegister t p path entry flags) p stack 0).2 (update bm p bitmap)
      (p :: live) h3 others := by
  obtain ⟨_, hb'⟩ := hb.register halloc path entry flags
  obtain ⟨_, hflags⟩ := procRegister_held t hp path entry flags
  rw [if_neg hp] at hb'
  have hcreate : ((procRegister t p path entry flags).procs p).Has procFlagCreate := by
    rw [Process.Has, hflags]
    intro h0
    have hbit := congrArg (fun x : U32 => x.getLsbD 29) h0
    simp [procFlagCreate] at hbit
  have hb'' := (hb'.create y 0 List.mem_cons_self hcreate (hs _ hflags) (hbm _ hflags)).2
  rwa [update_idem] at hb''

/-- Two stacks, with another block between them. -/
theorem HeapState.Inv.stacks_apart {h1 h2 h3 : HeapState V} {q stack' size : U32} {contiguous c c' : Bool}
    (hi : h.Inv ops) (hstack : h.alloc ops defaultStack c = some (stack, h1))
    (hsize : size.toNat ≤ 0xFFFFE000) (hq : h1.alloc ops size contiguous = some (q, h2))
    (hstack' : h2.alloc ops defaultStack c' = some (stack', h3)) (hs : stack ≠ 0) (hs' : stack' ≠ 0) :
    ∀ a ∈ entryWords stack, a ∉ entryWords stack' := by
  obtain ⟨hi1, hl1⟩ := hi.alloc (by decide) hstack
  obtain ⟨hi2, hl2⟩ := hi1.alloc hsize hq
  obtain ⟨hi3, hl3⟩ := hi2.alloc (by decide) hstack'
  have hmem : (stack, defaultStack) ∈ h2.live := by
    rw [hl2, hl1]
    exact List.mem_append_right _ (List.mem_append_left _ (mem_allocated.mpr ⟨hs, rfl⟩))
  have hmem' : (stack', defaultStack) ∈ h3.live := by
    rw [hl3]
    exact List.mem_append_left _ (mem_allocated.mpr ⟨hs', rfl⟩)
  refine entryWords_disjoint (hi2.sound.aligned _ hmem).2 (hi3.sound.aligned _ hmem').2 fun he => ?_
  rw [he] at hmem
  exact hi3.sound.fresh hl3 hs' hmem

theorem OwnedStart.inv (hk : OwnedStart ops y k) : k.Inv ops y := by
  obtain ⟨h0, t, hstart, hinit⟩ := hk
  obtain ⟨⟨kinit, h1⟩, ha1, hinit⟩ := Option.bind_eq_some_iff.mp hinit
  obtain ⟨⟨idle, h2⟩, ha2, hinit⟩ := Option.bind_eq_some_iff.mp hinit
  obtain ⟨⟨idleStack, h3⟩, ha3, hinit⟩ := Option.bind_eq_some_iff.mp hinit
  obtain ⟨⟨sched, h4⟩, ha4, hinit⟩ := Option.bind_eq_some_iff.mp hinit
  obtain ⟨⟨schedStack, h5⟩, ha5, hinit⟩ := Option.bind_eq_some_iff.mp hinit
  obtain ⟨⟨bitmap, h6⟩, ha6, hinit⟩ := Option.bind_eq_some_iff.mp hinit
  dsimp only at ha1 ha2 ha3 ha4 ha5 ha6 hinit
  split at hinit
  · cases hinit
  next hne =>
  simp only [not_or] at hne
  obtain ⟨hkinit, hidle, hidleStack, hsched, hschedStack, hbitmap⟩ := hne
  cases hinit
  let t0 : Sched := { t with active := ⟨0, 0, 0, 0⟩, inactive := ⟨0, 0, 0, 0⟩ }
  have hb0 : Booked ops t0 (fun _ => 0) [] h0 [] :=
    ⟨hstart.inv, List.nodup_nil, by rw [hstart.2.2]; exact .nil, fun _ hp => (nomatch hp)⟩
  have hno : ∀ {x : Process} {f mask : U32}, x.flags = f → f &&& mask = 0 → ¬ x.Has mask :=
    fun hf hm hx => hx (by rw [hf, hm])
  have hhas : ∀ {x : Process} {f mask : U32}, x.flags = f → f &&& mask ≠ 0 → x.Has mask :=
    fun hf hm h0 => hm (by rw [← hf, h0])
  have hkernel : ∀ {x : Process} {f : U32}, x.flags = f → f &&& procFlagTypeMask = procFlagKernel → x.Typed :=
    fun hf hm => Or.inl (by rw [hf, hm])
  -- `.kinit` has neither a stack nor a window
  have hb1 := hb0.spawn y hkinit ha1 y.kinitPath 0 (procFlagKernel ||| procSharedAddrSpace) 0 0
    (fun x hx => if_neg (hno hx (by decide)))
    (fun x hx => by rw [allocBitmap, if_neg fun h => hno hx (by decide) h.1, if_neg (hno hx (by decide))])
  -- `.idle` has a stack
  have hb2 := hb1.spawn y hidle ha2 y.idlePath y.idleProc
    (procFlagKernel ||| procSharedAddrSpace ||| procFlagStack) idleStack 0
    (fun x hx => by
      rw [allocStack, if_pos (hhas hx (by decide)), if_pos (hkernel hx (by decide)), ha3])
    (fun x hx => by rw [allocBitmap, if_neg fun h => hidleStack h.2, if_neg (hno hx (by decide))])
  -- `.scheduler` has both
  have hb3 := hb2.spawn y hsched ha4 y.schedulerPath y.schedulerProc
    (procFlagKernel ||| procSharedAddrSpace ||| procFlagStack ||| procFlagHeap) schedStack bitmap
    (fun x hx => by
      rw [allocStack, if_pos (hhas hx (by decide)), if_pos (hkernel hx (by decide)), ha5])
    (fun x hx => by
      rw [allocBitmap, if_neg fun h => hschedStack h.2, if_pos (hhas hx (by decide)), ha6,
        Option.bind_some, if_neg hbitmap])
  have hprocs : initProcs kinit idle sched = [kinit, idle, sched] := by
    rw [initProcs, if_neg hkinit, if_neg hidle, if_neg hsched]
  have hperm : (initProcs kinit idle sched).Perm [sched, idle, kinit] := by
    rw [hprocs]
    exact (List.reverse_perm [sched, idle, kinit])
  have hb := hb3.perm hperm
  have hapart : ∀ a ∈ entryWords idleStack, a ∉ entryWords schedStack :=
    (hb1.heap.alloc (by decide) ha2).1.stacks_apart ha3 (by decide) ha4 ha5 hidleStack hschedStack
  have hstart : EnterStart y ⟨⟨schedulerInit y t kinit idle sched idleStack schedStack,
      initProcs kinit idle sched⟩, kinit, fun _ => none⟩ :=
    ⟨t, kinit, idle, sched, idleStack, schedStack, hkinit, hidle, hsched, hb.nodup, hapart, rfl⟩
  refine ⟨⟨hstart.sound, hstart.runStart.tracked⟩, ?_⟩
  have hbm : update (update (update (fun _ : U32 => (0 : U32)) kinit 0) idle 0) sched bitmap
      = update (fun _ => 0) sched bitmap := by
    rw [update_eq_self kinit (fun _ : U32 => (0 : U32)), update_eq_self idle (fun _ : U32 => (0 : U32))]
  rw [hbm] at hb
  refine hb.same fun q _ => ?_
  show SameHold _ (schedulerInit y t kinit idle sched idleStack schedStack) q
  simp only [schedulerInit, if_neg hkinit, if_neg hidle, if_neg hsched]
  exact ⟨rfl, fun _ _ => Iff.rfl⟩

theorem OwnedReach.inv (h : OwnedReach ops y k) : k.Inv ops y :=
  Reach.invariant (OwnedRun.Inv ops y) (fun _ hk => hk.inv) (fun _ _ _ hk hstep => hk.step hstep.1 hstep.2) h

/-! ## Runs -/

/-- The live blocks of the heap are apart, and they are those that processes and others
hold, each held once. -/
structure OwnedRun.Accounts (k : OwnedRun V) : Prop where
  owned : k.heap.live.Perm (holdings k.run.sched k.bitmap k.run.live ++ k.others)
  apart : k.heap.live.Pairwise fun a c => Apart a.1.toNat a.2.toNat c.1.toNat c.2.toNat

/-- **The scheduler over the heap.**  In every state of every run whose calls are in
order (`OwnedCall.Orderly`), the live blocks of the heap are the processes, their stacks,
the bitmaps of their windows and the blocks of others, each once; a tick saves into the
process it interrupted and loads the next one with the registers of its last
interruption, or with what `create_proc` filled in. -/
theorem ownedRun_accounts (h : OwnedReach ops y k) :
    k.Accounts ∧ k.run.toSchedState.WellFormed ∧ k.run.Resumes ∧ k.run.Enters y := by
  have hi := h.inv
  refine ⟨⟨hi.booked.owned, hi.booked.heap.sound.apart⟩, ?_⟩
  obtain ⟨xs, ys, hholds, hf⟩ := hi.sane.tracked
  exact ⟨hholds.wellFormed, hf.resumes hholds.lists, hi.sane.sound.enters⟩

/-- A process is loaded over a small heap, others allocate a block, and a tick comes. -/
def ownedCalls : List (OwnedCall U32) :=
  [.load false 0x400 0xC0105000, .alloc 100 false, .tick kernelTick]

def smallOwned : Option (OwnedRun U32) :=
  ownedInit rangeVmm smallSymbols emptyState
    ⟨⟨0, 0, 0, 0⟩, ⟨0, 0, 0, 0⟩, fun _ => newProcess, fun _ => 0⟩

theorem ownedCalls_live :
    (smallOwned.bind fun k => ownedCalls.foldlM (OwnedCall.run rangeVmm smallSymbols) k).map
        (fun k => (k.run.live, k.others, k.heap.live.length))
      = some ([0x100240, 0x100030, 0x1000E0, 0x100190], [(0x32B030, 100)], 8) := by decide +kernel

theorem ownedRun_accounts_one : ∃ k : OwnedRun U32,
    k.run.live = [0x100240, 0x100030, 0x1000E0, 0x100190] ∧ k.others = [(0x32B030, 100)] ∧
      k.Accounts ∧ k.run.Enters smallSymbols := by
  obtain ⟨k', hrun, hlive⟩ := Option.map_eq_some_iff.mp ownedCalls_live
  obtain ⟨k, hinit, hcalls⟩ := Option.bind_eq_some_iff.mp hrun
  have hlegal : ∀ c ∈ ownedCalls, ∀ k : OwnedRun U32, c.Orderly k ∧ c.Legal rangeVmm k := by
    intro c hc k
    simp only [ownedCalls, List.mem_cons, List.not_mem_nil, or_false] at hc
    rcases hc with rfl | rfl | rfl
    · exact ⟨trivial, trivial⟩
    · exact ⟨trivial, by show (100 : U32).toNat ≤ 0xFFFFE000; decide⟩
    · exact ⟨fun _ => Or.inl (by decide), trivial⟩
  have hreach : OwnedReach rangeVmm smallSymbols k' :=
    Reach.foldlM (fun c hc k _ h => ⟨(hlegal c hc k).1, (hlegal c hc k).2, h⟩)
      (.start ⟨_, _, emptyState_start, hinit⟩) hcalls
  obtain ⟨haccounts, _, _, henters⟩ := ownedRun_accounts hreach
  obtain ⟨hprocs, hothers, _⟩ : k'.run.live = _ ∧ k'.others = _ ∧ k'.heap.live.length = 8 := by
    simpa only [Prod.mk.injEq] using hlive
  exact ⟨k', hprocs, hothers, haccounts, henters⟩

end Tomk
