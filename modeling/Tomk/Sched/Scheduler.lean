/-
# `scheduler.c` and `process.c`

The scheduler has two lists of processes, the active and the inactive one.
Processes are kept by their addresses, with the fields that the scheduler uses.

What `kmalloc` and `pgd_create_pd` return is an argument of the functions that
call them: a new process, a stack and a page directory, or `NULL`.  Each of the
two list operations is a critical section, and one step here.
-/
import Tomk.Sched.Cswitch
import Tomk.Lib.DList

namespace Tomk

open Function

/-! ## `process.h` -/

def procFlagKernel : U32 := 0x01

def procFlagUser : U32 := 0x03

def procFlagStack : U32 := 0x04

def procFlagHeap : U32 := 0x08

def procSharedAddrSpace : U32 := 0x10

def procFlagTypeMask : U32 := 0x03

def procFlagCreate : U32 := 0x20000000

def procFlagKill : U32 := 0x40000000

def procFlagServiceMask : U32 := 0xC0000000

/-- `process_t`, with the context and the frame in one, and without the heap,
the manager of its pages and the executable. -/
structure Process where
  context : Context
  id : U32
  entry : U32
  flags : U32
  path : U32
  stack : U32
  ticks : U32
  next : U32
  prev : U32

/-- `flags & mask`. -/
def Process.Has (p : Process) (mask : U32) : Prop := p.flags &&& mask ≠ 0

instance (p : Process) (mask : U32) : Decidable (p.Has mask) := inferInstanceAs (Decidable (_ ≠ _))

/-- The types that `create_proc` and `destroy_proc` have functions for. -/
def Process.Typed (x : Process) : Prop :=
  x.flags &&& procFlagTypeMask = procFlagKernel ∨ x.flags &&& procFlagTypeMask = procFlagUser

instance (x : Process) : Decidable x.Typed := inferInstanceAs (Decidable (_ ∨ _))

/-- `procman_t`. -/
structure Procman where
  head : U32
  tail : U32
  current : U32
  count : U32

/-- `scheduler_t`, the processes, and the dwords that are written to stacks. -/
structure Sched where
  active : Procman
  inactive : Procman
  procs : U32 → Process
  mem : U32 → U32

/-- The two lists. -/
inductive Which where
  | active
  | inactive
deriving DecidableEq

def Sched.man (s : Sched) : Which → Procman
  | .active => s.active
  | .inactive => s.inactive

def Sched.setMan (s : Sched) (w : Which) (m : Procman) : Sched :=
  match w with
  | .active => { s with active := m }
  | .inactive => { s with inactive := m }

def Sched.setProc (s : Sched) (p : U32) (x : Process) : Sched :=
  { s with procs := update s.procs p x }

/-! ## The lists -/

/-- `if (p != NULL) p->next = v; else procman->head = v;` -/
def Sched.setNext (s : Sched) (w : Which) (p v : U32) : Sched :=
  if p ≠ 0 then s.setProc p { s.procs p with next := v }
  else s.setMan w { s.man w with head := v }

/-- `if (p != NULL) p->prev = v; else procman->tail = v;` -/
def Sched.setPrev (s : Sched) (w : Which) (p v : U32) : Sched :=
  if p ≠ 0 then s.setProc p { s.procs p with prev := v }
  else s.setMan w { s.man w with tail := v }

def procmanAppend (s : Sched) (w : Which) (proc : U32) : Sched :=
  let s := s.setProc proc { s.procs proc with next := 0 }
  let s := s.setProc proc { s.procs proc with prev := (s.man w).tail }
  let s := s.setNext w (s.man w).tail proc
  s.setMan w { s.man w with tail := proc }

def procmanRemove (s : Sched) (w : Which) (proc : U32) : Sched :=
  let s := s.setNext w (s.procs proc).prev (s.procs proc).next
  let s := s.setPrev w (s.procs proc).next (s.procs proc).prev
  let s := s.setProc proc { s.procs proc with next := 0 }
  let s := s.setProc proc { s.procs proc with prev := 0 }
  if (s.man w).current = proc then s.setMan w { s.man w with current := 0 } else s

/-! ## Loading and unloading -/

def zeroContext : Context := ⟨0, 0, 0, 0, 0, 0, 0, 0, 0, 0, 0, 0, 0, 0, 0, 0, 0⟩

/-- What `process_create` makes of the memory it got. -/
def newProcess : Process := ⟨zeroContext, 0, 0, 0, 0, 0, 0, 0, 0⟩

/-- `proc_register`; `proc` is what `kmalloc` returned. -/
def procRegister (s : Sched) (proc path entry flags : U32) : Sched :=
  if proc = 0 then s
  else
    let s := s.setProc proc newProcess
    let s := s.setProc proc { s.procs proc with entry := entry }
    let s := s.setProc proc { s.procs proc with path := path }
    let s := s.setProc proc { s.procs proc with flags := flags ||| procFlagCreate }
    procmanAppend s .inactive proc

def schedulerLoadKprocess (s : Sched) (proc path entry : U32) : Sched :=
  procRegister s proc path entry (procFlagKernel ||| procFlagStack ||| procFlagHeap)

def schedulerLoadUprocess (s : Sched) (proc path entry : U32) : Sched :=
  procRegister s proc path entry (procFlagUser ||| procFlagStack ||| procFlagHeap)

def procDeregister (s : Sched) (proc : U32) : Sched :=
  if proc = 0 then s
  else if (s.procs proc).Has procFlagKill then s
  else
    let s := procmanRemove s .active proc
    let s := procmanAppend s .inactive proc
    s.setProc proc { s.procs proc with flags := (s.procs proc).flags ||| procFlagKill }

def schedulerUnloadProcess (s : Sched) (proc : U32) : Sched := procDeregister s proc

/-! ## Creating and destroying -/

/-- What the linker and the boot code provide. -/
structure Symbols where
  kcode : U32
  kdata : U32
  kstack : U32
  ucode : U32
  udata : U32
  ustack : U32
  startupProc : U32
  idleProc : U32
  schedulerProc : U32
  kinitPath : U32
  idlePath : U32
  schedulerPath : U32
  pgPd : U32

def defaultStack : U32 := 0x100000

/-- The segment registers of `create_proc`: code, stack and data. -/
def selectors (y : Symbols) (flags : U32) : U32 × U32 × U32 :=
  if flags &&& procFlagTypeMask = procFlagKernel then (y.kcode, y.kstack, y.kdata)
  else if flags &&& procFlagTypeMask = procFlagUser then (y.ucode ||| 3, y.ustack ||| 3, y.udata ||| 3)
  else (0, 0, 0)

/-- The first fields that `create_proc` sets. -/
def openProc (y : Symbols) (x : Process) : Process :=
  let x := { x with flags := x.flags &&& ~~~procFlagCreate }
  let (_, selstack, seldata) := selectors y x.flags
  { x with context := { x.context with
      es := seldata, ds := seldata, fs := seldata, gs := seldata, ss := selstack } }

/-- The fields that it sets when it has the stack, or needs none. -/
def setupProc (y : Symbols) (x : Process) (stack id pd : U32) : Process :=
  let (selcode, _, _) := selectors y x.flags
  let top := stack + defaultStack
  let x :=
    if x.Has procFlagStack then
      { x with stack := stack, context := { x.context with esp := top - 8, ebp := top - 8 } }
    else { x with stack := 0, context := { x.context with esp := 0, ebp := 0 } }
  let x := { x with context := { x.context with
    eip := y.startupProc, cs := selcode, eflags := 0x202 } }
  let x := { x with id := id }
  let cr3 := if x.Has procSharedAddrSpace then v2p y.pgPd else pd
  { x with context := { x.context with cr3 := cr3 } }

/-- `create_proc`, and the next process it returns; `stack` is what the stack is
allocated to, and `pd` what `pgd_create_pd` returns. -/
def createProc (y : Symbols) (s : Sched) (proc stack pd : U32) : U32 × Sched :=
  let x := openProc y (s.procs proc)
  if x.Has procFlagStack ∧ stack = 0 then (0, s.setProc proc { x with stack := 0 })
  else
    -- the argument of `startup_proc`, and its return address
    let top := stack + defaultStack
    let mem := if x.Has procFlagStack then update (update s.mem (top - 4) proc) (top - 8) 0 else s.mem
    let s := { s.setProc proc (setupProc y x stack s.active.count pd) with
      mem := mem, active := { s.active with count := s.active.count + 1 } }
    let next := (s.procs proc).next
    let s := procmanRemove s .inactive proc
    (next, procmanAppend s .active proc)

/-- `destroy_proc`, and the next process it returns: the memory of the process is
given back. -/
def destroyProc (s : Sched) (proc : U32) : U32 × Sched :=
  if proc = 0 then (0, s) else ((s.procs proc).next, procmanRemove s .inactive proc)

/-! ## Switching -/

/-- `process_update`: whether the process has had its time. -/
def processUpdate (s : Sched) (proc : U32) : Bool × Sched :=
  if proc = 0 then (true, s)
  else
    let s := s.setProc proc { s.procs proc with ticks := (s.procs proc).ticks + 1 }
    if (s.procs proc).ticks < 2 then (false, s)
    else (true, s.setProc proc { s.procs proc with ticks := 0 })

/-- The current process, or the first one when there is none. -/
def chooseCurrent (s : Sched) : Sched :=
  if s.active.current = 0 then { s with active := { s.active with current := s.active.head } }
  else s

/-- `scheduler_switch`: the process to save and the process to load, when it
returns non-zero. -/
def schedulerSwitch (s : Sched) : Option (U32 × U32) × Sched :=
  if s.active.current = 0 ∧ s.active.head = 0 then (none, s)
  else
    let s := chooseCurrent s
    let (done, s) := processUpdate s s.active.current
    if done then
      let current := s.active.current
      let next := if (s.procs current).next ≠ 0 then (s.procs current).next else s.active.head
      let s := { s with active := { s.active with current := next } }
      (if next ≠ current then some (current, next) else none, s)
    else (none, s)

/-- `scheduler_init`, with what `kmalloc` returned for the three processes and
for two of the stacks. -/
def schedulerInit (y : Symbols) (s : Sched) (kinit idle sched idleStack schedStack : U32) : Sched :=
  let s := { s with active := ⟨0, 0, 0, 0⟩, inactive := ⟨0, 0, 0, 0⟩ }
  if kinit = 0 then s
  else
    let s := procRegister s kinit y.kinitPath 0 (procFlagKernel ||| procSharedAddrSpace)
    let s := (createProc y s kinit 0 0).2
    if idle = 0 then s
    else
      let s := procRegister s idle y.idlePath y.idleProc
        (procFlagKernel ||| procSharedAddrSpace ||| procFlagStack)
      let s := (createProc y s idle idleStack 0).2
      if sched = 0 then s
      else
        let s := procRegister s sched y.schedulerPath y.schedulerProc
          (procFlagKernel ||| procSharedAddrSpace ||| procFlagStack ||| procFlagHeap)
        let s := (createProc y s sched schedStack 0).2
        { s with active := { s.active with current := kinit } }

end Tomk
