/-
# The memory of a process

What `create_proc` allocates and `destroy_proc` gives back: the stack, the directory,
the bitmap of `proc->vmm`, and the process itself.  Nothing allocates from
`proc->heap`, which `create_proc` initialises, and so `heap_destroy` finds it empty.

Runs are any calls of the kernel's managers and of `kheap`, with any arguments, and
any steps of any processes.  A step that stops, on an assertion or a fault, leads
nowhere.  The seal of page 0 (`Pmm.Sealed`) goes through all of them but one: a
process whose directory could not be made has 0 in `cr3`, and `destroy_proc` gives
that back (`destroyProc_frees_zero`).
-/
import Tomk.Mm.Kmalloc
import Tomk.Mm.ZeroFrame
import Tomk.Sched.Scheduler
import Tomk.Sched.Teardown

namespace Tomk

open WordBits CFor Runs Function

/-- `kheap` and what is under it. -/
structure KernelMemory where
  heap : Heap
  kvmm : KvmmRun

/-- The fields of `process_t` that memory goes through.  `bitmap` is the pointer in
`vmm`. -/
structure ProcMemory where
  flags : U32
  cr3 : U32
  vmm : Vmm
  bitmap : U32
  stack : U32
  exe : U32

/-- `proc->flags & mask` -/
def ProcMemory.Has (p : ProcMemory) (mask : U32) : Prop := p.flags &&& mask ≠ 0

instance (p : ProcMemory) (mask : U32) : Decidable (p.Has mask) :=
  inferInstanceAs (Decidable (_ ≠ _))

/-! ## `kmalloc` and `kfree` -/

/-- The frames and the tables have changed. -/
def KernelMemory.withMm (k : KernelMemory) (pmm : Pmm) (mmu : Mmu) : KernelMemory :=
  { k with kvmm := { k.kvmm with mm := ⟨k.kvmm.mm.vmm, pmm, mmu⟩ } }

/-- `heap_alloc(&kheap, size, contiguous)` -/
def KernelMemory.alloc (L : Layout) (k : KernelMemory) (size : U32) (contiguous : Bool) :
    Option (U32 × KernelMemory) := do
  let (ptr, heap, kvmm) ← heapAlloc (kernelVmm L) k.heap (some k.kvmm) size contiguous
  let kvmm ← kvmm
  pure (ptr, ⟨heap, kvmm⟩)

/-- `heap_free(&kheap, ptr)` -/
def KernelMemory.free (L : Layout) (k : KernelMemory) (ptr : U32) : Option KernelMemory := do
  let (heap, kvmm) ← heapFree (kernelVmm L) k.heap (some k.kvmm) ptr
  let kvmm ← kvmm
  pure ⟨heap, kvmm⟩

/-! ## `process.c` and `scheduler.c` -/

/-- `sizeof(process_t)` -/
def sizeofProcess : U32 := 156

def zeroVmm : Vmm := ⟨fun _ => 0, 0, 0, 0, 0, 0, 0, 0, 0⟩

/-- `proc_register`: the process, or `NULL`, and what it holds. -/
def procRegisterMemory (L : Layout) (k : KernelMemory) (flags : U32) :
    Option (U32 × KernelMemory × ProcMemory) :=
  (k.alloc L sizeofProcess true).map fun r =>
    (r.1, r.2, ⟨flags ||| procFlagCreate, 0, zeroVmm, 0, 0, 0⟩)

/-- The types that `create_proc` and `destroy_proc` know: for the others the
function pointers `alloc` and `free` stay `NULL`. -/
def ProcMemory.Typed (p : ProcMemory) : Prop :=
  p.flags &&& procFlagTypeMask = procFlagKernel ∨ p.flags &&& procFlagTypeMask = procFlagUser

instance (p : ProcMemory) : Decidable p.Typed := inferInstanceAs (Decidable (_ ∨ _))

/-- The stack of `create_proc`. -/
def createStack (L : Layout) (k : KernelMemory) (p : ProcMemory) : Option (U32 × KernelMemory) :=
  if p.Has procFlagStack then
    if p.Typed then k.alloc L defaultStack true else none
  else some (0, k)

/-- Its directory. -/
def createDirectory (L : Layout) (k : KernelMemory) (p : ProcMemory) :
    Option (U32 × KernelMemory) :=
  if p.Has procSharedAddrSpace then some (frameAddr L.pgPd, k)
  else (pgdCreatePd L k.kvmm.mm).map fun r => (r.1, { k with kvmm := { k.kvmm with mm := r.2 } })

/-- And its window: `vmm_init(&proc->vmm, UVIRT, UVIRT_END, kmalloc)`. -/
def createWindow (L : Layout) (k : KernelMemory) (p : ProcMemory) :
    Option (KernelMemory × ProcMemory) :=
  if p.Has procFlagHeap then do
    let vmm ← vmmSizes p.vmm uvirt uvirtEnd
    let (bitmap, k) ← k.alloc L vmm.bitmapSize true
    if bitmap = 0 then none
    else
      let vmm ← vmmFill vmm
      pure (k, { p with vmm := vmm, bitmap := bitmap })
  else some (k, p)

def createProcMemory (L : Layout) (k : KernelMemory) (p : ProcMemory) :
    Option (KernelMemory × ProcMemory) := do
  let p := { p with flags := p.flags &&& ~~~procFlagCreate }
  let (stack, k) ← createStack L k p
  let p := { p with stack := stack }
  if p.Has procFlagStack ∧ stack = 0 then pure (k, p)
  else
    let (cr3, k) ← createDirectory L k p
    createWindow L k { p with cr3 := cr3 }

/-- `free(ptr)` of `destroy_proc`. -/
def procFree (L : Layout) (k : KernelMemory) (p : ProcMemory) (ptr : U32) : Option KernelMemory :=
  if p.Typed then k.free L ptr else none

/-- `vmm_destroy(&proc->vmm, kfree)` -/
def destroyWindow (L : Layout) (k : KernelMemory) (p : ProcMemory) : Option KernelMemory :=
  if p.Has procFlagHeap then
    if p.bitmap = 0 then none
    else do
      let d ← vmmDestroyPages ⟨⟨p.vmm, k.kvmm.mm.pmm, k.kvmm.mm.mmu⟩, []⟩
      (k.withMm d.mm.pmm d.mm.mmu).free L p.bitmap
  else some k

/-- `pgd_destroy_pd` -/
def pgdDestroyPd (k : KernelMemory) (pd : U32) : KernelMemory :=
  k.withMm (pmmFree k.kvmm.mm.pmm pd 1) k.kvmm.mm.mmu

def destroyStack (L : Layout) (k : KernelMemory) (p : ProcMemory) : Option KernelMemory :=
  if p.Has procFlagStack ∧ p.stack ≠ 0 then procFree L k p p.stack else some k

def destroyDirectory (k : KernelMemory) (p : ProcMemory) : KernelMemory :=
  if p.Has procSharedAddrSpace then k else pgdDestroyPd k p.cr3

def destroyExe (L : Layout) (k : KernelMemory) (p : ProcMemory) : Option KernelMemory :=
  if p.exe ≠ 0 then procFree L k p p.exe else some k

def destroyProcMemory (L : Layout) (k : KernelMemory) (proc : U32) (p : ProcMemory) :
    Option KernelMemory := do
  let k ← destroyWindow L k p
  let k ← destroyStack L k p
  let k ← destroyExe L (destroyDirectory k p) p
  k.free L proc

/-! ## Runs -/

structure MemoryRun where
  kernel : KernelMemory
  procs : U32 → Option ProcMemory

/-- The calls of `proc->vmm`. -/
inductive WindowCall where
  | alloc (count : U32)
  | allocContiguous (count : U32)
  | free (virt count : U32)
  | reserve (count : U32)
  | unreserve (virt count : U32)

def WindowCall.run (L : Layout) (m : Mm) : WindowCall → Option Mm
  | .alloc count => (vmmAlloc L m count).map Prod.snd
  | .allocContiguous count => (vmmAllocContiguous L m count).map Prod.snd
  | .free virt count => vmmFree m virt count
  | .reserve count => some { m with vmm := (vmmReserve m.vmm count).2 }
  | .unreserve virt count => some { m with vmm := vmmUnreserve m.vmm virt count }

inductive MemoryCall where
  | kernel (c : KernelCall)
  | alloc (size : U32) (contiguous : Bool)
  | free (ptr : U32)
  | destroyPd (pd : U32)
  | register (flags : U32)
  | create (proc : U32)
  | unload (proc : U32)
  | destroy (proc : U32)
  | window (proc : U32) (c : WindowCall)

def MemoryRun.setProc (r : MemoryRun) (proc : U32) (p : ProcMemory) : MemoryRun :=
  { r with procs := update r.procs proc (some p) }

/-- The scheduler creates what is to be created, and destroys what is to be
destroyed. -/
def MemoryCall.run (L : Layout) (r : MemoryRun) : MemoryCall → Option MemoryRun
  | .kernel c => (c.run L ⟨r.kernel.kvmm.mm, []⟩).map fun s =>
      { r with kernel := { r.kernel with kvmm := { r.kernel.kvmm with mm := s.mm } } }
  | .alloc size contiguous => (r.kernel.alloc L size contiguous).map fun x =>
      { r with kernel := x.2 }
  | .free ptr => (r.kernel.free L ptr).map fun k => { r with kernel := k }
  | .destroyPd pd => some { r with kernel := pgdDestroyPd r.kernel pd }
  | .register flags => (procRegisterMemory L r.kernel flags).map fun x =>
      if x.1 = 0 then { r with kernel := x.2.1 } else MemoryRun.setProc { r with kernel := x.2.1 } x.1 x.2.2
  | .create proc => do
      let p ← r.procs proc
      if p.Has procFlagCreate then
        (createProcMemory L r.kernel p).map fun x => MemoryRun.setProc { r with kernel := x.1 } proc x.2
      else none
  | .unload proc => (r.procs proc).map fun p =>
      r.setProc proc { p with flags := p.flags ||| procFlagKill }
  | .destroy proc => do
      let p ← r.procs proc
      if ¬ p.Has procFlagCreate ∧ p.Has procFlagServiceMask then
        (destroyProcMemory L r.kernel proc p).map fun k => ⟨k, update r.procs proc none⟩
      else none
  | .window proc c => do
      let p ← r.procs proc
      (c.run L ⟨p.vmm, r.kernel.kvmm.mm.pmm, r.kernel.kvmm.mm.mmu⟩).map fun m =>
        MemoryRun.setProc { r with kernel := r.kernel.withMm m.pmm m.mmu } proc { p with vmm := m.vmm }

/-- A caller of `pmm_free` has an address. -/
def MemoryCall.Legal : MemoryCall → Prop
  | .kernel (.pmmFree phys _) => phys ≠ 0
  | _ => True

def MemoryStep (L : Layout) (c : MemoryCall) (r r' : MemoryRun) : Prop :=
  c.Legal ∧ c.run L r = some r'

/-- The condition: no directory that could not be made is given back, neither by
itself nor with its process. -/
def MemoryCall.Made (c : MemoryCall) (r : MemoryRun) : Prop :=
  match c with
  | .destroyPd pd => pd ≠ 0
  | .destroy proc => ∀ p, r.procs proc = some p → ¬ p.Has procSharedAddrSpace → p.cr3 ≠ 0
  | _ => True

/-- `mminit` has returned, and there are no processes. -/
def MemoryStart (L : Layout) (r : MemoryRun) : Prop :=
  ∃ h, r.kernel.heap = heapInit h ∧ KvmmStart L r.kernel.kvmm ∧ ∀ proc, r.procs proc = none

/-- The states of all runs. -/
def MemoryReach (L : Layout) : MemoryRun → Prop := Reach (MemoryStart L) (MemoryStep L)

/-- The states of the runs that meet the condition. -/
def MadeReach (L : Layout) : MemoryRun → Prop :=
  Reach (MemoryStart L) (Guarded MemoryCall.Made (MemoryStep L))

/-! ## The seal -/

variable {L : Layout} {k k' : KernelMemory} {r r' : MemoryRun} {p p' : ProcMemory} {T : U32}

/-- Page 0 is in use. -/
def KernelMemory.Sealed (T : U32) (k : KernelMemory) : Prop := k.kvmm.mm.pmm.Sealed T

/-- The window of the kernel, as the heap has it. -/
def SealedVmm (T : U32) (v : Option KvmmRun) : Prop := ∀ s, v = some s → s.mm.pmm.Sealed T

theorem SealedVmm.alloc {v : Option KvmmRun} (h : SealedVmm T v) (c : Bool) (n : U32) :
    SealedVmm T ((kernelVmm L).alloc v c n).2 := by
  intro s hs
  simp only [kernelVmm] at hs
  split at hs
  · next x s' hrun =>
      cases hs
      obtain ⟨s0, rfl, hcall⟩ := Option.bind_eq_some_iff.mp hrun
      obtain ⟨⟨q, m⟩, hm, hret⟩ := Option.map_eq_some_iff.mp hcall
      cases hret
      cases c with
      | true => exact vmmAllocContiguous_sealed (h s0 rfl) hm
      | false => exact vmmAlloc_sealed (h s0 rfl) hm
  · cases hs

theorem SealedVmm.free {v : Option KvmmRun} (h : SealedVmm T v) (virt n : U32) :
    SealedVmm T ((kernelVmm L).free v virt n) := by
  intro s hs
  obtain ⟨s0, rfl, hcall⟩ := Option.bind_eq_some_iff.mp hs
  obtain ⟨m, hm, rfl⟩ := Option.map_eq_some_iff.mp hcall
  exact vmmFree_sealed (h s0 rfl) hm

theorem KernelMemory.Sealed.alloc (h : k.Sealed T) {size ptr : U32} {c : Bool}
    (hr : k.alloc L size c = some (ptr, k')) : k'.Sealed T := by
  obtain ⟨⟨q, heap, v⟩, hrun, hr⟩ := Option.bind_eq_some_iff.mp hr
  obtain ⟨s, hs, hr⟩ := Option.bind_eq_some_iff.mp hr
  cases hr
  have hv : SealedVmm T (some k.kvmm) := fun s hs => by
    cases hs
    exact h
  have hv' : SealedVmm T v := by
    rcases heapAlloc_kinds hrun with ⟨rfl, _⟩ | ⟨n, _, rfl, _⟩
    · exact hv
    · exact hv.alloc c n
  exact hv' s hs

theorem KernelMemory.Sealed.free (h : k.Sealed T) {ptr : U32} (hr : k.free L ptr = some k') :
    k'.Sealed T := by
  obtain ⟨⟨heap, v⟩, hrun, hr⟩ := Option.bind_eq_some_iff.mp hr
  obtain ⟨s, hs, hr⟩ := Option.bind_eq_some_iff.mp hr
  cases hr
  have hv : SealedVmm T (some k.kvmm) := fun s hs => by
    cases hs
    exact h
  have hv' : SealedVmm T v := by
    rcases (heapFree_kinds hrun).2 with rfl | ⟨q, n, rfl⟩
    · exact hv
    · exact hv.free q n
  exact hv' s hs

theorem KernelMemory.Sealed.withMm {pmm : Pmm} {mmu : Mmu} (h : pmm.Sealed T) :
    (k.withMm pmm mmu).Sealed T := h

/-! ## `create_proc` and `destroy_proc` keep it -/

theorem createStack_sealed (h : k.Sealed T) {stack : U32}
    (hr : createStack L k p = some (stack, k')) : k'.Sealed T := by
  rw [createStack] at hr
  split at hr
  · split at hr
    · exact h.alloc hr
    · cases hr
  · cases hr
    exact h

theorem createDirectory_sealed (h : k.Sealed T) {cr3 : U32}
    (hr : createDirectory L k p = some (cr3, k')) : k'.Sealed T := by
  rw [createDirectory] at hr
  split at hr
  · cases hr
    exact h
  · obtain ⟨⟨pd, m⟩, hm, hr⟩ := Option.map_eq_some_iff.mp hr
    cases hr
    exact pgdCreatePd_sealed h hm

theorem createWindow_sealed (h : k.Sealed T) (hr : createWindow L k p = some (k', p')) :
    k'.Sealed T := by
  rw [createWindow] at hr
  split at hr
  · obtain ⟨vmm, _, hr⟩ := Option.bind_eq_some_iff.mp hr
    obtain ⟨⟨bitmap, k1⟩, halloc, hr⟩ := Option.bind_eq_some_iff.mp hr
    simp only at hr
    split at hr
    · cases hr
    · obtain ⟨vmm', _, hr⟩ := Option.bind_eq_some_iff.mp hr
      cases hr
      exact h.alloc halloc
  · cases hr
    exact h

theorem createProcMemory_sealed (h : k.Sealed T) (hr : createProcMemory L k p = some (k', p')) :
    k'.Sealed T := by
  obtain ⟨⟨stack, k1⟩, hstack, hr⟩ := Option.bind_eq_some_iff.mp hr
  have h1 := createStack_sealed h hstack
  simp only at hr
  split at hr
  · cases hr
    exact h1
  · obtain ⟨⟨cr3, k2⟩, hdir, hr⟩ := Option.bind_eq_some_iff.mp hr
    exact createWindow_sealed (createDirectory_sealed h1 hdir) hr

theorem procFree_sealed (h : k.Sealed T) {ptr : U32} (hr : procFree L k p ptr = some k') :
    k'.Sealed T := by
  rw [procFree] at hr
  split at hr
  · exact h.free hr
  · cases hr

theorem destroyWindow_sealed (h : k.Sealed T) (hr : destroyWindow L k p = some k') :
    k'.Sealed T := by
  rw [destroyWindow] at hr
  split at hr
  · split at hr
    · cases hr
    · obtain ⟨d, hd, hr⟩ := Option.bind_eq_some_iff.mp hr
      have hd' : d.mm.pmm.Sealed T :=
        vmmDestroyPages_sealed (d := ⟨⟨p.vmm, k.kvmm.mm.pmm, k.kvmm.mm.mmu⟩, []⟩) h hd
      exact (KernelMemory.Sealed.withMm hd').free hr
  · cases hr
    exact h

theorem KernelMemory.Sealed.destroyPd (h : k.Sealed T) {pd : U32} (hne : pd ≠ 0) :
    (pgdDestroyPd k pd).Sealed T := Pmm.Sealed.free h hne 1

theorem destroyStack_sealed (h : k.Sealed T) (hr : destroyStack L k p = some k') : k'.Sealed T := by
  rw [destroyStack] at hr
  split at hr
  · exact procFree_sealed h hr
  · cases hr
    exact h

/-- A process with a directory of its own has one. -/
theorem destroyDirectory_sealed (h : k.Sealed T) (hmade : ¬ p.Has procSharedAddrSpace → p.cr3 ≠ 0) :
    (destroyDirectory k p).Sealed T := by
  rw [destroyDirectory]
  split
  · exact h
  · next hown => exact h.destroyPd (hmade hown)

theorem destroyExe_sealed (h : k.Sealed T) (hr : destroyExe L k p = some k') : k'.Sealed T := by
  rw [destroyExe] at hr
  split at hr
  · exact procFree_sealed h hr
  · cases hr
    exact h

theorem destroyProcMemory_sealed (h : k.Sealed T) {proc : U32}
    (hmade : ¬ p.Has procSharedAddrSpace → p.cr3 ≠ 0)
    (hr : destroyProcMemory L k proc p = some k') : k'.Sealed T := by
  obtain ⟨k1, hwin, hr⟩ := Option.bind_eq_some_iff.mp hr
  obtain ⟨k2, hstack, hr⟩ := Option.bind_eq_some_iff.mp hr
  obtain ⟨k3, hexe, hr⟩ := Option.bind_eq_some_iff.mp hr
  have h2 := destroyStack_sealed (destroyWindow_sealed h hwin) hstack
  exact (destroyExe_sealed (destroyDirectory_sealed h2 hmade) hexe).free hr

/-! ## Every call keeps it -/

theorem KernelCall.run_sealed {c : KernelCall} {s s' : Space} (h : s.mm.pmm.Sealed T)
    (hlegal : (MemoryCall.kernel c).Legal) (hr : c.run L s = some s') : s'.mm.pmm.Sealed T := by
  cases c with
  | createPd =>
      obtain ⟨⟨pd, m⟩, hm, rfl⟩ := Option.map_eq_some_iff.mp hr
      exact pgdCreatePd_sealed h hm
  | loadCr3 dir =>
      cases hr
      exact h
  | map virt phys flags count =>
      obtain ⟨mmu, _, rfl⟩ := Option.map_eq_some_iff.mp hr
      exact h
  | unmap virt count =>
      obtain ⟨mmu, _, rfl⟩ := Option.map_eq_some_iff.mp hr
      exact h
  | mmap phys length flags =>
      obtain ⟨⟨virt, m⟩, hm, rfl⟩ := Option.map_eq_some_iff.mp hr
      show m.pmm.Sealed T
      rw [mmap_pmm hm]
      exact h
  | munmap virt length =>
      obtain ⟨m, hm, rfl⟩ := Option.map_eq_some_iff.mp hr
      show m.pmm.Sealed T
      rw [munmap_pmm hm]
      exact h
  | reserve count =>
      cases hr
      exact h
  | unreserve virt count =>
      cases hr
      exact h
  | alloc count =>
      obtain ⟨⟨virt, m⟩, hm, rfl⟩ := Option.map_eq_some_iff.mp hr
      exact vmmAlloc_sealed h hm
  | allocContiguous count =>
      obtain ⟨⟨virt, m⟩, hm, rfl⟩ := Option.map_eq_some_iff.mp hr
      exact vmmAllocContiguous_sealed h hm
  | free virt count =>
      obtain ⟨m, hm, rfl⟩ := Option.map_eq_some_iff.mp hr
      exact vmmFree_sealed h hm
  | pmmAlloc count =>
      cases hr
      exact h.alloc count
  | pmmFree phys count =>
      cases hr
      exact h.free hlegal count

theorem WindowCall.run_sealed {c : WindowCall} {m m' : Mm} (h : m.pmm.Sealed T)
    (hr : c.run L m = some m') : m'.pmm.Sealed T := by
  cases c with
  | alloc count =>
      obtain ⟨⟨virt, m⟩, hm, rfl⟩ := Option.map_eq_some_iff.mp hr
      exact vmmAlloc_sealed h hm
  | allocContiguous count =>
      obtain ⟨⟨virt, m⟩, hm, rfl⟩ := Option.map_eq_some_iff.mp hr
      exact vmmAllocContiguous_sealed h hm
  | free virt count => exact vmmFree_sealed h hr
  | reserve count =>
      cases hr
      exact h
  | unreserve virt count =>
      cases hr
      exact h

/-- **The step lemma.** -/
theorem MemoryCall.run_sealed {c : MemoryCall} (h : r.kernel.Sealed T) (hlegal : c.Legal)
    (hmade : c.Made r) (hr : c.run L r = some r') : r'.kernel.Sealed T := by
  cases c with
  | kernel c =>
      obtain ⟨s, hs, rfl⟩ := Option.map_eq_some_iff.mp hr
      exact KernelCall.run_sealed (s := ⟨r.kernel.kvmm.mm, []⟩) h hlegal hs
  | alloc size contiguous =>
      obtain ⟨⟨ptr, k⟩, hk, rfl⟩ := Option.map_eq_some_iff.mp hr
      exact h.alloc hk
  | free ptr =>
      obtain ⟨k, hk, rfl⟩ := Option.map_eq_some_iff.mp hr
      exact h.free hk
  | destroyPd pd =>
      cases hr
      exact h.destroyPd hmade
  | register flags =>
      obtain ⟨x, hx, rfl⟩ := Option.map_eq_some_iff.mp hr
      obtain ⟨⟨ptr, k⟩, hk, rfl⟩ := Option.map_eq_some_iff.mp hx
      have hk' : k.Sealed T := h.alloc hk
      dsimp only
      split
      · exact hk'
      · exact hk'
  | create proc =>
      obtain ⟨p, _, hr⟩ := Option.bind_eq_some_iff.mp hr
      split at hr
      · obtain ⟨⟨k, p'⟩, hk, rfl⟩ := Option.map_eq_some_iff.mp hr
        have hk' : k.Sealed T := createProcMemory_sealed h hk
        exact hk'
      · cases hr
  | unload proc =>
      obtain ⟨p, _, rfl⟩ := Option.map_eq_some_iff.mp hr
      exact h
  | destroy proc =>
      obtain ⟨p, hp, hr⟩ := Option.bind_eq_some_iff.mp hr
      split at hr
      · obtain ⟨k, hk, rfl⟩ := Option.map_eq_some_iff.mp hr
        have hk' : k.Sealed T := destroyProcMemory_sealed h (hmade p hp) hk
        exact hk'
      · cases hr
  | window proc c =>
      obtain ⟨p, _, hr⟩ := Option.bind_eq_some_iff.mp hr
      obtain ⟨m, hm, rfl⟩ := Option.map_eq_some_iff.mp hr
      have hm' : m.pmm.Sealed T :=
        WindowCall.run_sealed (m := ⟨p.vmm, r.kernel.kvmm.mm.pmm, r.kernel.kvmm.mm.mmu⟩) h hm
      exact hm'

theorem MemoryStart.sealed (h : MemoryStart L r) :
    r.kernel.Sealed r.kernel.kvmm.mm.pmm.totalPages := by
  obtain ⟨_, _, hk, _⟩ := h
  have hinv := hk.inv.space
  exact ⟨hinv.pmm, rfl, hinv.zero⟩

/-- **The run lemma.** -/
theorem MadeReach.sealed (h : MadeReach L r) : ∃ T, r.kernel.Sealed T :=
  h.invariant (fun r => ∃ T, r.kernel.Sealed T) (fun _ hs => ⟨_, hs.sealed⟩)
    fun _ _ _ ⟨T, hi⟩ ⟨hmade, hlegal, hr⟩ => ⟨T, MemoryCall.run_sealed hi hlegal hmade hr⟩

/-- Frame 0 stays reserved, and so 0 is no frame that was allocated. -/
def KernelMemory.Frame0 (k : KernelMemory) : Prop :=
  (0 < k.kvmm.mm.pmm.totalPages.toNat → test k.kvmm.mm.pmm.bitmap 0 = true) ∧
    ∀ n, (pmmAlloc k.kvmm.mm.pmm n).1 = 0 →
      k.kvmm.mm.pmm.Untouched (pmmAlloc k.kvmm.mm.pmm n).2

theorem KernelMemory.Sealed.frame0 (h : k.Sealed T) : k.Frame0 := by
  refine ⟨fun h0 => h.zero ?_, fun n hn => Pmm.Sealed.alloc_zero h hn⟩
  rw [← h.total]
  exact h0

/-- **Frame 0** in every run that gives back only directories that were made. -/
theorem memoryRun_frame0 (h : MadeReach L r) : r.kernel.Frame0 := by
  obtain ⟨T, hT⟩ := h.sealed
  exact hT.frame0

/-! ## A process whose directory cannot be made -/

variable {z : Bool} {V : Type} {ops : VmmOps V} {h : Heap} {v w : V} {rs : List U32}
  {ps : U32 → Prop} {B : U32 → List U32}

/-- `heap_free` asks nothing of the manager: what it releases, if anything, is a
region as it was given. -/
theorem HeapOk.heapFree_any (hk : HeapOk z ops h v rs ps B) (ptr : U32) :
    ∃ h', (∀ w, heapFree ops h w ptr = some (h', w)) ∨
      ∃ r ∈ rs, ∀ w, heapFree ops h w ptr = some (h', ops.free w r (toPage (h.regions r).size)) := by
  by_cases h0 : ptr = 0
  · refine ⟨h, Or.inl fun w => ?_⟩
    simp only [heapFree, if_pos h0, Option.pure_def]
  rcases hk.blockFind_cases ptr with ⟨hfind, _⟩ | ⟨r, hr, b, hb, hptr, hfind⟩
  · refine ⟨h, Or.inl fun w => ?_⟩
    simp only [heapFree, if_neg h0, hfind, Option.bind_eq_bind, Option.bind_some, Option.pure_def]
  by_cases hu : (h.blocks b).Used
  · let h1 := h.setBlock b { h.blocks b with flags := (h.blocks b).flags &&& ~~~blockFlagUsed }
    have hrun : ∀ w, heapFree ops h w ptr = some (heapShrink ops h1 w r b) := fun w => by
      simp only [heapFree, if_neg h0, hfind, Option.bind_eq_bind, Option.bind_some,
        if_neg (not_not.mpr hu), Option.pure_def, h1]
    obtain ⟨bs', hrel⟩ := (hk.region r (Or.inl hr)).free hb (rfl : h1 = _) hu
    have hsize : ((shrinkMerge h1 r b).1.regions r).size = (h.regions r).size := hrel.edited.size
    simp only [heapShrink, hsize] at hrun
    split at hrun
    · exact ⟨_, Or.inr ⟨r, hr, hrun⟩⟩
    · exact ⟨_, Or.inl hrun⟩
  · refine ⟨h, Or.inl fun w => ?_⟩
    simp only [heapFree, if_neg h0, hfind, Option.bind_eq_bind, Option.bind_some, if_pos hu,
      Option.pure_def]

theorem KernelMemory.alloc_some {size ptr : U32} {c : Bool} {h' : Heap} {x : KvmmRun}
    (hr : heapAlloc (kernelVmm L) k.heap (some k.kvmm) size c = some (ptr, h', some x)) :
    k.alloc L size c = some (ptr, ⟨h', x⟩) := by
  rw [KernelMemory.alloc, hr]
  rfl

/-- The heap stands on a window `x`, and the kernel has that window; which frames are free, and
which user pages are mapped, does not matter. -/
def KernelMemory.Backed (L : Layout) (k : KernelMemory) : Prop :=
  ∃ x rs B, HeapOk true (kernelVmm L) k.heap (some x) rs NoPending B ∧ k.kvmm.mm.vmm = x.mm.vmm ∧
    Wired L (pdIndex x.mm.vmm.base).toNat k.kvmm.mm.mmu.mem k.kvmm.mm.mmu.cr3

theorem HeapOk.backed {x : KvmmRun} (hk : HeapOk true (kernelVmm L) h (some x) rs NoPending B)
    (pmm : Pmm) : (⟨h, ⟨⟨x.mm.vmm, pmm, x.mm.mmu⟩, x.live⟩⟩ : KernelMemory).Backed L := by
  obtain ⟨x0, hx0, hinv⟩ := hk.window
  cases hx0
  exact ⟨x, rs, B, hk, rfl, hinv.space.ready.wired⟩

/-- **`kfree`** of any pointer returns, and gives no frame back. -/
theorem KernelMemory.Backed.free (hb : k.Backed L) (ptr : U32) :
    ∃ k', k.free L ptr = some k' ∧ k'.Backed L ∧ k'.kvmm.mm.pmm = k.kvmm.mm.pmm := by
  obtain ⟨x, rs, B, hk, hvmm, hw⟩ := hb
  obtain ⟨x0, hx0, hinv⟩ := hk.window
  cases hx0
  have hl : LiveOk k.heap rs B [] := ⟨List.nodup_nil, fun _ ha => absurd ha List.not_mem_nil⟩
  obtain ⟨h', v', rs', B', hrun, hk', _⟩ := hk.heapFree_live hl ptr
  obtain ⟨h1, hsame | ⟨r, hr, hrel⟩⟩ := hk.heapFree_any ptr
  · obtain ⟨rfl, rfl⟩ := Prod.mk.inj (Option.some.inj ((hsame _).symm.trans hrun))
    refine ⟨⟨h1, k.kvmm⟩, ?_, ⟨x, rs', B', hk', hvmm, hw⟩, rfl⟩
    exact Option.bind_eq_some_iff.mpr ⟨_, hsame _, rfl⟩
  · obtain ⟨rfl, rfl⟩ := Prod.mk.inj (Option.some.inj ((hrel _).symm.trans hrun))
    -- the region is a range that is lent
    obtain ⟨_, c, hx, hmem⟩ := hk.given r (Or.inl hr)
    cases hx
    obtain ⟨p, hp⟩ := hinv.lends _ hmem
    have hle := hp.le_total
    have hpos := toNat_pos_of_ne hp.count_ne
    have hpt : p < x.mm.vmm.totalPages.toNat := by
      show p < x.mm.vmm.totalPages.toNat
      omega
    have hwin : x.mm.vmm.Window := hinv.space.ready.vmm.toWindow
    have hvirt : r = x.mm.vmm.addr p := hp.virt
    have hbase := (vmmUnreserve_window hwin r (toPage (k.heap.regions r).size)).2
    obtain ⟨memx, hxfree, _⟩ := vmmFree_wired hwin hinv.space.ready.wired hle hpt
    rw [← hvmm] at hwin hw hle hpt
    obtain ⟨mem', hfree, ht⟩ := vmmFree_wired hwin hw hle hpt
    have hw' := hw.touched ht
    rw [hvmm] at hfree hw'
    rw [← hvirt] at hfree hxfree
    let x' : KvmmRun := ⟨⟨vmmUnreserve x.mm.vmm r (toPage (k.heap.regions r).size), x.mm.pmm,
      ⟨memx, x.mm.mmu.cr3⟩⟩, x.live.filter fun z => z.virt ≠ r⟩
    let y : KvmmRun := ⟨⟨vmmUnreserve x.mm.vmm r (toPage (k.heap.regions r).size), k.kvmm.mm.pmm,
      ⟨mem', k.kvmm.mm.mmu.cr3⟩⟩, k.kvmm.live.filter fun z => z.virt ≠ r⟩
    have hxrel : (kernelVmm L).free (some x) r (toPage (k.heap.regions r).size) = some x' :=
      Option.map_eq_some_iff.mpr ⟨_, hxfree, rfl⟩
    have hkrel : (kernelVmm L).free (some k.kvmm) r (toPage (k.heap.regions r).size) = some y :=
      Option.map_eq_some_iff.mpr ⟨_, hfree, rfl⟩
    rw [hxrel] at hk'
    refine ⟨⟨h1, y⟩, ?_, ⟨x', rs', B', hk', rfl, ?_⟩, rfl⟩
    · exact Option.bind_eq_some_iff.mpr ⟨_, hrel _, by rw [hkrel]; rfl⟩
    · rw [show x'.mm.vmm.base = x.mm.vmm.base from hbase]
      exact hw'

/-- The frames run out. -/
theorem MemoryReach.exhaust (hr : MemoryReach L r) (hs : r.kernel.Sealed T) :
    ∃ pmm : Pmm, pmm.Sealed T ∧ (pmmAlloc pmm 1).1 = 0 ∧
      MemoryReach L { r with kernel := r.kernel.withMm pmm r.kernel.kvmm.mm.mmu } := by
  generalize hn : clearCount r.kernel.kvmm.mm.pmm.bitmap r.kernel.kvmm.mm.pmm.totalPages.toNat = n
  induction n using Nat.strongRecOn generalizing r with
  | ind n ih =>
      by_cases h0 : (pmmAlloc r.kernel.kvmm.mm.pmm 1).1 = 0
      · exact ⟨_, hs, h0, hr⟩
      · -- a frame less is free
        rcases pmmAlloc_cases hs.shape 1 with
          ⟨hint, lr, hrun⟩ | ⟨p, hint, lr, _, _, hle, hfree, hrun⟩
        · rw [hrun] at h0
          exact absurd rfl h0
        · have hcount := clearCount_setRun hfree hle
          have h1 : (1 : U32).toNat = 1 := rfl
          have hs' := Pmm.Sealed.alloc hs 1
          rw [hrun] at hs'
          let k := r.kernel.withMm (r.kernel.kvmm.mm.pmm.taken p 1 hint lr) r.kernel.kvmm.mm.mmu
          have hstep : MemoryStep L (.kernel (.pmmAlloc 1)) r { r with kernel := k } := by
            refine ⟨trivial, ?_⟩
            simp only [MemoryCall.run, KernelCall.run, hrun, Option.map_some, k]
            rfl
          refine ih _ ?_ (r := { r with kernel := k }) (.next hr hstep) hs' rfl
          have hless : clearCount (setRun r.kernel.kvmm.mm.pmm.bitmap p (1 : U32).toNat)
            r.kernel.kvmm.mm.pmm.totalPages.toNat < n := by omega
          exact hless

/-- What `proc_register` leaves of a kernel process with a directory of its own. -/
def bareProc : ProcMemory := ⟨procFlagKernel ||| procFlagCreate, 0, zeroVmm, 0, 0, 0⟩

/-- A process on a machine with room for it. -/
theorem smallMemory_register (flags : U32) : ∃ r x h' B rs proc,
    MemoryStart smallLayout r ∧ 0 < r.kernel.kvmm.mm.pmm.totalPages.toNat ∧
    HeapOk true (kernelVmm smallLayout) h' (some x) rs NoPending B ∧
    MemoryStep smallLayout (.register flags) r
      ⟨⟨h', x⟩, update r.procs proc (some ⟨flags ||| procFlagCreate, 0, zeroVmm, 0, 0, 0⟩)⟩ := by
  obtain ⟨⟨m, dirs⟩, hs⟩ := roomyMap_boots
  have hdirs : dirs = [smallLayout.pgPd] := hs.start.dirs_eq
  subst hdirs
  have hk0 : KvmmStart smallLayout ⟨m, []⟩ := ⟨hs.start, rfl⟩
  let r : MemoryRun := ⟨⟨emptyHeap, ⟨m, []⟩⟩, fun _ => none⟩
  have hv : (kernelVmm smallLayout).Ok (some ⟨m, []⟩) := ⟨_, rfl, hk0.inv⟩
  have hk : HeapOk true (kernelVmm smallLayout) emptyHeap (some ⟨m, []⟩) [] NoPending fun _ => [] :=
    heapInit_ok _ hv _
  have hl : LiveOk emptyHeap [] (fun _ => []) [] :=
    ⟨List.nodup_nil, fun _ ha => absurd ha List.not_mem_nil⟩
  obtain ⟨⟨proc, h', v'⟩, hrun, hne⟩ := hk.heapAlloc_ne (show sizeofProcess ≠ 0 by decide)
    (by decide) (hs.kernelVmm_alloc (by decide) (by decide))
  have hle : sizeofProcess ≠ 0 → (0 : U32) ≤ allocSize sizeofProcess := fun _ => by decide
  obtain ⟨res, hrun', rs, B, hk', _⟩ :=
    hk.heapAlloc_live hl (fun _ hz => Bool.noConfusion hz) hle true
  rw [hrun] at hrun'
  cases hrun'
  obtain ⟨x, rfl, _⟩ := hk'.window
  have halloc : r.kernel.alloc smallLayout sizeofProcess true = some (proc, ⟨h', x⟩) :=
    KernelMemory.alloc_some (k := ⟨emptyHeap, ⟨m, []⟩⟩) hrun
  have hpos : 0 < m.pmm.totalPages.toNat := Nat.lt_of_lt_of_le (by decide) hs.frames_le
  refine ⟨r, x, h', B, rs, proc, ⟨_, rfl, hk0, fun _ => rfl⟩, hpos, hk', trivial, ?_⟩
  simp only [MemoryCall.run, procRegisterMemory, halloc, Option.map_some]
  rw [if_neg hne]
  rfl

/-- A process is registered. -/
theorem memoryRun_frame0_registered :
    ∃ r : MemoryRun, (∃ proc p, r.procs proc = some p) ∧ r.kernel.Frame0 := by
  obtain ⟨r, x, h, B, rs, proc, hstart, _, _, hreg⟩ := smallMemory_register procFlagKernel
  have hmade : (MemoryCall.register procFlagKernel).Made r := trivial
  exact ⟨_, ⟨proc, _, update_self ..⟩,
    memoryRun_frame0 (L := smallLayout) (.next (.start hstart) ⟨hmade, hreg⟩)⟩

/-- `create_proc` of it, which goes on without a directory when no frame is left. -/
def createdProc : ProcMemory := { bareProc with flags := procFlagKernel }

theorem createProcMemory_bare (L : Layout) (k : KernelMemory)
    (h0 : (pmmAlloc k.kvmm.mm.pmm 1).1 = 0) :
    createProcMemory L k bareProc
      = some (k.withMm (pmmAlloc k.kvmm.mm.pmm 1).2 k.kvmm.mm.mmu, createdProc) := by
  have hpd : pgdCreatePd L k.kvmm.mm
      = some (0, ⟨k.kvmm.mm.vmm, (pmmAlloc k.kvmm.mm.pmm 1).2, k.kvmm.mm.mmu⟩) := by
    rw [pgdCreatePd]
    simp only [h0, if_true]
    rfl
  have hflags : bareProc.flags &&& ~~~procFlagCreate = procFlagKernel := by decide
  have h1 : procFlagKernel &&& procFlagStack = 0 := by decide
  have h2 : procFlagKernel &&& procSharedAddrSpace = 0 := by decide
  have h3 : procFlagKernel &&& procFlagHeap = 0 := by decide
  simp only [createProcMemory, createStack, createDirectory, createWindow, ProcMemory.Has, hflags,
    h1, h2, h3, hpd, ne_eq, not_true_eq_false, if_false, false_and, Option.map_some,
    Option.bind_eq_bind, Option.bind_some]
  rfl

/-- The process when it is to be destroyed. -/
def killedProc : ProcMemory := { createdProc with flags := procFlagKernel ||| procFlagKill }

theorem destroyProcMemory_killed (L : Layout) (k : KernelMemory) (proc : U32) :
    destroyProcMemory L k proc killedProc = (pgdDestroyPd k 0).free L proc := by
  have h1 : killedProc.flags &&& procFlagStack = 0 := by decide
  have h2 : killedProc.flags &&& procSharedAddrSpace = 0 := by decide
  have h3 : killedProc.flags &&& procFlagHeap = 0 := by decide
  have hexe : killedProc.exe = 0 := rfl
  have hcr3 : killedProc.cr3 = 0 := rfl
  simp only [destroyProcMemory, destroyWindow, destroyStack, destroyDirectory, destroyExe,
    ProcMemory.Has, h1, h2, h3, hexe, hcr3, ne_eq, not_true_eq_false, if_false, false_and,
    Option.bind_eq_bind, Option.bind_some]

/-- Its three steps, from a state with no frame left. -/
theorem MemoryReach.destroyed (hr : MemoryReach L r) {proc : U32} (hp : r.procs proc = some bareProc)
    (h0 : (pmmAlloc r.kernel.kvmm.mm.pmm 1).1 = 0)
    (hfree : (pgdDestroyPd (r.kernel.withMm (pmmAlloc r.kernel.kvmm.mm.pmm 1).2
      r.kernel.kvmm.mm.mmu) 0).free L proc = some k') :
    ∃ procs, MemoryReach L ⟨k', procs⟩ := by
  let k := r.kernel.withMm (pmmAlloc r.kernel.kvmm.mm.pmm 1).2 r.kernel.kvmm.mm.mmu
  let r1 := MemoryRun.setProc ⟨k, r.procs⟩ proc createdProc
  let r2 := r1.setProc proc killedProc
  have hcreate : MemoryStep L (.create proc) r r1 := by
    refine ⟨trivial, ?_⟩
    simp only [MemoryCall.run, hp, Option.bind_eq_bind, Option.bind_some]
    rw [if_pos (by decide), createProcMemory_bare L r.kernel h0]
    rfl
  have hunload : MemoryStep L (.unload proc) r1 r2 := by
    refine ⟨trivial, ?_⟩
    have hp1 : r1.procs proc = some createdProc := update_self ..
    simp only [MemoryCall.run, hp1, Option.map_some]
    rfl
  have hdestroy : MemoryStep L (.destroy proc) r2 ⟨k', update r2.procs proc none⟩ := by
    refine ⟨trivial, ?_⟩
    have hp2 : r2.procs proc = some killedProc := update_self ..
    simp only [MemoryCall.run, hp2, Option.bind_eq_bind, Option.bind_some]
    rw [if_pos (by decide), destroyProcMemory_killed]
    exact Option.map_eq_some_iff.mpr ⟨k', hfree, rfl⟩
  exact ⟨_, ((hr.next hcreate).next hunload).next hdestroy⟩

/-- Frame 0 is given back with the process: `destroy_proc` passes on the 0 that
`pgd_create_pd` returned. -/
theorem destroyProc_frees_zero : ¬ ∀ L r, MemoryReach L r → r.kernel.Frame0 := by
  intro hall
  obtain ⟨r, x, h, B, rs, proc, hstart, hpos, hk, hreg⟩ := smallMemory_register procFlagKernel
  have hs := MemoryCall.run_sealed hstart.sealed hreg.1 trivial hreg.2
  obtain ⟨pmm, hpmm, h0, hreach⟩ := MemoryReach.exhaust (.next (.start hstart) hreg) hs
  have hleft := hpmm.alloc 1
  have hbacked : (⟨h, ⟨⟨x.mm.vmm, pmmFree (pmmAlloc pmm 1).2 0 1, x.mm.mmu⟩, x.live⟩⟩ :
      KernelMemory).Backed smallLayout := hk.backed _
  obtain ⟨k', hfree, _, hpmm'⟩ := hbacked.free proc
  obtain ⟨procs, hreach'⟩ := hreach.destroyed (update_self proc _ _) h0 hfree
  rw [← hleft.total] at hpos
  obtain ⟨htotal, hopen⟩ := hleft.shape.free_zero hpos
  have hzero := (hall _ _ hreach').1
  rw [hpmm', htotal, hopen] at hzero
  exact Bool.noConfusion (hzero hpos)

end Tomk
