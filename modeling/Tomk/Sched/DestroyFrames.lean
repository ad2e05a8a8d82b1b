/-
# The frames that `destroy_proc` gives back

`vmm_destroy` gives back the frames of the pages, `pgd_destroy_pd` the one of the
directory.  The calls of `kfree` in between (the bitmap, the stack, the image, and
last the process) give their blocks back to the heap and, when a region is empty,
its pages to the kernel's window; `vmm_free` frees no frame for them.
-/
import Tomk.Sched.ProcMemory

namespace Tomk

variable {L : Layout} {k : KernelMemory} {p : ProcMemory} {h : Home}

theorem KernelMemory.Backed.withMm (hb : k.Backed L) (pmm : Pmm) {mmu : Mmu} {P : Nat → Prop}
    (hcr3 : mmu.cr3 = k.kvmm.mm.mmu.cr3)
    (ht : Touched L k.kvmm.mm.mmu.cr3 P k.kvmm.mm.mmu.mem mmu.mem) :
    (k.withMm pmm mmu).Backed L := by
  obtain ⟨x, rs, B, hk, hvmm, hw⟩ := hb
  refine ⟨x, rs, B, hk, hvmm, ?_⟩
  show Wired L _ mmu.mem mmu.cr3
  rw [hcr3]
  exact hw.touched ht

/-! ## The steps of `destroy_proc` -/

theorem procFree_frames (hb : k.Backed L) (htyped : p.Typed) (ptr : U32) :
    ∃ k', procFree L k p ptr = some k' ∧ k'.Backed L ∧ k'.kvmm.mm.pmm = k.kvmm.mm.pmm := by
  rw [procFree, if_pos htyped]
  exact hb.free ptr

theorem destroyStack_frames (hb : k.Backed L) (htyped : p.Typed) :
    ∃ k', destroyStack L k p = some k' ∧ k'.Backed L ∧ k'.kvmm.mm.pmm = k.kvmm.mm.pmm := by
  rw [destroyStack]
  split
  · exact procFree_frames hb htyped p.stack
  · exact ⟨k, rfl, hb, rfl⟩

theorem destroyExe_frames (hb : k.Backed L) (htyped : p.Typed) :
    ∃ k', destroyExe L k p = some k' ∧ k'.Backed L ∧ k'.kvmm.mm.pmm = k.kvmm.mm.pmm := by
  rw [destroyExe]
  split
  · exact procFree_frames hb htyped p.exe
  · exact ⟨k, rfl, hb, rfl⟩

/-- The frame of the directory, unless the process shares the kernel's. -/
theorem destroyDirectory_frames (hb : k.Backed L) :
    (destroyDirectory k p).Backed L ∧ (destroyDirectory k p).kvmm.mm.pmm =
      if p.Has procSharedAddrSpace then k.kvmm.mm.pmm else pmmFree k.kvmm.mm.pmm p.cr3 1 := by
  rw [destroyDirectory]
  split
  · exact ⟨hb, rfl⟩
  · exact ⟨hb.withMm _ rfl (Touched.refl _ _ (fun _ => False) _), rfl⟩

/-- The frames of the pages. -/
theorem destroyWindow_frames (hb : k.Backed L) (hheap : p.Has procFlagHeap) (hbitmap : p.bitmap ≠ 0)
    (hv : p.vmm.Window)
    (hw : Wired L (pdIndex p.vmm.base).toNat k.kvmm.mm.mmu.mem k.kvmm.mm.mmu.cr3) :
    ∃ d k', vmmDestroyPages ⟨⟨p.vmm, k.kvmm.mm.pmm, k.kvmm.mm.mmu⟩, []⟩ = some d ∧
      destroyWindow L k p = some k' ∧ k'.Backed L ∧ k'.kvmm.mm.pmm = d.mm.pmm := by
  obtain ⟨d, n, hrun, _, hd⟩ :=
    vmmDestroyPages_done (m := ⟨p.vmm, k.kvmm.mm.pmm, k.kvmm.mm.mmu⟩) hv hw
  obtain ⟨k', hfree, hb', hpmm⟩ := (hb.withMm d.mm.pmm hd.cr3 hd.touched).free p.bitmap
  refine ⟨d, k', hrun, ?_, hb', hpmm⟩
  simp only [destroyWindow, if_pos hheap, if_neg hbitmap, hrun, Option.bind_eq_bind,
    Option.bind_some, hfree]

/-- **`destroy_proc`** gives back what the loop of `vmm_destroy` frees and the frame of
the directory, and no other frame. -/
theorem destroyProcMemory_frames (proc : U32) (hb : k.Backed L) (htyped : p.Typed)
    (hheap : p.Has procFlagHeap) (hbitmap : p.bitmap ≠ 0) (hv : p.vmm.Window)
    (hw : Wired L (pdIndex p.vmm.base).toNat k.kvmm.mm.mmu.mem k.kvmm.mm.mmu.cr3) :
    ∃ d k', vmmDestroyPages ⟨⟨p.vmm, k.kvmm.mm.pmm, k.kvmm.mm.mmu⟩, []⟩ = some d ∧
      destroyProcMemory L k proc p = some k' ∧ k'.kvmm.mm.pmm =
        if p.Has procSharedAddrSpace then d.mm.pmm else pmmFree d.mm.pmm p.cr3 1 := by
  obtain ⟨d, k1, hloop, hwin, hb1, hpmm1⟩ := destroyWindow_frames hb hheap hbitmap hv hw
  obtain ⟨k2, hstack, hb2, hpmm2⟩ := destroyStack_frames hb1 htyped
  obtain ⟨hb3, hpmm3⟩ := destroyDirectory_frames (p := p) hb2
  obtain ⟨k4, hexe, hb4, hpmm4⟩ := destroyExe_frames hb3 htyped
  obtain ⟨k5, hproc, _, hpmm5⟩ := hb4.free proc
  refine ⟨d, k5, hloop, ?_, ?_⟩
  · simp only [destroyProcMemory, hwin, hstack, hexe, hproc, Option.bind_eq_bind, Option.bind_some]
  · rw [hpmm5, hpmm4, hpmm3, hpmm2, hpmm1]

/-! ## A process with a directory of its own -/

/-- The process of a run, as the scheduler has it when it destroys it. -/
structure Home.IsProc (L : Layout) (h : Home) (k : KernelMemory) (p : ProcMemory) : Prop where
  pmm : k.kvmm.mm.pmm = h.space.mm.pmm
  mmu : k.kvmm.mm.mmu = ⟨h.space.mm.mmu.mem, L.pgPd⟩
  vmm : p.vmm = h.vmm
  cr3 : p.cr3 = frameAddr h.dir
  bitmap : p.bitmap ≠ 0
  heap : p.Has procFlagHeap
  own : ¬ p.Has procSharedAddrSpace
  typed : p.Typed

/-- All of `destroy_proc`: where the kernel's directory shows the pages of the process as its
own does, their frames and that of its directory are free afterwards, and no other
frame has changed. -/
theorem HomeReach.destroyProc (hr : HomeReach L h) (hs : h.Shown L) (hb : k.Backed L)
    (hp : h.IsProc L k p) (proc : U32) :
    ∃ k', destroyProcMemory L k proc p = some k' ∧
      k'.kvmm.mm.pmm = pmmFree (freeAll h.space.mm.pmm h.ownPages) (frameAddr h.dir) 1 := by
  have hi := hr.inv
  obtain ⟨d, hloop, _, _, hpmm⟩ := hi.destroys_iff.mpr hs
  have hmm : (⟨p.vmm, k.kvmm.mm.pmm, k.kvmm.mm.mmu⟩ : Mm) = h.atDestroy L := by
    rw [hp.vmm, hp.pmm, hp.mmu, Home.atDestroy]
  have hw : Wired L (pdIndex p.vmm.base).toNat k.kvmm.mm.mmu.mem k.kvmm.mm.mmu.cr3 := by
    rw [hp.vmm, hi.base, show (pdIndex uvirt).toNat = 0 by decide, hp.mmu]
    exact hi.boot
  have hv : p.vmm.Window := hp.vmm ▸ hi.window
  obtain ⟨d', k', hloop', hrun, hpmm'⟩ :=
    destroyProcMemory_frames proc hb hp.typed hp.heap hp.bitmap hv hw
  rw [hmm, hloop] at hloop'
  cases hloop'
  refine ⟨k', hrun, ?_⟩
  rw [hpmm', if_neg hp.own, hp.cr3, hpmm]

end Tomk
