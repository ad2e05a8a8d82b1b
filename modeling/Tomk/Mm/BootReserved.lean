/-
# What the boot has reserved

`mminit` marks three ranges in both managers: the first megabyte, the kernel
image, and the bitmaps that `kinit_alloc` has handed out.  The marks are made
after the bitmaps are filled, with sizes that are rounded and addresses that
are converted; `Mm.Reserves` (from `mminit_handed`) is what they come to.

A run here is any sequence of allocations after `mminit`, and it records what
the calls have returned: ranges of frames and ranges of pages.  None of them
has a byte of the kernel (`bootRun_clear`), because allocations take pages that
are free, and clear no bit of any other page.
-/
import Tomk.Mm.FrameOwner

namespace Tomk

open WordBits Runs

/-- The memory managers, and what the calls have returned so far: frames, with
those that pages were mapped to, and ranges of pages. -/
structure BootRun where
  mm : Mm
  frames : List (U32 × U32)
  ranges : List (U32 × U32)

inductive BootCall where
  | pmmAlloc (count : U32)
  | reserve (count : U32)
  | alloc (count : U32)
  | allocContiguous (count : U32)

/-- The frames that the pages of a range are mapped to. -/
def backing (m : Mm) (virt count : U32) : List (U32 × U32) :=
  (List.range count.toNat).filterMap fun i =>
    (walk m.mmu.mem m.mmu.cr3 (pageAt virt i)).map fun f => (frameAddr f, 1)

/-- `vmm_alloc` or `vmm_alloc_contiguous` has returned. -/
def BootRun.ret (s : BootRun) (count : U32) (r : U32 × Mm) : BootRun :=
  if r.1 = 0 then { s with mm := r.2 }
  else ⟨r.2, backing r.2 r.1 count ++ s.frames, (r.1, count) :: s.ranges⟩

def BootCall.run (L : Layout) (s : BootRun) : BootCall → Option BootRun
  | .pmmAlloc count =>
      let (phys, pmm) := Tomk.pmmAlloc s.mm.pmm count
      some ⟨{ s.mm with pmm := pmm }, if phys = 0 then s.frames else (phys, count) :: s.frames,
        s.ranges⟩
  | .reserve count =>
      let (virt, vmm) := vmmReserve s.mm.vmm count
      some ⟨{ s.mm with vmm := vmm }, s.frames,
        if virt = 0 then s.ranges else (virt, count) :: s.ranges⟩
  | .alloc count => (vmmAlloc L s.mm count).map (s.ret count)
  | .allocContiguous count => (vmmAllocContiguous L s.mm count).map (s.ret count)

/-- `mminit` has completed, and `kinit_alloc` has handed out `handed` in it. -/
def BootStart (L : Layout) (handed : List (U32 × U32)) (s : BootRun) : Prop :=
  ∃ (img : Image) (mem : PhysMem) (map : KPhysMap) (vmm : Vmm) (pmm : Pmm) (mmu : Mmu),
    img.toLayout = L ∧ BssClear L mem ∧ bootMmu img mem = some mmu ∧
      mminit L map ⟨vmm, pmm, mmu⟩ = some s.mm ∧
      kinitHanded L map ⟨vmm, pmm, mmu⟩ = some handed ∧ s.frames = [] ∧ s.ranges = []

/-- The states of all runs. -/
def BootReach (L : Layout) (handed : List (U32 × U32)) : BootRun → Prop :=
  Reach (BootStart L handed) fun c s s' => BootCall.run L s c = some s'

/-- A range of pages, of which none has a byte of the kernel; the bytes of the
kernel are at `base` and after. -/
def KernelFree (L : Layout) (handed : List (U32 × U32)) (base : Nat) (x : U32 × U32) : Prop :=
  ∀ b, KernelByte L handed b →
    ¬ (x.1.toNat ≤ base + b ∧ base + b < x.1.toNat + x.2.toNat * 4096)

/-! ## The invariant -/

structure BootRun.Inv (L : Layout) (handed : List (U32 × U32)) (s : BootRun) : Prop where
  space : Space.Inv L ⟨s.mm, [L.pgPd]⟩
  reserves : s.mm.Reserves L handed
  frames : ∀ x ∈ s.frames, KernelFree L handed 0 x
  ranges : ∀ x ∈ s.ranges, KernelFree L handed kvirt.toNat x

variable {L : Layout} {handed : List (U32 × U32)} {s s' : BootRun} {m m' : Mm}

/-- What is taken out of free pages has no byte of the kernel, where the pages
of the kernel are in use. -/
theorem kernelFree_of_free {bits : Words 32} {total base p : Nat} {x : U32 × U32}
    (hres : ∀ b, KernelByte L handed b → b / 4096 < total → test bits (b / 4096) = true)
    (hx : x.1.toNat = base + p * 4096) (hle : p + x.2.toNat ≤ total)
    (hf : FreeRun bits p x.2.toNat) : KernelFree L handed base x := by
  rintro b hb ⟨h1, h2⟩
  have hset := hres b hb (by omega)
  have hclr := hf (b / 4096 - p) (by omega)
  rw [show p + (b / 4096 - p) = b / 4096 by omega, hset] at hclr
  exact Bool.noConfusion hclr

/-- Allocations keep the reservations. -/
theorem Mm.Reserves.keep {p n : Nat} (h : m.Reserves L handed) (ha : m.Around L m' p n)
    (hf : FreeRun m.vmm.bitmap p n) : m'.Reserves L handed where
  pmm := fun b hb hq => by
    rw [ha.total] at hq
    exact ha.used _ (h.pmm b hb hq)
  vmm := fun b hb hq => by
    rw [ha.window.total] at hq
    have hset := h.vmm b hb hq
    refine ha.bits _ (fun hin => ?_) hset
    have h1 := hin.1
    have h2 := hin.2
    have hclr := hf (b / 4096 - p) (by omega)
    rw [show p + (b / 4096 - p) = b / 4096 by omega, hset] at hclr
    exact Bool.noConfusion hclr

/-- A range of free pages of the window. -/
theorem BootRun.Inv.range_free (h : s.Inv L handed) {p : Nat} {n : U32} (hn : n ≠ 0)
    (hle : p + n.toNat ≤ s.mm.vmm.totalPages.toNat) (hf : FreeRun s.mm.vmm.bitmap p n.toNat) :
    KernelFree L handed kvirt.toNat (s.mm.vmm.addr p, n) := by
  have hpos := toNat_pos_of_ne hn
  have hlt : p < s.mm.vmm.totalPages.toNat := by omega
  have haddr := h.space.vmm.toNat_addr hlt
  rw [h.space.base] at haddr
  exact kernelFree_of_free h.reserves.vmm haddr hle hf

/-! ## The calls -/

theorem BootRun.Inv.pmmAlloc (h : s.Inv L handed) (n : U32) :
    ∃ s', BootCall.run L s (.pmmAlloc n) = some s' ∧ s'.Inv L handed := by
  refine ⟨_, rfl, h.space.framesTaken n, ?_, ?_, h.ranges⟩
  · have hused := pmmAlloc_used h.space.pmm n
    exact h.reserves.keep (s.mm.around_pmm (Vmm.SameWindow.refl _) rfl hused.1 hused.2)
      (freeRun_zero _ _)
  · show ∀ x ∈ (if (Tomk.pmmAlloc s.mm.pmm n).1 = 0 then s.frames
      else ((Tomk.pmmAlloc s.mm.pmm n).1, n) :: s.frames), _
    have hnew : (Tomk.pmmAlloc s.mm.pmm n).1 ≠ 0 →
        KernelFree L handed 0 ((Tomk.pmmAlloc s.mm.pmm n).1, n) := by
      intro hne
      have htl := h.space.pmm.total_lt
      rcases pmmAlloc_cases h.space.pmm n with ⟨_, _, hr⟩ | ⟨p, _, _, hn, _, hp, hf, hr⟩
      · rw [hr] at hne
        exact absurd rfl hne
      · rw [hr]
        have hpos := toNat_pos_of_ne hn
        refine kernelFree_of_free (p := p) h.reserves.pmm ?_ hp hf
        show (toAddr (BitVec.ofNat 32 p)).toNat = _
        rw [toNat_toAddr, BitVec.toNat_ofNat]
        omega
    exact fun x hx => (live_ret hnew x hx).elim (h.frames x) id

theorem BootRun.Inv.reserve (h : s.Inv L handed) (n : U32) :
    ∃ s', BootCall.run L s (.reserve n) = some s' ∧ s'.Inv L handed := by
  refine ⟨_, rfl, ?_, ?_, h.frames, ?_⟩
  · obtain ⟨s', hr, hs', _⟩ := h.space.keeps_reserve n
    cases hr
    exact hs'
  · show Mm.Reserves ⟨(vmmReserve s.mm.vmm n).2, s.mm.pmm, s.mm.mmu⟩ L handed
    rcases vmmReserve_cases h.space.ready.vmm n with ⟨_, lr, hr⟩ | ⟨_, p, lr, hf, _, hr⟩
    · rw [hr]
      exact ⟨h.reserves.pmm, h.reserves.vmm⟩
    · rw [hr]
      exact ⟨h.reserves.pmm, fun b hb hq => Vmm.reserved_bits (h.reserves.vmm b hb hq)⟩
  · show ∀ x ∈ (if (vmmReserve s.mm.vmm n).1 = 0 then s.ranges
      else ((vmmReserve s.mm.vmm n).1, n) :: s.ranges), _
    have hnew : (vmmReserve s.mm.vmm n).1 ≠ 0 →
        KernelFree L handed kvirt.toNat ((vmmReserve s.mm.vmm n).1, n) := by
      intro hne
      rcases vmmReserve_cases h.space.ready.vmm n with ⟨_, _, hr⟩ | ⟨hres, p, lr, hf, _, hr⟩
      · rw [hr] at hne
        exact absurd rfl hne
      · rw [hr]
        exact h.range_free hres.1 hf.le_total hf.free
    exact fun x hx => (live_ret hnew x hx).elim (h.ranges x) id

/-- `vmm_alloc` or `vmm_alloc_contiguous` has returned. -/
theorem BootRun.Inv.allocates (h : s.Inv L handed) {n r : U32} {c : Bool}
    (hs : Space.Inv L ⟨m', [L.pgPd]⟩) (ha : s.mm.Allocates L n c r m') :
    (s.ret n (r, m')).Inv L handed := by
  obtain ⟨p, k, hf, hk, hret⟩ := ha
  have hres := h.reserves.keep hk hf
  by_cases h0 : r = 0
  · rw [BootRun.ret, if_pos h0]
    exact ⟨hs, hres, h.frames, h.ranges⟩
  obtain ⟨rfl, hx, F, hadd, hlen⟩ := hret h0
  have hvirt : r = m'.vmm.addr p := hx.virt
  have hle : p + n.toNat ≤ m'.vmm.totalPages.toNat := hx.le_total
  rw [BootRun.ret, if_neg h0]
  refine ⟨hs, hres, fun x hmem => ?_, fun x hmem => ?_⟩
  · rcases List.mem_append.mp hmem with hmem | hmem
    · -- a frame behind a page of the range: it was free
      obtain ⟨i, hi, hwalk⟩ := List.mem_filterMap.mp hmem
      have hi' : i < F.length := hlen ▸ List.mem_range.mp hi
      have hF : F[i] ∈ F := List.getElem_mem hi'
      have hused := (hadd.used _ hF).1
      have htl := hs.pmm.total_lt
      have hw : walk m'.mmu.mem m'.mmu.cr3 (m'.vmm.addr (p + i)) = some (BitVec.ofNat 20 F[i]) :=
        hadd.maps i _ (List.getElem?_eq_getElem hi')
      simp only [hvirt, Vmm.pageAt_addr, hw, Option.map_some, Option.some.injEq] at hwalk
      subst hwalk
      rw [hk.total] at hused
      refine kernelFree_of_free (p := F[i]) h.reserves.pmm ?_ hused fun j hj => ?_
      · show (frameAddr (BitVec.ofNat 20 F[i])).toNat = _
        have : m'.pmm.totalPages.toNat < 2 ^ 20 := htl
        rw [hk.total] at this
        rw [toNat_frameAddr, BitVec.toNat_ofNat]
        omega
      · have hj0 : j = 0 := Nat.lt_one_iff.mp hj
        rw [hj0]
        exact hadd.free _ hF
    · exact h.frames x hmem
  · rcases List.mem_cons.mp hmem with rfl | hmem
    · rw [hvirt, hk.window.addr]
      rw [hk.window.total] at hle
      exact h.range_free hx.count_ne hle hf
    · exact h.ranges x hmem

/-- **One call** returns, and keeps the invariant. -/
theorem BootRun.Inv.call (h : s.Inv L handed) (c : BootCall) :
    ∃ s', c.run L s = some s' ∧ s'.Inv L handed := by
  cases c with
  | pmmAlloc n => exact h.pmmAlloc n
  | reserve n => exact h.reserve n
  | alloc n =>
      obtain ⟨r, m', hr, hs, ha⟩ := h.space.vmmAlloc n
      exact ⟨_, Option.map_eq_some_iff.mpr ⟨(r, m'), hr, rfl⟩, h.allocates hs ha⟩
  | allocContiguous n =>
      obtain ⟨r, m', hr, hs, ha⟩ := h.space.vmmAllocContiguous n
      exact ⟨_, Option.map_eq_some_iff.mpr ⟨(r, m'), hr, rfl⟩, h.allocates hs ha⟩

/-! ## Whole runs -/

theorem mminit_regions {map : KPhysMap} (h : mminit L map m = some m') : map.regions ≠ [] := by
  intro hnil
  simp only [mminit, pmmInit, if_pos hnil, Option.bind_eq_bind, Option.bind_none] at h
  cases hk : kinitAllocInit (align L.secKend pageSize) 0x00100000 with
  | none => simp only [hk, Option.bind_none, reduceCtorEq] at h
  | some ka => simp only [hk, Option.bind_some, reduceCtorEq] at h

theorem BootStart.inv (h : BootStart L handed s) : s.Inv L handed := by
  obtain ⟨img, mem, map, vmm, pmm, mmu, rfl, hclr, hboot, hinit, hhand, hf, hr⟩ := h
  have hmap := mminit_regions hinit
  have hstart : KernelStart img.toLayout ⟨s.mm, [img.pgPd]⟩ :=
    ⟨img, mem, map, vmm, pmm, mmu, rfl, hclr, hmap, hboot, hinit, rfl⟩
  obtain ⟨mem', hb, hk, _, _⟩ := bootMmu_dir img hclr
  rw [hb] at hboot
  cases hboot
  obtain ⟨m', handed', hm, hh, _, _, _, hres, _⟩ :=
    mminit_handed map hmap (m := ⟨vmm, pmm, ⟨mem', img.pgPd⟩⟩) hk
  rw [hm] at hinit
  cases hinit
  rw [hh] at hhand
  cases hhand
  refine ⟨hstart.inv, hres, ?_, ?_⟩
  · rw [hf]
    exact fun _ hx => absurd hx List.not_mem_nil
  · rw [hr]
    exact fun _ hx => absurd hx List.not_mem_nil

theorem BootReach.inv (h : BootReach L handed s) : s.Inv L handed := by
  refine Reach.invariant (BootRun.Inv L handed) (fun _ hs => hs.inv) (fun c s s' hs hstep => ?_) h
  obtain ⟨s'', hr, hs'⟩ := hs.call c
  rw [hstep] at hr
  cases hr
  exact hs'

/-- **Boot reservation.**  In every state that a run of allocations reaches, no
frame and no range of pages that a call has returned has a byte of the kernel;
and every call returns. -/
theorem bootRun_clear (h : BootReach L handed s) :
    (∀ x ∈ s.frames, KernelFree L handed 0 x) ∧
      (∀ x ∈ s.ranges, KernelFree L handed kvirt.toNat x) ∧
      ∀ c : BootCall, ∃ s', c.run L s = some s' := by
  refine ⟨h.inv.frames, h.inv.ranges, fun c => ?_⟩
  obtain ⟨s', hr, _⟩ := h.inv.call c
  exact ⟨s', hr⟩

/-- Where a run of the kernel starts, one of these does. -/
theorem KernelStart.boot (h : KernelStart L ⟨m, [L.pgPd]⟩) :
    ∃ handed, BootStart L handed ⟨m, [], []⟩ := by
  obtain ⟨img, mem, map, vmm, pmm, mmu, rfl, hclr, hmap, hboot, hinit, _⟩ := h
  obtain ⟨mem', hb, hk, _, _⟩ := bootMmu_dir img hclr
  obtain ⟨_, handed, _, hhand, _⟩ :=
    mminit_handed map hmap (m := ⟨vmm, pmm, ⟨mem', img.pgPd⟩⟩) hk
  rw [hb] at hboot
  cases hboot
  exact ⟨handed, img, mem, map, vmm, pmm, _, rfl, hclr, hb, hinit, hhand, rfl, rfl⟩

/-- One page of the small machine is allocated. -/
theorem bootRun_clear_one : ∃ handed s x, BootReach smallLayout handed s ∧ x ∈ s.ranges ∧
    KernelFree smallLayout handed kvirt.toNat x := by
  obtain ⟨⟨m, dirs⟩, hs⟩ := smallImage_start
  have hdirs : dirs = [smallLayout.pgPd] := hs.start.dirs_eq
  subst hdirs
  obtain ⟨handed, hstart⟩ := hs.start.boot
  have hfree : 1 ≤ m.pmm.freePages := by
    rw [BitVec.le_def]
    exact Nat.le_of_succ_le hs.frames
  obtain ⟨r, m', hr, h0⟩ := vmmAlloc_enough hs.consistent hs.page hfree
  have hrun : BootCall.run smallLayout ⟨m, [], []⟩ (.alloc 1)
      = some ⟨m', backing m' r 1 ++ [], [(r, 1)]⟩ := by
    rw [BootCall.run, show vmmAlloc smallLayout (BootRun.mk m [] []).mm 1 = some (r, m') from hr,
      Option.map_some, BootRun.ret, if_neg h0]
  have hreach : BootReach smallLayout handed ⟨m', backing m' r 1 ++ [], [(r, 1)]⟩ :=
    Reach.next (a := BootCall.alloc 1) (.start hstart) hrun
  exact ⟨handed, _, (r, 1), hreach, List.mem_cons_self,
    (bootRun_clear hreach).2.1 _ List.mem_cons_self⟩

end Tomk
