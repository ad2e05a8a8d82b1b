/-
# Runs of the kernel's memory management

A run starts where `mminit` ends, under the boot directory, and goes through
any calls of the two managers, of `pg_map` and `pg_unmap` on kernel
addresses, and of `pgd_create_pd`, with any of the directories made so far
loaded in between.  `KernelCall.Legal` says what a caller owes: ranges of
the kernel window, directories that exist, and, for `pmm_free`, frames that
are not the kernel's own.

`Space.Inv` is the invariant: the managers have their shape, every directory
has every kernel entry, each the static one, and the frames of the static
tables and of the directories are not handed out.  One lemma per kind of
call carries it, and together they are the step lemma (`Space.Inv.keeps`).

It follows that all directories translate the kernel's addresses alike
(`kernelRun_coherent`): a call made under one of them writes the tables of
all of them.
-/
import Tomk.Lib.Runs
import Tomk.Mm.AddrSpace

namespace Tomk

open WordBits Runs

/-- The memory managers and the directories made so far. -/
structure Space where
  mm : Mm
  dirs : List Frame

inductive KernelCall where
  | createPd
  | loadCr3 (dir : Frame)
  | map (virt phys flags count : U32)
  | unmap (virt count : U32)
  | mmap (phys length flags : U32)
  | munmap (virt length : U32)
  | reserve (count : U32)
  | unreserve (virt count : U32)
  | alloc (count : U32)
  | allocContiguous (count : U32)
  | free (virt count : U32)
  | pmmAlloc (count : U32)
  | pmmFree (phys count : U32)

/-- The pages of a range lie in `[KVIRT, KVIRT_END)`. -/
def KernelRange (virt count : U32) : Prop :=
  768 * 1024 ≤ pageNo virt ∧ pageNo virt + count.toNat ≤ 1023 * 1024

/-- Pages of the window of the VMM, from its page `p` on. -/
def Vmm.InWindow (v : Vmm) (virt count : U32) : Prop :=
  ∃ p, virt = v.addr p ∧ p < v.totalPages.toNat ∧ p + count.toNat ≤ v.totalPages.toNat

/-- The frames no caller may give back: page 0, the static tables and the
directories. -/
def Space.Owned (L : Layout) (s : Space) (p : Nat) : Prop :=
  p = 0 ∨ (∃ i, p = (L.ptFrame i).toNat) ∨ ∃ d ∈ s.dirs, p = d.toNat

/-- What the caller owes. -/
def KernelCall.Legal (L : Layout) (s : Space) : KernelCall → Prop
  | .loadCr3 dir => dir ∈ s.dirs
  | .map virt _ _ count => KernelRange virt count
  | .unmap virt count => KernelRange virt count
  | .munmap virt length => s.mm.vmm.InWindow virt (lengthPages length)
  | .free virt count => s.mm.vmm.InWindow virt count
  | .pmmFree phys count =>
      ∀ q, phys.toNat / 4096 ≤ q → q < phys.toNat / 4096 + count.toNat → ¬ s.Owned L q
  | _ => True

/-- The call, with its result dropped where it has one. -/
def KernelCall.run (L : Layout) (s : Space) : KernelCall → Option Space
  | .createPd => (pgdCreatePd L s.mm).map fun r =>
      ⟨r.2, if r.1 = 0 then s.dirs else frameOf r.1 :: s.dirs⟩
  | .loadCr3 dir => some { s with mm := { s.mm with mmu := ⟨s.mm.mmu.mem, dir⟩ } }
  | .map virt phys flags count => (pgMap L s.mm.mmu virt phys flags count).map fun mmu =>
      { s with mm := { s.mm with mmu := mmu } }
  | .unmap virt count => (pgUnmap s.mm.mmu virt count).map fun mmu =>
      { s with mm := { s.mm with mmu := mmu } }
  | .mmap phys length flags => (Tomk.mmap L s.mm phys length flags).map fun r =>
      { s with mm := r.2 }
  | .munmap virt length => (Tomk.munmap s.mm virt length).map fun m => { s with mm := m }
  | .reserve count => some { s with mm := { s.mm with vmm := (vmmReserve s.mm.vmm count).2 } }
  | .unreserve virt count =>
      some { s with mm := { s.mm with vmm := vmmUnreserve s.mm.vmm virt count } }
  | .alloc count => (vmmAlloc L s.mm count).map fun r => { s with mm := r.2 }
  | .allocContiguous count => (vmmAllocContiguous L s.mm count).map fun r => { s with mm := r.2 }
  | .free virt count => (vmmFree s.mm virt count).map fun m => { s with mm := m }
  | .pmmAlloc count => some { s with mm := { s.mm with pmm := (Tomk.pmmAlloc s.mm.pmm count).2 } }
  | .pmmFree phys count =>
      some { s with mm := { s.mm with pmm := Tomk.pmmFree s.mm.pmm phys count } }

def KernelStep (L : Layout) (c : KernelCall) (s s' : Space) : Prop :=
  c.Legal L s ∧ c.run L s = some s'

/-- The states a run starts in: `mminit` has returned. -/
def KernelStart (L : Layout) (s : Space) : Prop :=
  ∃ (img : Image) (mem : PhysMem) (map : KPhysMap) (vmm : Vmm) (pmm : Pmm) (mmu : Mmu),
    img.toLayout = L ∧ BssClear L mem ∧ map.regions ≠ [] ∧ bootMmu img mem = some mmu ∧
      mminit L map ⟨vmm, pmm, mmu⟩ = some s.mm ∧ s.dirs = [L.pgPd]

/-- The states of all runs. -/
def KernelReach (L : Layout) : Space → Prop := Reach (KernelStart L) (KernelStep L)

/-! ## The invariant -/

structure Space.Inv (L : Layout) (s : Space) : Prop where
  vmm : s.mm.vmm.Window
  base : s.mm.vmm.base = kvirt
  pmm : s.mm.pmm.Shape
  zero : 0 < s.mm.pmm.totalPages.toNat → test s.mm.pmm.bitmap 0 = true
  tables : ∀ i, s.mm.pmm.Holds (L.ptFrame i)
  dirs : ∀ d ∈ s.dirs, KernelDir L s.mm.mmu.mem d ∧ s.mm.pmm.Holds d
  loaded : s.mm.mmu.cr3 ∈ s.dirs

variable {L : Layout} {s s' : Space}

theorem Space.Inv.cr3 (h : s.Inv L) : KernelDir L s.mm.mmu.mem s.mm.mmu.cr3 :=
  (h.dirs _ h.loaded).1

theorem Space.Inv.ready (h : s.Inv L) : s.mm.Ready L where
  vmm := ⟨h.vmm, fun h0 => by
    rw [h.base] at h0
    exact absurd h0 (by decide)⟩
  pmm := h.pmm
  zero := h.zero
  wired := by
    rw [h.base, show (pdIndex kvirt).toNat = 768 by decide]
    exact h.cr3.wired

/-- No page of the kernel window is at `NULL`. -/
theorem Space.Inv.addr_ne_zero (h : s.Inv L) {p : Nat} (hp : p < s.mm.vmm.totalPages.toNat) :
    s.mm.vmm.addr p ≠ 0 := by
  intro h0
  have h1 := h.vmm.toNat_addr hp
  rw [h0, h.base] at h1
  have h2 : (0 : U32).toNat = 0 := rfl
  have h3 : kvirt.toNat = 0xC0000000 := rfl
  omega

/-! ## What the calls change -/

/-- A call that maps or unmaps kernel pages. -/
theorem Space.Inv.touch (h : s.Inv L) {P : Nat → Prop} {mem : PhysMem}
    (ht : Touched L s.mm.mmu.cr3 P s.mm.mmu.mem mem) :
    Space.Inv L ⟨⟨s.mm.vmm, s.mm.pmm, ⟨mem, s.mm.mmu.cr3⟩⟩, s.dirs⟩ :=
  ⟨h.vmm, h.base, h.pmm, h.zero, h.tables,
    fun d hd => ⟨(h.dirs d hd).1.other ht, (h.dirs d hd).2⟩, h.loaded⟩

/-- A call that reserves or unreserves. -/
theorem Space.Inv.window (h : s.Inv L) {v : Vmm} (hv : v.Window) (hb : v.base = s.mm.vmm.base) :
    Space.Inv L ⟨⟨v, s.mm.pmm, s.mm.mmu⟩, s.dirs⟩ :=
  ⟨hv, hb.trans h.base, h.pmm, h.zero, h.tables, h.dirs, h.loaded⟩

theorem Space.Inv.windowTouch (h : s.Inv L) {v : Vmm} {P : Nat → Prop} {mem : PhysMem}
    (hv : v.Window) (hb : v.base = s.mm.vmm.base)
    (ht : Touched L s.mm.mmu.cr3 P s.mm.mmu.mem mem) :
    Space.Inv L ⟨⟨v, s.mm.pmm, ⟨mem, s.mm.mmu.cr3⟩⟩, s.dirs⟩ :=
  (h.window hv hb).touch ht

/-- A call that does not free a frame of the kernel. -/
theorem Space.Inv.frames (h : s.Inv L) {p : Pmm} (hp : p.Shape)
    (ht : p.totalPages = s.mm.pmm.totalPages)
    (hb : ∀ q, s.Owned L q → test s.mm.pmm.bitmap q = true → test p.bitmap q = true) :
    Space.Inv L ⟨⟨s.mm.vmm, p, s.mm.mmu⟩, s.dirs⟩ := by
  refine ⟨h.vmm, h.base, hp, fun h0 => ?_, fun i hi => ?_, fun d hd => ⟨(h.dirs d hd).1, ?_⟩,
    h.loaded⟩
  · have h0' : 0 < p.totalPages.toNat := h0
    rw [ht] at h0'
    exact hb 0 (Or.inl rfl) (h.zero h0')
  · have hi' : (L.ptFrame i).toNat < p.totalPages.toNat := hi
    rw [ht] at hi'
    exact hb _ (Or.inr (Or.inl ⟨i, rfl⟩)) (h.tables i hi')
  · intro hlt
    have hlt' : d.toNat < p.totalPages.toNat := hlt
    rw [ht] at hlt'
    exact hb _ (Or.inr (Or.inr ⟨d, hd, rfl⟩)) ((h.dirs d hd).2 hlt')

/-- Frames taken one by one. -/
theorem Space.Inv.took (h : s.Inv L) {F : List Nat} {p : Pmm} (ht : s.mm.pmm.Took F p) :
    Space.Inv L ⟨⟨s.mm.vmm, p, s.mm.mmu⟩, s.dirs⟩ :=
  h.frames (ht.shape h.pmm) ht.total fun q _ hq => by rw [ht.bits q, hq, Bool.or_true]

theorem Space.Inv.framesTaken (h : s.Inv L) (n : U32) :
    Space.Inv L ⟨⟨s.mm.vmm, (pmmAlloc s.mm.pmm n).2, s.mm.mmu⟩, s.dirs⟩ := by
  have hs := pmmAlloc_shape h.pmm n
  rcases pmmAlloc_cases h.pmm n with ⟨hint, lr, hr⟩ | ⟨p, hint, lr, _, _, _, _, hr⟩
  · rw [hr] at hs ⊢
    exact h.frames hs rfl fun q _ hq => hq
  · rw [hr] at hs ⊢
    refine h.frames hs rfl fun q _ hq => ?_
    show test (setRun s.mm.pmm.bitmap p n.toNat) q = true
    rw [test_setRun, hq, Bool.or_true]

theorem Space.Inv.framesFreed (h : s.Inv L) {phys n : U32}
    (hl : ∀ q, phys.toNat / 4096 ≤ q → q < phys.toNat / 4096 + n.toNat → ¬ s.Owned L q) :
    Space.Inv L ⟨⟨s.mm.vmm, pmmFree s.mm.pmm phys n, s.mm.mmu⟩, s.dirs⟩ := by
  by_cases hf : s.mm.pmm.Frees phys n
  · refine h.frames (pmmFree_shape h.pmm phys n) (by rw [pmmFree_eq h.pmm hf]) fun q ho hq => ?_
    have hpos := toNat_pos_of_ne hf.count_ne
    have hne : q ≠ phys.toNat / 4096 := by
      rintro rfl
      exact hl _ (Nat.le_refl _) (by omega) ho
    rw [pmmFree_eq h.pmm hf]
    show test (clearBit s.mm.pmm.bitmap _) q = true
    rw [test_clearBit, decide_eq_false hne, hq]
    rfl
  · rw [pmmFree_rejected hf]
    exact h

/-- `vmm_unreserve` keeps the window, whatever its arguments. -/
theorem vmmUnreserve_window {v : Vmm} (h : v.Window) (virt n : U32) :
    (vmmUnreserve v virt n).Window ∧ (vmmUnreserve v virt n).base = v.base := by
  have hloop := CFor.iter_inv (a := 0) (n := n.toNat) (s := v)
    (f := fun i w => vmmClear w (pageAt virt i)) (fun _ t => ∃ b, t = { v with bitmap := b })
    ⟨v.bitmap, rfl⟩
    (by
      rintro i t _ _ ⟨b, rfl⟩
      simp only [vmmClear]
      split
      · exact ⟨b, rfl⟩
      · exact ⟨_, rfl⟩)
  obtain ⟨b, hb⟩ := hloop
  simp only [vmmUnreserve]
  split
  · exact ⟨h, rfl⟩
  split
  · exact ⟨h, rfl⟩
  split
  · exact ⟨h, rfl⟩
  split
  · exact ⟨h, rfl⟩
  · rw [hb]
    exact ⟨h.withBits _ _ _ _, rfl⟩

theorem Vmm.Window.reserved {v : Vmm} (h : v.Window) (p : Nat) (n lr : U32) :
    (v.reserved p n lr).Window :=
  h.withBits _ _ _ _

/-- A call that reserves, takes frames and maps them. -/
theorem Space.Inv.update (h : s.Inv L) {m : Mm} {F : List Nat} {P : Nat → Prop}
    (hv : m.vmm.Window) (hb : m.vmm.base = s.mm.vmm.base) (ht : s.mm.pmm.Took F m.pmm)
    (hc : m.mmu.cr3 = s.mm.mmu.cr3) (hm : Touched L s.mm.mmu.cr3 P s.mm.mmu.mem m.mmu.mem) :
    Space.Inv L ⟨m, s.dirs⟩ := by
  obtain ⟨vmm, pmm, mem, cr3⟩ := m
  have hc' : cr3 = s.mm.mmu.cr3 := hc
  subst hc'
  exact ((h.window hv hb).took ht).touch hm

/-- `pgd_create_pd` keeps the directories it finds. -/
theorem Created.wired {m m' : Mm} {f d : Frame} {lo : Nat} (h : Created L m m' f)
    (hd : Wired L lo m.mmu.mem d) (hne : d ≠ f) : Wired L lo m'.mmu.mem d := by
  by_cases hc : d = m.mmu.cr3
  · subst hc
    have hself := h.pde _ hd.self.present
    refine ⟨⟨?_, ?_⟩, hd.apart, fun i h1 h2 hp => ?_⟩
    · rw [hself]
      exact hd.self.present
    · rw [hself]
      exact hd.self.frame
    · rcases h.built i with hb | hb
      · rw [hb] at hp ⊢
        exact hd.tables i h1 h2 hp
      · exact hb
  · exact hd.congr (h.other d hne hc hd.apart)

theorem Created.dir {m m' : Mm} {f d : Frame} (h : Created L m m' f) (hd : KernelDir L m.mmu.mem d)
    (hne : d ≠ f) : KernelDir L m'.mmu.mem d := by
  refine ⟨h.wired hd.wired hne, fun i h1 h2 => ?_⟩
  have hp := hd.full i h1 h2
  by_cases hc : d = m.mmu.cr3
  · subst hc
    rwa [h.pde i hp]
  · rwa [h.other d hne hc hd.wired.apart]

/-- And what it makes is a directory of the kernel. -/
theorem Created.kernelDir {m m' : Mm} {f : Frame} (h : Created L m m' f)
    (hd : KernelDir L m.mmu.mem m.mmu.cr3) : KernelDir L m'.mmu.mem f := by
  have hcr3 := h.dir hd h.apart.1.symm
  refine ⟨⟨h.self_mapped, h.apart.2, fun i h1 h2 hp => ?_⟩, fun i h1 h2 => ?_⟩
  · rw [h.kernel i h1 h2] at hp ⊢
    exact hcr3.wired.tables i h1 h2 hp
  · rw [h.kernel i h1 h2]
    exact hcr3.full i h1 h2

/-- The invariant after `pgd_create_pd`. -/
theorem Space.Inv.created (h : s.Inv L) {m' : Mm} {f : Frame} (hc : Created L s.mm m' f) :
    Space.Inv L ⟨m', f :: s.dirs⟩ := by
  obtain ⟨lr, hv⟩ := hc.vmm
  have hne : ∀ d, s.mm.pmm.Holds d → d ≠ f := by
    rintro d hd rfl
    exact hc.took.ne_of_holds (List.mem_singleton.mpr rfl) hd rfl
  have hframes := h.took hc.took
  refine ⟨hv ▸ h.vmm.withBits _ _ _ _, hv ▸ h.base, hframes.pmm, hframes.zero, hframes.tables,
    fun d hd => ?_, ?_⟩
  · rcases List.mem_cons.mp hd with rfl | hd
    · refine ⟨hc.kernelDir h.cr3, fun _ => ?_⟩
      show test m'.pmm.bitmap d.toNat = true
      rw [hc.took.bits, decide_eq_true (List.mem_singleton.mpr rfl)]
      rfl
    · obtain ⟨h1, h2⟩ := h.dirs d hd
      exact ⟨hc.dir h1 (hne d h2), (hframes.dirs d hd).2⟩
  · show m'.mmu.cr3 ∈ f :: s.dirs
    rw [hc.cr3]
    exact List.mem_cons_of_mem f h.loaded

/-! ## One step -/

/-- What a call does to the tables: under the loaded directory it changes
pages of the kernel, or it makes a directory. -/
def Space.Moved (L : Layout) (s : Space) (c : KernelCall) (s' : Space) : Prop :=
  (s'.dirs = s.dirs ∧ Touched L s.mm.mmu.cr3 (768 * 1024 ≤ ·) s.mm.mmu.mem s'.mm.mmu.mem) ∨
    (c = .createPd ∧ ∃ f, s'.dirs = f :: s.dirs ∧ Created L s.mm s'.mm f)

/-- The call returns, and keeps the invariant. -/
def Space.Keeps (L : Layout) (s : Space) (c : KernelCall) : Prop :=
  ∃ s', c.run L s = some s' ∧ s'.Inv L ∧ s.Moved L c s'

theorem map_run {α : Type} {o : Option α} {x : α} (h : o = some x) (g : α → Space) :
    o.map g = some (g x) := by
  rw [h, Option.map_some]

/-- Nothing is done to the tables. -/
theorem Space.moved_still (m : Mm) {c : KernelCall} (hm : m.mmu.mem = s.mm.mmu.mem) :
    s.Moved L c ⟨m, s.dirs⟩ := by
  refine Or.inl ⟨rfl, ?_⟩
  show Touched L _ _ _ m.mmu.mem
  rw [hm]
  exact Touched.refl _ _ _ _

/-- Pages of the window are changed. -/
theorem Space.Inv.moved_run (h : s.Inv L) {p n : Nat} (m : Mm) {c : KernelCall}
    (ht : Touched L s.mm.mmu.cr3 (InRun (s.mm.vmm.first p) n) s.mm.mmu.mem m.mmu.mem) :
    s.Moved L c ⟨m, s.dirs⟩ := by
  refine Or.inl ⟨rfl, ht.mono fun q hq => ?_⟩
  have h1 := hq.1
  rw [Vmm.first, h.base] at h1
  have h2 : pageNo kvirt = 768 * 1024 := by decide
  omega

/-- Failing to find a range changes the statistics. -/
theorem Space.Inv.largestRun (h : s.Inv L) (lr : U32) :
    Space.Inv L ⟨⟨{ s.mm.vmm with largestRun := lr }, s.mm.pmm, s.mm.mmu⟩, s.dirs⟩ :=
  h.window (h.vmm.withBits _ _ _ lr) rfl

theorem Space.Inv.keeps_createPd (h : s.Inv L) : s.Keeps L .createPd := by
  rcases pgdCreatePd_cases h.ready (h.dirs _ h.loaded).2 h.tables with
    ⟨_, lr, p, ht, hr⟩ | ⟨f, m', hr, hc⟩
  · exact ⟨_, map_run hr _, (h.largestRun lr).took ht, s.moved_still _ rfl⟩
  · refine ⟨⟨m', f :: s.dirs⟩, ?_, h.created hc, Or.inr ⟨rfl, f, rfl, hc⟩⟩
    simp only [KernelCall.run, hr, Option.map_some, if_neg hc.nonzero, frameOf_frameAddr]

theorem Space.Inv.keeps_mmap (h : s.Inv L) (phys length flags : U32) :
    s.Keeps L (.mmap phys length flags) := by
  rcases mmap_cases h.ready.vmm h.ready.wired phys length flags with
    ⟨_, lr, hr⟩ | ⟨_, p, lr, mem', _, _, hr, ht, _⟩
  · exact ⟨_, map_run hr _, h.largestRun lr, s.moved_still _ rfl⟩
  · exact ⟨_, map_run hr _, h.windowTouch (h.vmm.reserved p _ lr) rfl ht, h.moved_run _ ht⟩

theorem Space.Inv.keeps_munmap (h : s.Inv L) {virt length : U32}
    (hl : s.mm.vmm.InWindow virt (lengthPages length)) : s.Keeps L (.munmap virt length) := by
  obtain ⟨p, rfl, hp, hle⟩ := hl
  obtain ⟨mem', hr, ht, _⟩ := munmap_eq h.ready p length hle hp (h.addr_ne_zero hp)
  obtain ⟨hw, hb⟩ := vmmUnreserve_window h.vmm (s.mm.vmm.addr p) (lengthPages length)
  exact ⟨_, map_run hr _, h.windowTouch hw hb ht, h.moved_run _ ht⟩

theorem Space.Inv.keeps_reserve (h : s.Inv L) (count : U32) : s.Keeps L (.reserve count) := by
  refine ⟨_, rfl, ?_, s.moved_still _ rfl⟩
  rcases vmmReserve_cases h.ready.vmm count with ⟨_, lr, hr⟩ | ⟨_, p, lr, _, _, hr⟩
  · rw [hr]
    exact h.largestRun lr
  · rw [hr]
    exact h.window (h.vmm.reserved p count lr) rfl

theorem Space.Inv.keeps_alloc (h : s.Inv L) (count : U32) : s.Keeps L (.alloc count) := by
  rcases vmmAlloc_cases h.ready count with ⟨_, lr, hr⟩ | ⟨_, p, lr, F, u, _, _, hc⟩
  · exact ⟨_, map_run hr _, h.largestRun lr, s.moved_still _ rfl⟩
  rcases hc with ⟨_, hback, hr⟩ | ⟨_, _, hun, hr⟩
  · refine ⟨_, map_run hr _, h.update ?_ ?_ hback.took hback.cr3 hback.touched,
      h.moved_run _ hback.touched⟩
    · rw [hback.vmm]
      exact h.vmm.reserved p count lr
    · rw [hback.vmm]
      rfl
  · refine ⟨_, map_run hr _, h.update ?_ ?_ hun.took hun.cr3 hun.touched,
      h.moved_run _ hun.touched⟩
    · rw [hun.vmm]
      exact (h.vmm.reserved p count lr).withBits _ _ _ _
    · rw [hun.vmm]
      rfl

theorem Space.Inv.keeps_allocContiguous (h : s.Inv L) (count : U32) :
    s.Keeps L (.allocContiguous count) := by
  rcases vmmAllocContiguous_cases h.ready count with ⟨_, lr, hr⟩ | ⟨_, p, lr, _, _, hc⟩
  · exact ⟨_, map_run hr _, h.largestRun lr, s.moved_still _ rfl⟩
  have hp := (h.framesTaken count).window (h.vmm.reserved p count lr) rfl
  rcases hc with ⟨_, mem', ht, hr⟩ | ⟨_, hr⟩
  · exact ⟨_, map_run hr _, hp.touch ht.touched, h.moved_run _ ht.touched⟩
  · exact ⟨_, map_run hr _, hp, s.moved_still _ rfl⟩

theorem Space.Inv.keeps_free (h : s.Inv L) {virt count : U32}
    (hl : s.mm.vmm.InWindow virt count) : s.Keeps L (.free virt count) := by
  obtain ⟨p, rfl, hp, hle⟩ := hl
  obtain ⟨mem', hr, ht⟩ := vmmFree_eq h.ready.windowed hle hp
  obtain ⟨hw, hb⟩ := vmmUnreserve_window h.vmm (s.mm.vmm.addr p) count
  exact ⟨_, map_run hr _, h.windowTouch hw hb ht, h.moved_run _ ht⟩

/-- **The step lemma**: a legal call returns, and keeps the invariant. -/
theorem Space.Inv.keeps (h : s.Inv L) {c : KernelCall} (hl : c.Legal L s) : s.Keeps L c := by
  cases c with
  | createPd => exact h.keeps_createPd
  | loadCr3 dir =>
      exact ⟨_, rfl, ⟨h.vmm, h.base, h.pmm, h.zero, h.tables, h.dirs, hl⟩, s.moved_still _ rfl⟩
  | map virt phys flags count =>
      obtain ⟨mem', hr, ht, _⟩ := pgMap_wired h.cr3.wired virt phys flags count hl.1 hl.2
      exact ⟨_, map_run hr _, h.touch ht, Or.inl ⟨rfl, ht.mono fun q hq => hl.1.trans hq.1⟩⟩
  | unmap virt count =>
      obtain ⟨mem', hr, ht, _⟩ := pgUnmap_wired h.cr3.wired virt count hl.1 hl.2
      exact ⟨_, map_run hr _, h.touch ht, Or.inl ⟨rfl, ht.mono fun q hq => hl.1.trans hq.1⟩⟩
  | mmap phys length flags => exact h.keeps_mmap phys length flags
  | munmap virt length => exact h.keeps_munmap hl
  | reserve count => exact h.keeps_reserve count
  | unreserve virt count =>
      obtain ⟨hw, hb⟩ := vmmUnreserve_window h.vmm virt count
      exact ⟨_, rfl, h.window hw hb, s.moved_still _ rfl⟩
  | alloc count => exact h.keeps_alloc count
  | allocContiguous count => exact h.keeps_allocContiguous count
  | free virt count => exact h.keeps_free hl
  | pmmAlloc count => exact ⟨_, rfl, h.framesTaken count, s.moved_still _ rfl⟩
  | pmmFree phys count => exact ⟨_, rfl, h.framesFreed hl, s.moved_still _ rfl⟩

/-! ## Whole runs -/

theorem Layout.pgPd_kernelPages (L : Layout) : L.pgPd.toNat + 1025 ≤ L.kernelPages := by
  obtain ⟨_, h2, _⟩ := L.toNat_kend
  rw [L.kend_pages] at h2
  omega

/-- The frames of the boot directory and of its tables lie in the image. -/
theorem Booted.holds {s0 : Pmm} {m : Mm} (h : Booted L s0 m) {f : Frame}
    (hf : f.toNat ≤ L.pgPd.toNat + 1024) : m.pmm.Holds f := by
  have := L.pgPd_kernelPages
  exact h.image f.toNat (by omega)

/-- The state in which a run starts is a booted one. -/
theorem KernelStart.booted (h : KernelStart L s) :
    ∃ s0, Booted L s0 s.mm ∧ s.mm.mmu.cr3 = L.pgPd ∧ s.dirs = [L.pgPd] := by
  obtain ⟨img, mem, map, vmm, pmm, mmu, rfl, hclr, hmap, hboot, hinit, hdirs⟩ := h
  obtain ⟨mem', hb, hk, _, _⟩ := bootMmu_dir img hclr
  rw [hb] at hboot
  cases hboot
  obtain ⟨m', hm, hcr3, _, hbooted⟩ := mminit_spec map hmap (m := ⟨vmm, pmm, ⟨mem', img.pgPd⟩⟩) hk
  rw [hm] at hinit
  cases hinit
  exact ⟨_, hbooted, hcr3, hdirs⟩

theorem KernelStart.inv (h : KernelStart L s) : s.Inv L := by
  obtain ⟨s0, hb, hcr3, hdirs⟩ := h.booted
  refine ⟨hb.consistent.vmm.toWindow, hb.base, hb.consistent.pmm.shape, hb.consistent.pmm.zero,
    fun i => hb.holds ?_, fun d hd => ?_, ?_⟩
  · rw [L.toNat_ptFrame]
    have := i.isLt
    omega
  · rw [hdirs] at hd
    cases List.mem_singleton.mp hd
    refine ⟨?_, hb.holds (Nat.le_add_right _ _)⟩
    rw [← hcr3]
    exact hb.dir
  · rw [hdirs, hcr3]
    exact List.mem_singleton.mpr rfl

/-- **The run lemma.** -/
theorem KernelReach.inv (h : KernelReach L s) : s.Inv L := by
  refine h.invariant (fun s => s.Inv L) (fun s hs => hs.inv) ?_
  rintro c s s' hinv ⟨hl, hr⟩
  obtain ⟨s'', hr', hinv', _⟩ := hinv.keeps hl
  rw [hr] at hr'
  cases hr'
  exact hinv'

/-! ## The kernel's addresses under all directories -/

/-- The same physical address, or none, in the tables and as `pg_virt2phys`
computes it with the directory loaded. -/
def SameTranslation (mem : PhysMem) (d e : Frame) (va : U32) : Prop :=
  walk mem d va = walk mem e va ∧ pgVirt2phys ⟨mem, d⟩ va = pgVirt2phys ⟨mem, e⟩ va

theorem KernelDir.same {mem : PhysMem} {d e : Frame} (hd : KernelDir L mem d)
    (he : KernelDir L mem e) {va : U32} (h1 : kvirt ≤ va) (h2 : va < kvirtEnd) :
    SameTranslation mem d e va := by
  obtain ⟨h3, h4⟩ := kernelAddr_slot h1 h2
  obtain ⟨hd1, hd2⟩ := hd.entry h3 h4
  obtain ⟨he1, he2⟩ := he.entry h3 h4
  have hw : walk mem d va = walk mem e va := by
    simp only [walk, if_pos hd1, if_pos he1, hd2, he2]
  refine ⟨hw, ?_⟩
  rw [pgVirt2phys_eq hd.wired.self, pgVirt2phys_eq he.wired.self]
  show some (physOf va (walk mem d va)) = some (physOf va (walk mem e va))
  rw [hw]

/-- **Kernel-half coherence.**  In every state that a run reaches, whichever
directories the calls were made under, every kernel address translates alike
under all directories. -/
theorem kernelRun_coherent (h : KernelReach L s) {d e : Frame} (hd : d ∈ s.dirs) (he : e ∈ s.dirs)
    {va : U32} (h1 : kvirt ≤ va) (h2 : va < kvirtEnd) : SameTranslation s.mm.mmu.mem d e va :=
  (h.inv.dirs d hd).1.same (h.inv.dirs e he).1 h1 h2

/-- `mminit` leaves one directory. -/
theorem KernelStart.dirs_eq (h : KernelStart L s) : s.dirs = [L.pgPd] := by
  obtain ⟨_, _, _, _, _, _, _, _, _, _, _, hd⟩ := h
  exact hd

/-! ## A machine with 17 MiB of memory -/

/-- The image whose sections are empty. -/
def smallImage : Image where
  toLayout := smallLayout
  boot := ⟨0x100000, 0x101000⟩
  text := ⟨0xC0101000, 0xC0101000⟩
  rodata := ⟨0xC0101000, 0xC0101000⟩
  data := ⟨0xC0101000, 0xC0101000⟩
  bss := ⟨0xC0101000, 0xC0101000⟩
  boot_low := by decide

/-- Two pages of memory, beyond the bootstrap window. -/
def highMap : KPhysMap := ⟨[⟨0x1000000, 0x2000, 3⟩], by decide⟩

/-- The small machine after `mminit`: `n` frames are free beyond the bootstrap
window, and so are `n` pages. -/
structure SmallBoot (n : Nat) (s : Space) : Prop where
  start : KernelStart smallLayout s
  consistent : s.mm.Consistent smallLayout
  pages_le : 0x1000 + n ≤ s.mm.vmm.totalPages.toNat
  pages : FreeRun s.mm.vmm.bitmap 0x1000 n
  frames_le : 0x1000 + n ≤ s.mm.pmm.totalPages.toNat
  frames : FreeRun s.mm.pmm.bitmap 0x1000 n
  clean : ∀ f, f ≠ smallLayout.pgPd → (∀ i, f ≠ smallLayout.ptFrame i) →
    ∀ i, s.mm.mmu.mem f i = 0

/-- The directory of the small machine has one user entry at most, that of `.boot`. -/
theorem smallImage_entries {mem mem' : PhysMem} (hclr : BssClear smallLayout mem)
    (hboot : bootMmu smallImage mem = some ⟨mem', smallLayout.pgPd⟩) {i : Slot}
    (h1 : 0 < i.toNat) (h2 : i.toNat < 768) : mem' smallLayout.pgPd i = 0 := by
  have hw := (recursiveTables_dir smallLayout hclr).2.other (startTables_touched smallImage mem)
  obtain ⟨mem'', hrun, _, hdir, _⟩ := pgUnmap_wired
    (m := ⟨startTables smallImage mem, smallLayout.pgPd⟩) hw smallImage.boot.start
    ((smallImage.boot.stop + (pageSize - 1) - smallImage.boot.start) >>> 12) (by decide) (by decide)
  have hrun' : bootMmu smallImage mem = some ⟨mem'', smallLayout.pgPd⟩ := hrun
  rw [hboot] at hrun'
  cases hrun'
  rw [hdir]
  -- the first megabyte is mapped in the kernel's half, and the four sections are empty
  have hlow : ∀ j, j < 255 → i ≠ pdIndex (pageAt (p2v 0x1000) j) := by
    rintro j hj rfl
    have hpage : pageNo (p2v 0x1000) = 768 * 1024 + 1 := by decide
    have hpage' : pageNo (pageAt (p2v 0x1000) j) = 768 * 1024 + 1 + j := by
      rw [pageNo_pageAt (by rw [hpage]; omega), hpage]
    rw [← slotOf_pageNo, toNat_slotOf (pageNo_lt _), hpage'] at h2
    omega
  have hboot0 : ∀ j, j < 1 → i ≠ pdIndex (pageAt 0x100000 j) := by
    rintro j hj rfl
    obtain rfl := Nat.lt_one_iff.mp hj
    exact absurd h1 (by decide)
  have hempty : ∀ virt : U32, ∀ j, j < 0 → i ≠ pdIndex (pageAt virt j) := fun _ j hj =>
    absurd hj (Nat.not_lt_zero j)
  calc startTables smallImage mem smallLayout.pgPd i
    _ = _ := mapSection_entry _ _ _ _ (by decide) hboot0
    _ = _ := mapSection_entry _ _ _ _ (by decide) (hempty _)
    _ = _ := mapSection_entry _ _ _ _ (by decide) (hempty _)
    _ = _ := mapSection_entry _ _ _ _ (by decide) (hempty _)
    _ = _ := mapSection_entry _ _ _ _ (by decide) (hempty _)
    _ = recursiveTables smallLayout mem smallLayout.pgPd i :=
      mapSection_entry _ _ _ _ (by decide) hlow
    _ = mem smallLayout.pgPd i := recursiveTables_other smallLayout mem fun _ => h2
    _ = 0 := hclr i

/-- The memory map decides how many frames there are. -/
theorem smallImage_boots_entries (map : KPhysMap) (hmap : map.regions ≠ []) {n : Nat}
    (hn : n ≤ 0x1000) (ht : 0x1000 + n ≤ (pmmFill (pmmSizes zeroPmm map) map).totalPages.toNat)
    (hf : FreeRun (pmmFill (pmmSizes zeroPmm map) map).bitmap 0x1000 n) :
    ∃ s, SmallBoot n s ∧ ∀ i : Slot, 0 < i.toNat → i.toNat < 768 →
      s.mm.mmu.mem smallLayout.pgPd i = 0 := by
  have hclr : BssClear smallLayout fun _ _ => 0 := fun _ => rfl
  obtain ⟨mem, hboot, hk, _, hmem⟩ := bootMmu_dir smallImage hclr
  obtain ⟨m, _, hm, _, hcr3, htouch, hb', _, huser⟩ := mminit_handed map hmap
    (m := ⟨smallVmm, zeroPmm, ⟨mem, smallLayout.pgPd⟩⟩) hk
  have hb : Booted smallLayout (pmmFill (pmmSizes zeroPmm map) map) m := hb'
  have hkp : smallLayout.kernelPages = 0x511 := by decide
  have hvt : m.vmm.totalPages.toNat = 0x3FC00 := by
    rw [hb.consistent.vmm.total_eq, hb.base, hb.stop]
    decide
  rw [← hb.total] at ht
  refine ⟨⟨m, [smallLayout.pgPd]⟩, ⟨⟨smallImage, _, map, _, _, _, rfl, fun _ => rfl, hmap, hboot, hm,
    rfl⟩, hb.consistent, ?_, fun i hi => ?_, ht, fun i hi => ?_,
    fun f h1 h2 i => (htouch.other f i h1 h2).trans (hmem f h1 h2 i)⟩,
    fun i h1 h2 => (huser i h2).trans (smallImage_entries hclr hboot h1 h2)⟩
  · show _ ≤ m.vmm.totalPages.toNat
    omega
  · exact hb.window _ (by omega) (by omega)
  · show test m.pmm.bitmap _ = false
    rw [hb.beyond _ (by omega) (by omega)]
    exact hf i hi

theorem smallImage_boots (map : KPhysMap) (hmap : map.regions ≠ []) {n : Nat} (hn : n ≤ 0x1000)
    (ht : 0x1000 + n ≤ (pmmFill (pmmSizes zeroPmm map) map).totalPages.toNat)
    (hf : FreeRun (pmmFill (pmmSizes zeroPmm map) map).bitmap 0x1000 n) : ∃ s, SmallBoot n s := by
  obtain ⟨s, hs, _⟩ := smallImage_boots_entries map hmap hn ht hf
  exact ⟨s, hs⟩

/-- A page can be reserved, and as many as are free. -/
theorem SmallBoot.reservable {n : Nat} (hs : SmallBoot n s) {count : U32} (h0 : count ≠ 0)
    (hle : count.toNat ≤ n) : s.mm.vmm.Reservable count := by
  have htotal := hs.pages_le
  refine ⟨h0, ?_, 0x1000, by omega, fun i hi => hs.pages i (by omega)⟩
  rw [BitVec.le_def, hs.consistent.vmmCounted]
  exact Nat.le_trans hle (clearCount_freeRun_le hs.pages htotal)

/-- The state of the small machine as runs start in it. -/
structure SmallStart (s : Space) : Prop where
  start : KernelStart smallLayout s
  consistent : s.mm.Consistent smallLayout
  page : s.mm.vmm.Reservable 1
  frames : 2 ≤ s.mm.pmm.freePages.toNat
  clean : ∀ f, f ≠ smallLayout.pgPd → (∀ i, f ≠ smallLayout.ptFrame i) →
    ∀ i, s.mm.mmu.mem f i = 0

theorem SmallBoot.smallStart (hs : SmallBoot 2 s) : SmallStart s := by
  refine ⟨hs.start, hs.consistent, hs.reservable (by decide) (by decide), ?_, hs.clean⟩
  rw [hs.consistent.pmm.counted]
  exact clearCount_freeRun_le hs.frames hs.frames_le

theorem smallImage_start_entries : ∃ s, SmallStart s ∧ ∀ i : Slot, 0 < i.toNat → i.toNat < 768 →
    s.mm.mmu.mem smallLayout.pgPd i = 0 := by
  have hfree : ∀ i, i < 2 →
      test (pmmFill (pmmSizes zeroPmm highMap) highMap).bitmap (0x1000 + i) = false := by
    decide +kernel
  obtain ⟨s, hs, hentries⟩ := smallImage_boots_entries highMap (by decide) (by decide)
    (by decide +kernel) hfree
  exact ⟨s, hs.smallStart, hentries⟩

theorem smallImage_start : ∃ s, SmallStart s := by
  obtain ⟨s, hs, _⟩ := smallImage_start_entries
  exact ⟨s, hs⟩

/-- While a page and a frame are left, `pgd_create_pd` makes a directory, and the
user entries of the loaded one stay what they are. -/
theorem Space.Inv.creates_user (h : s.Inv L) (hc : s.mm.pmm.Consistent)
    (hres : s.mm.vmm.Reservable 1) (hfree : 0 < s.mm.pmm.freePages.toNat) :
    ∃ f m', Created L s.mm m' f ∧
      KernelCall.run L s .createPd = some ⟨m', f :: s.dirs⟩ ∧
      ∀ i : Slot, i.toNat < 768 → m'.mmu.mem s.mm.mmu.cr3 i = s.mm.mmu.mem s.mm.mmu.cr3 i := by
  have hphys : (pmmAlloc s.mm.pmm 1).1 ≠ 0 := by
    rw [pmmAlloc_one_ne_zero_iff hc]
    intro h0
    rw [h0] at hfree
    exact absurd hfree (by decide)
  rcases pgdCreatePd_user_cases h.ready (h.dirs _ h.loaded).2 h.tables with
    ⟨hno, _⟩ | ⟨f, m', hr, hcr, huser⟩
  · exact absurd hres (hno.resolve_left hphys)
  · refine ⟨f, m', hcr, ?_, huser h.base⟩
    simp only [KernelCall.run, hr, Option.map_some, if_neg hcr.nonzero, frameOf_frameAddr]

theorem Space.Inv.creates (h : s.Inv L) (hc : s.mm.pmm.Consistent)
    (hres : s.mm.vmm.Reservable 1) (hfree : 0 < s.mm.pmm.freePages.toNat) :
    ∃ f m', Created L s.mm m' f ∧
      KernelCall.run L s .createPd = some ⟨m', f :: s.dirs⟩ := by
  obtain ⟨f, m', hcr, hr, _⟩ := h.creates_user hc hres hfree
  exact ⟨f, m', hcr, hr⟩

/-- A second directory, and one kernel address under both. -/
theorem kernelRun_coherent_two : ∃ s d e, KernelReach smallLayout s ∧ d ∈ s.dirs ∧ e ∈ s.dirs ∧
    d ≠ e ∧ SameTranslation s.mm.mmu.mem d e 0xC0100000 := by
  obtain ⟨s, hs⟩ := smallImage_start
  have hinv := hs.start.inv
  have hfree := hs.frames
  obtain ⟨f, m', hcr, hr⟩ := hinv.creates hs.consistent.pmm hs.page (by omega)
  have hstep : KernelStep smallLayout .createPd s ⟨m', f :: s.dirs⟩ := ⟨trivial, hr⟩
  have hreach : KernelReach smallLayout ⟨m', f :: s.dirs⟩ := .next (.start hs.start) hstep
  have hd : f ∈ f :: s.dirs := List.mem_cons_self
  have he : s.mm.mmu.cr3 ∈ f :: s.dirs := List.mem_cons_of_mem f hinv.loaded
  exact ⟨_, f, s.mm.mmu.cr3, hreach, hd, he, hcr.apart.1,
    kernelRun_coherent hreach hd he (by decide) (by decide)⟩

end Tomk
