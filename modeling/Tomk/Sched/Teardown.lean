/-
# The pages of a process, and `destroy_proc`

A process with a directory and a memory manager of its own maps its pages while
its directory is loaded.  The scheduler process destroys it, and the scheduler
runs under the directory of the kernel: `vmm_destroy` reads the translations of
that one.

`Home` is a process with what the rest of the kernel does around it: any call of
the kernel, user pages that other processes map and unmap, under their own
directories or the kernel's, and the calls of `proc->vmm`.  `Home.Inv` is the
invariant of the runs.  Every directory is wired down to entry 0, so all of them
show the same table entries, and they differ in the slots they have.  That
decides what `destroy_proc` gives back (`homeRun_destroys_iff`).
-/
import Tomk.Mm.UserSpace
import Tomk.Mm.VmmDestroy

namespace Tomk

open WordBits CFor Runs

/-- `UVIRT` -/
def uvirt : U32 := 0x00001000

/-- `UVIRT_END` -/
def uvirtEnd : U32 := kvirt

/-- A process: the kernel around it, `proc->vmm`, `proc->context.cr3`, and the
pages of the window that `vmm_alloc` has mapped for it. -/
structure Home where
  space : Space
  vmm : Vmm
  dir : Frame
  pages : List Nat

/-- The managers as the process sees them. -/
def Home.mm (h : Home) : Mm := ⟨h.vmm, h.space.mm.pmm, h.space.mm.mmu⟩

/-- The process has called its manager. -/
def Home.after (h : Home) (m : Mm) (pages : List Nat) : Home where
  space := ⟨⟨h.space.mm.vmm, m.pmm, m.mmu⟩, h.space.dirs⟩
  vmm := m.vmm
  dir := h.dir
  pages := pages

/-- The pages of a range of the window. -/
def Vmm.pagesOf (v : Vmm) (virt count : U32) : List Nat :=
  List.range' (toPage (virt - v.base)).toNat count.toNat

inductive HomeCall where
  | space (c : SpaceCall)
  | sharedMap (virt phys flags count : U32)
  | sharedUnmap (virt count : U32)
  | alloc (count : U32)
  | reserve (count : U32)
  | free (virt count : U32)

/-- What the caller owes: the calls of the process are made while its directory is
loaded, those of a process with the shared address space under the directory of
the kernel. -/
def HomeCall.Legal (L : Layout) (h : Home) : HomeCall → Prop
  | .space c => c.Legal L h.space
  | .sharedMap virt _ _ count => h.space.mm.mmu.cr3 = L.pgPd ∧ UserRange virt count
  | .sharedUnmap virt count => h.space.mm.mmu.cr3 = L.pgPd ∧ UserRange virt count
  | .alloc _ => h.space.mm.mmu.cr3 = h.dir
  | .reserve _ => True
  | .free virt count => h.space.mm.mmu.cr3 = h.dir ∧ h.vmm.InWindow virt count

def HomeCall.run (L : Layout) (h : Home) : HomeCall → Option Home
  | .space c => (c.run L h.space).map fun s => { h with space := s }
  | .sharedMap virt phys flags count =>
      (KernelCall.run L h.space (.map virt phys flags count)).map fun s => { h with space := s }
  | .sharedUnmap virt count =>
      (KernelCall.run L h.space (.unmap virt count)).map fun s => { h with space := s }
  | .alloc count => (vmmAlloc L h.mm count).map fun r =>
      h.after r.2 (if r.1 = 0 then h.pages else h.pages ++ h.vmm.pagesOf r.1 count)
  | .reserve count => some { h with vmm := (vmmReserve h.vmm count).2 }
  | .free virt count => (vmmFree h.mm virt count).map fun m =>
      h.after m (h.pages.filter fun p => p ∉ h.vmm.pagesOf virt count)

/-- New directories are made in clean frames. -/
def HomeCall.Clean (h : Home) : HomeCall → Prop
  | .space c => c.Clean h.space
  | _ => True

def HomeStep (L : Layout) (c : HomeCall) (h h' : Home) : Prop :=
  c.Legal L h ∧ c.run L h = some h'

/-- `create_proc` has made the directory, in a run of the kernel, and the window. -/
structure HomeStart (L : Layout) (h : Home) : Prop where
  space : CleanReach L h.space
  dir : h.space.Made L h.dir
  vmm : ∃ v, (vmmSizes v uvirt uvirtEnd).bind vmmFill = some h.vmm
  pages : h.pages = []

/-- The states of a process in the runs whose directories are made in clean
frames. -/
def HomeReach (L : Layout) : Home → Prop :=
  Reach (HomeStart L) (Guarded (fun c h => c.Clean h) (HomeStep L))

/-! ## What is to be given back -/

/-- The managers when the scheduler destroys the process. -/
def Home.atDestroy (L : Layout) (h : Home) : Mm :=
  ⟨h.vmm, h.space.mm.pmm, ⟨h.space.mm.mmu.mem, L.pgPd⟩⟩

/-- The frame of a page that `vmm_alloc` has mapped, as the directory of the
process shows it. -/
def Home.ownPage (h : Home) (p : Nat) : Option (U32 × U32) :=
  if p ∈ h.pages then
    (walk h.space.mm.mmu.mem h.dir (h.vmm.addr p)).map fun f => (h.vmm.addr p, frameAddr f)
  else none

/-- The frames the process owns. -/
def Home.ownPages (h : Home) : List (U32 × U32) :=
  (List.range h.vmm.totalPages.toNat).filterMap h.ownPage

/-- The property as it is asked: `vmm_destroy`, called by the scheduler, gives back
the frames of the process, each once, and no others. -/
def Home.DestroysOwn (L : Layout) (h : Home) : Prop :=
  ∃ d, vmmDestroyPages ⟨h.atDestroy L, []⟩ = some d ∧ d.freed = h.ownPages ∧
    (d.freed.map Prod.snd).Nodup ∧ d.mm.pmm = freeAll h.space.mm.pmm h.ownPages

/-- The frame of page `p` in the static tables, if there is one. -/
def Home.backing (L : Layout) (h : Home) (p : Nat) : Option Frame :=
  entryFrame (L.pte h.space.mm.mmu.mem (h.vmm.first p))

/-- The directory of the kernel has the slot of page `p`. -/
def Home.KernelHas (L : Layout) (h : Home) (p : Nat) : Prop :=
  Present (h.space.mm.mmu.mem L.pgPd (slotOf (h.vmm.first p)))

instance (L : Layout) (h : Home) (p : Nat) : Decidable (h.KernelHas L p) :=
  inferInstanceAs (Decidable (Present _))

/-- The condition: the directory of the kernel has the slots of the pages that are
mapped, it shows nothing at a page that is reserved and was not mapped, and no two
of the pages have one frame, or frame 0, which has the address `NULL`. -/
structure Home.Shown (L : Layout) (h : Home) : Prop where
  own : ∀ p ∈ h.pages, ∀ f, h.backing L p = some f → f ≠ 0 ∧ h.KernelHas L p
  others : ∀ p, p < h.vmm.totalPages.toNat → p ∉ h.pages → test h.vmm.bitmap p = true →
    ∀ f, h.backing L p = some f → h.KernelHas L p → f = 0
  once : (h.ownPages.map Prod.snd).Nodup

/-! ## The invariant -/

structure Home.Inv (L : Layout) (h : Home) : Prop where
  space : h.space.UserInv L
  boot : Wired L 0 h.space.mm.mmu.mem L.pgPd
  known : L.pgPd ∈ h.space.dirs
  dir : h.space.Made L h.dir
  window : h.vmm.Window
  base : h.vmm.base = uvirt
  stop : h.vmm.stop = uvirtEnd
  pages : ∀ p ∈ h.pages, p < h.vmm.totalPages.toNat ∧ test h.vmm.bitmap p = true ∧
    Present (h.space.mm.mmu.mem h.dir (slotOf (h.vmm.first p)))

variable {L : Layout} {h h' : Home} {s s' : Space}

/-- A call keeps the directories: the entries they have, and their wiring. -/
def Space.KeepsDirs (L : Layout) (s s' : Space) : Prop :=
  ∀ d ∈ s.dirs, d ∈ s'.dirs ∧
    (∀ i, Present (s.mm.mmu.mem d i) → s'.mm.mmu.mem d i = s.mm.mmu.mem d i) ∧
    ∀ lo, Wired L lo s.mm.mmu.mem d → Wired L lo s'.mm.mmu.mem d

theorem Space.Inv.keepsDirs_touched (hs : s.Inv L) {P : Nat → Prop}
    (hd : ∀ d ∈ s.dirs, d ∈ s'.dirs)
    (ht : Touched L s.mm.mmu.cr3 P s.mm.mmu.mem s'.mm.mmu.mem) : s.KeepsDirs L s' := by
  intro d hmem
  refine ⟨hd d hmem, fun i hi => ?_, fun lo hw => hw.other ht⟩
  by_cases hc : d = s.mm.mmu.cr3
  · subst hc
    exact ht.pde i hi
  · exact ht.other_dir hc (hs.dirs d hmem).1.wired.apart i

theorem Space.Inv.keepsDirs_created (hs : s.Inv L) {f : Frame} (hd : s'.dirs = f :: s.dirs)
    (hc : Created L s.mm s'.mm f) : s.KeepsDirs L s' := by
  intro d hmem
  obtain ⟨hk, hholds⟩ := hs.dirs d hmem
  have hne : d ≠ f := by
    rintro rfl
    exact hc.took.ne_of_holds (List.mem_singleton.mpr rfl) hholds rfl
  refine ⟨hd ▸ List.mem_cons_of_mem f hmem, fun i hi => ?_, fun lo hw => hc.wired hw hne⟩
  by_cases hcr : d = s.mm.mmu.cr3
  · subst hcr
    exact hc.pde i hi
  · exact hc.other d hne hcr hk.wired.apart i

/-- Every call of the kernel and on user pages does. -/
theorem Space.UserInv.keepsDirs (hs : s.UserInv L) {c : SpaceCall} (hst : SpaceStep L c s s') :
    s.KeepsDirs L s' := by
  obtain ⟨hl, hr⟩ := hst
  cases c with
  | kernel c =>
      obtain ⟨t, hr', _, hmoved⟩ := hs.inv.keeps hl
      have hrun : c.run L s = some s' := hr
      rw [hrun] at hr'
      cases hr'
      rcases hmoved with ⟨hdirs, ht⟩ | ⟨_, f, hdirs, hc⟩
      · exact hs.inv.keepsDirs_touched (fun d hd => hdirs ▸ hd) ht
      · exact hs.inv.keepsDirs_created hdirs hc
  | userMap virt phys flags count =>
      obtain ⟨hcr3, hrange⟩ := hl
      obtain ⟨mem', hr', ht, _⟩ := pgMap_wired (hs.made _ hcr3) virt phys flags count
        (Nat.zero_le _) (Nat.le_trans hrange (by decide))
      have hrun : KernelCall.run L s (.map virt phys flags count) = some s' := hr
      simp only [KernelCall.run, hr', Option.map_some, Option.some.injEq] at hrun
      subst hrun
      exact hs.inv.keepsDirs_touched (fun d hd => hd) ht
  | userUnmap virt count =>
      obtain ⟨hcr3, hrange⟩ := hl
      obtain ⟨mem', hr', ht, _⟩ := pgUnmap_wired (hs.made _ hcr3) virt count
        (Nat.zero_le _) (Nat.le_trans hrange (by decide))
      have hrun : KernelCall.run L s (.unmap virt count) = some s' := hr
      simp only [KernelCall.run, hr', Option.map_some, Option.some.injEq] at hrun
      subst hrun
      exact hs.inv.keepsDirs_touched (fun d hd => hd) ht

/-- What every step comes to: the directories are kept, and a page of the process is
reserved and has its slot. -/
theorem Home.Inv.next (hi : h.Inv L) (hu : s'.UserInv L) (hk : h.space.KeepsDirs L s') {v : Vmm}
    (hv : v.Window) (hb : v.base = h.vmm.base) (hs : v.stop = h.vmm.stop) {pages : List Nat}
    (hp : ∀ p ∈ pages, p < h.vmm.totalPages.toNat ∧ test v.bitmap p = true ∧
      (p ∈ h.pages ∨ Present (s'.mm.mmu.mem h.dir (slotOf (h.vmm.first p))))) :
    Home.Inv L ⟨s', v, h.dir, pages⟩ := by
  obtain ⟨hknown, _, hwired⟩ := hk L.pgPd hi.known
  obtain ⟨hdir, hpde, _⟩ := hk h.dir hi.dir.1
  have htotal : v.totalPages.toNat = h.vmm.totalPages.toNat := by
    rw [hv.total_eq, hi.window.total_eq, hb, hs]
  refine ⟨hu, hwired 0 hi.boot, hknown, ⟨hdir, hi.dir.2⟩, hv, hb.trans hi.base, hs.trans hi.stop,
    fun p hmem => ?_⟩
  obtain ⟨hlt, hbit, hslot⟩ := hp p hmem
  have hfirst : v.first p = h.vmm.first p := by rw [Vmm.first, Vmm.first, hb]
  refine ⟨htotal.symm ▸ hlt, hbit, ?_⟩
  show Present (s'.mm.mmu.mem h.dir (slotOf (v.first p)))
  rw [hfirst]
  rcases hslot with hold | hnew
  · rw [hpde _ (hi.pages p hold).2.2]
    exact (hi.pages p hold).2.2
  · exact hnew

/-- A call around the process. -/
theorem Home.Inv.around (hi : h.Inv L) (hu : s'.UserInv L) (hk : h.space.KeepsDirs L s') :
    Home.Inv L { h with space := s' } :=
  hi.next hu hk hi.window rfl rfl fun p hp =>
    ⟨(hi.pages p hp).1, (hi.pages p hp).2.1, Or.inl hp⟩

/-- Frames are taken and pages are mapped under the loaded directory. -/
theorem Space.UserInv.update (hs : s.UserInv L) {F : List Nat} {m : Mm} {P : Nat → Prop}
    (hpmm : s.mm.pmm.Took F m.pmm) (hcr3 : m.mmu.cr3 = s.mm.mmu.cr3)
    (ht : Touched L s.mm.mmu.cr3 P s.mm.mmu.mem m.mmu.mem) :
    Space.UserInv L ⟨⟨s.mm.vmm, m.pmm, m.mmu⟩, s.dirs⟩ ∧
      s.KeepsDirs L ⟨⟨s.mm.vmm, m.pmm, m.mmu⟩, s.dirs⟩ := by
  refine ⟨⟨hs.inv.update hs.inv.vmm rfl hpmm hcr3 ht, fun d hd => (hs.made d hd).other ht⟩,
    hs.inv.keepsDirs_touched (fun d hd => hd) ht⟩

/-- The process may call its manager. -/
theorem Home.Inv.ready (hi : h.Inv L) (hcr3 : h.space.mm.mmu.cr3 = h.dir) : h.mm.Ready L where
  vmm := ⟨hi.window, fun h0 => by
    have hbase : h.mm.vmm.base = uvirt := hi.base
    rw [hbase] at h0
    exact absurd h0 (by decide)⟩
  pmm := hi.space.inv.pmm
  zero := hi.space.inv.zero
  wired := by
    have hbase : h.mm.vmm.base = uvirt := hi.base
    have hw := hi.space.made h.dir hi.dir
    rw [← hcr3] at hw
    rw [hbase, show (pdIndex uvirt).toNat = 0 by decide]
    exact hw

theorem Vmm.mem_pagesOf {v : Vmm} (hv : v.Window) {p : Nat} (hp : p < v.totalPages.toNat) {n : U32}
    {q : Nat} : q ∈ v.pagesOf (v.addr p) n ↔ p ≤ q ∧ q < p + n.toNat := by
  rw [Vmm.pagesOf, hv.page_addr hp, List.mem_range'_1]

/-- `vmm_alloc` for the process. -/
theorem Home.Inv.alloc (hi : h.Inv L) (hcr3 : h.space.mm.mmu.cr3 = h.dir) {n : U32}
    (hr : HomeCall.run L h (.alloc n) = some h') : h'.Inv L := by
  rcases vmmAlloc_cases (hi.ready hcr3) n with ⟨_, lr, hrun⟩ | ⟨hres, p, lr, F, u, hf, h0, hc⟩
  · simp only [HomeCall.run, hrun, Option.map_some, if_true, Option.some.injEq] at hr
    subst hr
    obtain ⟨hu, hk⟩ := hi.space.update (m := ⟨h.vmm, h.space.mm.pmm, h.space.mm.mmu⟩)
      (Pmm.Took.refl _) rfl (Touched.refl L _ (fun _ => False) _)
    exact hi.next hu hk (hi.window.withBits _ _ _ lr) rfl rfl fun q hq =>
      ⟨(hi.pages q hq).1, (hi.pages q hq).2.1, Or.inl hq⟩
  have hle : p + n.toNat ≤ h.vmm.totalPages.toNat := hf.le_total
  have hpos := toNat_pos_of_ne hres.1
  have hlt : p < h.vmm.totalPages.toNat := by omega
  rcases hc with ⟨hlen, hback, hrun⟩ | ⟨_, _, hun, hrun⟩
  · simp only [HomeCall.run, hrun, Option.map_some, if_neg h0, Option.some.injEq] at hr
    subst hr
    obtain ⟨hu, hk⟩ := hi.space.update hback.took hback.cr3 hback.touched
    refine hi.next hu hk ?_ ?_ ?_ fun q hq => ?_
    · rw [hback.vmm]
      exact hi.window.reserved p n lr
    · rw [hback.vmm]
      rfl
    · rw [hback.vmm]
      rfl
    have hbit : test u.vmm.bitmap q = (decide (p ≤ q ∧ q < p + n.toNat) || test h.vmm.bitmap q) := by
      rw [hback.vmm]
      exact test_setRun _ _ _ _
    rw [hbit]
    rcases List.mem_append.mp hq with hold | hnew
    · refine ⟨(hi.pages q hold).1, ?_, Or.inl hold⟩
      rw [(hi.pages q hold).2.1, Bool.or_true]
    · obtain ⟨h1, h2⟩ := (Vmm.mem_pagesOf hi.window hlt).mp hnew
      obtain ⟨j, rfl⟩ := Nat.exists_eq_add_of_le h1
      refine ⟨by omega, by rw [decide_eq_true ⟨h1, h2⟩, Bool.true_or], Or.inr ?_⟩
      have hj : j < F.length := by omega
      obtain ⟨hpde, _⟩ := hback.mapped j F[j] (List.getElem?_eq_getElem hj)
      have hfirst : (h.mm.withReserved p n lr).vmm.first p + j = h.vmm.first (p + j) :=
        Nat.add_assoc _ _ _
      rw [hfirst] at hpde
      rw [← hcr3]
      exact hpde
  · simp only [HomeCall.run, hrun, Option.map_some, if_true, Option.some.injEq] at hr
    subst hr
    obtain ⟨hu, hk⟩ := hi.space.update hun.took hun.cr3 hun.touched
    refine hi.next hu hk ?_ ?_ ?_ fun q hq => ?_
    · rw [hun.vmm]
      exact (hi.window.reserved p n lr).withBits _ _ _ _
    · rw [hun.vmm]
      rfl
    · rw [hun.vmm]
      rfl
    obtain ⟨hq1, hq2, _⟩ := hi.pages q hq
    refine ⟨hq1, ?_, Or.inl hq⟩
    -- the pages of the process are none of those that were reserved and released
    have hout : ¬ (p ≤ q ∧ q < p + n.toNat) := by
      rintro ⟨h1, h2⟩
      have hfree := hf.free (q - p) (by omega)
      rw [Nat.add_sub_cancel' h1] at hfree
      have hfree' : test h.vmm.bitmap q = false := hfree
      rw [hq2] at hfree'
      exact Bool.noConfusion hfree'
    have hlen : F.length < n.toNat := by omega
    rw [hun.vmm]
    show test (clearRun (setRun h.vmm.bitmap p n.toNat) p F.length) q = true
    rw [test_clearRun, test_setRun, hq2, Bool.or_true, Bool.and_true,
      decide_eq_false fun hc => hout ⟨hc.1, by omega⟩]
    rfl

/-- What `vmm_unreserve` of a range leaves outside it. -/
theorem vmmUnreserve_outside {v : Vmm} (hv : v.Window) {p : Nat} {n : U32}
    (hle : p + n.toNat ≤ v.totalPages.toNat) (h0 : v.addr p ≠ 0) :
    (vmmUnreserve v (v.addr p) n).stop = v.stop ∧ ∀ q, ¬ (p ≤ q ∧ q < p + n.toNat) →
      test (vmmUnreserve v (v.addr p) n).bitmap q = test v.bitmap q := by
  by_cases hn : n = 0
  · have hsame : vmmUnreserve v (v.addr p) n = v := by
      simp only [vmmUnreserve, if_neg h0, if_pos hn]
    rw [hsame]
    exact ⟨rfl, fun _ _ => rfl⟩
  · rw [vmmUnreserve_eq hv hn hle h0]
    refine ⟨rfl, fun q hq => ?_⟩
    show test (clearRun v.bitmap p n.toNat) q = _
    rw [test_clearRun, decide_eq_false hq]
    rfl

/-- No page of the process is at `NULL`. -/
theorem Home.Inv.addr_ne_zero (hi : h.Inv L) {p : Nat} (hp : p < h.vmm.totalPages.toNat) :
    h.vmm.addr p ≠ 0 := by
  intro h0
  have h1 := hi.window.toNat_addr hp
  rw [h0, hi.base] at h1
  have h2 : (0 : U32).toNat = 0 := rfl
  have h3 : uvirt.toNat = 0x1000 := rfl
  omega

/-- `vmm_free` for the process. -/
theorem Home.Inv.free (hi : h.Inv L) (hcr3 : h.space.mm.mmu.cr3 = h.dir) {virt n : U32}
    (hl : h.vmm.InWindow virt n) (hr : HomeCall.run L h (.free virt n) = some h') : h'.Inv L := by
  obtain ⟨p, rfl, hlt, hle⟩ := hl
  obtain ⟨mem', hrun, ht⟩ := vmmFree_eq (hi.ready hcr3).windowed hle hlt
  obtain ⟨hw, hb⟩ := vmmUnreserve_window hi.window (h.vmm.addr p) n
  obtain ⟨hs, hout⟩ := vmmUnreserve_outside hi.window hle (hi.addr_ne_zero hlt)
  generalize hv : vmmUnreserve h.vmm (h.vmm.addr p) n = v at hw hb hs hout
  have hrun' : vmmFree h.mm (h.vmm.addr p) n
      = some ⟨v, h.space.mm.pmm, ⟨mem', h.space.mm.mmu.cr3⟩⟩ := by
    rw [← hv]
    exact hrun
  rw [HomeCall.run, hrun', Option.map_some, Option.some.injEq] at hr
  subst hr
  obtain ⟨hu, hk⟩ := hi.space.update (m := ⟨v, h.space.mm.pmm, ⟨mem', h.space.mm.mmu.cr3⟩⟩)
    (Pmm.Took.refl _) rfl ht
  refine hi.next hu hk hw hb hs fun q hq => ?_
  obtain ⟨hq1, hq2⟩ := List.mem_filter.mp hq
  have hnot := of_decide_eq_true hq2
  rw [Vmm.mem_pagesOf hi.window hlt] at hnot
  exact ⟨(hi.pages q hq1).1, (hout q hnot).trans (hi.pages q hq1).2.1, Or.inl hq1⟩

/-- `vmm_reserve` for the process. -/
theorem Home.Inv.reserve (hi : h.Inv L) (n : U32) :
    Home.Inv L { h with vmm := (vmmReserve h.vmm n).2 } := by
  have hshape : h.vmm.Shape := ⟨hi.window, fun h0 => by
    rw [hi.base] at h0
    exact absurd h0 (by decide)⟩
  have hk : h.space.KeepsDirs L h.space := fun d hd => ⟨hd, fun _ _ => rfl, fun _ hw => hw⟩
  rcases vmmReserve_cases hshape n with ⟨_, lr, hr⟩ | ⟨_, p, lr, _, _, hr⟩
  · rw [hr]
    exact hi.next hi.space hk (hi.window.withBits _ _ _ lr) rfl rfl fun q hq =>
      ⟨(hi.pages q hq).1, (hi.pages q hq).2.1, Or.inl hq⟩
  · rw [hr]
    refine hi.next hi.space hk (hi.window.reserved p n lr) rfl rfl fun q hq =>
      ⟨(hi.pages q hq).1, ?_, Or.inl hq⟩
    show test (setRun h.vmm.bitmap p n.toNat) q = true
    rw [test_setRun, (hi.pages q hq).2.1, Bool.or_true]

/-- User pages are mapped or unmapped under the directory of the kernel. -/
theorem Home.Inv.shared (hi : h.Inv L) {c : KernelCall} {mem : PhysMem} {P : Nat → Prop}
    (ht : Touched L h.space.mm.mmu.cr3 P h.space.mm.mmu.mem mem)
    (hrun : c.run L h.space = some ⟨⟨h.space.mm.vmm, h.space.mm.pmm, ⟨mem, h.space.mm.mmu.cr3⟩⟩,
      h.space.dirs⟩)
    (hr : (c.run L h.space).map (fun s => { h with space := s }) = some h') : h'.Inv L := by
  rw [hrun, Option.map_some, Option.some.injEq] at hr
  subst hr
  obtain ⟨hu, hk⟩ := hi.space.update
    (m := ⟨h.space.mm.vmm, h.space.mm.pmm, ⟨mem, h.space.mm.mmu.cr3⟩⟩) (Pmm.Took.refl _) rfl ht
  exact hi.around hu hk

/-- **The step lemma.** -/
theorem Home.Inv.step (hi : h.Inv L) {c : HomeCall} (ha : c.Clean h) (hst : HomeStep L c h h') :
    h'.Inv L := by
  obtain ⟨hl, hr⟩ := hst
  cases c with
  | space c =>
      obtain ⟨s', hs', rfl⟩ := Option.map_eq_some_iff.mp hr
      exact hi.around (hi.space.step ha ⟨hl, hs'⟩) (hi.space.keepsDirs ⟨hl, hs'⟩)
  | sharedMap virt phys flags count =>
      obtain ⟨hcr3, hrange⟩ := hl
      have hw := hi.boot
      rw [← hcr3] at hw
      obtain ⟨mem', hr', ht, _⟩ := pgMap_wired hw virt phys flags count (Nat.zero_le _)
        (Nat.le_trans hrange (by decide))
      exact hi.shared (c := .map virt phys flags count) ht (map_run hr' _) hr
  | sharedUnmap virt count =>
      obtain ⟨hcr3, hrange⟩ := hl
      have hw := hi.boot
      rw [← hcr3] at hw
      obtain ⟨mem', hr', ht, _⟩ := pgUnmap_wired hw virt count (Nat.zero_le _)
        (Nat.le_trans hrange (by decide))
      exact hi.shared (c := .unmap virt count) ht (map_run hr' _) hr
  | alloc count => exact hi.alloc hl hr
  | reserve count =>
      cases hr
      exact hi.reserve count
  | free virt count => exact hi.free hl.1 hl.2 hr

/-! ## The start -/

/-- The directory of the kernel is wired all the way down as well. -/
theorem KernelStart.wired (hs : KernelStart L s) : Wired L 0 s.mm.mmu.mem L.pgPd := by
  obtain ⟨img, mem, map, vmm, pmm, mmu, rfl, hclr, hmap, hboot, hinit, _⟩ := hs
  obtain ⟨mem', hb, hk, hw, _⟩ := bootMmu_dir img hclr
  rw [hb] at hboot
  cases hboot
  obtain ⟨m', hm, _, ht, _⟩ := mminit_spec map hmap (m := ⟨vmm, pmm, ⟨mem', img.pgPd⟩⟩) hk
  rw [hm] at hinit
  cases hinit
  exact hw.touched ht

/-- No call takes that away. -/
theorem CleanReach.boot (hs : CleanReach L s) :
    s.UserInv L ∧ Wired L 0 s.mm.mmu.mem L.pgPd ∧ L.pgPd ∈ s.dirs := by
  refine hs.invariant
    (fun s => s.UserInv L ∧ Wired L 0 s.mm.mmu.mem L.pgPd ∧ L.pgPd ∈ s.dirs) ?_ ?_
  · intro s hs
    exact ⟨hs.userInv, hs.wired, hs.dirs_eq ▸ List.mem_singleton.mpr rfl⟩
  · rintro c s s' ⟨hu, hw, hmem⟩ ⟨hclean, hst⟩
    obtain ⟨h1, _, h2⟩ := hu.keepsDirs hst L.pgPd hmem
    exact ⟨hu.step hclean hst, h2 0 hw, h1⟩

/-- The window that `create_proc` gives a process. -/
theorem vmmSizes_user (v : Vmm) : ∃ w, vmmSizes v uvirt uvirtEnd = some w ∧ w.Window ∧
    w.base = uvirt ∧ w.stop = uvirtEnd ∧ w.totalPages = 0xBFFFF ∧ w.freePages = 0xBFFFF := by
  refine ⟨_, if_pos (by decide), ⟨?_, ?_, ?_, ?_, ?_, ?_⟩, rfl, rfl, ?_, ?_⟩ <;>
    dsimp only <;> decide

theorem HomeStart.inv (hs : HomeStart L h) : h.Inv L := by
  obtain ⟨hu, hw, hmem⟩ := hs.space.boot
  obtain ⟨v, hv⟩ := hs.vmm
  obtain ⟨w, hw1, hwin, hb, hstop, _⟩ := vmmSizes_user v
  obtain ⟨x, hx, hxwin, hxb, hxs, _⟩ := vmmFill_free hwin (by rw [hb]; decide)
  rw [hw1, Option.bind_some, hx, Option.some.injEq] at hv
  subst hv
  refine ⟨hu, hw, hmem, hs.dir, hxwin, hxb.trans hb, hxs.trans hstop, fun p hp => ?_⟩
  rw [hs.pages] at hp
  exact absurd hp List.not_mem_nil

/-- **The run lemma.** -/
theorem HomeReach.inv (hr : HomeReach L h) : h.Inv L :=
  hr.invariant (fun h => h.Inv L) (fun _ hs => hs.inv) fun _ _ _ hi hst => hi.step hst.1 hst.2

/-! ## The destruction -/

theorem vmmAddr_inj {v : Vmm} (hv : v.Window) {p q : Nat} (hp : p < v.totalPages.toNat)
    (hq : q < v.totalPages.toNat) (heq : v.addr p = v.addr q) : p = q := by
  have h1 := hv.pageNo_addr hp
  rw [heq, hv.pageNo_addr hq] at h1
  omega

/-- What is given back of a page that is looked up. -/
def givenBack (va : U32) (w : Option Frame) : Option (U32 × U32) :=
  w.bind fun f => if f = 0 then none else some (va, frameAddr f)

theorem givenBack_eq_none {va : U32} {w : Option Frame} :
    givenBack va w = none ↔ ∀ f, w = some f → f = 0 := by
  cases w with
  | none => simp [givenBack]
  | some f => simp [givenBack]

/-- It is the frame that is looked up, unless that is frame 0. -/
theorem givenBack_eq_map {va : U32} {w w' : Option Frame} (hw : w = none ∨ w = w') :
    givenBack va w = w'.map (fun f => (va, frameAddr f)) ↔ ∀ f, w' = some f → f ≠ 0 ∧ w = w' := by
  cases w' with
  | none =>
    obtain rfl : w = none := hw.elim id id
    simp [givenBack]
  | some g =>
    rcases hw with rfl | rfl
    · simp [givenBack]
    · by_cases hg : g = 0 <;> simp [givenBack, hg]

theorem givenBack_addr {va : U32} {w : Option Frame} {x : U32 × U32} (hx : givenBack va w = some x) :
    x.1 = va := by
  obtain ⟨f, _, hf⟩ := Option.bind_eq_some_iff.mp hx
  split at hf
  · cases hf
  · cases hf
    rfl

/-- Lists whose elements tell their places are equal place by place. -/
theorem filterMap_range_eq_iff {α β : Type} {n : Nat} {f g : Nat → Option α} {key : α → β}
    {place : Nat → β} (hinj : ∀ p q, p < n → q < n → place p = place q → p = q)
    (hf : ∀ p x, f p = some x → key x = place p) (hg : ∀ p x, g p = some x → key x = place p) :
    (List.range n).filterMap f = (List.range n).filterMap g ↔ ∀ p, p < n → f p = g p := by
  constructor
  · intro heq p hp
    have himp : ∀ {f g : Nat → Option α}, (∀ p x, f p = some x → key x = place p) →
        (∀ p x, g p = some x → key x = place p) →
        (List.range n).filterMap f = (List.range n).filterMap g →
        ∀ x, f p = some x → g p = some x := by
      intro f g hf hg heq x hx
      have hmem : x ∈ (List.range n).filterMap g :=
        heq ▸ List.mem_filterMap.mpr ⟨p, List.mem_range.mpr hp, hx⟩
      obtain ⟨q, hq, hgx⟩ := List.mem_filterMap.mp hmem
      have hpq := hinj p q hp (List.mem_range.mp hq) ((hf p x hx).symm.trans (hg q x hgx))
      rw [hpq]
      exact hgx
    exact Option.ext fun x => ⟨himp hf hg heq x, himp hg hf heq.symm x⟩
  · intro hall
    exact List.filterMap_congr fun p hp => hall p (List.mem_range.mp hp)

/-- A directory shows what is in the static tables, where it has the slot. -/
theorem Home.Inv.walk_page (hi : h.Inv L) {d : Frame} (hw : Wired L 0 h.space.mm.mmu.mem d) {p : Nat}
    (hp : p < h.vmm.totalPages.toNat) : walk h.space.mm.mmu.mem d (h.vmm.addr p) =
      if Present (h.space.mm.mmu.mem d (slotOf (h.vmm.first p))) then h.backing L p else none := by
  have hpage : pageNo (h.vmm.addr p) = h.vmm.first p := hi.window.pageNo_addr hp
  have htotal := hi.window.total_eq
  have hbase : h.vmm.base.toNat = 0x1000 := by rw [hi.base]; rfl
  have hstop : h.vmm.stop.toNat = 0xC0000000 := by rw [hi.stop]; rfl
  rw [Home.backing, ← hpage]
  refine walk_entry hw ?_
  rw [hpage, Vmm.first, pageNo]
  omega

/-- What `vmm_destroy` frees at a page. -/
theorem Home.Inv.freedPage_eq (hi : h.Inv L) {p : Nat} (hp : p < h.vmm.totalPages.toNat) :
    (h.atDestroy L).freedPage p = if test h.vmm.bitmap p = true then
      givenBack (h.vmm.addr p) (if h.KernelHas L p then h.backing L p else none) else none := by
  show (if p < h.vmm.totalPages.toNat ∧ test h.vmm.bitmap p = true then
    givenBack (h.vmm.addr p) (walk h.space.mm.mmu.mem L.pgPd (h.vmm.addr p)) else none) = _
  rw [hi.walk_page hi.boot hp]
  simp only [hp, true_and]
  rfl

/-- Page by page: what `vmm_destroy` frees and what is to be freed. -/
theorem Home.Inv.page_iff (hi : h.Inv L) {p : Nat} (hp : p < h.vmm.totalPages.toNat) :
    (h.atDestroy L).freedPage p = h.ownPage p ↔
      (p ∈ h.pages → ∀ f, h.backing L p = some f → f ≠ 0 ∧ h.KernelHas L p) ∧
      (p ∉ h.pages → test h.vmm.bitmap p = true →
        ∀ f, h.backing L p = some f → h.KernelHas L p → f = 0) := by
  rw [hi.freedPage_eq hp, Home.ownPage]
  by_cases hmem : p ∈ h.pages
  · obtain ⟨_, hbit, hslot⟩ := hi.pages p hmem
    have hshow : (if h.KernelHas L p then h.backing L p else none) = none ∨
        (if h.KernelHas L p then h.backing L p else none) = h.backing L p := by
      split
      · exact Or.inr rfl
      · exact Or.inl rfl
    rw [if_pos hbit, if_pos hmem, hi.walk_page (hi.space.made _ hi.dir) hp, if_pos hslot,
      givenBack_eq_map hshow]
    refine ⟨fun hall => ⟨fun _ f hf => ⟨(hall f hf).1, ?_⟩, fun hno => absurd hmem hno⟩,
      fun hall f hf => ⟨(hall.1 hmem f hf).1, if_pos (hall.1 hmem f hf).2⟩⟩
    by_contra hno
    have heq := (hall f hf).2
    rw [if_neg hno, hf] at heq
    cases heq
  · rw [if_neg hmem]
    by_cases hbit : test h.vmm.bitmap p = true
    · rw [if_pos hbit, givenBack_eq_none]
      refine ⟨fun hall => ⟨fun hc => absurd hc hmem, fun _ _ f hf hk => hall f (by rw [if_pos hk, hf])⟩,
        fun hall f hf => ?_⟩
      split at hf
      · next hk => exact hall.2 hmem hbit f hf hk
      · cases hf
    · rw [if_neg hbit]
      exact ⟨fun _ => ⟨fun hc => absurd hc hmem, fun _ hc => absurd hc hbit⟩, fun _ => rfl⟩

/-- The two lists are equal under the first two parts of the condition. -/
theorem Home.Inv.lists_iff (hi : h.Inv L) :
    (h.atDestroy L).freedPages h.vmm.totalPages.toNat = h.ownPages ↔
      (∀ p ∈ h.pages, ∀ f, h.backing L p = some f → f ≠ 0 ∧ h.KernelHas L p) ∧
      (∀ p, p < h.vmm.totalPages.toNat → p ∉ h.pages → test h.vmm.bitmap p = true →
        ∀ f, h.backing L p = some f → h.KernelHas L p → f = 0) := by
  have hfreed : ∀ p x, (h.atDestroy L).freedPage p = some x → x.1 = h.vmm.addr p := by
    intro p x hx
    rw [Mm.freedPage] at hx
    split at hx
    · exact givenBack_addr hx
    · cases hx
  have hown : ∀ p x, h.ownPage p = some x → x.1 = h.vmm.addr p := by
    intro p x hx
    rw [Home.ownPage] at hx
    split at hx
    · obtain ⟨f, _, rfl⟩ := Option.map_eq_some_iff.mp hx
      rfl
    · cases hx
  rw [Mm.freedPages, Home.ownPages,
    filterMap_range_eq_iff (fun p q hp hq => vmmAddr_inj hi.window hp hq) hfreed hown]
  constructor
  · intro hall
    refine ⟨fun p hmem => ?_, fun p hp hmem => ?_⟩
    · exact ((hi.page_iff (hi.pages p hmem).1).mp (hall p (hi.pages p hmem).1)).1 hmem
    · exact ((hi.page_iff hp).mp (hall p hp)).2 hmem
  · rintro ⟨hown, hothers⟩ p hp
    exact (hi.page_iff hp).mpr ⟨hown p, hothers p hp⟩

/-- What the destruction comes to in a state of the invariant. -/
theorem Home.Inv.destroys_iff (hi : h.Inv L) : h.DestroysOwn L ↔ h.Shown L := by
  have hw : Wired L (pdIndex (h.atDestroy L).vmm.base).toNat (h.atDestroy L).mmu.mem
      (h.atDestroy L).mmu.cr3 := by
    have hbase : (h.atDestroy L).vmm.base = uvirt := hi.base
    rw [hbase, show (pdIndex uvirt).toNat = 0 by decide]
    exact hi.boot
  obtain ⟨d, hrun, hfreed, hpmm⟩ := vmmDestroyPages_eq hi.window hw
  have hiff := hi.lists_iff
  constructor
  · rintro ⟨d', hrun', hown, hnodup, _⟩
    rw [hrun] at hrun'
    cases hrun'
    rw [hown] at hnodup
    obtain ⟨h1, h2⟩ := hiff.mp (hfreed.symm.trans hown)
    exact ⟨h1, h2, hnodup⟩
  · rintro ⟨h1, h2, hnodup⟩
    have hown : d.freed = h.ownPages := hfreed.trans (hiff.mpr ⟨h1, h2⟩)
    exact ⟨d, hrun, hown, hown ▸ hnodup, hown ▸ hpmm⟩

/-- **The teardown of an address space.**  In every run whose directories are made
in clean frames the scheduler gives back the frames of a process, each once, and
no others, exactly when its own directory shows the pages as the process's does. -/
theorem homeRun_destroys_iff (hr : HomeReach L h) : h.DestroysOwn L ↔ h.Shown L :=
  hr.inv.destroys_iff

/-! ## A page that the kernel's directory does not show -/

/-- The property as it is asked: in every run. -/
def TeardownExact : Prop := ∀ (L : Layout) (h : Home), HomeReach L h → h.DestroysOwn L

/-- A process goes on. -/
theorem HomeReach.call (hr : HomeReach L h) (c : HomeCall) (ha : c.Clean h) (hl : c.Legal L h)
    (hrun : c.run L h = some h') : HomeReach L h' :=
  Reach.next hr ⟨ha, hl, hrun⟩

/-- A process of the small machine that has just been created, with its directory
loaded.  The kernel's directory has no user entry but the first. -/
theorem smallHome_start : ∃ h, HomeStart smallLayout h ∧ h.space.mm.mmu.cr3 = h.dir ∧
    h.vmm.totalPages = 0xBFFFF ∧ h.vmm.freePages = 0xBFFFF ∧
    (∀ q, q < 0xBFFFF → test h.vmm.bitmap q = false) ∧
    h.space.mm.pmm.Consistent ∧ h.space.mm.pmm.freePages ≠ 0 ∧
    ∀ i : Slot, 0 < i.toNat → i.toNat < 768 → h.space.mm.mmu.mem smallLayout.pgPd i = 0 := by
  obtain ⟨s0, hs, hentries⟩ := smallImage_start_entries
  obtain ⟨_, _, hcr3, _⟩ := hs.start.booted
  have hfree := hs.frames
  obtain ⟨A, m1, hcA, hrA, huser⟩ :=
    hs.start.inv.creates_user hs.consistent.pmm hs.page (by omega)
  have hA : A ≠ smallLayout.pgPd := hcr3 ▸ hcA.apart.1
  have hclean : NoStaleEntry s0.mm := by
    intro i _
    rw [hcA.handed, frameOf_frameAddr, hs.clean A hA hcA.apart.2 i]
    exact not_present_zero
  have hstart : CleanReach smallLayout s0 := .start hs.start
  have hreach1 := hstart.call (.kernel .createPd) (fun _ _ => hclean) trivial hrA
  let s2 : Space := ⟨⟨m1.vmm, m1.pmm, ⟨m1.mmu.mem, A⟩⟩, A :: s0.dirs⟩
  have hreach2 : CleanReach smallLayout s2 :=
    hreach1.call (.kernel (.loadCr3 A)) trivial List.mem_cons_self rfl
  obtain ⟨w, hw, hwin, hb, hstop, htotal, hwfree⟩ := vmmSizes_user smallVmm
  obtain ⟨x, hx, _, _, _, hxt, hxf, hclear⟩ := vmmFill_free hwin (by rw [hb]; decide)
  have hleft := hcA.took.free_left hs.consistent.pmm
  rw [List.length_singleton] at hleft
  refine ⟨⟨s2, x, A, []⟩, ⟨hreach2, ⟨List.mem_cons_self, hA⟩, ⟨smallVmm, ?_⟩, rfl⟩, rfl,
    hxt.trans htotal, hxf.trans hwfree, fun q hq => ?_, hcA.took.consistent hs.consistent.pmm, ?_,
    fun i h1 h2 => ?_⟩
  · rw [hw, Option.bind_some, hx]
  · refine hclear q ?_
    rw [htotal]
    exact hq
  · intro h0
    have hz : m1.pmm.freePages = 0 := h0
    have h0' : (0 : U32).toNat = 0 := rfl
    rw [hz] at hleft
    omega
  · have hkept := huser i h2
    rw [hcr3] at hkept
    exact hkept.trans (hentries i h1 h2)

/-- It reserves the pages of the first slot. -/
theorem smallHome_reserved : ∃ h, HomeReach smallLayout h ∧ h.space.mm.mmu.cr3 = h.dir ∧
    smallLayout.pgPd ≠ h.dir ∧ h.vmm.totalPages.toNat = 0xBFFFF ∧ h.vmm.freePages ≠ 0 ∧
    (∀ q, q < 0xBFFFF → (test h.vmm.bitmap q = false ↔ 1023 ≤ q)) ∧
    h.space.mm.pmm.Consistent ∧ h.space.mm.pmm.freePages ≠ 0 ∧
    ∀ i : Slot, 0 < i.toNat → i.toNat < 768 → h.space.mm.mmu.mem smallLayout.pgPd i = 0 := by
  obtain ⟨h0, hstart, hcr3, htotal, hfree, hclear, hcons, hframes, hentries⟩ := smallHome_start
  have hreach : HomeReach smallLayout h0 := .start hstart
  have ht : h0.vmm.totalPages.toNat = 0xBFFFF := by rw [htotal]; rfl
  have hrun : FreeRun h0.vmm.bitmap 0 1023 := fun i hi => hclear (0 + i) (by omega)
  have hshape : h0.vmm.Shape := (hreach.inv.ready hcr3).vmm
  have hres : h0.vmm.Reservable 1023 :=
    ⟨by decide, by rw [hfree]; decide, 0, by rw [ht]; decide, hrun⟩
  rcases vmmReserve_cases hshape 1023 with ⟨hno, _⟩ | ⟨_, p, lr, hf, _, hr⟩
  · exact absurd hres hno
  have hp : p = 0 := by
    by_contra hne
    exact hf.first 0 (by omega) hrun
  subst hp
  have hreach1 : HomeReach smallLayout { h0 with vmm := h0.vmm.reserved 0 1023 lr } :=
    hreach.call (.reserve 1023) trivial trivial (by
      show some { h0 with vmm := (vmmReserve h0.vmm 1023).2 } = some _
      rw [hr])
  refine ⟨_, hreach1, hcr3, hstart.dir.2.symm, ht, ?_, fun q hq => ?_, hcons, hframes, hentries⟩
  · show h0.vmm.freePages - 1023 ≠ 0
    rw [hfree]
    decide
  · show test (setRun h0.vmm.bitmap 0 1023) q = false ↔ 1023 ≤ q
    rw [test_setRun, hclear q hq, Bool.or_false, decide_eq_false_iff_not]
    omega

/-- The first page of the user space is page 1. -/
theorem Vmm.first_user {v : Vmm} (hb : v.base = uvirt) (p : Nat) : v.first p = 1 + p := by
  rw [Vmm.first, hb]
  rfl

/-- A page that is backed, where the kernel's directory has nothing. -/
theorem Home.not_shown {p : Nat} {f : Frame} (hp : p ∈ h.pages) (hb : h.backing L p = some f)
    (hk : h.space.mm.mmu.mem L.pgPd (slotOf (h.vmm.first p)) = 0) : ¬ h.Shown L := by
  intro hshown
  obtain ⟨_, hpresent⟩ := hshown.own p hp _ hb
  rw [Home.KernelHas, hk] at hpresent
  exact not_present_zero hpresent

/-- `vmm_alloc` maps the page after them. -/
theorem smallHome_leaks : ∃ h, HomeReach smallLayout h ∧ ¬ h.Shown smallLayout := by
  obtain ⟨h1, hreach1, hcr3, hdir, ht, hfree, hbit, hcons, hframes, hentries⟩ := smallHome_reserved
  have hone : (1 : U32).toNat = 1 := rfl
  have hres : h1.mm.vmm.Reservable 1 := by
    refine ⟨by decide, toNat_pos_of_ne hfree, 1023, ?_, fun i hi => ?_⟩
    · show 1023 + (1 : U32).toNat ≤ h1.vmm.totalPages.toNat
      rw [ht]
      decide
    · exact (hbit (1023 + i) (by omega)).mpr (by omega)
  rcases vmmAlloc_cases (hreach1.inv.ready hcr3) 1 with ⟨hno, _⟩ | ⟨_, p, lr, F, u, hf, haddr, hc⟩
  · exact absurd hres hno
  rcases hc with ⟨hlen, hback, hrun⟩ | ⟨hlen, hempty, _⟩
  · -- the page lies behind slot 0
    have hle : p + 1 ≤ 0xBFFFF := ht ▸ hf.le_total
    have hp : 1023 ≤ p := (hbit p (by omega)).mp (hf.free 0 (by decide))
    obtain ⟨f, rfl⟩ : ∃ f, F = [f] := List.length_eq_one_iff.mp (hlen.trans hone)
    obtain ⟨_, hpte⟩ := hback.mapped 0 f rfl
    let h2 : Home := h1.after u (h1.pages ++ h1.vmm.pagesOf (h1.mm.vmm.addr p) 1)
    have hreach2 : HomeReach smallLayout h2 :=
      hreach1.call (.alloc 1) trivial hcr3 (by
        rw [HomeCall.run, hrun, Option.map_some, if_neg haddr])
    have hmem : p ∈ h2.pages := by
      refine List.mem_append_right _ ?_
      exact (Vmm.mem_pagesOf hreach1.inv.window (by omega)).mpr ⟨Nat.le_refl _, by omega⟩
    have hfirst : h2.vmm.first p = 1 + p := Vmm.first_user hreach2.inv.base p
    have hbacked : h2.backing smallLayout p = some (frameOf (toAddr (BitVec.ofNat 32 f))) := by
      have hfirst1 : (h1.mm.withReserved p 1 lr).vmm.first p + 0 = h2.vmm.first p :=
        (Vmm.first_user hreach1.inv.base p).trans hfirst.symm
      rw [hfirst1] at hpte
      show entryFrame (smallLayout.pte u.mmu.mem (h2.vmm.first p)) = _
      rw [hpte, entryFrame_newPte]
    have hslot : (slotOf (h2.vmm.first p)).toNat = (1 + p) / 1024 := by
      rw [hfirst]
      exact toNat_slotOf (by omega)
    refine ⟨h2, hreach2, Home.not_shown hmem hbacked ?_⟩
    have hne : smallLayout.pgPd ≠ h1.mm.mmu.cr3 := fun hc => hdir (hc.trans hcr3)
    refine (hback.touched.other_dir hne smallLayout.pgPd_ne_ptFrame _).trans ?_
    exact hentries _ (by omega) (by omega)
  · -- a frame was left
    have h0' : F.length = h1.space.mm.pmm.freePages.toNat := hempty hcons
    have hz := toNat_pos_of_ne hframes
    omega

/-- The frame of that page is not given back. -/
theorem teardown_leaks : ¬ TeardownExact := by
  intro hall
  obtain ⟨h, hr, hno⟩ := smallHome_leaks
  exact hno (hr.inv.destroys_iff.mp (hall smallLayout h hr))

theorem homeRun_destroys_leak : ∃ h, HomeReach smallLayout h ∧ ¬ h.DestroysOwn smallLayout := by
  obtain ⟨h, hr, hno⟩ := smallHome_leaks
  exact ⟨h, hr, fun hd => hno ((homeRun_destroys_iff hr).mp hd)⟩

end Tomk
