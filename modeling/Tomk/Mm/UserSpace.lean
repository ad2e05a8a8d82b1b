/-
# User pages of several address spaces

A directory that `pgd_create_pd` makes has no user entries.  When a page below
`KVIRT` is mapped under it and the entry of its slot is missing, `_map_page`
builds the entry, and it builds the same one under every directory: the
static table of the slot.  Two address spaces that have both used a slot
share its table.

`Space.UserInv` is the invariant of the runs here, as long as directories are
made in clean frames: every directory that was made is wired all the way
down.  Then a call under one directory leaves the user addresses of the others
alone exactly when no other directory shows a page of the call, or shows
already what the call leaves there (`userRun_isolated_iff`).
-/
import Tomk.Mm.KernelRun

namespace Tomk

open Runs

variable {L : Layout} {s s' : Space}

/-- The directories that `pgd_create_pd` has made: all but the boot one. -/
def Space.Made (L : Layout) (s : Space) (d : Frame) : Prop := d ∈ s.dirs ∧ d ≠ L.pgPd

/-- The calls of the kernel, and `pg_map` and `pg_unmap` on user pages. -/
inductive SpaceCall where
  | kernel (c : KernelCall)
  | userMap (virt phys flags count : U32)
  | userUnmap (virt count : U32)

/-- The pages of a range lie below `KVIRT`. -/
def UserRange (virt count : U32) : Prop := pageNo virt + count.toNat ≤ 768 * 1024

def SpaceCall.Legal (L : Layout) (s : Space) : SpaceCall → Prop
  | .kernel c => c.Legal L s
  | .userMap virt _ _ count => s.Made L s.mm.mmu.cr3 ∧ UserRange virt count
  | .userUnmap virt count => s.Made L s.mm.mmu.cr3 ∧ UserRange virt count

def SpaceCall.run (L : Layout) (s : Space) : SpaceCall → Option Space
  | .kernel c => c.run L s
  | .userMap virt phys flags count => KernelCall.run L s (.map virt phys flags count)
  | .userUnmap virt count => KernelCall.run L s (.unmap virt count)

def SpaceStep (L : Layout) (c : SpaceCall) (s s' : Space) : Prop :=
  c.Legal L s ∧ c.run L s = some s'

/-- A `pg_map` or `pg_unmap` of user pages. -/
def SpaceCall.IsUser : SpaceCall → Prop
  | .kernel _ => False
  | _ => True

/-- No user address changes its translation under a directory that was made
and is not loaded. -/
def Isolated (L : Layout) (s s' : Space) : Prop :=
  ∀ B, s.Made L B → B ≠ s.mm.mmu.cr3 → ∀ va, va < kvirt →
    pgVirt2phys ⟨s'.mm.mmu.mem, B⟩ va = pgVirt2phys ⟨s.mm.mmu.mem, B⟩ va

/-- The property as it is asked: at every call on user pages, in every run. -/
def AddressSpacesIsolated : Prop :=
  ∀ (L : Layout) (s s' : Space) (c : SpaceCall), Reach (KernelStart L) (SpaceStep L) s →
    c.IsUser → SpaceStep L c s s' → Isolated L s s'

/-! ## When a call is apart from the other directories -/

/-- A directory that was made, other than the loaded one, and that has the
entry of the slot of page `p`, shows the page as `show` has it. -/
def Space.OthersShow (L : Layout) (s : Space) (p : Nat) (shown : Option Frame) : Prop :=
  ∀ B, s.Made L B → B ≠ s.mm.mmu.cr3 → Present (s.mm.mmu.mem B (slotOf p)) →
    entryFrame (L.pte s.mm.mmu.mem p) = shown

/-- The condition on a call: a page that it maps, or unmaps, is not to be
shown by another directory, unless with the frame it is mapped to, or as
unmapped. -/
def SpaceCall.Apart (L : Layout) (s : Space) : SpaceCall → Prop
  | .kernel _ => True
  | .userMap virt phys _ count => ∀ j, j < count.toNat →
      s.OthersShow L (pageNo virt + j) (some (frameOf (pageAt phys j)))
  | .userUnmap virt count => ∀ j, j < count.toNat →
      Present (s.mm.mmu.mem s.mm.mmu.cr3 (slotOf (pageNo virt + j))) →
        s.OthersShow L (pageNo virt + j) none

/-- A new directory is made in a clean frame. -/
def SpaceCall.Clean (s : Space) : SpaceCall → Prop
  | .kernel .createPd =>
      (pmmAlloc s.mm.pmm 1).1 ≠ 0 → s.mm.vmm.Reservable 1 → NoStaleEntry s.mm
  | _ => True

/-- The states of the runs in which every new directory is made in a clean
frame. -/
def CleanReach (L : Layout) : Space → Prop :=
  Reach (KernelStart L) (Guarded (fun c s => c.Clean s) (SpaceStep L))

/-! ## Translations -/

/-- One address is enough to tell the translations of a page apart. -/
theorem physOf_inj {va : U32} (hva : va &&& (pageSize - 1) = 1) {w w' : Option Frame}
    (h : physOf va w = physOf va w') : w = w' := by
  have hframe : ∀ f : Frame, frameOf (1 ||| frameAddr f) = f := by
    intro f
    rw [BitVec.or_comm, frameOf_or_low (by decide), frameOf_frameAddr]
  have hne : ∀ f : Frame, 1 ||| frameAddr f ≠ 0 := by
    intro f h0
    have h1 : ((1 : U32) ||| frameAddr f).getLsbD 0 = true := by
      rw [BitVec.getLsbD_or, show (1 : U32).getLsbD 0 = true from rfl, Bool.true_or]
    rw [h0] at h1
    exact Bool.noConfusion h1
  cases w <;> cases w' <;> simp only [physOf, hva] at h
  · rfl
  · exact absurd h.symm (hne _)
  · exact absurd h (hne _)
  · next f g =>
      have := congrArg frameOf h
      rw [hframe, hframe] at this
      rw [this]

theorem walk_entry {mem : PhysMem} {dir : Frame} {va : U32} (h : Wired L 0 mem dir)
    (hva : pageNo va < 768 * 1024) :
    walk mem dir va = if Present (mem dir (slotOf (pageNo va))) then
      entryFrame (L.pte mem (pageNo va)) else none := by
  rw [walk_wired h ⟨by omega, by omega⟩, slotOf_pageNo, entryFrame]
  by_cases h1 : Present (mem dir (pdIndex va)) <;> simp [h1]

theorem pageNo_lt_kvirt {va : U32} : va < kvirt ↔ pageNo va < 768 * 1024 := by
  have h1 : kvirt.toNat = 0xC0000000 := rfl
  rw [BitVec.lt_def, h1, pageNo]
  omega

/-- Every user page has an address at offset 1. -/
theorem exists_addr {p : Nat} (hp : p < 768 * 1024) :
    ∃ va : U32, pageNo va = p ∧ va &&& (pageSize - 1) = 1 := by
  have hva : (BitVec.ofNat 32 (p * 4096 + 1)).toNat = p * 4096 + 1 := by
    rw [BitVec.toNat_ofNat]
    omega
  refine ⟨BitVec.ofNat 32 (p * 4096 + 1), ?_, ?_⟩
  · rw [pageNo, hva]
    omega
  · apply BitVec.eq_of_toNat_eq
    rw [toNat_pageOffset, hva]
    show _ = 1
    omega

/-! ## The invariant -/

structure Space.UserInv (L : Layout) (s : Space) : Prop where
  inv : s.Inv L
  made : ∀ d, s.Made L d → Wired L 0 s.mm.mmu.mem d

/-- What a call that changes pages of the loaded directory means for the
others: the pages they show are to stay what they are. -/
theorem Space.UserInv.isolated_iff (h : s.UserInv L) {P : Nat → Prop}
    (ht : Touched L s.mm.mmu.cr3 P s.mm.mmu.mem s'.mm.mmu.mem) :
    Isolated L s s' ↔ ∀ p, p < 768 * 1024 →
      s.OthersShow L p (entryFrame (L.pte s'.mm.mmu.mem p)) := by
  constructor
  · intro hiso p hp B hB hne hshow
    obtain ⟨va, rfl, hoff⟩ := exists_addr hp
    have hw := h.made B hB
    have hw' := hw.other ht
    have heq := hiso B hB hne va (pageNo_lt_kvirt.mpr hp)
    rw [pgVirt2phys_eq hw'.self, pgVirt2phys_eq hw.self] at heq
    have hwalk := physOf_inj hoff (Option.some.inj heq)
    simp only [walk_entry hw hp, walk_entry hw' hp, ht.other_dir hne hw.apart, if_pos hshow] at hwalk
    exact hwalk.symm
  · intro hall B hB hne va hva
    have hp := pageNo_lt_kvirt.mp hva
    have hw := h.made B hB
    have hw' := hw.other ht
    rw [pgVirt2phys_eq hw'.self, pgVirt2phys_eq hw.self]
    have hwalk : walk s'.mm.mmu.mem B va = walk s.mm.mmu.mem B va := by
      rw [walk_entry hw hp, walk_entry hw' hp, ht.other_dir hne hw.apart]
      split
      · next hshow => exact (hall _ hp B hB hne hshow).symm
      · rfl
    show some (physOf va (walk s'.mm.mmu.mem B va)) = some (physOf va (walk s.mm.mmu.mem B va))
    rw [hwalk]

/-- Only the pages of the call matter. -/
theorem Space.OthersShow.run_iff {first n : Nat} (hn : first + n ≤ 768 * 1024) {mem' : PhysMem}
    (ht : Touched L s.mm.mmu.cr3 (InRun first n) s.mm.mmu.mem mem') :
    (∀ p, p < 768 * 1024 → s.OthersShow L p (entryFrame (L.pte mem' p))) ↔
      ∀ j, j < n → s.OthersShow L (first + j) (entryFrame (L.pte mem' (first + j))) := by
  constructor
  · exact fun hall j hj => hall _ (by omega)
  · intro hall p hp
    by_cases hr : InRun first n p
    · obtain ⟨j, rfl⟩ := Nat.exists_eq_add_of_le hr.1
      exact hall j (by have := hr.2; omega)
    · intro B _ _ _
      rw [ht.pte p (by omega) hr]

/-- **A call on user pages** returns, keeps the invariant, and leaves the
other directories alone exactly when it is apart from them. -/
theorem Space.UserInv.user (h : s.UserInv L) {c : SpaceCall} (hu : c.IsUser) (hl : c.Legal L s) :
    ∃ s', c.run L s = some s' ∧ s'.UserInv L ∧ (Isolated L s s' ↔ c.Apart L s) := by
  cases c with
  | kernel c => exact absurd hu id
  | userMap virt phys flags count =>
      obtain ⟨hcr3, hrange⟩ := hl
      have hhi : pageNo virt + count.toNat ≤ 1023 * 1024 := Nat.le_trans hrange (by decide)
      obtain ⟨mem', hr, ht, hpte⟩ := pgMap_wired (h.made _ hcr3) virt phys flags count
        (Nat.zero_le _) hhi
      let t : Space := ⟨⟨s.mm.vmm, s.mm.pmm, ⟨mem', s.mm.mmu.cr3⟩⟩, s.dirs⟩
      refine ⟨t, map_run hr _, ⟨h.inv.touch ht, fun d hd => (h.made d hd).other ht⟩, ?_⟩
      have hmem : Touched L s.mm.mmu.cr3 _ s.mm.mmu.mem t.mm.mmu.mem := ht
      rw [h.isolated_iff hmem, Space.OthersShow.run_iff hrange ht]
      refine forall₂_congr fun j hj => ?_
      rw [(hpte j hj).2, entryFrame_newPte]
  | userUnmap virt count =>
      obtain ⟨hcr3, hrange⟩ := hl
      have hhi : pageNo virt + count.toNat ≤ 1023 * 1024 := Nat.le_trans hrange (by decide)
      obtain ⟨mem', hr, ht, _, hpte⟩ := pgUnmap_wired (h.made _ hcr3) virt count
        (Nat.zero_le _) hhi
      let t : Space := ⟨⟨s.mm.vmm, s.mm.pmm, ⟨mem', s.mm.mmu.cr3⟩⟩, s.dirs⟩
      refine ⟨t, map_run hr _, ⟨h.inv.touch ht, fun d hd => (h.made d hd).other ht⟩, ?_⟩
      have hmem : Touched L s.mm.mmu.cr3 _ s.mm.mmu.mem t.mm.mmu.mem := ht
      rw [h.isolated_iff hmem, Space.OthersShow.run_iff hrange ht]
      refine forall₂_congr fun j hj => ?_
      rw [hpte j hj]
      -- a page the loaded directory does not show is left as it is
      by_cases h1 : Present (s.mm.mmu.mem s.mm.mmu.cr3 (slotOf (pageNo virt + j)))
      · by_cases h2 : Present (L.pte s.mm.mmu.mem (pageNo virt + j))
        · rw [if_pos ⟨h1, h2⟩, entryFrame_pteNp]
          exact ⟨fun hs _ => hs, fun hs => hs h1⟩
        · rw [if_neg fun hc => h2 hc.2]
          have hnone : entryFrame (L.pte s.mm.mmu.mem (pageNo virt + j)) = none := if_neg h2
          exact ⟨fun _ _ _ _ _ _ => hnone, fun _ _ _ _ _ => rfl⟩
      · rw [if_neg fun hc => h1 hc.1]
        exact ⟨fun _ hc => absurd hc h1, fun _ _ _ _ _ => rfl⟩

/-- A new directory in a clean frame is wired all the way down. -/
theorem Created.wired_clean {m m' : Mm} {f : Frame} (h : Created L m m' f)
    (hd : KernelDir L m.mmu.mem m.mmu.cr3) (hclean : NoStaleEntry m) : Wired L 0 m'.mmu.mem f := by
  have hk := h.kernelDir hd
  refine ⟨hk.wired.self, hk.wired.apart, fun i _ h2 hp => ?_⟩
  rcases Nat.lt_or_ge i.toNat 768 with hi | hi
  · have hno := hclean i hi
    rw [h.handed, frameOf_frameAddr] at hno
    rw [h.user i hi] at hp
    exact absurd hp hno
  · exact hk.wired.tables i hi h2 hp

/-- **The step lemma.** -/
theorem Space.UserInv.step (h : s.UserInv L) {c : SpaceCall} (ha : c.Clean s)
    (hst : SpaceStep L c s s') : s'.UserInv L := by
  obtain ⟨hl, hr⟩ := hst
  cases c with
  | kernel c =>
      obtain ⟨t, hr', hinv, hmoved⟩ := h.inv.keeps hl
      have hst : c.run L s = some s' := hr
      rw [hst] at hr'
      cases hr'
      refine ⟨hinv, ?_⟩
      rcases hmoved with ⟨hdirs, ht⟩ | ⟨rfl, f, hdirs, hcr⟩
      · rintro d ⟨hd, hne⟩
        rw [hdirs] at hd
        exact (h.made d ⟨hd, hne⟩).other ht
      · rintro d ⟨hd, hne⟩
        rw [hdirs] at hd
        have hclean := ha (by rw [hcr.handed]; exact hcr.nonzero) hcr.page
        by_cases hdf : d = f
        · subst hdf
          exact hcr.wired_clean h.inv.cr3 hclean
        · exact hcr.wired (h.made d ⟨(List.mem_cons.mp hd).resolve_left hdf, hne⟩) hdf
  | userMap virt phys flags count =>
      obtain ⟨t, hr', hinv, _⟩ := h.user (c := .userMap virt phys flags count) trivial hl
      rw [hr] at hr'
      cases hr'
      exact hinv
  | userUnmap virt count =>
      obtain ⟨t, hr', hinv, _⟩ := h.user (c := .userUnmap virt count) trivial hl
      rw [hr] at hr'
      cases hr'
      exact hinv

/-- At the start no directory has been made. -/
theorem KernelStart.userInv (h : KernelStart L s) : s.UserInv L := by
  obtain ⟨_, _, _, hdirs⟩ := h.booted
  refine ⟨h.inv, ?_⟩
  rintro d ⟨hd, hne⟩
  rw [hdirs] at hd
  exact absurd (List.mem_singleton.mp hd) hne

/-- **The run lemma.** -/
theorem CleanReach.inv (h : CleanReach L s) : s.UserInv L :=
  h.invariant (fun s => s.UserInv L) (fun _ hs => hs.userInv)
    fun _ _ _ hinv hst => hinv.step hst.1 hst.2

/-- **Address-space isolation.**  In every run whose directories are made in
clean frames, a call on user pages returns, and it leaves every user address
as it was under every other directory exactly when its pages are apart. -/
theorem userRun_isolated_iff (h : CleanReach L s) {c : SpaceCall} (hu : c.IsUser)
    (hl : c.Legal L s) : ∃ s', c.run L s = some s' ∧ (Isolated L s s' ↔ c.Apart L s) := by
  obtain ⟨s', hr, _, hiff⟩ := h.inv.user hu hl
  exact ⟨s', hr, hiff⟩

/-! ## Two directories that use one slot -/

/-- A run goes on. -/
theorem CleanReach.call (h : CleanReach L s) (c : SpaceCall) (ha : c.Clean s) (hl : c.Legal L s)
    (hr : c.run L s = some s') : CleanReach L s' :=
  Reach.next h ⟨ha, hl, hr⟩

theorem not_present_zero : ¬ Present 0 := by decide

/-- Two directories made one after the other, in clean frames. -/
theorem smallSpace_two : ∃ s A B, CleanReach smallLayout s ∧ s.Made smallLayout A ∧
    s.Made smallLayout B ∧ A ≠ B := by
  obtain ⟨s0, hs⟩ := smallImage_start
  obtain ⟨_, _, hcr3, _⟩ := hs.start.booted
  have hfree := hs.frames
  have hinv0 := hs.start.inv
  obtain ⟨A, m1, hcA, hrA⟩ := hinv0.creates hs.consistent.pmm hs.page (by omega)
  -- the second frame: one is left, and it is none of those in use
  have hinv1 := hinv0.created hcA
  obtain ⟨lr, hv1⟩ := hcA.vmm
  have hleft := hcA.took.free_left hs.consistent.pmm
  have hpage : m1.vmm.Reservable 1 := by
    rw [hv1]
    exact hs.page
  rw [List.length_singleton] at hleft
  have hleft1 : 0 < m1.pmm.freePages.toNat := by omega
  obtain ⟨B, m2, hcB, hrB⟩ := hinv1.creates (hcA.took.consistent hs.consistent.pmm) hpage hleft1
  have hne : A ≠ B := by
    rintro rfl
    exact hcB.took.ne_of_holds (List.mem_singleton.mpr rfl) (hinv1.dirs A List.mem_cons_self).2 rfl
  have hA : A ≠ smallLayout.pgPd := hcr3 ▸ hcA.apart.1
  have hcr31 : m1.mmu.cr3 = smallLayout.pgPd := hcA.cr3.trans hcr3
  have hB : B ≠ smallLayout.pgPd := hcr31 ▸ hcB.apart.1
  have hzero : ∀ i, m1.mmu.mem B i = 0 := fun i => by
    rw [hcA.other B hne.symm (hcr3 ▸ hB) hcB.apart.2 i]
    exact hs.clean B hB hcB.apart.2 i
  have hcleanA : NoStaleEntry s0.mm := by
    intro i _
    rw [hcA.handed, frameOf_frameAddr, hs.clean A hA hcA.apart.2 i]
    exact not_present_zero
  have hcleanB : NoStaleEntry m1 := by
    intro i _
    rw [hcB.handed, frameOf_frameAddr, hzero i]
    exact not_present_zero
  have hreach0 : CleanReach smallLayout s0 := .start hs.start
  have hreach1 := hreach0.call (.kernel .createPd) (fun _ _ => hcleanA) trivial hrA
  have hreach2 := hreach1.call (.kernel .createPd) (fun _ _ => hcleanB) trivial hrB
  exact ⟨_, A, B, hreach2, ⟨List.mem_cons_of_mem B List.mem_cons_self, hA⟩,
    ⟨List.mem_cons_self, hB⟩, hne⟩

/-- Page 0 is mapped under the first one; now the second one is loaded, and
page 0 is to be mapped there to another frame. -/
theorem smallSpace_shared : ∃ s, CleanReach smallLayout s ∧
    SpaceCall.Legal smallLayout s (.userMap 0 0x1000 pteRw 1) ∧
    ¬ SpaceCall.Apart smallLayout s (.userMap 0 0x1000 pteRw 1) := by
  obtain ⟨s, A, B, hreach, hA, hB, hne⟩ := smallSpace_two
  let s3 : Space := ⟨⟨s.mm.vmm, s.mm.pmm, ⟨s.mm.mmu.mem, A⟩⟩, s.dirs⟩
  have hreach3 : CleanReach smallLayout s3 :=
    hreach.call (.kernel (.loadCr3 A)) trivial hA.1 rfl
  have hrange : UserRange 0 1 := by
    rw [UserRange]
    decide
  -- the first directory maps page 0
  have hw := hreach3.inv.made A hA
  obtain ⟨mem', hr, ht, hpte⟩ := pgMap_wired (m := s3.mm.mmu) hw 0 0 pteRw 1
    (by decide) (by decide)
  obtain ⟨hpde, hnew⟩ := hpte 0 (by decide)
  let s4 : Space := ⟨⟨s.mm.vmm, s.mm.pmm, ⟨mem', A⟩⟩, s.dirs⟩
  have hreach4 : CleanReach smallLayout s4 :=
    hreach3.call (.userMap 0 0 pteRw 1) trivial ⟨hA, hrange⟩ (map_run hr _)
  let s5 : Space := ⟨⟨s.mm.vmm, s.mm.pmm, ⟨mem', B⟩⟩, s.dirs⟩
  have hreach5 : CleanReach smallLayout s5 :=
    hreach4.call (.kernel (.loadCr3 B)) trivial hB.1 rfl
  refine ⟨s5, hreach5, ⟨hB, hrange⟩, fun hc => ?_⟩
  have hshow := hc 0 (by decide) A hA hne hpde
  rw [show s5.mm.mmu.mem = mem' from rfl, hnew, entryFrame_newPte] at hshow
  exact absurd hshow (by decide)

/-- The second mapping changes the page under the first directory. -/
theorem userMap_shared_table : ¬ AddressSpacesIsolated := by
  intro hall
  obtain ⟨s, hreach, hl, hno⟩ := smallSpace_shared
  have hu : SpaceCall.IsUser (.userMap 0 0x1000 pteRw 1) := trivial
  obtain ⟨s', hr, _, hiff⟩ := hreach.inv.user hu hl
  exact hno (hiff.mp (hall smallLayout s s' _ hreach.of_guarded hu ⟨hl, hr⟩))

theorem userRun_isolated_shared : ∃ s s', CleanReach smallLayout s ∧
    SpaceCall.run smallLayout s (.userMap 0 0x1000 pteRw 1) = some s' ∧
    ¬ Isolated smallLayout s s' := by
  obtain ⟨s, hreach, hl, hno⟩ := smallSpace_shared
  have hu : SpaceCall.IsUser (.userMap 0 0x1000 pteRw 1) := trivial
  obtain ⟨s', hr, hiff⟩ := userRun_isolated_iff hreach hu hl
  exact ⟨s, s', hreach, hr, fun hiso => hno (hiff.mp hiso)⟩

end Tomk
