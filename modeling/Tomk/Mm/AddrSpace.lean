/-
# `paging.c`: making a page directory

`pgd_create_pd` takes a frame, maps it at a temporary page, copies the
kernel entries of the loaded directory into it, closes the recursive entry
and unmaps the page again.  It writes 256 of the frame's 1024 words; the
other 768, the user entries, keep what the frame held before.

`pgdCreatePd_cases` says what it leaves.  From it follows when the new
directory is what it should be: exactly when the frame had no present word
among its user entries (`pgdCreatePd_fresh_iff`), whoever used it before.
-/
import Tomk.Mm.Mminit

namespace Tomk

open WordBits CFor

/-- One turn of the copy loop. -/
def copyTurn (pdVirt : U32) (i : Nat) (m : Mmu) : Option Mmu := do
  let pde ← m.load (Tomk.pdVirt + BitVec.ofNat 32 i * 4)
  m.store (pdVirt + BitVec.ofNat 32 i * 4) pde

def pgdCreatePd (L : Layout) (m : Mm) : Option (U32 × Mm) := do
  let (pdPhys, pmm) := pmmAlloc m.pmm 1
  let m := { m with pmm := pmm }
  if pdPhys = 0 then pure (0, m)
  else
    let (pdVirt, m) ← mmap L m pdPhys 0x1000 pteRw
    if pdVirt = 0 then pure (0, { m with pmm := pmmFree m.pmm pdPhys 1 })
    else
      let first := (kvirt >>> 22).toNat
      let mmu ← forFrom (copyTurn pdVirt) first ((kvirtEnd >>> 22).toNat - first) m.mmu
      let mmu ← mmu.store (pdVirt + 1023 * 4) (pdPhys ||| (pteRw ||| pteP))
      let m ← munmap { m with mmu := mmu } pdVirt 0x1000
      pure (pdPhys, m)

variable {L : Layout} {m : Mm}

/-! ## `mmap` and `munmap` -/

/-- **`mmap`**: nothing is reserved, or a range is, and mapped. -/
theorem mmap_cases (hv : m.vmm.Shape) (hw : Wired L (pdIndex m.vmm.base).toNat m.mmu.mem m.mmu.cr3)
    (phys length flags : U32) :
    (¬ m.vmm.Reservable (lengthPages length) ∧ ∃ lr, mmap L m phys length flags
      = some (0, { m with vmm := { m.vmm with largestRun := lr } })) ∨
    (m.vmm.Reservable (lengthPages length) ∧ ∃ p lr mem',
      FirstRun m.vmm.bitmap m.vmm.totalPages.toNat (lengthPages length).toNat p ∧
      m.vmm.addr p ≠ 0 ∧
      mmap L m phys length flags = some (m.vmm.addr p,
        ⟨m.vmm.reserved p (lengthPages length) lr, m.pmm, ⟨mem', m.mmu.cr3⟩⟩) ∧
      Touched L m.mmu.cr3 (InRun (m.vmm.first p) (lengthPages length).toNat) m.mmu.mem mem' ∧
      (∀ j, j < (lengthPages length).toNat →
        Present (mem' m.mmu.cr3 (slotOf (m.vmm.first p + j))) ∧
          L.pte mem' (m.vmm.first p + j) = newPte (pageAt phys j) flags) ∧
      (m.vmm.base = kvirt → ∀ i : Slot, i.toNat < 768 → mem' m.mmu.cr3 i = m.mmu.mem m.mmu.cr3 i)) := by
  rcases vmmReserve_cases hv (lengthPages length) with ⟨hno, lr, hr⟩ | ⟨hres, p, lr, hf, h0, hr⟩
  · refine Or.inl ⟨hno, lr, ?_⟩
    simp only [mmap, hr, if_true, Option.pure_def]
  · have hpos := toNat_pos_of_ne hres.1
    have hle := hf.le_total
    obtain ⟨hs1, hs2⟩ := hv.slots
    have hpage : pageNo (m.vmm.addr p) = pageNo m.vmm.base + p := hv.pageNo_addr (by omega)
    obtain ⟨mem', hrun, ht, hpte⟩ := pgMap_wired hw (m.vmm.addr p) phys flags
      (lengthPages length) (by omega) (by omega)
    rw [hpage] at ht hpte
    refine Or.inr ⟨hres, p, lr, mem', hf, h0, ?_, ht, hpte, fun hb i hi => ?_⟩
    · simp only [mmap, hr, if_neg h0, hrun, Option.bind_eq_bind, Option.bind_some, Option.pure_def]
    · have hbase : pageNo m.vmm.base = 768 * 1024 := by
        rw [hb]
        decide
      have hlo : (pdIndex m.vmm.base).toNat ≤ 768 := by
        rw [hb]
        decide
      have hvirt : 768 * 1024 ≤ pageNo (m.vmm.addr p) := by
        rw [hpage, hbase]
        exact Nat.le_add_right _ _
      exact pgMap_user hw hlo hvirt (by omega) hrun hi

/-- **`munmap`** of a range of the window. -/
theorem munmap_eq (hm : m.Ready L) (p : Nat) (length : U32)
    (hp : p + (lengthPages length).toNat ≤ m.vmm.totalPages.toNat) (hpt : p < m.vmm.totalPages.toNat)
    (h0 : m.vmm.addr p ≠ 0) :
    ∃ mem', munmap m (m.vmm.addr p) length = some
        ⟨vmmUnreserve m.vmm (m.vmm.addr p) (lengthPages length), m.pmm, ⟨mem', m.mmu.cr3⟩⟩ ∧
      Touched L m.mmu.cr3 (InRun (m.vmm.first p) (lengthPages length).toNat) m.mmu.mem mem' ∧
      ∀ i, mem' m.mmu.cr3 i = m.mmu.mem m.mmu.cr3 i := by
  obtain ⟨hs1, hs2⟩ := hm.vmm.slots
  have hpage : pageNo (m.vmm.addr p) = pageNo m.vmm.base + p := hm.vmm.pageNo_addr hpt
  obtain ⟨mem', hrun, ht, hdir, _⟩ := pgUnmap_wired hm.wired (m.vmm.addr p)
    (lengthPages length) (by omega) (by omega)
  rw [hpage] at ht
  refine ⟨mem', ?_, ht, hdir⟩
  simp only [munmap, if_neg h0, hrun, Option.bind_eq_bind, Option.bind_some, Option.pure_def]

/-! ## The temporary page -/

/-- The frame is in use, or not a frame of the machine: `pmm_alloc` does not
hand it out. -/
def Pmm.Holds (s : Pmm) (f : Frame) : Prop :=
  f.toNat < s.totalPages.toNat → test s.bitmap f.toNat = true

/-- Words `i` of a page that is mapped to the frame `f`. -/
theorem walk_word {mem : PhysMem} {dir f : Frame} {virt : U32} (hv : virt &&& (pageSize - 1) = 0)
    (hw : walk mem dir virt = some f) {i : Nat} (hi : i < 1024) :
    walk mem dir (virt + BitVec.ofNat 32 i * 4) = some f ∧
      wordIndex (virt + BitVec.ofNat 32 i * 4) = BitVec.ofNat 10 i := by
  have hv' : virt.toNat % 4096 = 0 := by
    rw [← toNat_pageOffset, hv]
    rfl
  have hvlt := virt.isLt
  have h4 : (BitVec.ofNat 32 i * 4 : U32).toNat = i * 4 := by
    have h4 : (4 : U32).toNat = 4 := rfl
    rw [BitVec.toNat_mul, BitVec.toNat_ofNat, h4]
    omega
  have hsum : (virt + BitVec.ofNat 32 i * 4).toNat = virt.toNat + i * 4 := by
    rw [BitVec.toNat_add, h4]
    omega
  obtain ⟨h1, h2⟩ := page_eq_iff.mpr
    (show (virt + BitVec.ofNat 32 i * 4).toNat / 4096 = virt.toNat / 4096 by omega)
  refine ⟨?_, ?_⟩
  · rw [← hw, walk, walk, h1, h2]
  · apply BitVec.eq_of_toNat_eq
    rw [toNat_wordIndex', hsum, BitVec.toNat_ofNat]
    omega

/-- The window on the directory itself. -/
theorem walk_dir {mem : PhysMem} {dir : Frame} (h : SelfMapped mem dir) :
    walk mem dir pdVirt = some dir := by
  have h1 : pdIndex pdVirt = 1023#10 := by decide
  have h2 : ptIndex pdVirt = 1023#10 := by decide
  simp only [walk, h1, h2, if_pos h.present, h.frame]

/-- Writing another frame keeps a directory wired. -/
theorem Wired.congr {lo : Nat} {mem mem' : PhysMem} {dir : Frame} (h : Wired L lo mem dir)
    (hsame : ∀ i, mem' dir i = mem dir i) : Wired L lo mem' dir :=
  ⟨⟨(hsame _).symm ▸ h.self.present, (hsame _).symm ▸ h.self.frame⟩, h.apart, fun i h1 h2 hp => by
    rw [hsame] at hp ⊢
    exact h.tables i h1 h2 hp⟩

/-- The memory after the copy: the kernel entries and the recursive entry of
`f` are written, and nothing else. -/
structure Cloned (mem mem' : PhysMem) (dir f : Frame) : Prop where
  other : ∀ g i, g ≠ f → mem' g i = mem g i
  kernel : ∀ i : Slot, 768 ≤ i.toNat → i.toNat < 1023 → mem' f i = mem dir i
  self : mem' f 1023#10 = frameAddr f ||| (pteRw ||| pteP)
  user : ∀ i : Slot, i.toNat < 768 → mem' f i = mem f i

/-- The copy loop, through the temporary page `virt` of the frame `f`. -/
theorem copyLoop {u : Mmu} {f : Frame} {virt : U32} (hself : SelfMapped u.mem u.cr3)
    (hv : virt &&& (pageSize - 1) = 0) (hw : walk u.mem u.cr3 virt = some f) (hf : f ≠ u.cr3)
    (htab : f ≠ frameOf (u.mem u.cr3 (pdIndex virt))) :
    ∃ mem', (do
        let t ← forFrom (copyTurn virt) 768 255 u
        t.store (virt + 1023 * 4) (frameAddr f ||| (pteRw ||| pteP))) = some ⟨mem', u.cr3⟩ ∧
      Cloned u.mem mem' u.cr3 f := by
  -- writing `f` does not move the page, and does not touch the directory
  have hkeep : ∀ t : PhysMem, (∀ g i, g ≠ f → t g i = u.mem g i) →
      SelfMapped t u.cr3 ∧ walk t u.cr3 virt = some f := by
    intro t ht
    refine ⟨⟨?_, ?_⟩, ?_⟩
    · rw [ht _ _ hf.symm]
      exact hself.present
    · rw [ht _ _ hf.symm]
      exact hself.frame
    · rw [← hw, walk, walk, ht _ _ hf.symm, ht _ _ htab.symm]
  have hloop := forFrom_some (a := 768) (n := 255) (s := u) (f := copyTurn virt)
    (fun k t => ∃ mem', t = ⟨mem', u.cr3⟩ ∧ (∀ g i, g ≠ f → mem' g i = u.mem g i) ∧
      ∀ i : Slot, mem' f i = if 768 ≤ i.toNat ∧ i.toNat < k then u.mem u.cr3 i else u.mem f i)
    ⟨u.mem, rfl, fun _ _ _ => rfl, fun i => (if_neg (by omega)).symm⟩
    (by
      rintro k t hk1 hk2 ⟨mem', rfl, hother, hfr⟩
      obtain ⟨hs, hwk⟩ := hkeep mem' hother
      have hk : k < 1024 := by omega
      obtain ⟨hl1, hl2⟩ := walk_word (by decide) (walk_dir hs) hk
      obtain ⟨hst1, hst2⟩ := walk_word hv hwk hk
      have hload : Mmu.load ⟨mem', u.cr3⟩ (pdVirt + BitVec.ofNat 32 k * 4)
          = some (u.mem u.cr3 (BitVec.ofNat 10 k)) := by
        rw [Mmu.load, hl1, hl2, Option.map_some]
        exact congrArg some (hother _ _ hf.symm)
      refine ⟨⟨mem'.write f (BitVec.ofNat 10 k) (u.mem u.cr3 (BitVec.ofNat 10 k)), u.cr3⟩, ?_,
        _, rfl, fun g i hg => ?_, fun i => ?_⟩
      · simp only [copyTurn, hload, Option.bind_eq_bind, Option.bind_some, Mmu.store, hst1, hst2,
          Option.map_some]
      · rw [PhysMem.write_frame _ _ _ hg, hother g i hg]
      · by_cases hi : i = BitVec.ofNat 10 k
        · subst hi
          have hkn : (BitVec.ofNat 10 k).toNat = k := by
            rw [BitVec.toNat_ofNat]
            omega
          rw [PhysMem.write_same, if_pos (by omega)]
        · have hne : i.toNat ≠ k := by
            rintro rfl
            exact hi (BitVec.ofNat_toNat 10 i).symm
          rw [PhysMem.write_other fun hc => hi hc.2, hfr i]
          have : (768 ≤ i.toNat ∧ i.toNat < k) ↔ (768 ≤ i.toNat ∧ i.toNat < k + 1) := by omega
          rw [if_congr this rfl rfl])
  obtain ⟨_, hrun, mem', rfl, hother, hfr⟩ := hloop
  obtain ⟨_, hwk⟩ := hkeep mem' hother
  obtain ⟨hst1, hst2⟩ := walk_word hv hwk (show 1023 < 1024 by decide)
  refine ⟨mem'.write f 1023#10 (frameAddr f ||| (pteRw ||| pteP)), ?_, ?_⟩
  · have hlast : virt + 1023 * 4 = virt + BitVec.ofNat 32 1023 * 4 := rfl
    simp only [hrun, Option.bind_eq_bind, Option.bind_some, Mmu.store, hlast, hst1, hst2,
      Option.map_some]
  · have hlast : ∀ i : Slot, i.toNat < 1023 → ¬ (f = f ∧ i = 1023#10) := by
      rintro i hi ⟨_, rfl⟩
      exact absurd hi (by decide)
    refine ⟨fun g i hg => ?_, fun i h1 h2 => ?_, PhysMem.write_same _ _ _ _, fun i hi => ?_⟩
    · rw [PhysMem.write_frame _ _ _ hg, hother g i hg]
    · rw [PhysMem.write_other (hlast i h2), hfr i, if_pos (by omega)]
    · rw [PhysMem.write_other (hlast i (by omega)), hfr i, if_neg (by omega)]

/-! ## `pgd_create_pd` -/

/-- `m'` is `m` with a new directory in the frame `f`. -/
structure Created (L : Layout) (m m' : Mm) (f : Frame) : Prop where
  handed : (pmmAlloc m.pmm 1).1 = frameAddr f
  nonzero : frameAddr f ≠ 0
  page : m.vmm.Reservable 1
  vmm : ∃ lr, m'.vmm = { m.vmm with largestRun := lr }
  took : m.pmm.Took [f.toNat] m'.pmm
  cr3 : m'.mmu.cr3 = m.mmu.cr3
  apart : f ≠ m.mmu.cr3 ∧ ∀ i, f ≠ L.ptFrame i
  kernel : ∀ i : Slot, 768 ≤ i.toNat → i.toNat < 1023 → m'.mmu.mem f i = m'.mmu.mem m.mmu.cr3 i
  self : m'.mmu.mem f 1023#10 = frameAddr f ||| (pteRw ||| pteP)
  user : ∀ i : Slot, i.toNat < 768 → m'.mmu.mem f i = m.mmu.mem f i
  /-- The loaded directory changes as a mapping changes it. -/
  pde : ∀ i, Present (m.mmu.mem m.mmu.cr3 i) → m'.mmu.mem m.mmu.cr3 i = m.mmu.mem m.mmu.cr3 i
  built : ∀ i, m'.mmu.mem m.mmu.cr3 i = m.mmu.mem m.mmu.cr3 i ∨
    frameOf (m'.mmu.mem m.mmu.cr3 i) = L.ptFrame i
  /-- Other directories do not change. -/
  other : ∀ d, d ≠ f → d ≠ m.mmu.cr3 → (∀ i, d ≠ L.ptFrame i) →
    ∀ i, m'.mmu.mem d i = m.mmu.mem d i

theorem Pmm.Took.ready {F : List Nat} {s : Pmm} (hm : m.Ready L) (h : m.pmm.Took F s) :
    Mm.Ready L { m with pmm := s } where
  vmm := hm.vmm
  pmm := h.shape hm.pmm
  zero := fun h0 => by
    rw [h.bits 0, hm.zero (by rw [← h.total]; exact h0), Bool.or_true]
  wired := hm.wired

/-- A frame that is held is not among the frames that are taken. -/
theorem Pmm.Took.ne_of_holds {F : List Nat} {s t : Pmm} (h : s.Took F t) {f : Nat} (hf : f ∈ F)
    {g : Frame} (hg : s.Holds g) : f ≠ g.toNat := by
  rintro rfl
  obtain ⟨hc, _⟩ := h.clear _ hf
  have h1 := hg hc.lt_total
  rw [hc.clear] at h1
  exact Bool.noConfusion h1

/-- The frame that a new directory gets. -/
theorem Mm.Ready.handed (hm : m.Ready L) (hphys : (pmmAlloc m.pmm 1).1 ≠ 0) :
    ∃ f : Frame, (pmmAlloc m.pmm 1).1 = frameAddr f ∧
      m.pmm.Took [f.toNat] (pmmAlloc m.pmm 1).2 := by
  obtain ⟨k, hk, htook⟩ := (Pmm.Took.refl m.pmm).alloc hm.pmm hphys
  rw [List.nil_append] at htook
  have hk1 := (htook.clear k (List.mem_singleton.mpr rfl)).1.lt_total
  have htl := hm.pmm.total_lt
  have hfk : (BitVec.ofNat 20 k).toNat = k := by
    rw [BitVec.toNat_ofNat]
    omega
  refine ⟨BitVec.ofNat 20 k, ?_, ?_⟩
  · rw [hk]
    apply BitVec.eq_of_toNat_eq
    rw [toNat_frameAddr, toNat_toAddr, BitVec.toNat_ofNat, hfk]
    omega
  · rw [hfk]
    exact htook

/-- The temporary page is mapped to the frame, and the copy goes through it. -/
theorem Mm.Ready.clone (hm : m.Ready L) {f : Frame} (hf : f ≠ m.mmu.cr3)
    (htab : ∀ i, f ≠ L.ptFrame i) {p : Nat} (hp : p < m.vmm.totalPages.toNat) {mem1 : PhysMem}
    {P : Nat → Prop} (ht : Touched L m.mmu.cr3 P m.mmu.mem mem1)
    (hpde : Present (mem1 m.mmu.cr3 (slotOf (m.vmm.first p))))
    (hpte : L.pte mem1 (m.vmm.first p) = newPte (frameAddr f) pteRw) :
    ∃ mem2, (do
        let t ← forFrom (copyTurn (m.vmm.addr p)) 768 255 ⟨mem1, m.mmu.cr3⟩
        t.store (m.vmm.addr p + 1023 * 4) (frameAddr f ||| (pteRw ||| pteP)))
          = some ⟨mem2, m.mmu.cr3⟩ ∧
      Cloned mem1 mem2 m.mmu.cr3 f ∧ Wired L (pdIndex m.vmm.base).toNat mem2 m.mmu.cr3 := by
  have hw : Wired L (pdIndex m.vmm.base).toNat mem1 m.mmu.cr3 := hm.wired.touched ht
  have hslots := hm.vmm.inSlots hp
  have hpage : pageNo (m.vmm.addr p) = m.vmm.first p := hm.vmm.pageNo_addr hp
  have hpde' : Present (mem1 m.mmu.cr3 (pdIndex (m.vmm.addr p))) := by
    rw [← slotOf_pageNo, hpage]
    exact hpde
  have hwalk : walk mem1 m.mmu.cr3 (m.vmm.addr p) = some f := by
    rw [walk_wired hw hslots, hpage, hpte, if_pos ⟨hpde', present_newPte _ _⟩, frameOf_newPte,
      frameOf_frameAddr]
  have htable : f ≠ frameOf (mem1 m.mmu.cr3 (pdIndex (m.vmm.addr p))) := by
    rw [hw.frameOf_pde hslots hpde']
    exact htab _
  obtain ⟨mem2, hcopy, hcl⟩ := copyLoop (u := ⟨mem1, m.mmu.cr3⟩) hw.self (hm.vmm.addr_offset hp)
    hwalk hf htable
  exact ⟨mem2, hcopy, hcl, hw.congr fun i => hcl.other _ i hf.symm⟩

/-- The memory is `mem` with a directory in the frame `f`: the loaded directory
changes as a mapping changes it, and the other ones do not. -/
structure Filled (L : Layout) (mem mem' : PhysMem) (dir f : Frame) : Prop where
  kernel : ∀ i : Slot, 768 ≤ i.toNat → i.toNat < 1023 → mem' f i = mem' dir i
  self : mem' f 1023#10 = frameAddr f ||| (pteRw ||| pteP)
  user : ∀ i : Slot, i.toNat < 768 → mem' f i = mem f i
  pde : ∀ i, Present (mem dir i) → mem' dir i = mem dir i
  built : ∀ i, mem' dir i = mem dir i ∨ frameOf (mem' dir i) = L.ptFrame i
  other : ∀ d, d ≠ f → d ≠ dir → (∀ i, d ≠ L.ptFrame i) → ∀ i, mem' d i = mem d i

/-- The page is mapped, the copy is made, and the page is unmapped. -/
theorem Cloned.filled {mem mem1 mem2 mem3 : PhysMem} {dir f : Frame} {P Q : Nat → Prop}
    (hcl : Cloned mem1 mem2 dir f) (h1 : Touched L dir P mem mem1)
    (h3 : Touched L dir Q mem2 mem3) (hdir : ∀ i, mem3 dir i = mem2 dir i) (hf : f ≠ dir)
    (htab : ∀ i, f ≠ L.ptFrame i) : Filled L mem mem3 dir f where
  kernel := fun i hi1 hi2 => by
    rw [h3.other f i hf htab, hdir, hcl.kernel i hi1 hi2, hcl.other _ i hf.symm]
  self := (h3.other f _ hf htab).trans hcl.self
  user := fun i hi => by
    rw [h3.other f i hf htab, hcl.user i hi, h1.other f i hf htab]
  pde := fun i hi => by
    rw [hdir, hcl.other _ i hf.symm, h1.pde i hi]
  built := fun i => by
    rw [hdir, hcl.other _ i hf.symm]
    exact h1.built i
  other := fun d hd1 hd2 hd3 i => by
    rw [h3.other d i hd2 hd3, hcl.other d i hd1, h1.other d i hd2 hd3]

/-- What `pgd_create_pd` does, with what it does not: in the kernel's window it
writes no user entry of the loaded directory. -/
theorem pgdCreatePd_user_cases (hm : m.Ready L) (hcr3 : m.pmm.Holds m.mmu.cr3)
    (htab : ∀ i, m.pmm.Holds (L.ptFrame i)) :
    (((pmmAlloc m.pmm 1).1 = 0 ∨ ¬ m.vmm.Reservable 1) ∧ ∃ lr s, m.pmm.Took [] s ∧
      pgdCreatePd L m = some (0, ⟨{ m.vmm with largestRun := lr }, s, m.mmu⟩)) ∨
    (∃ f m', pgdCreatePd L m = some (frameAddr f, m') ∧ Created L m m' f ∧
      (m.vmm.base = kvirt → ∀ i : Slot, i.toNat < 768 →
        m'.mmu.mem m.mmu.cr3 i = m.mmu.mem m.mmu.cr3 i)) := by
  by_cases hphys : (pmmAlloc m.pmm 1).1 = 0
  · refine Or.inl ⟨Or.inl hphys, m.vmm.largestRun, _,
      (Pmm.Took.refl m.pmm).alloc_zero hm.pmm hm.zero hphys, ?_⟩
    simp only [pgdCreatePd, if_pos hphys, Option.pure_def]
  obtain ⟨f, hk, htook⟩ := hm.handed hphys
  rw [hk] at hphys
  -- the frame is neither the loaded directory nor a static table
  have hf : f ≠ m.mmu.cr3 := fun h =>
    htook.ne_of_holds (List.mem_singleton.mpr rfl) hcr3 (by rw [h])
  have hft : ∀ i, f ≠ L.ptFrame i := fun i h =>
    htook.ne_of_holds (List.mem_singleton.mpr rfl) (htab i) (by rw [h])
  have hm1 := htook.ready hm
  have hone : lengthPages 0x1000 = 1 := by decide
  have hone' : (lengthPages 0x1000).toNat = 1 := by decide
  rcases mmap_cases hm1.vmm hm1.wired (frameAddr f) 0x1000 pteRw with ⟨hno, lr, hmap⟩ |
    ⟨hres, p, lr, mem1, hfirst, h0, hmap, ht1, hpte1, huser1⟩
  · -- no page: the frame is given back
    refine Or.inl ⟨Or.inr (hone ▸ hno), lr, pmmFree (pmmAlloc m.pmm 1).2 (frameAddr f) 1, ?_, ?_⟩
    · have hfree := htook.free hm.pmm
      rwa [show toAddr (BitVec.ofNat 32 f.toNat) = frameAddr f from ?_] at hfree
      apply BitVec.eq_of_toNat_eq
      rw [toNat_frameAddr, toNat_toAddr, BitVec.toNat_ofNat]
      omega
    · simp only [pgdCreatePd, hk, if_neg hphys, hmap, Option.bind_eq_bind, Option.bind_some, if_true,
        Option.pure_def]
  · rw [hone'] at hfirst ht1 hpte1
    obtain ⟨hpde1, hent1⟩ := hpte1 0 Nat.one_pos
    rw [Nat.add_zero] at hpde1 hent1
    rw [pageAt_zero] at hent1
    have hle : p + 1 ≤ m.vmm.totalPages.toNat := hfirst.le_total
    have hlt : p < m.vmm.totalPages.toNat := by omega
    obtain ⟨mem2, hcopy, hcl, hw2⟩ := hm.clone hf hft hlt ht1 hpde1 hent1
    let m2 : Mm := ⟨m.vmm.reserved p (lengthPages 0x1000) lr, (pmmAlloc m.pmm 1).2,
      ⟨mem2, m.mmu.cr3⟩⟩
    have hm2 : m2.Ready L := ⟨hm.vmm.reserved p _ lr, hm1.pmm, hm1.zero, hw2⟩
    obtain ⟨mem3, hun, ht3, hdir3⟩ := munmap_eq hm2 p 0x1000 (by rw [hone']; exact hle) hlt h0
    have hback : vmmUnreserve m2.vmm (m.vmm.addr p) (lengthPages 0x1000)
        = { m.vmm with largestRun := lr } :=
      vmmUnreserve_reserved hm.vmm hres.1 (by rw [hone']; exact hfirst) h0
    have hun' : munmap m2 (m.vmm.addr p) 0x1000 = some ⟨{ m.vmm with largestRun := lr },
        (pmmAlloc m.pmm 1).2, ⟨mem3, m.mmu.cr3⟩⟩ := by
      rw [← hback]
      exact hun
    have hfill : Filled L m.mmu.mem mem3 m.mmu.cr3 f := hcl.filled ht1 ht3 hdir3 hf hft
    refine Or.inr ⟨f, ⟨{ m.vmm with largestRun := lr }, (pmmAlloc m.pmm 1).2,
      ⟨mem3, m.mmu.cr3⟩⟩, ?_, ⟨hk, hphys, hone ▸ hres, ⟨lr, rfl⟩, htook, rfl, ⟨hf, hft⟩,
      hfill.kernel, hfill.self, hfill.user, hfill.pde, hfill.built, hfill.other⟩, fun hb i hi => ?_⟩
    case refine_2 => exact ((hdir3 i).trans (hcl.other _ i hf.symm)).trans (huser1 hb i hi)
    have h768 : (kvirt >>> 22).toNat = 768 := by decide
    have h1023 : (kvirtEnd >>> 22).toNat - 768 = 255 := by decide
    obtain ⟨t, hloop, hstore⟩ := Option.bind_eq_some_iff.mp hcopy
    simp only [pgdCreatePd, hk, if_neg hphys, hmap, Option.bind_eq_bind, Option.bind_some,
      if_neg h0, h768, h1023, hloop, hstore, Option.pure_def]
    rw [show munmap _ _ _ = some _ from hun', Option.bind_some]

/-- **What `pgd_create_pd` does**: it returns 0 and changes at most the
statistics and the hint, or it makes a directory in a frame that was free. -/
theorem pgdCreatePd_cases (hm : m.Ready L) (hcr3 : m.pmm.Holds m.mmu.cr3)
    (htab : ∀ i, m.pmm.Holds (L.ptFrame i)) :
    (((pmmAlloc m.pmm 1).1 = 0 ∨ ¬ m.vmm.Reservable 1) ∧ ∃ lr s, m.pmm.Took [] s ∧
      pgdCreatePd L m = some (0, ⟨{ m.vmm with largestRun := lr }, s, m.mmu⟩)) ∨
    (∃ f m', pgdCreatePd L m = some (frameAddr f, m') ∧ Created L m m' f) := by
  rcases pgdCreatePd_user_cases hm hcr3 htab with hno | ⟨f, m', hr, hc, _⟩
  · exact Or.inl hno
  · exact Or.inr ⟨f, m', hr, hc⟩

/-! ## The new directory -/

variable {m' : Mm} {f : Frame}

/-- A directory that copies the kernel entries of another translates the
kernel's addresses as that one does. -/
theorem walk_congr {mem : PhysMem} {d e : Frame} {va : U32}
    (h : mem d (pdIndex va) = mem e (pdIndex va)) : walk mem d va = walk mem e va := by
  simp only [walk, h]

theorem kernelAddr_slot {va : U32} (h1 : kvirt ≤ va) (h2 : va < kvirtEnd) :
    768 ≤ (pdIndex va).toNat ∧ (pdIndex va).toNat < 1023 := by
  have h3 : kvirt.toNat = 0xC0000000 := rfl
  have h4 : kvirtEnd.toNat = 0xFFC00000 := rfl
  rw [BitVec.le_def, h3] at h1
  rw [BitVec.lt_def, h4] at h2
  rw [toNat_pdIndex]
  omega

/-- What a new directory is to be, next to the loaded one. -/
structure FreshDir (m : Mm) (f : Frame) : Prop where
  kernel : ∀ va, kvirt ≤ va → va < kvirtEnd →
    walk m.mmu.mem f va = walk m.mmu.mem m.mmu.cr3 va
  self : SelfMapped m.mmu.mem f
  user : ∀ i : Slot, i.toNat < 768 → ¬ Present (m.mmu.mem f i)

/-- `pgd_create_pd` returns, and a frame it returns is a fresh directory. -/
def CreatesFreshDir (L : Layout) (m : Mm) : Prop :=
  ∃ r m', pgdCreatePd L m = some (r, m') ∧ (r ≠ 0 → FreshDir m' (frameOf r))

/-- The property as it is asked: whatever the frame held before. -/
def PgdCreatePdFresh : Prop :=
  ∀ (L : Layout) (m : Mm), m.Ready L → m.pmm.Holds m.mmu.cr3 →
    (∀ i, m.pmm.Holds (L.ptFrame i)) → CreatesFreshDir L m

/-- The frame `pmm_alloc(1)` hands out has no present word where a directory
has its user entries. -/
def NoStaleEntry (m : Mm) : Prop :=
  ∀ i : Slot, i.toNat < 768 → ¬ Present (m.mmu.mem (frameOf (pmmAlloc m.pmm 1).1) i)

theorem Created.self_mapped (h : Created L m m' f) : SelfMapped m'.mmu.mem f := by
  constructor
  · rw [h.self, present_iff, BitVec.getLsbD_or, show (pteRw ||| pteP).getLsbD 0 = true from rfl,
      Bool.or_true]
  · rw [h.self, frameOf_or_low (by decide), frameOf_frameAddr]

theorem Created.kernel_walk (h : Created L m m' f) {va : U32} (h1 : kvirt ≤ va)
    (h2 : va < kvirtEnd) : walk m'.mmu.mem f va = walk m'.mmu.mem m'.mmu.cr3 va := by
  obtain ⟨h3, h4⟩ := kernelAddr_slot h1 h2
  rw [h.cr3]
  exact walk_congr (h.kernel _ h3 h4)

/-- **A new directory is fresh exactly when its frame was clean.**  The
kernel's addresses and the recursive entry are always right; the user entries
are those the frame held before. -/
theorem pgdCreatePd_fresh_iff (hm : m.Ready L) (hcr3 : m.pmm.Holds m.mmu.cr3)
    (htab : ∀ i, m.pmm.Holds (L.ptFrame i)) :
    CreatesFreshDir L m ↔
      ((pmmAlloc m.pmm 1).1 ≠ 0 → m.vmm.Reservable 1 → NoStaleEntry m) := by
  rcases pgdCreatePd_cases hm hcr3 htab with ⟨hno, lr, s, _, hr⟩ | ⟨f, m', hr, hc⟩
  · constructor
    · intro _ h1 h2
      rcases hno with h | h
      · exact absurd h h1
      · exact absurd h2 h
    · exact fun _ => ⟨0, _, hr, fun h => absurd rfl h⟩
  · constructor
    · rintro ⟨r, m'', hr', hfresh⟩ _ _ i hi
      rw [hr] at hr'
      cases hr'
      have huser := (hfresh hc.nonzero).user i hi
      rw [frameOf_frameAddr, hc.user i hi] at huser
      rw [hc.handed, frameOf_frameAddr]
      exact huser
    · intro hclean
      refine ⟨frameAddr f, m', hr, fun _ => ?_⟩
      rw [frameOf_frameAddr]
      refine ⟨fun va h1 h2 => hc.kernel_walk h1 h2, hc.self_mapped, fun i hi => ?_⟩
      have := hclean (by rw [hc.handed]; exact hc.nonzero) hc.page i hi
      rw [hc.handed, frameOf_frameAddr] at this
      rwa [hc.user i hi]

/-! ## A frame with a stale entry -/

/-- The small machine, with a present word at the start of frame 1. -/
def staleMm : Mm :=
  { smallMm with mmu := ⟨smallMm.mmu.mem.write 1 0 pteP, smallMm.mmu.cr3⟩ }

/-- What another frame holds does not matter. -/
theorem Mm.Ready.write (hm : m.Ready L) {f : Frame} (hf : m.mmu.cr3 ≠ f) (i : Slot) (w : U32) :
    Mm.Ready L { m with mmu := ⟨m.mmu.mem.write f i w, m.mmu.cr3⟩ } :=
  ⟨hm.vmm, hm.pmm, hm.zero, hm.wired.congr fun _ => PhysMem.write_frame _ _ _ hf⟩

theorem staleMm_ready : staleMm.Ready smallLayout :=
  smallMm_consistent.ready.write (by decide) 0 pteP

/-- The kernel image lies beyond the memory of the small machine. -/
theorem smallPmm_holds {f : Frame} (h : 16 ≤ f.toNat) : smallPmm.Holds f := by
  intro hlt
  have htot : smallPmm.totalPages.toNat = 16 := by decide +kernel
  omega

theorem smallPmm_holds_pt (i : Slot) : smallPmm.Holds (smallLayout.ptFrame i) := by
  apply smallPmm_holds
  rw [smallLayout.toNat_ptFrame, show smallLayout.pgPd.toNat = 272 from rfl]
  omega

/-- The frame is handed out, and its user entry 0 stays present. -/
theorem pgdCreatePd_stale_frame : ¬ PgdCreatePdFresh := by
  intro hall
  have hcr3 : staleMm.pmm.Holds staleMm.mmu.cr3 := smallPmm_holds (by decide)
  have hphys : (pmmAlloc staleMm.pmm 1).1 = 0x1000 := by decide +kernel
  rcases pgdCreatePd_cases staleMm_ready hcr3 smallPmm_holds_pt with
    ⟨hno, _⟩ | ⟨f, m', hr, hc⟩
  · rcases hno with h | h
    · rw [hphys] at h
      exact absurd h (by decide)
    · exact h ⟨by decide, by decide, 0, by decide, fun i _ => by
        simp [staleMm, smallMm, smallVmm, test]⟩
  · obtain ⟨r, m'', hr', hfresh⟩ := hall smallLayout staleMm staleMm_ready hcr3 smallPmm_holds_pt
    rw [hr] at hr'
    cases hr'
    have hf : f = 1 := by
      rw [← frameOf_frameAddr f, ← hc.handed, hphys]
      decide
    have huser := (hfresh hc.nonzero).user 0 (by decide)
    rw [frameOf_frameAddr, hc.user 0 (by decide), hf] at huser
    exact huser (by decide)

/-- The small machine itself, whose frames are clean. -/
theorem pgdCreatePd_fresh_small : CreatesFreshDir smallLayout smallMm ↔
    ((pmmAlloc smallMm.pmm 1).1 ≠ 0 → smallMm.vmm.Reservable 1 → NoStaleEntry smallMm) :=
  pgdCreatePd_fresh_iff smallMm_consistent.ready (smallPmm_holds (by decide)) smallPmm_holds_pt

end Tomk
