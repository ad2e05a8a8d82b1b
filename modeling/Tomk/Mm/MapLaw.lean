/-
# The page mapping law

After `pg_map` the bytes of the range translate to the bytes of the physical
range, after `pg_unmap` to nothing, and other addresses translate as before.  The
last part has an exception, which the recursive window makes visible: where
`pg_map` has to create a directory entry (`Fresh`), the page of the window at
that entry comes to show the static table, and the other pages of the 4 MiB block
come to show what that table holds (`pageMapping_law`).  `pg_unmap` does not take
the entry back, and changes nothing else.

The statement is about translations alone; that no fault occurs is part of it.
-/
import Tomk.Init.Entry

namespace Tomk

/-- The address is one of the `count` pages at `virt`. -/
def InPages (virt count va : U32) : Prop :=
  virt.toNat ≤ va.toNat ∧ va.toNat < virt.toNat + count.toNat * 4096

instance (virt count va : U32) : Decidable (InPages virt count va) :=
  inferInstanceAs (Decidable (_ ∧ _))

/-- Whole pages below the window, and a frame for the first. -/
structure PageRange (virt phys count : U32) : Prop where
  virt_aligned : virt.toNat % 4096 = 0
  phys_aligned : phys.toNat % 4096 = 0
  below : virt.toNat + count.toNat * 4096 ≤ ptVirt.toNat

/-- `m1` is what `pg_map` leaves, and `m2` what `pg_unmap` then leaves; the bytes
of the range translate as they should. -/
structure MapsAndUnmaps (L : Layout) (m : Mmu) (virt phys flags count : U32) (m1 m2 : Mmu) :
    Prop where
  map : pgMap L m virt phys flags count = some m1
  unmap : pgUnmap m1 virt count = some m2
  mapped : ∀ k, k < count.toNat * 4096 →
    pgVirt2phys m1 (virt + BitVec.ofNat 32 k) = some (phys + BitVec.ofNat 32 k)
  unmapped : ∀ k, k < count.toNat * 4096 →
    pgVirt2phys m2 (virt + BitVec.ofNat 32 k) = some 0

/-- No address of `P` outside of the range is disturbed. -/
def MappingLawOn (P : U32 → Prop) : Prop :=
  ∀ (L : Layout) (m : Mmu) (virt phys flags count : U32), Wired L 0 m.mem m.cr3 →
    PageRange virt phys count → ∃ m1 m2, MapsAndUnmaps L m virt phys flags count m1 m2 ∧
      ∀ va, P va → ¬ InPages virt count va →
        pgVirt2phys m1 va = pgVirt2phys m va ∧ pgVirt2phys m2 va = pgVirt2phys m1 va

/-- The property as it is asked: of every address. -/
def PageMappingLaw : Prop := MappingLawOn fun _ => True

/-- The directory entries that mapping the range creates. -/
def Fresh (m : Mmu) (virt count : U32) (i : Slot) : Prop :=
  ¬ Present (m.mem m.cr3 i) ∧ ∃ j, j < count.toNat ∧ slotOf (pageNo virt + j) = i

/-- How an address outside of the range translates after `pg_map`. -/
structure MappedOutside (L : Layout) (m m1 : Mmu) (virt count va : U32) : Prop where
  below : va < ptVirt → ¬ Fresh m virt count (pdIndex va) → pgVirt2phys m1 va = pgVirt2phys m va
  /-- In a block whose entry was created: as its static table has it. -/
  block : va < ptVirt → Fresh m virt count (pdIndex va) →
    pgVirt2phys m1 va = some (physOf va (entryFrame (L.pte m.mem (pageNo va))))
  window : ptVirt ≤ va → ¬ Fresh m virt count (ptIndex va) →
    pgVirt2phys m1 va = pgVirt2phys m va
  /-- The page of the window at such an entry: that table. -/
  table : ptVirt ≤ va → Fresh m virt count (ptIndex va) →
    pgVirt2phys m1 va = some (physOf va (some (L.ptFrame (ptIndex va))))

variable {L : Layout} {mem : PhysMem} {dir : Frame} {m : Mmu} {virt phys flags count va : U32}

/-! ## Bytes of a page -/

theorem PageRange.pages (h : PageRange virt phys count) :
    pageNo virt + count.toNat ≤ 1023 * 1024 := by
  have h1 := h.virt_aligned
  have h2 := h.below
  have h3 : ptVirt.toNat = 0xFFC00000 := rfl
  rw [pageNo]
  omega

/-- The page of a byte of the range, and its offset. -/
theorem PageRange.byte (h : PageRange virt phys count) {k : Nat} (hk : k < count.toNat * 4096) :
    pageNo (virt + BitVec.ofNat 32 k) = pageNo virt + k / 4096 ∧
      (virt + BitVec.ofNat 32 k).toNat % 4096 = k % 4096 := by
  have h1 := h.virt_aligned
  have h2 := h.below
  have h3 : ptVirt.toNat = 0xFFC00000 := rfl
  have hsum : (virt + BitVec.ofNat 32 k).toNat = virt.toNat + k := by
    rw [BitVec.toNat_add, BitVec.toNat_ofNat]
    omega
  rw [pageNo, hsum, pageNo]
  omega

theorem PageRange.inSlots (h : PageRange virt phys count) {lo : Nat} (hlo : lo * 1024 ≤ pageNo virt)
    {k : Nat} (hk : k < count.toNat * 4096) : InSlots lo (pageNo (virt + BitVec.ofNat 32 k)) := by
  have hlast := h.pages
  rw [(h.byte hk).1, InSlots]
  omega

/-- The offset and the frame do not overlap. -/
theorem physOf_some (va : U32) (f : Frame) :
    physOf va (some f) = frameAddr f + (va &&& (pageSize - 1)) := by
  have hdisjoint : frameAddr f &&& (va &&& (pageSize - 1)) = 0#32 := by
    apply BitVec.eq_of_getLsbD_eq
    intro i hi
    rw [BitVec.getLsbD_and, BitVec.getLsbD_and, frameAddr, BitVec.getLsbD_shiftLeft,
      show (pageSize - 1 : U32) = BitVec.ofNat 32 (2 ^ 12 - 1) from rfl, getLsbD_mask hi]
    by_cases h12 : i < 12 <;> simp [h12]
  rw [BitVec.add_eq_or_of_and_eq_zero _ _ hdisjoint, physOf, BitVec.or_comm]

/-- A byte of page `k / 4096` of a physical range. -/
theorem physOf_byte (hphys : phys.toNat % 4096 = 0) {k : Nat} (hva : va.toNat % 4096 = k % 4096) :
    physOf va (some (frameOf (pageAt phys (k / 4096)))) = phys + BitVec.ofNat 32 k := by
  have hpage : (toAddr (BitVec.ofNat 32 (k / 4096))).toNat = k / 4096 * 4096 % 2 ^ 32 := by
    rw [toNat_toAddr, BitVec.toNat_ofNat]
    omega
  rw [physOf_some]
  apply BitVec.eq_of_toNat_eq
  rw [BitVec.toNat_add, toNat_frameAddr, toNat_frameOf, toNat_pageOffset, hva, pageAt,
    BitVec.toNat_add, hpage, BitVec.toNat_add, BitVec.toNat_ofNat]
  omega

/-! ## Translations under a wired directory -/

/-- The window shows the directory. -/
theorem walk_window (h : SelfMapped mem dir) (hva : pdIndex va = 1023#10) :
    walk mem dir va = entryFrame (mem dir (ptIndex va)) := by
  rw [walk, hva, if_pos h.present, h.frame, entryFrame]

theorem slot_of_window (hva : ptVirt ≤ va) : pdIndex va = 1023#10 := by
  have h1 := va.isLt
  have h2 : ptVirt.toNat = 0xFFC00000 := rfl
  rw [BitVec.le_def] at hva
  apply BitVec.eq_of_toNat_eq
  rw [toNat_pdIndex]
  show _ = 1023
  omega

theorem inSlots_below (hva : ¬ ptVirt ≤ va) : InSlots 0 (pageNo va) := by
  have h2 : ptVirt.toNat = 0xFFC00000 := rfl
  rw [BitVec.le_def] at hva
  rw [InSlots, pageNo]
  omega

/-- An address outside of the range is in another page. -/
theorem PageRange.other_page (h : PageRange virt phys count) (hva : ¬ InPages virt count va) :
    ¬ InRun (pageNo virt) count.toNat (pageNo va) := by
  have h1 := h.virt_aligned
  rintro ⟨h2, h3⟩
  rw [pageNo, pageNo] at h2 h3
  exact hva ⟨by omega, by omega⟩

/-- The directory after the range was mapped: an entry is as it was, or fresh. -/
theorem mapped_dir (h : Wired L 0 m.mem m.cr3) (hr : PageRange virt phys count) {mem' : PhysMem}
    (hrun : pgMap L m virt phys flags count = some { m with mem := mem' })
    (ht : Touched L m.cr3 (InRun (pageNo virt) count.toNat) m.mem mem')
    (hpde : ∀ j, j < count.toNat → Present (mem' m.cr3 (slotOf (pageNo virt + j)))) (i : Slot) :
    (¬ Fresh m virt count i ∧ mem' m.cr3 i = m.mem m.cr3 i) ∨
      (Fresh m virt count i ∧ Present (mem' m.cr3 i) ∧ frameOf (mem' m.cr3 i) = L.ptFrame i) := by
  by_cases hp : Present (m.mem m.cr3 i)
  · exact Or.inl ⟨fun hf => hf.1 hp, ht.pde i hp⟩
  by_cases hj : ∃ j, j < count.toNat ∧ slotOf (pageNo virt + j) = i
  · obtain ⟨j, hlt, rfl⟩ := hj
    have hnew := hpde j hlt
    refine Or.inr ⟨⟨hp, j, hlt, rfl⟩, hnew, ?_⟩
    rcases ht.built (slotOf (pageNo virt + j)) with hsame | hstatic
    · rw [hsame] at hnew
      exact absurd hnew hp
    · exact hstatic
  · refine Or.inl ⟨fun hf => hj hf.2, ?_⟩
    exact pgMap_slots h (Nat.zero_le _) hr.pages hrun fun j hlt hslot => hj ⟨j, hlt, hslot⟩

/-! ## The two calls -/

/-- `pg_map`: the range is there, under a directory wired from its first page on. -/
theorem pgMap_bytes {lo : Nat} (h : Wired L lo m.mem m.cr3) (hlo : lo * 1024 ≤ pageNo virt)
    (hr : PageRange virt phys count) {mem' : PhysMem}
    (ht : Touched L m.cr3 (InRun (pageNo virt) count.toNat) m.mem mem')
    (hpte : ∀ j, j < count.toNat → Present (mem' m.cr3 (slotOf (pageNo virt + j))) ∧
      L.pte mem' (pageNo virt + j) = newPte (pageAt phys j) flags) {k : Nat}
    (hk : k < count.toNat * 4096) :
    pgVirt2phys { m with mem := mem' } (virt + BitVec.ofNat 32 k)
      = some (phys + BitVec.ofNat 32 k) := by
  have hw := h.touched ht
  obtain ⟨hpage, hoff⟩ := hr.byte hk
  obtain ⟨hpde, hnew⟩ := hpte (k / 4096) (by omega)
  rw [pgVirt2phys_eq hw.self, walk_wired hw (hr.inSlots hlo hk), ← slotOf_pageNo, hpage, hnew,
    if_pos ⟨hpde, present_newPte _ _⟩, frameOf_newPte, physOf_byte hr.phys_aligned hoff]

theorem pgMap_outside (h : Wired L 0 m.mem m.cr3) (hr : PageRange virt phys count) {mem' : PhysMem}
    (hrun : pgMap L m virt phys flags count = some { m with mem := mem' })
    (ht : Touched L m.cr3 (InRun (pageNo virt) count.toNat) m.mem mem')
    (hpde : ∀ j, j < count.toNat → Present (mem' m.cr3 (slotOf (pageNo virt + j))))
    (hva : ¬ InPages virt count va) : MappedOutside L m { m with mem := mem' } virt count va := by
  have hw := h.touched ht
  have hdir := mapped_dir h hr hrun ht hpde
  have hsame := ht.pte (pageNo va) (pageNo_lt va) (hr.other_page hva)
  have hbelow : va < ptVirt → InSlots 0 (pageNo va) := by
    intro hlt
    refine inSlots_below ?_
    rw [BitVec.lt_def] at hlt
    rw [BitVec.le_def]
    omega
  refine ⟨fun hlt hno => ?_, fun hlt hf => ?_, fun hge hno => ?_, fun hge hf => ?_⟩
  · rcases hdir (pdIndex va) with ⟨_, hkeep⟩ | ⟨hf, _⟩
    · rw [pgVirt2phys_eq hw.self, pgVirt2phys_eq h.self, walk_wired hw (hbelow hlt),
        walk_wired h (hbelow hlt), hsame, hkeep]
    · exact absurd hf hno
  · rcases hdir (pdIndex va) with ⟨hno, _⟩ | ⟨_, hnew, _⟩
    · exact absurd hf hno
    · rw [pgVirt2phys_eq hw.self, walk_wired hw (hbelow hlt), hsame, entryFrame]
      simp only [hnew, true_and]
  · have hslot := slot_of_window hge
    rcases hdir (ptIndex va) with ⟨_, hkeep⟩ | ⟨hf, _⟩
    · rw [pgVirt2phys_eq hw.self, pgVirt2phys_eq h.self, walk_window hw.self hslot,
        walk_window h.self hslot, hkeep]
    · exact absurd hf hno
  · have hslot := slot_of_window hge
    rcases hdir (ptIndex va) with ⟨hno, _⟩ | ⟨_, hnew, hframe⟩
    · exact absurd hf hno
    · rw [pgVirt2phys_eq hw.self, walk_window hw.self hslot, entryFrame, if_pos hnew, hframe]

/-- `pg_unmap` of a range that is mapped. -/
theorem pgUnmap_bytes (h : Wired L 0 m.mem m.cr3) (hr : PageRange virt phys count) {mem' : PhysMem}
    (ht : Touched L m.cr3 (InRun (pageNo virt) count.toNat) m.mem mem')
    (hpte : ∀ j, j < count.toNat → L.pte mem' (pageNo virt + j) = pteNp) {k : Nat}
    (hk : k < count.toNat * 4096) :
    pgVirt2phys { m with mem := mem' } (virt + BitVec.ofNat 32 k) = some 0 := by
  have hw := h.touched ht
  obtain ⟨hpage, _⟩ := hr.byte hk
  rw [pgVirt2phys_eq hw.self, walk_wired hw (hr.inSlots (Nat.zero_le _) hk), hpage,
    hpte (k / 4096) (by omega),
    if_neg fun hc => not_present_pteNp hc.2]
  rfl

/-- It writes no directory, and so disturbs no other address. -/
theorem pgUnmap_outside (h : Wired L 0 m.mem m.cr3) (hr : PageRange virt phys count) {mem' : PhysMem}
    (ht : Touched L m.cr3 (InRun (pageNo virt) count.toNat) m.mem mem')
    (hdir : ∀ i, mem' m.cr3 i = m.mem m.cr3 i) (hva : ¬ InPages virt count va) :
    pgVirt2phys { m with mem := mem' } va = pgVirt2phys m va := by
  have hw := h.touched ht
  rw [pgVirt2phys_eq hw.self, pgVirt2phys_eq h.self]
  by_cases hge : ptVirt ≤ va
  · have hslot := slot_of_window hge
    rw [walk_window hw.self hslot, walk_window h.self hslot, hdir]
  · have hin := inSlots_below hge
    have hsame := ht.pte (pageNo va) (pageNo_lt va) (hr.other_page hva)
    rw [walk_wired hw hin, walk_wired h hin, hsame, hdir]

/-- **The page mapping law.**  The bytes of the range translate as they should
after either call.  Outside of the range `pg_unmap` changes no translation, and
`pg_map` those alone that a new directory entry makes visible. -/
theorem pageMapping_law (h : Wired L 0 m.mem m.cr3) (hr : PageRange virt phys count)
    (flags : U32) : ∃ m1 m2, MapsAndUnmaps L m virt phys flags count m1 m2 ∧
      ∀ va, ¬ InPages virt count va →
        MappedOutside L m m1 virt count va ∧ pgVirt2phys m2 va = pgVirt2phys m1 va := by
  obtain ⟨mem1, hrun1, ht1, hpte1⟩ := pgMap_wired h virt phys flags count (Nat.zero_le _) hr.pages
  have hw1 := h.touched ht1
  obtain ⟨mem2, hrun2, ht2, hdir2, hpte2⟩ := pgUnmap_wired (m := { m with mem := mem1 }) hw1 virt
    count (Nat.zero_le _) hr.pages
  have hzero : ∀ j, j < count.toNat → L.pte mem2 (pageNo virt + j) = pteNp := by
    intro j hj
    obtain ⟨hpde, hnew⟩ := hpte1 j hj
    have hold : Present (L.pte mem1 (pageNo virt + j)) := by
      rw [hnew]
      exact present_newPte _ _
    rw [hpte2 j hj, if_pos ⟨hpde, hold⟩]
  refine ⟨{ m with mem := mem1 }, { m with mem := mem2 }, ⟨hrun1, hrun2, ?_, ?_⟩, ?_⟩
  · exact fun k hk => pgMap_bytes h (Nat.zero_le _) hr ht1 hpte1 hk
  · exact fun k hk => pgUnmap_bytes (m := { m with mem := mem1 }) hw1 hr ht2 hzero hk
  · exact fun va hva => ⟨pgMap_outside h hr hrun1 ht1 (fun j hj => (hpte1 j hj).1) hva,
      pgUnmap_outside (m := { m with mem := mem1 }) hw1 hr ht2 hdir2 hva⟩

/-! ## A directory with the kernel's entries alone -/

/-- One entry of table 1 is left over. -/
def leftoverTable (L : Layout) : PhysMem := fun f i =>
  if f = L.ptFrame 1#10 ∧ i = 1#10 then newPte 0x5000 pteRw else 0

theorem leftoverTable_clear (L : Layout) : BssClear L (leftoverTable L) :=
  fun _ => if_neg fun hc => L.pgPd_ne_ptFrame _ hc.1

/-- Irreducible, so that no unifier runs the loop of `.map_pd`. -/
@[irreducible] def kernelTables (L : Layout) : PhysMem := recursiveTables L (leftoverTable L)

theorem kernelTables_absent (L : Layout) {i : Slot} (hi : i.toNat < 768) :
    ¬ Present (kernelTables L L.pgPd i) := by
  rw [kernelTables, recursiveTables_other _ _ fun _ => hi, leftoverTable_clear L i]
  exact not_present_pteNp

theorem kernelTables_pte (L : Layout) (q : Nat) : L.pte (kernelTables L) q = L.pte (leftoverTable L) q := by
  rw [Layout.pte, kernelTables, recursiveTables_other _ _ fun hc => absurd hc.symm (L.pgPd_ne_ptFrame _)]
  rfl

theorem kernelTables_dir (L : Layout) :
    KernelDir L (kernelTables L) L.pgPd ∧ Wired L 0 (kernelTables L) L.pgPd := by
  rw [kernelTables]
  exact recursiveTables_dir L (leftoverTable_clear L)

def kernelMmu : Mmu := ⟨kernelTables smallLayout, smallLayout.pgPd⟩

/-- The page at 4 MiB, mapped under that directory. -/
theorem userPage : PageRange 0x400000 0x1000 1 := ⟨by decide, by decide, by decide⟩

theorem kernelMmu_fresh : Fresh kernelMmu 0x400000 1 1#10 :=
  ⟨kernelTables_absent smallLayout (by decide), 0, by decide, by decide⟩

/-- Mapping it makes table 1 appear in the window, and the entry that was left
over in the block: neither address was asked for. -/
theorem pageMapping_disturbs : ¬ PageMappingLaw ∧ ¬ MappingLawOn (· < ptVirt) := by
  have hw : Wired smallLayout 0 kernelMmu.mem kernelMmu.cr3 := (kernelTables_dir smallLayout).2
  obtain ⟨mem1, hrun1, ht1, hpte1⟩ := pgMap_wired hw 0x400000 0x1000 pteRw 1
    (Nat.zero_le _) userPage.pages
  have hout : ∀ va, ¬ InPages 0x400000 1 va →
      MappedOutside smallLayout kernelMmu { kernelMmu with mem := mem1 } 0x400000 1 va :=
    fun va hva => pgMap_outside hw userPage hrun1 ht1 (fun j hj => (hpte1 j hj).1) hva
  have habsent : ¬ Present (kernelMmu.mem kernelMmu.cr3 1#10) :=
    kernelTables_absent smallLayout (by decide)
  constructor
  · intro hall
    obtain ⟨m1, m2, hcalls, hsame⟩ := hall smallLayout kernelMmu 0x400000 0x1000 pteRw 1 hw userPage
    have hm1 := hcalls.map
    rw [hrun1] at hm1
    cases hm1
    -- the window at entry 1
    have hva : ¬ InPages 0x400000 1 0xFFC01000 := by decide
    have hnew := (hout 0xFFC01000 hva).table (by decide) kernelMmu_fresh
    rw [(hsame 0xFFC01000 trivial hva).1, pgVirt2phys_eq hw.self,
      walk_window hw.self (by decide), entryFrame,
      if_neg (show ¬ Present (kernelMmu.mem kernelMmu.cr3 (ptIndex 0xFFC01000)) from habsent)] at hnew
    exact absurd hnew (by decide)
  · intro hall
    obtain ⟨m1, m2, hcalls, hsame⟩ := hall smallLayout kernelMmu 0x400000 0x1000 pteRw 1 hw userPage
    have hm1 := hcalls.map
    rw [hrun1] at hm1
    cases hm1
    -- the page behind the one that was mapped
    have hva : ¬ InPages 0x400000 1 0x401000 := by decide
    have hnew := (hout 0x401000 hva).block (by decide) kernelMmu_fresh
    rw [(hsame 0x401000 (by decide) hva).1, pgVirt2phys_eq hw.self,
      walk_wired hw (by constructor <;> decide), if_neg fun hc => habsent hc.1,
      show kernelMmu.mem = kernelTables smallLayout from rfl, kernelTables_pte] at hnew
    exact absurd hnew (by decide)

/-- That page, mapped and unmapped. -/
theorem pageMapping_law_kernel :
    ∃ m1 m2, MapsAndUnmaps smallLayout kernelMmu 0x400000 0x1000
        pteRw 1 m1 m2 ∧ ∀ va, ¬ InPages 0x400000 1 va →
      MappedOutside smallLayout kernelMmu m1 0x400000 1 va ∧
        pgVirt2phys m2 va = pgVirt2phys m1 va :=
  pageMapping_law (m := kernelMmu) (kernelTables_dir smallLayout).2 userPage pteRw

end Tomk
