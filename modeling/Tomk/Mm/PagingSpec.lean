/-
# What the recursive mapping reaches

`SelfMapped mem dir` says that entry 1023 of a directory is present and names
the directory itself.  Under it the two pointers of `paging.asm` lead where
they are meant to: `pgLocPde va` to the directory entry of `va`, `pgLocPte
va` to its table entry (`walk_pgLocPde`, `walk_pgLocPte`), and so no access
of `_map_page`, `_unmap_page` and `pg_virt2phys` faults.  Each of the three
is then an equation about the words of the tables.
-/
import Tomk.Mm.Paging

namespace Tomk

open CFor

/-! ## Indices -/

theorem toNat_pdIndex (va : U32) : (pdIndex va).toNat = va.toNat / 2 ^ 22 := by
  rw [pdIndex, BitVec.extractLsb'_toNat, Nat.shiftRight_eq_div_pow]
  omega

theorem toNat_ptIndex (va : U32) : (ptIndex va).toNat = va.toNat / 4096 % 1024 := by
  rw [ptIndex, BitVec.extractLsb'_toNat, Nat.shiftRight_eq_div_pow]

theorem toNat_wordIndex' (va : U32) : (wordIndex va).toNat = va.toNat / 4 % 1024 := by
  rw [wordIndex, BitVec.extractLsb'_toNat, Nat.shiftRight_eq_div_pow]

theorem toNat_frameOf (e : U32) : (frameOf e).toNat = e.toNat / 4096 := by
  rw [frameOf, BitVec.extractLsb'_toNat, Nat.shiftRight_eq_div_pow]
  omega

theorem toNat_frameAddr (f : Frame) : (frameAddr f).toNat = f.toNat * 4096 := by
  rw [frameAddr, BitVec.toNat_shiftLeft, BitVec.toNat_setWidth, Nat.shiftLeft_eq]
  omega

@[simp] theorem frameOf_frameAddr (f : Frame) : frameOf (frameAddr f) = f := by
  apply BitVec.eq_of_toNat_eq
  rw [toNat_frameOf, toNat_frameAddr]
  omega

/-- Two addresses in one page have the same indices, and conversely. -/
theorem page_eq_iff {u v : U32} :
    (pdIndex u = pdIndex v ∧ ptIndex u = ptIndex v) ↔ u.toNat / 4096 = v.toNat / 4096 := by
  rw [← BitVec.toNat_inj, ← BitVec.toNat_inj, toNat_pdIndex, toNat_pdIndex, toNat_ptIndex,
    toNat_ptIndex]
  omega

theorem toNat_pgLocPde (va : U32) : (pgLocPde va).toNat = 0xFFFFF000 + va.toNat / 2 ^ 22 * 4 := by
  rw [pgLocPde, pdVirt]
  bv_omega

/-- The byte offset of the table of an address among all tables. -/
theorem toNat_tableOffset (va : U32) :
    ((va >>> 10) &&& 0xFFFFF000#32).toNat = va.toNat / 2 ^ 22 * 4096 := by
  rw [toNat_and_frameMask, BitVec.toNat_ushiftRight, Nat.shiftRight_eq_div_pow,
    Nat.div_div_eq_div_mul]
  rfl

/-- The word of an address in its table. -/
theorem toNat_tableWord (va : U32) : ((va >>> 12) &&& 0x3FF).toNat = va.toNat / 4096 % 1024 := by
  have := toNat_and_mask (va >>> 12) (show 10 ≤ 32 by decide)
  rw [BitVec.toNat_ushiftRight, Nat.shiftRight_eq_div_pow] at this
  exact this

theorem toNat_pgLocPte (va : U32) :
    (pgLocPte va).toNat = 0xFFC00000 + va.toNat / 2 ^ 22 * 4096 + va.toNat / 4096 % 1024 * 4 := by
  have h3 : ptVirt.toNat = 0xFFC00000 := rfl
  have h4 : (4 : U32).toNat = 4 := rfl
  have hlt := va.isLt
  rw [pgLocPte, BitVec.toNat_add, BitVec.toNat_add, BitVec.toNat_mul, toNat_tableOffset,
    toNat_tableWord, h3, h4]
  omega

theorem indices_pgLocPde (va : U32) :
    pdIndex (pgLocPde va) = 1023#10 ∧ ptIndex (pgLocPde va) = 1023#10 ∧
      wordIndex (pgLocPde va) = pdIndex va := by
  have hlt := va.isLt
  refine ⟨?_, ?_, ?_⟩ <;> apply BitVec.eq_of_toNat_eq
  · rw [toNat_pdIndex, toNat_pgLocPde]
    show _ = 1023
    omega
  · rw [toNat_ptIndex, toNat_pgLocPde]
    show _ = 1023
    omega
  · rw [toNat_wordIndex', toNat_pgLocPde, toNat_pdIndex]
    omega

theorem indices_pgLocPte (va : U32) :
    pdIndex (pgLocPte va) = 1023#10 ∧ ptIndex (pgLocPte va) = pdIndex va ∧
      wordIndex (pgLocPte va) = ptIndex va := by
  have hlt := va.isLt
  refine ⟨?_, ?_, ?_⟩ <;> apply BitVec.eq_of_toNat_eq
  · rw [toNat_pdIndex, toNat_pgLocPte]
    show _ = 1023
    omega
  · rw [toNat_ptIndex, toNat_pgLocPte, toNat_pdIndex]
    omega
  · rw [toNat_wordIndex', toNat_pgLocPte, toNat_ptIndex]
    omega

/-! ## Entries -/

theorem present_iff (e : U32) : Present e ↔ e.getLsbD 0 = true := by
  have h1 : (e &&& pteP).getLsbD 0 = e.getLsbD 0 := by
    rw [BitVec.getLsbD_and, show pteP.getLsbD 0 = true from rfl, Bool.and_true]
  constructor
  · intro h
    by_contra hno
    apply h
    apply BitVec.eq_of_getLsbD_eq
    intro i _
    rw [BitVec.getLsbD_and, show pteP.getLsbD i = decide (i = 0) by
      rw [show pteP = BitVec.ofNat 32 (2 ^ 1 - 1) from rfl, getLsbD_mask (by omega)]
      exact decide_eq_decide.mpr (by omega)]
    by_cases hi : i = 0
    · subst hi
      simpa using hno
    · simp [hi]
  · intro h h0
    rw [h0, h] at h1
    exact absurd h1 (by decide)

/-- Flag bits do not reach the frame field. -/
theorem frameOf_or_low {x y : U32} (hy : y.toNat < 4096) : frameOf (x ||| y) = frameOf x := by
  apply BitVec.eq_of_getLsbD_eq
  intro i hi
  have hpow : 2 ^ 12 ≤ 2 ^ (12 + i) := Nat.pow_le_pow_right (by decide) (Nat.le_add_right 12 i)
  have hbit : y.getLsbD (12 + i) = false := Nat.testBit_lt_two_pow (Nat.lt_of_lt_of_le hy hpow)
  simp only [frameOf, BitVec.getLsbD_extractLsb', BitVec.getLsbD_or, hbit, Bool.or_false]

@[simp] theorem present_newPde (L : Layout) (va : U32) : Present (newPde L va) := by
  rw [present_iff, newPde, BitVec.getLsbD_or]
  rw [show (pteRw ||| pteP).getLsbD 0 = true from rfl, Bool.or_true]

@[simp] theorem present_newPte (phys flags : U32) : Present (newPte phys flags) := by
  rw [present_iff, newPte, BitVec.getLsbD_or, BitVec.getLsbD_or]
  rw [show pteP.getLsbD 0 = true from rfl, Bool.or_true, Bool.or_true]

@[simp] theorem not_present_pteNp : ¬ Present pteNp := by decide

/-- The frame a page is mapped to is the frame of the physical address given. -/
@[simp] theorem frameOf_newPte (phys flags : U32) : frameOf (newPte phys flags) = frameOf phys := by
  have hlow : ((flags &&& 0x00000FFF) ||| pteP).toNat < 4096 := by
    have h1 : (flags &&& 0x00000FFF).toNat < 2 ^ 12 := by
      have := toNat_and_mask flags (show 12 ≤ 32 by decide)
      have h2 : (flags &&& 0x00000FFF).toNat = flags.toNat % 2 ^ 12 := this
      omega
    rw [BitVec.toNat_or]
    exact Nat.or_lt_two_pow h1 (by decide)
  rw [newPte, frameOf_or_low hlow]
  apply BitVec.eq_of_toNat_eq
  rw [toNat_frameOf, toNat_frameOf, toNat_and_frameMask]
  omega

theorem Layout.pgPd_lt (L : Layout) : L.pgPd.toNat + 1025 < 2 ^ 18 := by
  have h1 := L.below
  have h2 := L.room
  have h3 : kvirt.toNat = 0xC0000000 := rfl
  have h4 : kvirtEnd.toNat = 0xFFC00000 := rfl
  omega

theorem Layout.toNat_pgPt (L : Layout) : L.pgPt.toNat = (L.pgPd.toNat + 1) * 4096 := by
  have hlt := L.pgPd_lt
  have h1 : (1 : Frame).toNat = 1 := rfl
  rw [Layout.pgPt, toNat_frameAddr, BitVec.toNat_add, h1]
  omega

theorem Layout.toNat_ptFrame (L : Layout) (i : Slot) :
    (L.ptFrame i).toNat = L.pgPd.toNat + 1 + i.toNat := by
  have h := L.pgPd_lt
  have h1 : (1 : Frame).toNat = 1 := rfl
  rw [Layout.ptFrame, BitVec.toNat_add, BitVec.toNat_add, BitVec.toNat_setWidth, h1]
  omega

theorem Layout.ptFrame_inj (L : Layout) {i j : Slot} (h : L.ptFrame i = L.ptFrame j) : i = j := by
  have := congrArg BitVec.toNat h
  rw [L.toNat_ptFrame, L.toNat_ptFrame] at this
  apply BitVec.eq_of_toNat_eq
  omega

theorem Layout.pgPd_ne_ptFrame (L : Layout) (i : Slot) : L.pgPd ≠ L.ptFrame i := by
  intro h
  have := congrArg BitVec.toNat h
  rw [L.toNat_ptFrame] at this
  omega

@[simp] theorem frameOf_newPde (L : Layout) (va : U32) :
    frameOf (newPde L va) = L.ptFrame (pdIndex va) := by
  have hlt := L.pgPd_lt
  have hva := va.isLt
  rw [newPde, frameOf_or_low (by decide)]
  apply BitVec.eq_of_toNat_eq
  rw [toNat_frameOf, L.toNat_ptFrame, BitVec.toNat_add, toNat_tableOffset, L.toNat_pgPt,
    toNat_pdIndex]
  omega

/-! ## Writing one word -/

@[simp] theorem PhysMem.write_same (mem : PhysMem) (f : Frame) (i : Slot) (w : U32) :
    mem.write f i w f i = w := if_pos ⟨rfl, rfl⟩

theorem PhysMem.write_other {mem : PhysMem} {f g : Frame} {i j : Slot} {w : U32}
    (h : ¬ (g = f ∧ j = i)) : mem.write f i w g j = mem g j := if_neg h

/-- Reading an entry of another frame. -/
theorem PhysMem.write_frame {mem : PhysMem} {f g : Frame} (i j : Slot) (w : U32) (h : g ≠ f) :
    mem.write f i w g j = mem g j := if_neg fun hc => h hc.1

/-! ## The window -/

/-- Entry 1023 of the directory maps the directory itself. -/
structure SelfMapped (mem : PhysMem) (dir : Frame) : Prop where
  present : Present (mem dir 1023#10)
  frame : frameOf (mem dir 1023#10) = dir

variable {mem : PhysMem} {dir : Frame} {m : Mmu}

theorem walk_pgLocPde (h : SelfMapped mem dir) (va : U32) :
    walk mem dir (pgLocPde va) = some dir := by
  obtain ⟨h1, h2, _⟩ := indices_pgLocPde va
  simp only [walk, h1, h2, if_pos h.present, h.frame]

theorem walk_pgLocPte (h : SelfMapped mem dir) (va : U32) :
    walk mem dir (pgLocPte va) =
      if Present (mem dir (pdIndex va)) then some (frameOf (mem dir (pdIndex va))) else none := by
  obtain ⟨h1, h2, _⟩ := indices_pgLocPte va
  simp only [walk, h1, h2, if_pos h.present, h.frame]

theorem load_pgLocPde (h : SelfMapped m.mem m.cr3) (va : U32) :
    m.load (pgLocPde va) = some (m.mem m.cr3 (pdIndex va)) := by
  simp only [Mmu.load, walk_pgLocPde h, (indices_pgLocPde va).2.2, Option.map_some]

theorem store_pgLocPde (h : SelfMapped m.mem m.cr3) (va w : U32) :
    m.store (pgLocPde va) w = some { m with mem := m.mem.write m.cr3 (pdIndex va) w } := by
  simp only [Mmu.store, walk_pgLocPde h, (indices_pgLocPde va).2.2, Option.map_some]

theorem load_pgLocPte (h : SelfMapped m.mem m.cr3) {va : U32}
    (hp : Present (m.mem m.cr3 (pdIndex va))) :
    m.load (pgLocPte va) = some (m.mem (frameOf (m.mem m.cr3 (pdIndex va))) (ptIndex va)) := by
  simp only [Mmu.load, walk_pgLocPte h, if_pos hp, (indices_pgLocPte va).2.2, Option.map_some]

theorem store_pgLocPte (h : SelfMapped m.mem m.cr3) {va : U32}
    (hp : Present (m.mem m.cr3 (pdIndex va))) (w : U32) :
    m.store (pgLocPte va) w =
      some { m with mem := m.mem.write (frameOf (m.mem m.cr3 (pdIndex va))) (ptIndex va) w } := by
  simp only [Mmu.store, walk_pgLocPte h, if_pos hp, (indices_pgLocPte va).2.2, Option.map_some]

/-! ## The three functions -/

/-- The value `pg_virt2phys` has for a walk. -/
def physOf (va : U32) : Option Frame → U32
  | none => 0
  | some f => (va &&& (pageSize - 1)) ||| frameAddr f

theorem and_frameMask (e : U32) : e &&& 0xFFFFF000#32 = frameAddr (frameOf e) := by
  apply BitVec.eq_of_toNat_eq
  rw [toNat_and_frameMask, toNat_frameAddr, toNat_frameOf]

/-- `pg_virt2phys` is the processor's walk. -/
theorem pgVirt2phys_eq (h : SelfMapped m.mem m.cr3) (va : U32) :
    pgVirt2phys m va = some (physOf va (walk m.mem m.cr3 va)) := by
  by_cases hpde : Present (m.mem m.cr3 (pdIndex va))
  · by_cases hpte : Present (m.mem (frameOf (m.mem m.cr3 (pdIndex va))) (ptIndex va))
    · simp [pgVirt2phys, load_pgLocPde h, load_pgLocPte h hpde, hpde, hpte, walk, physOf,
        and_frameMask]
    · simp [pgVirt2phys, load_pgLocPde h, load_pgLocPte h hpde, hpde, hpte, walk, physOf]
  · simp [pgVirt2phys, load_pgLocPde h, hpde, walk, physOf]

/-- The tables with the directory entry of `va` built, if it is missing. -/
def buildPde (L : Layout) (mem : PhysMem) (dir : Frame) (va : U32) : PhysMem :=
  if Present (mem dir (pdIndex va)) then mem else mem.write dir (pdIndex va) (newPde L va)

/-- The table the entry of `va` is written to. -/
def tableOf (L : Layout) (mem : PhysMem) (dir : Frame) (va : U32) : Frame :=
  if Present (mem dir (pdIndex va)) then frameOf (mem dir (pdIndex va)) else L.ptFrame (pdIndex va)

theorem buildPde_slot (L : Layout) (mem : PhysMem) (dir : Frame) (va : U32) :
    Present (buildPde L mem dir va dir (pdIndex va)) ∧
      frameOf (buildPde L mem dir va dir (pdIndex va)) = tableOf L mem dir va := by
  rw [buildPde, tableOf]
  split
  · next h => exact ⟨h, rfl⟩
  · rw [PhysMem.write_same]
    exact ⟨present_newPde L va, frameOf_newPde L va⟩

theorem buildPde_other {L : Layout} {va : U32} {f : Frame} {i : Slot}
    (h : ¬ (f = dir ∧ i = pdIndex va)) : buildPde L mem dir va f i = mem f i := by
  rw [buildPde]
  split
  · rfl
  · exact PhysMem.write_other h

/-- A slot whose entry is present keeps it. -/
theorem buildPde_present {L : Layout} {va : U32} {f : Frame} {i : Slot} (h : Present (mem f i)) :
    buildPde L mem dir va f i = mem f i := by
  rw [buildPde]
  split
  · rfl
  · next hno =>
    apply PhysMem.write_other
    rintro ⟨rfl, rfl⟩
    exact hno h

theorem SelfMapped.buildPde (h : SelfMapped mem dir) (L : Layout) (va : U32) :
    SelfMapped (buildPde L mem dir va) dir := by
  constructor
  · rw [buildPde_present h.present]
    exact h.present
  · rw [buildPde_present h.present]
    exact h.frame

/-- **`_map_page` as an equation**: it builds the directory entry if it is
missing, and writes the table entry. -/
theorem mapPage_eq (L : Layout) (h : SelfMapped m.mem m.cr3) (va phys flags : U32) :
    mapPage L m va phys flags = some { m with
      mem := (buildPde L m.mem m.cr3 va).write (tableOf L m.mem m.cr3 va) (ptIndex va)
        (newPte phys flags) } := by
  by_cases hpde : Present (m.mem m.cr3 (pdIndex va))
  · simp [mapPage, load_pgLocPde h, store_pgLocPte h hpde, hpde, buildPde, tableOf]
  · obtain ⟨hp, hf⟩ := buildPde_slot L m.mem m.cr3 va
    let m' : Mmu := { m with mem := buildPde L m.mem m.cr3 va }
    have hbuild : m.store (pgLocPde va) (newPde L va) = some m' := by
      simp only [m', buildPde, if_neg hpde, store_pgLocPde h]
    have hstore := store_pgLocPte (m := m') (h.buildPde L va) hp (newPte phys flags)
    simp only [mapPage, load_pgLocPde h, Option.bind_eq_bind, Option.bind_some, if_neg hpde,
      hbuild, hstore]
    rw [hf]

/-- **`_unmap_page` as an equation**: a mapped page's table entry becomes 0. -/
theorem unmapPage_eq (h : SelfMapped m.mem m.cr3) (va : U32) :
    unmapPage m va = some (if walk m.mem m.cr3 va = none then m else { m with
      mem := m.mem.write (frameOf (m.mem m.cr3 (pdIndex va))) (ptIndex va) pteNp }) := by
  by_cases hpde : Present (m.mem m.cr3 (pdIndex va))
  · by_cases hpte : Present (m.mem (frameOf (m.mem m.cr3 (pdIndex va))) (ptIndex va))
    · simp [unmapPage, load_pgLocPde h, load_pgLocPte h hpde, store_pgLocPte h hpde, hpde, hpte,
        walk]
    · simp [unmapPage, load_pgLocPde h, load_pgLocPte h hpde, hpde, hpte, walk]
  · simp [unmapPage, load_pgLocPde h, hpde, walk]

end Tomk
