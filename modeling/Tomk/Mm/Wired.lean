/-
# Directories over the static tables

`Wired L lo mem dir` is the shape the directories of the kernel have from
entry `lo` on: the directory maps itself, and every present entry names the
static page table of its slot.  For such a directory the table entry of a
page is a fixed word of memory, `Layout.pte`, the same under every wired
directory; a directory only decides whether it is reached.

`Touched L dir P mem mem'` is the frame of a call made under `dir` that maps
or unmaps pages of `P`: no other page's table entry changes, no present
directory entry changes, an entry that is built is the static one, and no
other frame is written.  Frames compose (`Touched.trans`) and keep wired
directories wired, the loaded one and the others, so the loops of `pg_map`
and `pg_unmap` need nothing but their turns (`pgMap_wired`,
`pgUnmap_wired`).
-/
import Tomk.Mm.PagingSpec

namespace Tomk

open CFor

/-- The number of the page of an address. -/
def pageNo (va : U32) : Nat := va.toNat / 4096

/-- The directory entry of page `p`. -/
def slotOf (p : Nat) : Slot := BitVec.ofNat 10 (p / 1024)

/-- The word of page `p` in the table of its slot. -/
def wordOf (p : Nat) : Slot := BitVec.ofNat 10 (p % 1024)

/-- The table entry of page `p` in the static tables. -/
def Layout.pte (L : Layout) (mem : PhysMem) (p : Nat) : U32 := mem (L.ptFrame (slotOf p)) (wordOf p)

structure Wired (L : Layout) (lo : Nat) (mem : PhysMem) (dir : Frame) : Prop where
  self : SelfMapped mem dir
  /-- The directory is none of the static tables. -/
  apart : ∀ i, dir ≠ L.ptFrame i
  tables : ∀ i : Slot, lo ≤ i.toNat → i.toNat < 1023 → Present (mem dir i) →
    frameOf (mem dir i) = L.ptFrame i

/-- The pages a directory wired from `lo` on has static tables for. -/
def InSlots (lo p : Nat) : Prop := lo * 1024 ≤ p ∧ p < 1023 * 1024

/-! ## Pages -/

theorem pageNo_lt (va : U32) : pageNo va < 2 ^ 20 := by
  have := va.isLt
  rw [pageNo]
  omega

theorem slotOf_pageNo (va : U32) : slotOf (pageNo va) = pdIndex va := by
  have := va.isLt
  apply BitVec.eq_of_toNat_eq
  rw [slotOf, BitVec.toNat_ofNat, toNat_pdIndex, pageNo]
  omega

theorem wordOf_pageNo (va : U32) : wordOf (pageNo va) = ptIndex va := by
  apply BitVec.eq_of_toNat_eq
  rw [wordOf, BitVec.toNat_ofNat, toNat_ptIndex, pageNo]
  omega

theorem toNat_slotOf {p : Nat} (h : p < 2 ^ 20) : (slotOf p).toNat = p / 1024 := by
  rw [slotOf, BitVec.toNat_ofNat]
  omega

/-- A page is named by its slot and its word. -/
theorem page_ext {p q : Nat} (hp : p < 2 ^ 20) (hq : q < 2 ^ 20) (hs : slotOf p = slotOf q)
    (hw : wordOf p = wordOf q) : p = q := by
  have h1 := congrArg BitVec.toNat hs
  have h2 := congrArg BitVec.toNat hw
  rw [toNat_slotOf hp, toNat_slotOf hq] at h1
  rw [wordOf, wordOf, BitVec.toNat_ofNat, BitVec.toNat_ofNat] at h2
  omega

theorem Layout.pte_pageNo (L : Layout) (mem : PhysMem) (va : U32) :
    L.pte mem (pageNo va) = mem (L.ptFrame (pdIndex va)) (ptIndex va) := by
  rw [Layout.pte, slotOf_pageNo, wordOf_pageNo]

/-- The pages a loop goes through, as long as it stays in the address space. -/
theorem pageNo_pageAt {va : U32} {i : Nat} (h : pageNo va + i < 2 ^ 20) :
    pageNo (pageAt va i) = pageNo va + i := by
  have h1 : (toAddr (BitVec.ofNat 32 i)).toNat = i * 4096 := by
    rw [toNat_toAddr, BitVec.toNat_ofNat]
    omega
  rw [pageNo] at h
  rw [pageNo, pageAt, BitVec.toNat_add, h1, pageNo]
  omega

/-! ## Walking a wired directory -/

variable {L : Layout} {lo : Nat} {mem mem' : PhysMem} {dir : Frame} {m : Mmu}

theorem Wired.frameOf_pde (h : Wired L lo mem dir) {va : U32} (hr : InSlots lo (pageNo va))
    (hp : Present (mem dir (pdIndex va))) :
    frameOf (mem dir (pdIndex va)) = L.ptFrame (pdIndex va) := by
  obtain ⟨h1, h2⟩ := hr
  rw [← slotOf_pageNo] at hp ⊢
  have hs := toNat_slotOf (pageNo_lt va)
  exact h.tables _ (by omega) (by omega) hp

/-- Under a wired directory the table entry is in the static tables. -/
theorem walk_wired (h : Wired L lo mem dir) {va : U32} (hr : InSlots lo (pageNo va)) :
    walk mem dir va =
      if Present (mem dir (pdIndex va)) ∧ Present (L.pte mem (pageNo va)) then
        some (frameOf (L.pte mem (pageNo va)))
      else none := by
  by_cases hp : Present (mem dir (pdIndex va))
  · simp only [walk, h.frameOf_pde hr hp, L.pte_pageNo, hp, true_and, if_true]
  · rw [walk, if_neg hp, if_neg fun hc => hp hc.1]

theorem tableOf_wired (h : Wired L lo mem dir) {va : U32} (hr : InSlots lo (pageNo va)) :
    tableOf L mem dir va = L.ptFrame (pdIndex va) := by
  rw [tableOf]
  split
  · next hp => exact h.frameOf_pde hr hp
  · rfl

/-- What a table entry maps its page to. -/
def entryFrame (pte : U32) : Option Frame := if Present pte then some (frameOf pte) else none

theorem entryFrame_newPte (phys flags : U32) : entryFrame (newPte phys flags) = some (frameOf phys) := by
  rw [entryFrame, if_pos (present_newPte _ _), frameOf_newPte]

theorem entryFrame_pteNp : entryFrame pteNp = none := if_neg not_present_pteNp

/-! ## What a call may change -/

/-- What a call under `dir` changes when it maps or unmaps pages of `P`. -/
structure Touched (L : Layout) (dir : Frame) (P : Nat → Prop) (mem mem' : PhysMem) : Prop where
  pde : ∀ i, Present (mem dir i) → mem' dir i = mem dir i
  built : ∀ i, mem' dir i = mem dir i ∨ frameOf (mem' dir i) = L.ptFrame i
  pte : ∀ p, p < 2 ^ 20 → ¬ P p → L.pte mem' p = L.pte mem p
  other : ∀ f i, f ≠ dir → (∀ j, f ≠ L.ptFrame j) → mem' f i = mem f i

theorem Touched.refl (L : Layout) (dir : Frame) (P : Nat → Prop) (mem : PhysMem) :
    Touched L dir P mem mem where
  pde := fun _ _ => rfl
  built := fun _ => Or.inl rfl
  pte := fun _ _ _ => rfl
  other := fun _ _ _ _ => rfl

theorem Touched.trans {P Q : Nat → Prop} {mem'' : PhysMem} (h : Touched L dir P mem mem')
    (h' : Touched L dir Q mem' mem'') : Touched L dir (fun p => P p ∨ Q p) mem mem'' where
  pde := fun i hi => by
    have h1 := h.pde i hi
    rw [h'.pde i (by rwa [h1]), h1]
  built := fun i => by
    rcases h'.built i with h1 | h1
    · rw [h1]
      exact h.built i
    · exact Or.inr h1
  pte := fun p hp hno => by
    rw [h'.pte p hp fun hq => hno (Or.inr hq), h.pte p hp fun hq => hno (Or.inl hq)]
  other := fun f i h1 h2 => by rw [h'.other f i h1 h2, h.other f i h1 h2]

theorem Touched.mono {P Q : Nat → Prop} (h : Touched L dir P mem mem') (hPQ : ∀ p, P p → Q p) :
    Touched L dir Q mem mem' where
  pde := h.pde
  built := h.built
  pte := fun p hp hno => h.pte p hp fun hq => hno (hPQ p hq)
  other := h.other

/-- The loaded directory stays wired. -/
theorem Wired.touched {P : Nat → Prop} (h : Wired L lo mem dir) (ht : Touched L dir P mem mem') :
    Wired L lo mem' dir where
  self := by
    have h1 := ht.pde _ h.self.present
    constructor
    · rw [h1]
      exact h.self.present
    · rw [h1]
      exact h.self.frame
  apart := h.apart
  tables := fun i h1 h2 hp => by
    rcases ht.built i with h3 | h3
    · rw [h3] at hp ⊢
      exact h.tables i h1 h2 hp
    · exact h3

/-- Another directory is not written. -/
theorem Touched.other_dir {P : Nat → Prop} {d : Frame} (ht : Touched L dir P mem mem')
    (hd : d ≠ dir) (hapart : ∀ i, d ≠ L.ptFrame i) (i : Slot) : mem' d i = mem d i :=
  ht.other d i hd hapart

/-- So every directory that was wired stays so. -/
theorem Wired.other {P : Nat → Prop} {d : Frame} (h : Wired L lo mem d)
    (ht : Touched L dir P mem mem') : Wired L lo mem' d := by
  by_cases hd : d = dir
  · subst hd
    exact h.touched ht
  · have hsame := ht.other_dir hd h.apart
    refine ⟨⟨?_, ?_⟩, h.apart, fun i h1 h2 hp => ?_⟩
    · rw [hsame]
      exact h.self.present
    · rw [hsame]
      exact h.self.frame
    · rw [hsame] at hp ⊢
      exact h.tables i h1 h2 hp

/-- Writing the table entry of one page. -/
theorem touched_write {p : Nat} (hp : p < 2 ^ 20) (hapart : ∀ i, dir ≠ L.ptFrame i) (w : U32) :
    Touched L dir (· = p) mem (mem.write (L.ptFrame (slotOf p)) (wordOf p) w) where
  pde := fun i _ => PhysMem.write_frame _ _ _ (hapart _)
  built := fun i => Or.inl (PhysMem.write_frame _ _ _ (hapart _))
  pte := fun q hq hne => by
    apply PhysMem.write_other
    rintro ⟨h1, h2⟩
    exact hne (page_ext hq hp (L.ptFrame_inj h1) h2)
  other := fun f i _ h2 => PhysMem.write_frame _ _ _ (h2 _)

/-- Building the directory entry of a page. -/
theorem touched_buildPde (hapart : ∀ i, dir ≠ L.ptFrame i) (va : U32) :
    Touched L dir (fun _ => False) mem (buildPde L mem dir va) where
  pde := fun i hi => buildPde_present hi
  built := fun i => by
    by_cases hi : i = pdIndex va
    · subst hi
      by_cases hp : Present (mem dir (pdIndex va))
      · exact Or.inl (buildPde_present hp)
      · right
        rw [(buildPde_slot L mem dir va).2, tableOf, if_neg hp]
    · exact Or.inl (buildPde_other fun hc => hi hc.2)
  pte := fun p _ _ => buildPde_other fun hc => hapart _ hc.1.symm
  other := fun f i h1 _ => buildPde_other fun hc => h1 hc.1

/-! ## One page -/

/-- What `_map_page` leaves. -/
theorem mapPage_wired (h : Wired L lo m.mem m.cr3) (va : U32) (hr : InSlots lo (pageNo va))
    (phys flags : U32) :
    ∃ mem', mapPage L m va phys flags = some { m with mem := mem' } ∧
      Touched L m.cr3 (· = pageNo va) m.mem mem' ∧ Present (mem' m.cr3 (pdIndex va)) ∧
      L.pte mem' (pageNo va) = newPte phys flags := by
  refine ⟨_, mapPage_eq L h.self va phys flags, ?_, ?_, ?_⟩
  · rw [tableOf_wired h hr, ← slotOf_pageNo, ← wordOf_pageNo]
    exact ((touched_buildPde h.apart va).trans
      (touched_write (pageNo_lt va) h.apart _)).mono fun p hp => hp.resolve_left id
  · rw [tableOf_wired h hr, PhysMem.write_frame _ _ _ (h.apart _)]
    exact (buildPde_slot L m.mem m.cr3 va).1
  · rw [tableOf_wired h hr, L.pte_pageNo, PhysMem.write_same]

/-- What `_unmap_page` leaves: directories are not written. -/
theorem unmapPage_wired (h : Wired L lo m.mem m.cr3) (va : U32) (hr : InSlots lo (pageNo va)) :
    ∃ mem', unmapPage m va = some { m with mem := mem' } ∧
      Touched L m.cr3 (· = pageNo va) m.mem mem' ∧ (∀ i, mem' m.cr3 i = m.mem m.cr3 i) ∧
      L.pte mem' (pageNo va) =
        if Present (m.mem m.cr3 (pdIndex va)) ∧ Present (L.pte m.mem (pageNo va)) then pteNp
        else L.pte m.mem (pageNo va) := by
  rw [unmapPage_eq h.self, walk_wired h hr]
  by_cases hp : Present (m.mem m.cr3 (pdIndex va)) ∧ Present (L.pte m.mem (pageNo va))
  · simp only [if_pos hp, reduceCtorEq, if_false]
    rw [h.frameOf_pde hr hp.1]
    refine ⟨_, rfl, ?_, fun i => PhysMem.write_frame _ _ _ (h.apart _), ?_⟩
    · rw [← slotOf_pageNo, ← wordOf_pageNo]
      exact touched_write (pageNo_lt va) h.apart _
    · rw [L.pte_pageNo, PhysMem.write_same]
  · simp only [if_neg hp, if_true]
    exact ⟨m.mem, rfl, Touched.refl _ _ _ _, fun _ => rfl, rfl⟩

/-! ## Runs of pages -/

/-- The pages `first, …, first + n - 1`. -/
def InRun (first n p : Nat) : Prop := first ≤ p ∧ p < first + n

/-- **`pg_map`** under a wired directory. -/
theorem pgMap_wired (h : Wired L lo m.mem m.cr3) (virt phys flags count : U32)
    (hlo : lo * 1024 ≤ pageNo virt) (hhi : pageNo virt + count.toNat ≤ 1023 * 1024) :
    ∃ mem', pgMap L m virt phys flags count = some { m with mem := mem' } ∧
      Touched L m.cr3 (InRun (pageNo virt) count.toNat) m.mem mem' ∧
      ∀ j, j < count.toNat → Present (mem' m.cr3 (slotOf (pageNo virt + j))) ∧
        L.pte mem' (pageNo virt + j) = newPte (pageAt phys j) flags := by
  have hloop := forFrom_some (a := 0) (n := count.toNat) (s := m)
    (f := fun i m => mapPage L m (pageAt virt i) (pageAt phys i) flags)
    (fun k u => ∃ mem', u = { m with mem := mem' } ∧
      Touched L m.cr3 (InRun (pageNo virt) k) m.mem mem' ∧
      ∀ j, j < k → Present (mem' m.cr3 (slotOf (pageNo virt + j))) ∧
        L.pte mem' (pageNo virt + j) = newPte (pageAt phys j) flags)
    ⟨m.mem, rfl, Touched.refl _ _ _ _, fun j hj => absurd hj (Nat.not_lt_zero j)⟩
    (by
      rintro k u _ hk ⟨mem', rfl, ht, hpte⟩
      have hpage : pageNo (pageAt virt k) = pageNo virt + k := pageNo_pageAt (by omega)
      obtain ⟨mem'', hrun, ht', hpde, hnew⟩ := mapPage_wired (m := { m with mem := mem' })
        (h.touched ht) (pageAt virt k) (by constructor <;> omega) (pageAt phys k) flags
      rw [hpage] at ht' hnew
      refine ⟨_, hrun, mem'', rfl, ?_, fun j hj => ?_⟩
      · refine (ht.trans ht').mono fun p hp => ?_
        rcases hp with ⟨h1, h2⟩ | rfl
        · exact ⟨h1, by omega⟩
        · exact ⟨by omega, by omega⟩
      · rcases Nat.lt_succ_iff_lt_or_eq.mp hj with hlt | rfl
        · obtain ⟨h1, h2⟩ := hpte j hlt
          refine ⟨?_, ?_⟩
          · rw [ht'.pde _ h1]
            exact h1
          · rw [ht'.pte _ (by omega) (by omega), h2]
        · rw [← hpage, slotOf_pageNo, hpage]
          exact ⟨hpde, hnew⟩)
  obtain ⟨_, hrun, mem', rfl, ht, hpte⟩ := hloop
  rw [Nat.zero_add] at ht hpte
  exact ⟨mem', hrun, ht, hpte⟩

/-- **`pg_unmap`** under a wired directory. -/
theorem pgUnmap_wired (h : Wired L lo m.mem m.cr3) (virt count : U32)
    (hlo : lo * 1024 ≤ pageNo virt) (hhi : pageNo virt + count.toNat ≤ 1023 * 1024) :
    ∃ mem', pgUnmap m virt count = some { m with mem := mem' } ∧
      Touched L m.cr3 (InRun (pageNo virt) count.toNat) m.mem mem' ∧
      (∀ i, mem' m.cr3 i = m.mem m.cr3 i) ∧
      ∀ j, j < count.toNat → L.pte mem' (pageNo virt + j) =
        if Present (m.mem m.cr3 (slotOf (pageNo virt + j))) ∧
          Present (L.pte m.mem (pageNo virt + j)) then pteNp
        else L.pte m.mem (pageNo virt + j) := by
  have hloop := forFrom_some (a := 0) (n := count.toNat) (s := m)
    (f := fun i m => unmapPage m (pageAt virt i))
    (fun k u => ∃ mem', u = { m with mem := mem' } ∧
      Touched L m.cr3 (InRun (pageNo virt) k) m.mem mem' ∧
      (∀ i, mem' m.cr3 i = m.mem m.cr3 i) ∧
      ∀ j, j < k → L.pte mem' (pageNo virt + j) =
        if Present (m.mem m.cr3 (slotOf (pageNo virt + j))) ∧
          Present (L.pte m.mem (pageNo virt + j)) then pteNp
        else L.pte m.mem (pageNo virt + j))
    ⟨m.mem, rfl, Touched.refl _ _ _ _, fun _ => rfl, fun j hj => absurd hj (Nat.not_lt_zero j)⟩
    (by
      rintro k u _ hk ⟨mem', rfl, ht, hdir, hpte⟩
      have hpage : pageNo (pageAt virt k) = pageNo virt + k := pageNo_pageAt (by omega)
      obtain ⟨mem'', hrun, ht', hdir', hnew⟩ := unmapPage_wired (m := { m with mem := mem' })
        (h.touched ht) (pageAt virt k) (by constructor <;> omega)
      rw [hpage] at ht'
      refine ⟨_, hrun, mem'', rfl, ?_, fun i => (hdir' i).trans (hdir i), fun j hj => ?_⟩
      · refine (ht.trans ht').mono fun p hp => ?_
        rcases hp with ⟨h1, h2⟩ | rfl
        · exact ⟨h1, by omega⟩
        · exact ⟨by omega, by omega⟩
      · rcases Nat.lt_succ_iff_lt_or_eq.mp hj with hlt | rfl
        · rw [ht'.pte _ (by omega) (by omega), hpte j hlt]
        · -- the page of this turn was not touched before
          have hold : L.pte mem' (pageNo virt + j) = L.pte m.mem (pageNo virt + j) :=
            ht.pte _ (by omega) fun hc => by
              have := hc.2
              omega
          rw [← slotOf_pageNo, hpage] at hnew
          rw [hnew, hold]
          simp only [hdir])
  obtain ⟨_, hrun, mem', rfl, ht, hdir, hpte⟩ := hloop
  rw [Nat.zero_add] at ht hpte
  exact ⟨mem', hrun, ht, hdir, hpte⟩

/-- `pg_map` writes no directory entry but those of its pages. -/
theorem pgMap_slots (h : Wired L lo m.mem m.cr3) {virt phys flags count : U32}
    (hlo : lo * 1024 ≤ pageNo virt) (hhi : pageNo virt + count.toNat ≤ 1023 * 1024) {m' : Mmu}
    (hrun : pgMap L m virt phys flags count = some m') {i : Slot}
    (hi : ∀ j, j < count.toNat → slotOf (pageNo virt + j) ≠ i) :
    m'.mem m.cr3 i = m.mem m.cr3 i := by
  have hloop := forFrom_some (a := 0) (n := count.toNat) (s := m)
    (f := fun i m => mapPage L m (pageAt virt i) (pageAt phys i) flags)
    (fun k u => ∃ mem', u = { m with mem := mem' } ∧
      Touched L m.cr3 (InRun (pageNo virt) k) m.mem mem' ∧ mem' m.cr3 i = m.mem m.cr3 i)
    ⟨m.mem, rfl, Touched.refl _ _ _ _, rfl⟩
    (by
      rintro k u _ hk ⟨mem', rfl, ht, hsame⟩
      have hpage : pageNo (pageAt virt k) = pageNo virt + k := pageNo_pageAt (by omega)
      have hslots : InSlots lo (pageNo (pageAt virt k)) := by constructor <;> omega
      have hw := h.touched ht
      obtain ⟨mem'', hrun, ht', _⟩ := mapPage_wired (m := { m with mem := mem' })
        hw (pageAt virt k) hslots (pageAt phys k) flags
      rw [hpage] at ht'
      refine ⟨_, hrun, mem'', rfl, (ht.trans ht').mono fun p hp => ?_, ?_⟩
      · rcases hp with ⟨h1, h2⟩ | rfl
        · exact ⟨h1, by omega⟩
        · exact ⟨by omega, by omega⟩
      · have hslot : i ≠ pdIndex (pageAt virt k) := by
          rw [← slotOf_pageNo, hpage]
          exact (hi k (by omega)).symm
        rw [mapPage_eq L hw.self, Option.some.injEq] at hrun
        have hmem := congrArg (fun t : Mmu => t.mem m.cr3 i) hrun
        rw [← hsame]
        refine hmem.symm.trans ?_
        show PhysMem.write _ _ _ _ m.cr3 i = mem' m.cr3 i
        rw [tableOf_wired hw hslots, PhysMem.write_frame _ _ _ (h.apart _),
          buildPde_other fun hc => hslot hc.2])
  obtain ⟨_, hloop, mem', rfl, _, hsame⟩ := hloop
  rw [pgMap, hloop] at hrun
  cases hrun
  exact hsame

/-- Mapping kernel pages writes no user entry of the directory. -/
theorem pgMap_user (h : Wired L lo m.mem m.cr3) {virt phys flags count : U32} (hlo : lo ≤ 768)
    (hvirt : 768 * 1024 ≤ pageNo virt) (hhi : pageNo virt + count.toNat ≤ 1023 * 1024) {m' : Mmu}
    (hrun : pgMap L m virt phys flags count = some m') {i : Slot} (hi : i.toNat < 768) :
    m'.mem m.cr3 i = m.mem m.cr3 i := by
  refine pgMap_slots h ((Nat.mul_le_mul_right 1024 hlo).trans hvirt) hhi hrun fun j hj hslot => ?_
  rw [← hslot, toNat_slotOf (by omega)] at hi
  omega

end Tomk
