/-
# `mmap` and `munmap`

The two functions compute the page count from the length, each for itself, and go
through the bitmap and the tables in opposite orders.  Over a window whose free
pages have no table entry they undo each other (`mmap_munmap`): the bytes of the
range translate to the physical bytes in between, and afterwards the window is as
it was and the same table entries are present.

`pg_map` may create directory entries, which stay: what comes back is the table
entries, and not the translations of other pages under them.
-/
import Tomk.Mm.AddrSpace
import Tomk.Mm.MapLaw
import Tomk.Mm.VmmAccount

namespace Tomk

open WordBits

/-- No free page of the window has a table entry. -/
def Mm.FreeUnmapped (L : Layout) (m : Mm) : Prop :=
  ∀ p, p < m.vmm.totalPages.toNat → test m.vmm.bitmap p = false →
    ¬ Present (L.pte m.mmu.mem (m.vmm.first p))

/-- The window is as it was, and the same table entries are present. -/
structure Mm.Unmapped (L : Layout) (m m' : Mm) : Prop where
  bitmap : m'.vmm.bitmap = m.vmm.bitmap
  free : m'.vmm.freePages = m.vmm.freePages
  used : m'.vmm.usedPages = m.vmm.usedPages
  entries : ∀ q, q < 2 ^ 20 → (Present (L.pte m'.mmu.mem q) ↔ Present (L.pte m.mmu.mem q))

/-- What `mmap` is to have done when it returned `virt`. -/
structure MmapRound (L : Layout) (m : Mm) (phys length virt : U32) (m' : Mm) : Prop where
  translated : ∀ k, k < length.toNat →
    pgVirt2phys m'.mmu (virt + BitVec.ofNat 32 k) = some (phys + BitVec.ofNat 32 k)
  unreserved : ∀ k, k < length.toNat →
    m.vmm.page (virt + BitVec.ofNat 32 k) < m.vmm.totalPages.toNat ∧
      test m.vmm.bitmap (m.vmm.page (virt + BitVec.ofNat 32 k)) = false
  undone : ∃ m'', munmap m' virt length = some m'' ∧ m.Unmapped L m''

variable {L : Layout} {m : Mm} {phys length : U32}

/-- Up to the last length that does not wrap, the count is rounded up. -/
theorem toNat_lengthPages (h : length.toNat ≤ 0xFFFFF000) :
    (lengthPages length).toNat = (length.toNat + 4095) / 4096 := by
  have h1 : (pageSize - 1).toNat = 4095 := rfl
  rw [lengthPages, toNat_toPage, BitVec.toNat_add, h1]
  omega

/-- The pages of a range of the window. -/
theorem Vmm.Window.pageRange {v : Vmm} (h : v.Window) {p : Nat} {n : U32} (hn : 0 < n.toNat)
    (hp : p + n.toNat ≤ v.totalPages.toNat) (hphys : phys.toNat % 4096 = 0) :
    PageRange (v.addr p) phys n := by
  obtain ⟨h1, h2⟩ := h.window
  have h3 := h.base_aligned
  have h4 := h.toNat_addr (show p < v.totalPages.toNat by omega)
  have h5 : ptVirt.toNat = 0xFFC00000 := rfl
  exact ⟨by omega, hphys, by omega⟩

/-- The page of byte `k` of a range of the window. -/
theorem Vmm.Window.page_byte {v : Vmm} (h : v.Window) {p k : Nat}
    (hk : p + k / 4096 < v.totalPages.toNat) :
    v.page (v.addr p + BitVec.ofNat 32 k) = p + k / 4096 := by
  obtain ⟨h1, h2⟩ := h.window
  have h4 := h.toNat_addr (show p < v.totalPages.toNat by omega)
  have hsum : (v.addr p + BitVec.ofNat 32 k).toNat = v.base.toNat + p * 4096 + k := by
    rw [BitVec.toNat_add, BitVec.toNat_ofNat]
    omega
  have hle : v.base ≤ v.addr p + BitVec.ofNat 32 k := by
    rw [BitVec.le_def]
    omega
  rw [Vmm.page, toNat_toPage, BitVec.toNat_sub_of_le hle, hsum]
  omega

/-- `munmap` of what was just reserved and mapped. -/
theorem munmap_reserved {p : Nat} {n lr flags : U32} {mem1 : PhysMem} (hv : m.vmm.Shape)
    (hw : Wired L (pdIndex m.vmm.base).toNat m.mmu.mem m.mmu.cr3) (hfree : m.FreeUnmapped L)
    (hn : n = lengthPages length) (hn0 : n ≠ 0)
    (hf : FirstRun m.vmm.bitmap m.vmm.totalPages.toNat n.toNat p) (h0 : m.vmm.addr p ≠ 0)
    (ht : Touched L m.mmu.cr3 (InRun (m.vmm.first p) n.toNat) m.mmu.mem mem1)
    (hpte : ∀ j, j < n.toNat → Present (mem1 m.mmu.cr3 (slotOf (m.vmm.first p + j))) ∧
      L.pte mem1 (m.vmm.first p + j) = newPte (pageAt phys j) flags) :
    ∃ m'', munmap ⟨m.vmm.reserved p n lr, m.pmm, ⟨mem1, m.mmu.cr3⟩⟩ (m.vmm.addr p) length = some m'' ∧
      m.Unmapped L m'' := by
  have hle := hf.le_total
  have hpos := toNat_pos_of_ne hn0
  obtain ⟨hs1, hs2⟩ := hv.slots
  have hpage : pageNo (m.vmm.addr p) = m.vmm.first p := hv.pageNo_addr (by omega)
  have hfirst : m.vmm.first p = pageNo m.vmm.base + p := rfl
  obtain ⟨mem2, hrun, ht2, _, hpte2⟩ := pgUnmap_wired (m := ⟨mem1, m.mmu.cr3⟩) (hw.touched ht)
    (m.vmm.addr p) n (by omega) (by omega)
  rw [hpage] at ht2 hpte2
  refine ⟨⟨{ m.vmm with largestRun := lr }, m.pmm, ⟨mem2, m.mmu.cr3⟩⟩, ?_, rfl, rfl, rfl, fun q hq => ?_⟩
  · have hback : vmmUnreserve (m.vmm.reserved p n lr) (m.vmm.addr p) n =
        { m.vmm with largestRun := lr } := vmmUnreserve_reserved hv hn0 hf h0
    simp only [munmap, ← hn, if_neg h0, hrun, hback, Option.bind_eq_bind, Option.bind_some,
      Option.pure_def]
  · by_cases hin : InRun (m.vmm.first p) n.toNat q
    · -- a page of the range: its entry is 0 now, and was not there before
      obtain ⟨j, rfl⟩ := Nat.exists_eq_add_of_le hin.1
      have hj : j < n.toNat := by
        have := hin.2
        omega
      obtain ⟨hpde, hnew⟩ := hpte j hj
      have hold : Present (L.pte mem1 (m.vmm.first p + j)) := by
        rw [hnew]
        exact present_newPte _ _
      have hzero : L.pte mem2 (m.vmm.first p + j) = pteNp := (hpte2 j hj).trans (if_pos ⟨hpde, hold⟩)
      have hbefore := hfree (p + j) (by omega) (hf.free j hj)
      rw [show m.vmm.first (p + j) = m.vmm.first p + j from (Nat.add_assoc _ _ _).symm] at hbefore
      show Present (L.pte mem2 _) ↔ _
      rw [hzero]
      exact ⟨fun hc => absurd hc not_present_pteNp, fun hc => absurd hc hbefore⟩
    · show Present (L.pte mem2 q) ↔ Present (L.pte m.mmu.mem q)
      rw [ht2.pte q hq hin, ht.pte q hq hin]

/-- **The round trip.**  `mmap` returns, and if it returns an address the range
is mapped to the physical bytes, was free before, and is taken back by
`munmap`. -/
theorem mmap_munmap (hv : m.vmm.Shape)
    (hw : Wired L (pdIndex m.vmm.base).toNat m.mmu.mem m.mmu.cr3) (hfree : m.FreeUnmapped L)
    (hphys : phys.toNat % 4096 = 0) (h1 : 1 ≤ length.toNat) (h2 : length.toNat ≤ 0xFFFFF000)
    (flags : U32) : ∃ virt m', mmap L m phys length flags = some (virt, m') ∧
      (virt ≠ 0 → MmapRound L m phys length virt m') := by
  have hcount := toNat_lengthPages h2
  rcases mmap_cases hv hw phys length flags with ⟨_, lr, hr⟩ | ⟨hres, p, lr, mem', hf, h0, hr, ht, hpte, _⟩
  · exact ⟨0, _, hr, fun hz => absurd rfl hz⟩
  · have hle := hf.le_total
    obtain ⟨hs1, hs2⟩ := hv.slots
    have hpage : pageNo (m.vmm.addr p) = m.vmm.first p := hv.pageNo_addr (by omega)
    have hfirst : m.vmm.first p = pageNo m.vmm.base + p := rfl
    refine ⟨m.vmm.addr p, _, hr, fun _ => ⟨fun k hk => ?_, fun k hk => ?_, ?_⟩⟩
    · have hrange := hv.toWindow.pageRange (n := lengthPages length) (by omega) hle hphys
      rw [← hpage] at ht hpte
      exact pgMap_bytes hw (by omega) hrange ht hpte (by omega)
    · have hbyte := hv.toWindow.page_byte (p := p) (k := k) (by omega)
      rw [hbyte]
      exact ⟨by omega, hf.free (k / 4096) (by omega)⟩
    · exact munmap_reserved hv hw hfree rfl hres.1 hf h0 ht hpte

/-- It returns what `vmm_reserve` does. -/
theorem mmap_reserved {virt flags : U32} {m' : Mm} (h : mmap L m phys length flags = some (virt, m')) :
    virt = (vmmReserve m.vmm (lengthPages length)).1 := by
  simp only [mmap, Option.pure_def, Option.bind_eq_bind] at h
  split at h
  · next h0 => rw [h0, ← (Prod.mk.inj (Option.some.inj h)).1]
  · obtain ⟨mmu, -, h⟩ := Option.bind_eq_some_iff.mp h
    exact (Prod.mk.inj (Option.some.inj h)).1.symm

/-- One page and a byte of the small machine. -/
theorem mmap_munmap_small : ∃ virt m', mmap smallLayout smallMm 0x100000 0x1001 pteRw = some (virt, m') ∧
    virt ≠ 0 ∧ MmapRound smallLayout smallMm 0x100000 0x1001 virt m' := by
  have hclear : smallMm.FreeUnmapped smallLayout := by
    intro p _ _
    rw [Layout.pte, show smallMm.mmu.mem = recursiveTables smallLayout (fun _ _ => 0) from rfl,
      recursiveTables_other _ _ fun hc => absurd hc.symm (smallLayout.pgPd_ne_ptFrame _)]
    exact not_present_pteNp
  have hphys : (0x100000 : U32).toNat % 4096 = 0 := by decide
  have h1 : 1 ≤ (0x1001 : U32).toNat := by decide
  obtain ⟨virt, m', hmap, hround⟩ := mmap_munmap smallMm_consistent.vmm smallMm_consistent.wired hclear
    hphys h1 (by decide) pteRw
  have hvirt : virt ≠ 0 := by
    rw [mmap_reserved hmap]
    decide +kernel
  exact ⟨virt, m', hmap, hvirt, hround hvirt⟩

end Tomk
