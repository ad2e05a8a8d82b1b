/-
# What `vmm_free` gives back

An allocation takes pages of the window, entries of the tables and frames.
`vmm_free` unreserves the pages, unmaps them, and only then looks up which
frames they were mapped to: the lookups find nothing.  So in every state that
a run reaches, releasing a range restores the window, and keeps every frame
of it allocated (`kernelRun_vmmFree`).
-/
import Tomk.Mm.KernelRun

namespace Tomk

open WordBits

/-- The state before an allocation is there again. -/
structure Mm.Restored (m m' : Mm) : Prop where
  vmmBitmap : m'.vmm.bitmap = m.vmm.bitmap
  vmmFree : m'.vmm.freePages = m.vmm.freePages
  vmmUsed : m'.vmm.usedPages = m.vmm.usedPages
  present : ∀ va, (walk m'.mmu.mem m'.mmu.cr3 va).isSome = (walk m.mmu.mem m.mmu.cr3 va).isSome
  pmmBitmap : m'.pmm.bitmap = m.pmm.bitmap
  pmmFree : m'.pmm.freePages = m.pmm.freePages
  pmmUsed : m'.pmm.usedPages = m.pmm.usedPages

/-- An allocation that returned a range is undone by `vmm_free`. -/
def FreeRestores (alloc : Mm → U32 → Option (U32 × Mm)) (m : Mm) (n : U32) : Prop :=
  ∀ r m', alloc m n = some (r, m') → r ≠ 0 → ∃ m'', vmmFree m' r n = some m'' ∧ m.Restored m''

/-- The property as it is asked: in every state that a run reaches, for both
functions. -/
def VmmFreeRestores : Prop :=
  ∀ (L : Layout) (s : Space), KernelReach L s → ∀ n : U32,
    FreeRestores (vmmAlloc L) s.mm n ∧ FreeRestores (vmmAllocContiguous L) s.mm n

variable {L : Layout} {m u : Mm}

/-- A range of `n` pages is allocated at page `p`: it is reserved, the frames
are counted, and `pg_unmap` can reach it. -/
structure AllocatedAt (L : Layout) (m : Mm) (n : U32) (p : Nat) (u : Mm) : Prop where
  count : n ≠ 0
  first : FirstRun m.vmm.bitmap m.vmm.totalPages.toNat n.toNat p
  addr : m.vmm.addr p ≠ 0
  vmm : ∃ lr, u.vmm = m.vmm.reserved p n lr
  ready : u.Ready L
  frames : u.pmm.freePages = m.pmm.freePages - n

/-- What `vmm_alloc` returns is allocated. -/
theorem vmmAlloc_allocated (hm : m.Ready L) {n r : U32} (hr : vmmAlloc L m n = some (r, u))
    (h0 : r ≠ 0) : ∃ p, r = m.vmm.addr p ∧ AllocatedAt L m n p u := by
  rcases vmmAlloc_cases hm n with ⟨_, lr, hr'⟩ | ⟨hres, p, lr, F, u', hf, hp, hc⟩
  · rw [hr] at hr'
    cases hr'
    exact absurd rfl h0
  rcases hc with ⟨hlen, hback, hr'⟩ | ⟨_, _, _, hr'⟩
  · rw [hr] at hr'
    cases hr'
    have hm' := hm.reserved p n lr
    refine ⟨p, rfl, hres.1, hf, hp, ⟨lr, hback.vmm⟩, ⟨?_, ?_, ?_, ?_⟩, ?_⟩
    · rw [hback.vmm]
      exact hm'.vmm
    · exact hback.took.shape hm.pmm
    · exact (hback.took.ready hm').zero
    · rw [hback.vmm, hback.cr3]
      exact hm'.wired.touched hback.touched
    · rw [hback.took.frame, hlen, BitVec.ofNat_toNat, BitVec.setWidth_eq]
      rfl
  · rw [hr] at hr'
    cases hr'
    exact absurd rfl h0

/-- What `vmm_alloc_contiguous` returns is allocated. -/
theorem vmmAllocContiguous_allocated (hm : m.Ready L) {n r : U32}
    (hr : vmmAllocContiguous L m n = some (r, u)) (h0 : r ≠ 0) :
    ∃ p, r = m.vmm.addr p ∧ AllocatedAt L m n p u := by
  rcases vmmAllocContiguous_cases hm n with ⟨_, lr, hr'⟩ | ⟨hres, p, lr, hf, hp, hc⟩
  · rw [hr] at hr'
    cases hr'
    exact absurd rfl h0
  rcases hc with ⟨hphys, mem', ht, hr'⟩ | ⟨_, hr'⟩
  · rw [hr] at hr'
    cases hr'
    have hm' := hm.reserved p n lr
    have hshape := pmmAlloc_shape hm.pmm n
    rcases pmmAlloc_cases hm.pmm n with ⟨_, _, ha⟩ | ⟨q, hint, lr', _, _, _, _, ha⟩
    · rw [ha] at hphys
      exact absurd rfl hphys
    · rw [ha] at hshape ⊢
      refine ⟨p, rfl, hres.1, hf, hp, ⟨lr, rfl⟩, ⟨hm'.vmm, hshape, fun hz => ?_, ?_⟩, rfl⟩
      · show test (setRun m.pmm.bitmap q n.toNat) 0 = true
        rw [test_setRun, hm.zero hz, Bool.or_true]
      · exact hm'.wired.touched ht.touched
  · rw [hr] at hr'
    cases hr'
    exact absurd rfl h0

/-- **Releasing it** restores the window, and no frame. -/
theorem AllocatedAt.free {n : U32} {p : Nat} (hm : m.Ready L) (h : AllocatedAt L m n p u) :
    ∃ m'', vmmFree u (m.vmm.addr p) n = some m'' ∧
      (m''.vmm.bitmap = m.vmm.bitmap ∧ m''.vmm.freePages = m.vmm.freePages ∧
        m''.vmm.usedPages = m.vmm.usedPages) ∧
      m''.pmm = u.pmm ∧ m''.pmm.freePages = m.pmm.freePages - n ∧ ¬ m.Restored m'' := by
  obtain ⟨lr, hv⟩ := h.vmm
  have hle : p + n.toNat ≤ m.vmm.totalPages.toNat := h.first.le_total
  have hpos := toNat_pos_of_ne h.count
  have htot : u.vmm.totalPages = m.vmm.totalPages := by rw [hv]; rfl
  have haddr : u.vmm.addr p = m.vmm.addr p := by rw [hv]; rfl
  obtain ⟨mem', hrun, _⟩ := vmmFree_eq h.ready.windowed (p := p) (n := n) (by rw [htot]; exact hle)
    (by rw [htot]; omega)
  rw [haddr, hv, vmmUnreserve_reserved hm.vmm h.count h.first h.addr] at hrun
  refine ⟨_, hrun, ⟨rfl, rfl, rfl⟩, rfl, h.frames, fun hback => ?_⟩
  -- the counter of the frames has moved
  have hcount : u.pmm.freePages = m.pmm.freePages := hback.pmmFree
  rw [h.frames] at hcount
  exact sub_ne_self h.count hcount

/-- **No release is complete.**  In every state that a run reaches and for
every count, if either function returns a range, `vmm_free` of it restores
the window, gives no frame back, and so does not restore the state. -/
theorem kernelRun_vmmFree {s : Space} (h : KernelReach L s) {n r : U32}
    (hr : vmmAlloc L s.mm n = some (r, u) ∨ vmmAllocContiguous L s.mm n = some (r, u))
    (h0 : r ≠ 0) :
    ∃ m'', vmmFree u r n = some m'' ∧
      (m''.vmm.bitmap = s.mm.vmm.bitmap ∧ m''.vmm.freePages = s.mm.vmm.freePages ∧
        m''.vmm.usedPages = s.mm.vmm.usedPages) ∧
      m''.pmm = u.pmm ∧ m''.pmm.freePages = s.mm.pmm.freePages - n ∧ ¬ s.mm.Restored m'' := by
  have hm := h.inv.ready
  rcases hr with hr | hr
  · obtain ⟨p, rfl, ha⟩ := vmmAlloc_allocated hm hr h0
    exact ha.free hm
  · obtain ⟨p, rfl, ha⟩ := vmmAllocContiguous_allocated hm hr h0
    exact ha.free hm

/-! ## One page of the small machine -/

theorem smallImage_alloc : ∃ s r m', KernelReach smallLayout s ∧
    vmmAlloc smallLayout s.mm 1 = some (r, m') ∧ r ≠ 0 := by
  obtain ⟨s, hs⟩ := smallImage_start
  have hfree : 1 ≤ s.mm.pmm.freePages := by
    rw [BitVec.le_def]
    exact Nat.le_of_succ_le hs.frames
  obtain ⟨r, m', hr, h0⟩ := vmmAlloc_enough hs.consistent hs.page hfree
  exact ⟨s, r, m', .start hs.start, hr, h0⟩

/-- It is allocated and released, and its frame stays allocated. -/
theorem vmmFree_keeps_frame : ¬ VmmFreeRestores := by
  intro hall
  obtain ⟨s, r, m', hs, hr, h0⟩ := smallImage_alloc
  have hm := hs.inv.ready
  obtain ⟨m'', hrun, hback⟩ := (hall smallLayout s hs 1).1 r m' hr h0
  obtain ⟨p, rfl, ha⟩ := vmmAlloc_allocated hm hr h0
  obtain ⟨m₂, hrun', _, _, _, hno⟩ := ha.free hm
  rw [hrun] at hrun'
  cases hrun'
  exact hno hback

theorem kernelRun_vmmFree_small : ∃ s r m' m'', KernelReach smallLayout s ∧
    vmmAlloc smallLayout s.mm 1 = some (r, m') ∧ vmmFree m' r 1 = some m'' ∧
    m''.pmm.freePages = s.mm.pmm.freePages - 1 ∧ ¬ s.mm.Restored m'' := by
  obtain ⟨s, r, m', hs, hr, h0⟩ := smallImage_alloc
  obtain ⟨m'', hrun, _, _, hfree, hno⟩ := kernelRun_vmmFree hs (Or.inl hr) h0
  exact ⟨s, r, m', m'', hs, hr, hrun, hfree, hno⟩

end Tomk
