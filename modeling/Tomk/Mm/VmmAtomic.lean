/-
# What a failed allocation leaves

`vmm_alloc` and `vmm_alloc_contiguous` reserve the whole range before they
ask for the first frame.  When the frames run out, the first gives back the
frames and the pages it has mapped so far, and the second gives back
nothing; neither takes the reservation of the other pages back, nor the
counters.  So a failure is atomic exactly when it comes before the
reservation: when the range cannot be reserved, or when, the range being
reserved, the frames cannot run out (`vmmAlloc_atomic_iff`).
-/
import Tomk.Init.Entry
import Tomk.Mm.VmmBack

namespace Tomk

open WordBits

/-- The bitmaps, the counters and the page tables of two states agree. -/
structure Mm.SameState (m m' : Mm) : Prop where
  vmmBitmap : m'.vmm.bitmap = m.vmm.bitmap
  vmmFree : m'.vmm.freePages = m.vmm.freePages
  vmmUsed : m'.vmm.usedPages = m.vmm.usedPages
  tables : m'.mmu.mem = m.mmu.mem
  pmmBitmap : m'.pmm.bitmap = m.pmm.bitmap
  pmmFree : m'.pmm.freePages = m.pmm.freePages
  pmmUsed : m'.pmm.usedPages = m.pmm.usedPages

/-- A state whose counters count, over tables that can be reached. -/
structure Mm.Consistent (L : Layout) (m : Mm) : Prop where
  vmm : m.vmm.Shape
  vmmCounted : m.vmm.freePages.toNat = clearCount m.vmm.bitmap m.vmm.totalPages.toNat
  pmm : m.pmm.Consistent
  wired : Wired L (pdIndex m.vmm.base).toNat m.mmu.mem m.mmu.cr3

/-- The call returns, and if it returns `NULL` the state is as before. -/
def FailsAtomically (alloc : Mm → U32 → Option (U32 × Mm)) (m : Mm) (n : U32) : Prop :=
  ∃ r m', alloc m n = some (r, m') ∧ (r = 0 → m.SameState m')

/-- The property as it is asked: of both functions, in every state. -/
def VmmAllocAtomic : Prop :=
  ∀ (L : Layout) (m : Mm) (n : U32), m.Consistent L →
    FailsAtomically (vmmAlloc L) m n ∧ FailsAtomically (vmmAllocContiguous L) m n

/-- A run of `n` free frames is there. -/
def Pmm.HasRun (s : Pmm) (n : U32) : Prop :=
  ∃ q, q + n.toNat ≤ s.totalPages.toNat ∧ FreeRun s.bitmap q n.toNat

variable {L : Layout} {m : Mm}

theorem Mm.Consistent.ready (h : m.Consistent L) : m.Ready L :=
  ⟨h.vmm, h.pmm.shape, h.pmm.zero, h.wired⟩

/-- Failing to find a range changes nothing but the statistics. -/
theorem Mm.sameState_largestRun (m : Mm) (lr : U32) :
    m.SameState { m with vmm := { m.vmm with largestRun := lr } } :=
  ⟨rfl, rfl, rfl, rfl, rfl, rfl, rfl⟩

/-- A state that kept the reservation is not the state before. -/
theorem Mm.not_sameState_reserved {m' : Mm} {n : U32} (hn : n ≠ 0)
    (h : m'.vmm.freePages = m.vmm.freePages - n) : ¬ m.SameState m' := by
  intro hs
  have h1 := hs.vmmFree
  rw [h] at h1
  exact sub_ne_self hn h1

/-- When frames run out under `vmm_alloc`, the reservation is kept. -/
theorem vmmAlloc_short (h : m.Consistent L) {n : U32} (hres : m.vmm.Reservable n)
    (hshort : ¬ n ≤ m.pmm.freePages) :
    ∃ m', vmmAlloc L m n = some (0, m') ∧ ¬ m.SameState m' := by
  rcases vmmAlloc_cases h.ready n with ⟨hno, _⟩ | ⟨_, p, lr, F, u, _, _, hc⟩
  · exact absurd hres hno
  rcases hc with ⟨hlen, hback, _⟩ | ⟨_, _, hun, hr⟩
  · have hleft := hback.took.free_left h.pmm
    rw [show (m.withReserved p n lr).pmm = m.pmm from rfl] at hleft
    rw [BitVec.le_def] at hshort
    omega
  · refine ⟨u, hr, Mm.not_sameState_reserved hres.1 ?_⟩
    rw [hun.vmm]
    rfl

/-- While frames are left, `vmm_alloc` does not fail after the reservation. -/
theorem vmmAlloc_enough (h : m.Consistent L) {n : U32} (hres : m.vmm.Reservable n)
    (henough : n ≤ m.pmm.freePages) :
    ∃ r m', vmmAlloc L m n = some (r, m') ∧ r ≠ 0 := by
  rcases vmmAlloc_cases h.ready n with ⟨hno, _⟩ | ⟨_, p, lr, F, u, _, h0, hc⟩
  · exact absurd hres hno
  rcases hc with ⟨_, _, hr⟩ | ⟨hlt, hlen, _⟩
  · exact ⟨_, u, hr, h0⟩
  · have := hlen h.pmm
    rw [BitVec.le_def] at henough
    omega

/-- **Failure atomicity.**  Both functions always return; a `NULL` they
return leaves the state as it was exactly when the physical side cannot fail
once the range is reserved: with a free frame for every page for
`vmm_alloc`, with a run of free frames for `vmm_alloc_contiguous`. -/
theorem vmmAlloc_atomic_iff (h : m.Consistent L) (n : U32) :
    (FailsAtomically (vmmAlloc L) m n ↔ (m.vmm.Reservable n → n ≤ m.pmm.freePages)) ∧
      (FailsAtomically (vmmAllocContiguous L) m n ↔ (m.vmm.Reservable n → m.pmm.HasRun n)) := by
  constructor
  · constructor
    · rintro ⟨r, m', hr, hsame⟩ hres
      by_contra hshort
      obtain ⟨m'', hr', hno⟩ := vmmAlloc_short h hres hshort
      rw [hr] at hr'
      cases hr'
      exact hno (hsame rfl)
    · intro henough
      rcases vmmAlloc_cases h.ready n with ⟨_, lr, hr⟩ | ⟨hres, _⟩
      · exact ⟨0, _, hr, fun _ => m.sameState_largestRun lr⟩
      · obtain ⟨r, m', hr, hne⟩ := vmmAlloc_enough h hres (henough hres)
        exact ⟨r, m', hr, fun h0 => absurd h0 hne⟩
  · rcases vmmAllocContiguous_cases h.ready n with ⟨hno, lr, hr⟩ | ⟨hres, p, lr, _, h0, hc⟩
    · exact ⟨fun _ hres => absurd hres hno, fun _ => ⟨0, _, hr, fun _ => m.sameState_largestRun lr⟩⟩
    · have hphys := pmmAlloc_ne_zero_iff h.pmm hres.1
      rcases hc with ⟨hne, mem', _, hr⟩ | ⟨he, hr⟩
      · exact ⟨fun _ _ => hphys.mp hne, fun _ => ⟨_, _, hr, fun hz => absurd hz h0⟩⟩
      · constructor
        · rintro ⟨r, m', hr', hsame⟩ _
          rw [hr] at hr'
          cases hr'
          exact absurd (hsame rfl) (Mm.not_sameState_reserved hres.1 rfl)
        · intro hrun
          exact absurd he (hphys.mpr (hrun hres))

/-! ## A window of 32 pages and 15 frames -/

def smallVmm : Vmm := ⟨fun _ => 0, 4, 32, 32, 32, 0, 0, kvirt, kvirt + 0x20000⟩

/-- The small machine under the boot directory. -/
def smallMm : Mm :=
  ⟨smallVmm, smallPmm, ⟨recursiveTables smallLayout (fun _ _ => 0), smallLayout.pgPd⟩⟩

theorem smallMm_consistent : smallMm.Consistent smallLayout where
  vmm := ⟨by constructor <;> decide, fun h => absurd h (by decide)⟩
  vmmCounted := by decide
  pmm := pmmInit_consistent zeroPmm smallMap
  wired := (recursiveTables_dir smallLayout fun _ => rfl).1.wired

theorem smallMm_reservable : smallMm.vmm.Reservable 16 :=
  ⟨by decide, by decide, 0, by decide, fun i _ => by simp [smallMm, smallVmm, test]⟩

/-- 16 pages can be reserved and only 15 frames are free. -/
theorem vmmAlloc_sixteen_pages : ¬ VmmAllocAtomic := by
  intro hall
  obtain ⟨⟨r, m', hr, hsame⟩, _⟩ := hall smallLayout smallMm 16 smallMm_consistent
  obtain ⟨m'', hr', hno⟩ := vmmAlloc_short smallMm_consistent smallMm_reservable
    (by decide +kernel)
  rw [hr] at hr'
  cases hr'
  exact hno (hsame rfl)

/-- Three pages, for which there are frames. -/
theorem vmmAlloc_atomic_three :
    (FailsAtomically (vmmAlloc smallLayout) smallMm 3 ↔
        (smallMm.vmm.Reservable 3 → 3 ≤ smallMm.pmm.freePages)) ∧
      (FailsAtomically (vmmAllocContiguous smallLayout) smallMm 3 ↔
        (smallMm.vmm.Reservable 3 → smallMm.pmm.HasRun 3)) :=
  vmmAlloc_atomic_iff smallMm_consistent 3

end Tomk
