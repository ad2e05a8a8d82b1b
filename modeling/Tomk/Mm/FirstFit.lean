/-
# What the searches find

The two searches for a run of pages are first-fit and complete, at every page
count: what they return is the lowest run that fits, and they return 0 exactly
where none fits (`findContiguousPages_first_fit`).  They can say so with one
word because no run starts at address 0: page 0 of a window at address 0 is in
use, and so is frame 0.

The search for a single frame starts at the hint and wraps around, a word at a
time.  In a consistent state it is complete from any hint, one behind the last
page included (`pmmAlloc_one_next`).
-/
import Tomk.Mm.VmmAccount

namespace Tomk

open WordBits CFor

variable {b : Words 32} {v : Vmm} {s : Pmm}

/-! ## Runs of pages -/

/-- There is one first run. -/
theorem FirstRun.unique {total count p q : Nat} (hp : FirstRun b total count p)
    (hq : FirstRun b total count q) : p = q := by
  rcases Nat.lt_trichotomy p q with hlt | heq | hgt
  · exact absurd hp.free (hq.first p hlt)
  · exact heq
  · exact absurd hq.free (hp.first q hgt)

/-- No run of `count` clear pages lies below `total`. -/
def NoRun (b : Words 32) (total count : Nat) : Prop :=
  ∀ q, q + count ≤ total → ¬ FreeRun b q count

/-- The search returns the first run, and nothing exactly where there is none. -/
theorem findContiguousPages_spec {size total count : U32} (hc : count ≠ 0)
    (hsize : total.toNat ≤ size.toNat / 4 * 32) :
    (∀ p, FirstRun b total.toNat count.toNat p →
      (findContiguousPages b size total count).1 = some p) ∧
    (NoRun b total.toNat count.toNat → (findContiguousPages b size total count).1 = none) ∧
    ((∃ p, FirstRun b total.toNat count.toNat p) ∨ NoRun b total.toNat count.toNat) := by
  rcases findContiguousPages_cases (b := b) hc hsize with ⟨p, hr, hf⟩ | ⟨lr, hr, hno⟩
  · refine ⟨fun q hq => ?_, fun hno => absurd hf.free (hno p hf.le_total), Or.inl ⟨p, hf⟩⟩
    rw [hr, hf.unique hq]
  · refine ⟨fun q hq => absurd hq.free (hno q hq.le_total), fun _ => ?_, Or.inr hno⟩
    rw [hr]

/-- A run at an address that is not `NULL`. -/
theorem Vmm.Sized.run_ne_zero (h : v.Sized) (h0 : v.base ≠ 0 ∨ test v.bitmap 0 = true) {p n : Nat}
    (hn : 0 < n) (hp : p + n ≤ v.totalPages.toNat) (hf : FreeRun v.bitmap p n) : v.addr p ≠ 0 := by
  intro hz
  have h1 := h.toNat_addr (show p < v.totalPages.toNat by omega)
  have h2 : (0 : U32).toNat = 0 := rfl
  rw [hz, h2] at h1
  rcases h0 with hb | hset
  · exact hb (BitVec.eq_of_toNat_eq (by rw [h2]; omega))
  · have hclr := hf 0 hn
    rw [show p + 0 = 0 by omega, hset] at hclr
    exact Bool.noConfusion hclr

/-- **First fit.**  For every bitmap, page count and `count > 0`: what
`vmm_find_contiguous_pages` returns is the address of the first run of `count`
clear pages, and 0 exactly if there is none; and `pmm_find_contiguous_pages`
returns its page number. -/
theorem findContiguousPages_first_fit :
    (∀ (v : Vmm) (count : U32), v.Sized → (v.base ≠ 0 ∨ test v.bitmap 0 = true) → count ≠ 0 →
      (∀ p, FirstRun v.bitmap v.totalPages.toNat count.toNat p →
        (vmmFindContiguousPages v count).1 = v.base + toAddr (BitVec.ofNat 32 p)) ∧
      ((vmmFindContiguousPages v count).1 = 0 ↔ NoRun v.bitmap v.totalPages.toNat count.toNat)) ∧
    (∀ (s : Pmm) (count : U32), s.bitmapSize.toNat = (s.totalPages.toNat + 31) / 32 * 4 →
      test s.bitmap 0 = true → count ≠ 0 →
      (∀ p, FirstRun s.bitmap s.totalPages.toNat count.toNat p →
        (pmmFindContiguousPages s count).1.toNat = p) ∧
      ((pmmFindContiguousPages s count).1 = 0 ↔
        NoRun s.bitmap s.totalPages.toNat count.toNat)) := by
  constructor
  · intro v count hv h0 hc
    have hpos := toNat_pos_of_ne hc
    obtain ⟨hsome, hnone, hor⟩ := findContiguousPages_spec (b := v.bitmap) hc hv.words
    have hfound : ∀ p, FirstRun v.bitmap v.totalPages.toNat count.toNat p →
        (vmmFindContiguousPages v count).1 = v.base + toAddr (BitVec.ofNat 32 p) := by
      intro p hp
      simp only [vmmFindContiguousPages, hsome p hp]
    refine ⟨hfound, fun hz => ?_, fun hno => ?_⟩
    · rcases hor with ⟨p, hp⟩ | hno
      · rw [hfound p hp] at hz
        exact absurd hz (hv.run_ne_zero h0 hpos hp.le_total hp.free)
      · exact hno
    · simp only [vmmFindContiguousPages, hnone hno]
  · intro s count hs h0 hc
    have hpos := toNat_pos_of_ne hc
    obtain ⟨hsome, hnone, hor⟩ := findContiguousPages_spec (b := s.bitmap) hc
      (show s.totalPages.toNat ≤ s.bitmapSize.toNat / 4 * 32 by rw [hs]; omega)
    have hfound : ∀ p, FirstRun s.bitmap s.totalPages.toNat count.toNat p →
        (pmmFindContiguousPages s count).1.toNat = p := by
      intro p hp
      have hle := hp.le_total
      have hlt := s.totalPages.isLt
      simp only [pmmFindContiguousPages, hsome p hp]
      rw [BitVec.toNat_ofNat]
      omega
    refine ⟨hfound, fun hz => ?_, fun hno => ?_⟩
    · rcases hor with ⟨p, hp⟩ | hno
      · -- frame 0 is in use
        have hp0 := hfound p hp
        rw [hz] at hp0
        have hclr := hp.free 0 hpos
        rw [← hp0, show (0 : U32).toNat + 0 = 0 from rfl, h0] at hclr
        exact Bool.noConfusion hclr
      · exact hno
    · simp only [pmmFindContiguousPages, hnone hno]

/-- Three pages of an empty window, and of the small machine. -/
theorem findContiguousPages_first_fit_small :
    ((vmmFindContiguousPages smallVmm 3).1 = 0 ↔ NoRun smallVmm.bitmap 32 3) ∧
      ((pmmFindContiguousPages smallPmm 3).1 = 0 ↔ NoRun smallPmm.bitmap 16 3) :=
  ⟨(findContiguousPages_first_fit.1 smallVmm 3 smallMm_consistent.vmm.toWindow.sized
      (Or.inl (by decide)) (by decide)).2,
    (findContiguousPages_first_fit.2 smallPmm 3 smallMm_consistent.pmm.shape.size_eq
      (smallMm_consistent.pmm.zero (by decide +kernel)) (by decide)).2⟩

/-! ## One frame -/

/-- The frame `pmm_alloc(1)` is to return: the first clear page at or after the
hint or, if there is none, the first clear page of all. -/
structure Pmm.NextClear (s : Pmm) (p : Nat) : Prop extends s.Clear p where
  next : (s.hint.toNat ≤ p ∧ ∀ q, s.hint.toNat ≤ q → q < p → test s.bitmap q = true) ∨
    ((∀ q, s.hint.toNat ≤ q → ¬ s.Clear q) ∧ ∀ q, q < p → test s.bitmap q = true)

/-- A hint behind the last page is no hint. -/
theorem Pmm.FirstClear.nextClear {p : Nat} (h : s.FirstClear p) : s.NextClear p := by
  refine ⟨h.toClear, ?_⟩
  have hfirst := h.first
  rw [Pmm.startHint] at hfirst
  by_cases hh : s.totalPages ≤ s.hint
  · have hnone : ∀ q, s.hint.toNat ≤ q → ¬ s.Clear q := by
      intro q hq hc
      have hlt := hc.lt_total
      rw [BitVec.le_def] at hh
      omega
    rw [if_pos hh] at hfirst
    rcases hfirst with ⟨_, hbelow⟩ | ⟨_, hbelow⟩
    · exact Or.inr ⟨hnone, fun q hq => hbelow q (Nat.zero_le q) hq⟩
    · exact Or.inr ⟨hnone, hbelow⟩
  · rw [if_neg hh] at hfirst
    rcases hfirst with hup | ⟨hused, hbelow⟩
    · exact Or.inl hup
    · refine Or.inr ⟨fun q hq hc => ?_, hbelow⟩
      have hset := hused q hq hc.lt_total
      rw [hc.clear] at hset
      exact Bool.noConfusion hset

/-- **Completeness from any hint.**  In a consistent state `pmm_alloc(1)`
returns the next clear page, sets its bit and no other, and leaves a hint below
the last page; or no page is clear, and it returns 0 and changes nothing. -/
theorem pmmAlloc_one_next (h : s.Consistent) :
    (∃ p hint, s.NextClear p ∧ hint.toNat < s.totalPages.toNat ∧
      (pmmAlloc s 1).1.toNat = p * 4096 ∧ (pmmAlloc s 1).1 ≠ 0 ∧
      (pmmAlloc s 1).2 = { s with
        bitmap := setBit s.bitmap p
        freePages := s.freePages - 1
        usedPages := s.usedPages + 1
        hint := hint }) ∨
    ((∀ p, ¬ s.Clear p) ∧ pmmAlloc s 1 = (0, s)) := by
  have htl := h.shape.total_lt
  by_cases hfree : s.freePages = 0
  · refine Or.inr ⟨fun p hp => ?_, ?_⟩
    · have hpos := clearCount_pos.mpr ⟨p, hp.lt_total, hp.clear⟩
      rw [← h.counted, hfree] at hpos
      exact absurd hpos (Nat.lt_irrefl 0)
    · have hlt : s.freePages < 1 := by
        rw [hfree]
        decide
      simp only [pmmAlloc, if_neg (show ¬ (1 : U32) = 0 by decide), if_pos hlt]
  · have hlt : ¬ s.freePages < 1 := by
      have hpos := toNat_pos_of_ne hfree
      have h1 : (1 : U32).toNat = 1 := rfl
      rw [BitVec.lt_def]
      omega
    have hrun : pmmAlloc s 1 = pmmAllocOne s := by
      simp only [pmmAlloc, if_neg (show ¬ (1 : U32) = 0 by decide), if_neg hlt, if_true]
    rw [hrun]
    rcases pmmAllocOne_cases h.shape with ⟨h0, _⟩ | ⟨p, hint, _, hc, hfirst, _, hh, hr⟩ | ⟨_, hno, _⟩
    · exact absurd h0 hfree
    · have hp := hc.lt_total
      have hrun1 : FreeRun s.bitmap p 1 := by
        intro i hi
        rw [show p + i = p by omega]
        exact hc.clear
      have hp0 := h.run_pos Nat.one_pos (by omega) hrun1
      have haddr : (toAddr (BitVec.ofNat 32 p)).toNat = p * 4096 := by
        rw [toNat_toAddr, toNat_ofNat_page (by omega)]
        omega
      refine Or.inl ⟨p, hint, (hfirst h.tail).nextClear, ?_, ?_, ?_, ?_⟩
      · rcases hh with rfl | hh
        · show 0 < s.totalPages.toNat
          omega
        · exact hh
      · rw [hr]
        exact haddr
      · rw [hr]
        exact (runAddr hp0 (by omega)).1
      · rw [hr]
        rfl
    · obtain ⟨p, hp⟩ := h.exists_clear hfree
      exact absurd hp (hno h.tail p)

/-- The small machine, from the hint `pmm_init` leaves. -/
theorem pmmAlloc_one_next_small :
    (∃ p hint, smallPmm.NextClear p ∧ hint.toNat < smallPmm.totalPages.toNat ∧
      (pmmAlloc smallPmm 1).1.toNat = p * 4096 ∧ (pmmAlloc smallPmm 1).1 ≠ 0 ∧
      (pmmAlloc smallPmm 1).2 = { smallPmm with
        bitmap := setBit smallPmm.bitmap p
        freePages := smallPmm.freePages - 1
        usedPages := smallPmm.usedPages + 1
        hint := hint }) ∨
    ((∀ p, ¬ smallPmm.Clear p) ∧ pmmAlloc smallPmm 1 = (0, smallPmm)) :=
  pmmAlloc_one_next smallMm_consistent.pmm

end Tomk
