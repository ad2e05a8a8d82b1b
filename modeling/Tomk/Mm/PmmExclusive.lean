/-
# Exclusive ranges

Two searches hand out pages: the hinted scan of `pmm_alloc_one` for a single
page and the run search for several.  What they must never disagree about is
which pages are free, and the property of a run that says so is `Exclusive`:
the live ranges are pairwise disjoint, none has page 0 or a page the machine
does not have, and all their pages were free when the first allocation was
made (`PmmReady`: after `pmm_init` and the `pmm_mark_used` calls of the boot).

The hint decides where a search begins and nothing else.  To say so the runs
here may also set it to any value between two calls (`HintedStep`).  And the
releases may be of any count: `pmm_free` clears too few bits for a count above
1, which loses pages but gives none of them out twice.

The invariant does not speak of the counters, which such a release puts out of
step with the bitmap.
-/
import Tomk.Mm.PmmAccount

namespace Tomk

open WordBits Runs

/-- The states before the first allocation: `pmm_init`, and then any calls of
`pmm_mark_used`. -/
def PmmReady (s : Pmm) : Prop :=
  ∃ (s0 : Pmm) (marks : List (U32 × U32)), PmmStart s0 ∧
    s = marks.foldl (fun s m => pmmMarkUsed s m.1 m.2) s0

inductive HintedCall where
  | call (a : PmmCall)
  | hint (h : U32)

/-- A call, or any change of the search hint. -/
inductive HintedStep : HintedCall → PmmRun → PmmRun → Prop
  | call {a : PmmCall} {r r' : PmmRun} : PmmStep a r r' → HintedStep (.call a) r r'
  | hint (h : U32) (r : PmmRun) : HintedStep (.hint h) r ⟨{ r.pmm with hint := h }, r.live⟩

/-- The live ranges exclude each other and lie in the pages `start` has free. -/
structure Exclusive (start : Pmm) (r : PmmRun) : Prop where
  disjoint : r.live.Pairwise RangesDisjoint
  page_ne_zero : ∀ x ∈ r.live, 0 < x.1.toNat / 4096
  below_total : ∀ x ∈ r.live, x.1.toNat / 4096 + x.2.toNat ≤ start.totalPages.toNat
  was_free : ∀ x ∈ r.live, ∀ i, i < x.2.toNat →
    test start.bitmap (x.1.toNat / 4096 + i) = false

theorem PmmReady.consistent {s : Pmm} (h : PmmReady s) : s.Consistent := by
  obtain ⟨s0, marks, ⟨before, map, _, rfl⟩, rfl⟩ := h
  generalize hs : pmmFill (pmmSizes before map) map = s
  have hc : s.Consistent := hs ▸ pmmInit_consistent before map
  clear hs
  induction marks generalizing s with
  | nil => exact hc
  | cons m marks ih => exact ih _ (pmmMarkUsed_consistent hc m.1 m.2)

/-! ## The invariant -/

/-- The bits are those of `start` except for pages given out since: what is
free now was free then, and so was what is live. -/
structure PmmRun.From (start : Pmm) (r : PmmRun) : Prop where
  shape : r.pmm.Shape
  total : r.pmm.totalPages = start.totalPages
  zero : 0 < start.totalPages.toNat → test r.pmm.bitmap 0 = true
  clear : ∀ q, test r.pmm.bitmap q = false → test start.bitmap q = false
  live : LiveRanges r.pmm r.live
  was_free : ∀ x ∈ r.live, ∀ i, i < x.2.toNat →
    test start.bitmap (x.1.toNat / 4096 + i) = false

variable {start : Pmm} {r r' : PmmRun}

theorem PmmRun.From.init (h : start.Consistent) : PmmRun.From start ⟨start, []⟩ where
  shape := h.shape
  total := rfl
  zero := h.zero
  clear := fun _ hq => hq
  live := LiveRanges.nil start
  was_free := fun _ hx => absurd hx List.not_mem_nil

/-- Every range `pmm_alloc` returns was free at the start. -/
theorem PmmRun.From.alloc (h : PmmRun.From start r) (n : U32) :
    PmmRun.From start ⟨(pmmAlloc r.pmm n).2,
      if (pmmAlloc r.pmm n).1 = 0 then r.live else ((pmmAlloc r.pmm n).1, n) :: r.live⟩ := by
  have hz : 0 < r.pmm.totalPages.toNat → test r.pmm.bitmap 0 = true := h.total ▸ h.zero
  have hlive := h.live.alloc h.shape hz n
  have hshape := pmmAlloc_shape h.shape n
  rcases pmmAlloc_cases h.shape n with ⟨hint, lr, hr⟩ | ⟨p, hint, lr, hn, _, hp, hf, hr⟩
  · rw [hr, if_pos rfl] at hlive ⊢
    rw [hr] at hshape
    exact ⟨hshape, h.total, h.zero, h.clear, hlive, h.was_free⟩
  · have hp0 := freeRun_pos hz (toNat_pos_of_ne hn) hp hf
    have htl := h.shape.total_lt
    obtain ⟨hne, hdiv, _⟩ := runAddr hp0 (by have := toNat_pos_of_ne hn; omega)
    rw [hr, if_neg hne] at hlive ⊢
    rw [hr] at hshape
    refine ⟨hshape, h.total, fun h0 => ?_, fun q hq => ?_, hlive, fun x hx i hi => ?_⟩
    · show test (setRun r.pmm.bitmap p n.toNat) 0 = true
      rw [test_setRun, h.zero h0, Bool.or_true]
    · have hq' : test (setRun r.pmm.bitmap p n.toNat) q = false := hq
      rw [test_setRun, Bool.or_eq_false_iff] at hq'
      exact h.clear q hq'.2
    · rcases List.mem_cons.mp hx with rfl | hx
      · show test start.bitmap ((toAddr (BitVec.ofNat 32 p)).toNat / 4096 + i) = false
        rw [hdiv]
        exact h.clear _ (hf i hi)
      · exact h.was_free x hx i hi

/-- A release makes a page free that was live. -/
theorem PmmRun.From.free (h : PmmRun.From start r) {phys n : U32} (hx : (phys, n) ∈ r.live) :
    PmmRun.From start ⟨pmmFree r.pmm phys n, r.live.erase (phys, n)⟩ := by
  have hlive := h.live.free h.shape hx
  have hshape := pmmFree_shape h.shape phys n
  obtain ⟨hf, hpos, _⟩ := h.live.ranges _ hx
  have hpos' : 0 < phys.toNat / 4096 := hpos
  rw [pmmFree_eq h.shape hf] at hlive hshape ⊢
  refine ⟨hshape, h.total, fun h0 => ?_, fun q hq => ?_, hlive,
    fun y hy => h.was_free y (List.mem_of_mem_erase hy)⟩
  · show test (clearBit r.pmm.bitmap (phys.toNat / 4096)) 0 = true
    rw [test_clearBit, decide_eq_false (by omega), h.zero h0]
    rfl
  · have hq' : test (clearBit r.pmm.bitmap (phys.toNat / 4096)) q = false := hq
    by_cases hqp : q = phys.toNat / 4096
    · -- the page given back was live, so it was free at the start
      rw [hqp]
      exact h.was_free _ hx 0 (toNat_pos_of_ne hf.count_ne)
    · rw [test_clearBit, decide_eq_false hqp] at hq'
      exact h.clear q hq'

theorem PmmRun.From.hint (h : PmmRun.From start r) (v : U32) :
    PmmRun.From start ⟨{ r.pmm with hint := v }, r.live⟩ :=
  ⟨⟨h.shape.total_lt, h.shape.size_eq⟩, h.total, h.zero, h.clear,
    ⟨fun x hx => (h.live.ranges x hx).mono rfl (h.live.ranges x hx).used, h.live.disjoint⟩,
    h.was_free⟩

theorem PmmRun.From.step {a : HintedCall} (h : PmmRun.From start r) (hs : HintedStep a r r') :
    PmmRun.From start r' := by
  cases hs with
  | hint v => exact h.hint v
  | call hs =>
      cases hs with
      | alloc n => exact h.alloc n
      | free hx => exact h.free hx

/-- **Exclusivity.**  In every state of every run, whatever the hint is set to
on the way. -/
theorem pmmRun_exclusive (hstart : PmmReady start)
    (h : Reach (fun r => r = ⟨start, []⟩) HintedStep r) : Exclusive start r := by
  have hfrom : PmmRun.From start r :=
    h.invariant (PmmRun.From start)
      (fun s (hs : s = ⟨start, []⟩) => hs ▸ PmmRun.From.init hstart.consistent)
      (fun _ _ _ hi hs => hi.step hs)
  refine ⟨hfrom.live.disjoint, fun x hx => (hfrom.live.ranges x hx).pos, fun x hx => ?_,
    hfrom.was_free⟩
  rw [← hfrom.total]
  exact (hfrom.live.ranges x hx).frees.in_range

/-- A run on a small machine: two pages taken at once, the hint moved back to
0, and one page taken. -/
theorem pmmRun_exclusive_small :
    Exclusive (pmmMarkUsed smallPmm 0x1000 0x2000)
      ⟨(pmmAlloc { (pmmAlloc (pmmMarkUsed smallPmm 0x1000 0x2000) 2).2 with hint := 0 } 1).2,
        [(0x5000, 1), (0x3000, 2)]⟩ := by
  have hready : PmmReady (pmmMarkUsed smallPmm 0x1000 0x2000) :=
    ⟨smallPmm, [(0x1000, 0x2000)], smallPmm_start.1, rfl⟩
  generalize hs : pmmMarkUsed smallPmm 0x1000 0x2000 = s at hready ⊢
  have h2 : (pmmAlloc s 2).1 = 0x3000 := by
    rw [← hs]
    decide +kernel
  have h1 : (pmmAlloc { (pmmAlloc s 2).2 with hint := 0 } 1).1 = 0x5000 := by
    rw [← hs]
    decide +kernel
  have r0 : Reach (fun r => r = ⟨s, []⟩) HintedStep ⟨s, []⟩ := .start rfl
  have t1 := PmmStep.alloc 2 ⟨s, []⟩
  rw [h2] at t1
  have t3 := PmmStep.alloc 1 ⟨{ (pmmAlloc s 2).2 with hint := 0 }, [(0x3000, 2)]⟩
  rw [h1] at t3
  have r2 := (r0.next (.call t1)).next (.hint 0 ⟨(pmmAlloc s 2).2, [(0x3000, 2)]⟩)
  exact pmmRun_exclusive hready (r2.next (.call t3))

end Tomk
