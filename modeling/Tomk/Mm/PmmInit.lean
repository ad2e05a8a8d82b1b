/-
# The state `pmm_init` leaves

`pmm_mark_free` and `pmm_mark_used` both give every page of a range one
value, skipping the pages that have it already and the pages the machine
does not have; `Pmm.Marked v` is that relation for the value `v`, and
the two loops are one induction (`markLoop_marked`).

`Pmm.Consistent` is the invariant of the physical memory manager: the sizes
fit, `free_pages` counts the clear bits, no bit beyond the last page is
clear, and page 0 is never free.  `pmm_init` establishes it for every memory
map (`pmmInit_consistent`).
-/
import Tomk.Lib.Tally
import Tomk.Mm.PmmSpec

namespace Tomk

open WordBits CFor

/-- The invariant of the physical memory manager. -/
structure Pmm.Consistent (s : Pmm) : Prop where
  shape : s.Shape
  counted : s.freePages.toNat = clearCount s.bitmap s.totalPages.toNat
  tail : s.Tail
  zero : 0 < s.totalPages.toNat → test s.bitmap 0 = true

/-! ## Marking a range -/

/-- The bitmap and the two counters. -/
def Pmm.tally (s : Pmm) : Tally 32 32 := ⟨s.bitmap, s.freePages, s.usedPages⟩

/-- `t` is `s` with the pages `lo ≤ q < hi` of the machine given the value
`v`, and the counters moved along. -/
structure Pmm.Marked (v : Bool) (s t : Pmm) (lo hi : Nat) : Prop where
  frame : t = { s with bitmap := t.bitmap, freePages := t.freePages, usedPages := t.usedPages }
  tally : s.tally.Marked v s.totalPages.toNat t.tally lo hi

variable {s t : Pmm} {v : Bool} {lo hi : Nat}

theorem Pmm.Marked.refl (v : Bool) (s : Pmm) (lo : Nat) : s.Marked v s lo lo :=
  ⟨rfl, Tally.Marked.refl v _ _ lo⟩

theorem Pmm.Marked.bits (h : s.Marked v t lo hi) (q : Nat) :
    test t.bitmap q = if lo ≤ q ∧ q < hi ∧ q < s.totalPages.toNat then v else test s.bitmap q :=
  h.tally.bits q

theorem Pmm.Marked.total (h : s.Marked v t lo hi) : t.totalPages = s.totalPages := by
  rw [h.frame]

theorem Pmm.Marked.size (h : s.Marked v t lo hi) : t.bitmapSize = s.bitmapSize := by
  rw [h.frame]

theorem Pmm.Marked.memoryEnd (h : s.Marked v t lo hi) : t.memoryEnd = s.memoryEnd := by
  rw [h.frame]

theorem Pmm.Marked.shape (h : s.Marked v t lo hi) (hs : s.Shape) : t.Shape :=
  ⟨h.total ▸ hs.total_lt, by rw [h.total, h.size]; exact hs.size_eq⟩

/-- Pages the machine does not have are skipped. -/
theorem Pmm.Marked.skip (h : s.Marked v t lo hi)
    (hq : s.totalPages.toNat ≤ hi ∨ test t.bitmap hi = v) (hle : lo ≤ hi) :
    s.Marked v t lo (hi + 1) :=
  ⟨h.frame, h.tally.skip hq hle⟩

/-- A page that changes its value moves both counters by one. -/
theorem Pmm.Marked.step (h : s.Marked v t lo hi) (hs : s.Shape) (hle : lo ≤ hi)
    (hlt : hi < s.totalPages.toNat) (hv : test t.bitmap hi = !v) :
    s.Marked v
      { t with
        bitmap := if v then setBit t.bitmap hi else clearBit t.bitmap hi
        freePages := if v then t.freePages - 1 else t.freePages + 1
        usedPages := if v then t.usedPages + 1 else t.usedPages - 1 } lo (hi + 1) where
  frame := by rw [h.frame]
  tally := h.tally.step (Nat.lt_trans hs.total_lt (by decide)) hle hlt hv

/-- The pages a call of `pmm_mark_free` or `pmm_mark_used` goes through. -/
def markLo (phys : U32) : Nat := phys.toNat / 4096

def markHi (phys size : U32) : Nat := (phys + size + (pageSize - 1)).toNat / 4096

theorem markTurns_eq (phys size : U32) :
    pageTurns (phys &&& ~~~(pageSize - 1)) ((phys + size + (pageSize - 1)) &&& ~~~(pageSize - 1))
      = markHi phys size - markLo phys := by
  rw [pageTurns, toNat_pageFloor, toNat_pageFloor, markHi, markLo]
  omega

/-- The page of the `i`-th turn. -/
theorem markTurn_page {phys size : U32} {i : Nat} (hi : i < markHi phys size - markLo phys) :
    (toPage (pageAt (phys &&& ~~~(pageSize - 1)) i)).toNat = markLo phys + i ∧
      (pageAt (phys &&& ~~~(pageSize - 1)) i).toNat / 4096 = markLo phys + i := by
  have hlt : markHi phys size < 2 ^ 20 := by
    have := (phys + size + (pageSize - 1)).isLt
    rw [markHi]
    omega
  have h1 : (toAddr (BitVec.ofNat 32 i)).toNat = i * 4096 := by
    rw [toNat_toAddr, BitVec.toNat_ofNat]
    omega
  have h2 : (pageAt (phys &&& ~~~(pageSize - 1)) i).toNat = (markLo phys + i) * 4096 := by
    rw [pageAt, BitVec.toNat_add, toNat_pageFloor, h1]
    rw [markLo] at hi ⊢
    omega
  rw [toNat_toPage, h2]
  omega

/-- One turn of `pmm_mark_free`. -/
theorem pmmMarkFreeTurn_marked {start : U32} {i : Nat} (hs : s.Shape) (h : s.Marked false t lo hi)
    (hle : lo ≤ hi) (h1 : (toPage (pageAt start i)).toNat = hi)
    (h2 : (pageAt start i).toNat / 4096 = hi) :
    s.Marked false (pmmMarkFreeTurn start i t) lo (hi + 1) := by
  simp only [pmmMarkFreeTurn]
  split
  · next htot =>
    rw [BitVec.le_def, h.total, h1] at htot
    exact h.skip (Or.inl htot) hle
  next htot =>
  rw [BitVec.le_def, h.total, h1] at htot
  split
  · next hbit =>
    rw [pmmTest_ne_zero, h2] at hbit
    rw [pmmClear_eq, h2]
    exact h.step hs hle (by omega) hbit
  · next hbit =>
    rw [pmmTest_ne_zero, h2, Bool.not_eq_true] at hbit
    exact h.skip (Or.inr hbit) hle

/-- One turn of `pmm_mark_used`. -/
theorem pmmMarkUsedTurn_marked {start : U32} {i : Nat} (hs : s.Shape) (h : s.Marked true t lo hi)
    (hle : lo ≤ hi) (h1 : (toPage (pageAt start i)).toNat = hi)
    (h2 : (pageAt start i).toNat / 4096 = hi) :
    s.Marked true (pmmMarkUsedTurn start i t) lo (hi + 1) := by
  simp only [pmmMarkUsedTurn]
  split
  · next htot =>
    rw [BitVec.le_def, h.total, h1] at htot
    exact h.skip (Or.inl htot) hle
  next htot =>
  rw [BitVec.le_def, h.total, h1] at htot
  split
  · next hbit =>
    rw [pmmTest_eq_zero, h2] at hbit
    rw [pmmSet_eq, h2]
    exact h.step hs hle (by omega) hbit
  · next hbit =>
    rw [pmmTest_eq_zero, h2, Bool.not_eq_false] at hbit
    exact h.skip (Or.inr hbit) hle

/-- A loop whose turns mark one page each marks the range. -/
theorem markLoop_marked {f : Nat → Pmm → Pmm} {phys size : U32}
    (hf : ∀ i t, i < markHi phys size - markLo phys → s.Marked v t (markLo phys) (markLo phys + i) →
      s.Marked v (f i t) (markLo phys) (markLo phys + i + 1)) :
    s.Marked v (iter f 0 (markHi phys size - markLo phys) s) (markLo phys)
      (max (markLo phys) (markHi phys size)) := by
  have hinv := iter_inv (a := 0) (n := markHi phys size - markLo phys) (f := f) (s := s)
    (fun i t => s.Marked v t (markLo phys) (markLo phys + i)) (Pmm.Marked.refl v s _)
    (fun i t _ hi ht => hf i t (by omega) ht)
  rwa [show max (markLo phys) (markHi phys size)
    = markLo phys + (0 + (markHi phys size - markLo phys)) by omega]

theorem pmmMarkFree_marked (hs : s.Shape) (phys size : U32) (hphys : ¬ s.memoryEnd < phys) :
    s.Marked false (pmmMarkFree s phys size) (markLo phys) (max (markLo phys) (markHi phys size)) := by
  simp only [pmmMarkFree, if_neg hphys, markTurns_eq]
  apply markLoop_marked
  intro i t hi ht
  obtain ⟨h1, h2⟩ := markTurn_page hi
  exact pmmMarkFreeTurn_marked hs ht (by omega) h1 h2

theorem pmmMarkUsed_marked (hs : s.Shape) (phys size : U32) (hphys : ¬ s.memoryEnd < phys) :
    s.Marked true (pmmMarkUsed s phys size) (markLo phys) (max (markLo phys) (markHi phys size)) := by
  simp only [pmmMarkUsed, if_neg hphys, markTurns_eq]
  apply markLoop_marked
  intro i t hi ht
  obtain ⟨h1, h2⟩ := markTurn_page hi
  exact pmmMarkUsedTurn_marked hs ht (by omega) h1 h2

/-- A range that starts beyond the end of memory is left alone. -/
theorem pmmMarkFree_beyond {phys : U32} (size : U32) (hphys : s.memoryEnd < phys) :
    pmmMarkFree s phys size = s := by
  simp only [pmmMarkFree, if_pos hphys]

theorem pmmMarkUsed_beyond {phys : U32} (size : U32) (hphys : s.memoryEnd < phys) :
    pmmMarkUsed s phys size = s := by
  simp only [pmmMarkUsed, if_pos hphys]

/-- The page count is that of the end of memory. -/
def Pmm.Sized (s : Pmm) : Prop := s.totalPages = toPage (s.memoryEnd + (pageSize - 1))

/-- The pages of the machine that `pmm_mark_used` leaves in use: those of the
range, and those that were. -/
theorem pmmMarkUsed_bits (hs : s.Shape) (hz : s.Sized) (phys size : U32)
    (ha : phys.toNat % 4096 = 0) {q : Nat} (hq : q < s.totalPages.toNat) :
    test (pmmMarkUsed s phys size).bitmap q =
      (decide (markLo phys ≤ q ∧ q < markHi phys size) || test s.bitmap q) := by
  by_cases hphys : s.memoryEnd < phys
  · -- a page of the machine lies below a range beyond the end of memory
    have hlt : ¬ (markLo phys ≤ q ∧ q < markHi phys size) := by
      have h1 : (pageSize - 1).toNat = 4095 := rfl
      rw [hz, toNat_toPage, BitVec.toNat_add, h1] at hq
      rw [BitVec.lt_def] at hphys
      rw [markLo]
      omega
    rw [pmmMarkUsed_beyond size hphys, decide_eq_false hlt, Bool.false_or]
  · rw [(pmmMarkUsed_marked hs phys size hphys).bits q]
    by_cases hin : markLo phys ≤ q ∧ q < markHi phys size
    · rw [if_pos (by omega), decide_eq_true hin, Bool.true_or]
    · rw [if_neg (by omega), decide_eq_false hin, Bool.false_or]

theorem Pmm.Marked.sized (h : s.Marked v t lo hi) (hz : s.Sized) : t.Sized := by
  rw [Pmm.Sized, h.total, h.memoryEnd]
  exact hz

/-- In either case a call only gives pages of the machine one value. -/
theorem pmmMarkFree_some (hs : s.Shape) (phys size : U32) :
    ∃ lo hi, s.Marked false (pmmMarkFree s phys size) lo hi := by
  by_cases hphys : s.memoryEnd < phys
  · refine ⟨0, 0, ?_⟩
    rw [pmmMarkFree_beyond size hphys]
    exact Pmm.Marked.refl false s 0
  · exact ⟨_, _, pmmMarkFree_marked hs phys size hphys⟩

theorem pmmMarkUsed_some (hs : s.Shape) (phys size : U32) :
    ∃ lo hi, s.Marked true (pmmMarkUsed s phys size) lo hi := by
  by_cases hphys : s.memoryEnd < phys
  · refine ⟨0, 0, ?_⟩
    rw [pmmMarkUsed_beyond size hphys]
    exact Pmm.Marked.refl true s 0
  · exact ⟨_, _, pmmMarkUsed_marked hs phys size hphys⟩

/-! ## The invariant -/

/-- The part of the invariant that marking pages free keeps as well. -/
structure Pmm.Counting (s : Pmm) : Prop where
  shape : s.Shape
  counted : s.freePages.toNat = clearCount s.bitmap s.totalPages.toNat
  tail : s.Tail

theorem Pmm.Marked.counting (h : s.Marked v t lo hi) (hs : s.Counting) : t.Counting where
  shape := h.shape hs.shape
  counted := by
    rw [h.total]
    exact h.tally.counted hs.counted
  tail := fun q h1 h2 => by
    rw [h.total] at h1
    rw [h.size] at h2
    rw [h.bits q, if_neg (by omega)]
    exact hs.tail q h1 h2

theorem pmmMarkUsed_consistent (hs : s.Consistent) (phys size : U32) :
    (pmmMarkUsed s phys size).Consistent := by
  obtain ⟨lo, hi, hm⟩ := pmmMarkUsed_some hs.shape phys size
  obtain ⟨h1, h2, h3⟩ := hm.counting ⟨hs.shape, hs.counted, hs.tail⟩
  refine ⟨h1, h2, h3, fun h0 => ?_⟩
  rw [hm.total] at h0
  rw [hm.bits 0]
  split
  · rfl
  · exact hs.zero h0

/-- The sizes `pmm_init` computes fit, whatever the map says. -/
theorem pmmSizes_shape (s : Pmm) (map : KPhysMap) : (pmmSizes s map).Shape := by
  let e := (map.regions.foldl pmmMeasure { s with memoryEnd := 0, usablePages := 0 }).memoryEnd
  have htot : (toPage (e + (pageSize - 1))).toNat < 2 ^ 20 := by
    have := (e + (pageSize - 1)).isLt
    rw [toNat_toPage]
    omega
  refine ⟨htot, ?_⟩
  show (ceilDiv (toPage (e + (pageSize - 1))) 32 * 4).toNat
    = ((toPage (e + (pageSize - 1))).toNat + 31) / 32 * 4
  have h4 : (4 : U32).toNat = 4 := rfl
  rw [BitVec.toNat_mul, toNat_ceilDiv _ (by omega), h4]
  omega

/-- After the `memset` no page is clear. -/
theorem pmmFill_start (hs : s.Shape) (h0 : s.freePages = 0) :
    Pmm.Counting { s with bitmap := fun i =>
      if i < s.bitmapSize.toNat / 4 then 0xFFFFFFFF#32 else s.bitmap i } := by
  have hones : ∀ q, q < s.bitmapSize.toNat / 4 * 32 →
      test (w := 32) (fun i => if i < s.bitmapSize.toNat / 4 then 0xFFFFFFFF#32 else s.bitmap i) q
        = true := by
    intro q hq
    rw [test, if_pos (by omega), show (0xFFFFFFFF#32) = BitVec.ofNat 32 (2 ^ 32 - 1) from rfl,
      getLsbD_mask (by omega)]
    exact decide_eq_true (by omega)
  refine ⟨⟨hs.total_lt, hs.size_eq⟩, ?_, fun q _ hq => hones q hq⟩
  have hw := hs.words.1
  have hnone : ¬ 0 < clearCount (w := 32)
      (fun i => if i < s.bitmapSize.toNat / 4 then 0xFFFFFFFF#32 else s.bitmap i)
      s.totalPages.toNat := by
    rw [clearCount_pos]
    rintro ⟨q, hq, hf⟩
    rw [hones q (by omega)] at hf
    exact Bool.noConfusion hf
  show s.freePages.toNat = _
  rw [h0]
  exact (Nat.eq_zero_of_not_pos hnone).symm

theorem pmmMarkRegions_counting (hs : s.Counting) (rs : List KPhysRegion) :
    (rs.foldl (fun s r => if r.isRam then pmmMarkFree s r.address r.size else s) s).Counting := by
  induction rs generalizing s with
  | nil => exact hs
  | cons r rs ih =>
      rw [List.foldl_cons]
      apply ih
      split
      · obtain ⟨lo, hi, hm⟩ := pmmMarkFree_some hs.shape r.address r.size
        exact hm.counting hs
      · exact hs

theorem pmmMarkRegions_sized (hs : s.Shape) (hz : s.Sized) (rs : List KPhysRegion) :
    (rs.foldl (fun s r => if r.isRam then pmmMarkFree s r.address r.size else s) s).Sized := by
  induction rs generalizing s with
  | nil => exact hz
  | cons r rs ih =>
      obtain ⟨lo, hi, hm⟩ := pmmMarkFree_some hs r.address r.size
      rw [List.foldl_cons]
      split
      · exact ih (hm.shape hs) (hm.sized hz)
      · exact ih hs hz

theorem pmmInit_sized (s : Pmm) (map : KPhysMap) : (pmmFill (pmmSizes s map) map).Sized := by
  have hshape := pmmSizes_shape s map
  have hstart := pmmMarkRegions_counting (pmmFill_start hshape rfl) map.regions
  have hm := pmmMarkUsed_marked hstart.shape 0 0x1000 (by
    rw [BitVec.lt_def]
    exact Nat.not_lt_zero _)
  exact hm.sized (pmmMarkRegions_sized (pmmFill_start hshape rfl).shape rfl map.regions)

/-- **What `pmm_init` leaves is consistent**, for every memory map. -/
theorem pmmInit_consistent (s : Pmm) (map : KPhysMap) : (pmmFill (pmmSizes s map) map).Consistent := by
  have hshape := pmmSizes_shape s map
  have hstart := pmmMarkRegions_counting (pmmFill_start hshape rfl) map.regions
  have hm := pmmMarkUsed_marked hstart.shape 0 0x1000 (by
    rw [BitVec.lt_def]
    exact Nat.not_lt_zero _)
  obtain ⟨h1, h2, h3⟩ := hm.counting hstart
  refine ⟨h1, h2, h3, fun h0 => ?_⟩
  have h0' := hm.total ▸ h0
  show test (pmmMarkUsed _ 0 0x1000).bitmap 0 = true
  rw [hm.bits 0]
  exact if_pos ⟨Nat.zero_le 0, by decide, h0'⟩

/-! ## A small machine -/

/-- A machine with 64 KiB of RAM at address 0. -/
def smallMap : KPhysMap := ⟨[⟨0, 0x10000, 3⟩], by decide⟩

/-- The static `pmm_t` before `pmm_init`. -/
def zeroPmm : Pmm := ⟨fun _ => 0, 0, 0, 0, 0, 0, 0, 0, 0⟩

def smallPmm : Pmm := pmmFill (pmmSizes zeroPmm smallMap) smallMap

end Tomk
