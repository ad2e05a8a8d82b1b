/-
# Marking a range of the window

`vmm_mark_used` and `vmm_mark_free` go through the pages of a byte range and
return 1 if each of them changed.  To free a page every byte of it has to be
given up, to mark it used one byte is enough; so the first is to round its range
outwards and the second inwards.  `vmm_mark_used` rounds the start inwards, where
`pmm_mark_used` rounds it outwards, and misses the page a misaligned range starts
in.  All that is asked of the two holds exactly at an aligned start
(`vmmMark_range_iff`).

The model of the functions has no result, since nothing reads it; here they have
one (`vmmMarkUsedR`, `vmmMarkFreeR`).
-/
import Tomk.Mm.FirstFit

namespace Tomk

open WordBits CFor

/-! ## With the result -/

def vmmMarkUsedTurnR (start : U32) (i : Nat) (s : U32 × Vmm) : U32 × Vmm :=
  (if vmmTest s.2 (pageAt start i) ≠ 0 then 0 else s.1, vmmMarkUsedTurn start i s.2)

def vmmMarkUsedR (v : Vmm) (virt size : U32) : Option (U32 × Vmm) :=
  if virt < v.base ∨ v.stop - virt < size then none
  else
    let start := align virt pageSize
    let stop := align (virt + size) pageSize
    some (iter (vmmMarkUsedTurnR start) 0 (pageTurns start stop) (1, v))

def vmmMarkFreeTurnR (start : U32) (i : Nat) (s : U32 × Vmm) : U32 × Vmm :=
  (if vmmTest s.2 (pageAt start i) = 0 then 0 else s.1, vmmMarkFreeTurn start i s.2)

def vmmMarkFreeR (v : Vmm) (virt size : U32) : Option (U32 × Vmm) :=
  if virt < v.base ∨ v.stop - virt < size then none
  else
    let start := align virt pageSize
    let stop := (virt + size) &&& ~~~(pageSize - 1)
    some (iter (vmmMarkFreeTurnR start) 0 (pageTurns start stop) (1, v))

/-- The result does not reach the state. -/
theorem iter_snd {f : Nat → U32 × Vmm → U32 × Vmm} {g : Nat → Vmm → Vmm}
    (hfg : ∀ i s, (f i s).2 = g i s.2) (n : Nat) (s : U32 × Vmm) :
    (iter f 0 n s).2 = iter g 0 n s.2 := by
  induction n with
  | zero => rfl
  | succ n ih => rw [iter_snoc, iter_snoc, hfg, ih]

theorem vmmMarkUsedR_state (v : Vmm) (virt size : U32) :
    (vmmMarkUsedR v virt size).map Prod.snd = vmmMarkUsed v virt size := by
  rw [vmmMarkUsedR, vmmMarkUsed]
  split
  · rfl
  · exact congrArg some (iter_snd (fun _ _ => rfl) _ (1, v))

theorem vmmMarkFreeR_state (v : Vmm) (virt size : U32) :
    (vmmMarkFreeR v virt size).map Prod.snd = vmmMarkFree v virt size := by
  rw [vmmMarkFreeR, vmmMarkFree]
  split
  · rfl
  · exact congrArg some (iter_snd (fun _ _ => rfl) _ (1, v))

/-! ## What is asked -/

/-- A byte of the range lies in page `p`. -/
def Vmm.HasByte (v : Vmm) (virt size : U32) (p : Nat) : Prop :=
  ∃ a : Nat, (virt.toNat ≤ a ∧ a < virt.toNat + size.toNat) ∧ (a - v.base.toNat) / 4096 = p

/-- Every byte of page `p` lies in the range. -/
def Vmm.Inside (v : Vmm) (virt size : U32) (p : Nat) : Prop :=
  ∀ a : Nat, v.base.toNat ≤ a → (a - v.base.toNat) / 4096 = p →
    virt.toNat ≤ a ∧ a < virt.toNat + size.toNat

def Vmm.Changed (v w : Vmm) (p : Nat) : Prop := test w.bitmap p ≠ test v.bitmap p

instance (v w : Vmm) (p : Nat) : Decidable (v.Changed w p) := inferInstanceAs (Decidable (_ ≠ _))

/-- The number of pages that changed. -/
def Vmm.changes (v w : Vmm) : U32 :=
  BitVec.ofNat 32 ((Finset.range v.totalPages.toNat).filter (v.Changed w)).card

/-- Every page with a byte of the range is in use; the result says whether each
of them has changed; and the counters have followed. -/
structure MarkedUsed (v : Vmm) (virt size : U32) (r : U32) (w : Vmm) : Prop where
  used : ∀ p, v.HasByte virt size p → test w.bitmap p = true
  result : r = 1 ↔ ∀ p, v.HasByte virt size p → v.Changed w p
  free : w.freePages = v.freePages - v.changes w
  taken : w.usedPages = v.usedPages + v.changes w

/-- No page has changed that is not inside the range; the result says whether
each that is has changed; and the counters have followed. -/
structure MarkedFree (v : Vmm) (virt size : U32) (r : U32) (w : Vmm) : Prop where
  inside : ∀ p, v.Changed w p → v.Inside virt size p
  result : r = 1 ↔ ∀ p, v.Inside virt size p → v.Changed w p
  free : w.freePages = v.freePages + v.changes w
  taken : w.usedPages = v.usedPages - v.changes w

/-- From any bitmap, `vmm_mark_used` marks the pages that `pmm_mark_used` marks
in a memory as long as the window, for the same range counted from its base. -/
def SameCover (v : Vmm) (virt size : U32) : Prop :=
  ∀ (s : Pmm) (r : U32) (w : Vmm), s.bitmapSize = v.bitmapSize → s.totalPages = v.totalPages →
    s.memoryEnd = v.stop - v.base →
    vmmMarkUsedR { v with bitmap := s.bitmap } virt size = some (r, w) →
    w.bitmap = (pmmMarkUsed s (virt - v.base) size).bitmap

/-- The property as it is asked, of one range. -/
structure MarksRange (v : Vmm) (virt size : U32) : Prop where
  used : ∃ r w, vmmMarkUsedR v virt size = some (r, w) ∧ MarkedUsed v virt size r w
  free : ∃ r w, vmmMarkFreeR v virt size = some (r, w) ∧ MarkedFree v virt size r w
  cover : SameCover v virt size

/-- And of every range of every window. -/
def VmmMarksRanges : Prop :=
  ∀ (v : Vmm) (virt size : U32), v.Sized → v.base ≤ virt →
    virt.toNat + size.toNat ≤ v.stop.toNat → MarksRange v virt size

variable {v w : Vmm} {virt size : U32} {b : Bool} {lo hi : Nat} {s : U32 × Vmm}

/-! ## The loop -/

/-- `s` is the result and the state after pages `lo, …, hi - 1` were marked. -/
structure MarkLoop (b : Bool) (v : Vmm) (lo hi : Nat) (s : U32 × Vmm) : Prop where
  frame : s.2 = { v with
    bitmap := s.2.bitmap, freePages := s.2.freePages, usedPages := s.2.usedPages }
  moved : v.tally.Moved b s.2.tally lo hi
  result : s.1 = 1 ↔ ∀ q, lo ≤ q → q < hi → test v.bitmap q = !b

theorem MarkLoop.init (b : Bool) (v : Vmm) (lo : Nat) : MarkLoop b v lo lo (1, v) :=
  ⟨rfl, .refl b v.tally lo, ⟨fun _ q h1 h2 => absurd h1 (by omega), fun _ => rfl⟩⟩

theorem MarkLoop.bit (h : MarkLoop b v lo hi s) : test s.2.bitmap hi = test v.bitmap hi :=
  h.moved.bit

/-- A page that has the value already. -/
theorem MarkLoop.skip (h : MarkLoop b v lo hi s) (hle : lo ≤ hi) (hv : test s.2.bitmap hi = b) :
    MarkLoop b v lo (hi + 1) (0, s.2) := by
  refine ⟨h.frame, h.moved.skip hv, ⟨fun hc => absurd (show (0 : U32) = 1 from hc) (by decide),
    fun hall => ?_⟩⟩
  have hno := hall hi hle (Nat.lt_succ_self hi)
  rw [← h.bit, hv] at hno
  cases b <;> exact Bool.noConfusion hno

/-- A page that changes. -/
theorem MarkLoop.step (h : MarkLoop b v lo hi s) (hle : lo ≤ hi) (hv : test s.2.bitmap hi = !b) :
    MarkLoop b v lo (hi + 1) (s.1, { s.2 with
      bitmap := if b then setBit s.2.bitmap hi else clearBit s.2.bitmap hi
      freePages := if b then s.2.freePages - 1 else s.2.freePages + 1
      usedPages := if b then s.2.usedPages + 1 else s.2.usedPages - 1 }) := by
  refine ⟨?_, h.moved.step hle hv, ?_⟩
  · rw [h.frame]
  · rw [h.result]
    constructor
    · intro hall q h1 h2
      rcases Nat.lt_succ_iff_lt_or_eq.mp h2 with hlt | rfl
      · exact hall q h1 hlt
      · rw [← h.bit, hv]
    · exact fun hall q h1 h2 => hall q h1 (Nat.lt_succ_of_lt h2)

/-- The window does not move. -/
theorem MarkLoop.page (h : MarkLoop b v lo hi s) (a : U32) : s.2.page a = v.page a := by
  rw [h.frame]
  rfl

theorem MarkLoop.sized (h : MarkLoop b v lo hi s) (hv : v.Sized) : s.2.Sized := by
  rw [h.frame]
  exact ⟨hv.base_aligned, hv.stop_aligned, hv.base_lt, hv.total_eq, hv.size_eq⟩

theorem MarkLoop.total (h : MarkLoop b v lo hi s) : s.2.totalPages = v.totalPages := by
  rw [h.frame]

theorem MarkLoop.test_iff (h : MarkLoop b v lo hi s) (hv : v.Sized) {a : U32} (ha : v.page a = hi)
    (hq : hi < v.totalPages.toNat) : vmmTest s.2 a ≠ 0 ↔ test s.2.bitmap hi = true := by
  have hin := (h.sized hv).inBitmap (h.total ▸ hq)
  rw [vmmTest_page, h.page, ha]
  exact and_iff_right (by omega)

theorem MarkLoop.set_page (h : MarkLoop b v lo hi s) (hv : v.Sized) {a : U32} (ha : v.page a = hi)
    (hq : hi < v.totalPages.toNat) :
    vmmSet s.2 a = { s.2 with bitmap := setBit s.2.bitmap hi } := by
  have hpage : s.2.page a = hi := (h.page a).trans ha
  rw [vmmSet_page (h.sized hv) (by rwa [hpage, h.total]), hpage]

theorem MarkLoop.clear_page (h : MarkLoop b v lo hi s) (hv : v.Sized) {a : U32}
    (ha : v.page a = hi) (hq : hi < v.totalPages.toNat) :
    vmmClear s.2 a = { s.2 with bitmap := clearBit s.2.bitmap hi } := by
  have hpage : s.2.page a = hi := (h.page a).trans ha
  rw [vmmClear_page (h.sized hv) (by rwa [hpage, h.total]), hpage]

/-- One turn of `vmm_mark_used`. -/
theorem MarkLoop.usedTurn (h : MarkLoop true v lo hi s) (hv : v.Sized) {start : U32} {i : Nat}
    (hle : lo ≤ hi) (hq : hi < v.totalPages.toNat) (ha : v.page (pageAt start i) = hi) :
    MarkLoop true v lo (hi + 1) (vmmMarkUsedTurnR start i s) := by
  have htest := h.test_iff hv ha hq
  by_cases hb : test s.2.bitmap hi = true
  · have hne := htest.mpr hb
    simp only [vmmMarkUsedTurnR, vmmMarkUsedTurn, if_pos hne]
    exact h.skip hle hb
  · have hz : ¬ vmmTest s.2 (pageAt start i) ≠ 0 := fun hc => hb (htest.mp hc)
    simp only [vmmMarkUsedTurnR, vmmMarkUsedTurn, if_neg hz, h.set_page hv ha hq]
    exact h.step hle (Bool.eq_false_iff.mpr hb)

/-- One turn of `vmm_mark_free`. -/
theorem MarkLoop.freeTurn (h : MarkLoop false v lo hi s) (hv : v.Sized) {start : U32} {i : Nat}
    (hle : lo ≤ hi) (hq : hi < v.totalPages.toNat) (ha : v.page (pageAt start i) = hi) :
    MarkLoop false v lo (hi + 1) (vmmMarkFreeTurnR start i s) := by
  have htest := h.test_iff hv ha hq
  by_cases hb : test s.2.bitmap hi = true
  · have hne : ¬ vmmTest s.2 (pageAt start i) = 0 := htest.mpr hb
    simp only [vmmMarkFreeTurnR, vmmMarkFreeTurn, if_neg hne, h.clear_page hv ha hq]
    exact h.step hle hb
  · have hz : vmmTest s.2 (pageAt start i) = 0 := by
      by_contra hc
      exact hb (htest.mp hc)
    simp only [vmmMarkFreeTurnR, vmmMarkFreeTurn, if_pos hz]
    exact h.skip hle (Bool.eq_false_iff.mpr hb)

/-- The page of an address of the window. -/
def Vmm.pageIndex (v : Vmm) (a : Nat) : Nat := (a - v.base.toNat) / 4096

/-- A loop over whole pages of the window marks them. -/
theorem markLoop_run {f : Nat → U32 × Vmm → U32 × Vmm} (hv : v.Sized) (start stop : U32)
    (hstart : start.toNat % 4096 = 0) (hstop : stop.toNat % 4096 = 0)
    (hlo : v.base.toNat ≤ start.toNat) (hhi : stop.toNat ≤ v.stop.toNat)
    (hturn : ∀ i hi s, v.pageIndex start.toNat ≤ hi → hi < v.totalPages.toNat →
      v.page (pageAt start i) = hi → MarkLoop b v (v.pageIndex start.toNat) hi s →
      MarkLoop b v (v.pageIndex start.toNat) (hi + 1) (f i s)) :
    MarkLoop b v (v.pageIndex start.toNat)
      (max (v.pageIndex start.toNat) (v.pageIndex stop.toNat))
      (iter f 0 (pageTurns start stop) (1, v)) := by
  have hbase := hv.base_aligned
  have hwin := hv.window
  have hlt := v.stop.isLt
  have hturns : pageTurns start stop = v.pageIndex stop.toNat - v.pageIndex start.toNat := by
    rw [pageTurns, Vmm.pageIndex, Vmm.pageIndex]
    omega
  have hinv := iter_inv (a := 0) (n := pageTurns start stop) (f := f) (s := (1, v))
    (fun i s => MarkLoop b v (v.pageIndex start.toNat) (v.pageIndex start.toNat + i) s)
    (MarkLoop.init b v _) (fun i s _ hi hs => by
      rw [hturns] at hi
      have hpage : v.page (pageAt start i) = v.pageIndex start.toNat + i := by
        rw [Vmm.pageIndex] at hi ⊢
        rw [Vmm.pageIndex] at hi
        have h1 : (toAddr (BitVec.ofNat 32 i)).toNat = i * 4096 := by
          rw [toNat_toAddr, BitVec.toNat_ofNat]
          omega
        have h2 : (pageAt start i).toNat = start.toNat + i * 4096 := by
          rw [pageAt, BitVec.toNat_add, h1]
          omega
        have h3 : v.base ≤ pageAt start i := by
          rw [BitVec.le_def, h2]
          omega
        rw [Vmm.page, toNat_toPage, BitVec.toNat_sub_of_le h3, h2]
        omega
      have hq : v.pageIndex start.toNat + i < v.totalPages.toNat := by
        rw [Vmm.pageIndex] at hi ⊢
        rw [Vmm.pageIndex] at hi
        omega
      exact hturn i _ s (Nat.le_add_right _ _) hq hpage hs)
  have hend : max (v.pageIndex start.toNat) (v.pageIndex stop.toNat)
      = v.pageIndex start.toNat + (0 + pageTurns start stop) := by
    rw [hturns]
    omega
  rwa [hend]

/-! ## What the loop leaves -/

theorem MarkLoop.changed_iff (h : MarkLoop b v lo hi s) (p : Nat) :
    v.Changed s.2 p ↔ (lo ≤ p ∧ p < hi) ∧ test v.bitmap p = !b := by
  have hbits : test s.2.bitmap p = if lo ≤ p ∧ p < hi then b else test v.bitmap p := h.moved.bits p
  rw [Vmm.Changed, hbits]
  split
  · next hin => cases b <;> cases test v.bitmap p <;> simp [hin]
  · next hout => simp [hout]

/-- The counters have moved by the number of pages that changed. -/
theorem MarkLoop.changes (h : MarkLoop b v lo hi s) (hhi : hi ≤ v.totalPages.toNat) :
    v.changes s.2 = BitVec.ofNat 32 (misses b v.bitmap lo hi).card := by
  have hset : (Finset.range v.totalPages.toNat).filter (v.Changed s.2) = misses b v.bitmap lo hi := by
    ext q
    rw [Finset.mem_filter, Finset.mem_range, mem_misses, h.changed_iff]
    constructor
    · exact fun hq => hq.2
    · exact fun hq => ⟨by omega, hq⟩
  rw [Vmm.changes, hset]

/-- The result, for any description of the pages that were marked. -/
theorem MarkLoop.result_iff (h : MarkLoop b v lo hi s) {P : Nat → Prop}
    (hP : ∀ p, P p ↔ lo ≤ p ∧ p < hi) : s.1 = 1 ↔ ∀ p, P p → v.Changed s.2 p := by
  rw [h.result]
  constructor
  · intro hall p hp
    obtain ⟨h1, h2⟩ := (hP p).mp hp
    exact (h.changed_iff p).mpr ⟨⟨h1, h2⟩, hall p h1 h2⟩
  · intro hall p h1 h2
    exact ((h.changed_iff p).mp (hall p ((hP p).mpr ⟨h1, h2⟩))).2

/-! ## The rounding -/

theorem Vmm.hasByte_iff (hv : v.base ≤ virt) (p : Nat) :
    v.HasByte virt size p ↔ 0 < size.toNat ∧ virt.toNat < v.base.toNat + (p + 1) * 4096 ∧
      v.base.toNat + p * 4096 < virt.toNat + size.toNat := by
  rw [BitVec.le_def] at hv
  constructor
  · rintro ⟨a, ⟨h1, h2⟩, h3⟩
    omega
  · rintro ⟨h1, h2, h3⟩
    exact ⟨max virt.toNat (v.base.toNat + p * 4096), by omega, by omega⟩

theorem Vmm.inside_iff (p : Nat) :
    v.Inside virt size p ↔ virt.toNat ≤ v.base.toNat + p * 4096 ∧
      v.base.toNat + (p + 1) * 4096 ≤ virt.toNat + size.toNat := by
  constructor
  · intro h
    have h1 := h (v.base.toNat + p * 4096) (by omega) (by omega)
    have h2 := h (v.base.toNat + p * 4096 + 4095) (by omega) (by omega)
    omega
  · rintro ⟨h1, h2⟩ a h3 h4
    omega

/-- Rounding up inside of a window does not wrap. -/
theorem toNat_align_window (hv : v.Sized) {a : U32} (ha : a.toNat ≤ v.stop.toNat) :
    (align a pageSize).toNat = (a.toNat + 4095) / 4096 * 4096 := by
  have h1 := hv.stop_aligned
  have h2 := v.stop.isLt
  rw [toNat_align_page]
  omega

/-- The assertions of both functions pass, and the end does not wrap. -/
theorem markRange_fits (hb : v.base ≤ virt) (hs : virt.toNat + size.toNat ≤ v.stop.toNat) :
    (virt + size).toNat = virt.toNat + size.toNat ∧
      ¬ (virt < v.base ∨ v.stop - virt < size) := by
  have hlt := v.stop.isLt
  have hle : virt ≤ v.stop := by
    rw [BitVec.le_def]
    omega
  rw [BitVec.le_def] at hb
  constructor
  · rw [BitVec.toNat_add]
    omega
  · rw [BitVec.lt_def, BitVec.lt_def, BitVec.toNat_sub_of_le hle]
    omega

/-- The pages `vmm_mark_used` goes through. -/
theorem vmmMarkUsedR_loop (hv : v.Sized) (hb : v.base ≤ virt)
    (hs : virt.toNat + size.toNat ≤ v.stop.toNat) :
    ∃ s, vmmMarkUsedR v virt size = some s ∧
      MarkLoop true v (v.pageIndex (virt.toNat + 4095)) (v.pageIndex (virt.toNat + size.toNat + 4095)) s := by
  have hbase := hv.base_aligned
  have hstop := hv.stop_aligned
  have hlt := v.stop.isLt
  obtain ⟨hsum, hok⟩ := markRange_fits hb hs
  rw [BitVec.le_def] at hb
  have h1 := toNat_align_window hv (a := virt) (by omega)
  have h2 := toNat_align_window hv (a := virt + size) (by omega)
  rw [hsum] at h2
  have hloop := markLoop_run (b := true) (f := vmmMarkUsedTurnR (align virt pageSize)) hv
    (align virt pageSize) (align (virt + size) pageSize) (by omega) (by omega) (by omega) (by omega)
    (fun i hi s hle hq ha hs => hs.usedTurn hv hle hq ha)
  refine ⟨_, by rw [vmmMarkUsedR, if_neg hok], ?_⟩
  have e1 : v.pageIndex (align virt pageSize).toNat = v.pageIndex (virt.toNat + 4095) := by
    rw [h1, Vmm.pageIndex, Vmm.pageIndex]
    omega
  have e2 : max (v.pageIndex (virt.toNat + 4095)) (v.pageIndex (align (virt + size) pageSize).toNat)
      = v.pageIndex (virt.toNat + size.toNat + 4095) := by
    rw [h2, Vmm.pageIndex, Vmm.pageIndex, Vmm.pageIndex]
    omega
  rwa [e1, e2] at hloop

/-- The pages `vmm_mark_free` goes through. -/
theorem vmmMarkFreeR_loop (hv : v.Sized) (hb : v.base ≤ virt)
    (hs : virt.toNat + size.toNat ≤ v.stop.toNat) :
    ∃ s, vmmMarkFreeR v virt size = some s ∧
      MarkLoop false v (v.pageIndex (virt.toNat + 4095))
        (max (v.pageIndex (virt.toNat + 4095)) (v.pageIndex (virt.toNat + size.toNat))) s := by
  have hbase := hv.base_aligned
  have hstop := hv.stop_aligned
  have hlt := v.stop.isLt
  obtain ⟨hsum, hok⟩ := markRange_fits hb hs
  rw [BitVec.le_def] at hb
  have h1 := toNat_align_window hv (a := virt) (by omega)
  have h2 := toNat_pageFloor (virt + size)
  rw [hsum] at h2
  have hloop := markLoop_run (b := false) (f := vmmMarkFreeTurnR (align virt pageSize)) hv
    (align virt pageSize) ((virt + size) &&& ~~~(pageSize - 1)) (by omega) (by omega) (by omega) (by omega)
    (fun i hi s hle hq ha hs => hs.freeTurn hv hle hq ha)
  refine ⟨_, by rw [vmmMarkFreeR, if_neg hok], ?_⟩
  have e1 : v.pageIndex (align virt pageSize).toNat = v.pageIndex (virt.toNat + 4095) := by
    rw [h1, Vmm.pageIndex, Vmm.pageIndex]
    omega
  have e2 : v.pageIndex ((virt + size) &&& ~~~(pageSize - 1)).toNat
      = v.pageIndex (virt.toNat + size.toNat) := by
    rw [h2, Vmm.pageIndex, Vmm.pageIndex]
    omega
  rwa [e1, e2] at hloop

/-! ## The three parts -/

/-- `vmm_mark_free` does what it should, whatever the range. -/
theorem vmmMarkFreeR_marks (hv : v.Sized) (hb : v.base ≤ virt)
    (hs : virt.toNat + size.toNat ≤ v.stop.toNat) :
    ∃ r w, vmmMarkFreeR v virt size = some (r, w) ∧ MarkedFree v virt size r w := by
  obtain ⟨⟨r, w⟩, hrun, h⟩ := vmmMarkFreeR_loop hv hb hs
  have hbase := hv.base_aligned
  have hwin := hv.window
  rw [BitVec.le_def] at hb
  have hinside : ∀ p, v.Inside virt size p ↔ v.pageIndex (virt.toNat + 4095) ≤ p ∧
      p < max (v.pageIndex (virt.toNat + 4095)) (v.pageIndex (virt.toNat + size.toNat)) := by
    intro p
    rw [Vmm.inside_iff, Vmm.pageIndex, Vmm.pageIndex]
    omega
  have hchanges := h.changes (by rw [Vmm.pageIndex, Vmm.pageIndex]; omega)
  refine ⟨r, w, hrun, ⟨fun p hp => ?_, h.result_iff hinside, ?_, ?_⟩⟩
  · exact (hinside p).mpr ((h.changed_iff p).mp hp).1
  · rw [hchanges]
    exact h.moved.free
  · rw [hchanges]
    exact h.moved.used

/-- `vmm_mark_used` does, from an aligned start. -/
theorem vmmMarkUsedR_marks (hv : v.Sized) (hb : v.base ≤ virt)
    (hs : virt.toNat + size.toNat ≤ v.stop.toNat) (ha : virt.toNat % 4096 = 0) :
    ∃ r w, vmmMarkUsedR v virt size = some (r, w) ∧ MarkedUsed v virt size r w := by
  obtain ⟨⟨r, w⟩, hrun, h⟩ := vmmMarkUsedR_loop hv hb hs
  have hbase := hv.base_aligned
  have hstop := hv.stop_aligned
  have hwin := hv.window
  have hbyte : ∀ p, v.HasByte virt size p ↔ v.pageIndex (virt.toNat + 4095) ≤ p ∧
      p < v.pageIndex (virt.toNat + size.toNat + 4095) := by
    intro p
    rw [Vmm.hasByte_iff hb, Vmm.pageIndex, Vmm.pageIndex]
    rw [BitVec.le_def] at hb
    omega
  rw [BitVec.le_def] at hb
  have hchanges := h.changes (by rw [Vmm.pageIndex]; omega)
  refine ⟨r, w, hrun, ⟨fun p hp => ?_, h.result_iff hbyte, ?_, ?_⟩⟩
  · have hbits : test w.bitmap p = _ := h.moved.bits p
    rw [hbits, if_pos ((hbyte p).mp hp)]
  · rw [hchanges]
    exact h.moved.free
  · rw [hchanges]
    exact h.moved.used

/-- The bits after `pmm_mark_used` of a range that starts in the memory. -/
theorem pmmMarkUsed_window {s : Pmm} (hv : v.Sized) (hb : v.base ≤ virt)
    (hs : virt.toNat + size.toNat ≤ v.stop.toNat) (hsize : s.bitmapSize = v.bitmapSize)
    (htotal : s.totalPages = v.totalPages) (hend : s.memoryEnd = v.stop - v.base) (q : Nat) :
    test (pmmMarkUsed s (virt - v.base) size).bitmap q =
      if v.pageIndex virt.toNat ≤ q ∧ q < v.pageIndex (virt.toNat + size.toNat + 4095) then true
      else test s.bitmap q := by
  have hbase := hv.base_aligned
  have hstop := hv.stop_aligned
  have hwin := hv.window
  have hlt := v.stop.isLt
  have hphys := BitVec.toNat_sub_of_le hb
  have hle : v.base ≤ v.stop := by
    rw [BitVec.le_def] at hb ⊢
    omega
  have hmem := BitVec.toNat_sub_of_le hle
  rw [BitVec.le_def] at hb
  have hshape : s.Shape := by
    refine ⟨?_, ?_⟩
    · rw [htotal]
      omega
    · rw [hsize, htotal]
      exact hv.size_eq
  have hin : ¬ s.memoryEnd < virt - v.base := by
    rw [hend, BitVec.lt_def, hmem, hphys]
    omega
  have hmarkHi : markHi (virt - v.base) size = v.pageIndex (virt.toNat + size.toNat + 4095) := by
    have h1 : (pageSize - 1).toNat = 4095 := rfl
    rw [markHi, BitVec.toNat_add, BitVec.toNat_add, hphys, h1, Vmm.pageIndex]
    omega
  have hmarkLo : markLo (virt - v.base) = v.pageIndex virt.toNat := by
    rw [markLo, hphys, Vmm.pageIndex]
  rw [(pmmMarkUsed_marked hshape (virt - v.base) size hin).bits q, hmarkLo, hmarkHi, htotal]
  have hrange : (v.pageIndex virt.toNat ≤ q ∧
      q < max (v.pageIndex virt.toNat) (v.pageIndex (virt.toNat + size.toNat + 4095)) ∧
      q < v.totalPages.toNat) ↔
      (v.pageIndex virt.toNat ≤ q ∧ q < v.pageIndex (virt.toNat + size.toNat + 4095)) := by
    rw [Vmm.pageIndex, Vmm.pageIndex]
    omega
  rw [if_congr hrange rfl rfl]

/-- The other bitmaps of the same window. -/
theorem Vmm.Sized.withBits (h : v.Sized) (bits : Words 32) : Vmm.Sized { v with bitmap := bits } :=
  ⟨h.base_aligned, h.stop_aligned, h.base_lt, h.total_eq, h.size_eq⟩

/-- The two managers mark the same pages exactly from an aligned start. -/
theorem sameCover_iff (hv : v.Sized) (hb : v.base ≤ virt)
    (hs : virt.toNat + size.toNat ≤ v.stop.toNat) :
    SameCover v virt size ↔ virt.toNat % 4096 = 0 := by
  have hbase := hv.base_aligned
  have hstop := hv.stop_aligned
  have hb' : v.base.toNat ≤ virt.toNat := BitVec.le_def.mp hb
  constructor
  · intro hcover
    by_contra hmis
    -- in a clear bitmap: the page the range starts in
    let bits : Words 32 := fun _ => 0
    let s : Pmm := ⟨bits, v.bitmapSize, v.totalPages, 0, 0, 0, 0, 0, v.stop - v.base⟩
    obtain ⟨⟨r, w⟩, hrun, h⟩ := vmmMarkUsedR_loop (hv.withBits bits) hb hs
    have hsame := hcover s r w rfl rfl rfl hrun
    have hpmm := pmmMarkUsed_window (s := s) hv hb hs rfl rfl rfl (v.pageIndex virt.toNat)
    have hvmm : test w.bitmap (v.pageIndex virt.toNat) = _ := h.moved.bits _
    rw [hsame, hpmm, if_pos ⟨Nat.le_refl _, by rw [Vmm.pageIndex, Vmm.pageIndex]; omega⟩,
      if_neg (by
        show ¬ (v.pageIndex (virt.toNat + 4095) ≤ v.pageIndex virt.toNat ∧ _)
        rw [Vmm.pageIndex, Vmm.pageIndex]
        omega)] at hvmm
    have hclr : test bits (v.pageIndex virt.toNat) = false := BitVec.getLsbD_zero
    rw [show ({ v with bitmap := bits } : Vmm).tally.bits = bits from rfl, hclr] at hvmm
    exact Bool.noConfusion hvmm
  · intro ha s r w hsize htotal hend hrun
    obtain ⟨s', hrun', h⟩ := vmmMarkUsedR_loop (hv.withBits s.bitmap) hb hs
    rw [hrun] at hrun'
    cases hrun'
    apply WordBits.ext
    intro q
    have hvmm : test w.bitmap q = _ := h.moved.bits q
    rw [hvmm, pmmMarkUsed_window hv hb hs hsize htotal hend]
    refine if_congr ?_ rfl rfl
    apply and_congr_left'
    show v.pageIndex (virt.toNat + 4095) ≤ q ↔ v.pageIndex virt.toNat ≤ q
    rw [Vmm.pageIndex, Vmm.pageIndex]
    omega

/-- **Marking a range.**  All that is asked of the two functions, for a range of
the window, holds exactly if it starts at a page. -/
theorem vmmMark_range_iff (hv : v.Sized) (hb : v.base ≤ virt)
    (hs : virt.toNat + size.toNat ≤ v.stop.toNat) :
    MarksRange v virt size ↔ virt.toNat % 4096 = 0 := by
  constructor
  · exact fun h => (sameCover_iff hv hb hs).mp h.cover
  · intro ha
    exact ⟨vmmMarkUsedR_marks hv hb hs ha, vmmMarkFreeR_marks hv hb hs,
      (sameCover_iff hv hb hs).mpr ha⟩

/-- Two pages from the second on. -/
theorem vmmMark_range_iff_small :
    MarksRange smallVmm (kvirt + 0x1000) 0x2000 ↔ (kvirt + 0x1000).toNat % 4096 = 0 :=
  vmmMark_range_iff smallMm_consistent.vmm.toWindow.sized (by decide) (by decide)

/-- One byte in the middle of a page: the page stays free. -/
theorem vmmMarkUsed_partial_page : ¬ VmmMarksRanges := by
  intro hall
  have hmarks := hall smallVmm (kvirt + 0x800) 1 smallMm_consistent.vmm.toWindow.sized
    (by decide) (by decide)
  obtain ⟨r, w, hrun, hused, _⟩ := hmarks.used
  have hw : vmmMarkUsedR smallVmm (kvirt + 0x800) 1 = some (1, smallVmm) := by rfl
  rw [hw] at hrun
  cases hrun
  have hpage := hused 0 ⟨(kvirt + 0x800).toNat, by decide, by decide⟩
  exact absurd hpage (by decide)

end Tomk
