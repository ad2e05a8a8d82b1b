/-
# What a reservation does

`Vmm.Window` is what `vmm_init` fixes and no call changes: a page-aligned
window below the tables, and a bitmap of the size it needs.  `Vmm.Shape`
adds that no page at address 0 is free.  A page of the window is its index
`p`, at the address `Vmm.addr p`.

Under it `vmm_reserve` and `vmm_unreserve` are two equations about a run of
bits and the two counters, and the second undoes the first
(`vmmUnreserve_reserved`).  When a reservation succeeds is a condition on
the state alone, `Vmm.Reservable`.
-/
import Tomk.Lib.Tally
import Tomk.Mm.Vmm
import Tomk.Mm.Wired
import Tomk.Mm.PmmFrames

namespace Tomk

open WordBits CFor

/-- The window and the sizes. -/
structure Vmm.Window (v : Vmm) : Prop where
  base_aligned : v.base.toNat % 4096 = 0
  stop_aligned : v.stop.toNat % 4096 = 0
  base_lt : v.base.toNat < v.stop.toNat
  /-- The window ends below the tables' own window. -/
  stop_le : v.stop.toNat ≤ kvirtEnd.toNat
  total_eq : v.totalPages.toNat = (v.stop.toNat - v.base.toNat) / 4096
  size_eq : v.bitmapSize.toNat = (v.totalPages.toNat + 31) / 32 * 4

/-- What `vmm_init` asserts of a window and computes for it, wherever it ends. -/
structure Vmm.Sized (v : Vmm) : Prop where
  base_aligned : v.base.toNat % 4096 = 0
  stop_aligned : v.stop.toNat % 4096 = 0
  base_lt : v.base.toNat < v.stop.toNat
  total_eq : v.totalPages.toNat = (v.stop.toNat - v.base.toNat) / 4096
  size_eq : v.bitmapSize.toNat = (v.totalPages.toNat + 31) / 32 * 4

structure Vmm.Shape (v : Vmm) : Prop extends v.Window where
  /-- The page at address 0 is never free: its address is `NULL`. -/
  zero : v.base = 0 → test v.bitmap 0 = true

/-- The address of page `p` of the window. -/
def Vmm.addr (v : Vmm) (p : Nat) : U32 := pageAt v.base p

/-- The bitmap and the two counters. -/
def Vmm.tally (v : Vmm) : Tally 32 32 := ⟨v.bitmap, v.freePages, v.usedPages⟩

/-- The state with another bitmap and other counters. -/
def Vmm.withTally (v : Vmm) (t : Tally 32 32) : Vmm :=
  { v with bitmap := t.bits, freePages := t.free, usedPages := t.used }

/-- The state after pages `p, …, p + n - 1` were reserved. -/
def Vmm.reserved (v : Vmm) (p : Nat) (n lr : U32) : Vmm :=
  { v.withTally (v.tally.take p n) with largestRun := lr }

/-- A reservation of `n` pages is possible. -/
def Vmm.Reservable (v : Vmm) (n : U32) : Prop :=
  n ≠ 0 ∧ n ≤ v.freePages ∧
    ∃ q, q + n.toNat ≤ v.totalPages.toNat ∧ FreeRun v.bitmap q n.toNat

variable {v : Vmm}

theorem Vmm.Window.sized (h : v.Window) : v.Sized :=
  ⟨h.base_aligned, h.stop_aligned, h.base_lt, h.total_eq, h.size_eq⟩

/-! ## Addresses of the window -/

theorem Vmm.Sized.window (h : v.Sized) :
    v.base.toNat + v.totalPages.toNat * 4096 = v.stop.toNat := by
  obtain ⟨h1, h2, h3, h4, _⟩ := h
  omega

theorem Vmm.Sized.words (h : v.Sized) : v.totalPages.toNat ≤ v.bitmapSize.toNat / 4 * 32 := by
  rw [h.size_eq]
  omega

theorem Vmm.Sized.toNat_addr (h : v.Sized) {p : Nat} (hp : p < v.totalPages.toNat) :
    (v.addr p).toNat = v.base.toNat + p * 4096 := by
  have h1 := h.window
  have h2 := v.stop.isLt
  have h3 : (toAddr (BitVec.ofNat 32 p)).toNat = p * 4096 := by
    rw [toNat_toAddr, BitVec.toNat_ofNat]
    omega
  rw [Vmm.addr, pageAt, BitVec.toNat_add, h3]
  omega

theorem Vmm.Window.window (h : v.Window) :
    v.base.toNat + v.totalPages.toNat * 4096 = v.stop.toNat ∧ v.stop.toNat ≤ 0xFFC00000 := by
  obtain ⟨h1, h2, h3, h4, h5, _⟩ := h
  have h6 : kvirtEnd.toNat = 0xFFC00000 := rfl
  omega

theorem Vmm.Window.words (h : v.Window) :
    v.totalPages.toNat ≤ v.bitmapSize.toNat / 4 * 32 := h.sized.words

theorem Vmm.Window.toNat_addr (h : v.Window) {p : Nat} (hp : p < v.totalPages.toNat) :
    (v.addr p).toNat = v.base.toNat + p * 4096 := h.sized.toNat_addr hp

theorem Vmm.Window.pageNo_addr (h : v.Window) {p : Nat} (hp : p < v.totalPages.toNat) :
    pageNo (v.addr p) = pageNo v.base + p := by
  have := h.base_aligned
  rw [pageNo, h.toNat_addr hp, pageNo]
  omega

theorem Vmm.pageAt_addr (v : Vmm) (p i : Nat) : pageAt (v.addr p) i = v.addr (p + i) := by
  apply BitVec.eq_of_toNat_eq
  simp only [Vmm.addr, pageAt, BitVec.toNat_add, toNat_toAddr, BitVec.toNat_ofNat]
  omega

/-- The pages of the window lie between the slot of its base and the
recursive one. -/
theorem Vmm.Window.slots (h : v.Window) :
    (pdIndex v.base).toNat * 1024 ≤ pageNo v.base ∧
      pageNo v.base + v.totalPages.toNat ≤ 1023 * 1024 := by
  obtain ⟨h1, h2⟩ := h.window
  have h3 := h.base_aligned
  rw [toNat_pdIndex, pageNo]
  omega

theorem Vmm.Window.inSlots (h : v.Window) {p : Nat} (hp : p < v.totalPages.toNat) :
    InSlots (pdIndex v.base).toNat (pageNo (v.addr p)) := by
  obtain ⟨h1, h2⟩ := h.slots
  rw [h.pageNo_addr hp]
  constructor <;> omega

/-- The address of a page that may be free is not `NULL`. -/
theorem Vmm.Shape.addr_ne_zero (h : v.Shape) {p : Nat} (hp : p < v.totalPages.toNat)
    (hf : test v.bitmap p = false) : v.addr p ≠ 0 := by
  intro h0
  have h1 := h.toNat_addr hp
  rw [h0] at h1
  have h2 : (0 : U32).toNat = 0 := rfl
  have hb : v.base = 0 := BitVec.eq_of_toNat_eq (by rw [h2]; omega)
  have hp0 : p = 0 := by omega
  rw [hp0, h.zero hb] at hf
  exact Bool.noConfusion hf

/-! ## Bits -/

theorem Vmm.Window.page_addr (h : v.Window) {p : Nat} (hp : p < v.totalPages.toNat) :
    (toPage (v.addr p - v.base)).toNat = p := by
  obtain ⟨h1, h2⟩ := h.window
  have h3 := h.toNat_addr hp
  have h4 : v.base ≤ v.addr p := by
    rw [BitVec.le_def]
    omega
  rw [toNat_toPage, BitVec.toNat_sub_of_le h4, h3]
  omega

/-- The bounds check of the bit functions passes on the window. -/
theorem Vmm.Sized.inBitmap (h : v.Sized) {p : Nat} (hp : p < v.totalPages.toNat) :
    ¬ v.bitmapSize.toNat / 4 ≤ p / 32 := by
  have := h.words
  omega

theorem Vmm.Window.inBitmap (h : v.Window) {p : Nat} (hp : p < v.totalPages.toNat) :
    ¬ v.bitmapSize.toNat / 4 ≤ p / 32 := h.sized.inBitmap hp

theorem vmmSet_eq (h : v.Window) {p : Nat} (hp : p < v.totalPages.toNat) :
    vmmSet v (v.addr p) = { v with bitmap := setBit v.bitmap p } := by
  simp only [vmmSet, toNat_wordIndex, toNat_bitIndex, h.page_addr hp, if_neg (h.inBitmap hp)]
  rfl

theorem vmmClear_eq (h : v.Window) {p : Nat} (hp : p < v.totalPages.toNat) :
    vmmClear v (v.addr p) = { v with bitmap := clearBit v.bitmap p } := by
  simp only [vmmClear, toNat_wordIndex, toNat_bitIndex, h.page_addr hp, if_neg (h.inBitmap hp)]
  rfl

theorem vmmTest_ne_zero (h : v.Window) {p : Nat} (hp : p < v.totalPages.toNat) :
    vmmTest v (v.addr p) ≠ 0 ↔ test v.bitmap p = true := by
  simp only [vmmTest, toNat_wordIndex, toNat_bitIndex, h.page_addr hp, if_neg (h.inBitmap hp)]
  rw [and_one_shiftLeft_ne_zero (Nat.mod_lt _ (by decide))]
  rfl

/-- The bits and the counters are no part of the window. -/
theorem Vmm.Window.withBits (h : v.Window) (b : Words 32) (free used lr : U32) :
    Vmm.Window { v with bitmap := b, freePages := free, usedPages := used, largestRun := lr } :=
  ⟨h.base_aligned, h.stop_aligned, h.base_lt, h.stop_le, h.total_eq, h.size_eq⟩

/-! ## Reserving -/

/-- Setting the pages of a run one by one is setting the run. -/
theorem iter_vmmSet (h : v.Window) {p : Nat} : ∀ (n : Nat), p + n ≤ v.totalPages.toNat →
    iter (fun i w => vmmSet w (pageAt (v.addr p) i)) 0 n v
      = { v with bitmap := setRun v.bitmap p n }
  | 0, _ => rfl
  | n + 1, hn => by
      rw [iter_snoc, iter_vmmSet h (p := p) n (by omega), Vmm.pageAt_addr, Nat.zero_add]
      exact vmmSet_eq (h.withBits _ _ _ _) (show p + n < v.totalPages.toNat by omega)

theorem Vmm.Shape.reserved (h : v.Shape) (p : Nat) (n lr : U32) : (v.reserved p n lr).Shape :=
  ⟨h.withBits _ _ _ _, fun hb => by
    show test (setRun v.bitmap p n.toNat) 0 = true
    rw [test_setRun, h.zero hb, Bool.or_true]⟩

/-- **`vmm_reserve`**: the first run that fits is reserved, unless it starts at
address 0; or nothing but the statistics changes. -/
theorem vmmReserve_window (h : v.Window) (n : U32) :
    ((¬ v.Reservable n ∨ ∃ p, FirstRun v.bitmap v.totalPages.toNat n.toNat p ∧ v.addr p = 0) ∧
      ∃ lr, vmmReserve v n = (0, { v with largestRun := lr })) ∨
    (v.Reservable n ∧ ∃ p lr, FirstRun v.bitmap v.totalPages.toNat n.toNat p ∧ v.addr p ≠ 0 ∧
      vmmReserve v n = (v.addr p, v.reserved p n lr)) := by
  by_cases hn : n = 0
  · exact Or.inl ⟨Or.inl fun hc => hc.1 hn, v.largestRun, by simp only [vmmReserve, if_pos hn]⟩
  by_cases hfree : v.freePages < n
  · refine Or.inl ⟨Or.inl fun hc => ?_, v.largestRun, by
      simp only [vmmReserve, if_neg hn, if_pos hfree]⟩
    have := hc.2.1
    rw [BitVec.lt_def] at hfree
    rw [BitVec.le_def] at this
    omega
  have hle : n ≤ v.freePages := by
    rw [BitVec.lt_def] at hfree
    rw [BitVec.le_def]
    omega
  rcases findContiguousPages_cases (b := v.bitmap) hn h.words with ⟨p, hp, hf⟩ | ⟨lr, hlr, hf⟩
  · have hpt := hf.le_total
    have hfind : vmmFindContiguousPages v n
        = (v.addr p, { v with largestRun := BitVec.ofNat 32 n.toNat }) := by
      simp only [vmmFindContiguousPages, hp]
      rfl
    by_cases haddr : v.addr p = 0
    · refine Or.inl ⟨Or.inr ⟨p, hf, haddr⟩, BitVec.ofNat 32 n.toNat, ?_⟩
      simp only [vmmReserve, if_neg hn, if_neg hfree, hfind, if_pos haddr]
    refine Or.inr ⟨⟨hn, hle, p, hpt, hf.free⟩, p, BitVec.ofNat 32 n.toNat, hf, haddr, ?_⟩
    have hs : Vmm.Window { v with largestRun := BitVec.ofNat 32 n.toNat } := h.withBits _ _ _ _
    have hset : iter (fun i w => vmmSet w (pageAt (v.addr p) i)) 0 n.toNat
        { v with largestRun := BitVec.ofNat 32 n.toNat } =
          { v with bitmap := setRun v.bitmap p n.toNat, largestRun := BitVec.ofNat 32 n.toNat } :=
      iter_vmmSet hs n.toNat hpt
    simp only [vmmReserve, if_neg hn, if_neg hfree, hfind, if_neg haddr]
    rw [hset]
    rfl
  · refine Or.inl ⟨Or.inl fun ⟨_, _, q, hq, hfr⟩ => hf q hq hfr, BitVec.ofNat 32 lr, ?_⟩
    simp only [vmmReserve, if_neg hn, if_neg hfree, vmmFindContiguousPages, hlr, if_true]

/-- With page 0 in use it is the first run that fits, or nothing. -/
theorem vmmReserve_cases (h : v.Shape) (n : U32) :
    (¬ v.Reservable n ∧ ∃ lr, vmmReserve v n = (0, { v with largestRun := lr })) ∨
    (v.Reservable n ∧ ∃ p lr, FirstRun v.bitmap v.totalPages.toNat n.toNat p ∧ v.addr p ≠ 0 ∧
      vmmReserve v n = (v.addr p, v.reserved p n lr)) := by
  rcases vmmReserve_window h.toWindow n with ⟨hno | ⟨p, hf, h0⟩, lr, hr⟩ | hres
  · exact Or.inl ⟨hno, lr, hr⟩
  · by_cases hn : n = 0
    · exact Or.inl ⟨fun hc => hc.1 hn, lr, hr⟩
    · have hpos := toNat_pos_of_ne hn
      have hpt := hf.le_total
      have hclr : test v.bitmap p = false := hf.free 0 hpos
      exact absurd h0 (h.addr_ne_zero (show p < v.totalPages.toNat by omega) hclr)
  · exact Or.inr hres

/-! ## Unreserving -/

/-- Clearing the pages of a run one by one is clearing the run. -/
theorem iter_vmmClear (h : v.Window) {p : Nat} : ∀ (n : Nat), p + n ≤ v.totalPages.toNat →
    iter (fun i w => vmmClear w (pageAt (v.addr p) i)) 0 n v
      = { v with bitmap := clearRun v.bitmap p n }
  | 0, _ => rfl
  | n + 1, hn => by
      rw [iter_snoc, iter_vmmClear h (p := p) n (by omega), Vmm.pageAt_addr, Nat.zero_add]
      exact vmmClear_eq (h.withBits _ _ _ _) (show p + n < v.totalPages.toNat by omega)

/-- **`vmm_unreserve`** of a range of the window. -/
theorem vmmUnreserve_eq (h : v.Window) {p : Nat} {n : U32} (hn : n ≠ 0)
    (hp : p + n.toNat ≤ v.totalPages.toNat) (h0 : v.addr p ≠ 0) :
    vmmUnreserve v (v.addr p) n = v.withTally (v.tally.give p n) := by
  obtain ⟨h1, h2⟩ := h.window
  have hpos := toNat_pos_of_ne hn
  have hlt : p < v.totalPages.toNat := by omega
  have haddr := h.toNat_addr hlt
  have hbounds : ¬ (v.addr p < v.base ∨ v.stop ≤ v.addr p) := by
    rw [BitVec.lt_def, BitVec.le_def]
    omega
  have halign : ¬ (v.addr p &&& (pageSize - 1) ≠ 0) := by
    have := h.base_aligned
    rw [not_not]
    apply BitVec.eq_of_toNat_eq
    rw [toNat_pageOffset, haddr]
    show _ = 0
    omega
  simp only [vmmUnreserve, if_neg h0, if_neg hn, if_neg hbounds, if_neg halign]
  rw [iter_vmmClear h n.toNat hp]
  rfl

/-- Unreserving what was just reserved restores the bits and the counters. -/
theorem vmmUnreserve_reserved (h : v.Shape) {p : Nat} {n lr : U32} (hn : n ≠ 0)
    (hf : FirstRun v.bitmap v.totalPages.toNat n.toNat p) (h0 : v.addr p ≠ 0) :
    vmmUnreserve (v.reserved p n lr) (v.addr p) n = { v with largestRun := lr } := by
  rw [show v.addr p = (v.reserved p n lr).addr p from rfl] at h0 ⊢
  rw [vmmUnreserve_eq (h.reserved p n lr).toWindow hn hf.le_total h0]
  have hgive : (v.reserved p n lr).tally.give p n = v.tally := Tally.give_take hf.free
  rw [hgive]
  rfl

end Tomk
