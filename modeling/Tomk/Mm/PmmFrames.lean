/-
# Frames taken one at a time

The callers of the physical memory manager take single frames and give them
back.  This module says what a call keeps and when it succeeds on a
consistent manager (`pmmAlloc_ne_zero_iff`: exactly when a run of clear
pages is there), and it follows a manager from which some frames were taken
one by one: `s.Took F t` says that `t` is `s` with the pages of the list `F`
taken, by bits and by counters.
-/
import Tomk.Mm.PmmInit

namespace Tomk

open WordBits

variable {s t : Pmm}

/-! ## What a call keeps -/

/-- Taking a run of clear pages keeps the manager consistent. -/
theorem Pmm.Consistent.taken (h : s.Consistent) {p : Nat} {n hint lr : U32}
    (hle : n ≤ s.freePages) (hp : p + n.toNat ≤ s.totalPages.toNat)
    (hf : FreeRun s.bitmap p n.toNat) : (s.taken p n hint lr).Consistent where
  shape := ⟨h.shape.total_lt, h.shape.size_eq⟩
  counted := by
    have h1 := clearCount_setRun hf hp
    have h2 := h.counted
    show (s.freePages - n).toNat = clearCount (setRun s.bitmap p n.toNat) s.totalPages.toNat
    rw [BitVec.toNat_sub_of_le hle]
    omega
  tail := fun q h1 h2 => by
    show test (setRun s.bitmap p n.toNat) q = true
    rw [test_setRun, h.tail q h1 h2, Bool.or_true]
  zero := fun h0 => by
    show test (setRun s.bitmap p n.toNat) 0 = true
    rw [test_setRun, h.zero h0, Bool.or_true]

/-- The hint and the statistics are no part of the invariant. -/
theorem Pmm.Consistent.unchanged (h : s.Consistent) (hint lr : U32) :
    Pmm.Consistent { s with hint := hint, largestRun := lr } :=
  ⟨⟨h.shape.total_lt, h.shape.size_eq⟩, h.counted, h.tail, h.zero⟩

/-- Releasing one used page keeps the manager consistent, as long as it is
not page 0. -/
theorem Pmm.Consistent.freed (h : s.Consistent) {phys : U32} (hf : s.Frees phys 1)
    (hused : test s.bitmap (phys.toNat / 4096) = true) (h0 : phys.toNat / 4096 ≠ 0) :
    (pmmFree s phys 1).Consistent := by
  have hir := hf.in_range
  have h1 : (1 : U32).toNat = 1 := rfl
  rw [pmmFree_eq h.shape hf]
  refine ⟨⟨h.shape.total_lt, h.shape.size_eq⟩, ?_, ?_, ?_⟩
  · have h2 := clearCount_clearBit (n := s.totalPages.toNat) (by omega) hused
    have h3 := h.counted
    have h4 := clearCount_le s.bitmap s.totalPages.toNat
    have h5 := h.shape.total_lt
    show (s.freePages + 1).toNat = clearCount (clearBit s.bitmap _) s.totalPages.toNat
    rw [h2, ← h3, BitVec.toNat_add]
    omega
  · intro q hq1 hq2
    have hq : s.totalPages.toNat ≤ q := hq1
    have hne : q ≠ phys.toNat / 4096 := by omega
    show test (clearBit s.bitmap _) q = true
    rw [test_clearBit, decide_eq_false hne, h.tail q hq1 hq2]
    rfl
  · intro hpos
    show test (clearBit s.bitmap _) 0 = true
    rw [test_clearBit, decide_eq_false (Ne.symm h0), h.zero hpos]
    rfl

/-- A run of clear pages does not start with page 0 where that is in use. -/
theorem freeRun_pos (hz : 0 < s.totalPages.toNat → test s.bitmap 0 = true) {p n : Nat}
    (hn : 0 < n) (hp : p + n ≤ s.totalPages.toNat) (hf : FreeRun s.bitmap p n) : 0 < p := by
  rw [Nat.pos_iff_ne_zero]
  rintro rfl
  have h1 := hf 0 hn
  have h2 := hz (by omega)
  exact Bool.noConfusion (h2.symm.trans h1)

/-- Page 0 is never in a run of clear pages of a consistent manager. -/
theorem Pmm.Consistent.run_pos (h : s.Consistent) {p n : Nat} (hn : 0 < n)
    (hp : p + n ≤ s.totalPages.toNat) (hf : FreeRun s.bitmap p n) : 0 < p :=
  freeRun_pos h.zero hn hp hf

theorem toNat_pos_of_ne {n : U32} (h : n ≠ 0) : 0 < n.toNat := by
  rw [Nat.pos_iff_ne_zero]
  exact fun h0 => h (BitVec.eq_of_toNat_eq h0)

/-- The address of a taken run is not 0, and names its first page. -/
theorem runAddr {p : Nat} (hp : 0 < p) (hlt : p < 2 ^ 20) :
    toAddr (BitVec.ofNat 32 p) ≠ 0 ∧ (toAddr (BitVec.ofNat 32 p)).toNat / 4096 = p ∧
      (toAddr (BitVec.ofNat 32 p)).toNat % 4096 = 0 := by
  have hpn := toNat_ofNat_page hlt
  have h1 : (toAddr (BitVec.ofNat 32 p)).toNat = p * 4096 := by
    rw [toNat_toAddr_of_lt (by omega), hpn]
  refine ⟨fun h => ?_, by omega, by omega⟩
  rw [h] at h1
  have h2 : (0 : U32).toNat = 0 := rfl
  omega

/-! ## When a call succeeds -/

/-- A consistent manager with a free page has a clear bit. -/
theorem Pmm.Consistent.exists_clear (h : s.Consistent) (hf : s.freePages ≠ 0) :
    ∃ p, s.Clear p := by
  have hpos : 0 < clearCount s.bitmap s.totalPages.toNat := h.counted ▸ toNat_pos_of_ne hf
  obtain ⟨p, h1, h2⟩ := clearCount_pos.mp hpos
  exact ⟨p, h1, h2⟩

/-- **When `pmm_alloc` succeeds**: when a run of clear pages is there. -/
theorem pmmAlloc_ne_zero_iff (h : s.Consistent) {n : U32} (hn : n ≠ 0) :
    (pmmAlloc s n).1 ≠ 0 ↔
      ∃ q, q + n.toNat ≤ s.totalPages.toNat ∧ FreeRun s.bitmap q n.toNat := by
  have hpos := toNat_pos_of_ne hn
  have htl := h.shape.total_lt
  constructor
  · intro hne
    rcases pmmAlloc_cases h.shape n with ⟨hint, lr, hr⟩ | ⟨p, hint, lr, _, _, hp, hf, _⟩
    · exact absurd (by rw [hr]) hne
    · exact ⟨p, hp, hf⟩
  · rintro ⟨q, hq, hf⟩
    have hle : n.toNat ≤ s.freePages.toNat := h.counted ▸ clearCount_freeRun_le hf hq
    have hfree : ¬ s.freePages < n := by
      rw [BitVec.lt_def]
      omega
    have hne0 : s.freePages ≠ 0 := by
      rintro h0
      rw [h0] at hle
      exact absurd hle (Nat.not_le.mpr hpos)
    by_cases h1 : n = 1
    · have hrun : pmmAlloc s n = pmmAllocOne s := by
        simp only [pmmAlloc, if_neg hn, if_neg hfree, if_pos h1]
      rw [hrun]
      rcases pmmAllocOne_cases h.shape with ⟨h0, _⟩ | ⟨p, hint, _, hp, _, _, _, hr⟩ | ⟨_, hno, _⟩
      · exact absurd h0 hne0
      · rw [hr]
        have hp1 := hp.lt_total
        have hrun1 : FreeRun s.bitmap p 1 := fun i hi => by
          rw [show p + i = p by omega]
          exact hp.clear
        exact (runAddr (h.run_pos Nat.one_pos (by omega) hrun1) (by omega)).1
      · obtain ⟨p, hp⟩ := h.exists_clear hne0
        exact absurd hp (hno h.tail p)
    · rcases pmmFindContiguousPages_cases h.shape hn with ⟨p, lr, hfr, hr⟩ | ⟨lr, hno, _⟩
      · have hp1 := hfr.le_total
        have hp0 := h.run_pos hpos hp1 hfr.free
        obtain ⟨haddr, _, _⟩ := runAddr hp0 (by omega)
        have hb : BitVec.ofNat 32 p ≠ 0 := by
          intro hc
          rw [hc] at haddr
          exact haddr rfl
        simp only [pmmAlloc, if_neg hn, if_neg hfree, if_neg h1, hr, if_neg hb]
        exact haddr
      · exact absurd hf (hno q hq)

/-- For one page: when a page is free. -/
theorem pmmAlloc_one_ne_zero_iff (h : s.Consistent) :
    (pmmAlloc s 1).1 ≠ 0 ↔ s.freePages ≠ 0 := by
  rw [pmmAlloc_ne_zero_iff h (by decide)]
  constructor
  · rintro ⟨q, hq, hf⟩ h0
    have hle := clearCount_freeRun_le hf hq
    rw [← h.counted, h0] at hle
    exact absurd hle (by decide)
  · intro hf
    obtain ⟨p, hp⟩ := h.exists_clear hf
    refine ⟨p, hp.lt_total, fun i hi => ?_⟩
    rw [show p + i = p by have : i < 1 := hi; omega]
    exact hp.clear

theorem pmmAlloc_consistent (h : s.Consistent) (n : U32) : (pmmAlloc s n).2.Consistent := by
  rcases pmmAlloc_cases h.shape n with ⟨hint, lr, hr⟩ | ⟨p, hint, lr, _, hle, hp, hf, hr⟩
  · rw [hr]
    exact h.unchanged hint lr
  · rw [hr]
    exact h.taken hle hp hf

theorem pmmAlloc_shape (h : s.Shape) (n : U32) : (pmmAlloc s n).2.Shape := by
  rcases pmmAlloc_cases h n with ⟨hint, lr, hr⟩ | ⟨p, hint, lr, _, _, _, _, hr⟩ <;> rw [hr] <;>
    exact ⟨h.total_lt, h.size_eq⟩

theorem pmmFree_shape (h : s.Shape) (phys n : U32) : (pmmFree s phys n).Shape := by
  by_cases hf : s.Frees phys n
  · rw [pmmFree_eq h hf]
    exact ⟨h.total_lt, h.size_eq⟩
  · rw [pmmFree_rejected hf]
    exact h

/-! ## A list of frames -/

/-- `t` is `s` with the pages of `F` taken one by one. -/
structure Pmm.Took (s : Pmm) (F : List Nat) (t : Pmm) : Prop where
  frame : t = { s with
    bitmap := t.bitmap
    freePages := s.freePages - BitVec.ofNat 32 F.length
    usedPages := s.usedPages + BitVec.ofNat 32 F.length
    hint := t.hint
    largestRun := t.largestRun }
  bits : ∀ q, test t.bitmap q = (decide (q ∈ F) || test s.bitmap q)
  clear : ∀ q ∈ F, s.Clear q ∧ 0 < q
  nodup : F.Nodup

theorem Pmm.Took.refl (s : Pmm) : s.Took [] s where
  frame := by simp
  bits := fun q => by simp
  clear := fun _ hq => absurd hq List.not_mem_nil
  nodup := List.nodup_nil

theorem Pmm.Took.total {F : List Nat} (h : s.Took F t) : t.totalPages = s.totalPages := by
  rw [h.frame]

theorem Pmm.Took.shape {F : List Nat} (h : s.Took F t) (hs : s.Shape) : t.Shape := by
  constructor
  · rw [h.total]
    exact hs.total_lt
  · rw [h.total, show t.bitmapSize = s.bitmapSize by rw [h.frame]]
    exact hs.size_eq

/-- Taking one more. -/
theorem Pmm.Took.alloc {F : List Nat} (h : s.Took F t) (hs : s.Shape)
    (hne : (pmmAlloc t 1).1 ≠ 0) :
    ∃ f, (pmmAlloc t 1).1 = toAddr (BitVec.ofNat 32 f) ∧ s.Took (F ++ [f]) (pmmAlloc t 1).2 := by
  have ht := h.shape hs
  have htl := hs.total_lt
  rcases pmmAlloc_cases ht 1 with ⟨hint, lr, hr⟩ | ⟨f, hint, lr, _, _, hf, hfree, hr⟩
  · exact absurd (by rw [hr]) hne
  · have h1 : (1 : U32).toNat = 1 := rfl
    rw [h1] at hf hfree
    rw [h.total] at hf
    have hclr := hfree 0 Nat.one_pos
    rw [Nat.add_zero, h.bits f, Bool.or_eq_false_iff, decide_eq_false_iff_not] at hclr
    have hf0 : 0 < f := by
      rw [Nat.pos_iff_ne_zero]
      rintro rfl
      rw [hr] at hne
      exact hne rfl
    refine ⟨f, by rw [hr], ?_⟩
    rw [hr]
    refine ⟨?_, fun q => ?_, ?_, ?_⟩
    · rw [Pmm.taken, h.frame]
      simp only [List.length_append, List.length_singleton]
      congr 1 <;> bv_omega
    · show test (setRun t.bitmap f 1) q = _
      rw [test_setRun, h.bits q, ← Bool.or_assoc, ← Bool.decide_or]
      congr 1
      rw [decide_eq_decide, List.mem_append, List.mem_singleton]
      constructor
      · rintro (hq | hq)
        · exact Or.inr (by omega)
        · exact Or.inl hq
      · rintro (hq | rfl)
        · exact Or.inr hq
        · exact Or.inl ⟨Nat.le_refl _, Nat.lt_succ_self _⟩
    · intro q hq
      rcases List.mem_append.mp hq with hq | hq
      · exact h.clear q hq
      · rw [List.mem_singleton] at hq
        subst hq
        exact ⟨⟨by omega, hclr.2⟩, hf0⟩
    · rw [List.nodup_append]
      refine ⟨h.nodup, List.nodup_singleton f, fun a ha b hb => ?_⟩
      rw [List.mem_singleton] at hb
      rintro rfl
      exact hclr.1 (hb ▸ ha)

/-- A call that finds no frame moves the hint and the statistics only. -/
theorem Pmm.Took.alloc_zero {F : List Nat} (h : s.Took F t) (hs : s.Shape)
    (hz : 0 < s.totalPages.toNat → test s.bitmap 0 = true) (he : (pmmAlloc t 1).1 = 0) :
    s.Took F (pmmAlloc t 1).2 := by
  have htl := hs.total_lt
  rcases pmmAlloc_cases (h.shape hs) 1 with ⟨hint, lr, hr⟩ | ⟨f, hint, lr, _, _, hle, hf, hr⟩
  · rw [hr]
    exact ⟨by rw [h.frame], h.bits, h.clear, h.nodup⟩
  · have h1 : (1 : U32).toNat = 1 := rfl
    rw [h1, h.total] at hle
    rw [hr] at he
    rcases Nat.eq_zero_or_pos f with rfl | hpos
    · -- page 0 is in use
      have hclr := hf 0 Nat.one_pos
      rw [Nat.zero_add, h.bits 0, hz (by omega), Bool.or_true] at hclr
      exact Bool.noConfusion hclr
    · exact absurd he (runAddr hpos (by omega)).1

/-- The range of one frame that was taken is one `pmm_free` accepts. -/
theorem Pmm.Took.frees {F : List Nat} (h : s.Took F t) (hs : s.Shape) {f : Nat} (hf : f ∈ F) :
    t.Frees (toAddr (BitVec.ofNat 32 f)) 1 ∧ (toAddr (BitVec.ofNat 32 f)).toNat / 4096 = f ∧
      toAddr (BitVec.ofNat 32 f) ≠ 0 := by
  obtain ⟨hc, h0⟩ := h.clear f hf
  have hlt := hc.lt_total
  have htl := hs.total_lt
  obtain ⟨h1, h2, h3⟩ := runAddr h0 (show f < 2 ^ 20 by omega)
  refine ⟨⟨by decide, h3, ?_⟩, h2, h1⟩
  rw [h2, h.total]
  exact hlt

/-- Giving the first one back. -/
theorem Pmm.Took.free {F : List Nat} {f : Nat} (h : s.Took (f :: F) t) (hs : s.Shape) :
    s.Took F (pmmFree t (toAddr (BitVec.ofNat 32 f)) 1) := by
  obtain ⟨hfrees, hpage, _⟩ := h.frees hs List.mem_cons_self
  have hno := List.nodup_cons.mp h.nodup
  obtain ⟨hc, _⟩ := h.clear f List.mem_cons_self
  rw [pmmFree_eq (h.shape hs) hfrees, hpage]
  refine ⟨?_, fun q => ?_, fun q hq => h.clear q (List.mem_cons_of_mem f hq), hno.2⟩
  · rw [h.frame]
    simp only [List.length_cons]
    congr 1 <;> bv_omega
  · show test (clearBit t.bitmap f) q = _
    rw [test_clearBit, h.bits q]
    by_cases hq : q = f
    · subst hq
      simp [hno.1, hc.clear]
    · simp [hq]

theorem Pmm.Took.count {F : List Nat} (h : s.Took F t) :
    clearCount t.bitmap s.totalPages.toNat + F.length = clearCount s.bitmap s.totalPages.toNat := by
  have hset : clearSet t.bitmap s.totalPages.toNat
      = clearSet s.bitmap s.totalPages.toNat \ F.toFinset := by
    ext q
    simp only [mem_clearSet, h.bits q, Finset.mem_sdiff, List.mem_toFinset, Bool.or_eq_false_iff,
      decide_eq_false_iff_not]
    tauto
  have hsub : F.toFinset ⊆ clearSet s.bitmap s.totalPages.toNat := by
    intro q hq
    have hc := (h.clear q (List.mem_toFinset.mp hq)).1
    exact mem_clearSet.mpr ⟨hc.lt_total, hc.clear⟩
  have hcard := Finset.card_sdiff_add_card_eq_card hsub
  rw [List.toFinset_card_of_nodup h.nodup, ← hset] at hcard
  exact hcard

/-- Taking frames keeps a manager consistent. -/
theorem Pmm.Took.consistent {F : List Nat} (h : s.Took F t) (hs : s.Consistent) :
    t.Consistent := by
  have hcount := h.count
  have hle := clearCount_le s.bitmap s.totalPages.toNat
  have htl := hs.shape.total_lt
  have hc := hs.counted
  have hlen : (BitVec.ofNat 32 F.length).toNat = F.length := by
    rw [BitVec.toNat_ofNat]
    omega
  refine ⟨h.shape hs.shape, ?_, fun q h1 h2 => ?_, fun h0 => ?_⟩
  · rw [h.total, show t.freePages = s.freePages - BitVec.ofNat 32 F.length by rw [h.frame],
      BitVec.toNat_sub_of_le (by rw [BitVec.le_def]; omega), hlen]
    omega
  · rw [h.total] at h1
    rw [show t.bitmapSize = s.bitmapSize by rw [h.frame]] at h2
    rw [h.bits q, hs.tail q h1 h2, Bool.or_true]
  · rw [h.total] at h0
    rw [h.bits 0, hs.zero h0, Bool.or_true]

/-- The free pages that are left. -/
theorem Pmm.Took.free_left {F : List Nat} (h : s.Took F t) (hs : s.Consistent) :
    t.freePages.toNat + F.length = s.freePages.toNat := by
  rw [(h.consistent hs).counted, hs.counted, h.total]
  exact h.count

end Tomk
