/-
# The size of an allocation

`heap_alloc` rounds the size up, and `heap_grow` adds the two headers and rounds
to pages.  Both sums wrap: from `0xFFFFFFF1` on the rounded size is 0, and from
`0xFFFFEFD1` on the pages asked for are the 16 that are always asked for.

So an allocation of nearly 4 GiB is given a block of next to nothing, or it fails
and the 16 pages stay in the heap (`heapAlloc_wraps`).  It does as it should up
to `0xFFFFEFD0`, and above that only if it fails before it has a block, which
needs a manager that has no 16 pages (`heapAlloc_sized_iff`).
-/
import Tomk.Mm.KheapRun

namespace Tomk

open DList Tiling Function

variable {V : Type} {z : Bool} {ops : VmmOps V} {h h' : Heap} {v v' : V} {rs : List U32}
  {ps : U32 → Prop} {B : U32 → List U32} {r b n size : U32} {c : Bool}

/-! ## What is asked -/

/-- The lists are exactly as they were. -/
structure SameHeap (h h' : Heap) (rs : List U32) (B : U32 → List U32) : Prop where
  head : h'.head = h.head
  tail : h'.tail = h.tail
  regions : ∀ r ∈ rs, h'.regions r = h.regions r
  blocks : ∀ r ∈ rs, ∀ b ∈ B r, h'.blocks b = h.blocks b

/-- The pointer is that of a block in use of the heap, with a payload of the
size or more; or it is `NULL`, and nothing has changed. -/
def AllocSized (z : Bool) (ops : VmmOps V) (ps : U32 → Prop) (h : Heap) (rs : List U32)
    (B : U32 → List U32) (size : U32) (res : U32 × Heap × V) : Prop :=
  (res.1 ≠ 0 → ∃ rs' B', HeapOk z ops res.2.1 res.2.2 rs' ps B' ∧
    ∃ r ∈ rs', ∃ b ∈ B' r, res.2.1.Holds b (res.1, size)) ∧
  (res.1 = 0 → SameHeap h res.2.1 rs B)

/-- The property as it is asked: for every heap and every size. -/
def HeapAllocSized : Prop :=
  ∀ (V : Type) (z : Bool) (ops : VmmOps V) (h : Heap) (v : V) (rs : List U32) (ps : U32 → Prop)
    (B : U32 → List U32), HeapOk z ops h v rs ps B → ∀ (size : U32) (c : Bool), size ≠ 0 →
      ∃ res, heapAlloc ops h v size c = some res ∧ AllocSized z ops ps h rs B size res

/-! ## The sums -/

theorem toNat_allocSize (size : U32) :
    (allocSize size).toNat = (size.toNat + 15) % 2 ^ 32 / 16 * 16 := by
  have hsum : (size + (blockAlignment - 1)).toNat = (size.toNat + 15) % 2 ^ 32 := BitVec.toNat_add _ _
  rw [allocSize, align, ← hsum]
  exact toNat_and_not_mask _ 4

/-- Where the sum of `heap_grow` wraps, it asks for what it always asks for. -/
theorem growCount_wraps (hs : 0xFFFFEFD0 < size.toNat) : growCount (allocSize size) = growPages := by
  have h1 : regionSize.toNat = 32 := by decide
  have h2 : headerSize.toNat = 16 := by decide
  have h3 : (pageSize - 1).toNat = 4095 := by decide
  have h4 : growPages.toNat = 16 := by decide
  have hlt := size.isLt
  have hp : (toPage (allocSize size + regionSize + headerSize + (pageSize - 1))).toNat ≤ 1 := by
    rw [toNat_toPage, BitVec.toNat_add, BitVec.toNat_add, BitVec.toNat_add, h1, h2, h3,
      toNat_allocSize]
    omega
  simp only [growCount, BitVec.lt_def, h4]
  exact if_pos (by omega)

/-- No block of a heap is so big. -/
theorem RegionShape.size_le {bs : List U32} (hs : RegionShape z h r bs) (hb : b ∈ bs) :
    (h.blocks b).size.toNat ≤ 0xFFFFEFD0 := by
  have hr0 : 0 < r.toNat := Nat.pos_of_ne_zero fun h0 => hs.ne (BitVec.eq_of_toNat_eq h0)
  have h1 := hs.aligned
  have h2 := hs.fits
  have h3 := hs.stop_le hb
  have h4 := (hs.inside hb).1
  omega

/-! ## Blocks -/

/-- The block that is allocated has the size asked for, or was too small to be
split. -/
theorem blockAlloc_size (hd : (blockAlloc h r b n).1 = true) :
    ((blockAlloc h r b n).2.blocks b).size = n ∨
      ((blockAlloc h r b n).2.blocks b).size < n + headerSize + minBlockSize := by
  simp only [blockAlloc] at hd ⊢
  split at hd
  · cases hd
  · split at hd
    · cases hd
    · split at hd
      · cases hd
      · next h1 h2 h3 =>
          rw [if_neg h1, if_neg h2, if_neg h3]
          by_cases hsplit : n + headerSize + minBlockSize ≤ (h.blocks b).size
          · simp only [if_pos hsplit, Heap.setBlock_blocks, if_true]
            exact Or.inl trivial
          · simp only [if_neg hsplit, Heap.setBlock_blocks, if_true]
            exact Or.inr (BitVec.not_le.mp hsplit)

/-- A block that was allocated for the size 0 holds none of the sizes that
wrap to it. -/
theorem blockAlloc_zero (hd : (blockAlloc h r b 0).1 = true) (hs : 0xFFFFFFF0 < size.toNat) :
    ¬ (blockAlloc h r b 0).2.Holds b (blockPtr b, size) := by
  rintro ⟨_, _, hle⟩
  replace hle : size.toNat ≤ ((blockAlloc h r b 0).2.blocks b).size.toNat := hle
  have h32 : (0 + headerSize + minBlockSize).toNat = 32 := by decide
  have hlt := ((blockAlloc h r b 0).2.blocks b).size.isLt
  rcases blockAlloc_size hd with heq | hlt
  · rw [heq] at hle
    have h0 : (0 : U32).toNat = 0 := rfl
    omega
  · rw [BitVec.lt_def, h32] at hlt
    omega

/-! ## The two ways -/

theorem SameHeap.refl (h : Heap) (rs : List U32) (B : U32 → List U32) : SameHeap h h rs B :=
  ⟨rfl, rfl, fun _ _ => rfl, fun _ _ _ _ => rfl⟩

/-- A region that was appended is new at the end. -/
theorem Appended.changes {n : U32} {c : Bool} {h' : Heap} {v' : V}
    (ha : Appended z ops h v rs ps B n c r h' v') (hk : HeapOk z ops h v rs ps B) :
    ¬ SameHeap h h' rs B := by
  intro hsame
  have htail : h'.tail = r := by
    rw [ha.heap]
    simp only [regionAppend, if_neg ha.ne]
  have hlast : h.tail = rs.getLastD 0 := hk.ring.tail
  rw [← hsame.tail, htail] at hlast
  have hmem : r ∈ 0 :: rs := by
    rw [hlast]
    exact List.getLastD_mem_cons
  rcases List.mem_cons.mp hmem with h0 | hmem
  · exact ha.ne h0
  · exact ha.new (Or.inl hmem)

/-! ## The sizes that do not wrap -/

/-- **Up to `0xFFFFEFD0`** the block is big enough, and `NULL` leaves the heap as
it was. -/
theorem HeapOk.heapAlloc_sized (hk : HeapOk z ops h v rs ps B) (h0 : size ≠ 0)
    (hs : size.toNat ≤ 0xFFFFEFD0) (c : Bool) :
    ∃ res, heapAlloc ops h v size c = some res ∧ AllocSized z ops ps h rs B size res := by
  obtain ⟨hpos, _, hle, _⟩ := allocSize_spec h0 (Nat.le_trans hs (by decide))
  have hlive : LiveOk h rs B [] := ⟨List.nodup_nil, fun _ ha => nomatch ha⟩
  obtain ⟨res, hrun, rs', B', hk', hl'⟩ := hk.heapAlloc_live hlive (fun _ _ => hpos) (fun _ => hle) c
  refine ⟨res, hrun, fun hne => ⟨rs', B', hk', ?_⟩, fun hnull => ?_⟩
  · rw [if_neg hne] at hl'
    exact hl'.block _ List.mem_cons_self
  · rcases hk.heapAlloc_cases h0 c with ⟨_, hnew⟩ | ⟨r, b, hs⟩
    · have hres : res = allocNew ops h v (allocSize size) c := Option.some.inj (hrun.symm.trans hnew)
      have hn : (allocSize size).toNat ≤ 0xFFFFEFD0 := by
        rw [toNat_allocSize]
        omega
      rcases hk.allocNew_cases (allocSize size) c with ⟨v', _, hheap, _⟩ | ⟨r, h2, v', ha⟩
      · rw [hres, hheap]
        exact SameHeap.refl h rs B
      · exact absurd (hres ▸ hnull) (hk.allocNew_ne hn ha.got)
    · rw [hs.run] at hrun
      cases hrun
      exact absurd hnull hs.ptr_ne

/-! ## The sizes that wrap -/

/-- What is left of the request: no suitable block, and no pages. -/
def FailsFirst (ops : VmmOps V) (h : Heap) (v : V) (size : U32) (c : Bool) : Prop :=
  (0xFFFFFFF0 < size.toNat → blockFindFree h 0 c = some none) ∧ (ops.alloc v c growPages).1 = 0

theorem allocSize_zero (hs : 0xFFFFFFF0 < size.toNat) : allocSize size = 0 := by
  apply BitVec.eq_of_toNat_eq
  have hlt := size.isLt
  rw [toNat_allocSize]
  show _ = 0
  omega

/-- **Above** it the request is served as it should exactly where it fails
before there is a block. -/
theorem HeapOk.heapAlloc_wrapped (hk : HeapOk z ops h v rs ps B) (hs : 0xFFFFEFD0 < size.toNat)
    (c : Bool) :
    (∃ res, heapAlloc ops h v size c = some res ∧ AllocSized z ops ps h rs B size res) ↔
      FailsFirst ops h v size c := by
  have h0 : size ≠ 0 := by
    rintro rfl
    exact absurd hs (by decide)
  have hcount := growCount_wraps hs
  rcases hk.heapAlloc_cases h0 c with ⟨hfind, hrun⟩ | ⟨r, b, hs⟩
  · -- no block is suitable
    have hnone : 0xFFFFFFF0 < size.toNat → blockFindFree h 0 c = some none := fun hbig => by
      rw [← allocSize_zero hbig]
      exact hfind
    rw [hrun]
    rcases hk.allocNew_cases (allocSize size) c with ⟨v', ha, hnew, _⟩ | ⟨r, h2, v', ha⟩
    · rw [hcount] at ha
      rw [hnew]
      exact ⟨fun _ => ⟨hnone, ha⟩, fun _ => ⟨_, rfl, fun hne => absurd rfl hne,
        fun _ => SameHeap.refl h rs B⟩⟩
    · have hgot := ha.got
      rw [hcount] at hgot
      refine ⟨?_, fun hf => absurd hf.2 hgot⟩
      rintro ⟨res, hres, hsound, hsame⟩
      cases hres
      exfalso
      rw [ha.run] at hsound hsame
      by_cases hbig : 0xFFFFFFF0 < size.toNat
      · rw [allocSize_zero hbig] at hsound
        have hdone : (blockAlloc h2 r (regionBlock r) 0).1 = true :=
          blockAlloc_done ha.ne ha.block_ne (BitVec.le_def.mpr (Nat.zero_le _))
        rw [hdone, if_pos rfl] at hsound
        obtain ⟨_, _, _, _, _, b, _, hh⟩ := hsound ha.ptr_ne
        rw [← blockPtr_inj hh.1] at hh
        exact blockAlloc_zero hdone hbig hh
      · -- 16 pages are not enough, and stay
        have hsmall : (h2.blocks (regionBlock r)).size < allocSize size := by
          have hg : growPages.toNat = 16 := by decide
          have hroom := ha.room
          rw [hcount] at hroom
          rw [BitVec.lt_def, toNat_allocSize]
          omega
        rw [blockAlloc_small hsmall] at hsame
        exact ha.changes hk (hsame rfl)
  · -- a block is suitable: the size is 0
    have hok := hk.region r (Or.inl hs.region)
    have hle := hs.big
    have hbig : 0xFFFFFFF0 < size.toNat := by
      have hsize := hok.size_le hs.block
      rw [BitVec.le_def, toNat_allocSize] at hle
      omega
    have hdone := hs.done
    have hfound := hs.found
    rw [hs.run]
    rw [allocSize_zero hbig] at hdone hfound ⊢
    refine ⟨?_, fun hf => ?_⟩
    · rintro ⟨res, hres, hsound, _⟩
      cases hres
      obtain ⟨_, _, _, _, _, b', _, hh⟩ := hsound hs.ptr_ne
      rw [← blockPtr_inj hh.1] at hh
      exact absurd hh (blockAlloc_zero hdone hbig)
    · have hnone := hf.1 hbig
      rw [hfound] at hnone
      cases hnone

/-- **The sizes of allocations**: the block is big enough, or `NULL` leaves the
heap as it was, exactly for the sizes up to `0xFFFFEFD0`, and for those above
that fail before there is a block. -/
theorem heapAlloc_sized_iff (hk : HeapOk z ops h v rs ps B) (h0 : size ≠ 0) (c : Bool) :
    (∃ res, heapAlloc ops h v size c = some res ∧ AllocSized z ops ps h rs B size res) ↔
      size.toNat ≤ 0xFFFFEFD0 ∨ FailsFirst ops h v size c := by
  by_cases hs : size.toNat ≤ 0xFFFFEFD0
  · exact iff_of_true (hk.heapAlloc_sized h0 hs c) (Or.inl hs)
  · rw [hk.heapAlloc_wrapped (Nat.lt_of_not_le hs) c]
    exact (or_iff_right hs).symm

/-! ## An empty heap -/

theorem emptyHeap_ok : HeapOk z rangeVmm emptyHeap (0x100000 : U32) [] NoPending fun _ => [] :=
  heapInit_ok _ (show (0x100000 : U32).toNat % 4096 = 0 by decide) _

theorem heapAlloc_sized_hundred : (∃ res, heapAlloc rangeVmm emptyHeap 0x100000 100 false = some res ∧
    AllocSized false rangeVmm NoPending emptyHeap [] (fun _ => []) 100 res) ↔
      (100 : U32).toNat ≤ 0xFFFFEFD0 ∨ FailsFirst rangeVmm emptyHeap 0x100000 100 false :=
  heapAlloc_sized_iff emptyHeap_ok (by decide) false

/-- **A request of `0xFFFFFFFF` bytes** is given a block with no payload. -/
theorem heapAlloc_wraps : ¬ HeapAllocSized := by
  intro hall
  have hs := hall U32 false rangeVmm emptyHeap 0x100000 [] NoPending (fun _ => []) emptyHeap_ok
    0xFFFFFFFF false (by decide)
  obtain ⟨_, hpages⟩ := (emptyHeap_ok.heapAlloc_wrapped (by decide) false).mp hs
  exact absurd hpages (by decide +kernel)

end Tomk
