/-
# `mminit.c`: setting up the memory managers

`mminit` chains the bootstrap allocator, `pmm_init` and `vmm_init`, and then
marks the first megabyte, the kernel image and the bootstrap allocations
used in both managers.  The memory map it is given is the one `mb_init`
collects; the heap, which only records the window it works on, is left to
its own modules.

`mminit_spec` is the state it leaves, for every image and every memory map:
both managers are consistent, the boot directory still has the shape of a
kernel directory, and the frames of the kernel image are in use.
-/
import Tomk.Init.Entry
import Tomk.Mm.VmmAtomic

namespace Tomk

open WordBits CFor

/-! ## `kinit_alloc.c` -/

structure KinitAlloc where
  base : U32
  next : U32
  limit : U32
  enabled : Bool

def kinitAllocInit (base limit : U32) : Option KinitAlloc :=
  if base &&& (pageSize - 1) = 0 ∧ limit &&& (pageSize - 1) = 0 then some ⟨base, base, limit, true⟩
  else none

def defaultAlignment : U32 := 0x10

/-- `kinit_alloc_align`: the address, the allocator and the tables. -/
def kinitAllocAlign (L : Layout) (ka : KinitAlloc) (m : Mmu) (size algn : U32) :
    Option (U32 × KinitAlloc × Mmu) :=
  if ka.enabled then
    let a := if algn = 0 then defaultAlignment else algn
    let p := align ka.next a
    if ka.limit < (p - ka.base) + size then some (0, ka, m)
    else do
      let page := p &&& 0xFFFFF000#32
      let m ← pgMap L m page (v2p page) pteRw (toPage ((p &&& 0xFFF) + size + (pageSize - 1)))
      pure (p, { ka with next := p + size }, m)
  else none

def kinitAlloc (L : Layout) (ka : KinitAlloc) (m : Mmu) (size : U32) :
    Option (U32 × KinitAlloc × Mmu) :=
  kinitAllocAlign L ka m size 0

def kinitAllocFinalize (ka : KinitAlloc) : Option KinitAlloc :=
  if ka.enabled ∧ ka.base < ka.next then
    some { ka with enabled := false, limit := ka.next - ka.base }
  else none

/-! ## `mminit.c` -/

/-- `pmm_init`, with `kinit_alloc` for its bitmap. -/
def pmmInit (L : Layout) (map : KPhysMap) (s : Pmm) (ka : KinitAlloc) (m : Mmu) :
    Option (Pmm × KinitAlloc × Mmu) := do
  if map.regions = [] then none
  else
    let s := pmmSizes s map
    let (p, ka, m) ← kinitAlloc L ka m s.bitmapSize
    if p = 0 then none else pure (pmmFill s map, ka, m)

/-- `vmm_init`, with `kinit_alloc` for its bitmap. -/
def vmmInit (L : Layout) (base stop : U32) (v : Vmm) (ka : KinitAlloc) (m : Mmu) :
    Option (Vmm × KinitAlloc × Mmu) := do
  let v ← vmmSizes v base stop
  let (p, ka, m) ← kinitAlloc L ka m v.bitmapSize
  if p = 0 then none
  else
    let v ← vmmFill v
    pure (v, ka, m)

/-- `mminit`, over whatever the two managers held before. -/
def mminit (L : Layout) (map : KPhysMap) (m : Mm) : Option Mm := do
  let kbase := p2v kphys
  let kend := align L.secKend pageSize
  let ka ← kinitAllocInit kend 0x00100000
  let (pmm, ka, mmu) ← pmmInit L map m.pmm ka m.mmu
  let (vmm, ka, mmu) ← vmmInit L kvirt kvirtEnd m.vmm ka mmu
  let ka ← kinitAllocFinalize ka
  let ksize := align (kend - kbase) pageSize
  let kinitSize := align (ka.next - ka.base) pageSize
  let pmm := pmmMarkUsed pmm 0x00000000 0x100000
  let pmm := pmmMarkUsed pmm (v2p kbase) ksize
  let pmm := pmmMarkUsed pmm (v2p ka.base) kinitSize
  let vmm ← vmmMarkUsed vmm (p2v 0x00000000) 0x100000
  let vmm ← vmmMarkUsed vmm kbase ksize
  let vmm ← vmmMarkUsed vmm ka.base kinitSize
  pure ⟨vmm, pmm, mmu⟩

/-- What `kinit_alloc` hands out while `mminit` runs: the two bitmaps, with their
sizes. -/
def kinitHanded (L : Layout) (map : KPhysMap) (m : Mm) : Option (List (U32 × U32)) := do
  let ka ← kinitAllocInit (align L.secKend pageSize) 0x00100000
  let s := pmmSizes m.pmm map
  let (p, ka, mmu) ← kinitAlloc L ka m.mmu s.bitmapSize
  let v ← vmmSizes m.vmm kvirt kvirtEnd
  let (q, _, _) ← kinitAlloc L ka mmu v.bitmapSize
  pure [(p, s.bitmapSize), (q, v.bitmapSize)]

/-- The physical addresses the kernel occupies when it has booted: the first
megabyte, the image, and what was handed out. -/
def KernelByte (L : Layout) (handed : List (U32 × U32)) (b : Nat) : Prop :=
  b < 0x100000 ∨ (0x100000 ≤ b ∧ b < (v2p L.secKend).toNat) ∨
    ∃ x ∈ handed, (v2p x.1).toNat ≤ b ∧ b < (v2p x.1).toNat + x.2.toNat

/-- Their pages are in use in both managers, as far as there are such pages. -/
structure Mm.Reserves (m : Mm) (L : Layout) (handed : List (U32 × U32)) : Prop where
  pmm : ∀ b, KernelByte L handed b → b / 4096 < m.pmm.totalPages.toNat →
    test m.pmm.bitmap (b / 4096) = true
  vmm : ∀ b, KernelByte L handed b → b / 4096 < m.vmm.totalPages.toNat →
    test m.vmm.bitmap (b / 4096) = true

/-! ## Marking in the window -/

/-- `w` is `v` with the pages `lo ≤ q < hi` of the window in use. -/
structure Vmm.Marked (v w : Vmm) (lo hi : Nat) : Prop where
  frame : w = v.withTally w.tally
  tally : v.tally.Marked true v.totalPages.toNat w.tally lo hi

variable {v w : Vmm} {lo hi : Nat}

theorem Vmm.Marked.window (h : v.Marked w lo hi) (hv : v.Window) : w.Window := by
  rw [h.frame]
  exact hv.withBits _ _ _ v.largestRun

theorem Vmm.Marked.total (h : v.Marked w lo hi) : w.totalPages = v.totalPages := by
  rw [h.frame]
  rfl

theorem Vmm.Marked.base (h : v.Marked w lo hi) : w.base = v.base := by
  rw [h.frame]
  rfl

theorem Vmm.Marked.stop (h : v.Marked w lo hi) : w.stop = v.stop := by
  rw [h.frame]
  rfl

theorem Vmm.Marked.addr (h : v.Marked w lo hi) (p : Nat) : w.addr p = v.addr p := by
  rw [h.frame]
  rfl

theorem Vmm.Marked.trans {u : Vmm} {mid : Nat} (h : v.Marked w lo mid) (h' : w.Marked u mid hi)
    (h1 : lo ≤ mid) (h2 : mid ≤ hi) : v.Marked u lo hi where
  frame := by
    rw [h'.frame, h.frame]
    rfl
  tally := h.tally.trans (h.total ▸ h'.tally) h1 h2

/-- One turn of `vmm_mark_used`. -/
theorem Vmm.Marked.turn (hv : v.Window) (h : v.Marked w lo hi) (hle : lo ≤ hi)
    (hlt : hi < v.totalPages.toNat) {start : U32} {i : Nat} (hat : pageAt start i = v.addr hi) :
    v.Marked (vmmMarkUsedTurn start i w) lo (hi + 1) := by
  have hw := h.window hv
  have hlt' : hi < w.totalPages.toNat := by rwa [h.total]
  have hn : v.totalPages.toNat < 2 ^ 32 := v.totalPages.isLt
  simp only [vmmMarkUsedTurn, hat, ← h.addr]
  split
  · next ht =>
    rw [vmmTest_ne_zero hw hlt'] at ht
    exact ⟨h.frame, h.tally.skip (Or.inr ht) hle⟩
  · next ht =>
    rw [vmmTest_ne_zero hw hlt', Bool.not_eq_true] at ht
    rw [vmmSet_eq hw hlt']
    refine ⟨?_, h.tally.step hn hle hlt ht⟩
    rw [h.frame]
    rfl

/-- **`vmm_mark_used`** of a range of whole pages of the window. -/
theorem vmmMarkUsed_marked (hv : v.Window) {p n : Nat} {size : U32} (hsize : size.toNat = n * 4096)
    (hp : p + n ≤ v.totalPages.toNat) (hpt : p < v.totalPages.toNat) :
    ∃ w, vmmMarkUsed v (v.addr p) size = some w ∧ v.Marked w p (p + n) := by
  obtain ⟨h1, h2⟩ := hv.window
  have haddr := hv.toNat_addr hpt
  have hb := hv.base_aligned
  have hbounds : ¬ (v.addr p < v.base ∨ v.stop - v.addr p < size) := by
    have hle : v.addr p ≤ v.stop := by
      rw [BitVec.le_def]
      omega
    rw [BitVec.lt_def, BitVec.lt_def, BitVec.toNat_sub_of_le hle]
    omega
  have hstart : align (v.addr p) pageSize = v.addr p := by
    apply BitVec.eq_of_toNat_eq
    rw [toNat_align_page, haddr]
    omega
  have hturns : pageTurns (v.addr p) (align (v.addr p + size) pageSize) = n := by
    rw [pageTurns, toNat_align_page, BitVec.toNat_add, haddr, hsize]
    omega
  have hinv := iter_inv (a := 0) (n := n) (s := v) (f := vmmMarkUsedTurn (v.addr p))
    (fun i w => v.Marked w p (p + i)) ⟨rfl, Tally.Marked.refl true _ _ p⟩
    (fun i t _ hi ht => ht.turn hv (by omega) (by omega) (v.pageAt_addr p i))
  rw [Nat.zero_add] at hinv
  refine ⟨_, ?_, hinv⟩
  simp only [vmmMarkUsed, if_neg hbounds, hstart, hturns]

/-! ## `vmm_init` of the kernel window -/

/-- `kvmm` before anything is marked: every page is free. -/
theorem vmmSizes_kernel (v : Vmm) : ∃ w, vmmSizes v kvirt kvirtEnd = some w ∧ w.Window ∧
    w.base = kvirt ∧ w.stop = kvirtEnd ∧ w.totalPages = 0x3FC00 ∧ w.freePages = 0x3FC00 ∧
    w.bitmapSize = 0x7F80 := by
  refine ⟨_, if_pos (by decide), ⟨?_, ?_, ?_, ?_, ?_, ?_⟩, rfl, rfl, ?_, ?_, ?_⟩ <;>
    dsimp only <;> decide

/-- Every page is free then, unless page 0 is at `NULL`. -/
theorem vmmFill_free (hv : v.Window) (hne : ¬ v.base = 0) :
    ∃ w, vmmFill v = some w ∧ w.Window ∧ w.base = v.base ∧ w.stop = v.stop ∧
      w.totalPages = v.totalPages ∧ w.freePages = v.freePages ∧
      ∀ q, q < v.totalPages.toNat → test w.bitmap q = false := by
  refine ⟨_, if_neg hne, hv.withBits _ _ _ _, rfl, rfl, rfl, rfl, fun q hq => ?_⟩
  have hw := hv.words
  show test (fun i => if i < v.bitmapSize.toNat / 4 then 0 else v.bitmap i) q = false
  rw [test, if_pos (by omega)]
  exact BitVec.getLsbD_zero

/-! ## `kinit_alloc` -/

/-- The window of the bootstrap allocator, as long as it has room. -/
structure KinitAlloc.Open (L : Layout) (ka : KinitAlloc) : Prop where
  base : ka.base = align L.secKend pageSize
  limit : ka.limit = 0x00100000
  enabled : ka.enabled = true
  le : ka.base.toNat ≤ ka.next.toNat

/-- The end of the kernel image, as a page number of the window. -/
theorem Layout.toNat_kend (L : Layout) :
    (align L.secKend pageSize).toNat = (L.secKend.toNat + 4095) / 4096 * 4096 ∧
      (L.pgPd.toNat + 1025) * 4096 + 0xC0000000 ≤ (align L.secKend pageSize).toNat ∧
      (align L.secKend pageSize).toNat + 0x100000 ≤ 0xFFC00000 := by
  have h1 := L.below
  have h2 := L.room
  have h3 : kvirt.toNat = 0xC0000000 := rfl
  have h4 : kvirtEnd.toNat = 0xFFC00000 := rfl
  rw [toNat_align_page]
  omega

theorem toNat_align_default (x : U32) (h : x.toNat + 15 < 2 ^ 32) :
    (align x defaultAlignment).toNat = (x.toNat + 15) / 16 * 16 := by
  have h1 : (x + (defaultAlignment - 1)).toNat = x.toNat + 15 := by
    have h2 : (defaultAlignment - 1).toNat = 15 := rfl
    rw [BitVec.toNat_add, h2]
    omega
  have h3 := toNat_and_not_mask (x + (defaultAlignment - 1)) 4
  rw [h1] at h3
  exact h3

/-- **`kinit_alloc`** while there is room: it maps the pages it hands out in
the kernel's half, and nothing else. -/
theorem kinitAlloc_eq {L : Layout} {ka : KinitAlloc} {m : Mmu} (h : ka.Open L)
    (hk : KernelDir L m.mem m.cr3) (size : U32)
    (hroom : ka.next.toNat + 15 + size.toNat ≤ ka.base.toNat + 0x100000) :
    ∃ p mem', kinitAlloc L ka m size
        = some (p, { ka with next := p + size }, { m with mem := mem' }) ∧
      p ≠ 0 ∧ ka.next.toNat ≤ p.toNat ∧ p.toNat ≤ ka.next.toNat + 15 ∧
      (p + size).toNat = p.toNat + size.toNat ∧
      Touched L m.cr3 (fun _ => True) m.mem mem' ∧
      ∀ i : Slot, i.toNat < 768 → mem' m.cr3 i = m.mem m.cr3 i := by
  obtain ⟨hb1, hb2, hb3⟩ := L.toNat_kend
  obtain ⟨hbase, hlimit, hen, hle⟩ := h
  rw [← hbase] at hb2 hb3
  have hp : (align ka.next defaultAlignment).toNat = (ka.next.toNat + 15) / 16 * 16 :=
    toNat_align_default _ (by omega)
  generalize hpe : align ka.next defaultAlignment = p at hp
  have hsum : (p + size).toNat = p.toNat + size.toNat := by
    rw [BitVec.toNat_add]
    omega
  have hfits : ¬ ka.limit < (p - ka.base) + size := by
    have h1 : ka.base ≤ p := by
      rw [BitVec.le_def]
      omega
    have h2 : ((p - ka.base) + size).toNat = p.toNat - ka.base.toNat + size.toNat := by
      rw [BitVec.toNat_add, BitVec.toNat_sub_of_le h1]
      omega
    have h3 : (0x00100000 : U32).toNat = 0x100000 := rfl
    rw [hlimit, BitVec.lt_def, h2, h3]
    omega
  have hpage : pageNo (p &&& 0xFFFFF000#32) = p.toNat / 4096 := by
    rw [pageNo, toNat_and_frameMask]
    omega
  have hoff : (p &&& 0xFFF).toNat = p.toNat % 4096 := toNat_and_mask p (show 12 ≤ 32 by decide)
  have hcount : (toPage ((p &&& 0xFFF) + size + (pageSize - 1))).toNat
      = (p.toNat % 4096 + size.toNat + 4095) / 4096 := by
    have h1 : (pageSize - 1).toNat = 4095 := rfl
    rw [toNat_toPage, BitVec.toNat_add, BitVec.toNat_add, hoff, h1]
    omega
  have hlo : 768 * 1024 ≤ pageNo (p &&& 0xFFFFF000#32) := by
    rw [hpage]
    omega
  have hhi : pageNo (p &&& 0xFFFFF000#32) +
      (toPage ((p &&& 0xFFF) + size + (pageSize - 1))).toNat ≤ 1023 * 1024 := by
    rw [hpage, hcount]
    omega
  obtain ⟨mem', hrun, ht, _⟩ := pgMap_wired hk.wired _ (v2p (p &&& 0xFFFFF000#32)) pteRw _ hlo hhi
  refine ⟨p, mem', ?_, ?_, by omega, by omega, hsum, ht.mono fun _ _ => trivial,
    fun i hi => pgMap_user hk.wired (Nat.le_refl _) hlo hhi hrun hi⟩
  · simp only [kinitAlloc, kinitAllocAlign, hen, if_true, hpe, if_neg hfits, hrun,
      Option.bind_eq_bind, Option.bind_some, Option.pure_def]
  · rintro rfl
    have h1 : (0 : U32).toNat = 0 := rfl
    omega

/-! ## What `mminit` marks -/

/-- The page past the kernel image, counted from the base of the kernel. -/
def Layout.kernelPages (L : Layout) : Nat := ((align L.secKend pageSize).toNat - 0xC0000000) / 4096

theorem Layout.kend_pages (L : Layout) :
    (align L.secKend pageSize).toNat = L.kernelPages * 4096 + 0xC0000000 := by
  obtain ⟨hb1, hb2, _⟩ := L.toNat_kend
  have hle : 0xC0000000 ≤ (align L.secKend pageSize).toNat :=
    Nat.le_trans (Nat.le_add_left _ _) hb2
  have hdvd : 4096 ∣ (align L.secKend pageSize).toNat - 0xC0000000 :=
    Nat.dvd_sub (hb1 ▸ Nat.dvd_mul_left 4096 _) ⟨0xC0000, rfl⟩
  rw [Layout.kernelPages, Nat.div_mul_cancel hdvd, Nat.sub_add_cancel hle]

/-- The three ranges `mminit` marks, in pages. -/
theorem Layout.kernelRanges (L : Layout) {next : U32}
    (h1 : (align L.secKend pageSize).toNat < next.toNat)
    (h2 : next.toNat ≤ (align L.secKend pageSize).toNat + 0x100000) :
    L.pgPd.toNat + 1025 ≤ L.kernelPages ∧ L.kernelPages + 256 ≤ 0x3FC00 ∧
      (align (align L.secKend pageSize - p2v kphys) pageSize).toNat = (L.kernelPages - 256) * 4096 ∧
      ∃ n, 0 < n ∧ n ≤ 256 ∧
        (align (next - align L.secKend pageSize) pageSize).toNat = n * 4096 ∧
        next.toNat ≤ (L.kernelPages + n) * 4096 + 0xC0000000 := by
  obtain ⟨hb1, hb2, hb3⟩ := L.toNat_kend
  have habove := L.above
  have hk : (p2v kphys).toNat = 0xC0100000 := by decide
  generalize hkend : align L.secKend pageSize = kend at *
  have hkp : L.kernelPages = (kend.toNat - 0xC0000000) / 4096 := by
    rw [Layout.kernelPages, hkend]
  have hs1 : (kend - p2v kphys).toNat = kend.toNat - 0xC0100000 := by
    rw [BitVec.toNat_sub_of_le (by rw [BitVec.le_def]; omega), hk]
  have hs2 : (next - kend).toNat = next.toNat - kend.toNat :=
    BitVec.toNat_sub_of_le (by rw [BitVec.le_def]; omega)
  refine ⟨by omega, by omega, ?_, (next.toNat - kend.toNat + 4095) / 4096, by omega, by omega, ?_,
    by omega⟩
  · rw [toNat_align_page, hs1]
    omega
  · rw [toNat_align_page, hs2]
    omega

/-- `pmm_mark_used` of a range that starts at a page, for a manager whose page
count is that of the end of memory. -/
theorem pmmMarkUsed_spec {s : Pmm} (hs : s.Consistent) (hz : s.Sized) {phys : U32} (size : U32)
    (ha : phys.toNat % 4096 = 0) :
    (pmmMarkUsed s phys size).Consistent ∧ (pmmMarkUsed s phys size).Sized ∧
      (pmmMarkUsed s phys size).totalPages = s.totalPages ∧ ∀ q, q < s.totalPages.toNat →
        test (pmmMarkUsed s phys size).bitmap q
          = (decide (markLo phys ≤ q ∧ q < markHi phys size) || test s.bitmap q) := by
  obtain ⟨_, _, hk⟩ := pmmMarkUsed_some hs.shape phys size
  exact ⟨pmmMarkUsed_consistent hs phys size, hk.sized hz, hk.total,
    fun q hq => pmmMarkUsed_bits hs.shape hz phys size ha hq⟩

/-- The marks in the physical memory manager: everything below the end of the
bootstrap allocations is in use, and beyond the bootstrap window nothing
changes. -/
theorem markKernel_pmm {s : Pmm} (hs : s.Consistent) (hz : s.Sized) (L : Layout) {next : U32}
    (h1 : (align L.secKend pageSize).toNat < next.toNat)
    (h2 : next.toNat ≤ (align L.secKend pageSize).toNat + 0x100000) {u : Pmm}
    (hu : u = pmmMarkUsed (pmmMarkUsed (pmmMarkUsed s 0x00000000 0x100000) (v2p (p2v kphys))
        (align (align L.secKend pageSize - p2v kphys) pageSize))
      (v2p (align L.secKend pageSize)) (align (next - align L.secKend pageSize) pageSize)) :
    u.Consistent ∧ u.totalPages = s.totalPages ∧ ∀ q, q < s.totalPages.toNat →
      (q * 4096 + 0xC0000000 < next.toNat → test u.bitmap q = true) ∧
      (L.kernelPages + 256 ≤ q → test u.bitmap q = test s.bitmap q) := by
  obtain ⟨hr1, hr2, hsize1, n, hn0, hn, hsize2, hcover⟩ := L.kernelRanges h1 h2
  obtain ⟨hb1, hb2, hb3⟩ := L.toNat_kend
  have hkp : L.kernelPages = ((align L.secKend pageSize).toNat - 0xC0000000) / 4096 := rfl
  generalize align (align L.secKend pageSize - p2v kphys) pageSize = ksize at *
  generalize align (next - align L.secKend pageSize) pageSize = isize at *
  have hkv : kvirt.toNat = 0xC0000000 := rfl
  have hp1 : (v2p (p2v kphys)).toNat = 0x100000 := by decide
  have hp2 : (v2p (align L.secKend pageSize)).toNat = L.kernelPages * 4096 := by
    rw [v2p, BitVec.toNat_sub_of_le (by rw [BitVec.le_def]; omega), hkv]
    omega
  have h4095 : (pageSize - 1).toNat = 4095 := rfl
  -- the page ranges of the three calls
  have hm1 : markLo 0 = 0 ∧ markHi 0 0x100000 = 256 := by decide
  have hm2 : markLo (v2p (p2v kphys)) = 256 ∧ markHi (v2p (p2v kphys)) ksize = L.kernelPages := by
    rw [markLo, markHi, BitVec.toNat_add, BitVec.toNat_add, hp1, hsize1, h4095]
    omega
  have hm3 : markLo (v2p (align L.secKend pageSize)) = L.kernelPages ∧
      markHi (v2p (align L.secKend pageSize)) isize = L.kernelPages + n := by
    rw [markLo, markHi, BitVec.toNat_add, BitVec.toNat_add, hp2, hsize2, h4095]
    omega
  obtain ⟨hc1, hz1, ht1, hb1⟩ := pmmMarkUsed_spec hs hz 0x100000 (show (0 : U32).toNat % 4096 = 0 by decide)
  obtain ⟨hc2, hz2, ht2, hb2⟩ := pmmMarkUsed_spec hc1 hz1 ksize
    (show (v2p (p2v kphys)).toNat % 4096 = 0 by omega)
  obtain ⟨hc3, _, ht3, hb3⟩ := pmmMarkUsed_spec hc2 hz2 isize
    (show (v2p (align L.secKend pageSize)).toNat % 4096 = 0 by omega)
  subst hu
  refine ⟨hc3, by rw [ht3, ht2, ht1], fun q hq => ?_⟩
  rw [hb3 q (by rw [ht2, ht1]; exact hq), hb2 q (by rw [ht1]; exact hq), hb1 q hq, hm3.1, hm3.2,
    hm2.1, hm2.2, hm1.1, hm1.2]
  constructor
  · intro hlt
    rcases Nat.lt_or_ge q 256 with hq1 | hq1
    · rw [decide_eq_true (show 0 ≤ q ∧ q < 256 by omega)]
      simp
    rcases Nat.lt_or_ge q L.kernelPages with hq2 | hq2
    · rw [decide_eq_true (show 256 ≤ q ∧ q < L.kernelPages by omega)]
      simp
    · rw [decide_eq_true (show L.kernelPages ≤ q ∧ q < L.kernelPages + n by omega)]
      simp
  · intro hge
    rw [decide_eq_false (show ¬ (L.kernelPages ≤ q ∧ q < L.kernelPages + n) by omega),
      decide_eq_false (show ¬ (256 ≤ q ∧ q < L.kernelPages) by omega),
      decide_eq_false (show ¬ (0 ≤ q ∧ q < 256) by omega)]
    rfl

/-- The marks in the kernel window. -/
theorem markKernel_vmm {v : Vmm} (hv : v.Window) (hb : v.base = kvirt) (ht : v.totalPages = 0x3FC00)
    (hfree : v.freePages = 0x3FC00) (hbits : ∀ q, q < v.totalPages.toNat → test v.bitmap q = false)
    (L : Layout) {next : U32} (h1 : (align L.secKend pageSize).toNat < next.toNat)
    (h2 : next.toNat ≤ (align L.secKend pageSize).toNat + 0x100000) :
    ∃ v1 v2 v3, vmmMarkUsed v (p2v 0x00000000) 0x100000 = some v1 ∧
      vmmMarkUsed v1 (p2v kphys) (align (align L.secKend pageSize - p2v kphys) pageSize) = some v2 ∧
      vmmMarkUsed v2 (align L.secKend pageSize)
        (align (next - align L.secKend pageSize) pageSize) = some v3 ∧
      v3.Window ∧ v3.base = v.base ∧ v3.stop = v.stop ∧ v3.totalPages = v.totalPages ∧
      v3.freePages.toNat = clearCount v3.bitmap v3.totalPages.toNat ∧
      ∀ q, q < v3.totalPages.toNat →
        (q * 4096 + 0xC0000000 < next.toNat → test v3.bitmap q = true) ∧
        (L.kernelPages + 256 ≤ q → test v3.bitmap q = false) := by
  obtain ⟨hr1, hr2, hsize1, n, hn0, hn, hsize2, hcover⟩ := L.kernelRanges h1 h2
  have habove := L.above
  have htn : v.totalPages.toNat = 0x3FC00 := by
    rw [ht]
    rfl
  have hbn : v.base.toNat = 0xC0000000 := by
    rw [hb]
    rfl
  have haddr : ∀ (a : U32) (p : Nat), p < 0x3FC00 → a.toNat = p * 4096 + 0xC0000000 →
      a = v.addr p := by
    intro a p hp ha
    have hlt : p < v.totalPages.toNat := by rwa [htn]
    apply BitVec.eq_of_toNat_eq
    rw [hv.toNat_addr hlt, ha, hbn, Nat.add_comm]
  have ha1 := haddr (p2v 0) 0 (by decide) (by decide)
  have ha2 := haddr (p2v kphys) 256 (by decide) (by decide)
  have hlast : L.kernelPages < 0x3FC00 := Nat.lt_of_lt_of_le (by omega) hr2
  have ha3 := haddr (align L.secKend pageSize) L.kernelPages hlast L.kend_pages
  obtain ⟨v1, hv1, hk1⟩ := vmmMarkUsed_marked hv (p := 0) (n := 256)
    (show (0x100000 : U32).toNat = 256 * 4096 from rfl)
    (by omega) (by omega)
  have hw1 := hk1.window hv
  have ht1 := hk1.total
  obtain ⟨v2, hv2, hk2⟩ := vmmMarkUsed_marked hw1 (p := 256) hsize1 (by rw [ht1]; omega)
    (by rw [ht1]; omega)
  have ht2 := hk2.total.trans ht1
  obtain ⟨v3, hv3, hk3⟩ := vmmMarkUsed_marked (hk2.window hw1) (p := L.kernelPages) hsize2
    (by rw [ht2]; omega) (by rw [ht2]; omega)
  rw [← ha1] at hv1
  rw [hk1.addr, ← ha2] at hv2
  rw [hk2.addr, hk1.addr, ← ha3] at hv3
  -- the three ranges are one, from the first page on
  rw [show 256 + (L.kernelPages - 256) = L.kernelPages by omega] at hk2
  have hk : v.Marked v3 0 (L.kernelPages + n) :=
    (hk1.trans hk2 (Nat.zero_le _) (by omega)).trans hk3 (Nat.zero_le _) (Nat.le_add_right _ _)
  have hcount : v.tally.Counts v.totalPages.toNat := by
    show v.freePages.toNat = clearCount v.bitmap v.totalPages.toNat
    rw [clearCount_all hbits, hfree, htn]
    rfl
  refine ⟨v1, v2, v3, hv1, hv2, hv3, hk.window hv, hk.base, hk.stop, hk.total, ?_, fun q hq => ?_⟩
  · rw [hk.total]
    exact hk.tally.counted hcount
  · rw [hk.total] at hq
    have hbit : test v3.bitmap q = if 0 ≤ q ∧ q < L.kernelPages + n ∧ q < v.totalPages.toNat
        then true else test v.bitmap q := hk.tally.bits q
    rw [hbit]
    refine ⟨fun hlt => if_pos (by omega), fun hge => ?_⟩
    rw [if_neg (by omega)]
    exact hbits q hq

/-! ## `mminit` -/

/-- The bootstrap allocator has handed out `size` bytes at `p`. -/
structure KinitAlloc.Handed (ka ka' : KinitAlloc) (p size : U32) : Prop where
  base : ka'.base = ka.base
  ge : ka.next.toNat ≤ p.toNat
  next : p.toNat + size.toNat = ka'.next.toNat

theorem pmmInit_eq {L : Layout} {map : KPhysMap} (hmap : map.regions ≠ []) (s : Pmm)
    {ka : KinitAlloc} {m : Mmu} (h : ka.Open L) (hk : KernelDir L m.mem m.cr3)
    (hstart : ka.next = ka.base) :
    ∃ p ka' mem', kinitAlloc L ka m (pmmSizes s map).bitmapSize = some (p, ka', ⟨mem', m.cr3⟩) ∧
      pmmInit L map s ka m = some (pmmFill (pmmSizes s map) map, ka', ⟨mem', m.cr3⟩) ∧
      ka.Handed ka' p (pmmSizes s map).bitmapSize ∧
      ka'.Open L ∧ ka'.next.toNat ≤ ka'.base.toNat + 0x20010 ∧
      Touched L m.cr3 (fun _ => True) m.mem mem' ∧
      ∀ i : Slot, i.toNat < 768 → mem' m.cr3 i = m.mem m.cr3 i := by
  have hshape := pmmSizes_shape s map
  have hsz := hshape.size_eq
  have htl := hshape.total_lt
  obtain ⟨p, mem', hrun, hp, hlo, hhi, hsum, ht'⟩ := kinitAlloc_eq h hk
    (pmmSizes s map).bitmapSize (by rw [hstart]; omega)
  refine ⟨p, { ka with next := p + (pmmSizes s map).bitmapSize }, mem', hrun, ?_,
    ⟨rfl, hlo, hsum.symm⟩, ⟨h.base, h.limit, h.enabled, ?_⟩, ?_, ht'⟩
  · simp only [pmmInit, if_neg hmap, hrun, Option.bind_eq_bind, Option.bind_some, if_neg hp,
      Option.pure_def]
  · rw [hstart] at hlo
    show ka.base.toNat ≤ (p + (pmmSizes s map).bitmapSize).toNat
    omega
  · rw [hstart] at hhi
    show (p + (pmmSizes s map).bitmapSize).toNat ≤ ka.base.toNat + 0x20010
    omega

theorem vmmInit_eq {L : Layout} (v : Vmm) {ka : KinitAlloc} {m : Mmu} (h : ka.Open L)
    (hk : KernelDir L m.mem m.cr3) (hroom : ka.next.toNat ≤ ka.base.toNat + 0x20010) :
    ∃ v1 p w ka' mem', vmmSizes v kvirt kvirtEnd = some v1 ∧
      kinitAlloc L ka m v1.bitmapSize = some (p, ka', ⟨mem', m.cr3⟩) ∧
      vmmInit L kvirt kvirtEnd v ka m = some (w, ka', ⟨mem', m.cr3⟩) ∧
      ka.Handed ka' p v1.bitmapSize ∧
      (w.Window ∧ w.base = kvirt ∧ w.stop = kvirtEnd ∧ w.totalPages = 0x3FC00 ∧
        w.freePages = 0x3FC00 ∧ ∀ q, q < w.totalPages.toNat → test w.bitmap q = false) ∧
      ka'.Open L ∧ ka'.base.toNat < ka'.next.toNat ∧
      ka'.next.toNat ≤ ka'.base.toNat + 0x100000 ∧
      Touched L m.cr3 (fun _ => True) m.mem mem' ∧
      ∀ i : Slot, i.toNat < 768 → mem' m.cr3 i = m.mem m.cr3 i := by
  obtain ⟨v1, hv1, hw1, hb1, hs1, ht1, hf1, hz1⟩ := vmmSizes_kernel v
  have hz : v1.bitmapSize.toNat = 0x7F80 := by
    rw [hz1]
    rfl
  obtain ⟨p, mem', hrun, hp, hlo, hhi, hsum, ht'⟩ := kinitAlloc_eq h hk v1.bitmapSize
    (by omega)
  obtain ⟨v2, hv2, hw2, hb2, hs2, ht2, hf2, hbits⟩ := vmmFill_free hw1 (by rw [hb1]; decide)
  have hle := h.le
  refine ⟨v1, p, v2, { ka with next := p + v1.bitmapSize }, mem', hv1, hrun, ?_,
    ⟨rfl, hlo, hsum.symm⟩,
    ⟨hw2, hb2.trans hb1, hs2.trans hs1, ht2.trans ht1, hf2.trans hf1, by rwa [ht2]⟩,
    ⟨h.base, h.limit, h.enabled, ?_⟩, ?_, ?_, ht'⟩
  · simp only [vmmInit, hv1, hrun, Option.bind_eq_bind, Option.bind_some, if_neg hp, hv2,
      Option.pure_def]
  · show ka.base.toNat ≤ (p + v1.bitmapSize).toNat
    omega
  · show ka.base.toNat < (p + v1.bitmapSize).toNat
    omega
  · show (p + v1.bitmapSize).toNat ≤ ka.base.toNat + 0x100000
    omega

/-- Whatever the kernel occupies lies below the end of the bootstrap
allocations. -/
theorem KernelByte.lt_next {L : Layout} {ka ka1 ka2 : KinitAlloc} {p q a c : U32}
    (h : ka.Open L) (h1 : ka.Handed ka1 p a) (h2 : ka1.Handed ka2 q c) {b : Nat}
    (hb : KernelByte L [(p, a), (q, c)] b) : b + 0xC0000000 < ka2.next.toNat := by
  obtain ⟨hk1, hk2, _⟩ := L.toNat_kend
  have hbase := h.base
  have hle := h.le
  rw [hbase] at hle
  have habove := L.above
  have hbelow := L.below
  have hge1 := h1.ge
  have hge2 := h2.ge
  have hn1 := h1.next
  have hn2 := h2.next
  have hk : kvirt.toNat = 0xC0000000 := rfl
  have hv2p : ∀ x : U32, 0xC0000000 ≤ x.toNat → (v2p x).toNat + 0xC0000000 = x.toNat := by
    intro x hx
    rw [v2p, BitVec.toNat_sub_of_le (by rw [BitVec.le_def, hk]; exact hx), hk]
    omega
  rw [hk] at hbelow
  rw [Nat.add_mul] at hk2
  generalize (align L.secKend pageSize).toNat = kend at hk1 hk2 hle
  have hsec := hv2p L.secKend (Nat.le_trans (Nat.le_add_right _ _) hbelow)
  clear hbelow
  have hp : 0xC0100000 ≤ p.toNat := by omega
  have hq : 0xC0100000 ≤ q.toNat := by omega
  rcases hb with hb | ⟨_, hb⟩ | ⟨x, hx, hb1, hb2⟩
  · omega
  · omega
  · simp only [List.mem_cons, List.not_mem_nil, or_false] at hx
    rcases hx with rfl | rfl
    · have := hv2p p (Nat.le_trans (by decide) hp)
      simp only at hb1 hb2
      omega
    · have := hv2p q (Nat.le_trans (by decide) hq)
      simp only at hb1 hb2
      omega

/-- What `mminit` is to establish, over the memory map's own PMM state `s0`. -/
structure Booted (L : Layout) (s0 : Pmm) (m : Mm) : Prop where
  consistent : m.Consistent L
  dir : KernelDir L m.mmu.mem m.mmu.cr3
  base : m.vmm.base = kvirt
  stop : m.vmm.stop = kvirtEnd
  total : m.pmm.totalPages = s0.totalPages
  /-- The frames of the kernel image, and those below it, are in use. -/
  image : ∀ q, q < L.kernelPages → q < m.pmm.totalPages.toNat → test m.pmm.bitmap q = true
  /-- Beyond the bootstrap window the memory map decides. -/
  beyond : ∀ q, L.kernelPages + 256 ≤ q → q < m.pmm.totalPages.toNat →
    test m.pmm.bitmap q = test s0.bitmap q
  window : ∀ q, L.kernelPages + 256 ≤ q → q < m.vmm.totalPages.toNat → test m.vmm.bitmap q = false

/-- **`mminit`** returns, for every image, memory map and prior content, and
leaves a booted state under the directory it found; what the kernel occupies
then is reserved. -/
theorem mminit_handed {L : Layout} (map : KPhysMap) (hmap : map.regions ≠ []) {m : Mm}
    (hk : KernelDir L m.mmu.mem m.mmu.cr3) :
    ∃ m' handed, mminit L map m = some m' ∧ kinitHanded L map m = some handed ∧
      m'.mmu.cr3 = m.mmu.cr3 ∧ Touched L m.mmu.cr3 (fun _ => True) m.mmu.mem m'.mmu.mem ∧
      Booted L (pmmFill (pmmSizes m.pmm map) map) m' ∧ m'.Reserves L handed ∧
      ∀ i : Slot, i.toNat < 768 → m'.mmu.mem m.mmu.cr3 i = m.mmu.mem m.mmu.cr3 i := by
  obtain ⟨hb1, hb2, hb3⟩ := L.toNat_kend
  have halign : align L.secKend pageSize &&& (pageSize - 1) = 0 := by
    apply BitVec.eq_of_toNat_eq
    rw [toNat_pageOffset, hb1]
    show _ = 0
    omega
  have hinit : kinitAllocInit (align L.secKend pageSize) 0x00100000 =
      some ⟨align L.secKend pageSize, align L.secKend pageSize, 0x00100000, true⟩ :=
    if_pos ⟨halign, by decide⟩
  have ho0 : KinitAlloc.Open L
      ⟨align L.secKend pageSize, align L.secKend pageSize, 0x00100000, true⟩ :=
    ⟨rfl, rfl, rfl, Nat.le_refl _⟩
  obtain ⟨p, ka1, mem1, hp, hpmm, hh1, ho1, hroom1, ht1, hu1⟩ := pmmInit_eq hmap m.pmm ho0 hk rfl
  obtain ⟨v1, q, v, ka2, mem2, hv1, hq, hvmm, hh2, ⟨hw, hb, hs, ht, hf, hbits⟩, ho2, hn1, hn2, ht2,
    hu2⟩ := vmmInit_eq (m := ⟨mem1, m.mmu.cr3⟩) m.vmm ho1 (hk.other ht1) hroom1
  have hk2 := (hk.other ht1).other ht2
  have hfin : kinitAllocFinalize ka2
      = some { ka2 with enabled := false, limit := ka2.next - ka2.base } :=
    if_pos ⟨ho2.enabled, hn1⟩
  have hlt : ∀ {b}, KernelByte L [(p, (pmmSizes m.pmm map).bitmapSize), (q, v1.bitmapSize)] b →
      b / 4096 * 4096 + 0xC0000000 < ka2.next.toNat := fun {b} hb => by
    have := KernelByte.lt_next ho0 hh1 hh2 hb
    omega
  rw [ho2.base] at hn1 hn2
  obtain ⟨w1, w2, w3, hm1, hm2, hm3, hww, hwb, hws, hwt, hwc, hwf⟩ :=
    markKernel_vmm hw hb ht hf hbits L hn1 hn2
  obtain ⟨hcons, htot, hmarks⟩ := markKernel_pmm (pmmInit_consistent m.pmm map)
    (pmmInit_sized m.pmm map) L hn1 hn2 rfl
  have hkend := L.kend_pages
  refine ⟨⟨w3, _, ⟨mem2, m.mmu.cr3⟩⟩, _, ?_, ?_, rfl, (ht1.trans ht2).mono fun _ _ => trivial,
    ⟨⟨⟨hww, fun h => ?_⟩, hwc, hcons, ?_⟩, hk2, ?_, ?_, htot, fun q h1 h2 => ?_, fun q h1 h2 => ?_,
      fun q h1 h2 => (hwf q h2).2 h1⟩,
    ⟨fun b hb hq => (hmarks _ (htot ▸ hq)).1 (hlt hb), fun b hb hq => (hwf _ hq).1 (hlt hb)⟩,
    fun i hi => (hu2 i hi).trans (hu1 i hi)⟩
  · simp only [mminit, hinit, hpmm, hvmm, hfin, Option.bind_eq_bind, Option.bind_some, ho2.base, hm1,
      hm2, hm3, Option.pure_def]
    rfl
  · simp only [kinitHanded, hinit, hp, hv1, hq, Option.bind_eq_bind, Option.bind_some, Option.pure_def]
  · rw [hwb, hb] at h
    exact absurd h (by decide)
  · have h768 : (pdIndex w3.base).toNat = 768 := by
      rw [hwb, hb]
      decide
    show Wired L (pdIndex w3.base).toNat mem2 m.mmu.cr3
    rw [h768]
    exact hk2.wired
  · exact hwb.trans hb
  · exact hws.trans hs
  · refine (hmarks q (htot ▸ h2)).1 ?_
    omega
  · exact (hmarks q (htot ▸ h2)).2 h1

/-- The state `mminit` leaves, without the reservations. -/
theorem mminit_spec {L : Layout} (map : KPhysMap) (hmap : map.regions ≠ []) {m : Mm}
    (hk : KernelDir L m.mmu.mem m.mmu.cr3) :
    ∃ m', mminit L map m = some m' ∧ m'.mmu.cr3 = m.mmu.cr3 ∧
      Touched L m.mmu.cr3 (fun _ => True) m.mmu.mem m'.mmu.mem ∧
      Booted L (pmmFill (pmmSizes m.pmm map) map) m' := by
  obtain ⟨m', _, hm, _, hcr3, ht, hb, _, _⟩ := mminit_handed map hmap hk
  exact ⟨m', hm, hcr3, ht, hb⟩

end Tomk
