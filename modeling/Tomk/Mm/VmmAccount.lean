/-
# VMM accounting over whole runs

A run is a sequence of calls of the virtual memory manager from the state
`vmm_init` leaves, each release naming a range that an earlier call returned
and no call released since; in between, other callers may take frames and give
them back.  The property asked of every state is that the two counters count
the bits (`Vmm.Accounts`).

The bits are changed in three ways that the counters do not follow:
`vmm_alloc`, when the frames run out, clears the bits of the pages it has
backed; `vmm_unreserve` counts a page that `vmm_mark_free` has freed before
once more; and `vmm_mark_used` counts pages outside of the window, which its
assertions let pass behind the end.  `vmmRun_accounting` says that the property
holds in every run without these (`VmmCall.Counted`).
-/
import Tomk.Lib.Runs
import Tomk.Mm.VmmAtomic

namespace Tomk

open WordBits CFor Runs

/-! ## Calls -/

/-- The memory managers, and the ranges that were returned and not released. -/
structure VmmRun where
  mm : Mm
  live : List (U32 × U32)

inductive VmmCall where
  | reserve (count : U32)
  | unreserve (virt count : U32)
  | alloc (count : U32)
  | allocContiguous (count : U32)
  | free (virt count : U32)
  | markUsed (virt size : U32)
  | markFree (virt size : U32)
  /-- What other callers do with the frames. -/
  | frames (pmm : Pmm)

/-- Releases name live ranges. -/
def VmmCall.Legal (s : VmmRun) : VmmCall → Prop
  | .unreserve virt count => (virt, count) ∈ s.live
  | .free virt count => (virt, count) ∈ s.live
  | .frames pmm => pmm.Consistent
  | _ => True

/-- A call has returned `virt`. -/
def VmmRun.ret (s : VmmRun) (count : U32) (r : U32 × Mm) : VmmRun :=
  ⟨r.2, if r.1 = 0 then s.live else (r.1, count) :: s.live⟩

def VmmCall.run (L : Layout) (s : VmmRun) : VmmCall → Option VmmRun
  | .reserve count =>
      let (virt, vmm) := vmmReserve s.mm.vmm count
      some (s.ret count (virt, { s.mm with vmm := vmm }))
  | .unreserve virt count =>
      some ⟨{ s.mm with vmm := vmmUnreserve s.mm.vmm virt count }, s.live.erase (virt, count)⟩
  | .alloc count => (vmmAlloc L s.mm count).map (s.ret count)
  | .allocContiguous count => (vmmAllocContiguous L s.mm count).map (s.ret count)
  | .free virt count =>
      (vmmFree s.mm virt count).map fun mm => ⟨mm, s.live.erase (virt, count)⟩
  | .markUsed virt size =>
      (vmmMarkUsed s.mm.vmm virt size).map fun vmm => { s with mm := { s.mm with vmm := vmm } }
  | .markFree virt size =>
      (vmmMarkFree s.mm.vmm virt size).map fun vmm => { s with mm := { s.mm with vmm := vmm } }
  | .frames pmm => some { s with mm := { s.mm with pmm := pmm } }

def VmmStep (L : Layout) (c : VmmCall) (s s' : VmmRun) : Prop :=
  c.Legal s ∧ c.run L s = some s'

/-- `vmm_init` of a window below the tables, whatever the memory of the bitmap
held before. -/
def VmmInitialized (v : Vmm) : Prop :=
  ∃ v0 v1 base stop bitmap, stop ≤ kvirtEnd ∧ vmmSizes v0 base stop = some v1 ∧
    vmmFill { v1 with bitmap := bitmap } = some v

def VmmStart (L : Layout) (s : VmmRun) : Prop :=
  VmmInitialized s.mm.vmm ∧ s.mm.pmm.Consistent ∧
    Wired L (pdIndex s.mm.vmm.base).toNat s.mm.mmu.mem s.mm.mmu.cr3 ∧ s.live = []

/-! ## What is asked -/

/-- `free_pages` is the number of clear bits below `total_pages`, and
`used_pages` the rest. -/
structure Vmm.Accounts (v : Vmm) : Prop where
  free : v.freePages.toNat = clearCount v.bitmap v.totalPages.toNat
  used : v.usedPages = v.totalPages - v.freePages

/-- The property as it is asked: in every state of every run. -/
def VmmAccounting : Prop :=
  ∀ (L : Layout) (s : VmmRun), Reach (VmmStart L) (VmmStep L) s → s.mm.vmm.Accounts

/-- The page of an address, counted from the base of the window. -/
def Vmm.page (v : Vmm) (a : U32) : Nat := (toPage (a - v.base)).toNat

/-- `vmm_reserve` finds `count` pages. -/
def Vmm.Finds (v : Vmm) (count : U32) : Prop :=
  v.Reservable count ∧
    ∃ p, FirstRun v.bitmap v.totalPages.toNat count.toNat p ∧ v.addr p ≠ 0

/-- The frames do not run out behind the first page; pages that are released are
still reserved; and pages that are marked used are pages of the window. -/
def VmmCall.Counted : VmmCall → VmmRun → Prop
  | .unreserve virt count, s | .free virt count, s =>
      ∀ i, i < count.toNat → vmmTest s.mm.vmm (pageAt virt i) ≠ 0
  | .alloc count, s =>
      s.mm.vmm.Finds count → s.mm.pmm.freePages = 0 ∨ count ≤ s.mm.pmm.freePages
  | .markUsed virt size, s =>
      ∀ i, i < pageTurns (align virt pageSize) (align (virt + size) pageSize) →
        s.mm.vmm.page (pageAt (align virt pageSize) i) < s.mm.vmm.totalPages.toNat
  | _, _ => True

variable {L : Layout} {v w : Vmm} {s s' : VmmRun} {a : U32}

/-! ## Bits at an address -/

theorem vmmSet_page (h : v.Sized) (ha : v.page a < v.totalPages.toNat) :
    vmmSet v a = { v with bitmap := setBit v.bitmap (v.page a) } := by
  rw [Vmm.page] at ha
  simp only [vmmSet, toNat_wordIndex, toNat_bitIndex, if_neg (h.inBitmap ha)]
  rfl

theorem vmmClear_page (h : v.Sized) (ha : v.page a < v.totalPages.toNat) :
    vmmClear v a = { v with bitmap := clearBit v.bitmap (v.page a) } := by
  rw [Vmm.page] at ha
  simp only [vmmClear, toNat_wordIndex, toNat_bitIndex, if_neg (h.inBitmap ha)]
  rfl

/-- `vmm_test` looks at the bits of the bitmap, some of which may be behind the
last page. -/
theorem vmmTest_page (v : Vmm) (a : U32) :
    vmmTest v a ≠ 0 ↔ v.page a / 32 < v.bitmapSize.toNat / 4 ∧ test v.bitmap (v.page a) = true := by
  simp only [vmmTest, Vmm.page, toNat_wordIndex, toNat_bitIndex]
  split
  · next h => exact ⟨fun hc => absurd rfl hc, fun hc => absurd hc.1 (by omega)⟩
  · next h =>
      rw [and_one_shiftLeft_ne_zero (Nat.mod_lt _ (by decide))]
      exact ⟨fun hc => ⟨by omega, hc⟩, fun hc => hc.2⟩

/-! ## The invariant of the window -/

/-- The counters count, and no bit behind the last page is set. -/
structure Vmm.Tidy (v : Vmm) : Prop where
  window : v.Window
  counts : v.tally.Counts v.totalPages.toNat
  sum : v.freePages + v.usedPages = v.totalPages
  tail : ∀ q, v.totalPages.toNat ≤ q → q / 32 < v.bitmapSize.toNat / 4 → test v.bitmap q = false

theorem Vmm.Tidy.accounts (h : v.Tidy) : v.Accounts where
  free := h.counts
  used := by rw [← h.sum, BitVec.add_comm, BitVec.add_sub_cancel]

/-- `w` is `v` with other bits and counters. -/
structure Vmm.SameWindow (v w : Vmm) : Prop where
  base : w.base = v.base
  total : w.totalPages = v.totalPages

theorem Vmm.SameWindow.refl (v : Vmm) : v.SameWindow v := ⟨rfl, rfl⟩

theorem Vmm.SameWindow.trans {u : Vmm} (h : v.SameWindow w) (h' : w.SameWindow u) :
    v.SameWindow u := ⟨h'.base.trans h.base, h'.total.trans h.total⟩

theorem Vmm.Tidy.largestRun (h : v.Tidy) (lr : U32) : Vmm.Tidy { v with largestRun := lr } :=
  ⟨h.window.withBits _ _ _ _, h.counts, h.sum, h.tail⟩

/-- A run of free pages is reserved. -/
theorem Vmm.Tidy.reserved (h : v.Tidy) {p : Nat} {n : U32} (lr : U32) (hle : n ≤ v.freePages)
    (hf : FirstRun v.bitmap v.totalPages.toNat n.toNat p) : (v.reserved p n lr).Tidy where
  window := h.window.withBits _ _ _ _
  counts := h.counts.take hle hf.le_total hf.free
  sum := by
    show v.freePages - n + (v.usedPages + n) = v.totalPages
    rw [← h.sum, BitVec.add_comm v.usedPages, ← BitVec.add_assoc, BitVec.sub_add_cancel]
  tail := fun q h1 h2 => by
    have hp := hf.le_total
    have hq : v.totalPages.toNat ≤ q := h1
    show test (setRun v.bitmap p n.toNat) q = false
    rw [test_setRun, h.tail q h1 h2, decide_eq_false (by omega)]
    rfl

/-- Reserved pages are given back. -/
theorem Vmm.Tidy.given (h : v.Tidy) {p : Nat} {n : U32} (hp : p + n.toNat ≤ v.totalPages.toNat)
    (hu : ∀ i, i < n.toNat → test v.bitmap (p + i) = true) : (v.withTally (v.tally.give p n)).Tidy where
  window := h.window.withBits _ _ _ v.largestRun
  counts := h.counts.give v.totalPages.isLt hp hu
  sum := by
    show v.freePages + n + (v.usedPages - n) = v.totalPages
    rw [BitVec.add_assoc, BitVec.add_comm n, BitVec.sub_add_cancel, h.sum]
  tail := fun q h1 h2 => by
    show test (clearRun v.bitmap p n.toNat) q = false
    rw [test_clearRun, h.tail q h1 h2, Bool.and_false]

/-- One page is marked, and both counters follow. -/
theorem Vmm.Tidy.marked (h : v.Tidy) {q : Nat} {b : Bool} (hq : q < v.totalPages.toNat)
    (hb : test v.bitmap q = !b) :
    Vmm.Tidy { v with
      bitmap := if b then setBit v.bitmap q else clearBit v.bitmap q
      freePages := if b then v.freePages - 1 else v.freePages + 1
      usedPages := if b then v.usedPages + 1 else v.usedPages - 1 } := by
  have hstep := (Tally.Marked.refl b v.totalPages.toNat v.tally q).step v.totalPages.isLt le_rfl hq hb
  refine ⟨h.window.withBits _ _ _ _, hstep.counted h.counts, hstep.sum.trans h.sum, fun r h1 h2 => ?_⟩
  have hr : v.totalPages.toNat ≤ r := h1
  have hne : r ≠ q := by omega
  have htail := h.tail r h1 h2
  cases b
  · show test (clearBit v.bitmap q) r = false
    rw [test_clearBit, htail, Bool.and_false]
  · show test (setBit v.bitmap q) r = false
    rw [test_setBit, htail, decide_eq_false hne]
    rfl

/-! ## Marking -/

/-- One turn of `vmm_mark_used`, on a page of the window. -/
theorem Vmm.Tidy.markUsedTurn (h : v.Tidy) {start : U32} {i : Nat}
    (hq : v.page (pageAt start i) < v.totalPages.toNat) :
    (vmmMarkUsedTurn start i v).Tidy ∧ v.SameWindow (vmmMarkUsedTurn start i v) := by
  simp only [vmmMarkUsedTurn]
  split
  · exact ⟨h, .refl v⟩
  · next ht =>
      rw [vmmTest_page, not_and, Bool.not_eq_true] at ht
      have hin := h.window.inBitmap hq
      have hclear := ht (by omega)
      rw [vmmSet_page h.window.sized hq]
      exact ⟨h.marked (b := true) hq hclear, rfl, rfl⟩

/-- One turn of `vmm_mark_free`: a bit that is set is one of the window. -/
theorem Vmm.Tidy.markFreeTurn (h : v.Tidy) (start : U32) (i : Nat) :
    (vmmMarkFreeTurn start i v).Tidy ∧ v.SameWindow (vmmMarkFreeTurn start i v) := by
  simp only [vmmMarkFreeTurn]
  split
  · exact ⟨h, .refl v⟩
  · next ht =>
      obtain ⟨hwords, hset⟩ := (vmmTest_page v (pageAt start i)).mp ht
      have hq : v.page (pageAt start i) < v.totalPages.toNat := by
        by_contra hge
        rw [h.tail _ (by omega) hwords] at hset
        exact Bool.noConfusion hset
      rw [vmmClear_page h.window.sized hq]
      exact ⟨h.marked (b := false) hq hset, rfl, rfl⟩

theorem Vmm.Tidy.markUsed (h : v.Tidy) {virt size : U32}
    (hq : ∀ i, i < pageTurns (align virt pageSize) (align (virt + size) pageSize) →
      v.page (pageAt (align virt pageSize) i) < v.totalPages.toNat)
    (hrun : vmmMarkUsed v virt size = some w) : w.Tidy ∧ v.SameWindow w := by
  rw [vmmMarkUsed] at hrun
  split at hrun
  · exact (nomatch hrun)
  · cases hrun
    refine iter_inv (a := 0) (fun _ w => w.Tidy ∧ v.SameWindow w) ⟨h, .refl v⟩
      fun i u _ hi ⟨hu, hs⟩ => ?_
    have hpage : u.page (pageAt (align virt pageSize) i) < u.totalPages.toNat := by
      rw [Vmm.page, hs.base, hs.total]
      exact hq i (by omega)
    obtain ⟨ht, hs'⟩ := hu.markUsedTurn hpage
    exact ⟨ht, hs.trans hs'⟩

theorem Vmm.Tidy.markFree (h : v.Tidy) {virt size : U32} (hrun : vmmMarkFree v virt size = some w) :
    w.Tidy ∧ v.SameWindow w := by
  rw [vmmMarkFree] at hrun
  split at hrun
  · exact (nomatch hrun)
  · cases hrun
    refine iter_inv (a := 0) (fun _ w => w.Tidy ∧ v.SameWindow w) ⟨h, .refl v⟩
      fun i u _ _ ⟨hu, hs⟩ => ?_
    obtain ⟨ht, hs'⟩ := hu.markFreeTurn (align virt pageSize) i
    exact ⟨ht, hs.trans hs'⟩

/-! ## `vmm_init` -/

theorem vmmSizes_sized {base stop : U32} (h : vmmSizes v base stop = some w) :
    w.Sized ∧ w.stop = stop ∧ w.freePages = w.totalPages ∧ w.usedPages = 0 := by
  rw [vmmSizes] at h
  split at h
  · next hok =>
      cases h
      obtain ⟨h1, h2, h3⟩ := hok
      have hb : base.toNat % 4096 = 0 := by
        rw [← toNat_pageOffset, h1]
        rfl
      have hs : stop.toNat % 4096 = 0 := by
        rw [← toNat_pageOffset, h2]
        rfl
      rw [BitVec.lt_def] at h3
      have hle : base ≤ stop := by
        rw [BitVec.le_def]
        omega
      have htotal : (toPage (stop - base)).toNat = (stop.toNat - base.toNat) / 4096 := by
        rw [toNat_toPage, BitVec.toNat_sub_of_le hle]
      refine ⟨⟨hb, hs, h3, htotal, ?_⟩, rfl, rfl, rfl⟩
      show (ceilDiv (toPage (stop - base)) 32 * 4).toNat = ((toPage (stop - base)).toNat + 31) / 32 * 4
      have hlt := stop.isLt
      rw [BitVec.toNat_mul, toNat_ceilDiv _ (by omega), show (4 : U32).toNat = 4 from rfl]
      omega
  · exact (nomatch h)

theorem vmmSizes_window {base stop : U32} (h : vmmSizes v base stop = some w) (hle : stop ≤ kvirtEnd) :
    w.Window ∧ w.freePages = w.totalPages ∧ w.usedPages = 0 := by
  obtain ⟨hw, hstop, hfree, hused⟩ := vmmSizes_sized h
  refine ⟨⟨hw.base_aligned, hw.stop_aligned, hw.base_lt, ?_, hw.total_eq, hw.size_eq⟩, hfree, hused⟩
  rw [hstop]
  exact BitVec.le_def.mp hle

/-- `vmm_init` leaves a window whose counters count. -/
theorem VmmInitialized.tidy (h : VmmInitialized v) : v.Tidy := by
  obtain ⟨v0, v1, base, stop, bitmap, hle, hsizes, hfill⟩ := h
  obtain ⟨hw, hfree, hused⟩ := vmmSizes_window hsizes hle
  have htidy : Vmm.Tidy { v1 with
      bitmap := fun i => if i < v1.bitmapSize.toNat / 4 then 0 else bitmap i } := by
    have hclear : ∀ q, q / 32 < v1.bitmapSize.toNat / 4 →
        test (fun i => if i < v1.bitmapSize.toNat / 4 then 0 else bitmap i) q = false := by
      intro q hq
      rw [test, if_pos hq]
      exact BitVec.getLsbD_zero
    refine ⟨hw.withBits _ _ _ _, ?_, ?_, fun q _ hq => hclear q hq⟩
    · show v1.freePages.toNat = clearCount _ v1.totalPages.toNat
      rw [hfree]
      symm
      refine clearCount_all fun q hq => hclear q ?_
      have := hw.words
      omega
    · show v1.freePages + v1.usedPages = v1.totalPages
      rw [hfree, hused]
      exact BitVec.add_zero _
  rw [vmmFill] at hfill
  split at hfill
  · next hb =>
      -- page 0 of a window at address 0
      refine (htidy.markUsed (fun i hi => ?_) hfill).1
      have hturns : pageTurns (align 0 pageSize) (align (0 + 0x1000) pageSize) = 1 := by decide
      rw [hturns] at hi
      have hi0 : i = 0 := by omega
      obtain ⟨h1, h2⟩ := hw.window
      have hlt := hw.base_lt
      have hb0 : v1.base.toNat = 0 := by
        rw [show v1.base = 0 from hb]
        rfl
      subst hi0
      show (toPage (pageAt (align 0 pageSize) 0 - v1.base)).toNat < v1.totalPages.toNat
      rw [show v1.base = 0 from hb, show toPage (pageAt (align 0 pageSize) 0 - 0) = 0 from by decide]
      show 0 < v1.totalPages.toNat
      omega
  · cases hfill
    exact htidy

/-! ## The invariant of a run -/

/-- A range of the window. -/
def Vmm.Range (v : Vmm) (x : U32 × U32) : Prop :=
  ∃ p, x.1 = v.addr p ∧ v.addr p ≠ 0 ∧ x.2 ≠ 0 ∧ p + x.2.toNat ≤ v.totalPages.toNat

theorem Vmm.SameWindow.range (h : v.SameWindow w) {x : U32 × U32} (hx : v.Range x) : w.Range x := by
  obtain ⟨p, h1, h2, h3, h4⟩ := hx
  have haddr : w.addr p = v.addr p := by rw [Vmm.addr, h.base, Vmm.addr]
  exact ⟨p, by rw [haddr]; exact h1, by rw [haddr]; exact h2, h3, by rw [h.total]; exact h4⟩

structure VmmRun.Inv (L : Layout) (s : VmmRun) : Prop where
  tidy : s.mm.vmm.Tidy
  pmm : s.mm.pmm.Consistent
  wired : Wired L (pdIndex s.mm.vmm.base).toNat s.mm.mmu.mem s.mm.mmu.cr3
  live : ∀ x ∈ s.live, s.mm.vmm.Range x

theorem VmmRun.Inv.windowed (h : s.Inv L) : s.mm.Windowed L :=
  ⟨h.tidy.window, h.pmm.shape, h.pmm.zero, h.wired⟩

/-- The three parts after a call, and the ranges. -/
theorem VmmRun.Inv.after (h : s.Inv L) {m : Mm} {live : List (U32 × U32)}
    (ht : m.vmm.Tidy) (hs : s.mm.vmm.SameWindow m.vmm) (hp : m.pmm.Consistent)
    (hw : Wired L (pdIndex s.mm.vmm.base).toNat m.mmu.mem m.mmu.cr3)
    (hl : ∀ x ∈ live, x ∈ s.live ∨ s.mm.vmm.Range x) : VmmRun.Inv L ⟨m, live⟩ where
  tidy := ht
  pmm := hp
  wired := by
    rw [show (VmmRun.mk m live).mm.vmm.base = s.mm.vmm.base from hs.base]
    exact hw
  live := fun x hx => hs.range <| by
    rcases hl x hx with hx | hx
    · exact h.live x hx
    · exact hx

/-- The live ranges after a call that returned `virt`. -/
theorem live_ret {P : U32 × U32 → Prop} {live : List (U32 × U32)} {virt n : U32}
    (hp : virt ≠ 0 → P (virt, n)) :
    ∀ x ∈ (if virt = 0 then live else (virt, n) :: live), x ∈ live ∨ P x := by
  intro x hx
  split at hx
  · exact Or.inl hx
  · next h0 =>
      rcases List.mem_cons.mp hx with rfl | hx
      · exact Or.inr (hp h0)
      · exact Or.inl hx

theorem live_erase {P : U32 × U32 → Prop} {live : List (U32 × U32)} (y : U32 × U32) :
    ∀ x ∈ live.erase y, x ∈ live ∨ P x := fun _ hx => Or.inl (List.mem_of_mem_erase hx)

/-- Only the statistics changed. -/
theorem VmmRun.Inv.failed (h : s.Inv L) (n lr : U32) :
    (s.ret n (0, { s.mm with vmm := { s.mm.vmm with largestRun := lr } })).Inv L :=
  h.after (h.tidy.largestRun lr) ⟨rfl, rfl⟩ h.pmm h.wired (live_ret fun hne => absurd rfl hne)

/-- A range was reserved, whatever the call made of it. -/
theorem VmmRun.Inv.reserved (h : s.Inv L) {n lr virt : U32} {p : Nat} {m : Mm}
    (hres : s.mm.vmm.Reservable n)
    (hf : FirstRun s.mm.vmm.bitmap s.mm.vmm.totalPages.toNat n.toNat p) (h0 : s.mm.vmm.addr p ≠ 0)
    (hv : m.vmm = s.mm.vmm.reserved p n lr) (hp : m.pmm.Consistent)
    (hw : Wired L (pdIndex s.mm.vmm.base).toNat m.mmu.mem m.mmu.cr3)
    (hvirt : virt = 0 ∨ virt = s.mm.vmm.addr p) : (s.ret n (virt, m)).Inv L := by
  refine h.after ?_ ?_ hp hw (live_ret fun hne => ?_)
  · rw [hv]
    exact h.tidy.reserved lr hres.2.1 hf
  · rw [hv]
    exact ⟨rfl, rfl⟩
  · exact ⟨p, hvirt.resolve_left hne, h0, hres.1, hf.le_total⟩

theorem VmmRun.Inv.reserve (h : s.Inv L) (n : U32) :
    (s.ret n ((vmmReserve s.mm.vmm n).1, { s.mm with vmm := (vmmReserve s.mm.vmm n).2 })).Inv L := by
  rcases vmmReserve_window h.tidy.window n with ⟨_, lr, hr⟩ | ⟨hres, p, lr, hf, h0, hr⟩
  · rw [hr]
    exact h.failed n lr
  · rw [hr]
    exact h.reserved hres hf h0 rfl h.pmm h.wired (Or.inr rfl)

/-- When the frames run out at the first page, nothing is rolled back. -/
theorem VmmRun.Inv.alloc (h : s.Inv L) {n : U32} {r : U32 × Mm} (hrun : vmmAlloc L s.mm n = some r)
    (hc : s.mm.vmm.Finds n → s.mm.pmm.freePages = 0 ∨ n ≤ s.mm.pmm.freePages) : (s.ret n r).Inv L := by
  rcases vmmReserve_window h.tidy.window n with ⟨_, lr, hr⟩ | ⟨hres, p, lr, hf, h0, hr⟩
  · have hrun' : vmmAlloc L s.mm n
        = some (0, { s.mm with vmm := { s.mm.vmm with largestRun := lr } }) := by
      simp only [vmmAlloc, hr, if_true]
      rfl
    rw [hrun] at hrun'
    cases hrun'
    exact h.failed n lr
  obtain ⟨F, u, hcase⟩ := vmmAlloc_loop h.windowed hf.le_total h0 hr
  rcases hcase with ⟨_, hback, hrun'⟩ | ⟨hlt, hlen, hun, hrun'⟩
  · rw [hrun] at hrun'
    cases hrun'
    refine h.reserved hres hf h0 hback.vmm (hback.took.consistent h.pmm) ?_ (Or.inr rfl)
    rw [hback.cr3]
    exact h.wired.touched hback.touched
  · rw [hrun] at hrun'
    cases hrun'
    -- no frame was there
    have hF : F = [] := by
      have hlen' := hlen h.pmm
      have hz : (0 : U32).toNat = 0 := rfl
      rcases hc ⟨hres, p, hf, h0⟩ with hzero | hle
      · rw [hzero] at hlen'
        exact List.eq_nil_of_length_eq_zero hlen'
      · rw [BitVec.le_def] at hle
        omega
    subst hF
    refine h.reserved hres hf h0 hun.vmm (hun.took.consistent h.pmm) ?_ (Or.inl rfl)
    rw [hun.cr3]
    exact h.wired.touched hun.touched

theorem VmmRun.Inv.allocContiguous (h : s.Inv L) {n : U32} {r : U32 × Mm}
    (hrun : vmmAllocContiguous L s.mm n = some r) : (s.ret n r).Inv L := by
  rcases vmmReserve_window h.tidy.window n with ⟨_, lr, hr⟩ | ⟨hres, p, lr, hf, h0, hr⟩
  · have hrun' : vmmAllocContiguous L s.mm n
        = some (0, { s.mm with vmm := { s.mm.vmm with largestRun := lr } }) := by
      simp only [vmmAllocContiguous, hr, if_true]
      rfl
    rw [hrun] at hrun'
    cases hrun'
    exact h.failed n lr
  rcases vmmAllocContiguous_rest h.windowed hres.1 hf.le_total h0 hr with ⟨_, mem', ht, hrun'⟩ | ⟨_, hrun'⟩
  · rw [hrun] at hrun'
    cases hrun'
    exact h.reserved hres hf h0 rfl (pmmAlloc_consistent h.pmm n) (h.wired.touched ht.touched) (Or.inr rfl)
  · rw [hrun] at hrun'
    cases hrun'
    exact h.reserved hres hf h0 rfl (pmmAlloc_consistent h.pmm n) h.wired (Or.inl rfl)

/-- What `vmm_unreserve` leaves of the window, for a range that is reserved. -/
theorem VmmRun.Inv.unreserved (h : s.Inv L) {virt n : U32} (hx : (virt, n) ∈ s.live)
    (hc : ∀ i, i < n.toNat → vmmTest s.mm.vmm (pageAt virt i) ≠ 0) :
    (vmmUnreserve s.mm.vmm virt n).Tidy ∧ s.mm.vmm.SameWindow (vmmUnreserve s.mm.vmm virt n) := by
  obtain ⟨p, hvirt, h0, hn, hle⟩ := h.live _ hx
  have hv : virt = s.mm.vmm.addr p := hvirt
  subst hv
  have hw := h.tidy.window
  rw [vmmUnreserve_eq hw hn hle h0]
  refine ⟨h.tidy.given hle fun i hi => ?_, rfl, rfl⟩
  have hset := hc i hi
  have hle' : p + n.toNat ≤ s.mm.vmm.totalPages.toNat := hle
  rwa [Vmm.pageAt_addr, vmmTest_ne_zero hw (by omega)] at hset

theorem VmmRun.Inv.free (h : s.Inv L) {virt n : U32} {m : Mm} (hx : (virt, n) ∈ s.live)
    (hc : ∀ i, i < n.toNat → vmmTest s.mm.vmm (pageAt virt i) ≠ 0)
    (hrun : vmmFree s.mm virt n = some m) : VmmRun.Inv L ⟨m, s.live.erase (virt, n)⟩ := by
  obtain ⟨htidy, hsame⟩ := h.unreserved hx hc
  obtain ⟨p, hvirt, h0, hn, hle⟩ := h.live _ hx
  have hv : virt = s.mm.vmm.addr p := hvirt
  have hle' : p + n.toNat ≤ s.mm.vmm.totalPages.toNat := hle
  have hpos := toNat_pos_of_ne hn
  subst hv
  obtain ⟨mem', hrun', ht⟩ := vmmFree_eq h.windowed hle' (by omega)
  rw [hrun, Option.some.injEq] at hrun'
  subst hrun'
  generalize vmmUnreserve s.mm.vmm (s.mm.vmm.addr p) n = w at htidy hsame
  exact h.after htidy hsame h.pmm (h.wired.touched ht) (live_erase _)

/-- **One call.** -/
theorem VmmRun.Inv.step {c : VmmCall} (h : s.Inv L) (hc : c.Counted s) (hstep : VmmStep L c s s') :
    s'.Inv L := by
  obtain ⟨hlegal, hrun⟩ := hstep
  cases c with
  | reserve n =>
      cases hrun
      exact h.reserve n
  | unreserve virt n =>
      cases hrun
      obtain ⟨htidy, hsame⟩ := h.unreserved hlegal hc
      exact h.after htidy hsame h.pmm h.wired (live_erase _)
  | alloc n =>
      obtain ⟨r, hr, rfl⟩ := Option.map_eq_some_iff.mp hrun
      exact h.alloc hr hc
  | allocContiguous n =>
      obtain ⟨r, hr, rfl⟩ := Option.map_eq_some_iff.mp hrun
      exact h.allocContiguous hr
  | free virt n =>
      obtain ⟨m, hm, rfl⟩ := Option.map_eq_some_iff.mp hrun
      exact h.free hlegal hc hm
  | markUsed virt size =>
      obtain ⟨v, hv, rfl⟩ := Option.map_eq_some_iff.mp hrun
      obtain ⟨htidy, hsame⟩ := h.tidy.markUsed hc hv
      exact h.after htidy hsame h.pmm h.wired fun _ hx => Or.inl hx
  | markFree virt size =>
      obtain ⟨v, hv, rfl⟩ := Option.map_eq_some_iff.mp hrun
      obtain ⟨htidy, hsame⟩ := h.tidy.markFree hv
      exact h.after htidy hsame h.pmm h.wired fun _ hx => Or.inl hx
  | frames pmm =>
      cases hrun
      exact h.after h.tidy (.refl _) hlegal h.wired fun _ hx => Or.inl hx

theorem VmmStart.inv (h : VmmStart L s) : s.Inv L := by
  obtain ⟨hinit, hp, hw, hl⟩ := h
  refine ⟨hinit.tidy, hp, hw, ?_⟩
  rw [hl]
  exact fun _ hx => absurd hx List.not_mem_nil

/-- **Accounting.**  In every state that is reached by calls that count what they
change, the two counters of the window count its bits. -/
theorem vmmRun_accounting (h : Reach (VmmStart L) (Guarded VmmCall.Counted (VmmStep L)) s) :
    s.mm.vmm.Accounts := by
  have hinv : s.Inv L := Reach.invariant (VmmRun.Inv L) (fun _ hs => hs.inv)
    (fun _ _ _ hs hstep => hs.step hstep.1 hstep.2) h
  exact hinv.tidy.accounts

/-! ## Sixteen pages and fifteen frames -/

theorem smallMm_start : VmmStart smallLayout ⟨smallMm, []⟩ := by
  refine ⟨⟨smallVmm, smallVmm, kvirt, kvirt + 0x20000, fun _ => 0, by decide, rfl, ?_⟩,
    smallMm_consistent.pmm, smallMm_consistent.wired, rfl⟩
  rw [vmmFill, if_neg (by decide)]
  simp only [ite_self]
  rfl

/-- Three pages are reserved. -/
theorem vmmRun_accounting_three : (vmmReserve smallVmm 3).2.Accounts := by
  have hstep : Guarded VmmCall.Counted (VmmStep smallLayout) (.reserve 3) ⟨smallMm, []⟩
      (VmmRun.ret ⟨smallMm, []⟩ 3
        ((vmmReserve smallVmm 3).1, { smallMm with vmm := (vmmReserve smallVmm 3).2 })) :=
    ⟨trivial, trivial, rfl⟩
  exact vmmRun_accounting (.next (.start smallMm_start) hstep)

/-- What is rolled back is not counted. -/
theorem Unwinding.miscounted {m u : Mm} {p : Nat} {n lr : U32} {F : List Nat} (h : m.vmm.Tidy)
    (hres : m.vmm.Reservable n) (hf : FirstRun m.vmm.bitmap m.vmm.totalPages.toNat n.toNat p)
    (hlt : F.length < n.toNat) (hne : F ≠ [])
    (hun : Unwinding L (m.withReserved p n lr) p F.length F.length [] u) : ¬ u.vmm.Accounts := by
  intro hc
  have hcount := (h.reserved lr hres.2.1 hf).counts
  have hle := hf.le_total
  have hset : ∀ i, i < F.length → test (setRun m.vmm.bitmap p n.toNat) (p + i) = true := by
    intro i hi
    rw [test_setRun, decide_eq_true (by omega), Bool.true_or]
  have hclr := clearCount_clearRun (n := m.vmm.totalPages.toNat) hset (by omega)
  have hfree := hc.free
  rw [hun.vmm] at hfree
  have hfree' : (m.vmm.freePages - n).toNat
      = clearCount (clearRun (setRun m.vmm.bitmap p n.toNat) p F.length) m.vmm.totalPages.toNat := hfree
  have hcount' : (m.vmm.freePages - n).toNat
      = clearCount (setRun m.vmm.bitmap p n.toNat) m.vmm.totalPages.toNat := hcount
  have hlen := List.length_pos_iff.mpr hne
  omega

/-- **Frames run out**: fifteen pages are free again, and are not counted. -/
theorem vmmAlloc_miscounts : ¬ VmmAccounting := by
  intro hall
  rcases vmmAlloc_cases smallMm_consistent.ready 16 with
    ⟨hno, _⟩ | ⟨hres, p, lr, F, u, hf, h0, hcase⟩
  · exact hno smallMm_reservable
  have hfree : smallMm.pmm.freePages.toNat = 15 := by decide +kernel
  rcases hcase with ⟨hlen, hback, _⟩ | ⟨hlt, hlen, hun, hrun⟩
  · have hleft := hback.took.free_left smallMm_consistent.pmm
    rw [show (smallMm.withReserved p 16 lr).pmm = smallMm.pmm from rfl] at hleft
    have h16 : (16 : U32).toNat = 16 := rfl
    omega
  · have hF := hlen smallMm_consistent.pmm
    have hne : F ≠ [] := by
      rintro rfl
      rw [hfree] at hF
      exact absurd hF (by decide)
    have hstep : VmmStep smallLayout (.alloc 16) ⟨smallMm, []⟩ (VmmRun.ret ⟨smallMm, []⟩ 16 (0, u)) :=
      ⟨trivial, by rw [VmmCall.run, hrun]; rfl⟩
    have hacc := hall smallLayout _ (.next (.start smallMm_start) hstep)
    exact hun.miscounted smallMm_start.inv.tidy hres hf hlt hne hacc

end Tomk
