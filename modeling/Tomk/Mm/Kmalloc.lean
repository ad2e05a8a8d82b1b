/-
# `kmalloc.c`: the kernel heap over its window

The kernel's heap gets its regions from the kernel's own window, `heap_init`
being what `mminit` ends with: `kernelVmm` is that window as the manager of a
heap.  Runs are calls of `kmalloc`, `vmalloc`, `kfree` and `vfree`, with any
sizes and any pointers.

What `kmalloc` promises goes through all the layers.  A region is a range that
the window has lent, of the region's kind (`KmallocRun.Kinds`), and the frames of
a range of the contiguous kind are adjacent; a pointer lies in a region of the
kind that was asked for, whatever was merged and split since, because ranges are
apart and so no other can have its address (`KvmmRun.Inv.covers_unique`).
-/
import Tomk.Mm.FrameOwner
import Tomk.Mm.KheapRun
import Tomk.Mm.KheapKinds

namespace Tomk

open WordBits Runs Tiling

variable {L : Layout} {s s' : KvmmRun} {m m' : Mm} {x y : Lent} {p q n : Nat}

/-! ## Ranges are apart -/

/-- The end of a range. -/
def Lent.stop (x : Lent) : Nat := rangeStop x.virt x.count

/-- Addresses after the first of the range, and its end. -/
def Lent.Covers (x : Lent) (a : U32) : Prop := x.virt.toNat < a.toNat ∧ a.toNat ≤ x.stop

theorem Mm.LendsAt.toNat_virt (h : m.LendsAt x p) (hm : m.Ready L) :
    x.virt.toNat = m.vmm.base.toNat + p * 4096 ∧
      x.stop = m.vmm.base.toNat + (p + x.count.toNat) * 4096 := by
  have hpos := toNat_pos_of_ne h.count_ne
  have hle := h.le_total
  have hv : x.virt.toNat = m.vmm.base.toNat + p * 4096 := by
    rw [h.virt, hm.vmm.toWindow.toNat_addr (by omega)]
  refine ⟨hv, ?_⟩
  rw [Lent.stop, rangeStop, hv]
  omega

/-- A range is page aligned and ends in the address space. -/
theorem Mm.LendsAt.range (h : m.LendsAt x p) (hm : m.Ready L) :
    x.virt ≠ 0 ∧ x.virt.toNat % 4096 = 0 ∧ x.virt.toNat + 4096 ≤ x.stop ∧ x.stop ≤ 2 ^ 32 := by
  obtain ⟨h1, h2⟩ := h.toNat_virt hm
  have hpos := toNat_pos_of_ne h.count_ne
  have hle := h.le_total
  have hbase := hm.vmm.toWindow.base_aligned
  obtain ⟨hw1, hw2⟩ := hm.vmm.toWindow.window
  refine ⟨?_, by omega, by omega, by omega⟩
  rw [h.virt]
  exact h.virt_ne

/-- The live ranges are apart: no two have a page in common. -/
theorem KvmmRun.Inv.pairwise (h : s.Inv L) :
    s.live.Pairwise fun x y => x.stop ≤ y.virt.toNat ∨ y.stop ≤ x.virt.toNat := by
  have hm : s.mm.Ready L := h.space.ready
  have hdisjoint := (List.nodup_flatMap.mp h.owns.apart.of_map).2
  refine hdisjoint.imp_of_mem fun {x y} hx hy hdis => ?_
  obtain ⟨p, hp⟩ := h.lends x hx
  obtain ⟨q, hq⟩ := h.lends y hy
  obtain ⟨h1, h2⟩ := hp.toNat_virt hm
  obtain ⟨h3, h4⟩ := hq.toNat_virt hm
  have hposx := toNat_pos_of_ne hp.count_ne
  have hposy := toNat_pos_of_ne hq.count_ne
  by_contra hno
  rw [not_or] at hno
  have hxp := hp.mem_pages (i := max p q - p) (by omega)
  have hyq := hq.mem_pages (i := max p q - q) (by omega)
  rw [show p + (max p q - p) = max p q by omega] at hxp
  rw [show q + (max p q - q) = max p q by omega] at hyq
  exact hdis hxp hyq

/-- The live ranges that have an address are one. -/
theorem KvmmRun.Inv.covers_unique (h : s.Inv L) (hx : x ∈ s.live) (hy : y ∈ s.live) {a : U32}
    (hxa : x.Covers a) (hya : y.Covers a) : x = y := by
  by_contra hne
  have : Std.Symm fun x y : Lent => x.stop ≤ y.virt.toNat ∨ y.stop ≤ x.virt.toNat :=
    ⟨fun _ _ => Or.symm⟩
  have hapart := h.pairwise.forall hx hy hne
  have h1 := hxa.1
  have h2 := hxa.2
  have h3 := hya.1
  have h4 := hya.2
  omega

theorem KvmmRun.Inv.range (h : s.Inv L) (hx : x ∈ s.live) :
    x.virt ≠ 0 ∧ x.virt.toNat % 4096 = 0 ∧ x.virt.toNat + 4096 ≤ x.stop ∧ x.stop ≤ 2 ^ 32 := by
  obtain ⟨p, hp⟩ := h.lends x hx
  exact hp.range h.space.ready

/-- They are told apart by their addresses. -/
theorem KvmmRun.Inv.virt_inj (h : s.Inv L) (hx : x ∈ s.live) (hy : y ∈ s.live)
    (heq : x.virt = y.virt) : x = y := by
  obtain ⟨_, _, h1, h2⟩ := h.range hx
  obtain ⟨_, _, h3, _⟩ := h.range hy
  have ha : (x.virt + 1).toNat = x.virt.toNat + 1 := by
    rw [BitVec.toNat_add, show (1 : U32).toNat = 1 from rfl]
    omega
  have hv := congrArg BitVec.toNat heq
  exact h.covers_unique hx hy (a := x.virt + 1) ⟨by omega, by omega⟩ ⟨by omega, by omega⟩

theorem KvmmRun.Inv.nodup (h : s.Inv L) : s.live.Nodup := by
  refine h.pairwise.imp_of_mem fun {x y} hx _ hapart heq => ?_
  obtain ⟨_, _, h1, _⟩ := h.range hx
  rw [heq] at hapart h1
  omega

/-- A release takes the range at its address off. -/
theorem KvmmRun.Inv.erase_eq (h : s.Inv L) (hx : x ∈ s.live) :
    s.live.erase x = s.live.filter fun y => y.virt ≠ x.virt := by
  rw [h.nodup.erase_eq_filter]
  refine List.filter_congr fun y hy => ?_
  by_cases hv : y.virt = x.virt
  · rw [h.virt_inj hy hx hv]
    simp
  · have hne : y ≠ x := fun heq => hv (congrArg Lent.virt heq)
    simp [hne, hv]

/-! ## The window as the manager of a heap -/

/-- `vmm_alloc` or `vmm_alloc_contiguous` of the kernel's window, with what was
returned taken down. -/
def kvmmAlloc (L : Layout) (s : KvmmRun) (contiguous : Bool) (count : U32) :
    Option (U32 × KvmmRun) :=
  (if contiguous then vmmAllocContiguous L s.mm count else vmmAlloc L s.mm count).map
    fun r => (r.1, s.ret count contiguous r)

def kvmmFree (s : KvmmRun) (virt count : U32) : Option KvmmRun :=
  (vmmFree s.mm virt count).map fun mm => ⟨mm, s.live.filter fun y => y.virt ≠ virt⟩

/-- A call returns, and what it returns is lent. -/
theorem KvmmRun.Inv.kvmmAlloc (h : s.Inv L) (c : Bool) (n : U32) :
    ∃ r s', Tomk.kvmmAlloc L s c n = some (r, s') ∧ s'.Inv L ∧
      s'.live = if r = 0 then s.live else ⟨r, n, c⟩ :: s.live := by
  have hcall : ∃ r m',
      (if c then vmmAllocContiguous L s.mm n else vmmAlloc L s.mm n) = some (r, m') ∧
        Space.Inv L ⟨m', [L.pgPd]⟩ ∧ s.mm.Allocates L n c r m' := by
    cases c with
    | true => exact h.space.vmmAllocContiguous n
    | false => exact h.space.vmmAlloc n
  obtain ⟨r, m', hr, hs, ha⟩ := hcall
  refine ⟨r, s.ret n c (r, m'), ?_, h.allocates hs ha, rfl⟩
  rw [Tomk.kvmmAlloc, hr, Option.map_some]

theorem KvmmRun.Inv.kvmmFree (h : s.Inv L) (hx : x ∈ s.live) :
    ∃ s', Tomk.kvmmFree s x.virt x.count = some s' ∧ s'.Inv L ∧
      s'.live = s.live.filter fun y => y.virt ≠ x.virt := by
  obtain ⟨m, hr, hs⟩ := h.free hx
  rw [h.erase_eq hx] at hs
  refine ⟨_, ?_, hs, rfl⟩
  rw [Tomk.kvmmFree, hr, Option.map_some]

/-- The kernel's window; it is lost with a call that faults. -/
def kernelVmm (L : Layout) : VmmOps (Option KvmmRun) where
  alloc := fun v contiguous count =>
    match v.bind fun s => kvmmAlloc L s contiguous count with
    | some (r, s) => (r, some s)
    | none => (0, none)
  free := fun v virt count => v.bind fun s => kvmmFree s virt count
  Ok := fun v => ∃ s, v = some s ∧ s.Inv L
  Given := fun v virt count => ∃ s c, v = some s ∧ (⟨virt, count, c⟩ : Lent) ∈ s.live
  alloc_ok := by
    rintro _ c n ⟨s, rfl, h⟩
    obtain ⟨r, s', hr, hs, _⟩ := h.kvmmAlloc c n
    simp only [Option.bind_some, hr]
    exact ⟨s', rfl, hs⟩
  free_ok := by
    rintro _ q n ⟨s, rfl, h⟩ ⟨_, c, heq, hx⟩
    cases heq
    obtain ⟨s', hr, hs, _⟩ := h.kvmmFree hx
    exact ⟨s', hr, hs⟩
  alloc_range := by
    rintro _ c n ⟨s, rfl, h⟩ _
    obtain ⟨r, s', hr, hs, hlive⟩ := h.kvmmAlloc c n
    simp only [Option.bind_some, hr]
    intro h0
    rw [if_neg h0] at hlive
    have hx : (⟨r, n, c⟩ : Lent) ∈ s'.live := by
      rw [hlive]
      exact List.mem_cons_self
    obtain ⟨_, ha, _, hle⟩ := hs.range hx
    exact ⟨ha, hle, s', c, rfl, hx⟩
  alloc_apart := by
    rintro _ c n q k ⟨s, rfl, h⟩ _
    obtain ⟨r, s', hr, hs, hlive⟩ := h.kvmmAlloc c n
    simp only [Option.bind_some, hr]
    rintro h0 ⟨_, c', heq, hy⟩
    cases heq
    rw [if_neg h0] at hlive
    have hapart := hs.pairwise
    rw [hlive, List.pairwise_cons] at hapart
    exact (hapart.1 _ hy).symm
  alloc_keeps := by
    rintro _ c n q k ⟨s, rfl, h⟩ ⟨_, c', heq, hy⟩
    cases heq
    obtain ⟨r, s', hr, _, hlive⟩ := h.kvmmAlloc c n
    simp only [Option.bind_some, hr]
    refine ⟨s', c', rfl, ?_⟩
    rw [hlive]
    split
    · exact hy
    · exact List.mem_cons_of_mem _ hy
  free_keeps := by
    rintro _ q n r k ⟨s, rfl, h⟩ ⟨_, c, heq, hx⟩ ⟨_, c', heq', hy⟩ hapart
    cases heq
    cases heq'
    obtain ⟨s', hr, _, hlive⟩ := h.kvmmFree hx
    refine ⟨s', c', hr, ?_⟩
    rw [hlive, List.mem_filter, decide_eq_true_iff]
    refine ⟨hy, fun hv => ?_⟩
    obtain ⟨_, _, h1, _⟩ := h.range hx
    obtain ⟨_, _, h2, _⟩ := h.range hy
    have hv' := congrArg BitVec.toNat hv
    simp only [Lent.stop] at h1 h2 hv'
    omega

/-- What an allocation leaves of what is lent. -/
theorem kernelVmm_alloc (h : s.Inv L) (c : Bool) (n : U32) :
    ∃ s', ((kernelVmm L).alloc (some s) c n).2 = some s' ∧ s'.Inv L ∧
      s'.live = if ((kernelVmm L).alloc (some s) c n).1 = 0 then s.live
        else ⟨((kernelVmm L).alloc (some s) c n).1, n, c⟩ :: s.live := by
  obtain ⟨r, s', hr, hs, hlive⟩ := h.kvmmAlloc c n
  simp only [kernelVmm, Option.bind_some, hr]
  exact ⟨s', rfl, hs, hlive⟩

/-- A release lends nothing. -/
theorem kernelVmm_free {q n : U32} (hr : (kernelVmm L).free (some s) q n = some s') :
    s'.live ⊆ s.live := by
  obtain ⟨m, _, rfl⟩ := Option.map_eq_some_iff.mp hr
  exact fun _ hx => (List.mem_filter.mp hx).1

/-! ## The interface -/

/-- A pointer that was returned, the size it was asked for with, and by which of
the two functions. -/
structure HeapPtr where
  ptr : U32
  size : U32
  contiguous : Bool

/-- `kheap`, its manager `kvmm`, and what is live. -/
structure KmallocRun where
  heap : Heap
  vmm : Option KvmmRun
  live : List HeapPtr

def kmalloc (L : Layout) (h : Heap) (v : Option KvmmRun) (size : U32) :
    Option (U32 × Heap × Option KvmmRun) := heapAlloc (kernelVmm L) h v size true

def kfree (L : Layout) (h : Heap) (v : Option KvmmRun) (ptr : U32) :
    Option (Heap × Option KvmmRun) := heapFree (kernelVmm L) h v ptr

def vmalloc (L : Layout) (h : Heap) (v : Option KvmmRun) (size : U32) :
    Option (U32 × Heap × Option KvmmRun) := heapAlloc (kernelVmm L) h v size false

def vfree (L : Layout) (h : Heap) (v : Option KvmmRun) (ptr : U32) :
    Option (Heap × Option KvmmRun) := heapFree (kernelVmm L) h v ptr

inductive KmallocCall where
  | kmalloc (size : U32)
  | vmalloc (size : U32)
  | kfree (ptr : U32)
  | vfree (ptr : U32)

/-- An allocation has returned. -/
def KmallocRun.ret (s : KmallocRun) (size : U32) (contiguous : Bool)
    (r : U32 × Heap × Option KvmmRun) : KmallocRun :=
  ⟨r.2.1, r.2.2, if r.1 = 0 then s.live else ⟨r.1, size, contiguous⟩ :: s.live⟩

/-- A release has returned. -/
def KmallocRun.released (s : KmallocRun) (ptr : U32) (r : Heap × Option KvmmRun) : KmallocRun :=
  ⟨r.1, r.2, s.live.filter fun a => a.ptr ≠ ptr⟩

def KmallocCall.run (L : Layout) (s : KmallocRun) : KmallocCall → Option KmallocRun
  | .kmalloc size => (Tomk.kmalloc L s.heap s.vmm size).map (s.ret size true)
  | .vmalloc size => (Tomk.vmalloc L s.heap s.vmm size).map (s.ret size false)
  | .kfree ptr => (Tomk.kfree L s.heap s.vmm ptr).map (s.released ptr)
  | .vfree ptr => (Tomk.vfree L s.heap s.vmm ptr).map (s.released ptr)

/-- `mminit` has returned: its last call is `heap_init`. -/
def KmallocStart (L : Layout) (s : KmallocRun) : Prop :=
  ∃ h k, s.heap = heapInit h ∧ s.vmm = some k ∧ KvmmStart L k ∧ s.live = []

/-- The states of all runs. -/
def KmallocReach (L : Layout) : KmallocRun → Prop :=
  Reach (KmallocStart L) fun c s s' => KmallocCall.run L s c = some s'

/-! ## The invariant -/

/-- The size that an allocation has for certain: one that is so large that its
rounding wraps may get any block. -/
def HeapPtr.held (a : HeapPtr) : U32 × U32 :=
  (a.ptr, if a.size.toNat ≤ 0xFFFFE000 then a.size else 0)

/-- The kinds of the regions are those of the ranges, and each pointer lies in a
range of the kind that was asked for. -/
structure Heap.Kinds (h : Heap) (lent : List Lent) (live : List HeapPtr) : Prop where
  regions : ∀ x ∈ lent, (h.regions x.virt).Contiguous ↔ x.contiguous = true
  ptrs : ∀ a ∈ live, ∃ x ∈ lent, x.Covers a.ptr ∧ x.contiguous = a.contiguous

def KmallocRun.Inv (L : Layout) (s : KmallocRun) : Prop :=
  ∃ k rs B, s.vmm = some k ∧ HeapOk true (kernelVmm L) s.heap s.vmm rs NoPending B ∧
    LiveOk s.heap rs B (s.live.map HeapPtr.held) ∧ s.heap.Kinds k.live s.live

variable {k k' : KvmmRun} {h h' : Heap} {rs : List U32} {ps : U32 → Prop} {B : U32 → List U32}
  {t : KmallocRun} {live : List HeapPtr}

/-- The window under a heap. -/
theorem HeapOk.window {v : Option KvmmRun} (hk : HeapOk true (kernelVmm L) h v rs ps B) :
    ∃ k, v = some k ∧ k.Inv L := hk.vmm

/-- A region is a range that is lent, and so the pointers of its blocks lie in
that. -/
theorem HeapOk.lent (hk : HeapOk true (kernelVmm L) h (some k) rs ps B) {r b : U32} (hr : r ∈ rs)
    (hb : b ∈ B r) : ∃ x ∈ k.live, x.virt = r ∧ x.stop = h.stop r ∧ x.Covers (blockPtr b) := by
  have hok := hk.region r (Or.inl hr)
  obtain ⟨_, c, heq, hx⟩ := hk.given r (Or.inl hr)
  cases heq
  have hstop : (⟨r, toPage (h.regions r).size, c⟩ : Lent).stop = h.stop r := hok.rangeStop
  have hptr := hok.toNat_blockPtr hb
  obtain ⟨h1, h2⟩ := hok.inside hb
  refine ⟨_, hx, rfl, hstop, ?_, ?_⟩
  · show r.toNat < _
    omega
  · rw [hstop, hptr]
    exact h2

/-- A live pointer is that of a block, and lies in the range of its region. -/
theorem LiveOk.lent (hk : HeapOk true (kernelVmm L) h (some k) rs ps B)
    (hl : LiveOk h rs B (live.map HeapPtr.held)) {a : HeapPtr} (ha : a ∈ live) :
    ∃ r ∈ rs, ∃ b ∈ B r, h.Holds b a.held ∧
      ∃ x ∈ k.live, x.virt = r ∧ x.stop = h.stop r ∧ x.Covers a.ptr := by
  obtain ⟨r, hr, b, hb, hh⟩ := hl.block a.held (List.mem_map_of_mem ha)
  obtain ⟨x, hx, hv, hs, hc⟩ := hk.lent hr hb
  have hptr : a.ptr = blockPtr b := hh.1
  rw [← hptr] at hc
  exact ⟨r, hr, b, hb, hh, x, hx, hv, hs, hc⟩

/-! ## The calls -/

/-- The kinds after a block was taken. -/
theorem Heap.Kinds.found (hkinds : h.Kinds k.live live) (f : SameFlags h h') :
    h'.Kinds k.live live :=
  ⟨fun x hx => (f.contiguous x.virt).trans (hkinds.regions x hx), hkinds.ptrs⟩

/-- One more pointer. -/
theorem Heap.Kinds.add {lent : List Lent} (hkinds : h.Kinds lent live) {a : HeapPtr} (hx : x ∈ lent)
    (hc : x.Covers a.ptr) (ha : x.contiguous = a.contiguous) : h.Kinds lent (a :: live) := by
  refine ⟨hkinds.regions, fun b hb => ?_⟩
  rcases List.mem_cons.mp hb with rfl | hb
  · exact ⟨x, hx, hc, ha⟩
  · exact hkinds.ptrs b hb

/-- A region is made. -/
theorem Heap.Kinds.grown (hkinds : h.Kinds k.live live) {r n : U32} {c : Bool}
    (hlive : k'.live = ⟨r, n, c⟩ :: k.live) (hk' : k'.Inv L)
    (hother : ∀ q, q ≠ r → (h'.regions q).flags = (h.regions q).flags)
    (hnew : (h'.regions r).Contiguous ↔ c = true) : h'.Kinds k'.live live := by
  rw [hlive]
  have hn := hk'.nodup
  rw [hlive, List.nodup_cons] at hn
  refine ⟨fun x hx => ?_, fun a ha => ?_⟩
  · rcases List.mem_cons.mp hx with rfl | hx
    · exact hnew
    · have hne : x.virt ≠ r := by
        intro hv
        have hmem : ∀ y ∈ (⟨r, n, c⟩ :: k.live : List Lent), y ∈ k'.live := fun y hy => hlive ▸ hy
        have heq := hk'.virt_inj (hmem x (List.mem_cons_of_mem _ hx))
          (hmem ⟨r, n, c⟩ List.mem_cons_self) hv
        exact hn.1 (heq ▸ hx)
      rw [Region.Contiguous, hother _ hne]
      exact hkinds.regions x hx
  · obtain ⟨x, hx, hc⟩ := hkinds.ptrs a ha
    exact ⟨x, List.mem_cons_of_mem _ hx, hc⟩

/-- The kind of what `block_find_free` accepts. -/
theorem suitable_kind {n r b : U32} {c : Bool} (hs : suitable h n c r b = true) :
    (h.regions r).Contiguous ↔ c = true := by
  rw [suitable] at hs
  split at hs
  · cases hs
  split at hs
  · cases hs
  split at hs
  · cases hs
  · next hc =>
      rw [not_not] at hc
      rw [hc, decide_eq_true_iff]

/-- A block that the search found lies in a range of the kind. -/
theorem HeapOk.found (hk : HeapOk true (kernelVmm L) h (some k) rs ps B)
    (hkinds : h.Kinds k.live live) {n r b : U32} {c : Bool} (hfind : blockFindFree h n c = some (some (b, r))) :
    ∃ x ∈ k.live, x.Covers (blockPtr b) ∧ x.contiguous = c := by
  rcases searchRegions_cases hk (suitable h n c) with ⟨hrun, _⟩ | ⟨r', hr, b', hb, hacc, hrun⟩
  · rw [blockFindFree, hrun] at hfind
    cases hfind
  · rw [blockFindFree, hrun] at hfind
    cases hfind
    obtain ⟨x, hx, hv, _, hc⟩ := hk.lent hr hb
    have hkind := hkinds.regions x hx
    rw [hv, suitable_kind hacc] at hkind
    exact ⟨x, hx, hc, (Bool.eq_iff_iff.mpr hkind).symm⟩

/-- The first block of a range. -/
theorem KvmmRun.Inv.covers_first (hk : k.Inv L) (hx : x ∈ k.live) :
    x.Covers (blockPtr (regionBlock x.virt)) := by
  obtain ⟨_, _, h1, h2⟩ := hk.range hx
  have hsize : (regionSize.toNat, headerSize.toNat) = (32, 16) := by decide
  have hptr : (blockPtr (regionBlock x.virt)).toNat = x.virt.toNat + 48 := by
    rw [blockPtr, regionBlock, BitVec.toNat_add, BitVec.toNat_add, (Prod.mk.inj hsize).1,
      (Prod.mk.inj hsize).2]
    omega
  exact ⟨by omega, by omega⟩

/-- The kinds after `heap_alloc`. -/
theorem Heap.Kinds.alloc (hkinds : h.Kinds k.live live)
    (hk : HeapOk true (kernelVmm L) h (some k) rs ps B) (hk' : k'.Inv L) {size ptr : U32} {c : Bool}
    (hrun : heapAlloc (kernelVmm L) h (some k) size c = some (ptr, h', some k')) :
    h'.Kinds k'.live (if ptr = 0 then live else ⟨ptr, size, c⟩ :: live) := by
  rcases heapAlloc_kinds hrun with ⟨heq, f, hfound⟩ | ⟨n, hn, heq, hnew⟩
  · cases heq
    have hbase := hkinds.found f
    split
    · exact hbase
    · next h0 =>
        obtain ⟨b, r, hptr, hfind⟩ := hfound h0
        obtain ⟨x, hx, hc, hxc⟩ := hk.found hkinds hfind
        exact hbase.add hx (hptr ▸ hc) hxc
  · obtain ⟨k0, hk0, hinv⟩ := hk.window
    cases hk0
    obtain ⟨k1, hv, _, hlive⟩ := kernelVmm_alloc hinv c n
    rw [hv] at heq
    cases heq
    rcases hnew with ⟨hr0, hp0, f⟩ | ⟨hr0, hother, hkind, hptr⟩
    · rw [if_pos hr0] at hlive
      rw [if_pos hp0, hlive]
      exact hkinds.found f
    · rw [if_neg hr0] at hlive
      have hbase := hkinds.grown hlive hk' hother hkind
      split
      · exact hbase
      · next h0 =>
          have hx : ⟨_, n, c⟩ ∈ k'.live := hlive ▸ List.mem_cons_self
          refine hbase.add hx ?_ rfl
          show Lent.Covers _ ptr
          rw [hptr h0]
          exact hk'.covers_first hx

/-- **`kmalloc` and `vmalloc`** return, and keep the invariant. -/
theorem KmallocRun.Inv.heapAlloc (hs : t.Inv L) (size : U32) (c : Bool) :
    ∃ r, Tomk.heapAlloc (kernelVmm L) t.heap t.vmm size c = some r ∧ (t.ret size c r).Inv L := by
  obtain ⟨k, rs, B, hv, hk, hl, hkinds⟩ := hs
  have hm : size ≠ 0 → (HeapPtr.mk 0 size c).held.2 ≤ allocSize size := by
    intro h0
    simp only [HeapPtr.held]
    split
    · next hle => exact (allocSize_spec h0 (Nat.le_trans hle (by decide))).2.2.1
    · rw [BitVec.le_def]
      exact Nat.zero_le _
  obtain ⟨⟨ptr, h', v'⟩, hrun, rs', B', hk', hl'⟩ := hk.heapAlloc_live hl
    (fun _ hz => Bool.noConfusion hz) hm c
  refine ⟨_, hrun, ?_⟩
  obtain ⟨k', hv', hinv'⟩ := hk'.window
  simp only at hv'
  subst hv'
  refine ⟨k', rs', B', rfl, hk', ?_, ?_⟩
  · show LiveOk h' rs' B' (List.map HeapPtr.held (if ptr = 0 then t.live else _))
    by_cases h0 : ptr = 0
    · rw [if_pos h0] at hl' ⊢
      exact hl'
    · rw [if_neg h0] at hl' ⊢
      exact hl'
  · rw [hv] at hk hrun
    exact hkinds.alloc hk hinv' hrun

/-- **`kfree` and `vfree`** of any pointer return, and keep the invariant: the
ranges that are left are those of the blocks that are left. -/
theorem KmallocRun.Inv.heapFree (hs : t.Inv L) (ptr : U32) :
    ∃ r, Tomk.heapFree (kernelVmm L) t.heap t.vmm ptr = some r ∧ (t.released ptr r).Inv L := by
  obtain ⟨k, rs, B, hv, hk, hl, hkinds⟩ := hs
  obtain ⟨h', v', rs', B', hrun, hk', hl'⟩ := hk.heapFree_live hl ptr
  refine ⟨_, hrun, ?_⟩
  obtain ⟨k', rfl, hinv'⟩ := hk'.window
  have hlive : LiveOk h' rs' B' ((t.released ptr (h', some k')).live.map HeapPtr.held) := by
    have hmap : (t.live.filter fun a => a.ptr ≠ ptr).map HeapPtr.held
        = (t.live.map HeapPtr.held).filter fun a => a.1 ≠ ptr := by
      rw [List.filter_map]
      rfl
    rw [← hmap] at hl'
    exact hl'
  rw [hv] at hk hrun
  obtain ⟨k0, hk0, hinv⟩ := hk.window
  cases hk0
  obtain ⟨f, hvmm⟩ := heapFree_kinds hrun
  have hsub : k'.live ⊆ k.live := by
    rcases hvmm with heq | ⟨r, n, heq⟩
    · cases heq
      exact List.Subset.refl _
    · exact kernelVmm_free heq.symm
  refine ⟨k', rs', B', rfl, hk', hlive, ?_, ?_⟩
  · exact fun x hx => (f.contiguous x.virt).trans (hkinds.regions x (hsub hx))
  · intro a ha
    obtain ⟨_, _, _, _, _, y, hy, _, _, hya⟩ := hlive.lent hk' ha
    obtain ⟨x, hx, hxa, hc⟩ := hkinds.ptrs a (List.mem_filter.mp ha).1
    -- the range that has the pointer now is the one that had it
    have heq : x = y := hinv.covers_unique hx (hsub hy) hxa hya
    exact ⟨y, hy, hya, heq ▸ hc⟩

/-- **One call** returns, and keeps the invariant. -/
theorem KmallocRun.Inv.call (hs : t.Inv L) (c : KmallocCall) :
    ∃ t', c.run L t = some t' ∧ t'.Inv L := by
  cases c with
  | kmalloc size =>
      obtain ⟨r, hr, hs'⟩ := hs.heapAlloc size true
      exact ⟨_, Option.map_eq_some_iff.mpr ⟨r, hr, rfl⟩, hs'⟩
  | vmalloc size =>
      obtain ⟨r, hr, hs'⟩ := hs.heapAlloc size false
      exact ⟨_, Option.map_eq_some_iff.mpr ⟨r, hr, rfl⟩, hs'⟩
  | kfree ptr =>
      obtain ⟨r, hr, hs'⟩ := hs.heapFree ptr
      exact ⟨_, Option.map_eq_some_iff.mpr ⟨r, hr, rfl⟩, hs'⟩
  | vfree ptr =>
      obtain ⟨r, hr, hs'⟩ := hs.heapFree ptr
      exact ⟨_, Option.map_eq_some_iff.mpr ⟨r, hr, rfl⟩, hs'⟩

theorem KmallocStart.inv (hs : KmallocStart L t) : t.Inv L := by
  obtain ⟨h, k, hh, hv, hk, hl⟩ := hs
  refine ⟨k, [], fun _ => [], hv, ?_, ?_, ?_, ?_⟩
  · rw [hh, hv]
    exact heapInit_ok h (show (kernelVmm L).Ok (some k) from ⟨k, rfl, hk.inv⟩) _
  · rw [hl]
    exact ⟨List.nodup_nil, fun _ ha => absurd ha List.not_mem_nil⟩
  · rw [hk.2]
    exact fun _ hx => absurd hx List.not_mem_nil
  · rw [hl]
    exact fun _ ha => absurd ha List.not_mem_nil

theorem KmallocReach.inv (hs : KmallocReach L t) : t.Inv L := by
  refine Reach.invariant (KmallocRun.Inv L) (fun _ hs => hs.inv) (fun c t t' hs hstep => ?_) hs
  obtain ⟨t'', hr, hs'⟩ := hs.call c
  rw [hstep] at hr
  cases hr
  exact hs'

/-! ## Where a pointer leads -/

/-- The `n` bytes at `p` are mapped to the `n` bytes at `q`. -/
def Mmu.PhysRun (m : Mmu) (p n q : U32) : Prop :=
  ∀ i, i < n.toNat → (walk m.mem m.cr3 (p + BitVec.ofNat 32 i)).isSome = true ∧
    pgVirt2phys m (p + BitVec.ofNat 32 i) = some (q + BitVec.ofNat 32 i)

theorem toNat_physOf (va : U32) (f : Frame) :
    (physOf va (some f)).toNat = f.toNat * 4096 + va.toNat % 4096 := by
  have hlt : va.toNat % 4096 < 2 ^ 12 := Nat.mod_lt _ (by decide)
  rw [physOf, BitVec.toNat_or, toNat_pageOffset, toNat_frameAddr, Nat.or_comm]
  have hor := Nat.shiftLeft_add_eq_or_of_lt hlt f.toNat
  rw [Nat.shiftLeft_eq] at hor
  exact hor.symm

/-- An address of a range is translated as its page is. -/
theorem Mm.LendsAt.walk_page (hx : m.LendsAt x p) (hm : m.Ready L) {va : U32}
    (h1 : x.virt.toNat ≤ va.toNat) (h2 : va.toNat < x.stop) :
    (va.toNat - x.virt.toNat) / 4096 < x.count.toNat ∧
      walk m.mmu.mem m.mmu.cr3 va
        = walk m.mmu.mem m.mmu.cr3 (m.vmm.addr (p + (va.toNat - x.virt.toNat) / 4096)) := by
  obtain ⟨hv, hs⟩ := hx.toNat_virt hm
  have hle := hx.le_total
  have hbase := hm.vmm.toWindow.base_aligned
  rw [Nat.add_mul] at hs
  have hlt : (va.toNat - x.virt.toNat) / 4096 < x.count.toNat := by omega
  have haddr := hm.vmm.toWindow.toNat_addr
    (show p + (va.toNat - x.virt.toNat) / 4096 < m.vmm.totalPages.toNat by omega)
  rw [Nat.add_mul] at haddr
  obtain ⟨hpd, hpt⟩ := page_eq_iff.mpr (show va.toNat / 4096
    = (m.vmm.addr (p + (va.toNat - x.virt.toNat) / 4096)).toNat / 4096 by omega)
  refine ⟨hlt, ?_⟩
  rw [walk, walk, hpd, hpt]

/-- **A range of the contiguous kind** is adjacent in physical memory. -/
theorem Mm.LendsAt.phys (hx : m.LendsAt x p) (hm : m.Ready L) (hc : x.contiguous = true) :
    ∃ q, q * 4096 + x.count.toNat * 4096 ≤ 2 ^ 32 ∧
      ∀ va : U32, x.virt.toNat ≤ va.toNat → va.toNat < x.stop →
        (walk m.mmu.mem m.mmu.cr3 va).isSome = true ∧
          ∃ w, pgVirt2phys m.mmu va = some w ∧ w.toNat = q * 4096 + (va.toNat - x.virt.toNat) := by
  obtain ⟨q, hq, hrun⟩ := hx.run hc
  have htl := hm.pmm.total_lt
  refine ⟨q, by omega, fun va h1 h2 => ?_⟩
  obtain ⟨hlt, hwalk⟩ := hx.walk_page hm h1 h2
  rw [hrun _ hlt] at hwalk
  refine ⟨by rw [hwalk, Option.isSome_some], _, pgVirt2phys_eq hm.wired.self va, ?_⟩
  obtain ⟨hv, _⟩ := hx.toNat_virt hm
  have hbase := hm.vmm.toWindow.base_aligned
  rw [hwalk, toNat_physOf, BitVec.toNat_ofNat]
  omega

/-- What lies in a range of the contiguous kind. -/
theorem Mm.LendsAt.physRun (hx : m.LendsAt x p) (hm : m.Ready L) (hc : x.contiguous = true)
    {ptr size : U32} (h1 : x.virt.toNat ≤ ptr.toNat) (h2 : ptr.toNat + size.toNat ≤ x.stop)
    (h3 : x.stop ≤ 2 ^ 32) : ∃ q, m.mmu.PhysRun ptr size q := by
  obtain ⟨q, hq, hphys⟩ := hx.phys hm hc
  refine ⟨BitVec.ofNat 32 (q * 4096 + (ptr.toNat - x.virt.toNat)), fun i hi => ?_⟩
  have hva : (ptr + BitVec.ofNat 32 i).toNat = ptr.toNat + i := by
    rw [BitVec.toNat_add, BitVec.toNat_ofNat]
    omega
  obtain ⟨hsome, w, hw, hwq⟩ := hphys (ptr + BitVec.ofNat 32 i) (by omega) (by omega)
  refine ⟨hsome, hw.trans (congrArg some (BitVec.eq_of_toNat_eq ?_))⟩
  rw [hwq, hva, BitVec.toNat_add, BitVec.toNat_ofNat, BitVec.toNat_ofNat]
  omega

/-- **Physical contiguity of `kmalloc`.**  In every state that a run reaches,
the bytes of each live pointer of `kmalloc` are adjacent in physical memory,
whatever its block was before; and every call there returns. -/
theorem kmallocRun_contiguous (hs : KmallocReach L t) :
    ∃ k, t.vmm = some k ∧
      (∀ a ∈ t.live, a.contiguous = true → a.size.toNat ≤ 0xFFFFE000 →
        ∃ q, k.mm.mmu.PhysRun a.ptr a.size q) ∧
      ∀ c : KmallocCall, ∃ t', c.run L t = some t' := by
  obtain ⟨k, rs, B, hv, hk, hl, hkinds⟩ := hs.inv
  refine ⟨k, hv, fun a ha hc hsize => ?_, fun c => ?_⟩
  · rw [hv] at hk
    obtain ⟨k0, hk0, hinv⟩ := hk.window
    cases hk0
    obtain ⟨r, hr, b, hb, hh, x, hx, hxr, hstop, hcov⟩ := hl.lent hk ha
    obtain ⟨y, hy, hycov, hyc⟩ := hkinds.ptrs a ha
    cases hinv.covers_unique hx hy hcov hycov
    obtain ⟨p, hp⟩ := hinv.lends x hx
    obtain ⟨_, hend⟩ := hk.payload hr hb hh
    have hblock : _ ≤ t.heap.stop r := (hk.region r (Or.inl hr)).stop_le hb
    have hheld : a.held.2 = a.size := if_pos hsize
    rw [hheld, Tile.stop] at hend
    rw [← hstop] at hblock
    exact hp.physRun hinv.space.ready (hyc.trans hc) (Nat.le_of_lt hcov.1)
      (Nat.le_trans hend hblock) (hinv.range hx).2.2.2
  · obtain ⟨t', hr, _⟩ := hs.inv.call c
    exact ⟨t', hr⟩

/-! ## A machine with a region's worth of memory -/

/-- Sixteen pages of memory, beyond the bootstrap window. -/
def roomyMap : KPhysMap := ⟨[⟨0x1000000, 0x10000, 3⟩], by decide⟩

theorem roomyMap_boots : ∃ s, SmallBoot 16 s := by
  have hfree : ∀ i, i < 16 →
      test (pmmFill (pmmSizes zeroPmm roomyMap) roomyMap).bitmap (0x1000 + i) = false := by
    decide +kernel
  exact smallImage_boots roomyMap (by decide) (by decide) (by decide +kernel) hfree

/-- A range of the contiguous kind is to be had. -/
theorem SmallBoot.kernelVmm_alloc {sp : Space} {n : Nat} (hs : SmallBoot n sp) {count : U32}
    (h0 : count ≠ 0) (hle : count.toNat ≤ n) :
    ((kernelVmm smallLayout).alloc (some ⟨sp.mm, []⟩) true count).1 ≠ 0 := by
  have hphys : (pmmAlloc sp.mm.pmm count).1 ≠ 0 := by
    have htotal := hs.frames_le
    rw [pmmAlloc_ne_zero_iff hs.consistent.pmm h0]
    exact ⟨0x1000, by omega, fun i hi => hs.frames i (by omega)⟩
  have hcall : ∃ r m', vmmAllocContiguous smallLayout sp.mm count = some (r, m') ∧ r ≠ 0 := by
    rcases vmmAllocContiguous_cases hs.consistent.ready count with ⟨hno, _⟩ | ⟨_, p, lr, _, hp, hc⟩
    · exact absurd (hs.reservable h0 hle) hno
    · rcases hc with ⟨_, _, _, hr⟩ | ⟨hz, _⟩
      · exact ⟨_, _, hr, hp⟩
      · exact absurd hz hphys
  obtain ⟨r, m', hr, hne⟩ := hcall
  simp only [kernelVmm, kvmmAlloc, Option.bind_some, if_true, hr, Option.map_some]
  exact hne

/-- Two pages and a half of `kmalloc` on that machine. -/
theorem kmallocRun_contiguous_pages : ∃ t k a q, KmallocReach smallLayout t ∧ t.vmm = some k ∧
    a ∈ t.live ∧ a.contiguous = true ∧ a.size = 0x2800 ∧ k.mm.mmu.PhysRun a.ptr a.size q := by
  obtain ⟨⟨m, dirs⟩, hs⟩ := roomyMap_boots
  have hdirs : dirs = [smallLayout.pgPd] := hs.start.dirs_eq
  subst hdirs
  let t : KmallocRun := ⟨emptyHeap, some ⟨m, []⟩, []⟩
  have hstart : KmallocStart smallLayout t := ⟨_, _, rfl, rfl, ⟨hs.start, rfl⟩, rfl⟩
  have hv : (kernelVmm smallLayout).Ok t.vmm := ⟨_, rfl, KvmmStart.inv ⟨hs.start, rfl⟩⟩
  have hk : HeapOk true (kernelVmm smallLayout) emptyHeap t.vmm [] NoPending fun _ => [] :=
    heapInit_ok _ hv _
  obtain ⟨⟨ptr, h', v'⟩, hrun, hptr⟩ := hk.heapAlloc_ne (show (0x2800 : U32) ≠ 0 by decide)
    (by decide) (hs.kernelVmm_alloc (by decide) (by decide))
  have hreach : KmallocReach smallLayout (t.ret 0x2800 true (ptr, h', v')) :=
    Reach.next (a := KmallocCall.kmalloc 0x2800) (.start hstart)
      (Option.map_eq_some_iff.mpr ⟨_, hrun, rfl⟩)
  have hmem : ⟨ptr, 0x2800, true⟩ ∈ (t.ret 0x2800 true (ptr, h', v')).live := by
    rw [KmallocRun.ret, if_neg hptr]
    exact List.mem_cons_self
  obtain ⟨k, hv, hphys, _⟩ := kmallocRun_contiguous hreach
  obtain ⟨q, hq⟩ := hphys _ hmem rfl (show (0x2800 : U32).toNat ≤ 0xFFFFE000 by decide)
  exact ⟨_, k, _, q, hreach, hv, hmem, rfl, rfl, hq⟩

end Tomk
