/-
# The frames of the kernel's allocations

A run of the kernel's window: any calls of `vmm_alloc` and
`vmm_alloc_contiguous`, and of `vmm_free` for ranges that are live.  Between
two calls others may take frames, so that the physical allocator can run out
at any point of a loop.

`Mm.OwnsFrames` is what is asked of every state: each page of a live range is
mapped, to a frame that the physical allocator has as used, and no two pages
have one frame.  It speaks of both bitmaps and of the tables.  What ties them
together is that a call changes them for the pages of one run only, a run that
was free (`KvmmRun.Inv.keep`); what a call adds is one range with its frames
(`KvmmRun.Inv.lend`).
-/
import Tomk.Mm.KernelRun
import Tomk.Mm.VmmAccount

namespace Tomk

open WordBits Runs

/-- A range that was returned, and by which of the two functions. -/
structure Lent where
  virt : U32
  count : U32
  contiguous : Bool
deriving DecidableEq

/-- The memory managers, and the ranges that were returned and not released. -/
structure KvmmRun where
  mm : Mm
  live : List Lent

inductive KvmmCall where
  | alloc (count : U32)
  | allocContiguous (count : U32)
  | free (x : Lent)
  /-- What other callers take. -/
  | pmmAlloc (count : U32)

/-- Releases name live ranges. -/
def KvmmCall.Legal (s : KvmmRun) : KvmmCall → Prop
  | .free x => x ∈ s.live
  | _ => True

/-- A call has returned. -/
def KvmmRun.ret (s : KvmmRun) (count : U32) (contiguous : Bool) (r : U32 × Mm) : KvmmRun :=
  ⟨r.2, if r.1 = 0 then s.live else ⟨r.1, count, contiguous⟩ :: s.live⟩

def KvmmCall.run (L : Layout) (s : KvmmRun) : KvmmCall → Option KvmmRun
  | .alloc count => (vmmAlloc L s.mm count).map (s.ret count false)
  | .allocContiguous count => (vmmAllocContiguous L s.mm count).map (s.ret count true)
  | .free x => (vmmFree s.mm x.virt x.count).map fun mm => ⟨mm, s.live.erase x⟩
  | .pmmAlloc count =>
      some { s with mm := { s.mm with pmm := (Tomk.pmmAlloc s.mm.pmm count).2 } }

def KvmmStep (L : Layout) (c : KvmmCall) (s s' : KvmmRun) : Prop :=
  c.Legal s ∧ c.run L s = some s'

/-- `mminit` has returned, and nothing is allocated. -/
def KvmmStart (L : Layout) (s : KvmmRun) : Prop :=
  KernelStart L ⟨s.mm, [L.pgPd]⟩ ∧ s.live = []

/-- The pages of a range. -/
def Lent.pages (x : Lent) : List U32 := (List.range x.count.toNat).map (pageAt x.virt)

def livePages (live : List Lent) : List U32 := live.flatMap Lent.pages

/-- Each of the pages is mapped to a frame in use, and none to that of
another. -/
structure Mm.OwnsFrames (m : Mm) (pages : List U32) : Prop where
  mapped : ∀ va ∈ pages, ∃ f, walk m.mmu.mem m.mmu.cr3 va = some f ∧
    f.toNat < m.pmm.totalPages.toNat ∧ test m.pmm.bitmap f.toNat = true
  apart : (pages.map (walk m.mmu.mem m.mmu.cr3)).Nodup

/-! ## The invariant -/

/-- A live range is a range of reserved pages of the window; one that was asked
for as such has adjacent frames. -/
structure Mm.LendsAt (m : Mm) (x : Lent) (p : Nat) : Prop where
  virt : x.virt = m.vmm.addr p
  virt_ne : m.vmm.addr p ≠ 0
  count_ne : x.count ≠ 0
  le_total : p + x.count.toNat ≤ m.vmm.totalPages.toNat
  reserved : ∀ i, i < x.count.toNat → test m.vmm.bitmap (p + i) = true
  run : x.contiguous = true → ∃ q, q + x.count.toNat ≤ m.pmm.totalPages.toNat ∧
    ∀ i, i < x.count.toNat →
      walk m.mmu.mem m.mmu.cr3 (m.vmm.addr (p + i)) = some (BitVec.ofNat 20 (q + i))

structure KvmmRun.Inv (L : Layout) (s : KvmmRun) : Prop where
  space : Space.Inv L ⟨s.mm, [L.pgPd]⟩
  lends : ∀ x ∈ s.live, ∃ p, s.mm.LendsAt x p
  owns : s.mm.OwnsFrames (livePages s.live)

variable {L : Layout} {s s' : KvmmRun} {m m' : Mm} {x : Lent} {p n : Nat}

theorem mem_lentPages {va : U32} :
    va ∈ x.pages ↔ ∃ i, i < x.count.toNat ∧ pageAt x.virt i = va := by
  simp only [Lent.pages, List.mem_map, List.mem_range]

theorem Mm.LendsAt.mem_pages (h : m.LendsAt x p) {i : Nat} (hi : i < x.count.toNat) :
    m.vmm.addr (p + i) ∈ x.pages := by
  rw [mem_lentPages, h.virt]
  exact ⟨i, hi, m.vmm.pageAt_addr p i⟩

theorem mem_livePages {va : U32} {live : List Lent} (hx : x ∈ live) (hva : va ∈ x.pages) :
    va ∈ livePages live := List.mem_flatMap.mpr ⟨x, hx, hva⟩

/-! ## What a call leaves alone -/

/-- A page that is mapped stays so, where nothing is touched. -/
theorem Touched.walk_eq {lo : Nat} {mem mem' : PhysMem} {dir f : Frame} {P : Nat → Prop}
    (hw : Wired L lo mem dir) (ht : Touched L dir P mem mem') {va : U32}
    (hr : InSlots lo (pageNo va)) (hno : ¬ P (pageNo va)) (hva : walk mem dir va = some f) :
    walk mem' dir va = some f := by
  rw [walk_wired hw hr] at hva
  rw [walk_wired (hw.touched ht) hr, ht.pte _ (pageNo_lt va) hno]
  by_cases hp : Present (mem dir (pdIndex va))
  · rw [ht.pde _ hp]
    exact hva
  · rw [if_neg fun hc => hp hc.1] at hva
    exact (nomatch hva)

/-- What a call that changes the run of pages `p, …` leaves of the two managers. -/
structure Mm.Around (L : Layout) (m m' : Mm) (p n : Nat) : Prop where
  window : m.vmm.SameWindow m'.vmm
  bits : ∀ q, ¬ InRun p n q → test m.vmm.bitmap q = true → test m'.vmm.bitmap q = true
  total : m'.pmm.totalPages = m.pmm.totalPages
  used : ∀ q, test m.pmm.bitmap q = true → test m'.pmm.bitmap q = true
  cr3 : m'.mmu.cr3 = m.mmu.cr3
  touched : Touched L m.mmu.cr3 (InRun (m.vmm.first p) n) m.mmu.mem m'.mmu.mem

theorem Vmm.SameWindow.addr {v w : Vmm} (h : v.SameWindow w) (q : Nat) : w.addr q = v.addr q := by
  rw [Vmm.addr, h.base, Vmm.addr]

/-- A page that is not of the run is mapped as before. -/
theorem Mm.Around.walk (ha : m.Around L m' p n) (hm : m.Ready L) {q : Nat} {f : Frame}
    (hq : q < m.vmm.totalPages.toNat) (hno : ¬ InRun p n q)
    (hf : walk m.mmu.mem m.mmu.cr3 (m.vmm.addr q) = some f) :
    Tomk.walk m'.mmu.mem m'.mmu.cr3 (m.vmm.addr q) = some f := by
  have hv := hm.vmm.toWindow
  rw [ha.cr3]
  refine ha.touched.walk_eq hm.wired (hv.inSlots hq) (fun hin => hno ?_) hf
  rw [hv.pageNo_addr hq] at hin
  have h1 := hin.1
  have h2 := hin.2
  rw [Vmm.first] at h1 h2
  exact ⟨by omega, by omega⟩

/-- A live range whose pages are not of the run stays as it is. -/
theorem Mm.LendsAt.keep (h : m.LendsAt x p) {r : Nat} (ha : m.Around L m' r n) (hm : m.Ready L)
    (hno : ∀ i, i < x.count.toNat → ¬ InRun r n (p + i)) : m'.LendsAt x p where
  virt := h.virt.trans (ha.window.addr p).symm
  virt_ne := by
    rw [ha.window.addr]
    exact h.virt_ne
  count_ne := h.count_ne
  le_total := by
    rw [ha.window.total]
    exact h.le_total
  reserved := fun i hi => ha.bits _ (hno i hi) (h.reserved i hi)
  run := fun hc => by
    obtain ⟨q, hq, hrun⟩ := h.run hc
    refine ⟨q, by rw [ha.total]; exact hq, fun i hi => ?_⟩
    have hle := h.le_total
    rw [ha.window.addr]
    exact ha.walk hm (by omega) (hno i hi) (hrun i hi)

/-- **The frame of a call**: live ranges that do not meet the run keep their
pages, their frames and what ties them. -/
theorem KvmmRun.Inv.keep (h : s.Inv L) (ha : s.mm.Around L m' p n) {live : List Lent}
    (hsub : live.Sublist s.live)
    (hno : ∀ x ∈ live, ∀ q, s.mm.LendsAt x q → ∀ i, i < x.count.toNat → ¬ InRun p n (q + i)) :
    (∀ x ∈ live, ∃ p, m'.LendsAt x p) ∧ m'.OwnsFrames (livePages live) ∧
      ∀ va ∈ livePages live, walk m'.mmu.mem m'.mmu.cr3 va = walk s.mm.mmu.mem s.mm.mmu.cr3 va := by
  have hm : s.mm.Ready L := h.space.ready
  have hpages := hsub.flatMap Lent.pages
  have hwalk : ∀ va ∈ livePages live,
      walk m'.mmu.mem m'.mmu.cr3 va = walk s.mm.mmu.mem s.mm.mmu.cr3 va := by
    intro va hva
    obtain ⟨f, hf, _⟩ := h.owns.mapped va (hpages.subset hva)
    obtain ⟨x, hx, hxva⟩ := List.mem_flatMap.mp hva
    obtain ⟨q, hq⟩ := h.lends x (hsub.subset hx)
    obtain ⟨i, hi, rfl⟩ := mem_lentPages.mp hxva
    have hle := hq.le_total
    rw [hq.virt, Vmm.pageAt_addr] at hf ⊢
    rw [hf]
    exact ha.walk hm (by omega) (hno x hx q hq i hi) hf
  refine ⟨fun x hx => ?_, ⟨fun va hva => ?_, ?_⟩, hwalk⟩
  · obtain ⟨q, hq⟩ := h.lends x (hsub.subset hx)
    exact ⟨q, hq.keep ha hm (hno x hx q hq)⟩
  · obtain ⟨f, hf, hlt, hused⟩ := h.owns.mapped va (hpages.subset hva)
    exact ⟨f, (hwalk va hva).trans hf, by rw [ha.total]; exact hlt, ha.used _ hused⟩
  · rw [List.map_congr_left hwalk]
    exact (hpages.map _).nodup h.owns.apart

/-- A run that was free meets no live range. -/
theorem Mm.LendsAt.not_inRun (h : m.LendsAt x p) {r : Nat} (hf : FreeRun m.vmm.bitmap r n) :
    ∀ i, i < x.count.toNat → ¬ InRun r n (p + i) := by
  rintro i hi ⟨h1, h2⟩
  have hset := h.reserved i hi
  have hclr := hf (p + i - r) (by omega)
  rw [show r + (p + i - r) = p + i by omega] at hclr
  rw [hset] at hclr
  exact Bool.noConfusion hclr

/-! ## What a call adds -/

/-- `m'` has `m`'s pages from `p` on mapped to the frames `F`, which were free. -/
structure Mm.Added (m m' : Mm) (p : Nat) (F : List Nat) : Prop where
  free : ∀ f ∈ F, test m.pmm.bitmap f = false
  used : ∀ f ∈ F, f < m'.pmm.totalPages.toNat ∧ test m'.pmm.bitmap f = true
  nodup : F.Nodup
  maps : ∀ j f, F[j]? = some f →
    walk m'.mmu.mem m'.mmu.cr3 (m'.vmm.addr (p + j)) = some (BitVec.ofNat 20 f)

/-- The walk of a page whose table entry was written. -/
theorem Mm.Ready.walk_written (hm : m.Ready L) (hp : p < m.vmm.totalPages.toNat) {phys : U32}
    (hpde : Present (m.mmu.mem m.mmu.cr3 (slotOf (m.vmm.first p))))
    (hpte : L.pte m.mmu.mem (m.vmm.first p) = newPte phys pteRw) :
    walk m.mmu.mem m.mmu.cr3 (m.vmm.addr p) = some (frameOf phys) := by
  have hv := hm.vmm.toWindow
  have hpage : pageNo (m.vmm.addr p) = m.vmm.first p := hv.pageNo_addr hp
  rw [walk_wired hm.wired (hv.inSlots hp), ← slotOf_pageNo, hpage, hpte,
    if_pos ⟨hpde, present_newPte _ _⟩, frameOf_newPte]

theorem frameOf_pageAt (q j : Nat) :
    frameOf (pageAt (toAddr (BitVec.ofNat 32 q)) j) = BitVec.ofNat 20 (q + j) := by
  apply BitVec.eq_of_toNat_eq
  rw [toNat_frameOf, pageAt, BitVec.toNat_add, toNat_toAddr, toNat_toAddr]
  simp only [BitVec.toNat_ofNat]
  omega

theorem frameOf_toAddr (f : Nat) : frameOf (toAddr (BitVec.ofNat 32 f)) = BitVec.ofNat 20 f := by
  have h := frameOf_pageAt f 0
  rwa [pageAt_zero] at h

/-- The frames of the new pages. -/
theorem Mm.Added.walk_pages {F : List Nat} (h : m.Added m' p F) (hx : m'.LendsAt x p)
    (hlen : F.length = x.count.toNat) :
    x.pages.map (walk m'.mmu.mem m'.mmu.cr3) = F.map fun f => some (BitVec.ofNat 20 f) := by
  refine List.ext_getElem? fun j => ?_
  rw [Lent.pages, List.map_map, List.getElem?_map, List.getElem?_map]
  by_cases hj : j < x.count.toNat
  · rw [List.getElem?_range hj, List.getElem?_eq_getElem (by omega)]
    have hmap := h.maps j _ (List.getElem?_eq_getElem (l := F) (by omega))
    simp only [Option.map_some, Function.comp_apply, hx.virt, Vmm.pageAt_addr, hmap]
  · rw [List.getElem?_eq_none (by rw [List.length_range]; omega),
      List.getElem?_eq_none (by omega)]
    rfl

/-- **A range is lent**: its pages and its frames were free. -/
theorem KvmmRun.Inv.lend (h : s.Inv L) (hs : Space.Inv L ⟨m', [L.pgPd]⟩)
    (ha : s.mm.Around L m' p n) (hf : FreeRun s.mm.vmm.bitmap p n) (hx : m'.LendsAt x p)
    {F : List Nat} (hadd : s.mm.Added m' p F) (hlen : F.length = x.count.toNat) :
    KvmmRun.Inv L ⟨m', x :: s.live⟩ := by
  obtain ⟨hl, ho, hwalk⟩ := h.keep ha (List.Sublist.refl _) fun x _ q hq => hq.not_inRun hf
  have htl := hs.pmm.total_lt
  have hsmall : ∀ f ∈ F, f < 2 ^ 20 := fun f hF => Nat.lt_trans (hadd.used f hF).1 htl
  have hnew := hadd.walk_pages hx hlen
  have hframe : ∀ f ∈ F, (BitVec.ofNat 20 f).toNat = f := fun f hF => by
    have := hsmall f hF
    rw [BitVec.toNat_ofNat]
    omega
  refine ⟨hs, fun y hy => ?_, ⟨fun va hva => ?_, ?_⟩⟩
  · rcases List.mem_cons.mp hy with rfl | hy
    · exact ⟨p, hx⟩
    · exact hl y hy
  · rcases List.mem_append.mp hva with hva | hva
    · have hmem := List.mem_map_of_mem (f := walk m'.mmu.mem m'.mmu.cr3) hva
      rw [hnew] at hmem
      obtain ⟨f, hF, hwf⟩ := List.mem_map.mp hmem
      refine ⟨_, hwf.symm, ?_⟩
      rw [hframe f hF]
      exact hadd.used f hF
    · exact ho.mapped va hva
  · show ((x.pages ++ livePages s.live).map _).Nodup
    rw [List.map_append, hnew, List.nodup_append]
    refine ⟨?_, ho.apart, fun a hmem b hold hab => ?_⟩
    · refine List.Nodup.map_on (fun f hF g hG hfg => ?_) hadd.nodup
      have := congrArg BitVec.toNat (Option.some.inj hfg)
      rwa [hframe f hF, hframe g hG] at this
    · -- the frame of a live page was in use before
      obtain ⟨f, hF, rfl⟩ := List.mem_map.mp hmem
      obtain ⟨va, hva, hwf⟩ := List.mem_map.mp hold
      obtain ⟨g, hg, _, hused⟩ := h.owns.mapped va hva
      rw [hwalk va hva, hg, ← hab] at hwf
      rw [Option.some.inj hwf, hframe f hF, hadd.free f hF] at hused
      exact Bool.noConfusion hused

/-! ## What the two functions leave -/

/-- The invariant of the memory managers after a call that has returned. -/
theorem Space.Inv.called {dirs : List Frame} {c : KernelCall}
    (hk : Space.Keeps L ⟨m, dirs⟩ c) (hr : c.run L ⟨m, dirs⟩ = some ⟨m', dirs⟩) :
    Space.Inv L ⟨m', dirs⟩ := by
  obtain ⟨s', hr', hs', _⟩ := hk
  rw [hr] at hr'
  cases hr'
  exact hs'

/-- A call that returned no range. -/
theorem KvmmRun.Inv.failed (h : s.Inv L) (hs : Space.Inv L ⟨m', [L.pgPd]⟩)
    (ha : s.mm.Around L m' p n) (hf : FreeRun s.mm.vmm.bitmap p n) :
    KvmmRun.Inv L ⟨m', s.live⟩ := by
  obtain ⟨hl, ho, _⟩ := h.keep ha (List.Sublist.refl _) fun x _ q hq => hq.not_inRun hf
  exact ⟨hs, hl, ho⟩

theorem freeRun_zero (b : Words 32) (p : Nat) : FreeRun b p 0 :=
  fun _ hi => absurd hi (Nat.not_lt_zero _)

/-- Only the statistics changed, and the physical allocator. -/
theorem Mm.around_pmm (m : Mm) {v : Vmm} {q : Pmm} (hv : m.vmm.SameWindow v)
    (hbits : v.bitmap = m.vmm.bitmap) (ht : q.totalPages = m.pmm.totalPages)
    (hq : ∀ f, test m.pmm.bitmap f = true → test q.bitmap f = true) :
    m.Around L ⟨v, q, m.mmu⟩ 0 0 where
  window := hv
  bits := fun _ _ hset => by
    rw [hbits]
    exact hset
  total := ht
  used := hq
  cr3 := rfl
  touched := Touched.refl _ _ _ _

/-- The bits of the window after a reservation. -/
theorem Vmm.reserved_bits {v : Vmm} {p q : Nat} {n lr : U32} (hset : test v.bitmap q = true) :
    test (v.reserved p n lr).bitmap q = true := by
  show test (setRun v.bitmap p n.toNat) q = true
  rw [test_setRun, hset, Bool.or_true]

theorem pmmAlloc_used (h : m.pmm.Shape) (n : U32) :
    (pmmAlloc m.pmm n).2.totalPages = m.pmm.totalPages ∧
      ∀ f, test m.pmm.bitmap f = true → test (pmmAlloc m.pmm n).2.bitmap f = true := by
  rcases pmmAlloc_cases h n with ⟨hint, lr, hr⟩ | ⟨q, hint, lr, _, _, _, _, hr⟩
  · rw [hr]
    exact ⟨rfl, fun _ hf => hf⟩
  · rw [hr]
    refine ⟨rfl, fun f hf => ?_⟩
    show test (setRun m.pmm.bitmap q n.toNat) f = true
    rw [test_setRun, hf, Bool.or_true]

/-- What the loop of `vmm_alloc` leaves when it ends. -/
theorem Backed.added {F : List Nat} {u : Mm} {n lr : U32} (hu : u.Ready L)
    (hf : FirstRun m.vmm.bitmap m.vmm.totalPages.toNat n.toNat p) (hlen : F.length = n.toNat)
    (h : Backed L (m.withReserved p n lr) p F u) :
    m.Around L u p n.toNat ∧ m.Added u p F := by
  have hv : u.vmm = m.vmm.reserved p n lr := h.vmm
  have htouched := h.touched
  rw [hlen] at htouched
  refine ⟨⟨?_, fun q _ hq => ?_, h.took.total, fun q hq => ?_, h.cr3, htouched⟩,
    ⟨fun f hF => (h.took.clear f hF).1.clear, fun f hF => ⟨?_, ?_⟩, h.took.nodup, fun j f hj => ?_⟩⟩
  · rw [hv]
    exact ⟨rfl, rfl⟩
  · rw [hv]
    exact Vmm.reserved_bits hq
  · have hb := h.took.bits q
    rwa [show test (m.withReserved p n lr).pmm.bitmap q = true from hq, Bool.or_true] at hb
  · rw [h.took.total]
    exact (h.took.clear f hF).1.lt_total
  · rw [h.took.bits f, decide_eq_true hF, Bool.true_or]
  · have hj' := (List.getElem?_eq_some_iff.mp hj).1
    have hle := hf.le_total
    obtain ⟨hpde, hpte⟩ := h.mapped j f hj
    have hfirst : u.vmm.first (p + j) = (m.withReserved p n lr).vmm.first p + j := by
      rw [hv]
      exact (Nat.add_assoc _ _ _).symm
    rw [← frameOf_toAddr]
    refine hu.walk_written ?_ ?_ ?_
    · rw [hv]
      show p + j < m.vmm.totalPages.toNat
      omega
    · rw [h.cr3, hfirst]
      exact hpde
    · rw [hfirst]
      exact hpte

/-- What a rollback leaves. -/
theorem Unwinding.around {F : List Nat} {u : Mm} {n lr : U32} (hlt : F.length ≤ n.toNat)
    (h : Unwinding L (m.withReserved p n lr) p F.length F.length [] u) :
    m.Around L u p n.toNat := by
  refine ⟨?_, fun q hno hq => ?_, h.took.total, fun q hq => ?_, h.cr3,
    h.touched.mono fun q hq => ⟨hq.1, Nat.lt_of_lt_of_le hq.2 (Nat.add_le_add_left hlt _)⟩⟩
  · rw [h.vmm]
    exact ⟨rfl, rfl⟩
  · rw [h.vmm]
    show test (clearRun (setRun m.vmm.bitmap p n.toNat) p F.length) q = true
    rw [InRun] at hno
    rw [test_clearRun, test_setRun, hq, Bool.or_true, Bool.and_true, Bool.not_eq_true',
      decide_eq_false_iff_not]
    omega
  · have hb := h.took.bits q
    rwa [show test (m.withReserved p n lr).pmm.bitmap q = true from hq, Bool.or_true] at hb

/-- What `vmm_alloc_contiguous` leaves when it returns a range: the frames are
adjacent. -/
theorem RunMapped.added {mem' : PhysMem} {n lr : U32} {u : Mm} (hm : m.Ready L) (hu : u.Ready L)
    (hf : FirstRun m.vmm.bitmap m.vmm.totalPages.toNat n.toNat p)
    (hphys : (pmmAlloc m.pmm n).1 ≠ 0) (h : RunMapped L m p n (pmmAlloc m.pmm n).1 mem')
    (heq : u = ⟨m.vmm.reserved p n lr, (pmmAlloc m.pmm n).2, { m.mmu with mem := mem' }⟩) :
    m.Around L u p n.toNat ∧ ∃ q, q + n.toNat ≤ u.pmm.totalPages.toNat ∧
      m.Added u p (List.range' q n.toNat) := by
  have hused := pmmAlloc_used hm.pmm n
  obtain ⟨ht, hmap⟩ := h
  rcases pmmAlloc_cases hm.pmm n with ⟨_, _, hr⟩ | ⟨q, hint, lr', _, _, hq, hfree, hr⟩
  · rw [hr] at hphys
    exact absurd rfl hphys
  rw [hr] at hused hmap heq
  subst heq
  refine ⟨⟨⟨rfl, rfl⟩, fun r _ hset => Vmm.reserved_bits hset, hused.1, hused.2, rfl, ht⟩, q, hq,
    fun f hF => ?_, fun f hF => ⟨?_, ?_⟩, List.nodup_range', fun j f hj => ?_⟩
  · obtain ⟨h1, h2⟩ := List.mem_range'_1.mp hF
    have hclr := hfree (f - q) (by omega)
    rwa [show q + (f - q) = f by omega] at hclr
  · have h1 := List.mem_range'_1.mp hF
    show f < m.pmm.totalPages.toNat
    omega
  · have h1 := List.mem_range'_1.mp hF
    show test (setRun m.pmm.bitmap q n.toNat) f = true
    rw [test_setRun, decide_eq_true h1, Bool.true_or]
  · have hj' : j < n.toNat := by
      have := (List.getElem?_eq_some_iff.mp hj).1
      rwa [List.length_range'] at this
    rw [List.getElem?_range' hj', Nat.one_mul] at hj
    cases hj
    obtain ⟨hpde, hpte⟩ := hmap j hj'
    have hle := hf.le_total
    have hfirst : (m.vmm.reserved p n lr).first (p + j) = m.vmm.first p + j :=
      (Nat.add_assoc _ _ _).symm
    rw [← frameOf_pageAt]
    refine hu.walk_written ?_ ?_ ?_
    · show p + j < m.vmm.totalPages.toNat
      omega
    · rw [hfirst]
      exact hpde
    · rw [hfirst]
      exact hpte

/-- The range that a call returned, from its page and its frames. -/
theorem Mm.Added.lendsAt {F : List Nat} {n : U32} {c : Bool} (h : m.Added m' p F) (hn : n ≠ 0)
    (hf : FirstRun m.vmm.bitmap m.vmm.totalPages.toNat n.toNat p) (h0 : m.vmm.addr p ≠ 0)
    {lr : U32} (hv : m'.vmm = m.vmm.reserved p n lr)
    (hc : c = true → ∃ q, q + n.toNat ≤ m'.pmm.totalPages.toNat ∧ F = List.range' q n.toNat) :
    m'.LendsAt ⟨m.vmm.addr p, n, c⟩ p where
  virt := by
    rw [hv]
    rfl
  virt_ne := by
    rw [hv]
    exact h0
  count_ne := hn
  le_total := by
    rw [hv]
    exact hf.le_total
  reserved := fun i hi => by
    rw [hv]
    show test (setRun m.vmm.bitmap p n.toNat) (p + i) = true
    have hi' : i < n.toNat := hi
    rw [test_setRun, decide_eq_true (by omega), Bool.true_or]
  run := fun hct => by
    obtain ⟨q, hq, rfl⟩ := hc hct
    refine ⟨q, hq, fun i hi => h.maps i _ ?_⟩
    rw [List.getElem?_range' hi, Nat.one_mul]

/-! ## The calls -/

/-- What a call of either function does: it changes a run of pages that was
free, and if it returns a range, the run is that range. -/
def Mm.Allocates (L : Layout) (m : Mm) (n : U32) (c : Bool) (r : U32) (m' : Mm) : Prop :=
  ∃ p k, FreeRun m.vmm.bitmap p k ∧ m.Around L m' p k ∧
    (r ≠ 0 → k = n.toNat ∧ m'.LendsAt ⟨r, n, c⟩ p ∧
      ∃ F, m.Added m' p F ∧ F.length = n.toNat)

theorem Mm.Around.allocates_none {k : Nat} {c : Bool} {count : U32} (ha : m.Around L m' p k)
    (hf : FreeRun m.vmm.bitmap p k) : m.Allocates L count c 0 m' :=
  ⟨p, k, hf, ha, fun h0 => absurd rfl h0⟩

/-- `vmm_alloc` returns. -/
theorem Space.Inv.vmmAlloc {dirs : List Frame} (h : Space.Inv L ⟨m, dirs⟩) (n : U32) :
    ∃ r m', Tomk.vmmAlloc L m n = some (r, m') ∧ Space.Inv L ⟨m', dirs⟩ ∧
      m.Allocates L n false r m' := by
  have hm : m.Ready L := h.ready
  have hspace : ∀ {r : U32} {m' : Mm}, Tomk.vmmAlloc L m n = some (r, m') →
      Space.Inv L ⟨m', dirs⟩ := fun hr => Space.Inv.called (h.keeps_alloc n) (map_run hr _)
  rcases vmmAlloc_cases hm n with ⟨_, lr, hr⟩ | ⟨hres, p, lr, F, u, hf, h0, hc⟩
  · have ha : m.Around L { m with vmm := { m.vmm with largestRun := lr } } 0 0 :=
      m.around_pmm ⟨rfl, rfl⟩ rfl rfl fun _ => id
    exact ⟨_, _, hr, hspace hr, ha.allocates_none (freeRun_zero _ _)⟩
  rcases hc with ⟨hlen, hback, hr⟩ | ⟨hlt, _, hun, hr⟩
  · obtain ⟨ha, hadd⟩ := hback.added (hspace hr).ready hf hlen
    exact ⟨_, _, hr, hspace hr, p, _, hf.free, ha, fun _ => ⟨rfl,
      hadd.lendsAt hres.1 hf h0 hback.vmm fun hc => Bool.noConfusion hc, F, hadd, hlen⟩⟩
  · exact ⟨_, _, hr, hspace hr, (hun.around (Nat.le_of_lt hlt)).allocates_none hf.free⟩

/-- `vmm_alloc_contiguous` returns. -/
theorem Space.Inv.vmmAllocContiguous {dirs : List Frame} (h : Space.Inv L ⟨m, dirs⟩) (n : U32) :
    ∃ r m', Tomk.vmmAllocContiguous L m n = some (r, m') ∧ Space.Inv L ⟨m', dirs⟩ ∧
      m.Allocates L n true r m' := by
  have hm : m.Ready L := h.ready
  have hspace : ∀ {r : U32} {m' : Mm}, Tomk.vmmAllocContiguous L m n = some (r, m') →
      Space.Inv L ⟨m', dirs⟩ :=
    fun hr => Space.Inv.called (h.keeps_allocContiguous n) (map_run hr _)
  rcases vmmAllocContiguous_cases hm n with ⟨_, lr, hr⟩ | ⟨hres, p, lr, hf, h0, hc⟩
  · have ha : m.Around L { m with vmm := { m.vmm with largestRun := lr } } 0 0 :=
      m.around_pmm ⟨rfl, rfl⟩ rfl rfl fun _ => id
    exact ⟨_, _, hr, hspace hr, ha.allocates_none (freeRun_zero _ _)⟩
  have hused := pmmAlloc_used hm.pmm n
  rcases hc with ⟨hphys, mem', hmap, hr⟩ | ⟨_, hr⟩
  · obtain ⟨ha, q, hq, hadd⟩ := hmap.added hm (hspace hr).ready hf hphys rfl
    exact ⟨_, _, hr, hspace hr, p, _, hf.free, ha, fun _ => ⟨rfl,
      hadd.lendsAt hres.1 hf h0 rfl fun _ => ⟨q, hq, rfl⟩, _, hadd, List.length_range'⟩⟩
  · -- the reservation stays
    have ha : m.Around L ⟨m.vmm.reserved p n lr, (pmmAlloc m.pmm n).2, m.mmu⟩ p n.toNat :=
      ⟨⟨rfl, rfl⟩, fun r _ hset => Vmm.reserved_bits hset, hused.1, hused.2, rfl,
        Touched.refl _ _ _ _⟩
    exact ⟨_, _, hr, hspace hr, ha.allocates_none hf.free⟩

/-- A call of either function keeps the invariant. -/
theorem KvmmRun.Inv.allocates (h : s.Inv L) {n r : U32} {c : Bool}
    (hs : Space.Inv L ⟨m', [L.pgPd]⟩) (ha : s.mm.Allocates L n c r m') :
    (s.ret n c (r, m')).Inv L := by
  obtain ⟨p, k, hf, hk, hret⟩ := ha
  by_cases h0 : r = 0
  · rw [KvmmRun.ret, if_pos h0]
    exact h.failed hs hk hf
  · obtain ⟨rfl, hx, F, hadd, hlen⟩ := hret h0
    rw [KvmmRun.ret, if_neg h0]
    exact h.lend hs hk hf hx hadd hlen

/-- The pages of a live range are those of no other. -/
theorem KvmmRun.Inv.apart (h : s.Inv L) (hx : x ∈ s.live) {y : Lent} (hy : y ∈ s.live.erase x)
    {va : U32} (hvx : va ∈ x.pages) : va ∉ y.pages := by
  intro hvy
  have hperm : (livePages s.live).Perm (x.pages ++ livePages (s.live.erase x)) :=
    (List.perm_cons_erase hx).flatMap_right Lent.pages
  have hnodup := hperm.nodup_iff.mp h.owns.apart.of_map
  exact (List.nodup_append.mp hnodup).2.2 va hvx va (mem_livePages hy hvy) rfl

/-- `vmm_free` of a live range returns, keeps the invariant, and leaves the frames
and the pages of the other ranges. -/
theorem KvmmRun.Inv.freed (h : s.Inv L) (hx : x ∈ s.live) :
    ∃ m, vmmFree s.mm x.virt x.count = some m ∧ KvmmRun.Inv L ⟨m, s.live.erase x⟩ ∧
      m.pmm = s.mm.pmm ∧ ∀ va ∈ livePages (s.live.erase x),
        walk m.mmu.mem m.mmu.cr3 va = walk s.mm.mmu.mem s.mm.mmu.cr3 va := by
  obtain ⟨p, hp⟩ := h.lends x hx
  have hm : s.mm.Ready L := h.space.ready
  have hle := hp.le_total
  have hpos := toNat_pos_of_ne hp.count_ne
  obtain ⟨mem', hr, ht⟩ := vmmFree_eq hm.windowed hle (by omega)
  rw [vmmUnreserve_eq hm.vmm.toWindow hp.count_ne hle hp.virt_ne] at hr
  rw [← hp.virt] at hr
  have hin : s.mm.vmm.InWindow x.virt x.count := ⟨p, hp.virt, by omega, hle⟩
  have hspace := Space.Inv.called (h.space.keeps_free hin) (map_run hr _)
  have ha : s.mm.Around L ⟨s.mm.vmm.withTally (s.mm.vmm.tally.give p x.count), s.mm.pmm,
      ⟨mem', s.mm.mmu.cr3⟩⟩ p x.count.toNat := by
    refine ⟨⟨rfl, rfl⟩, fun q hno hq => ?_, rfl, fun _ => id, rfl, ht⟩
    show test (clearRun s.mm.vmm.bitmap p x.count.toNat) q = true
    rw [InRun] at hno
    rw [test_clearRun, hq, decide_eq_false hno]
    rfl
  obtain ⟨hl, ho, hwalk⟩ := h.keep ha List.erase_sublist fun y hy q hq i hi hin => by
    -- the page would be one of both ranges
    have h1 := hin.1
    have h2 := hin.2
    have hxp := hp.mem_pages (i := q + i - p) (by omega)
    rw [show p + (q + i - p) = q + i by omega] at hxp
    exact h.apart hx hy hxp (hq.mem_pages hi)
  exact ⟨_, hr, ⟨hspace, hl, ho⟩, rfl, hwalk⟩

theorem KvmmRun.Inv.free (h : s.Inv L) (hx : x ∈ s.live) :
    ∃ m, vmmFree s.mm x.virt x.count = some m ∧ KvmmRun.Inv L ⟨m, s.live.erase x⟩ := by
  obtain ⟨m, hr, hs, _⟩ := h.freed hx
  exact ⟨m, hr, hs⟩

theorem KvmmRun.Inv.pmmAlloc (h : s.Inv L) (n : U32) :
    KvmmRun.Inv L ⟨{ s.mm with pmm := (Tomk.pmmAlloc s.mm.pmm n).2 }, s.live⟩ := by
  have hused := pmmAlloc_used h.space.pmm n
  exact h.failed (h.space.framesTaken n)
    (s.mm.around_pmm (Vmm.SameWindow.refl _) rfl hused.1 hused.2) (freeRun_zero _ _)

/-- **One call** returns, and keeps the invariant. -/
theorem KvmmRun.Inv.call (h : s.Inv L) {c : KvmmCall} (hc : c.Legal s) :
    ∃ s', c.run L s = some s' ∧ s'.Inv L := by
  cases c with
  | alloc n =>
      obtain ⟨r, m', hr, hs, ha⟩ := h.space.vmmAlloc n
      exact ⟨_, Option.map_eq_some_iff.mpr ⟨(r, m'), hr, rfl⟩, h.allocates hs ha⟩
  | allocContiguous n =>
      obtain ⟨r, m', hr, hs, ha⟩ := h.space.vmmAllocContiguous n
      exact ⟨_, Option.map_eq_some_iff.mpr ⟨(r, m'), hr, rfl⟩, h.allocates hs ha⟩
  | free x =>
      obtain ⟨m, hr, hs⟩ := h.free hc
      exact ⟨_, Option.map_eq_some_iff.mpr ⟨m, hr, rfl⟩, hs⟩
  | pmmAlloc n => exact ⟨_, rfl, h.pmmAlloc n⟩

theorem KvmmStart.inv (h : KvmmStart L s) : s.Inv L := by
  obtain ⟨hs, hl⟩ := h
  refine ⟨hs.inv, ?_, ?_⟩
  · rw [hl]
    exact fun _ hx => absurd hx List.not_mem_nil
  · rw [hl]
    exact ⟨fun _ hva => absurd hva List.not_mem_nil, List.nodup_nil⟩

/-- The states of all runs. -/
def KvmmReach (L : Layout) : KvmmRun → Prop := Reach (KvmmStart L) (KvmmStep L)

theorem KvmmReach.inv (h : KvmmReach L s) : s.Inv L := by
  refine Reach.invariant (KvmmRun.Inv L) (fun _ hs => hs.inv) (fun c s s' hs hstep => ?_) h
  obtain ⟨s'', hr, hs'⟩ := hs.call hstep.1
  rw [hstep.2] at hr
  cases hr
  exact hs'

/-- **Frame ownership.**  In every state that a run reaches, each page of each
live range is mapped to a frame in use, and no two to one frame; and every call
there returns. -/
theorem kvmmRun_ownsFrames (h : KvmmReach L s) :
    s.mm.OwnsFrames (livePages s.live) ∧
      ∀ c : KvmmCall, c.Legal s → ∃ s', KvmmStep L c s s' := by
  refine ⟨h.inv.owns, fun c hc => ?_⟩
  obtain ⟨s', hr, _⟩ := h.inv.call hc
  exact ⟨s', hc, hr⟩

/-- One page of the small machine is allocated, mapped and owned. -/
theorem kvmmRun_ownsFrames_one : ∃ s x, KvmmReach smallLayout s ∧ x ∈ s.live ∧
    s.mm.OwnsFrames (livePages s.live) := by
  obtain ⟨⟨m, dirs⟩, hs⟩ := smallImage_start
  have hdirs : dirs = [smallLayout.pgPd] := hs.start.dirs_eq
  subst hdirs
  have hfree : 1 ≤ m.pmm.freePages := by
    rw [BitVec.le_def]
    exact Nat.le_of_succ_le hs.frames
  obtain ⟨r, m', hr, h0⟩ := vmmAlloc_enough hs.consistent hs.page hfree
  have hstep : KvmmStep smallLayout (.alloc 1) ⟨m, []⟩ ⟨m', [⟨r, 1, false⟩]⟩ := by
    refine ⟨trivial, ?_⟩
    rw [KvmmCall.run, show vmmAlloc smallLayout (KvmmRun.mk m []).mm 1 = some (r, m') from hr,
      Option.map_some, KvmmRun.ret, if_neg h0]
  have hreach : KvmmReach smallLayout ⟨m', [⟨r, 1, false⟩]⟩ := .next (.start ⟨hs.start, rfl⟩) hstep
  exact ⟨_, _, hreach, List.mem_cons_self, (kvmmRun_ownsFrames hreach).1⟩

end Tomk
