/-
# From the boot loader's map to the pages the kernel hands out

Five pieces of code stand between the entries the boot loader leaves in memory
and a page that `vmm_alloc` returns: `mb_init` makes regions of the entries,
`pmm_init` makes free bits of the regions, `mminit` sets the bits of what the
kernel occupies, the allocator takes free bits, and `pg_map` writes the frames
into the tables.  Each has its own conditions; here they are put together.

`UsableFrame` is what is asked of a frame in the end, and it speaks of the boot
loader's entries, not of anything the kernel made of them: every byte of it is
RAM there, and none is the kernel's.  In every state of every run, the frames
that are free and the frames behind the pages of live ranges are such frames
(`kvmmRun_usable`).

What carries it is that no call clears a bit of the physical allocator that
`pmm_init` has not cleared (`KvmmRun.Since`): `vmm_free` gives back pages and no
frames.
-/
import Tomk.Init.Mb
import Tomk.Mm.BootReserved
import Tomk.Mm.PmmUsable

namespace Tomk

open WordBits Runs

/-- The head of `mminit`: an empty memory map, and the boot loader's entries. -/
structure LoaderMap (es : List MultibootMmap) (map : KPhysMap) : Prop where
  room : es.length ≤ kphysmapMaxRegions
  made : ∃ (mem : Bytes) (info : MultibootInfo), Announces mem info es ∧
    mbInit mem info kphysmapInit = some map

/-- `mminit` has completed with the map that `mb_init` made, `kinit_alloc` has
handed out `handed` in it, and nothing is allocated. -/
def LoaderStart (L : Layout) (map : KPhysMap) (handed : List (U32 × U32)) (s : KvmmRun) : Prop :=
  ∃ (img : Image) (mem : PhysMem) (vmm : Vmm) (pmm : Pmm) (mmu : Mmu),
    img.toLayout = L ∧ BssClear L mem ∧ bootMmu img mem = some mmu ∧
      mminit L map ⟨vmm, pmm, mmu⟩ = some s.mm ∧
      kinitHanded L map ⟨vmm, pmm, mmu⟩ = some handed ∧ s.live = []

/-- A frame that may be handed out. -/
structure UsableFrame (L : Layout) (es : List MultibootMmap) (handed : List (U32 × U32))
    (q : Nat) : Prop where
  ram : ∀ b, q * 4096 ≤ b → b < q * 4096 + 4096 → MapRam es b
  apart : ∀ b, q * 4096 ≤ b → b < q * 4096 + 4096 → ¬ KernelByte L handed b

/-! ## The map -/

variable {es : List MultibootMmap} {map : KPhysMap}

/-- Where `pmm_init` finds a region, every entry has become one. -/
theorem LoaderMap.regions (h : LoaderMap es map) (hne : map.regions ≠ []) :
    map.regions = es.map MultibootMmap.region := by
  obtain ⟨hroom, mem, info, ha, hinit⟩ := h
  have hroom' : kphysmapInit.regions.length + es.length ≤ kphysmapMaxRegions := by
    rw [show kphysmapInit.regions.length = 0 from rfl, Nat.zero_add]
    exact hroom
  obtain ⟨hall, hnone⟩ := mbInit_walk ha hroom'
  by_cases hwrap : BufferWraps info
  · rw [hnone hwrap] at hinit
    rw [← Option.some.inj hinit] at hne
    exact absurd rfl hne
  · obtain ⟨m, hm, hr⟩ := hall hwrap
    rw [hm] at hinit
    rw [← Option.some.inj hinit, hr]
    rfl

/-- A page of the kernel's RAM is a page of the loader's, where the entries fit. -/
theorem LoaderMap.ram (h : LoaderMap es map) (hfit : EntriesFit es) {q b : Nat}
    (hq : map.RamPage q) (hlt : q < 2 ^ 20) (h1 : q * 4096 ≤ b) (h2 : b < q * 4096 + 4096) :
    MapRam es b := by
  obtain ⟨r, hr, hram, hlo, hhi⟩ := hq b h1 h2
  have hregions := h.regions (List.ne_nil_of_mem hr)
  rw [hregions] at hr
  exact (mbSound_iff es).mpr hfit r hr hram b (by omega) hlo hhi

/-! ## A loader that announces whole pages -/

/-- The RAM entries begin and end with a page. -/
def WholePages (es : List MultibootMmap) : Prop :=
  ∀ e ∈ es, e.type = multibootMmapTypeRam → e.base % 4096 = 0 ∧ e.length % 4096 = 0

/-- Where a RAM region that is not passed over cuts a page, the page is RAM all the same; or
`pmm_init` counts no page. -/
def KPhysMap.Covered (map : KPhysMap) : Prop :=
  map.EndsLast ∨ ∀ r ∈ map.regions, r.isRam = true → map.Reaches r →
    ∀ q, q ≠ 0 → r.Cuts q → map.RamPage q

/-- A region of whole pages cuts no page. -/
theorem WholePages.region (h : WholePages es) {e : MultibootMmap} (he : e ∈ es)
    (hram : e.region.isRam = true) (q : Nat) : ¬ e.region.Cuts q := by
  obtain ⟨hbase, hlen⟩ := h e he ((region_isRam e).mp hram)
  have ha : e.region.address.toNat % 4096 = 0 := by
    have := base_mod e
    show e.addr1.toNat % 4096 = 0
    omega
  have hs : e.region.size.toNat % 4096 = 0 := by
    have := length_mod e
    show e.len1.toNat % 4096 = 0
    omega
  have hstop : e.region.stop.toNat % 4096 = 0 := by
    rw [KPhysRegion.stop, BitVec.toNat_add]
    omega
  have hlt := e.region.address.isLt
  rw [KPhysRegion.Cuts, KPhysRegion.Overlaps]
  omega

theorem WholePages.covered (h : WholePages es) (hmap : map.regions = es.map MultibootMmap.region) :
    map.Covered := by
  refine Or.inr fun r hr hram _ q _ hcut => ?_
  rw [hmap] at hr
  obtain ⟨e, he, rfl⟩ := List.mem_map.mp hr
  exact absurd hcut (h.region he hram q)

/-! ## What `mminit` leaves free -/

/-- `pmm_mark_used` makes no page free. -/
theorem pmmMarkUsed_free {s : Pmm} (hs : s.Shape) {phys size : U32} {q : Nat}
    (hq : test (pmmMarkUsed s phys size).bitmap q = false) : test s.bitmap q = false := by
  obtain ⟨lo, hi, hm⟩ := pmmMarkUsed_some hs phys size
  rw [hm.bits q] at hq
  split at hq
  · exact Bool.noConfusion hq
  · exact hq

variable {L : Layout} {handed : List (U32 × U32)} {m m' : Mm}

/-- The physical allocator after `mminit`: that of `pmm_init`, and three marks. -/
theorem mminit_pmm (h : mminit L map m = some m') :
    ∃ a b c : U32 × U32, m'.pmm = pmmMarkUsed (pmmMarkUsed (pmmMarkUsed
      (pmmFill (pmmSizes m.pmm map) map) a.1 a.2) b.1 b.2) c.1 c.2 := by
  have hmap := mminit_regions h
  simp only [mminit, pmmInit, Option.bind_eq_bind, Option.bind_eq_some_iff, Option.pure_def,
    if_neg hmap] at h
  obtain ⟨_, _, _, ⟨r, _, hpmm⟩, _, _, ka, _, _, _, _, _, _, _, hm⟩ := h
  split at hpmm
  · cases hpmm
  · rw [← Option.some.inj hm, ← Option.some.inj hpmm]
    exact ⟨(_, _), (_, _), (_, _), rfl⟩

theorem mminit_free (h : mminit L map m = some m') {q : Nat}
    (hq : test m'.pmm.bitmap q = false) :
    test (pmmFill (pmmSizes m.pmm map) map).bitmap q = false := by
  obtain ⟨a, b, c, hp⟩ := mminit_pmm h
  have h0 := pmmInit_consistent m.pmm map
  have h1 := pmmMarkUsed_consistent h0 a.1 a.2
  have h2 := pmmMarkUsed_consistent h1 b.1 b.2
  rw [hp] at hq
  exact pmmMarkUsed_free h0.shape (pmmMarkUsed_free h1.shape (pmmMarkUsed_free h2.shape hq))

/-- `pmm_init` frees whole pages of RAM. -/
theorem pmmInit_free_ram (hcov : map.Covered) (before : Pmm) {q : Nat}
    (hq : q < (pmmFill (pmmSizes before map) map).totalPages.toNat)
    (hf : test (pmmFill (pmmSizes before map) map).bitmap q = false) : map.RamPage q := by
  have hsize := (pmmInit_consistent before map).shape.size_eq
  by_cases hlast : map.EndsLast
  · exact ((pmmInit_endsLast hlast).free q (by omega) hf).2
  · have htot : (pmmFill (pmmSizes before map) map).totalPages = (pmmSizes before map).totalPages := by
      rw [pmmInit_moved.frame]
    rw [htot] at hq
    exact touched_ram_iff.mpr (hcov.resolve_left hlast) q ((pmmInit_clear_iff hlast hq).mp hf)

/-! ## Runs -/

variable {s s' : KvmmRun}

/-- Where these runs start, those of the kernel's window do. -/
theorem LoaderStart.kvmm (h : LoaderStart L map handed s) : KvmmStart L s := by
  obtain ⟨img, mem, vmm, pmm, mmu, himg, hclr, hboot, hinit, _, hl⟩ := h
  exact ⟨⟨img, mem, map, vmm, pmm, mmu, himg, hclr, mminit_regions hinit, hboot, hinit, rfl⟩, hl⟩

/-- **The frames that are free when `mminit` returns.** -/
theorem LoaderStart.usable (h : LoaderStart L map handed s) (hmap : LoaderMap es map)
    (hfit : EntriesFit es) (hcov : map.Covered) {q : Nat} (hq : q < s.mm.pmm.totalPages.toNat)
    (hf : test s.mm.pmm.bitmap q = false) : UsableFrame L es handed q := by
  obtain ⟨img, mem, vmm, pmm, mmu, rfl, hclr, hboot, hinit, hhand, _⟩ := h
  obtain ⟨mem', hb, hk, _, _⟩ := bootMmu_dir img hclr
  rw [hb] at hboot
  cases hboot
  obtain ⟨m', handed', hm, hh, _, _, hbooted, hres, _⟩ :=
    mminit_handed map (mminit_regions hinit) (m := ⟨vmm, pmm, ⟨mem', img.pgPd⟩⟩) hk
  rw [hm] at hinit
  rw [hh] at hhand
  cases hhand
  have hmm := Option.some.inj hinit
  rw [← hmm] at hq hf
  have htl := hbooted.consistent.pmm.shape.total_lt
  constructor
  · intro b h1 h2
    have hq' := hq
    rw [hbooted.total] at hq'
    exact hmap.ram hfit (pmmInit_free_ram hcov pmm hq' (mminit_free hm hf)) (by omega) h1 h2
  · intro b h1 h2 hbyte
    have hdiv : b / 4096 = q := by omega
    have hset := hres.pmm b hbyte (by omega)
    rw [hdiv, hf] at hset
    exact Bool.noConfusion hset

/-- What a run keeps of the frames that `start` has free: the free ones are among
them, and so are those behind the live pages. -/
structure KvmmRun.Since (start : Pmm) (s : KvmmRun) : Prop where
  total : s.mm.pmm.totalPages = start.totalPages
  free : ∀ q, test s.mm.pmm.bitmap q = false → test start.bitmap q = false
  live : ∀ va ∈ livePages s.live, ∃ f, walk s.mm.mmu.mem s.mm.mmu.cr3 va = some f ∧
    f.toNat < start.totalPages.toNat ∧ test start.bitmap f.toNat = false

variable {start : Pmm} {p n : Nat}

/-- No call of an allocator frees a frame. -/
theorem KvmmRun.Since.around (h : s.Since start) (ha : s.mm.Around L m' p n) :
    m'.pmm.totalPages = start.totalPages ∧
      ∀ q, test m'.pmm.bitmap q = false → test start.bitmap q = false := by
  refine ⟨ha.total.trans h.total, fun q hq => h.free q ?_⟩
  by_contra hset
  rw [Bool.not_eq_false] at hset
  rw [ha.used q hset] at hq
  exact Bool.noConfusion hq

/-- A call of either function takes frames that were free. -/
theorem KvmmRun.Since.allocates (h : s.Since start) (hi : s.Inv L) {n r : U32} {c : Bool}
    (hs : Space.Inv L ⟨m', [L.pgPd]⟩) (ha : s.mm.Allocates L n c r m') :
    (s.ret n c (r, m')).Since start := by
  obtain ⟨p, k, hf, hk, hret⟩ := ha
  obtain ⟨htotal, hfree⟩ := h.around hk
  obtain ⟨_, _, hwalk⟩ := hi.keep hk (List.Sublist.refl _) fun x _ q hq => hq.not_inRun hf
  have hold : ∀ va ∈ livePages s.live, ∃ f, walk m'.mmu.mem m'.mmu.cr3 va = some f ∧
      f.toNat < start.totalPages.toNat ∧ test start.bitmap f.toNat = false := by
    intro va hva
    rw [hwalk va hva]
    exact h.live va hva
  by_cases h0 : r = 0
  · rw [KvmmRun.ret, if_pos h0]
    exact ⟨htotal, hfree, hold⟩
  obtain ⟨rfl, hx, F, hadd, hlen⟩ := hret h0
  rw [KvmmRun.ret, if_neg h0]
  refine ⟨htotal, hfree, fun va hva => ?_⟩
  rcases List.mem_append.mp hva with hva | hva
  · -- a page of the new range
    have hmem := List.mem_map_of_mem (f := walk m'.mmu.mem m'.mmu.cr3) hva
    rw [hadd.walk_pages hx hlen] at hmem
    obtain ⟨f, hF, hwf⟩ := List.mem_map.mp hmem
    obtain ⟨hlt, _⟩ := hadd.used f hF
    have htl := hs.pmm.total_lt
    have htl' : m'.pmm.totalPages.toNat < 2 ^ 20 := htl
    have hframe : (BitVec.ofNat 20 f).toNat = f := by
      rw [BitVec.toNat_ofNat]
      omega
    refine ⟨_, hwf.symm, ?_⟩
    rw [hframe, ← htotal]
    exact ⟨hlt, h.free f (hadd.free f hF)⟩
  · exact hold va hva

/-- **One call.** -/
theorem KvmmRun.Since.step (h : s.Since start) (hi : s.Inv L) {c : KvmmCall}
    (hstep : KvmmStep L c s s') : s'.Since start := by
  obtain ⟨hl, hr⟩ := hstep
  cases c with
  | alloc n =>
      obtain ⟨r, m', hr', hs, ha⟩ := hi.space.vmmAlloc n
      rw [KvmmCall.run, hr', Option.map_some] at hr
      exact Option.some.inj hr ▸ h.allocates hi hs ha
  | allocContiguous n =>
      obtain ⟨r, m', hr', hs, ha⟩ := hi.space.vmmAllocContiguous n
      rw [KvmmCall.run, hr', Option.map_some] at hr
      exact Option.some.inj hr ▸ h.allocates hi hs ha
  | free x =>
      obtain ⟨m, hr', _, hpmm, hwalk⟩ := hi.freed hl
      rw [KvmmCall.run, hr', Option.map_some] at hr
      rw [← Option.some.inj hr]
      refine ⟨by rw [hpmm]; exact h.total, fun q hq => h.free q (by rwa [hpmm] at hq), ?_⟩
      intro va hva
      rw [hwalk va hva]
      exact h.live va ((List.erase_sublist.flatMap Lent.pages).subset hva)
  | pmmAlloc n =>
      have hused := pmmAlloc_used hi.space.pmm n
      obtain ⟨htotal, hfree⟩ := h.around (L := L)
        (s.mm.around_pmm (Vmm.SameWindow.refl _) rfl hused.1 hused.2)
      rw [← Option.some.inj hr]
      exact ⟨htotal, hfree, h.live⟩

/-- **The run lemma.** -/
theorem LoaderStart.since (h : Reach (LoaderStart L map handed) (KvmmStep L) s) :
    ∃ s0, LoaderStart L map handed s0 ∧ s.Inv L ∧ s.Since s0.mm.pmm := by
  induction h with
  | start hs =>
      refine ⟨_, hs, hs.kvmm.inv, rfl, fun _ hq => hq, ?_⟩
      rw [hs.kvmm.2]
      exact fun _ hva => absurd hva List.not_mem_nil
  | next _ hstep ih =>
      obtain ⟨s0, h0, hi, hsince⟩ := ih
      obtain ⟨s'', hr, hi'⟩ := hi.call hstep.1
      rw [hstep.2] at hr
      exact ⟨s0, h0, Option.some.inj hr ▸ hi', hsince.step hi hstep⟩

/-- **Loader to page.**  In every state of every run, the free frames and the
frames behind the pages of live ranges are RAM from the first byte to the last in
the boot loader's map, and have no byte of the kernel. -/
theorem kvmmRun_usable (hmap : LoaderMap es map) (hfit : EntriesFit es) (hcov : map.Covered)
    (h : Reach (LoaderStart L map handed) (KvmmStep L) s) :
    (∀ q, q < s.mm.pmm.totalPages.toNat → test s.mm.pmm.bitmap q = false →
        UsableFrame L es handed q) ∧
      ∀ va ∈ livePages s.live, ∃ f, walk s.mm.mmu.mem s.mm.mmu.cr3 va = some f ∧
        UsableFrame L es handed f.toNat := by
  obtain ⟨s0, h0, _, hsince⟩ := LoaderStart.since h
  refine ⟨fun q hq hf => ?_, fun va hva => ?_⟩
  · rw [hsince.total] at hq
    exact h0.usable hmap hfit hcov hq (hsince.free q hf)
  · obtain ⟨f, hf, hlt, hclr⟩ := hsince.live va hva
    exact ⟨f, hf, h0.usable hmap hfit hcov hlt hclr⟩

/-- Two pages of RAM at 16 MiB. -/
def highRam : List MultibootMmap := [⟨20, 0x1000000, 0, 0x2000, 0, 1⟩]

/-- The entry, at `0xC0010000`. -/
def highRamBytes : Bytes := fun p =>
  let k := (p - 0xC0010000).toNat
  (([20, 0x1000000, 0, 0x2000, 0, 1] : List U32).getD (k / 4) 0 >>> (8 * (k % 4))).setWidth 8

theorem highRam_announces : Announces highRamBytes ⟨0x40, 24, 0x10000⟩ highRam where
  flags := by decide
  lays := ⟨by decide, by decide, trivial⟩
  fills := by decide

theorem highRam_map : LoaderMap highRam highMap := by
  obtain ⟨⟨regions, hlen⟩, hm, hr⟩ := (mbInit_walk highRam_announces
    (show kphysmapInit.regions.length + _ ≤ _ by decide)).1 (by decide)
  obtain rfl : regions = highMap.regions := hr
  exact ⟨by decide, _, _, highRam_announces, hm⟩

theorem highRam_whole : WholePages highRam := by
  intro e he _
  rw [highRam, List.mem_singleton] at he
  rw [he]
  decide

theorem highRam_fits : EntriesFit highRam := by
  intro e he _ hbase
  rw [highRam, List.mem_singleton] at he
  rw [he] at hbase
  exact absurd hbase (by decide)

/-- The small machine, started from that entry; a page can be allocated. -/
theorem highRam_start : ∃ handed m, LoaderStart smallLayout highMap handed ⟨m, []⟩ ∧
    m.Consistent smallLayout ∧ m.vmm.Reservable 1 ∧ 1 ≤ m.pmm.freePages := by
  have hclr : BssClear smallLayout fun _ _ => 0 := fun _ => rfl
  obtain ⟨mem, hboot, hk, _, _⟩ := bootMmu_dir smallImage hclr
  obtain ⟨m, handed, hm, hhand, _, _, hb', _, _⟩ := mminit_handed highMap (by decide)
    (m := ⟨smallVmm, zeroPmm, ⟨mem, smallLayout.pgPd⟩⟩) hk
  have hb : Booted smallLayout (pmmFill (pmmSizes zeroPmm highMap) highMap) m := hb'
  have hkp : smallLayout.kernelPages = 0x511 := by decide
  have hvt : m.vmm.totalPages.toNat = 0x3FC00 := by
    rw [hb.consistent.vmm.total_eq, hb.base, hb.stop]
    decide
  have hpt : m.pmm.totalPages.toNat = 0x1002 := by
    rw [hb.total]
    decide +kernel
  have hpage : FreeRun m.vmm.bitmap 0x1000 1 := fun i hi => hb.window _ (by omega) (by omega)
  have hframe : FreeRun m.pmm.bitmap 0x1000 1 := by
    intro i hi
    obtain rfl := Nat.lt_one_iff.mp hi
    rw [hb.beyond _ (by omega) (by omega)]
    decide +kernel
  have h1 : (1 : U32).toNat = 1 := rfl
  refine ⟨handed, m, ⟨smallImage, _, _, _, _, rfl, hclr, hboot, hm, hhand, rfl⟩, hb.consistent,
    ⟨by decide, ?_, 0x1000, by omega, hpage⟩, ?_⟩
  · rw [BitVec.le_def, hb.consistent.vmmCounted]
    exact clearCount_freeRun_le hpage (by omega)
  · rw [BitVec.le_def, hb.consistent.pmm.counted]
    exact clearCount_freeRun_le hframe (by omega)

/-- One page of the small machine is allocated; its frame is RAM of the loader's
map. -/
theorem kvmmRun_usable_one : ∃ handed s va f,
    Reach (LoaderStart smallLayout highMap handed) (KvmmStep smallLayout) s ∧
      va ∈ livePages s.live ∧ walk s.mm.mmu.mem s.mm.mmu.cr3 va = some f ∧
      UsableFrame smallLayout highRam handed f.toNat := by
  obtain ⟨handed, m, hstart, hcons, hpage, hframe⟩ := highRam_start
  obtain ⟨r, m', hr, h0⟩ := vmmAlloc_enough hcons hpage hframe
  have hstep : KvmmStep smallLayout (.alloc 1) ⟨m, []⟩ ⟨m', [⟨r, 1, false⟩]⟩ := by
    refine ⟨trivial, ?_⟩
    rw [KvmmCall.run, show vmmAlloc smallLayout (KvmmRun.mk m []).mm 1 = some (r, m') from hr,
      Option.map_some, KvmmRun.ret, if_neg h0]
  have hreach := Reach.next (.start hstart) hstep
  have hcov : highMap.Covered := highRam_whole.covered rfl
  have hva : pageAt r 0 ∈ livePages [⟨r, 1, false⟩] :=
    mem_livePages List.mem_cons_self (mem_lentPages.mpr ⟨0, Nat.one_pos, rfl⟩)
  obtain ⟨f, hf, hu⟩ := (kvmmRun_usable highRam_map highRam_fits hcov hreach).2 _ hva
  exact ⟨handed, _, _, f, hreach, hva, hf, hu⟩

end Tomk
