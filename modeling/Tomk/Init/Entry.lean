/-
# `entry.asm`: the boot page directory

Before paging is on, `_start` writes the directory and the static tables by
their physical addresses: every kernel entry of the directory, then the
recursive entry, then the pages of the sections of the image.  `kernel_init`,
the first code under paging, takes the identity mapping of `.boot` away
again.

What they leave is the shape the rest of the kernel relies on (`KernelDir`):
the directory maps itself, all its kernel entries are present, and every
entry it has, user entries included, names the static table of its slot
(`bootMmu_kernelDir`, `bootMmu_wired`).
-/
import Tomk.Mm.Wired

namespace Tomk

open CFor

/-! ## Physical accesses -/

def PhysMem.peek (mem : PhysMem) (pa : U32) : U32 := mem (frameOf pa) (wordIndex pa)

def PhysMem.poke (mem : PhysMem) (pa w : U32) : PhysMem := mem.write (frameOf pa) (wordIndex pa) w

/-! ## The image -/

/-- A section of `linker.ld`, from its start to its end. -/
structure Section where
  start : U32
  stop : U32

structure Image extends Layout where
  boot : Section
  text : Section
  rodata : Section
  data : Section
  bss : Section
  /-- `.boot` lies below the kernel's half. -/
  boot_low : boot.start.toNat ≤ boot.stop.toNat ∧ boot.stop.toNat + 4096 ≤ kvirt.toNat

/-! ## `_start` -/

/-- One turn of `.map_pd`, for entry `edi`. -/
def mapPdTurn (L : Layout) (edi : Nat) (mem : PhysMem) : PhysMem :=
  mem.poke (frameAddr L.pgPd + BitVec.ofNat 32 edi * 4)
    (((BitVec.ofNat 32 edi <<< 12) + L.pgPt) ||| (pteRw ||| pteP))

def setupRecursiveMapping (L : Layout) (mem : PhysMem) : PhysMem :=
  mem.poke (frameAddr L.pgPd + 1023 * 4) (frameAddr L.pgPd ||| (pteRw ||| pteP))

/-- `_map`: like `_map_page`, on physical addresses. -/
def bootMapPage (L : Layout) (mem : PhysMem) (virt phys flags : U32) : PhysMem :=
  let pde := frameAddr L.pgPd + (virt >>> 22) * 4
  let mem := if Present (mem.peek pde) then mem else mem.poke pde (newPde L virt)
  let pte := L.pgPt + ((virt >>> 10) &&& 0xFFFFF000#32) + ((virt >>> 12) &&& 0x3FF) * 4
  mem.poke pte (newPte phys flags)

def bootMap (L : Layout) (mem : PhysMem) (virt phys flags count : U32) : PhysMem :=
  iter (fun i mem => bootMapPage L mem (pageAt virt i) (pageAt phys i) flags) 0 count.toNat mem

def pteRo : U32 := 0x00

/-- The macro `map_section`. -/
def mapSection (L : Layout) (s : Section) (flags phys virt : U32) (mem : PhysMem) : PhysMem :=
  bootMap L mem virt phys flags ((s.stop - s.start + (pageSize - 1)) >>> 12)

/-- `_start`, from `.map_pd` to the load of `cr3`. -/
def startTables (img : Image) (mem : PhysMem) : PhysMem :=
  let L := img.toLayout
  let mem := iter (mapPdTurn L) (kvirt >>> 22).toNat (1023 - (kvirt >>> 22).toNat) mem
  let mem := setupRecursiveMapping L mem
  let mem := mapSection L ⟨0x1000, 0x100000⟩ pteRw 0x1000 (p2v 0x1000) mem
  let mem := mapSection L img.text pteRo (v2p img.text.start) img.text.start mem
  let mem := mapSection L img.rodata pteRo (v2p img.rodata.start) img.rodata.start mem
  let mem := mapSection L img.data pteRw (v2p img.data.start) img.data.start mem
  let mem := mapSection L img.bss pteRw (v2p img.bss.start) img.bss.start mem
  mapSection L img.boot pteRo img.boot.start img.boot.start mem

/-- The tables `kernel_init` hands on: `_start`, and the `pg_unmap` of the
identity mapping. -/
def bootMmu (img : Image) (mem : PhysMem) : Option Mmu :=
  pgUnmap ⟨startTables img mem, img.pgPd⟩ img.boot.start
    ((img.boot.stop + (pageSize - 1) - img.boot.start) >>> 12)

/-! ## The shape of a directory of the kernel -/

/-- The directory has every kernel entry, and each is the static one. -/
structure KernelDir (L : Layout) (mem : PhysMem) (dir : Frame) : Prop where
  wired : Wired L 768 mem dir
  full : ∀ i : Slot, 768 ≤ i.toNat → i.toNat < 1023 → Present (mem dir i)

variable {L : Layout} {mem mem' : PhysMem} {dir : Frame}

theorem KernelDir.entry (h : KernelDir L mem dir) {i : Slot} (h1 : 768 ≤ i.toNat)
    (h2 : i.toNat < 1023) : Present (mem dir i) ∧ frameOf (mem dir i) = L.ptFrame i :=
  ⟨h.full i h1 h2, h.wired.tables i h1 h2 (h.full i h1 h2)⟩

/-- Mapping and unmapping keep the directories of the kernel. -/
theorem KernelDir.other {P : Nat → Prop} {d : Frame} (h : KernelDir L mem d)
    (ht : Touched L dir P mem mem') : KernelDir L mem' d where
  wired := h.wired.other ht
  full := fun i h1 h2 => by
    have hp := h.full i h1 h2
    by_cases hd : d = dir
    · subst hd
      rwa [ht.pde i hp]
    · rwa [ht.other_dir hd h.wired.apart]

/-- `BssClear`: the loader has cleared the directory. -/
def BssClear (L : Layout) (mem : PhysMem) : Prop := ∀ i, mem L.pgPd i = 0

/-! ## What `_start` writes -/

/-- The physical address of a word, taken apart. -/
theorem frameAddr_add {f : Frame} {x : U32} (hx : x.toNat < 4096) :
    frameOf (frameAddr f + x) = f ∧ (wordIndex (frameAddr f + x)).toNat = x.toNat / 4 := by
  have hsum : (frameAddr f + x).toNat = f.toNat * 4096 + x.toNat := by
    rw [BitVec.toNat_add, toNat_frameAddr]
    omega
  constructor
  · apply BitVec.eq_of_toNat_eq
    rw [toNat_frameOf, hsum]
    omega
  · rw [toNat_wordIndex', hsum]
    omega

theorem poke_dir (L : Layout) (mem : PhysMem) {k : Nat} (hk : k < 1024) (w : U32) :
    mem.poke (frameAddr L.pgPd + BitVec.ofNat 32 k * 4) w = mem.write L.pgPd (BitVec.ofNat 10 k) w := by
  have hx : (BitVec.ofNat 32 k * 4).toNat = k * 4 := by
    have h4 : (4 : U32).toNat = 4 := rfl
    rw [BitVec.toNat_mul, BitVec.toNat_ofNat, h4]
    omega
  obtain ⟨h1, h2⟩ := frameAddr_add (f := L.pgPd) (x := BitVec.ofNat 32 k * 4) (by omega)
  have h3 : wordIndex (frameAddr L.pgPd + BitVec.ofNat 32 k * 4) = BitVec.ofNat 10 k := by
    apply BitVec.eq_of_toNat_eq
    rw [h2, hx, BitVec.toNat_ofNat]
    omega
  rw [PhysMem.poke, h1, h3]

/-- Entry `k` as `.map_pd` writes it names the static table of its slot. -/
theorem mapPd_entry (L : Layout) {k : Nat} (hk : k < 1024) :
    Present (((BitVec.ofNat 32 k <<< 12) + L.pgPt) ||| (pteRw ||| pteP)) ∧
      frameOf (((BitVec.ofNat 32 k <<< 12) + L.pgPt) ||| (pteRw ||| pteP))
        = L.ptFrame (BitVec.ofNat 10 k) := by
  have hlt := L.pgPd_lt
  constructor
  · rw [present_iff, BitVec.getLsbD_or, show (pteRw ||| pteP).getLsbD 0 = true from rfl,
      Bool.or_true]
  · rw [frameOf_or_low (by decide)]
    apply BitVec.eq_of_toNat_eq
    rw [toNat_frameOf, L.toNat_ptFrame, BitVec.toNat_add, BitVec.toNat_shiftLeft,
      BitVec.toNat_ofNat, BitVec.toNat_ofNat, L.toNat_pgPt, Nat.shiftLeft_eq]
    omega

/-- `_map` is `_map_page` under the boot directory. -/
theorem bootMapPage_eq (L : Layout) (mem : PhysMem) (virt phys flags : U32) :
    bootMapPage L mem virt phys flags = (buildPde L mem L.pgPd virt).write
      (L.ptFrame (slotOf (pageNo virt))) (wordOf (pageNo virt)) (newPte phys flags) := by
  have hlt := L.pgPd_lt
  have hv := virt.isLt
  have hk : virt.toNat / 2 ^ 22 < 1024 := by omega
  have hshift : virt >>> 22 = BitVec.ofNat 32 (virt.toNat / 2 ^ 22) := by
    apply BitVec.eq_of_toNat_eq
    rw [BitVec.toNat_ushiftRight, Nat.shiftRight_eq_div_pow, BitVec.toNat_ofNat]
    omega
  have hslot : BitVec.ofNat 10 (virt.toNat / 2 ^ 22) = pdIndex virt := by
    apply BitVec.eq_of_toNat_eq
    rw [toNat_pdIndex, BitVec.toNat_ofNat]
    omega
  have hpeek : mem.peek (frameAddr L.pgPd + (virt >>> 22) * 4) = mem L.pgPd (pdIndex virt) := by
    have hx : (BitVec.ofNat 32 (virt.toNat / 2 ^ 22) * 4 : U32).toNat = virt.toNat / 2 ^ 22 * 4 := by
      have h4 : (4 : U32).toNat = 4 := rfl
      rw [BitVec.toNat_mul, BitVec.toNat_ofNat, h4]
      omega
    rw [hshift]
    obtain ⟨h1, h2⟩ := frameAddr_add (f := L.pgPd)
      (x := BitVec.ofNat 32 (virt.toNat / 2 ^ 22) * 4) (by omega)
    have h3 : wordIndex (frameAddr L.pgPd + BitVec.ofNat 32 (virt.toNat / 2 ^ 22) * 4)
        = pdIndex virt := by
      apply BitVec.eq_of_toNat_eq
      rw [h2, hx, toNat_pdIndex]
      omega
    rw [PhysMem.peek, h1, h3]
  have hpte : ∀ (mem : PhysMem) (w : U32),
      mem.poke (L.pgPt + ((virt >>> 10) &&& 0xFFFFF000#32) + ((virt >>> 12) &&& 0x3FF) * 4) w
        = mem.write (L.ptFrame (slotOf (pageNo virt))) (wordOf (pageNo virt)) w := by
    intro mem w
    have h4 : (4 : U32).toNat = 4 := rfl
    have h5 : (L.pgPt + ((virt >>> 10) &&& 0xFFFFF000#32)
        + ((virt >>> 12) &&& 0x3FF) * 4).toNat
        = (L.pgPd.toNat + 1 + virt.toNat / 2 ^ 22) * 4096 + virt.toNat / 4096 % 1024 * 4 := by
      rw [BitVec.toNat_add, BitVec.toNat_add, BitVec.toNat_mul, toNat_tableOffset, toNat_tableWord,
        L.toNat_pgPt, h4]
      omega
    have h6 : frameOf (L.pgPt + ((virt >>> 10) &&& 0xFFFFF000#32)
        + ((virt >>> 12) &&& 0x3FF) * 4) = L.ptFrame (slotOf (pageNo virt)) := by
      apply BitVec.eq_of_toNat_eq
      rw [toNat_frameOf, h5, L.toNat_ptFrame, toNat_slotOf (pageNo_lt virt), pageNo]
      omega
    have h7 : wordIndex (L.pgPt + ((virt >>> 10) &&& 0xFFFFF000#32)
        + ((virt >>> 12) &&& 0x3FF) * 4) = wordOf (pageNo virt) := by
      apply BitVec.eq_of_toNat_eq
      rw [toNat_wordIndex', h5, wordOf, BitVec.toNat_ofNat, pageNo]
      omega
    rw [PhysMem.poke, h6, h7]
  simp only [bootMapPage, hpeek, hpte]
  congr 1
  rw [buildPde, hshift, poke_dir L mem hk, hslot]

/-- The first `n` turns of the loop of `map`. -/
def bootTurns (L : Layout) (mem : PhysMem) (virt phys flags : U32) (n : Nat) : PhysMem :=
  iter (fun i mem => bootMapPage L mem (pageAt virt i) (pageAt phys i) flags) 0 n mem

theorem bootTurns_touched (L : Layout) (mem : PhysMem) (virt phys flags : U32) (n : Nat) :
    Touched L L.pgPd (fun _ => True) mem (bootTurns L mem virt phys flags n) := by
  have hinv := iter_inv (a := 0) (n := n) (s := mem)
    (f := fun i mem => bootMapPage L mem (pageAt virt i) (pageAt phys i) flags)
    (fun _ t => Touched L L.pgPd (fun _ => True) mem t) (Touched.refl _ _ _ _)
    (by
      intro i t _ _ ht
      rw [bootMapPage_eq]
      exact ((ht.trans (touched_buildPde L.pgPd_ne_ptFrame _)).trans
        (touched_write (pageNo_lt _) L.pgPd_ne_ptFrame _)).mono fun _ _ => trivial)
  exact hinv

theorem bootMap_touched (L : Layout) (mem : PhysMem) (virt phys flags count : U32) :
    Touched L L.pgPd (fun _ => True) mem (bootMap L mem virt phys flags count) :=
  bootTurns_touched L mem virt phys flags count.toNat

theorem mapSection_touched (L : Layout) (s : Section) (flags phys virt : U32) (mem : PhysMem) :
    Touched L L.pgPd (fun _ => True) mem (mapSection L s flags phys virt mem) :=
  bootMap_touched L mem virt phys flags _

/-- An entry that is the slot of none of the pages stays what it is. -/
theorem mapSection_entry (L : Layout) (mem : PhysMem) {s : Section} (flags phys : U32) {virt : U32}
    {i : Slot} {n : Nat} (hn : ((s.stop - s.start + (pageSize - 1)) >>> 12).toNat = n)
    (hi : ∀ j, j < n → i ≠ pdIndex (pageAt virt j)) :
    mapSection L s flags phys virt mem L.pgPd i = mem L.pgPd i := by
  have hinv := iter_inv (a := 0) (n := n) (s := mem)
    (f := fun i mem => bootMapPage L mem (pageAt virt i) (pageAt phys i) flags)
    (fun _ t => t L.pgPd i = mem L.pgPd i) rfl
    (by
      intro j t _ hj ht
      rw [bootMapPage_eq, PhysMem.write_frame _ _ _ (L.pgPd_ne_ptFrame _),
        buildPde_other fun hc => hi j (by omega) hc.2, ht])
  rw [mapSection, bootMap, hn]
  exact hinv

/-- The tables after `.setup_recursive_mapping`. -/
def recursiveTables (L : Layout) (mem : PhysMem) : PhysMem :=
  setupRecursiveMapping L
    (iter (mapPdTurn L) (kvirt >>> 22).toNat (1023 - (kvirt >>> 22).toNat) mem)

/-- **`.map_pd` and `.setup_recursive_mapping`**: from cleared tables they
make the directory of the kernel, and nothing in it is not static. -/
theorem recursiveTables_dir (L : Layout) {mem : PhysMem} (hclr : BssClear L mem) :
    KernelDir L (recursiveTables L mem) L.pgPd ∧ Wired L 0 (recursiveTables L mem) L.pgPd := by
  have hk : (kvirt >>> 22).toNat = 768 := by decide
  let t := iter (mapPdTurn L) 768 (1023 - 768) mem
  have hinv := iter_inv (a := 768) (n := 1023 - 768) (s := mem) (f := mapPdTurn L)
    (fun i u => (∀ k : Slot, Present (u L.pgPd k) → frameOf (u L.pgPd k) = L.ptFrame k) ∧
      ∀ k : Slot, 768 ≤ k.toNat → k.toNat < i → Present (u L.pgPd k))
    ⟨fun k hp => by
      rw [hclr k] at hp
      exact absurd hp (by decide), fun k h1 h2 => by omega⟩
    (by
      rintro i u h1 h2 ⟨hs, hp⟩
      have hi : i < 1024 := by omega
      obtain ⟨he1, he2⟩ := mapPd_entry L hi
      rw [mapPdTurn, poke_dir L u hi]
      refine ⟨fun k hk => ?_, fun k hk1 hk2 => ?_⟩
      · by_cases hki : k = BitVec.ofNat 10 i
        · subst hki
          rw [PhysMem.write_same]
          exact he2
        · rw [PhysMem.write_other fun hc => hki hc.2] at hk ⊢
          exact hs k hk
      · by_cases hki : k = BitVec.ofNat 10 i
        · subst hki
          rw [PhysMem.write_same]
          exact he1
        · rw [PhysMem.write_other fun hc => hki hc.2]
          refine hp k hk1 ?_
          have hne : k.toNat ≠ i := by
            rintro rfl
            exact hki (BitVec.ofNat_toNat 10 k).symm
          omega)
  obtain ⟨hs, hp⟩ := hinv
  have hmem : recursiveTables L mem =
      PhysMem.write t L.pgPd (BitVec.ofNat 10 1023) (frameAddr L.pgPd ||| (pteRw ||| pteP)) := by
    rw [recursiveTables, hk, setupRecursiveMapping]
    exact poke_dir L t (by decide) _
  have hself : SelfMapped (recursiveTables L mem) L.pgPd := by
    rw [hmem]
    constructor
    · rw [PhysMem.write_same, present_iff, BitVec.getLsbD_or,
        show (pteRw ||| pteP).getLsbD 0 = true from rfl, Bool.or_true]
    · rw [PhysMem.write_same, frameOf_or_low (by decide), frameOf_frameAddr]
  have hother : ∀ k : Slot, k.toNat < 1023 → recursiveTables L mem L.pgPd k = t L.pgPd k := by
    intro k hk
    rw [hmem]
    apply PhysMem.write_other
    rintro ⟨_, rfl⟩
    exact absurd hk (by decide)
  have hwired : ∀ lo, Wired L lo (recursiveTables L mem) L.pgPd := fun lo =>
    ⟨hself, L.pgPd_ne_ptFrame, fun k _ h2 hk => by
      rw [hother k h2] at hk ⊢
      exact hs k hk⟩
  refine ⟨⟨hwired 768, fun k h1 h2 => ?_⟩, hwired 0⟩
  rw [hother k h2]
  exact hp k h1 (by omega)

/-- They write no other frame, and no user entry. -/
theorem recursiveTables_other (L : Layout) (mem : PhysMem) {f : Frame} {i : Slot}
    (hf : f = L.pgPd → i.toNat < 768) : recursiveTables L mem f i = mem f i := by
  have hk : (kvirt >>> 22).toNat = 768 := by decide
  have hne : ∀ k, 768 ≤ k → k < 1024 → ¬ (f = L.pgPd ∧ i = BitVec.ofNat 10 k) := by
    rintro k h1 h2 ⟨h3, rfl⟩
    have hlt := hf h3
    rw [BitVec.toNat_ofNat] at hlt
    omega
  have hinv := iter_inv (a := 768) (n := 1023 - 768) (s := mem) (f := mapPdTurn L)
    (fun _ u => u f i = mem f i) rfl (by
      intro k u h1 h2 hu
      rw [mapPdTurn, poke_dir L u (by omega), PhysMem.write_other (hne k h1 (by omega)), hu])
  rw [recursiveTables, hk, setupRecursiveMapping]
  rw [show (1023 * 4 : U32) = BitVec.ofNat 32 1023 * 4 from rfl, poke_dir L _ (by decide),
    PhysMem.write_other (hne 1023 (by decide) (by decide))]
  exact hinv

theorem startTables_touched (img : Image) (mem : PhysMem) :
    Touched img.toLayout img.pgPd (fun _ => True) (recursiveTables img.toLayout mem)
      (startTables img mem) :=
  ((((((mapSection_touched _ _ _ _ _ _).trans (mapSection_touched _ _ _ _ _ _)).trans
    (mapSection_touched _ _ _ _ _ _)).trans (mapSection_touched _ _ _ _ _ _)).trans
    (mapSection_touched _ _ _ _ _ _)).trans (mapSection_touched _ _ _ _ _ _)).mono
      fun _ _ => trivial

/-- **The tables `mminit` starts from.** -/
theorem bootMmu_dir (img : Image) {mem : PhysMem} (hclr : BssClear img.toLayout mem) :
    ∃ mem', bootMmu img mem = some ⟨mem', img.pgPd⟩ ∧
      KernelDir img.toLayout mem' img.pgPd ∧ Wired img.toLayout 0 mem' img.pgPd ∧
      ∀ f, f ≠ img.pgPd → (∀ i, f ≠ img.ptFrame i) → ∀ i, mem' f i = mem f i := by
  obtain ⟨hk, hw⟩ := recursiveTables_dir img.toLayout hclr
  have ht := startTables_touched img mem
  obtain ⟨hb1, hb2⟩ := img.boot_low
  have hkv : kvirt.toNat = 0xC0000000 := rfl
  have hcount : ((img.boot.stop + (pageSize - 1) - img.boot.start) >>> 12).toNat
      = (img.boot.stop.toNat + 4095 - img.boot.start.toNat) / 4096 := by
    have h1 : (img.boot.stop + (pageSize - 1)).toNat = img.boot.stop.toNat + 4095 := by
      have h2 : (pageSize - 1).toNat = 4095 := rfl
      rw [BitVec.toNat_add, h2]
      omega
    have h2 : img.boot.start ≤ img.boot.stop + (pageSize - 1) := by
      rw [BitVec.le_def]
      omega
    rw [BitVec.toNat_ushiftRight, Nat.shiftRight_eq_div_pow, BitVec.toNat_sub_of_le h2, h1]
  have hend : pageNo img.boot.start +
      ((img.boot.stop + (pageSize - 1) - img.boot.start) >>> 12).toNat ≤ 1023 * 1024 := by
    rw [hcount, pageNo]
    omega
  obtain ⟨mem', hrun, ht', _⟩ := pgUnmap_wired (m := ⟨startTables img mem, img.pgPd⟩) (hw.other ht)
    img.boot.start ((img.boot.stop + (pageSize - 1) - img.boot.start) >>> 12)
    (Nat.zero_le _) hend
  refine ⟨mem', hrun, (hk.other ht).other ht', (hw.other ht).other ht', fun f h1 h2 i => ?_⟩
  exact ((ht'.other f i h1 h2).trans (ht.other f i h1 h2)).trans (recursiveTables_other _ _ (absurd · h1))

/-! ## The boot mapper and `pg_map` -/

/-- A page: what `_map_page` writes through the window of the boot directory,
`_map` writes by physical addresses. -/
theorem mapPage_eq_bootMapPage (h : Wired L 0 mem L.pgPd) {virt : U32}
    (hr : InSlots 0 (pageNo virt)) (phys flags : U32) :
    mapPage L ⟨mem, L.pgPd⟩ virt phys flags
      = some ⟨bootMapPage L mem virt phys flags, L.pgPd⟩ := by
  rw [mapPage_eq L h.self, tableOf_wired h hr, bootMapPage_eq, slotOf_pageNo, wordOf_pageNo]

/-- **`pg_map`** under the boot directory leaves the memory that `map` leaves, for
every range below the window. -/
theorem pgMap_eq_bootMap (hself : SelfMapped mem L.pgPd)
    (hpde : ∀ i : Slot, i.toNat < 1023 → Present (mem L.pgPd i) →
      frameOf (mem L.pgPd i) = L.ptFrame i)
    {virt count : U32} (hr : ∀ i < count.toNat, pageNo virt + i < 0xFFC00000 / 4096)
    (phys flags : U32) :
    pgMap L ⟨mem, L.pgPd⟩ virt phys flags count
      = some ⟨bootMap L mem virt phys flags count, L.pgPd⟩ := by
  have hwired : Wired L 0 mem L.pgPd := ⟨hself, L.pgPd_ne_ptFrame, fun i _ hi hp => hpde i hi hp⟩
  -- the recursive entry, and the entries for the tables, outlast every turn
  have hloop := forFrom_some (a := 0) (n := count.toNat) (s := (⟨mem, L.pgPd⟩ : Mmu))
    (f := fun i m => mapPage L m (pageAt virt i) (pageAt phys i) flags)
    (fun k m => m = ⟨bootTurns L mem virt phys flags k, L.pgPd⟩) rfl
    (by
      rintro k _ _ hk rfl
      have hpage := hr k (by omega)
      have hno : pageNo (pageAt virt k) = pageNo virt + k := pageNo_pageAt (by omega)
      refine ⟨_, mapPage_eq_bootMapPage (hwired.touched (bootTurns_touched L mem virt phys flags k))
        ⟨by omega, by omega⟩ _ _, ?_⟩
      rw [bootTurns, bootTurns, iter_snoc, Nat.zero_add])
  obtain ⟨_, hrun, rfl⟩ := hloop
  rw [pgMap, hrun, Nat.zero_add, bootMap, bootTurns]

/-- A kernel image of 5 MiB. -/
def smallLayout : Layout where
  secKend := 0xC0511000
  pgPd := 0x110
  above := by decide
  below := by decide
  room := by decide

/-- Three pages from `0x3FF000` on, across the end of table 0, which is not there yet. -/
theorem pgMap_eq_bootMap_three :
    pgMap smallLayout ⟨recursiveTables smallLayout (fun _ _ => 0), smallLayout.pgPd⟩ 0x3FF000
        0x100000 pteRw 3
      = some ⟨bootMap smallLayout (recursiveTables smallLayout (fun _ _ => 0)) 0x3FF000 0x100000
          pteRw 3, smallLayout.pgPd⟩ := by
  have hclr : BssClear smallLayout fun _ _ => 0 := fun _ => rfl
  have hwired := (recursiveTables_dir smallLayout hclr).2
  exact pgMap_eq_bootMap hwired.self (fun i hi hp => hwired.tables i (Nat.zero_le _) hi hp)
    (by decide) 0x100000 pteRw

end Tomk
