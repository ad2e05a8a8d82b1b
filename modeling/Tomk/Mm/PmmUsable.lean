/-
# The pages `pmm_init` frees

`pmm_init` goes over the memory map twice.  The first pass counts the usable
pages and rounds every region inward: a page counts where a region contains
it.  The second pass, `pmm_mark_free`, rounds outward: a page is freed where
a region overlaps it.  Both compute the end of a region in 32 bits.

`PmmSound` is what `pmm_init` is for: a free page is not page 0 and is RAM
from its first byte to its last, and no more pages are free than are usable.
The outward rounding breaks both halves, for a region that begins or ends
inside a page.  `KPhysMap.Clean` is the exact condition on the map: where a
region cuts a page, the RAM regions together cover it; and the pages that
regions overlap but none contains are made up for by pages that are counted
more than once.  Or a region ends in the last page of the address space:
then the page count wraps to 0, and no page is free at all.
-/
import Mathlib.Algebra.BigOperators.Group.Finset.Piecewise
import Mathlib.Algebra.Order.BigOperators.Group.Finset
import Tomk.Mm.PmmInit

namespace Tomk

open WordBits Finset

/-! ## The map, read as sets of bytes and pages -/

/-- The end of a region, as `pmm_init` computes it. -/
def KPhysRegion.stop (r : KPhysRegion) : U32 := r.address + r.size

/-- The byte `b` of physical memory lies in a RAM region. -/
def KPhysMap.RamByte (map : KPhysMap) (b : Nat) : Prop :=
  ∃ r ∈ map.regions, r.isRam = true ∧ r.address.toNat ≤ b ∧ b < r.address.toNat + r.size.toNat

/-- Every byte of the page `q` does. -/
def KPhysMap.RamPage (map : KPhysMap) (q : Nat) : Prop :=
  ∀ b, q * 4096 ≤ b → b < q * 4096 + 4096 → map.RamByte b

/-- A region is passed over when it starts beyond every region's end: only one
whose own end wraps can. -/
def KPhysMap.Reaches (map : KPhysMap) (r : KPhysRegion) : Prop :=
  ∃ r' ∈ map.regions, r'.isRam = true ∧ r.address.toNat ≤ r'.stop.toNat

/-- The region shares a byte with the page. -/
def KPhysRegion.Overlaps (r : KPhysRegion) (q : Nat) : Prop :=
  r.address.toNat / 4096 ≤ q ∧ q * 4096 < r.stop.toNat

/-- The region begins or ends inside the page. -/
def KPhysRegion.Cuts (r : KPhysRegion) (q : Nat) : Prop :=
  r.Overlaps q ∧ (q * 4096 < r.address.toNat ∨ r.stop.toNat < q * 4096 + 4096)

/-- The page lies between the ends of the region rounded inward. -/
def KPhysRegion.Contains (r : KPhysRegion) (q : Nat) : Prop :=
  (align r.address pageSize).toNat ≤ q * 4096 ∧ q * 4096 + 4096 ≤ r.stop.toNat

instance (r : KPhysRegion) (q : Nat) : Decidable (r.Overlaps q) :=
  inferInstanceAs (Decidable (_ ∧ _))

instance (r : KPhysRegion) (q : Nat) : Decidable (r.Contains q) :=
  inferInstanceAs (Decidable (_ ∧ _))

instance (map : KPhysMap) (r : KPhysRegion) : Decidable (map.Reaches r) :=
  inferInstanceAs (Decidable (∃ r' ∈ map.regions, _))

/-- The page is not page 0, and a RAM region that is not passed over overlaps
it. -/
def KPhysMap.Touched (map : KPhysMap) (q : Nat) : Prop :=
  q ≠ 0 ∧ ∃ r ∈ map.regions, r.isRam = true ∧ map.Reaches r ∧ r.Overlaps q

instance (map : KPhysMap) (q : Nat) : Decidable (map.Touched q) :=
  inferInstanceAs (Decidable (_ ∧ _))

/-- How many RAM regions contain the page. -/
def KPhysMap.times (map : KPhysMap) (q : Nat) : Nat :=
  map.regions.countP fun r => r.isRam && decide (r.Contains q)

/-- The pages of a 32-bit address space.  Irreducible, so that no unifier
starts to list them. -/
@[irreducible] def pages : Finset Nat := range (2 ^ 20)

theorem mem_pages {q : Nat} : q ∈ pages ↔ q < 2 ^ 20 := by
  rw [pages, mem_range]

theorem card_pages : pages.card = 2 ^ 20 := by
  rw [pages, card_range]

/-- The touched pages that no region contains. -/
def KPhysMap.split (map : KPhysMap) : Finset Nat :=
  pages.filter fun q => map.Touched q ∧ map.times q = 0

/-- How often pages are counted beyond the one time a touched page needs. -/
def KPhysMap.surplus (map : KPhysMap) : Nat :=
  ∑ q ∈ pages, (map.times q - if map.Touched q then 1 else 0)

/-- The condition on the map. -/
structure KPhysMap.Whole (map : KPhysMap) : Prop where
  covered : ∀ r ∈ map.regions, r.isRam = true → map.Reaches r →
    ∀ q, q ≠ 0 → r.Cuts q → map.RamPage q
  made_up : map.split.card ≤ map.surplus

/-- A region ends in the last page of the address space. -/
def KPhysMap.EndsLast (map : KPhysMap) : Prop :=
  ∃ r ∈ map.regions, r.isRam = true ∧ 0xFFFFF000 < r.stop.toNat

def KPhysMap.Clean (map : KPhysMap) : Prop := map.EndsLast ∨ map.Whole

/-- What `pmm_init` is to leave. -/
structure PmmSound (map : KPhysMap) (s : Pmm) : Prop where
  free : ∀ q, q < s.bitmapSize.toNat * 8 → test s.bitmap q = false → q ≠ 0 ∧ map.RamPage q
  counted : s.freePages.toNat = clearCount s.bitmap s.totalPages.toNat
  usable : s.freePages.toNat ≤ s.usablePages.toNat
  used : s.usedPages.toNat = s.usablePages.toNat - s.freePages.toNat

/-! ## The first pass -/

/-- The pages a region contains, as an interval. -/
theorem card_contains (r : KPhysRegion) :
    (pages.filter r.Contains).card
      = r.stop.toNat / 4096 - (align r.address pageSize).toNat / 4096 := by
  have hlt := r.stop.isLt
  have ha := toNat_align_page r.address
  have hset : pages.filter r.Contains
      = Ico ((align r.address pageSize).toNat / 4096) (r.stop.toNat / 4096) := by
    ext q
    rw [mem_filter, mem_pages, mem_Ico, KPhysRegion.Contains]
    omega
  rw [hset, Nat.card_Ico]

/-- A turn of the first pass over a RAM region. -/
theorem pmmMeasure_ram (s : Pmm) {r : KPhysRegion} (hr : r.isRam = true) :
    (pmmMeasure s r).usablePages
        = s.usablePages + BitVec.ofNat 32 (pages.filter r.Contains).card ∧
      ∀ x, x < (pmmMeasure s r).memoryEnd.toNat ↔
        (x < s.memoryEnd.toNat ∨ x < r.stop.toNat) := by
  have hcard := card_contains r
  have halign := toNat_align_page r.address
  have hfloor := toNat_pageFloor r.stop
  have hstop := r.stop.isLt
  have hend : ∀ t : Pmm, t = (if s.memoryEnd < r.stop then { s with memoryEnd := r.stop } else s) →
      t.usablePages = s.usablePages ∧
        ∀ x, x < t.memoryEnd.toNat ↔ (x < s.memoryEnd.toNat ∨ x < r.stop.toNat) := by
    rintro t rfl
    split
    · next h =>
      rw [BitVec.lt_def] at h
      exact ⟨rfl, fun x => by show x < r.stop.toNat ↔ _; omega⟩
    · next h =>
      rw [BitVec.lt_def] at h
      exact ⟨rfl, fun x => by omega⟩
  simp only [pmmMeasure, if_pos hr, ← KPhysRegion.stop.eq_1]
  generalize (if s.memoryEnd < r.stop then { s with memoryEnd := r.stop } else s) = t at hend ⊢
  obtain ⟨hu, hx⟩ := hend t rfl
  split
  · next h =>
    rw [BitVec.lt_def, hfloor] at h
    have hpages : toPage ((r.stop &&& ~~~(pageSize - 1)) - align r.address pageSize)
        = BitVec.ofNat 32 (pages.filter r.Contains).card := by
      apply BitVec.eq_of_toNat_eq
      rw [toNat_toPage, BitVec.toNat_sub_of_le (by rw [BitVec.le_def]; omega), hfloor,
        BitVec.toNat_ofNat, hcard]
      omega
    rw [← hpages, ← hu]
    exact ⟨rfl, hx⟩
  · next h =>
    rw [BitVec.lt_def, hfloor] at h
    rw [hu, hcard, show r.stop.toNat / 4096 - (align r.address pageSize).toNat / 4096 = 0 by omega]
    exact ⟨(BitVec.add_zero _).symm, hx⟩

/-- How many regions of a list contain the page. -/
def timesIn (rs : List KPhysRegion) (q : Nat) : Nat :=
  rs.countP fun r => r.isRam && decide (r.Contains q)

theorem sum_timesIn_cons (r : KPhysRegion) (rs : List KPhysRegion) :
    ∑ q ∈ pages, timesIn (r :: rs) q
      = ∑ q ∈ pages, timesIn rs q + if r.isRam then (pages.filter r.Contains).card else 0 := by
  simp only [timesIn, List.countP_cons, sum_add_distrib]
  congr 1
  cases r.isRam with
  | false => simp
  | true => simp only [Bool.true_and, decide_eq_true_eq, if_true, card_filter]

theorem measure_usable (rs : List KPhysRegion) (s : Pmm) :
    (rs.foldl pmmMeasure s).usablePages
      = s.usablePages + BitVec.ofNat 32 (∑ q ∈ pages, timesIn rs q) := by
  induction rs generalizing s with
  | nil =>
      rw [show ∑ q ∈ pages, timesIn [] q = 0 from sum_const_zero]
      exact (BitVec.add_zero _).symm
  | cons r rs ih =>
      rw [List.foldl_cons, ih, sum_timesIn_cons, BitVec.ofNat_add]
      by_cases hr : r.isRam = true
      · rw [(pmmMeasure_ram s hr).1, if_pos hr]
        ac_rfl
      · rw [pmmMeasure, if_neg hr, if_neg hr]
        exact congrArg _ (BitVec.add_zero _).symm

/-- Everything below the end of memory lies below a region's end. -/
theorem measure_lt_end (rs : List KPhysRegion) (s : Pmm) (x : Nat) :
    x < (rs.foldl pmmMeasure s).memoryEnd.toNat ↔
      (x < s.memoryEnd.toNat ∨ ∃ r ∈ rs, r.isRam = true ∧ x < r.stop.toNat) := by
  induction rs generalizing s with
  | nil => simp only [List.foldl_nil, List.not_mem_nil, false_and, exists_false, or_false]
  | cons r rs ih =>
      rw [List.foldl_cons, ih, List.exists_mem_cons_iff, ← or_assoc]
      by_cases hr : r.isRam = true
      · rw [(pmmMeasure_ram s hr).2 x, and_iff_right hr]
      · rw [pmmMeasure, if_neg hr]
        simp only [hr, false_and, or_false, Bool.false_eq_true]

variable {map : KPhysMap} {before : Pmm}

theorem KPhysMap.times_le (map : KPhysMap) (q : Nat) : map.times q ≤ 10 :=
  List.countP_le_length.trans map.bounded

/-- The pages the first pass counts: ten regions have fewer than `2 ^ 32`. -/
theorem pmmSizes_usable :
    (pmmSizes before map).usablePages.toNat = ∑ q ∈ pages, map.times q := by
  have hle : ∑ q ∈ pages, map.times q ≤ ∑ _q ∈ pages, 10 :=
    sum_le_sum fun q _ => map.times_le q
  rw [sum_const, card_pages] at hle
  have h : (pmmSizes before map).usablePages = 0#32 + BitVec.ofNat 32 (∑ q ∈ pages, map.times q) :=
    measure_usable map.regions { before with memoryEnd := 0, usablePages := 0 }
  rw [h, BitVec.zero_add, BitVec.toNat_ofNat, Nat.mod_eq_of_lt]
  exact Nat.lt_of_le_of_lt hle (by decide)

theorem pmmSizes_lt_end (x : Nat) :
    x < (pmmSizes before map).memoryEnd.toNat ↔
      ∃ r ∈ map.regions, r.isRam = true ∧ x < r.stop.toNat := by
  have h := measure_lt_end map.regions { before with memoryEnd := 0, usablePages := 0 } x
  have h0 : ¬ x < (0 : U32).toNat := Nat.not_lt_zero x
  rwa [or_iff_right h0] at h

/-- A region of the map is passed over exactly when it starts beyond the end
of memory. -/
theorem reaches_iff {r : KPhysRegion} (hr : r ∈ map.regions) (hram : r.isRam = true) :
    map.Reaches r ↔ ¬ (pmmSizes before map).memoryEnd < r.address := by
  rw [BitVec.lt_def, Nat.not_lt]
  rcases Nat.eq_zero_or_pos r.address.toNat with h0 | hpos
  · rw [h0]
    exact ⟨fun _ => Nat.zero_le _, fun _ => ⟨r, hr, hram, by rw [h0]; exact Nat.zero_le _⟩⟩
  · have h := @pmmSizes_lt_end map before (r.address.toNat - 1)
    constructor
    · rintro ⟨r', hr', hram', hle⟩
      have := h.mpr ⟨r', hr', hram', by omega⟩
      omega
    · intro hle
      obtain ⟨r', hr', hram', hlt⟩ := h.mp (by omega)
      exact ⟨r', hr', hram', by omega⟩

theorem endsLast_iff : map.EndsLast ↔ 0xFFFFF000 < (pmmSizes before map).memoryEnd.toNat :=
  (pmmSizes_lt_end _).symm

/-! ## The second pass -/

/-- `t` is `s` with other bits, and what the free pages gained the used ones
lost. -/
structure Pmm.Moved (s t : Pmm) : Prop where
  frame : t = { s with bitmap := t.bitmap, freePages := t.freePages, usedPages := t.usedPages }
  sum : t.freePages + t.usedPages = s.freePages + s.usedPages

theorem Pmm.Moved.trans {s t u : Pmm} (h : s.Moved t) (h' : t.Moved u) : s.Moved u where
  frame := by
    rw [h'.frame, h.frame]
  sum := h'.sum.trans h.sum

theorem Pmm.Marked.moved {v : Bool} {s t : Pmm} {lo hi : Nat} (h : s.Marked v t lo hi) :
    s.Moved t :=
  ⟨h.frame, h.tally.sum⟩

/-- The loop over the regions. -/
theorem pmmMarkRegions_moved {s : Pmm} (hs : s.Shape) (rs : List KPhysRegion) :
    s.Moved (rs.foldl (fun s r => if r.isRam then pmmMarkFree s r.address r.size else s) s) := by
  induction rs generalizing s with
  | nil => exact ⟨rfl, rfl⟩
  | cons r rs ih =>
      rw [List.foldl_cons]
      split
      · obtain ⟨lo, hi, hm⟩ := pmmMarkFree_some hs r.address r.size
        exact hm.moved.trans (ih (hm.shape hs))
      · exact ih hs

/-- The pages one call of `pmm_mark_free` makes free. -/
theorem pmmMarkFree_clear {s : Pmm} (hs : s.Shape) (phys size : U32) {q : Nat}
    (hq : q < s.totalPages.toNat) :
    test (pmmMarkFree s phys size).bitmap q = false ↔
      (test s.bitmap q = false ∨
        ¬ s.memoryEnd < phys ∧ markLo phys ≤ q ∧ q < markHi phys size) := by
  by_cases hphys : s.memoryEnd < phys
  · rw [pmmMarkFree_beyond size hphys]
    exact ⟨Or.inl, fun h => h.elim id fun h => absurd hphys h.1⟩
  · rw [(pmmMarkFree_marked hs phys size hphys).bits q]
    by_cases hin : markLo phys ≤ q ∧ q < markHi phys size
    · rw [if_pos (by omega)]
      exact ⟨fun _ => Or.inr ⟨hphys, hin⟩, fun _ => rfl⟩
    · rw [if_neg (by omega)]
      exact ⟨Or.inl, fun h => h.elim id fun h => absurd h.2 hin⟩

theorem pmmMarkRegions_clear {s : Pmm} (hs : s.Shape) (rs : List KPhysRegion) {q : Nat}
    (hq : q < s.totalPages.toNat) :
    test (rs.foldl (fun s r => if r.isRam then pmmMarkFree s r.address r.size else s) s).bitmap q
        = false ↔
      (test s.bitmap q = false ∨ ∃ r ∈ rs, r.isRam = true ∧
        ¬ s.memoryEnd < r.address ∧ markLo r.address ≤ q ∧ q < markHi r.address r.size) := by
  induction rs generalizing s with
  | nil => simp only [List.foldl_nil, List.not_mem_nil, false_and, exists_false, or_false]
  | cons r rs ih =>
      rw [List.foldl_cons, List.exists_mem_cons_iff, ← or_assoc]
      by_cases hr : r.isRam = true
      · obtain ⟨lo, hi, hm⟩ := pmmMarkFree_some hs r.address r.size
        rw [if_pos hr, ih (hm.shape hs) (by rw [hm.total]; exact hq),
          pmmMarkFree_clear hs r.address r.size hq, hm.memoryEnd, and_iff_right hr]
      · have hno : ¬ (r.isRam = true ∧ ¬ s.memoryEnd < r.address ∧ markLo r.address ≤ q ∧
            q < markHi r.address r.size) := fun h => hr h.1
        rw [if_neg hr, ih hs hq, or_iff_left hno]

/-- What `pmm_init` leaves differs from the sizes it computed by bits only. -/
theorem pmmInit_moved : (pmmSizes before map).Moved (pmmFill (pmmSizes before map) map) := by
  have hs := pmmSizes_shape before map
  have hfill := pmmFill_start hs rfl
  have h1 := pmmMarkRegions_moved hfill.shape map.regions
  have hc := pmmMarkRegions_counting hfill map.regions
  have h2 := (pmmMarkUsed_marked hc.shape 0 0x1000 (Nat.not_lt_zero _)).moved
  refine Pmm.Moved.trans ?_ (h1.trans h2)
  exact ⟨rfl, rfl⟩

theorem pmmInit_memoryEnd :
    (pmmFill (pmmSizes before map) map).memoryEnd = (pmmSizes before map).memoryEnd := by
  rw [pmmInit_moved.frame]

/-! ## Where no region ends in the last page -/

/-- The page count, rounded up. -/
theorem pmmSizes_total (h : ¬ map.EndsLast) :
    (pmmSizes before map).totalPages.toNat
      = ((pmmSizes before map).memoryEnd.toNat + 4095) / 4096 := by
  rw [@endsLast_iff map before] at h
  have h1 : (pageSize - 1).toNat = 4095 := rfl
  show (toPage ((pmmSizes before map).memoryEnd + (pageSize - 1))).toNat = _
  rw [toNat_toPage, BitVec.toNat_add, h1]
  omega

theorem stop_le_end {r : KPhysRegion} (hr : r ∈ map.regions) (hram : r.isRam = true) :
    r.stop.toNat ≤ (pmmSizes before map).memoryEnd.toNat := by
  by_contra hno
  have h := (@pmmSizes_lt_end map before _).mpr ⟨r, hr, hram, Nat.not_le.mp hno⟩
  exact Nat.lt_irrefl _ h

/-- The outward rounding of the second pass is overlap. -/
theorem mark_iff_overlaps (h : ¬ map.EndsLast) {r : KPhysRegion} (hr : r ∈ map.regions)
    (hram : r.isRam = true) (q : Nat) :
    (markLo r.address ≤ q ∧ q < markHi r.address r.size) ↔ r.Overlaps q := by
  have hstop : ¬ 0xFFFFF000 < r.stop.toNat := fun hlt => h ⟨r, hr, hram, hlt⟩
  have h1 : (pageSize - 1).toNat = 4095 := rfl
  have hhi : markHi r.address r.size = (r.stop.toNat + 4095) % 2 ^ 32 / 4096 := by
    rw [markHi, BitVec.toNat_add, h1]
    rfl
  rw [hhi, markLo, KPhysRegion.Overlaps]
  omega

theorem touched_lt_total (h : ¬ map.EndsLast) {q : Nat} (hq : map.Touched q) :
    q < (pmmSizes before map).totalPages.toNat := by
  obtain ⟨_, r, hr, hram, _, _, hlt⟩ := hq
  have hle := @stop_le_end map before r hr hram
  rw [pmmSizes_total h]
  omega

/-- **The free pages**: the touched ones. -/
theorem pmmInit_clear_iff (h : ¬ map.EndsLast) {q : Nat}
    (hq : q < (pmmSizes before map).totalPages.toNat) :
    test (pmmFill (pmmSizes before map) map).bitmap q = false ↔ map.Touched q := by
  have hs := pmmSizes_shape before map
  have hfill := pmmFill_start hs rfl
  have hc := pmmMarkRegions_counting hfill map.regions
  have hz := pmmMarkRegions_sized hfill.shape rfl map.regions
  have htot := (pmmMarkRegions_moved hfill.shape map.regions).frame
  -- after the `memset` every page is in use
  have hset : test (w := 32) (fun i => if i < (pmmSizes before map).bitmapSize.toNat / 4 then
      0xFFFFFFFF#32 else (pmmSizes before map).bitmap i) q ≠ false := by
    intro hf
    have hpos := clearCount_pos.mpr ⟨q, hq, hf⟩
    rw [← hfill.counted] at hpos
    exact Nat.lt_irrefl _ hpos
  have hregions := pmmMarkRegions_clear hfill.shape map.regions hq
  rw [or_iff_right hset] at hregions
  have hhi : markHi 0 0x1000 = 1 := rfl
  have hlo : markLo 0 = 0 := rfl
  have hused := pmmMarkUsed_bits hc.shape hz 0 0x1000 rfl (q := q) (by rw [htot]; exact hq)
  have hinit : test (pmmFill (pmmSizes before map) map).bitmap q = _ := hused
  rw [hinit, Bool.or_eq_false_iff, decide_eq_false_iff_not, hregions, hhi, hlo]
  refine and_congr (by omega) ?_
  constructor
  · rintro ⟨r, hr, hram, hend, hin⟩
    exact ⟨r, hr, hram, (reaches_iff hr hram).mpr hend, (mark_iff_overlaps h hr hram q).mp hin⟩
  · rintro ⟨r, hr, hram, hreach, hin⟩
    exact ⟨r, hr, hram, (reaches_iff hr hram).mp hreach, (mark_iff_overlaps h hr hram q).mpr hin⟩

/-! ## The two halves of the condition -/

/-- A page that a region overlaps and does not cut lies in the region. -/
theorem ramPage_of_not_cuts {r : KPhysRegion} (hr : r ∈ map.regions) (hram : r.isRam = true)
    {q : Nat} (hover : r.Overlaps q) (hcut : ¬ r.Cuts q) : map.RamPage q := by
  have hin : ¬ (q * 4096 < r.address.toNat ∨ r.stop.toNat < q * 4096 + 4096) :=
    fun h => hcut ⟨hover, h⟩
  have hstop : r.stop.toNat = (r.address.toNat + r.size.toNat) % 2 ^ 32 := BitVec.toNat_add _ _
  have hsize := r.size.isLt
  intro b h1 h2
  exact ⟨r, hr, hram, by omega, by omega⟩

theorem touched_ram_iff :
    (∀ q, map.Touched q → map.RamPage q) ↔
      ∀ r ∈ map.regions, r.isRam = true → map.Reaches r →
        ∀ q, q ≠ 0 → r.Cuts q → map.RamPage q := by
  constructor
  · intro h r hr hram hreach q h0 hcut
    exact h q ⟨h0, r, hr, hram, hreach, hcut.1⟩
  · rintro h q ⟨h0, r, hr, hram, hreach, hover⟩
    by_cases hcut : r.Cuts q
    · exact h r hr hram hreach q h0 hcut
    · exact ramPage_of_not_cuts hr hram hover hcut

/-- A sum is at most another exactly when what it has more is at most what it
has less. -/
theorem sum_le_sum_iff_sub {ι : Type} (P : Finset ι) (f g : ι → Nat) :
    ∑ q ∈ P, f q ≤ ∑ q ∈ P, g q ↔ ∑ q ∈ P, (f q - g q) ≤ ∑ q ∈ P, (g q - f q) := by
  have h : ∑ q ∈ P, f q + ∑ q ∈ P, (g q - f q) = ∑ q ∈ P, g q + ∑ q ∈ P, (f q - g q) := by
    rw [← sum_add_distrib, ← sum_add_distrib]
    exact sum_congr rfl fun q _ => by omega
  omega

theorem touched_le_iff :
    (pages.filter map.Touched).card ≤ ∑ q ∈ pages, map.times q ↔
      map.split.card ≤ map.surplus := by
  have hsplit : map.split.card
      = ∑ q ∈ pages, ((if map.Touched q then 1 else 0) - map.times q) := by
    rw [KPhysMap.split, card_filter]
    refine sum_congr rfl fun q _ => ?_
    by_cases hq : map.Touched q
    · rcases Nat.eq_zero_or_pos (map.times q) with h0 | hpos
      · rw [if_pos ⟨hq, h0⟩, if_pos hq, h0]
      · rw [if_neg fun h => by omega, if_pos hq]
        omega
    · rw [if_neg fun h => hq h.1, if_neg hq, Nat.zero_sub]
  rw [card_filter, sum_le_sum_iff_sub, hsplit, KPhysMap.surplus]

theorem pmmInit_free_eq (h : ¬ map.EndsLast) :
    (pmmFill (pmmSizes before map) map).freePages.toNat = (pages.filter map.Touched).card := by
  have htot : (pmmFill (pmmSizes before map) map).totalPages = (pmmSizes before map).totalPages := by
    rw [pmmInit_moved.frame]
  rw [(pmmInit_consistent before map).counted, htot, clearCount]
  congr 1
  ext q
  rw [mem_clearSet, mem_filter, mem_pages]
  have hlt := (pmmSizes_shape before map).total_lt
  constructor
  · rintro ⟨h1, h2⟩
    exact ⟨by omega, (pmmInit_clear_iff h h1).mp h2⟩
  · rintro ⟨_, h2⟩
    have h1 := @touched_lt_total map before h _ h2
    exact ⟨h1, (pmmInit_clear_iff h h1).mpr h2⟩

/-! ## The state `pmm_init` leaves -/

/-- The used pages do not wrap where the free ones are no more than the
usable ones. -/
theorem pmmInit_used
    (h : (pmmFill (pmmSizes before map) map).freePages.toNat
      ≤ (pmmFill (pmmSizes before map) map).usablePages.toNat) :
    (pmmFill (pmmSizes before map) map).usedPages.toNat
      = (pmmFill (pmmSizes before map) map).usablePages.toNat
        - (pmmFill (pmmSizes before map) map).freePages.toNat := by
  have hm := @pmmInit_moved map before
  have hsum : (pmmFill (pmmSizes before map) map).freePages
      + (pmmFill (pmmSizes before map) map).usedPages = 0#32 + (pmmSizes before map).usablePages :=
    hm.sum
  have husable : (pmmFill (pmmSizes before map) map).usablePages
      = (pmmSizes before map).usablePages := by
    rw [hm.frame]
  generalize pmmFill (pmmSizes before map) map = t at h hsum husable ⊢
  rw [BitVec.zero_add, ← husable] at hsum
  rw [← BitVec.toNat_sub_of_le h, ← hsum, BitVec.add_comm, BitVec.add_sub_cancel]

/-- With a region that ends in the last page the page count is 0. -/
theorem pmmInit_endsLast (h : map.EndsLast) : PmmSound map (pmmFill (pmmSizes before map) map) := by
  have hc := pmmInit_consistent before map
  have htot : (pmmFill (pmmSizes before map) map).totalPages.toNat = 0 := by
    have h1 : (pageSize - 1).toNat = 4095 := rfl
    have hend := (@endsLast_iff map before).mp h
    have hlt := (pmmSizes before map).memoryEnd.isLt
    rw [pmmInit_sized before map, pmmInit_memoryEnd, toNat_toPage, BitVec.toNat_add, h1]
    omega
  have hsize := hc.shape.size_eq
  have hcount := hc.counted
  have hle := clearCount_le (pmmFill (pmmSizes before map) map).bitmap 0
  rw [htot] at hsize hcount
  have husable : (pmmFill (pmmSizes before map) map).freePages.toNat
      ≤ (pmmFill (pmmSizes before map) map).usablePages.toNat := by omega
  exact ⟨fun q hq => absurd hq (by omega), hc.counted, husable, pmmInit_used husable⟩

/-- Elsewhere the two halves of the condition are the two halves of
soundness. -/
theorem pmmInit_whole (h : ¬ map.EndsLast) :
    PmmSound map (pmmFill (pmmSizes before map) map) ↔ map.Whole := by
  have hc := pmmInit_consistent before map
  have hm := @pmmInit_moved map before
  have htot : (pmmFill (pmmSizes before map) map).totalPages = (pmmSizes before map).totalPages := by
    rw [hm.frame]
  have husable : (pmmFill (pmmSizes before map) map).usablePages.toNat
      = ∑ q ∈ pages, map.times q := by
    rw [hm.frame]
    exact pmmSizes_usable
  have hfree := @pmmInit_free_eq map before h
  have hwords := hc.shape.size_eq
  constructor
  · intro hs
    refine ⟨touched_ram_iff.mp fun q hq => ?_, touched_le_iff.mp ?_⟩
    · have hlt := @touched_lt_total map before h _ hq
      exact (hs.free q (by rw [htot] at hwords; omega) ((pmmInit_clear_iff h hlt).mpr hq)).2
    · rw [← hfree, ← husable]
      exact hs.usable
  · rintro ⟨hcov, hmade⟩
    have hle := touched_le_iff.mpr hmade
    rw [← hfree, ← husable] at hle
    refine ⟨fun q hq hclr => ?_, hc.counted, hle, pmmInit_used hle⟩
    by_cases hlt : q < (pmmSizes before map).totalPages.toNat
    · have htouch := (pmmInit_clear_iff h hlt).mp hclr
      exact ⟨htouch.1, touched_ram_iff.mpr hcov q htouch⟩
    · -- the bits beyond the last page are set
      rw [htot] at hwords
      have hset := hc.tail q (by rw [htot]; omega) (by omega)
      exact Bool.noConfusion (hset.symm.trans hclr)

/-- **Which maps `pmm_init` is sound for.** -/
theorem pmmInit_sound_iff (before : Pmm) (map : KPhysMap) :
    PmmSound map (pmmFill (pmmSizes before map) map) ↔ map.Clean := by
  by_cases h : map.EndsLast
  · exact ⟨fun _ => Or.inl h, fun _ => pmmInit_endsLast h⟩
  · rw [pmmInit_whole h, KPhysMap.Clean, or_iff_right h]

/-- The lower memory of a PC: 639 KiB of RAM at address 0, so that the region
ends inside page `0x9F`. -/
def lowerMemory : KPhysMap := ⟨[⟨0, 0x9FC00, 3⟩], by decide⟩

/-- After `pmm_init` the page `0x9F` is free, and its last 1024 bytes are no
RAM. -/
theorem pmmInit_frees_cut_page :
    ¬ ∀ (before : Pmm) (map : KPhysMap), map.regions ≠ [] →
      PmmSound map (pmmFill (pmmSizes before map) map) := by
  intro hall
  have hs := hall zeroPmm lowerMemory (List.cons_ne_nil _ _)
  have hends : ¬ lowerMemory.EndsLast := by
    rintro ⟨r, hr, _, hlt⟩
    rw [lowerMemory, List.mem_singleton] at hr
    rw [hr] at hlt
    exact absurd hlt (by decide)
  have htouch : lowerMemory.Touched 0x9F := by decide
  have hsize : 0x9F < (pmmFill (pmmSizes zeroPmm lowerMemory) lowerMemory).bitmapSize.toNat * 8 := by
    rw [pmmInit_moved.frame]
    decide
  have hclr := (@pmmInit_clear_iff _ zeroPmm hends _ (by decide)).mpr htouch
  obtain ⟨r, hr, _, _, hlt⟩ := (hs.free 0x9F hsize hclr).2 0x9FC00 (by decide) (by decide)
  rw [lowerMemory, List.mem_singleton] at hr
  rw [hr] at hlt
  exact absurd hlt (by decide)

end Tomk
