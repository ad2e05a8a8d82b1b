/-
# PMM accounting over whole runs

A run is a sequence of `pmm_alloc` and `pmm_free` calls from the state
`pmm_init` leaves, each release naming a range that an earlier call
returned and no call released since; `PmmRun` keeps those live ranges next
to the state.  The property asked of a run has two parts: every state
counts its clear bits (`Pmm.Accounts`), and every call changes the bits it
should (`CallOk`).

`pmm_free` clears one bit whatever its count, because its loop adds
`TO_PAGE(i)` to the address where `TO_ADDR(i)` is meant.  So the property
fails for a release of two pages, and `pmmRun_accounting` says that this is
the only way it fails: as long as every release is of one page, every state
of the run counts its clear bits, and from every such state a call does
what it should exactly when it is not a release of several pages.

The invariant of the induction is `PmmRun.Inv`: the manager is consistent,
and the live ranges are ranges of used pages, pairwise disjoint.
-/
import Tomk.Lib.Runs
import Tomk.Mm.PmmFrames

namespace Tomk

open WordBits Runs

/-- The states `pmm_init` leaves, whatever the memory behind the bitmap held
before. -/
def PmmStart (s : Pmm) : Prop :=
  ∃ (before : Pmm) (map : KPhysMap), map.regions ≠ [] ∧ s = pmmFill (pmmSizes before map) map

structure PmmRun where
  pmm : Pmm
  live : List (U32 × U32)

inductive PmmCall where
  | alloc (n : U32)
  | free (phys n : U32)

inductive PmmStep : PmmCall → PmmRun → PmmRun → Prop
  | alloc (n : U32) (r : PmmRun) :
      PmmStep (.alloc n) r
        ⟨(pmmAlloc r.pmm n).2,
          if (pmmAlloc r.pmm n).1 = 0 then r.live else ((pmmAlloc r.pmm n).1, n) :: r.live⟩
  | free {phys n : U32} {r : PmmRun} : (phys, n) ∈ r.live →
      PmmStep (.free phys n) r ⟨pmmFree r.pmm phys n, r.live.erase (phys, n)⟩

def PmmRunStart (r : PmmRun) : Prop := PmmStart r.pmm ∧ r.live = []

/-- `free_pages` is the number of clear bits below `total_pages`. -/
def Pmm.Accounts (s : Pmm) : Prop :=
  s.freePages.toNat = clearCount s.bitmap s.totalPages.toNat

/-- The bits a call is to change: a successful allocation of `n` pages sets
exactly `n` bits, a release clears exactly the bits of its range. -/
def CallOk : PmmCall → PmmRun → PmmRun → Prop
  | .alloc n, r, r' => (pmmAlloc r.pmm n).1 ≠ 0 →
      ∃ B : Finset Nat, B.card = n.toNat ∧ (∀ q ∈ B, test r.pmm.bitmap q = false) ∧
        ∀ q, test r'.pmm.bitmap q = true ↔ (test r.pmm.bitmap q = true ∨ q ∈ B)
  | .free phys n, r, r' =>
      ∀ q, test r'.pmm.bitmap q = true ↔
        (test r.pmm.bitmap q = true ∧
          ¬ (phys.toNat / 4096 ≤ q ∧ q < phys.toNat / 4096 + n.toNat))

/-- The property as it is asked: of every run, with releases of any size. -/
def PmmAccounting : Prop :=
  ∀ r, Reach PmmRunStart PmmStep r →
    r.pmm.Accounts ∧ ∀ a r', PmmStep a r r' → CallOk a r r'

/-- The calls that do what they should: all but the release of several pages. -/
def SinglePage : PmmCall → PmmRun → Prop
  | .alloc _, _ => True
  | .free _ n, _ => n = 1

/-! ## The invariant -/

/-- The pages of a range do not meet those of another. -/
def RangesDisjoint (x y : U32 × U32) : Prop :=
  x.1.toNat / 4096 + x.2.toNat ≤ y.1.toNat / 4096 ∨ y.1.toNat / 4096 + y.2.toNat ≤ x.1.toNat / 4096

/-- A live range is a range `pmm_free` accepts, of pages in use other than
page 0. -/
structure LiveRange (s : Pmm) (x : U32 × U32) : Prop where
  frees : s.Frees x.1 x.2
  pos : 0 < x.1.toNat / 4096
  used : ∀ i, i < x.2.toNat → test s.bitmap (x.1.toNat / 4096 + i) = true

/-- The live ranges of a run: ranges of used pages, pairwise disjoint. -/
structure LiveRanges (s : Pmm) (live : List (U32 × U32)) : Prop where
  ranges : ∀ x ∈ live, LiveRange s x
  disjoint : live.Pairwise RangesDisjoint

structure PmmRun.Inv (r : PmmRun) : Prop where
  consistent : r.pmm.Consistent
  ranges : ∀ x ∈ r.live, LiveRange r.pmm x
  disjoint : r.live.Pairwise RangesDisjoint

theorem LiveRanges.nil (s : Pmm) : LiveRanges s [] :=
  ⟨fun _ hx => absurd hx List.not_mem_nil, List.Pairwise.nil⟩

/-- A range that was taken out of clear pages does not meet a live one. -/
theorem LiveRange.disjoint_taken {s : Pmm} {x y : U32 × U32} {p : Nat} (hx : LiveRange s x)
    (hy0 : y.2 ≠ 0) (hy : y.1.toNat / 4096 = p) (hf : FreeRun s.bitmap p y.2.toNat) :
    RangesDisjoint y x := by
  have hx0 := toNat_pos_of_ne hx.frees.count_ne
  have hpos := toNat_pos_of_ne hy0
  by_contra hno
  rw [RangesDisjoint, hy] at hno
  -- the two ranges share the later of their two first pages
  rcases Nat.le_total p (x.1.toNat / 4096) with hle | hle
  · have h3 := hf (x.1.toNat / 4096 - p) (by omega)
    have h4 := hx.used 0 hx0
    rw [show p + (x.1.toNat / 4096 - p) = x.1.toNat / 4096 + 0 by omega, h4] at h3
    exact Bool.noConfusion h3
  · have h3 := hf 0 hpos
    have h4 := hx.used (p - x.1.toNat / 4096) (by omega)
    rw [show x.1.toNat / 4096 + (p - x.1.toNat / 4096) = p + 0 by omega, h3] at h4
    exact Bool.noConfusion h4

/-- A live range stays one as long as its pages stay in use. -/
theorem LiveRange.mono {s t : Pmm} {x : U32 × U32} (h : LiveRange s x)
    (htot : t.totalPages = s.totalPages)
    (hused : ∀ i, i < x.2.toNat → test t.bitmap (x.1.toNat / 4096 + i) = true) :
    LiveRange t x :=
  ⟨⟨h.frees.count_ne, h.frees.aligned, by rw [htot]; exact h.frees.in_range⟩, h.pos, hused⟩

/-- The live ranges after a call of `pmm_alloc`. -/
theorem LiveRanges.alloc {s : Pmm} {live : List (U32 × U32)} (h : LiveRanges s live)
    (hs : s.Shape) (hz : 0 < s.totalPages.toNat → test s.bitmap 0 = true) (n : U32) :
    LiveRanges (pmmAlloc s n).2
      (if (pmmAlloc s n).1 = 0 then live else ((pmmAlloc s n).1, n) :: live) := by
  rcases pmmAlloc_cases hs n with ⟨hint, lr, hr⟩ | ⟨p, hint, lr, hn, _, hp, hf, hr⟩
  · rw [hr, if_pos rfl]
    exact ⟨fun x hx => (h.ranges x hx).mono rfl (h.ranges x hx).used, h.disjoint⟩
  · have hpos := toNat_pos_of_ne hn
    have hp0 := freeRun_pos hz hpos hp hf
    have htl := hs.total_lt
    obtain ⟨hne, hdiv, hmod⟩ := runAddr hp0 (by omega)
    rw [hr, if_neg hne]
    refine ⟨fun x hx => ?_, ?_⟩
    · rcases List.mem_cons.mp hx with rfl | hx
      · refine ⟨⟨hn, hmod, ?_⟩, ?_, fun i hi => ?_⟩
        · show (toAddr (BitVec.ofNat 32 p)).toNat / 4096 + n.toNat ≤ s.totalPages.toNat
          omega
        · show 0 < (toAddr (BitVec.ofNat 32 p)).toNat / 4096
          omega
        · show test (setRun s.bitmap p n.toNat)
            ((toAddr (BitVec.ofNat 32 p)).toNat / 4096 + i) = true
          rw [test_setRun, hdiv, decide_eq_true (by have : i < n.toNat := hi; omega)]
          rfl
      · refine (h.ranges x hx).mono rfl fun i hi => ?_
        show test (setRun s.bitmap p n.toNat) _ = true
        rw [test_setRun, (h.ranges x hx).used i hi, Bool.or_true]
    · -- the new range was clear, the older ones were used
      exact List.pairwise_cons.mpr
        ⟨fun x hx => (h.ranges x hx).disjoint_taken hn hdiv hf, h.disjoint⟩

/-- The other live ranges do not meet a live range. -/
theorem disjoint_of_mem_erase {x y : U32 × U32} {l : List (U32 × U32)}
    (h : l.Pairwise RangesDisjoint) (hx : x ∈ l) (hy : y ∈ l.erase x) : RangesDisjoint x y := by
  have hperm := List.perm_cons_erase hx
  have hsymm : ∀ {a b : U32 × U32}, RangesDisjoint a b → RangesDisjoint b a := fun h => h.symm
  exact (List.pairwise_cons.mp ((hperm.pairwise_iff hsymm).mp h)).1 y hy

/-- The live ranges after the release of one of them, whatever its count:
only the bit of its first page is cleared. -/
theorem LiveRanges.free {s : Pmm} {live : List (U32 × U32)} (h : LiveRanges s live)
    (hs : s.Shape) {phys n : U32} (hx : (phys, n) ∈ live) :
    LiveRanges (pmmFree s phys n) (live.erase (phys, n)) := by
  obtain ⟨hf, _, _⟩ := h.ranges _ hx
  refine ⟨fun y hy => ?_, h.disjoint.sublist List.erase_sublist⟩
  have hy' := h.ranges y (List.mem_of_mem_erase hy)
  have hd : RangesDisjoint (phys, n) y := disjoint_of_mem_erase h.disjoint hx hy
  have hn0 : 0 < n.toNat := toNat_pos_of_ne hf.count_ne
  rw [pmmFree_eq hs hf]
  refine hy'.mono rfl fun i hi => ?_
  show test (clearBit s.bitmap (phys.toNat / 4096)) _ = true
  have hne : y.1.toNat / 4096 + i ≠ phys.toNat / 4096 := by
    rcases hd with hd | hd
    · have hd' : phys.toNat / 4096 + n.toNat ≤ y.1.toNat / 4096 := hd
      omega
    · have hd' : y.1.toNat / 4096 + y.2.toNat ≤ phys.toNat / 4096 := hd
      omega
  rw [test_clearBit, decide_eq_false hne, hy'.used i hi]
  rfl

theorem PmmRun.Inv.live {r : PmmRun} (h : r.Inv) : LiveRanges r.pmm r.live :=
  ⟨h.ranges, h.disjoint⟩

/-- The allocation step of the invariant. -/
theorem PmmRun.Inv.alloc {r : PmmRun} (h : r.Inv) (n : U32) :
    PmmRun.Inv ⟨(pmmAlloc r.pmm n).2,
      if (pmmAlloc r.pmm n).1 = 0 then r.live else ((pmmAlloc r.pmm n).1, n) :: r.live⟩ := by
  have hl := h.live.alloc h.consistent.shape h.consistent.zero n
  exact ⟨pmmAlloc_consistent h.consistent n, hl.ranges, hl.disjoint⟩

/-- The release step of the invariant: of one page. -/
theorem PmmRun.Inv.free {r : PmmRun} (h : r.Inv) {phys : U32} (hx : (phys, 1) ∈ r.live) :
    PmmRun.Inv ⟨pmmFree r.pmm phys 1, r.live.erase (phys, 1)⟩ := by
  obtain ⟨hf, hpos, hused⟩ := h.ranges _ hx
  have hl := h.live.free h.consistent.shape hx
  exact ⟨h.consistent.freed hf (hused 0 Nat.zero_lt_one) (Nat.ne_of_gt hpos),
    hl.ranges, hl.disjoint⟩

theorem PmmRun.Inv.start {r : PmmRun} (h : PmmRunStart r) : r.Inv := by
  obtain ⟨⟨before, map, _, hs⟩, hl⟩ := h
  have hnil := LiveRanges.nil r.pmm
  rw [← hl] at hnil
  exact ⟨hs ▸ pmmInit_consistent before map, hnil.ranges, hnil.disjoint⟩

theorem PmmRun.Inv.step {a : PmmCall} {r r' : PmmRun} (h : r.Inv)
    (hs : Guarded SinglePage PmmStep a r r') : r'.Inv := by
  obtain ⟨hg, hs⟩ := hs
  cases hs with
  | alloc n => exact h.alloc n
  | @free phys n _ hx =>
      have hn : n = 1 := hg
      subst hn
      exact h.free hx

/-! ## One call -/

/-- A successful allocation sets exactly the bits of its run. -/
theorem PmmRun.Inv.alloc_ok {r r' : PmmRun} (h : r.Inv) {n : U32}
    (hs : PmmStep (.alloc n) r r') : CallOk (.alloc n) r r' := by
  cases hs
  intro hne
  rcases pmmAlloc_cases h.consistent.shape n with ⟨hint, lr, hr⟩ | ⟨p, hint, lr, _, _, _, hf, hr⟩
  · exact absurd (by rw [hr]) hne
  · refine ⟨Finset.Ico p (p + n.toNat), by simp, fun q hq => ?_, fun q => ?_⟩
    · rw [Finset.mem_Ico] at hq
      have := hf (q - p) (by omega)
      rwa [show p + (q - p) = q by omega] at this
    · rw [hr]
      show test (setRun r.pmm.bitmap p n.toNat) q = true ↔ _
      rw [test_setRun, Bool.or_eq_true, decide_eq_true_eq, Finset.mem_Ico]
      exact or_comm

/-- A release of a live range clears the bits of the range exactly when the
range is one page. -/
theorem PmmRun.Inv.free_ok_iff {r r' : PmmRun} (h : r.Inv) {phys n : U32}
    (hs : PmmStep (.free phys n) r r') : CallOk (.free phys n) r r' ↔ n = 1 := by
  cases hs with
  | free hx =>
      obtain ⟨hf, _, hused⟩ := h.ranges _ hx
      have hbits : ∀ q, test (pmmFree r.pmm phys n).bitmap q = true ↔
          (test r.pmm.bitmap q = true ∧ q ≠ phys.toNat / 4096) := fun q => by
        rw [pmmFree_eq h.consistent.shape hf]
        simp only [test_clearBit, Bool.and_eq_true, Bool.not_eq_true', decide_eq_false_iff_not]
        exact and_comm
      constructor
      · intro hok
        by_contra hne
        -- the second page of the range stays set
        have hn1 : n.toNat ≠ 1 := fun h1 => hne (BitVec.eq_of_toNat_eq h1)
        have hn0 := toNat_pos_of_ne hf.count_ne
        have hset := (hbits (phys.toNat / 4096 + 1)).mpr
          ⟨hused 1 (by show 1 < n.toNat; have : 0 < n.toNat := hn0; omega), by omega⟩
        have hclr := (hok (phys.toNat / 4096 + 1)).mp hset
        have hn0' : 0 < n.toNat := hn0
        exact hclr.2 ⟨by omega, by omega⟩
      · rintro rfl q
        have h1 : (1 : U32).toNat = 1 := rfl
        show test (pmmFree r.pmm phys 1).bitmap q = true ↔ _
        rw [hbits q, h1]
        constructor
        · rintro ⟨ht, hq⟩
          exact ⟨ht, by omega⟩
        · rintro ⟨ht, hq⟩
          exact ⟨ht, by omega⟩

/-- **Accounting.**  In a run whose releases are all of one page every state
counts its clear bits, and in each of those states a call, whatever it is,
changes the bits it should and keeps the count exactly when it is not a
release of several pages. -/
theorem pmmRun_accounting {r : PmmRun}
    (h : Reach PmmRunStart (Guarded SinglePage PmmStep) r) :
    r.pmm.Accounts ∧
      ∀ a r', PmmStep a r r' → (CallOk a r r' ∧ r'.pmm.Accounts ↔ SinglePage a r) := by
  have hinv : r.Inv :=
    h.invariant PmmRun.Inv (fun _ => PmmRun.Inv.start) (fun _ _ _ hi hs => hi.step hs)
  refine ⟨hinv.consistent.counted, fun a r' hs => ?_⟩
  cases a with
  | alloc n =>
      exact ⟨fun _ => trivial, fun hg =>
        ⟨hinv.alloc_ok hs, (hinv.step ⟨hg, hs⟩).consistent.counted⟩⟩
  | free phys n =>
      constructor
      · exact fun hok => (hinv.free_ok_iff hs).mp hok.1
      · exact fun hg => ⟨(hinv.free_ok_iff hs).mpr hg, (hinv.step ⟨hg, hs⟩).consistent.counted⟩

/-! ## The release of two pages -/

theorem smallPmm_start : PmmRunStart ⟨smallPmm, []⟩ :=
  ⟨⟨zeroPmm, smallMap, List.cons_ne_nil _ _, rfl⟩, rfl⟩

/-- The run that takes two pages and releases them. -/
theorem pmmFree_two_pages : ¬ PmmAccounting := by
  intro hall
  have h1 : Reach PmmRunStart PmmStep ⟨(pmmAlloc smallPmm 2).2, [(0x1000, 2)]⟩ := by
    have hs := PmmStep.alloc 2 ⟨smallPmm, []⟩
    have haddr : (pmmAlloc smallPmm 2).1 = 0x1000 := by decide +kernel
    rw [haddr] at hs
    exact .next (.start smallPmm_start) hs
  have h2 := (hall _ h1).2 _ _ (PmmStep.free (List.mem_singleton.mpr rfl))
  have h3 := (h2 2).mp (by decide +kernel)
  exact h3.2 (by decide)

/-- The run that takes one page, in which the accounting holds. -/
theorem pmmRun_accounting_small :
    (pmmAlloc smallPmm 1).2.Accounts ∧
      ∀ a r', PmmStep a ⟨(pmmAlloc smallPmm 1).2, [(0x1000, 1)]⟩ r' →
        (CallOk a ⟨(pmmAlloc smallPmm 1).2, [(0x1000, 1)]⟩ r' ∧ r'.pmm.Accounts ↔
          SinglePage a ⟨(pmmAlloc smallPmm 1).2, [(0x1000, 1)]⟩) := by
  have hs := PmmStep.alloc 1 ⟨smallPmm, []⟩
  have haddr : (pmmAlloc smallPmm 1).1 = 0x1000 := by decide +kernel
  rw [haddr] at hs
  exact pmmRun_accounting
    (.next (.start smallPmm_start) ⟨show SinglePage (.alloc 1) _ from trivial, hs⟩)

end Tomk
