/-
# What one call of the physical memory manager does

`Pmm.Shape` is what `pmm_init` fixes and no call changes: the page count of
a 32-bit machine and a bitmap of the size that count needs.  Under it every
function of `pmm.c` is an equation or a short list of cases about the bits:

* `pmmSet`, `pmmClear`, `pmmTest` are the operations of `WordBits` at the
  page of the address;
* `pmmAllocOne_cases`: nothing is clear where the search looks, or one clear
  page was taken (`Pmm.taken`);
* `pmmAlloc_cases`: the call took a run of clear pages or changed nothing
  but the hint and the statistics;
* `pmmFree_eq`: the one bit a release clears.

`Pmm.Tail` says that no bit beyond the last page is clear.  With it the
search for one page is complete: `pmmAllocOne_none` is the failure case.
-/
import Tomk.Mm.Pmm

namespace Tomk

open WordBits CFor

/-- The size fields fit the machine and each other. -/
structure Pmm.Shape (s : Pmm) : Prop where
  total_lt : s.totalPages.toNat < 2 ^ 20
  size_eq : s.bitmapSize.toNat = (s.totalPages.toNat + 31) / 32 * 4

/-- The bits of the bitmap beyond the last page are set. -/
def Pmm.Tail (s : Pmm) : Prop :=
  ∀ p, s.totalPages.toNat ≤ p → p < s.bitmapSize.toNat / 4 * 32 → test s.bitmap p = true

/-- The state after a run of `n` pages from `page` on was taken. -/
def Pmm.taken (s : Pmm) (page : Nat) (n hint largestRun : U32) : Pmm :=
  { s with
    bitmap := setRun s.bitmap page n.toNat
    freePages := s.freePages - n
    usedPages := s.usedPages + n
    hint := hint
    largestRun := largestRun }

variable {s : Pmm}

theorem Pmm.Shape.words (h : s.Shape) :
    s.totalPages.toNat ≤ s.bitmapSize.toNat / 4 * 32 ∧
      s.bitmapSize.toNat / 4 * 32 ≤ s.totalPages.toNat + 31 := by
  rw [h.size_eq]
  omega

/-! ## Bits -/

theorem toNat_wordIndex (page : U32) : (page >>> 5).toNat = page.toNat / 32 := by
  rw [BitVec.toNat_ushiftRight, Nat.shiftRight_eq_div_pow]

theorem toNat_bitIndex (page : U32) : (page &&& 31).toNat = page.toNat % 32 :=
  toNat_and_mask page (show 5 ≤ 32 by decide)

theorem pmmSet_eq (s : Pmm) (phys : U32) :
    pmmSet s phys = { s with bitmap := setBit s.bitmap (phys.toNat / 4096) } := by
  simp only [pmmSet, toNat_wordIndex, toNat_bitIndex, toNat_toPage]
  rfl

theorem pmmClear_eq (s : Pmm) (phys : U32) :
    pmmClear s phys = { s with bitmap := clearBit s.bitmap (phys.toNat / 4096) } := by
  simp only [pmmClear, toNat_wordIndex, toNat_bitIndex, toNat_toPage]
  rfl

theorem pmmTest_ne_zero (s : Pmm) (phys : U32) :
    pmmTest s phys ≠ 0 ↔ test s.bitmap (phys.toNat / 4096) = true := by
  simp only [pmmTest, toNat_wordIndex, toNat_bitIndex, toNat_toPage]
  rw [and_one_shiftLeft_ne_zero (Nat.mod_lt _ (by decide))]
  rfl

theorem pmmTest_eq_zero (s : Pmm) (phys : U32) :
    pmmTest s phys = 0 ↔ test s.bitmap (phys.toNat / 4096) = false := by
  rw [← not_iff_not, Bool.not_eq_false]
  exact pmmTest_ne_zero s phys

/-- The address of a page of the machine names that page again. -/
theorem page_toAddr {page : U32} (h : page.toNat < 2 ^ 20) : (toAddr page).toNat / 4096 = page.toNat := by
  rw [toNat_toAddr_of_lt h]
  omega

theorem toNat_ofNat_page {p : Nat} (h : p < 2 ^ 20) : (BitVec.ofNat 32 p).toNat = p := by
  rw [BitVec.toNat_ofNat]
  omega

/-! ## The first zero bit of a word -/

theorem getLsbD_lowMask {k j : Nat} (hk : k < 32) (hj : j < 32) :
    ((1#32 <<< k) - 1).getLsbD j = decide (j < k) := by
  have hpow : 2 ^ k < 2 ^ 32 := Nat.pow_lt_pow_right (by decide) hk
  have hpos : 0 < 2 ^ k := Nat.two_pow_pos k
  have heq : (1#32 <<< k) - 1 = BitVec.ofNat 32 (2 ^ k - 1) := by
    apply BitVec.eq_of_toNat_eq
    have h1 : (1#32 <<< k).toNat = 2 ^ k := by
      rw [BitVec.toNat_shiftLeft, Nat.shiftLeft_eq]
      show 1 * 2 ^ k % 2 ^ 32 = 2 ^ k
      omega
    have h2 : (1 : U32).toNat = 1 := rfl
    rw [BitVec.toNat_sub, h1, h2, BitVec.toNat_ofNat]
    omega
  rw [heq, getLsbD_mask hj]

theorem firstBit_eq : ∀ (fuel k : Nat) (x b : U32), k < fuel → x.getLsbD k = true →
    (∀ j, j < k → x.getLsbD j = false) → firstBit fuel x b = b + BitVec.ofNat 32 k
  | 0, k, _, _, hk, _, _ => absurd hk (Nat.not_lt_zero k)
  | fuel + 1, 0, x, b, _, hx, _ => by
      have h1 : x &&& 1#32 <<< 0 ≠ 0 := (and_one_shiftLeft_ne_zero (by decide)).mpr hx
      have h2 : x &&& 1 ≠ 0 := h1
      simp only [firstBit, if_pos h2]
      simp
  | fuel + 1, k + 1, x, b, hk, hx, hlow => by
      have h1 : ¬ (x &&& 1#32 <<< 0 ≠ 0) := by
        rw [and_one_shiftLeft_ne_zero (by decide), hlow 0 (by omega)]
        exact Bool.noConfusion
      have h2 : ¬ (x &&& 1 ≠ 0) := h1
      have ih := firstBit_eq fuel k (x >>> 1) (b + 1) (by omega)
        (by rw [BitVec.getLsbD_ushiftRight, Nat.add_comm]; exact hx)
        (fun j hj => by
          rw [BitVec.getLsbD_ushiftRight, Nat.add_comm]
          exact hlow (j + 1) (by omega))
      simp only [firstBit, if_neg h2, ih]
      apply BitVec.eq_of_toNat_eq
      have h3 : (1 : U32).toNat = 1 := rfl
      simp only [BitVec.toNat_add, BitVec.toNat_ofNat, h3]
      omega

/-- A word that is not all ones has a first zero bit, and the loop finds it. -/
theorem firstBit_not {bits : U32} (h : bits ≠ 0xFFFFFFFF#32) :
    ∃ k, k < 32 ∧ bits.getLsbD k = false ∧ (∀ j, j < k → bits.getLsbD j = true) ∧
      firstBit 32 (~~~bits) 0 = BitVec.ofNat 32 k := by
  have hex : ∃ k, k < 32 ∧ bits.getLsbD k = false := by
    by_contra hno
    apply h
    apply BitVec.eq_of_getLsbD_eq
    intro i hi
    have h1 : bits.getLsbD i = true := by
      rw [← Bool.not_eq_false]
      exact fun hf => hno ⟨i, hi, hf⟩
    rw [h1, show (0xFFFFFFFF#32) = BitVec.ofNat 32 (2 ^ 32 - 1) from rfl, getLsbD_mask hi,
      decide_eq_true hi]
  classical
  obtain ⟨hk, hf⟩ := Nat.find_spec hex
  have hlow : ∀ j, j < Nat.find hex → bits.getLsbD j = true := by
    intro j hj
    rw [← Bool.not_eq_false]
    exact fun hjf => Nat.find_min hex hj ⟨by omega, hjf⟩
  refine ⟨Nat.find hex, hk, hf, hlow, ?_⟩
  rw [firstBit_eq 32 (Nat.find hex) (~~~bits) 0 hk
    (by rw [BitVec.getLsbD_not, hf, decide_eq_true hk]; rfl)
    (fun j hj => by rw [BitVec.getLsbD_not, hlow j hj]; simp)]
  exact BitVec.zero_add _

/-- The page number both searches compute from a word and a bit. -/
theorem searchPage_eq {d k : Nat} :
    (BitVec.ofNat 32 d <<< 5) + BitVec.ofNat 32 k = BitVec.ofNat 32 (d * 32 + k) := by
  apply BitVec.eq_of_toNat_eq
  simp only [BitVec.toNat_add, BitVec.toNat_shiftLeft, BitVec.toNat_ofNat, Nat.shiftLeft_eq]
  omega

/-! ## One page -/

theorem pmmTake_eq {page : Nat} (hpage : page < 2 ^ 20) :
    pmmTake s (BitVec.ofNat 32 page) =
      (toAddr (BitVec.ofNat 32 page),
        s.taken page 1
          (if s.totalPages ≤ BitVec.ofNat 32 page + 1 then 0 else BitVec.ofNat 32 page + 1)
          s.largestRun) := by
  have hp := toNat_ofNat_page hpage
  have hp' : (BitVec.ofNat 32 page).toNat < 2 ^ 20 := by rwa [hp]
  have hset : setRun s.bitmap page 1 = setBit s.bitmap page := rfl
  simp only [pmmTake, pmmSet_eq, page_toAddr hp', hp, Pmm.taken]
  split <;> rfl

/-- A page that a search may take: clear, and below the last. -/
structure Pmm.Clear (s : Pmm) (p : Nat) : Prop where
  lt_total : p < s.totalPages.toNat
  clear : test s.bitmap p = false

/-- The two ways the search from the hint up to the end leaves. -/
def UpExit (s : Pmm) (from_ : Nat) : Exit (U32 × Pmm) U32 → Prop
  | .brk page => s.totalPages.toNat ≤ page.toNat ∧ page.toNat < s.bitmapSize.toNat / 4 * 32 ∧
      test s.bitmap page.toNat = false
  | .ret r => ∃ p, s.Clear p ∧ from_ ≤ p ∧ (∀ q, from_ ≤ q → q < p → test s.bitmap q = true) ∧
      r = pmmTake s (BitVec.ofNat 32 p)

/-- The word the upward search looks at, bit by bit. -/
theorem upBits {page : U32} {d j : Nat} (hj : j < 32) :
    (if d = page.toNat / 32 then s.bitmap d ||| ((1#32 <<< (page &&& 31).toNat) - 1)
      else s.bitmap d).getLsbD j
      = (test s.bitmap (d * 32 + j) || decide (d = page.toNat / 32 ∧ j < page.toNat % 32)) := by
  have ht : test s.bitmap (d * 32 + j) = (s.bitmap d).getLsbD j := by
    rw [test, show (d * 32 + j) / 32 = d by omega, show (d * 32 + j) % 32 = j by omega]
  rw [ht]
  by_cases hd : d = page.toNat / 32
  · rw [if_pos hd, BitVec.getLsbD_or, toNat_bitIndex, getLsbD_lowMask (Nat.mod_lt _ (by decide)) hj]
    simp [hd]
  · rw [if_neg hd]
    simp [hd]

theorem pmmSearchUp_cases (s : Pmm) (page : U32) (d : Nat) :
    (pmmSearchUp s (page.toNat / 32) d page = .ok page ∧
      ∀ q, d * 32 ≤ q → q < d * 32 + 32 → page.toNat ≤ q → test s.bitmap q = true) ∨
    (∃ p, d * 32 ≤ p ∧ p < d * 32 + 32 ∧ test s.bitmap p = false ∧
      (d = page.toNat / 32 → page.toNat ≤ p) ∧
      (∀ q, d * 32 ≤ q → q < p → page.toNat ≤ q → test s.bitmap q = true) ∧
      pmmSearchUp s (page.toNat / 32) d page =
        if s.totalPages ≤ BitVec.ofNat 32 p then .error (.brk (BitVec.ofNat 32 p))
        else .error (.ret (pmmTake s (BitVec.ofNat 32 p)))) := by
  let bits := if d = page.toNat / 32 then s.bitmap d ||| ((1#32 <<< (page &&& 31).toNat) - 1)
    else s.bitmap d
  have hbit : ∀ j, j < 32 → bits.getLsbD j
      = (test s.bitmap (d * 32 + j) || decide (d = page.toNat / 32 ∧ j < page.toNat % 32)) :=
    fun j hj => upBits hj
  -- a page at or above the hint whose bit reads one is used
  have hused : ∀ q, d * 32 ≤ q → q < d * 32 + 32 → page.toNat ≤ q →
      bits.getLsbD (q - d * 32) = true → test s.bitmap q = true := by
    intro q h1 h2 h3 hb
    have hno : ¬ (d = page.toNat / 32 ∧ q - d * 32 < page.toNat % 32) := by omega
    rwa [hbit _ (by omega), decide_eq_false hno, Bool.or_false,
      show d * 32 + (q - d * 32) = q by omega] at hb
  by_cases hall : bits = 0xFFFFFFFF#32
  · refine Or.inl ⟨?_, ?_⟩
    · simp only [pmmSearchUp]
      rw [if_pos hall]
    · intro q h1 h2 h3
      apply hused q h1 h2 h3
      rw [hall, show (0xFFFFFFFF#32) = BitVec.ofNat 32 (2 ^ 32 - 1) from rfl,
        getLsbD_mask (by omega)]
      exact decide_eq_true (by omega)
  · obtain ⟨k, hk, hkf, hlow, hfirst⟩ := firstBit_not hall
    have hkb := hbit k hk
    rw [hkf] at hkb
    obtain ⟨h1, h2⟩ := Bool.or_eq_false_iff.mp hkb.symm
    have h2 := of_decide_eq_false h2
    refine Or.inr ⟨d * 32 + k, by omega, by omega, h1, by omega, ?_, ?_⟩
    · intro q hq1 hq2 hq3
      exact hused q hq1 (by omega) hq3 (hlow _ (by omega))
    · simp only [pmmSearchUp]
      rw [if_neg hall, hfirst, searchPage_eq]

/-- The search from the hint to the end: it finds the first clear page, or
there is none. -/
theorem searchUp_spec (h : s.Shape) (page : U32) (hpage : page.toNat < 2 ^ 20) :
    (forFrom (pmmSearchUp s (page.toNat / 32)) (page.toNat / 32)
        (s.bitmapSize.toNat / 4 - page.toNat / 32) page = .ok page ∧
      ∀ q, page.toNat ≤ q → q < s.bitmapSize.toNat / 4 * 32 → test s.bitmap q = true) ∨
    (∃ e, forFrom (pmmSearchUp s (page.toNat / 32)) (page.toNat / 32)
        (s.bitmapSize.toNat / 4 - page.toNat / 32) page = .error e ∧ UpExit s page.toNat e) := by
  obtain ⟨hw1, hw2⟩ := h.words
  have htl := h.total_lt
  have hloop := forFrom_except (a := page.toNat / 32) (n := s.bitmapSize.toNat / 4 - page.toNat / 32)
    (fun d p => p = page ∧ ∀ q, page.toNat ≤ q → q < d * 32 → test s.bitmap q = true)
    (UpExit s page.toNat) (f := pmmSearchUp s (page.toNat / 32)) (s := page)
    ⟨rfl, fun q h1 h2 => by omega⟩
    (fun d t t' h1 h2 ht hs => by
      obtain ⟨rfl, hq⟩ := ht
      rcases pmmSearchUp_cases s t d with ⟨hok, hu⟩ | ⟨p, _, _, _, _, _, herr⟩
      · rw [hok] at hs
        cases hs
        refine ⟨rfl, fun q hq1 hq2 => ?_⟩
        rcases Nat.lt_or_ge q (d * 32) with hlt | hge
        · exact hq q hq1 hlt
        · exact hu q hge (by omega) hq1
      · rw [herr] at hs
        split at hs <;> cases hs)
    (fun d t e h1 h2 ht hs => by
      obtain ⟨rfl, hq⟩ := ht
      rcases pmmSearchUp_cases s t d with ⟨hok, _⟩ | ⟨p, hp1, hp2, hpf, hps, hpu, herr⟩
      · rw [hok] at hs
        cases hs
      · have hpn : (BitVec.ofNat 32 p).toNat = p := toNat_ofNat_page (by omega)
        have hle : t.toNat ≤ p := by
          by_cases hd : d = t.toNat / 32
          · exact hps hd
          · omega
        rw [herr] at hs
        split at hs
        · next htot =>
          cases hs
          rw [BitVec.le_def, hpn] at htot
          exact ⟨by rw [hpn]; exact htot, by rw [hpn]; omega, by rw [hpn]; exact hpf⟩
        · next htot =>
          cases hs
          rw [BitVec.le_def, hpn] at htot
          refine ⟨p, ⟨by omega, hpf⟩, hle, ?_, rfl⟩
          intro q hq1 hq2
          rcases Nat.lt_or_ge q (d * 32) with hlt | hge
          · exact hq q hq1 hlt
          · exact hpu q hge hq2 hq1)
  rcases hloop with ⟨t, hrun, rfl, hq⟩ | ⟨e, hrun, he⟩
  · refine Or.inl ⟨hrun, fun q h1 h2 => hq q h1 ?_⟩
    omega
  · exact Or.inr ⟨e, hrun, he⟩

/-- How the search from the start up to the hint leaves: with the first clear
page, or, past the last page, with nothing. -/
def DownExit (s : Pmm) (bound : Nat) (r : U32 × Pmm) : Prop :=
  (r = (0, s) ∧ ∃ p, s.totalPages.toNat ≤ p ∧ p < s.bitmapSize.toNat / 4 * 32 ∧
    test s.bitmap p = false) ∨
  ∃ p, s.Clear p ∧ p < bound ∧ (∀ q, q < p → test s.bitmap q = true) ∧
    r = pmmTake s (BitVec.ofNat 32 p)

/-- The word the downward search looks at, bit by bit. -/
theorem downBits {page : U32} {start d j : Nat} (hj : j < 32) :
    (if d = start then s.bitmap d ||| ~~~((1#32 <<< (page &&& 31).toNat) - 1)
      else s.bitmap d).getLsbD j
      = (test s.bitmap (d * 32 + j) || decide (d = start ∧ page.toNat % 32 ≤ j)) := by
  have ht : test s.bitmap (d * 32 + j) = (s.bitmap d).getLsbD j := by
    rw [test, show (d * 32 + j) / 32 = d by omega, show (d * 32 + j) % 32 = j by omega]
  rw [ht]
  by_cases hd : d = start
  · have hneg : (!decide (j < page.toNat % 32)) = decide (page.toNat % 32 ≤ j) := by
      rw [← decide_not, decide_eq_decide]
      exact Nat.not_lt
    rw [if_pos hd, BitVec.getLsbD_or, BitVec.getLsbD_not, toNat_bitIndex,
      getLsbD_lowMask (Nat.mod_lt _ (by decide)) hj, decide_eq_true hj, Bool.true_and, hneg]
    simp [hd]
  · rw [if_neg hd]
    simp [hd]

theorem pmmSearchDown_cases (s : Pmm) (page : U32) (start d : Nat) :
    (pmmSearchDown s start d page = .ok page ∧
      ∀ q, d * 32 ≤ q → q < d * 32 + 32 → (d = start → q < start * 32 + page.toNat % 32) →
        test s.bitmap q = true) ∨
    (∃ p, d * 32 ≤ p ∧ p < d * 32 + 32 ∧ test s.bitmap p = false ∧
      (d = start → p < start * 32 + page.toNat % 32) ∧
      (∀ q, d * 32 ≤ q → q < p → test s.bitmap q = true) ∧
      pmmSearchDown s start d page =
        if s.totalPages ≤ BitVec.ofNat 32 p then .error (0, s)
        else .error (pmmTake s (BitVec.ofNat 32 p))) := by
  let bits := if d = start then s.bitmap d ||| ~~~((1#32 <<< (page &&& 31).toNat) - 1)
    else s.bitmap d
  have hbit : ∀ j, j < 32 → bits.getLsbD j
      = (test s.bitmap (d * 32 + j) || decide (d = start ∧ page.toNat % 32 ≤ j)) :=
    fun j hj => downBits hj
  -- below the hint a bit that reads one is a page in use
  have hused : ∀ q, d * 32 ≤ q → q < d * 32 + 32 → (d = start → q < start * 32 + page.toNat % 32) →
      bits.getLsbD (q - d * 32) = true → test s.bitmap q = true := by
    intro q h1 h2 h3 hb
    have hno : ¬ (d = start ∧ page.toNat % 32 ≤ q - d * 32) := by
      rintro ⟨hd, hle⟩
      have := h3 hd
      omega
    rwa [hbit _ (by omega), decide_eq_false hno, Bool.or_false,
      show d * 32 + (q - d * 32) = q by omega] at hb
  by_cases hall : bits = 0xFFFFFFFF#32
  · refine Or.inl ⟨?_, ?_⟩
    · simp only [pmmSearchDown]
      rw [if_pos hall]
    · intro q h1 h2 h3
      apply hused q h1 h2 h3
      rw [hall, show (0xFFFFFFFF#32) = BitVec.ofNat 32 (2 ^ 32 - 1) from rfl,
        getLsbD_mask (by omega)]
      exact decide_eq_true (by omega)
  · obtain ⟨k, hk, hkf, hlow, hfirst⟩ := firstBit_not hall
    have hkb := hbit k hk
    rw [hkf] at hkb
    obtain ⟨h1, h2⟩ := Bool.or_eq_false_iff.mp hkb.symm
    have h2 := of_decide_eq_false h2
    refine Or.inr ⟨d * 32 + k, by omega, by omega, h1, by omega, ?_, ?_⟩
    · intro q hq1 hq2
      exact hused q hq1 (by omega) (fun hd => by omega) (hlow _ (by omega))
    · simp only [pmmSearchDown]
      rw [if_neg hall, hfirst, searchPage_eq]

/-- The search from the start to the hint. -/
theorem searchDown_spec (h : s.Shape) (page : U32) {start : Nat}
    (hstart : start < s.bitmapSize.toNat / 4) :
    (pmmWrapSearch s start page = (0, s) ∧
      ∀ q, q < start * 32 + page.toNat % 32 → test s.bitmap q = true) ∨
    DownExit s (start * 32 + page.toNat % 32) (pmmWrapSearch s start page) := by
  obtain ⟨hw1, hw2⟩ := h.words
  have htl := h.total_lt
  have hloop := forFrom_except (a := 0) (n := start + 1)
    (fun d p => p = page ∧ ∀ q, q < d * 32 → q < start * 32 + page.toNat % 32 →
      test s.bitmap q = true)
    (DownExit s (start * 32 + page.toNat % 32)) (f := pmmSearchDown s start) (s := page)
    ⟨rfl, fun q h1 _ => by omega⟩
    (fun d t t' h1 h2 ht hs => by
      obtain ⟨rfl, hq⟩ := ht
      rcases pmmSearchDown_cases s t start d with ⟨hok, hu⟩ | ⟨p, _, _, _, _, _, herr⟩
      · rw [hok] at hs
        cases hs
        refine ⟨rfl, fun q hq1 hq2 => ?_⟩
        rcases Nat.lt_or_ge q (d * 32) with hlt | hge
        · exact hq q hlt hq2
        · exact hu q hge (by omega) (fun _ => hq2)
      · rw [herr] at hs
        split at hs <;> cases hs)
    (fun d t e h1 h2 ht hs => by
      obtain ⟨rfl, hq⟩ := ht
      rcases pmmSearchDown_cases s t start d with ⟨hok, _⟩ | ⟨p, hp1, hp2, hpf, hps, hpu, herr⟩
      · rw [hok] at hs
        cases hs
      · have hpn : (BitVec.ofNat 32 p).toNat = p := toNat_ofNat_page (by omega)
        have hlt : p < start * 32 + t.toNat % 32 := by
          by_cases hd : d = start
          · exact hps hd
          · omega
        rw [herr] at hs
        split at hs
        · next htot =>
          cases hs
          rw [BitVec.le_def, hpn] at htot
          exact Or.inl ⟨rfl, p, htot, by omega, hpf⟩
        · next htot =>
          cases hs
          rw [BitVec.le_def, hpn] at htot
          refine Or.inr ⟨p, ⟨by omega, hpf⟩, hlt, fun q hq1 => ?_, rfl⟩
          rcases Nat.lt_or_ge q (d * 32) with hlt' | hge
          · exact hq q hlt' (by omega)
          · exact hpu q hge hq1)
  rcases hloop with ⟨t, hrun, rfl, hq⟩ | ⟨e, hrun, he⟩
  · exact Or.inl ⟨by simp only [pmmWrapSearch, hrun], fun q h1 => hq q (by omega) h1⟩
  · exact Or.inr (by simpa only [pmmWrapSearch, hrun] using he)

/-- The hint `pmm_alloc_one` starts from. -/
def Pmm.startHint (s : Pmm) : U32 := if s.totalPages ≤ s.hint then 0 else s.hint

/-- The page `pmm_alloc_one` is to hand out: the first clear page at or after
the hint, or else the first clear page of all. -/
structure Pmm.FirstClear (s : Pmm) (p : Nat) : Prop extends s.Clear p where
  first : (s.startHint.toNat ≤ p ∧ ∀ q, s.startHint.toNat ≤ q → q < p → test s.bitmap q = true) ∨
    ((∀ q, s.startHint.toNat ≤ q → q < s.totalPages.toNat → test s.bitmap q = true) ∧
      ∀ q, q < p → test s.bitmap q = true)

theorem Pmm.startHint_lt (h : s.Shape) : s.startHint.toNat < 2 ^ 20 := by
  have htl := h.total_lt
  rw [Pmm.startHint]
  split
  · decide
  · next hh =>
    rw [BitVec.le_def] at hh
    omega

theorem Pmm.with_startHint (s : Pmm) :
    (if s.totalPages ≤ s.hint then { s with hint := 0 } else s) = { s with hint := s.startHint } := by
  rw [Pmm.startHint]
  split <;> rfl

/-- The search starts in the bitmap, unless there are no pages at all. -/
theorem Pmm.startHint_word (h : s.Shape) (hpos : 0 < s.totalPages.toNat) :
    s.startHint.toNat / 32 < s.bitmapSize.toNat / 4 := by
  obtain ⟨hw1, hw2⟩ := h.words
  have h1 : s.startHint.toNat < s.totalPages.toNat := by
    rw [Pmm.startHint]
    split
    · exact hpos
    · next hh =>
      rw [BitVec.le_def] at hh
      omega
  omega

/-- Wherever the search started, the page is taken from `s`. -/
theorem pmmTake_hinted (h : s.Shape) {p : Nat} (hp : s.Clear p) (start : U32) :
    ∃ hint : U32, hint.toNat ≤ s.totalPages.toNat ∧
      (hint = 0 ∨ hint.toNat < s.totalPages.toNat) ∧
      pmmTake { s with hint := start } (BitVec.ofNat 32 p)
        = (toAddr (BitVec.ofNat 32 p), s.taken p 1 hint s.largestRun) := by
  have htl := h.total_lt
  have hlt := hp.lt_total
  have hpn := toNat_ofNat_page (show p < 2 ^ 20 by omega)
  refine ⟨if s.totalPages ≤ BitVec.ofNat 32 p + 1 then 0 else BitVec.ofNat 32 p + 1, ?_, ?_,
    pmmTake_eq (by omega)⟩
  · split
    · exact Nat.zero_le _
    · next hh =>
      rw [BitVec.le_def] at hh
      omega
  · split
    · exact Or.inl rfl
    · next hh =>
      rw [BitVec.le_def] at hh
      exact Or.inr (by omega)

/-- The two loops of `pmm_alloc_one`. -/
theorem pmmAllocOne_search (hfree : s.freePages ≠ 0) {t : Pmm}
    (ht : t = { s with hint := s.startHint }) :
    pmmAllocOne s = match forFrom (pmmSearchUp t (t.hint.toNat / 32)) (t.hint.toNat / 32)
        (t.bitmapSize.toNat / 4 - t.hint.toNat / 32) t.hint with
      | .ok page => pmmWrapSearch t (t.hint.toNat / 32) page
      | .error (.brk page) => pmmWrapSearch t (t.hint.toNat / 32) page
      | .error (.ret r) => r := by
  subst ht
  have hword := toNat_wordIndex s.startHint
  rw [pmmAllocOne, if_neg hfree, Pmm.with_startHint]
  exact hword ▸ rfl

/-- Without pages the first loop makes no turn, and the second finds nothing
below the last page. -/
theorem pmmAllocOne_empty (h : s.Shape) (hfree : s.freePages ≠ 0) (h0 : s.totalPages.toNat = 0) :
    pmmAllocOne s = (0, { s with hint := s.startHint }) := by
  obtain ⟨hw1, hw2⟩ := h.words
  have hrun := pmmAllocOne_search hfree rfl
  have hh0 : s.startHint = 0 := by
    rw [Pmm.startHint, if_pos]
    rw [BitVec.le_def]
    omega
  rw [hh0] at hrun ⊢
  have hn0 : s.bitmapSize.toNat / 4 - (0 : U32).toNat / 32 = 0 := by omega
  rw [hrun, hn0]
  rcases pmmSearchDown_cases { s with hint := 0 } 0 0 0 with ⟨hok, _⟩ | ⟨p, _, _, _, hp, _, _⟩
  · have hdown : pmmWrapSearch { s with hint := 0 } ((0 : U32).toNat / 32) 0
        = (0, { s with hint := 0 }) := by
      have hok' : forFrom (pmmSearchDown { s with hint := 0 } 0) 0 1 (0 : U32) = .ok 0 := by
        have hok' : pmmSearchDown { s with hint := 0 } 0 0 (0 : U32) = .ok 0 := hok
        simp only [forFrom, hok']
        rfl
      simp only [pmmWrapSearch, show (0 : U32).toNat / 32 = 0 from rfl, Nat.zero_add, hok']
    exact hdown
  · exact absurd (hp rfl) (Nat.not_lt_zero p)

/-- What `pmm_alloc_one` does.  The failure case says which bits it has
looked at, so that with `Pmm.Tail` it means that no page is clear. -/
theorem pmmAllocOne_cases (h : s.Shape) :
    (s.freePages = 0 ∧ pmmAllocOne s = (0, s)) ∨
    (∃ p hint, s.freePages ≠ 0 ∧ s.Clear p ∧ (s.Tail → s.FirstClear p) ∧
      hint.toNat ≤ s.totalPages.toNat ∧ (hint = 0 ∨ hint.toNat < s.totalPages.toNat) ∧
      pmmAllocOne s = (toAddr (BitVec.ofNat 32 p), s.taken p 1 hint s.largestRun)) ∨
    (s.freePages ≠ 0 ∧ (s.Tail → ∀ p, ¬ s.Clear p) ∧
      pmmAllocOne s = (0, { s with hint := s.startHint })) := by
  obtain ⟨hw1, hw2⟩ := h.words
  have hhl := Pmm.startHint_lt h
  by_cases hfree : s.freePages = 0
  · exact Or.inl ⟨hfree, by simp only [pmmAllocOne, if_pos hfree]⟩
  right
  rcases Nat.eq_zero_or_pos s.totalPages.toNat with h0 | hpos
  · refine Or.inr ⟨hfree, fun _ p hp => ?_, pmmAllocOne_empty h hfree h0⟩
    have := hp.lt_total
    omega
  let t : Pmm := { s with hint := s.startHint }
  have ht : t.Shape := ⟨h.total_lt, h.size_eq⟩
  have hstart : t.hint.toNat / 32 < t.bitmapSize.toNat / 4 := Pmm.startHint_word h hpos
  have hrun := pmmAllocOne_search hfree (t := t) rfl
  -- what was found is taken; it is the first one if `Tail` holds
  have hfound : ∀ {p r}, pmmAllocOne s = r → s.Clear p → (s.Tail → s.FirstClear p) →
      r = pmmTake t (BitVec.ofNat 32 p) → ∃ p hint, s.freePages ≠ 0 ∧ s.Clear p ∧
        (s.Tail → s.FirstClear p) ∧ hint.toNat ≤ s.totalPages.toNat ∧
        (hint = 0 ∨ hint.toNat < s.totalPages.toNat) ∧
        pmmAllocOne s = (toAddr (BitVec.ofNat 32 p), s.taken p 1 hint s.largestRun) := by
    rintro p r hr hp hfirst rfl
    obtain ⟨hint, h1, h2, h3⟩ := pmmTake_hinted h hp s.startHint
    exact ⟨p, hint, hfree, hp, hfirst, h1, h2, hr.trans h3⟩
  rcases searchUp_spec ht t.hint hhl with ⟨hup, hq⟩ | ⟨e, hup, he⟩
  · rw [hup] at hrun
    rcases searchDown_spec ht t.hint hstart with ⟨hdn, hq'⟩ | ⟨hr, p, hp1, hp2, hp3⟩ |
      ⟨p, hp, hpb, hpq, hr⟩
    · refine Or.inr ⟨hfree, fun _ p hp => ?_, hrun.trans hdn⟩
      have hset : test s.bitmap p = true := by
        rcases Nat.lt_or_ge p t.hint.toNat with hlt | hge
        · exact hq' p (by omega)
        · exact hq p hge (by have := hp.lt_total; show p < s.bitmapSize.toNat / 4 * 32; omega)
      exact Bool.noConfusion (hset.symm.trans hp.clear)
    · exact Or.inr ⟨hfree, fun htail => absurd (htail p hp1 hp2) (by rw [hp3]; exact Bool.noConfusion),
        hrun.trans hr⟩
    · have hc : s.Clear p := ⟨hp.lt_total, hp.clear⟩
      exact Or.inl (hfound hrun hc (fun _ => ⟨hc, Or.inr ⟨fun q hq1 hq2 => hq q hq1
        (by show q < s.bitmapSize.toNat / 4 * 32; omega), hpq⟩⟩) hr)
  · rw [hup] at hrun
    cases e with
    | ret r =>
        obtain ⟨p, hp, hp1, hp2, hr⟩ := he
        have hc : s.Clear p := ⟨hp.lt_total, hp.clear⟩
        exact Or.inl (hfound hrun hc (fun _ => ⟨hc, Or.inl ⟨hp1, hp2⟩⟩) hr)
    | brk page =>
        -- a clear bit beyond the last page: excluded by `Tail`
        obtain ⟨hb1, hb2, hb3⟩ := he
        have hno : ¬ s.Tail := fun htail =>
          Bool.noConfusion ((htail page.toNat hb1 hb2).symm.trans hb3)
        rcases searchDown_spec ht page hstart with ⟨hdn, _⟩ | ⟨hr, _⟩ | ⟨p, hp, _, _, hr⟩
        · exact Or.inr ⟨hfree, fun htail => absurd htail hno, hrun.trans hdn⟩
        · exact Or.inr ⟨hfree, fun htail => absurd htail hno, hrun.trans hr⟩
        · exact Or.inl (hfound hrun ⟨hp.lt_total, hp.clear⟩ (fun htail => absurd htail hno) hr)

/-! ## Runs of pages -/

/-- Setting the pages of a run one by one is setting the run. -/
theorem iter_pmmSet (s : Pmm) {start : Nat} : ∀ (n : Nat), start + n ≤ 2 ^ 20 →
    iter (fun i s => pmmSet s (toAddr (BitVec.ofNat 32 start + BitVec.ofNat 32 i))) 0 n s
      = { s with bitmap := setRun s.bitmap start n }
  | 0, _ => rfl
  | n + 1, h => by
      have hp : (BitVec.ofNat 32 start + BitVec.ofNat 32 (0 + n)).toNat = start + n := by
        rw [BitVec.toNat_add, BitVec.toNat_ofNat, BitVec.toNat_ofNat]
        omega
      rw [iter_snoc, iter_pmmSet s n (by omega), pmmSet_eq, page_toAddr (by omega), hp]
      rfl

theorem pmmFindContiguousPages_cases (h : s.Shape) {count : U32} (hc : count ≠ 0) :
    (∃ p lr, FirstRun s.bitmap s.totalPages.toNat count.toNat p ∧
      pmmFindContiguousPages s count = (BitVec.ofNat 32 p, { s with largestRun := lr })) ∨
    (∃ lr, (∀ q, q + count.toNat ≤ s.totalPages.toNat → ¬ FreeRun s.bitmap q count.toNat) ∧
      pmmFindContiguousPages s count = (0, { s with largestRun := lr })) := by
  rcases findContiguousPages_cases (b := s.bitmap) hc h.words.1 with ⟨p, hp, hf⟩ | ⟨lr, hlr, hf⟩
  · exact Or.inl ⟨p, _, hf, by simp only [pmmFindContiguousPages, hp]; rfl⟩
  · exact Or.inr ⟨_, hf, by simp only [pmmFindContiguousPages, hlr]; rfl⟩

/-- Everything a call of `pmm_alloc` can do: it returns 0 and changes at most
the hint and the statistics, or it takes a run of clear pages. -/
theorem pmmAlloc_cases (h : s.Shape) (n : U32) :
    (∃ hint lr, pmmAlloc s n = (0, { s with hint := hint, largestRun := lr })) ∨
    (∃ p hint lr, n ≠ 0 ∧ n ≤ s.freePages ∧ p + n.toNat ≤ s.totalPages.toNat ∧
      FreeRun s.bitmap p n.toNat ∧
      pmmAlloc s n = (toAddr (BitVec.ofNat 32 p), s.taken p n hint lr)) := by
  have htl := h.total_lt
  by_cases hn : n = 0
  · exact Or.inl ⟨s.hint, s.largestRun, by simp only [pmmAlloc, if_pos hn]⟩
  by_cases hfree : s.freePages < n
  · exact Or.inl ⟨s.hint, s.largestRun, by simp only [pmmAlloc, if_neg hn, if_pos hfree]⟩
  have hle : n ≤ s.freePages := by
    rw [BitVec.lt_def] at hfree
    rw [BitVec.le_def]
    omega
  by_cases h1 : n = 1
  · have hrun : pmmAlloc s n = pmmAllocOne s := by
      simp only [pmmAlloc, if_neg hn, if_neg hfree, if_pos h1]
    rw [hrun]
    have hn1 : n.toNat = 1 := by rw [h1]; rfl
    rcases pmmAllocOne_cases h with ⟨_, hr⟩ | ⟨p, hint, _, hp, _, _, _, hr⟩ | ⟨_, _, hr⟩
    · exact Or.inl ⟨s.hint, s.largestRun, hr⟩
    · refine Or.inr ⟨p, hint, s.largestRun, hn, hle, ?_, ?_, ?_⟩
      · have := hp.lt_total
        omega
      · intro i hi
        rw [show p + i = p by omega]
        exact hp.clear
      · rw [hr, h1]
    · exact Or.inl ⟨s.startHint, s.largestRun, hr⟩
  · rcases pmmFindContiguousPages_cases h hn with ⟨p, lr, hf, hr⟩ | ⟨lr, _, hr⟩
    · have hpt := hf.le_total
      by_cases hp0 : BitVec.ofNat 32 p = 0
      · refine Or.inl ⟨s.hint, lr, ?_⟩
        simp only [pmmAlloc, if_neg hn, if_neg hfree, if_neg h1, hr, if_pos hp0]
      · refine Or.inr ⟨p, s.hint, lr, hn, hle, hpt, hf.free, ?_⟩
        simp only [pmmAlloc, if_neg hn, if_neg hfree, if_neg h1, hr, if_neg hp0]
        rw [iter_pmmSet _ _ (by omega)]
        rfl
    · refine Or.inl ⟨s.hint, lr, ?_⟩
      simp only [pmmAlloc, if_neg hn, if_neg hfree, if_neg h1, hr, if_true]

/-! ## Releasing pages -/

/-- The `i`-th turn of the release loop is at the page of `phys` itself: the
source adds the page number of `i`, which is 0 below 4096 and stays below
one page for every count a 32-bit machine has pages for. -/
theorem releaseTurn_page {phys : U32} (ha : phys.toNat % 4096 = 0) {i : Nat} (hi : i < 2 ^ 20)
    (hphys : phys.toNat < 2 ^ 32 - 4096) :
    (phys + toPage (BitVec.ofNat 32 i)).toNat / 4096 = phys.toNat / 4096 := by
  have h1 : (toPage (BitVec.ofNat 32 i)).toNat = i / 4096 := by
    rw [toNat_toPage, BitVec.toNat_ofNat]
    omega
  rw [BitVec.toNat_add, h1]
  omega

theorem iter_pmmClear (s : Pmm) {phys : U32} (ha : phys.toNat % 4096 = 0)
    (hphys : phys.toNat < 2 ^ 32 - 4096) : ∀ (n : Nat), n + 1 ≤ 2 ^ 20 →
    iter (fun i s => pmmClear s (phys + toPage (BitVec.ofNat 32 i))) 0 (n + 1) s
      = { s with bitmap := clearBit s.bitmap (phys.toNat / 4096) }
  | 0, _ => by
      rw [iter_succ, iter_zero, pmmClear_eq, releaseTurn_page ha (by decide) hphys]
  | n + 1, h => by
      rw [iter_snoc, iter_pmmClear s ha hphys n (by omega), pmmClear_eq,
        releaseTurn_page ha (by omega) hphys]
      congr 1
      apply WordBits.ext
      intro q
      simp

/-- The ranges `pmm_free` accepts. -/
structure Pmm.Frees (s : Pmm) (phys count : U32) : Prop where
  count_ne : count ≠ 0
  aligned : phys.toNat % 4096 = 0
  in_range : phys.toNat / 4096 + count.toNat ≤ s.totalPages.toNat

/-- A release clears the bit of its first page and no other, whatever its
count; the counters move by the count. -/
theorem pmmFree_eq (h : s.Shape) {phys count : U32} (hf : s.Frees phys count) :
    pmmFree s phys count =
      { s with
        bitmap := clearBit s.bitmap (phys.toNat / 4096)
        freePages := s.freePages + count
        usedPages := s.usedPages - count } := by
  have htl := h.total_lt
  have hir := hf.in_range
  have hc : 0 < count.toNat := by
    rw [Nat.pos_iff_ne_zero]
    exact fun h0 => hf.count_ne (BitVec.eq_of_toNat_eq h0)
  have halign : ¬ (phys &&& (pageSize - 1) ≠ 0) := by
    rw [not_not]
    apply BitVec.eq_of_toNat_eq
    rw [toNat_pageOffset, hf.aligned]
    rfl
  have hrange : ¬ (s.totalPages ≤ toPage phys ∨ s.totalPages - toPage phys < count) := by
    have hle : (toPage phys).toNat ≤ s.totalPages.toNat := by
      rw [toNat_toPage]
      omega
    rw [BitVec.le_def, BitVec.lt_def, BitVec.toNat_sub_of_le (BitVec.le_def.mpr hle), toNat_toPage]
    omega
  have hphys : phys.toNat < 2 ^ 32 - 4096 := by omega
  obtain ⟨n, hn⟩ : ∃ n, count.toNat = n + 1 := ⟨count.toNat - 1, by omega⟩
  simp only [pmmFree, if_neg hf.count_ne, if_neg halign, if_neg hrange, hn]
  rw [iter_pmmClear s hf.aligned hphys n (by omega)]

/-- A call `pmm_free` rejects changes nothing. -/
theorem pmmFree_rejected {phys count : U32} (hf : ¬ s.Frees phys count) :
    pmmFree s phys count = s := by
  simp only [pmmFree]
  split
  · rfl
  next hc =>
  split
  · rfl
  next ha =>
  split
  · rfl
  next hr =>
  exfalso
  rw [not_not] at ha
  have ha' : phys.toNat % 4096 = 0 := by
    rw [← toNat_pageOffset, ha]
    rfl
  refine hf ⟨hc, ha', ?_⟩
  rw [not_or, BitVec.le_def, BitVec.lt_def, toNat_toPage] at hr
  have hle : (toPage phys).toNat ≤ s.totalPages.toNat := by
    rw [toNat_toPage]
    omega
  rw [BitVec.toNat_sub_of_le (BitVec.le_def.mpr hle), toNat_toPage] at hr
  omega

end Tomk
