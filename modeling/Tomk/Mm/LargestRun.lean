/-
# The largest run that a search reports

When a search for pages fails, `largest_run` is printed as the length of the
longest run of clear pages.  The search folds a run into it at the page in use
that ends the run (`Folded`), so a run that ends with memory itself is left
out.  The report is exact where such a run is matched by one as long that a page
in use ends (`find_largestRun_iff`).

Both functions also return 0 where they have found a run: for a count of 0, and
for a run at address 0.  There the report is the count that was asked for.
-/
import Tomk.Mm.FirstFit

namespace Tomk

open WordBits CFor

/-- The longest run of clear pages below `total` has `n` pages. -/
structure LongestRun (b : Words 32) (total n : Nat) : Prop where
  attained : ∃ q, q + n ≤ total ∧ FreeRun b q n
  longest : ∀ q k, q + k ≤ total → FreeRun b q k → k ≤ n

/-- A run of `n` clear pages from `q` on, ended by a page in use below `p`. -/
structure EndedRun (b : Words 32) (p q n : Nat) : Prop where
  lt : q + n < p
  free : FreeRun b q n
  used : test b (q + n) = true

/-- `lr` is the longest of the runs that a page in use ends below `p`. -/
structure Folded (b : Words 32) (p lr : Nat) : Prop where
  attained : lr = 0 ∨ ∃ q, EndedRun b p q lr
  longest : ∀ q n, EndedRun b p q n → n ≤ lr

/-- Where the search finds a run no clear run is longer; and where it finds none
every run that ends with memory is matched by one that a page in use ends. -/
def LargestRunExact (b : Words 32) (total count : Nat) : Prop :=
  (¬ NoRun b total count → ∀ q n, q + n ≤ total → FreeRun b q n → n ≤ count) ∧
    (NoRun b total count → ∀ n, 0 < n → n ≤ total → FreeRun b (total - n) n →
      ∃ q, EndedRun b total q n)

/-- The property as it is asked: of both functions, in every state. -/
def LargestRunReported : Prop :=
  (∀ (s : Pmm) (count : U32), s.bitmapSize.toNat = (s.totalPages.toNat + 31) / 32 * 4 →
    (pmmFindContiguousPages s count).1 = 0 →
    LongestRun s.bitmap s.totalPages.toNat
      (pmmGetLargestRun (pmmFindContiguousPages s count).2).toNat) ∧
  (∀ (v : Vmm) (count : U32), v.bitmapSize.toNat = (v.totalPages.toNat + 31) / 32 * 4 →
    (vmmFindContiguousPages v count).1 = 0 →
    LongestRun v.bitmap v.totalPages.toNat
      (vmmGetLargestRun (vmmFindContiguousPages v count).2).toNat)

variable {b : Words 32} {total p lr : Nat}

/-! ## Runs that end -/

theorem EndedRun.mono {p' q n : Nat} (h : EndedRun b p q n) (hp : p ≤ p') : EndedRun b p' q n :=
  ⟨Nat.lt_of_lt_of_le h.lt hp, h.free, h.used⟩

/-- The end of a run is the end of its last pages. -/
theorem EndedRun.shorten {q n k : Nat} (h : EndedRun b p q n) (hk : k ≤ n) :
    EndedRun b p (q + (n - k)) k := by
  have hend : q + (n - k) + k = q + n := by omega
  refine ⟨by rw [hend]; exact h.lt, fun i hi => ?_, by rw [hend]; exact h.used⟩
  have := h.free (n - k + i) (by omega)
  rwa [← Nat.add_assoc] at this

/-- A run goes on up to a page in use or to the end of memory. -/
theorem FreeRun.extend {q : Nat} : ∀ (d k : Nat), q + k + d = total → FreeRun b q k →
    (∃ n, k ≤ n ∧ EndedRun b total q n) ∨ FreeRun b q (total - q)
  | 0, k, hd, hf => by
      right
      rwa [show total - q = k by omega]
  | d + 1, k, hd, hf => by
      by_cases hp : test b (q + k) = true
      · exact Or.inl ⟨k, Nat.le_refl k, by omega, hf, hp⟩
      · have hf' : FreeRun b q (k + 1) := by
          intro i hi
          rcases Nat.lt_succ_iff_lt_or_eq.mp hi with hlt | rfl
          · exact hf i hlt
          · exact Bool.eq_false_iff.mpr hp
        rcases FreeRun.extend d (k + 1) (by omega) hf' with ⟨n, hn, hrun⟩ | hend
        · exact Or.inl ⟨n, by omega, hrun⟩
        · exact Or.inr hend

/-! ## Folding -/

theorem Folded.init (b : Words 32) : Folded b 0 0 :=
  ⟨Or.inl rfl, fun _ _ h => absurd h.lt (Nat.not_lt_zero _)⟩

/-- A clear page ends no run. -/
theorem Folded.clear (h : Folded b p lr) (hp : test b p = false) : Folded b (p + 1) lr := by
  refine ⟨?_, fun q n hrun => h.longest q n ⟨?_, hrun.free, hrun.used⟩⟩
  · rcases h.attained with h0 | ⟨q, hq⟩
    · exact Or.inl h0
    · exact Or.inr ⟨q, hq.mono (Nat.le_succ p)⟩
  · have hlt := hrun.lt
    have hne : q + n ≠ p := by
      intro he
      have hused := hrun.used
      rw [he, hp] at hused
      exact Bool.noConfusion hused
    omega

/-- A page in use ends the current run, which is folded in. -/
theorem Folded.used {count : Nat} {s : Scan} (hs : Scanned b count p s)
    (h : Folded b p s.largestRun) (hp : test b p = true) :
    Folded b (p + 1) (if s.largestRun < s.run then s.run else s.largestRun) := by
  have hle := hs.run_le
  constructor
  · split
    · have hend : p - s.run + s.run = p := by omega
      exact Or.inr ⟨p - s.run, by omega, hs.clear, by rw [hend]; exact hp⟩
    · rcases h.attained with h0 | ⟨q, hq⟩
      · exact Or.inl h0
      · exact Or.inr ⟨q, hq.mono (Nat.le_succ p)⟩
  · intro q n hrun
    have hlt := hrun.lt
    have hn : n ≤ s.largestRun ∨ n ≤ s.run := by
      by_cases he : q + n = p
      · exact Or.inr (hs.maximal q n he hrun.free)
      · exact Or.inl (h.longest q n ⟨by omega, hrun.free, hrun.used⟩)
    split <;> omega

/-- The loop variables after `p` pages, and what is folded in. -/
structure ScannedFolded (b : Words 32) (count p : Nat) (s : Scan) : Prop where
  scanned : Scanned b count p s
  folded : Folded b p s.largestRun

/-- One page of the inner loop. -/
theorem ScannedFolded.bit {total count : U32} {d j : Nat} {s : Scan} (hj : j < 32)
    (h : ScannedFolded b count.toNat (min (d * 32 + j) total.toNat) s) :
    (∀ s', scanBit total count (b d) d j s = .ok s' →
      ScannedFolded b count.toNat (min (d * 32 + (j + 1)) total.toNat) s') ∧
    (∀ s', scanBit total count (b d) d j s = .error (.brk s') →
      total.toNat ≤ d * 32 + 32 ∧ ScannedFolded b count.toNat total.toNat s') := by
  by_cases ht : total.toNat ≤ d * 32 + j
  · simp only [scanBit, if_pos ht]
    refine ⟨fun s' hs => (by cases hs), fun s' hs => ?_⟩
    cases hs
    rw [show min (d * 32 + j) total.toNat = total.toNat by omega] at h
    exact ⟨by omega, h⟩
  · refine ⟨fun s' hs => ⟨scanBit_ok hj h.scanned hs, ?_⟩, fun s' hs => ?_⟩
    · rw [show min (d * 32 + j) total.toNat = d * 32 + j by omega] at h
      rw [show min (d * 32 + (j + 1)) total.toNat = d * 32 + j + 1 by omega]
      simp only [scanBit, if_neg ht] at hs
      by_cases hbit : b d &&& 1#32 <<< j ≠ 0
      · rw [if_pos hbit] at hs
        cases hs
        exact Folded.used h.scanned h.folded ((bit_ne_zero_iff hj).mp hbit)
      · have hclear : test b (d * 32 + j) = false := by
          rw [← Bool.not_eq_true]
          exact fun hc => hbit ((bit_ne_zero_iff hj).mpr hc)
        rw [if_neg hbit] at hs
        split at hs
        · cases hs
        · cases hs
          exact h.folded.clear hclear
    · exfalso
      simp only [scanBit, if_neg ht] at hs
      split at hs
      · cases hs
      · split at hs <;> cases hs

/-- One word of the outer loop. -/
theorem ScannedFolded.word {total count : U32} {d : Nat} {s s' : Scan}
    (h : ScannedFolded b count.toNat (min (d * 32) total.toNat) s)
    (hs : scanWord b total count d s = .ok s') :
    ScannedFolded b count.toNat (min ((d + 1) * 32) total.toNat) s' := by
  have hloop := forFrom_except (a := 0) (n := 32)
    (fun j s => ScannedFolded b count.toNat (min (d * 32 + j) total.toNat) s)
    (fun e => ∀ t, e = Exit.brk t →
      total.toNat ≤ d * 32 + 32 ∧ ScannedFolded b count.toNat total.toNat t)
    (f := scanBit total count (b d) d) (s := s) h
    (fun j t t' _ hj ht hok => (ht.bit (by omega)).1 t' hok)
    (fun j t e _ hj ht herr t' he => (ht.bit (by omega)).2 t' (by rw [herr, he]))
  rcases hloop with ⟨t, hrun, ht⟩ | ⟨e, hrun, he⟩
  · simp only [scanWord, hrun] at hs
    cases hs
    rwa [show (d + 1) * 32 = d * 32 + (0 + 32) by omega]
  · cases e with
    | brk t =>
        simp only [scanWord, hrun] at hs
        cases hs
        obtain ⟨hend, ht⟩ := he _ rfl
        rwa [show min ((d + 1) * 32) total.toNat = total.toNat by omega]
    | ret r =>
        simp only [scanWord, hrun] at hs
        cases hs

/-- A search that finds nothing has folded in every run that a page in use
ends. -/
theorem findContiguousPages_folded {size total count : U32} {lr : Nat} (hc : count ≠ 0)
    (hsize : total.toNat ≤ size.toNat / 4 * 32)
    (hrun : findContiguousPages b size total count = (none, lr)) : Folded b total.toNat lr := by
  have hloop := forFrom_except (a := 0) (n := size.toNat / 4)
    (fun d s => ScannedFolded b count.toNat (min (d * 32) total.toNat) s) (fun _ => True)
    (f := scanWord b total count) (s := ⟨0, 0, 0⟩)
    (by
      rw [Nat.zero_mul, Nat.zero_min]
      exact ⟨Scanned.init (toNat_pos_of_ne hc), Folded.init b⟩)
    (fun d t t' _ _ ht hs => ht.word hs) (fun _ _ _ _ _ _ _ => trivial)
  rcases hloop with ⟨s, hs, h⟩ | ⟨r, hs, _⟩
  · simp only [findContiguousPages, if_neg hc, hs, Prod.mk.injEq, true_and] at hrun
    rw [show min ((0 + size.toNat / 4) * 32) total.toNat = total.toNat by omega] at h
    exact hrun ▸ h.folded
  · simp only [findContiguousPages, if_neg hc, hs, Prod.mk.injEq, reduceCtorEq, false_and] at hrun

/-! ## When the report is exact -/

/-- The longest of the runs that are ended is the longest of all, if those that
end with memory are matched. -/
theorem Folded.longestRun_iff (h : Folded b total lr) :
    LongestRun b total lr ↔
      ∀ n, 0 < n → n ≤ total → FreeRun b (total - n) n → ∃ q, EndedRun b total q n := by
  constructor
  · intro hl n hn hle hf
    have hmax := hl.longest (total - n) n (by omega) hf
    rcases h.attained with h0 | ⟨q, hq⟩
    · omega
    · exact ⟨_, hq.shorten hmax⟩
  · intro hmatch
    constructor
    · rcases h.attained with h0 | ⟨q, hq⟩
      · exact ⟨0, by omega, fun i hi => absurd hi (by omega)⟩
      · exact ⟨q, Nat.le_of_lt hq.lt, hq.free⟩
    · intro q k hk hf
      have hsum : q + k + (total - (q + k)) = total := by omega
      rcases FreeRun.extend _ k hsum hf with ⟨n, hn, hrun⟩ | hend
      · exact Nat.le_trans hn (h.longest q n hrun)
      · rcases Nat.eq_zero_or_pos k with h0 | hpos
        · omega
        · -- the run goes on to the end of memory
          have hend' : FreeRun b (total - (total - q)) (total - q) := by
            rwa [show total - (total - q) = q by omega]
          obtain ⟨r, hr⟩ := hmatch (total - q) (by omega) (by omega) hend'
          exact Nat.le_trans (by omega) (h.longest r (total - q) hr)

/-- A search that has found a run of `count` pages reports `count`. -/
theorem longestRun_found {count : Nat} (hrun : ∃ q, q + count ≤ total ∧ FreeRun b q count) :
    LongestRun b total count ↔ LargestRunExact b total count := by
  obtain ⟨p, hp, hf⟩ := hrun
  have hno : ¬ NoRun b total count := fun hno => hno p hp hf
  constructor
  · exact fun hl => ⟨fun _ => hl.longest, fun h => absurd h hno⟩
  · exact fun he => ⟨⟨p, hp, hf⟩, he.1 hno⟩

/-- What the search reports is the longest run exactly under that condition. -/
theorem findContiguousPages_longestRun {size total : U32} (count : U32)
    (hsize : total.toNat ≤ size.toNat / 4 * 32) :
    LongestRun b total.toNat (BitVec.ofNat 32 (findContiguousPages b size total count).2).toNat ↔
      LargestRunExact b total.toNat count.toNat := by
  by_cases hc : count = 0
  · have hrun : findContiguousPages b size total count = (none, 0) := by
      rw [findContiguousPages, if_pos hc]
    rw [hrun, hc]
    exact longestRun_found ⟨0, Nat.zero_le _, fun i hi => absurd hi (Nat.not_lt_zero i)⟩
  · rcases findContiguousPages_cases (b := b) hc hsize with ⟨p, hrun, hf⟩ | ⟨lr, hrun, hno⟩
    · rw [hrun, BitVec.ofNat_toNat, BitVec.setWidth_eq]
      exact longestRun_found ⟨p, hf.le_total, hf.free⟩
    · have hfold := findContiguousPages_folded hc hsize hrun
      have hle : lr ≤ total.toNat := by
        rcases hfold.attained with h0 | ⟨q, hq⟩
        · omega
        · have := hq.lt
          omega
      have hlr : (BitVec.ofNat 32 lr).toNat = lr := by
        have := total.isLt
        rw [BitVec.toNat_ofNat]
        omega
      rw [hrun, hlr, hfold.longestRun_iff]
      exact ⟨fun h => ⟨fun hyes => absurd hno hyes, fun _ => h⟩, fun h => h.2 hno⟩

/-- **The report.**  When either function returns 0, what it reports is the
longest run of clear pages exactly under that condition on the bitmap. -/
theorem find_largestRun_iff (s : Pmm) (v : Vmm) (count : U32)
    (hs : s.bitmapSize.toNat = (s.totalPages.toNat + 31) / 32 * 4)
    (hv : v.bitmapSize.toNat = (v.totalPages.toNat + 31) / 32 * 4) :
    ((pmmFindContiguousPages s count).1 = 0 →
      (LongestRun s.bitmap s.totalPages.toNat
          (pmmGetLargestRun (pmmFindContiguousPages s count).2).toNat ↔
        LargestRunExact s.bitmap s.totalPages.toNat count.toNat)) ∧
    ((vmmFindContiguousPages v count).1 = 0 →
      (LongestRun v.bitmap v.totalPages.toNat
          (vmmGetLargestRun (vmmFindContiguousPages v count).2).toNat ↔
        LargestRunExact v.bitmap v.totalPages.toNat count.toNat)) := by
  constructor
  · intro _
    have hsize : s.totalPages.toNat ≤ s.bitmapSize.toNat / 4 * 32 := by
      rw [hs]
      omega
    rw [← findContiguousPages_longestRun count hsize, pmmFindContiguousPages]
    split <;> rfl
  · intro _
    have hsize : v.totalPages.toNat ≤ v.bitmapSize.toNat / 4 * 32 := by
      rw [hv]
      omega
    rw [← findContiguousPages_longestRun count hsize, vmmFindContiguousPages]
    split <;> rfl

/-! ## Three frames at the end of memory -/

/-- Six frames, of which frame 1 and the last three are free. -/
def splitPmm : Pmm := ⟨fun _ => 0xFFFFFFC5, 4, 6, 6, 4, 2, 0, 0, 0x6000⟩

/-- Four frames are asked for: the three at the end are not reported. -/
theorem largestRun_end : ¬ LargestRunReported := by
  intro hall
  have hlong := hall.1 splitPmm 4 (by decide) (by decide +kernel)
  have hreport : (pmmGetLargestRun (pmmFindContiguousPages splitPmm 4).2).toNat = 1 := by
    decide +kernel
  rw [hreport] at hlong
  have hle := hlong.longest 3 3 (by decide) (fun i hi => by
    have : i = 0 ∨ i = 1 ∨ i = 2 := by omega
    rcases this with rfl | rfl | rfl <;> decide)
  omega

/-- 33 pages of that machine, and of an empty window. -/
theorem find_largestRun_iff_small :
    (LongestRun splitPmm.bitmap 6 1 ↔ LargestRunExact splitPmm.bitmap 6 33) ∧
      (LongestRun smallVmm.bitmap 32 0 ↔ LargestRunExact smallVmm.bitmap 32 33) := by
  obtain ⟨hs, hv⟩ := find_largestRun_iff splitPmm smallVmm 33 (by decide) (by decide)
  have hs := hs (by decide +kernel)
  have hv := hv (by decide +kernel)
  have h1 : (pmmGetLargestRun (pmmFindContiguousPages splitPmm 33).2).toNat = 1 := by decide +kernel
  have h2 : (vmmGetLargestRun (vmmFindContiguousPages smallVmm 33).2).toNat = 0 := by decide +kernel
  rw [h1] at hs
  rw [h2] at hv
  exact ⟨hs, hv⟩

end Tomk
