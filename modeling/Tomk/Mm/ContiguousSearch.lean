/-
# The search for a run of clear pages

`pmm_find_contiguous_pages` and `vmm_find_contiguous_pages` are one search,
written twice: two nested loops, over the words of the bitmap and over the
bits of a word, that carry the start and the length of the current run of
clear pages and leave with the first run that is long enough.  The two
callers differ only in what they return for it, a page number or an address.

`Scanned p` is the invariant of the double loop after `p` pages: the current
run is exactly the clear pages that end at `p`, and no run of `count` clear
pages lies below `p`.  It gives both directions at once
(`findContiguousPages_cases`): a run that is returned is clear and is the first,
and a search that returns nothing has missed nothing.
-/
import Tomk.Word
import Tomk.Lib.Loop
import Tomk.Lib.WordBits

namespace Tomk

open WordBits CFor

/-- The loop variables of the search. -/
structure Scan where
  start : Nat
  run : Nat
  largestRun : Nat

/-- One turn of the inner loop: `break` past the last page, restart the run
at a page that is used, `return` once the run is long enough. -/
def scanBit (totalPages count bits : U32) (dword bit : Nat) (s : Scan) :
    Except (Exit Scan Scan) Scan :=
  let page := dword * 32 + bit
  if totalPages.toNat ≤ page then .error (.brk s)
  else if bits &&& 1#32 <<< bit ≠ 0 then
    .ok { s with
      largestRun := if s.largestRun < s.run then s.run else s.largestRun
      run := 0 }
  else
    let start := if s.run = 0 then page else s.start
    let run := s.run + 1
    if run = count.toNat then .error (.ret { start := start, run := run, largestRun := run })
    else .ok { s with start := start, run := run }

/-- One turn of the outer loop: the 32 bits of one word. -/
def scanWord (bitmap : Words 32) (totalPages count : U32) (dword : Nat) (s : Scan) :
    Except Scan Scan :=
  match forFrom (scanBit totalPages count (bitmap dword) dword) 0 32 s with
  | .ok s => .ok s
  | .error (.brk s) => .ok s
  | .error (.ret r) => .error r

/-- The search: the first page of the run found, if any, and the largest run
seen on the way. -/
def findContiguousPages (bitmap : Words 32) (bitmapSize totalPages count : U32) :
    Option Nat × Nat :=
  if count = 0 then (none, 0)
  else
    match forFrom (scanWord bitmap totalPages count) 0 (bitmapSize.toNat / 4) ⟨0, 0, 0⟩ with
    | .ok s => (none, s.largestRun)
    | .error r => (some r.start, r.largestRun)

/-! ## The invariant of the double loop -/

/-- After `p` pages: the current run is the clear pages that end at `p`, it
extends no further down, and no `count` clear pages in a row lie below `p`. -/
structure Scanned (b : Words 32) (count p : Nat) (s : Scan) : Prop where
  run_le : s.run ≤ p
  run_lt : s.run < count
  start_eq : 0 < s.run → s.start = p - s.run
  clear : FreeRun b (p - s.run) s.run
  maximal : ∀ q n, q + n = p → FreeRun b q n → n ≤ s.run
  none_below : ∀ q, q + count ≤ p → ¬ FreeRun b q count

/-- What the search returns: the first run of `count` clear pages below
`total`. -/
structure FirstRun (b : Words 32) (total count s : Nat) : Prop where
  le_total : s + count ≤ total
  free : FreeRun b s count
  first : ∀ q, q < s → ¬ FreeRun b q count

variable {b : Words 32}

theorem Scanned.init {count : Nat} (h : 0 < count) : Scanned b count 0 ⟨0, 0, 0⟩ where
  run_le := Nat.le_refl 0
  run_lt := h
  start_eq := fun h => absurd h (Nat.lt_irrefl 0)
  clear := fun i hi => absurd hi (Nat.not_lt_zero i)
  maximal := fun q n h _ => by
    show n ≤ 0
    omega
  none_below := fun q hq => by omega

/-- A used page ends the current run. -/
theorem Scanned.used {count p : Nat} {s : Scan} (h : Scanned b count p s) (lr : Nat)
    (hp : test b p = true) : Scanned b count (p + 1) { s with largestRun := lr, run := 0 } where
  run_le := Nat.zero_le _
  run_lt := Nat.lt_of_le_of_lt (Nat.zero_le _) h.run_lt
  start_eq := fun h => absurd h (Nat.lt_irrefl 0)
  clear := fun i hi => absurd hi (Nat.not_lt_zero i)
  maximal := fun q n hq hf => by
    by_contra hn
    have hn : 0 < n := by
      show 0 < n
      exact Nat.pos_of_ne_zero (fun h0 => hn (by show n ≤ 0; omega))
    have := hf (n - 1) (by omega)
    rw [show q + (n - 1) = p by omega, hp] at this
    exact Bool.noConfusion this
  none_below := fun q hq hf => by
    rcases Nat.lt_or_ge (q + count) (p + 1) with hlt | hge
    · exact h.none_below q (by omega) hf
    · have hc := h.run_lt
      have := hf (count - 1) (by omega)
      rw [show q + (count - 1) = p by omega, hp] at this
      exact Bool.noConfusion this

/-- A clear page extends the current run by one. -/
theorem Scanned.extend {count p : Nat} {s : Scan} (h : Scanned b count p s)
    (hp : test b p = false) : FreeRun b (p + 1 - (s.run + 1)) (s.run + 1) := by
  have hle := h.run_le
  intro i hi
  rcases Nat.lt_or_ge i s.run with hlt | hge
  · have := h.clear i hlt
    rwa [show p - s.run + i = p + 1 - (s.run + 1) + i by omega] at this
  · rwa [show p + 1 - (s.run + 1) + i = p by omega]

theorem Scanned.maximal_succ {count p : Nat} {s : Scan} (h : Scanned b count p s) {q n : Nat}
    (hq : q + n = p + 1) (hf : FreeRun b q n) : n ≤ s.run + 1 := by
  cases n with
  | zero => exact Nat.zero_le _
  | succ n =>
      have := h.maximal q n (by omega) (fun i hi => hf i (by omega))
      omega

/-- A clear page that does not complete the run. -/
theorem Scanned.clear_step {count p : Nat} {s : Scan} (h : Scanned b count p s)
    (hp : test b p = false) (hc : s.run + 1 ≠ count) :
    Scanned b count (p + 1)
      { s with start := if s.run = 0 then p else s.start, run := s.run + 1 } where
  run_le := by
    have := h.run_le
    show s.run + 1 ≤ p + 1
    omega
  run_lt := by
    have := h.run_lt
    show s.run + 1 < count
    omega
  start_eq := fun _ => by
    have := h.run_le
    show (if s.run = 0 then p else s.start) = p + 1 - (s.run + 1)
    by_cases h0 : s.run = 0
    · rw [if_pos h0]
      omega
    · rw [if_neg h0, h.start_eq (by omega)]
      omega
  clear := h.extend hp
  maximal := fun q n hq hf => h.maximal_succ hq hf
  none_below := fun q hq hf => by
    rcases Nat.lt_or_ge (q + count) (p + 1) with hlt | hge
    · exact h.none_below q (by omega) hf
    · have h1 := h.maximal_succ (show q + count = p + 1 by omega) hf
      have h2 := h.run_lt
      omega

/-- A clear page that completes the run: what the search returns. -/
theorem Scanned.found {count p total : Nat} {s : Scan} (h : Scanned b count p s)
    (hp : test b p = false) (hc : s.run + 1 = count) (hpt : p < total) :
    FirstRun b total count (if s.run = 0 then p else s.start) := by
  have hle := h.run_le
  have hstart : (if s.run = 0 then p else s.start) = p + 1 - (s.run + 1) := by
    by_cases h0 : s.run = 0
    · rw [if_pos h0]
      omega
    · rw [if_neg h0, h.start_eq (by omega)]
      omega
  rw [hstart]
  refine ⟨by omega, hc ▸ h.extend hp, ?_⟩
  intro q hq hf
  rcases Nat.lt_or_ge (q + count) (p + 1) with hlt | hge
  · exact h.none_below q (by omega) hf
  · omega

/-- What leaving the inner loop establishes. -/
def BitExit (b : Words 32) (total count dword : Nat) : Exit Scan Scan → Prop
  | .brk s => total ≤ dword * 32 + 32 ∧ Scanned b count total s
  | .ret r => FirstRun b total count r.start ∧ r.largestRun = count

/-- The C test of one bit of the word is the test of its page. -/
theorem bit_ne_zero_iff {d j : Nat} (hj : j < 32) :
    b d &&& 1#32 <<< j ≠ 0 ↔ test b (d * 32 + j) = true := by
  rw [and_one_shiftLeft_ne_zero hj, test, show (d * 32 + j) / 32 = d by omega,
    show (d * 32 + j) % 32 = j by omega]

theorem scanBit_ok {total count : U32} {d j : Nat} {s s' : Scan} (hj : j < 32)
    (h : Scanned b count.toNat (min (d * 32 + j) total.toNat) s)
    (hs : scanBit total count (b d) d j s = .ok s') :
    Scanned b count.toNat (min (d * 32 + (j + 1)) total.toNat) s' := by
  by_cases ht : total.toNat ≤ d * 32 + j
  · simp only [scanBit, if_pos ht] at hs
    cases hs
  · rw [show min (d * 32 + j) total.toNat = d * 32 + j by omega] at h
    rw [show min (d * 32 + (j + 1)) total.toNat = d * 32 + j + 1 by omega]
    simp only [scanBit, if_neg ht] at hs
    by_cases hbit : b d &&& 1#32 <<< j ≠ 0
    · rw [if_pos hbit] at hs
      cases hs
      exact h.used _ ((bit_ne_zero_iff hj).mp hbit)
    · have hclear : test b (d * 32 + j) = false := by
        rw [← Bool.not_eq_true]
        exact fun hc => hbit ((bit_ne_zero_iff hj).mpr hc)
      rw [if_neg hbit] at hs
      by_cases hcount : s.run + 1 = count.toNat
      · rw [if_pos hcount] at hs
        cases hs
      · rw [if_neg hcount] at hs
        cases hs
        exact h.clear_step hclear hcount

theorem scanBit_exit {total count : U32} {d j : Nat} {s : Scan} {e : Exit Scan Scan} (hj : j < 32)
    (h : Scanned b count.toNat (min (d * 32 + j) total.toNat) s)
    (hs : scanBit total count (b d) d j s = .error e) :
    BitExit b total.toNat count.toNat d e := by
  by_cases ht : total.toNat ≤ d * 32 + j
  · simp only [scanBit, if_pos ht] at hs
    cases hs
    rw [show min (d * 32 + j) total.toNat = total.toNat by omega] at h
    exact ⟨by omega, h⟩
  · rw [show min (d * 32 + j) total.toNat = d * 32 + j by omega] at h
    simp only [scanBit, if_neg ht] at hs
    by_cases hbit : b d &&& 1#32 <<< j ≠ 0
    · rw [if_pos hbit] at hs
      cases hs
    · have hclear : test b (d * 32 + j) = false := by
        rw [← Bool.not_eq_true]
        exact fun hc => hbit ((bit_ne_zero_iff hj).mpr hc)
      rw [if_neg hbit] at hs
      by_cases hcount : s.run + 1 = count.toNat
      · rw [if_pos hcount] at hs
        cases hs
        exact ⟨h.found hclear hcount (by omega), hcount⟩
      · rw [if_neg hcount] at hs
        cases hs

theorem scanWord_spec {total count : U32} {d : Nat} {s : Scan}
    (h : Scanned b count.toNat (min (d * 32) total.toNat) s) :
    (∃ s', scanWord b total count d s = .ok s' ∧
      Scanned b count.toNat (min ((d + 1) * 32) total.toNat) s') ∨
    (∃ r, scanWord b total count d s = .error r ∧
      FirstRun b total.toNat count.toNat r.start ∧ r.largestRun = count.toNat) := by
  have hloop := forFrom_except (a := 0) (n := 32)
    (fun j s => Scanned b count.toNat (min (d * 32 + j) total.toNat) s)
    (BitExit b total.toNat count.toNat d) (f := scanBit total count (b d) d) (s := s) h
    (fun j t t' _ hj ht hs => scanBit_ok (by omega) ht hs)
    (fun j t e _ hj ht hs => scanBit_exit (by omega) ht hs)
  rcases hloop with ⟨t, hrun, ht⟩ | ⟨e, hrun, he⟩
  · refine Or.inl ⟨t, by simp only [scanWord, hrun], ?_⟩
    rwa [show (d + 1) * 32 = d * 32 + (0 + 32) by omega]
  · cases e with
    | brk t =>
        refine Or.inl ⟨t, by simp only [scanWord, hrun], ?_⟩
        rw [show min ((d + 1) * 32) total.toNat = total.toNat by have := he.1; omega]
        exact he.2
    | ret r => exact Or.inr ⟨r, by simp only [scanWord, hrun], he⟩

/-! ## The two directions of the search -/

theorem findContiguousPages_cases {size total count : U32} (hc : count ≠ 0)
    (hsize : total.toNat ≤ size.toNat / 4 * 32) :
    (∃ s, findContiguousPages b size total count = (some s, count.toNat) ∧
      FirstRun b total.toNat count.toNat s) ∨
    (∃ lr, findContiguousPages b size total count = (none, lr) ∧
      ∀ q, q + count.toNat ≤ total.toNat → ¬ FreeRun b q count.toNat) := by
  have hpos : 0 < count.toNat := by
    rw [Nat.pos_iff_ne_zero]
    exact fun h => hc (BitVec.eq_of_toNat_eq h)
  have hloop := forFrom_except (a := 0) (n := size.toNat / 4)
    (fun d s => Scanned b count.toNat (min (d * 32) total.toNat) s)
    (fun r => FirstRun b total.toNat count.toNat r.start ∧ r.largestRun = count.toNat)
    (f := scanWord b total count) (s := ⟨0, 0, 0⟩)
    (by rw [Nat.zero_mul, Nat.zero_min]; exact Scanned.init hpos)
    (fun d t t' _ _ ht hs => by
      rcases scanWord_spec ht with ⟨s', hs', h'⟩ | ⟨r, hr, _⟩
      · rw [hs'] at hs
        cases hs
        exact h'
      · rw [hr] at hs
        cases hs)
    (fun d t r _ _ ht hs => by
      rcases scanWord_spec ht with ⟨s', hs', _⟩ | ⟨r', hr, h'⟩
      · rw [hs'] at hs
        cases hs
      · rw [hr] at hs
        cases hs
        exact h')
  rcases hloop with ⟨s, hrun, hs⟩ | ⟨r, hrun, hr, hl⟩
  · refine Or.inr ⟨s.largestRun, by simp only [findContiguousPages, if_neg hc, hrun], ?_⟩
    rw [show min ((0 + size.toNat / 4) * 32) total.toNat = total.toNat by omega] at hs
    exact hs.none_below
  · refine Or.inl ⟨r.start, ?_, hr⟩
    simp only [findContiguousPages, if_neg hc, hrun, hl]

end Tomk
