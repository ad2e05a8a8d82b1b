/-
# Sets of numbers stored as bits of machine words

A bitmap is an array of words; bit `p` of the set lives in word `p / w` at
position `p % w`.  `test`, `setBit` and `clearBit` are the three operations an
allocator performs on it, `setRun` and `clearRun` the two on a run of
consecutive bits, and `clearCount` is the number of clear bits below a bound.

Two arrays with the same bits are the same array (`ext`), so every equation
between arrays below is proved bit by bit.
-/
import Mathlib.Algebra.GroupWithZero.Nat
import Mathlib.Data.Finset.Card
import Mathlib.Data.Finset.Range
import Mathlib.Order.Interval.Finset.Nat
import Mathlib.Tactic.Common

namespace WordBits

/-- An array of `w`-bit words, read from its base. -/
abbrev Words (w : Nat) := Nat → BitVec w

variable {w : Nat}

def test (b : Words w) (p : Nat) : Bool := (b (p / w)).getLsbD (p % w)

def setBit (b : Words w) (p : Nat) : Words w := fun i =>
  if i = p / w then b i ||| 1#w <<< (p % w) else b i

def clearBit (b : Words w) (p : Nat) : Words w := fun i =>
  if i = p / w then b i &&& ~~~(1#w <<< (p % w)) else b i

/-! ## Single bits -/

theorem getLsbD_one_shiftLeft {k j : Nat} (hj : j < w) :
    (1#w <<< k).getLsbD j = decide (j = k) := by
  rw [BitVec.getLsbD_shiftLeft]
  by_cases hjk : j = k
  · subst hjk
    have : 0 < w := by omega
    simp [hj, this]
  · by_cases hlt : j < k
    · simp [hlt, hjk]
    · have : j - k ≠ 0 := by omega
      simp [hj, hlt, hjk, this]

/-- The C test `word & (1 << k)`. -/
theorem and_one_shiftLeft_ne_zero {x : BitVec w} {k : Nat} (hk : k < w) :
    x &&& 1#w <<< k ≠ 0 ↔ x.getLsbD k = true := by
  constructor
  · intro h
    by_contra hx
    apply h
    apply BitVec.eq_of_getLsbD_eq
    intro j hj
    rw [BitVec.getLsbD_and, getLsbD_one_shiftLeft hj]
    by_cases hjk : j = k
    · subst hjk
      simpa using hx
    · simp [hjk]
  · intro h h0
    have := congrArg (fun y => BitVec.getLsbD y k) h0
    simp [BitVec.getLsbD_and, getLsbD_one_shiftLeft hk, h] at this

theorem split_eq {p q : Nat} (h : p / w = q / w) (h' : p % w = q % w) : p = q := by
  rw [← Nat.div_add_mod p w, ← Nat.div_add_mod q w, h, h']

section Width
variable [NeZero w]

theorem mod_lt (p : Nat) : p % w < w := Nat.mod_lt p (Nat.pos_of_ne_zero (NeZero.ne w))

@[simp] theorem test_setBit (b : Words w) (p q : Nat) :
    test (setBit b p) q = (decide (q = p) || test b q) := by
  by_cases hi : q / w = p / w
  · simp only [test, setBit, hi, if_true, BitVec.getLsbD_or, getLsbD_one_shiftLeft (mod_lt q)]
    have : (q % w = p % w) ↔ q = p := ⟨split_eq hi, fun h => by rw [h]⟩
    rw [Bool.or_comm, decide_eq_decide.mpr this]
  · have hne : q ≠ p := fun h => hi (by rw [h])
    simp [test, setBit, hi, hne]

@[simp] theorem test_clearBit (b : Words w) (p q : Nat) :
    test (clearBit b p) q = (!decide (q = p) && test b q) := by
  by_cases hi : q / w = p / w
  · simp only [test, clearBit, hi, if_true, BitVec.getLsbD_and, BitVec.getLsbD_not,
      getLsbD_one_shiftLeft (mod_lt q), mod_lt q, decide_true, Bool.true_and]
    have : (q % w = p % w) ↔ q = p := ⟨split_eq hi, fun h => by rw [h]⟩
    rw [Bool.and_comm, decide_eq_decide.mpr this]
  · have hne : q ≠ p := fun h => hi (by rw [h])
    simp [test, clearBit, hi, hne]

omit [NeZero w] in
/-- Arrays are determined by their bits. -/
theorem ext {a b : Words w} (h : ∀ p, test a p = test b p) : a = b := by
  funext i
  apply BitVec.eq_of_getLsbD_eq
  intro j hj
  have hp := h (w * i + j)
  have hdiv : (w * i + j) / w = i := by
    rw [Nat.mul_add_div (by omega), Nat.div_eq_of_lt hj, Nat.add_zero]
  have hmod : (w * i + j) % w = j := by
    rw [Nat.mul_add_mod, Nat.mod_eq_of_lt hj]
  simpa only [test, hdiv, hmod] using hp

end Width

/-! ## Runs of bits -/

/-- Pages `s, …, s + n - 1` are all clear. -/
def FreeRun (b : Words w) (s n : Nat) : Prop := ∀ i, i < n → test b (s + i) = false

/-- Set `n` bits from `s` on. -/
def setRun (b : Words w) (s : Nat) : Nat → Words w
  | 0 => b
  | n + 1 => setBit (setRun b s n) (s + n)

/-- Clear `n` bits from `s` on. -/
def clearRun (b : Words w) (s : Nat) : Nat → Words w
  | 0 => b
  | n + 1 => clearBit (clearRun b s n) (s + n)

section Width
variable [NeZero w]

theorem test_setRun (b : Words w) (s n q : Nat) :
    test (setRun b s n) q = (decide (s ≤ q ∧ q < s + n) || test b q) := by
  induction n with
  | zero => simp [setRun]
  | succ n ih =>
      rw [setRun, test_setBit, ih, ← Bool.or_assoc, ← Bool.decide_or]
      congr 1
      rw [decide_eq_decide]
      omega

theorem test_clearRun (b : Words w) (s n q : Nat) :
    test (clearRun b s n) q = (!decide (s ≤ q ∧ q < s + n) && test b q) := by
  induction n with
  | zero =>
      have : ¬ (s ≤ q ∧ q < s + 0) := by omega
      rw [clearRun, decide_eq_false this, Bool.not_false, Bool.true_and]
  | succ n ih =>
      rw [clearRun, test_clearBit, ih, ← Bool.and_assoc, ← Bool.not_or, ← Bool.decide_or]
      congr 2
      rw [decide_eq_decide]
      omega

/-- Releasing the run that was just taken restores the array. -/
theorem clearRun_setRun {b : Words w} {s n : Nat} (h : FreeRun b s n) :
    clearRun (setRun b s n) s n = b := by
  apply ext
  intro q
  rw [test_clearRun, test_setRun]
  by_cases hq : s ≤ q ∧ q < s + n
  · have := h (q - s) (by omega)
    rw [show s + (q - s) = q by omega] at this
    rw [decide_eq_true hq, this, Bool.not_true, Bool.false_and]
  · simp only [decide_eq_false hq, Bool.not_false, Bool.true_and, Bool.false_or]

end Width

/-! ## Counting the clear bits -/

/-- The clear bits below `n`. -/
def clearSet (b : Words w) (n : Nat) : Finset Nat := (Finset.range n).filter (test b · = false)

/-- The number of clear bits below `n`. -/
def clearCount (b : Words w) (n : Nat) : Nat := (clearSet b n).card

theorem mem_clearSet {b : Words w} {n p : Nat} :
    p ∈ clearSet b n ↔ p < n ∧ test b p = false := by
  simp [clearSet]

theorem clearCount_le (b : Words w) (n : Nat) : clearCount b n ≤ n := by
  have := Finset.card_filter_le (Finset.range n) (test b · = false)
  simpa [clearCount, clearSet] using this

theorem clearCount_pos {b : Words w} {n : Nat} :
    0 < clearCount b n ↔ ∃ p, p < n ∧ test b p = false := by
  rw [clearCount, Finset.card_pos]
  constructor
  · rintro ⟨p, hp⟩
    exact ⟨p, mem_clearSet.mp hp⟩
  · rintro ⟨p, hp⟩
    exact ⟨p, mem_clearSet.mpr hp⟩

theorem clearCount_freeRun_le {b : Words w} {s k n : Nat} (h : FreeRun b s k) (hn : s + k ≤ n) :
    k ≤ clearCount b n := by
  have hsub : Finset.Ico s (s + k) ⊆ clearSet b n := by
    intro p hp
    rw [Finset.mem_Ico] at hp
    have := h (p - s) (by omega)
    rw [show s + (p - s) = p by omega] at this
    exact mem_clearSet.mpr ⟨by omega, this⟩
  have := Finset.card_le_card hsub
  simpa [clearCount] using this

section Width
variable [NeZero w]

omit [NeZero w] in
/-- Where no bit is set they all count. -/
theorem clearCount_all {b : Words w} {n : Nat} (h : ∀ q, q < n → test b q = false) :
    clearCount b n = n := by
  have h1 := clearCount_freeRun_le (b := b) (s := 0) (k := n) (n := n)
    (fun i hi => by rw [Nat.zero_add]; exact h i hi) (by omega)
  have h2 := clearCount_le b n
  omega

theorem clearCount_setBit {b : Words w} {p n : Nat} (hp : p < n) (h : test b p = false) :
    clearCount (setBit b p) n + 1 = clearCount b n := by
  have hset : clearSet (setBit b p) n = (clearSet b n).erase p := by
    ext q
    simp only [mem_clearSet, test_setBit, Finset.mem_erase, Bool.or_eq_false_iff,
      decide_eq_false_iff_not]
    tauto
  rw [clearCount, hset]
  exact Finset.card_erase_add_one (mem_clearSet.mpr ⟨hp, h⟩)

theorem clearCount_clearBit {b : Words w} {p n : Nat} (hp : p < n) (h : test b p = true) :
    clearCount (clearBit b p) n = clearCount b n + 1 := by
  have h1 : test (clearBit b p) p = false := by simp
  have h2 := clearCount_setBit (b := clearBit b p) hp h1
  have h3 : setBit (clearBit b p) p = b := by
    apply ext
    intro q
    by_cases hq : q = p
    · subst hq
      simp [h]
    · simp [hq]
  rw [h3] at h2
  exact h2.symm

theorem clearCount_setRun {b : Words w} {s k n : Nat} (h : FreeRun b s k) (hn : s + k ≤ n) :
    clearCount (setRun b s k) n + k = clearCount b n := by
  induction k with
  | zero => rfl
  | succ k ih =>
      have h1 : test (setRun b s k) (s + k) = false := by
        rw [test_setRun, h k (by omega)]
        simp
      have h2 := clearCount_setBit (n := n) (by omega) h1
      have h3 := ih (fun i hi => h i (by omega)) (by omega)
      rw [setRun]
      omega

theorem clearCount_clearRun {b : Words w} {s k n : Nat} (h : ∀ i, i < k → test b (s + i) = true)
    (hn : s + k ≤ n) : clearCount (clearRun b s k) n = clearCount b n + k := by
  induction k with
  | zero => rfl
  | succ k ih =>
      have h1 : test (clearRun b s k) (s + k) = true := by
        rw [test_clearRun, h k (by omega)]
        simp
      have h2 := clearCount_clearBit (n := n) (by omega) h1
      have h3 := ih (fun i hi => h i (by omega)) (by omega)
      rw [clearRun]
      omega

end Width

end WordBits
