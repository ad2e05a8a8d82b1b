/-
# Memory, byte by byte

A 32-bit address space as a function, with little-endian words and fills.  A
range is a start and a length, and may run over the end of the address space:
whether an address is in it is a matter of the distance from the start
(`InRange`), and whether two ranges are apart, of the distances between the starts
(`Apart`), so that it can be decided without a look at the addresses.

A load looks at the bytes of its range and at no others, and a store changes those
of its range and no others.  All frame lemmas are instances of the two.
-/
import Mathlib.Algebra.Group.Nat.Defs
import Mathlib.Data.List.Pairwise
import Mathlib.Tactic.Common

namespace ByteMem

abbrev Addr := BitVec 32

abbrev Mem := Addr → BitVec 8

/-! ## Ranges -/

/-- `x` is one of the `n` addresses from `a` on. -/
def InRange (a : Addr) (n : Nat) (x : Addr) : Prop := (x - a).toNat < n

instance (a : Addr) (n : Nat) (x : Addr) : Decidable (InRange a n x) :=
  inferInstanceAs (Decidable (_ < _))

/-- No address is in both ranges. -/
def Apart (a : Addr) (n : Nat) (b : Addr) (k : Nat) : Prop :=
  n = 0 ∨ k = 0 ∨ n ≤ (b - a).toNat ∧ k ≤ (a - b).toNat

instance (a : Addr) (n : Nat) (b : Addr) (k : Nat) : Decidable (Apart a n b k) :=
  inferInstanceAs (Decidable (_ ∨ _))

variable {m m' : Mem} {a b x : Addr} {n k d : Nat} {v : BitVec 32}

theorem Apart.not_inRange (h : Apart a n b k) (hx : InRange a n x) : ¬ InRange b k x := by
  intro hy
  rw [InRange] at hx hy
  rcases h with rfl | rfl | ⟨h1, h2⟩
  · exact Nat.not_lt_zero _ hx
  · exact Nat.not_lt_zero _ hy
  · rw [BitVec.toNat_sub] at h1 h2 hx hy
    omega

/-- A part of a range. -/
theorem InRange.sub (hx : InRange (a + BitVec.ofNat 32 d) k x) (hd : d + k ≤ n) (hn : n ≤ 2 ^ 32) :
    InRange a n x := by
  rw [InRange, BitVec.toNat_sub] at *
  rw [BitVec.toNat_add, BitVec.toNat_ofNat] at hx
  omega

/-- Where in the range the part is. -/
theorem InRange.offset (hx : InRange (a + BitVec.ofNat 32 d) k x) (hd : d + k ≤ 2 ^ 32) :
    d ≤ (x - a).toNat ∧ (x - a).toNat < d + k := by
  rw [InRange, BitVec.toNat_sub, BitVec.toNat_add, BitVec.toNat_ofNat] at hx
  rw [BitVec.toNat_sub]
  omega

theorem inRange_add {i : Nat} (hi : i < n) (hn : n ≤ 2 ^ 32) : InRange a n (a + BitVec.ofNat 32 i) := by
  rw [InRange, BitVec.toNat_sub, BitVec.toNat_add, BitVec.toNat_ofNat]
  omega

/-! ## Words -/

def load16 (m : Mem) (a : Addr) : BitVec 16 := m (a + 1) ++ m a

def load32 (m : Mem) (a : Addr) : BitVec 32 := m (a + 3) ++ m (a + 2) ++ m (a + 1) ++ m a

def store32 (m : Mem) (a : Addr) (v : BitVec 32) : Mem := fun x =>
  if InRange a 4 x then v.extractLsb' (8 * (x - a).toNat) 8 else m x

/-- `memset` -/
def fill (m : Mem) (a : Addr) (c : BitVec 8) (n : Nat) : Mem := fun x =>
  if InRange a n x then c else m x

theorem inRange_four : InRange a 4 a ∧ InRange a 4 (a + 1) ∧ InRange a 4 (a + 2) ∧
    InRange a 4 (a + 3) := by
  have h (i : Nat) (hi : i < 4) : InRange a 4 (a + BitVec.ofNat 32 i) := inRange_add hi (by decide)
  refine ⟨?_, h 1 (by decide), h 2 (by decide), h 3 (by decide)⟩
  rw [InRange, BitVec.sub_self]
  decide

theorem load32_congr (h : ∀ x, InRange a 4 x → m x = m' x) : load32 m a = load32 m' a := by
  obtain ⟨h0, h1, h2, h3⟩ := inRange_four (a := a)
  rw [load32, load32, h _ h0, h _ h1, h _ h2, h _ h3]

theorem load16_congr (h : ∀ x, InRange a 2 x → m x = m' x) : load16 m a = load16 m' a := by
  have h0 : InRange a 2 a := by
    rw [InRange, BitVec.sub_self]
    decide
  have h1 : InRange a 2 (a + 1) := inRange_add (i := 1) (by decide) (by decide)
  rw [load16, load16, h _ h0, h _ h1]

theorem store32_other (h : ¬ InRange a 4 x) : store32 m a v x = m x := if_neg h

theorem fill_other {c : BitVec 8} (h : ¬ InRange a n x) : fill m a c n x = m x := if_neg h

theorem fill_self {c : BitVec 8} (h : InRange a n x) : fill m a c n x = c := if_pos h

theorem load32_store32 (m : Mem) (a : Addr) (v : BitVec 32) : load32 (store32 m a v) a = v := by
  obtain ⟨h0, h1, h2, h3⟩ := inRange_four (a := a)
  have hd (i : Nat) (hi : i < 4) : (a + BitVec.ofNat 32 i - a).toNat = i := by
    rw [BitVec.toNat_sub, BitVec.toNat_add, BitVec.toNat_ofNat]
    omega
  have e0 : (a - a).toNat = 0 := by
    rw [BitVec.sub_self]
    rfl
  have e1 : (a + 1 - a).toNat = 1 := hd 1 (by decide)
  have e2 : (a + 2 - a).toNat = 2 := hd 2 (by decide)
  have e3 : (a + 3 - a).toNat = 3 := hd 3 (by decide)
  simp only [load32, store32, if_pos h0, if_pos h1, if_pos h2, if_pos h3, e0, e1, e2, e3]
  ext i hi
  simp only [BitVec.getElem_append, BitVec.getElem_extractLsb']
  grind

end ByteMem
