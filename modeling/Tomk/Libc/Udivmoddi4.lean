/-
# `libc/runtime`: 64-bit division

The compiler calls `__udivdi3` and `__umoddi3` for the division of two 64-bit
numbers.  Both are the long division of `__udivmoddi4`, one bit of the numerator
a turn.  Its remainder is shifted in 64 bits and loses none of them, whatever the
denominator is: before a turn it is a number of the bits of the numerator that have been
taken, and there are at most 63 of these (`Dividing.lt_bits`).
-/
import Tomk.Word

namespace Tomk

variable {numerator denominator q r : U64} {i : Nat}

/-- One turn of the loop of `__udivmoddi4`: the quotient and the remainder. -/
def udivmodTurn (numerator denominator : U64) (i : Nat) (s : U64 × U64) : U64 × U64 :=
  let r := s.2 <<< 1
  let r := r ||| ((numerator >>> i) &&& 1)
  if denominator ≤ r then (s.1 ||| ((1 : U64) <<< i), r - denominator) else (s.1, r)

/-- The loop `for (i = n - 1; i >= 0; i--)`. -/
def udivmodLoop (numerator denominator : U64) : Nat → U64 × U64 → U64 × U64
  | 0, s => s
  | i + 1, s => udivmodLoop numerator denominator i (udivmodTurn numerator denominator i s)

/-- `__udivmoddi4`: the quotient, and what is stored for the remainder. -/
def udivmoddi4 (numerator denominator : U64) : U64 × Option U64 :=
  if denominator = 0 then (0, none)
  else
    let (q, r) := udivmodLoop numerator denominator 64 (0, 0)
    (q, some r)

def udivdi3 (numerator denominator : U64) : U64 := (udivmoddi4 numerator denominator).1

def umoddi3 (numerator denominator : U64) : U64 := (udivmoddi4 numerator denominator).2.getD 0

/-! ## One turn -/

/-- The remainder with the next bit of the numerator. -/
theorem toNat_shiftIn (numerator : U64) (hr : r.toNat < 2 ^ 63) :
    (r <<< 1 ||| ((numerator >>> i) &&& 1)).toNat = 2 * r.toNat + numerator.toNat / 2 ^ i % 2 := by
  have hbit : ((numerator >>> i) &&& 1).toNat = numerator.toNat / 2 ^ i % 2 := by
    rw [BitVec.toNat_and, BitVec.toNat_ushiftRight, Nat.shiftRight_eq_div_pow]
    exact Nat.and_one_is_mod _
  have hlt : numerator.toNat / 2 ^ i % 2 < 2 ^ 1 := Nat.mod_lt _ (by decide)
  rw [BitVec.toNat_or, BitVec.toNat_shiftLeft, hbit, Nat.shiftLeft_eq, Nat.mod_eq_of_lt (by omega),
    Nat.mul_comm, ← Nat.two_pow_add_eq_or_of_lt hlt]

/-- A bit of the quotient, below those that are there. -/
theorem toNat_setBit (hi : i < 64) (hq : 2 ^ (i + 1) ∣ q.toNat) :
    (q ||| ((1 : U64) <<< i)).toNat = q.toNat + 2 ^ i := by
  obtain ⟨a, ha⟩ := hq
  have hlt : 2 ^ i < 2 ^ (i + 1) := Nat.pow_lt_pow_right (by decide) (Nat.lt_succ_self i)
  have hone : ((1 : U64) <<< i).toNat = 2 ^ i := by
    have h64 : 2 ^ i < 2 ^ 64 := Nat.pow_lt_pow_right (by decide) hi
    rw [BitVec.toNat_shiftLeft, Nat.shiftLeft_eq]
    show 1 * 2 ^ i % _ = _
    rw [Nat.one_mul, Nat.mod_eq_of_lt h64]
  rw [BitVec.toNat_or, hone, ha, ← Nat.two_pow_add_eq_or_of_lt hlt]

/-- What has been divided when the bits from `i` on have been. -/
structure Dividing (numerator denominator : U64) (i : Nat) (s : U64 × U64) : Prop where
  value : numerator.toNat / 2 ^ i = s.1.toNat / 2 ^ i * denominator.toNat + s.2.toNat
  lt : s.2.toNat < denominator.toNat
  dvd : 2 ^ i ∣ s.1.toNat

/-- The remainder has no more bits than have been taken from the numerator. -/
theorem Dividing.lt_bits {s : U64 × U64} (hs : Dividing numerator denominator (i + 1) s) :
    s.2.toNat < 2 ^ 63 := by
  have hle : s.2.toNat ≤ numerator.toNat / 2 ^ (i + 1) := by
    rw [hs.value]
    exact Nat.le_add_left _ _
  have htwo : 2 ^ 1 ≤ 2 ^ (i + 1) := Nat.pow_le_pow_right (by decide) (Nat.succ_pos i)
  have hdiv : numerator.toNat / 2 ^ (i + 1) ≤ numerator.toNat / 2 ^ 1 :=
    Nat.div_le_div_left htwo (by decide)
  have := numerator.isLt
  omega

theorem Dividing.turn {s : U64 × U64} (hi : i < 64)
    (hs : Dividing numerator denominator (i + 1) s) :
    Dividing numerator denominator i (udivmodTurn numerator denominator i s) := by
  have hin := toNat_shiftIn numerator (i := i) hs.lt_bits
  obtain ⟨hvalue, hlt, hdvd⟩ := hs
  have hbit : numerator.toNat / 2 ^ i % 2 < 2 := Nat.mod_lt _ (by decide)
  -- the numerator so far, and its next bit
  have hnext : numerator.toNat / 2 ^ i
      = 2 * (numerator.toNat / 2 ^ (i + 1)) + numerator.toNat / 2 ^ i % 2 := by
    rw [Nat.pow_succ, ← Nat.div_div_eq_div_mul]
    omega
  have hpos : 0 < 2 ^ i := Nat.two_pow_pos i
  obtain ⟨a, ha⟩ := hdvd
  have hup : s.1.toNat / 2 ^ (i + 1) = a := by rw [ha, Nat.mul_div_cancel_left _ (Nat.two_pow_pos _)]
  have hq : s.1.toNat = 2 ^ i * (2 * a) := by rw [ha, Nat.pow_succ, Nat.mul_assoc]
  have hlow : s.1.toNat / 2 ^ i = 2 * a := by rw [hq, Nat.mul_div_cancel_left _ hpos]
  have hmul : 2 * a * denominator.toNat = 2 * (a * denominator.toNat) := Nat.mul_assoc _ _ _
  rw [hup] at hvalue
  simp only [udivmodTurn]
  split
  · next hge =>
      have hsub := BitVec.toNat_sub_of_le hge
      rw [BitVec.le_def, hin] at hge
      rw [hin] at hsub
      have hset := toNat_setBit hi (Dvd.intro a ha.symm)
      have hsum : s.1.toNat + 2 ^ i = 2 ^ i * (2 * a + 1) := by rw [hq, Nat.mul_add, Nat.mul_one]
      refine ⟨?_, ?_, ?_⟩
      · rw [hset, hsum, Nat.mul_div_cancel_left _ hpos, hsub, Nat.add_mul]
        omega
      · rw [hsub]
        omega
      · rw [hset, hsum]
        exact Nat.dvd_mul_right _ _
  · next hlt' =>
      rw [BitVec.not_le, BitVec.lt_def, hin] at hlt'
      refine ⟨?_, ?_, ?_⟩
      · rw [hin, hlow]
        omega
      · rw [hin]
        exact hlt'
      · exact Dvd.intro _ hq.symm

/-- The quotient and the remainder after `k` turns. -/
def udivmodAfter (numerator denominator : U64) : Nat → U64 × U64
  | 0 => (0, 0)
  | k + 1 => udivmodTurn numerator denominator (63 - k) (udivmodAfter numerator denominator k)

theorem udivmodLoop_after {k : Nat} (hk : k ≤ 64) :
    udivmodLoop numerator denominator (64 - k) (udivmodAfter numerator denominator k)
      = udivmodLoop numerator denominator 64 (0, 0) := by
  induction k with
  | zero => rfl
  | succ k ih =>
      rw [← ih (by omega), show 64 - k = 63 - k + 1 by omega, udivmodLoop,
        show 64 - (k + 1) = 63 - k by omega, udivmodAfter]

/-- **The invariant** after every turn. -/
theorem dividing_after (numerator : U64) (h0 : denominator ≠ 0) {k : Nat} (hk : k ≤ 64) :
    Dividing numerator denominator (64 - k) (udivmodAfter numerator denominator k) := by
  induction k with
  | zero =>
      refine ⟨?_, Nat.pos_of_ne_zero fun h => h0 (BitVec.eq_of_toNat_eq h), Nat.dvd_zero _⟩
      show numerator.toNat / 2 ^ 64 = 0 / 2 ^ 64 * denominator.toNat + 0
      rw [Nat.div_eq_of_lt numerator.isLt, Nat.zero_div, Nat.zero_mul]
  | succ k ih =>
      have hs := ih (by omega)
      rw [show 64 - k = 63 - k + 1 by omega] at hs
      rw [show 64 - (k + 1) = 63 - k by omega]
      exact hs.turn (by omega)

/-- At the end. -/
theorem udivmodLoop_divides (numerator : U64) (h0 : denominator ≠ 0) :
    numerator.toNat = (udivmodLoop numerator denominator 64 (0, 0)).1.toNat * denominator.toNat
        + (udivmodLoop numerator denominator 64 (0, 0)).2.toNat ∧
      (udivmodLoop numerator denominator 64 (0, 0)).2.toNat < denominator.toNat := by
  obtain ⟨hvalue, hlt, -⟩ := dividing_after numerator h0 (Nat.le_refl 64)
  rw [Nat.sub_self, Nat.pow_zero, Nat.div_one, Nat.div_one] at hvalue
  rw [← udivmodLoop_after (Nat.le_refl 64)]
  exact ⟨hvalue, hlt⟩

/-- The two functions divide. -/
theorem udivmoddi4_eq (numerator : U64) {denominator : U64} (h0 : denominator ≠ 0) :
    udivdi3 numerator denominator = numerator / denominator ∧
      umoddi3 numerator denominator = numerator % denominator := by
  have hpos : 0 < denominator.toNat := Nat.pos_of_ne_zero fun h => h0 (BitVec.eq_of_toNat_eq h)
  obtain ⟨hvalue, hlt⟩ := udivmodLoop_divides numerator h0
  simp only [udivdi3, umoddi3, udivmoddi4, if_neg h0, Option.getD_some]
  refine ⟨BitVec.eq_of_toNat_eq ?_, BitVec.eq_of_toNat_eq ?_⟩
  · rw [BitVec.toNat_udiv, hvalue, Nat.mul_comm, Nat.mul_add_div hpos, Nat.div_eq_of_lt hlt,
      Nat.add_zero]
  · rw [BitVec.toNat_umod, hvalue, Nat.mul_comm, Nat.mul_add_mod, Nat.mod_eq_of_lt hlt]

/-- **`__udivmoddi4`** divides by every denominator but 0, and no shift of the remainder loses a
bit. -/
theorem udivmoddi4_divides (numerator denominator : U64) (h0 : denominator ≠ 0) :
    (∃ q r, udivmoddi4 numerator denominator = (q, some r) ∧
      numerator.toNat = q.toNat * denominator.toNat + r.toNat ∧ r.toNat < denominator.toNat) ∧
    (∀ k < 64, ((udivmodAfter numerator denominator k).2 <<< 1).toNat
      = 2 * (udivmodAfter numerator denominator k).2.toNat) ∧
    udivdi3 numerator denominator = numerator / denominator ∧
    umoddi3 numerator denominator = numerator % denominator := by
  refine ⟨⟨_, _, ?_, udivmodLoop_divides numerator h0⟩, fun k hk => ?_, udivmoddi4_eq numerator h0⟩
  · rw [udivmoddi4, if_neg h0]
  · have hs := dividing_after numerator h0 (Nat.le_of_lt hk)
    rw [show 64 - k = 63 - k + 1 by omega] at hs
    have hlt := hs.lt_bits
    rw [BitVec.toNat_shiftLeft, Nat.shiftLeft_eq, Nat.pow_one, Nat.mul_comm,
      Nat.mod_eq_of_lt (by omega)]

/-- With a denominator above `2 ^ 63`. -/
theorem udivmoddi4_divides_large :
    (∃ q r, udivmoddi4 0xFFFFFFFFFFFFFFFF 0x8000000000000001 = (q, some r) ∧
      0xFFFFFFFFFFFFFFFF = q.toNat * 0x8000000000000001 + r.toNat ∧
      r.toNat < 0x8000000000000001) ∧
    (∀ k < 64, ((udivmodAfter 0xFFFFFFFFFFFFFFFF 0x8000000000000001 k).2 <<< 1).toNat
      = 2 * (udivmodAfter 0xFFFFFFFFFFFFFFFF 0x8000000000000001 k).2.toNat) ∧
    udivdi3 0xFFFFFFFFFFFFFFFF 0x8000000000000001 = 1 ∧
    umoddi3 0xFFFFFFFFFFFFFFFF 0x8000000000000001 = 0x7FFFFFFFFFFFFFFE :=
  udivmoddi4_divides 0xFFFFFFFFFFFFFFFF 0x8000000000000001 (by decide)

end Tomk
