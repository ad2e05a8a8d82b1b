/-
# `memcpy`

The loop goes from the end of the two ranges where `dest` is below `src`, and from their start
where it is not.  For ranges that overlap that is the wrong way round: a byte of the source which
lies in the destination is written over before it is read.

Both loops have one invariant.  A byte that has been copied is equal to the byte *now* at its place
in the source, and stays so, since the loop does not come to either of them again (`Settled`).  So
at the end a place of the destination has the byte of the place that its source is, if that is one
of the destination as well, and the byte of the source before the call, if not.  From place to
place that is a chain, and the copy is right if and only if no link of it joins two bytes that
differed: the source repeats itself at the distance of the two ranges (`memcpy_copied_iff`).
-/
import Tomk.Word
import Tomk.Lib.ByteMem
import Tomk.Lib.Chain
import Tomk.Lib.Loop
import Mathlib.Data.Nat.Dist
import Mathlib.Logic.Function.Basic

namespace Tomk

open ByteMem (InRange)

/-- `dest[i] = src[i]` -/
def copyByte (dest src : U32) (i : Nat) (m : Bytes) : Bytes :=
  Function.update m (dest + BitVec.ofNat 32 i) (m (src + BitVec.ofNat 32 i))

/-- `for (i = count; i != 0; --i)`, which copies byte `i - 1`. -/
def copyDown (dest src : U32) : Nat → Bytes → Bytes
  | 0, m => m
  | i + 1, m => copyDown dest src i (copyByte dest src i m)

/-- `for (i = 0; i < count; ++i)` -/
def copyUp (dest src : U32) (count : Nat) (m : Bytes) : Bytes :=
  CFor.iter (copyByte dest src) 0 count m

/-- What it returns, and the memory. -/
def memcpy (m : Bytes) (dest src count : U32) : U32 × Bytes :=
  if dest < src then (0, copyDown dest src count.toNat m)
  else (0, copyUp dest src count.toNat m)

variable {m t : Bytes} {dest src : U32} {n : Nat}

/-- The `n` bytes from `dest` on are those that were at `src` in `m`, and no other byte has
changed. -/
def Copied (m : Bytes) (dest src : U32) (n : Nat) (t : Bytes) : Prop :=
  (∀ i < n, t (dest + BitVec.ofNat 32 i) = m (src + BitVec.ofNat 32 i)) ∧
    ∀ x, ¬ InRange dest n x → t x = m x

/-- As far as a range of `n` bytes goes, a byte is equal to the one `d` behind it. -/
def Repeats (m : Bytes) (src : U32) (d n : Nat) : Prop :=
  ∀ i, i + d < n → m (src + BitVec.ofNat 32 i) = m (src + BitVec.ofNat 32 (i + d))

/-! ## Places -/

theorem toNat_byteAt {a : U32} {i : Nat} (h : a.toNat + n ≤ 2 ^ 32) (hi : i < n) :
    (a + BitVec.ofNat 32 i).toNat = a.toNat + i := by
  rw [BitVec.toNat_add, BitVec.toNat_ofNat]
  omega

theorem byteAt_ne {a b : U32} {i j : Nat} (ha : a.toNat + n ≤ 2 ^ 32) (hb : b.toNat + n ≤ 2 ^ 32)
    (hi : i < n) (hj : j < n) (h : a.toNat + i ≠ b.toNat + j) :
    a + BitVec.ofNat 32 i ≠ b + BitVec.ofNat 32 j := by
  intro heq
  apply h
  rw [← toNat_byteAt ha hi, ← toNat_byteAt hb hj, heq]

/-! ## The loops -/

/-- The bytes in `D` are copied for good. -/
structure Settled (m : Bytes) (dest src : U32) (n : Nat) (D : Nat → Prop) (t : Bytes) : Prop where
  same : ∀ i, D i → t (dest + BitVec.ofNat 32 i) = t (src + BitVec.ofNat 32 i)
  frame : ∀ x, ¬ InRange dest n x → t x = m x

/-- A turn, if it does not write where a byte in `D` was copied to, or from. -/
theorem Settled.copyByte {D D' : Nat → Prop} {i : Nat} (h : Settled m dest src n D t) (hi : i < n)
    (hdest : dest.toNat + n ≤ 2 ^ 32)
    (hother : ∀ j, D j → dest + BitVec.ofNat 32 j ≠ dest + BitVec.ofNat 32 i ∧
      src + BitVec.ofNat 32 j ≠ dest + BitVec.ofNat 32 i)
    (hD : ∀ j, D' j → D j ∨ j = i) :
    Settled m dest src n D' (copyByte dest src i t) := by
  constructor
  · intro j hj
    rcases hD j hj with hj | rfl
    · obtain ⟨hd, hs⟩ := hother j hj
      rw [Tomk.copyByte, Function.update_of_ne hd, Function.update_of_ne hs, h.same j hj]
    · -- also where the byte is copied to its own place
      rw [Tomk.copyByte, Function.update_self, Function.update_apply]
      split <;> rfl
  · intro x hx
    have hne : x ≠ dest + BitVec.ofNat 32 i := by
      rintro rfl
      exact hx (ByteMem.inRange_add hi (by omega))
    rw [Tomk.copyByte, Function.update_of_ne hne, h.frame x hx]

theorem copyUp_settled (hdest : dest.toNat + n ≤ 2 ^ 32) (hsrc : src.toNat + n ≤ 2 ^ 32)
    (hle : src.toNat ≤ dest.toNat) : Settled m dest src n (· < n) (copyUp dest src n m) := by
  have h0 : Settled m dest src n (· < 0) m :=
    ⟨fun i hi => absurd hi (Nat.not_lt_zero i), fun _ _ => rfl⟩
  have hrun := CFor.iter_inv (f := copyByte dest src) (n := n)
    (fun i t => Settled m dest src n (· < i) t) h0 ?_
  · rwa [Nat.zero_add] at hrun
  · intro i t _ hi h
    rw [Nat.zero_add] at hi
    refine h.copyByte hi hdest ?_ ?_
    · intro j hj
      exact ⟨byteAt_ne hdest hdest (by omega) hi (by omega),
        byteAt_ne hsrc hdest (by omega) hi (by omega)⟩
    · intro j hj
      exact Nat.lt_succ_iff_lt_or_eq.mp hj

theorem copyDown_settled (hdest : dest.toNat + n ≤ 2 ^ 32) (hsrc : src.toNat + n ≤ 2 ^ 32)
    (hlt : dest.toNat < src.toNat) {k : Nat} (hk : k ≤ n)
    (h : Settled m dest src n (fun j => k ≤ j ∧ j < n) t) :
    Settled m dest src n (· < n) (copyDown dest src k t) := by
  induction k generalizing t with
  | zero => exact ⟨fun i hi => h.same i ⟨Nat.zero_le i, hi⟩, h.frame⟩
  | succ k ih =>
      refine ih (by omega) (h.copyByte hk hdest ?_ ?_)
      · rintro j ⟨hkj, hj⟩
        exact ⟨byteAt_ne hdest hdest hj hk (by omega), byteAt_ne hsrc hdest hj hk (by omega)⟩
      · rintro j ⟨hkj, hj⟩
        omega

/-- The place of the destination, if it is one, that byte `i` of the source is at. -/
def link (dest src : U32) (n i : Nat) : Option Nat :=
  if i < n ∧ InRange dest n (src + BitVec.ofNat 32 i) then
    some (src + BitVec.ofNat 32 i - dest).toNat
  else none

theorem link_eq_some {i j : Nat} (hdest : dest.toNat + n ≤ 2 ^ 32)
    (hsrc : src.toNat + n ≤ 2 ^ 32) :
    link dest src n i = some j ↔ i < n ∧ j < n ∧ src.toNat + i = dest.toNat + j := by
  have hsub (hi : i < n) : (src + BitVec.ofNat 32 i - dest).toNat
      = (2 ^ 32 - dest.toNat + (src.toNat + i)) % 2 ^ 32 := by
    rw [BitVec.toNat_sub, toNat_byteAt hsrc hi]
  unfold link
  constructor
  · intro h
    split at h
    · next hin =>
        obtain ⟨hi, hr⟩ := hin
        cases h
        rw [InRange, hsub hi] at hr
        rw [hsub hi]
        omega
    · cases h
  · rintro ⟨hi, hj, heq⟩
    have hval : (src + BitVec.ofNat 32 i - dest).toNat = j := by
      rw [hsub hi]
      omega
    have hin : i < n ∧ InRange dest n (src + BitVec.ofNat 32 i) :=
      ⟨hi, by rwa [InRange, hval]⟩
    rw [if_pos hin, hval]

theorem link_eq_none {i : Nat} (hi : i < n) (h : link dest src n i = none) :
    ¬ InRange dest n (src + BitVec.ofNat 32 i) := by
  intro hin
  rw [link, if_pos ⟨hi, hin⟩] at h
  cases h

/-- The links go towards the start or towards the end, and come to an end there. -/
theorem link_ends (hdest : dest.toNat + n ≤ 2 ^ 32) (hsrc : src.toNat + n ≤ 2 ^ 32)
    (hne : dest ≠ src) (i : Nat) : Chain.Ends (link dest src n) i := by
  have hne' : dest.toNat ≠ src.toNat := fun h => hne (BitVec.eq_of_toNat_eq h)
  rcases Nat.lt_or_gt_of_ne hne' with hlt | hgt
  · refine Chain.ends_of_measure (fun i => n - i) (fun x y hxy => ?_) i
    have h := (link_eq_some hdest hsrc).mp hxy
    omega
  · refine Chain.ends_of_measure (fun i => i) (fun x y hxy => ?_) i
    have h := (link_eq_some hdest hsrc).mp hxy
    omega

theorem repeats_iff_link (hdest : dest.toNat + n ≤ 2 ^ 32) (hsrc : src.toNat + n ≤ 2 ^ 32) :
    Repeats m src (dest.toNat.dist src.toNat) n ↔
      ∀ i j, i < n → link dest src n i = some j →
        m (src + BitVec.ofNat 32 i) = m (src + BitVec.ofNat 32 j) := by
  simp only [link_eq_some hdest hsrc, Repeats]
  rcases Nat.le_total dest.toNat src.toNat with hle | hle
  · rw [Nat.dist_eq_sub_of_le hle]
    constructor
    · rintro h i j - ⟨hi, hj, heq⟩
      have hij : i + (src.toNat - dest.toNat) = j := by omega
      exact hij ▸ h i (by omega)
    · intro h i hi
      exact h i _ (by omega) ⟨by omega, hi, by omega⟩
  · rw [Nat.dist_eq_sub_of_le_right hle]
    constructor
    · rintro h i j - ⟨hi, hj, heq⟩
      have hij : j + (dest.toNat - src.toNat) = i := by omega
      exact hij ▸ (h j (by omega)).symm
    · intro h i hi
      exact (h _ i hi ⟨hi, by omega, by omega⟩).symm

/-- What the loops leave is a copy where the source repeats itself. -/
theorem Settled.copied_iff (h : Settled m dest src n (· < n) t) (hne : dest ≠ src)
    (hdest : dest.toNat + n ≤ 2 ^ 32) (hsrc : src.toNat + n ≤ 2 ^ 32) :
    Copied m dest src n t ↔ Repeats m src (dest.toNat.dist src.toNat) n := by
  rw [repeats_iff_link hdest hsrc, Copied, and_iff_left h.frame]
  refine (Chain.eq_iff_of_carried (D := (· < n)) ?_ (link_ends hdest hsrc hne) ?_ ?_).trans ?_
  · intro i j _ hij
    exact ((link_eq_some hdest hsrc).mp hij).2.1
  · intro i hi hnone
    rw [h.same i hi, h.frame _ (link_eq_none hi hnone)]
  · intro i j hi hij
    obtain ⟨-, hj, heq⟩ := (link_eq_some hdest hsrc).mp hij
    have hplace : src + BitVec.ofNat 32 i = dest + BitVec.ofNat 32 j := by
      apply BitVec.eq_of_toNat_eq
      rw [toNat_byteAt hsrc hi, toNat_byteAt hdest hj, heq]
    rw [h.same i hi, hplace]
  · exact Iff.rfl

/-! ## The two ranges in one place -/

theorem copyByte_self (src : U32) (i : Nat) (m : Bytes) : copyByte src src i m = m :=
  Function.update_eq_self _ _

theorem copyUp_self (src : U32) (n : Nat) (m : Bytes) : copyUp src src n m = m := by
  refine CFor.iter_inv (fun _ t => t = m) rfl ?_
  rintro i t - - rfl
  exact copyByte_self src i t

/-! ## The call -/

/-- **`memcpy` copies** if and only if the source repeats itself at the distance of the two
ranges, as far as they overlap: so always where they are apart, or the same. -/
theorem memcpy_copied_iff (m : Bytes) (dest src count : U32)
    (hdest : dest.toNat + count.toNat ≤ 2 ^ 32) (hsrc : src.toNat + count.toNat ≤ 2 ^ 32) :
    Copied m dest src count.toNat (memcpy m dest src count).2 ↔
      Repeats m src (dest.toNat.dist src.toNat) count.toNat := by
  rw [memcpy]
  split
  · next hlt =>
      have hall : Settled m dest src count.toNat
          (fun j => count.toNat ≤ j ∧ j < count.toNat) m :=
        ⟨fun i hi => absurd hi.2 (Nat.not_lt_of_le hi.1), fun _ _ => rfl⟩
      exact (copyDown_settled hdest hsrc hlt (Nat.le_refl _) hall).copied_iff
        (BitVec.ne_of_lt hlt) hdest hsrc
  · next hle =>
      by_cases heq : dest = src
      · subst heq
        have hcopied : Copied m dest dest count.toNat (copyUp dest dest count.toNat m) := by
          rw [copyUp_self]
          exact ⟨fun _ _ => rfl, fun _ _ => rfl⟩
        rw [Nat.dist_self]
        exact iff_of_true hcopied fun _ _ => rfl
      · exact (copyUp_settled hdest hsrc (Nat.le_of_not_lt hle)).copied_iff heq hdest hsrc

/-- Each byte is the last of its address. -/
def countingBytes : Bytes := fun x => x.setWidth 8

theorem countingBytes_repeats (src : U32) (n : Nat) : Repeats countingBytes src 0x100 n := by
  intro i _
  refine BitVec.eq_of_toNat_eq ?_
  simp only [countingBytes, BitVec.toNat_setWidth, BitVec.toNat_add, BitVec.toNat_ofNat]
  omega

/-- Two ranges that are disjoint, and two that overlap by a half of bytes that repeat. -/
theorem memcpy_copied_iff_counting :
    Copied countingBytes 0x2000 0x1000 0x100 (memcpy countingBytes 0x2000 0x1000 0x100).2 ∧
      Copied countingBytes 0x1100 0x1000 0x200 (memcpy countingBytes 0x1100 0x1000 0x200).2 := by
  have hdist : Nat.dist (0x2000 : U32).toNat (0x1000 : U32).toNat = 0x1000 := by decide
  have hover : Nat.dist (0x1100 : U32).toNat (0x1000 : U32).toNat = 0x100 := by decide
  refine ⟨(memcpy_copied_iff countingBytes 0x2000 0x1000 0x100 (by decide) (by decide)).mpr ?_,
    (memcpy_copied_iff countingBytes 0x1100 0x1000 0x200 (by decide) (by decide)).mpr ?_⟩
  · rw [hdist]
    intro i hi
    exact absurd hi (Nat.not_lt_of_le (Nat.le_trans (by decide) (Nat.le_add_left 0x1000 i)))
  · rw [hover]
    exact countingBytes_repeats 0x1000 _

/-- Three bytes, moved down by one place: each gets the last of them. -/
theorem memcpy_not_copied :
    ¬ ∀ (m : Bytes) (dest src count : U32), dest.toNat + count.toNat ≤ 2 ^ 32 →
      src.toNat + count.toNat ≤ 2 ^ 32 →
      Copied m dest src count.toNat (memcpy m dest src count).2 := by
  intro h
  have hbyte := (h countingBytes 0x1000 0x1001 3 (by decide) (by decide)).1 0 (by decide)
  revert hbyte
  decide

end Tomk
