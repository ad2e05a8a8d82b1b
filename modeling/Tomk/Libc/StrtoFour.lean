/-
# The four parsers

Word for word the same, over accumulators of two widths and with a sign or
without.  The lower half of a product and of a sum is that of the lower halves, so
the loops stay in step, whatever the string; and the sign, which is read before
everything else, shifts the end and negates what comes out.
-/
import Tomk.Libc.Strtoul

namespace Tomk

/-! ## Two widths -/

/-- What a parser of 64 bits gives, in 32. -/
def narrowed (result : U64 × Option Nat) : U32 × Option Nat :=
  (result.1.setWidth 32, result.2)

theorem setWidth_signExtend (x : U32) : (x.signExtend 64).setWidth 32 = x := by
  apply BitVec.eq_of_getLsbD_eq
  intro i hi
  rw [BitVec.getLsbD_setWidth, BitVec.getLsbD_signExtend]
  simp [hi, show i < 64 by omega]

theorem strtoLoop32_eq (radix : U32) (value : U64) (p : List U8) :
    strtoLoop32 radix (value.setWidth 32) p
      = ((strtoLoop radix value p).1.setWidth 32, (strtoLoop radix value p).2) := by
  induction p generalizing value with
  | nil => rfl
  | cons c p ih =>
      rw [strtoLoop32, strtoLoop]
      cases digitOf c with
      | none => rfl
      | some digit =>
          have hnext : (value * radix.signExtend 64 + digit.signExtend 64).setWidth 32
              = value.setWidth 32 * radix + digit := by
            rw [BitVec.setWidth_add _ _ (by decide), BitVec.setWidth_mul _ _ (by decide),
              setWidth_signExtend, setWidth_signExtend]
          have hrest := ih (value * radix.signExtend 64 + digit.signExtend 64)
          rw [hnext] at hrest
          cases hsle : radix.sle digit with
          | true => simp only [hsle, if_true]
          | false =>
              simp only [hsle, Bool.false_eq_true, if_false]
              exact hrest

theorem strtoDigits32_eq (str : List U8) (radix : U32) (negative : Bool) (p : List U8) :
    strtoDigits32 str radix negative p = narrowed (strtoDigits str radix negative p) := by
  rw [strtoDigits32, strtoDigits]
  cases strtoRadix radix p with
  | none => rfl
  | some found =>
      obtain ⟨radix, p⟩ := found
      have hloop := strtoLoop32_eq radix 0 p
      cases hrange : radix.slt 2 || (36 : U32).slt radix with
      | true =>
          simp only [hrange, if_true]
          rfl
      | false =>
          simp only [hrange, Bool.false_eq_true, if_false]
          rw [show (0 : U32) = (0 : U64).setWidth 32 from rfl, hloop]
          cases negative with
          | false => rfl
          | true =>
              refine Prod.ext ?_ rfl
              exact (BitVec.setWidth_neg_of_le (by decide)).symm

theorem strtoul_eq (str : Option (List U8)) (radix : U32) :
    strtoul str radix = narrowed (strtoull str radix) := by
  match str with
  | none => rfl
  | some [] => rfl
  | some (c :: p) => exact strtoDigits32_eq (c :: p) radix false (c :: p)

theorem strtol_eq (str : Option (List U8)) (radix : U32) :
    strtol str radix = narrowed (strtoll str radix) := by
  match str with
  | none => rfl
  | some [] => rfl
  | some (c :: p) =>
      rw [strtol, strtoll]
      split
      · split
        · rfl
        · exact strtoDigits32_eq (c :: p) radix (c = ch '-') p
      · exact strtoDigits32_eq (c :: p) radix false (c :: p)

/-! ## A sign in front -/

theorem strtoLoop_length_le (radix : U32) (value : U64) (p : List U8) :
    (strtoLoop radix value p).2.length ≤ p.length := by
  induction p generalizing value with
  | nil => exact Nat.le_refl _
  | cons c p ih =>
      rw [strtoLoop]
      cases digitOf c with
      | none => exact Nat.le_refl _
      | some digit =>
          dsimp only
          split
          · exact Nat.le_refl _
          · exact Nat.le_succ_of_le (ih _)

theorem strtoRadix_length_le {radix radix' : U32} {p digits : List U8}
    (h : strtoRadix radix p = some (radix', digits)) : digits.length ≤ p.length := by
  unfold strtoRadix at h
  split at h
  · cases h
    exact Nat.le_refl _
  · match p with
    | [] =>
        cases h
        exact Nat.le_refl _
    | [c] =>
        dsimp only at h
        split at h
        · cases h
        · cases h
          exact Nat.le_refl _
    | c :: d :: p =>
        dsimp only at h
        split at h
        · split at h
          · cases h
            exact Nat.le_add_right _ 2
          · split at h
            · cases h
              exact Nat.le_add_right _ 2
            · cases h
              exact Nat.le_add_right _ 1
        · cases h
          exact Nat.le_refl _

/-- What stands in front of the digits counts for the end only. -/
theorem strtoDigits_minus (c : U8) (radix : U32) (p : List U8) :
    strtoDigits (c :: p) radix true p
      = (-(strtoDigits p radix false p).1, (strtoDigits p radix false p).2.map (· + 1)) := by
  rw [strtoDigits, strtoDigits]
  have hzero : ((0, none) : U64 × Option Nat) = (-0, none) := by decide
  cases hradix : strtoRadix radix p with
  | none => exact hzero
  | some found =>
      obtain ⟨radix', digits⟩ := found
      have hle := Nat.le_trans (strtoLoop_length_le radix' 0 digits) (strtoRadix_length_le hradix)
      cases hrange : radix'.slt 2 || (36 : U32).slt radix' with
      | true =>
          simp only [hrange, if_true]
          exact hzero
      | false =>
          simp only [hrange, Bool.false_eq_true, if_false, if_true, Option.map_some,
            List.length_cons]
          rw [Nat.sub_add_comm hle]

/-- **The four parsers agree**: in 32 bits comes out what comes out in 64, modulo
`2 ^ 32` and with the same store for the end; and behind a minus sign, `strtoll`
negates what `strtoull` gives, and stores an end that is one further. -/
theorem strto_agree (radix : U32) :
    (∀ str, strtoul str radix = ((strtoull str radix).1.setWidth 32, (strtoull str radix).2)) ∧
    (∀ str, strtol str radix = ((strtoll str radix).1.setWidth 32, (strtoll str radix).2)) ∧
    ∀ c p, strtoll (some (ch '-' :: c :: p)) radix
      = (-(strtoull (some (c :: p)) radix).1,
        (strtoull (some (c :: p)) radix).2.map (· + 1)) := by
  refine ⟨fun str => strtoul_eq str radix, fun str => strtol_eq str radix, fun c p => ?_⟩
  rw [strtoll, if_pos (Or.inr rfl), if_neg (List.cons_ne_nil c p)]
  exact strtoDigits_minus (ch '-') radix (c :: p)

end Tomk
