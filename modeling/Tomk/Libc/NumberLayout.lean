/-
# The layout of a number

`pr_number` works out in `int`s how many zeros and spaces there are.  With a width of an `int`
none of the subtractions leaves the range: the digits with the zeros are at most the larger of 64 and
the precision, and the smallest difference is `-2 ^ 31` itself.  So the counts are those of natural
numbers (`numberFill_eq`), and the text is laid out as they say (`prNumber_layout`).
-/
import Tomk.Libc.PrintParse

namespace Tomk

variable {σ : Type} {b : Nat}

/-! ## What is asked -/

/-- A precision that is given; a negative one is not. -/
def givenPrecision (precision : U32) : Option Nat :=
  if precision.toNat < 2 ^ 31 then some precision.toNat else none

def magnitude (isSigned : Bool) (number : U64) : U64 :=
  if isSigned && number.slt 0 then -number else number

/-- `n`: the sign. -/
def signText (isSigned : Bool) (number : U64) : List U8 :=
  if isSigned && number.slt 0 then [ch '-'] else []

/-- `d`: the digits, and none for 0 with the precision 0. -/
def digitText (b : Nat) (lower : Bool) (number : U64) (precision : Option Nat) : List U8 :=
  if number = 0 ∧ precision = some 0 then []
  else (digitChars (if lower then hexDigitsL else hexDigitsU) (printedDigits b number)).reverse

/-- The zeros fill up to the precision if it is given, and otherwise to the width when padding with
zeros. -/
def zeroCount (n d width : Nat) (precision : Option Nat) (zeroPad : Bool) : Nat :=
  match precision with
  | some p => p - d
  | none => if zeroPad then width - (n + d) else 0

/-- Spaces, sign, zeros and digits, or with the spaces at the end. -/
def numberLayout (sign digits : List U8) (width : Nat) (precision : Option Nat) (zeroPad left : Bool) :
    List U8 :=
  let zeros := List.replicate
    (zeroCount sign.length digits.length width precision zeroPad) (ch '0')
  let spaces := List.replicate (width - (sign ++ zeros ++ digits).length) (ch ' ')
  if left then sign ++ zeros ++ digits ++ spaces else spaces ++ (sign ++ zeros ++ digits)

theorem numberLayout_length (sign digits : List U8) (width : Nat) (precision : Option Nat)
    (zeroPad left : Bool) :
    (numberLayout sign digits width precision zeroPad left).length
      = max width (sign.length + max digits.length (precision.getD 0)) := by
  cases precision with
  | some p =>
      simp only [numberLayout, zeroCount, Option.getD_some]
      split
      all_goals
        simp only [List.length_append, List.length_replicate]
        omega
  | none =>
      simp only [numberLayout, zeroCount, Option.getD_none]
      cases zeroPad
      all_goals
        split
        all_goals
          simp only [List.length_append, List.length_replicate, if_true, Bool.false_eq_true, if_false]
          omega

/-! ## The counts -/

/-- A difference that an `int` can hold. -/
theorem toInt_sub_of_range {x y : U32} (hlo : -2 ^ 31 ≤ x.toInt - y.toInt)
    (hhi : x.toInt - y.toInt < 2 ^ 31) : (x - y).toInt = x.toInt - y.toInt := by
  rw [BitVec.toInt_sub]
  exact Int.bmod_eq_of_le (by omega) (by omega)

theorem toInt_ofNat_of_lt {n : Nat} (hn : n < 2 ^ 31) : (BitVec.ofNat 32 n).toInt = n := by
  rw [BitVec.toInt_eq_toNat_cond, BitVec.toNat_ofNat]
  omega

theorem toInt_intMax_zero (x : U32) : (intMax x 0).toInt = max x.toInt 0 := by
  rw [intMax]
  by_cases h : (0 : U32).slt x = true
  · have hlt : (0 : Int) < x.toInt := BitVec.slt_iff_toInt_lt.mp h
    rw [if_pos h]
    omega
  · have hle : ¬ (0 : Int) < x.toInt := fun hlt => h (BitVec.slt_iff_toInt_lt.mpr hlt)
    rw [if_neg h]
    show (0 : Int) = _
    omega

/-- **The counts** of `pr_number`, for `d` digits and a sign of the length `n`. -/
theorem numberFill_eq {d n : Nat} (hd : d ≤ 64) (hn : n ≤ 1) {width : U32}
    (hw : width.toNat < 2 ^ 31) (precision : U32) (pad : U8) :
    turns (numberFill (BitVec.ofNat 32 d) (BitVec.ofNat 32 n) width precision pad).1
        = zeroCount n d width.toNat (givenPrecision precision) (pad = ch '0') ∧
      turns (numberFill (BitVec.ofNat 32 d) (BitVec.ofNat 32 n) width precision pad).2
        = width.toNat
          - (n + zeroCount n d width.toNat (givenPrecision precision) (pad = ch '0') + d) := by
  have hdi : (BitVec.ofNat 32 d).toInt = d := toInt_ofNat_of_lt (by omega)
  have hni : (BitVec.ofNat 32 n).toInt = n := toInt_ofNat_of_lt (by omega)
  have hwi : width.toInt = width.toNat := BitVec.toInt_eq_toNat_of_lt (by omega)
  -- the width without the digits, and without the sign
  have hrest : (width - BitVec.ofNat 32 d).toInt = width.toNat - d := by
    rw [toInt_sub_of_range (by omega) (by omega), hwi, hdi]
  have hrest' : (width - BitVec.ofNat 32 d - BitVec.ofNat 32 n).toInt = width.toNat - d - n := by
    rw [toInt_sub_of_range (by omega) (by omega), hrest, hni]
  by_cases hp : precision.toNat < 2 ^ 31
  · have hpi : precision.toInt = precision.toNat := BitVec.toInt_eq_toNat_of_lt (by omega)
    have hsle : (0 : U32).sle precision = true := by
      rw [BitVec.sle_iff_toInt_le, hpi]
      exact Int.natCast_nonneg _
    have hzeros : (intMax (precision - BitVec.ofNat 32 d) 0).toInt
        = max ((precision.toNat : Int) - d) 0 := by
      rw [toInt_intMax_zero, toInt_sub_of_range (by omega) (by omega), hpi, hdi]
    simp only [numberFill, if_pos hsle, givenPrecision, if_pos hp, zeroCount, turns]
    generalize intMax (precision - BitVec.ofNat 32 d) 0 = zeros at hzeros ⊢
    have hspaces : (width - BitVec.ofNat 32 d - zeros).toInt
        = width.toNat - d - max ((precision.toNat : Int) - d) 0 := by
      rw [toInt_sub_of_range (by omega) (by omega), hrest, hzeros]
    constructor
    · rw [hzeros]
      omega
    · rw [toInt_intMax_zero, toInt_sub_of_range (by omega) (by omega), hspaces, hni]
      omega
  · have hsle : ¬ (0 : U32).sle precision = true := by
      rw [BitVec.sle_iff_toInt_le, BitVec.toInt_eq_toNat_cond (x := precision)]
      show ¬ (0 : Int) ≤ _
      have := precision.isLt
      omega
    simp only [numberFill, if_neg hsle, givenPrecision, if_neg hp, zeroCount, decide_eq_true_eq]
    by_cases hpad : pad = ch '0'
    · simp only [if_pos hpad, turns, toInt_intMax_zero, hrest']
      constructor
      · omega
      · show Int.toNat 0 = _
        omega
    · simp only [if_neg hpad, turns, toInt_intMax_zero, hrest']
      constructor
      · rfl
      · omega

/-! ## The text -/

theorem givenPrecision_zero {precision : U32} : givenPrecision precision = some 0 ↔ precision = 0 := by
  rw [givenPrecision]
  constructor
  · intro h
    split at h
    · exact BitVec.eq_of_toNat_eq (Option.some.inj h)
    · cases h
  · rintro rfl
    rfl

/-- The digits that `pr_number` puts out of its buffer. -/
theorem digitsText_printed (hb : b ∈ printBases) (lower : Bool) (number : U64) (precision : U32) :
    (if precision = 0 ∧ number = 0 then 0 else BitVec.ofNat 32
        (digitChars (if lower then hexDigitsL else hexDigitsU) (printedDigits b number)).length)
      = BitVec.ofNat 32 (digitText b lower number (givenPrecision precision)).length ∧
    (digitText b lower number (givenPrecision precision)).length ≤ 64 ∧
    digitsText (digitChars (if lower then hexDigitsL else hexDigitsU) (printedDigits b number))
        (digitText b lower number (givenPrecision precision)).length
      = digitText b lower number (givenPrecision precision) := by
  have hlen : (digitChars (if lower then hexDigitsL else hexDigitsU) (printedDigits b number)).length
      ≤ 64 := by
    rw [digitChars, List.length_map]
    exact (printedDigits_length hb number).2
  simp only [digitText, givenPrecision_zero]
  by_cases h0 : number = 0 ∧ precision = 0
  · rw [if_pos h0, if_pos h0.symm]
    exact ⟨rfl, Nat.zero_le _, rfl⟩
  · rw [if_neg h0, if_neg fun h => h0 h.symm, List.length_reverse]
    refine ⟨rfl, hlen, ?_⟩
    rw [digitsText_eq _ (Nat.le_refl _), List.take_length]

/-- The text of `pr_number` is the layout. -/
theorem numberText_layout (number : U64) (isSigned lower : Bool) (hb : b ∈ printBases) {width : U32}
    (hw : width.toNat < 2 ^ 31) (precision : U32) (pad : U8) (left : Bool) :
    numberText number isSigned (BitVec.ofNat 32 b) lower width precision pad left
      = numberLayout (signText isSigned number)
          (digitText b lower (magnitude isSigned number) (givenPrecision precision)) width.toNat
          (givenPrecision precision) (pad = ch '0') left := by
  have hbase : ∀ b ∈ printBases, ¬ (BitVec.ofNat 32 b ≠ 2 ∧ BitVec.ofNat 32 b ≠ 8 ∧
      BitVec.ofNat 32 b ≠ 10 ∧ BitVec.ofNat 32 b ≠ 16) := by decide
  have habs : -(number + 1) + 1 = -number := by
    rw [BitVec.neg_add, BitVec.sub_add_cancel]
  simp only [numberText, if_neg (hbase b hb), habs, numberDigits_printed hb, signText]
  rw [show (if (isSigned && number.slt 0) = true then -number else number)
    = magnitude isSigned number from rfl]
  generalize magnitude isSigned number = abs
  generalize (isSigned && number.slt 0) = negative
  obtain ⟨hdigits, hle, htext⟩ := digitsText_printed hb lower abs precision
  rw [hdigits, turns_ofNat (by omega), htext]
  generalize digitText b lower abs (givenPrecision precision) = digits at hle ⊢
  have hsign : (if negative then 1 else 0 : U32)
        = BitVec.ofNat 32 (if negative then [ch '-'] else []).length ∧
      (if negative then [ch '-'] else []).length ≤ 1 := by
    cases negative with
    | false => exact ⟨rfl, Nat.zero_le _⟩
    | true => exact ⟨rfl, Nat.le_refl _⟩
  rw [hsign.1]
  generalize (if negative then [ch '-'] else []) = sign at hsign ⊢
  obtain ⟨hzeros, hspaces⟩ := numberFill_eq hle hsign.2 hw precision pad
  rw [hzeros, hspaces, numberLayout]
  simp only [List.length_append, List.length_replicate]
  cases left with
  | false => simp only [Bool.false_eq_true, if_false, List.append_nil, List.append_assoc]
  | true => simp only [if_true, List.nil_append]

/-- **A number** is laid out as it is asked, for every value, base and flag. -/
theorem prNumber_layout (out : PrintfOutput σ) (number : U64) (isSigned lower : Bool)
    (hb : b ∈ printBases) {width : U32} (hw : width.toNat < 2 ^ 31) (precision : U32) (pad : U8)
    (left : Bool) :
    let sign := signText isSigned number
    let digits := digitText b lower (magnitude isSigned number) (givenPrecision precision)
    let text := numberLayout sign digits width.toNat (givenPrecision precision) (pad = ch '0') left
    prNumber out number isSigned (BitVec.ofNat 32 b) lower width precision pad left
        = outputAll text out ∧
      text.length = max width.toNat
        (sign.length + max digits.length ((givenPrecision precision).getD 0)) := by
  refine ⟨?_, numberLayout_length _ _ _ _ _ _⟩
  rw [prNumber_eq, numberText_layout number isSigned lower hb hw]

/-- The characters themselves: an output that keeps them has the text behind what it had, and as
many more. -/
theorem prNumber_recorded (t : List U8) (number : U64) (isSigned lower : Bool)
    (hb : b ∈ printBases) {width : U32} (hw : width.toNat < 2 ^ 31) (precision : U32) (pad : U8)
    (left : Bool) :
    let text := numberLayout (signText isSigned number)
      (digitText b lower (magnitude isSigned number) (givenPrecision precision)) width.toNat
      (givenPrecision precision) (pad = ch '0') left
    let out := prNumber (recording t) number isSigned (BitVec.ofNat 32 b) lower width precision pad left
    out.userparam = t ++ text ∧ out.count = BitVec.ofNat 32 (t.length + text.length) := by
  intro text out
  have hout : out = recording (t ++ text) := by
    show prNumber _ _ _ _ _ _ _ _ _ = _
    rw [prNumber_eq, numberText_layout number isSigned lower hb hw, outputAll_recording]
  rw [hout, ← List.length_append]
  exact ⟨rfl, rfl⟩

/-- `-42` with a precision of 5, at the right of 9 places. -/
theorem prNumber_layout_minus :
    let sign := signText true (-42)
    let digits := digitText 10 false (magnitude true (-42)) (givenPrecision 5)
    let text := numberLayout sign digits 9 (givenPrecision 5) false false
    prNumber ⟨fun s c => s ++ [c], ([] : List U8), 0⟩ (-42) true 10 false 9 5 (ch ' ') false
        = outputAll text ⟨fun s c => s ++ [c], [], 0⟩ ∧
      text.length = max 9 (sign.length + max digits.length 5) :=
  prNumber_layout ⟨fun s c => s ++ [c], [], 0⟩ (-42) true false (by decide) (by decide) 5 (ch ' ') false

end Tomk
