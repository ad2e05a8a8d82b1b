/-
# A printed number, parsed

`pr_number` takes the digits off the end, with a loop for each base, and puts them
out from the other side; the loop of `strtoul.c` is Horner's rule, in the 64 bits
of the accumulator.  Between the two stand the digits of a natural number.  What
the format adds in front of them is a sign and zeros.
-/
import Tomk.Libc.Snprintf
import Tomk.Libc.Strtoul

namespace Tomk

variable {b : Nat} {hexDigits : List U8}

/-! ## The digits -/

/-- A loop of `pr_number` whose `digit` and `next` are remainder and quotient by `b`
puts the digits into the buffer, the lowest first. -/
theorem digitLoop_eq {digit next : U64 → U64} (hb : 1 < b)
    (hdigit : ∀ j, (digit j).toNat = j.toNat % b) (hnext : ∀ j, (next j).toNat = j.toNat / b)
    (n : Nat) (j : U64) (hj : j.toNat < b ^ n) :
    digitLoop hexDigits digit next n j = digitChars hexDigits (b.digits j.toNat) := by
  induction n generalizing j with
  | zero =>
      rw [Nat.pow_zero, Nat.lt_one_iff] at hj
      rw [hj, Nat.digits_zero]
      rfl
  | succ n ih =>
      rw [digitLoop]
      split
      · next h0 =>
          rw [h0, show (0 : U64).toNat = 0 from rfl, Nat.digits_zero]
          rfl
      · next h0 =>
          have hpos : 0 < j.toNat := Nat.pos_of_ne_zero fun h => h0 (BitVec.eq_of_toNat_eq h)
          have hj' : (next j).toNat < b ^ n := by
            rw [hnext, Nat.div_lt_iff_lt_mul (by omega), ← Nat.pow_succ]
            exact hj
          rw [Nat.digits_def' hb hpos, ih (next j) hj', hdigit, hnext]
          rfl

/-- The bases that `pr_number` knows. -/
def printBases : List Nat := [2, 8, 10, 16]

/-- The buffer of `pr_number`, for a number that is not 0. -/
theorem numberDigits_eq (hb : b ∈ printBases) {number : U64} (h0 : number ≠ 0) :
    numberDigits hexDigits (BitVec.ofNat 32 b) number
      = digitChars hexDigits (b.digits number.toNat) := by
  have h64 : ∀ b, 1 < b → number.toNat < b ^ 64 := fun b hb =>
    Nat.lt_of_lt_of_le number.isLt (Nat.pow_le_pow_left hb 64)
  have hand : ∀ k ≤ 4, ∀ j : U64, (j &&& BitVec.ofNat 64 (2 ^ k - 1)).toNat = j.toNat % 2 ^ k := by
    intro k hk j
    have hle : 2 ^ k ≤ 2 ^ 4 := Nat.pow_le_pow_right (by decide) hk
    rw [BitVec.toNat_and, BitVec.toNat_ofNat, Nat.mod_eq_of_lt (by omega),
      Nat.and_two_pow_sub_one_eq_mod]
  have hshift : ∀ (k : Nat) (j : U64), (j >>> k).toNat = j.toNat / 2 ^ k := fun k j => by
    rw [BitVec.toNat_ushiftRight, Nat.shiftRight_eq_div_pow]
  have hmod : ∀ j : U64, (umoddi3 j 10).toNat = j.toNat % 10 := fun j => by
    rw [(udivmoddi4_eq j (by decide)).2]
    rfl
  have hdiv : ∀ j : U64, (udivdi3 j 10).toNat = j.toNat / 10 := fun j => by
    rw [(udivmoddi4_eq j (by decide)).1]
    rfl
  rw [numberDigits, if_neg h0]
  simp only [printBases, List.mem_cons, List.not_mem_nil, or_false] at hb
  obtain rfl | rfl | rfl | rfl := hb
  · exact digitLoop_eq (by decide) (hand 1 (by decide)) (hshift 1) 64 number (h64 2 (by decide))
  · exact digitLoop_eq (by decide) (hand 3 (by decide)) (hshift 3) 64 number (h64 8 (by decide))
  · exact digitLoop_eq (by decide) hmod hdiv 64 number (h64 10 (by decide))
  · exact digitLoop_eq (by decide) (hand 4 (by decide)) (hshift 4) 64 number (h64 16 (by decide))

/-- The digits that `pr_number` prints for a number, the lowest first. -/
def printedDigits (b : Nat) (number : U64) : List Nat :=
  if number = 0 then [0] else b.digits number.toNat

theorem numberDigits_printed (hb : b ∈ printBases) {lower : Bool} (number : U64) :
    numberDigits (if lower then hexDigitsL else hexDigitsU) (BitVec.ofNat 32 b) number
      = digitChars (if lower then hexDigitsL else hexDigitsU) (printedDigits b number) := by
  by_cases h0 : number = 0
  · rw [printedDigits, numberDigits, if_pos h0, if_pos h0]
    cases lower <;> rfl
  · rw [printedDigits, if_neg h0]
    exact numberDigits_eq hb h0

theorem printBases_bounds (hb : b ∈ printBases) : 2 ≤ b ∧ b ≤ 16 := by
  have hall : ∀ b ∈ printBases, 2 ≤ b ∧ b ≤ 16 := by decide
  exact hall b hb

theorem printedDigits_lt (hb : b ∈ printBases) (number : U64) :
    ∀ d ∈ printedDigits b number, d < b := by
  intro d hd
  have hlt := (printBases_bounds hb).1
  rw [printedDigits] at hd
  split at hd
  · rw [List.mem_singleton.mp hd]
    omega
  · exact Nat.digits_lt_base hlt hd

theorem printedDigits_length (hb : b ∈ printBases) (number : U64) :
    0 < (printedDigits b number).length ∧ (printedDigits b number).length ≤ 64 := by
  have hlt := (printBases_bounds hb).1
  rw [printedDigits]
  split
  · exact ⟨Nat.one_pos, by decide⟩
  · next h0 =>
      refine ⟨List.length_pos_of_ne_nil (Nat.digits_ne_nil_iff_ne_zero.mpr fun h => h0 ?_), ?_⟩
      · exact BitVec.eq_of_toNat_eq h
      · rw [Nat.digits_length_le_iff hlt]
        exact Nat.lt_of_lt_of_le number.isLt (Nat.pow_le_pow_left hlt 64)

theorem ofDigits_printed (b : Nat) (number : U64) :
    Nat.ofDigits b (printedDigits b number) = number.toNat := by
  rw [printedDigits]
  split
  · next h0 =>
      rw [h0]
      rfl
  · exact Nat.ofDigits_digits b number.toNat

/-! ## Zeros and digits, parsed -/

/-- Zeros and the digits of a number, the highest first. -/
def zerosDigits (b zeros : Nat) (number : U64) : List Nat :=
  List.replicate zeros 0 ++ (printedDigits b number).reverse

/-- Horner's rule gives the number back. -/
theorem zerosDigits_value (b zeros : Nat) (number : U64) :
    (zerosDigits b zeros number).foldl (fun v d => v * b + d) 0 = number.toNat := by
  have hrev : zerosDigits b zeros number
      = (printedDigits b number ++ List.replicate zeros 0).reverse := by
    rw [List.reverse_append, List.reverse_replicate, zerosDigits]
  rw [hrev, List.foldl_reverse, ← ofDigits_printed b number,
    ← Nat.ofDigits_append_replicate_zero (k := zeros), Nat.ofDigits_eq_foldr]
  simp only [Nat.cast_id, Nat.add_comm, Nat.mul_comm]

theorem zerosDigits_lt (hb : b ∈ printBases) (zeros : Nat) (number : U64) :
    ∀ d ∈ zerosDigits b zeros number, d < b := by
  intro d hd
  rcases List.mem_append.mp hd with hd | hd
  · rw [List.eq_of_mem_replicate hd]
    exact Nat.lt_of_lt_of_le (by decide) (printBases_bounds hb).1
  · exact printedDigits_lt hb number d (List.mem_reverse.mp hd)

theorem zerosDigits_ne_nil (hb : b ∈ printBases) (zeros : Nat) (number : U64) :
    zerosDigits b zeros number ≠ [] := by
  have hlen := (printedDigits_length hb number).1
  apply List.ne_nil_of_length_pos
  rw [zerosDigits, List.length_append, List.length_reverse]
  omega

/-- What `pr_number` prints without a sign. -/
def zerosDigitsText (b : Nat) (lower : Bool) (zeros : Nat) (number : U64) : List U8 :=
  digitChars (if lower then hexDigitsL else hexDigitsU) (zerosDigits b zeros number)

theorem zerosDigitsText_eq (b : Nat) (lower : Bool) (zeros : Nat) (number : U64) :
    zerosDigitsText b lower zeros number = List.replicate zeros (ch '0') ++
      (digitChars (if lower then hexDigitsL else hexDigitsU) (printedDigits b number)).reverse := by
  rw [zerosDigitsText, zerosDigits, digitChars, List.map_append, List.map_reverse,
    List.map_replicate]
  cases lower <;> rfl

theorem strtoDigits_text (hb : b ∈ printBases) (lower : Bool) (zeros : Nat) (number : U64)
    (str : List U8) (negative : Bool) :
    strtoDigits str (BitVec.ofNat 32 b) negative (zerosDigitsText b lower zeros number)
      = (if negative then -number else number, some str.length) := by
  have hradix : ∀ b ∈ printBases, BitVec.ofNat 32 b ≠ 0 ∧
      ((BitVec.ofNat 32 b).slt 2 || (36 : U32).slt (BitVec.ofNat 32 b)) = false := by decide
  obtain ⟨hne, hrange⟩ := hradix b hb
  have hloop := strtoLoop_digitChars lower (printBases_bounds hb).2
    (zerosDigits_lt hb zeros number) 0
  rw [zerosDigits_value, BitVec.ofNat_toNat, BitVec.setWidth_eq] at hloop
  simp only [strtoDigits, strtoRadix, if_pos hne, hrange, Bool.false_eq_true, if_false]
  rw [show (0 : U64) = BitVec.ofNat 64 0 from rfl, zerosDigitsText, hloop]
  rfl

/-- A character that is printed for a digit is not a sign, and not the NUL. -/
theorem digitChars_ne (lower : Bool) (hb : b ∈ printBases) {ds : List Nat}
    (hds : ∀ d ∈ ds, d < b) {c : U8} (hc : digitOf c = none) :
    c ∉ digitChars (if lower then hexDigitsL else hexDigitsU) ds := by
  intro hmem
  obtain ⟨d, hd, rfl⟩ := List.mem_map.mp hmem
  have hlt := Nat.lt_of_lt_of_le (hds d hd) (printBases_bounds hb).2
  rw [digitOf_hexDigits hlt] at hc
  exact absurd hc (Option.some_ne_none _)

theorem zerosDigitsText_cons (hb : b ∈ printBases) (lower : Bool) (zeros : Nat) (number : U64) :
    ∃ c p, zerosDigitsText b lower zeros number = c :: p ∧ c ≠ ch '+' ∧ c ≠ ch '-' := by
  have hne := zerosDigits_ne_nil hb zeros number
  have hnot := fun c (hc : digitOf c = none) => digitChars_ne lower hb
    (zerosDigits_lt hb zeros number) hc
  rw [zerosDigitsText]
  cases hds : zerosDigits b zeros number with
  | nil => exact absurd hds hne
  | cons d ds =>
      rw [hds] at hnot
      refine ⟨_, _, rfl, fun h => hnot (ch '+') (by decide) ?_, fun h => hnot (ch '-') (by decide) ?_⟩
      all_goals
        rw [← h]
        exact List.mem_cons_self

theorem strtoull_text (hb : b ∈ printBases) (lower : Bool) (zeros : Nat) (number : U64) :
    strtoull (some (zerosDigitsText b lower zeros number)) (BitVec.ofNat 32 b)
      = (number, some (zerosDigitsText b lower zeros number).length) := by
  obtain ⟨c, p, htext, _, _⟩ := zerosDigitsText_cons hb lower zeros number
  have hdigits := strtoDigits_text hb lower zeros number (c :: p) false
  rw [htext] at hdigits ⊢
  exact hdigits

/-- A sign, zeros and digits. -/
theorem strtoll_text (lower : Bool) (zeros : Nat) (negative : Bool) (number : U64) :
    strtoll (some ((if negative then [ch '-'] else []) ++ zerosDigitsText 10 lower zeros number)) 10
      = (if negative then -number else number,
        some ((if negative then [ch '-'] else []) ++ zerosDigitsText 10 lower zeros number).length) := by
  have hb : 10 ∈ printBases := by decide
  obtain ⟨c, p, htext, hplus, hminus⟩ := zerosDigitsText_cons hb lower zeros number
  cases negative with
  | false =>
      have hdigits := strtoDigits_text hb lower zeros number (c :: p) false
      rw [htext] at hdigits
      show strtoll (some ([] ++ _)) 10 = (_, some ([] ++ _ : List U8).length)
      rw [List.nil_append, htext, strtoll, if_neg (by tauto)]
      exact hdigits
  | true =>
      have hdigits := strtoDigits_text hb lower zeros number (ch '-' :: c :: p) true
      rw [htext] at hdigits
      rw [htext]
      show strtoll (some (ch '-' :: c :: p)) 10 = (_, some (ch '-' :: c :: p).length)
      rw [strtoll, if_pos (Or.inr rfl), if_neg (List.cons_ne_nil _ _)]
      exact hdigits

/-! ## What is printed -/

theorem digitsText_eq (buffer : List U8) {n : Nat} (hn : n ≤ buffer.length) :
    digitsText buffer n = (buffer.take n).reverse := by
  induction n with
  | zero => rfl
  | succ n ih =>
      rw [digitsText, ih (by omega), List.take_add_one, List.getElem?_eq_getElem (by omega),
        List.reverse_append, List.getD_eq_getElem _ _ (by omega)]
      rfl

theorem turns_ofNat {n : Nat} (hn : n < 2 ^ 31) : turns (BitVec.ofNat 32 n) = n := by
  rw [turns, BitVec.toInt_eq_toNat_cond, BitVec.toNat_ofNat]
  omega

/-- The text of a number to which the spaces add nothing. -/
theorem numberText_eq (hb : b ∈ printBases) (number : U64) (isSigned lower : Bool)
    {width precision : U32} {pad : U8} (hprec : precision ≠ 0)
    (hspaces : ∀ digits ≤ 64, ∀ negative : Bool, 0 < digits →
      turns (numberFill (BitVec.ofNat 32 digits) (if negative then 1 else 0) width precision pad).2
        = 0) :
    ∃ zeros < 2 ^ 31, numberText number isSigned (BitVec.ofNat 32 b) lower width precision pad false
      = (if isSigned && number.slt 0 then [ch '-'] else [])
        ++ zerosDigitsText b lower zeros (if isSigned && number.slt 0 then -number else number) := by
  have hbase : ∀ b ∈ printBases, ¬ (BitVec.ofNat 32 b ≠ 2 ∧ BitVec.ofNat 32 b ≠ 8 ∧
      BitVec.ofNat 32 b ≠ 10 ∧ BitVec.ofNat 32 b ≠ 16) := by decide
  have habs : -(number + 1) + 1 = -number := by
    rw [BitVec.neg_add, BitVec.sub_add_cancel]
  simp only [numberText, if_neg (hbase b hb), hprec, false_and, if_false, habs,
    Bool.false_eq_true, numberDigits_printed hb, List.append_nil]
  generalize (isSigned && number.slt 0) = negative at *
  generalize (if negative = true then -number else number) = abs
  obtain ⟨hpos, hle⟩ := printedDigits_length hb abs
  have hlen : (digitChars (if lower then hexDigitsL else hexDigitsU) (printedDigits b abs)).length
      = (printedDigits b abs).length := List.length_map _
  rw [hlen, hspaces _ hle negative hpos, turns_ofNat (by omega), digitsText_eq _ hlen.ge]
  refine ⟨turns (numberFill (BitVec.ofNat 32 (printedDigits b abs).length)
    (if negative then 1 else 0) width precision pad).1, ?_, ?_⟩
  · rw [turns]
    have hlt := BitVec.toInt_lt (x := (numberFill (BitVec.ofNat 32 (printedDigits b abs).length)
      (if negative then 1 else 0) width precision pad).1)
    omega
  · rw [← hlen, List.take_length, zerosDigitsText_eq]
    simp only [List.replicate_zero, List.nil_append, List.append_assoc, hlen]

/-! ## The flags -/

theorem zero_slt {n : U32} : (0 : U32).slt n = true ↔ 0 < n.toNat ∧ n.toNat < 2 ^ 31 := by
  rw [BitVec.slt_iff_toInt_lt, BitVec.toInt_eq_toNat_cond (x := n)]
  show (0 : Int) < _ ↔ _
  omega

theorem turns_intMax_zero {n : U32} (h : 2 ^ 31 ≤ n.toNat) : turns (intMax n 0) = 0 := by
  rw [intMax, if_neg fun hlt => ?_]
  · rfl
  · exact Nat.not_le_of_lt (zero_slt.mp hlt).2 h

/-- A precision of at least 1 without a width leaves no place for spaces. -/
theorem numberFill_precision {precision : U32} (hp : (0 : U32).slt precision = true) (pad : U8)
    {digits : Nat} (hle : digits ≤ 64) (hpos : 0 < digits) (negative : Bool) :
    turns (numberFill (BitVec.ofNat 32 digits) (if negative then 1 else 0) 0 precision pad).2 = 0 := by
  have hlt := zero_slt.mp hp
  have hp0 : (0 : U32).sle precision = true := by
    rw [BitVec.slt_iff_toInt_lt] at hp
    exact BitVec.sle_iff_toInt_le.mpr (Int.le_of_lt hp)
  have hdigits : (BitVec.ofNat 32 digits).toNat = digits := Nat.mod_eq_of_lt (by omega)
  have hzero : (0 : U32).toNat = 0 := rfl
  -- the digits with the zeros are the precision, or the digits alone
  have hzeros : digits + (intMax (precision - BitVec.ofNat 32 digits) 0).toNat < 2 ^ 31 := by
    rw [intMax]
    split
    · next h =>
        rw [zero_slt, BitVec.toNat_sub, hdigits] at h
        rw [BitVec.toNat_sub, hdigits]
        omega
    · rw [hzero]
      omega
  rw [numberFill, if_pos hp0]
  apply turns_intMax_zero
  generalize intMax (precision - BitVec.ofNat 32 digits) 0 = zeros at hzeros
  have hneg : (if negative then 1 else 0 : U32).toNat ≤ 1 := by cases negative <;> decide
  generalize (if negative then 1 else 0 : U32) = n at hneg
  rw [BitVec.toNat_sub, BitVec.toNat_sub, BitVec.toNat_sub, hdigits, hzero]
  omega

def IsDigit (c : U8) : Prop := ch '0' ≤ c ∧ c ≤ ch '9'

instance : DecidablePred IsDigit := fun c => inferInstanceAs (Decidable (ch '0' ≤ c ∧ c ≤ ch '9'))

/-- The conversion from its length on, behind a precision or a width. -/
def lengthConv (pad : U8) (width precision : U32) (fmt : List U8) : Conv × List U8 :=
  let (long, fmt) := accept (ch 'l') fmt
  let (longLong, fmt) := if long then accept (ch 'l') fmt else (false, fmt)
  (⟨false, pad, width, precision, longLong⟩, fmt)

/-- And from its width on, behind the flags. -/
def widthConv (zero : Bool) (fmt : List U8) : Conv × List U8 :=
  let (width, fmt) := parseNumber 0 fmt
  let (point, fmt) := accept (ch '.') fmt
  let (precision, fmt) := if point then parseNumber 0 fmt else (-1, fmt)
  lengthConv (if zero && !point then ch '0' else ch ' ') width precision fmt

theorem parseConv_precision (fmt : List U8) :
    parseConv (ch '.' :: fmt)
      = lengthConv (ch ' ') 0 (parseNumber 0 fmt).1 (parseNumber 0 fmt).2 := rfl

theorem parseConv_zeroWidth {fmt rest : List U8} {width : U32}
    (h : parseNumber 0 fmt = (width, ch 'l' :: rest)) :
    parseConv (ch '0' :: fmt) = lengthConv (ch '0') width (-1) (ch 'l' :: rest) := by
  have hzero : parseConv (ch '0' :: fmt) = widthConv true fmt := rfl
  rw [hzero, widthConv, h]
  rfl

theorem parseNumber_append {ds : List U8} (hds : ∀ c ∈ ds, IsDigit c) {c : U8} (hc : ¬ IsDigit c)
    (fmt : List U8) (number : U32) :
    parseNumber number (ds ++ c :: fmt) = ((parseNumber number ds).1, c :: fmt) := by
  induction ds generalizing number with
  | nil => exact if_neg hc
  | cons d ds ih =>
      have hd : ch '0' ≤ d ∧ d ≤ ch '9' := hds d List.mem_cons_self
      rw [List.cons_append, parseNumber, if_pos hd, parseNumber, if_pos hd]
      exact ih (fun c hc => hds c (List.mem_cons_of_mem _ hc)) _

/-- What may stand between the `%` and the `ll` of a conversion that prints a
number without spaces: nothing, a precision of at least 1, or a width to fill with
zeros. -/
inductive NumberFlags : List U8 → Prop where
  | plain : NumberFlags []
  | precision {ds : List U8} (hds : ∀ c ∈ ds, IsDigit c)
      (h : (0 : U32).slt (parseNumber 0 ds).1 = true) : NumberFlags (ch '.' :: ds)
  | zeroWidth {ds : List U8} (hds : ∀ c ∈ ds, IsDigit c) : NumberFlags (ch '0' :: ds)

theorem NumberFlags.parseConv {flags : List U8} (h : NumberFlags flags) (c : U8) :
    ∃ width precision pad,
      parseConv (flags ++ [ch 'l', ch 'l', c]) = (⟨false, pad, width, precision, true⟩, [c]) ∧
      precision ≠ 0 ∧
      ∀ digits ≤ 64, ∀ negative : Bool, 0 < digits →
        turns (numberFill (BitVec.ofNat 32 digits) (if negative then 1 else 0) width precision pad).2
          = 0 := by
  have hl : ¬ IsDigit (ch 'l') := by decide
  cases h with
  | plain =>
      refine ⟨0, -1, ch ' ', rfl, by decide, ?_⟩
      decide
  | precision hds h =>
      rename_i ds
      refine ⟨0, (parseNumber 0 ds).1, ch ' ', ?_, ?_, fun digits hle negative hpos =>
        numberFill_precision h _ hle hpos negative⟩
      · rw [List.cons_append, parseConv_precision, parseNumber_append hds hl]
        rfl
      · intro h0
        rw [h0] at h
        exact absurd h (by decide)
  | zeroWidth hds =>
      rename_i ds
      refine ⟨(parseNumber 0 ds).1, -1, ch '0', ?_, by decide, fun digits _ negative _ => rfl⟩
      rw [List.cons_append, parseConv_zeroWidth (parseNumber_append hds hl [ch 'l', c] 0)]
      rfl

/-! ## Round trips -/

/-- A conversion of 64 bits, the base it prints in, and whether it is signed. -/
inductive Prints64 : U8 → Nat → Bool → Prop where
  | u : Prints64 (ch 'u') 10 false
  | x : Prints64 (ch 'x') 16 false
  | X : Prints64 (ch 'X') 16 false
  | o : Prints64 (ch 'o') 8 false
  | b : Prints64 (ch 'b') 2 false
  | d : Prints64 (ch 'd') 10 true

theorem Prints64.base {c : U8} {isSigned : Bool} (hc : Prints64 c b isSigned) : b ∈ printBases := by
  cases hc <;> decide

theorem Prints64.convertText {c : U8} {isSigned : Bool} (hc : Prints64 c b isSigned) (pad : U8)
    (width precision : U32) (v : U64) :
    ∃ lower, convertText ⟨false, pad, width, precision, true⟩ c [.dword v]
      = some (numberText v isSigned (BitVec.ofNat 32 b) lower width precision pad false, []) := by
  cases hc with
  | x => exact ⟨true, rfl⟩
  | _ => exact ⟨false, rfl⟩

theorem formatText_conversion {fmt : List U8} {conv : Conv} {c : U8} {args : List Arg} {t : List U8}
    (hparse : parseConv fmt = (conv, [c])) (ht : convertText conv c args = some (t, [])) :
    formatText (ch '%' :: fmt) args = some t := by
  rw [formatText, List.length_cons, formatTextFrom, if_neg (not_not_intro rfl), hparse]
  show (convertText conv c args).bind _ = _
  rw [ht]
  cases fmt with
  | nil => exact congrArg some (List.append_nil t)
  | cons => exact congrArg some (List.append_nil t)

/-- What `vsprintf` produces for a 64-bit number: a sign, zeros and the digits. -/
theorem vsprintf_number64 (s : U32) {flags : List U8} (hflags : NumberFlags flags) {c : U8}
    {isSigned : Bool} (hc : Prints64 c b isSigned) (v : U64) :
    ∃ lower zeros, VsprintfText s (ch '%' :: (flags ++ [ch 'l', ch 'l', c])) [.dword v]
      ((if isSigned && v.slt 0 then [ch '-'] else [])
        ++ zerosDigitsText b lower zeros (if isSigned && v.slt 0 then -v else v)) := by
  obtain ⟨width, precision, pad, hparse, hprec, hspaces⟩ := hflags.parseConv c
  obtain ⟨lower, hconvert⟩ := hc.convertText pad width precision v
  obtain ⟨zeros, hzeros, htext⟩ := numberText_eq hc.base v isSigned lower hprec hspaces
  rw [htext] at hconvert
  refine ⟨lower, zeros, vsprintf_text s (formatText_conversion hparse hconvert) ?_⟩
  have hlen := (printedDigits_length hc.base (if isSigned && v.slt 0 then -v else v)).2
  have hsign : (if isSigned && v.slt 0 then [ch '-'] else []).length ≤ 1 := by split <;> decide
  rw [List.length_append, zerosDigitsText_eq, List.length_append, List.length_replicate,
    List.length_reverse, digitChars, List.length_map]
  omega

/-- No character of such a text is the NUL. -/
theorem nul_notMem_text (hb : b ∈ printBases) (lower negative : Bool) (zeros : Nat) (number : U64) :
    0 ∉ (if negative then [ch '-'] else []) ++ zerosDigitsText b lower zeros number := by
  intro hmem
  rcases List.mem_append.mp hmem with hmem | hmem
  · cases negative with
    | false => exact absurd hmem List.not_mem_nil
    | true => exact absurd (List.mem_singleton.mp hmem) (by decide)
  · exact digitChars_ne _ hb (zerosDigits_lt hb zeros number) (by decide) hmem

/-- **Printed and parsed**: the text of a 64-bit number in any of the bases, with a
precision, with a width to fill with zeros or without, is taken back to the number
up to the NUL, by `strtoull` and, for a signed one, by `strtoll`. -/
theorem print_parse (s : U32) {flags : List U8} (hflags : NumberFlags flags) (v : U64) :
    (∀ c base, (c, base) ∈ [(ch 'u', 10), (ch 'x', 16), (ch 'X', 16), (ch 'o', 8), (ch 'b', 2)] →
      ∃ t, VsprintfText s (ch '%' :: (flags ++ [ch 'l', ch 'l', c])) [.dword v] t ∧ 0 ∉ t ∧
        strtoull (some t) base = (v, some t.length)) ∧
    ∃ t, VsprintfText s (ch '%' :: (flags ++ [ch 'l', ch 'l', ch 'd'])) [.dword v] t ∧ 0 ∉ t ∧
      strtoll (some t) 10 = (v, some t.length) := by
  have hunsigned : ∀ {c b}, Prints64 c b false →
      ∃ t, VsprintfText s (ch '%' :: (flags ++ [ch 'l', ch 'l', c])) [.dword v] t ∧ 0 ∉ t ∧
        strtoull (some t) (BitVec.ofNat 32 b) = (v, some t.length) := by
    intro c b hc
    obtain ⟨lower, zeros, htext⟩ := vsprintf_number64 s hflags hc v
    exact ⟨_, htext, nul_notMem_text hc.base lower false zeros v, strtoull_text hc.base lower zeros v⟩
  refine ⟨fun c base hc => ?_, ?_⟩
  · simp only [List.mem_cons, Prod.mk.injEq, List.not_mem_nil, or_false] at hc
    obtain ⟨rfl, rfl⟩ | ⟨rfl, rfl⟩ | ⟨rfl, rfl⟩ | ⟨rfl, rfl⟩ | ⟨rfl, rfl⟩ := hc
    · exact hunsigned .u
    · exact hunsigned .x
    · exact hunsigned .X
    · exact hunsigned .o
    · exact hunsigned .b
  · obtain ⟨lower, zeros, htext⟩ := vsprintf_number64 s hflags .d v
    have hparse := strtoll_text lower zeros (v.slt 0) (if v.slt 0 then -v else v)
    refine ⟨_, htext, nul_notMem_text (by decide) lower (v.slt 0) zeros _, ?_⟩
    rw [Bool.true_and, hparse]
    have hback : (if v.slt 0 then -(if v.slt 0 then -v else v) else if v.slt 0 then -v else v) = v := by
      split
      · exact BitVec.neg_neg
      · rfl
    rw [hback]

theorem print_parse_min :
    (∀ c base, (c, base) ∈ [(ch 'u', 10), (ch 'x', 16), (ch 'X', 16), (ch 'o', 8), (ch 'b', 2)] →
      ∃ t, VsprintfText 0x1000 (ch '%' :: (chars "070" ++ [ch 'l', ch 'l', c]))
          [.dword 0x8000000000000000] t ∧ 0 ∉ t ∧
        strtoull (some t) base = (0x8000000000000000, some t.length)) ∧
    ∃ t, VsprintfText 0x1000 (ch '%' :: (chars "070" ++ [ch 'l', ch 'l', ch 'd']))
        [.dword 0x8000000000000000] t ∧ 0 ∉ t ∧
      strtoll (some t) 10 = (0x8000000000000000, some t.length) :=
  print_parse 0x1000 (.zeroWidth (by decide)) 0x8000000000000000

end Tomk
