/-
# What `strtoul` and `strtoull` read

A string denotes a number: a prefix chooses the radix where the caller has not, and
the digits are the longest run behind it that the radix knows.  The loop is Horner's
rule over that run, and stops where it ends.

The end is stored only behind the loop.  Two returns come before it for radixes the
functions accept: the empty string, and a lone `0` of which the functions are to
find the radix.
-/
import Tomk.Libc.StrtoFour

namespace Tomk

/-! ## The number -/

/-- The value of a digit, in the largest radix. -/
def digitVal (c : U8) : Option Nat :=
  ((chars "0123456789abcdefghijklmnopqrstuvwxyz").idxOf? c).or
    ((chars "0123456789ABCDEFGHIJKLMNOPQRSTUVWXYZ").idxOf? c)

/-- The effective radix, and the length of the prefix that chooses it. -/
def radixPrefix (radix : Nat) (s : List U8) : Nat × Nat :=
  if radix ≠ 0 then (radix, 0)
  else if chars "0x" <+: s ∨ chars "0X" <+: s then (16, 2)
  else if chars "0b" <+: s ∨ chars "0B" <+: s then (2, 2)
  else if chars "0" <+: s then (8, 1)
  else (10, 0)

/-- The digits at the front of `p` that `radix` knows, as many as there are. -/
def digitRun (radix : Nat) (p : List U8) : List U8 :=
  p.takeWhile fun c => (digitVal c).any (· < radix)

/-- The positional value of digits, the highest first. -/
def positional (radix : Nat) (digits : List U8) : Nat :=
  Nat.ofDigits radix (digits.filterMap digitVal).reverse

/-- The run of digits of a string. -/
def numberRun (radix : Nat) (s : List U8) : List U8 :=
  digitRun (radixPrefix radix s).1 (s.drop (radixPrefix radix s).2)

def numberValue (radix : Nat) (s : List U8) : Nat :=
  positional (radixPrefix radix s).1 (numberRun radix s)

/-- The number of characters before the end of the run. -/
def numberEnd (radix : Nat) (s : List U8) : Nat :=
  (radixPrefix radix s).2 + (numberRun radix s).length

/-! ## The loop -/

theorem digitOf_digitVal (c : U8) : (digitOf c).map BitVec.toNat = digitVal c := by
  have hall : ∀ c : U8, (digitOf c).map BitVec.toNat = digitVal c := by decide +kernel
  exact hall c

theorem digitOf_lt {c : U8} {digit : U32} (h : digitOf c = some digit) : digit.toNat < 36 := by
  have hall : ∀ c : U8, ∀ d ∈ (digitOf c).map BitVec.toNat, d < 36 := by decide +kernel
  exact hall c digit.toNat (by rw [h]; rfl)

/-- Horner's rule. -/
theorem foldl_positional (radix : Nat) (digits : List U8) :
    (digits.filterMap digitVal).foldl (fun v d => v * radix + d) 0 = positional radix digits := by
  rw [positional, Nat.ofDigits_eq_foldr, List.foldr_reverse]
  simp only [Nat.cast_id, Nat.add_comm, Nat.mul_comm]

theorem strtoLoop_run {r : Nat} (hr : r ≤ 36) (v : Nat) (p : List U8) :
    strtoLoop (BitVec.ofNat 32 r) (BitVec.ofNat 64 v) p
      = (BitVec.ofNat 64 (((digitRun r p).filterMap digitVal).foldl (fun v d => v * r + d) v),
        p.drop (digitRun r p).length) := by
  induction p generalizing v with
  | nil => rfl
  | cons c p ih =>
      have hval := digitOf_digitVal c
      rw [strtoLoop]
      cases hdigit : digitOf c with
      | none =>
          rw [hdigit] at hval
          rw [digitRun, List.takeWhile_cons, ← hval]
          rfl
      | some digit =>
          rw [hdigit] at hval
          have hlt := digitOf_lt hdigit
          have hsle : (BitVec.ofNat 32 r).sle digit = true ↔ r ≤ digit.toNat := by
            rw [BitVec.sle_iff_toInt_le, BitVec.toInt_eq_toNat_cond, BitVec.toInt_eq_toNat_cond,
              BitVec.toNat_ofNat]
            omega
          by_cases hle : r ≤ digit.toNat
          · have hrun : digitRun r (c :: p) = [] := by
              rw [digitRun, List.takeWhile_cons, ← hval]
              simp [hle]
            simp only [if_pos (hsle.mpr hle), hrun]
            rfl
          · have hrun : digitRun r (c :: p) = c :: digitRun r p := by
              rw [digitRun, List.takeWhile_cons, ← hval]
              simp [Nat.lt_of_not_le hle, digitRun]
            have hext : ∀ n ≤ 36, (BitVec.ofNat 32 n).signExtend 64 = BitVec.ofNat 64 n := by
              decide +kernel
            have hdigit' : digit = BitVec.ofNat 32 digit.toNat := by
              rw [BitVec.ofNat_toNat, BitVec.setWidth_eq]
            simp only [if_neg fun h => hle (hsle.mp h), hrun]
            rw [List.filterMap_cons, ← hval, hdigit', hext r hr, hext _ (Nat.le_of_lt hlt),
              ← BitVec.ofNat_mul, ← BitVec.ofNat_add, ih]
            simp only [Option.map_some, BitVec.ofNat_toNat, BitVec.setWidth_eq, List.foldl_cons,
              List.length_cons, List.drop_succ_cons]

/-! ## The prefix -/

/-- The radixes that the functions take. -/
def RadixTaken (radix : U32) : Prop := radix = 0 ∨ 2 ≤ radix.toNat ∧ radix.toNat ≤ 36

instance : DecidablePred RadixTaken := fun radix =>
  inferInstanceAs (Decidable (radix = 0 ∨ 2 ≤ radix.toNat ∧ radix.toNat ≤ 36))

theorem radixPrefix_bounds {radix : U32} (h : RadixTaken radix) (s : List U8) :
    2 ≤ (radixPrefix radix.toNat s).1 ∧ (radixPrefix radix.toNat s).1 ≤ 36 := by
  unfold radixPrefix
  split
  · next hne =>
      rcases h with rfl | h
      · exact absurd rfl hne
      · exact h
  · split
    · decide
    · split
      · decide
      · split <;> decide

/-- Where the functions look for the prefix themselves. -/
theorem strtoRadix_zero {s : List U8} (hs : s ≠ []) (hzero : s ≠ [ch '0']) :
    strtoRadix 0 s = some (BitVec.ofNat 32 (radixPrefix 0 s).1, s.drop (radixPrefix 0 s).2) := by
  have hx : chars "0x" = [ch '0', ch 'x'] := rfl
  have hX : chars "0X" = [ch '0', ch 'X'] := rfl
  have hb : chars "0b" = [ch '0', ch 'b'] := rfl
  have hB : chars "0B" = [ch '0', ch 'B'] := rfl
  have h0 : chars "0" = [ch '0'] := rfl
  match s with
  | [] => exact absurd rfl hs
  | [c] =>
      have hc : c ≠ ch '0' := fun h => hzero (by rw [h])
      simp [strtoRadix, radixPrefix, hx, hX, hb, hB, h0, hc, hc.symm]
  | c :: d :: p =>
      simp only [strtoRadix, radixPrefix, hx, hX, hb, hB, h0, List.cons_prefix_cons,
        List.nil_prefix, and_true]
      by_cases hc : c = ch '0'
      · subst hc
        simp only [true_and, if_true, eq_comm (b := d)]
        by_cases hx : d = ch 'x' ∨ d = ch 'X'
        · simp [hx]
        · by_cases hb : d = ch 'b' ∨ d = ch 'B'
          · simp [hx, hb]
          · simp [hx, hb]
      · simp [hc, Ne.symm hc]

/-- Where the functions do not return before the digits. -/
theorem strtoRadix_eq {s : List U8} {radix : U32} (hs : s ≠ [])
    (hzero : ¬ (radix = 0 ∧ s = [ch '0'])) :
    strtoRadix radix s = some (BitVec.ofNat 32 (radixPrefix radix.toNat s).1,
      s.drop (radixPrefix radix.toNat s).2) := by
  by_cases hradix : radix = 0
  · subst hradix
    exact strtoRadix_zero hs fun h => hzero ⟨rfl, h⟩
  · have hne : radix.toNat ≠ 0 := fun h => hradix (BitVec.eq_of_toNat_eq h)
    unfold strtoRadix radixPrefix
    rw [if_pos hradix, if_pos hne, BitVec.ofNat_toNat, BitVec.setWidth_eq]
    rfl

theorem radixPrefix_le (radix : Nat) (s : List U8) : (radixPrefix radix s).2 ≤ s.length := by
  unfold radixPrefix
  split
  · exact Nat.zero_le _
  · split
    · next h => rcases h with h | h <;> exact h.length_le
    · split
      · next h => rcases h with h | h <;> exact h.length_le
      · split
        · next h => exact h.length_le
        · exact Nat.zero_le _

theorem numberEnd_le (radix : Nat) (s : List U8) : numberEnd radix s ≤ s.length := by
  have hrun := (List.takeWhile_prefix (l := s.drop (radixPrefix radix s).2)
    fun c => (digitVal c).any (· < (radixPrefix radix s).1)).length_le
  have hprefix := radixPrefix_le radix s
  rw [List.length_drop] at hrun
  show _ + (digitRun _ _).length ≤ _
  rw [digitRun]
  omega

/-! ## The result -/

/-- `result` is the number at the front of `s`, and the end is stored. -/
def Parses {w : Nat} (result : BitVec w × Option Nat) (radix : Nat) (s : List U8) : Prop :=
  result.2 = some (numberEnd radix s) ∧ result.1.toNat = numberValue radix s % 2 ^ w

theorem strtoull_eq {s : List U8} {radix : U32} (h : RadixTaken radix) (hs : s ≠ [])
    (hzero : ¬ (radix = 0 ∧ s = [ch '0'])) :
    strtoull (some s) radix
      = (BitVec.ofNat 64 (numberValue radix.toNat s), some (numberEnd radix.toNat s)) := by
  obtain ⟨hlow, hhigh⟩ := radixPrefix_bounds h s
  have hrange : ((BitVec.ofNat 32 (radixPrefix radix.toNat s).1).slt 2
      || (36 : U32).slt (BitVec.ofNat 32 (radixPrefix radix.toNat s).1)) = false := by
    have hall : ∀ n ≤ 36, 2 ≤ n →
        ((BitVec.ofNat 32 n).slt 2 || (36 : U32).slt (BitVec.ofNat 32 n)) = false := by decide
    exact hall _ hhigh hlow
  have hloop := strtoLoop_run hhigh 0 (s.drop (radixPrefix radix.toNat s).2)
  have hend := numberEnd_le radix.toNat s
  rw [foldl_positional] at hloop
  have hcons : strtoull (some s) radix = strtoDigits s radix false s := by
    cases s with
    | nil => exact absurd rfl hs
    | cons => rfl
  rw [hcons, strtoDigits, strtoRadix_eq hs hzero]
  simp only [hrange, Bool.false_eq_true, if_false]
  rw [show (0 : U64) = BitVec.ofNat 64 0 from rfl, hloop]
  refine Prod.ext rfl (congrArg some ?_)
  show s.length - (List.drop _ (List.drop _ s)).length = _
  rw [List.drop_drop, List.length_drop]
  show s.length - (s.length - numberEnd radix.toNat s) = numberEnd radix.toNat s
  omega

/-- **`strtoul` and `strtoull` store the end and give the number**, unless the string
is empty, or a lone `0` without a radix. -/
theorem strtoul_parses_iff (s : List U8) {radix : U32} (h : RadixTaken radix) :
    Parses (strtoul (some s) radix) radix.toNat s ∧
        Parses (strtoull (some s) radix) radix.toNat s ↔
      s ≠ [] ∧ ¬ (radix = 0 ∧ s = [ch '0']) := by
  constructor
  · rintro ⟨-, hend, -⟩
    refine ⟨?_, ?_⟩
    · rintro rfl
      exact Option.some_ne_none _ hend.symm
    · rintro ⟨rfl, rfl⟩
      exact Option.some_ne_none _ hend.symm
  · rintro ⟨hs, hzero⟩
    rw [strtoul_eq, strtoull_eq h hs hzero]
    refine ⟨⟨rfl, ?_⟩, rfl, BitVec.toNat_ofNat _ _⟩
    show ((BitVec.ofNat 64 (numberValue radix.toNat s)).setWidth 32).toNat = _
    rw [BitVec.setWidth_ofNat_of_le (by decide), BitVec.toNat_ofNat]

/-- Fifteen hexadecimal digits, of which `strtoul` keeps the last eight. -/
theorem strtoul_parses_wrap :
    Parses (strtoul (some (chars "0x123456789ABCDEFg")) 0) 0 (chars "0x123456789ABCDEFg") ∧
      Parses (strtoull (some (chars "0x123456789ABCDEFg")) 0) 0 (chars "0x123456789ABCDEFg") :=
  (strtoul_parses_iff (chars "0x123456789ABCDEFg") (Or.inl rfl)).mpr (by decide)

/-- The end of a lone `0` is not stored. -/
theorem strtoul_loneZero :
    ¬ ∀ (s : List U8) (radix : U32), RadixTaken radix →
      Parses (strtoul (some s) radix) radix.toNat s ∧
        Parses (strtoull (some s) radix) radix.toNat s := by
  intro hall
  have hend := (hall (chars "0") 0 (Or.inl rfl)).1.1
  have hnone : (strtoul (some (chars "0")) 0).2 = none := by decide
  rw [hnone] at hend
  exact Option.some_ne_none _ hend.symm

end Tomk
