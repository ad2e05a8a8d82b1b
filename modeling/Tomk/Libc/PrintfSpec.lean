/-
# The text of a format

What `vformat` hands to its output does not depend on the output: it is a text,
which the format and the arguments determine.  The functions here say which one,
conversion by conversion, and each function of `printf.c` outputs the text of its
namesake.
-/
import Tomk.Libc.Printf

namespace Tomk

variable {σ : Type}

/-! ## The texts -/

def digitsText (buffer : List U8) : Nat → List U8
  | 0 => []
  | n + 1 => buffer.getD n 0 :: digitsText buffer n

/-- A number: its sign, the zeros, its digits, and the spaces on one side. -/
def numberText (number : U64) (isSigned : Bool) (base : U32) (lower : Bool)
    (width precision : U32) (pad : U8) (left : Bool) : List U8 :=
  let hexDigits := if lower then hexDigitsL else hexDigitsU
  let base := if base ≠ 2 ∧ base ≠ 8 ∧ base ≠ 10 ∧ base ≠ 16 then 10 else base
  let negative := isSigned && number.slt 0
  let number := if negative then -(number + 1) + 1 else number
  let buffer := numberDigits hexDigits base number
  let digits := if precision = 0 ∧ number = 0 then 0 else BitVec.ofNat 32 buffer.length
  let (zeros, spaces) := numberFill digits (if negative then 1 else 0) width precision pad
  let spaces := List.replicate (turns spaces) (ch ' ')
  (if left then [] else spaces) ++ (if negative then [ch '-'] else [])
    ++ List.replicate (turns zeros) (ch '0') ++ digitsText buffer (turns digits)
    ++ (if left then spaces else [])

def stringText (s : Option (List U8)) (width precision : U32) (left : Bool) : List U8 :=
  let s := s.getD (chars "(null)")
  let len := BitVec.ofNat 32 s.length
  let len := if (0 : U32).sle precision ∧ precision < len then precision else len
  let spaces := List.replicate (width.toNat - len.toNat) (ch ' ')
  (if left then [] else spaces) ++ s.take len.toNat ++ (if left then spaces else [])

def convertText (conv : Conv) (c : U8) (args : List Arg) : Option (List U8 × List Arg) :=
  let number (isSigned : Bool) (base : U32) (lower : Bool) :=
    (vaNumber isSigned conv.longLong args).map fun a =>
      (numberText a.1 isSigned base lower conv.width conv.precision conv.pad conv.left, a.2)
  if c = ch 'c' then (vaWord args).map fun a => ([a.1.setWidth 8], a.2)
  else if c = ch 's' then
    (vaStr args).map fun a => (stringText a.1 conv.width conv.precision conv.left, a.2)
  else if c = ch 'd' ∨ c = ch 'i' then number true 10 false
  else if c = ch 'u' then number false 10 (c = ch 'x')
  else if c = ch 'x' ∨ c = ch 'X' then number false 16 (c = ch 'x')
  else if c = ch 'o' then number false 8 (c = ch 'x')
  else if c = ch 'b' then number false 2 (c = ch 'x')
  else if c = ch '%' then some ([ch '%'], args)
  else some ([ch '%', c], args)

def formatTextFrom : Nat → List U8 → List Arg → Option (List U8)
  | _, [], _ => some []
  | 0, _ :: _, _ => none
  | n + 1, c :: fmt, args =>
      if c ≠ ch '%' then (formatTextFrom n fmt args).map (c :: ·)
      else
        let (conv, fmt) := parseConv fmt
        match fmt with
        | [] => none
        | c :: fmt => do
            let (t, args) ← convertText conv c args
            let ts ← formatTextFrom n fmt args
            pure (t ++ ts)

/-- The text of a format, if it is complete and the arguments match. -/
def formatText (fmt : List U8) (args : List Arg) : Option (List U8) :=
  formatTextFrom fmt.length fmt args

/-! ## The code outputs them -/

def outputAll (t : List U8) (out : PrintfOutput σ) : PrintfOutput σ := t.foldl outputChar out

@[simp] theorem outputAll_nil (out : PrintfOutput σ) : outputAll [] out = out := rfl

@[simp] theorem outputAll_cons (c : U8) (t : List U8) (out : PrintfOutput σ) :
    outputAll (c :: t) out = outputAll t (outputChar out c) := rfl

theorem outputAll_append (t t' : List U8) (out : PrintfOutput σ) :
    outputAll (t ++ t') out = outputAll t' (outputAll t out) := List.foldl_append

/-- An output that keeps what it gets, behind `t`. -/
def recording (t : List U8) : PrintfOutput (List U8) :=
  ⟨fun s c => s ++ [c], t, BitVec.ofNat 32 t.length⟩

/-- The characters, in order, and their number. -/
theorem outputAll_recording (t t' : List U8) : outputAll t' (recording t) = recording (t ++ t') := by
  induction t' generalizing t with
  | nil => rw [outputAll_nil, List.append_nil]
  | cons c t' ih =>
    have hchar : outputChar (recording t) c = recording (t ++ [c]) := by
      simp only [outputChar, recording, List.length_append, List.length_singleton, BitVec.ofNat_add]
      rfl
    rw [outputAll_cons, hchar, ih, List.append_assoc, List.singleton_append]

theorem outputRun_eq (c : U8) (n : Nat) (out : PrintfOutput σ) :
    outputRun c n out = outputAll (List.replicate n c) out := by
  induction n generalizing out with
  | zero => rfl
  | succ n ih => exact ih _

theorem outputDigits_eq (buffer : List U8) (n : Nat) (out : PrintfOutput σ) :
    outputDigits buffer n out = outputAll (digitsText buffer n) out := by
  induction n generalizing out with
  | zero => rfl
  | succ n ih => exact ih _

/-- Something on one side or the other. -/
theorem outputAll_ite (p : Prop) [Decidable p] (t t' : List U8) (out : PrintfOutput σ) :
    outputAll (if p then t else t') out = if p then outputAll t out else outputAll t' out := by
  split <;> rfl

theorem prNumber_eq (out : PrintfOutput σ) (number : U64) (isSigned : Bool) (base : U32)
    (lower : Bool) (width precision : U32) (pad : U8) (left : Bool) :
    prNumber out number isSigned base lower width precision pad left
      = outputAll (numberText number isSigned base lower width precision pad left) out := by
  simp only [prNumber, numberText, outputAll_append, outputAll_ite, outputAll_nil, outputAll_cons,
    outputRun_eq, outputDigits_eq]

theorem prString_eq (out : PrintfOutput σ) (s : Option (List U8)) (width precision : U32)
    (left : Bool) :
    prString out s width precision left
      = outputAll (stringText s width precision left) out := by
  simp only [prString, stringText, outputAll_append, outputAll_ite, outputAll_nil, outputRun_eq]
  rfl

theorem convert_eq (out : PrintfOutput σ) (conv : Conv) (c : U8) (args : List Arg) :
    convert out conv c args
      = (convertText conv c args).map fun a => (outputAll a.1 out, a.2) := by
  simp only [convert, convertText, prUint, prInt, prNumber_eq, prString_eq]
  split_ifs
  -- a conversion takes an argument, or outputs characters of the format
  all_goals first
    | rfl
    | rw [Option.map_map]; rfl

theorem vformatFrom_eq (n : Nat) (out : PrintfOutput σ) (fmt : List U8) (args : List Arg) :
    vformatFrom n out fmt args = (formatTextFrom n fmt args).map (outputAll · out) := by
  induction n generalizing out fmt args with
  | zero => cases fmt <;> rfl
  | succ n ih =>
      cases fmt with
      | nil => rfl
      | cons c fmt =>
          simp only [vformatFrom, formatTextFrom]
          split
          · rw [ih, Option.map_map]
            rfl
          · cases (parseConv fmt).2 with
            | nil => rfl
            | cons c fmt' =>
                simp only [convert_eq]
                cases convertText (parseConv fmt).1 c args with
                | none => rfl
                | some a =>
                    simp only [Option.map_some, Option.bind_eq_bind, Option.bind_some, ih]
                    cases formatTextFrom n fmt' a.2 with
                    | none => rfl
                    | some ts => exact congrArg some (outputAll_append _ _ _).symm

/-- **`vformat`** outputs the text of the format, whatever the output does with it. -/
theorem vformat_eq (out : PrintfOutput σ) (fmt : List U8) (args : List Arg) :
    vformat out fmt args = (formatText fmt args).map (outputAll · out) :=
  vformatFrom_eq _ _ _ _

end Tomk
