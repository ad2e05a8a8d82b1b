/-
# `strtoul.c`

`strtoull` and `strtoll`, and with accumulators of 32 bits `strtoul` and `strtol`.
A string is the list of its characters before the NUL, `NULL` is `none`, and what
is stored for the end is the number of characters before it; `none` where the
functions return without a store.  The accumulator wraps, also the signed one.
-/
import Tomk.Libc.Printf
import Mathlib.Data.Nat.Digits.Lemmas

namespace Tomk

/-- The digit of a character. -/
def digitOf (c : U8) : Option U32 :=
  if ch '0' ≤ c ∧ c ≤ ch '9' then some (c.setWidth 32 - 0x30)
  else if ch 'a' ≤ c ∧ c ≤ ch 'z' then some (c.setWidth 32 - 0x61 + 10)
  else if ch 'A' ≤ c ∧ c ≤ ch 'Z' then some (c.setWidth 32 - 0x41 + 10)
  else none

/-- The loop `while (*p)`: the value, and what is left of the string. -/
def strtoLoop (radix : U32) (value : U64) : List U8 → U64 × List U8
  | [] => (value, [])
  | c :: p =>
      match digitOf c with
      | none => (value, c :: p)
      | some digit =>
          if radix.sle digit then (value, c :: p)
          else strtoLoop radix (value * radix.signExtend 64 + digit.signExtend 64) p

/-- The radix, and where the digits begin; `none` for a lone `0`, where the
functions return. -/
def strtoRadix (radix : U32) (p : List U8) : Option (U32 × List U8) :=
  if radix ≠ 0 then some (radix, p)
  else match p with
    | [] => some (10, [])
    | c :: p =>
        if c = ch '0' then
          match p with
          | [] => none
          | d :: p =>
              if d = ch 'x' ∨ d = ch 'X' then some (16, p)
              else if d = ch 'b' ∨ d = ch 'B' then some (2, p)
              else some (8, d :: p)
        else some (10, c :: p)

/-- From the radix to the end, for the string `str` and the sign that was read. -/
def strtoDigits (str : List U8) (radix : U32) (negative : Bool) (p : List U8) : U64 × Option Nat :=
  match strtoRadix radix p with
  | none => (0, none)
  | some (radix, p) =>
      if radix.slt 2 || (36 : U32).slt radix then (0, none)
      else
        let (value, p) := strtoLoop radix 0 p
        (if negative then -value else value, some (str.length - p.length))

def strtoull (str : Option (List U8)) (radix : U32) : U64 × Option Nat :=
  match str with
  | none => (0, none)
  | some [] => (0, none)
  | some p => strtoDigits p radix false p

def strtoll (str : Option (List U8)) (radix : U32) : U64 × Option Nat :=
  match str with
  | none => (0, none)
  | some [] => (0, none)
  | some (c :: p) =>
      if c = ch '+' ∨ c = ch '-' then
        if p = [] then (0, some 0) else strtoDigits (c :: p) radix (c = ch '-') p
      else strtoDigits (c :: p) radix false (c :: p)

/-! ## The ones of 32 bits -/

def strtoLoop32 (radix value : U32) : List U8 → U32 × List U8
  | [] => (value, [])
  | c :: p =>
      match digitOf c with
      | none => (value, c :: p)
      | some digit =>
          if radix.sle digit then (value, c :: p)
          else strtoLoop32 radix (value * radix + digit) p

def strtoDigits32 (str : List U8) (radix : U32) (negative : Bool) (p : List U8) :
    U32 × Option Nat :=
  match strtoRadix radix p with
  | none => (0, none)
  | some (radix, p) =>
      if radix.slt 2 || (36 : U32).slt radix then (0, none)
      else
        let (value, p) := strtoLoop32 radix 0 p
        (if negative then -value else value, some (str.length - p.length))

def strtoul (str : Option (List U8)) (radix : U32) : U32 × Option Nat :=
  match str with
  | none => (0, none)
  | some [] => (0, none)
  | some p => strtoDigits32 p radix false p

def strtol (str : Option (List U8)) (radix : U32) : U32 × Option Nat :=
  match str with
  | none => (0, none)
  | some [] => (0, none)
  | some (c :: p) =>
      if c = ch '+' ∨ c = ch '-' then
        if p = [] then (0, some 0) else strtoDigits32 (c :: p) radix (c = ch '-') p
      else strtoDigits32 (c :: p) radix false (c :: p)

/-! ## The digits of a number -/

variable {b : Nat} {hexDigits : List U8}

/-- The characters of digits below `b`. -/
def digitChars (hexDigits : List U8) (ds : List Nat) : List U8 :=
  ds.map fun d => hexDigits.getD d 0

/-- The tables of `printf.c` hold characters that `digitOf` takes back. -/
theorem digitOf_hexDigits {lower : Bool} {d : Nat} (h : d < 16) :
    digitOf ((if lower then hexDigitsL else hexDigitsU).getD d 0) = some (BitVec.ofNat 32 d) := by
  have hall : ∀ lower : Bool, ∀ d < 16, digitOf ((if lower then hexDigitsL else hexDigitsU).getD d 0)
      = some (BitVec.ofNat 32 d) := by decide +kernel
  exact hall lower d h

/-- The loop computes the value of the digits, the highest first. -/
theorem strtoLoop_digitChars (lower : Bool) (hb : b ≤ 16) {ds : List Nat} (hds : ∀ d ∈ ds, d < b)
    (v : Nat) :
    strtoLoop (BitVec.ofNat 32 b) (BitVec.ofNat 64 v)
        (digitChars (if lower then hexDigitsL else hexDigitsU) ds)
      = (BitVec.ofNat 64 (ds.foldl (fun v d => v * b + d) v), []) := by
  induction ds generalizing v with
  | nil => rfl
  | cons d ds ih =>
      have hd := hds d List.mem_cons_self
      have hext : ∀ n ≤ 16, (BitVec.ofNat 32 n).signExtend 64 = BitVec.ofNat 64 n := by
        decide +kernel
      have hlt : ∀ b ≤ 16, ∀ d < b, (BitVec.ofNat 32 b).sle (BitVec.ofNat 32 d) = false := by
        decide +kernel
      show strtoLoop _ _ (_ :: digitChars _ ds) = _
      rw [strtoLoop, digitOf_hexDigits (by omega)]
      simp only [hlt b hb d hd, Bool.false_eq_true, if_false]
      rw [hext b hb, hext d (by omega), ← BitVec.ofNat_mul, ← BitVec.ofNat_add]
      exact ih (fun d hd => hds d (List.mem_cons_of_mem _ hd)) _

end Tomk
