/-
# `printf.c`

`vformat` goes through the format and hands one character after the other to
`output_char`, which calls the `putc` of its output and counts.  Strings are the
lists of their characters before the NUL.  The arguments are a list as well, of
the values that `va_arg` finds; `none` stands for an argument of another kind,
and for a format that ends inside a conversion: the default case of the switch
takes the NUL for its character, and the loop goes on behind it.

An `int` is a word, compared as signed.  A loop that counts one down is recursion
on the number of its turns.

A string output keeps the list of the stores it has made, the oldest first.
-/
import Tomk.Libc.Udivmoddi4
import Mathlib.Logic.Function.Basic

namespace Tomk

variable {σ : Type}

/-- A character of the source. -/
def ch (c : Char) : U8 := BitVec.ofNat 8 c.toNat

def chars (s : String) : List U8 := s.toList.map ch

def maxBufferSize : Nat := 64

/-- `max(a, b)` of two `int`s. -/
def intMax (a b : U32) : U32 := if b.slt a then a else b

/-- The turns of `while (n > 0) { n--; .. }`. -/
def turns (n : U32) : Nat := n.toInt.toNat

/-! ## Outputs -/

structure PrintfOutput (σ : Type) where
  putc : σ → U8 → σ
  userparam : σ
  count : U32

def outputChar (out : PrintfOutput σ) (c : U8) : PrintfOutput σ :=
  let out := { out with userparam := out.putc out.userparam c }
  { out with count := out.count + 1 }

/-- `output_char(out, c)`, `n` times. -/
def outputRun (c : U8) : Nat → PrintfOutput σ → PrintfOutput σ
  | 0, out => out
  | n + 1, out => outputRun c n (outputChar out c)

/-! ## Numbers -/

def hexDigitsU : List U8 := chars "0123456789ABCDEF"

def hexDigitsL : List U8 := chars "0123456789abcdef"

/-- `while (j && i < MAX_BUFFER_SIZE)`, for the `n` places of the buffer that are
left: what is put there. -/
def digitLoop (hexDigits : List U8) (digit next : U64 → U64) : Nat → U64 → List U8
  | 0, _ => []
  | n + 1, j =>
      if j = 0 then []
      else hexDigits.getD (digit j).toNat 0 :: digitLoop hexDigits digit next n (next j)

/-- The switch over the base. -/
def numberDigits (hexDigits : List U8) (base : U32) (number : U64) : List U8 :=
  if number = 0 then [ch '0']
  else if base = 2 then digitLoop hexDigits (· &&& 0x1) (· >>> 1) maxBufferSize number
  else if base = 8 then digitLoop hexDigits (· &&& 0x7) (· >>> 3) maxBufferSize number
  else if base = 16 then digitLoop hexDigits (· &&& 0xF) (· >>> 4) maxBufferSize number
  else digitLoop hexDigits (umoddi3 · (base.setWidth 64)) (udivdi3 · (base.setWidth 64))
    maxBufferSize number

/-- `while (digits > 0) { digits--; output_char(out, buffer[digits]); }` -/
def outputDigits (buffer : List U8) : Nat → PrintfOutput σ → PrintfOutput σ
  | 0, out => out
  | n + 1, out => outputDigits buffer n (outputChar out (buffer.getD n 0))

/-- How `pr_number` fills up: the zeros, and the spaces. -/
def numberFill (digits negative width precision : U32) (pad : U8) : U32 × U32 :=
  if (0 : U32).sle precision then
    let zeros := intMax (precision - digits) 0
    (zeros, intMax (width - digits - zeros - negative) 0)
  else if pad = ch '0' then (intMax (width - digits - negative) 0, 0)
  else (0, intMax (width - digits - negative) 0)

def prNumber (out : PrintfOutput σ) (number : U64) (isSigned : Bool) (base : U32) (lower : Bool)
    (width precision : U32) (pad : U8) (left : Bool) : PrintfOutput σ :=
  let hexDigits := if lower then hexDigitsL else hexDigitsU
  let base := if base ≠ 2 ∧ base ≠ 8 ∧ base ≠ 10 ∧ base ≠ 16 then 10 else base
  let negative := isSigned && number.slt 0
  let number := if negative then -(number + 1) + 1 else number
  let buffer := numberDigits hexDigits base number
  let digits := if precision = 0 ∧ number = 0 then 0 else BitVec.ofNat 32 buffer.length
  let (zeros, spaces) := numberFill digits (if negative then 1 else 0) width precision pad
  let out := if left then out else outputRun (ch ' ') (turns spaces) out
  let out := if negative then outputChar out (ch '-') else out
  let out := outputRun (ch '0') (turns zeros) out
  let out := outputDigits buffer (turns digits) out
  if left then outputRun (ch ' ') (turns spaces) out else out

def prUint (out : PrintfOutput σ) (number : U64) (base : U32) (lower : Bool) (width precision : U32)
    (pad : U8) (left : Bool) : PrintfOutput σ :=
  prNumber out number false base lower width precision pad left

def prInt (out : PrintfOutput σ) (number : U64) (width precision : U32) (pad : U8) (left : Bool) :
    PrintfOutput σ :=
  prNumber out number true 10 false width precision pad left

/-! ## Strings -/

/-- `pr_string`: `NULL` is `none`. -/
def prString (out : PrintfOutput σ) (s : Option (List U8)) (width precision : U32) (left : Bool) :
    PrintfOutput σ :=
  let s := s.getD (chars "(null)")
  let len := BitVec.ofNat 32 s.length
  let len := if (0 : U32).sle precision ∧ precision < len then precision else len
  -- the widths are compared as unsigned
  let out := if left then out else outputRun (ch ' ') (width.toNat - len.toNat) out
  let out := (s.take len.toNat).foldl outputChar out
  if left then outputRun (ch ' ') (width.toNat - len.toNat) out else out

/-! ## Conversions -/

/-- What `va_arg` finds. -/
inductive Arg where
  | word (v : U32)
  | dword (v : U64)
  | str (s : Option (List U8))

/-- `if (*fmt == c) fmt++`, and whether it was. -/
def accept (c : U8) : List U8 → Bool × List U8
  | [] => (false, [])
  | d :: fmt => if d = c then (true, fmt) else (false, d :: fmt)

/-- `parse_number`, from a number that has been read so far. -/
def parseNumber (number : U32) : List U8 → U32 × List U8
  | [] => (number, [])
  | c :: fmt =>
      if ch '0' ≤ c ∧ c ≤ ch '9' then parseNumber (number * 10 + (c.setWidth 32 - 0x30)) fmt
      else (number, c :: fmt)

structure Conv where
  left : Bool
  pad : U8
  width : U32
  precision : U32
  longLong : Bool

/-- A conversion up to its last character. -/
def parseConv (fmt : List U8) : Conv × List U8 :=
  let (left, fmt) := accept (ch '-') fmt
  let (zero, fmt) := if left then (false, fmt) else accept (ch '0') fmt
  let (width, fmt) := parseNumber 0 fmt
  let (point, fmt) := accept (ch '.') fmt
  let (precision, fmt) := if point then parseNumber 0 fmt else (-1, fmt)
  let (long, fmt) := accept (ch 'l') fmt
  let (longLong, fmt) := if long then accept (ch 'l') fmt else (false, fmt)
  (⟨left, if zero && !point then ch '0' else ch ' ', width, precision, longLong⟩, fmt)

/-- The argument of a number: `int32_t`, `uint32_t`, or one of 64 bits. -/
def vaNumber (isSigned longLong : Bool) : List Arg → Option (U64 × List Arg)
  | .word v :: args =>
      if longLong then none
      else some (if isSigned then v.signExtend 64 else v.setWidth 64, args)
  | .dword v :: args => if longLong then some (v, args) else none
  | _ => none

/-- `va_arg(args, int)`, for a character. -/
def vaWord : List Arg → Option (U32 × List Arg)
  | .word v :: args => some (v, args)
  | _ => none

def vaStr : List Arg → Option (Option (List U8) × List Arg)
  | .str s :: args => some (s, args)
  | _ => none

/-- The switch over the last character of a conversion. -/
def convert (out : PrintfOutput σ) (conv : Conv) (c : U8) (args : List Arg) :
    Option (PrintfOutput σ × List Arg) :=
  let lower := c = ch 'x'
  let uint (base : U32) := (vaNumber false conv.longLong args).map fun a =>
    (prUint out a.1 base lower conv.width conv.precision conv.pad conv.left, a.2)
  if c = ch 'c' then (vaWord args).map fun a => (outputChar out (a.1.setWidth 8), a.2)
  else if c = ch 's' then
    (vaStr args).map fun a => (prString out a.1 conv.width conv.precision conv.left, a.2)
  else if c = ch 'd' ∨ c = ch 'i' then
    (vaNumber true conv.longLong args).map fun a =>
      (prInt out a.1 conv.width conv.precision conv.pad conv.left, a.2)
  else if c = ch 'u' then uint 10
  else if c = ch 'x' ∨ c = ch 'X' then uint 16
  else if c = ch 'o' then uint 8
  else if c = ch 'b' then uint 2
  else if c = ch '%' then some (outputChar out (ch '%'), args)
  else some (outputChar (outputChar out (ch '%')) c, args)

/-- The loop of `vformat`; a turn takes a character or more, so that it ends
within the length of the format. -/
def vformatFrom : Nat → PrintfOutput σ → List U8 → List Arg → Option (PrintfOutput σ)
  | _, out, [], _ => some out
  | 0, _, _ :: _, _ => none
  | n + 1, out, c :: fmt, args =>
      if c ≠ ch '%' then vformatFrom n (outputChar out c) fmt args
      else
        let (conv, fmt) := parseConv fmt
        match fmt with
        | [] => none
        | c :: fmt => do
            let (out, args) ← convert out conv c args
            vformatFrom n out fmt args

def vformat (out : PrintfOutput σ) (fmt : List U8) (args : List Arg) : Option (PrintfOutput σ) :=
  vformatFrom fmt.length out fmt args

/-! ## Strings as outputs -/

/-- A store of a byte. -/
structure Store where
  addr : U32
  byte : U8
deriving DecidableEq

def storeAll (mem : Bytes) (stores : List Store) : Bytes :=
  stores.foldl (fun mem st => Function.update mem st.addr st.byte) mem

structure StringOutput where
  buffer : U32
  length : U32
  count : U32
  stores : List Store

def stringOutput (out : StringOutput) (c : U8) : StringOutput :=
  let out := if out.count < out.length then
      { out with stores := out.stores ++ [⟨out.buffer + out.count, c⟩] }
    else out
  { out with count := out.count + 1 }

/-- `vsprintf`: what it returns, and the stores. -/
def vsprintf (s : U32) (fmt : List U8) (args : List Arg) : Option (U32 × List Store) := do
  let str : StringOutput := ⟨s, 0xFFFFFFFF, 0, []⟩
  let out ← vformat ⟨stringOutput, str, 0⟩ fmt args
  pure (out.count, out.userparam.stores ++ [⟨s + out.count, 0⟩])

def vsnprintf (s len : U32) (fmt : List U8) (args : List Arg) : Option (U32 × List Store) := do
  let str : StringOutput := ⟨s, len, 0, []⟩
  let out ← vformat ⟨stringOutput, str, 0⟩ fmt args
  let stores := out.userparam.stores
  let stores := if len ≠ 0 then
      if out.count < len then stores ++ [⟨s + out.count, 0⟩] else stores ++ [⟨s + (len - 1), 0⟩]
    else stores
  pure (out.count, stores)

end Tomk
