/-
# The end of a format

`vformat` again, over the block of memory that the format is, its NUL the last byte:
a read behind it ends the run.  The arguments are the words of the stack, as many as
are asked for, and a string is what stands at its address.

A conversion takes its last character without a look at it.  Where that is the NUL,
the default case of the switch puts out a NUL, and the loop goes on behind the block.
-/
import Tomk.Libc.Printf
import Mathlib.Data.Stream.Defs

namespace Tomk

variable {σ : Type}

/-! ## Reads of the format -/

/-- `if (*fmt == c) fmt++`; `none` for a read behind the block. -/
def acceptRead (c : U8) : List U8 → Option (Bool × List U8)
  | [] => none
  | d :: fmt => some (accept c (d :: fmt))

def parseNumberRead (number : U32) : List U8 → Option (U32 × List U8)
  | [] => none
  | c :: fmt =>
      if ch '0' ≤ c ∧ c ≤ ch '9' then parseNumberRead (number * 10 + (c.setWidth 32 - 0x30)) fmt
      else some (number, c :: fmt)

/-- Something that is read only where `b` says so. -/
def readIf {α : Type} (b : Bool) (read : List U8 → Option (α × List U8)) (skipped : α)
    (fmt : List U8) : Option (α × List U8) :=
  if b then read fmt else some (skipped, fmt)

def parseConvRead (fmt : List U8) : Option (Conv × List U8) := do
  let (left, fmt) ← acceptRead (ch '-') fmt
  let (zero, fmt) ← readIf (!left) (acceptRead (ch '0')) false fmt
  let (width, fmt) ← parseNumberRead 0 fmt
  let (point, fmt) ← acceptRead (ch '.') fmt
  let (precision, fmt) ← readIf point (parseNumberRead 0) (-1) fmt
  let (long, fmt) ← acceptRead (ch 'l') fmt
  let (longLong, fmt) ← readIf long (acceptRead (ch 'l')) false fmt
  pure (⟨left, if zero && !point then ch '0' else ch ' ', width, precision, longLong⟩, fmt)

/-! ## Arguments of the stack -/

/-- `va_arg` of a number, and the words behind it. -/
def wordsNumber (isSigned longLong : Bool) (args : Stream' U32) : U64 × Stream' U32 :=
  if longLong then (args.tail.head ++ args.head, args.tail.tail)
  else (if isSigned then args.head.signExtend 64 else args.head.setWidth 64, args.tail)

/-- `va_arg` of a string. -/
def wordsStr (cstr : U32 → List U8) (args : Stream' U32) : Option (List U8) :=
  if args.head = 0 then none else some (cstr args.head)

/-- The switch over the last character of a conversion. -/
def convertWords (cstr : U32 → List U8) (out : PrintfOutput σ) (conv : Conv) (c : U8)
    (args : Stream' U32) : PrintfOutput σ × Stream' U32 :=
  let lower := c = ch 'x'
  let uint (base : U32) :=
    let (v, args) := wordsNumber false conv.longLong args
    (prUint out v base lower conv.width conv.precision conv.pad conv.left, args)
  if c = ch 'c' then (outputChar out (args.head.setWidth 8), args.tail)
  else if c = ch 's' then
    (prString out (wordsStr cstr args) conv.width conv.precision conv.left, args.tail)
  else if c = ch 'd' ∨ c = ch 'i' then
    let (v, args) := wordsNumber true conv.longLong args
    (prInt out v conv.width conv.precision conv.pad conv.left, args)
  else if c = ch 'u' then uint 10
  else if c = ch 'x' ∨ c = ch 'X' then uint 16
  else if c = ch 'o' then uint 8
  else if c = ch 'b' then uint 2
  else if c = ch '%' then (outputChar out (ch '%'), args)
  else (outputChar (outputChar out (ch '%')) c, args)

/-! ## The loop -/

/-- A run of `vformat`: it returns, it reads behind the block, or it has not come to
an end within the turns that it was given. -/
inductive Formatted (σ : Type) where
  | done (out : PrintfOutput σ)
  | beyond
  | running

def vformatRead (cstr : U32 → List U8) : Nat → PrintfOutput σ → List U8 → Stream' U32 → Formatted σ
  | 0, _, _, _ => .running
  | _ + 1, _, [], _ => .beyond
  | n + 1, out, c :: fmt, args =>
      if c = 0 then .done out
      else if c ≠ ch '%' then vformatRead cstr n (outputChar out c) fmt args
      else match parseConvRead fmt with
        | none => .beyond
        | some (_, []) => .beyond
        | some (conv, c :: fmt) =>
            let (out, args) := convertWords cstr out conv c args
            vformatRead cstr n out fmt args

/-! ## The block and its NUL -/

theorem acceptRead_block {c : U8} (hc : c ≠ 0) (fmt : List U8) :
    acceptRead c (fmt ++ [0]) = some ((accept c fmt).1, (accept c fmt).2 ++ [0]) := by
  cases fmt with
  | nil => exact congrArg some (if_neg hc.symm)
  | cons d fmt =>
      show some (if d = c then (true, fmt ++ [0]) else (false, d :: (fmt ++ [0]))) = some (_, _)
      rw [accept]
      split <;> rfl

theorem parseNumberRead_block (number : U32) (fmt : List U8) :
    parseNumberRead number (fmt ++ [0])
      = some ((parseNumber number fmt).1, (parseNumber number fmt).2 ++ [0]) := by
  induction fmt generalizing number with
  | nil => rfl
  | cons c fmt ih =>
      rw [List.cons_append, parseNumberRead, parseNumber]
      split
      · exact ih _
      · rfl

theorem readIf_block {α : Type} {read : List U8 → Option (α × List U8)}
    {parse : List U8 → α × List U8}
    (h : ∀ fmt, read (fmt ++ [0]) = some ((parse fmt).1, (parse fmt).2 ++ [0])) (b : Bool)
    (skipped : α) (fmt : List U8) :
    readIf b read skipped (fmt ++ [0])
      = some ((if b then parse fmt else (skipped, fmt)).1,
          (if b then parse fmt else (skipped, fmt)).2 ++ [0]) := by
  cases b with
  | true => exact h fmt
  | false => rfl

/-- Up to its last character, a conversion stays in the block. -/
theorem parseConvRead_block (fmt : List U8) :
    parseConvRead (fmt ++ [0]) = some ((parseConv fmt).1, (parseConv fmt).2 ++ [0]) := by
  have hminus := acceptRead_block (c := ch '-') (by decide)
  have hzero := readIf_block (acceptRead_block (c := ch '0') (by decide))
  have hpoint := acceptRead_block (c := ch '.') (by decide)
  have hprec := readIf_block (parseNumberRead_block 0)
  have hl := acceptRead_block (c := ch 'l') (by decide)
  have hll := readIf_block hl
  have hnot : ∀ (b : Bool) (p q : Bool × List U8),
      (if !b then p else q) = if b then q else p := by
    intro b p q
    cases b <;> rfl
  simp only [parseConvRead, parseConv, hminus, hzero, parseNumberRead_block, hpoint, hprec, hl, hll,
    hnot, Option.bind_eq_bind, Option.bind_some, Option.pure_def]

/-! ## Inside a conversion -/

/-- How far a conversion has come: what may follow is a flag and everything behind
it, a digit of the width, one of the precision, a second `l`, or only the last
character.  (A `0` is a digit as well.) -/
inductive Phase where
  | flags
  | width
  | precision
  | long
  | last
deriving DecidableEq

/-- Behind a character of the width, or behind what stands in its place. -/
def widthNext (c : U8) : Option Phase :=
  if ch '0' ≤ c ∧ c ≤ ch '9' then some .width
  else if c = ch '.' then some .precision
  else if c = ch 'l' then some .long
  else none

/-- The phase behind a character; `none` where it is the last one. -/
def Phase.next : Phase → U8 → Option Phase
  | .flags, c => if c = ch '-' then some .width else widthNext c
  | .width, c => widthNext c
  | .precision, c =>
      if ch '0' ≤ c ∧ c ≤ ch '9' then some .precision
      else if c = ch 'l' then some .long
      else none
  | .long, c => if c = ch 'l' then some .last else none
  | .last, _ => none

/-- From the left to the right through a format; `none` is outside of the
conversions. -/
def formatNext : Option Phase → U8 → Option Phase
  | none, c => if c = ch '%' then some .flags else none
  | some phase, c => phase.next c

/-- The format is at an end in the middle of a conversion. -/
def EndsInside (phase : Option Phase) (fmt : List U8) : Prop :=
  fmt.foldl formatNext phase ≠ none

instance (phase : Option Phase) (fmt : List U8) : Decidable (EndsInside phase fmt) :=
  inferInstanceAs (Decidable (_ ≠ _))

theorem endsInside_cons (phase : Option Phase) (c : U8) (fmt : List U8) :
    EndsInside phase (c :: fmt) ↔ EndsInside (formatNext phase c) fmt := Iff.rfl

/-- What is left behind a conversion: without its last character, or a format. -/
def EndsAfter : List U8 → Prop
  | [] => True
  | _ :: fmt => EndsInside none fmt

/-- A conversion takes the next character for its last one. -/
theorem endsInside_last {phase : Phase} {fmt : List U8}
    (h : ∀ c ∈ fmt.head?, phase.next c = none) : EndsInside (some phase) fmt ↔ EndsAfter fmt := by
  cases fmt with
  | nil => exact iff_of_true (Option.some_ne_none _) trivial
  | cons c fmt =>
      rw [endsInside_cons, formatNext, h c rfl]
      rfl

/-- The length, behind a width or a precision. -/
def lengthRest (fmt : List U8) : List U8 :=
  if (accept (ch 'l') fmt).1 then (accept (ch 'l') (accept (ch 'l') fmt).2).2
  else (accept (ch 'l') fmt).2

theorem endsInside_long (fmt : List U8) :
    EndsInside (some .long) fmt ↔ EndsAfter (accept (ch 'l') fmt).2 := by
  cases fmt with
  | nil => exact iff_of_true (Option.some_ne_none _) trivial
  | cons c fmt =>
      rw [endsInside_cons, formatNext, Phase.next, accept]
      split
      · exact endsInside_last fun _ _ => rfl
      · rfl

theorem endsInside_length {phase : Phase} {fmt : List U8}
    (h : ∀ c ∈ fmt.head?, phase.next c = if c = ch 'l' then some .long else none) :
    EndsInside (some phase) fmt ↔ EndsAfter (lengthRest fmt) := by
  cases fmt with
  | nil => exact iff_of_true (Option.some_ne_none _) trivial
  | cons c fmt =>
      rw [endsInside_cons, formatNext, h c rfl, lengthRest, accept]
      by_cases hc : c = ch 'l'
      · simp only [if_pos hc, if_true]
        exact endsInside_long fmt
      · simp only [if_neg hc, Bool.false_eq_true, if_false]
        rfl

/-- A phase goes through the digits that `parse_number` reads. -/
theorem endsInside_digits (phase : Phase)
    (h : ∀ c, ch '0' ≤ c ∧ c ≤ ch '9' → phase.next c = some phase) (number : U32)
    (fmt : List U8) :
    EndsInside (some phase) fmt ↔ EndsInside (some phase) (parseNumber number fmt).2 := by
  induction fmt generalizing number with
  | nil => rfl
  | cons c fmt ih =>
      rw [parseNumber]
      split
      · next hc =>
          rw [endsInside_cons, formatNext, h c hc]
          exact ih _
      · rfl

theorem parseNumber_head (number : U32) (fmt : List U8) :
    ∀ c ∈ (parseNumber number fmt).2.head?, ¬ (ch '0' ≤ c ∧ c ≤ ch '9') := by
  induction fmt generalizing number with
  | nil => intro c hc; cases hc
  | cons d fmt ih =>
      rw [parseNumber]
      split
      · exact ih _
      · next hd =>
          intro c hc
          cases hc
          exact hd

theorem endsInside_precision (number : U32) (fmt : List U8) :
    EndsInside (some .precision) fmt ↔ EndsAfter (lengthRest (parseNumber number fmt).2) := by
  rw [endsInside_digits .precision (fun c hc => if_pos hc) number]
  exact endsInside_length fun c hc => if_neg (parseNumber_head number fmt c hc)

/-- The conversion from its width on. -/
def widthRest (fmt : List U8) : List U8 :=
  let fmt := (accept (ch '.') (parseNumber 0 fmt).2)
  lengthRest (if fmt.1 then (parseNumber 0 fmt.2).2 else fmt.2)

theorem endsInside_width (fmt : List U8) :
    EndsInside (some .width) fmt ↔ EndsAfter (widthRest fmt) := by
  rw [endsInside_digits .width (fun c hc => if_pos hc) 0]
  have hhead := parseNumber_head 0 fmt
  unfold widthRest
  cases hrest : (parseNumber 0 fmt).2 with
  | nil => exact iff_of_true (Option.some_ne_none _) trivial
  | cons c rest =>
      rw [hrest] at hhead
      have hc := hhead c rfl
      rw [accept]
      by_cases hpoint : c = ch '.'
      · simp only [if_pos hpoint, if_true]
        rw [endsInside_cons, formatNext, Phase.next, widthNext, if_neg hc,
          if_pos hpoint]
        exact endsInside_precision 0 rest
      · simp only [if_neg hpoint, Bool.false_eq_true, if_false]
        refine endsInside_length fun d hd => ?_
        cases hd
        rw [Phase.next, widthNext, if_neg hc, if_neg hpoint]

theorem parseConv_rest (fmt : List U8) :
    (parseConv fmt).2 = widthRest (if (accept (ch '-') fmt).1 then (accept (ch '-') fmt).2
      else (accept (ch '0') (accept (ch '-') fmt).2).2) := by
  simp only [parseConv, widthRest, lengthRest, apply_ite Prod.snd]

/-- A conversion, from the `%` on, ends where `parseConv` finds its last character. -/
theorem endsInside_conversion (fmt : List U8) :
    EndsInside (some .flags) fmt ↔ EndsAfter (parseConv fmt).2 := by
  rw [parseConv_rest]
  cases fmt with
  | nil => exact iff_of_true (Option.some_ne_none _) trivial
  | cons c fmt =>
      rw [endsInside_cons, formatNext, Phase.next, accept]
      by_cases hminus : c = ch '-'
      · simp only [if_pos hminus, if_true]
        exact endsInside_width fmt
      · simp only [if_neg hminus, Bool.false_eq_true, if_false]
        by_cases hzero : c = ch '0'
        · have hdigit : ch '0' ≤ c ∧ c ≤ ch '9' := by
            rw [hzero]
            decide
          rw [widthNext, if_pos hdigit, accept, if_pos hzero]
          exact endsInside_width fmt
        · rw [accept, if_neg hzero, ← endsInside_width]
          rfl

/-! ## What is left is an end of the format -/

theorem accept_suffix (c : U8) (fmt : List U8) : (accept c fmt).2 <:+ fmt := by
  cases fmt with
  | nil => exact List.suffix_refl _
  | cons d fmt =>
      rw [accept]
      split
      · exact List.suffix_cons d fmt
      · exact List.suffix_refl _

theorem parseNumber_suffix (number : U32) (fmt : List U8) : (parseNumber number fmt).2 <:+ fmt := by
  induction fmt generalizing number with
  | nil => exact List.suffix_refl _
  | cons c fmt ih =>
      rw [parseNumber]
      split
      · exact (ih _).trans (List.suffix_cons c fmt)
      · exact List.suffix_refl _

theorem lengthRest_suffix (fmt : List U8) : lengthRest fmt <:+ fmt := by
  rw [lengthRest]
  split
  · exact (accept_suffix _ _).trans (accept_suffix _ _)
  · exact accept_suffix _ _

theorem widthRest_suffix (fmt : List U8) : widthRest fmt <:+ fmt := by
  have hpoint := (accept_suffix (ch '.') (parseNumber 0 fmt).2).trans (parseNumber_suffix 0 fmt)
  refine (lengthRest_suffix _).trans ?_
  split
  · exact (parseNumber_suffix 0 _).trans hpoint
  · exact hpoint

theorem parseConv_suffix (fmt : List U8) : (parseConv fmt).2 <:+ fmt := by
  rw [parseConv_rest]
  refine (widthRest_suffix _).trans ?_
  split
  · exact accept_suffix _ _
  · exact (accept_suffix _ _).trans (accept_suffix _ _)

/-! ## Runs -/

section Runs

variable {cstr : U32 → List U8} {out : PrintfOutput σ} {args : Stream' U32}

/-- `vformat` comes back, after some number of turns, and has not read behind the
block. -/
def Returns (cstr : U32 → List U8) (out : PrintfOutput σ) (block : List U8)
    (args : Stream' U32) : Prop :=
  ∃ n out', vformatRead cstr n out block args = .done out'

/-- One turn. -/
theorem returns_turn {block : List U8} :
    Returns cstr out block args ↔ ∃ n out', vformatRead cstr (n + 1) out block args = .done out' := by
  constructor
  · rintro ⟨n, out', h⟩
    cases n with
    | zero => cases h
    | succ n => exact ⟨n, out', h⟩
  · rintro ⟨n, out', h⟩
    exact ⟨n + 1, out', h⟩

theorem returns_nul (block : List U8) : Returns cstr out (0 :: block) args :=
  returns_turn.mpr ⟨0, out, by rw [vformatRead, if_pos rfl]⟩

theorem not_returns_nil : ¬ Returns cstr out [] args := by
  intro h
  obtain ⟨n, out', h⟩ := returns_turn.mp h
  cases h

theorem returns_char {c : U8} (h0 : c ≠ 0) (hc : c ≠ ch '%') (block : List U8) :
    Returns cstr out (c :: block) args ↔ Returns cstr (outputChar out c) block args := by
  rw [returns_turn]
  simp only [vformatRead, if_neg h0, if_pos hc]
  rfl

/-- A conversion with its last character, which may be the NUL. -/
theorem returns_conversion {fmt rest : List U8} {c : U8}
    (h : (parseConv fmt).2 ++ [0] = c :: rest) :
    Returns cstr out (ch '%' :: (fmt ++ [0])) args ↔
      Returns cstr (convertWords cstr out (parseConv fmt).1 c args).1 rest
        (convertWords cstr out (parseConv fmt).1 c args).2 := by
  have h0 : ch '%' ≠ 0 := by decide
  rw [returns_turn]
  simp only [vformatRead, if_neg h0, ne_eq, not_true_eq_false, if_false, parseConvRead_block, h]
  rfl

/-- **`vformat` stays in its format**, and returns, unless the format ends inside of
a conversion, for any output, any arguments and any strings. -/
theorem vformat_returns_iff (cstr : U32 → List U8) (out : PrintfOutput σ) (args : Stream' U32)
    {fmt : List U8} (h : 0 ∉ fmt) :
    Returns cstr out (fmt ++ [0]) args ↔ ¬ EndsInside none fmt := by
  induction hn : fmt.length using Nat.strongRecOn generalizing fmt out args with
  | ind n ih =>
      cases fmt with
      | nil => exact iff_of_true (returns_nul []) (not_not_intro rfl)
      | cons c fmt =>
          subst hn
          have h0 : c ≠ 0 := fun hc => h (hc ▸ List.mem_cons_self)
          have hfmt : 0 ∉ fmt := fun hmem => h (List.mem_cons_of_mem _ hmem)
          rw [endsInside_cons, formatNext]
          by_cases hc : c = ch '%'
          · subst hc
            rw [if_pos rfl, endsInside_conversion]
            have hsuffix := parseConv_suffix fmt
            cases hrest : (parseConv fmt).2 with
            | nil =>
                -- the NUL is taken, and the loop goes on behind it
                rw [List.cons_append, returns_conversion (by rw [hrest]; rfl)]
                exact iff_of_false not_returns_nil (not_not_intro trivial)
            | cons d rest =>
                rw [hrest] at hsuffix
                have hrest' : rest <:+ fmt := (List.suffix_cons d rest).trans hsuffix
                rw [List.cons_append, returns_conversion (by rw [hrest]; rfl)]
                exact ih rest.length (Nat.lt_succ_of_le hrest'.length_le) _ _
                  (fun hmem => hfmt (hrest'.subset hmem)) rfl
          · rw [if_neg hc, List.cons_append, returns_char h0 hc]
            exact ih fmt.length (Nat.lt_succ_self _) _ _ hfmt rfl

theorem vformat_returns_number :
    Returns (fun _ => []) (⟨fun t c => t ++ [c], [], 0⟩ : PrintfOutput (List U8))
      (chars "%-5.3lld%%" ++ [0]) (Stream'.const 7) :=
  (vformat_returns_iff (fun _ => []) _ _ (by decide)).mpr (by decide)

/-- The loop goes on behind a lone `%`. -/
theorem vformat_lonePercent :
    ¬ ∀ (cstr : U32 → List U8) (out : PrintfOutput (List U8)) (args : Stream' U32) (fmt : List U8),
      0 ∉ fmt → Returns cstr out (fmt ++ [0]) args := by
  intro hall
  have h := hall (fun _ => []) ⟨fun t c => t ++ [c], [], 0⟩ (Stream'.const 0) (chars "%") (by decide)
  have hempty : (parseConv []).2 ++ [0] = [0] := rfl
  exact not_returns_nil ((returns_conversion hempty).mp h)

end Runs

/-! ## The values of the arguments -/

/-- The arguments are on the stack. -/
def OnStack (cstr : U32 → List U8) : List Arg → Stream' U32 → Prop
  | [], _ => True
  | .word v :: args, words => words.head = v ∧ OnStack cstr args words.tail
  | .dword v :: args, words =>
      words.tail.head ++ words.head = v ∧ OnStack cstr args words.tail.tail
  | .str s :: args, words => wordsStr cstr words = s ∧ OnStack cstr args words.tail

section OnStack

variable {cstr : U32 → List U8} {words : Stream' U32} {args args' : List Arg}

theorem OnStack.number {isSigned longLong : Bool} {v : U64} (h : OnStack cstr args words)
    (hv : vaNumber isSigned longLong args = some (v, args')) :
    (wordsNumber isSigned longLong words).1 = v ∧
      OnStack cstr args' (wordsNumber isSigned longLong words).2 := by
  match args with
  | .word w :: args =>
      cases longLong with
      | true => cases hv
      | false =>
          cases hv
          exact ⟨by rw [wordsNumber, h.1]; rfl, h.2⟩
  | .dword w :: args =>
      cases longLong with
      | true =>
          cases hv
          exact ⟨h.1, h.2⟩
      | false => cases hv
  | .str s :: args => cases hv
  | [] => cases hv

theorem OnStack.word {v : U32} (h : OnStack cstr args words)
    (hv : vaWord args = some (v, args')) : words.head = v ∧ OnStack cstr args' words.tail := by
  match args with
  | .word w :: args =>
      cases hv
      exact h
  | .dword w :: args => cases hv
  | .str s :: args => cases hv
  | [] => cases hv

theorem OnStack.str {s : Option (List U8)} (h : OnStack cstr args words)
    (hv : vaStr args = some (s, args')) :
    wordsStr cstr words = s ∧ OnStack cstr args' words.tail := by
  match args with
  | .word w :: args => cases hv
  | .dword w :: args => cases hv
  | .str s :: args =>
      cases hv
      exact h
  | [] => cases hv

/-- The words give what the values give, where the values give something. -/
def SameConversion (cstr : U32 → List U8) (values : Option (PrintfOutput σ × List Arg))
    (words : PrintfOutput σ × Stream' U32) : Prop :=
  ∀ out args, values = some (out, args) → words.1 = out ∧ OnStack cstr args words.2

theorem SameConversion.ite {values values' : Option (PrintfOutput σ × List Arg)}
    {words words' : PrintfOutput σ × Stream' U32} (p : Prop) [Decidable p]
    (h : SameConversion cstr values words) (h' : SameConversion cstr values' words') :
    SameConversion cstr (if p then values else values') (if p then words else words') := by
  split
  · exact h
  · exact h'

/-- An argument that is taken, and what is done with it. -/
theorem SameConversion.map {α : Type} {value : Option (α × List Arg)} (f : α → PrintfOutput σ)
    (word : α × Stream' U32)
    (h : ∀ v args', value = some (v, args') → word.1 = v ∧ OnStack cstr args' word.2) :
    SameConversion cstr (value.map fun a => (f a.1, a.2)) (f word.1, word.2) := by
  intro out args hmap
  obtain ⟨⟨v, rest⟩, hv, heq⟩ := Option.map_eq_some_iff.mp hmap
  cases heq
  obtain ⟨hval, hrest⟩ := h v rest hv
  exact ⟨congrArg f hval, hrest⟩

/-- A conversion of the arguments is one of the words. -/
theorem OnStack.convert (out : PrintfOutput σ) (conv : Conv) (c : U8)
    (h : OnStack cstr args words) :
    SameConversion cstr (Tomk.convert out conv c args) (convertWords cstr out conv c words) := by
  have hplain : ∀ out : PrintfOutput σ, SameConversion cstr (some (out, args)) (out, words) := by
    intro out out' args' heq
    cases heq
    exact ⟨rfl, h⟩
  have hnumber : ∀ (isSigned : Bool) (f : U64 → PrintfOutput σ),
      SameConversion cstr ((vaNumber isSigned conv.longLong args).map fun a => (f a.1, a.2))
        (f (wordsNumber isSigned conv.longLong words).1,
          (wordsNumber isSigned conv.longLong words).2) :=
    fun isSigned f => .map f _ fun v args' hv => h.number hv
  have hword := SameConversion.map (fun v : U32 => outputChar out (v.setWidth 8))
    (words.head, words.tail) fun v args' hv => h.word hv
  have hstr := SameConversion.map (fun s => prString out s conv.width conv.precision conv.left)
    (wordsStr cstr words, words.tail) fun v args' hv => h.str hv
  have huint := fun base => hnumber false fun v =>
    prUint out v base (c = ch 'x') conv.width conv.precision conv.pad conv.left
  have hint := hnumber true fun v => prInt out v conv.width conv.precision conv.pad conv.left
  exact .ite _ hword (.ite _ hstr (.ite _ hint (.ite _ (huint 10) (.ite _ (huint 16)
    (.ite _ (huint 8) (.ite _ (huint 2) (.ite _ (hplain _) (hplain _))))))))

end OnStack

end Tomk
