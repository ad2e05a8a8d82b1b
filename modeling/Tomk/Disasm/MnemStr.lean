/-
# `i80386_mnem_get_str`

Each token is printed by a call of `snprintf`, behind the text of the tokens before it, and
each call is given the size of the whole buffer.  How many characters a token
takes is known without printing it (`Token.width`); the NUL of the last call is the store that
goes furthest, and it is inside as long as the whole text is shorter than the buffer, or
there is one call only.
-/
import Tomk.Disasm.Length
import Tomk.Libc.PrintParse

namespace Tomk.Disasm

/-! ## The function -/

/-- The switch over the type of a token: the format, and its argument. -/
def Token.format (t : Token) : List U8 × List Arg :=
  match t.type with
  | .generalRegister | .controlRegister | .debugRegister | .testRegister
  | .segment | .operator | .memory => (chars "%s", [.str (t.text.map Name.text)])
  | .number => (chars "%d", [.word t.number])
  | .immediate | .relativeAddress | .absoluteAddress => (chars "0x%02X", [.word t.number])
  | .instrPrefix | .mnemonic => (chars "%s ", [.str (t.text.map Name.text)])

/-- The loop over the tokens, from a `count`: the stores. -/
def printTokens (buffer size : U32) : List Token → U32 → Option (List Store)
  | [], _ => some []
  | t :: tokens, count => do
      let (n, stores) ← vsnprintf (buffer + count) size t.format.1 t.format.2
      let rest ← printTokens buffer size tokens (count + n)
      pure (stores ++ rest)

/-- `i80386_mnem_get_str`: what it returns, and the stores. -/
def mnemGetStr (n : Nat) (mmu : Mmu) (address buffer size : U32) :
    Option (Bool × List Store) := do
  let (r, line) ← mnemGetTokens n mmu address RenderLine.empty
  if r then (printTokens buffer size line.tokens 0).map fun stores => (true, stores)
  else pure (false, [])

/-! ## How many characters -/

def textWidth (text : Option Name) : Nat := ((text.map Name.text).getD (chars "(null)")).length

/-- The sign and the decimal digits. -/
def decimalWidth (v : U32) : Nat :=
  if v.slt 0 then 1 + (printedDigits 10 (-v.signExtend 64)).length
  else (printedDigits 10 (v.signExtend 64)).length

/-- `0x`, and two digits at least. -/
def hexWidth (v : U32) : Nat := 2 + max 2 (printedDigits 16 (v.setWidth 64)).length

/-- How many characters a token takes. -/
def Token.width (t : Token) : Nat :=
  match t.type with
  | .generalRegister | .controlRegister | .debugRegister | .testRegister
  | .segment | .operator | .memory => textWidth t.text
  | .number => decimalWidth t.number
  | .immediate | .relativeAddress | .absoluteAddress => hexWidth t.number
  | .instrPrefix | .mnemonic => textWidth t.text + 1

def lineWidth (tokens : List Token) : Nat := (tokens.map Token.width).sum

@[simp] theorem lineWidth_nil : lineWidth [] = 0 := rfl

@[simp] theorem lineWidth_cons (t : Token) (tokens : List Token) :
    lineWidth (t :: tokens) = t.width + lineWidth tokens := rfl

theorem lineWidth_append (tokens tokens' : List Token) :
    lineWidth (tokens ++ tokens') = lineWidth tokens + lineWidth tokens' := by
  rw [lineWidth, List.map_append, List.sum_append, lineWidth, lineWidth]

theorem textWidth_bounds (text : Option Name) : 0 < textWidth text ∧ textWidth text ≤ 8 := by
  cases text with
  | none => exact ⟨by decide, by decide⟩
  | some t => exact t.named

theorem Token.width_bounds (t : Token) : 0 < t.width ∧ t.width ≤ 66 := by
  have htext := textWidth_bounds t.text
  have hten : 10 ∈ printBases := by decide
  have hhex := printedDigits_length (b := 16) (by decide) (t.number.setWidth 64)
  have hdec : 0 < decimalWidth t.number ∧ decimalWidth t.number ≤ 66 := by
    rw [decimalWidth]
    have hneg := printedDigits_length hten (-t.number.signExtend 64)
    have hpos := printedDigits_length hten (t.number.signExtend 64)
    split <;> omega
  rw [Token.width]
  split
  case h_8 => exact hdec
  all_goals first
    | omega
    | rw [hexWidth]; omega

/-- The text of a line fits the address space. -/
theorem lineWidth_le (line : RenderLine) : lineWidth line.tokens ≤ 32 * 66 := by
  have hsum : ∀ tokens : List Token, lineWidth tokens ≤ tokens.length * 66 := by
    intro tokens
    induction tokens with
    | nil => exact Nat.le_refl _
    | cons t tokens ih =>
        have ht := t.width_bounds.2
        rw [lineWidth_cons, List.length_cons]
        omega
  exact (hsum _).trans (Nat.mul_le_mul_right 66 line.fits)

/-! ## The text of a token -/

theorem digitsText_length (buffer : List U8) (n : Nat) : (digitsText buffer n).length = n := by
  induction n with
  | zero => rfl
  | succ n ih => exact congrArg (· + 1) ih

/-- How many characters a number takes, printed to the right without a precision. -/
theorem numberText_length {b : Nat} (hb : b ∈ printBases) (number : U64) (isSigned lower : Bool)
    (width : Nat) (hwidth : width ≤ 2) (pad : U8) :
    (numberText number isSigned (BitVec.ofNat 32 b) lower (BitVec.ofNat 32 width) (-1) pad false).length
      = if isSigned && number.slt 0 then max width (1 + (printedDigits b (-number)).length)
        else max width (printedDigits b number).length := by
  have hbase : ∀ b ∈ printBases, ¬ (BitVec.ofNat 32 b ≠ 2 ∧ BitVec.ofNat 32 b ≠ 8 ∧
      BitVec.ofNat 32 b ≠ 10 ∧ BitVec.ofNat 32 b ≠ 16) := by decide
  have habs : -(number + 1) + 1 = -number := by
    rw [BitVec.neg_add, BitVec.sub_add_cancel]
  have hprec : ¬ (-1 : U32) = 0 := by decide
  -- the zeros and the spaces fill up to the width, one of them with nothing
  have hfill : ∀ negative : Bool, ∀ digits ≤ 64,
      let fill := numberFill (BitVec.ofNat 32 digits) (if negative then 1 else 0)
        (BitVec.ofNat 32 width) (-1) pad
      turns fill.1 + turns fill.2 = width - digits - (if negative then 1 else 0) := by
    have hturns : ∀ width ≤ 2, ∀ negative : Bool, ∀ digits ≤ 64,
        turns (intMax (BitVec.ofNat 32 width - BitVec.ofNat 32 digits - (if negative then 1 else 0)) 0)
          = width - digits - (if negative then 1 else 0) := by decide +kernel
    have hsle : ¬ (0 : U32).sle (-1) = true := by decide
    intro negative digits hdigits
    rw [numberFill, if_neg hsle, ← hturns width hwidth negative digits hdigits]
    split
    · exact Nat.add_zero _
    · exact Nat.zero_add _
  simp only [numberText, if_neg (hbase b hb), hprec, false_and, if_false, habs,
    Bool.false_eq_true, numberDigits_printed hb, List.append_nil, digitChars, List.length_map,
    List.length_append, List.length_replicate, digitsText_length]
  cases hneg : isSigned && number.slt 0 with
  | false =>
      have hle := (printedDigits_length hb number).2
      have hsum := hfill false _ hle
      simp only [Bool.false_eq_true, if_false, List.length_nil] at hsum ⊢
      rw [turns_ofNat (by omega)]
      omega
  | true =>
      have hle := (printedDigits_length hb (-number)).2
      have hsum := hfill true _ hle
      simp only [if_true, List.length_singleton] at hsum ⊢
      rw [turns_ofNat (by omega)]
      omega

theorem stringText_length (text : Option Name) :
    (stringText (text.map Name.text) 0 (-1) false).length = textWidth text := by
  have hle := (textWidth_bounds text).2
  rw [textWidth] at hle ⊢
  have hlen : (BitVec.ofNat 32 ((text.map Name.text).getD (chars "(null)")).length).toNat
      = ((text.map Name.text).getD (chars "(null)")).length := Nat.mod_eq_of_lt (by omega)
  have hsle : ¬ (0 : U32).sle (-1) = true := by decide
  simp only [stringText, hsle, false_and, if_false, Bool.false_eq_true, hlen, List.take_length,
    List.append_nil, List.length_append, List.length_replicate]
  show 0 - _ + _ = _
  omega

theorem decimal_length (v : U32) :
    (numberText (v.signExtend 64) true 10 false 0 (-1) (ch ' ') false).length = decimalWidth v := by
  have hlen := numberText_length (b := 10) (by decide) (v.signExtend 64) true false
    0 (by decide) (ch ' ')
  have hslt : (v.signExtend 64).slt 0 = v.slt 0 := by
    rw [Bool.eq_iff_iff, BitVec.slt_iff_toInt_lt, BitVec.slt_iff_toInt_lt,
      BitVec.toInt_signExtend_of_le (by decide)]
    exact Iff.rfl
  rw [Bool.true_and, hslt, Nat.zero_max, Nat.zero_max] at hlen
  exact hlen

theorem hex_length (v : U32) :
    (numberText (v.setWidth 64) false 16 false 2 (-1) (ch '0') false).length + 2 = hexWidth v := by
  have hlen := numberText_length (b := 16) (by decide) (v.setWidth 64) false false
    2 (by decide) (ch '0')
  rw [hexWidth, Nat.add_comm 2]
  exact congrArg (· + 2) hlen

/-- **A token** prints as many characters as its width says. -/
theorem Token.format_text (t : Token) :
    ∃ text, formatText t.format.1 t.format.2 = some text ∧ text.length = t.width := by
  rw [Token.format, Token.width]
  split <;> refine ⟨_, rfl, ?_⟩
  case h_8 => exact (congrArg List.length (List.append_nil _)).trans (decimal_length t.number)
  case h_12 | h_13 =>
    rw [List.length_append, stringText_length]
    rfl
  case h_9 | h_10 | h_11 =>
    rw [← hex_length]
    exact congrArg (fun text : List U8 => text.length + 2) (List.append_nil _)
  all_goals exact (congrArg List.length (List.append_nil _)).trans (stringText_length t.text)

/-! ## The stores of a line -/

variable {buffer size : U32}

/-- **The loop**: each token stores between the end of the text before it and its own NUL,
and the NUL is stored. -/
theorem printTokens_stores (buffer size : U32) (tokens : List Token) (c : Nat)
    (hc : c + lineWidth tokens < 2 ^ 32) :
    ∃ stores, printTokens buffer size tokens (BitVec.ofNat 32 c) = some stores ∧
      (∀ st ∈ stores, size ≠ 0 ∧ ∃ before t after, tokens = before ++ t :: after ∧
        ∃ i ≤ min t.width (size.toNat - 1),
          st.addr = buffer + BitVec.ofNat 32 (c + lineWidth before + i)) ∧
      (size ≠ 0 → ∀ before t after, tokens = before ++ t :: after → ∃ st ∈ stores,
        st.addr = buffer
          + BitVec.ofNat 32 (c + lineWidth before + min t.width (size.toNat - 1))) := by
  induction tokens generalizing c with
  | nil =>
      refine ⟨[], rfl, fun st hst => absurd hst List.not_mem_nil, fun _ before t after h => ?_⟩
      exact absurd h (by simp)
  | cons t tokens ih =>
      rw [lineWidth_cons] at hc
      obtain ⟨text, htext, hwidth⟩ := t.format_text
      obtain ⟨stores, hrun, hinside, hnul⟩ :=
        vsnprintf_stores htext (by omega) (buffer + BitVec.ofNat 32 c) size
      obtain ⟨rest, hrest, hinside', hnul'⟩ := ih (c + t.width) (by omega)
      rw [hwidth] at hrun hinside hnul
      have haddr : ∀ i, buffer + BitVec.ofNat 32 c + BitVec.ofNat 32 i
          = buffer + BitVec.ofNat 32 (c + i) := fun i => by
        rw [BitVec.ofNat_add, BitVec.add_assoc]
      rw [BitVec.ofNat_add] at hrest
      refine ⟨stores ++ rest, ?_, ?_, ?_⟩
      · simp only [printTokens, hrun, Option.bind_eq_bind, Option.bind_some, hrest]
        rfl
      · intro st hst
        rcases List.mem_append.mp hst with hst | hst
        · obtain ⟨h0, i, hi, h⟩ := hinside st hst
          exact ⟨h0, [], t, tokens, rfl, i, hi, by rw [h, haddr]; rfl⟩
        · obtain ⟨h0, before, t', after, rfl, i, hi, h⟩ := hinside' st hst
          refine ⟨h0, t :: before, t', after, rfl, i, hi, ?_⟩
          rw [h, lineWidth_cons, ← Nat.add_assoc]
      · intro h0 before t' after h
        cases before with
        | nil =>
            obtain ⟨rfl, rfl⟩ := List.cons.inj h
            obtain ⟨st, hst, h⟩ := hnul h0
            exact ⟨st, List.mem_append_left _ hst, by rw [h, haddr]; rfl⟩
        | cons _ before =>
            obtain ⟨rfl, rfl⟩ := List.cons.inj h
            obtain ⟨st, hst, h⟩ := hnul' h0 before t' after rfl
            refine ⟨st, List.mem_append_right _ hst, ?_⟩
            rw [h, lineWidth_cons, ← Nat.add_assoc]

/-- The line fits the buffer, or is printed by one call. -/
def LineFits (size : U32) (tokens : List Token) : Prop :=
  size = 0 ∨ tokens.length ≤ 1 ∨ lineWidth tokens < size.toNat

instance (size : U32) (tokens : List Token) : Decidable (LineFits size tokens) :=
  inferInstanceAs (Decidable (_ ∨ _))

theorem printTokens_inside_iff {tokens : List Token} (hfits : lineWidth tokens < 2 ^ 32)
    {stores : List Store} (hrun : printTokens buffer size tokens 0 = some stores) :
    (∀ st ∈ stores, (st.addr - buffer).toNat < size.toNat) ↔ LineFits size tokens := by
  obtain ⟨stores', hrun', hinside, hnul⟩ :=
    printTokens_stores buffer size tokens 0 (by omega)
  obtain rfl := Option.some.inj (hrun.symm.trans hrun')
  have hoffset : ∀ {i : Nat}, i < 2 ^ 32 → (buffer + BitVec.ofNat 32 i - buffer).toNat = i := by
    intro i hi
    rw [BitVec.add_comm, BitVec.add_sub_cancel, BitVec.toNat_ofNat, Nat.mod_eq_of_lt hi]
  constructor
  · intro hall
    by_cases h0 : size = 0
    · exact Or.inl h0
    · rcases List.eq_nil_or_concat tokens with rfl | ⟨before, t, rfl⟩
      · exact Or.inr (Or.inl (by simp))
      · obtain ⟨st, hst, haddr⟩ := hnul h0 before t [] List.concat_eq_append
        rw [List.concat_eq_append, lineWidth_append, lineWidth_cons, lineWidth_nil] at hfits
        rw [List.concat_eq_append, LineFits, lineWidth_append, lineWidth_cons, lineWidth_nil]
        have hlt := hall st hst
        rw [haddr, hoffset (by omega)] at hlt
        cases before with
        | nil => exact Or.inr (Or.inl (by simp))
        | cons t' before =>
            -- the text before the last call has a character
            have hpos := t'.width_bounds.1
            rw [lineWidth_cons] at hlt ⊢
            exact Or.inr (Or.inr (by omega))
  · intro hline st hst
    obtain ⟨h0, before, t, after, rfl, i, hi, haddr⟩ := hinside st hst
    have hpos : size.toNat ≠ 0 := fun h => h0 (BitVec.eq_of_toNat_eq h)
    rw [lineWidth_append, lineWidth_cons] at hfits
    rw [haddr, hoffset (by omega)]
    rcases hline with h | h | h
    · exact absurd h h0
    · rw [List.length_append, List.length_cons] at h
      obtain rfl := List.eq_nil_of_length_eq_zero (l := before) (by omega)
      rw [lineWidth_nil]
      omega
    · rw [lineWidth_append, lineWidth_cons] at h
      omega

/-- **`i80386_mnem_get_str`** stores in the buffer only, exactly if there is no line,
or it fits. -/
theorem mnemGetStr_inside_iff (n : Nat) (mmu : Mmu) (address buffer size : U32) :
    (∀ r stores, mnemGetStr n mmu address buffer size = some (r, stores) →
        ∀ st ∈ stores, (st.addr - buffer).toNat < size.toNat) ↔
      ∀ line, mnemGetTokens n mmu address RenderLine.empty = some (true, line) →
        LineFits size line.tokens := by
  have hfits : ∀ line : RenderLine, lineWidth line.tokens < 2 ^ 32 := fun line =>
    Nat.lt_of_le_of_lt (lineWidth_le line) (by decide)
  constructor
  · intro hall line hline
    have hlt := hfits line
    obtain ⟨stores, hrun, _⟩ := printTokens_stores buffer size line.tokens 0 (by omega)
    refine (printTokens_inside_iff hlt hrun).mp (hall true stores ?_)
    rw [mnemGetStr, hline, Option.bind_eq_bind, Option.bind_some]
    exact congrArg (Option.map _) hrun
  · intro hall r stores hget
    rw [mnemGetStr, Option.bind_eq_bind, Option.bind_eq_some_iff] at hget
    obtain ⟨⟨ok, line⟩, hline, hget⟩ := hget
    cases ok with
    | false =>
        obtain ⟨_, rfl⟩ := Prod.mk.inj (Option.some.inj hget)
        exact fun st hst => absurd hst List.not_mem_nil
    | true =>
        obtain ⟨_, hrun, heq⟩ := Option.map_eq_some_iff.mp hget
        obtain ⟨_, rfl⟩ := Prod.mk.inj heq
        exact (printTokens_inside_iff (hfits line) hrun).mpr (hall line hline)

/-- `mov dword [ds:eax+ebx*4+0x12345678],0x12345678`, printed to the 32 bytes of an
exception handler. -/
theorem mnemGetStr_overflows :
    (mnemGetStr 15 (codeMmu [0x789884C7, 0x78123456, 0x00123456]) 0x1000 0x8000 32).map
        (fun r => (r.1, r.2.any fun st => 32 ≤ (st.addr - 0x8000).toNat)) = some (true, true) := by
  decide +kernel

end Tomk.Disasm
