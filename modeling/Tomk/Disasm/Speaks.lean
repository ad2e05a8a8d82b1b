/-
# What a handler leaves in the line

A handler that is not cut short by a fetch has added its mnemonic by its end (`Speaks`), and
what it does afterwards takes nothing out of the line again (`Keeps`).  The cases that have no
handler in a `switch` over the register field are the exception: they print
nothing, and the line is what it was (`silentRegs`).
-/
import Mathlib.Tactic.IntervalCases
import Tomk.Disasm.Plans

namespace Tomk.Disasm

open Early I386

variable {α β : Type} {mmu : Mmu} {m : Mnem}

/-! ## Lines that grow -/

/-- From every state, `x` takes nothing out of the line. -/
structure Keeps (x : Dec α) : Prop where
  grows : ∀ mmu m, Ends x mmu m True fun _ m' => m.line.Grows m'.line

/-- From every state, there is a token in the line behind `x`, unless `x` returns early. -/
structure Speaks (x : Dec α) : Prop where
  tokens : ∀ mmu m, Ends x mmu m True fun r m' => r ≠ none → m'.line.tokens ≠ []

theorem RenderLine.Grows.ne_nil {line line' : RenderLine} (h : line.Grows line')
    (hne : line.tokens ≠ []) : line'.tokens ≠ [] := by
  intro hnil
  have hprefix : line.tokens <+: line'.tokens := h
  rw [hnil, List.prefix_nil] at hprefix
  exact hne hprefix

theorem Fetches.grows {x : Dec α} {p : List Nat} (h : Fetches mmu x m p) :
    Ends x mmu m True fun _ m' => m.line.Grows m'.line :=
  h.mono (fun _ => trivial) fun _ _ h => h.2.2.1

theorem keeps_of_fetches {x : Dec α} {p : Mmu → Mnem → List Nat}
    (h : ∀ mmu m, Fetches mmu x m (p mmu m)) : Keeps x :=
  ⟨fun mmu m => (h mmu m).grows⟩

theorem Quiet.keeps {x : Dec α} (h : Quiet x) : Keeps x := keeps_of_fetches h.fetches

variable {x : Dec α} {f : α → Dec β}

theorem Keeps.bind (hx : Keeps x) (hf : ∀ a, Keeps (f a)) : Keeps (x >>= f) :=
  ⟨fun mmu m => (hx.grows mmu m).bind (fun _ h => h) fun a m' h =>
    ((hf a).grows mmu m').mono id fun _ _ h' => h.trans h'⟩

theorem keeps_state_bind {f : Mnem → Dec β} (h : ∀ m, Keeps (f m)) : Keeps (state >>= f) :=
  ⟨fun mmu m => (h m).grows mmu m⟩

theorem keeps_ite {c : Prop} [Decidable c] {x y : Dec α} (hx : Keeps x) (hy : Keeps y) :
    Keeps (if c then x else y) := by
  split
  · exact hx
  · exact hy

theorem Speaks.bind (hx : Speaks x) (hf : ∀ a, Keeps (f a)) : Speaks (x >>= f) :=
  ⟨fun mmu m => (hx.tokens mmu m).bind (fun _ _ hr => absurd rfl hr) fun a m' h =>
    ((hf a).grows mmu m').mono id fun _ _ hgrows _ => hgrows.ne_nil (h nofun)⟩

theorem Speaks.then (hx : Speaks x) (hf : ∀ a, Quiet (f a)) : Speaks (x >>= f) :=
  hx.bind fun a => (hf a).keeps

/-- Whatever comes before it, the second part speaks if it is come to. -/
theorem speaks_bind (hf : ∀ a, Speaks (f a)) : Speaks (x >>= f) := by
  refine ⟨fun mmu m => ?_⟩
  have hx : Ends x mmu m True fun _ _ => True := by
    rw [Ends]
    cases x mmu m <;> trivial
  exact hx.bind (fun _ _ hr => absurd rfl hr) fun a m' _ => (hf a).tokens mmu m'

theorem speaks_state_bind {f : Mnem → Dec β} (h : ∀ m, Speaks (f m)) : Speaks (state >>= f) :=
  ⟨fun mmu m => (h m).tokens mmu m⟩

theorem RenderLine.tokens_add_ne_nil (line : RenderLine) (t : Token) : (line.add t).tokens ≠ [] := by
  intro hnil
  rw [RenderLine.add] at hnil
  split at hnil
  · exact List.append_ne_nil_of_right_ne_nil _ (List.cons_ne_nil _ _) hnil
  · next hfull => exact hfull (by rw [hnil]; exact (by decide : 0 < maxTokens))

theorem speaks_token {type : TokenType} {text : Option Name} {number : U32} {size : Nat} :
    Speaks (addToken type text number size) :=
  ⟨fun _ m _ => m.line.tokens_add_ne_nil _⟩

/-! ## The operand of the ModR/M byte -/

theorem keeps_modrmGetToken (names : List Name) (size : Nat) : Keeps (modrmGetToken names size) :=
  keeps_of_fetches (fetches_modrmGetToken names size)

theorem keeps_modrmGetTokenV : Keeps modrmGetTokenV := keeps_of_fetches fetches_modrmGetTokenV

theorem keeps_modrmGetTokenW : Keeps modrmGetTokenW := keeps_of_fetches fetches_modrmGetTokenW

theorem keeps_doubleShiftOperands : Keeps doubleShiftOperands :=
  keeps_of_fetches fetches_doubleShiftOperands

/-! ## Handlers without a ModR/M byte -/

theorem speaks_mnemonic (text : Name) : Speaks (mnemonic text) := speaks_token

theorem speaks_opcodeReg (text : Name) : Speaks (opcodeReg text) :=
  speaks_token.then fun _ => quiet_state_bind fun _ => quiet_regV _

theorem speaks_opcodeSeg (text : Name) : Speaks (opcodeSeg text) :=
  speaks_token.then fun _ => quiet_state_bind fun _ => quiet_token

theorem speaks_opcodeAccumImm (text : Name) : Speaks (opcodeAccumImm text) :=
  speaks_bind fun _ => speaks_token.then fun _ => (quiet_regW 0).bind fun _ =>
    quiet_token.bind fun _ => quiet_immediateW _

theorem speaks_opcodeAdjust (text : Name) : Speaks (opcodeAdjust text) :=
  speaks_bind fun _ => speaks_token.then fun _ => quiet_token

theorem speaks_opcodeLoop (text : Name) : Speaks (opcodeLoop text) :=
  speaks_bind fun _ => speaks_token.then fun _ => quiet_token

theorem speaks_pushImm : Speaks pushImm :=
  speaks_token.bind fun _ => (keeps_of_fetches fetches_fetchS).bind fun _ =>
    (quiet_immediateV _).keeps

theorem speaks_enter : Speaks enter :=
  speaks_bind fun _ => speaks_bind fun _ => speaks_token.then fun _ =>
    quiet_token.bind fun _ => quiet_token.bind fun _ => quiet_token

theorem speaks_xchgAccumReg : Speaks xchgAccumReg :=
  speaks_token.then fun _ => quiet_state_bind fun _ => (quiet_regV _).bind fun _ =>
    quiet_token.bind fun _ => quiet_regV 0

theorem speaks_jumpConditionToken : Speaks jumpConditionToken := speaks_state_bind fun _ => speaks_token

theorem speaks_jccShort : Speaks jccShort :=
  speaks_bind fun _ => speaks_jumpConditionToken.then fun _ => quiet_token

theorem speaks_jccLong : Speaks jccLong :=
  speaks_bind fun _ => speaks_state_bind fun _ => speaks_jumpConditionToken.then fun _ => quiet_token

theorem speaks_jmpIntraDirect : Speaks jmpIntraDirect :=
  speaks_bind fun _ => speaks_state_bind fun _ => speaks_token.then fun _ => quiet_token

theorem speaks_opcodeFar (text : Name) : Speaks (opcodeFar text) :=
  speaks_token.bind fun _ => (keeps_of_fetches fetches_fetchV).bind fun _ =>
    (keeps_of_fetches fetches_fetchWord).bind fun _ =>
      (quiet_token.bind fun _ => quiet_token.bind fun _ => quiet_immediateV _).keeps

theorem speaks_jmpIntraDirectShort : Speaks jmpIntraDirectShort :=
  speaks_token.bind fun _ => (keeps_of_fetches fetches_fetchShort).bind fun _ => quiet_token.keeps

theorem speaks_callIntraDirect : Speaks callIntraDirect :=
  speaks_token.bind fun _ => (keeps_of_fetches fetches_fetchCall).bind fun _ =>
    keeps_state_bind fun _ => quiet_token.keeps

theorem speaks_mnemonicV (text32 text16 : Name) : Speaks (mnemonicV text32 text16) :=
  speaks_state_bind fun _ => speaks_token

theorem speaks_retAddImm (text32 text16 : Name) : Speaks (retAddImm text32 text16) :=
  speaks_bind fun _ => (speaks_mnemonicV ..).then fun _ => quiet_token

theorem speaks_movRegImm : Speaks movRegImm :=
  speaks_token.bind fun _ => (keeps_of_fetches fetches_fetchWreg).bind fun _ =>
    ((quiet_state_bind fun _ => quiet_ite (quiet_regV _) quiet_token).bind fun _ =>
      quiet_token.bind fun _ => quiet_state_bind fun _ => quiet_token).keeps

theorem speaks_movAccumMem : Speaks movAccumMem :=
  speaks_bind fun _ => speaks_token.then fun _ => quiet_state_bind fun _ => quiet_ite
    ((quiet_memOffset _).bind fun _ => quiet_token.bind fun _ => quiet_regW 0)
    ((quiet_regW 0).bind fun _ => quiet_token.bind fun _ => quiet_memOffset _)

theorem speaks_stringToken (textD textW textB : Name) : Speaks (stringToken textD textW textB) :=
  speaks_state_bind fun _ => speaks_token

theorem speaks_string (showDs : Bool) (textZ textNz textD textW textB : Name) :
    Speaks (do segPrefixToken showDs; repToken textZ textNz; stringToken textD textW textB) :=
  speaks_bind fun _ => speaks_bind fun _ => speaks_stringToken ..

theorem speaks_scas : Speaks scas := speaks_bind fun _ => speaks_stringToken ..

theorem speaks_xlat : Speaks xlat := speaks_bind fun _ => speaks_token

theorem speaks_inAccumImm : Speaks inAccumImm :=
  speaks_bind fun _ => speaks_token.then fun _ => (quiet_regW 0).bind fun _ =>
    quiet_token.bind fun _ => quiet_token

theorem speaks_outAccumImm : Speaks outAccumImm :=
  speaks_bind fun _ => speaks_token.then fun _ => quiet_token.bind fun _ =>
    quiet_token.bind fun _ => quiet_regW 0

theorem speaks_inAccumDx : Speaks inAccumDx :=
  speaks_token.then fun _ => (quiet_regW 0).bind fun _ => quiet_token.bind fun _ => quiet_token

theorem speaks_outAccumDx : Speaks outAccumDx :=
  speaks_token.then fun _ => quiet_token.bind fun _ => quiet_token.bind fun _ => quiet_regW 0

theorem speaks_int : Speaks int_ := speaks_bind fun _ => speaks_token.then fun _ => quiet_token

theorem speaks_doubleShiftCl (text : Name) : Speaks (doubleShiftCl text) :=
  speaks_token.bind fun _ => keeps_doubleShiftOperands.bind fun _ =>
    (quiet_token.bind fun _ => quiet_token).keeps

theorem speaks_imulRegRm : Speaks imulRegRm :=
  speaks_token.bind fun _ => keeps_state_bind fun _ => (quiet_regV _).keeps.bind fun _ =>
    quiet_token.keeps.bind fun _ => keeps_modrmGetTokenV

/-! ## Handlers with a ModR/M byte -/

theorem speaks_opcodeRmReg (text : Name) : Speaks (opcodeRmReg text) :=
  speaks_bind fun _ => speaks_bind fun _ => speaks_token.bind fun _ => keeps_state_bind fun _ =>
    keeps_ite
      (keeps_modrmGetTokenW.bind fun _ => (quiet_token.bind fun _ => quiet_regW _).keeps)
      ((quiet_regW _).keeps.bind fun _ => quiet_token.keeps.bind fun _ => keeps_modrmGetTokenW)

theorem speaks_opcodeRegRm (text : Name) : Speaks (opcodeRegRm text) :=
  speaks_bind fun _ => speaks_token.bind fun _ => keeps_state_bind fun _ =>
    (quiet_regV _).keeps.bind fun _ => quiet_token.keeps.bind fun _ => keeps_modrmGetTokenV

theorem speaks_opcodeBit (text : Name) : Speaks (opcodeBit text) :=
  speaks_bind fun _ => speaks_token.bind fun _ => keeps_modrmGetTokenV.bind fun _ =>
    (quiet_state_bind fun _ => quiet_regV _).keeps

theorem speaks_opcodeMovSpecial (type : TokenType) (names : List Name) :
    Speaks (opcodeMovSpecial type names) :=
  speaks_bind fun _ => speaks_token.then fun _ => quiet_state_bind fun _ => quiet_ite
    (quiet_token.bind fun _ => quiet_token.bind fun _ => quiet_token)
    (quiet_token.bind fun _ => quiet_token.bind fun _ => quiet_token)

theorem speaks_opcodeMovx (text : Name) : Speaks (opcodeMovx text) :=
  speaks_bind fun _ => speaks_token.bind fun _ => keeps_state_bind fun _ =>
    (quiet_regV _).keeps.bind fun _ => quiet_token.keeps.bind fun _ =>
      keeps_ite (keeps_modrmGetToken ..) (keeps_modrmGetToken ..)

theorem speaks_opcodeRm (text : Name) : Speaks (opcodeRm text) :=
  speaks_token.bind fun _ => keeps_modrmGetTokenW

theorem speaks_opcodeRmV (text : Name) : Speaks (opcodeRmV text) :=
  speaks_token.bind fun _ => keeps_modrmGetTokenV

theorem speaks_popRm : Speaks popRm := speaks_bind fun _ => speaks_opcodeRmV _

theorem speaks_xchgRmReg : Speaks xchgRmReg :=
  speaks_bind fun _ => speaks_token.bind fun _ => keeps_state_bind fun _ =>
    (quiet_regW _).keeps.bind fun _ => quiet_token.keeps.bind fun _ => keeps_modrmGetTokenW

theorem speaks_doubleShiftImm (text : Name) : Speaks (doubleShiftImm text) :=
  speaks_bind fun _ => speaks_token.bind fun _ => keeps_doubleShiftOperands.bind fun _ =>
    quiet_token.keeps.bind fun _ => (keeps_of_fetches fetches_fetchByteZx).bind fun _ =>
      quiet_token.keeps

theorem speaks_movRmImm : Speaks movRmImm :=
  speaks_bind fun _ => speaks_token.bind fun _ => (keeps_modrmGetToken ..).bind fun _ =>
    quiet_token.keeps.bind fun _ => (keeps_of_fetches fetches_fetchW).bind fun _ =>
      (quiet_immediateW _).keeps

theorem speaks_movRmReg : Speaks movRmReg :=
  speaks_bind fun _ => speaks_token.bind fun _ => keeps_state_bind fun _ => keeps_ite
    ((quiet_regW _).keeps.bind fun _ => quiet_token.keeps.bind fun _ => keeps_modrmGetToken ..)
    ((keeps_modrmGetToken ..).bind fun _ => (quiet_token.bind fun _ => quiet_regW _).keeps)

theorem speaks_movSeg : Speaks movSeg :=
  speaks_bind fun _ => speaks_state_bind fun _ => speaks_token.bind fun _ => keeps_ite
    (quiet_token.keeps.bind fun _ => quiet_token.keeps.bind fun _ => keeps_modrmGetToken ..)
    ((keeps_modrmGetToken ..).bind fun _ => (quiet_token.bind fun _ => quiet_token).keeps)

theorem speaks_imulRegRmImm : Speaks imulRegRmImm :=
  speaks_bind fun _ => speaks_bind fun _ => speaks_token.bind fun _ => keeps_state_bind fun _ =>
    (quiet_regV _).keeps.bind fun _ => quiet_token.keeps.bind fun _ =>
      keeps_modrmGetTokenV.bind fun _ => (quiet_token.bind fun _ => quiet_immediateV _).keeps

theorem speaks_esc : Speaks esc :=
  speaks_bind fun _ => speaks_token.bind fun _ => keeps_modrmGetToken ..

/-! ## Groups -/

theorem speaks_opcode80 (text : Name) : Speaks (opcode80 text) :=
  speaks_bind fun _ => speaks_token.bind fun _ => keeps_modrmGetTokenW.bind fun _ =>
    (quiet_token.bind fun _ => quiet_immediateW _).keeps

theorem speaks_opcodeShiftRmCl (text : Name) : Speaks (opcodeShiftRmCl text) :=
  speaks_token.bind fun _ => keeps_modrmGetTokenW.bind fun _ => (quiet_token.bind fun _ =>
    quiet_state_bind fun _ => quiet_ite quiet_token quiet_token).keeps

theorem speaks_opcodeShiftRmImm (text : Name) : Speaks (opcodeShiftRmImm text) :=
  speaks_bind fun _ => speaks_token.bind fun _ => keeps_modrmGetTokenW.bind fun _ =>
    (quiet_token.bind fun _ => quiet_token).keeps

theorem speaks_testRmImm : Speaks testRmImm :=
  speaks_token.bind fun _ => (keeps_of_fetches fetches_fetchW).bind fun _ =>
    keeps_modrmGetTokenW.bind fun _ => (quiet_token.bind fun _ => quiet_immediateW _).keeps

theorem speaks_callInterIndirect : Speaks callInterIndirect :=
  speaks_state_bind fun _ => speaks_token.bind fun _ => quiet_token.keeps.bind fun _ =>
    quiet_token.keeps.bind fun _ => keeps_modrmGetTokenV

theorem speaks_jmpInterIndirect : Speaks jmpInterIndirect :=
  speaks_state_bind fun _ => speaks_token.bind fun _ => quiet_token.keeps.bind fun _ =>
    quiet_token.keeps.bind fun _ => keeps_modrmGetTokenV

theorem speaks_opcodeTable (text : Name) : Speaks (opcodeTable text) :=
  speaks_token.bind fun _ => keeps_of_fetches fun mmu m => (fetches_getModrmToken mmu m).call

theorem speaks_byReg {cases : List (Dec Unit)} (h : ∀ r < 8, Speaks (cases.getD r (pure ()))) :
    Speaks (byReg cases) :=
  speaks_state_bind fun m => h m.reg (reg_lt m)

theorem speaks_decodeOpcode80 : Speaks decodeOpcode80 := by
  refine speaks_bind fun _ => speaks_byReg fun r hr => ?_
  interval_cases r
  all_goals exact speaks_opcode80 _

theorem speaks_decodeOpcodeC0 : Speaks decodeOpcodeC0 := by
  refine speaks_bind fun _ => speaks_byReg fun r hr => ?_
  interval_cases r
  all_goals exact speaks_opcodeShiftRmImm _

theorem speaks_decodeOpcodeD0 : Speaks decodeOpcodeD0 := by
  refine speaks_bind fun _ => speaks_byReg fun r hr => ?_
  interval_cases r
  all_goals exact speaks_opcodeShiftRmCl _

/-! ## Groups with cases left out -/

/-- The values of the register field that have no case, for the opcodes with such values. -/
def silentRegs (escape : Bool) (op : Nat) : List Nat :=
  if escape then if op = 0x00 then [6, 7] else if op = 0x01 then [5, 7] else []
  else if op = 0xF6 ∨ op = 0xF7 then [1]
  else if op = 0xFE then [2, 3, 4, 5, 6, 7]
  else if op = 0xFF then [7]
  else []

/-- Unless `x` returns early, there is a token in the line behind it, or there was none before
it and it is `silent`. -/
def Voices (mmu : Mmu) (x : Dec Unit) (m : Mnem) (silent : Prop) : Prop :=
  Ends x mmu m True fun r m' =>
    r ≠ none → (m'.line.tokens ≠ [] ↔ m.line.tokens ≠ [] ∨ ¬ silent)

theorem Speaks.voices {x : Dec Unit} {silent : Prop} (h : Speaks x) (hs : ¬ silent) :
    Voices mmu x m silent :=
  (h.tokens mmu m).mono id fun _ _ h hr => iff_of_true (h hr) (Or.inr hs)

theorem voices_pure {silent : Prop} (hs : silent) : Voices mmu (pure ()) m silent :=
  ends_pure _ fun _ => ⟨Or.inl, fun h => h.resolve_right fun hno => hno hs⟩

theorem ends_fetchByte_bind {f : U8 → Dec α} {Q : Option α → Mnem → Prop} (hret : Q none m)
    (h : ∀ v, loadByte m.eip mmu = some v →
      Ends (f v) mmu { m with counter := m.counter + 1 } True Q) :
    Ends (fetchByte >>= f) mmu m True Q := by
  rw [Ends, bind_run, fetchByte, fetch_run]
  cases pgVirt2phys mmu m.eip with
  | none => trivial
  | some phys =>
      rw [Option.bind_some]
      by_cases h0 : phys = 0
      · rw [if_pos h0]
        exact hret
      · rw [if_neg h0]
        cases hload : loadByte m.eip mmu with
        | none => trivial
        | some v => exact h v hload

/-- The ModR/M byte adds nothing to the line. -/
theorem ends_fetchModrm (mmu : Mmu) (m : Mnem) : Ends fetchModrm mmu m True fun r m' =>
    m'.line = m.line ∧ (r ≠ none → m'.modrm = byteAt mmu m 0) := by
  refine ends_fetchByte_bind ⟨rfl, absurd rfl⟩ fun v hv => ?_
  have hmodrm := byteAt_of_load hv
  show Ends sibCheck mmu { m with counter := m.counter + 1, modrm := v } True _
  refine ends_state_bind (ends_ite (fun _ => ?_) fun _ => ends_pure _ ⟨rfl, fun _ => hmodrm.symm⟩)
  exact ends_fetchByte_bind ⟨rfl, absurd rfl⟩ fun sib _ => ⟨rfl, fun _ => hmodrm.symm⟩

/-- **A group**, some of whose cases are left out. -/
theorem voices_group {cases : List (Dec Unit)} {regs : List Nat}
    (h : ∀ r < 8, r ∈ regs ∧ cases.getD r (pure ()) = pure () ∨
      r ∉ regs ∧ Speaks (cases.getD r (pure ()))) :
    Voices mmu (do fetchModrm; byReg cases) m (mid3 (byteAt mmu m 0) ∈ regs) := by
  refine (ends_fetchModrm mmu m).bind (fun _ _ hr => absurd rfl hr) fun _ m1 h1 => ?_
  have hreg : m1.reg = mid3 (byteAt mmu m 0) := congrArg mid3 (h1.2 nofun)
  rw [← h1.1, ← hreg]
  refine ends_state_bind ?_
  rcases h m1.reg (reg_lt m1) with ⟨hmem, hcase⟩ | ⟨hmem, hcase⟩
  · rw [hcase]
    exact voices_pure hmem
  · exact hcase.voices hmem

theorem voices_decodeOpcodeF6 :
    Voices mmu decodeOpcodeF6 m (mid3 (byteAt mmu m 0) ∈ silentRegs false 0xF6) := by
  refine voices_group fun r hr => ?_
  interval_cases r
  · exact .inr ⟨by decide, speaks_testRmImm⟩
  · exact .inl ⟨by decide, rfl⟩
  all_goals exact .inr ⟨by decide, speaks_opcodeRm _⟩

theorem voices_decodeOpcodeFe :
    Voices mmu decodeOpcodeFe m (mid3 (byteAt mmu m 0) ∈ silentRegs false 0xFE) := by
  refine voices_group fun r hr => ?_
  interval_cases r
  iterate 2 exact .inr ⟨by decide, speaks_opcodeRm _⟩
  all_goals exact .inl ⟨by decide, rfl⟩

theorem voices_decodeOpcodeFf :
    Voices mmu decodeOpcodeFf m (mid3 (byteAt mmu m 0) ∈ silentRegs false 0xFF) := by
  refine voices_group fun r hr => ?_
  interval_cases r
  iterate 2 exact .inr ⟨by decide, speaks_opcodeRm _⟩
  · exact .inr ⟨by decide, speaks_opcodeRmV _⟩
  · exact .inr ⟨by decide, speaks_callInterIndirect⟩
  · exact .inr ⟨by decide, speaks_opcodeRmV _⟩
  · exact .inr ⟨by decide, speaks_jmpInterIndirect⟩
  · exact .inr ⟨by decide, speaks_opcodeRmV _⟩
  · exact .inl ⟨by decide, rfl⟩

theorem voices_decodeOpcode0f00 :
    Voices mmu decodeOpcode0f00 m (mid3 (byteAt mmu m 0) ∈ silentRegs true 0x00) := by
  refine voices_group fun r hr => ?_
  interval_cases r
  · exact .inr ⟨by decide, speaks_opcodeTable _⟩
  · exact .inr ⟨by decide, speaks_mnemonic _⟩
  · exact .inr ⟨by decide, speaks_opcodeTable _⟩
  iterate 3 exact .inr ⟨by decide, speaks_mnemonic _⟩
  all_goals exact .inl ⟨by decide, rfl⟩

theorem voices_decodeOpcode0f01 :
    Voices mmu decodeOpcode0f01 m (mid3 (byteAt mmu m 0) ∈ silentRegs true 0x01) := by
  refine voices_group fun r hr => ?_
  interval_cases r
  iterate 4 exact .inr ⟨by decide, speaks_opcodeTable _⟩
  · exact .inr ⟨by decide, speaks_mnemonic _⟩
  · exact .inl ⟨by decide, rfl⟩
  · exact .inr ⟨by decide, speaks_mnemonic _⟩
  · exact .inl ⟨by decide, rfl⟩

end Tomk.Disasm
