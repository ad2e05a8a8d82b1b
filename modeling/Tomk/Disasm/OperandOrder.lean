/-
# The order of the operands

The eight arithmetic instructions between a register and an operand of the ModR/M byte go
through `opcode_rm_reg`, and `mov` through `mov_rm_reg`.  The two encode their direction
with the same bit, and print it the other way round; besides, the first adds its mnemonic
twice.  What is left in the line begins with two mnemonics in every run that comes past the
ModR/M byte, so that no line of these instructions is as it should be.
-/
import Tomk.Disasm.Rendered

namespace Tomk.Disasm

open Early I386

variable {mmu : Mmu} {addr : U32} {ins : Instruction} {m : Mnem} {α : Type} {p : List Nat}

/-! ## Whole lines of the two printers -/

/-- What `opcode_rm_reg` prints behind the ModR/M byte: the operand is first where the
register is the destination. -/
theorem rmLine_opcodeRmReg (text : Name) (mmu : Mmu) (m : Mnem) :
    RmLine mmu (do
        mnemonic text
        mnemonic text
        let m ← state
        if m.d then do
          modrmGetTokenW
          comma
          regW m.reg
        else do
          regW m.reg
          comma
          modrmGetTokenW) m m.sizeW
      (mnemonicToken text :: mnemonicToken text ::
        if m.d then [] else [regToken m.sizeW m.reg, commaToken])
      (if m.d then [commaToken, regToken m.sizeW m.reg] else []) := by
  refine RmLine.before ?_ (emits_mnemonic text)
  refine RmLine.before ?_ (emits_mnemonic text)
  refine rmLine_state_bind fun line => ?_
  rw [show Mnem.d { m with line := line } = m.d from rfl]
  cases m.d with
  | true => exact (rmLine_modrmGetTokenW mmu m).behind fun _ => emits_comma.seq (emits_regW m.reg)
  | false => exact ((rmLine_modrmGetTokenW mmu m).before emits_comma).before (emits_regW m.reg)

/-- What `mov_rm_reg` prints: the register is first where it is the destination. -/
theorem rmLine_movRmReg (text : Name) (mmu : Mmu) (m : Mnem) :
    RmLine mmu (do
        mnemonic text
        let m ← state
        if m.d then do
          regW m.reg
          comma
          modrmGetToken32
        else do
          modrmGetToken32
          comma
          regW m.reg) m 4
      (mnemonicToken text :: if m.d then [regToken m.sizeW m.reg, commaToken] else [])
      (if m.d then [] else [commaToken, regToken m.sizeW m.reg]) := by
  refine RmLine.before ?_ (emits_mnemonic text)
  refine rmLine_state_bind fun line => ?_
  rw [show Mnem.d { m with line := line } = m.d from rfl]
  cases m.d with
  | true => exact ((rmLine_modrmGetToken 4 mmu m).before emits_comma).before (emits_regW m.reg)
  | false => exact (rmLine_modrmGetToken 4 mmu m).behind fun _ => emits_comma.seq (emits_regW m.reg)

/-! ## Every run -/

/-- **The line of `opcode_rm_reg`** is what it was, or begins with the mnemonic twice. -/
theorem ends_opcodeRmReg (text : Name) (mmu : Mmu) (m : Mnem) :
    Ends (opcodeRmReg text) mmu m True fun _ m' => m'.line = m.line ∨
      (m.line.addAll [mnemonicToken text, mnemonicToken text]).Grows m'.line := by
  have hmnemonic : ∀ m : Mnem, Ends (mnemonic text) mmu m True fun r m' =>
      r = some () ∧ m'.line = m.line.add (mnemonicToken text) := fun m => ⟨rfl, rfl⟩
  have hrest : ∀ m : Mnem, Fetches mmu (do
      let m ← state
      if m.d then do
        modrmGetTokenW
        comma
        regW m.reg
      else do
        regW m.reg
        comma
        modrmGetTokenW) m m.disp := fun m =>
    fetches_state_bind <| fetches_ite
      (fun _ => (fetches_modrmGetTokenW ..).then fun _ => quiet_token.bind fun _ => quiet_regW _)
      fun _ => (quiet_regW _).seq fun _ _ _ => quiet_token.seq fun _ _ _ => fetches_modrmGetTokenW ..
  refine (ends_fetchModrm mmu m).bind (fun _ h => Or.inl h.1) fun _ m1 hline => ?_
  refine (hmnemonic m1).bind (fun _ h => (Option.some_ne_none () h.1.symm).elim) fun _ m2 h2 => ?_
  refine (hmnemonic m2).bind (fun _ h => (Option.some_ne_none () h.1.symm).elim) fun _ m3 h3 => ?_
  refine (hrest m3).grows.mono id fun r m' hgrows => Or.inr ?_
  have hadded : m3.line = m.line.addAll [mnemonicToken text, mnemonicToken text] := by
    rw [h3.2, h2.2, hline.1]
    rfl
  exact hadded ▸ hgrows

/-! ## The order -/

def isMnemonic (t : Token) : Bool := t.type = .mnemonic

/-- The forms with a register and an operand: 00 to 03, 08 to 0B and so on up to 3B. -/
def IsAluRm (ins : Instruction) : Prop :=
  ins.escape = false ∧ ins.opcode.toNat < 0x40 ∧ ins.opcode.toNat % 8 < 4

instance (ins : Instruction) : Decidable (IsAluRm ins) := inferInstanceAs (Decidable (_ ∧ _))

def aluText (ins : Instruction) : String :=
  ["add", "or", "adc", "sbb", "and", "sub", "xor", "cmp"].getD (ins.opcode.toNat / 8) ""

/-- The operand of the ModR/M byte: a register, or something in brackets. -/
def IsRmOperand (ins : Instruction) (toks : List Token) : Prop :=
  if high2 ins.modrm = 0b11 then toks = [regToken (operandWidth ins) (low3 ins.modrm)]
  else ∃ seg inner, toks = openToken :: seg :: colonToken :: (inner ++ [closeToken])

/-- One mnemonic, the destination, a comma and the source; the register is the destination if
bit 1 of the opcode is set. -/
structure OperandOrder (ins : Instruction) (toks : List Token) : Prop where
  once : (toks.filter isMnemonic).map (fun t => t.text.map (·.text)) = [some (chars (aluText ins))]
  order : ∃ mn dst src, toks = lockTokens ins.prefixes ++ mn :: (dst ++ commaToken :: src) ∧
    if ins.opcode &&& 0x2 ≠ 0 then
      dst = [regToken (operandWidth ins) (mid3 ins.modrm)] ∧ IsRmOperand ins src
    else IsRmOperand ins dst ∧ src = [regToken (operandWidth ins) (mid3 ins.modrm)]

theorem handles_opcodeRmReg (h : IsAluRm ins) : ∃ text, Handles ins (opcodeRmReg text) := by
  obtain ⟨he, hlt, hrow⟩ := h
  obtain h | h | h | h | h | h | h | h : ins.opcode.toNat / 8 = 0 ∨ ins.opcode.toNat / 8 = 1 ∨
      ins.opcode.toNat / 8 = 2 ∨ ins.opcode.toNat / 8 = 3 ∨ ins.opcode.toNat / 8 = 4 ∨
      ins.opcode.toNat / 8 = 5 ∨ ins.opcode.toNat / 8 = 6 ∨ ins.opcode.toNat / 8 = 7 := by omega
  · exact ⟨_, handles_of_mem he 0x00 0x03 addRmReg (by simp [opcodes]) (by omega) (by omega)⟩
  · exact ⟨_, handles_of_mem he 0x08 0x0B orRmReg (by simp [opcodes]) (by omega) (by omega)⟩
  · exact ⟨_, handles_of_mem he 0x10 0x13 adcRmReg (by simp [opcodes]) (by omega) (by omega)⟩
  · exact ⟨_, handles_of_mem he 0x18 0x1B sbbRmReg (by simp [opcodes]) (by omega) (by omega)⟩
  · exact ⟨_, handles_of_mem he 0x20 0x23 andRmReg (by simp [opcodes]) (by omega) (by omega)⟩
  · exact ⟨_, handles_of_mem he 0x28 0x2B subRmReg (by simp [opcodes]) (by omega) (by omega)⟩
  · exact ⟨_, handles_of_mem he 0x30 0x33 xorRmReg (by simp [opcodes]) (by omega) (by omega)⟩
  · exact ⟨_, handles_of_mem he 0x38 0x3B cmpRmReg (by simp [opcodes]) (by omega) (by omega)⟩

theorem lockTokens_mnemonic (l : List U8) : (lockTokens l).filter isMnemonic = [] :=
  List.filter_eq_nil_iff.mpr fun t ht => by
    rw [mem_lockTokens ht]
    decide

/-- There is no mnemonic in the line, or there are two. -/
theorem length_mnemonics {toks : List Token} {text : Name} (h : toks = lockTokens ins.prefixes ∨
    lockTokens ins.prefixes ++ [mnemonicToken text, mnemonicToken text] <+: toks) :
    (toks.filter isMnemonic).length ≠ 1 := by
  rcases h with rfl | ⟨rest, rfl⟩
  · rw [lockTokens_mnemonic]
    decide
  · have hmn : isMnemonic (mnemonicToken text) = true := rfl
    rw [List.filter_append, List.filter_append, lockTokens_mnemonic, List.filter_cons_of_pos hmn,
      List.filter_cons_of_pos hmn, List.length_append, List.nil_append, List.length_cons,
      List.length_cons]
    omega

/-- **No arithmetic instruction** between a register and an operand is printed with one mnemonic and the
destination before the source. -/
theorem mnemDecode_alu_order (ins : Instruction) (halu : IsAluRm ins) (mmu : Mmu) (addr : U32)
    (hlies : Lies mmu addr ins.bytes) (n : Nat) (hn : ins.prefixes.length < n) (m0 : Mnem) :
    ¬ Renders mmu addr n m0 (OperandOrder ins) := by
  rintro ⟨r, m', hrun', horder⟩
  obtain ⟨text, hx⟩ := handles_opcodeRmReg halu
  obtain ⟨m, hm, -, hrun⟩ := mnemDecode_handler hlies hn m0 hx
  rw [hrun] at hrun'
  obtain ⟨⟨r1, m1⟩, hx1, heq⟩ := Option.map_eq_some_iff.mp hrun'
  obtain ⟨-, rfl⟩ := Prod.mk.inj heq
  have hends := ends_opcodeRmReg text mmu m
  rw [Ends, hx1] at hends
  have hlocks : m.line.tokens = lockTokens ins.prefixes := by
    have h : (m.line.addAll []).tokens = lockTokens ins.prefixes ++ [] := hm.tokens (Nat.zero_le 17)
    rwa [List.append_nil] at h
  have hline : m1.line.tokens = lockTokens ins.prefixes ∨
      lockTokens ins.prefixes ++ [mnemonicToken text, mnemonicToken text] <+: m1.line.tokens := by
    rcases hends with h | h
    · exact Or.inl (h ▸ hlocks)
    · rw [RenderLine.Grows, hm.tokens (by simp)] at h
      exact Or.inr h
  have hone := congrArg List.length horder.once
  rw [List.length_map] at hone
  exact length_mnemonics hline hone

theorem encodes_xorMem : Encodes [] false 0x30 [0x13] := by decide

/-- `xor byte [ebx], dl` -/
def xorMem : Instruction := encodes_xorMem.instruction

theorem mnemDecode_alu_order_xorMem :
    ¬ Renders (codeMmu [0x1330]) 0x1000 15 (Mnem.zero .empty) (OperandOrder xorMem) :=
  mnemDecode_alu_order xorMem (by decide) _ _ (by decide +kernel) 15 (by decide) _

theorem encodes_addEax : Encodes [] false 0x03 [0xC1] := by decide

/-- `add eax, ecx` -/
def addEax : Instruction := encodes_addEax.instruction

/-- `addadd ecx,eax` -/
theorem mnemDecode_add_twice : IsAluRm addEax ∧ Lies (codeMmu [0xC103]) 0x1000 addEax.bytes ∧
    ¬ Renders (codeMmu [0xC103]) 0x1000 15 (Mnem.zero .empty) (OperandOrder addEax) := by
  have hrun : (mnemDecode 15 (codeMmu [0xC103]) 0x1000 (Mnem.zero .empty)).map
      (fun r => (r.2.line.tokens.filter isMnemonic).length) = some 2 := by decide +kernel
  refine ⟨by decide, by decide +kernel, ?_⟩
  rintro ⟨r, m, hm, horder⟩
  have hone := congrArg List.length horder.once
  rw [List.length_map] at hone
  rw [hm, Option.map_some, hone] at hrun
  exact absurd hrun (by decide)

end Tomk.Disasm
