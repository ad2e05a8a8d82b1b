/-
# The widths of registers

Where the operand of the ModR/M byte is a register, a handler prints it with a name of the width of the
instruction, and the other register as well.  Most handlers pick the name by
`W` and the operand size, and are right as far as the prefixes have left the operand size
right.  `mov` has the operand in 32 bits always; the double shifts go by the low bit of an
opcode that is not a width, and two of them print the registers of a ModR/M byte that they have
not fetched.
-/
import Tomk.Disasm.OperandOrder

namespace Tomk.Disasm

open Early I386

variable {mmu : Mmu} {addr : U32} {ins : Instruction} {m : Mnem} {n c k : Nat} {m0 : Mnem}

/-! ## The registers of a line -/

def isRegister (t : Token) : Bool := t.type = .generalRegister

/-- Whether the register field is an operand. -/
def hasRegister (ins : Instruction) : Bool :=
  ins.escape || ins.opcode.toNat < 0x40 || (0x86 ≤ ins.opcode.toNat && ins.opcode.toNat ≤ 0x8B)

/-- The registers that the two fields name, in the width of the operands. -/
def operandRegisters (ins : Instruction) : List Token :=
  regToken (operandWidth ins) (low3 ins.modrm) ::
    if hasRegister ins then [regToken (operandWidth ins) (mid3 ins.modrm)] else []

/-- The registers in the line are those of the operands, in whatever order. -/
def RegistersRight (ins : Instruction) (toks : List Token) : Prop :=
  (toks.filter isRegister).Perm (operandRegisters ins)

theorem lockTokens_register (l : List U8) : (lockTokens l).filter isRegister = [] :=
  List.filter_eq_nil_iff.mpr fun t ht => by
    rw [mem_lockTokens ht]
    decide

theorem registersRight_iff {toks regs : List Token} (h : toks.filter isRegister = regs) :
    RegistersRight ins (lockTokens ins.prefixes ++ toks) ↔ regs.Perm (operandRegisters ins) := by
  rw [RegistersRight, List.filter_append, lockTokens_register, h, List.nil_append]

/-- One register, and two in either order. -/
theorem perm_one {a w i : Nat} : [regToken a i].Perm [regToken w i] ↔ a = w := by
  refine ⟨fun h => ?_, fun h => h ▸ List.Perm.refl _⟩
  exact congrArg Token.operandSize (List.singleton_perm_singleton.mp h)

theorem perm_two {a b w i j : Nat} :
    [regToken a i, regToken b j].Perm [regToken w i, regToken w j] ↔ a = w ∧ b = w := by
  constructor
  · intro h
    have hsize : ∀ t ∈ [regToken a i, regToken b j], t.operandSize = w := by
      intro t ht
      rcases List.mem_cons.mp (h.mem_iff.mp ht) with rfl | ht
      · rfl
      · rw [List.mem_singleton.mp ht]
        rfl
    exact ⟨hsize _ List.mem_cons_self, hsize (regToken b j) (List.mem_cons_of_mem _ List.mem_cons_self)⟩
  · rintro ⟨rfl, rfl⟩
    exact List.Perm.refl _

theorem perm_two_swapped {a b w i j : Nat} :
    [regToken b j, regToken a i].Perm [regToken w i, regToken w j] ↔ a = w ∧ b = w :=
  ⟨fun h => perm_two.mp ((List.Perm.swap _ _ _).trans h),
    fun h => (List.Perm.swap _ _ _).trans (perm_two.mpr h)⟩

/-- Two equal registers. -/
theorem perm_zero {w i j : Nat} (hi : i < 8) (hj : j < 8) :
    [regToken 4 0, regToken 4 0].Perm [regToken w i, regToken w j] ↔ 4 = w ∧ i = 0 ∧ j = 0 := by
  constructor
  · intro h
    have heq : ∀ t ∈ [regToken w i, regToken w j], t = regToken 4 0 := by
      intro t ht
      simpa using h.mem_iff.mpr ht
    have hnumber : ∀ {k : Nat}, k < 8 → regToken w k = regToken 4 0 → k = 0 := by
      intro k hk hreg
      have h := congrArg (fun t => t.number.toNat) hreg
      simp only [regToken, BitVec.toNat_ofNat] at h
      omega
    have hfirst := heq (regToken w i) List.mem_cons_self
    have hsecond := heq (regToken w j) (List.mem_cons_of_mem _ List.mem_cons_self)
    exact ⟨(congrArg Token.operandSize hfirst).symm, hnumber hi hfirst, hnumber hj hsecond⟩
  · rintro ⟨rfl, rfl, rfl⟩
    exact List.Perm.refl _

theorem operandRegisters_two (h : hasRegister ins = true) : operandRegisters ins
    = [regToken (operandWidth ins) (low3 ins.modrm), regToken (operandWidth ins) (mid3 ins.modrm)] := by
  rw [operandRegisters, if_pos h]

theorem operandRegisters_one (h : hasRegister ins = false) :
    operandRegisters ins = [regToken (operandWidth ins) (low3 ins.modrm)] := by
  rw [operandRegisters, h, if_neg Bool.false_ne_true]

/-! ## Behind the ModR/M byte -/

theorem not_hasSib_of_register {addr32 : Bool} (h3 : high2 ins.modrm = 0b11) :
    ¬ HasSib addr32 ins.modrm := fun h => h.2.1 h3

theorem AtOperand.mod (hm : AtOperand addr ins m) (h3 : high2 ins.modrm = 0b11) : m.mod = 0b11 := by
  rw [Mnem.mod, hm.modrm]
  exact h3

theorem AtOperand.rm (hm : AtOperand addr ins m) : m.rm = low3 ins.modrm := by
  rw [Mnem.rm, hm.modrm]
  rfl

theorem AtOperand.reg (hm : AtOperand addr ins m) : m.reg = mid3 ins.modrm := by
  rw [Mnem.reg, hm.modrm]
  rfl

/-- A form with a ModR/M byte of a register has it, and the immediate. -/
theorem operands_length_register (h3 : high2 ins.modrm = 0b11) (hmodrm : ins.form.hasModrm = true) :
    ins.operands.length
      = 1 + ((ins.form.immediate ins.modrm).fields ins.op32 ins.addr32).sum := by
  have hdef : ins.form.Defined ins.modrm := ins.defined
  have hdisp : dispFields ins.addr32 ins.modrm ins.sib = [] := by
    rw [dispFields, h3]
    rfl
  rw [ins.operands_length_eq, Instruction.fields, Form.fields_eq hdef, if_pos hmodrm, hdisp,
    sibFields, if_neg (not_hasSib_of_register h3), List.sum_append]
  rfl

/-! ## The handlers -/

variable {α : Type} {x : Dec Unit} {y : Dec α} {f : α → Dec Unit} {value : List U8 → α}
  {a b : List Token} {size wreg : Nat}

/-- Where the register is among the tokens in front, or behind. -/
theorem perm_line_iff (hr : hasRegister ins = true) (hfilter :
      (a ++ (regToken size (low3 ins.modrm) :: b)).filter isRegister
        = [regToken size (low3 ins.modrm), regToken wreg (mid3 ins.modrm)] ∨
      (a ++ (regToken size (low3 ins.modrm) :: b)).filter isRegister
        = [regToken wreg (mid3 ins.modrm), regToken size (low3 ins.modrm)]) :
    RegistersRight ins (lockTokens ins.prefixes ++ (a ++ (regToken size (low3 ins.modrm) :: b)))
      ↔ size = operandWidth ins ∧ wreg = operandWidth ins := by
  rcases hfilter with h | h
  · rw [registersRight_iff h, operandRegisters_two hr, perm_two]
  · rw [registersRight_iff h, operandRegisters_two hr, perm_two_swapped]

/-- The width of a line with the operand alone. -/
theorem perm_operand_iff (hr : hasRegister ins = false)
    (hfilter : (a ++ (regToken size (low3 ins.modrm) :: b)).filter isRegister
      = [regToken size (low3 ins.modrm)]) :
    RegistersRight ins (lockTokens ins.prefixes ++ (a ++ (regToken size (low3 ins.modrm) :: b)))
      ↔ size = operandWidth ins := by
  rw [registersRight_iff hfilter, operandRegisters_one hr, perm_one]

/-- A handler that takes nothing but the ModR/M byte. -/
theorem renders_register (hrun : mnemDecode n mmu addr m0 = (x mmu m).map fun r => (true, r.2))
    (hm : AtOperand addr ins m) (h3 : high2 ins.modrm = 0b11) (hx : RmLine mmu x m size a b)
    (hlen : (a ++ (regToken size m.rm :: b)).length ≤ 17) :
    Renders mmu addr n m0 (RegistersRight ins) ↔
      RegistersRight ins (lockTokens ins.prefixes ++ (a ++ (regToken size (low3 ins.modrm) :: b))) := by
  rw [renders_iff hrun hm.toInside (hx.register (hm.mod h3)) hlen, hm.rm]

/-- A handler that takes an immediate behind the operand: without it the registers are in the line
all the same. -/
theorem renders_register_imm {t : α → List Token}
    (hrun : mnemDecode n mmu addr m0 = ((x >>= fun _ => y >>= f) mmu m).map fun r => (true, r.2))
    (hm : AtOperand addr ins m) (h3 : high2 ins.modrm = 0b11) (hx : RmLine mmu x m size a b)
    (hy : FetchesAt mmu y m k value) (hf : ∀ v, Emits mmu (f v) (m.skip k) 0 (t v) ())
    (ht : ∀ v, (t v).filter isRegister = [])
    (hlen : ∀ v, (a ++ (regToken size m.rm :: b)).length + (t v).length ≤ 17)
    (hreads : RegistersRight ins
        (lockTokens ins.prefixes ++ (a ++ (regToken size (low3 ins.modrm) :: b))) →
      ∃ imm, imm.length = k ∧ Reads mmu m.eip imm) :
    Renders mmu addr n m0 (RegistersRight ins) ↔
      RegistersRight ins (lockTokens ins.prefixes ++ (a ++ (regToken size (low3 ins.modrm) :: b))) := by
  have hregister := hx.register (hm.mod h3)
  have hboth : ∀ v, RegistersRight ins
        (lockTokens ins.prefixes ++ ((a ++ (regToken size m.rm :: b)) ++ t v)) ↔
      RegistersRight ins (lockTokens ins.prefixes ++ (a ++ (regToken size m.rm :: b))) := by
    intro v
    rw [RegistersRight, RegistersRight, ← List.append_assoc, List.filter_append, ht, List.append_nil]
  rw [← hm.rm] at hreads ⊢
  by_cases hex : ∃ imm, imm.length = k ∧ Reads mmu m.eip imm
  · obtain ⟨imm, hk, himm⟩ := hex
    have hemits := hregister.seq (f := fun _ => y >>= f) ((hy.emits imm hk himm).then (hf _))
    rw [renders_iff hrun hm.toInside hemits (by rw [List.length_append]; exact hlen _), hboth]
  · have hruns := hregister.runs_seq (f := fun _ => y >>= f)
      (hy.fails fun imm hk himm => hex ⟨imm, hk, himm⟩).ret
    rw [List.append_nil] at hruns
    refine ⟨fun h => ?_, fun h => absurd (hreads h) hex⟩
    exact h.of_runs hrun hm.toInside hruns ((Nat.le_add_right _ _).trans (hlen (value [])))

/-- Only a dword is printed as one. -/
theorem four_eq_operandWidth_iff (he : ins.escape = false) :
    4 = operandWidth ins ↔ ins.opcode.toNat % 2 = 1 ∧ ins.op32 = true := by
  rw [operandWidth, he]
  rcases Nat.mod_two_eq_zero_or_one ins.opcode.toNat with h0 | h1
  · simp [h0]
  · cases ins.op32 <;> simp [h1]

theorem sizeW_of_four (hm : Inside addr ins c m) (he : ins.escape = false) (h : 4 = operandWidth ins) :
    m.sizeW = operandWidth ins := by
  obtain ⟨hodd, h32⟩ := (four_eq_operandWidth_iff he).mp h
  exact (hm.sizeW_eq_iff he).mpr (Or.inr ((toggledOp32_of_op32 h32).trans h32.symm))

/-- The operand and an immediate by `W`, as `opcode_80` prints them. -/
theorem rmLine_immediateW (text : Name) (v : U32) (mmu : Mmu) (m : Mnem) : RmLine mmu (do
    mnemonic text
    modrmGetTokenW
    comma
    immediateW v) m m.sizeW [mnemonicToken text] [commaToken, immToken v m.sizeW] :=
  ((rmLine_modrmGetTokenW mmu m).behind fun _ => emits_comma.seq (emits_immediateW v)).before
    (emits_mnemonic text)

/-- The operand of `mov_rm_imm`. -/
theorem rmLine_movRmImm (text : Name) (mmu : Mmu) (m : Mnem) : RmLine mmu (do
    mnemonic text
    modrmGetToken32
    comma) m 4 [mnemonicToken text] [commaToken] :=
  ((rmLine_modrmGetToken 4 mmu m).behind fun _ => emits_comma).before (emits_mnemonic text)

/-- The operands of a double shift. -/
theorem rmLine_doubleShift (text : Name) (mmu : Mmu) (m : Mnem) : RmLine mmu (do
    mnemonic text
    doubleShiftOperands
    comma) m (if m.w then 4 else 2) [mnemonicToken text]
      ([commaToken, regToken (if m.w then 4 else 2) m.reg] ++ [commaToken]) :=
  ((rmLine_doubleShiftOperands mmu m).behind fun _ => emits_comma).before (emits_mnemonic text)

section

variable (hlies : Lies mmu addr ins.bytes) (hn : ins.prefixes.length < n)
  (h3 : high2 ins.modrm = 0b11) (hpos : 0 < ins.operands.length)
include hlies hn h3 hpos

theorem renders_opcodeRmReg (he : ins.escape = false) (hr : hasRegister ins = true) {text : Name}
    (hx : Handles ins (opcodeRmReg text)) : Renders mmu addr n m0 (RegistersRight ins)
      ↔ ins.opcode.toNat % 2 = 0 ∨ toggledOp32 ins = ins.op32 := by
  obtain ⟨m, hm, hrun⟩ := mnemDecode_operand hlies hn m0 hx hpos
    fun h => absurd h (not_hasSib_of_register h3)
  have hline := rmLine_opcodeRmReg text mmu m
  rw [hm.reg] at hline
  rw [← hm.sizeW_eq_iff he]
  cases hd : m.d with
  | true =>
      rw [hd, if_pos rfl, if_pos rfl] at hline
      rw [renders_register hrun hm h3 hline (by simp), perm_line_iff hr (Or.inl rfl), and_self]
  | false =>
      rw [hd, if_neg Bool.false_ne_true, if_neg Bool.false_ne_true] at hline
      rw [renders_register hrun hm h3 hline (by simp), perm_line_iff hr (Or.inr rfl), and_self]

theorem renders_xchgRmReg (he : ins.escape = false) (hr : hasRegister ins = true)
    (hx : Handles ins xchgRmReg) : Renders mmu addr n m0 (RegistersRight ins)
      ↔ ins.opcode.toNat % 2 = 0 ∨ toggledOp32 ins = ins.op32 := by
  obtain ⟨m, hm, hrun⟩ := mnemDecode_operand hlies hn m0 hx hpos
    fun h => absurd h (not_hasSib_of_register h3)
  have hline : RmLine mmu (do
      mnemonic (name "xchg")
      let m ← state
      regW m.reg
      comma
      modrmGetTokenW) m m.sizeW
        [mnemonicToken (name "xchg"), regToken m.sizeW m.reg, commaToken] [] := by
    refine RmLine.before ?_ (emits_mnemonic _)
    refine rmLine_state_bind fun line => ?_
    exact ((rmLine_modrmGetTokenW mmu m).before emits_comma).before (emits_regW m.reg)
  rw [hm.reg] at hline
  rw [← hm.sizeW_eq_iff he, renders_register hrun hm h3 hline (by simp),
    perm_line_iff hr (Or.inr rfl), and_self]

/-- `inc` and `dec`, the first two of their groups. -/
theorem renders_byReg_opcodeRm (he : ins.escape = false) (hr : hasRegister ins = false)
    {cases : List (Dec Unit)} {text : Name} (hx : Handles ins (fetchModrm >>= fun _ => byReg cases))
    (hcase : cases.getD (mid3 ins.modrm) (pure ()) = opcodeRm text) :
    Renders mmu addr n m0 (RegistersRight ins)
      ↔ ins.opcode.toNat % 2 = 0 ∨ toggledOp32 ins = ins.op32 := by
  obtain ⟨m, hm, hrun⟩ := mnemDecode_operand hlies hn m0 hx hpos
    fun h => absurd h (not_hasSib_of_register h3)
  have hby : byReg cases mmu m = opcodeRm text mmu m := by
    rw [← hcase, ← hm.reg]
    rfl
  replace hrun := hrun.trans (congrArg (Option.map fun r => (true, r.2)) hby)
  have hline : RmLine mmu (opcodeRm text) m m.sizeW [mnemonicToken text] [] :=
    (rmLine_modrmGetTokenW mmu m).before (emits_mnemonic text)
  rw [← hm.sizeW_eq_iff he, renders_register hrun hm h3 hline (by simp), perm_operand_iff hr rfl]

theorem renders_movRmReg (he : ins.escape = false) (hr : hasRegister ins = true)
    (hx : Handles ins movRmReg) : Renders mmu addr n m0 (RegistersRight ins)
      ↔ ins.opcode.toNat % 2 = 1 ∧ ins.op32 = true := by
  obtain ⟨m, hm, hrun⟩ := mnemDecode_operand hlies hn m0 hx hpos
    fun h => absurd h (not_hasSib_of_register h3)
  have hline := rmLine_movRmReg (name "mov") mmu m
  rw [hm.reg] at hline
  have hboth : 4 = operandWidth ins ∧ m.sizeW = operandWidth ins
      ↔ ins.opcode.toNat % 2 = 1 ∧ ins.op32 = true := by
    rw [← four_eq_operandWidth_iff he]
    exact ⟨fun h => h.1, fun h => ⟨h, sizeW_of_four hm.toInside he h⟩⟩
  rw [← hboth]
  cases hd : m.d with
  | true =>
      rw [hd, if_pos rfl, if_pos rfl] at hline
      rw [renders_register hrun hm h3 hline (by simp), perm_line_iff hr (Or.inr rfl)]
  | false =>
      rw [hd, if_neg Bool.false_ne_true, if_neg Bool.false_ne_true] at hline
      rw [renders_register hrun hm h3 hline (by simp), perm_line_iff hr (Or.inl rfl)]

omit hn hpos in
/-- What is behind a ModR/M byte of a register. -/
theorem immediate_reads (hm : AtOperand addr ins m) (hlen : 1 < ins.operands.length) :
    Reads mmu m.eip (ins.operands.drop 1) := by
  have hone : modrmLength ins = 1 := by
    rw [modrmLength, sibFields, if_neg (not_hasSib_of_register h3)]
    rfl
  have h := hm.lies hlies (by omega)
  rw [hone] at h
  exact h.reads (by rw [List.length_drop]; omega)

/-- The operand is printed before the immediate is fetched. -/
theorem renders_movRmImm (he : ins.escape = false) (hr : hasRegister ins = false)
    (hlen : ins.operands.length = 1 + operandWidth ins)
    (hx : Handles ins movRmImm) : Renders mmu addr n m0 (RegistersRight ins)
      ↔ ins.opcode.toNat % 2 = 1 ∧ ins.op32 = true := by
  obtain ⟨m, hm, hrun⟩ := mnemDecode_operand hlies hn m0 hx hpos
    fun h => absurd h (not_hasSib_of_register h3)
  have hline := rmLine_movRmImm (name "mov") mmu m
  rw [← four_eq_operandWidth_iff he, ← perm_operand_iff hr (a := [mnemonicToken (name "mov")])
    (b := [commaToken]) rfl]
  refine renders_register_imm (t := fun v => [immToken v m.sizeW]) ?_ hm h3 hline
    (fetchesAt_fetchW mmu m) (fun v => emits_immediateW v) (fun _ => rfl) (fun _ => by simp)
    fun hright => ?_
  · rw [hrun, bind_assoc, bind_assoc]
  · have h4 := (perm_operand_iff hr rfl).mp hright
    refine ⟨_, ?_, immediate_reads hlies h3 hm (by rw [hlen, ← h4]; decide)⟩
    rw [List.length_drop, hlen, sizeW_of_four hm.toInside he h4]
    omega

omit hn hlies h3 hpos in
theorem sum_imm80 (hm : Inside addr ins c m) (addr32 : Bool) :
    (if m.w then if m.s then 1 else m.sizeV else 1)
      = ((imm80 ins.opcode).fields (toggledOp32 ins) addr32).sum := by
  rw [Mnem.w, Mnem.s, hm.opcode, hm.sizeV, imm80, immS]
  cases ins.opcode &&& 0x1 != 0 with
  | false => rfl
  | true =>
      cases ins.opcode &&& 0x2 != 0 with
      | true => rfl
      | false => cases toggledOp32 ins <;> rfl

/-- The immediate is fetched before all else. -/
theorem renders_opcode80 (he : ins.escape = false) (hr : hasRegister ins = false)
    (hlen : ins.operands.length = 1 + ((imm80 ins.opcode).fields ins.op32 ins.addr32).sum)
    (hx : Handles ins decodeOpcode80) : Renders mmu addr n m0 (RegistersRight ins)
      ↔ ins.opcode.toNat % 2 = 0 ∨ toggledOp32 ins = ins.op32 := by
  obtain ⟨m, text, hm, hrun⟩ := mnemDecode_byReg (g := opcode80) [name "add", name "or",
    name "adc", name "sbb", name "and", name "sub", name "xor", name "cmp"] rfl hlies hn m0 hx hpos
    fun h => absurd h (not_hasSib_of_register h3)
  have hzero : m.disp.sum = 0 := by
    rw [disp_of_register (hm.mod h3)]
    rfl
  have hsize := sum_imm80 hm.toInside ins.addr32
  have hline : ∀ v, RmLine mmu (do
      mnemonic text
      modrmGetTokenW
      comma
      immediateW v) (m.skip (if m.w then if m.s then 1 else m.sizeV else 1)) m.sizeW
        [mnemonicToken text] [commaToken, immToken v m.sizeW] := fun v =>
    rmLine_immediateW text v mmu _
  have hregister : ∀ disp, rmTokens m m.sizeW disp = [regToken m.sizeW (low3 ins.modrm)] := fun disp => by
    rw [rmTokens, if_pos (hm.mod h3), hm.rm]
  have hnone : ¬ RegistersRight ins (lockTokens ins.prefixes ++ []) := by
    rw [registersRight_iff rfl, operandRegisters_one hr]
    exact fun h => List.cons_ne_nil _ _ h.nil_eq.symm
  rw [renders_early hrun hm.toInside (fetchesAt_fetch80 mmu m).fieldAt hline (fun _ => by simp) hnone
    fun h => absurd h (by omega), ← hm.sizeW_eq_iff he]
  have hright : ∀ v, RegistersRight ins (lockTokens ins.prefixes ++ ([] ++ ([mnemonicToken text] ++
      ([regToken m.sizeW (low3 ins.modrm)] ++ [commaToken, immToken v m.sizeW]))))
        ↔ m.sizeW = operandWidth ins := fun v =>
    perm_operand_iff hr (a := [mnemonicToken text]) (b := [commaToken, immToken v m.sizeW]) rfl
  constructor
  · rintro ⟨imm, disp, -, -, -, -, h⟩
    rw [hregister] at h
    exact (hright _).mp h
  · intro h
    have hlen' : (ins.operands.drop 1).length = if m.w then if m.s then 1 else m.sizeV else 1 := by
      rw [List.length_drop, hlen, Nat.add_sub_cancel_left]
      rw [hsize]
      rcases (hm.sizeW_eq_iff he).mp h with heven | h32
      · have hbyte : imm80 ins.opcode = .b := by
          rw [imm80, and_one_ne_zero_iff, decide_eq_false (by omega)]
          rfl
        rw [hbyte]
        rfl
      · rw [h32]
    have hone : 0 < ((imm80 ins.opcode).fields ins.op32 ins.addr32).sum := by
      rw [imm80, immS]
      cases ins.op32
      all_goals
        split_ifs
        all_goals exact Nat.succ_pos _
    refine ⟨ins.operands.drop 1, [], hlen', immediate_reads hlies h3 hm ?_, hzero.symm,
      fun hpos => absurd hpos (by omega), ?_⟩
    · omega
    · rw [hregister]
      exact (hright _).mpr h

omit hlies hn h3 hpos in
theorem operandWidth_escape (he : ins.escape = true) :
    operandWidth ins = if ins.op32 then 4 else 2 := by
  rw [operandWidth, if_neg fun h => Bool.noConfusion (he.symm.trans h.1)]

/-- The low bit of the opcode is taken for the size. -/
theorem renders_doubleShiftImm (he : ins.escape = true) (hr : hasRegister ins = true)
    (heven : ins.opcode.toNat % 2 = 0) (hlen : ins.operands.length = 2) {text : Name}
    (hx : Handles ins (doubleShiftImm text)) :
    Renders mmu addr n m0 (RegistersRight ins) ↔ ins.op32 = false := by
  obtain ⟨m, hm, hrun⟩ := mnemDecode_operand hlies hn m0 hx hpos
    fun h => absurd h (not_hasSib_of_register h3)
  have hw : m.w = false := by
    rw [hm.toInside.w]
    exact decide_eq_false (by omega)
  have hline := rmLine_doubleShift text mmu m
  rw [hw, if_neg Bool.false_ne_true, hm.reg] at hline
  have hright : RegistersRight ins (lockTokens ins.prefixes ++ ([mnemonicToken text] ++
      (regToken 2 (low3 ins.modrm) ::
        ([commaToken, regToken 2 (mid3 ins.modrm)] ++ [commaToken])))) ↔
          2 = operandWidth ins ∧ 2 = operandWidth ins := perm_line_iff hr (Or.inl rfl)
  have htwo : 2 = operandWidth ins ↔ ins.op32 = false := by
    rw [operandWidth_escape he]
    cases ins.op32 <;> decide
  rw [and_self, htwo] at hright
  rw [← hright]
  refine renders_register_imm (t := fun v => [immToken v 1]) ?_ hm h3 hline
    (fetchesAt_fetchByteZx mmu m) (fun v => emits_immediate v 1) (fun _ => rfl) (fun _ => by simp)
    fun _ => ?_
  · rw [hrun, bind_assoc, bind_assoc]
  · exact ⟨_, by rw [List.length_drop, hlen], immediate_reads hlies h3 hm (by omega)⟩

omit h3 hpos in
/-- No ModR/M byte is fetched, and the registers are those of the byte 0. -/
theorem renders_doubleShiftCl (he : ins.escape = true) (hr : hasRegister ins = true)
    (hodd : ins.opcode.toNat % 2 = 1) {text : Name} (hx : Handles ins (doubleShiftCl text)) :
    Renders mmu addr n m0 (RegistersRight ins)
      ↔ ins.op32 = true ∧ toggledAddr32 ins = true ∧ low3 ins.modrm = 0 ∧ mid3 ins.modrm = 0 := by
  obtain ⟨m, hm, hmodrm, hrun⟩ := mnemDecode_handler hlies hn m0 hx
  have hw : m.w = true := by
    rw [hm.w]
    exact decide_eq_true hodd
  have hdisp : m.disp = [] := by
    rw [Mnem.disp, hmodrm, dispFields]
    cases m.addr32 <;> rfl
  have hreg : m.reg = 0 := by
    rw [Mnem.reg, hmodrm]
    rfl
  have hline : RmLine mmu (doubleShiftCl text) m 4 [mnemonicToken text]
      ([commaToken, regToken 4 0] ++ [commaToken, mnemonicToken (name "cl" named_cl)]) := by
    have hoperands := rmLine_doubleShiftOperands mmu m
    rw [hw, if_pos rfl, hreg] at hoperands
    exact (hoperands.behind fun _ => emits_comma.seq (emits_mnemonic _)).before (emits_mnemonic text)
  have hemits := hline.emits [] (by rw [hdisp]; rfl) fun h => absurd h (by rw [hdisp]; decide)
  have hrm := length_rmTokens_le m 4 []
  rw [renders_iff hrun hm hemits (by simp only [List.length_append, List.length_cons, List.length_nil]; omega)]
  have htokens : rmTokens m 4 [] = operandTokens m [] := by
    rw [rmTokens, Mnem.mod, hmodrm]
    rfl
  rw [htokens, operandTokens]
  have hfour : 4 = operandWidth ins ↔ ins.op32 = true := by
    rw [operandWidth_escape he]
    cases ins.op32 <;> decide
  have hlow : low3 ins.modrm < 8 := Nat.mod_lt _ (by decide)
  have hmid : mid3 ins.modrm < 8 := Nat.mod_lt _ (by decide)
  rw [← hfour]
  cases haddr : toggledAddr32 ins with
  | true =>
      have hinner : innerTokens m [] = [regToken 4 0] := by
        rw [innerTokens, Mnem.mod, Mnem.rm, hm.addr32.trans haddr, hmodrm]
        rfl
      rw [hinner]
      refine (registersRight_iff rfl).trans ?_
      show [regToken 4 0, regToken 4 0].Perm (operandRegisters ins) ↔ _
      rw [operandRegisters_two hr, perm_zero hlow hmid]
      exact and_congr_right fun _ => (and_iff_right rfl).symm
  | false =>
      have hinner : innerTokens m [] = [regToken 2 3, plusToken, regToken 2 6] := by
        rw [innerTokens, base16Tokens, Mnem.mod, Mnem.rm, hm.addr32.trans haddr, hmodrm]
        rfl
      rw [hinner]
      refine (registersRight_iff rfl).trans ?_
      show [regToken 2 3, regToken 2 6, regToken 4 0].Perm (operandRegisters ins) ↔ _
      rw [operandRegisters_two hr]
      refine iff_of_false (fun h => ?_) fun h => Bool.false_ne_true h.2.1
      exact absurd h.length_eq (by simp)

end

/-! ## The widths -/

/-- `mov`, `xchg`, the arithmetic instructions, the double shifts, `inc` and `dec`, with a register for the
operand of the ModR/M byte. -/
def IsRegisterForm (ins : Instruction) : Prop :=
  high2 ins.modrm = 0b11 ∧
    if ins.escape then ins.opcode.toNat ∈ [0xA4, 0xA5, 0xAC, 0xAD]
    else IsAluRm ins ∨ (0x80 ≤ ins.opcode.toNat ∧ ins.opcode.toNat ≤ 0x83) ∨
      (0x86 ≤ ins.opcode.toNat ∧ ins.opcode.toNat ≤ 0x8B) ∨ ins.opcode.toNat ∈ [0xC6, 0xC7] ∨
        ins.opcode.toNat ∈ [0xFE, 0xFF] ∧ mid3 ins.modrm < 2

instance (ins : Instruction) : Decidable (IsRegisterForm ins) := inferInstanceAs (Decidable (_ ∧ _))

/-- `mov`, whose operand is a dword. -/
def IsMovRm (ins : Instruction) : Prop :=
  (0x88 ≤ ins.opcode.toNat ∧ ins.opcode.toNat ≤ 0x8B) ∨ ins.opcode.toNat ∈ [0xC6, 0xC7]

instance (ins : Instruction) : Decidable (IsMovRm ins) := inferInstanceAs (Decidable (_ ∨ _))

/-- When the registers have the width of the instruction: the double shifts by an immediate with a
16-bit operand size, those by CL for two times EAX, `mov` with 32 bits, and the others for bytes
and where the toggles leave the operand size. -/
def RegistersSized (ins : Instruction) : Prop :=
  if ins.escape then
    if ins.opcode.toNat % 2 = 0 then ins.op32 = false
    else ins.op32 = true ∧ toggledAddr32 ins = true ∧ low3 ins.modrm = 0 ∧ mid3 ins.modrm = 0
  else if IsMovRm ins then ins.opcode.toNat % 2 = 1 ∧ ins.op32 = true
  else ins.opcode.toNat % 2 = 0 ∨ toggledOp32 ins = ins.op32

instance (ins : Instruction) : Decidable (RegistersSized ins) :=
  inferInstanceAs (Decidable (ite _ _ _))

theorem form_of_doubleShift : ∀ op ∈ [0xA4, 0xAC], entry twoByteMap op = EIb := by decide

theorem hasModrm_of_register : ∀ op < 256, (op < 0x40 ∧ op % 8 < 4 ∨ 0x86 ≤ op ∧ op ≤ 0x8B ∨
    op ∈ [0xFE, 0xFF]) → (entry oneByteMap op).hasModrm = true := by decide +kernel

theorem form_of_opcode80 : ∀ op < 256, 0x80 ≤ op → op ≤ 0x83 →
    entry oneByteMap op = .rm (imm80 (BitVec.ofNat 8 op)) := by decide +kernel

theorem form_of_movRmImm : ∀ op ∈ [0xC6, 0xC7],
    entry oneByteMap op = .rm (if op % 2 = 0 then .b else .z) := by decide

theorem operands_pos (h3 : high2 ins.modrm = 0b11) (hmodrm : ins.form.hasModrm = true) :
    0 < ins.operands.length := by
  rw [operands_length_register h3 hmodrm]
  omega

/-- The first two of a group. -/
theorem getD_incRm {i : Nat} (hi : i < 2) (rest : List (Dec Unit)) :
    ∃ text, (incRm :: decRm :: rest).getD i (pure ()) = opcodeRm text := by
  obtain rfl | rfl : i = 0 ∨ i = 1 := by omega
  · exact ⟨_, rfl⟩
  · exact ⟨_, rfl⟩

theorem renders_registers_escape (h3 : high2 ins.modrm = 0b11) (he : ins.escape = true)
    (hop : ins.opcode.toNat ∈ [0xA4, 0xA5, 0xAC, 0xAD]) (hlies : Lies mmu addr ins.bytes)
    (hn : ins.prefixes.length < n) :
    Renders mmu addr n m0 (RegistersRight ins) ↔ RegistersSized ins := by
  have hr : hasRegister ins = true := by rw [hasRegister, he]; rfl
  have hlen : ∀ op ∈ [0xA4, 0xAC], ins.opcode.toNat = op → ins.operands.length = 2 := by
    intro op hop heq
    have hform : ins.form = EIb := by
      rw [form_eq, he, if_pos rfl, heq]
      exact form_of_doubleShift op hop
    rw [operands_length_register h3 (by rw [hform]; rfl), hform]
    rfl
  rw [RegistersSized, if_pos he]
  simp only [List.mem_cons, List.not_mem_nil, or_false] at hop
  rcases hop with h | h | h | h
  · have hlen := hlen _ List.mem_cons_self h
    rw [if_pos (by omega)]
    exact renders_doubleShiftImm hlies hn h3 (by omega) he hr (by omega) hlen
      (handles_of_mem0f he 0xA4 0xA4 shldRmImm (by simp [opcodes0f]) (by omega) (by omega))
  · rw [if_neg (by omega)]
    exact renders_doubleShiftCl hlies hn he hr (by omega)
      (handles_of_mem0f he 0xA5 0xA5 shldRmCl (by simp [opcodes0f]) (by omega) (by omega))
  · have hlen := hlen _ (List.mem_cons_of_mem _ List.mem_cons_self) h
    rw [if_pos (by omega)]
    exact renders_doubleShiftImm hlies hn h3 (by omega) he hr (by omega) hlen
      (handles_of_mem0f he 0xAC 0xAC shrdRmImm (by simp [opcodes0f]) (by omega) (by omega))
  · rw [if_neg (by omega)]
    exact renders_doubleShiftCl hlies hn he hr (by omega)
      (handles_of_mem0f he 0xAD 0xAD shrdRmCl (by simp [opcodes0f]) (by omega) (by omega))

theorem renders_registers_byte (h3 : high2 ins.modrm = 0b11) (he : ins.escape = false)
    (hop : IsAluRm ins ∨ (0x80 ≤ ins.opcode.toNat ∧ ins.opcode.toNat ≤ 0x83) ∨
      (0x86 ≤ ins.opcode.toNat ∧ ins.opcode.toNat ≤ 0x8B) ∨ ins.opcode.toNat ∈ [0xC6, 0xC7] ∨
        ins.opcode.toNat ∈ [0xFE, 0xFF] ∧ mid3 ins.modrm < 2) (hlies : Lies mmu addr ins.bytes)
    (hn : ins.prefixes.length < n) :
    Renders mmu addr n m0 (RegistersRight ins) ↔ RegistersSized ins := by
  have hentry := form_oneByte he
  have hlt : ins.opcode.toNat < 256 := ins.opcode.isLt
  have hregister : hasRegister ins = true ↔ ins.opcode.toNat < 0x40 ∨
      0x86 ≤ ins.opcode.toNat ∧ ins.opcode.toNat ≤ 0x8B := by
    simp [hasRegister, he]
  have hmodrm : (ins.opcode.toNat < 0x40 ∧ ins.opcode.toNat % 8 < 4 ∨
      0x86 ≤ ins.opcode.toNat ∧ ins.opcode.toNat ≤ 0x8B ∨ ins.opcode.toNat ∈ [0xFE, 0xFF]) →
        0 < ins.operands.length := fun h =>
    operands_pos h3 (hentry ▸ hasModrm_of_register _ hlt h)
  rw [RegistersSized, if_neg (by rw [he]; exact Bool.false_ne_true)]
  rcases hop with halu | ⟨hlo, hhi⟩ | ⟨hlo, hhi⟩ | hmov | ⟨hgroup, hmid⟩
  · have hmov : ¬ IsMovRm ins := by
      have hsmall := halu.2.1
      simp only [IsMovRm, List.mem_cons, List.not_mem_nil, or_false]
      omega
    obtain ⟨text, hx⟩ := handles_opcodeRmReg halu
    rw [if_neg hmov]
    exact renders_opcodeRmReg hlies hn h3 (hmodrm (Or.inl halu.2)) he
      (hregister.mpr (Or.inl halu.2.1)) hx
  · have hmov : ¬ IsMovRm ins := by
      simp only [IsMovRm, List.mem_cons, List.not_mem_nil, or_false]
      omega
    have hf : ins.form = .rm (imm80 ins.opcode) := by
      rw [hentry, form_of_opcode80 _ hlt hlo hhi, ofNat_opcode]
    have hlen := operands_length_register h3 (by rw [hf]; rfl)
    rw [hf] at hlen
    rw [if_neg hmov]
    have hr := Bool.eq_false_iff.mpr (mt hregister.mp (by omega))
    exact renders_opcode80 hlies hn h3 (by omega) he hr hlen
      (handles_of_mem he 0x80 0x83 decodeOpcode80 (by simp [opcodes]) hlo hhi)
  · have hr := hregister.mpr (Or.inr ⟨hlo, hhi⟩)
    have hpos := hmodrm (Or.inr (Or.inl ⟨hlo, hhi⟩))
    by_cases hx : ins.opcode.toNat ≤ 0x87
    · have hmov : ¬ IsMovRm ins := by
        simp only [IsMovRm, List.mem_cons, List.not_mem_nil, or_false]
        omega
      rw [if_neg hmov]
      exact renders_xchgRmReg hlies hn h3 hpos he hr
        (handles_of_mem he 0x86 0x87 xchgRmReg (by simp [opcodes]) hlo hx)
    · rw [if_pos (show IsMovRm ins from Or.inl ⟨by omega, hhi⟩)]
      exact renders_movRmReg hlies hn h3 hpos he hr
        (handles_of_mem he 0x88 0x8B movRmReg (by simp [opcodes]) (by omega) hhi)
  · rw [if_pos (show IsMovRm ins from Or.inr hmov)]
    have hf : ins.form = .rm (if ins.opcode.toNat % 2 = 0 then .b else .z) :=
      hentry.trans (form_of_movRmImm _ hmov)
    have hlen := operands_length_register h3 (by rw [hf]; rfl)
    simp only [List.mem_cons, List.not_mem_nil, or_false] at hmov
    have hwidth : ins.operands.length = 1 + operandWidth ins := by
      rw [hlen, hf, operandWidth, he]
      rcases Nat.mod_two_eq_zero_or_one ins.opcode.toNat with h0 | h1
      · rw [if_pos h0, if_pos ⟨rfl, h0⟩]
        rfl
      · rw [if_neg (by omega), if_neg (by omega)]
        rfl
    have hr := Bool.eq_false_iff.mpr (mt hregister.mp (by omega))
    exact renders_movRmImm hlies hn h3 (by omega) he hr hwidth
      (handles_of_mem he 0xC6 0xC7 movRmImm (by simp [opcodes]) (by omega) (by omega))
  · have hpos := hmodrm (Or.inr (Or.inr hgroup))
    simp only [List.mem_cons, List.not_mem_nil, or_false] at hgroup
    have hmov : ¬ IsMovRm ins := by
      simp only [IsMovRm, List.mem_cons, List.not_mem_nil, or_false]
      omega
    have hr := Bool.eq_false_iff.mpr (mt hregister.mp (by omega))
    rw [if_neg hmov]
    rcases hgroup with h | h
    · obtain ⟨text, htext⟩ := getD_incRm hmid _
      exact renders_byReg_opcodeRm hlies hn h3 hpos he hr
        (handles_of_mem he 0xFE 0xFE decodeOpcodeFe (by simp [opcodes]) (by omega) (by omega)) htext
    · obtain ⟨text, htext⟩ := getD_incRm hmid _
      exact renders_byReg_opcodeRm hlies hn h3 hpos he hr
        (handles_of_mem he 0xFF 0xFF decodeOpcodeFf (by simp [opcodes]) (by omega) (by omega)) htext

/-- **The registers in the line** are those of the operands, in their width, if and only if
`RegistersSized` holds. -/
theorem mnemDecode_registers_iff (ins : Instruction) (hform : IsRegisterForm ins) (mmu : Mmu)
    (addr : U32) (hlies : Lies mmu addr ins.bytes) (n : Nat) (hn : ins.prefixes.length < n)
    (m0 : Mnem) : Renders mmu addr n m0 (RegistersRight ins) ↔ RegistersSized ins := by
  obtain ⟨h3, hop⟩ := hform
  cases he : ins.escape with
  | true =>
      rw [if_pos he] at hop
      exact renders_registers_escape h3 he hop hlies hn
  | false =>
      rw [if_neg (by rw [he]; exact Bool.false_ne_true)] at hop
      exact renders_registers_byte h3 he hop hlies hn

theorem encodes_movEcx : Encodes [] false 0x89 [0xC1] := by decide

/-- `mov ecx, eax` -/
def movEcx : Instruction := encodes_movEcx.instruction

theorem mnemDecode_registers_movEcx :
    Renders (codeMmu [0xC189]) 0x1000 15 (Mnem.zero .empty) (RegistersRight movEcx) :=
  (mnemDecode_registers_iff movEcx (by decide) _ _ (by decide +kernel) 15 (by decide) _).mpr (by decide)

theorem encodes_movCl : Encodes [] false 0x88 [0xC1] := by decide

/-- `mov cl, al` -/
def movCl : Instruction := encodes_movCl.instruction

/-- `mov ecx,al` -/
theorem mnemDecode_movCl_dword : IsRegisterForm movCl ∧ Lies (codeMmu [0xC188]) 0x1000 movCl.bytes ∧
    ¬ Renders (codeMmu [0xC188]) 0x1000 15 (Mnem.zero .empty) (RegistersRight movCl) := by
  have hrun : (mnemDecode 15 (codeMmu [0xC188]) 0x1000 (Mnem.zero .empty)).map
      (fun r => (r.2.line.tokens.filter isRegister).map Token.operandSize) = some [4, 1] := by
    decide +kernel
  refine ⟨by decide, by decide +kernel, ?_⟩
  rintro ⟨r, m, hm, hright⟩
  have hsizes : ((m.line.tokens.filter isRegister).map Token.operandSize).Perm [1, 1] :=
    hright.map Token.operandSize
  rw [hm, Option.map_some, Option.some.injEq] at hrun
  rw [hrun] at hsizes
  exact absurd (hsizes.mem_iff.mp List.mem_cons_self) (by decide)

end Tomk.Disasm
