/-
# The plan of each handler

The handlers one after the other, each with the row that it fetches.
-/
import Tomk.Disasm.Widths

namespace Tomk.Disasm

open Early I386

variable {mmu : Mmu} {m : Mnem} {p : List Nat}

/-! ## Handlers without a ModR/M byte -/

theorem takes_quiet {x : Dec Unit} (h : Quiet x) : Takes mmu x m (m.fields mmu planNone) :=
  (h.fetches mmu m).takes

theorem takes_imm {x : Dec Unit} {i : Imm} (h : Fetches mmu x m (m.imm i)) :
    Takes mmu x m (m.fields mmu (.imm i)) := h.takes

theorem takes_mnemonic (text : Name) : Takes mmu (mnemonic text) m (m.fields mmu planNone) :=
  takes_quiet quiet_token

theorem takes_opcodeReg (text : Name) : Takes mmu (opcodeReg text) m (m.fields mmu planNone) :=
  takes_quiet <| quiet_token.bind fun _ => quiet_state_bind fun _ => quiet_regV _

theorem takes_opcodeSeg (text : Name) : Takes mmu (opcodeSeg text) m (m.fields mmu planNone) :=
  takes_quiet <| quiet_token.bind fun _ => quiet_state_bind fun _ => quiet_token

theorem takes_opcodeAccumImm (text : Name) :
    Takes mmu (opcodeAccumImm text) m (m.fields mmu (.imm (immW m.opcode))) :=
  takes_imm <| (fetches_fetchW mmu m).then fun _ => quiet_token.bind fun _ =>
    (quiet_regW 0).bind fun _ => quiet_token.bind fun _ => quiet_immediateW _

theorem takes_opcodeAdjust (text : Name) :
    Takes mmu (opcodeAdjust text) m (m.fields mmu (.imm .b)) :=
  takes_imm <| (fetches_fetchByteZx mmu m).then fun _ => quiet_token.bind fun _ => quiet_token

theorem takes_opcodeLoop (text : Name) :
    Takes mmu (opcodeLoop text) m (m.fields mmu (.imm .b)) :=
  takes_imm <| (fetches_fetchShort mmu m).then fun _ => quiet_token.bind fun _ => quiet_token

theorem takes_pushImm : Takes mmu pushImm m (m.fields mmu (.imm (immS m.opcode))) :=
  takes_imm <| quiet_token.seq fun _ _ _ => (fetches_fetchS mmu _).then fun _ => quiet_immediateV _

theorem takes_enter : Takes mmu enter m (m.fields mmu (.imm .wb)) :=
  takes_imm <| (fetches_fetchWord mmu m).bind fun _ _ _ => (fetches_fetchByte mmu _).then fun _ =>
    quiet_token.bind fun _ => quiet_token.bind fun _ => quiet_token.bind fun _ => quiet_token

theorem takes_xchgAccumReg : Takes mmu xchgAccumReg m (m.fields mmu planNone) :=
  takes_quiet <| quiet_token.bind fun _ => quiet_state_bind fun _ => (quiet_regV _).bind fun _ =>
    quiet_token.bind fun _ => quiet_regV 0

theorem takes_jccShort : Takes mmu jccShort m (m.fields mmu (.imm .b)) :=
  takes_imm <| (fetches_fetchShort mmu m).then fun _ =>
    (quiet_state_bind fun _ => quiet_token).bind fun _ => quiet_token

theorem takes_jccLong : Takes mmu jccLong m (m.fields mmu (.imm .z)) :=
  takes_imm <| (fetches_fetchVSx mmu m).then fun _ => quiet_state_bind fun _ =>
    (quiet_state_bind fun _ => quiet_token).bind fun _ => quiet_token

/-- A word for both operand sizes. -/
theorem takes_jmpIntraDirect : Takes mmu jmpIntraDirect m (m.fields mmu (.imm .w)) :=
  takes_imm <| (fetches_fetchWord mmu m).then fun _ => quiet_state_bind fun _ =>
    quiet_token.bind fun _ => quiet_token

theorem takes_opcodeFar (text : Name) : Takes mmu (opcodeFar text) m (m.fields mmu (.imm .far)) :=
  takes_imm <| quiet_token.seq fun _ _ _ => (fetches_fetchV mmu _).bind fun _ _ _ =>
    (fetches_fetchWord mmu _).then fun _ =>
      quiet_token.bind fun _ => quiet_token.bind fun _ => quiet_immediateV _

theorem takes_jmpIntraDirectShort : Takes mmu jmpIntraDirectShort m (m.fields mmu (.imm .b)) :=
  takes_imm <| quiet_token.seq fun _ _ _ => (fetches_fetchShort mmu _).then fun _ => quiet_token

theorem takes_callIntraDirect : Takes mmu callIntraDirect m (m.fields mmu (.imm .z)) :=
  takes_imm <| quiet_token.seq fun _ _ _ => (fetches_fetchCall mmu _).then fun _ =>
    quiet_state_bind fun _ => quiet_token

theorem quiet_mnemonicV (text32 text16 : Name) : Quiet (mnemonicV text32 text16) :=
  quiet_state_bind fun _ => quiet_token

theorem takes_retAddImm (text32 text16 : Name) :
    Takes mmu (retAddImm text32 text16) m (m.fields mmu (.imm .w)) :=
  takes_imm <| (fetches_fetchWord mmu m).then fun _ =>
    (quiet_mnemonicV ..).bind fun _ => quiet_token

theorem takes_movRegImm : Takes mmu movRegImm m (m.fields mmu (.imm (immWreg m.opcode))) :=
  takes_imm <| quiet_token.seq fun _ _ _ => (fetches_fetchWreg mmu _).then fun _ =>
    (quiet_state_bind fun _ => quiet_ite (quiet_regV _) quiet_token).bind fun _ =>
      quiet_token.bind fun _ => quiet_state_bind fun _ => quiet_token

theorem quiet_memOffset (offset : U32) : Quiet (memOffset offset) :=
  quiet_state_bind fun _ => quiet_token.bind fun _ => quiet_token.bind fun _ =>
    quiet_token.bind fun _ => quiet_token.bind fun _ => quiet_token

theorem takes_movAccumMem : Takes mmu movAccumMem m (m.fields mmu (.imm .moffs)) :=
  takes_imm <| (fetches_fetchOffset mmu m).then fun _ => quiet_token.bind fun _ =>
    quiet_state_bind fun _ => quiet_ite
      ((quiet_memOffset _).bind fun _ => quiet_token.bind fun _ => quiet_regW 0)
      ((quiet_regW 0).bind fun _ => quiet_token.bind fun _ => quiet_memOffset _)

theorem quiet_segPrefixToken (showDs : Bool) : Quiet (segPrefixToken showDs) :=
  quiet_state_bind fun _ => quiet_ite quiet_token (quiet_pure _)

theorem quiet_repToken (textZ textNz : Name) : Quiet (repToken textZ textNz) :=
  quiet_state_bind fun _ => quiet_ite quiet_token (quiet_pure _)

theorem quiet_stringToken (textD textW textB : Name) : Quiet (stringToken textD textW textB) :=
  quiet_state_bind fun _ => quiet_token

/-- A string instruction with its two prefixes. -/
theorem takes_string (showDs : Bool) (textZ textNz textD textW textB : Name) :
    Takes mmu (do segPrefixToken showDs; repToken textZ textNz; stringToken textD textW textB) m
      (m.fields mmu planNone) :=
  takes_quiet <| (quiet_segPrefixToken _).bind fun _ => (quiet_repToken ..).bind fun _ =>
    quiet_stringToken ..

theorem takes_scas : Takes mmu scas m (m.fields mmu planNone) :=
  takes_quiet <| (quiet_repToken ..).bind fun _ => quiet_stringToken ..

theorem takes_xlat : Takes mmu xlat m (m.fields mmu planNone) :=
  takes_quiet <| (quiet_segPrefixToken _).bind fun _ => quiet_token

theorem takes_inAccumImm : Takes mmu inAccumImm m (m.fields mmu (.imm .b)) :=
  takes_imm <| (fetches_fetchByteZx mmu m).then fun _ => quiet_token.bind fun _ =>
    (quiet_regW 0).bind fun _ => quiet_token.bind fun _ => quiet_token

theorem takes_outAccumImm : Takes mmu outAccumImm m (m.fields mmu (.imm .b)) :=
  takes_imm <| (fetches_fetchByteZx mmu m).then fun _ => quiet_token.bind fun _ =>
    quiet_token.bind fun _ => quiet_token.bind fun _ => quiet_regW 0

theorem takes_inAccumDx : Takes mmu inAccumDx m (m.fields mmu planNone) :=
  takes_quiet <| quiet_token.bind fun _ => (quiet_regW 0).bind fun _ =>
    quiet_token.bind fun _ => quiet_token

theorem takes_outAccumDx : Takes mmu outAccumDx m (m.fields mmu planNone) :=
  takes_quiet <| quiet_token.bind fun _ => quiet_token.bind fun _ =>
    quiet_token.bind fun _ => quiet_regW 0

theorem takes_int (h : m.opcode &&& 0x1 ≠ 0) : Takes mmu int_ m (m.fields mmu (.imm .b)) := by
  have htype : Fetches mmu fetchType m (m.imm .b) :=
    fetches_state_bind <| fetches_ite (fun _ => fetches_fetchByteZx mmu m) fun h' => absurd h h'
  exact takes_imm <| htype.then fun _ => quiet_token.bind fun _ => quiet_token

/-- The operand that is printed without a fetch of the ModR/M byte. -/
theorem disp_of_modrm_zero (hz : m.modrm = 0) : m.disp = [] := by
  rw [Mnem.disp, dispFields, hz]
  cases m.addr32 <;> rfl

theorem fetches_doubleShiftOperands (mmu : Mmu) (m : Mnem) :
    Fetches mmu doubleShiftOperands m m.disp :=
  fetches_state_bind <| fetches_ite
    (fun _ => (fetches_modrmGetToken ..).then fun _ => quiet_token.bind fun _ => quiet_token)
    fun _ => (fetches_modrmGetToken ..).then fun _ => quiet_token.bind fun _ => quiet_token

theorem takes_doubleShiftCl (hz : m.modrm = 0) (text : Name) :
    Takes mmu (doubleShiftCl text) m (m.fields mmu planNone) := by
  have h : Fetches mmu (doubleShiftCl text) m m.disp :=
    quiet_token.seq fun _ _ _ => (fetches_doubleShiftOperands ..).then fun _ =>
      quiet_token.bind fun _ => quiet_token
  rw [disp_of_modrm_zero hz] at h
  exact h.takes

theorem takes_imulRegRm (hz : m.modrm = 0) :
    Takes mmu imulRegRm m (m.fields mmu planNone) := by
  have h : Fetches mmu imulRegRm m m.disp :=
    quiet_token.seq fun _ _ _ => fetches_state_bind <| (quiet_regV _).seq fun _ _ _ =>
      quiet_token.seq fun _ _ _ => fetches_modrmGetTokenV ..
  rw [disp_of_modrm_zero hz] at h
  exact h.takes

/-! ## Handlers with a ModR/M byte -/

theorem takes_opcodeRmReg (text : Name) : Takes mmu (opcodeRmReg text) m (m.fields mmu planRm) :=
  takes_rm_disp fun _ => quiet_token.seq fun _ _ _ => quiet_token.seq fun _ _ _ =>
    fetches_state_bind <| fetches_ite
      (fun _ => (fetches_modrmGetTokenW ..).then fun _ => quiet_token.bind fun _ => quiet_regW _)
      fun _ => (quiet_regW _).seq fun _ _ _ => quiet_token.seq fun _ _ _ => fetches_modrmGetTokenW ..

theorem takes_opcodeRegRm (text : Name) : Takes mmu (opcodeRegRm text) m (m.fields mmu planRm) :=
  takes_rm_disp fun _ => quiet_token.seq fun _ _ _ => fetches_state_bind <|
    (quiet_regV _).seq fun _ _ _ => quiet_token.seq fun _ _ _ => fetches_modrmGetTokenV ..

theorem takes_opcodeBit (text : Name) : Takes mmu (opcodeBit text) m (m.fields mmu planRm) :=
  takes_rm_disp fun _ => quiet_token.seq fun _ _ _ => (fetches_modrmGetTokenV ..).then fun _ =>
    quiet_state_bind fun _ => quiet_regV _

theorem takes_opcodeMovSpecial (type : TokenType) (names : List Name) :
    Takes mmu (opcodeMovSpecial type names) m (m.fields mmu (.rm .none false .none)) :=
  takes_rm_none <| quiet_token.bind fun _ => quiet_state_bind fun _ => quiet_ite
    (quiet_token.bind fun _ => quiet_token.bind fun _ => quiet_token)
    (quiet_token.bind fun _ => quiet_token.bind fun _ => quiet_token)

theorem takes_opcodeMovx (text : Name) : Takes mmu (opcodeMovx text) m (m.fields mmu planRm) :=
  takes_rm_disp fun _ => quiet_token.seq fun _ _ _ => fetches_state_bind <|
    (quiet_regV _).seq fun _ _ _ => quiet_token.seq fun _ _ _ =>
      fetches_ite (fun _ => fetches_modrmGetToken ..) fun _ => fetches_modrmGetToken ..

theorem takes_popRm : Takes mmu popRm m (m.fields mmu planRm) :=
  takes_rm_disp fun _ => quiet_token.seq fun _ _ _ => fetches_modrmGetTokenV ..

theorem takes_xchgRmReg : Takes mmu xchgRmReg m (m.fields mmu planRm) :=
  takes_rm_disp fun _ => quiet_token.seq fun _ _ _ => fetches_state_bind <|
    (quiet_regW _).seq fun _ _ _ => quiet_token.seq fun _ _ _ => fetches_modrmGetTokenW ..

theorem takes_doubleShiftImm (text : Name) :
    Takes mmu (doubleShiftImm text) m (m.fields mmu (.rm .none true .b)) :=
  takes_rm_post fun _ _ => quiet_token.seq fun _ _ _ =>
    (fetches_doubleShiftOperands ..).bind fun _ _ _ => quiet_token.seq fun _ _ _ =>
      (fetches_fetchByteZx ..).then fun _ => quiet_token

theorem takes_movRmImm :
    Takes mmu movRmImm m (m.fields mmu (.rm .none true (immW m.opcode))) :=
  takes_rm_post fun _ h => quiet_token.seq fun _ _ _ => (fetches_modrmGetToken ..).bind fun _ _ _ =>
    quiet_token.seq fun _ _ _ => h ▸ (fetches_fetchW ..).then fun _ => quiet_immediateW _

theorem takes_movRmReg : Takes mmu movRmReg m (m.fields mmu planRm) :=
  takes_rm_disp fun _ => quiet_token.seq fun _ _ _ => fetches_state_bind <| fetches_ite
    (fun _ => (quiet_regW _).seq fun _ _ _ => quiet_token.seq fun _ _ _ => fetches_modrmGetToken ..)
    fun _ => (fetches_modrmGetToken ..).then fun _ => quiet_token.bind fun _ => quiet_regW _

theorem takes_movSeg : Takes mmu movSeg m (m.fields mmu planRm) :=
  takes_rm_disp fun _ => fetches_state_bind <| quiet_token.seq fun _ _ _ => fetches_ite
    (fun _ => quiet_token.seq fun _ _ _ => quiet_token.seq fun _ _ _ => fetches_modrmGetToken ..)
    fun _ => (fetches_modrmGetToken ..).then fun _ => quiet_token.bind fun _ => quiet_token

theorem takes_imulRegRmImm :
    Takes mmu imulRegRmImm m (m.fields mmu (.rm (immS m.opcode) true .none)) :=
  takes_rm_pre fun _ h => (h ▸ fetches_fetchS ..).bind fun _ _ _ => quiet_token.seq fun _ _ _ =>
    fetches_state_bind <| (quiet_regV _).seq fun _ _ _ => quiet_token.seq fun _ _ _ =>
      (fetches_modrmGetTokenV ..).then fun _ => quiet_token.bind fun _ => quiet_immediateV _

theorem takes_esc : Takes mmu esc m (m.fields mmu planRm) :=
  takes_rm_disp fun _ => quiet_token.seq fun _ _ _ => fetches_modrmGetToken ..

/-! ## Groups -/

theorem fetches_opcode80 (text : Name) (mmu : Mmu) (m : Mnem) :
    Fetches mmu (opcode80 text) m (m.imm (imm80 m.opcode) ++ m.disp) :=
  (fetches_fetch80 mmu m).bind fun _ _ _ => quiet_token.seq fun _ _ _ =>
    (fetches_modrmGetTokenW ..).then fun _ => quiet_token.bind fun _ => quiet_immediateW _

theorem fetches_opcodeShiftRmCl (text : Name) (mmu : Mmu) (m : Mnem) :
    Fetches mmu (opcodeShiftRmCl text) m m.disp :=
  quiet_token.seq fun _ _ _ => (fetches_modrmGetTokenW ..).then fun _ => quiet_token.bind fun _ =>
    quiet_state_bind fun _ => quiet_ite quiet_token quiet_token

theorem fetches_opcodeShiftRmImm (text : Name) (mmu : Mmu) (m : Mnem) :
    Fetches mmu (opcodeShiftRmImm text) m (m.imm .b ++ m.disp) :=
  (fetches_fetchByteZx mmu m).bind fun _ _ _ => quiet_token.seq fun _ _ _ =>
    (fetches_modrmGetTokenW ..).then fun _ => quiet_token.bind fun _ => quiet_token

theorem fetches_testRmImm (mmu : Mmu) (m : Mnem) :
    Fetches mmu testRmImm m (m.imm (immW m.opcode) ++ m.disp) :=
  quiet_token.seq fun _ _ _ => (fetches_fetchW mmu _).bind fun _ _ _ =>
    (fetches_modrmGetTokenW ..).then fun _ => quiet_token.bind fun _ => quiet_immediateW _

theorem fetches_opcodeRm (text : Name) (mmu : Mmu) (m : Mnem) :
    Fetches mmu (opcodeRm text) m m.disp :=
  quiet_token.seq fun _ _ _ => fetches_modrmGetTokenW ..

theorem fetches_opcodeRmV (text : Name) (mmu : Mmu) (m : Mnem) :
    Fetches mmu (opcodeRmV text) m m.disp :=
  quiet_token.seq fun _ _ _ => fetches_modrmGetTokenV ..

theorem fetches_jmpInterIndirect (mmu : Mmu) (m : Mnem) :
    Fetches mmu jmpInterIndirect m m.disp :=
  fetches_state_bind <| quiet_token.seq fun _ _ _ => quiet_token.seq fun _ _ _ =>
    quiet_token.seq fun _ _ _ => fetches_modrmGetTokenV ..

theorem fetches_callInterIndirect (mmu : Mmu) (m : Mnem) :
    Fetches mmu callInterIndirect m m.disp :=
  fetches_state_bind <| quiet_token.seq fun _ _ _ => quiet_token.seq fun _ _ _ =>
    quiet_token.seq fun _ _ _ => fetches_modrmGetTokenV ..

theorem fetches_opcodeTable (text : Name) (mmu : Mmu) (m : Mnem) :
    Fetches mmu (opcodeTable text) m m.disp :=
  quiet_token.seq fun _ _ _ => (fetches_getModrmToken ..).call

theorem reg_lt (m : Mnem) : m.reg < 8 := Nat.mod_lt _ (by omega)

/-- Eight cases that differ in their mnemonic. -/
theorem fetches_byReg {g : Name → Dec Unit} (names : List Name) (h8 : names.length = 8)
    (h : ∀ text, Fetches mmu (g text) m p) : Fetches mmu (byReg (names.map g)) m p := by
  refine fetches_state_bind ?_
  have hr : m.reg < (names.map g).length := by rw [List.length_map, h8]; exact reg_lt m
  rw [List.getD_eq_getElem _ _ hr, List.getElem_map]
  exact h _

/-- Cases that differ in what they fetch. -/
theorem takes_group {cases : List (Dec Unit)} {l : List (Imm × Bool)}
    (h : ∀ m', m'.opcode = m.opcode → List.Forall₂ (fun x e =>
      Fetches mmu x m' (m'.imm e.1 ++ if e.2 then m'.disp else [])) cases l) :
    Takes mmu (do fetchModrm; byReg cases) m (m.fields mmu (.group l)) := by
  refine takes_fetchModrm_bind fun m' hm => ?_
  have hcases : ∀ r, Fetches mmu (cases.getD r (pure ())) m' (m'.imm (l.getD r (.none, false)).1
      ++ if (l.getD r (.none, false)).2 then m'.disp else []) := by
    intro r
    have hl := h m' hm.opcode
    clear h
    induction hl generalizing r with
    | nil => exact (quiet_pure ()).fetches mmu m'
    | cons hx _ ih =>
        cases r with
        | zero => exact hx
        | succ r => exact ih r
  have h' := (fetches_state_bind (hcases m'.reg) : Fetches mmu (byReg cases) m' _).takes
  rwa [hm.imm, hm.disp, show m'.reg = mid3 (byteAt mmu m 0) from congrArg mid3 hm.modrm] at h'

theorem takes_decodeOpcode80 :
    Takes mmu decodeOpcode80 m (m.fields mmu (.rm (imm80 m.opcode) true .none)) :=
  takes_rm_pre fun m' h => h ▸ fetches_byReg [name "add", name "or", name "adc", name "sbb",
    name "and", name "sub", name "xor", name "cmp"] rfl fun text => fetches_opcode80 text mmu m'

theorem takes_decodeOpcodeC0 :
    Takes mmu decodeOpcodeC0 m (m.fields mmu (.rm .b true .none)) :=
  takes_rm_pre fun m' _ => fetches_byReg [name "rol", name "ror", name "rcl", name "rcr",
    name "shl", name "shr", name "sal", name "sar"] rfl fun text => fetches_opcodeShiftRmImm text mmu m'

theorem takes_decodeOpcodeD0 : Takes mmu decodeOpcodeD0 m (m.fields mmu planRm) :=
  takes_rm_disp fun m' => fetches_byReg [name "rol", name "ror", name "rcl", name "rcr",
    name "shl", name "shr", name "sal", name "sar"] rfl fun text => fetches_opcodeShiftRmCl text mmu m'

/-- A case with the operand alone, and a case with nothing. -/
abbrev withOperand : Imm × Bool := (.none, true)

abbrev withNothing : Imm × Bool := (.none, false)

def groupF6 (opcode : U8) : List (Imm × Bool) :=
  [(immW opcode, true), withNothing, withOperand, withOperand, withOperand, withOperand,
    withOperand, withOperand]

def groupFe : List (Imm × Bool) :=
  [withOperand, withOperand, withNothing, withNothing, withNothing, withNothing, withNothing,
    withNothing]

def groupFf : List (Imm × Bool) :=
  [withOperand, withOperand, withOperand, withOperand, withOperand, withOperand, withOperand,
    withNothing]

def group0f00 : List (Imm × Bool) :=
  [withOperand, withNothing, withOperand, withNothing, withNothing, withNothing]

def group0f01 : List (Imm × Bool) :=
  [withOperand, withOperand, withOperand, withOperand, withNothing, withNothing, withNothing,
    withNothing]

theorem takes_decodeOpcodeF6 :
    Takes mmu decodeOpcodeF6 m (m.fields mmu (.group (groupF6 m.opcode))) :=
  takes_group fun m' h => .cons (h ▸ fetches_testRmImm mmu m') <|
    .cons ((quiet_pure ()).fetches mmu m') <|
    .cons (fetches_opcodeRm _ mmu m') <| .cons (fetches_opcodeRm _ mmu m') <|
    .cons (fetches_opcodeRm _ mmu m') <| .cons (fetches_opcodeRm _ mmu m') <|
    .cons (fetches_opcodeRm _ mmu m') <| .cons (fetches_opcodeRm _ mmu m') .nil

theorem takes_decodeOpcodeFe : Takes mmu decodeOpcodeFe m (m.fields mmu (.group groupFe)) := by
  refine takes_group fun m' _ => ?_
  have hbad := (quiet_pure ()).fetches mmu m'
  exact .cons (fetches_opcodeRm _ mmu m') <| .cons (fetches_opcodeRm _ mmu m') <|
    .cons hbad <| .cons hbad <| .cons hbad <| .cons hbad <| .cons hbad <| .cons hbad .nil

theorem takes_decodeOpcodeFf : Takes mmu decodeOpcodeFf m (m.fields mmu (.group groupFf)) :=
  takes_group fun m' _ => .cons (fetches_opcodeRm _ mmu m') <| .cons (fetches_opcodeRm _ mmu m') <|
    .cons (fetches_opcodeRmV _ mmu m') <| .cons (fetches_callInterIndirect mmu m') <|
    .cons (fetches_opcodeRmV _ mmu m') <| .cons (fetches_jmpInterIndirect mmu m') <|
    .cons (fetches_opcodeRmV _ mmu m') <| .cons ((quiet_pure ()).fetches mmu m') .nil

theorem takes_decodeOpcode0f00 :
    Takes mmu decodeOpcode0f00 m (m.fields mmu (.group group0f00)) := by
  refine takes_group fun m' _ => ?_
  have hnone (text : Name) := (quiet_token.fetches mmu m' : Fetches mmu (mnemonic text) m' [])
  exact .cons (fetches_opcodeTable _ mmu m') <| .cons (hnone _) <|
    .cons (fetches_opcodeTable _ mmu m') <| .cons (hnone _) <| .cons (hnone _) <|
    .cons (hnone _) .nil

theorem takes_decodeOpcode0f01 :
    Takes mmu decodeOpcode0f01 m (m.fields mmu (.group group0f01)) := by
  refine takes_group fun m' _ => ?_
  have hnone (text : Name) := (quiet_token.fetches mmu m' : Fetches mmu (mnemonic text) m' [])
  have hbad := (quiet_pure ()).fetches mmu m'
  exact .cons (fetches_opcodeTable _ mmu m') <| .cons (fetches_opcodeTable _ mmu m') <|
    .cons (fetches_opcodeTable _ mmu m') <| .cons (fetches_opcodeTable _ mmu m') <|
    .cons (hnone _) <| .cons hbad <| .cons (hnone _) <| .cons hbad .nil

end Tomk.Disasm
