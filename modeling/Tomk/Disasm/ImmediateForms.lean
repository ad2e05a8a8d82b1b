/-
# The forms with an immediate operand

The handlers one after the other, each with the condition under which its immediate is right,
and then all opcodes that have one (`mnemDecode_immediates_iff`).  For a handler without a ModR/M
byte the bytes are always there, and its condition is about sizes alone.
-/
import Tomk.Disasm.Immediates

namespace Tomk.Disasm

open Early I386

variable {mmu : Mmu} {addr : U32} {ins : Instruction} {m : Mnem} {n c k : Nat} {m0 : Mnem}

/-! ## The handlers with a ModR/M byte -/

theorem immediates_comma_imm (size : Nat) (inside : Bool) (v : U32) :
    immediates inside [commaToken, immToken v size]
      = [(inside, size, (id v).toNat % 256 ^ size)] := rfl

theorem operands_length_two (hmodrm : ins.form.hasModrm = true) (hpos : 0 < (immBytes ins).length) :
    1 < ins.operands.length := by
  have hlen := operands_length_split ins
  rw [length_immBytes] at hpos
  rw [dispAt, if_pos hmodrm] at hlen
  omega

theorem immBytes_pos (h : immKind ins ≠ .none) : 0 < (immBytes ins).length := by
  rw [length_immBytes]
  cases hkind : immKind ins with
  | none => exact absurd hkind h
  | b => exact Nat.one_pos
  | w => exact Nat.succ_pos 1
  | wb => exact Nat.succ_pos 2
  | z | far => cases ins.op32 <;> exact Nat.succ_pos _
  | moffs => cases ins.addr32 <;> exact Nat.succ_pos _

theorem length_immBytes_pos (h : immKind ins = .b ∨ immKind ins = .w ∨ immKind ins = .z) :
    0 < (immBytes ins).length := by
  refine immBytes_pos fun hnone => ?_
  rcases h with h | h | h <;> exact Imm.noConfusion (h.symm.trans hnone)

section

variable (hlies : Lies mmu addr ins.bytes) (hn : ins.prefixes.length < n)
  (hmodrm : ins.form.hasModrm = true)
include hlies hn hmodrm

theorem renders_imm_opcode80 (hop : 0x80 ≤ ins.opcode.toNat ∧ ins.opcode.toNat ≤ 0x83)
    (hkind : immKind ins = imm80 ins.opcode) (hs : signExtends ins = decide (ins.opcode.toNat = 0x83))
    (hearly : takesEarly ins = true) (hx : Handles ins decodeOpcode80) :
    Renders mmu addr n m0 (ImmediatesRight ins)
      ↔ (BySize ins → toggledOp32 ins = ins.op32) ∧ FieldsThere mmu addr ins := by
  have hkinds : immKind ins = .b ∨ immKind ins = .w ∨ immKind ins = .z := by
    rw [hkind, imm80, immS]
    split_ifs
    · exact Or.inl rfl
    · exact Or.inr (Or.inr rfl)
    · exact Or.inl rfl
  have htwo := operands_length_two hmodrm (length_immBytes_pos hkinds)
  obtain ⟨m, text, hm, hrun⟩ := mnemDecode_byReg (g := opcode80) [name "add", name "or",
    name "adc", name "sbb", name "and", name "sub", name "xor", name "cmp"] rfl hlies hn m0 hx
    (by omega) fun _ => htwo
  have hfetch := fetchesAt_fetch80 mmu m
  have hline : ∀ j v, RmLine mmu (do
      mnemonic text
      modrmGetTokenW
      comma
      immediateW v) (m.skip j) m.sizeW [mnemonicToken text] [commaToken, immToken v m.sizeW] :=
    fun j v => rmLine_immediateW text v mmu _
  have hw := hm.toInside.w
  obtain h | h | h : (ins.opcode.toNat = 0x80 ∨ ins.opcode.toNat = 0x82) ∨ ins.opcode.toNat = 0x81 ∨
      ins.opcode.toNat = 0x83 := by omega
  · rw [decide_eq_false (by omega)] at hw
    have h1 : m.sizeW = 1 := by rw [Mnem.sizeW, hw]; rfl
    have hs' : signExtends ins = false := by rw [hs, decide_eq_false (by omega)]
    have hb : immKind ins = .b := by
      rw [hkind, imm80, and_one_ne_zero_iff, decide_eq_false (by omega)]
      rfl
    simp only [hw, Bool.false_eq_true, if_false] at hfetch
    simp only [h1] at hline
    refine (renders_immediate_early (g := id) hrun hm hmodrm hearly hfetch.fieldAt (hline 1)
      (fun _ => by simp) rfl rfl (immediates_comma_imm 1) (immediateAt_plain hkinds hs' (by decide))).trans ?_
    exact and_congr_left' (sized_b hb hs')
  · rw [decide_eq_true (by omega)] at hw
    have hopcode : ins.opcode = 0x81 := BitVec.eq_of_toNat_eq h
    have hS : m.s = false := by rw [Mnem.s, hm.opcode, hopcode]; rfl
    have hV : m.sizeW = m.sizeV := by rw [Mnem.sizeW, hw]; rfl
    have hs' : signExtends ins = false := by rw [hs, decide_eq_false (by omega)]
    have hz : immKind ins = .z := by rw [hkind, hopcode]; rfl
    simp only [hw, hS, Bool.false_eq_true, if_true, if_false] at hfetch
    simp only [hV] at hline
    refine (renders_immediate_early (g := id) hrun hm hmodrm hearly hfetch.fieldAt (hline _)
      (fun _ => by simp) rfl rfl (immediates_comma_imm m.sizeV)
      (immediateAt_plain hkinds hs' (sizeV_le m))).trans ?_
    rw [hm.sizeV_eq]
    exact and_congr_left' (sized_z hz)
  · rw [decide_eq_true (by omega)] at hw
    have hopcode : ins.opcode = 0x83 := BitVec.eq_of_toNat_eq h
    have hS : m.s = true := by rw [Mnem.s, hm.opcode, hopcode]; rfl
    have hV : m.sizeW = m.sizeV := by rw [Mnem.sizeW, hw]; rfl
    have hs' : signExtends ins = true := by rw [hs, decide_eq_true h]
    have hb : immKind ins = .b := by rw [hkind, hopcode]; rfl
    simp only [hw, hS, if_true] at hfetch
    simp only [hV] at hline
    refine (renders_immediate_early (g := id) hrun hm hmodrm hearly hfetch.fieldAt (hline 1)
      (fun _ => by simp) rfl rfl (immediates_comma_imm m.sizeV) (immediateAt_signExtends hb hs' m)).trans ?_
    rw [hm.sizeV_eq]
    exact and_congr_left' (sized_signExtends hs')

theorem renders_imm_shift (hkind : immKind ins = .b) (hs : signExtends ins = false)
    (hearly : takesEarly ins = true) (hx : Handles ins decodeOpcodeC0) :
    Renders mmu addr n m0 (ImmediatesRight ins)
      ↔ (BySize ins → toggledOp32 ins = ins.op32) ∧ FieldsThere mmu addr ins := by
  have htwo := operands_length_two hmodrm (length_immBytes_pos (Or.inl hkind))
  obtain ⟨m, text, hm, hrun⟩ := mnemDecode_byReg (g := opcodeShiftRmImm) [name "rol", name "ror",
    name "rcl", name "rcr", name "shl", name "shr", name "sal", name "sar"] rfl hlies hn m0 hx
    (by omega) fun _ => htwo
  have hline : ∀ v, RmLine mmu (do
      mnemonic text
      modrmGetTokenW
      comma
      immediate v 1) (m.skip 1) m.sizeW [mnemonicToken text] [commaToken, immToken v 1] := fun v =>
    ((rmLine_modrmGetTokenW mmu (m.skip 1)).behind fun _ =>
      emits_comma.seq (emits_immediate v 1)).before (emits_mnemonic text)
  refine (renders_immediate_early (g := id) hrun hm hmodrm hearly
    (fetchesAt_fetchByteZx mmu m).fieldAt hline (fun _ => by simp) rfl rfl (immediates_comma_imm 1)
    (immediateAt_plain (Or.inl hkind) hs (by decide))).trans ?_
  exact and_congr_left' (sized_b hkind hs)

/-- The mnemonic is printed before the immediate is taken. -/
theorem renders_imm_test {cases : List (Dec Unit)}
    (hkind : immKind ins = if ins.opcode.toNat % 2 = 1 then .z else .b)
    (hs : signExtends ins = false) (hearly : takesEarly ins = true)
    (hx : Handles ins (fetchModrm >>= fun _ => byReg cases))
    (hcase : cases.getD (mid3 ins.modrm) (pure ()) = testRmImm) :
    Renders mmu addr n m0 (ImmediatesRight ins)
      ↔ (BySize ins → toggledOp32 ins = ins.op32) ∧ FieldsThere mmu addr ins := by
  have htwo := operands_length_two hmodrm (length_immBytes_pos (kind_w hkind))
  obtain ⟨m, hm, hrun⟩ := mnemDecode_operand hlies hn m0 hx (by omega) fun _ => htwo
  have hby : byReg cases mmu m = testRmImm mmu m := by
    rw [← hcase, ← hm.reg]
    rfl
  replace hrun := hrun.trans (congrArg (Option.map fun r => (true, r.2)) hby)
  have hline : ∀ v, RmLine mmu (do
      modrmGetTokenW
      comma
      immediateW v) (m.skip m.sizeW) m.sizeW [] [commaToken, immToken v m.sizeW] := fun v =>
    (rmLine_modrmGetTokenW mmu (m.skip m.sizeW)).behind fun _ =>
      emits_comma.seq (emits_immediateW v)
  rw [testRmImm, ← bind_assoc] at hrun
  refine (renders_immediate_early (g := id) hrun hm hmodrm hearly
    ((fetchesAt_fetchW mmu m).fieldAt.before (emits_mnemonic _)) hline (fun _ => by simp) rfl rfl
    (immediates_comma_imm m.sizeW) (immediateAt_plain (kind_w hkind) hs (sizeW_le m))).trans ?_
  exact and_congr_left' (sized_w hm.toInside hkind hs)

theorem renders_imm_imul (hop : ins.opcode.toNat = 0x69 ∨ ins.opcode.toNat = 0x6B)
    (hkind : immKind ins = if ins.opcode.toNat = 0x69 then .z else .b)
    (hs : signExtends ins = decide (ins.opcode.toNat = 0x6B)) (hearly : takesEarly ins = true)
    (hx : Handles ins imulRegRmImm) : Renders mmu addr n m0 (ImmediatesRight ins)
      ↔ (BySize ins → toggledOp32 ins = ins.op32) ∧ FieldsThere mmu addr ins := by
  have hkinds : immKind ins = .b ∨ immKind ins = .w ∨ immKind ins = .z := by
    rw [hkind]
    split
    · exact Or.inr (Or.inr rfl)
    · exact Or.inl rfl
  have htwo := operands_length_two hmodrm (length_immBytes_pos hkinds)
  obtain ⟨m, hm, hrun⟩ := mnemDecode_operand hlies hn m0 hx (by omega) fun _ => htwo
  have hline : ∀ j v, RmLine mmu (do
      mnemonic (name "imul")
      let m ← state
      regV m.reg
      comma
      modrmGetTokenV
      comma
      immediateV v) (m.skip j) m.sizeV
        [mnemonicToken (name "imul"), regToken m.sizeV m.reg, commaToken]
        [commaToken, immToken v m.sizeV] := by
    refine fun j v => RmLine.before (rmLine_state_bind fun line => ?_) (emits_mnemonic _)
    refine RmLine.before (RmLine.before ?_ emits_comma) (emits_regV _)
    exact (rmLine_modrmGetTokenV mmu _).behind fun _ => emits_comma.seq (emits_immediateV v)
  have hfetch := fetchesAt_fetchS mmu m
  rcases hop with h | h
  · have hopcode : ins.opcode = 0x69 := BitVec.eq_of_toNat_eq h
    have hS : m.s = false := by rw [Mnem.s, hm.opcode, hopcode]; rfl
    have hs' : signExtends ins = false := by rw [hs, decide_eq_false (by omega)]
    rw [if_pos h] at hkind
    simp only [hS, Bool.false_eq_true, if_false] at hfetch
    refine (renders_immediate_early (g := id) hrun hm hmodrm hearly hfetch.fieldAt (hline _)
      (fun _ => by simp) rfl rfl (immediates_comma_imm m.sizeV)
      (immediateAt_plain hkinds hs' (sizeV_le m))).trans ?_
    rw [hm.sizeV_eq]
    exact and_congr_left' (sized_z hkind)
  · have hopcode : ins.opcode = 0x6B := BitVec.eq_of_toNat_eq h
    have hS : m.s = true := by rw [Mnem.s, hm.opcode, hopcode]; rfl
    have hs' : signExtends ins = true := by rw [hs, decide_eq_true h]
    rw [if_neg (by omega)] at hkind
    simp only [hS, if_true] at hfetch
    refine (renders_immediate_early (g := id) hrun hm hmodrm hearly hfetch.fieldAt (hline 1)
      (fun _ => by simp) rfl rfl (immediates_comma_imm m.sizeV) (immediateAt_signExtends hkind hs' m)).trans ?_
    rw [hm.sizeV_eq]
    exact and_congr_left' (sized_signExtends hs')

theorem renders_imm_mov (hkind : immKind ins = if ins.opcode.toNat % 2 = 1 then .z else .b)
    (hs : signExtends ins = false) (hlate : takesEarly ins = false) (hx : Handles ins movRmImm) :
    Renders mmu addr n m0 (ImmediatesRight ins)
      ↔ (BySize ins → toggledOp32 ins = ins.op32) ∧ FieldsThere mmu addr ins := by
  have htwo := operands_length_two hmodrm (length_immBytes_pos (kind_w hkind))
  obtain ⟨m, hm, hrun⟩ := mnemDecode_operand hlies hn m0 hx (by omega) fun _ => htwo
  have hlate' : mnemDecode n mmu addr m0 = (((do
      mnemonic (name "mov")
      modrmGetToken32
      comma) >>= fun _ => fetchW >>= immediateW) mmu m).map fun r => (true, r.2) := by
    rw [hrun, bind_assoc, bind_assoc]
  refine (renders_immediate_late (g := id) (u := fun v => [immToken v m.sizeW]) hlate' hm hmodrm hlate
    (rmLine_movRmImm (name "mov") mmu m) (fun j => fetchesAt_fetchW mmu (m.skip j))
    (fun j v => emits_immediateW v) (fun _ => by simp) rfl rfl (fun _ v => immediates_imm v m.sizeW)
    (immediateAt_plain (kind_w hkind) hs (sizeW_le m))).trans ?_
  exact and_congr_left' (sized_w hm.toInside hkind hs)

theorem renders_imm_doubleShift (hkind : immKind ins = .b) (hs : signExtends ins = false)
    (hlate : takesEarly ins = false) {text : Name} (hx : Handles ins (doubleShiftImm text)) :
    Renders mmu addr n m0 (ImmediatesRight ins)
      ↔ (BySize ins → toggledOp32 ins = ins.op32) ∧ FieldsThere mmu addr ins := by
  have htwo := operands_length_two hmodrm (length_immBytes_pos (Or.inl hkind))
  obtain ⟨m, hm, hrun⟩ := mnemDecode_operand hlies hn m0 hx (by omega) fun _ => htwo
  have hlate' : mnemDecode n mmu addr m0 = (((do
      mnemonic text
      doubleShiftOperands
      comma) >>= fun _ => fetchByteZx >>= (immediate · 1)) mmu m).map fun r => (true, r.2) := by
    rw [hrun, bind_assoc, bind_assoc]
  refine (renders_immediate_late (g := id) (u := fun v => [immToken v 1]) hlate' hm hmodrm hlate
    (rmLine_doubleShift text mmu m) (fun j => fetchesAt_fetchByteZx mmu (m.skip j))
    (fun j v => emits_immediate v 1) (fun _ => by simp) rfl rfl (fun _ v => immediates_imm v 1)
    (immediateAt_plain (Or.inl hkind) hs (by decide))).trans ?_
  exact and_congr_left' (sized_b hkind hs)

end

/-! ## The handlers without -/

theorem fetchesAt_fetchWreg (mmu : Mmu) (m : Mnem) :
    FetchesAt mmu fetchWreg m m.sizeWreg number32 := by
  refine fetchesAt_state_bind fun line => ?_
  refine (fetchesAt_ite (b := m.wreg) (fun _ => fetchesAt_fetchV mmu m)
    fun _ => fetchesAt_fetchByteZx mmu m).congr fun bytes _ => ?_
  exact ite_self _

theorem emits_regWreg : Emits mmu regWreg m 0 [regToken m.sizeWreg m.opReg] () := by
  refine emits_state_bind fun line => emits_ite (fun h => ?_) fun h => ?_
  · rw [Mnem.sizeWreg, if_pos (show m.wreg = true from h)]
    exact emits_regV _
  · rw [Mnem.sizeWreg, if_neg (show ¬ m.wreg = true from h)]
    exact emits_reg8 _

theorem emits_colon : Emits mmu colon m 0 [colonToken] () := emits_token ..

theorem emits_enter {op1 : BitVec 16} {op2 : U8} (h1 : Emits mmu fetchWord m 2 [] op1)
    (h2 : Emits mmu fetchByte (m.skip 2) 1 [] op2) :
    Emits mmu enter m (2 + 1) [mnemonicToken (name "enter"), immToken (op1.setWidth 32) 2, commaToken,
      immToken (op2.setWidth 32) 1] () :=
  h1.bind <| h2.then <| (emits_mnemonic _).seq <| (emits_immediate ..).seq <| emits_comma.seq <|
    emits_immediate ..

theorem emits_opcodeFar (text : Name) {imm : U32} {imm2 : BitVec 16} {V : Nat}
    (h1 : Emits mmu fetchV m V [] imm) (h2 : Emits mmu fetchWord (m.skip V) 2 [] imm2) :
    Emits mmu (opcodeFar text) m (V + 2)
      [mnemonicToken text, immToken (imm2.setWidth 32) 2, colonToken, immToken imm m.sizeV] () :=
  (emits_mnemonic text).seq <| h1.bind <| h2.then <| (emits_immediate ..).seq <|
    emits_colon.seq <| emits_immediateV _

theorem emits_mnemonicV (text32 text16 : Name) : Emits mmu (mnemonicV text32 text16) m 0
    [mnemonicToken (if m.op32 then text32 else text16)] () :=
  emits_state_bind fun _ => emits_mnemonic _

section

variable (hlies : Lies mmu addr ins.bytes) (hn : ins.prefixes.length < n)
  (hmodrm : ins.form.hasModrm = false)
include hlies hn hmodrm

omit hlies hn hmodrm in
theorem low_byte_mod {v : U32} {sz : Nat} (hsz : 0 < sz) :
    ((v.setWidth 8).setWidth 32).toNat % 256 ^ sz = v.toNat % 256 := by
  have hle : 256 ^ 1 ≤ 256 ^ sz := Nat.pow_le_pow_right (by decide) hsz
  have hlt : v.toNat % 256 < 256 := Nat.mod_lt _ (by decide)
  rw [BitVec.toNat_setWidth, BitVec.toNat_setWidth, Nat.mod_eq_of_lt (a := v.toNat % 2 ^ 8) (by omega)]
  exact Nat.mod_eq_of_lt (by omega)

/-- The accumulator forms keep the low byte. -/
theorem renders_imm_accum (hkind : immKind ins = if ins.opcode.toNat % 2 = 1 then .z else .b)
    (hs : signExtends ins = false) {text : Name} (hx : Handles ins (opcodeAccumImm text)) :
    Renders mmu addr n m0 (ImmediatesRight ins)
      ↔ (BySize ins → toggledOp32 ins = ins.op32) ∧ littleEndian (immBytes ins) < 256 := by
  obtain ⟨m, hm, -, hrun⟩ := mnemDecode_handler hlies hn m0 hx
  have hplain := immediateAt_plain (k := m.sizeW) (kind_w hkind) hs (sizeW_le m)
  refine (renders_immediate (g := fun v => (v.setWidth 8).setWidth 32) hlies hrun hm hmodrm
    (fetchesAt_fetchW mmu m).fieldAt (fun v => (emits_mnemonic text).seq <| (emits_regW 0).seq <|
      emits_comma.seq <| emits_immediateW _) (fun _ => by simp) rfl (fun _ => rfl) hplain.spec
    (length_immBytes_pos (kind_w hkind)) hplain.length).trans ?_
  rw [← sized_w hm hkind hs]
  refine and_congr_right fun hsz => ?_
  have hpos := length_immBytes_pos (kind_w hkind)
  have hlt : littleEndian (immBytes ins) < 2 ^ 32 := by
    refine (littleEndian_lt _).trans_le (Nat.pow_le_pow_right (by decide) ?_)
    have h4 := sizeW_le m
    omega
  rw [low_byte_mod (by omega), number32, BitVec.toNat_ofNat, Nat.mod_eq_of_lt (b := 2 ^ 32) hlt]
  omega

theorem renders_imm_push (hop : ins.opcode.toNat = 0x68 ∨ ins.opcode.toNat = 0x6A)
    (hkind : immKind ins = if ins.opcode.toNat = 0x68 then .z else .b)
    (hs : signExtends ins = decide (ins.opcode.toNat = 0x6A)) (hx : Handles ins pushImm) :
    Renders mmu addr n m0 (ImmediatesRight ins)
      ↔ (BySize ins → toggledOp32 ins = ins.op32) := by
  obtain ⟨m, hm, -, hrun⟩ := mnemDecode_handler hlies hn m0 hx
  rw [pushImm, ← bind_assoc] at hrun
  have hfetch := fetchesAt_fetchS mmu m
  rcases hop with h | h
  · have hopcode : ins.opcode = 0x68 := BitVec.eq_of_toNat_eq h
    have hS : m.s = false := by rw [Mnem.s, hm.opcode, hopcode]; rfl
    have hs' : signExtends ins = false := by rw [hs, decide_eq_false (by omega)]
    rw [if_pos h] at hkind
    simp only [hS, Bool.false_eq_true, if_false] at hfetch
    rw [← sized_z hkind, ← hm.sizeV_eq]
    exact renders_immediate_at (g := id) (u := fun v => [immToken v m.sizeV]) hlies hrun hm hmodrm
      (hfetch.fieldAt.before (emits_mnemonic _)) (fun v => emits_immediateV v) (fun _ => by simp)
      rfl (fun v => immediates_imm v m.sizeV)
      (immediateAt_plain (Or.inr (Or.inr hkind)) hs' (sizeV_le m))
      (length_immBytes_pos (Or.inr (Or.inr hkind)))
  · have hopcode : ins.opcode = 0x6A := BitVec.eq_of_toNat_eq h
    have hS : m.s = true := by rw [Mnem.s, hm.opcode, hopcode]; rfl
    have hs' : signExtends ins = true := by rw [hs, decide_eq_true h]
    rw [if_neg (by omega)] at hkind
    simp only [hS, if_true] at hfetch
    rw [← sized_signExtends hs', ← hm.sizeV_eq]
    exact renders_immediate_at (g := id) (u := fun v => [immToken v m.sizeV]) hlies hrun hm hmodrm
      (hfetch.fieldAt.before (emits_mnemonic _)) (fun v => emits_immediateV v) (fun _ => by simp)
      rfl (fun v => immediates_imm v m.sizeV) (immediateAt_signExtends hkind hs' m)
      (length_immBytes_pos (Or.inl hkind))

/-- `mov` goes by bit 3 of its opcode. -/
theorem renders_imm_movReg (hkind : immKind ins = if ins.opcode &&& 0x8 != 0 then .z else .b)
    (hs : signExtends ins = false) (hx : Handles ins movRegImm) :
    Renders mmu addr n m0 (ImmediatesRight ins)
      ↔ (BySize ins → toggledOp32 ins = ins.op32) := by
  obtain ⟨m, hm, -, hrun⟩ := mnemDecode_handler hlies hn m0 hx
  rw [movRegImm, ← bind_assoc] at hrun
  have hkinds : immKind ins = .b ∨ immKind ins = .w ∨ immKind ins = .z := by
    split at hkind
    · exact Or.inr (Or.inr hkind)
    · exact Or.inl hkind
  have hsize : m.sizeWreg = if ins.opcode &&& 0x8 != 0 then sizeOp (toggledOp32 ins) else 1 := by
    rw [Mnem.sizeWreg, hm.sizeV_eq, Mnem.wreg, hm.opcode]
  have h4 : m.sizeWreg ≤ 4 := by
    rw [Mnem.sizeWreg]
    split
    · exact sizeV_le m
    · decide
  have hsized : m.sizeWreg = (immBytes ins).length ↔ (BySize ins → toggledOp32 ins = ins.op32) := by
    rw [hsize]
    cases hreg : ins.opcode &&& 0x8 != 0 with
    | true =>
        rw [hreg, if_pos rfl] at hkind
        rw [if_pos rfl, sized_z hkind]
    | false =>
        rw [hreg, if_neg Bool.false_ne_true] at hkind
        rw [if_neg Bool.false_ne_true, sized_b hkind hs]
  rw [← hsized]
  exact renders_immediate_at (g := id)
    (u := fun v => [regToken m.sizeWreg m.opReg, commaToken, immToken v m.sizeWreg]) hlies hrun hm hmodrm
    ((fetchesAt_fetchWreg mmu m).fieldAt.before (emits_mnemonic _))
    (fun v => emits_regWreg.seq <| emits_comma.seq <| emits_state_bind fun _ => emits_immediate v _)
    (fun _ => by simp) rfl (fun _ => rfl) (immediateAt_plain hkinds hs h4)
    (length_immBytes_pos hkinds)

theorem renders_imm_ret (hkind : immKind ins = .w) (hs : signExtends ins = false)
    {text32 text16 : Name} (hx : Handles ins (retAddImm text32 text16)) :
    Renders mmu addr n m0 (ImmediatesRight ins) := by
  obtain ⟨m, hm, -, hrun⟩ := mnemDecode_handler hlies hn m0 hx
  have htwo : (immBytes ins).length = 2 := by
    rw [length_immBytes, hkind]
    rfl
  refine (renders_immediate_at (k := 2) (g := fun v => v.setWidth 32)
    (u := fun v => [mnemonicToken (if m.op32 then text32 else text16), immToken (v.setWidth 32) 2])
    hlies hrun hm hmodrm
    (fetchesAt_fetchWord mmu m).fieldAt
    (fun v => (emits_mnemonicV text32 text16).seq (emits_immediate _ 2))
    (fun _ => by simp) rfl (fun _ => rfl)
    ((immediateAt_plain (Or.inr (Or.inl hkind)) hs (by decide)).congr fun field hlen => ?_)
    (by omega)).mpr htwo.symm
  rw [setWidth_littleEndian (by omega) (by decide)]
  rfl

/-- `aam` and `aad`. -/
theorem renders_imm_adjust (hkind : immKind ins = .b) (hs : signExtends ins = false) {text : Name}
    (hx : Handles ins (opcodeAdjust text)) : Renders mmu addr n m0 (ImmediatesRight ins) := by
  obtain ⟨m, hm, -, hrun⟩ := mnemDecode_handler hlies hn m0 hx
  exact (renders_immediate_at (g := id) (u := fun v => [mnemonicToken text, immToken v 1])
    hlies hrun hm hmodrm (fetchesAt_fetchByteZx mmu m).fieldAt
    (fun v => (emits_mnemonic text).seq (emits_immediate v 1)) (fun _ => by simp) rfl (fun _ => rfl)
    (immediateAt_plain (Or.inl hkind) hs (by decide)) (length_immBytes_pos (Or.inl hkind))).mpr
    (length_immBytes_b hkind).symm

theorem renders_imm_in (hkind : immKind ins = .b) (hs : signExtends ins = false)
    (hx : Handles ins inAccumImm) : Renders mmu addr n m0 (ImmediatesRight ins) := by
  obtain ⟨m, hm, -, hrun⟩ := mnemDecode_handler hlies hn m0 hx
  exact (renders_immediate_at (g := id)
    (u := fun v => [mnemonicToken (name "in"), regToken m.sizeW 0, commaToken, immToken v 1])
    hlies hrun hm hmodrm (fetchesAt_fetchByteZx mmu m).fieldAt
    (fun v => (emits_mnemonic _).seq <| (emits_regW 0).seq <| emits_comma.seq (emits_immediate v 1))
    (fun _ => by simp) rfl (fun _ => rfl) (immediateAt_plain (Or.inl hkind) hs (by decide))
    (length_immBytes_pos (Or.inl hkind))).mpr (length_immBytes_b hkind).symm

theorem renders_imm_out (hkind : immKind ins = .b) (hs : signExtends ins = false)
    (hx : Handles ins outAccumImm) : Renders mmu addr n m0 (ImmediatesRight ins) := by
  obtain ⟨m, hm, -, hrun⟩ := mnemDecode_handler hlies hn m0 hx
  exact (renders_immediate_at (g := id)
    (u := fun v => [mnemonicToken (name "out"), immToken v 1, commaToken, regToken m.sizeW 0])
    hlies hrun hm hmodrm (fetchesAt_fetchByteZx mmu m).fieldAt
    (fun v => (emits_mnemonic _).seq <| (emits_immediate v 1).seq <| emits_comma.seq (emits_regW 0))
    (fun _ => by simp) rfl (fun _ => rfl) (immediateAt_plain (Or.inl hkind) hs (by decide))
    (length_immBytes_pos (Or.inl hkind))).mpr (length_immBytes_b hkind).symm

/-- The type of an interrupt is a number, and no immediate. -/
theorem not_renders_imm_int (hop : ins.opcode.toNat % 2 = 1) (hkind : immKind ins = .b)
    (hs : signExtends ins = false) (hx : Handles ins int_) :
    ¬ Renders mmu addr n m0 (ImmediatesRight ins) := by
  obtain ⟨m, hm, -, hrun⟩ := mnemDecode_handler hlies hn m0 hx
  obtain ⟨hdisp, himm⟩ := bytes_of_noModrm hmodrm
  have hspec := (immediateAt_plain (k := 1) (Or.inl hkind) hs (by decide)).spec
  have hone := length_immBytes_b hkind
  have hreads : Reads mmu m.eip (immBytes ins) := by
    rw [himm] at hone ⊢
    exact (hm.here hlies).lies.reads (by omega)
  have hodd : m.opcode &&& 0x1 ≠ 0 := by
    have h := and_one_ne_zero_iff ins.opcode
    rw [decide_eq_true hop] at h
    rw [hm.opcode]
    simpa using h
  have hfetch : Emits mmu fetchType m 1 [] (number32 (immBytes ins)) := by
    refine emits_state_bind fun line => ?_
    rw [if_pos (show Mnem.opcode { m with line := line } &&& 0x1 ≠ 0 from hodd)]
    exact (fetchesAt_fetchByteZx mmu m).emits _ hone hreads
  have hemits := hfetch.then (f := fun v => do
    mnemonic (name "int")
    number v 1) ((emits_mnemonic (name "int")).seq (emits_token ..))
  rw [int_] at hrun
  rw [renders_iff hrun hm hemits (by simp), immediatesRight_iff, hspec, hdisp]
  exact (List.cons_ne_nil _ _).symm

omit hn in
/-- The immediate in two parts. -/
theorem immBytes_reads (hm : Inside addr ins (fieldsAt ins) m) {j : Nat} (hpos : 0 < j)
    (hj : j < (immBytes ins).length) : Reads mmu m.eip ((immBytes ins).take j) ∧
      Reads mmu (m.skip j).eip ((immBytes ins).drop j) := by
  have hhere := hm.here hlies
  rw [← (bytes_of_noModrm hmodrm).2, ← List.take_append_drop j (immBytes ins)] at hhere
  have htake : ((immBytes ins).take j).length = j := by rw [List.length_take]; omega
  have hright := hhere.right
  rw [htake, ← List.append_nil ((immBytes ins).drop j)] at hright
  exact ⟨hhere.reads (by omega), hright.reads (by rw [List.length_drop]; omega)⟩

/-- Both operands of `enter` have a fixed size. -/
theorem renders_imm_enter (hkind : immKind ins = .wb) (hx : Handles ins enter) :
    Renders mmu addr n m0 (ImmediatesRight ins) := by
  obtain ⟨m, hm, -, hrun⟩ := mnemDecode_handler hlies hn m0 hx
  obtain ⟨hdisp, himm⟩ := bytes_of_noModrm hmodrm
  have hthree : (immBytes ins).length = 3 := by
    rw [length_immBytes, hkind]
    rfl
  have hspec : immOperands ins = [(false, 2, littleEndian ((immBytes ins).take 2)),
      (false, 1, littleEndian ((immBytes ins).drop 2))] := by
    rw [immOperands, if_pos hkind]
  have hword : ((immBytes ins).take 2).length = 2 := by rw [List.length_take]; omega
  have hbyte : ((immBytes ins).drop 2).length = 1 := by rw [List.length_drop]; omega
  have hreads := immBytes_reads hlies hmodrm hm (j := 2) (by omega) (by omega)
  have hemits := emits_enter ((fetchesAt_fetchWord mmu m).emits _ hword hreads.1)
    ((fetchesAt_fetchByte mmu (m.skip 2)).emits _ hbyte hreads.2)
  have htokens : ∀ v v' : U32, immediates false
      [mnemonicToken (name "enter"), immToken v 2, commaToken, immToken v' 1] =
        [(false, 2, v.toNat % 256 ^ 2), (false, 1, v'.toNat % 256 ^ 1)] := fun _ _ => rfl
  rw [renders_iff hrun hm hemits (by simp), immediatesRight_iff, hspec, hdisp, htokens,
    setWidth_littleEndian (by omega) (by decide), setWidth_littleEndian (by omega) (by decide),
    ← number32, ← number32, number32_mod hword (by decide), number32_mod hbyte (by decide)]
  rfl

theorem renders_imm_far (hkind : immKind ins = .far) {text : Name} (hx : Handles ins (opcodeFar text)) :
    Renders mmu addr n m0 (ImmediatesRight ins) ↔ (BySize ins → toggledOp32 ins = ins.op32) := by
  obtain ⟨m, hm, -, hrun⟩ := mnemDecode_handler hlies hn m0 hx
  obtain ⟨hdisp, -⟩ := bytes_of_noModrm hmodrm
  have hlen : (immBytes ins).length = sizeOp ins.op32 + 2 := by
    rw [length_immBytes, hkind]
    cases ins.op32 <;> rfl
  have hspec : immOperands ins = [(false, 2, littleEndian ((immBytes ins).drop (sizeOp ins.op32))),
      (false, sizeOp ins.op32, littleEndian ((immBytes ins).take (sizeOp ins.op32)))] := by
    rw [immOperands, hkind, if_neg (by decide), if_pos rfl]
  have hsized : (BySize ins → toggledOp32 ins = ins.op32) ↔ m.sizeV = sizeOp ins.op32 := by
    rw [hm.sizeV_eq, sizeOp_inj]
    exact ⟨fun h => h (Or.inr (Or.inl hkind)), fun h _ => h⟩
  have hVpos : 0 < m.sizeV := by
    rw [Mnem.sizeV]
    split <;> decide
  have hoffset : ((immBytes ins).take (sizeOp ins.op32)).length = sizeOp ins.op32 := by
    rw [List.length_take]
    omega
  have hselector : ((immBytes ins).drop (sizeOp ins.op32)).length = 2 := by
    rw [List.length_drop]
    omega
  have hnone : ∀ toks : List Token, toks.all isPlain = true →
      ¬ ImmediatesRight ins (lockTokens ins.prefixes ++ toks) := by
    intro toks hplain
    rw [immediatesRight_iff, ← List.append_nil toks, immediates_plain hplain, hspec, hdisp]
    exact (List.cons_ne_nil _ _).symm
  rw [hsized]
  by_cases hoff : ∃ off, off.length = m.sizeV ∧ Reads mmu m.eip off
  · obtain ⟨off, hoffLen, hoffReads⟩ := hoff
    have hfirst := (fetchesAt_fetchV mmu m).emits off hoffLen hoffReads
    by_cases hsel : ∃ sel, sel.length = 2 ∧ Reads mmu (m.skip m.sizeV).eip sel
    · obtain ⟨sel, hselLen, hselReads⟩ := hsel
      have hemits := emits_opcodeFar text hfirst
        ((fetchesAt_fetchWord mmu (m.skip m.sizeV)).emits sel hselLen hselReads)
      have htokens : ∀ (v v' : U32) (size : Nat), immediates false
          [mnemonicToken text, immToken v 2, colonToken, immToken v' size] =
            [(false, 2, v.toNat % 256 ^ 2), (false, size, v'.toNat % 256 ^ size)] := fun _ _ _ => rfl
      rw [renders_iff hrun hm hemits (by simp), immediatesRight_iff, hspec, hdisp, htokens,
        setWidth_littleEndian (by omega) (by decide), ← number32, number32_mod hselLen (by decide),
        number32_mod hoffLen (sizeV_le m)]
      constructor
      · intro h
        exact (Prod.mk.inj (Prod.mk.inj (List.cons.inj (List.cons.inj h).2).1).2).1
      · intro hV
        have hreads := immBytes_reads hlies hmodrm hm (j := m.sizeV) hVpos (by omega)
        have hoffEq := hoffReads.unique hreads.1 (by rw [hoffLen, hV, hoffset])
        have hselEq := hselReads.unique hreads.2 (by rw [hselLen, hV, hselector])
        rw [hoffEq, hselEq, hV]
        rfl
    · have hruns := (emits_mnemonic text).runs_seq (f := fun _ => do
        let imm ← fetchV
        let imm2 ← fetchWord
        immediate (imm2.setWidth 32) 2
        colon
        immediateV imm) (hfirst.runs.bind ((fetchesAt_fetchWord mmu (m.skip m.sizeV)).fails
          fun sel hlen hr => hsel ⟨sel, hlen, hr⟩).ret)
      refine iff_of_false (fun h => hnone _ rfl (h.of_runs hrun hm hruns (by simp))) fun hV => hsel ?_
      have hreads := immBytes_reads hlies hmodrm hm (j := m.sizeV) hVpos (by omega)
      exact ⟨_, by rw [hV, hselector], hreads.2⟩
  · have hruns := (emits_mnemonic text).runs_seq (f := fun _ => do
        let imm ← fetchV
        let imm2 ← fetchWord
        immediate (imm2.setWidth 32) 2
        colon
        immediateV imm) ((fetchesAt_fetchV mmu m).fails fun off hlen hr => hoff ⟨off, hlen, hr⟩).ret
    refine iff_of_false (fun h => hnone _ rfl (h.of_runs hrun hm hruns (by simp))) fun hV => hoff ?_
    have hreads := immBytes_reads hlies hmodrm hm (j := m.sizeV) hVpos (by omega)
    exact ⟨_, by rw [hV, hoffset], hreads.1⟩

end

/-! ## All opcodes with an immediate -/

/-- An instruction with an immediate operand that a `switch` has a case for: the displacement
of a branch is none, nor is the offset of a `mov`. -/
def HasImmediate (ins : Instruction) : Prop :=
  Dispatched ins ∧ ¬ IsBranch ins ∧ immKind ins ≠ .none ∧ immKind ins ≠ .moffs

instance (ins : Instruction) : Decidable (HasImmediate ins) := inferInstanceAs (Decidable (_ ∧ _))

/-- The accumulator and an immediate. -/
def IsAccum (ins : Instruction) : Prop :=
  ins.escape = false ∧ (ins.opcode.toNat < 0x40 ∧ (ins.opcode.toNat % 8 = 4 ∨ ins.opcode.toNat % 8 = 5) ∨
    ins.opcode.toNat = 0xA8 ∨ ins.opcode.toNat = 0xA9)

instance (ins : Instruction) : Decidable (IsAccum ins) := inferInstanceAs (Decidable (_ ∧ _))

/-- When the immediate is right. -/
structure ImmediateTaken (mmu : Mmu) (addr : U32) (ins : Instruction) : Prop where
  token : ¬ (ins.escape = false ∧ ins.opcode.toNat = 0xCD)
  low : IsAccum ins → littleEndian (immBytes ins) < 256
  sized : BySize ins → toggledOp32 ins = ins.op32
  there : ins.form.hasModrm = true → FieldsThere mmu addr ins

set_option synthInstance.maxSize 2000 in
/-- The opcodes that have an immediate, and no branches. -/
theorem opcodes_of_immediate : ∀ op < 256, ∀ r < 8,
    (entry oneByteMap op).immediate (BitVec.ofNat 8 (8 * r)) ∉ [Imm.none, Imm.moffs] ∧
      ¬ (0x70 ≤ op ∧ op ≤ 0x7F ∨ 0xE0 ≤ op ∧ op ≤ 0xE3 ∨ op ∈ [0xE8, 0xE9, 0xEB]) →
      (op < 0x40 ∧ op % 8 ∈ [4, 5] ∨ op ∈ [0xA8, 0xA9]) ∨ op ∈ [0x68, 0x6A] ∨ op ∈ [0x69, 0x6B] ∨
      (0x80 ≤ op ∧ op ≤ 0x83) ∨ op ∈ [0x9A, 0xEA] ∨ (0xB0 ≤ op ∧ op ≤ 0xBF) ∨ op ∈ [0xC0, 0xC1] ∨
      op ∈ [0xC2, 0xCA] ∨ op ∈ [0xC6, 0xC7] ∨ op = 0xC8 ∨ op = 0xCD ∨ op ∈ [0xD4, 0xD5] ∨
      op ∈ [0xE4, 0xE5, 0xE6, 0xE7] ∨ op ∈ [0xF6, 0xF7] ∧ r = 0 := by decide +kernel

theorem opcodes_of_immediate_escape : ∀ op < 256, ∀ r < 8,
    (hasCase op opcodes0f = true ∧ (entry twoByteMap op).immediate (BitVec.ofNat 8 (8 * r)) ≠ Imm.none ∧
      ¬ (0x80 ≤ op ∧ op ≤ 0x8F)) → op ∈ [0xA4, 0xAC] := by decide +kernel

/-- The register field is all that a form looks at. -/
theorem immediate_mid3 (f : Form) (modrm : Byte) :
    f.immediate modrm = f.immediate (BitVec.ofNat 8 (8 * mid3 modrm)) := by
  have hmid : mid3 (BitVec.ofNat 8 (8 * mid3 modrm)) = mid3 modrm := by
    have hlt : mid3 modrm < 8 := Nat.mod_lt _ (by decide)
    rw [mid3, BitVec.toNat_ofNat]
    omega
  cases f with
  | group l =>
      show (l.getD (mid3 modrm) Option.none).getD .none = (l.getD (mid3 _) Option.none).getD .none
      rw [hmid]
  | _ => rfl

theorem form_of_accum : ∀ op < 256, (op < 0x40 ∧ op % 8 ∈ [4, 5] ∨ op ∈ [0xA8, 0xA9]) →
    entry oneByteMap op = .imm (if op % 2 = 1 then .z else .b) := by decide +kernel

theorem form_of_movReg : ∀ op < 256, 0xB0 ≤ op ∧ op ≤ 0xBF →
    entry oneByteMap op = .imm (if BitVec.ofNat 8 op &&& 0x8 != 0 then .z else .b) := by decide +kernel

theorem form_of_byte : ∀ op ∈ [0xD4, 0xD5, 0xE4, 0xE5, 0xE6, 0xE7, 0xCD],
    entry oneByteMap op = Ib := by decide

theorem kind_of_imm {i : Imm} (h : ins.form = .imm i) :
    ins.form.hasModrm = false ∧ immKind ins = i := by
  rw [immKind, h]
  exact ⟨rfl, rfl⟩

theorem kind_of_rm {i : Imm} (h : ins.form = .rm i) :
    ins.form.hasModrm = true ∧ immKind ins = i := by
  rw [immKind, h]
  exact ⟨rfl, rfl⟩

theorem signExtends_iff (he : ins.escape = false) : signExtends ins = true ↔
    ins.opcode.toNat = 0x6A ∨ ins.opcode.toNat = 0x6B ∨ ins.opcode.toNat = 0x83 := by
  rw [signExtends, he]
  simp

theorem takesEarly_iff (he : ins.escape = false) : takesEarly ins = true ↔
    ¬ (ins.opcode.toNat = 0xC6 ∨ ins.opcode.toNat = 0xC7) := by
  rw [takesEarly, he]
  simp

theorem not_isAccum (hlo : 0x40 ≤ ins.opcode.toNat)
    (htest : ins.opcode.toNat ≠ 0xA8 ∧ ins.opcode.toNat ≠ 0xA9) : ¬ IsAccum ins := by
  rintro ⟨-, hop⟩
  omega

theorem not_bySize {i : Imm} (hkind : immKind ins = i) (hi : i ≠ .z ∧ i ≠ .far)
    (hs : signExtends ins = false) : ¬ BySize ins := by
  rintro (h | h | h)
  · exact hi.1 (hkind.symm.trans h)
  · exact hi.2 (hkind.symm.trans h)
  · rw [hs] at h
    cases h

theorem immediateTaken_modrm (hint : ins.opcode.toNat ≠ 0xCD) (haccum : ¬ IsAccum ins)
    (hmodrm : ins.form.hasModrm = true) : ImmediateTaken mmu addr ins
      ↔ (BySize ins → toggledOp32 ins = ins.op32) ∧ FieldsThere mmu addr ins :=
  ⟨fun h => ⟨h.sized, h.there hmodrm⟩,
    fun h => ⟨fun hcd => hint hcd.2, fun ha => absurd ha haccum, h.1, fun _ => h.2⟩⟩

theorem immediateTaken_plain (hint : ins.opcode.toNat ≠ 0xCD) (haccum : ¬ IsAccum ins)
    (hmodrm : ins.form.hasModrm = false) : ImmediateTaken mmu addr ins
      ↔ (BySize ins → toggledOp32 ins = ins.op32) :=
  ⟨fun h => h.sized, fun h => ⟨fun hcd => hint hcd.2, fun ha => absurd ha haccum, h,
    fun hm => Bool.noConfusion (hmodrm.symm.trans hm)⟩⟩

section

variable (hlies : Lies mmu addr ins.bytes) (hn : ins.prefixes.length < n)
include hlies hn

theorem renders_imm_escape (he : ins.escape = true) (hop : ins.opcode.toNat ∈ [0xA4, 0xAC]) :
    Renders mmu addr n m0 (ImmediatesRight ins) ↔ ImmediateTaken mmu addr ins := by
  have hform : ins.form = EIb := by
    rw [form_eq, he, if_pos rfl]
    exact form_of_doubleShift _ hop
  obtain ⟨hmodrm, hkind⟩ := kind_of_rm hform
  have hs : signExtends ins = false := by rw [signExtends, he]; rfl
  have hlate : takesEarly ins = false := by rw [takesEarly, he]; rfl
  have haccum : ¬ IsAccum ins := fun h => Bool.noConfusion (he.symm.trans h.1)
  simp only [List.mem_cons, List.not_mem_nil, or_false] at hop
  rw [immediateTaken_modrm (by omega) haccum hmodrm]
  rcases hop with h | h
  · exact renders_imm_doubleShift hlies hn hmodrm hkind hs hlate
      (handles_of_mem0f he 0xA4 0xA4 shldRmImm (by simp [opcodes0f]) h.ge h.le)
  · exact renders_imm_doubleShift hlies hn hmodrm hkind hs hlate
      (handles_of_mem0f he 0xAC 0xAC shrdRmImm (by simp [opcodes0f]) h.ge h.le)

omit hlies hn in
theorem handles_opcodeAccumImm (haccum : IsAccum ins) : ∃ text, Handles ins (opcodeAccumImm text) := by
  obtain ⟨he, ⟨hlt, hrow⟩ | htest⟩ := haccum
  · obtain h | h | h | h | h | h | h | h : ins.opcode.toNat / 8 = 0 ∨ ins.opcode.toNat / 8 = 1 ∨
        ins.opcode.toNat / 8 = 2 ∨ ins.opcode.toNat / 8 = 3 ∨ ins.opcode.toNat / 8 = 4 ∨
        ins.opcode.toNat / 8 = 5 ∨ ins.opcode.toNat / 8 = 6 ∨ ins.opcode.toNat / 8 = 7 := by omega
    · exact ⟨_, handles_of_mem he 0x04 0x05 addAccumImm (by simp [opcodes]) (by omega) (by omega)⟩
    · exact ⟨_, handles_of_mem he 0x0C 0x0D orAccumImm (by simp [opcodes]) (by omega) (by omega)⟩
    · exact ⟨_, handles_of_mem he 0x14 0x15 adcAccumImm (by simp [opcodes]) (by omega) (by omega)⟩
    · exact ⟨_, handles_of_mem he 0x1C 0x1D sbbAccumImm (by simp [opcodes]) (by omega) (by omega)⟩
    · exact ⟨_, handles_of_mem he 0x24 0x25 andAccumImm (by simp [opcodes]) (by omega) (by omega)⟩
    · exact ⟨_, handles_of_mem he 0x2C 0x2D subAccumImm (by simp [opcodes]) (by omega) (by omega)⟩
    · exact ⟨_, handles_of_mem he 0x34 0x35 xorAccumImm (by simp [opcodes]) (by omega) (by omega)⟩
    · exact ⟨_, handles_of_mem he 0x3C 0x3D cmpAccumImm (by simp [opcodes]) (by omega) (by omega)⟩
  · exact ⟨_, handles_of_mem he 0xA8 0xA9 testAccumImm (by simp [opcodes]) (by omega) (by omega)⟩

theorem renders_imm_isAccum (haccum : IsAccum ins) :
    Renders mmu addr n m0 (ImmediatesRight ins) ↔ ImmediateTaken mmu addr ins := by
  have he := haccum.1
  have hop := haccum.2
  have hform : ins.form = .imm (if ins.opcode.toNat % 2 = 1 then .z else .b) := by
    rw [form_oneByte he]
    exact form_of_accum _ ins.opcode.isLt (by
      simp only [List.mem_cons, List.not_mem_nil, or_false]
      omega)
  obtain ⟨hmodrm, hkind⟩ := kind_of_imm hform
  have hs : signExtends ins = false := by
    rw [Bool.eq_false_iff, ne_eq, signExtends_iff he]
    omega
  obtain ⟨text, hx⟩ := handles_opcodeAccumImm haccum
  rw [renders_imm_accum hlies hn hmodrm hkind hs hx]
  refine ⟨fun h => ⟨fun hcd => by omega, fun _ => h.2, h.1, fun hm => ?_⟩,
    fun h => ⟨h.sized, h.low haccum⟩⟩
  exact Bool.noConfusion (hmodrm.symm.trans hm)

/-- The handlers with a ModR/M byte of the first map. -/
theorem renders_imm_modrm (he : ins.escape = false)
    (hop : ins.opcode.toNat ∈ [0x69, 0x6B] ∨ 0x80 ≤ ins.opcode.toNat ∧ ins.opcode.toNat ≤ 0x83 ∨
      ins.opcode.toNat ∈ [0xC0, 0xC1] ∨ ins.opcode.toNat ∈ [0xC6, 0xC7] ∨
        ins.opcode.toNat ∈ [0xF6, 0xF7] ∧ mid3 ins.modrm = 0) :
    Renders mmu addr n m0 (ImmediatesRight ins) ↔ ImmediateTaken mmu addr ins := by
  have hentry := form_oneByte he
  simp only [List.mem_cons, List.not_mem_nil, or_false] at hop
  have haccum : ¬ IsAccum ins := not_isAccum (by omega) (by omega)
  have hint : ins.opcode.toNat ≠ 0xCD := by omega
  have hsign := signExtends_iff he
  have hearly := takesEarly_iff he
  rcases hop with hop | ⟨hlo, hhi⟩ | hop | hop | ⟨hop, hmid⟩
  · have hform : ins.form = .rm (if ins.opcode.toNat = 0x69 then .z else .b) := by
      rw [hentry]
      rcases hop with h | h <;> rw [h] <;> rfl
    obtain ⟨hmodrm, hkind⟩ := kind_of_rm hform
    have hs : signExtends ins = decide (ins.opcode.toNat = 0x6B) := by
      rw [Bool.eq_iff_iff, hsign, decide_eq_true_iff]
      omega
    have hearly' : takesEarly ins = true := hearly.mpr (by omega)
    have hx : Handles ins imulRegRmImm := by
      rcases hop with h | h
      · exact handles_of_mem he 0x69 0x69 imulRegRmImm (by simp [opcodes]) h.ge h.le
      · exact handles_of_mem he 0x6B 0x6B imulRegRmImm (by simp [opcodes]) h.ge h.le
    rw [immediateTaken_modrm hint haccum hmodrm]
    exact renders_imm_imul hlies hn hmodrm hop hkind hs hearly' hx
  · have hform : ins.form = .rm (imm80 ins.opcode) := by
      rw [hentry, form_of_opcode80 _ ins.opcode.isLt hlo hhi, ofNat_opcode]
    obtain ⟨hmodrm, hkind⟩ := kind_of_rm hform
    have hs : signExtends ins = decide (ins.opcode.toNat = 0x83) := by
      rw [Bool.eq_iff_iff, hsign, decide_eq_true_iff]
      omega
    have hearly' : takesEarly ins = true := hearly.mpr (by omega)
    rw [immediateTaken_modrm hint haccum hmodrm]
    exact renders_imm_opcode80 hlies hn hmodrm ⟨hlo, hhi⟩ hkind hs hearly'
      (handles_of_mem he 0x80 0x83 decodeOpcode80 (by simp [opcodes]) hlo hhi)
  · have hform : ins.form = EIb := by
      rw [hentry]
      rcases hop with h | h <;> rw [h] <;> rfl
    obtain ⟨hmodrm, hkind⟩ := kind_of_rm hform
    have hs : signExtends ins = false := Bool.eq_false_iff.mpr (mt hsign.mp (by omega))
    have hearly' : takesEarly ins = true := hearly.mpr (by omega)
    rw [immediateTaken_modrm hint haccum hmodrm]
    exact renders_imm_shift hlies hn hmodrm hkind hs hearly'
      (handles_of_mem he 0xC0 0xC1 decodeOpcodeC0 (by simp [opcodes]) (by omega) (by omega))
  · have hform : ins.form = .rm (if ins.opcode.toNat % 2 = 1 then .z else .b) := by
      rw [hentry]
      rcases hop with h | h <;> rw [h] <;> rfl
    obtain ⟨hmodrm, hkind⟩ := kind_of_rm hform
    have hs : signExtends ins = false := Bool.eq_false_iff.mpr (mt hsign.mp (by omega))
    have hlate : takesEarly ins = false := Bool.eq_false_iff.mpr (mt hearly.mp (by omega))
    rw [immediateTaken_modrm hint haccum hmodrm]
    exact renders_imm_mov hlies hn hmodrm hkind hs hlate
      (handles_of_mem he 0xC6 0xC7 movRmImm (by simp [opcodes]) (by omega) (by omega))
  · have hmodrm : ins.form.hasModrm = true := by
      rw [hentry]
      rcases hop with h | h <;> rw [h] <;> rfl
    have hkind : immKind ins = if ins.opcode.toNat % 2 = 1 then .z else .b := by
      rw [immKind, immediate_mid3, hmid, hentry]
      rcases hop with h | h <;> rw [h] <;> rfl
    have hs : signExtends ins = false := Bool.eq_false_iff.mpr (mt hsign.mp (by omega))
    have hearly' : takesEarly ins = true := hearly.mpr (by omega)
    rw [immediateTaken_modrm hint haccum hmodrm]
    exact renders_imm_test hlies hn hmodrm hkind hs hearly'
      (handles_of_mem he 0xF6 0xF7 decodeOpcodeF6 (by simp [opcodes]) (by omega) (by omega))
      (by rw [hmid]; rfl)

/-- The handlers without one that have an operand by the operand size. -/
theorem renders_imm_sized (he : ins.escape = false)
    (hop : ins.opcode.toNat ∈ [0x68, 0x6A] ∨ ins.opcode.toNat ∈ [0x9A, 0xEA] ∨
      0xB0 ≤ ins.opcode.toNat ∧ ins.opcode.toNat ≤ 0xBF) :
    Renders mmu addr n m0 (ImmediatesRight ins) ↔ ImmediateTaken mmu addr ins := by
  have hentry := form_oneByte he
  simp only [List.mem_cons, List.not_mem_nil, or_false] at hop
  have haccum : ¬ IsAccum ins := not_isAccum (by omega) (by omega)
  have hint : ins.opcode.toNat ≠ 0xCD := by omega
  have hsign := signExtends_iff he
  rcases hop with hop | hop | ⟨hlo, hhi⟩
  · have hform : ins.form = .imm (if ins.opcode.toNat = 0x68 then .z else .b) := by
      rw [hentry]
      rcases hop with h | h <;> rw [h] <;> rfl
    obtain ⟨hmodrm, hkind⟩ := kind_of_imm hform
    have hs : signExtends ins = decide (ins.opcode.toNat = 0x6A) := by
      rw [Bool.eq_iff_iff, hsign, decide_eq_true_iff]
      omega
    have hx : Handles ins pushImm := by
      rcases hop with h | h
      · exact handles_of_mem he 0x68 0x68 pushImm (by simp [opcodes]) h.ge h.le
      · exact handles_of_mem he 0x6A 0x6A pushImm (by simp [opcodes]) h.ge h.le
    rw [immediateTaken_plain hint haccum hmodrm]
    exact renders_imm_push hlies hn hmodrm hop hkind hs hx
  · have hform : ins.form = .imm .far := by
      rw [hentry]
      rcases hop with h | h <;> rw [h] <;> rfl
    obtain ⟨hmodrm, hkind⟩ := kind_of_imm hform
    rw [immediateTaken_plain hint haccum hmodrm]
    rcases hop with h | h
    · exact renders_imm_far hlies hn hmodrm hkind
        (handles_of_mem he 0x9A 0x9A callInterDirect (by simp [opcodes]) h.ge h.le)
    · exact renders_imm_far hlies hn hmodrm hkind
        (handles_of_mem he 0xEA 0xEA jmpInterDirect (by simp [opcodes]) h.ge h.le)
  · have hform : ins.form = .imm (if ins.opcode &&& 0x8 != 0 then .z else .b) := by
      rw [hentry, form_of_movReg _ ins.opcode.isLt ⟨hlo, hhi⟩, ofNat_opcode]
    obtain ⟨hmodrm, hkind⟩ := kind_of_imm hform
    have hs : signExtends ins = false := Bool.eq_false_iff.mpr (mt hsign.mp (by omega))
    rw [immediateTaken_plain hint haccum hmodrm]
    exact renders_imm_movReg hlies hn hmodrm hkind hs
      (handles_of_mem he 0xB0 0xBF movRegImm (by simp [opcodes]) hlo hhi)

/-- The handlers whose operands have a fixed size, and `int`. -/
theorem renders_imm_fixed (he : ins.escape = false)
    (hop : ins.opcode.toNat ∈ [0xC2, 0xCA] ∨ ins.opcode.toNat = 0xC8 ∨
      ins.opcode.toNat ∈ [0xD4, 0xD5, 0xE4, 0xE5, 0xE6, 0xE7, 0xCD]) :
    Renders mmu addr n m0 (ImmediatesRight ins) ↔ ImmediateTaken mmu addr ins := by
  have hentry := form_oneByte he
  have hbyte : ins.opcode.toNat ∈ [0xD4, 0xD5, 0xE4, 0xE5, 0xE6, 0xE7, 0xCD] → ins.form = Ib :=
    fun h => hentry.trans (form_of_byte _ h)
  simp only [List.mem_cons, List.not_mem_nil, or_false] at hop hbyte
  have haccum : ¬ IsAccum ins := not_isAccum (by omega) (by omega)
  have hs : signExtends ins = false := by
    rw [Bool.eq_false_iff, ne_eq, signExtends_iff he]
    omega
  rcases hop with hop | hop | hop
  · have hform : ins.form = .imm .w := by
      rw [hentry]
      rcases hop with h | h <;> rw [h] <;> rfl
    obtain ⟨hmodrm, hkind⟩ := kind_of_imm hform
    rw [immediateTaken_plain (by omega) haccum hmodrm]
    refine iff_of_true ?_ fun h => absurd h (not_bySize hkind (by decide) hs)
    rcases hop with h | h
    · exact renders_imm_ret hlies hn hmodrm hkind hs
        (handles_of_mem he 0xC2 0xC2 retIntraAddImm (by simp [opcodes]) h.ge h.le)
    · exact renders_imm_ret hlies hn hmodrm hkind hs
        (handles_of_mem he 0xCA 0xCA retInterAddImm (by simp [opcodes]) h.ge h.le)
  · have hform : ins.form = .imm .wb := by
      rw [hentry, hop]
      rfl
    obtain ⟨hmodrm, hkind⟩ := kind_of_imm hform
    rw [immediateTaken_plain (by omega) haccum hmodrm]
    refine iff_of_true ?_ fun h => absurd h (not_bySize hkind (by decide) hs)
    exact renders_imm_enter hlies hn hmodrm hkind
      (handles_of_mem he 0xC8 0xC8 enter (by simp [opcodes]) hop.ge hop.le)
  · obtain ⟨hmodrm, hkind⟩ := kind_of_imm (hbyte hop)
    by_cases hint : ins.opcode.toNat = 0xCD
    · refine iff_of_false ?_ fun h => h.token ⟨he, hint⟩
      exact not_renders_imm_int hlies hn hmodrm (by omega) hkind hs
        (handles_of_mem he 0xCD 0xCD int_ (by simp [opcodes]) hint.ge hint.le)
    · rw [immediateTaken_plain hint haccum hmodrm]
      refine iff_of_true ?_ fun h => absurd h (not_bySize hkind (by decide) hs)
      obtain h | h | h | h : ins.opcode.toNat = 0xD4 ∨ ins.opcode.toNat = 0xD5 ∨
          (0xE4 ≤ ins.opcode.toNat ∧ ins.opcode.toNat ≤ 0xE5) ∨
            0xE6 ≤ ins.opcode.toNat ∧ ins.opcode.toNat ≤ 0xE7 := by omega
      · exact renders_imm_adjust hlies hn hmodrm hkind hs
          (handles_of_mem he 0xD4 0xD4 aam (by simp [opcodes]) h.ge h.le)
      · exact renders_imm_adjust hlies hn hmodrm hkind hs
          (handles_of_mem he 0xD5 0xD5 aad (by simp [opcodes]) h.ge h.le)
      · exact renders_imm_in hlies hn hmodrm hkind hs
          (handles_of_mem he 0xE4 0xE5 inAccumImm (by simp [opcodes]) h.1 h.2)
      · exact renders_imm_out hlies hn hmodrm hkind hs
          (handles_of_mem he 0xE6 0xE7 outAccumImm (by simp [opcodes]) h.1 h.2)

omit hn in
/-- With the address size right the two fields lie where the decoder looks for them, and only their
order matters. -/
theorem fieldsThere_iff_append (hmodrm : ins.form.hasModrm = true) (himm : 0 < (immBytes ins).length)
    (haddr : toggledAddr32 ins = ins.addr32) : FieldsThere mmu addr ins ↔
      (takesEarly ins = true → immBytes ins ++ dispBytes ins = dispBytes ins ++ immBytes ins) := by
  have hat : modrmLength ins = dispAt ins := by rw [modrmLength, dispAt, if_pos hmodrm, haddr]
  have hlen := operands_length_split ins
  have hthere : Lies mmu (fieldsVa addr ins) (dispBytes ins ++ immBytes ins) := by
    have h := lies_operands hlies
    rw [← List.take_append_drop (dispAt ins) ins.operands] at h
    have hright := h.right
    rwa [List.length_take, Nat.min_eq_left (by omega), BitVec.add_assoc, ← BitVec.ofNat_add, ← hat,
      ← fieldsVa, hat, ← dispBytes_append_immBytes] at hright
  rw [FieldsThere, haddr, and_iff_right rfl]
  cases takesEarly ins with
  | false =>
      rw [if_neg Bool.false_ne_true]
      refine iff_of_true ⟨fun hne => ?_, hthere.right.reads himm⟩ fun h => Bool.noConfusion h
      exact hthere.left.reads (List.length_pos_iff.mpr hne)
  | true =>
      rw [if_pos rfl]
      constructor
      · rintro ⟨hreads, hdreads⟩ -
        rw [← List.take_append_drop (immBytes ins).length (dispBytes ins ++ immBytes ins)] at hthere ⊢
        have htake : ((dispBytes ins ++ immBytes ins).take (immBytes ins).length).length
            = (immBytes ins).length := by
          rw [List.length_take, List.length_append]
          omega
        have hdrop : ((dispBytes ins ++ immBytes ins).drop (immBytes ins).length).length
            = (dispBytes ins).length := by
          rw [List.length_drop, List.length_append]
          omega
        have hfirst := hreads.unique (hthere.left.reads (by omega)) htake.symm
        have hright := hthere.right
        rw [htake] at hright
        rw [← hfirst]
        congr 1
        by_cases hne : dispBytes ins = []
        · rw [hne, List.nil_append, List.drop_length]
        · have hpos := List.length_pos_iff.mpr hne
          exact (hdreads hne).unique (hright.reads (by omega)) hdrop.symm
      · intro h
        rw [← h rfl] at hthere
        exact ⟨hthere.left.reads himm, fun hne => hthere.right.reads (List.length_pos_iff.mpr hne)⟩

/-- The immediates in the line are the displacement and the immediate operand, if and only if the
conditions of `ImmediateTaken` hold. -/
theorem renders_immediates_iff (himm : HasImmediate ins) :
    Renders mmu addr n m0 (ImmediatesRight ins) ↔ ImmediateTaken mmu addr ins := by
  obtain ⟨hcase, hbranch, hnone, hmoffs⟩ := himm
  have hmid : mid3 ins.modrm < 8 := Nat.mod_lt _ (by decide)
  rw [immKind, immediate_mid3, form_eq] at hnone hmoffs
  rw [Dispatched] at hcase
  rw [IsBranch] at hbranch
  cases he : ins.escape with
  | true =>
      rw [he, if_pos rfl] at hcase hbranch hnone
      exact renders_imm_escape hlies hn he
        (opcodes_of_immediate_escape _ ins.opcode.isLt _ hmid ⟨hcase, hnone, hbranch⟩)
  | false =>
      rw [he, if_neg Bool.false_ne_true] at hbranch hnone hmoffs
      have hop := opcodes_of_immediate _ ins.opcode.isLt _ hmid
        ⟨by simpa using ⟨hnone, hmoffs⟩, by simpa using hbranch⟩
      rcases hop with h | h | h | h | h | h | h | h | h | h | h | h | h | h
      · exact renders_imm_isAccum hlies hn ⟨he, by simpa using h⟩
      · exact renders_imm_sized hlies hn he (Or.inl h)
      · exact renders_imm_modrm hlies hn he (Or.inl h)
      · exact renders_imm_modrm hlies hn he (Or.inr (Or.inl h))
      · exact renders_imm_sized hlies hn he (Or.inr (Or.inl h))
      · exact renders_imm_sized hlies hn he (Or.inr (Or.inr h))
      · exact renders_imm_modrm hlies hn he (Or.inr (Or.inr (Or.inl h)))
      · exact renders_imm_fixed hlies hn he (Or.inl h)
      · exact renders_imm_modrm hlies hn he (Or.inr (Or.inr (Or.inr (Or.inl h))))
      · exact renders_imm_fixed hlies hn he (Or.inr (Or.inl h))
      · exact renders_imm_fixed hlies hn he (Or.inr (Or.inr (by simp [h])))
      · exact renders_imm_fixed hlies hn he (Or.inr (Or.inr (by
          simp only [List.mem_cons, List.not_mem_nil, or_false] at h ⊢
          omega)))
      · exact renders_imm_fixed hlies hn he (Or.inr (Or.inr (by
          simp only [List.mem_cons, List.not_mem_nil, or_false] at h ⊢
          omega)))
      · exact renders_imm_modrm hlies hn he (Or.inr (Or.inr (Or.inr (Or.inr h))))

end

/-- **Immediate operands**: the immediates in the line are the displacement and the immediate operand, if and
only if the conditions of `ImmediateTaken` hold.  With the address size right, the one about the
fields is about the order of their bytes. -/
theorem mnemDecode_immediates_iff (ins : Instruction) (himm : HasImmediate ins) (mmu : Mmu)
    (addr : U32) (hlies : Lies mmu addr ins.bytes) (n : Nat) (hn : ins.prefixes.length < n)
    (m0 : Mnem) :
    (Renders mmu addr n m0 (ImmediatesRight ins) ↔ ImmediateTaken mmu addr ins) ∧
      (toggledAddr32 ins = ins.addr32 → ins.form.hasModrm = true → (FieldsThere mmu addr ins ↔
        (takesEarly ins = true → immBytes ins ++ dispBytes ins = dispBytes ins ++ immBytes ins))) :=
  ⟨renders_immediates_iff hlies hn himm, fun haddr hmodrm =>
    fieldsThere_iff_append hlies hmodrm (immBytes_pos himm.2.2.1) haddr⟩

theorem encodes_movLocal : Encodes [] false 0xC7 [0x45, 0xFC, 0x78, 0x56, 0x34, 0x12] := by decide

/-- `mov dword [ebp-4], 12345678h` -/
def movLocal : Instruction := encodes_movLocal.instruction

theorem mnemDecode_immediates_movLocal :
    Renders (codeMmu [0x78FC45C7, 0x00123456]) 0x1000 15 (Mnem.zero .empty)
      (ImmediatesRight movLocal) :=
  (mnemDecode_immediates_iff movLocal (by decide) _ _ (by decide +kernel) 15 (by decide) _).1.mpr
    ⟨by decide, by decide, by decide, fun _ => by decide +kernel⟩

theorem encodes_addByte : Encodes [] false 0x83 [0x40, 0x04, 0x01] := by decide

/-- `add dword [eax+4], 1` -/
def addByte : Instruction := encodes_addByte.instruction

/-- `add [ds:eax+1],4` -/
theorem mnemDecode_immediate_early : HasImmediate addByte ∧
    Lies (codeMmu [0x01044083]) 0x1000 addByte.bytes ∧
      ¬ Renders (codeMmu [0x01044083]) 0x1000 15 (Mnem.zero .empty) (ImmediatesRight addByte) := by
  have hrun : (mnemDecode 15 (codeMmu [0x01044083]) 0x1000 (Mnem.zero .empty)).map
      (fun r => immediates false r.2.line.tokens) = some [(true, 1, 1), (false, 4, 4)] := by
    decide +kernel
  refine ⟨by decide, by decide +kernel, ?_⟩
  rintro ⟨r, m, hm, hright⟩
  rw [hm, Option.map_some, hright] at hrun
  exact absurd hrun (by decide)

end Tomk.Disasm
