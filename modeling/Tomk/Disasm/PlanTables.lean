/-
# The plan of each opcode

Two tables whose rows are those of `opcodes` and `opcodes0f`, and `switch_cons` goes through a table
and its plans at once: what holds of each handler and its plan holds of the opcode
(`opcodes_rel`, `opcodes0f_rel`).  It is used for what an opcode fetches, and for what it
leaves in the line.
-/
import Tomk.Disasm.Speaks

namespace Tomk.Disasm

open Early I386

variable {mmu : Mmu} {m : Mnem} {p : List Nat}

/-! ## The tables -/

/-- The plans of `opcodes0f`. -/
def plans0f : List (Nat × Nat × Plan) :=
  [(0x00, 0x00, .group group0f00), (0x01, 0x01, .group group0f01), (0x02, 0x02, planNone),
    (0x03, 0x03, planNone), (0x05, 0x05, planNone), (0x06, 0x06, planNone),
    (0x20, 0x20, .rm .none false .none), (0x21, 0x21, .rm .none false .none),
    (0x22, 0x22, .rm .none false .none), (0x23, 0x23, .rm .none false .none),
    (0x24, 0x24, .rm .none false .none), (0x26, 0x26, .rm .none false .none),
    (0x80, 0x8F, .imm .z), (0x90, 0x9F, planNone),
    (0xA0, 0xA0, planNone), (0xA1, 0xA1, planNone), (0xA3, 0xA3, planRm),
    (0xA4, 0xA4, .rm .none true .b), (0xA5, 0xA5, planNone), (0xA8, 0xA8, planNone),
    (0xA9, 0xA9, planNone), (0xAB, 0xAB, planRm), (0xAC, 0xAC, .rm .none true .b),
    (0xAD, 0xAD, planNone), (0xAF, 0xAF, planNone),
    (0xB2, 0xB2, planRm), (0xB3, 0xB3, planRm), (0xB4, 0xB4, planRm), (0xB5, 0xB5, planRm),
    (0xB6, 0xB7, planRm), (0xBB, 0xBB, planRm), (0xBC, 0xBC, planRm), (0xBD, 0xBD, planRm),
    (0xBE, 0xBF, planRm)]

/-- The plans of `opcodes`; the prefixes and 0F have none. -/
def plans (opcode : U8) : List (Nat × Nat × Plan) :=
  [(0x00, 0x03, planRm), (0x04, 0x05, .imm (immW opcode)), (0x06, 0x06, planNone),
    (0x07, 0x07, planNone), (0x08, 0x0B, planRm), (0x0C, 0x0D, .imm (immW opcode)),
    (0x0E, 0x0E, planNone), (0x0F, 0x0F, planNone),
    (0x10, 0x13, planRm), (0x14, 0x15, .imm (immW opcode)), (0x16, 0x16, planNone),
    (0x17, 0x17, planNone), (0x18, 0x1B, planRm), (0x1C, 0x1D, .imm (immW opcode)),
    (0x1E, 0x1E, planNone), (0x1F, 0x1F, planNone),
    (0x20, 0x23, planRm), (0x24, 0x25, .imm (immW opcode)), (0x26, 0x26, planNone),
    (0x27, 0x27, planNone), (0x28, 0x2B, planRm), (0x2C, 0x2D, .imm (immW opcode)),
    (0x2E, 0x2E, planNone), (0x2F, 0x2F, planNone),
    (0x30, 0x33, planRm), (0x34, 0x35, .imm (immW opcode)), (0x36, 0x36, planNone),
    (0x37, 0x37, planNone), (0x38, 0x3B, planRm), (0x3C, 0x3D, .imm (immW opcode)),
    (0x3E, 0x3E, planNone), (0x3F, 0x3F, planNone),
    (0x40, 0x47, planNone), (0x48, 0x4F, planNone),
    (0x50, 0x57, planNone), (0x58, 0x5F, planNone),
    (0x60, 0x60, planNone), (0x61, 0x61, planNone), (0x62, 0x62, planNone),
    (0x63, 0x63, planNone), (0x64, 0x65, planNone), (0x66, 0x66, planNone),
    (0x67, 0x67, planNone), (0x68, 0x68, .imm (immS opcode)),
    (0x69, 0x69, .rm (immS opcode) true .none), (0x6A, 0x6A, .imm (immS opcode)),
    (0x6B, 0x6B, .rm (immS opcode) true .none), (0x6C, 0x6D, planNone), (0x6E, 0x6F, planNone),
    (0x70, 0x7F, .imm .b),
    (0x80, 0x83, .rm (imm80 opcode) true .none), (0x84, 0x85, planRm), (0x86, 0x87, planRm),
    (0x88, 0x8B, planRm), (0x8C, 0x8C, planRm), (0x8D, 0x8D, planRm), (0x8E, 0x8E, planRm),
    (0x8F, 0x8F, planRm),
    (0x90, 0x90, planNone), (0x91, 0x97, planNone), (0x98, 0x98, planNone),
    (0x99, 0x99, planNone), (0x9A, 0x9A, .imm .far), (0x9B, 0x9B, planNone),
    (0x9C, 0x9C, planNone), (0x9D, 0x9D, planNone), (0x9E, 0x9E, planNone),
    (0x9F, 0x9F, planNone),
    (0xA0, 0xA3, .imm .moffs), (0xA4, 0xA5, planNone), (0xA6, 0xA7, planNone),
    (0xA8, 0xA9, .imm (immW opcode)), (0xAA, 0xAB, planNone), (0xAC, 0xAD, planNone),
    (0xAE, 0xAF, planNone),
    (0xB0, 0xBF, .imm (immWreg opcode)),
    (0xC0, 0xC1, .rm .b true .none), (0xC2, 0xC2, .imm .w), (0xC3, 0xC3, planNone),
    (0xC4, 0xC4, planRm), (0xC5, 0xC5, planRm), (0xC6, 0xC7, .rm .none true (immW opcode)),
    (0xC8, 0xC8, .imm .wb), (0xC9, 0xC9, planNone), (0xCA, 0xCA, .imm .w),
    (0xCB, 0xCB, planNone), (0xCC, 0xCC, planNone), (0xCD, 0xCD, .imm .b),
    (0xCE, 0xCE, planNone), (0xCF, 0xCF, planNone),
    (0xD0, 0xD3, planRm), (0xD4, 0xD4, .imm .b), (0xD5, 0xD5, .imm .b),
    (0xD6, 0xD6, planNone), (0xD7, 0xD7, planNone), (0xD8, 0xDF, planRm),
    (0xE0, 0xE0, .imm .b), (0xE1, 0xE1, .imm .b), (0xE2, 0xE2, .imm .b),
    (0xE3, 0xE3, .imm .b), (0xE4, 0xE5, .imm .b), (0xE6, 0xE7, .imm .b),
    (0xE8, 0xE8, .imm .z), (0xE9, 0xE9, .imm .w),
    (0xEA, 0xEA, .imm .far), (0xEB, 0xEB, .imm .b),
    (0xEC, 0xED, planNone), (0xEE, 0xEF, planNone),
    (0xF0, 0xF1, planNone), (0xF2, 0xF3, planNone), (0xF4, 0xF4, planNone), (0xF5, 0xF5, planNone),
    (0xF6, 0xF7, .group (groupF6 opcode)), (0xF8, 0xF8, planNone), (0xF9, 0xF9, planNone),
    (0xFA, 0xFA, planNone), (0xFB, 0xFB, planNone), (0xFC, 0xFC, planNone), (0xFD, 0xFD, planNone),
    (0xFE, 0xFE, .group groupFe), (0xFF, 0xFF, .group groupFf)]

/-- One row of two tables with the same cases. -/
theorem switch_cons {α β : Type} {R : α → β → Prop} {op lo hi : Nat} {x d : α} {y d' : β}
    {rows : List (Nat × Nat × α)} {rows' : List (Nat × Nat × β)}
    (h : lo ≤ op → op ≤ hi → R x y) (ht : R (switch op d rows) (switch op d' rows')) :
    R (switch op d ((lo, hi, x) :: rows)) (switch op d' ((lo, hi, y) :: rows')) := by
  rw [switch, switch]
  split
  · next hop => exact h hop.1 hop.2
  · exact ht

/-- `x` is what the decoder does at `m`, and `p` is its plan. -/
def Follows (mmu : Mmu) (m : Mnem) (x : Dec Unit) (p : Plan) : Prop :=
  Takes mmu x m (m.fields mmu p)

/-- What holds of the handlers behind 0F and their plans. -/
theorem opcodes0f_rel {R : Dec Unit → Plan → Prop} {d : Dec Unit} {d' : Plan} (hz : m.modrm = 0)
    (hrow : ∀ {x p}, Follows mmu m x p → Speaks x ∨ silentRegs true m.opcode.toNat ≠ [] → R x p)
    (hd : R d d') : R (switch m.opcode.toNat d opcodes0f) (switch m.opcode.toNat d' plans0f) := by
  have say {x : Dec Unit} {p : Plan} (ht : Follows mmu m x p) (hs : Speaks x) : R x p :=
    hrow ht (.inl hs)
  have hsilent {lo hi : Nat} (h : ∀ op ∈ List.range' lo (hi + 1 - lo), silentRegs true op ≠ [])
      (hlo : lo ≤ m.opcode.toNat) (hhi : m.opcode.toNat ≤ hi) :
      silentRegs true m.opcode.toNat ≠ [] := h _ (List.mem_range'_1.mpr ⟨hlo, by omega⟩)
  refine switch_cons (fun hlo hhi => hrow takes_decodeOpcode0f00 (.inr (hsilent (by decide) hlo hhi))) ?_
  refine switch_cons (fun hlo hhi => hrow takes_decodeOpcode0f01 (.inr (hsilent (by decide) hlo hhi))) ?_
  iterate 4 refine switch_cons (fun _ _ => say (takes_mnemonic _) (speaks_mnemonic _)) ?_
  iterate 6 refine switch_cons (fun _ _ => say (takes_opcodeMovSpecial ..) (speaks_opcodeMovSpecial ..)) ?_
  refine switch_cons (fun _ _ => say takes_jccLong speaks_jccLong) ?_
  refine switch_cons (fun _ _ => say (takes_mnemonic _) (speaks_mnemonic _)) ?_
  iterate 2 refine switch_cons (fun _ _ => say (takes_opcodeSeg _) (speaks_opcodeSeg _)) ?_
  refine switch_cons (fun _ _ => say (takes_opcodeBit _) (speaks_opcodeBit _)) ?_
  refine switch_cons (fun _ _ => say (takes_doubleShiftImm _) (speaks_doubleShiftImm _)) ?_
  refine switch_cons (fun _ _ => say (takes_doubleShiftCl hz _) (speaks_doubleShiftCl _)) ?_
  iterate 2 refine switch_cons (fun _ _ => say (takes_opcodeSeg _) (speaks_opcodeSeg _)) ?_
  refine switch_cons (fun _ _ => say (takes_opcodeBit _) (speaks_opcodeBit _)) ?_
  refine switch_cons (fun _ _ => say (takes_doubleShiftImm _) (speaks_doubleShiftImm _)) ?_
  refine switch_cons (fun _ _ => say (takes_doubleShiftCl hz _) (speaks_doubleShiftCl _)) ?_
  refine switch_cons (fun _ _ => say (takes_imulRegRm hz) speaks_imulRegRm) ?_
  refine switch_cons (fun _ _ => say (takes_opcodeRegRm _) (speaks_opcodeRegRm _)) ?_
  refine switch_cons (fun _ _ => say (takes_opcodeBit _) (speaks_opcodeBit _)) ?_
  iterate 2 refine switch_cons (fun _ _ => say (takes_opcodeRegRm _) (speaks_opcodeRegRm _)) ?_
  refine switch_cons (fun _ _ => say (takes_opcodeMovx _) (speaks_opcodeMovx _)) ?_
  iterate 3 refine switch_cons (fun _ _ => say (takes_opcodeBit _) (speaks_opcodeBit _)) ?_
  refine switch_cons (fun _ _ => say (takes_opcodeMovx _) (speaks_opcodeMovx _)) ?_
  exact hd

/-- The same for a case of the first table, which ends the loop. -/
def FollowsBrk (mmu : Mmu) (m : Mnem) (x : Dec Status) (p : Plan) : Prop :=
  Ends x mmu m (advance mmu m.offset (m.fields mmu p) m.counter = none) fun r m' =>
    r = some .ok ∧ advance mmu m.offset (m.fields mmu p) m.counter = some m'.counter

theorem ends_brk {x : Dec Unit} (h : Takes mmu x m p) :
    Ends (brk x) mmu m (advance mmu m.offset p m.counter = none) fun r m' =>
      r = some .ok ∧ advance mmu m.offset p m.counter = some m'.counter := by
  have hcall : Ends (call x) mmu m (advance mmu m.offset p m.counter = none)
      fun r m' => r = some () ∧ advance mmu m.offset p m.counter = some m'.counter :=
    Ends.call h fun _ _ h => ⟨rfl, h.1⟩
  exact hcall.bind (fun _ h => nomatch h.1) fun _ _ h => ends_pure _ ⟨rfl, h.2⟩

theorem follows_brk {x : Dec Unit} {plan : Plan} (h : Takes mmu x m (m.fields mmu plan)) :
    FollowsBrk mmu m (brk x) plan := ends_brk h

/-- The prefixes, and the escape byte: the opcodes after which the decoder fetches another. -/
def fetchesOpcode : List Nat :=
  [0x0F, 0x26, 0x2E, 0x36, 0x3E, 0x64, 0x65, 0x66, 0x67, 0xF0, 0xF1, 0xF2, 0xF3]

/-- What holds of the other handlers and their plans. -/
theorem opcodes_rel {R : Dec Status → Plan → Prop} {d : Dec Status} {d' : Plan}
    (hop : m.opcode.toNat ∉ fetchesOpcode) (hrow : ∀ {x p}, Follows mmu m x p →
      Speaks x ∨ silentRegs false m.opcode.toNat ≠ [] → R (brk x) p) (hd : R d d') :
    R (switch m.opcode.toNat d opcodes) (switch m.opcode.toNat d' (plans m.opcode)) := by
  have say {x : Dec Unit} {p : Plan} (ht : Follows mmu m x p) (hs : Speaks x) : R (brk x) p :=
    hrow ht (.inl hs)
  have hsilent {lo hi : Nat} (h : ∀ op ∈ List.range' lo (hi + 1 - lo), silentRegs false op ≠ [])
      (hlo : lo ≤ m.opcode.toNat) (hhi : m.opcode.toNat ≤ hi) :
      silentRegs false m.opcode.toNat ≠ [] := h _ (List.mem_range'_1.mpr ⟨hlo, by omega⟩)
  have hbyte {lo hi : Nat} {x : Dec Status} {p : Plan}
      (h : ∀ op ∈ List.range' lo (hi + 1 - lo), op ∈ fetchesOpcode) (hlo : lo ≤ m.opcode.toNat)
      (hhi : m.opcode.toNat ≤ hi) : R x p :=
    absurd (h _ (List.mem_range'_1.mpr ⟨hlo, by omega⟩)) hop
  -- 00 to 3F
  refine switch_cons (fun _ _ => say (takes_opcodeRmReg _) (speaks_opcodeRmReg _)) <|
    switch_cons (fun _ _ => say (takes_opcodeAccumImm _) (speaks_opcodeAccumImm _)) <|
    switch_cons (fun _ _ => say (takes_opcodeSeg _) (speaks_opcodeSeg _)) <|
    switch_cons (fun _ _ => say (takes_opcodeSeg _) (speaks_opcodeSeg _)) <|
    switch_cons (fun _ _ => say (takes_opcodeRmReg _) (speaks_opcodeRmReg _)) <|
    switch_cons (fun _ _ => say (takes_opcodeAccumImm _) (speaks_opcodeAccumImm _)) <|
    switch_cons (fun _ _ => say (takes_opcodeSeg _) (speaks_opcodeSeg _)) <|
    switch_cons (hbyte (by decide)) ?_
  iterate 2
    refine switch_cons (fun _ _ => say (takes_opcodeRmReg _) (speaks_opcodeRmReg _)) <|
      switch_cons (fun _ _ => say (takes_opcodeAccumImm _) (speaks_opcodeAccumImm _)) <|
      switch_cons (fun _ _ => say (takes_opcodeSeg _) (speaks_opcodeSeg _)) <|
      switch_cons (fun _ _ => say (takes_opcodeSeg _) (speaks_opcodeSeg _)) ?_
  iterate 4
    refine switch_cons (fun _ _ => say (takes_opcodeRmReg _) (speaks_opcodeRmReg _)) <|
      switch_cons (fun _ _ => say (takes_opcodeAccumImm _) (speaks_opcodeAccumImm _)) <|
      switch_cons (hbyte (by decide)) <|
      switch_cons (fun _ _ => say (takes_mnemonic _) (speaks_mnemonic _)) ?_
  -- 40 to 7F
  iterate 4 refine switch_cons (fun _ _ => say (takes_opcodeReg _) (speaks_opcodeReg _)) ?_
  iterate 4 refine switch_cons (fun _ _ => say (takes_mnemonic _) (speaks_mnemonic _)) ?_
  iterate 3 refine switch_cons (hbyte (by decide)) ?_
  refine switch_cons (fun _ _ => say takes_pushImm speaks_pushImm) <|
    switch_cons (fun _ _ => say takes_imulRegRmImm speaks_imulRegRmImm) <|
    switch_cons (fun _ _ => say takes_pushImm speaks_pushImm) <|
    switch_cons (fun _ _ => say takes_imulRegRmImm speaks_imulRegRmImm) <|
    switch_cons (fun _ _ => say (takes_string ..) (speaks_string ..)) <|
    switch_cons (fun _ _ => say (takes_string ..) (speaks_string ..)) <|
    switch_cons (fun _ _ => say takes_jccShort speaks_jccShort) ?_
  -- 80 to BF
  refine switch_cons (fun _ _ => say takes_decodeOpcode80 speaks_decodeOpcode80) <|
    switch_cons (fun _ _ => say (takes_opcodeRmReg _) (speaks_opcodeRmReg _)) <|
    switch_cons (fun _ _ => say takes_xchgRmReg speaks_xchgRmReg) <|
    switch_cons (fun _ _ => say takes_movRmReg speaks_movRmReg) <|
    switch_cons (fun _ _ => say takes_movSeg speaks_movSeg) <|
    switch_cons (fun _ _ => say (takes_opcodeRegRm _) (speaks_opcodeRegRm _)) <|
    switch_cons (fun _ _ => say takes_movSeg speaks_movSeg) <|
    switch_cons (fun _ _ => say takes_popRm speaks_popRm) ?_
  refine switch_cons (fun _ _ => say (takes_mnemonic _) (speaks_mnemonic _)) <|
    switch_cons (fun _ _ => say takes_xchgAccumReg speaks_xchgAccumReg) <|
    switch_cons (fun _ _ => say (takes_mnemonic _) (speaks_mnemonic _)) <|
    switch_cons (fun _ _ => say (takes_mnemonic _) (speaks_mnemonic _)) <|
    switch_cons (fun _ _ => say (takes_opcodeFar _) (speaks_opcodeFar _)) ?_
  iterate 5 refine switch_cons (fun _ _ => say (takes_mnemonic _) (speaks_mnemonic _)) ?_
  refine switch_cons (fun _ _ => say takes_movAccumMem speaks_movAccumMem) <|
    switch_cons (fun _ _ => say (takes_string ..) (speaks_string ..)) <|
    switch_cons (fun _ _ => say (takes_string ..) (speaks_string ..)) <|
    switch_cons (fun _ _ => say (takes_opcodeAccumImm _) (speaks_opcodeAccumImm _)) <|
    switch_cons (fun _ _ => say (takes_string ..) (speaks_string ..)) <|
    switch_cons (fun _ _ => say (takes_string ..) (speaks_string ..)) <|
    switch_cons (fun _ _ => say takes_scas speaks_scas) <|
    switch_cons (fun _ _ => say takes_movRegImm speaks_movRegImm) ?_
  -- C0 to DF
  refine switch_cons (fun _ _ => say takes_decodeOpcodeC0 speaks_decodeOpcodeC0) <|
    switch_cons (fun _ _ => say (takes_retAddImm ..) (speaks_retAddImm ..)) <|
    switch_cons (fun _ _ => say (takes_quiet (quiet_mnemonicV ..)) (speaks_mnemonicV ..)) <|
    switch_cons (fun _ _ => say (takes_opcodeRegRm _) (speaks_opcodeRegRm _)) <|
    switch_cons (fun _ _ => say (takes_opcodeRegRm _) (speaks_opcodeRegRm _)) <|
    switch_cons (fun _ _ => say takes_movRmImm speaks_movRmImm) <|
    switch_cons (fun _ _ => say takes_enter speaks_enter) <|
    switch_cons (fun _ _ => say (takes_mnemonic _) (speaks_mnemonic _)) <|
    switch_cons (fun _ _ => say (takes_retAddImm ..) (speaks_retAddImm ..)) <|
    switch_cons (fun _ _ => say (takes_quiet (quiet_mnemonicV ..)) (speaks_mnemonicV ..)) <|
    switch_cons (fun _ _ => say (takes_mnemonic _) (speaks_mnemonic _)) ?_
  refine switch_cons (fun hlo hhi => say (takes_int ?_) speaks_int) ?_
  · have hcd : m.opcode = 0xCD := BitVec.eq_of_toNat_eq (Nat.le_antisymm hhi hlo)
    rw [hcd]
    decide
  refine switch_cons (fun _ _ => say (takes_mnemonic _) (speaks_mnemonic _)) <|
    switch_cons (fun _ _ => say (takes_mnemonic _) (speaks_mnemonic _)) <|
    switch_cons (fun _ _ => say takes_decodeOpcodeD0 speaks_decodeOpcodeD0) <|
    switch_cons (fun _ _ => say (takes_opcodeAdjust _) (speaks_opcodeAdjust _)) <|
    switch_cons (fun _ _ => say (takes_opcodeAdjust _) (speaks_opcodeAdjust _)) <|
    switch_cons (fun _ _ => say (takes_mnemonic _) (speaks_mnemonic _)) <|
    switch_cons (fun _ _ => say takes_xlat speaks_xlat) <|
    switch_cons (fun _ _ => say takes_esc speaks_esc) ?_
  -- E0 to FF
  iterate 4 refine switch_cons (fun _ _ => say (takes_opcodeLoop _) (speaks_opcodeLoop _)) ?_
  refine switch_cons (fun _ _ => say takes_inAccumImm speaks_inAccumImm) <|
    switch_cons (fun _ _ => say takes_outAccumImm speaks_outAccumImm) <|
    switch_cons (fun _ _ => say takes_callIntraDirect speaks_callIntraDirect) <|
    switch_cons (fun _ _ => say takes_jmpIntraDirect speaks_jmpIntraDirect) <|
    switch_cons (fun _ _ => say (takes_opcodeFar _) (speaks_opcodeFar _)) <|
    switch_cons (fun _ _ => say takes_jmpIntraDirectShort speaks_jmpIntraDirectShort) <|
    switch_cons (fun _ _ => say takes_inAccumDx speaks_inAccumDx) <|
    switch_cons (fun _ _ => say takes_outAccumDx speaks_outAccumDx) ?_
  iterate 2 refine switch_cons (hbyte (by decide)) ?_
  iterate 2 refine switch_cons (fun _ _ => say (takes_mnemonic _) (speaks_mnemonic _)) ?_
  refine switch_cons (fun hlo hhi => hrow takes_decodeOpcodeF6 (.inr (hsilent (by decide) hlo hhi))) ?_
  iterate 6 refine switch_cons (fun _ _ => say (takes_mnemonic _) (speaks_mnemonic _)) ?_
  refine switch_cons (fun hlo hhi => hrow takes_decodeOpcodeFe (.inr (hsilent (by decide) hlo hhi))) <|
    switch_cons (fun hlo hhi => hrow takes_decodeOpcodeFf (.inr (hsilent (by decide) hlo hhi))) ?_
  exact hd

/-! ## What an opcode fetches -/

theorem opcodes0f_takes (hz : m.modrm = 0) :
    Takes mmu (switch m.opcode.toNat (pure ()) opcodes0f) m
      (m.fields mmu (switch m.opcode.toNat planNone plans0f)) :=
  opcodes0f_rel (R := Follows mmu m) hz (fun h _ => h) (takes_quiet (quiet_pure ()))

theorem opcodes_takes (hop : m.opcode.toNat ∉ fetchesOpcode) :
    FollowsBrk mmu m (switch m.opcode.toNat (pure .ok) opcodes)
      (switch m.opcode.toNat planNone (plans m.opcode)) :=
  opcodes_rel (R := FollowsBrk mmu m) hop (fun h _ => follows_brk h) (ends_pure _ ⟨rfl, rfl⟩)

/-! ## What an opcode leaves in the line -/

section

variable {α : Type} {op : Nat} {d d' : α} {rows : List (Nat × Nat × α)}

/-- An opcode with a case has no need of the default. -/
theorem switch_of_hasCase (h : hasCase op rows = true) : switch op d rows = switch op d' rows := by
  induction rows with
  | nil => cases h
  | cons row rows ih =>
      obtain ⟨lo, hi, x⟩ := row
      rw [switch, switch]
      by_cases hop : lo ≤ op ∧ op ≤ hi
      · rw [if_pos hop, if_pos hop]
      · rw [if_neg hop, if_neg hop]
        refine ih ?_
        rw [hasCase, List.any_cons, Bool.or_eq_true, Bool.and_eq_true, decide_eq_true_eq,
          decide_eq_true_eq] at h
        exact h.resolve_left hop

theorem switch_of_not_hasCase (h : hasCase op rows = false) : switch op d rows = d := by
  induction rows with
  | nil => rfl
  | cons row rows ih =>
      obtain ⟨lo, hi, x⟩ := row
      rw [hasCase, List.any_cons, Bool.or_eq_false_iff] at h
      have hop : ¬ (lo ≤ op ∧ op ≤ hi) := by
        rintro ⟨hlo, hhi⟩
        simp [hlo, hhi] at h
      rw [switch, if_neg hop]
      exact ih h.2

end

theorem hasCase_opcodes : ∀ op < 256, hasCase op opcodes = true := by decide +kernel

theorem silentRegs_eq_nil {op : Nat} (h6 : op ≠ 0xF6) (h7 : op ≠ 0xF7) (he : op ≠ 0xFE)
    (hf : op ≠ 0xFF) : silentRegs false op = [] := by
  rw [silentRegs, if_neg Bool.false_ne_true, if_neg (not_or.mpr ⟨h6, h7⟩), if_neg he, if_neg hf]

/-- The handler of an opcode: what it fetches, and whether it prints. -/
theorem opcodes_voices (hop : m.opcode.toNat ∉ fetchesOpcode) :
    ∃ x, switch m.opcode.toNat (pure .ok) opcodes = brk x ∧
      Follows mmu m x (switch m.opcode.toNat planNone (plans m.opcode)) ∧
        Voices mmu x m (mid3 (byteAt mmu m 0) ∈ silentRegs false m.opcode.toNat) := by
  by_cases h6 : m.opcode.toNat = 0xF6
  · rw [h6]
    exact ⟨decodeOpcodeF6, rfl, takes_decodeOpcodeF6, voices_decodeOpcodeF6⟩
  by_cases h7 : m.opcode.toNat = 0xF7
  · rw [h7]
    exact ⟨decodeOpcodeF6, rfl, takes_decodeOpcodeF6, voices_decodeOpcodeF6⟩
  by_cases he : m.opcode.toNat = 0xFE
  · rw [he]
    exact ⟨decodeOpcodeFe, rfl, takes_decodeOpcodeFe, voices_decodeOpcodeFe⟩
  by_cases hf : m.opcode.toNat = 0xFF
  · rw [hf]
    exact ⟨decodeOpcodeFf, rfl, takes_decodeOpcodeFf, voices_decodeOpcodeFf⟩
  · have hnil := silentRegs_eq_nil h6 h7 he hf
    obtain ⟨x, hx, hfollows, hspeaks⟩ := @opcodes_rel mmu _
      (fun z p => ∃ x, z = brk x ∧ Follows mmu m x p ∧ Speaks x) (brk clts) planNone hop
      (fun ht hs => ⟨_, rfl, ht, hs.resolve_right fun h => h hnil⟩)
      ⟨_, rfl, takes_mnemonic _, speaks_mnemonic _⟩
    refine ⟨x, ?_, hfollows, hspeaks.voices ?_⟩
    · rw [switch_of_hasCase (hasCase_opcodes _ m.opcode.isLt), hx]
    · rw [hnil]
      exact List.not_mem_nil

theorem opcodes0f_voices (hz : m.modrm = 0) :
    Voices mmu (switch m.opcode.toNat (pure ()) opcodes0f) m
      (hasCase m.opcode.toNat opcodes0f = false ∨
        mid3 (byteAt mmu m 0) ∈ silentRegs true m.opcode.toNat) := by
  by_cases hcase : hasCase m.opcode.toNat opcodes0f = true
  · rw [hcase, or_iff_right Bool.true_eq_false.mp]
    by_cases h0 : m.opcode.toNat = 0x00
    · rw [h0]
      exact voices_decodeOpcode0f00
    by_cases h1 : m.opcode.toNat = 0x01
    · rw [h1]
      exact voices_decodeOpcode0f01
    have hnil : silentRegs true m.opcode.toNat = [] := by
      rw [silentRegs, if_pos rfl, if_neg h0, if_neg h1]
    have hspeaks := @opcodes0f_rel mmu _ (fun x _ => Speaks x) clts planNone hz
      (fun _ hs => hs.resolve_right fun h => h hnil) (speaks_mnemonic _)
    rw [@switch_of_hasCase _ _ _ clts _ hcase, hnil]
    exact hspeaks.voices List.not_mem_nil
  · rw [switch_of_not_hasCase (Bool.eq_false_iff.mpr hcase)]
    exact voices_pure (Or.inl (Bool.eq_false_iff.mpr hcase))

end Tomk.Disasm
