/-
# The instruction format of the 80386, in 32-bit mode

An instruction is a row of prefixes, an opcode of one or two bytes, and the fields behind
it: a ModR/M byte, a SIB byte, a displacement and an immediate, each where the opcode
or the field before asks for it.  The opcode maps say for each opcode which fields it has
(`Form`), in rows of sixteen; undefined opcodes, prefixes and the escape byte 0F have no form.
The widths of a displacement and of an immediate depend on the two sizes, of an operand and
of an address, which are 32 bits without a prefix.

An instruction is no longer than 15 bytes.  A prefix may be repeated, with the meaning
that it has once.
-/
import Mathlib.Algebra.GroupWithZero.Nat
import Mathlib.Tactic.Common

namespace I386

abbrev Byte := BitVec 8

/-! ## Fields -/

/-- What follows the operand of the ModR/M byte, or the opcode. -/
inductive Imm where
  | none
  | b
  | w
  /-- A word or a dword, by the operand size. -/
  | z
  /-- A word and a byte, for `ENTER`. -/
  | wb
  /-- An offset by the operand size, and a selector. -/
  | far
  /-- An offset by the address size. -/
  | moffs
deriving DecidableEq

/-- The widths of an immediate, in bytes. -/
def Imm.fields (op32 addr32 : Bool) : Imm → List Nat
  | none => []
  | b => [1]
  | w => [2]
  | z => [if op32 then 4 else 2]
  | wb => [2, 1]
  | far => [if op32 then 4 else 2, 2]
  | moffs => [if addr32 then 4 else 2]

/-- The low three bits: `r/m`, or `base`. -/
def low3 (b : Byte) : Nat := b.toNat % 8

/-- The middle three bits: `reg`, or `index`. -/
def mid3 (b : Byte) : Nat := b.toNat / 8 % 8

/-- The high two bits: `mod`, or `scale`. -/
def high2 (b : Byte) : Nat := b.toNat / 64

/-- Whether the ModR/M byte has a SIB byte behind it. -/
def HasSib (addr32 : Bool) (modrm : Byte) : Prop :=
  addr32 = true ∧ high2 modrm ≠ 0b11 ∧ low3 modrm = 0b100

instance (addr32 : Bool) (modrm : Byte) : Decidable (HasSib addr32 modrm) :=
  inferInstanceAs (Decidable (_ ∧ _))

def sibFields (addr32 : Bool) (modrm : Byte) : List Nat :=
  if HasSib addr32 modrm then [1] else []

/-- The displacement of the operand. -/
def dispFields (addr32 : Bool) (modrm sib : Byte) : List Nat :=
  if high2 modrm = 0b00 then
    if addr32 then
      if low3 modrm = 0b101 ∨ low3 modrm = 0b100 ∧ low3 sib = 0b101 then [4] else []
    else if low3 modrm = 0b110 then [2]
    else []
  else if high2 modrm = 0b01 then [1]
  else if high2 modrm = 0b10 then [if addr32 then 4 else 2]
  else []

/-! ## Numbers -/

/-- The number that a row of bytes stands for. -/
def littleEndian : List Byte → Nat
  | [] => 0
  | b :: l => b.toNat + 256 * littleEndian l

theorem littleEndian_lt (l : List Byte) : littleEndian l < 2 ^ (8 * l.length) := by
  induction l with
  | nil => exact Nat.one_pos
  | cons b l ih =>
      have hb := b.isLt
      rw [littleEndian, List.length_cons, Nat.mul_add, Nat.mul_one, Nat.pow_add]
      omega

theorem littleEndian_inj {l l' : List Byte} (hlen : l.length = l'.length)
    (h : littleEndian l = littleEndian l') : l = l' := by
  induction l generalizing l' with
  | nil => exact (List.length_eq_zero_iff.mp hlen.symm).symm
  | cons b l ih =>
      cases l' with
      | nil => exact absurd hlen (Nat.succ_ne_zero _)
      | cons b' l' =>
          have hb := b.isLt
          have hb' := b'.isLt
          rw [littleEndian, littleEndian] at h
          have hhead : b = b' := BitVec.eq_of_toNat_eq (by omega)
          rw [hhead, ih (Nat.succ.inj hlen) (by omega)]

/-- A row of bytes as a number with a sign, in 32 bits. -/
def signExtended (l : List Byte) : BitVec 32 :=
  (BitVec.ofNat (8 * l.length) (littleEndian l)).signExtend 32

/-! ## Addresses -/

/-- The general registers, by their numbers. -/
abbrev Registers := Nat → BitVec 32

/-- What an operand in memory adds up beside its displacement: a base, and an index times its
scale. -/
structure Address where
  base : Option Nat
  index : Option (Nat × Nat)

/-- With a SIB byte, or without. -/
def address32 (modrm sib : Byte) : Address :=
  if low3 modrm = 0b100 then
    ⟨if high2 modrm = 0b00 ∧ low3 sib = 0b101 then none else some (low3 sib),
      if mid3 sib = 0b100 then none else some (mid3 sib, 2 ^ high2 sib)⟩
  else ⟨if high2 modrm = 0b00 ∧ low3 modrm = 0b101 then none else some (low3 modrm), none⟩

/-- BX is 3, BP 5, SI 6 and DI 7. -/
def address16 (modrm : Byte) : Address :=
  [⟨some 3, some (6, 1)⟩, ⟨some 3, some (7, 1)⟩, ⟨some 5, some (6, 1)⟩, ⟨some 5, some (7, 1)⟩,
    ⟨none, some (6, 1)⟩, ⟨none, some (7, 1)⟩,
    ⟨if high2 modrm = 0b00 then none else some 5, none⟩].getD (low3 modrm) ⟨some 3, none⟩

def address (addr32 : Bool) (modrm sib : Byte) : Address :=
  if addr32 then address32 modrm sib else address16 modrm

def Address.value (regs : Registers) (a : Address) : BitVec 32 :=
  a.base.elim 0 regs + a.index.elim 0 fun i => regs i.1 * BitVec.ofNat 32 i.2

/-- In how many bits an address is computed. -/
def addressBits (addr32 : Bool) : Nat := if addr32 then 32 else 16

def effectiveAddress (regs : Registers) (addr32 : Bool) (modrm sib : Byte) (disp : List Byte) : Nat :=
  ((address addr32 modrm sib).value regs + signExtended disp).toNat % 2 ^ addressBits addr32

/-- SS for an address on the stack, from ESP or EBP; else DS. -/
def defaultSegment (addr32 : Bool) (modrm sib : Byte) : Nat :=
  if (address addr32 modrm sib).base = some 4 ∨ (address addr32 modrm sib).base = some 5 then 2
  else 3

/-! ## Branches -/

/-- Where a relative branch goes, from the address behind it; a 16-bit operand size cuts it off. -/
def branchTarget (op32 : Bool) (next : BitVec 32) (disp : List Byte) : BitVec 32 :=
  if op32 then next + signExtended disp else (next + signExtended disp) &&& 0xFFFF

/-! ## Opcodes -/

/-- The fields of an opcode. -/
inductive Form where
  | undefined
  /-- No ModR/M byte. -/
  | imm (i : Imm)
  /-- A ModR/M byte. -/
  | rm (i : Imm)
  /-- A ModR/M byte that names two registers. -/
  | regs
  /-- A ModR/M byte whose register field is a part of the opcode. -/
  | group (l : List (Option Imm))
deriving DecidableEq

/-- Whether the opcode is defined, with this ModR/M byte. -/
def Form.Defined (modrm : Byte) : Form → Prop
  | undefined => False
  | imm _ => True
  | rm _ => True
  | regs => high2 modrm = 0b11
  | group l => (l.getD (mid3 modrm) Option.none).isSome

instance (modrm : Byte) : (f : Form) → Decidable (f.Defined modrm)
  | .undefined => .isFalse id
  | .imm _ => .isTrue trivial
  | .rm _ => .isTrue trivial
  | .regs => inferInstanceAs (Decidable (_ = _))
  | .group _ => inferInstanceAs (Decidable (_ = true))

def Form.fields (op32 addr32 : Bool) (modrm sib : Byte) : Form → List Nat
  | undefined => []
  | imm i => i.fields op32 addr32
  | rm i => 1 :: sibFields addr32 modrm ++ dispFields addr32 modrm sib ++ i.fields op32 addr32
  | regs => [1]
  | group l => 1 :: sibFields addr32 modrm ++ dispFields addr32 modrm sib
      ++ ((l.getD (mid3 modrm) Option.none).getD .none).fields op32 addr32

/-- Whether there is a ModR/M byte. -/
def Form.hasModrm : Form → Bool
  | undefined => false
  | imm _ => false
  | rm _ => true
  | regs => true
  | group _ => true

/-- What is behind the operand, or behind the opcode. -/
def Form.immediate (modrm : Byte) : Form → Imm
  | undefined => .none
  | imm i => i
  | rm i => i
  | regs => .none
  | group l => (l.getD (mid3 modrm) Option.none).getD .none

theorem Form.fields_eq {f : Form} {modrm : Byte} (hdef : f.Defined modrm) (op32 addr32 : Bool)
    (sib : Byte) : f.fields op32 addr32 modrm sib
      = (if f.hasModrm then 1 :: (sibFields addr32 modrm ++ dispFields addr32 modrm sib) else [])
        ++ (f.immediate modrm).fields op32 addr32 := by
  cases f with
  | undefined => exact hdef.elim
  | imm i => rfl
  | rm i => rfl
  | regs =>
      have h3 : high2 modrm = 3 := hdef
      have hsib : sibFields addr32 modrm = [] := if_neg fun h => h.2.1 h3
      have hdisp : dispFields addr32 modrm sib = [] := by
        rw [dispFields, h3]
        rfl
      rw [hsib, hdisp]
      rfl
  | group l => rfl

/-! ## The opcode maps -/

/-- Nothing there, an opcode alone, and one with an operand. -/
abbrev X : Form := .undefined

abbrev N : Form := .imm .none

abbrev E : Form := .rm .none

abbrev Ib : Form := .imm .b

abbrev Iz : Form := .imm .z

abbrev EIb : Form := .rm .b

abbrev EIz : Form := .rm .z

def oneByteMap : List (List Form) :=
  [[E, E, E, E, Ib, Iz, N, N, E, E, E, E, Ib, Iz, N, X],
   [E, E, E, E, Ib, Iz, N, N, E, E, E, E, Ib, Iz, N, N],
   [E, E, E, E, Ib, Iz, X, N, E, E, E, E, Ib, Iz, X, N],
   [E, E, E, E, Ib, Iz, X, N, E, E, E, E, Ib, Iz, X, N],
   [N, N, N, N, N, N, N, N, N, N, N, N, N, N, N, N],
   [N, N, N, N, N, N, N, N, N, N, N, N, N, N, N, N],
   [N, N, E, E, X, X, X, X, Iz, EIz, Ib, EIb, N, N, N, N],
   [Ib, Ib, Ib, Ib, Ib, Ib, Ib, Ib, Ib, Ib, Ib, Ib, Ib, Ib, Ib, Ib],
   [EIb, EIz, EIb, EIb, E, E, E, E, E, E, E, E, E, E, E, E],
   [N, N, N, N, N, N, N, N, N, N, .imm .far, N, N, N, N, N],
   [.imm .moffs, .imm .moffs, .imm .moffs, .imm .moffs, N, N, N, N, Ib, Iz, N, N, N, N, N, N],
   [Ib, Ib, Ib, Ib, Ib, Ib, Ib, Ib, Iz, Iz, Iz, Iz, Iz, Iz, Iz, Iz],
   [EIb, EIb, .imm .w, N, E, E, EIb, EIz, .imm .wb, N, .imm .w, N, N, Ib, N, N],
   [E, E, E, E, Ib, Ib, N, N, E, E, E, E, E, E, E, E],
   [Ib, Ib, Ib, Ib, Ib, Ib, Ib, Ib, Iz, Iz, .imm .far, Ib, N, N, N, N],
   [X, X, X, X, N, N,
    .group [some .b, none, some .none, some .none, some .none, some .none, some .none, some .none],
    .group [some .z, none, some .none, some .none, some .none, some .none, some .none, some .none],
    N, N, N, N, N, N, .group [some .none, some .none],
    .group [some .none, some .none, some .none, some .none, some .none, some .none, some .none]]]

def twoByteMap : List (List Form) :=
  [[.group [some .none, some .none, some .none, some .none, some .none, some .none],
    .group [some .none, some .none, some .none, some .none, some .none, none, some .none],
    E, E, X, X, N],
   [],
   [.regs, .regs, .regs, .regs, .regs, X, .regs],
   [], [], [], [], [],
   [Iz, Iz, Iz, Iz, Iz, Iz, Iz, Iz, Iz, Iz, Iz, Iz, Iz, Iz, Iz, Iz],
   [E, E, E, E, E, E, E, E, E, E, E, E, E, E, E, E],
   [N, N, X, E, EIb, E, X, X, N, N, X, E, EIb, E, X, E],
   [X, X, E, E, E, E, E, E, X, X,
    .group [none, none, none, none, some .b, some .b, some .b, some .b], E, E, E, E, E]]

/-- The form at a place of a map. -/
def entry (map : List (List Form)) (op : Nat) : Form :=
  (map.getD (op / 16) []).getD (op % 16) .undefined

/-- The form of an opcode, behind the escape byte or not. -/
def form (escape : Bool) (opcode : Byte) : Form :=
  entry (if escape then twoByteMap else oneByteMap) opcode.toNat

/-! ## Instructions -/

def escapeByte : Byte := 0x0F

def operandSizePrefix : Byte := 0x66

def addressSizePrefix : Byte := 0x67

/-- The segment overrides, the sizes, lock and the two repetitions. -/
def prefixBytes : List Byte :=
  [0x26, 0x2E, 0x36, 0x3E, 0x64, 0x65, operandSizePrefix, addressSizePrefix, 0xF0, 0xF2, 0xF3]

/-- An instruction, byte by byte. -/
structure Instruction where
  prefixes : List Byte
  escape : Bool
  opcode : Byte
  /-- The fields behind the opcode. -/
  operands : List Byte
  prefixes_mem : ∀ b ∈ prefixes, b ∈ prefixBytes
  defined : (form escape opcode).Defined (operands.getD 0 0)
  operands_length : operands.length = ((form escape opcode).fields
    (decide (operandSizePrefix ∉ prefixes)) (decide (addressSizePrefix ∉ prefixes))
    (operands.getD 0 0) (operands.getD 1 0)).sum
  short : prefixes.length + (if escape then 2 else 1) + operands.length ≤ 15

namespace Instruction

variable (ins : Instruction)

def opcodeBytes : List Byte := if ins.escape then [escapeByte, ins.opcode] else [ins.opcode]

def bytes : List Byte := ins.prefixes ++ ins.opcodeBytes ++ ins.operands

def form : Form := I386.form ins.escape ins.opcode

/-- The operand size is 32 bits. -/
def op32 : Bool := operandSizePrefix ∉ ins.prefixes

def addr32 : Bool := addressSizePrefix ∉ ins.prefixes

def modrm : Byte := ins.operands.getD 0 0

def sib : Byte := ins.operands.getD 1 0

def fields : List Nat := ins.form.fields ins.op32 ins.addr32 ins.modrm ins.sib

theorem operands_length_eq : ins.operands.length = ins.fields.sum := ins.operands_length

theorem length_bytes : ins.bytes.length
    = ins.prefixes.length + (if ins.escape then 2 else 1) + ins.operands.length := by
  rw [bytes, opcodeBytes, List.length_append, List.length_append]
  split <;> rfl

theorem length_bytes_le : ins.bytes.length ≤ 15 := ins.length_bytes ▸ ins.short

end Instruction

/-- The rows of bytes that are an instruction. -/
def Encodes (prefixes : List Byte) (escape : Bool) (opcode : Byte) (operands : List Byte) : Prop :=
  ((∀ b ∈ prefixes, b ∈ prefixBytes) ∧ (form escape opcode).Defined (operands.getD 0 0)) ∧
    (operands.length = ((form escape opcode).fields
      (decide (operandSizePrefix ∉ prefixes)) (decide (addressSizePrefix ∉ prefixes))
      (operands.getD 0 0) (operands.getD 1 0)).sum ∧
        prefixes.length + (if escape then 2 else 1) + operands.length ≤ 15)

instance (prefixes : List Byte) (escape : Bool) (opcode : Byte) (operands : List Byte) :
    Decidable (Encodes prefixes escape opcode operands) := inferInstanceAs (Decidable (_ ∧ _))

def Encodes.instruction {prefixes : List Byte} {escape : Bool} {opcode : Byte}
    {operands : List Byte} (h : Encodes prefixes escape opcode operands) : Instruction :=
  ⟨prefixes, escape, opcode, operands, h.1.1, h.1.2, h.2.1, h.2.2⟩

end I386
