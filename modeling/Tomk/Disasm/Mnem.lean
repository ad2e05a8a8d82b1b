/-
# `i80386_mnem.c`: the state of the decoder, fetches and tokens

A handler is a function that returns early (`Dec`): `return` after a failed fetch is
`ret`, and an access of memory that the page tables do not map is a fault.  A
fetch asks `pg_virt2phys` about the first of its bytes and then reads all of them, so that a
word can fault in its second byte.  `fetch_byte` and its siblings return 0 where they do
not read; since all that the handlers do with a 0 is to return, a fetch here does that itself,
and the places of the source that do not look at the result are a `call`.

Of `MNEM_TOKEN` the length is left out, and of `I80386_MNEM` the
base and the effective address: nothing reads them.  A text is one of the literals of the
file, not empty and of eight characters at most (`Name`), and a line has room for
`I80386_MNEM_MAX_TOKENS` tokens.
-/
import Tomk.Mm.Paging
import Tomk.Libc.Printf
import Tomk.Lib.Early

namespace Tomk.Disasm

open Early

/-! ## Memory -/

/-- A byte at a virtual address. -/
def loadByte (va : U32) (mmu : Mmu) : Option U8 :=
  (mmu.load va).map fun w : U32 => (w >>> (8 * (va.toNat % 4))).setWidth 8

def loadWord (va : U32) (mmu : Mmu) : Option (BitVec 16) := do
  let lo ← loadByte va mmu
  let hi ← loadByte (va + 1) mmu
  pure (hi ++ lo)

def loadDword (va : U32) (mmu : Mmu) : Option U32 := do
  let lo ← loadWord va mmu
  let hi ← loadWord (va + 2) mmu
  pure (hi ++ lo)

/-! ## Tokens -/

inductive TokenType where
  | mnemonic
  | generalRegister
  | controlRegister
  | debugRegister
  | testRegister
  | immediate
  | number
  | memory
  | segment
  | instrPrefix
  | operator
  | relativeAddress
  | absoluteAddress
deriving DecidableEq

def Named (t : List U8) : Prop := 0 < t.length ∧ t.length ≤ 8

instance (t : List U8) : Decidable (Named t) := inferInstanceAs (Decidable (_ ∧ _))

/-- A text of the file. -/
structure Name where
  text : List U8
  named : Named text

def name (s : String) (h : Named (chars s) := by decide) : Name := ⟨chars s, h⟩

/-! The texts that are printed in more than one place. -/

theorem named_cl : Named (chars "cl") := by decide

theorem named_comma : Named (chars ",") := by decide

theorem named_open : Named (chars "[") := by decide

theorem named_close : Named (chars "]") := by decide

structure Token where
  type : TokenType
  /-- `NULL` is `none`. -/
  text : Option Name
  number : U32
  /-- In bytes; 0 where the width is of no meaning. -/
  operandSize : Nat

def maxTokens : Nat := 32

/-- `MNEM_RENDER_LINE`: the tokens up to `token_count`. -/
structure RenderLine where
  tokens : List Token
  fits : tokens.length ≤ maxTokens

def RenderLine.empty : RenderLine := ⟨[], Nat.zero_le _⟩

def RenderLine.add (line : RenderLine) (t : Token) : RenderLine :=
  if h : line.tokens.length < maxTokens then
    ⟨line.tokens ++ [t], by rw [List.length_append]; exact h⟩
  else line

def reg8Mnem : List Name :=
  [name "al", name "cl" named_cl, name "dl", name "bl", name "ah", name "ch", name "dh", name "bh"]

def reg16Mnem : List Name :=
  [name "ax", name "cx", name "dx", name "bx", name "sp", name "bp", name "si", name "di"]

def reg32Mnem : List Name :=
  [name "eax", name "ecx", name "edx", name "ebx", name "esp", name "ebp", name "esi", name "edi"]

def crMnem : List Name :=
  [name "cr0", name "cr1", name "cr2", name "cr3", name "cr4", name "cr5", name "cr6", name "cr7"]

def drMnem : List Name :=
  [name "dr0", name "dr1", name "dr2", name "dr3", name "dr4", name "dr5", name "dr6", name "dr7"]

def trMnem : List Name :=
  [name "tr0", name "tr1", name "tr2", name "tr3", name "tr4", name "tr5", name "tr6", name "tr7"]

def segMnem : List Name :=
  [name "es", name "cs", name "ss", name "ds", name "fs", name "gs"]

/-- The names by condition, in the order of `opcode_bits.h`. -/
def jccMnem : List Name :=
  [name "jo", name "jno", name "jc", name "jnc", name "jz", name "jnz", name "jbe", name "ja",
    name "js", name "jns", name "jp", name "jnp", name "jl", name "jge", name "jle", name "jg"]

def regBX : Nat := 3

def regSP : Nat := 4

def regBP : Nat := 5

def regSI : Nat := 6

def regDI : Nat := 7

def segSS : Nat := 2

def segDS : Nat := 3

/-! ## The decoder -/

/-- `I80386_MNEM`, with the line it renders to. -/
structure Mnem where
  counter : BitVec 16
  offset : U32
  opcode : U8
  segmentPrefix : U8
  internalFlags : U8
  operandSize : U8
  addressingSize : U8
  modrm : U8
  sib : U8
  line : RenderLine

/-- A function of the decoder. -/
abbrev Dec (α : Type) := Early Mmu Mnem α

namespace Mnem

def eip (m : Mnem) : U32 := m.offset + m.counter.setWidth 32

/-- `operand_size` as a condition. -/
def op32 (m : Mnem) : Bool := m.operandSize != 0

def addr32 (m : Mnem) : Bool := m.addressingSize != 0

end Mnem

/-! The bit fields of the ModR/M byte, and of the SIB byte. -/

def rmField (b : U8) : Nat := b.toNat % 8

def regField (b : U8) : Nat := b.toNat / 8 % 8

def modField (b : U8) : Nat := b.toNat / 64

def baseField (b : U8) : Nat := b.toNat % 8

def indexField (b : U8) : Nat := b.toNat / 8 % 8

def scaleField (b : U8) : Nat := b.toNat / 64

namespace Mnem

def rm (m : Mnem) : Nat := rmField m.modrm

def reg (m : Mnem) : Nat := regField m.modrm

def mod (m : Mnem) : Nat := modField m.modrm

def base (m : Mnem) : Nat := baseField m.sib

def index (m : Mnem) : Nat := indexField m.sib

/-! ### `opcode_bits.h` -/

/-- `W`: 0 is a byte, 1 a word or a dword by the operand size. -/
def w (m : Mnem) : Bool := m.opcode &&& 0x1 != 0

def wreg (m : Mnem) : Bool := m.opcode &&& 0x8 != 0

/-- `S`: a byte, sign extended. -/
def s (m : Mnem) : Bool := m.opcode &&& 0x2 != 0

/-- `VW`: the count is in CL. -/
def vw (m : Mnem) : Bool := m.opcode &&& 0x2 != 0

/-- `D`: the register is the destination. -/
def d (m : Mnem) : Bool := m.opcode &&& 0x2 != 0

def esr (m : Mnem) : Nat := ((m.opcode >>> 3) &&& 0x7).toNat

def cccc (m : Mnem) : Nat := (m.opcode &&& 0x0F).toNat

/-- `opcode & 7`, a register. -/
def opReg (m : Mnem) : Nat := (m.opcode &&& 7).toNat

/-- `F1`: there is a rep prefix. -/
def f1 (m : Mnem) : Bool := m.internalFlags &&& 0x2 != 0

def f1z (m : Mnem) : Bool := m.internalFlags &&& 0x1 != 0

/-- `get_seg_index`. -/
def segIndex (m : Mnem) : Nat :=
  if m.segmentPrefix ≠ 0xFF then m.segmentPrefix.toNat
  else if m.addr32 then
    if m.rm = 0b100 ∧ m.mod = 0b00 ∧ m.base = 0b101 then segDS
    else if m.mod = 0b00 ∧ m.rm = 0b101 then segDS
    else
      let baseReg := if m.rm = 0b100 then m.base else m.rm
      if baseReg = regBP ∨ baseReg = regSP then segSS else segDS
  else if m.mod = 0b00 ∧ m.rm = 0b110 then segDS
  else if m.rm = 0b010 ∨ m.rm = 0b011 ∨ m.rm = 0b110 then segSS
  else segDS

end Mnem

/-! ## Fetches -/

/-- `fetch_byte`, `fetch_word` and `fetch_dword`: `k` bytes, which `load` reads. -/
def fetch {α : Type} (k : Nat) (load : U32 → Mmu → Option α) : Dec α := do
  let m ← state
  let phys ← access (pgVirt2phys · m.eip)
  if phys = 0 then ret
  else do
    let value ← access (load m.eip)
    update fun m => { m with counter := m.counter + BitVec.ofNat 16 k }
    pure value

def fetchByte : Dec U8 := fetch 1 loadByte

def fetchWord : Dec (BitVec 16) := fetch 2 loadWord

def fetchDword : Dec U32 := fetch 4 loadDword

def sibCheck : Dec Unit := do
  let m ← state
  if m.addr32 ∧ m.mod ≠ 0b11 ∧ m.rm = 0b100 then do
    let sib ← fetchByte
    update fun m => { m with sib := sib }
  else pure ()

def fetchModrm : Dec Unit := do
  let modrm ← fetchByte
  update fun m => { m with modrm := modrm }
  sibCheck

/-! ## Adding tokens -/

def addToken (type : TokenType) (text : Option Name) (number : U32) (operandSize : Nat) :
    Dec Unit :=
  update fun m => { m with line := m.line.add ⟨type, text, number, operandSize⟩ }

def mnemonic (text : Name) : Dec Unit := addToken .mnemonic (some text) 0 0

def operator (text : Name) : Dec Unit := addToken .operator (some text) 0 0

def memory (text : Name) : Dec Unit := addToken .memory (some text) 0 0

def instrPrefix (text : Name) : Dec Unit := addToken .instrPrefix (some text) 0 0

def immediate (v : U32) (size : Nat) : Dec Unit := addToken .immediate none v size

def number (v : U32) (size : Nat) : Dec Unit := addToken .number none v size

def relativeAddress (v : U32) (size : Nat) : Dec Unit := addToken .relativeAddress none v size

/-- Register `i` of a table. -/
def register (type : TokenType) (names : List Name) (i size : Nat) : Dec Unit :=
  addToken type names[i]? (BitVec.ofNat 32 i) size

def reg8 (i : Nat) : Dec Unit := register .generalRegister reg8Mnem i 1

def reg16 (i : Nat) : Dec Unit := register .generalRegister reg16Mnem i 2

def reg32 (i : Nat) : Dec Unit := register .generalRegister reg32Mnem i 4

/-- A segment register, by its index; a few tokens get the number 0 beside it. -/
def segment (i : Nat) (number : U32) : Dec Unit := addToken .segment segMnem[i]? number 2

def comma : Dec Unit := operator (name "," named_comma)

def colon : Dec Unit := operator (name ":")

def plus : Dec Unit := operator (name "+")

def jumpConditionToken : Dec Unit := do
  let m ← state
  addToken .mnemonic jccMnem[m.cccc]? 0 0

/-! ## The operand of the ModR/M byte -/

def regSum (i j : Nat) : Dec Unit := do
  reg16 i
  plus
  reg16 j

def getBaseToken : Dec Unit := do
  let m ← state
  if m.rm = 0b000 then regSum regBX regSI
  else if m.rm = 0b001 then regSum regBX regDI
  else if m.rm = 0b010 then regSum regBP regSI
  else if m.rm = 0b011 then regSum regBP regDI
  else if m.rm = 0b100 then reg16 regSI
  else if m.rm = 0b101 then reg16 regDI
  else if m.rm = 0b110 then reg16 regBP
  else reg16 regBX

/-- `index * scale` of the SIB byte. -/
def scaledIndex : Dec Unit := do
  let m ← state
  reg32 m.index
  operator (name "*")
  number (1 <<< scaleField m.sib) 4

/-- `mod` is 0, with 32-bit addressing. -/
def modrmToken00 : Dec Unit := do
  let m ← state
  if m.rm = 0b100 then
    if m.index = 0b100 then
      if m.base = 0b101 then do
        let disp ← fetchDword
        immediate disp 4
      else reg32 m.base
    else if m.base = 0b101 then do
      let disp ← fetchDword
      scaledIndex
      plus
      immediate disp 4
    else do
      reg32 m.base
      plus
      scaledIndex
  else if m.rm = 0b101 then do
    let disp ← fetchDword
    immediate disp 4
  else reg32 m.rm

/-- `mod` is 0, with 16-bit addressing. -/
def modrmToken00w : Dec Unit := do
  let m ← state
  if m.rm = 0b110 then do
    let disp ← fetchWord
    immediate (disp.setWidth 32) 2
  else getBaseToken

/-- The registers before a displacement, with 32-bit addressing. -/
def baseToken32 : Dec Unit := do
  let m ← state
  if m.rm = 0b100 then do
    reg32 m.base
    if m.index = 0b100 then plus
    else do
      scaledIndex
      plus
  else do
    reg32 m.rm
    plus

/-- The registers before a displacement. -/
def baseToken : Dec Unit := do
  let m ← state
  if m.addr32 then baseToken32
  else do
    getBaseToken
    plus

/-- `mod` is 1. -/
def modrmToken01 : Dec Unit := do
  let disp ← fetchByte
  baseToken
  immediate (disp.signExtend 32) 1

/-- `mod` is 2. -/
def modrmToken10 : Dec Unit := do
  let m ← state
  if m.addr32 then do
    let disp ← fetchDword
    baseToken
    immediate disp 4
  else do
    let disp ← fetchWord
    baseToken
    immediate (disp.signExtend 32) 2

/-- The switch over `mod`; there is no case for 3. -/
def modrmDisplacement : Dec Unit := do
  let m ← state
  if m.mod = 0b00 then if m.addr32 then modrmToken00 else modrmToken00w
  else if m.mod = 0b01 then modrmToken01
  else if m.mod = 0b10 then modrmToken10
  else pure ()

/-- `i80386_get_modrm_token`. -/
def getModrmToken : Dec Unit := do
  let m ← state
  memory (name "[" named_open)
  segment m.segIndex (BitVec.ofNat 32 m.segIndex)
  colon
  modrmDisplacement
  memory (name "]" named_close)

/-- `modrm_get_token32`, `modrm_get_token16` and `modrm_get_token8`, over the names of
the registers and their size. -/
def modrmGetToken (names : List Name) (size : Nat) : Dec Unit := do
  let m ← state
  if m.mod = 0b11 then register .generalRegister names m.rm size
  else call getModrmToken

def modrmGetToken32 : Dec Unit := modrmGetToken reg32Mnem 4

def modrmGetToken16 : Dec Unit := modrmGetToken reg16Mnem 2

def modrmGetToken8 : Dec Unit := modrmGetToken reg8Mnem 1

/-- By `operand_size`, as the handlers write it out. -/
def modrmGetTokenV : Dec Unit := do
  let m ← state
  if m.op32 then modrmGetToken32 else modrmGetToken16

/-- By `W` and `operand_size`; with `add_modrm_tokens` of the size the same. -/
def modrmGetTokenW : Dec Unit := do
  let m ← state
  if m.w then modrmGetTokenV else modrmGetToken8

/-- A register by `operand_size`. -/
def regV (i : Nat) : Dec Unit := do
  let m ← state
  if m.op32 then reg32 i else reg16 i

def regW (i : Nat) : Dec Unit := do
  let m ← state
  if m.w then regV i else reg8 i

/-! ## Immediates -/

/-- The sizes that go with the registers. -/
def Mnem.sizeV (m : Mnem) : Nat := if m.op32 then 4 else 2

def Mnem.sizeW (m : Mnem) : Nat := if m.w then m.sizeV else 1

def immediateV (v : U32) : Dec Unit := do
  let m ← state
  immediate v m.sizeV

def immediateW (v : U32) : Dec Unit := do
  let m ← state
  immediate v m.sizeW

/-- An immediate byte, `sign_extend8_32`, or `sign_extend8_16` as a number. -/
def signExtendV (m : Mnem) (v : U8) : U32 :=
  if m.op32 then v.signExtend 32 else (v.signExtend 16).setWidth 32

/-- `fetch_dword` or `fetch_word`, by `operand_size`. -/
def fetchV : Dec U32 := do
  let m ← state
  if m.op32 then fetchDword
  else do
    let imm ← fetchWord
    pure (imm.setWidth 32)

def fetchByteZx : Dec U32 := do
  let imm ← fetchByte
  pure (imm.setWidth 32)

def fetchByteSx : Dec U32 := do
  let m ← state
  let imm ← fetchByte
  pure (signExtendV m imm)

/-- A byte, or by `operand_size`: by `W`. -/
def fetchW : Dec U32 := do
  let m ← state
  if m.w then fetchV else fetchByteZx

/-- By `S`: a sign extended byte, or by `operand_size`. -/
def fetchS : Dec U32 := do
  let m ← state
  if m.s then fetchByteSx else fetchV

end Tomk.Disasm
