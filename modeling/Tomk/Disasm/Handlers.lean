/-
# `i80386_mnem.c`: the handlers

One definition for each handler, under its name, in the order of the source.
Handlers that differ in their mnemonic alone are one definition applied to it;
what a handler does in another order than its neighbours, or forgets, it
does here too.
-/
import Tomk.Disasm.Mnem

namespace Tomk.Disasm

open Early

/-! ## Opcode helpers -/

/-- The immediate of `opcode_80`: `S` counts with `W` only. -/
def fetch80 : Dec U32 := do
  let m ← state
  if m.w then fetchS else fetchByteZx

def opcode80 (text : Name) : Dec Unit := do
  let imm ← fetch80
  mnemonic text
  modrmGetTokenW
  comma
  immediateW imm

/-- The mnemonic is added twice. -/
def opcodeRmReg (text : Name) : Dec Unit := do
  fetchModrm
  mnemonic text
  mnemonic text
  let m ← state
  if m.d then do
    modrmGetTokenW
    comma
    regW m.reg
  else do
    regW m.reg
    comma
    modrmGetTokenW

/-- `imm` is a `uint8_t`, whatever was fetched. -/
def opcodeAccumImm (text : Name) : Dec Unit := do
  let imm ← fetchW
  mnemonic text
  regW 0
  comma
  immediateW ((imm.setWidth 8).setWidth 32)

def opcodeShiftRmCl (text : Name) : Dec Unit := do
  mnemonic text
  modrmGetTokenW
  comma
  let m ← state
  if m.vw then mnemonic (name "cl" named_cl) else number 1 0

def opcodeShiftRmImm (text : Name) : Dec Unit := do
  let imm ← fetchByteZx
  mnemonic text
  modrmGetTokenW
  comma
  immediate imm 1

/-- A handler whose operand is the ModR/M byte that was fetched before, by `W`. -/
def opcodeRm (text : Name) : Dec Unit := do
  mnemonic text
  modrmGetTokenW

/-- The same by `operand_size` alone. -/
def opcodeRmV (text : Name) : Dec Unit := do
  mnemonic text
  modrmGetTokenV

/-- `lea`, `les` and the like: a register, and the operand. -/
def opcodeRegRm (text : Name) : Dec Unit := do
  fetchModrm
  mnemonic text
  let m ← state
  regV m.reg
  comma
  modrmGetTokenV

/-- `bt`, `bsf` and the like: the operand, and a register, with no comma. -/
def opcodeBit (text : Name) : Dec Unit := do
  fetchModrm
  mnemonic text
  modrmGetTokenV
  let m ← state
  regV m.reg

/-- A register that `opcode & 7` names. -/
def opcodeReg (text : Name) : Dec Unit := do
  mnemonic text
  let m ← state
  regV m.opReg

/-- `mov` from and to a control, debug or test register. -/
def opcodeMovSpecial (type : TokenType) (names : List Name) : Dec Unit := do
  fetchModrm
  mnemonic (name "mov")
  let m ← state
  if m.d then do
    register type names m.reg 4
    comma
    reg32 m.rm
  else do
    reg32 m.rm
    comma
    register type names m.reg 4

def opcodeMovx (text : Name) : Dec Unit := do
  fetchModrm
  mnemonic text
  let m ← state
  regV m.reg
  comma
  if m.w then modrmGetToken16 else modrmGetToken8

/-- An offset of a byte from the counter behind it. -/
def fetchShort : Dec (BitVec 16) := do
  let disp ← fetchByte
  let m ← state
  pure (disp.signExtend 16 + m.counter)

def opcodeLoop (text : Name) : Dec Unit := do
  let se ← fetchShort
  mnemonic text
  immediate (se.signExtend 32) 2

/-! ## Arithmetic -/

def addRmImm : Dec Unit := opcode80 (name "add")

def addRmReg : Dec Unit := opcodeRmReg (name "add")

def addAccumImm : Dec Unit := opcodeAccumImm (name "add")

def orRmImm : Dec Unit := opcode80 (name "or")

def orRmReg : Dec Unit := opcodeRmReg (name "or")

def orAccumImm : Dec Unit := opcodeAccumImm (name "or")

def adcRmImm : Dec Unit := opcode80 (name "adc")

def adcRmReg : Dec Unit := opcodeRmReg (name "adc")

def adcAccumImm : Dec Unit := opcodeAccumImm (name "adc")

def sbbRmImm : Dec Unit := opcode80 (name "sbb")

def sbbRmReg : Dec Unit := opcodeRmReg (name "sbb")

def sbbAccumImm : Dec Unit := opcodeAccumImm (name "sbb")

def andRmImm : Dec Unit := opcode80 (name "and")

def andRmReg : Dec Unit := opcodeRmReg (name "and")

def andAccumImm : Dec Unit := opcodeAccumImm (name "and")

def subRmImm : Dec Unit := opcode80 (name "sub")

def subRmReg : Dec Unit := opcodeRmReg (name "sub")

def subAccumImm : Dec Unit := opcodeAccumImm (name "sub")

def xorRmImm : Dec Unit := opcode80 (name "xor")

def xorRmReg : Dec Unit := opcodeRmReg (name "xor")

def xorAccumImm : Dec Unit := opcodeAccumImm (name "xor")

def cmpRmImm : Dec Unit := opcode80 (name "cmp")

def cmpRmReg : Dec Unit := opcodeRmReg (name "cmp")

def cmpAccumImm : Dec Unit := opcodeAccumImm (name "cmp")

/-- The immediate is fetched before the displacement. -/
def testRmImm : Dec Unit := do
  mnemonic (name "test")
  let imm ← fetchW
  modrmGetTokenW
  comma
  immediateW imm

def testRmReg : Dec Unit := opcodeRmReg (name "test")

def testAccumImm : Dec Unit := opcodeAccumImm (name "test")

def daa : Dec Unit := mnemonic (name "daa")

def das : Dec Unit := mnemonic (name "das")

def aaa : Dec Unit := mnemonic (name "aaa")

def aas : Dec Unit := mnemonic (name "aas")

def opcodeAdjust (text : Name) : Dec Unit := do
  let divisor ← fetchByteZx
  mnemonic text
  immediate divisor 1

def aam : Dec Unit := opcodeAdjust (name "aam")

def aad : Dec Unit := opcodeAdjust (name "aad")

def salc : Dec Unit := mnemonic (name "salc")

/-! ## The stack -/

def opcodeSeg (text : Name) : Dec Unit := do
  mnemonic text
  let m ← state
  segment m.esr (BitVec.ofNat 32 m.esr)

def pushSeg : Dec Unit := opcodeSeg (name "push")

def popSeg : Dec Unit := opcodeSeg (name "pop")

def pushReg : Dec Unit := opcodeReg (name "push")

def popReg : Dec Unit := opcodeReg (name "pop")

def pushRm : Dec Unit := opcodeRmV (name "push")

def popRm : Dec Unit := do
  fetchModrm
  opcodeRmV (name "pop")

def pushf : Dec Unit := mnemonic (name "pushf")

def popf : Dec Unit := mnemonic (name "popf")

def pusha : Dec Unit := mnemonic (name "pusha")

def popa : Dec Unit := mnemonic (name "popa")

def pushImm : Dec Unit := do
  mnemonic (name "push")
  let imm ← fetchS
  immediateV imm

def enter : Dec Unit := do
  let op1 ← fetchWord
  let op2 ← fetchByte
  mnemonic (name "enter")
  immediate (op1.setWidth 32) 2
  comma
  immediate (op2.setWidth 32) 1

def leave : Dec Unit := mnemonic (name "leave")

/-! ## Exchanges and flags -/

def nop : Dec Unit := mnemonic (name "nop")

def xchgAccumReg : Dec Unit := do
  mnemonic (name "xchg")
  let m ← state
  regV m.opReg
  comma
  regV 0

def xchgRmReg : Dec Unit := do
  fetchModrm
  mnemonic (name "xchg")
  let m ← state
  regW m.reg
  comma
  modrmGetTokenW

def cbw : Dec Unit := mnemonic (name "cbw")

def cwd : Dec Unit := mnemonic (name "cwd")

def wait : Dec Unit := mnemonic (name "wait")

def sahf : Dec Unit := mnemonic (name "sahf")

def lahf : Dec Unit := mnemonic (name "lahf")

def hlt : Dec Unit := mnemonic (name "hlt")

def cmc : Dec Unit := mnemonic (name "cmc")

def clc : Dec Unit := mnemonic (name "clc")

def stc : Dec Unit := mnemonic (name "stc")

def cli : Dec Unit := mnemonic (name "cli")

def sti : Dec Unit := mnemonic (name "sti")

def cld : Dec Unit := mnemonic (name "cld")

def std : Dec Unit := mnemonic (name "std")

def incReg : Dec Unit := opcodeReg (name "inc")

def decReg : Dec Unit := opcodeReg (name "dec")

def incRm : Dec Unit := opcodeRm (name "inc")

def decRm : Dec Unit := opcodeRm (name "dec")

/-! ## Shifts -/

def rolRmCl : Dec Unit := opcodeShiftRmCl (name "rol")

def rorRmCl : Dec Unit := opcodeShiftRmCl (name "ror")

def rclRmCl : Dec Unit := opcodeShiftRmCl (name "rcl")

def rcrRmCl : Dec Unit := opcodeShiftRmCl (name "rcr")

def shlRmCl : Dec Unit := opcodeShiftRmCl (name "shl")

def shrRmCl : Dec Unit := opcodeShiftRmCl (name "shr")

def salRmCl : Dec Unit := opcodeShiftRmCl (name "sal")

def sarRmCl : Dec Unit := opcodeShiftRmCl (name "sar")

/-- The operand and the register of a double shift, by `W` and not by `operand_size`. -/
def doubleShiftOperands : Dec Unit := do
  let m ← state
  if m.w then do
    modrmGetToken32
    comma
    reg32 m.reg
  else do
    modrmGetToken16
    comma
    reg16 m.reg

/-- No ModR/M byte is fetched. -/
def doubleShiftCl (text : Name) : Dec Unit := do
  mnemonic text
  doubleShiftOperands
  comma
  mnemonic (name "cl" named_cl)

def shldRmCl : Dec Unit := doubleShiftCl (name "shld")

def shrdRmCl : Dec Unit := doubleShiftCl (name "shrd")

def rolRmImm : Dec Unit := opcodeShiftRmImm (name "rol")

def rorRmImm : Dec Unit := opcodeShiftRmImm (name "ror")

def rclRmImm : Dec Unit := opcodeShiftRmImm (name "rcl")

def rcrRmImm : Dec Unit := opcodeShiftRmImm (name "rcr")

def shlRmImm : Dec Unit := opcodeShiftRmImm (name "shl")

def shrRmImm : Dec Unit := opcodeShiftRmImm (name "shr")

def salRmImm : Dec Unit := opcodeShiftRmImm (name "sal")

def sarRmImm : Dec Unit := opcodeShiftRmImm (name "sar")

def doubleShiftImm (text : Name) : Dec Unit := do
  fetchModrm
  mnemonic text
  doubleShiftOperands
  comma
  let imm ← fetchByteZx
  immediate imm 1

def shldRmImm : Dec Unit := doubleShiftImm (name "shld")

def shrdRmImm : Dec Unit := doubleShiftImm (name "shrd")

/-! ## Jumps and calls -/

def jccShort : Dec Unit := do
  let offset ← fetchShort
  jumpConditionToken
  relativeAddress (offset.signExtend 32) 2

/-- `fetch_dword`, or a sign extended word. -/
def fetchVSx : Dec U32 := do
  let m ← state
  if m.op32 then fetchDword
  else do
    let imm ← fetchWord
    pure (imm.signExtend 32)

def jccLong : Dec Unit := do
  let offset ← fetchVSx
  let m ← state
  jumpConditionToken
  relativeAddress (offset + m.counter.setWidth 32) 4

/-- A word, whatever the operand size is. -/
def jmpIntraDirect : Dec Unit := do
  let imm ← fetchWord
  let m ← state
  mnemonic (name "jmp")
  relativeAddress ((imm + m.counter).signExtend 32) 2

def opcodeFar (text : Name) : Dec Unit := do
  mnemonic text
  let imm ← fetchV
  let imm2 ← fetchWord
  immediate (imm2.setWidth 32) 2
  colon
  immediateV imm

def jmpInterDirect : Dec Unit := opcodeFar (name "jmpf")

def jmpIntraDirectShort : Dec Unit := do
  mnemonic (name "jmp")
  let se ← fetchShort
  relativeAddress (se.signExtend 32) 2

def jmpIntraIndirect : Dec Unit := opcodeRmV (name "jmp")

def jmpInterIndirect : Dec Unit := do
  let m ← state
  mnemonic (name "jmpf")
  segment m.segIndex (BitVec.ofNat 32 m.segIndex)
  colon
  modrmGetTokenV

/-- The offset of a call from the counter behind it. -/
def fetchCall : Dec U32 := do
  let m ← state
  if m.op32 then do
    let imm ← fetchDword
    let m ← state
    pure (imm + m.counter.setWidth 32)
  else do
    let imm ← fetchWord
    let m ← state
    pure ((imm + m.counter).signExtend 32)

def callIntraDirect : Dec Unit := do
  mnemonic (name "call")
  let imm ← fetchCall
  let m ← state
  relativeAddress imm m.sizeV

def callInterDirect : Dec Unit := opcodeFar (name "callf")

def callIntraIndirect : Dec Unit := opcodeRmV (name "call")

def callInterIndirect : Dec Unit := do
  let m ← state
  mnemonic (name "callf")
  segment m.segIndex 0
  colon
  modrmGetTokenV

/-- One of two mnemonics, by `operand_size`. -/
def mnemonicV (text32 text16 : Name) : Dec Unit := do
  let m ← state
  mnemonic (if m.op32 then text32 else text16)

def retAddImm (text32 text16 : Name) : Dec Unit := do
  let imm ← fetchWord
  mnemonicV text32 text16
  immediate (imm.setWidth 32) 2

def retIntraAddImm : Dec Unit := retAddImm (name "retd") (name "ret")

def retIntra : Dec Unit := mnemonicV (name "retd") (name "ret")

def retInterAddImm : Dec Unit := retAddImm (name "retfd") (name "retf")

def retInter : Dec Unit := mnemonicV (name "retfd") (name "retf")

/-! ## Moves -/

/-- The operand is a dword for every operand size. -/
def movRmImm : Dec Unit := do
  fetchModrm
  mnemonic (name "mov")
  modrmGetToken32
  comma
  let imm ← fetchW
  immediateW imm

/-- The immediate of `mov_reg_imm`, by `WREG`. -/
def fetchWreg : Dec U32 := do
  let m ← state
  if m.wreg then fetchV else fetchByteZx

def regWreg : Dec Unit := do
  let m ← state
  if m.wreg then regV m.opReg else reg8 m.opReg

def Mnem.sizeWreg (m : Mnem) : Nat := if m.wreg then m.sizeV else 1

def movRegImm : Dec Unit := do
  mnemonic (name "mov")
  let imm ← fetchWreg
  regWreg
  comma
  let m ← state
  immediate imm m.sizeWreg

def movRmReg : Dec Unit := do
  fetchModrm
  mnemonic (name "mov")
  let m ← state
  if m.d then do
    regW m.reg
    comma
    modrmGetToken32
  else do
    modrmGetToken32
    comma
    regW m.reg

/-- An offset of the width of an address. -/
def fetchOffset : Dec U32 := do
  let m ← state
  if m.addr32 then fetchDword
  else do
    let offset16 ← fetchWord
    pure (offset16.setWidth 32)

/-- `[seg:offset]`. -/
def memOffset (offset : U32) : Dec Unit := do
  let m ← state
  memory (name "[" named_open)
  segment m.segIndex 0
  colon
  immediate offset (if m.addr32 then 4 else 2)
  memory (name "]" named_close)

def movAccumMem : Dec Unit := do
  let offset ← fetchOffset
  mnemonic (name "mov")
  let m ← state
  if m.d then do
    memOffset offset
    comma
    regW 0
  else do
    regW 0
    comma
    memOffset offset

/-- The number of the register stands beside the segment, or beside the comma. -/
def movSeg : Dec Unit := do
  fetchModrm
  let m ← state
  let seg := segMnem[m.reg]?.getD (name "bad:")
  mnemonic (name "mov")
  if m.d then do
    addToken .segment (some seg) (BitVec.ofNat 32 m.reg) 2
    comma
    modrmGetToken16
  else do
    modrmGetToken16
    addToken .operator (some (name "," named_comma)) (BitVec.ofNat 32 m.reg) 0
    addToken .segment (some seg) 0 2

def movCr : Dec Unit := opcodeMovSpecial .controlRegister crMnem

def movDr : Dec Unit := opcodeMovSpecial .debugRegister drMnem

def movTr : Dec Unit := opcodeMovSpecial .testRegister trMnem

def movzx : Dec Unit := opcodeMovx (name "movzx")

def movsx : Dec Unit := opcodeMovx (name "movsx")

def lea : Dec Unit := opcodeRegRm (name "lea")

/-! ## Multiplication and division -/

def not_ : Dec Unit := opcodeRm (name "not")

def neg : Dec Unit := opcodeRm (name "neg")

def mulAccumRm : Dec Unit := opcodeRm (name "mul")

def imulAccumRm : Dec Unit := opcodeRm (name "imul")

/-- The immediate is fetched before the displacement. -/
def imulRegRmImm : Dec Unit := do
  fetchModrm
  let disp ← fetchS
  mnemonic (name "imul")
  let m ← state
  regV m.reg
  comma
  modrmGetTokenV
  comma
  immediateV disp

/-- No ModR/M byte is fetched. -/
def imulRegRm : Dec Unit := do
  mnemonic (name "imul")
  let m ← state
  regV m.reg
  comma
  modrmGetTokenV

def divAccumRm : Dec Unit := opcodeRm (name "div")

def idivAccumRm : Dec Unit := opcodeRm (name "idiv")

/-! ## Strings -/

/-- A segment override, where there is one; `ds` is not shown by some. -/
def segPrefixToken (showDs : Bool) : Dec Unit := do
  let m ← state
  if m.segmentPrefix ≠ 0xFF ∧ (showDs ∨ m.segmentPrefix.toNat ≠ segDS) then
    segment m.segIndex (BitVec.ofNat 32 m.segIndex)
  else pure ()

/-- The rep prefix, where there is one. -/
def repToken (textZ textNz : Name) : Dec Unit := do
  let m ← state
  if m.f1 then instrPrefix (if m.f1z then textZ else textNz) else pure ()

def stringToken (textD textW textB : Name) : Dec Unit := do
  let m ← state
  mnemonic (if m.w then if m.op32 then textD else textW else textB)

def movs : Dec Unit := do
  segPrefixToken false
  repToken (name "rep") (name "repne")
  stringToken (name "movsd") (name "movsw") (name "movsb")

def stos : Dec Unit := do
  segPrefixToken true
  repToken (name "rep") (name "rep")
  stringToken (name "stosd") (name "stosw") (name "stosb")

def lods : Dec Unit := do
  segPrefixToken true
  repToken (name "rep") (name "rep")
  stringToken (name "lodsd") (name "lodsw") (name "lodsb")

def cmps : Dec Unit := do
  segPrefixToken true
  repToken (name "repe") (name "repne")
  stringToken (name "cmpsd") (name "cmpsw") (name "cmpsb")

def scas : Dec Unit := do
  repToken (name "repe") (name "repne")
  stringToken (name "scasd") (name "scasw") (name "scasb")

def ins : Dec Unit := do
  segPrefixToken true
  repToken (name "repe") (name "repne")
  stringToken (name "insd") (name "insw") (name "insb")

def outs : Dec Unit := do
  segPrefixToken true
  repToken (name "repe") (name "repne")
  stringToken (name "outsd") (name "outsw") (name "outsb")

def les : Dec Unit := opcodeRegRm (name "les")

def lds : Dec Unit := opcodeRegRm (name "lds")

def lss : Dec Unit := opcodeRegRm (name "lss")

def lfs : Dec Unit := opcodeRegRm (name "lfs")

def lgs : Dec Unit := opcodeRegRm (name "lgs")

def xlat : Dec Unit := do
  segPrefixToken false
  mnemonic (name "xlatb")

def esc : Dec Unit := do
  fetchModrm
  mnemonic (name "esc")
  modrmGetToken16

def loopnz : Dec Unit := opcodeLoop (name "loopne")

def loopz : Dec Unit := opcodeLoop (name "loope")

def loop : Dec Unit := opcodeLoop (name "loop")

def jcxz : Dec Unit := opcodeLoop (name "jcxz")

/-! ## Ports and interrupts -/

def inAccumImm : Dec Unit := do
  let imm ← fetchByteZx
  mnemonic (name "in")
  regW 0
  comma
  immediate imm 1

def outAccumImm : Dec Unit := do
  let imm ← fetchByteZx
  mnemonic (name "out")
  immediate imm 1
  comma
  regW 0

def inAccumDx : Dec Unit := do
  mnemonic (name "in")
  regW 0
  comma
  reg16 2

def outAccumDx : Dec Unit := do
  mnemonic (name "out")
  reg16 2
  comma
  regW 0

/-- The type of an interrupt, which the odd opcode has behind it. -/
def fetchType : Dec U32 := do
  let m ← state
  if m.opcode &&& 0x1 ≠ 0 then fetchByteZx else pure 0

def int_ : Dec Unit := do
  let type ← fetchType
  mnemonic (name "int")
  number type 1

def int3 : Dec Unit := mnemonic (name "int3")

def into : Dec Unit := mnemonic (name "into")

def iret : Dec Unit := mnemonic (name "iret")

/-! ## System instructions, most of which leave their operand out -/

def bound : Dec Unit := mnemonic (name "bound")

def str : Dec Unit := mnemonic (name "str")

def ltr : Dec Unit := mnemonic (name "ltr")

/-- The operand is taken for one in memory. -/
def opcodeTable (text : Name) : Dec Unit := do
  mnemonic text
  call getModrmToken

def sldt : Dec Unit := opcodeTable (name "sldt")

def lldt : Dec Unit := opcodeTable (name "lldt")

def sgdt : Dec Unit := opcodeTable (name "sgdt")

def sidt : Dec Unit := opcodeTable (name "sidt")

def lgdt : Dec Unit := opcodeTable (name "lgdt")

def lidt : Dec Unit := opcodeTable (name "lidt")

def smsw : Dec Unit := mnemonic (name "smsw")

def lmsw : Dec Unit := mnemonic (name "lmsw")

def verr : Dec Unit := mnemonic (name "verr")

def verw : Dec Unit := mnemonic (name "verw")

def lar : Dec Unit := mnemonic (name "lar")

def lsl : Dec Unit := mnemonic (name "lsl")

def clts : Dec Unit := mnemonic (name "clts")

def arpl : Dec Unit := mnemonic (name "arpl")

def loadall : Dec Unit := mnemonic (name "loadall")

def setcc : Dec Unit := mnemonic (name "setcc")

def bt : Dec Unit := opcodeBit (name "bt")

def bts : Dec Unit := opcodeBit (name "bts")

def btr : Dec Unit := opcodeBit (name "btr")

def btc : Dec Unit := opcodeBit (name "btc")

def bsf : Dec Unit := opcodeBit (name "bsf")

def bsr : Dec Unit := opcodeBit (name "bsr")

end Tomk.Disasm
