/-
# `i80386_mnem.c`: the opcodes, and the loop over the prefixes

A `switch` over an opcode is the list of its cases, each with the first and the last of the
opcodes that share it (`switch`), and a `switch` over the register field of the
ModR/M byte the list of its eight cases (`byReg`).  A case that ends in `break` is a
call of the handler: whether the handler returned early is lost there.

The loop runs as long as a prefix was decoded.  The counter has 16 bits, so that
it never ends in 64 KiB of prefixes; it is given a number of turns, and `none` stands for a
fault and for too few of them.
-/
import Tomk.Disasm.Handlers

namespace Tomk.Disasm

open Early

/-- The case for `op` among rows of a first and a last opcode. -/
def switch {α : Type} (op : Nat) (default : α) : List (Nat × Nat × α) → α
  | [] => default
  | (lo, hi, x) :: rows => if lo ≤ op ∧ op ≤ hi then x else switch op default rows

/-- Whether there is a case for `op`. -/
def hasCase {α : Type} (op : Nat) (rows : List (Nat × Nat × α)) : Bool :=
  rows.any fun row => row.1 ≤ op && op ≤ row.2.1

def byReg (cases : List (Dec Unit)) : Dec Unit := do
  let m ← state
  cases.getD m.reg (pure ())

/-! ## Groups -/

def decodeOpcode80 : Dec Unit := do
  fetchModrm
  byReg [addRmImm, orRmImm, adcRmImm, sbbRmImm, andRmImm, subRmImm, xorRmImm, cmpRmImm]

def decodeOpcodeC0 : Dec Unit := do
  fetchModrm
  byReg [rolRmImm, rorRmImm, rclRmImm, rcrRmImm, shlRmImm, shrRmImm, salRmImm, sarRmImm]

def decodeOpcodeD0 : Dec Unit := do
  fetchModrm
  byReg [rolRmCl, rorRmCl, rclRmCl, rcrRmCl, shlRmCl, shrRmCl, salRmCl, sarRmCl]

def decodeOpcodeF6 : Dec Unit := do
  fetchModrm
  byReg [testRmImm, pure (), not_, neg, mulAccumRm, imulAccumRm, divAccumRm, idivAccumRm]

def decodeOpcodeFe : Dec Unit := do
  fetchModrm
  byReg [incRm, decRm, pure (), pure (), pure (), pure (), pure (), pure ()]

def decodeOpcodeFf : Dec Unit := do
  fetchModrm
  byReg [incRm, decRm, callIntraIndirect, callInterIndirect, jmpIntraIndirect, jmpInterIndirect,
    pushRm, pure ()]

def decodeOpcode0f00 : Dec Unit := do
  fetchModrm
  byReg [sldt, str, lldt, ltr, verr, verw]

def decodeOpcode0f01 : Dec Unit := do
  fetchModrm
  byReg [sgdt, sidt, lgdt, lidt, smsw, pure (), lmsw, pure ()]

/-! ## The opcodes behind 0F -/

def opcodes0f : List (Nat × Nat × Dec Unit) :=
  [(0x00, 0x00, decodeOpcode0f00), (0x01, 0x01, decodeOpcode0f01), (0x02, 0x02, lar),
    (0x03, 0x03, lsl), (0x05, 0x05, loadall), (0x06, 0x06, clts),
    (0x20, 0x20, movCr), (0x21, 0x21, movDr), (0x22, 0x22, movCr), (0x23, 0x23, movDr),
    (0x24, 0x24, movTr), (0x26, 0x26, movTr),
    (0x80, 0x8F, jccLong), (0x90, 0x9F, setcc),
    (0xA0, 0xA0, pushSeg), (0xA1, 0xA1, popSeg), (0xA3, 0xA3, bt), (0xA4, 0xA4, shldRmImm),
    (0xA5, 0xA5, shldRmCl), (0xA8, 0xA8, pushSeg), (0xA9, 0xA9, popSeg), (0xAB, 0xAB, bts),
    (0xAC, 0xAC, shrdRmImm), (0xAD, 0xAD, shrdRmCl), (0xAF, 0xAF, imulRegRm),
    (0xB2, 0xB2, lss), (0xB3, 0xB3, btr), (0xB4, 0xB4, lfs), (0xB5, 0xB5, lgs),
    (0xB6, 0xB7, movzx), (0xBB, 0xBB, btc), (0xBC, 0xBC, bsf), (0xBD, 0xBD, bsr),
    (0xBE, 0xBF, movsx)]

def fetchOpcode : Dec Unit := do
  let opcode ← fetchByte
  update fun m => { m with opcode := opcode }

def decodeOpcode0f : Dec Unit := do
  fetchOpcode
  let m ← state
  switch m.opcode.toNat (pure ()) opcodes0f

/-! ## Prefixes -/

/-- `I80386_DECODE_OK`, `_REQ_CYCLE` and `_UNDEFINED`. -/
inductive Status where
  | ok
  | reqCycle
  | undefined
deriving DecidableEq

/-- The end of a prefix: the next opcode is fetched. -/
def nextOpcode : Dec Status := do
  let fetched ← returned fetchOpcode
  pure (if fetched then .reqCycle else .undefined)

/-- `F1` is set, and `F1Z` if the prefix is odd. -/
def rep : Dec Status := do
  update fun m => { m with
    internalFlags := ((m.internalFlags ||| 0x2) &&& ~~~0x1) ||| (m.opcode &&& 0x1) }
  nextOpcode

def segmentOverride : Dec Status := do
  update fun m => { m with segmentPrefix := (m.opcode >>> 3) &&& 0x3 }
  nextOpcode

def segmentOverrideExtended : Dec Status := do
  update fun m => { m with segmentPrefix := m.opcode &&& 0x7 }
  nextOpcode

def lock : Dec Status := do
  instrPrefix (name "lock")
  nextOpcode

def operandSize : Dec Status := do
  update fun m => { m with operandSize := m.operandSize ^^^ 1 }
  nextOpcode

def addressSize : Dec Status := do
  update fun m => { m with addressingSize := m.addressingSize ^^^ 1 }
  nextOpcode

/-! ## The opcodes -/

/-- A handler, and `break`. -/
def brk (handler : Dec Unit) : Dec Status := do
  call handler
  pure .ok

def opcodes : List (Nat × Nat × Dec Status) :=
  [(0x00, 0x03, brk addRmReg), (0x04, 0x05, brk addAccumImm), (0x06, 0x06, brk pushSeg),
    (0x07, 0x07, brk popSeg), (0x08, 0x0B, brk orRmReg), (0x0C, 0x0D, brk orAccumImm),
    (0x0E, 0x0E, brk pushSeg), (0x0F, 0x0F, brk decodeOpcode0f),
    (0x10, 0x13, brk adcRmReg), (0x14, 0x15, brk adcAccumImm), (0x16, 0x16, brk pushSeg),
    (0x17, 0x17, brk popSeg), (0x18, 0x1B, brk sbbRmReg), (0x1C, 0x1D, brk sbbAccumImm),
    (0x1E, 0x1E, brk pushSeg), (0x1F, 0x1F, brk popSeg),
    (0x20, 0x23, brk andRmReg), (0x24, 0x25, brk andAccumImm), (0x26, 0x26, segmentOverride),
    (0x27, 0x27, brk daa), (0x28, 0x2B, brk subRmReg), (0x2C, 0x2D, brk subAccumImm),
    (0x2E, 0x2E, segmentOverride), (0x2F, 0x2F, brk das),
    (0x30, 0x33, brk xorRmReg), (0x34, 0x35, brk xorAccumImm), (0x36, 0x36, segmentOverride),
    (0x37, 0x37, brk aaa), (0x38, 0x3B, brk cmpRmReg), (0x3C, 0x3D, brk cmpAccumImm),
    (0x3E, 0x3E, segmentOverride), (0x3F, 0x3F, brk aas),
    (0x40, 0x47, brk incReg), (0x48, 0x4F, brk decReg),
    (0x50, 0x57, brk pushReg), (0x58, 0x5F, brk popReg),
    (0x60, 0x60, brk pusha), (0x61, 0x61, brk popa), (0x62, 0x62, brk bound),
    (0x63, 0x63, brk arpl), (0x64, 0x65, segmentOverrideExtended), (0x66, 0x66, operandSize),
    (0x67, 0x67, addressSize), (0x68, 0x68, brk pushImm), (0x69, 0x69, brk imulRegRmImm),
    (0x6A, 0x6A, brk pushImm), (0x6B, 0x6B, brk imulRegRmImm), (0x6C, 0x6D, brk ins),
    (0x6E, 0x6F, brk outs),
    (0x70, 0x7F, brk jccShort),
    (0x80, 0x83, brk decodeOpcode80), (0x84, 0x85, brk testRmReg), (0x86, 0x87, brk xchgRmReg),
    (0x88, 0x8B, brk movRmReg), (0x8C, 0x8C, brk movSeg), (0x8D, 0x8D, brk lea),
    (0x8E, 0x8E, brk movSeg), (0x8F, 0x8F, brk popRm),
    (0x90, 0x90, brk nop), (0x91, 0x97, brk xchgAccumReg), (0x98, 0x98, brk cbw),
    (0x99, 0x99, brk cwd), (0x9A, 0x9A, brk callInterDirect), (0x9B, 0x9B, brk wait),
    (0x9C, 0x9C, brk pushf), (0x9D, 0x9D, brk popf), (0x9E, 0x9E, brk sahf),
    (0x9F, 0x9F, brk lahf),
    (0xA0, 0xA3, brk movAccumMem), (0xA4, 0xA5, brk movs), (0xA6, 0xA7, brk cmps),
    (0xA8, 0xA9, brk testAccumImm), (0xAA, 0xAB, brk stos), (0xAC, 0xAD, brk lods),
    (0xAE, 0xAF, brk scas),
    (0xB0, 0xBF, brk movRegImm),
    (0xC0, 0xC1, brk decodeOpcodeC0), (0xC2, 0xC2, brk retIntraAddImm), (0xC3, 0xC3, brk retIntra),
    (0xC4, 0xC4, brk les), (0xC5, 0xC5, brk lds), (0xC6, 0xC7, brk movRmImm),
    (0xC8, 0xC8, brk enter), (0xC9, 0xC9, brk leave), (0xCA, 0xCA, brk retInterAddImm),
    (0xCB, 0xCB, brk retInter), (0xCC, 0xCC, brk int3), (0xCD, 0xCD, brk int_),
    (0xCE, 0xCE, brk into), (0xCF, 0xCF, brk iret),
    (0xD0, 0xD3, brk decodeOpcodeD0), (0xD4, 0xD4, brk aam), (0xD5, 0xD5, brk aad),
    (0xD6, 0xD6, brk salc), (0xD7, 0xD7, brk xlat), (0xD8, 0xDF, brk esc),
    (0xE0, 0xE0, brk loopnz), (0xE1, 0xE1, brk loopz), (0xE2, 0xE2, brk loop),
    (0xE3, 0xE3, brk jcxz), (0xE4, 0xE5, brk inAccumImm), (0xE6, 0xE7, brk outAccumImm),
    (0xE8, 0xE8, brk callIntraDirect), (0xE9, 0xE9, brk jmpIntraDirect),
    (0xEA, 0xEA, brk jmpInterDirect), (0xEB, 0xEB, brk jmpIntraDirectShort),
    (0xEC, 0xED, brk inAccumDx), (0xEE, 0xEF, brk outAccumDx),
    (0xF0, 0xF1, lock), (0xF2, 0xF3, rep), (0xF4, 0xF4, brk hlt), (0xF5, 0xF5, brk cmc),
    (0xF6, 0xF7, brk decodeOpcodeF6), (0xF8, 0xF8, brk clc), (0xF9, 0xF9, brk stc),
    (0xFA, 0xFA, brk cli), (0xFB, 0xFB, brk sti), (0xFC, 0xFC, brk cld), (0xFD, 0xFD, brk std),
    (0xFE, 0xFE, brk decodeOpcodeFe), (0xFF, 0xFF, brk decodeOpcodeFf)]

def decodeOpcode : Dec Status := do
  let m ← state
  switch m.opcode.toNat (pure .ok) opcodes

/-- The loop of `i80386_decode_instruction`, of `n` turns at most. -/
def decodeInstruction : Nat → Mmu → Mnem → Option (Status × Mnem)
  | 0, _, _ => none
  | n + 1, mmu, m => do
      let (r, m) ← decodeOpcode mmu m
      if r = some .reqCycle then decodeInstruction n mmu m else (r.map fun r => (r, m))

/-! ## Entry points -/

/-- `i80386_next`. -/
def next (offset : U32) (m : Mnem) : Mnem :=
  { m with
    offset := offset, counter := 0, modrm := 0, sib := 0, segmentPrefix := 0xFF,
    internalFlags := 0, operandSize := 1, addressingSize := 1, line := RenderLine.empty }

/-- `i80386_fetch`: the opcode stays what it was if the first byte is not mapped. -/
def fetchFirst (offset : U32) : Dec Unit := do
  update (next offset)
  call fetchOpcode

/-- `i80386_mnem_decode`: what it returns, and the decoder. -/
def mnemDecode (n : Nat) (mmu : Mmu) (offset : U32) (m : Mnem) : Option (Bool × Mnem) := do
  let (_, m) ← fetchFirst offset mmu m
  let (r, m) ← decodeInstruction n mmu m
  pure (r = .ok, m)

/-- The decoder of `i80386_mnem_get_tokens`, whose fields start as 0. -/
def Mnem.zero (line : RenderLine) : Mnem := ⟨0, 0, 0, 0, 0, 0, 0, 0, 0, line⟩

def mnemGetTokens (n : Nat) (mmu : Mmu) (offset : U32) (line : RenderLine) :
    Option (Bool × RenderLine) := do
  let (r, m) ← mnemDecode n mmu offset (Mnem.zero line)
  pure (r, m.line)

end Tomk.Disasm
