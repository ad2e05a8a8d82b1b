/-
# `elf.c`: the loader of object files

The file lies in memory, and everything is read from there when it is needed: the
header, the section headers, the symbols and the relocations are addresses, and
their fields are loads.  What is written is the words that are relocated and the
`offset` of a section that memory is allocated for.

`malloc` is a parameter, on a state `H` of its own, and so is `lookup_symbol`, which
is declared and not defined.  A function returns `none` where it would divide by
zero.
-/
import Tomk.Lib.ByteMem
import Tomk.Word

namespace Tomk

open ByteMem

/-! ## `elf.h` and the constants of `elf.c` -/

def elfMag : List U8 := [0x7F, 0x45, 0x4C, 0x46]

def elfData2Lsb : U8 := 1

def elfClass32 : U8 := 1

def etRel : BitVec 16 := 1

def etExec : BitVec 16 := 2

def em386 : BitVec 16 := 3

def evCurrent : U8 := 1

def shnUndef : U32 := 0

def shnAbs : BitVec 16 := 0xFFF1

def shtSymtab : U32 := 2

def shtStrtab : U32 := 3

def shtNobits : U32 := 8

def shtRel : U32 := 9

def shfAlloc : U32 := 2

def stbWeak : U8 := 2

/-- `sizeof(Elf32_Ehdr)`, `sizeof(Elf32_Shdr)`, `sizeof(Elf32_Sym)` and
`sizeof(Elf32_Rel)`. -/
def ehdrSize : Nat := 52

def shdrSize : Nat := 40

def symSize : Nat := 16

def relSize : Nat := 8

section

variable (m : Mem)

/-! ### `Elf32_Ehdr` -/

def eIdent (ehdr i : U32) : U8 := m (ehdr + i)

def eType (ehdr : U32) : BitVec 16 := load16 m (ehdr + 16)

def eMachine (ehdr : U32) : BitVec 16 := load16 m (ehdr + 18)

def eEntry (ehdr : U32) : U32 := load32 m (ehdr + 24)

def eShoff (ehdr : U32) : U32 := load32 m (ehdr + 32)

def eShnum (ehdr : U32) : BitVec 16 := load16 m (ehdr + 48)

/-! ### `Elf32_Shdr` -/

def shType (shdr : U32) : U32 := load32 m (shdr + 4)

def shFlags (shdr : U32) : U32 := load32 m (shdr + 8)

def shOffset (shdr : U32) : U32 := load32 m (shdr + 16)

def shSize (shdr : U32) : U32 := load32 m (shdr + 20)

def shLink (shdr : U32) : U32 := load32 m (shdr + 24)

def shInfo (shdr : U32) : U32 := load32 m (shdr + 28)

def shEntsize (shdr : U32) : U32 := load32 m (shdr + 36)

/-! ### `Elf32_Sym` and `Elf32_Rel` -/

def stName (sym : U32) : U32 := load32 m sym

def stValue (sym : U32) : U32 := load32 m (sym + 4)

def stInfo (sym : U32) : U8 := m (sym + 12)

def stShndx (sym : U32) : BitVec 16 := load16 m (sym + 14)

def relOffset (rel : U32) : U32 := load32 m rel

def relInfo (rel : U32) : U32 := load32 m (rel + 4)

/-! ### The macros -/

def sheader (ehdr : U32) : U32 := ehdr + eShoff m ehdr

/-- `section(x, i)` -/
def sectionOf (ehdr i : U32) : U32 := sheader m ehdr + BitVec.ofNat 32 shdrSize * i

end

def elf32StBind (info : U8) : U8 := info >>> 4

def elf32RSym (info : U32) : U32 := info >>> 8

def elf32RType (info : U32) : U8 := info.setWidth 8

def do386_32 (s a : U32) : U32 := s + a

def do386Pc32 (s a p : U32) : U32 := s + a - p

/-! ## The loader -/

/-- The characters of a string, up to its end. -/
def cStringFrom (m : Mem) : Nat → U32 → List U8
  | 0, _ => []
  | n + 1, p => if m p = 0 then [] else m p :: cStringFrom m n (p + 1)

def cString (m : Mem) (p : U32) : List U8 := cStringFrom m (2 ^ 32) p

def checkSupported (m : Mem) (ehdr : U32) : Bool :=
  [eIdent m ehdr 0, eIdent m ehdr 1, eIdent m ehdr 2, eIdent m ehdr 3] = elfMag ∧
    eIdent m ehdr 4 = elfClass32 ∧
    eIdent m ehdr 5 = elfData2Lsb ∧
    eMachine m ehdr = em386 ∧
    eIdent m ehdr 6 = evCurrent ∧
    (eType m ehdr = etRel ∨ eType m ehdr = etExec)

variable {H : Type} (malloc : H → U32 → U32 × H) (lookupSymbol : List U8 → U32)

def getSymval (m : Mem) (ehdr table i : U32) : Option U32 :=
  if table = shnUndef ∨ i = shnUndef then some 0
  else
    let symtab := sectionOf m ehdr table
    if shEntsize m symtab = 0 then none
    else if shSize m symtab / shEntsize m symtab ≤ i then some 0
    else
      let symbol := ehdr + shOffset m symtab + BitVec.ofNat 32 symSize * i
      if stShndx m symbol = 0 then
        let strtab := sectionOf m ehdr (shLink m symtab)
        let name := ehdr + shOffset m strtab + stName m symbol
        -- a weak symbol that is not found is 0 too
        some (lookupSymbol (cString m name))
      else if stShndx m symbol = shnAbs then some (stValue m symbol)
      else
        let target := sectionOf m ehdr ((stShndx m symbol).setWidth 32)
        some (ehdr + stValue m symbol + shOffset m target)

/-- `do_reloc`; what it returns is 0 for a failure. -/
def doReloc (m : Mem) (ehdr rel reltab : U32) : Option (U32 × Mem) := do
  let target := sectionOf m ehdr (shInfo m reltab)
  let addr := ehdr + shOffset m target
  let ref := addr + relOffset m rel
  let sym := elf32RSym (relInfo m rel)
  let symval ← if sym ≠ shnUndef then getSymval lookupSymbol m ehdr (shLink m reltab) sym
    else some 0
  if sym ≠ shnUndef ∧ symval = 0 then pure (0, m)
  else
    let type := elf32RType (relInfo m rel)
    if type = 0 then pure (symval, m)
    else if type = 1 then pure (symval, store32 m ref (do386_32 symval (load32 m ref)))
    else if type = 2 then pure (symval, store32 m ref (do386Pc32 symval (load32 m ref) ref))
    else pure (0, m)

/-- The loop over the relocations of a section, and whether it got through. -/
def relocLoop (ehdr sect : U32) : Nat → U32 → Mem → Option (Bool × Mem)
  | 0, _, _ => none
  | fuel + 1, idx, m =>
    if shEntsize m sect = 0 then none
    else if idx < shSize m sect / shEntsize m sect then do
      let reltab := ehdr + shOffset m sect + BitVec.ofNat 32 relSize * idx
      let (r, m) ← doReloc lookupSymbol m ehdr reltab sect
      if r = 0 then pure (false, m) else relocLoop ehdr sect fuel (idx + 1) m
    else some (true, m)

/-- The `SHT_NOBITS` case. -/
def loadNobits (ehdr sect : U32) (m : Mem) (h : H) : Mem × H :=
  if shSize m sect = 0 then (m, h)
  else if shFlags m sect &&& shfAlloc ≠ 0 then
    let (mem, h) := malloc h (shSize m sect)
    let m := fill m mem 0 (shSize m sect).toNat
    (store32 m (sect + 16) (mem - ehdr), h)
  else (m, h)

/-- The loop over the section headers; `idx` is a `uint32_t`, and `i` a `uint16_t`,
so that neither loop has more turns than there are such numbers. -/
def loadLoop (ehdr shdr : U32) : Nat → BitVec 16 → Mem → H → Option (U32 × Mem × H)
  | 0, _, _, _ => none
  | fuel + 1, i, m, h =>
    if i < eShnum m ehdr then
      let sect := shdr + BitVec.ofNat 32 shdrSize * i.setWidth 32
      if shType m sect = shtRel then do
        let (done, m) ← relocLoop lookupSymbol ehdr sect (2 ^ 32) 0 m
        if done then loadLoop ehdr shdr fuel (i + 1) m h else pure (0, m, h)
      else if shType m sect = shtNobits then
        let (m, h) := loadNobits malloc ehdr sect m h
        loadLoop ehdr shdr fuel (i + 1) m h
      else loadLoop ehdr shdr fuel (i + 1) m h
    else some (eEntry m ehdr, m, h)

def loadRel (m : Mem) (h : H) (ehdr : U32) : Option (U32 × Mem × H) :=
  loadLoop malloc lookupSymbol ehdr (sheader m ehdr) (2 ^ 16) 0 m h

def elfLoadFile (m : Mem) (h : H) (file : U32) : Option (U32 × Mem × H) :=
  if file = 0 then some (0, m, h)
  else if ¬ checkSupported m file then some (0, m, h)
  else if eType m file = etRel then loadRel malloc lookupSymbol m h file
  else some (0, m, h)

end Tomk
