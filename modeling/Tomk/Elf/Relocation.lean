/-
# Relocation: what is asked of the loader

The image is given as it lies in memory before the call, and everything is said of
it: its sections by their numbers, the words that are to be relocated and the
symbols, and where the sections are in the end (`finalOffset`).  `Relocated` is the
specification.

The loader allocates and relocates in one pass over the section headers, and so a
symbol has the place of its section as it is when the pass is at the relocation
section.  `Placed` says that this is its final place.
-/
import Tomk.Elf.Elf

namespace Tomk

open ByteMem

section

variable (m : Mem) (e : U32)

/-! ## The image -/

def secCount : Nat := (eShnum m e).toNat

def secAt (k : Nat) : U32 := sectionOf m e (BitVec.ofNat 32 k)

def secType (k : Nat) : U32 := shType m (secAt m e k)

def secSize (k : Nat) : Nat := (shSize m (secAt m e k)).toNat

def secOffset (k : Nat) : U32 := shOffset m (secAt m e k)

/-- The loader allocates memory for it. -/
def Allocates (k : Nat) : Prop :=
  secType m e k = shtNobits ∧ shSize m (secAt m e k) ≠ 0 ∧ shFlags m (secAt m e k) &&& shfAlloc ≠ 0

/-- It has contents in the file. -/
def HasContents (k : Nat) : Prop := secType m e k ≠ 0 ∧ secType m e k ≠ shtNobits

/-- The loader reads it. -/
def IsTable (k : Nat) : Prop :=
  secType m e k = shtRel ∨ secType m e k = shtSymtab ∨ secType m e k = shtStrtab

instance (k : Nat) : Decidable (Allocates m e k) := inferInstanceAs (Decidable (_ ∧ _))

instance (k : Nat) : Decidable (HasContents m e k) := inferInstanceAs (Decidable (_ ∧ _))

instance (k : Nat) : Decidable (IsTable m e k) := inferInstanceAs (Decidable (_ ∨ _))

/-- The number of entries of a table. -/
def entryCount (k : Nat) : Nat :=
  (shSize m (secAt m e k) / shEntsize m (secAt m e k)).toNat

/-- Relocation `j` of section `k`. -/
def IsEntry (k j : Nat) : Prop := k < secCount m e ∧ secType m e k = shtRel ∧ j < entryCount m e k

instance (k j : Nat) : Decidable (IsEntry m e k j) := inferInstanceAs (Decidable (_ ∧ _))

def relAt (k j : Nat) : U32 :=
  e + secOffset m e k + BitVec.ofNat 32 relSize * BitVec.ofNat 32 j

/-- The section that it relocates. -/
def relTarget (k : Nat) : Nat := (shInfo m (secAt m e k)).toNat

def relSymtab (k : Nat) : Nat := (shLink m (secAt m e k)).toNat

def relStrtab (k : Nat) : Nat := (shLink m (secAt m e (relSymtab m e k))).toNat

def relSym (k j : Nat) : U32 := elf32RSym (relInfo m (relAt m e k j))

def relType (k j : Nat) : U8 := elf32RType (relInfo m (relAt m e k j))

/-- The address of its word. -/
def relWord (k j : Nat) : U32 :=
  e + secOffset m e (relTarget m e k) + relOffset m (relAt m e k j)

/-- Its symbol. -/
def symAt (k j : Nat) : U32 :=
  e + secOffset m e (relSymtab m e k) + BitVec.ofNat 32 symSize * relSym m e k j

/-- The section that the symbol is defined in. -/
def symSection (k j : Nat) : Nat := (stShndx m (symAt m e k j)).toNat

def Internal (k j : Nat) : Prop :=
  stShndx m (symAt m e k j) ≠ 0 ∧ stShndx m (symAt m e k j) ≠ shnAbs

instance (k j : Nat) : Decidable (Internal m e k j) := inferInstanceAs (Decidable (_ ∧ _))

def symName (k j : Nat) : U32 :=
  e + secOffset m e (relStrtab m e k) + stName m (symAt m e k j)

variable {H : Type} (malloc : H → U32 → U32 × H) (lookupSymbol : List U8 → U32) (h : H)

/-! ## Where the sections are -/

/-- The heap, when the pass is at section `k`. -/
def heapAt : Nat → H
  | 0 => h
  | k + 1 => if Allocates m e k then (malloc (heapAt k) (shSize m (secAt m e k))).2 else heapAt k

/-- What is allocated for section `k`. -/
def block (k : Nat) : U32 := (malloc (heapAt m e malloc h k) (shSize m (secAt m e k))).1

/-- The offset of section `k`, when the pass is at section `i`. -/
def offsetAt (i k : Nat) : U32 :=
  if Allocates m e k ∧ k < i then block m e malloc h k - e else secOffset m e k

def finalOffset (k : Nat) : U32 := offsetAt m e malloc h (secCount m e) k

/-- `S`, with the sections at offsets `off`. -/
def symVal (off : Nat → U32) (k j : Nat) : U32 :=
  if stShndx m (symAt m e k j) = 0 then lookupSymbol (cString m (symName m e k j))
  else if stShndx m (symAt m e k j) = shnAbs then stValue m (symAt m e k j)
  else e + stValue m (symAt m e k j) + off (symSection m e k j)

/-- `S + A`, or `S + A - P`. -/
def relocValue (k j : Nat) (s a : U32) : U32 :=
  if relType m e k j = 1 then do386_32 s a else do386Pc32 s a (relWord m e k j)

/-! ## What is in memory -/

/-- The header, the section headers, the contents of a section, and what is
allocated for one. -/
inductive Part where
  | header
  | table
  | contents (k : Nat)
  | block (k : Nat)
deriving DecidableEq

def Part.start : Part → U32
  | .header => e
  | .table => sheader m e
  | .contents k => e + secOffset m e k
  | .block k => Tomk.block m e malloc h k

def Part.len : Part → Nat
  | .header => ehdrSize
  | .table => shdrSize * secCount m e
  | .contents k => secSize m e k
  | .block k => secSize m e k

/-- The parts that there are. -/
def Part.Is : Part → Prop
  | .header => True
  | .table => True
  | .contents k => k < secCount m e ∧ HasContents m e k
  | .block k => k < secCount m e ∧ Allocates m e k

/-- No two parts overlap. -/
def PartsApart : Prop := ∀ p q : Part, p.Is m e → q.Is m e → p ≠ q →
  ByteMem.Apart (p.start m e malloc h) (p.len m e) (q.start m e malloc h) (q.len m e)

/-! ## Well-formed images -/

/-- What is asked of a relocation section; its entries, and those of its symbol table, have the size that
the loader takes them to have. -/
structure WfSection (k : Nat) : Prop where
  entsize : shEntsize m (secAt m e k) = BitVec.ofNat 32 relSize
  target_lt : relTarget m e k < secCount m e
  target : HasContents m e (relTarget m e k) ∧ ¬ IsTable m e (relTarget m e k)
  symtab_ne : shLink m (secAt m e k) ≠ 0
  symtab_lt : relSymtab m e k < secCount m e
  symtab : secType m e (relSymtab m e k) = shtSymtab
  symtab_entsize : shEntsize m (secAt m e (relSymtab m e k)) = BitVec.ofNat 32 symSize
  strtab_lt : relStrtab m e k < secCount m e
  strtab : secType m e (relStrtab m e k) = shtStrtab

/-- And of a relocation. -/
structure WfEntry (k j : Nat) : Prop where
  fits : (relOffset m (relAt m e k j)).toNat + 4 ≤ secSize m e (relTarget m e k)
  type : relType m e k j = 1 ∨ relType m e k j = 2
  sym_ne : relSym m e k j ≠ 0
  sym_lt : (relSym m e k j).toNat < entryCount m e (relSymtab m e k)
  section_lt : Internal m e k j → symSection m e k j < secCount m e
  name : stShndx m (symAt m e k j) = 0 →
    ∃ l, (stName m (symAt m e k j)).toNat + l < secSize m e (relStrtab m e k) ∧
      m (symName m e k j + BitVec.ofNat 32 l) = 0

structure WellFormed : Prop where
  nonzero : e ≠ 0
  supported : checkSupported m e = true
  rel : eType m e = etRel
  sections : ∀ k, k < secCount m e → secType m e k = shtRel → WfSection m e k
  entries : ∀ k j, IsEntry m e k j → WfEntry m e k j
  words : ∀ k j k' j', IsEntry m e k j → IsEntry m e k' j' → (k, j) ≠ (k', j') →
    ByteMem.Apart (relWord m e k j) 4 (relWord m e k' j') 4
  /-- All symbols have a value, where their sections are and where they come to be. -/
  resolved : ∀ k j, IsEntry m e k j → symVal m e lookupSymbol (secOffset m e) k j ≠ 0 ∧
    symVal m e lookupSymbol (finalOffset m e malloc h) k j ≠ 0
  apart : PartsApart m e malloc h
  /-- The allocations succeed. -/
  blocks : ∀ k, k < secCount m e → Allocates m e k → block m e malloc h k ≠ 0

/-! ## The specification -/

/-- An address of a word that is relocated. -/
def InWord (x : U32) : Prop := ∃ k j, IsEntry m e k j ∧ InRange (relWord m e k j) 4 x

structure Relocated (m' : Mem) : Prop where
  words : ∀ k j, IsEntry m e k j → load32 m' (relWord m e k j) =
    relocValue m e k j (symVal m e lookupSymbol (finalOffset m e malloc h) k j)
      (load32 m (relWord m e k j))
  rest : ∀ k, k < secCount m e → HasContents m e k →
    ∀ x, InRange (e + secOffset m e k) (secSize m e k) x → ¬ InWord m e x → m' x = m x
  zero : ∀ k, k < secCount m e → Allocates m e k →
    ∀ x, InRange (block m e malloc h k) (secSize m e k) x → m' x = 0

/-- The sections of the symbols are where they will be when the pass is at the
relocations: they come first in the table, or they stay. -/
def Placed : Prop := ∀ k j, IsEntry m e k j → Internal m e k j →
  Allocates m e (symSection m e k j) →
    symSection m e k j < k ∨ finalOffset m e malloc h (symSection m e k j)
      = secOffset m e (symSection m e k j)

/-! ## All the images that can be loaded

A relocation may be of the type that does nothing, and a symbol may have the value 0: it is the null
symbol, or absolute, or weak and not defined. -/

/-- A relocation that writes its word. -/
def IsWrite (k j : Nat) : Prop := IsEntry m e k j ∧ relType m e k j ≠ 0

/-- `S`, of the null symbol too. -/
def symbolValue (off : Nat → U32) (k j : Nat) : U32 :=
  if relSym m e k j = shnUndef then 0 else symVal m e lookupSymbol off k j

def WeakSymbol (k j : Nat) : Prop := elf32StBind (stInfo m (symAt m e k j)) &&& stbWeak ≠ 0

/-- What is asked of a symbol. -/
structure Resolvable (k j : Nat) : Prop where
  sym_lt : (relSym m e k j).toNat < entryCount m e (relSymtab m e k)
  section_lt : Internal m e k j → symSection m e k j < secCount m e
  name : stShndx m (symAt m e k j) = 0 →
    ∃ l, (stName m (symAt m e k j)).toNat + l < secSize m e (relStrtab m e k) ∧
      m (symName m e k j + BitVec.ofNat 32 l) = 0
  found : stShndx m (symAt m e k j) = 0 →
    lookupSymbol (cString m (symName m e k j)) ≠ 0 ∨ WeakSymbol m e k j

/-- And of a relocation. -/
structure LoadableEntry (k j : Nat) : Prop where
  type : relType m e k j = 0 ∨ relType m e k j = 1 ∨ relType m e k j = 2
  fits : relType m e k j ≠ 0 →
    (relOffset m (relAt m e k j)).toNat + 4 ≤ secSize m e (relTarget m e k)
  symbol : relSym m e k j ≠ shnUndef → Resolvable m e lookupSymbol k j

structure Loadable : Prop where
  nonzero : e ≠ 0
  supported : checkSupported m e = true
  rel : eType m e = etRel
  sections : ∀ k, k < secCount m e → secType m e k = shtRel → WfSection m e k
  entries : ∀ k j, IsEntry m e k j → LoadableEntry m e lookupSymbol k j
  words : ∀ k j k' j', IsWrite m e k j → IsWrite m e k' j' → (k, j) ≠ (k', j') →
    ByteMem.Apart (relWord m e k j) 4 (relWord m e k' j') 4
  apart : PartsApart m e malloc h
  blocks : ∀ k, k < secCount m e → Allocates m e k → block m e malloc h k ≠ 0

/-- All relocations are applied. -/
structure Applied (m' : Mem) : Prop where
  words : ∀ k j, IsWrite m e k j → load32 m' (relWord m e k j) =
    relocValue m e k j (symbolValue m e lookupSymbol (finalOffset m e malloc h) k j)
      (load32 m (relWord m e k j))
  rest : ∀ k, k < secCount m e → HasContents m e k →
    ∀ x, InRange (e + secOffset m e k) (secSize m e k) x →
      (∀ k' j', IsWrite m e k' j' → ¬ InRange (relWord m e k' j') 4 x) → m' x = m x
  zero : ∀ k, k < secCount m e → Allocates m e k →
    ∀ x, InRange (block m e malloc h k) (secSize m e k) x → m' x = 0

variable {m e malloc lookupSymbol h}

/-- The entries of a table are in it. -/
theorem entryCount_fits {k n : Nat} (h : shEntsize m (secAt m e k) = BitVec.ofNat 32 n) (hn : n < 2 ^ 32) :
    n * entryCount m e k ≤ secSize m e k := by
  rw [entryCount, h, BitVec.toNat_udiv, BitVec.toNat_ofNat, Nat.mod_eq_of_lt hn]
  exact Nat.mul_div_le _ _

theorem WfSection.entsize_ne {k : Nat} (hs : WfSection m e k) : shEntsize m (secAt m e k) ≠ 0 := by
  rw [hs.entsize]
  decide

theorem WfSection.fits {k : Nat} (hs : WfSection m e k) : relSize * entryCount m e k ≤ secSize m e k :=
  entryCount_fits hs.entsize (by decide)

theorem WfSection.symtab_entsize_ne {k : Nat} (hs : WfSection m e k) :
    shEntsize m (secAt m e (relSymtab m e k)) ≠ 0 := by
  rw [hs.symtab_entsize]
  decide

theorem WfSection.symtab_fits {k : Nat} (hs : WfSection m e k) :
    symSize * entryCount m e (relSymtab m e k) ≤ secSize m e (relSymtab m e k) :=
  entryCount_fits hs.symtab_entsize (by decide)

theorem WellFormed.loadable (hw : WellFormed m e malloc lookupSymbol h) :
    Loadable m e malloc lookupSymbol h where
  nonzero := hw.nonzero
  supported := hw.supported
  rel := hw.rel
  sections := hw.sections
  entries k j hj := by
    have hent := hw.entries k j hj
    refine ⟨Or.inr hent.type, fun _ => hent.fits, fun _ => ⟨hent.sym_lt, hent.section_lt, hent.name,
      fun h0 => Or.inl ?_⟩⟩
    have hfile := (hw.resolved k j hj).1
    rwa [symVal, if_pos h0] at hfile
  words k j k' j' hj hj' := hw.words k j k' j' hj.1 hj'.1
  apart := hw.apart
  blocks := hw.blocks

/-- With no type that does nothing, every relocation writes. -/
theorem WellFormed.isWrite (hw : WellFormed m e malloc lookupSymbol h) {k j : Nat}
    (hj : IsEntry m e k j) : IsWrite m e k j := by
  refine ⟨hj, fun h0 => ?_⟩
  rcases (hw.entries k j hj).type with h1 | h2
  · exact absurd (h0.symm.trans h1) (by decide)
  · exact absurd (h0.symm.trans h2) (by decide)

theorem WellFormed.symbolValue (hw : WellFormed m e malloc lookupSymbol h) {k j : Nat}
    (hj : IsEntry m e k j) (off : Nat → U32) :
    symbolValue m e lookupSymbol off k j = symVal m e lookupSymbol off k j :=
  if_neg (hw.entries k j hj).sym_ne

end

end Tomk
