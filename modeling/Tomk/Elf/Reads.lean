/-
# What a relocation is read from

`get_symval` and `do_reloc` read a few words: of the relocation, of section headers, of the symbol and of
its name.  They say whether all of it is there (`RelocSound`), whether the relocation can be done
(`RelocDoable`), what its symbol is worth (`relocVal`), and which word is written (`RelocWord`).  For 0 is the
failure code too, the loop goes on behind it only with another value (`RelocGoesOn`, `doReloc_spec`).

Two memories that agree on these words (`ReadsAgree`) agree on all of this.
-/
import Tomk.Elf.Elf

namespace Tomk

open ByteMem

variable {lookupSymbol : List U8 → U32} {m m' : Mem} {ehdr rel reltab table i x : U32}

/-! ## Symbols -/

def symbolCount (m : Mem) (ehdr table : U32) : U32 :=
  shSize m (sectionOf m ehdr table) / shEntsize m (sectionOf m ehdr table)

/-- The symbol `i` of section `table`. -/
def symbolOf (m : Mem) (ehdr table i : U32) : U32 :=
  ehdr + shOffset m (sectionOf m ehdr table) + BitVec.ofNat 32 symSize * i

def symbolName (m : Mem) (ehdr table i : U32) : U32 :=
  ehdr + shOffset m (sectionOf m ehdr (shLink m (sectionOf m ehdr table)))
    + stName m (symbolOf m ehdr table i)

/-- What it is worth. -/
def symbolVal (lookupSymbol : List U8 → U32) (m : Mem) (ehdr table i : U32) : U32 :=
  if stShndx m (symbolOf m ehdr table i) = 0 then lookupSymbol (cString m (symbolName m ehdr table i))
  else if stShndx m (symbolOf m ehdr table i) = shnAbs then stValue m (symbolOf m ehdr table i)
  else ehdr + stValue m (symbolOf m ehdr table i)
    + shOffset m (sectionOf m ehdr ((stShndx m (symbolOf m ehdr table i)).setWidth 32))

/-- The symbol is in its table. -/
structure SymbolThere (m : Mem) (ehdr table i : U32) : Prop where
  table_ne : table ≠ shnUndef
  table_lt : table.toNat < (eShnum m ehdr).toNat
  entsize : shEntsize m (sectionOf m ehdr table) ≠ 0
  inside : i < symbolCount m ehdr table

/-- Of a symbol, where it is looked for, and the section that it refers to. -/
structure SymbolSound (m : Mem) (ehdr table i : U32) : Prop where
  symtab : table.toNat < (eShnum m ehdr).toNat
  entsize : shEntsize m (sectionOf m ehdr table) ≠ 0
  strtab : i < symbolCount m ehdr table → stShndx m (symbolOf m ehdr table i) = 0 →
    (shLink m (sectionOf m ehdr table)).toNat < (eShnum m ehdr).toNat
  shndx : i < symbolCount m ehdr table → stShndx m (symbolOf m ehdr table i) ≠ 0 →
    stShndx m (symbolOf m ehdr table i) ≠ shnAbs →
      (stShndx m (symbolOf m ehdr table i)).toNat < (eShnum m ehdr).toNat

/-- The symbol can be resolved: it is in its table, its section is in the file, and one that is not
defined is found or weak. -/
structure SymbolResolves (lookupSymbol : List U8 → U32) (m : Mem) (ehdr table i : U32) : Prop where
  there : SymbolThere m ehdr table i
  sound : SymbolSound m ehdr table i
  found : stShndx m (symbolOf m ehdr table i) = 0 →
    lookupSymbol (cString m (symbolName m ehdr table i)) ≠ 0 ∨
      elf32StBind (stInfo m (symbolOf m ehdr table i)) &&& stbWeak ≠ 0

/-! ## Relocations -/

/-- Of a relocation, the section that it writes to, and its symbol. -/
structure RelocSound (m : Mem) (ehdr rel reltab : U32) : Prop where
  target : (shInfo m reltab).toNat < (eShnum m ehdr).toNat
  symbol : elf32RSym (relInfo m rel) ≠ shnUndef → shLink m reltab ≠ shnUndef →
    SymbolSound m ehdr (shLink m reltab) (elf32RSym (relInfo m rel))

/-- The relocation can be done: its section is there, its type is supported, and its symbol can be
resolved. -/
structure RelocDoable (lookupSymbol : List U8 → U32) (m : Mem) (ehdr rel reltab : U32) : Prop where
  target : (shInfo m reltab).toNat < (eShnum m ehdr).toNat
  type : elf32RType (relInfo m rel) = 0 ∨ elf32RType (relInfo m rel) = 1 ∨ elf32RType (relInfo m rel) = 2
  symbol : elf32RSym (relInfo m rel) ≠ shnUndef →
    SymbolResolves lookupSymbol m ehdr (shLink m reltab) (elf32RSym (relInfo m rel))

/-- What its symbol is worth; the null symbol is 0. -/
def relocVal (lookupSymbol : List U8 → U32) (m : Mem) (ehdr rel reltab : U32) : U32 :=
  if elf32RSym (relInfo m rel) = shnUndef then 0
  else symbolVal lookupSymbol m ehdr (shLink m reltab) (elf32RSym (relInfo m rel))

/-- The loop over the relocations goes on behind it. -/
def RelocGoesOn (lookupSymbol : List U8 → U32) (m : Mem) (ehdr rel reltab : U32) : Prop :=
  RelocDoable lookupSymbol m ehdr rel reltab ∧ relocVal lookupSymbol m ehdr rel reltab ≠ 0

/-- An address of the word that it writes. -/
def RelocWord (m : Mem) (ehdr rel reltab x : U32) : Prop :=
  elf32RType (relInfo m rel) ≠ 0 ∧
    InRange (ehdr + shOffset m (sectionOf m ehdr (shInfo m reltab)) + relOffset m rel) 4 x

theorem RelocDoable.sound (hd : RelocDoable lookupSymbol m ehdr rel reltab) :
    RelocSound m ehdr rel reltab := ⟨hd.target, fun hsym _ => (hd.symbol hsym).sound⟩

/-! ### The functions -/

theorem getSymval_eq (ht : table ≠ shnUndef) (hi : i ≠ shnUndef)
    (hent : shEntsize m (sectionOf m ehdr table) ≠ 0) :
    getSymval lookupSymbol m ehdr table i =
      some (if i < symbolCount m ehdr table then symbolVal lookupSymbol m ehdr table i else 0) := by
  have hcount : shSize m (sectionOf m ehdr table) / shEntsize m (sectionOf m ehdr table)
      = symbolCount m ehdr table := rfl
  have hsym : ehdr + shOffset m (sectionOf m ehdr table) + BitVec.ofNat 32 symSize * i
      = symbolOf m ehdr table i := rfl
  simp only [getSymval, if_neg (not_or.mpr ⟨ht, hi⟩), if_neg hent, hcount, hsym]
  by_cases hlt : i < symbolCount m ehdr table
  · rw [if_neg (BitVec.not_le.mpr hlt), if_pos hlt, symbolVal]
    split
    · rfl
    · split
      · rfl
      · rfl
  · rw [if_pos (BitVec.not_lt.mp hlt), if_neg hlt]

/-- What `do_reloc` takes the symbol for. -/
theorem RelocSound.symval (hs : RelocSound m ehdr rel reltab) (lookupSymbol : List U8 → U32) :
    ∃ v, (if elf32RSym (relInfo m rel) ≠ shnUndef then
        getSymval lookupSymbol m ehdr (shLink m reltab) (elf32RSym (relInfo m rel)) else some 0) = some v ∧
      (v ≠ 0 ↔ (elf32RSym (relInfo m rel) ≠ shnUndef →
          SymbolThere m ehdr (shLink m reltab) (elf32RSym (relInfo m rel))) ∧
        relocVal lookupSymbol m ehdr rel reltab ≠ 0) := by
  by_cases hsym : elf32RSym (relInfo m rel) = shnUndef
  · rw [if_neg (not_not.mpr hsym), relocVal, if_pos hsym]
    exact ⟨0, rfl, by simp⟩
  rw [if_pos hsym, relocVal, if_neg hsym, imp_iff_right hsym]
  by_cases hlink : shLink m reltab = shnUndef
  · refine ⟨0, ?_, iff_of_false (not_not.mpr rfl) fun h => h.1.table_ne hlink⟩
    rw [getSymval, if_pos (Or.inl hlink)]
  obtain ⟨hsymtab, hent, -, -⟩ := hs.symbol hsym hlink
  rw [getSymval_eq hlink hsym hent]
  refine ⟨_, rfl, ?_⟩
  by_cases hlt : elf32RSym (relInfo m rel) < symbolCount m ehdr (shLink m reltab)
  · rw [if_pos hlt]
    exact (and_iff_right ⟨hlink, hsymtab, hent, hlt⟩).symm
  · rw [if_neg hlt]
    exact iff_of_false (not_not.mpr rfl) fun h => hlt h.1.inside

/-- **`do_reloc`**, where all it reads is there: it returns another value than 0 if the relocation can be
done with one, and it writes the one word. -/
theorem doReloc_spec (lookupSymbol : List U8 → U32) (hs : RelocSound m ehdr rel reltab) :
    ∃ r m', doReloc lookupSymbol m ehdr rel reltab = some (r, m') ∧
      (r ≠ 0 ↔ RelocGoesOn lookupSymbol m ehdr rel reltab) ∧
      ∀ x, ¬ RelocWord m ehdr rel reltab x → m' x = m x := by
  obtain ⟨v, hv, hiff⟩ := hs.symval lookupSymbol
  have hgoes : RelocGoesOn lookupSymbol m ehdr rel reltab ↔ v ≠ 0 ∧
      (elf32RType (relInfo m rel) = 0 ∨ elf32RType (relInfo m rel) = 1 ∨
        elf32RType (relInfo m rel) = 2) := by
    rw [hiff]
    constructor
    · rintro ⟨hd, hval⟩
      exact ⟨⟨fun hsym => (hd.symbol hsym).there, hval⟩, hd.type⟩
    · rintro ⟨⟨hthere, hval⟩, htype⟩
      refine ⟨⟨hs.target, htype, fun hsym => ?_⟩, hval⟩
      have ht := hthere hsym
      refine ⟨ht, hs.symbol hsym ht.table_ne, fun h0 => Or.inl ?_⟩
      rwa [relocVal, if_neg hsym, symbolVal, if_pos h0] at hval
  -- what is done with the value
  let ref := ehdr + shOffset m (sectionOf m ehdr (shInfo m reltab)) + relOffset m rel
  have hrun : doReloc lookupSymbol m ehdr rel reltab =
      if elf32RSym (relInfo m rel) ≠ shnUndef ∧ v = 0 then some (0, m)
      else if elf32RType (relInfo m rel) = 0 then some (v, m)
      else if elf32RType (relInfo m rel) = 1 then some (v, store32 m ref (do386_32 v (load32 m ref)))
      else if elf32RType (relInfo m rel) = 2 then
        some (v, store32 m ref (do386Pc32 v (load32 m ref) ref))
      else some (0, m) := by
    by_cases hsym : elf32RSym (relInfo m rel) ≠ shnUndef
    · rw [if_pos hsym] at hv
      simp only [doReloc, if_pos hsym, hv, Option.bind_eq_bind, Option.bind_some, Option.pure_def]
      rfl
    · rw [if_neg hsym] at hv
      cases hv
      simp only [doReloc, if_neg hsym, Option.bind_eq_bind, Option.bind_some, Option.pure_def]
      rfl
  rw [hgoes, hrun]
  by_cases hzero : elf32RSym (relInfo m rel) ≠ shnUndef ∧ v = 0
  · rw [if_pos hzero]
    exact ⟨0, m, rfl, iff_of_false (not_not.mpr rfl) fun h => h.1 hzero.2, fun _ _ => rfl⟩
  rw [if_neg hzero]
  by_cases h0 : elf32RType (relInfo m rel) = 0
  · rw [if_pos h0]
    exact ⟨v, m, rfl, (and_iff_left (Or.inl h0)).symm, fun _ _ => rfl⟩
  have hother {w x : U32} (hx : ¬ RelocWord m ehdr rel reltab x) : store32 m
      (ehdr + shOffset m (sectionOf m ehdr (shInfo m reltab)) + relOffset m rel) w x = m x :=
    store32_other fun hin => hx ⟨h0, hin⟩
  rw [if_neg h0]
  by_cases h1 : elf32RType (relInfo m rel) = 1
  · rw [if_pos h1]
    exact ⟨v, _, rfl, (and_iff_left (Or.inr (Or.inl h1))).symm, fun x hx => hother hx⟩
  rw [if_neg h1]
  by_cases h2 : elf32RType (relInfo m rel) = 2
  · rw [if_pos h2]
    exact ⟨v, _, rfl, (and_iff_left (Or.inr (Or.inr h2))).symm, fun x hx => hother hx⟩
  · rw [if_neg h2]
    refine ⟨0, m, rfl, iff_of_false (not_not.mpr rfl) ?_, fun _ _ => rfl⟩
    rintro ⟨-, h | h | h⟩
    · exact h0 h
    · exact h1 h
    · exact h2 h

/-! ## What is read -/

/-- A character of the string at `p`, or its end. -/
def InString (m : Mem) (p x : U32) : Prop :=
  ∃ d, x = p + BitVec.ofNat 32 d ∧ ∀ d' < d, m (p + BitVec.ofNat 32 d') ≠ 0

/-- The addresses that a relocation is read from, besides the header and the section headers. -/
inductive RelocReads (m : Mem) (ehdr rel reltab x : U32) : Prop
  | rel : InRange rel relSize x → RelocReads m ehdr rel reltab x
  | sym : elf32RSym (relInfo m rel) ≠ shnUndef →
      SymbolThere m ehdr (shLink m reltab) (elf32RSym (relInfo m rel)) →
      InRange (symbolOf m ehdr (shLink m reltab) (elf32RSym (relInfo m rel))) symSize x →
      RelocReads m ehdr rel reltab x
  | name : elf32RSym (relInfo m rel) ≠ shnUndef →
      SymbolThere m ehdr (shLink m reltab) (elf32RSym (relInfo m rel)) →
      stShndx m (symbolOf m ehdr (shLink m reltab) (elf32RSym (relInfo m rel))) = 0 →
      (shLink m (sectionOf m ehdr (shLink m reltab))).toNat < (eShnum m ehdr).toNat →
      InString m (symbolName m ehdr (shLink m reltab) (elf32RSym (relInfo m rel))) x →
      RelocReads m ehdr rel reltab x

/-- `m'` agrees with `m` on the header, the section headers, and what the relocation is read from. -/
structure ReadsAgree (m m' : Mem) (ehdr rel reltab : U32) : Prop where
  header : ∀ x, InRange ehdr ehdrSize x → m' x = m x
  table : ∀ x, InRange (sheader m ehdr) (shdrSize * (eShnum m ehdr).toNat) x → m' x = m x
  header_of : ∃ k, k.toNat < (eShnum m ehdr).toNat ∧ reltab = sectionOf m ehdr k
  reads : ∀ x, RelocReads m ehdr rel reltab x → m' x = m x

theorem sectionOf_eq (m : Mem) (ehdr i : U32) :
    sectionOf m ehdr i = sheader m ehdr + BitVec.ofNat 32 (shdrSize * i.toNat) := by
  rw [sectionOf, BitVec.ofNat_mul, BitVec.ofNat_toNat, BitVec.setWidth_eq]

/-- A field of a section header is in the table. -/
theorem inRange_shdr {d : Nat} (hi : i.toNat < (eShnum m ehdr).toNat) (hd : d + 4 ≤ shdrSize)
    (hx : InRange (sectionOf m ehdr i + BitVec.ofNat 32 d) 4 x) :
    InRange (sheader m ehdr) (shdrSize * (eShnum m ehdr).toNat) x := by
  have hshnum := (eShnum m ehdr).isLt
  rw [sectionOf_eq, BitVec.add_assoc, ← BitVec.ofNat_add] at hx
  simp only [shdrSize] at hd hx ⊢
  exact hx.sub (by omega) (by omega)

theorem InString.congr {p : U32} (h : ∀ x, InString m p x → m' x = m x) (hx : InString m' p x) :
    InString m p x := by
  obtain ⟨d, rfl, hall⟩ := hx
  refine ⟨d, rfl, fun d' => ?_⟩
  induction d' using Nat.strong_induction_on with
  | _ d' ih =>
      intro hd
      rw [← h _ ⟨d', rfl, fun d'' hd'' => ih d'' hd'' (by omega)⟩]
      exact hall d' hd

theorem cStringFrom_of_inString {n : Nat} {p : U32} (h : ∀ x, InString m p x → m' x = m x) :
    cStringFrom m' n p = cStringFrom m n p := by
  induction n generalizing p with
  | zero => rfl
  | succ n ih =>
      have hp : m' p = m p := h p ⟨0, (BitVec.add_zero p).symm, nofun⟩
      rw [cStringFrom, cStringFrom, hp]
      split
      · rfl
      next hne =>
        rw [ih]
        rintro x ⟨d, rfl, hall⟩
        have hnext (d : Nat) : p + 1 + BitVec.ofNat 32 d = p + BitVec.ofNat 32 (d + 1) := by
          rw [BitVec.add_assoc, BitVec.ofNat_add, BitVec.add_comm (BitVec.ofNat 32 d)]
          rfl
        refine h _ ⟨d + 1, hnext d, fun d' hd' => ?_⟩
        cases d' with
        | zero => rwa [BitVec.add_zero]
        | succ d' =>
            rw [← hnext]
            exact hall d' (by omega)

section

variable (a : ReadsAgree m m' ehdr rel reltab)

include a

theorem ReadsAgree.shnum_eq : eShnum m' ehdr = eShnum m ehdr :=
  load16_congr fun x hx => a.header x (hx.sub (d := 48) (by decide) (by decide))

theorem ReadsAgree.sheader_eq : sheader m' ehdr = sheader m ehdr := by
  have hoff : eShoff m' ehdr = eShoff m ehdr := load32_congr fun x hx =>
    a.header x (hx.sub (d := 32) (by decide) (by decide))
  rw [sheader, hoff, sheader]

theorem ReadsAgree.section_eq (i : U32) : sectionOf m' ehdr i = sectionOf m ehdr i := by
  rw [sectionOf, a.sheader_eq, sectionOf]

theorem ReadsAgree.field_eq (hi : i.toNat < (eShnum m ehdr).toNat) {d : Nat} (hd : d + 4 ≤ shdrSize) :
    load32 m' (sectionOf m ehdr i + BitVec.ofNat 32 d)
      = load32 m (sectionOf m ehdr i + BitVec.ofNat 32 d) :=
  load32_congr fun x hx => a.table x (inRange_shdr hi hd hx)

theorem ReadsAgree.info_eq : shInfo m' reltab = shInfo m reltab := by
  obtain ⟨k, hk, rfl⟩ := a.header_of
  exact a.field_eq hk (d := 28) (by decide)

theorem ReadsAgree.link_eq : shLink m' reltab = shLink m reltab := by
  obtain ⟨k, hk, rfl⟩ := a.header_of
  exact a.field_eq hk (d := 24) (by decide)

theorem ReadsAgree.relInfo_eq : relInfo m' rel = relInfo m rel :=
  load32_congr fun x hx => a.reads x (.rel (hx.sub (d := 4) (by decide) (by decide)))

theorem ReadsAgree.relOffset_eq : relOffset m' rel = relOffset m rel := by
  refine load32_congr fun x hx => a.reads x (.rel ?_)
  exact InRange.sub (d := 0) (by rwa [BitVec.add_zero]) (by decide) (by decide)

theorem ReadsAgree.entsize_eq (ht : table.toNat < (eShnum m ehdr).toNat) :
    shEntsize m' (sectionOf m ehdr table) = shEntsize m (sectionOf m ehdr table) :=
  a.field_eq ht (d := 36) (by decide)

theorem ReadsAgree.offset_eq (ht : table.toNat < (eShnum m ehdr).toNat) :
    shOffset m' (sectionOf m ehdr table) = shOffset m (sectionOf m ehdr table) :=
  a.field_eq ht (d := 16) (by decide)

theorem ReadsAgree.strtab_eq (ht : table.toNat < (eShnum m ehdr).toNat) :
    shLink m' (sectionOf m ehdr table) = shLink m (sectionOf m ehdr table) :=
  a.field_eq ht (d := 24) (by decide)

theorem ReadsAgree.count_eq (ht : table.toNat < (eShnum m ehdr).toNat) :
    symbolCount m' ehdr table = symbolCount m ehdr table := by
  have hsize : shSize m' (sectionOf m ehdr table) = shSize m (sectionOf m ehdr table) :=
    a.field_eq ht (d := 20) (by decide)
  rw [symbolCount, a.section_eq, hsize, a.entsize_eq ht, symbolCount]

theorem ReadsAgree.symbol_eq (ht : table.toNat < (eShnum m ehdr).toNat) (i : U32) :
    symbolOf m' ehdr table i = symbolOf m ehdr table i := by
  rw [symbolOf, a.section_eq, a.offset_eq ht, symbolOf]

theorem ReadsAgree.there_iff : SymbolThere m' ehdr table i ↔ SymbolThere m ehdr table i := by
  constructor
  · rintro ⟨hne, hlt, hent, hin⟩
    rw [a.shnum_eq] at hlt
    rw [a.count_eq hlt] at hin
    rw [a.section_eq, a.entsize_eq hlt] at hent
    exact ⟨hne, hlt, hent, hin⟩
  · rintro ⟨hne, hlt, hent, hin⟩
    refine ⟨hne, a.shnum_eq ▸ hlt, ?_, a.count_eq hlt ▸ hin⟩
    rwa [a.section_eq, a.entsize_eq hlt]

end

/-! ### Of the symbol -/

section

variable (a : ReadsAgree m m' ehdr rel reltab) (hsym : elf32RSym (relInfo m rel) ≠ shnUndef)
  (ht : SymbolThere m ehdr (shLink m reltab) (elf32RSym (relInfo m rel)))

include a hsym ht

/-- A part of the symbol. -/
theorem ReadsAgree.inSym {d n : Nat} (hd : d + n ≤ symSize)
    (hx : InRange (symbolOf m ehdr (shLink m reltab) (elf32RSym (relInfo m rel))
      + BitVec.ofNat 32 d) n x) : m' x = m x :=
  a.reads x (.sym hsym ht (hx.sub hd (by decide)))

theorem ReadsAgree.shndx_eq :
    stShndx m' (symbolOf m ehdr (shLink m reltab) (elf32RSym (relInfo m rel)))
      = stShndx m (symbolOf m ehdr (shLink m reltab) (elf32RSym (relInfo m rel))) :=
  load16_congr fun _ hx => a.inSym hsym ht (d := 14) (n := 2) (by decide) hx

theorem ReadsAgree.value_eq :
    stValue m' (symbolOf m ehdr (shLink m reltab) (elf32RSym (relInfo m rel)))
      = stValue m (symbolOf m ehdr (shLink m reltab) (elf32RSym (relInfo m rel))) :=
  load32_congr fun _ hx => a.inSym hsym ht (d := 4) (n := 4) (by decide) hx

theorem ReadsAgree.stInfo_eq :
    stInfo m' (symbolOf m ehdr (shLink m reltab) (elf32RSym (relInfo m rel)))
      = stInfo m (symbolOf m ehdr (shLink m reltab) (elf32RSym (relInfo m rel))) := by
  refine a.inSym hsym ht (d := 12) (n := 1) (by decide) ?_
  rw [InRange, BitVec.ofNat_eq_ofNat, BitVec.sub_self]
  decide

theorem ReadsAgree.symName_eq
    (hstr : (shLink m (sectionOf m ehdr (shLink m reltab))).toNat < (eShnum m ehdr).toNat) :
    symbolName m' ehdr (shLink m reltab) (elf32RSym (relInfo m rel))
      = symbolName m ehdr (shLink m reltab) (elf32RSym (relInfo m rel)) := by
  have hname : stName m' (symbolOf m ehdr (shLink m reltab) (elf32RSym (relInfo m rel)))
      = stName m (symbolOf m ehdr (shLink m reltab) (elf32RSym (relInfo m rel))) :=
    load32_congr fun _ hx => a.inSym hsym ht (d := 0) (n := 4) (by decide) (by rwa [BitVec.add_zero])
  rw [symbolName, a.section_eq (shLink m reltab), a.strtab_eq ht.table_lt, a.section_eq,
    a.offset_eq hstr, a.symbol_eq ht.table_lt, hname, symbolName]

/-- The name of a symbol that is not defined. -/
theorem ReadsAgree.name_eq
    (h0 : stShndx m (symbolOf m ehdr (shLink m reltab) (elf32RSym (relInfo m rel))) = 0)
    (hstr : (shLink m (sectionOf m ehdr (shLink m reltab))).toNat < (eShnum m ehdr).toNat) :
    cString m' (symbolName m ehdr (shLink m reltab) (elf32RSym (relInfo m rel)))
      = cString m (symbolName m ehdr (shLink m reltab) (elf32RSym (relInfo m rel))) :=
  cStringFrom_of_inString fun x hx => a.reads x (.name hsym ht h0 hstr hx)

theorem ReadsAgree.symVal_eq
    (hs : SymbolSound m ehdr (shLink m reltab) (elf32RSym (relInfo m rel))) :
    symbolVal lookupSymbol m' ehdr (shLink m reltab) (elf32RSym (relInfo m rel))
      = symbolVal lookupSymbol m ehdr (shLink m reltab) (elf32RSym (relInfo m rel)) := by
  rw [symbolVal, symbolVal, a.symbol_eq ht.table_lt, a.shndx_eq hsym ht, a.value_eq hsym ht]
  split
  next h0 =>
    have hstr := hs.strtab ht.inside h0
    rw [a.symName_eq hsym ht hstr, a.name_eq hsym ht h0 hstr]
  next h0 =>
    split
    · rfl
    next habs =>
      have hlt := hs.shndx ht.inside h0 habs
      have htarget : ((stShndx m (symbolOf m ehdr (shLink m reltab)
          (elf32RSym (relInfo m rel)))).setWidth 32).toNat < (eShnum m ehdr).toNat := by
        rwa [BitVec.toNat_setWidth_of_le (by decide)]
      rw [a.section_eq, a.offset_eq htarget]

end

/-! ### Of the relocation -/

/-- And so does `m` with `m'`. -/
theorem ReadsAgree.symm (a : ReadsAgree m m' ehdr rel reltab) : ReadsAgree m' m ehdr rel reltab where
  header x hx := (a.header x hx).symm
  table x hx := by
    rw [a.sheader_eq, a.shnum_eq] at hx
    exact (a.table x hx).symm
  header_of := by
    obtain ⟨k, hk, hreltab⟩ := a.header_of
    exact ⟨k, a.shnum_eq ▸ hk, hreltab.trans (a.section_eq k).symm⟩
  reads x hx := by
    refine (a.reads x ?_).symm
    cases hx with
    | rel hx => exact .rel hx
    | sym hsym ht hx =>
        rw [a.relInfo_eq] at hsym ht hx
        rw [a.link_eq] at ht hx
        have ht := a.there_iff.mp ht
        rw [a.symbol_eq ht.table_lt] at hx
        exact .sym hsym ht hx
    | name hsym ht h0 hstr hx =>
        rw [a.relInfo_eq] at hsym ht h0 hx
        rw [a.link_eq] at ht h0 hstr hx
        have ht := a.there_iff.mp ht
        rw [a.symbol_eq ht.table_lt, a.shndx_eq hsym ht] at h0
        rw [a.section_eq, a.strtab_eq ht.table_lt, a.shnum_eq] at hstr
        rw [a.symName_eq hsym ht hstr] at hx
        exact .name hsym ht h0 hstr
          (InString.congr (fun x hx => a.reads x (.name hsym ht h0 hstr hx)) hx)

theorem ReadsAgree.symbolSound (a : ReadsAgree m m' ehdr rel reltab)
    (hsym : elf32RSym (relInfo m rel) ≠ shnUndef) (hlink : shLink m reltab ≠ shnUndef)
    (hs : SymbolSound m ehdr (shLink m reltab) (elf32RSym (relInfo m rel))) :
    SymbolSound m' ehdr (shLink m reltab) (elf32RSym (relInfo m rel)) := by
  obtain ⟨hsymtab, hent, hstrtab, hshndx⟩ := hs
  have hthere (hlt : elf32RSym (relInfo m rel) < symbolCount m ehdr (shLink m reltab)) :
      SymbolThere m ehdr (shLink m reltab) (elf32RSym (relInfo m rel)) := ⟨hlink, hsymtab, hent, hlt⟩
  refine ⟨a.shnum_eq ▸ hsymtab, ?_, fun hlt h0 => ?_, fun hlt h0 habs => ?_⟩
  · rwa [a.section_eq, a.entsize_eq hsymtab]
  · rw [a.count_eq hsymtab] at hlt
    rw [a.symbol_eq hsymtab, a.shndx_eq hsym (hthere hlt)] at h0
    rw [a.section_eq, a.strtab_eq hsymtab, a.shnum_eq]
    exact hstrtab hlt h0
  · rw [a.count_eq hsymtab] at hlt
    rw [a.symbol_eq hsymtab, a.shndx_eq hsym (hthere hlt)] at h0 habs ⊢
    rw [a.shnum_eq]
    exact hshndx hlt h0 habs

theorem ReadsAgree.relocSound (a : ReadsAgree m m' ehdr rel reltab) (hs : RelocSound m ehdr rel reltab) :
    RelocSound m' ehdr rel reltab := by
  refine ⟨?_, fun hsym hlink => ?_⟩
  · rw [a.info_eq, a.shnum_eq]
    exact hs.target
  · rw [a.relInfo_eq] at hsym ⊢
    rw [a.link_eq] at hlink ⊢
    exact a.symbolSound hsym hlink (hs.symbol hsym hlink)

theorem ReadsAgree.doable (a : ReadsAgree m m' ehdr rel reltab)
    (hd : RelocDoable lookupSymbol m ehdr rel reltab) : RelocDoable lookupSymbol m' ehdr rel reltab := by
  refine ⟨(a.relocSound hd.sound).target, ?_, fun hsym => ?_⟩
  · rw [a.relInfo_eq]
    exact hd.type
  · rw [a.relInfo_eq] at hsym ⊢
    rw [a.link_eq]
    obtain ⟨hthere, hsound, hfound⟩ := hd.symbol hsym
    refine ⟨a.there_iff.mpr hthere, a.symbolSound hsym hthere.table_ne hsound, fun h0 => ?_⟩
    rw [a.symbol_eq hthere.table_lt, a.shndx_eq hsym hthere] at h0
    have hstr := hsound.strtab hthere.inside h0
    rw [a.symName_eq hsym hthere hstr, a.name_eq hsym hthere h0 hstr, a.symbol_eq hthere.table_lt,
      a.stInfo_eq hsym hthere]
    exact hfound h0

theorem ReadsAgree.val_eq (a : ReadsAgree m m' ehdr rel reltab)
    (hd : RelocDoable lookupSymbol m ehdr rel reltab) :
    relocVal lookupSymbol m' ehdr rel reltab = relocVal lookupSymbol m ehdr rel reltab := by
  rw [relocVal, relocVal, a.relInfo_eq, a.link_eq]
  split
  · rfl
  next hsym =>
    obtain ⟨hthere, hsound, -⟩ := hd.symbol hsym
    exact a.symVal_eq hsym hthere hsound

theorem ReadsAgree.goesOn (a : ReadsAgree m m' ehdr rel reltab)
    (hg : RelocGoesOn lookupSymbol m ehdr rel reltab) : RelocGoesOn lookupSymbol m' ehdr rel reltab :=
  ⟨a.doable hg.1, by rw [a.val_eq hg.1]; exact hg.2⟩

theorem ReadsAgree.word (a : ReadsAgree m m' ehdr rel reltab) (hs : RelocSound m ehdr rel reltab)
    (hx : RelocWord m' ehdr rel reltab x) : RelocWord m ehdr rel reltab x := by
  obtain ⟨htype, hin⟩ := hx
  rw [a.relInfo_eq] at htype
  rw [a.info_eq, a.section_eq, a.offset_eq hs.target, a.relOffset_eq] at hin
  exact ⟨htype, hin⟩

end Tomk
