/-
# The pass over the section headers

What the loader reads does not change under it, but for the offsets of the sections
that it allocates memory for (`View`), and so every function of it computes what the
image says, with the offsets as they are (`View.getSymval`, `View.doReloc`).
-/
import Tomk.Elf.Reads
import Tomk.Elf.Relocation

namespace Tomk

open ByteMem

variable {m m' : Mem} {e : U32} {k j : Nat} {off : Nat → U32} {x : U32}
  {H : Type} {malloc : H → U32 → U32 × H} {lookupSymbol : List U8 → U32} {h : H}

theorem secAt_toNat (m : Mem) (e i : U32) : secAt m e i.toNat = sectionOf m e i := by
  rw [secAt, BitVec.ofNat_toNat, BitVec.setWidth_eq]

theorem secCount_lt (m : Mem) (e : U32) : secCount m e < 2 ^ 16 := (eShnum m e).isLt

theorem secAt_eq (m : Mem) (e : U32) (k : Nat) :
    secAt m e k = sheader m e + BitVec.ofNat 32 (shdrSize * k) := by
  rw [secAt, sectionOf, BitVec.ofNat_mul]

/-- The section headers, as the loop counts them. -/
theorem secAt_of16 (m : Mem) (e : U32) {i : Nat} (hi : i < 2 ^ 16) :
    Tomk.sheader m e + BitVec.ofNat 32 shdrSize * (BitVec.ofNat 16 i).setWidth 32 = secAt m e i := by
  have hw : (BitVec.ofNat 16 i).setWidth 32 = BitVec.ofNat 32 i := by
    apply BitVec.eq_of_toNat_eq
    rw [BitVec.toNat_setWidth, BitVec.toNat_ofNat, BitVec.toNat_ofNat]
    omega
  rw [hw, secAt, sectionOf]

theorem ofNat_lt_shnum {i : Nat} (hi : i < 2 ^ 16) : BitVec.ofNat 16 i < eShnum m e ↔ i < secCount m e := by
  rw [BitVec.lt_def, BitVec.toNat_ofNat, Nat.mod_eq_of_lt hi]
  rfl

theorem entryCount_lt (m : Mem) (e : U32) (k : Nat) : entryCount m e k < 2 ^ 32 :=
  (shSize m (secAt m e k) / shEntsize m (secAt m e k)).isLt

theorem ofNat_lt_entries {n : Nat} (hn : n < 2 ^ 32) :
    BitVec.ofNat 32 n < shSize m (secAt m e k) / shEntsize m (secAt m e k) ↔ n < entryCount m e k := by
  rw [BitVec.lt_def, BitVec.toNat_ofNat, Nat.mod_eq_of_lt hn]
  rfl

/-- `m'` is the image `m`, with the sections at the offsets `off`. -/
structure View (m m' : Mem) (e : U32) (off : Nat → U32) : Prop where
  header : ∀ x, InRange e ehdrSize x → m' x = m x
  fields : ∀ k, k < secCount m e → ∀ x, InRange (secAt m e k) shdrSize x →
    ¬ InRange (secAt m e k + 16) 4 x → m' x = m x
  offsets : ∀ k, k < secCount m e → shOffset m' (secAt m e k) = off k
  still : ∀ k, k < secCount m e → ¬ Allocates m e k → off k = secOffset m e k
  tables : ∀ k, k < secCount m e → IsTable m e k → ∀ x,
    InRange (e + secOffset m e k) (secSize m e k) x → m' x = m x

/-! ## What is read -/

theorem View.sheader (v : View m m' e off) : sheader m' e = sheader m e := by
  have hoff : eShoff m' e = eShoff m e := load32_congr fun x hx =>
    v.header x (hx.sub (d := 32) (by decide) (by decide))
  rw [Tomk.sheader, hoff, Tomk.sheader]

theorem View.sectionOf (v : View m m' e off) (i : U32) : sectionOf m' e i = sectionOf m e i := by
  rw [Tomk.sectionOf, v.sheader, Tomk.sectionOf]

theorem View.shnum (v : View m m' e off) : eShnum m' e = eShnum m e :=
  load16_congr fun x hx => v.header x (hx.sub (d := 48) (by decide) (by decide))

theorem View.entry (v : View m m' e off) : eEntry m' e = eEntry m e :=
  load32_congr fun x hx => v.header x (hx.sub (d := 24) (by decide) (by decide))

/-- The fields before the offset, and after it. -/
theorem View.field (v : View m m' e off) (hk : k < secCount m e) {d : Nat}
    (hd : d + 4 ≤ 16 ∨ 20 ≤ d ∧ d + 4 ≤ 40) :
    load32 m' (secAt m e k + BitVec.ofNat 32 d) = load32 m (secAt m e k + BitVec.ofNat 32 d) := by
  refine load32_congr fun x hx => v.fields k hk x (hx.sub (by show d + 4 ≤ 40; omega) (by decide)) ?_
  intro hoff
  have h1 := hx.offset (by omega)
  have h2 := InRange.offset (d := 16) hoff (by decide)
  omega

theorem View.type (v : View m m' e off) (hk : k < secCount m e) :
    shType m' (secAt m e k) = secType m e k := v.field hk (d := 4) (by decide)

theorem View.flags (v : View m m' e off) (hk : k < secCount m e) :
    shFlags m' (secAt m e k) = shFlags m (secAt m e k) := v.field hk (d := 8) (by decide)

theorem View.size (v : View m m' e off) (hk : k < secCount m e) :
    shSize m' (secAt m e k) = shSize m (secAt m e k) := v.field hk (d := 20) (by decide)

theorem View.link (v : View m m' e off) (hk : k < secCount m e) :
    shLink m' (secAt m e k) = shLink m (secAt m e k) := v.field hk (d := 24) (by decide)

theorem View.info (v : View m m' e off) (hk : k < secCount m e) :
    shInfo m' (secAt m e k) = shInfo m (secAt m e k) := v.field hk (d := 28) (by decide)

theorem View.entsize (v : View m m' e off) (hk : k < secCount m e) :
    shEntsize m' (secAt m e k) = shEntsize m (secAt m e k) := v.field hk (d := 36) (by decide)

/-- A section that is not allocated stays. -/
theorem View.offset (v : View m m' e off) (hk : k < secCount m e) (ht : secType m e k ≠ shtNobits) :
    shOffset m' (secAt m e k) = secOffset m e k := by
  rw [v.offsets k hk, v.still k hk fun ha => ht ha.1]

/-- A part of a table. -/
theorem View.table (v : View m m' e off) (hk : k < secCount m e) (ht : IsTable m e k) {d n : Nat}
    (hd : d + n ≤ secSize m e k) (hx : InRange (e + secOffset m e k + BitVec.ofNat 32 d) n x) :
    m' x = m x :=
  v.tables k hk ht x (hx.sub hd (Nat.le_of_lt (shSize m (secAt m e k)).isLt))

/-! ## The functions -/

theorem relAt_eq (m : Mem) (e : U32) (k j : Nat) :
    relAt m e k j = e + secOffset m e k + BitVec.ofNat 32 (relSize * j) := by
  rw [relAt, BitVec.ofNat_mul]

theorem symAt_eq (m : Mem) (e : U32) (k j : Nat) : symAt m e k j =
    e + secOffset m e (relSymtab m e k) + BitVec.ofNat 32 (symSize * (relSym m e k j).toNat) := by
  rw [symAt, BitVec.ofNat_mul, BitVec.ofNat_toNat, BitVec.setWidth_eq]

/-- The memory, with the word of a relocation done for the symbol `s`. -/
def wordDone (m : Mem) (e : U32) (m' : Mem) (k j : Nat) (s : U32) : Mem :=
  if relType m e k j = 0 then m'
  else store32 m' (relWord m e k j) (relocValue m e k j s (load32 m' (relWord m e k j)))

theorem shtRel_ne : shtRel ≠ shtNobits := by decide

theorem shtSymtab_ne : shtSymtab ≠ shtNobits := by decide

theorem shtStrtab_ne : shtStrtab ≠ shtNobits := by decide

section

variable (hw : Loadable m e malloc lookupSymbol h) (v : View m m' e off)

include hw v

/-- A relocation, as it is read. -/
theorem View.rel (hj : IsEntry m e k j) :
    relOffset m' (relAt m e k j) = relOffset m (relAt m e k j) ∧
      relInfo m' (relAt m e k j) = relInfo m (relAt m e k j) := by
  obtain ⟨hk, ht, hlt⟩ := hj
  have hfits : 8 * entryCount m e k ≤ secSize m e k := (hw.sections k hk ht).fits
  have hat := relAt_eq m e k j
  constructor
  · refine load32_congr fun x hx => ?_
    rw [hat] at hx
    exact v.table hk (Or.inl ht) (by show 8 * j + 4 ≤ _; omega) hx
  · refine load32_congr fun x hx => ?_
    rw [hat, BitVec.add_assoc, show (4 : U32) = BitVec.ofNat 32 4 from rfl, ← BitVec.ofNat_add] at hx
    exact v.table hk (Or.inl ht) (by show 8 * j + 4 + 4 ≤ _; omega) hx

/-- A symbol, as it is read. -/
theorem View.sym (hj : IsEntry m e k j) (hsym : relSym m e k j ≠ shnUndef) :
    stName m' (symAt m e k j) = stName m (symAt m e k j) ∧
      stValue m' (symAt m e k j) = stValue m (symAt m e k j) ∧
      stShndx m' (symAt m e k j) = stShndx m (symAt m e k j) := by
  obtain ⟨hk, ht, hlt⟩ := hj
  have hs := hw.sections k hk ht
  have hlt := ((hw.entries k j ⟨hk, ht, hlt⟩).symbol hsym).sym_lt
  have hfits : 16 * entryCount m e (relSymtab m e k) ≤ secSize m e (relSymtab m e k) :=
    hs.symtab_fits
  have htab : IsTable m e (relSymtab m e k) := Or.inr (Or.inl hs.symtab)
  have hat := symAt_eq m e k j
  have hpart {d n : Nat} (hd : d + n ≤ 16) {x : U32}
      (hx : InRange (symAt m e k j + BitVec.ofNat 32 d) n x) : m' x = m x := by
    rw [hat, BitVec.add_assoc, ← BitVec.ofNat_add] at hx
    exact v.table hs.symtab_lt htab (by show 16 * (relSym m e k j).toNat + d + n ≤ _; omega) hx
  refine ⟨load32_congr fun x hx => ?_, load32_congr fun x hx => ?_, load16_congr fun x hx => ?_⟩
  · refine hpart (d := 0) (n := 4) (by decide) ?_
    rwa [BitVec.add_zero]
  · exact hpart (d := 4) (n := 4) (by decide) hx
  · exact hpart (d := 14) (n := 2) (by decide) hx

/-- The name of an undefined symbol, as it is read. -/
theorem View.name (hj : IsEntry m e k j) (hsym : relSym m e k j ≠ shnUndef)
    (h0 : stShndx m (symAt m e k j) = 0) :
    cString m' (symName m e k j) = cString m (symName m e k j) := by
  obtain ⟨hk, ht, hlt⟩ := hj
  have hs := hw.sections k hk ht
  obtain ⟨l, hl, hend⟩ := ((hw.entries k j ⟨hk, ht, hlt⟩).symbol hsym).name h0
  refine cStringFrom_of_inString fun x hx => ?_
  obtain ⟨d, rfl, hall⟩ := hx
  have hd : d ≤ l := by
    by_contra hlt
    exact hall l (by omega) hend
  have hx : symName m e k j + BitVec.ofNat 32 d = e + secOffset m e (relStrtab m e k)
      + BitVec.ofNat 32 ((stName m (symAt m e k j)).toNat + d) := by
    rw [symName, BitVec.ofNat_add, BitVec.ofNat_toNat, BitVec.setWidth_eq, ← BitVec.add_assoc]
  refine v.table hs.strtab_lt (Or.inr (Or.inr hs.strtab))
    (d := (stName m (symAt m e k j)).toNat + d) (n := 1) (by omega) ?_
  rw [← hx, InRange, BitVec.sub_self]
  decide

/-- **`get_symval`** is the symbol, with the sections where they are. -/
theorem View.getSymval (hj : IsEntry m e k j) (hsym : relSym m e k j ≠ shnUndef) :
    getSymval lookupSymbol m' e (shLink m (secAt m e k)) (relSym m e k j)
      = some (symVal m e lookupSymbol off k j) := by
  have hent := (hw.entries k j hj).symbol hsym
  have hs := hw.sections k hj.1 hj.2.1
  obtain ⟨hname, hvalue, hshndx⟩ := v.sym hw hj hsym
  have hno : ¬ (shLink m (secAt m e k) = shnUndef ∨ relSym m e k j = shnUndef) :=
    not_or.mpr ⟨hs.symtab_ne, hsym⟩
  have hsymtab : Tomk.sectionOf m' e (shLink m (secAt m e k)) = secAt m e (relSymtab m e k) := by
    rw [v.sectionOf, relSymtab, secAt_toNat]
  have hsize := v.size hs.symtab_lt
  have hentsize := v.entsize hs.symtab_lt
  have hoff : shOffset m' (secAt m e (relSymtab m e k)) = secOffset m e (relSymtab m e k) :=
    v.offset hs.symtab_lt (by rw [hs.symtab]; exact shtSymtab_ne)
  have hlt : ¬ shSize m (secAt m e (relSymtab m e k)) / shEntsize m (secAt m e (relSymtab m e k))
      ≤ relSym m e k j := by
    rw [BitVec.le_def]
    exact Nat.not_le.mpr hent.sym_lt
  have hat : e + secOffset m e (relSymtab m e k) + BitVec.ofNat 32 symSize * relSym m e k j
      = symAt m e k j := rfl
  simp only [Tomk.getSymval, if_neg hno, hsymtab, hsize, hentsize, if_neg hs.symtab_entsize_ne,
    if_neg hlt, hoff, hat, hshndx, hvalue, symVal]
  split
  · next h0 =>
      have hstrtab : Tomk.sectionOf m' e (shLink m' (secAt m e (relSymtab m e k)))
          = secAt m e (relStrtab m e k) := by
        rw [v.link hs.symtab_lt, v.sectionOf, relStrtab, secAt_toNat]
      have hstr : shOffset m' (secAt m e (relStrtab m e k)) = secOffset m e (relStrtab m e k) :=
        v.offset hs.strtab_lt (by rw [hs.strtab]; exact shtStrtab_ne)
      rw [hstrtab, hstr, hname]
      exact congrArg (fun s => some (lookupSymbol s)) (v.name hw hj hsym h0)
  · next h0 =>
      split
      · rfl
      · next habs =>
          have hsec : Tomk.sectionOf m' e ((stShndx m (symAt m e k j)).setWidth 32)
              = secAt m e (symSection m e k j) := by
            rw [v.sectionOf, secAt, symSection, BitVec.ofNat_toNat]
          rw [hsec, v.offsets _ (hent.section_lt ⟨h0, habs⟩)]

/-- **`do_reloc`** returns the value of the symbol; with another value than 0 it has done the word. -/
theorem View.doReloc (hj : IsEntry m e k j) :
    ∃ m'', doReloc lookupSymbol m' e (relAt m e k j) (secAt m e k)
        = some (symbolValue m e lookupSymbol off k j, m'') ∧
      (symbolValue m e lookupSymbol off k j ≠ 0 →
        m'' = wordDone m e m' k j (symbolValue m e lookupSymbol off k j)) := by
  have hent := hw.entries k j hj
  have hs := hw.sections k hj.1 hj.2.1
  obtain ⟨hoffset, hinfo⟩ := v.rel hw hj
  have htarget : Tomk.sectionOf m' e (shInfo m' (secAt m e k)) = secAt m e (relTarget m e k) := by
    rw [v.info hj.1, v.sectionOf, relTarget, secAt_toNat]
  have hoff : shOffset m' (secAt m e (relTarget m e k)) = secOffset m e (relTarget m e k) :=
    v.offset hs.target_lt hs.target.1.2
  have hword : e + secOffset m e (relTarget m e k) + relOffset m (relAt m e k j)
      = relWord m e k j := rfl
  have htype : elf32RType (relInfo m (relAt m e k j)) = relType m e k j := rfl
  have hsymbol : elf32RSym (relInfo m (relAt m e k j)) = relSym m e k j := rfl
  -- what is done for the value `s`
  have hdone (s : U32) : (if relType m e k j = 0 then some (s, m')
      else if relType m e k j = 1 then
        some (s, store32 m' (relWord m e k j) (do386_32 s (load32 m' (relWord m e k j))))
      else if relType m e k j = 2 then
        some (s, store32 m' (relWord m e k j)
          (do386Pc32 s (load32 m' (relWord m e k j)) (relWord m e k j)))
      else some (0, m')) = some (s, wordDone m e m' k j s) := by
    rcases hent.type with h0 | h1 | h2
    · rw [wordDone, if_pos h0, if_pos h0]
    · rw [wordDone, relocValue, h1, if_neg (by decide), if_pos rfl, if_neg (by decide), if_pos rfl]
    · rw [wordDone, relocValue, h2, if_neg (by decide), if_neg (by decide), if_pos rfl,
        if_neg (by decide), if_neg (by decide)]
  simp only [Tomk.doReloc, htarget, hoff, hoffset, hinfo, hword, htype, hsymbol, symbolValue,
    Option.bind_eq_bind, Option.pure_def, hdone]
  by_cases hsym : relSym m e k j = shnUndef
  · rw [if_neg (not_not.mpr hsym), if_pos hsym, Option.bind_some,
      if_neg fun hc => absurd hsym hc.1]
    exact ⟨_, rfl, fun _ => rfl⟩
  · rw [if_pos hsym, if_neg hsym, v.link hj.1, v.getSymval hw hj hsym, Option.bind_some]
    by_cases hzero : symVal m e lookupSymbol off k j = 0
    · rw [if_pos ⟨hsym, hzero⟩, hzero]
      exact ⟨m', rfl, fun hne => absurd rfl hne⟩
    · rw [if_neg fun hc => hzero hc.2]
      exact ⟨_, rfl, fun _ => rfl⟩

end

/-! ## The invariant -/

/-- The pass is at relocation `n` of section `i`. -/
structure Loading (m : Mem) (e : U32) (malloc : H → U32 → U32 × H) (lookupSymbol : List U8 → U32)
    (h : H) (i n : Nat) (m' : Mem) : Prop where
  view : View m m' e (offsetAt m e malloc h i)
  done : ∀ k j, IsEntry m e k j → k < i ∨ k = i ∧ j < n → load32 m' (relWord m e k j) =
    relocValue m e k j (symVal m e lookupSymbol (offsetAt m e malloc h k) k j)
      (load32 m (relWord m e k j))
  todo : ∀ k j, IsEntry m e k j → ¬ (k < i ∨ k = i ∧ j < n) →
    load32 m' (relWord m e k j) = load32 m (relWord m e k j)
  rest : ∀ k, k < secCount m e → HasContents m e k →
    ∀ x, InRange (e + secOffset m e k) (secSize m e k) x → ¬ InWord m e x → m' x = m x
  zero : ∀ k, k < secCount m e → Allocates m e k → k < i →
    ∀ x, InRange (block m e malloc h k) (secSize m e k) x → m' x = 0

/-- The same of all images that can be loaded. -/
structure Applying (m : Mem) (e : U32) (malloc : H → U32 → U32 × H) (lookupSymbol : List U8 → U32)
    (h : H) (i n : Nat) (m' : Mem) : Prop where
  view : View m m' e (offsetAt m e malloc h i)
  done : ∀ k j, IsWrite m e k j → k < i ∨ k = i ∧ j < n → load32 m' (relWord m e k j) =
    relocValue m e k j (symbolValue m e lookupSymbol (offsetAt m e malloc h k) k j)
      (load32 m (relWord m e k j))
  todo : ∀ k j, IsWrite m e k j → ¬ (k < i ∨ k = i ∧ j < n) →
    load32 m' (relWord m e k j) = load32 m (relWord m e k j)
  rest : ∀ k, k < secCount m e → HasContents m e k →
    ∀ x, InRange (e + secOffset m e k) (secSize m e k) x →
      (∀ k' j', IsWrite m e k' j' → ¬ InRange (relWord m e k' j') 4 x) → m' x = m x
  zero : ∀ k, k < secCount m e → Allocates m e k → k < i →
    ∀ x, InRange (block m e malloc h k) (secSize m e k) x → m' x = 0

/-- How the pass comes out, from section `i` on: at the end, with no symbol of the value 0 on the way,
or at a relocation that fails. -/
def PassEnds (m : Mem) (e : U32) (malloc : H → U32 → U32 × H) (lookupSymbol : List U8 → U32) (h : H)
    (i : Nat) (r : Option (U32 × Mem × H)) : Prop :=
  (∃ m', r = some (eEntry m e, m', heapAt m e malloc h (secCount m e)) ∧
    Applying m e malloc lookupSymbol h (secCount m e) 0 m' ∧
    ∀ k j, i ≤ k → IsEntry m e k j →
      symbolValue m e lookupSymbol (offsetAt m e malloc h k) k j ≠ 0) ∨
  ∃ m' h' k j, r = some (0, m', h') ∧
    IsEntry m e k j ∧ symbolValue m e lookupSymbol (offsetAt m e malloc h k) k j = 0

variable {i n : Nat}

theorem Applying.loading (hw : WellFormed m e malloc lookupSymbol h)
    (hl : Applying m e malloc lookupSymbol h i n m') : Loading m e malloc lookupSymbol h i n m' where
  view := hl.view
  done k j hj hlt := by
    rw [hl.done k j (hw.isWrite hj) hlt, hw.symbolValue hj]
  todo k j hj := hl.todo k j (hw.isWrite hj)
  rest k hk hc x hx hno := hl.rest k hk hc x hx fun k' j' hj hin => hno ⟨k', j', hj.1, hin⟩
  zero := hl.zero

theorem offsetAt_of_not (ha : ¬ Allocates m e k) (i : Nat) :
    offsetAt m e malloc h i k = secOffset m e k := if_neg fun hc => ha hc.1

theorem offsetAt_of_lt (ha : Allocates m e k) (hk : k < i) :
    offsetAt m e malloc h i k = block m e malloc h k - e := if_pos ⟨ha, hk⟩

theorem offsetAt_of_le (hk : i ≤ k) : offsetAt m e malloc h i k = secOffset m e k :=
  if_neg fun hc => absurd hc.2 (by omega)

/-- One section further, only that section has moved. -/
theorem offsetAt_succ (hk : k ≠ i ∨ ¬ Allocates m e i) :
    offsetAt m e malloc h (i + 1) k = offsetAt m e malloc h i k := by
  rw [offsetAt, offsetAt]
  congr 1
  refine propext (and_congr_right fun ha => ?_)
  rcases hk with hk | hi
  · omega
  · have hk : k ≠ i := by
      rintro rfl
      exact hi ha
    omega

theorem IsTable.hasContents (ht : IsTable m e k) : HasContents m e k := by
  rcases ht with ht | ht | ht
  · exact ⟨by rw [ht]; decide, by rw [ht]; decide⟩
  · exact ⟨by rw [ht]; decide, by rw [ht]; decide⟩
  · exact ⟨by rw [ht]; decide, by rw [ht]; decide⟩

/-- A section header is a part of the table. -/
theorem inRange_table (hk : k < secCount m e) (hx : InRange (secAt m e k) shdrSize x) :
    InRange (sheader m e) (shdrSize * secCount m e) x := by
  have hlt := secCount_lt m e
  rw [secAt_eq] at hx
  exact hx.sub (by show 40 * k + 40 ≤ 40 * secCount m e; omega)
    (by show 40 * secCount m e ≤ 2 ^ 32; omega)

/-- Two section headers have no address in common. -/
theorem not_inRange_header (hk : k < secCount m e) (hi : i < secCount m e) (hne : k ≠ i)
    (hx : InRange (secAt m e k) shdrSize x) : ¬ InRange (secAt m e i) shdrSize x := by
  intro hy
  have hlt := secCount_lt m e
  rw [secAt_eq] at hx hy
  have h40 : shdrSize = 40 := rfl
  rw [h40] at hx hy
  have h1 := hx.offset (by omega)
  have h2 := hy.offset (by omega)
  omega

theorem inRange_field (hx : InRange (secAt m e k + 16) 4 x) : InRange (secAt m e k) shdrSize x :=
  InRange.sub (d := 16) hx (by decide) (by decide)

theorem Applying.start : Applying m e malloc lookupSymbol h 0 0 m where
  view := ⟨fun _ _ => rfl, fun _ _ _ _ _ => rfl, fun k _ => (offsetAt_of_le (Nat.zero_le k)).symm,
    fun k _ _ => offsetAt_of_le (Nat.zero_le k), fun _ _ _ _ _ => rfl⟩
  done := fun k j _ hc => absurd hc (by omega)
  todo := fun _ _ _ _ => rfl
  rest := fun _ _ _ _ _ _ => rfl
  zero := fun k _ _ hk => absurd hk (Nat.not_lt_zero k)

/-- A section that nothing more is done for. -/
theorem Applying.next (hl : Applying m e malloc lookupSymbol h i n m') (ha : ¬ Allocates m e i)
    (hall : ∀ j, IsEntry m e i j → j < n) : Applying m e malloc lookupSymbol h (i + 1) 0 m' := by
  have hoff (k : Nat) : offsetAt m e malloc h (i + 1) k = offsetAt m e malloc h i k :=
    offsetAt_succ (Or.inr ha)
  refine ⟨⟨hl.view.header, hl.view.fields, fun k hk => ?_, fun k hk hk' => ?_, hl.view.tables⟩,
    fun k j hj hd => hl.done k j hj ?_, fun k j hj hd => hl.todo k j hj ?_, hl.rest,
    fun k hk hk' hlt => hl.zero k hk hk' ?_⟩
  · rw [hoff]
    exact hl.view.offsets k hk
  · rw [hoff]
    exact hl.view.still k hk hk'
  · by_cases hk : k = i
    · subst hk
      exact Or.inr ⟨rfl, hall j hj.1⟩
    · omega
  · omega
  · have hne : k ≠ i := by
      rintro rfl
      exact ha hk'
    omega

/-- A relocation that writes nothing. -/
theorem Applying.pass (hl : Applying m e malloc lookupSymbol h i n m') (h0 : relType m e i n = 0) :
    Applying m e malloc lookupSymbol h i (n + 1) m' where
  view := hl.view
  done k j hj hd := by
    refine hl.done k j hj ?_
    have hne : (k, j) ≠ (i, n) := fun heq => by
      cases heq
      exact hj.2 h0
    rw [ne_eq, Prod.mk.injEq] at hne
    omega
  todo k j hj hd := hl.todo k j hj (by omega)
  rest := hl.rest
  zero := hl.zero

/-! ## The steps -/

section

variable (hw : Loadable m e malloc lookupSymbol h)

include hw

/-- A word that is relocated is a part of the contents of its section. -/
theorem Loadable.inRange_word (hj : IsWrite m e k j) (hx : InRange (relWord m e k j) 4 x) :
    InRange (e + secOffset m e (relTarget m e k)) (secSize m e (relTarget m e k)) x := by
  have hfits := (hw.entries k j hj.1).fits hj.2
  have hsize : secSize m e (relTarget m e k) < 2 ^ 32 := (shSize m (secAt m e _)).isLt
  refine InRange.sub (d := (relOffset m (relAt m e k j)).toNat) (k := 4) ?_ hfits (by omega)
  rwa [BitVec.ofNat_toNat, BitVec.setWidth_eq]

/-- So that it is apart from the other parts. -/
theorem Loadable.word_apart (hj : IsWrite m e k j) {p : Part} (hp : p.Is m e)
    (hne : p ≠ .contents (relTarget m e k))
    (hx : InRange (p.start m e malloc h) (p.len m e) x) : ¬ InRange (relWord m e k j) 4 x := by
  intro hword
  have hs := hw.sections k hj.1.1 hj.1.2.1
  have ht : Part.Is m e (.contents (relTarget m e k)) := ⟨hs.target_lt, hs.target.1⟩
  exact (hw.apart p _ hp ht hne).not_inRange hx (hw.inRange_word hj hword)

/-- **A relocation.** -/
theorem Applying.reloc (hl : Applying m e malloc lookupSymbol h i n m') (hn : IsEntry m e i n) :
    Applying m e malloc lookupSymbol h i (n + 1)
      (wordDone m e m' i n (symbolValue m e lookupSymbol (offsetAt m e malloc h i) i n)) := by
  rw [wordDone]
  by_cases h0 : relType m e i n = 0
  · rw [if_pos h0]
    exact hl.pass h0
  rw [if_neg h0]
  have hn : IsWrite m e i n := ⟨hn, h0⟩
  have hs := hw.sections i hn.1.1 hn.1.2.1
  have hother {p : Part} (hp : p.Is m e) (hne : p ≠ .contents (relTarget m e i)) {v x : U32}
      (hx : InRange (p.start m e malloc h) (p.len m e) x) :
      store32 m' (relWord m e i n) v x = m' x :=
    store32_other (hw.word_apart hn hp hne hx)
  have htable {v x : U32} (hx : InRange (sheader m e) (shdrSize * secCount m e) x) :
      store32 m' (relWord m e i n) v x = m' x := hother (p := .table) trivial (by simp) hx
  have hword {k j : Nat} (hj : IsWrite m e k j) (hne : (k, j) ≠ (i, n)) (v : U32) :
      load32 (store32 m' (relWord m e i n) v) (relWord m e k j) = load32 m' (relWord m e k j) :=
    load32_congr fun x hx => store32_other ((hw.words k j i n hj hn hne).not_inRange hx)
  refine ⟨⟨fun x hx => ?_, fun k hk x hx hoff => ?_, fun k hk => ?_, hl.view.still,
    fun k hk ht x hx => ?_⟩, fun k j hj hd => ?_, fun k j hj hd => ?_, fun k hk hc x hx hno => ?_,
    fun k hk ha hlt x hx => ?_⟩
  · rw [hother (p := .header) trivial (by simp) hx]
    exact hl.view.header x hx
  · rw [htable (inRange_table hk hx)]
    exact hl.view.fields k hk x hx hoff
  · rw [← hl.view.offsets k hk]
    exact load32_congr fun x hx => htable (inRange_table hk (inRange_field hx))
  · rw [hother (p := .contents k) ⟨hk, ht.hasContents⟩ ?_ hx]
    · exact hl.view.tables k hk ht x hx
    · rintro heq
      cases heq
      exact hs.target.2 ht
  · by_cases heq : (k, j) = (i, n)
    · cases heq
      rw [load32_store32, hl.todo _ _ hj (by omega)]
    · rw [hword hj heq]
      refine hl.done k j hj ?_
      rw [Prod.mk.injEq] at heq
      omega
  · have heq : (k, j) ≠ (i, n) := by
      rw [ne_eq, Prod.mk.injEq]
      omega
    rw [hword hj heq]
    exact hl.todo k j hj (by omega)
  · rw [store32_other (hno i n hn)]
    exact hl.rest k hk hc x hx hno
  · rw [hother (p := .block k) ⟨hk, ha⟩ (by simp) hx]
    exact hl.zero k hk ha hlt x hx

/-- A part that is not the block has no address in it. -/
theorem Loadable.not_inBlock (hi : i < secCount m e) (ha : Allocates m e i) {p : Part} (hp : p.Is m e)
    (hne : p ≠ .block i) (hx : InRange (p.start m e malloc h) (p.len m e) x) :
    ¬ InRange (block m e malloc h i) (secSize m e i) x :=
  (hw.apart p (.block i) hp ⟨hi, ha⟩ hne).not_inRange hx

/-- And one that is not the table of the section headers has none of an offset. -/
theorem Loadable.not_inOffset (hi : i < secCount m e) {p : Part} (hp : p.Is m e) (hne : p ≠ .table)
    (hx : InRange (p.start m e malloc h) (p.len m e) x) : ¬ InRange (secAt m e i + 16) 4 x := fun hin =>
  (hw.apart p .table hp trivial hne).not_inRange hx (inRange_table hi (inRange_field hin))

/-- The block is filled. -/
theorem View.fillBlock (v : View m m' e off) (hi : i < secCount m e) (ha : Allocates m e i) :
    View m (fill m' (block m e malloc h i) 0 (secSize m e i)) e off where
  header x hx := by
    rw [fill_other (hw.not_inBlock hi ha (p := .header) trivial (by simp) hx), v.header x hx]
  fields k hk x hx hoff := by
    rw [fill_other (hw.not_inBlock hi ha (p := .table) trivial (by simp) (inRange_table hk hx)),
      v.fields k hk x hx hoff]
  offsets k hk := by
    rw [← v.offsets k hk]
    exact load32_congr fun x hx => fill_other (hw.not_inBlock hi ha (p := .table) trivial (by simp)
      (inRange_table hk (inRange_field hx)))
  still := v.still
  tables k hk ht x hx := by
    rw [fill_other (hw.not_inBlock hi ha (p := .contents k) ⟨hk, ht.hasContents⟩ (by simp) hx),
      v.tables k hk ht x hx]

/-- The offset of the section is set. -/
theorem View.setOffset (v : View m m' e (offsetAt m e malloc h i)) (hi : i < secCount m e)
    (ha : Allocates m e i) :
    View m (store32 m' (secAt m e i + 16) (block m e malloc h i - e)) e (offsetAt m e malloc h (i + 1)) where
  header x hx := by
    rw [store32_other (hw.not_inOffset hi (p := .header) trivial (by simp) hx), v.header x hx]
  fields k hk x hx hoff := by
    rw [store32_other, v.fields k hk x hx hoff]
    by_cases hki : k = i
    · subst hki
      exact hoff
    · exact fun hin => not_inRange_header hk hi hki hx (inRange_field hin)
  offsets k hk := by
    by_cases hki : k = i
    · subst hki
      rw [offsetAt_of_lt ha (Nat.lt_succ_self k)]
      exact load32_store32 _ _ _
    · rw [offsetAt_succ (Or.inl hki), ← v.offsets k hk]
      exact load32_congr fun x hx => store32_other fun hin =>
        not_inRange_header hk hi hki (inRange_field hx) (inRange_field hin)
  still k _ hk' := offsetAt_of_not hk' _
  tables k hk ht x hx := by
    rw [store32_other (hw.not_inOffset hi (p := .contents k) ⟨hk, ht.hasContents⟩ (by simp) hx),
      v.tables k hk ht x hx]

/-- **An allocation.** -/
theorem Applying.alloc (hl : Applying m e malloc lookupSymbol h i 0 m') (hi : i < secCount m e)
    (ha : Allocates m e i) : Applying m e malloc lookupSymbol h (i + 1) 0
      (store32 (fill m' (block m e malloc h i) 0 (secSize m e i)) (secAt m e i + 16)
        (block m e malloc h i - e)) := by
  let b := block m e malloc h i
  -- what is written is the block and the field
  have hpart {p : Part} (hp : p.Is m e) (h1 : p ≠ .block i) (h2 : p ≠ .table) {x : U32}
      (hx : InRange (p.start m e malloc h) (p.len m e) x) :
      store32 (fill m' b 0 (secSize m e i)) (secAt m e i + 16) (b - e) x = m' x := by
    rw [store32_other (hw.not_inOffset hi hp h2 hx), fill_other (hw.not_inBlock hi ha hp h1 hx)]
  have hword {k j : Nat} (hj : IsWrite m e k j) :
      load32 (store32 (fill m' b 0 (secSize m e i)) (secAt m e i + 16) (b - e)) (relWord m e k j)
        = load32 m' (relWord m e k j) := by
    have hs := hw.sections k hj.1.1 hj.1.2.1
    have ht : Part.Is m e (.contents (relTarget m e k)) := ⟨hs.target_lt, hs.target.1⟩
    exact load32_congr fun x hx => hpart ht (by simp) (by simp) (hw.inRange_word hj hx)
  have hrel {j : Nat} : ¬ IsEntry m e i j := fun hj => by
    have h1 := hj.2.1
    rw [ha.1] at h1
    exact absurd h1 (by decide)
  refine ⟨(hl.view.fillBlock hw hi ha).setOffset hw hi ha, fun k j hj hd => ?_, fun k j hj hd => ?_,
    fun k hk hc x hx hno => ?_, fun k hk hk' hlt x hx => ?_⟩
  · rw [hword hj]
    refine hl.done k j hj (Or.inl ?_)
    have hne : k ≠ i := by
      rintro rfl
      exact hrel hj.1
    omega
  · rw [hword hj]
    exact hl.todo k j hj (by omega)
  · rw [hpart (p := .contents k) ⟨hk, hc⟩ (by simp) (by simp) hx]
    exact hl.rest k hk hc x hx hno
  · rw [store32_other (hw.not_inOffset hi (p := .block k) ⟨hk, hk'⟩ (by simp) hx)]
    by_cases hki : k = i
    · subst hki
      exact fill_self hx
    · have hne : Part.block k ≠ Part.block i := by
        rintro heq
        cases heq
        exact hki rfl
      rw [fill_other (hw.not_inBlock hi ha (p := .block k) ⟨hk, hk'⟩ hne hx)]
      exact hl.zero k hk hk' (by omega) x hx

/-! ## The loops -/

omit hw in
/-- A section that does not stop the pass. -/
theorem PassEnds.before {r : Option (U32 × Mem × H)}
    (hr : PassEnds m e malloc lookupSymbol h (i + 1) r) (hne : ∀ j, IsEntry m e i j →
      symbolValue m e lookupSymbol (offsetAt m e malloc h i) i j ≠ 0) :
    PassEnds m e malloc lookupSymbol h i r := by
  refine hr.imp_left fun ⟨m', hrun, hl, hall⟩ => ⟨m', hrun, hl, fun k j hk hj => ?_⟩
  by_cases heq : k = i
  · subst heq
    exact hne j hj
  · exact hall k j (by omega) hj

/-- **The loop over a relocation section** gets through, or comes to a relocation with the value
0. -/
theorem Applying.relocLoop (hi : i < secCount m e) (ht : secType m e i = shtRel) (fuel : Nat)
    (hl : Applying m e malloc lookupSymbol h i n m') (hn : n ≤ entryCount m e i)
    (hfuel : entryCount m e i < fuel + n) :
    (∃ m'', relocLoop lookupSymbol e (secAt m e i) fuel (BitVec.ofNat 32 n) m' = some (true, m'') ∧
      Applying m e malloc lookupSymbol h i (entryCount m e i) m'' ∧
      ∀ j, n ≤ j → IsEntry m e i j →
        symbolValue m e lookupSymbol (offsetAt m e malloc h i) i j ≠ 0) ∨
    ∃ m'' j, relocLoop lookupSymbol e (secAt m e i) fuel (BitVec.ofNat 32 n) m' = some (false, m'') ∧
      IsEntry m e i j ∧ symbolValue m e lookupSymbol (offsetAt m e malloc h i) i j = 0 := by
  have hs := hw.sections i hi ht
  have hcount := entryCount_lt m e i
  induction fuel generalizing n m' with
  | zero => omega
  | succ fuel ih =>
      have hv := hl.view
      have hlt : BitVec.ofNat 32 n < shSize m (secAt m e i) / shEntsize m (secAt m e i) ↔
          n < entryCount m e i := ofNat_lt_entries (by omega)
      have hoff : shOffset m' (secAt m e i) = secOffset m e i :=
        hv.offset hi (by rw [ht]; exact shtRel_ne)
      simp only [Tomk.relocLoop, hv.size hi, hv.entsize hi, if_neg hs.entsize_ne, hlt, hoff]
      by_cases hmore : n < entryCount m e i
      · have hj : IsEntry m e i n := ⟨hi, ht, hmore⟩
        have hat : e + secOffset m e i + BitVec.ofNat 32 relSize * BitVec.ofNat 32 n
            = relAt m e i n := rfl
        obtain ⟨m1, hdo, hdone⟩ := hv.doReloc hw hj
        rw [if_pos hmore, hat, hdo]
        simp only [Option.bind_eq_bind, Option.bind_some]
        by_cases hzero : symbolValue m e lookupSymbol (offsetAt m e malloc h i) i n = 0
        · rw [if_pos hzero]
          exact Or.inr ⟨m1, n, rfl, hj, hzero⟩
        · rw [if_neg hzero, show BitVec.ofNat 32 n + 1 = BitVec.ofNat 32 (n + 1) from
            (BitVec.ofNat_add ..).symm, hdone hzero]
          rcases ih (hl.reloc hw hj) hmore (by omega) with ⟨m'', hrun, hl', hall⟩ | hfails
          · refine Or.inl ⟨m'', hrun, hl', fun j hle hj' => ?_⟩
            by_cases heq : j = n
            · rwa [heq]
            · exact hall j (by omega) hj'
          · exact Or.inr hfails
      · rw [if_neg hmore]
        have heq : n = entryCount m e i := by omega
        exact Or.inl ⟨m', rfl, heq ▸ hl, fun j hle hj => absurd hj.2.2 (by omega)⟩

omit hw in
/-- A section that memory is allocated for. -/
theorem loadNobits_allocates (hsize : shSize m' (secAt m e k) = shSize m (secAt m e k))
    (hflags : shFlags m' (secAt m e k) = shFlags m (secAt m e k)) (ha : Allocates m e k) :
    loadNobits malloc e (secAt m e k) m' (heapAt m e malloc h k)
      = (store32 (fill m' (block m e malloc h k) 0 (secSize m e k)) (secAt m e k + 16)
          (block m e malloc h k - e), heapAt m e malloc h (k + 1)) := by
  simp only [loadNobits, hsize, hflags, if_neg ha.2.1, if_pos ha.2.2, heapAt, if_pos ha]
  rfl

omit hw in
/-- A NOBITS section without memory. -/
theorem loadNobits_skips (hsize : shSize m' (secAt m e k) = shSize m (secAt m e k))
    (hflags : shFlags m' (secAt m e k) = shFlags m (secAt m e k)) (hbits : secType m e k = shtNobits)
    (ha : ¬ Allocates m e k) (h : H) : loadNobits malloc e (secAt m e k) m' h = (m', h) := by
  simp only [loadNobits, hsize, hflags]
  split
  · rfl
  · next hsize => rw [if_neg fun hflags => ha ⟨hbits, hsize, hflags⟩]

/-- **The loop over the section headers** gets to their end, or comes to a relocation with the
value 0. -/
theorem Applying.loadLoop (fuel : Nat) (hl : Applying m e malloc lookupSymbol h i 0 m')
    (hi : i ≤ secCount m e) (hfuel : secCount m e < fuel + i) :
    PassEnds m e malloc lookupSymbol h i (loadLoop malloc lookupSymbol e (sheader m e) fuel
      (BitVec.ofNat 16 i) m' (heapAt m e malloc h i)) := by
  have hcount := secCount_lt m e
  induction fuel generalizing i m' with
  | zero => omega
  | succ fuel ih =>
      have hv := hl.view
      have hlt : BitVec.ofNat 16 i < eShnum m e ↔ i < secCount m e := ofNat_lt_shnum (by omega)
      have hsect := secAt_of16 m e (i := i) (by omega)
      have hnext : BitVec.ofNat 16 i + 1 = BitVec.ofNat 16 (i + 1) := (BitVec.ofNat_add ..).symm
      simp only [Tomk.loadLoop, hv.shnum, hlt, hsect]
      by_cases hmore : i < secCount m e
      · rw [if_pos hmore]
        simp only [hv.type hmore, hnext]
        by_cases hrel : secType m e i = shtRel
        · -- a relocation section
          have ha : ¬ Allocates m e i := fun ha => shtRel_ne (hrel.symm.trans ha.1)
          have hturns := entryCount_lt m e i
          have hheap : heapAt m e malloc h (i + 1) = heapAt m e malloc h i := if_neg ha
          rw [if_pos hrel, BitVec.ofNat_eq_ofNat]
          rcases hl.relocLoop hw hmore hrel (2 ^ 32) (Nat.zero_le _) (by omega) with
            ⟨m1, hrun, hl1, hall⟩ | ⟨m1, j, hrun, hj, hzero⟩
          · rw [hrun]
            simp only [Option.bind_eq_bind, Option.bind_some, if_true, ← hheap]
            exact (ih (hl1.next ha fun j hj => hj.2.2) hmore (by omega)).before
              fun j hj => hall j (Nat.zero_le j) hj
          · rw [hrun]
            exact Or.inr ⟨m1, _, i, j, rfl, hj, hzero⟩
        · rw [if_neg hrel]
          have hno {j : Nat} : ¬ IsEntry m e i j := fun hj => hrel hj.2.1
          by_cases hbits : secType m e i = shtNobits
          · rw [if_pos hbits]
            by_cases ha : Allocates m e i
            · rw [loadNobits_allocates (hv.size hmore) (hv.flags hmore) ha]
              exact (ih (hl.alloc hw hmore ha) hmore (by omega)).before fun j hj => absurd hj hno
            · have hheap : heapAt m e malloc h (i + 1) = heapAt m e malloc h i := if_neg ha
              rw [loadNobits_skips (hv.size hmore) (hv.flags hmore) hbits ha, ← hheap]
              exact (ih (hl.next ha fun j hj => absurd hj hno) hmore (by omega)).before
                fun j hj => absurd hj hno
          · have ha : ¬ Allocates m e i := fun ha => hbits ha.1
            have hheap : heapAt m e malloc h (i + 1) = heapAt m e malloc h i := if_neg ha
            rw [if_neg hbits, ← hheap]
            exact (ih (hl.next ha fun j hj => absurd hj hno) hmore (by omega)).before
              fun j hj => absurd hj hno
      · have heq : i = secCount m e := by omega
        subst heq
        rw [if_neg hmore, hv.entry]
        exact Or.inl ⟨m', rfl, hl, fun k j hk hj => absurd hj.1 (by omega)⟩

/-- **The call** comes to the end of the section headers, or to a relocation with the value 0. -/
theorem Loadable.elfLoadFile :
    PassEnds m e malloc lookupSymbol h 0 (elfLoadFile malloc lookupSymbol m h e) := by
  have hcount := secCount_lt m e
  have hstart : Applying m e malloc lookupSymbol h 0 0 m := Applying.start
  have hno : ¬ ¬ checkSupported m e = true := not_not.mpr hw.supported
  simp only [Tomk.elfLoadFile, if_neg hw.nonzero, if_neg hno, if_pos hw.rel, loadRel]
  exact hstart.loadLoop hw (2 ^ 16) (Nat.zero_le _) (by omega)

end

/-! ## Symbols with a value -/

/-- The symbol has a value, wherever its section is by now. -/
theorem WellFormed.symVal_ne (hw : WellFormed m e malloc lookupSymbol h) (hj : IsEntry m e k j) (i : Nat) :
    symVal m e lookupSymbol (offsetAt m e malloc h i) k j ≠ 0 := by
  obtain ⟨hfile, hfinal⟩ := hw.resolved k j hj
  have hent := hw.entries k j hj
  simp only [symVal] at hfile hfinal ⊢
  split
  · next h0 => rwa [if_pos h0] at hfile
  · next h0 =>
      rw [if_neg h0] at hfile hfinal
      split
      · next habs => rwa [if_pos habs] at hfile
      · next habs =>
          rw [if_neg habs] at hfile hfinal
          by_cases hmoved : Allocates m e (symSection m e k j) ∧ symSection m e k j < i
          · rw [offsetAt_of_lt hmoved.1 hmoved.2]
            rwa [finalOffset, offsetAt_of_lt hmoved.1 (hent.section_lt ⟨h0, habs⟩)] at hfinal
          · rwa [offsetAt, if_neg hmoved]

/-- **The call** returns the entry, with all sections done. -/
theorem WellFormed.elfLoadFile (hw : WellFormed m e malloc lookupSymbol h) :
    ∃ m', elfLoadFile malloc lookupSymbol m h e
      = some (eEntry m e, m', heapAt m e malloc h (secCount m e)) ∧
    Loading m e malloc lookupSymbol h (secCount m e) 0 m' := by
  rcases hw.loadable.elfLoadFile with ⟨m', hrun, hl, -⟩ | ⟨_, _, k, j, _, hj, hzero⟩
  · exact ⟨m', hrun, hl.loading hw⟩
  · rw [hw.symbolValue hj] at hzero
    exact absurd hzero (hw.symVal_ne hj k)

end Tomk
