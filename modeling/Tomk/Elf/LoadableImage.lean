/-
# Images that can be loaded are not rewritten

The loader reads the header, the section headers, and the contents of tables.  In an image that can be
loaded no relocation writes to one of these, and the blocks are apart from all of them.  So such an image is
intact (`Loadable.intact`), and all its relocations are sound (`Loadable.relocSound`).
-/
import Tomk.Elf.Intact

namespace Tomk

open ByteMem

variable {m : Mem} {e : U32} {H : Type} {malloc : H → U32 → U32 × H} {lookupSymbol : List U8 → U32} {h : H}
  {i j k n : Nat} {x : U32}

theorem Loadable.view_imageAt (hw : Loadable m e malloc lookupSymbol h) (hi : i ≤ secCount m e) :
    View m (imageAt m e malloc h i) e (offsetAt m e malloc h i) := by
  induction i with
  | zero =>
      have hstart : Applying m e malloc lookupSymbol h 0 0 m := .start
      exact hstart.view
  | succ i ih =>
      rw [imageAt]
      split
      next ha => exact (ih (by omega)).setOffset hw hi ha
      next ha =>
        have hoff : offsetAt m e malloc h (i + 1) = offsetAt m e malloc h i :=
          funext fun k => offsetAt_succ (Or.inr ha)
        rw [hoff]
        exact ih (by omega)

section

variable (hw : Loadable m e malloc lookupSymbol h) (hj : IsEntry m e k j)

include hw hj

/-- The view of the image at the relocation. -/
theorem Loadable.entryView : View m (imageAt m e malloc h k) e (offsetAt m e malloc h k) :=
  hw.view_imageAt (Nat.le_of_lt hj.1)

/-- The number of its symbol. -/
theorem Loadable.entrySym :
    elf32RSym (relInfo (imageAt m e malloc h k) (relAt m e k j)) = relSym m e k j := by
  rw [((hw.entryView hj).rel hw hj).2, relSym]

/-- The header of its symbol table. -/
theorem Loadable.entryTable :
    sectionOf (imageAt m e malloc h k) e (shLink (imageAt m e malloc h k) (secAt m e k))
      = secAt m e (relSymtab m e k) := by
  have v := hw.entryView hj
  rw [v.link hj.1, v.sectionOf, relSymtab, secAt_toNat]

theorem Loadable.entryOffset :
    shOffset (imageAt m e malloc h k) (secAt m e (relSymtab m e k)) = secOffset m e (relSymtab m e k) := by
  have hs := hw.sections k hj.1 hj.2.1
  exact (hw.entryView hj).offset hs.symtab_lt (by rw [hs.symtab]; exact shtSymtab_ne)

theorem Loadable.entrySymbolOf :
    symbolOf (imageAt m e malloc h k) e (shLink (imageAt m e malloc h k) (secAt m e k)) (relSym m e k j)
      = symAt m e k j := by
  rw [symbolOf, hw.entryTable hj, hw.entryOffset hj, symAt]

/-- The header of the table of names. -/
theorem Loadable.entryStrtab :
    (shLink (imageAt m e malloc h k)
      (sectionOf (imageAt m e malloc h k) e (shLink (imageAt m e malloc h k) (secAt m e k)))).toNat
        = relStrtab m e k := by
  rw [hw.entryTable hj, (hw.entryView hj).link (hw.sections k hj.1 hj.2.1).symtab_lt, relStrtab]

theorem Loadable.entryName (hsym : relSym m e k j ≠ shnUndef) :
    symbolName (imageAt m e malloc h k) e (shLink (imageAt m e malloc h k) (secAt m e k)) (relSym m e k j)
      = symName m e k j := by
  have v := hw.entryView hj
  have hs := hw.sections k hj.1 hj.2.1
  have hstr : shOffset (imageAt m e malloc h k) (secAt m e (relStrtab m e k))
      = secOffset m e (relStrtab m e k) :=
    v.offset hs.strtab_lt (by rw [hs.strtab]; exact shtStrtab_ne)
  rw [symbolName, hw.entrySymbolOf hj, (v.sym hw hj hsym).1, hw.entryTable hj, v.link hs.symtab_lt,
    v.sectionOf, ← secAt_toNat, ← relStrtab, hstr, symName]

/-- **A relocation** is sound. -/
theorem Loadable.relocSound :
    RelocSound (imageAt m e malloc h k) e (relAt m e k j) (secAt m e k) := by
  have v := hw.entryView hj
  have hs := hw.sections k hj.1 hj.2.1
  have hent := hw.entries k j hj
  refine ⟨?_, fun hsym _ => ?_⟩
  · rw [v.info hj.1, v.shnum]
    exact hs.target_lt
  rw [hw.entrySym hj] at hsym ⊢
  have hres := hent.symbol hsym
  refine ⟨?_, ?_, fun _ h0 => ?_, fun _ h0 habs => ?_⟩
  · rw [v.link hj.1, v.shnum]
    exact hs.symtab_lt
  · rw [hw.entryTable hj, v.entsize hs.symtab_lt]
    exact hs.symtab_entsize_ne
  · rw [hw.entryStrtab hj, v.shnum]
    exact hs.strtab_lt
  · rw [hw.entrySymbolOf hj, (v.sym hw hj hsym).2.2] at h0 habs ⊢
    rw [v.shnum]
    exact hres.section_lt ⟨h0, habs⟩

/-- What it is read from is in a table. -/
theorem Loadable.reads_table
    (hx : RelocReads (imageAt m e malloc h k) e (relAt m e k j) (secAt m e k) x) :
    ∃ t, t < secCount m e ∧ IsTable m e t ∧ InRange (e + secOffset m e t) (secSize m e t) x := by
  have v := hw.entryView hj
  have hs := hw.sections k hj.1 hj.2.1
  have hsize (t : Nat) : secSize m e t ≤ 2 ^ 32 := Nat.le_of_lt (shSize m (secAt m e t)).isLt
  cases hx with
  | rel hx =>
      refine ⟨k, hj.1, Or.inl hj.2.1, ?_⟩
      rw [relAt_eq] at hx
      have hfits : 8 * entryCount m e k ≤ secSize m e k := hs.fits
      have hlt := hj.2.2
      exact hx.sub (by simp only [relSize]; omega) (hsize k)
  | sym hsym hthere hx =>
      rw [hw.entrySym hj] at hsym hthere hx
      rw [hw.entrySymbolOf hj, symAt_eq] at hx
      refine ⟨_, hs.symtab_lt, Or.inr (Or.inl hs.symtab), hx.sub ?_ (hsize _)⟩
      have hfits : 16 * entryCount m e (relSymtab m e k) ≤ secSize m e (relSymtab m e k) :=
        hs.symtab_fits
      have hlt := ((hw.entries k j hj).symbol hsym).sym_lt
      simp only [symSize]
      omega
  | name hsym hthere h0 hstr hx =>
      rw [hw.entrySym hj] at hsym hthere h0 hx
      rw [hw.entryName hj hsym] at hx
      rw [hw.entrySymbolOf hj, (v.sym hw hj hsym).2.2] at h0
      obtain ⟨l, hl, hend⟩ := ((hw.entries k j hj).symbol hsym).name h0
      obtain ⟨d, rfl, hall⟩ := hx
      have hat (d : Nat) : symName m e k j + BitVec.ofNat 32 d = e + secOffset m e (relStrtab m e k)
          + BitVec.ofNat 32 ((stName m (symAt m e k j)).toNat + d) := by
        rw [symName, BitVec.ofNat_add, BitVec.ofNat_toNat, BitVec.setWidth_eq, ← BitVec.add_assoc]
      have hin (d : Nat) (hd : d ≤ l) : InRange (e + secOffset m e (relStrtab m e k))
          (secSize m e (relStrtab m e k)) (symName m e k j + BitVec.ofNat 32 d) := by
        rw [hat d]
        exact inRange_add (by omega) (hsize _)
      -- the string ends in the table
      refine ⟨_, hs.strtab_lt, Or.inr (Or.inr hs.strtab), hin d ?_⟩
      by_contra hlt
      refine hall l (by omega) ?_
      rw [v.tables _ hs.strtab_lt (Or.inr (Or.inr hs.strtab)) _ (hin l (Nat.le_refl l)), hend]

/-- What it writes is its word. -/
theorem Loadable.word_eq
    (hx : RelocWord (imageAt m e malloc h k) e (relAt m e k j) (secAt m e k) x) :
    IsWrite m e k j ∧ InRange (relWord m e k j) 4 x := by
  have v := hw.entryView hj
  have hs := hw.sections k hj.1 hj.2.1
  obtain ⟨hoffset, hinfo⟩ := v.rel hw hj
  obtain ⟨htype, hin⟩ := hx
  rw [hinfo] at htype
  rw [v.info hj.1, v.sectionOf, ← secAt_toNat, ← relTarget, v.offset hs.target_lt hs.target.1.2,
    hoffset] at hin
  exact ⟨⟨hj, htype⟩, hin⟩

end

/-- What the pass reads is the header, the section headers, and tables. -/
theorem Loadable.readFrom_part (hw : Loadable m e malloc lookupSymbol h)
    (hx : ReadFrom m e malloc lookupSymbol h i n x) :
    ∃ p : Part, p.Is m e ∧ InRange (p.start m e malloc h) (p.len m e) x ∧ (∀ k, p ≠ .block k) ∧
      ∀ k, p = .contents k → IsTable m e k := by
  cases hx with
  | header hx => exact ⟨.header, trivial, hx, nofun, nofun⟩
  | table hx => exact ⟨.table, trivial, hx, nofun, nofun⟩
  | reloc k j _ hj _ hx =>
      obtain ⟨t, ht, htab, hin⟩ := hw.reads_table hj hx
      refine ⟨.contents t, ⟨ht, htab.hasContents⟩, hin, nofun, fun k heq => ?_⟩
      cases heq
      exact htab

/-- **An image that can be loaded** is not rewritten. -/
theorem Loadable.intact (hw : Loadable m e malloc lookupSymbol h) :
    Intact m e malloc lookupSymbol h where
  word k j hj _ _ x hx hword := by
    obtain ⟨p, hp, hin, -, htab⟩ := hw.readFrom_part hx
    obtain ⟨hwrite, hword⟩ := hw.word_eq hj hword
    exact hw.word_apart hwrite hp (fun heq => (hw.sections k hj.1 hj.2.1).target.2 (htab _ heq)) hin hword
  block k hk ha _ x hx hblock := by
    obtain ⟨p, hp, hin, hne, -⟩ := hw.readFrom_part hx
    exact hw.not_inBlock hk ha hp (hne k) hin hblock
  offset k hk _ _ x hx := hw.not_inOffset hk (p := .header) trivial (by simp) hx

end Tomk
