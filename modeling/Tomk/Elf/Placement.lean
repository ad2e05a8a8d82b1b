/-
# When the words are right

The pass writes every word with the symbol where its section is at that moment.  So
the words are right if and only if each symbol's section is then in its final place:
a section without contents that memory is allocated for has to come before the
relocation sections that refer to it (`elfLoadFile_relocates_iff`).
-/
import Tomk.Elf.LoadRel

namespace Tomk

open ByteMem

variable {m m' : Mem} {e : U32} {k j : Nat} {H : Type} {malloc : H → U32 → U32 × H}
  {lookupSymbol : List U8 → U32} {h : H}

theorem relocValue_inj {s t a : U32} :
    relocValue m e k j s a = relocValue m e k j t a ↔ s = t := by
  rw [relocValue, relocValue]
  split
  · rw [do386_32, do386_32, BitVec.add_left_inj]
  · rw [do386Pc32, do386Pc32, BitVec.sub_left_inj, BitVec.add_left_inj]

/-- A symbol has its final value when the pass is at its relocation. -/
theorem symVal_eq_iff (hsec : Internal m e k j → symSection m e k j < secCount m e) :
    symVal m e lookupSymbol (offsetAt m e malloc h k) k j
        = symVal m e lookupSymbol (finalOffset m e malloc h) k j ↔
      (Internal m e k j → Allocates m e (symSection m e k j) → symSection m e k j < k ∨
        finalOffset m e malloc h (symSection m e k j) = secOffset m e (symSection m e k j)) := by
  simp only [symVal]
  by_cases h0 : stShndx m (symAt m e k j) = 0
  · rw [if_pos h0, if_pos h0]
    exact ⟨fun _ hint => absurd h0 hint.1, fun _ => rfl⟩
  by_cases habs : stShndx m (symAt m e k j) = shnAbs
  · rw [if_neg h0, if_neg h0, if_pos habs, if_pos habs]
    exact ⟨fun _ hint => absurd habs hint.2, fun _ => rfl⟩
  rw [if_neg h0, if_neg h0, if_neg habs, if_neg habs, BitVec.add_right_inj]
  have hint : Internal m e k j := ⟨h0, habs⟩
  have hlt := hsec hint
  generalize symSection m e k j = s at hlt
  by_cases ha : Allocates m e s
  · by_cases hk : s < k
    · rw [finalOffset, offsetAt_of_lt ha hk, offsetAt_of_lt ha hlt]
      exact ⟨fun _ _ _ => Or.inl hk, fun _ => rfl⟩
    · rw [offsetAt_of_le (by omega)]
      constructor
      · exact fun heq _ _ => Or.inr heq.symm
      · intro hp
        exact ((hp hint ha).resolve_left hk).symm
  · rw [finalOffset, offsetAt_of_not ha, offsetAt_of_not ha]
    exact ⟨fun _ _ ha' => absurd ha' ha, fun _ => rfl⟩

/-- **Relocation.**  A well-formed image is loaded, and its words are right if and
only if the sections of the symbols are where they will be. -/
theorem elfLoadFile_relocates_iff (hw : WellFormed m e malloc lookupSymbol h) :
    ∃ m' h', elfLoadFile malloc lookupSymbol m h e = some (eEntry m e, m', h') ∧
      (Relocated m e malloc lookupSymbol h m' ↔ Placed m e malloc h) := by
  obtain ⟨m', hrun, hl⟩ := hw.elfLoadFile
  refine ⟨m', _, hrun, fun hr k j hj => ?_, fun hp => ⟨fun k j hj => ?_, hl.rest,
    fun k hk ha => hl.zero k hk ha hk⟩⟩
  · rw [← symVal_eq_iff (hw.entries k j hj).section_lt, ← relocValue_inj, ← hr.words k j hj]
    exact (hl.done k j hj (Or.inl hj.1)).symm
  · rw [hl.done k j hj (Or.inl hj.1),
      (symVal_eq_iff (hw.entries k j hj).section_lt).mpr (hp k j hj)]

/-! ## A file with a word that refers to `.bss` -/

/-- The words of a section header: its type, flags, offset, size, link, info and size of
an entry. -/
def shdrWords (type flags offset size link info entsize : Nat) : List Nat :=
  [0, type, flags, 0, offset, size, link, info, 0, entsize]

/-- Six sections: after those of the code and of the names there is the section of
the relocation, and then `.bss`, or the other way round. -/
def objectFile (relFirst : Bool) : List Nat :=
  [0x464C457F, 0x00010101, 0, 0, 0x00030001, 1, 0x1000, 0, 52, 0, 52, 0x00280000, 6] ++
    (shdrWords 0 0 0 0 0 0 0 ++ (shdrWords 1 2 292 4 0 0 0 ++ (shdrWords 2 0 304 32 3 0 16 ++
    (shdrWords 3 0 336 1 0 0 0 ++
    ((if relFirst then shdrWords 9 0 296 8 2 1 8 else shdrWords 8 2 337 4 0 0 0) ++
    ((if relFirst then shdrWords 8 2 337 4 0 0 0 else shdrWords 9 0 296 8 2 1 8) ++
    [0, 0, 0x101, 0, 0, 0, 0, 0, 0, 0, if relFirst then 0x50000 else 0x40000, 0]))))))

/-- It lies at `0x10000`. -/
def objectMem (relFirst : Bool) : Mem := fun x =>
  let i := (x - 0x10000).toNat
  BitVec.ofNat 8 (((objectFile relFirst)[i / 4]?).getD 0 >>> (8 * (i % 4)))

/-- All memory that is asked for is at `0x20000`. -/
def fixedMalloc (_ : Unit) (_ : U32) : U32 × Unit := (0x20000, ())

def noSymbols (_ : List U8) : U32 := 0

/-- The parts of the file. -/
def objectParts (relFirst : Bool) : List Part :=
  [.header, .table, .contents 1, .contents 2, .contents 3, .contents (if relFirst then 4 else 5),
    .block (if relFirst then 5 else 4)]

theorem objectMem_apart (b : Bool) : PartsApart (objectMem b) 0x10000 fixedMalloc () := by
  have hcount : secCount (objectMem b) 0x10000 = 6 := by cases b <;> decide +kernel
  have hcontents : ∀ k, k < 6 → HasContents (objectMem b) 0x10000 k →
      Part.contents k ∈ objectParts b := by cases b <;> decide +kernel
  have hblock : ∀ k, k < 6 → Allocates (objectMem b) 0x10000 k →
      Part.block k ∈ objectParts b := by cases b <;> decide +kernel
  have hmem {p : Part} (hp : p.Is (objectMem b) 0x10000) : p ∈ objectParts b := by
    cases p with
    | header => simp [objectParts]
    | table => simp [objectParts]
    | contents k => exact hcontents k (hcount ▸ hp.1) hp.2
    | block k => exact hblock k (hcount ▸ hp.1) hp.2
  have hall : ∀ p ∈ objectParts b, ∀ q ∈ objectParts b, p ≠ q →
      ByteMem.Apart (p.start (objectMem b) 0x10000 fixedMalloc ()) (p.len (objectMem b) 0x10000)
        (q.start (objectMem b) 0x10000 fixedMalloc ()) (q.len (objectMem b) 0x10000) := by
    cases b <;> decide +kernel
  exact fun p q hp hq => hall p (hmem hp) q (hmem hq)

theorem objectMem_rel {b : Bool} (hk : k < secCount (objectMem b) 0x10000)
    (ht : secType (objectMem b) 0x10000 k = shtRel) : k = if b then 4 else 5 := by
  have hcount : secCount (objectMem b) 0x10000 = 6 := by cases b <;> decide +kernel
  have hrel : ∀ k, k < 6 → secType (objectMem b) 0x10000 k = shtRel →
      k = if b then 4 else 5 := by cases b <;> decide +kernel
  exact hrel k (hcount ▸ hk) ht

theorem objectMem_entry {b : Bool} (hj : IsEntry (objectMem b) 0x10000 k j) :
    k = (if b then 4 else 5) ∧ j = 0 := by
  have hone : entryCount (objectMem b) 0x10000 (if b then 4 else 5) = 1 := by
    cases b <;> decide +kernel
  obtain ⟨h1, h2, h3⟩ := hj
  obtain rfl := objectMem_rel h1 h2
  exact ⟨rfl, by omega⟩

theorem objectMem_wellFormed (b : Bool) :
    WellFormed (objectMem b) 0x10000 fixedMalloc noSymbols () := by
  refine ⟨by decide, by cases b <;> decide +kernel, by cases b <;> decide +kernel,
    fun k hk ht => ?_, fun k j hj => ?_, fun k j k' j' hj hj' hne => ?_, fun k j hj => ?_,
    objectMem_apart b, fun _ _ _ => show (0x20000 : U32) ≠ 0 by decide⟩
  · obtain rfl := objectMem_rel hk ht
    cases b
    · constructor <;> decide +kernel
    · constructor <;> decide +kernel
  · obtain ⟨rfl, rfl⟩ := objectMem_entry hj
    cases b
    · refine ⟨?_, ?_, ?_, ?_, ?_, fun h0 => absurd h0 ?_⟩ <;> decide +kernel
    · refine ⟨?_, ?_, ?_, ?_, ?_, fun h0 => absurd h0 ?_⟩ <;> decide +kernel
  · obtain ⟨rfl, rfl⟩ := objectMem_entry hj
    obtain ⟨rfl, rfl⟩ := objectMem_entry hj'
    exact absurd rfl hne
  · obtain ⟨rfl, rfl⟩ := objectMem_entry hj
    cases b <;> decide +kernel

/-- With `.bss` before the relocations, the word is right. -/
theorem elfLoadFile_relocates_object : ∃ m' h',
    elfLoadFile fixedMalloc noSymbols (objectMem false) () 0x10000
      = some (eEntry (objectMem false) 0x10000, m', h') ∧
    Relocated (objectMem false) 0x10000 fixedMalloc noSymbols () m' := by
  obtain ⟨m', h', hrun, hiff⟩ := elfLoadFile_relocates_iff (objectMem_wellFormed false)
  refine ⟨m', h', hrun, hiff.mpr fun k j hj _ _ => ?_⟩
  obtain ⟨rfl, rfl⟩ := objectMem_entry hj
  exact Or.inl (by decide +kernel)

/-- With the relocations first, it has the place that `.bss` had in the file. -/
theorem elfLoadFile_stale : ¬ ∀ (H : Type) (malloc : H → U32 → U32 × H)
    (lookupSymbol : List U8 → U32) (h : H) (m : Mem) (e : U32),
    WellFormed m e malloc lookupSymbol h →
      ∃ m' h', elfLoadFile malloc lookupSymbol m h e = some (eEntry m e, m', h') ∧
        Relocated m e malloc lookupSymbol h m' := by
  intro hall
  obtain ⟨m', h', hrun, hr⟩ := hall Unit fixedMalloc noSymbols () (objectMem true) 0x10000
    (objectMem_wellFormed true)
  have hj : IsEntry (objectMem true) 0x10000 4 0 := by decide +kernel
  have hword := hr.words 4 0 hj
  have heval : (elfLoadFile fixedMalloc noSymbols (objectMem true) () 0x10000).map
      (fun r => load32 r.2.1 (relWord (objectMem true) 0x10000 4 0)) = some 0x10151 := by
    decide +kernel
  rw [hrun, Option.map_some, hword] at heval
  exact absurd heval (by decide +kernel)

end Tomk
