/-
# Values of 0

For the loader 0 is a failure, wherever it comes from: `get_symval` returns it for the null symbol, for
an absolute symbol of that value and for a weak one that nothing defines, `do_reloc`
returns the value of the symbol, also where there is none to relocate, and `load_rel` returns the entry
of the file.  So an image whose relocations can all be done is loaded if and only if none of these
values is 0 (`NoNull`).  An object file as a compiler writes it has no entry.

A relocation fails if its type is not supported or its symbol cannot be resolved (`RelocDoable`), and not
because the loader says so.  In a file that the loader does not rewrite, `NULL` means a failure if and only
if no relocation that the pass comes to and that can be done has a symbol of the value 0, and the entry is
not 0 when the pass comes to the end (`NoZero`, `elfLoadFile_nonNull_iff`).
-/
import Tomk.Elf.LoadableImage
import Tomk.Elf.Placement

namespace Tomk

open ByteMem

variable {m m' : Mem} {e : U32} {H : Type} {malloc : H → U32 → U32 × H}
  {lookupSymbol : List U8 → U32} {h : H}

/-- The values of the symbols, as they are when the pass is at their relocations, and the entry are not
0; and each section of a symbol is then in its final place. -/
structure NoNull (m : Mem) (e : U32) (malloc : H → U32 → U32 × H) (lookupSymbol : List U8 → U32)
    (h : H) : Prop where
  values : ∀ k j, IsEntry m e k j →
    symbolValue m e lookupSymbol (offsetAt m e malloc h k) k j ≠ 0
  entry : eEntry m e ≠ 0
  placed : ∀ k j, IsWrite m e k j → Internal m e k j → Allocates m e (symSection m e k j) →
    symSection m e k j < k ∨ finalOffset m e malloc h (symSection m e k j)
      = secOffset m e (symSection m e k j)

/-- The call returns something else than `NULL`, with all relocations applied. -/
def Loads (m : Mem) (e : U32) (malloc : H → U32 → U32 × H) (lookupSymbol : List U8 → U32) (h : H) :
    Prop :=
  ∃ r m' h', elfLoadFile malloc lookupSymbol m h e = some (r, m', h') ∧ r ≠ 0 ∧
    Applied m e malloc lookupSymbol h m'

/-- The pass is at a relocation that cannot be done, as it is in memory then. -/
def Pass.Fails (lookupSymbol : List U8 → U32) (e shdr : U32) (s : Pass H) : Prop :=
  ∃ idx, s.pc = .rel idx ∧ idx < shSize s.mem (s.sectAt shdr) / shEntsize s.mem (s.sectAt shdr) ∧
    ¬ RelocDoable lookupSymbol s.mem e (relocAt s.mem e (s.sectAt shdr) idx) (s.sectAt shdr)

/-- `NULL` is for files that are not supported, and for relocations that fail. -/
def NullFails (m : Mem) (e : U32) (malloc : H → U32 → U32 × H) (lookupSymbol : List U8 → U32)
    (h : H) : Prop :=
  ∀ m' h', elfLoadFile malloc lookupSymbol m h e = some (0, m', h') → ¬ IsLoaded m e ∨
    ∃ s, Comes malloc lookupSymbol m h e s ∧ s.Fails lookupSymbol e (sheader m e)

/-- The same of the file, before the call: a relocation that can be done has a symbol with a value, and the
entry is not 0. -/
structure NoZero (m : Mem) (e : U32) (malloc : H → U32 → U32 × H) (lookupSymbol : List U8 → U32)
    (h : H) : Prop where
  values : ∀ k j, IsEntry m e k j → Reaches m e malloc lookupSymbol h k j →
    RelocDoable lookupSymbol (imageAt m e malloc h k) e (relAt m e k j) (secAt m e k) →
      relocVal lookupSymbol (imageAt m e malloc h k) e (relAt m e k j) (secAt m e k) ≠ 0
  entry : Reaches m e malloc lookupSymbol h (secCount m e) 0 → eEntry m e ≠ 0

/-! ## Images that can be loaded -/

theorem Loadable.symbolValue_eq_iff (hw : Loadable m e malloc lookupSymbol h) {k j : Nat}
    (hj : IsEntry m e k j)
    (hne : symbolValue m e lookupSymbol (offsetAt m e malloc h k) k j ≠ 0) :
    symbolValue m e lookupSymbol (offsetAt m e malloc h k) k j
        = symbolValue m e lookupSymbol (finalOffset m e malloc h) k j ↔
      (Internal m e k j → Allocates m e (symSection m e k j) → symSection m e k j < k ∨
        finalOffset m e malloc h (symSection m e k j) = secOffset m e (symSection m e k j)) := by
  have hsym : relSym m e k j ≠ shnUndef := fun h0 => hne (if_pos h0)
  rw [symbolValue, symbolValue, if_neg hsym, if_neg hsym]
  exact symVal_eq_iff ((hw.entries k j hj).symbol hsym).section_lt

/-- **An image that can be loaded** is, if no value is 0. -/
theorem Loadable.loads_iff (hw : Loadable m e malloc lookupSymbol h) :
    Loads m e malloc lookupSymbol h ↔ NoNull m e malloc lookupSymbol h := by
  rcases hw.elfLoadFile with ⟨m1, hrun, hl, hvalues⟩ | ⟨m1, h1, k, j, hrun, hj, hzero⟩
  · constructor
    · rintro ⟨r, m', h', hrun', hr, happlied⟩
      obtain ⟨rfl, rfl, rfl⟩ : eEntry m e = r ∧ m1 = m' ∧
          heapAt m e malloc h (secCount m e) = h' := by
        simpa only [hrun, Option.some.injEq, Prod.mk.injEq] using hrun'
      refine ⟨fun k j hj => hvalues k j (Nat.zero_le k) hj, hr, fun k j hj => ?_⟩
      rw [← hw.symbolValue_eq_iff hj.1 (hvalues k j (Nat.zero_le k) hj.1), ← relocValue_inj,
        ← happlied.words k j hj]
      exact (hl.done k j hj (Or.inl hj.1.1)).symm
    · rintro ⟨hvalues, hentry, hplaced⟩
      refine ⟨_, m1, _, hrun, hentry, fun k j hj => ?_, hl.rest,
        fun k hk ha => hl.zero k hk ha hk⟩
      rw [hl.done k j hj (Or.inl hj.1.1),
        (hw.symbolValue_eq_iff hj.1 (hvalues k j hj.1)).mpr (hplaced k j hj)]
  · refine iff_of_false ?_ fun hno => hno.values k j hj hzero
    rintro ⟨r, m', h', hrun', hr, -⟩
    rw [hrun] at hrun'
    cases hrun'
    exact hr rfl

/-! ## All files -/

theorem loaded_mem_iff {r : U32} :
    .loaded r ∈ elfLoadFileEvents malloc lookupSymbol m h e ↔
      ∃ s, Comes malloc lookupSymbol m h e s ∧ s.AtEnd e ∧ eEntry s.mem e = r := by
  rw [mem_elfLoadFileEvents_iff]
  refine exists_congr fun s => and_congr_right fun _ => ⟨fun hev => ?_, ?_⟩
  · cases Pass.does_of_mem hev with
    | loaded hend => exact ⟨hend, rfl⟩
  · rintro ⟨hend, rfl⟩
    rw [hend.events]
    exact List.mem_singleton_self _

theorem relocFailed_mem_iff :
    .relocFailed ∈ elfLoadFileEvents malloc lookupSymbol m h e ↔
      ∃ s, Comes malloc lookupSymbol m h e s ∧ s.Failing lookupSymbol e (sheader m e) := by
  rw [mem_elfLoadFileEvents_iff]
  refine exists_congr fun s => and_congr_right fun _ => ⟨fun hev => ?_, Pass.Failing.events⟩
  cases Pass.does_of_mem hev with
  | relocFailed hf => exact hf

/-- **`NULL`** is returned in a turn that fails, or at the end with the entry 0. -/
theorem elfLoadFile_null_iff (hload : IsLoaded m e) :
    (∃ m' h', elfLoadFile malloc lookupSymbol m h e = some (0, m', h')) ↔
      ∃ s, Comes malloc lookupSymbol m h e s ∧
        (s.Failing lookupSymbol e (sheader m e) ∨ s.AtEnd e ∧ eEntry s.mem e = 0) := by
  rw [elfLoadFile_returns_iff, and_iff_right rfl, or_iff_right (not_not.mpr hload), relocFailed_mem_iff,
    loaded_mem_iff, ← exists_or]
  exact exists_congr fun s => and_or_left.symm

section

variable {i n : Nat} (hu : Intact m e malloc lookupSymbol h)
  (hr : Reaches m e malloc lookupSymbol h i n) (ht : Tracks m e malloc lookupSymbol h i n m')

include hu hr ht

/-- A relocation fails in memory if it does in the file. -/
theorem Intact.fails_iff (hj : IsEntry m e i n) :
    (relTurn m e malloc h i n m').Fails lookupSymbol e (Tomk.sheader m e) ↔
      ¬ RelocDoable lookupSymbol (imageAt m e malloc h i) e (relAt m e i n) (secAt m e i) := by
  have hle := Nat.le_of_lt hj.1
  have a := hu.agrees hr hle ht hj
  simp only [Pass.Fails, relTurn, Pass.sectAt, secAt_of_lt hj.1, PassAt.rel.injEq, exists_eq_left',
    ht.more hj, true_and, ht.relocAt hle hj.1 hj.2.1]
  exact not_congr ⟨a.symm.doable, a.doable⟩

/-- And the loader stops at a sound one if it cannot be done or has a symbol of the value 0. -/
theorem Intact.failing_iff (hj : IsEntry m e i n)
    (hs : RelocSound (imageAt m e malloc h i) e (relAt m e i n) (secAt m e i)) :
    (relTurn m e malloc h i n m').Failing lookupSymbol e (Tomk.sheader m e) ↔
      ¬ GoesOn m e malloc lookupSymbol h i n := by
  obtain ⟨r, m'', hdo, hiff, -⟩ := hu.doReloc hr ht hj hs
  simp only [Pass.Failing, relTurn, Pass.sectAt, secAt_of_lt hj.1, PassAt.rel.injEq, exists_eq_left',
    ht.more hj, true_and, ht.relocAt (Nat.le_of_lt hj.1) hj.1 hj.2.1, hdo, Option.some.injEq,
    Prod.mk.injEq, ← hiff, not_not, ne_eq, and_iff_right (ht.entsize_ne hj), exists_and_left,
    exists_eq', and_true]

end

/-- The first relocation that does not go on is the only one of those that the pass comes to. -/
theorem Reaches.first {k j k' j' : Nat} (hr : Reaches m e malloc lookupSymbol h k j)
    (hj' : IsEntry m e k' j') (hr' : Reaches m e malloc lookupSymbol h k' j')
    (hj : IsEntry m e k j) (hg : ¬ GoesOn m e malloc lookupSymbol h k j)
    (hg' : ¬ GoesOn m e malloc lookupSymbol h k' j') : k = k' ∧ j = j' := by
  rcases Nat.lt_trichotomy k k' with hlt | rfl | hlt
  · exact absurd (hr'.before k hlt hj.2.1 j hj.2.2) hg
  · rcases Nat.lt_trichotomy j j' with hlt | rfl | hlt
    · exact absurd (hr'.here j hlt) hg
    · exact ⟨rfl, rfl⟩
    · exact absurd (hr.here j' hlt) hg'
  · exact absurd (hr.before k' hlt hj'.2.1 j' hj'.2.2) hg'

/-- If one fails, it is the last that the pass comes to. -/
theorem Intact.nullFails_of_fails {k j : Nat} (hu : Intact m e malloc lookupSymbol h)
    (hload : IsLoaded m e) (hj : IsEntry m e k j) (hr : Reaches m e malloc lookupSymbol h k j)
    (hno : ¬ RelocDoable lookupSymbol (imageAt m e malloc h k) e (relAt m e k j) (secAt m e k)) :
    NullFails m e malloc lookupSymbol h ∧ NoZero m e malloc lookupSymbol h := by
  have hstop : ¬ GoesOn m e malloc lookupSymbol h k j := fun hg => hno hg.1
  refine ⟨fun _ _ _ => Or.inr ?_, fun k' j' hj' hr' hdo h0 => ?_, fun hend => ?_⟩
  · obtain ⟨m', hc, ht⟩ := hu.comes_rel hload hj.1 hj.2.1 (Nat.le_of_lt hj.2.2) hr
    exact ⟨_, hc, (hu.fails_iff hr ht hj).mpr hno⟩
  · obtain ⟨rfl, rfl⟩ := hr'.first hj hr hj' (fun hg => hg.2 h0) hstop
    exact hno hdo
  · exact absurd (hend.before k hj.1 hj.2.1 j hj.2.2) hstop

section

variable (hu : Intact m e malloc lookupSymbol h)
  (hdo : ∀ k j, IsEntry m e k j → Reaches m e malloc lookupSymbol h k j →
    RelocDoable lookupSymbol (imageAt m e malloc h k) e (relAt m e k j) (secAt m e k))

include hu hdo

/-- If none fails in the file, the pass comes to none that does. -/
theorem Intact.not_fails {s : Pass H} (hc : Comes malloc lookupSymbol m h e s) :
    ¬ s.Fails lookupSymbol e (Tomk.sheader m e) := by
  rintro ⟨idx, hpc, hlt, hno⟩
  cases hu.comes_cases (fun k j hj hr => (hdo k j hj hr).sound) hc with
  | sect i m' hi hr ht => cases hpc
  | rel i n m' hi hrel hn hr ht =>
      cases hpc
      have hmore := hlt
      simp only [relTurn, Pass.sectAt, secAt_of_lt hi, ht.more_iff (Nat.le_of_lt hi) hi hn] at hmore
      have hj : IsEntry m e i n := ⟨hi, hrel, hmore⟩
      exact (hu.fails_iff hr ht hj).mp ⟨_, rfl, hlt, hno⟩ (hdo i n hj hr)

/-- Then `NULL` comes from a value of 0. -/
theorem Intact.null_iff (hload : IsLoaded m e) :
    (∃ m' h', elfLoadFile malloc lookupSymbol m h e = some (0, m', h')) ↔
      ¬ NoZero m e malloc lookupSymbol h := by
  have hsound := fun k j hj hr => (hdo k j hj hr).sound
  rw [elfLoadFile_null_iff hload, iff_not_comm]
  constructor
  · rintro hzero ⟨s, hc, hs⟩
    cases hu.comes_cases hsound hc with
    | sect i m' hi hr ht =>
        rcases hs with ⟨idx, hpc, -⟩ | ⟨hend, h0⟩
        · cases hpc
        · obtain rfl := (hu.atEnd_iff hr ht hi).mp hend
          exact hzero.entry hr ((hu.tracksEntry hr hi ht).symm.trans h0)
    | rel i n m' hi hrel hn hr ht =>
        rcases hs with hs | ⟨⟨hpc, -⟩, -⟩
        · obtain ⟨idx, hpc, -, hlt, -⟩ := id hs
          cases hpc
          simp only [relTurn, Pass.sectAt, secAt_of_lt hi, ht.more_iff (Nat.le_of_lt hi) hi hn] at hlt
          have hj : IsEntry m e i n := ⟨hi, hrel, hlt⟩
          have hd := hdo i n hj hr
          exact (hu.failing_iff hr ht hj hd.sound).mp hs ⟨hd, hzero.values i n hj hr hd⟩
        · cases hpc
  · intro hno
    refine ⟨fun k j hj hr _ h0 => hno ?_, fun hend h0 => hno ?_⟩
    · obtain ⟨m', hc, ht⟩ := hu.comes_rel hload hj.1 hj.2.1 (Nat.le_of_lt hj.2.2) hr
      exact ⟨_, hc, Or.inl ((hu.failing_iff hr ht hj (hsound k j hj hr)).mpr fun hg => hg.2 h0)⟩
    · obtain ⟨m', hc, ht⟩ := hu.comes_sect hload (Nat.le_refl _) hend
      refine ⟨_, hc, Or.inr ⟨(hu.atEnd_iff hend ht (Nat.le_refl _)).mpr rfl, ?_⟩⟩
      exact (hu.tracksEntry hend (Nat.le_refl _) ht).trans h0

end

/-- **`NULL` means a failure**, in a file that is not rewritten, if and only if no value is 0. -/
theorem Intact.nullFails_iff (hu : Intact m e malloc lookupSymbol h) :
    NullFails m e malloc lookupSymbol h ↔ (IsLoaded m e → NoZero m e malloc lookupSymbol h) := by
  by_cases hload : IsLoaded m e
  swap
  · exact iff_of_true (fun _ _ _ => Or.inl hload) fun hl => absurd hl hload
  rw [imp_iff_right hload]
  by_cases hfail : ∃ k j, IsEntry m e k j ∧ Reaches m e malloc lookupSymbol h k j ∧
      ¬ RelocDoable lookupSymbol (imageAt m e malloc h k) e (relAt m e k j) (secAt m e k)
  · obtain ⟨k, j, hj, hr, hno⟩ := hfail
    obtain ⟨hnull, hzero⟩ := hu.nullFails_of_fails hload hj hr hno
    exact iff_of_true hnull hzero
  · have hdo : ∀ k j, IsEntry m e k j → Reaches m e malloc lookupSymbol h k j →
        RelocDoable lookupSymbol (imageAt m e malloc h k) e (relAt m e k j) (secAt m e k) := by
      intro k j hj hr
      by_contra hno
      exact hfail ⟨k, j, hj, hr, hno⟩
    rw [← not_iff_not, ← hu.null_iff hdo hload]
    constructor
    · intro hno
      by_contra hnever
      exact hno fun m' h' hrun => absurd ⟨m', h', hrun⟩ hnever
    · rintro ⟨m', h', hrun⟩ hnull
      rcases hnull m' h' hrun with hl | ⟨s, hc, hs⟩
      · exact hl hload
      · exact hu.not_fails hdo hc hs

/-- **`NULL`.**  An image that can be loaded is not rewritten; and of a file that is not, it holds that the
call loads it, if it can be loaded, and returns `NULL` for a failure only, if and only if no value is 0: not
of a symbol, and not of the entry. -/
theorem elfLoadFile_nonNull_iff (malloc : H → U32 → U32 × H) (lookupSymbol : List U8 → U32) (m : Mem)
    (h : H) (e : U32) :
    (Loadable m e malloc lookupSymbol h → Intact m e malloc lookupSymbol h) ∧
      (Intact m e malloc lookupSymbol h →
        (((Loadable m e malloc lookupSymbol h → Loads m e malloc lookupSymbol h) ∧
            NullFails m e malloc lookupSymbol h) ↔
          (Loadable m e malloc lookupSymbol h → NoNull m e malloc lookupSymbol h) ∧
            (IsLoaded m e → NoZero m e malloc lookupSymbol h))) :=
  ⟨fun hw => hw.intact,
    fun hu => and_congr (forall_congr' fun hw => hw.loads_iff) hu.nullFails_iff⟩

/-- With `.bss` first, the file with one relocation is loaded. -/
theorem elfLoadFile_nonNull_object :
    Loads (objectMem false) 0x10000 fixedMalloc noSymbols () ∧
      NullFails (objectMem false) 0x10000 fixedMalloc noSymbols () := by
  have hw := (objectMem_wellFormed false).loadable
  have hnonull : NoNull (objectMem false) 0x10000 fixedMalloc noSymbols () := by
    refine ⟨fun k j hj => ?_, by decide +kernel, fun k j hj _ _ => ?_⟩
    · obtain ⟨rfl, rfl⟩ := objectMem_entry hj
      decide +kernel
    · obtain ⟨rfl, rfl⟩ := objectMem_entry hj.1
      exact Or.inl (by decide +kernel)
  have hnozero : NoZero (objectMem false) 0x10000 fixedMalloc noSymbols () := by
    refine ⟨fun k j hj _ _ => ?_, fun _ => by decide +kernel⟩
    obtain ⟨rfl, rfl⟩ := objectMem_entry hj
    decide +kernel
  obtain ⟨hintact, hiff⟩ :=
    elfLoadFile_nonNull_iff fixedMalloc noSymbols (objectMem false) () 0x10000
  exact ((hiff (hintact hw)).mpr ⟨fun _ => hnonull, fun _ => hnozero⟩).imp_left fun hloads => hloads hw

/-! ## A file without an entry -/

/-- A header, and nothing behind it. -/
def headerMem : Mem := fun x =>
  let i := (x - 0x10000).toNat
  BitVec.ofNat 8 (([0x464C457F, 0x00010101, 0, 0, 0x00030001, 1, 0, 0, 52, 0, 52, 0x00280000,
    0][i / 4]?).getD 0 >>> (8 * (i % 4)))

theorem headerMem_loadable : Loadable headerMem 0x10000 fixedMalloc noSymbols () := by
  have hcount : secCount headerMem 0x10000 = 0 := by decide +kernel
  have hno {k : Nat} : ¬ k < secCount headerMem 0x10000 := hcount ▸ Nat.not_lt_zero k
  refine ⟨by decide, by decide +kernel, by decide +kernel, fun k hk => absurd hk hno,
    fun k j hj => absurd hj.1 hno, fun k j k' j' hj => absurd hj.1.1 hno, fun p q hp hq hne => ?_,
    fun k hk => absurd hk hno⟩
  -- the table of the section headers is empty
  have htable : Part.len headerMem 0x10000 .table = 0 := by
    rw [Part.len, hcount, Nat.mul_zero]
  cases p with
  | header =>
      cases q with
      | header => exact absurd rfl hne
      | table => exact Or.inr (Or.inl htable)
      | contents k => exact absurd hq.1 hno
      | block k => exact absurd hq.1 hno
  | table => exact Or.inl htable
  | contents k => exact absurd hp.1 hno
  | block k => exact absurd hp.1 hno

/-- It is loaded, and its entry is `NULL`. -/
theorem elfLoadFile_null : ¬ ∀ (H : Type) (malloc : H → U32 → U32 × H)
    (lookupSymbol : List U8 → U32) (m : Mem) (h : H) (e : U32),
    (Loadable m e malloc lookupSymbol h → Loads m e malloc lookupSymbol h) ∧
      NullFails m e malloc lookupSymbol h := by
  intro hall
  have hloads := (hall Unit fixedMalloc noSymbols headerMem () 0x10000).1 headerMem_loadable
  obtain ⟨r, m', h', hrun, hr, -⟩ := hloads
  have heval : (elfLoadFile fixedMalloc noSymbols headerMem () 0x10000).map (fun r => r.1)
      = some 0 := by decide +kernel
  rw [hrun] at heval
  exact hr (Option.some.inj heval)

end Tomk
