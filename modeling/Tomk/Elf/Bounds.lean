/-
# Section indices and divisions

`check_supported` looks at the header only, and nothing behind it checks `sh_info`, `sh_link`,
`st_shndx` or `sh_entsize`.  So every turn of the pass is as sound as the words that it reads
(`Pass.Sound`).  In a file that the loader does not rewrite these are the words that were there before
the call, and the call is sound if and only if those are, of all relocations that it comes to
(`elfLoadFile_sound_iff`).  A relocation that writes to the section headers can make bad words of good
ones, and good ones of bad ones: then only the run itself says which.
-/
import Tomk.Elf.LoadableImage
import Tomk.Elf.Placement

namespace Tomk

open ByteMem

variable {H : Type} {malloc : H → U32 → U32 × H} {lookupSymbol : List U8 → U32} {m : Mem} {h : H}
  {ehdr shdr rel reltab : U32}

/-- No division by zero, and no section that the table does not have. -/
def ElfEvent.Sound : ElfEvent → Prop
  | .divide d => d ≠ 0
  | .useSection i shnum => i.toNat < shnum.toNat
  | _ => True

instance (ev : ElfEvent) : Decidable ev.Sound := by
  cases ev <;> unfold ElfEvent.Sound <;> infer_instance

/-! ## The turns -/

/-- Of a turn: the size of an entry, and the relocation that is next. -/
def Pass.Sound (ehdr shdr : U32) (s : Pass H) : Prop :=
  match s.pc with
  | .sect => True
  | .rel idx =>
      let sect := s.sectAt shdr
      shEntsize s.mem sect ≠ 0 ∧ (idx < shSize s.mem sect / shEntsize s.mem sect →
        RelocSound s.mem ehdr (relocAt s.mem ehdr sect idx) sect)

theorem getSymvalEvents_sound_iff {table i : U32} (ht : table ≠ shnUndef) (hi : i ≠ shnUndef) :
    (∀ ev ∈ getSymvalEvents m ehdr table i, ev.Sound) ↔ SymbolSound m ehdr table i := by
  have hcount : shSize m (sectionOf m ehdr table) / shEntsize m (sectionOf m ehdr table)
      = symbolCount m ehdr table := rfl
  have hsym : ehdr + shOffset m (sectionOf m ehdr table) + BitVec.ofNat 32 symSize * i
      = symbolOf m ehdr table i := rfl
  simp only [getSymvalEvents, if_neg (not_or.mpr ⟨ht, hi⟩), hcount, hsym, List.forall_mem_append,
    List.forall_mem_cons, List.not_mem_nil, false_imp_iff, implies_true, and_true]
  constructor
  · rintro ⟨⟨htable, hent⟩, hrest⟩
    rw [if_neg hent] at hrest
    refine ⟨htable, hent, fun hlt h0 => ?_, fun hlt h0 habs => ?_⟩
    · rw [if_neg (BitVec.not_le.mpr hlt), if_pos h0] at hrest
      exact hrest _ (List.mem_singleton_self _)
    · rw [if_neg (BitVec.not_le.mpr hlt), if_neg h0, if_neg habs] at hrest
      have h := hrest _ (List.mem_singleton_self _)
      rwa [ElfEvent.Sound, BitVec.toNat_setWidth_of_le (by decide)] at h
  · rintro ⟨htable, hent, hstrtab, hshndx⟩
    refine ⟨⟨htable, hent⟩, ?_⟩
    rw [if_neg hent]
    split
    · exact List.forall_mem_nil _
    next hle =>
      have hlt := BitVec.not_le.mp hle
      split
      · next h0 => exact List.forall_mem_singleton.mpr (hstrtab hlt h0)
      next h0 =>
        split
        · exact List.forall_mem_nil _
        · next habs =>
            refine List.forall_mem_singleton.mpr ?_
            rw [ElfEvent.Sound, BitVec.toNat_setWidth_of_le (by decide)]
            exact hshndx hlt h0 habs

theorem doRelocEvents_sound_iff :
    (∀ ev ∈ doRelocEvents m ehdr rel reltab, ev.Sound) ↔ RelocSound m ehdr rel reltab := by
  rw [doRelocEvents, List.forall_mem_cons]
  by_cases hsym : elf32RSym (relInfo m rel) = shnUndef
  · rw [if_neg (not_not.mpr hsym)]
    exact ⟨fun h => ⟨h.1, fun hne => absurd hsym hne⟩, fun h => ⟨h.target, List.forall_mem_nil _⟩⟩
  rw [if_pos hsym]
  by_cases hlink : shLink m reltab = shnUndef
  · have hnil : getSymvalEvents m ehdr (shLink m reltab) (elf32RSym (relInfo m rel)) = [] := by
      rw [getSymvalEvents, if_pos (Or.inl hlink)]
    rw [hnil]
    exact ⟨fun h => ⟨h.1, fun _ hne => absurd hlink hne⟩, fun h => ⟨h.target, List.forall_mem_nil _⟩⟩
  · rw [getSymvalEvents_sound_iff hlink hsym]
    exact ⟨fun h => ⟨h.1, fun _ _ => h.2⟩, fun h => ⟨h.target, h.symbol hsym hlink⟩⟩

/-- **A turn** is sound if the words that it reads are. -/
theorem Pass.events_sound_iff (s : Pass H) :
    (∀ ev ∈ s.events malloc lookupSymbol ehdr shdr, ev.Sound) ↔ s.Sound ehdr shdr := by
  obtain ⟨i, pc, m, h⟩ := s
  cases pc with
  | sect =>
      refine iff_of_true (fun ev hev => ?_) trivial
      simp only [Pass.events] at hev
      split at hev
      · split at hev
        · exact absurd hev List.not_mem_nil
        split at hev
        · rcases mem_loadNobitsEvents hev with rfl | rfl
          · exact trivial
          · exact trivial
        · exact absurd hev List.not_mem_nil
      · rw [List.mem_singleton.mp hev]
        exact trivial
  | rel idx =>
      simp only [Pass.events, Pass.Sound, List.forall_mem_cons]
      refine and_congr_right fun hent => ?_
      rw [if_neg hent]
      split
      next hidx =>
        rw [List.forall_mem_append, doRelocEvents_sound_iff, imp_iff_right hidx]
        refine and_iff_left fun ev hev => ?_
        split at hev
        · exact absurd hev List.not_mem_nil
        · split at hev
          · rw [List.mem_singleton.mp hev]
            exact trivial
          · exact absurd hev List.not_mem_nil
      next hidx => exact iff_of_true (List.forall_mem_nil _) fun h => absurd h hidx

/-! ## The call -/

theorem elfLoadFileEvents_sound_iff {file : U32} :
    (∀ ev ∈ elfLoadFileEvents malloc lookupSymbol m h file, ev.Sound) ↔
      ∀ s, Comes malloc lookupSymbol m h file s → s.Sound file (sheader m file) := by
  simp only [mem_elfLoadFileEvents_iff]
  constructor
  · exact fun hall s hs => s.events_sound_iff.mp fun ev hev => hall ev ⟨s, hs, hev⟩
  · rintro hall ev ⟨s, hs, hev⟩
    exact s.events_sound_iff.mpr (hall s hs) ev hev

/-- The words of the file, as it is before the call: the sections with relocations that the pass comes to
have entries of a size, and of the relocations that it comes to the section, the symbol table and the
symbol are there. -/
structure WordsSound (m : Mem) (e : U32) (malloc : H → U32 → U32 × H) (lookupSymbol : List U8 → U32)
    (h : H) : Prop where
  entsize : ∀ k, k < secCount m e → secType m e k = shtRel → Reaches m e malloc lookupSymbol h k 0 →
    shEntsize m (secAt m e k) ≠ 0
  reloc : ∀ k j, IsEntry m e k j → Reaches m e malloc lookupSymbol h k j →
    RelocSound (imageAt m e malloc h k) e (relAt m e k j) (secAt m e k)

section

variable {e : U32} {i n : Nat} {m' : Mem} (hu : Intact m e malloc lookupSymbol h)
  (hr : Reaches m e malloc lookupSymbol h i n) (ht : Tracks m e malloc lookupSymbol h i n m')

include hu hr ht

/-- **A turn** of the loop over the relocations is as sound as the words of the file. -/
theorem Intact.relTurn_sound_iff (hi : i < secCount m e) (hrel : secType m e i = shtRel)
    (hn : n ≤ entryCount m e i) :
    (relTurn m e malloc h i n m').Sound e (Tomk.sheader m e) ↔ shEntsize m (secAt m e i) ≠ 0 ∧
      (n < entryCount m e i → RelocSound (imageAt m e malloc h i) e (relAt m e i n) (secAt m e i)) := by
  have hle := Nat.le_of_lt hi
  simp only [Pass.Sound, relTurn, Pass.sectAt, secAt_of_lt hi, ht.more_iff hle hi hn, ht.relocAt hle hi hrel]
  rw [ht.entsize hle hi]
  refine and_congr_right fun _ => forall_congr' fun hlt => ?_
  have a := hu.agrees hr hle ht ⟨hi, hrel, hlt⟩
  exact ⟨a.symm.relocSound, a.relocSound⟩

end

/-- **The call** of a file that is not rewritten divides by no zero and takes no section that is not there,
if and only if the words of the file are sound, of all that the pass comes to. -/
theorem elfLoadFile_sound_iff {e : U32} (hu : Intact m e malloc lookupSymbol h) :
    (∀ ev ∈ elfLoadFileEvents malloc lookupSymbol m h e, ev.Sound) ↔
      (IsLoaded m e → WordsSound m e malloc lookupSymbol h) := by
  rw [elfLoadFileEvents_sound_iff]
  constructor
  · intro hall hload
    constructor
    · intro k hk ht hr
      obtain ⟨m', hc, htracks⟩ := hu.comes_rel hload hk ht (Nat.zero_le _) hr
      exact ((hu.relTurn_sound_iff hr htracks hk ht (Nat.zero_le _)).mp (hall _ hc)).1
    · intro k j hj hr
      have hle := Nat.le_of_lt hj.2.2
      obtain ⟨m', hc, htracks⟩ := hu.comes_rel hload hj.1 hj.2.1 hle hr
      exact ((hu.relTurn_sound_iff hr htracks hj.1 hj.2.1 hle).mp (hall _ hc)).2 hj.2.2
  · intro hwords s hc
    have hw := hwords hc.1
    cases hu.comes_cases hw.reloc hc with
    | sect i m' hi hr ht => exact trivial
    | rel i n m' hi hrel hn hr ht =>
        exact (hu.relTurn_sound_iff hr ht hi hrel hn).mpr
          ⟨hw.entsize i hi hrel (hr.le (Nat.zero_le n)), fun hlt => hw.reloc i n ⟨hi, hrel, hlt⟩ hr⟩

/-- An image that can be loaded has sound words. -/
theorem Loadable.wordsSound {e : U32} (hw : Loadable m e malloc lookupSymbol h) :
    WordsSound m e malloc lookupSymbol h :=
  ⟨fun k hk ht _ => (hw.sections k hk ht).entsize_ne, fun _ _ hj _ => hw.relocSound hj⟩

theorem elfLoadFile_sound_object :
    WordsSound (objectMem false) 0x10000 fixedMalloc noSymbols () ∧
      ∀ ev ∈ elfLoadFileEvents fixedMalloc noSymbols (objectMem false) () 0x10000, ev.Sound := by
  have hw := (objectMem_wellFormed false).loadable
  exact ⟨hw.wordsSound, (elfLoadFile_sound_iff hw.intact).mpr fun _ => hw.wordsSound⟩

/-- Two sections: after the first there is one with relocations, whose entries have the size
`entsize`, for the section `info`. -/
def relFile (info entsize : Nat) : List Nat :=
  [0x464C457F, 0x00010101, 0, 0, 0x00030001, 1, 0x1000, 0, 52, 0, 52, 0x00280000, 2] ++
    (shdrWords 0 0 0 0 0 0 0 ++ shdrWords 9 0 132 8 0 info entsize ++ [0, 1])

def relMem (info entsize : Nat) : Mem := fun x =>
  let i := (x - 0x10000).toNat
  BitVec.ofNat 8 (((relFile info entsize)[i / 4]?).getD 0 >>> (8 * (i % 4)))

/-- A size of 0, and an index that is not below 2. -/
theorem elfLoadFile_unsound : ¬ ∀ (H : Type) (malloc : H → U32 → U32 × H)
    (lookupSymbol : List U8 → U32) (m : Mem) (h : H) (file : U32),
    checkSupported m file = true →
      ∀ ev ∈ elfLoadFileEvents malloc lookupSymbol m h file, ev.Sound := by
  intro hall
  have hdiv := hall Unit fixedMalloc noSymbols (relMem 1 0) () 0x10000 (by decide +kernel)
    (.divide 0) (by decide +kernel)
  exact hdiv rfl

/-- Three sections: the relocation of the second one writes to the header of that section, the size of its
entries, and its symbol is the absolute one of the third. -/
def rewritingFile : List Nat :=
  [0x464C457F, 0x00010101, 0, 0, 0x00030001, 1, 0x1000, 0, 52, 0, 52, 0x00280000, 3] ++
    (shdrWords 0 0 0 0 0 0 0 ++ (shdrWords 9 0 172 8 2 0 8 ++ (shdrWords 2 0 180 32 0 0 16 ++
    [128, 0x101, 0, 0, 0, 0, 0, 0xFFFFFFF8, 0, 0xFFF10000])))

def rewritingMem : Mem := fun x =>
  let i := (x - 0x10000).toNat
  BitVec.ofNat 8 ((rewritingFile[i / 4]?).getD 0 >>> (8 * (i % 4)))

/-- In a file that is rewritten the words before the call do not say it: here they are all sound, and behind
the relocation the size is 0. -/
theorem elfLoadFile_unsound_rewriting :
    WordsSound rewritingMem 0x10000 fixedMalloc noSymbols () ∧
      .divide 0 ∈ elfLoadFileEvents fixedMalloc noSymbols rewritingMem () 0x10000 := by
  have hcount : secCount rewritingMem 0x10000 = 3 := by decide +kernel
  have hrel : ∀ k, k < 3 → secType rewritingMem 0x10000 k = shtRel → k = 1 := by decide +kernel
  have hone : entryCount rewritingMem 0x10000 1 = 1 := by decide +kernel
  refine ⟨⟨fun k hk ht _ => ?_, fun k j ⟨hk, ht, hlt⟩ _ => ?_⟩, by decide +kernel⟩
  · obtain rfl := hrel k (hcount ▸ hk) ht
    decide +kernel
  · obtain rfl := hrel k (hcount ▸ hk) ht
    obtain rfl : j = 0 := by omega
    exact ⟨by decide +kernel, fun _ _ => ⟨by decide +kernel, by decide +kernel,
      fun _ h0 => absurd h0 (by decide +kernel), fun _ _ habs => absurd (by decide +kernel) habs⟩⟩

end Tomk
