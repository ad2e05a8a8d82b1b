/-
# What a call of the loader does on its way

The functions of `elf.c` once more, for what they do and do not return: the divisions, the
indices that go into `section`, the calls of the allocator, what is written through a pointer from
there, and the two messages at the ends of `load_rel`.  Each follows its function, which says where it
goes.

The pass is also given by its turns (`Pass.next`): at the `switch` for a section, and at the
condition of the loop over its relocations.  The states that it comes to (`Comes`) are those before
each turn, and what the call does is what these turns do (`mem_elfLoadFileEvents_iff`).  What the
call returns is in the events too (`elfLoadFile_returns_iff`).
-/
import Mathlib.Logic.Relation
import Tomk.Elf.Elf

namespace Tomk

open ByteMem Relation

inductive ElfEvent where
  | divide (d : U32)
  /-- `section(ehdr, i)`, with `e_shnum` as it is then. -/
  | useSection (i : U32) (shnum : BitVec 16)
  | malloc (size p : U32)
  | memset (p size : U32)
  | free (p : U32)
  | relocFailed
  | loaded (entry : U32)
deriving DecidableEq

variable {H : Type} (malloc : H → U32 → U32 × H) (lookupSymbol : List U8 → U32)

/-! ## The functions -/

def getSymvalEvents (m : Mem) (ehdr table i : U32) : List ElfEvent :=
  if table = shnUndef ∨ i = shnUndef then []
  else
    let symtab := sectionOf m ehdr table
    [.useSection table (eShnum m ehdr), .divide (shEntsize m symtab)] ++
      if shEntsize m symtab = 0 then []
      else if shSize m symtab / shEntsize m symtab ≤ i then []
      else
        let symbol := ehdr + shOffset m symtab + BitVec.ofNat 32 symSize * i
        if stShndx m symbol = 0 then [.useSection (shLink m symtab) (eShnum m ehdr)]
        else if stShndx m symbol = shnAbs then []
        else [.useSection ((stShndx m symbol).setWidth 32) (eShnum m ehdr)]

def doRelocEvents (m : Mem) (ehdr rel reltab : U32) : List ElfEvent :=
  let sym := elf32RSym (relInfo m rel)
  .useSection (shInfo m reltab) (eShnum m ehdr) ::
    if sym ≠ shnUndef then getSymvalEvents m ehdr (shLink m reltab) sym else []

def relocLoopEvents (ehdr sect : U32) : Nat → U32 → Mem → List ElfEvent
  | 0, _, _ => []
  | fuel + 1, idx, m =>
    .divide (shEntsize m sect) ::
      if shEntsize m sect = 0 then []
      else if idx < shSize m sect / shEntsize m sect then
        let reltab := ehdr + shOffset m sect + BitVec.ofNat 32 relSize * idx
        doRelocEvents m ehdr reltab sect ++
          match doReloc lookupSymbol m ehdr reltab sect with
          | none => []
          | some (r, m) =>
              if r = 0 then [.relocFailed] else relocLoopEvents ehdr sect fuel (idx + 1) m
      else []

def loadNobitsEvents (sect : U32) (m : Mem) (h : H) : List ElfEvent :=
  if shSize m sect = 0 then []
  else if shFlags m sect &&& shfAlloc ≠ 0 then
    let mem := (malloc h (shSize m sect)).1
    [.malloc (shSize m sect) mem, .memset mem (shSize m sect)]
  else []

def loadLoopEvents (ehdr shdr : U32) : Nat → BitVec 16 → Mem → H → List ElfEvent
  | 0, _, _, _ => []
  | fuel + 1, i, m, h =>
    if i < eShnum m ehdr then
      let sect := shdr + BitVec.ofNat 32 shdrSize * i.setWidth 32
      if shType m sect = shtRel then
        relocLoopEvents lookupSymbol ehdr sect (2 ^ 32) 0 m ++
          match relocLoop lookupSymbol ehdr sect (2 ^ 32) 0 m with
          | some (true, m) => loadLoopEvents ehdr shdr fuel (i + 1) m h
          | _ => []
      else if shType m sect = shtNobits then
        let (m', h') := loadNobits malloc ehdr sect m h
        loadNobitsEvents malloc sect m h ++ loadLoopEvents ehdr shdr fuel (i + 1) m' h'
      else loadLoopEvents ehdr shdr fuel (i + 1) m h
    else [.loaded (eEntry m ehdr)]

/-- The call comes to `load_rel`. -/
def IsLoaded (m : Mem) (file : U32) : Prop :=
  file ≠ 0 ∧ checkSupported m file = true ∧ eType m file = etRel

instance (m : Mem) (file : U32) : Decidable (IsLoaded m file) := inferInstanceAs (Decidable (_ ∧ _))

def elfLoadFileEvents (m : Mem) (h : H) (file : U32) : List ElfEvent :=
  if IsLoaded m file then
    loadLoopEvents malloc lookupSymbol file (sheader m file) (2 ^ 16) 0 m h
  else []

/-! ## The turns -/

/-- At the `switch`, or at a relocation of the section. -/
inductive PassAt where
  | sect
  | rel (idx : U32)

/-- The pass, at section `i`. -/
structure Pass (H : Type) where
  i : BitVec 16
  pc : PassAt
  mem : Mem
  heap : H

def Pass.sectAt (shdr : U32) (s : Pass H) : U32 :=
  shdr + BitVec.ofNat 32 shdrSize * s.i.setWidth 32

/-- The relocation that `load_rel` calls `reltab`. -/
def relocAt (m : Mem) (ehdr sect idx : U32) : U32 :=
  ehdr + shOffset m sect + BitVec.ofNat 32 relSize * idx

/-- The next turn, if the call does not end with this one. -/
def Pass.next (ehdr shdr : U32) (s : Pass H) : Option (Pass H) :=
  let sect := s.sectAt shdr
  match s.pc with
  | .sect =>
      if s.i < eShnum s.mem ehdr then
        if shType s.mem sect = shtRel then some { s with pc := .rel 0 }
        else if shType s.mem sect = shtNobits then
          let (m, h) := loadNobits malloc ehdr sect s.mem s.heap
          some { i := s.i + 1, pc := .sect, mem := m, heap := h }
        else some { s with i := s.i + 1 }
      else none
  | .rel idx =>
      if shEntsize s.mem sect = 0 then none
      else if idx < shSize s.mem sect / shEntsize s.mem sect then
        match doReloc lookupSymbol s.mem ehdr (relocAt s.mem ehdr sect idx) sect with
        | none => none
        | some (r, m) => if r = 0 then none else some { s with pc := .rel (idx + 1), mem := m }
      else some { s with i := s.i + 1, pc := .sect }

def Pass.events (ehdr shdr : U32) (s : Pass H) : List ElfEvent :=
  let sect := s.sectAt shdr
  match s.pc with
  | .sect =>
      if s.i < eShnum s.mem ehdr then
        if shType s.mem sect = shtRel then []
        else if shType s.mem sect = shtNobits then loadNobitsEvents malloc sect s.mem s.heap
        else []
      else [.loaded (eEntry s.mem ehdr)]
  | .rel idx =>
      .divide (shEntsize s.mem sect) ::
        if shEntsize s.mem sect = 0 then []
        else if idx < shSize s.mem sect / shEntsize s.mem sect then
          let reltab := relocAt s.mem ehdr sect idx
          doRelocEvents s.mem ehdr reltab sect ++
            match doReloc lookupSymbol s.mem ehdr reltab sect with
            | none => []
            | some (r, _) => if r = 0 then [.relocFailed] else []
        else []

/-- The first turn. -/
def Pass.start (m : Mem) (h : H) : Pass H := { i := 0, pc := .sect, mem := m, heap := h }

def Pass.Turn (ehdr shdr : U32) (s t : Pass H) : Prop :=
  s.next malloc lookupSymbol ehdr shdr = some t

/-- The call comes to the turn `s`. -/
def Comes (m : Mem) (h : H) (file : U32) (s : Pass H) : Prop :=
  IsLoaded m file ∧
    ReflTransGen (Pass.Turn malloc lookupSymbol file (sheader m file)) (Pass.start m h) s

/-! ## What the turns do -/

variable {malloc lookupSymbol} {ehdr shdr idx : U32} {i : BitVec 16} {m : Mem} {h : H}
  {s : Pass H} {ev : ElfEvent}

/-- From `s` on, `ev` is done in some turn. -/
def Emits (malloc : H → U32 → U32 × H) (lookupSymbol : List U8 → U32) (ehdr shdr : U32) (s : Pass H)
    (ev : ElfEvent) : Prop :=
  ∃ t, ReflTransGen (Pass.Turn malloc lookupSymbol ehdr shdr) s t ∧
    ev ∈ t.events malloc lookupSymbol ehdr shdr

theorem emits_iff : Emits malloc lookupSymbol ehdr shdr s ev ↔
    ev ∈ s.events malloc lookupSymbol ehdr shdr ∨ ∃ t,
      s.next malloc lookupSymbol ehdr shdr = some t ∧ Emits malloc lookupSymbol ehdr shdr t ev := by
  constructor
  · rintro ⟨t, hrun, hev⟩
    rcases hrun.cases_head with rfl | ⟨s', hnext, hrun⟩
    · exact Or.inl hev
    · exact Or.inr ⟨s', hnext, t, hrun, hev⟩
  · rintro (hev | ⟨s', hnext, t, hrun, hev⟩)
    · exact ⟨s, .refl, hev⟩
    · exact ⟨t, .head hnext hrun, hev⟩

theorem toNat_succ_of_lt {w : Nat} {x y : BitVec w} (h : x < y) : (x + 1).toNat = x.toNat + 1 := by
  have hlt : x.toNat < y.toNat := h
  have hy := y.isLt
  have hw : 0 < w := by
    by_contra h0
    obtain rfl : w = 0 := by omega
    omega
  rw [show (1 : BitVec w) = 1#w from rfl, BitVec.toNat_add, BitVec.toNat_one hw, Nat.mod_eq_of_lt (by omega)]

/-- **The loop over the relocations**, and what comes behind it. -/
theorem emits_rel (fuel : Nat) (hfuel : 2 ^ 32 ≤ fuel + idx.toNat) :
    Emits malloc lookupSymbol ehdr shdr ⟨i, .rel idx, m, h⟩ ev ↔
      ev ∈ relocLoopEvents lookupSymbol ehdr (shdr + BitVec.ofNat 32 shdrSize * i.setWidth 32)
          fuel idx m ∨
        ∃ m1, relocLoop lookupSymbol ehdr (shdr + BitVec.ofNat 32 shdrSize * i.setWidth 32)
            fuel idx m = some (true, m1) ∧
          Emits malloc lookupSymbol ehdr shdr ⟨i + 1, .sect, m1, h⟩ ev := by
  generalize hsect : shdr + BitVec.ofNat 32 shdrSize * i.setWidth 32 = sect
  induction fuel generalizing idx m with
  | zero =>
      have := idx.isLt
      omega
  | succ fuel ih =>
      have hat : Pass.sectAt shdr (⟨i, .rel idx, m, h⟩ : Pass H) = sect := hsect
      rw [emits_iff]
      simp only [Pass.next, Pass.events, hat, relocLoopEvents, relocLoop, List.mem_cons, relocAt]
      by_cases hent : shEntsize m sect = 0
      · simp [hent]
      by_cases hidx : idx < shSize m sect / shEntsize m sect
      · have hsucc := toNat_succ_of_lt hidx
        simp only [if_neg hent, if_pos hidx, List.mem_append]
        cases hdo : doReloc lookupSymbol m ehdr
            (ehdr + shOffset m sect + BitVec.ofNat 32 relSize * idx) sect with
        | none => simp
        | some out =>
            obtain ⟨r, m'⟩ := out
            by_cases hr : r = 0
            · simp [hr]
            · simp only [if_neg hr, Option.bind_eq_bind, Option.bind_some, Option.some.injEq,
                exists_eq_left', List.not_mem_nil, or_false]
              rw [ih (by omega), or_assoc, or_assoc, or_assoc]
      · simp only [if_neg hent, if_neg hidx, List.not_mem_nil, or_false, Option.some.injEq,
          exists_eq_left', Prod.mk.injEq, true_and]

/-- **The loop over the section headers.** -/
theorem emits_sect (fuel : Nat) (hfuel : 2 ^ 16 ≤ fuel + i.toNat) :
    Emits malloc lookupSymbol ehdr shdr ⟨i, .sect, m, h⟩ ev ↔
      ev ∈ loadLoopEvents malloc lookupSymbol ehdr shdr fuel i m h := by
  induction fuel generalizing i m h with
  | zero =>
      have := i.isLt
      omega
  | succ fuel ih =>
      rw [emits_iff, loadLoopEvents]
      generalize h32 : 2 ^ 32 = turns
      simp only [Pass.next, Pass.events, Pass.sectAt]
      by_cases hi : i < eShnum m ehdr
      · have hsucc := toNat_succ_of_lt hi
        obtain ⟨sect, hsect⟩ : ∃ sect, shdr + BitVec.ofNat 32 shdrSize * i.setWidth 32 = sect :=
          ⟨_, rfl⟩
        simp only [if_pos hi, hsect]
        by_cases hrel : shType m sect = shtRel
        · simp only [if_pos hrel, Option.some.injEq, exists_eq_left', List.not_mem_nil, false_or]
          rw [emits_rel turns (by omega), hsect, List.mem_append]
          refine or_congr_right ?_
          cases relocLoop lookupSymbol ehdr sect turns 0 m with
          | none => simp
          | some out =>
              obtain ⟨done, m1⟩ := out
              cases done with
              | false => simp
              | true =>
                  simp only [Option.some.injEq, Prod.mk.injEq, true_and, exists_eq_left']
                  exact ih (by omega)
        by_cases hbits : shType m sect = shtNobits
        · simp only [if_neg hrel, if_pos hbits, Option.some.injEq, exists_eq_left', List.mem_append]
          rw [ih (by omega)]
        · simp only [if_neg hrel, if_neg hbits, Option.some.injEq, exists_eq_left',
            List.not_mem_nil, false_or]
          rw [ih (by omega)]
      · simp [if_neg hi]

/-- **What the call does** is what its turns do. -/
theorem mem_elfLoadFileEvents_iff {file : U32} :
    ev ∈ elfLoadFileEvents malloc lookupSymbol m h file ↔ ∃ s, Comes malloc lookupSymbol m h file s ∧
      ev ∈ s.events malloc lookupSymbol file (sheader m file) := by
  rw [elfLoadFileEvents]
  by_cases hload : IsLoaded m file
  · rw [if_pos hload, ← emits_sect (2 ^ 16) (Nat.le_add_right _ _)]
    exact exists_congr fun s => and_congr_left fun _ => (and_iff_right hload).symm
  · rw [if_neg hload]
    exact iff_of_false List.not_mem_nil fun ⟨s, hs, _⟩ => hload hs.1

/-! ## The events of the functions -/

theorem mem_getSymvalEvents {table j : U32} (h : ev ∈ getSymvalEvents m ehdr table j) :
    (∃ n shnum, ev = .useSection n shnum) ∨ ∃ d, ev = .divide d := by
  rw [getSymvalEvents] at h
  by_cases h0 : table = shnUndef ∨ j = shnUndef
  · rw [if_pos h0] at h
    exact absurd h List.not_mem_nil
  rw [if_neg h0] at h
  rcases List.mem_append.mp h with h | h
  · rcases List.mem_cons.mp h with rfl | h
    · exact Or.inl ⟨_, _, rfl⟩
    · exact Or.inr ⟨_, List.mem_singleton.mp h⟩
  · revert h
    split
    · exact fun h => absurd h List.not_mem_nil
    split
    · exact fun h => absurd h List.not_mem_nil
    dsimp only
    split
    · exact fun h => Or.inl ⟨_, _, List.mem_singleton.mp h⟩
    split
    · exact fun h => absurd h List.not_mem_nil
    · exact fun h => Or.inl ⟨_, _, List.mem_singleton.mp h⟩

/-- A relocation only divides and takes sections. -/
theorem mem_doRelocEvents {rel reltab : U32} (h : ev ∈ doRelocEvents m ehdr rel reltab) :
    (∃ n shnum, ev = .useSection n shnum) ∨ ∃ d, ev = .divide d := by
  rw [doRelocEvents] at h
  rcases List.mem_cons.mp h with rfl | h
  · exact Or.inl ⟨_, _, rfl⟩
  · by_cases hsym : elf32RSym (relInfo m rel) ≠ shnUndef
    · rw [if_pos hsym] at h
      exact mem_getSymvalEvents h
    · rw [if_neg hsym] at h
      exact absurd h List.not_mem_nil

theorem relocFailed_notMem {rel reltab : U32} : .relocFailed ∉ doRelocEvents m ehdr rel reltab := by
  intro h
  obtain ⟨_, _, h⟩ | ⟨_, h⟩ := mem_doRelocEvents h
  · cases h
  · cases h

theorem mem_loadNobitsEvents {sect : U32} (hev : ev ∈ loadNobitsEvents malloc sect m h) :
    ev = .malloc (shSize m sect) (malloc h (shSize m sect)).1 ∨
      ev = .memset (malloc h (shSize m sect)).1 (shSize m sect) := by
  rw [loadNobitsEvents] at hev
  revert hev
  split
  · exact fun h => absurd h List.not_mem_nil
  split
  · intro h
    rcases List.mem_cons.mp h with rfl | h
    · exact Or.inl rfl
    · exact Or.inr (List.mem_singleton.mp h)
  · exact fun h => absurd h List.not_mem_nil

/-! ## What a turn does -/

/-- The turn allocates memory for its section. -/
def Pass.Allocating (ehdr shdr : U32) (s : Pass H) : Prop :=
  s.pc = .sect ∧ s.i < eShnum s.mem ehdr ∧ shType s.mem (s.sectAt shdr) = shtNobits ∧
    shSize s.mem (s.sectAt shdr) ≠ 0 ∧ shFlags s.mem (s.sectAt shdr) &&& shfAlloc ≠ 0

/-- What it allocates. -/
def Pass.allocated (malloc : H → U32 → U32 × H) (shdr : U32) (s : Pass H) : U32 :=
  (malloc s.heap (shSize s.mem (s.sectAt shdr))).1

/-- There are no more sections. -/
def Pass.AtEnd (ehdr : U32) (s : Pass H) : Prop := s.pc = .sect ∧ ¬ s.i < eShnum s.mem ehdr

/-- The relocation of the turn fails. -/
def Pass.Failing (lookupSymbol : List U8 → U32) (ehdr shdr : U32) (s : Pass H) : Prop :=
  ∃ idx, s.pc = .rel idx ∧ shEntsize s.mem (s.sectAt shdr) ≠ 0 ∧
    idx < shSize s.mem (s.sectAt shdr) / shEntsize s.mem (s.sectAt shdr) ∧
      ∃ m', doReloc lookupSymbol s.mem ehdr (relocAt s.mem ehdr (s.sectAt shdr) idx) (s.sectAt shdr)
        = some (0, m')

theorem shtNobits_ne : shtNobits ≠ shtRel := by decide

/-- **A turn that allocates** calls `malloc`, and writes through what that returns. -/
theorem Pass.Allocating.events (ha : s.Allocating ehdr shdr) :
    s.events malloc lookupSymbol ehdr shdr =
      [.malloc (shSize s.mem (s.sectAt shdr)) (s.allocated malloc shdr),
        .memset (s.allocated malloc shdr) (shSize s.mem (s.sectAt shdr))] := by
  obtain ⟨hpc, hi, ht, hsize, hflags⟩ := ha
  rw [Pass.events, hpc]
  simp only [if_pos hi, ht, if_neg shtNobits_ne, if_true, loadNobitsEvents, if_neg hsize,
    if_pos hflags]
  rfl

theorem Pass.Failing.events (hf : s.Failing lookupSymbol ehdr shdr) :
    .relocFailed ∈ s.events malloc lookupSymbol ehdr shdr := by
  obtain ⟨idx, hpc, hent, hidx, m', hdo⟩ := hf
  rw [Pass.events, hpc]
  simp only [if_neg hent, if_pos hidx, hdo, if_true]
  exact List.mem_cons_of_mem _ (List.mem_append_right _ (List.mem_singleton_self _))

theorem Pass.AtEnd.events (ha : s.AtEnd ehdr) :
    s.events malloc lookupSymbol ehdr shdr = [.loaded (eEntry s.mem ehdr)] := by
  rw [Pass.events, ha.1]
  exact if_neg ha.2

/-- What a turn does; of a section and of a division it says nothing more. -/
inductive Pass.Does (malloc : H → U32 → U32 × H) (lookupSymbol : List U8 → U32) (ehdr shdr : U32)
    (s : Pass H) : ElfEvent → Prop
  | useSection (i : U32) (shnum : BitVec 16) : Does malloc lookupSymbol ehdr shdr s (.useSection i shnum)
  | divide (d : U32) : Does malloc lookupSymbol ehdr shdr s (.divide d)
  | loaded : s.AtEnd ehdr → Does malloc lookupSymbol ehdr shdr s (.loaded (eEntry s.mem ehdr))
  | malloc (n : U32) : s.Allocating ehdr shdr →
      Does malloc lookupSymbol ehdr shdr s (.malloc n (s.allocated malloc shdr))
  | memset (n : U32) : s.Allocating ehdr shdr →
      Does malloc lookupSymbol ehdr shdr s (.memset (s.allocated malloc shdr) n)
  | relocFailed : s.Failing lookupSymbol ehdr shdr → Does malloc lookupSymbol ehdr shdr s .relocFailed

theorem Pass.does_of_mem {ev : ElfEvent} (hev : ev ∈ s.events malloc lookupSymbol ehdr shdr) :
    s.Does malloc lookupSymbol ehdr shdr ev := by
  rw [Pass.events] at hev
  cases hpc : s.pc with
  | sect =>
      simp only [hpc] at hev
      split at hev
      next hi =>
        split at hev
        · exact absurd hev List.not_mem_nil
        split at hev
        next ht =>
          by_cases hsize : shSize s.mem (s.sectAt shdr) = 0
          · rw [loadNobitsEvents, if_pos hsize] at hev
            exact absurd hev List.not_mem_nil
          by_cases hflags : shFlags s.mem (s.sectAt shdr) &&& shfAlloc ≠ 0
          · have ha : s.Allocating ehdr shdr := ⟨hpc, hi, ht, hsize, hflags⟩
            rcases mem_loadNobitsEvents hev with rfl | rfl
            · exact .malloc _ ha
            · exact .memset _ ha
          · rw [loadNobitsEvents, if_neg hsize, if_neg hflags] at hev
            exact absurd hev List.not_mem_nil
        · exact absurd hev List.not_mem_nil
      next hi =>
        rw [List.mem_singleton.mp hev]
        exact .loaded ⟨hpc, hi⟩
  | rel idx =>
      simp only [hpc] at hev
      rcases List.mem_cons.mp hev with rfl | hev
      · exact .divide _
      split at hev
      · exact absurd hev List.not_mem_nil
      next hent =>
      split at hev
      next hidx =>
        rcases List.mem_append.mp hev with hev | hev
        · obtain ⟨_, _, rfl⟩ | ⟨_, rfl⟩ := mem_doRelocEvents hev
          · exact .useSection _ _
          · exact .divide _
        · split at hev
          · exact absurd hev List.not_mem_nil
          next r m' hdo =>
          split at hev
          next hr =>
            rw [List.mem_singleton.mp hev]
            exact .relocFailed ⟨idx, hpc, hent, hidx, m', hr ▸ hdo⟩
          · exact absurd hev List.not_mem_nil
      · exact absurd hev List.not_mem_nil

/-! ## What the call returns -/

/-- The loop over the relocations ends early with the message. -/
theorem relocLoop_eq_false_iff (sect : U32) (fuel : Nat) :
    (∃ m1, relocLoop lookupSymbol ehdr sect fuel idx m = some (false, m1)) ↔
      .relocFailed ∈ relocLoopEvents lookupSymbol ehdr sect fuel idx m := by
  induction fuel generalizing idx m with
  | zero => simp [relocLoop, relocLoopEvents]
  | succ fuel ih =>
      rw [relocLoop, relocLoopEvents]
      by_cases hent : shEntsize m sect = 0
      · simp [hent]
      by_cases hidx : idx < shSize m sect / shEntsize m sect
      · simp only [if_neg hent, if_pos hidx, List.mem_cons, List.mem_append, reduceCtorEq,
          false_or, or_iff_right relocFailed_notMem]
        cases doReloc lookupSymbol m ehdr
            (ehdr + shOffset m sect + BitVec.ofNat 32 relSize * idx) sect with
        | none => simp
        | some out =>
            obtain ⟨r, m'⟩ := out
            by_cases hr : r = 0
            · simp [hr]
            · simp only [if_neg hr, Option.bind_eq_bind, Option.bind_some]
              exact ih
      · simp [hidx]

theorem loaded_notMem {sect entry : U32} (fuel : Nat) :
    .loaded entry ∉ relocLoopEvents lookupSymbol ehdr sect fuel idx m := by
  induction fuel generalizing idx m with
  | zero => exact List.not_mem_nil
  | succ fuel ih =>
      rw [relocLoopEvents]
      by_cases hent : shEntsize m sect = 0
      · simp [hent]
      by_cases hidx : idx < shSize m sect / shEntsize m sect
      · simp only [if_neg hent, if_pos hidx, List.mem_cons, List.mem_append, reduceCtorEq,
          false_or, not_or]
        constructor
        · intro h
          obtain ⟨_, _, h⟩ | ⟨_, h⟩ := mem_doRelocEvents h
          · cases h
          · cases h
        · cases doReloc lookupSymbol m ehdr
              (ehdr + shOffset m sect + BitVec.ofNat 32 relSize * idx) sect with
          | none => exact List.not_mem_nil
          | some out =>
              obtain ⟨r, m'⟩ := out
              by_cases hr : r = 0
              · simp [hr]
              · simp only [if_neg hr]
                exact ih
      · simp [hidx]

/-- The loop over the section headers returns 0 with the one message, and the entry with the
other. -/
theorem loadLoop_returns_iff {r : U32} (fuel : Nat) :
    (∃ m' h', loadLoop malloc lookupSymbol ehdr shdr fuel i m h = some (r, m', h')) ↔
      r = 0 ∧ .relocFailed ∈ loadLoopEvents malloc lookupSymbol ehdr shdr fuel i m h ∨
        .loaded r ∈ loadLoopEvents malloc lookupSymbol ehdr shdr fuel i m h := by
  induction fuel generalizing i m h with
  | zero => simp [loadLoop, loadLoopEvents]
  | succ fuel ih =>
      rw [loadLoop, loadLoopEvents]
      generalize h32 : 2 ^ 32 = turns
      by_cases hi : i < eShnum m ehdr
      · obtain ⟨sect, hsect⟩ : ∃ sect, shdr + BitVec.ofNat 32 shdrSize * i.setWidth 32 = sect :=
          ⟨_, rfl⟩
        simp only [if_pos hi, hsect]
        by_cases hrel : shType m sect = shtRel
        · simp only [if_pos hrel, List.mem_append, or_iff_right (loaded_notMem turns),
            ← relocLoop_eq_false_iff sect turns]
          cases relocLoop lookupSymbol ehdr sect turns 0 m with
          | none => simp
          | some out =>
              obtain ⟨done, m1⟩ := out
              cases done with
              | false =>
                  simp
                  exact eq_comm
              | true =>
                  simp only [Option.bind_eq_bind, Option.bind_some, if_true, Option.some.injEq,
                    Prod.mk.injEq, Bool.true_eq_false, false_and, exists_false, false_or]
                  exact ih
        by_cases hbits : shType m sect = shtNobits
        · have hfailed : .relocFailed ∉ loadNobitsEvents malloc sect m h := fun hev =>
            (mem_loadNobitsEvents hev).elim nofun nofun
          have hloaded : .loaded r ∉ loadNobitsEvents malloc sect m h := fun hev =>
            (mem_loadNobitsEvents hev).elim nofun nofun
          simp only [if_neg hrel, if_pos hbits, List.mem_append, or_iff_right hfailed,
            or_iff_right hloaded]
          exact ih
        · simp only [if_neg hrel, if_neg hbits]
          exact ih
      · simp [if_neg hi, @eq_comm _ r]

/-- **What the call returns.** -/
theorem elfLoadFile_returns_iff {file r : U32} :
    (∃ m' h', elfLoadFile malloc lookupSymbol m h file = some (r, m', h')) ↔
      r = 0 ∧ (¬ IsLoaded m file ∨ .relocFailed ∈ elfLoadFileEvents malloc lookupSymbol m h file) ∨
        .loaded r ∈ elfLoadFileEvents malloc lookupSymbol m h file := by
  rw [elfLoadFile, elfLoadFileEvents]
  by_cases hload : IsLoaded m file
  · obtain ⟨h0, hsup, hrel⟩ := hload
    rw [if_neg h0, if_neg (not_not.mpr hsup), if_pos hrel, if_pos ⟨h0, hsup, hrel⟩, loadRel,
      loadLoop_returns_iff, or_iff_right (not_not.mpr ⟨h0, hsup, hrel⟩)]
  · have hnull : (if file = 0 then some (0, m, h)
        else if ¬ checkSupported m file then some (0, m, h)
        else if eType m file = etRel then loadRel malloc lookupSymbol m h file
        else some (0, m, h)) = some (0, m, h) := by
      by_cases h0 : file = 0
      · rw [if_pos h0]
      by_cases hsup : checkSupported m file = true
      · rw [if_neg h0, if_neg (not_not.mpr hsup), if_neg fun hrel => hload ⟨h0, hsup, hrel⟩]
      · rw [if_neg h0, if_pos hsup]
    rw [hnull, if_neg hload]
    simp [hload]
    exact eq_comm

end Tomk
