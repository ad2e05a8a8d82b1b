/-
# Files that the loader does not rewrite

What the loader does with a file is decided by words that it reads while it goes on, and it writes to
memory on its way: the words of the relocations, the blocks that it allocates, and the offsets of their
sections.  Nothing keeps these apart, for no offset in the file is checked.  In a file whose words and blocks
lie apart from all that is read behind them (`Intact`), the pass reads what was there before the
call, but for the offsets of the sections that memory has been allocated for (`imageAt`).  So it can be told
from the file where it comes to (`Reaches`), and the turns of the call are these and no others
(`Intact.comes_sect`, `Intact.comes_rel`, `Intact.comes_cases`).
-/
import Tomk.Elf.Events
import Tomk.Elf.LoadRel

namespace Tomk

open ByteMem Relation

section

variable (m : Mem) (e : U32) {H : Type} (malloc : H → U32 → U32 × H) (lookupSymbol : List U8 → U32) (h : H)

/-! ## Where the pass comes to -/

/-- The image when the pass is at section `i`. -/
def imageAt : Nat → Mem
  | 0 => m
  | i + 1 =>
      if Allocates m e i then store32 (imageAt i) (secAt m e i + 16) (block m e malloc h i - e)
      else imageAt i

/-- Relocation `j` of section `k` can be done, with another value than 0. -/
def GoesOn (k j : Nat) : Prop :=
  RelocGoesOn lookupSymbol (imageAt m e malloc h k) e (relAt m e k j) (secAt m e k)

/-- The pass comes to relocation `n` of section `i`, and with `n = 0` to the section. -/
structure Reaches (i n : Nat) : Prop where
  entsize : ∀ k < i, secType m e k = shtRel → shEntsize m (secAt m e k) ≠ 0
  before : ∀ k < i, secType m e k = shtRel → ∀ j < entryCount m e k, GoesOn m e malloc lookupSymbol h k j
  here : ∀ j < n, GoesOn m e malloc lookupSymbol h i j

/-- An address that is read from relocation `n` of section `i` on. -/
inductive ReadFrom (i n : Nat) (x : U32) : Prop
  | header : InRange e ehdrSize x → ReadFrom i n x
  | table : InRange (sheader m e) (shdrSize * secCount m e) x → ReadFrom i n x
  | reloc (k j : Nat) : i < k ∨ i = k ∧ n ≤ j → IsEntry m e k j → Reaches m e malloc lookupSymbol h k j →
      RelocReads (imageAt m e malloc h k) e (relAt m e k j) (secAt m e k) x → ReadFrom i n x

/-- What the pass writes is not read behind it.  The offset of a section is in the table of the section
headers, and expected to change; it is not in the header of the file. -/
structure Intact : Prop where
  word : ∀ k j, IsEntry m e k j → Reaches m e malloc lookupSymbol h k j →
    GoesOn m e malloc lookupSymbol h k j → ∀ x, ReadFrom m e malloc lookupSymbol h k (j + 1) x →
      ¬ RelocWord (imageAt m e malloc h k) e (relAt m e k j) (secAt m e k) x
  block : ∀ k, k < secCount m e → Allocates m e k → Reaches m e malloc lookupSymbol h k 0 →
    ∀ x, ReadFrom m e malloc lookupSymbol h (k + 1) 0 x →
      ¬ InRange (block m e malloc h k) (secSize m e k) x
  offset : ∀ k, k < secCount m e → Allocates m e k → Reaches m e malloc lookupSymbol h k 0 →
    ∀ x, InRange e ehdrSize x → ¬ InRange (secAt m e k + 16) 4 x

/-- The pass is at relocation `n` of section `i`: what it reads from there on is in memory as in the
image. -/
def Tracks (i n : Nat) (m' : Mem) : Prop :=
  ∀ x, ReadFrom m e malloc lookupSymbol h i n x → m' x = imageAt m e malloc h i x

/-- At section `i`. -/
def sectTurn (i : Nat) (m' : Mem) : Pass H := ⟨BitVec.ofNat 16 i, .sect, m', heapAt m e malloc h i⟩

/-- At relocation `n` of it. -/
def relTurn (i n : Nat) (m' : Mem) : Pass H :=
  ⟨BitVec.ofNat 16 i, .rel (BitVec.ofNat 32 n), m', heapAt m e malloc h i⟩

end

variable {m m' : Mem} {e : U32} {H : Type} {malloc : H → U32 → U32 × H} {lookupSymbol : List U8 → U32} {h : H}
  {i j k n : Nat} {x : U32}

theorem GoesOn.sound (hg : GoesOn m e malloc lookupSymbol h k j) :
    RelocSound (imageAt m e malloc h k) e (relAt m e k j) (secAt m e k) := hg.1.sound

theorem Reaches.start : Reaches m e malloc lookupSymbol h 0 0 :=
  ⟨fun _ hk => absurd hk (Nat.not_lt_zero _), fun _ hk => absurd hk (Nat.not_lt_zero _), nofun⟩

theorem Reaches.le (hr : Reaches m e malloc lookupSymbol h i n) (hj : j ≤ n) :
    Reaches m e malloc lookupSymbol h i j :=
  ⟨hr.entsize, hr.before, fun j' hj' => hr.here j' (by omega)⟩

/-- It has come to all sections before. -/
theorem Reaches.sect (hr : Reaches m e malloc lookupSymbol h i n) (hk : k < i) :
    Reaches m e malloc lookupSymbol h k 0 :=
  ⟨fun k' hk' => hr.entsize k' (by omega), fun k' hk' => hr.before k' (by omega), nofun⟩

theorem Reaches.done (hr : Reaches m e malloc lookupSymbol h i n) (hk : k < i)
    (ht : secType m e k = shtRel) : Reaches m e malloc lookupSymbol h k (entryCount m e k) :=
  ⟨(hr.sect hk).entsize, (hr.sect hk).before, hr.before k hk ht⟩

theorem Reaches.succ (hr : Reaches m e malloc lookupSymbol h i n)
    (hg : GoesOn m e malloc lookupSymbol h i n) : Reaches m e malloc lookupSymbol h i (n + 1) := by
  refine ⟨hr.entsize, hr.before, fun j hj => ?_⟩
  rcases Nat.lt_succ_iff_lt_or_eq.mp hj with hj | rfl
  · exact hr.here j hj
  · exact hg

/-- And it goes on to the next one. -/
theorem Reaches.next (hr : Reaches m e malloc lookupSymbol h i n)
    (hrel : secType m e i = shtRel → shEntsize m (secAt m e i) ≠ 0 ∧ n = entryCount m e i) :
    Reaches m e malloc lookupSymbol h (i + 1) 0 := by
  refine ⟨fun k hk ht => ?_, fun k hk ht j hj => ?_, nofun⟩
  · rcases Nat.lt_succ_iff_lt_or_eq.mp hk with hk | rfl
    · exact hr.entsize k hk ht
    · exact (hrel ht).1
  · rcases Nat.lt_succ_iff_lt_or_eq.mp hk with hk | rfl
    · exact hr.before k hk ht j hj
    · exact hr.here j ((hrel ht).2 ▸ hj)

theorem ReadFrom.later {i' n' : Nat} (hlt : i < i' ∨ i = i' ∧ n ≤ n')
    (hx : ReadFrom m e malloc lookupSymbol h i' n' x) : ReadFrom m e malloc lookupSymbol h i n x := by
  cases hx with
  | header hx => exact .header hx
  | table hx => exact .table hx
  | reloc k j hle hj hr hx => exact .reloc k j (by omega) hj hr hx

/-- The section headers, as the loop counts them. -/
theorem secAt_of_lt (hi : i < secCount m e) :
    Tomk.sheader m e + BitVec.ofNat 32 shdrSize * (BitVec.ofNat 16 i).setWidth 32 = secAt m e i :=
  secAt_of16 m e (Nat.lt_trans hi (secCount_lt m e))

/-- A section whose entries have no size has none. -/
theorem IsEntry.entsize_ne (hj : IsEntry m e k j) : shEntsize m (secAt m e k) ≠ 0 := by
  intro h0
  have hlt := hj.2.2
  rw [entryCount, h0, BitVec.toNat_udiv] at hlt
  exact Nat.not_lt_zero j (hlt.trans_eq (Nat.div_zero _))

/-! ## The image -/

/-- Outside of the offsets it is the file. -/
theorem imageAt_other (hx : ∀ k < i, Allocates m e k → ¬ InRange (secAt m e k + 16) 4 x) :
    imageAt m e malloc h i x = m x := by
  induction i with
  | zero => rfl
  | succ i ih =>
      have hi := ih fun k hk => hx k (by omega)
      rw [imageAt]
      split
      next ha => rw [store32_other (hx i (Nat.lt_succ_self i) ha), hi]
      next => exact hi

/-- The section headers are those of the file, but for the offsets. -/
theorem imageAt_field (hi : i ≤ secCount m e) (hk : k < secCount m e)
    (hx : InRange (secAt m e k) shdrSize x)
    (hno : Allocates m e k → ¬ InRange (secAt m e k + 16) 4 x) : imageAt m e malloc h i x = m x := by
  refine imageAt_other fun s hs ha hin => ?_
  by_cases heq : k = s
  · subst heq
    exact hno ha hin
  · exact not_inRange_header hk (by omega) heq hx (inRange_field hin)

theorem Pass.AtEnd.next {s : Pass H} {shdr : U32} (hend : s.AtEnd e) :
    s.next malloc lookupSymbol e shdr = none := by
  rw [Pass.next, hend.1]
  exact if_neg hend.2

variable (hu : Intact m e malloc lookupSymbol h)

include hu

theorem Intact.header (hr : Reaches m e malloc lookupSymbol h i n) (hi : i ≤ secCount m e)
    (hx : InRange e ehdrSize x) : imageAt m e malloc h i x = m x :=
  imageAt_other fun k hk ha => hu.offset k (by omega) ha (hr.sect hk) x hx

theorem Intact.shnum (hr : Reaches m e malloc lookupSymbol h i n) (hi : i ≤ secCount m e) :
    eShnum (imageAt m e malloc h i) e = eShnum m e :=
  load16_congr fun x hx => hu.header hr hi (hx.sub (d := 48) (by decide) (by decide))

theorem Intact.sheader (hr : Reaches m e malloc lookupSymbol h i n) (hi : i ≤ secCount m e) :
    sheader (imageAt m e malloc h i) e = sheader m e := by
  have hoff : eShoff (imageAt m e malloc h i) e = eShoff m e := load32_congr fun x hx =>
    hu.header hr hi (hx.sub (d := 32) (by decide) (by decide))
  rw [Tomk.sheader, hoff, Tomk.sheader]

/-! ## What the pass reads -/

section

variable (hr : Reaches m e malloc lookupSymbol h i n) (hi : i ≤ secCount m e)
  (ht : Tracks m e malloc lookupSymbol h i n m')

include hr hi ht

theorem Intact.tracksHeader (hx : InRange e ehdrSize x) : m' x = m x := by
  rw [ht x (.header hx), hu.header hr hi hx]

theorem Intact.tracksShnum : eShnum m' e = eShnum m e :=
  load16_congr fun _ hx => hu.tracksHeader hr hi ht (hx.sub (d := 48) (by decide) (by decide))

/-- The condition of the loop over the sections. -/
theorem Intact.tracks_lt_iff : BitVec.ofNat 16 i < eShnum m' e ↔ i < secCount m e := by
  rw [hu.tracksShnum hr hi ht]
  exact ofNat_lt_shnum (Nat.lt_of_le_of_lt hi (secCount_lt m e))

theorem Intact.tracksEntry : eEntry m' e = eEntry m e :=
  load32_congr fun _ hx => hu.tracksHeader hr hi ht (hx.sub (d := 24) (by decide) (by decide))

omit hu hr in
/-- The fields of a section header, and the offset of a section without memory. -/
theorem Tracks.field (hk : k < secCount m e) {d : Nat} (hd : d + 4 ≤ shdrSize)
    (hoff : d + 4 ≤ 16 ∨ 20 ≤ d ∨ ¬ Allocates m e k) :
    load32 m' (secAt m e k + BitVec.ofNat 32 d) = load32 m (secAt m e k + BitVec.ofNat 32 d) := by
  refine load32_congr fun x hx => ?_
  have hin : InRange (secAt m e k) shdrSize x := hx.sub hd (by decide)
  rw [ht x (.table (inRange_table hk hin))]
  refine imageAt_field hi hk hin fun ha hoffset => ?_
  have h1 := hx.offset (by simp only [shdrSize] at hd; omega)
  have h2 := InRange.offset (d := 16) hoffset (by decide)
  rcases hoff with h | h | h
  · omega
  · omega
  · exact h ha

omit hu hr in
theorem Tracks.type (hk : k < secCount m e) : shType m' (secAt m e k) = secType m e k :=
  ht.field hi hk (d := 4) (by decide) (Or.inl (by decide))

omit hu hr in
theorem Tracks.flags (hk : k < secCount m e) : shFlags m' (secAt m e k) = shFlags m (secAt m e k) :=
  ht.field hi hk (d := 8) (by decide) (Or.inl (by decide))

omit hu hr in
theorem Tracks.size (hk : k < secCount m e) : shSize m' (secAt m e k) = shSize m (secAt m e k) :=
  ht.field hi hk (d := 20) (by decide) (Or.inr (Or.inl (by decide)))

omit hu hr in
theorem Tracks.entsize (hk : k < secCount m e) :
    shEntsize m' (secAt m e k) = shEntsize m (secAt m e k) :=
  ht.field hi hk (d := 36) (by decide) (Or.inr (Or.inl (by decide)))

omit hu hr in
/-- The condition of the loop over the relocations. -/
theorem Tracks.more_iff (hk : k < secCount m e) (hj : j ≤ entryCount m e k) :
    BitVec.ofNat 32 j < shSize m' (secAt m e k) / shEntsize m' (secAt m e k) ↔ j < entryCount m e k := by
  rw [ht.size hi hk, ht.entsize hi hk,
    ofNat_lt_entries (Nat.lt_of_le_of_lt hj (entryCount_lt m e k))]

omit hu hr hi in
/-- A relocation that is there is in memory too. -/
theorem Tracks.more (hj : IsEntry m e i n) :
    BitVec.ofNat 32 n < shSize m' (secAt m e i) / shEntsize m' (secAt m e i) :=
  (ht.more_iff (Nat.le_of_lt hj.1) hj.1 (Nat.le_of_lt hj.2.2)).mpr hj.2.2

omit hu hr hi in
theorem Tracks.entsize_ne (hj : IsEntry m e i n) : shEntsize m' (secAt m e i) ≠ 0 := by
  rw [ht.entsize (Nat.le_of_lt hj.1) hj.1]
  exact hj.entsize_ne

omit hu hr in
theorem Tracks.relocAt (hk : k < secCount m e) (hrel : secType m e k = shtRel) :
    relocAt m' e (secAt m e k) (BitVec.ofNat 32 j) = relAt m e k j := by
  have hoff : shOffset m' (secAt m e k) = secOffset m e k :=
    ht.field hi hk (d := 16) (by decide)
      (Or.inr (Or.inr fun ha => shtRel_ne (hrel.symm.trans ha.1)))
  rw [Tomk.relocAt, hoff, relAt]

/-- A relocation that the pass comes to is in memory as in the image. -/
theorem Intact.agrees (hj : IsEntry m e i n) :
    ReadsAgree (imageAt m e malloc h i) m' e (relAt m e i n) (secAt m e i) where
  header x hx := ht x (.header hx)
  table x hx := by
    rw [hu.sheader hr hi, hu.shnum hr hi] at hx
    exact ht x (.table hx)
  header_of := by
    have hlt := secCount_lt m e
    have hk := hj.1
    refine ⟨BitVec.ofNat 32 i, ?_, ?_⟩
    · rw [hu.shnum hr hi, BitVec.toNat_ofNat, Nat.mod_eq_of_lt (by omega)]
      exact hk
    · rw [sectionOf, hu.sheader hr hi, secAt, sectionOf]
  reads x hx := ht x (.reloc i n (Or.inr ⟨rfl, Nat.le_refl n⟩) hj hr hx)

end

/-! ## The turns -/

section

variable (hr : Reaches m e malloc lookupSymbol h i n) (ht : Tracks m e malloc lookupSymbol h i n m')

include hr ht

/-- **A relocation**: it is done if the pass goes on behind it. -/
theorem Intact.doReloc (hj : IsEntry m e i n)
    (hs : RelocSound (imageAt m e malloc h i) e (relAt m e i n) (secAt m e i)) :
    ∃ r m'', doReloc lookupSymbol m' e (relAt m e i n) (secAt m e i) = some (r, m'') ∧
      (r ≠ 0 ↔ GoesOn m e malloc lookupSymbol h i n) ∧
      (GoesOn m e malloc lookupSymbol h i n → Tracks m e malloc lookupSymbol h i (n + 1) m'') := by
  have a := hu.agrees hr (Nat.le_of_lt hj.1) ht hj
  obtain ⟨r, m'', hdo, hiff, hframe⟩ := doReloc_spec lookupSymbol (a.relocSound hs)
  refine ⟨r, m'', hdo, hiff.trans ⟨a.symm.goesOn, a.goesOn⟩, fun hg x hx => ?_⟩
  rw [hframe x fun hword => hu.word i n hj hr hg x hx (a.word hs hword)]
  exact ht x (hx.later (by omega))

/-- The turns of the loop over the relocations. -/
theorem Intact.next_reloc (hj : IsEntry m e i n)
    (hg : GoesOn m e malloc lookupSymbol h i n) :
    ∃ m'', (relTurn m e malloc h i n m').next malloc lookupSymbol e (Tomk.sheader m e)
        = some (relTurn m e malloc h i (n + 1) m'') ∧ Tracks m e malloc lookupSymbol h i (n + 1) m'' := by
  obtain ⟨r, m'', hdo, hiff, htracks⟩ := hu.doReloc hr ht hj hg.sound
  refine ⟨m'', ?_, htracks hg⟩
  simp only [Pass.next, relTurn, Pass.sectAt, secAt_of_lt hj.1, if_neg (ht.entsize_ne hj),
    if_pos (ht.more hj), ht.relocAt (Nat.le_of_lt hj.1) hj.1 hj.2.1, hdo, if_neg (hiff.mpr hg),
    BitVec.ofNat_add]
  rfl

/-- A relocation that the pass does not go on behind is the last turn. -/
theorem Intact.goesOn_of_next (hj : IsEntry m e i n)
    (hs : RelocSound (imageAt m e malloc h i) e (relAt m e i n) (secAt m e i)) {t : Pass H}
    (hnext : (relTurn m e malloc h i n m').next malloc lookupSymbol e (Tomk.sheader m e) = some t) :
    GoesOn m e malloc lookupSymbol h i n := by
  obtain ⟨r, m'', hdo, hiff, -⟩ := hu.doReloc hr ht hj hs
  simp only [Pass.next, relTurn, Pass.sectAt, secAt_of_lt hj.1, if_pos (ht.more hj),
    ht.relocAt (Nat.le_of_lt hj.1) hj.1 hj.2.1, hdo] at hnext
  split at hnext
  · exact absurd hnext (by simp)
  · split at hnext
    · exact absurd hnext (by simp)
    next hr0 => exact hiff.mp hr0

omit hr hu in
/-- Behind the last one it is at the next section. -/
theorem Tracks.next_done (hi : i < secCount m e) (hrel : secType m e i = shtRel)
    (hn : n = entryCount m e i) (hent : shEntsize m (secAt m e i) ≠ 0) :
    (relTurn m e malloc h i n m').next malloc lookupSymbol e (Tomk.sheader m e)
        = some (sectTurn m e malloc h (i + 1) m') ∧ Tracks m e malloc lookupSymbol h (i + 1) 0 m' := by
  have ha : ¬ Allocates m e i := fun ha => shtRel_ne (hrel.symm.trans ha.1)
  have hlt : ¬ BitVec.ofNat 32 n < shSize m' (secAt m e i) / shEntsize m' (secAt m e i) := by
    rw [ht.more_iff (Nat.le_of_lt hi) hi (Nat.le_of_eq hn)]
    omega
  have hne : shEntsize m' (secAt m e i) ≠ 0 := by rwa [ht.entsize (Nat.le_of_lt hi) hi]
  have hheap : heapAt m e malloc h (i + 1) = heapAt m e malloc h i := if_neg ha
  constructor
  · simp only [Pass.next, relTurn, sectTurn, Pass.sectAt, secAt_of_lt hi, if_neg hne, if_neg hlt, hheap,
      BitVec.ofNat_add]
    rfl
  · intro x hx
    rw [imageAt, if_neg ha]
    exact ht x (hx.later (by omega))

end

section

variable (hr : Reaches m e malloc lookupSymbol h i 0) (ht : Tracks m e malloc lookupSymbol h i 0 m')

include hr ht

/-- At a relocation section it goes into the loop. -/
theorem Intact.next_rel (hi : i < secCount m e) (hrel : secType m e i = shtRel) :
    (sectTurn m e malloc h i m').next malloc lookupSymbol e (Tomk.sheader m e)
      = some (relTurn m e malloc h i 0 m') := by
  have hlt := (hu.tracks_lt_iff hr (Nat.le_of_lt hi) ht).mpr hi
  simp only [Pass.next, sectTurn, relTurn, Pass.sectAt, secAt_of_lt hi, if_pos hlt,
    ht.type (Nat.le_of_lt hi) hi, if_pos hrel, BitVec.ofNat_eq_ofNat]

/-- At another one it allocates or does nothing, and goes on. -/
theorem Intact.next_skip (hi : i < secCount m e) (hrel : secType m e i ≠ shtRel) :
    ∃ m'', (sectTurn m e malloc h i m').next malloc lookupSymbol e (Tomk.sheader m e)
        = some (sectTurn m e malloc h (i + 1) m'') ∧ Tracks m e malloc lookupSymbol h (i + 1) 0 m'' := by
  have hle := Nat.le_of_lt hi
  have hlt := (hu.tracks_lt_iff hr hle ht).mpr hi
  have hsect := secAt_of_lt hi
  by_cases ha : Allocates m e i
  · have hbits : secType m e i = shtNobits := ha.1
    refine ⟨store32 (fill m' (Tomk.block m e malloc h i) 0 (secSize m e i)) (secAt m e i + 16)
      (Tomk.block m e malloc h i - e), ?_, fun x hx => ?_⟩
    · simp only [Pass.next, sectTurn, Pass.sectAt, hsect, if_pos hlt, ht.type hle hi, if_neg hrel,
        if_pos hbits, loadNobits_allocates (ht.size hle hi) (ht.flags hle hi) ha, BitVec.ofNat_add]
      rfl
    · rw [imageAt, if_pos ha]
      by_cases hin : InRange (secAt m e i + 16) 4 x
      · rw [store32, store32, if_pos hin, if_pos hin]
      · rw [store32_other hin, store32_other hin, fill_other (hu.block i hi ha hr x hx)]
        exact ht x (hx.later (by omega))
  · have hheap : heapAt m e malloc h (i + 1) = heapAt m e malloc h i := if_neg ha
    refine ⟨m', ?_, fun x hx => ?_⟩
    · by_cases hbits : secType m e i = shtNobits
      · simp only [Pass.next, sectTurn, Pass.sectAt, hsect, if_pos hlt, ht.type hle hi, if_neg hrel,
          if_pos hbits, loadNobits_skips (ht.size hle hi) (ht.flags hle hi) hbits ha, hheap,
          BitVec.ofNat_add]
        rfl
      · simp only [Pass.next, sectTurn, Pass.sectAt, hsect, if_pos hlt, ht.type hle hi, if_neg hrel,
          if_neg hbits, hheap, BitVec.ofNat_add]
        rfl
    · rw [imageAt, if_neg ha]
      exact ht x (hx.later (by omega))

/-- Behind the last section it ends. -/
theorem Intact.atEnd_iff (hi : i ≤ secCount m e) :
    (sectTurn m e malloc h i m').AtEnd e ↔ i = secCount m e := by
  rw [Pass.AtEnd]
  simp only [sectTurn, true_and, hu.tracks_lt_iff hr hi ht]
  omega

end

/-! ## The call -/

section

variable (hload : IsLoaded m e)

include hload

/-- **It comes to the relocations** of a section that it has come to. -/
theorem Intact.comes_loop {m1 : Mem}
    (hc : Comes malloc lookupSymbol m h e (sectTurn m e malloc h i m1))
    (ht : Tracks m e malloc lookupSymbol h i 0 m1) (hi : i < secCount m e)
    (hrel : secType m e i = shtRel) (hn : n ≤ entryCount m e i)
    (hr : Reaches m e malloc lookupSymbol h i n) :
    ∃ m', Comes malloc lookupSymbol m h e (relTurn m e malloc h i n m') ∧
      Tracks m e malloc lookupSymbol h i n m' := by
  induction n with
  | zero => exact ⟨m1, ⟨hload, hc.2.tail (hu.next_rel hr ht hi hrel)⟩, ht⟩
  | succ n ih =>
      have hle := hr.le (Nat.le_succ n)
      obtain ⟨m', hc', ht'⟩ := ih (by omega) hle
      obtain ⟨m'', hnext, ht''⟩ :=
        hu.next_reloc hle ht' ⟨hi, hrel, hn⟩ (hr.here n (Nat.lt_succ_self n))
      exact ⟨m'', ⟨hload, hc'.2.tail hnext⟩, ht''⟩

/-- **And to the sections.** -/
theorem Intact.comes_sect (hi : i ≤ secCount m e) (hr : Reaches m e malloc lookupSymbol h i 0) :
    ∃ m', Comes malloc lookupSymbol m h e (sectTurn m e malloc h i m') ∧
      Tracks m e malloc lookupSymbol h i 0 m' := by
  induction i with
  | zero => exact ⟨m, ⟨hload, .refl⟩, fun _ _ => rfl⟩
  | succ i ih =>
      have hsect := hr.sect (Nat.lt_succ_self i)
      obtain ⟨m1, hc, ht⟩ := ih (by omega) hsect
      by_cases hrel : secType m e i = shtRel
      · have hdone := hr.done (Nat.lt_succ_self i) hrel
        obtain ⟨m', hc', ht'⟩ := hu.comes_loop hload hc ht hi hrel (Nat.le_refl _) hdone
        obtain ⟨hnext, ht''⟩ := ht'.next_done hi hrel rfl (hr.entsize i (Nat.lt_succ_self i) hrel)
        exact ⟨m', ⟨hload, hc'.2.tail hnext⟩, ht''⟩
      · obtain ⟨m', hnext, ht'⟩ := hu.next_skip hsect ht hi hrel
        exact ⟨m', ⟨hload, hc.2.tail hnext⟩, ht'⟩

theorem Intact.comes_rel (hi : i < secCount m e) (hrel : secType m e i = shtRel)
    (hn : n ≤ entryCount m e i) (hr : Reaches m e malloc lookupSymbol h i n) :
    ∃ m', Comes malloc lookupSymbol m h e (relTurn m e malloc h i n m') ∧
      Tracks m e malloc lookupSymbol h i n m' := by
  obtain ⟨m1, hc, ht⟩ := hu.comes_sect hload (Nat.le_of_lt hi) (hr.le (Nat.zero_le n))
  exact hu.comes_loop hload hc ht hi hrel hn hr

end

/-- The turns that can be told from the file. -/
inductive Foreseen (m : Mem) (e : U32) (malloc : H → U32 → U32 × H) (lookupSymbol : List U8 → U32) (h : H) :
    Pass H → Prop
  | sect (i : Nat) (m' : Mem) : i ≤ secCount m e → Reaches m e malloc lookupSymbol h i 0 →
      Tracks m e malloc lookupSymbol h i 0 m' →
      Foreseen m e malloc lookupSymbol h (sectTurn m e malloc h i m')
  | rel (i n : Nat) (m' : Mem) : i < secCount m e → secType m e i = shtRel → n ≤ entryCount m e i →
      Reaches m e malloc lookupSymbol h i n → Tracks m e malloc lookupSymbol h i n m' →
      Foreseen m e malloc lookupSymbol h (relTurn m e malloc h i n m')

/-- **It comes to no others**, if all relocations that it comes to are sound. -/
theorem Intact.comes_cases
    (hsound : ∀ i n, IsEntry m e i n → Reaches m e malloc lookupSymbol h i n →
      RelocSound (imageAt m e malloc h i) e (relAt m e i n) (secAt m e i)) {s : Pass H}
    (hc : Comes malloc lookupSymbol m h e s) : Foreseen m e malloc lookupSymbol h s := by
  obtain ⟨hload, hrun⟩ := hc
  induction hrun with
  | refl => exact .sect 0 m (Nat.zero_le _) .start fun _ _ => rfl
  | @tail s t _ hnext ih =>
      rw [Pass.Turn] at hnext
      cases ih with
      | sect i m' hi hr ht =>
          rcases Nat.lt_or_eq_of_le hi with hi | rfl
          · by_cases hrel : secType m e i = shtRel
            · rw [hu.next_rel hr ht hi hrel] at hnext
              cases hnext
              exact .rel i 0 m' hi hrel (Nat.zero_le _) hr ht
            · obtain ⟨m'', hnext', ht'⟩ := hu.next_skip hr ht hi hrel
              rw [hnext'] at hnext
              cases hnext
              exact .sect (i + 1) m'' hi (hr.next fun hrel' => absurd hrel' hrel) ht'
          · -- the call has ended
            have hend := (hu.atEnd_iff hr ht (Nat.le_refl _)).mpr rfl
            rw [hend.next] at hnext
            cases hnext
      | rel i n m' hi hrel hn hr ht =>
          rcases Nat.lt_or_eq_of_le hn with hn | hn
          · have hj : IsEntry m e i n := ⟨hi, hrel, hn⟩
            have hg := hu.goesOn_of_next hr ht hj (hsound i n hj hr) hnext
            obtain ⟨m'', hnext', ht'⟩ := hu.next_reloc hr ht hj hg
            rw [hnext'] at hnext
            cases hnext
            exact .rel i (n + 1) m'' hi hrel hn (hr.succ hg) ht'
          · by_cases hent : shEntsize m (secAt m e i) = 0
            · -- the division by zero
              have hzero : shEntsize m' (secAt m e i) = 0 := by
                rwa [ht.entsize (Nat.le_of_lt hi) hi]
              simp only [Pass.next, relTurn, Pass.sectAt, secAt_of_lt hi, if_pos hzero] at hnext
              exact absurd hnext (by simp)
            · obtain ⟨hnext', ht'⟩ := ht.next_done hi hrel hn hent
              rw [hnext'] at hnext
              cases hnext
              exact .sect (i + 1) m' hi (hr.next fun _ => ⟨hent, hn⟩) ht'

end Tomk
