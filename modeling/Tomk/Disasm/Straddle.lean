/-
# Fetches over the end of a page

`fetch_word` and `fetch_dword` ask `pg_virt2phys` about the first of their bytes, and then read
two or four.  A row of fetches reads mapped bytes only if each field whose first byte is
mapped is mapped to its end (`Whole`), and since the turns of the loop and the rows that they fetch are known,
so is the condition under which the whole run is safe (`mnemDecode_neverFaults_iff`).

Where the tables map themselves, a field in a single page is always whole
(`whole_of_inPages`), so that only a word or a dword over the end of a page can break
the condition.
-/
import Tomk.Disasm.PrefixLoop

namespace Tomk.Disasm

open Early I386 Relation

variable {mmu : Mmu} {addr offset : U32} {c : BitVec 16} {m m' m0 : Mnem} {l : List U8} {b : U8}
  {p : List Nat} {k : Nat}

/-! ## What a row of fetches reads -/

/-- The addresses that fetches of the widths `p` read. -/
def readAt (mmu : Mmu) (offset : U32) : List Nat → BitVec 16 → List U32
  | [], _ => []
  | k :: p, c =>
      let va := offset + c.setWidth 32
      if Mapped mmu va then
        (List.range k).map (fun i => va + BitVec.ofNat 32 i)
          ++ if Readable mmu va k then readAt mmu offset p (c + BitVec.ofNat 16 k) else []
      else []

/-- Each field of `p` that is fetched is mapped to its end. -/
def Whole (mmu : Mmu) (offset : U32) : List Nat → BitVec 16 → Prop
  | [], _ => True
  | k :: p, c =>
      let va := offset + c.setWidth 32
      pgVirt2phys mmu va ≠ none ∧ (Mapped mmu va → Readable mmu va k ∧
        (∀ i < k, Mapped mmu (va + BitVec.ofNat 32 i)) ∧ Whole mmu offset p (c + BitVec.ofNat 16 k))

theorem whole_of_stuck (h : Stuck mmu offset c) (p : List Nat) : Whole mmu offset p c := by
  cases p with
  | nil => trivial
  | cons k p => exact ⟨fun hno => Option.some_ne_none _ (h.symm.trans hno), fun hm => absurd hm h.not_mapped⟩

/-- **A row is whole** if its fetches do not fault, and read nothing that is not mapped. -/
theorem whole_iff : Whole mmu offset p c
    ↔ advance mmu offset p c ≠ none ∧ ∀ va ∈ readAt mmu offset p c, Mapped mmu va := by
  induction p generalizing c with
  | nil =>
      exact iff_of_true trivial
        ⟨Option.some_ne_none _, fun _ hva => absurd hva List.not_mem_nil⟩
  | cons k p ih =>
      have hcases : Mapped mmu (offset + c.setWidth 32) ∨ ¬ Mapped mmu (offset + c.setWidth 32) :=
        em _
      rw [Whole, readAt, advance]
      rcases hcases with hmap | hmap
      · obtain ⟨phys, hphys, h0⟩ := id hmap
        simp only [if_pos hmap, hphys, Option.bind_some, if_neg h0]
        by_cases hread : Readable mmu (offset + c.setWidth 32) k
        · simp only [if_pos hread, ih, List.forall_mem_append, List.forall_mem_map, List.mem_range]
          constructor
          · rintro ⟨-, h⟩
            obtain ⟨-, hbytes, hadv, hrest⟩ := h hmap
            exact ⟨hadv, hbytes, hrest⟩
          · rintro ⟨hadv, hbytes, hrest⟩
            exact ⟨Option.some_ne_none _, fun _ => ⟨hread, hbytes, hadv, hrest⟩⟩
        · simp only [if_neg hread]
          exact iff_of_false (fun h => hread (h.2 hmap).1) fun h => h.1 rfl
      · simp only [if_neg hmap]
        cases hphys : pgVirt2phys mmu (offset + c.setWidth 32) with
        | none => exact iff_of_false (fun h => h.1 rfl) fun h => h.1 rfl
        | some phys =>
            have h0 : phys = 0 := by
              by_contra h0
              exact hmap ⟨phys, hphys, h0⟩
            rw [Option.bind_some, if_pos h0]
            exact iff_of_true ⟨Option.some_ne_none _, fun h => absurd h hmap⟩
              ⟨Option.some_ne_none _, fun _ hva => absurd hva List.not_mem_nil⟩

/-! ## Fields in a single page -/

/-- The rest of a page is mapped with its first byte. -/
theorem mapped_of_samePage (hself : SelfMapped mmu.mem mmu.cr3) {va : U32} (hmap : Mapped mmu va)
    {i : Nat} (hi : va.toNat % 4096 + i < 4096) : Mapped mmu (va + BitVec.ofNat 32 i) ∧
      (loadByte (va + BitVec.ofNat 32 i) mmu).isSome := by
  have hsum : (va + BitVec.ofNat 32 i).toNat = va.toNat + i := by
    have hlt := va.isLt
    rw [BitVec.toNat_add, BitVec.toNat_ofNat]
    omega
  have hwalk : walk mmu.mem mmu.cr3 (va + BitVec.ofNat 32 i) = walk mmu.mem mmu.cr3 va := by
    have hpage : (va + BitVec.ofNat 32 i).toNat / 4096 = va.toNat / 4096 := by omega
    obtain ⟨hpd, hpt⟩ := page_eq_iff.mpr hpage
    rw [walk, walk, hpd, hpt]
  obtain ⟨phys, hphys, h0⟩ := hmap
  rw [pgVirt2phys_eq hself, Option.some.injEq] at hphys
  cases hframe : walk mmu.mem mmu.cr3 va with
  | none =>
      rw [hframe] at hphys
      exact absurd hphys.symm h0
  | some f =>
      rw [hframe, physOf] at hphys
      refine ⟨⟨_, pgVirt2phys_eq hself _, ?_⟩, ?_⟩
      · rw [hwalk, hframe, physOf]
        intro hzero
        obtain ⟨hoff, hbase⟩ := BitVec.or_eq_zero_iff.mp hzero
        have hoff := congrArg BitVec.toNat hoff
        rw [toNat_pageOffset, hsum] at hoff
        have hva : va &&& (pageSize - 1) = 0#32 := by
          apply BitVec.eq_of_toNat_eq
          rw [toNat_pageOffset]
          have : (0#32).toNat = 0 := rfl
          omega
        exact h0 (hphys.symm.trans (BitVec.or_eq_zero_iff.mpr ⟨hva, hbase⟩))
      · rw [loadByte, Mmu.load, hwalk, hframe]
        rfl

/-- Each field of `p` lies in a single page. -/
def InPages (offset : U32) : List Nat → BitVec 16 → Prop
  | [], _ => True
  | k :: p, c =>
      (offset + c.setWidth 32).toNat % 4096 + k ≤ 4096 ∧ InPages offset p (c + BitVec.ofNat 16 k)

/-- **Only a field over the end of a page** can fail to be whole. -/
theorem whole_of_inPages (hself : SelfMapped mmu.mem mmu.cr3) (h : InPages offset p c) :
    Whole mmu offset p c := by
  induction p generalizing c with
  | nil => trivial
  | cons k p ih =>
      obtain ⟨hk, hp⟩ := h
      refine ⟨fun hno => ?_, fun hmap => ⟨fun i hi => ?_, fun i hi => ?_, ih hp⟩⟩
      · rw [pgVirt2phys_eq hself] at hno
        cases hno
      · exact (mapped_of_samePage hself hmap (by omega)).2
      · exact (mapped_of_samePage hself hmap (by omega)).1

/-- The first byte never lies over the end of a page. -/
theorem inPages_byte (offset : U32) (c : BitVec 16) : InPages offset [1] c := by
  have hlt := Nat.mod_lt (offset + c.setWidth 32).toNat (show 4096 > 0 by omega)
  exact ⟨hlt, trivial⟩

/-! ## The run -/

/-- The run of `x` comes back, and what its row `p` reads is mapped. -/
structure ReadsMapped {α : Type} (mmu : Mmu) (x : Dec α) (m : Mnem) (p : List Nat) : Prop where
  comes : x mmu m ≠ none
  reads : ∀ va ∈ readAt mmu m.offset p m.counter, Mapped mmu va

/-- The decoder at `addr` never faults: no turn of its loop does, and neither does the fetch of
the first byte. -/
structure NeverFaults (mmu : Mmu) (addr : U32) (m0 : Mnem) : Prop where
  first : ReadsMapped mmu (call fetchOpcode) (next addr m0) [1]
  turns : ∀ r m m', fetchFirst addr mmu m0 = some (r, m) → Reached mmu m m' →
    ReadsMapped mmu decodeOpcode m' (m'.row mmu)

theorem readsMapped_iff {α : Type} {x : Dec α} {Q : Option α → Mnem → Prop}
    (h : Ends x mmu m (advance mmu m.offset p m.counter = none) fun r m' =>
      Q r m' ∧ advance mmu m.offset p m.counter = some m'.counter) :
    ReadsMapped mmu x m p ↔ Whole mmu m.offset p m.counter := by
  have hcomes : x mmu m ≠ none ↔ advance mmu m.offset p m.counter ≠ none := by
    rw [Ends] at h
    cases hrun : x mmu m with
    | none =>
        rw [hrun] at h
        exact iff_of_false (fun hne => hne rfl) fun hne => hne h
    | some r =>
        rw [hrun] at h
        rw [h.2]
        exact iff_of_true (Option.some_ne_none _) (Option.some_ne_none _)
  rw [whole_iff, ← hcomes]
  exact ⟨fun h => ⟨h.comes, h.reads⟩, fun h => ⟨h.1, h.2⟩⟩

theorem readsMapped_turn (hz : m.modrm = 0) :
    ReadsMapped mmu decodeOpcode m (m.row mmu) ↔ Whole mmu m.offset (m.row mmu) m.counter :=
  readsMapped_iff (decodeOpcode_row mmu hz)

/-- The first byte, and what is fetched behind each row of prefixes, are mapped to their ends. -/
structure FieldsWhole (mmu : Mmu) (addr : U32) : Prop where
  first : Whole mmu addr [1] 0
  behind : ∀ l b, PrefixRow mmu addr l → CodeByte mmu addr l.length b →
    Whole mmu addr (rowBehind mmu addr l b) (BitVec.ofNat 16 (l.length + 1))

theorem readsMapped_first (mmu : Mmu) (addr : U32) (m0 : Mnem) :
    ReadsMapped mmu (call fetchOpcode) (next addr m0) [1] ↔ Whole mmu addr [1] 0 :=
  readsMapped_iff (Q := fun _ _ => True) <|
    Ends.call (takes_fetchOpcode mmu (next addr m0)) fun _ _ h => ⟨trivial, h.1⟩

theorem FieldsWhole.neverFaults (h : FieldsWhole mmu addr) (m0 : Mnem) :
    NeverFaults mmu addr m0 := by
  refine ⟨(readsMapped_first mmu addr m0).mpr h.first, fun r m m' hrun hreach => ?_⟩
  obtain ⟨b, hb, hat⟩ | ⟨hstuck, rfl⟩ := fetchFirst_cases hrun
  · obtain ⟨l, b', hrow, hb', hat'⟩ := hat.reached hb hreach
    refine (readsMapped_turn hat'.modrm).mpr ?_
    rw [hat'.row, hat'.offset, hat'.counter]
    exact h.behind l b' hrow hb'
  · -- the opcode is that of the last run, and all fetches fail
    obtain rfl | ⟨m1, hturn, -⟩ := hreach.cases_head
    · exact (readsMapped_turn rfl).mpr (whole_of_stuck hstuck _)
    · exact absurd hturn (not_turn_of_stuck (m := next addr m0) rfl hstuck)

/-- The fields behind each row of prefixes lie in single pages. -/
def FieldsInPages (mmu : Mmu) (addr : U32) : Prop :=
  ∀ l b, PrefixRow mmu addr l → CodeByte mmu addr l.length b →
    InPages addr (rowBehind mmu addr l b) (BitVec.ofNat 16 (l.length + 1))

theorem FieldsInPages.whole (h : FieldsInPages mmu addr) (hself : SelfMapped mmu.mem mmu.cr3) :
    FieldsWhole mmu addr :=
  ⟨whole_of_inPages hself (inPages_byte addr 0),
    fun l b hrow hb => whole_of_inPages hself (h l b hrow hb)⟩

/-- **`i80386_mnem_decode` never faults** if and only if no field that it fetches lies over the end of
what is mapped.  Where the tables map themselves it is enough that no field lies over the
end of a page. -/
theorem mnemDecode_neverFaults_iff (mmu : Mmu) (addr : U32) (m0 : Mnem) :
    (NeverFaults mmu addr m0 ↔ FieldsWhole mmu addr) ∧
      (SelfMapped mmu.mem mmu.cr3 → FieldsInPages mmu addr → NeverFaults mmu addr m0) := by
  refine ⟨⟨fun h => ⟨(readsMapped_first mmu addr m0).mp h.first, fun l b hrow hb => ?_⟩,
    fun h => h.neverFaults m0⟩, fun hself h => (h.whole hself).neverFaults m0⟩
  obtain ⟨b0, hb0⟩ := hrow.first hb
  obtain ⟨m, hat, hrun⟩ := fetchFirst_run hb0 m0
  obtain ⟨m', hreach, hat'⟩ := hat.reaches hb0 hrow hb
  have hturn := (readsMapped_turn hat'.modrm).mp (h.turns _ m m' hrun hreach)
  rwa [hat'.row, hat'.offset, hat'.counter] at hturn

/-- `add eax, imm32` in the last two bytes of what is mapped. -/
theorem mnemDecode_straddle :
    ¬ NeverFaults (codeMmu (List.replicate 1024 0x05050505)) 0x1FFE (Mnem.zero .empty) := by
  intro h
  have hfault : (fetchFirst 0x1FFE (codeMmu (List.replicate 1024 0x05050505))
      (Mnem.zero .empty)).any fun r =>
        (decodeOpcode (codeMmu (List.replicate 1024 0x05050505)) r.2).isNone := by decide +kernel
  obtain ⟨⟨r, m⟩, hrun, hnone⟩ := (Option.any_eq_true _ _).mp hfault
  exact (h.turns r m m hrun .refl).comes (Option.isNone_iff_eq_none.mp hnone)

end Tomk.Disasm
