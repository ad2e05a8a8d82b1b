/-
# The loop over the prefixes

`i80386_decode_instruction` goes round once for each prefix, and nothing but the bytes that it
fetches decides whether it goes on.  A state that it comes to (`Reached`) stands behind a row
of prefixes that lie in memory (`AtOpcode.reached`), and the loop comes to the end of every such row
(`AtOpcode.reaches`); the bytes are counted by the counter of 16 bits, so that a row may go
round the 64 KiB behind the address any number of times.

Hence the loop ends if and only if one of these 64 KiB is not a prefix
(`decodeInstruction_terminates_iff`): there is no bound on the length of an instruction.
-/
import Mathlib.Data.List.Induction
import Mathlib.Logic.Relation
import Tomk.Disasm.Length
import Tomk.Mm.PagingSpec

namespace Tomk.Disasm

open Early I386 Relation

variable {mmu : Mmu} {addr : U32} {m m' m0 : Mnem} {l : List U8} {b b' : U8}

/-! ## Turns -/

/-- A turn of the loop, and another one after it. -/
def Turn (mmu : Mmu) (m m' : Mnem) : Prop := decodeOpcode mmu m = some (some .reqCycle, m')

/-- The loop comes from `m` to the start of a turn at `m'`. -/
def Reached (mmu : Mmu) (m m' : Mnem) : Prop := ReflTransGen (Turn mmu) m m'

theorem decodeInstruction_of_turn (h : Turn mmu m m') (n : Nat) :
    decodeInstruction (n + 1) mmu m = decodeInstruction n mmu m' := by
  rw [decodeInstruction, show decodeOpcode mmu m = _ from h]
  rfl

theorem decodeInstruction_of_last {s : Status} (h : decodeOpcode mmu m = some (some s, m'))
    (hs : s ≠ .reqCycle) (n : Nat) : decodeInstruction (n + 1) mmu m = some (s, m') := by
  have hne : (some s : Option Status) ≠ some .reqCycle := fun heq => hs (Option.some.inj heq)
  rw [decodeInstruction, h]
  exact if_neg hne

/-- **The loop comes back** from a turn that it reaches, with the number of turns large enough. -/
theorem decodeInstruction_eq_some_iff {s : Status} {mEnd : Mnem} :
    (∃ n, decodeInstruction n mmu m = some (s, mEnd))
      ↔ s ≠ .reqCycle ∧ ∃ m', Reached mmu m m' ∧ decodeOpcode mmu m' = some (some s, mEnd) := by
  constructor
  · rintro ⟨n, hn⟩
    induction n generalizing m with
    | zero => cases hn
    | succ n ih =>
        rw [decodeInstruction] at hn
        cases hturn : decodeOpcode mmu m with
        | none =>
            rw [hturn] at hn
            cases hn
        | some r =>
            obtain ⟨r, m1⟩ := r
            by_cases hr : r = some .reqCycle
            · subst hr
              obtain ⟨hs, m', hreach, hlast⟩ := ih (by rw [hturn] at hn; exact hn)
              exact ⟨hs, m', .head hturn hreach, hlast⟩
            · rw [hturn] at hn
              have hn : (if r = some .reqCycle then decodeInstruction n mmu m1
                else r.map fun r => (r, m1)) = some (s, mEnd) := hn
              rw [if_neg hr] at hn
              obtain ⟨s', rfl, heq⟩ := Option.map_eq_some_iff.mp hn
              obtain ⟨rfl, rfl⟩ := Prod.mk.inj heq
              exact ⟨fun h => hr (congrArg some h), m, .refl, hturn⟩
  · rintro ⟨hs, m', hreach, hlast⟩
    induction hreach using ReflTransGen.head_induction_on with
    | refl => exact ⟨1, decodeInstruction_of_last hlast hs 0⟩
    | head hturn _ ih =>
        obtain ⟨n, hn⟩ := ih
        exact ⟨n + 1, (decodeInstruction_of_turn hturn n).trans hn⟩

/-! ## What a turn fetches -/

/-- The row behind `opcode`, from the counter `c`. -/
def rowAt (mmu : Mmu) (offset : U32) (c : BitVec 16) (op32 addr32 : Bool) (opcode : U8) : List Nat :=
  let byte := fun i => memByte mmu (offset + (c + BitVec.ofNat 16 i).setWidth 32)
  if opcode ∈ loopBytes then [1]
  else if opcode = escapeByte then 1 :: (plan true (byte 0)).fields op32 addr32 (byte 1) (byte 2)
  else (plan false opcode).fields op32 addr32 (byte 0) (byte 1)

def Mnem.row (m : Mnem) (mmu : Mmu) : List Nat :=
  rowAt mmu m.offset m.counter m.op32 m.addr32 m.opcode

theorem takes_fetchOpcode (mmu : Mmu) (m : Mnem) : Takes mmu fetchOpcode m [1] :=
  takes_fetchByte_bind fun _ _ => ⟨rfl, .refl _, nofun⟩

theorem ends_nextOpcode (mmu : Mmu) (m : Mnem) :
    Ends nextOpcode mmu m (advance mmu m.offset [1] m.counter = none) fun r m' =>
      r ≠ some .ok ∧ advance mmu m.offset [1] m.counter = some m'.counter := by
  have hcall : Ends (returned fetchOpcode) mmu m (advance mmu m.offset [1] m.counter = none)
      fun r m' => r ≠ none ∧ advance mmu m.offset [1] m.counter = some m'.counter :=
    Ends.returned (takes_fetchOpcode mmu m) fun _ _ h => ⟨nofun, h.1⟩
  refine hcall.bind (fun _ h => absurd rfl h.1) fun fetched _ h => ends_pure _ ⟨?_, h.2⟩
  cases fetched <;> exact nofun

theorem fetchesOpcode_subset : ∀ op ∈ fetchesOpcode, BitVec.ofNat 8 op ∈ escapeByte :: loopBytes := by
  decide

theorem opcode_not_fetches {b : U8} (hb : b ∉ loopBytes) (he : b ≠ escapeByte) :
    b.toNat ∉ fetchesOpcode := by
  intro hmem
  have h := fetchesOpcode_subset _ hmem
  rw [ofNat_opcode] at h
  rcases List.mem_cons.mp h with h | h
  · exact he h
  · exact hb h

/-- The bytes behind an opcode that follows the escape byte. -/
theorem byteAt_next (mmu : Mmu) (m : Mnem) (b : U8) (i : Nat) :
    byteAt mmu { m with counter := m.counter + 1, opcode := b } i = byteAt mmu m (i + 1) := by
  rw [byteAt, byteAt, Nat.add_comm i 1, BitVec.ofNat_add, ← BitVec.add_assoc]
  rfl

theorem row_of_escape (hb : m.opcode ∉ loopBytes) (he : m.opcode = escapeByte)
    (h1 : m' = { m with counter := m.counter + 1, opcode := byteAt mmu m 0 }) :
    m.row mmu = 1 :: m'.fields mmu (plan true m'.opcode) := by
  rw [Mnem.row, rowAt, if_neg hb, if_pos he, Mnem.fields, h1, byteAt_next, byteAt_next]
  rfl

theorem row_of_not_escape (hb : m.opcode ∉ loopBytes) (he : m.opcode ≠ escapeByte) :
    m.row mmu = m.fields mmu (plan false m.opcode) := by
  rw [Mnem.row, rowAt, if_neg hb, if_neg he]
  rfl

/-- **A turn fetches its row**, and the turns that end the loop are those without a prefix. -/
theorem decodeOpcode_row (mmu : Mmu) (hz : m.modrm = 0) :
    Ends decodeOpcode mmu m (advance mmu m.offset (m.row mmu) m.counter = none) fun r m' =>
      (r = some .ok ↔ m.opcode ∉ loopBytes) ∧
        advance mmu m.offset (m.row mmu) m.counter = some m'.counter := by
  by_cases hb : m.opcode ∈ loopBytes
  · obtain ⟨m1, hkeeps, hrun⟩ := prefix_handler hb mmu m rfl
    have hrow : m.row mmu = [1] := if_pos hb
    rw [Ends, hrun, ← Ends, hrow, ← hkeeps.offset, ← hkeeps.counter]
    exact (ends_nextOpcode mmu m1).mono id
      fun _ _ h => ⟨iff_of_false h.1 fun hno => hno hb, h.2⟩
  · by_cases he : m.opcode = escapeByte
    · rw [row_of_escape hb he rfl]
      exact (decodeOpcode_escape_ends he hz rfl).mono id fun _ _ h => ⟨iff_of_true h.1 hb, h.2⟩
    · rw [row_of_not_escape hb he]
      exact (decodeOpcode_ends mmu m (opcode_not_fetches hb he)).mono id
        fun _ _ h => ⟨iff_of_true h.1 hb, h.2⟩

/-! ## Rows of prefixes -/

variable {i : Nat}

/-- The bytes of `l` lie at `addr`, and are prefixes. -/
def PrefixRow (mmu : Mmu) (addr : U32) (l : List U8) : Prop :=
  ∀ i (h : i < l.length), l[i] ∈ loopBytes ∧ CodeByte mmu addr i l[i]

theorem prefixRow_nil : PrefixRow mmu addr [] := fun _ h => absurd h (Nat.not_lt_zero _)

theorem prefixRow_concat : PrefixRow mmu addr (l ++ [b])
    ↔ PrefixRow mmu addr l ∧ b ∈ loopBytes ∧ CodeByte mmu addr l.length b := by
  constructor
  · intro h
    refine ⟨fun i hi => ?_, ?_⟩
    · have hrow := h i (by rw [List.length_append]; omega)
      rwa [List.getElem_append_left hi] at hrow
    · have hlast := h l.length (by rw [List.length_append, List.length_singleton]; omega)
      rwa [List.getElem_concat_length rfl] at hlast
  · rintro ⟨hrow, hb, hcode⟩ i hi
    rw [List.length_append, List.length_singleton] at hi
    rcases Nat.lt_or_eq_of_le (Nat.le_of_lt_succ hi) with hlt | rfl
    · rw [List.getElem_append_left hlt]
      exact hrow i hlt
    · rw [List.getElem_concat_length rfl]
      exact ⟨hb, hcode⟩

theorem CodeByte.unique (h : CodeByte mmu addr i b) (h' : CodeByte mmu addr i b') : b = b' :=
  Option.some.inj (h.load.symm.trans h'.load)

/-- A counter of 16 bits does not see more than 64 KiB. -/
theorem codeByte_mod : CodeByte mmu addr (i % 2 ^ 16) b ↔ CodeByte mmu addr i b := by
  have haddr : codeAddr addr (i % 2 ^ 16) = codeAddr addr i := by
    rw [codeAddr, codeAddr]
    congr 2
    apply BitVec.eq_of_toNat_eq
    rw [BitVec.toNat_ofNat, BitVec.toNat_ofNat, Nat.mod_mod]
  exact ⟨fun h => ⟨haddr ▸ h.mapped, haddr ▸ h.load⟩, fun h => ⟨haddr ▸ h.mapped, haddr ▸ h.load⟩⟩

theorem mapped_of_nextOpcode (h : nextOpcode mmu m = some (some .reqCycle, m')) :
    ∃ b, Mapped mmu m.eip ∧ loadByte m.eip mmu = some b := by
  rw [nextOpcode, bind_run, returned, fetchOpcode, bind_run, fetchByte, fetch_run] at h
  cases hphys : pgVirt2phys mmu m.eip with
  | none =>
      rw [hphys] at h
      cases h
  | some phys =>
      rw [hphys, Option.bind_some] at h
      by_cases h0 : phys = 0
      · rw [if_pos h0] at h
        cases h
      · rw [if_neg h0] at h
        cases hload : loadByte m.eip mmu with
        | none =>
            rw [hload] at h
            cases h
        | some b => exact ⟨b, ⟨phys, hphys, h0⟩, rfl⟩

/-- The row of the byte `b` behind the prefixes `l`. -/
def rowBehind (mmu : Mmu) (addr : U32) (l : List U8) (b : U8) : List Nat :=
  rowAt mmu addr (BitVec.ofNat 16 (l.length + 1)) (l.count operandSizePrefix % 2 = 0)
    (l.count addressSizePrefix % 2 = 0) b

theorem AtOpcode.row (h : AtOpcode addr l b m) : m.row mmu = rowBehind mmu addr l b := by
  rw [Mnem.row, rowBehind, h.offset, h.counter, h.opcode,
    show m.op32 = _ from toggled_op32 h.operandSize, show m.addr32 = _ from toggled_op32 h.addressingSize]

theorem PrefixRow.first (h : PrefixRow mmu addr l) (hb : CodeByte mmu addr l.length b) :
    ∃ b0, CodeByte mmu addr 0 b0 := by
  cases l with
  | nil => exact ⟨b, hb⟩
  | cons c l => exact ⟨c, (h 0 (Nat.zero_lt_succ _)).2⟩

/-- **What a turn says of memory**: it was the turn of a prefix, with another opcode behind it. -/
theorem AtOpcode.turn (h : AtOpcode addr l b m) (ht : Turn mmu m m') : b ∈ loopBytes ∧
    ∃ b', CodeByte mmu addr (l.length + 1) b' ∧ AtOpcode addr (l ++ [b]) b' m' := by
  have hb : b ∈ loopBytes := by
    by_contra hno
    have hends := decodeOpcode_row mmu h.modrm
    rw [Ends, show decodeOpcode mmu m = _ from ht] at hends
    cases hends.1.mpr (h.opcode ▸ hno)
  obtain ⟨m1, hkeeps, hrun⟩ := prefix_handler hb mmu m h.opcode
  obtain ⟨b', hmap, hload⟩ := mapped_of_nextOpcode (hrun.symm.trans ht)
  have heip : m1.eip = codeAddr addr (l.length + 1) :=
    eip_eq_codeAddr (hkeeps.offset.trans h.offset) (hkeeps.counter.trans h.counter)
  have hnext : CodeByte mmu addr (l.length + 1) b' := ⟨heip ▸ hmap, heip ▸ hload⟩
  obtain ⟨m2, hm2, hstep⟩ := prefix_step hb h hnext
  obtain ⟨-, rfl⟩ := Prod.mk.inj (Option.some.inj (hstep.symm.trans ht))
  exact ⟨hb, b', hnext, hm2⟩

/-- Every state that is reached stands behind a row of prefixes. -/
theorem AtOpcode.reached (h : AtOpcode addr [] b m) (hb : CodeByte mmu addr 0 b)
    (hreach : Reached mmu m m') : ∃ l b', PrefixRow mmu addr l ∧
      CodeByte mmu addr l.length b' ∧ AtOpcode addr l b' m' := by
  induction hreach with
  | refl => exact ⟨[], b, prefixRow_nil, hb, h⟩
  | tail _ hturn ih =>
      obtain ⟨l, c, hrow, hc, hat⟩ := ih
      obtain ⟨hmem, b', hb', hat'⟩ := hat.turn hturn
      refine ⟨l ++ [c], b', prefixRow_concat.mpr ⟨hrow, hmem, hc⟩, ?_, hat'⟩
      rw [List.length_append, List.length_singleton]
      exact hb'

/-- The loop goes over every row of prefixes to the byte behind it. -/
theorem AtOpcode.reaches (h : AtOpcode addr [] b m) (hb : CodeByte mmu addr 0 b)
    (hrow : PrefixRow mmu addr l) (hb' : CodeByte mmu addr l.length b') :
    ∃ m', Reached mmu m m' ∧ AtOpcode addr l b' m' := by
  induction l using List.reverseRecOn generalizing b' with
  | nil =>
      obtain rfl := hb.unique hb'
      exact ⟨m, .refl, h⟩
  | append_singleton l c ih =>
      obtain ⟨hrow, hmem, hc⟩ := prefixRow_concat.mp hrow
      rw [List.length_append, List.length_singleton] at hb'
      obtain ⟨m1, hreach, hat⟩ := ih hrow hc
      obtain ⟨m2, hat', hturn⟩ := prefix_step hmem hat hb'
      exact ⟨m2, hreach.tail hturn, hat'⟩

/-! ## The first byte -/

/-- Where `i80386_fetch` leaves the decoder. -/
theorem fetchFirst_cases {r : Option Unit} (h : fetchFirst addr mmu m0 = some (r, m)) :
    (∃ b, CodeByte mmu addr 0 b ∧ AtOpcode addr [] b m) ∨
      Stuck mmu addr 0 ∧ m = next addr m0 := by
  have heip : (next addr m0).eip = codeAddr addr 0 := eip_eq_codeAddr rfl rfl
  have hcall : call fetchOpcode mmu (next addr m0) = some (r, m) := h
  rw [call, fetchOpcode, bind_run, fetchByte, fetch_run, heip] at hcall
  cases hphys : pgVirt2phys mmu (codeAddr addr 0) with
  | none =>
      rw [hphys] at hcall
      cases hcall
  | some phys =>
      rw [hphys, Option.bind_some] at hcall
      by_cases h0 : phys = 0
      · rw [if_pos h0] at hcall
        obtain ⟨-, rfl⟩ := Prod.mk.inj (Option.some.inj hcall)
        exact Or.inr ⟨hphys.trans (congrArg some h0), rfl⟩
      · rw [if_neg h0] at hcall
        cases hload : loadByte (codeAddr addr 0) mmu with
        | none =>
            rw [hload] at hcall
            cases hcall
        | some b =>
            rw [hload] at hcall
            obtain ⟨-, rfl⟩ := Prod.mk.inj (Option.some.inj hcall)
            exact Or.inl ⟨b, ⟨⟨phys, hphys, h0⟩, hload⟩, ⟨rfl, rfl, rfl, rfl, rfl, rfl, rfl⟩⟩

theorem fetchFirst_run (hb : CodeByte mmu addr 0 b) (m0 : Mnem) :
    ∃ m, AtOpcode addr [] b m ∧ fetchFirst addr mmu m0 = some (some (), m) := by
  have heip : (next addr m0).eip = codeAddr addr 0 := eip_eq_codeAddr rfl rfl
  refine ⟨{ next addr m0 with counter := 1, opcode := b }, ⟨rfl, rfl, rfl, rfl, rfl, rfl, rfl⟩, ?_⟩
  show call fetchOpcode mmu (next addr m0) = _
  rw [call, fetchOpcode_run (heip ▸ hb.mapped) (heip ▸ hb.load)]
  rfl

/-- Where the first byte is not mapped, no prefix makes a turn. -/
theorem not_turn_of_stuck (hz : m.modrm = 0) (hstuck : Stuck mmu m.offset m.counter) :
    ¬ Turn mmu m m' := by
  intro ht
  by_cases hb : m.opcode ∈ loopBytes
  · obtain ⟨m1, hkeeps, hrun⟩ := prefix_handler hb mmu m rfl
    obtain ⟨b', hmap, -⟩ := mapped_of_nextOpcode (hrun.symm.trans ht)
    rw [Mnem.eip, hkeeps.offset, hkeeps.counter] at hmap
    exact hstuck.not_mapped hmap
  · have hends := decodeOpcode_row mmu hz
    rw [Ends, show decodeOpcode mmu m = _ from ht] at hends
    cases hends.1.mpr hb

/-! ## The end of the loop -/

/-- The loop at `addr` comes to a turn that is its last, or that faults. -/
def Terminates (mmu : Mmu) (addr : U32) (m0 : Mnem) : Prop :=
  ∀ r m, fetchFirst addr mmu m0 = some (r, m) →
    ∃ m', Reached mmu m m' ∧ ¬ ∃ m'', Turn mmu m' m''

/-- The loop does not come past a byte that is no prefix. -/
theorem AtOpcode.ends (h : AtOpcode addr l b m) (hb : CodeByte mmu addr l.length b) {n : Nat}
    (hn : ¬ ∃ c ∈ loopBytes, CodeByte mmu addr (l.length + n) c) :
    ∃ m', Reached mmu m m' ∧ ¬ ∃ m'', Turn mmu m' m'' := by
  induction n generalizing l b m with
  | zero => exact ⟨m, .refl, fun ⟨m', ht⟩ => hn ⟨b, (h.turn ht).1, hb⟩⟩
  | succ n ih =>
      by_cases hturn : ∃ m1, Turn mmu m m1
      · obtain ⟨m1, hturn⟩ := hturn
        obtain ⟨-, b', hb', hat⟩ := h.turn hturn
        have hlen : (l ++ [b]).length = l.length + 1 := by
          rw [List.length_append, List.length_singleton]
        obtain ⟨m', hreach, hlast⟩ := ih hat (hlen ▸ hb') (by
          rw [hlen, Nat.add_assoc, Nat.add_comm 1 n]
          exact hn)
        exact ⟨m', hreach.head hturn, hlast⟩
      · exact ⟨m, .refl, hturn⟩

/-- In 64 KiB of prefixes there is always another turn. -/
theorem not_terminates (h : ∀ i < 2 ^ 16, ∃ b ∈ loopBytes, CodeByte mmu addr i b) (m0 : Mnem) :
    ¬ Terminates mmu addr m0 := by
  have hall : ∀ i, ∃ b ∈ loopBytes, CodeByte mmu addr i b := fun i => by
    obtain ⟨b, hb, hcode⟩ := h (i % 2 ^ 16) (Nat.mod_lt _ (by omega))
    exact ⟨b, hb, codeByte_mod.mp hcode⟩
  intro hterm
  obtain ⟨b, -, hb⟩ := hall 0
  obtain ⟨m, hat, hrun⟩ := fetchFirst_run hb m0
  obtain ⟨m', hreach, hlast⟩ := hterm _ m hrun
  obtain ⟨l, c, -, hc, hat'⟩ := hat.reached hb hreach
  obtain ⟨c', hmem, hc'⟩ := hall l.length
  obtain rfl := hc.unique hc'
  obtain ⟨b', -, hb'⟩ := hall (l.length + 1)
  obtain ⟨m'', -, hturn⟩ := prefix_step hmem hat' hb'
  exact hlast ⟨m'', hturn⟩

/-- **`i80386_decode_instruction` ends** if and only if one of the 64 KiB at the address is not
a prefix, or not mapped. -/
theorem decodeInstruction_terminates_iff (mmu : Mmu) (addr : U32) (m0 : Mnem) :
    Terminates mmu addr m0 ↔ ∃ i < 2 ^ 16, ¬ ∃ b ∈ loopBytes, CodeByte mmu addr i b := by
  constructor
  · intro hterm
    by_contra hno
    refine not_terminates (fun i hi => ?_) m0 hterm
    by_contra h
    exact hno ⟨i, hi, h⟩
  · rintro ⟨n, -, hn⟩ r m hrun
    obtain ⟨b, hb, hat⟩ | ⟨hstuck, rfl⟩ := fetchFirst_cases hrun
    · refine hat.ends hb (n := n) ?_
      rwa [List.length_nil, Nat.zero_add]
    · exact ⟨_, .refl, fun ⟨_, ht⟩ => not_turn_of_stuck (m := next addr m0) rfl hstuck ht⟩

/-! ### 4 MiB of prefixes -/

/-- All pages of the first 4 MiB are one frame, which is filled with `w`. -/
def filledMmu (w : U32) : Mmu where
  cr3 := 1
  mem f i :=
    if f = 1 then if i = 1023 then 0x1001 else if i = 0 then 0x2001 else 0
    else if f = 2 then 0x3001
    else if f = 3 then w
    else 0

theorem selfMapped_filled (w : U32) : SelfMapped (filledMmu w).mem (filledMmu w).cr3 :=
  ⟨show Present 0x1001 by decide, show frameOf 0x1001 = 1 by decide⟩

theorem walk_filled (w : U32) {va : U32} (hva : va.toNat < 2 ^ 22) :
    walk (filledMmu w).mem (filledMmu w).cr3 va = some 3 := by
  have hpd : pdIndex va = 0 := by
    apply BitVec.eq_of_toNat_eq
    rw [toNat_pdIndex, Nat.div_eq_of_lt hva]
    rfl
  have hpde : (filledMmu w).mem (filledMmu w).cr3 (pdIndex va) = 0x2001 := by rw [hpd]; rfl
  have hpte : (filledMmu w).mem (frameOf 0x2001) (ptIndex va) = 0x3001 := rfl
  rw [walk]
  simp only [hpde, hpte]
  rfl

theorem codeByte_filled {w : U32} {b : U8} (hw : ∀ k < 4, (w >>> (8 * k)).setWidth 8 = b)
    (hi : (codeAddr addr i).toNat < 2 ^ 22) : CodeByte (filledMmu w) addr i b := by
  have hwalk := walk_filled w hi
  refine ⟨⟨_, pgVirt2phys_eq (selfMapped_filled w) _, ?_⟩, ?_⟩
  · rw [hwalk, physOf]
    intro h0
    have hbit := congrArg (fun v : U32 => v.getLsbD 12) h0
    simp only [BitVec.getLsbD_or, show (frameAddr 3).getLsbD 12 = true from rfl, Bool.or_true] at hbit
    exact absurd hbit (by decide)
  · rw [loadByte, Mmu.load, hwalk]
    exact congrArg some (hw _ (Nat.mod_lt _ (by omega)))

/-- In operand-size prefixes the loop never ends. -/
theorem decodeInstruction_endless :
    ¬ Terminates (filledMmu 0x66666666) 0x1000 (Mnem.zero .empty) := by
  refine not_terminates (fun i hi => ⟨0x66, by decide, codeByte_filled (by decide) ?_⟩) _
  rw [codeAddr_eq hi, BitVec.toNat_add, BitVec.toNat_ofNat]
  show (0x1000 + i % 2 ^ 32) % 2 ^ 32 < 2 ^ 22
  omega

end Tomk.Disasm
