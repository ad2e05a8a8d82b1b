/-
# The length of an instruction

After `i80386_mnem_decode` the counter is the length of the instruction, under a condition
that says what the decoder gets wrong (`LengthRight`):

* a few handlers never fetch their ModR/M byte (`Unread`);
* `jmp rel32` is taken for `jmp rel16`;
* the members of groups 6 and 7 that leave their operand out leave out its displacement as
  well (`Undisplaced`);
* a size prefix toggles its size, so that it has no effect if it is given an even number of times.  The
  widths are then those of the plan at the wrong sizes, and the counter is right only if
  they happen to end where the instruction ends.

For every other opcode the plan and the form of the opcode map have the same fields, though
not always in the same order (`plan_agrees`, `plan_agrees_escape`).
-/
import Tomk.Disasm.InstructionRun
import Tomk.Disasm.PlanForms

namespace Tomk.Disasm

open Early I386

variable {mmu : Mmu} {addr : U32} {ins : Instruction}

/-! ## The run -/

/-- The operand size that the toggles leave. -/
def toggledOp32 (ins : Instruction) : Bool := ins.prefixes.count operandSizePrefix % 2 = 0

def toggledAddr32 (ins : Instruction) : Bool := ins.prefixes.count addressSizePrefix % 2 = 0

/-- Where the fields of the instruction start. -/
def fieldsAt (ins : Instruction) : Nat := ins.prefixes.length + if ins.escape then 2 else 1

def memByte (mmu : Mmu) (va : U32) : U8 := (loadByte va mmu).getD 0

/-- What the decoder fetches behind the opcode. -/
def fetched (mmu : Mmu) (addr : U32) (ins : Instruction) : List Nat :=
  (plan ins.escape ins.opcode).fields (toggledOp32 ins) (toggledAddr32 ins)
    (memByte mmu (addr + BitVec.ofNat 32 (fieldsAt ins)))
    (memByte mmu (addr + BitVec.ofNat 32 (fieldsAt ins + 1)))

/-- The byte behind the prefixes. -/
def firstOpcode (ins : Instruction) : U8 := if ins.escape then escapeByte else ins.opcode

theorem toggled_op32 {b : Byte} {l : List Byte} {v : U8} (h : v = toggled b l) :
    (v != 0) = decide (l.count b % 2 = 0) := by
  rw [h, toggled]
  by_cases h0 : l.count b % 2 = 0
  · rw [if_pos h0, decide_eq_true h0]
    rfl
  · rw [if_neg h0, decide_eq_false h0]
    rfl

theorem length_bytes_eq (ins : Instruction) :
    ins.bytes.length = fieldsAt ins + ins.operands.length := ins.length_bytes

theorem fieldsAt_le (ins : Instruction) : fieldsAt ins ≤ ins.bytes.length :=
  length_bytes_eq ins ▸ Nat.le_add_right ..

theorem bytes_eq (ins : Instruction) :
    ∃ rest, ins.bytes = (ins.prefixes ++ [firstOpcode ins]) ++ rest := by
  rw [Instruction.bytes, Instruction.opcodeBytes, firstOpcode]
  split
  · exact ⟨ins.opcode :: ins.operands, by simp⟩
  · exact ⟨ins.operands, by simp⟩

/-- The byte behind the escape byte. -/
theorem load_escape (hlies : Lies mmu addr ins.bytes) (he : ins.escape = true) :
    loadByte (addr + BitVec.ofNat 32 (ins.prefixes.length + 1)) mmu = some ins.opcode := by
  have hlen : ins.prefixes.length + 1 < ins.bytes.length := by
    have := fieldsAt_le ins
    rw [fieldsAt, if_pos he] at this
    omega
  rw [(hlies _ hlen).2]
  congr 1
  simp only [Instruction.bytes, Instruction.opcodeBytes, he, if_true, List.append_assoc]
  rw [List.getElem_append_right (by omega)]
  simp

/-- The decoder arrives at the opcode. -/
theorem mnemDecode_eq (hlies : Lies mmu addr ins.bytes) (n : Nat) (m0 : Mnem) :
    ∃ m, AtOpcode addr ins.prefixes (firstOpcode ins) m ∧
      mnemDecode (ins.prefixes.length + n) mmu addr m0
        = (decodeInstruction n mmu m).map fun r => (decide (r.1 = .ok), r.2) := by
  obtain ⟨rest, hbytes⟩ := bytes_eq ins
  have hlong := ins.length_bytes_le
  have hsome : ∀ i (h : i < (ins.prefixes ++ [firstOpcode ins]).length),
      Mapped mmu (addr + BitVec.ofNat 32 i) ∧
        loadByte (addr + BitVec.ofNat 32 i) mmu = some (ins.prefixes ++ [firstOpcode ins])[i] := by
    intro i h
    rw [hbytes] at hlies
    have h := hlies i (by rw [List.length_append]; omega)
    rwa [List.getElem_append_left ‹_›] at h
  have hfirst : 0 < (ins.prefixes ++ [firstOpcode ins]).length := by simp
  -- the first byte is fetched by `i80386_fetch`
  have heip : (next addr m0).eip = addr + BitVec.ofNat 32 0 := eip_eq rfl rfl (by omega)
  have h0 := hsome 0 hfirst
  rw [← heip] at h0
  have hfetch : fetchFirst addr mmu m0 = some (some (), { next addr m0 with
      counter := 1, opcode := (ins.prefixes ++ [firstOpcode ins])[0] }) := by
    show call fetchOpcode mmu (next addr m0) = _
    rw [call, fetchOpcode_run h0.1 h0.2]
    rfl
  obtain ⟨m, hm, hrun⟩ := prefixes_run (m := { next addr m0 with
      counter := 1, opcode := (ins.prefixes ++ [firstOpcode ins])[0] }) (l := [])
    (b := firstOpcode ins) (loopBytes_of_prefixBytes ins.prefixes_mem) n
    ⟨rfl, rfl, (List.getD_eq_getElem _ _ hfirst).symm, rfl, rfl, rfl, rfl⟩
    (by rw [length_bytes_eq, fieldsAt] at hlong; rw [List.length_nil]; omega)
    (fun i hi => by rw [List.length_nil, Nat.zero_add]; exact hsome i hi)
  refine ⟨m, hm, ?_⟩
  rw [mnemDecode, hfetch]
  show (decodeInstruction (ins.prefixes.length + n) mmu _ >>= _) = _
  rw [hrun]
  cases decodeInstruction n mmu m <;> rfl

theorem byteAt_eq {m : Mnem} {c i : Nat} (ho : m.offset = addr) (hc : m.counter = BitVec.ofNat 16 c)
    (h : c + i < 2 ^ 16) : byteAt mmu m i = memByte mmu (addr + BitVec.ofNat 32 (c + i)) := by
  rw [byteAt, memByte, ho, hc, ← BitVec.ofNat_add]
  congr 3
  apply BitVec.eq_of_toNat_eq
  rw [BitVec.toNat_setWidth, BitVec.toNat_ofNat, BitVec.toNat_ofNat]
  omega

/-- The row of the plan, for a decoder at the fields of the instruction. -/
theorem fields_eq_fetched (mmu : Mmu) (m : Mnem) (ho : m.offset = addr)
    (hc : m.counter = BitVec.ofNat 16 (fieldsAt ins))
    (hop : m.operandSize = toggled operandSizePrefix ins.prefixes)
    (haddr : m.addressingSize = toggled addressSizePrefix ins.prefixes) :
    m.fields mmu (plan ins.escape ins.opcode) = fetched mmu addr ins := by
  have hle := (fieldsAt_le ins).trans ins.length_bytes_le
  have h0 : byteAt mmu m 0 = memByte mmu (addr + BitVec.ofNat 32 (fieldsAt ins)) :=
    byteAt_eq (c := fieldsAt ins) (i := 0) ho hc (by omega)
  have h1 : byteAt mmu m 1 = memByte mmu (addr + BitVec.ofNat 32 (fieldsAt ins + 1)) :=
    byteAt_eq (c := fieldsAt ins) ho hc (by omega)
  rw [Mnem.fields, fetched, h0, h1, show m.op32 = toggledOp32 ins from toggled_op32 hop,
    show m.addr32 = toggledAddr32 ins from toggled_op32 haddr]

theorem form_of_fetchesOpcode :
    ∀ op ∈ fetchesOpcode, entry oneByteMap op = .undefined := by decide

/-- The opcode of an instruction is not a prefix. -/
theorem opcode_not_mem (he : ins.escape = false) : ins.opcode.toNat ∉ fetchesOpcode := by
  intro hmem
  have hdef := ins.defined
  rw [he] at hdef
  have hform : I386.form false ins.opcode = .undefined := form_of_fetchesOpcode _ hmem
  rw [hform] at hdef
  exact hdef

/-- The row of the plan from the counter behind the first byte of the opcode. -/
theorem decodeInstruction_row (hlies : Lies mmu addr ins.bytes) {m : Mnem}
    (hm : AtOpcode addr ins.prefixes (firstOpcode ins) m) (n : Nat) : ∃ p : List Nat,
      (∀ stuck, EndsAt stuck p (ins.bytes.length - (ins.prefixes.length + 1))
        ↔ EndsAt stuck (fetched mmu addr ins) ins.operands.length) ∧
      (p.sum ≤ 19 ∧ ∀ k ∈ p, 0 < k) ∧
      (decodeInstruction (n + 1) mmu m).map (·.2.counter) = advance mmu m.offset p m.counter := by
  have hlong := ins.length_bytes_le
  have hbytes := length_bytes_eq ins
  have hsum : (fetched mmu addr ins).sum ≤ 18 := plan_fields_sum ..
  have hpos : ∀ k ∈ fetched mmu addr ins, 0 < k := plan_fields_pos _ _ _ _ _
  cases he : ins.escape with
  | false =>
      have hat : fieldsAt ins = ins.prefixes.length + 1 := by rw [fieldsAt, he]; rfl
      have hopcode : m.opcode = ins.opcode := by rw [hm.opcode, firstOpcode, he]; rfl
      have hfields := fields_eq_fetched mmu m hm.offset (hat ▸ hm.counter) hm.operandSize
        hm.addressingSize
      have hends := decodeOpcode_ends mmu m (hopcode ▸ opcode_not_mem he)
      rw [hopcode, ← he, hfields] at hends
      refine ⟨_, fun stuck => ?_, ⟨by omega, hpos⟩, decodeInstruction_counter n hends⟩
      rw [show ins.bytes.length - (ins.prefixes.length + 1) = ins.operands.length by omega]
  | true =>
      have hat : fieldsAt ins = ins.prefixes.length + 2 := by rw [fieldsAt, he]; rfl
      have hopcode : m.opcode = escapeByte := by rw [hm.opcode, firstOpcode, he]; rfl
      have hload : loadByte m.eip mmu = some ins.opcode := by
        rw [eip_eq hm.offset hm.counter (by omega)]
        exact load_escape hlies he
      have hcounter : m.counter + 1 = BitVec.ofNat 16 (fieldsAt ins) := by
        rw [hm.counter, hat]
        exact (BitVec.ofNat_add ..).symm
      have hfields := fields_eq_fetched mmu
        { m with counter := m.counter + 1, opcode := ins.opcode } hm.offset hcounter
        hm.operandSize hm.addressingSize
      have hends := @decodeOpcode_escape_ends _ _
        { m with counter := m.counter + 1, opcode := ins.opcode } hopcode hm.modrm
        (by rw [byteAt_of_load hload])
      rw [← he, hfields] at hends
      refine ⟨_, fun stuck => ?_, ⟨?_, ?_⟩, decodeInstruction_counter n hends⟩
      · rw [EndsAt, show ins.bytes.length - (ins.prefixes.length + 1) - 1 = ins.operands.length
          by omega]
        constructor
        · rintro (⟨h, _⟩ | ⟨_, h⟩)
          · omega
          · exact h
        · exact fun h => Or.inr ⟨by omega, h⟩
      · rw [List.sum_cons]
        omega
      · intro k hk
        rcases List.mem_cons.mp hk with rfl | hk
        · exact Nat.one_pos
        · exact hpos k hk

/-- **The counter after the run.** -/
theorem decode_counter_iff (hlies : Lies mmu addr ins.bytes) {n : Nat}
    (hn : ins.prefixes.length < n) (m0 : Mnem) :
    (∃ r m, mnemDecode n mmu addr m0 = some (r, m) ∧ m.counter.toNat = ins.bytes.length)
      ↔ EndsAt (Stuck mmu addr (BitVec.ofNat 16 ins.bytes.length)) (fetched mmu addr ins)
          ins.operands.length := by
  obtain ⟨m, hm, hrun⟩ := mnemDecode_eq hlies (n - ins.prefixes.length) m0
  rw [Nat.add_sub_cancel' hn.le] at hrun
  have hlong := ins.length_bytes_le
  have hbytes := length_bytes_eq ins
  have hsome : ∀ i < ins.bytes.length, Mapped mmu (addr + BitVec.ofNat 32 i) ∧
      (loadByte (addr + BitVec.ofNat 32 i) mmu).isSome := fun i hi =>
    ⟨(hlies i hi).1, by rw [(hlies i hi).2]; rfl⟩
  obtain ⟨n', hn'⟩ : ∃ n', n - ins.prefixes.length = n' + 1 :=
    ⟨n - ins.prefixes.length - 1, by omega⟩
  obtain ⟨p, hp, ⟨hpsum, hppos⟩, hadvance⟩ := decodeInstruction_row hlies hm n'
  have hle : ins.prefixes.length + 1 ≤ ins.bytes.length := by
    rw [hbytes, fieldsAt]
    split <;> omega
  rw [hm.offset, hm.counter, ← hn'] at hadvance
  rw [← hp, ← advance_eq_some_iff hppos hle (by omega) (by omega) hsome, ← hadvance, hrun]
  constructor
  · rintro ⟨r, m', h, hc⟩
    obtain ⟨⟨st, m''⟩, hd, heq⟩ := Option.map_eq_some_iff.mp h
    obtain ⟨-, rfl⟩ := Prod.mk.inj heq
    rw [hd, Option.map_some, Option.some.injEq]
    apply BitVec.eq_of_toNat_eq
    rw [BitVec.toNat_ofNat, ← hc]
    exact (Nat.mod_eq_of_lt m''.counter.isLt).symm
  · intro h
    obtain ⟨⟨st, m'⟩, hd, heq⟩ := Option.map_eq_some_iff.mp h
    refine ⟨_, m', by rw [hd]; rfl, ?_⟩
    rw [show m'.counter = _ from heq, BitVec.toNat_ofNat]
    omega

/-! ## The condition -/

/-- Each size prefix is absent, or is there an odd number of times: the toggles leave the sizes that
the processor takes. -/
def SizesRight (ins : Instruction) : Prop :=
  toggledOp32 ins = ins.op32 ∧ toggledAddr32 ins = ins.addr32

instance (ins : Instruction) : Decidable (SizesRight ins) := inferInstanceAs (Decidable (_ ∧ _))

/-- The members of groups 6 and 7 that leave their operand out. -/
def Undisplaced (ins : Instruction) : Prop :=
  ins.escape = true ∧ (ins.opcode = 0x00 ∧ mid3 ins.modrm ∈ [1, 3, 4, 5] ∨
    ins.opcode = 0x01 ∧ mid3 ins.modrm ∈ [4, 6])

instance (ins : Instruction) : Decidable (Undisplaced ins) := inferInstanceAs (Decidable (_ ∧ _))

/-- When the decoder gets the length of an instruction at `addr` right. -/
def LengthRight (mmu : Mmu) (addr : U32) (ins : Instruction) : Prop :=
  if SizesRight ins then
    unread ins.escape ins.opcode.toNat = false ∧
      (ins.escape = false ∧ ins.opcode = 0xE9 → ins.op32 = false) ∧
        (Undisplaced ins → dispFields ins.addr32 ins.modrm ins.sib = [])
  else
    EndsAt (Stuck mmu addr (BitVec.ofNat 16 ins.bytes.length)) (fetched mmu addr ins)
      ins.operands.length

/-- A `switch` has a case for the opcode. -/
def Dispatched (ins : Instruction) : Prop :=
  (if ins.escape then hasCase ins.opcode.toNat opcodes0f
    else hasCase ins.opcode.toNat opcodes) = true

instance (ins : Instruction) : Decidable (Dispatched ins) := inferInstanceAs (Decidable (_ = true))

/-! ## The bytes in memory are those of the instruction -/

theorem memByte_operand (hlies : Lies mmu addr ins.bytes) {i : Nat} (hi : i < ins.operands.length) :
    memByte mmu (addr + BitVec.ofNat 32 (fieldsAt ins + i)) = ins.operands.getD i 0 := by
  have hlen := length_bytes_eq ins
  have hfront : (ins.prefixes ++ ins.opcodeBytes).length = fieldsAt ins := by
    rw [List.length_append, Instruction.opcodeBytes, fieldsAt]
    split <;> rfl
  rw [memByte, (hlies (fieldsAt ins + i) (by omega)).2, Option.getD_some,
    List.getD_eq_getElem _ _ hi]
  simp only [Instruction.bytes]
  rw [List.getElem_append_right (by omega)]
  simp only [hfront, Nat.add_sub_cancel_left]

/-- A plan with a ModR/M byte looks at it, and at the SIB byte if there is one. -/
theorem plan_fields_congr {pl : Plan} {op32 addr32 : Bool} {modrm modrm' sib sib' : Byte}
    (h : (∃ i, pl = .imm i) ∨ modrm = modrm' ∧ (HasSib addr32 modrm → sib = sib')) :
    pl.fields op32 addr32 modrm sib = pl.fields op32 addr32 modrm' sib' := by
  rcases h with ⟨i, rfl⟩ | ⟨rfl, h⟩
  · rfl
  · have hdisp : dispFields addr32 modrm sib = dispFields addr32 modrm sib' := by
      by_cases hsib : HasSib addr32 modrm
      · rw [h hsib]
      · exact dispFields_of_not_hasSib hsib sib sib'
    cases pl with
    | imm i => rfl
    | rm pre disp post => simp only [Plan.fields, hdisp]
    | group l => simp only [Plan.fields, hdisp]

/-- The fields of a form start with the ModR/M byte and the SIB byte, if it has them. -/
theorem form_fields_cases {f : Form} {modrm : Byte} (hdef : f.Defined modrm) (op32 addr32 : Bool)
    (sib : Byte) : (∃ i, f = .imm i) ∨
      ∃ rest, f.fields op32 addr32 modrm sib = 1 :: (sibFields addr32 modrm ++ rest) := by
  cases f with
  | undefined => exact hdef.elim
  | imm i => exact Or.inl ⟨i, rfl⟩
  | rm i =>
      refine Or.inr ⟨dispFields addr32 modrm sib ++ i.fields op32 addr32, ?_⟩
      simp only [Form.fields, List.cons_append, List.append_assoc]
  | regs =>
      refine Or.inr ⟨[], ?_⟩
      rw [sibFields, if_neg fun h => h.2.1 hdef]
      rfl
  | group l =>
      refine Or.inr ⟨dispFields addr32 modrm sib
        ++ ((l.getD (mid3 modrm) Option.none).getD .none).fields op32 addr32, ?_⟩
      simp only [Form.fields, List.cons_append, List.append_assoc]

/-- With the sizes right, the decoder fetches the plan of the instruction. -/
theorem fetched_eq (hlies : Lies mmu addr ins.bytes) (hs : SizesRight ins)
    (h : (∃ i, plan ins.escape ins.opcode = .imm i) ∨ ¬ ∃ i, ins.form = .imm i) :
    fetched mmu addr ins
      = (plan ins.escape ins.opcode).fields ins.op32 ins.addr32 ins.modrm ins.sib := by
  rw [fetched, hs.1, hs.2]
  refine plan_fields_congr (h.imp_right fun hform => ?_)
  obtain ⟨rest, hfields⟩ :=
    (form_fields_cases ins.defined ins.op32 ins.addr32 ins.sib).resolve_left hform
  have hsum : ins.operands.length = 1 + ((sibFields ins.addr32 ins.modrm).sum + rest.sum) := by
    rw [ins.operands_length_eq, ← List.sum_append, ← List.sum_cons]
    exact congrArg List.sum hfields
  have hmodrm : memByte mmu (addr + BitVec.ofNat 32 (fieldsAt ins)) = ins.modrm :=
    memByte_operand (i := 0) hlies (by omega)
  refine ⟨hmodrm, fun hsib => memByte_operand (i := 1) hlies ?_⟩
  rw [hmodrm] at hsib
  rw [sibFields, if_pos hsib, List.sum_singleton] at hsum
  omega

/-! ## What the decoder gets wrong -/

theorem plan_of_unread : ∀ op < 256, unread false op = true →
    switch op planNone (plans (BitVec.ofNat 8 op)) = planNone ∧ entry oneByteMap op = E := by
  decide +kernel

theorem plan_of_unread_escape : ∀ op < 256, unread true op = true →
    switch op planNone plans0f = planNone ∧ entry twoByteMap op = E := by
  decide +kernel

/-- Groups 6 and 7: a member takes its displacement unless it leaves its operand out. -/
theorem plan_of_group : ∀ op < 2, ∀ r < 8, ∀ l l', switch op planNone plans0f = .group l →
    entry twoByteMap op = .group l' → (l'.getD r none).isSome →
      l'.getD r none = some .none ∧ l.getD r (.none, false)
        = (.none, !decide (op = 0 ∧ r ∈ [1, 3, 4, 5] ∨ op = 1 ∧ r ∈ [4, 6])) := by
  intro op hop r hr l l' hl hl'
  obtain rfl | rfl : op = 0 ∨ op = 1 := by omega
  · obtain rfl : group0f00 = l := Plan.group.inj hl
    obtain rfl := Form.group.inj hl'
    revert r
    decide
  · obtain rfl : group0f01 = l := Plan.group.inj hl
    obtain rfl := Form.group.inj hl'
    revert r
    decide

theorem sum_dispFields_pos {addr32 : Bool} {modrm sib : Byte}
    (h : dispFields addr32 modrm sib ≠ []) : 0 < (dispFields addr32 modrm sib).sum := by
  rcases dispFields_cases addr32 modrm sib with h0 | ⟨k, hk, _, hdisp⟩
  · exact absurd h0 h
  · rw [hdisp]
    exact hk

/-! ## The sizes right -/

theorem form_eq (ins : Instruction) : ins.form
    = if ins.escape then entry twoByteMap ins.opcode.toNat else entry oneByteMap ins.opcode.toNat := by
  rw [Instruction.form, I386.form]
  split <;> rfl

theorem form_oneByte {ins : Instruction} (he : ins.escape = false) :
    ins.form = entry oneByteMap ins.opcode.toNat := by
  rw [form_eq, he, if_neg Bool.false_ne_true]

theorem form_ne_undefined (ins : Instruction) : ins.form ≠ .undefined := by
  intro h
  have hdef : ins.form.Defined ins.modrm := ins.defined
  rw [h] at hdef
  exact hdef

theorem ofNat_opcode (b : U8) : BitVec.ofNat 8 b.toNat = b :=
  BitVec.eq_of_toNat_eq (Nat.mod_eq_of_lt b.isLt)

/-- A plan that agrees with the form takes all the fields. -/
theorem sum_fetched_of_agrees (hlies : Lies mmu addr ins.bytes) (hs : SizesRight ins)
    (h : agrees (plan ins.escape ins.opcode) ins.form = true) :
    (fetched mmu addr ins).sum = ins.operands.length := by
  have hshape : (∃ i, plan ins.escape ins.opcode = .imm i) ∨ ¬ ∃ i, ins.form = .imm i := by
    refine or_iff_not_imp_right.mpr fun hform => ?_
    obtain ⟨i, hi⟩ := not_not.mp hform
    rw [hi] at h
    cases hp : plan ins.escape ins.opcode with
    | imm j => exact ⟨j, rfl⟩
    | rm pre disp post =>
        rw [hp] at h
        cases disp <;> cases pre <;> cases post <;> cases h
    | group l =>
        rw [hp] at h
        cases h
  have hdef : ins.form.Defined ins.modrm := ins.defined
  rw [fetched_eq hlies hs hshape, sum_eq_of_agrees h hdef, ins.operands_length_eq]
  rfl

/-- A handler that fetches no ModR/M byte takes nothing of what is there. -/
theorem sum_fetched_of_unread (mmu : Mmu) (addr : U32)
    (h : unread ins.escape ins.opcode.toNat = true) :
    (fetched mmu addr ins).sum < ins.operands.length := by
  have hboth : plan ins.escape ins.opcode = planNone ∧ ins.form = E := by
    rw [form_eq]
    cases he : ins.escape with
    | false =>
        rw [he] at h
        have hplan := plan_of_unread _ ins.opcode.isLt h
        rw [ofNat_opcode] at hplan
        exact hplan
    | true =>
        rw [he] at h
        exact plan_of_unread_escape _ ins.opcode.isLt h
  have hfields : ins.fields = E.fields ins.op32 ins.addr32 ins.modrm ins.sib := by
    rw [Instruction.fields, hboth.2]
  rw [ins.operands_length_eq, hfields, fetched, hboth.1]
  simp only [Plan.fields, planNone, Form.fields, Imm.fields, List.cons_append, List.sum_cons,
    List.sum_nil]
  omega

theorem sum_fetched_of_jmp (mmu : Mmu) (addr : U32) (he : ins.escape = false)
    (hop : ins.opcode = 0xE9) :
    (fetched mmu addr ins).sum = 2 ∧ ins.operands.length = if ins.op32 then 4 else 2 := by
  have hfields : ins.fields = Iz.fields ins.op32 ins.addr32 ins.modrm ins.sib := by
    rw [Instruction.fields, form_eq, he, hop]
    rfl
  have hplan : plan ins.escape ins.opcode = .imm .w := by
    rw [he, hop]
    rfl
  rw [ins.operands_length_eq, hfields, fetched, hplan]
  exact ⟨rfl, Nat.add_zero _⟩

/-- Groups 6 and 7 take the displacement, or leave it. -/
theorem sum_fetched_of_group (hlies : Lies mmu addr ins.bytes) (hs : SizesRight ins)
    (he : ins.escape = true) (hop : ins.opcode.toNat < 2) :
    ∃ n, ins.operands.length = n + (dispFields ins.addr32 ins.modrm ins.sib).sum ∧
      (fetched mmu addr ins).sum
        = n + if Undisplaced ins then 0 else (dispFields ins.addr32 ins.modrm ins.sib).sum := by
  obtain ⟨l, hl⟩ : ∃ l, switch ins.opcode.toNat planNone plans0f = .group l := by
    revert hop
    generalize ins.opcode.toNat = op
    intro hop
    obtain rfl | rfl : op = 0 ∨ op = 1 := by omega
    · exact ⟨_, rfl⟩
    · exact ⟨_, rfl⟩
  obtain ⟨l', hl'⟩ : ∃ l', entry twoByteMap ins.opcode.toNat = .group l' := by
    revert hop
    generalize ins.opcode.toNat = op
    intro hop
    obtain rfl | rfl : op = 0 ∨ op = 1 := by omega
    · exact ⟨_, rfl⟩
    · exact ⟨_, rfl⟩
  have hform : ins.form = .group l' := by rw [form_eq, he]; exact hl'
  have hplan : plan ins.escape ins.opcode = .group l := by rw [he]; exact hl
  have hdef : ins.form.Defined ins.modrm := ins.defined
  rw [hform] at hdef
  obtain ⟨hnone, hcase⟩ := plan_of_group _ hop (mid3 ins.modrm) (Nat.mod_lt _ (by omega)) l l' hl hl'
    hdef
  have hund : Undisplaced ins ↔ (ins.opcode.toNat = 0 ∧ mid3 ins.modrm ∈ [1, 3, 4, 5] ∨
      ins.opcode.toNat = 1 ∧ mid3 ins.modrm ∈ [4, 6]) := by
    rw [Undisplaced, ← BitVec.toNat_inj, ← BitVec.toNat_inj]
    exact and_iff_right he
  refine ⟨1 + (sibFields ins.addr32 ins.modrm).sum, ?_, ?_⟩
  · rw [ins.operands_length_eq, Instruction.fields, hform, Form.fields, hnone]
    simp only [Option.getD_some, Imm.fields, List.append_nil, List.cons_append, List.sum_cons,
      List.sum_append]
    omega
  · have hno : ¬ ∃ i, ins.form = .imm i := by
      rintro ⟨i, hi⟩
      rw [hform] at hi
      cases hi
    rw [fetched_eq hlies hs (Or.inr hno), hplan, Plan.fields, hcase]
    by_cases hu : Undisplaced ins
    · rw [if_pos hu, decide_eq_true (hund.mp hu)]
      simp [Imm.fields]
    · rw [if_neg hu, decide_eq_false fun h => hu (hund.mpr h)]
      simp [Imm.fields]
      omega

/-- **With the sizes right**, the fetches end where the instruction ends exactly outside
the three defects. -/
theorem endsAt_fetched_iff (hlies : Lies mmu addr ins.bytes) (hd : Dispatched ins)
    (hs : SizesRight ins) (stuck : Prop) : EndsAt stuck (fetched mmu addr ins) ins.operands.length
      ↔ unread ins.escape ins.opcode.toNat = false ∧
        (ins.escape = false ∧ ins.opcode = 0xE9 → ins.op32 = false) ∧
          (Undisplaced ins → dispFields ins.addr32 ins.modrm ins.sib = []) := by
  by_cases hu : unread ins.escape ins.opcode.toNat = true
  · refine iff_of_false (fun h => ?_) fun h => by rw [hu] at h; cases h.1
    have hlt := sum_fetched_of_unread mmu addr hu
    have hle := h.le_sum
    omega
  rw [Bool.not_eq_true] at hu
  rw [and_iff_right hu]
  have hne := form_eq ins ▸ form_ne_undefined ins
  cases he : ins.escape with
  | false =>
      have hno : ¬ Undisplaced ins := fun h => Bool.noConfusion (he.symm.trans h.1)
      by_cases hop : ins.opcode = 0xE9
      · obtain ⟨hsum, hlen⟩ := sum_fetched_of_jmp mmu addr he hop
        cases h32 : ins.op32 with
        | false =>
            rw [h32] at hlen
            exact iff_of_true (endsAt_of_sum_eq (by rw [hsum, hlen]; rfl))
              ⟨fun _ => rfl, fun h => absurd h hno⟩
        | true =>
            rw [h32, if_pos rfl] at hlen
            refine iff_of_false (fun h => ?_) fun h => Bool.noConfusion (h.1 ⟨rfl, hop⟩)
            have hle := h.le_sum
            omega
      · rw [he] at hu hne
        have hagrees := plan_agrees _ ins.opcode.isLt hu
          (fun h => hop (BitVec.eq_of_toNat_eq h)) hne
        rw [ofNat_opcode] at hagrees
        refine iff_of_true (endsAt_of_sum_eq (sum_fetched_of_agrees hlies hs ?_))
          ⟨fun h => absurd h.2 hop, fun h => absurd h hno⟩
        rw [form_eq, he]
        exact hagrees
  | true =>
      by_cases hop : ins.opcode.toNat < 2
      · obtain ⟨n, hlen, hsum⟩ := sum_fetched_of_group hlies hs he hop
        constructor
        · refine fun h => ⟨fun h => Bool.noConfusion h.1, fun hund => ?_⟩
          by_contra hdisp
          have hpos := sum_dispFields_pos hdisp
          have hle := h.le_sum
          rw [hsum, if_pos hund] at hle
          omega
        · rintro ⟨-, h⟩
          refine endsAt_of_sum_eq ?_
          rw [hsum, hlen]
          split
          · next hund => rw [h hund]; rfl
          · rfl
      · rw [he] at hu hne
        have hcase : hasCase ins.opcode.toNat opcodes0f = true := by
          rw [Dispatched, he] at hd
          exact hd
        have hagrees := plan_agrees_escape _ ins.opcode.isLt hu (by omega) hcase hne
        refine iff_of_true (endsAt_of_sum_eq (sum_fetched_of_agrees hlies hs ?_))
          ⟨fun h => Bool.noConfusion h.1, fun h => ?_⟩
        · rw [form_eq, he]
          exact hagrees
        · rcases h.2 with ⟨h0, -⟩ | ⟨h1, -⟩
          · rw [h0] at hop
            exact absurd (by decide) hop
          · rw [h1] at hop
            exact absurd (by decide) hop

/-- **`i80386_mnem_decode`** leaves the length of the instruction in its counter, if and
only if none of what it gets wrong matters. -/
theorem mnemDecode_length_iff (ins : Instruction) (hd : Dispatched ins) (mmu : Mmu) (addr : U32)
    (hlies : Lies mmu addr ins.bytes) (n : Nat) (hn : ins.prefixes.length < n) (m0 : Mnem) :
    (∃ r m, mnemDecode n mmu addr m0 = some (r, m) ∧ m.counter.toNat = ins.bytes.length)
      ↔ LengthRight mmu addr ins := by
  rw [decode_counter_iff hlies hn, LengthRight]
  split
  · next hs => exact endsAt_fetched_iff hlies hd hs _
  · rfl

/-- A page of code at 0x1000, under tables of its own. -/
def codeMmu (words : List U32) : Mmu where
  cr3 := 1
  mem f i :=
    if f = 1 then if i = 1023 then 0x1001 else if i = 0 then 0x2001 else 0
    else if f = 2 then if i = 1 then 0x3001 else 0
    else if f = 3 then words.getD i.toNat 0
    else 0

/-- ModR/M, SIB, a displacement of one byte, and a word. -/
theorem movWord_length : ([0x44, 0x98, 0x04, 0x34, 0x12] : List Byte).length =
    ((form false 0xC7).fields (decide (operandSizePrefix ∉ [0x66]))
      (decide (addressSizePrefix ∉ [0x66])) 0x44 0x98).sum := by decide

/-- `mov word [eax+ebx*4+4], 0x1234` -/
def movWord : Instruction where
  prefixes := [0x66]
  escape := false
  opcode := 0xC7
  operands := [0x44, 0x98, 0x04, 0x34, 0x12]
  prefixes_mem := by decide
  defined := by decide
  operands_length := movWord_length
  short := by decide

theorem mnemDecode_length_movWord :
    ∃ r m, mnemDecode 15 (codeMmu [0x9844C766, 0x00123404]) 0x1000 (Mnem.zero .empty) = some (r, m) ∧
      m.counter.toNat = 7 := by
  refine (mnemDecode_length_iff movWord (by decide) _ _ (by decide +kernel) 15 (by decide) _).mpr ?_
  rw [LengthRight, if_pos (by decide)]
  exact ⟨by decide, by decide, by decide⟩

theorem imulEcx_length : ([0xC1] : List Byte).length =
    ((form true 0xAF).fields (decide (operandSizePrefix ∉ [])) (decide (addressSizePrefix ∉ []))
      0xC1 0).sum := by decide

/-- `imul eax, ecx` -/
def imulEcx : Instruction where
  prefixes := []
  escape := true
  opcode := 0xAF
  operands := [0xC1]
  prefixes_mem := by decide
  defined := by decide
  operands_length := imulEcx_length
  short := by decide

/-- Three bytes, of which the decoder takes two. -/
theorem mnemDecode_imul_short : Dispatched imulEcx ∧ Lies (codeMmu [0x00C1AF0F]) 0x1000 imulEcx.bytes ∧
    imulEcx.bytes.length = 3 ∧
      (mnemDecode 15 (codeMmu [0x00C1AF0F]) 0x1000 (Mnem.zero .empty)).map (fun r => (r.1, r.2.counter))
        = some (true, 2) := by
  decide +kernel

end Tomk.Disasm
