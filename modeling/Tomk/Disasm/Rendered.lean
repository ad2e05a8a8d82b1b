/-
# From an instruction in memory to its handler

The decoder goes over the prefixes and the opcode, and what is left of the run is the run of
one handler (`mnemDecode_handler`), from a decoder of which all is known that a handler looks
at (`Inside`): it stands at a byte of the instruction, with the sizes that the prefixes
left, and there is nothing in the line but a token for each lock prefix.  For a handler with a
ModR/M byte the decoder behind that byte is known as well (`fetchModrm_run`).
-/
import Tomk.Disasm.OperandTokens

namespace Tomk.Disasm

open Early I386

variable {mmu : Mmu} {addr : U32} {ins : Instruction} {m : Mnem}

/-! ## The handler of an opcode -/

/-- The rows of a table with ranges in order. -/
theorem switch_eq {α : Type} {op lo hi : Nat} {x d : α} {rows : List (Nat × Nat × α)}
    (hsorted : rows.Pairwise fun a b => a.2.1 < b.1) (hmem : (lo, hi, x) ∈ rows) (hlo : lo ≤ op)
    (hhi : op ≤ hi) : switch op d rows = x := by
  induction rows with
  | nil => cases hmem
  | cons row rows ih =>
      obtain ⟨lo', hi', y⟩ := row
      obtain ⟨hhead, htail⟩ := List.pairwise_cons.mp hsorted
      rw [switch]
      rcases List.mem_cons.mp hmem with heq | hmem
      · obtain ⟨rfl, rfl, rfl⟩ : lo = lo' ∧ hi = hi' ∧ x = y := by
          simpa only [Prod.mk.injEq] using heq
        exact if_pos ⟨hlo, hhi⟩
      · have hlt : hi' < lo := hhead _ hmem
        rw [if_neg (by omega)]
        exact ih htail hmem

theorem opcodes_sorted : opcodes.Pairwise fun a b => a.2.1 < b.1 := by decide +kernel

theorem opcodes0f_sorted : opcodes0f.Pairwise fun a b => a.2.1 < b.1 := by decide +kernel

/-- `x` is the handler of the opcode. -/
def Handles (ins : Instruction) (x : Dec Unit) : Prop :=
  if ins.escape then switch ins.opcode.toNat (pure ()) opcodes0f = x
  else switch ins.opcode.toNat (pure .ok) opcodes = brk x

theorem handles_of_mem (he : ins.escape = false) (lo hi : Nat) (x : Dec Unit)
    (hmem : (lo, hi, brk x) ∈ opcodes) (hlo : lo ≤ ins.opcode.toNat) (hhi : ins.opcode.toNat ≤ hi) :
    Handles ins x := by
  rw [Handles, he]
  exact switch_eq opcodes_sorted hmem hlo hhi

theorem handles_of_mem0f (he : ins.escape = true) (lo hi : Nat) (x : Dec Unit)
    (hmem : (lo, hi, x) ∈ opcodes0f) (hlo : lo ≤ ins.opcode.toNat) (hhi : ins.opcode.toNat ≤ hi) :
    Handles ins x := by
  rw [Handles, he]
  exact switch_eq opcodes0f_sorted hmem hlo hhi

/-! ## The decoder at the instruction -/

/-- The decoder has gone over `c` bytes of the instruction, and knows its opcode. -/
structure Inside (addr : U32) (ins : Instruction) (c : Nat) (m : Mnem) : Prop where
  offset : m.offset = addr
  counter : m.counter = BitVec.ofNat 16 c
  opcode : m.opcode = ins.opcode
  op32 : m.op32 = toggledOp32 ins
  addr32 : m.addr32 = toggledAddr32 ins
  line : m.line = RenderLine.empty.addAll (lockTokens ins.prefixes)

theorem Inside.eip {c : Nat} (h : Inside addr ins c m) (hc : c < 2 ^ 16) :
    m.eip = addr + BitVec.ofNat 32 c := eip_eq h.offset h.counter hc

/-- A handler adds no more than 17 tokens, and there are no more than 15 prefixes before
it. -/
theorem Inside.tokens {c : Nat} (h : Inside addr ins c m) {toks : List Token}
    (htoks : toks.length ≤ 17) :
    (m.line.addAll toks).tokens = lockTokens ins.prefixes ++ toks := by
  have hlocks := length_lockTokens_le ins.prefixes
  have hshort := ins.short
  have hempty : RenderLine.empty.tokens = [] := rfl
  have hmax : maxTokens = 32 := rfl
  rw [h.line, ← RenderLine.addAll_append, RenderLine.tokens_addAll, hempty, List.nil_append]
  rw [hempty, List.length_nil, List.length_append, hmax]
  omega

/-- The last turn of the loop is the run of the handler. -/
theorem decodeInstruction_brk {x : Dec Unit} (n : Nat)
    (h : decodeOpcode mmu m = brk x mmu m) :
    decodeInstruction (n + 1) mmu m = (x mmu m).map fun r => (.ok, r.2) := by
  rw [decodeInstruction, h, brk, bind_run, Early.call]
  cases x mmu m <;> rfl

/-- **The run of an instruction is the run of its handler.** -/
theorem mnemDecode_handler {n : Nat} {x : Dec Unit} (hlies : Lies mmu addr ins.bytes)
    (hn : ins.prefixes.length < n) (m0 : Mnem) (hx : Handles ins x) :
    ∃ m, Inside addr ins (fieldsAt ins) m ∧ m.modrm = 0 ∧
      mnemDecode n mmu addr m0 = (x mmu m).map fun r => (true, r.2) := by
  obtain ⟨n, rfl⟩ : ∃ n', n = ins.prefixes.length + (n' + 1) :=
    ⟨n - ins.prefixes.length - 1, by omega⟩
  obtain ⟨m, hm, hrun⟩ := mnemDecode_eq hlies (n + 1) m0
  have hlong := ins.length_bytes_le
  have hbytes := length_bytes_eq ins
  have hok : (.ok : Status) = .ok := rfl
  cases he : ins.escape with
  | false =>
      have hat : fieldsAt ins = ins.prefixes.length + 1 := by rw [fieldsAt, he]; rfl
      have hopcode : m.opcode = ins.opcode := by rw [hm.opcode, firstOpcode, he]; rfl
      have hinside : Inside addr ins (fieldsAt ins) m :=
        ⟨hm.offset, hat ▸ hm.counter, hopcode, toggled_op32 hm.operandSize,
          toggled_op32 hm.addressingSize, hm.line⟩
      have hturn : decodeOpcode mmu m = brk x mmu m := by
        rw [Handles, he] at hx
        show switch m.opcode.toNat (pure .ok) opcodes mmu m = _
        rw [hopcode]
        exact congrFun (congrFun hx mmu) m
      refine ⟨m, hinside, hm.modrm, ?_⟩
      rw [hrun, decodeInstruction_brk n hturn, Option.map_map]
      exact congrArg (fun f => Option.map f (x mmu m)) (funext fun r => Prod.ext (decide_eq_true hok) rfl)
  | true =>
      have hat : fieldsAt ins = ins.prefixes.length + 2 := by rw [fieldsAt, he]; rfl
      have hopcode : m.opcode = escapeByte := by rw [hm.opcode, firstOpcode, he]; rfl
      have heip := eip_eq hm.offset hm.counter (by omega)
      have hmap : Mapped mmu m.eip := heip ▸ (hlies _ (by omega)).1
      have hload : loadByte m.eip mmu = some ins.opcode := by
        rw [heip]
        exact load_escape hlies he
      have hinside : Inside addr ins (fieldsAt ins)
          { m with counter := m.counter + 1, opcode := ins.opcode } := by
        refine ⟨hm.offset, ?_, rfl, toggled_op32 hm.operandSize, toggled_op32 hm.addressingSize,
          hm.line⟩
        show m.counter + 1 = _
        rw [hm.counter, hat]
        exact (BitVec.ofNat_add ..).symm
      have hturn := decodeOpcode_escape mmu hopcode
      refine ⟨_, hinside, hm.modrm, ?_⟩
      have hescape : decodeOpcode0f mmu m
          = x mmu { m with counter := m.counter + 1, opcode := ins.opcode } := by
        rw [Handles, he] at hx
        rw [decodeOpcode0f, bind_run, fetchOpcode_run hmap hload]
        exact congrFun (congrFun hx mmu) _
      rw [hrun, decodeInstruction_brk n hturn, Option.map_map, hescape]
      exact congrArg (fun f => Option.map f _) (funext fun r => Prod.ext (decide_eq_true hok) rfl)

/-! ## The line -/

/-- The run leaves a line with tokens as `P` has them. -/
def Renders (mmu : Mmu) (addr : U32) (n : Nat) (m0 : Mnem) (P : List Token → Prop) : Prop :=
  ∃ r m, mnemDecode n mmu addr m0 = some (r, m) ∧ P m.line.tokens

variable {n c k : Nat} {m0 : Mnem} {x : Dec Unit} {toks : List Token} {P : List Token → Prop}

/-- What is in the line if the handler comes back. -/
theorem Renders.of_runs {r : Option Unit} (h : Renders mmu addr n m0 P)
    (hrun : mnemDecode n mmu addr m0 = (x mmu m).map fun r => (true, r.2))
    (hm : Inside addr ins c m) (hx : Runs mmu x m k toks r) (htoks : toks.length ≤ 17) :
    P (lockTokens ins.prefixes ++ toks) := by
  obtain ⟨r', m', hrun', hP⟩ := h
  rw [hrun] at hrun'
  obtain ⟨⟨r1, m1⟩, hx1, heq⟩ := Option.map_eq_some_iff.mp hrun'
  obtain ⟨-, rfl⟩ := Prod.mk.inj heq
  obtain ⟨-, rfl⟩ := hx.run m.line r1 m1 hx1
  rwa [← hm.tokens htoks]

theorem renders_iff (hrun : mnemDecode n mmu addr m0 = (x mmu m).map fun r => (true, r.2))
    (hm : Inside addr ins c m) (hx : Emits mmu x m k toks ()) (htoks : toks.length ≤ 17) :
    Renders mmu addr n m0 P ↔ P (lockTokens ins.prefixes ++ toks) := by
  refine ⟨fun h => h.of_runs hrun hm hx.runs htoks, fun hP => ?_⟩
  have hx1 : x mmu m = some (some (), { m.skip k with line := m.line.addAll toks }) := hx.run m.line
  refine ⟨true, { m.skip k with line := m.line.addAll toks }, by rw [hrun, hx1]; rfl, ?_⟩
  rwa [← hm.tokens htoks] at hP

/-! ## A field, and what is printed with it -/

/-- `x` prints `toks`, and takes a field of `k` bytes. -/
structure FieldAt {α : Type} (mmu : Mmu) (x : Dec α) (m : Mnem) (toks : List Token) (k : Nat)
    (value : List U8 → α) : Prop where
  emits : ∀ field, field.length = k → Reads mmu m.eip field →
    Emits mmu x m k toks (value field)
  fails : (∀ field, field.length = k → ¬ Reads mmu m.eip field) → Runs mmu x m 0 toks none

section

variable {α : Type} {y : Dec α} {f : α → Dec Unit} {value : List U8 → α} {a : List Token}
  {b : α → List Token}

theorem FetchesAt.fieldAt (h : FetchesAt mmu y m k value) : FieldAt mmu y m [] k value :=
  ⟨h.emits, h.fails⟩

theorem FieldAt.before (h : FieldAt mmu y m a k value) (hx : Emits mmu x m 0 toks ()) :
    FieldAt mmu (do x; y) m (toks ++ a) k value where
  emits field hlen hreads := hx.seq (h.emits field hlen hreads)
  fails hno := hx.runs_seq (h.fails hno)

/-- **A handler that takes one field.** -/
theorem renders_field (hrun : mnemDecode n mmu addr m0 = ((y >>= f) mmu m).map fun r => (true, r.2))
    (hm : Inside addr ins c m) (hy : FieldAt mmu y m a k value)
    (hf : ∀ v, Emits mmu (f v) (m.skip k) 0 (b v) ()) (hlen : ∀ v, (a ++ b v).length ≤ 17)
    (hnone : ¬ P (lockTokens ins.prefixes ++ a)) :
    Renders mmu addr n m0 P ↔ ∃ field, field.length = k ∧ Reads mmu m.eip field ∧
      P (lockTokens ins.prefixes ++ (a ++ b (value field))) := by
  by_cases hex : ∃ field, field.length = k ∧ Reads mmu m.eip field
  · obtain ⟨field, hk, hreads⟩ := hex
    have hemits := (hy.emits field hk hreads).last (hf (value field))
    rw [renders_iff hrun hm hemits (hlen _)]
    refine ⟨fun hP => ⟨field, hk, hreads, hP⟩, ?_⟩
    rintro ⟨field', hk', hreads', hP⟩
    rwa [hreads.unique hreads' (hk.trans hk'.symm)]
  · have hruns := (hy.fails fun field hk hr => hex ⟨field, hk, hr⟩).ret (f := f)
    constructor
    · intro h
      have hle := hlen (value [])
      rw [List.length_append] at hle
      exact absurd (h.of_runs hrun hm hruns (by omega)) hnone
    · rintro ⟨field, hk, hreads, -⟩
      exact (hex ⟨field, hk, hreads⟩).elim

variable {size : Nat} {t : List Token} {u : α → List Token}

/-- **A handler that takes a field before the displacement of its operand.** -/
theorem renders_early (hrun : mnemDecode n mmu addr m0 = ((y >>= f) mmu m).map fun r => (true, r.2))
    (hm : Inside addr ins c m) (hy : FieldAt mmu y m a k value)
    (hf : ∀ v, RmLine mmu (f v) (m.skip k) size t (u v))
    (hlen : ∀ v, a.length + t.length + (u v).length ≤ 7)
    (hnone : ¬ P (lockTokens ins.prefixes ++ a))
    (hcut : 0 < m.disp.sum →
      ∀ v, ¬ P (lockTokens ins.prefixes ++ (a ++ (t ++ (cutTokens m ++ u v))))) :
    Renders mmu addr n m0 P ↔ ∃ field disp, field.length = k ∧ Reads mmu m.eip field ∧
      disp.length = m.disp.sum ∧ (0 < m.disp.sum → Reads mmu (m.skip k).eip disp) ∧
        P (lockTokens ins.prefixes ++ (a ++ (t ++ (rmTokens m size disp ++ u (value field))))) := by
  by_cases hex : ∃ field, field.length = k ∧ Reads mmu m.eip field
  · obtain ⟨field, hk, hreads⟩ := hex
    have hfield := hy.emits field hk hreads
    have hle := hlen (value field)
    by_cases hdisp : ∃ disp, disp.length = m.disp.sum ∧
        (0 < m.disp.sum → Reads mmu (m.skip k).eip disp)
    · obtain ⟨disp, hd, hdreads⟩ := hdisp
      have hrm := length_rmTokens_le (m.skip k) size disp
      have hemits := hfield.bind ((hf (value field)).emits disp hd hdreads)
      rw [renders_iff hrun hm hemits (by simp only [List.length_append]; omega)]
      refine ⟨fun hP => ⟨field, disp, hk, hreads, hd, hdreads, hP⟩, ?_⟩
      rintro ⟨field', disp', hk', hreads', hd', hdreads', hP⟩
      rw [hreads.unique hreads' (hk.trans hk'.symm)]
      by_cases hpos : 0 < m.disp.sum
      · rwa [(hdreads hpos).unique (hdreads' hpos) (hd.trans hd'.symm)]
      · rwa [List.length_eq_zero_iff.mp (hd.trans (by omega)),
          ← List.length_eq_zero_iff.mp (hd'.trans (by omega))]
    · have hpos : 0 < m.disp.sum := by
        by_contra h0
        exact hdisp ⟨[], by rw [List.length_nil]; omega, fun h => absurd h h0⟩
      have hruns := hfield.runs.bind ((hf (value field)).fails hpos fun disp hd hr =>
        hdisp ⟨disp, hd, fun _ => hr⟩)
      constructor
      · intro h
        refine absurd (h.of_runs hrun hm hruns ?_) (hcut hpos _)
        have hthree : (cutTokens (m.skip k)).length = 3 := rfl
        simp only [List.length_append]
        omega
      · rintro ⟨-, disp, -, -, hd, hdreads, -⟩
        exact (hdisp ⟨disp, hd, hdreads⟩).elim
  · have hruns := (hy.fails fun field hk hr => hex ⟨field, hk, hr⟩).ret (f := f)
    constructor
    · intro h
      have hle := hlen (value [])
      exact absurd (h.of_runs hrun hm hruns (by omega)) hnone
    · rintro ⟨field, -, hk, hreads, -⟩
      exact (hex ⟨field, hk, hreads⟩).elim

end

/-! ## The fields of the instruction -/

theorem lies_operands (hlies : Lies mmu addr ins.bytes) :
    Lies mmu (addr + BitVec.ofNat 32 (fieldsAt ins)) ins.operands := by
  have hfront : (ins.prefixes ++ ins.opcodeBytes).length = fieldsAt ins := by
    rw [List.length_append, Instruction.opcodeBytes, fieldsAt]
    split <;> rfl
  have h : Lies mmu addr ((ins.prefixes ++ ins.opcodeBytes) ++ ins.operands) := hlies
  exact hfront ▸ h.right

/-- The fields behind the opcode, for a handler without a ModR/M byte. -/
theorem Inside.here (h : Inside addr ins (fieldsAt ins) m) (hlies : Lies mmu addr ins.bytes) :
    Here mmu m ins.operands := by
  have hlong := ins.length_bytes_le
  have hbytes := length_bytes_eq ins
  refine ⟨?_, ?_⟩
  · rw [h.eip (by omega)]
    exact lies_operands hlies
  · rw [h.counter, BitVec.toNat_ofNat]
    omega

/-- The bytes of the ModR/M byte and the SIB byte that the decoder takes. -/
def modrmLength (ins : Instruction) : Nat := 1 + (sibFields (toggledAddr32 ins) ins.modrm).sum

/-- The decoder has gone over the ModR/M byte, and over the SIB byte where it expects one. -/
structure AtOperand (addr : U32) (ins : Instruction) (m : Mnem) : Prop
    extends Inside addr ins (fieldsAt ins + modrmLength ins) m where
  modrm : m.modrm = ins.modrm
  sib : HasSib (toggledAddr32 ins) ins.modrm → m.sib = ins.sib

theorem fetchByte_run {b : U8} (hmap : Mapped mmu m.eip) (hload : loadByte m.eip mmu = some b) :
    fetchByte mmu m = some (some b, { m with counter := m.counter + 1 }) := by
  obtain ⟨phys, hphys, h0⟩ := hmap
  rw [fetchByte, fetch_run, hphys, Option.bind_some, if_neg h0, hload]
  rfl

theorem fetchModrm_run (h : Inside addr ins (fieldsAt ins) m) (hlies : Lies mmu addr ins.bytes)
    (hpos : 0 < ins.operands.length)
    (hsib : HasSib (toggledAddr32 ins) ins.modrm → 1 < ins.operands.length) :
    ∃ m', AtOperand addr ins m' ∧ fetchModrm mmu m = some (some (), m') := by
  have hlong := ins.length_bytes_le
  have hbytes := length_bytes_eq ins
  have hbyte : ∀ i (hi : i < ins.operands.length), Mapped mmu (addr + BitVec.ofNat 32 (fieldsAt ins + i)) ∧
      loadByte (addr + BitVec.ofNat 32 (fieldsAt ins + i)) mmu = some (ins.operands.getD i 0) := by
    intro i hi
    have h := lies_operands hlies i hi
    rw [BitVec.add_assoc, ← BitVec.ofNat_add] at h
    rwa [List.getD_eq_getElem _ _ hi]
  have heip : m.eip = addr + BitVec.ofNat 32 (fieldsAt ins + 0) := h.eip (by omega)
  have h0 := hbyte 0 hpos
  rw [← heip] at h0
  rw [fetchModrm, bind_run, fetchByte_run h0.1 h0.2]
  show ∃ m', AtOperand addr ins m' ∧
    sibCheck mmu { m with counter := m.counter + 1, modrm := ins.modrm } = some (some (), m')
  have hcond : (m.addr32 = true ∧ modField ins.modrm ≠ 0b11 ∧ rmField ins.modrm = 0b100)
      ↔ HasSib (toggledAddr32 ins) ins.modrm := h.addr32 ▸ Iff.rfl
  have hcounter : m.counter + 1 = BitVec.ofNat 16 (fieldsAt ins + 1) := by
    rw [h.counter]
    exact (BitVec.ofNat_add ..).symm
  rw [sibCheck, state_bind]
  show ∃ m', AtOperand addr ins m' ∧
    (if m.addr32 = true ∧ modField ins.modrm ≠ 0b11 ∧ rmField ins.modrm = 0b100 then _ else _ :
      Dec Unit) mmu _ = some (some (), m')
  by_cases hs : HasSib (toggledAddr32 ins) ins.modrm
  · have heip1 : Mnem.eip { m with counter := m.counter + 1, modrm := ins.modrm }
        = addr + BitVec.ofNat 32 (fieldsAt ins + 1) := eip_eq h.offset hcounter (by omega)
    have h1 := hbyte 1 (hsib hs)
    rw [← heip1] at h1
    rw [if_pos (hcond.mpr hs), bind_run, fetchByte_run h1.1 h1.2]
    refine ⟨{ m with counter := m.counter + 1 + 1, modrm := ins.modrm, sib := ins.sib },
      ⟨⟨h.offset, ?_, h.opcode, h.op32, h.addr32, h.line⟩, rfl, fun _ => rfl⟩, rfl⟩
    show m.counter + 1 + 1 = _
    rw [hcounter, modrmLength, sibFields, if_pos hs]
    exact (BitVec.ofNat_add ..).symm
  · rw [if_neg (fun hc => hs (hcond.mp hc))]
    refine ⟨{ m with counter := m.counter + 1, modrm := ins.modrm },
      ⟨⟨h.offset, ?_, h.opcode, h.op32, h.addr32, h.line⟩, rfl, fun h => absurd h hs⟩, rfl⟩
    show m.counter + 1 = _
    rw [hcounter, modrmLength, sibFields, if_neg hs]
    rfl

/-- What is behind the ModR/M byte. -/
theorem AtOperand.lies (h : AtOperand addr ins m) (hlies : Lies mmu addr ins.bytes)
    (hle : modrmLength ins ≤ ins.operands.length) :
    Lies mmu m.eip (ins.operands.drop (modrmLength ins)) := by
  have hlong := ins.length_bytes_le
  have hbytes := length_bytes_eq ins
  have hsplit := lies_operands hlies
  rw [← List.take_append_drop (modrmLength ins) ins.operands] at hsplit
  have hright := hsplit.right
  rw [List.length_take, Nat.min_eq_left hle, BitVec.add_assoc, ← BitVec.ofNat_add] at hright
  rwa [h.toInside.eip (by omega)]

/-- **A handler with a ModR/M byte**, from behind that byte on. -/
theorem mnemDecode_operand {f : Unit → Dec Unit} (hlies : Lies mmu addr ins.bytes)
    (hn : ins.prefixes.length < n) (m0 : Mnem) (hx : Handles ins (fetchModrm >>= f))
    (hpos : 0 < ins.operands.length)
    (hsib : HasSib (toggledAddr32 ins) ins.modrm → 1 < ins.operands.length) :
    ∃ m, AtOperand addr ins m ∧
      mnemDecode n mmu addr m0 = (f () mmu m).map fun r => (true, r.2) := by
  obtain ⟨m, hm, -, hrun⟩ := mnemDecode_handler hlies hn m0 hx
  obtain ⟨m', hm', hmodrm⟩ := fetchModrm_run hm hlies hpos hsib
  refine ⟨m', hm', ?_⟩
  rw [hrun, bind_run, hmodrm]
  rfl

/-- A group whose members differ in their mnemonic. -/
theorem byReg_run {g : Name → Dec Unit} (names : List Name) (h8 : names.length = 8) (mmu : Mmu)
    (m : Mnem) : ∃ text, byReg (names.map g) mmu m = g text mmu m := by
  have hr : m.reg < (names.map g).length := by rw [List.length_map, h8]; exact reg_lt m
  refine ⟨names.get ⟨m.reg, List.length_map g ▸ hr⟩, ?_⟩
  show (names.map g).getD m.reg (pure ()) mmu m = _
  rw [List.getD_eq_getElem _ _ hr, List.getElem_map]
  rfl

/-- Such a group, from the prefixes on. -/
theorem mnemDecode_byReg {g : Name → Dec Unit} (names : List Name) (h8 : names.length = 8)
    (hlies : Lies mmu addr ins.bytes) (hn : ins.prefixes.length < n) (m0 : Mnem)
    (hx : Handles ins (fetchModrm >>= fun _ => byReg (names.map g)))
    (hpos : 0 < ins.operands.length)
    (hsib : HasSib (toggledAddr32 ins) ins.modrm → 1 < ins.operands.length) :
    ∃ m text, AtOperand addr ins m ∧
      mnemDecode n mmu addr m0 = (g text mmu m).map fun r => (true, r.2) := by
  obtain ⟨m, hm, hrun⟩ := mnemDecode_operand hlies hn m0 hx hpos hsib
  obtain ⟨text, hby⟩ := byReg_run (g := g) names h8 mmu m
  exact ⟨m, text, hm, hrun.trans (congrArg (Option.map fun r => (true, r.2)) hby)⟩

/-! ## Widths -/

/-- The width of the operands, in bytes: an even opcode of the first map is a byte form. -/
def operandWidth (ins : Instruction) : Nat :=
  if ins.escape = false ∧ ins.opcode.toNat % 2 = 0 then 1 else if ins.op32 then 4 else 2

theorem Inside.sizeV (h : Inside addr ins c m) : m.sizeV = if toggledOp32 ins then 4 else 2 := by
  rw [Mnem.sizeV, h.op32]

/-- `W` is the low bit. -/
theorem and_one_ne_zero_iff (b : U8) : (b &&& 0x1 != 0) = decide (b.toNat % 2 = 1) := by
  have h : ∀ i < 256, (BitVec.ofNat 8 i &&& 0x1 != 0) = decide (i % 2 = 1) := by
    decide +kernel
  rw [← h b.toNat b.isLt, ofNat_opcode]

theorem Inside.w (h : Inside addr ins c m) : m.w = decide (ins.opcode.toNat % 2 = 1) := by
  rw [Mnem.w, h.opcode, and_one_ne_zero_iff]

/-- Without a prefix the toggles leave 32 bits. -/
theorem toggledOp32_of_op32 (h : ins.op32 = true) : toggledOp32 ins = true := by
  have hcount : ins.prefixes.count operandSizePrefix = 0 :=
    List.count_eq_zero.mpr (of_decide_eq_true h)
  rw [toggledOp32, hcount]
  rfl

theorem Inside.sizeW_eq_iff (h : Inside addr ins c m) (he : ins.escape = false) :
    m.sizeW = operandWidth ins ↔ ins.opcode.toNat % 2 = 0 ∨ toggledOp32 ins = ins.op32 := by
  rw [Mnem.sizeW, h.w, h.sizeV, operandWidth, he]
  rcases Nat.mod_two_eq_zero_or_one ins.opcode.toNat with h0 | h1
  · simp [h0]
  · cases toggledOp32 ins <;> cases ins.op32 <;> simp [h1]

end Tomk.Disasm
