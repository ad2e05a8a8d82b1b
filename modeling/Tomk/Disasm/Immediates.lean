/-
# Immediate operands

An immediate stands behind the displacement.  Two handlers take it there, those of C6/C7 and
of the double shifts; the others with a ModR/M byte take it before they print the operand, and
so before its displacement.  What they print is still right where there is no displacement, or where the
bytes happen to read the same in either order: the exact condition is about the bytes in
memory, at the two places where a handler looks for the fields (`FieldsThere`).

Beside the order, the accumulator forms cut their immediate down to a byte, `int` has
it in a token of another type, and where the operand size decides about a width it has to be
what the prefixes say.
-/
import Tomk.Disasm.Branches
import Tomk.Disasm.RegisterWidths

namespace Tomk.Disasm

open Early I386

variable {mmu : Mmu} {addr : U32} {ins : Instruction} {m : Mnem} {n c k : Nat} {m0 : Mnem}

/-! ## The fields of the instruction -/

def immKind (ins : Instruction) : Imm := ins.form.immediate ins.modrm

/-- How many bytes there are before the displacement. -/
def dispAt (ins : Instruction) : Nat :=
  if ins.form.hasModrm then 1 + (sibFields ins.addr32 ins.modrm).sum else 0

def dispLength (ins : Instruction) : Nat :=
  if ins.form.hasModrm then (dispFields ins.addr32 ins.modrm ins.sib).sum else 0

def dispBytes (ins : Instruction) : List U8 := (ins.operands.drop (dispAt ins)).take (dispLength ins)

def immBytes (ins : Instruction) : List U8 := ins.operands.drop (dispAt ins + dispLength ins)

theorem operands_length_split (ins : Instruction) : ins.operands.length
    = dispAt ins + dispLength ins + ((immKind ins).fields ins.op32 ins.addr32).sum := by
  have hdef : ins.form.Defined ins.modrm := ins.defined
  rw [ins.operands_length_eq, Instruction.fields, Form.fields_eq hdef, List.sum_append, dispAt,
    dispLength, ← immKind]
  split
  · rw [List.sum_cons, List.sum_append, ← Nat.add_assoc 1]
  · rfl

theorem length_immBytes (ins : Instruction) :
    (immBytes ins).length = ((immKind ins).fields ins.op32 ins.addr32).sum := by
  rw [immBytes, List.length_drop, operands_length_split]
  omega

theorem length_dispBytes (ins : Instruction) : (dispBytes ins).length = dispLength ins := by
  have hlen := operands_length_split ins
  rw [dispBytes, List.length_take, List.length_drop]
  omega

/-- The bytes behind the ModR/M byte and the SIB byte. -/
theorem dispBytes_append_immBytes (ins : Instruction) :
    dispBytes ins ++ immBytes ins = ins.operands.drop (dispAt ins) := by
  rw [dispBytes, immBytes, ← List.drop_drop, List.take_append_drop]

/-! ## What should be in the line -/

/-- The immediates in a line, each with its size, its value in that size, and whether it stands in
brackets: then it is a displacement. -/
def immediates : Bool → List Token → List (Bool × Nat × Nat)
  | _, [] => []
  | inside, t :: toks =>
      if t.type = .memory then immediates (!inside) toks
      else if t.type = .immediate then
        (inside, t.operandSize, t.number.toNat % 256 ^ t.operandSize) :: immediates inside toks
      else immediates inside toks

/-- `PUSH`, `IMUL` and the arithmetic instructions with a byte that is extended to the operand
size. -/
def signExtends (ins : Instruction) : Bool :=
  !ins.escape && decide (ins.opcode.toNat ∈ [0x6A, 0x6B, 0x83])

/-- The operand size in bytes. -/
def sizeOp (op32 : Bool) : Nat := if op32 then 4 else 2

/-- The operands that are immediate, with their sizes and values: a selector is printed before
its offset. -/
def immOperands (ins : Instruction) : List (Bool × Nat × Nat) :=
  if immKind ins = .wb then
    [(false, 2, littleEndian ((immBytes ins).take 2)), (false, 1, littleEndian ((immBytes ins).drop 2))]
  else if immKind ins = .far then
    [(false, 2, littleEndian ((immBytes ins).drop (sizeOp ins.op32))),
      (false, sizeOp ins.op32, littleEndian ((immBytes ins).take (sizeOp ins.op32)))]
  else if signExtends ins then
    [(false, sizeOp ins.op32, (signExtended (immBytes ins)).toNat % 256 ^ sizeOp ins.op32)]
  else [(false, (immBytes ins).length, littleEndian (immBytes ins))]

def dispOperand (disp : List U8) : List (Bool × Nat × Nat) :=
  if disp = [] then [] else [(true, disp.length, littleEndian disp)]

/-- The immediates of the line are the displacement and the immediate operands. -/
def ImmediatesRight (ins : Instruction) (toks : List Token) : Prop :=
  immediates false toks = dispOperand (dispBytes ins) ++ immOperands ins

/-! ## The immediates of a list of tokens -/

/-- Neither a bracket nor an immediate. -/
def isPlain (t : Token) : Bool := t.type ≠ .memory && t.type ≠ .immediate

variable {inside : Bool} {toks l : List Token}

theorem immediates_plain (h : toks.all isPlain = true) :
    immediates inside (toks ++ l) = immediates inside l := by
  induction toks with
  | nil => rfl
  | cons t toks ih =>
      rw [List.all_cons, Bool.and_eq_true] at h
      have hplain : t.type ≠ .memory ∧ t.type ≠ .immediate := by simpa [isPlain] using h.1
      rw [List.cons_append, immediates, if_neg hplain.1, if_neg hplain.2]
      exact ih h.2

theorem immediates_imm (v : U32) (size : Nat) :
    immediates inside (immToken v size :: l)
      = (inside, size, v.toNat % 256 ^ size) :: immediates inside l := rfl

theorem lockTokens_plain (p : List U8) : (lockTokens p).all isPlain = true := by
  rw [List.all_eq_true]
  intro t ht
  rw [mem_lockTokens ht]
  rfl

theorem pow_256 (k : Nat) : 256 ^ k = 2 ^ (8 * k) := by
  rw [Nat.pow_mul]

theorem littleEndian_lt_pow {l : List U8} (hk : l.length = k) : littleEndian l < 256 ^ k := by
  rw [pow_256, ← hk]
  exact littleEndian_lt l

/-- A number as long as its bytes. -/
theorem number32_mod {l : List U8} (hk : l.length = k) (h4 : k ≤ 4) :
    (number32 l).toNat % 256 ^ k = littleEndian l := by
  have hlt := littleEndian_lt_pow hk
  have hle : 256 ^ k ≤ 2 ^ 32 := by
    rw [pow_256]
    exact Nat.pow_le_pow_right (by omega) (by omega)
  rw [number32, BitVec.toNat_ofNat, Nat.mod_eq_of_lt (a := littleEndian l) (by omega),
    Nat.mod_eq_of_lt hlt]

theorem signExtended_mod {l : List U8} (hk : l.length = k) (h4 : k ≤ 4) :
    (signExtended l).toNat % 256 ^ k = littleEndian l := by
  have hlow := setWidth_signExtend (j := 8 * k) (w := 32) (by omega) (BitVec.ofNat (8 * k) (littleEndian l))
  rw [BitVec.signExtend_eq] at hlow
  have h := congrArg BitVec.toNat hlow
  rwa [BitVec.toNat_setWidth, BitVec.toNat_ofNat, ← pow_256,
    Nat.mod_eq_of_lt (littleEndian_lt_pow hk), ← hk, ← signExtended, hk] at h

theorem dispValue_mod {disp : List U8} (hk : disp.length = k) (h4 : k ≤ 4) (m : Mnem) :
    (dispValue m disp).toNat % 256 ^ k = littleEndian disp := by
  rw [dispValue]
  split
  · exact number32_mod hk h4
  · exact signExtended_mod hk h4

theorem immediates_dispToken {disp : List U8} (hne : disp ≠ []) (h4 : disp.length ≤ 4) :
    immediates true (dispToken m disp :: l) = dispOperand disp ++ immediates true l := by
  rw [dispToken, immediates_imm, dispValue_mod rfl h4, dispOperand, if_neg hne]
  rfl

theorem dispOperand_inj {disp disp' : List U8} (h : dispOperand disp = dispOperand disp') :
    disp = disp' := by
  rw [dispOperand, dispOperand] at h
  split at h
  · next hd =>
      split at h
      · next hd' => rw [hd, hd']
      · cases h
  · split at h
    · cases h
    · simp only [List.cons.injEq, Prod.mk.injEq] at h
      exact littleEndian_inj h.1.2.1 h.1.2.2

theorem scaledTokens_plain (m : Mnem) : (scaledTokens m).all isPlain = true := rfl

theorem base16Tokens_plain (m : Mnem) : (base16Tokens m).all isPlain = true := by
  rw [base16Tokens]
  split_ifs <;> rfl

theorem baseTokens_plain (m : Mnem) : (baseTokens m).all isPlain = true := by
  rw [baseTokens]
  split_ifs
  · rfl
  · rw [List.all_cons, List.all_append, scaledTokens_plain]
    rfl
  · rfl
  · rw [List.all_append, base16Tokens_plain]
    rfl

/-- A form with a displacement ends in it, and the others have none. -/
theorem innerTokens_cases {disp : List U8} (hmod : m.mod ≠ 0b11) (hlen : disp.length = m.disp.sum) :
    ∃ front, front.all isPlain = true ∧
      innerTokens m disp = front ++ if disp = [] then [] else [dispToken m disp] := by
  have hdisp : m.disp = dispFields m.addr32 m.modrm m.sib := rfl
  have hwith : ∀ front, front.all isPlain = true → 0 < m.disp.sum →
      innerTokens m disp = front ++ [dispToken m disp] → ∃ front, front.all isPlain = true ∧
        innerTokens m disp = front ++ if disp = [] then [] else [dispToken m disp] := by
    intro front hplain hpos heq
    have hd : disp ≠ [] := List.ne_nil_of_length_pos (by omega)
    exact ⟨front, hplain, by rw [if_neg hd, heq]⟩
  have hwithout : (innerTokens m disp).all isPlain = true → m.disp = [] →
      ∃ front, front.all isPlain = true ∧
        innerTokens m disp = front ++ if disp = [] then [] else [dispToken m disp] := by
    intro hplain hnil
    have hd : disp = [] := List.length_eq_zero_iff.mp (by rw [hlen, hnil]; rfl)
    exact ⟨innerTokens m disp, hplain, by rw [if_pos hd, List.append_nil]⟩
  rw [dispFields, show high2 m.modrm = m.mod from rfl, show low3 m.modrm = m.rm from rfl,
    show low3 m.sib = m.base from rfl] at hdisp
  by_cases h0 : m.mod = 0b00
  · rw [if_pos h0] at hdisp
    cases h32 : m.addr32 with
    | true =>
        rw [if_pos h32] at hdisp
        by_cases h4 : m.rm = 0b100
        · by_cases hi : m.index = 0b100
          · by_cases h5 : m.base = 0b101
            · rw [if_pos (Or.inr ⟨h4, h5⟩)] at hdisp
              exact hwith [] rfl (by rw [hdisp]; decide) (by simp [innerTokens, h0, h32, h4, hi, h5])
            · rw [if_neg (by omega)] at hdisp
              refine hwithout ?_ hdisp
              simp only [innerTokens, h0, h32, h4, hi, h5, if_true, if_false]
              rfl
          · by_cases h5 : m.base = 0b101
            · rw [if_pos (Or.inr ⟨h4, h5⟩)] at hdisp
              exact hwith (scaledTokens m ++ [plusToken]) rfl (by rw [hdisp]; decide)
                (by simp [innerTokens, h0, h32, h4, hi, h5])
            · rw [if_neg (by omega)] at hdisp
              refine hwithout ?_ hdisp
              simp only [innerTokens, h0, h32, h4, hi, h5, if_true, if_false]
              rfl
        · by_cases h5 : m.rm = 0b101
          · rw [if_pos (Or.inl h5)] at hdisp
            exact hwith [] rfl (by rw [hdisp]; decide) (by simp [innerTokens, h0, h32, h5])
          · rw [if_neg (by omega)] at hdisp
            refine hwithout ?_ hdisp
            simp only [innerTokens, h0, h32, h4, h5, if_true, if_false]
            rfl
    | false =>
        rw [if_neg (by rw [h32]; exact Bool.false_ne_true)] at hdisp
        by_cases h6 : m.rm = 0b110
        · rw [if_pos h6] at hdisp
          exact hwith [] rfl (by rw [hdisp]; decide) (by simp [innerTokens, h0, h32, h6])
        · rw [if_neg h6] at hdisp
          refine hwithout ?_ hdisp
          rw [innerTokens, if_pos h0, if_neg (by rw [h32]; exact Bool.false_ne_true), if_neg h6]
          exact base16Tokens_plain m
  · have hlt : m.mod < 4 := Nat.div_lt_of_lt_mul m.modrm.isLt
    have hpos : 0 < m.disp.sum := by
      rw [if_neg h0] at hdisp
      rw [hdisp]
      obtain h1 | h2 : m.mod = 1 ∨ m.mod = 2 := by omega
      · rw [if_pos h1]
        decide
      · rw [if_neg (by omega), if_pos h2]
        split <;> decide
    exact hwith (baseTokens m) (baseTokens_plain m) hpos (by rw [innerTokens, if_neg h0])

theorem length_disp_le (m : Mnem) : m.disp.sum ≤ 4 := by
  rcases dispFields_cases m.addr32 m.modrm m.sib with h | ⟨k, -, h4, h⟩
  · rw [Mnem.disp, h]
    decide
  · rw [Mnem.disp, h]
    exact h4

/-- **The operand** has its displacement in brackets, and nothing else. -/
theorem immediates_rmTokens {size : Nat} {disp : List U8} (hlen : disp.length = m.disp.sum) :
    immediates false (rmTokens m size disp ++ l) = dispOperand disp ++ immediates false l := by
  rw [rmTokens]
  split
  · next h3 =>
      have hnil : disp = [] := by
        rw [disp_of_register h3] at hlen
        exact List.length_eq_zero_iff.mp hlen
      rw [hnil]
      rfl
  · next h3 =>
      obtain ⟨front, hfront, hinner⟩ := innerTokens_cases h3 hlen
      have hopen : immediates false (operandTokens m disp ++ l)
          = immediates true (innerTokens m disp ++ (closeToken :: l)) := by
        rw [operandTokens, List.cons_append, List.cons_append, List.cons_append, List.append_assoc]
        rfl
      have hclose : immediates true (closeToken :: l) = immediates false l := rfl
      rw [hopen, hinner, List.append_assoc, immediates_plain hfront]
      by_cases hd : disp = []
      · rw [if_pos hd, List.nil_append, hclose, hd]
        rfl
      · rw [if_neg hd]
        show immediates true (dispToken m disp :: closeToken :: l) = _
        rw [immediates_dispToken hd (by rw [hlen]; exact length_disp_le m), hclose]

/-! ## Where a handler takes the fields -/

/-- Whether the immediate is taken before the displacement. -/
def takesEarly (ins : Instruction) : Bool :=
  !ins.escape && decide (ins.opcode.toNat ∉ [0xC6, 0xC7])

/-- The address behind the ModR/M byte, and behind the SIB byte where the decoder takes one. -/
def fieldsVa (addr : U32) (ins : Instruction) : U32 :=
  addr + BitVec.ofNat 32 (fieldsAt ins + modrmLength ins)

/-- The displacement is as long by the toggled address size, and the two fields can be read, one behind
the other, in the order in which the handler takes them. -/
def FieldsThere (mmu : Mmu) (addr : U32) (ins : Instruction) : Prop :=
  dispFields (toggledAddr32 ins) ins.modrm ins.sib = dispFields ins.addr32 ins.modrm ins.sib ∧
    if takesEarly ins then
      Reads mmu (fieldsVa addr ins) (immBytes ins) ∧ (dispBytes ins ≠ [] →
        Reads mmu (fieldsVa addr ins + BitVec.ofNat 32 (immBytes ins).length) (dispBytes ins))
    else
      (dispBytes ins ≠ [] → Reads mmu (fieldsVa addr ins) (dispBytes ins)) ∧
        Reads mmu (fieldsVa addr ins + BitVec.ofNat 32 (dispBytes ins).length) (immBytes ins)

instance (mmu : Mmu) (addr : U32) (ins : Instruction) : Decidable (FieldsThere mmu addr ins) :=
  inferInstanceAs (Decidable (_ ∧ ite _ _ _))

/-- The SIB byte counts where the decoder takes it. -/
theorem AtOperand.disp (hm : AtOperand addr ins m) :
    m.disp = dispFields (toggledAddr32 ins) ins.modrm ins.sib := by
  rw [Mnem.disp, hm.addr32, hm.modrm]
  by_cases hs : HasSib (toggledAddr32 ins) ins.modrm
  · rw [hm.sib hs]
  · exact dispFields_of_not_hasSib hs _ _

theorem dispFields_eq_iff {addr32 addr32' : Bool} {modrm sib sib' : Byte} :
    dispFields addr32 modrm sib = dispFields addr32' modrm sib'
      ↔ (dispFields addr32 modrm sib).sum = (dispFields addr32' modrm sib').sum := by
  refine ⟨congrArg List.sum, fun h => ?_⟩
  rcases dispFields_cases addr32 modrm sib with h1 | ⟨k, hk, -, h1⟩
  · rcases dispFields_cases addr32' modrm sib' with h2 | ⟨j, hj, -, h2⟩
    · rw [h1, h2]
    · rw [h1, h2, List.sum_nil, List.sum_singleton] at h
      omega
  · rcases dispFields_cases addr32' modrm sib' with h2 | ⟨j, hj, -, h2⟩
    · rw [h1, h2, List.sum_nil, List.sum_singleton] at h
      omega
    · rw [h1, h2, List.sum_singleton, List.sum_singleton] at h
      rw [h1, h2, h]

theorem AtOperand.eip_fields (hm : AtOperand addr ins m) (hle : modrmLength ins ≤ 2) :
    m.eip = fieldsVa addr ins := by
  have hlong := ins.length_bytes_le
  have hat := fieldsAt_le ins
  exact hm.toInside.eip (by omega)

theorem modrmLength_le (ins : Instruction) : modrmLength ins ≤ 2 := by
  rw [modrmLength, sibFields]
  split <;> decide

/-! ## Whole lines -/

theorem immediatesRight_iff : ImmediatesRight ins (lockTokens ins.prefixes ++ toks)
    ↔ immediates false toks = dispOperand (dispBytes ins) ++ immOperands ins := by
  rw [ImmediatesRight, immediates_plain (lockTokens_plain _)]

variable {α : Type} {x : Dec Unit} {y : Dec α} {f : α → Dec Unit} {value : List U8 → α}
  {a b t : List Token} {u : α → List Token} {g : α → U32} {size sz w v : Nat}

theorem bytes_of_noModrm (h : ins.form.hasModrm = false) :
    dispBytes ins = [] ∧ immBytes ins = ins.operands := by
  have hat : dispAt ins = 0 := by rw [dispAt, h]; rfl
  have hlen : dispLength ins = 0 := by rw [dispLength, h]; rfl
  refine ⟨?_, ?_⟩
  · rw [dispBytes, hlen, List.take_zero]
  · rw [immBytes, hat, hlen]
    rfl

/-- An immediate behind the opcode. -/
theorem renders_immediate (hlies : Lies mmu addr ins.bytes)
    (hrun : mnemDecode n mmu addr m0 = ((y >>= f) mmu m).map fun r => (true, r.2))
    (hm : Inside addr ins (fieldsAt ins) m) (hmodrm : ins.form.hasModrm = false)
    (hy : FieldAt mmu y m a k value) (hf : ∀ v, Emits mmu (f v) (m.skip k) 0 (u v) ())
    (hlen : ∀ v, (a ++ u v).length ≤ 17) (ha : a.all isPlain = true)
    (hu : ∀ v, immediates false (u v) = [(false, sz, (g v).toNat % 256 ^ sz)])
    (hspec : immOperands ins = [(false, w, v)]) (hpos : 0 < (immBytes ins).length)
    (hk : sz = w → k = (immBytes ins).length) :
    Renders mmu addr n m0 (ImmediatesRight ins)
      ↔ sz = w ∧ (g (value (immBytes ins))).toNat % 256 ^ sz = v := by
  obtain ⟨hdisp, himm⟩ := bytes_of_noModrm hmodrm
  have hright : ∀ z, ImmediatesRight ins (lockTokens ins.prefixes ++ (a ++ u z))
      ↔ sz = w ∧ (g z).toNat % 256 ^ sz = v := by
    intro z
    rw [immediatesRight_iff, immediates_plain ha, hu, hspec, hdisp]
    simp [dispOperand]
  have hnone : ¬ ImmediatesRight ins (lockTokens ins.prefixes ++ a) := by
    rw [immediatesRight_iff, ← List.append_nil a, immediates_plain ha, hspec, hdisp]
    exact nofun
  have hreads : Reads mmu m.eip (immBytes ins) := by
    rw [himm] at hpos ⊢
    exact (hm.here hlies).lies.reads hpos
  rw [renders_field hrun hm hy hf hlen hnone]
  constructor
  · rintro ⟨field, hfield, hr, h⟩
    obtain ⟨hsz, hv⟩ := (hright _).mp h
    rw [hr.unique hreads (hfield.trans (hk hsz))] at hv
    exact ⟨hsz, hv⟩
  · rintro ⟨hsz, hv⟩
    exact ⟨immBytes ins, (hk hsz).symm, hreads, (hright _).mpr ⟨hsz, hv⟩⟩

/-- The token of an immediate in a size: where the size is right, so is the length of the field, and the
value tells what the field is. -/
structure ImmediateAt (ins : Instruction) (k sz : Nat) (v : List U8 → Nat) (w x : Nat) : Prop where
  spec : immOperands ins = [(false, w, x)]
  length : sz = w → k = (immBytes ins).length
  value : sz = w → ∀ field, field.length = k → (v field = x ↔ field = immBytes ins)

theorem ImmediateAt.congr {r r' : List U8 → Nat} (h : ImmediateAt ins k sz r w v)
    (heq : ∀ field, field.length = k → r field = r' field) : ImmediateAt ins k sz r' w v where
  spec := h.spec
  length := h.length
  value hsz field hlen := heq field hlen ▸ h.value hsz field hlen

theorem renders_immediate_at (hlies : Lies mmu addr ins.bytes)
    (hrun : mnemDecode n mmu addr m0 = ((y >>= f) mmu m).map fun r => (true, r.2))
    (hm : Inside addr ins (fieldsAt ins) m) (hmodrm : ins.form.hasModrm = false)
    (hy : FieldAt mmu y m a k value) (hf : ∀ v, Emits mmu (f v) (m.skip k) 0 (u v) ())
    (hlen : ∀ v, (a ++ u v).length ≤ 17) (ha : a.all isPlain = true)
    (hu : ∀ v, immediates false (u v) = [(false, sz, (g v).toNat % 256 ^ sz)])
    (himm : ImmediateAt ins k sz (fun field => (g (value field)).toNat % 256 ^ sz) w v)
    (hpos : 0 < (immBytes ins).length) :
    Renders mmu addr n m0 (ImmediatesRight ins) ↔ sz = w := by
  rw [renders_immediate hlies hrun hm hmodrm hy hf hlen ha hu himm.spec hpos himm.length]
  exact and_iff_left_of_imp fun hsz => (himm.value hsz _ (himm.length hsz).symm).mpr rfl

/-- An immediate in brackets is none, and none at all is none. -/
theorem not_right_of_inside {w x : Nat} {p q : Nat} (hspec : immOperands ins = [(false, w, x)])
    (disp : List U8) : [(true, p, q)] ≠ dispOperand disp ++ immOperands ins := by
  rw [hspec, dispOperand]
  split
  · simp
  · simp

theorem not_right_of_none {w x : Nat} (hspec : immOperands ins = [(false, w, x)])
    (disp disp' : List U8) : dispOperand disp' ≠ dispOperand disp ++ immOperands ins := by
  intro h
  have hmem : (false, w, x) ∈ dispOperand disp' := by
    rw [h, hspec]
    exact List.mem_append_right _ List.mem_cons_self
  rw [dispOperand] at hmem
  split at hmem
  · exact absurd hmem List.not_mem_nil
  · exact absurd (List.mem_singleton.mp hmem) (by simp)

/-- Displacement and immediate are right together. -/
theorem right_iff {w x p q : Nat} (hspec : immOperands ins = [(false, w, x)]) (disp disp' : List U8) :
    dispOperand disp' ++ [(false, p, q)] = dispOperand disp ++ immOperands ins
      ↔ disp' = disp ∧ p = w ∧ q = x := by
  rw [hspec]
  constructor
  · intro h
    obtain ⟨hd, hi⟩ := List.append_inj' h rfl
    simp only [List.cons.injEq, Prod.mk.injEq, and_true, true_and] at hi
    exact ⟨dispOperand_inj hd, hi⟩
  · rintro ⟨rfl, rfl, rfl⟩
    rfl

theorem AtOperand.sum_disp (hm : AtOperand addr ins m) (hmodrm : ins.form.hasModrm = true) :
    dispFields (toggledAddr32 ins) ins.modrm ins.sib = dispFields ins.addr32 ins.modrm ins.sib
      ↔ (dispBytes ins).length = m.disp.sum := by
  rw [dispFields_eq_iff, hm.disp, length_dispBytes, dispLength, if_pos hmodrm]
  exact eq_comm

theorem AtOperand.eip_skip (hm : AtOperand addr ins m) (hk : k ≤ 16) :
    (m.skip k).eip = fieldsVa addr ins + BitVec.ofNat 32 k := by
  have hlong := ins.length_bytes_le
  have hat := fieldsAt_le ins
  have hle := modrmLength_le ins
  have hcounter : m.counter.toNat = fieldsAt ins + modrmLength ins := by
    rw [hm.counter, BitVec.toNat_ofNat]
    omega
  rw [Disasm.eip_skip (by omega), hm.eip_fields hle]

theorem length_immBytes_le (ins : Instruction) : (immBytes ins).length ≤ 6 := by
  rw [length_immBytes]
  exact imm_fields_sum ..

/-- **An immediate that is taken before the displacement.** -/
theorem renders_immediate_early (hrun : mnemDecode n mmu addr m0 = ((y >>= f) mmu m).map fun r => (true, r.2))
    (hm : AtOperand addr ins m) (hmodrm : ins.form.hasModrm = true) (hearly : takesEarly ins = true)
    (hy : FieldAt mmu y m a k value) (hf : ∀ v, RmLine mmu (f v) (m.skip k) size t (u v))
    (hlen : ∀ v, a.length + t.length + (u v).length ≤ 7) (ha : a.all isPlain = true)
    (ht : t.all isPlain = true)
    (hu : ∀ inside v, immediates inside (u v) = [(inside, sz, (g v).toNat % 256 ^ sz)])
    (himm : ImmediateAt ins k sz (fun field => (g (value field)).toNat % 256 ^ sz) w v) :
    Renders mmu addr n m0 (ImmediatesRight ins) ↔ sz = w ∧ FieldsThere mmu addr ins := by
  have hright : ∀ disp z, disp.length = m.disp.sum → (ImmediatesRight ins
      (lockTokens ins.prefixes ++ (a ++ (t ++ (rmTokens m size disp ++ u z)))) ↔
        disp = dispBytes ins ∧ sz = w ∧ (g z).toNat % 256 ^ sz = v) := by
    intro disp z hd
    rw [immediatesRight_iff, immediates_plain ha, immediates_plain ht, immediates_rmTokens hd, hu,
      right_iff himm.spec]
  have hnone : ¬ ImmediatesRight ins (lockTokens ins.prefixes ++ a) := by
    rw [immediatesRight_iff, ← List.append_nil a, immediates_plain ha]
    exact not_right_of_none himm.spec (dispBytes ins) []
  have hcut : 0 < m.disp.sum → ∀ z, ¬ ImmediatesRight ins
      (lockTokens ins.prefixes ++ (a ++ (t ++ (cutTokens m ++ u z)))) := by
    intro _ z
    have hopen : immediates false (cutTokens m ++ u z) = immediates true (u z) := rfl
    rw [immediatesRight_iff, immediates_plain ha, immediates_plain ht, hopen, hu]
    exact not_right_of_inside himm.spec _
  have himm6 := length_immBytes_le ins
  have heip := hm.eip_fields (modrmLength_le ins)
  rw [renders_early hrun hm.toInside hy hf hlen hnone hcut, FieldsThere, hm.sum_disp hmodrm,
    if_pos hearly]
  constructor
  · rintro ⟨field, disp, hk, hreads, hd, hdreads, h⟩
    obtain ⟨rfl, hsz, hv⟩ := (hright disp _ hd).mp h
    obtain rfl := (himm.value hsz field hk).mp hv
    refine ⟨hsz, hd, heip ▸ hreads, fun hne => ?_⟩
    rw [hk, ← hm.eip_skip (by omega)]
    exact hdreads (by rw [← hd]; exact List.length_pos_iff.mpr hne)
  · rintro ⟨hsz, hd, hreads, hdreads⟩
    have hk := himm.length hsz
    refine ⟨immBytes ins, dispBytes ins, hk.symm, heip ▸ hreads, hd, fun hpos => ?_, ?_⟩
    · rw [hm.eip_skip (by omega), hk]
      exact hdreads (List.length_pos_iff.mp (by omega))
    · exact (hright _ _ hd).mpr ⟨rfl, hsz, (himm.value hsz _ hk.symm).mpr rfl⟩

/-- A displacement that is read is the one of the instruction, where that one is there. -/
theorem AtOperand.eq_dispBytes (hm : AtOperand addr ins m) {disp : List U8}
    (hd : disp.length = m.disp.sum) (hreads : 0 < m.disp.sum → Reads mmu m.eip disp)
    (hd' : (dispBytes ins).length = m.disp.sum)
    (hr : dispBytes ins ≠ [] → Reads mmu (fieldsVa addr ins) (dispBytes ins)) :
    disp = dispBytes ins := by
  by_cases hne : dispBytes ins = []
  · rw [hne] at hd' ⊢
    exact List.length_eq_zero_iff.mp (hd.trans hd'.symm)
  · have hpos : 0 < m.disp.sum := by
      rw [← hd']
      exact List.length_pos_iff.mpr hne
    have hthere := hr hne
    rw [← hm.eip_fields (modrmLength_le ins)] at hthere
    exact (hreads hpos).unique hthere (hd.trans hd'.symm)

/-- Without the displacement the bracket stays open, and no immediate behind it is right. -/
theorem not_renders_of_cut
    (hrun : mnemDecode n mmu addr m0 = ((x >>= fun _ => y >>= f) mmu m).map fun r => (true, r.2))
    (hm : AtOperand addr ins m) (hline : Runs mmu x m 0 (a ++ (cutTokens m ++ b)) (some ()))
    (hy : FetchesAt mmu y (m.skip 0) k value)
    (hf : ∀ v, Emits mmu (f v) ((m.skip 0).skip k) 0 (u v) ())
    (hlen : ∀ v, a.length + b.length + (u v).length ≤ 7)
    (ha : a.all isPlain = true) (hb : b.all isPlain = true)
    (hu : ∀ inside v, immediates inside (u v) = [(inside, sz, (g v).toNat % 256 ^ sz)])
    (hspec : immOperands ins = [(false, w, v)]) :
    ¬ Renders mmu addr n m0 (ImmediatesRight ins) := by
  have hopen : ∀ l, immediates false (a ++ (cutTokens m ++ b) ++ l) = immediates true l := by
    intro l
    have hbracket : immediates false (cutTokens m ++ (b ++ l)) = immediates true (b ++ l) := rfl
    rw [List.append_assoc, List.append_assoc, immediates_plain ha, hbracket, immediates_plain hb]
  have hthree : (cutTokens m).length = 3 := rfl
  intro h
  by_cases hfield : ∃ field, field.length = k ∧ Reads mmu (m.skip 0).eip field
  · obtain ⟨field, hk, hreads⟩ := hfield
    have hruns := hline.bind (f := fun _ => y >>= f)
      ((hy.emits field hk hreads).then (hf (value field))).runs
    have hlen' := hlen (value field)
    have h := immediatesRight_iff.mp
      (h.of_runs hrun hm.toInside hruns (by simp only [List.length_append]; omega))
    rw [hopen, hu] at h
    exact not_right_of_inside hspec _ h
  · have hruns := hline.bind (f := fun _ => y >>= f)
      (hy.fails fun field hk hr => hfield ⟨field, hk, hr⟩).ret
    have hlen' := hlen (value [])
    have h := immediatesRight_iff.mp
      (h.of_runs hrun hm.toInside hruns (by simp only [List.length_append, List.length_nil]; omega))
    rw [hopen, immediates] at h
    exact not_right_of_none hspec _ [] h

/-- **An immediate that is taken behind the operand**, however that was printed. -/
theorem renders_immediate_late
    (hrun : mnemDecode n mmu addr m0 = ((x >>= fun _ => y >>= f) mmu m).map fun r => (true, r.2))
    (hm : AtOperand addr ins m) (hmodrm : ins.form.hasModrm = true) (hlate : takesEarly ins = false)
    (hx : RmLine mmu x m size a b) (hy : ∀ j, FetchesAt mmu y (m.skip j) k value)
    (hf : ∀ j v, Emits mmu (f v) ((m.skip j).skip k) 0 (u v) ())
    (hlen : ∀ v, a.length + b.length + (u v).length ≤ 7)
    (ha : a.all isPlain = true) (hb : b.all isPlain = true)
    (hu : ∀ inside v, immediates inside (u v) = [(inside, sz, (g v).toNat % 256 ^ sz)])
    (himm : ImmediateAt ins k sz (fun field => (g (value field)).toNat % 256 ^ sz) w v) :
    Renders mmu addr n m0 (ImmediatesRight ins) ↔ sz = w ∧ FieldsThere mmu addr ins := by
  have hright : ∀ disp z, disp.length = m.disp.sum → (ImmediatesRight ins
      (lockTokens ins.prefixes ++ ((a ++ (rmTokens m size disp ++ b)) ++ u z)) ↔
        disp = dispBytes ins ∧ sz = w ∧ (g z).toNat % 256 ^ sz = v) := by
    intro disp z hd
    rw [immediatesRight_iff, List.append_assoc, List.append_assoc, immediates_plain ha,
      immediates_rmTokens hd, immediates_plain hb, hu, right_iff himm.spec]
  have himm6 := length_immBytes_le ins
  have heip := hm.eip_fields (modrmLength_le ins)
  have hle := hlen (value [])
  have hdisp4 := length_disp_le m
  rw [FieldsThere, hm.sum_disp hmodrm, if_neg (by rw [hlate]; exact Bool.false_ne_true)]
  by_cases hdisp : ∃ disp, disp.length = m.disp.sum ∧ (0 < m.disp.sum → Reads mmu m.eip disp)
  · obtain ⟨disp, hd, hdreads⟩ := hdisp
    have hrm := length_rmTokens_le m size disp
    have hline := hx.emits disp hd hdreads
    by_cases hfield : ∃ field, field.length = k ∧ Reads mmu (m.skip disp.length).eip field
    · obtain ⟨field, hk, hreads⟩ := hfield
      have hemits := hline.bind (f := fun _ => y >>= f)
        (((hy _).emits field hk hreads).then (hf _ (value field)))
      have hlen' := hlen (value field)
      rw [renders_iff hrun hm.toInside hemits (by simp only [List.length_append]; omega), hright _ _ hd]
      rw [hm.eip_skip (by omega)] at hreads
      constructor
      · rintro ⟨rfl, hsz, hv⟩
        obtain rfl := (himm.value hsz field hk).mp hv
        exact ⟨hsz, hd, fun hne => heip ▸ hdreads (by rw [← hd]; exact List.length_pos_iff.mpr hne),
          hreads⟩
      · rintro ⟨hsz, hd', hdr, hr⟩
        obtain rfl := hm.eq_dispBytes hd hdreads hd' hdr
        have hfield := hreads.unique hr (hk.trans (himm.length hsz))
        exact ⟨rfl, hsz, (himm.value hsz field hk).mpr hfield⟩
    · have hruns := hline.runs.bind (f := fun _ => y >>= f)
        ((hy _).fails fun field hk hr => hfield ⟨field, hk, hr⟩).ret
      refine iff_of_false (fun h => ?_) ?_
      · have h := immediatesRight_iff.mp
          (h.of_runs hrun hm.toInside hruns (by simp only [List.length_append, List.length_nil]; omega))
        rw [List.append_nil, immediates_plain ha, immediates_rmTokens hd, ← List.append_nil b,
          immediates_plain hb, immediates, List.append_nil] at h
        exact not_right_of_none himm.spec _ _ h
      · rintro ⟨hsz, hd', hdr, hr⟩
        obtain rfl := hm.eq_dispBytes hd hdreads hd' hdr
        exact hfield ⟨immBytes ins, (himm.length hsz).symm, by rwa [hm.eip_skip (by omega)]⟩
  · have hpos : 0 < m.disp.sum := by
      by_contra h0
      exact hdisp ⟨[], by rw [List.length_nil]; omega, fun h => absurd h h0⟩
    have hline := hx.fails hpos fun disp hd hr => hdisp ⟨disp, hd, fun _ => hr⟩
    refine iff_of_false
      (not_renders_of_cut hrun hm hline (hy 0) (hf 0) hlen ha hb hu himm.spec) ?_
    rintro ⟨hsz, hd', hdr, -⟩
    refine hdisp ⟨dispBytes ins, hd', fun hpos => heip ▸ hdr ?_⟩
    exact List.length_pos_iff.mp (by omega)

/-! ## Sizes and values -/

/-- The operand size decides about the width of the token. -/
def BySize (ins : Instruction) : Prop :=
  immKind ins = .z ∨ immKind ins = .far ∨ signExtends ins = true

instance (ins : Instruction) : Decidable (BySize ins) := inferInstanceAs (Decidable (_ ∨ _))

theorem sizeOp_inj {p q : Bool} : sizeOp p = sizeOp q ↔ p = q := by
  cases p <;> cases q <;> decide

theorem Inside.sizeV_eq (hm : Inside addr ins c m) : m.sizeV = sizeOp (toggledOp32 ins) := hm.sizeV

/-- An immediate as it is. -/
theorem immediateAt_plain (hkind : immKind ins = .b ∨ immKind ins = .w ∨ immKind ins = .z)
    (hs : signExtends ins = false) (hk : k ≤ 4) :
    ImmediateAt ins k k (fun field => (number32 field).toNat % 256 ^ k) (immBytes ins).length
      (littleEndian (immBytes ins)) where
  spec := by
    have hwb : immKind ins ≠ .wb := by rcases hkind with h | h | h <;> rw [h] <;> decide
    have hfar : immKind ins ≠ .far := by rcases hkind with h | h | h <;> rw [h] <;> decide
    rw [immOperands, if_neg hwb, if_neg hfar, hs, if_neg Bool.false_ne_true]
  length := id
  value := by
    intro hlen field hfield
    rw [number32_mod hfield hk]
    exact ⟨littleEndian_inj (hfield.trans hlen), fun h => by rw [h]⟩

theorem signExtendV_mod {field : List U8} (h1 : field.length = 1) (m : Mnem) :
    (signExtendV m (BitVec.ofNat 8 (littleEndian field))).toNat % 256 ^ m.sizeV
      = (signExtended field).toNat % 256 ^ m.sizeV := by
  have hfield : signExtended field = (BitVec.ofNat 8 (littleEndian field)).signExtend 32 := by
    rw [signExtended, h1]
  rw [signExtendV, Mnem.sizeV, hfield]
  cases m.op32 with
  | true => rfl
  | false =>
      have hlow := setWidth_signExtend (j := 16) (w := 32) (by decide) (BitVec.ofNat 8 (littleEndian field))
      have h := congrArg BitVec.toNat hlow
      rw [BitVec.toNat_setWidth] at h
      rw [if_neg Bool.false_ne_true, if_neg Bool.false_ne_true, BitVec.toNat_setWidth]
      have hlt := ((BitVec.ofNat 8 (littleEndian field)).signExtend 16).isLt
      omega

/-- A byte that is extended to the operand size. -/
theorem immediateAt_signExtends (hkind : immKind ins = .b) (hs : signExtends ins = true) (m : Mnem) :
    ImmediateAt ins 1 m.sizeV
      (fun field => (signExtendV m (BitVec.ofNat 8 (littleEndian field))).toNat % 256 ^ m.sizeV)
      (sizeOp ins.op32) ((signExtended (immBytes ins)).toNat % 256 ^ sizeOp ins.op32) where
  spec := by
    rw [immOperands, hkind, if_neg (by decide), if_neg (by decide), if_pos hs]
  length _ := by
    rw [length_immBytes, hkind]
    rfl
  value := by
    intro hsz field hfield
    have himm : (immBytes ins).length = 1 := by
      rw [length_immBytes, hkind]
      rfl
    rw [signExtendV_mod hfield, hsz]
    refine ⟨fun h => ?_, fun h => by rw [h]⟩
    have hdvd : 256 ^ 1 ∣ 256 ^ sizeOp ins.op32 := Nat.pow_dvd_pow _ (by cases ins.op32 <;> decide)
    have hlow := congrArg (· % 256 ^ 1) h
    simp only [Nat.mod_mod_of_dvd _ hdvd] at hlow
    rw [signExtended_mod hfield (by decide), signExtended_mod himm (by decide)] at hlow
    exact littleEndian_inj (hfield.trans himm.symm) hlow

theorem length_immBytes_z (hkind : immKind ins = .z) : (immBytes ins).length = sizeOp ins.op32 := by
  rw [length_immBytes, hkind]
  exact Nat.add_zero _

theorem length_immBytes_b (hkind : immKind ins = .b) : (immBytes ins).length = 1 := by
  rw [length_immBytes, hkind]
  rfl

theorem sized_z (hkind : immKind ins = .z) : sizeOp (toggledOp32 ins) = (immBytes ins).length
    ↔ (BySize ins → toggledOp32 ins = ins.op32) := by
  rw [length_immBytes_z hkind, sizeOp_inj]
  exact ⟨fun h _ => h, fun h => h (Or.inl hkind)⟩

theorem sized_b (hkind : immKind ins = .b) (hs : signExtends ins = false) :
    1 = (immBytes ins).length ↔ (BySize ins → toggledOp32 ins = ins.op32) := by
  rw [length_immBytes_b hkind]
  refine iff_of_true rfl fun h => ?_
  rw [BySize, hkind, hs] at h
  rcases h with h | h | h <;> cases h

theorem sized_signExtends (hs : signExtends ins = true) :
    sizeOp (toggledOp32 ins) = sizeOp ins.op32 ↔ (BySize ins → toggledOp32 ins = ins.op32) := by
  rw [sizeOp_inj]
  exact ⟨fun h _ => h, fun h => h (Or.inr (Or.inr hs))⟩

/-- The kind of an immediate by `W`. -/
theorem sized_w (hm : Inside addr ins c m)
    (hkind : immKind ins = if ins.opcode.toNat % 2 = 1 then .z else .b)
    (hs : signExtends ins = false) : m.sizeW = (immBytes ins).length
      ↔ (BySize ins → toggledOp32 ins = ins.op32) := by
  rw [Mnem.sizeW, hm.w, hm.sizeV_eq]
  by_cases h1 : ins.opcode.toNat % 2 = 1
  · rw [if_pos h1] at hkind
    rw [decide_eq_true h1, if_pos rfl, sized_z hkind]
  · rw [if_neg h1] at hkind
    rw [decide_eq_false h1, if_neg Bool.false_ne_true, sized_b hkind hs]

theorem kind_w (hkind : immKind ins = if ins.opcode.toNat % 2 = 1 then .z else .b) :
    immKind ins = .b ∨ immKind ins = .w ∨ immKind ins = .z := by
  split at hkind
  · exact Or.inr (Or.inr hkind)
  · exact Or.inl hkind

theorem sizeW_le (m : Mnem) : m.sizeW ≤ 4 := by
  rw [Mnem.sizeW, Mnem.sizeV]
  split_ifs <;> decide

theorem sizeV_le (m : Mnem) : m.sizeV ≤ 4 := by
  rw [Mnem.sizeV]
  split <;> decide

end Tomk.Disasm
