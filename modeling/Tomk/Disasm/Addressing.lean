/-
# What the tokens of an operand in memory say

Behind the colon stands a sum: registers, a register times its scale, and numbers, with a
plus between two of them (`sumValue`; two terms without a plus are no sum).  It is compared with
the address that the processor computes (`I386.effectiveAddress`) over all values of the
registers, and the segment with the one that goes with the base.

All forms agree but one: with a base, a scaled index and a displacement the plus between the first
two is missing, which it is not where there is no displacement.
-/
import Tomk.Disasm.OperandTokens
import Mathlib.Tactic.IntervalCases

namespace Tomk.Disasm

open Early I386

variable {mmu : Mmu} {m : Mnem} {disp : List U8} {regs : Registers}

/-! ## Sums -/

instance : DecidableEq Name := fun a b =>
  decidable_of_iff (a.text = b.text) <| by
    constructor
    · intro h
      cases a
      cases b
      congr
    · exact congrArg Name.text

def isOperator (text : Name) (t : Token) : Bool := t.type = .operator && t.text = some text

/-- The rows between the plus signs. -/
def terms : List Token → List (List Token)
  | [] => [[]]
  | t :: l =>
      if isOperator (name "+" named_plus) t then [] :: terms l
      else ((terms l).headD [] |>.cons t) :: (terms l).tail

/-- The part of a register that its name of a size stands for. -/
def sized (size : Nat) (v : U32) : Option U32 :=
  if size = 4 then some v
  else if size = 2 then some ((v.setWidth 16).setWidth 32)
  else none

/-- The register that a token stands for, by its number and by its name. -/
def registerValue (regs : Registers) (t : Token) : Option U32 :=
  if t.number.toNat < 8 ∧ t.text = (regNames t.operandSize)[t.number.toNat]? then
    sized t.operandSize (regs t.number.toNat)
  else none

/-- A register, a number, or a register times a number. -/
def termValue (regs : Registers) : List Token → Option U32
  | [t] =>
      if t.type = .generalRegister then registerValue regs t
      else if t.type = .immediate then some t.number
      else none
  | [t, op, n] =>
      if t.type = .generalRegister ∧ isOperator (name "*" named_times) op ∧ n.type = .number then
        (registerValue regs t).map (· * n.number)
      else none
  | _ => none

def sumValue (regs : Registers) (toks : List Token) : Option U32 :=
  ((terms toks).mapM (termValue regs)).map fun vs => vs.foldr (· + ·) 0

theorem registerValue_regToken {i size : Nat} (hi : i < 8) :
    registerValue regs (regToken size i) = sized size (regs i) := by
  have hnum : (regToken size i).number.toNat = i := Nat.mod_eq_of_lt (by omega)
  rw [registerValue, hnum]
  exact if_pos ⟨hi, rfl⟩

theorem shift_one_eq : ∀ i < 4, (1 : U32) <<< i = BitVec.ofNat 32 (2 ^ i) := by decide

theorem termValue_scaled (hi : m.index < 8) : termValue regs (scaledTokens m)
    = some (regs m.index * BitVec.ofNat 32 (2 ^ scaleField m.sib)) := by
  have hscale := shift_one_eq (scaleField m.sib) (Nat.div_lt_of_lt_mul m.sib.isLt)
  rw [← hscale]
  show (registerValue regs (regToken 4 m.index)).map _ = _
  rw [registerValue_regToken hi]
  rfl

theorem terms_ne_nil (l : List Token) : terms l ≠ [] := by
  cases l with
  | nil => exact List.cons_ne_nil _ _
  | cons t l =>
      rw [terms]
      split <;> exact List.cons_ne_nil _ _

theorem terms_plus (l l' : List Token) : terms (l ++ plusToken :: l') = terms l ++ terms l' := by
  have hplus : isOperator (name "+" named_plus) plusToken = true := rfl
  induction l with
  | nil =>
      show terms (plusToken :: l') = [] :: terms l'
      rw [terms, if_pos hplus]
  | cons t l ih =>
      obtain ⟨s, rest, hs⟩ := List.exists_cons_of_ne_nil (terms_ne_nil l)
      rw [List.cons_append, terms, terms, ih, hs]
      split <;> rfl

/-- A sum of two sums, and of one term. -/
theorem sumValue_plus {l l' : List Token} {v w : U32} (hv : sumValue regs l = some v)
    (hw : sumValue regs l' = some w) : sumValue regs (l ++ plusToken :: l') = some (v + w) := by
  obtain ⟨vs, hvs, rfl⟩ := Option.map_eq_some_iff.mp hv
  obtain ⟨ws, hws, rfl⟩ := Option.map_eq_some_iff.mp hw
  have hsum : ∀ l : List U32, (l ++ ws).foldr (· + ·) 0 = l.foldr (· + ·) 0 + ws.foldr (· + ·) 0 := by
    intro l
    induction l with
    | nil => exact (BitVec.zero_add _).symm
    | cons v l ih =>
        rw [List.cons_append, List.foldr_cons, ih, List.foldr_cons, BitVec.add_assoc]
  rw [sumValue, terms_plus, List.mapM_append, hvs, hws]
  exact congrArg some (hsum vs)

theorem sumValue_term {l : List Token} {v : U32} (hterms : terms l = [l])
    (hv : termValue regs l = some v) : sumValue regs l = some v := by
  rw [sumValue, hterms, List.mapM_cons, hv]
  exact congrArg some (BitVec.add_zero v)

/-! ## The forms -/

theorem index_lt (m : Mnem) : m.index < 8 := Nat.mod_lt _ (by omega)

theorem base_lt (m : Mnem) : m.base < 8 := Nat.mod_lt _ (by omega)

theorem rm_lt (m : Mnem) : m.rm < 8 := Nat.mod_lt _ (by omega)

theorem sumValue_reg32 {i : Nat} (hi : i < 8) : sumValue regs [regToken 4 i] = some (regs i) :=
  sumValue_term rfl (registerValue_regToken hi)

theorem sumValue_reg16 {i : Nat} (hi : i < 8) :
    sumValue regs [regToken 2 i] = some (((regs i).setWidth 16).setWidth 32) :=
  sumValue_term rfl (registerValue_regToken hi)

theorem sumValue_scaled (regs : Registers) (m : Mnem) : sumValue regs (scaledTokens m)
    = some (regs m.index * BitVec.ofNat 32 (2 ^ scaleField m.sib)) :=
  sumValue_term rfl (termValue_scaled (index_lt m))

theorem sumValue_disp (regs : Registers) (m : Mnem) (disp : List U8) :
    sumValue regs [dispToken m disp] = some (dispValue m disp) := sumValue_term rfl rfl

/-- The displacement of the mode that has nothing else is not extended, being as wide as
the address. -/
theorem dispValue_dword (h4 : disp.length = 4) : dispValue m disp = signExtended disp := by
  rw [dispValue, signExtended, h4]
  split
  · exact (BitVec.signExtend_eq _).symm
  · rfl

theorem signExtended_nil : signExtended [] = 0#32 := by decide

theorem sumValue_mod0 (h0 : m.mod = 0b00) (h : m.addr32 = true) (hlen : disp.length = m.disp.sum) :
    sumValue regs (innerTokens m disp)
      = some ((address32 m.modrm m.sib).value regs + signExtended disp) := by
  have hdisp : m.disp = if m.rm = 0b101 ∨ m.rm = 0b100 ∧ m.base = 0b101 then [4] else [] := by
    rw [Mnem.disp, dispFields, if_pos (show high2 m.modrm = 0 from h0), if_pos h]
    rfl
  have hdword : m.rm = 0b101 ∨ m.rm = 0b100 ∧ m.base = 0b101 → disp.length = 4 := by
    intro hc
    rw [hlen, hdisp, if_pos hc]
    rfl
  have hnone : ¬ (m.rm = 0b101 ∨ m.rm = 0b100 ∧ m.base = 0b101) → disp = [] := by
    intro hc
    rw [hdisp, if_neg hc] at hlen
    exact List.length_eq_zero_iff.mp hlen
  rw [innerTokens, if_pos h0, if_pos h, address32, show low3 m.modrm = m.rm from rfl,
    show high2 m.modrm = m.mod from rfl, show low3 m.sib = m.base from rfl,
    show mid3 m.sib = m.index from rfl]
  by_cases h4 : m.rm = 0b100
  · simp only [h4, h0, if_true, true_and]
    by_cases h5 : m.base = 0b101
    · have hd := dispValue_dword (m := m) (hdword (Or.inr ⟨h4, h5⟩))
      simp only [h5, if_true]
      by_cases hi : m.index = 0b100
      · simp only [hi, if_true]
        rw [sumValue_disp, hd]
        exact congrArg some (BitVec.zero_add _).symm
      · simp only [hi, if_false]
        rw [sumValue_plus (sumValue_scaled regs m) (sumValue_disp regs m disp), hd]
        exact congrArg (fun v => some (v + _)) (BitVec.zero_add _).symm
    · obtain rfl := hnone (by omega)
      simp only [h5, if_false]
      rw [signExtended_nil, BitVec.add_zero]
      by_cases hi : m.index = 0b100
      · simp only [hi, if_true]
        rw [sumValue_reg32 (base_lt m)]
        exact congrArg some (BitVec.add_zero _).symm
      · simp only [hi, if_false]
        exact sumValue_plus (sumValue_reg32 (base_lt m)) (sumValue_scaled regs m)
  · simp only [h4, h0, if_false, true_and]
    by_cases h5 : m.rm = 0b101
    · simp only [h5, if_true]
      rw [sumValue_disp, dispValue_dword (hdword (Or.inl h5))]
      exact congrArg some (BitVec.zero_add _).symm
    · obtain rfl := hnone (by omega)
      simp only [h5, if_false]
      rw [sumValue_reg32 (rm_lt m), signExtended_nil, BitVec.add_zero]
      exact congrArg some (BitVec.add_zero _).symm

/-- The form that lacks a plus. -/
def PlusMissing (m : Mnem) : Prop :=
  m.addr32 = true ∧ (m.mod = 0b01 ∨ m.mod = 0b10) ∧ m.rm = 0b100 ∧ m.index ≠ 0b100

instance (m : Mnem) : Decidable (PlusMissing m) := inferInstanceAs (Decidable (_ ∧ _))

theorem sumValue_base32 (h0 : m.mod ≠ 0b00) (h : m.addr32 = true)
    (hplus : m.rm = 0b100 → m.index = 0b100) :
    sumValue regs (innerTokens m disp)
      = some ((address32 m.modrm m.sib).value regs + signExtended disp) := by
  have hd : dispValue m disp = signExtended disp := if_neg h0
  rw [innerTokens, if_neg h0, baseTokens, if_pos h, address32, show low3 m.modrm = m.rm from rfl,
    show high2 m.modrm = m.mod from rfl, show low3 m.sib = m.base from rfl,
    show mid3 m.sib = m.index from rfl, ← hd]
  by_cases h4 : m.rm = 0b100
  · rw [if_pos h4, if_pos h4, if_pos (hplus h4), if_pos (hplus h4), if_neg (fun hc => h0 hc.1)]
    refine (sumValue_plus (sumValue_reg32 (base_lt m)) (sumValue_disp regs m disp)).trans ?_
    exact congrArg (fun v => some (v + _)) (BitVec.add_zero _).symm
  · rw [if_neg h4, if_neg h4, if_neg (fun hc => h0 hc.1)]
    refine (sumValue_plus (sumValue_reg32 (rm_lt m)) (sumValue_disp regs m disp)).trans ?_
    exact congrArg (fun v => some (v + _)) (BitVec.add_zero _).symm

/-- Two registers side by side are no term. -/
theorem sumValue_plusMissing (h : PlusMissing m) : sumValue regs (innerTokens m disp) = none := by
  obtain ⟨haddr, hmod, h4, hi⟩ := h
  rw [innerTokens, if_neg (by omega), baseTokens, if_pos haddr, if_pos h4, if_neg hi]
  rfl

/-! ### 16-bit addresses -/

/-- The sum of the registers, in 16 bits. -/
theorem sumValue_base16 (h : m.mod ≠ 0b00 ∨ m.rm ≠ 0b110) : ∃ v,
    sumValue regs (base16Tokens m) = some v ∧
      v.setWidth 16 = ((address16 m.modrm).value regs).setWidth 16 := by
  have hpair : ∀ i < 8, ∀ j < 8, ∃ v, sumValue regs [regToken 2 i, plusToken, regToken 2 j] = some v ∧
      v.setWidth 16 = (Address.value regs ⟨some i, some (j, 1)⟩).setWidth 16 := by
    intro i hi j hj
    refine ⟨_, sumValue_plus (sumValue_reg16 hi) (sumValue_reg16 hj), ?_⟩
    simp [Address.value, BitVec.setWidth_add]
  have hone : ∀ i < 8, ∀ a : Address, a.value regs = regs i →
      ∃ v, sumValue regs [regToken 2 i] = some v ∧ v.setWidth 16 = (a.value regs).setWidth 16 := by
    intro i hi a ha
    refine ⟨_, sumValue_reg16 hi, ?_⟩
    rw [ha]
    simp
  have hmod : high2 m.modrm = m.mod := rfl
  have hlt := rm_lt m
  rw [base16Tokens, address16, show low3 m.modrm = m.rm from rfl, hmod]
  generalize m.rm = rm at *
  interval_cases rm
  · exact hpair 3 (by decide) 6 (by decide)
  · exact hpair 3 (by decide) 7 (by decide)
  · exact hpair 5 (by decide) 6 (by decide)
  · exact hpair 5 (by decide) 7 (by decide)
  · exact hone 6 (by decide) _ (by simp [Address.value])
  · exact hone 7 (by decide) _ (by simp [Address.value])
  · refine hone 5 (by decide) ⟨if m.mod = 0b00 then none else some 5, none⟩ ?_
    rw [if_neg (by simpa using h)]
    simp [Address.value]
  · exact hone 3 (by decide) _ (by simp [Address.value])

/-- In 16 bits it does not matter whether a word is sign extended. -/
theorem setWidth_signExtended (h2 : disp.length = 2) :
    (number32 disp).setWidth 16 = (signExtended disp).setWidth 16 := by
  rw [signExtended, number32, h2, ← setWidth_littleEndian (n := 16) (by omega) (by omega)]
  refine Eq.trans ?_ ((setWidth_signExtend (by decide) (BitVec.ofNat 16 (littleEndian disp))).trans
    (BitVec.signExtend_eq _)).symm
  rw [BitVec.setWidth_setWidth_of_le _ (by decide), BitVec.setWidth_eq]

theorem sumValue_inner16 (h : m.addr32 = false) (hlen : disp.length = m.disp.sum) : ∃ v,
    sumValue regs (innerTokens m disp) = some v ∧
      v.setWidth 16 = ((address16 m.modrm).value regs + signExtended disp).setWidth 16 := by
  have hno : ¬ m.addr32 = true := fun h' => Bool.noConfusion (h.symm.trans h')
  rw [innerTokens, if_neg hno, baseTokens, if_neg hno]
  by_cases h0 : m.mod = 0b00
  · rw [if_pos h0]
    have hdisp : m.disp = if m.rm = 0b110 then [2] else [] := by
      rw [Mnem.disp, dispFields, if_pos (show high2 m.modrm = 0 from h0), h]
      rfl
    by_cases h6 : m.rm = 0b110
    · rw [hdisp, if_pos h6] at hlen
      rw [if_pos h6]
      refine ⟨_, sumValue_disp regs m disp, ?_⟩
      have hzero : address16 m.modrm = ⟨none, none⟩ := by
        rw [address16, show low3 m.modrm = 6 from h6, show high2 m.modrm = 0 from h0]
        rfl
      rw [dispValue, if_pos h0, setWidth_signExtended hlen, hzero]
      exact congrArg (BitVec.setWidth 16) (BitVec.zero_add _).symm
    · rw [hdisp, if_neg h6] at hlen
      obtain rfl := List.length_eq_zero_iff.mp hlen
      rw [if_neg h6, signExtended_nil, BitVec.add_zero]
      exact sumValue_base16 (Or.inr h6)
  · have hbase : ∃ v, sumValue regs (base16Tokens m) = some v ∧
        v.setWidth 16 = ((address16 m.modrm).value regs).setWidth 16 := sumValue_base16 (Or.inl h0)
    obtain ⟨v, hv, hv16⟩ := hbase
    have hd : dispValue m disp = signExtended disp := if_neg h0
    rw [if_neg h0, List.append_assoc]
    refine ⟨_, sumValue_plus hv (sumValue_disp regs m disp), ?_⟩
    rw [hd, BitVec.setWidth_add _ _ (by decide), hv16, BitVec.setWidth_add _ _ (by decide)]

/-! ## The address -/

/-- The segment of the operand: the override, or the one that goes with the base. -/
def segmentOf (m : Mnem) : Nat :=
  if m.segmentPrefix ≠ 0xFF then m.segmentPrefix.toNat
  else defaultSegment m.addr32 m.modrm m.sib

/-- The tree of `get_seg_index` picks the stack segment for the same bases. -/
theorem segIndex_eq (m : Mnem) : m.segIndex = segmentOf m := by
  rw [Mnem.segIndex, segmentOf, defaultSegment, address]
  split
  · rfl
  split
  · rw [address32, show low3 m.modrm = m.rm from rfl, show high2 m.modrm = m.mod from rfl,
      show low3 m.sib = m.base from rfl]
    by_cases h4 : m.rm = 0b100
    · simp only [h4, true_and, if_true]
      by_cases h0 : m.mod = 0b00 ∧ m.base = 0b101
      · simp [h0, segDS]
      · simp [h0, segDS, segSS, regBP, regSP, or_comm]
    · simp only [h4, false_and, if_false]
      by_cases h0 : m.mod = 0b00 ∧ m.rm = 0b101
      · simp [h0, segDS]
      · simp [h0, h4, segDS, segSS, regBP, regSP]
  · rw [address16, show low3 m.modrm = m.rm from rfl, show high2 m.modrm = m.mod from rfl]
    have hlt := rm_lt m
    generalize m.rm = rm at *
    interval_cases rm
    iterate 6 simp [segDS, segSS]
    · by_cases h0 : m.mod = 0b00 <;> simp [h0, segDS, segSS]
    · simp [segDS]

/-- The tokens say the address that the processor computes, whatever is in the registers. -/
def Denotes (m : Mnem) (disp : List U8) (toks : List Token) : Prop :=
  ∀ regs, ∃ v, sumValue regs toks = some v ∧
    v.toNat % 2 ^ addressBits m.addr32 = effectiveAddress regs m.addr32 m.modrm m.sib disp

/-- `i80386_get_modrm_token` prints the segment and the address of the operand in brackets, and takes
the bytes of the displacement. -/
def AddressRight (mmu : Mmu) (m : Mnem) (disp : List U8) : Prop :=
  ∃ inner m', getModrmToken mmu m = some (some (), m') ∧
    m'.line.tokens = m.line.tokens ++
      openToken :: segToken (segmentOf m) :: colonToken :: (inner ++ [closeToken]) ∧
    Denotes m disp inner ∧ m'.counter = m.counter + BitVec.ofNat 16 disp.length

theorem denotes_innerTokens (hmod : m.mod ≠ 0b11) (hlen : disp.length = m.disp.sum)
    (hplus : ¬ PlusMissing m) : Denotes m disp (innerTokens m disp) := by
  intro regs
  rw [effectiveAddress, addressBits, address]
  cases h : m.addr32 with
  | true =>
      have hlt : m.mod < 4 := Nat.div_lt_of_lt_mul m.modrm.isLt
      refine ⟨_, ?_, rfl⟩
      by_cases h0 : m.mod = 0b00
      · exact sumValue_mod0 h0 h hlen
      · refine sumValue_base32 h0 h fun h4 => ?_
        by_contra hi
        exact hplus ⟨h, by omega, h4, hi⟩
  | false =>
      have hinner : ∃ v, sumValue regs (innerTokens m disp) = some v ∧
          v.setWidth 16 = ((address16 m.modrm).value regs + signExtended disp).setWidth 16 :=
        sumValue_inner16 h hlen
      obtain ⟨v, hv, hv16⟩ := hinner
      refine ⟨v, hv, ?_⟩
      have hnat := congrArg BitVec.toNat hv16
      rw [BitVec.toNat_setWidth, BitVec.toNat_setWidth] at hnat
      exact hnat

/-- What is printed between the brackets is `innerTokens`. -/
theorem AddressRight.denotes (h : AddressRight mmu m disp) (hmod : m.mod ≠ 0b11)
    (hlen : disp.length = m.disp.sum) (hlies : Lies mmu m.eip disp)
    (hroom : m.line.tokens.length + (operandTokens m disp).length ≤ maxTokens) :
    Denotes m disp (innerTokens m disp) := by
  obtain ⟨inner, m', hrun', hline, hden, -⟩ := h
  have hrun := (emits_getModrmToken hmod hlen fun hpos =>
    hlies.reads (by rw [hlen]; exact hpos)).run m.line
  rw [show { m with line := m.line } = m from rfl, hrun', Option.some.injEq, Prod.mk.injEq] at hrun
  rw [hrun.2, RenderLine.tokens_addAll hroom, List.append_cancel_left_eq, operandTokens,
    List.cons.injEq, List.cons.injEq, List.cons.injEq] at hline
  have hinner : innerTokens m disp = inner := List.append_cancel_right hline.2.2.2
  exact hinner ▸ hden

theorem PlusMissing.not_denotes (h : PlusMissing m) : ¬ Denotes m disp (innerTokens m disp) := by
  intro hden
  obtain ⟨v, hv, -⟩ := hden fun _ => 0
  rw [sumValue_plusMissing h] at hv
  cases hv

/-- **`i80386_get_modrm_token`** prints the operand in memory right, except for the form that
lacks a plus. -/
theorem getModrmToken_address_iff (mmu : Mmu) (m : Mnem) (disp : List U8) (hmod : m.mod ≠ 0b11)
    (hlen : disp.length = (dispFields m.addr32 m.modrm m.sib).sum) (hlies : Lies mmu m.eip disp)
    (hroom : m.line.tokens.length + (operandTokens m disp).length ≤ maxTokens) :
    AddressRight mmu m disp ↔ ¬ PlusMissing m := by
  constructor
  · exact fun h hplus => hplus.not_denotes (h.denotes hmod hlen hlies hroom)
  · intro hplus
    have hrun := (emits_getModrmToken hmod hlen fun hpos =>
      hlies.reads (by rw [hlen]; exact hpos)).run m.line
    refine ⟨innerTokens m disp, _, hrun, ?_, denotes_innerTokens hmod hlen hplus, rfl⟩
    rw [← segIndex_eq]
    exact RenderLine.tokens_addAll hroom

/-- A decoder at 0x1000, behind a ModR/M byte and a SIB byte. -/
def atOperand (modrm sib : U8) : Mnem :=
  { Mnem.zero .empty with
    offset := 0x1000, segmentPrefix := 0xFF, addressingSize := 1, modrm := modrm, sib := sib }

/-- `[ebx*4+8]` -/
theorem getModrmToken_address_sib :
    AddressRight (codeMmu [8]) (atOperand 0x04 0x9D) [8, 0, 0, 0] :=
  (getModrmToken_address_iff _ _ _ (by decide) (by decide) (by decide +kernel) (by decide)).mpr
    (by decide)

/-- `[eax+ebx*4+4]` comes out as `[ds:eaxebx*4+4]`. -/
theorem getModrmToken_plus_missing : (atOperand 0x44 0x98).mod ≠ 0b11 ∧
    Lies (codeMmu [0x04]) (atOperand 0x44 0x98).eip [0x04] ∧
      ¬ AddressRight (codeMmu [0x04]) (atOperand 0x44 0x98) [0x04] := by
  have hlies : Lies (codeMmu [0x04]) (atOperand 0x44 0x98).eip [0x04] := by decide +kernel
  have hplus : PlusMissing (atOperand 0x44 0x98) := by decide
  exact ⟨by decide, hlies, fun h =>
    hplus.not_denotes (h.denotes (by decide) (by decide) hlies (by decide))⟩

end Tomk.Disasm
