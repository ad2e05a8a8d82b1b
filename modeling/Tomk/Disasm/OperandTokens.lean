/-
# The operand of the ModR/M byte as tokens

What `i80386_get_modrm_token` adds for an operand in memory, as a list over the
bytes of the displacement (`operandTokens`), in the shapes of the source: three modes, two
address sizes, and the cases of the SIB byte.  All forms fetch one displacement or none, so
that there are two ways for a run to go (`Prints`): with the bytes it adds its tokens, and
without them it has added the bracket, the segment and the colon, and returns early.
-/
import Tomk.Disasm.Emits

namespace Tomk.Disasm

open Early I386

variable {mmu : Mmu} {m : Mnem} {α : Type} {k : Nat} {toks toks' : List Token}

/-! ## One field -/

/-- `x` takes a field of `k` bytes, and adds tokens that depend on it. -/
structure Prints (mmu : Mmu) (x : Dec Unit) (m : Mnem) (k : Nat) (toks : List U8 → List Token) :
    Prop where
  emits : ∀ bytes, bytes.length = k → (0 < k → Reads mmu m.eip bytes) →
    Emits mmu x m k (toks bytes) ()
  fails : 0 < k → (∀ bytes, bytes.length = k → ¬ Reads mmu m.eip bytes) →
    Runs mmu x m 0 [] none

theorem FetchesAt.prints {x : Dec α} {f : α → Dec Unit} {value : List U8 → α}
    {toks : List U8 → List Token} (hx : FetchesAt mmu x m k value) (hk : 0 < k)
    (hf : ∀ bytes, bytes.length = k → Emits mmu (f (value bytes)) (m.skip k) 0 (toks bytes) ()) :
    Prints mmu (x >>= f) m k toks where
  emits bytes hlen hreads := (hx.emits bytes hlen (hreads hk)).then (hf bytes hlen)
  fails _ hno := (hx.fails hno).ret

theorem Emits.prints {x : Dec Unit} (h : Emits mmu x m 0 toks ()) :
    Prints mmu x m 0 fun _ => toks where
  emits _ _ _ := h
  fails hk := absurd hk (Nat.lt_irrefl 0)

theorem prints_state_bind {f : Mnem → Dec Unit} {toks : List U8 → List Token}
    (h : ∀ line, Prints mmu (f { m with line := line }) m k toks) :
    Prints mmu (state >>= f) m k toks where
  emits bytes hlen hreads := emits_state_bind fun line => (h line).emits bytes hlen hreads
  fails hk hno := runs_state_bind fun line => (h line).fails hk hno

/-! ## The tokens -/

theorem named_plus : Named (chars "+") := by decide

theorem named_times : Named (chars "*") := by decide

theorem named_colon : Named (chars ":") := by decide

def plusToken : Token := operatorToken (name "+" named_plus)

def timesToken : Token := operatorToken (name "*" named_times)

def colonToken : Token := operatorToken (name ":" named_colon)

def openToken : Token := ⟨.memory, some (name "[" named_open), 0, 0⟩

def closeToken : Token := ⟨.memory, some (name "]" named_close), 0, 0⟩

def segToken (i : Nat) : Token := ⟨.segment, segMnem[i]?, BitVec.ofNat 32 i, 2⟩

def scaledTokens (m : Mnem) : List Token :=
  [regToken 4 m.index, timesToken, ⟨.number, none, 1 <<< scaleField m.sib, 4⟩]

/-- `get_base_token`. -/
def base16Tokens (m : Mnem) : List Token :=
  if m.rm = 0b000 then [regToken 2 regBX, plusToken, regToken 2 regSI]
  else if m.rm = 0b001 then [regToken 2 regBX, plusToken, regToken 2 regDI]
  else if m.rm = 0b010 then [regToken 2 regBP, plusToken, regToken 2 regSI]
  else if m.rm = 0b011 then [regToken 2 regBP, plusToken, regToken 2 regDI]
  else if m.rm = 0b100 then [regToken 2 regSI]
  else if m.rm = 0b101 then [regToken 2 regDI]
  else if m.rm = 0b110 then [regToken 2 regBP]
  else [regToken 2 regBX]

/-- The registers before a displacement, and no plus between a base and an index. -/
def baseTokens (m : Mnem) : List Token :=
  if m.addr32 then
    if m.rm = 0b100 then
      regToken 4 m.base :: if m.index = 0b100 then [plusToken] else scaledTokens m ++ [plusToken]
    else [regToken 4 m.rm, plusToken]
  else base16Tokens m ++ [plusToken]

/-- The displacement, sign extended but for the mode that has nothing else. -/
def dispValue (m : Mnem) (disp : List U8) : U32 :=
  if m.mod = 0b00 then number32 disp
  else (BitVec.ofNat (8 * disp.length) (littleEndian disp)).signExtend 32

def dispToken (m : Mnem) (disp : List U8) : Token := immToken (dispValue m disp) disp.length

/-- The tokens behind the colon. -/
def innerTokens (m : Mnem) (disp : List U8) : List Token :=
  if m.mod = 0b00 then
    if m.addr32 then
      if m.rm = 0b100 then
        if m.index = 0b100 then
          if m.base = 0b101 then [dispToken m disp] else [regToken 4 m.base]
        else if m.base = 0b101 then scaledTokens m ++ [plusToken, dispToken m disp]
        else regToken 4 m.base :: plusToken :: scaledTokens m
      else if m.rm = 0b101 then [dispToken m disp]
      else [regToken 4 m.rm]
    else if m.rm = 0b110 then [dispToken m disp]
    else base16Tokens m
  else baseTokens m ++ [dispToken m disp]

def operandTokens (m : Mnem) (disp : List U8) : List Token :=
  openToken :: segToken m.segIndex :: colonToken :: (innerTokens m disp ++ [closeToken])

/-! ## The runs -/

theorem emits_plus : Emits mmu plus m 0 [plusToken] () := emits_token ..

theorem emits_scaledIndex : Emits mmu scaledIndex m 0 (scaledTokens m) () :=
  emits_state_bind fun _ => (emits_reg32 _).seq <| (emits_token ..).seq <| emits_token ..

theorem emits_regSum (i j : Nat) :
    Emits mmu (regSum i j) m 0 [regToken 2 i, plusToken, regToken 2 j] () :=
  (emits_reg16 i).seq <| emits_plus.seq <| emits_reg16 j

theorem emits_getBaseToken : Emits mmu getBaseToken m 0 (base16Tokens m) () := by
  refine emits_state_bind fun line => ?_
  rw [base16Tokens]
  have hrm : Mnem.rm { m with line := line } = m.rm := rfl
  simp only [hrm]
  split_ifs
  iterate 4 exact emits_regSum ..
  iterate 4 exact emits_reg16 _

theorem emits_baseToken32 (h : m.addr32 = true) :
    Emits mmu baseToken32 m 0 (baseTokens m) () := by
  refine emits_state_bind fun line => ?_
  have hrm : Mnem.rm { m with line := line } = m.rm := rfl
  have hindex : Mnem.index { m with line := line } = m.index := rfl
  rw [baseTokens, if_pos h, hrm]
  by_cases h4 : m.rm = 0b100
  · rw [if_pos h4, if_pos h4, hindex]
    by_cases hi : m.index = 0b100
    · rw [if_pos hi, if_pos hi]
      exact (emits_reg32 _).seq emits_plus
    · rw [if_neg hi, if_neg hi]
      exact (emits_reg32 _).seq <| emits_scaledIndex.seq emits_plus
  · rw [if_neg h4, if_neg h4]
    exact (emits_reg32 _).seq emits_plus

theorem emits_baseToken : Emits mmu baseToken m 0 (baseTokens m) () := by
  refine emits_state_bind fun line => emits_ite (fun h => emits_baseToken32 h) fun h => ?_
  rw [baseTokens, if_neg (show ¬ m.addr32 = true from h)]
  exact emits_getBaseToken.seq emits_plus

theorem prints_modrmToken00 (h0 : m.mod = 0b00) (h : m.addr32 = true) :
    Prints mmu modrmToken00 m m.disp.sum (innerTokens m) := by
  refine prints_state_bind fun line => ?_
  have hrm : Mnem.rm { m with line := line } = m.rm := rfl
  have hindex : Mnem.index { m with line := line } = m.index := rfl
  have hbase : Mnem.base { m with line := line } = m.base := rfl
  have hdisp : m.disp = if m.rm = 0b101 ∨ m.rm = 0b100 ∧ m.base = 0b101 then [4] else [] := by
    rw [Mnem.disp, dispFields, if_pos (show high2 m.modrm = 0 from h0), if_pos h]
    rfl
  have hinner : innerTokens m = fun disp =>
      if m.rm = 0b100 then
        if m.index = 0b100 then
          if m.base = 0b101 then [dispToken m disp] else [regToken 4 m.base]
        else if m.base = 0b101 then scaledTokens m ++ [plusToken, dispToken m disp]
        else regToken 4 m.base :: plusToken :: scaledTokens m
      else if m.rm = 0b101 then [dispToken m disp]
      else [regToken 4 m.rm] := by
    funext disp
    rw [innerTokens, if_pos h0, if_pos h]
  have hdword : ∀ bytes : List U8, bytes.length = 4 →
      dispToken m bytes = immToken (BitVec.ofNat 32 (littleEndian bytes)) 4 := by
    intro bytes hlen
    rw [dispToken, dispValue, if_pos h0, hlen]
    rfl
  rw [hinner, hdisp, hrm, hindex, hbase]
  by_cases h4 : m.rm = 0b100
  · simp only [h4, if_true, true_and, show ¬ (4 : Nat) = 5 from by decide, false_or]
    by_cases hi : m.index = 0b100
    · simp only [hi, if_true]
      by_cases h5 : m.base = 0b101
      · simp only [h5, if_true]
        refine (fetchesAt_fetchDword mmu m).prints (by decide) fun bytes hlen => ?_
        rw [hdword bytes hlen]
        exact emits_immediate ..
      · simp only [h5, if_false]
        exact (emits_reg32 _).prints
    · simp only [hi, if_false]
      by_cases h5 : m.base = 0b101
      · simp only [h5, if_true]
        refine (fetchesAt_fetchDword mmu m).prints (by decide) fun bytes hlen => ?_
        rw [hdword bytes hlen]
        exact emits_scaledIndex.seq <| emits_plus.seq <| emits_immediate ..
      · simp only [h5, if_false]
        exact ((emits_reg32 _).seq <| emits_plus.seq emits_scaledIndex).prints
  · simp only [h4, if_false, false_and, or_false]
    by_cases h5 : m.rm = 0b101
    · simp only [h5, if_true]
      refine (fetchesAt_fetchDword mmu m).prints (by decide) fun bytes hlen => ?_
      rw [hdword bytes hlen]
      exact emits_immediate ..
    · simp only [h5, if_false]
      exact (emits_reg32 _).prints

theorem prints_modrmToken00w (h0 : m.mod = 0b00) (h : m.addr32 = false) :
    Prints mmu modrmToken00w m m.disp.sum (innerTokens m) := by
  refine prints_state_bind fun line => ?_
  have hrm : Mnem.rm { m with line := line } = m.rm := rfl
  have hdisp : m.disp = if m.rm = 0b110 then [2] else [] := by
    rw [Mnem.disp, dispFields, if_pos (show high2 m.modrm = 0 from h0), h]
    rfl
  have hinner : innerTokens m = fun disp =>
      if m.rm = 0b110 then [dispToken m disp] else base16Tokens m := by
    funext disp
    rw [innerTokens, if_pos h0, h, if_neg Bool.false_ne_true]
  rw [hinner, hdisp, hrm]
  by_cases h6 : m.rm = 0b110
  · simp only [h6, if_true]
    refine (fetchesAt_fetchWord mmu m).prints (by decide) fun bytes hlen => ?_
    rw [dispToken, dispValue, if_pos h0, hlen, setWidth_littleEndian (by omega) (by omega)]
    exact emits_immediate ..
  · simp only [h6, if_false]
    exact emits_getBaseToken.prints

/-- A displacement behind registers. -/
theorem prints_baseDisp {n : Nat} {x : Dec (BitVec n)} (h0 : m.mod ≠ 0b00) (hk : 0 < k)
    (hn : n = 8 * k)
    (hx : FetchesAt mmu x m k fun bytes => BitVec.ofNat n (littleEndian bytes)) :
    Prints mmu (do let disp ← x; baseToken; immediate (disp.signExtend 32) k) m k
      (innerTokens m) := by
  have hinner : innerTokens m = fun disp => baseTokens m ++ [dispToken m disp] := by
    funext disp
    rw [innerTokens, if_neg h0]
  rw [hinner]
  refine hx.prints hk fun bytes hlen => emits_baseToken.seq ?_
  rw [dispToken, dispValue, if_neg h0, hlen, ← hn]
  exact emits_immediate ..

theorem prints_modrmDisplacement (hmod : m.mod ≠ 0b11) :
    Prints mmu modrmDisplacement m m.disp.sum (innerTokens m) := by
  refine prints_state_bind fun line => ?_
  have hm : Mnem.mod { m with line := line } = m.mod := rfl
  have haddr : Mnem.addr32 { m with line := line } = m.addr32 := rfl
  rw [hm, haddr]
  have hlt : m.mod < 4 := Nat.div_lt_of_lt_mul m.modrm.isLt
  have hdisp : m.disp = dispFields m.addr32 m.modrm m.sib := rfl
  rw [dispFields, show high2 m.modrm = m.mod from rfl] at hdisp
  by_cases h0 : m.mod = 0b00
  · rw [if_pos h0]
    cases h : m.addr32 with
    | true => exact prints_modrmToken00 h0 h
    | false => exact prints_modrmToken00w h0 h
  rw [if_neg h0] at hdisp ⊢
  by_cases h1 : m.mod = 0b01
  · rw [if_pos h1] at hdisp ⊢
    rw [hdisp]
    exact prints_baseDisp h0 Nat.one_pos rfl (fetchesAt_fetchByte mmu m)
  rw [if_neg h1] at hdisp ⊢
  have h2 : m.mod = 0b10 := by omega
  rw [if_pos h2] at hdisp ⊢
  rw [hdisp]
  refine prints_state_bind fun line => ?_
  rw [show Mnem.addr32 { m with line := line } = m.addr32 from rfl]
  cases m.addr32 with
  | true =>
      have h := prints_baseDisp h0 (Nat.succ_pos 3) rfl (fetchesAt_fetchDword mmu m)
      simp only [BitVec.signExtend_eq] at h
      exact h
  | false => exact prints_baseDisp h0 (by decide) rfl (fetchesAt_fetchWord mmu m)

/-- The bracket, the segment and the colon, and what is behind them. -/
theorem emits_getModrmToken {disp : List U8} (hmod : m.mod ≠ 0b11) (hlen : disp.length = m.disp.sum)
    (hreads : 0 < m.disp.sum → Reads mmu m.eip disp) :
    Emits mmu getModrmToken m disp.length (operandTokens m disp) () := by
  refine emits_state_bind fun line => (emits_token ..).seq <| (emits_token ..).seq <|
    (emits_token ..).seq ?_
  have hdisp := hlen ▸ (prints_modrmDisplacement hmod).emits disp hlen hreads
  exact hdisp.last (emits_token ..)

theorem runs_getModrmToken (hmod : m.mod ≠ 0b11) (hpos : 0 < m.disp.sum)
    (hno : ∀ disp, disp.length = m.disp.sum → ¬ Reads mmu m.eip disp) :
    Runs mmu getModrmToken m 0 [openToken, segToken m.segIndex, colonToken] none := by
  refine runs_state_bind fun line => (emits_token ..).runs_seq <| (emits_token ..).runs_seq <|
    (emits_token ..).runs_seq ?_
  exact ((prints_modrmDisplacement hmod).fails hpos hno).ret

/-! ## A register or memory -/

/-- The operand of a size. -/
def rmTokens (m : Mnem) (size : Nat) (disp : List U8) : List Token :=
  if m.mod = 0b11 then [regToken size m.rm] else operandTokens m disp

theorem length_scaledTokens (m : Mnem) : (scaledTokens m).length = 3 := rfl

theorem length_base16Tokens_le (m : Mnem) : (base16Tokens m).length ≤ 3 := by
  rw [base16Tokens]
  split_ifs <;> decide

theorem length_baseTokens_le (m : Mnem) : (baseTokens m).length ≤ 5 := by
  have h16 := length_base16Tokens_le m
  rw [baseTokens]
  split_ifs
  · exact Nat.le_add_left 2 3
  · rw [List.length_cons, List.length_append, length_scaledTokens]
    exact Nat.le_refl 5
  · exact Nat.le_add_left 2 3
  · rw [List.length_append]
    exact Nat.add_le_add h16 (Nat.le_succ 1)

theorem length_innerTokens_le (m : Mnem) (disp : List U8) : (innerTokens m disp).length ≤ 6 := by
  have h16 := length_base16Tokens_le m
  have hbase := length_baseTokens_le m
  rw [innerTokens]
  split_ifs
  iterate 2 exact Nat.le_add_left 1 5
  · rw [List.length_append, length_scaledTokens]
    exact Nat.le_succ 5
  · exact Nat.le_succ 5
  iterate 3 exact Nat.le_add_left 1 5
  · exact h16.trans (by decide)
  · rw [List.length_append]
    exact Nat.add_le_add hbase (Nat.le_refl 1)

theorem length_rmTokens_le (m : Mnem) (size : Nat) (disp : List U8) :
    (rmTokens m size disp).length ≤ 10 := by
  have hinner := length_innerTokens_le m disp
  rw [rmTokens]
  split_ifs
  · exact Nat.le_add_left 1 9
  · simp only [operandTokens, List.length_cons, List.length_append, List.length_nil]
    omega

theorem disp_of_register (h : m.mod = 0b11) : m.disp = [] := by
  rw [Mnem.disp, dispFields, show high2 m.modrm = 3 from h]
  rfl

/-- What an operand in memory has printed where its displacement cannot be read. -/
def cutTokens (m : Mnem) : List Token := [openToken, segToken m.segIndex, colonToken]

/-- `x` prints `a`, the operand in a size, and `b`. -/
structure RmLine (mmu : Mmu) (x : Dec Unit) (m : Mnem) (size : Nat) (a b : List Token) : Prop where
  emits : ∀ disp, disp.length = m.disp.sum → (0 < m.disp.sum → Reads mmu m.eip disp) →
    Emits mmu x m disp.length (a ++ (rmTokens m size disp ++ b)) ()
  fails : 0 < m.disp.sum → (∀ disp, disp.length = m.disp.sum → ¬ Reads mmu m.eip disp) →
    Runs mmu x m 0 (a ++ (cutTokens m ++ b)) (some ())

theorem rmLine_modrmGetToken (size : Nat) (mmu : Mmu) (m : Mnem) :
    RmLine mmu (modrmGetToken (regNames size) size) m size [] [] where
  emits := by
    refine fun disp hlen hreads => emits_state_bind fun line => ?_
    rw [List.nil_append, List.append_nil, rmTokens,
      show Mnem.mod { m with line := line } = m.mod from rfl]
    by_cases hmod : m.mod = 0b11
    · rw [disp_of_register hmod] at hlen
      obtain rfl := List.length_eq_zero_iff.mp hlen
      rw [if_pos hmod, if_pos hmod]
      exact emits_token ..
    · rw [if_neg hmod, if_neg hmod]
      exact (emits_getModrmToken hmod hlen hreads).call
  fails := by
    refine fun hpos hno => runs_state_bind fun line => ?_
    have hmod : m.mod ≠ 0b11 := fun h => by
      rw [disp_of_register h] at hpos
      exact Nat.lt_irrefl 0 hpos
    rw [show Mnem.mod { m with line := line } = m.mod from rfl, if_neg hmod]
    exact (runs_getModrmToken hmod hpos hno).call

variable {x y : Dec Unit} {size : Nat} {a b c : List Token}

theorem rmLine_state_bind {f : Mnem → Dec Unit}
    (h : ∀ line, RmLine mmu (f { m with line := line }) m size a b) :
    RmLine mmu (state >>= f) m size a b where
  emits disp hlen hreads := emits_state_bind fun line => (h line).emits disp hlen hreads
  fails hpos hno := runs_state_bind fun line => (h line).fails hpos hno

/-- What is printed before, and behind. -/
theorem RmLine.before (h : RmLine mmu y m size a b) (hx : Emits mmu x m 0 c ()) :
    RmLine mmu (do x; y) m size (c ++ a) b where
  emits disp hlen hreads := by
    rw [List.append_assoc]
    exact hx.seq (h.emits disp hlen hreads)
  fails hpos hno := by
    rw [List.append_assoc]
    exact hx.runs_seq (h.fails hpos hno)

theorem RmLine.behind (h : RmLine mmu x m size a b) (hy : ∀ k, Emits mmu y (m.skip k) 0 c ()) :
    RmLine mmu (do x; y) m size a (b ++ c) where
  emits disp hlen hreads := by
    rw [← List.append_assoc, ← List.append_assoc, List.append_assoc a]
    exact (h.emits disp hlen hreads).last (hy _)
  fails hpos hno := by
    rw [← List.append_assoc, ← List.append_assoc, List.append_assoc a]
    have hrun := (h.fails hpos hno).bind (f := fun _ => y) (hy 0).runs
    exact hrun

/-- A register has no displacement. -/
theorem RmLine.register (h : RmLine mmu x m size a b) (h3 : m.mod = 0b11) :
    Emits mmu x m 0 (a ++ (regToken size m.rm :: b)) () := by
  have hsum : m.disp.sum = 0 := by
    rw [disp_of_register h3]
    rfl
  have hemits := h.emits [] hsum.symm fun hpos => absurd hpos (hsum ▸ Nat.lt_irrefl 0)
  rwa [rmTokens, if_pos h3] at hemits

/-- The handlers that pick the printer by the operand size, or by `W` before it. -/
theorem rmLine_modrmGetTokenV (mmu : Mmu) (m : Mnem) : RmLine mmu modrmGetTokenV m m.sizeV [] [] := by
  refine rmLine_state_bind fun line => ?_
  rw [show Mnem.op32 { m with line := line } = m.op32 from rfl, Mnem.sizeV]
  cases m.op32 with
  | true => exact rmLine_modrmGetToken 4 mmu m
  | false => exact rmLine_modrmGetToken 2 mmu m

theorem rmLine_modrmGetTokenW (mmu : Mmu) (m : Mnem) : RmLine mmu modrmGetTokenW m m.sizeW [] [] := by
  refine rmLine_state_bind fun line => ?_
  rw [show Mnem.w { m with line := line } = m.w from rfl, Mnem.sizeW]
  cases m.w with
  | true => exact rmLine_modrmGetTokenV mmu m
  | false => exact rmLine_modrmGetToken 1 mmu m

/-- The operand and the register of a double shift. -/
theorem rmLine_doubleShiftOperands (mmu : Mmu) (m : Mnem) :
    RmLine mmu doubleShiftOperands m (if m.w then 4 else 2) []
      [commaToken, regToken (if m.w then 4 else 2) m.reg] := by
  refine rmLine_state_bind fun line => ?_
  rw [show Mnem.w { m with line := line } = m.w from rfl]
  cases m.w with
  | true => exact (rmLine_modrmGetToken 4 mmu m).behind fun _ => emits_comma.seq (emits_reg32 _)
  | false => exact (rmLine_modrmGetToken 2 mmu m).behind fun _ => emits_comma.seq (emits_reg16 _)

end Tomk.Disasm
