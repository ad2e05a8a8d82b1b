/-
# The text that `i80386_mnem_get_str` leaves

Each call of `snprintf` puts its text over the NUL of the call before it, and a NUL behind it.  So
the buffer holds the texts of the tokens, one after the other, as long as no token by itself is too
wide for the size that each call is given; whether the whole line fits the buffer does not
matter for that.  Bytes outside of the text and its NUL are as they were.
-/
import Tomk.Disasm.MnemStr

namespace Tomk.Disasm

variable {buffer size : U32} {tokens : List Token} {mem : Bytes} {stores : List Store}

/-! ## Stores and texts -/

theorem storeAll_other {a : U32} (h : ∀ st ∈ stores, st.addr ≠ a) :
    storeAll mem stores a = mem a := by
  induction stores generalizing mem with
  | nil => rfl
  | cons st stores ih =>
      have hrest : storeAll (Function.update mem st.addr st.byte) stores a
          = Function.update mem st.addr st.byte a :=
        ih fun st' hst' => h st' (List.mem_cons_of_mem st hst')
      exact hrest.trans (Function.update_of_ne (h st List.mem_cons_self).symm _ _)

theorem storeAll_append (mem : Bytes) (stores stores' : List Store) :
    storeAll mem (stores ++ stores') = storeAll (storeAll mem stores) stores' := List.foldl_append

/-- A text behind other characters. -/
theorem textAt_behind {s : U32} {t t' : List U8}
    (h : ∀ i (h : i < t.length), mem (s + BitVec.ofNat 32 i) = t[i])
    (h' : TextAt mem (s + BitVec.ofNat 32 t.length) t') : TextAt mem s (t ++ t') := by
  have haddr : ∀ i, s + BitVec.ofNat 32 t.length + BitVec.ofNat 32 i
      = s + BitVec.ofNat 32 (t.length + i) := fun i => by
    rw [BitVec.ofNat_add, BitVec.add_assoc]
  refine ⟨fun i hi => ?_, ?_⟩
  · rw [List.length_append] at hi
    by_cases hlt : i < t.length
    · rw [List.getElem_append_left hlt, h i hlt]
    · have hle := Nat.le_of_not_lt hlt
      rw [List.getElem_append_right hle, ← h'.chars (i - t.length) (by omega), haddr,
        Nat.add_sub_cancel' hle]
  · rw [List.length_append, ← haddr]
    exact h'.nul

theorem textAt_keep {mem' : Bytes} {s : U32} {t : List U8} (h : TextAt mem s t)
    (hsame : ∀ i ≤ t.length, mem' (s + BitVec.ofNat 32 i) = mem (s + BitVec.ofNat 32 i)) :
    TextAt mem' s t :=
  ⟨fun i hi => (hsame i (Nat.le_of_lt hi)).trans (h.chars i hi),
    (hsame _ (Nat.le_refl _)).trans h.nul⟩

/-! ## The text of a line -/

/-- The text of a token, as `%s` prints it. -/
def Token.name (t : Token) : List U8 := (t.text.map Name.text).getD (chars "(null)")

/-- What a token prints: a name, a number, and behind a mnemonic or a prefix a space. -/
def Token.shown (t : Token) : List U8 :=
  match t.type with
  | .generalRegister | .controlRegister | .debugRegister | .testRegister
  | .segment | .operator | .memory => t.name
  | .number => numberText (t.number.signExtend 64) true 10 false 0 (-1) (ch ' ') false
  | .immediate | .relativeAddress | .absoluteAddress =>
      ch '0' :: ch 'x' :: numberText (t.number.setWidth 64) false 16 false 2 (-1) (ch '0') false
  | .instrPrefix | .mnemonic => t.name ++ [ch ' ']

/-- What the calls of `snprintf` leave, with a size for each: the tokens up to the first that
is too wide, which is cut. -/
def lineText (size : Nat) : List Token → List U8
  | [] => []
  | t :: tokens =>
      if t.width < size then t.shown ++ lineText size tokens else t.shown.take (size - 1)

theorem Token.stringText_name (t : Token) :
    stringText (t.text.map Name.text) 0 (-1) false = t.name := by
  have hle := (textWidth_bounds t.text).2
  rw [textWidth] at hle
  have hlen : (BitVec.ofNat 32 ((t.text.map Name.text).getD (chars "(null)")).length).toNat
      = ((t.text.map Name.text).getD (chars "(null)")).length := Nat.mod_eq_of_lt (by omega)
  have hsle : ¬ (0 : U32).sle (-1) = true := by decide
  simp only [stringText, hsle, false_and, if_false, Bool.false_eq_true, hlen, List.take_length,
    List.append_nil]
  have hspaces : (0 : U32).toNat - ((t.text.map Name.text).getD (chars "(null)")).length = 0 :=
    Nat.zero_sub _
  rw [hspaces]
  rfl

/-- `snprintf` of a token. -/
theorem Token.format_shown (t : Token) : formatText t.format.1 t.format.2 = some t.shown := by
  have hshown : ∃ text, formatText t.format.1 t.format.2 = some text ∧ text = t.shown := by
    rw [Token.format, Token.shown]
    cases t.type <;> refine ⟨_, rfl, ?_⟩
    case number => exact List.append_nil _
    case instrPrefix | mnemonic => exact congrArg (· ++ [ch ' ']) t.stringText_name
    case immediate | relativeAddress | absoluteAddress =>
      exact congrArg (fun text => ch '0' :: ch 'x' :: text) (List.append_nil _)
    all_goals exact (List.append_nil _).trans t.stringText_name
  obtain ⟨_, htext, rfl⟩ := hshown
  exact htext

theorem Token.length_shown (t : Token) : t.shown.length = t.width := by
  obtain ⟨text, htext, hwidth⟩ := t.format_text
  rw [t.format_shown] at htext
  rw [Option.some.inj htext, hwidth]

/-! ## A size that cuts no token -/

theorem printedDigits_length_le {b n : Nat} (hb : 1 < b) (hn : 0 < n) {number : U64}
    (hlt : number.toNat < b ^ n) : (printedDigits b number).length ≤ n := by
  rw [printedDigits]
  split
  · exact hn
  · exact (Nat.digits_length_le_iff hb _).mpr hlt

theorem Token.width_le (t : Token) : t.width ≤ 11 := by
  have htext := (textWidth_bounds t.text).2
  have hlt := t.number.isLt
  have hdec : decimalWidth t.number ≤ 11 := by
    rw [decimalWidth]
    split
    · next hneg =>
        have hsign : -(t.number.signExtend 64) = (~~~t.number).setWidth 64 + 1 := by
          rw [BitVec.signExtend_eq_not_setWidth_not_of_msb_true
            (BitVec.slt_zero_iff_msb_cond.mp hneg), BitVec.neg_eq_not_add, BitVec.not_not]
          rfl
        have hle : (printedDigits 10 (-(t.number.signExtend 64))).length ≤ 10 := by
          refine printedDigits_length_le (by decide) (by decide) ?_
          rw [hsign]
          bv_omega
        omega
    · next hpos =>
        refine Nat.le_succ_of_le (printedDigits_length_le (by decide) (by decide) ?_)
        have hmsb : t.number.msb = false := Bool.eq_false_of_not_eq_true fun h =>
          hpos (BitVec.slt_zero_iff_msb_cond.mpr h)
        rw [BitVec.signExtend_eq_setWidth_of_msb_false hmsb, BitVec.toNat_setWidth]
        omega
  have hhex : hexWidth t.number ≤ 11 := by
    have hle : (printedDigits 16 (t.number.setWidth 64)).length ≤ 8 := by
      refine printedDigits_length_le (by decide) (by decide) ?_
      rw [BitVec.toNat_setWidth]
      omega
    rw [hexWidth]
    omega
  rw [Token.width]
  split <;> omega

/-- A size of 12 is enough for every line. -/
theorem lineText_eq {size : Nat} (hsize : 11 < size) (tokens : List Token) :
    lineText size tokens = tokens.flatMap Token.shown := by
  induction tokens with
  | nil => rfl
  | cons t tokens ih =>
      rw [lineText, if_pos (Nat.lt_of_le_of_lt t.width_le hsize), ih, List.flatMap_cons]

/-! ## The loop over the tokens -/

/-- The loop leaves the bytes before its `count`, and those behind the last NUL. -/
theorem printTokens_keeps {c : Nat} (hc : c + lineWidth tokens < 2 ^ 32)
    (hrun : printTokens buffer size tokens (BitVec.ofNat 32 c) = some stores) {i : Nat}
    (hi : i < 2 ^ 32) (hout : i < c ∨ c + lineWidth tokens < i) :
    storeAll mem stores (buffer + BitVec.ofNat 32 i) = mem (buffer + BitVec.ofNat 32 i) := by
  obtain ⟨stores', hrun', hinside, -⟩ := printTokens_stores buffer size tokens c hc
  obtain rfl := Option.some.inj (hrun.symm.trans hrun')
  refine storeAll_other fun st hst => ?_
  obtain ⟨-, before, t, after, rfl, j, hj, haddr⟩ := hinside st hst
  rw [lineWidth_append, lineWidth_cons] at hc hout
  rw [haddr]
  exact add_ofNat_ne (by omega) hi (by omega)

/-- One call. -/
theorem Token.printed (t : Token) (buffer : U32) (hsize : size ≠ 0) :
    ∃ stores,
      vsnprintf buffer size t.format.1 t.format.2 = some (BitVec.ofNat 32 t.width, stores) ∧
      (∀ st ∈ stores, ∃ i ≤ t.width, st.addr = buffer + BitVec.ofNat 32 i) ∧
      ∀ mem, TextAt (storeAll mem stores) buffer (t.shown.take (size.toNat - 1)) := by
  have hlen := t.length_shown
  have hle := t.width_le
  obtain ⟨stores, hrun, -, htext⟩ := vsnprintf_agrees
    (vsprintf_text 0 t.format_shown (by omega)) buffer size
  obtain ⟨stores', hrun', hinside, -⟩ := vsnprintf_stores t.format_shown (by omega) buffer size
  rw [hrun'] at hrun
  obtain ⟨-, rfl⟩ := Prod.mk.inj (Option.some.inj hrun)
  rw [hlen] at hrun' hinside
  refine ⟨_, hrun', fun st hst => ?_, htext hsize⟩
  obtain ⟨-, i, hi, haddr⟩ := hinside st hst
  exact ⟨i, hi.trans (Nat.min_le_left _ _), haddr⟩

/-- **The loop**, behind the text of a `count`. -/
theorem printTokens_text (hsize : size ≠ 0) (htokens : tokens ≠ []) {text : List U8}
    (hfits : text.length + lineWidth tokens < 2 ^ 32)
    (hrun : printTokens buffer size tokens (BitVec.ofNat 32 text.length) = some stores)
    (hmem : ∀ i (h : i < text.length), mem (buffer + BitVec.ofNat 32 i) = text[i]) :
    TextAt (storeAll mem stores) buffer (text ++ lineText size.toNat tokens) := by
  induction tokens generalizing text mem stores with
  | nil => exact absurd rfl htokens
  | cons t tokens ih =>
      rw [lineWidth_cons] at hfits
      have hlen := t.length_shown
      have hpos : size.toNat ≠ 0 := fun h => hsize (BitVec.eq_of_toNat_eq h)
      obtain ⟨first, hfirst, hinside, hshown⟩ :=
        t.printed (buffer + BitVec.ofNat 32 text.length) hsize
      simp only [printTokens, hfirst, Option.bind_eq_bind, Option.bind_some] at hrun
      obtain ⟨rest, hrest, heq⟩ := Option.bind_eq_some_iff.mp hrun
      obtain rfl := Option.some.inj heq
      rw [← BitVec.ofNat_add] at hrest
      rw [storeAll_append]
      have hmem1 : ∀ i (h : i < text.length),
          storeAll mem first (buffer + BitVec.ofNat 32 i) = text[i] := fun i hi => by
        rw [← hmem i hi]
        refine storeAll_other fun st hst => ?_
        obtain ⟨j, hj, haddr⟩ := hinside st hst
        rw [haddr, BitVec.add_assoc, ← BitVec.ofNat_add]
        exact add_ofNat_ne (by omega) (by omega) (by omega)
      have hbehind := textAt_behind hmem1 (hshown mem)
      by_cases hlt : t.width < size.toNat
      · rw [lineText, if_pos hlt]
        rw [List.take_of_length_le (by omega)] at hbehind
        by_cases hnil : tokens = []
        · subst hnil
          obtain rfl := Option.some.inj hrest
          rwa [storeAll_nil, lineText, List.append_nil]
        · rw [← List.append_assoc]
          refine ih hnil (by rw [List.length_append]; omega) ?_ hbehind.chars
          rwa [List.length_append, hlen]
      · -- the NUL of the call is before the `count` of the next one
        rw [lineText, if_neg hlt]
        refine textAt_keep hbehind fun i hi => printTokens_keeps (by omega) hrest ?_ ?_ <;>
          rw [List.length_append, List.length_take] at hi
        · omega
        · exact Or.inl (by omega)

/-! ## The function -/

/-- What the printed tokens make of a memory. -/
structure LeavesLine (buffer size : U32) (tokens : List Token) (mem mem' : Bytes) : Prop where
  text : tokens ≠ [] → size ≠ 0 → TextAt mem' buffer (lineText size.toNat tokens)
  whole : tokens ≠ [] → 11 < size.toNat → TextAt mem' buffer (tokens.flatMap Token.shown)
  keeps : ∀ a, tokens = [] ∨ size = 0 ∨ lineWidth tokens < (a - buffer).toNat →
    mem' a = mem a

theorem printTokens_leaves (hfits : lineWidth tokens < 2 ^ 32)
    (hrun : printTokens buffer size tokens 0 = some stores) (mem : Bytes) :
    LeavesLine buffer size tokens mem (storeAll mem stores) := by
  have hnone : ∀ i (h : i < ([] : List U8).length),
      mem (buffer + BitVec.ofNat 32 i) = [][i] :=
    fun i hi => absurd hi (Nat.not_lt_zero i)
  have htext : tokens ≠ [] → size ≠ 0 →
      TextAt (storeAll mem stores) buffer (lineText size.toNat tokens) := fun htokens hsize =>
    printTokens_text hsize htokens (by rwa [List.length_nil, Nat.zero_add]) hrun hnone
  refine ⟨htext, fun htokens hlt => ?_, fun a hout => ?_⟩
  · rw [← lineText_eq hlt]
    refine htext htokens fun h0 => ?_
    rw [h0] at hlt
    exact Nat.not_lt_zero _ hlt
  · obtain ⟨stores', hrun', hinside, -⟩ := printTokens_stores buffer size tokens 0 (by omega)
    obtain rfl := Option.some.inj (hrun.symm.trans hrun')
    have ha : buffer + BitVec.ofNat 32 (a - buffer).toNat = a := by
      rw [BitVec.ofNat_toNat, BitVec.setWidth_eq, BitVec.add_comm, BitVec.sub_add_cancel]
    obtain rfl | h0 | hbehind := hout
    · obtain rfl := Option.some.inj hrun
      rfl
    · exact storeAll_other fun st hst => absurd h0 (hinside st hst).1
    · rw [← ha]
      exact printTokens_keeps (c := 0) (by omega) hrun (a - buffer).isLt (Or.inr (by omega))

/-- **`i80386_mnem_get_str`**, where the decoder comes back, leaves the tokens' texts in the
buffer, one behind the other, and a NUL: of a size of 12 or more every token in full, of a
smaller one up to the first that it cuts.  Without an instruction it leaves the memory. -/
theorem mnemGetStr_text {n : Nat} {mmu : Mmu} {address : U32} {r : Bool} {line : RenderLine}
    (h : mnemGetTokens n mmu address RenderLine.empty = some (r, line)) (buffer size : U32) :
    ∃ stores, mnemGetStr n mmu address buffer size = some (r, stores) ∧
      ∀ mem, LeavesLine buffer size (if r then line.tokens else []) mem (storeAll mem stores) := by
  simp only [mnemGetStr, h, Option.bind_eq_bind, Option.bind_some]
  cases r with
  | false =>
      have hnone : printTokens buffer size [] 0 = some [] := rfl
      exact ⟨[], rfl, fun mem => printTokens_leaves (by decide) hnone mem⟩
  | true =>
      have hfits : lineWidth line.tokens < 2 ^ 32 := Nat.lt_of_le_of_lt (lineWidth_le line) (by decide)
      obtain ⟨stores, hrun, -, -⟩ := printTokens_stores buffer size line.tokens 0 (by omega)
      refine ⟨stores, ?_, fun mem => printTokens_leaves hfits hrun mem⟩
      rw [if_pos rfl, show (0 : U32) = BitVec.ofNat 32 0 from rfl, hrun, Option.map_some]

/-- `mov` of an immediate, to an operand with an index and a displacement. -/
def movImmediate : Mmu := codeMmu [0x789884C7, 0x78123456, 0x00123456]

def movShown : List U8 := chars "mov [ds:eaxebx*4+0x12345678],0x12345678"

/-- A line of 39 characters, for a size of 32. -/
theorem mnemGetStr_text_mov : ∃ stores,
    mnemGetStr 15 movImmediate 0x1000 0x8000 32 = some (true, stores) ∧
    ∀ mem, TextAt (storeAll mem stores) 0x8000 movShown := by
  have hrun : (mnemGetTokens 15 movImmediate 0x1000 RenderLine.empty).map
      (fun out => (out.1, out.2.tokens.flatMap Token.shown)) = some (true, movShown) := by
    decide +kernel
  obtain ⟨⟨r, line⟩, hline, heq⟩ := Option.map_eq_some_iff.mp hrun
  obtain ⟨rfl, hshown⟩ := Prod.mk.inj heq
  have hshown : line.tokens.flatMap Token.shown = movShown := hshown
  obtain ⟨stores, hget, hleaves⟩ := mnemGetStr_text hline 0x8000 32
  refine ⟨stores, hget, fun mem => ?_⟩
  rw [← hshown]
  refine (hleaves mem).whole (fun hnil : line.tokens = [] => ?_) (by decide)
  rw [hnil] at hshown
  exact absurd hshown (by decide)

end Tomk.Disasm
