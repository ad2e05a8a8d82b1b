/-
# Relative branches

The number in the token of a branch is the distance from the first byte of the instruction to
where the branch goes: the displacement, and the counter behind it.  A handler takes a
displacement of `k` bytes and adds the counter behind them, in 16 bits or in 32 (`BranchAt`);
this is right if and only if `k` is the width of the displacement, since a wrong width is
also a wrong counter (`branchRight_iff`).

The short branches have one width.  A jump on a condition and a call go by the operand
size, as far as the prefixes have left it right; `jmp` takes a word always.
-/
import Tomk.Disasm.Rendered

namespace Tomk.Disasm

open Early I386

variable {mmu : Mmu} {addr : U32} {ins : Instruction} {m : Mnem} {k c : Nat}

/-- The token that says where a branch goes: the loops have an immediate. -/
def isTarget (t : Token) : Bool := t.type = .relativeAddress || t.type = .immediate

/-- `v` is the displacement from `c` on, though perhaps in 16 bits if the displacement is a
word. -/
def DistanceOf (v : U32) (disp : List U8) (c : Nat) : Prop :=
  v.setWidth 16 = (signExtended disp + BitVec.ofNat 32 c).setWidth 16 ∧
    (disp.length ≠ 2 → v = signExtended disp + BitVec.ofNat 32 c)

/-- `x` takes a displacement of `k` bytes, and prints a mnemonic and the distance. -/
structure BranchAt (mmu : Mmu) (x : Dec Unit) (m : Mnem) (c k : Nat) : Prop where
  emits : ∀ disp, disp.length = k → Reads mmu m.eip disp → ∃ mn t, Emits mmu x m k [mn, t] () ∧
    isTarget mn = false ∧ isTarget t = true ∧ DistanceOf t.number disp (c + k)
  fails : (∀ disp, disp.length = k → ¬ Reads mmu m.eip disp) →
    ∃ toks, Runs mmu x m 0 toks none ∧ toks.length ≤ 1 ∧ toks.filter isTarget = []

variable {α : Type} {x : Dec α} {f : α → Dec Unit} {value : List U8 → α}

/-- The mnemonic behind the fetch, or before it. -/
theorem FetchesAt.branchAt (mn : Token) (t : α → Token) (hx : FetchesAt mmu x m k value)
    (hf : ∀ a, Emits mmu (f a) (m.skip k) 0 [mn, t a] ()) (hmn : isTarget mn = false)
    (ht : ∀ a, isTarget (t a) = true)
    (hd : ∀ disp, disp.length = k → DistanceOf (t (value disp)).number disp (c + k)) :
    BranchAt mmu (x >>= f) m c k where
  emits disp hlen hreads :=
    ⟨mn, t (value disp), (hx.emits disp hlen hreads).then (hf _), hmn, ht _, hd disp hlen⟩
  fails hno := ⟨[], (hx.fails hno).ret, Nat.zero_le 1, rfl⟩

theorem FetchesAt.branchAt_mnemonic {text : Name} (t : α → Token)
    (hx : FetchesAt mmu x m k value)
    (hf : ∀ a, Emits mmu (f a) (m.skip k) 0 [t a] ()) (ht : ∀ a, isTarget (t a) = true)
    (hd : ∀ disp, disp.length = k → DistanceOf (t (value disp)).number disp (c + k)) :
    BranchAt mmu (do mnemonic text; x >>= f) m c k where
  emits disp hlen hreads :=
    ⟨mnemonicToken text, t (value disp), (emits_mnemonic text).seq
      ((hx.emits disp hlen hreads).then (hf _)), rfl, ht _, hd disp hlen⟩
  fails hno := ⟨[mnemonicToken text], (emits_mnemonic text).runs_seq (hx.fails hno).ret, Nat.le_refl 1,
    rfl⟩

/-! ## The handlers -/

theorem counter_skip (hc : m.counter = BitVec.ofNat 16 c) (k : Nat) :
    (m.skip k).counter = BitVec.ofNat 16 (c + k) := by
  show m.counter + _ = _
  rw [hc, ← BitVec.ofNat_add]

theorem setWidth_ofNat16 (hc : c < 2 ^ 16) :
    (BitVec.ofNat 16 c).setWidth 32 = BitVec.ofNat 32 c := by
  apply BitVec.eq_of_toNat_eq
  rw [BitVec.toNat_setWidth, BitVec.toNat_ofNat, BitVec.toNat_ofNat]
  omega

/-- The 16-bit sum of the short branches does not overflow. -/
theorem signExtend_short (b : U8) (hc : c < 128) :
    (b.signExtend 16 + BitVec.ofNat 16 c).signExtend 32
      = b.signExtend 32 + BitVec.ofNat 32 c := by
  apply BitVec.eq_of_toInt_eq
  have hlo := BitVec.le_toInt b
  have hhi := BitVec.toInt_lt (x := b)
  have h16 : (BitVec.ofNat 16 c).toInt = c := by
    rw [BitVec.toInt_eq_toNat_of_lt (by rw [BitVec.toNat_ofNat]; omega), BitVec.toNat_ofNat]
    omega
  have h32 : (BitVec.ofNat 32 c).toInt = c := by
    rw [BitVec.toInt_eq_toNat_of_lt (by rw [BitVec.toNat_ofNat]; omega), BitVec.toNat_ofNat]
    omega
  rw [BitVec.toInt_signExtend_of_le (by decide), BitVec.toInt_add, BitVec.toInt_add,
    BitVec.toInt_signExtend_of_le (by decide), BitVec.toInt_signExtend_of_le (by decide), h16, h32,
    Int.bmod_eq_of_le (by omega) (by omega), Int.bmod_eq_of_le (by omega) (by omega)]

theorem distanceOf_short {disp : List U8} (h1 : disp.length = 1) (hc : c < 128) :
    DistanceOf ((((BitVec.ofNat 8 (littleEndian disp)).signExtend 16)
      + BitVec.ofNat 16 c).signExtend 32) disp c := by
  have hd : signExtended disp = (BitVec.ofNat 8 (littleEndian disp)).signExtend 32 := by
    rw [signExtended, h1]
  rw [DistanceOf, hd, signExtend_short _ hc]
  exact ⟨rfl, fun _ => rfl⟩

theorem distanceOf_word {disp : List U8} (h2 : disp.length = 2) (c : Nat) :
    DistanceOf ((BitVec.ofNat 16 (littleEndian disp) + BitVec.ofNat 16 c).signExtend 32) disp c := by
  have hd : signExtended disp = (BitVec.ofNat 16 (littleEndian disp)).signExtend 32 := by
    rw [signExtended, h2]
  refine ⟨?_, fun h => absurd h2 h⟩
  rw [setWidth_signExtend (by decide), BitVec.signExtend_eq, BitVec.setWidth_add _ _ (by decide), hd,
    setWidth_signExtend (by decide), BitVec.signExtend_eq]
  congr 1
  apply BitVec.eq_of_toNat_eq
  rw [BitVec.toNat_setWidth, BitVec.toNat_ofNat, BitVec.toNat_ofNat]
  omega

theorem distanceOf_add (disp : List U8) (c : Nat) :
    DistanceOf (signExtended disp + BitVec.ofNat 32 c) disp c := ⟨rfl, fun _ => rfl⟩

theorem fetchesAt_fetchShort (mmu : Mmu) (m : Mnem) : FetchesAt mmu fetchShort m 1 fun bytes =>
    (BitVec.ofNat 8 (littleEndian bytes)).signExtend 16 + (m.skip 1).counter := by
  refine FetchesAt.bind (g := fun disp => disp.signExtend 16 + (m.skip 1).counter)
    (fetchesAt_fetchByte mmu m) fun disp => ?_
  exact emits_state_bind fun _ => emits_pure _

/-- A distance by the operand size, or in 16 bits. -/
def distanceToken (v : U32) (size : Nat) : Token := ⟨.relativeAddress, none, v, size⟩

theorem emits_jumpConditionToken :
    Emits mmu jumpConditionToken m 0 [⟨.mnemonic, jccMnem[m.cccc]?, 0, 0⟩] () :=
  emits_state_bind fun _ => emits_token ..

theorem branchAt_jccShort (hc : m.counter = BitVec.ofNat 16 c) (hlt : c < 16) :
    BranchAt mmu jccShort m c 1 := by
  refine FetchesAt.branchAt ⟨.mnemonic, jccMnem[m.cccc]?, 0, 0⟩
    (fun v => distanceToken (v.signExtend 32) 2) (fetchesAt_fetchShort mmu m) (fun v => ?_) rfl
    (fun v => rfl) fun disp hlen => ?_
  · exact emits_jumpConditionToken.seq (emits_token ..)
  · rw [counter_skip hc]
    exact distanceOf_short hlen (by omega)

theorem branchAt_opcodeLoop (text : Name) (hc : m.counter = BitVec.ofNat 16 c) (hlt : c < 16) :
    BranchAt mmu (opcodeLoop text) m c 1 := by
  refine FetchesAt.branchAt (mnemonicToken text) (fun v => immToken (v.signExtend 32) 2)
    (fetchesAt_fetchShort mmu m) (fun v => ?_) rfl (fun v => rfl) fun disp hlen => ?_
  · exact (emits_mnemonic text).seq (emits_token ..)
  · rw [counter_skip hc]
    exact distanceOf_short hlen (by omega)

theorem branchAt_jmpIntraDirectShort (hc : m.counter = BitVec.ofNat 16 c) (hlt : c < 16) :
    BranchAt mmu jmpIntraDirectShort m c 1 := by
  refine FetchesAt.branchAt_mnemonic (fun v => distanceToken (v.signExtend 32) 2)
    (fetchesAt_fetchShort mmu m) (fun v => emits_token ..) (fun v => rfl) fun disp hlen => ?_
  rw [counter_skip hc]
  exact distanceOf_short hlen (by omega)

/-- A word for both operand sizes. -/
theorem branchAt_jmpIntraDirect (hc : m.counter = BitVec.ofNat 16 c) :
    BranchAt mmu jmpIntraDirect m c 2 := by
  refine FetchesAt.branchAt (mnemonicToken (name "jmp"))
    (fun v => distanceToken ((v + (m.skip 2).counter).signExtend 32) 2)
    (fetchesAt_fetchWord mmu m) (fun v => ?_) rfl (fun v => rfl) fun disp hlen => ?_
  · exact emits_state_bind fun _ => (emits_mnemonic _).seq (emits_token ..)
  · rw [counter_skip hc]
    exact distanceOf_word hlen _

theorem fetchesAt_fetchVSx (mmu : Mmu) (m : Mnem) : FetchesAt mmu fetchVSx m m.sizeV signExtended := by
  refine fetchesAt_state_bind fun line => ?_
  have hword : FetchesAt mmu (do let imm ← fetchWord; pure (imm.signExtend 32)) m 2 signExtended := by
    refine ((fetchesAt_fetchWord mmu m).bind fun _ => emits_pure _).congr fun bytes hlen => ?_
    rw [signExtended, hlen]
  have hdword : FetchesAt mmu fetchDword m 4 signExtended := by
    refine (fetchesAt_fetchDword mmu m).congr fun bytes hlen => ?_
    rw [signExtended, hlen]
    exact (BitVec.signExtend_eq _).symm
  refine (fetchesAt_ite (b := m.op32) (fun _ => hdword) fun _ => hword).congr fun bytes _ => ?_
  exact ite_self _

theorem branchAt_jccLong (hc : m.counter = BitVec.ofNat 16 c) (hlt : c < 16) :
    BranchAt mmu jccLong m c m.sizeV := by
  have hsize : m.sizeV ≤ 4 := by
    rw [Mnem.sizeV]
    split <;> decide
  refine FetchesAt.branchAt ⟨.mnemonic, jccMnem[m.cccc]?, 0, 0⟩
    (fun v => distanceToken (v + (m.skip m.sizeV).counter.setWidth 32) 4)
    (fetchesAt_fetchVSx mmu m) (fun v => ?_) rfl (fun v => rfl) fun disp hlen => ?_
  · exact emits_state_bind fun _ => emits_jumpConditionToken.seq (emits_token ..)
  · rw [counter_skip hc, setWidth_ofNat16 (by omega)]
    exact distanceOf_add disp _

theorem fetchesAt_fetchCall (mmu : Mmu) (m : Mnem) : FetchesAt mmu fetchCall m m.sizeV fun bytes =>
    if m.op32 then BitVec.ofNat 32 (littleEndian bytes) + (m.skip 4).counter.setWidth 32
    else (BitVec.ofNat 16 (littleEndian bytes) + (m.skip 2).counter).signExtend 32 := by
  refine fetchesAt_state_bind fun line => fetchesAt_ite (b := m.op32) (fun _ => ?_) fun _ => ?_
  · refine FetchesAt.bind (g := fun imm => imm + (m.skip 4).counter.setWidth 32)
      (fetchesAt_fetchDword mmu m) fun imm => ?_
    exact emits_state_bind fun _ => emits_pure _
  · refine FetchesAt.bind (g := fun imm => (imm + (m.skip 2).counter).signExtend 32)
      (fetchesAt_fetchWord mmu m) fun imm => ?_
    exact emits_state_bind fun _ => emits_pure _

theorem branchAt_callIntraDirect (hc : m.counter = BitVec.ofNat 16 c) (hlt : c < 16) :
    BranchAt mmu callIntraDirect m c m.sizeV := by
  refine FetchesAt.branchAt_mnemonic (fun v => distanceToken v m.sizeV) (fetchesAt_fetchCall mmu m)
    (fun v => emits_state_bind fun _ => emits_token ..) (fun v => rfl) fun disp hlen => ?_
  cases h : m.op32 with
  | true =>
      rw [Mnem.sizeV, h, if_pos rfl] at hlen ⊢
      have hd : signExtended disp = BitVec.ofNat 32 (littleEndian disp) := by
        rw [signExtended, hlen]
        exact BitVec.signExtend_eq _
      rw [if_pos rfl, counter_skip hc, setWidth_ofNat16 (by omega), ← hd]
      exact distanceOf_add disp _
  | false =>
      rw [Mnem.sizeV, h, if_neg Bool.false_ne_true] at hlen ⊢
      rw [if_neg Bool.false_ne_true, counter_skip hc]
      exact distanceOf_word hlen _

/-! ## The target -/

/-- In how many bits the distance counts. -/
def branchBits (op32 : Bool) : Nat := if op32 then 32 else 16

/-- The token of a branch has the distance from the instruction to its target. -/
def HasDistance (addr : U32) (ins : Instruction) (toks : List Token) : Prop :=
  ∃ t, toks.filter isTarget = [t] ∧ t.number.setWidth (branchBits ins.op32)
    = (branchTarget ins.op32 (addr + BitVec.ofNat 32 ins.bytes.length) ins.operands
        - addr).setWidth (branchBits ins.op32)

theorem setWidth_and (v : U32) : (v &&& 0xFFFF).setWidth 16 = v.setWidth 16 := by
  rw [BitVec.setWidth_and]
  exact BitVec.and_allOnes

theorem setWidth_branchTarget (op32 : Bool) (addr next : U32) (disp : List U8) :
    (branchTarget op32 (addr + next) disp - addr).setWidth (branchBits op32)
      = (signExtended disp + next).setWidth (branchBits op32) := by
  have hsub : addr + next + signExtended disp - addr = signExtended disp + next := by
    rw [BitVec.add_assoc, BitVec.add_comm, BitVec.add_sub_cancel, BitVec.add_comm]
  cases op32 with
  | true => exact congrArg (BitVec.setWidth 32) hsub
  | false =>
      show ((addr + next + signExtended disp &&& 0xFFFF) - addr).setWidth 16 = _
      rw [BitVec.sub_eq_add_neg, BitVec.setWidth_add _ _ (by decide), setWidth_and,
        ← BitVec.setWidth_add _ _ (by decide), ← BitVec.sub_eq_add_neg, hsub]
      rfl

/-- The low word of a displacement is in its first two bytes. -/
theorem setWidth_signExtended_of_len {disp : List U8} (hlen : disp.length = 2 ∨ disp.length = 4) :
    (signExtended disp).setWidth 16 = BitVec.ofNat 16 (littleEndian (disp.take 2)) := by
  have htake : littleEndian disp % 2 ^ 16 = littleEndian (disp.take 2) % 2 ^ 16 := by
    rcases disp with _ | ⟨a, _ | ⟨b, rest⟩⟩
    · rfl
    · rfl
    · simp only [List.take_succ_cons, List.take_zero, littleEndian]
      omega
  apply BitVec.eq_of_toNat_eq
  rw [BitVec.toNat_ofNat, ← htake]
  rcases hlen with h2 | h4
  · have hword : signExtended disp = (BitVec.ofNat 16 (littleEndian disp)).signExtend 32 := by
      rw [signExtended, h2]
    rw [hword, setWidth_signExtend (by decide), BitVec.signExtend_eq, BitVec.toNat_ofNat]
  · have hdword : signExtended disp = BitVec.ofNat 32 (littleEndian disp) := by
      rw [signExtended, h4]
      exact BitVec.signExtend_eq _
    rw [hdword, BitVec.toNat_setWidth, BitVec.toNat_ofNat]
    omega

theorem Reads.take {va : U32} {bytes : List U8} (h : Reads mmu va bytes) (j : Nat) :
    Reads mmu va (bytes.take j) := by
  refine ⟨h.mapped, fun i hi => ?_⟩
  rw [List.getElem_take]
  exact h.load i (by rw [List.length_take] at hi; omega)

/-- A distance of the wrong width goes with a wrong counter, and shows in the low word. -/
theorem setWidth_distance_ne {disp disp' : List U8} {va : U32} (h : Reads mmu va disp)
    (h' : Reads mmu va disp') (hlen : disp.length = 2 ∨ disp.length = 4)
    (hlen' : disp'.length = 2 ∨ disp'.length = 4) (hne : disp.length ≠ disp'.length) :
    (signExtended disp + BitVec.ofNat 32 (c + disp.length)).setWidth 16
      ≠ (signExtended disp' + BitVec.ofNat 32 (c + disp'.length)).setWidth 16 := by
  have htake : disp.take 2 = disp'.take 2 := by
    refine (h.take 2).unique (h'.take 2) ?_
    rw [List.length_take, List.length_take]
    omega
  rw [BitVec.setWidth_add _ _ (by decide), BitVec.setWidth_add _ _ (by decide),
    setWidth_signExtended_of_len hlen, setWidth_signExtended_of_len hlen', htake]
  intro heq
  have hnat := congrArg BitVec.toNat ((BitVec.add_right_inj _).mp heq)
  rw [BitVec.toNat_setWidth, BitVec.toNat_setWidth, BitVec.toNat_ofNat, BitVec.toNat_ofNat] at hnat
  omega

/-! ## The condition -/

theorem lockTokens_filter (l : List U8) : (lockTokens l).filter isTarget = [] :=
  List.filter_eq_nil_iff.mpr fun t ht => by
    rw [mem_lockTokens ht]
    decide

/-- The token that is left of a line beside the mnemonic. -/
theorem hasDistance_iff {mn t : Token} (hmn : isTarget mn = false) (ht : isTarget t = true) :
    HasDistance addr ins (lockTokens ins.prefixes ++ [mn, t]) ↔
      t.number.setWidth (branchBits ins.op32)
        = (signExtended ins.operands + BitVec.ofNat 32 ins.bytes.length).setWidth
          (branchBits ins.op32) := by
  have hfilter : (lockTokens ins.prefixes ++ [mn, t]).filter isTarget = [t] := by
    rw [List.filter_append, lockTokens_filter, List.nil_append, List.filter_cons_of_neg (by simp [hmn]),
      List.filter_cons_of_pos ht, List.filter_nil]
  rw [← setWidth_branchTarget ins.op32 addr]
  constructor
  · rintro ⟨t', ht', hnum⟩
    rw [hfilter] at ht'
    obtain rfl := List.head_eq_of_cons_eq ht'
    exact hnum
  · exact fun h => ⟨t, hfilter, h⟩

/-- The widths there are: that of the short branches, and those of the others. -/
structure BranchWidths (ins : Instruction) (k : Nat) : Prop where
  width : k = 1 ∨ k = 2 ∨ k = 4
  length : ins.operands.length = if k = 1 then 1 else if ins.op32 then 4 else 2

/-- The distance is right if as many bytes are taken as there are. -/
theorem DistanceOf.right {v : U32} {k : Nat} (h : DistanceOf v ins.operands (fieldsAt ins + k))
    (hw : BranchWidths ins k) (hk : k = ins.operands.length) : v.setWidth (branchBits ins.op32)
      = (signExtended ins.operands + BitVec.ofNat 32 ins.bytes.length).setWidth
        (branchBits ins.op32) := by
  have hlen := hw.length
  rw [length_bytes_eq, ← hk]
  cases h32 : ins.op32 with
  | true =>
      have hne : ins.operands.length ≠ 2 := by
        rw [hlen, h32]
        by_cases h1 : k = 1 <;> simp [h1]
      rw [h.2 hne]
  | false => exact h.1

/-- With a wrong width it is wrong. -/
theorem DistanceOf.wrong {v : U32} {k : Nat} {disp : List U8} {va : U32}
    (h : DistanceOf v disp (fieldsAt ins + k)) (hw : BranchWidths ins k) (hdisp : disp.length = k)
    (hread : Reads mmu va disp) (hreads : Reads mmu va ins.operands) (hk : k ≠ ins.operands.length) :
    v.setWidth (branchBits ins.op32)
      ≠ (signExtended ins.operands + BitVec.ofNat 32 ins.bytes.length).setWidth
        (branchBits ins.op32) := by
  intro hnum
  have hwidth := hw.width
  have hlen := hw.length
  have hlong := ins.length_bytes_le
  have hbytes := length_bytes_eq ins
  have hlow : v.setWidth 16
      = (signExtended ins.operands + BitVec.ofNat 32 ins.bytes.length).setWidth 16 := by
    cases h32 : ins.op32 with
    | true =>
        rw [h32] at hnum
        have heq : v = signExtended ins.operands + BitVec.ofNat 32 ins.bytes.length := by
          rw [← BitVec.setWidth_eq v, ← BitVec.setWidth_eq (signExtended ins.operands + _)]
          exact hnum
        rw [heq]
    | false =>
        rw [h32] at hnum
        exact hnum
  rw [h.1, hbytes, ← hdisp] at hlow
  refine setWidth_distance_ne hread hreads ?_ ?_ (by omega) hlow
  · split_ifs at hlen <;> omega
  · split_ifs at hlen <;> omega

/-- **One branch.** -/
theorem renders_distance_iff {x : Dec Unit} {n : Nat} (hlies : Lies mmu addr ins.bytes)
    (hn : ins.prefixes.length < n) (m0 : Mnem) (hx : Handles ins x) (hw : BranchWidths ins k)
    (hb : ∀ m, Inside addr ins (fieldsAt ins) m → BranchAt mmu x m (fieldsAt ins) k) :
    Renders mmu addr n m0 (HasDistance addr ins) ↔ k = ins.operands.length := by
  obtain ⟨m, hm, -, hrun⟩ := mnemDecode_handler hlies hn m0 hx
  have hpos : 0 < ins.operands.length := by
    rw [hw.length]
    split_ifs <;> decide
  have hreads : Reads mmu m.eip ins.operands := (hm.here hlies).lies.reads hpos
  by_cases hex : ∃ disp, disp.length = k ∧ Reads mmu m.eip disp
  · obtain ⟨disp, hdisp, hread⟩ := hex
    obtain ⟨mn, t, hemits, hmn, ht, hd⟩ := (hb m hm).emits disp hdisp hread
    rw [renders_iff hrun hm hemits (by simp), hasDistance_iff hmn ht]
    by_cases hk : k = ins.operands.length
    · obtain rfl := hread.unique hreads (hdisp.trans hk)
      exact iff_of_true (hd.right hw hk) hk
    · exact iff_of_false (hd.wrong hw hdisp hread hreads hk) hk
  · have hno : ∀ disp, disp.length = k → ¬ Reads mmu m.eip disp := fun disp h hr => hex ⟨disp, h, hr⟩
    obtain ⟨toks, hruns, hshort, hfilter⟩ := (hb m hm).fails hno
    refine iff_of_false (fun h => ?_) fun hk => hex ⟨ins.operands, hk.symm, hreads⟩
    obtain ⟨t, ht, -⟩ := h.of_runs hrun hm hruns (by omega)
    rw [List.filter_append, lockTokens_filter, hfilter] at ht
    cases ht

/-- The relative branches that a `switch` has a case for. -/
def IsBranch (ins : Instruction) : Prop :=
  if ins.escape then 0x80 ≤ ins.opcode.toNat ∧ ins.opcode.toNat ≤ 0x8F
  else 0x70 ≤ ins.opcode.toNat ∧ ins.opcode.toNat ≤ 0x7F ∨
    0xE0 ≤ ins.opcode.toNat ∧ ins.opcode.toNat ≤ 0xE3 ∨
      ins.opcode.toNat = 0xE8 ∨ ins.opcode.toNat = 0xE9 ∨ ins.opcode.toNat = 0xEB

instance (ins : Instruction) : Decidable (IsBranch ins) :=
  inferInstanceAs (Decidable (ite _ _ _))

/-- When the decoder gets the target right: a word is what `jmp` takes, and the other near
branches go by what the prefixes have left of the operand size. -/
def BranchSized (ins : Instruction) : Prop :=
  if ins.escape = true ∨ ins.opcode.toNat = 0xE8 then toggledOp32 ins = ins.op32
  else ins.opcode.toNat = 0xE9 → ins.op32 = false

instance (ins : Instruction) : Decidable (BranchSized ins) :=
  inferInstanceAs (Decidable (ite _ _ _))

theorem form_long : ∀ op < 256, 0x80 ≤ op → op ≤ 0x8F → entry twoByteMap op = Iz := by
  decide +kernel

theorem form_short : ∀ op < 256, 0x70 ≤ op ∧ op ≤ 0x7F ∨ 0xE0 ≤ op ∧ op ≤ 0xE3 ∨ op = 0xEB →
    entry oneByteMap op = Ib := by decide +kernel

theorem operands_length_of_Iz (h : ins.form = Iz) :
    ins.operands.length = if ins.op32 then 4 else 2 := by
  rw [ins.operands_length_eq, Instruction.fields, h]
  exact Nat.add_zero _

theorem operands_length_of_Ib (h : ins.form = Ib) : ins.operands.length = 1 := by
  rw [ins.operands_length_eq, Instruction.fields, h]
  rfl

/-- A branch by the operand size. -/
theorem branchWidths_sized (h : ins.form = Iz) :
    BranchWidths ins (if toggledOp32 ins then 4 else 2) := by
  refine ⟨?_, ?_⟩
  · split_ifs <;> decide
  · rw [operands_length_of_Iz h]
    cases toggledOp32 ins <;> rfl

theorem sized_iff (h : ins.form = Iz) :
    (if toggledOp32 ins then 4 else 2) = ins.operands.length ↔ toggledOp32 ins = ins.op32 := by
  rw [operands_length_of_Iz h]
  cases toggledOp32 ins <;> cases ins.op32 <;> decide

/-- **Branch targets**: the number in the token is the distance of the target, if and only if the width of the
displacement is the one that the handler takes. -/
theorem mnemDecode_branch_iff (ins : Instruction) (hbranch : IsBranch ins) (mmu : Mmu) (addr : U32)
    (hlies : Lies mmu addr ins.bytes) (n : Nat) (hn : ins.prefixes.length < n) (m0 : Mnem) :
    Renders mmu addr n m0 (HasDistance addr ins) ↔ BranchSized ins := by
  have hlong := ins.length_bytes_le
  have hbytes := length_bytes_eq ins
  have hat : fieldsAt ins < 16 := by omega
  have hform := form_eq ins
  rw [IsBranch] at hbranch
  rw [BranchSized]
  cases he : ins.escape with
  | true =>
      rw [he, if_pos rfl] at hbranch hform
      rw [form_long _ ins.opcode.isLt hbranch.1 hbranch.2] at hform
      have hx : Handles ins jccLong :=
        handles_of_mem0f he 0x80 0x8F jccLong (by simp [opcodes0f]) hbranch.1 hbranch.2
      rw [renders_distance_iff hlies hn m0 hx (branchWidths_sized hform) fun m hm =>
        hm.sizeV ▸ branchAt_jccLong hm.counter hat, sized_iff hform, if_pos (Or.inl rfl)]
  | false =>
      rw [he, if_neg Bool.false_ne_true] at hbranch hform
      have hshort : ∀ x, entry oneByteMap ins.opcode.toNat = Ib → Handles ins x →
          (∀ m, Inside addr ins (fieldsAt ins) m → BranchAt mmu x m (fieldsAt ins) 1) →
            Renders mmu addr n m0 (HasDistance addr ins) := by
        intro x hIb hx hb
        have hone := operands_length_of_Ib (hform.trans hIb)
        exact (renders_distance_iff hlies hn m0 hx ⟨Or.inl rfl, hone⟩ hb).mpr hone.symm
      by_cases h8 : ins.opcode.toNat = 0xE8
      · rw [h8] at hform
        have hx : Handles ins callIntraDirect :=
          handles_of_mem he 0xE8 0xE8 callIntraDirect (by simp [opcodes]) h8.ge h8.le
        rw [renders_distance_iff hlies hn m0 hx (branchWidths_sized hform) fun m hm =>
          hm.sizeV ▸ branchAt_callIntraDirect hm.counter hat, sized_iff hform, if_pos (Or.inr h8)]
      rw [if_neg (by simp [h8])]
      by_cases h9 : ins.opcode.toNat = 0xE9
      · rw [h9] at hform
        have hx : Handles ins jmpIntraDirect :=
          handles_of_mem he 0xE9 0xE9 jmpIntraDirect (by simp [opcodes]) h9.ge h9.le
        have hlen := operands_length_of_Iz hform
        rw [renders_distance_iff hlies hn m0 hx ⟨Or.inr (Or.inl rfl), hlen⟩ fun m hm =>
          branchAt_jmpIntraDirect hm.counter, hlen]
        cases ins.op32 <;> simp [h9]
      · refine iff_of_true ?_ fun h => absurd h h9
        rcases hbranch with h | ⟨hlo, hhi⟩ | h | h | h
        · exact hshort jccShort (form_short _ ins.opcode.isLt (Or.inl h))
            (handles_of_mem he 0x70 0x7F jccShort (by simp [opcodes]) h.1 h.2)
            fun m hm => branchAt_jccShort hm.counter hat
        · have hIb := form_short _ ins.opcode.isLt (Or.inr (Or.inl ⟨hlo, hhi⟩))
          have hloop : ∀ text, Handles ins (opcodeLoop text) →
              Renders mmu addr n m0 (HasDistance addr ins) := fun text hx =>
            hshort _ hIb hx fun m hm => branchAt_opcodeLoop text hm.counter hat
          obtain h | h | h | h : ins.opcode.toNat = 0xE0 ∨ ins.opcode.toNat = 0xE1 ∨
              ins.opcode.toNat = 0xE2 ∨ ins.opcode.toNat = 0xE3 := by omega
          · exact hloop (name "loopne") (handles_of_mem he 0xE0 0xE0 loopnz (by simp [opcodes]) h.ge h.le)
          · exact hloop (name "loope") (handles_of_mem he 0xE1 0xE1 loopz (by simp [opcodes]) h.ge h.le)
          · exact hloop (name "loop") (handles_of_mem he 0xE2 0xE2 loop (by simp [opcodes]) h.ge h.le)
          · exact hloop (name "jcxz") (handles_of_mem he 0xE3 0xE3 jcxz (by simp [opcodes]) h.ge h.le)
        · exact absurd h h8
        · exact absurd h h9
        · exact hshort jmpIntraDirectShort (form_short _ ins.opcode.isLt (Or.inr (Or.inr h)))
            (handles_of_mem he 0xEB 0xEB jmpIntraDirectShort (by simp [opcodes]) h.ge h.le)
            fun m hm => branchAt_jmpIntraDirectShort hm.counter hat

theorem encodes_jzBack : Encodes [] true 0x84 [0xFA, 0xFF, 0xFF, 0xFF] := by decide

/-- `jz $`, the long form. -/
def jzBack : Instruction := encodes_jzBack.instruction

theorem mnemDecode_branch_jzBack :
    Renders (codeMmu [0xFFFA840F, 0x0000FFFF]) 0x1000 15 (Mnem.zero .empty)
      (HasDistance 0x1000 jzBack) :=
  (mnemDecode_branch_iff jzBack (by decide) _ _ (by decide +kernel) 15 (by decide) _).mpr (by decide)

theorem encodes_jmpNext : Encodes [] false 0xE9 [0, 0, 0, 0] := by decide

/-- A `jmp` to what follows it. -/
def jmpNext : Instruction := encodes_jmpNext.instruction

/-- Five bytes, and the distance is given as 3. -/
theorem mnemDecode_jmp_distance : IsBranch jmpNext ∧ Lies (codeMmu [0xE9]) 0x1000 jmpNext.bytes ∧
    ¬ Renders (codeMmu [0xE9]) 0x1000 15 (Mnem.zero .empty) (HasDistance 0x1000 jmpNext) := by
  have hrun : (mnemDecode 15 (codeMmu [0xE9]) 0x1000 (Mnem.zero .empty)).map
      (fun r => (r.2.line.tokens.filter isTarget).map Token.number) = some [3] := by decide +kernel
  refine ⟨by decide, by decide +kernel, ?_⟩
  rintro ⟨r, m, hm, t, ht, hnum⟩
  rw [hm, Option.map_some, ht] at hrun
  have h3 : t.number = 3 := by simpa using hrun
  rw [h3] at hnum
  exact absurd hnum (by decide)

end Tomk.Disasm
