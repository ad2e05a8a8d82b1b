/-
# A run over an instruction in memory

The bytes of an instruction lie at an address, all of them mapped.  The decoder goes
over the prefixes one by one (`prefix_step`, `prefixes_run`), and is then at the opcode with the
two sizes toggled once for each size prefix (`AtOpcode`), where the table of plans takes over.
What it fetches there ends where the instruction ends, or it does not; `EndsAt` is the
arithmetic of this, and `decode_counter_iff` puts the two together.
-/
import Tomk.Disasm.PlanTables

namespace Tomk.Disasm

open Early I386

/-! ## Instructions in memory -/

/-- The bytes lie at `addr`, and are mapped. -/
def Lies (mmu : Mmu) (addr : U32) (bytes : List U8) : Prop :=
  ∀ i (h : i < bytes.length), Mapped mmu (addr + BitVec.ofNat 32 i) ∧
    loadByte (addr + BitVec.ofNat 32 i) mmu = some bytes[i]

instance (mmu : Mmu) (addr : U32) (bytes : List U8) : Decidable (Lies mmu addr bytes) :=
  inferInstanceAs (Decidable (∀ i (_ : i < bytes.length), _))

variable {mmu : Mmu} {addr : U32} {m : Mnem} {α : Type}

/-- The address of byte `i` of the code at `addr`, by a counter of 16 bits. -/
def codeAddr (addr : U32) (i : Nat) : U32 := addr + (BitVec.ofNat 16 i).setWidth 32

theorem codeAddr_eq {i : Nat} (hi : i < 2 ^ 16) : codeAddr addr i = addr + BitVec.ofNat 32 i := by
  rw [codeAddr]
  congr 1
  apply BitVec.eq_of_toNat_eq
  rw [BitVec.toNat_setWidth, BitVec.toNat_ofNat, BitVec.toNat_ofNat]
  omega

/-- A fetch of byte `i` succeeds, with `b`. -/
structure CodeByte (mmu : Mmu) (addr : U32) (i : Nat) (b : U8) : Prop where
  mapped : Mapped mmu (codeAddr addr i)
  load : loadByte (codeAddr addr i) mmu = some b

theorem eip_eq_codeAddr {n : Nat} (ho : m.offset = addr) (hc : m.counter = BitVec.ofNat 16 n) :
    m.eip = codeAddr addr n := by
  rw [Mnem.eip, ho, hc]
  rfl

theorem eip_eq {n : Nat} (ho : m.offset = addr) (hc : m.counter = BitVec.ofNat 16 n)
    (hn : n < 2 ^ 16) : m.eip = addr + BitVec.ofNat 32 n :=
  (eip_eq_codeAddr ho hc).trans (codeAddr_eq hn)

theorem fetchOpcode_run {b : U8} (hmap : Mapped mmu m.eip) (hload : loadByte m.eip mmu = some b) :
    fetchOpcode mmu m = some (some (), { m with counter := m.counter + 1, opcode := b }) := by
  obtain ⟨phys, hphys, h0⟩ := hmap
  rw [fetchOpcode, bind_run, fetchByte, fetch_run, hphys, Option.bind_some, if_neg h0, hload]
  rfl

theorem nextOpcode_run {b : U8} (hmap : Mapped mmu m.eip) (hload : loadByte m.eip mmu = some b) :
    nextOpcode mmu m
      = some (some .reqCycle, { m with counter := m.counter + 1, opcode := b }) := by
  rw [nextOpcode, bind_run, returned, fetchOpcode_run hmap hload]
  rfl

/-! ## Prefixes -/

/-- The opcodes that go round the loop: the prefixes, and a second one for `lock`. -/
def loopBytes : List U8 := 0xF1 :: prefixBytes

theorem loopBytes_of_prefixBytes {l : List U8} (h : ∀ b ∈ l, b ∈ prefixBytes) :
    ∀ b ∈ l, b ∈ loopBytes :=
  fun b hb => List.mem_cons_of_mem _ (h b hb)

def RenderLine.addAll (line : RenderLine) (toks : List Token) : RenderLine :=
  toks.foldl RenderLine.add line

theorem RenderLine.addAll_append (line : RenderLine) (toks toks' : List Token) :
    line.addAll (toks ++ toks') = (line.addAll toks).addAll toks' := List.foldl_append

theorem named_lock : Named (chars "lock") := by decide

def lockToken : Token := ⟨.instrPrefix, some (name "lock" named_lock), 0, 0⟩

def isLock (b : U8) : Bool := b = 0xF0 || b = 0xF1

/-- What the prefixes leave in the line. -/
def lockTokens (l : List U8) : List Token := List.replicate (l.countP isLock) lockToken

theorem lockTokens_concat (l : List U8) (b : U8) :
    lockTokens (l ++ [b]) = lockTokens l ++ if isLock b then [lockToken] else [] := by
  rw [lockTokens, List.countP_append, List.countP_singleton, lockTokens]
  cases isLock b with
  | true => exact List.replicate_succ'
  | false => exact (List.append_nil _).symm

theorem mem_lockTokens {l : List U8} {t : Token} (h : t ∈ lockTokens l) : t = lockToken :=
  List.eq_of_mem_replicate h

theorem length_lockTokens_le (l : List U8) : (lockTokens l).length ≤ l.length := by
  rw [lockTokens, List.length_replicate]
  exact List.countP_le_length

/-- A size after the prefixes `l`, which toggle it: 1 for 32 bits. -/
def toggled (b : Byte) (l : List Byte) : U8 := if l.count b % 2 = 0 then 1 else 0

theorem toggled_concat (b c : Byte) (l : List Byte) :
    toggled b (l ++ [c]) = if c = b then toggled b l ^^^ 1 else toggled b l := by
  rw [toggled, toggled, List.count_append, List.count_singleton]
  by_cases hc : c = b
  · rw [if_pos hc, beq_iff_eq.mpr hc]
    by_cases h : l.count b % 2 = 0
    · rw [if_pos h, if_neg (by simp only [if_true]; omega)]
      rfl
    · rw [if_neg h, if_pos (by simp only [if_true]; omega)]
      rfl
  · rw [if_neg hc, beq_eq_false_iff_ne.mpr hc]
    simp only [Bool.false_eq_true, if_false, Nat.add_zero]

/-- The decoder has gone over the prefixes `l`, and has fetched `b` behind them. -/
structure AtOpcode (addr : U32) (l : List U8) (b : U8) (m : Mnem) : Prop where
  offset : m.offset = addr
  counter : m.counter = BitVec.ofNat 16 (l.length + 1)
  opcode : m.opcode = b
  modrm : m.modrm = 0
  operandSize : m.operandSize = toggled operandSizePrefix l
  addressingSize : m.addressingSize = toggled addressSizePrefix l
  line : m.line = RenderLine.empty.addAll (lockTokens l)

/-- What a prefix does before the fetch of the next opcode. -/
structure PrefixKeeps (b : U8) (m m' : Mnem) : Prop where
  offset : m'.offset = m.offset
  counter : m'.counter = m.counter
  modrm : m'.modrm = m.modrm
  operandSize : m'.operandSize = if b = operandSizePrefix then m.operandSize ^^^ 1 else m.operandSize
  addressingSize : m'.addressingSize
    = if b = addressSizePrefix then m.addressingSize ^^^ 1 else m.addressingSize
  line : m'.line = m.line.addAll (if isLock b then [lockToken] else [])

set_option maxRecDepth 2000 in
/-- The handler of a prefix changes the decoder and goes on to the next opcode. -/
theorem prefix_handler {b : U8} (hb : b ∈ loopBytes) (mmu : Mmu) (m : Mnem) (hm : m.opcode = b) :
    ∃ m', PrefixKeeps b m m' ∧ decodeOpcode mmu m = nextOpcode mmu m' := by
  have hrun : decodeOpcode mmu m = switch b.toNat (pure .ok) opcodes mmu m := by rw [← hm]; rfl
  rw [hrun]
  simp only [loopBytes, prefixBytes, List.mem_cons, List.not_mem_nil, or_false] at hb
  rcases hb with rfl | rfl | rfl | rfl | rfl | rfl | rfl | rfl | rfl | rfl | rfl | rfl
  · exact ⟨{ m with line := m.line.add lockToken }, ⟨rfl, rfl, rfl, rfl, rfl, rfl⟩, rfl⟩
  iterate 4 exact ⟨{ m with segmentPrefix := (m.opcode >>> 3) &&& 0x3 }, ⟨rfl, rfl, rfl, rfl, rfl, rfl⟩, rfl⟩
  iterate 2 exact ⟨{ m with segmentPrefix := m.opcode &&& 0x7 }, ⟨rfl, rfl, rfl, rfl, rfl, rfl⟩, rfl⟩
  · exact ⟨{ m with operandSize := m.operandSize ^^^ 1 }, ⟨rfl, rfl, rfl, rfl, rfl, rfl⟩, rfl⟩
  · exact ⟨{ m with addressingSize := m.addressingSize ^^^ 1 }, ⟨rfl, rfl, rfl, rfl, rfl, rfl⟩, rfl⟩
  · exact ⟨{ m with line := m.line.add lockToken }, ⟨rfl, rfl, rfl, rfl, rfl, rfl⟩, rfl⟩
  iterate 2 exact ⟨{ m with
    internalFlags := ((m.internalFlags ||| 0x2) &&& ~~~0x1) ||| (m.opcode &&& 0x1) },
      ⟨rfl, rfl, rfl, rfl, rfl, rfl⟩, rfl⟩

/-- **One prefix.** -/
theorem prefix_step {l : List U8} {b b' : U8} (hb : b ∈ loopBytes) (h : AtOpcode addr l b m)
    (hnext : CodeByte mmu addr (l.length + 1) b') :
    ∃ m', AtOpcode addr (l ++ [b]) b' m' ∧ decodeOpcode mmu m = some (some .reqCycle, m') := by
  obtain ⟨m', hkeeps, hrun⟩ := prefix_handler hb mmu m h.opcode
  have heip : m'.eip = codeAddr addr (l.length + 1) :=
    eip_eq_codeAddr (hkeeps.offset.trans h.offset) (hkeeps.counter.trans h.counter)
  refine ⟨_, ?_, hrun.trans (nextOpcode_run (heip ▸ hnext.mapped) (heip ▸ hnext.load))⟩
  refine ⟨hkeeps.offset.trans h.offset, ?_, rfl, hkeeps.modrm.trans h.modrm, ?_, ?_, ?_⟩
  · show m'.counter + 1 = _
    rw [hkeeps.counter, h.counter, List.length_append, List.length_singleton]
    exact (BitVec.ofNat_add ..).symm
  · show m'.operandSize = _
    rw [hkeeps.operandSize, h.operandSize, toggled_concat]
  · show m'.addressingSize = _
    rw [hkeeps.addressingSize, h.addressingSize, toggled_concat]
  · show m'.line = _
    rw [hkeeps.line, h.line, lockTokens_concat, RenderLine.addAll_append]

/-- **A run of prefixes**, each in a turn of the loop. -/
theorem prefixes_run {rest : List U8} {b : U8} (hrest : ∀ c ∈ rest, c ∈ loopBytes) (n : Nat)
    {l : List U8} {m : Mnem} (hm : AtOpcode addr l ((rest ++ [b]).getD 0 0) m)
    (hl : l.length + rest.length + 1 < 2 ^ 16) (hlies : ∀ i (h : i < (rest ++ [b]).length),
      Mapped mmu (addr + BitVec.ofNat 32 (l.length + i)) ∧
        loadByte (addr + BitVec.ofNat 32 (l.length + i)) mmu = some (rest ++ [b])[i]) :
    ∃ m', AtOpcode addr (l ++ rest) b m' ∧
      decodeInstruction (rest.length + n) mmu m = decodeInstruction n mmu m' := by
  induction rest generalizing l m with
  | nil => exact ⟨m, (List.append_nil l).symm ▸ hm, by rw [List.length_nil, Nat.zero_add]⟩
  | cons c rest ih =>
      rw [List.length_cons] at hl
      have hnext : ∃ b', b' = (rest ++ [b]).getD 0 0 ∧ CodeByte mmu addr (l.length + 1) b' := by
        have h1 := hlies 1 (by simp)
        rw [← codeAddr_eq (by omega)] at h1
        refine ⟨_, ?_, h1.1, h1.2⟩
        simp only [List.cons_append, List.getElem_cons_succ]
        exact (List.getD_eq_getElem _ _ _).symm
      obtain ⟨b', rfl, hnext⟩ := hnext
      obtain ⟨m1, h1, hstep⟩ := prefix_step (hrest c List.mem_cons_self) hm hnext
      obtain ⟨m', hm', hrun⟩ := ih (fun c h => hrest c (List.mem_cons_of_mem _ h)) h1
        (by rw [List.length_append, List.length_singleton]; omega) (fun i hi => by
          have h := hlies (i + 1) (by simpa using hi)
          rw [List.length_append, List.length_singleton, Nat.add_assoc, Nat.add_comm 1 i]
          simpa using h)
      refine ⟨m', List.append_cons l c rest ▸ hm', ?_⟩
      rw [List.length_cons, Nat.add_right_comm, decodeInstruction, hstep]
      exact hrun

/-! ## The opcode -/

/-- The plan of an opcode, behind the escape byte or not. -/
def plan (escape : Bool) (opcode : U8) : Plan :=
  if escape then switch opcode.toNat planNone plans0f
  else switch opcode.toNat planNone (plans opcode)

/-- The last turn of the loop. -/
theorem decodeInstruction_counter {p : List Nat} (n : Nat)
    (h : Ends decodeOpcode mmu m (advance mmu m.offset p m.counter = none) fun r m' =>
      r = some .ok ∧ advance mmu m.offset p m.counter = some m'.counter) :
    (decodeInstruction (n + 1) mmu m).map (·.2.counter) = advance mmu m.offset p m.counter := by
  rw [Ends] at h
  rw [decodeInstruction]
  cases hrun : decodeOpcode mmu m with
  | none =>
      rw [hrun] at h
      exact h.symm
  | some r =>
      obtain ⟨r, m'⟩ := r
      rw [hrun] at h
      obtain ⟨rfl, h⟩ := h
      exact h.symm

theorem decodeOpcode_ends (mmu : Mmu) (m : Mnem) (hop : m.opcode.toNat ∉ fetchesOpcode) :
    Ends decodeOpcode mmu m
      (advance mmu m.offset (m.fields mmu (plan false m.opcode)) m.counter = none) fun r m' =>
        r = some .ok ∧
          advance mmu m.offset (m.fields mmu (plan false m.opcode)) m.counter = some m'.counter :=
  ends_state_bind (opcodes_takes hop)

/-- Behind the escape byte the opcode is fetched as a field. -/
theorem takes_decodeOpcode0f {mmu : Mmu} {m m1 : Mnem} (hz : m.modrm = 0)
    (h1 : m1 = { m with counter := m.counter + 1, opcode := byteAt mmu m 0 }) :
    Takes mmu decodeOpcode0f m (1 :: m1.fields mmu (plan true m1.opcode)) := by
  rw [decodeOpcode0f, fetchOpcode, bind_assoc]
  refine takes_fetchByte_bind fun v hv => ?_
  rw [byteAt_of_load hv] at h1
  subst h1
  exact opcodes0f_takes (m := { m with counter := m.counter + 1, opcode := v }) hz

theorem decodeOpcode_escape (mmu : Mmu) (hm : m.opcode = escapeByte) :
    decodeOpcode mmu m = brk decodeOpcode0f mmu m := by
  show switch m.opcode.toNat (pure .ok) opcodes mmu m = _
  rw [hm]
  rfl

theorem decodeOpcode_escape_ends {mmu : Mmu} {m m1 : Mnem} (hm : m.opcode = escapeByte)
    (hz : m.modrm = 0)
    (h1 : m1 = { m with counter := m.counter + 1, opcode := byteAt mmu m 0 }) :
    Ends decodeOpcode mmu m
      (advance mmu m.offset (1 :: m1.fields mmu (plan true m1.opcode)) m.counter = none) fun r m' =>
        r = some .ok ∧
          advance mmu m.offset (1 :: m1.fields mmu (plan true m1.opcode)) m.counter
            = some m'.counter := by
  rw [Ends, decodeOpcode_escape mmu hm]
  exact ends_brk (takes_decodeOpcode0f hz h1)

/-! ## Where a row ends -/

/-- A row of fetches ends after `d` bytes: with its last fetch, or before a byte that is
not mapped (`stuck`). -/
def EndsAt (stuck : Prop) : List Nat → Nat → Prop
  | [], d => d = 0
  | k :: p, d => d = 0 ∧ stuck ∨ k ≤ d ∧ EndsAt stuck p (d - k)

variable {p : List Nat} {c n d : Nat} {stuck : Prop}

theorem endsAt_of_sum_eq (h : p.sum = d) : EndsAt stuck p d := by
  induction p generalizing d with
  | nil => exact h.symm
  | cons k p ih =>
      rw [List.sum_cons] at h
      exact Or.inr ⟨by omega, ih (by omega)⟩

theorem EndsAt.le_sum (h : EndsAt stuck p d) : d ≤ p.sum := by
  induction p generalizing d with
  | nil => exact Nat.le_of_eq h
  | cons k p ih =>
      rw [List.sum_cons]
      rcases h with ⟨rfl, _⟩ | ⟨hk, h⟩
      · exact Nat.zero_le _
      · have := ih h
        omega

/-- The counter does not go back. -/
theorem advance_ne (hn : n < c) (hsum : c + p.sum < 2 ^ 16) :
    advance mmu addr p (BitVec.ofNat 16 c) ≠ some (BitVec.ofNat 16 n) := by
  have hne : ∀ {c : Nat}, n < c → c < 2 ^ 16 → some (BitVec.ofNat 16 c) ≠ some (BitVec.ofNat 16 n) := by
    intro c hn hc heq
    have h := congrArg BitVec.toNat (Option.some.inj heq)
    simp only [BitVec.toNat_ofNat] at h
    omega
  induction p generalizing c with
  | nil => exact hne hn (by simpa using hsum)
  | cons k p ih =>
      rw [List.sum_cons] at hsum
      rw [advance]
      cases pgVirt2phys mmu (addr + (BitVec.ofNat 16 c).setWidth 32) with
      | none => exact Option.some_ne_none _ ∘ Eq.symm
      | some phys =>
          rw [Option.bind_some, ← BitVec.ofNat_add]
          split
          · exact hne hn (by omega)
          · split
            · exact ih (by omega) (by omega)
            · exact Option.some_ne_none _ ∘ Eq.symm

/-- **Where a row of fetches leaves the counter**, with the bytes below `n` mapped. -/
theorem advance_eq_some_iff (hpos : ∀ k ∈ p, 0 < k) (hcn : c ≤ n) (hn : n < 2 ^ 16)
    (hsum : c + p.sum < 2 ^ 16) (hlies : ∀ i < n, Mapped mmu (addr + BitVec.ofNat 32 i) ∧
      (loadByte (addr + BitVec.ofNat 32 i) mmu).isSome) :
    advance mmu addr p (BitVec.ofNat 16 c) = some (BitVec.ofNat 16 n)
      ↔ EndsAt (Stuck mmu addr (BitVec.ofNat 16 n)) p (n - c) := by
  have hwidth : ∀ {c : Nat}, c < 2 ^ 16 → (BitVec.ofNat 16 c).setWidth 32 = BitVec.ofNat 32 c := by
    intro c hc
    apply BitVec.eq_of_toNat_eq
    rw [BitVec.toNat_setWidth, BitVec.toNat_ofNat, BitVec.toNat_ofNat]
    omega
  induction p generalizing c with
  | nil =>
      rw [advance, EndsAt, Option.some.injEq]
      constructor
      · intro heq
        have h := congrArg BitVec.toNat heq
        simp only [BitVec.toNat_ofNat] at h
        omega
      · intro h
        rw [show c = n by omega]
  | cons k p ih =>
      rw [List.sum_cons] at hsum
      have hk := hpos k List.mem_cons_self
      rw [advance, EndsAt, ← BitVec.ofNat_add]
      rcases Nat.lt_or_eq_of_le hcn with hlt | rfl
      · -- the fetch starts inside
        obtain ⟨⟨phys, hphys, h0⟩, -⟩ := hlies c hlt
        rw [hwidth (by omega), hphys, Option.bind_some, if_neg h0]
        by_cases hkn : k ≤ n - c
        · have hread : Readable mmu (addr + BitVec.ofNat 32 c) k := by
            intro i hi
            rw [BitVec.add_assoc, ← BitVec.ofNat_add]
            exact (hlies (c + i) (by omega)).2
          have hnext := ih (c := c + k) (fun k h => hpos k (List.mem_cons_of_mem _ h)) (by omega)
            (by omega)
          rw [if_pos hread]
          refine hnext.trans ?_
          rw [Nat.sub_sub]
          constructor
          · exact fun h => Or.inr ⟨hkn, h⟩
          · rintro (⟨h, _⟩ | ⟨_, h⟩)
            · omega
            · exact h
        · refine iff_of_false ?_ (by rintro (⟨h, _⟩ | ⟨h, _⟩) <;> omega)
          split
          · exact advance_ne (by omega) (by omega)
          · exact Option.some_ne_none _ ∘ Eq.symm
      · -- the fetch starts behind the last byte
        have hstuck : Stuck mmu addr (BitVec.ofNat 16 c)
            ↔ (c - c = 0 ∧ Stuck mmu addr (BitVec.ofNat 16 c)
              ∨ k ≤ c - c ∧ EndsAt (Stuck mmu addr (BitVec.ofNat 16 c)) p (c - c - k)) :=
          ⟨fun h => Or.inl ⟨Nat.sub_self c, h⟩, fun h => by
            rcases h with ⟨_, h⟩ | ⟨h, _⟩
            · exact h
            · omega⟩
        rw [← hstuck, Stuck]
        cases pgVirt2phys mmu (addr + (BitVec.ofNat 16 c).setWidth 32) with
        | none =>
            exact iff_of_false (Option.some_ne_none _ ∘ Eq.symm) (Option.some_ne_none _ ∘ Eq.symm)
        | some phys =>
            rw [Option.bind_some]
            by_cases h0 : phys = 0
            · rw [if_pos h0]
              exact iff_of_true rfl (congrArg some h0)
            · rw [if_neg h0]
              refine iff_of_false ?_ fun h => h0 (Option.some.inj h)
              split
              · exact advance_ne (by omega) (by omega)
              · exact Option.some_ne_none _ ∘ Eq.symm

/-! ## The rows of the plans -/

theorem imm_fields_pos (op32 addr32 : Bool) (i : Imm) : ∀ k ∈ i.fields op32 addr32, 0 < k := by
  cases op32 <;> cases addr32 <;> cases i <;> decide

theorem imm_fields_sum (op32 addr32 : Bool) (i : Imm) : (i.fields op32 addr32).sum ≤ 6 := by
  cases op32 <;> cases addr32 <;> cases i <;> decide

theorem sibFields_cases (addr32 : Bool) (modrm : Byte) :
    sibFields addr32 modrm = [] ∨ sibFields addr32 modrm = [1] := by
  rw [sibFields]
  split
  · exact Or.inr rfl
  · exact Or.inl rfl

theorem dispFields_cases (addr32 : Bool) (modrm sib : Byte) :
    dispFields addr32 modrm sib = [] ∨ ∃ k, 0 < k ∧ k ≤ 4 ∧ dispFields addr32 modrm sib = [k] := by
  rw [dispFields]
  cases addr32
  all_goals
    simp only [if_true, Bool.false_eq_true, if_false]
    split_ifs
    all_goals first
      | exact Or.inl rfl
      | exact Or.inr ⟨_, by decide, by decide, rfl⟩

theorem plan_fields_pos (op32 addr32 : Bool) (modrm sib : Byte) (pl : Plan) :
    ∀ k ∈ pl.fields op32 addr32 modrm sib, 0 < k := by
  have hsib : ∀ k ∈ sibFields addr32 modrm, 0 < k := by
    rcases sibFields_cases addr32 modrm with h | h <;> rw [h] <;> decide
  have hdisp : ∀ k ∈ dispFields addr32 modrm sib, 0 < k := by
    rcases dispFields_cases addr32 modrm sib with h | ⟨j, hj, _, h⟩ <;> rw [h]
    · exact nofun
    · intro k hk
      obtain rfl := List.mem_singleton.mp hk
      exact hj
  have hite : ∀ b : Bool, ∀ k ∈ (if b then dispFields addr32 modrm sib else []), 0 < k := by
    intro b
    cases b
    · exact nofun
    · exact hdisp
  have himm := imm_fields_pos op32 addr32
  intro k hk
  cases pl with
  | imm i => exact himm i k hk
  | rm pre disp post =>
      rw [Plan.fields, List.mem_cons, List.mem_append, List.mem_append, List.mem_append] at hk
      rcases hk with rfl | hk | hk | hk | hk
      · exact Nat.one_pos
      · exact hsib k hk
      · exact himm _ k hk
      · exact hite _ k hk
      · exact himm _ k hk
  | group l =>
      rw [Plan.fields, List.mem_cons, List.mem_append, List.mem_append] at hk
      rcases hk with rfl | hk | hk | hk
      · exact Nat.one_pos
      · exact hsib k hk
      · exact himm _ k hk
      · exact hite _ k hk

theorem plan_fields_sum (op32 addr32 : Bool) (modrm sib : Byte) (pl : Plan) :
    (pl.fields op32 addr32 modrm sib).sum ≤ 18 := by
  have hsib : (sibFields addr32 modrm).sum ≤ 1 := by
    rcases sibFields_cases addr32 modrm with h | h <;> rw [h] <;> decide
  have hdisp : ∀ b : Bool, (if b then dispFields addr32 modrm sib else []).sum ≤ 4 := by
    intro b
    cases b
    · exact Nat.zero_le 4
    · rcases dispFields_cases addr32 modrm sib with h | ⟨j, _, hj, h⟩
      · rw [if_pos rfl, h]
        exact Nat.zero_le 4
      · rw [if_pos rfl, h]
        exact hj
  have himm := imm_fields_sum op32 addr32
  cases pl with
  | imm i => exact (himm i).trans (by omega)
  | rm pre disp post =>
      rw [Plan.fields, List.sum_cons, List.sum_append, List.sum_append, List.sum_append]
      have h1 := himm pre
      have h2 := himm post
      have h3 := hdisp disp
      omega
  | group l =>
      rw [Plan.fields, List.sum_cons, List.sum_append, List.sum_append]
      have h1 := himm (l.getD (mid3 modrm) (.none, false)).1
      have h2 := hdisp (l.getD (mid3 modrm) (.none, false)).2
      omega

end Tomk.Disasm
