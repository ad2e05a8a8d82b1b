/-
# What `i80386_mnem_get_tokens` returns

The status of a fetch goes no further than the handler that makes it: a case of the two
`switch`es ends in `break`, and `i80386_fetch` has no status at all.  A run that comes back returns non-zero
unless an opcode behind a prefix is not mapped.

What it prints is known from the handlers (`opcodes_voices`), so that the
memory decides whether a non-zero return means what it says
(`mnemGetTokens_returns_iff`): the first byte has to be mapped, and behind the prefixes all
that the handler fetches, and it has to be an opcode that prints something.
-/
import Tomk.Disasm.PrefixLoop

namespace Tomk.Disasm

open Early I386 Relation

variable {mmu : Mmu} {addr : U32} {m m' : Mnem} {l l' : List U8} {b b' : U8} {p : List Nat}

/-! ## The last turn -/

/-- The opcode at `b`, behind the prefixes `l`, has no case in a `switch`, and prints nothing. -/
def Silent (mmu : Mmu) (addr : U32) (l : List U8) (b : U8) : Prop :=
  let byte := fun i => memByte mmu (codeAddr addr (l.length + 1 + i))
  if b = escapeByte then hasCase (byte 0).toNat opcodes0f = false ∨
    mid3 (byte 1) ∈ silentRegs true (byte 0).toNat
  else mid3 (byte 0) ∈ silentRegs false b.toNat

theorem AtOpcode.byteAt (h : AtOpcode addr l b m) (i : Nat) :
    byteAt mmu m i = memByte mmu (codeAddr addr (l.length + 1 + i)) := by
  rw [Disasm.byteAt, memByte, h.offset, h.counter, ← BitVec.ofNat_add]
  rfl

theorem AtOpcode.silent_escape (h : AtOpcode addr l b m) (he : b = escapeByte) :
    Silent mmu addr l b ↔ hasCase (Disasm.byteAt mmu m 0).toNat opcodes0f = false ∨
      mid3 (Disasm.byteAt mmu m 1) ∈ silentRegs true (Disasm.byteAt mmu m 0).toNat := by
  rw [h.byteAt, h.byteAt]
  exact iff_of_eq (if_pos he)

theorem AtOpcode.silent_iff (h : AtOpcode addr l b m) (he : b ≠ escapeByte) :
    Silent mmu addr l b ↔ mid3 (Disasm.byteAt mmu m 0) ∈ silentRegs false m.opcode.toNat := by
  rw [h.byteAt, h.opcode]
  exact iff_of_eq (if_neg he)

/-- A handler called from a case: its fetches, and its line. -/
theorem ends_brk_voices {x : Dec Unit} {silent : Prop} (ht : Takes mmu x m p)
    (hv : Voices mmu x m silent) :
    Ends (brk x) mmu m (advance mmu m.offset p m.counter = none) fun r m' => r = some .ok ∧
      (Complete mmu m.offset p m.counter →
        (m'.line.tokens ≠ [] ↔ m.line.tokens ≠ [] ∨ ¬ silent)) := by
  have hcall : Ends (call x) mmu m (advance mmu m.offset p m.counter = none) fun r m' => r = some () ∧
      (Complete mmu m.offset p m.counter →
        (m'.line.tokens ≠ [] ↔ m.line.tokens ≠ [] ∨ ¬ silent)) :=
    (Ends.and ht hv).call fun r _ h => ⟨rfl, fun hc => h.2 fun hr => h.1.2.2 hr hc⟩
  exact hcall.bind (fun _ h => nomatch h.1) fun _ _ h => ends_pure _ ⟨rfl, h.2⟩

theorem voices_decodeOpcode0f (hz : m.modrm = 0) : Voices mmu decodeOpcode0f m
    (hasCase (byteAt mmu m 0).toNat opcodes0f = false ∨
      mid3 (byteAt mmu m 1) ∈ silentRegs true (byteAt mmu m 0).toNat) := by
  rw [Voices, decodeOpcode0f, fetchOpcode, bind_assoc]
  refine ends_fetchByte_bind (fun hr => absurd rfl hr) fun v hv => ?_
  rw [byteAt_of_load hv, ← byteAt_next mmu m v]
  exact opcodes0f_voices (m := { m with counter := m.counter + 1, opcode := v }) hz

/-- **The last turn** comes back with `I80386_DECODE_OK`, whatever its fetches have found. -/
theorem AtOpcode.last (h : AtOpcode addr l b m) (hb : b ∉ loopBytes) :
    Ends decodeOpcode mmu m
      (advance mmu addr (rowBehind mmu addr l b) (BitVec.ofNat 16 (l.length + 1)) = none)
      fun r m' => r = some .ok ∧
        (Complete mmu addr (rowBehind mmu addr l b) (BitVec.ofNat 16 (l.length + 1)) →
          (m'.line.tokens ≠ [] ↔ m.line.tokens ≠ [] ∨ ¬ Silent mmu addr l b)) := by
  have hbm : m.opcode ∉ loopBytes := h.opcode ▸ hb
  by_cases he : b = escapeByte
  · have hem : m.opcode = escapeByte := h.opcode.trans he
    rw [h.silent_escape he, ← h.row, ← h.counter, ← h.offset, row_of_escape hbm hem rfl, Ends,
      decodeOpcode_escape mmu hem]
    exact ends_brk_voices (takes_decodeOpcode0f h.modrm rfl) (voices_decodeOpcode0f h.modrm)
  · have hem : m.opcode ≠ escapeByte := fun heq => he (h.opcode.symm.trans heq)
    obtain ⟨x, hx, hfollows, hvoices⟩ := @opcodes_voices mmu _ (opcode_not_fetches hbm hem)
    have hrun : decodeOpcode mmu m = brk x mmu m := congrFun (congrFun hx mmu) m
    rw [h.silent_iff he, ← h.row, ← h.counter, ← h.offset, row_of_not_escape hbm hem, Ends, hrun]
    exact ends_brk_voices hfollows hvoices

/-! ## The line behind the prefixes -/

theorem RenderLine.grows_addAll (line : RenderLine) (toks : List Token) :
    line.Grows (line.addAll toks) := by
  induction toks generalizing line with
  | nil => exact .refl line
  | cons t toks ih => exact (line.grows_add t).trans (ih (line.add t))

theorem RenderLine.tokens_addAll_ne_nil (toks : List Token) :
    (RenderLine.empty.addAll toks).tokens ≠ [] ↔ toks ≠ [] := by
  cases toks with
  | nil => exact Iff.rfl
  | cons t toks =>
      refine iff_of_true ?_ (List.cons_ne_nil t toks)
      exact (grows_addAll _ toks).ne_nil (tokens_add_ne_nil _ t)

theorem AtOpcode.tokens_ne_nil (h : AtOpcode addr l b m) :
    m.line.tokens ≠ [] ↔ ∃ c ∈ l, isLock c = true := by
  rw [h.line, RenderLine.tokens_addAll_ne_nil, lockTokens, Ne, List.replicate_eq_nil_iff]
  exact Nat.pos_iff_ne_zero.symm.trans List.countP_pos_iff

/-! ## The run -/

theorem last_of_mnemGetTokens {n : Nat} {line line' : RenderLine}
    (h : mnemGetTokens n mmu addr line = some (true, line')) :
    ∃ r m m1 m2, fetchFirst addr mmu (Mnem.zero line) = some (r, m) ∧ Reached mmu m m1 ∧
      decodeOpcode mmu m1 = some (some .ok, m2) ∧ m2.line = line' := by
  obtain ⟨⟨r, m2⟩, hdecode, heq⟩ := Option.bind_eq_some_iff.mp h
  obtain ⟨rfl, rfl⟩ := Prod.mk.inj (Option.some.inj heq)
  obtain ⟨⟨r0, m⟩, hfirst, hdecode⟩ := Option.bind_eq_some_iff.mp hdecode
  obtain ⟨⟨s, m3⟩, hloop, heq⟩ := Option.bind_eq_some_iff.mp hdecode
  obtain ⟨hs, rfl⟩ := Prod.mk.inj (Option.some.inj heq)
  obtain rfl := of_decide_eq_true hs
  obtain ⟨-, m1, hreach, hlast⟩ := decodeInstruction_eq_some_iff.mp ⟨n, hloop⟩
  exact ⟨r0, m, m1, m3, hfirst, hreach, hlast, rfl⟩

/-- Memory has no more than one row of prefixes with another byte behind it. -/
theorem PrefixRow.unique (h : PrefixRow mmu addr l) (hb : CodeByte mmu addr l.length b)
    (hnot : b ∉ loopBytes) (h' : PrefixRow mmu addr l') (hb' : CodeByte mmu addr l'.length b')
    (hnot' : b' ∉ loopBytes) : l = l' ∧ b = b' := by
  have hle : ∀ {l l' : List U8} {b : U8}, CodeByte mmu addr l.length b → b ∉ loopBytes →
      PrefixRow mmu addr l' → l'.length ≤ l.length := by
    intro l l' b hb hnot h'
    by_contra hlt
    have hrow := h' l.length (by omega)
    exact hnot (hb.unique hrow.2 ▸ hrow.1)
  have hlen : l.length = l'.length := Nat.le_antisymm (hle hb' hnot' h) (hle hb hnot h')
  refine ⟨List.ext_getElem hlen fun i hi hi' => (h i hi).2.unique (h' i hi').2, ?_⟩
  exact hb.unique (hlen ▸ hb')

/-- A byte of the instruction cannot be fetched: one behind a row of prefixes, or one of those
that the handler of the opcode behind them fetches. -/
def FetchFails (mmu : Mmu) (addr : U32) : Prop :=
  (∃ l, PrefixRow mmu addr l ∧ Stuck mmu addr (BitVec.ofNat 16 l.length)) ∨
    ∃ l b, PrefixRow mmu addr l ∧ CodeByte mmu addr l.length b ∧ b ∉ loopBytes ∧
      ¬ Complete mmu addr (rowBehind mmu addr l b) (BitVec.ofNat 16 (l.length + 1))

/-- The first byte is mapped, and an opcode behind the prefixes has its fields mapped, if they
do not fault, and prints something. -/
structure FetchedAndSpoken (mmu : Mmu) (addr : U32) : Prop where
  first : ¬ Stuck mmu addr 0
  behind : ∀ l b, PrefixRow mmu addr l → CodeByte mmu addr l.length b → b ∉ loopBytes →
    advance mmu addr (rowBehind mmu addr l b) (BitVec.ofNat 16 (l.length + 1)) = none ∨
      Complete mmu addr (rowBehind mmu addr l b) (BitVec.ofNat 16 (l.length + 1)) ∧
        ((∃ c ∈ l, isLock c = true) ∨ ¬ Silent mmu addr l b)

/-- Of a complete instruction no fetch fails. -/
theorem Complete.not_fails (hc : Complete mmu addr (rowBehind mmu addr l b) (BitVec.ofNat 16 (l.length + 1)))
    (hrow : PrefixRow mmu addr l) (hb : CodeByte mmu addr l.length b) (hnot : b ∉ loopBytes) :
    ¬ FetchFails mmu addr := by
  rintro (⟨l', hrow', hstuck⟩ | ⟨l', b', hrow', hb', hnot', hc'⟩)
  · rcases Nat.lt_trichotomy l'.length l.length with hlt | heq | hlt
    · exact hstuck.not_mapped (hrow l'.length hlt).2.mapped
    · rw [heq] at hstuck
      exact hstuck.not_mapped hb.mapped
    · -- the byte behind the prefixes would be one of them
      have hbyte := hrow' l.length hlt
      exact hnot (hb.unique hbyte.2 ▸ hbyte.1)
  · obtain ⟨rfl, rfl⟩ := hrow.unique hb hnot hrow' hb' hnot'
    exact hc' hc

/-- A non-zero return has a complete instruction and a token behind it. -/
theorem FetchedAndSpoken.fetched (h : FetchedAndSpoken mmu addr) {n : Nat} {line line' : RenderLine}
    (hrun : mnemGetTokens n mmu addr line = some (true, line')) :
    (∃ l b, PrefixRow mmu addr l ∧ CodeByte mmu addr l.length b ∧ b ∉ loopBytes ∧
      Complete mmu addr (rowBehind mmu addr l b) (BitVec.ofNat 16 (l.length + 1))) ∧
        line'.tokens ≠ [] := by
  obtain ⟨r, m, m1, m2, hfirst, hreach, hlast, rfl⟩ := last_of_mnemGetTokens hrun
  obtain ⟨b0, hb0, hat⟩ | ⟨hstuck, -⟩ := fetchFirst_cases hfirst
  · obtain ⟨l, b, hrow, hb, hat1⟩ := hat.reached hb0 hreach
    have hturn := decodeOpcode_row mmu hat1.modrm
    rw [Ends, hlast, hat1.row, hat1.offset, hat1.counter, hat1.opcode] at hturn
    have hnot : b ∉ loopBytes := hturn.1.mp rfl
    have hends := @AtOpcode.last mmu _ _ _ _ hat1 hnot
    rw [Ends, hlast] at hends
    obtain hnone | ⟨hcomplete, hspoken⟩ := h.behind l b hrow hb hnot
    · exact absurd (hnone.symm.trans hturn.2) (Option.some_ne_none _).symm
    · refine ⟨⟨l, b, hrow, hb, hnot, hcomplete⟩, (hends.2 hcomplete).mpr ?_⟩
      rwa [hat1.tokens_ne_nil]
  · exact absurd hstuck h.first

end Tomk.Disasm
