/-
# What a handler adds to the line

Where the bytes that it fetches can be read (`Reads`), a handler cannot
return early, and its run is an equation: the counter moves on by so many bytes, so many
tokens are added, and a value is returned (`Emits`).  The tokens are given as a list,
whatever was in the line before.  The equations compose along `>>=`, so that
what a handler adds can be read off its definition.

A fetch of bytes that cannot be read faults, or returns early; of both `Runs` says what
is in the line unless there was a fault.  For each fetch, one or the other is the case
(`FetchesAt`).
-/
import Tomk.Disasm.Length

namespace Tomk.Disasm

open Early I386

variable {mmu : Mmu} {m : Mnem} {α β : Type} {k j : Nat} {toks toks' : List Token}

/-! ## Bytes at the counter -/

/-- What a fetch at `va` finds: `pg_virt2phys` is asked about the first byte alone. -/
structure Reads (mmu : Mmu) (va : U32) (bytes : List U8) : Prop where
  mapped : Mapped mmu va
  load : ∀ i (h : i < bytes.length), loadByte (va + BitVec.ofNat 32 i) mmu = some bytes[i]

instance (mmu : Mmu) (va : U32) (bytes : List U8) : Decidable (Reads mmu va bytes) :=
  decidable_of_iff (Mapped mmu va ∧ ∀ i (h : i < bytes.length),
      loadByte (va + BitVec.ofNat 32 i) mmu = some bytes[i])
    ⟨fun h => ⟨h.1, h.2⟩, fun h => ⟨h.1, h.2⟩⟩

theorem Reads.unique {va : U32} {bytes bytes' : List U8} (h : Reads mmu va bytes)
    (h' : Reads mmu va bytes') (hlen : bytes.length = bytes'.length) : bytes = bytes' := by
  refine List.ext_getElem hlen fun i hi hi' => ?_
  exact Option.some.inj ((h.load i hi).symm.trans (h'.load i hi'))

theorem Lies.left {va : U32} {bytes rest : List U8} (h : Lies mmu va (bytes ++ rest)) :
    Lies mmu va bytes := fun i hi => by
  have hi' := h i (by rw [List.length_append]; omega)
  rwa [List.getElem_append_left hi] at hi'

theorem Lies.right {va : U32} {bytes rest : List U8} (h : Lies mmu va (bytes ++ rest)) :
    Lies mmu (va + BitVec.ofNat 32 bytes.length) rest := fun i hi => by
  have hi' := h (bytes.length + i) (by rw [List.length_append]; omega)
  rw [List.getElem_append_right (by omega)] at hi'
  rw [BitVec.add_assoc, ← BitVec.ofNat_add]
  simpa using hi'

theorem Lies.reads {va : U32} {bytes : List U8} (h : Lies mmu va bytes) (hpos : 0 < bytes.length) :
    Reads mmu va bytes := by
  have h0 := (h 0 hpos).1
  rw [show va + BitVec.ofNat 32 0 = va from BitVec.add_zero _] at h0
  exact ⟨h0, fun i hi => (h i hi).2⟩

theorem Readable.reads {va : U32} (h : Readable mmu va k) (hmap : Mapped mmu va) :
    ∃ bytes, bytes.length = k ∧ Reads mmu va bytes := by
  have hlen : (List.ofFn fun i : Fin k => (loadByte (va + BitVec.ofNat 32 i) mmu).getD 0).length = k :=
    List.length_ofFn
  refine ⟨_, hlen, hmap, fun i hi => ?_⟩
  obtain ⟨b, hb⟩ := Option.isSome_iff_exists.mp (h i (hlen ▸ hi))
  rw [List.getElem_ofFn, hb, Option.getD_some]

/-- The next bytes are `bytes`, all of them mapped, and the counter does not wrap on the way. -/
structure Here (mmu : Mmu) (m : Mnem) (bytes : List U8) : Prop where
  lies : Lies mmu m.eip bytes
  room : m.counter.toNat + bytes.length < 2 ^ 16

/-- The decoder `k` bytes further on. -/
def Mnem.skip (m : Mnem) (k : Nat) : Mnem := { m with counter := m.counter + BitVec.ofNat 16 k }

theorem Mnem.skip_zero (m : Mnem) : m.skip 0 = m := by
  rw [skip, show m.counter + BitVec.ofNat 16 0 = m.counter from BitVec.add_zero _]

theorem Mnem.skip_skip (m : Mnem) (k j : Nat) : (m.skip k).skip j = m.skip (k + j) := by
  rw [skip, skip, skip, BitVec.ofNat_add, BitVec.add_assoc]

theorem eip_skip (h : m.counter.toNat + k < 2 ^ 16) :
    (m.skip k).eip = m.eip + BitVec.ofNat 32 k := by
  have hwide : (m.counter + BitVec.ofNat 16 k).setWidth 32
      = m.counter.setWidth 32 + BitVec.ofNat 32 k := by
    apply BitVec.eq_of_toNat_eq
    simp only [BitVec.toNat_setWidth, BitVec.toNat_add, BitVec.toNat_ofNat]
    omega
  rw [Mnem.eip, Mnem.skip, hwide, ← BitVec.add_assoc]
  rfl

theorem Here.left {bytes rest : List U8} (h : Here mmu m (bytes ++ rest)) : Here mmu m bytes := by
  have hroom := h.room
  rw [List.length_append] at hroom
  exact ⟨h.lies.left, by omega⟩

theorem Here.right {bytes rest : List U8} (h : Here mmu m (bytes ++ rest)) :
    Here mmu (m.skip bytes.length) rest := by
  have hroom := h.room
  rw [List.length_append] at hroom
  have hcounter : (m.skip bytes.length).counter.toNat = m.counter.toNat + bytes.length := by
    simp only [Mnem.skip, BitVec.toNat_add, BitVec.toNat_ofNat]
    omega
  refine ⟨?_, by omega⟩
  rw [eip_skip (by omega)]
  exact h.lies.right

theorem Here.reads {bytes rest : List U8} (h : Here mmu m (bytes ++ rest)) (hpos : 0 < bytes.length) :
    Reads mmu m.eip bytes := h.left.lies.reads hpos

/-! ## Runs -/

/-- As long as there is room. -/
theorem RenderLine.tokens_addAll {line : RenderLine} {toks : List Token}
    (h : line.tokens.length + toks.length ≤ maxTokens) :
    (line.addAll toks).tokens = line.tokens ++ toks := by
  induction toks generalizing line with
  | nil => exact (List.append_nil _).symm
  | cons t toks ih =>
      rw [List.length_cons] at h
      have hadd : (line.add t).tokens = line.tokens ++ [t] := by
        rw [add, dif_pos (by omega)]
      show ((line.add t).addAll toks).tokens = _
      rw [ih (by rw [hadd, List.length_append, List.length_singleton]; omega), hadd,
        List.append_assoc, List.singleton_append]

/-- `x` moves `k` bytes on, adds `toks` to whatever line, and returns `a`. -/
structure Emits (mmu : Mmu) (x : Dec α) (m : Mnem) (k : Nat) (toks : List Token) (a : α) : Prop where
  run : ∀ line, x mmu { m with line := line }
    = some (some a, { m.skip k with line := line.addAll toks })

variable {x : Dec α} {f : α → Dec β} {a : α} {b : β}

theorem Emits.bind (hx : Emits mmu x m k toks a) (hf : Emits mmu (f a) (m.skip k) j toks' b) :
    Emits mmu (x >>= f) m (k + j) (toks ++ toks') b := by
  refine ⟨fun line => ?_⟩
  rw [bind_run, hx.run line, Option.bind_some, ← m.skip_skip, RenderLine.addAll_append]
  exact hf.run (line.addAll toks)

/-- A part that fetches nothing. -/
theorem Emits.seq (hx : Emits mmu x m 0 toks a) (hf : Emits mmu (f a) m j toks' b) :
    Emits mmu (x >>= f) m j (toks ++ toks') b := by
  have hf' : Emits mmu (f a) (m.skip 0) j toks' b := m.skip_zero.symm ▸ hf
  have h := hx.bind hf'
  rwa [Nat.zero_add] at h

/-- A part that adds nothing. -/
theorem Emits.then (hx : Emits mmu x m k [] a) (hf : Emits mmu (f a) (m.skip k) 0 toks b) :
    Emits mmu (x >>= f) m k toks b := hx.bind hf

/-- A part behind all fetches. -/
theorem Emits.last (hx : Emits mmu x m k toks a) (hf : Emits mmu (f a) (m.skip k) 0 toks' b) :
    Emits mmu (x >>= f) m k (toks ++ toks') b := hx.bind hf

theorem emits_pure (a : α) : Emits mmu (pure a) m 0 [] a := ⟨fun line => by
  rw [m.skip_zero]
  rfl⟩

theorem emits_state_bind {f : Mnem → Dec β}
    (h : ∀ line, Emits mmu (f { m with line := line }) m k toks b) :
    Emits mmu (state >>= f) m k toks b := ⟨fun line => (h line).run line⟩

theorem emits_token (type : TokenType) (text : Option Name) (number : U32) (size : Nat) :
    Emits mmu (addToken type text number size) m 0 [⟨type, text, number, size⟩] () := ⟨fun line => by
  rw [m.skip_zero]
  rfl⟩

theorem Emits.call {x : Dec Unit} (h : Emits mmu x m k toks ()) :
    Emits mmu (call x) m k toks () := ⟨fun line => by
  rw [Early.call, h.run line]
  rfl⟩

theorem emits_ite {c : Prop} [Decidable c] {x y : Dec α} (hx : c → Emits mmu x m k toks a)
    (hy : ¬ c → Emits mmu y m k toks a) : Emits mmu (if c then x else y) m k toks a := by
  split
  · next h => exact hx h
  · next h => exact hy h

/-- The same of a run that may have ended early, unless it faults. -/
structure Runs (mmu : Mmu) (x : Dec α) (m : Mnem) (k : Nat) (toks : List Token)
    (r : Option α) : Prop where
  run : ∀ line r' m', x mmu { m with line := line } = some (r', m') →
    r' = r ∧ m' = { m.skip k with line := line.addAll toks }

variable {r : Option α} {r' : Option β}

theorem Emits.runs (h : Emits mmu x m k toks a) : Runs mmu x m k toks (some a) := by
  refine ⟨fun line r' m' hrun => ?_⟩
  rw [h.run line, Option.some.injEq, Prod.mk.injEq] at hrun
  exact ⟨hrun.1.symm, hrun.2.symm⟩

theorem Runs.bind (hx : Runs mmu x m k toks (some a))
    (hf : Runs mmu (f a) (m.skip k) j toks' r') :
    Runs mmu (x >>= f) m (k + j) (toks ++ toks') r' := by
  refine ⟨fun line r'' m'' hrun => ?_⟩
  rw [bind_run] at hrun
  obtain ⟨⟨r1, m1⟩, hx1, hrun⟩ := Option.bind_eq_some_iff.mp hrun
  obtain ⟨rfl, rfl⟩ := hx.run line r1 m1 hx1
  rw [← m.skip_skip, RenderLine.addAll_append]
  exact hf.run (line.addAll toks) r'' m'' hrun

/-- Tokens before an early return. -/
theorem Emits.runs_seq {r : Option β} (hx : Emits mmu x m 0 toks a)
    (hf : Runs mmu (f a) m j toks' r) : Runs mmu (x >>= f) m j (toks ++ toks') r := by
  have h := hx.runs.bind (f := f) (m.skip_zero.symm ▸ hf)
  rwa [Nat.zero_add] at h

/-- Nothing runs behind an early return. -/
theorem Runs.ret (hx : Runs mmu x m k toks none) : Runs mmu (x >>= f) m k toks none := by
  refine ⟨fun line r'' m'' hrun => ?_⟩
  rw [bind_run] at hrun
  obtain ⟨⟨r1, m1⟩, hx1, hrun⟩ := Option.bind_eq_some_iff.mp hrun
  obtain ⟨rfl, rfl⟩ := hx.run line r1 m1 hx1
  obtain ⟨rfl, rfl⟩ := Prod.mk.inj (Option.some.inj hrun)
  exact ⟨rfl, rfl⟩

theorem Runs.call {x : Dec Unit} {r : Option Unit} (h : Runs mmu x m k toks r) :
    Runs mmu (call x) m k toks (some ()) := by
  refine ⟨fun line r'' m'' hrun => ?_⟩
  rw [Early.call] at hrun
  obtain ⟨⟨r1, m1⟩, hx1, heq⟩ := Option.map_eq_some_iff.mp hrun
  obtain ⟨rfl, rfl⟩ := Prod.mk.inj heq
  exact ⟨rfl, (h.run line r1 m1 hx1).2⟩

theorem runs_state_bind {f : Mnem → Dec β}
    (h : ∀ line, Runs mmu (f { m with line := line }) m k toks r') :
    Runs mmu (state >>= f) m k toks r' := ⟨fun line => (h line).run line⟩

/-! ## Fetches -/

/-- `x` fetches `k` bytes: it returns what they say, or cannot read them. -/
structure FetchesAt (mmu : Mmu) (x : Dec α) (m : Mnem) (k : Nat) (value : List U8 → α) : Prop where
  emits : ∀ bytes, bytes.length = k → Reads mmu m.eip bytes → Emits mmu x m k [] (value bytes)
  fails : (∀ bytes, bytes.length = k → ¬ Reads mmu m.eip bytes) → Runs mmu x m 0 [] none

theorem fetchesAt_fetch {load : U32 → Mmu → Option α} {value : List U8 → α}
    (hread : ∀ va mmu, (load va mmu).isSome ↔ Readable mmu va k)
    (hvalue : ∀ va mmu bytes, bytes.length = k →
      (∀ i (h : i < bytes.length), loadByte (va + BitVec.ofNat 32 i) mmu = some bytes[i]) →
        load va mmu = some (value bytes)) (mmu : Mmu) (m : Mnem) :
    FetchesAt mmu (fetch k load) m k value where
  emits := by
    refine fun bytes hlen hreads => ⟨fun line => ?_⟩
    obtain ⟨phys, hphys, h0⟩ := hreads.mapped
    have heip : Mnem.eip { m with line := line } = m.eip := rfl
    rw [fetch_run, heip, hphys, Option.bind_some, if_neg h0, hvalue _ _ bytes hlen hreads.load]
    rfl
  fails := by
    refine fun hno => ⟨fun line r' m' hrun => ?_⟩
    have heip : Mnem.eip { m with line := line } = m.eip := rfl
    rw [fetch_run, heip] at hrun
    obtain ⟨phys, hphys, hrun⟩ := Option.bind_eq_some_iff.mp hrun
    by_cases h0 : phys = 0
    · rw [if_pos h0] at hrun
      obtain ⟨rfl, rfl⟩ := Prod.mk.inj (Option.some.inj hrun)
      rw [m.skip_zero]
      exact ⟨rfl, rfl⟩
    · rw [if_neg h0] at hrun
      obtain ⟨v, hv, -⟩ := Option.map_eq_some_iff.mp hrun
      have hreadable := (hread m.eip mmu).mp (by rw [hv]; rfl)
      obtain ⟨bytes, hlen, hreads⟩ := hreadable.reads ⟨phys, hphys, h0⟩
      exact absurd hreads (hno bytes hlen)

theorem append_byte (hi lo : U8) : hi ++ lo = BitVec.ofNat 16 (littleEndian [lo, hi]) := by
  have hlo := lo.isLt
  have hhi := hi.isLt
  apply BitVec.eq_of_toNat_eq
  rw [BitVec.toNat_append, ← Nat.shiftLeft_add_eq_or_of_lt hlo, Nat.shiftLeft_eq,
    BitVec.toNat_ofNat]
  simp only [littleEndian]
  omega

theorem append_word (a b c d : U8) :
    BitVec.ofNat 16 (littleEndian [c, d]) ++ BitVec.ofNat 16 (littleEndian [a, b])
      = BitVec.ofNat 32 (littleEndian [a, b, c, d]) := by
  have ha := a.isLt
  have hb := b.isLt
  have hc := c.isLt
  have hd := d.isLt
  have hlo := (BitVec.ofNat 16 (littleEndian [a, b])).isLt
  apply BitVec.eq_of_toNat_eq
  rw [BitVec.toNat_append, ← Nat.shiftLeft_add_eq_or_of_lt hlo, Nat.shiftLeft_eq,
    BitVec.toNat_ofNat, BitVec.toNat_ofNat, BitVec.toNat_ofNat]
  simp only [littleEndian]
  omega

theorem loadWord_eq {va : U32} {a b : U8} (ha : loadByte va mmu = some a)
    (hb : loadByte (va + 1) mmu = some b) :
    loadWord va mmu = some (BitVec.ofNat 16 (littleEndian [a, b])) := by
  rw [loadWord, ha, hb, ← append_byte]
  rfl

theorem fetchesAt_fetchByte (mmu : Mmu) (m : Mnem) :
    FetchesAt mmu fetchByte m 1 fun bytes => BitVec.ofNat 8 (littleEndian bytes) := by
  refine fetchesAt_fetch loadByte_isSome (fun va mmu bytes hlen h => ?_) mmu m
  obtain ⟨b, rfl⟩ := List.length_eq_one_iff.mp hlen
  have h0 := h 0 (by simp)
  rw [show va + BitVec.ofNat 32 0 = va from BitVec.add_zero _] at h0
  rw [h0]
  exact congrArg some (BitVec.eq_of_toNat_eq (Nat.mod_eq_of_lt b.isLt).symm)

theorem fetchesAt_fetchWord (mmu : Mmu) (m : Mnem) :
    FetchesAt mmu fetchWord m 2 fun bytes => BitVec.ofNat 16 (littleEndian bytes) := by
  refine fetchesAt_fetch loadWord_isSome (fun va mmu bytes hlen h => ?_) mmu m
  rcases bytes with _ | ⟨a, _ | ⟨b, _ | ⟨_, _⟩⟩⟩ <;> cases hlen
  have h0 := h 0 (by simp)
  rw [show va + BitVec.ofNat 32 0 = va from BitVec.add_zero _] at h0
  exact loadWord_eq h0 (h 1 (by simp))

theorem fetchesAt_fetchDword (mmu : Mmu) (m : Mnem) :
    FetchesAt mmu fetchDword m 4 fun bytes => BitVec.ofNat 32 (littleEndian bytes) := by
  refine fetchesAt_fetch loadDword_isSome (fun va mmu bytes hlen h => ?_) mmu m
  rcases bytes with _ | ⟨a, _ | ⟨b, _ | ⟨c, _ | ⟨d, _ | ⟨_, _⟩⟩⟩⟩⟩ <;> cases hlen
  have h0 := h 0 (by simp)
  have h1 := h 1 (by simp)
  have h2 := h 2 (by simp)
  have h3 := h 3 (by simp)
  rw [show va + BitVec.ofNat 32 0 = va from BitVec.add_zero _] at h0
  have hhi : loadWord (va + 2) mmu = some (BitVec.ofNat 16 (littleEndian [c, d])) :=
    loadWord_eq h2 (by rw [BitVec.add_assoc]; exact h3)
  rw [loadDword, loadWord_eq h0 h1, hhi, ← append_word]
  rfl

/-! What is made of the bytes behind the fetch, and by which size they are fetched. -/

variable {value : List U8 → α}

theorem FetchesAt.bind {g : α → β} (hx : FetchesAt mmu x m k value)
    (hf : ∀ a, Emits mmu (f a) (m.skip k) 0 [] (g a)) :
    FetchesAt mmu (x >>= f) m k fun bytes => g (value bytes) where
  emits bytes hlen hreads := (hx.emits bytes hlen hreads).then (hf _)
  fails hno := (hx.fails hno).ret

theorem fetchesAt_state_bind {f : Mnem → Dec α}
    (h : ∀ line, FetchesAt mmu (f { m with line := line }) m k value) :
    FetchesAt mmu (state >>= f) m k value where
  emits bytes hlen hreads := emits_state_bind fun line => (h line).emits bytes hlen hreads
  fails hno := runs_state_bind fun line => (h line).fails hno

/-- One of two fetches. -/
theorem fetchesAt_ite {b : Bool} {y : Dec α} {value' : List U8 → α}
    (hx : b = true → FetchesAt mmu x m k value) (hy : b = false → FetchesAt mmu y m j value') :
    FetchesAt mmu (if b then x else y) m (if b then k else j)
      fun bytes => if b then value bytes else value' bytes := by
  cases b with
  | true => exact hx rfl
  | false => exact hy rfl

/-- As many bytes as there are in `n` bits. -/
theorem setWidth_littleEndian {n : Nat} {bytes : List U8} (hlen : 8 * bytes.length = n)
    (hn : n ≤ 32) :
    (BitVec.ofNat n (littleEndian bytes)).setWidth 32 = BitVec.ofNat 32 (littleEndian bytes) := by
  have hlt := littleEndian_lt bytes
  rw [hlen] at hlt
  have hle : 2 ^ n ≤ 2 ^ 32 := Nat.pow_le_pow_right (by omega) hn
  apply BitVec.eq_of_toNat_eq
  rw [BitVec.toNat_setWidth, BitVec.toNat_ofNat, BitVec.toNat_ofNat, Nat.mod_eq_of_lt hlt]

theorem setWidth_signExtend {n j w : Nat} (hj : j ≤ w) (v : BitVec n) :
    (v.signExtend w).setWidth j = v.signExtend j := by
  apply BitVec.eq_of_getLsbD_eq
  intro i hi
  rw [BitVec.getLsbD_setWidth, BitVec.getLsbD_signExtend, BitVec.getLsbD_signExtend,
    decide_eq_true hi, decide_eq_true (by omega), Bool.true_and, Bool.true_and]

/-- The number of the bytes. -/
def number32 (bytes : List U8) : U32 := BitVec.ofNat 32 (littleEndian bytes)

theorem FetchesAt.congr {value' : List U8 → α} (h : FetchesAt mmu x m k value)
    (heq : ∀ bytes, bytes.length = k → value bytes = value' bytes) :
    FetchesAt mmu x m k value' where
  emits bytes hlen hreads := heq bytes hlen ▸ h.emits bytes hlen hreads
  fails := h.fails

theorem fetchesAt_fetchByteZx (mmu : Mmu) (m : Mnem) : FetchesAt mmu fetchByteZx m 1 number32 :=
  ((fetchesAt_fetchByte mmu m).bind fun _ => emits_pure _).congr fun bytes hlen =>
    setWidth_littleEndian (by omega) (by omega)

theorem fetchesAt_fetchWordZx (mmu : Mmu) (m : Mnem) :
    FetchesAt mmu (do let imm ← fetchWord; pure (imm.setWidth 32)) m 2 number32 :=
  ((fetchesAt_fetchWord mmu m).bind fun _ => emits_pure _).congr fun bytes hlen =>
    setWidth_littleEndian (by omega) (by omega)

theorem fetchesAt_fetchV (mmu : Mmu) (m : Mnem) : FetchesAt mmu fetchV m m.sizeV number32 := by
  refine fetchesAt_state_bind fun line => ?_
  refine (fetchesAt_ite (b := m.op32) (fun _ => fetchesAt_fetchDword mmu m)
    fun _ => fetchesAt_fetchWordZx mmu m).congr fun bytes _ => ?_
  exact ite_self _

theorem fetchesAt_fetchW (mmu : Mmu) (m : Mnem) : FetchesAt mmu fetchW m m.sizeW number32 := by
  refine fetchesAt_state_bind fun line => ?_
  refine (fetchesAt_ite (b := m.w) (fun _ => fetchesAt_fetchV mmu m)
    fun _ => fetchesAt_fetchByteZx mmu m).congr fun bytes _ => ?_
  exact ite_self _

theorem fetchesAt_fetchByteSx (mmu : Mmu) (m : Mnem) : FetchesAt mmu fetchByteSx m 1 fun bytes =>
    signExtendV m (BitVec.ofNat 8 (littleEndian bytes)) :=
  fetchesAt_state_bind fun _ => (fetchesAt_fetchByte mmu m).bind fun _ => emits_pure _

theorem fetchesAt_fetchS (mmu : Mmu) (m : Mnem) :
    FetchesAt mmu fetchS m (if m.s then 1 else m.sizeV) fun bytes =>
      if m.s then signExtendV m (BitVec.ofNat 8 (littleEndian bytes)) else number32 bytes :=
  fetchesAt_state_bind fun _ => fetchesAt_ite (fun _ => fetchesAt_fetchByteSx mmu m)
    fun _ => fetchesAt_fetchV mmu m

theorem fetchesAt_fetch80 (mmu : Mmu) (m : Mnem) :
    FetchesAt mmu fetch80 m (if m.w then if m.s then 1 else m.sizeV else 1) fun bytes =>
      if m.w then
        if m.s then signExtendV m (BitVec.ofNat 8 (littleEndian bytes)) else number32 bytes
      else number32 bytes :=
  fetchesAt_state_bind fun _ => fetchesAt_ite (fun _ => fetchesAt_fetchS mmu m)
    fun _ => fetchesAt_fetchByteZx mmu m

/-! ## Tokens -/

/-- The names of the registers of a size. -/
def regNames (size : Nat) : List Name :=
  if size = 4 then reg32Mnem else if size = 2 then reg16Mnem else reg8Mnem

def regToken (size i : Nat) : Token :=
  ⟨.generalRegister, (regNames size)[i]?, BitVec.ofNat 32 i, size⟩

def immToken (v : U32) (size : Nat) : Token := ⟨.immediate, none, v, size⟩

def mnemonicToken (text : Name) : Token := ⟨.mnemonic, some text, 0, 0⟩

def operatorToken (text : Name) : Token := ⟨.operator, some text, 0, 0⟩

def commaToken : Token := operatorToken (name "," named_comma)

theorem emits_mnemonic (text : Name) : Emits mmu (mnemonic text) m 0 [mnemonicToken text] () :=
  emits_token ..

theorem emits_comma : Emits mmu comma m 0 [commaToken] () := emits_token ..

theorem emits_reg8 (i : Nat) : Emits mmu (reg8 i) m 0 [regToken 1 i] () := emits_token ..

theorem emits_reg16 (i : Nat) : Emits mmu (reg16 i) m 0 [regToken 2 i] () := emits_token ..

theorem emits_reg32 (i : Nat) : Emits mmu (reg32 i) m 0 [regToken 4 i] () := emits_token ..

theorem emits_regV (i : Nat) : Emits mmu (regV i) m 0 [regToken m.sizeV i] () := by
  refine emits_state_bind fun line => emits_ite (fun h => ?_) fun h => ?_
  · rw [Mnem.sizeV, if_pos (show m.op32 = true from h)]
    exact emits_reg32 i
  · rw [Mnem.sizeV, if_neg (show ¬ m.op32 = true from h)]
    exact emits_reg16 i

theorem emits_regW (i : Nat) : Emits mmu (regW i) m 0 [regToken m.sizeW i] () := by
  refine emits_state_bind fun line => emits_ite (fun h => ?_) fun h => ?_
  · rw [Mnem.sizeW, if_pos (show m.w = true from h)]
    exact emits_regV i
  · rw [Mnem.sizeW, if_neg (show ¬ m.w = true from h)]
    exact emits_reg8 i

theorem emits_immediate (v : U32) (size : Nat) : Emits mmu (immediate v size) m 0 [immToken v size] () :=
  emits_token ..

theorem emits_immediateV (v : U32) : Emits mmu (immediateV v) m 0 [immToken v m.sizeV] () :=
  emits_state_bind fun _ => emits_immediate ..

theorem emits_immediateW (v : U32) : Emits mmu (immediateW v) m 0 [immToken v m.sizeW] () :=
  emits_state_bind fun _ => emits_immediate ..

end Tomk.Disasm
