/-
# What a handler fetches

All that matters of a handler for the length of an instruction is the row of the widths
that it fetches, in its order.  `advance` is the counter after such a row: it stops at the first fetch
whose first byte is not mapped, and there is none after a fault.  A handler that has
returned early stands before a byte that is not mapped, so that whatever it or its
caller would have fetched next would have failed as well (`advance_stuck`); this is why
the rows of two parts follow each other (`Fetches.bind`), and why a call whose result is
not looked at needs no rule of its own (`Fetches.call`).

`Fetches` also says that nothing but the counter and the line has changed, and `Takes`
leaves this out: the fetch of a ModR/M byte changes it.  The line only grows, and an
early return is a sign that the row was not `Complete`.
-/
import Tomk.Disasm.Decode
import Tomk.Lib.I386

namespace Tomk.Disasm

open Early I386

/-! ## Rows of fetches -/

/-- The `k` bytes at `va` can be read. -/
def Readable (mmu : Mmu) (va : U32) (k : Nat) : Prop :=
  ∀ i < k, (loadByte (va + BitVec.ofNat 32 i) mmu).isSome

instance (mmu : Mmu) (va : U32) (k : Nat) : Decidable (Readable mmu va k) :=
  inferInstanceAs (Decidable (∀ i < k, _))

/-- `pg_virt2phys` finds the address, 0 being its answer for one that is not mapped. -/
def Mapped (mmu : Mmu) (va : U32) : Prop := ∃ phys, pgVirt2phys mmu va = some phys ∧ phys ≠ 0

instance (mmu : Mmu) (va : U32) : Decidable (Mapped mmu va) :=
  decidable_of_iff ((pgVirt2phys mmu va).any (· ≠ 0) = true) <| by
    rw [Mapped]
    cases pgVirt2phys mmu va <;> simp

/-- Every fetch of the widths `fields` succeeds. -/
def Complete (mmu : Mmu) (offset : U32) : List Nat → BitVec 16 → Prop
  | [], _ => True
  | k :: fields, c => Mapped mmu (offset + c.setWidth 32) ∧
      Readable mmu (offset + c.setWidth 32) k ∧ Complete mmu offset fields (c + BitVec.ofNat 16 k)

/-- The counter after fetches of the widths `fields`. -/
def advance (mmu : Mmu) (offset : U32) : List Nat → BitVec 16 → Option (BitVec 16)
  | [], c => some c
  | k :: fields, c => (pgVirt2phys mmu (offset + c.setWidth 32)).bind fun phys =>
      if phys = 0 then some c
      else if Readable mmu (offset + c.setWidth 32) k then
        advance mmu offset fields (c + BitVec.ofNat 16 k)
      else none

/-- The next byte is not mapped. -/
def Stuck (mmu : Mmu) (offset : U32) (c : BitVec 16) : Prop :=
  pgVirt2phys mmu (offset + c.setWidth 32) = some 0

variable {mmu : Mmu} {offset : U32} {c c' : BitVec 16} {p q : List Nat} {α β : Type}

theorem Stuck.not_mapped (h : Stuck mmu offset c) : ¬ Mapped mmu (offset + c.setWidth 32) := by
  rintro ⟨phys, hphys, h0⟩
  rw [Stuck, hphys, Option.some.injEq] at h
  exact h0 h

theorem advance_stuck (h : Stuck mmu offset c) (p : List Nat) :
    advance mmu offset p c = some c := by
  cases p with
  | nil => rfl
  | cons k p => rw [advance, h, Option.bind_some, if_pos rfl]

theorem advance_append (p q : List Nat) (c : BitVec 16) :
    advance mmu offset (p ++ q) c = (advance mmu offset p c).bind (advance mmu offset q) := by
  induction p generalizing c with
  | nil => rfl
  | cons k p ih =>
      rw [List.cons_append, advance, advance]
      cases hphys : pgVirt2phys mmu (offset + c.setWidth 32) with
      | none => rfl
      | some phys =>
          rw [Option.bind_some, Option.bind_some]
          split
          · next h0 => exact (advance_stuck (hphys.trans (congrArg some h0)) q).symm
          · split
            · exact ih _
            · rfl

theorem complete_append (p q : List Nat) (c : BitVec 16) :
    Complete mmu offset (p ++ q) c ↔ Complete mmu offset p c ∧
      ∀ c', advance mmu offset p c = some c' → Complete mmu offset q c' := by
  induction p generalizing c with
  | nil =>
      rw [List.nil_append, advance]
      exact ⟨fun h => ⟨trivial, fun c' hc => Option.some.inj hc ▸ h⟩, fun h => h.2 c rfl⟩
  | cons k p ih =>
      rw [List.cons_append, Complete, Complete, advance, ih]
      constructor
      · rintro ⟨⟨phys, hphys, h0⟩, hread, hp, hq⟩
        refine ⟨⟨⟨phys, hphys, h0⟩, hread, hp⟩, fun c' hc => hq c' ?_⟩
        rwa [hphys, Option.bind_some, if_neg h0, if_pos hread] at hc
      · rintro ⟨⟨⟨phys, hphys, h0⟩, hread, hp⟩, hq⟩
        refine ⟨⟨phys, hphys, h0⟩, hread, hp, fun c' hc => hq c' ?_⟩
        rwa [hphys, Option.bind_some, if_neg h0, if_pos hread]

/-! ## Handlers -/

/-- Nothing that was in the line is taken out. -/
def RenderLine.Grows (line line' : RenderLine) : Prop := line.tokens <+: line'.tokens

theorem RenderLine.Grows.refl (line : RenderLine) : line.Grows line := List.prefix_refl _

theorem RenderLine.Grows.trans {a b d : RenderLine} (h : a.Grows b) (h' : b.Grows d) : a.Grows d :=
  List.IsPrefix.trans h h'

theorem RenderLine.grows_add (line : RenderLine) (t : Token) : line.Grows (line.add t) := by
  rw [Grows, add]
  split
  · exact List.prefix_append _ _
  · exact List.prefix_refl _

/-- `x` fetches the row `p`, and changes nothing else but the line. -/
def Fetches (mmu : Mmu) (x : Dec α) (m : Mnem) (p : List Nat) : Prop :=
  Ends x mmu m (advance mmu m.offset p m.counter = none) fun r m' =>
    advance mmu m.offset p m.counter = some m'.counter ∧
      m' = { m with counter := m'.counter, line := m'.line } ∧ m.line.Grows m'.line ∧
      (r = none → Stuck mmu m'.offset m'.counter ∧ ¬ Complete mmu m.offset p m.counter)

/-- `x` fetches the row `p`. -/
def Takes (mmu : Mmu) (x : Dec α) (m : Mnem) (p : List Nat) : Prop :=
  Ends x mmu m (advance mmu m.offset p m.counter = none) fun r m' =>
    advance mmu m.offset p m.counter = some m'.counter ∧ m.line.Grows m'.line ∧
      (r = none → ¬ Complete mmu m.offset p m.counter)

/-- From every state, `x` fetches nothing. -/
structure Quiet (x : Dec α) : Prop where
  fetches : ∀ mmu m, Fetches mmu x m []

variable {x : Dec α} {f : α → Dec β} {m : Mnem}

theorem Fetches.takes (h : Fetches mmu x m p) : Takes mmu x m p :=
  h.mono id fun _ _ ⟨h, _, hgrows, hnone⟩ => ⟨h, hgrows, fun hr => (hnone hr).2⟩

theorem Fetches.bind (hx : Fetches mmu x m p)
    (hf : ∀ a c l, Fetches mmu (f a) { m with counter := c, line := l } q) :
    Fetches mmu (x >>= f) m (p ++ q) := by
  have hnone : advance mmu m.offset p m.counter = none →
      advance mmu m.offset (p ++ q) m.counter = none := fun h => by
    rw [advance_append, h]
    rfl
  have hleft : Complete mmu m.offset (p ++ q) m.counter → Complete mmu m.offset p m.counter :=
    fun h => ((complete_append p q m.counter).mp h).1
  refine (hx.mono hnone fun r m' h => h).bind ?_ ?_
  · rintro m' ⟨hadvance, hsame, hgrows, hstuck⟩
    have hoffset : m'.offset = m.offset := by rw [hsame]
    obtain ⟨hstuck, hcut⟩ := hstuck rfl
    refine ⟨?_, hsame, hgrows, fun _ => ⟨hstuck, fun h => hcut (hleft h)⟩⟩
    rw [advance_append, hadvance, Option.bind_some, advance_stuck (hoffset ▸ hstuck)]
  · rintro a m' ⟨hadvance, hsame, hgrows, -⟩
    rw [advance_append, hadvance, Option.bind_some]
    have h := hf a m'.counter m'.line
    rw [← hsame] at h
    have hoffset : m'.offset = m.offset := by rw [hsame]
    refine h.mono (fun h => hoffset ▸ h) ?_
    rintro r m'' ⟨h, hsame', hgrows', hstuck⟩
    refine ⟨hoffset ▸ h, ?_, hgrows.trans hgrows', fun hr => ⟨(hstuck hr).1, fun hc => ?_⟩⟩
    · rw [hsame', hsame]
    · exact (hstuck hr).2 (hoffset ▸ ((complete_append p q m.counter).mp hc).2 _ hadvance)

/-- The same for a part that fetches nothing after it. -/
theorem Fetches.then (hx : Fetches mmu x m p) (hf : ∀ a, Quiet (f a)) :
    Fetches mmu (x >>= f) m p := by
  have h := hx.bind (q := []) fun a c l => (hf a).fetches mmu { m with counter := c, line := l }
  rwa [List.append_nil] at h

/-- The same for a part that fetches nothing before it. -/
theorem Quiet.seq (hx : Quiet x)
    (hf : ∀ a c l, Fetches mmu (f a) { m with counter := c, line := l } p) :
    Fetches mmu (x >>= f) m p :=
  (hx.fetches mmu m).bind hf

theorem Quiet.bind (hx : Quiet x) (hf : ∀ a, Quiet (f a)) : Quiet (x >>= f) :=
  ⟨fun mmu m => (hx.fetches mmu m).then hf⟩

theorem fetches_state_bind {f : Mnem → Dec β} (h : Fetches mmu (f m) m p) :
    Fetches mmu (state >>= f) m p := h

theorem quiet_state_bind {f : Mnem → Dec β} (h : ∀ m, Quiet (f m)) : Quiet (state >>= f) :=
  ⟨fun mmu m => (h m).fetches mmu m⟩

theorem quiet_ite {c : Prop} [Decidable c] {x y : Dec α} (hx : Quiet x) (hy : Quiet y) :
    Quiet (if c then x else y) := by
  split
  · exact hx
  · exact hy

theorem fetches_ite {c : Prop} [Decidable c] {x y : Dec α} (hx : c → Fetches mmu x m p)
    (hy : ¬ c → Fetches mmu y m p) : Fetches mmu (if c then x else y) m p :=
  ends_ite hx hy

/-- A call of a part that may return early. -/
theorem Fetches.call {x : Dec Unit} (h : Fetches mmu x m p) : Fetches mmu (call x) m p :=
  Ends.call h fun _ _ ⟨h, hsame, hgrows, _⟩ => ⟨h, hsame, hgrows, nofun⟩

theorem quiet_pure (a : α) : Quiet (pure a : Dec α) :=
  ⟨fun _ m => ⟨rfl, rfl, .refl m.line, nofun⟩⟩

/-! ## Fetches -/

theorem fetch_run (k : Nat) (load : U32 → Mmu → Option α) (mmu : Mmu) (m : Mnem) :
    fetch k load mmu m = (pgVirt2phys mmu m.eip).bind fun phys =>
      if phys = 0 then some (none, m)
      else (load m.eip mmu).map fun v =>
        (some v, { m with counter := m.counter + BitVec.ofNat 16 k }) := by
  rw [fetch, state_bind, access_bind]
  congr 1
  funext phys
  split
  · rfl
  · rw [access_bind]
    cases load m.eip mmu <;> rfl

/-- The loads read all the bytes of their width. -/
theorem loadByte_isSome (va : U32) (mmu : Mmu) :
    (loadByte va mmu).isSome ↔ Readable mmu va 1 := by
  constructor
  · intro h i hi
    obtain rfl : i = 0 := by omega
    rwa [show va + BitVec.ofNat 32 0 = va from BitVec.add_zero va]
  · intro h
    have h0 := h 0 Nat.one_pos
    rwa [show va + BitVec.ofNat 32 0 = va from BitVec.add_zero va] at h0

theorem Readable.append {va : U32} {j k : Nat} :
    Readable mmu va (j + k)
      ↔ Readable mmu va j ∧ Readable mmu (va + BitVec.ofNat 32 j) k := by
  constructor
  · refine fun h => ⟨fun i hi => h i (by omega), fun i hi => ?_⟩
    rw [BitVec.add_assoc, ← BitVec.ofNat_add]
    exact h (j + i) (by omega)
  · intro h i hi
    by_cases hij : i < j
    · exact h.1 i hij
    · have h2 := h.2 (i - j) (by omega)
      rwa [BitVec.add_assoc, ← BitVec.ofNat_add, Nat.add_sub_cancel' (by omega)] at h2

theorem loadWord_isSome (va : U32) (mmu : Mmu) :
    (loadWord va mmu).isSome ↔ Readable mmu va 2 := by
  rw [show (2 : Nat) = 1 + 1 from rfl, Readable.append, ← loadByte_isSome, ← loadByte_isSome,
    loadWord]
  show _ ↔ _ ∧ (loadByte (va + 1) mmu).isSome
  cases loadByte va mmu <;> cases loadByte (va + 1) mmu <;> simp

theorem loadDword_isSome (va : U32) (mmu : Mmu) :
    (loadDword va mmu).isSome ↔ Readable mmu va 4 := by
  rw [show (4 : Nat) = 2 + 2 from rfl, Readable.append, ← loadWord_isSome, ← loadWord_isSome,
    loadDword]
  show _ ↔ _ ∧ (loadWord (va + 2) mmu).isSome
  cases loadWord va mmu <;> cases loadWord (va + 2) mmu <;> simp

theorem fetches_fetch {k : Nat} {load : U32 → Mmu → Option α}
    (hload : ∀ va mmu, (load va mmu).isSome ↔ Readable mmu va k) (mmu : Mmu) (m : Mnem) :
    Fetches mmu (fetch k load) m [k] := by
  rw [Fetches, Ends, fetch_run, advance]
  rw [← Mnem.eip]
  cases hphys : pgVirt2phys mmu m.eip with
  | none => rfl
  | some phys =>
      simp only [Option.bind_some]
      by_cases h0 : phys = 0
      · simp only [if_pos h0]
        have hstuck : Stuck mmu m.offset m.counter := hphys.trans (congrArg some h0)
        exact ⟨trivial, trivial, .refl m.line, fun _ => ⟨hstuck, fun h => hstuck.not_mapped h.1⟩⟩
      · simp only [if_neg h0]
        cases hv : load m.eip mmu with
        | none =>
            have hno : ¬ Readable mmu m.eip k := fun h => by
              simpa [hv] using (hload m.eip mmu).mpr h
            exact if_neg hno
        | some v =>
            have hyes : Readable mmu m.eip k := (hload m.eip mmu).mp (by rw [hv]; rfl)
            exact ⟨if_pos hyes, rfl, .refl m.line, fun hc => absurd hc (Option.some_ne_none v)⟩

theorem fetches_fetchByte (mmu : Mmu) (m : Mnem) : Fetches mmu fetchByte m [1] :=
  fetches_fetch loadByte_isSome mmu m

theorem fetches_fetchWord (mmu : Mmu) (m : Mnem) : Fetches mmu fetchWord m [2] :=
  fetches_fetch loadWord_isSome mmu m

theorem fetches_fetchDword (mmu : Mmu) (m : Mnem) : Fetches mmu fetchDword m [4] :=
  fetches_fetch loadDword_isSome mmu m

end Tomk.Disasm
