/-
# `pg_chgpriv`: the loop that keeps its count in `edx`

`pg_chgpriv` is written over the registers: the address is in `esi`, the
flags are in `ebx` and the count is in `edx`.  The first two survive a call,
`edx` does not, and the debug print stands between the load of the count and
the loop that counts it down.  So the model keeps the five registers, and what
`kdprintf` leaves in `eax`, `ecx` and `edx` is a parameter.

A page table holds its own entries as well, so a write may fall on a word that
the next access is translated through.  `Alike` is what carries the loop over
that: the RW and US bits are neither the present bit nor the frame of an entry,
and the walk sees nothing else.  From it the loop is an equation
(`Going.lp_eq`): it paints the entries of as many pages as `edx` says
(`paint`), and faults if one of them has no table.

`pg_map` counts on the stack and `pg_unmap` in `ebx`.  Here the count is right
exactly where `edx` comes back with it, or where the entries between the two
counts would not show the difference (`pgChgpriv_iff`).
-/
import Tomk.Mm.PagingSpec

namespace Tomk

def pteUs : U32 := 0x04

/-! ## The registers -/

/-- The registers that `pg_chgpriv` uses. -/
structure Regs where
  eax : U32
  ebx : U32
  ecx : U32
  edx : U32
  esi : U32

/-- What a call leaves in the registers that it need not save. -/
structure CallerSaved where
  eax : U32
  ecx : U32
  edx : U32

/-- The print writes to the serial line only. -/
def kdprintf (left : CallerSaved) (r : Regs) : Regs :=
  { r with eax := left.eax, ecx := left.ecx, edx := left.edx }

/-- An instruction that reads and writes a dword in memory. -/
def Mmu.modify (m : Mmu) (va : U32) (f : U32 → U32) : Option Mmu := do
  let w ← m.load va
  m.store va (f w)

/-! ## `paging.asm` -/

/-- `pg_loc_pte`, with the register it computes in. -/
def callPgLocPte (virtual_address : U32) (r : Regs) : Regs :=
  let r := { r with ecx := virtual_address }
  let r := { r with eax := (r.ecx >>> 12) &&& 0x3FF }
  let r := { r with ecx := (r.ecx >>> 10) &&& 0xFFFFF000#32 }
  { r with eax := ptVirt + r.ecx + r.eax * 4 }

/-- `.lp`, up to the `dec edx`. -/
def pgChgprivTurn (r : Regs) (m : Mmu) : Option (Regs × Mmu) := do
  let r := callPgLocPte r.esi r
  let m ← m.modify r.eax (· &&& ~~~(pteRw ||| pteUs))
  let m ← m.modify r.eax (· ||| r.ebx)
  pure ({ r with esi := r.esi + pageSize, edx := r.edx - 1 }, m)

/-- The loop, for at most so many turns: `jnz .lp` leaves it. -/
def pgChgprivLp : Nat → Regs → Mmu → Option (Regs × Mmu)
  | 0, _, _ => none
  | turns + 1, r, m => do
    let (r, m) ← pgChgprivTurn r m
    if r.edx = 0 then pure (r, m) else pgChgprivLp turns r m

/-- What the loop starts from. -/
def pgChgprivEnter (left : CallerSaved) (r : Regs) (m : Mmu) (virt flags count : U32) : Regs :=
  let r := { r with esi := virt, ebx := flags, edx := count }
  let r := kdprintf left { r with eax := frameAddr m.cr3 }
  { r with ebx := r.ebx &&& (pteRw ||| pteUs) }

/-- `test edx, edx`, and the loop. -/
def pgChgprivTest (r : Regs) (m : Mmu) : Option (Regs × Mmu) :=
  if r.edx = 0 then pure (r, m) else pgChgprivLp r.edx.toNat r m

def pgChgpriv (left : CallerSaved) (r : Regs) (m : Mmu) (virt flags count : U32) :
    Option (Regs × Mmu) := do
  let saved := r
  let (r, m) ← pgChgprivTest (pgChgprivEnter left r m virt flags count) m
  pure ({ r with edx := saved.edx, ebx := saved.ebx, esi := saved.esi }, m)

/-! ## What it is for -/

/-- The word of the table entry of an address. -/
def Mmu.pteWord (m : Mmu) (va : U32) : Frame × Slot :=
  (frameOf (m.mem m.cr3 (pdIndex va)), ptIndex va)

/-- The table entry of an address. -/
def Mmu.pteOf (m : Mmu) (va : U32) : U32 := m.mem (m.pteWord va).1 (m.pteWord va).2

/-- The entries of the first `n` pages. -/
def Mmu.Entries (m : Mmu) (virt : U32) (n : Nat) (w : Frame × Slot) : Prop :=
  ∃ i, i < n ∧ w = m.pteWord (pageAt virt i)

instance (m : Mmu) (virt : U32) (n : Nat) (w : Frame × Slot) : Decidable (m.Entries virt n w) :=
  inferInstanceAs (Decidable (∃ i, i < n ∧ _))

/-- An entry has the RW and US bits of the flags. -/
def HasPriv (flags e : U32) : Prop := e &&& (pteRw ||| pteUs) = flags &&& (pteRw ||| pteUs)

instance (flags e : U32) : Decidable (HasPriv flags e) := inferInstanceAs (Decidable (_ = _))

/-- Exactly the entries of the `count` pages have their RW and US bits changed to
those of the flags. -/
structure PrivChanged (m : Mmu) (virt flags count : U32) (m' : Mmu) : Prop where
  cr3 : m'.cr3 = m.cr3
  set : ∀ f i, m.Entries virt count.toNat (f, i) → HasPriv flags (m'.mem f i)
  kept : ∀ f i, m.Entries virt count.toNat (f, i) →
    m'.mem f i &&& ~~~(pteRw ||| pteUs) = m.mem f i &&& ~~~(pteRw ||| pteUs)
  other : ∀ f i, ¬ m.Entries virt count.toNat (f, i) → m'.mem f i = m.mem f i

/-- Whatever the print leaves, the change is made. -/
def PgChgprivChanges : Prop :=
  ∀ (left : CallerSaved) (r : Regs) (m : Mmu) (virt flags count : U32),
    SelfMapped m.mem m.cr3 →
    (∀ i, i < count.toNat → walk m.mem m.cr3 (pageAt virt i) ≠ none) →
    ∃ r' m', pgChgpriv left r m virt flags count = some (r', m') ∧ PrivChanged m virt flags count m'

/-! ## The bits of an entry -/

/-- An entry with the RW and US bits of the flags. -/
def setPriv (flags e : U32) : U32 := e &&& ~~~(pteRw ||| pteUs) ||| flags &&& (pteRw ||| pteUs)

theorem setPriv_bit (flags e : U32) {i : Nat} (hi : i < 32) :
    (setPriv flags e).getLsbD i =
      if (pteRw ||| pteUs).getLsbD i then flags.getLsbD i else e.getLsbD i := by
  rw [setPriv, BitVec.getLsbD_or, BitVec.getLsbD_and, BitVec.getLsbD_and, BitVec.getLsbD_not]
  cases (pteRw ||| pteUs).getLsbD i <;> simp [hi]

theorem setPriv_idem (flags e : U32) : setPriv flags (setPriv flags e) = setPriv flags e := by
  apply BitVec.eq_of_getLsbD_eq
  intro i hi
  rw [setPriv_bit _ _ hi, setPriv_bit _ _ hi]
  split <;> rfl

theorem hasPriv_setPriv (flags e : U32) : HasPriv flags (setPriv flags e) := by
  apply BitVec.eq_of_getLsbD_eq
  intro i hi
  rw [BitVec.getLsbD_and, BitVec.getLsbD_and, setPriv_bit _ _ hi]
  cases (pteRw ||| pteUs).getLsbD i <;> simp

theorem setPriv_kept (flags e : U32) :
    setPriv flags e &&& ~~~(pteRw ||| pteUs) = e &&& ~~~(pteRw ||| pteUs) := by
  apply BitVec.eq_of_getLsbD_eq
  intro i hi
  rw [BitVec.getLsbD_and, BitVec.getLsbD_and, BitVec.getLsbD_not, setPriv_bit _ _ hi]
  cases (pteRw ||| pteUs).getLsbD i <;> simp

/-- An entry is its RW and US bits and the others. -/
theorem eq_setPriv {flags e e' : U32} (hset : HasPriv flags e')
    (hkept : e' &&& ~~~(pteRw ||| pteUs) = e &&& ~~~(pteRw ||| pteUs)) : e' = setPriv flags e := by
  rw [setPriv, ← hset, ← hkept]
  apply BitVec.eq_of_getLsbD_eq
  intro i hi
  rw [BitVec.getLsbD_or, BitVec.getLsbD_and, BitVec.getLsbD_and, BitVec.getLsbD_not]
  cases (pteRw ||| pteUs).getLsbD i <;> simp [hi]

theorem setPriv_eq_iff {flags e : U32} : setPriv flags e = e ↔ HasPriv flags e := by
  constructor
  · intro h
    rw [← h]
    exact hasPriv_setPriv flags e
  · intro h
    exact (eq_setPriv h rfl).symm

/-! ## What the walk sees of an entry -/

/-- Two entries that differ in RW and US only. -/
theorem present_frameOf_kept {e e' : U32}
    (h : e' &&& ~~~(pteRw ||| pteUs) = e &&& ~~~(pteRw ||| pteUs)) :
    (Present e' ↔ Present e) ∧ frameOf e' = frameOf e := by
  have hbit : ∀ i, i < 32 → (pteRw ||| pteUs).getLsbD i = false → e'.getLsbD i = e.getLsbD i := by
    intro i hi hclear
    have := congrArg (fun x => x.getLsbD i) h
    simpa only [BitVec.getLsbD_and, BitVec.getLsbD_not, hclear, hi, decide_true, Bool.not_false,
      Bool.and_true] using this
  constructor
  · rw [present_iff, present_iff, hbit 0 (by decide) rfl]
  · apply BitVec.eq_of_getLsbD_eq
    intro i hi
    have hclear : (pteRw ||| pteUs).getLsbD (12 + i) = false :=
      Nat.testBit_lt_two_pow (Nat.lt_of_lt_of_le (show (pteRw ||| pteUs).toNat < 2 ^ 12 by decide)
        (Nat.pow_le_pow_right (by decide) (Nat.le_add_right 12 i)))
    simp only [frameOf, BitVec.getLsbD_extractLsb', hbit (12 + i) (by omega) hclear]

/-- The same directory is loaded, and its walks go the same way: every entry is
as present as it was, and names the same frame. -/
structure Alike (m m' : Mmu) : Prop where
  cr3 : m'.cr3 = m.cr3
  present : ∀ f i, Present (m'.mem f i) ↔ Present (m.mem f i)
  frame : ∀ f i, frameOf (m'.mem f i) = frameOf (m.mem f i)

/-- The page has a table. -/
def Mmu.Tabled (m : Mmu) (va : U32) : Prop := Present (m.mem m.cr3 (pdIndex va))

instance (m : Mmu) (va : U32) : Decidable (m.Tabled va) := inferInstanceAs (Decidable (Present _))

variable {m m' : Mmu} {r r' : Regs} {va w flags virt : U32} {n : Nat}

theorem Alike.self (h : Alike m m') (hself : SelfMapped m.mem m.cr3) :
    SelfMapped m'.mem m'.cr3 where
  present := by
    rw [h.cr3]
    exact (h.present _ _).mpr hself.present
  frame := by
    rw [h.cr3, h.frame]
    exact hself.frame

theorem Alike.tabled (h : Alike m m') : m'.Tabled va ↔ m.Tabled va := by
  rw [Mmu.Tabled, Mmu.Tabled, h.cr3, h.present]

theorem Alike.pteWord (h : Alike m m') : m'.pteWord va = m.pteWord va := by
  rw [Mmu.pteWord, Mmu.pteWord, h.cr3, h.frame]

theorem Alike.entries (h : Alike m m') {w : Frame × Slot} :
    m'.Entries virt n w ↔ m.Entries virt n w := by
  simp only [Mmu.Entries, h.pteWord]

/-! ## Writing an entry -/

/-- The memory with the table entry of an address replaced. -/
def Mmu.putPte (m : Mmu) (va w : U32) : Mmu :=
  { m with mem := m.mem.write (m.pteWord va).1 (m.pteWord va).2 w }

theorem Mmu.putPte_mem (f : Frame) (i : Slot) :
    (m.putPte va w).mem f i = if (f, i) = m.pteWord va then w else m.mem f i := by
  show PhysMem.write _ _ _ _ f i = _
  simp only [PhysMem.write, Prod.ext_iff]

theorem Mmu.modify_pte (h : SelfMapped m.mem m.cr3) (hp : m.Tabled va) (f : U32 → U32) :
    m.modify (pgLocPte va) f = some (m.putPte va (f (m.pteOf va))) := by
  rw [Mmu.modify, load_pgLocPte h hp, Option.bind_eq_bind, Option.bind_some, store_pgLocPte h hp]
  rfl

theorem Mmu.modify_fault (h : SelfMapped m.mem m.cr3) (hp : ¬ m.Tabled va) (f : U32 → U32) :
    m.modify (pgLocPte va) f = none := by
  rw [Mmu.modify, Mmu.load, walk_pgLocPte h, if_neg (show ¬ Present _ from hp)]
  rfl

/-- Changing RW and US of one entry. -/
theorem alike_putPte (h : w &&& ~~~(pteRw ||| pteUs) = m.pteOf va &&& ~~~(pteRw ||| pteUs)) :
    Alike m (m.putPte va w) := by
  have hword : ∀ f i, (Present ((m.putPte va w).mem f i) ↔ Present (m.mem f i)) ∧
      frameOf ((m.putPte va w).mem f i) = frameOf (m.mem f i) := by
    intro f i
    rw [Mmu.putPte_mem]
    split
    · next hw =>
      obtain ⟨rfl, rfl⟩ := Prod.ext_iff.mp hw
      exact present_frameOf_kept h
    · exact ⟨Iff.rfl, rfl⟩
  exact ⟨rfl, fun f i => (hword f i).1, fun f i => (hword f i).2⟩

/-- Two changes of one entry. -/
theorem Alike.putPte_putPte (h : Alike m (m.putPte va w)) (w' : U32) :
    (m.putPte va w).putPte va w' = m.putPte va w' := by
  have hmem : ((m.putPte va w).putPte va w').mem = (m.putPte va w').mem := by
    funext f i
    rw [Mmu.putPte_mem, Mmu.putPte_mem, Mmu.putPte_mem, h.pteWord]
    split <;> rfl
  rw [Mmu.putPte, Mmu.putPte, Mmu.mk.injEq]
  exact ⟨hmem, rfl⟩

theorem Alike.pteOf_putPte (h : Alike m (m.putPte va w)) : (m.putPte va w).pteOf va = w := by
  rw [Mmu.pteOf, Mmu.putPte_mem, h.pteWord, if_pos rfl]

/-- The memory with the RW and US bits of one entry set. -/
def Mmu.setPte (m : Mmu) (flags va : U32) : Mmu := m.putPte va (setPriv flags (m.pteOf va))

theorem Mmu.setPte_mem (f : Frame) (i : Slot) : (m.setPte flags va).mem f i =
    if (f, i) = m.pteWord va then setPriv flags (m.pteOf va) else m.mem f i := Mmu.putPte_mem f i

theorem alike_setPte (m : Mmu) (flags va : U32) : Alike m (m.setPte flags va) :=
  alike_putPte (setPriv_kept _ _)

/-! ## One turn -/

/-- One turn sets the bits of the entry of `esi`, and counts. -/
theorem pgChgprivTurn_eq (h : SelfMapped m.mem m.cr3) (hp : m.Tabled r.esi)
    (hebx : r.ebx = flags &&& (pteRw ||| pteUs)) :
    ∃ r', pgChgprivTurn r m = some (r', m.setPte flags r.esi) ∧
      r'.esi = r.esi + pageSize ∧ r'.edx = r.edx - 1 ∧ r'.ebx = r.ebx := by
  have halike : Alike m (m.putPte r.esi (m.pteOf r.esi &&& ~~~(pteRw ||| pteUs))) :=
    alike_putPte (by rw [BitVec.and_assoc, BitVec.and_self])
  have hand := Mmu.modify_pte h hp (· &&& ~~~(pteRw ||| pteUs))
  have hor := Mmu.modify_pte (halike.self h) (halike.tabled.mpr hp) (· ||| r.ebx)
  rw [halike.putPte_putPte, halike.pteOf_putPte, hebx] at hor
  refine ⟨{ callPgLocPte r.esi r with esi := r.esi + pageSize, edx := r.edx - 1 }, ?_, rfl, rfl, rfl⟩
  -- the call leaves `ebx` alone
  have heax : (callPgLocPte r.esi r).eax = pgLocPte r.esi := rfl
  have hkept : (callPgLocPte r.esi r).ebx = flags &&& (pteRw ||| pteUs) := hebx
  simp only [pgChgprivTurn, heax, hkept, hand, hor, Option.bind_eq_bind, Option.bind_some]
  rfl

theorem pgChgprivTurn_fault (h : SelfMapped m.mem m.cr3) (hp : ¬ m.Tabled r.esi) :
    pgChgprivTurn r m = none := by
  have heax : (callPgLocPte r.esi r).eax = pgLocPte r.esi := rfl
  simp only [pgChgprivTurn, heax, Mmu.modify_fault h hp, Option.bind_eq_bind, Option.bind_none]

/-! ## The loop -/

/-- The loop stands before a turn, with `n` turns to go. -/
structure Going (flags : U32) (n : Nat) (r : Regs) (m : Mmu) : Prop where
  self : SelfMapped m.mem m.cr3
  edx : r.edx.toNat = n
  ebx : r.ebx = flags &&& (pteRw ||| pteUs)

theorem Going.step (h : Going flags (n + 1) r m) (hp : m.Tabled r.esi) :
    ∃ r', Going flags n r' (m.setPte flags r.esi) ∧ r'.esi = r.esi + pageSize ∧
      pgChgprivLp (n + 1) r m = if n = 0 then some (r', m.setPte flags r.esi)
        else pgChgprivLp n r' (m.setPte flags r.esi) := by
  obtain ⟨r', hturn, hesi, hcount, hebx⟩ := pgChgprivTurn_eq h.self hp h.ebx
  have hedx : r'.edx.toNat = n := by
    have := h.edx
    rw [hcount]
    bv_omega
  have hleave : r'.edx = 0 ↔ n = 0 := by
    rw [← hedx, ← BitVec.toNat_inj]
    rfl
  refine ⟨r', ⟨(alike_setPte m flags r.esi).self h.self, hedx, hebx.trans h.ebx⟩, hesi, ?_⟩
  simp only [pgChgprivLp, hturn, Option.bind_eq_bind, Option.bind_some, hleave]
  rfl

theorem pageAt_next (va : U32) (i : Nat) : pageAt (va + pageSize) i = pageAt va (i + 1) := by
  apply BitVec.eq_of_toNat_eq
  rw [pageAt, pageAt, BitVec.toNat_add, BitVec.toNat_add, BitVec.toNat_add, toNat_toAddr,
    toNat_toAddr, BitVec.toNat_ofNat, BitVec.toNat_ofNat, show pageSize.toNat = 4096 from rfl]
  omega

/-- The entries of a range are that of its first page and those of the others. -/
theorem Mmu.entries_succ {w : Frame × Slot} :
    m.Entries virt (n + 1) w ↔ w = m.pteWord virt ∨ m.Entries (virt + pageSize) n w := by
  constructor
  · rintro ⟨i, hi, rfl⟩
    cases i with
    | zero => exact Or.inl (by rw [pageAt_zero])
    | succ i => exact Or.inr ⟨i, by omega, by rw [pageAt_next]⟩
  · rintro (rfl | ⟨i, hi, rfl⟩)
    · exact ⟨0, Nat.succ_pos n, by rw [pageAt_zero]⟩
    · exact ⟨i + 1, by omega, by rw [pageAt_next]⟩

/-- The memory with the bits of the entries of `n` pages set. -/
def Mmu.paint (m : Mmu) (flags virt : U32) (n : Nat) : Mmu :=
  { m with mem := fun f i =>
      if m.Entries virt n (f, i) then setPriv flags (m.mem f i) else m.mem f i }

theorem Mmu.paint_zero (m : Mmu) (flags virt : U32) : m.paint flags virt 0 = m := by
  have hnone : ∀ w, ¬ m.Entries virt 0 w := fun _ ⟨i, hi, _⟩ => absurd hi (Nat.not_lt_zero i)
  simp only [Mmu.paint, hnone, if_false]

/-- Painting the first page and then the others. -/
theorem Mmu.paint_succ (m : Mmu) (flags virt : U32) (n : Nat) :
    (m.setPte flags virt).paint flags (virt + pageSize) n = m.paint flags virt (n + 1) := by
  have hentries : ∀ w, (m.setPte flags virt).Entries (virt + pageSize) n w ↔
      m.Entries (virt + pageSize) n w := fun _ => (alike_setPte m flags virt).entries
  rw [Mmu.paint, Mmu.paint, Mmu.mk.injEq]
  refine ⟨?_, rfl⟩
  funext f i
  simp only [hentries, Mmu.entries_succ, Mmu.setPte_mem]
  by_cases hw : (f, i) = m.pteWord virt
  · -- a page further on may have the same entry
    obtain ⟨rfl, rfl⟩ := Prod.ext_iff.mp hw
    simp only [hw, if_true, true_or, Mmu.pteOf, setPriv_idem, ite_self]
  · simp only [hw, if_false, false_or]

/-- **The loop as an equation**: where every page has a table, it paints as many
pages as `edx` says. -/
theorem Going.lp_eq (h : Going flags (n + 1) r m)
    (ht : ∀ i, i < n + 1 → m.Tabled (pageAt r.esi i)) :
    ∃ r', pgChgprivLp (n + 1) r m = some (r', m.paint flags r.esi (n + 1)) := by
  induction n generalizing r m with
  | zero =>
      obtain ⟨r', _, _, hrun⟩ := h.step (by simpa only [pageAt_zero] using ht 0 (Nat.succ_pos 0))
      exact ⟨r', by rw [hrun, if_pos rfl, ← Mmu.paint_succ, Mmu.paint_zero]⟩
  | succ n ih =>
      obtain ⟨r', hgo, hesi, hrun⟩ := h.step (by simpa only [pageAt_zero] using ht 0 (by omega))
      obtain ⟨r'', hrest⟩ := ih hgo (fun i hi => by
        rw [hesi, pageAt_next]
        exact (alike_setPte m flags r.esi).tabled.mpr (ht (i + 1) (by omega)))
      exact ⟨r'', by rw [hrun, if_neg (Nat.succ_ne_zero n), hrest, hesi, Mmu.paint_succ]⟩

/-- A page without a table stops the loop. -/
theorem Going.lp_fault (h : Going flags n r m) {i : Nat} (hi : i < n)
    (hno : ¬ m.Tabled (pageAt r.esi i)) : pgChgprivLp n r m = none := by
  induction n generalizing r m i with
  | zero => exact absurd hi (Nat.not_lt_zero i)
  | succ n ih =>
      by_cases hp : m.Tabled r.esi
      · obtain ⟨r', hgo, hesi, hrun⟩ := h.step hp
        cases i with
        | zero => exact absurd hp (by simpa only [pageAt_zero] using hno)
        | succ i =>
            rw [hrun, if_neg (by omega)]
            refine ih (i := i) hgo (by omega) fun hc => hno ?_
            rw [hesi, pageAt_next] at hc
            exact (alike_setPte m flags r.esi).tabled.mp hc
      · rw [pgChgprivLp, pgChgprivTurn_fault h.self hp]
        rfl

/-! ## The call -/

variable {left : CallerSaved} {count : U32}

theorem going_enter (h : SelfMapped m.mem m.cr3) (left : CallerSaved) (r : Regs)
    (virt flags count : U32) :
    Going flags left.edx.toNat (pgChgprivEnter left r m virt flags count) m where
  self := h
  edx := rfl
  ebx := rfl

/-- **`pg_chgpriv` as an equation**: it paints as many pages as `kdprintf` leaves
in `edx`, and gives the caller its registers back. -/
theorem pgChgpriv_eq (h : SelfMapped m.mem m.cr3)
    (ht : ∀ i, i < left.edx.toNat → m.Tabled (pageAt virt i)) (r : Regs) (flags count : U32) :
    ∃ r', pgChgpriv left r m virt flags count = some (r', m.paint flags virt left.edx.toNat) ∧
      r'.esi = r.esi ∧ r'.ebx = r.ebx ∧ r'.edx = r.edx := by
  have hgo := going_enter h left r virt flags count
  have hrun : ∃ r', pgChgprivTest (pgChgprivEnter left r m virt flags count) m =
      some (r', m.paint flags virt left.edx.toNat) := by
    have hedx : (pgChgprivEnter left r m virt flags count).edx = left.edx := rfl
    rw [pgChgprivTest, hedx]
    by_cases hzero : left.edx = 0
    · refine ⟨pgChgprivEnter left r m virt flags count, ?_⟩
      rw [if_pos hzero, hzero, show (0 : U32).toNat = 0 from rfl, Mmu.paint_zero]
      rfl
    · obtain ⟨n, hn⟩ : ∃ n, left.edx.toNat = n + 1 :=
        ⟨left.edx.toNat - 1, by bv_omega⟩
      rw [if_neg hzero, hn]
      rw [hn] at hgo ht
      exact hgo.lp_eq ht
  obtain ⟨r', hrun⟩ := hrun
  refine ⟨{ r' with edx := r.edx, ebx := r.ebx, esi := r.esi }, ?_, rfl, rfl, rfl⟩
  simp only [pgChgpriv, hrun, Option.bind_eq_bind, Option.bind_some]
  rfl

theorem pgChgpriv_fault (h : SelfMapped m.mem m.cr3) {i : Nat} (hi : i < left.edx.toNat)
    (hno : ¬ m.Tabled (pageAt virt i)) : pgChgpriv left r m virt flags count = none := by
  have hedx : (pgChgprivEnter left r m virt flags count).edx = left.edx := rfl
  have hne : left.edx ≠ 0 := by
    rintro h0
    rw [h0] at hi
    exact Nat.not_lt_zero i hi
  have hrun : pgChgprivTest (pgChgprivEnter left r m virt flags count) m = none := by
    rw [pgChgprivTest, hedx, if_neg hne]
    exact (going_enter h left r virt flags count).lp_fault hi hno
  simp only [pgChgpriv, hrun, Option.bind_eq_bind, Option.bind_none]

/-! ## The count -/

/-- The change that is asked for is to paint `count` pages. -/
theorem privChanged_iff :
    PrivChanged m virt flags count m' ↔ m' = m.paint flags virt count.toNat := by
  constructor
  · intro h
    have hmem : m'.mem = (m.paint flags virt count.toNat).mem := by
      funext f i
      show _ = if _ then _ else _
      split
      · next he => exact eq_setPriv (h.set f i he) (h.kept f i he)
      · next he => exact h.other f i he
    cases m'
    rw [Mmu.paint, Mmu.mk.injEq]
    exact ⟨hmem, h.cr3⟩
  · rintro rfl
    refine ⟨rfl, fun f i he => ?_, fun f i he => ?_, fun f i he => if_neg he⟩
    · rw [show (m.paint flags virt count.toNat).mem f i = _ from if_pos he]
      exact hasPriv_setPriv _ _
    · rw [show (m.paint flags virt count.toNat).mem f i = _ from if_pos he]
      exact setPriv_kept _ _

/-- The entry of an address is among those of `n` pages, or has the bits already. -/
def Mmu.Settled (m : Mmu) (virt flags : U32) (n : Nat) (va : U32) : Prop :=
  m.Entries virt n (m.pteWord va) ∨ HasPriv flags (m.pteOf va)

theorem Mmu.paint_mem (f : Frame) (i : Slot) : (m.paint flags virt n).mem f i =
    if m.Entries virt n (f, i) then setPriv flags (m.mem f i) else m.mem f i := rfl

/-- Painting more pages changes nothing exactly if each of them is settled. -/
theorem Mmu.paint_eq_iff {k : Nat} (hk : k ≤ n) :
    m.paint flags virt n = m.paint flags virt k ↔
      ∀ i, k ≤ i → i < n → m.Settled virt flags k (pageAt virt i) := by
  constructor
  · intro h i _ hi
    by_cases he : m.Entries virt k (m.pteWord (pageAt virt i))
    · exact Or.inl he
    · right
      have hword := congrArg
        (fun u : Mmu => u.mem (m.pteWord (pageAt virt i)).1 (m.pteWord (pageAt virt i)).2) h
      rw [Mmu.paint_mem, Mmu.paint_mem, if_pos ⟨i, hi, rfl⟩, if_neg he] at hword
      exact setPriv_eq_iff.mp hword
  · intro h
    have hmem : (m.paint flags virt n).mem = (m.paint flags virt k).mem := by
      funext f i
      rw [Mmu.paint_mem, Mmu.paint_mem]
      by_cases he : m.Entries virt k (f, i)
      · have hmore : m.Entries virt n (f, i) := by
          obtain ⟨j, hj, hw⟩ := he
          exact ⟨j, by omega, hw⟩
        rw [if_pos he, if_pos hmore]
      · rw [if_neg he]
        split
        · next hmore =>
          obtain ⟨j, hj, hw⟩ := hmore
          have hkj : k ≤ j := Nat.le_of_not_lt fun hlt => he ⟨j, hlt, hw⟩
          have hset := (h j hkj hj).resolve_left fun hc => he (hw ▸ hc)
          obtain ⟨rfl, rfl⟩ := Prod.ext_iff.mp hw
          exact setPriv_eq_iff.mpr hset
        · rfl
    rw [Mmu.paint, Mmu.paint, Mmu.mk.injEq]
    exact ⟨hmem, rfl⟩

/-- The pages between the two counts are settled by the shorter run. -/
theorem Mmu.paint_eq_between (k n : Nat) :
    m.paint flags virt n = m.paint flags virt k ↔
      ∀ i, min k n ≤ i → i < max k n → m.Settled virt flags (min k n) (pageAt virt i) := by
  rcases Nat.le_total k n with h | h
  · rw [Nat.min_eq_left h, Nat.max_eq_right h]
    exact Mmu.paint_eq_iff h
  · rw [Nat.min_eq_right h, Nat.max_eq_left h, eq_comm]
    exact Mmu.paint_eq_iff h

/-- A page that is mapped has a table. -/
theorem tabled_of_walk (h : walk m.mem m.cr3 va ≠ none) : m.Tabled va := by
  by_contra hno
  exact h (if_neg hno)

/-- **What `pg_chgpriv` changes.**  Exactly the `count` entries have their bits
changed, if and only if each page between `count` and what `kdprintf` leaves in
`edx` has a table, and an entry that is settled. -/
theorem pgChgpriv_iff (h : SelfMapped m.mem m.cr3)
    (hmapped : ∀ i, i < count.toNat → walk m.mem m.cr3 (pageAt virt i) ≠ none) :
    (∃ r' m', pgChgpriv left r m virt flags count = some (r', m') ∧
        PrivChanged m virt flags count m') ↔
      ∀ i, min count.toNat left.edx.toNat ≤ i → i < max count.toNat left.edx.toNat →
        m.Tabled (pageAt virt i) ∧
          m.Settled virt flags (min count.toNat left.edx.toNat) (pageAt virt i) := by
  have htabled : ∀ i, i < count.toNat → m.Tabled (pageAt virt i) :=
    fun i hi => tabled_of_walk (hmapped i hi)
  constructor
  · rintro ⟨r', m', hrun, hchanged⟩
    have ht : ∀ i, i < left.edx.toNat → m.Tabled (pageAt virt i) := by
      intro i hi
      by_contra hno
      rw [pgChgpriv_fault h hi hno] at hrun
      exact Option.some_ne_none _ hrun.symm
    obtain ⟨r'', heq, _⟩ := pgChgpriv_eq h ht r flags count
    rw [heq, Option.some.injEq, Prod.mk.injEq] at hrun
    have hsame := hrun.2.trans (privChanged_iff.mp hchanged)
    intro i hlo hhi
    refine ⟨?_, (Mmu.paint_eq_between _ _).mp hsame i hlo hhi⟩
    by_cases hi : i < count.toNat
    · exact htabled i hi
    · exact ht i (by omega)
  · intro hbetween
    have ht : ∀ i, i < left.edx.toNat → m.Tabled (pageAt virt i) := by
      intro i hi
      by_cases hlt : i < count.toNat
      · exact htabled i hlt
      · exact (hbetween i (by omega) (by omega)).1
    obtain ⟨r', heq, _⟩ := pgChgpriv_eq h ht r flags count
    refine ⟨r', _, heq, privChanged_iff.mpr ?_⟩
    exact (Mmu.paint_eq_between _ _).mpr fun i hlo hhi => (hbetween i hlo hhi).2

/-! ## One read-only page -/

/-- The directory in frame 1, the first table in frame 2, and its first page
mapped to frame 3, for the kernel and to be read. -/
def readOnlyMmu : Mmu where
  mem f i :=
    if f = 1 ∧ i = 1023 then frameAddr 1 ||| (pteRw ||| pteP)
    else if f = 1 ∧ i = 0 then frameAddr 2 ||| (pteRw ||| pteP)
    else if f = 2 ∧ i = 0 then frameAddr 3 ||| pteP
    else pteNp
  cr3 := 1

def zeroRegs : Regs := ⟨0, 0, 0, 0, 0⟩

theorem readOnlyMmu_self : SelfMapped readOnlyMmu.mem readOnlyMmu.cr3 := ⟨by decide, by decide⟩

theorem readOnlyMmu_mapped : ∀ i, i < (1 : U32).toNat →
    walk readOnlyMmu.mem readOnlyMmu.cr3 (pageAt 0 i) ≠ none := by
  intro i hi
  obtain rfl : i = 0 := Nat.lt_one_iff.mp hi
  decide

/-- With the count back in `edx` the page is made writable. -/
theorem pgChgpriv_iff_kept :
    ∃ r' m', pgChgpriv ⟨0, 0, 1⟩ zeroRegs readOnlyMmu 0 pteRw 1 = some (r', m') ∧
      PrivChanged readOnlyMmu 0 pteRw 1 m' :=
  (pgChgpriv_iff readOnlyMmu_self readOnlyMmu_mapped).mpr fun _ hlo hhi =>
    absurd hhi (Nat.not_lt_of_le hlo)

/-- With 0 in `edx` it stays as it is. -/
theorem pgChgpriv_lost_count : ¬ PgChgprivChanges := by
  intro hall
  obtain ⟨r', m', hrun, hchanged⟩ := hall ⟨0, 0, 0⟩ zeroRegs readOnlyMmu 0 pteRw 1
    readOnlyMmu_self readOnlyMmu_mapped
  have hsame : m' = readOnlyMmu := by
    have : some (zeroRegs, readOnlyMmu) = some (r', m') := hrun
    cases this
    rfl
  have hset := hchanged.set 2 0 ⟨0, by decide, by decide⟩
  rw [hsame] at hset
  exact absurd hset (by decide)

end Tomk
