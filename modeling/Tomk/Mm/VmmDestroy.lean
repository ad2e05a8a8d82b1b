/-
# `vmm_destroy`

The loop of `vmm_destroy` goes through the bitmap.  A page that is reserved is
looked up with `pg_virt2phys`, and when it has a frame it is unmapped and the
frame is given back.  The lookup is one under the directory that is loaded, which
need not be the one that the pages were mapped under.

The model keeps, beside the managers, what the loop has handed to `pmm_free`:
each page with its physical address.
-/
import Tomk.Mm.VmmBack

namespace Tomk

open WordBits CFor

/-- The managers, and what has been freed so far. -/
structure Destroying where
  mm : Mm
  freed : List (U32 × U32)

/-- Bit `bit` of word `i` is cleared. -/
def Destroying.unset (d : Destroying) (i bit : Nat) : Destroying :=
  let bitmap := fun j =>
    if j = i then d.mm.vmm.bitmap j &&& ~~~(1#32 <<< bit) else d.mm.vmm.bitmap j
  { d with mm := { d.mm with vmm := { d.mm.vmm with bitmap := bitmap } } }

/-- The loop over the bits of word `i`, which was `bits` when it began. -/
def vmmDestroyBit (bits : U32) (i bit : Nat) (d : Destroying) : Option Destroying := do
  let page := (BitVec.ofNat 32 i <<< 5) + BitVec.ofNat 32 bit
  -- the `break`: for the bits after this one the test is the same
  if d.mm.vmm.totalPages ≤ page then pure d
  else if bits &&& (1#32 <<< bit) = 0 then pure d
  else
    let virtAddr := d.mm.vmm.base + toAddr page
    let physAddr ← pgVirt2phys d.mm.mmu virtAddr
    if physAddr ≠ 0 then
      let mmu ← pgUnmap d.mm.mmu virtAddr 1
      let pmm := pmmFree d.mm.pmm physAddr 1
      pure (Destroying.unset ⟨⟨d.mm.vmm, pmm, mmu⟩, d.freed ++ [(virtAddr, physAddr)]⟩ i bit)
    else pure (d.unset i bit)

def vmmDestroyWord (i : Nat) (d : Destroying) : Option Destroying :=
  forFrom (vmmDestroyBit (d.mm.vmm.bitmap i) i) 0 32 d

/-- `vmm_destroy` up to the release of the bitmap. -/
def vmmDestroyPages (d : Destroying) : Option Destroying :=
  forFrom vmmDestroyWord 0 (d.mm.vmm.bitmapSize.toNat / 4) d

/-! ## What is freed -/

variable {L : Layout} {m : Mm} {d : Destroying}

/-- What the loop frees for page `p`. -/
def Mm.freedPage (m : Mm) (p : Nat) : Option (U32 × U32) :=
  if p < m.vmm.totalPages.toNat ∧ test m.vmm.bitmap p = true then
    (walk m.mmu.mem m.mmu.cr3 (m.vmm.addr p)).bind fun f =>
      if f = 0 then none else some (m.vmm.addr p, frameAddr f)
  else none

/-- What it frees for the first `k` pages. -/
def Mm.freedPages (m : Mm) (k : Nat) : List (U32 × U32) := (List.range k).filterMap m.freedPage

theorem Mm.freedPages_succ (m : Mm) (k : Nat) :
    m.freedPages (k + 1) = m.freedPages k ++ (m.freedPage k).toList := by
  rw [Mm.freedPages, Mm.freedPages, List.range_succ, List.filterMap_append]
  cases h : m.freedPage k <;> simp [h]

/-- The frames of a list, given back one by one. -/
def freeAll (s : Pmm) (freed : List (U32 × U32)) : Pmm :=
  freed.foldl (fun s x => pmmFree s x.2 1) s

/-- The loop has come to page `k`. -/
structure Destroyed (L : Layout) (m : Mm) (k : Nat) (d : Destroying) : Prop where
  vmm : ∃ b, d.mm.vmm = { m.vmm with bitmap := b } ∧ ∀ q, k ≤ q → test b q = test m.vmm.bitmap q
  freed : d.freed = m.freedPages k
  pmm : d.mm.pmm = freeAll m.pmm d.freed
  cr3 : d.mm.mmu.cr3 = m.mmu.cr3
  touched : Touched L m.mmu.cr3 (InRun (pageNo m.vmm.base) k) m.mmu.mem d.mm.mmu.mem
  dir : ∀ i, d.mm.mmu.mem m.mmu.cr3 i = m.mmu.mem m.mmu.cr3 i

/-- Page `k` is not reserved, or not a page. -/
theorem Destroyed.skip {k : Nat} (h : Destroyed L m k d) (hno : m.freedPage k = none) :
    Destroyed L m (k + 1) d := by
  obtain ⟨⟨b, hb, hbits⟩, hfreed, hpmm, hcr3, ht, hdir⟩ := h
  refine ⟨⟨b, hb, fun q hq => hbits q (by omega)⟩, ?_, hpmm, hcr3, ht.mono fun q hq => ?_, hdir⟩
  · rw [hfreed, Mm.freedPages_succ, hno, Option.toList_none, List.append_nil]
  · exact ⟨hq.1, Nat.lt_succ_of_lt hq.2⟩

/-- The clearing of a bit is seen at no other page. -/
theorem test_unset {i bit q : Nat} (hbit : bit < 32) (hq : q ≠ 32 * i + bit) :
    test (d.unset i bit).mm.vmm.bitmap q = test d.mm.vmm.bitmap q := by
  have heq : (d.unset i bit).mm.vmm.bitmap = clearBit d.mm.vmm.bitmap (32 * i + bit) := by
    funext j
    show (if j = i then _ else _) = if j = (32 * i + bit) / 32 then _ else _
    rw [show (32 * i + bit) / 32 = i by omega, show (32 * i + bit) % 32 = bit by omega]
  rw [heq, test_clearBit, decide_eq_false hq]
  rfl

/-- After its turn a page may be unset. -/
theorem Destroyed.unset {i bit : Nat} (hbit : bit < 32) (h : Destroyed L m (32 * i + bit + 1) d) :
    Destroyed L m (32 * i + bit + 1) (d.unset i bit) := by
  obtain ⟨⟨b, hb, hlater⟩, hfreed, hpmm, hcr3, ht, hdir⟩ := h
  refine ⟨⟨(d.unset i bit).mm.vmm.bitmap, ?_, fun q hq => ?_⟩, hfreed, hpmm, hcr3, ht, hdir⟩
  · simp only [Destroying.unset, hb]
  · rw [test_unset hbit (by omega), hb]
    exact hlater q hq

/-- Page `k` is looked up as it was at the start. -/
theorem Destroyed.lookup (hv : m.vmm.Window)
    (hw : Wired L (pdIndex m.vmm.base).toNat m.mmu.mem m.mmu.cr3) {k : Nat}
    (hk : k < m.vmm.totalPages.toNat) (h : Destroyed L m k d) :
    walk d.mm.mmu.mem d.mm.mmu.cr3 (m.vmm.addr k) = walk m.mmu.mem m.mmu.cr3 (m.vmm.addr k) := by
  have hpage := hv.pageNo_addr hk
  have hpte : L.pte d.mm.mmu.mem (pageNo (m.vmm.addr k)) = L.pte m.mmu.mem (pageNo (m.vmm.addr k)) :=
    h.touched.pte _ (pageNo_lt _) fun hc => by
      have := hc.2
      omega
  rw [h.cr3, walk_wired (hw.touched h.touched) (hv.inSlots hk), walk_wired hw (hv.inSlots hk),
    h.dir, hpte]

/-- The address of a frame that is looked up is 0 for frame 0 only. -/
theorem physOf_eq_zero_iff {va : U32} (hva : va &&& (pageSize - 1) = 0) {f : Frame} :
    physOf va (some f) = 0 ↔ f = 0 := by
  have hzero : ∀ x : U32, (0 : U32) ||| x = x := fun x => BitVec.zero_or
  rw [physOf, hva, hzero, ← BitVec.toNat_inj, ← BitVec.toNat_inj, toNat_frameAddr]
  show f.toNat * 4096 = 0 ↔ f.toNat = 0
  omega

/-- What is looked up at a reserved page, and what is freed for it: nothing where no frame is
there, or frame 0. -/
theorem Mm.freedPage_cases (hv : m.vmm.Window) {k : Nat} (hk : k < m.vmm.totalPages.toNat)
    (hset : test m.vmm.bitmap k = true) :
    (physOf (m.vmm.addr k) (walk m.mmu.mem m.mmu.cr3 (m.vmm.addr k)) = 0 ∧
      m.freedPage k = none) ∨
    ∃ f, physOf (m.vmm.addr k) (walk m.mmu.mem m.mmu.cr3 (m.vmm.addr k)) = frameAddr f ∧
      frameAddr f ≠ 0 ∧ m.freedPage k = some (m.vmm.addr k, frameAddr f) := by
  have hoff := hv.addr_offset hk
  rw [Mm.freedPage, if_pos ⟨hk, hset⟩]
  cases hwalk : walk m.mmu.mem m.mmu.cr3 (m.vmm.addr k) with
  | none => exact Or.inl ⟨rfl, rfl⟩
  | some f =>
      have hzero := physOf_eq_zero_iff hoff (f := f)
      have hphys : physOf (m.vmm.addr k) (some f) = frameAddr f := by
        rw [physOf, hoff]
        exact BitVec.zero_or
      rw [Option.bind_some]
      by_cases hf : f = 0
      · rw [if_pos hf]
        exact Or.inl ⟨hzero.mpr hf, rfl⟩
      · rw [if_neg hf]
        exact Or.inr ⟨f, hphys, hphys ▸ mt hzero.mp hf, rfl⟩

/-- A frame is given back, and its page unmapped. -/
theorem Destroyed.free (hv : m.vmm.Window)
    (hw : Wired L (pdIndex m.vmm.base).toNat m.mmu.mem m.mmu.cr3) {k : Nat}
    (hk : k < m.vmm.totalPages.toNat) (h : Destroyed L m k d) {f : Frame}
    (hsome : m.freedPage k = some (m.vmm.addr k, frameAddr f)) :
    ∃ mmu, pgUnmap d.mm.mmu (m.vmm.addr k) 1 = some mmu ∧
      Destroyed L m (k + 1) ⟨⟨d.mm.vmm, pmmFree d.mm.pmm (frameAddr f) 1, mmu⟩,
        d.freed ++ [(m.vmm.addr k, frameAddr f)]⟩ := by
  obtain ⟨⟨b, hb, hlater⟩, hfreed, hpmm, hcr3, ht, hdir⟩ := h
  have hwired := hw.touched ht
  rw [← hcr3] at hwired
  have hpaged := hv.pageNo_addr hk
  obtain ⟨hs1, hs2⟩ := hv.slots
  have hone : (1 : U32).toNat = 1 := rfl
  obtain ⟨mem', hrun, ht', hdir', _⟩ :=
    pgUnmap_wired (m := d.mm.mmu) hwired (m.vmm.addr k) 1 (by omega) (by omega)
  rw [hcr3] at ht' hdir'
  refine ⟨_, hrun, ⟨b, hb, fun q hq => hlater q (by omega)⟩, ?_, ?_, hcr3, ?_, fun s => ?_⟩
  · show d.freed ++ _ = _
    rw [hfreed, Mm.freedPages_succ, hsome, Option.toList_some]
  · show pmmFree d.mm.pmm (frameAddr f) 1 = freeAll m.pmm (d.freed ++ _)
    rw [freeAll, List.foldl_append, hpmm]
    rfl
  · refine (ht.trans ht').mono fun q hq => ?_
    rcases hq with ⟨h1, h2⟩ | ⟨h1, h2⟩ <;> exact ⟨by omega, by omega⟩
  · exact (hdir' s).trans (hdir s)

/-- A turn. -/
theorem Destroyed.turn (hv : m.vmm.Window)
    (hw : Wired L (pdIndex m.vmm.base).toNat m.mmu.mem m.mmu.cr3) {i bit : Nat} (hbit : bit < 32)
    {bits : U32} (hbits : bits.getLsbD bit = test m.vmm.bitmap (32 * i + bit))
    (hi : 32 * i + bit < 2 ^ 32) (h : Destroyed L m (32 * i + bit) d) :
    ∃ d', vmmDestroyBit bits i bit d = some d' ∧ Destroyed L m (32 * i + bit + 1) d' := by
  obtain ⟨b, hb, _⟩ := h.vmm
  have hpage : (BitVec.ofNat 32 i <<< 5) + BitVec.ofNat 32 bit = BitVec.ofNat 32 (32 * i + bit) := by
    rw [searchPage_eq, Nat.mul_comm]
  have htotal : d.mm.vmm.totalPages = m.vmm.totalPages := by rw [hb]
  have hbase : d.mm.vmm.base = m.vmm.base := by rw [hb]
  have hlt : (BitVec.ofNat 32 (32 * i + bit)).toNat = 32 * i + bit := by
    rw [BitVec.toNat_ofNat]
    omega
  have haddr : m.vmm.base + toAddr (BitVec.ofNat 32 (32 * i + bit)) = m.vmm.addr (32 * i + bit) := rfl
  simp only [vmmDestroyBit, hpage, htotal, hbase, BitVec.le_def, hlt, haddr]
  by_cases hout : m.vmm.totalPages.toNat ≤ 32 * i + bit
  · rw [if_pos hout]
    exact ⟨d, rfl, h.skip (if_neg fun hc => Nat.not_lt_of_le hout hc.1)⟩
  rw [if_neg hout]
  have hin := Nat.lt_of_not_le hout
  by_cases hset : bits.getLsbD bit = true
  case neg =>
    have hzero : bits &&& 1#32 <<< bit = 0 := by
      by_contra hne
      exact hset ((and_one_shiftLeft_ne_zero hbit).mp hne)
    rw [if_pos hzero]
    exact ⟨d, rfl, h.skip (if_neg fun hc => hset (hbits.trans hc.2))⟩
  rw [if_neg ((and_one_shiftLeft_ne_zero hbit).mpr hset)]
  have hself := (hw.touched h.touched).self
  rw [← h.cr3] at hself
  rw [pgVirt2phys_eq hself, h.lookup hv hw hin]
  simp only [Option.bind_eq_bind, Option.bind_some]
  rcases Mm.freedPage_cases hv hin (hbits ▸ hset) with ⟨hphys, hnone⟩ | ⟨f, hphys, hne, hsome⟩
  · simp only [hphys, ne_eq, not_true_eq_false, if_false]
    exact ⟨_, rfl, (h.skip hnone).unset hbit⟩
  · obtain ⟨mmu, hrun, hd⟩ := h.free hv hw hin hsome
    simp only [hphys, ne_eq, hne, not_false_eq_true, if_true, hrun, Option.bind_some]
    exact ⟨_, rfl, hd.unset hbit⟩

/-- One word: its bits are read before the first of them is cleared. -/
theorem Destroyed.word (hv : m.vmm.Window)
    (hw : Wired L (pdIndex m.vmm.base).toNat m.mmu.mem m.mmu.cr3) {i : Nat}
    (hi : 32 * i + 32 ≤ 2 ^ 32) (h : Destroyed L m (32 * i) d) :
    ∃ d', vmmDestroyWord i d = some d' ∧ Destroyed L m (32 * (i + 1)) d' := by
  obtain ⟨b, hb, hbits⟩ := h.vmm
  have hread : ∀ bit, bit < 32 →
      (d.mm.vmm.bitmap i).getLsbD bit = test m.vmm.bitmap (32 * i + bit) := by
    intro bit hbit
    have hlater := hbits (32 * i + bit) (Nat.le_add_right _ _)
    rw [test, show (32 * i + bit) / 32 = i by omega, show (32 * i + bit) % 32 = bit by omega] at hlater
    rw [hb]
    exact hlater
  have hloop := forFrom_some (a := 0) (n := 32) (s := d) (f := vmmDestroyBit (d.mm.vmm.bitmap i) i)
    (fun bit t => Destroyed L m (32 * i + bit) t) h
    (by
      intro bit t _ hbit ht
      exact ht.turn hv hw (by omega) (hread bit (by omega)) (by omega))
  exact hloop

/-- There is nothing to free behind the last page. -/
theorem Mm.freedPages_ge {m : Mm} {k : Nat} (hk : m.vmm.totalPages.toNat ≤ k) :
    m.freedPages k = m.freedPages m.vmm.totalPages.toNat := by
  obtain ⟨j, rfl⟩ := Nat.exists_eq_add_of_le hk
  clear hk
  induction j with
  | zero => rfl
  | succ j ih =>
    rw [← Nat.add_assoc, Mm.freedPages_succ, ih, Mm.freedPage, if_neg fun hc => by omega,
      Option.toList_none, List.append_nil]

/-- The loop comes to its end. -/
theorem vmmDestroyPages_done (hv : m.vmm.Window)
    (hw : Wired L (pdIndex m.vmm.base).toNat m.mmu.mem m.mmu.cr3) :
    ∃ d n, vmmDestroyPages ⟨m, []⟩ = some d ∧ m.vmm.totalPages.toNat ≤ n ∧ Destroyed L m n d := by
  have hsize := hv.size_eq
  have htotal := hv.total_eq
  have hstop := m.vmm.stop.isLt
  have hloop := forFrom_some (a := 0) (n := m.vmm.bitmapSize.toNat / 4) (s := (⟨m, []⟩ : Destroying))
    (f := vmmDestroyWord) (fun i t => Destroyed L m (32 * i) t)
    ⟨⟨m.vmm.bitmap, rfl, fun _ _ => rfl⟩, rfl, rfl, rfl, Touched.refl _ _ _ _, fun _ => rfl⟩
    (by
      intro i t _ hi ht
      exact ht.word hv hw (by omega))
  obtain ⟨d, hrun, h⟩ := hloop
  exact ⟨d, _, hrun, by omega, h⟩

/-- **The loop of `vmm_destroy`**: the frames that the loaded directory shows at
the reserved pages are given back, each by one call of `pmm_free`. -/
theorem vmmDestroyPages_eq (hv : m.vmm.Window)
    (hw : Wired L (pdIndex m.vmm.base).toNat m.mmu.mem m.mmu.cr3) :
    ∃ d, vmmDestroyPages ⟨m, []⟩ = some d ∧ d.freed = m.freedPages m.vmm.totalPages.toNat ∧
      d.mm.pmm = freeAll m.pmm d.freed := by
  obtain ⟨d, n, hrun, hn, h⟩ := vmmDestroyPages_done hv hw
  refine ⟨d, hrun, ?_, h.pmm⟩
  rw [h.freed]
  exact Mm.freedPages_ge hn

end Tomk
