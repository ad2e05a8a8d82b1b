/-
# Backed allocations

`vmm_alloc` reserves a run of pages and backs them one at a time with single
frames; `vmm_alloc_contiguous` backs them with one run of frames; `vmm_free`
unreserves, unmaps, and then looks the frames up.  The state they work in is
`Mm.Ready`: the two managers have their shape and the loaded directory is
wired over the window.

`Backed` is the invariant of the loop of `vmm_alloc`, by the list of the
frames taken so far, and `Unwinding` that of the rollback, by what is left
of the list.  Each function then has its cases: `vmmAlloc_cases`,
`vmmAllocContiguous_cases`, `vmmFree_eq`.  The last says what a release does
not do: no frame is given back.
-/
import Tomk.Mm.VmmSpec

namespace Tomk

open WordBits CFor

/-- What every call of the memory managers needs, and keeps. -/
structure Mm.Ready (L : Layout) (m : Mm) : Prop where
  vmm : m.vmm.Shape
  pmm : m.pmm.Shape
  /-- Page 0 is never free: its address is `NULL`. -/
  zero : 0 < m.pmm.totalPages.toNat → test m.pmm.bitmap 0 = true
  wired : Wired L (pdIndex m.vmm.base).toNat m.mmu.mem m.mmu.cr3

/-- What the loops need: page 0 of a window at address 0 may be free. -/
structure Mm.Windowed (L : Layout) (m : Mm) : Prop where
  vmm : m.vmm.Window
  pmm : m.pmm.Shape
  zero : 0 < m.pmm.totalPages.toNat → test m.pmm.bitmap 0 = true
  wired : Wired L (pdIndex m.vmm.base).toNat m.mmu.mem m.mmu.cr3

theorem Mm.Ready.windowed {L : Layout} {m : Mm} (h : m.Ready L) : m.Windowed L :=
  ⟨h.vmm.toWindow, h.pmm, h.zero, h.wired⟩

/-- The page number of page `p` of the window. -/
def Vmm.first (v : Vmm) (p : Nat) : Nat := pageNo v.base + p

/-- `u` is `m` with pages `p, …` of the window mapped to the frames `F`. -/
structure Backed (L : Layout) (m : Mm) (p : Nat) (F : List Nat) (u : Mm) : Prop where
  vmm : u.vmm = m.vmm
  took : m.pmm.Took F u.pmm
  cr3 : u.mmu.cr3 = m.mmu.cr3
  touched : Touched L m.mmu.cr3 (InRun (m.vmm.first p) F.length) m.mmu.mem u.mmu.mem
  mapped : ∀ j f, F[j]? = some f →
    Present (u.mmu.mem m.mmu.cr3 (slotOf (m.vmm.first p + j))) ∧
      L.pte u.mmu.mem (m.vmm.first p + j) = newPte (toAddr (BitVec.ofNat 32 f)) pteRw

/-- `u` is on the way back from `k` mapped pages to `m`: `j` pages are
unmapped and free again, and the frames `F` are still taken. -/
structure Unwinding (L : Layout) (m : Mm) (p k j : Nat) (F : List Nat) (u : Mm) : Prop where
  length : j + F.length = k
  vmm : u.vmm = { m.vmm with bitmap := clearRun m.vmm.bitmap p j }
  took : m.pmm.Took F u.pmm
  cr3 : u.mmu.cr3 = m.mmu.cr3
  touched : Touched L m.mmu.cr3 (InRun (m.vmm.first p) k) m.mmu.mem u.mmu.mem
  mapped : ∀ i f, F[i]? = some f →
    Present (u.mmu.mem m.mmu.cr3 (slotOf (m.vmm.first p + j + i))) ∧
      L.pte u.mmu.mem (m.vmm.first p + j + i) = newPte (toAddr (BitVec.ofNat 32 f)) pteRw

variable {L : Layout} {m u : Mm} {p k : Nat} {F : List Nat}

/-! ## Looking a page up -/

theorem Vmm.Window.addr_offset {v : Vmm} (h : v.Window) (hp : p < v.totalPages.toNat) :
    v.addr p &&& (pageSize - 1) = 0 := by
  have := h.base_aligned
  apply BitVec.eq_of_toNat_eq
  rw [toNat_pageOffset, h.toNat_addr hp]
  show _ = 0
  omega

/-- The address of a frame comes back out of its table entry. -/
theorem physOf_frame {va : U32} (hva : va &&& (pageSize - 1) = 0) (f : Nat) :
    physOf va (some (frameOf (newPte (toAddr (BitVec.ofNat 32 f)) pteRw)))
      = toAddr (BitVec.ofNat 32 f) := by
  have hzero : ∀ x : U32, (0 : U32) ||| x = x := fun x => BitVec.zero_or
  rw [physOf, hva, hzero, frameOf_newPte]
  apply BitVec.eq_of_toNat_eq
  rw [toNat_frameAddr, toNat_frameOf, toNat_toAddr]
  omega

/-- `pg_virt2phys` of a page whose table entry was written by `vmm_alloc`. -/
theorem pgVirt2phys_mapped (hw : Wired L (pdIndex m.vmm.base).toNat m.mmu.mem m.mmu.cr3)
    (hv : m.vmm.Window) (hp : p < m.vmm.totalPages.toNat) {f : Nat}
    (hpde : Present (m.mmu.mem m.mmu.cr3 (slotOf (m.vmm.first p))))
    (hpte : L.pte m.mmu.mem (m.vmm.first p) = newPte (toAddr (BitVec.ofNat 32 f)) pteRw) :
    pgVirt2phys m.mmu (m.vmm.addr p) = some (toAddr (BitVec.ofNat 32 f)) := by
  have hpage : pageNo (m.vmm.addr p) = m.vmm.first p := hv.pageNo_addr hp
  rw [pgVirt2phys_eq hw.self, walk_wired hw (hv.inSlots hp), ← slotOf_pageNo, hpage, hpte,
    if_pos ⟨hpde, present_newPte _ _⟩, physOf_frame (hv.addr_offset hp)]

/-! ## The rollback -/

theorem Unwinding.turn (hm : m.Windowed L) {j f : Nat} (hk : p + k ≤ m.vmm.totalPages.toNat)
    (h : Unwinding L m p k j (f :: F) u) :
    ∃ u', rollbackTurn (m.vmm.addr p) j u = some u' ∧ Unwinding L m p k (j + 1) F u' := by
  obtain ⟨hlen, hvmm, htook, hcr3, htouched, hmapped⟩ := h
  rw [List.length_cons] at hlen
  have hlt : p + j < m.vmm.totalPages.toNat := by omega
  obtain ⟨hs1, hs2⟩ := hm.vmm.slots
  have hshape : u.vmm.Window := by
    rw [hvmm]
    exact hm.vmm.withBits _ _ _ _
  have htot : u.vmm.totalPages = m.vmm.totalPages := by rw [hvmm]
  have haddr : pageAt (m.vmm.addr p) j = u.vmm.addr (p + j) := by
    rw [Vmm.pageAt_addr, hvmm]
    rfl
  have hfirst : u.vmm.first (p + j) = m.vmm.first p + j := by
    rw [hvmm]
    show pageNo m.vmm.base + (p + j) = pageNo m.vmm.base + p + j
    omega
  have hwired : Wired L (pdIndex u.vmm.base).toNat u.mmu.mem u.mmu.cr3 := by
    rw [hcr3, hvmm]
    exact hm.wired.touched htouched
  obtain ⟨hpde, hpte⟩ := hmapped 0 f rfl
  rw [Nat.add_zero] at hpde hpte
  rw [← hcr3, ← hfirst] at hpde
  rw [← hfirst] at hpte
  have hlook := pgVirt2phys_mapped hwired hshape (htot ▸ hlt) hpde hpte
  obtain ⟨hfrees, _, hne⟩ := htook.frees hm.pmm List.mem_cons_self
  have hpage : pageNo (u.vmm.addr (p + j)) = u.vmm.first (p + j) := hshape.pageNo_addr (htot ▸ hlt)
  have hfb : u.vmm.first (p + j) = pageNo m.vmm.base + (p + j) := by
    rw [hvmm]
    rfl
  have hbase : u.vmm.base = m.vmm.base := by rw [hvmm]
  obtain ⟨mem', hrun, ht', hdir, _⟩ := pgUnmap_wired (m := u.mmu) hwired
    (u.vmm.addr (p + j)) 1 (by rw [hbase]; omega) (by have : (1 : U32).toNat = 1 := rfl; omega)
  rw [hpage, hfirst] at ht'
  refine ⟨⟨vmmClear u.vmm (u.vmm.addr (p + j)), pmmFree u.pmm (toAddr (BitVec.ofNat 32 f)) 1,
    { u.mmu with mem := mem' }⟩, ?_, ?_⟩
  · simp only [rollbackTurn, haddr, hlook, Option.bind_eq_bind, Option.bind_some, ne_eq, hne,
      not_false_eq_true, if_true, hrun, Option.pure_def]
  · refine ⟨by omega, ?_, htook.free hm.pmm, hcr3, ?_, fun i g hg => ?_⟩
    · show vmmClear u.vmm (u.vmm.addr (p + j)) = _
      rw [vmmClear_eq hshape (htot ▸ hlt), hvmm]
      rfl
    · rw [hcr3] at ht'
      refine (htouched.trans ht').mono fun q hq => ?_
      rcases hq with hq | ⟨h1, h2⟩
      · exact hq
      · have : (1 : U32).toNat = 1 := rfl
        exact ⟨by omega, by omega⟩
    · obtain ⟨h1, h2⟩ := hmapped (i + 1) g hg
      have hi : i < F.length := (List.getElem?_eq_some_iff.mp hg).1
      have hrange : m.vmm.first p + (j + 1) + i < 2 ^ 20 := by
        rw [Vmm.first]
        omega
      rw [show m.vmm.first p + j + (i + 1) = m.vmm.first p + (j + 1) + i by omega] at h1 h2
      refine ⟨?_, ?_⟩
      · show Present (mem' m.mmu.cr3 _)
        rw [← hcr3, hdir, hcr3]
        exact h1
      · show L.pte mem' _ = _
        rw [ht'.pte _ (by omega) fun hc => ?_, h2]
        have h3 := hc.2
        have : (1 : U32).toNat = 1 := rfl
        omega

/-- **`rollback_allocations`** gives back every frame and every page it is
asked to. -/
theorem rollbackAllocations_eq (hm : m.Windowed L) (hk : p + F.length ≤ m.vmm.totalPages.toNat)
    (h : Unwinding L m p F.length 0 F u) :
    ∃ u', rollbackAllocations u (m.vmm.addr p) F.length = some u' ∧
      Unwinding L m p F.length F.length [] u' := by
  have hloop := forFrom_some (a := 0) (n := F.length) (s := u) (f := rollbackTurn (m.vmm.addr p))
    (fun j t => Unwinding L m p F.length j (F.drop j) t) h
    (by
      intro j t _ hj ht
      rw [List.drop_eq_getElem_cons (by omega)] at ht
      exact Unwinding.turn hm hk ht)
  obtain ⟨u', hrun, hu⟩ := hloop
  rw [Nat.zero_add, List.drop_length] at hu
  exact ⟨u', hrun, hu⟩

/-! ## The loop of `vmm_alloc` -/

theorem Backed.refl (L : Layout) (m : Mm) (p : Nat) : Backed L m p [] m where
  vmm := rfl
  took := Pmm.Took.refl _
  cr3 := rfl
  touched := Touched.refl _ _ _ _
  mapped := fun j f hf => by simp at hf

/-- A frame is there: one more page is mapped. -/
theorem Backed.turn (hm : m.Windowed L) (hp : p + F.length < m.vmm.totalPages.toNat)
    (h : Backed L m p F u) (hne : (pmmAlloc u.pmm 1).1 ≠ 0) :
    ∃ f u', (vmmAllocTurn L (m.vmm.addr p) F.length u).run = some (.ok u') ∧
      Backed L m p (F ++ [f]) u' := by
  obtain ⟨hvmm, htook, hcr3, htouched, hmapped⟩ := h
  obtain ⟨hs1, hs2⟩ := hm.vmm.slots
  obtain ⟨f, hphys, htook'⟩ := htook.alloc hm.pmm hne
  have hw : Wired L (pdIndex m.vmm.base).toNat u.mmu.mem u.mmu.cr3 := by
    rw [hcr3]
    exact hm.wired.touched htouched
  have hpage : pageNo (m.vmm.addr (p + F.length)) = m.vmm.first p + F.length := by
    rw [hm.vmm.pageNo_addr hp, Vmm.first, Nat.add_assoc]
  have hfirst : m.vmm.first p = pageNo m.vmm.base + p := rfl
  have h1 : (1 : U32).toNat = 1 := rfl
  obtain ⟨mem', hrun, ht', hpte⟩ := pgMap_wired hw (m.vmm.addr (p + F.length))
    (pmmAlloc u.pmm 1).1 pteRw 1 (by omega) (by omega)
  obtain ⟨hpde, hnew⟩ := hpte 0 (by decide)
  rw [Nat.add_zero, hpage] at hpde
  rw [Nat.add_zero, hpage, pageAt_zero, hphys] at hnew
  rw [hpage] at ht'
  refine ⟨f, { u with pmm := (pmmAlloc u.pmm 1).2, mmu := { u.mmu with mem := mem' } }, ?_, ?_⟩
  · simp only [vmmAllocTurn, if_neg hne, Vmm.pageAt_addr, hrun]
    rfl
  · refine ⟨hvmm, htook', hcr3, ?_, fun j g hg => ?_⟩
    · rw [hcr3] at ht'
      refine (htouched.trans ht').mono fun q hq => ?_
      rw [List.length_append, List.length_singleton]
      rcases hq with ⟨h2, h3⟩ | ⟨h2, h3⟩ <;> exact ⟨by omega, by omega⟩
    · have hj : j < F.length + 1 := by
        have := (List.getElem?_eq_some_iff.mp hg).1
        rwa [List.length_append, List.length_singleton] at this
      rcases Nat.lt_succ_iff_lt_or_eq.mp hj with hlt | rfl
      · rw [List.getElem?_append_left hlt] at hg
        obtain ⟨h2, h3⟩ := hmapped j g hg
        refine ⟨?_, ?_⟩
        · show Present (mem' m.mmu.cr3 _)
          rw [← hcr3] at h2 ⊢
          rw [ht'.pde _ h2]
          exact h2
        · show L.pte mem' _ = _
          rw [ht'.pte _ (by omega) fun hc => by have := hc.1; omega, h3]
      · rw [List.getElem?_concat_length] at hg
        cases hg
        rw [hcr3] at hpde
        exact ⟨hpde, hnew⟩

/-- No frame is there: everything is rolled back. -/
theorem Backed.exhausted (hm : m.Windowed L) (hp : p + F.length < m.vmm.totalPages.toNat)
    (h : Backed L m p F u) (he : (pmmAlloc u.pmm 1).1 = 0) :
    ∃ u', (vmmAllocTurn L (m.vmm.addr p) F.length u).run = some (.error (0, u')) ∧
      Unwinding L m p F.length F.length [] u' := by
  obtain ⟨hvmm, htook, hcr3, htouched, hmapped⟩ := h
  have htook' := htook.alloc_zero hm.pmm hm.zero he
  have hstart : Unwinding L m p F.length 0 F { u with pmm := (pmmAlloc u.pmm 1).2 } := by
    refine ⟨Nat.zero_add _, hvmm, htook', hcr3, htouched, fun i f hf => ?_⟩
    rw [Nat.add_zero]
    exact hmapped i f hf
  obtain ⟨u', hrun, hu⟩ := rollbackAllocations_eq hm (Nat.le_of_lt hp) hstart
  refine ⟨u', ?_, hu⟩
  simp only [vmmAllocTurn, if_pos he, hrun]
  rfl

/-! ## The allocations -/

/-- The state after the reservation. -/
def Mm.withReserved (m : Mm) (p : Nat) (n lr : U32) : Mm := { m with vmm := m.vmm.reserved p n lr }

theorem Mm.Ready.reserved (hm : m.Ready L) (p : Nat) (n lr : U32) : (m.withReserved p n lr).Ready L :=
  ⟨hm.vmm.reserved p n lr, hm.pmm, hm.zero, hm.wired⟩

theorem Mm.Windowed.reserved (hm : m.Windowed L) (p : Nat) (n lr : U32) :
    (m.withReserved p n lr).Windowed L :=
  ⟨hm.vmm.withBits _ _ _ _, hm.pmm, hm.zero, hm.wired⟩

/-- The loop of `vmm_alloc`, once the range is reserved. -/
theorem vmmAlloc_loop (hm : m.Windowed L) {n lr : U32} (hle : p + n.toNat ≤ m.vmm.totalPages.toNat)
    (h0 : m.vmm.addr p ≠ 0) (hr : vmmReserve m.vmm n = (m.vmm.addr p, m.vmm.reserved p n lr)) :
    ∃ F u, (F.length = n.toNat ∧ Backed L (m.withReserved p n lr) p F u ∧
        vmmAlloc L m n = some (m.vmm.addr p, u)) ∨
      (F.length < n.toNat ∧ (m.pmm.Consistent → F.length = m.pmm.freePages.toNat) ∧
        Unwinding L (m.withReserved p n lr) p F.length F.length [] u ∧
        vmmAlloc L m n = some (0, u)) := by
  have hm' := hm.reserved p n lr
  have hloop := forFrom_exit (a := 0) (n := n.toNat) (s := m.withReserved p n lr)
    (f := vmmAllocTurn L (m.vmm.addr p))
    (fun k t => ∃ F : List Nat, F.length = k ∧ Backed L (m.withReserved p n lr) p F t)
    (fun k r => ∃ (F : List Nat) (u : Mm), F.length = k ∧ r = ((0 : U32), u) ∧
      (m.pmm.Consistent → F.length = m.pmm.freePages.toNat) ∧
      Unwinding L (m.withReserved p n lr) p F.length F.length [] u)
    ⟨[], rfl, Backed.refl L _ p⟩
    (by
      rintro k t _ hk ⟨F, rfl, ht⟩
      have hlt : p + F.length < (m.withReserved p n lr).vmm.totalPages.toNat := by
        show p + F.length < m.vmm.totalPages.toNat
        omega
      by_cases he : (pmmAlloc t.pmm 1).1 = 0
      · obtain ⟨u, hrun, hu⟩ := ht.exhausted hm' hlt he
        refine Or.inr ⟨(0, u), hrun, F, u, rfl, rfl, fun hc => ?_, hu⟩
        have hfree : t.pmm.freePages = 0 := by
          by_contra hne
          exact (pmmAlloc_one_ne_zero_iff (ht.took.consistent hc)).mpr hne he
        have hleft := ht.took.free_left hc
        rw [hfree] at hleft
        have hz : (0 : U32).toNat = 0 := rfl
        have hm0 : (m.withReserved p n lr).pmm = m.pmm := rfl
        rw [hm0] at hleft
        omega
      · obtain ⟨f, u, hrun, hu⟩ := ht.turn hm' hlt he
        exact Or.inl ⟨u, hrun, F ++ [f], by rw [List.length_append, List.length_singleton], hu⟩)
  rcases hloop with ⟨u, hrun, F, hF, hu⟩ | ⟨k, r, _, hk, hrun, F, u, rfl, rfl, hc, hu⟩
  · refine ⟨F, u, Or.inl ⟨by omega, hu, ?_⟩⟩
    have hrun' : (forFrom (vmmAllocTurn L (m.vmm.addr p)) 0 n.toNat
      { m with vmm := m.vmm.reserved p n lr }).run = some (.ok u) := hrun
    simp only [vmmAlloc, hr, if_neg h0, hrun']
    rfl
  · refine ⟨F, u, Or.inr ⟨by omega, hc, hu, ?_⟩⟩
    have hrun' : (forFrom (vmmAllocTurn L (m.vmm.addr p)) 0 n.toNat
      { m with vmm := m.vmm.reserved p n lr }).run = some (.error (0, u)) := hrun
    simp only [vmmAlloc, hr, if_neg h0, hrun']
    rfl

/-- **`vmm_alloc`**: nothing is reserved; or every page is backed; or the
frames run out after some pages, which are given back. -/
theorem vmmAlloc_cases (hm : m.Ready L) (n : U32) :
    (¬ m.vmm.Reservable n ∧
      ∃ lr, vmmAlloc L m n = some (0, { m with vmm := { m.vmm with largestRun := lr } })) ∨
    (m.vmm.Reservable n ∧ ∃ p lr F u,
      FirstRun m.vmm.bitmap m.vmm.totalPages.toNat n.toNat p ∧ m.vmm.addr p ≠ 0 ∧
      ((F.length = n.toNat ∧ Backed L (m.withReserved p n lr) p F u ∧
          vmmAlloc L m n = some (m.vmm.addr p, u)) ∨
        (F.length < n.toNat ∧ (m.pmm.Consistent → F.length = m.pmm.freePages.toNat) ∧
          Unwinding L (m.withReserved p n lr) p F.length F.length [] u ∧
          vmmAlloc L m n = some (0, u)))) := by
  rcases vmmReserve_cases hm.vmm n with ⟨hno, lr, hr⟩ | ⟨hres, p, lr, hf, h0, hr⟩
  · refine Or.inl ⟨hno, lr, ?_⟩
    simp only [vmmAlloc, hr, if_true]
    rfl
  · obtain ⟨F, u, h⟩ := vmmAlloc_loop hm.windowed hf.le_total h0 hr
    exact Or.inr ⟨hres, p, lr, F, u, hf, h0, h⟩

/-- `mem'` has `n` pages from page `p` of the window on mapped to the frames from
`phys` on. -/
structure RunMapped (L : Layout) (m : Mm) (p : Nat) (n phys : U32) (mem' : PhysMem) : Prop where
  touched : Touched L m.mmu.cr3 (InRun (m.vmm.first p) n.toNat) m.mmu.mem mem'
  mapped : ∀ j, j < n.toNat → Present (mem' m.mmu.cr3 (slotOf (m.vmm.first p + j))) ∧
    L.pte mem' (m.vmm.first p + j) = newPte (pageAt phys j) pteRw

/-- The rest of `vmm_alloc_contiguous`, once the range is reserved. -/
theorem vmmAllocContiguous_rest (hm : m.Windowed L) {n lr : U32} (hn : n ≠ 0)
    (hle : p + n.toNat ≤ m.vmm.totalPages.toNat) (h0 : m.vmm.addr p ≠ 0)
    (hr : vmmReserve m.vmm n = (m.vmm.addr p, m.vmm.reserved p n lr)) :
    ((pmmAlloc m.pmm n).1 ≠ 0 ∧ ∃ mem',
        RunMapped L m p n (pmmAlloc m.pmm n).1 mem' ∧
        vmmAllocContiguous L m n = some (m.vmm.addr p,
          ⟨m.vmm.reserved p n lr, (pmmAlloc m.pmm n).2, { m.mmu with mem := mem' }⟩)) ∨
      ((pmmAlloc m.pmm n).1 = 0 ∧ vmmAllocContiguous L m n =
        some (0, ⟨m.vmm.reserved p n lr, (pmmAlloc m.pmm n).2, m.mmu⟩)) := by
  by_cases hphys : (pmmAlloc m.pmm n).1 = 0
  · refine Or.inr ⟨hphys, ?_⟩
    simp only [vmmAllocContiguous, hr, if_neg h0, if_pos hphys]
    rfl
  · have hpos := toNat_pos_of_ne hn
    obtain ⟨hs1, hs2⟩ := hm.vmm.slots
    have hpage : pageNo (m.vmm.addr p) = pageNo m.vmm.base + p := hm.vmm.pageNo_addr (by omega)
    obtain ⟨mem', hrun, ht, hpte⟩ := pgMap_wired hm.wired (m.vmm.addr p)
      (pmmAlloc m.pmm n).1 pteRw n (by omega) (by omega)
    rw [hpage] at ht hpte
    refine Or.inl ⟨hphys, mem', ⟨ht, hpte⟩, ?_⟩
    simp only [vmmAllocContiguous, hr, if_neg h0, if_neg hphys, hrun]
    rfl

/-- **`vmm_alloc_contiguous`**: nothing is reserved; or the frames are found
and mapped; or no run of frames is found, and the reservation stays. -/
theorem vmmAllocContiguous_cases (hm : m.Ready L) (n : U32) :
    (¬ m.vmm.Reservable n ∧ ∃ lr, vmmAllocContiguous L m n
      = some (0, { m with vmm := { m.vmm with largestRun := lr } })) ∨
    (m.vmm.Reservable n ∧ ∃ p lr,
      FirstRun m.vmm.bitmap m.vmm.totalPages.toNat n.toNat p ∧ m.vmm.addr p ≠ 0 ∧
      (((pmmAlloc m.pmm n).1 ≠ 0 ∧ ∃ mem', RunMapped L m p n (pmmAlloc m.pmm n).1 mem' ∧
          vmmAllocContiguous L m n = some (m.vmm.addr p,
            ⟨m.vmm.reserved p n lr, (pmmAlloc m.pmm n).2, { m.mmu with mem := mem' }⟩)) ∨
        ((pmmAlloc m.pmm n).1 = 0 ∧ vmmAllocContiguous L m n =
          some (0, ⟨m.vmm.reserved p n lr, (pmmAlloc m.pmm n).2, m.mmu⟩)))) := by
  rcases vmmReserve_cases hm.vmm n with ⟨hno, lr, hr⟩ | ⟨hres, p, lr, hf, h0, hr⟩
  · refine Or.inl ⟨hno, lr, ?_⟩
    simp only [vmmAllocContiguous, hr, if_true]
    rfl
  · exact Or.inr ⟨hres, p, lr, hf, h0, vmmAllocContiguous_rest hm.windowed hres.1 hf.le_total h0 hr⟩

/-! ## The release -/

/-- **`vmm_free`** of a range of the window: the pages are unreserved and
unmapped, and so the lookups after that find nothing: no frame is freed, whatever
frames there are. -/
theorem vmmFree_wired (hv : m.vmm.Window)
    (hwired : Wired L (pdIndex m.vmm.base).toNat m.mmu.mem m.mmu.cr3) {n : U32}
    (hp : p + n.toNat ≤ m.vmm.totalPages.toNat) (hpt : p < m.vmm.totalPages.toNat) :
    ∃ mem', vmmFree m (m.vmm.addr p) n = some
        ⟨vmmUnreserve m.vmm (m.vmm.addr p) n, m.pmm, ⟨mem', m.mmu.cr3⟩⟩ ∧
      Touched L m.mmu.cr3 (InRun (m.vmm.first p) n.toNat) m.mmu.mem mem' := by
  obtain ⟨hs1, hs2⟩ := hv.slots
  have hpage : pageNo (m.vmm.addr p) = pageNo m.vmm.base + p := hv.pageNo_addr hpt
  obtain ⟨mem', hrun, ht, hdir, hpte⟩ := pgUnmap_wired hwired (m.vmm.addr p) n
    (by omega) (by omega)
  have hw := hwired.touched ht
  rw [hpage] at ht hpte
  refine ⟨mem', ?_, ht⟩
  let m' : Mm := ⟨vmmUnreserve m.vmm (m.vmm.addr p) n, m.pmm, { m.mmu with mem := mem' }⟩
  -- after the unmapping no page of the range is looked up to a frame
  have hturn : ∀ i, i < n.toNat → vmmFreeTurn (m.vmm.addr p) i m' = some m' := by
    intro i hi
    have hlt : p + i < m.vmm.totalPages.toNat := by omega
    have hpage' : pageNo (m.vmm.addr (p + i)) = pageNo m.vmm.base + p + i := by
      rw [hv.pageNo_addr hlt, Nat.add_assoc]
    have hnone : walk mem' m.mmu.cr3 (m.vmm.addr (p + i)) = none := by
      rw [walk_wired hw (hv.inSlots hlt), if_neg]
      rintro ⟨h1, h2⟩
      rw [hpage'] at h2
      rw [← slotOf_pageNo, hpage', hdir] at h1
      rw [hpte i hi] at h2
      split at h2
      · exact not_present_pteNp h2
      · next hno => exact hno ⟨h1, h2⟩
    have hlook : pgVirt2phys m'.mmu (m.vmm.addr (p + i)) = some 0 := by
      rw [pgVirt2phys_eq hw.self]
      show some (physOf _ (walk mem' m.mmu.cr3 _)) = _
      rw [hnone, physOf]
    simp only [vmmFreeTurn, Vmm.pageAt_addr, hlook, Option.bind_eq_bind, Option.bind_some, ne_eq,
      not_true_eq_false, if_false, Option.pure_def]
  have hloop := forFrom_some (a := 0) (n := n.toNat) (s := m') (f := vmmFreeTurn (m.vmm.addr p))
    (fun _ t => t = m') rfl (by
      rintro i t _ hi rfl
      exact ⟨m', hturn i (by omega), rfl⟩)
  obtain ⟨_, hloop, rfl⟩ := hloop
  simp only [vmmFree, hrun, Option.bind_eq_bind, Option.bind_some]
  exact hloop

theorem vmmFree_eq (hm : m.Windowed L) {n : U32} (hp : p + n.toNat ≤ m.vmm.totalPages.toNat)
    (hpt : p < m.vmm.totalPages.toNat) :
    ∃ mem', vmmFree m (m.vmm.addr p) n = some
        ⟨vmmUnreserve m.vmm (m.vmm.addr p) n, m.pmm, ⟨mem', m.mmu.cr3⟩⟩ ∧
      Touched L m.mmu.cr3 (InRun (m.vmm.first p) n.toNat) m.mmu.mem mem' :=
  vmmFree_wired hm.vmm hm.wired hp hpt

end Tomk
