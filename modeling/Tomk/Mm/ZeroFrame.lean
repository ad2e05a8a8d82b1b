/-
# Frame 0 and the memory managers

`pmm_alloc` returns 0 for nothing, and so frame 0 is never to be free: `pmm_init`
marks it used.  `Pmm.Sealed` is that, and what is needed to keep it.  Who gives a
frame back clears the bit of the page of the address: a call keeps the seal as long
as it does not pass 0 to `pmm_free`.

The functions of the two managers look before they do, and each keeps the seal
whenever it returns, whatever the tables and the arguments are.
-/
import Tomk.Mm.AddrSpace
import Tomk.Mm.VmmDestroy

namespace Tomk

open WordBits CFor

/-- Page 0 is in use, of the `T` pages that there are. -/
structure Pmm.Sealed (T : U32) (s : Pmm) : Prop where
  shape : s.Shape
  total : s.totalPages = T
  zero : 0 < T.toNat → test s.bitmap 0 = true

variable {T : U32} {s : Pmm} {L : Layout} {m m' : Mm}

theorem Pmm.Sealed.alloc (h : s.Sealed T) (n : U32) : (pmmAlloc s n).2.Sealed T := by
  have hs := pmmAlloc_shape h.shape n
  rcases pmmAlloc_cases h.shape n with ⟨hint, lr, hr⟩ | ⟨p, hint, lr, _, _, _, _, hr⟩
  · rw [hr] at hs ⊢
    exact ⟨hs, h.total, h.zero⟩
  · rw [hr] at hs ⊢
    refine ⟨hs, h.total, fun h0 => ?_⟩
    show test (setRun s.bitmap p n.toNat) 0 = true
    rw [test_setRun, h.zero h0, Bool.or_true]

/-- Any address but 0 may be given back. -/
theorem Pmm.Sealed.free (h : s.Sealed T) {phys : U32} (hne : phys ≠ 0) (n : U32) :
    (pmmFree s phys n).Sealed T := by
  by_cases hf : s.Frees phys n
  · have hs := pmmFree_shape h.shape phys n
    rw [pmmFree_eq h.shape hf] at hs ⊢
    refine ⟨hs, h.total, fun h0 => ?_⟩
    have hpage : 0 ≠ phys.toNat / 4096 := by
      have halign := hf.aligned
      have hpos : phys.toNat ≠ 0 := fun hz => hne (BitVec.eq_of_toNat_eq hz)
      omega
    show test (clearBit s.bitmap (phys.toNat / 4096)) 0 = true
    rw [test_clearBit, decide_eq_false hpage, h.zero h0]
    rfl
  · rw [pmmFree_rejected hf]
    exact h

/-- And 0 is not, when there is a page 0. -/
theorem Pmm.Shape.free_zero (h : s.Shape) (h0 : 0 < s.totalPages.toNat) :
    (pmmFree s 0 1).totalPages = s.totalPages ∧ test (pmmFree s 0 1).bitmap 0 = false := by
  have hf : s.Frees 0 1 := ⟨by decide, by decide, by
    have h1 : (0 : U32).toNat / 4096 + (1 : U32).toNat = 1 := by decide
    omega⟩
  rw [pmmFree_eq h hf]
  refine ⟨rfl, ?_⟩
  show test (clearBit s.bitmap 0) 0 = false
  rw [test_clearBit, decide_eq_true rfl]
  rfl

/-- Nothing is allocated, and nothing is taken. -/
structure Pmm.Untouched (s t : Pmm) : Prop where
  bitmap : t.bitmap = s.bitmap
  free : t.freePages = s.freePages
  used : t.usedPages = s.usedPages

/-- **What a zero result means**, as long as page 0 is in use. -/
theorem Pmm.Sealed.alloc_zero (h : s.Sealed T) {n : U32} (h0 : (pmmAlloc s n).1 = 0) :
    s.Untouched (pmmAlloc s n).2 := by
  rcases pmmAlloc_cases h.shape n with ⟨hint, lr, hr⟩ | ⟨p, hint, lr, hn, _, hle, hfree, hr⟩
  · rw [hr]
    exact ⟨rfl, rfl, rfl⟩
  · exfalso
    rw [hr] at h0
    have hpos := toNat_pos_of_ne hn
    have htl := h.shape.total_lt
    have hp : p = 0 := by
      have hz := congrArg BitVec.toNat h0
      rw [toNat_toAddr, BitVec.toNat_ofNat] at hz
      change _ = 0 at hz
      omega
    subst hp
    have hclear : test s.bitmap 0 = false := hfree 0 hpos
    rw [h.zero (by rw [← h.total]; omega)] at hclear
    exact Bool.noConfusion hclear

/-! ## The calls of the managers -/

/-- Frame of a lookup, unmapped and given back when there is one. -/
theorem rollbackAllocations_sealed {virt : U32} {n : Nat} (h : m.pmm.Sealed T)
    (hr : rollbackAllocations m virt n = some m') : m'.pmm.Sealed T := by
  refine forFrom_keeps (fun m : Mm => m.pmm.Sealed T) (fun i u w hu hw => ?_) h hr
  obtain ⟨phys, _, hw⟩ := Option.bind_eq_some_iff.mp hw
  split at hw
  · next hne =>
      obtain ⟨mmu, _, hw⟩ := Option.bind_eq_some_iff.mp hw
      cases hw
      exact hu.free hne 1
  · cases hw
    exact hu

/-- A turn of `vmm_alloc`, as what it returns. -/
theorem vmmAllocTurn_run (L : Layout) (start : U32) (i : Nat) (m : Mm) :
    (vmmAllocTurn L start i m).run =
      if (pmmAlloc m.pmm 1).1 = 0 then
        (rollbackAllocations { m with pmm := (pmmAlloc m.pmm 1).2 } start i).map
          fun m => .error (0, m)
      else
        (pgMap L m.mmu (pageAt start i) (pmmAlloc m.pmm 1).1 pteRw 1).map
          fun mmu => .ok { m with pmm := (pmmAlloc m.pmm 1).2, mmu := mmu } := by
  simp only [vmmAllocTurn]
  split
  · cases rollbackAllocations { m with pmm := (pmmAlloc m.pmm 1).2 } start i <;> rfl
  · cases pgMap L m.mmu (pageAt start i) (pmmAlloc m.pmm 1).1 pteRw 1 <;> rfl

theorem vmmAlloc_sealed {n r : U32} (h : m.pmm.Sealed T) (hr : vmmAlloc L m n = some (r, m')) :
    m'.pmm.Sealed T := by
  obtain ⟨hok, herr⟩ := forFrom_exit_keeps (f := vmmAllocTurn L (vmmReserve m.vmm n).1) (a := 0)
    (n := n.toNat) (s := { m with vmm := (vmmReserve m.vmm n).2 })
    (fun m => m.pmm.Sealed T) (fun x => x.2.pmm.Sealed T)
    (by
      intro i u w hu hw
      rw [vmmAllocTurn_run] at hw
      split at hw
      · obtain ⟨_, _, hc⟩ := Option.map_eq_some_iff.mp hw
        cases hc
      · obtain ⟨mmu, _, hc⟩ := Option.map_eq_some_iff.mp hw
        cases hc
        exact hu.alloc 1)
    (by
      intro i u x hu hx
      rw [vmmAllocTurn_run] at hx
      split at hx
      · obtain ⟨w, hw, hc⟩ := Option.map_eq_some_iff.mp hx
        cases hc
        exact rollbackAllocations_sealed (hu.alloc 1) hw
      · obtain ⟨_, _, hc⟩ := Option.map_eq_some_iff.mp hx
        cases hc)
    h
  simp only [vmmAlloc] at hr
  split at hr
  · cases hr
    exact h
  · obtain ⟨x, hx, hr⟩ := Option.bind_eq_some_iff.mp hr
    cases x with
    | ok w =>
        cases hr
        exact hok _ hx
    | error e =>
        cases hr
        exact herr _ hx

theorem vmmAllocContiguous_sealed {n r : U32} (h : m.pmm.Sealed T)
    (hr : vmmAllocContiguous L m n = some (r, m')) : m'.pmm.Sealed T := by
  simp only [vmmAllocContiguous] at hr
  split at hr
  · cases hr
    exact h
  · split at hr
    · cases hr
      exact h.alloc n
    · obtain ⟨mmu, _, hr⟩ := Option.bind_eq_some_iff.mp hr
      cases hr
      exact h.alloc n

theorem vmmFree_sealed {virt n : U32} (h : m.pmm.Sealed T) (hr : vmmFree m virt n = some m') :
    m'.pmm.Sealed T := by
  obtain ⟨mmu, _, hr⟩ := Option.bind_eq_some_iff.mp hr
  refine forFrom_keeps (fun m : Mm => m.pmm.Sealed T) (fun i u w hu hw => ?_) ?_ hr
  · obtain ⟨phys, _, hw⟩ := Option.bind_eq_some_iff.mp hw
    split at hw
    · next hne =>
        cases hw
        exact hu.free hne 1
    · cases hw
      exact hu
  · exact h

/-- `mmap` and `munmap` take and give no frames. -/
theorem mmap_pmm {phys length flags r : U32} (hr : mmap L m phys length flags = some (r, m')) :
    m'.pmm = m.pmm := by
  simp only [mmap] at hr
  split at hr
  · cases hr
    rfl
  · obtain ⟨mmu, _, hr⟩ := Option.bind_eq_some_iff.mp hr
    cases hr
    rfl

theorem munmap_pmm {virt length : U32} (hr : munmap m virt length = some m') : m'.pmm = m.pmm := by
  simp only [munmap] at hr
  split at hr
  · cases hr
    rfl
  · obtain ⟨mmu, _, hr⟩ := Option.bind_eq_some_iff.mp hr
    cases hr
    rfl

theorem pgdCreatePd_sealed {r : U32} (h : m.pmm.Sealed T) (hr : pgdCreatePd L m = some (r, m')) :
    m'.pmm.Sealed T := by
  simp only [pgdCreatePd] at hr
  split at hr
  · cases hr
    exact h.alloc 1
  · next hne =>
      obtain ⟨⟨pdVirt, m1⟩, hmap, hr⟩ := Option.bind_eq_some_iff.mp hr
      have hm1 : m1.pmm.Sealed T := by
        rw [mmap_pmm hmap]
        exact h.alloc 1
      simp only at hr
      split at hr
      · cases hr
        exact hm1.free hne 1
      · obtain ⟨mmu1, _, hr⟩ := Option.bind_eq_some_iff.mp hr
        obtain ⟨mmu2, _, hr⟩ := Option.bind_eq_some_iff.mp hr
        obtain ⟨m2, hun, hr⟩ := Option.bind_eq_some_iff.mp hr
        cases hr
        rw [munmap_pmm hun]
        exact hm1

/-- The loop of `vmm_destroy`: nothing is looked up to 0 and given back. -/
theorem vmmDestroyPages_sealed {d d' : Destroying} (h : d.mm.pmm.Sealed T)
    (hr : vmmDestroyPages d = some d') : d'.mm.pmm.Sealed T := by
  refine forFrom_keeps (fun d : Destroying => d.mm.pmm.Sealed T) (fun i u w hu hw => ?_) h hr
  refine forFrom_keeps (fun d : Destroying => d.mm.pmm.Sealed T) (fun bit x y hx hy => ?_) hu hw
  simp only [vmmDestroyBit] at hy
  split at hy
  · cases hy
    exact hx
  split at hy
  · cases hy
    exact hx
  obtain ⟨phys, _, hy⟩ := Option.bind_eq_some_iff.mp hy
  split at hy
  · next hne =>
      obtain ⟨mmu, _, hy⟩ := Option.bind_eq_some_iff.mp hy
      cases hy
      exact hx.free hne 1
  · cases hy
    exact hx

end Tomk
