/-
# `vmm_free` of a range that is rejected

`vmm_unreserve` rejects an address that is `NULL`, outside of the window or not
page aligned, and returns nothing that says so.  `vmm_free` goes on with its two
other loops over the same range.  What they do depends on the tables alone: where
no page of the range is mapped they do nothing, and the first page that is mapped
loses its table entry (`vmmFree_rejected_iff`).

No entry comes back: `_unmap_page` writes nothing but 0 (`Cleared`), in whatever
state the tables are, so the argument needs no invariant behind the first write.
-/
import Tomk.Mm.VmmAtomic

namespace Tomk

open CFor

/-- The addresses `vmm_unreserve` rejects. -/
def Vmm.Rejects (v : Vmm) (virt : U32) : Prop :=
  virt = 0 ∨ (virt < v.base ∨ v.stop ≤ virt) ∨ virt &&& (pageSize - 1) ≠ 0

/-- The property as it is asked: of every call that is rejected. -/
def VmmFreeRejects : Prop :=
  ∀ (m : Mm) (virt count : U32), SelfMapped m.mmu.mem m.mmu.cr3 → m.vmm.Rejects virt →
    vmmFree m virt count = some m

variable {m : Mm} {u u' : Mmu} {virt : U32}

theorem vmmUnreserve_rejected {v : Vmm} (h : v.Rejects virt) (count : U32) :
    vmmUnreserve v virt count = v := by
  simp only [vmmUnreserve]
  split
  · rfl
  next h0 =>
  split
  · rfl
  split
  · rfl
  next hbounds =>
  split
  · rfl
  next halign =>
  rcases h with h | h | h
  · exact absurd h h0
  · exact absurd h hbounds
  · exact absurd h halign

/-! ## Words that are cleared -/

/-- Some words of `u` have become 0, and the others are as they were. -/
structure Cleared (u u' : Mmu) : Prop where
  cr3 : u'.cr3 = u.cr3
  words : ∀ f i, u'.mem f i = u.mem f i ∨ u'.mem f i = pteNp

theorem Cleared.refl (u : Mmu) : Cleared u u := ⟨rfl, fun _ _ => Or.inl rfl⟩

theorem Cleared.trans {u'' : Mmu} (h : Cleared u u') (h' : Cleared u' u'') : Cleared u u'' := by
  refine ⟨h'.cr3.trans h.cr3, fun f i => ?_⟩
  rcases h'.words f i with h1 | h1
  · rw [h1]
    exact h.words f i
  · exact Or.inr h1

/-- A store of 0, wherever the walk leads. -/
theorem Cleared.store {va : U32} (h : u.store va pteNp = some u') : Cleared u u' := by
  obtain ⟨f, _, rfl⟩ := Option.map_eq_some_iff.mp h
  refine ⟨rfl, fun g j => ?_⟩
  by_cases hc : g = f ∧ j = wordIndex va
  · exact Or.inr (if_pos hc)
  · exact Or.inl (PhysMem.write_other hc)

/-- `_unmap_page` clears, whatever the tables look like. -/
theorem Cleared.unmapPage {va : U32} (h : unmapPage u va = some u') : Cleared u u' := by
  rw [Tomk.unmapPage] at h
  obtain ⟨pde, _, h⟩ := Option.bind_eq_some_iff.mp h
  split at h
  · cases h
    exact .refl u
  · obtain ⟨pte, _, h⟩ := Option.bind_eq_some_iff.mp h
    split at h
    · cases h
      exact .refl u
    · exact .store h

theorem Cleared.loop {n a : Nat} (h : forFrom (fun i u => Tomk.unmapPage u (pageAt virt i)) a n u = some u') :
    Cleared u u' :=
  forFrom_keeps (Cleared u) (fun _ _ _ hs hrun => hs.trans (.unmapPage hrun)) (.refl u) h

/-- Tables that come out of the loop as they went in had none of the pages. -/
theorem unmapLoop_same {n a : Nat} (h : SelfMapped u.mem u.cr3)
    (hrun : forFrom (fun i u => unmapPage u (pageAt virt i)) a n u = some u) :
    ∀ i, a ≤ i → i < a + n → walk u.mem u.cr3 (pageAt virt i) = none := by
  induction n generalizing a with
  | zero => exact fun i h1 h2 => absurd h1 (by omega)
  | succ n ih =>
      obtain ⟨t, ht, hrest⟩ := Option.bind_eq_some_iff.mp hrun
      have ht : unmapPage u (pageAt virt a) = some t := ht
      rw [unmapPage_eq h, Option.some.injEq] at ht
      by_cases hw : walk u.mem u.cr3 (pageAt virt a) = none
      · rw [if_pos hw] at ht
        subst ht
        intro i h1 h2
        rcases Nat.eq_or_lt_of_le h1 with rfl | hlt
        · exact hw
        · exact ih hrest i hlt (by omega)
      · -- the entry of this page is present, and 0 at the end
        exfalso
        rw [if_neg hw] at ht
        have hpte : Present (u.mem (frameOf (u.mem u.cr3 (pdIndex (pageAt virt a))))
            (ptIndex (pageAt virt a))) := by
          by_contra hno
          apply hw
          simp only [walk, if_neg hno, ite_self]
        have hzero : t.mem (frameOf (u.mem u.cr3 (pdIndex (pageAt virt a))))
            (ptIndex (pageAt virt a)) = pteNp := by
          rw [← ht]
          exact PhysMem.write_same _ _ _ _
        rcases (Cleared.loop hrest).words (frameOf (u.mem u.cr3 (pdIndex (pageAt virt a))))
          (ptIndex (pageAt virt a)) with h1 | h1
        · rw [h1, hzero] at hpte
          exact not_present_pteNp hpte
        · rw [h1] at hpte
          exact not_present_pteNp hpte

/-! ## The call -/

/-- Where nothing is mapped neither loop does anything. -/
theorem vmmFree_unmapped (h : SelfMapped m.mmu.mem m.mmu.cr3) (hr : m.vmm.Rejects virt)
    {count : U32} (hw : ∀ i, i < count.toNat → walk m.mmu.mem m.mmu.cr3 (pageAt virt i) = none) :
    vmmFree m virt count = some m := by
  have hunmap : pgUnmap m.mmu virt count = some m.mmu := by
    obtain ⟨t, ht, rfl⟩ := forFrom_some (a := 0) (n := count.toNat) (s := m.mmu)
      (f := fun i u => unmapPage u (pageAt virt i)) (fun _ u => u = m.mmu) rfl
      (by
        rintro i u _ hi rfl
        refine ⟨_, unmapPage_eq h _, ?_⟩
        rw [if_pos (hw i (by omega))])
    exact ht
  obtain ⟨t, ht, rfl⟩ := forFrom_some (a := 0) (n := count.toNat) (s := m)
    (f := vmmFreeTurn virt) (fun _ t => t = m) rfl
    (by
      rintro i t _ hi rfl
      refine ⟨t, ?_, rfl⟩
      rw [vmmFreeTurn, pgVirt2phys_eq h, hw i (by omega)]
      rfl)
  simp only [vmmFree, vmmUnreserve_rejected hr, hunmap, Option.bind_eq_bind, Option.bind_some, ht]

/-- The lookups do not write the tables. -/
theorem vmmFree_tables {m' : Mm} {count : U32} (h : vmmFree m virt count = some m') :
    pgUnmap m.mmu virt count = some m'.mmu := by
  obtain ⟨mmu, hmmu, hloop⟩ := Option.bind_eq_some_iff.mp h
  have hkeeps := forFrom_keeps (f := vmmFreeTurn virt) (fun t : Mm => t.mmu = mmu)
    (fun i s t hs ht => by
      obtain ⟨phys, _, ht⟩ := Option.bind_eq_some_iff.mp ht
      split at ht
      · cases ht
        exact hs
      · cases ht
        exact hs) rfl hloop
  rw [hkeeps]
  exact hmmu

/-- A call that changes nothing had no page to unmap. -/
theorem vmmFree_same (h : SelfMapped m.mmu.mem m.mmu.cr3) {count : U32}
    (hrun : vmmFree m virt count = some m) :
    ∀ i, i < count.toNat → walk m.mmu.mem m.mmu.cr3 (pageAt virt i) = none := by
  intro i hi
  exact unmapLoop_same h (vmmFree_tables hrun) i (Nat.zero_le i) (by omega)

/-- **A rejected release.**  It leaves the window, the tables and the frames as
they were exactly if no page of the range is mapped. -/
theorem vmmFree_rejected_iff (h : SelfMapped m.mmu.mem m.mmu.cr3) (hr : m.vmm.Rejects virt)
    (count : U32) : vmmFree m virt count = some m ↔
      ∀ i, i < count.toNat → walk m.mmu.mem m.mmu.cr3 (pageAt virt i) = none :=
  ⟨vmmFree_same h, vmmFree_unmapped h hr⟩

/-! ## The page behind the window -/

theorem smallMm_self : SelfMapped smallMm.mmu.mem smallMm.mmu.cr3 := smallMm_consistent.wired.self

/-- The end of the window of the small machine is rejected. -/
theorem smallVmm_rejects : smallVmm.Rejects (kvirt + 0x20000) := Or.inr (Or.inl (Or.inr (by decide)))

/-- A page that is mapped there is unmapped. -/
theorem vmmFree_behind_window : ¬ VmmFreeRejects := by
  intro hall
  obtain ⟨mem', _, ht, hpte⟩ := pgMap_wired smallMm_consistent.wired (kvirt + 0x20000) 0x1000 pteRw 1
    (by decide) (by decide)
  obtain ⟨hpde, hpte⟩ := hpte 0 (by decide)
  have hw := smallMm_consistent.wired.touched ht
  have hrun := hall { smallMm with mmu := { smallMm.mmu with mem := mem' } } (kvirt + 0x20000) 1
    hw.self smallVmm_rejects
  have hnone := vmmFree_same hw.self hrun 0 (by decide)
  rw [Nat.add_zero] at hpde hpte
  have hnone' : walk mem' smallMm.mmu.cr3 (kvirt + 0x20000) = none := by
    rw [pageAt_zero] at hnone
    exact hnone
  rw [walk_wired hw (by constructor <;> decide), hpte, ← slotOf_pageNo,
    if_pos ⟨hpde, present_newPte _ _⟩] at hnone'
  exact Option.some_ne_none _ hnone'

/-- Nothing is mapped at `NULL`. -/
theorem vmmFree_rejected_null : vmmFree smallMm 0 3 = some smallMm ↔
    ∀ i, i < (3 : U32).toNat → walk smallMm.mmu.mem smallMm.mmu.cr3 (pageAt 0 i) = none :=
  vmmFree_rejected_iff smallMm_self (Or.inl rfl) 3

end Tomk
