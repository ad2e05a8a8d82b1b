/-
# Where the frames go

`vmm_free` gives back pages and no frames, and a call that fails after its
reservation gives back neither the pages nor the counter.  So a run has a budget:
the frames and the pages that were free when `mminit` returned.  A `Budget` is a
run with what was spent of both, call by call: the frames behind the ranges that
were released, the frames that others took, and the pages of the window that were
reserved for a call that returned `NULL`.

In every state of every run the two balances are exact (`Budget.Balances`).
Hence `vmm_alloc` is decided by sums: it returns a range if and only if the
window has one and the frames ever handed out leave enough of those there were
at the start (`kvmmRun_budget`), whatever has been released since.
-/
import Tomk.Mm.FrameOwner

namespace Tomk

open WordBits Runs

/-! ## What a call spends -/

/-- `m'` has so many free frames and so many free pages less than `m`. -/
structure Mm.Spends (m m' : Mm) (frames pages : Nat) : Prop where
  pmm : m'.pmm.Consistent
  frames : m'.pmm.freePages.toNat + frames = m.pmm.freePages.toNat
  pages : m'.vmm.freePages.toNat + pages = m.vmm.freePages.toNat

/-- The pages that a call reserves, before it asks for frames. -/
def Mm.reserves (m : Mm) (n : U32) : Nat := if (vmmReserve m.vmm n).1 = 0 then 0 else n.toNat

/-- What comes with a result that is not `NULL`. -/
def handedOut (r n : U32) : Nat := if r = 0 then 0 else n.toNat

variable {L : Layout} {m m' : Mm} {n r : U32} {p : Nat}

theorem handedOut_zero (n : U32) : handedOut 0 n = 0 := if_pos rfl

theorem handedOut_ne (h : r ≠ 0) (n : U32) : handedOut r n = n.toNat := if_neg h

theorem Mm.reserves_none (hm : m.Ready L) (hno : ¬ m.vmm.Reservable n) : m.reserves n = 0 := by
  rcases vmmReserve_cases hm.vmm n with ⟨_, lr, hr⟩ | ⟨hres, _⟩
  · rw [Mm.reserves, hr, if_pos rfl]
  · exact absurd hres hno

theorem Mm.reserves_some (hm : m.Ready L) (hres : m.vmm.Reservable n) : m.reserves n = n.toNat := by
  rcases vmmReserve_cases hm.vmm n with ⟨hno, _⟩ | ⟨_, p, lr, _, h0, hr⟩
  · exact absurd hres hno
  · rw [Mm.reserves, hr, if_neg h0]

/-- The counter of the window after a reservation. -/
theorem Vmm.Reservable.reserved_free {v : Vmm} (h : v.Reservable n) (p : Nat) (lr : U32) :
    (v.reserved p n lr).freePages.toNat + n.toNat = v.freePages.toNat := by
  have hle := h.2.1
  show (v.freePages - n).toNat + n.toNat = v.freePages.toNat
  rw [BitVec.toNat_sub_of_le hle]
  rw [BitVec.le_def] at hle
  omega

/-- **`pmm_alloc`** counts what it hands out. -/
theorem pmmAlloc_spends {s : Pmm} (h : s.Consistent) (n : U32) :
    (pmmAlloc s n).2.Consistent ∧
      (pmmAlloc s n).2.freePages.toNat + handedOut (pmmAlloc s n).1 n = s.freePages.toNat := by
  refine ⟨pmmAlloc_consistent h n, ?_⟩
  rcases pmmAlloc_cases h.shape n with ⟨hint, lr, hr⟩ | ⟨p, hint, lr, hn, hle, hp, hf, hr⟩
  · rw [hr, handedOut_zero, Nat.add_zero]
  · have hpos := toNat_pos_of_ne hn
    have htl := h.shape.total_lt
    have hne := (runAddr (h.run_pos hpos hp hf) (by omega)).1
    rw [hr, handedOut_ne hne]
    show (s.freePages - n).toNat + n.toNat = s.freePages.toNat
    rw [BitVec.toNat_sub_of_le hle]
    rw [BitVec.le_def] at hle
    omega

/-- **`vmm_alloc`**: when it returns a range, and what it spends. -/
theorem vmmAlloc_spends (hm : m.Ready L) (hc : m.pmm.Consistent) (n : U32) :
    ∃ r m', vmmAlloc L m n = some (r, m') ∧
      (r ≠ 0 ↔ m.vmm.Reservable n ∧ n.toNat ≤ m.pmm.freePages.toNat) ∧
      m.Spends m' (handedOut r n) (m.reserves n) := by
  rcases vmmAlloc_cases hm n with ⟨hno, lr, hr⟩ | ⟨hres, p, lr, F, u, _, h0, hcases⟩
  · refine ⟨_, _, hr, iff_of_false (fun h => h rfl) fun h => hno h.1, hc, ?_, ?_⟩
    · rw [handedOut_zero, Nat.add_zero]
    · rw [Mm.reserves_none hm hno, Nat.add_zero]
  have hpages := hres.reserved_free p lr
  rcases hcases with ⟨hlen, hback, hr⟩ | ⟨hlt, hall, hun, hr⟩
  · have hleft := hback.took.free_left hc
    rw [show (m.withReserved p n lr).pmm = m.pmm from rfl] at hleft
    refine ⟨_, _, hr, iff_of_true h0 ⟨hres, by omega⟩, hback.took.consistent hc, ?_, ?_⟩
    · rw [handedOut_ne h0, ← hlen]
      exact hleft
    · rw [Mm.reserves_some hm hres, hback.vmm]
      exact hpages
  · have hleft := hun.took.free_left hc
    rw [show (m.withReserved p n lr).pmm = m.pmm from rfl, List.length_nil] at hleft
    have hshort := hall hc
    refine ⟨_, _, hr, iff_of_false (fun h => h rfl) fun h => ?_, hun.took.consistent hc, ?_, ?_⟩
    · have := h.2
      omega
    · rw [handedOut_zero]
      exact hleft
    · rw [Mm.reserves_some hm hres, hun.vmm]
      exact hpages

/-- **`vmm_alloc_contiguous`**: when it returns a range, and what it spends. -/
theorem vmmAllocContiguous_spends (hm : m.Ready L) (hc : m.pmm.Consistent) (n : U32) :
    ∃ r m', vmmAllocContiguous L m n = some (r, m') ∧
      (r ≠ 0 ↔ m.vmm.Reservable n ∧ m.pmm.HasRun n) ∧
      m.Spends m' (handedOut r n) (m.reserves n) := by
  rcases vmmAllocContiguous_cases hm n with ⟨hno, lr, hr⟩ | ⟨hres, p, lr, _, h0, hcases⟩
  · refine ⟨_, _, hr, iff_of_false (fun h => h rfl) fun h => hno h.1, hc, ?_, ?_⟩
    · rw [handedOut_zero, Nat.add_zero]
    · rw [Mm.reserves_none hm hno, Nat.add_zero]
  have hpages := hres.reserved_free p lr
  have hrun := pmmAlloc_ne_zero_iff hc hres.1
  obtain ⟨hcons, hframes⟩ := pmmAlloc_spends hc n
  rcases hcases with ⟨hphys, mem', _, hr⟩ | ⟨hphys, hr⟩
  · refine ⟨_, _, hr, iff_of_true h0 ⟨hres, hrun.mp hphys⟩, hcons, ?_, ?_⟩
    · rw [handedOut_ne h0]
      rwa [handedOut_ne hphys] at hframes
    · rw [Mm.reserves_some hm hres]
      exact hpages
  · refine ⟨_, _, hr, iff_of_false (fun h => h rfl) fun h => ?_, hcons, ?_, ?_⟩
    · exact absurd hphys (hrun.mpr h.2)
    · rw [handedOut_zero]
      rwa [hphys, handedOut_zero] at hframes
    · rw [Mm.reserves_some hm hres]
      exact hpages

/-- **`vmm_free`** gives back the pages, and no frame. -/
theorem Mm.LendsAt.free_spends {x : Lent} (h : m.LendsAt x p) (hm : m.Ready L) :
    ∃ m', vmmFree m x.virt x.count = some m' ∧ m'.pmm = m.pmm ∧
      m'.vmm.freePages = m.vmm.freePages + x.count := by
  have hle := h.le_total
  have hpos := toNat_pos_of_ne h.count_ne
  obtain ⟨mem', hr, _⟩ := vmmFree_eq hm.windowed hle (by omega)
  rw [vmmUnreserve_eq hm.vmm.toWindow h.count_ne hle h.virt_ne, ← h.virt] at hr
  exact ⟨_, hr, rfl, rfl⟩

/-! ## Runs with a budget -/

/-- A run, the frames and pages that were free at its start, and what was spent
of them. -/
structure Budget extends KvmmRun where
  frames : Nat
  pages : Nat
  /-- Frames of the ranges that were released. -/
  released : Nat
  /-- Frames that others took. -/
  taken : Nat
  /-- Pages that were reserved for nobody. -/
  lost : Nat

def KvmmCall.released : KvmmCall → Nat
  | .free x => x.count.toNat
  | _ => 0

def KvmmCall.taken (s : KvmmRun) : KvmmCall → Nat
  | .pmmAlloc n => handedOut (Tomk.pmmAlloc s.mm.pmm n).1 n
  | _ => 0

/-- The reservation of a call that returned `NULL`. -/
def KvmmCall.lost (L : Layout) (s : KvmmRun) : KvmmCall → Nat
  | .alloc n => if (vmmAlloc L s.mm n).map Prod.fst = some 0 then s.mm.reserves n else 0
  | .allocContiguous n =>
      if (vmmAllocContiguous L s.mm n).map Prod.fst = some 0 then s.mm.reserves n else 0
  | _ => 0

def BudgetStart (L : Layout) (b : Budget) : Prop :=
  KvmmStart L b.toKvmmRun ∧ b.frames = b.mm.pmm.freePages.toNat ∧
    b.pages = b.mm.vmm.freePages.toNat ∧ b.released = 0 ∧ b.taken = 0 ∧ b.lost = 0

def BudgetStep (L : Layout) (c : KvmmCall) (b b' : Budget) : Prop :=
  KvmmStep L c b.toKvmmRun b'.toKvmmRun ∧ b'.frames = b.frames ∧ b'.pages = b.pages ∧
    b'.released = b.released + c.released ∧ b'.taken = b.taken + c.taken b.toKvmmRun ∧
    b'.lost = b.lost + c.lost L b.toKvmmRun

/-- The states of all runs. -/
def BudgetReach (L : Layout) : Budget → Prop := Reach (BudgetStart L) (BudgetStep L)

/-- The number of pages of live ranges. -/
def lentPages (live : List Lent) : Nat := (live.map fun x => x.count.toNat).sum

/-- The frames that were handed out. -/
def Budget.spent (b : Budget) : Nat := lentPages b.live + b.released + b.taken

/-- Nothing else is missing. -/
structure Budget.Balances (b : Budget) : Prop where
  frames : b.mm.pmm.freePages.toNat + b.spent = b.frames
  pages : b.mm.vmm.freePages.toNat + lentPages b.live + b.lost = b.pages

structure Budget.Inv (L : Layout) (b : Budget) : Prop extends b.Balances where
  run : b.toKvmmRun.Inv L
  pmm : b.mm.pmm.Consistent
  pages_lt : b.pages < 2 ^ 32

variable {b b' : Budget} {s s' : KvmmRun} {c : KvmmCall}

theorem lentPages_erase {x : Lent} {live : List Lent} (hx : x ∈ live) :
    lentPages (live.erase x) + x.count.toNat = lentPages live := by
  have hperm := (List.perm_cons_erase hx).map fun x => x.count.toNat
  rw [lentPages, lentPages, hperm.sum_eq, List.map_cons, List.sum_cons, Nat.add_comm]

theorem lentPages_ret (s : KvmmRun) (n : U32) (contiguous : Bool) (r : U32 × Mm) :
    lentPages (s.ret n contiguous r).live = handedOut r.1 n + lentPages s.live := by
  rw [KvmmRun.ret]
  by_cases h0 : r.1 = 0
  · rw [if_pos h0, handedOut, if_pos h0, Nat.zero_add]
  · rw [if_neg h0, handedOut, if_neg h0, lentPages, List.map_cons, List.sum_cons, lentPages]

/-- What a call leaves, by what it adds to the accounts. -/
structure KvmmCall.Books (L : Layout) (s s' : KvmmRun) (c : KvmmCall) : Prop where
  pmm : s'.mm.pmm.Consistent
  frames : s'.mm.pmm.freePages.toNat + (lentPages s'.live + c.released + c.taken s) =
    s.mm.pmm.freePages.toNat + lentPages s.live
  pages : s.mm.vmm.freePages.toNat + lentPages s.live < 2 ^ 32 →
    s'.mm.vmm.freePages.toNat + lentPages s'.live + c.lost L s =
      s.mm.vmm.freePages.toNat + lentPages s.live

/-- A call of either function: what is reserved is lent, or lost. -/
theorem Mm.Spends.ret (h : s.mm.Spends m' (handedOut r n) (s.mm.reserves n))
    (hres : r ≠ 0 → s.mm.vmm.Reservable n) (hm : s.mm.Ready L) (contiguous : Bool) :
    let s' := s.ret n contiguous (r, m')
    s'.mm.pmm.freePages.toNat + lentPages s'.live = s.mm.pmm.freePages.toNat + lentPages s.live ∧
      s'.mm.vmm.freePages.toNat + lentPages s'.live + (if r = 0 then s.mm.reserves n else 0) =
        s.mm.vmm.freePages.toNat + lentPages s.live := by
  have hf := h.frames
  have hp := h.pages
  simp only [lentPages_ret]
  show m'.pmm.freePages.toNat + _ = _ ∧ m'.vmm.freePages.toNat + _ + _ = _
  by_cases h0 : r = 0
  · rw [if_pos h0]
    rw [h0, handedOut_zero] at hf ⊢
    omega
  · rw [if_neg h0]
    rw [Mm.reserves_some hm (hres h0)] at hp
    rw [handedOut_ne h0] at hf ⊢
    omega

/-- **One call** keeps the books. -/
theorem KvmmCall.books (h : s.Inv L) (hc : s.mm.pmm.Consistent) (hstep : KvmmStep L c s s') :
    c.Books L s s' := by
  have hm : s.mm.Ready L := h.space.ready
  obtain ⟨hl, hr⟩ := hstep
  cases c with
  | alloc n =>
      obtain ⟨r, m', hrun, hiff, hsp⟩ := vmmAlloc_spends hm hc n
      obtain ⟨hf, hp⟩ := hsp.ret (fun h0 => (hiff.mp h0).1) hm false
      rw [KvmmCall.run, hrun, Option.map_some] at hr
      rw [← Option.some.inj hr]
      refine ⟨hsp.pmm, hf, fun _ => ?_⟩
      simp only [KvmmCall.lost, hrun, Option.map_some, Option.some.injEq]
      exact hp
  | allocContiguous n =>
      obtain ⟨r, m', hrun, hiff, hsp⟩ := vmmAllocContiguous_spends hm hc n
      obtain ⟨hf, hp⟩ := hsp.ret (fun h0 => (hiff.mp h0).1) hm true
      rw [KvmmCall.run, hrun, Option.map_some] at hr
      rw [← Option.some.inj hr]
      refine ⟨hsp.pmm, hf, fun _ => ?_⟩
      simp only [KvmmCall.lost, hrun, Option.map_some, Option.some.injEq]
      exact hp
  | free x =>
      obtain ⟨p, hp⟩ := h.lends x hl
      obtain ⟨m', hrun, hpmm, hfree⟩ := hp.free_spends hm
      rw [KvmmCall.run, hrun, Option.map_some] at hr
      rw [← Option.some.inj hr]
      have hlent := lentPages_erase hl
      refine ⟨hpmm ▸ hc, ?_, fun hlt => ?_⟩
      · show m'.pmm.freePages.toNat + (lentPages (s.live.erase x) + x.count.toNat + 0) = _
        rw [hpmm]
        omega
      · -- the counter cannot overflow: the pages were taken from it
        show m'.vmm.freePages.toNat + lentPages (s.live.erase x) + 0 = _
        rw [hfree, BitVec.toNat_add, Nat.mod_eq_of_lt (by omega)]
        omega
  | pmmAlloc n =>
      obtain ⟨hcons, hf⟩ := pmmAlloc_spends hc n
      rw [← Option.some.inj hr]
      refine ⟨hcons, ?_, fun _ => rfl⟩
      show (Tomk.pmmAlloc s.mm.pmm n).2.freePages.toNat +
        (lentPages s.live + 0 + handedOut (Tomk.pmmAlloc s.mm.pmm n).1 n) = _
      omega

theorem Budget.Inv.step (h : b.Inv L) (hstep : BudgetStep L c b b') : b'.Inv L := by
  obtain ⟨hrun, hframes, hpages, hreleased, htaken, hlost⟩ := hstep
  have hb := KvmmCall.books h.run h.pmm hrun
  obtain ⟨s', hr, hinv⟩ := h.run.call hrun.1
  rw [hrun.2] at hr
  obtain rfl := Option.some.inj hr
  have h1 := h.frames
  have h2 := h.pages
  have h3 := h.pages_lt
  have hf := hb.frames
  have hp := hb.pages (by omega)
  rw [Budget.spent] at h1
  refine ⟨⟨?_, ?_⟩, hinv, hb.pmm, by rw [hpages]; exact h3⟩
  · rw [Budget.spent, hframes, hreleased, htaken]
    omega
  · rw [hpages, hlost]
    omega

theorem BudgetStart.inv (h : BudgetStart L b) : b.Inv L := by
  obtain ⟨hs, hframes, hpages, hreleased, htaken, hlost⟩ := h
  obtain ⟨s0, hb, _, _⟩ := hs.1.booted
  have hlent : lentPages b.live = 0 := by
    rw [hs.2]
    rfl
  refine ⟨⟨?_, ?_⟩, hs.inv, hb.consistent.pmm, by rw [hpages]; exact BitVec.isLt _⟩
  · rw [Budget.spent, hlent, hreleased, htaken, hframes]
    rfl
  · rw [hlent, hlost, hpages]
    rfl

theorem BudgetReach.inv (h : BudgetReach L b) : b.Inv L :=
  Reach.invariant (Budget.Inv L) (fun _ hb => hb.inv) (fun _ _ _ hb hstep => hb.step hstep) h

/-- **The budget of the kernel.**  In every state of every run, the free frames and
the frames that were ever handed out are those that were free when `mminit`
returned, and the pages of the window that are free, lent or lost are the pages
there were then.  So `vmm_alloc` returns a range if and only if the window has one
and all frames ever handed out leave enough; with adjacent frames there must be a
run of them. -/
theorem kvmmRun_budget (h : BudgetReach L b) :
    b.Balances ∧ ∀ n,
      (∃ r m, vmmAlloc L b.mm n = some (r, m) ∧
        (r ≠ 0 ↔ b.mm.vmm.Reservable n ∧ b.spent + n.toNat ≤ b.frames)) ∧
      ∃ r m, vmmAllocContiguous L b.mm n = some (r, m) ∧
        (r ≠ 0 ↔ b.mm.vmm.Reservable n ∧ b.mm.pmm.HasRun n) := by
  have hi := h.inv
  have hm : b.mm.Ready L := hi.run.space.ready
  refine ⟨hi.toBalances, fun n => ?_⟩
  obtain ⟨r, m, hr, hiff, _⟩ := vmmAlloc_spends hm hi.pmm n
  obtain ⟨r', m', hr', hiff', _⟩ := vmmAllocContiguous_spends hm hi.pmm n
  refine ⟨⟨r, m, hr, hiff.trans (and_congr_right fun _ => ?_)⟩, r', m', hr', hiff'⟩
  have := hi.frames
  omega

/-- One page of the small machine is allocated and released: its frame is gone. -/
theorem kvmmRun_budget_one : ∃ b, BudgetReach smallLayout b ∧ b.live = [] ∧ b.spent = 1 ∧
    b.mm.pmm.freePages.toNat + 1 = b.frames := by
  obtain ⟨⟨m, dirs⟩, hs⟩ := smallImage_start
  have hdirs : dirs = [smallLayout.pgPd] := hs.start.dirs_eq
  subst hdirs
  have hfree : 1 ≤ m.pmm.freePages := by
    rw [BitVec.le_def]
    exact Nat.le_of_succ_le hs.frames
  obtain ⟨r, m', hr, h0⟩ := vmmAlloc_enough hs.consistent hs.page hfree
  let b0 : Budget := ⟨⟨m, []⟩, m.pmm.freePages.toNat, m.vmm.freePages.toNat, 0, 0, 0⟩
  have hstart : BudgetReach smallLayout b0 := .start ⟨⟨hs.start, rfl⟩, rfl, rfl, rfl, rfl, rfl⟩
  let b1 : Budget := { b0 with mm := m', live := [⟨r, 1, false⟩] }
  have hstep1 : BudgetStep smallLayout (.alloc 1) b0 b1 := by
    refine ⟨⟨trivial, ?_⟩, rfl, rfl, rfl, rfl, ?_⟩
    · rw [KvmmCall.run, show vmmAlloc smallLayout b0.mm 1 = some (r, m') from hr,
        Option.map_some, KvmmRun.ret, if_neg h0]
    · rw [KvmmCall.lost, show vmmAlloc smallLayout b0.toKvmmRun.mm 1 = some (r, m') from hr,
        Option.map_some, if_neg fun h => h0 (Option.some.inj h)]
  have hreach1 : BudgetReach smallLayout b1 := .next hstart hstep1
  obtain ⟨m'', hr2, _⟩ := hreach1.inv.run.free (x := ⟨r, 1, false⟩) List.mem_cons_self
  let b2 : Budget := { b1 with mm := m'', live := [], released := 1 }
  have hstep2 : BudgetStep smallLayout (.free ⟨r, 1, false⟩) b1 b2 := by
    refine ⟨⟨List.mem_cons_self, ?_⟩, rfl, rfl, rfl, rfl, rfl⟩
    rw [KvmmCall.run, hr2, Option.map_some, List.erase_cons_head]
  have hreach2 : BudgetReach smallLayout b2 := .next hreach1 hstep2
  exact ⟨b2, hreach2, rfl, rfl, (kvmmRun_budget hreach2).1.frames⟩

end Tomk
