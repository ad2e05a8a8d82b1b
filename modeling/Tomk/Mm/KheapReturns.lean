/-
# The heap gives back what it took

The heap asks the manager for a range of pages where no free block is big
enough, and gives a range back when the block that is freed was the last one in
it that was in use.  Blocks are merged as they are freed, so that a region with
no block in use is one free block, which is what `heap_shrink` looks for.

So no pages stay behind: in every state of every run each region has a live
allocation in it, and the ranges that the heap has and has not given back are
its regions (`heapRun_returns`).  With nothing live the heap is the one that
`heap_init` left.

The ranges are counted by a manager over the manager, which writes down what it
hands out and takes back (`ledger`); it answers as the one under it does, so the
heap over it goes through the same states (`HeapReach.ledgered`).
-/
import Tomk.Mm.KheapStale

namespace Tomk

open DList Tiling Function Runs

variable {V : Type} {z : Bool} {ops : VmmOps V} {h h' : Heap} {rs : List U32}
  {ps : U32 → Prop} {B : U32 → List U32} {r b c ptr : U32} {bs : List U32}

/-! ## A manager that writes down what it hands out -/

/-- The ranges that were handed out and not taken back. -/
abbrev Ledger := List (U32 × U32)

def ledger (ops : VmmOps V) : VmmOps (V × Ledger) where
  alloc := fun v c n =>
    let (r, w) := ops.alloc v.1 c n
    (r, w, if r = 0 then v.2 else (r, n) :: v.2)
  free := fun v r n => (ops.free v.1 r n, v.2.erase (r, n))
  Ok := fun v => ops.Ok v.1
  Given := fun v r n => ops.Given v.1 r n
  alloc_ok := fun hv => ops.alloc_ok hv
  free_ok := fun hv hr => ops.free_ok hv hr
  alloc_range := fun hv hn h0 => ops.alloc_range hv hn h0
  alloc_apart := fun hv hn h0 hr => ops.alloc_apart hv hn h0 hr
  alloc_keeps := fun hv hr => ops.alloc_keeps hv hr
  free_keeps := fun hv hq hr ha => ops.free_keeps hv hq hr ha

/-- The ranges of the regions. -/
def Heap.ranges (h : Heap) (rs : List U32) : Ledger :=
  rs.map fun r => (r, toPage (h.regions r).size)

/-- What a run keeps: no region without a block in use, and no range but those
of the regions. -/
structure Kept (h : Heap) (out : Ledger) (rs : List U32) (B : U32 → List U32) : Prop where
  busy : ∀ r ∈ rs, ∃ b ∈ B r, (h.blocks b).Used
  owed : out.Perm (h.ranges rs)

theorem Heap.ranges_congr (hs : ∀ r ∈ rs, (h'.regions r).size = (h.regions r).size) :
    h'.ranges rs = h.ranges rs :=
  List.map_congr_left fun r hr => by rw [hs r hr]

/-! ## Allocations -/

variable {v v' : V × Ledger}

/-- An edit of a region that leaves a block of it in use. -/
theorem HeapOk.edit_kept (hk : HeapOk z (ledger ops) h v rs ps B)
    (hbusy : ∀ q ∈ rs, q ≠ r → ∃ c ∈ B q, (h.blocks c).Used) (howed : v.2.Perm (h.ranges rs))
    (hr : r ∈ rs) (e : Edited (h.Inside r) r h h') (hok : RegionOk z h' r bs) (hb : b ∈ bs)
    (hu : (h'.blocks b).Used) :
    HeapOk z (ledger ops) h' v rs ps (update B r bs) ∧ Kept h' v.2 rs (update B r bs) := by
  obtain ⟨hk', hblk⟩ := hk.edit (Or.inl hr) e hok
  refine ⟨hk', fun q hq => ?_, ?_⟩
  · by_cases hqr : q = r
    · rw [hqr, update_self]
      exact ⟨b, hb, hu⟩
    · obtain ⟨c, hc, hcu⟩ := hbusy q hq hqr
      rw [update_of_ne hqr]
      refine ⟨c, hc, ?_⟩
      rw [hblk q (Or.inl hq) hqr c hc]
      exact hcu
  · rw [Heap.ranges_congr fun q _ => e.sizes q]
    exact howed

/-- `block_alloc` of a free block. -/
theorem HeapOk.blockAlloc_kept (hk : HeapOk z (ledger ops) h v rs ps B)
    (hbusy : ∀ q ∈ rs, q ≠ r → ∃ c ∈ B q, (h.blocks c).Used) (howed : v.2.Perm (h.ranges rs))
    (hr : r ∈ rs) (hb : b ∈ B r) (hfree : ¬ (h.blocks b).Used) {n : U32}
    (hn0 : z = false → 0 < n.toNat) (hn : n.toNat % 16 = 0) (hle : n ≤ (h.blocks b).size) :
    ∃ h' B', blockAlloc h r b n = (true, h') ∧ HeapOk z (ledger ops) h' v rs ps B' ∧
      Kept h' v.2 rs B' := by
  obtain ⟨h', bs', hrun, ha⟩ := (hk.region r (Or.inl hr)).alloc hb hfree hn0 hn hle
  obtain ⟨hk', hkept⟩ := hk.edit_kept hbusy howed hr ha.edited ha.ok ha.mem (of_decide_eq_true ha.used)
  exact ⟨h', _, hrun, hk', hkept⟩

/-- `heap_alloc`, where the manager has handed out a range. -/
theorem allocNew_got {W : Type} {ops : VmmOps W} {w : W} (h : Heap) {n : U32} {k : Bool}
    (hgot : (ops.alloc w k (growCount n)).1 ≠ 0) :
    (allocNew ops h w n k).2.2 = (ops.alloc w k (growCount n)).2 ∧
      ((allocNew ops h w n k).1 ≠ 0 → (allocNew ops h w n k).1
        = blockPtr (regionBlock (ops.alloc w k (growCount n)).1)) := by
  simp only [allocNew, heapGrow_eq, if_neg hgot, allocFrom]
  refine ⟨trivial, ?_⟩
  generalize (if k = true then regionContiguous else regionNoncontiguous) = flags
  have hl := linked_regionAppend (h := grownHeap h (ops.alloc w k (growCount n)).1 (growCount n) flags)
    hgot
  rw [hl.head, grownHeap_self]
  split
  · exact fun _ => rfl
  · exact fun h0 => absurd rfl h0

/-- The new region is the range that the manager has handed out. -/
theorem Appended.handed {W : Type} {ops : VmmOps W} {w w' : W} {n : U32} {k : Bool}
    (ha : Appended z ops h w rs ps B n k r h' w') (hn : n.toNat ≤ 0xFFFFEFD0) :
    ops.alloc w k (growCount n) = (r, w') ∧ (h'.regions r).size = toAddr (growCount n) := by
  obtain ⟨hvmm, hptr⟩ := allocNew_got h ha.got
  rw [ha.run, blockAlloc_done ha.ne ha.block_ne (ha.big hn), if_pos rfl] at hvmm hptr
  have hblock := blockPtr_inj (hptr ha.ptr_ne)
  refine ⟨Prod.ext ?_ hvmm.symm, ?_⟩
  · exact ((BitVec.add_left_inj regionSize).mp hblock).symm
  · rw [ha.heap, (linked_regionAppend ha.ne).size, grownHeap_self]

/-- What a call of `heap_alloc` leads to, for what the heap keeps. -/
def AllocKept (z : Bool) (ops : VmmOps V) (ps : U32 → Prop) (res : U32 × Heap × V × Ledger) : Prop :=
  ∃ rs B, HeapOk z (ledger ops) res.2.1 res.2.2 rs ps B ∧ Kept res.2.1 res.2.2.2 rs B

theorem HeapOk.allocNew_kept (hk : HeapOk z (ledger ops) h v rs ps B) (hkept : Kept h v.2 rs B)
    {n : U32} (hn0 : z = false → 0 < n.toNat) (hn : n.toNat % 16 = 0) (hbig : n.toNat ≤ 0xFFFFEFD0)
    (k : Bool) : AllocKept z ops ps (allocNew (ledger ops) h v n k) := by
  rcases hk.allocNew_cases n k with ⟨w, hnone, hrun, hk'⟩ | ⟨r, h2, w, ha⟩
  · -- the manager has nothing, and nothing is written down
    have hw : w = ((ledger ops).alloc v k (growCount n)).2 := by
      have hvmm : (allocNew (ledger ops) h v n k).2.2
          = ((ledger ops).alloc v k (growCount n)).2 := by
        simp only [allocNew, heapGrow_eq, if_pos hnone, if_true]
      rwa [hrun] at hvmm
    have hsame : w.2 = v.2 := by
      rw [hw]
      exact if_pos hnone
    rw [hrun]
    refine ⟨rs, B, hk', hkept.busy, ?_⟩
    rw [hsame]
    exact hkept.owed
  · obtain ⟨hgot, hsize⟩ := ha.handed hbig
    have hbound := (growCount_bounds n).2
    have hcount : toPage (h2.regions r).size = growCount n := by
      apply BitVec.eq_of_toNat_eq
      rw [hsize, toNat_toPage, toNat_toAddr_of_lt hbound, Nat.mul_div_cancel _ (by decide)]
    have hout : w.2 = (r, growCount n) :: v.2 := by
      have hw : w = ((ledger ops).alloc v k (growCount n)).2 := by rw [hgot]
      have hr : r = (ops.alloc v.1 k (growCount n)).1 := (congrArg Prod.fst hgot).symm
      rw [hw, hr]
      exact if_neg (hr ▸ ha.ne)
    have hold : ∀ q ∈ rs, (h2.regions q).size = (h.regions q).size := fun q hq => by
      rw [ha.heap, (linked_regionAppend ha.ne).size, grownHeap_other h _ _ (ha.other hq)]
    have hbusy : ∀ q ∈ rs ++ [r], q ≠ r →
        ∃ c ∈ update B r [regionBlock r] q, (h2.blocks c).Used := by
      intro q hq hqr
      have hq' : q ∈ rs := (List.mem_append.mp hq).resolve_right fun h => hqr (List.mem_singleton.mp h)
      obtain ⟨c, hc, hcu⟩ := hkept.busy q hq'
      rw [update_of_ne hqr]
      refine ⟨c, hc, ?_⟩
      rw [ha.blocks q (Or.inl hq') c hc]
      exact hcu
    have howed : w.2.Perm (h2.ranges (rs ++ [r])) := by
      have hperm : v.2.Perm (h2.ranges rs) := by
        rw [Heap.ranges_congr hold]
        exact hkept.owed
      rw [hout, Heap.ranges, List.map_append, List.map_singleton, hcount]
      exact (hperm.cons _).trans (List.perm_append_singleton _ _).symm
    obtain ⟨h3, B', hrun, hk3, hkept3⟩ := ha.ok.blockAlloc_kept hbusy howed ha.mem ha.block ha.free
      hn0 hn (ha.big hbig)
    rw [ha.run, hrun]
    exact ⟨_, B', hk3, hkept3⟩

/-- **`heap_alloc`** of a size that does not wrap. -/
theorem HeapOk.heapAlloc_kept (hk : HeapOk z (ledger ops) h v rs ps B) (hkept : Kept h v.2 rs B)
    {size : U32} (hs : size.toNat ≤ 0xFFFFE000) (k : Bool) :
    ∃ res, heapAlloc (ledger ops) h v size k = some res ∧ AllocKept z ops ps res := by
  by_cases h0 : size = 0
  · refine ⟨(0, h, v), ?_, rs, B, hk, hkept⟩
    simp only [heapAlloc, if_pos h0, Option.pure_def]
  obtain ⟨hpos, _, _, hsize⟩ := allocSize_spec h0 (Nat.le_trans hs (by decide))
  have hn := allocSize_mod size
  rcases hk.heapAlloc_cases h0 k with ⟨_, hrun⟩ | ⟨r, b, hfit⟩
  · exact ⟨_, hrun, hk.allocNew_kept hkept (fun _ => hpos) hn (Nat.le_trans (hsize hs) (by decide)) k⟩
  · obtain ⟨h', B', hblock, hk', hkept'⟩ := hk.blockAlloc_kept (fun q hq _ => hkept.busy q hq)
      hkept.owed hfit.region hfit.block hfit.free (fun _ => hpos) hn hfit.big
    have hrun := hfit.run
    rw [hblock] at hrun
    exact ⟨_, hrun, rs, B', hk', hkept'⟩

/-! ## `heap_free` -/

/-- Blocks of which none is in use, and no two neighbours are free: there is one. -/
theorem RegionOk.all_free (hs : RegionOk z h r bs) (hfree : ∀ c ∈ bs, ¬ (h.blocks c).Used)
    (hb : b ∈ bs) : bs = [b] := by
  obtain ⟨pre, post, rfl⟩ := List.append_of_mem hb
  have hm := hs.merged
  rw [List.map_append, List.map_cons, merged_free (decide_eq_false (hfree b hb))] at hm
  obtain ⟨_, _, hlast, hnext⟩ := hm
  have hpost : post = [] := by
    cases post with
    | nil => rfl
    | cons c post =>
        refine absurd (of_decide_eq_true (hnext _ rfl)) (hfree c ?_)
        exact List.mem_append_right pre (List.mem_cons_of_mem b List.mem_cons_self)
  have hpre : pre = [] := by
    rcases List.eq_nil_or_concat pre with rfl | ⟨pre, c, rfl⟩
    · rfl
    · rw [List.concat_eq_append] at hlast hfree
      rw [List.map_append, List.map_singleton, List.getLast?_concat] at hlast
      refine absurd (of_decide_eq_true (hlast _ rfl)) (hfree c ?_)
      exact List.mem_append_left _ (List.mem_append_right pre List.mem_cons_self)
  rw [hpre, hpost, List.nil_append]

/-- **`heap_free`** of any pointer: the region goes back where its last block in
use was freed. -/
theorem HeapOk.heapFree_kept (hk : HeapOk z (ledger ops) h v rs ps B) (hkept : Kept h v.2 rs B)
    (ptr : U32) :
    ∃ h' v' rs' B', heapFree (ledger ops) h v ptr = some (h', v') ∧
      HeapOk z (ledger ops) h' v' rs' ps B' ∧ Kept h' v'.2 rs' B' := by
  by_cases hp : UsedPtr h rs B ptr
  swap
  · exact ⟨h, v, rs, B, hk.heapFree_ignored hp, hk, hkept⟩
  obtain ⟨r, hr, b, hb, hu, rfl⟩ := hp
  let h0 := h.unmark b
  obtain ⟨bs', hrel⟩ := (hk.region r (Or.inl hr)).free hb (rfl : h0 = _) hu
  obtain ⟨hk1, hblk⟩ := hk.edit (Or.inl hr) hrel.edited hrel.ok
  have hrun := hk.heapFree_block hr hb hu
  generalize hm : shrinkMerge h0 r b = m at hrel hk1 hblk
  obtain ⟨h1, x⟩ := m
  have hring := hrel.ok.ring
  by_cases hone : (h1.regions r).head = (h1.regions r).tail ∧ (h1.regions r).head = x ∧
      ¬ (h1.blocks x).Used
  · -- the region goes back, and is struck out
    obtain ⟨pre, post, rfl⟩ := List.append_of_mem hr
    have hn := hk.nodup
    rw [List.nodup_middle, List.nodup_cons] at hn
    obtain ⟨hk2, l⟩ := hk1.release
    simp only [heapShrink, show shrinkMerge (h.unmark b) r b = (h1, x) from hm, if_pos hone] at hrun
    refine ⟨_, _, pre ++ post, _, hrun, hk2, fun q hq => ?_, ?_⟩
    · have hqr : q ≠ r := ne_of_mem_of_not_mem hq hn.1
      have hq' : q ∈ pre ++ r :: post := List.mem_append.mpr
        ((List.mem_append.mp hq).imp id (List.mem_cons_of_mem r))
      obtain ⟨c, hc, hcu⟩ := hkept.busy q hq'
      rw [update_of_ne hqr]
      refine ⟨c, hc, ?_⟩
      rw [l.blocks, hblk q (Or.inl hq') hqr c hc]
      exact hcu
    · have hsizes : (regionRemove h1 r).ranges (pre ++ post) = h.ranges (pre ++ post) :=
        Heap.ranges_congr fun q _ => (l.size q).trans (hrel.edited.sizes q)
      rw [hsizes]
      show (v.2.erase (r, toPage (h1.regions r).size)).Perm _
      rw [hrel.edited.size]
      have hperm : v.2.Perm ((r, toPage (h.regions r).size) :: h.ranges (pre ++ post)) := by
        refine hkept.owed.trans ?_
        rw [Heap.ranges, Heap.ranges, List.map_append, List.map_append, List.map_cons]
        exact List.perm_middle
      have herase := hperm.erase (r, toPage (h.regions r).size)
      rwa [List.erase_cons_head] at herase
  · -- a block in use is left
    simp only [heapShrink, show shrinkMerge (h.unmark b) r b = (h1, x) from hm, if_neg hone] at hrun
    have hbusy : ∃ c ∈ bs', (h1.blocks c).Used := by
      by_contra hno
      have hfree : ∀ c ∈ bs', ¬ (h1.blocks c).Used := fun c hc hcu => hno ⟨c, hc, hcu⟩
      have hbs := hrel.ok.all_free hfree hrel.mem
      rw [hbs] at hring
      exact hone ⟨hring.head.trans hring.tail.symm, hring.head, hfree x hrel.mem⟩
    obtain ⟨c, hc, hcu⟩ := hbusy
    obtain ⟨hk2, hkept2⟩ := hk.edit_kept (fun q hq _ => hkept.busy q hq) hkept.owed hr hrel.edited
      hrel.ok hc hcu
    exact ⟨_, _, rs, _, hrun, hk2, hkept2⟩

/-! ## The ledger changes nothing -/

/-- The result without the ledger. -/
def bare (res : U32 × Heap × V × Ledger) : U32 × Heap × V := (res.1, res.2.1, res.2.2.1)

theorem allocNew_bare (h : Heap) (v : V × Ledger) (n : U32) (k : Bool) :
    bare (allocNew (ledger ops) h v n k) = allocNew ops h v.1 n k := by
  by_cases h0 : (ops.alloc v.1 k (growCount n)).1 = 0
  · have h0' : ((ledger ops).alloc v k (growCount n)).1 = 0 := h0
    simp only [allocNew, heapGrow_eq, if_pos h0, if_pos h0', if_true]
    rfl
  · have h0' : ¬ ((ledger ops).alloc v k (growCount n)).1 = 0 := h0
    simp only [allocNew, heapGrow_eq, if_neg h0, if_neg h0']
    rfl

theorem heapAlloc_bare (h : Heap) (v : V × Ledger) (size : U32) (k : Bool) :
    (heapAlloc (ledger ops) h v size k).map bare = heapAlloc ops h v.1 size k := by
  by_cases h0 : size = 0
  · simp only [heapAlloc, if_pos h0, Option.pure_def, Option.map_some]
    rfl
  simp only [heapAlloc, if_neg h0, Option.bind_eq_bind, Option.pure_def]
  cases blockFindFree h (allocSize size) k with
  | none => rfl
  | some found =>
      rw [Option.bind_some, Option.bind_some]
      cases found with
      | none => exact congrArg some (allocNew_bare h v _ k)
      | some x =>
          obtain ⟨block, region⟩ := x
          simp only []
          split
          · rfl
          · exact congrArg some (allocNew_bare _ v _ k)

theorem heapFree_bare (h : Heap) (v : V × Ledger) (ptr : U32) :
    (heapFree (ledger ops) h v ptr).map (fun r => (r.1, r.2.1)) = heapFree ops h v.1 ptr := by
  by_cases h0 : ptr = 0
  · simp only [heapFree, if_pos h0, Option.pure_def, Option.map_some]
  simp only [heapFree, if_neg h0, Option.bind_eq_bind, Option.pure_def]
  cases blockFind h ptr with
  | none => rfl
  | some found =>
      rw [Option.bind_some, Option.bind_some]
      cases found with
      | none => rfl
      | some x =>
          obtain ⟨block, region⟩ := x
          simp only []
          split
          · rfl
          · simp only [heapShrink, Option.map_some]
            split
            · rfl
            · rfl

/-! ## Runs -/

/-- The state of a run, with what the heap has taken and not given back. -/
def HeapState.with (s : HeapState V) (out : Ledger) : HeapState (V × Ledger) :=
  ⟨s.heap, (s.vmm, out), s.live⟩

/-- After `heap_init`, with nothing handed out. -/
def LedgerStart (ops : VmmOps V) (s : HeapState (V × Ledger)) : Prop :=
  HeapStart (ledger ops) s ∧ s.vmm.2 = []

def LedgerReach (ops : VmmOps V) : HeapState (V × Ledger) → Prop :=
  Reach (LedgerStart ops) (HeapStep (ledger ops))

/-- The ledger goes along with every call. -/
theorem HeapCall.run_ledger {s s' : HeapState V} {call : HeapCall} (hrun : call.run ops s = some s')
    (out : Ledger) : ∃ out', call.run (ledger ops) (s.with out) = some (s'.with out') := by
  cases call with
  | alloc size k =>
      have hbare : _ = heapAlloc ops s.heap s.vmm size k := heapAlloc_bare s.heap (s.vmm, out) size k
      cases hled : heapAlloc (ledger ops) s.heap (s.vmm, out) size k with
      | none =>
          rw [hled] at hbare
          simp only [HeapCall.run, ← hbare, Option.map_none, Option.bind_eq_bind, Option.bind_none,
            reduceCtorEq] at hrun
      | some res =>
          rw [hled] at hbare
          simp only [HeapCall.run, ← hbare, Option.map_some, Option.bind_eq_bind, Option.bind_some,
            Option.pure_def, Option.some.injEq] at hrun
          refine ⟨res.2.2.2, ?_⟩
          rw [← hrun]
          simp only [HeapCall.run, HeapState.with, hled, Option.bind_eq_bind, Option.bind_some,
            Option.pure_def]
          rfl
  | free ptr =>
      have hbare : _ = heapFree ops s.heap s.vmm ptr := heapFree_bare s.heap (s.vmm, out) ptr
      cases hled : heapFree (ledger ops) s.heap (s.vmm, out) ptr with
      | none =>
          rw [hled] at hbare
          simp only [HeapCall.run, ← hbare, Option.map_none, Option.bind_eq_bind, Option.bind_none,
            reduceCtorEq] at hrun
      | some res =>
          rw [hled] at hbare
          simp only [HeapCall.run, ← hbare, Option.map_some, Option.bind_eq_bind, Option.bind_some,
            Option.pure_def, Option.some.injEq] at hrun
          refine ⟨res.2.2, ?_⟩
          rw [← hrun]
          simp only [HeapCall.run, HeapState.with, hled, Option.bind_eq_bind, Option.bind_some,
            Option.pure_def]

/-- Every run is a run with a ledger. -/
theorem HeapReach.ledgered {s : HeapState V} (hs : HeapReach ops s) :
    ∃ out, LedgerReach ops (s.with out) := by
  induction hs with
  | start h => exact ⟨[], .start ⟨h, rfl⟩⟩
  | next _ hstep ih =>
      obtain ⟨out, hreach⟩ := ih
      obtain ⟨out', hrun⟩ := HeapCall.run_ledger hstep.2 out
      exact ⟨out', hreach.next ⟨hstep.1, hrun⟩⟩

/-- The invariant. -/
def HeapState.Keeps (ops : VmmOps V) (s : HeapState (V × Ledger)) : Prop :=
  ∃ rs B, HeapOk false (ledger ops) s.heap s.vmm rs NoPending B ∧ Kept s.heap s.vmm.2 rs B

/-- **One call.** -/
theorem HeapState.Keeps.call {s s' : HeapState (V × Ledger)} (hs : s.Keeps ops) {call : HeapCall}
    (hstep : HeapStep (ledger ops) call s s') : s'.Keeps ops := by
  obtain ⟨hlegal, hrun⟩ := hstep
  obtain ⟨rs, B, hk, hkept⟩ := hs
  cases call with
  | alloc size k =>
      obtain ⟨res, hcall, rs', B', hk', hkept'⟩ := hk.heapAlloc_kept hkept hlegal k
      simp only [HeapCall.run, hcall, Option.bind_eq_bind, Option.bind_some, Option.pure_def,
        Option.some.injEq] at hrun
      subst hrun
      exact ⟨rs', B', hk', hkept'⟩
  | free ptr =>
      obtain ⟨h', v', rs', B', hcall, hk', hkept'⟩ := hk.heapFree_kept hkept ptr
      simp only [HeapCall.run, hcall, Option.bind_eq_bind, Option.bind_some, Option.pure_def,
        Option.some.injEq] at hrun
      subst hrun
      exact ⟨rs', B', hk', hkept'⟩

theorem LedgerReach.keeps {s : HeapState (V × Ledger)} (hs : LedgerReach ops s) : s.Keeps ops := by
  refine Reach.invariant (HeapState.Keeps ops) (fun s hs => ?_) (fun _ _ _ hi hstep => hi.call hstep) hs
  obtain ⟨⟨⟨h, hh⟩, hv, _⟩, hout⟩ := hs
  refine ⟨[], fun _ => [], ?_, fun r hr => absurd hr List.not_mem_nil, ?_⟩
  · rw [hh]
    exact heapInit_ok h hv _
  · rw [hout]
    exact List.Perm.nil

/-- **The heap returns what it took.**  In every state of every run, the ranges
that the manager has handed out and not got back are the regions of the heap, and
each region has a live allocation in it; so where nothing is live, there is no
region, and nothing is out. -/
theorem heapRun_returns {s : HeapState V} (hs : HeapReach ops s) :
    ∃ out rs B, LedgerReach ops (s.with out) ∧ s.heap.Represented rs B ∧
      out.Perm (s.heap.ranges rs) ∧
      (∀ r ∈ rs, ∃ b ∈ B r, ∃ a ∈ s.live, a.1 = blockPtr b) ∧
      (s.live = [] → out = [] ∧ s.heap.head = 0 ∧ s.heap.tail = 0) := by
  obtain ⟨out, hled⟩ := hs.ledgered
  obtain ⟨rs, B, hk, hkept⟩ := hled.keeps
  -- the blocks in use are the live ones
  have hlegal : Reach (HeapStart ops) (Guarded (fun (call : HeapCall) _ => call.Legal)
      fun call s s' => call.run ops s = some s') s := hs
  have hany : HeapAnyReach ops s := hlegal.of_guarded
  obtain ⟨rs', B', hk', hmarked⟩ := hany.marked
  obtain rfl := hk.ring.unique hk'.ring
  have hlive : ∀ r ∈ rs, ∃ b ∈ B r, ∃ a ∈ s.live, a.1 = blockPtr b := by
    intro r hr
    obtain ⟨b, hb, hu⟩ := hkept.busy r hr
    have hblocks : B r = B' r :=
      (hk.region r (Or.inl hr)).ring.unique (hk'.region r (Or.inl hr)).ring
    exact ⟨b, hb, hmarked _ ⟨r, hr, b, hblocks ▸ hb, hu, rfl⟩⟩
  refine ⟨out, rs, B, hled, hk.represented, hkept.owed, hlive, fun hnil => ?_⟩
  have hrs : rs = [] := by
    refine List.eq_nil_iff_forall_not_mem.mpr fun r hr => ?_
    obtain ⟨_, _, a, ha, _⟩ := hlive r hr
    rw [hnil] at ha
    exact List.not_mem_nil ha
  have howed : out.Perm (s.heap.ranges rs) := hkept.owed
  have hring : Ring s.heap.regionLinks 0 rs := hk.ring
  rw [hrs] at howed hring
  exact ⟨howed.eq_nil, hring.head, hring.tail⟩

/-- Three allocations, of which two share a region, and all are freed. -/
def sixCalls : List HeapCall :=
  [.alloc 100 false, .alloc 70000 true, .alloc 400 false, .free 0x100030, .free 0x110030,
    .free 0x1000B0]

theorem sixCalls_live :
    (sixCalls.foldlM (HeapCall.run rangeVmm) emptyState).map (fun s => s.live) = some [] ∧
      ((sixCalls.take 3).foldlM (HeapCall.run rangeVmm) emptyState).map (fun s => s.live)
        = some [(0x1000B0, 400), (0x110030, 70000), (0x100030, 100)] := by decide +kernel

theorem heapRun_returns_three : ∃ s : HeapState U32, HeapReach rangeVmm s ∧ s.live = [] ∧
    s.heap.head = 0 ∧ LedgerReach rangeVmm (s.with []) := by
  obtain ⟨s, hrun, hlive⟩ := Option.map_eq_some_iff.mp sixCalls_live.1
  have hlegal : ∀ c ∈ sixCalls, c.Legal := by simp [sixCalls, HeapCall.Legal]
  have hreach : HeapReach rangeVmm s :=
    Reach.foldlM (fun c hc _ _ h => ⟨hlegal c hc, h⟩) (.start emptyState_start) hrun
  obtain ⟨out, _, _, hled, _, _, _, hnil⟩ := heapRun_returns hreach
  obtain ⟨rfl, hhead, _⟩ := hnil hlive
  exact ⟨s, hreach, hlive, hhead, hled⟩

end Tomk
