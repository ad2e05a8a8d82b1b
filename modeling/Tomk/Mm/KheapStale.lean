/-
# Pointers that `heap_free` ignores

`heap_free` looks its pointer up in the lists, so that what lies in memory beside them, old
headers and payloads, is never read.  Its block must be marked as used, and the mark
tells what is live from what was freed: in any run, with any sizes and any pointers, a block that is
marked is one whose pointer `heap_alloc` has returned and `heap_free` has not been
given since (`HeapState.Marked`).  So a pointer that is not live is ignored, whatever it
was once (`heapRun_free_ignored`).

The flags of a block change where it is marked and unmarked, and nowhere else; a block that
comes into a list is free.
-/
import Tomk.Mm.KheapUndo

namespace Tomk

open DList Tiling Function Runs

variable {V : Type} {z : Bool} {ops : VmmOps V} {h h' : Heap} {v v' : V} {rs : List U32}
  {ps : U32 → Prop} {B : U32 → List U32} {r b c ptr : U32} {bs pre post : List U32}

/-- The pointers to the payloads of the blocks in use. -/
def UsedPtr (h : Heap) (rs : List U32) (B : U32 → List U32) (p : U32) : Prop :=
  ∃ r ∈ rs, ∃ b ∈ B r, (h.blocks b).Used ∧ blockPtr b = p

/-! ## Allocations -/

theorem Heap.mark_fields (h : Heap) {x : U32} (hx : x ≠ b) : (h.mark b).fields x = h.fields x := by
  rw [Heap.mark, Heap.setBlock_fields, if_neg hx]

theorem Block.used_congr (hf : h'.fields c = h.fields c) : (h'.blocks c).Used ↔ (h.blocks c).Used := by
  rw [Block.Used, (Prod.mk.inj hf).2, Block.Used]

/-- Of the blocks that there are then, those in use were in use, but for the one that is
allocated. -/
theorem RegionOk.alloc_used (hs : RegionOk z h r bs) (hb : b ∈ bs) (hfree : ¬ (h.blocks b).Used)
    {n : U32} (hn0 : z = false → 0 < n.toNat) (hn : n.toNat % 16 = 0) (hle : n ≤ (h.blocks b).size) :
    ∃ h' bs', blockAlloc h r b n = (true, h') ∧ Allocated z h h' r b bs bs' n.toNat ∧
      ∀ x ∈ bs', (h'.blocks x).Used → x = b ∨ x ∈ bs ∧ (h.blocks x).Used := by
  obtain ⟨h', bs', hrun, ha⟩ := hs.alloc hb hfree hn0 hn hle
  refine ⟨h', bs', hrun, ha, fun x hx hu => ?_⟩
  rw [blockAlloc_eq hs.ne (hs.block_ne hb) hle] at hrun
  obtain rfl := (Prod.mk.inj hrun).2.symm
  by_cases hxb : x = b
  · exact Or.inl hxb
  obtain ⟨pre, post, rfl⟩ := List.append_of_mem hb
  rw [Block.used_congr (Heap.mark_fields _ hxb)] at hu
  by_cases hroom : n + headerSize + minBlockSize ≤ (h.blocks b).size
  · rw [if_pos hroom] at ha hu
    rw [BitVec.le_def, hs.toNat_room hb hle] at hroom
    have hcut := hs.cut hb hroom rfl
    -- the list with what is split off
    have hlist := (hs.split hn0 hn hroom rfl rfl).1.mark.1.ring.unique ha.ok.ring
    have hfields := splitBlock_fields h r n hcut.ne_block x
    rw [if_neg hxb] at hfields
    by_cases hxc : x = b + headerSize + n
    · rw [if_pos hxc] at hfields
      rw [Block.Used, (Prod.mk.inj hfields).2] at hu
      exact absurd rfl hu
    · rw [if_neg hxc] at hfields
      rw [← hlist, List.mem_append, List.mem_cons, List.mem_cons] at hx
      rw [List.mem_append, List.mem_cons]
      exact Or.inr ⟨hx.imp id fun hx => hx.imp id fun hx => hx.resolve_left hxc,
        (Block.used_congr hfields).mp hu⟩
  · rw [if_neg hroom] at ha hu
    have hlist := hs.mark.1.ring.unique ha.ok.ring
    exact Or.inr ⟨hlist ▸ hx, hu⟩

theorem HeapOk.blockAlloc_used (hk : HeapOk z ops h v rs ps B) (hr : r ∈ rs) (hb : b ∈ B r)
    (hfree : ¬ (h.blocks b).Used) {n : U32} (hn0 : z = false → 0 < n.toNat) (hn : n.toNat % 16 = 0)
    (hle : n ≤ (h.blocks b).size) :
    ∃ h' B', blockAlloc h r b n = (true, h') ∧ HeapOk z ops h' v rs ps B' ∧
      ∀ p, UsedPtr h' rs B' p → p = blockPtr b ∨ UsedPtr h rs B p := by
  obtain ⟨h', bs', hrun, ha, hused⟩ := (hk.region r (Or.inl hr)).alloc_used hb hfree hn0 hn hle
  obtain ⟨hk', hblk⟩ := hk.edit (Or.inl hr) ha.edited ha.ok
  refine ⟨h', _, hrun, hk', ?_⟩
  rintro p ⟨q, hq, c, hc, hu, rfl⟩
  by_cases hqr : q = r
  · subst hqr
    rw [update_self] at hc
    rcases hused c hc hu with rfl | ⟨hc, hu⟩
    · exact Or.inl rfl
    · exact Or.inr ⟨q, hq, c, hc, hu, rfl⟩
  · rw [update_of_ne hqr] at hc
    rw [hblk q (Or.inl hq) hqr c hc] at hu
    exact Or.inr ⟨q, hq, c, hc, hu, rfl⟩

/-- What a call of `heap_alloc` leads to, for the blocks in use. -/
def AllocUsed (z : Bool) (ops : VmmOps V) (h : Heap) (rs : List U32) (ps : U32 → Prop)
    (B : U32 → List U32) (res : U32 × Heap × V) : Prop :=
  ∃ rs' B', HeapOk z ops res.2.1 res.2.2 rs' ps B' ∧
    ∀ p, UsedPtr res.2.1 rs' B' p → (res.1 ≠ 0 ∧ p = res.1) ∨ UsedPtr h rs B p

theorem HeapOk.allocNew_used (hk : HeapOk z ops h v rs ps B) {n : U32}
    (hn0 : z = false → 0 < n.toNat) (hn : n.toNat % 16 = 0) (k : Bool) :
    AllocUsed z ops h rs ps B (allocNew ops h v n k) := by
  rcases hk.allocNew_cases n k with ⟨v', _, hrun, hk'⟩ | ⟨r, h2, v', ha⟩
  · rw [hrun]
    exact ⟨rs, B, hk', fun p hp => Or.inr hp⟩
  -- the block of the new region is free
  have hused : ∀ p, UsedPtr h2 (rs ++ [r]) (update B r [regionBlock r]) p → UsedPtr h rs B p := by
    rintro p ⟨q, hq, c, hc, hu, rfl⟩
    by_cases hqr : q = r
    · rw [hqr, update_self, List.mem_singleton] at hc
      exact absurd (hc ▸ hu) ha.free
    · rw [update_of_ne hqr] at hc
      have hq : q ∈ rs := (List.mem_append.mp hq).resolve_right fun h => hqr (List.mem_singleton.mp h)
      rw [ha.blocks q (Or.inl hq) c hc] at hu
      exact ⟨q, hq, c, hc, hu, rfl⟩
  rw [ha.run]
  by_cases hlt : (h2.blocks (regionBlock r)).size < n
  · rw [blockAlloc_small hlt]
    exact ⟨_, _, ha.ok, fun p hp => Or.inr (hused p hp)⟩
  · obtain ⟨h3, B', hrun3, hk3, hused3⟩ := ha.ok.blockAlloc_used ha.mem ha.block ha.free hn0 hn
      (BitVec.not_lt.mp hlt)
    rw [hrun3, if_pos rfl]
    exact ⟨_, B', hk3, fun p hp => (hused3 p hp).imp (fun hp => ⟨ha.ptr_ne, hp⟩) (hused p)⟩

/-- **`heap_alloc`** of any size marks the block that it returns. -/
theorem HeapOk.heapAlloc_used (hk : HeapOk z ops h v rs ps B) (size : U32)
    (hz : size ≠ 0 → z = false → 0 < (allocSize size).toNat) (k : Bool) :
    ∃ res, heapAlloc ops h v size k = some res ∧ AllocUsed z ops h rs ps B res := by
  by_cases h0 : size = 0
  · refine ⟨(0, h, v), ?_, rs, B, hk, fun p hp => Or.inr hp⟩
    simp only [heapAlloc, if_pos h0, Option.pure_def]
  have hn := allocSize_mod size
  rcases hk.heapAlloc_cases h0 k with ⟨_, hrun⟩ | ⟨r, b, hs⟩
  · exact ⟨_, hrun, hk.allocNew_used (hz h0) hn k⟩
  · obtain ⟨h', B', hblock, hk', hused⟩ := hk.blockAlloc_used hs.region hs.block hs.free (hz h0) hn
      hs.big
    have hrun := hs.run
    rw [hblock] at hrun
    exact ⟨_, hrun, rs, B', hk', fun p hp => (hused p hp).imp (fun hp => ⟨hs.ptr_ne, hp⟩) id⟩

/-! ## `heap_free` -/

/-- **`heap_free`** of a pointer that leads to no block in use. -/
theorem HeapOk.heapFree_ignored (hk : HeapOk z ops h v rs ps B) (hp : ¬ UsedPtr h rs B ptr) :
    heapFree ops h v ptr = some (h, v) := by
  by_cases h0 : ptr = 0
  · simp only [heapFree, if_pos h0, Option.pure_def]
  rcases hk.blockFind_cases ptr with ⟨hfind, _⟩ | ⟨r, hr, b, hb, hptr, hfind⟩
  · simp only [heapFree, if_neg h0, hfind, Option.bind_eq_bind, Option.bind_some, Option.pure_def]
  · have hu : ¬ (h.blocks b).Used := fun hu => hp ⟨r, hr, b, hb, hu, hptr⟩
    simp only [heapFree, if_neg h0, hfind, Option.bind_eq_bind, Option.bind_some, if_pos hu,
      Option.pure_def]

theorem blockFree_flags (h : Heap) (r b x : U32) :
    ((blockFree h r b).blocks x).flags = (h.blocks x).flags := by
  simp only [blockFree]
  split
  · rfl
  split
  · rfl
  split
  · rfl
  split
  · rfl
  · have hf := congrFun (blockRemove_fields (h.setBlock b { h.blocks b with
      size := (h.blocks b).size + (headerSize + (h.blocks (h.blocks b).next).size) }) r
      (h.blocks b).next) x
    rw [(Prod.mk.inj hf).2, Heap.setBlock_blocks]
    split
    · next hx => rw [hx]
    · rfl

theorem shrinkMerge_flags (h : Heap) (r b x : U32) :
    ((shrinkMerge h r b).1.blocks x).flags = (h.blocks x).flags := by
  simp only [shrinkMerge]
  split
  · rw [blockFree_flags, blockFree_flags]
  · rw [blockFree_flags]

/-- **`heap_free`** of any pointer unmarks its block, and marks none. -/
theorem HeapOk.heapFree_used (hk : HeapOk z ops h v rs ps B) (ptr : U32) :
    ∃ h' v' rs' B', heapFree ops h v ptr = some (h', v') ∧ HeapOk z ops h' v' rs' ps B' ∧
      ∀ p, UsedPtr h' rs' B' p → p ≠ ptr ∧ UsedPtr h rs B p := by
  by_cases hp : UsedPtr h rs B ptr
  swap
  · refine ⟨h, v, rs, B, hk.heapFree_ignored hp, hk, fun p hu => ⟨?_, hu⟩⟩
    rintro rfl
    exact hp hu
  obtain ⟨r, hr, b, hb, hu, rfl⟩ := hp
  let h0 := h.unmark b
  obtain ⟨bs', hrel⟩ := (hk.region r (Or.inl hr)).free hb (rfl : h0 = _) hu
  obtain ⟨hk1, hblk⟩ := hk.edit (Or.inl hr) hrel.edited hrel.ok
  -- a block in use was in use, and is not the one that was unmarked
  have hused : ∀ p, UsedPtr (shrinkMerge h0 r b).1 rs (update B r bs') p →
      p ≠ blockPtr b ∧ UsedPtr h rs B p := by
    rintro p ⟨q, hq, c, hc, hcu, rfl⟩
    rw [Block.Used, shrinkMerge_flags] at hcu
    have hcb : c ≠ b := by
      rintro rfl
      have hflags : (h0.blocks c).flags = (h.blocks c).flags &&& ~~~blockFlagUsed := by
        show ((h.setBlock c _).blocks c).flags = _
        rw [Heap.setBlock_blocks, if_pos rfl]
      rw [hflags] at hcu
      exact hcu (not_used_and _)
    have hsame : h0.blocks c = h.blocks c := by
      show (h.setBlock b _).blocks c = _
      rw [Heap.setBlock_blocks, if_neg hcb]
    rw [hsame] at hcu
    refine ⟨fun hpc => hcb (blockPtr_inj hpc), q, hq, c, ?_, hcu, rfl⟩
    by_cases hqr : q = r
    · rw [hqr, update_self] at hc
      exact hqr ▸ hrel.sub hc
    · rwa [update_of_ne hqr] at hc
  have hrun := hk.heapFree_block hr hb hu
  generalize hm : shrinkMerge h0 r b = m at hk1 hused
  obtain ⟨h1, x⟩ := m
  by_cases hone : (h1.regions r).head = (h1.regions r).tail ∧ (h1.regions r).head = x ∧
      ¬ (h1.blocks x).Used
  · obtain ⟨pre, post, rfl⟩ := List.append_of_mem hr
    obtain ⟨hk2, l⟩ := hk1.release
    simp only [heapShrink, show shrinkMerge (h.unmark b) r b = (h1, x) from hm, if_pos hone] at hrun
    refine ⟨_, _, pre ++ post, _, hrun, hk2, ?_⟩
    rintro p ⟨q, hq, c, hc, hcu, rfl⟩
    rw [l.blocks] at hcu
    rw [List.mem_append] at hq
    exact hused _ ⟨q, List.mem_append.mpr (hq.imp id (List.mem_cons_of_mem r)), c, hc, hcu, rfl⟩
  · simp only [heapShrink, show shrinkMerge (h.unmark b) r b = (h1, x) from hm, if_neg hone] at hrun
    exact ⟨_, _, rs, _, hrun, hk1, hused⟩

/-! ## Runs -/

/-- Calls with any sizes. -/
def HeapAnyReach (ops : VmmOps V) : HeapState V → Prop :=
  Reach (HeapStart ops) fun (c : HeapCall) s s' => c.run ops s = some s'

/-- A block that is marked as used has been allocated, and not been freed. -/
def HeapState.Marked (ops : VmmOps V) (s : HeapState V) : Prop :=
  ∃ rs B, HeapOk true ops s.heap s.vmm rs NoPending B ∧
    ∀ p, UsedPtr s.heap rs B p → ∃ a ∈ s.live, a.1 = p

theorem HeapStart.marked {s : HeapState V} (hs : HeapStart ops s) : s.Marked ops := by
  obtain ⟨⟨h, hh⟩, hv, _⟩ := hs
  refine ⟨[], fun _ => [], ?_, fun p ⟨r, hr, _⟩ => absurd hr List.not_mem_nil⟩
  rw [hh]
  exact heapInit_ok h hv _

theorem HeapState.Marked.call {s s' : HeapState V} (hs : s.Marked ops) {c : HeapCall}
    (hrun : c.run ops s = some s') : s'.Marked ops := by
  obtain ⟨rs, B, hk, hm⟩ := hs
  cases c with
  | alloc size k =>
      obtain ⟨⟨ptr, h', v'⟩, hcall, rs', B', hk', hused⟩ :=
        hk.heapAlloc_used size (fun _ hz => Bool.noConfusion hz) k
      simp only [HeapCall.run, hcall, Option.bind_eq_bind, Option.bind_some, Option.pure_def,
        Option.some.injEq] at hrun
      subst hrun
      refine ⟨rs', B', hk', fun p hp => ?_⟩
      rcases hused p hp with ⟨h0, rfl⟩ | hp
      · exact ⟨_, by rw [if_neg h0]; exact List.mem_cons_self, rfl⟩
      · obtain ⟨a, ha, rfl⟩ := hm p hp
        refine ⟨a, ?_, rfl⟩
        dsimp only
        split
        · exact ha
        · exact List.mem_cons_of_mem _ ha
  | free ptr =>
      obtain ⟨h', v', rs', B', hcall, hk', hused⟩ := hk.heapFree_used ptr
      simp only [HeapCall.run, hcall, Option.bind_eq_bind, Option.bind_some, Option.pure_def,
        Option.some.injEq] at hrun
      subst hrun
      refine ⟨rs', B', hk', fun p hp => ?_⟩
      obtain ⟨hne, hp⟩ := hused p hp
      obtain ⟨a, ha, rfl⟩ := hm p hp
      exact ⟨a, List.mem_filter.mpr ⟨ha, decide_eq_true hne⟩, rfl⟩

theorem HeapAnyReach.marked {s : HeapState V} (hs : HeapAnyReach ops s) : s.Marked ops :=
  Reach.invariant (HeapState.Marked ops) (fun _ hs => hs.marked)
    (fun _ _ _ hi hrun => hi.call hrun) hs

/-- **Pointers that are no payload of a block in use are ignored**, in every state of every
run: among them are all that `heap_alloc` has not returned, or `heap_free` has been
given since. -/
theorem heapRun_free_ignored {s : HeapState V} (hs : HeapAnyReach ops s) :
    ∃ rs B, Ring s.heap.regionLinks 0 rs ∧ (∀ r ∈ rs, Ring (s.heap.blockLinks r) 0 (B r)) ∧
      (∀ ptr, ¬ UsedPtr s.heap rs B ptr → heapFree ops s.heap s.vmm ptr = some (s.heap, s.vmm)) ∧
      ∀ ptr, (∀ a ∈ s.live, a.1 ≠ ptr) → ¬ UsedPtr s.heap rs B ptr := by
  obtain ⟨rs, B, hk, hm⟩ := hs.marked
  refine ⟨rs, B, hk.ring, fun r hr => (hk.region r (Or.inl hr)).ring,
    fun ptr hp => hk.heapFree_ignored hp, fun ptr hdead hp => ?_⟩
  obtain ⟨a, ha, rfl⟩ := hm ptr hp
  exact hdead a ha rfl

/-- The pointer that the last of `threeCalls` has freed. -/
theorem heapRun_free_ignored_three : ∃ s, HeapAnyReach rangeVmm s ∧
    s.live = [(0x100250, 5000), (0x100030, 100)] ∧
      heapFree rangeVmm s.heap s.vmm 0x1000B0 = some (s.heap, s.vmm) := by
  obtain ⟨s, hrun, hlive⟩ := Option.map_eq_some_iff.mp threeCalls_live
  have hreach : HeapAnyReach rangeVmm s :=
    Reach.foldlM (fun _ _ _ _ h => h) (.start emptyState_start) hrun
  obtain ⟨rs, B, _, _, hignored, hdead⟩ := heapRun_free_ignored hreach
  refine ⟨s, hreach, hlive, hignored _ (hdead _ fun a ha => ?_)⟩
  rw [hlive] at ha
  simp only [List.mem_cons, List.not_mem_nil, or_false] at ha
  rcases ha with rfl | rfl
  all_goals decide

end Tomk
