/-
# An allocation, taken back

A block that `heap_alloc` returns was found and split, found and taken whole, or is
the first of a region that was grown for it.  `heap_free` undoes each of them with the
same steps: it merges the block with what is free after it, then with what is
free before it, and gives the region back if nothing else is in it.

That this goes back exactly as far is again `Merged`: the block was free, so its
neighbours were in use, and all that is free next to it now is what was split off.  A region of
one free block is the one thing that would not come back, since there is no way to tell
it from one that was grown.
-/
import Tomk.Mm.KheapKinds
import Tomk.Mm.KheapSize

namespace Tomk

open DList Tiling Function

variable {V : Type} {z : Bool} {ops : VmmOps V} {h h' : Heap} {v v' : V} {rs : List U32}
  {ps : U32 → Prop} {B : U32 → List U32} {r b c : U32} {bs pre post : List U32}

/-! ## One region -/

/-- The block is unmarked, as `heap_free` does it before the merges. -/
def Heap.unmark (h : Heap) (b : U32) : Heap :=
  h.setBlock b { h.blocks b with flags := (h.blocks b).flags &&& ~~~blockFlagUsed }

theorem or_and_not_used {f : U32} (hf : f &&& blockFlagUsed = 0) :
    (f ||| blockFlagUsed) &&& ~~~blockFlagUsed = f := by
  refine BitVec.eq_of_getLsbD_eq fun i hi => ?_
  have hbit : (f.getLsbD i && blockFlagUsed.getLsbD i) = false := by
    rw [← BitVec.getLsbD_and, hf]
    exact BitVec.getLsbD_zero
  rw [BitVec.getLsbD_and, BitVec.getLsbD_or, BitVec.getLsbD_not, decide_eq_true hi]
  revert hbit
  cases f.getLsbD i <;> cases blockFlagUsed.getLsbD i <;> decide

/-- A free block that is marked and unmarked is as it was. -/
theorem mark_unmark (hfree : ¬ (h.blocks b).Used) : (h.mark b).unmark b = h := by
  have hflags := or_and_not_used (not_not.mp hfree)
  have hself : (h.mark b).blocks b
      = { h.blocks b with flags := (h.blocks b).flags ||| blockFlagUsed } := by
    rw [Heap.mark, Heap.setBlock_blocks, if_pos rfl]
  rw [Heap.unmark, hself]
  simp only [hflags]
  rw [Heap.mark, Heap.setBlock, Heap.setBlock]
  simp only [update_idem, update_eq_self]

/-- Nothing is merged with a block that was free in a region. -/
theorem RegionOk.shrinkMerge_free (hs : RegionOk z h r bs) (hb : b ∈ bs)
    (hfree : ¬ (h.blocks b).Used) : shrinkMerge h r b = (h, b) := by
  obtain ⟨pre, post, rfl⟩ := List.append_of_mem hb
  have hm := hs.merged
  have hbu : (h.tile b).used = false := decide_eq_false hfree
  rw [List.map_append, List.map_cons, merged_free hbu] at hm
  obtain ⟨_, _, hlast, hnext⟩ := hm
  have hstay : blockFree h r b = h := by
    have hn := hs.next_eq
    rw [blockFree, if_neg hs.ne, if_neg (hs.block_ne hb)]
    cases post with
    | nil => exact if_pos hn
    | cons c post =>
        have hc := hs.block_ne (List.mem_append_right pre (List.mem_cons_of_mem b List.mem_cons_self))
        have hu : (h.blocks c).Used := of_decide_eq_true (hnext _ rfl)
        simp only [hn, List.headD_cons, if_neg hc, if_pos hu]
  have hs' : RegionShape z (blockFree h r b) r (pre ++ b :: post) := by
    rw [hstay]
    exact hs.toRegionShape
  rw [hs'.shrinkMerge_stay (by rw [hstay]; exact hlast), hstay]

/-- What is split off is merged again, and no more. -/
theorem RegionOk.shrinkMerge_split (hs : RegionOk z h r (pre ++ b :: post))
    (hfree : ¬ (h.blocks b).Used) {n : U32} (hn0 : z = false → 0 < n.toNat) (hn : n.toNat % 16 = 0)
    (hroom : n.toNat + 32 ≤ (h.blocks b).size.toNat) (hc : c = b + headerSize + n) :
    ∃ h2, shrinkMerge (splitBlock h r b c n) r b = (h2, b) ∧ RegionOk z h2 r (pre ++ b :: post) ∧
      Edited (h.Inside r) r h h2 ∧ ∀ x ∈ pre ++ b :: post, h2.fields x = h.fields x := by
  have hb : b ∈ pre ++ b :: post := List.mem_append_right pre List.mem_cons_self
  have hcut := hs.cut hb hroom hc
  obtain ⟨hs1, e1, hcmem, -, -, hcu, -, -⟩ := hs.split hn0 hn hroom hc rfl
  have hcfree : ¬ ((splitBlock h r b c n).blocks c).Used := of_decide_eq_false hcu
  obtain ⟨hs2, e2, -, -⟩ := hs1.merge hcfree rfl
  rw [e1.inside] at e2
  have hfields : ∀ x ∈ pre ++ b :: post,
      (blockFree (splitBlock h r b c n) r b).fields x = h.fields x := by
    intro x hx
    have hxc := ne_of_mem_of_not_mem hx hcmem
    have hsplit := splitBlock_fields h r n hcut.ne_block
    have hnext : ((splitBlock h r b c n).blocks b).next = c := hs1.next_eq
    rw [blockFree_next hs.ne (hs.block_ne hb) hnext hcut.ne hcfree, blockRemove_fields,
      Heap.setBlock_fields]
    by_cases hxb : x = b
    · have hsb := hsplit b
      have hsc := hsplit c
      rw [if_pos rfl] at hsb
      rw [if_neg hcut.ne_block, if_pos rfl] at hsc
      obtain ⟨hsize, hflags⟩ := Prod.mk.inj hsb
      rw [if_pos hxb, hxb, hsize, (Prod.mk.inj hsc).1]
      refine Prod.ext ?_ hflags
      show n + (headerSize + ((h.blocks b).size - headerSize - n)) = (h.blocks b).size
      -- the size is the sum again
      generalize (h.blocks b).size = s
      generalize headerSize = k
      bv_omega
    · rw [if_neg hxb, hsplit, if_neg hxb, if_neg hxc]
  have htiles : (pre ++ b :: post).map (blockFree (splitBlock h r b c n) r b).tile
      = (pre ++ b :: post).map h.tile :=
    List.map_congr_left fun x hx => Heap.tile_congr (hfields x hx)
  have hm := hs.merged
  refine ⟨_, hs2.shrinkMerge_stay ?_, ⟨hs2, by rw [htiles]; exact hm⟩, e1.trans e2, hfields⟩
  rw [List.map_append, List.map_cons, merged_free (decide_eq_false hfree)] at hm
  rw [List.map_append, List.map_append] at htiles
  rw [(List.append_inj htiles (by simp)).1]
  exact hm.2.2.1

/-- **A block is allocated and freed**, up to the release of the region. -/
theorem RegionOk.alloc_free (hs : RegionOk z h r bs) (hb : b ∈ bs) (hfree : ¬ (h.blocks b).Used)
    {n : U32} (hn0 : z = false → 0 < n.toNat) (hn : n.toNat % 16 = 0) (hle : n ≤ (h.blocks b).size) :
    ∃ h2, shrinkMerge ((blockAlloc h r b n).2.unmark b) r b = (h2, b) ∧ RegionOk z h2 r bs ∧
      Edited (h.Inside r) r h h2 ∧ ∀ x ∈ bs, h2.fields x = h.fields x := by
  rw [blockAlloc_eq hs.ne (hs.block_ne hb) hle]
  split
  · next hroom =>
      obtain ⟨pre, post, rfl⟩ := List.append_of_mem hb
      rw [BitVec.le_def, hs.toNat_room hb hle] at hroom
      have hcut := hs.cut hb hroom rfl
      have hbf : ¬ ((splitBlock h r b (b + headerSize + n) n).blocks b).Used := by
        have hf := splitBlock_fields h r n hcut.ne_block b
        rw [if_pos rfl] at hf
        rw [Block.Used, (Prod.mk.inj hf).2]
        exact hfree
      rw [mark_unmark hbf]
      exact hs.shrinkMerge_split hfree hn0 hn hroom rfl
  · rw [mark_unmark hfree, hs.shrinkMerge_free hb hfree]
    exact ⟨h, rfl, hs, Edited.refl _ _ _, fun _ _ => rfl⟩

/-! ## The lists -/

theorem Region.eq_of {x y : Region} (hsize : x.size = y.size) (hflags : x.flags = y.flags)
    (hnext : x.next = y.next) (hprev : x.prev = y.prev) (hhead : x.head = y.head)
    (htail : x.tail = y.tail) : x = y := by
  cases x
  cases y
  simp_all

theorem Block.eq_of {x y : Block} (hfields : (x.size, x.flags) = (y.size, y.flags))
    (hnext : x.next = y.next) (hprev : x.prev = y.prev) : x = y := by
  cases x
  cases y
  simp_all

/-- Heaps of the same lists, with the same sizes and flags, are the same. -/
theorem HeapOk.sameHeap (hk : HeapOk z ops h v rs ps B) (hring : Ring h'.regionLinks 0 rs)
    (hrings : ∀ r ∈ rs, Ring (h'.blockLinks r) 0 (B r))
    (hregions : ∀ r ∈ rs, (h'.regions r).size = (h.regions r).size ∧
      (h'.regions r).flags = (h.regions r).flags)
    (hfields : ∀ r ∈ rs, ∀ b ∈ B r, h'.fields b = h.fields b) : SameHeap h h' rs B where
  head := hring.head.trans hk.ring.head.symm
  tail := hring.tail.trans hk.ring.tail.symm
  regions := fun r hr => by
    have hok := hk.region r (Or.inl hr)
    obtain ⟨hnext, hprev⟩ := hk.ring.links_eq hring hr
    rw [← regionLinks_next h' hok.ne, ← regionLinks_next h hok.ne] at hnext
    rw [← regionLinks_prev h' hok.ne, ← regionLinks_prev h hok.ne] at hprev
    exact Region.eq_of (hregions r hr).1 (hregions r hr).2 hnext hprev
      ((hrings r hr).head.trans hok.ring.head.symm) ((hrings r hr).tail.trans hok.ring.tail.symm)
  blocks := fun r hr b hb => by
    have hok := hk.region r (Or.inl hr)
    have hb0 := hok.block_ne hb
    obtain ⟨hnext, hprev⟩ := hok.ring.links_eq (hrings r hr) hb
    rw [← blockLinks_next h' r hb0, ← blockLinks_next h r hb0] at hnext
    rw [← blockLinks_prev h' r hb0, ← blockLinks_prev h r hb0] at hprev
    exact Block.eq_of (hfields r hr b hb) hnext hprev

theorem Edited.flags {S : U32 → Prop} (e : Edited S r h h') : SameFlags h h' := by
  intro q
  by_cases hq : q = r
  · obtain ⟨_, _, hown⟩ := e.own
    rw [hq, hown]
  · rw [e.other q hq]

theorem Edited.sizes {S : U32 → Prop} (e : Edited S r h h') (q : U32) :
    (h'.regions q).size = (h.regions q).size := by
  by_cases hq : q = r
  · rw [hq, e.size]
  · rw [e.other q hq]

/-! ## `heap_free` of a block -/

/-- The pointer of a block leads to the block. -/
theorem HeapOk.blockFind_block (hk : HeapOk z ops h v rs ps B) (hr : r ∈ rs) (hb : b ∈ B r) :
    blockFind h (blockPtr b) = some (some (b, r)) := by
  rcases hk.blockFind_cases (blockPtr b) with ⟨_, hno⟩ | ⟨q, hq, c, hc, hptr, hfind⟩
  · exact absurd rfl (hno r hr b hb)
  · rw [blockPtr_inj hptr] at hc hfind
    have hin := (hk.region r (Or.inl hr)).inside hb
    have hqr : q = r := by
      by_contra hne
      exact hk.not_inside (Or.inl hr) (Or.inl hq) hne hc hin
    rw [hfind, hqr]

theorem HeapOk.heapFree_block (hk : HeapOk z ops h v rs ps B) (hr : r ∈ rs) (hb : b ∈ B r)
    (hu : (h.blocks b).Used) :
    heapFree ops h v (blockPtr b) = some (heapShrink ops (h.unmark b) v r b) := by
  have hptr := (hk.region r (Or.inl hr)).blockPtr_ne hb
  simp only [heapFree, if_neg hptr, hk.blockFind_block hr hb, Option.bind_eq_bind,
    Option.bind_some, if_neg (not_not.mpr hu), Option.pure_def]
  rfl

/-- What `heap_free` finds of a block that `block_alloc` has taken, once it has merged: the
lists are what they were. -/
structure Merges (z : Bool) (ops : VmmOps V) (h : Heap) (v : V) (rs : List U32) (ps : U32 → Prop)
    (B : U32 → List U32) (r b : U32) (h1 h2 : Heap) : Prop where
  free : heapFree ops h1 v (blockPtr b) = some (heapShrink ops (h1.unmark b) v r b)
  left : shrinkMerge (h1.unmark b) r b = (h2, b)
  ok : HeapOk z ops h2 v rs ps B
  flags : SameFlags h h2
  sizes : ∀ q, (h2.regions q).size = (h.regions q).size
  fields : ∀ q ∈ rs, ∀ c ∈ B q, h2.fields c = h.fields c

theorem HeapOk.blockAlloc_merges (hk : HeapOk z ops h v rs ps B) (hr : r ∈ rs) (hb : b ∈ B r)
    (hfree : ¬ (h.blocks b).Used) {n : U32} (hn0 : z = false → 0 < n.toNat) (hn : n.toNat % 16 = 0)
    (hle : n ≤ (h.blocks b).size) :
    ∃ h1 h2, blockAlloc h r b n = (true, h1) ∧ Merges z ops h v rs ps B r b h1 h2 := by
  have hok := hk.region r (Or.inl hr)
  obtain ⟨h1, bs1, hrun, ha⟩ := hok.alloc hb hfree hn0 hn hle
  obtain ⟨hk1, _⟩ := hk.edit (Or.inl hr) ha.edited ha.ok
  obtain ⟨h2, hleft, hok2, e2, hfields⟩ := hok.alloc_free hb hfree hn0 hn hle
  obtain ⟨hk2, hblk⟩ := hk.edit (Or.inl hr) e2 hok2
  rw [update_eq_self] at hk2
  rw [hrun] at hleft
  have hb1 : b ∈ update B r bs1 r := by
    rw [update_self]
    exact ha.mem
  refine ⟨h1, h2, hrun, hk1.heapFree_block hr hb1 (of_decide_eq_true ha.used), hleft, hk2, e2.flags,
    e2.sizes, fun q hq c hc => ?_⟩
  by_cases hqr : q = r
  · subst hqr
    exact hfields c hc
  · rw [Heap.fields, hblk q (Or.inl hq) hqr c hc, Heap.fields]

/-- Every list is as it was. -/
theorem Merges.sameHeap {h1 h2 : Heap} (hk : HeapOk z ops h v rs ps B)
    (hm : Merges z ops h v rs ps B r b h1 h2) : SameHeap h h2 rs B :=
  hk.sameHeap hm.ok.ring (fun q hq => (hm.ok.region q (Or.inl hq)).ring)
    (fun q _ => ⟨hm.sizes q, hm.flags q⟩) hm.fields

/-- A region with more in it stays. -/
theorem Merges.stays {h1 h2 : Heap} (hm : Merges z ops h v rs ps B r b h1 h2) (hr : r ∈ rs)
    (hb : b ∈ B r) (hmore : B r ≠ [b]) : heapFree ops h1 v (blockPtr b) = some (h2, v) := by
  have hok := hm.ok.region r (Or.inl hr)
  have hno : ¬ ((h2.regions r).head = (h2.regions r).tail ∧ (h2.regions r).head = b ∧
      ¬ (h2.blocks b).Used) := fun hc =>
    hmore (hok.ring.eq_singleton (hok.block_ne hb) hc.2.1 (hc.1.symm.trans hc.2.1))
  rw [hm.free]
  simp only [heapShrink, hm.left, if_neg hno]

/-- A region with nothing else in it goes back. -/
theorem Merges.goes {h1 h2 : Heap} (hm : Merges z ops h v rs ps B r b h1 h2) (hr : r ∈ rs)
    (hone : B r = [b]) (hfree : ¬ (h2.blocks b).Used) :
    heapFree ops h1 v (blockPtr b)
      = some (regionRemove h2 r, ops.free v r (toPage (h2.regions r).size)) := by
  have hring := (hm.ok.region r (Or.inl hr)).ring
  have hhead : (h2.regions r).head = b := hring.head.trans (by rw [hone]; rfl)
  have htail : (h2.regions r).tail = b := hring.tail.trans (by rw [hone]; rfl)
  have hyes : (h2.regions r).head = (h2.regions r).tail ∧ (h2.regions r).head = b ∧
      ¬ (h2.blocks b).Used := ⟨hhead.trans htail.symm, hhead, hfree⟩
  rw [hm.free]
  simp only [heapShrink, hm.left, if_pos hyes]

/-! ## `heap_alloc` and `heap_free` -/

/-- What is taken from a new region. -/
theorem HeapOk.allocNew_undone (hk : HeapOk z ops h v rs ps B) {n : U32}
    (hn0 : z = false → 0 < n.toNat) (hn : n.toNat % 16 = 0) (hle : n.toNat ≤ 0xFFFFEFD0) (c : Bool) :
    ∃ h' v', heapFree ops (allocNew ops h v n c).2.1 (allocNew ops h v n c).2.2
        (allocNew ops h v n c).1 = some (h', v') ∧ SameHeap h h' rs B := by
  rcases hk.allocNew_cases n c with ⟨v', _, hrun, _⟩ | ⟨r, h2, v', ha⟩
  · rw [hrun]
    exact ⟨h, v', rfl, SameHeap.refl h rs B⟩
  obtain ⟨h3, h4, hrun3, hm⟩ := ha.ok.blockAlloc_merges ha.mem ha.block ha.free hn0 hn (ha.big hle)
  have hbf : ¬ (h4.blocks (regionBlock r)).Used := by
    rw [Block.Used, (Prod.mk.inj (hm.fields r ha.mem _ ha.block)).2]
    exact ha.free
  obtain ⟨hk5, l5⟩ := hm.ok.release
  rw [List.append_nil] at hk5
  rw [ha.run, hrun3]
  refine ⟨_, _, hm.goes ha.mem (update_self ..) hbf, ?_⟩
  -- the other regions are as they were before the new one was appended
  have hsize : ∀ q ∈ rs, (h2.regions q).size = (h.regions q).size := by
    intro q hq
    rw [ha.heap, (linked_regionAppend ha.ne).size, grownHeap_other h _ _ (ha.other hq)]
  have hflags : ∀ q ∈ rs, (h2.regions q).flags = (h.regions q).flags := by
    intro q hq
    rw [ha.heap, SameFlags.regionAppend _ r q, grownHeap_sameFlags h _ _ (ha.other hq)]
  refine hk.sameHeap hk5.ring (fun q hq => ?_) (fun q hq => ⟨?_, ?_⟩) fun q hq b hb => ?_
  · have hring := (hk5.region q (Or.inl hq)).ring
    rwa [update_of_ne (ha.other hq)] at hring
  · rw [l5.size, hm.sizes, hsize q hq]
  · rw [SameFlags.regionRemove h4 r q, hm.flags q, hflags q hq]
  · have hb' : b ∈ update B r [regionBlock r] q := by rwa [update_of_ne (ha.other hq)]
    have hsame := hm.fields q (List.mem_append_left _ hq) b hb'
    rw [Heap.fields, l5.blocks]
    refine hsame.trans ?_
    rw [Heap.fields, ha.blocks q (Or.inl hq) b hb, Heap.fields]

/-- **`heap_free` takes an allocation back**: every list is as it was. -/
theorem heapAlloc_heapFree (hk : HeapOk z ops h v rs ps B)
    (hsingle : ∀ r ∈ rs, ∀ b, B r = [b] → (h.blocks b).Used) {size : U32} (h0 : size ≠ 0)
    (hs : size.toNat ≤ 0xFFFFE000) (c : Bool) :
    ∃ ptr h1 v1 h2 v2, heapAlloc ops h v size c = some (ptr, h1, v1) ∧
      heapFree ops h1 v1 ptr = some (h2, v2) ∧ SameHeap h h2 rs B := by
  obtain ⟨hpos, hn, _, hle⟩ := allocSize_spec h0 (Nat.le_trans hs (by decide))
  rcases hk.heapAlloc_cases h0 c with ⟨_, hrun⟩ | ⟨r, b, hs⟩
  · obtain ⟨h', v', hfree, hsame⟩ := hk.allocNew_undone (fun _ => hpos) hn
      ((hle hs).trans (by decide)) c
    exact ⟨_, _, _, h', v', hrun, hfree, hsame⟩
  · obtain ⟨h1, h2, hblock, hm⟩ := hk.blockAlloc_merges hs.region hs.block hs.free (fun _ => hpos) hn
      hs.big
    have hrun := hs.run
    rw [hblock] at hrun
    have hmore : B r ≠ [b] := fun hone => hs.free (hsingle r hs.region b hone)
    exact ⟨blockPtr b, h1, v, h2, v, hrun, hm.stays hs.region hs.block hmore, hm.sameHeap hk⟩

/-- The heap after a first allocation: one region, of two blocks. -/
theorem oneAlloc : (heapAlloc rangeVmm emptyHeap 0x100000 100 false).map (fun r =>
    (r.1, r.2.1.head, r.2.1.tail, (r.2.1.regions 0x100000).head, (r.2.1.regions 0x100000).tail))
    = some (0x100030, 0x100000, 0x100000, 0x100020, 0x1000A0) := by decide +kernel

theorem heapAlloc_heapFree_second : ∃ h v B ptr h1 v1 h2 v2,
    heapAlloc rangeVmm emptyHeap 0x100000 100 false = some (0x100030, h, v) ∧
      heapAlloc rangeVmm h v 400 false = some (ptr, h1, v1) ∧
      heapFree rangeVmm h1 v1 ptr = some (h2, v2) ∧ SameHeap h h2 [0x100000] B := by
  obtain ⟨⟨p, h, v⟩, hrun, hfields⟩ := Option.map_eq_some_iff.mp oneAlloc
  obtain ⟨rfl, hhead, htail, hfirst, hlast⟩ := by simpa only [Prod.mk.injEq] using hfields
  have hlive : LiveOk emptyHeap [] (fun _ => []) [] := ⟨List.nodup_nil, fun _ ha => nomatch ha⟩
  obtain ⟨res, hres, rs, B, hk, _⟩ :=
    (emptyHeap_ok (z := false)).heapAlloc_live hlive
    (fun _ _ => show 0 < (allocSize 100).toNat by decide)
    (fun _ => show (100 : U32) ≤ allocSize 100 by decide) false
  rw [hrun] at hres
  cases hres
  obtain rfl := hk.ring.eq_singleton (x := 0x100000) (by decide) hhead htail
  obtain ⟨ptr, h1, v1, h2, v2, halloc, hfree, hsame⟩ :=
    heapAlloc_heapFree hk (fun r hr b hone => by
      obtain rfl := List.mem_singleton.mp hr
      have hring := (hk.region _ (Or.inl hr)).ring
      have hb := hring.head.symm.trans hfirst
      have hb' := hring.tail.symm.trans hlast
      rw [hone] at hb hb'
      exact absurd (hb.symm.trans hb') (by decide)) (show (400 : U32) ≠ 0 by decide) (by decide)
      false
  exact ⟨h, v, B, ptr, h1, v1, h2, v2, hrun, halloc, hfree, hsame⟩

end Tomk
