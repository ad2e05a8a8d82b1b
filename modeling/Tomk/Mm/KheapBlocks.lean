/-
# Allocating and freeing a block

`block_alloc` splits a block or not, and marks it; freeing a block unmarks it
and merges it with its free neighbours.  A region that is `RegionOk` is so
again, and the blocks in use, but for the one allocated or freed, are what they
were (`RegionOk.alloc`, `RegionOk.free`).

That one merge on each side is enough is where `Merged` is used: a neighbour
of a free neighbour is in use.
-/
import Tomk.Mm.KheapSpec

namespace Tomk

open DList Tiling

variable {z : Bool} {h h' : Heap} {r b c : U32} {bs pre post : List U32}

/-! ## `block_alloc` -/

theorem used_or (f : U32) : (f ||| blockFlagUsed) &&& blockFlagUsed ≠ 0 := by
  intro h0
  have h1 := congrArg (fun w : U32 => w.getLsbD 0) h0
  simp [blockFlagUsed] at h1

theorem not_used_and (f : U32) : (f &&& ~~~blockFlagUsed) &&& blockFlagUsed = 0 := by
  rw [BitVec.and_assoc, BitVec.and_comm (~~~blockFlagUsed), BitVec.and_not_self]
  exact BitVec.and_zero

/-- The block is marked as used. -/
def Heap.mark (h : Heap) (b : U32) : Heap :=
  h.setBlock b { h.blocks b with flags := (h.blocks b).flags ||| blockFlagUsed }

theorem RegionShape.mark (hs : RegionShape z h r (pre ++ b :: post)) :
    RegionShape z (h.mark b) r (pre ++ b :: post) ∧ Edited (h.Inside r) r h (h.mark b) ∧
      (∀ x, x ≠ b → (h.mark b).tile x = h.tile x) ∧
      (h.mark b).tile b = { h.tile b with used := true } := by
  have hset := hs.setFlags ((h.blocks b).flags ||| blockFlagUsed) rfl
  rw [decide_eq_true (used_or _)] at hset
  exact hset

/-- `block_alloc` of a block that is big enough: it is split if there is room. -/
theorem blockAlloc_eq {n : U32} (hr : r ≠ 0) (hb : b ≠ 0) (hle : n ≤ (h.blocks b).size) :
    blockAlloc h r b n = (true, (if n + headerSize + minBlockSize ≤ (h.blocks b).size then
      splitBlock h r b (b + headerSize + n) n else h).mark b) := by
  simp only [blockAlloc, if_neg hr, if_neg hb, if_neg (BitVec.not_lt.mpr hle)]
  split <;> rfl

/-- The sizes of blocks leave space for the sum. -/
theorem RegionShape.toNat_room (hs : RegionShape z h r bs) (hb : b ∈ bs) {n : U32}
    (hle : n ≤ (h.blocks b).size) : (n + headerSize + minBlockSize).toNat = n.toNat + 32 := by
  have hstop := hs.stop_le hb
  have hfits := hs.fits
  have hin := (hs.inside hb).1
  have h1 : headerSize.toNat = 16 := by decide
  have h2 : minBlockSize.toNat = 16 := by decide
  rw [BitVec.le_def] at hle
  rw [BitVec.toNat_add, BitVec.toNat_add, h1, h2]
  omega

/-- What became of the blocks of a region in which `b` was allocated. -/
structure Allocated (z : Bool) (h h' : Heap) (r b : U32) (bs bs' : List U32) (n : Nat) : Prop where
  ok : RegionOk z h' r bs'
  edited : Edited (h.Inside r) r h h'
  mem : b ∈ bs'
  used : (h'.tile b).used = true
  size : n ≤ (h'.tile b).size
  keep : ∀ x ∈ bs, x ≠ b → x ∈ bs' ∧ h'.tile x = h.tile x

/-- **`block_alloc`** of a free block that is big enough. -/
theorem RegionOk.alloc (hs : RegionOk z h r bs) (hb : b ∈ bs) (hfree : ¬ (h.blocks b).Used) {n : U32}
    (hn0 : z = false → 0 < n.toNat) (hn : n.toNat % 16 = 0) (hle : n ≤ (h.blocks b).size) :
    ∃ h' bs', blockAlloc h r b n = (true, h') ∧ Allocated z h h' r b bs bs' n.toNat := by
  obtain ⟨pre, post, rfl⟩ := List.append_of_mem hb
  have hb0 := hs.block_ne hb
  have hmerged := hs.merged
  have hbu : (h.tile b).used = false := decide_eq_false hfree
  rw [List.map_append, List.map_cons, merged_free hbu] at hmerged
  obtain ⟨hm1, hm2, hm3, hm4⟩ := hmerged
  have hrun := blockAlloc_eq hs.ne hb0 hle
  by_cases hroom : n + headerSize + minBlockSize ≤ (h.blocks b).size
  · have hroom' := hroom
    rw [BitVec.le_def, hs.toNat_room hb hle] at hroom'
    obtain ⟨hs1, e1, hcmem, ho1, hb1, hc1, hpre, hpost⟩ := hs.toRegionShape.split hn0 hn hroom' rfl rfl
    obtain ⟨hs2, e2, ho2, hb2⟩ := hs1.mark
    rw [e1.inside] at e2
    have hcb : b + headerSize + n ≠ b := fun hc => hcmem (by rw [hc]; exact hb)
    rw [if_pos hroom] at hrun
    refine ⟨_, _, hrun, ⟨hs2, ?_⟩, e1.trans e2, List.mem_append_right pre List.mem_cons_self,
      by rw [hb2], by rw [hb2, hb1], fun x hx hxb => ⟨?_, ?_⟩⟩
    · rw [map_tile hs2.nodup ho2, List.map_cons, hpre, hpost, merged_used (by rw [hb2])]
      have hfree1 : Merged ([] ++ (splitBlock h r b (b + headerSize + n) n).tile
          (b + headerSize + n) :: post.map h.tile) := by
        rw [merged_free hc1]
        exact ⟨List.IsChain.nil, hm2, fun s hs => by simp at hs, hm4⟩
      exact ⟨hm1, hfree1⟩
    · rw [List.mem_append, List.mem_cons] at hx
      rw [List.mem_append, List.mem_cons, List.mem_cons]
      exact hx.imp id fun hx => hx.imp id Or.inr
    · rw [ho2 x hxb, ho1 x hxb (ne_of_mem_of_not_mem hx hcmem)]
  · obtain ⟨hs2, e2, ho2, hb2⟩ := hs.toRegionShape.mark
    rw [if_neg hroom] at hrun
    rw [BitVec.le_def] at hle
    refine ⟨_, _, hrun, ⟨hs2, ?_⟩, e2, hb, by rw [hb2], by rw [hb2]; exact hle, fun x hx hxb =>
      ⟨hx, ho2 x hxb⟩⟩
    rw [map_tile hs2.nodup ho2, merged_used (by rw [hb2])]
    exact ⟨hm1, hm2⟩

/-! ## Freeing -/

/-- What the first merge leaves of the blocks `pre`, `b`, `post`: after `b`, which
is free, come the blocks `post'`, the first of which is not. -/
structure MergedNext (z : Bool) (h h' : Heap) (r b : U32) (pre post post' : List U32) : Prop where
  shape : RegionShape z h' r (pre ++ b :: post')
  edited : Edited (h.Inside r) r h h'
  other : ∀ x, x ≠ b → h'.tile x = h.tile x
  unused : (h'.tile b).used = false
  merged : Merged (post'.map h.tile)
  next : ∀ u ∈ (post'.map h.tile).head?, u.used = true
  keep : ∀ x ∈ post, (h.tile x).used = true → x ∈ post'
  sub : post' ⊆ post

/-- **`block_free`** of a free block, whatever is after it. -/
theorem RegionShape.mergeNext (hs : RegionShape z h r (pre ++ b :: post))
    (hb : (h.tile b).used = false) (hm : Merged (post.map h.tile)) {h' : Heap}
    (hh : h' = blockFree h r b) : ∃ post', MergedNext z h h' r b pre post post' := by
  have hb0 := hs.block_ne (List.mem_append_right pre List.mem_cons_self)
  have hnext := hs.next_eq
  cases post with
  | nil =>
      have hh' : h' = h := by
        rw [hh, blockFree, if_neg hs.ne, if_neg hb0]
        exact if_pos hnext
      subst hh'
      exact ⟨[], hs, Edited.refl _ _ _, fun _ _ => rfl, hb, hm, fun u hu => by simp at hu,
        fun x hx _ => hx, List.Subset.refl _⟩
  | cons c post =>
      have hc : c ∈ pre ++ b :: c :: post :=
        List.mem_append_right pre (List.mem_cons_of_mem b List.mem_cons_self)
      have hc0 := hs.block_ne hc
      by_cases hu : (h.blocks c).Used
      · have hh' : h' = h := by
          rw [hh, blockFree, if_neg hs.ne, if_neg hb0]
          simp only [hnext, List.headD_cons, if_neg hc0, if_pos hu]
        subst hh'
        refine ⟨c :: post, hs, Edited.refl _ _ _, fun _ _ => rfl, hb, hm, fun u hmem => ?_,
          fun x hx _ => hx, List.Subset.refl _⟩
        cases hmem
        exact decide_eq_true hu
      · have hcu : (h.tile c).used = false := decide_eq_false hu
        obtain ⟨hs', e, hother, hbt⟩ := hs.merge hu hh
        have hm0 : Merged ([] ++ h.tile c :: post.map h.tile) := hm
        obtain ⟨_, hm2, _, hm4⟩ := (merged_free hcu).mp hm0
        refine ⟨post, hs', e, hother, by rw [hbt, hb], hm2, hm4, fun x hx hxu => ?_,
          List.subset_cons_self c post⟩
        rcases List.mem_cons.mp hx with rfl | hx
        · exact absurd hxu (by rw [hcu]; exact Bool.false_ne_true)
        · exact hx

/-- What became of the blocks of a region in which `b` was freed; `x` is the
block that is left. -/
structure Released (z : Bool) (h h' : Heap) (r b x : U32) (bs bs' : List U32) : Prop where
  ok : RegionOk z h' r bs'
  edited : Edited (h.Inside r) r h h'
  mem : x ∈ bs'
  unused : (h'.tile x).used = false
  keep : ∀ y ∈ bs, y ≠ b → (h.tile y).used = true → y ∈ bs' ∧ h'.tile y = h.tile y
  sub : bs' ⊆ bs

/-- The blocks around `b` are as they were. -/
theorem MergedNext.tiles {h' : Heap} {post' : List U32} (hn : MergedNext z h h' r b pre post post') :
    pre.map h'.tile = pre.map h.tile ∧ post'.map h'.tile = post'.map h.tile := by
  have hnd := hn.shape.nodup
  rw [List.nodup_middle, List.nodup_cons, List.mem_append, not_or] at hnd
  exact ⟨List.map_congr_left fun x hx => hn.other x (ne_of_mem_of_not_mem hx hnd.1.1),
    List.map_congr_left fun x hx => hn.other x (ne_of_mem_of_not_mem hx hnd.1.2)⟩

/-- Nothing free is before the block: it stays. -/
theorem MergedNext.stay {h' : Heap} {post' : List U32} (hn : MergedNext z h h' r b pre post post')
    (hm : Merged (pre.map h.tile)) (hlast : ∀ s ∈ (pre.map h.tile).getLast?, s.used = true) :
    Released z h h' r b b (pre ++ b :: post) (pre ++ b :: post') := by
  obtain ⟨hpre, hpost⟩ := hn.tiles
  refine ⟨⟨hn.shape, ?_⟩, hn.edited, List.mem_append_right pre List.mem_cons_self, hn.unused,
    fun y hy hyb hyu => ⟨?_, hn.other y hyb⟩, ?_⟩
  · rw [List.map_append, List.map_cons, hpre, hpost, merged_free hn.unused]
    exact ⟨hm, hn.merged, hlast, hn.next⟩
  · rw [List.mem_append, List.mem_cons] at hy ⊢
    exact hy.imp id fun hy => hy.imp id fun hy => hn.keep y hy hyu
  · exact List.append_subset.mpr ⟨List.subset_append_left pre _, fun y hy =>
      List.mem_append_right pre ((List.mem_cons.mp hy).elim
        (fun heq => heq ▸ List.mem_cons_self) fun hy => List.mem_cons_of_mem b (hn.sub hy))⟩

/-- The block before is free too, and takes the block in. -/
theorem MergedNext.mergePrev {h' : Heap} {p : U32} {post' : List U32}
    (hn : MergedNext z h h' r b (pre ++ [p]) post post') (hm : Merged ((pre ++ [p]).map h.tile))
    (hpu : (h.tile p).used = false) :
    Released z h (blockFree h' r p) r b p ((pre ++ [p]) ++ b :: post) (pre ++ p :: post') := by
  obtain ⟨hpre, hpost⟩ := hn.tiles
  have hs := hn.shape
  have hnd := hs.nodup
  rw [List.nodup_middle, List.nodup_cons, List.mem_append, not_or] at hnd
  have hpb : p ≠ b := ne_of_mem_of_not_mem (List.mem_append_right pre List.mem_cons_self) hnd.1.1
  rw [List.append_assoc, List.singleton_append] at hs
  obtain ⟨hs2, e2, ho2, hp2⟩ := hs.merge (of_decide_eq_false hn.unused) rfl
  rw [hn.edited.inside] at e2
  have hpu2 : ((blockFree h' r p).tile p).used = false := by
    rw [hp2, hn.other p hpb, hpu]
  rw [List.map_append, List.map_singleton] at hm
  obtain ⟨hmp, _, hmlast, _⟩ := (merged_free hpu).mp hm
  refine ⟨⟨hs2, ?_⟩, hn.edited.trans e2, List.mem_append_right pre List.mem_cons_self, hpu2,
    fun y hy hyb hyu => ?_, fun y hy => ?_⟩
  · rw [List.map_append, List.map_append] at hpre
    have hpre' : pre.map h'.tile = pre.map h.tile := (List.append_inj hpre (by simp)).1
    rw [map_tile hs2.nodup ho2, hpost, hpre', merged_free hpu2]
    exact ⟨hmp, hn.merged, hmlast, hn.next⟩
  · have hyp : y ≠ p := by
      rintro rfl
      rw [hpu] at hyu
      exact Bool.false_ne_true hyu
    refine ⟨?_, by rw [ho2 y hyp, hn.other y hyb]⟩
    rw [List.mem_append, List.mem_append, List.mem_singleton, List.mem_cons] at hy
    rw [List.mem_append, List.mem_cons]
    rcases hy with (hy | hy) | hy | hy
    · exact Or.inl hy
    · exact absurd hy hyp
    · exact absurd hy hyb
    · exact Or.inr (Or.inr (hn.keep y hy hyu))
  · rw [List.mem_append, List.mem_cons] at hy
    rw [List.mem_append, List.mem_append, List.mem_singleton, List.mem_cons]
    exact hy.elim (fun hy => Or.inl (Or.inl hy)) fun hy => hy.elim (fun hy => Or.inl (Or.inr hy))
      fun hy => Or.inr (Or.inr (hn.sub hy))

/-- With nothing free before it the block stays. -/
theorem RegionShape.shrinkMerge_stay (hs : RegionShape z (blockFree h r b) r (pre ++ b :: post))
    (hlast : ∀ t ∈ (pre.map (blockFree h r b).tile).getLast?, t.used = true) :
    shrinkMerge h r b = (blockFree h r b, b) := by
  have hprev := hs.prev_eq
  simp only [shrinkMerge]
  rw [hprev, if_neg]
  rintro ⟨h0, hfree⟩
  rcases List.eq_nil_or_concat pre with rfl | ⟨pre, p, rfl⟩
  · exact h0 rfl
  · rw [List.concat_eq_append, List.getLastD_concat] at hfree
    rw [List.concat_eq_append, List.map_append, List.map_singleton, List.getLast?_concat] at hlast
    exact hfree (of_decide_eq_true (hlast _ rfl))

/-- **The merges of `heap_shrink`**, after the block has been unmarked. -/
theorem RegionShape.shrink (hs : RegionShape z h r (pre ++ b :: post))
    (hb : (h.tile b).used = false) (hm1 : Merged (pre.map h.tile))
    (hm2 : Merged (post.map h.tile)) :
    ∃ bs', Released z h (shrinkMerge h r b).1 r b (shrinkMerge h r b).2 (pre ++ b :: post) bs' := by
  obtain ⟨post', hn⟩ := hs.mergeNext hb hm2 rfl
  obtain ⟨hpre, _⟩ := hn.tiles
  by_cases hlast : ∀ t ∈ (pre.map h.tile).getLast?, t.used = true
  · rw [hn.shape.shrinkMerge_stay (by rw [hpre]; exact hlast)]
    exact ⟨_, hn.stay hm1 hlast⟩
  -- the last of the blocks before is free
  rcases List.eq_nil_or_concat pre with rfl | ⟨pre, p, rfl⟩
  · exact absurd (fun t ht => by simp at ht) hlast
  · rw [List.concat_eq_append] at *
    rw [List.map_append, List.map_singleton, List.getLast?_concat] at hlast
    have hpu : (h.tile p).used = false := by
      rw [← Bool.not_eq_true]
      refine fun hu => hlast fun t ht => ?_
      cases ht
      exact hu
    have hprev := hn.shape.prev_eq
    rw [List.getLastD_concat] at hprev
    have hpmem : p ∈ pre ++ [p] := List.mem_append_right pre List.mem_cons_self
    have hp0 := hn.shape.block_ne (List.mem_append_left _ hpmem)
    have hfree : ((blockFree h r b).tile p).used = false := by
      rw [List.map_inj_left.mp hpre p hpmem, hpu]
    have hrun : shrinkMerge h r b = (blockFree (blockFree h r b) r p, p) := by
      simp only [shrinkMerge]
      rw [hprev, if_pos ⟨hp0, of_decide_eq_false hfree⟩]
    rw [hrun]
    exact ⟨_, hn.mergePrev hm1 hpu⟩

/-- **Freeing a block in use**, up to the release of the region. -/
theorem RegionOk.free (hs : RegionOk z h r bs) (hb : b ∈ bs) {h0 : Heap}
    (hh : h0 = h.setBlock b { h.blocks b with flags := (h.blocks b).flags &&& ~~~blockFlagUsed })
    (hu : (h.blocks b).Used) :
    ∃ bs', Released z h (shrinkMerge h0 r b).1 r b (shrinkMerge h0 r b).2 bs bs' := by
  obtain ⟨pre, post, rfl⟩ := List.append_of_mem hb
  obtain ⟨hs0, e0, ho0, hb0⟩ := hs.toRegionShape.setFlags _ hh
  have hm := hs.merged
  rw [List.map_append, List.map_cons, merged_used (show (h.tile b).used = true from decide_eq_true hu)]
    at hm
  have hn := hs.nodup
  rw [List.nodup_middle, List.nodup_cons, List.mem_append, not_or] at hn
  have hpre : pre.map h0.tile = pre.map h.tile :=
    List.map_congr_left fun x hx => ho0 x (ne_of_mem_of_not_mem hx hn.1.1)
  have hpost : post.map h0.tile = post.map h.tile :=
    List.map_congr_left fun x hx => ho0 x (ne_of_mem_of_not_mem hx hn.1.2)
  have hfree : (h0.tile b).used = false := by
    rw [hb0, not_used_and]
    rfl
  obtain ⟨bs', hrel⟩ := hs0.shrink hfree (by rw [hpre]; exact hm.1) (by rw [hpost]; exact hm.2)
  have e := hrel.edited
  rw [e0.inside] at e
  refine ⟨bs', hrel.ok, e0.trans e, hrel.mem, hrel.unused, fun y hy hyb hyu => ?_, hrel.sub⟩
  have := hrel.keep y hy hyb (by rw [ho0 y hyb]; exact hyu)
  rwa [ho0 y hyb] at this

end Tomk
