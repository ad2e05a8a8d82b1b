/-
# The kinds of regions

A region is contiguous or not, by its flags, and a request is met from a region
of its kind: `block_find_free` passes the other regions over, and `heap_grow`
asks the manager for pages of that kind.  The flags are written once, when the
region is made; the lemmas here say so of every operation, whatever the lists
look like (`SameFlags`), and what a call of the heap then does to the kinds
(`heapAlloc_kinds`, `heapFree_kinds`).
-/
import Tomk.Mm.KheapAlloc

namespace Tomk

open Function

variable {V : Type} {ops : VmmOps V} {h h' h'' : Heap} {v v' : V} {r b c : U32}

/-- No region has changed its kind. -/
def SameFlags (h h' : Heap) : Prop := ∀ q, (h'.regions q).flags = (h.regions q).flags

theorem SameFlags.refl (h : Heap) : SameFlags h h := fun _ => rfl

theorem SameFlags.trans (f : SameFlags h h') (f' : SameFlags h' h'') : SameFlags h h'' :=
  fun q => (f' q).trans (f q)

theorem SameFlags.setBlock (h : Heap) (b : U32) (x : Block) : SameFlags h (h.setBlock b x) :=
  fun _ => rfl

theorem SameFlags.setRegion {x : Region} (hx : x.flags = (h.regions r).flags) :
    SameFlags h (h.setRegion r x) := by
  intro q
  rw [Heap.setRegion_regions]
  split
  · next hq => rw [hq, hx]
  · rfl

theorem SameFlags.contiguous (f : SameFlags h h') (r : U32) :
    (h'.regions r).Contiguous ↔ (h.regions r).Contiguous := by
  rw [Region.Contiguous, f r, Region.Contiguous]

/-! ## The lists -/

theorem SameFlags.setNextRegion (h : Heap) (p w : U32) : SameFlags h (h.setNextRegion p w) := by
  rw [Heap.setNextRegion]
  split
  · exact .setRegion rfl
  · exact fun _ => rfl

theorem SameFlags.setPrevRegion (h : Heap) (p w : U32) : SameFlags h (h.setPrevRegion p w) := by
  rw [Heap.setPrevRegion]
  split
  · exact .setRegion rfl
  · exact fun _ => rfl

theorem SameFlags.setNextBlock (h : Heap) (r p w : U32) : SameFlags h (h.setNextBlock r p w) := by
  rw [Heap.setNextBlock]
  split
  · exact .setBlock _ _ _
  · exact .setRegion rfl

theorem SameFlags.setPrevBlock (h : Heap) (r p w : U32) : SameFlags h (h.setPrevBlock r p w) := by
  rw [Heap.setPrevBlock]
  split
  · exact .setBlock _ _ _
  · exact .setRegion rfl

theorem SameFlags.regionAppend (h : Heap) (r : U32) : SameFlags h (regionAppend h r) := by
  by_cases hr : r = 0
  · rw [Tomk.regionAppend, if_pos hr]
    exact .refl h
  · simp only [Tomk.regionAppend, if_neg hr]
    rw [setTail, setRegion_next _ hr, setRegion_prev _ hr]
    exact (((SameFlags.setNextRegion _ _ _).trans (.setPrevRegion _ _ _)).trans
      (.setNextRegion _ _ _)).trans (.setPrevRegion _ _ _)

theorem SameFlags.regionRemove (h : Heap) (r : U32) : SameFlags h (regionRemove h r) := by
  by_cases hr : r = 0
  · rw [Tomk.regionRemove, if_pos hr]
    exact .refl h
  · simp only [Tomk.regionRemove, if_neg hr]
    rw [setRegion_next _ hr, setRegion_prev _ hr]
    exact (((SameFlags.setNextRegion _ _ _).trans (.setPrevRegion _ _ _)).trans
      (.setNextRegion _ _ _)).trans (.setPrevRegion _ _ _)

theorem SameFlags.blockInsertAfter (h : Heap) (r b c : U32) :
    SameFlags h (blockInsertAfter h r b c) := by
  rw [Tomk.blockInsertAfter]
  split
  · exact .refl h
  · exact (((SameFlags.setBlock _ _ _).trans (.setBlock _ _ _)).trans
      (.setPrevBlock _ _ _ _)).trans (.setBlock _ _ _)

theorem SameFlags.blockRemove (h : Heap) (r b : U32) : SameFlags h (blockRemove h r b) := by
  rw [Tomk.blockRemove]
  split
  · exact .refl h
  · exact (((SameFlags.setNextBlock _ _ _ _).trans (.setPrevBlock _ _ _ _)).trans
      (.setBlock _ _ _)).trans (.setBlock _ _ _)

/-! ## The blocks -/

theorem SameFlags.blockAlloc (h : Heap) (r b n : U32) : SameFlags h (blockAlloc h r b n).2 := by
  simp only [Tomk.blockAlloc]
  split
  · exact .refl h
  split
  · exact .refl h
  split
  · exact .refl h
  refine SameFlags.trans ?_ (.setBlock _ _ _)
  split
  · exact ((SameFlags.setBlock _ _ _).trans (.blockInsertAfter _ _ _ _)).trans (.setBlock _ _ _)
  · exact .refl h

/-- A block that is refused is left as it is. -/
theorem blockAlloc_false {n : U32} (hd : ¬ (blockAlloc h r b n).1 = true) :
    (blockAlloc h r b n).2 = h := by
  simp only [Tomk.blockAlloc] at hd ⊢
  split at hd
  · next h1 => rw [if_pos h1]
  next h1 =>
  split at hd
  · next h2 => rw [if_neg h1, if_pos h2]
  next h2 =>
  split at hd
  · next h3 => rw [if_neg h1, if_neg h2, if_pos h3]
  · exact absurd rfl hd

theorem SameFlags.blockFree (h : Heap) (r b : U32) : SameFlags h (blockFree h r b) := by
  simp only [Tomk.blockFree]
  split
  · exact .refl h
  split
  · exact .refl h
  split
  · exact .refl h
  split
  · exact .refl h
  · exact (SameFlags.setBlock _ _ _).trans (.blockRemove _ _ _)

theorem SameFlags.shrinkMerge (h : Heap) (r b : U32) : SameFlags h (shrinkMerge h r b).1 := by
  simp only [Tomk.shrinkMerge]
  split
  · exact (SameFlags.blockFree _ _ _).trans (.blockFree _ _ _)
  · exact .blockFree _ _ _

/-! ## The calls -/

/-- A region is made with the kind that was asked for. -/
theorem grownHeap_contiguous (h : Heap) (r n : U32) (c : Bool) :
    ((grownHeap h r n (if c then regionContiguous else regionNoncontiguous)).regions r).Contiguous
      ↔ c = true := by
  rw [grownHeap_self]
  cases c
  · simp [Region.Contiguous, regionNoncontiguous]
  · simp [Region.Contiguous, regionContiguous]

/-- `heap_grow` leaves the kinds of the other regions. -/
theorem grownHeap_sameFlags (h : Heap) (n f : U32) {q : U32} (hq : q ≠ r) :
    ((grownHeap h r n f).regions q).flags = (h.regions q).flags := by
  rw [grownHeap_other h n f hq]

/-- The end of `heap_alloc`: no range was to be had, or there is a region of the
kind that was asked for, and the pointer is that of its first block. -/
def NewRegion (h h' : Heap) (k : Bool) (r ptr : U32) : Prop :=
  (r = 0 ∧ ptr = 0 ∧ SameFlags h h') ∨
    r ≠ 0 ∧ (∀ q, q ≠ r → (h'.regions q).flags = (h.regions q).flags) ∧
      ((h'.regions r).Contiguous ↔ k = true) ∧ (ptr ≠ 0 → ptr = blockPtr (regionBlock r))

theorem allocNew_kinds (ops : VmmOps V) (h : Heap) (v : V) (n : U32) (k : Bool) :
    (allocNew ops h v n k).2.2 = (ops.alloc v k (growCount n)).2 ∧
      NewRegion h (allocNew ops h v n k).2.1 k (ops.alloc v k (growCount n)).1
        (allocNew ops h v n k).1 := by
  generalize ha : ops.alloc v k (growCount n) = a
  obtain ⟨r, v'⟩ := a
  have hgrow := heapGrow_eq ops h v n k
  rw [ha] at hgrow
  by_cases hr : r = 0
  · have hrun : allocNew ops h v n k = (0, h, v') := by
      simp only [allocNew, hgrow, if_pos hr, if_true]
    rw [hrun]
    exact ⟨rfl, Or.inl ⟨hr, rfl, .refl h⟩⟩
  · let h1 := grownHeap h r (growCount n) (if k then regionContiguous else regionNoncontiguous)
    have hhead : ((regionAppend h1 r).regions r).head = regionBlock r := by
      rw [(linked_regionAppend hr).head, grownHeap_self]
    have hrun : allocNew ops h v n k
        = ((allocFrom (regionAppend h1 r) r n).1, (allocFrom (regionAppend h1 r) r n).2, v') := by
      simp only [allocNew, hgrow, if_neg hr, h1]
    have hkeep : SameFlags h1 (allocFrom (regionAppend h1 r) r n).2 :=
      (SameFlags.regionAppend h1 r).trans (.blockAlloc _ _ _ _)
    rw [hrun]
    refine ⟨rfl, Or.inr ⟨hr, fun q hq => ?_, ?_, fun hptr => ?_⟩⟩
    · exact (hkeep q).trans (grownHeap_sameFlags h _ _ hq)
    · rw [hkeep.contiguous]
      exact grownHeap_contiguous h r _ k
    · simp only [allocFrom, hhead] at hptr ⊢
      split at hptr
      · next hdone => rw [if_pos hdone]
      · exact absurd rfl hptr

/-- What `heap_alloc` does to the kinds: it takes a block that the search found,
or it makes a region, of which it takes the first block. -/
theorem heapAlloc_kinds {size ptr : U32} {k : Bool}
    (hrun : heapAlloc ops h v size k = some (ptr, h', v')) :
    (v' = v ∧ SameFlags h h' ∧ (ptr ≠ 0 → ∃ b r, ptr = blockPtr b ∧
        blockFindFree h (allocSize size) k = some (some (b, r)))) ∨
      ∃ n, n ≠ 0 ∧ v' = (ops.alloc v k n).2 ∧ NewRegion h h' k (ops.alloc v k n).1 ptr := by
  have hnew : ∀ {res : U32 × Heap × V}, allocNew ops h v (allocSize size) k = res →
      ∃ n, n ≠ 0 ∧ res.2.2 = (ops.alloc v k n).2 ∧
        NewRegion h res.2.1 k (ops.alloc v k n).1 res.1 := by
    rintro res rfl
    have hk := allocNew_kinds ops h v (allocSize size) k
    have hn := (growCount_bounds (allocSize size)).1
    refine ⟨growCount (allocSize size), ?_, hk.1, hk.2⟩
    intro h0
    rw [h0] at hn
    exact absurd hn (by decide)
  by_cases h0 : size = 0
  · rw [heapAlloc, if_pos h0] at hrun
    cases hrun
    exact Or.inl ⟨rfl, .refl h, fun hc => absurd rfl hc⟩
  rw [heapAlloc, if_neg h0] at hrun
  cases hfind : blockFindFree h (allocSize size) k with
  | none =>
      simp only [hfind, Option.bind_eq_bind, Option.bind_none] at hrun
      cases hrun
  | some o =>
      simp only [hfind, Option.bind_eq_bind, Option.bind_some, Option.pure_def] at hrun
      cases o with
      | none => exact Or.inr (hnew (Option.some.inj hrun))
      | some p =>
          obtain ⟨b, r⟩ := p
          simp only at hrun
          split at hrun
          · cases hrun
            exact Or.inl ⟨rfl, .blockAlloc _ _ _ _, fun _ => ⟨b, r, rfl, rfl⟩⟩
          · next hdone =>
              rw [blockAlloc_false hdone] at hrun
              exact Or.inr (hnew (Option.some.inj hrun))

/-- What `heap_free` does: the kinds stay, and a region may go back. -/
theorem heapFree_kinds {ptr : U32} (hrun : heapFree ops h v ptr = some (h', v')) :
    SameFlags h h' ∧ (v' = v ∨ ∃ r n, v' = ops.free v r n) := by
  by_cases h0 : ptr = 0
  · rw [heapFree, if_pos h0] at hrun
    cases hrun
    exact ⟨.refl h, Or.inl rfl⟩
  rw [heapFree, if_neg h0] at hrun
  cases hfind : blockFind h ptr with
  | none =>
      rw [hfind] at hrun
      cases hrun
  | some o =>
      simp only [hfind, Option.bind_eq_bind, Option.bind_some, Option.pure_def] at hrun
      cases o with
      | none =>
          cases hrun
          exact ⟨.refl h, Or.inl rfl⟩
      | some p =>
          obtain ⟨b, r⟩ := p
          simp only at hrun
          split at hrun
          · cases hrun
            exact ⟨.refl h, Or.inl rfl⟩
          · simp only [heapShrink, Option.some.injEq] at hrun
            have hkeep := (SameFlags.setBlock h b
              { h.blocks b with flags := (h.blocks b).flags &&& ~~~blockFlagUsed }).trans
              (.shrinkMerge _ r b)
            split at hrun
            · cases hrun
              exact ⟨hkeep.trans (.regionRemove _ _), Or.inr ⟨_, _, rfl⟩⟩
            · cases hrun
              exact ⟨hkeep, Or.inl rfl⟩

end Tomk
