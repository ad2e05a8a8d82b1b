/-
# The regions of the heap

`HeapOk z ops h v rs ps B` is the invariant of a heap over a manager in state
`v`: the regions `rs` are its list, the blocks of each region `r` are `B r`
(empty ones among them, if `z` is set), and the regions are ranges that the
manager has handed out and that lie apart.
The regions `ps` are those that `heap_grow` has made and `region_append` has not
been called with yet; a heap that is not in the middle of an allocation has
none.

The lists end, so the searches do (`searchRegions_eq`).  An edit of one region
leaves the others alone, since its headers lie in the region (`HeapOk.edit`);
a region is added in two steps (`HeapOk.grow`, `HeapOk.append`) and goes back in
one (`HeapOk.release`).
-/
import Tomk.Mm.KheapBlocks
import Mathlib.Data.List.Perm.Subperm

namespace Tomk

open DList Tiling Function

variable {V : Type} {z : Bool} {ops : VmmOps V} {h h' : Heap} {v : V} {rs : List U32}
  {ps : U32 → Prop} {B : U32 → List U32} {r b : U32} {bs pre post : List U32}

/-! ## The list of regions -/

theorem setNextRegion_links (h : Heap) (x w : U32) :
    (h.setNextRegion x w).regionLinks = h.regionLinks.setNext x w := by
  refine Links.ext (funext fun y => ?_) (funext fun y => ?_)
  · simp only [Heap.setNextRegion, Heap.regionLinks, Links.setNext, Function.update_apply]
    by_cases hx : x = 0 <;> by_cases hy : y = 0 <;> by_cases hyx : y = x <;> simp_all
  · simp only [Heap.setNextRegion, Heap.regionLinks, Links.setNext]
    by_cases hx : x = 0 <;> by_cases hy : y = 0 <;> by_cases hyx : y = x <;> simp_all

theorem setPrevRegion_links (h : Heap) (x w : U32) :
    (h.setPrevRegion x w).regionLinks = h.regionLinks.setPrev x w := by
  refine Links.ext (funext fun y => ?_) (funext fun y => ?_)
  · simp only [Heap.setPrevRegion, Heap.regionLinks, Links.setPrev]
    by_cases hx : x = 0 <;> by_cases hy : y = 0 <;> by_cases hyx : y = x <;> simp_all
  · simp only [Heap.setPrevRegion, Heap.regionLinks, Links.setPrev, Function.update_apply]
    by_cases hx : x = 0 <;> by_cases hy : y = 0 <;> by_cases hyx : y = x <;> simp_all

theorem setRegion_next (h : Heap) (hr : r ≠ 0) (w : U32) :
    h.setRegion r { h.regions r with next := w } = h.setNextRegion r w := (if_pos hr).symm

theorem setRegion_prev (h : Heap) (hr : r ≠ 0) (w : U32) :
    h.setRegion r { h.regions r with prev := w } = h.setPrevRegion r w := (if_pos hr).symm

theorem setTail (h : Heap) (w : U32) : { h with tail := w } = h.setPrevRegion 0 w :=
  (if_neg (not_not.mpr rfl)).symm

theorem regionLinks_next (h : Heap) (hr : r ≠ 0) : (h.regions r).next = h.regionLinks.next r :=
  (if_neg hr).symm

theorem regionLinks_prev (h : Heap) (hr : r ≠ 0) : (h.regions r).prev = h.regionLinks.prev r :=
  (if_neg hr).symm

theorem regionLinks_tail (h : Heap) : h.tail = h.regionLinks.prev 0 := rfl

/-- `region_remove` takes the region out of the ring. -/
theorem regionRemove_links (hr : r ≠ 0) :
    (regionRemove h r).regionLinks = ((h.regionLinks.unlink r).setNext r 0).setPrev r 0 := by
  simp only [regionRemove, if_neg hr]
  rw [setRegion_next _ hr, setRegion_prev _ hr, setPrevRegion_links, setNextRegion_links,
    setPrevRegion_links, setNextRegion_links]
  simp only [regionLinks_next _ hr, regionLinks_prev _ hr, setNextRegion_links]
  congr 2
  -- what is read after the first write is what was there
  simp only [Links.unlink, Links.setNext, Links.setPrev, Function.update_apply]
  split
  · next hc => rw [← hc]
  · rfl

/-- `region_append` puts the region into the ring, after the last one. -/
theorem regionAppend_links (hr : r ≠ 0) (hlast : h.regionLinks.next (h.regionLinks.prev 0) = 0) :
    (regionAppend h r).regionLinks = h.regionLinks.insertAfter (h.regionLinks.prev 0) r := by
  simp only [regionAppend, if_neg hr]
  rw [setTail, setPrevRegion_links, setNextRegion_links, setRegion_next _ hr, setRegion_prev _ hr,
    setPrevRegion_links, setNextRegion_links]
  simp only [regionLinks_tail, setPrevRegion_links, setNextRegion_links]
  simp only [Links.insertAfter, Links.setNext, Links.setPrev, Function.update_apply, hlast,
    if_neg hr.symm, if_true]

/-! ## What the list operations keep -/

/-- Only the links of regions are written. -/
structure Linked (h h' : Heap) : Prop where
  blocks : h'.blocks = h.blocks
  size : ∀ q, (h'.regions q).size = (h.regions q).size
  head : ∀ q, (h'.regions q).head = (h.regions q).head
  tail : ∀ q, (h'.regions q).tail = (h.regions q).tail

theorem Linked.trans {h'' : Heap} (l : Linked h h') (l' : Linked h' h'') : Linked h h'' :=
  ⟨l'.blocks.trans l.blocks, fun q => (l'.size q).trans (l.size q),
    fun q => (l'.head q).trans (l.head q), fun q => (l'.tail q).trans (l.tail q)⟩

theorem linked_setNextRegion (h : Heap) (x w : U32) : Linked h (h.setNextRegion x w) := by
  rw [Heap.setNextRegion]
  split
  · refine ⟨rfl, fun q => ?_, fun q => ?_, fun q => ?_⟩
    all_goals
      rw [Heap.setRegion_regions]
      split
      · next hq => rw [hq]
      · rfl
  · exact ⟨rfl, fun _ => rfl, fun _ => rfl, fun _ => rfl⟩

theorem linked_setPrevRegion (h : Heap) (x w : U32) : Linked h (h.setPrevRegion x w) := by
  rw [Heap.setPrevRegion]
  split
  · refine ⟨rfl, fun q => ?_, fun q => ?_, fun q => ?_⟩
    all_goals
      rw [Heap.setRegion_regions]
      split
      · next hq => rw [hq]
      · rfl
  · exact ⟨rfl, fun _ => rfl, fun _ => rfl, fun _ => rfl⟩

theorem linked_regionAppend (hr : r ≠ 0) : Linked h (regionAppend h r) := by
  simp only [regionAppend, if_neg hr]
  rw [setTail, setRegion_next _ hr, setRegion_prev _ hr]
  exact (((linked_setNextRegion _ _ _).trans (linked_setPrevRegion _ _ _)).trans
    (linked_setNextRegion _ _ _)).trans (linked_setPrevRegion _ _ _)

theorem linked_regionRemove (hr : r ≠ 0) : Linked h (regionRemove h r) := by
  simp only [regionRemove, if_neg hr]
  rw [setRegion_next _ hr, setRegion_prev _ hr]
  exact (((linked_setNextRegion _ _ _).trans (linked_setPrevRegion _ _ _)).trans
    (linked_setNextRegion _ _ _)).trans (linked_setPrevRegion _ _ _)

theorem Linked.region (l : Linked h h') (hr : RegionOk z h r bs) : RegionOk z h' r bs :=
  hr.congr (l.size r) (l.head r) (l.tail r) fun b _ => by rw [l.blocks]

theorem Linked.tile (l : Linked h h') : h'.tile = h.tile := by
  funext x
  rw [Heap.tile, Heap.tile, l.blocks]

/-! ## The invariant -/

/-- The end of a region. -/
def Heap.stop (h : Heap) (r : U32) : Nat := r.toNat + (h.regions r).size.toNat

/-- The regions that the heap has pages for. -/
def Held (rs : List U32) (ps : U32 → Prop) (r : U32) : Prop := r ∈ rs ∨ ps r

structure HeapOk (z : Bool) (ops : VmmOps V) (h : Heap) (v : V) (rs : List U32) (ps : U32 → Prop)
    (B : U32 → List U32) : Prop where
  vmm : ops.Ok v
  ring : Ring h.regionLinks 0 rs
  pending : ∀ r ∈ rs, ¬ ps r
  region : ∀ r, Held rs ps r → RegionOk z h r (B r)
  given : ∀ r, Held rs ps r → ops.Given v r (toPage (h.regions r).size)
  apart : ∀ r q, Held rs ps r → Held rs ps q → r ≠ q → h.stop r ≤ q.toNat ∨ h.stop q ≤ r.toNat

/-- The range of a region, as the manager has it. -/
theorem RegionOk.rangeStop (hr : RegionOk z h r bs) :
    Tomk.rangeStop r (toPage (h.regions r).size) = h.stop r := by
  have := hr.pages
  rw [Tomk.rangeStop, Heap.stop, toNat_toPage]
  omega

theorem HeapOk.nodup (hk : HeapOk z ops h v rs ps B) : rs.Nodup :=
  (List.nodup_cons.mp hk.ring.nodup).2

/-- A block of a region is a block of no other. -/
theorem HeapOk.not_inside (hk : HeapOk z ops h v rs ps B) {q : U32} (hr : Held rs ps r)
    (hq : Held rs ps q) (hqr : q ≠ r) (hb : b ∈ B q) : ¬ h.Inside r b := by
  rintro ⟨h1, h2⟩
  obtain ⟨h3, h4⟩ := (hk.region q hq).inside hb
  rcases hk.apart r q hr hq hqr.symm with hlt | hlt
  · rw [Heap.stop] at hlt
    omega
  · rw [Heap.stop] at hlt
    omega

/-- **An edit of one region.** -/
theorem HeapOk.edit (hk : HeapOk z ops h v rs ps B) (hr : Held rs ps r)
    (e : Edited (h.Inside r) r h h') (hok : RegionOk z h' r bs) :
    HeapOk z ops h' v rs ps (update B r bs) ∧
      ∀ q, Held rs ps q → q ≠ r → ∀ b ∈ B q, h'.blocks b = h.blocks b := by
  have hsize : ∀ q, (h'.regions q).size = (h.regions q).size := fun q => by
    by_cases hq : q = r
    · rw [hq, e.size]
    · rw [e.other q hq]
  have hblk : ∀ q, Held rs ps q → q ≠ r → ∀ b ∈ B q, h'.blocks b = h.blocks b :=
    fun q hq hqr b hb => e.blocks b (hk.not_inside hr hq hqr hb)
  obtain ⟨a, z, hown⟩ := e.own
  refine ⟨⟨hk.vmm, ?_, hk.pending, fun q hq => ?_, fun q hq => ?_, fun q q' hq hq' hne => ?_⟩, hblk⟩
  · refine hk.ring.congr (fun x _ => ?_) fun x _ => ?_
    · simp only [Heap.regionLinks, e.head]
      by_cases hx : x = r
      · rw [hx, hown]
      · rw [e.other x hx]
    · simp only [Heap.regionLinks, e.tail]
      by_cases hx : x = r
      · rw [hx, hown]
      · rw [e.other x hx]
  · by_cases hqr : q = r
    · rw [hqr, update_self]
      exact hok
    · rw [update_of_ne hqr]
      have hsame := e.other q hqr
      exact (hk.region q hq).congr (hsize q) (by rw [hsame]) (by rw [hsame]) (hblk q hq hqr)
  · rw [hsize]
    exact hk.given q hq
  · rw [Heap.stop, Heap.stop, hsize, hsize]
    exact hk.apart q q' hq hq' hne

/-! ## Searching -/

theorem nodup_length {xs : List U32} (hn : xs.Nodup) : xs.length ≤ 2 ^ 32 := by
  have hmap : (xs.map BitVec.toNat).Nodup :=
    hn.map fun _ _ heq => BitVec.eq_of_toNat_eq heq
  have hsub : xs.map BitVec.toNat ⊆ List.range (2 ^ 32) := fun n hmem => by
    obtain ⟨x, _, rfl⟩ := List.mem_map.mp hmem
    exact List.mem_range.mpr x.isLt
  have hlen := (List.subperm_of_subset hmap hsub).length_le
  rwa [List.length_map, List.length_range] at hlen

/-- A list is shorter than `listFuel`. -/
theorem ring_length {l : Links U32} {xs : List U32} (hr : Ring l 0 xs) : xs.length < listFuel := by
  have := nodup_length hr.nodup
  rwa [List.length_cons] at this

theorem searchBlocks_eq (hr : RegionOk z h r bs) (accept : U32 → Bool) :
    searchBlocks h r accept = some (bs.findSome? fun b => if accept b then some (b, r) else none) :=
  search_follows (ring_length hr.ring) (List.nodup_cons.mp hr.ring.nodup).1 hr.ring.next
    (fun _ hx => blockLinks_next h r (hr.block_ne hx)) fun _ _ => rfl

theorem searchRegions_eq (hk : HeapOk z ops h v rs ps B) (accept : U32 → U32 → Bool) :
    searchRegions h accept = some (rs.findSome? fun r =>
      (B r).findSome? fun b => if accept r b then some (b, r) else none) :=
  search_follows (ring_length hk.ring) (List.nodup_cons.mp hk.ring.nodup).1 hk.ring.next
    (fun r hr => regionLinks_next h (hk.region r (Or.inl hr)).ne)
    fun r hr => searchBlocks_eq (hk.region r (Or.inl hr)) (accept r)

/-- What a search finds is a block of the heap that is accepted, and it finds
nothing if there is none. -/
theorem searchRegions_cases (hk : HeapOk z ops h v rs ps B) (accept : U32 → U32 → Bool) :
    (searchRegions h accept = some none ∧ ∀ r ∈ rs, ∀ b ∈ B r, accept r b = false) ∨
      ∃ r ∈ rs, ∃ b ∈ B r, accept r b = true ∧ searchRegions h accept = some (some (b, r)) := by
  rw [searchRegions_eq hk]
  cases hs : rs.findSome? fun r =>
      (B r).findSome? fun b => if accept r b then some (b, r) else none with
  | none =>
      refine Or.inl ⟨rfl, fun r hr b hb => ?_⟩
      have h1 := List.findSome?_eq_none_iff.mp (List.findSome?_eq_none_iff.mp hs r hr) b hb
      by_contra hc
      rw [if_pos (Bool.eq_true_of_not_eq_false hc)] at h1
      cases h1
  | some p =>
      obtain ⟨r, hr, h1⟩ := List.exists_of_findSome?_eq_some hs
      obtain ⟨b, hb, h2⟩ := List.exists_of_findSome?_eq_some h1
      split at h2
      · next hacc =>
          cases h2
          exact Or.inr ⟨r, hr, b, hb, hacc, rfl⟩
      · cases h2

/-! ## A new region -/

/-- The pages that `heap_grow` asks for. -/
theorem growCount_bounds (size : U32) :
    16 ≤ (growCount size).toNat ∧ (growCount size).toNat < 2 ^ 20 := by
  have h4 : growPages.toNat = 16 := by decide
  have hlt := (size + regionSize + headerSize + (pageSize - 1)).isLt
  simp only [growCount]
  split
  · rw [h4]
    omega
  · next hge =>
      rw [BitVec.lt_def, h4] at hge
      rw [toNat_toPage] at hge ⊢
      omega

/-- They have room for a block of the size, with the two headers, if the sum
does not wrap. -/
theorem growCount_room {size : U32} (hs : size.toNat ≤ 0xFFFFEFD0) :
    size.toNat + 48 ≤ (growCount size).toNat * 4096 := by
  have h1 : regionSize.toNat = 32 := by decide
  have h2 : headerSize.toNat = 16 := by decide
  have h3 : (pageSize - 1).toNat = 4095 := by decide
  have h4 : growPages.toNat = 16 := by decide
  have hp : (toPage (size + regionSize + headerSize + (pageSize - 1))).toNat
      = (size.toNat + 4143) / 4096 := by
    rw [toNat_toPage, BitVec.toNat_add, BitVec.toNat_add, BitVec.toNat_add, h1, h2, h3]
    omega
  simp only [growCount, BitVec.lt_def, hp, h4]
  split
  · rw [h4]
    omega
  · rw [hp]
    omega

/-- A region has room for its header. -/
theorem RegionShape.header_fits (hs : RegionShape z h r bs) : r.toNat + 32 ≤ h.stop r := hs.tiled.le

/-- The heap after `heap_grow` was given `n` pages at `r`. -/
def grownHeap (h : Heap) (r n flags : U32) : Heap :=
  (h.setBlock (regionBlock r) ⟨toAddr n - regionSize - headerSize, blockFlagFree, 0, 0⟩).setRegion r
    ⟨toAddr n, flags, 0, 0, regionBlock r, regionBlock r⟩

theorem heapGrow_eq (ops : VmmOps V) (h : Heap) (v : V) (size : U32) (c : Bool) :
    heapGrow ops h v size c =
      if (ops.alloc v c (growCount size)).1 = 0 then (0, h, (ops.alloc v c (growCount size)).2)
      else ((ops.alloc v c (growCount size)).1, grownHeap h (ops.alloc v c (growCount size)).1
        (growCount size) (if c then regionContiguous else regionNoncontiguous),
        (ops.alloc v c (growCount size)).2) := rfl

theorem grownHeap_self (h : Heap) (r n flags : U32) : (grownHeap h r n flags).regions r
    = ⟨toAddr n, flags, 0, 0, regionBlock r, regionBlock r⟩ := update_self _ _ _

/-- The first block of a region that does not run over the end of the address space. -/
theorem toNat_regionBlock {n : U32} (hn : 1 ≤ n.toNat) (hfits : r.toNat + n.toNat * 4096 ≤ 2 ^ 32) :
    (regionBlock r).toNat = r.toNat + 32 := by
  have hsize : regionSize.toNat = 32 := by decide
  rw [regionBlock, BitVec.toNat_add, hsize]
  omega

/-- What is left of `n` pages for the one block of a new region. -/
theorem toNat_firstSize {n : U32} (hn : 1 ≤ n.toNat) (hpages : (toAddr n).toNat = n.toNat * 4096) :
    (toAddr n - regionSize - headerSize).toNat = n.toNat * 4096 - 48 := by
  have hregion : regionSize ≤ toAddr n := by
    rw [BitVec.le_def, hpages]
    show 32 ≤ _
    omega
  have hrest : (toAddr n - regionSize).toNat = n.toNat * 4096 - 32 := by
    rw [BitVec.toNat_sub_of_le hregion, hpages]
    rfl
  have hheader : headerSize ≤ toAddr n - regionSize := by
    rw [BitVec.le_def, hrest]
    show 16 ≤ _
    omega
  rw [BitVec.toNat_sub_of_le hheader, hrest]
  show _ - 16 = _
  omega

/-- A new region is one free block. -/
theorem grownHeap_region (h : Heap) {n : U32} (flags : U32) (hr : r ≠ 0) (ha : r.toNat % 4096 = 0)
    (hn : 1 ≤ n.toNat) (hfits : r.toNat + n.toNat * 4096 ≤ 2 ^ 32) :
    RegionOk z (grownHeap h r n flags) r [regionBlock r] ∧
      (grownHeap h r n flags).stop r = r.toNat + n.toNat * 4096 ∧
      (grownHeap h r n flags).tile (regionBlock r) = ⟨r.toNat + 32, n.toNat * 4096 - 48, false⟩ := by
  have hr0 : 0 < r.toNat := Nat.pos_of_ne_zero fun h0 => hr (BitVec.eq_of_toNat_eq h0)
  have hblock := toNat_regionBlock hn hfits
  have hpages : (toAddr n).toNat = n.toNat * 4096 := by
    rw [toNat_toAddr]
    omega
  have hsize := toNat_firstSize hn hpages
  have hb0 : regionBlock r ≠ 0 := by
    intro h0
    rw [h0] at hblock
    have h2 : (0 : U32).toNat = 0 := rfl
    omega
  let h' := grownHeap h r n flags
  have hreg : h'.regions r = ⟨toAddr n, flags, 0, 0, regionBlock r, regionBlock r⟩ :=
    grownHeap_self h r n flags
  have hblk : h'.blocks (regionBlock r)
      = ⟨toAddr n - regionSize - headerSize, blockFlagFree, 0, 0⟩ := update_self _ _ _
  have hstop : h'.stop r = r.toNat + n.toNat * 4096 := by
    rw [Heap.stop, hreg, hpages]
  have htile : h'.tile (regionBlock r) = ⟨r.toNat + 32, n.toNat * 4096 - 48, false⟩ := by
    rw [Heap.tile, hblk, hsize, hblock, decide_eq_false (not_used_free _ _ _)]
  refine ⟨⟨⟨hr, ha, ?_, ?_, ?_, ?_, fun b hb => ?_, fun b hb => ?_⟩, ?_⟩, hstop, htile⟩
  · rw [hreg, hpages, Nat.mul_mod_left]
  · rw [hreg, hpages]
    exact hfits
  · refine Ring.singleton hb0 ?_ ?_ ?_ ?_
    · show (h'.regions r).head = _
      rw [hreg]
    · rw [← blockLinks_next h' r hb0, hblk]
    · show (h'.regions r).tail = _
      rw [hreg]
    · rw [← blockLinks_prev h' r hb0, hblk]
  · rw [List.map_singleton, htile]
    refine Tiled.one rfl ?_
    show r.toNat + 32 + 16 + (n.toNat * 4096 - 48) = h'.stop r
    rw [hstop]
    omega
  · rw [List.mem_singleton] at hb
    rw [hb, hblk, hsize]
    omega
  · rw [List.mem_singleton] at hb
    rw [hb, hblock]
    omega
  · exact List.IsChain.singleton _

/-- What the new region does not touch: its headers are written at the region
itself and at its block. -/
theorem grownHeap_other (h : Heap) (n flags : U32) {q : U32} (hq : q ≠ r) :
    (grownHeap h r n flags).regions q = h.regions q := update_of_ne hq _ _

theorem grownHeap_blocks (h : Heap) (n flags : U32) (hb : b ≠ regionBlock r) :
    (grownHeap h r n flags).blocks b = h.blocks b := update_of_ne hb _ _

/-- A new region joins the ones that are not in the list yet. -/
theorem HeapOk.grown (hk : HeapOk z ops h v rs ps B) {n : U32} (flags : U32) {v' : V} (hv : ops.Ok v')
    (hok : RegionOk z (grownHeap h r n flags) r [regionBlock r])
    (hkeep : ∀ q k, ops.Given v q k → ops.Given v' q k)
    (hgiven : ops.Given v' r (toPage ((grownHeap h r n flags).regions r).size))
    (hapart : ∀ q, Held rs ps q →
      h.stop q ≤ r.toNat ∨ (grownHeap h r n flags).stop r ≤ q.toNat) :
    ¬ Held rs ps r ∧
      HeapOk z ops (grownHeap h r n flags) v' rs (fun q => q = r ∨ ps q)
        (update B r [regionBlock r]) ∧
      ∀ q, Held rs ps q → ∀ b ∈ B q, (grownHeap h r n flags).blocks b = h.blocks b := by
  have hnew : ∀ q, Held rs ps q → q ≠ r := by
    rintro q hq rfl
    have h1 := (hk.region q hq).header_fits
    have h2 := hok.header_fits
    have := hapart q hq
    omega
  have hblk : ∀ q, Held rs ps q → ∀ b ∈ B q, (grownHeap h r n flags).blocks b = h.blocks b := by
    intro q hq b hb
    refine grownHeap_blocks h n flags ?_
    -- the block lies in the old region, and the new one elsewhere
    rintro rfl
    obtain ⟨h1, h2⟩ := (hk.region q hq).inside hb
    obtain ⟨h3, h4⟩ := hok.inside List.mem_cons_self
    rcases hapart q hq with hlt | hlt
    · rw [Heap.stop] at hlt
      omega
    · rw [Heap.stop] at hlt
      omega
  have hcases : ∀ q, Held rs (fun q => q = r ∨ ps q) q → q = r ∨ Held rs ps q := by
    rintro q (hq | hq | hq)
    · exact Or.inr (Or.inl hq)
    · exact Or.inl hq
    · exact Or.inr (Or.inr hq)
  have hstop : ∀ q, Held rs ps q → (grownHeap h r n flags).stop q = h.stop q := fun q hq => by
    rw [Heap.stop, grownHeap_other h n flags (hnew q hq), Heap.stop]
  refine ⟨fun hr => hnew r hr rfl, ⟨hv, ?_, ?_, fun q hq => ?_, fun q hq => ?_,
    fun q q' hq hq' hne => ?_⟩, hblk⟩
  · refine hk.ring.congr (fun x hx => ?_) fun x hx => ?_
    all_goals
      rcases List.mem_cons.mp hx with rfl | hx
      · rfl
      · simp only [Heap.regionLinks, grownHeap_other h n flags (hnew x (Or.inl hx))]
        rfl
  · rintro q hq (rfl | hp)
    · exact hnew q (Or.inl hq) rfl
    · exact hk.pending q hq hp
  · rcases hcases q hq with rfl | hq
    · rw [update_self]
      exact hok
    · have hsame := grownHeap_other h n flags (hnew q hq)
      rw [update_of_ne (hnew q hq)]
      exact (hk.region q hq).congr (by rw [hsame]) (by rw [hsame]) (by rw [hsame]) (hblk q hq)
  · rcases hcases q hq with rfl | hq
    · exact hgiven
    · rw [grownHeap_other h n flags (hnew q hq)]
      exact hkeep q _ (hk.given q hq)
  · rcases hcases q hq with rfl | h1 <;> rcases hcases q' hq' with rfl | h2
    · exact absurd rfl hne
    · rw [hstop q' h2]
      exact (hapart q' h2).symm
    · rw [hstop q h1]
      exact hapart q h1
    · rw [hstop q h1, hstop q' h2]
      exact hk.apart q q' h1 h2 hne

/-- **`heap_grow`**: the manager has no range, or there is a new region, which
is one free block in all of the pages. -/
theorem HeapOk.grow (hk : HeapOk z ops h v rs ps B) (size : U32) (c : Bool) :
    (∃ v', heapGrow ops h v size c = (0, h, v') ∧ HeapOk z ops h v' rs ps B) ∨
      ∃ r h' v', heapGrow ops h v size c = (r, h', v') ∧ r ≠ 0 ∧ ¬ Held rs ps r ∧
        HeapOk z ops h' v' rs (fun q => q = r ∨ ps q) (update B r [regionBlock r]) ∧
        ((h'.tile (regionBlock r)).used = false ∧
          (h'.tile (regionBlock r)).size + 48 = (growCount size).toNat * 4096) ∧
        ∀ q, Held rs ps q → ∀ b ∈ B q, h'.blocks b = h.blocks b := by
  obtain ⟨hn1, hn2⟩ := growCount_bounds size
  rw [heapGrow_eq]
  generalize growCount size = n at hn1 hn2 ⊢
  have hn0 : n ≠ 0 := by
    rintro rfl
    exact absurd hn1 (by decide)
  have hok' := ops.alloc_ok (c := c) (n := n) hk.vmm
  have hkeep : ∀ q k, ops.Given v q k → ops.Given (ops.alloc v c n).2 q k :=
    fun q k hq => ops.alloc_keeps hk.vmm hq
  have hrange := ops.alloc_range (c := c) hk.vmm hn0
  have hnew : ∀ q k, (ops.alloc v c n).1 ≠ 0 → ops.Given v q k →
      rangeStop q k ≤ (ops.alloc v c n).1.toNat ∨ rangeStop (ops.alloc v c n).1 n ≤ q.toNat :=
    fun q k hr hq => ops.alloc_apart hk.vmm hn0 hr hq
  generalize ops.alloc v c n = a at hok' hkeep hrange hnew ⊢
  obtain ⟨r, v'⟩ := a
  by_cases hr : r = 0
  · refine Or.inl ⟨v', if_pos hr, ⟨hok', hk.ring, hk.pending, hk.region, fun q hq => ?_, hk.apart⟩⟩
    exact hkeep q _ (hk.given q hq)
  · obtain ⟨ha, hfits, hgiven⟩ := hrange hr
    rw [rangeStop] at hfits
    let flags := if c then regionContiguous else regionNoncontiguous
    obtain ⟨hok, hstop, htile⟩ := grownHeap_region h flags hr ha (by omega) hfits
    have hsize : toPage ((grownHeap h r n flags).regions r).size = n := by
      apply BitVec.eq_of_toNat_eq
      rw [grownHeap_self, toNat_toPage, toNat_toAddr_of_lt hn2, Nat.mul_div_cancel _ (by decide)]
    obtain ⟨hfresh, hk', hblk⟩ := hk.grown flags hok' hok hkeep (by rw [hsize]; exact hgiven)
      fun q hq => by
        have := hnew q _ hr (hk.given q hq)
        rw [(hk.region q hq).rangeStop, rangeStop, ← hstop] at this
        exact this
    refine Or.inr ⟨r, grownHeap h r n flags, v', if_neg hr, hr, hfresh, hk', ⟨?_, ?_⟩, hblk⟩
    · rw [htile]
    · rw [htile]
      exact Nat.sub_add_cancel (by omega)

/-- What only links write is kept. -/
theorem HeapOk.linked (hk : HeapOk z ops h v rs ps B) (l : Linked h h') {rs' : List U32}
    {ps' : U32 → Prop} {v' : V} (hv : ops.Ok v') (hring : Ring h'.regionLinks 0 rs')
    (hpending : ∀ r ∈ rs', ¬ ps' r) (hheld : ∀ r, Held rs' ps' r → Held rs ps r)
    (hgiven : ∀ r, Held rs' ps' r → ops.Given v' r (toPage (h.regions r).size)) :
    HeapOk z ops h' v' rs' ps' B := by
  refine ⟨hv, hring, hpending, fun r hr => l.region (hk.region r (hheld r hr)), fun r hr => ?_,
    fun r q hr hq hne => ?_⟩
  · rw [l.size]
    exact hgiven r hr
  · rw [Heap.stop, Heap.stop, l.size, l.size]
    exact hk.apart r q (hheld r hr) (hheld q hq) hne

/-- **`region_append`** of a region that is not in the list yet. -/
theorem HeapOk.append (hk : HeapOk z ops h v rs ps B) (hr : ps r) :
    HeapOk z ops (regionAppend h r) v (rs ++ [r]) (fun q => ps q ∧ q ≠ r) B ∧
      Linked h (regionAppend h r) := by
  have hr0 := (hk.region r (Or.inr hr)).ne
  have hnew : r ∉ rs := fun hmem => hk.pending r hmem hr
  have hmem : r ∉ 0 :: rs := by
    rw [List.mem_cons, not_or]
    exact ⟨hr0, hnew⟩
  have hlast : h.regionLinks.next (h.regionLinks.prev 0) = 0 := by
    rw [hk.ring.tail]
    have hnext := hk.ring.next
    rw [← List.append_nil rs] at hnext
    exact hnext.after
  have l := linked_regionAppend (h := h) hr0
  have hheld : ∀ q, Held (rs ++ [r]) (fun q => ps q ∧ q ≠ r) q → Held rs ps q := by
    rintro q (hq | hq)
    · rcases List.mem_append.mp hq with hq | hq
      · exact Or.inl hq
      · rw [List.mem_singleton.mp hq]
        exact Or.inr hr
    · exact Or.inr hq.1
  refine ⟨hk.linked l hk.vmm ?_ ?_ hheld fun q hq => hk.given q (hheld q hq), l⟩
  · rw [regionAppend_links hr0 hlast]
    exact hk.ring.append hmem
  · rintro q hq ⟨hp, hne⟩
    rcases List.mem_append.mp hq with hq | hq
    · exact hk.pending q hq hp
    · exact hne (List.mem_singleton.mp hq)

/-- **The release of a region** in `heap_shrink`. -/
theorem HeapOk.release (hk : HeapOk z ops h v (pre ++ r :: post) ps B) :
    HeapOk z ops (regionRemove h r) (ops.free v r (toPage (h.regions r).size)) (pre ++ post) ps B ∧
      Linked h (regionRemove h r) := by
  have hr : Held (pre ++ r :: post) ps r := Or.inl (List.mem_append_right pre List.mem_cons_self)
  have hok := hk.region r hr
  have hn := hk.nodup
  rw [List.nodup_middle, List.nodup_cons] at hn
  have l := linked_regionRemove (h := h) hok.ne
  have hmem : ∀ q ∈ pre ++ post, q ∈ pre ++ r :: post := fun q hq => by
    rw [List.mem_append] at hq ⊢
    exact hq.imp id (List.mem_cons_of_mem r)
  have hheld : ∀ q, Held (pre ++ post) ps q → Held (pre ++ r :: post) ps q :=
    fun q hq => hq.imp (hmem q) id
  have hne : ∀ q, Held (pre ++ post) ps q → q ≠ r := by
    rintro q (hq | hq) rfl
    · exact hn.1 hq
    · exact hk.pending q (List.mem_append_right pre List.mem_cons_self) hq
  refine ⟨hk.linked l (ops.free_ok hk.vmm (hk.given r hr)) ?_ (fun q hq => hk.pending q (hmem q hq))
    hheld fun q hq => ?_, l⟩
  · have hno : r ∉ 0 :: (pre ++ post) := by
      rw [List.mem_cons, not_or]
      exact ⟨hok.ne, hn.1⟩
    rw [regionRemove_links hok.ne]
    exact (hk.ring.unlink.setNext hno 0).setPrev hno 0
  · refine ops.free_keeps hk.vmm (hk.given r hr) (hk.given q (hheld q hq)) ?_
    rw [hok.rangeStop, (hk.region q (hheld q hq)).rangeStop]
    exact hk.apart q r (hheld q hq) hr (hne q hq)

end Tomk
