/-
# Allocations of the heap

What `heap_alloc` has returned and `heap_free` has not been given yet is a list
of pointers with their sizes.  `LiveOk` ties it to the blocks: each is the
front of the payload of a block in use, and no two have the same block.

Each call ends, keeps `HeapOk`, and keeps the list right
(`HeapOk.heapAlloc_live`, `HeapOk.heapFree_live`).  The steps of `heap_alloc` have
a lemma each, since they may also be taken apart.
-/
import Tomk.Mm.KheapRegions

namespace Tomk

open DList Tiling Function

variable {V : Type} {z : Bool} {ops : VmmOps V} {h h' : Heap} {v : V} {rs : List U32}
  {ps : U32 → Prop} {B : U32 → List U32} {r b : U32} {bs pre post : List U32} {ls : List (U32 × U32)}

/-! ## Sizes and pointers -/

/-- The size that a request is rounded to is a multiple of 16. -/
theorem allocSize_mod (size : U32) : (allocSize size).toNat % 16 = 0 := by
  have hval : (allocSize size).toNat = (size + (blockAlignment - 1)).toNat / 2 ^ 4 * 2 ^ 4 :=
    toNat_and_not_mask _ 4
  omega

/-- It is the size rounded up, if that can be. -/
theorem allocSize_spec {size : U32} (h0 : size ≠ 0) (hs : size.toNat ≤ 0xFFFFFFF0) :
    0 < (allocSize size).toNat ∧ (allocSize size).toNat % 16 = 0 ∧ size ≤ allocSize size ∧
      (size.toNat ≤ 0xFFFFE000 → (allocSize size).toNat ≤ 0xFFFFE000) := by
  have hpos : 0 < size.toNat := Nat.pos_of_ne_zero fun hc => h0 (BitVec.eq_of_toNat_eq hc)
  have hval : (allocSize size).toNat = (size.toNat + 15) / 16 * 16 := by
    have h1 : (size + (blockAlignment - 1)).toNat = size.toNat + 15 := by
      rw [BitVec.toNat_add]
      show (size.toNat + 15) % _ = _
      omega
    rw [allocSize, align, ← h1]
    exact toNat_and_not_mask _ 4
  rw [BitVec.le_def]
  omega

/-- The payload of a block starts after its header. -/
theorem RegionShape.toNat_blockPtr (hs : RegionShape z h r bs) (hb : b ∈ bs) :
    (blockPtr b).toNat = b.toNat + 16 := by
  have h1 := hs.ends b hb
  have h2 : headerSize.toNat = 16 := by decide
  rw [blockPtr, BitVec.toNat_add, h2]
  omega

theorem RegionShape.blockPtr_ne (hs : RegionShape z h r bs) (hb : b ∈ bs) : blockPtr b ≠ 0 := by
  intro h0
  have h1 := hs.toNat_blockPtr hb
  rw [h0] at h1
  have h2 : (0 : U32).toNat = 0 := rfl
  omega

theorem blockPtr_inj {c : U32} (hp : blockPtr b = blockPtr c) : b = c := by
  have := congrArg (fun x : U32 => x - headerSize) hp
  simpa only [blockPtr, BitVec.add_sub_cancel] using this

/-! ## What is live -/

/-- The allocation `a`, a pointer and a size, is the front of the payload of the
block `b`. -/
def Heap.Holds (h : Heap) (b : U32) (a : U32 × U32) : Prop :=
  a.1 = blockPtr b ∧ (h.blocks b).Used ∧ a.2 ≤ (h.blocks b).size

structure LiveOk (h : Heap) (rs : List U32) (B : U32 → List U32) (ls : List (U32 × U32)) : Prop where
  nodup : (ls.map Prod.fst).Nodup
  block : ∀ a ∈ ls, ∃ r ∈ rs, ∃ b ∈ B r, h.Holds b a

/-- Blocks of one size, in use or not, are one tile. -/
theorem Heap.Holds.congr {a : U32 × U32} (hh : h.Holds b a) (ht : h'.tile b = h.tile b) :
    h'.Holds b a := by
  obtain ⟨h1, h2, h3⟩ := hh
  have hsize := congrArg Tile.size ht
  have hused := congrArg Tile.used ht
  simp only [Heap.tile] at hsize hused
  refine ⟨h1, of_decide_eq_true (hused.trans (decide_eq_true h2)), ?_⟩
  rw [BitVec.le_def, hsize]
  exact h3

/-- What is live stays so while its blocks are kept. -/
theorem LiveOk.keep (hl : LiveOk h rs B ls) {rs' : List U32} {B' : U32 → List U32}
    (hkeep : ∀ a ∈ ls, ∀ r ∈ rs, ∀ b ∈ B r, h.Holds b a →
      ∃ r' ∈ rs', b ∈ B' r' ∧ h'.tile b = h.tile b) : LiveOk h' rs' B' ls := by
  refine ⟨hl.nodup, fun a ha => ?_⟩
  obtain ⟨r, hr, b, hb, hh⟩ := hl.block a ha
  obtain ⟨r', hr', hb', ht⟩ := hkeep a ha r hr b hb hh
  exact ⟨r', hr', b, hb', hh.congr ht⟩

theorem LiveOk.filter (hl : LiveOk h rs B ls) (p : U32 × U32 → Bool) : LiveOk h rs B (ls.filter p) :=
  ⟨(List.filter_sublist.map Prod.fst).nodup hl.nodup, fun a ha => hl.block a (List.mem_filter.mp ha).1⟩

/-! ## The steps of an allocation -/

/-- **`block_alloc`** of a free block that is big enough: one more allocation. -/
theorem HeapOk.blockAlloc_live (hk : HeapOk z ops h v rs ps B) (hl : LiveOk h rs B ls) (hr : r ∈ rs)
    (hb : b ∈ B r) (hfree : ¬ (h.blocks b).Used) {n m : U32}
    (hn0 : z = false → 0 < n.toNat) (hn : n.toNat % 16 = 0) (hmn : m ≤ n) (hle : n ≤ (h.blocks b).size) :
    ∃ h' B', blockAlloc h r b n = (true, h') ∧ HeapOk z ops h' v rs ps B' ∧
      LiveOk h' rs B' ((blockPtr b, m) :: ls) := by
  obtain ⟨h', bs', hrun, ha⟩ := (hk.region r (Or.inl hr)).alloc hb hfree hn0 hn hle
  obtain ⟨hk', hblk⟩ := hk.edit (Or.inl hr) ha.edited ha.ok
  refine ⟨h', _, hrun, hk', ?_⟩
  have hl' : LiveOk h' rs (update B r bs') ls := by
    refine hl.keep fun a _ q hq c hc hh => ⟨q, hq, ?_⟩
    by_cases hqr : q = r
    · subst hqr
      rw [update_self]
      exact ha.keep c hc fun hcb => hfree (hcb ▸ hh.2.1)
    · rw [update_of_ne hqr]
      exact ⟨hc, by rw [Heap.tile, Heap.tile, hblk q (Or.inl hq) hqr c hc]⟩
  refine ⟨?_, fun a hmem => ?_⟩
  · -- the block was free, so that no allocation has its pointer
    rw [List.map_cons, List.nodup_cons]
    refine ⟨fun hmem => ?_, hl'.nodup⟩
    obtain ⟨a, ha', hptr⟩ := List.mem_map.mp hmem
    obtain ⟨q, hq, c, hc, hp, hu, _⟩ := hl.block a ha'
    rw [hptr] at hp
    rw [blockPtr_inj hp] at hfree
    exact hfree hu
  · rcases List.mem_cons.mp hmem with rfl | hmem
    · refine ⟨r, hr, b, by rw [update_self]; exact ha.mem, rfl, of_decide_eq_true ha.used, ?_⟩
      have hsize := ha.size
      rw [BitVec.le_def] at hmn ⊢
      exact Nat.le_trans hmn hsize
    · exact hl'.block a hmem

/-- **`heap_grow`**, for what is live. -/
theorem LiveOk.grown (hl : LiveOk h rs B ls) (hnew : ¬ Held rs ps r)
    (hblk : ∀ q, Held rs ps q → ∀ b ∈ B q, h'.blocks b = h.blocks b) :
    LiveOk h' rs (update B r bs) ls := by
  refine hl.keep fun a _ q hq c hc _ => ⟨q, hq, ?_, ?_⟩
  · rw [update_of_ne]
    · exact hc
    · rintro rfl
      exact hnew (Or.inl hq)
  · rw [Heap.tile, Heap.tile, hblk q (Or.inl hq) c hc]

/-- **`region_append`**, for what is live. -/
theorem LiveOk.append (hl : LiveOk h rs B ls) (l : Linked h h') : LiveOk h' (rs ++ [r]) B ls :=
  hl.keep fun _ _ q hq _ hc _ => ⟨q, List.mem_append_left _ hq, hc, by rw [l.tile]⟩

/-! ## The two ways of `heap_alloc` -/

/-- A block that `block_find_free` accepts. -/
theorem suitable_free {n : U32} {c : Bool} (hs : suitable h n c r b = true) :
    ¬ (h.blocks b).Used ∧ n ≤ (h.blocks b).size := by
  rw [suitable] at hs
  split at hs
  · cases hs
  · next hu =>
      split at hs
      · cases hs
      · next hlt => exact ⟨hu, BitVec.not_lt.mp hlt⟩

/-- `block_alloc` refuses a block that is too small. -/
theorem blockAlloc_small {n : U32} (hlt : (h.blocks b).size < n) : blockAlloc h r b n = (false, h) := by
  simp only [blockAlloc, if_pos hlt, ite_self]

/-- `block_alloc` takes a block that is big enough. -/
theorem blockAlloc_done {n : U32} (hr : r ≠ 0) (hb : b ≠ 0) (hle : n ≤ (h.blocks b).size) :
    (blockAlloc h r b n).1 = true := by
  simp only [blockAlloc, if_neg hr, if_neg hb, if_neg (BitVec.not_lt.mpr hle)]

/-- `heap_alloc` finds the block `b` of the region `r`, and takes it. -/
structure Suits (ops : VmmOps V) (h : Heap) (v : V) (rs : List U32) (B : U32 → List U32) (size : U32)
    (c : Bool) (r b : U32) : Prop where
  region : r ∈ rs
  block : b ∈ B r
  free : ¬ (h.blocks b).Used
  big : allocSize size ≤ (h.blocks b).size
  found : blockFindFree h (allocSize size) c = some (some (b, r))
  done : (blockAlloc h r b (allocSize size)).1 = true
  ptr_ne : blockPtr b ≠ 0
  run : heapAlloc ops h v size c = some (blockPtr b, (blockAlloc h r b (allocSize size)).2, v)

theorem HeapOk.heapAlloc_cases (hk : HeapOk z ops h v rs ps B) {size : U32} (h0 : size ≠ 0)
    (c : Bool) :
    (blockFindFree h (allocSize size) c = some none ∧
      heapAlloc ops h v size c = some (allocNew ops h v (allocSize size) c)) ∨
    ∃ r b, Suits ops h v rs B size c r b := by
  rcases searchRegions_cases hk (suitable h (allocSize size) c) with
    ⟨hfind, _⟩ | ⟨r, hr, b, hb, hacc, hfind⟩
  · refine Or.inl ⟨hfind, ?_⟩
    simp only [heapAlloc, if_neg h0, blockFindFree, hfind, Option.bind_eq_bind, Option.bind_some,
      Option.pure_def]
  · obtain ⟨hfree, hle⟩ := suitable_free hacc
    have hok := hk.region r (Or.inl hr)
    have hdone := blockAlloc_done hok.ne (hok.block_ne hb) hle
    refine Or.inr ⟨r, b, hr, hb, hfree, hle, hfind, hdone, hok.blockPtr_ne hb, ?_⟩
    simp only [heapAlloc, if_neg h0, blockFindFree, hfind, hdone, Option.bind_eq_bind,
      Option.bind_some, if_true, Option.pure_def]

/-- `heap_alloc` has a new region `r` from the manager, one free block, and
appends it: `h'` is the heap that the block is then taken in. -/
structure Appended (z : Bool) (ops : VmmOps V) (h : Heap) (v : V) (rs : List U32) (ps : U32 → Prop)
    (B : U32 → List U32) (n : U32) (c : Bool) (r : U32) (h' : Heap) (v' : V) : Prop where
  got : (ops.alloc v c (growCount n)).1 ≠ 0
  ne : r ≠ 0
  new : ¬ Held rs ps r
  heap : h' = regionAppend (grownHeap h r (growCount n)
    (if c then regionContiguous else regionNoncontiguous)) r
  ok : HeapOk z ops h' v' (rs ++ [r]) ps (update B r [regionBlock r])
  free : ¬ (h'.blocks (regionBlock r)).Used
  room : (h'.blocks (regionBlock r)).size.toNat + 48 = (growCount n).toNat * 4096
  blocks : ∀ q, Held rs ps q → ∀ b ∈ B q, h'.blocks b = h.blocks b
  run : allocNew ops h v n c =
    (if (blockAlloc h' r (regionBlock r) n).1 then blockPtr (regionBlock r) else 0,
      (blockAlloc h' r (regionBlock r) n).2, v')

theorem HeapOk.allocNew_cases (hk : HeapOk z ops h v rs ps B) (n : U32) (c : Bool) :
    (∃ v', (ops.alloc v c (growCount n)).1 = 0 ∧ allocNew ops h v n c = (0, h, v') ∧
      HeapOk z ops h v' rs ps B) ∨
    ∃ r h' v', Appended z ops h v rs ps B n c r h' v' := by
  have heq := heapGrow_eq ops h v n c
  rcases hk.grow n c with ⟨v', hrun, hk'⟩ | ⟨r, h1, v', hrun, hr0, hnew, hk1, ⟨hf, hroom⟩, hblk⟩
  · refine Or.inl ⟨v', ?_, by simp only [allocNew, hrun, if_true], hk'⟩
    by_contra ha
    rw [if_neg ha, hrun] at heq
    exact ha (Prod.mk.inj heq).1.symm
  · have ha : (ops.alloc v c (growCount n)).1 ≠ 0 := by
      intro ha
      rw [if_pos ha, hrun] at heq
      exact hr0 (Prod.mk.inj heq).1
    rw [if_neg ha, hrun] at heq
    obtain ⟨hr, hpair⟩ := Prod.mk.inj heq
    have hgrown := (Prod.mk.inj hpair).1
    rw [← hr] at hgrown
    obtain ⟨hk2, l⟩ := hk1.append (Or.inl rfl)
    -- the region is in the list now
    have hps : (fun q => (q = r ∨ ps q) ∧ q ≠ r) = ps := by
      funext q
      refine propext ⟨fun hq => hq.1.resolve_left hq.2, fun hq => ⟨Or.inr hq, ?_⟩⟩
      rintro rfl
      exact hnew (Or.inr hq)
    rw [hps] at hk2
    have hok := hk2.region r (Or.inl (List.mem_append_right rs List.mem_cons_self))
    rw [update_self] at hok
    have hhead : ((regionAppend h1 r).regions r).head = regionBlock r := hok.ring.head
    refine Or.inr ⟨r, regionAppend h1 r, v', ha, hr0, hnew, by rw [hgrown], hk2, ?_, ?_, ?_, ?_⟩
    · rw [l.blocks]
      exact of_decide_eq_false hf
    · rw [l.blocks]
      exact hroom
    · rw [l.blocks]
      exact hblk
    · simp only [allocNew, hrun, if_neg hr0, allocFrom, hhead]

section Appended

variable {n : U32} {c : Bool} {v' : V}

theorem Appended.mem (_ : Appended z ops h v rs ps B n c r h' v') : r ∈ rs ++ [r] :=
  List.mem_append_right rs List.mem_cons_self

theorem Appended.block (_ : Appended z ops h v rs ps B n c r h' v') :
    regionBlock r ∈ update B r [regionBlock r] r := by
  rw [update_self]
  exact List.mem_cons_self

theorem Appended.block_ne (ha : Appended z ops h v rs ps B n c r h' v') : regionBlock r ≠ 0 :=
  (ha.ok.region r (Or.inl ha.mem)).block_ne ha.block

theorem Appended.ptr_ne (ha : Appended z ops h v rs ps B n c r h' v') :
    blockPtr (regionBlock r) ≠ 0 := (ha.ok.region r (Or.inl ha.mem)).blockPtr_ne ha.block

/-- The regions that were there are others. -/
theorem Appended.other (ha : Appended z ops h v rs ps B n c r h' v') {q : U32} (hq : q ∈ rs) :
    q ≠ r := fun hqr => ha.new (Or.inl (hqr ▸ hq))

/-- A request that does not wrap has room in its region. -/
theorem Appended.big (ha : Appended z ops h v rs ps B n c r h' v') (hn : n.toNat ≤ 0xFFFFEFD0) :
    n ≤ (h'.blocks (regionBlock r)).size := by
  have hcount := growCount_room hn
  have hroom := ha.room
  rw [BitVec.le_def]
  omega

/-- What is live stays so. -/
theorem Appended.live (ha : Appended z ops h v rs ps B n c r h' v') (hl : LiveOk h rs B ls) :
    LiveOk h' (rs ++ [r]) (update B r [regionBlock r]) ls := by
  refine hl.keep fun a _ q hq b hb _ => ⟨q, List.mem_append_left _ hq, ?_, ?_⟩
  · rwa [update_of_ne (ha.other hq)]
  · rw [Heap.tile, Heap.tile, ha.blocks q (Or.inl hq) b hb]

end Appended

/-! ## `heap_alloc` -/

/-- What a call of `heap_alloc` leads to. -/
def AllocDone (z : Bool) (ops : VmmOps V) (ps : U32 → Prop) (ls : List (U32 × U32)) (size : U32)
    (res : U32 × Heap × V) : Prop :=
  ∃ rs B, HeapOk z ops res.2.1 res.2.2 rs ps B ∧
    LiveOk res.2.1 rs B (if res.1 = 0 then ls else (res.1, size) :: ls)

/-- A region that is appended holds the request or stays a free block: a size
that wrapped may have asked for too few pages. -/
theorem HeapOk.allocNew_live (hk : HeapOk z ops h v rs ps B) (hl : LiveOk h rs B ls) {n m : U32}
    (hn0 : z = false → 0 < n.toNat) (hn : n.toNat % 16 = 0) (hmn : m ≤ n)
    (c : Bool) : AllocDone z ops ps ls m (allocNew ops h v n c) := by
  rcases hk.allocNew_cases n c with ⟨v', _, hrun, hk'⟩ | ⟨r, h2, v', ha⟩
  · rw [hrun]
    exact ⟨rs, B, hk', hl⟩
  · have hl2 := ha.live hl
    rw [ha.run]
    by_cases hlt : (h2.blocks (regionBlock r)).size < n
    · rw [blockAlloc_small hlt]
      exact ⟨_, _, ha.ok, hl2⟩
    · obtain ⟨h3, B', hrun3, hk3, hl3⟩ := ha.ok.blockAlloc_live hl2 ha.mem ha.block ha.free hn0 hn hmn
        (BitVec.not_lt.mp hlt)
      rw [hrun3]
      refine ⟨_, B', hk3, ?_⟩
      simp only [if_true, if_neg ha.ptr_ne]
      exact hl3

/-- **`heap_alloc`** ends, and keeps the invariant; the first `m` bytes of the
payload are what the caller has. -/
theorem HeapOk.heapAlloc_live (hk : HeapOk z ops h v rs ps B) (hl : LiveOk h rs B ls) {size m : U32}
    (hz : size ≠ 0 → z = false → 0 < (allocSize size).toNat) (hm : size ≠ 0 → m ≤ allocSize size)
    (c : Bool) :
    ∃ res, heapAlloc ops h v size c = some res ∧ AllocDone z ops ps ls m res := by
  by_cases h0 : size = 0
  · refine ⟨(0, h, v), ?_, rs, B, hk, hl⟩
    simp only [heapAlloc, if_pos h0, Option.pure_def]
  have hn0 := hz h0
  have hmn := hm h0
  have hn := allocSize_mod size
  rcases hk.heapAlloc_cases h0 c with ⟨_, hrun⟩ | ⟨r, b, hs⟩
  · exact ⟨_, hrun, hk.allocNew_live hl hn0 hn hmn c⟩
  · obtain ⟨h', B', hblock, hk', hl'⟩ := hk.blockAlloc_live hl hs.region hs.block hs.free hn0 hn hmn
      hs.big
    have hrun := hs.run
    rw [hblock] at hrun
    refine ⟨_, hrun, rs, B', hk', ?_⟩
    rw [if_neg hs.ptr_ne]
    exact hl'

/-- A region that was to be had has room for the request that it was made for. -/
theorem HeapOk.allocNew_ne (hk : HeapOk z ops h v rs ps B) {n : U32} (hn : n.toNat ≤ 0xFFFFEFD0)
    {c : Bool} (ha : (ops.alloc v c (growCount n)).1 ≠ 0) : (allocNew ops h v n c).1 ≠ 0 := by
  rcases hk.allocNew_cases n c with ⟨_, hnone, _⟩ | ⟨r, h2, v', ha⟩
  · exact absurd hnone ha
  · rw [ha.run, blockAlloc_done ha.ne ha.block_ne (ha.big hn), if_pos rfl]
    exact ha.ptr_ne

/-- **`heap_alloc` fails only where the manager does**, for the sizes whose
rounding and headers do not wrap. -/
theorem HeapOk.heapAlloc_ne (hk : HeapOk z ops h v rs ps B) {size : U32} (h0 : size ≠ 0)
    (hs : size.toNat ≤ 0xFFFFE000) {c : Bool}
    (ha : (ops.alloc v c (growCount (allocSize size))).1 ≠ 0) :
    ∃ res, heapAlloc ops h v size c = some res ∧ res.1 ≠ 0 := by
  obtain ⟨_, _, _, hsize⟩ := allocSize_spec h0 (Nat.le_trans hs (by decide))
  rcases hk.heapAlloc_cases h0 c with ⟨_, hrun⟩ | ⟨r, b, hs⟩
  · exact ⟨_, hrun, hk.allocNew_ne (Nat.le_trans (hsize hs) (by decide)) ha⟩
  · exact ⟨_, hs.run, hs.ptr_ne⟩

/-! ## `heap_free` -/

/-- **`heap_shrink`** after the block has been unmarked, for what is live: the
allocation of the block is the one that is left out. -/
theorem HeapOk.shrink_live (hk : HeapOk z ops h v rs ps B) (hl : LiveOk h rs B ls) (hr : r ∈ rs)
    (hb : b ∈ B r) (hu : (h.blocks b).Used) (hout : ∀ a ∈ ls, a.1 ≠ blockPtr b) {h0 : Heap}
    (hh : h0 = h.setBlock b
      { h.blocks b with flags := (h.blocks b).flags &&& ~~~blockFlagUsed }) :
    ∃ rs' B', HeapOk z ops (heapShrink ops h0 v r b).1 (heapShrink ops h0 v r b).2 rs' ps B' ∧
      LiveOk (heapShrink ops h0 v r b).1 rs' B' ls := by
  obtain ⟨bs', hrel⟩ := (hk.region r (Or.inl hr)).free hb hh hu
  generalize hm : shrinkMerge h0 r b = m at hrel
  obtain ⟨h1, x⟩ := m
  obtain ⟨hk1, hblk⟩ := hk.edit (Or.inl hr) hrel.edited hrel.ok
  have hl1 : LiveOk h1 rs (update B r bs') ls := by
    refine hl.keep fun a ha q hq c hc hhold => ⟨q, hq, ?_⟩
    by_cases hqr : q = r
    · subst hqr
      rw [update_self]
      refine hrel.keep c hc (fun hcb => hout a ha ?_) (decide_eq_true hhold.2.1)
      rw [hhold.1, hcb]
    · rw [update_of_ne hqr]
      exact ⟨hc, by rw [Heap.tile, Heap.tile, hblk q (Or.inl hq) hqr c hc]⟩
  by_cases hone : (h1.regions r).head = (h1.regions r).tail ∧ (h1.regions r).head = x ∧
      ¬ (h1.blocks x).Used
  · have hrun : heapShrink ops h0 v r b
        = (regionRemove h1 r, ops.free v r (toPage (h1.regions r).size)) := by
      simp only [heapShrink, hm, if_pos hone]
    -- the block that is left is the only one, and no allocation is in it
    have hbs : bs' = [x] := hrel.ok.ring.eq_singleton (hrel.ok.block_ne hrel.mem) hone.2.1
      (hone.1.symm.trans hone.2.1)
    obtain ⟨pre, post, rfl⟩ := List.append_of_mem hr
    obtain ⟨hk2, l⟩ := hk1.release
    rw [hrun]
    refine ⟨pre ++ post, _, hk2, hl1.keep fun a ha q hq c hc hhold => ⟨q, ?_, hc, by rw [l.tile]⟩⟩
    have hqr : q ≠ r := by
      rintro rfl
      rw [update_self, hbs, List.mem_singleton] at hc
      rw [hc] at hhold
      exact hone.2.2 hhold.2.1
    rw [List.mem_append, List.mem_cons] at hq
    rw [List.mem_append]
    exact hq.imp id fun hq => hq.resolve_left hqr
  · have hrun : heapShrink ops h0 v r b = (h1, v) := by
      simp only [heapShrink, hm, if_neg hone]
    rw [hrun]
    exact ⟨rs, _, hk1, hl1⟩

/-- What `block_find` finds is the block of the pointer. -/
theorem HeapOk.blockFind_cases (hk : HeapOk z ops h v rs ps B) (ptr : U32) :
    (blockFind h ptr = some none ∧ ∀ r ∈ rs, ∀ b ∈ B r, blockPtr b ≠ ptr) ∨
      ∃ r ∈ rs, ∃ b ∈ B r, blockPtr b = ptr ∧ blockFind h ptr = some (some (b, r)) := by
  rcases searchRegions_cases hk (fun _ b => decide (blockPtr b = ptr)) with
    ⟨hrun, hno⟩ | ⟨r, hr, b, hb, hacc, hrun⟩
  · exact Or.inl ⟨hrun, fun r hr b hb => of_decide_eq_false (hno r hr b hb)⟩
  · exact Or.inr ⟨r, hr, b, hb, of_decide_eq_true hacc, hrun⟩

/-- **`heap_free`** of any pointer ends, and keeps the invariant. -/
theorem HeapOk.heapFree_live (hk : HeapOk z ops h v rs ps B) (hl : LiveOk h rs B ls) (ptr : U32) :
    ∃ h' v' rs' B', heapFree ops h v ptr = some (h', v') ∧ HeapOk z ops h' v' rs' ps B' ∧
      LiveOk h' rs' B' (ls.filter fun a => a.1 ≠ ptr) := by
  have hl' := hl.filter fun a => a.1 ≠ ptr
  by_cases h0 : ptr = 0
  · refine ⟨h, v, rs, B, ?_, hk, hl'⟩
    simp only [heapFree, if_pos h0, Option.pure_def]
  rcases hk.blockFind_cases ptr with ⟨hfind, _⟩ | ⟨r, hr, b, hb, hptr, hfind⟩
  · refine ⟨h, v, rs, B, ?_, hk, hl'⟩
    simp only [heapFree, if_neg h0, hfind, Option.bind_eq_bind, Option.bind_some, Option.pure_def]
  by_cases hu : (h.blocks b).Used
  · have hout : ∀ a ∈ ls.filter fun a => a.1 ≠ ptr, a.1 ≠ blockPtr b := by
      intro a ha
      rw [hptr]
      exact of_decide_eq_true (List.mem_filter.mp ha).2
    obtain ⟨rs', B', hk', hl''⟩ := hk.shrink_live hl' hr hb hu hout rfl
    refine ⟨_, _, rs', B', ?_, hk', hl''⟩
    simp only [heapFree, if_neg h0, hfind, Option.bind_eq_bind, Option.bind_some,
      if_neg (not_not.mpr hu), Option.pure_def]
  · refine ⟨h, v, rs, B, ?_, hk, hl'⟩
    simp only [heapFree, if_neg h0, hfind, Option.bind_eq_bind, Option.bind_some, if_pos hu,
      Option.pure_def]

end Tomk
