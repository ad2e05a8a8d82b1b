/-
# The blocks of a region

`RegionShape z h r bs` is what a region is, whatever its blocks are used for: the
blocks `bs` are its doubly linked list, and with their headers they tile the
region from the end of its own header to its end, with payloads that are
multiples of 16; unless `z` is set, none is empty.  `RegionOk` adds that no two
neighbours are both free.

Each operation on blocks changes headers of one region only (`Edited`).  Its
lemma gives the list of the region afterwards and what became of the blocks:
the flags of a block are set (`RegionShape.setFlags`), a block takes the one
after it in (`RegionShape.merge`), or a block is split (`RegionShape.split`).
-/
import Tomk.Mm.Kheap
import Tomk.Lib.Tiling

namespace Tomk

open DList Tiling Function

/-! ## The lists as rings -/

/-- The list of regions. -/
def Heap.regionLinks (h : Heap) : Links U32 where
  next r := if r = 0 then h.head else (h.regions r).next
  prev r := if r = 0 then h.tail else (h.regions r).prev

/-- The list of blocks of a region. -/
def Heap.blockLinks (h : Heap) (region : U32) : Links U32 where
  next b := if b = 0 then (h.regions region).head else (h.blocks b).next
  prev b := if b = 0 then (h.regions region).tail else (h.blocks b).prev

variable {z : Bool} {h h' : Heap} {r b c : U32} {bs pre post : List U32}

@[simp] theorem Heap.setBlock_blocks (h : Heap) (b x : U32) (y : Block) :
    (h.setBlock b y).blocks x = if x = b then y else h.blocks x := Function.update_apply _ _ _ _

@[simp] theorem Heap.setBlock_regions (h : Heap) (b : U32) (y : Block) :
    (h.setBlock b y).regions = h.regions := rfl

@[simp] theorem Heap.setBlock_head (h : Heap) (b : U32) (y : Block) :
    (h.setBlock b y).head = h.head := rfl

@[simp] theorem Heap.setBlock_tail (h : Heap) (b : U32) (y : Block) :
    (h.setBlock b y).tail = h.tail := rfl

@[simp] theorem Heap.setRegion_regions (h : Heap) (r x : U32) (y : Region) :
    (h.setRegion r y).regions x = if x = r then y else h.regions x := Function.update_apply _ _ _ _

@[simp] theorem Heap.setRegion_blocks (h : Heap) (r : U32) (y : Region) :
    (h.setRegion r y).blocks = h.blocks := rfl

@[simp] theorem Heap.setRegion_head (h : Heap) (r : U32) (y : Region) :
    (h.setRegion r y).head = h.head := rfl

@[simp] theorem Heap.setRegion_tail (h : Heap) (r : U32) (y : Region) :
    (h.setRegion r y).tail = h.tail := rfl

/-- A link that is set is set in the ring. -/
theorem setNextBlock_links (h : Heap) (r x v : U32) :
    (h.setNextBlock r x v).blockLinks r = (h.blockLinks r).setNext x v := by
  refine Links.ext (funext fun y => ?_) (funext fun y => ?_)
  · simp only [Heap.setNextBlock, Heap.blockLinks, Links.setNext, Function.update_apply]
    by_cases hx : x = 0 <;> by_cases hy : y = 0 <;> by_cases hyx : y = x <;> simp_all
  · simp only [Heap.setNextBlock, Heap.blockLinks, Links.setNext]
    by_cases hx : x = 0 <;> by_cases hy : y = 0 <;> by_cases hyx : y = x <;> simp_all

theorem setPrevBlock_links (h : Heap) (r x v : U32) :
    (h.setPrevBlock r x v).blockLinks r = (h.blockLinks r).setPrev x v := by
  refine Links.ext (funext fun y => ?_) (funext fun y => ?_)
  · simp only [Heap.setPrevBlock, Heap.blockLinks, Links.setPrev]
    by_cases hx : x = 0 <;> by_cases hy : y = 0 <;> by_cases hyx : y = x <;> simp_all
  · simp only [Heap.setPrevBlock, Heap.blockLinks, Links.setPrev, Function.update_apply]
    by_cases hx : x = 0 <;> by_cases hy : y = 0 <;> by_cases hyx : y = x <;> simp_all

/-- A field of a block, set without a test for `NULL`. -/
theorem setBlock_next (h : Heap) (r : U32) (hb : b ≠ 0) (v : U32) :
    h.setBlock b { h.blocks b with next := v } = h.setNextBlock r b v := (if_pos hb).symm

theorem setBlock_prev (h : Heap) (r : U32) (hb : b ≠ 0) (v : U32) :
    h.setBlock b { h.blocks b with prev := v } = h.setPrevBlock r b v := (if_pos hb).symm

theorem blockLinks_next (h : Heap) (r : U32) (hb : b ≠ 0) :
    (h.blocks b).next = (h.blockLinks r).next b := (if_neg hb).symm

theorem blockLinks_prev (h : Heap) (r : U32) (hb : b ≠ 0) :
    (h.blocks b).prev = (h.blockLinks r).prev b := (if_neg hb).symm

/-- `block_remove` takes the block out of the ring. -/
theorem blockRemove_links (hr : r ≠ 0) (hb : b ≠ 0) :
    (blockRemove h r b).blockLinks r
      = (((h.blockLinks r).unlink b).setNext b 0).setPrev b 0 := by
  have hno : ¬ (r = 0 ∨ b = 0) := not_or.mpr ⟨hr, hb⟩
  simp only [blockRemove, if_neg hno]
  rw [setBlock_next _ r hb, setBlock_prev _ r hb, setPrevBlock_links, setNextBlock_links,
    setPrevBlock_links, setNextBlock_links]
  simp only [blockLinks_next _ r hb, blockLinks_prev _ r hb, setNextBlock_links]
  congr 2
  -- what is read after the first write is what was there
  simp only [Links.unlink, Links.setNext, Links.setPrev, Function.update_apply]
  split
  · next hc => rw [← hc]
  · rfl

/-- `block_insert_after` puts the block into the ring. -/
theorem blockInsertAfter_links (hr : r ≠ 0) (hb : b ≠ 0) (hc : c ≠ 0) :
    (blockInsertAfter h r b c).blockLinks r = (h.blockLinks r).insertAfter b c := by
  have hno : ¬ (r = 0 ∨ b = 0 ∨ c = 0) := not_or.mpr ⟨hr, not_or.mpr ⟨hb, hc⟩⟩
  simp only [blockInsertAfter, if_neg hno]
  rw [setBlock_next _ r hb, setNextBlock_links, setPrevBlock_links, setBlock_next _ r hc,
    setNextBlock_links, setBlock_prev _ r hc, setPrevBlock_links]
  simp only [blockLinks_next _ r hb, setNextBlock_links, setPrevBlock_links]
  simp only [Links.insertAfter, Links.setNext, Links.setPrev, Function.update_apply]
  by_cases hbc : b = c
  · subst hbc
    simp
  · simp [hbc]

/-! ## What the list operations keep -/

/-- A block, as the tiling has it. -/
def Heap.tile (h : Heap) (b : U32) : Tile :=
  ⟨b.toNat, (h.blocks b).size.toNat, decide (h.blocks b).Used⟩

/-- The size and the flags of a block: what is not a link. -/
def Heap.fields (h : Heap) (b : U32) : U32 × U32 := ((h.blocks b).size, (h.blocks b).flags)

theorem Heap.tile_eq (h : Heap) (b : U32) : h.tile b
    = ⟨b.toNat, (h.fields b).1.toNat, decide ((h.fields b).2 &&& blockFlagUsed ≠ 0)⟩ := rfl

/-- A tile is the size and the flags of a block. -/
theorem Heap.tile_congr {x : U32} (hf : h'.fields x = h.fields x) : h'.tile x = h.tile x := by
  rw [Heap.tile_eq, hf, Heap.tile_eq]

theorem Heap.setBlock_fields (h : Heap) (b x : U32) (y : Block) :
    (h.setBlock b y).fields x = if x = b then (y.size, y.flags) else h.fields x := by
  rw [Heap.fields, Heap.setBlock_blocks]
  split <;> rfl

/-- Links are written. -/
theorem setBlock_link_fields (h : Heap) (b n p : U32) :
    (h.setBlock b ⟨(h.blocks b).size, (h.blocks b).flags, n, p⟩).fields = h.fields := by
  funext x
  rw [Heap.setBlock_fields]
  split
  · next hx => rw [hx, Heap.fields]
  · rfl

theorem setNextBlock_fields (h : Heap) (r x v : U32) : (h.setNextBlock r x v).fields = h.fields := by
  rw [Heap.setNextBlock]
  split
  · exact setBlock_link_fields _ _ _ _
  · rfl

theorem setPrevBlock_fields (h : Heap) (r x v : U32) : (h.setPrevBlock r x v).fields = h.fields := by
  rw [Heap.setPrevBlock]
  split
  · exact setBlock_link_fields _ _ _ _
  · rfl

theorem blockRemove_fields (h : Heap) (r b : U32) : (blockRemove h r b).fields = h.fields := by
  rw [blockRemove]
  split
  · rfl
  · simp only [setBlock_link_fields, setPrevBlock_fields, setNextBlock_fields]

theorem blockInsertAfter_fields (h : Heap) (r b c : U32) :
    (blockInsertAfter h r b c).fields = h.fields := by
  rw [blockInsertAfter]
  split
  · rfl
  · simp only [setBlock_link_fields, setPrevBlock_fields]

/-- Only headers of blocks of `S` are written, and the ends of the list of
region `r`. -/
structure Edited (S : U32 → Prop) (r : U32) (h h' : Heap) : Prop where
  head : h'.head = h.head
  tail : h'.tail = h.tail
  other : ∀ q, q ≠ r → h'.regions q = h.regions q
  own : ∃ head tail, h'.regions r = { h.regions r with head := head, tail := tail }
  blocks : ∀ x, ¬ S x → h'.blocks x = h.blocks x

variable {S : U32 → Prop}

theorem Edited.refl (S : U32 → Prop) (r : U32) (h : Heap) : Edited S r h h :=
  ⟨rfl, rfl, fun _ _ => rfl, ⟨_, _, rfl⟩, fun _ _ => rfl⟩

theorem Edited.trans {h'' : Heap} (e : Edited S r h h') (e' : Edited S r h' h'') :
    Edited S r h h'' := by
  obtain ⟨a, z, ha⟩ := e.own
  obtain ⟨a', z', ha'⟩ := e'.own
  exact ⟨e'.head.trans e.head, e'.tail.trans e.tail,
    fun q hq => (e'.other q hq).trans (e.other q hq), ⟨a', z', by rw [ha', ha]⟩,
    fun x hx => (e'.blocks x hx).trans (e.blocks x hx)⟩

theorem Edited.setBlock (hb : S b) (x : Block) : Edited S r h (h.setBlock b x) := by
  refine ⟨rfl, rfl, fun _ _ => rfl, ⟨_, _, rfl⟩, fun y hy => ?_⟩
  rw [Heap.setBlock_blocks, if_neg]
  rintro rfl
  exact hy hb

theorem Edited.setNextBlock (hb : b ≠ 0 → S b) (v : U32) : Edited S r h (h.setNextBlock r b v) := by
  rw [Heap.setNextBlock]
  split
  · next hne => exact Edited.setBlock (hb hne) _
  · exact ⟨rfl, rfl, fun q hq => by simp [hq], ⟨v, (h.regions r).tail, by simp⟩, fun _ _ => rfl⟩

theorem Edited.setPrevBlock (hb : b ≠ 0 → S b) (v : U32) : Edited S r h (h.setPrevBlock r b v) := by
  rw [Heap.setPrevBlock]
  split
  · next hne => exact Edited.setBlock (hb hne) _
  · exact ⟨rfl, rfl, fun q hq => by simp [hq], ⟨(h.regions r).head, v, by simp⟩, fun _ _ => rfl⟩

theorem Edited.size (e : Edited S r h h') : (h'.regions r).size = (h.regions r).size := by
  obtain ⟨_, _, he⟩ := e.own
  rw [he]

/-- The links of the neighbours are what `block_remove` writes. -/
theorem Edited.blockRemove (hb : S b) (hp : (h.blocks b).prev ≠ 0 → S (h.blocks b).prev)
    (hn : (h.blocks b).next ≠ 0 → S (h.blocks b).next) :
    Edited S r h (blockRemove h r b) := by
  rw [Tomk.blockRemove]
  split
  · exact Edited.refl S r h
  · have h1 : Edited S r h (h.setNextBlock r (h.blocks b).prev (h.blocks b).next) :=
      Edited.setNextBlock hp _
    have hsame : ((h.setNextBlock r (h.blocks b).prev (h.blocks b).next).blocks b).next
        = (h.blocks b).next := by
      rw [Heap.setNextBlock]
      split
      · rw [Heap.setBlock_blocks]
        split
        · rfl
        · rfl
      · rfl
    refine ((h1.trans (Edited.setPrevBlock ?_ _)).trans (Edited.setBlock hb _)).trans
      (Edited.setBlock hb _)
    rw [hsame]
    exact hn

/-! ## A region -/

/-- The header of the block lies in the region, after the region's own. -/
def Heap.Inside (h : Heap) (r b : U32) : Prop :=
  r.toNat + 32 ≤ b.toNat ∧ b.toNat + 16 ≤ r.toNat + (h.regions r).size.toNat

/-- What a region is, whatever its blocks are used for.  With `z` there may be
blocks with no payload, which requests whose size wraps to 0 make. -/
structure RegionShape (z : Bool) (h : Heap) (r : U32) (bs : List U32) : Prop where
  ne : r ≠ 0
  aligned : r.toNat % 4096 = 0
  pages : (h.regions r).size.toNat % 4096 = 0
  fits : r.toNat + (h.regions r).size.toNat ≤ 2 ^ 32
  ring : Ring (h.blockLinks r) 0 bs
  tiled : Tiled 16 (r.toNat + 32) (bs.map h.tile) (r.toNat + (h.regions r).size.toNat)
  sizes : ∀ b ∈ bs, (z = false → 0 < (h.blocks b).size.toNat) ∧ (h.blocks b).size.toNat % 16 = 0
  /-- The address after a header can be written down. -/
  ends : ∀ b ∈ bs, b.toNat + 16 < 2 ^ 32

structure RegionOk (z : Bool) (h : Heap) (r : U32) (bs : List U32) : Prop
    extends RegionShape z h r bs where
  merged : Merged (bs.map h.tile)

theorem Edited.inside {S : U32 → Prop} (e : Edited S r h h') : h'.Inside r = h.Inside r := by
  funext b
  rw [Heap.Inside, Heap.Inside, e.size]

theorem RegionShape.inside (hs : RegionShape z h r bs) (hb : b ∈ bs) : h.Inside r b := by
  obtain ⟨h1, h2⟩ := hs.tiled.mem (List.mem_map_of_mem hb)
  rw [Tile.stop] at h2
  exact ⟨h1, Nat.le_trans (Nat.le_add_right _ _) h2⟩

theorem RegionShape.block_ne (hs : RegionShape z h r bs) (hb : b ∈ bs) : b ≠ 0 := hs.ring.ne hb

/-- The end of a block, which lies in the region too. -/
theorem RegionShape.stop_le (hs : RegionShape z h r bs) (hb : b ∈ bs) :
    b.toNat + 16 + (h.blocks b).size.toNat ≤ r.toNat + (h.regions r).size.toNat :=
  (hs.tiled.mem (List.mem_map_of_mem hb)).2

/-- The block after a block, and the one before. -/
theorem RegionShape.next_eq (hs : RegionShape z h r (pre ++ b :: post)) :
    (h.blocks b).next = post.headD 0 := by
  have hb := hs.block_ne (List.mem_append_right pre List.mem_cons_self)
  rw [blockLinks_next h r hb]
  exact hs.ring.next_eq

theorem RegionShape.prev_eq (hs : RegionShape z h r (pre ++ b :: post)) :
    (h.blocks b).prev = pre.getLastD 0 := by
  have hb := hs.block_ne (List.mem_append_right pre List.mem_cons_self)
  rw [blockLinks_prev h r hb]
  exact hs.ring.prev_eq

/-- Its links lead to blocks of the region. -/
theorem RegionShape.links_inside (hs : RegionShape z h r (pre ++ b :: post)) :
    ((h.blocks b).prev ≠ 0 → h.Inside r (h.blocks b).prev) ∧
      ((h.blocks b).next ≠ 0 → h.Inside r (h.blocks b).next) := by
  rw [hs.prev_eq, hs.next_eq]
  constructor
  · intro hne
    refine hs.inside (List.mem_append_left _ ?_)
    rcases List.mem_cons.mp (List.getLastD_mem_cons (l := pre) (a := 0)) with h0 | hmem
    · exact absurd h0 hne
    · exact hmem
  · intro hne
    refine hs.inside (List.mem_append_right _ (List.mem_cons_of_mem b ?_))
    cases post with
    | nil => exact absurd rfl hne
    | cons c post => exact List.mem_cons_self

/-- Another region does not notice. -/
theorem RegionOk.congr (hr : RegionOk z h r bs) (hsize : (h'.regions r).size = (h.regions r).size)
    (hhead : (h'.regions r).head = (h.regions r).head)
    (htail : (h'.regions r).tail = (h.regions r).tail)
    (hblk : ∀ b ∈ bs, h'.blocks b = h.blocks b) : RegionOk z h' r bs := by
  have htile : ∀ b ∈ bs, h'.tile b = h.tile b := fun b hb => by
    rw [Heap.tile, Heap.tile, hblk b hb]
  have hmap : bs.map h'.tile = bs.map h.tile := List.map_congr_left htile
  refine ⟨⟨hr.ne, hr.aligned, ?_, ?_, hr.ring.congr (fun x hx => ?_) fun x hx => ?_, ?_,
    fun b hb => ?_, hr.ends⟩, ?_⟩
  · rw [hsize]
    exact hr.pages
  · rw [hsize]
    exact hr.fits
  · simp only [Heap.blockLinks, hhead]
    split
    · rfl
    · next hne => rw [hblk x ((List.mem_cons.mp hx).resolve_left hne)]
  · simp only [Heap.blockLinks, htail]
    split
    · rfl
    · next hne => rw [hblk x ((List.mem_cons.mp hx).resolve_left hne)]
  · rw [hmap, hsize]
    exact hr.tiled
  · rw [hblk b hb]
    exact hr.sizes b hb
  · rw [hmap]
    exact hr.merged

/-! ## Editing a region -/

theorem Heap.setBlock_tile (h : Heap) (b x : U32) (y : Block) :
    (h.setBlock b y).tile x = if x = b then ⟨b.toNat, y.size.toNat, decide y.Used⟩ else h.tile x := by
  by_cases hx : x = b
  · subst hx
    simp only [Heap.tile, Heap.setBlock_blocks, if_true]
  · simp only [Heap.tile, Heap.setBlock_blocks, if_neg hx]

/-- Sizes and flags are no links. -/
theorem Heap.setBlock_links (h : Heap) (r b : U32) (s f : U32) :
    (h.setBlock b ⟨s, f, (h.blocks b).next, (h.blocks b).prev⟩).blockLinks r = h.blockLinks r := by
  refine Links.ext (funext fun y => ?_) (funext fun y => ?_)
  · by_cases hyb : y = b
    · subst hyb
      simp [Heap.blockLinks]
    · simp [Heap.blockLinks, hyb]
  · by_cases hyb : y = b
    · subst hyb
      simp [Heap.blockLinks]
    · simp [Heap.blockLinks, hyb]

/-- The tiles of a list in which one block has changed. -/
theorem map_tile (hn : (pre ++ b :: post).Nodup) (ht : ∀ x, x ≠ b → h'.tile x = h.tile x) :
    (pre ++ b :: post).map h'.tile = pre.map h.tile ++ h'.tile b :: post.map h.tile := by
  rw [List.nodup_middle, List.nodup_cons, List.mem_append, not_or] at hn
  rw [List.map_append, List.map_cons,
    List.map_congr_left fun x hx => ht x (ne_of_mem_of_not_mem hx hn.1.1),
    List.map_congr_left fun x hx => ht x (ne_of_mem_of_not_mem hx hn.1.2)]

theorem RegionShape.rebuild {bs' : List U32} (hs : RegionShape z h r bs) (e : Edited S r h h')
    (hring : Ring (h'.blockLinks r) 0 bs')
    (htiled : Tiled 16 (r.toNat + 32) (bs'.map h'.tile) (r.toNat + (h.regions r).size.toNat))
    (hsizes : ∀ b ∈ bs', (z = false → 0 < (h'.tile b).size) ∧ (h'.tile b).size % 16 = 0)
    (hends : ∀ b ∈ bs', b.toNat + 16 < 2 ^ 32) : RegionShape z h' r bs' := by
  refine ⟨hs.ne, hs.aligned, ?_, ?_, hring, ?_, hsizes, hends⟩
  · rw [e.size]
    exact hs.pages
  · rw [e.size]
    exact hs.fits
  · rw [e.size]
    exact htiled

theorem RegionShape.nodup (hs : RegionShape z h r bs) : bs.Nodup :=
  (List.nodup_cons.mp hs.ring.nodup).2

/-- The flags of a block are set. -/
theorem RegionShape.setFlags (hs : RegionShape z h r (pre ++ b :: post)) (f : U32) {h' : Heap}
    (hh : h' = h.setBlock b { h.blocks b with flags := f }) :
    RegionShape z h' r (pre ++ b :: post) ∧ Edited (h.Inside r) r h h' ∧
      (∀ x, x ≠ b → h'.tile x = h.tile x) ∧
      h'.tile b = { h.tile b with used := decide (f &&& blockFlagUsed ≠ 0) } := by
  have hmem : b ∈ pre ++ b :: post := List.mem_append_right pre List.mem_cons_self
  have e : Edited (h.Inside r) r h h' := by
    rw [hh]
    exact Edited.setBlock (hs.inside hmem) _
  have hother : ∀ x, x ≠ b → h'.tile x = h.tile x := fun x hx => by
    rw [hh, Heap.setBlock_tile, if_neg hx]
  have hb : h'.tile b = { h.tile b with used := decide (f &&& blockFlagUsed ≠ 0) } := by
    rw [hh, Heap.setBlock_tile, if_pos rfl]
    rfl
  have htiled := hs.tiled
  rw [List.map_append, List.map_cons] at htiled
  refine ⟨hs.rebuild e ?_ ?_ (fun x hx => ?_) hs.ends, e, hother, hb⟩
  · rw [hh, Heap.setBlock_links]
    exact hs.ring
  · rw [map_tile hs.nodup hother, hb]
    exact htiled.mark _
  · by_cases hxb : x = b
    · subst hxb
      rw [hb]
      exact hs.sizes x hx
    · rw [hother x hxb]
      exact hs.sizes x hx

/-- `block_free` before a free block. -/
theorem blockFree_next (hr : r ≠ 0) (hb : b ≠ 0) (hnext : (h.blocks b).next = c) (hc : c ≠ 0)
    (hfree : ¬ (h.blocks c).Used) :
    blockFree h r b = blockRemove (h.setBlock b { h.blocks b with
      size := (h.blocks b).size + (headerSize + (h.blocks c).size) }) r c := by
  rw [blockFree, if_neg hr, if_neg hb]
  simp only [hnext, if_neg hc, if_neg hfree]

/-- The size of two blocks in one does not wrap: they lie in the region. -/
theorem RegionShape.toNat_merged (hs : RegionShape z h r (pre ++ b :: c :: post)) :
    ((h.blocks b).size + (headerSize + (h.blocks c).size)).toNat
      = (h.tile b).size + (16 + (h.tile c).size) := by
  have htiled := hs.tiled
  rw [List.map_append, List.map_cons, List.map_cons] at htiled
  obtain ⟨m, _, hbm, hcm, hrest⟩ := tiled_append.mp htiled
  have hle := hrest.le
  have hfits := hs.fits
  have hheader : headerSize.toNat = 16 := by decide
  have hpos : 0 < r.toNat := by
    rw [Nat.pos_iff_ne_zero]
    exact fun h0 => hs.ne (BitVec.eq_of_toNat_eq h0)
  simp only [Tile.stop, Heap.tile] at hcm hle ⊢
  rw [BitVec.toNat_add, BitVec.toNat_add, hheader]
  omega

/-- The second of the two is taken out of the list. -/
theorem RegionShape.merge_ring (hs : RegionShape z h r (pre ++ b :: c :: post)) (s : U32) :
    Ring ((blockRemove (h.setBlock b { h.blocks b with size := s }) r c).blockLinks r) 0
      (pre ++ b :: post) := by
  rw [List.append_cons] at hs
  have hc0 : c ≠ 0 := hs.block_ne (List.mem_append_right _ List.mem_cons_self)
  have hlinks : (h.setBlock b { h.blocks b with size := s }).blockLinks r = h.blockLinks r :=
    Heap.setBlock_links h r b s _
  rw [blockRemove_links hs.ne hc0, hlinks]
  have hunlinked := hs.ring.unlink
  rw [← List.append_cons] at hunlinked
  have hno : c ∉ 0 :: (pre ++ b :: post) := by
    have hn := hs.nodup
    rw [List.nodup_middle, ← List.append_cons, List.nodup_cons] at hn
    rw [List.mem_cons, not_or]
    exact ⟨hc0, hn.1⟩
  exact (hunlinked.setNext hno 0).setPrev hno 0

theorem RegionShape.merge_edited (hs : RegionShape z h r (pre ++ b :: c :: post)) (s : U32) :
    Edited (h.Inside r) r h (blockRemove (h.setBlock b { h.blocks b with size := s }) r c) := by
  have hb : b ∈ pre ++ b :: c :: post := List.mem_append_right pre List.mem_cons_self
  have hc : c ∈ pre ++ b :: c :: post :=
    List.mem_append_right pre (List.mem_cons_of_mem b List.mem_cons_self)
  have hbc : c ≠ b := by
    rintro rfl
    have hn := hs.nodup
    rw [List.nodup_middle, List.nodup_cons] at hn
    exact hn.1 (List.mem_append_right pre List.mem_cons_self)
  have hcb : (h.setBlock b { h.blocks b with size := s }).blocks c = h.blocks c := by
    rw [Heap.setBlock_blocks, if_neg hbc]
  obtain ⟨hprev, hnext⟩ : ((h.blocks c).prev ≠ 0 → h.Inside r (h.blocks c).prev) ∧
      ((h.blocks c).next ≠ 0 → h.Inside r (h.blocks c).next) := by
    rw [List.append_cons] at hs
    exact hs.links_inside
  refine (Edited.setBlock (hs.inside hb) _).trans (Edited.blockRemove (hs.inside hc) ?_ ?_)
  · rw [hcb]
    exact hprev
  · rw [hcb]
    exact hnext

/-- **`block_free`** before a free block: the two are merged. -/
theorem RegionShape.merge (hs : RegionShape z h r (pre ++ b :: c :: post))
    (hfree : ¬ (h.blocks c).Used) {h' : Heap} (hh : h' = blockFree h r b) :
    RegionShape z h' r (pre ++ b :: post) ∧ Edited (h.Inside r) r h h' ∧
      (∀ x, x ≠ b → h'.tile x = h.tile x) ∧
      h'.tile b = ⟨b.toNat, (h.tile b).size + (16 + (h.tile c).size), (h.tile b).used⟩ := by
  have hb : b ∈ pre ++ b :: c :: post := List.mem_append_right pre List.mem_cons_self
  have hc : c ∈ pre ++ b :: c :: post :=
    List.mem_append_right pre (List.mem_cons_of_mem b List.mem_cons_self)
  let s : U32 := (h.blocks b).size + (headerSize + (h.blocks c).size)
  have hrun : h' = blockRemove (h.setBlock b { h.blocks b with size := s }) r c :=
    hh.trans (blockFree_next hs.ne (hs.block_ne hb) hs.next_eq (hs.block_ne hc) hfree)
  have htile : ∀ x, h'.tile x = (h.setBlock b { h.blocks b with size := s }).tile x := fun x => by
    rw [hrun]
    exact Heap.tile_congr (congrFun (blockRemove_fields _ r c) x)
  have hother : ∀ x, x ≠ b → h'.tile x = h.tile x := fun x hx => by
    rw [htile, Heap.setBlock_tile, if_neg hx]
  have hbt : h'.tile b = ⟨b.toNat, (h.tile b).size + (16 + (h.tile c).size), (h.tile b).used⟩ := by
    rw [htile, Heap.setBlock_tile, if_pos rfl, ← hs.toNat_merged]
    rfl
  have e : Edited (h.Inside r) r h h' := hrun ▸ hs.merge_edited s
  have hring : Ring (h'.blockLinks r) 0 (pre ++ b :: post) := hrun ▸ hs.merge_ring s
  have htiled := hs.tiled
  rw [List.map_append, List.map_cons, List.map_cons] at htiled
  have hn : (pre ++ b :: post).Nodup := (List.nodup_cons.mp hring.nodup).2
  have hsub : ∀ x ∈ pre ++ b :: post, x ∈ pre ++ b :: c :: post := fun x hx => by
    rw [List.mem_append, List.mem_cons] at hx ⊢
    exact hx.imp id fun hx => hx.imp id fun hx => List.mem_cons_of_mem c hx
  refine ⟨hs.rebuild e hring ?_ (fun x hx => ?_) fun x hx => hs.ends x (hsub x hx), e, hother, hbt⟩
  · rw [map_tile hn hother, hbt]
    exact htiled.merge _
  · by_cases hxb : x = b
    · subst hxb
      rw [hbt]
      have h1 := (hs.sizes x hb).2
      have h2 := (hs.sizes c hc).2
      refine ⟨fun _ => ?_, ?_⟩
      · show 0 < (h.blocks x).size.toNat + (16 + (h.blocks c).size.toNat)
        omega
      · show ((h.blocks x).size.toNat + (16 + (h.blocks c).size.toNat)) % 16 = 0
        omega
    · rw [hother x hxb]
      exact hs.sizes x (hsub x hx)

/-- The header of a block that is split off, in the payload of a block of the
region, is the header of no block. -/
theorem RegionShape.fresh (hs : RegionShape z h r bs) (hb : b ∈ bs)
    (h1 : b.toNat + 16 ≤ c.toNat) (h2 : c.toNat < b.toNat + 16 + (h.blocks b).size.toNat) :
    c ∉ bs := by
  intro hc
  rcases hs.tiled.apart (List.mem_map_of_mem hb) (List.mem_map_of_mem hc) with heq | hlt | hlt
  · have := congrArg Tile.addr heq
    simp only [Heap.tile] at this
    omega
  · simp only [Tile.stop, Heap.tile] at hlt
    omega
  · simp only [Tile.stop, Heap.tile] at hlt
    omega

/-- The links that `block_insert_after` writes. -/
theorem Edited.blockInsertAfter {S : U32 → Prop} (hb : S b) (hc : S c) (hbc : c ≠ b)
    (hn : (h.blocks b).next ≠ 0 → S (h.blocks b).next) :
    Edited S r h (blockInsertAfter h r b c) := by
  rw [Tomk.blockInsertAfter]
  split
  · exact Edited.refl S r h
  · refine (((Edited.setBlock hc _).trans (Edited.setBlock hc _)).trans
      (Edited.setPrevBlock ?_ _)).trans (Edited.setBlock hb _)
    rw [Heap.setBlock_blocks, if_neg hbc.symm, Heap.setBlock_blocks, if_neg hbc.symm]
    exact hn

theorem not_used_free (s n p : U32) : ¬ Block.Used ⟨s, blockFlagFree, n, p⟩ := by
  simp [Block.Used, blockFlagFree]

/-- The split of `block_alloc`, up to the new size of the block. -/
def splitBlock (h : Heap) (r b c n : U32) : Heap :=
  let h' := blockInsertAfter
    (h.setBlock c ⟨(h.blocks b).size - headerSize - n, blockFlagFree, 0, 0⟩) r b c
  h'.setBlock b { h'.blocks b with size := n }

/-- Where the new header comes to lie: in the payload of the block, at an
address that is no header yet. -/
structure CutAt (h : Heap) (r b c n : U32) (bs : List U32) : Prop where
  addr : c.toNat = b.toNat + 16 + n.toNat
  ne : c ≠ 0
  ne_block : c ≠ b
  fresh : c ∉ bs
  inside : h.Inside r c
  ends : c.toNat + 16 < 2 ^ 32
  rest : ((h.blocks b).size - headerSize - n).toNat = (h.blocks b).size.toNat - 16 - n.toNat

theorem RegionShape.cut (hs : RegionShape z h r bs) (hb : b ∈ bs) {n : U32}
    (hroom : n.toNat + 32 ≤ (h.blocks b).size.toNat) (hc : c = b + headerSize + n) :
    CutAt h r b c n bs := by
  have hstop := hs.stop_le hb
  have hfits := hs.fits
  obtain ⟨hin1, hin2⟩ := hs.inside hb
  have h16 : headerSize.toNat = 16 := by decide
  have hct : c.toNat = b.toNat + 16 + n.toNat := by
    rw [hc, BitVec.toNat_add, BitVec.toNat_add, h16]
    omega
  refine ⟨hct, ?_, ?_, hs.fresh hb (by omega) (by omega), ⟨by omega, by omega⟩, by omega, ?_⟩
  · rintro rfl
    have h0 : (0 : U32).toNat = 0 := rfl
    omega
  · rintro rfl
    omega
  · have h1 : headerSize ≤ (h.blocks b).size := by
      rw [BitVec.le_def]
      omega
    have h2 : ((h.blocks b).size - headerSize).toNat = (h.blocks b).size.toNat - 16 := by
      rw [BitVec.toNat_sub_of_le h1, h16]
    have h3 : n ≤ (h.blocks b).size - headerSize := by
      rw [BitVec.le_def, h2]
      omega
    rw [BitVec.toNat_sub_of_le h3, h2]

/-- A header that is no block's is written: the list stays. -/
theorem RegionShape.ring_setBlock (hs : RegionShape z h r bs) (hc : c ∉ bs) (x : Block) :
    Ring ((h.setBlock c x).blockLinks r) 0 bs := by
  have hsame : ∀ y ∈ 0 :: bs, y = 0 ∨ (h.setBlock c x).blocks y = h.blocks y := by
    intro y hy
    refine (List.mem_cons.mp hy).imp id fun hy => ?_
    rw [Heap.setBlock_blocks, if_neg (ne_of_mem_of_not_mem hy hc)]
  refine hs.ring.congr (fun y hy => ?_) fun y hy => ?_
  · rcases hsame y hy with rfl | heq
    · rfl
    · simp only [Heap.blockLinks, heq]
      rfl
  · rcases hsame y hy with rfl | heq
    · rfl
    · simp only [Heap.blockLinks, heq]
      rfl

/-- The new header is linked in after the block. -/
theorem RegionShape.split_ring (hs : RegionShape z h r (pre ++ b :: post)) {n : U32}
    (hcut : CutAt h r b c n (pre ++ b :: post)) :
    Ring ((splitBlock h r b c n).blockLinks r) 0 (pre ++ b :: c :: post) := by
  have hb0 := hs.block_ne (List.mem_append_right pre List.mem_cons_self)
  have hno := hcut.fresh
  have hring := hs.ring_setBlock hno ⟨(h.blocks b).size - headerSize - n, blockFlagFree, 0, 0⟩
  rw [splitBlock, Heap.setBlock_links, blockInsertAfter_links hs.ne hb0 hcut.ne]
  rw [List.append_cons] at hring hno ⊢
  have hins := hring.insertAfter (y := c) (by
    rw [List.mem_cons, not_or]
    exact ⟨hcut.ne, hno⟩)
  rwa [List.getLastD_concat] at hins

/-- The two blocks that there are then, and the others. -/
theorem splitBlock_fields (h : Heap) (r n : U32) (hbc : c ≠ b) (x : U32) :
    (splitBlock h r b c n).fields x
      = if x = b then (n, (h.blocks b).flags)
        else if x = c then ((h.blocks b).size - headerSize - n, blockFlagFree)
        else h.fields x := by
  let h1 : Heap := h.setBlock c ⟨(h.blocks b).size - headerSize - n, blockFlagFree, 0, 0⟩
  have hins := blockInsertAfter_fields h1 r b c
  have hb1 : h1.fields b = h.fields b := by
    rw [Heap.setBlock_fields, if_neg hbc.symm]
  rw [splitBlock, Heap.setBlock_fields]
  split
  · exact congrArg (fun f : U32 × U32 => (n, f.2)) ((congrFun hins b).trans hb1)
  · refine (congrFun hins x).trans ?_
    rw [Heap.setBlock_fields]

theorem splitBlock_tile {n : U32} (hcut : CutAt h r b c n bs) (x : U32) :
    (splitBlock h r b c n).tile x
      = if x = b then ⟨b.toNat, n.toNat, (h.tile b).used⟩
        else if x = c then ⟨b.toNat + 16 + n.toNat, (h.tile b).size - 16 - n.toNat, false⟩
        else h.tile x := by
  rw [Heap.tile_eq, splitBlock_fields h r n hcut.ne_block]
  by_cases hx : x = b
  · rw [if_pos hx, if_pos hx, hx]
    rfl
  by_cases hxc : x = c
  · have hfree : decide (blockFlagFree &&& blockFlagUsed ≠ 0) = false := by decide
    rw [if_neg hx, if_neg hx, if_pos hxc, if_pos hxc, hcut.rest, hxc, hcut.addr]
    exact congrArg (Tile.mk _ _) hfree
  · rw [if_neg hx, if_neg hx, if_neg hxc, if_neg hxc, Heap.tile_eq]

theorem RegionShape.split_edited (hs : RegionShape z h r (pre ++ b :: post)) {n : U32}
    (hcut : CutAt h r b c n (pre ++ b :: post)) :
    Edited (h.Inside r) r h (splitBlock h r b c n) := by
  have hin := hs.inside (List.mem_append_right pre List.mem_cons_self)
  refine ((Edited.setBlock hcut.inside _).trans
    (Edited.blockInsertAfter hin hcut.inside hcut.ne_block ?_)).trans (Edited.setBlock hin _)
  rw [Heap.setBlock_blocks, if_neg hcut.ne_block.symm]
  exact hs.links_inside.2

/-- What is left of a block is a free block after it. -/
theorem RegionShape.split (hs : RegionShape z h r (pre ++ b :: post)) {n : U32}
    (hn0 : z = false → 0 < n.toNat) (hn : n.toNat % 16 = 0)
    (hroom : n.toNat + 32 ≤ (h.blocks b).size.toNat) (hc : c = b + headerSize + n) {h' : Heap}
    (hh : h' = splitBlock h r b c n) :
    RegionShape z h' r (pre ++ b :: c :: post) ∧ Edited (h.Inside r) r h h' ∧ c ∉ pre ++ b :: post ∧
      (∀ x, x ≠ b → x ≠ c → h'.tile x = h.tile x) ∧
      h'.tile b = ⟨b.toNat, n.toNat, (h.tile b).used⟩ ∧ (h'.tile c).used = false ∧
      pre.map h'.tile = pre.map h.tile ∧ post.map h'.tile = post.map h.tile := by
  subst hh
  have hb : b ∈ pre ++ b :: post := List.mem_append_right pre List.mem_cons_self
  have hcut := hs.cut hb hroom hc
  have hring := hs.split_ring hcut
  have e := hs.split_edited hcut
  have htile := splitBlock_tile hcut
  generalize splitBlock h r b c n = h' at hring e htile ⊢
  have hbt := htile b
  rw [if_pos rfl] at hbt
  have hctile := htile c
  rw [if_neg hcut.ne_block, if_pos rfl] at hctile
  have hother : ∀ x, x ≠ b → x ≠ c → h'.tile x = h.tile x := fun x hx hxc => by
    rw [htile x, if_neg hx, if_neg hxc]
  have hnd := hs.nodup
  rw [List.nodup_middle, List.nodup_cons, List.mem_append, not_or] at hnd
  have hno := hcut.fresh
  rw [List.mem_append, List.mem_cons, not_or, not_or] at hno
  have hpre : pre.map h'.tile = pre.map h.tile := List.map_congr_left fun x hx =>
    hother x (ne_of_mem_of_not_mem hx hnd.1.1) (ne_of_mem_of_not_mem hx hno.1)
  have hpost : post.map h'.tile = post.map h.tile := List.map_congr_left fun x hx =>
    hother x (ne_of_mem_of_not_mem hx hnd.1.2) (ne_of_mem_of_not_mem hx hno.2.2)
  have hcases : ∀ x ∈ pre ++ b :: c :: post, x = c ∨ x ∈ pre ++ b :: post := fun x hx => by
    by_cases hxc : x = c
    · exact Or.inl hxc
    · rw [List.mem_append, List.mem_cons, List.mem_cons] at hx
      rw [List.mem_append, List.mem_cons]
      exact Or.inr (hx.imp id fun hx => hx.imp id fun hx => hx.resolve_left hxc)
  have hsize := (hs.sizes b hb).2
  refine ⟨hs.rebuild e hring ?_ (fun x hx => ?_) fun x hx => ?_, e, hcut.fresh, hother, hbt,
    by rw [hctile], hpre, hpost⟩
  · have htiled := hs.tiled
    rw [List.map_append, List.map_cons] at htiled
    have hsplit := htiled.split (n := n.toNat) (m := (h.tile b).size - 16 - n.toNat)
      (by simp only [Heap.tile]; omega) (h.tile b).used false
    rw [List.map_append, List.map_cons, List.map_cons, hpre, hpost, hbt, hctile]
    exact hsplit
  · by_cases hxb : x = b
    · rw [hxb, hbt]
      exact ⟨hn0, hn⟩
    · by_cases hxc : x = c
      · rw [hxc, hctile]
        simp only [Heap.tile]
        omega
      · rw [hother x hxb hxc]
        exact hs.sizes x ((hcases x hx).resolve_left hxc)
  · rcases hcases x hx with rfl | hx
    · exact hcut.ends
    · exact hs.ends x hx

end Tomk
