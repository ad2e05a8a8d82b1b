/-
# `kheap.c`: the kernel heap

The heap gets regions of pages from a virtual memory manager and divides each
into blocks.  The headers are kept by their addresses, those of the blocks and
those of the regions, with the fields of `heap_block_t` and `heap_region_t`.

The manager is a parameter: `VmmOps` is what the heap relies on, that the
ranges handed out and not yet taken back are page aligned and apart.

The loops over the two lists are `search`: a list that does not end in as many
turns as there are addresses never ends, and then the call does not return
(`none`).
-/
import Tomk.Word
import Tomk.Lib.DList

namespace Tomk

open DList

/-! ## The manager below -/

/-- The pages of a range end at the end of the address space, or before. -/
def rangeStop (virt pages : U32) : Nat := virt.toNat + pages.toNat * 4096

/-- `vmm_alloc` or `vmm_alloc_contiguous`, and `vmm_free`, on a state `V`.
`Ok v`: the state is one that calls leave behind.  `Given v r n`: the range of
`n` pages at `r` is handed out. -/
structure VmmOps (V : Type) where
  alloc : V → (contiguous : Bool) → (count : U32) → U32 × V
  free : V → (virt count : U32) → V
  Ok : V → Prop
  Given : V → (virt count : U32) → Prop
  alloc_ok : ∀ {v c n}, Ok v → Ok (alloc v c n).2
  free_ok : ∀ {v q n}, Ok v → Given v q n → Ok (free v q n)
  alloc_range : ∀ {v c n}, Ok v → n ≠ 0 → (alloc v c n).1 ≠ 0 →
    (alloc v c n).1.toNat % 4096 = 0 ∧ rangeStop (alloc v c n).1 n ≤ 2 ^ 32 ∧
      Given (alloc v c n).2 (alloc v c n).1 n
  alloc_apart : ∀ {v c n r k}, Ok v → n ≠ 0 → (alloc v c n).1 ≠ 0 → Given v r k →
    rangeStop r k ≤ (alloc v c n).1.toNat ∨ rangeStop (alloc v c n).1 n ≤ r.toNat
  alloc_keeps : ∀ {v c n r k}, Ok v → Given v r k → Given (alloc v c n).2 r k
  free_keeps : ∀ {v q n r k}, Ok v → Given v q n → Given v r k →
    rangeStop r k ≤ q.toNat ∨ rangeStop q n ≤ r.toNat → Given (free v q n) r k

/-! ## The headers -/

/-- `heap_block_t`. -/
structure Block where
  size : U32
  flags : U32
  next : U32
  prev : U32

/-- `heap_region_t`. -/
structure Region where
  size : U32
  flags : U32
  next : U32
  prev : U32
  head : U32
  tail : U32

/-- `heap_t`, without the pointer to its manager, and the headers. -/
structure Heap where
  head : U32
  tail : U32
  blocks : U32 → Block
  regions : U32 → Region

def Heap.setBlock (h : Heap) (b : U32) (x : Block) : Heap :=
  { h with blocks := Function.update h.blocks b x }

def Heap.setRegion (h : Heap) (r : U32) (x : Region) : Heap :=
  { h with regions := Function.update h.regions r x }

def growPages : U32 := 0x10

def blockFlagUsed : U32 := 0x01

def blockFlagFree : U32 := 0x00

def regionContiguous : U32 := 0x02

def regionNoncontiguous : U32 := 0x00

def blockAlignment : U32 := 0x10

def minBlockSize : U32 := 0x10

/-- `ALIGN(sizeof(heap_block_t), BLOCK_ALIGNMENT)`: four words. -/
def headerSize : U32 := align 16 blockAlignment

/-- `ALIGN(sizeof(heap_region_t), BLOCK_ALIGNMENT)`: six words. -/
def regionSize : U32 := align 24 blockAlignment

def blockPtr (block : U32) : U32 := block + headerSize

def regionBlock (region : U32) : U32 := region + regionSize

def Block.Used (b : Block) : Prop := b.flags &&& blockFlagUsed ≠ 0

instance (b : Block) : Decidable b.Used := inferInstanceAs (Decidable (_ ≠ _))

def Region.Contiguous (r : Region) : Prop := r.flags &&& regionContiguous ≠ 0

instance (r : Region) : Decidable r.Contiguous := inferInstanceAs (Decidable (_ ≠ _))

/-- `heap_init`: whatever the memory holds. -/
def heapInit (h : Heap) : Heap := { h with head := 0, tail := 0 }

/-! ## The lists -/

/-- `if (p != NULL) p->next = v; else heap->head = v;` -/
def Heap.setNextRegion (h : Heap) (p v : U32) : Heap :=
  if p ≠ 0 then h.setRegion p { h.regions p with next := v } else { h with head := v }

/-- `if (p != NULL) p->prev = v; else heap->tail = v;` -/
def Heap.setPrevRegion (h : Heap) (p v : U32) : Heap :=
  if p ≠ 0 then h.setRegion p { h.regions p with prev := v } else { h with tail := v }

def regionAppend (h : Heap) (region : U32) : Heap :=
  if region = 0 then h
  else
    let h := h.setRegion region { h.regions region with next := 0 }
    let h := h.setRegion region { h.regions region with prev := h.tail }
    let h := h.setNextRegion h.tail region
    { h with tail := region }

def regionRemove (h : Heap) (region : U32) : Heap :=
  if region = 0 then h
  else
    let h := h.setNextRegion (h.regions region).prev (h.regions region).next
    let h := h.setPrevRegion (h.regions region).next (h.regions region).prev
    let h := h.setRegion region { h.regions region with next := 0 }
    h.setRegion region { h.regions region with prev := 0 }

/-- `if (p != NULL) p->next = v; else region->head = v;` -/
def Heap.setNextBlock (h : Heap) (region p v : U32) : Heap :=
  if p ≠ 0 then h.setBlock p { h.blocks p with next := v }
  else h.setRegion region { h.regions region with head := v }

/-- `if (p != NULL) p->prev = v; else region->tail = v;` -/
def Heap.setPrevBlock (h : Heap) (region p v : U32) : Heap :=
  if p ≠ 0 then h.setBlock p { h.blocks p with prev := v }
  else h.setRegion region { h.regions region with tail := v }

def blockInsertAfter (h : Heap) (region block next : U32) : Heap :=
  if region = 0 ∨ block = 0 ∨ next = 0 then h
  else
    let h := h.setBlock next { h.blocks next with prev := block }
    let h := h.setBlock next { h.blocks next with next := (h.blocks block).next }
    let h := h.setPrevBlock region (h.blocks block).next next
    h.setBlock block { h.blocks block with next := next }

def blockRemove (h : Heap) (region block : U32) : Heap :=
  if region = 0 ∨ block = 0 then h
  else
    let h := h.setNextBlock region (h.blocks block).prev (h.blocks block).next
    let h := h.setPrevBlock region (h.blocks block).next (h.blocks block).prev
    let h := h.setBlock block { h.blocks block with next := 0 }
    h.setBlock block { h.blocks block with prev := 0 }

/-! ## Blocks -/

/-- `block_alloc`, and whether it succeeds. -/
def blockAlloc (h : Heap) (region block size : U32) : Bool × Heap :=
  if region = 0 then (false, h)
  else if block = 0 then (false, h)
  else if (h.blocks block).size < size then (false, h)
  else
    -- split the block if enough space remains for another block
    let h := if size + headerSize + minBlockSize ≤ (h.blocks block).size then
        let next := block + headerSize + size
        let h := h.setBlock next ⟨(h.blocks block).size - headerSize - size, blockFlagFree, 0, 0⟩
        let h := blockInsertAfter h region block next
        h.setBlock block { h.blocks block with size := size }
      else h
    (true, h.setBlock block
      { h.blocks block with flags := (h.blocks block).flags ||| blockFlagUsed })

/-- `block_free`: the block takes the free block after it in. -/
def blockFree (h : Heap) (region block : U32) : Heap :=
  if region = 0 then h
  else if block = 0 then h
  else
    let next := (h.blocks block).next
    if next = 0 then h
    else if (h.blocks next).Used then h
    else
      let h := h.setBlock block
        { h.blocks block with size := (h.blocks block).size + (headerSize + (h.blocks next).size) }
      blockRemove h region next

/-- No list is longer: there are no more addresses. -/
def listFuel : Nat := 2 ^ 32

/-- The loop `for (block = region->head; block != NULL; block = block->next)`,
until a block is accepted. -/
def searchBlocks (h : Heap) (region : U32) (accept : U32 → Bool) : Option (Option (U32 × U32)) :=
  search (fun b => (h.blocks b).next) 0
    (fun b => some (if accept b then some (b, region) else none)) listFuel (h.regions region).head

/-- The loop `for (region = heap->head; region != NULL; region = region->next)`
around it. -/
def searchRegions (h : Heap) (accept : U32 → U32 → Bool) : Option (Option (U32 × U32)) :=
  search (fun r => (h.regions r).next) 0 (fun r => searchBlocks h r (accept r)) listFuel h.head

/-- `block_find`: the block of a pointer, and its region. -/
def blockFind (h : Heap) (ptr : U32) : Option (Option (U32 × U32)) :=
  searchRegions h fun _ block => decide (blockPtr block = ptr)

/-- What `block_find_free` looks for. -/
def suitable (h : Heap) (size : U32) (contiguous : Bool) (region block : U32) : Bool :=
  if (h.blocks block).Used then false
  else if (h.blocks block).size < size then false
  else if contiguous ≠ decide (h.regions region).Contiguous then false
  else true

/-- `block_find_free`: a block, and its region. -/
def blockFindFree (h : Heap) (size : U32) (contiguous : Bool) : Option (Option (U32 × U32)) :=
  searchRegions h (suitable h size contiguous)

/-! ## Regions -/

/-- The number of pages `heap_grow` asks for. -/
def growCount (size : U32) : U32 :=
  let pages := toPage (size + regionSize + headerSize + (pageSize - 1))
  if pages < growPages then growPages else pages

variable {V : Type}

/-- `heap_grow`: a region, not yet in the list, or `NULL`. -/
def heapGrow (ops : VmmOps V) (h : Heap) (v : V) (size : U32) (contiguous : Bool) :
    U32 × Heap × V :=
  let pages := growCount size
  let (region, v) := ops.alloc v contiguous pages
  if region = 0 then (0, h, v)
  else
    let flags := if contiguous then regionContiguous else regionNoncontiguous
    let block := regionBlock region
    let h := h.setBlock block ⟨toAddr pages - regionSize - headerSize, blockFlagFree, 0, 0⟩
    let h := h.setRegion region ⟨toAddr pages, flags, 0, 0, block, block⟩
    (region, h, v)

/-- The merges of `heap_shrink`, and the block that is left. -/
def shrinkMerge (h : Heap) (region block : U32) : Heap × U32 :=
  let h := blockFree h region block
  let prev := (h.blocks block).prev
  if prev ≠ 0 ∧ ¬ (h.blocks prev).Used then (blockFree h region prev, prev) else (h, block)

def heapShrink (ops : VmmOps V) (h : Heap) (v : V) (region block : U32) : Heap × V :=
  let (h, block) := shrinkMerge h region block
  -- a region that contains exactly one free block goes back
  if (h.regions region).head = (h.regions region).tail ∧ (h.regions region).head = block ∧
      ¬ (h.blocks block).Used then
    let pageCount := toPage (h.regions region).size
    (regionRemove h region, ops.free v region pageCount)
  else (h, v)

/-! ## The interface -/

/-- The size `heap_alloc` works with. -/
def allocSize (size : U32) : U32 := align size blockAlignment

/-- The end of `heap_alloc`: the block of the region that was appended. -/
def allocFrom (h : Heap) (region size : U32) : U32 × Heap :=
  let block := (h.regions region).head
  let (done, h) := blockAlloc h region block size
  (if done then blockPtr block else 0, h)

/-- `heap_alloc`, from where no suitable block has been found. -/
def allocNew (ops : VmmOps V) (h : Heap) (v : V) (size : U32) (contiguous : Bool) : U32 × Heap × V :=
  let (region, h, v) := heapGrow ops h v size contiguous
  if region = 0 then (0, h, v)
  else
    let (ptr, h) := allocFrom (regionAppend h region) region size
    (ptr, h, v)

def heapAlloc (ops : VmmOps V) (h : Heap) (v : V) (size : U32) (contiguous : Bool) :
    Option (U32 × Heap × V) := do
  if size = 0 then pure (0, h, v)
  else
    let size := allocSize size
    match ← blockFindFree h size contiguous with
    | some (block, region) =>
      let (done, h) := blockAlloc h region block size
      if done then pure (blockPtr block, h, v) else pure (allocNew ops h v size contiguous)
    | none => pure (allocNew ops h v size contiguous)

def heapFree (ops : VmmOps V) (h : Heap) (v : V) (ptr : U32) : Option (Heap × V) := do
  if ptr = 0 then pure (h, v)
  else
    match ← blockFind h ptr with
    | none => pure (h, v)
    | some (block, region) =>
      if ¬ (h.blocks block).Used then pure (h, v)
      else
        let h := h.setBlock block
          { h.blocks block with flags := (h.blocks block).flags &&& ~~~blockFlagUsed }
        pure (heapShrink ops h v region block)

end Tomk
