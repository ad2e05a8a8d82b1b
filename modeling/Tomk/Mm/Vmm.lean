/-
# `vmm.c` and `mman.c`: the virtual memory manager

The VMM owns one bit per page of a window `base ≤ virt < end` of the
address space: set for a page that is reserved.  `Vmm` is `vmm_t`, with the
array behind its `bitmap` pointer as the field `bitmap`; `Mm` puts it next
to the two parts it works on, the physical memory manager and the tables of
the loaded directory.

`end` is a word of the language here, so the field is `stop`.  A function
that reaches the tables returns `none` where the source would fault, and so
does `vmm_init` where one of its assertions fails.  As with `pmm_init`, the
allocation of the bitmap splits `vmm_init` in two: `vmmSizes` before it,
`vmmFill` after it.
-/
import Tomk.Mm.Pmm
import Tomk.Mm.Paging

namespace Tomk

open WordBits CFor

structure Vmm where
  bitmap : Words 32
  bitmapSize : U32
  totalPages : U32
  usablePages : U32
  freePages : U32
  usedPages : U32
  largestRun : U32
  base : U32
  stop : U32

/-- The memory managers, and the tables they work on. -/
structure Mm where
  vmm : Vmm
  pmm : Pmm
  mmu : Mmu

/-! ## Bits -/

def vmmSet (v : Vmm) (virt : U32) : Vmm :=
  let page := toPage (virt - v.base)
  let i := (page >>> 5).toNat
  if v.bitmapSize.toNat / 4 ≤ i then v
  else { v with bitmap := fun j =>
    if j = i then v.bitmap j ||| 1#32 <<< (page &&& 31).toNat else v.bitmap j }

def vmmClear (v : Vmm) (virt : U32) : Vmm :=
  let page := toPage (virt - v.base)
  let i := (page >>> 5).toNat
  if v.bitmapSize.toNat / 4 ≤ i then v
  else { v with bitmap := fun j =>
    if j = i then v.bitmap j &&& ~~~(1#32 <<< (page &&& 31).toNat) else v.bitmap j }

def vmmTest (v : Vmm) (virt : U32) : U32 :=
  let page := toPage (virt - v.base)
  let i := (page >>> 5).toNat
  if v.bitmapSize.toNat / 4 ≤ i then 0
  else v.bitmap i &&& 1#32 <<< (page &&& 31).toNat

/-! ## Reservations -/

def vmmFindContiguousPages (v : Vmm) (count : U32) : U32 × Vmm :=
  let r := findContiguousPages v.bitmap v.bitmapSize v.totalPages count
  let v := { v with largestRun := BitVec.ofNat 32 r.2 }
  match r.1 with
  | some start => (v.base + toAddr (BitVec.ofNat 32 start), v)
  | none => (0, v)

def vmmReserve (v : Vmm) (count : U32) : U32 × Vmm :=
  if count = 0 then (0, v)
  else if v.freePages < count then (0, v)
  else
    let (start, v) := vmmFindContiguousPages v count
    if start = 0 then (0, v)
    else
      let v := iter (fun i v => vmmSet v (pageAt start i)) 0 count.toNat v
      (start, { v with freePages := v.freePages - count, usedPages := v.usedPages + count })

def vmmUnreserve (v : Vmm) (virt count : U32) : Vmm :=
  if virt = 0 then v
  else if count = 0 then v
  else if virt < v.base ∨ v.stop ≤ virt then v
  else if virt &&& (pageSize - 1) ≠ 0 then v
  else
    let v := iter (fun i v => vmmClear v (pageAt virt i)) 0 count.toNat v
    { v with freePages := v.freePages + count, usedPages := v.usedPages - count }

/-! ## Allocations -/

def rollbackTurn (virt : U32) (i : Nat) (m : Mm) : Option Mm := do
  let virtAddr := pageAt virt i
  let physAddr ← pgVirt2phys m.mmu virtAddr
  if physAddr ≠ 0 then
    let mmu ← pgUnmap m.mmu virtAddr 1
    pure { vmm := vmmClear m.vmm virtAddr, pmm := pmmFree m.pmm physAddr 1, mmu := mmu }
  else pure { m with vmm := vmmClear m.vmm virtAddr }

def rollbackAllocations (m : Mm) (virt : U32) (count : Nat) : Option Mm :=
  forFrom (rollbackTurn virt) 0 count m

/-- One turn of the loop of `vmm_alloc`: back page `i` with a frame, or roll
back and `return NULL`. -/
def vmmAllocTurn (L : Layout) (start : U32) (i : Nat) (m : Mm) :
    ExceptT (U32 × Mm) Option Mm := do
  let (phys, pmm) := pmmAlloc m.pmm 1
  let m := { m with pmm := pmm }
  if phys = 0 then
    let m ← ExceptT.lift (rollbackAllocations m start i)
    throw (0, m)
  else
    let mmu ← ExceptT.lift (pgMap L m.mmu (pageAt start i) phys pteRw 1)
    pure { m with mmu := mmu }

def vmmAlloc (L : Layout) (m : Mm) (count : U32) : Option (U32 × Mm) := do
  let (start, vmm) := vmmReserve m.vmm count
  let m := { m with vmm := vmm }
  if start = 0 then pure (0, m)
  else
    let r ← (forFrom (vmmAllocTurn L start) 0 count.toNat m).run
    match r with
    | .ok m => pure (start, m)
    | .error r => pure r

def vmmAllocContiguous (L : Layout) (m : Mm) (count : U32) : Option (U32 × Mm) := do
  let (virt, vmm) := vmmReserve m.vmm count
  let m := { m with vmm := vmm }
  if virt = 0 then pure (0, m)
  else
    let (phys, pmm) := pmmAlloc m.pmm count
    let m := { m with pmm := pmm }
    if phys = 0 then pure (0, m)
    else
      let mmu ← pgMap L m.mmu virt phys pteRw count
      pure (virt, { m with mmu := mmu })

def vmmFreeTurn (virt : U32) (i : Nat) (m : Mm) : Option Mm := do
  let physAddr ← pgVirt2phys m.mmu (pageAt virt i)
  if physAddr ≠ 0 then pure { m with pmm := pmmFree m.pmm physAddr 1 } else pure m

def vmmFree (m : Mm) (virt count : U32) : Option Mm := do
  let m := { m with vmm := vmmUnreserve m.vmm virt count }
  let mmu ← pgUnmap m.mmu virt count
  forFrom (vmmFreeTurn virt) 0 count.toNat { m with mmu := mmu }

/-! ## Marking ranges -/

def vmmMarkUsedTurn (start : U32) (i : Nat) (v : Vmm) : Vmm :=
  let virtAddr := pageAt start i
  if vmmTest v virtAddr ≠ 0 then v
  else
    let v := vmmSet v virtAddr
    { v with freePages := v.freePages - 1, usedPages := v.usedPages + 1 }

/-- `vmm_mark_used`; what it returns is not used by any caller. -/
def vmmMarkUsed (v : Vmm) (virt size : U32) : Option Vmm :=
  if virt < v.base ∨ v.stop - virt < size then none
  else
    let start := align virt pageSize
    let stop := align (virt + size) pageSize
    some (iter (vmmMarkUsedTurn start) 0 (pageTurns start stop) v)

def vmmMarkFreeTurn (start : U32) (i : Nat) (v : Vmm) : Vmm :=
  let virtAddr := pageAt start i
  if vmmTest v virtAddr = 0 then v
  else
    let v := vmmClear v virtAddr
    { v with freePages := v.freePages + 1, usedPages := v.usedPages - 1 }

/-- `vmm_mark_free`: the last page is left out where it is not whole. -/
def vmmMarkFree (v : Vmm) (virt size : U32) : Option Vmm :=
  if virt < v.base ∨ v.stop - virt < size then none
  else
    let start := align virt pageSize
    let stop := (virt + size) &&& ~~~(pageSize - 1)
    some (iter (vmmMarkFreeTurn start) 0 (pageTurns start stop) v)

def vmmGetLargestRun (v : Vmm) : U32 := v.largestRun

/-! ## `vmm_init` -/

/-- `vmm_init` up to the allocation of the bitmap. -/
def vmmSizes (v : Vmm) (base stop : U32) : Option Vmm :=
  if base &&& (pageSize - 1) = 0 ∧ stop &&& (pageSize - 1) = 0 ∧ base < stop then
    let totalPages := toPage (stop - base)
    some { v with
      base := base
      stop := stop
      totalPages := totalPages
      bitmapSize := ceilDiv totalPages 32 * 4
      freePages := totalPages
      usablePages := totalPages
      usedPages := 0 }
  else none

/-- `vmm_init` from the `memset` of the bitmap on. -/
def vmmFill (v : Vmm) : Option Vmm :=
  let v := { v with bitmap := fun i => if i < v.bitmapSize.toNat / 4 then 0 else v.bitmap i }
  if v.base = 0 then vmmMarkUsed v 0 0x1000 else some v

/-! ## `mman.c` -/

/-- The pages `mmap` and `munmap` take for a length. -/
def lengthPages (length : U32) : U32 := toPage (length + (pageSize - 1))

def mmap (L : Layout) (m : Mm) (physAddr length flags : U32) : Option (U32 × Mm) := do
  let count := lengthPages length
  let (virt, vmm) := vmmReserve m.vmm count
  let m := { m with vmm := vmm }
  if virt = 0 then pure (0, m)
  else
    let mmu ← pgMap L m.mmu virt physAddr flags count
    pure (virt, { m with mmu := mmu })

def munmap (m : Mm) (virt length : U32) : Option Mm := do
  let count := lengthPages length
  if virt = 0 then pure m
  else
    let mmu ← pgUnmap m.mmu virt count
    pure { m with vmm := vmmUnreserve m.vmm virt count, mmu := mmu }

end Tomk
