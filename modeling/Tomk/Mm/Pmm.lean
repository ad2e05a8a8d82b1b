/-
# `pmm.c`: the physical memory manager

The PMM owns one bit per physical page: set for a page in use, clear for a
page it may hand out.  `Pmm` is the static `pmm_t`; the array behind its
`bitmap` pointer is the field `bitmap`, read as words from the base of the
array.  Every function is the one of the source, with the state threaded
through.

Two points of the translation.  A loop `for (p = start; p < end; p +=
PAGE_SIZE)` makes `pageTurns start end` turns, and its `i`-th turn is at
`start + i * PAGE_SIZE`: `end` is at most `0xFFFFF000` in every such loop,
so `p` does not wrap.  And `pmm_init` is split around its call of
`kinit_alloc`, which also maps pages: `pmmSizes` is the part before the
call, `pmmFill` the part after it, and `pmm_init` itself is put together
where the bootstrap allocator is.
-/
import Tomk.Mm.ContiguousSearch

namespace Tomk

open WordBits CFor

structure Pmm where
  bitmap : Words 32
  bitmapSize : U32
  totalPages : U32
  usablePages : U32
  freePages : U32
  usedPages : U32
  hint : U32
  largestRun : U32
  memoryEnd : U32

/-! ## `kphysmap.h` -/

def kphysregionValid : U32 := 0x1

def kphysregionTypeMask : U32 := 0x6

def kphysregionTypeRam : U32 := 0x2

def kphysregionTypeRev : U32 := 0x4

def kphysmapMaxRegions : Nat := 10

structure KPhysRegion where
  address : U32
  size : U32
  flags : U32

/-- The kernel memory map: the first `count` entries of the table, which is
never longer than the table. -/
structure KPhysMap where
  regions : List KPhysRegion
  bounded : regions.length ≤ kphysmapMaxRegions

/-- The two tests `pmm_init` makes of a region. -/
def KPhysRegion.isRam (r : KPhysRegion) : Bool :=
  r.flags &&& kphysregionValid ≠ 0 ∧ r.flags &&& kphysregionTypeMask = kphysregionTypeRam

/-! ## Bits -/

def pmmSet (s : Pmm) (phys : U32) : Pmm :=
  let page := toPage phys
  { s with bitmap := fun i =>
      if i = (page >>> 5).toNat then s.bitmap i ||| 1#32 <<< (page &&& 31).toNat else s.bitmap i }

def pmmClear (s : Pmm) (phys : U32) : Pmm :=
  let page := toPage phys
  { s with bitmap := fun i =>
      if i = (page >>> 5).toNat then s.bitmap i &&& ~~~(1#32 <<< (page &&& 31).toNat)
      else s.bitmap i }

def pmmTest (s : Pmm) (phys : U32) : U32 :=
  let page := toPage phys
  s.bitmap (page >>> 5).toNat &&& 1#32 <<< (page &&& 31).toNat

/-! ## One page -/

/-- `while (!(free_bits & 1)) { free_bits >>= 1; b++; }`.  The word is not
zero where the loop is entered, so 32 turns are enough. -/
def firstBit : Nat → U32 → U32 → U32
  | 0, _, b => b
  | fuel + 1, freeBits, b =>
      if freeBits &&& 1 ≠ 0 then b else firstBit fuel (freeBits >>> 1) (b + 1)

/-- The tail of both searches: mark `page` used, advance the hint, and return
the address. -/
def pmmTake (s : Pmm) (page : U32) : U32 × Pmm :=
  let s := pmmSet s (toAddr page)
  let s := { s with freePages := s.freePages - 1, usedPages := s.usedPages + 1 }
  let s := { s with hint := page + 1 }
  let s := if s.totalPages ≤ s.hint then { s with hint := 0 } else s
  (toAddr page, s)

/-- One turn of the search from the hint to the end. -/
def pmmSearchUp (s : Pmm) (start dword : Nat) (page : U32) : Except (Exit (U32 × Pmm) U32) U32 :=
  let bits := s.bitmap dword
  let bits := if dword = start then bits ||| ((1#32 <<< (page &&& 31).toNat) - 1) else bits
  if bits = 0xFFFFFFFF#32 then .ok page
  else
    let page := (BitVec.ofNat 32 dword <<< 5) + firstBit 32 (~~~bits) 0
    if s.totalPages ≤ page then .error (.brk page) else .error (.ret (pmmTake s page))

/-- One turn of the search from the start to the hint. -/
def pmmSearchDown (s : Pmm) (start dword : Nat) (page : U32) : Except (U32 × Pmm) U32 :=
  let bits := s.bitmap dword
  let bits := if dword = start then bits ||| ~~~((1#32 <<< (page &&& 31).toNat) - 1) else bits
  if bits = 0xFFFFFFFF#32 then .ok page
  else
    let page := (BitVec.ofNat 32 dword <<< 5) + firstBit 32 (~~~bits) 0
    if s.totalPages ≤ page then .error (0, s) else .error (pmmTake s page)

/-- The second search of `pmm_alloc_one`, and the `return 0` after it. -/
def pmmWrapSearch (s : Pmm) (start : Nat) (page : U32) : U32 × Pmm :=
  match forFrom (pmmSearchDown s start) 0 (start + 1) page with
  | .ok _ => (0, s)
  | .error r => r

def pmmAllocOne (s : Pmm) : U32 × Pmm :=
  if s.freePages = 0 then (0, s)
  else
    let s := if s.totalPages ≤ s.hint then { s with hint := 0 } else s
    let page := s.hint
    let start := (s.hint >>> 5).toNat
    match forFrom (pmmSearchUp s start) start (s.bitmapSize.toNat / 4 - start) page with
    | .ok page => pmmWrapSearch s start page
    | .error (.brk page) => pmmWrapSearch s start page
    | .error (.ret r) => r

/-! ## Runs of pages -/

def pmmFindContiguousPages (s : Pmm) (count : U32) : U32 × Pmm :=
  let r := findContiguousPages s.bitmap s.bitmapSize s.totalPages count
  let s := { s with largestRun := BitVec.ofNat 32 r.2 }
  match r.1 with
  | some start => (BitVec.ofNat 32 start, s)
  | none => (0, s)

def pmmAlloc (s : Pmm) (count : U32) : U32 × Pmm :=
  if count = 0 then (0, s)
  else if s.freePages < count then (0, s)
  else if count = 1 then pmmAllocOne s
  else
    let (start, s) := pmmFindContiguousPages s count
    if start = 0 then (0, s)
    else
      let s := iter (fun i s => pmmSet s (toAddr (start + BitVec.ofNat 32 i))) 0 count.toNat s
      (toAddr start,
        { s with freePages := s.freePages - count, usedPages := s.usedPages + count })

def pmmFree (s : Pmm) (phys count : U32) : Pmm :=
  if count = 0 then s
  else if phys &&& (pageSize - 1) ≠ 0 then s
  else
    let page := toPage phys
    if s.totalPages ≤ page ∨ s.totalPages - page < count then s
    else
      -- the source adds `TO_PAGE(i)`, not `TO_ADDR(i)`
      let s := iter (fun i s => pmmClear s (phys + toPage (BitVec.ofNat 32 i))) 0 count.toNat s
      { s with freePages := s.freePages + count, usedPages := s.usedPages - count }

/-! ## Marking ranges -/

def pmmMarkFreeTurn (start : U32) (i : Nat) (s : Pmm) : Pmm :=
  let p := pageAt start i
  if s.totalPages ≤ toPage p then s
  else if pmmTest s p ≠ 0 then
    let s := pmmClear s p
    { s with freePages := s.freePages + 1, usedPages := s.usedPages - 1 }
  else s

def pmmMarkFree (s : Pmm) (phys size : U32) : Pmm :=
  if s.memoryEnd < phys then s
  else
    let start := phys &&& ~~~(pageSize - 1)
    let stop := (phys + size + (pageSize - 1)) &&& ~~~(pageSize - 1)
    iter (pmmMarkFreeTurn start) 0 (pageTurns start stop) s

def pmmMarkUsedTurn (start : U32) (i : Nat) (s : Pmm) : Pmm :=
  let p := pageAt start i
  if s.totalPages ≤ toPage p then s
  else if pmmTest s p = 0 then
    let s := pmmSet s p
    { s with freePages := s.freePages - 1, usedPages := s.usedPages + 1 }
  else s

def pmmMarkUsed (s : Pmm) (phys size : U32) : Pmm :=
  if s.memoryEnd < phys then s
  else
    let start := phys &&& ~~~(pageSize - 1)
    let stop := (phys + size + (pageSize - 1)) &&& ~~~(pageSize - 1)
    iter (pmmMarkUsedTurn start) 0 (pageTurns start stop) s

def pmmGetLargestRun (s : Pmm) : U32 := s.largestRun

/-! ## `pmm_init` -/

/-- One turn of the loop that finds the end of memory and the usable pages. -/
def pmmMeasure (s : Pmm) (r : KPhysRegion) : Pmm :=
  if r.isRam then
    let stop := r.address + r.size
    let s := if s.memoryEnd < stop then { s with memoryEnd := stop } else s
    let startPage := align r.address pageSize
    let endPage := stop &&& ~~~(pageSize - 1)
    if startPage < endPage then
      { s with usablePages := s.usablePages + toPage (endPage - startPage) }
    else s
  else s

/-- `pmm_init` up to the allocation of the bitmap. -/
def pmmSizes (s : Pmm) (map : KPhysMap) : Pmm :=
  let s := map.regions.foldl pmmMeasure { s with memoryEnd := 0, usablePages := 0 }
  let s := { s with totalPages := toPage (s.memoryEnd + (pageSize - 1)) }
  { s with
    bitmapSize := ceilDiv s.totalPages 32 * 4
    freePages := 0
    usedPages := s.usablePages
    hint := 0 }

/-- `pmm_init` from the `memset` of the bitmap on. -/
def pmmFill (s : Pmm) (map : KPhysMap) : Pmm :=
  let s := { s with bitmap := fun i =>
    if i < s.bitmapSize.toNat / 4 then 0xFFFFFFFF#32 else s.bitmap i }
  let s := map.regions.foldl
    (fun s r => if r.isRam then pmmMarkFree s r.address r.size else s) s
  pmmMarkUsed s 0 0x1000

end Tomk
