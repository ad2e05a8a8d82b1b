/-
# `paging.asm`: the page tables, through the recursive mapping

The page tables are 32-bit words in physical frames of 1024 words each.
`walk` is the translation the processor makes; `Mmu.load` and `Mmu.store`
are a dword access at a virtual address, which faults (`none`) where the
walk finds no present entry.  Nothing else here knows how the processor
translates: like the source, `_map_page`, `_unmap_page` and `pg_virt2phys`
reach the directory and the tables only through the window that entry 1023
of the loaded directory opens onto itself (`pgLocPde`, `pgLocPte`).

The translation look-aside buffer is not modelled: every store to an entry
is followed by `invlpg` of its page, and a load of `cr3` flushes it.  The
protection bits are carried in the entries and not enforced, and the debug
prints of `PG_DBG` are left out where nothing depends on them.
-/
import Tomk.Word
import Tomk.Lib.Loop

namespace Tomk

open CFor

abbrev Frame := BitVec 20

/-- An index into a page table, or a word of a frame. -/
abbrev Slot := BitVec 10

/-- The physical memory, by frames of 1024 words. -/
abbrev PhysMem := Frame → Slot → U32

structure Mmu where
  mem : PhysMem
  cr3 : Frame

/-! ## The processor -/

def pdIndex (va : U32) : Slot := va.extractLsb' 22 10

def ptIndex (va : U32) : Slot := va.extractLsb' 12 10

def wordIndex (va : U32) : Slot := va.extractLsb' 2 10

def frameOf (entry : U32) : Frame := entry.extractLsb' 12 20

/-- The physical address of a frame. -/
def frameAddr (f : Frame) : U32 := f.setWidth 32 <<< 12

def pteNp : U32 := 0x00

def pteP : U32 := 0x01

def pteRw : U32 := 0x02

def Present (entry : U32) : Prop := entry &&& pteP ≠ 0

instance (entry : U32) : Decidable (Present entry) := inferInstanceAs (Decidable (_ ≠ _))

/-- The frame that `va` is mapped to under the directory `dir`. -/
def walk (mem : PhysMem) (dir : Frame) (va : U32) : Option Frame :=
  let pde := mem dir (pdIndex va)
  if Present pde then
    let pte := mem (frameOf pde) (ptIndex va)
    if Present pte then some (frameOf pte) else none
  else none

def PhysMem.write (mem : PhysMem) (f : Frame) (i : Slot) (w : U32) : PhysMem :=
  fun g j => if g = f ∧ j = i then w else mem g j

def Mmu.load (m : Mmu) (va : U32) : Option U32 :=
  (walk m.mem m.cr3 va).map fun f => m.mem f (wordIndex va)

def Mmu.store (m : Mmu) (va w : U32) : Option Mmu :=
  (walk m.mem m.cr3 va).map fun f => { m with mem := m.mem.write f (wordIndex va) w }

/-! ## The kernel image

`linker.ld` places `pg_pd` and `pg_pt` in `.bss`, one after the other and
page aligned, and ends the image at `sec_kend`. -/

structure Layout where
  secKend : U32
  /-- The frame of `pg_pd`. -/
  pgPd : Frame
  above : 256 ≤ pgPd.toNat
  below : kvirt.toNat + (pgPd.toNat + 1025) * 4096 ≤ secKend.toNat
  /-- The window of the bootstrap allocator fits below `KVIRT_END`. -/
  room : secKend.toNat + 4095 + 0x100000 ≤ kvirtEnd.toNat

/-- The physical address of `pg_pt`. -/
def Layout.pgPt (L : Layout) : U32 := frameAddr (L.pgPd + 1)

/-- The frame of the static page table `i`. -/
def Layout.ptFrame (L : Layout) (i : Slot) : Frame := L.pgPd + 1 + i.setWidth 20

/-! ## `paging.asm` -/

def pdVirt : U32 := 0xFFFFF000

def ptVirt : U32 := 0xFFC00000

def pgLocPde (virt : U32) : U32 := pdVirt + (virt >>> 22) * 4

def pgLocPte (virt : U32) : U32 :=
  ptVirt + ((virt >>> 10) &&& 0xFFFFF000#32) + ((virt >>> 12) &&& 0x3FF) * 4

/-- The directory entry `_map_page` builds: the static table of the slot. -/
def newPde (L : Layout) (virt : U32) : U32 :=
  (((virt >>> 10) &&& 0xFFFFF000#32) + L.pgPt) ||| (pteRw ||| pteP)

def newPte (phys flags : U32) : U32 :=
  (phys &&& 0xFFFFF000#32) ||| ((flags &&& 0x00000FFF) ||| pteP)

def mapPage (L : Layout) (m : Mmu) (virt phys flags : U32) : Option Mmu := do
  let pde ← m.load (pgLocPde virt)
  let m ← if Present pde then pure m else m.store (pgLocPde virt) (newPde L virt)
  m.store (pgLocPte virt) (newPte phys flags)

def unmapPage (m : Mmu) (virt : U32) : Option Mmu := do
  let pde ← m.load (pgLocPde virt)
  if ¬ Present pde then pure m
  else
    let pte ← m.load (pgLocPte virt)
    if ¬ Present pte then pure m
    else m.store (pgLocPte virt) pteNp

def pgMap (L : Layout) (m : Mmu) (virt phys flags count : U32) : Option Mmu :=
  forFrom (fun i m => mapPage L m (pageAt virt i) (pageAt phys i) flags) 0 count.toNat m

def pgUnmap (m : Mmu) (virt count : U32) : Option Mmu :=
  forFrom (fun i m => unmapPage m (pageAt virt i)) 0 count.toNat m

def pgVirt2phys (m : Mmu) (virt : U32) : Option U32 := do
  let pde ← m.load (pgLocPde virt)
  if ¬ Present pde then pure 0
  else
    let pte ← m.load (pgLocPte virt)
    if ¬ Present pte then pure 0
    else pure ((virt &&& (pageSize - 1)) ||| (pte &&& 0xFFFFF000#32))

end Tomk
