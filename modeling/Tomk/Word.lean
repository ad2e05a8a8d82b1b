/-
# The machine word and the address macros

The kernel is 32-bit: `size_t`, `uintptr_t`, `uint32_t` and pointers are all
one 32-bit word, whose arithmetic wraps.  The macros of `paging.h`,
`align.h` and `kspacedef.h` are stated here as the headers have them, each
with its value as a number, which is the form every later proof uses.
-/
import Mathlib.Data.Nat.Bitwise
import Mathlib.Tactic.Common

namespace Tomk

/-- A 32-bit machine word. -/
abbrev U32 := BitVec 32

abbrev U8 := BitVec 8

abbrev U64 := BitVec 64

/-- Memory, byte by byte. -/
abbrev Bytes := U32 → U8

/-- A little-endian word. -/
def read32 (mem : Bytes) (p : U32) : U32 := mem (p + 3) ++ mem (p + 2) ++ mem (p + 1) ++ mem p

/-! ## `paging.h` -/

def pageSize : U32 := 4096

def toPage (addr : U32) : U32 := addr >>> 12

def toAddr (page : U32) : U32 := page <<< 12

/-! ## `align.h` -/

def align (x a : U32) : U32 := (x + (a - 1)) &&& ~~~(a - 1)

/-- `ceilDiv` of `pmm.c` and `vmm.c`. -/
def ceilDiv (x y : U32) : U32 := (x + y - 1) / y

/-! ## `kspacedef.h` -/

def kvirt : U32 := 0xC0000000

def kvirtEnd : U32 := 0xFFC00000

def kphys : U32 := 0x00100000

def v2p (virt_addr : U32) : U32 := virt_addr - kvirt

def p2v (phys_addr : U32) : U32 := kvirt + phys_addr

/-! ## Loops over pages -/

/-- The number of turns of `for (p = start; p < stop; p += PAGE_SIZE)`. -/
def pageTurns (start stop : U32) : Nat := (stop.toNat - start.toNat + 4095) / 4096

/-- The value of `p` in the `i`-th turn. -/
def pageAt (start : U32) (i : Nat) : U32 := start + toAddr (BitVec.ofNat 32 i)

@[simp] theorem pageAt_zero (a : U32) : pageAt a 0 = a := by
  simp [pageAt, toAddr]

/-! ## Their values -/

theorem getLsbD_mask {k i : Nat} (hi : i < 32) :
    (BitVec.ofNat 32 (2 ^ k - 1)).getLsbD i = decide (i < k) := by
  rw [BitVec.getLsbD_ofNat, Nat.testBit_two_pow_sub_one]
  simp [hi]

/-- Clearing the low `k` bits rounds down to a multiple of `2 ^ k`. -/
theorem toNat_and_not_mask (x : U32) (k : Nat) :
    (x &&& ~~~(BitVec.ofNat 32 (2 ^ k - 1))).toNat = x.toNat / 2 ^ k * 2 ^ k := by
  have hshift : x &&& ~~~(BitVec.ofNat 32 (2 ^ k - 1)) = (x >>> k) <<< k := by
    apply BitVec.eq_of_getLsbD_eq
    intro i hi
    rw [BitVec.getLsbD_and, BitVec.getLsbD_not, getLsbD_mask hi, BitVec.getLsbD_shiftLeft,
      BitVec.getLsbD_ushiftRight]
    by_cases hik : i < k
    · simp [hik]
    · simp [hi, hik, show k + (i - k) = i by omega]
  have hlt : x.toNat / 2 ^ k * 2 ^ k < 2 ^ 32 :=
    Nat.lt_of_le_of_lt (Nat.div_mul_le_self _ _) x.isLt
  rw [hshift, BitVec.toNat_shiftLeft, BitVec.toNat_ushiftRight, Nat.shiftRight_eq_div_pow,
    Nat.shiftLeft_eq, Nat.mod_eq_of_lt hlt]

/-- Keeping the low `k` bits is the remainder by `2 ^ k`. -/
theorem toNat_and_mask (x : U32) {k : Nat} (hk : k ≤ 32) :
    (x &&& BitVec.ofNat 32 (2 ^ k - 1)).toNat = x.toNat % 2 ^ k := by
  have hle : 2 ^ k ≤ 2 ^ 32 := Nat.pow_le_pow_right (by decide) hk
  have hpos : 0 < 2 ^ k := Nat.two_pow_pos k
  rw [BitVec.toNat_and, BitVec.toNat_ofNat, Nat.mod_eq_of_lt (by omega),
    Nat.and_two_pow_sub_one_eq_mod]

theorem toNat_toPage (a : U32) : (toPage a).toNat = a.toNat / 4096 := by
  rw [toPage, BitVec.toNat_ushiftRight, Nat.shiftRight_eq_div_pow]

theorem toNat_toAddr (p : U32) : (toAddr p).toNat = p.toNat * 4096 % 2 ^ 32 := by
  rw [toAddr, BitVec.toNat_shiftLeft, Nat.shiftLeft_eq]

theorem toNat_toAddr_of_lt {p : U32} (h : p.toNat < 2 ^ 20) :
    (toAddr p).toNat = p.toNat * 4096 := by
  rw [toNat_toAddr]
  omega

/-- `x & ~(pageSize - 1)`. -/
theorem toNat_pageFloor (x : U32) : (x &&& ~~~(pageSize - 1)).toNat = x.toNat / 4096 * 4096 :=
  toNat_and_not_mask x 12

/-- `x & (pageSize - 1)`. -/
theorem toNat_pageOffset (x : U32) : (x &&& (pageSize - 1)).toNat = x.toNat % 4096 :=
  toNat_and_mask x (show 12 ≤ 32 by decide)

/-- `x & 0xFFFFF000`. -/
theorem toNat_and_frameMask (x : U32) : (x &&& 0xFFFFF000#32).toNat = x.toNat / 4096 * 4096 :=
  toNat_and_not_mask x 12

theorem toNat_align_page (x : U32) :
    (align x pageSize).toNat = (x.toNat + 4095) % 2 ^ 32 / 4096 * 4096 := by
  rw [align, toNat_pageFloor, BitVec.toNat_add]
  rfl

theorem toNat_ceilDiv (x : U32) (h : x.toNat ≤ 2 ^ 31) :
    (ceilDiv x 32).toNat = (x.toNat + 31) / 32 := by
  have hsum : (x + 32 - 1).toNat = x.toNat + 31 := by bv_omega
  rw [ceilDiv, BitVec.toNat_udiv, hsum]
  rfl

/-- A counter that pages are taken from moves. -/
theorem sub_ne_self {x n : U32} (hn : n ≠ 0) : x - n ≠ x := by
  intro h
  apply hn
  have := BitVec.sub_add_cancel x n
  rw [h] at this
  simpa using this

end Tomk
