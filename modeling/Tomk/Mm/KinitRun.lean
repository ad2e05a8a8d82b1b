/-
# The bounds of `kinit_alloc`

The bootstrap allocator hands out the addresses from `base` up and takes nothing
back, so a run is the list of what it has handed out.  The invariant is that the
list lies in order below `next` (`KinitRun.Inv`), and from it come the bounds and
that no two of them share a byte.  The pages need a word of their own: a page that
two allocations share is mapped twice, to the same frame each time, and mapping
a page to its own frame takes no other page away from its frame
(`mapPage_identity`).

What a call must not do is in `KinitCall.Safe`.  The check adds the size to an offset
in 32 bits, so a size near `2 ^ 32` passes it; an address of 0 is handed out as
`NULL`; and a page at or above `0xFFC00000` is an entry of the page directory, which
must not be one that the window itself needs.
-/
import Tomk.Mm.Mminit
import Tomk.Mm.MapLaw
import Tomk.Lib.Runs

namespace Tomk

open Runs CFor

/-! ## Runs -/

/-- The size and the alignment of a call; no alignment is the default one. -/
structure KinitCall where
  size : U32
  algn : U32
  pow : algn = 0 ∨ ∃ k < 32, algn = BitVec.ofNat 32 (2 ^ k)

/-- The alignment in use. -/
def alignOf (algn : U32) : U32 := if algn = 0 then defaultAlignment else algn

/-- What was handed out, and to which call. -/
structure Given where
  addr : U32
  call : KinitCall

def Given.Has (x : Given) (b : Nat) : Prop :=
  x.addr.toNat ≤ b ∧ b < x.addr.toNat + x.call.size.toNat

/-- The allocator, the tables, and what was handed out, the last first. -/
structure KinitRun where
  ka : KinitAlloc
  mmu : Mmu
  given : List Given

/-- After `kinit_alloc_init`, under a directory that has static tables from the window on. -/
structure KinitStart (L : Layout) (base limit : U32) (r : KinitRun) : Prop where
  init : kinitAllocInit base limit = some r.ka
  wired : Wired L (pdIndex base).toNat r.mmu.mem r.mmu.cr3
  given : r.given = []

inductive KinitStep (L : Layout) : KinitCall → KinitRun → KinitRun → Prop
  | null {c : KinitCall} {r : KinitRun} {ka : KinitAlloc} {mmu : Mmu} :
      kinitAllocAlign L r.ka r.mmu c.size c.algn = some (0, ka, mmu) →
        KinitStep L c r ⟨ka, mmu, r.given⟩
  | given {c : KinitCall} {r : KinitRun} {p : U32} {ka : KinitAlloc} {mmu : Mmu} :
      kinitAllocAlign L r.ka r.mmu c.size c.algn = some (p, ka, mmu) → p ≠ 0 →
        KinitStep L c r ⟨ka, mmu, ⟨p, c⟩ :: r.given⟩

/-! ## What is promised -/

/-- What was handed out is aligned, inside the window and apart, and its pages are
mapped to their own frames. -/
structure KinitRun.Sound (base limit : U32) (r : KinitRun) : Prop where
  aligned : ∀ x ∈ r.given, (alignOf x.call.algn).toNat ∣ x.addr.toNat
  inside : ∀ x ∈ r.given, ∀ b, x.Has b → base.toNat ≤ b ∧ b < base.toNat + limit.toNat
  apart : r.given.Pairwise fun x y => ∀ b, ¬ (x.Has b ∧ y.Has b)
  mapped : ∀ x ∈ r.given, ∀ va : U32, x.Has va.toNat →
    walk r.mmu.mem r.mmu.cr3 va = some (frameOf (v2p va))

/-- The call returns, and if it returns `NULL` nothing has changed. -/
def KinitCall.Returns (L : Layout) (r : KinitRun) (c : KinitCall) : Prop :=
  ∃ p ka mmu, kinitAllocAlign L r.ka r.mmu c.size c.algn = some (p, ka, mmu) ∧
    (p = 0 → ka = r.ka ∧ mmu = r.mmu)

/-- Where the call would place its bytes. -/
def KinitCall.place (ka : KinitAlloc) (c : KinitCall) : U32 := align ka.next (alignOf c.algn)

/-- The check of the code. -/
def KinitCall.Passes (ka : KinitAlloc) (c : KinitCall) : Prop :=
  ¬ ka.limit < (c.place ka - ka.base) + c.size

instance (ka : KinitAlloc) (c : KinitCall) : Decidable (c.Passes ka) :=
  inferInstanceAs (Decidable (¬ _))

/-- The end of what may be mapped: from `0xFFC00000` on a page is a directory entry,
and the entries of the window come after those below it. -/
def KinitAlloc.ceiling (ka : KinitAlloc) : Nat := ptVirt.toNat + (pdIndex ka.base).toNat * 4096

/-- A call that passes the check hands out nothing at `NULL` and takes nothing from there,
its offset and its size do not wrap, and its pages end below the entries of the window. -/
def KinitCall.Safe (ka : KinitAlloc) (c : KinitCall) : Prop :=
  c.Passes ka → (c.place ka = 0 → ka.next = 0 ∧ c.size = 0) ∧
    (c.place ka - ka.base).toNat + c.size.toNat < 2 ^ 32 ∧
    (c.place ka).toNat + c.size.toNat ≤ ka.ceiling

/-! ## Alignment -/

theorem toNat_alignOf (c : KinitCall) : ∃ k, k < 32 ∧ (alignOf c.algn).toNat = 2 ^ k ∧
    alignOf c.algn - 1 = BitVec.ofNat 32 (2 ^ k - 1) := by
  rw [alignOf]
  split
  · exact ⟨4, by decide, rfl, rfl⟩
  · next hne =>
    obtain ⟨k, hk, hc⟩ := c.pow.resolve_left hne
    have hlt : 2 ^ k < 2 ^ 32 := Nat.pow_lt_pow_right (by decide) hk
    have hpos := Nat.two_pow_pos k
    refine ⟨k, hk, by rw [hc, BitVec.toNat_ofNat, Nat.mod_eq_of_lt hlt], ?_⟩
    apply BitVec.eq_of_toNat_eq
    rw [hc]
    bv_omega

/-- Rounding up to a power of two, or around to 0. -/
theorem toNat_place (ka : KinitAlloc) (c : KinitCall) :
    (alignOf c.algn).toNat ∣ (c.place ka).toNat ∧
      (c.place ka ≠ 0 → ka.next.toNat ≤ (c.place ka).toNat) := by
  obtain ⟨k, hk, hpow, hmask⟩ := toNat_alignOf c
  have hlt : 2 ^ k < 2 ^ 32 := Nat.pow_lt_pow_right (by decide) hk
  have hpos := Nat.two_pow_pos k
  have hplace : (c.place ka).toNat = (ka.next.toNat + (2 ^ k - 1)) % 2 ^ 32 / 2 ^ k * 2 ^ k := by
    rw [KinitCall.place, align, hmask, toNat_and_not_mask, BitVec.toNat_add, BitVec.toNat_ofNat,
      Nat.mod_eq_of_lt (show 2 ^ k - 1 < 2 ^ 32 by omega)]
  refine ⟨hpow ▸ hplace ▸ Nat.dvd_mul_left .., fun hne => ?_⟩
  rw [hplace]
  have hnext := ka.next.isLt
  by_cases hwrap : ka.next.toNat + (2 ^ k - 1) < 2 ^ 32
  · rw [Nat.mod_eq_of_lt hwrap]
    have hmod := Nat.mod_lt (ka.next.toNat + (2 ^ k - 1)) hpos
    have hdiv := Nat.div_add_mod' (ka.next.toNat + (2 ^ k - 1)) (2 ^ k)
    omega
  · -- less than one unit is left, and the address is 0
    refine absurd (BitVec.eq_of_toNat_eq ?_) hne
    rw [hplace, Nat.div_eq_of_lt (by omega), Nat.zero_mul]
    rfl

/-! ## Pages mapped to their own frames -/

variable {L : Layout} {lo : Nat} {mem mem' : PhysMem} {dir : Frame} {m : Mmu}

/-- The page of the address is mapped to the frame that `V2P` names. -/
def IdentityMapped (mem : PhysMem) (dir : Frame) (va : U32) : Prop :=
  walk mem dir va = some (frameOf (v2p va))

/-- The pages from entry `lo` on: those of the tables, then those that are the
directory entries below `lo`. -/
def InReach (lo : Nat) (va : U32) : Prop :=
  lo * 1024 ≤ pageNo va ∧ pageNo va < 1023 * 1024 + lo

theorem frameOf_v2p {u v : U32} (h : pageNo u = pageNo v) : frameOf (v2p u) = frameOf (v2p v) := by
  rw [pageNo, pageNo] at h
  have hu := u.isLt
  have hv := v.isLt
  have hk : kvirt.toNat = 0xC0000000 := rfl
  apply BitVec.eq_of_toNat_eq
  rw [toNat_frameOf, toNat_frameOf, v2p, v2p, BitVec.toNat_sub, BitVec.toNat_sub, hk]
  omega

/-- It is a property of the page. -/
theorem IdentityMapped.of_page {u v : U32} (h : IdentityMapped mem dir u)
    (hpage : pageNo u = pageNo v) : IdentityMapped mem dir v := by
  obtain ⟨hpd, hpt⟩ := page_eq_iff.mpr hpage
  rw [IdentityMapped, walk, hpd, hpt] at h
  rw [IdentityMapped, walk, h, frameOf_v2p hpage]

/-- In the window of the directory a page is named by an entry. -/
theorem window_slot {va : U32} (h : 1023 * 1024 ≤ pageNo va) : pdIndex va = 1023#10 := by
  have hlt := va.isLt
  rw [pageNo] at h
  apply BitVec.eq_of_toNat_eq
  rw [toNat_pdIndex]
  show _ = 1023
  omega

theorem toNat_ptIndex_window {va : U32} (h : 1023 * 1024 ≤ pageNo va) :
    (ptIndex va).toNat = pageNo va - 1023 * 1024 := by
  have hlt := va.isLt
  rw [pageNo] at h ⊢
  rw [toNat_ptIndex]
  omega

/-- An entry below `lo` may be written. -/
theorem Wired.write_below (h : Wired L lo mem dir) (hlo : lo ≤ 1023) {i : Slot} (hi : i.toNat < lo)
    (w : U32) : Wired L lo (mem.write dir i w) dir := by
  have hother : ∀ j : Slot, lo ≤ j.toNat → mem.write dir i w dir j = mem dir j := by
    intro j hj
    apply PhysMem.write_other
    rintro ⟨_, rfl⟩
    exact absurd hi (Nat.not_lt_of_le hj)
  have hself : mem.write dir i w dir 1023#10 = mem dir 1023#10 := hother 1023#10 hlo
  refine ⟨⟨?_, ?_⟩, h.apart, fun j h1 h2 hp => ?_⟩
  · rw [hself]
    exact h.self.present
  · rw [hself]
    exact h.self.frame
  · rw [hother j h1] at hp ⊢
    exact h.tables j h1 h2 hp

/-- A page that a static table maps. -/
theorem mapPage_identity_table (h : Wired L lo m.mem m.cr3) {va phys : U32} (hva : InReach lo va)
    (hbelow : pageNo va < 1023 * 1024) (hphys : frameOf phys = frameOf (v2p va)) (flags : U32) :
    ∃ mem', mapPage L m va phys flags = some { m with mem := mem' } ∧ Wired L lo mem' m.cr3 ∧
      IdentityMapped mem' m.cr3 va ∧
      ∀ u, InReach lo u → IdentityMapped m.mem m.cr3 u → IdentityMapped mem' m.cr3 u := by
  obtain ⟨mem', hrun, ht, hpde, hpte⟩ := mapPage_wired h va ⟨hva.1, hbelow⟩ phys flags
  have hw := h.touched ht
  have hself : IdentityMapped mem' m.cr3 va := by
    rw [IdentityMapped, walk_wired hw ⟨hva.1, hbelow⟩, hpte, if_pos ⟨hpde, present_newPte _ _⟩,
      frameOf_newPte, hphys]
  refine ⟨mem', hrun, hw, hself, fun u hu hid => ?_⟩
  by_cases hpage : pageNo va = pageNo u
  · exact hself.of_page hpage
  rw [IdentityMapped] at hid ⊢
  by_cases hub : pageNo u < 1023 * 1024
  · rw [walk_wired h ⟨hu.1, hub⟩, Option.ite_none_right_eq_some] at hid
    obtain ⟨⟨h1, h2⟩, h3⟩ := hid
    have hsame : L.pte mem' (pageNo u) = L.pte m.mem (pageNo u) :=
      ht.pte _ (pageNo_lt u) (Ne.symm hpage)
    rw [walk_wired hw ⟨hu.1, hub⟩, ht.pde _ h1, hsame, if_pos ⟨h1, h2⟩, h3]
  · have hslot := window_slot (Nat.le_of_not_lt hub)
    rw [walk_window h.self hslot, entryFrame, Option.ite_none_right_eq_some] at hid
    rw [walk_window hw.self hslot, ht.pde _ hid.1, entryFrame, if_pos hid.1, hid.2]

/-- A page of the window: an entry of the directory, below those of the tables within reach. -/
theorem mapPage_identity_window (h : Wired L lo m.mem m.cr3) (hlo : lo ≤ 1023) {va phys : U32}
    (hva : InReach lo va) (hge : 1023 * 1024 ≤ pageNo va) (hphys : frameOf phys = frameOf (v2p va))
    (flags : U32) :
    ∃ mem', mapPage L m va phys flags = some { m with mem := mem' } ∧ Wired L lo mem' m.cr3 ∧
      IdentityMapped mem' m.cr3 va ∧
      ∀ u, InReach lo u → IdentityMapped m.mem m.cr3 u → IdentityMapped mem' m.cr3 u := by
  have hidx := toNat_ptIndex_window hge
  have hlt : (ptIndex va).toNat < lo := by
    have := hva.2
    omega
  have hpd := window_slot hge
  have hw := h.write_below hlo hlt (newPte phys flags)
  have hself : IdentityMapped (m.mem.write m.cr3 (ptIndex va) (newPte phys flags)) m.cr3 va := by
    rw [IdentityMapped, walk_window hw.self hpd, PhysMem.write_same, entryFrame_newPte, hphys]
  have hkept : ∀ i : Slot, i ≠ ptIndex va →
      m.mem.write m.cr3 (ptIndex va) (newPte phys flags) m.cr3 i = m.mem m.cr3 i := by
    intro i hi
    apply PhysMem.write_other
    rintro ⟨_, hc⟩
    exact hi hc
  refine ⟨_, ?_, hw, hself, fun u hu hid => ?_⟩
  · rw [mapPage_eq L h.self, buildPde, tableOf, hpd, if_pos h.self.present, if_pos h.self.present,
      h.self.frame]
  · by_cases hpage : pageNo va = pageNo u
    · exact hself.of_page hpage
    rw [IdentityMapped] at hid ⊢
    by_cases hub : pageNo u < 1023 * 1024
    · have hslot : lo ≤ (pdIndex u).toNat := by
        have := hu.1
        rw [← slotOf_pageNo, toNat_slotOf (pageNo_lt u)]
        omega
      have hne : pdIndex u ≠ ptIndex va := by
        intro hc
        rw [hc] at hslot
        exact absurd hlt (Nat.not_lt_of_le hslot)
      have hpte : L.pte (m.mem.write m.cr3 (ptIndex va) (newPte phys flags)) (pageNo u)
          = L.pte m.mem (pageNo u) := PhysMem.write_frame _ _ _ (h.apart _).symm
      rw [walk_wired hw ⟨hu.1, hub⟩, hkept _ hne, hpte, ← walk_wired h ⟨hu.1, hub⟩, hid]
    · have huge := Nat.le_of_not_lt hub
      have hne : ptIndex u ≠ ptIndex va := by
        intro hc
        have hc' := congrArg BitVec.toNat hc
        rw [hidx, toNat_ptIndex_window huge] at hc'
        omega
      rw [walk_window hw.self (window_slot huge), hkept _ hne,
        ← walk_window h.self (window_slot huge), hid]

/-- **One page of `pg_map`**, to its own frame: a page within reach that was mapped to
its own frame still is. -/
theorem mapPage_identity (h : Wired L lo m.mem m.cr3) (hlo : lo ≤ 1023) {va phys : U32}
    (hva : InReach lo va) (hphys : frameOf phys = frameOf (v2p va)) (flags : U32) :
    ∃ mem', mapPage L m va phys flags = some { m with mem := mem' } ∧ Wired L lo mem' m.cr3 ∧
      IdentityMapped mem' m.cr3 va ∧
      ∀ u, InReach lo u → IdentityMapped m.mem m.cr3 u → IdentityMapped mem' m.cr3 u := by
  rcases Nat.lt_or_ge (pageNo va) (1023 * 1024) with hbelow | hge
  · exact mapPage_identity_table h hva hbelow hphys flags
  · exact mapPage_identity_window h hlo hva hge hphys flags

theorem pageAt_v2p (va : U32) (i : Nat) : pageAt (v2p va) i = v2p (pageAt va i) := by
  rw [pageAt, pageAt, v2p, v2p, BitVec.sub_eq_add_neg, BitVec.sub_eq_add_neg, BitVec.add_assoc,
    BitVec.add_comm (-kvirt), BitVec.add_assoc]

/-- **`pg_map`** of pages to their own frames. -/
theorem pgMap_identity (h : Wired L lo m.mem m.cr3) (hlo : lo ≤ 1023) {virt count : U32}
    (flags : U32) (h1 : lo * 1024 ≤ pageNo virt)
    (h2 : pageNo virt + count.toNat ≤ 1023 * 1024 + lo) :
    ∃ mem', pgMap L m virt (v2p virt) flags count = some { m with mem := mem' } ∧
      Wired L lo mem' m.cr3 ∧
      (∀ va, pageNo virt ≤ pageNo va → pageNo va < pageNo virt + count.toNat →
        IdentityMapped mem' m.cr3 va) ∧
      ∀ va, InReach lo va → IdentityMapped m.mem m.cr3 va → IdentityMapped mem' m.cr3 va := by
  have hloop := forFrom_some (a := 0) (n := count.toNat) (s := m)
    (f := fun i m => mapPage L m (pageAt virt i) (pageAt (v2p virt) i) flags)
    (fun k u => ∃ mem', u = { m with mem := mem' } ∧ Wired L lo mem' m.cr3 ∧
      (∀ va, pageNo virt ≤ pageNo va → pageNo va < pageNo virt + k →
        IdentityMapped mem' m.cr3 va) ∧
      ∀ va, InReach lo va → IdentityMapped m.mem m.cr3 va → IdentityMapped mem' m.cr3 va)
    ⟨m.mem, rfl, h, fun va h3 h4 => absurd h4 (Nat.not_lt_of_le h3), fun _ _ hid => hid⟩
    (by
      rintro k u _ hk ⟨mem', rfl, hw, hmapped, hkeep⟩
      have hpage : pageNo (pageAt virt k) = pageNo virt + k := pageNo_pageAt (by omega)
      have hreach : InReach lo (pageAt virt k) := ⟨by omega, by omega⟩
      have hframe : frameOf (pageAt (v2p virt) k) = frameOf (v2p (pageAt virt k)) := by
        rw [pageAt_v2p]
      obtain ⟨mem'', hrun, hw', hself, hkeep'⟩ := mapPage_identity (m := { m with mem := mem' })
        hw hlo hreach hframe flags
      refine ⟨_, hrun, mem'', rfl, hw', fun va h3 h4 => ?_, fun va hr hid =>
        hkeep' va hr (hkeep va hr hid)⟩
      rcases Nat.lt_succ_iff_lt_or_eq.mp h4 with hlt | heq
      · exact hkeep' va ⟨by omega, by omega⟩ (hmapped va h3 hlt)
      · exact hself.of_page (hpage.trans heq.symm))
  obtain ⟨_, hrun, mem', rfl, hw, hmapped, hkeep⟩ := hloop
  rw [Nat.zero_add] at hmapped
  exact ⟨mem', hrun, hw, hmapped, hkeep⟩

/-! ## The invariant -/

variable {base limit : U32} {r : KinitRun} {c : KinitCall}

/-- What was handed out ends at `next`, which is in the window. -/
structure KinitRun.Inv (L : Layout) (base limit : U32) (r : KinitRun) : Prop where
  base_eq : r.ka.base = base
  limit_eq : r.ka.limit = limit
  enabled : r.ka.enabled = true
  pages : base.toNat % 4096 = 0 ∧ limit.toNat % 4096 = 0
  wired : Wired L (pdIndex base).toNat r.mmu.mem r.mmu.cr3
  above : base.toNat ≤ r.ka.next.toNat
  below : r.ka.next.toNat ≤ base.toNat + limit.toNat
  ends : ∀ x ∈ r.given, x.addr.toNat + x.call.size.toNat ≤ r.ka.next.toNat
  sound : r.Sound base limit

theorem KinitStart.inv (h : KinitStart L base limit r) : r.Inv L base limit := by
  obtain ⟨hinit, hwired, hgiven⟩ := h
  rw [kinitAllocInit, Option.ite_none_right_eq_some, Option.some.injEq] at hinit
  obtain ⟨⟨hbase, hlimit⟩, hka⟩ := hinit
  have haligned : ∀ x : U32, x &&& (pageSize - 1) = 0 → x.toNat % 4096 = 0 := fun x hx => by
    rw [← toNat_pageOffset, hx]
    rfl
  have hbase' : r.ka.base = base := by rw [← hka]
  have hempty : ∀ x ∈ r.given, False := fun x hx => by
    rw [hgiven] at hx
    exact absurd hx List.not_mem_nil
  refine ⟨hbase', by rw [← hka], by rw [← hka], ⟨haligned base hbase, haligned limit hlimit⟩,
    hwired, by rw [← hka], by rw [← hka]; exact Nat.le_add_right _ _,
    fun x hx => (hempty x hx).elim, ⟨fun x hx => (hempty x hx).elim,
      fun x hx => (hempty x hx).elim, ?_, fun x hx => (hempty x hx).elim⟩⟩
  rw [hgiven]
  exact List.Pairwise.nil

/-- Where a call that passes the check ends up. -/
theorem KinitRun.Inv.bounds (h : r.Inv L base limit) (hs : c.Safe r.ka) (hpass : c.Passes r.ka) :
    r.ka.next.toNat ≤ (c.place r.ka).toNat ∧
      (c.place r.ka).toNat + c.size.toNat ≤ base.toNat + limit.toNat ∧
      (c.place r.ka).toNat + c.size.toNat ≤ 0xFFC00000 + (pdIndex base).toNat * 4096 := by
  obtain ⟨hnull, hwrap, hceil⟩ := hs hpass
  have hnext : r.ka.next.toNat ≤ (c.place r.ka).toNat := by
    by_cases hz : c.place r.ka = 0
    · rw [hz, (hnull hz).1]
    · exact (toNat_place r.ka c).2 hz
  have habove := h.above
  rw [KinitCall.Passes, h.limit_eq, BitVec.not_lt, BitVec.le_def, BitVec.toNat_add,
    Nat.mod_eq_of_lt hwrap, h.base_eq, BitVec.toNat_sub_of_le (by rw [BitVec.le_def]; omega)] at hpass
  rw [KinitAlloc.ceiling, h.base_eq] at hceil
  exact ⟨hnext, by omega, hceil⟩

/-- Handing out bytes from `next` on, on pages mapped to their own frames. -/
theorem KinitRun.Inv.hand (h : r.Inv L base limit) {p : U32} {mem' : PhysMem}
    (hdvd : (alignOf c.algn).toNat ∣ p.toNat) (hnext : r.ka.next.toNat ≤ p.toNat)
    (hend : p.toNat + c.size.toNat ≤ base.toNat + limit.toNat)
    (hsum : (p + c.size).toNat = p.toNat + c.size.toNat)
    (hw : Wired L (pdIndex base).toNat mem' r.mmu.cr3)
    (hmapped : ∀ va : U32, Given.Has ⟨p, c⟩ va.toNat → IdentityMapped mem' r.mmu.cr3 va)
    (hkeep : ∀ va : U32, base.toNat ≤ va.toNat → va.toNat < r.ka.next.toNat →
      IdentityMapped r.mmu.mem r.mmu.cr3 va → IdentityMapped mem' r.mmu.cr3 va) :
    KinitRun.Inv L base limit
      ⟨{ r.ka with next := p + c.size }, { r.mmu with mem := mem' }, ⟨p, c⟩ :: r.given⟩ := by
  have habove := h.above
  have hinside : ∀ b, Given.Has ⟨p, c⟩ b → base.toNat ≤ b ∧ b < base.toNat + limit.toNat := by
    rintro b ⟨h1, h2⟩
    exact ⟨habove.trans (hnext.trans h1), Nat.lt_of_lt_of_le h2 hend⟩
  refine ⟨h.base_eq, h.limit_eq, h.enabled, h.pages, hw, ?_, ?_, fun x hx => ?_,
    ⟨fun x hx => ?_, fun x hx => ?_, List.pairwise_cons.mpr ⟨?_, h.sound.apart⟩, fun x hx => ?_⟩⟩
  · show base.toNat ≤ (p + c.size).toNat
    omega
  · show (p + c.size).toNat ≤ _
    rwa [hsum]
  · show _ ≤ (p + c.size).toNat
    rcases List.mem_cons.mp hx with rfl | hold
    · exact Nat.le_of_eq hsum.symm
    · have := h.ends x hold
      omega
  · rcases List.mem_cons.mp hx with rfl | hold
    · exact hdvd
    · exact h.sound.aligned x hold
  · rcases List.mem_cons.mp hx with rfl | hold
    · exact hinside
    · exact h.sound.inside x hold
  · -- what is older ends at `next`
    rintro y hy b ⟨⟨h1, _⟩, _, h2⟩
    have := h.ends y hy
    dsimp only at h1
    omega
  · rcases List.mem_cons.mp hx with rfl | hold
    · exact hmapped
    · intro va hva
      have hend := h.ends x hold
      have hlo := (h.sound.inside x hold va.toNat hva).1
      exact hkeep va hlo (Nat.lt_of_lt_of_le hva.2 hend) (h.sound.mapped x hold va hva)

/-- **One call** of `kinit_alloc_align`. -/
theorem KinitRun.Inv.call (h : r.Inv L base limit) (hfit : base.toNat + limit.toNat < 2 ^ 32)
    (hs : c.Safe r.ka) :
    ∃ p ka mmu, kinitAllocAlign L r.ka r.mmu c.size c.algn = some (p, ka, mmu) ∧
      (p = 0 → ka = r.ka ∧ mmu = r.mmu) ∧
      (p ≠ 0 → KinitRun.Inv L base limit ⟨ka, mmu, ⟨p, c⟩ :: r.given⟩) := by
  by_cases hpass : c.Passes r.ka
  swap
  · have hfull : r.ka.limit < (c.place r.ka - r.ka.base) + c.size := Decidable.of_not_not hpass
    refine ⟨0, r.ka, r.mmu, ?_, fun _ => ⟨rfl, rfl⟩, fun hne => absurd rfl hne⟩
    rw [kinitAllocAlign, if_pos h.enabled]
    exact if_pos hfull
  obtain ⟨hnext, hend, hceil⟩ := h.bounds hs hpass
  obtain ⟨hbase, hlimit⟩ := h.pages
  have hnull := (hs hpass).1
  have hrun : kinitAllocAlign L r.ka r.mmu c.size c.algn = (pgMap L r.mmu
      (c.place r.ka &&& 0xFFFFF000#32) (v2p (c.place r.ka &&& 0xFFFFF000#32)) pteRw
      (toPage ((c.place r.ka &&& 0xFFF) + c.size + (pageSize - 1)))).map
        fun m => (c.place r.ka, { r.ka with next := c.place r.ka + c.size }, m) := by
    rw [kinitAllocAlign, if_pos h.enabled]
    refine (if_neg hpass).trans ?_
    rw [Option.map_eq_bind]
    rfl
  have hdvd := (toNat_place r.ka c).1
  generalize c.place r.ka = p at hrun hnext hend hceil hnull hdvd
  have hpage : pageNo (p &&& 0xFFFFF000#32) = p.toNat / 4096 := by
    rw [pageNo, toNat_and_frameMask]
    omega
  have hsum : (p + c.size).toNat = p.toNat + c.size.toNat := by
    rw [BitVec.toNat_add]
    omega
  have hcount : (toPage ((p &&& 0xFFF) + c.size + (pageSize - 1))).toNat
      = (p.toNat % 4096 + c.size.toNat + 4095) / 4096 := by
    have hoff : (p &&& 0xFFF).toNat = p.toNat % 4096 :=
      toNat_and_mask p (show 12 ≤ 32 by decide)
    have h1 : (pageSize - 1).toNat = 4095 := rfl
    rw [toNat_toPage, BitVec.toNat_add, BitVec.toNat_add, hoff, h1]
    omega
  have hslot : (pdIndex base).toNat * 1024 ≤ p.toNat / 4096 := by
    have habove := h.above
    rw [toNat_pdIndex]
    omega
  obtain ⟨mem', hmap, hw, hmapped, hkeep⟩ := pgMap_identity h.wired
    (Nat.le_of_lt_succ (pdIndex base).isLt) pteRw (hpage ▸ hslot)
    (show pageNo (p &&& 0xFFFFF000#32) +
      (toPage ((p &&& 0xFFF) + c.size + (pageSize - 1))).toNat ≤ _ by
        rw [hpage, hcount]
        omega)
  rw [hmap] at hrun
  rw [hpage, hcount] at hmapped
  refine ⟨_, _, _, hrun, ?_, fun _ => h.hand hdvd hnext hend hsum hw ?_ ?_⟩
  · rintro rfl
    obtain ⟨hz, hsize⟩ := hnull rfl
    rw [hsize] at hmap ⊢
    have hzero : pgMap L r.mmu (0 &&& 0xFFFFF000#32) (v2p (0 &&& 0xFFFFF000#32)) pteRw
        (toPage ((0 &&& 0xFFF) + 0 + (pageSize - 1))) = some r.mmu := rfl
    rw [hzero, Option.some.injEq] at hmap
    exact ⟨by rw [show (0 : U32) + 0 = r.ka.next from hz.symm], hmap.symm⟩
  · rintro va ⟨h1, h2⟩
    dsimp only at h1 h2
    refine hmapped va ?_ ?_ <;> rw [pageNo] <;> omega
  · intro va h1 h2
    have h3 : InReach (pdIndex base).toNat va := by
      rw [InReach, pageNo, toNat_pdIndex]
      rw [toNat_pdIndex] at hceil
      omega
    exact hkeep va h3

theorem KinitRun.Inv.step {r' : KinitRun} (h : r.Inv L base limit)
    (hfit : base.toNat + limit.toNat < 2 ^ 32) (hs : c.Safe r.ka) (hstep : KinitStep L c r r') :
    r'.Inv L base limit := by
  obtain ⟨p, ka, mmu, hrun, hnull, hgiven⟩ := h.call hfit hs
  cases hstep with
  | null hcall =>
    rw [hrun, Option.some.injEq] at hcall
    cases hcall
    obtain ⟨hka, hmmu⟩ := hnull rfl
    rw [hka, hmmu]
    exact h
  | given hcall hne =>
    rw [hrun, Option.some.injEq] at hcall
    cases hcall
    exact hgiven hne

/-- **The bounds of the bootstrap allocator.** -/
theorem kinitRun_sound (L : Layout) (base limit : U32) (r : KinitRun)
    (hfit : base.toNat + limit.toNat < 2 ^ 32)
    (h : Reach (KinitStart L base limit) (Guarded (fun c r => c.Safe r.ka) (KinitStep L)) r) :
    r.Sound base limit ∧ ∀ c : KinitCall, c.Safe r.ka → c.Returns L r := by
  have hinv : r.Inv L base limit := h.invariant _ (fun _ => KinitStart.inv)
    fun _ _ _ hr hst => hr.step hfit hst.1 hst.2
  refine ⟨hinv.sound, fun c hs => ?_⟩
  obtain ⟨p, ka, mmu, hrun, hnull, _⟩ := hinv.call hfit hs
  exact ⟨p, ka, mmu, hrun, hnull⟩

/-- The window the kernel opens, after its directory is set up. -/
def bootKinit : KinitRun :=
  ⟨⟨0xC0511000, 0xC0511000, 0x100000, true⟩,
    ⟨recursiveTables smallLayout (fun _ _ => 0), smallLayout.pgPd⟩, []⟩

theorem kinitStart_boot : KinitStart smallLayout 0xC0511000 0x100000 bootKinit where
  init := rfl
  wired :=
    have hclr : BssClear smallLayout fun _ _ => 0 := fun _ => rfl
    have h := (recursiveTables_dir smallLayout hclr).2
    ⟨h.self, h.apart, fun i _ => h.tables i (Nat.zero_le _)⟩
  given := rfl

def kinitCall (size : U32) : KinitCall := ⟨size, 0, Or.inl rfl⟩

theorem kinitRun_sound_boot : (kinitCall 0x8000).Returns smallLayout bootKinit ∧
    ∃ r : KinitRun, r.given.map (·.addr) = [0xC0511000#32] ∧ r.Sound 0xC0511000 0x100000 := by
  have hboot := kinitRun_sound smallLayout 0xC0511000 0x100000 bootKinit (by decide)
    (.start kinitStart_boot)
  have hrun : (kinitAllocAlign smallLayout bootKinit.ka bootKinit.mmu 0x8000 0).map (·.1)
      = some 0xC0511000#32 := by
    decide +kernel
  obtain ⟨⟨p, ka, mmu⟩, hcall, rfl⟩ := Option.map_eq_some_iff.mp hrun
  have hstep : KinitStep smallLayout (kinitCall 0x8000) bootKinit _ :=
    .given hcall (by decide)
  have hsafe : (kinitCall 0x8000).Safe bootKinit.ka := fun _ => by decide
  exact ⟨hboot.2 _ hsafe, _, rfl, (kinitRun_sound smallLayout 0xC0511000 0x100000 _ (by decide)
    (.next (.start kinitStart_boot) ⟨hsafe, hstep⟩)).1⟩

/-- After 16 bytes, a size of 8 less than `2 ^ 32` passes the check. -/
theorem kinitRun_wraps : ∃ r, Reach (KinitStart smallLayout 0xC0511000 0x100000)
    (KinitStep smallLayout) r ∧ ¬ r.Sound 0xC0511000 0x100000 := by
  have hrun : ((kinitAllocAlign smallLayout bootKinit.ka bootKinit.mmu 0x10 0).bind fun x =>
      (kinitAllocAlign smallLayout x.2.1 x.2.2 0xFFFFFFF8 0).map fun y => (x.1, y.1))
      = some (0xC0511000#32, 0xC0511010#32) := by
    decide +kernel
  obtain ⟨⟨p, ka, mmu⟩, hfirst, hrest⟩ := Option.bind_eq_some_iff.mp hrun
  obtain ⟨⟨q, ka', mmu'⟩, hsecond, hpq⟩ := Option.map_eq_some_iff.mp hrest
  obtain ⟨rfl, rfl⟩ := Prod.mk.inj hpq
  have hstep : KinitStep smallLayout (kinitCall 0x10) bootKinit _ :=
    .given hfirst (by decide)
  have hstep' : KinitStep smallLayout (kinitCall 0xFFFFFFF8) _ _ :=
    .given (r := ⟨ka, mmu, [⟨0xC0511000, kinitCall 0x10⟩]⟩) hsecond (by decide)
  refine ⟨_, .next (.next (.start kinitStart_boot) hstep) hstep', fun h => ?_⟩
  -- the byte past the window
  obtain ⟨_, hlt⟩ := h.inside _ List.mem_cons_self 0xC0611010 ⟨by decide, by decide⟩
  exact absurd hlt (by decide)

end Tomk
