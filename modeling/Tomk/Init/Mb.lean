/-
# `mb.c`: the Multiboot memory map

`mb_init` walks the map the boot loader left in memory and adds a region to
the kernel memory map for every entry.  The entries are of varying size: the
field `size` says how far the next one is.  An entry holds a 64-bit base and
a 64-bit length; a region holds 32 bits of each, and the two are narrowed on
the way without a check.

What the walk does is `mbInit_walk`: it adds one region for each entry laid
out in the announced buffer.  What it is for is `MbSound`: every byte of the
RAM that is added is RAM in the boot loader's map.  The narrowing breaks it
for an entry that starts at or above 4 GiB, whose region lands in low memory,
and `mbInit_sound_iff` says that it holds exactly when the low memory such
regions land in happens to be RAM of the map as well (`EntriesFit`).

The words are read byte by byte from a memory addressed by virtual address:
an entry of odd size puts the next one at an odd address.
-/
import Tomk.Mm.Pmm

namespace Tomk

/-! ## `kphysmap.c` -/

def kphysmapInit : KPhysMap := ⟨[], Nat.zero_le _⟩

/-- `none` is the failed assertion: the table is full. -/
def kphysmapAdd (map : KPhysMap) (address size flags : U32) : Option KPhysMap :=
  if h : map.regions.length < kphysmapMaxRegions then
    some ⟨map.regions ++ [⟨address, size, flags ||| kphysregionValid⟩], by
      rw [List.length_append]
      exact h⟩
  else none

/-! ## `mb.h` -/

def multibootFlagsMmap : U32 := 0x40

def multibootMmapTypeRam : U32 := 1

/-- The fields `mb_init` reads. -/
structure MultibootInfo where
  flags : U32
  mmapLength : U32
  mmapAddr : U32

structure MultibootMmap where
  size : U32
  addr1 : U32
  addr2 : U32
  len1 : U32
  len2 : U32
  type : U32
  deriving DecidableEq

def readMmap (mem : Bytes) (p : U32) : MultibootMmap :=
  ⟨read32 mem p, read32 mem (p + 4), read32 mem (p + 8), read32 mem (p + 12),
    read32 mem (p + 16), read32 mem (p + 20)⟩

/-! ## `mb.c` -/

/-- `((uint64_t)hi << 32) | (uint64_t)lo`. -/
def uint64 (hi lo : U32) : BitVec 64 := hi.setWidth 64 <<< 32 ||| lo.setWidth 64

/-- The body of the loop: the 64-bit values become arguments of 32 bits. -/
def mbAdd (map : KPhysMap) (e : MultibootMmap) : Option KPhysMap :=
  let addr := uint64 e.addr2 e.addr1
  let len := uint64 e.len2 e.len1
  if e.type = multibootMmapTypeRam then
    kphysmapAdd map (addr.setWidth 32) (len.setWidth 32) kphysregionTypeRam
  else
    kphysmapAdd map (addr.setWidth 32) (len.setWidth 32) kphysregionTypeRev

/-- The loop.  Every turn fills a place of the table, so a loop that is not
over after as many turns as the table has places fails its assertion. -/
def mbWalk (mem : Bytes) (stop : U32) : Nat → U32 → KPhysMap → Option KPhysMap
  | 0, mmap, map => if mmap < stop then none else some map
  | fuel + 1, mmap, map =>
      if mmap < stop then
        match mbAdd map (readMmap mem mmap) with
        | none => none
        | some map => mbWalk mem stop fuel (mmap + (readMmap mem mmap).size + 4) map
      else some map

def mbInit (mem : Bytes) (info : MultibootInfo) (map : KPhysMap) : Option KPhysMap :=
  if info.flags &&& multibootFlagsMmap = 0 then none
  else
    let addr := p2v info.mmapAddr
    mbWalk mem (addr + info.mmapLength) kphysmapMaxRegions addr map

/-! ## The boot loader's map -/

/-- The 64-bit values an entry stands for. -/
def MultibootMmap.base (e : MultibootMmap) : Nat := e.addr2.toNat * 2 ^ 32 + e.addr1.toNat

def MultibootMmap.length (e : MultibootMmap) : Nat := e.len2.toNat * 2 ^ 32 + e.len1.toNat

/-- The entries lie one behind the other from the address `p` on, each with
room for its fields. -/
def Lays (mem : Bytes) : U32 → List MultibootMmap → Prop
  | _, [] => True
  | p, e :: es => readMmap mem p = e ∧ 20 ≤ e.size.toNat ∧ Lays mem (p + e.size + 4) es

/-- The bytes the entries take up. -/
def entryBytes (es : List MultibootMmap) : Nat := (es.map fun e => e.size.toNat + 4).sum

/-- A boot information whose buffer the entries fill. -/
structure Announces (mem : Bytes) (info : MultibootInfo) (es : List MultibootMmap) : Prop where
  flags : info.flags &&& multibootFlagsMmap ≠ 0
  lays : Lays mem (p2v info.mmapAddr) es
  fills : entryBytes es = info.mmapLength.toNat

/-- The address is RAM in the boot loader's map. -/
def MapRam (es : List MultibootMmap) (b : Nat) : Prop :=
  ∃ e ∈ es, e.type = multibootMmapTypeRam ∧ e.base ≤ b ∧ b < e.base + e.length

/-- Every physical byte of the RAM regions that were added is. -/
def MbSound (es : List MultibootMmap) (added : List KPhysRegion) : Prop :=
  ∀ r ∈ added, r.isRam = true → ∀ b, b < 2 ^ 32 → r.address.toNat ≤ b →
    b < r.address.toNat + r.size.toNat → MapRam es b

/-- The buffer runs up to the end of the address space or beyond: the loop's
bound wraps, and no entry is looked at. -/
def BufferWraps (info : MultibootInfo) : Prop :=
  2 ^ 32 ≤ (p2v info.mmapAddr).toNat + info.mmapLength.toNat

instance (info : MultibootInfo) : Decidable (BufferWraps info) :=
  inferInstanceAs (Decidable (_ ≤ _))

/-- The RAM entries from 4 GiB on: what is left of their ranges in 32 bits is
RAM in the map. -/
def EntriesFit (es : List MultibootMmap) : Prop :=
  ∀ e ∈ es, e.type = multibootMmapTypeRam → 2 ^ 32 ≤ e.base → ∀ b, b < 2 ^ 32 →
    e.base % 2 ^ 32 ≤ b → b < e.base % 2 ^ 32 + e.length % 2 ^ 32 → MapRam es b

/-! ## One entry -/

/-- The region an entry becomes. -/
def MultibootMmap.region (e : MultibootMmap) : KPhysRegion :=
  ⟨e.addr1, e.len1, (if e.type = multibootMmapTypeRam then kphysregionTypeRam
    else kphysregionTypeRev) ||| kphysregionValid⟩

/-- Narrowing leaves the low word. -/
theorem setWidth_uint64 (hi lo : U32) : (uint64 hi lo).setWidth 32 = lo := by
  apply BitVec.eq_of_getLsbD_eq
  intro i hi'
  simp [uint64, hi']

theorem mbAdd_eq (map : KPhysMap) (e : MultibootMmap)
    (h : map.regions.length < kphysmapMaxRegions) :
    ∃ m, mbAdd map e = some m ∧ m.regions = map.regions ++ [e.region] := by
  simp only [mbAdd, setWidth_uint64, kphysmapAdd, dif_pos h, MultibootMmap.region]
  split
  · exact ⟨_, rfl, rfl⟩
  · exact ⟨_, rfl, rfl⟩

theorem region_isRam (e : MultibootMmap) :
    e.region.isRam = true ↔ e.type = multibootMmapTypeRam := by
  by_cases h : e.type = multibootMmapTypeRam
  · simp only [MultibootMmap.region, KPhysRegion.isRam, h]
    decide
  · simp only [MultibootMmap.region, KPhysRegion.isRam, h]
    decide

theorem base_mod (e : MultibootMmap) : e.base % 2 ^ 32 = e.addr1.toNat := by
  have := e.addr1.isLt
  rw [MultibootMmap.base]
  omega

theorem length_mod (e : MultibootMmap) : e.length % 2 ^ 32 = e.len1.toNat := by
  have := e.len1.isLt
  rw [MultibootMmap.length]
  omega

/-! ## The walk -/

theorem mbWalk_done {mem : Bytes} {stop p : U32} (h : ¬ p < stop) (fuel : Nat) (map : KPhysMap) :
    mbWalk mem stop fuel p map = some map := by
  cases fuel with
  | zero => rw [mbWalk, if_neg h]
  | succ fuel => rw [mbWalk, if_neg h]

/-- The walk over entries that end at `stop` adds a region for each. -/
theorem mbWalk_eq {mem : Bytes} {stop : U32} (es : List MultibootMmap) :
    ∀ (fuel : Nat) (p : U32) (map : KPhysMap), Lays mem p es →
      p.toNat + entryBytes es = stop.toNat → es.length ≤ fuel →
      map.regions.length + es.length ≤ kphysmapMaxRegions →
      ∃ m, mbWalk mem stop fuel p map = some m ∧
        m.regions = map.regions ++ es.map MultibootMmap.region := by
  induction es with
  | nil =>
      intro fuel p map _ hstop _ _
      have h0 : entryBytes [] = 0 := rfl
      refine ⟨map, mbWalk_done ?_ fuel map, by simp⟩
      rw [BitVec.lt_def]
      omega
  | cons e es ih =>
      rintro fuel p map ⟨hread, hsize, hlays⟩ hstop hfuel hroom
      obtain ⟨fuel, rfl⟩ : ∃ k, fuel = k + 1 := ⟨fuel - 1, by
        rw [List.length_cons] at hfuel
        omega⟩
      have hbytes : entryBytes (e :: es) = e.size.toNat + 4 + entryBytes es := rfl
      have hlt := stop.isLt
      have hnext : (p + e.size + 4).toNat = p.toNat + e.size.toNat + 4 := by
        have h4 : (4 : U32).toNat = 4 := rfl
        rw [BitVec.toNat_add, BitVec.toNat_add, h4]
        omega
      rw [List.length_cons] at hfuel hroom
      obtain ⟨m1, h1, hr1⟩ := mbAdd_eq map e (by omega)
      have hlen : m1.regions.length = map.regions.length + 1 := by
        rw [hr1, List.length_append, List.length_singleton]
      obtain ⟨m, hm, hr⟩ := ih fuel (p + e.size + 4) m1 hlays
        (by rw [hnext]; omega) (by omega) (by omega)
      refine ⟨m, ?_, ?_⟩
      · have hgo : p < stop := by
          rw [BitVec.lt_def]
          omega
        rw [mbWalk, if_pos hgo, hread]
        simp only [h1]
        exact hm
      · rw [hr, hr1, List.map_cons, List.append_assoc, List.singleton_append]

/-- What `mb_init` adds: a region for each entry, or nothing where the end of
the buffer wraps. -/
theorem mbInit_walk {mem : Bytes} {info : MultibootInfo} {es : List MultibootMmap}
    (h : Announces mem info es) {map : KPhysMap}
    (hroom : map.regions.length + es.length ≤ kphysmapMaxRegions) :
    (¬ BufferWraps info → ∃ m, mbInit mem info map = some m ∧
        m.regions = map.regions ++ es.map MultibootMmap.region) ∧
      (BufferWraps info → mbInit mem info map = some map) := by
  have hsum := BitVec.toNat_add (p2v info.mmapAddr) info.mmapLength
  have hp := (p2v info.mmapAddr).isLt
  have hl := info.mmapLength.isLt
  simp only [mbInit, if_neg h.flags, BufferWraps]
  constructor
  · intro hwrap
    refine mbWalk_eq es _ _ map h.lays ?_ (by omega) hroom
    rw [h.fills, hsum]
    omega
  · intro hwrap
    refine mbWalk_done ?_ _ map
    rw [BitVec.lt_def, hsum]
    omega

/-! ## Soundness -/

/-- The region of an entry below 4 GiB lies in the entry's range. -/
theorem region_in_entry {e : MultibootMmap} (hlow : e.base < 2 ^ 32) {b : Nat}
    (h1 : e.region.address.toNat ≤ b)
    (h2 : b < e.region.address.toNat + e.region.size.toNat) :
    e.base ≤ b ∧ b < e.base + e.length := by
  have hbase : e.region.address.toNat = e.base % 2 ^ 32 := (base_mod e).symm
  have hlen : e.region.size.toNat = e.length % 2 ^ 32 := (length_mod e).symm
  have hle := Nat.mod_le e.length (2 ^ 32)
  omega

/-- The regions of all entries are sound exactly when the entries fit. -/
theorem mbSound_iff (es : List MultibootMmap) :
    MbSound es (es.map MultibootMmap.region) ↔ EntriesFit es := by
  constructor
  · intro hs e he htype _ b hb h1 h2
    rw [base_mod] at h1 h2
    rw [length_mod] at h2
    exact hs e.region (List.mem_map_of_mem he) ((region_isRam e).mpr htype) b hb h1 h2
  · intro hfit r hr hram b hb h1 h2
    obtain ⟨e, he, rfl⟩ := List.mem_map.mp hr
    have htype := (region_isRam e).mp hram
    by_cases hlow : e.base < 2 ^ 32
    · exact ⟨e, he, htype, region_in_entry hlow h1 h2⟩
    · refine hfit e he htype (Nat.not_lt.mp hlow) b hb ?_ ?_
      · rw [base_mod]
        exact h1
      · rw [base_mod, length_mod]
        exact h2

/-- **When the kernel's RAM is the boot loader's RAM.** -/
theorem mbInit_sound_iff {mem : Bytes} {info : MultibootInfo} {es : List MultibootMmap}
    (h : Announces mem info es) {map : KPhysMap}
    (hroom : map.regions.length + es.length ≤ kphysmapMaxRegions) :
    ∃ (m : KPhysMap) (added : List KPhysRegion), mbInit mem info map = some m ∧
      m.regions = map.regions ++ added ∧
      (MbSound es added ↔ BufferWraps info ∨ EntriesFit es) := by
  obtain ⟨hall, hnone⟩ := mbInit_walk h hroom
  by_cases hwrap : BufferWraps info
  · refine ⟨map, [], hnone hwrap, by simp, fun _ => Or.inl hwrap, fun _ => ?_⟩
    exact fun _ hr => absurd hr List.not_mem_nil
  · obtain ⟨m, hm, hr⟩ := hall hwrap
    refine ⟨m, es.map MultibootMmap.region, hm, hr, ?_⟩
    rw [mbSound_iff, or_iff_right hwrap]

/-! ## RAM above 4 GiB -/

/-- 640 KiB of lower memory and 1 GiB of RAM at 4 GiB. -/
def highEntries : List MultibootMmap :=
  [⟨20, 0, 0, 0xA0000, 0, 1⟩, ⟨20, 0, 1, 0x40000000, 0, 1⟩]

/-- The words of the entries, from `0xC0010000` on. -/
def highWords : List U32 :=
  [20, 0, 0, 0xA0000, 0, 1, 20, 0, 1, 0x40000000, 0, 1]

/-- The memory that holds the words, and 0 elsewhere. -/
def highBytes : Bytes := fun p =>
  let k := (p - 0xC0010000).toNat
  ((highWords.getD (k / 4) 0) >>> (8 * (k % 4))).setWidth 8

def highInfo : MultibootInfo := ⟨0x40, 48, 0x10000⟩

theorem highInfo_announces : Announces highBytes highInfo highEntries where
  flags := by decide
  lays := ⟨by decide, by decide, by decide, by decide, trivial⟩
  fills := by decide

/-- The first GiB becomes RAM, the VGA buffer at `0xA0000` with it. -/
theorem mbInit_narrows :
    ¬ ∀ (mem : Bytes) (info : MultibootInfo) (es : List MultibootMmap), es.length ≤ 10 →
      Announces mem info es → ∃ m, mbInit mem info kphysmapInit = some m ∧
        MbSound es m.regions := by
  intro hall
  obtain ⟨m, hm, hs⟩ := hall highBytes highInfo highEntries (by decide) highInfo_announces
  obtain ⟨m', hm', hr⟩ := (mbInit_walk highInfo_announces
    (show kphysmapInit.regions.length + _ ≤ _ by decide)).1 (by decide)
  rw [hm'] at hm
  rw [← Option.some.inj hm, hr] at hs
  have hmem : (⟨20, 0, 1, 0x40000000, 0, 1⟩ : MultibootMmap).region
      ∈ kphysmapInit.regions ++ highEntries.map MultibootMmap.region :=
    List.mem_map_of_mem (List.mem_cons_of_mem _ List.mem_cons_self)
  obtain ⟨e, he, _, h1, h2⟩ := hs _ hmem (by decide) 0xA0000 (by decide) (by decide) (by decide)
  rcases List.mem_cons.mp he with rfl | he
  · exact absurd h2 (by decide)
  · rw [List.mem_singleton] at he
    subst he
    exact absurd h1 (by decide)

/-- The first entry alone. -/
def lowEntries : List MultibootMmap := [⟨20, 0, 0, 0xA0000, 0, 1⟩]

def lowInfo : MultibootInfo := ⟨0x40, 24, 0x10000⟩

theorem lowInfo_announces : Announces highBytes lowInfo lowEntries where
  flags := by decide
  lays := ⟨by decide, by decide, trivial⟩
  fills := by decide

theorem mbInit_sound_low :
    ∃ (m : KPhysMap) (added : List KPhysRegion), mbInit highBytes lowInfo kphysmapInit = some m ∧
      m.regions = kphysmapInit.regions ++ added ∧
      (MbSound lowEntries added ↔ BufferWraps lowInfo ∨ EntriesFit lowEntries) :=
  mbInit_sound_iff lowInfo_announces (by decide)

end Tomk
