/-
# Runs of the heap

The heap as its callers see it: any sequence of `heap_alloc` and `heap_free`
from `heap_init`, over a manager that hands out ranges that lie apart.  A run
keeps a list of what is live, which the heap itself does not have.

`Heap.Represented` is what the lists of a heap are, and `LiveApart` what holds of
the live allocations because of it: their payloads are aligned, no two overlap,
and none overlaps a header.  Both hold in every state that a run reaches, and
there every call ends (`heapRun_represented`).
-/
import Tomk.Lib.Runs
import Tomk.Mm.KheapAlloc

namespace Tomk

open DList Tiling Function Runs

variable {V : Type} {z : Bool} {ops : VmmOps V} {h : Heap} {v : V} {rs : List U32} {ps : U32 → Prop}
  {B : U32 → List U32} {r b : U32} {ls : List (U32 × U32)}

/-! ## What is promised -/

/-- The regions `rs` and the blocks `B r` of each region are the lists of the
heap, and the blocks tile the region. -/
structure Heap.Represented (h : Heap) (rs : List U32) (B : U32 → List U32) : Prop where
  regions : Ring h.regionLinks 0 rs
  blocks : ∀ r ∈ rs, Ring (h.blockLinks r) 0 (B r)
  tiled : ∀ r ∈ rs, Tiled 16 (r.toNat + 32) ((B r).map h.tile)
    (r.toNat + (h.regions r).size.toNat)
  sizes : ∀ r ∈ rs, ∀ b ∈ B r,
    0 < (h.blocks b).size.toNat ∧ (h.blocks b).size.toNat % 16 = 0
  merged : ∀ r ∈ rs, Merged ((B r).map h.tile)

/-- The `n` bytes at `a` and the `m` bytes at `b` do not overlap. -/
def Apart (a n b m : Nat) : Prop := a + n ≤ b ∨ b + m ≤ a

/-- The payloads of the live allocations, among themselves and among the
headers. -/
structure LiveApart (h : Heap) (rs : List U32) (B : U32 → List U32) (ls : List (U32 × U32)) :
    Prop where
  held : ∀ a ∈ ls, ∃ r ∈ rs, ∃ b ∈ B r, h.Holds b a
  aligned : ∀ a ∈ ls, a.1.toNat % 16 = 0
  apart : ls.Pairwise fun a c => Apart a.1.toNat a.2.toNat c.1.toNat c.2.toNat
  regions : ∀ a ∈ ls, ∀ r ∈ rs, Apart a.1.toNat a.2.toNat r.toNat 32
  blocks : ∀ a ∈ ls, ∀ r ∈ rs, ∀ b ∈ B r, Apart a.1.toNat a.2.toNat b.toNat 16

theorem HeapOk.represented (hk : HeapOk false ops h v rs ps B) : h.Represented rs B where
  regions := hk.ring
  blocks := fun r hr => (hk.region r (Or.inl hr)).ring
  tiled := fun r hr => (hk.region r (Or.inl hr)).tiled
  sizes := fun r hr b hb => ((hk.region r (Or.inl hr)).sizes b hb).imp (fun h => h rfl) id
  merged := fun r hr => (hk.region r (Or.inl hr)).merged

/-- Where a block is: an allocation in it lies in its payload. -/
theorem HeapOk.payload (hk : HeapOk z ops h v rs ps B) (hr : r ∈ rs) (hb : b ∈ B r) {a : U32 × U32}
    (hh : h.Holds b a) :
    a.1.toNat = b.toNat + 16 ∧ a.1.toNat + a.2.toNat ≤ (h.tile b).stop 16 := by
  have hok := hk.region r (Or.inl hr)
  obtain ⟨h1, _, h3⟩ := hh
  have hptr := hok.toNat_blockPtr hb
  rw [← h1] at hptr
  rw [BitVec.le_def] at h3
  refine ⟨hptr, ?_⟩
  rw [Tile.stop, hptr]
  exact Nat.add_le_add_left h3 _

/-- The blocks of a region are aligned, as it is. -/
theorem RegionOk.block_aligned {bs : List U32} (hok : RegionOk z h r bs) (hb : b ∈ bs) :
    b.toNat % 16 = 0 := by
  have ha := hok.aligned
  refine Nat.mod_eq_zero_of_dvd (hok.tiled.dvd (k := 16) (by decide) (by omega) (fun t ht => ?_)
    (List.mem_map_of_mem hb))
  obtain ⟨c, hc, rfl⟩ := List.mem_map.mp ht
  exact Nat.dvd_of_mod_eq_zero (hok.sizes c hc).2

/-- Two blocks of the heap are the same one, or one ends before the other
starts. -/
theorem HeapOk.blocks_apart (hk : HeapOk z ops h v rs ps B) {q c : U32} (hr : r ∈ rs) (hb : b ∈ B r)
    (hq : q ∈ rs) (hc : c ∈ B q) :
    b = c ∨ (h.tile b).stop 16 ≤ c.toNat ∨ (h.tile c).stop 16 ≤ b.toNat := by
  have hok := hk.region r (Or.inl hr)
  have hok' := hk.region q (Or.inl hq)
  by_cases hrq : r = q
  · subst hrq
    rcases hok.tiled.apart (List.mem_map_of_mem hb) (List.mem_map_of_mem hc) with heq | hlt
    · exact Or.inl (BitVec.eq_of_toNat_eq (congrArg Tile.addr heq))
    · exact Or.inr hlt
  · -- the blocks lie in their regions
    obtain ⟨h1, h2⟩ := hok.tiled.mem (List.mem_map_of_mem hb)
    obtain ⟨h3, h4⟩ := hok'.tiled.mem (List.mem_map_of_mem hc)
    simp only [Heap.tile] at h1 h2 h3 h4 ⊢
    rcases hk.apart r q (Or.inl hr) (Or.inl hq) hrq with hlt | hlt
    · rw [Heap.stop] at hlt
      omega
    · rw [Heap.stop] at hlt
      omega

/-- **The tiling keeps the payloads apart.** -/
theorem HeapOk.liveApart (hk : HeapOk z ops h v rs ps B) (hl : LiveOk h rs B ls) :
    LiveApart h rs B ls := by
  refine ⟨hl.block, fun a ha => ?_, ?_, fun a ha q hq => ?_, fun a ha q hq c hc => ?_⟩
  · obtain ⟨r, hr, b, hb, hh⟩ := hl.block a ha
    obtain ⟨h1, _⟩ := hk.payload hr hb hh
    have := (hk.region r (Or.inl hr)).block_aligned hb
    omega
  · have hn : ls.Pairwise fun a c => a.1 ≠ c.1 := List.pairwise_map.mp hl.nodup
    refine hn.imp_of_mem fun {a c} ha hc hne => ?_
    obtain ⟨r, hr, b, hb, hh⟩ := hl.block a ha
    obtain ⟨q, hq, d, hd, hh'⟩ := hl.block c hc
    obtain ⟨h1, h2⟩ := hk.payload hr hb hh
    obtain ⟨h3, h4⟩ := hk.payload hq hd hh'
    rcases hk.blocks_apart hr hb hq hd with rfl | hlt | hlt
    · exact absurd (hh.1.trans hh'.1.symm) hne
    · exact Or.inl (by omega)
    · exact Or.inr (by omega)
  · obtain ⟨r, hr, b, hb, hh⟩ := hl.block a ha
    obtain ⟨h1, h2⟩ := hk.payload hr hb hh
    have hok := hk.region r (Or.inl hr)
    obtain ⟨h3, h4⟩ := hok.tiled.mem (List.mem_map_of_mem hb)
    simp only [Heap.tile] at h2 h3 h4
    by_cases hrq : r = q
    · subst hrq
      exact Or.inr (by omega)
    · have hfit := (hk.region q (Or.inl hq)).header_fits
      rcases hk.apart r q (Or.inl hr) (Or.inl hq) hrq with hlt | hlt
      · rw [Heap.stop] at hlt
        exact Or.inl (by omega)
      · rw [Heap.stop] at hlt hfit
        exact Or.inr (by omega)
  · obtain ⟨r, hr, b, hb, hh⟩ := hl.block a ha
    obtain ⟨h1, h2⟩ := hk.payload hr hb hh
    rcases hk.blocks_apart hr hb hq hc with rfl | hlt | hlt
    · exact Or.inr (by omega)
    · exact Or.inl (by omega)
    · rw [Tile.stop] at hlt
      simp only [Heap.tile] at hlt
      exact Or.inr (by omega)

/-! ## Runs -/

/-- The heap, its manager, and what is live: pointers with their sizes. -/
structure HeapState (V : Type) where
  heap : Heap
  vmm : V
  live : List (U32 × U32)

inductive HeapCall where
  | alloc (size : U32) (contiguous : Bool)
  | free (ptr : U32)

/-- The sizes that runs ask for. -/
def HeapCall.Legal : HeapCall → Prop
  | .alloc size _ => size.toNat ≤ 0xFFFFE000
  | .free _ => True

/-- The state after a call, if the call returns. -/
def HeapCall.run (ops : VmmOps V) (s : HeapState V) : HeapCall → Option (HeapState V)
  | .alloc size contiguous => do
      let (ptr, heap, vmm) ← heapAlloc ops s.heap s.vmm size contiguous
      pure ⟨heap, vmm, if ptr = 0 then s.live else (ptr, size) :: s.live⟩
  | .free ptr => do
      let (heap, vmm) ← heapFree ops s.heap s.vmm ptr
      pure ⟨heap, vmm, s.live.filter fun a => a.1 ≠ ptr⟩

def HeapStep (ops : VmmOps V) (c : HeapCall) (s s' : HeapState V) : Prop :=
  c.Legal ∧ c.run ops s = some s'

/-- After `heap_init`. -/
def HeapStart (ops : VmmOps V) (s : HeapState V) : Prop :=
  (∃ h, s.heap = heapInit h) ∧ ops.Ok s.vmm ∧ s.live = []

def HeapReach (ops : VmmOps V) : HeapState V → Prop := Reach (HeapStart ops) (HeapStep ops)

/-- No region is held in the middle of a call. -/
def NoPending (_ : U32) : Prop := False

/-- The invariant of a run. -/
def HeapState.Inv (ops : VmmOps V) (s : HeapState V) : Prop :=
  ∃ rs B, HeapOk false ops s.heap s.vmm rs NoPending B ∧ LiveOk s.heap rs B s.live

/-- The heap that `heap_init` leaves has no regions. -/
theorem heapInit_ok (h : Heap) {v : V} (hv : ops.Ok v) (B : U32 → List U32) :
    HeapOk z ops (heapInit h) v [] NoPending B where
  vmm := hv
  ring := Ring.nil rfl rfl
  pending := fun _ _ => id
  region := fun _ hr => (hr.elim (fun hr => nomatch hr) id).elim
  given := fun _ hr => (hr.elim (fun hr => nomatch hr) id).elim
  apart := fun _ _ hr => (hr.elim (fun hr => nomatch hr) id).elim

theorem HeapStart.inv {s : HeapState V} (hs : HeapStart ops s) : s.Inv ops := by
  obtain ⟨⟨h, hh⟩, hv, hl⟩ := hs
  refine ⟨[], fun _ => [], ?_, ?_⟩
  · rw [hh]
    exact heapInit_ok h hv _
  · rw [hl]
    exact ⟨List.nodup_nil, fun a ha => nomatch ha⟩

/-- **One call** ends, and keeps the invariant. -/
theorem HeapState.Inv.call {s : HeapState V} (hs : s.Inv ops) {c : HeapCall} (hc : c.Legal) :
    ∃ s', c.run ops s = some s' ∧ s'.Inv ops := by
  obtain ⟨rs, B, hk, hl⟩ := hs
  cases c with
  | alloc size contiguous =>
      have hsize := fun h0 : size ≠ 0 => allocSize_spec h0 (Nat.le_trans hc (by decide))
      obtain ⟨⟨ptr, h', v'⟩, hrun, rs', B', hk', hl'⟩ := hk.heapAlloc_live (m := size) hl
        (fun h0 _ => (hsize h0).1) (fun h0 => (hsize h0).2.2.1) contiguous
      refine ⟨⟨h', v', if ptr = 0 then s.live else (ptr, size) :: s.live⟩, ?_, rs', B', hk', hl'⟩
      simp only [HeapCall.run, hrun, Option.bind_eq_bind, Option.bind_some, Option.pure_def]
  | free ptr =>
      obtain ⟨h', v', rs', B', hrun, hk', hl'⟩ := hk.heapFree_live hl ptr
      refine ⟨⟨h', v', s.live.filter fun a => a.1 ≠ ptr⟩, ?_, rs', B', hk', hl'⟩
      simp only [HeapCall.run, hrun, Option.bind_eq_bind, Option.bind_some, Option.pure_def]

theorem HeapReach.inv {s : HeapState V} (hs : HeapReach ops s) : s.Inv ops := by
  refine Reach.invariant (HeapState.Inv ops) (fun s hs => hs.inv) (fun c s s' hi hstep => ?_) hs
  obtain ⟨s'', hrun, hi'⟩ := hi.call hstep.1
  rw [hstep.2] at hrun
  cases hrun
  exact hi'

/-- **The representation of the heap.**  In every state that a run reaches, the
regions and the blocks are well-formed lists, the blocks tile their regions, and
the live payloads are apart from each other and from the headers; and every
call ends. -/
theorem heapRun_represented {s : HeapState V} (hs : HeapReach ops s) :
    (∃ rs B, s.heap.Represented rs B ∧ LiveApart s.heap rs B s.live) ∧
      ∀ c : HeapCall, c.Legal → ∃ s', c.run ops s = some s' := by
  obtain ⟨rs, B, hk, hl⟩ := hs.inv
  refine ⟨⟨rs, B, hk.represented, hk.liveApart hl⟩, fun c hc => ?_⟩
  obtain ⟨s', hrun, _⟩ := hs.inv.call hc
  exact ⟨s', hrun⟩

/-! ## A manager that hands out one range after the other -/

/-- The next range starts where the last one ended; the state is its address. -/
def nextRange (v n : U32) : U32 × U32 :=
  if v.toNat + n.toNat * 4096 < 2 ^ 32 then (v, v + toAddr n) else (0, v)

theorem nextRange_cases (v n : U32) :
    (nextRange v n = (0, v)) ∨
      v.toNat + n.toNat * 4096 < 2 ^ 32 ∧ (nextRange v n).1 = v ∧
        (nextRange v n).2.toNat = v.toNat + n.toNat * 4096 := by
  rw [nextRange]
  split
  · next hlt =>
      refine Or.inr ⟨hlt, rfl, ?_⟩
      rw [BitVec.toNat_add, toNat_toAddr]
      omega
  · exact Or.inl rfl

/-- What was handed out ends before the next range starts; nothing is taken
back. -/
def rangeVmm : VmmOps U32 where
  alloc := fun v _ n => nextRange v n
  free := fun v _ _ => v
  Ok := fun v => v.toNat % 4096 = 0
  Given := fun v r n => rangeStop r n ≤ v.toNat
  alloc_ok := fun {v _ n} hv => by
    rcases nextRange_cases v n with heq | ⟨_, _, heq⟩
    · rw [heq]
      exact hv
    · rw [heq]
      omega
  free_ok := fun hv _ => hv
  alloc_range := fun {v _ n} hv _ h0 => by
    rcases nextRange_cases v n with heq | ⟨hlt, h1, h2⟩
    · rw [heq] at h0
      exact absurd rfl h0
    · rw [h1, h2, rangeStop]
      exact ⟨hv, Nat.le_of_lt hlt, Nat.le_refl _⟩
  alloc_apart := fun {v _ n r k} _ _ h0 hr => by
    rcases nextRange_cases v n with heq | ⟨_, h1, _⟩
    · rw [heq] at h0
      exact absurd rfl h0
    · rw [h1]
      exact Or.inl hr
  alloc_keeps := fun {v _ n r k} _ hr => by
    rcases nextRange_cases v n with heq | ⟨_, _, h2⟩
    · rw [heq]
      exact hr
    · rw [h2]
      exact Nat.le_trans hr (Nat.le_add_right _ _)
  free_keeps := fun _ _ hr _ => hr

/-- A heap over it, with nothing in memory. -/
def emptyHeap : Heap := heapInit ⟨0, 0, fun _ => ⟨0, 0, 0, 0⟩, fun _ => ⟨0, 0, 0, 0, 0, 0⟩⟩

def emptyState : HeapState U32 := ⟨emptyHeap, 0x100000, []⟩

theorem emptyState_start : HeapStart rangeVmm emptyState :=
  ⟨⟨_, rfl⟩, by show (0x100000 : U32).toNat % 4096 = 0; decide, rfl⟩

/-- Three allocations, and the second is freed. -/
def threeCalls : List HeapCall :=
  [.alloc 100 false, .alloc 400 false, .alloc 5000 false, .free 0x1000B0]

theorem threeCalls_live :
    ((threeCalls.foldlM (HeapCall.run rangeVmm) emptyState).map fun s => s.live)
    = some [(0x100250, 5000), (0x100030, 100)] := by decide +kernel

theorem heapRun_represented_three : ∃ s, HeapReach rangeVmm s ∧
    s.live = [(0x100250, 5000), (0x100030, 100)] ∧
    (∃ rs B, s.heap.Represented rs B ∧ LiveApart s.heap rs B s.live) := by
  obtain ⟨s, hrun, hlive⟩ := Option.map_eq_some_iff.mp threeCalls_live
  have hlegal : ∀ c ∈ threeCalls, c.Legal := by simp [threeCalls, HeapCall.Legal]
  have hreach : HeapReach rangeVmm s :=
    Reach.foldlM (fun c hc _ _ h => ⟨hlegal c hc, h⟩) (.start emptyState_start) hrun
  exact ⟨s, hreach, hlive, (heapRun_represented hreach).1⟩

end Tomk
