/-
# The heap under preemption

`kmalloc` works on one heap for all processes, and the timer may switch to
another process at any time.  Here `heap_alloc` is taken apart into its steps,
`block_find_free`, then `block_alloc`, or `heap_grow`, `region_append` and
`block_alloc`, and the steps of any number of processes are taken in any order.
`heap_free` is one step.

A block that a search has found may be taken before it is marked: two
processes are then given the same payload (`heapPreempt_overlap`).  What is
missing is a look at the block, at the moment it is marked.  In every run whose
requests can be rounded up, and in which a block that is marked is still a free
block of its region (`HeapMove.Undisturbed`), the lists tile their regions and
the live payloads are apart (`heapPreempt_safe`).
-/
import Tomk.Mm.KheapRun

namespace Tomk

open DList Tiling Function Runs

/-! ## Processes in the middle of `heap_alloc` -/

/-- Where a process is in `heap_alloc`, with the locals it keeps. -/
inductive AllocPc where
  | idle
  /-- A block has been found; `block_alloc` is next. -/
  | found (size : U32) (contiguous : Bool) (block region : U32)
  /-- There is no suitable block; `heap_grow` is next. -/
  | missed (size : U32) (contiguous : Bool)
  /-- There is a new region; `region_append` is next. -/
  | grown (size region : U32)
  /-- The region is in the list; `block_alloc` of its head is next. -/
  | appended (size region : U32)

/-- The heap, and the processes that use it. -/
structure HeapSystem (V : Type) extends HeapState V where
  procs : Nat → AllocPc

inductive HeapMove where
  | find (p : Nat) (size : U32) (contiguous : Bool)
  | take (p : Nat)
  | grow (p : Nat)
  | append (p : Nat)
  | takeNew (p : Nat)
  | free (p : Nat) (ptr : U32)

variable {V : Type}

/-- Process `p` goes on to `pc`. -/
def HeapSystem.goto (s : HeapSystem V) (p : Nat) (pc : AllocPc) : HeapSystem V :=
  { s with procs := update s.procs p pc }

/-- Process `p` returns `ptr` from `heap_alloc`. -/
def HeapSystem.ret (s : HeapSystem V) (p : Nat) (ptr size : U32) : HeapSystem V :=
  { s with
    live := if ptr = 0 then s.live else (ptr, size) :: s.live
    procs := update s.procs p .idle }

/-- One step of one process, if that is where it is. -/
def HeapMove.run (ops : VmmOps V) (s : HeapSystem V) : HeapMove → Option (HeapSystem V)
  | .find p size contiguous =>
      match s.procs p with
      | .idle =>
          if size = 0 then some s
          else do
            match ← blockFindFree s.heap (allocSize size) contiguous with
            | some (block, region) => pure (s.goto p (.found size contiguous block region))
            | none => pure (s.goto p (.missed size contiguous))
      | _ => none
  | .take p =>
      match s.procs p with
      | .found size contiguous block region =>
          let (done, heap) := blockAlloc s.heap region block (allocSize size)
          let s := { s with heap := heap }
          some (if done then s.ret p (blockPtr block) size else s.goto p (.missed size contiguous))
      | _ => none
  | .grow p =>
      match s.procs p with
      | .missed size contiguous =>
          let (region, heap, vmm) := heapGrow ops s.heap s.vmm (allocSize size) contiguous
          let s := { s with heap := heap, vmm := vmm }
          some (if region = 0 then s.ret p 0 size else s.goto p (.grown size region))
      | _ => none
  | .append p =>
      match s.procs p with
      | .grown size region =>
          let s := { s with heap := regionAppend s.heap region }
          some (s.goto p (.appended size region))
      | _ => none
  | .takeNew p =>
      match s.procs p with
      | .appended size region =>
          let (ptr, heap) := allocFrom s.heap region (allocSize size)
          let s := { s with heap := heap }
          some (s.ret p ptr size)
      | _ => none
  | .free p ptr =>
      match s.procs p with
      | .idle => do
          let (heap, vmm) ← heapFree ops s.heap s.vmm ptr
          pure { s with heap := heap, vmm := vmm, live := s.live.filter fun a => a.1 ≠ ptr }
      | _ => none

def PreemptStart (ops : VmmOps V) (s : HeapSystem V) : Prop :=
  HeapStart ops s.toHeapState ∧ ∀ p, s.procs p = .idle

def PreemptStep (ops : VmmOps V) (m : HeapMove) (s s' : HeapSystem V) : Prop :=
  m.run ops s = some s'

def PreemptReach (ops : VmmOps V) : HeapSystem V → Prop := Reach (PreemptStart ops) (PreemptStep ops)

/-- What is asked of every state: the lists are well formed and tile their
regions, and no two live payloads overlap. -/
def HeapSystem.Safe (s : HeapSystem V) : Prop :=
  (∃ rs B, s.heap.Represented rs B) ∧
    s.live.Pairwise fun a c => Apart a.1.toNat a.2.toNat c.1.toNat c.2.toNat

/-- The property as it is asked: for every interleaving. -/
def PreemptSafe : Prop :=
  ∀ (V : Type) (ops : VmmOps V) (s : HeapSystem V), PreemptReach ops s → s.Safe

/-! ## The steps in order are `heap_alloc` -/

/-- The steps of a list, one after the other. -/
def HeapSystem.moves (ops : VmmOps V) (s : HeapSystem V) (ms : List HeapMove) :
    Option (HeapSystem V) :=
  ms.foldlM (HeapMove.run ops) s

variable {ops : VmmOps V} {s s' : HeapSystem V} {p : Nat}

theorem HeapSystem.moves_cons {m : HeapMove} {ms : List HeapMove} (h : m.run ops s = some s') :
    s.moves ops (m :: ms) = s'.moves ops ms := by
  rw [HeapSystem.moves, List.foldlM_cons, h]
  rfl

/-- The state after process `p` has returned from a call that led to `res`. -/
def HeapSystem.after (s : HeapSystem V) (p : Nat) (size : U32) (res : U32 × Heap × V) :
    HeapSystem V :=
  { s with heap := res.2.1, vmm := res.2.2 }.ret p res.1 size

/-! Each step, from a process that is there. -/

theorem run_grow {size r : U32} {c : Bool} {h : Heap} {v : V} (hp : s.procs p = .missed size c)
    (hg : heapGrow ops s.heap s.vmm (allocSize size) c = (r, h, v)) :
    (HeapMove.grow p).run ops s = some
      (if r = 0 then { s with heap := h, vmm := v }.ret p 0 size
        else { s with heap := h, vmm := v }.goto p (.grown size r)) := by
  simp only [HeapMove.run, hp, hg]

theorem run_append {size r : U32} (hp : s.procs p = .grown size r) :
    (HeapMove.append p).run ops s
      = some ({ s with heap := regionAppend s.heap r }.goto p (.appended size r)) := by
  simp only [HeapMove.run, hp]

theorem run_takeNew {size r ptr : U32} {h : Heap} (hp : s.procs p = .appended size r)
    (ha : allocFrom s.heap r (allocSize size) = (ptr, h)) :
    (HeapMove.takeNew p).run ops s = some ({ s with heap := h }.ret p ptr size) := by
  simp only [HeapMove.run, hp, ha]

theorem run_take (ops : VmmOps V) {size b r : U32} {c done : Bool} {h : Heap}
    (hp : s.procs p = .found size c b r)
    (hb : blockAlloc s.heap r b (allocSize size) = (done, h)) :
    (HeapMove.take p).run ops s = some
      (if done then { s with heap := h }.ret p (blockPtr b) size
        else { s with heap := h }.goto p (.missed size c)) := by
  simp only [HeapMove.run, hp, hb]

theorem run_find (ops : VmmOps V) {size : U32} {c : Bool} {found : Option (U32 × U32)}
    (hp : s.procs p = .idle) (h0 : size ≠ 0) (hf : blockFindFree s.heap (allocSize size) c = some found) :
    (HeapMove.find p size c).run ops s = some (s.goto p
      (match found with
        | some (block, region) => .found size c block region
        | none => .missed size c)) := by
  cases found with
  | none => simp only [HeapMove.run, hp, if_neg h0, hf, Option.bind_eq_bind, Option.bind_some,
      Option.pure_def]
  | some _ => simp only [HeapMove.run, hp, if_neg h0, hf, Option.bind_eq_bind, Option.bind_some,
      Option.pure_def]

theorem HeapSystem.after_goto (s : HeapSystem V) (p : Nat) (pc : AllocPc) (size : U32)
    (res : U32 × Heap × V) : (s.goto p pc).after p size res = s.after p size res := by
  simp only [HeapSystem.after, HeapSystem.ret, HeapSystem.goto, update_idem]

/-- A process that has found no block goes on alone. -/
theorem allocNew_moves (ops : VmmOps V) {size : U32} {c : Bool} (hp : s.procs p = .missed size c) :
    ∃ ms, s.moves ops ms
      = some (s.after p size (allocNew ops s.heap s.vmm (allocSize size) c)) := by
  rcases hg : heapGrow ops s.heap s.vmm (allocSize size) c with ⟨r, h, v⟩
  have hgrow := run_grow hp hg
  by_cases hr : r = 0
  · rw [if_pos hr] at hgrow
    refine ⟨[.grow p], (HeapSystem.moves_cons hgrow).trans ?_⟩
    simp only [allocNew, hg, if_pos hr]
    rfl
  · rw [if_neg hr] at hgrow
    rcases ha : allocFrom (regionAppend h r) r (allocSize size) with ⟨ptr, h'⟩
    refine ⟨[.grow p, .append p, .takeNew p], (HeapSystem.moves_cons hgrow).trans
      ((HeapSystem.moves_cons (run_append (update_self _ _ _))).trans
        ((HeapSystem.moves_cons (run_takeNew (update_self _ _ _) ha)).trans ?_))⟩
    simp only [allocNew, hg, if_neg hr, ha, HeapSystem.after, HeapSystem.ret, HeapSystem.goto,
      update_idem]
    rfl

/-- **A process that is not interrupted** runs `heap_alloc`. -/
theorem heapAlloc_moves {size : U32} {c : Bool} {res : U32 × Heap × V} (hp : s.procs p = .idle)
    (h0 : size ≠ 0) (hrun : heapAlloc ops s.heap s.vmm size c = some res) :
    ∃ ms, s.moves ops ms = some (s.after p size res) := by
  simp only [heapAlloc, if_neg h0, Option.bind_eq_bind, Option.bind_eq_some_iff] at hrun
  obtain ⟨found, hfind, hrun⟩ := hrun
  have hmove := run_find ops hp h0 hfind
  cases found with
  | none =>
      cases hrun
      obtain ⟨ms, hms⟩ := allocNew_moves ops (s := s.goto p (.missed size c))
        (update_self _ _ _)
      refine ⟨.find p size c :: ms, (HeapSystem.moves_cons hmove).trans (hms.trans ?_)⟩
      rw [HeapSystem.after_goto]
      rfl
  | some found =>
      obtain ⟨b, r⟩ := found
      rcases hb : blockAlloc s.heap r b (allocSize size) with ⟨done, h⟩
      simp only [hb] at hrun
      have htake := run_take ops (s := s.goto p (.found size c b r)) (update_self _ _ _) hb
      cases done with
      | true =>
          cases hrun
          refine ⟨[.find p size c, .take p], (HeapSystem.moves_cons hmove).trans
            ((HeapSystem.moves_cons htake).trans ?_)⟩
          simp only [HeapSystem.after, HeapSystem.ret, HeapSystem.goto, update_idem]
          rfl
      | false =>
          cases hrun
          obtain ⟨ms, hms⟩ := allocNew_moves ops
            (s := { s.goto p (.found size c b r) with heap := h }.goto p (.missed size c))
            (update_self _ _ _)
          refine ⟨.find p size c :: .take p :: ms, (HeapSystem.moves_cons hmove).trans
            ((HeapSystem.moves_cons htake).trans (hms.trans ?_))⟩
          simp only [HeapSystem.after, HeapSystem.ret, HeapSystem.goto, update_idem]

/-! ## Undisturbed runs -/

/-- The block is a free block, in the list of the region, which is in the list
of the heap. -/
def Heap.Current (h : Heap) (region block : U32) : Prop :=
  blockFind h (blockPtr block) = some (some (block, region)) ∧ ¬ (h.blocks block).Used

instance (h : Heap) (region block : U32) : Decidable (h.Current region block) :=
  inferInstanceAs (Decidable (_ ∧ _))

/-- `block_alloc` marks a block that is free, or none. -/
def Heap.Markable (h : Heap) (region block size : U32) : Prop :=
  h.Current region block ∨ (h.blocks block).size < allocSize size

instance (h : Heap) (region block size : U32) : Decidable (h.Markable region block size) :=
  inferInstanceAs (Decidable (_ ∨ _))

/-- The block that the process is about to mark may be marked. -/
def AllocPc.Markable (h : Heap) : AllocPc → Prop
  | .found size _ block region => h.Markable region block size
  | .appended size region => h.Markable region (h.regions region).head size
  | _ => True

/-- The request can be rounded up; and the block that a step of `block_alloc`
marks may be marked. -/
def HeapMove.Undisturbed : HeapMove → HeapSystem V → Prop
  | .find _ size _, _ => size.toNat ≤ 0xFFFFFFF0
  | .take p, s => (s.procs p).Markable s.heap
  | .takeNew p, s => (s.procs p).Markable s.heap
  | _, _ => True

instance (h : Heap) : (pc : AllocPc) → Decidable (pc.Markable h)
  | .found size _ block region => inferInstanceAs (Decidable (h.Markable region block size))
  | .appended size region =>
      inferInstanceAs (Decidable (h.Markable region (h.regions region).head size))
  | .idle | .missed .. | .grown .. => inferInstanceAs (Decidable True)

instance : (m : HeapMove) → (s : HeapSystem V) → Decidable (m.Undisturbed s)
  | .find _ size _, _ => inferInstanceAs (Decidable (size.toNat ≤ 0xFFFFFFF0))
  | .take p, s => inferInstanceAs (Decidable ((s.procs p).Markable s.heap))
  | .takeNew p, s => inferInstanceAs (Decidable ((s.procs p).Markable s.heap))
  | .grow _, _ | .append _, _ | .free .., _ => inferInstanceAs (Decidable True)

/-- The region is not in the list yet. -/
def AllocPc.Pending : AllocPc → U32 → Prop
  | .grown _ region, r => region = r
  | _, _ => False

/-- The size of the request can be rounded up. -/
def AllocPc.SizeOk : AllocPc → Prop
  | .idle => True
  | .found size _ _ _ | .missed size _ | .grown size _ | .appended size _ =>
      size ≠ 0 ∧ size.toNat ≤ 0xFFFFFFF0

def HeapSystem.Pending (s : HeapSystem V) (r : U32) : Prop := ∃ p, (s.procs p).Pending r

/-- The invariant of the undisturbed runs. -/
structure HeapSystem.Inv (ops : VmmOps V) (s : HeapSystem V) : Prop where
  heap : ∃ rs B, HeapOk false ops s.heap s.vmm rs s.Pending B ∧ LiveOk s.heap rs B s.live
  sizes : ∀ p, (s.procs p).SizeOk
  single : ∀ p q r, (s.procs p).Pending r → (s.procs q).Pending r → p = q

/-- The other processes are where they were. -/
theorem goto_procs {procs : Nat → AllocPc} {P : AllocPc → Prop} {pc : AllocPc}
    (h : ∀ q, P (procs q)) (hpc : P pc) (q : Nat) : P (update procs p pc q) := by
  by_cases hq : q = p
  · rw [hq, update_self]
    exact hpc
  · rw [update_of_ne hq]
    exact h q

/-- A process that holds no pending region goes on to where it holds none. -/
theorem HeapSystem.Inv.quiet {pc : AllocPc} {h : Heap} {v : V} {ls : List (U32 × U32)}
    (hi : s.Inv ops) (hold : ∀ r, ¬ (s.procs p).Pending r) (hnew : ∀ r, ¬ pc.Pending r)
    (hsize : pc.SizeOk)
    (hheap : ∃ rs B, HeapOk false ops h v rs s.Pending B ∧ LiveOk h rs B ls) :
    HeapSystem.Inv ops ⟨⟨h, v, ls⟩, update s.procs p pc⟩ := by
  have hsame : ∀ q r, (update s.procs p pc q).Pending r ↔ (s.procs q).Pending r := by
    intro q r
    by_cases hq : q = p
    · rw [hq, update_self]
      exact ⟨fun hc => absurd hc (hnew r), fun hc => absurd hc (hold r)⟩
    · rw [update_of_ne hq]
  have hps : HeapSystem.Pending ⟨⟨h, v, ls⟩, update s.procs p pc⟩ = s.Pending :=
    funext fun r => propext (exists_congr fun q => hsame q r)
  refine ⟨?_, goto_procs hi.sizes hsize, fun q q' r hq hq' => ?_⟩
  · rw [hps]
    exact hheap
  · exact hi.single q q' r ((hsame q r).mp hq) ((hsame q' r).mp hq')

/-- `block_alloc` of a block that may be marked. -/
theorem HeapOk.mark_live {h : Heap} {v : V} {rs : List U32} {ps : U32 → Prop} {B : U32 → List U32}
    {ls : List (U32 × U32)} {r b size : U32} (hk : HeapOk false ops h v rs ps B) (hl : LiveOk h rs B ls)
    (h0 : size ≠ 0) (hs : size.toNat ≤ 0xFFFFFFF0) (hm : h.Markable r b size) :
    blockAlloc h r b (allocSize size) = (false, h) ∨
      ∃ h' B', blockAlloc h r b (allocSize size) = (true, h') ∧ blockPtr b ≠ 0 ∧
        HeapOk false ops h' v rs ps B' ∧ LiveOk h' rs B' ((blockPtr b, size) :: ls) := by
  by_cases hlt : (h.blocks b).size < allocSize size
  · exact Or.inl (blockAlloc_small hlt)
  · obtain ⟨hfind, hfree⟩ := hm.resolve_right hlt
    obtain ⟨hn0, hn, hmn, _⟩ := allocSize_spec h0 hs
    rcases hk.blockFind_cases (blockPtr b) with ⟨hrun, _⟩ | ⟨r', hr, b', hb, _, hrun⟩
    · rw [hfind] at hrun
      cases hrun
    · rw [hfind] at hrun
      cases hrun
      obtain ⟨h', B', ha, hk', hl'⟩ :=
        hk.blockAlloc_live hl hr hb hfree (fun _ => hn0) hn hmn (BitVec.not_lt.mp hlt)
      exact Or.inr ⟨h', B', ha, (hk.region r (Or.inl hr)).blockPtr_ne hb, hk', hl'⟩

theorem HeapSystem.Inv.find {size : U32} {c : Bool} (hi : s.Inv ops)
    (hs : size.toNat ≤ 0xFFFFFFF0) (hstep : (HeapMove.find p size c).run ops s = some s') :
    s'.Inv ops := by
  cases hp : s.procs p with
  | idle =>
      by_cases h0 : size = 0
      · simp only [HeapMove.run, hp, if_pos h0] at hstep
        cases hstep
        exact hi
      have hold : ∀ r, ¬ (s.procs p).Pending r := fun r => by
        rw [hp]
        exact id
      cases hf : blockFindFree s.heap (allocSize size) c with
      | none =>
          simp only [HeapMove.run, hp, if_neg h0, hf] at hstep
          cases hstep
      | some found =>
          rw [run_find ops hp h0 hf] at hstep
          cases hstep
          refine hi.quiet hold ?_ ?_ hi.heap
          · cases found <;> exact fun _ => id
          · cases found <;> exact ⟨h0, hs⟩
  | found | missed | grown | appended =>
      simp only [HeapMove.run, hp] at hstep
      cases hstep

theorem HeapSystem.Inv.take (hi : s.Inv ops) (hm : (s.procs p).Markable s.heap)
    (hstep : (HeapMove.take p).run ops s = some s') : s'.Inv ops := by
  cases hp : s.procs p with
  | found size c b r =>
      have hsize := hi.sizes p
      rw [hp] at hsize hm
      have hold : ∀ r, ¬ (s.procs p).Pending r := fun r => by
        rw [hp]
        exact id
      obtain ⟨rs, B, hk, hl⟩ := hi.heap
      rcases hk.mark_live hl hsize.1 hsize.2 hm with
        ha | ⟨h', B', ha, hptr, hk', hl'⟩
      · rw [run_take ops hp ha] at hstep
        cases hstep
        exact hi.quiet hold (fun _ => id) hsize hi.heap
      · rw [run_take ops hp ha] at hstep
        cases hstep
        refine hi.quiet hold (fun _ => id) trivial ⟨rs, B', hk', ?_⟩
        rw [if_neg hptr]
        exact hl'
  | idle | missed | grown | appended =>
      simp only [HeapMove.run, hp] at hstep
      cases hstep

theorem HeapSystem.Inv.takeNew (hi : s.Inv ops) (hm : (s.procs p).Markable s.heap)
    (hstep : (HeapMove.takeNew p).run ops s = some s') : s'.Inv ops := by
  cases hp : s.procs p with
  | appended size r =>
      have hsize := hi.sizes p
      rw [hp] at hsize hm
      have hold : ∀ r, ¬ (s.procs p).Pending r := fun r => by
        rw [hp]
        exact id
      obtain ⟨rs, B, hk, hl⟩ := hi.heap
      rcases hk.mark_live hl hsize.1 hsize.2 hm with ha | ⟨h', B', ha, hptr, hk', hl'⟩
      · have hfrom : allocFrom s.heap r (allocSize size) = (0, s.heap) := by
          simp only [allocFrom, ha, Bool.false_eq_true, if_false]
        rw [run_takeNew hp hfrom] at hstep
        cases hstep
        exact hi.quiet hold (fun _ => id) trivial hi.heap
      · have hfrom : allocFrom s.heap r (allocSize size)
            = (blockPtr (s.heap.regions r).head, h') := by
          simp only [allocFrom, ha, if_true]
        rw [run_takeNew hp hfrom] at hstep
        cases hstep
        refine hi.quiet hold (fun _ => id) trivial ⟨rs, B', hk', ?_⟩
        rw [if_neg hptr]
        exact hl'
  | idle | found | missed | grown =>
      simp only [HeapMove.run, hp] at hstep
      cases hstep

theorem HeapSystem.Inv.grow (hi : s.Inv ops) (hstep : (HeapMove.grow p).run ops s = some s') :
    s'.Inv ops := by
  cases hp : s.procs p with
  | missed size c =>
      have hsize := hi.sizes p
      rw [hp] at hsize
      have hold : ∀ r, ¬ (s.procs p).Pending r := fun r => by
        rw [hp]
        exact id
      obtain ⟨rs, B, hk, hl⟩ := hi.heap
      rcases hk.grow (allocSize size) c with ⟨v', hg, hk'⟩ | ⟨r, h', v', hg, hr0, hnew, hk', _, hblk⟩
      · rw [run_grow hp hg, if_pos rfl] at hstep
        cases hstep
        exact hi.quiet hold (fun _ => id) trivial ⟨rs, B, hk', hl⟩
      · rw [run_grow hp hg, if_neg hr0] at hstep
        cases hstep
        have hpend : ∀ q x, (update s.procs p (.grown size r) q).Pending x ↔
            (q = p ∧ r = x) ∨ (s.procs q).Pending x := by
          intro q x
          by_cases hq : q = p
          · rw [hq, update_self]
            exact ⟨fun hx => Or.inl ⟨rfl, hx⟩, fun hx => hx.elim And.right fun hx => (hold x hx).elim⟩
          · rw [update_of_ne hq]
            exact ⟨Or.inr, fun hx => hx.resolve_left fun hc => hq hc.1⟩
        have hps : (fun x => x = r ∨ s.Pending x)
            = HeapSystem.Pending ⟨⟨h', v', s.live⟩, update s.procs p (.grown size r)⟩ := by
          funext x
          refine propext ⟨?_, ?_⟩
          · rintro (rfl | ⟨q, hq⟩)
            · exact ⟨p, (hpend p x).mpr (Or.inl ⟨rfl, rfl⟩)⟩
            · exact ⟨q, (hpend q x).mpr (Or.inr hq)⟩
          · rintro ⟨q, hq⟩
            exact ((hpend q x).mp hq).imp (fun hx => hx.2.symm) fun hx => ⟨q, hx⟩
        rw [hps] at hk'
        refine ⟨⟨rs, _, hk', hl.grown hnew hblk⟩, goto_procs hi.sizes hsize, fun q q' x hq hq' => ?_⟩
        -- the region is new: no other process holds it
        rcases (hpend q x).mp hq with ⟨rfl, rfl⟩ | h1 <;>
          rcases (hpend q' _).mp hq' with ⟨rfl, h2⟩ | h2
        · rfl
        · exact absurd (Or.inr ⟨q', h2⟩) hnew
        · rw [← h2] at h1
          exact absurd (Or.inr ⟨q, h1⟩) hnew
        · exact hi.single q q' x h1 h2
  | idle | found | grown | appended =>
      simp only [HeapMove.run, hp] at hstep
      cases hstep

theorem HeapSystem.Inv.append (hi : s.Inv ops) (hstep : (HeapMove.append p).run ops s = some s') :
    s'.Inv ops := by
  cases hp : s.procs p with
  | grown size r =>
      have hsize := hi.sizes p
      rw [hp] at hsize
      have hpr : (s.procs p).Pending r := by
        rw [hp]
        exact rfl
      obtain ⟨rs, B, hk, hl⟩ := hi.heap
      obtain ⟨hk', l⟩ := hk.append ⟨p, hpr⟩
      rw [run_append hp] at hstep
      cases hstep
      have hpend : ∀ q x, (update s.procs p (.appended size r) q).Pending x ↔
          q ≠ p ∧ (s.procs q).Pending x := by
        intro q x
        by_cases hq : q = p
        · rw [hq, update_self]
          exact ⟨False.elim, fun hx => hx.1 rfl⟩
        · rw [update_of_ne hq]
          exact ⟨fun hx => ⟨hq, hx⟩, And.right⟩
      have hps : (fun x => s.Pending x ∧ x ≠ r)
          = HeapSystem.Pending ({ s with heap := regionAppend s.heap r }.goto p (.appended size r)) := by
        funext x
        refine propext ⟨?_, ?_⟩
        · rintro ⟨⟨q, hq⟩, hx⟩
          refine ⟨q, (hpend q x).mpr ⟨?_, hq⟩⟩
          rintro rfl
          rw [hp] at hq
          exact hx hq.symm
        · rintro ⟨q, hq⟩
          obtain ⟨hne, hqx⟩ := (hpend q x).mp hq
          refine ⟨⟨q, hqx⟩, ?_⟩
          rintro rfl
          exact hne (hi.single q p x hqx hpr)
      rw [hps] at hk'
      refine ⟨⟨rs ++ [r], B, hk', hl.append l⟩, goto_procs hi.sizes hsize, fun q q' x hq hq' => ?_⟩
      exact hi.single q q' x ((hpend q x).mp hq).2 ((hpend q' x).mp hq').2
  | idle | found | missed | appended =>
      simp only [HeapMove.run, hp] at hstep
      cases hstep

theorem HeapSystem.Inv.free {ptr : U32} (hi : s.Inv ops)
    (hstep : (HeapMove.free p ptr).run ops s = some s') : s'.Inv ops := by
  cases hp : s.procs p with
  | idle =>
      obtain ⟨rs, B, hk, hl⟩ := hi.heap
      obtain ⟨h', v', rs', B', hf, hk', hl'⟩ := hk.heapFree_live hl ptr
      simp only [HeapMove.run, hp, hf, Option.bind_eq_bind, Option.bind_some, Option.pure_def] at hstep
      cases hstep
      exact ⟨⟨rs', B', hk', hl'⟩, hi.sizes, hi.single⟩
  | found | missed | grown | appended =>
      simp only [HeapMove.run, hp] at hstep
      cases hstep

/-- **One step** keeps the invariant, if it is not disturbed. -/
theorem HeapSystem.Inv.step {m : HeapMove} (hi : s.Inv ops) (hm : m.Undisturbed s)
    (hstep : m.run ops s = some s') : s'.Inv ops := by
  cases m with
  | find p size c => exact hi.find hm hstep
  | take p => exact hi.take hm hstep
  | grow p => exact hi.grow hstep
  | append p => exact hi.append hstep
  | takeNew p => exact hi.takeNew hm hstep
  | free p ptr => exact hi.free hstep

theorem PreemptStart.inv (h : PreemptStart ops s) : s.Inv ops := by
  obtain ⟨hstart, hidle⟩ := h
  obtain ⟨rs, B, hk, hl⟩ := hstart.inv
  have hno : ∀ q r, ¬ (s.procs q).Pending r := fun q r => by
    rw [hidle q]
    exact id
  have hps : s.Pending = NoPending :=
    funext fun r => propext ⟨fun ⟨q, hq⟩ => hno q r hq, False.elim⟩
  refine ⟨⟨rs, B, ?_, hl⟩, fun q => ?_, fun q _ r hq _ => absurd hq (hno q r)⟩
  · rw [hps]
    exact hk
  · rw [hidle q]
    trivial

/-- **Undisturbed runs are safe.**  In every state that is reached by steps of
any number of processes, in any order, whose requests can be rounded up and
whose `block_alloc` marks a free block of its region or none, the lists tile
their regions and the live payloads are apart. -/
theorem heapPreempt_safe
    (h : Reach (PreemptStart ops) (Guarded HeapMove.Undisturbed (PreemptStep ops)) s) : s.Safe := by
  have hi := Reach.invariant (HeapSystem.Inv ops) (fun _ hs => hs.inv)
    (fun _ _ _ hi hstep => hi.step hstep.1 hstep.2) h
  obtain ⟨rs, B, hk, hl⟩ := hi.heap
  exact ⟨⟨rs, B, hk.represented⟩, (hk.liveApart hl).apart⟩

/-! ## Runs of two processes -/

/-- Nobody is in the middle of a call. -/
def emptySystem : HeapSystem U32 := ⟨emptyState, fun _ => .idle⟩

theorem emptySystem_start : PreemptStart rangeVmm emptySystem := ⟨emptyState_start, fun _ => rfl⟩

/-- A step that is not disturbed. -/
def HeapMove.runUndisturbed (ops : VmmOps V) (s : HeapSystem V) (m : HeapMove) :
    Option (HeapSystem V) :=
  if m.Undisturbed s then m.run ops s else none

/-- Two processes that grow the heap at the same time. -/
def twoGrow : List HeapMove :=
  [.find 0 16 false, .find 1 100 true, .grow 0, .grow 1, .append 1, .append 0, .takeNew 0,
    .takeNew 1]

theorem twoGrow_live :
    ((twoGrow.foldlM (HeapMove.runUndisturbed rangeVmm) emptySystem).map fun s => s.live)
      = some [(0x110030, 100), (0x100030, 16)] := by decide +kernel

theorem heapPreempt_safe_two : ∃ s : HeapSystem U32,
    Reach (PreemptStart rangeVmm) (Guarded HeapMove.Undisturbed (PreemptStep rangeVmm)) s ∧
      s.live = [(0x110030, 100), (0x100030, 16)] ∧ s.Safe := by
  obtain ⟨s, hrun, hlive⟩ := Option.map_eq_some_iff.mp twoGrow_live
  have hreach : Reach (PreemptStart rangeVmm)
      (Guarded HeapMove.Undisturbed (PreemptStep rangeVmm)) s := by
    refine Reach.foldlM (fun m _ t t' h => ?_) (.start emptySystem_start) hrun
    rw [HeapMove.runUndisturbed] at h
    split at h
    · next hm => exact ⟨hm, h⟩
    · cases h
  exact ⟨s, hreach, hlive, heapPreempt_safe hreach⟩

/-- Process 0 allocates 16 bytes alone; then 0 and 1 ask for 100 bytes, and both
find the rest of the region. -/
def samePick : List HeapMove :=
  [.find 0 16 false, .grow 0, .append 0, .takeNew 0, .find 0 100 false, .find 1 100 false, .take 0,
    .take 1]

theorem samePick_live : ((emptySystem.moves rangeVmm samePick).map fun s => s.live)
    = some [(0x100050, 100), (0x100050, 100), (0x100030, 16)] := by decide +kernel

/-- **Two live allocations share one payload.** -/
theorem heapPreempt_overlap : ¬ PreemptSafe := by
  intro hsafe
  obtain ⟨s, hrun, hlive⟩ := Option.map_eq_some_iff.mp samePick_live
  have hreach : PreemptReach rangeVmm s :=
    Reach.foldlM (fun _ _ _ _ h => h) (.start emptySystem_start) hrun
  have hpair := (hsafe U32 rangeVmm s hreach).2
  rw [hlive] at hpair
  exact absurd hpair (by simp [Apart])

end Tomk
