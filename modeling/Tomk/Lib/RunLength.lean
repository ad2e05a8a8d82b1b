/-
# Run-length encoding in one pass

A sequence is cut into runs.  `shift k a` is what stands `k` places behind `a` inside of a run: `a`
itself in the usual encoding, and here whatever a run lets it become.  The pass keeps the run that
it is in; where the next value is not what would go on with it, the run is put out and another one
begins.  The last run is put out after the pass.

Runs may be left out.  Where all values of a run are kept or none is, the runs that are put out
have for their cells the values of the sequence that are kept, each once and in order
(`encode_cells`).  What a run covers follows from that.
-/
import Tomk.Lib.Loop
import Mathlib.Data.List.Nodup
import Mathlib.Data.List.Range

namespace RunLength

/-- `count` values, from `value` at the place `start` on. -/
structure Run (α : Type) where
  start : Nat
  value : α
  count : Nat

/-- The runs that have been put out, the oldest first, and the one that the pass is in. -/
structure Pass (α : Type) where
  rows : List (Run α)
  last : Run α

variable {α : Type} (shift : Nat → α → α) (keep : α → Bool) (f : Nat → α)

/-- The places of a run, with their values. -/
def Run.cells (r : Run α) : List (Nat × α) :=
  (List.range r.count).map fun k => (r.start + k, shift k r.value)

def Run.Covers (r : Run α) (i : Nat) : Prop := r.start ≤ i ∧ i < r.start + r.count

/-! ## The pass -/

/-- The runs, with the one that the pass is in. -/
def Pass.emit (s : Pass α) : List (Run α) :=
  if keep s.last.value then s.rows ++ [s.last] else s.rows

def turn [DecidableEq α] (i : Nat) (s : Pass α) : Pass α :=
  if shift s.last.count s.last.value = f i then
    { s with last := { s.last with count := s.last.count + 1 } }
  else ⟨s.emit keep, ⟨i, f i, 1⟩⟩

/-- Before the first place, in a run of none. -/
def begin : Pass α := ⟨[], ⟨0, f 0, 0⟩⟩

def encode [DecidableEq α] (n : Nat) : List (Run α) :=
  (CFor.iter (turn shift keep f) 0 n (begin f)).emit keep

/-- The places before `n` whose values are kept. -/
def kept (n : Nat) : List (Nat × α) :=
  ((List.range n).map fun i => (i, f i)).filter fun c => keep c.2

/-! ## Cells -/

variable {shift keep f} {r q : Run α} {rows : List (Run α)} {i j k n : Nat} {a : α}

theorem Run.mem_cells :
    (i, a) ∈ r.cells shift ↔ r.Covers i ∧ a = shift (i - r.start) r.value := by
  rw [Run.cells, List.mem_map, Run.Covers]
  constructor
  · rintro ⟨k, hk, heq⟩
    cases heq
    rw [Nat.add_sub_cancel_left]
    exact ⟨⟨Nat.le_add_right _ _, Nat.add_lt_add_left (List.mem_range.mp hk) _⟩, rfl⟩
  · rintro ⟨⟨hle, hlt⟩, rfl⟩
    exact ⟨i - r.start, List.mem_range.mpr (by omega), by rw [Nat.add_sub_cancel' hle]⟩

theorem Run.Covers.mem_places (h : r.Covers i) : i ∈ (r.cells shift).map Prod.fst :=
  List.mem_map.mpr ⟨_, Run.mem_cells.mpr ⟨h, rfl⟩, rfl⟩

/-- A run that goes on. -/
theorem Run.cells_succ (r : Run α) :
    Run.cells shift { r with count := r.count + 1 }
      = r.cells shift ++ [(r.start + r.count, shift r.count r.value)] := by
  rw [Run.cells, List.range_succ, List.map_append]
  rfl

theorem Run.cells_one (h0 : ∀ a, shift 0 a = a) (i : Nat) (a : α) :
    Run.cells shift ⟨i, a, 1⟩ = [(i, a)] := by
  show [(i + 0, shift 0 a)] = [(i, a)]
  rw [h0, Nat.add_zero]

theorem mem_kept : (i, a) ∈ kept keep f n ↔ i < n ∧ a = f i ∧ keep (f i) = true := by
  rw [kept, List.mem_filter, List.mem_map]
  constructor
  · rintro ⟨⟨k, hk, heq⟩, hkeep⟩
    cases heq
    exact ⟨List.mem_range.mp hk, rfl, hkeep⟩
  · rintro ⟨hi, rfl, hkeep⟩
    exact ⟨⟨i, List.mem_range.mpr hi, rfl⟩, hkeep⟩

theorem kept_succ (n : Nat) :
    kept keep f (n + 1) = kept keep f n ++ if keep (f n) then [(n, f n)] else [] := by
  rw [kept, kept, List.range_succ, List.map_append, List.filter_append, List.map_singleton,
    List.filter_singleton, cond_eq_ite]

/-- No place is there twice. -/
theorem nodup_kept : ((kept keep f n).map Prod.fst).Nodup := by
  have hall : (((List.range n).map fun i => (i, f i)).map Prod.fst).Nodup := by
    rw [List.map_map, show Prod.fst ∘ (fun i => (i, f i)) = id from rfl, List.map_id]
    exact List.nodup_range
  exact hall.sublist (List.filter_sublist.map _)

/-! ## What is covered -/

theorem covers_unique (h : ((rows.flatMap (Run.cells shift)).map Prod.fst).Nodup)
    (hj : rows[j]? = some r) (hk : rows[k]? = some q) (hr : r.Covers i) (hq : q.Covers i) :
    j = k := by
  rw [List.map_flatMap, List.nodup_flatMap] at h
  have hpair := List.pairwise_iff_getElem.mp h.2
  obtain ⟨hj', rfl⟩ := List.getElem?_eq_some_iff.mp hj
  obtain ⟨hk', rfl⟩ := List.getElem?_eq_some_iff.mp hk
  rcases Nat.lt_trichotomy j k with hlt | heq | hgt
  · exact absurd hq.mem_places (hpair j k hj' hk' hlt hr.mem_places)
  · exact heq
  · exact absurd hr.mem_places (hpair k j hk' hj' hgt hq.mem_places)

theorem covers_iff (h : rows.flatMap (Run.cells shift) = kept keep f n) :
    (∃ r ∈ rows, r.Covers i) ↔ i < n ∧ keep (f i) = true := by
  constructor
  · rintro ⟨r, hr, hi⟩
    have hmem : (i, shift (i - r.start) r.value) ∈ kept keep f n :=
      h ▸ List.mem_flatMap.mpr ⟨r, hr, Run.mem_cells.mpr ⟨hi, rfl⟩⟩
    obtain ⟨hlt, -, hkeep⟩ := mem_kept.mp hmem
    exact ⟨hlt, hkeep⟩
  · rintro ⟨hlt, hkeep⟩
    have hmem : (i, f i) ∈ rows.flatMap (Run.cells shift) := h ▸ mem_kept.mpr ⟨hlt, rfl, hkeep⟩
    obtain ⟨r, hr, hi⟩ := List.mem_flatMap.mp hmem
    exact ⟨r, hr, (Run.mem_cells.mp hi).1⟩

/-- A place that is covered has its own value. -/
theorem covers_value (h : rows.flatMap (Run.cells shift) = kept keep f n) (hr : r ∈ rows)
    (hi : r.Covers i) : shift (i - r.start) r.value = f i := by
  have hmem : (i, shift (i - r.start) r.value) ∈ kept keep f n :=
    h ▸ List.mem_flatMap.mpr ⟨r, hr, Run.mem_cells.mpr ⟨hi, rfl⟩⟩
  exact (mem_kept.mp hmem).2.1

/-! ## What the pass keeps -/

theorem flatMap_emit (s : Pass α) :
    (s.emit keep).flatMap (Run.cells shift)
      = s.rows.flatMap (Run.cells shift) ++ if keep s.last.value then s.last.cells shift else [] := by
  rw [Pass.emit]
  split
  · rw [List.flatMap_append, List.flatMap_singleton]
  · rw [List.append_nil]

/-- Before the place `i`. -/
structure Pass.Before (shift : Nat → α → α) (keep : α → Bool) (f : Nat → α) (i : Nat)
    (s : Pass α) : Prop where
  cells : (s.emit keep).flatMap (Run.cells shift) = kept keep f i
  next : s.last.start + s.last.count = i

theorem begin_before : (begin f).Before shift keep f 0 := by
  refine ⟨?_, rfl⟩
  rw [flatMap_emit]
  exact ite_self _

variable [DecidableEq α]

theorem Pass.Before.turn {s : Pass α} (h : s.Before shift keep f i) (h0 : ∀ a, shift 0 a = a)
    (hkeep : ∀ k a, keep (shift k a) = keep a) :
    (turn shift keep f i s).Before shift keep f (i + 1) := by
  have hcells := h.cells
  unfold RunLength.turn
  split
  · next hon =>
      -- the value that goes on with the run is kept if the run is
      constructor
      · rw [flatMap_emit] at hcells ⊢
        rw [kept_succ, ← hcells, List.append_assoc, ← hon, hkeep]
        split
        · rw [Run.cells_succ, h.next]
        · rfl
      · exact (Nat.add_assoc _ _ _).symm.trans (congrArg (· + 1) h.next)
  · refine ⟨?_, rfl⟩
    rw [flatMap_emit, kept_succ, hcells, Run.cells_one h0]

/-- **The runs are decoded** to what is kept of the sequence. -/
theorem encode_cells (h0 : ∀ a, shift 0 a = a) (hkeep : ∀ k a, keep (shift k a) = keep a)
    (n : Nat) : (encode shift keep f n).flatMap (Run.cells shift) = kept keep f n := by
  have hrun := CFor.iter_inv (f := RunLength.turn shift keep f) (n := n)
    (fun i s => s.Before shift keep f i) begin_before
    fun i s _ _ hs => hs.turn h0 hkeep
  rw [Nat.zero_add] at hrun
  exact hrun.cells

end RunLength
