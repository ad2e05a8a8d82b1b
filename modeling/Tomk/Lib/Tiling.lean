/-
# Tilings of an interval by blocks with headers

A block is a header of a fixed width `w` and a payload after it.  `Tiled w a ts
z` says that the blocks `ts`, in this order, are exactly the interval from `a`
to `z`: each begins where the payload of the one before ends.

The edits an allocator makes keep a tiling: a block is split in two with a
header between them (`Tiled.split`), two neighbours are merged into one
(`Tiled.merge`), and whether a block is in use does not matter
(`Tiled.mark`).  `Merged` says that no two neighbours are both free; it is
what makes one merge on each side enough when a block is freed.
-/
import Mathlib.Data.List.Chain

namespace Tiling

structure Tile where
  addr : Nat
  size : Nat
  used : Bool

/-- Where the payload of a block ends. -/
def Tile.stop (w : Nat) (t : Tile) : Nat := t.addr + w + t.size

def Tiled (w : Nat) : Nat → List Tile → Nat → Prop
  | a, [], z => a = z
  | a, t :: ts, z => t.addr = a ∧ Tiled w (t.stop w) ts z

variable {w a z : Nat} {t u : Tile} {ts us pre post : List Tile}

/-! ## Where the blocks are -/

theorem tiled_append :
    Tiled w a (ts ++ us) z ↔ ∃ m, Tiled w a ts m ∧ Tiled w m us z := by
  induction ts generalizing a with
  | nil => simp [Tiled]
  | cons t ts ih => simp only [List.cons_append, Tiled, ih, and_assoc, exists_and_left]

theorem Tiled.le (h : Tiled w a ts z) : a ≤ z := by
  induction ts generalizing a with
  | nil => exact Nat.le_of_eq h
  | cons t ts ih =>
      obtain ⟨rfl, hrest⟩ := h
      have := ih hrest
      rw [Tile.stop] at this
      omega

theorem Tiled.mem (h : Tiled w a ts z) (ht : t ∈ ts) : a ≤ t.addr ∧ t.stop w ≤ z := by
  obtain ⟨pre, post, rfl⟩ := List.append_of_mem ht
  obtain ⟨m, h1, rfl, h2⟩ := tiled_append.mp h
  exact ⟨h1.le, h2.le⟩

/-- A block ends before the blocks after it start. -/
theorem Tiled.pairwise (h : Tiled w a ts z) : ts.Pairwise fun t u => t.stop w ≤ u.addr := by
  induction ts generalizing a with
  | nil => exact List.Pairwise.nil
  | cons t ts ih => exact List.Pairwise.cons (fun u hu => (h.2.mem hu).1) (ih h.2)

/-- Two blocks are the same one, or one ends before the other starts. -/
theorem Tiled.apart (h : Tiled w a ts z) (ht : t ∈ ts) (hu : u ∈ ts) :
    t = u ∨ t.stop w ≤ u.addr ∨ u.stop w ≤ t.addr := by
  obtain ⟨pre, post, rfl⟩ := List.append_of_mem ht
  have hp := List.pairwise_append.mp h.pairwise
  rcases List.mem_append.mp hu with hu | hu
  · exact Or.inr (Or.inr (hp.2.2 u hu t List.mem_cons_self))
  · rcases List.mem_cons.mp hu with rfl | hu
    · exact Or.inl rfl
    · exact Or.inr (Or.inl (List.rel_of_pairwise_cons hp.2.1 hu))

/-- Blocks of aligned sizes have aligned addresses. -/
theorem Tiled.dvd {k : Nat} (hw : k ∣ w) (ha : k ∣ a) (h : Tiled w a ts z)
    (hs : ∀ t ∈ ts, k ∣ t.size) (ht : t ∈ ts) : k ∣ t.addr := by
  induction ts generalizing a with
  | nil => cases ht
  | cons u ts ih =>
      obtain ⟨rfl, hrest⟩ := h
      rcases List.mem_cons.mp ht with rfl | ht
      · exact ha
      · refine ih ?_ hrest (fun v hv => hs v (List.mem_cons_of_mem u hv)) ht
        rw [Tile.stop]
        exact Nat.dvd_add (Nat.dvd_add ha hw) (hs u List.mem_cons_self)

/-! ## The edits -/

/-- Whether a block is in use does not matter. -/
theorem Tiled.mark (h : Tiled w a (pre ++ t :: post) z) (b : Bool) :
    Tiled w a (pre ++ { t with used := b } :: post) z := by
  obtain ⟨m, h1, h2⟩ := tiled_append.mp h
  exact tiled_append.mpr ⟨m, h1, h2⟩

theorem Tiled.split (h : Tiled w a (pre ++ t :: post) z) {n m : Nat} (hs : n + w + m = t.size)
    (b c : Bool) :
    Tiled w a (pre ++ ⟨t.addr, n, b⟩ :: ⟨t.addr + w + n, m, c⟩ :: post) z := by
  obtain ⟨k, h1, h2, h3⟩ := tiled_append.mp h
  refine tiled_append.mpr ⟨k, h1, h2, rfl, ?_⟩
  have hstop : Tile.stop w ⟨t.addr + w + n, m, c⟩ = t.stop w := by
    rw [Tile.stop, Tile.stop]
    show t.addr + w + n + w + m = _
    omega
  rw [hstop]
  exact h3

theorem Tiled.merge (h : Tiled w a (pre ++ t :: u :: post) z) (b : Bool) :
    Tiled w a (pre ++ ⟨t.addr, t.size + (w + u.size), b⟩ :: post) z := by
  obtain ⟨k, h1, h2, h3, h4⟩ := tiled_append.mp h
  refine tiled_append.mpr ⟨k, h1, h2, ?_⟩
  have hstop : Tile.stop w ⟨t.addr, t.size + (w + u.size), b⟩ = u.stop w := by
    rw [Tile.stop] at h3
    rw [Tile.stop, Tile.stop, h3]
    show t.addr + w + (t.size + (w + u.size)) = _
    omega
  rw [hstop]
  exact h4

/-- One block is a tiling. -/
theorem Tiled.one (h : t.addr = a) (hz : t.stop w = z) : Tiled w a [t] z := ⟨h, hz⟩

/-! ## No two free neighbours -/

def Merged (ts : List Tile) : Prop := ts.IsChain fun t u => t.used = true ∨ u.used = true

theorem merged_append :
    Merged (ts ++ us) ↔ Merged ts ∧ Merged us ∧
      ∀ t ∈ ts.getLast?, ∀ u ∈ us.head?, t.used = true ∨ u.used = true :=
  List.isChain_append

/-- A block in use may stand anywhere. -/
theorem merged_used (ht : t.used = true) :
    Merged (pre ++ t :: post) ↔ Merged pre ∧ Merged post := by
  have hcons : Merged (t :: post) ↔ Merged post := by
    cases post with
    | nil => exact ⟨fun _ => List.IsChain.nil, fun _ => List.IsChain.singleton t⟩
    | cons u post => exact ⟨fun h => h.of_cons, fun h => List.IsChain.cons_cons (Or.inl ht) h⟩
  rw [merged_append, hcons]
  refine ⟨fun h => ⟨h.1, h.2.1⟩, fun h => ⟨h.1, h.2, fun s _ u hu => ?_⟩⟩
  cases hu
  exact Or.inr ht

/-- A free block stands between blocks in use. -/
theorem merged_free (ht : t.used = false) :
    Merged (pre ++ t :: post) ↔ Merged pre ∧ Merged post ∧
      (∀ s ∈ pre.getLast?, s.used = true) ∧ ∀ u ∈ post.head?, u.used = true := by
  have hcons : Merged (t :: post) ↔ Merged post ∧ ∀ u ∈ post.head?, u.used = true := by
    cases post with
    | nil =>
        exact ⟨fun _ => ⟨List.IsChain.nil, fun u hu => nomatch hu⟩, fun _ => List.IsChain.singleton t⟩
    | cons u post =>
        constructor
        · intro h
          refine ⟨h.of_cons, fun v hv => ?_⟩
          cases hv
          exact h.rel.resolve_left (by rw [ht]; exact Bool.false_ne_true)
        · rintro ⟨h1, h2⟩
          exact List.IsChain.cons_cons (Or.inr (h2 u rfl)) h1
  rw [merged_append, hcons]
  constructor
  · rintro ⟨h1, ⟨h2, h3⟩, h4⟩
    refine ⟨h1, h2, fun s hs => ?_, h3⟩
    exact (h4 s hs t rfl).resolve_right (by rw [ht]; exact Bool.false_ne_true)
  · rintro ⟨h1, h2, h3, h4⟩
    exact ⟨h1, ⟨h2, h4⟩, fun s hs _ _ => Or.inl (h3 s hs)⟩

end Tiling
