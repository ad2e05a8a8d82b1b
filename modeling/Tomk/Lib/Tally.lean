/-
# A bitmap and the two counters kept next to it

An allocator that keeps the number of its clear bits and of its set bits in
two machine words has to move them along with the bits.  `Tally` is the
three together, `Tally.Counts` the invariant, and `take` and `give` the two
operations on a run of bits.

`Tally.Marked v` relates the states before and after a loop that gives every
page of a range one value and skips the pages that have it already: the
refinement of such a loop, one turn at a time (`Marked.skip`,
`Marked.step`).
-/
import Tomk.Lib.WordBits

namespace WordBits

structure Tally (w k : Nat) where
  bits : Words w
  free : BitVec k
  used : BitVec k

variable {w k : Nat}

/-- The first counter is the number of clear bits below `n`. -/
def Tally.Counts (t : Tally w k) (n : Nat) : Prop := t.free.toNat = clearCount t.bits n

def Tally.take (t : Tally w k) (p : Nat) (n : BitVec k) : Tally w k :=
  ⟨setRun t.bits p n.toNat, t.free - n, t.used + n⟩

def Tally.give (t : Tally w k) (p : Nat) (n : BitVec k) : Tally w k :=
  ⟨clearRun t.bits p n.toNat, t.free + n, t.used - n⟩

/-- `t` is `s` with the bits `lo ≤ q < hi` below `n` given the value `v`, and
the counters moved along. -/
structure Tally.Marked (v : Bool) (n : Nat) (s t : Tally w k) (lo hi : Nat) : Prop where
  bits : ∀ q, test t.bits q = if lo ≤ q ∧ q < hi ∧ q < n then v else test s.bits q
  counted : s.Counts n → t.Counts n
  sum : t.free + t.used = s.free + s.used

section Width
variable [NeZero w] {s t : Tally w k} {v : Bool} {n lo hi : Nat}

/-- Giving back the run that was just taken undoes it. -/
theorem Tally.give_take {p : Nat} {c : BitVec k} (h : FreeRun t.bits p c.toNat) :
    (t.take p c).give p c = t := by
  rw [Tally.take, Tally.give, clearRun_setRun h, BitVec.sub_add_cancel, BitVec.add_sub_cancel]

theorem Tally.Counts.take {p : Nat} {c : BitVec k} (h : t.Counts n) (hle : c ≤ t.free)
    (hp : p + c.toNat ≤ n) (hf : FreeRun t.bits p c.toNat) : (t.take p c).Counts n := by
  have h1 := clearCount_setRun hf hp
  rw [Tally.Counts] at h
  show (t.free - c).toNat = clearCount (setRun t.bits p c.toNat) n
  rw [BitVec.toNat_sub_of_le hle]
  omega

/-- Giving back pages that are all taken. -/
theorem Tally.Counts.give {p : Nat} {c : BitVec k} (h : t.Counts n) (hn : n < 2 ^ k)
    (hp : p + c.toNat ≤ n) (hu : ∀ i, i < c.toNat → test t.bits (p + i) = true) :
    (t.give p c).Counts n := by
  have h1 := clearCount_clearRun hu hp
  have h2 := clearCount_le (clearRun t.bits p c.toNat) n
  rw [Tally.Counts] at h
  show (t.free + c).toNat = clearCount (clearRun t.bits p c.toNat) n
  rw [BitVec.toNat_add, h, Nat.mod_eq_of_lt (by omega)]
  omega

omit [NeZero w] in
theorem Tally.Marked.refl (v : Bool) (n : Nat) (s : Tally w k) (lo : Nat) :
    s.Marked v n s lo lo where
  bits := fun q => (if_neg (by omega)).symm
  counted := id
  sum := rfl

omit [NeZero w] in
/-- A range and the one after it are one range. -/
theorem Tally.Marked.trans {u : Tally w k} {mid : Nat} (h : s.Marked v n t lo mid)
    (h' : t.Marked v n u mid hi) (h1 : lo ≤ mid) (h2 : mid ≤ hi) : s.Marked v n u lo hi where
  bits := fun q => by
    rw [h'.bits q, h.bits q]
    by_cases hq : mid ≤ q ∧ q < hi ∧ q < n
    · rw [if_pos hq, if_pos ⟨Nat.le_trans h1 hq.1, hq.2⟩]
    · have : (lo ≤ q ∧ q < mid ∧ q < n) ↔ (lo ≤ q ∧ q < hi ∧ q < n) := by omega
      rw [if_neg hq, if_congr this rfl rfl]
  counted := h'.counted ∘ h.counted
  sum := h'.sum.trans h.sum

omit [NeZero w] in
/-- A bit beyond `n`, or one that has the value already, is skipped. -/
theorem Tally.Marked.skip (h : s.Marked v n t lo hi) (hq : n ≤ hi ∨ test t.bits hi = v)
    (hle : lo ≤ hi) : s.Marked v n t lo (hi + 1) where
  bits := fun q => by
    rw [h.bits q]
    by_cases hqh : q = hi
    · subst hqh
      have hno : ¬ (lo ≤ q ∧ q < q ∧ q < n) := by omega
      rcases hq with htot | hv
      · rw [if_neg hno, if_neg (by omega)]
      · rw [h.bits q, if_neg hno] at hv
        rw [if_neg hno, hv, ite_self]
    · have : (lo ≤ q ∧ q < hi ∧ q < n) ↔ (lo ≤ q ∧ q < hi + 1 ∧ q < n) := by omega
      rw [if_congr this rfl rfl]
  counted := h.counted
  sum := h.sum

/-- A bit that changes its value moves both counters by one. -/
theorem Tally.Marked.step (h : s.Marked v n t lo hi) (hn : n < 2 ^ k) (hle : lo ≤ hi)
    (hlt : hi < n) (hv : test t.bits hi = !v) :
    s.Marked v n
      { bits := if v then setBit t.bits hi else clearBit t.bits hi
        free := if v then t.free - 1 else t.free + 1
        used := if v then t.used + 1 else t.used - 1 } lo (hi + 1) where
  bits := fun q => by
    have hq : test (if v then setBit t.bits hi else clearBit t.bits hi) q =
        if q = hi then v else test t.bits q := by
      cases v <;> by_cases hqh : q = hi <;> simp [hqh]
    show test (if v then setBit t.bits hi else clearBit t.bits hi) q = _
    rw [hq]
    by_cases hqh : q = hi
    · rw [if_pos hqh, if_pos (by omega)]
    · have : (lo ≤ q ∧ q < hi ∧ q < n) ↔ (lo ≤ q ∧ q < hi + 1 ∧ q < n) := by omega
      rw [if_neg hqh, h.bits q, if_congr this rfl rfl]
  counted := fun hc => by
    have hcount := h.counted hc
    rw [Tally.Counts] at hcount
    have hle' := clearCount_le t.bits n
    have h1n : (1 : BitVec k).toNat = 1 := by
      show (BitVec.ofNat k 1).toNat = 1
      rw [BitVec.toNat_ofNat, Nat.mod_eq_of_lt (by omega)]
    cases v with
    | false =>
        have h1 := clearCount_clearBit hlt hv
        have h2 := clearCount_le (clearBit t.bits hi) n
        show (t.free + 1).toNat = clearCount (clearBit t.bits hi) n
        rw [h1, ← hcount, BitVec.toNat_add, h1n, Nat.mod_eq_of_lt (by omega)]
    | true =>
        have h1 := clearCount_setBit hlt hv
        have h2 : (1 : BitVec k) ≤ t.free := by
          rw [BitVec.le_def, h1n]
          omega
        show (t.free - 1).toNat = clearCount (setBit t.bits hi) n
        rw [BitVec.toNat_sub_of_le h2, h1n]
        omega
  sum := by
    rw [← h.sum]
    cases v with
    | false =>
        show (t.free + 1) + (t.used - 1) = t.free + t.used
        rw [BitVec.add_assoc, BitVec.add_comm 1, BitVec.sub_add_cancel]
    | true =>
        show (t.free - 1) + (t.used + 1) = t.free + t.used
        rw [BitVec.add_comm t.used, ← BitVec.add_assoc, BitVec.sub_add_cancel]

/-! ## How far the counters move -/

/-- The bits `lo ≤ q < hi` that do not have the value `v`. -/
def misses (v : Bool) (b : Words w) (lo hi : Nat) : Finset Nat :=
  (Finset.Ico lo hi).filter (test b · = !v)

/-- `t` is `s` with the bits `lo ≤ q < hi` given the value `v`, and each counter
moved by the number of bits that did not have it. -/
structure Tally.Moved (v : Bool) (s t : Tally w k) (lo hi : Nat) : Prop where
  bits : ∀ q, test t.bits q = if lo ≤ q ∧ q < hi then v else test s.bits q
  free : t.free = if v then s.free - BitVec.ofNat k (misses v s.bits lo hi).card
    else s.free + BitVec.ofNat k (misses v s.bits lo hi).card
  used : t.used = if v then s.used + BitVec.ofNat k (misses v s.bits lo hi).card
    else s.used - BitVec.ofNat k (misses v s.bits lo hi).card

omit [NeZero w] in
theorem mem_misses {b : Words w} {q : Nat} :
    q ∈ misses v b lo hi ↔ (lo ≤ q ∧ q < hi) ∧ test b q = !v := by
  rw [misses, Finset.mem_filter, Finset.mem_Ico]

omit [NeZero w] in
theorem misses_self (v : Bool) (b : Words w) (lo : Nat) : misses v b lo lo = ∅ := by
  rw [misses, Finset.Ico_self, Finset.filter_empty]

omit [NeZero w] in
/-- A bit that has the value already does not count. -/
theorem misses_skip {b : Words w} (hv : test b hi = v) :
    misses v b lo (hi + 1) = misses v b lo hi := by
  ext q
  rw [mem_misses, mem_misses]
  constructor
  · rintro ⟨⟨h1, h2⟩, h3⟩
    have hne : q ≠ hi := by
      rintro rfl
      rw [hv] at h3
      cases v <;> exact Bool.noConfusion h3
    exact ⟨⟨h1, by omega⟩, h3⟩
  · rintro ⟨⟨h1, h2⟩, h3⟩
    exact ⟨⟨h1, by omega⟩, h3⟩

omit [NeZero w] in
theorem misses_step {b : Words w} (hle : lo ≤ hi) (hv : test b hi = !v) :
    (misses v b lo (hi + 1)).card = (misses v b lo hi).card + 1 := by
  have hnew : hi ∉ misses v b lo hi := fun hmem => absurd (mem_misses.mp hmem).1.2 (Nat.lt_irrefl hi)
  have hset : misses v b lo (hi + 1) = insert hi (misses v b lo hi) := by
    ext q
    rw [Finset.mem_insert, mem_misses, mem_misses]
    constructor
    · rintro ⟨⟨h1, h2⟩, h3⟩
      by_cases hq : q = hi
      · exact Or.inl hq
      · exact Or.inr ⟨⟨h1, by omega⟩, h3⟩
    · rintro (rfl | ⟨⟨h1, h2⟩, h3⟩)
      · exact ⟨⟨hle, Nat.lt_succ_self q⟩, hv⟩
      · exact ⟨⟨h1, by omega⟩, h3⟩
  rw [hset, Finset.card_insert_of_notMem hnew]

omit [NeZero w] in
theorem Tally.Moved.refl (v : Bool) (s : Tally w k) (lo : Nat) : s.Moved v s lo lo where
  bits := fun q => (if_neg (by omega)).symm
  free := by
    rw [misses_self, Finset.card_empty]
    cases v
    · exact (BitVec.add_zero s.free).symm
    · exact (BitVec.sub_zero s.free).symm
  used := by
    rw [misses_self, Finset.card_empty]
    cases v
    · exact (BitVec.sub_zero s.used).symm
    · exact (BitVec.add_zero s.used).symm

omit [NeZero w] in
theorem Tally.Moved.bit (h : s.Moved v t lo hi) : test t.bits hi = test s.bits hi := by
  rw [h.bits, if_neg (by omega)]

omit [NeZero w] in
theorem Tally.Moved.skip (h : s.Moved v t lo hi) (hv : test t.bits hi = v) :
    s.Moved v t lo (hi + 1) where
  bits := fun q => by
    rw [h.bits q]
    by_cases hq : q = hi
    · subst hq
      rw [if_neg (by omega), ← h.bit, hv, ite_self]
    · have : (lo ≤ q ∧ q < hi) ↔ (lo ≤ q ∧ q < hi + 1) := by omega
      rw [if_congr this rfl rfl]
  free := by
    rw [misses_skip (h.bit ▸ hv)]
    exact h.free
  used := by
    rw [misses_skip (h.bit ▸ hv)]
    exact h.used

theorem Tally.Moved.step (h : s.Moved v t lo hi) (hle : lo ≤ hi) (hv : test t.bits hi = !v) :
    s.Moved v
      { bits := if v then setBit t.bits hi else clearBit t.bits hi
        free := if v then t.free - 1 else t.free + 1
        used := if v then t.used + 1 else t.used - 1 } lo (hi + 1) where
  bits := fun q => by
    have hq : test (if v then setBit t.bits hi else clearBit t.bits hi) q =
        if q = hi then v else test t.bits q := by
      cases v <;> by_cases hqh : q = hi <;> simp [hqh]
    show test (if v then setBit t.bits hi else clearBit t.bits hi) q = _
    rw [hq]
    by_cases hqh : q = hi
    · rw [if_pos hqh, if_pos (by omega)]
    · have : (lo ≤ q ∧ q < hi) ↔ (lo ≤ q ∧ q < hi + 1) := by omega
      rw [if_neg hqh, h.bits q, if_congr this rfl rfl]
  free := by
    rw [misses_step hle (h.bit ▸ hv), h.free]
    cases v <;> simp [BitVec.ofNat_add, BitVec.add_assoc, BitVec.sub_sub]
  used := by
    rw [misses_step hle (h.bit ▸ hv), h.used]
    cases v <;> simp [BitVec.ofNat_add, BitVec.add_assoc, BitVec.sub_sub]

end Width

end WordBits
