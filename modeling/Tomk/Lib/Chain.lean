/-
# Chains of links

A link leads from a node to at most one other.  `nth next k a` is the node `k` links behind `a`,
if the chain goes that far.  Over a finite type a chain ends if and only if it does not come back
to a node that it has been at (`ends_iff`).

Where values are carried along the links, every node has the value of the end of its chain.  That
is a given value of the node itself, if and only if no link joins two given values that differ
(`eq_iff_of_carried`).
-/
import Mathlib.Data.Fintype.Pigeonhole
import Mathlib.Tactic.Common

namespace Chain

variable {α : Type} {next : α → Option α} {a x : α} {i j k : Nat}

/-- The node `k` links behind `a`. -/
def nth (next : α → Option α) : Nat → α → Option α
  | 0, a => some a
  | k + 1, a => (next a).bind (nth next k)

/-- The chain from `a` comes to a node without a link. -/
def Ends (next : α → Option α) (a : α) : Prop := ∃ k, nth next k a = none

/-- The chain from `a` is at some node twice. -/
def Recurs (next : α → Option α) (a : α) : Prop :=
  ∃ i j x, i < j ∧ nth next i a = some x ∧ nth next j a = some x

theorem nth_add (next : α → Option α) (i k : Nat) (a : α) :
    nth next (i + k) a = (nth next i a).bind (nth next k) := by
  induction i generalizing a with
  | zero => rw [Nat.zero_add, nth, Option.bind_some]
  | succ i ih =>
      rw [Nat.succ_add, nth, nth, Option.bind_assoc]
      exact congrArg _ (funext ih)

theorem nth_none_of_le (h : nth next k a = none) (hle : k ≤ i) : nth next i a = none := by
  obtain ⟨n, rfl⟩ := Nat.exists_eq_add_of_le hle
  rw [nth_add, h, Option.bind_none]

/-- Round a cycle, any number of times. -/
theorem nth_mul (h : nth next k x = some x) (n : Nat) : nth next (n * k) x = some x := by
  induction n with
  | zero => rw [Nat.zero_mul, nth]
  | succ n ih => rw [Nat.succ_mul, nth_add, ih, Option.bind_some, h]

theorem Recurs.not_ends (h : Recurs next a) : ¬ Ends next a := by
  obtain ⟨i, j, x, hij, hi, hj⟩ := h
  obtain ⟨k, rfl⟩ := Nat.exists_eq_add_of_lt hij
  have hcycle : nth next (k + 1) x = some x := by
    rw [Nat.add_assoc, nth_add, hi, Option.bind_some] at hj
    exact hj
  rintro ⟨n, hn⟩
  have hround : nth next (i + n * (k + 1)) a = some x := by
    rw [nth_add, hi, Option.bind_some, nth_mul hcycle]
  have hle : n ≤ i + n * (k + 1) :=
    (Nat.le_mul_of_pos_right n (Nat.succ_pos k)).trans (Nat.le_add_left _ _)
  rw [nth_none_of_le hn hle] at hround
  cases hround

/-- **A chain over finitely many nodes** ends, or comes back. -/
theorem ends_iff [Finite α] : Ends next a ↔ ¬ Recurs next a := by
  constructor
  · exact fun h hrec => hrec.not_ends h
  · intro hrec
    by_contra hends
    have hsome : ∀ k, ∃ x, nth next k a = some x := fun k =>
      Option.ne_none_iff_exists'.mp fun h => hends ⟨k, h⟩
    choose node hnode using hsome
    obtain ⟨i, j, hne, heq⟩ := Finite.exists_ne_map_eq_of_infinite node
    rcases Nat.lt_or_gt_of_ne hne with hij | hji
    · exact hrec ⟨i, j, node i, hij, hnode i, by rw [hnode j, heq]⟩
    · exact hrec ⟨j, i, node j, hji, hnode j, by rw [hnode i, heq]⟩

/-! ## Along a chain -/

/-- From the end of a chain back to its start. -/
theorem Ends.rec_back {P : α → Prop} (h : Ends next a) (hend : ∀ x, next x = none → P x)
    (hlink : ∀ x y, next x = some y → P y → P x) : P a := by
  obtain ⟨k, hk⟩ := h
  induction k generalizing a with
  | zero => cases hk
  | succ k ih =>
      cases hnext : next a with
      | none => exact hend a hnext
      | some y =>
          rw [nth, hnext, Option.bind_some] at hk
          exact hlink a y hnext (ih hk)

/-- A chain along which a measure falls. -/
theorem ends_of_measure (μ : α → Nat) (h : ∀ x y, next x = some y → μ y < μ x) (a : α) :
    Ends next a := by
  induction hn : μ a using Nat.strongRecOn generalizing a with
  | ind n ih =>
      cases hnext : next a with
      | none => exact ⟨1, by rw [nth, hnext, Option.bind_none]⟩
      | some y =>
          obtain ⟨k, hk⟩ := ih (μ y) (hn ▸ h a y hnext) y rfl
          exact ⟨k + 1, by rw [nth, hnext, Option.bind_some, hk]⟩

/-- **Values that are carried along the links**, inside of a set that no link leads out of. -/
theorem eq_iff_of_carried {β : Type} {D : α → Prop} {got want : α → β}
    (hclosed : ∀ x y, D x → next x = some y → D y) (hends : ∀ x, Ends next x)
    (hend : ∀ x, D x → next x = none → got x = want x)
    (hlink : ∀ x y, D x → next x = some y → got x = got y) :
    (∀ x, D x → got x = want x) ↔ ∀ x y, D x → next x = some y → want x = want y := by
  constructor
  · intro h x y hx hxy
    rw [← h x hx, hlink x y hx hxy, h y (hclosed x y hx hxy)]
  · intro h x
    refine (hends x).rec_back (P := fun x => D x → got x = want x) ?_ ?_
    · exact fun x hnone hx => hend x hx hnone
    · intro x y hxy ih hx
      rw [hlink x y hx hxy, ih (hclosed x y hx hxy), h x y hx hxy]

end Chain
