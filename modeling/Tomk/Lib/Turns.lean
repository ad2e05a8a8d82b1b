/-
# Taking turns around a list

The ones behind the one whose turn it is, around the list: first the rest of the
list, and then what stands before it.  How many turns there are until `p` has its own
is the place of `p` there.  It is one less with each turn; one more at most when
another one is appended to the list, and no more when another one is taken out.
-/
import Mathlib.Data.List.Basic

namespace Turns

variable {α : Type} {xs bs pre post a b : List α} {r q x p : α}

/-- Behind `r` in `xs` come `bs`. -/
def Behind (xs : List α) (r : α) (bs : List α) : Prop :=
  ∃ pre post, xs = pre ++ r :: post ∧ bs = post ++ pre

theorem exists_behind (hr : r ∈ xs) : ∃ bs, Behind xs r bs := by
  obtain ⟨pre, post, rfl⟩ := List.append_of_mem hr
  exact ⟨post ++ pre, pre, post, rfl, rfl⟩

theorem Behind.perm (h : Behind xs r bs) : xs.Perm (r :: bs) := by
  obtain ⟨pre, post, rfl, rfl⟩ := h
  exact List.perm_middle.trans (List.perm_append_comm.cons r)

theorem Behind.mem (h : Behind xs r bs) (hp : p ∈ xs) (hne : p ≠ r) : p ∈ bs :=
  (List.mem_cons.mp (h.perm.mem_iff.mp hp)).resolve_left hne

/-- The turn is passed on. -/
theorem Behind.next (h : Behind xs r (q :: bs)) : Behind xs q (bs ++ [r]) := by
  obtain ⟨pre, post, rfl, heq⟩ := h
  cases post with
  | nil =>
      rw [List.nil_append] at heq
      subst heq
      exact ⟨[], bs ++ [r], rfl, (List.append_nil _).symm⟩
  | cons c post =>
      obtain ⟨rfl, rfl⟩ := List.cons.inj heq
      refine ⟨pre ++ [r], post, ?_, ?_⟩ <;> simp

variable [DecidableEq α]

theorem idxOf_insert : (a ++ x :: b).idxOf p ≤ (a ++ b).idxOf p + 1 := by
  rw [List.idxOf_append, List.idxOf_append, List.idxOf_cons]
  split
  · omega
  · cases x == p
    · exact Nat.le_of_eq (Nat.add_right_comm _ 1 _)
    · exact Nat.le_trans (Nat.add_le_add_right (Nat.zero_le _) _) (Nat.le_succ _)

theorem idxOf_remove (hx : p ≠ x) : (a ++ b).idxOf p ≤ (a ++ x :: b).idxOf p := by
  rw [List.idxOf_append, List.idxOf_append, List.idxOf_cons_ne _ hx.symm]
  split <;> omega

/-- One is appended to the list. -/
theorem Behind.append (h : Behind xs r bs) (x : α) :
    ∃ bs', Behind (xs ++ [x]) r bs' ∧ ∀ p ∈ bs, p ∈ bs' ∧ bs'.idxOf p ≤ bs.idxOf p + 1 := by
  obtain ⟨pre, post, rfl, rfl⟩ := h
  refine ⟨post ++ x :: pre, ⟨pre, post ++ [x], by simp, by simp⟩, fun p hp => ⟨?_, idxOf_insert⟩⟩
  rw [List.mem_append] at hp
  rw [List.mem_append, List.mem_cons]
  exact hp.imp id Or.inr

/-- Another one is taken out. -/
theorem Behind.remove (h : Behind (pre ++ x :: post) r bs) (hx : x ≠ r) :
    ∃ bs', Behind (pre ++ post) r bs' ∧ ∀ p ∈ bs, p ≠ x → p ∈ bs' ∧ bs'.idxOf p ≤ bs.idxOf p := by
  have hout : ∀ {a b : List α} {p : α}, p ∈ a ++ x :: b → p ≠ x → p ∈ a ++ b := fun {a b p} hp hne => by
    rw [List.mem_append, List.mem_cons] at hp
    rw [List.mem_append]
    exact hp.imp id fun hp => hp.resolve_left hne
  obtain ⟨pre', post', heq, rfl⟩ := h
  rcases List.append_eq_append_iff.mp heq with ⟨c, rfl, hc⟩ | ⟨c, rfl, hc⟩
  · cases c with
    | nil => exact absurd (List.cons.inj hc).1 hx
    | cons d c =>
        obtain ⟨rfl, rfl⟩ := List.cons.inj hc
        refine ⟨post' ++ (pre ++ c), ⟨pre ++ c, post', by simp, rfl⟩, fun p hp hne => ?_⟩
        rw [← List.append_assoc] at hp ⊢
        exact ⟨hout hp hne, by rw [← List.append_assoc]; exact idxOf_remove hne⟩
  · cases c with
    | nil => exact absurd (List.cons.inj hc).1.symm hx
    | cons d c =>
        obtain ⟨rfl, hpost⟩ := List.cons.inj hc
        have hpost : post' = c ++ x :: post := hpost
        subst hpost
        refine ⟨c ++ post ++ pre', ⟨pre', c ++ post, by simp, rfl⟩, fun p hp hne => ?_⟩
        rw [List.append_assoc, List.cons_append] at hp
        rw [List.append_assoc, List.append_assoc, List.cons_append]
        exact ⟨hout hp hne, idxOf_remove hne⟩

end Turns
