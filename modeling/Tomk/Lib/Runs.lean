/-
# Runs of a labelled transition system

`Reach init step` is the set of states that some run from an initial state
visits.  A step carries a label, so that a condition on steps can look at
what was called and at the state it was called in (`Guarded`).

The one rule is the invariant rule, in the two forms that are used: for an
inductive invariant, and for a property that needs the state to be reached
as well.
-/
import Mathlib.Tactic.Common

namespace Runs

variable {σ α : Type}

inductive Reach (init : σ → Prop) (step : α → σ → σ → Prop) : σ → Prop
  | start {s : σ} : init s → Reach init step s
  | next {a : α} {s s' : σ} : Reach init step s → step a s s' → Reach init step s'

/-- The steps of `step` whose label and state meet `cond`. -/
def Guarded (cond : α → σ → Prop) (step : α → σ → σ → Prop) : α → σ → σ → Prop :=
  fun a s s' => cond a s ∧ step a s s'

variable {init : σ → Prop} {step : α → σ → σ → Prop}

/-- **The invariant rule.** -/
theorem Reach.invariant (I : σ → Prop) (h0 : ∀ s, init s → I s)
    (hstep : ∀ a s s', I s → step a s s' → I s') {s : σ} (h : Reach init step s) : I s := by
  induction h with
  | start hi => exact h0 _ hi
  | next _ hst ih => exact hstep _ _ _ ih hst

/-- A run whose steps all meet a condition is a run. -/
theorem Reach.of_guarded {cond : α → σ → Prop} {s : σ}
    (h : Reach init (Guarded cond step) s) : Reach init step s := by
  induction h with
  | start hi => exact .start hi
  | next _ hst ih => exact .next ih hst.2

/-- Where the steps of a list lead to is reached. -/
theorem Reach.foldlM {run : σ → α → Option σ} {l : List α} {s s' : σ}
    (hstep : ∀ a ∈ l, ∀ s s', run s a = some s' → step a s s') (h : Reach init step s)
    (hrun : l.foldlM run s = some s') : Reach init step s' := by
  induction l generalizing s with
  | nil =>
      cases hrun
      exact h
  | cons a l ih =>
      rw [List.foldlM_cons] at hrun
      obtain ⟨s1, h1, h2⟩ := Option.bind_eq_some_iff.mp hrun
      exact ih (fun b hb => hstep b (List.mem_cons_of_mem a hb))
        (.next h (hstep a List.mem_cons_self s s1 h1)) h2

theorem Reach.foldl {β : Type} {run : σ → β → σ} (hstep : ∀ b s, ∃ a, step a s (run s b)) {s : σ}
    (h : Reach init step s) (l : List β) : Reach init step (l.foldl run s) := by
  induction l generalizing s with
  | nil => exact h
  | cons b l ih =>
      obtain ⟨a, ha⟩ := hstep b s
      exact ih (.next h ha)

end Runs
