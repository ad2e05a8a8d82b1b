/-
# Counted loops with early exit

A C loop `for (i = a; i < a + n; i++)` over an explicit state.  `iter` is
the loop whose body always falls through; `forFrom` is the loop whose body
runs in a monad, so that one definition serves both the loop that may fault
(`Option`) and the loop that may leave early (`Except`).

The rules are the invariant rules one expects: the invariant is indexed by
the value of the loop counter, holds at `a`, and is carried from `i` to
`i + 1` by one turn.  For an early exit a second predicate, on the value the
loop leaves with, is established by the turn that leaves.
-/
import Mathlib.Tactic.Common

namespace CFor

/-- How a turn of an inner loop leaves: `break` with the current state, or
`return` from the function with its result. -/
inductive Exit (ρ σ : Type) where
  | brk (s : σ)
  | ret (r : ρ)

variable {σ ε : Type}

/-- The loop whose body always falls through. -/
def iter (body : Nat → σ → σ) : Nat → Nat → σ → σ
  | _, 0, s => s
  | i, n + 1, s => iter body (i + 1) n (body i s)

/-- The loop whose body runs in a monad. -/
def forFrom {m : Type → Type} [Monad m] (body : Nat → σ → m σ) : Nat → Nat → σ → m σ
  | _, 0, s => pure s
  | i, n + 1, s => body i s >>= forFrom body (i + 1) n

/-! ## The loop that falls through -/

@[simp] theorem iter_zero (f : Nat → σ → σ) (a : Nat) (s : σ) :
    iter f a 0 s = s := rfl

theorem iter_succ (f : Nat → σ → σ) (a n : Nat) (s : σ) :
    iter f a (n + 1) s = iter f (a + 1) n (f a s) := rfl

/-- The last turn split off. -/
theorem iter_snoc (f : Nat → σ → σ) :
    ∀ (n a : Nat) (s : σ), iter f a (n + 1) s = f (a + n) (iter f a n s)
  | 0, _, _ => rfl
  | n + 1, a, s => by
      rw [iter_succ, iter_snoc f n (a + 1) (f a s), iter_succ]
      congr 1
      omega

/-- The invariant rule. -/
theorem iter_inv {f : Nat → σ → σ} {a n : Nat} (P : Nat → σ → Prop) {s : σ} (h0 : P a s)
    (hstep : ∀ i t, a ≤ i → i < a + n → P i t → P (i + 1) (f i t)) :
    P (a + n) (iter f a n s) := by
  induction n generalizing a s with
  | zero => exact h0
  | succ n ih =>
      have h1 : P (a + 1) (f a s) := hstep a s (Nat.le_refl a) (by omega) h0
      have := ih h1 (fun i t h₁ h₂ => hstep i t (by omega) (by omega))
      rwa [show a + 1 + n = a + (n + 1) by omega] at this

/-- A loop whose turns are those of another one, seen through `g`. -/
theorem iter_map {τ : Type} {f : Nat → σ → σ} {f' : Nat → τ → τ} (g : σ → τ)
    (h : ∀ i s, g (f i s) = f' i (g s)) (n a : Nat) (s : σ) :
    g (iter f a n s) = iter f' a n (g s) := by
  induction n generalizing a s with
  | zero => rfl
  | succ n ih => rw [iter_succ, iter_succ, ih, h]

/-! ## The loop that may fault -/

/-- Total correctness over `Option`: every turn succeeds and carries the
invariant. -/
theorem forFrom_some {f : Nat → σ → Option σ} {a n : Nat} (P : Nat → σ → Prop) {s : σ}
    (h0 : P a s)
    (hstep : ∀ i t, a ≤ i → i < a + n → P i t → ∃ t', f i t = some t' ∧ P (i + 1) t') :
    ∃ t, forFrom f a n s = some t ∧ P (a + n) t := by
  induction n generalizing a s with
  | zero => exact ⟨s, rfl, h0⟩
  | succ n ih =>
      obtain ⟨t, ht, h1⟩ := hstep a s (Nat.le_refl a) (by omega) h0
      obtain ⟨u, hu, h2⟩ := ih h1 (fun i t h₁ h₂ => hstep i t (by omega) (by omega))
      refine ⟨u, ?_, by rwa [show a + (n + 1) = a + 1 + n by omega]⟩
      simp only [forFrom, ht, Option.bind_eq_bind, Option.bind_some, hu]

/-- Partial correctness: what every turn that succeeds keeps, the loop keeps. -/
theorem forFrom_keeps {f : Nat → σ → Option σ} (P : σ → Prop)
    (hstep : ∀ i s t, P s → f i s = some t → P t) {n a : Nat} {s t : σ} (h0 : P s)
    (hrun : forFrom f a n s = some t) : P t := by
  induction n generalizing a s with
  | zero =>
      cases hrun
      exact h0
  | succ n ih =>
      obtain ⟨u, hu, hrest⟩ := Option.bind_eq_some_iff.mp hrun
      exact ih (hstep a s u h0 hu) hrest

/-! ## The loop that may leave early -/

/-- The rule over `Except`: a turn that falls through carries the invariant,
a turn that leaves establishes the exit predicate. -/
theorem forFrom_except {f : Nat → σ → Except ε σ} {a n : Nat} (P : Nat → σ → Prop)
    (Q : ε → Prop) {s : σ} (h0 : P a s)
    (hok : ∀ i t t', a ≤ i → i < a + n → P i t → f i t = .ok t' → P (i + 1) t')
    (herr : ∀ i t e, a ≤ i → i < a + n → P i t → f i t = .error e → Q e) :
    (∃ t, forFrom f a n s = .ok t ∧ P (a + n) t) ∨
      (∃ e, forFrom f a n s = .error e ∧ Q e) := by
  induction n generalizing a s with
  | zero => exact Or.inl ⟨s, rfl, h0⟩
  | succ n ih =>
      cases hb : f a s with
      | error e =>
          refine Or.inr ⟨e, ?_, herr a s e (Nat.le_refl a) (by omega) h0 hb⟩
          simp only [forFrom, hb]
          rfl
      | ok t =>
          have h1 := hok a s t (Nat.le_refl a) (by omega) h0 hb
          have hrun : forFrom f a (n + 1) s = forFrom f (a + 1) n t := by
            simp only [forFrom, hb]
            rfl
          rw [hrun, show a + (n + 1) = a + 1 + n by omega]
          exact ih h1 (fun i t t' h₁ h₂ => hok i t t' (by omega) (by omega))
            (fun i t e h₁ h₂ => herr i t e (by omega) (by omega))

/-! ## The loop that may fault or leave early -/

/-- Total correctness over both: no turn faults, a turn that falls through
carries the invariant, and a turn that leaves establishes the exit
predicate. -/
theorem forFrom_exit {ρ : Type} {f : Nat → σ → ExceptT ρ Option σ} {a n : Nat}
    (P : Nat → σ → Prop) (Q : Nat → ρ → Prop) {s : σ} (h0 : P a s)
    (hstep : ∀ i t, a ≤ i → i < a + n → P i t →
      (∃ t', (f i t).run = some (.ok t') ∧ P (i + 1) t') ∨
        (∃ r, (f i t).run = some (.error r) ∧ Q i r)) :
    (∃ t, (forFrom f a n s).run = some (.ok t) ∧ P (a + n) t) ∨
      (∃ i r, a ≤ i ∧ i < a + n ∧ (forFrom f a n s).run = some (.error r) ∧ Q i r) := by
  induction n generalizing a s with
  | zero => exact Or.inl ⟨s, rfl, h0⟩
  | succ n ih =>
      rcases hstep a s (Nat.le_refl a) (by omega) h0 with ⟨t, ht, h1⟩ | ⟨r, hr, hq⟩
      · have hrun : (forFrom f a (n + 1) s).run = (forFrom f (a + 1) n t).run := by
          simp only [forFrom, ExceptT.run_bind, ht]
          rfl
        rw [hrun, show a + (n + 1) = a + 1 + n by omega]
        rcases ih h1 (fun i t h₁ h₂ => hstep i t (by omega) (by omega)) with h | ⟨i, r, h₁, h₂, h₃⟩
        · exact Or.inl h
        · exact Or.inr ⟨i, r, by omega, h₂, h₃⟩
      · refine Or.inr ⟨a, r, Nat.le_refl a, by omega, ?_, hq⟩
        simp only [forFrom, ExceptT.run_bind, hr]
        rfl

/-- Partial correctness over both. -/
theorem forFrom_exit_keeps {ρ : Type} {f : Nat → σ → ExceptT ρ Option σ} (P : σ → Prop)
    (Q : ρ → Prop) (hok : ∀ i s t, P s → (f i s).run = some (.ok t) → P t)
    (herr : ∀ i s r, P s → (f i s).run = some (.error r) → Q r) {n a : Nat} {s : σ} (h0 : P s) :
    (∀ t, (forFrom f a n s).run = some (.ok t) → P t) ∧
      ∀ r, (forFrom f a n s).run = some (.error r) → Q r := by
  induction n generalizing a s with
  | zero =>
      refine ⟨fun t ht => ?_, fun r hr => ?_⟩
      · cases ht
        exact h0
      · cases hr
  | succ n ih =>
      cases hf : (f a s).run with
      | none =>
          have hrun : (forFrom f a (n + 1) s).run = none := by
            simp only [forFrom, ExceptT.run_bind, hf]
            rfl
          rw [hrun]
          exact ⟨fun _ ht => (nomatch ht), fun _ hr => (nomatch hr)⟩
      | some x =>
          cases x with
          | ok u =>
              have hrun : (forFrom f a (n + 1) s).run = (forFrom f (a + 1) n u).run := by
                simp only [forFrom, ExceptT.run_bind, hf]
                rfl
              rw [hrun]
              exact ih (hok a s u h0 hf)
          | error e =>
              have hrun : (forFrom f a (n + 1) s).run = some (.error e) := by
                simp only [forFrom, ExceptT.run_bind, hf]
                rfl
              rw [hrun]
              refine ⟨fun _ ht => (nomatch ht), fun r hr => ?_⟩
              cases hr
              exact herr a s e h0 hf

end CFor
