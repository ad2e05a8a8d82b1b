/-
# Functions that return early

A C function that reads an environment `ρ`, works on a state `σ`, and may leave
through a `return` in its middle, or not come back at all because an access faults.
A run is the value it ends with and the state: no value after an early `return`,
which skips what follows up to the call (`returned`), and no result at all after a
fault.

`Ends x e s F Q` is the rule for one run: `F` if it faults, and `Q` of the value and the state
otherwise.
-/
import Mathlib.Tactic.Common

/-- A function of a C program over the state `σ`, with `ρ` to read from. -/
def Early (ρ σ α : Type) : Type := ρ → σ → Option (Option α × σ)

namespace Early

variable {ρ σ α β : Type}

instance : Monad (Early ρ σ) where
  pure a := fun _ s => some (some a, s)
  bind x f := fun e s => match x e s with
    | none => none
    | some (none, s) => some (none, s)
    | some (some a, s) => f a e s

/-- `return` from the middle. -/
def ret : Early ρ σ α := fun _ s => some (none, s)

def state : Early ρ σ σ := fun _ s => some (some s, s)

def update (f : σ → σ) : Early ρ σ Unit := fun _ s => some (some (), f s)

/-- An access, which may fault. -/
def access (x : ρ → Option α) : Early ρ σ α := fun e s => (x e).map fun a => (some a, s)

/-- A call: whether the function ended without an early `return`. -/
def returned (x : Early ρ σ Unit) : Early ρ σ Bool := fun e s =>
  (x e s).map fun r => (some r.1.isSome, r.2)

/-- A call whose result nobody looks at. -/
def call (x : Early ρ σ Unit) : Early ρ σ Unit := fun e s => (x e s).map fun r => (some (), r.2)

/-! ## What the primitives run to -/

theorem bind_run (x : Early ρ σ α) (f : α → Early ρ σ β) (e : ρ) (s : σ) :
    (x >>= f) e s = (x e s).bind fun r =>
      match r with
      | (none, s) => some (none, s)
      | (some a, s) => f a e s := by
  show (match x e s with
    | none => none
    | some (none, s) => some (none, s)
    | some (some a, s) => f a e s) = _
  cases x e s with
  | none => rfl
  | some r =>
      obtain ⟨r, s⟩ := r
      cases r <;> rfl

theorem bind_assoc {γ : Type} (x : Early ρ σ α) (f : α → Early ρ σ β) (g : β → Early ρ σ γ) :
    x >>= f >>= g = x >>= fun a => f a >>= g := by
  funext e s
  rw [bind_run, bind_run, bind_run]
  cases x e s with
  | none => rfl
  | some r =>
      obtain ⟨r, s⟩ := r
      cases r with
      | none => rfl
      | some a => exact (bind_run (f a) g e s).symm

theorem state_bind (f : σ → Early ρ σ β) (e : ρ) (s : σ) : (state >>= f) e s = f s e s := rfl

theorem access_bind (x : ρ → Option α) (f : α → Early ρ σ β) (e : ρ) (s : σ) :
    (access x >>= f) e s = (x e).bind fun a => f a e s := by
  rw [bind_run, access]
  cases x e <;> rfl

/-! ## One run -/

/-- The run of `x` from `s` faults only if `F` holds, and else ends as `Q` says. -/
def Ends (x : Early ρ σ α) (e : ρ) (s : σ) (F : Prop) (Q : Option α → σ → Prop) : Prop :=
  match x e s with
  | none => F
  | some (r, s') => Q r s'

variable {x : Early ρ σ α} {e : ρ} {s s' : σ} {F F' : Prop} {Q Q' : Option α → σ → Prop}

theorem Ends.mono (h : Ends x e s F Q) (hF : F → F') (hQ : ∀ r s', Q r s' → Q' r s') :
    Ends x e s F' Q' := by
  rw [Ends] at h ⊢
  split
  · next hx => exact hF (by rw [hx] at h; exact h)
  · next r s' hx => exact hQ r s' (by rw [hx] at h; exact h)

theorem Ends.and (h : Ends x e s F Q) (h' : Ends x e s F' Q') :
    Ends x e s F fun r s' => Q r s' ∧ Q' r s' := by
  rw [Ends] at h h' ⊢
  cases hx : x e s with
  | none =>
      rw [hx] at h
      exact h
  | some r =>
      rw [hx] at h h'
      exact ⟨h, h'⟩

theorem ends_pure (a : α) (h : Q (some a) s) : Ends (pure a) e s F Q := h

/-- What runs before, and what runs after it where it has not returned. -/
theorem Ends.bind {f : α → Early ρ σ β} {Q' : Option β → σ → Prop} (h : Ends x e s F Q)
    (hret : ∀ s', Q none s' → Q' none s')
    (hf : ∀ a s', Q (some a) s' → Ends (f a) e s' F Q') : Ends (x >>= f) e s F Q' := by
  rw [Ends] at h ⊢
  rw [bind_run]
  cases hx : x e s with
  | none =>
      rw [hx] at h
      exact h
  | some r =>
      obtain ⟨r, s'⟩ := r
      rw [hx] at h
      cases r with
      | none => exact hret s' h
      | some a => exact hf a s' h

/-- The state that is read is the state the run starts in. -/
theorem ends_state_bind {f : σ → Early ρ σ β} {Q : Option β → σ → Prop}
    (h : Ends (f s) e s F Q) : Ends (state >>= f) e s F Q := h

theorem Ends.call {x : Early ρ σ Unit} {Q Q' : Option Unit → σ → Prop} (h : Ends x e s F Q)
    (hQ : ∀ r s', Q r s' → Q' (some ()) s') : Ends (call x) e s F Q' := by
  rw [Ends] at h ⊢
  rw [Early.call]
  cases hx : x e s with
  | none =>
      rw [hx] at h
      exact h
  | some r =>
      rw [hx] at h
      exact hQ r.1 r.2 h

theorem Ends.returned {x : Early ρ σ Unit} {Q : Option Unit → σ → Prop}
    {Q' : Option Bool → σ → Prop} (h : Ends x e s F Q)
    (hQ : ∀ r s', Q r s' → Q' (some r.isSome) s') : Ends (returned x) e s F Q' := by
  rw [Ends] at h ⊢
  rw [Early.returned]
  cases hx : x e s with
  | none =>
      rw [hx] at h
      exact h
  | some r =>
      rw [hx] at h
      exact hQ r.1 r.2 h

theorem ends_ite {c : Prop} [Decidable c] {y : Early ρ σ α} (hx : c → Ends x e s F Q)
    (hy : ¬ c → Ends y e s F Q) : Ends (if c then x else y) e s F Q := by
  split
  · next h => exact hx h
  · next h => exact hy h

end Early
