/-
# Threads on one processor, and an interrupt that can be masked

Threads run on one processor, one instruction after the other.  Between any two
instructions an interrupt may come, unless the running thread masks it; the
handler changes what the threads share, and any thread may run next.

What a thread does while it masks the interrupt is one step to all others.
`Closes` says that a thread gets to the end of its section by itself, and what
it leaves there.  Threads of which each section does one action of a second
system (`Implements`) refine that system, in which an action is a single step
(`Implements.simulates`).
-/
import Tomk.Lib.Runs
import Mathlib.Logic.Function.Iterate

namespace Masking

open Function Runs

/-- The next instruction of a thread, and whether it masks the interrupt. -/
structure Threads (T σ : Type) where
  step : T → σ → T × σ
  Masked : T → Prop

/-- What the threads share, their own states, and the one on the processor. -/
structure State (P T σ : Type) where
  shared : σ
  threads : P → T
  running : P

inductive Move (P : Type) where
  | insn
  | tick (next : P)

variable {P T A σ : Type} [DecidableEq P]

/-- The running thread executes an instruction. -/
def State.insn (M : Threads T σ) (s : State P T σ) : State P T σ :=
  let r := M.step (s.threads s.running) s.shared
  { s with shared := r.2, threads := update s.threads s.running r.1 }

def State.tick (handler : σ → σ) (s : State P T σ) (next : P) : State P T σ :=
  { s with shared := handler s.shared, running := next }

/-- The interrupt may come. -/
def State.Open (M : Threads T σ) (s : State P T σ) : Prop := ¬ M.Masked (s.threads s.running)

def Threads.Step (M : Threads T σ) (handler : σ → σ) : Move P → State P T σ → State P T σ → Prop
  | .insn, s, s' => s' = s.insn M
  | .tick next, s, s' => s.Open M ∧ s' = s.tick handler next

/-- The moves, executed: the interrupt does not come where it is masked. -/
def Threads.run (M : Threads T σ) [DecidablePred M.Masked] (handler : σ → σ) (s : State P T σ) :
    Move P → Option (State P T σ)
  | .insn => some (s.insn M)
  | .tick next => if M.Masked (s.threads s.running) then none else some (s.tick handler next)

theorem Threads.run_step {M : Threads T σ} [DecidablePred M.Masked] {handler : σ → σ} {m : Move P}
    {s s' : State P T σ} (h : M.run handler s m = some s') : M.Step handler m s s' := by
  cases m with
  | insn => exact (Option.some.inj h).symm
  | tick next =>
      rw [Threads.run] at h
      split at h
      · cases h
      · next ho => exact ⟨ho, (Option.some.inj h).symm⟩

/-- The second system: what each thread has still to do is in `A`. -/
structure Actions (P A σ : Type) where
  shared : σ
  threads : P → A

/-- One action of a thread, or the interrupt. -/
def ActionStep (act : A → σ → A × σ) (handler : σ → σ) :
    Option P → Actions P A σ → Actions P A σ → Prop
  | some p, n, n' => n' = ⟨(act (n.threads p) n.shared).2,
      update n.threads p (act (n.threads p) n.shared).1⟩
  | none, n, n' => n' = { n with shared := handler n.shared }

/-- The thread comes to where `a` is left to do, with `y` shared, and masks the
interrupt until then. -/
inductive Closes (M : Threads T σ) (R : T → A → Prop) (a : A) (y : σ) : T → σ → Prop
  | done {t : T} : R t a → Closes M R a y t y
  | step {t : T} {x : σ} : M.Masked t → Closes M R a y (M.step t x).1 (M.step t x).2 →
      Closes M R a y t x

/-- `R t a`: the thread is between two actions, and has `a` still to do.  Its next
instruction changes nothing that is shared, or is the first of the action. -/
structure Implements (M : Threads T σ) (act : A → σ → A × σ) (R : T → A → Prop) : Prop where
  unmasked : ∀ t a, R t a → ¬ M.Masked t
  step : ∀ t a x, R t a → R (M.step t x).1 a ∧ (M.step t x).2 = x ∨
    Closes M R (act a x).1 (act a x).2 (M.step t x).1 (M.step t x).2

variable {M : Threads T σ} {R : T → A → Prop} {a : A} {x y : σ} {t : T}

/-- Where the interrupt is not masked, the section is over. -/
theorem Closes.open (h : Closes M R a y t x) (ht : ¬ M.Masked t) : R t a ∧ x = y := by
  cases h with
  | done hr => exact ⟨hr, rfl⟩
  | step hm _ => exact absurd hm ht

/-- Within the section. -/
theorem Closes.next {act : A → σ → A × σ} (hM : Implements M act R) (h : Closes M R a y t x)
    (ht : M.Masked t) : Closes M R a y (M.step t x).1 (M.step t x).2 := by
  cases h with
  | done hr => exact absurd ht (hM.unmasked _ _ hr)
  | step _ hc => exact hc

/-- The running thread is in a section or between two, the others are between two. -/
structure Simulates (M : Threads T σ) (R : T → A → Prop) (s : State P T σ) (n : Actions P A σ) :
    Prop where
  running : Closes M R (n.threads s.running) n.shared (s.threads s.running) s.shared
  others : ∀ p, p ≠ s.running → R (s.threads p) (n.threads p)

variable {s s' : State P T σ} {n : Actions P A σ}

theorem Simulates.open (h : Simulates M R s n) (ho : s.Open M) :
    (∀ p, R (s.threads p) (n.threads p)) ∧ s.shared = n.shared := by
  obtain ⟨hr, hx⟩ := h.running.open ho
  refine ⟨fun p => ?_, hx⟩
  by_cases hp : p = s.running
  · rw [hp]
    exact hr
  · exact h.others p hp

variable {act : A → σ → A × σ} {handler : σ → σ}

theorem Simulates.tick (h : Simulates M R s n) (ho : s.Open M) (next : P) :
    Simulates M R (s.tick handler next) { n with shared := handler n.shared } := by
  obtain ⟨hr, hx⟩ := h.open ho
  refine ⟨?_, fun p _ => hr p⟩
  show Closes M R (n.threads next) (handler n.shared) (s.threads next) (handler s.shared)
  rw [hx]
  exact .done (hr next)

theorem insn_running (s : State P T σ) :
    (s.insn M).threads s.running = (M.step (s.threads s.running) s.shared).1 := update_self ..

theorem insn_other {p : P} (hp : p ≠ s.running) : (s.insn M).threads p = s.threads p :=
  update_of_ne hp ..

/-- **One instruction** is an action, or none. -/
theorem Simulates.insn (handler : σ → σ) (hM : Implements M act R) (h : Simulates M R s n) :
    Simulates M R (s.insn M) n ∨
      ∃ n', ActionStep act handler (some s.running) n n' ∧ Simulates M R (s.insn M) n' := by
  have hothers : ∀ p, p ≠ s.running → R ((s.insn M).threads p) (n.threads p) := by
    intro p hp
    rw [insn_other hp]
    exact h.others p hp
  -- what is left of the section, or what comes behind it
  have hnext : ∀ b y, Closes M R b y (M.step (s.threads s.running) s.shared).1
      (M.step (s.threads s.running) s.shared).2 →
      Closes M R b y ((s.insn M).threads s.running) (s.insn M).shared := by
    intro b y hc
    rw [insn_running]
    exact hc
  by_cases ho : s.Open M
  · obtain ⟨hr, hx⟩ := h.running.open ho
    rcases hM.step _ _ s.shared hr with ⟨hr', hsame⟩ | hc
    · refine Or.inl ⟨hnext _ _ ?_, hothers⟩
      rw [hsame, ← hx]
      exact .done hr'
    · refine Or.inr ⟨_, rfl, ?_, fun p hp => ?_⟩
      · show Closes M R (update n.threads s.running _ s.running) _ _ _
        rw [update_self, ← hx]
        exact hnext _ _ hc
      · show R _ (update n.threads s.running _ p)
        rw [update_of_ne (show p ≠ s.running from hp)]
        exact hothers p hp
  · exact Or.inl ⟨hnext _ _ (h.running.next hM (not_not.mp ho)), hothers⟩

/-- **The threads refine the actions.** -/
theorem Implements.simulates (hM : Implements M act R) {init : State P T σ → Prop}
    {init' : Actions P A σ → Prop} (h0 : ∀ s, init s → ∃ n, init' n ∧ Simulates M R s n)
    (h : Reach init (M.Step handler) s) :
    ∃ n, Reach init' (ActionStep act handler) n ∧ Simulates M R s n := by
  refine Reach.invariant
    (fun s => ∃ n, Reach init' (ActionStep act handler) n ∧ Simulates M R s n) ?_ ?_ h
  · intro s hs
    obtain ⟨n, hn, hsim⟩ := h0 s hs
    exact ⟨n, .start hn, hsim⟩
  · rintro (_ | next) s s' ⟨n, hn, hsim⟩ hstep
    · obtain rfl : s' = s.insn M := hstep
      rcases hsim.insn handler hM with hsim | ⟨n', hact, hsim⟩
      · exact ⟨n, hn, hsim⟩
      · exact ⟨n', .next hn hact, hsim⟩
    · obtain ⟨ho, rfl⟩ := hstep
      exact ⟨_, .next (a := none) hn rfl, hsim.tick ho next⟩

theorem Closes.reopens (hM : Implements M act R) (h : Closes M R a y t x) :
    ∀ s : State P T σ, s.threads s.running = t → s.shared = x →
      ∃ k, ((State.insn M)^[k] s).Open M := by
  induction h with
  | done hr =>
      intro s ht _
      refine ⟨0, ?_⟩
      rw [iterate_zero, id, State.Open, ht]
      exact hM.unmasked _ _ hr
  | step _ _ ih =>
      intro s ht hx
      have ht' : (s.insn M).threads (s.insn M).running = _ := insn_running s
      obtain ⟨k, hk⟩ := ih (s.insn M) (by rw [ht', ht, hx]) (by rw [← ht, ← hx]; rfl)
      exact ⟨k + 1, by rw [iterate_succ_apply]; exact hk⟩

/-- **No thread masks the interrupt for ever**: by itself it comes to where the
interrupt may come. -/
theorem Simulates.reopens (hM : Implements M act R) (h : Simulates M R s n) :
    ∃ k, ((State.insn M)^[k] s).Open M :=
  h.running.reopens hM s rfl rfl

end Masking
