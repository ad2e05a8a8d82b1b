/-
# `critsec.asm`: critical sections

`critsec_enter` returns the interrupt flag as it was and clears it;
`critsec_leave` sets it again if it was set.  A function keeps what
`critsec_enter` returned in a local variable, so sections nest: `vformat` is one,
and `cursor_move` is one inside it.

The model is one processor and any number of processes.  A process executes the
instructions of the two functions, and between them statements on what the
processes share, one at a time.  Before each of these the timer may come if the
interrupt flag is set; its handler runs without interrupts, and any process may
run next, with the flag that it was interrupted with.

The timer can come between `pushfd` and `cli`, and the flag that was pushed is
then still right when the process runs again (`Entering`).  Inside a section a
nested one finds the flag clear and leaves it clear (`Stmt.closes`).  So a
section is one action to all other processes, and to the handler
(`critsec_serialises`).
-/
import Tomk.Lib.Masking
import Tomk.Word

namespace Tomk

open Function Masking Runs

/-! ## Processes -/

/-- The instructions of the two functions, and the statements around them. -/
inductive Insn (σ : Type) where
  | pushfd
  | popEax
  | shrEax (n : Nat)
  | andEax (v : U32)
  | cli
  /-- `mov eax, [esp+4]`, where the argument is the variable `critsec` of the caller. -/
  | movEaxArg
  | testEax (v : U32)
  /-- `jz`, over the next instructions. -/
  | jz (skip : Nat)
  | sti
  /-- `int critsec = critsec_enter();`, with the value that is returned. -/
  | setCritsec
  /-- A test of what is shared, which sets the zero flag where it fails. -/
  | test (c : σ → Bool)
  /-- A statement on what is shared. -/
  | write (f : σ → σ)

/-- The instructions that a process will execute, and its registers; `critsec` are the
variables of that name, the innermost first. -/
structure Thread (σ : Type) where
  code : List (Insn σ)
  eax : U32
  zf : Bool
  eflags : U32
  stack : List U32
  critsec : List U32

variable {σ : Type}

def Insn.run (t : Thread σ) (x : σ) : Insn σ → Thread σ × σ
  | .pushfd => ({ t with stack := t.eflags :: t.stack }, x)
  | .popEax => ({ t with eax := t.stack.headD 0, stack := t.stack.tail }, x)
  | .shrEax n => ({ t with eax := t.eax >>> n }, x)
  | .andEax v => ({ t with eax := t.eax &&& v }, x)
  | .cli => ({ t with eflags := t.eflags &&& ~~~0x200 }, x)
  | .movEaxArg => ({ t with eax := t.critsec.headD 0, critsec := t.critsec.tail }, x)
  | .testEax v => ({ t with zf := t.eax &&& v = 0 }, x)
  | .jz skip => (if t.zf then { t with code := t.code.drop skip } else t, x)
  | .sti => ({ t with eflags := t.eflags ||| 0x200 }, x)
  | .setCritsec => ({ t with critsec := t.eax :: t.critsec }, x)
  | .test c => ({ t with zf := !c x }, x)
  | .write f => (t, f x)

def Thread.step (t : Thread σ) (x : σ) : Thread σ × σ :=
  match t.code with
  | [] => (t, x)
  | i :: code => i.run { t with code := code } x

/-- `IF` of the flags. -/
def Thread.If (t : Thread σ) : Prop := t.eflags.getLsbD 9 = true

def threads (σ : Type) : Threads (Thread σ) σ := ⟨Thread.step, fun t => ¬ t.If⟩

instance : DecidablePred (threads σ).Masked := fun t =>
  inferInstanceAs (Decidable ¬ (t.eflags.getLsbD 9 = true))

/-! ## The source -/

def critsecEnter : List (Insn σ) := [.pushfd, .popEax, .shrEax 9, .andEax 1, .cli]

def critsecLeave : List (Insn σ) := [.movEaxArg, .testEax 1, .jz 1, .sti]

/-- Statements, with critical sections. -/
inductive Stmt (σ : Type) where
  | write (f : σ → σ)
  | seq (a b : Stmt σ)
  | critical (b : Stmt σ)

def Stmt.code : Stmt σ → List (Insn σ)
  | write f => [.write f]
  | seq a b => a.code ++ b.code
  | critical b => critsecEnter ++ .setCritsec :: (b.code ++ critsecLeave)

def Stmt.effect : Stmt σ → σ → σ
  | write f, x => f x
  | seq a b, x => b.effect (a.effect x)
  | critical b, x => b.effect x

/-- The statements outside of sections and the outermost sections. -/
def Stmt.actions : Stmt σ → List (Stmt σ)
  | write f => [write f]
  | seq a b => a.actions ++ b.actions
  | critical b => [critical b]

/-- What is left to do, one of `Stmt.actions` at a time. -/
def doNext : List (Stmt σ) → σ → List (Stmt σ) × σ
  | [], x => ([], x)
  | u :: us, x => (us, u.effect x)

/-! ## Flags -/

theorem kept_flag (f : U32) : (f >>> 9) &&& 1 = if f.getLsbD 9 then 1 else 0 := by
  refine BitVec.eq_of_getLsbD_eq fun i hi => ?_
  rw [BitVec.getLsbD_and, BitVec.getLsbD_ushiftRight]
  rcases i with _ | i
  · cases f.getLsbD 9 <;> rfl
  · have hone : (1 : U32).getLsbD (i + 1) = false := by simp
    rw [hone, Bool.and_false]
    split
    · exact hone.symm
    · simp

theorem cli_flag (f : U32) : (f &&& ~~~0x200).getLsbD 9 = false := by
  rw [BitVec.getLsbD_and, show (~~~0x200 : U32).getLsbD 9 = false from rfl, Bool.and_false]

theorem sti_flag (f : U32) : (f ||| 0x200).getLsbD 9 = true := by
  rw [BitVec.getLsbD_or, show (0x200 : U32).getLsbD 9 = true from rfl, Bool.or_true]

/-! ## Within a section -/

variable {A : Type} {R : Thread σ → A → Prop} {a : A} {x y : σ} {t t' : Thread σ} {k : List (Insn σ)}
  {b : Stmt σ}

theorem step_cons {i : Insn σ} (h : t.code = i :: k) (x : σ) :
    t.step x = i.run { t with code := k } x := by rw [Thread.step, h]

/-- One more instruction of a section. -/
theorem closes_cons {i : Insn σ} (hm : ¬ t.If) (h : t.code = i :: k)
    (hc : Closes (threads σ) R a y (i.run { t with code := k } x).1 (i.run { t with code := k } x).2) :
    Closes (threads σ) R a y t x := by
  refine .step hm ?_
  rw [show (threads σ).step t x = t.step x from rfl, step_cons h]
  exact hc

/-- The process has come to `k`, with its variables as they were. -/
structure Arrived (k : List (Insn σ)) (t t' : Thread σ) : Prop where
  code : t'.code = k
  critsec : t'.critsec = t.critsec

/-- `critsec_enter` within a section returns 0. -/
theorem closes_enter (hm : ¬ t.If) (h : t.code = critsecEnter ++ .setCritsec :: k)
    (hk : ∀ t', t'.code = k → t'.critsec = 0 :: t.critsec → ¬ t'.If → Closes (threads σ) R a y t' x) :
    Closes (threads σ) R a y t x := by
  have hflag : t.eflags.getLsbD 9 = false := Bool.eq_false_iff.mpr hm
  have hcli : ¬ (t.eflags &&& ~~~0x200).getLsbD 9 = true := by
    rw [cli_flag]
    exact Bool.false_ne_true
  refine closes_cons hm h (closes_cons hm rfl (closes_cons hm rfl (closes_cons hm rfl ?_)))
  refine closes_cons hm rfl (closes_cons hcli rfl (hk _ rfl ?_ hcli))
  simp only [Insn.run, List.headD_cons, kept_flag, hflag]
  rfl

/-- `critsec_leave` with 0 leaves interrupts masked. -/
theorem closes_leave {cs : List U32} (hm : ¬ t.If) (h : t.code = critsecLeave ++ k)
    (hc : t.critsec = 0 :: cs)
    (hk : ∀ t', t'.code = k → t'.critsec = cs → ¬ t'.If → Closes (threads σ) R a y t' x) :
    Closes (threads σ) R a y t x := by
  refine closes_cons hm h (closes_cons hm rfl (closes_cons hm rfl ?_))
  simp only [Insn.run, hc, List.headD_cons, List.tail_cons]
  rw [if_pos (by decide)]
  exact hk _ rfl rfl hm

/-- `critsec_leave` with 1 ends the section. -/
theorem closes_end (cs : List U32) (hm : ¬ t.If) (h : t.code = critsecLeave ++ k)
    (hc : t.critsec = 1 :: cs) (hk : ∀ t', t'.code = k → t'.If → R t' a) :
    Closes (threads σ) R a x t x := by
  refine closes_cons hm h (closes_cons hm rfl (closes_cons hm rfl ?_))
  simp only [Insn.run, hc, List.headD_cons, List.tail_cons]
  rw [if_neg (by decide)]
  exact closes_cons hm rfl (.done (hk _ rfl (sti_flag _)))

/-- **A statement within a section** runs to its end, and interrupts stay masked:
a section in it finds the flag clear. -/
theorem Stmt.closes (b : Stmt σ) (hm : ¬ t.If) (h : t.code = b.code ++ k)
    (hk : ∀ t', Arrived k t t' → ¬ t'.If → Closes (threads σ) R a y t' (b.effect x)) :
    Closes (threads σ) R a y t x := by
  induction b generalizing t x k with
  | write f => exact closes_cons hm h (hk _ ⟨rfl, rfl⟩ hm)
  | seq b c ihb ihc =>
      refine ihb hm (h.trans (List.append_assoc ..)) fun t1 h1 hm1 => ?_
      refine ihc hm1 h1.code fun t2 h2 hm2 => ?_
      exact hk t2 ⟨h2.code, h2.critsec.trans h1.critsec⟩ hm2
  | critical b ih =>
      have hcode : t.code = critsecEnter ++ .setCritsec :: (b.code ++ (critsecLeave ++ k)) := by
        rw [h, Stmt.code, List.append_assoc, List.cons_append, List.append_assoc]
      refine closes_enter hm hcode fun t1 hcode1 hc1 hm1 => ?_
      refine ih hm1 hcode1 fun t2 h2 hm2 => ?_
      refine closes_leave hm2 h2.code (h2.critsec.trans hc1) fun t3 hcode3 hc3 hm3 => ?_
      exact hk t3 ⟨hcode3, hc3⟩ hm3

/-! ## Entering a section -/

/-- The process has begun to enter a section with interrupts on: what it read of the flag
is still right. -/
inductive Entering (b : Stmt σ) (k : List (Insn σ)) (t : Thread σ) : Prop
  | start : t.code = (Stmt.critical b).code ++ k → Entering b k t
  | pushed (f : U32) : t.code = critsecEnter.drop 1 ++ .setCritsec :: (b.code ++ (critsecLeave ++ k)) →
      t.stack.head? = some f → f.getLsbD 9 = true → Entering b k t
  | popped : t.code = critsecEnter.drop 2 ++ .setCritsec :: (b.code ++ (critsecLeave ++ k)) →
      t.eax.getLsbD 9 = true → Entering b k t
  | shifted : t.code = critsecEnter.drop 3 ++ .setCritsec :: (b.code ++ (critsecLeave ++ k)) →
      t.eax &&& 1 = 1 → Entering b k t
  | kept : t.code = critsecEnter.drop 4 ++ .setCritsec :: (b.code ++ (critsecLeave ++ k)) →
      t.eax = 1 → Entering b k t

/-- **A process that enters a section**, and the instruction with which it does. -/
theorem Entering.step {a' : A} (h : Entering b k t) (ht : t.If)
    (hR : ∀ t', Entering b k t' → t'.If → R t' a) (hk : ∀ t', t'.code = k → t'.If → R t' a') (x : σ) :
    (R (t.step x).1 a ∧ (t.step x).2 = x) ∨
      Closes (threads σ) R a' (b.effect x) (t.step x).1 (t.step x).2 := by
  cases h with
  | start hcode =>
      have hcode : t.code = critsecEnter ++ .setCritsec :: (b.code ++ (critsecLeave ++ k)) := by
        rw [hcode, Stmt.code, List.append_assoc, List.cons_append, List.append_assoc]
      rw [step_cons (hcode.trans rfl)]
      exact Or.inl ⟨hR _ (.pushed t.eflags rfl rfl ht) ht, rfl⟩
  | pushed f hcode hstack hf =>
      rw [step_cons (hcode.trans rfl)]
      refine Or.inl ⟨hR _ (.popped rfl ?_) ht, rfl⟩
      simp only [Insn.run, List.headD_eq_head?_getD, hstack, Option.getD_some]
      exact hf
  | popped hcode heax =>
      rw [step_cons (hcode.trans rfl)]
      refine Or.inl ⟨hR _ (.shifted rfl ?_) ht, rfl⟩
      simp only [Insn.run, kept_flag, heax, if_true]
  | shifted hcode heax =>
      rw [step_cons (hcode.trans rfl)]
      exact Or.inl ⟨hR _ (.kept rfl heax) ht, rfl⟩
  | kept hcode heax =>
      rw [step_cons (hcode.trans rfl)]
      have hcli : ¬ (t.eflags &&& ~~~0x200).getLsbD 9 = true := by
        rw [cli_flag]
        exact Bool.false_ne_true
      refine Or.inr (closes_cons hcli rfl ?_)
      refine b.closes hcli rfl fun t1 h1 hm1 => closes_end t.critsec hm1 h1.code ?_ hk
      rw [h1.critsec]
      exact congrArg (· :: t.critsec) heax

/-! ## Serial order -/

/-- A statement outside of sections, or a section. -/
def Stmt.IsAction : Stmt σ → Prop
  | seq _ _ => False
  | _ => True

/-- A process between two of its actions, with interrupts on, and what it has to do. -/
structure Between (t : Thread σ) (us : List (Stmt σ)) : Prop where
  flag : t.If
  actions : ∀ u ∈ us, u.IsAction
  code : t.code = us.flatMap Stmt.code ∨
    ∃ b us', us = .critical b :: us' ∧ Entering b (us'.flatMap Stmt.code) t

theorem Stmt.code_actions (b : Stmt σ) : b.actions.flatMap Stmt.code = b.code := by
  induction b with
  | write f => rfl
  | seq a b iha ihb => rw [Stmt.actions, List.flatMap_append, iha, ihb, Stmt.code]
  | critical b => exact List.append_nil _

theorem Stmt.isAction_actions (b : Stmt σ) : ∀ u ∈ b.actions, u.IsAction := by
  induction b with
  | write f =>
      intro u hu
      rw [List.mem_singleton.mp hu]
      trivial
  | seq a b iha ihb =>
      intro u hu
      exact (List.mem_append.mp hu).elim (iha u) (ihb u)
  | critical b =>
      intro u hu
      rw [List.mem_singleton.mp hu]
      trivial

/-- Each process does its actions, one at a time. -/
theorem implements_actions : Implements (threads σ) doNext (Between (σ := σ)) where
  unmasked := fun t us h => not_not.mpr h.flag
  step := fun t us x h => by
    obtain ⟨hon, hact, hcode⟩ := h
    show (Between (t.step x).1 us ∧ (t.step x).2 = x) ∨
      Closes (threads σ) Between (doNext us x).1 (doNext us x).2 (t.step x).1 (t.step x).2
    cases us with
    | nil =>
        -- the process has come to its end
        have hnil : t.code = [] := hcode.resolve_right fun ⟨_, _, h, _⟩ => by cases h
        rw [Thread.step, hnil]
        exact Or.inl ⟨⟨hon, hact, Or.inl hnil⟩, rfl⟩
    | cons u us =>
        have hrest : ∀ u ∈ us, u.IsAction := fun v hv => hact v (List.mem_cons_of_mem u hv)
        cases u with
        | seq c d => exact absurd (hact _ List.mem_cons_self) id
        | write f =>
            have hw : t.code = .write f :: us.flatMap Stmt.code :=
              hcode.resolve_right fun ⟨_, _, h, _⟩ => by cases h
            rw [step_cons hw]
            exact Or.inr (.done ⟨hon, hrest, Or.inl rfl⟩)
        | critical b =>
            have hent : Entering b (us.flatMap Stmt.code) t := by
              rcases hcode with hcode | ⟨_, _, h, hent⟩
              · exact .start hcode
              · cases h
                exact hent
            exact hent.step hon (fun t' h' hon' => ⟨hon', hact, Or.inr ⟨b, us, rfl, h'⟩⟩)
              (fun t' h' hon' => ⟨hon', hrest, Or.inl h'⟩) x

variable {P : Type} [DecidableEq P] {prog : P → Stmt σ} {handler : σ → σ} {s : State P (Thread σ) σ}

/-- The processes are at the beginning of their programs, with interrupts on. -/
structure CritsecStart (prog : P → Stmt σ) (x : σ) (s : State P (Thread σ) σ) : Prop where
  shared : s.shared = x
  flag : ∀ p, (s.threads p).If
  code : ∀ p, (s.threads p).code = (prog p).code

/-- The same system, in which each statement outside of sections and each outermost section
is one step. -/
def SerialReach (prog : P → Stmt σ) (handler : σ → σ) (x : σ) : Actions P (List (Stmt σ)) σ → Prop :=
  Reach (fun n => n = ⟨x, fun p => (prog p).actions⟩) (ActionStep doNext handler)

/-- Each state of the processes is one of their actions in some order, with the instructions
of at most one section on top. -/
theorem critsec_simulates {x : σ} (h : Reach (CritsecStart prog x) ((threads σ).Step handler) s) :
    ∃ n, SerialReach prog handler x n ∧ Simulates (threads σ) Between s n := by
  refine implements_actions.simulates (fun s hs => ?_) h
  have hb : ∀ p, Between (s.threads p) (prog p).actions := fun p =>
    ⟨hs.flag p, (prog p).isAction_actions, Or.inl (by rw [hs.code, Stmt.code_actions])⟩
  refine ⟨_, rfl, ?_, fun p _ => hb p⟩
  rw [hs.shared]
  exact .done (hb s.running)

theorem running_insn (s : State P (Thread σ) σ) (k : Nat) :
    ((State.insn (threads σ))^[k] s).running = s.running := by
  induction k with
  | zero => rfl
  | succ k ih =>
      rw [iterate_succ_apply']
      exact ih

/-- **Critical sections serialise.**  Whatever the timer interrupts, there is a serial
order of the sections that gives the same: where an interrupt may come, what is
shared is what that order made of it.  Only the running process can be in a
section, and by itself it comes to where interrupts are on again. -/
theorem critsec_serialises {x : σ} (h : Reach (CritsecStart prog x) ((threads σ).Step handler) s) :
    ∃ n, SerialReach prog handler x n ∧
      (∀ p, p ≠ s.running → Between (s.threads p) (n.threads p)) ∧
      ((s.threads s.running).If →
        Between (s.threads s.running) (n.threads s.running) ∧ s.shared = n.shared) ∧
      ∃ k, (((State.insn (threads σ))^[k] s).threads s.running).If := by
  obtain ⟨n, hn, hsim⟩ := critsec_simulates h
  refine ⟨n, hn, hsim.others, fun hon => ?_, ?_⟩
  · obtain ⟨hall, hx⟩ := hsim.open (not_not.mpr hon)
    exact ⟨hall s.running, hx⟩
  · obtain ⟨k, hk⟩ := hsim.reopens implements_actions
    rw [State.Open, running_insn] at hk
    exact ⟨k, not_not.mp hk⟩

/-! ## Two processes -/

/-- A nested section in the one, a section and a statement in the other. -/
def twoSections : Bool → Stmt Nat
  | true => .critical (.seq (.write (· + 1)) (.critical (.write (· * 10))))
  | false => .seq (.critical (.seq (.write (· + 2)) (.write (· * 2)))) (.write (· + 5))

def twoSectionsStart : State Bool (Thread Nat) Nat :=
  ⟨0, fun p => ⟨(twoSections p).code, 0, false, 0x202, [], []⟩, true⟩

/-- The timer interrupts the first process in `critsec_enter`, and the second one runs to the
middle of its section. -/
def twoSectionsMoves : List (Move Bool) :=
  [.insn, .insn, .tick false] ++ List.replicate 7 .insn

theorem critsec_serialises_two : ∃ s n,
    twoSectionsMoves.foldlM ((threads Nat).run id) twoSectionsStart = some s ∧
      SerialReach twoSections id 0 n ∧ Between (s.threads true) (n.threads true) ∧ s.shared = 2 := by
  obtain ⟨s, hrun, hrunning, hshared⟩ : ∃ s,
      twoSectionsMoves.foldlM ((threads Nat).run id) twoSectionsStart = some s ∧
        s.running = false ∧ s.shared = 2 := ⟨_, rfl, rfl, rfl⟩
  have hstart : CritsecStart twoSections 0 twoSectionsStart :=
    ⟨rfl, fun _ => (by decide : (0x202 : U32).getLsbD 9 = true), fun _ => rfl⟩
  obtain ⟨n, hn, hothers, _⟩ :=
    critsec_serialises (.foldlM (fun _ _ _ _ h => Threads.run_step h) (.start hstart) hrun)
  refine ⟨s, n, hrun, hn, hothers true ?_, hshared⟩
  rw [hrunning]
  decide

end Tomk
