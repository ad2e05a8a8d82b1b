/-
# `kprint` from several processes

`vformat` is a critical section from its first statement to its last, and
`cursor_move`, which every `tty_putc` ends with, is one inside it.  The model has
the statements of `tty_putc` one by one, with the instructions of both sections,
and the timer between any two of them where the interrupt flag is set.

Processes that print a text each time never mix them: the screen and the cursor
are those of the whole texts in some order, in which each process comes with
its own texts in turn (`kprint_serialises`).  Without the outer section the
characters could mix, and a process could be stopped between its character and
the column it is shown in.
-/
import Tomk.Ke.Critsec
import Tomk.Video.Tty

namespace Tomk

open Function Masking Runs

/-! ## The source -/

/-- The statements of `cursor_move(tty_column, tty_row)`, at the end of `tty_putc`. -/
def cursorMoveBody : Stmt Tty :=
  .seq (.write fun s => s.outCrt 0x0F (((s.row * vgaWidth + s.column) &&& 0xFF).setWidth 8))
    (.write fun s => s.outCrt 0x0E (((s.row * vgaWidth + s.column) >>> 8 &&& 0xFF).setWidth 8))

/-- `tty_putc`. -/
def ttyPutcStmt (c : U8) : Stmt Tty :=
  .seq (.write (ttyShow c))
    (.seq (.write fun s => let (s, u) := ttyAdvance c s; if u then ttyNextRow s else s)
      (.critical cursorMoveBody))

/-- `vformat`, from the first character that it puts out to the last; what it computes in
between is in its own variables. -/
def vformatBody : List U8 → Stmt Tty
  | [] => .write id
  | c :: text => .seq (ttyPutcStmt c) (vformatBody text)

/-- A process that prints these texts. -/
def printProgram : List (List U8) → Stmt Tty
  | [] => .write id
  | text :: texts => .seq (.critical (vformatBody text)) (printProgram texts)

theorem ttyPutcStmt_effect (c : U8) (s : Tty) : (ttyPutcStmt c).effect s = ttyPutc s c := rfl

/-- **The statements of `vformat`** show its text. -/
theorem vformatBody_effect (text : List U8) (s : Tty) :
    (vformatBody text).effect s = text.foldl ttyPutc s := by
  induction text generalizing s with
  | nil => rfl
  | cons c text ih =>
      rw [vformatBody, Stmt.effect, ih, ttyPutcStmt_effect]
      rfl

/-! ## Whole texts -/

/-- A process shows its next text. -/
def showNext : List (List U8) → Tty → List (List U8) × Tty
  | [], s => ([], s)
  | text :: texts, s => (texts, text.foldl ttyPutc s)

variable {P : Type} [DecidableEq P]

/-- The processes show their texts, one whole text at a time. -/
def PrintReach (texts : P → List (List U8)) (s : Tty) : Actions P (List (List U8)) Tty → Prop :=
  Reach (fun n => n = ⟨s, texts⟩) (ActionStep showNext id)

theorem printProgram_actions (texts : List (List U8)) : (printProgram texts).actions
    = texts.map (fun text => .critical (vformatBody text)) ++ [.write id] := by
  induction texts with
  | nil => rfl
  | cons text texts ih =>
      rw [printProgram, Stmt.actions, ih]
      rfl

/-- What is left of a program: texts, and its end. -/
inductive LeftToShow : List (Stmt Tty) → List (List U8) → Prop
  | texts (texts : List (List U8)) :
      LeftToShow (texts.map (fun text => .critical (vformatBody text)) ++ [.write id]) texts
  | ended : LeftToShow [] []

theorem LeftToShow.next {us : List (Stmt Tty)} {texts : List (List U8)} (h : LeftToShow us texts)
    (s : Tty) : LeftToShow (doNext us s).1 (showNext texts s).1 ∧
      (doNext us s).2 = (showNext texts s).2 := by
  cases h with
  | texts texts =>
      cases texts with
      | nil => exact ⟨.ended, rfl⟩
      | cons text texts => exact ⟨.texts texts, vformatBody_effect text s⟩
  | ended => exact ⟨.ended, rfl⟩

/-- The sections in their order are the texts in that order. -/
theorem printReach_of_serial {texts : P → List (List U8)} {s : Tty}
    {n : Actions P (List (Stmt Tty)) Tty} (h : SerialReach (fun p => printProgram (texts p)) id s n) :
    ∃ m, PrintReach texts s m ∧ n.shared = m.shared ∧ ∀ p, LeftToShow (n.threads p) (m.threads p) := by
  refine Reach.invariant (fun n => ∃ m, PrintReach texts s m ∧ n.shared = m.shared ∧
    ∀ p, LeftToShow (n.threads p) (m.threads p)) ?_ ?_ h
  · rintro n rfl
    refine ⟨⟨s, texts⟩, .start rfl, rfl, fun p => ?_⟩
    show LeftToShow (printProgram (texts p)).actions (texts p)
    rw [printProgram_actions]
    exact .texts _
  · rintro a n n' ⟨m, hm, hs, hleft⟩ hstep
    cases a with
    | none =>
        obtain rfl := hstep
        exact ⟨m, hm, hs, hleft⟩
    | some p =>
        obtain rfl := hstep
        obtain ⟨hnext, heff⟩ := (hleft p).next n.shared
        rw [hs] at hnext heff
        refine ⟨_, .next hm (show ActionStep showNext id (some p) m _ from rfl), ?_, fun q => ?_⟩
        · rw [hs]
          exact heff
        · by_cases hq : q = p
          · subst hq
            simp only [update_self, hs]
            exact hnext
          · simp only [update_of_ne hq]
            exact hleft q

/-- The texts that a process shows, of all that are shown. -/
def textsOf (order : List (P × List U8)) (p : P) : List (List U8) :=
  (order.filter fun o => o.1 = p).map Prod.snd

/-- The order in which the texts have been shown. -/
theorem printReach_order {texts : P → List (List U8)} {s : Tty} {m : Actions P (List (List U8)) Tty}
    (h : PrintReach texts s m) : ∃ order : List (P × List U8),
      m.shared = (order.flatMap Prod.snd).foldl ttyPutc s ∧
      ∀ p, texts p = textsOf order p ++ m.threads p := by
  refine Reach.invariant (fun m => ∃ order : List (P × List U8),
    m.shared = (order.flatMap Prod.snd).foldl ttyPutc s ∧
      ∀ p, texts p = textsOf order p ++ m.threads p) ?_ ?_ h
  · rintro m rfl
    exact ⟨[], rfl, fun _ => rfl⟩
  · rintro a m m' ⟨order, hs, hleft⟩ hstep
    cases a with
    | none =>
        obtain rfl := hstep
        exact ⟨order, hs, hleft⟩
    | some p =>
        obtain rfl := hstep
        cases htexts : m.threads p with
        | nil =>
            refine ⟨order, hs, fun q => ?_⟩
            rw [hleft q, ← htexts, show showNext (m.threads p) m.shared = (m.threads p, m.shared) by
              rw [htexts]; rfl, update_eq_self]
        | cons text rest =>
            refine ⟨order ++ [(p, text)], ?_, fun q => ?_⟩
            · simp only [showNext, hs, List.flatMap_append, List.foldl_append, List.flatMap_singleton]
            · rw [hleft q, textsOf, textsOf, List.filter_append, List.map_append, List.append_assoc]
              congr 1
              by_cases hq : q = p
              · subst hq
                simp [showNext, htexts]
              · simp [hq, Ne.symm hq]

/-- **Texts do not mix.**  Whatever the timer interrupts, where an interrupt may come the
screen shows whole texts, one after the other, with those of each process in its
order. -/
theorem kprint_serialises {texts : P → List (List U8)} {tty : Tty} {s : State P (Thread Tty) Tty}
    (h : Reach (CritsecStart (fun p => printProgram (texts p)) tty) ((threads Tty).Step id) s)
    (hon : (s.threads s.running).If) :
    ∃ order : List (P × List U8), s.shared = (order.flatMap Prod.snd).foldl ttyPutc tty ∧
      ∀ p, textsOf order p <+: texts p := by
  obtain ⟨n, hn, hsim⟩ := critsec_simulates h
  obtain ⟨m, hm, hs, _⟩ := printReach_of_serial hn
  obtain ⟨order, hshow, hleft⟩ := printReach_order hm
  refine ⟨order, (hsim.open (not_not.mpr hon)).2.trans (hs.trans hshow), fun p => ?_⟩
  rw [hleft p]
  exact List.prefix_append ..

/-- Two processes that print a character each. -/
def twoTexts : Bool → List (List U8)
  | true => [[ch 'A']]
  | false => [[ch 'B']]

def twoTextsStart : State Bool (Thread Tty) Tty :=
  ⟨⟨0, 0, 0x07, fun _ => 0, []⟩, fun p => ⟨(printProgram (twoTexts p)).code, 0, false, 0x202, [], []⟩,
    true⟩

/-- The first process is interrupted when it has read the flag; the second one prints. -/
def twoTextsMoves : List (Move Bool) :=
  [.insn, .insn, .insn, .tick false] ++ List.replicate 26 .insn

theorem kprint_serialises_two : ∃ s, twoTextsMoves.foldlM ((threads Tty).run id) twoTextsStart = some s ∧
    s.shared.column = 1 ∧ ∃ order : List (Bool × List U8),
      s.shared = (order.flatMap Prod.snd).foldl ttyPutc twoTextsStart.shared ∧
      ∀ p, textsOf order p <+: twoTexts p := by
  have hend : ((twoTextsMoves.foldlM ((threads Tty).run id) twoTextsStart).map fun s =>
      ((s.threads s.running).eflags.getLsbD 9, s.shared.column)) = some (true, 1) := by decide +kernel
  obtain ⟨s, hrun, hs⟩ := Option.map_eq_some_iff.mp hend
  obtain ⟨hon, hcolumn⟩ := Prod.mk.inj hs
  have hstart : CritsecStart (fun p => printProgram (twoTexts p)) twoTextsStart.shared twoTextsStart :=
    ⟨rfl, fun _ => (by decide : (0x202 : U32).getLsbD 9 = true), fun _ => rfl⟩
  exact ⟨s, hrun, hcolumn,
    kprint_serialises (.foldlM (fun _ _ _ _ h => Threads.run_step h) (.start hstart) hrun) hon⟩

end Tomk
