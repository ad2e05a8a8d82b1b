/-
# From the keys to the commands

`kshell` takes a code from the queue of the keyboard in each turn of its loop.  In the steps
here the call of `ps2_getscancode` goes instruction by instruction, with interrupts wherever
they come, and the rest of the turn follows when it returns.  The serial line is silent.

Some commands take codes out of the queue themselves, or may not come back to the loop
(`KshellCommand.Quiet` are the others).  As long as none of these is called and no interrupt finds 32 codes
waiting, every code counts, once and in order: between two calls the shell shows what the
editor makes of the codes taken so far, and calls alone bring it to what the editor makes of
all that have come (`typing_shows`).
-/
import Tomk.Driver.Ps2
import Tomk.Shell.Session

namespace Tomk

open Runs

/-! ## The steps -/

/-- `inp` reads codes without end and `reboot` resets the machine; `alloctestk` and `alloctestu`
wait for keys; `prockill` may take the shell off the processor, and `procfork` start it again
beside itself. -/
def KshellCommand.Quiet (c : KshellCommand) : Prop :=
  c ∉ [KshellCommand.inputPrint, .reboot, .alloctestk, .alloctestu, .procKill, .procFork]

instance (c : KshellCommand) : Decidable c.Quiet := inferInstanceAs (Decidable (¬ _))

/-- The commands that were called have come back, and have taken no code. -/
def Session.Quiet (t : Session) : Prop := ∀ call ∈ t.calls, ∀ c ∈ call.command, c.Quiet

instance (t : Session) : Decidable t.Quiet := inferInstanceAs (Decidable (∀ call ∈ t.calls, _))

/-- The queue and its caller, which is `kshell`; no session where a store has left the line, or
a command is called that is not quiet. -/
structure Typing extends Ps2State where
  session : Option Session

/-- The key of a code, with nothing on the serial line. -/
def typedKey (sc : U32) : Key := ⟨sc.setWidth 8, 0⟩

/-- A turn of the loop, up to the next call of `ps2_getscancode`. -/
def typingTurn (past : U8 → U8) (t : Session) (key : Key) : Option Session :=
  (sessionTurn past t key).bind fun t' => if t'.Quiet then some t' else none

/-- The session, after the turn of a call that has returned. -/
def Typing.answered (past : U8 → U8) (s : Typing) : Option Session :=
  if s.pc = .ret then s.session.bind fun t => typingTurn past t (typedKey s.eax) else s.session

def Typing.insn (past : U8 → U8) (s : Typing) : Typing := ⟨s.toPs2State.insn, s.answered past⟩

def Typing.run (past : U8 → U8) (s : Typing) : Ps2Move → Typing
  | .insn => s.insn past
  | .int al => ⟨(Ps2Move.int al).run s.toPs2State, s.session⟩

def TypingStep (past : U8 → U8) (m : Ps2Move) (s s' : Typing) : Prop := s' = s.run past m

def TypingStart (s : Typing) : Prop :=
  Ps2Start s.toPs2State ∧ s.session = some ⟨Shell.start, []⟩

/-- An interrupt with a make code comes while fewer than 32 codes wait. -/
def Ps2Move.HasRoom : Ps2Move → Typing → Prop
  | .insn, _ => True
  | .int al, s => Make al → s.received.length < s.returned.length + 32

instance (m : Ps2Move) (s : Typing) : Decidable (m.HasRoom s) :=
  match m with
  | .insn => inferInstanceAs (Decidable True)
  | .int al => inferInstanceAs (Decidable (Make al → _))

/-- `n` instructions, with no interrupt. -/
def Typing.alone (past : U8 → U8) (s : Typing) : Nat → Typing
  | 0 => s
  | n + 1 => (s.insn past).alone past n

variable {past : U8 → U8} {s s' : Typing} {lo : Nat}

/-! ## Sessions without those commands -/

/-- The turns of a session in which no such command is called. -/
def typingSession (past : U8 → U8) (keys : List Key) : Option Session :=
  keys.foldlM (typingTurn past) ⟨Shell.start, []⟩

variable {t t' : Session} {key : Key}

/-- A turn takes no call back. -/
theorem sessionTurn_calls (h : sessionTurn past t key = some t') : t.calls <+: t'.calls := by
  obtain ⟨shell, -, h⟩ := Option.bind_eq_some_iff.mp h
  have hcalls : ∃ calls, t'.calls = t.calls ++ calls := by
    split at h
    · obtain ⟨call, -, h⟩ := Option.bind_eq_some_iff.mp h
      exact ⟨call.toList, by rw [← Option.some.inj h]⟩
    · exact ⟨[], by rw [← Option.some.inj h]; rfl⟩
  obtain ⟨calls, hcalls⟩ := hcalls
  exact hcalls ▸ List.prefix_append t.calls calls

theorem Session.Quiet.before (h : t'.Quiet) (hcalls : t.calls <+: t'.calls) : t.Quiet :=
  fun call hc => h call (hcalls.subset hc)

theorem kshellSession_concat (keys : List Key) (key : Key) :
    kshellSession past (keys ++ [key])
      = (kshellSession past keys).bind fun t => sessionTurn past t key := by
  rw [kshellSession, List.foldlM_append]
  simp only [List.foldlM_cons, List.foldlM_nil, bind_pure]
  rfl

theorem typingSession_concat (keys : List Key) (key : Key) :
    typingSession past (keys ++ [key])
      = (typingSession past keys).bind fun t => typingTurn past t key := by
  rw [typingSession, List.foldlM_append]
  simp only [List.foldlM_cons, List.foldlM_nil, bind_pure]
  rfl

theorem typingTurn_quiet (h : typingTurn past t key = some t') : t'.Quiet := by
  obtain ⟨t1, -, h⟩ := Option.bind_eq_some_iff.mp h
  split at h
  · next hq => exact Option.some.inj h ▸ hq
  · cases h

theorem quiet_of_typingSession {keys : List Key} (h : typingSession past keys = some t) : t.Quiet := by
  induction keys using List.reverseRecOn with
  | nil =>
      rw [← Option.some.inj h]
      exact fun _ hc => absurd hc List.not_mem_nil
  | append_singleton keys key _ =>
      rw [typingSession_concat] at h
      obtain ⟨t0, -, hturn⟩ := Option.bind_eq_some_iff.mp h
      exact typingTurn_quiet hturn

/-- Without them a session goes on as one of `kshell`. -/
theorem typingSession_quiet {keys : List Key} (h : kshellSession past keys = some t) (hq : t.Quiet) :
    typingSession past keys = some t := by
  induction keys using List.reverseRecOn generalizing t with
  | nil => exact h
  | append_singleton keys key ih =>
      rw [kshellSession_concat] at h
      obtain ⟨t0, h0, hturn⟩ := Option.bind_eq_some_iff.mp h
      rw [typingSession_concat, ih h0 (hq.before (sessionTurn_calls hturn)), Option.bind_some,
        typingTurn, hturn, Option.bind_some, if_pos hq]

/-- The lines that were entered call none of them. -/
def Editor.Quiet (e : Editor) : Prop := ∀ r ∈ e.requests, ∀ c ∈ r.command, c.Quiet

instance (e : Editor) : Decidable e.Quiet := inferInstanceAs (Decidable (∀ r ∈ e.requests, _))

theorem Shows.quiet {e : Editor} (h : Shows t e) (hq : e.Quiet) : t.Quiet := by
  intro call hc
  exact hq call.request (h.calls ▸ List.mem_map_of_mem hc)

/-- The session shows what the editor makes of the keys. -/
theorem typingSession_shows {keys : List Key} {e : Editor} (he : editorRun past keys = some e)
    (hq : e.Quiet) : ∃ t, typingSession past keys = some t ∧ Shows t e := by
  obtain ⟨t, hrun, hshows⟩ := shows_start.run he
  exact ⟨t, typingSession_quiet hrun (hshows.quiet hq), hshows⟩

theorem editorTurn_keeps {e e' : Editor} (h : editorTurn past e key = some e') :
    e.requests <+: e'.requests := by
  rw [editorTurn_requests h]
  exact List.prefix_append _ _

/-- What the editor has made of the first keys. -/
theorem editorRun_before {keys more : List Key} {e : Editor} (h : editorRun past (keys ++ more) = some e)
    (hq : e.Quiet) : ∃ e', editorRun past keys = some e' ∧ e'.Quiet := by
  rw [editorRun, List.foldlM_append] at h
  obtain ⟨e', he', hmore⟩ := Option.bind_eq_some_iff.mp h
  refine ⟨e', he', fun r hr => hq r ?_⟩
  clear h he'
  induction more generalizing e' with
  | nil =>
      obtain rfl := Option.some.inj hmore
      exact hr
  | cons key more ih =>
      obtain ⟨e1, hturn, hrest⟩ := Option.bind_eq_some_iff.mp hmore
      exact ih e1 hrest ((editorTurn_keeps hturn).subset hr)

/-! ## The invariant -/

/-- The first `lo` codes have been returned, and their turns are those of the session. -/
structure Typing.Inv (past : U8 → U8) (s : Typing) (lo : Nat) : Prop where
  queue : ∃ idx, s.toPs2State.Inv lo idx
  returned : s.returned = (s.received.take lo).map (·.setWidth 32)
  eax : s.pc ≠ .xorEax → s.pc ≠ .ret → s.eax = 0
  session : s.answered past = typingSession past (s.returned.map typedKey)

theorem sessionTurn_noKey (t : Session) : sessionTurn past t (typedKey 0) = some t := by
  have hkey : typedKey 0 = ⟨0, 0⟩ := rfl
  have hchar : keyChar past ⟨0, 0⟩ = 0 := if_neg (not_not_intro rfl)
  have hturn : kshellTurn past t.shell ⟨0, 0⟩ = some t.shell := by
    simp [kshellTurn]
  have hnot : ¬ (0 : U8) = 0x0D := by decide
  simp only [hkey, sessionTurn, hturn, hchar, if_neg hnot, Option.bind_eq_bind, Option.bind_some,
    Option.toList_none, List.append_nil]

/-- A call without a code changes nothing. -/
theorem typingSession_noKey (keys : List Key) :
    ((typingSession past keys).bind fun t => typingTurn past t (typedKey 0)) = typingSession past keys := by
  cases hrun : typingSession past keys with
  | none => rfl
  | some t =>
      rw [Option.bind_some, typingTurn, sessionTurn_noKey, Option.bind_some,
        if_pos (quiet_of_typingSession hrun)]

theorem TypingStart.inv (hs : TypingStart s) : s.Inv past 0 := by
  obtain ⟨hstart, hsession⟩ := hs
  have hpc : s.pc = .xorEax := hstart.2.1
  have hnot : ¬ s.pc = .ret := by
    rw [hpc]
    decide
  refine ⟨⟨[], hstart.inv⟩, hstart.2.2.2, fun h => absurd hpc h, ?_⟩
  rw [Typing.answered, if_neg hnot, hsession, hstart.2.2.2]
  rfl

theorem Typing.Inv.le (h : s.Inv past lo) : lo ≤ s.received.length := by
  obtain ⟨idx, hq⟩ := h.queue
  have hcount := hq.count
  omega

theorem Typing.Inv.length (h : s.Inv past lo) : s.returned.length = lo := by
  rw [h.returned, List.length_map, List.length_take, Nat.min_eq_left h.le]

/-! ## One instruction -/

section Queue

variable {t : Ps2State} {lo' : Nat} {idx idx' : List Nat}

/-- How far the codes have been returned can be told from the queue. -/
theorem Ps2State.insn_lo (hi : t.Inv lo idx) (hi' : t.insn.Inv lo' idx') :
    lo' = if t.pc = .movItem then lo + 1 else lo := by
  have h := hi.count
  have h' := hi'.count
  rw [t.insn_received] at h'
  cases hpc : t.pc with
  | decCount =>
      have hlo := (hi.reading (Or.inr (Or.inr (Or.inl hpc)))).1
      simp only [Ps2State.insn, hpc, Ps2Pc.taken] at h h'
      rw [if_neg (by decide)]
      bv_omega
  | movItem =>
      simp only [Ps2State.insn, hpc, Ps2Pc.taken] at h h'
      rw [if_pos rfl]
      omega
  | jz =>
      have htaken : (if t.zf = true then Ps2Pc.ret else Ps2Pc.movHead).taken = 0 := by
        split <;> rfl
      simp only [Ps2State.insn, hpc, htaken] at h h'
      rw [if_neg (by decide)]
      simp only [Ps2Pc.taken] at h
      omega
  | _ =>
      simp only [Ps2State.insn, hpc, Ps2Pc.taken] at h h'
      rw [if_neg (by decide)]
      omega

theorem Ps2State.insn_returned (t : Ps2State) :
    t.insn.returned
      = t.returned ++ if t.pc = .movItem then [(t.buff t.ebx).setWidth 32] else [] := by
  rw [Ps2State.insn]
  cases t.pc with
  | movItem => rfl
  | _ => exact (List.append_nil _).symm

end Queue

/-- The code that is read is the next one that was received. -/
theorem Typing.Inv.insn_returned (h : s.Inv past lo) :
    (s.insn past).returned
      = ((s.insn past).received.take (if s.pc = .movItem then lo + 1 else lo)).map
          (·.setWidth 32) := by
  obtain ⟨idx, hq⟩ := h.queue
  show s.toPs2State.insn.returned = (s.toPs2State.insn.received.take _).map _
  rw [s.toPs2State.insn_returned, s.toPs2State.insn_received]
  by_cases hpc : s.pc = .movItem
  · obtain ⟨hlt, hebx⟩ := hq.reading (Or.inr (Or.inr (Or.inr hpc)))
    have hbuff : s.buff s.ebx = s.received.getD lo 0 :=
      hq.queue.slot lo (Nat.le_refl lo) hlt s.ebx hebx
    rw [if_pos hpc, if_pos hpc, List.take_add_one, List.map_append, ← h.returned, hbuff,
      List.getElem?_eq_getElem hlt, List.getD_eq_getElem _ _ hlt]
    rfl
  · rw [if_neg hpc, if_neg hpc, List.append_nil, h.returned]

/-- **An instruction** gives the session the turn of the code that it returns. -/
theorem Typing.Inv.insn_session (h : s.Inv past lo) :
    (s.insn past).answered past = typingSession past ((s.insn past).returned.map typedKey) := by
  have hnext : (s.insn past).answered past
      = if s.toPs2State.insn.pc = .ret then
          (s.answered past).bind fun t => typingTurn past t (typedKey s.toPs2State.insn.eax)
        else s.answered past := rfl
  have hreturned : (s.insn past).returned = s.toPs2State.insn.returned := rfl
  rw [hnext, hreturned, s.toPs2State.insn_returned, h.session]
  cases hpc : s.pc with
  | movItem =>
      rw [if_pos rfl, List.map_append, List.map_singleton, typingSession_concat]
      simp only [Ps2State.insn, hpc, if_true]
  | jz =>
      have heax : s.eax = 0 := h.eax (by rw [hpc]; decide) (by rw [hpc]; decide)
      have hnot : ¬ Ps2Pc.jz = .movItem := by decide
      -- no code: the turn does nothing
      simp only [Ps2State.insn, hpc, heax, typingSession_noKey, ite_self,
        if_neg hnot, List.append_nil]
  | _ =>
      simp only [Ps2State.insn, hpc, reduceCtorEq, if_false, List.append_nil]

theorem Typing.Inv.insn (h : s.Inv past lo) : ∃ lo', (s.insn past).Inv past lo' := by
  obtain ⟨idx, hq⟩ := h.queue
  obtain ⟨lo', idx', hq'⟩ := hq.insn
  have hreturned := h.insn_returned
  rw [← Ps2State.insn_lo hq hq'] at hreturned
  refine ⟨lo', ⟨idx', hq'⟩, hreturned, fun hstart hret => ?_, h.insn_session⟩
  have hkeep := h.eax
  simp only [Typing.insn, Ps2State.insn] at hstart hret ⊢
  cases hpc : s.pc with
  | xorEax => rfl
  | movItem =>
      rw [hpc] at hret
      exact absurd rfl hret
  | ret =>
      rw [hpc] at hstart
      exact absurd rfl hstart
  | _ => exact hkeep (by rw [hpc]; decide) (by rw [hpc]; decide)

/-! ## An interrupt -/

theorem Typing.Inv.spares (h : s.Inv past lo) {al : U8} (hroom : (Ps2Move.int al).HasRoom s) :
    (Ps2Move.int al).Spares s.toPs2State := by
  rintro hm ⟨hpc, hebx⟩
  obtain ⟨idx, hq⟩ := h.queue
  have hlt : s.received.length < s.returned.length + 32 := hroom hm
  rw [h.length] at hlt
  obtain ⟨hlo, hmod⟩ := hq.reading hpc
  have htail := hq.queue.tail
  rw [← hebx, hmod] at htail
  omega

/-- **An interrupt** that finds room leaves the session as it is. -/
theorem Typing.Inv.int (h : s.Inv past lo) {al : U8} (hroom : (Ps2Move.int al).HasRoom s) :
    (s.run past (.int al)).Inv past lo := by
  obtain ⟨idx, hq⟩ := h.queue
  obtain ⟨lo', hq'⟩ := hq.int (h.spares hroom)
  have hcount := hq.count
  have hcount' := hq'.count
  by_cases hm : Make al
  · have hlt : s.received.length < s.returned.length + 32 := hroom hm
    rw [h.length] at hlt
    have h32 : s.count.toNat < 32 := by omega
    simp only [Ps2Move.run, ps2IntHandler_make _ hm (Nat.le_of_lt h32), if_pos hm, if_pos h32,
      List.length_append, List.length_singleton] at hcount'
    obtain rfl : lo' = lo := by bv_omega
    refine ⟨⟨idx, hq'⟩, ?_, h.eax, h.session⟩
    simp only [Typing.run, Ps2Move.run, if_pos hm]
    rw [List.take_append_of_le_length h.le, h.returned]
  · have hsame : (Ps2Move.int al).run s.toPs2State = s.toPs2State := by
      simp only [Ps2Move.run, ps2IntHandler_other _ hm, if_neg hm]
    rw [Typing.run, hsame]
    exact h

/-! ## Runs -/

theorem Typing.Inv.alone (h : s.Inv past lo) (n : Nat) :
    (∃ lo', (s.alone past n).Inv past lo') ∧
      (s.alone past n).toPs2State = s.toPs2State.alone n := by
  induction n generalizing s lo with
  | zero => exact ⟨⟨lo, h⟩, rfl⟩
  | succ n ih =>
      obtain ⟨lo', h'⟩ := h.insn
      exact ih h'

/-- Between two calls. -/
theorem Typing.Inv.between (h : s.Inv past lo) (hpc : s.pc = .xorEax) :
    s.session = typingSession past (s.returned.map typedKey) := by
  have hsession := h.session
  have hnot : ¬ s.pc = .ret := by
    rw [hpc]
    decide
  rwa [Typing.answered, if_neg hnot] at hsession

theorem Typing.inv_of_reach
    (h : Reach TypingStart (Guarded Ps2Move.HasRoom (TypingStep past)) s) :
    ∃ lo, s.Inv past lo := by
  refine Reach.invariant (fun s => ∃ lo, s.Inv past lo) (fun s hs => ⟨0, hs.inv⟩)
    (fun m s s' hs hstep => ?_) h
  obtain ⟨lo, hi⟩ := hs
  obtain ⟨hroom, rfl⟩ := hstep
  cases m with
  | insn => exact hi.insn
  | int al => exact ⟨lo, hi.int hroom⟩

/-- The keys of the codes that were received. -/
def Typing.typed (s : Typing) : List Key := s.received.map fun sc => ⟨sc, 0⟩

/-- And of those that `ps2_getscancode` has returned. -/
def Typing.taken (s : Typing) : List Key := s.returned.map typedKey

theorem Typing.Inv.taken (h : s.Inv past lo) : s.taken = s.typed.take lo := by
  rw [Typing.taken, h.returned, List.map_map, Typing.typed, ← List.map_take]
  refine List.map_congr_left fun sc _ => ?_
  show Key.mk ((sc.setWidth 32).setWidth 8) 0 = ⟨sc, 0⟩
  rw [BitVec.setWidth_setWidth_of_le sc (by decide), BitVec.setWidth_eq]

/-- **Every key counts.**  Wherever interrupts come in the calls of `ps2_getscancode`, as long as
none finds 32 codes waiting and the lines call quiet commands, the shell shows between two calls
what the editor makes of the codes taken so far, which are the first of those received, with at
most 32 behind them; and the calls that follow bring it to what the editor makes of all that
were received. -/
theorem typing_shows (h : Reach TypingStart (Guarded Ps2Move.HasRoom (TypingStep past)) s)
    {e : Editor} (he : editorRun past s.typed = some e) (hquiet : e.Quiet) :
    (s.pc = .xorEax → s.taken <+: s.typed ∧ s.typed.length ≤ s.taken.length + 32 ∧
      ∃ e' t, editorRun past s.taken = some e' ∧ s.session = some t ∧ Shows t e') ∧
    ∃ n t, (s.alone past n).Drained ∧ (s.alone past n).session = some t ∧ Shows t e := by
  obtain ⟨lo, hi⟩ := Typing.inv_of_reach h
  constructor
  · intro hpc
    obtain ⟨idx, hq⟩ := hi.queue
    have hprefix : s.taken <+: s.typed := hi.taken ▸ List.take_prefix lo s.typed
    obtain ⟨more, hmore⟩ := hprefix
    obtain ⟨e', he', hquiet'⟩ := editorRun_before (hmore ▸ he) hquiet
    obtain ⟨t, hrun, hshows⟩ := typingSession_shows he' hquiet'
    refine ⟨⟨more, hmore⟩, ?_, e', t, he', (hi.between hpc).trans hrun, hshows⟩
    rw [Typing.typed, Typing.taken, List.length_map, List.length_map, hi.length]
    exact hq.queue.room
  · obtain ⟨n, hdrained⟩ := s.toPs2State.drains
    obtain ⟨⟨lo', hi'⟩, hsame⟩ := hi.alone n
    rw [← hsame] at hdrained
    obtain ⟨t, hrun, hshows⟩ := typingSession_shows he hquiet
    refine ⟨n, t, hdrained, ?_, hshows⟩
    obtain ⟨_, hq⟩ := hi.queue
    obtain ⟨_, hq'⟩ := hi'.queue
    have hreceived : (s.alone past n).received = s.received :=
      (congrArg Ps2State.received hsame).trans (hq.alone n).2
    have hcount := hq'.count
    rw [hreceived, hdrained.1, hdrained.2] at hcount
    have hall : lo' = s.typed.length := by
      rw [Typing.typed, List.length_map, ← hcount]
      exact (Nat.zero_add lo').symm
    have htaken : (s.alone past n).taken = s.typed := by
      rw [hi'.taken, Typing.typed, hreceived, ← Typing.typed, hall, List.take_length]
    rw [hi'.between hdrained.1, ← hrun, ← htaken]
    rfl

/-! ## A run -/

def idleTyping : Typing := ⟨idlePs2, some ⟨Shell.start, []⟩⟩

/-- `VER` and Enter, with a release between them; interrupts come within the calls. -/
def verMoves : List Ps2Move :=
  [.int 0x2F, .insn, .insn, .int 0xAF, .int 0x12] ++ List.replicate 4 .insn ++ [.int 0x13] ++
    List.replicate 9 .insn ++ [.int 0x1C]

theorem typing_shows_ver : ∃ s : Typing, s.received = [0x2F, 0x12, 0x13, 0x1C] ∧
    ∃ n t, (s.alone (fun c => c) n).Drained ∧ (s.alone (fun c => c) n).session = some t ∧
      Shows t ⟨[], 0, [⟨some .ver, []⟩]⟩ := by
  have hrun : (verMoves.foldlM (fun (s : Typing) (m : Ps2Move) =>
      if m.HasRoom s then some (s.run (fun c => c) m) else none) idleTyping).map
        (fun s : Typing => s.received) = some [0x2F, 0x12, 0x13, 0x1C] := by decide +kernel
  obtain ⟨s, hs, hreceived⟩ := Option.map_eq_some_iff.mp hrun
  have hreach : Reach TypingStart (Guarded Ps2Move.HasRoom (TypingStep fun c => c)) s := by
    refine Reach.foldlM (fun m _ s s' hstep => ?_) (.start ⟨idlePs2_start, rfl⟩) hs
    split at hstep
    · next hroom => exact ⟨hroom, (Option.some.inj hstep).symm⟩
    · cases hstep
  have he : editorRun (fun c => c) s.typed = some ⟨[], 0, [⟨some .ver, []⟩]⟩ := by
    rw [Typing.typed, hreceived]
    decide +kernel
  exact ⟨s, hreceived, (typing_shows hreach he (by decide)).2⟩

end Tomk
