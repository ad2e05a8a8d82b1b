/-
# `kshell`: from the keys to the commands

The line editor of `kshell`, with the table of the commands.  What a session does is
what a text with a cursor does (`editorTurn`): a character goes to the cursor and cuts
off what stands behind it, backspace goes one back and cuts off, the arrows move, and
Enter looks the first word up in the table, in capital letters or not, and hands the
command what stands behind the first space.  Escape is a character like the others,
for its code is in the table of the characters.

This holds for every run in which the arrows stay in the text
(`kshellSession_editor`).  What a command does, and what is echoed, are left out.
-/
import Tomk.Shell.Kshell
import Tomk.Libc.Strcmp

namespace Tomk

/-! ## The commands -/

inductive KshellCommand where
  | help
  | cls
  | echo
  | mem
  | ver
  | inputPrint
  | reboot
  | alloctestk
  | alloctestu
  | pagetables
  | procList
  | procKill
  | procFork
  | proctest
deriving DecidableEq, Repr

def kshellCommands : List (String × KshellCommand) :=
  [("help", .help), ("cls", .cls), ("echo", .echo), ("mem", .mem), ("ver", .ver),
    ("inp", .inputPrint), ("reboot", .reboot), ("alloctestk", .alloctestk),
    ("alloctestu", .alloctestu), ("pagetables", .pagetables), ("procls", .procList),
    ("prockill", .procKill), ("procfork", .procFork), ("proctest", .proctest)]

/-- The loop over `kshell_commands`: the first with the name, or none. -/
def findCommand (cmd : Line) : List (String × KshellCommand) → Option (Option KshellCommand)
  | [] => some none
  | (name, command) :: commands => do
      let order ← stricmp (chars name ++ [0]) cmd.toList
      if order = 0 then some (some command) else findCommand cmd commands

/-- A line that was entered: the command, or none (`err: unk cmd`), and its `args`. -/
structure Call where
  command : Option KshellCommand
  args : Line

/-- The body of the `if` at Enter, without the call. -/
def Shell.call (s : Shell) : Option (Option Call) := do
  let c ← s.buffer[0]?
  if c = 0 then some none
  else
    let (cmd, args) ← splitCommand s.buffer
    let command ← findCommand cmd kshellCommands
    some (some ⟨command, args⟩)

/-! ## A session -/

/-- The line, and the lines entered before, from the oldest on. -/
structure Session where
  shell : Shell
  calls : List Call

/-- The character of a key. -/
def keyChar (past : U8 → U8) (key : Key) : U8 :=
  if key.sc ≠ 0 then ps2Sc2ch past key.sc else key.serial

/-- A turn, with the call that Enter makes. -/
def sessionTurn (past : U8 → U8) (s : Session) (key : Key) : Option Session := do
  let shell ← kshellTurn past s.shell key
  let call ← if keyChar past key = 0x0D then s.shell.call else some none
  some ⟨shell, s.calls ++ call.toList⟩

def kshellSession (past : U8 → U8) (keys : List Key) : Option Session :=
  keys.foldlM (sessionTurn past) ⟨Shell.start, []⟩

/-! ## A text with a cursor -/

/-- What a line asks for: a command of the table, and its arguments. -/
structure Request where
  command : Option KshellCommand
  args : List U8
deriving DecidableEq

/-- The command whose name is the first word of the text, whatever letters are capital. -/
def request (text : List U8) : Request where
  command := (kshellCommands.find? fun e =>
    (chars e.1).map capital = (text.takeWhile (· ≠ ch ' ')).map capital).map Prod.snd
  args := (text.dropWhile (· ≠ ch ' ')).tail

structure Editor where
  text : List U8
  cursor : Nat
  requests : List Request
deriving DecidableEq

/-- A key; none where an arrow leaves the text. -/
def editorTurn (past : U8 → U8) (e : Editor) (key : Key) : Option Editor :=
  let c := keyChar past key
  if key.sc = 0x4B then
    if 0 < e.cursor then some { e with cursor := e.cursor - 1 } else none
  else if key.sc = 0x4D then
    if e.cursor < e.text.length then some { e with cursor := e.cursor + 1 } else none
  else if c = 0 then some e
  else if c = 0x08 then
    if e.cursor = 0 then some e
    else some { e with text := e.text.take (e.cursor - 1), cursor := e.cursor - 1 }
  else if c = 0x0D then
    some ⟨[], 0, if e.text = [] then e.requests else e.requests ++ [request e.text]⟩
  else if e.cursor < 32 then
    some { e with text := e.text.take e.cursor ++ [c], cursor := e.cursor + 1 }
  else some e

def editorRun (past : U8 → U8) (keys : List Key) : Option Editor :=
  keys.foldlM (editorTurn past) ⟨[], 0, []⟩

/-- The arguments as the command reads them, up to the NUL. -/
def Call.request (call : Call) : Request := ⟨call.command, call.args.toList.takeWhile (· ≠ 0)⟩

/-- The line is the text with a NUL behind it. -/
structure ShowsText (s : Shell) (e : Editor) : Prop where
  index : s.i.toNat = e.cursor
  inText : e.cursor ≤ e.text.length
  noNul : 0 ∉ e.text
  line : ∃ rest, s.buffer.toList = e.text ++ 0 :: rest
  last : s.buffer[32] = 0

structure Shows (s : Session) (e : Editor) : Prop where
  text : ShowsText s.shell e
  calls : s.calls.map Call.request = e.requests

variable {past : U8 → U8} {s : Shell} {e : Editor} {key : Key} {c : U8}

/-! ## The line -/

theorem ShowsText.le (h : ShowsText s e) : e.text.length ≤ 32 := by
  obtain ⟨rest, hline⟩ := h.line
  have hlength := congrArg List.length hline
  rw [Vector.length_toList, List.length_append, List.length_cons] at hlength
  omega

/-- A store before the last byte of the line. -/
theorem storeAt_line (buffer : Line) {i : Nat} (hi : i < 32) (c : U8) :
    ∃ buffer', storeAt buffer i c = some buffer' ∧ buffer'.back = buffer.back ∧
      buffer'.toList = buffer.toList.take i ++ c :: buffer.toList.drop (i + 1) := by
  obtain ⟨buffer', hstore, hlast⟩ := storeAt_inLine buffer hi c
  have hlen : i < buffer.toList.length := by rw [Vector.length_toList]; omega
  have hset := Option.some.inj ((dif_pos (Nat.lt_succ_of_lt hi)).symm.trans hstore)
  refine ⟨buffer', hstore, hlast, ?_⟩
  rw [← hset, Vector.toList_set, List.set_eq_take_append_cons_drop, if_pos hlen]

theorem drop_last (buffer : Line) : buffer.toList.drop 32 = [buffer.back] := by
  have hlen : 32 < buffer.toList.length := by rw [Vector.length_toList]; decide
  rw [List.drop_eq_getElem_cons hlen, Vector.getElem_toList,
    List.drop_eq_nil_of_le (Nat.le_of_eq Vector.length_toList)]
  rfl

theorem ShowsText.take (h : ShowsText s e) {i : Nat} (hi : i ≤ e.cursor) :
    s.buffer.toList.take i = e.text.take i := by
  obtain ⟨rest, hline⟩ := h.line
  rw [hline, List.take_append_of_le_length (Nat.le_trans hi h.inText)]

theorem noNul_take (h : 0 ∉ e.text) (i : Nat) : 0 ∉ e.text.take i :=
  fun h0 => h (List.mem_of_mem_take h0)

/-- What stands at the start of the line. -/
theorem ShowsText.first (h : ShowsText s e) :
    ∃ c, s.buffer[0]? = some c ∧ (c = 0 ↔ e.text = []) := by
  obtain ⟨rest, hline⟩ := h.line
  rw [← Vector.getElem?_toList, hline]
  cases htext : e.text with
  | nil => exact ⟨0, rfl, by simp⟩
  | cons c text =>
      refine ⟨c, rfl, iff_of_false (fun hc => h.noNul ?_) (List.cons_ne_nil _ _)⟩
      rw [htext, hc]
      exact List.mem_cons_self

/-! ## A key -/

theorem ShowsText.cleared (h : ShowsText s e) (requests : List Request) :
    ∃ s', s.clear = some s' ∧ ShowsText s' ⟨[], 0, requests⟩ := by
  obtain ⟨buffer, hstore, hlast, hline⟩ := storeAt_line s.buffer (show 0 < 32 by decide) 0
  refine ⟨⟨buffer, 0⟩, ?_, ⟨rfl, Nat.le_refl _, List.not_mem_nil, ⟨_, hline⟩, hlast.trans h.last⟩⟩
  rw [Shell.clear, hstore]
  rfl

theorem ShowsText.back (h : ShowsText s e) : ∃ s', s.backspace = some s' ∧
    ShowsText s' (if e.cursor = 0 then e
      else { e with text := e.text.take (e.cursor - 1), cursor := e.cursor - 1 }) := by
  have hi := h.index
  have hle := h.le
  have hin := h.inText
  rw [Shell.backspace]
  by_cases h0 : e.cursor = 0
  · have hlt : s.i < 1 := BitVec.lt_def.mpr (by rw [hi, h0]; decide)
    rw [if_pos hlt, if_pos h0]
    exact ⟨s, rfl, h⟩
  · have hge : 1 ≤ s.i := BitVec.le_def.mpr (by rw [hi]; exact Nat.pos_of_ne_zero h0)
    have hpred : (s.i - 1).toNat = e.cursor - 1 := by rw [BitVec.toNat_sub_of_le hge, hi]; rfl
    obtain ⟨buffer, hstore, hlast, hline⟩ := storeAt_line s.buffer
      (show e.cursor - 1 < 32 by omega) 0
    rw [h.take (Nat.sub_le _ _)] at hline
    rw [if_neg (BitVec.not_lt.mpr hge), if_neg h0]
    refine ⟨⟨buffer, s.i - 1⟩, ?_,
      ⟨hpred, ?_, noNul_take h.noNul _, ⟨_, hline⟩, hlast.trans h.last⟩⟩
    · simp only [hpred, hstore, Option.bind_eq_bind, Option.bind_some]
    · show e.cursor - 1 ≤ (e.text.take (e.cursor - 1)).length
      rw [List.length_take]
      omega

theorem ShowsText.typed (h : ShowsText s e) (hc : c ≠ 0) : ∃ s', s.insert c = some s' ∧
    ShowsText s' (if e.cursor < 32 then
      { e with text := e.text.take e.cursor ++ [c], cursor := e.cursor + 1 } else e) := by
  have hi := h.index
  have hin := h.inText
  rw [Shell.insert]
  by_cases hlt : e.cursor < 32
  · have hnot : ¬ 31 < s.i := BitVec.not_lt.mpr (BitVec.le_def.mpr (by rw [hi]; exact Nat.le_of_lt_succ hlt))
    have hsucc : (s.i + 1).toNat = e.cursor + 1 := by
      rw [BitVec.toNat_add, hi]
      exact Nat.mod_eq_of_lt (by show e.cursor + 1 < 2 ^ 32; omega)
    have hno : 0 ∉ e.text.take e.cursor ++ [c] := fun h0 =>
      (List.mem_append.mp h0).elim (noNul_take h.noNul _) fun h0 => hc (List.mem_singleton.mp h0).symm
    have hlen : (e.text.take e.cursor ++ [c]).length = e.cursor + 1 := by
      rw [List.length_append, List.length_take_of_le hin]
      rfl
    obtain ⟨buffer, hstore, hlast, hline⟩ := storeAt_line s.buffer hlt c
    rw [h.take (Nat.le_refl _), List.append_cons] at hline
    have hnul := hlast.trans h.last
    rw [if_neg hnot, if_pos hlt, hi]
    by_cases hend : s.i + 1 < 32
    · -- a NUL goes behind the character
      obtain ⟨buffer', hstore', hlast', hline'⟩ := storeAt_line buffer
        (show e.cursor + 1 < 32 by have := BitVec.lt_def.mp hend; rwa [hsucc] at this) 0
      rw [hline, ← hlen, List.take_left] at hline'
      refine ⟨⟨buffer', s.i + 1⟩, ?_, ⟨hsucc, Nat.le_of_eq hlen.symm, hno, ⟨_, hline'⟩, hlast'.trans hnul⟩⟩
      simp only [hstore, if_pos hend, hsucc, hstore', Option.bind_eq_bind, Option.bind_some]
    · -- the text is full, and the last byte is the NUL
      refine ⟨⟨buffer, s.i + 1⟩, ?_, ⟨hsucc, Nat.le_of_eq hlen.symm, hno, ⟨[], ?_⟩, hnul⟩⟩
      · simp only [hstore, if_neg hend, Option.bind_eq_bind, Option.bind_some]
      · have hcursor : e.cursor = 31 := by
          have hle := BitVec.le_def.mp (BitVec.not_lt.mp hend)
          rw [hsucc, show (32 : U32).toNat = 32 from rfl] at hle
          omega
        have hback : s.buffer.back = 0 := h.last
        rw [hline, hcursor, drop_last, hback]
  · have hgt : 31 < s.i := BitVec.lt_def.mpr (by rw [hi]; exact Nat.not_lt.mp hlt)
    rw [if_pos hgt, if_neg hlt]
    exact ⟨s, rfl, h⟩

/-! ## Enter -/

/-- The loop over the table looks for a name. -/
theorem findCommand_eq {cmd : Line} {word rest : List U8} (hword : 0 ∉ word)
    (hcmd : cmd.toList = word ++ 0 :: rest) {commands : List (String × KshellCommand)}
    (hnames : ∀ e ∈ commands, 0 ∉ chars e.1) :
    findCommand cmd commands = some ((commands.find? fun e =>
      (chars e.1).map capital = word.map capital).map Prod.snd) := by
  induction commands with
  | nil => rfl
  | cons entry commands ih =>
      obtain ⟨name, command⟩ := entry
      have horder := stricmp_text (hnames _ List.mem_cons_self) hword [] rest
      rw [findCommand, hcmd, horder, List.find?_cons]
      simp only [Option.bind_eq_bind, Option.bind_some, orderInt_eq_zero, compareText_eq]
      by_cases hname : (chars name).map capital = word.map capital
      · rw [if_pos hname, decide_eq_true hname]
        rfl
      · rw [if_neg hname, decide_eq_false hname]
        exact ih fun e he => hnames e (List.mem_cons_of_mem _ he)

theorem kshellCommands_names : ∀ e ∈ kshellCommands, 0 ∉ chars e.1 := by decide

/-- What is read of a copy with zeros behind it. -/
theorem takeWhile_text {text : List U8} (h : 0 ∉ text) (rest : List U8) :
    (text ++ 0 :: rest).takeWhile (· ≠ 0) = text := by
  have hall : ∀ c ∈ text, decide (c ≠ 0) = true := fun c hc =>
    decide_eq_true fun h0 => h (h0 ▸ hc)
  rw [List.takeWhile_append_of_pos hall]
  simp

theorem replicate_nul {n m : Nat} (h : n < m) :
    List.replicate (m - n) (0 : U8) = 0 :: List.replicate (m - n - 1) 0 := by
  obtain ⟨k, hk⟩ : ∃ k, m - n = k + 1 := ⟨m - n - 1, by omega⟩
  rw [hk]
  rfl

/-- The two copies: the first word, and what stands behind the space. -/
theorem splitCommand_text {buffer : Line} {text rest : List U8} (htext : 0 ∉ text)
    (hline : buffer.toList = text ++ 0 :: rest) (hle : text.length ≤ 32) :
    ∃ cmd args r q, splitCommand buffer = some (cmd, args) ∧
      cmd.toList = text.takeWhile (· ≠ ch ' ') ++ 0 :: r ∧
      args.toList = (text.dropWhile (· ≠ ch ' ')).tail ++ 0 :: q := by
  have hempty : emptyLine.toList = [] ++ List.replicate 33 0 := rfl
  obtain ⟨i, cmd, hloop, hcmd, hdrop⟩ := commandLoop_word htext (show _ = [] ++ _ from hline) hempty
    (Nat.le_succ_of_le hle)
  have htail : (text.dropWhile (· ≠ ch ' ')).tail <:+ text :=
    (List.tail_suffix _).trans (List.dropWhile_suffix _)
  have hword := (List.takeWhile_prefix (· ≠ ch ' ') : _ <+: text).length_le
  obtain ⟨args, hcopy, hargs⟩ := strcpy_text (fun h0 => htext (htail.subset h0)) hempty
    (by rw [List.length_replicate]; exact Nat.le_succ_of_le (Nat.le_trans htail.length_le hle)) rest
  have hlt : ∀ {part : List U8}, part.length ≤ text.length → part.length < 33 := fun h =>
    Nat.lt_succ_of_le (Nat.le_trans h hle)
  rw [List.drop_replicate, replicate_nul (hlt htail.length_le)] at hargs
  rw [replicate_nul (hlt hword)] at hcmd
  refine ⟨cmd, args, _, _, ?_, hcmd, hargs⟩
  have hstrlen : strlen buffer.toList = some text.length := by
    rw [hline]
    exact strlen_text htext rest
  rw [← hdrop] at hcopy
  simp only [List.length_nil] at hloop hcopy
  simp only [splitCommand, hstrlen, hloop, hcopy, Option.bind_eq_bind, Option.bind_some]

/-- Enter looks the line up. -/
theorem ShowsText.called (h : ShowsText s e) : ∃ call, s.call = some call ∧
    call.toList.map Call.request = if e.text = [] then [] else [request e.text] := by
  obtain ⟨c, hread, hc⟩ := h.first
  rw [Shell.call, hread]
  simp only [Option.bind_eq_bind, Option.bind_some]
  by_cases hnil : e.text = []
  · rw [if_pos (hc.mpr hnil), if_pos hnil]
    exact ⟨none, rfl, rfl⟩
  rw [if_neg fun h0 => hnil (hc.mp h0), if_neg hnil]
  obtain ⟨rest, hline⟩ := h.line
  obtain ⟨cmd, args, r, q, hsplit, hcmd, hargs⟩ := splitCommand_text h.noNul hline h.le
  have hword : 0 ∉ e.text.takeWhile (· ≠ ch ' ') := fun h0 =>
    h.noNul ((List.takeWhile_prefix _).subset h0)
  have htail : 0 ∉ (e.text.dropWhile (· ≠ ch ' ')).tail := fun h0 =>
    h.noNul (((List.tail_suffix _).trans (List.dropWhile_suffix _)).subset h0)
  refine ⟨some ⟨(request e.text).command, args⟩, ?_, ?_⟩
  · rw [hsplit, Option.bind_some, findCommand_eq hword hcmd kshellCommands_names]
    rfl
  · rw [Option.toList_some, List.map_singleton, Call.request, hargs, takeWhile_text htail]
    rfl

theorem ShowsText.entered (h : ShowsText s e) (requests : List Request) :
    ∃ s', s.enter = some s' ∧ ShowsText s' ⟨[], 0, requests⟩ := by
  obtain ⟨s', hclear, hs'⟩ := h.cleared requests
  obtain ⟨c, hread, -⟩ := h.first
  obtain ⟨rest, hline⟩ := h.line
  obtain ⟨cmd, args, r, q, hsplit, -, -⟩ := splitCommand_text h.noNul hline h.le
  refine ⟨s', ?_, hs'⟩
  simp only [Shell.enter, hread, hsplit, hclear, Option.bind_eq_bind, Option.bind_some, ite_self]

/-! ## Turns -/

theorem keyChar_escape (h : key.sc = 0x01) : keyChar past key = 0x1B := by
  rw [keyChar, h]
  rfl

theorem keyChar_arrow (h : key.sc = 0x4B ∨ key.sc = 0x4D) : keyChar past key = 0 := by
  rw [keyChar]
  rcases h with h | h <;> rw [h] <;> rfl

/-- The line alone. -/
theorem ShowsText.turn {e' : Editor} (h : ShowsText s e) (hturn : editorTurn past e key = some e') :
    ∃ s', kshellTurn past s key = some s' ∧ ShowsText s' e' := by
  have hi := h.index
  have hin := h.inText
  have hle := h.le
  by_cases hleft : key.sc = 0x4B
  · rw [editorTurn, if_pos hleft, Option.ite_none_right_eq_some, Option.some_inj] at hturn
    obtain ⟨hpos, rfl⟩ := hturn
    have hpred : (s.i - 1).toNat = e.cursor - 1 := by
      rw [BitVec.toNat_sub_of_le (BitVec.le_def.mpr (by rw [hi]; exact hpos)), hi]
      rfl
    exact ⟨_, kshellTurn_left past s hleft,
      ⟨hpred, Nat.le_trans (Nat.sub_le _ _) hin, h.noNul, h.line, h.last⟩⟩
  by_cases hright : key.sc = 0x4D
  · rw [editorTurn, if_neg hleft, if_pos hright, Option.ite_none_right_eq_some,
      Option.some_inj] at hturn
    obtain ⟨hlt, rfl⟩ := hturn
    have hsucc : (s.i + 1).toNat = e.cursor + 1 := by
      rw [BitVec.toNat_add, hi]
      exact Nat.mod_eq_of_lt (by show e.cursor + 1 < 2 ^ 32; omega)
    exact ⟨_, kshellTurn_right past s hright, ⟨hsucc, hlt, h.noNul, h.line, h.last⟩⟩
  rw [editorTurn, if_neg hleft, if_neg hright] at hturn
  show ∃ s', (if keyChar past key ≠ 0 then
      if keyChar past key = 0x08 then s.backspace
      else if keyChar past key = 0x0D then s.enter
      else s.insert (keyChar past key)
    else if key.sc = 0x01 then s.clear
    else if key.sc = 0x4B then some { s with i := s.i - 1 }
    else if key.sc = 0x4D then some { s with i := s.i + 1 }
    else some s) = some s' ∧ ShowsText s' e'
  by_cases hc : keyChar past key = 0
  · have hescape : key.sc ≠ 0x01 := fun h1 => by
      rw [keyChar_escape h1] at hc
      exact absurd hc (by decide)
    rw [if_pos hc, Option.some_inj] at hturn
    subst hturn
    rw [if_neg (not_not_intro hc), if_neg hescape, if_neg hleft, if_neg hright]
    exact ⟨s, rfl, h⟩
  rw [if_neg hc] at hturn
  rw [if_pos hc]
  by_cases hback : keyChar past key = 0x08
  · rw [if_pos hback, ← apply_ite some, Option.some_inj] at hturn
    rw [if_pos hback, ← hturn]
    exact h.back
  rw [if_neg hback] at hturn
  rw [if_neg hback]
  by_cases henter : keyChar past key = 0x0D
  · rw [if_pos henter, Option.some_inj] at hturn
    rw [if_pos henter, ← hturn]
    exact h.entered _
  rw [if_neg henter, ← apply_ite some, Option.some_inj] at hturn
  rw [if_neg henter, ← hturn]
  exact h.typed hc

/-- What a turn adds to the requests. -/
theorem editorTurn_requests {e' : Editor} (hturn : editorTurn past e key = some e') :
    e'.requests = e.requests ++
      if keyChar past key = 0x0D then (if e.text = [] then [] else [request e.text]) else [] := by
  by_cases henter : keyChar past key = 0x0D
  · have harrow : ¬ (key.sc = 0x4B ∨ key.sc = 0x4D) := fun h => by
      rw [keyChar_arrow h] at henter
      exact absurd henter (by decide)
    obtain ⟨hleft, hright⟩ := not_or.mp harrow
    rw [editorTurn, if_neg hleft, if_neg hright, henter, if_neg (by decide), if_neg (by decide),
      if_pos rfl, Option.some_inj] at hturn
    rw [← hturn, if_pos henter]
    split
    · exact (List.append_nil _).symm
    · rfl
  · rw [if_neg henter, List.append_nil]
    simp only [editorTurn, if_neg henter] at hturn
    grind

/-- **A turn** is a turn of the editor. -/
theorem Shows.turn {t : Session} {e' : Editor} (h : Shows t e) (hturn : editorTurn past e key = some e') :
    ∃ t', sessionTurn past t key = some t' ∧ Shows t' e' := by
  obtain ⟨shell, hshell, htext⟩ := h.text.turn hturn
  obtain ⟨call, hcall, hrequest⟩ := h.text.called
  have hrequests := editorTurn_requests hturn
  by_cases henter : keyChar past key = 0x0D
  · rw [if_pos henter] at hrequests
    simp only [sessionTurn, hshell, hcall, if_pos henter, Option.bind_eq_bind, Option.bind_some]
    refine ⟨_, rfl, htext, ?_⟩
    rw [List.map_append, h.calls, hrequest, hrequests]
  · rw [if_neg henter] at hrequests
    simp only [sessionTurn, hshell, if_neg henter, Option.bind_eq_bind, Option.bind_some]
    refine ⟨_, rfl, htext, ?_⟩
    rw [List.map_append, h.calls, hrequests]
    rfl

/-! ## Runs -/

theorem shows_start : Shows ⟨Shell.start, []⟩ ⟨[], 0, []⟩ :=
  ⟨⟨rfl, Nat.le_refl _, List.not_mem_nil, ⟨List.replicate 32 0, rfl⟩, rfl⟩, rfl⟩

theorem Shows.run {t : Session} {e' : Editor} (h : Shows t e) {keys : List Key}
    (hrun : keys.foldlM (editorTurn past) e = some e') :
    ∃ t', keys.foldlM (sessionTurn past) t = some t' ∧ Shows t' e' := by
  induction keys generalizing t e with
  | nil =>
      cases hrun
      exact ⟨t, rfl, h⟩
  | cons key keys ih =>
      rw [List.foldlM_cons, Option.bind_eq_bind, Option.bind_eq_some_iff] at hrun
      obtain ⟨e1, hturn, hrest⟩ := hrun
      obtain ⟨t1, hturn', h1⟩ := h.turn hturn
      rw [List.foldlM_cons, hturn']
      exact ih h1 hrest

/-- **Sessions.**  As long as the arrows stay in the text, the calls that `kshell`
makes are those that the editor asks for: one for each Enter on a text that is not
empty, in order, with the first command of the table whose name is the first word,
and as arguments what stands behind the first space.  No access is outside of the
line or of the copies, and the line is the text. -/
theorem kshellSession_editor {keys : List Key} {e : Editor} (h : editorRun past keys = some e) :
    ∃ t, kshellSession past keys = some t ∧ t.calls.map Call.request = e.requests ∧
      t.shell.i.toNat = e.cursor ∧ ∃ rest, t.shell.buffer.toList = e.text ++ 0 :: rest := by
  obtain ⟨t, hrun, hs⟩ := shows_start.run h
  exact ⟨t, hrun, hs.calls, hs.text.index, hs.text.line⟩

/-- `VEX`, backspace, `R 1`, the left arrow, `2`, Enter. -/
def verKeys : List Key :=
  [⟨0x2F, 0⟩, ⟨0x12, 0⟩, ⟨0x2D, 0⟩, ⟨0x0E, 0⟩, ⟨0x13, 0⟩, ⟨0x39, 0⟩, ⟨0x02, 0⟩, ⟨0x4B, 0⟩, ⟨0x03, 0⟩,
    ⟨0x1C, 0⟩]

/-- `ver` is called with `2`. -/
theorem kshellSession_editor_ver : ∃ t, kshellSession (fun _ => 0) verKeys = some t ∧
    t.calls.map Call.request = [⟨some .ver, chars "2"⟩] ∧
    t.shell.i.toNat = 0 ∧ ∃ rest, t.shell.buffer.toList = [] ++ 0 :: rest :=
  kshellSession_editor (e := ⟨[], 0, [⟨some .ver, chars "2"⟩]⟩) (by decide +kernel)

/-- A line of 32 characters takes no more, and one that begins with a space has no command. -/
example : editorRun (fun c => c) (List.replicate 40 ⟨0, ch 'a'⟩)
      = some ⟨List.replicate 32 (ch 'a'), 32, []⟩ ∧
    request (chars " ver") = ⟨none, chars "ver"⟩ := by decide +kernel

end Tomk
