/-
# `kshell`: the line editor

A turn of the loop takes a scan code, or where there is none a byte of the serial
port, and moves the index into a line of 33 bytes.  What is written to the screen
and to the port, the cursor, and the commands that a line runs are left out; they
get the copies of the line, not the line.

Accesses are checked: a turn that reads or writes outside of the line, or of the two
copies, has no next state.  The arrows move the index without a look at it.  Where
the left one is not pressed at the start of the line, and the right one not at its
end, the index stays in the line (`kshell_inLine_iff`).
-/
import Tomk.Libc.Printf
import Mathlib.Data.List.Induction

namespace Tomk

/-! ## Blocks of memory -/

section Blocks

variable {n : Nat}

/-- `block[i] = c`, inside of the block. -/
def storeAt (block : Vector U8 n) (i : Nat) (c : U8) : Option (Vector U8 n) :=
  if h : i < n then some (block.set i c h) else none

/-- `strlen`, over the bytes up to the end of the block. -/
def strlen : List U8 → Option Nat
  | [] => none
  | c :: str => if c = 0 then some 0 else (strlen str).map (· + 1)

/-- `strcpy`, which leaves out the NUL: `src` is what is left to read, and the next
character goes to `dest[i]`. -/
def strcpy (dest : Vector U8 n) (i : Nat) : List U8 → Option (Vector U8 n)
  | [] => none
  | c :: src =>
      if c = 0 then some dest
      else (storeAt dest i c).bind fun dest => strcpy dest (i + 1) src

end Blocks

/-- `char buffer[32+1] = { 0 }` -/
abbrev Line := Vector U8 33

def emptyLine : Line := Vector.replicate 33 0

/-! ## A command -/

/-- `for (; i < strlen(buffer); i++)`, with `n` turns before the end of the string:
where it stops, and `cmd`. -/
def commandLoop (buffer : Line) : Nat → Nat → Line → Option (Nat × Line)
  | 0, i, cmd => some (i, cmd)
  | n + 1, i, cmd => do
      let c ← buffer[i]?
      if c = ch ' ' then some (i + 1, cmd)
      else if c = 0 then some (i, cmd)
      else
        let cmd ← storeAt cmd i c
        commandLoop buffer n (i + 1) cmd

/-- The line, split into `cmd` and `args`. -/
def splitCommand (buffer : Line) : Option (Line × Line) := do
  let len ← strlen buffer.toList
  let (i, cmd) ← commandLoop buffer len 0 emptyLine
  let args ← strcpy emptyLine 0 (buffer.toList.drop i)
  some (cmd, args)

/-! ## The keys -/

/-- `sc_ch` -/
def scCh : List U8 :=
  [0, 0x1B, ch '1', ch '2',
    ch '3', ch '4', ch '5', ch '6',
    ch '7', ch '8', ch '9', ch '0',
    ch '-', ch '=', 0x08, 0,
    ch 'Q', ch 'W', ch 'E', ch 'R',
    ch 'T', ch 'Y', ch 'U', ch 'I',
    ch 'O', ch 'P', ch '[', ch ']',
    0x0D, 0, ch 'A', ch 'S',
    ch 'D', ch 'F', ch 'G', ch 'H',
    ch 'J', ch 'K', ch 'L', ch ';',
    0, 0x60, 0, 0,
    ch 'Z', ch 'X', ch 'C', ch 'V',
    ch 'B', ch 'N', ch 'M', ch ',',
    ch '.', ch '/', 0, ch '*',
    0, ch ' ', 0, 0,
    0, 0, 0, 0,
    0, 0, 0, 0,
    0, 0, 0, 0,
    0, 0, ch '-', 0,
    0, 0, ch '+', 0,
    0, 0, 0, 0,
    0, 0, 0, 0,
    0, 0, 0, 0]

/-- `ps2_sc2ch`; `past` is what stands behind the table. -/
def ps2Sc2ch (past : U8 → U8) (sc : U8) : U8 := scCh.getD sc.toNat (past sc)

/-- What a turn gets: the code of `ps2_getscancode`, and the byte of `serial_read`
where there is no code.  Both are 0 where there is nothing. -/
structure Key where
  sc : U8
  serial : U8

structure Shell where
  buffer : Line
  i : U32

def Shell.start : Shell := ⟨emptyLine, 0⟩

/-- Backspace. -/
def Shell.backspace (s : Shell) : Option Shell :=
  if s.i < 1 then some s
  else do
    let i := s.i - 1
    let buffer ← storeAt s.buffer i.toNat 0
    some ⟨buffer, i⟩

/-- `i = 0; buffer[0] = 0;` -/
def Shell.clear (s : Shell) : Option Shell := do
  let buffer ← storeAt s.buffer 0 0
  some ⟨buffer, 0⟩

/-- Enter: a line that is not empty is split, and its command is run. -/
def Shell.enter (s : Shell) : Option Shell := do
  let c ← s.buffer[0]?
  if c = 0 then s.clear
  else
    let _ ← splitCommand s.buffer
    s.clear

/-- Any other character. -/
def Shell.insert (s : Shell) (c : U8) : Option Shell :=
  if 31 < s.i then some s
  else do
    let buffer ← storeAt s.buffer s.i.toNat c
    let i := s.i + 1
    let buffer ← if i < 32 then storeAt buffer i.toNat 0 else some buffer
    some ⟨buffer, i⟩

/-- A turn of `kshell`. -/
def kshellTurn (past : U8 → U8) (s : Shell) (key : Key) : Option Shell :=
  let c := if key.sc ≠ 0 then ps2Sc2ch past key.sc else key.serial
  if c ≠ 0 then
    if c = 0x08 then s.backspace
    else if c = 0x0D then s.enter
    else s.insert c
  else if key.sc = 0x01 then s.clear
  else if key.sc = 0x4B then some { s with i := s.i - 1 }
  else if key.sc = 0x4D then some { s with i := s.i + 1 }
  else some s

def kshellRun (past : U8 → U8) (keys : List Key) : Option Shell :=
  keys.foldlM (kshellTurn past) Shell.start

example : scCh.length = 0x5C := rfl

/-! ## What is asked -/

/-- A text of at most 32 characters, and zeros behind it. -/
def HoldsText (block : Line) : Prop :=
  ∃ text : List U8, text.length ≤ 32 ∧ 0 ∉ text ∧
    block.toList = text ++ List.replicate (33 - text.length) 0

/-- The index is in the line, the last byte of the line is the NUL, and the line is
split with no access outside of it or of the copies. -/
structure InLine (s : Shell) : Prop where
  index : s.i.toNat ≤ 32
  nul : s.buffer[32] = 0
  split : ∃ cmd args, splitCommand s.buffer = some (cmd, args) ∧ HoldsText cmd ∧ HoldsText args

/-- The arrows stay in the line. -/
def ArrowInside (s : Shell) (key : Key) : Prop :=
  (key.sc = 0x4B → 0 < s.i) ∧ (key.sc = 0x4D → s.i < 32)

/-! ## Copies -/

theorem storeAt_append {n : Nat} {block : Vector U8 n} {front back : List U8} {d : U8}
    (h : block.toList = front ++ d :: back) (c : U8) :
    ∃ block', storeAt block front.length c = some block' ∧
      block'.toList = front ++ c :: back := by
  have hlen : front.length < n := by
    have hlength := congrArg List.length h
    rw [Vector.length_toList, List.length_append, List.length_cons] at hlength
    omega
  refine ⟨block.set front.length c hlen, dif_pos hlen, ?_⟩
  rw [Vector.toList_set, h, List.set_append_right _ _ (Nat.le_refl _), Nat.sub_self]
  rfl

theorem strlen_text {text : List U8} (htext : 0 ∉ text) (rest : List U8) :
    strlen (text ++ 0 :: rest) = some text.length := by
  induction text with
  | nil => rfl
  | cons c text ih =>
      have hc : c ≠ 0 := fun h => htext (h ▸ List.mem_cons_self)
      rw [List.cons_append, strlen, if_neg hc, ih fun h => htext (List.mem_cons_of_mem _ h)]
      rfl

theorem strcpy_text {n : Nat} {dest : Vector U8 n} {front back text : List U8} (htext : 0 ∉ text)
    (hdest : dest.toList = front ++ back) (hle : text.length ≤ back.length) (rest : List U8) :
    ∃ dest', strcpy dest front.length (text ++ 0 :: rest) = some dest' ∧
      dest'.toList = front ++ (text ++ back.drop text.length) := by
  induction text generalizing dest front back with
  | nil => exact ⟨dest, rfl, hdest⟩
  | cons c text ih =>
      have hc : c ≠ 0 := fun h => htext (h ▸ List.mem_cons_self)
      cases back with
      | nil => exact absurd hle (by simp)
      | cons d back =>
          obtain ⟨dest1, hstore, hdest1⟩ := storeAt_append hdest c
          rw [List.append_cons] at hdest1
          obtain ⟨dest2, hcopy, hdest2⟩ := ih (fun h => htext (List.mem_cons_of_mem _ h)) hdest1
            (Nat.le_of_succ_le_succ hle)
          rw [List.length_append] at hcopy
          refine ⟨dest2, ?_, ?_⟩
          · rw [List.cons_append, strcpy, if_neg hc, hstore]
            exact hcopy
          · rw [hdest2, List.append_assoc]
            rfl

/-- The loop copies the line up to its first space, and stops behind that. -/
theorem commandLoop_word {buffer cmd : Line} {front text rest : List U8} {m : Nat}
    (htext : 0 ∉ text) (hbuffer : buffer.toList = front ++ (text ++ 0 :: rest))
    (hcmd : cmd.toList = front ++ List.replicate m 0) (hle : text.length ≤ m) :
    ∃ i cmd', commandLoop buffer text.length front.length cmd = some (i, cmd') ∧
      cmd'.toList = front ++ (text.takeWhile (· ≠ ch ' ')
        ++ List.replicate (m - (text.takeWhile (· ≠ ch ' ')).length) 0) ∧
      buffer.toList.drop i = (text.dropWhile (· ≠ ch ' ')).tail ++ 0 :: rest := by
  induction text generalizing cmd front m with
  | nil =>
      refine ⟨front.length, cmd, rfl, hcmd, ?_⟩
      rw [hbuffer, List.drop_left]
      rfl
  | cons c text ih =>
      have hc : c ≠ 0 := fun h => htext (h ▸ List.mem_cons_self)
      have hread : buffer[front.length]? = some c := by
        rw [← Vector.getElem?_toList, hbuffer, List.getElem?_append_right (Nat.le_refl _),
          Nat.sub_self]
        rfl
      rw [List.length_cons, commandLoop, hread]
      simp only [Option.bind_eq_bind, Option.bind_some, if_neg hc]
      by_cases hspace : c = ch ' '
      · rw [if_pos hspace, List.takeWhile_cons_of_neg (by simpa using hspace),
          List.dropWhile_cons_of_neg (by simpa using hspace)]
        refine ⟨front.length + 1, cmd, rfl, hcmd, ?_⟩
        rw [hbuffer, List.drop_length_add_append]
        rfl
      · rw [if_neg hspace, List.takeWhile_cons_of_pos (by simpa using hspace),
          List.dropWhile_cons_of_pos (by simpa using hspace)]
        cases m with
        | zero => exact absurd hle (by simp)
        | succ m =>
            rw [List.replicate_succ] at hcmd
            obtain ⟨cmd1, hstore, hcmd1⟩ := storeAt_append hcmd c
            rw [List.append_cons] at hcmd1
            rw [List.cons_append, List.append_cons] at hbuffer
            obtain ⟨i, cmd2, hloop, hcmd2, hdrop⟩ := ih
              (fun h => htext (List.mem_cons_of_mem _ h)) hbuffer hcmd1 (Nat.le_of_succ_le_succ hle)
            rw [List.length_append] at hloop
            refine ⟨i, cmd2, ?_, ?_, hdrop⟩
            · rw [hstore]
              exact hloop
            · rw [hcmd2, List.append_assoc, List.length_cons, Nat.add_sub_add_right]
              rfl

/-- So what it copies, and what it leaves, are parts of the line. -/
theorem commandLoop_text {buffer cmd : Line} {front text rest : List U8} {m : Nat}
    (htext : 0 ∉ text) (hbuffer : buffer.toList = front ++ (text ++ 0 :: rest))
    (hcmd : cmd.toList = front ++ List.replicate m 0) (hle : text.length ≤ m) :
    ∃ i cmd' word tail, commandLoop buffer text.length front.length cmd = some (i, cmd') ∧
      word <+: text ∧ cmd'.toList = front ++ (word ++ List.replicate (m - word.length) 0) ∧
      tail <:+ text ∧ buffer.toList.drop i = tail ++ 0 :: rest := by
  obtain ⟨i, cmd', hloop, hcmd', hdrop⟩ := commandLoop_word htext hbuffer hcmd hle
  exact ⟨i, cmd', _, _, hloop, List.takeWhile_prefix _, hcmd',
    (List.tail_suffix _).trans (List.dropWhile_suffix _), hdrop⟩

/-- A line with the NUL at its end is split inside of the copies. -/
theorem splitCommand_holds {buffer : Line} (h : buffer[32] = 0) :
    ∃ cmd args, splitCommand buffer = some (cmd, args) ∧ HoldsText cmd ∧ HoldsText args := by
  have hmem : 0 ∈ buffer.toList := by
    rw [← h]
    exact Vector.mem_toList_iff.mpr (Vector.getElem_mem _)
  obtain ⟨text, rest, hbuffer, htext⟩ := List.eq_append_cons_of_mem hmem
  have hlen : text.length ≤ 32 := by
    have hlength := congrArg List.length hbuffer
    rw [Vector.length_toList, List.length_append, List.length_cons] at hlength
    omega
  have hempty : emptyLine.toList = [] ++ List.replicate 33 0 := rfl
  obtain ⟨i, cmd, word, tail, hloop, hword, hcmd, htail, hdrop⟩ :=
    commandLoop_text htext (show _ = [] ++ _ from hbuffer) hempty (Nat.le_succ_of_le hlen)
  have htailLen := Nat.le_trans htail.length_le hlen
  obtain ⟨args, hcopy, hargs⟩ := strcpy_text (fun h0 => htext (htail.subset h0)) hempty
    (by rw [List.length_replicate]; omega) rest
  rw [List.drop_replicate] at hargs
  refine ⟨cmd, args, ?_, ⟨word, Nat.le_trans hword.length_le hlen,
    fun h0 => htext (hword.subset h0), hcmd⟩, ⟨tail, htailLen, fun h0 => htext (htail.subset h0),
    hargs⟩⟩
  have hstrlen : strlen buffer.toList = some text.length := by
    rw [hbuffer]
    exact strlen_text htext rest
  rw [← hdrop] at hcopy
  simp only [List.length_nil] at hloop hcopy
  simp only [splitCommand, hstrlen, hloop, hcopy, Option.bind_eq_bind, Option.bind_some]

theorem InLine.of_nul {s : Shell} (hindex : s.i.toNat ≤ 32) (hnul : s.buffer[32] = 0) : InLine s :=
  ⟨hindex, hnul, splitCommand_holds hnul⟩

/-! ## A turn -/

theorem storeAt_inLine (buffer : Line) {i : Nat} (hi : i < 32) (c : U8) :
    ∃ buffer', storeAt buffer i c = some buffer' ∧ buffer'[32] = buffer[32] := by
  refine ⟨buffer.set i c (by omega), dif_pos (by omega), ?_⟩
  exact Vector.getElem_set_ne _ _ (by omega)

theorem InLine.clear {s : Shell} (h : InLine s) : ∃ s', s.clear = some s' ∧ InLine s' := by
  obtain ⟨buffer, hstore, hnul⟩ := storeAt_inLine s.buffer (show 0 < 32 by decide) 0
  refine ⟨⟨buffer, 0⟩, ?_, .of_nul (Nat.zero_le 32) (hnul.trans h.nul)⟩
  rw [Shell.clear, hstore]
  rfl

theorem InLine.backspace {s : Shell} (h : InLine s) : ∃ s', s.backspace = some s' ∧ InLine s' := by
  rw [Shell.backspace]
  split
  · exact ⟨s, rfl, h⟩
  · next hi =>
      have hone : 1 ≤ s.i.toNat := BitVec.le_def.mp (BitVec.not_lt.mp hi)
      have hindex := h.index
      have hpred : (s.i - 1).toNat = s.i.toNat - 1 := BitVec.toNat_sub_of_le (BitVec.not_lt.mp hi)
      obtain ⟨buffer, hstore, hnul⟩ := storeAt_inLine s.buffer
        (show (s.i - 1).toNat < 32 by omega) 0
      refine ⟨⟨buffer, s.i - 1⟩, ?_, .of_nul ?_ (hnul.trans h.nul)⟩
      · simp only [hstore, Option.bind_eq_bind, Option.bind_some]
      · show (s.i - 1).toNat ≤ 32
        omega

theorem InLine.enter {s : Shell} (h : InLine s) : ∃ s', s.enter = some s' ∧ InLine s' := by
  obtain ⟨s', hclear, hs'⟩ := h.clear
  obtain ⟨cmd, args, hsplit, -, -⟩ := h.split
  refine ⟨s', ?_, hs'⟩
  have hread : s.buffer[0]? = some s.buffer[0] := Vector.getElem?_eq_getElem (by decide)
  simp only [Shell.enter, hread, hsplit, hclear, Option.bind_eq_bind, Option.bind_some, ite_self]

theorem InLine.insert {s : Shell} (h : InLine s) (c : U8) :
    ∃ s', s.insert c = some s' ∧ InLine s' := by
  rw [Shell.insert]
  split
  · exact ⟨s, rfl, h⟩
  · next hi =>
      have hle : s.i.toNat ≤ 31 := BitVec.le_def.mp (BitVec.not_lt.mp hi)
      have hsucc : (s.i + 1).toNat = s.i.toNat + 1 := by
        rw [BitVec.toNat_add]
        exact Nat.mod_eq_of_lt (by show s.i.toNat + 1 < 2 ^ 32; omega)
      obtain ⟨buffer, hstore, hnul⟩ := storeAt_inLine s.buffer
        (show s.i.toNat < 32 by omega) c
      by_cases hlt : s.i + 1 < 32
      · have hlt' : (s.i + 1).toNat < 32 := BitVec.lt_def.mp hlt
        obtain ⟨buffer', hstore', hnul'⟩ := storeAt_inLine buffer hlt' 0
        refine ⟨⟨buffer', s.i + 1⟩, ?_, .of_nul (Nat.le_of_lt hlt') (hnul'.trans (hnul.trans h.nul))⟩
        simp only [hstore, if_pos hlt, hstore', Option.bind_eq_bind, Option.bind_some]
      · refine ⟨⟨buffer, s.i + 1⟩, ?_, .of_nul ?_ (hnul.trans h.nul)⟩
        · simp only [hstore, if_neg hlt, Option.bind_eq_bind, Option.bind_some]
        · show (s.i + 1).toNat ≤ 32
          omega

/-- What an arrow does, whatever stands behind the table. -/
theorem kshellTurn_left (past : U8 → U8) (s : Shell) {key : Key} (h : key.sc = 0x4B) :
    kshellTurn past s key = some { s with i := s.i - 1 } := by
  simp only [kshellTurn, h]
  rfl

theorem kshellTurn_right (past : U8 → U8) (s : Shell) {key : Key} (h : key.sc = 0x4D) :
    kshellTurn past s key = some { s with i := s.i + 1 } := by
  simp only [kshellTurn, h]
  rfl

theorem InLine.turn {s : Shell} (h : InLine s) (past : U8 → U8) {key : Key}
    (hkey : ArrowInside s key) : ∃ s', kshellTurn past s key = some s' ∧ InLine s' := by
  have hindex := h.index
  by_cases hleft : key.sc = 0x4B
  · have hpos : 0 < s.i.toNat := BitVec.lt_def.mp (hkey.1 hleft)
    have hpred : (s.i - 1).toNat = s.i.toNat - 1 := BitVec.toNat_sub_of_le (BitVec.le_def.mpr hpos)
    refine ⟨_, kshellTurn_left past s hleft, .of_nul ?_ h.nul⟩
    show (s.i - 1).toNat ≤ 32
    omega
  by_cases hright : key.sc = 0x4D
  · have hlt : s.i.toNat < 32 := BitVec.lt_def.mp (hkey.2 hright)
    refine ⟨_, kshellTurn_right past s hright, .of_nul ?_ h.nul⟩
    show (s.i + 1).toNat ≤ 32
    rw [BitVec.toNat_add]
    exact Nat.le_trans (Nat.mod_le _ _) hlt
  obtain ⟨c, hc⟩ : ∃ c, (if key.sc ≠ 0 then ps2Sc2ch past key.sc else key.serial) = c := ⟨_, rfl⟩
  simp only [kshellTurn, hc, if_neg hleft, if_neg hright]
  split
  · split
    · exact h.backspace
    · split
      · exact h.enter
      · exact h.insert _
  · split
    · exact h.clear
    · exact ⟨s, rfl, h⟩

/-- After an arrow that does not stay in the line, the index is outside of it. -/
theorem InLine.arrowInside {s s' : Shell} (h : InLine s) {past : U8 → U8} {key : Key}
    (hturn : kshellTurn past s key = some s') (hs' : InLine s') : ArrowInside s key := by
  have hindex := h.index
  have hindex' := hs'.index
  refine ⟨fun hleft => ?_, fun hright => ?_⟩
  · rw [kshellTurn_left past s hleft] at hturn
    cases hturn
    by_contra hzero
    have hi : s.i = 0 :=
      BitVec.eq_of_toNat_eq (Nat.le_zero.mp (BitVec.le_def.mp (BitVec.not_lt.mp hzero)))
    change (s.i - 1).toNat ≤ 32 at hindex'
    rw [hi] at hindex'
    exact absurd hindex' (by decide)
  · rw [kshellTurn_right past s hright] at hturn
    cases hturn
    have hsucc : (s.i + 1).toNat = s.i.toNat + 1 := by
      rw [BitVec.toNat_add]
      exact Nat.mod_eq_of_lt (by show s.i.toNat + 1 < 2 ^ 32; omega)
    refine BitVec.lt_def.mpr ?_
    show s.i.toNat < 32
    change (s.i + 1).toNat ≤ 32 at hindex'
    omega

/-! ## Runs -/

theorem kshellRun_concat (past : U8 → U8) (keys : List Key) (key : Key) :
    kshellRun past (keys ++ [key]) = (kshellRun past keys).bind (kshellTurn past · key) := by
  rw [kshellRun, List.foldlM_append]
  simp only [List.foldlM_cons, List.foldlM_nil, bind_pure]
  rfl

/-- **The line editor stays in its line**, after every key of a sequence, if and only
if no left arrow comes at the start of the line and no right arrow at its end. -/
theorem kshell_inLine_iff (past : U8 → U8) (keys : List Key) :
    (∀ pre, pre <+: keys → ∃ s, kshellRun past pre = some s ∧ InLine s) ↔
      ∀ pre key s, pre ++ [key] <+: keys → kshellRun past pre = some s → ArrowInside s key := by
  constructor
  · intro hline pre key s hpre hrun
    obtain ⟨s1, hrun1, hs1⟩ := hline pre ((List.prefix_append pre [key]).trans hpre)
    obtain ⟨s2, hrun2, hs2⟩ := hline _ hpre
    rw [hrun] at hrun1
    cases hrun1
    rw [kshellRun_concat, hrun] at hrun2
    exact hs1.arrowInside hrun2 hs2
  · intro harrows pre
    -- the line stays as it is asked, from key to key
    induction pre using List.reverseRecOn with
    | nil =>
        intro _
        exact ⟨Shell.start, rfl, .of_nul (Nat.zero_le 32) rfl⟩
    | append_singleton pre key ih =>
        intro hpre
        obtain ⟨s, hrun, hs⟩ := ih ((List.prefix_append pre [key]).trans hpre)
        obtain ⟨s', hturn, hs'⟩ := hs.turn past (harrows pre key s hpre hrun)
        refine ⟨s', ?_, hs'⟩
        rw [kshellRun_concat, hrun]
        exact hturn

/-- A left arrow at the start of the line, and the backspace behind it writes outside
of the line. -/
theorem kshell_leftArrow :
    ¬ ∀ (past : U8 → U8) (keys : List Key), ∀ pre, pre <+: keys →
      ∃ s, kshellRun past pre = some s ∧ InLine s := by
  intro hall
  obtain ⟨s, hrun, -⟩ := hall (fun _ => 0) [⟨0x4B, 0⟩, ⟨0x0E, 0⟩] _ (List.prefix_refl _)
  have hnone : (kshellRun (fun _ => 0) [⟨0x4B, 0⟩, ⟨0x0E, 0⟩]).isNone = true := by decide +kernel
  rw [hrun] at hnone
  cases hnone

end Tomk
