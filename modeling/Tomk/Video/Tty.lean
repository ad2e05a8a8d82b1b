/-
# `tty.c`

The cells that are written are a list of stores, the oldest first, each with the index that the
source computes, whether or not the screen has such a cell.  The cursor is `row` and `column`, and
on the screen what the registers 0x0E and 0x0F of the CRT controller say.

A line that is full, or at an end, goes on in the next row, and after the last one in the first.
Of the control characters only the line feed is one to `tty_putc`: the others are not shown, and
move the cursor on like any character.

`kprint` is `vformat` with `tty_putc` for its output, so that it does to the screen what its text
does, character by character (`vformatRead_text`); what it sends to the serial port after that is
not seen here.
-/
import Tomk.Libc.FormatReads
import Tomk.Libc.PrintfSpec
import Tomk.Lib.Loop
import Tomk.Lib.Runs

namespace Tomk

/-! ## `vga.h` -/

def vgaWidth : U32 := 80

def vgaHeight : U32 := 25

/-- `vga_entry`; a `char` is signed. -/
def vgaEntry (uc : U8) (color : U8) : BitVec 16 := uc.signExtend 16 ||| color.setWidth 16 <<< 8

def vgaEntryColor (fg bg : U8) : U8 := fg ||| bg <<< 4

/-! ## The terminal -/

/-- `((uint16_t*)VGA_MEMORY)[index] = entry` -/
structure CellStore where
  index : U32
  entry : BitVec 16
deriving DecidableEq

structure Tty where
  row : U32
  column : U32
  color : U8
  crt : U8 → U8
  stores : List CellStore

def Tty.store (s : Tty) (index : U32) (entry : BitVec 16) : Tty :=
  { s with stores := s.stores ++ [⟨index, entry⟩] }

/-- `outb(0x3D4, register); outb(0x3D5, value);` -/
def Tty.outCrt (s : Tty) (register value : U8) : Tty :=
  { s with crt := Function.update s.crt register value }

def cursorEnable (s : Tty) : Tty :=
  let start := s.crt 0x0A
  let start := start &&& 0x1F
  let start := start &&& ~~~((1 : U8) <<< 5)
  (s.outCrt 0x0A start).outCrt 0x0B 0x0F

def cursorMove (x y : U32) (s : Tty) : Tty :=
  let pos := y * vgaWidth + x
  (s.outCrt 0x0F ((pos &&& 0xFF).setWidth 8)).outCrt 0x0E ((pos >>> 8 &&& 0xFF).setWidth 8)

def ttyPute (c color : U8) (x y : U32) (s : Tty) : Tty :=
  s.store (y * vgaWidth + x) (vgaEntry c color)

/-- The loops of `tty_clear_screen`. -/
def ttyClearCells (s : Tty) : Tty :=
  CFor.iter (fun y s =>
    CFor.iter (fun x s =>
      s.store (BitVec.ofNat 32 y * vgaWidth + BitVec.ofNat 32 x) (vgaEntry (ch ' ') s.color))
      0 vgaWidth.toNat s) 0 vgaHeight.toNat s

def ttyClearScreen (s : Tty) : Tty :=
  cursorMove 0 0 { ttyClearCells s with row := 0, column := 0 }

/-- `for (i = x; i < VGA_WIDTH; ++i)` -/
def ttyClearLine (x y : U32) (s : Tty) : Tty :=
  CFor.iter (fun i s => ttyPute (ch ' ') s.color (BitVec.ofNat 32 i) y s)
    x.toNat (vgaWidth.toNat - x.toNat) s

def ttySetPosition (x y : U32) (s : Tty) : Tty :=
  let row := if vgaHeight ≤ y then vgaHeight - 1 else y
  let column := if vgaWidth ≤ x then vgaWidth - 1 else x
  cursorMove column row { s with row := row, column := column }

def ttySetColor (color : U8) (s : Tty) : Tty := { s with color := color &&& 0xF }

/-- `if (!r) { tty_pute(..) }`; `r` is CR, LF, TAB or BS. -/
def ttyShow (c : U8) (s : Tty) : Tty :=
  if ¬ (c = 0x0D ∨ c = 0x0A ∨ c = 0x09 ∨ c = 0x08) then ttyPute c s.color s.column s.row s else s

/-- Of `tty_putc` what moves the column, and `u`: whether the line is at an end. -/
def ttyAdvance (c : U8) (s : Tty) : Tty × Bool :=
  if c = 0x0A ∧ s.column < vgaWidth then (ttyClearLine s.column s.row s, true)
  else if c = 0x0A then (s, true)
  else
    let column := s.column + 1
    ({ s with column := column }, decide (vgaWidth ≤ column))

/-- `if (u) { .. }` -/
def ttyNextRow (s : Tty) : Tty :=
  let row := s.row + 1
  { s with column := 0, row := if vgaHeight ≤ row then 0 else row }

def ttyPutc (s : Tty) (c : U8) : Tty :=
  let (s, u) := ttyAdvance c (ttyShow c s)
  let s := if u then ttyNextRow s else s
  cursorMove s.column s.row s

def ttyInit (s : Tty) : Tty :=
  ttyClearScreen (cursorEnable { s with color := vgaEntryColor 7 0 })

/-! ## The calls -/

inductive TtyCall where
  | init
  | clearScreen
  | setPosition (x y : U32)
  | setColor (color : U8)
  | putc (c : U8)
  | kprint (cstr : U32 → List U8) (block : List U8) (args : Stream' U32)

/-- A call that returns.  A format may have any characters, and a string that it takes as well. -/
def TtyStep : TtyCall → Tty → Tty → Prop
  | .init, s, s' => s' = ttyInit s
  | .clearScreen, s, s' => s' = ttyClearScreen s
  | .setPosition x y, s, s' => s' = ttySetPosition x y s
  | .setColor color, s, s' => s' = ttySetColor color s
  | .putc c, s, s' => s' = ttyPutc s c
  | .kprint cstr block args, s, s' =>
      ∃ n out, vformatRead cstr n ⟨ttyPutc, s, 0⟩ block args = .done out ∧ s' = out.userparam

/-- The variables of `tty.c` before the first call. -/
def TtyStart (s : Tty) : Prop := s.row = 0 ∧ s.column = 0 ∧ s.color = 0 ∧ s.stores = []

def TtyRun : Tty → Prop := Runs.Reach TtyStart TtyStep

/-! ## The text of `kprint` -/

section Texts

variable {σ : Type}

theorem convertWords_text (cstr : U32 → List U8) (out : PrintfOutput σ) (conv : Conv) (c : U8)
    (args : Stream' U32) : ∃ t, (convertWords cstr out conv c args).1 = outputAll t out := by
  simp only [convertWords, prUint, prInt, prNumber_eq, prString_eq]
  split_ifs
  all_goals first
    | exact ⟨_, rfl⟩
    | exact ⟨[_], rfl⟩
    | exact ⟨[_, _], rfl⟩

/-- A run that comes to an end has put out a text, wherever it has read. -/
theorem vformatRead_text {cstr : U32 → List U8} {n : Nat} {out out' : PrintfOutput σ}
    {block : List U8} {args : Stream' U32} (h : vformatRead cstr n out block args = .done out') :
    ∃ t, out' = outputAll t out := by
  induction n generalizing out block args with
  | zero => cases h
  | succ n ih =>
      cases block with
      | nil => cases h
      | cons c fmt =>
          rw [vformatRead] at h
          split_ifs at h with h0 hc
          · cases h
            exact ⟨[], rfl⟩
          · obtain ⟨t, ht⟩ := ih h
            exact ⟨c :: t, ht⟩
          · split at h
            · cases h
            · cases h
            · next conv c' rest _ =>
                have hrest : vformatRead cstr n (convertWords cstr out conv c' args).1 rest
                    (convertWords cstr out conv c' args).2 = .done out' := h
                obtain ⟨t1, h1⟩ := convertWords_text cstr out conv c' args
                obtain ⟨t2, h2⟩ := ih hrest
                exact ⟨t1 ++ t2, by rw [outputAll_append, ← h1, h2]⟩

theorem outputAll_userparam (t : List U8) (out : PrintfOutput σ) :
    (outputAll t out).userparam = t.foldl out.putc out.userparam := by
  induction t generalizing out with
  | nil => rfl
  | cons c t ih => exact ih (outputChar out c)

end Texts

/-- **`kprint` on the screen** is its text, one character after the other. -/
theorem ttyStep_kprint {block : List U8} {cstr : U32 → List U8} {args : Stream' U32} {s s' : Tty}
    (h : TtyStep (.kprint cstr block args) s s') : ∃ t : List U8, s' = t.foldl ttyPutc s := by
  obtain ⟨n, out, hrun, rfl⟩ := h
  obtain ⟨t, rfl⟩ := vformatRead_text hrun
  exact ⟨t, outputAll_userparam t _⟩

/-! ## On the screen -/

/-- Every cell that has been written is one of the screen. -/
def Tty.InCells (s : Tty) : Prop := ∀ st ∈ s.stores, st.index < vgaWidth * vgaHeight

structure Tty.OnScreen (s : Tty) : Prop where
  row : s.row < vgaHeight
  column : s.column < vgaWidth
  cells : s.InCells

theorem toNat_cell {x y : U32} (hx : x < vgaWidth) (hy : y < vgaHeight) :
    (y * vgaWidth + x).toNat = y.toNat * 80 + x.toNat ∧ y.toNat * 80 + x.toNat < 2000 := by
  have hx' : x.toNat < 80 := hx
  have hy' : y.toNat < 25 := hy
  have hsum : y.toNat * 80 + x.toNat < 2000 := by omega
  refine ⟨?_, hsum⟩
  rw [BitVec.toNat_add, BitVec.toNat_mul, Nat.mod_add_mod]
  exact Nat.mod_eq_of_lt (Nat.lt_trans hsum (by decide))

theorem cell_lt {x y : U32} (hx : x < vgaWidth) (hy : y < vgaHeight) :
    y * vgaWidth + x < vgaWidth * vgaHeight := by
  obtain ⟨hval, hlt⟩ := toNat_cell hx hy
  exact hval.trans_lt hlt

theorem ofNat_lt {i : Nat} {b : U32} (h : i < b.toNat) : BitVec.ofNat 32 i < b := by
  rw [BitVec.lt_def, BitVec.toNat_ofNat]
  exact Nat.lt_of_le_of_lt (Nat.mod_le _ _) h

theorem Tty.InCells.store {s : Tty} {index : U32} (h : s.InCells)
    (hi : index < vgaWidth * vgaHeight) (entry : BitVec 16) : (s.store index entry).InCells := by
  intro st hst
  rcases List.mem_append.mp hst with hst | hst
  · exact h st hst
  · rw [List.mem_singleton.mp hst]
    exact hi

theorem Tty.OnScreen.pute {s : Tty} {x y : U32} (h : s.OnScreen) (hx : x < vgaWidth)
    (hy : y < vgaHeight) (c color : U8) : (ttyPute c color x y s).OnScreen :=
  ⟨h.row, h.column, h.cells.store (cell_lt hx hy) _⟩

theorem Tty.OnScreen.clearLine {s : Tty} (h : s.OnScreen) (x : U32) {y : U32}
    (hy : y < vgaHeight) : (ttyClearLine x y s).OnScreen := by
  refine CFor.iter_inv (fun _ (s : Tty) => s.OnScreen) h fun i t hle hi ht => ?_
  have hi' : i < vgaWidth.toNat := by omega
  exact ht.pute (ofNat_lt hi') hy _ _

theorem ttyClearCells_inCells {s : Tty} (h : s.InCells) : (ttyClearCells s).InCells := by
  refine CFor.iter_inv (fun _ (s : Tty) => s.InCells) h fun y t _ hy ht => ?_
  refine CFor.iter_inv (fun _ (s : Tty) => s.InCells) ht fun x u _ hx hu => hu.store ?_ _
  rw [Nat.zero_add] at hx hy
  exact cell_lt (ofNat_lt hx) (ofNat_lt hy)

/-! ## The cursor -/

/-- The cursor has just been moved to where the variables have it, on the screen. -/
def Tty.Moved (s : Tty) : Prop := ∃ t : Tty, t.OnScreen ∧ s = cursorMove t.column t.row t

/-- The CRT controller has the cursor where the variables have it. -/
def Tty.Shown (s : Tty) : Prop :=
  (s.crt 0x0E).toNat * 256 + (s.crt 0x0F).toNat = s.row.toNat * 80 + s.column.toNat

theorem Tty.Moved.onScreen {s : Tty} (h : s.Moved) : s.OnScreen := by
  obtain ⟨t, ht, rfl⟩ := h
  exact ⟨ht.row, ht.column, ht.cells⟩

theorem toNat_lowByte (p : U32) : ((p &&& 0xFF).setWidth 8).toNat = p.toNat % 256 := by
  have hand : (p &&& 0xFF).toNat = p.toNat % 256 := toNat_and_mask p (show 8 ≤ 32 by decide)
  rw [BitVec.toNat_setWidth, hand]
  exact Nat.mod_mod _ _

theorem cursorMove_crt (x y : U32) (s : Tty) :
    (cursorMove x y s).crt
      = Function.update
          (Function.update s.crt 0x0F (((y * vgaWidth + x) &&& 0xFF).setWidth 8))
          0x0E (((y * vgaWidth + x) >>> 8 &&& 0xFF).setWidth 8) := rfl

theorem Tty.Moved.shown {s : Tty} (h : s.Moved) : s.Shown := by
  obtain ⟨t, ht, rfl⟩ := h
  obtain ⟨hval, hlt⟩ := toNat_cell ht.column ht.row
  have hhigh : ((cursorMove t.column t.row t).crt 0x0E).toNat
      = (t.row.toNat * 80 + t.column.toNat) / 256 % 256 := by
    rw [cursorMove_crt, Function.update_self, toNat_lowByte, BitVec.toNat_ushiftRight, hval,
      Nat.shiftRight_eq_div_pow]
  have hlow : ((cursorMove t.column t.row t).crt 0x0F).toNat
      = (t.row.toNat * 80 + t.column.toNat) % 256 := by
    rw [cursorMove_crt, Function.update_of_ne (by decide), Function.update_self, toNat_lowByte,
      hval]
  rw [Tty.Shown, hhigh, hlow]
  show _ = t.row.toNat * 80 + t.column.toNat
  omega

/-- The cursor before the call does not matter. -/
theorem ttyClearScreen_moved {s : Tty} (h : s.InCells) : (ttyClearScreen s).Moved := by
  have hrow : (0 : U32) < vgaHeight := by decide
  have hcolumn : (0 : U32) < vgaWidth := by decide
  have hcells := ttyClearCells_inCells h
  unfold ttyClearScreen
  generalize ttyClearCells s = t at hcells
  exact ⟨{ t with row := 0, column := 0 }, ⟨hrow, hcolumn, hcells⟩, rfl⟩

theorem clamp_lt {n : U32} (hn : n - 1 < n) (v : U32) : (if n ≤ v then n - 1 else v) < n := by
  split
  · exact hn
  · next hv => exact BitVec.not_le.mp hv

theorem ttySetPosition_moved {s : Tty} (h : s.InCells) (x y : U32) :
    (ttySetPosition x y s).Moved := by
  have hrow := clamp_lt (n := vgaHeight) (by decide) y
  have hcolumn := clamp_lt (n := vgaWidth) (by decide) x
  refine ⟨{ s with
      row := if vgaHeight ≤ y then vgaHeight - 1 else y
      column := if vgaWidth ≤ x then vgaWidth - 1 else x }, ⟨hrow, hcolumn, h⟩, rfl⟩

theorem ttyShow_onScreen {s : Tty} (h : s.OnScreen) (c : U8) : (ttyShow c s).OnScreen := by
  unfold ttyShow
  split
  · exact h.pute h.column h.row c _
  · exact h

/-- Where the line is not at an end, the column is still one of it. -/
theorem ttyAdvance_onScreen {s : Tty} (h : s.OnScreen) (c : U8) :
    (ttyAdvance c s).1.InCells ∧ ((ttyAdvance c s).2 = false → (ttyAdvance c s).1.OnScreen) := by
  unfold ttyAdvance
  split
  · exact ⟨(h.clearLine s.column h.row).cells, fun hu => absurd hu.symm Bool.false_ne_true⟩
  · split
    · exact ⟨h.cells, fun hu => absurd hu.symm Bool.false_ne_true⟩
    · refine ⟨h.cells, fun hu => ⟨h.row, ?_, h.cells⟩⟩
      exact BitVec.not_le.mp (of_decide_eq_false hu)

theorem ttyNextRow_onScreen {s : Tty} (h : s.InCells) : (ttyNextRow s).OnScreen := by
  refine ⟨?_, show (0 : U32) < vgaWidth by decide, h⟩
  show (if vgaHeight ≤ s.row + 1 then 0 else s.row + 1) < vgaHeight
  split
  · decide
  · next hrow => exact BitVec.not_le.mp hrow

theorem ttyPutc_moved {s : Tty} (h : s.OnScreen) (c : U8) : (ttyPutc s c).Moved := by
  obtain ⟨hcells, hline⟩ := ttyAdvance_onScreen (ttyShow_onScreen h c) c
  unfold ttyPutc
  generalize ttyAdvance c (ttyShow c s) = a at hcells hline
  refine ⟨if a.2 = true then ttyNextRow a.1 else a.1, ?_, rfl⟩
  split
  · exact ttyNextRow_onScreen hcells
  · next hu => exact hline (Bool.eq_false_of_not_eq_true hu)

theorem foldl_ttyPutc_moved {s : Tty} (h : s.OnScreen) (c : U8) (t : List U8) :
    ((c :: t).foldl ttyPutc s).Moved := by
  induction t generalizing s c with
  | nil => exact ttyPutc_moved h c
  | cons d t ih => exact ih (ttyPutc_moved h c).onScreen d

/-! ## Every run -/

/-- A call moves the cursor, or writes nothing and leaves it where it is. -/
theorem TtyStep.moved {call : TtyCall} {s s' : Tty} (h : s.OnScreen) (hstep : TtyStep call s s') :
    s'.Moved ∨ ∃ color, s' = { s with color := color } := by
  cases call with
  | init =>
      cases hstep
      exact Or.inl (ttyClearScreen_moved h.cells)
  | clearScreen =>
      cases hstep
      exact Or.inl (ttyClearScreen_moved h.cells)
  | setPosition x y =>
      cases hstep
      exact Or.inl (ttySetPosition_moved h.cells x y)
  | setColor color =>
      cases hstep
      exact Or.inr ⟨_, rfl⟩
  | putc c =>
      cases hstep
      exact Or.inl (ttyPutc_moved h c)
  | kprint cstr block args =>
      obtain ⟨t, rfl⟩ := ttyStep_kprint hstep
      cases t with
      | nil => exact Or.inr ⟨s.color, rfl⟩
      | cons c t => exact Or.inl (foldl_ttyPutc_moved h c t)

theorem TtyStep.onScreen {call : TtyCall} {s s' : Tty} (h : s.OnScreen)
    (hstep : TtyStep call s s') : s'.OnScreen := by
  rcases hstep.moved h with hmoved | ⟨color, rfl⟩
  · exact hmoved.onScreen
  · exact ⟨h.row, h.column, h.cells⟩

theorem TtyStart.onScreen {s : Tty} (h : TtyStart s) : s.OnScreen := by
  obtain ⟨hrow, hcolumn, -, hstores⟩ := h
  refine ⟨by rw [hrow]; decide, by rw [hcolumn]; decide, ?_⟩
  intro st hst
  rw [hstores] at hst
  cases hst

theorem TtyRun.onScreen {s : Tty} (h : TtyRun s) : s.OnScreen :=
  Runs.Reach.invariant Tty.OnScreen (fun _ => TtyStart.onScreen) (fun _ _ _ => TtyStep.onScreen) h

/-- **After every call** the cursor is on the screen, and so is every cell that has been written. -/
theorem tty_run_inside {s : Tty} (h : TtyRun s) :
    s.row.toNat < 25 ∧ s.column.toNat < 80 ∧ ∀ st ∈ s.stores, st.index.toNat < 80 * 25 :=
  ⟨h.onScreen.row, h.onScreen.column, h.onScreen.cells⟩

/-- A position that is not on the screen, a line feed there, and a text. -/
theorem tty_run_inside_corner :
    let s := ttyPutc (ttyPutc (ttySetPosition 200 100 ⟨0, 0, 0, fun _ => 0, []⟩) 0x0A) (ch 'A')
    s.row.toNat < 25 ∧ s.column.toNat < 80 ∧ ∀ st ∈ s.stores, st.index.toNat < 80 * 25 := by
  intro s
  have hstart : TtyRun ⟨0, 0, 0, fun _ => 0, []⟩ := .start ⟨rfl, rfl, rfl, rfl⟩
  have hposition : TtyRun (ttySetPosition 200 100 ⟨0, 0, 0, fun _ => 0, []⟩) :=
    .next hstart (show TtyStep (.setPosition 200 100) _ _ from rfl)
  have hfeed : TtyRun (ttyPutc (ttySetPosition 200 100 ⟨0, 0, 0, fun _ => 0, []⟩) 0x0A) :=
    .next hposition (show TtyStep (.putc 0x0A) _ _ from rfl)
  have htext : TtyRun s :=
    .next hfeed (show TtyStep (.kprint (fun _ => []) [ch 'A', 0] fun _ => 0) _ _ from
      ⟨2, _, rfl, rfl⟩)
  exact tty_run_inside htext

end Tomk
