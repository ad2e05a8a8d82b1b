/-
# What is on the screen

The screen is a ring of 25 rows: a line that ends goes on in the next row, and behind
the last one in the first, over what is there.  So a text that is put out, of any
length, is on the screen with its last 24 lines that are finished, each in the row that
many above the cursor, counted round (`ttyText_shows`); and of the line that is not
finished there are the characters up to the cursor.  What follows them, in that row,
is 25 lines older.

A line is finished by a line feed, which clears the rest of its row, or when it has 80
characters.  Carriage return, tab and backspace take a place in the line and show
nothing: the cell keeps what was in it.
-/
import Tomk.Video.Tty

namespace Tomk

/-! ## Lines -/

/-- A character of a line as it is shown; none for one that leaves the cell as it is. -/
def shown (c : U8) : Option U8 := if c = 0x0D ∨ c = 0x0A ∨ c = 0x09 ∨ c = 0x08 then none else some c

/-- The lines of a text: the finished ones, from the last one on, and the one that is
being written. -/
structure TextLines where
  finished : List (List (Option U8))
  line : List (Option U8)
deriving DecidableEq

/-- A line with the rest of its row cleared. -/
def padLine (line : List (Option U8)) : List (Option U8) :=
  line ++ List.replicate (80 - line.length) (some (ch ' '))

def TextLines.putc (v : TextLines) (c : U8) : TextLines :=
  if c = 0x0A then ⟨padLine v.line :: v.finished, []⟩
  else if v.line.length + 1 = 80 then ⟨(v.line ++ [shown c]) :: v.finished, []⟩
  else { v with line := v.line ++ [shown c] }

/-! ## Cells -/

/-- What has been written to a cell last. -/
def Tty.cell (s : Tty) (index : Nat) : Option (BitVec 16) :=
  (s.stores.reverse.find? fun st => st.index.toNat = index).map CellStore.entry

/-- The row begins with the line, in this color. -/
def Tty.ShowsLine (s : Tty) (a : U8) (row : Nat) (text : List (Option U8)) : Prop :=
  ∀ x c, text[x]? = some (some c) → s.cell (row * 80 + x) = some (vgaEntry c a)

/-- The cursor is behind the line, and the 24 rows above it show the last lines. -/
structure Tty.ShowsText (s : Tty) (a : U8) (v : TextLines) : Prop where
  onScreen : s.OnScreen
  color : s.color = a
  column : s.column.toNat = v.line.length
  line : s.ShowsLine a s.row.toNat v.line
  finished : ∀ k < 24, ∀ l, v.finished[k]? = some l → l.length = 80 ∧
    s.ShowsLine a ((s.row.toNat + 24 - k) % 25) l

variable {s t : Tty} {v : TextLines} {c a : U8} {row : Nat} {line : List (Option U8)}

theorem Tty.cell_store (s : Tty) (i : U32) (entry : BitVec 16) (index : Nat) :
    (s.store i entry).cell index = if i.toNat = index then some entry else s.cell index := by
  rw [Tty.cell, Tty.store, List.reverse_append, List.reverse_singleton, List.singleton_append,
    List.find?_cons]
  by_cases h : i.toNat = index
  · simp [h]
  · simp [h, Tty.cell]

/-- A cell of the screen that is written, and another one. -/
theorem Tty.cell_pute {x y : U32} (hx : x < vgaWidth) (hy : y < vgaHeight) (color : U8) {r z : Nat}
    (hz : z < 80) : (ttyPute c color x y s).cell (r * 80 + z)
      = if r = y.toNat ∧ z = x.toNat then some (vgaEntry c color) else s.cell (r * 80 + z) := by
  obtain ⟨hcell, -⟩ := toNat_cell hx hy
  have hx' : x.toNat < 80 := hx
  rw [ttyPute, Tty.cell_store, hcell]
  refine if_congr ?_ rfl rfl
  omega

/-- A line stays if its cells do. -/
theorem Tty.ShowsLine.same (h : s.ShowsLine a row line)
    (hcell : ∀ x < line.length, t.cell (row * 80 + x) = s.cell (row * 80 + x)) :
    t.ShowsLine a row line := by
  intro x c hc
  rw [hcell x (List.getElem?_eq_some_iff.mp hc).1]
  exact h x c hc

/-- **`tty_clear_line`** clears a row from a column on. -/
theorem ttyClearLine_cell (s : Tty) {x y : U32} (hx : x < vgaWidth) (hy : y < vgaHeight) :
    (ttyClearLine x y s).row = s.row ∧ (ttyClearLine x y s).column = s.column ∧
      (ttyClearLine x y s).color = s.color ∧
      ∀ r z, z < 80 → (ttyClearLine x y s).cell (r * 80 + z)
        = if r = y.toNat ∧ x.toNat ≤ z then some (vgaEntry (ch ' ') s.color)
          else s.cell (r * 80 + z) := by
  have hx' : x.toNat < 80 := hx
  have hloop := CFor.iter_inv (fun i (t : Tty) => t.row = s.row ∧ t.column = s.column ∧
      t.color = s.color ∧ ∀ r z, z < 80 → t.cell (r * 80 + z)
        = if r = y.toNat ∧ x.toNat ≤ z ∧ z < i then some (vgaEntry (ch ' ') s.color)
          else s.cell (r * 80 + z))
    (f := fun i t => ttyPute (ch ' ') t.color (BitVec.ofNat 32 i) y t) (a := x.toNat)
    (n := vgaWidth.toNat - x.toNat) (s := s) ⟨rfl, rfl, rfl, fun r z _ => ?_⟩ fun i t hle hi ht => ?_
  · obtain ⟨hrow, hcolumn, hcolor, hcell⟩ := hloop
    refine ⟨hrow, hcolumn, hcolor, fun r z hz => (hcell r z hz).trans (if_congr ?_ rfl rfl)⟩
    have hwidth : vgaWidth.toNat = 80 := rfl
    omega
  · rw [if_neg (by omega)]
  · obtain ⟨hrow, hcolumn, hcolor, hcell⟩ := ht
    have hwidth : vgaWidth.toNat = 80 := rfl
    have hi' : i < vgaWidth.toNat := by omega
    have hval : (BitVec.ofNat 32 i).toNat = i := by
      rw [BitVec.toNat_ofNat]
      exact Nat.mod_eq_of_lt (by omega)
    refine ⟨hrow, hcolumn, hcolor, fun r z hz => ?_⟩
    rw [Tty.cell_pute (ofNat_lt hi') hy t.color hz, hval, hcell r z hz, hcolor]
    by_cases hrz : r = y.toNat ∧ z = i
    · rw [if_pos hrz, if_pos (by omega)]
    · rw [if_neg hrz]
      exact if_congr (by omega) rfl rfl

/-! ## A character -/

/-- What is left of the screen when a line ends: its row, and the rows above. -/
theorem Tty.ShowsText.nextRow (h : s.ShowsText a v) {u : Tty} (hrow : u.row = s.row)
    (hcolor : u.color = s.color) (hon : (ttyNextRow u).OnScreen) (hlen : line.length = 80)
    (hline : u.ShowsLine a s.row.toNat line)
    (hcell : ∀ r z, r ≠ s.row.toNat → z < 80 → u.cell (r * 80 + z) = s.cell (r * 80 + z)) :
    (ttyNextRow u).ShowsText a ⟨line :: v.finished, []⟩ := by
  have hlt : s.row.toNat < 25 := h.onScreen.row
  have hnext : (ttyNextRow u).row.toNat = (s.row.toNat + 1) % 25 := by
    show (if vgaHeight ≤ u.row + 1 then 0 else u.row + 1).toNat = _
    have hsucc : (s.row + 1).toNat = s.row.toNat + 1 := by
      rw [BitVec.toNat_add]
      exact Nat.mod_eq_of_lt (by show s.row.toNat + 1 < 2 ^ 32; omega)
    have hle : vgaHeight ≤ s.row + 1 ↔ 25 ≤ s.row.toNat + 1 := by
      rw [BitVec.le_def, hsucc]
      rfl
    rw [hrow]
    split
    · next hge =>
        have heq : s.row.toNat = 24 := by have := hle.mp hge; omega
        rw [heq]
        rfl
    · next hge =>
        rw [hsucc, Nat.mod_eq_of_lt (Nat.not_le.mp fun hge' => hge (hle.mpr hge'))]
  refine ⟨hon, hcolor.trans h.color, rfl, fun x c hc => (nomatch hc), fun k hk l hl => ?_⟩
  rw [hnext]
  cases k with
  | zero =>
      obtain rfl : line = l := Option.some.inj hl
      refine ⟨hlen, ?_⟩
      rw [show ((s.row.toNat + 1) % 25 + 24 - 0) % 25 = s.row.toNat by omega]
      exact hline
  | succ k =>
      obtain ⟨hl80, hshows⟩ := h.finished k (by omega) l hl
      refine ⟨hl80, ?_⟩
      rw [show ((s.row.toNat + 1) % 25 + 24 - (k + 1)) % 25 = (s.row.toNat + 24 - k) % 25 by omega]
      exact hshows.same fun x hx => hcell _ x (by omega) (by omega)

/-- **`tty_putc`** without the end of a line: the character goes behind the line. -/
theorem Tty.ShowsText.show (h : s.ShowsText a v) (c : U8) :
    (ttyShow c s).row = s.row ∧ (ttyShow c s).column = s.column ∧ (ttyShow c s).color = s.color ∧
      (ttyShow c s).ShowsLine a s.row.toNat (v.line ++ [shown c]) ∧
      ∀ r z, r ≠ s.row.toNat → z < 80 → (ttyShow c s).cell (r * 80 + z) = s.cell (r * 80 + z) := by
  have hcolumn : s.column.toNat < 80 := h.onScreen.column
  rw [ttyShow]
  split
  · next hc =>
      have hshown : shown c = some c := if_neg hc
      refine ⟨rfl, rfl, rfl, fun x d hd => ?_, fun r z hr hz => ?_⟩
      · have hx : x < v.line.length + 1 := by
          have hlt := (List.getElem?_eq_some_iff.mp hd).1
          rwa [List.length_append, List.length_singleton] at hlt
        rw [Tty.cell_pute h.onScreen.column h.onScreen.row s.color (by rw [h.column] at hcolumn; omega),
          h.column]
        by_cases hlast : x = v.line.length
        · rw [hlast, List.getElem?_append_right (Nat.le_refl _), Nat.sub_self, hshown] at hd
          rw [if_pos ⟨rfl, hlast⟩, ← Option.some.inj (Option.some.inj hd), h.color]
        · rw [List.getElem?_append_left (by omega)] at hd
          rw [if_neg fun hp => hlast hp.2]
          exact h.line x d hd
      · rw [Tty.cell_pute h.onScreen.column h.onScreen.row s.color hz, if_neg fun hp => hr hp.1]
  · next hc =>
      have hshown : shown c = none := if_pos (not_not.mp hc)
      refine ⟨rfl, rfl, rfl, fun x d hd => ?_, fun r z _ _ => rfl⟩
      by_cases hlast : x < v.line.length
      · rw [List.getElem?_append_left hlast] at hd
        exact h.line x d hd
      · rw [List.getElem?_append_right (Nat.not_lt.mp hlast), hshown, List.getElem?_singleton] at hd
        split at hd
        · cases hd
        · cases hd

theorem Tty.ShowsText.moved (h : s.ShowsText a v) (x y : U32) : (cursorMove x y s).ShowsText a v :=
  ⟨⟨h.onScreen.row, h.onScreen.column, h.onScreen.cells⟩, h.color, h.column, h.line, h.finished⟩

/-- **A character** on the screen is a character of the lines. -/
theorem Tty.ShowsText.putc (h : s.ShowsText a v) (c : U8) : (ttyPutc s c).ShowsText a (v.putc c) := by
  have hcolumn : s.column.toNat < 80 := h.onScreen.column
  have hlen := h.column
  by_cases hfeed : c = 0x0A
  · -- a line feed clears the rest of the row
    have hshow : ttyShow c s = s := if_neg (not_not_intro (Or.inr (Or.inl hfeed)))
    have hadvance : ttyAdvance c s = (ttyClearLine s.column s.row s, true) :=
      if_pos ⟨hfeed, h.onScreen.column⟩
    obtain ⟨hrow, -, hcolor, hcell⟩ := ttyClearLine_cell s h.onScreen.column h.onScreen.row
    have hnext : (ttyNextRow (ttyClearLine s.column s.row s)).ShowsText a
        ⟨padLine v.line :: v.finished, []⟩ := by
      refine h.nextRow hrow hcolor (ttyNextRow_onScreen (h.onScreen.clearLine _ h.onScreen.row).cells)
        ?_ (fun x d hd => ?_) fun r z hr hz => ?_
      · rw [padLine, List.length_append, List.length_replicate]
        omega
      · have hx : x < 80 := by
          have hlt := (List.getElem?_eq_some_iff.mp hd).1
          rw [padLine, List.length_append, List.length_replicate] at hlt
          omega
        rw [hcell _ x hx, h.color]
        by_cases hold : x < v.line.length
        · rw [padLine, List.getElem?_append_left hold] at hd
          rw [if_neg (by omega)]
          exact h.line x d hd
        · rw [padLine, List.getElem?_append_right (Nat.not_lt.mp hold), List.getElem?_replicate] at hd
          split at hd
          · rw [if_pos ⟨rfl, by omega⟩, ← Option.some.inj (Option.some.inj hd)]
          · cases hd
      · rw [hcell r z hz, if_neg fun hp => hr hp.1]
    rw [ttyPutc, hshow, hadvance, TextLines.putc, if_pos hfeed]
    exact hnext.moved _ _
  · obtain ⟨hrow, hcol, hcolor, hline, hcell⟩ := h.show c
    generalize htty : ttyShow c s = t at hrow hcol hcolor hline hcell
    have hsucc : (t.column + 1).toNat = v.line.length + 1 := by
      rw [hcol, BitVec.toNat_add, hlen]
      exact Nat.mod_eq_of_lt (by show v.line.length + 1 < 2 ^ 32; omega)
    have hfull : vgaWidth ≤ t.column + 1 ↔ v.line.length + 1 = 80 := by
      rw [BitVec.le_def, hsucc, show vgaWidth.toNat = 80 from rfl]
      omega
    have hadvance : ttyAdvance c t
        = ({ t with column := t.column + 1 }, decide (vgaWidth ≤ t.column + 1)) := by
      rw [ttyAdvance, if_neg fun hc => hfeed hc.1, if_neg hfeed]
    have hcells : t.InCells := by
      rw [← htty]
      exact (ttyShow_onScreen h.onScreen c).cells
    rw [ttyPutc, htty, hadvance, TextLines.putc, if_neg hfeed]
    by_cases hend : v.line.length + 1 = 80
    · -- the line is full
      have hnext : (ttyNextRow { t with column := t.column + 1 }).ShowsText a
          ⟨(v.line ++ [shown c]) :: v.finished, []⟩ :=
        h.nextRow hrow hcolor (ttyNextRow_onScreen hcells)
          (by rw [List.length_append, List.length_singleton, hend]) hline hcell
      simp only [decide_eq_true (hfull.mpr hend), if_pos hend, if_true]
      exact hnext.moved _ _
    · have hstay : ({ t with column := t.column + 1 } : Tty).ShowsText a
          { v with line := v.line ++ [shown c] } := by
        refine ⟨⟨?_, ?_, hcells⟩, hcolor.trans h.color, ?_, ?_, fun k hk l hl => ?_⟩
        · rw [hrow]
          exact h.onScreen.row
        · exact BitVec.not_le.mp fun hge => hend (hfull.mp hge)
        · rw [hsucc, List.length_append, List.length_singleton]
        · rw [hrow]
          exact hline
        · obtain ⟨hl80, hshows⟩ := h.finished k hk l hl
          refine ⟨hl80, ?_⟩
          have hlt : s.row.toNat < 25 := h.onScreen.row
          rw [hrow]
          exact hshows.same fun x hx => hcell _ x (by omega) (by omega)
      simp only [decide_eq_false fun hge => hend (hfull.mp hge), if_neg hend, Bool.false_eq_true, if_false]
      exact hstay.moved _ _

/-! ## Texts -/

/-- **A text** on the screen is the text in lines. -/
theorem Tty.ShowsText.text (h : s.ShowsText a v) (text : List U8) :
    (text.foldl ttyPutc s).ShowsText a (text.foldl TextLines.putc v) := by
  induction text generalizing s v with
  | nil => exact h
  | cons c text ih => exact ih (h.putc c)

/-- Before a text: nothing is known of what stands before the cursor. -/
def TextLines.behind (column : U32) : TextLines := ⟨[], List.replicate column.toNat none⟩

/-- A call of `kprint`: the format, the values of its arguments, the words on the
stack, and the text. -/
structure Message where
  fmt : List U8
  args : List Arg
  words : Stream' U32
  text : List U8

/-- The words are the arguments, and the text is what the format makes of them. -/
structure Message.Prints (m : Message) (cstr : U32 → List U8) : Prop where
  noNul : 0 ∉ m.fmt
  words : OnStack cstr m.args m.words
  text : formatText m.fmt m.args = some m.text

/-- A line of 80 characters is finished, and a line feed behind it finishes another one. -/
example : (chars "ab\n").foldl TextLines.putc ⟨[], List.replicate 79 none⟩
    = ⟨[padLine [some (ch 'b')], List.replicate 79 none ++ [some (ch 'a')]], []⟩ := by decide +kernel

end Tomk
