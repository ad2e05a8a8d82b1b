/-
# `print_page_directory` and `print_page_tables`

Each goes through its entries once, and prints a row for every run of them: entries with the same
flags of the group, whose frames lie one behind the other.  A row is printed where the next run
begins, the last one behind the loop, and only if its flags meet the output mask.

That is a run-length encoding, in which the frame of a run moves on by one page from entry to entry
(`directoryTurn_pass`).  The rows are decoded to the entries whose flags meet the mask, and nothing
is lost or told twice (`print_paging_decoded`).

The rows of the page tables also have the virtual address of their run, which is counted along with
the lengths of the runs, whether or not these are printed.  Frames and addresses wrap around.  So
does `count * PAGE_SIZE`, a product of two `int`s which from 2^19 entries on is more than an `int`
holds.
-/
import Tomk.Lib.RunLength
import Tomk.Mm.Chgpriv

namespace Tomk

/-! ## Rows -/

/-- A row of the page directory: `start_index`, `start_frame`, `start_flags` and `count`. -/
structure PageRow where
  index : Nat
  frame : U32
  flags : U32
  count : Nat
deriving DecidableEq

/-- A row of the page tables, with `start_virt`. -/
structure TableRow extends PageRow where
  virt : U32
deriving DecidableEq

/-- `start_frame + count * PAGE_SIZE == frame && start_flags == flags` -/
def PageRow.GoesOn (r : PageRow) (frame flags : U32) : Prop :=
  r.frame + BitVec.ofNat 32 r.count * pageSize = frame ∧ r.flags = flags

instance (r : PageRow) (frame flags : U32) : Decidable (r.GoesOn frame flags) :=
  inferInstanceAs (Decidable (_ ∧ _))

/-- The rows that have been printed, the oldest first, and the one that is being counted. -/
structure Printing (ρ : Type) where
  rows : List ρ
  start : ρ

/-- `if (start_flags & output_flag_mask)`: a row is printed. -/
def Printing.put {ρ : Type} (s : Printing ρ) (flags output : U32) : List ρ :=
  if flags &&& output ≠ 0 then s.rows ++ [s.start] else s.rows

/-! ## The page directory -/

section Directory

variable (pd : Nat → U32) (group output : U32)

def directoryTurn (i : Nat) (s : Printing PageRow) : Printing PageRow :=
  let frame := pd i &&& 0xFFFFF000#32
  let flags := pd i &&& group
  if s.start.GoesOn frame flags then
    { s with start := { s.start with count := s.start.count + 1 } }
  else ⟨s.put s.start.flags output, ⟨i, frame, flags, 1⟩⟩

def directoryStart : Printing PageRow := ⟨[], ⟨0, pd 0 &&& 0xFFFFF000#32, pd 0 &&& group, 0⟩⟩

/-- The rows that `print_page_directory` prints. -/
def directoryRows : List PageRow :=
  let s := CFor.iter (directoryTurn pd group output) 0 1024 (directoryStart pd group)
  s.put s.start.flags output

end Directory

/-! ## The page tables -/

section Tables

variable (pt : Nat → U32) (group output : U32)

def tablesTurn (i : Nat) (s : Printing TableRow) : Printing TableRow :=
  let frame := pt i &&& 0xFFFFF000#32
  let flags := pt i &&& group
  if s.start.GoesOn frame flags then
    { s with start := { s.start with count := s.start.count + 1 } }
  else
    ⟨s.put s.start.flags output,
      { index := i
        frame := frame
        virt := s.start.virt + BitVec.ofNat 32 s.start.count * pageSize
        flags := flags
        count := 1 }⟩

def tablesStart : Printing TableRow :=
  ⟨[], { index := 0
         frame := pt 0 &&& 0xFFFFF000#32
         virt := 0
         flags := pt 0 &&& group
         count := 0 }⟩

/-- The rows that `print_page_tables` prints. -/
def tableRows : List TableRow :=
  let s := CFor.iter (tablesTurn pt group output) 0 (1024 * 1024) (tablesStart pt group)
  s.put s.start.flags output

end Tables

/-! ## What is printed -/

def pteA : U32 := 0x20

def pteD : U32 := 0x40

/-- A call of `kprint`. -/
structure Kprint where
  fmt : String
  args : List U32
deriving DecidableEq

/-- The flags of a row, and its end. -/
def accessPrints (flags : U32) : List Kprint :=
  let choose (pte : U32) (yes no : String) : Kprint := ⟨if flags &&& pte ≠ 0 then yes else no, []⟩
  [choose pteP " P " "NP ", choose pteRw "RW " "RO ", choose pteUs "U  " " S ",
    choose pteA "A " "  ", choose pteD "D " "  ", ⟨"|\n", []⟩]

def PageRow.prints (r : PageRow) : List Kprint :=
  ⟨"| %5u | 0x%08X | %5u |", [BitVec.ofNat 32 r.index, r.frame, BitVec.ofNat 32 r.count]⟩
    :: accessPrints r.flags

def TableRow.prints (r : TableRow) : List Kprint :=
  ⟨"| %7u | 0x%08X | 0x%08X | %5u |",
    [BitVec.ofNat 32 r.index, r.virt, r.frame, BitVec.ofNat 32 r.count]⟩ :: accessPrints r.flags

def printPageDirectory (pd : Nat → U32) (group output : U32) : List Kprint :=
  ⟨"Page directory:\n| index | frame      | count | access |\n", []⟩
    :: (directoryRows pd group output).flatMap PageRow.prints ++ [⟨"\n", []⟩]

def printPageTables (pt : Nat → U32) (group output : U32) : List Kprint :=
  ⟨"Page tables:\n|  index  | virt       | frame      | count | access      |\n", []⟩
    :: (tableRows pt group output).flatMap TableRow.prints ++ [⟨"\n", []⟩]

def printPaging (pd pt : Nat → U32) : List Kprint :=
  printPageDirectory pd (pteP ||| pteRw ||| pteUs) pteP
    ++ printPageTables pt (pteP ||| pteRw ||| pteUs) pteP

/-! ## What the rows say -/

/-- The entries of a row: their indices, frames and flags. -/
def PageRow.cells (r : PageRow) : List (Nat × U32 × U32) :=
  (List.range r.count).map fun k => (r.index + k, r.frame + BitVec.ofNat 32 k * pageSize, r.flags)

def PageRow.Covers (r : PageRow) (i : Nat) : Prop := r.index ≤ i ∧ i < r.index + r.count

/-- The first `n` entries whose flags meet the output mask. -/
def shownEntries (entries : Nat → U32) (group output : U32) (n : Nat) : List (Nat × U32 × U32) :=
  ((List.range n).filter fun i => entries i &&& group &&& output ≠ 0).map fun i =>
    (i, entries i &&& 0xFFFFF000#32, entries i &&& group)

/-- The rows are decoded to the entries whose flags meet the output mask. -/
structure Decoded (entries : Nat → U32) (group output : U32) (n : Nat) (rows : List PageRow) :
    Prop where
  cells : rows.flatMap PageRow.cells = shownEntries entries group output n
  covered : ∀ i, (∃ r ∈ rows, r.Covers i) ↔ i < n ∧ entries i &&& group &&& output ≠ 0
  once : ∀ (i j k : Nat) (r q : PageRow), rows[j]? = some r → rows[k]? = some q →
    r.Covers i → q.Covers i → j = k
  own : ∀ r ∈ rows, ∀ i, r.Covers i →
    r.frame + BitVec.ofNat 32 (i - r.index) * pageSize = entries i &&& 0xFFFFF000#32 ∧
      r.flags = entries i &&& group

/-! ## The directory as a run-length encoding -/

section Encoding

variable (entries : Nat → U32) (group output : U32)

/-- A frame and flags, `k` entries further on in a run. -/
def pageShift (k : Nat) (a : U32 × U32) : U32 × U32 := (a.1 + BitVec.ofNat 32 k * pageSize, a.2)

def meets (a : U32 × U32) : Bool := decide (a.2 &&& output ≠ 0)

def entryAt (i : Nat) : U32 × U32 := (entries i &&& 0xFFFFF000#32, entries i &&& group)

def PageRow.run (r : PageRow) : RunLength.Run (U32 × U32) := ⟨r.index, (r.frame, r.flags), r.count⟩

def Printing.pass (s : Printing PageRow) : RunLength.Pass (U32 × U32) :=
  ⟨s.rows.map PageRow.run, s.start.run⟩

theorem pageShift_zero (a : U32 × U32) : pageShift 0 a = a := by
  rw [pageShift, BitVec.zero_mul, BitVec.add_zero]

theorem meets_pageShift (k : Nat) (a : U32 × U32) :
    meets output (pageShift k a) = meets output a := rfl

theorem Printing.put_pass (s : Printing PageRow) :
    (s.put s.start.flags output).map PageRow.run = s.pass.emit (meets output) := by
  have hmeets : meets output s.start.run.value = true ↔ s.start.flags &&& output ≠ 0 :=
    decide_eq_true_iff
  rw [Printing.put, RunLength.Pass.emit, Printing.pass]
  simp only [hmeets]
  split
  · exact List.map_append
  · rfl

theorem Printing.goesOn_iff (s : Printing PageRow) (i : Nat) :
    s.start.GoesOn (entries i &&& 0xFFFFF000#32) (entries i &&& group) ↔
      pageShift s.pass.last.count s.pass.last.value = entryAt entries group i :=
  Prod.mk_inj.symm

theorem directoryTurn_pass (i : Nat) (s : Printing PageRow) :
    (directoryTurn entries group output i s).pass
      = RunLength.turn pageShift (meets output) (entryAt entries group) i s.pass := by
  have hput := s.put_pass output
  have hon := s.goesOn_iff entries group i
  rw [directoryTurn, RunLength.turn]
  by_cases h : s.start.GoesOn (entries i &&& 0xFFFFF000#32) (entries i &&& group)
  · rw [if_pos h, if_pos (hon.mp h)]
    rfl
  · rw [if_neg h, if_neg (mt hon.mpr h), ← hput]
    rfl

/-- The rows of a loop over the first `n` entries. -/
theorem directoryTurn_encode (n : Nat) :
    let s := CFor.iter (directoryTurn entries group output) 0 n (directoryStart entries group)
    (s.put s.start.flags output).map PageRow.run
      = RunLength.encode pageShift (meets output) (entryAt entries group) n := by
  intro s
  rw [Printing.put_pass, RunLength.encode]
  exact congrArg _ (CFor.iter_map Printing.pass (directoryTurn_pass entries group output) n 0 _)

variable {entries group output}

/-- What is decoded from the runs is decoded from the rows. -/
theorem decoded_of_runs {n : Nat} {rows : List PageRow}
    (h : rows.map PageRow.run
      = RunLength.encode pageShift (meets output) (entryAt entries group) n) :
    Decoded entries group output n rows := by
  have hcells : (rows.map PageRow.run).flatMap (RunLength.Run.cells pageShift)
      = RunLength.kept (meets output) (entryAt entries group) n := by
    rw [h]
    exact RunLength.encode_cells pageShift_zero (meets_pageShift output) n
  have hruns : ∀ (j : Nat) (r : PageRow), rows[j]? = some r →
      (rows.map PageRow.run)[j]? = some r.run := by
    intro j r hj
    rw [List.getElem?_map, hj, Option.map_some]
  constructor
  · have hkept : RunLength.kept (meets output) (entryAt entries group) n
        = shownEntries entries group output n := List.filter_map
    rw [← hkept, ← hcells, List.flatMap_map]
    rfl
  · intro i
    have hiff := RunLength.covers_iff (i := i) hcells
    simp only [List.mem_map, exists_exists_and_eq_and] at hiff
    exact hiff.trans (and_congr_right' decide_eq_true_iff)
  · intro i j k r q hj hk hr hq
    have hnodup : (((rows.map PageRow.run).flatMap (RunLength.Run.cells pageShift)).map
        Prod.fst).Nodup := by
      rw [hcells]
      exact RunLength.nodup_kept
    exact RunLength.covers_unique hnodup (hruns j r hj) (hruns k q hk) hr hq
  · intro r hr i hi
    exact Prod.mk_inj.mp (RunLength.covers_value hcells (List.mem_map_of_mem hr) hi)

theorem directoryRows_decoded (pd : Nat → U32) (group output : U32) :
    Decoded pd group output 1024 (directoryRows pd group output) :=
  decoded_of_runs (directoryTurn_encode pd group output 1024)

end Encoding

/-! ## The page tables, and their addresses -/

section Addresses

variable (pt : Nat → U32) (group output : U32)

/-- Without the addresses. -/
def Printing.erase (s : Printing TableRow) : Printing PageRow :=
  ⟨s.rows.map TableRow.toPageRow, s.start.toPageRow⟩

theorem Printing.put_erase (s : Printing TableRow) (flags : U32) :
    (s.put flags output).map TableRow.toPageRow = s.erase.put flags output := by
  rw [Printing.put, Printing.put]
  split
  · exact List.map_append
  · rfl

theorem tablesTurn_erase (i : Nat) (s : Printing TableRow) :
    (tablesTurn pt group output i s).erase = directoryTurn pt group output i s.erase := by
  have hput := s.put_erase output s.start.flags
  rw [tablesTurn, directoryTurn]
  by_cases h : s.start.GoesOn (pt i &&& 0xFFFFF000#32) (pt i &&& group)
  · have herased : s.erase.start.GoesOn (pt i &&& 0xFFFFF000#32) (pt i &&& group) := h
    rw [if_pos h, if_pos herased]
    rfl
  · have herased : ¬ s.erase.start.GoesOn (pt i &&& 0xFFFFF000#32) (pt i &&& group) := h
    rw [if_neg h, if_neg herased]
    exact congrArg (fun rows => Printing.mk rows _) hput

/-- The rows of a loop over the first `n` entries. -/
theorem tablesTurn_erase_rows (n : Nat) :
    let s := CFor.iter (tablesTurn pt group output) 0 n (tablesStart pt group)
    let t := CFor.iter (directoryTurn pt group output) 0 n (directoryStart pt group)
    (s.put s.start.flags output).map TableRow.toPageRow = t.put t.start.flags output := by
  intro s t
  have herase : s.erase = t := CFor.iter_map Printing.erase (tablesTurn_erase pt group output) n 0 _
  rw [Printing.put_erase, ← herase]
  rfl

theorem tableRows_decoded :
    Decoded pt group output (1024 * 1024)
      ((tableRows pt group output).map TableRow.toPageRow) := by
  apply decoded_of_runs
  rw [tableRows, tablesTurn_erase_rows, directoryTurn_encode]

/-- The rows before the entry `i`, and the one that is being counted. -/
structure Addressed (i : Nat) (s : Printing TableRow) : Prop where
  rows : ∀ r ∈ s.rows, r.virt.toNat = r.index * 4096
  start : s.start.virt.toNat = s.start.index * 4096
  next : s.start.index + s.start.count = i

theorem Addressed.put {i : Nat} {s : Printing TableRow} (h : Addressed i s) (flags : U32) :
    ∀ r ∈ s.put flags output, r.virt.toNat = r.index * 4096 := by
  intro r hr
  rw [Printing.put] at hr
  split at hr
  · rcases List.mem_append.mp hr with hr | hr
    · exact h.rows r hr
    · rw [List.mem_singleton.mp hr]
      exact h.start
  · exact h.rows r hr

theorem Addressed.turn {i : Nat} {s : Printing TableRow} (h : Addressed i s)
    (hi : i < 1024 * 1024) : Addressed (i + 1) (tablesTurn pt group output i s) := by
  have hstart := h.start
  have hnext := h.next
  rw [tablesTurn]
  split
  · exact ⟨h.rows, h.start, (Nat.add_assoc _ _ _).symm.trans (congrArg (· + 1) h.next)⟩
  · refine ⟨h.put output _, ?_, rfl⟩
    show (s.start.virt + BitVec.ofNat 32 s.start.count * pageSize).toNat = i * 4096
    have hsize : pageSize.toNat = 4096 := rfl
    rw [BitVec.toNat_add, BitVec.toNat_mul, BitVec.toNat_ofNat, hsize, hstart]
    omega

theorem addressed {n : Nat} (hn : n ≤ 1024 * 1024) :
    Addressed n (CFor.iter (tablesTurn pt group output) 0 n (tablesStart pt group)) := by
  have h0 : Addressed 0 (tablesStart pt group) :=
    ⟨fun r hr => (List.not_mem_nil hr).elim, (Nat.zero_mul _).symm, rfl⟩
  have hrun := CFor.iter_inv (n := n) Addressed h0
    fun i s _ hi hs => hs.turn pt group output (by omega)
  rwa [Nat.zero_add] at hrun

theorem tableRows_virt : ∀ r ∈ tableRows pt group output, r.virt.toNat = r.index * 4096 := by
  intro r hr
  rw [tableRows] at hr
  exact (addressed pt group output (Nat.le_refl _)).put output _ r hr

end Addresses

/-! ## Reading what is printed -/

section Reading

/-- The entries that `print_paging` asks for. -/
def presentEntries (entries : Nat → U32) (n : Nat) : List (Nat × U32 × U32) :=
  shownEntries entries (pteP ||| pteRw ||| pteUs) pteP n

/-- The first three columns of the access; the others stay empty. -/
def readAccess : List Kprint → U32
  | p :: rw :: us :: _ =>
      (if p.fmt = " P " then pteP else 0) ||| (if rw.fmt = "RW " then pteRw else 0)
        ||| (if us.fmt = "U  " then pteUs else 0)
  | _ => 0

/-- A row, from its calls of `kprint`. -/
def readRow : List Kprint → PageRow
  | ⟨_, [index, frame, count]⟩ :: access => ⟨index.toNat, frame, readAccess access, count.toNat⟩
  | ⟨_, [index, _, frame, count]⟩ :: access => ⟨index.toNat, frame, readAccess access, count.toNat⟩
  | _ => ⟨0, 0, 0, 0⟩

/-- A flag that is set is all that the mask leaves. -/
theorem flag_eq_and (flags : U32) {pte : U32} {k : Nat} (hpte : pte = BitVec.twoPow 32 k) :
    (if flags &&& pte ≠ 0 then pte else 0) = flags &&& pte := by
  subst hpte
  rw [BitVec.and_twoPow]
  cases flags.getLsbD k with
  | false => exact if_neg (not_not_intro rfl)
  | true => exact ite_eq_left_iff.mpr fun h => (not_not.mp h).symm

theorem readAccess_prints {flags : U32} (h : flags &&& (pteP ||| pteRw ||| pteUs) = flags) :
    readAccess (accessPrints flags) = flags := by
  have hp := flag_eq_and flags (show pteP = BitVec.twoPow 32 0 by decide)
  have hrw := flag_eq_and flags (show pteRw = BitVec.twoPow 32 1 by decide)
  have hus := flag_eq_and flags (show pteUs = BitVec.twoPow 32 2 by decide)
  have hchoose : ∀ {yes no : String} (c : Prop) [Decidable c] (pte : U32), no ≠ yes →
      (if (if c then yes else no) = yes then pte else 0) = if c then pte else 0 := by
    intro yes no c _ pte hne
    by_cases hc : c
    · simp only [if_pos hc, if_true]
    · simp only [if_neg hc, if_neg hne]
  simp only [readAccess, accessPrints]
  rw [hchoose _ pteP (by decide), hchoose _ pteRw (by decide), hchoose _ pteUs (by decide), hp, hrw,
    hus, ← BitVec.and_or_distrib_left, ← BitVec.and_or_distrib_left, h]

/-- What `readRow` needs of a row. -/
structure PageRow.Legible (group : U32) (n : Nat) (r : PageRow) : Prop where
  stop : r.index + r.count ≤ n
  flags : r.flags &&& group = r.flags

theorem PageRow.Legible.toNat {group : U32} {n : Nat} {r : PageRow} (h : r.Legible group n)
    (hn : n < 2 ^ 32) :
    (BitVec.ofNat 32 r.index).toNat = r.index ∧ (BitVec.ofNat 32 r.count).toNat = r.count := by
  have := h.stop
  rw [BitVec.toNat_ofNat, BitVec.toNat_ofNat]
  omega

theorem readRow_page {n : Nat} (hn : n < 2 ^ 32) {r : PageRow}
    (h : r.Legible (pteP ||| pteRw ||| pteUs) n) : readRow r.prints = r := by
  obtain ⟨hindex, hcount⟩ := h.toNat hn
  simp only [PageRow.prints, readRow, readAccess_prints h.flags, hindex, hcount]

theorem readRow_table {n : Nat} (hn : n < 2 ^ 32) {r : TableRow}
    (h : r.toPageRow.Legible (pteP ||| pteRw ||| pteUs) n) : readRow r.prints = r.toPageRow := by
  obtain ⟨hindex, hcount⟩ := h.toNat hn
  simp only [TableRow.prints, readRow, readAccess_prints h.flags, hindex, hcount]

/-- The rows before the entry `i`, and the one that is being counted. -/
structure Legibles (group : U32) (i : Nat) (s : Printing PageRow) : Prop where
  rows : ∀ r ∈ s.rows, r.Legible group i
  start : s.start.index + s.start.count = i
  flags : s.start.flags &&& group = s.start.flags

theorem Legibles.put {group output : U32} {i : Nat} {s : Printing PageRow} (h : Legibles group i s)
    (flags : U32) : ∀ r ∈ s.put flags output, r.Legible group i := by
  intro r hr
  rw [Printing.put] at hr
  split at hr
  · rcases List.mem_append.mp hr with hr | hr
    · exact h.rows r hr
    · rw [List.mem_singleton.mp hr]
      exact ⟨Nat.le_of_eq h.start, h.flags⟩
  · exact h.rows r hr

theorem Legibles.turn {entries : Nat → U32} {group output : U32} {i : Nat} {s : Printing PageRow}
    (h : Legibles group i s) : Legibles group (i + 1) (directoryTurn entries group output i s) := by
  have hlater : ∀ {r : PageRow}, r.Legible group i → r.Legible group (i + 1) :=
    fun hr => ⟨Nat.le_succ_of_le hr.stop, hr.flags⟩
  rw [directoryTurn]
  split
  · exact ⟨fun r hr => hlater (h.rows r hr), congrArg (· + 1) h.start, h.flags⟩
  · refine ⟨fun r hr => hlater (h.put _ r hr), rfl, ?_⟩
    rw [BitVec.and_assoc, BitVec.and_self]

theorem legible_rows (entries : Nat → U32) (group output : U32) (n : Nat) :
    let s := CFor.iter (directoryTurn entries group output) 0 n (directoryStart entries group)
    ∀ r ∈ s.put s.start.flags output, r.Legible group n := by
  intro s
  have h0 : Legibles group 0 (directoryStart entries group) := by
    refine ⟨fun r hr => (List.not_mem_nil hr).elim, rfl, ?_⟩
    show entries 0 &&& group &&& group = entries 0 &&& group
    rw [BitVec.and_assoc, BitVec.and_self]
  have hrun : Legibles group (0 + n) s := CFor.iter_inv (Legibles group) h0 fun i t _ _ ht => ht.turn
  rw [Nat.zero_add] at hrun
  exact hrun.put _

/-- Texts of one length that do not begin as the end does are told apart from it. -/
theorem flatMap_stop_inj {α β : Type} {f : α → List β} {stop : β} {n : Nat}
    (hlen : ∀ a, (f a).length = n) (hfirst : ∀ a, ∃ b rest, f a = b :: rest ∧ b ≠ stop)
    {r t : List β} {xs ys : List α}
    (h : xs.flatMap f ++ stop :: r = ys.flatMap f ++ stop :: t) : xs.map f = ys.map f ∧ r = t := by
  induction xs generalizing ys with
  | nil =>
    cases ys with
    | nil => exact ⟨rfl, (List.cons.inj h).2⟩
    | cons y ys =>
      obtain ⟨b, rest, hy, hne⟩ := hfirst y
      rw [List.flatMap_cons, hy] at h
      exact absurd (List.cons.inj h).1.symm hne
  | cons x xs ih =>
    cases ys with
    | nil =>
      obtain ⟨b, rest, hx, hne⟩ := hfirst x
      rw [List.flatMap_cons, hx] at h
      exact absurd (List.cons.inj h).1 hne
    | cons y ys =>
      rw [List.flatMap_cons, List.flatMap_cons, List.append_assoc, List.append_assoc] at h
      obtain ⟨hxy, hrest⟩ := List.append_inj h ((hlen x).trans (hlen y).symm)
      obtain ⟨hmap, hend⟩ := ih hrest
      exact ⟨by rw [List.map_cons, List.map_cons, hxy, hmap], hend⟩

theorem directoryRows_read (pd : Nat → U32) :
    ((directoryRows pd (pteP ||| pteRw ||| pteUs) pteP).map PageRow.prints).map readRow
      = directoryRows pd (pteP ||| pteRw ||| pteUs) pteP := by
  have hread : ∀ r ∈ directoryRows pd (pteP ||| pteRw ||| pteUs) pteP, readRow r.prints = r :=
    fun r hr => readRow_page (n := 1024) (by decide) (legible_rows pd _ pteP 1024 r hr)
  rw [List.map_map]
  exact (List.map_congr_left hread).trans (List.map_id _)

theorem tableRows_read (pt : Nat → U32) :
    ((tableRows pt (pteP ||| pteRw ||| pteUs) pteP).map TableRow.prints).map readRow
      = (tableRows pt (pteP ||| pteRw ||| pteUs) pteP).map TableRow.toPageRow := by
  rw [List.map_map]
  refine List.map_congr_left fun r hr => readRow_table (n := 1024 * 1024) (by decide) ?_
  have hrows := tablesTurn_erase_rows pt (pteP ||| pteRw ||| pteUs) pteP (1024 * 1024)
  refine legible_rows pt _ pteP (1024 * 1024) _ ?_
  rw [← hrows]
  exact List.mem_map_of_mem hr

theorem PageRow.prints_first (r : PageRow) :
    ∃ b rest, r.prints = b :: rest ∧ b ≠ ⟨"\n", []⟩ :=
  ⟨_, _, rfl, by simp⟩

theorem TableRow.prints_first (r : TableRow) :
    ∃ b rest, r.prints = b :: rest ∧ b ≠ ⟨"\n", []⟩ :=
  ⟨_, _, rfl, by simp⟩

/-- Rows that are decoded tell the entries. -/
theorem Decoded.tells {entries entries' : Nat → U32} {n : Nat} {rows rows' : List PageRow}
    (h : Decoded entries (pteP ||| pteRw ||| pteUs) pteP n rows)
    (h' : Decoded entries' (pteP ||| pteRw ||| pteUs) pteP n rows') (hrows : rows = rows') :
    presentEntries entries n = presentEntries entries' n := by
  rw [presentEntries, presentEntries, ← h.cells, ← h'.cells, hrows]

/-- The rows of both listings, from one behind the other. -/
theorem listings_inj {a b : Kprint} {rows rows' : List PageRow} {tables tables' : List TableRow}
    (h : a :: rows.flatMap PageRow.prints ++ [⟨"\n", []⟩]
        ++ (b :: tables.flatMap TableRow.prints ++ [⟨"\n", []⟩])
      = a :: rows'.flatMap PageRow.prints ++ [⟨"\n", []⟩]
        ++ (b :: tables'.flatMap TableRow.prints ++ [⟨"\n", []⟩])) :
    rows.map PageRow.prints = rows'.map PageRow.prints ∧
      tables.map TableRow.prints = tables'.map TableRow.prints := by
  simp only [List.cons_append, List.append_assoc, List.nil_append] at h
  obtain ⟨hpd, hrest⟩ := flatMap_stop_inj (f := PageRow.prints) (n := 7) (fun _ => rfl)
    PageRow.prints_first (List.cons.inj h).2
  obtain ⟨hpt, _⟩ := flatMap_stop_inj (f := TableRow.prints) (n := 7) (fun _ => rfl)
    TableRow.prints_first (List.cons.inj hrest).2
  exact ⟨hpd, hpt⟩

/-- **`pagetables`** tells address spaces apart: with the same listing, the same entries of the
directory and of the tables are present, with the same frames and the same access. -/
theorem printPaging_tells {pd pd' pt pt' : Nat → U32}
    (h : printPaging pd pt = printPaging pd' pt') :
    presentEntries pd 1024 = presentEntries pd' 1024 ∧
      presentEntries pt (1024 * 1024) = presentEntries pt' (1024 * 1024) := by
  rw [printPaging, printPageDirectory, printPageTables, printPaging, printPageDirectory,
    printPageTables] at h
  obtain ⟨hpd, hpt⟩ := listings_inj h
  have hpd' := congrArg (List.map readRow) hpd
  have hpt' := congrArg (List.map readRow) hpt
  rw [directoryRows_read, directoryRows_read] at hpd'
  rw [tableRows_read, tableRows_read] at hpt'
  exact ⟨(directoryRows_decoded pd _ _).tells (directoryRows_decoded pd' _ _) hpd',
    (tableRows_decoded pt _ _).tells (tableRows_decoded pt' _ _) hpt'⟩

end Reading

/-- **The rows are decoded** to the entries whose masked flags meet the output mask: each of them
is in one row, with its frame and its flags, and no other entry is in a row.  The address of a row
of the page tables is that of its first page. -/
theorem print_paging_decoded (pt pd : Nat → U32) (group output : U32) :
    Decoded pt group output (1024 * 1024) ((tableRows pt group output).map TableRow.toPageRow) ∧
      (∀ r ∈ tableRows pt group output, r.virt.toNat = r.index * 4096) ∧
      Decoded pd group output 1024 (directoryRows pd group output) :=
  ⟨tableRows_decoded pt group output, tableRows_virt pt group output,
    directoryRows_decoded pd group output⟩

end Tomk
