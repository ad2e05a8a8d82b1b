/-
# `procls`, `prockill` and `procfork`

The three commands go through the active list: the first prints a row for each
process, the others look for an id that they read with `strtoul`, radix 0.

The column of the ids is printed with `%03u`, and to `strtoul` a number that begins
with a 0 is octal.  A process is found by its id as `procls` shows it if and only
if that is below 8, or has three digits of its own; in between another process
may be found, and unloaded (`prockill_listed_iff`).  Without the zeros every
process is found.  Both need that no two active processes have the same id.
-/
import Tomk.Sched.Pids
import Tomk.Mm.KheapRegions
import Tomk.Libc.NumberLayout
import Tomk.Libc.StrtoFour
import Tomk.Shell.PrintPaging

namespace Tomk

open DList Function Runs

/-! ## The source -/

/-- `for (proc = head; proc != NULL; proc = proc->next)`, with the test for the id. -/
def findProc (s : Sched) (id : U32) : Option (Option U32) :=
  search (fun p => (s.procs p).next) 0
    (fun p => some (if (s.procs p).id = id then some p else none)) listFuel s.active.head

/-- What a command returns and prints. -/
structure Command where
  ret : U32
  sched : Sched
  prints : List Kprint

def kshellCommandProcList (s : Sched) : Option Command :=
  (nodes (fun p => (s.procs p).next) 0 listFuel s.active.head).map fun procs =>
    ⟨0, s, ⟨"\n| pid | path                 |\n| --- | -------------------- |\n", []⟩ ::
      procs.map fun p => ⟨"| %03u | %-20s |\n", [(s.procs p).id, (s.procs p).path]⟩⟩

def kshellCommandProcKill (s : Sched) (userparam : List U8) : Option Command :=
  let id := (strtoul (some userparam) 0).1
  (findProc s id).map fun found =>
    match found with
    | some proc => ⟨0, schedulerUnloadProcess s proc, [⟨"Killing process: pid=%u\n", [id]⟩]⟩
    | none => ⟨1, s, [⟨"Process not found: pid=%u\n", [id]⟩]⟩

/-- `new` is what `kmalloc` returns for the new process. -/
def kshellCommandProcFork (s : Sched) (userparam : List U8) (new : U32) : Option Command :=
  let id := (strtoul (some userparam) 0).1
  (findProc s id).map fun found =>
    match found with
    | some proc =>
        ⟨0, schedulerLoadKprocess s new (s.procs proc).path (s.procs proc).context.eip, []⟩
    | none => ⟨1, s, []⟩

/-! ## Going through the list -/

variable {s : Sched} {p q : U32} {xs ys : List U32}

/-- The loop finds the first process with the id. -/
theorem findProc_eq (hl : s.Lists xs ys) (id : U32) :
    findProc s id = some (xs.find? fun p => (s.procs p).id = id) := by
  have hguard : (fun p => if (s.procs p).id = id then some p else none)
      = Option.guard fun p => decide ((s.procs p).id = id) := by
    funext p
    simp [Option.guard]
  have hfind : findProc s id
      = some (xs.findSome? fun p => if (s.procs p).id = id then some p else none) :=
    search_follows (ring_length hl.active) (List.nodup_cons.mp hl.active.nodup).1 hl.active.next
      (fun p hp => links_next s .active (hl.active.ne hp)) fun _ _ => rfl
  rw [hfind, hguard, List.findSome?_guard]

/-- With ids that are all different, it finds a process by its id. -/
theorem findProc_iff (hl : s.Lists xs ys) (ho : PidOrder s xs) (hp : p ∈ xs) (id : U32) :
    findProc s id = some (some p) ↔ (s.procs p).id = id := by
  rw [findProc_eq hl, Option.some_inj]
  constructor
  · intro h
    have hid := List.find?_some h
    exact of_decide_eq_true hid
  · rintro rfl
    cases hfind : xs.find? fun q => (s.procs q).id = (s.procs p).id with
    | none =>
        have hno := List.find?_eq_none.mp hfind p hp
        exact absurd (decide_eq_true rfl) hno
    | some q =>
        have hid := List.find?_some hfind
        exact congrArg some (ho.inj (List.mem_of_find?_eq_some hfind) hp
          (congrArg BitVec.toNat (of_decide_eq_true hid)))

/-- `procls` prints a row for each active process. -/
theorem procList_eq (hl : s.Lists xs ys) : kshellCommandProcList s = some ⟨0, s,
    ⟨"\n| pid | path                 |\n| --- | -------------------- |\n", []⟩ ::
      xs.map fun p => ⟨"| %03u | %-20s |\n", [(s.procs p).id, (s.procs p).path]⟩⟩ := by
  have hnodes : nodes (fun p => (s.procs p).next) 0 listFuel s.active.head = some xs :=
    nodes_follows (ring_length hl.active) (List.nodup_cons.mp hl.active.nodup).1 hl.active.next
      fun p hp => links_next s .active (hl.active.ne hp)
  rw [kshellCommandProcList, hnodes]
  rfl

/-! ## Ids as texts -/

/-- What `%03u` makes of an id. -/
def pidColumn (id : U32) : List U8 := numberText (id.setWidth 64) false 10 false 3 (-1) (ch '0') false

/-- And `%u`. -/
def pidPlain (id : U32) : List U8 := numberText (id.setWidth 64) false 10 false 0 (-1) (ch ' ') false

theorem formatTextFrom_lit {c : U8} (h : c ≠ ch '%') (n : Nat) (fmt : List U8) (args : List Arg) :
    formatTextFrom (n + 1) (c :: fmt) args = (formatTextFrom n fmt args).map (c :: ·) := by
  rw [formatTextFrom, if_pos h]

theorem formatTextFrom_conv {c : U8} {fmt rest t : List U8} {args args' : List Arg} {conv : Conv}
    (hparse : parseConv fmt = (conv, c :: rest)) (ht : convertText conv c args = some (t, args'))
    (n : Nat) :
    formatTextFrom (n + 1) (ch '%' :: fmt) args = (formatTextFrom n rest args').map (t ++ ·) := by
  rw [formatTextFrom, if_neg (not_not_intro rfl), hparse]
  show (convertText conv c args).bind _ = _
  rw [ht]
  show (formatTextFrom n rest args').bind (fun ts => some (t ++ ts)) = _
  exact Option.map_eq_bind.symm

/-- The row of `procls` has the column. -/
theorem row_text (id : U32) (path : Option (List U8)) :
    formatText (chars "| %03u | %-20s |\n") [.word id, .str path]
      = some (chars "| " ++ (pidColumn id ++ (chars " | " ++ (stringText path 20 (-1) true
        ++ chars " |\n")))) := by
  have hid : convertText ⟨false, ch '0', 3, -1, false⟩ (ch 'u') [.word id, .str path]
      = some (pidColumn id, [.str path]) := rfl
  have hpath : convertText ⟨true, ch ' ', 20, -1, false⟩ (ch 's') [.str path]
      = some (stringText path 20 (-1) true, []) := rfl
  have hcolumn : parseConv (chars "03u | %-20s |\n")
      = (⟨false, ch '0', 3, -1, false⟩, ch 'u' :: chars " | %-20s |\n") := rfl
  have hname : parseConv (chars "-20s |\n")
      = (⟨true, ch ' ', 20, -1, false⟩, ch 's' :: chars " |\n") := rfl
  have hrow : chars "| %03u | %-20s |\n" = ch '|' :: ch ' ' :: ch '%' :: chars "03u | %-20s |\n" := rfl
  have hrest : chars " | %-20s |\n" = ch ' ' :: ch '|' :: ch ' ' :: ch '%' :: chars "-20s |\n" := rfl
  have hend : formatTextFrom 10 (chars " |\n") [] = some (chars " |\n") := by decide +kernel
  rw [formatText, show (chars "| %03u | %-20s |\n").length = 17 from rfl, hrow,
    formatTextFrom_lit (by decide), formatTextFrom_lit (by decide),
    formatTextFrom_conv hcolumn hid, hrest,
    formatTextFrom_lit (by decide), formatTextFrom_lit (by decide), formatTextFrom_lit (by decide),
    formatTextFrom_conv hname hpath, hend]
  have hbar : chars "| " = [ch '|', ch ' '] := rfl
  have hmiddle : chars " | " = [ch ' ', ch '|', ch ' '] := rfl
  simp only [Option.map_some, hbar, hmiddle, List.cons_append, List.nil_append]

/-- The number of digits of an id. -/
def pidDigits (id : U32) : Nat := (printedDigits 10 (id.setWidth 64)).length

theorem digitText_pid (id : U32) : digitText 10 false (id.setWidth 64) none
    = (digitChars hexDigitsU (printedDigits 10 (id.setWidth 64))).reverse :=
  if_neg fun h => nomatch h.2

/-- The column is filled with zeros. -/
theorem pidColumn_eq (id : U32) :
    pidColumn id = zerosDigitsText 10 false (3 - pidDigits id) (id.setWidth 64) := by
  have hlen : (digitChars hexDigitsU (printedDigits 10 (id.setWidth 64))).reverse.length = pidDigits id := by
    rw [List.length_reverse, digitChars, List.length_map, pidDigits]
  have hlayout := numberText_layout (id.setWidth 64) false false (show 10 ∈ printBases by decide)
    (show (3 : U32).toNat < 2 ^ 31 by decide) (-1) (ch '0') false
  have hspaces : 3 - (3 - pidDigits id + pidDigits id) = 0 := by omega
  rw [show givenPrecision (-1) = none from rfl,
    show magnitude false (id.setWidth 64) = id.setWidth 64 from rfl,
    show signText false (id.setWidth 64) = [] from rfl, digitText_pid] at hlayout
  refine hlayout.trans ?_
  simp only [numberLayout, zeroCount, List.nil_append, List.length_append, List.length_replicate, hlen,
    List.length_nil, Nat.zero_add, decide_true, if_true, Bool.false_eq_true, if_false,
    show (3 : U32).toNat = 3 from rfl, hspaces, List.replicate_zero]
  exact (zerosDigitsText_eq 10 false _ _).symm

theorem pidPlain_eq (id : U32) : pidPlain id = zerosDigitsText 10 false 0 (id.setWidth 64) := by
  have hlayout := numberText_layout (id.setWidth 64) false false (show 10 ∈ printBases by decide)
    (show (0 : U32).toNat < 2 ^ 31 by decide) (-1) (ch ' ') false
  rw [show givenPrecision (-1) = none from rfl,
    show magnitude false (id.setWidth 64) = id.setWidth 64 from rfl,
    show signText false (id.setWidth 64) = [] from rfl, digitText_pid] at hlayout
  refine hlayout.trans ?_
  rw [zerosDigitsText_eq]
  simp [numberLayout, zeroCount, show ch ' ' ≠ ch '0' by decide]

/-! ## Ids as they are read -/

/-- A text that does not begin with a 0 is read in base 10. -/
theorem strtoul_decimal {c : U8} {t : List U8} (hc : c ≠ ch '0') :
    strtoul (some (c :: t)) 0 = strtoul (some (c :: t)) 10 := by
  have hradix : strtoRadix 0 (c :: t) = strtoRadix 10 (c :: t) := by
    unfold strtoRadix
    rw [if_neg (not_not_intro rfl), if_pos (by decide)]
    exact if_neg hc
  show strtoDigits32 (c :: t) 0 false (c :: t) = strtoDigits32 (c :: t) 10 false (c :: t)
  rw [strtoDigits32, strtoDigits32, hradix]

theorem strtoul_pid (zeros : Nat) (id : U32) :
    (strtoul (some (zerosDigitsText 10 false zeros (id.setWidth 64))) 10).1 = id := by
  have htext := strtoull_text (show 10 ∈ printBases by decide) false zeros (id.setWidth 64)
  rw [show BitVec.ofNat 32 10 = 10 from rfl] at htext
  rw [strtoul_eq, htext]
  show (id.setWidth 64).setWidth 32 = id
  rw [BitVec.setWidth_setWidth_of_le _ (show 32 ≤ 64 by decide), BitVec.setWidth_eq]

/-- The first digit of a number is not a 0. -/
theorem zerosDigitsText_first {number : U64} (h0 : number ≠ 0) :
    ∃ c t, zerosDigitsText 10 false 0 number = c :: t ∧ c ≠ ch '0' := by
  have hne : Nat.digits 10 number.toNat ≠ [] :=
    Nat.digits_ne_nil_iff_ne_zero.mpr fun h => h0 (BitVec.eq_of_toNat_eq h)
  have hdigits : printedDigits 10 number = Nat.digits 10 number.toNat := if_neg h0
  have hlast := Nat.getLast_digit_ne_zero 10 (Nat.digits_ne_nil_iff_ne_zero.mp hne)
  have hlt : (Nat.digits 10 number.toNat).getLast hne < 10 :=
    Nat.digits_lt_base (by decide) (List.getLast_mem hne)
  have hchar : ∀ d < 10, d ≠ 0 → hexDigitsU.getD d 0 ≠ ch '0' := by decide
  obtain ⟨ds, d, hds⟩ : ∃ ds d, Nat.digits 10 number.toNat = ds ++ [d] :=
    ⟨_, _, (List.dropLast_append_getLast hne).symm⟩
  have hd : (Nat.digits 10 number.toNat).getLast hne = d := by simp [hds]
  rw [hd] at hlast hlt
  refine ⟨hexDigitsU.getD d 0, digitChars hexDigitsU ds.reverse, ?_, hchar d hlt hlast⟩
  rw [zerosDigitsText, zerosDigits, hdigits, hds, List.replicate_zero, List.nil_append,
    List.reverse_append]
  rfl

/-- **Without zeros** every id is read as it is. -/
theorem strtoul_pidPlain (id : U32) : (strtoul (some (pidPlain id)) 0).1 = id := by
  rw [pidPlain_eq]
  by_cases h0 : id = 0
  · subst h0
    decide +kernel
  · have hne : id.setWidth 64 ≠ 0 := fun h => h0 (by
      have hback := congrArg (BitVec.setWidth 32) h
      rwa [BitVec.setWidth_setWidth_of_le _ (show 32 ≤ 64 by decide), BitVec.setWidth_eq] at hback)
    have hread := strtoul_pid 0 id
    obtain ⟨c, t, htext, hc⟩ := zerosDigitsText_first hne
    rw [htext] at hread ⊢
    rw [strtoul_decimal hc, hread]

/-- Ids of at most two digits: with a 0 before them, they are octal. -/
theorem strtoul_pidColumn_small :
    ∀ n < 100, (strtoul (some (pidColumn (BitVec.ofNat 32 n))) 0).1 = BitVec.ofNat 32 n ↔ n < 8 := by
  simp only [pidColumn_eq]
  decide +kernel

/-- **The column** is read as the id if no 0 is put before it, or if it has one digit
that octal numbers have as well. -/
theorem strtoul_pidColumn_iff (id : U32) :
    (strtoul (some (pidColumn id)) 0).1 = id ↔ id.toNat < 8 ∨ 100 ≤ id.toNat := by
  by_cases hsmall : id.toNat < 100
  · have h := strtoul_pidColumn_small id.toNat hsmall
    rw [BitVec.ofNat_toNat, BitVec.setWidth_eq] at h
    rw [h]
    omega
  · have hdigits : 3 ≤ pidDigits id := by
      have h64 : (id.setWidth 64).toNat = id.toNat := by
        rw [BitVec.toNat_setWidth]
        exact Nat.mod_eq_of_lt (Nat.lt_of_lt_of_le id.isLt (by decide))
      have hne : id.setWidth 64 ≠ 0 := fun h => by
        rw [h] at h64
        exact hsmall (by rw [← h64]; decide)
      rw [pidDigits, printedDigits, if_neg hne, h64]
      by_contra hlt
      have hle : (Nat.digits 10 id.toNat).length ≤ 2 := by omega
      rw [Nat.digits_length_le_iff (by decide)] at hle
      exact hsmall hle
    have hplain : pidColumn id = pidPlain id := by
      rw [pidColumn_eq, pidPlain_eq, Nat.sub_eq_zero_of_le hdigits]
    rw [hplain, strtoul_pidPlain]
    exact iff_of_true rfl (Or.inr (Nat.not_lt.mp hsmall))

/-! ## The commands -/

variable {y : Symbols} {t : SchedState}

/-- **`prockill` and `procls`.**  In every state that the scheduler reaches, `procls`
prints a row for each active process, with its id in three places.  Typed with no
zeros before it, an id makes `prockill` unload that process; typed as it is in
the row, if and only if it is below 8 or above 99. -/
theorem prockill_listed_iff (h : Reach (SchedStart y) (Guarded PidCond (SchedStep y)) t) :
    ∃ xs ys, t.Holds xs ys ∧
      (kshellCommandProcList t.sched).map (fun c => c.prints.tail)
        = some (xs.map fun p =>
          ⟨"| %03u | %-20s |\n", [(t.sched.procs p).id, (t.sched.procs p).path]⟩) ∧
      ∀ p ∈ xs,
        (∀ path, ∃ rest, formatText (chars "| %03u | %-20s |\n") [.word (t.sched.procs p).id, .str path]
          = some (chars "| " ++ (pidColumn (t.sched.procs p).id ++ rest))) ∧
        kshellCommandProcKill t.sched (pidPlain (t.sched.procs p).id)
          = some ⟨0, schedulerUnloadProcess t.sched p,
              [⟨"Killing process: pid=%u\n", [(t.sched.procs p).id]⟩]⟩ ∧
        (findProc t.sched (strtoul (some (pidColumn (t.sched.procs p).id)) 0).1 = some (some p) ↔
          (t.sched.procs p).id.toNat < 8 ∨ 100 ≤ (t.sched.procs p).id.toNat) := by
  obtain ⟨xs, ys, hs, ho⟩ := pids_of_reach h
  refine ⟨xs, ys, hs, ?_, fun p hp => ⟨fun path => ⟨_, row_text _ path⟩, ?_, ?_⟩⟩
  · rw [procList_eq hs.lists]
    rfl
  · have hfind := (findProc_iff hs.lists ho hp _).mpr rfl
    simp only [kshellCommandProcKill, strtoul_pidPlain, hfind, Option.map_some]
  · rw [findProc_iff hs.lists ho hp, eq_comm, strtoul_pidColumn_iff]

/-- After `scheduler_init`, with a fourth process. -/
theorem prockill_listed_four : ∃ xs ys, smallCreated.Holds xs ys ∧
    (kshellCommandProcList smallCreated.sched).map (fun c => c.prints.tail)
      = some (xs.map fun p => ⟨"| %03u | %-20s |\n",
          [(smallCreated.sched.procs p).id, (smallCreated.sched.procs p).path]⟩) ∧
    ∀ p ∈ xs,
      (∀ path, ∃ rest, formatText (chars "| %03u | %-20s |\n")
          [.word (smallCreated.sched.procs p).id, .str path]
        = some (chars "| " ++ (pidColumn (smallCreated.sched.procs p).id ++ rest))) ∧
      kshellCommandProcKill smallCreated.sched (pidPlain (smallCreated.sched.procs p).id)
        = some ⟨0, schedulerUnloadProcess smallCreated.sched p,
            [⟨"Killing process: pid=%u\n", [(smallCreated.sched.procs p).id]⟩]⟩ ∧
      (findProc smallCreated.sched (strtoul (some (pidColumn (smallCreated.sched.procs p).id)) 0).1
          = some (some p) ↔
        (smallCreated.sched.procs p).id.toNat < 8 ∨ 100 ≤ (smallCreated.sched.procs p).id.toNat) :=
  prockill_listed_iff (smallCreated_after smallLoaded_reach)

/-- What `procfork` makes of a process: a kernel process with a stack and a heap of its own, which
is to begin where the other one was stopped. -/
def Process.forked (x : Process) : Process :=
  { newProcess with
    entry := x.context.eip
    path := x.path
    flags := procFlagKernel ||| procFlagStack ||| procFlagHeap ||| procFlagCreate }

/-- **`procfork`** of the id of an active process registers a process behind the inactive ones.
The active list stays as it is; an id that no active process has changes nothing. -/
theorem procFork_loads (h : Reach (SchedStart y) (Guarded PidCond (SchedStep y)) t) {new : U32}
    (hne : new ≠ 0) (hnew : new ∉ t.live) :
    ∃ xs ys, t.Holds xs ys ∧
      (∀ p ∈ xs, ∃ s', kshellCommandProcFork t.sched (pidPlain (t.sched.procs p).id) new
          = some ⟨0, s', []⟩ ∧
        s'.Lists xs (ys ++ [new]) ∧ (s'.procs new).core = (t.sched.procs p).forked) ∧
      ∀ id, (∀ p ∈ xs, (t.sched.procs p).id ≠ id) →
        kshellCommandProcFork t.sched (pidPlain id) new = some ⟨1, t.sched, []⟩ := by
  obtain ⟨xs, ys, hs, ho⟩ := pids_of_reach h
  have hx : new ∉ xs := fun hc => hnew ((hs.live new).mpr (Or.inl hc))
  have hy : new ∉ ys := fun hc => hnew ((hs.live new).mpr (Or.inr hc))
  refine ⟨xs, ys, hs, fun p hp => ?_, fun id hid => ?_⟩
  · have hfind := (findProc_iff hs.lists ho hp _).mpr rfl
    refine ⟨_, ?_, hs.lists.register hne hx hy _ _ _, procRegister_core hs.lists hne hx hy _ _ _⟩
    simp only [kshellCommandProcFork, strtoul_pidPlain, hfind, Option.map_some]
    rfl
  · have hno : (xs.find? fun p => (t.sched.procs p).id = id) = none :=
      List.find?_eq_none.mpr fun p hp hc => hid p hp (of_decide_eq_true hc)
    simp only [kshellCommandProcFork, strtoul_pidPlain, findProc_eq hs.lists, hno, Option.map_some]

/-- The id 10 in its row, which is read as 8. -/
example : pidColumn 10 = chars "010" ∧ (strtoul (some (pidColumn 10)) 0).1 = 8 := by decide +kernel

end Tomk
