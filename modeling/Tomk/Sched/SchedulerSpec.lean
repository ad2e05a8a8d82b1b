/-
# What the list operations of the scheduler do

Each of the two lists is a ring through `NULL` (`Sched.links`), over the links
that both share.  `procman_append` and `procman_remove` write links of the list
they are called with and its ends, and nothing else of a process (`Touches`),
so that the other list stays as it is.

`procman_remove` is told which list the process is in.  It fixes the ends of
that list; for a process with two neighbours it writes no end, and takes the
process out of whatever list it is in (`procmanRemove_middle`).
-/
import Tomk.Sched.Scheduler

namespace Tomk

open DList Function

variable {s s' : Sched} {w w' : Which} {p q : U32} {xs ys pre post : List U32}

/-! ## The lists as rings -/

def Sched.links (s : Sched) (w : Which) : Links U32 where
  next p := if p = 0 then (s.man w).head else (s.procs p).next
  prev p := if p = 0 then (s.man w).tail else (s.procs p).prev

@[simp] theorem Sched.setProc_procs (s : Sched) (p q : U32) (x : Process) :
    (s.setProc p x).procs q = if q = p then x else s.procs q := update_apply _ _ _ _

@[simp] theorem Sched.setProc_man (s : Sched) (p : U32) (x : Process) (w : Which) :
    (s.setProc p x).man w = s.man w := by cases w <;> rfl

@[simp] theorem Sched.setMan_procs (s : Sched) (w : Which) (m : Procman) :
    (s.setMan w m).procs = s.procs := by cases w <;> rfl

@[simp] theorem Sched.setMan_man (s : Sched) (w w' : Which) (m : Procman) :
    (s.setMan w m).man w' = if w' = w then m else s.man w' := by cases w <;> cases w' <;> rfl

theorem setNext_links (s : Sched) (w : Which) (x v : U32) :
    (s.setNext w x v).links w = (s.links w).setNext x v := by
  refine Links.ext (funext fun y => ?_) (funext fun y => ?_)
  · simp only [Sched.setNext, Sched.links, Links.setNext, update_apply]
    by_cases hx : x = 0 <;> by_cases hy : y = 0 <;> by_cases hyx : y = x <;> simp_all
  · simp only [Sched.setNext, Sched.links, Links.setNext]
    by_cases hx : x = 0 <;> by_cases hy : y = 0 <;> by_cases hyx : y = x <;> simp_all

theorem setPrev_links (s : Sched) (w : Which) (x v : U32) :
    (s.setPrev w x v).links w = (s.links w).setPrev x v := by
  refine Links.ext (funext fun y => ?_) (funext fun y => ?_)
  · simp only [Sched.setPrev, Sched.links, Links.setPrev]
    by_cases hx : x = 0 <;> by_cases hy : y = 0 <;> by_cases hyx : y = x <;> simp_all
  · simp only [Sched.setPrev, Sched.links, Links.setPrev, update_apply]
    by_cases hx : x = 0 <;> by_cases hy : y = 0 <;> by_cases hyx : y = x <;> simp_all

/-- A field of a process, set without a test for `NULL`. -/
theorem setProc_next (s : Sched) (w : Which) (hp : p ≠ 0) (v : U32) :
    s.setProc p { s.procs p with next := v } = s.setNext w p v := (if_pos hp).symm

theorem setProc_prev (s : Sched) (w : Which) (hp : p ≠ 0) (v : U32) :
    s.setProc p { s.procs p with prev := v } = s.setPrev w p v := (if_pos hp).symm

theorem setMan_tail (s : Sched) (w : Which) (v : U32) :
    s.setMan w { s.man w with tail := v } = s.setPrev w 0 v := (if_neg (not_not.mpr rfl)).symm

theorem links_next (s : Sched) (w : Which) (hp : p ≠ 0) :
    (s.procs p).next = (s.links w).next p := (if_neg hp).symm

theorem links_prev (s : Sched) (w : Which) (hp : p ≠ 0) :
    (s.procs p).prev = (s.links w).prev p := (if_neg hp).symm

/-- The end of `procman_remove` is no part of the lists. -/
def unlinkProc (s : Sched) (w : Which) (p : U32) : Sched :=
  let s := s.setNext w (s.procs p).prev (s.procs p).next
  let s := s.setPrev w (s.procs p).next (s.procs p).prev
  let s := s.setProc p { s.procs p with next := 0 }
  s.setProc p { s.procs p with prev := 0 }

theorem procmanRemove_eq (s : Sched) (w : Which) (p : U32) :
    procmanRemove s w p =
      if ((unlinkProc s w p).man w).current = p then
        (unlinkProc s w p).setMan w { (unlinkProc s w p).man w with current := 0 }
      else unlinkProc s w p := rfl

/-- The writes, each to a link or to an end. -/
theorem unlinkProc_eq (hp : p ≠ 0) : unlinkProc s w p =
    (((s.setNext w (s.procs p).prev (s.procs p).next).setPrev w
      ((s.setNext w (s.procs p).prev (s.procs p).next).procs p).next
      ((s.setNext w (s.procs p).prev (s.procs p).next).procs p).prev).setNext w p 0).setPrev w p 0 := by
  simp only [unlinkProc]
  rw [setProc_next _ w hp, setProc_prev _ w hp]

theorem procmanAppend_eq (hp : p ≠ 0) : procmanAppend s w p =
    (((s.setNext w p 0).setPrev w p ((s.setNext w p 0).man w).tail).setNext w
      (((s.setNext w p 0).setPrev w p ((s.setNext w p 0).man w).tail).man w).tail p).setPrev w 0 p := by
  simp only [procmanAppend]
  rw [setMan_tail, setProc_next _ w hp, setProc_prev _ w hp]

theorem unlinkProc_links (hp : p ≠ 0) :
    (unlinkProc s w p).links w = (((s.links w).unlink p).setNext p 0).setPrev p 0 := by
  rw [unlinkProc_eq hp, setPrev_links, setNext_links, setPrev_links, setNext_links]
  simp only [links_next _ w hp, links_prev _ w hp, setNext_links]
  congr 2
  -- what is read after the first write is what was there
  simp only [Links.unlink, Links.setNext, Links.setPrev, update_apply]
  split
  · next hc => rw [← hc]
  · rfl

theorem procmanAppend_links (hp : p ≠ 0) (hlast : (s.links w).next ((s.links w).prev 0) = 0) :
    (procmanAppend s w p).links w = (s.links w).insertAfter ((s.links w).prev 0) p := by
  have htail : ∀ t : Sched, (t.man w).tail = (t.links w).prev 0 := fun _ => rfl
  rw [procmanAppend_eq hp, setPrev_links, setNext_links, setPrev_links, setNext_links]
  simp only [htail, setPrev_links, setNext_links]
  simp only [Links.insertAfter, Links.setNext, Links.setPrev, update_apply, hlast,
    if_neg hp.symm, if_true]

/-! ## What is written -/

/-- A process without its links. -/
def Process.core (x : Process) : Process := { x with next := 0, prev := 0 }

theorem Process.core_eq {x x' : Process} (h : x'.core = x.core) :
    x'.context = x.context ∧ x'.flags = x.flags ∧ x'.stack = x.stack := by
  have hcontext := congrArg Process.context h
  have hflags := congrArg Process.flags h
  have hstack := congrArg Process.stack h
  exact ⟨hcontext, hflags, hstack⟩

/-- Only the links of processes of `S` are written, and the ends of the list
`w`. -/
structure Touches (S : U32 → Prop) (w : Which) (s s' : Sched) : Prop where
  procs : ∀ q, ¬ S q → s'.procs q = s.procs q
  core : ∀ q, (s'.procs q).core = (s.procs q).core
  man : ∀ w', w' ≠ w → s'.man w' = s.man w'
  current : ∀ w', (s'.man w').current = (s.man w').current
  mem : s'.mem = s.mem

variable {S : U32 → Prop}

theorem Touches.trans {s'' : Sched} (t : Touches S w s s') (t' : Touches S w s' s'') :
    Touches S w s s'' where
  procs := fun q hq => (t'.procs q hq).trans (t.procs q hq)
  core := fun q => (t'.core q).trans (t.core q)
  man := fun w' hw => (t'.man w' hw).trans (t.man w' hw)
  current := fun w' => (t'.current w').trans (t.current w')
  mem := t'.mem.trans t.mem

/-- Setting the links of a process. -/
theorem touches_setProc {x : Process} (hp : S p) (hx : x.core = (s.procs p).core) :
    Touches S w s (s.setProc p x) where
  procs := fun q hq => by
    rw [Sched.setProc_procs, if_neg]
    rintro rfl
    exact hq hp
  core := fun q => by
    rw [Sched.setProc_procs]
    split
    · next hq => rw [hx, hq]
    · rfl
  man := fun w' _ => Sched.setProc_man s p x w'
  current := fun w' => by rw [Sched.setProc_man]
  mem := rfl

theorem touches_setMan {m : Procman} (hm : m.current = (s.man w).current) :
    Touches S w s (s.setMan w m) where
  procs := fun q _ => by rw [Sched.setMan_procs]
  core := fun q => by rw [Sched.setMan_procs]
  man := fun w' hw => by rw [Sched.setMan_man, if_neg hw]
  current := fun w' => by
    rw [Sched.setMan_man]
    split
    · next hw => rw [hm, hw]
    · rfl
  mem := by cases w <;> rfl

theorem touches_setNext (hp : p ≠ 0 → S p) (v : U32) : Touches S w s (s.setNext w p v) := by
  rw [Sched.setNext]
  split
  · next hne => exact touches_setProc (hp hne) rfl
  · exact touches_setMan rfl

theorem touches_setPrev (hp : p ≠ 0 → S p) (v : U32) : Touches S w s (s.setPrev w p v) := by
  rw [Sched.setPrev]
  split
  · next hne => exact touches_setProc (hp hne) rfl
  · exact touches_setMan rfl

/-- The other list is not touched. -/
theorem Touches.ring (t : Touches S w s s') (hw : w' ≠ w) (hr : Ring (s.links w') 0 ys)
    (hS : ∀ y ∈ ys, ¬ S y) : Ring (s'.links w') 0 ys := by
  refine hr.congr (fun x hx => ?_) fun x hx => ?_
  all_goals
    simp only [Sched.links, t.man w' hw]
    split
    · rfl
    · next hne => rw [t.procs x (hS x ((List.mem_cons.mp hx).resolve_left hne))]

/-- A list is what its ends and the links of its processes are. -/
theorem ring_congr (hr : Ring (s.links w) 0 xs) (hhead : (s'.man w).head = (s.man w).head)
    (htail : (s'.man w).tail = (s.man w).tail)
    (hnext : ∀ x ∈ xs, (s'.procs x).next = (s.procs x).next)
    (hprev : ∀ x ∈ xs, (s'.procs x).prev = (s.procs x).prev) : Ring (s'.links w) 0 xs := by
  refine hr.congr (fun x hx => ?_) fun x hx => ?_
  · simp only [Sched.links, hhead]
    split
    · rfl
    · next hne => exact hnext x ((List.mem_cons.mp hx).resolve_left hne)
  · simp only [Sched.links, htail]
    split
    · rfl
    · next hne => exact hprev x ((List.mem_cons.mp hx).resolve_left hne)

/-! ## Appending -/

theorem procmanAppend_touches (hp : p ≠ 0) (hr : Ring (s.links w) 0 xs) :
    Touches (fun q => q = p ∨ q ∈ xs) w s (procmanAppend s w p) := by
  have htail : (s.man w).tail ≠ 0 → (s.man w).tail = p ∨ (s.man w).tail ∈ xs := by
    intro hne
    have heq : (s.man w).tail = xs.getLastD 0 := hr.tail
    rw [heq] at hne ⊢
    rcases List.mem_cons.mp (List.getLastD_mem_cons (l := xs) (a := 0)) with h0 | hmem
    · exact absurd h0 hne
    · exact Or.inr hmem
  have hown : p ≠ 0 → p = p ∨ p ∈ xs := fun _ => Or.inl rfl
  have hsame : (((s.setNext w p 0).setPrev w p ((s.setNext w p 0).man w).tail).man w).tail
      = (s.man w).tail := by
    simp only [Sched.setNext, Sched.setPrev, if_pos hp, Sched.setProc_man]
  rw [procmanAppend_eq hp]
  refine (((touches_setNext hown _).trans (touches_setPrev hown _)).trans
    (touches_setNext ?_ _)).trans (touches_setPrev (fun h => absurd rfl h) _)
  rw [hsame]
  exact htail

/-- **`procman_append`** of a process that is in no list. -/
theorem procmanAppend_ring (hr : Ring (s.links w) 0 xs) (hp : p ≠ 0) (hx : p ∉ xs) :
    Ring ((procmanAppend s w p).links w) 0 (xs ++ [p]) := by
  have hlast : (s.links w).next ((s.links w).prev 0) = 0 := by
    rw [hr.tail]
    have hnext := hr.next
    rw [← List.append_nil xs] at hnext
    exact hnext.after
  rw [procmanAppend_links hp hlast]
  exact hr.append (by rw [List.mem_cons, not_or]; exact ⟨hp, hx⟩)

/-! ## Removing -/

/-- The neighbours, and the process itself, are in the list. -/
theorem unlinkProc_touches (hr : Ring (s.links w) 0 (pre ++ p :: post)) (w' : Which) :
    Touches (fun q => q ∈ pre ++ p :: post) w' s (unlinkProc s w' p) := by
  have hp := hr.ne (List.mem_append_right pre List.mem_cons_self)
  have hmem : p ∈ pre ++ p :: post := List.mem_append_right pre List.mem_cons_self
  have hprev : (s.procs p).prev ≠ 0 → (s.procs p).prev ∈ pre ++ p :: post := by
    rw [links_prev s w hp, hr.prev_eq]
    intro hne
    rcases List.mem_cons.mp (List.getLastD_mem_cons (l := pre) (a := 0)) with h0 | h1
    · exact absurd h0 hne
    · exact List.mem_append_left _ h1
  have hnext : (s.procs p).next ≠ 0 → (s.procs p).next ∈ pre ++ p :: post := by
    rw [links_next s w hp, hr.next_eq]
    intro hne
    cases post with
    | nil => exact absurd rfl hne
    | cons c post => exact List.mem_append_right pre (List.mem_cons_of_mem p List.mem_cons_self)
  have hsame : ((s.setNext w' (s.procs p).prev (s.procs p).next).procs p).next
      = (s.procs p).next := by
    rw [Sched.setNext]
    split
    · rw [Sched.setProc_procs]
      split
      · rfl
      · rfl
    · rw [Sched.setMan_procs]
  rw [unlinkProc_eq hp]
  refine (((touches_setNext hprev _).trans (touches_setPrev ?_ _)).trans
    (touches_setNext (fun _ => hmem) _)).trans (touches_setPrev (fun _ => hmem) _)
  rw [hsame]
  exact hnext

theorem unlinkProc_ring (hr : Ring (s.links w) 0 (pre ++ p :: post)) :
    Ring ((unlinkProc s w p).links w) 0 (pre ++ post) := by
  have hp := hr.ne (List.mem_append_right pre List.mem_cons_self)
  have hn := (List.nodup_cons.mp hr.nodup).2
  rw [List.nodup_middle, List.nodup_cons] at hn
  have hno : p ∉ 0 :: (pre ++ post) := by
    rw [List.mem_cons, not_or]
    exact ⟨hp, hn.1⟩
  rw [unlinkProc_links hp]
  exact (hr.unlink.setNext hno 0).setPrev hno 0

/-- With two neighbours no end of a list is written. -/
theorem unlinkProc_middle (hprev : (s.procs p).prev ≠ 0) (hnext : (s.procs p).next ≠ 0)
    (w w' : Which) : unlinkProc s w p = unlinkProc s w' p := by
  have hsame : ((s.setProc (s.procs p).prev
      { s.procs (s.procs p).prev with next := (s.procs p).next }).procs p).next
      = (s.procs p).next := by
    rw [Sched.setProc_procs]
    split
    · rfl
    · rfl
  simp only [unlinkProc, Sched.setNext, Sched.setPrev, if_pos hprev, hsame, if_pos hnext]

/-- What `procman_remove` does to the lists it does to them without its end. -/
theorem procmanRemove_links (s : Sched) (w w' : Which) (p : U32) :
    (procmanRemove s w p).links w' = (unlinkProc s w p).links w' := by
  rw [procmanRemove_eq]
  split
  · simp only [Sched.links, Sched.setMan_procs, Sched.setMan_man]
    split
    · next hw => rw [hw]
    · rfl
  · rfl

theorem procmanRemove_procs (s : Sched) (w : Which) (p : U32) :
    (procmanRemove s w p).procs = (unlinkProc s w p).procs := by
  rw [procmanRemove_eq]
  split
  · rw [Sched.setMan_procs]
  · rfl

/-- The current process of the list is not the one that was removed. -/
theorem procmanRemove_current (ht : Touches S w s (unlinkProc s w p)) (w' : Which) :
    ((procmanRemove s w p).man w').current =
      if w' = w ∧ (s.man w).current = p then 0 else (s.man w').current := by
  rw [procmanRemove_eq, ht.current w]
  by_cases hc : (s.man w).current = p
  · rw [if_pos hc, Sched.setMan_man]
    by_cases hw : w' = w
    · rw [if_pos hw, if_pos ⟨hw, hc⟩]
    · rw [if_neg hw, if_neg fun h => hw h.1, ht.current w']
  · rw [if_neg hc, if_neg fun h => hc h.2, ht.current w']

/-! ## In any state -/

/-- The two operations write links only, whatever the lists are. -/
theorem procmanAppend_writes (s : Sched) (w : Which) (hp : p ≠ 0) :
    Touches (fun _ => True) w s (procmanAppend s w p) := by
  rw [procmanAppend_eq hp]
  exact (((touches_setNext (fun _ => trivial) _).trans (touches_setPrev (fun _ => trivial) _)).trans
    (touches_setNext (fun _ => trivial) _)).trans (touches_setPrev (fun _ => trivial) _)

theorem unlinkProc_writes (s : Sched) (w : Which) (hp : p ≠ 0) :
    Touches (fun _ => True) w s (unlinkProc s w p) := by
  rw [unlinkProc_eq hp]
  exact (((touches_setNext (fun _ => trivial) _).trans (touches_setPrev (fun _ => trivial) _)).trans
    (touches_setNext (fun _ => trivial) _)).trans (touches_setPrev (fun _ => trivial) _)

theorem procmanAppend_core (s : Sched) (w : Which) (hp : p ≠ 0) (q : U32) :
    ((procmanAppend s w p).procs q).core = (s.procs q).core := (procmanAppend_writes s w hp).core q

theorem procmanRemove_core (s : Sched) (w : Which) (hp : p ≠ 0) (q : U32) :
    ((procmanRemove s w p).procs q).core = (s.procs q).core := by
  rw [procmanRemove_procs]
  exact (unlinkProc_writes s w hp).core q

end Tomk
