/-
# Round robin

A window of `2 * n` ticks, for an active list of `n` processes.  What the list
looks like at a tick is told by two numbers, which process is the current one and
how many ticks it has had (`Turn`).  A tick counts the second number up, and when
that is full the first one; so after `k` ticks they are the digits of `k`, in base 2
and around the list, and the window is one whole round.

Between the ticks there may be anything that leaves the list and the counts alone
(`Undisturbed`): the processes run, and the handler saves the registers of the
one that it interrupted (`RunState.tick_undisturbed`).
-/
import Tomk.Sched.Running
import Mathlib.Data.Finset.Card
import Mathlib.Data.Finset.Range

namespace Tomk

open DList Function

variable {l : List U32} {s s' : Sched} {p : U32} {j c : Nat}

/-! ## What is asked -/

/-- The current process is in the list, and no other one has begun its time. -/
structure WindowStart (l : List U32) (s : Sched) : Prop where
  ring : Ring (s.links .active) 0 l
  two : 2 ≤ l.length
  current : s.active.current ∈ l
  begun : (s.procs s.active.current).ticks = 0 ∨ (s.procs s.active.current).ticks = 1
  others : ∀ p ∈ l, p ≠ s.active.current → (s.procs p).ticks = 0

/-- No process is loaded or unloaded, as far as the list shows it. -/
structure Undisturbed (l : List U32) (s s' : Sched) : Prop where
  active : s'.active = s.active
  next : ∀ p ∈ l, (s'.procs p).next = (s.procs p).next
  ticks : ∀ p ∈ l, (s'.procs p).ticks = (s.procs p).ticks

/-- The window of the ticks from `s 0` on; `s k` is the state before tick `k`. -/
structure RoundRobin (l : List U32) (s : Nat → Sched) : Prop where
  /-- Every process is the current one for two ticks. -/
  twice : ∀ p ∈ l,
    ((Finset.range (2 * l.length)).filter fun k => (s k).active.current = p).card = 2
  /-- A tick leaves the current process, or goes to the one behind it. -/
  order : ∀ k, k < 2 * l.length → ∃ j p q, l[j]? = some p ∧ l[(j + 1) % l.length]? = some q ∧
    (s k).active.current = p ∧
    ((schedulerSwitch (s k)).1 = none ∧ (schedulerSwitch (s k)).2.active.current = p ∨
      (schedulerSwitch (s k)).1 = some (p, q) ∧ (schedulerSwitch (s k)).2.active.current = q)
  switches :
    ((Finset.range (2 * l.length)).filter fun k => (schedulerSwitch (s k)).1.isSome).card = l.length

/-! ## One tick -/

/-- It is the turn of process `j`, counted around the list, and it has had `c` ticks. -/
structure Turn (l : List U32) (j c : Nat) (s : Sched) : Prop where
  nodup : (0 :: l).Nodup
  follows : Follows (s.links .active).next 0 l 0
  current : l[j % l.length]? = some s.active.current
  ticks : ∀ p ∈ l, (s.procs p).ticks = if p = s.active.current then BitVec.ofNat 32 c else 0

theorem Turn.current_mem (h : Turn l j c s) : s.active.current ∈ l :=
  List.mem_of_getElem? h.current

theorem Turn.ne_zero (h : Turn l j c s) (hp : p ∈ l) : p ≠ 0 := by
  rintro rfl
  exact (List.nodup_cons.mp h.nodup).1 hp

theorem Turn.undisturbed (h : Turn l j c s) (hu : Undisturbed l s s') : Turn l j c s' where
  nodup := h.nodup
  follows := h.follows.congr fun x hx => by
    simp only [Sched.links, Sched.man, hu.active]
    split
    · rfl
    · next hne => exact hu.next x ((List.mem_cons.mp hx).resolve_left hne)
  current := by rw [hu.active, h.current]
  ticks := fun p hp => by rw [hu.ticks p hp, hu.active, h.ticks p hp]

/-- The process behind process `j`, around the list. -/
theorem Turn.next (h : Turn l j c s) :
    l[(j + 1) % l.length]? = some (nextInTurn s s.active.current) := by
  have hlt : j % l.length < l.length := (List.getElem?_eq_some_iff.mp h.current).1
  have hsplit : l = l.take (j % l.length) ++ s.active.current :: l.drop (j % l.length + 1) := by
    rw [← (List.getElem?_eq_some_iff.mp h.current).2, ← List.drop_eq_getElem_cons,
      List.take_append_drop]
  have hbehind : (s.procs s.active.current).next = (l.drop (j % l.length + 1)).headD 0 := by
    rw [links_next s .active (h.ne_zero h.current_mem)]
    have hf := h.follows
    rw [hsplit] at hf
    exact hf.after_mem
  have hget : (l.drop (j % l.length + 1)).headD 0 = l[j % l.length + 1]?.getD 0 := by
    rw [List.headD_eq_head?_getD, List.head?_drop]
  rw [hget] at hbehind
  rw [nextInTurn, hbehind, ← Nat.mod_add_mod]
  by_cases hend : j % l.length + 1 < l.length
  · rw [Nat.mod_eq_of_lt hend, List.getElem?_eq_getElem hend, Option.getD_some, if_pos]
    exact h.ne_zero (List.getElem_mem hend)
  · -- from the tail to the head
    have hlast : j % l.length + 1 = l.length := by omega
    have hhead : s.active.head = l.headD 0 := h.follows.first
    rw [hlast, Nat.mod_self, List.getElem?_eq_none (Nat.le_refl _), Option.getD_none,
      if_neg (not_not.mpr rfl), hhead]
    cases l with
    | nil => exact absurd hlt (Nat.not_lt_zero _)
    | cons a l => rfl

/-- The next process in turn is another one. -/
theorem Turn.next_ne (h : Turn l j c s) (htwo : 2 ≤ l.length) :
    nextInTurn s s.active.current ≠ s.active.current := by
  intro hsame
  have hnext := h.next
  rw [hsame, ← h.current] at hnext
  have hlt : j % l.length < l.length := Nat.mod_lt _ (by omega)
  have hlt' : (j + 1) % l.length < l.length := Nat.mod_lt _ (by omega)
  have hidx : (j + 1) % l.length = j % l.length :=
    List.getElem?_inj hlt' (List.nodup_cons.mp h.nodup).2 |>.mp hnext
  rw [← Nat.mod_add_mod] at hidx
  by_cases hend : j % l.length + 1 < l.length
  · rw [Nat.mod_eq_of_lt hend] at hidx
    omega
  · rw [show j % l.length + 1 = l.length by omega, Nat.mod_self] at hidx
    omega

/-- What `process_update` leaves to the next turn. -/
theorem processUpdate_first (hp : p ≠ 0) (ht : (s.procs p).ticks = 0) :
    processUpdate s p = (false, s.setProc p { s.procs p with ticks := 1 }) := by
  have hlt : ((0 : U32) + 1) < 2 := by decide
  simp only [processUpdate, if_neg hp, Sched.setProc_procs, if_true, ht, if_pos hlt]
  rfl

theorem processUpdate_second (hp : p ≠ 0) (ht : (s.procs p).ticks = 1) :
    (processUpdate s p).1 = true ∧ ∀ q, ((processUpdate s p).2.procs q).ticks =
      if q = p then 0 else (s.procs q).ticks := by
  have hge : ¬ ((1 : U32) + 1) < 2 := by decide
  simp only [processUpdate, if_neg hp, Sched.setProc_procs, if_true, ht, if_neg hge, true_and]
  intro q
  by_cases hq : q = p
  · rw [if_pos hq, if_pos hq]
  · rw [if_neg hq, if_neg hq, if_neg hq]

/-- Counting ticks leaves the list as it is. -/
theorem Turn.ticked {c' : Nat} (h : Turn l j c s) (t : Ticked s s')
    (hticks : ∀ p ∈ l, (s'.procs p).ticks = if p = s.active.current then BitVec.ofNat 32 c' else 0) :
    Turn l j c' s' where
  nodup := h.nodup
  follows := h.follows.congr fun x _ => by
    simp only [Sched.links, t.sameLists.next, t.sameLists.head]
  current := by rw [t.active, h.current]
  ticks := fun p hp => by rw [t.active, hticks p hp]

/-- **The first tick** of a process leaves it more time. -/
theorem Turn.first (h : Turn l j 0 s) :
    (schedulerSwitch s).1 = none ∧ (schedulerSwitch s).2.active = s.active ∧
      Turn l j 1 (schedulerSwitch s).2 := by
  have hp := h.ne_zero h.current_mem
  have hzero : (s.procs s.active.current).ticks = 0 := by
    rw [h.ticks _ h.current_mem, if_pos rfl]
    rfl
  have hrun : schedulerSwitch s = (none, s.setProc s.active.current
      { s.procs s.active.current with ticks := 1 }) := by
    have hchoose : chooseCurrent s = s := if_neg hp
    rw [schedulerSwitch, if_neg fun hc => hp hc.1, hchoose]
    simp only [processUpdate_first hp hzero]
    rfl
  rw [hrun]
  refine ⟨rfl, rfl, h.ticked (ticked_setProc s _ 1) fun q hq => ?_⟩
  rw [Sched.setProc_procs]
  split
  · rfl
  · next hne => rw [h.ticks q hq, if_neg hne]

/-- **The second tick** passes the turn on. -/
theorem Turn.second (h : Turn l j 1 s) (htwo : 2 ≤ l.length) :
    (schedulerSwitch s).1 = some (s.active.current, nextInTurn s s.active.current) ∧
      (schedulerSwitch s).2.active.current = nextInTurn s s.active.current ∧
      Turn l (j + 1) 0 (schedulerSwitch s).2 := by
  have hp := h.ne_zero h.current_mem
  have hone : (s.procs s.active.current).ticks = 1 := by
    rw [h.ticks _ h.current_mem, if_pos rfl]
    rfl
  obtain ⟨hdone, hticks⟩ := processUpdate_second hp hone
  have ht := processUpdate_ticked s s.active.current
  have hnext : (if ((processUpdate s s.active.current).2.procs s.active.current).next ≠ 0 then
      ((processUpdate s s.active.current).2.procs s.active.current).next
      else (processUpdate s s.active.current).2.active.head)
      = nextInTurn s s.active.current := by
    rw [nextInTurn, ht.sameLists.next, ht.active]
  have hrun : schedulerSwitch s = (some (s.active.current, nextInTurn s s.active.current),
      { (processUpdate s s.active.current).2 with
        active := { s.active with current := nextInTurn s s.active.current } }) := by
    have hchoose : chooseCurrent s = s := if_neg hp
    rw [schedulerSwitch, if_neg fun hc => hp hc.1, hchoose]
    simp only [hdone, if_true]
    rw [ht.active] at hnext ⊢
    rw [hnext, if_pos (h.next_ne htwo)]
  have hcounted : Turn l j 0 (processUpdate s s.active.current).2 :=
    h.ticked ht fun q hq => by
      rw [hticks q]
      split
      · rfl
      · next hne => rw [h.ticks q hq, if_neg hne]
  rw [hrun]
  refine ⟨rfl, rfl, hcounted.nodup, hcounted.follows.congr fun x _ => ?_, h.next, fun q hq => ?_⟩
  · simp only [Sched.links, Sched.man, ht.active]
  · have hq' := hcounted.ticks q hq
    have hzero : (if q = (processUpdate s s.active.current).2.active.current
        then BitVec.ofNat 32 0 else 0) = 0 := ite_self _
    rw [hzero] at hq'
    exact hq'.trans (ite_self _).symm

/-! ## The window -/

/-- The start of a window, in turns. -/
theorem WindowStart.turn (h : WindowStart l s) :
    ∃ i t, i < l.length ∧ t < 2 ∧ Turn l i t s := by
  obtain ⟨i, hi, hcur⟩ := List.getElem_of_mem h.current
  have hget : l[i % l.length]? = some s.active.current := by
    rw [Nat.mod_eq_of_lt hi, List.getElem?_eq_getElem hi, hcur]
  have hturn : ∀ t, (s.procs s.active.current).ticks = BitVec.ofNat 32 t → Turn l i t s := by
    intro t ht
    refine ⟨h.ring.nodup, h.ring.next, hget, fun p hp => ?_⟩
    split
    · next heq => rw [heq, ht]
    · next hne => exact h.others p hp hne
  rcases h.begun with h0 | h1
  · exact ⟨i, 0, hi, by decide, hturn 0 h0⟩
  · exact ⟨i, 1, hi, by decide, hturn 1 h1⟩

/-- After `k` ticks. -/
theorem Turn.run {u : Nat → Sched} {i t n : Nat} (h : Turn l i t (u 0)) (ht : t < 2)
    (htwo : 2 ≤ l.length)
    (hquiet : ∀ k, k + 1 < n → Undisturbed l (schedulerSwitch (u k)).2 (u (k + 1))) {k : Nat}
    (hk : k < n) : Turn l (i + (k + t) / 2) ((k + t) % 2) (u k) := by
  induction k with
  | zero =>
    rw [Nat.zero_add, Nat.div_eq_of_lt ht, Nat.mod_eq_of_lt ht]
    exact h
  | succ k ih =>
    have hk' := ih (Nat.lt_of_succ_lt hk)
    rcases Nat.mod_two_eq_zero_or_one (k + t) with heven | hodd
    · rw [heven] at hk'
      have hdigits : (k + 1 + t) / 2 = (k + t) / 2 ∧ (k + 1 + t) % 2 = 1 := by omega
      rw [hdigits.1, hdigits.2]
      exact hk'.first.2.2.undisturbed (hquiet k hk)
    · rw [hodd] at hk'
      have hdigits : i + (k + 1 + t) / 2 = i + (k + t) / 2 + 1 ∧ (k + 1 + t) % 2 = 0 := by omega
      rw [hdigits.1, hdigits.2]
      exact (hk'.second htwo).2.2.undisturbed (hquiet k hk)

/-- The ticks of one process in a round. -/
theorem card_turns {i t n a : Nat} (hi : i < n) (ht : t < 2) (htwo : 2 ≤ n) (ha : a < n) :
    ((Finset.range (2 * n)).filter fun k => (i + (k + t) / 2) % n = a).card = 2 := by
  have hwrap : ∀ q, q ≤ n → (i + q) % n = if i + q < n then i + q else i + q - n := by
    intro q hq
    split
    · next hlt => exact Nat.mod_eq_of_lt hlt
    · next hge =>
      rw [Nat.mod_eq_sub_mod (Nat.le_of_not_lt hge), Nat.mod_eq_of_lt (by omega)]
  -- how far the process is behind the one at the start
  let d := if i ≤ a then a - i else a + n - i
  have hd : d < n := by
    dsimp only [d]
    split <;> omega
  have hmod : ∀ q, q ≤ n → ((i + q) % n = a ↔ q = d ∨ d = 0 ∧ q = n) := by
    intro q hq
    rw [hwrap q hq]
    dsimp only [d]
    split <;> split <;> omega
  refine Finset.card_eq_two.mpr ⟨if t = 1 ∧ d = 0 then 2 * n - 1 else 2 * d - t, 2 * d + 1 - t,
    ?_, ?_⟩
  · split <;> omega
  · ext k
    rw [Finset.mem_filter, Finset.mem_range, Finset.mem_insert, Finset.mem_singleton]
    constructor
    · rintro ⟨hk, heq⟩
      rw [hmod _ (by omega)] at heq
      split <;> omega
    · intro hk
      have hlt : k < 2 * n := by
        split at hk <;> omega
      refine ⟨hlt, ?_⟩
      rw [hmod _ (by omega)]
      split at hk <;> omega

/-- Every other tick. -/
theorem card_odd (t n : Nat) (ht : t < 2) :
    ((Finset.range (2 * n)).filter fun k => (k + t) % 2 = 1).card = n := by
  have himage : (Finset.range (2 * n)).filter (fun k => (k + t) % 2 = 1)
      = (Finset.range n).image fun q => 2 * q + (1 - t) := by
    ext k
    rw [Finset.mem_filter, Finset.mem_range, Finset.mem_image]
    constructor
    · rintro ⟨hk, hodd⟩
      exact ⟨k / 2, Finset.mem_range.mpr (by omega), by omega⟩
    · rintro ⟨q, hq, rfl⟩
      rw [Finset.mem_range] at hq
      omega
  rw [himage, Finset.card_image_of_injective _ fun a b hab => by omega, Finset.card_range]

/-- What the handler does beside: it saves registers. -/
theorem RunState.tick_undisturbed (s : RunState) (t : Tick) (l : List U32) :
    Undisturbed l (schedulerSwitch s.sched).2 (s.tick t).sched := by
  rw [RunState.tick]
  rcases schedulerSwitch s.sched with ⟨_ | ⟨current, next⟩, sched⟩
  · exact ⟨rfl, fun _ _ => rfl, fun _ _ => rfl⟩
  · refine ⟨rfl, fun p _ => ?_, fun p _ => ?_⟩
    all_goals
      simp only [Sched.setProc_procs]
      split
      · next heq => rw [heq]
      · rfl

/-- **`scheduler_switch` is fair.** -/
theorem schedulerSwitch_roundRobin {l : List U32} {s : Nat → Sched} (h : WindowStart l (s 0))
    (hquiet : ∀ k, k + 1 < 2 * l.length →
      Undisturbed l (schedulerSwitch (s k)).2 (s (k + 1))) :
    RoundRobin l s := by
  obtain ⟨i, t, hi, ht, hturn⟩ := h.turn
  have hat : ∀ k, k < 2 * l.length → Turn l (i + (k + t) / 2) ((k + t) % 2) (s k) :=
    fun k hk => hturn.run ht h.two hquiet hk
  have hnodup : l.Nodup := (List.nodup_cons.mp h.ring.nodup).2
  refine ⟨fun p hp => ?_, fun k hk => ?_, ?_⟩
  · obtain ⟨a, ha, hpa⟩ := List.getElem_of_mem hp
    refine (congrArg Finset.card (Finset.filter_congr fun k hk => ?_)).trans
      (card_turns hi ht h.two ha)
    have hcur := (hat k (Finset.mem_range.mp hk)).current
    have hlt : (i + (k + t) / 2) % l.length < l.length := Nat.mod_lt _ (by omega)
    rw [List.getElem?_eq_getElem hlt, Option.some.injEq] at hcur
    rw [← hcur, ← hpa]
    exact hnodup.getElem_inj_iff
  · have hk' := hat k hk
    refine ⟨(i + (k + t) / 2) % l.length, (s k).active.current,
      nextInTurn (s k) (s k).active.current, hk'.current, ?_, rfl, ?_⟩
    · rw [Nat.mod_add_mod]
      exact hk'.next
    · rcases Nat.mod_two_eq_zero_or_one (k + t) with heven | hodd
      · rw [heven] at hk'
        exact Or.inl ⟨hk'.first.1, by rw [hk'.first.2.1]⟩
      · rw [hodd] at hk'
        exact Or.inr ⟨(hk'.second h.two).1, (hk'.second h.two).2.1⟩
  · refine (congrArg Finset.card (Finset.filter_congr fun k hk => ?_)).trans
      (card_odd t l.length ht)
    have hk' := hat k (Finset.mem_range.mp hk)
    rcases Nat.mod_two_eq_zero_or_one (k + t) with heven | hodd
    · rw [heven] at hk' ⊢
      rw [hk'.first.1]
      decide
    · rw [hodd] at hk' ⊢
      rw [(hk'.second h.two).1]
      exact ⟨fun _ => rfl, fun _ => rfl⟩

/-- Two processes, of which the first one is running. -/
def twoProcs : RunState where
  sched := ⟨⟨0x100, 0x200, 0x100, 2⟩, ⟨0, 0, 0, 0⟩, fun p =>
    if p = 0x100 then { newProcess with next := 0x200 } else { newProcess with prev := 0x100 },
    fun _ => 0⟩
  live := [0x100, 0x200]
  running := 0x100
  saved := fun _ => none

theorem twoProcs_start : WindowStart [0x100, 0x200] twoProcs.sched where
  ring := ⟨by decide, ⟨rfl, rfl, rfl⟩, rfl, rfl, rfl⟩
  two := by decide
  current := by decide
  begun := Or.inl rfl
  others := fun p _ _ => by
    dsimp only [twoProcs]
    split <;> rfl

theorem schedulerSwitch_roundRobin_two :
    RoundRobin [0x100, 0x200] fun k => ((·.tick kernelTick)^[k] twoProcs).sched := by
  refine schedulerSwitch_roundRobin twoProcs_start fun k _ => ?_
  rw [iterate_succ_apply']
  exact RunState.tick_undisturbed _ _ _

end Tomk
