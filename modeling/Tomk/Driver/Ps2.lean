/-
# `ps2.asm`: the queue of the keyboard

`ps2_int_handler` puts a make code into a ring of 32 bytes, and
`ps2_getscancode` takes the oldest one out.  The handler runs at once; it may
come between any two instructions of `ps2_getscancode`, whose registers it
restores.  The step relation has one step for each of these instructions, and
one for an interrupt.

A full ring makes room by dropping its oldest code.  Once `ps2_getscancode` has
read `head`, that code is also the one it is about to read, and the handler
overwrites it (`ps2_overwrites`).  In every run in which no interrupt writes
the slot that is being read, the codes returned are codes received, in order and
each once, and what is lost had 32 later ones (`ps2Run_inOrder`).
-/
import Tomk.Word
import Tomk.Lib.Runs
import Mathlib.Logic.Function.Basic
import Mathlib.Data.List.Basic

namespace Tomk

open Function Runs

/-! ## The ring -/

def kbBufSize : U32 := 32

/-- The `.bss` section: the bytes from `buff` on, and the three words. -/
structure Ps2 where
  buff : U32 → U8
  head : U32
  tail : U32
  count : U32

/-- The start of `ps2_init`. -/
def ps2Init (s : Ps2) : Ps2 := { s with head := 0, tail := 0, count := 0 }

/-- A byte from the controller that is queued: no prefix, and no release. -/
def Make (al : U8) : Prop := al ≠ 0xE0 ∧ al &&& 0x80 = 0

instance (al : U8) : Decidable (Make al) := inferInstanceAs (Decidable (_ ∧ _))

/-- `ps2_int_handler`, with the byte read from port `0x60`. -/
def ps2IntHandler (s : Ps2) (al : U8) : Ps2 :=
  if al = 0xE0 then s
  else if al &&& 0x80 ≠ 0 then s
  else
    let ebx := s.tail
    let s := { s with buff := update s.buff ebx al }
    let s := { s with tail := s.tail + 1 }
    let s := { s with tail := s.tail &&& (kbBufSize - 1) }
    -- `jge` compares as signed
    if s.count.slt kbBufSize then { s with count := s.count + 1 }
    else
      let s := { s with head := s.head + 1 }
      { s with head := s.head &&& (kbBufSize - 1) }

/-! ## The steps -/

/-- The instruction of `ps2_getscancode` that is next. -/
inductive Ps2Pc where
  | xorEax
  | movCount
  | testCount
  | jz
  | movHead
  | incHead
  | andHead
  | decCount
  | movItem
  | ret
deriving DecidableEq

/-- The queue and the caller, which calls again and again; `received` are the
make codes the handler was given, and `returned` what the calls have in `eax` to
return, both from the oldest on. -/
structure Ps2State extends Ps2 where
  pc : Ps2Pc
  eax : U32
  ebx : U32
  ecx : U32
  zf : Bool
  received : List U8
  returned : List U32

/-- The next instruction of `ps2_getscancode`. -/
def Ps2State.insn (s : Ps2State) : Ps2State :=
  match s.pc with
  | .xorEax => { s with eax := 0, pc := .movCount }
  | .movCount => { s with ecx := s.count, pc := .testCount }
  | .testCount => { s with zf := s.ecx == 0, pc := .jz }
  | .jz => { s with pc := if s.zf then .ret else .movHead }
  | .movHead => { s with ebx := s.head, pc := .incHead }
  | .incHead => { s with head := s.head + 1, pc := .andHead }
  | .andHead => { s with head := s.head &&& (kbBufSize - 1), pc := .decCount }
  | .decCount => { s with count := s.count - 1, pc := .movItem }
  | .movItem =>
      let eax := (s.buff s.ebx).setWidth 32
      { s with eax := eax, returned := s.returned ++ [eax], pc := .ret }
  | .ret => { s with pc := .xorEax }

inductive Ps2Move where
  | insn
  | int (al : U8)

def Ps2Move.run (s : Ps2State) : Ps2Move → Ps2State
  | .insn => s.insn
  | .int al =>
      { s with
        toPs2 := ps2IntHandler s.toPs2 al
        received := if Make al then s.received ++ [al] else s.received }

def Ps2Step (m : Ps2Move) (s s' : Ps2State) : Prop := s' = m.run s

/-- After `ps2_init`, with no call made yet. -/
def Ps2Start (s : Ps2State) : Prop :=
  (∃ t, s.toPs2 = ps2Init t) ∧ s.pc = .xorEax ∧ s.received = [] ∧ s.returned = []

/-! ## What is asked -/

/-- The codes at the places `idx`, which are in order, and none twice. -/
structure Picks (received : List U8) (idx : List Nat) (returned : List U32) : Prop where
  order : idx.Pairwise (· < ·)
  bound : ∀ i ∈ idx, i < received.length
  values : returned = idx.map fun i => (received.getD i 0).setWidth 32

/-- `n` instructions, with no interrupt. -/
def Ps2State.alone (s : Ps2State) : Nat → Ps2State
  | 0 => s
  | n + 1 => s.insn.alone n

/-- The last call has returned, and the ring is empty. -/
def Ps2State.Drained (s : Ps2State) : Prop := s.pc = .xorEax ∧ s.count = 0

/-- The codes returned are codes received, in order and each once.  And with
what calls still get when no more codes come, all that is missing are codes
with 32 later ones. -/
structure Ps2State.InOrder (s : Ps2State) : Prop where
  picks : ∃ idx, Picks s.received idx s.returned
  lost : ∃ n idx, (s.alone n).Drained ∧ Picks s.received idx (s.alone n).returned ∧
    ∀ i < s.received.length, i ∉ idx → i + 32 < s.received.length

/-- The property as it is asked: for every interleaving. -/
def Ps2InOrder : Prop := ∀ s, Reach Ps2Start Ps2Step s → s.InOrder

/-- The slot of the code that the call has found, and has not read yet. -/
def Ps2State.Reading (s : Ps2State) (slot : U32) : Prop :=
  (s.pc = .incHead ∨ s.pc = .andHead ∨ s.pc = .decCount ∨ s.pc = .movItem) ∧ s.ebx = slot

instance (s : Ps2State) (slot : U32) : Decidable (s.Reading slot) := inferInstanceAs (Decidable (_ ∧ _))

/-- An interrupt with a make code does not write the slot that is being read. -/
def Ps2Move.Spares : Ps2Move → Ps2State → Prop
  | .insn, _ => True
  | .int al, s => Make al → ¬ s.Reading s.tail

variable {s : Ps2State} {al : U8} {lo : Nat} {idx : List Nat}

/-! ## The words -/

theorem toNat_kbMask (x : U32) : (x &&& (kbBufSize - 1)).toNat = x.toNat % 32 :=
  toNat_and_mask x (show 5 ≤ 32 by decide)

theorem kbFull (x : U32) (h : x.toNat ≤ 32) : x.slt kbBufSize = decide (x.toNat < 32) := by
  have hx : x.toInt = x.toNat := BitVec.toInt_eq_toNat_of_lt (by omega)
  have h32 : kbBufSize.toInt = 32 := by decide
  rw [BitVec.slt, hx, h32]
  exact decide_eq_decide.mpr (by omega)

/-! ## The handler -/

theorem ps2IntHandler_other (t : Ps2) (h : ¬ Make al) : ps2IntHandler t al = t := by
  rw [ps2IntHandler]
  by_cases h0 : al = 0xE0
  · rw [if_pos h0]
  · rw [if_neg h0, if_pos]
    exact fun h1 => h ⟨h0, h1⟩

/-- A make code, while there is room and while there is none. -/
theorem ps2IntHandler_make (t : Ps2) (h : Make al) (hc : t.count.toNat ≤ 32) :
    ps2IntHandler t al =
      { buff := update t.buff t.tail al
        tail := (t.tail + 1) &&& (kbBufSize - 1)
        head := if t.count.toNat < 32 then t.head else (t.head + 1) &&& (kbBufSize - 1)
        count := if t.count.toNat < 32 then t.count + 1 else t.count } := by
  have h1 : ¬ (al &&& 0x80 ≠ 0) := fun hn => hn h.2
  simp only [ps2IntHandler, if_neg h.1, if_neg h1, kbFull _ hc, decide_eq_true_eq]
  split <;> rfl

/-! ## The invariant -/

/-- What `head` is, when the code to be read next is the `lo`-th. -/
def Ps2Pc.headAt (lo : Nat) : Ps2Pc → Nat
  | .andHead => lo % 32 + 1
  | .decCount | .movItem => (lo + 1) % 32
  | _ => lo % 32

/-- What `count` is short of. -/
def Ps2Pc.taken : Ps2Pc → Nat
  | .movItem => 1
  | _ => 0

/-- The call has seen that the ring is not empty. -/
def Ps2State.Found (s : Ps2State) : Prop :=
  match s.pc with
  | .testCount => s.ecx ≠ 0
  | .jz => s.zf = false
  | .movHead | .incHead | .andHead | .decCount | .movItem => True
  | _ => False

/-- The codes before the `lo`-th have been returned or dropped, the others are
in the ring. -/
structure Queue (buff : U32 → U8) (tail : U32) (received : List U8) (returned : List U32)
    (lo : Nat) (idx : List Nat) : Prop where
  picks : Picks received idx returned
  before : ∀ i ∈ idx, i < lo
  lost : ∀ i < lo, i ∉ idx → i + 32 < received.length
  room : received.length ≤ lo + 32
  tail : tail.toNat = received.length % 32
  slot : ∀ j, lo ≤ j → j < received.length → ∀ x : U32, x.toNat = j % 32 → buff x = received.getD j 0

structure Ps2State.Inv (s : Ps2State) (lo : Nat) (idx : List Nat) : Prop where
  queue : Queue s.buff s.tail s.received s.returned lo idx
  head : s.head.toNat = s.pc.headAt lo
  count : s.count.toNat + lo + s.pc.taken = s.received.length
  found : s.Found → lo < s.received.length
  ebx : (∃ x, s.Reading x) → s.ebx.toNat = lo % 32

theorem Ps2Start.inv (hs : Ps2Start s) : s.Inv 0 [] := by
  obtain ⟨⟨t, ht⟩, hpc, hrcv, hret⟩ := hs
  have hhead : s.head = 0 := congrArg Ps2.head ht
  have htail : s.tail = 0 := congrArg Ps2.tail ht
  have hcount : s.count = 0 := congrArg Ps2.count ht
  refine ⟨⟨⟨.nil, nofun, hret⟩, nofun, nofun, ?_, ?_, ?_⟩, ?_, ?_, ?_, ?_⟩
  · rw [hrcv]
    exact Nat.zero_le _
  · rw [htail, hrcv]
    rfl
  · rw [hrcv]
    exact fun j _ hj => absurd hj (Nat.not_lt_zero j)
  · rw [hhead, hpc]
    rfl
  · rw [hcount, hpc, hrcv]
    rfl
  · rw [Ps2State.Found, hpc]
    exact False.elim
  · rintro ⟨x, h, _⟩
    rw [hpc] at h
    rcases h with h | h | h | h <;> cases h

/-! ## One instruction -/

/-- The code that is next, once it has been read. -/
theorem Queue.take {buff : U32 → U8} {tail : U32} {rcv : List U8} {ret : List U32}
    (hq : Queue buff tail rcv ret lo idx) (hlo : lo < rcv.length) {x : U32} (hx : x.toNat = lo % 32) :
    Queue buff tail rcv (ret ++ [(buff x).setWidth 32]) (lo + 1) (idx ++ [lo]) := by
  obtain ⟨⟨horder, hbound, hvalues⟩, hbefore, hlost, hroom, htail, hslot⟩ := hq
  refine ⟨⟨?_, ?_, ?_⟩, ?_, ?_, by omega, htail, fun j hj => hslot j (by omega)⟩
  · rw [List.pairwise_append]
    refine ⟨horder, List.pairwise_singleton _ _, fun i hi j hj => ?_⟩
    rw [List.mem_singleton.mp hj]
    exact hbefore i hi
  · intro i hi
    rcases List.mem_append.mp hi with hi | hi
    · exact hbound i hi
    · rw [List.mem_singleton.mp hi]
      exact hlo
  · rw [hslot lo (Nat.le_refl lo) hlo x hx, List.map_append, ← hvalues]
    rfl
  · intro i hi
    rcases List.mem_append.mp hi with hi | hi
    · exact Nat.lt_succ_of_lt (hbefore i hi)
    · rw [List.mem_singleton.mp hi]
      exact Nat.lt_succ_self lo
  · intro i hi hout
    rw [List.mem_append, List.mem_singleton, not_or] at hout
    exact hlost i (by omega) hout.1

/-- Between the load of the head and the load of the item. -/
theorem Ps2State.Inv.reading (hi : s.Inv lo idx)
    (h : s.pc = .incHead ∨ s.pc = .andHead ∨ s.pc = .decCount ∨ s.pc = .movItem) :
    lo < s.received.length ∧ s.ebx.toNat = lo % 32 := by
  refine ⟨hi.found ?_, hi.ebx ⟨s.ebx, h, rfl⟩⟩
  rw [Ps2State.Found]
  rcases h with h | h | h | h
  all_goals
    rw [h]
    trivial

/-- **An instruction** keeps the invariant; the one that reads the buffer
returns the code that was next. -/
theorem Ps2State.Inv.insn (hi : s.Inv lo idx) : ∃ lo' idx', s.insn.Inv lo' idx' := by
  have hno : ∀ {t : Ps2State} {n : Nat}, t.pc ≠ .incHead → t.pc ≠ .andHead → t.pc ≠ .decCount →
      t.pc ≠ .movItem → (∃ x, t.Reading x) → t.ebx.toNat = n := by
    rintro t n h1 h2 h3 h4 ⟨x, h, _⟩
    rcases h with h | h | h | h
    · exact absurd h h1
    · exact absurd h h2
    · exact absurd h h3
    · exact absurd h h4
  have hq := hi.queue
  have hhead := hi.head
  have hcount := hi.count
  have hfound := hi.found
  cases hpc : s.pc with
  | xorEax | ret =>
      simp only [hpc, Ps2Pc.headAt, Ps2Pc.taken] at hhead hcount
      refine ⟨lo, idx, ?_⟩
      simp only [Ps2State.insn, hpc]
      exact ⟨hq, hhead, hcount, False.elim, hno nofun nofun nofun nofun⟩
  | movCount =>
      simp only [hpc, Ps2Pc.headAt, Ps2Pc.taken] at hhead hcount
      refine ⟨lo, idx, ?_⟩
      simp only [Ps2State.insn, hpc]
      refine ⟨hq, hhead, hcount, fun h => ?_, hno nofun nofun nofun nofun⟩
      have hne : s.count.toNat ≠ 0 := fun h0 => h (BitVec.eq_of_toNat_eq h0)
      show lo < s.received.length
      omega
  | testCount =>
      simp only [hpc, Ps2Pc.headAt, Ps2Pc.taken] at hhead hcount
      refine ⟨lo, idx, ?_⟩
      simp only [Ps2State.insn, hpc]
      refine ⟨hq, hhead, hcount, fun h => hfound ?_, hno nofun nofun nofun nofun⟩
      rw [Ps2State.Found, hpc]
      exact ne_of_beq_false h
  | jz =>
      simp only [hpc, Ps2Pc.headAt, Ps2Pc.taken] at hhead hcount
      refine ⟨lo, idx, ?_⟩
      simp only [Ps2State.insn, hpc]
      cases hz : s.zf with
      | true => exact ⟨hq, hhead, hcount, False.elim, hno nofun nofun nofun nofun⟩
      | false =>
          refine ⟨hq, hhead, hcount, fun _ => hfound ?_, hno nofun nofun nofun nofun⟩
          rw [Ps2State.Found, hpc]
          exact hz
  | movHead =>
      simp only [hpc, Ps2Pc.headAt, Ps2Pc.taken] at hhead hcount
      have hlo := hfound (by rw [Ps2State.Found, hpc]; trivial)
      refine ⟨lo, idx, ?_⟩
      simp only [Ps2State.insn, hpc]
      exact ⟨hq, hhead, hcount, fun _ => hlo, fun _ => hhead⟩
  | incHead =>
      simp only [hpc, Ps2Pc.headAt, Ps2Pc.taken] at hhead hcount
      obtain ⟨hlo, hx⟩ := hi.reading (Or.inl hpc)
      refine ⟨lo, idx, ?_⟩
      simp only [Ps2State.insn, hpc]
      refine ⟨hq, ?_, hcount, fun _ => hlo, fun _ => hx⟩
      show (s.head + 1).toNat = lo % 32 + 1
      bv_omega
  | andHead =>
      simp only [hpc, Ps2Pc.headAt, Ps2Pc.taken] at hhead hcount
      obtain ⟨hlo, hx⟩ := hi.reading (Or.inr (Or.inl hpc))
      refine ⟨lo, idx, ?_⟩
      simp only [Ps2State.insn, hpc]
      refine ⟨hq, ?_, hcount, fun _ => hlo, fun _ => hx⟩
      show (s.head &&& (kbBufSize - 1)).toNat = (lo + 1) % 32
      rw [toNat_kbMask]
      omega
  | decCount =>
      simp only [hpc, Ps2Pc.headAt, Ps2Pc.taken] at hhead hcount
      obtain ⟨hlo, hx⟩ := hi.reading (Or.inr (Or.inr (Or.inl hpc)))
      refine ⟨lo, idx, ?_⟩
      simp only [Ps2State.insn, hpc]
      refine ⟨hq, hhead, ?_, fun _ => hlo, fun _ => hx⟩
      show (s.count - 1).toNat + lo + 1 = s.received.length
      bv_omega
  | movItem =>
      simp only [hpc, Ps2Pc.headAt, Ps2Pc.taken] at hhead hcount
      obtain ⟨hlo, hx⟩ := hi.reading (Or.inr (Or.inr (Or.inr hpc)))
      refine ⟨lo + 1, idx ++ [lo], ?_⟩
      simp only [Ps2State.insn, hpc]
      refine ⟨hq.take hlo hx, hhead, ?_, False.elim, hno nofun nofun nofun nofun⟩
      show s.count.toNat + (lo + 1) + 0 = s.received.length
      omega

/-! ## An interrupt -/

/-- A code that has arrived, while the ring has room or has dropped its oldest. -/
theorem Queue.put {buff : U32 → U8} {tail : U32} {rcv : List U8} {ret : List U32}
    (hq : Queue buff tail rcv ret lo idx) (al : U8) {lo' : Nat} (hle : lo' ≤ rcv.length)
    (hlo : lo' = lo ∧ rcv.length < lo + 32 ∨ lo' = lo + 1 ∧ rcv.length = lo + 32) :
    Queue (update buff tail al) ((tail + 1) &&& (kbBufSize - 1)) (rcv ++ [al]) ret lo' idx := by
  obtain ⟨⟨horder, hbound, hvalues⟩, hbefore, hlost, hroom, htail, hslot⟩ := hq
  have hlen : (rcv ++ [al]).length = rcv.length + 1 := List.length_append
  have hold : ∀ j < rcv.length, (rcv ++ [al]).getD j 0 = rcv.getD j 0 := fun j hj =>
    List.getD_append rcv [al] 0 j hj
  refine ⟨⟨horder, fun i hi => ?_, ?_⟩, fun i hi => ?_, fun i hi hout => ?_, by omega, ?_, ?_⟩
  · have := hbound i hi
    omega
  · rw [hvalues]
    exact List.map_congr_left fun i hi => by rw [hold i (hbound i hi)]
  · have := hbefore i hi
    omega
  · rw [hlen]
    by_cases hc : i < lo
    · have := hlost i hc hout
      omega
    · -- it is the one that has been dropped
      omega
  · rw [toNat_kbMask, hlen]
    bv_omega
  · intro j hj1 hj2 x hx
    rw [hlen] at hj2
    by_cases hj : j = rcv.length
    · have hxt : x = tail := BitVec.eq_of_toNat_eq (by rw [hx, htail, hj])
      rw [hxt, update_self, hj, List.getD_append_right _ _ _ _ (Nat.le_refl _), Nat.sub_self]
      rfl
    · have hne : x ≠ tail := by
        rintro rfl
        omega
      rw [update_of_ne hne, hold j (by omega)]
      exact hslot j (by omega) (by omega) x hx

/-- Where no slot is being read, `head` and `count` are those of the ring. -/
theorem Ps2State.head_plain (h : ¬ ∃ x, s.Reading x) (n : Nat) :
    s.pc.headAt n = n % 32 ∧ s.pc.taken = 0 := by
  cases hpc : s.pc with
  | incHead => exact absurd ⟨s.ebx, Or.inl hpc, rfl⟩ h
  | andHead => exact absurd ⟨s.ebx, Or.inr (Or.inl hpc), rfl⟩ h
  | decCount => exact absurd ⟨s.ebx, Or.inr (Or.inr (Or.inl hpc)), rfl⟩ h
  | movItem => exact absurd ⟨s.ebx, Or.inr (Or.inr (Or.inr hpc)), rfl⟩ h
  | _ => exact ⟨rfl, rfl⟩

/-- **An interrupt** keeps the invariant, unless it writes the slot that is
being read. -/
theorem Ps2State.Inv.int (hi : s.Inv lo idx) (ho : (Ps2Move.int al).Spares s) :
    ∃ lo', ((Ps2Move.int al).run s).Inv lo' idx := by
  by_cases hm : Make al
  swap
  · refine ⟨lo, ?_⟩
    simp only [Ps2Move.run, ps2IntHandler_other _ hm, if_neg hm]
    exact hi
  obtain ⟨hq, hhead, hcount, hfound, hebx⟩ := hi
  have hroom := hq.room
  have hlen : (s.received ++ [al]).length = s.received.length + 1 := List.length_append
  have hc : s.count.toNat ≤ 32 := by omega
  simp only [Ps2Move.run, ps2IntHandler_make _ hm hc, if_pos hm]
  by_cases hfull : s.received.length = lo + 32
  · -- the oldest code is dropped: no call is reading it
    have hnot : ¬ ∃ x, s.Reading x := by
      rintro ⟨x, hx⟩
      have htail := hq.tail
      have hlo := hebx ⟨x, hx⟩
      exact ho hm ⟨hx.1, BitVec.eq_of_toNat_eq (by omega)⟩
    have hplain := Ps2State.head_plain hnot
    rw [(hplain lo).1] at hhead
    rw [(hplain lo).2] at hcount
    have h32 : ¬ s.count.toNat < 32 := by omega
    rw [if_neg h32, if_neg h32]
    refine ⟨lo + 1, hq.put al (by omega) (Or.inr ⟨rfl, hfull⟩), ?_, ?_, fun _ => ?_,
      fun ⟨x, hx⟩ => absurd ⟨x, hx⟩ hnot⟩
    · rw [(hplain (lo + 1)).1, toNat_kbMask]
      bv_omega
    · show s.count.toNat + (lo + 1) + s.pc.taken = (s.received ++ [al]).length
      rw [(hplain 0).2, hlen]
      omega
    · show lo + 1 < (s.received ++ [al]).length
      rw [hlen]
      omega
  · -- there is room
    by_cases h32 : s.count.toNat < 32
    · rw [if_pos h32, if_pos h32]
      refine ⟨lo, hq.put al (by omega) (Or.inl ⟨rfl, by omega⟩), hhead, ?_, fun h => ?_, hebx⟩
      · show (s.count + 1).toNat + lo + s.pc.taken = (s.received ++ [al]).length
        rw [hlen]
        bv_omega
      · have hlt := hfound h
        show lo < (s.received ++ [al]).length
        omega
    · omega

/-! ## What calls still get -/

theorem Ps2State.insn_received (s : Ps2State) : s.insn.received = s.received := by
  rw [Ps2State.insn]
  cases s.pc <;> rfl

theorem Ps2State.Inv.alone (hi : s.Inv lo idx) (n : Nat) :
    (∃ lo' idx', (s.alone n).Inv lo' idx') ∧ (s.alone n).received = s.received := by
  induction n generalizing s lo idx with
  | zero => exact ⟨⟨lo, idx, hi⟩, rfl⟩
  | succ n ih =>
      obtain ⟨lo', idx', hi'⟩ := hi.insn
      obtain ⟨h1, h2⟩ := ih hi'
      exact ⟨h1, h2.trans s.insn_received⟩

theorem Ps2State.alone_add (s : Ps2State) (m n : Nat) : s.alone (m + n) = (s.alone m).alone n := by
  induction m generalizing s with
  | zero => rw [Nat.zero_add]; rfl
  | succ m ih =>
      rw [Nat.succ_add]
      exact ih s.insn

/-- How many instructions there are to the end of the call, at most. -/
def Ps2Pc.toGo : Ps2Pc → Nat
  | .xorEax => 0
  | .movCount => 9
  | .testCount => 8
  | .jz => 7
  | .movHead => 6
  | .incHead => 5
  | .andHead => 4
  | .decCount => 3
  | .movItem => 2
  | .ret => 1

theorem Ps2State.toGo_insn (h : s.pc ≠ .xorEax) : s.insn.pc.toGo < s.pc.toGo := by
  rw [Ps2State.insn]
  cases hpc : s.pc with
  | xorEax => exact absurd hpc h
  | jz =>
      simp only
      split <;> decide
  | _ =>
      simp only
      decide

/-- The call ends. -/
theorem Ps2State.ends (s : Ps2State) : ∃ n, (s.alone n).pc = .xorEax := by
  induction hg : s.pc.toGo using Nat.strong_induction_on generalizing s with
  | _ g ih =>
      by_cases h : s.pc = .xorEax
      · exact ⟨0, h⟩
      · obtain ⟨n, hn⟩ := ih _ (hg ▸ s.toGo_insn h) s.insn rfl
        exact ⟨n + 1, hn⟩

/-- A call with nothing in between takes one code. -/
theorem Ps2State.call_count (h : s.pc = .xorEax) (h0 : s.count ≠ 0) :
    (s.alone 10).pc = .xorEax ∧ (s.alone 10).count = s.count - 1 := by
  have hz : (s.count == 0) = false := beq_false_of_ne h0
  simp only [Ps2State.alone, Ps2State.insn, h, hz, Bool.false_eq_true, if_false]
  exact ⟨trivial, trivial⟩

/-- Calls empty the ring. -/
theorem Ps2State.drains (s : Ps2State) : ∃ n, (s.alone n).Drained := by
  obtain ⟨m, hm⟩ := s.ends
  suffices hcalls : ∀ t : Ps2State, t.pc = .xorEax → ∃ n, (t.alone n).Drained by
    obtain ⟨n, hn⟩ := hcalls _ hm
    exact ⟨m + n, by rw [s.alone_add]; exact hn⟩
  intro t ht
  induction hc : t.count.toNat generalizing t with
  | zero => exact ⟨0, ht, BitVec.eq_of_toNat_eq hc⟩
  | succ c ih =>
      have h0 : t.count ≠ 0 := by
        intro h0
        rw [h0] at hc
        cases hc
      obtain ⟨hpc, hcount⟩ := t.call_count ht h0
      obtain ⟨n, hn⟩ := ih _ hpc (by rw [hcount]; bv_omega)
      exact ⟨10 + n, by rw [t.alone_add]; exact hn⟩

theorem Ps2State.Inv.inOrder (hi : s.Inv lo idx) : s.InOrder := by
  refine ⟨⟨idx, hi.queue.picks⟩, ?_⟩
  obtain ⟨n, hpc, hzero⟩ := s.drains
  obtain ⟨⟨lo', idx', hi'⟩, hrcv⟩ := hi.alone n
  refine ⟨n, idx', ⟨hpc, hzero⟩, hrcv ▸ hi'.queue.picks, fun i hlt hout => ?_⟩
  have hcount := hi'.count
  simp only [hpc, hzero, Ps2Pc.taken, hrcv] at hcount
  have hlo : lo' = s.received.length := by
    rw [← hcount]
    exact (Nat.zero_add lo').symm
  rw [← hrcv]
  exact hi'.queue.lost i (hlo ▸ hlt) hout

/-- **The queue under interrupts**: in every state of every interleaving in
which no interrupt writes the slot that is being read, the codes returned are
codes received, in order and each once, and a code is lost only to 32 later
ones. -/
theorem ps2Run_inOrder (h : Reach Ps2Start (Guarded Ps2Move.Spares Ps2Step) s) : s.InOrder := by
  have hinv : ∃ lo idx, s.Inv lo idx := by
    refine Reach.invariant (fun s : Ps2State => ∃ lo idx, s.Inv lo idx) (fun s hs => ⟨0, [], hs.inv⟩)
      (fun m s s' hs hstep => ?_) h
    obtain ⟨lo, idx, hi⟩ := hs
    obtain ⟨ho, rfl⟩ := hstep
    cases m with
    | insn => exact hi.insn
    | int al =>
        obtain ⟨lo', hi'⟩ := hi.int ho
        exact ⟨lo', idx, hi'⟩
  obtain ⟨lo, idx, hi⟩ := hinv
  exact hi.inOrder

/-! ## Runs -/

/-- An empty queue, and the first call. -/
def idlePs2 : Ps2State := ⟨⟨fun _ => 0, 0, 0, 0⟩, .xorEax, 0, 0, 0, false, [], []⟩

theorem idlePs2_start : Ps2Start idlePs2 := ⟨⟨idlePs2.toPs2, rfl⟩, rfl, rfl, rfl⟩

theorem reach_alone (h : Reach Ps2Start (Guarded Ps2Move.Spares Ps2Step) s) (n : Nat) :
    Reach Ps2Start (Guarded Ps2Move.Spares Ps2Step) (s.alone n) := by
  induction n generalizing s with
  | zero => exact h
  | succ n ih =>
      have hstep : Guarded Ps2Move.Spares Ps2Step .insn s s.insn := ⟨trivial, rfl⟩
      exact ih (.next h hstep)

/-- One code, and the call that returns it. -/
theorem ps2Run_inOrder_one : (((Ps2Move.int 30).run idlePs2).alone 10).returned = [30] ∧
    (((Ps2Move.int 30).run idlePs2).alone 10).InOrder := by
  have hspares : (Ps2Move.int 30).Spares idlePs2 := fun _ h => by
    rcases h.1 with h | h | h | h <;> cases h
  exact ⟨by decide, ps2Run_inOrder (reach_alone (.next (.start idlePs2_start) ⟨hspares, rfl⟩) 10)⟩

/-- The codes 1 to 32 fill the ring; 33 comes after a call has read `head`; and
the next call. -/
def overwriting : List Ps2Move :=
  (List.range 32).map (fun i => .int (BitVec.ofNat 8 (i + 1))) ++ List.replicate 5 .insn
    ++ [.int 33] ++ List.replicate 14 .insn

/-- **The handler overwrites the code that a call is about to read**: the call
returns the newest one instead, and an older one comes after it. -/
theorem ps2_overwrites : ¬ Ps2InOrder := by
  intro hall
  have hstep : ∀ (m : Ps2Move) (s : Ps2State), ∃ a, Ps2Step a s (m.run s) := fun m _ => ⟨m, rfl⟩
  have hs := hall _ (Reach.foldl hstep (.start idlePs2_start) overwriting)
  have hret : (overwriting.foldl Ps2Move.run idlePs2).returned = [33, 3] := by decide +kernel
  have hrcv : (overwriting.foldl Ps2Move.run idlePs2).received
      = (List.range 33).map fun i => BitVec.ofNat 8 (i + 1) := by decide +kernel
  obtain ⟨idx, horder, hbound, hvalues⟩ := hs.picks
  rw [hret, hrcv] at hvalues
  rw [hrcv] at hbound
  -- 33 is the last one received
  have hlast : ∀ i < 33, ((((List.range 33).map fun i => BitVec.ofNat 8 (i + 1)).getD i 0).setWidth 32
      : U32) = 33 → i = 32 := by decide
  obtain ⟨i, j, rfl⟩ := List.length_eq_two.mp (by simpa using (congrArg List.length hvalues).symm)
  have hi := hbound i List.mem_cons_self
  have hj := hbound j (List.mem_cons_of_mem i List.mem_cons_self)
  have hij := (List.pairwise_cons.mp horder).1 j List.mem_cons_self
  rw [List.length_map, List.length_range] at hi hj
  have h33 := hlast i hi (List.cons.inj hvalues).1.symm
  omega

end Tomk
