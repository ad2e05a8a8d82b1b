/-
# `strcmp.c`

The four functions are one loop: over all characters or at most `size` of them, and
with the letters as they are or all of them capital.  It stops at the first
difference, or behind the NULs.

A string is the bytes from its first one on, and a loop that goes past the last of
them has no result.  On two strings with a NUL that does not happen, and the result
is the order of the dictionary: -1, 0 or 1 for the characters compared as
`unsigned char` (`strcmp_lexicographic`).
-/
import Tomk.Libc.Printf
import Mathlib.Data.List.Basic

namespace Tomk

/-! ## The source -/

/-- The loop; with `some n`, for `n` more turns. -/
def compareLoop (fold : U8 → U8) : Option Nat → List U8 → List U8 → Option U32
  | some 0, _, _ => some 0
  | size, c1 :: s1, c2 :: s2 =>
      let c1 := fold c1
      let c2 := fold c2
      if c1 ≠ c2 then some (if c1 < c2 then -1 else 1)
      else if c1 = 0 then some 0
      else compareLoop fold (size.map (· - 1)) s1 s2
  | _, _, _ => none

/-- `if (c >= 'a' && c <= 'z') c -= 0x20;` -/
def capital (c : U8) : U8 := if ch 'a' ≤ c ∧ c ≤ ch 'z' then c - 0x20 else c

def strcmp (s1 s2 : List U8) : Option U32 := compareLoop id none s1 s2

def strncmp (s1 s2 : List U8) (size : U32) : Option U32 := compareLoop id (some size.toNat) s1 s2

def stricmp (s1 s2 : List U8) : Option U32 := compareLoop capital none s1 s2

def strincmp (s1 s2 : List U8) (size : U32) : Option U32 :=
  compareLoop capital (some size.toNat) s1 s2

/-! ## The order of the dictionary -/

/-- An order, as the functions return it. -/
def orderInt : Ordering → U32
  | .lt => -1
  | .eq => 0
  | .gt => 1

theorem orderInt_eq_zero (o : Ordering) : orderInt o = 0 ↔ o = .eq := by
  cases o <;> decide

/-- The first `size` characters. -/
def cutAt (size : Option Nat) (s : List U8) : List U8 :=
  match size with
  | none => s
  | some n => s.take n

/-- Strings in the order of the dictionary. -/
def compareText (fold : U8 → U8) (s t : List U8) : Ordering :=
  compare (s.map fun c => (fold c).toNat) (t.map fun c => (fold c).toNat)

theorem compareText_eq {fold : U8 → U8} {s t : List U8} :
    compareText fold s t = .eq ↔ s.map fold = t.map fold := by
  have hinj : Function.Injective (BitVec.toNat : U8 → Nat) := fun _ _ => BitVec.eq_of_toNat_eq
  have hmap : ∀ s : List U8, (s.map fun c => (fold c).toNat) = (s.map fold).map BitVec.toNat :=
    fun s => by rw [List.map_map]; rfl
  rw [compareText, Std.LawfulEqCmp.compare_eq_iff_eq, hmap, hmap, hinj.list_map.eq_iff]

variable {fold : U8 → U8} {s t : List U8}

/-- One turn. -/
theorem compareText_cons (c d : U8) (s t : List U8) : compareText fold (c :: s) (d :: t) =
    if fold c ≠ fold d then (if fold c < fold d then .lt else .gt) else compareText fold s t := by
  simp only [compareText, List.map_cons, List.compare_cons_cons]
  rcases Nat.lt_trichotomy (fold c).toNat (fold d).toNat with h | h | h
  · have hne : fold c ≠ fold d := fun hc => Nat.ne_of_lt h (congrArg BitVec.toNat hc)
    rw [if_pos hne, if_pos (BitVec.lt_def.mpr h), Nat.compare_eq_lt.mpr h]
    rfl
  · rw [if_neg (not_not_intro (BitVec.eq_of_toNat_eq h)), Nat.compare_eq_eq.mpr h]
    rfl
  · have hne : fold c ≠ fold d := fun hc => Nat.ne_of_gt h (congrArg BitVec.toNat hc)
    have hnlt : ¬ fold c < fold d := fun hc => Nat.lt_asymm h (BitVec.lt_def.mp hc)
    rw [if_pos hne, if_neg hnlt, Nat.compare_eq_gt.mpr h]
    rfl

theorem compareLoop_cons {size : Option Nat} (h : size ≠ some 0) (c d : U8) (s t : List U8) :
    compareLoop fold size (c :: s) (d :: t) =
      if fold c ≠ fold d then some (if fold c < fold d then -1 else 1)
      else if fold c = 0 then some 0
      else compareLoop fold (size.map (· - 1)) s t := by
  match size, h with
  | none, _ => rfl
  | some (n + 1), _ => rfl

theorem cutAt_cons {size : Option Nat} (h : size ≠ some 0) (c : U8) (s : List U8) :
    cutAt size (c :: s) = c :: cutAt (size.map (· - 1)) s := by
  match size, h with
  | none, _ => rfl
  | some (n + 1), _ => rfl

theorem cutAt_nil (size : Option Nat) : cutAt size [] = [] := by
  cases size with
  | none => rfl
  | some n => exact List.take_nil

/-- **The loop** compares two strings in the order of the dictionary.  The NUL comes
before every other character, as the end of a list does before its elements. -/
theorem compareLoop_eq (hfold : ∀ c, fold c = 0 ↔ c = 0) (hs : 0 ∉ s) (ht : 0 ∉ t) (size : Option Nat)
    (r q : List U8) : compareLoop fold size (s ++ 0 :: r) (t ++ 0 :: q)
      = some (orderInt (compareText fold (cutAt size s) (cutAt size t))) := by
  have h0 : fold 0 = 0 := (hfold 0).mpr rfl
  have hhead : ∀ {c : U8} {s : List U8}, 0 ∉ c :: s → fold c ≠ 0 := fun h hc =>
    h (((hfold _).mp hc) ▸ List.mem_cons_self)
  induction s generalizing t size with
  | nil =>
      by_cases hsize : size = some 0
      · subst hsize
        rfl
      rw [List.nil_append, cutAt_nil]
      cases t with
      | nil =>
          rw [List.nil_append, compareLoop_cons hsize, if_neg (not_not_intro rfl), if_pos h0, cutAt_nil]
          rfl
      | cons d t =>
          have hd := hhead ht
          have hlt : fold 0 < fold d := by
            rw [h0]
            exact BitVec.lt_def.mpr (Nat.pos_of_ne_zero fun h => hd (BitVec.eq_of_toNat_eq h))
          have hne : fold 0 ≠ fold d := fun h => hd (h ▸ h0)
          rw [List.cons_append, compareLoop_cons hsize, if_pos hne, if_pos hlt, cutAt_cons hsize]
          rfl
  | cons c s ih =>
      by_cases hsize : size = some 0
      · subst hsize
        rfl
      have hc := hhead hs
      cases t with
      | nil =>
          have hnlt : ¬ fold c < fold 0 := by
            rw [h0]
            exact fun h => Nat.not_lt_zero _ (BitVec.lt_def.mp h)
          have hne : fold c ≠ fold 0 := fun h => hc (h.trans h0)
          rw [List.cons_append, List.nil_append, compareLoop_cons hsize, if_pos hne, if_neg hnlt,
            cutAt_cons hsize, cutAt_nil]
          rfl
      | cons d t =>
          rw [List.cons_append, List.cons_append, compareLoop_cons hsize, cutAt_cons hsize,
            cutAt_cons hsize, compareText_cons]
          by_cases hcd : fold c = fold d
          · rw [if_neg (not_not_intro hcd), if_neg hc, if_neg (not_not_intro hcd)]
            exact ih (fun h => hs (List.mem_cons_of_mem _ h)) (fun h => ht (List.mem_cons_of_mem _ h)) _
          · rw [if_pos hcd, if_pos hcd]
            split <;> rfl

theorem capital_eq_zero (c : U8) : capital c = 0 ↔ c = 0 := by
  revert c
  decide +kernel

theorem stricmp_text (hs : 0 ∉ s) (ht : 0 ∉ t) (r q : List U8) :
    stricmp (s ++ 0 :: r) (t ++ 0 :: q) = some (orderInt (compareText capital s t)) :=
  compareLoop_eq capital_eq_zero hs ht none r q

/-- **`strcmp.c`.**  Of two strings, each with a NUL and anything behind it, the four
functions return the order in the dictionary: of the whole strings or their first
`size` characters, with the letters as they are or all of them capital.  Nothing is
read behind a NUL. -/
theorem strcmp_lexicographic (hs : 0 ∉ s) (ht : 0 ∉ t) (r q : List U8) (size : U32) :
    strcmp (s ++ 0 :: r) (t ++ 0 :: q) = some (orderInt (compareText id s t)) ∧
      strncmp (s ++ 0 :: r) (t ++ 0 :: q) size
        = some (orderInt (compareText id (s.take size.toNat) (t.take size.toNat))) ∧
      stricmp (s ++ 0 :: r) (t ++ 0 :: q) = some (orderInt (compareText capital s t)) ∧
      strincmp (s ++ 0 :: r) (t ++ 0 :: q) size
        = some (orderInt (compareText capital (s.take size.toNat) (t.take size.toNat))) :=
  have hid : ∀ c : U8, id c = 0 ↔ c = 0 := fun _ => Iff.rfl
  ⟨compareLoop_eq hid hs ht none r q, compareLoop_eq hid hs ht (some size.toNat) r q,
    stricmp_text hs ht r q, compareLoop_eq capital_eq_zero hs ht (some size.toNat) r q⟩

/-- Two names of commands, one the beginning of the other. -/
theorem strcmp_lexicographic_proc :
    strcmp (chars "proc" ++ 0 :: []) (chars "PROCLS" ++ 0 :: [])
        = some (orderInt (compareText id (chars "proc") (chars "PROCLS"))) ∧
      strncmp (chars "proc" ++ 0 :: []) (chars "PROCLS" ++ 0 :: []) 4
        = some (orderInt (compareText id ((chars "proc").take 4) ((chars "PROCLS").take 4))) ∧
      stricmp (chars "proc" ++ 0 :: []) (chars "PROCLS" ++ 0 :: [])
        = some (orderInt (compareText capital (chars "proc") (chars "PROCLS"))) ∧
      strincmp (chars "proc" ++ 0 :: []) (chars "PROCLS" ++ 0 :: []) 4
        = some (orderInt (compareText capital ((chars "proc").take 4) ((chars "PROCLS").take 4))) :=
  strcmp_lexicographic (by decide) (by decide) [] [] 4

example : strcmp (chars "proc" ++ [0]) (chars "PROCLS" ++ [0]) = some 1 ∧
    stricmp (chars "proc" ++ [0]) (chars "PROCLS" ++ [0]) = some (-1) := by decide

end Tomk
