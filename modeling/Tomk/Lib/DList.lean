/-
# Doubly linked lists

A doubly linked list with a head and a tail pointer is a ring through its null
pointer: the head is what follows null, and the tail is what precedes it.  With
`Links.next` and `Links.prev` read that way, taking a node out and putting one
in have no special cases at the ends.

`Follows f a xs z` is one direction of a list: from `a` the function `f` goes
through `xs` and arrives at `z`.  `Ring l o xs` is both directions, with `o`
for null.  Each edit of a list is an update of `next` and one of `prev`, and
the second is the first for the reversed list; so there is one lemma for taking
out (`Follows.skip`), one for putting in (`Follows.splice`), and the rules for
the edits follow (`Ring.unlink`, `Ring.insertAfter`, `Ring.append`).

`search` is the loop that goes through a list until it has found something, and
`nodes` what a loop without an end of its own goes through.
-/
import Mathlib.Data.List.Induction
import Mathlib.Data.List.Nodup
import Mathlib.Logic.Function.Basic

namespace DList

open Function

variable {α β : Type}

/-! ## One direction -/

def Follows (f : α → α) : α → List α → α → Prop
  | a, [], z => f a = z
  | a, x :: xs, z => f a = x ∧ Follows f x xs z

variable {f g : α → α} {a x y z : α} {xs ys pre post : List α}

/-- Only the links of the nodes on the way count, and not that of the end. -/
theorem Follows.congr (h : Follows f a xs z) (hg : ∀ x ∈ a :: xs, g x = f x) :
    Follows g a xs z := by
  induction xs generalizing a with
  | nil => exact (hg a List.mem_cons_self).trans h
  | cons x xs ih =>
      exact ⟨(hg a List.mem_cons_self).trans h.1,
        ih h.2 fun y hy => hg y (List.mem_cons_of_mem a hy)⟩

theorem Follows.first (h : Follows f a xs z) : f a = xs.headD z := by
  cases xs with
  | nil => exact h
  | cons x xs => exact h.1

/-- What follows a point of the list. -/
theorem Follows.after (h : Follows f a (pre ++ post) z) : f (pre.getLastD a) = post.headD z := by
  induction pre generalizing a with
  | nil =>
      cases post with
      | nil => exact h
      | cons y ys => exact h.1
  | cons x pre ih =>
      rw [List.getLastD_cons]
      exact ih h.2

theorem Follows.after_mem (h : Follows f a (pre ++ x :: post) z) : f x = post.headD z := by
  rw [List.append_cons] at h
  have := h.after
  rwa [List.getLastD_concat] at this

/-- There is one way to a point that is not passed before. -/
theorem Follows.unique (h : Follows f a xs z) (h' : Follows f a ys z) (hx : z ∉ xs) (hy : z ∉ ys) :
    xs = ys := by
  induction xs generalizing a ys with
  | nil =>
      cases ys with
      | nil => rfl
      | cons y ys =>
          have hzy : z = y := h.symm.trans h'.1
          exact absurd (hzy ▸ List.mem_cons_self) hy
  | cons x xs ih =>
      cases ys with
      | nil =>
          have hzx : z = x := h'.symm.trans h.1
          exact absurd (hzx ▸ List.mem_cons_self) hx
      | cons y ys =>
          obtain rfl : x = y := h.1.symm.trans h'.1
          exact congrArg (x :: ·)
            (ih h.2 h'.2 (fun hm => hx (List.mem_cons_of_mem x hm))
              fun hm => hy (List.mem_cons_of_mem x hm))

/-! ## Lists -/

/-- The links of the nodes; at null, the head and the tail. -/
@[ext]
structure Links (α : Type) where
  next : α → α
  prev : α → α

/-- The list `xs` between null and null. -/
structure Ring (l : Links α) (o : α) (xs : List α) : Prop where
  nodup : (o :: xs).Nodup
  next : Follows l.next o xs o
  prev : Follows l.prev o xs.reverse o

variable {l l' : Links α} {o : α}

theorem Ring.congr (h : Ring l o xs) (hn : ∀ x ∈ o :: xs, l'.next x = l.next x)
    (hp : ∀ x ∈ o :: xs, l'.prev x = l.prev x) : Ring l' o xs where
  nodup := h.nodup
  next := h.next.congr hn
  prev := h.prev.congr fun x hx => hp x <| by
    rcases List.mem_cons.mp hx with rfl | hx
    · exact List.mem_cons_self
    · exact List.mem_cons_of_mem o (List.mem_reverse.mp hx)

/-- The empty list. -/
theorem Ring.nil (hn : l.next o = o) (hp : l.prev o = o) : Ring l o [] :=
  ⟨List.nodup_singleton o, hn, hp⟩

/-- A node that is linked to itself alone. -/
theorem Ring.singleton (hx : x ≠ o) (h1 : l.next o = x) (h2 : l.next x = o) (h3 : l.prev o = x)
    (h4 : l.prev x = o) : Ring l o [x] :=
  ⟨by simpa using hx.symm, ⟨h1, h2⟩, h3, h4⟩

theorem Ring.ne (h : Ring l o xs) (hx : x ∈ xs) : x ≠ o := by
  rintro rfl
  exact (List.nodup_cons.mp h.nodup).1 hx

theorem Ring.head (h : Ring l o xs) : l.next o = xs.headD o := h.next.first

/-- The reversed list ends where the list starts. -/
theorem headD_reverse (xs : List α) (o : α) : xs.reverse.headD o = xs.getLastD o := by
  rw [List.headD_eq_head?_getD, List.head?_reverse, List.getLastD_eq_getLast?]

theorem getLastD_reverse (xs : List α) (o : α) : xs.reverse.getLastD o = xs.headD o := by
  rw [← headD_reverse, List.reverse_reverse]

theorem Ring.tail (h : Ring l o xs) : l.prev o = xs.getLastD o := by
  rw [← headD_reverse]
  exact h.prev.first

/-- The neighbours of a node. -/
theorem Ring.next_eq (h : Ring l o (pre ++ x :: post)) : l.next x = post.headD o :=
  h.next.after_mem

theorem Ring.prev_eq (h : Ring l o (pre ++ x :: post)) : l.prev x = pre.getLastD o := by
  have hp := h.prev
  rw [List.reverse_append, List.reverse_cons, List.append_assoc, List.singleton_append] at hp
  rw [← headD_reverse]
  exact hp.after_mem

/-- The links have one list. -/
theorem Ring.unique (h : Ring l o xs) (h' : Ring l o ys) : xs = ys :=
  h.next.unique h'.next (List.nodup_cons.mp h.nodup).1 (List.nodup_cons.mp h'.nodup).1

/-- The links of a list are determined by it. -/
theorem Ring.links_eq (h : Ring l o xs) (h' : Ring l' o xs) (hx : x ∈ xs) :
    l'.next x = l.next x ∧ l'.prev x = l.prev x := by
  obtain ⟨pre, post, rfl⟩ := List.append_of_mem hx
  exact ⟨h'.next_eq.trans h.next_eq.symm, h'.prev_eq.trans h.prev_eq.symm⟩

/-- No node is its own neighbour. -/
theorem Ring.next_ne (h : Ring l o xs) (hx : x ∈ xs) : l.next x ≠ x := by
  obtain ⟨pre, post, rfl⟩ := List.append_of_mem hx
  rw [h.next_eq]
  have hne := h.ne hx
  have hn := (List.nodup_cons.mp h.nodup).2
  rw [List.nodup_middle, List.nodup_cons] at hn
  cases post with
  | nil => exact hne.symm
  | cons y post =>
      rintro rfl
      exact hn.1 (List.mem_append_right pre List.mem_cons_self)

/-- A list whose head is its tail has one node. -/
theorem Ring.eq_singleton (h : Ring l o xs) (hx : x ≠ o) (hn : l.next o = x) (hp : l.prev o = x) :
    xs = [x] := by
  rw [h.head] at hn
  rw [h.tail] at hp
  cases xs with
  | nil => exact absurd hn.symm hx
  | cons y ys =>
      rw [List.headD_cons] at hn
      subst hn
      rw [List.getLastD_cons] at hp
      cases ys with
      | nil => rfl
      | cons z zs =>
          have hy := (List.nodup_cons.mp (List.nodup_cons.mp h.nodup).2).1
          rw [← hp, List.getLastD_cons] at hy
          exact absurd List.getLastD_mem_cons hy

theorem Ring.nodup_reverse (h : Ring l o xs) : (o :: xs.reverse).Nodup := by
  obtain ⟨h1, h2⟩ := List.nodup_cons.mp h.nodup
  exact List.nodup_cons.mpr ⟨fun hc => h1 (List.mem_reverse.mp hc), List.nodup_reverse.mpr h2⟩

/-- What a walk along `f` from `a` comes to, before `o`. -/
inductive Walk (f : α → α) (o a : α) : α → Prop
  | start : a ≠ o → Walk f o a a
  | next {x : α} : Walk f o a x → f x ≠ o → Walk f o a (f x)

/-- A walk along a list comes to its nodes only. -/
theorem Walk.mem (hw : Walk f o (g a) x) (h : Follows g a xs o) (hf : ∀ y ∈ xs, f y = g y) :
    x ∈ xs := by
  induction hw with
  | start hne =>
      have hafter := h.first
      cases xs with
      | nil => exact absurd hafter hne
      | cons y ys =>
          rw [show g a = y from hafter]
          exact List.mem_cons_self
  | next _ hne ih =>
      obtain ⟨pre, post, rfl⟩ := List.append_of_mem ih
      rw [hf _ ih, h.after_mem] at hne ⊢
      cases post with
      | nil => exact absurd rfl hne
      | cons y post => exact List.mem_append_right pre (List.mem_cons_of_mem _ List.mem_cons_self)

/-- A walk along a list comes to each of its nodes. -/
theorem Follows.walk (h : Follows g a xs o) (ho : o ∉ xs) (hf : ∀ y ∈ xs, f y = g y) (hx : x ∈ xs) :
    Walk f o (g a) x := by
  obtain ⟨pre, post, rfl⟩ := List.append_of_mem hx
  have hne : x ≠ o := fun hc => ho (hc ▸ hx)
  induction pre using List.reverseRecOn generalizing x post with
  | nil =>
      rw [show g a = x from h.1]
      exact .start hne
  | append_singleton pre b ih =>
      rw [List.append_assoc, List.singleton_append] at h ho hf
      have hb : b ∈ pre ++ b :: x :: post := List.mem_append_right pre List.mem_cons_self
      have hnext : f b = x := (hf b hb).trans h.after_mem
      have hw := ih (x :: post) h ho hf hb fun hc => ho (hc ▸ hb)
      rw [← hnext] at hne ⊢
      exact .next hw hne

/-! ## The two edits of one direction -/

variable [DecidableEq α]

/-- Taking `x` out. -/
theorem Follows.skip (h : Follows f a (pre ++ x :: post) z) (hn : (a :: (pre ++ x :: post)).Nodup) :
    Follows (update f (pre.getLastD a) (f x)) a (pre ++ post) z := by
  induction pre generalizing a with
  | nil =>
      obtain ⟨_, hx⟩ := h
      have hmem : ∀ y ∈ post, y ≠ a := by
        rintro y hy rfl
        exact (List.nodup_cons.mp hn).1 (List.mem_cons_of_mem x hy)
      cases post with
      | nil => exact (update_self _ _ _).trans hx
      | cons y ys =>
          refine ⟨(update_self _ _ _).trans hx.1, hx.2.congr fun w hw => ?_⟩
          exact update_of_ne (hmem w hw) _ _
  | cons b pre ih =>
      obtain ⟨hb, hrest⟩ := h
      have hcons := List.nodup_cons.mp hn
      rw [List.getLastD_cons]
      refine ⟨?_, ih hrest hcons.2⟩
      have hne : a ≠ pre.getLastD b := by
        rintro rfl
        refine hcons.1 (List.mem_append_left _ ?_)
        exact List.getLastD_mem_cons
      exact (update_of_ne hne _ _).trans hb

/-- Putting `y` in. -/
theorem Follows.splice (h : Follows f a (pre ++ post) z) (hn : (a :: (pre ++ post)).Nodup)
    (hy : y ∉ a :: (pre ++ post)) :
    Follows (update (update f y (f (pre.getLastD a))) (pre.getLastD a) y) a (pre ++ y :: post) z := by
  have hya : y ≠ pre.getLastD a := by
    rintro rfl
    refine hy ?_
    rw [← List.cons_append]
    exact List.mem_append_left _ List.getLastD_mem_cons
  induction pre generalizing a with
  | nil =>
      refine ⟨update_self _ _ _, ?_⟩
      have hfirst : update (update f y (f a)) a y y = f a :=
        (update_of_ne hya _ _).trans (update_self _ _ _)
      have hafter := h.first
      cases post with
      | nil => exact hfirst.trans hafter
      | cons w ws =>
          refine ⟨hfirst.trans hafter, h.2.congr fun v hv => ?_⟩
          have hva : v ≠ a := by
            rintro rfl
            exact (List.nodup_cons.mp hn).1 hv
          have hvy : v ≠ y := by
            rintro rfl
            exact hy (List.mem_cons_of_mem a hv)
          exact (update_of_ne hva _ _).trans (update_of_ne hvy _ _)
  | cons b pre ih =>
      obtain ⟨hb, hrest⟩ := h
      have hcons := List.nodup_cons.mp hn
      rw [List.getLastD_cons] at hya ⊢
      refine ⟨?_, ih hrest hcons.2 (fun hc => hy (List.mem_cons_of_mem a hc)) hya⟩
      have hne : a ≠ pre.getLastD b := by
        rintro rfl
        exact hcons.1 (List.mem_append_left _ List.getLastD_mem_cons)
      have hay : a ≠ y := by
        rintro rfl
        exact hy List.mem_cons_self
      exact ((update_of_ne hne _ _).trans (update_of_ne hay _ _)).trans hb

/-! ## Taking a node out -/

def Links.setNext (l : Links α) (x v : α) : Links α := ⟨update l.next x v, l.prev⟩

def Links.setPrev (l : Links α) (x v : α) : Links α := ⟨l.next, update l.prev x v⟩

/-- The neighbours of `x` are linked to each other. -/
def Links.unlink (l : Links α) (x : α) : Links α :=
  (l.setNext (l.prev x) (l.next x)).setPrev (l.next x) (l.prev x)

theorem Ring.unlink (h : Ring l o (pre ++ x :: post)) : Ring (l.unlink x) o (pre ++ post) := by
  have hnext := h.next.skip h.nodup
  have hp := h.prev
  have hrev := h.nodup_reverse
  rw [List.reverse_append, List.reverse_cons, List.append_assoc, List.singleton_append] at hp hrev
  have hprev := hp.skip hrev
  rw [getLastD_reverse] at hprev
  have hx := h.next_eq
  have hx' := h.prev_eq
  refine ⟨?_, ?_, ?_⟩
  · have hsub : (o :: (pre ++ post)).Sublist (o :: (pre ++ x :: post)) :=
      ((List.sublist_cons_self x post).append_left pre).cons_cons o
    exact hsub.nodup h.nodup
  · rw [← hx'] at hnext
    exact hnext
  · rw [← hx] at hprev
    rw [List.reverse_append]
    exact hprev

/-- The links of a node that is not in the list do not matter. -/
theorem Ring.setNext (h : Ring l o xs) (hx : x ∉ o :: xs) (v : α) : Ring (l.setNext x v) o xs :=
  h.congr (fun _ hy => update_of_ne (ne_of_mem_of_not_mem hy hx) _ _) fun _ _ => rfl

theorem Ring.setPrev (h : Ring l o xs) (hx : x ∉ o :: xs) (v : α) : Ring (l.setPrev x v) o xs :=
  h.congr (fun _ _ => rfl) fun _ hy => update_of_ne (ne_of_mem_of_not_mem hy hx) _ _

/-! ## Putting a node in -/

/-- `y` is linked in after `x`. -/
def Links.insertAfter (l : Links α) (x y : α) : Links α :=
  let l := (l.setPrev y x).setNext y (l.next x)
  (l.setPrev (l.next y) y).setNext x y

theorem Ring.insertAfter (h : Ring l o (pre ++ post)) (hy : y ∉ o :: (pre ++ post)) :
    Ring (l.insertAfter (pre.getLastD o) y) o (pre ++ y :: post) := by
  have hnext := h.next.splice h.nodup hy
  have hafter := h.next.after
  have hp := h.prev
  have hrev := h.nodup_reverse
  have hmem : y ∉ o :: (pre ++ post).reverse := by
    rw [List.mem_cons, List.mem_reverse]
    rwa [List.mem_cons] at hy
  rw [List.reverse_append] at hp hrev hmem
  have hprev := hp.splice hrev hmem
  have hbefore := hp.after
  rw [getLastD_reverse] at hprev hbefore
  rw [headD_reverse] at hbefore
  refine ⟨?_, hnext, ?_⟩
  · rw [List.mem_cons, not_or, List.mem_append, not_or] at hy
    obtain ⟨h1, h2⟩ := List.nodup_cons.mp h.nodup
    refine List.nodup_cons.mpr ⟨?_, ?_⟩
    · rw [List.mem_append, List.mem_cons, not_or, not_or]
      rw [List.mem_append, not_or] at h1
      exact ⟨h1.1, Ne.symm hy.1, h1.2⟩
    · rw [List.nodup_middle, List.nodup_cons, List.mem_append, not_or]
      exact ⟨hy.2, h2⟩
  · rw [List.reverse_append, List.reverse_cons, List.append_assoc, List.singleton_append]
    rw [hbefore] at hprev
    have hy' : (l.insertAfter (pre.getLastD o) y).prev
        = update (update l.prev y (pre.getLastD o)) (post.headD o) y := by
      show update (update l.prev y _) (update l.next y (l.next _) y) y = _
      rw [update_self, hafter]
    rw [hy']
    exact hprev

/-- `y` is linked in at the end. -/
theorem Ring.append (h : Ring l o xs) (hy : y ∉ o :: xs) :
    Ring (l.insertAfter (l.prev o) y) o (xs ++ [y]) := by
  have hring : Ring l o (xs ++ []) := by rwa [List.append_nil]
  have hnew : y ∉ o :: (xs ++ []) := by rwa [List.append_nil]
  rw [h.tail]
  exact hring.insertAfter hnew

/-! ## Going through a list -/

/-- `for (p = p; p != NULL; p = p->next)`, until `look` has found something.
No list has `fuel` nodes: a loop that takes so many turns goes round. -/
def search (next : α → α) (o : α) (look : α → Option (Option β)) : Nat → α → Option (Option β)
  | 0, _ => none
  | fuel + 1, p =>
      if p = o then some none
      else do
        match ← look p with
        | some r => pure (some r)
        | none => search next o look fuel (next p)

/-- What the loop finds is what is first in the list. -/
theorem search_follows {next : α → α} {look : α → Option (Option β)} {see : α → Option β}
    {fuel : Nat} (hf : xs.length < fuel) (ho : o ∉ xs) (h : Follows f a xs o)
    (hnext : ∀ x ∈ xs, next x = f x) (hlook : ∀ x ∈ xs, look x = some (see x)) :
    search next o look fuel (f a) = some (xs.findSome? see) := by
  induction xs generalizing a fuel with
  | nil =>
      cases fuel with
      | zero => exact absurd hf (Nat.not_lt_zero _)
      | succ fuel => rw [search, if_pos (show f a = o from h), List.findSome?_nil]
  | cons x xs ih =>
      obtain ⟨rfl, hrest⟩ := h
      cases fuel with
      | zero => exact absurd hf (Nat.not_lt_zero _)
      | succ fuel =>
          rw [List.mem_cons, not_or] at ho
          have hne : f a ≠ o := fun hc => ho.1 hc.symm
          have hrec := ih (Nat.lt_of_succ_lt_succ hf) ho.2 hrest
            (fun y hy => hnext y (List.mem_cons_of_mem _ hy))
            fun y hy => hlook y (List.mem_cons_of_mem _ hy)
          rw [search, if_neg hne, hlook _ List.mem_cons_self, hnext _ List.mem_cons_self,
            List.findSome?_cons]
          cases hs : see (f a) with
          | none => simpa [hs] using hrec
          | some r => simp

/-- The nodes that `for (p = p; p != NULL; p = p->next)` comes to. -/
def nodes (next : α → α) (o : α) : Nat → α → Option (List α)
  | 0, _ => none
  | fuel + 1, p => if p = o then some [] else (nodes next o fuel (next p)).map (p :: ·)

theorem nodes_follows {next : α → α} {fuel : Nat} (hf : xs.length < fuel) (ho : o ∉ xs)
    (h : Follows f a xs o) (hnext : ∀ x ∈ xs, next x = f x) : nodes next o fuel (f a) = some xs := by
  induction xs generalizing a fuel with
  | nil =>
      cases fuel with
      | zero => exact absurd hf (Nat.not_lt_zero _)
      | succ fuel => rw [nodes, if_pos (show f a = o from h)]
  | cons x xs ih =>
      obtain ⟨rfl, hrest⟩ := h
      cases fuel with
      | zero => exact absurd hf (Nat.not_lt_zero _)
      | succ fuel =>
          rw [List.mem_cons, not_or] at ho
          rw [nodes, if_neg fun hc => ho.1 hc.symm, hnext _ List.mem_cons_self,
            ih (Nat.lt_of_succ_lt_succ hf) ho.2 hrest fun y hy => hnext y (List.mem_cons_of_mem _ hy)]
          rfl

end DList
