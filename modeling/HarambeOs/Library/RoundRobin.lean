import Mathlib

/-!
# Library/RoundRobin — taking turns in a circle

`order a` lists everybody in the order in which a search that starts after `a` comes by them, `a`
itself last.  A turn goes to the first of them that is ready.  Those ready, in that order, are the
`turns` to come; one turn taken is the list rotated by one (`turns_next`), so the turns taken are a
prefix of it (**`Visits.isPrefix`**) and a whole round is the list itself (`Visits.eq_turns`).
-/

namespace RoundRobin

variable {α : Type*}

/-- The lists are one circle, seen from each of its points. -/
def Cyclic (order : α → List α) : Prop :=
  ∀ a x pre suf, order a = pre ++ x :: suf → order x = suf ++ (pre ++ [x])

variable (ready : α → Bool) (order : α → List α)

/-- Who has the turn after `a`. -/
def next (a : α) : Option α := (order a).find? ready

/-- Those ready, in the order of their turns after `a`. -/
def turns (a : α) : List α := (order a).filter ready

/-- One turn after the other. -/
def Visits : α → List α → Prop
  | _, [] => True
  | a, x :: xs => next ready order a = some x ∧ Visits x xs

variable {ready order} {a x : α}

/-- **One turn**: the list of turns moves on by one. -/
theorem turns_next (h : Cyclic order) (hx : next ready order a = some x) :
    ∃ l, turns ready order a = x :: l ∧ turns ready order x = l ++ [x] := by
  obtain ⟨hready, pre, suf, hsplit, hpre⟩ := List.find?_eq_some_iff_append.mp hx
  have hnone : pre.filter ready = [] := by
    refine List.filter_eq_nil_iff.mpr fun y hy => ?_
    simpa using hpre y hy
  refine ⟨suf.filter ready, ?_, ?_⟩
  · rw [turns, hsplit, List.filter_append, hnone, List.nil_append, List.filter_cons_of_pos hready]
  · rw [turns, h a x pre suf hsplit, List.filter_append, List.filter_append, hnone,
      List.nil_append, List.filter_cons_of_pos hready, List.filter_nil]

/-- **The turns taken**, up to a whole round, are the first ones of the list. -/
theorem Visits.isPrefix (h : Cyclic order) {xs : List α} (hv : Visits ready order a xs)
    (hlen : xs.length ≤ (turns ready order a).length) : xs <+: turns ready order a := by
  induction xs generalizing a with
  | nil => exact List.nil_prefix
  | cons x xs ih =>
    obtain ⟨hx, hv⟩ := hv
    obtain ⟨l, hl, hl'⟩ := turns_next h hx
    rw [hl, List.length_cons, List.length_cons, Nat.add_le_add_iff_right] at hlen
    have hxs := ih hv (by rw [hl', List.length_append]; exact Nat.le_add_right_of_le hlen)
    rw [hl'] at hxs
    rw [hl, List.cons_prefix_cons]
    exact ⟨rfl, List.prefix_of_prefix_length_le hxs (List.prefix_append l [x]) hlen⟩

/-- **A whole round.** -/
theorem Visits.eq_turns (h : Cyclic order) {xs : List α} (hv : Visits ready order a xs)
    (hlen : xs.length = (turns ready order a).length) : xs = turns ready order a :=
  (hv.isPrefix h hlen.le).eq_of_length hlen

end RoundRobin
