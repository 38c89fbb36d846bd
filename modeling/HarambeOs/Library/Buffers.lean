import Mathlib

/-!
# Library/Buffers — a buffer written through checked accesses

A buffer is the list of its cells.  A read `m[i]?` or a `write m i b` outside of it gives no result,
so that a computation with a result has stayed inside.  `splice m p s` is the buffer with `s` laid
over it from `p` on: writes one after the other build up a splice (`splice_cons`), and
`exchange_append` is the step of an in-place reversal.
-/

namespace Buffers

variable {β : Type*}

/-- Write one cell. -/
def write (m : List β) (i : ℕ) (b : β) : Option (List β) :=
  if i < m.length then some (m.set i b) else none

/-- Exchange two cells. -/
def exchange (m : List β) (i j : ℕ) : Option (List β) := do
  let tmp ← m[j]?
  let b ← m[i]?
  let m ← write m j b
  write m i tmp

/-- The buffer with `s` laid over it from `p` on. -/
def splice (m : List β) (p : ℕ) (s : List β) : List β := m.take p ++ s ++ m.drop (p + s.length)

/-! ## Writes -/

theorem read_append (l r : List β) (a : β) : (l ++ a :: r)[l.length]? = some a := by
  rw [List.getElem?_append_right (Nat.le_refl _), Nat.sub_self, List.getElem?_cons_zero]

theorem write_append (l r : List β) (a b : β) :
    write (l ++ a :: r) l.length b = some (l ++ b :: r) := by
  rw [write, if_pos (by rw [List.length_append, List.length_cons]; omega),
    List.set_append_right _ _ (Nat.le_refl _), Nat.sub_self, List.set_cons_zero]

/-- **An exchange at both ends** of the stretch `a :: (s ++ [b])`. -/
theorem exchange_append (l s r : List β) (a b : β) :
    exchange (l ++ a :: (s ++ b :: r)) l.length (l.length + s.length + 1) =
      some (l ++ b :: (s ++ a :: r)) := by
  have hlen : (l ++ a :: s).length = l.length + s.length + 1 := by
    rw [List.length_append, List.length_cons, Nat.add_assoc]
  have hcut (x y : β) : l ++ x :: (s ++ y :: r) = (l ++ x :: s) ++ y :: r := by
    rw [List.append_assoc, List.cons_append]
  have hlast : (l ++ a :: (s ++ b :: r))[l.length + s.length + 1]? = some b := by
    rw [hcut, ← hlen, read_append]
  have hwrite : write (l ++ a :: (s ++ b :: r)) (l.length + s.length + 1) a =
      some (l ++ a :: (s ++ a :: r)) := by
    rw [hcut, ← hlen, write_append, ← hcut]
  simp only [exchange, Option.bind_eq_bind, hlast, read_append, hwrite, write_append,
    Option.bind_some]

/-! ## Splices -/

variable {m s : List β} {p : ℕ}

@[simp] theorem splice_nil (m : List β) (p : ℕ) : splice m p [] = m := by
  rw [splice, List.append_nil, List.length_nil, Nat.add_zero, List.take_append_drop]

theorem length_splice (h : p + s.length ≤ m.length) : (splice m p s).length = m.length := by
  rw [splice, List.length_append, List.length_append, List.length_take, List.length_drop]
  omega

theorem drop_splice (h : p ≤ m.length) :
    (splice m p s).drop p = s ++ m.drop (p + s.length) := by
  have hlen : (m.take p).length = p := List.length_take_of_le h
  rw [splice, List.append_assoc, List.drop_left' hlen]

/-- **A splice goes on where the last one ended.** -/
theorem splice_cons (h : p < m.length) (b : β) (t : List β) :
    splice (splice m p [b]) (p + 1) t = splice m p (b :: t) := by
  have hlen : (m.take p ++ [b]).length = p + 1 := by
    rw [List.length_append, List.length_take_of_le (by omega), List.length_singleton]
  have htake : (splice m p [b]).take (p + 1) = m.take p ++ [b] := by
    rw [splice, List.take_left' hlen]
  have hdrop : (splice m p [b]).drop (p + 1 + t.length) = m.drop (p + 1 + t.length) := by
    rw [← List.drop_drop, splice, List.drop_left' hlen, List.length_singleton, List.drop_drop]
  rw [splice, htake, hdrop, splice, List.append_assoc (m.take p), List.singleton_append,
    List.length_cons, Nat.add_assoc, Nat.add_comm 1]

/-- A write is a splice of one cell. -/
theorem write_eq (m : List β) (p : ℕ) (b : β) :
    write m p b = if p < m.length then some (splice m p [b]) else none := by
  rw [write]
  split
  · next h =>
    rw [List.set_eq_take_append_cons_drop, if_pos h, splice, List.append_assoc,
      List.singleton_append, List.length_singleton]
  · rfl

/-- **A fill**, one cell after the other. -/
theorem foldlM_write {k : ℕ} (h : p + k ≤ m.length) (b : β) :
    (List.range' p k).foldlM (fun m i => write m i b) m =
      some (splice m p (List.replicate k b)) := by
  induction k generalizing m p with
  | zero =>
    rw [List.range'_zero, List.foldlM_nil, List.replicate_zero, splice_nil]
    rfl
  | succ k ih =>
    have hp : p < m.length := by omega
    have hroom : p + 1 + k ≤ (splice m p [b]).length := by
      rw [length_splice hp]
      omega
    rw [List.range'_succ, List.foldlM_cons, write_eq, if_pos hp, Option.bind_eq_bind,
      Option.bind_some, ih hroom, splice_cons hp, List.replicate_succ]

end Buffers
