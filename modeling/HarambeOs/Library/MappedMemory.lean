import Mathlib

/-!
# Library/MappedMemory — a memory written and read through an address translation

Physical memory is a function `m : ℕ → β`; a program names its cells through a translation
`tr : ℕ → Option ℕ`, undefined where nothing is mapped.  `Maps tr va pa n` says that `n` addresses
from `va` on are mapped to consecutive cells from `pa` on.  Under it a range store and a range copy
have the effect their names promise (`storeRange_apply`, `copyRange_apply`), and no other cell
moves.
-/

namespace MappedMemory

variable {β : Type*} (tr : ℕ → Option ℕ)

/-- Write one cell; an address that is not mapped is not written. -/
def store (m : ℕ → β) (va : ℕ) (b : β) : ℕ → β :=
  (tr va).elim m fun pa => Function.update m pa b

/-- Read one cell, with a value for addresses that are not mapped. -/
def load (default : β) (m : ℕ → β) (va : ℕ) : β := (tr va).elim default m

/-- Write `f 0, …, f (n - 1)` from `va` on. -/
def storeRange (m : ℕ → β) (va : ℕ) (f : ℕ → β) : ℕ → ℕ → β
  | 0 => m
  | n + 1 => store tr (storeRange m va f n) (va + n) (f n)

/-- Copy `n` cells from `src` to `dest`, one after the other. -/
def copyRange (default : β) (m : ℕ → β) (dest src : ℕ) : ℕ → ℕ → β
  | 0 => m
  | n + 1 =>
    let m' := copyRange default m dest src n
    store tr m' (dest + n) (load tr default m' (src + n))

/-- `n` addresses from `va` on are mapped to consecutive cells from `pa` on. -/
def Maps (va pa n : ℕ) : Prop := ∀ i < n, tr (va + i) = some (pa + i)

/-- No cell of the `n` addresses from `va` on is one of those from `src` on. -/
def Apart (va src n : ℕ) : Prop :=
  ∀ i < n, ∀ j < n, ∀ a, tr (va + i) = some a → tr (src + j) ≠ some a

variable {tr} {m : ℕ → β} {va pa n : ℕ}

theorem Maps.mono {n' : ℕ} (h : Maps tr va pa n) (hn : n' ≤ n) : Maps tr va pa n' :=
  fun i hi => h i (Nat.lt_of_lt_of_le hi hn)

theorem Apart.mono {src n' : ℕ} (h : Apart tr va src n) (hn : n' ≤ n) : Apart tr va src n' :=
  fun i hi j hj => h i (Nat.lt_of_lt_of_le hi hn) j (Nat.lt_of_lt_of_le hj hn)

/-- Ranges mapped to ranges that do not overlap. -/
theorem Maps.apart {src pas : ℕ} (h : Maps tr va pa n) (hs : Maps tr src pas n)
    (hdisj : pa + n ≤ pas ∨ pas + n ≤ pa) : Apart tr va src n := by
  intro i hi j hj a ha hsrc
  rw [h i hi, Option.some.injEq] at ha
  rw [hs j hj, Option.some.injEq] at hsrc
  omega

theorem store_of_eq_some (h : tr va = some pa) (b : β) :
    store tr m va b = Function.update m pa b := by
  rw [store, h]
  rfl

theorem load_of_eq_some (h : tr va = some pa) (d : β) : load tr d m va = m pa := by
  rw [load, h]
  rfl

theorem store_of_ne {a : ℕ} (h : tr va ≠ some a) (b : β) : store tr m va b a = m a := by
  rw [store]
  cases htr : tr va with
  | none => rfl
  | some pa =>
    refine Function.update_of_ne ?_ _ _
    rintro rfl
    exact h htr

/-- A range store goes by where its addresses are mapped to. -/
theorem storeRange_congr {va' : ℕ} (h : ∀ i < n, tr (va + i) = tr (va' + i)) (f : ℕ → β) :
    storeRange tr m va f n = storeRange tr m va' f n := by
  induction n with
  | zero => rfl
  | succ n ih =>
    rw [storeRange, storeRange, ih fun i hi => h i (Nat.lt_succ_of_lt hi), store, store,
      h n (Nat.lt_succ_self n)]

theorem storeRange_congr_fun {f g : ℕ → β} (h : ∀ i < n, f i = g i) :
    storeRange tr m va f n = storeRange tr m va g n := by
  induction n with
  | zero => rfl
  | succ n ih =>
    rw [storeRange, storeRange, ih fun i hi => h i (Nat.lt_succ_of_lt hi), h n (Nat.lt_succ_self n)]

/-- **A range store writes its range and nothing else.** -/
theorem storeRange_apply (h : Maps tr va pa n) (f : ℕ → β) (a : ℕ) :
    storeRange tr m va f n a = if pa ≤ a ∧ a < pa + n then f (a - pa) else m a := by
  induction n with
  | zero => rw [storeRange, if_neg (by omega)]
  | succ n ih =>
    rw [storeRange, store_of_eq_some (h n (Nat.lt_succ_self n))]
    rcases eq_or_ne a (pa + n) with rfl | hne
    · rw [Function.update_self, if_pos (by omega), Nat.add_sub_cancel_left]
    · rw [Function.update_of_ne hne, ih (h.mono (Nat.le_succ n))]
      exact if_congr (by omega) rfl rfl

/-- A cell no address of the range is mapped to is not written. -/
theorem storeRange_of_notMem {f : ℕ → β} {a : ℕ} (h : ∀ i < n, tr (va + i) ≠ some a) :
    storeRange tr m va f n a = m a := by
  induction n with
  | zero => rfl
  | succ n ih =>
    rw [storeRange, store_of_ne (h n (Nat.lt_succ_self n)),
      ih fun i hi => h i (Nat.lt_succ_of_lt hi)]

/-- A cell no address of the destination is mapped to is not written by a copy. -/
theorem copyRange_of_ne {src : ℕ} {d : β} {a : ℕ} (h : ∀ i < n, tr (va + i) ≠ some a) :
    copyRange tr d m va src n a = m a := by
  induction n with
  | zero => rfl
  | succ n ih =>
    rw [copyRange, store_of_ne (h n (Nat.lt_succ_self n)),
      ih fun i hi => h i (Nat.lt_succ_of_lt hi)]

/-- Outside the range of a copy nothing moves. -/
theorem copyRange_of_notMem {src : ℕ} {d : β} (h : Maps tr va pa n) {a : ℕ}
    (ha : a < pa ∨ pa + n ≤ a) : copyRange tr d m va src n a = m a := by
  refine copyRange_of_ne fun i hi heq => ?_
  rw [h i hi, Option.some.injEq] at heq
  omega

/-- A copy goes by where its addresses are mapped to. -/
theorem copyRange_congr {tr' : ℕ → Option ℕ} {src : ℕ} {d : β}
    (h : ∀ i < n, tr (va + i) = tr' (va + i)) (hs : ∀ i < n, tr (src + i) = tr' (src + i)) :
    copyRange tr d m va src n = copyRange tr' d m va src n := by
  induction n with
  | zero => rfl
  | succ n ih =>
    rw [copyRange, copyRange, ih (fun i hi => h i (Nat.lt_succ_of_lt hi))
      (fun i hi => hs i (Nat.lt_succ_of_lt hi)), store, store, load, load, h n (Nat.lt_succ_self n),
      hs n (Nat.lt_succ_self n)]

/-- **A copy goes on where the last one ended.** -/
theorem copyRange_add (src : ℕ) (d : β) (k w : ℕ) :
    copyRange tr d m va src (k + w) =
      copyRange tr d (copyRange tr d m va src k) (va + k) (src + k) w := by
  induction w with
  | zero => rfl
  | succ w ih => rw [← Nat.add_assoc, copyRange, ih, copyRange, Nat.add_assoc va, Nat.add_assoc src]

/-- **All read first, then all written**: as good as one after the other, if nothing that is written
is read. -/
theorem storeRange_load {src : ℕ} (d : β) (h : Apart tr va src n) :
    storeRange tr m va (fun j => load tr d m (src + j)) n = copyRange tr d m va src n := by
  induction n with
  | zero => rfl
  | succ n ih =>
    have hload : load tr d (copyRange tr d m va src n) (src + n) = load tr d m (src + n) := by
      rw [load, load]
      cases hsrc : tr (src + n) with
      | none => rfl
      | some a =>
        refine copyRange_of_ne fun i hi hdest => ?_
        exact h i (Nat.lt_succ_of_lt hi) n (Nat.lt_succ_self n) a hdest hsrc
    rw [storeRange, ih (h.mono (Nat.le_succ n)), copyRange, hload]

/-- **A copy between ranges that do not overlap writes the source over the destination**, and
nothing else. -/
theorem copyRange_apply {src pas : ℕ} {d : β} (h : Maps tr va pa n) (hs : Maps tr src pas n)
    (hdisj : pa + n ≤ pas ∨ pas + n ≤ pa) (a : ℕ) :
    copyRange tr d m va src n a = if pa ≤ a ∧ a < pa + n then m (pas + (a - pa)) else m a := by
  induction n with
  | zero => rw [copyRange, if_neg (by omega)]
  | succ n ih =>
    have hn := Nat.le_succ n
    rw [copyRange, store_of_eq_some (h n (Nat.lt_succ_self n)),
      load_of_eq_some (hs n (Nat.lt_succ_self n)),
      copyRange_of_notMem (h.mono hn) (by omega)]
    rcases eq_or_ne a (pa + n) with rfl | hne
    · rw [Function.update_self, if_pos (by omega), Nat.add_sub_cancel_left]
    · rw [Function.update_of_ne hne, ih (h.mono hn) (hs.mono hn) (by omega)]
      exact if_congr (by omega) rfl rfl

end MappedMemory
