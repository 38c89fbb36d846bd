import Mathlib

/-!
# Library/PaddedLine — lines kept in arrays

An array of `n` cells and a count stand for a line of at most `n` characters when the cells are the
characters of the line and then blanks (`Holds`).  Writing the cell after the last character appends
to the line, blanking the last one drops it.
-/

namespace PaddedLine

variable {β : Type*} {n : ℕ}

/-- The array of a line: its characters, then blanks. -/
def pad (blank : β) (n : ℕ) (line : List β) : Fin n → β := fun i => line.getD i blank

/-- The array `cells`, used up to `count`, stands for `line`. -/
structure Holds (blank : β) (cells : Fin n → β) (count : ℕ) (line : List β) : Prop where
  count_eq : count = line.length
  length_le : line.length ≤ n
  cells_eq : cells = pad blank n line

namespace Holds

variable {blank : β} {cells : Fin n → β} {count : ℕ} {line : List β}

theorem nil (blank : β) (n : ℕ) : Holds blank (fun _ : Fin n => blank) 0 [] :=
  ⟨rfl, Nat.zero_le n, rfl⟩

/-- **The next cell written**: a character more. -/
theorem concat (h : Holds blank cells count line) (hlt : count < n) (c : β) :
    Holds blank (Function.update cells ⟨count, hlt⟩ c) (count + 1) (line ++ [c]) := by
  obtain ⟨rfl, -, rfl⟩ := h
  refine ⟨?_, ?_, ?_⟩
  · rw [List.length_append, List.length_singleton]
  · rw [List.length_append, List.length_singleton]
    exact hlt
  · ext i
    rcases lt_trichotomy (i : ℕ) line.length with hi | hi | hi
    · have hne : i ≠ ⟨line.length, hlt⟩ := fun he => Nat.ne_of_lt hi (congrArg Fin.val he)
      rw [Function.update_of_ne hne]
      exact (List.getD_append line [c] blank i hi).symm
    · have heq : i = ⟨line.length, hlt⟩ := Fin.ext hi
      rw [heq, Function.update_self, pad, List.getD_append_right _ _ _ _ le_rfl, Nat.sub_self]
      rfl
    · have hne : i ≠ ⟨line.length, hlt⟩ := fun he => Nat.ne_of_gt hi (congrArg Fin.val he)
      rw [Function.update_of_ne hne, pad, pad, List.getD_eq_default _ _ (Nat.le_of_lt hi),
        List.getD_eq_default]
      rw [List.length_append, List.length_singleton]
      exact hi

/-- **The last cell blanked**: a character less. -/
theorem dropLast (h : Holds blank cells count line) (hpos : 0 < count) (hlt : count - 1 < n) :
    Holds blank (Function.update cells ⟨count - 1, hlt⟩ blank) (count - 1) line.dropLast := by
  obtain ⟨rfl, hle, rfl⟩ := h
  refine ⟨List.length_dropLast.symm, ?_, ?_⟩
  · rw [List.length_dropLast]
    exact Nat.le_trans (Nat.sub_le _ _) hle
  · ext i
    rcases lt_or_ge (i : ℕ) (line.length - 1) with hi | hi
    · have hne : i ≠ ⟨line.length - 1, hlt⟩ := fun he => Nat.ne_of_lt hi (congrArg Fin.val he)
      rw [Function.update_of_ne hne, pad, pad, List.getD_eq_getElem?_getD,
        List.getD_eq_getElem?_getD, List.getElem?_dropLast, if_pos hi]
    · rw [pad, List.getD_eq_default line.dropLast _ (List.length_dropLast ▸ hi),
        Function.update_apply]
      split
      · rfl
      · next hne =>
        refine List.getD_eq_default _ _ ?_
        have : (i : ℕ) ≠ line.length - 1 := fun he => hne (Fin.ext he)
        omega

end Holds

/-- **Without the list**: the array stands for a line without blanks when the cells below the count
are no blanks and the others are. -/
theorem exists_holds_iff {blank : β} {cells : Fin n → β} {count : ℕ} :
    (∃ line, blank ∉ line ∧ Holds blank cells count line) ↔
      count ≤ n ∧ ∀ j : Fin n, cells j ≠ blank ↔ (j : ℕ) < count := by
  constructor
  · rintro ⟨line, hblank, rfl, hle, rfl⟩
    refine ⟨hle, fun j => ⟨fun hj => ?_, fun hj hb => ?_⟩⟩
    · by_contra hge
      exact hj (List.getD_eq_default _ _ (Nat.not_lt.mp hge))
    · rw [pad, List.getD_eq_getElem _ _ hj] at hb
      exact hblank (hb ▸ List.getElem_mem hj)
  · rintro ⟨hle, hcells⟩
    have hlen : ((List.ofFn cells).take count).length = count := by
      rw [List.length_take, List.length_ofFn, Nat.min_eq_left hle]
    refine ⟨(List.ofFn cells).take count, fun hmem => ?_, hlen.symm, hlen.trans_le hle, ?_⟩
    · obtain ⟨i, hi, hb⟩ := List.getElem_of_mem hmem
      rw [List.getElem_take, List.getElem_ofFn] at hb
      exact (hcells ⟨i, by omega⟩).mpr (hlen ▸ hi) hb
    · ext j
      rcases lt_or_ge (j : ℕ) count with hj | hj
      · rw [pad, List.getD_eq_getElem _ _ (hlen.symm ▸ hj), List.getElem_take, List.getElem_ofFn]
      · rw [pad, List.getD_eq_default _ _ (hlen.trans_le hj)]
        exact not_not.mp fun hne => Nat.not_lt.mpr hj ((hcells j).mp hne)

end PaddedLine
