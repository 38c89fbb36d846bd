import Mathlib

/-!
# Library/TextScreen — a text screen with a cursor, and its layout in memory

A screen has `rows × cols` cells, each a character with an attribute, and a cursor that cannot leave
them.  `newline` moves the cursor to the next row, or rolls the screen up by one row at the bottom;
`put` writes at the cursor and moves on.

`LaidOut m base cells` says that the cells are in the memory `m` from `base` on, row by row, each
character followed by its attribute.  Writing the two places of a cell sets the cell
(`LaidOut.setCell`), and moving every row one up in memory rolls the screen (`LaidOut.roll`).
-/

namespace TextScreen

variable {rows cols : ℕ} {β : Type*}

/-- A screen and the position of its cursor. -/
structure Screen (rows cols : ℕ) (β : Type*) where
  cells : Fin rows → Fin cols → β × β
  row : Fin rows
  col : Fin cols

/-- What a program can send to a screen. -/
inductive Glyph (β : Type*)
  | newline
  | char (c : β)

/-- One cell changed. -/
def setCell (cells : Fin rows → Fin cols → β × β) (r : Fin rows) (c : Fin cols) (v : β × β) :
    Fin rows → Fin cols → β × β :=
  fun r' c' => if r' = r ∧ c' = c then v else cells r' c'

/-- Every row one up, the last one blank, all attributes reset. -/
def roll (blank attr : β) (cells : Fin rows → Fin cols → β × β) : Fin rows → Fin cols → β × β :=
  fun r c => (if h : (r : ℕ) + 1 < rows then (cells ⟨r + 1, h⟩ c).1 else blank, attr)

namespace Screen

/-- The first column. -/
def home (s : Screen rows cols β) : Fin cols := ⟨0, Nat.zero_lt_of_lt s.col.isLt⟩

/-- The next row, or the last one with the screen rolled up. -/
def newline (blank attr : β) (s : Screen rows cols β) : Screen rows cols β :=
  if h : (s.row : ℕ) + 1 < rows then ⟨s.cells, ⟨s.row + 1, h⟩, s.home⟩
  else ⟨roll blank attr s.cells, s.row, s.home⟩

/-- The next column, or the next row. -/
def advance (blank attr : β) (s : Screen rows cols β) : Screen rows cols β :=
  if h : (s.col : ℕ) + 1 < cols then ⟨s.cells, s.row, ⟨s.col + 1, h⟩⟩ else s.newline blank attr

/-- A character at the cursor. -/
def put (blank attr : β) (s : Screen rows cols β) (c : β) : Screen rows cols β :=
  advance blank attr ⟨setCell s.cells s.row s.col (c, attr), s.row, s.col⟩

/-- One glyph. -/
def feed (blank attr : β) (s : Screen rows cols β) : Glyph β → Screen rows cols β
  | .newline => s.newline blank attr
  | .char c => s.put blank attr c

end Screen

/-! ## The layout in memory -/

/-- The cells are in memory, from `base` on. -/
def LaidOut (m : ℕ → β) (base : ℕ) (cells : Fin rows → Fin cols → β × β) : Prop :=
  ∀ (r : Fin rows) (c : Fin cols), m (base + 2 * (cols * r + c)) = (cells r c).1 ∧
    m (base + 2 * (cols * r + c) + 1) = (cells r c).2

/-- Different cells are at different places. -/
theorem index_injective {r r' : ℕ} {c c' : Fin cols} (h : cols * r + c = cols * r' + c') :
    r = r' ∧ c = c' := by
  have hpos : 0 < cols := Nat.zero_lt_of_lt c.isLt
  have hdiv := congrArg (· / cols) h
  have hmod := congrArg (· % cols) h
  simp only [Nat.mul_add_div hpos, Nat.div_eq_of_lt c.isLt, Nat.div_eq_of_lt c'.isLt] at hdiv
  simp only [Nat.mul_add_mod, Nat.mod_eq_of_lt c.isLt, Nat.mod_eq_of_lt c'.isLt] at hmod
  exact ⟨hdiv, Fin.ext hmod⟩

/-- A cell is inside the screen. -/
theorem index_lt (r : Fin rows) (c : Fin cols) : cols * r + c < cols * rows :=
  calc cols * r + c < cols * r + cols := Nat.add_lt_add_left c.isLt _
    _ = cols * (r + 1) := (Nat.mul_succ cols r).symm
    _ ≤ cols * rows := Nat.mul_le_mul_left cols r.isLt

namespace LaidOut

variable {m m' : ℕ → β} {base : ℕ} {cells : Fin rows → Fin cols → β × β}

/-- **A character and its attribute written.** -/
theorem setCell (h : LaidOut m base cells) (r : Fin rows) (c : Fin cols) (v : β × β) :
    LaidOut (Function.update (Function.update m (base + 2 * (cols * r + c)) v.1)
      (base + 2 * (cols * r + c) + 1) v.2) base (setCell cells r c v) := by
  intro r' c'
  rw [TextScreen.setCell]
  split
  · next heq =>
    obtain ⟨rfl, rfl⟩ := heq
    exact ⟨by rw [Function.update_of_ne (by omega), Function.update_self], Function.update_self ..⟩
  · next hne =>
    have hidx : cols * (r' : ℕ) + c' ≠ cols * r + c := by
      intro hi
      obtain ⟨hr, hc⟩ := index_injective hi
      exact hne ⟨Fin.ext hr, hc⟩
    rw [Function.update_of_ne (by omega), Function.update_of_ne (by omega),
      Function.update_of_ne (by omega), Function.update_of_ne (by omega)]
    exact h r' c'

/-- **Every row moved one up in memory.** -/
theorem roll (h : LaidOut m base cells) {blank attr : β}
    (hm : ∀ i < 2 * (cols * rows), m' (base + i) = if i % 2 = 1 then attr
      else if i / 2 < cols * (rows - 1) then m (base + 2 * (i / 2 + cols)) else blank) :
    LaidOut m' base (roll blank attr cells) := by
  intro r c
  have hlt := index_lt r c
  have hrow : cols * (r : ℕ) + c < cols * (rows - 1) ↔ (r : ℕ) + 1 < rows := by
    constructor
    · intro hi
      by_contra hr
      have : rows - 1 ≤ r := by omega
      exact absurd (Nat.mul_le_mul_left cols this) (by omega)
    · intro hr
      have hle : (r : ℕ) + 1 ≤ rows - 1 := by omega
      calc cols * r + c < cols * r + cols := Nat.add_lt_add_left c.isLt _
        _ = cols * (r + 1) := (Nat.mul_succ cols r).symm
        _ ≤ cols * (rows - 1) := Nat.mul_le_mul_left cols hle
  refine ⟨?_, ?_⟩
  · rw [hm _ (by omega), if_neg (by omega),
      show 2 * (cols * (r : ℕ) + c) / 2 = cols * r + c by omega]
    simp only [TextScreen.roll, hrow]
    split
    · next hr =>
      rw [show cols * (r : ℕ) + c + cols = cols * (r + 1) + c by rw [Nat.mul_succ]; omega]
      exact (h ⟨r + 1, hr⟩ c).1
    · rfl
  · rw [Nat.add_assoc, hm _ (by omega), if_pos (by omega)]
    rfl

end LaidOut

end TextScreen
