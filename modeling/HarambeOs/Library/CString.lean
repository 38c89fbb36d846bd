import Mathlib

/-!
# Library/CString — strings that end at a terminator

A string in memory `m : ℕ → β` is what comes before the first cell that holds the terminator `z`.
`length z m n` is its length and `text z m n` the string as a list, read no further than `n` cells,
so that a field of `n` cells with no terminator in it is a string of length `n`.

`length_eq_iff` pins the length; reading a longer field extends the text (`take_text`), and a list
without terminator is a prefix of the text exactly when the memory begins with it
(`isPrefix_text_iff`).
-/

namespace CString

variable {β : Type*} [DecidableEq β] (z : β)

/-- The cells before the first terminator, of the first `n`. -/
def length (m : ℕ → β) (n : ℕ) : ℕ := ((List.range n).find? fun j => m j == z).getD n

/-- The string as a list. -/
def text (m : ℕ → β) (n : ℕ) : List β := (List.range (length z m n)).map m

variable {z} {m : ℕ → β} {n k : ℕ}

theorem length_eq_iff :
    length z m n = k ↔ k ≤ n ∧ (∀ j < k, m j ≠ z) ∧ (k < n → m k = z) := by
  have huniq {k' : ℕ} (h : k ≤ n ∧ (∀ j < k, m j ≠ z) ∧ (k < n → m k = z))
      (h' : k' ≤ n ∧ (∀ j < k', m j ≠ z) ∧ (k' < n → m k' = z)) : k' = k := by
    rcases Nat.lt_trichotomy k' k with hlt | rfl | hlt
    · exact absurd (h'.2.2 (by omega)) (h.2.1 k' hlt)
    · rfl
    · exact absurd (h.2.2 (by omega)) (h'.2.1 k hlt)
  have hlen : length z m n ≤ n ∧ (∀ j < length z m n, m j ≠ z) ∧
      (length z m n < n → m (length z m n) = z) := by
    rw [length]
    cases hf : (List.range n).find? fun j => m j == z with
    | none =>
      rw [List.find?_eq_none] at hf
      refine ⟨Nat.le_refl n, fun j hj hz => ?_, fun h => absurd h (Nat.lt_irrefl n)⟩
      exact hf j (List.mem_range.mpr hj) (beq_iff_eq.mpr hz)
    | some i =>
      rw [List.find?_range_eq_some] at hf
      obtain ⟨hz, hi, hbefore⟩ := hf
      refine ⟨Nat.le_of_lt (List.mem_range.mp hi), fun j hj hjz => ?_, fun _ => beq_iff_eq.mp hz⟩
      exact absurd (hbefore j hj) (by rw [beq_iff_eq.mpr hjz]; exact Bool.false_ne_true)
  constructor
  · rintro rfl
    exact hlen
  · exact fun h => huniq h hlen

/-- No terminator before the end. -/
theorem ne_of_lt_length {j : ℕ} (h : j < length z m n) : m j ≠ z := (length_eq_iff.mp rfl).2.1 j h

/-- A terminator at the end, unless the field ends first. -/
theorem eq_of_length_lt (h : length z m n < n) : m (length z m n) = z :=
  (length_eq_iff.mp rfl).2.2 h

/-- The length in a shorter field. -/
theorem length_of_le (h : k ≤ n) : length z m k = min k (length z m n) := by
  refine length_eq_iff.mpr ⟨Nat.min_le_left .., fun j hj => ?_, fun hlt => ?_⟩
  · exact ne_of_lt_length (Nat.lt_of_lt_of_le hj (Nat.min_le_right ..))
  · have hmin : min k (length z m n) = length z m n := by omega
    rw [hmin] at hlt ⊢
    exact eq_of_length_lt (Nat.lt_of_lt_of_le hlt h)

theorem length_text : (text z m n).length = length z m n := by
  rw [text, List.length_map, List.length_range]

theorem getElem_text {i : ℕ} (h : i < (text z m n).length) : (text z m n)[i] = m i := by
  simp only [text, List.getElem_map, List.getElem_range]

theorem notMem_text : z ∉ text z m n := by
  intro hz
  obtain ⟨j, hj, hmj⟩ := List.mem_map.mp hz
  exact ne_of_lt_length (List.mem_range.mp hj) hmj

/-- **A prefix of the text** is a list without terminator that the memory begins with. -/
theorem isPrefix_text_iff {l : List β} (hz : z ∉ l) (hn : l.length ≤ n) :
    l <+: text z m n ↔ ∀ i (h : i < l.length), l[i] = m i := by
  constructor
  · intro hp i hi
    rw [hp.getElem hi, getElem_text]
  · intro h
    have hlen : l.length ≤ length z m n := by
      by_contra hlt
      have hlt : length z m n < l.length := by omega
      have hend := eq_of_length_lt (Nat.lt_of_lt_of_le hlt hn)
      exact hz (hend ▸ h _ hlt ▸ List.getElem_mem hlt)
    rw [List.prefix_iff_eq_take]
    refine List.ext_getElem ?_ fun i hi _ => ?_
    · rw [List.length_take, length_text]
      omega
    · rw [List.getElem_take, getElem_text, h i hi]

/-- **The text is a list without terminator** that the memory holds, with a terminator after it. -/
theorem text_eq {l : List β} (hz : z ∉ l) (hn : l.length ≤ n)
    (hl : ∀ i (h : i < l.length), m i = l[i]) (hend : l.length < n → m l.length = z) :
    text z m n = l := by
  have hlen : length z m n = l.length := by
    refine length_eq_iff.mpr ⟨hn, fun j hj hjz => ?_, hend⟩
    exact hz (hjz ▸ hl j hj ▸ List.getElem_mem hj)
  refine List.ext_getElem (length_text.trans hlen) fun i _ hi => ?_
  rw [getElem_text, hl i hi]

/-- A list without terminator, in memory with terminators after it. -/
theorem text_getD {l : List β} (h : z ∉ l) (hn : l.length ≤ n) :
    text z (fun i => l.getD i z) n = l :=
  text_eq h hn (fun _ hi => List.getD_eq_getElem _ _ hi)
    fun _ => List.getD_eq_default _ _ (Nat.le_refl _)

end CString
