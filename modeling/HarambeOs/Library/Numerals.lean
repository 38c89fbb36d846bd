import Mathlib

/-!
# Library/Numerals — positional numerals

`numeral b n` is how `n` is written in base `b`: its digits from the highest place down, with no
leading zero, and a single zero for 0.  `value b` reads digits back, so that a numeral denotes its
number (`value_numeral`) and zeros in front of it change nothing (`value_replicate_append`).
`toDigits_eq` says that these are the numerals Lean itself prints.
-/

namespace Numerals

/-- The digits of `n` in base `b`, highest place first. -/
def numeral (b n : ℕ) : List ℕ := if n = 0 then [0] else (Nat.digits b n).reverse

/-- The number that digits denote, highest place first. -/
def value (b : ℕ) (ds : List ℕ) : ℕ := Nat.ofDigits b ds.reverse

variable {b n : ℕ}

theorem numeral_zero : numeral b 0 = [0] := if_pos rfl

theorem numeral_of_ne_zero (hn : n ≠ 0) : numeral b n = (Nat.digits b n).reverse := if_neg hn

theorem numeral_ne_nil : numeral b n ≠ [] := by
  rcases eq_or_ne n 0 with rfl | hn
  · rw [numeral_zero]
    exact List.cons_ne_nil 0 []
  · rw [numeral_of_ne_zero hn, Ne, List.reverse_eq_nil_iff]
    exact Nat.digits_ne_nil_iff_ne_zero.mpr hn

theorem value_replicate_append (k : ℕ) (ds : List ℕ) :
    value b (List.replicate k 0 ++ ds) = value b ds := by
  rw [value, List.reverse_append, List.reverse_replicate, Nat.ofDigits_append_replicate_zero, value]

/-- **A numeral denotes its number.** -/
theorem value_numeral (b n : ℕ) : value b (numeral b n) = n := by
  rcases eq_or_ne n 0 with rfl | hn
  · rw [numeral_zero, value, List.reverse_singleton, Nat.ofDigits_singleton]
  · rw [numeral_of_ne_zero hn, value, List.reverse_reverse, Nat.ofDigits_digits]

theorem lt_of_mem_numeral (hb : 1 < b) {d : ℕ} (hd : d ∈ numeral b n) : d < b := by
  rcases eq_or_ne n 0 with rfl | hn
  · rw [numeral_zero, List.mem_singleton] at hd
    omega
  · rw [numeral_of_ne_zero hn, List.mem_reverse] at hd
    exact Nat.digits_lt_base hb hd

/-- Only the numeral of 0 begins with a zero. -/
theorem eq_zero_of_head? (h : (numeral b n).head? = some 0) : n = 0 := by
  by_contra hn
  rw [numeral_of_ne_zero hn, List.head?_reverse,
    List.getLast?_eq_some_getLast (Nat.digits_ne_nil_iff_ne_zero.mpr hn)] at h
  exact Nat.getLast_digit_ne_zero b hn (Option.some.inj h)

/-- A number below `b ^ k` is written with at most `k` digits. -/
theorem length_numeral_le (hb : 1 < b) {k : ℕ} (hk : 0 < k) (h : n < b ^ k) :
    (numeral b n).length ≤ k := by
  rcases eq_or_ne n 0 with rfl | hn
  · exact hk
  · rw [numeral_of_ne_zero hn, List.length_reverse]
    exact (Nat.digits_length_le_iff hb n).mpr h

/-- The last digit, and the numeral of what is left. -/
theorem numeral_of_le (hb : 1 < b) (h : b ≤ n) :
    numeral b n = numeral b (n / b) ++ [n % b] := by
  have hn : 0 < n := by omega
  have hq : n / b ≠ 0 := by
    rw [Nat.ne_zero_iff_zero_lt]
    exact Nat.div_pos h (by omega)
  rw [numeral_of_ne_zero hn.ne', numeral_of_ne_zero hq, Nat.digits_def' hb hn, List.reverse_cons]

theorem numeral_of_lt (h : n < b) : numeral b n = [n] := by
  rcases eq_or_ne n 0 with rfl | hn
  · exact numeral_zero
  · rw [numeral_of_ne_zero hn, Nat.digits_of_lt b n hn h, List.reverse_singleton]

/-- **Lean prints the numeral.** -/
theorem toDigits_eq (hb : 1 < b) (n : ℕ) :
    Nat.toDigits b n = (numeral b n).map Nat.digitChar := by
  induction n using Nat.strong_induction_on with
  | _ n ih =>
    rcases Nat.lt_or_ge n b with hlt | hle
    · rw [Nat.toDigits_of_lt_base hlt, numeral_of_lt hlt, List.map_singleton]
    · have hlt : n / b < n := Nat.div_lt_self (by omega) hb
      rw [Nat.toDigits_of_base_le hb hle, ih _ hlt, numeral_of_le hb hle, List.map_append,
        List.map_singleton]

end Numerals
