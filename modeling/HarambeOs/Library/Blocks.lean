import Mathlib

/-!
# Library/Blocks — a stream stored in blocks, read cell by cell

A stream is cut into blocks of `size` cells; `cell j off` is the cell at offset `off` of block `j`,
and `ok j` says whether block `j` is there.  `walk` reads cell by cell and looks at `ok` each time
it comes to the end of a block, also when it has read enough by then.  `walk_eq_some` says when it
gets through, and that it then has read the stream; `mem_trace_cell` and `mem_trace_pointer` say
what it looks at, whether or not it gets through.
-/

namespace Blocks

variable {β : Type*} (size : ℕ) (ok : ℕ → Bool) (cell : ℕ → ℕ → β)

/-- The stream: cell `p` is in block `p / size`. -/
def stream (p : ℕ) : β := cell (p / size) (p % size)

/-- `n` cells from offset `off` of block `j` on. -/
def walk : (n j off : ℕ) → Option (List β)
  | 0, _, _ => some []
  | n + 1, j, off =>
    if off + 1 = size then
      if ok (j + 1) then (walk n (j + 1) 0).map (cell j off :: ·) else none
    else (walk n j (off + 1)).map (cell j off :: ·)

variable {size ok cell}

theorem stream_mul_add {j off : ℕ} (h : off < size) :
    stream size cell (j * size + off) = cell j off := by
  have hpos : 0 < size := Nat.zero_lt_of_lt h
  rw [stream, Nat.mul_comm, Nat.mul_add_div hpos, Nat.div_eq_of_lt h, Nat.add_zero,
    Nat.mul_add_mod, Nat.mod_eq_of_lt h]

/-- The cells of the stream from position `p` on. -/
def slice (size : ℕ) (cell : ℕ → ℕ → β) (p n : ℕ) : List β :=
  (List.range n).map fun i => stream size cell (p + i)

theorem length_slice (p n : ℕ) : (slice size cell p n).length = n := by
  rw [slice, List.length_map, List.length_range]

theorem slice_succ (p n : ℕ) :
    slice size cell p (n + 1) = stream size cell p :: slice size cell (p + 1) n := by
  rw [slice, List.range_succ_eq_map, List.map_cons, List.map_map, slice]
  refine congrArg _ (List.map_congr_left fun i _ => ?_)
  exact congrArg (stream size cell) (by omega)

theorem slice_add (p m n : ℕ) :
    slice size cell p (m + n) = slice size cell p m ++ slice size cell (p + m) n := by
  rw [slice, List.range_add, List.map_append, List.map_map, slice, slice]
  refine congrArg _ (List.map_congr_left fun i _ => ?_)
  exact congrArg _ (Nat.add_assoc p m i).symm

theorem take_slice (p m n : ℕ) :
    (slice size cell p n).take m = slice size cell p (min m n) := by
  rw [slice, ← List.map_take, List.take_range, slice]

/-- No later block begins inside block `j`. -/
theorem not_mul_le {i j off : ℕ} (h : off < size) (hi : j < i) : ¬ i * size ≤ j * size + off := by
  have hle := Nat.mul_le_mul_right size (Nat.succ_le_of_lt hi)
  rw [Nat.succ_mul] at hle
  omega

/-- **The walk gets through** exactly when every block it comes to is there, up to the one that
begins where it stops, and it has then read the stream. -/
theorem walk_eq_some {n j off : ℕ} {l : List β} (h : off < size) :
    walk size ok cell n j off = some l ↔
      (∀ i, j < i → i * size ≤ j * size + off + n → ok i = true) ∧
        l = slice size cell (j * size + off) n := by
  induction n generalizing j off l with
  | zero =>
    rw [walk, Option.some.injEq, eq_comm]
    exact ⟨fun hl => ⟨fun i hi hle => absurd hle (not_mul_le h hi), hl⟩, fun hl => hl.2⟩
  | succ n ih =>
    rw [walk, slice_succ, stream_mul_add h]
    split
    · next hend =>
      -- The last cell of block `j`: what is left starts at block `j + 1`.
      have hnext : j * size + off + 1 = (j + 1) * size + 0 := by
        rw [Nat.succ_mul]
        omega
      rw [hnext, ← Nat.add_assoc, Nat.add_right_comm _ n 1, hnext]
      split
      · next hok =>
        rw [Option.map_eq_some_iff]
        constructor
        · rintro ⟨l', hl', rfl⟩
          obtain ⟨hrest, rfl⟩ := (ih (Nat.zero_lt_of_lt h)).mp hl'
          refine ⟨fun i hi hi' => ?_, rfl⟩
          rcases Nat.eq_or_lt_of_le (Nat.succ_le_of_lt hi) with rfl | hlt
          · exact hok
          · exact hrest i hlt hi'
        · rintro ⟨hrest, rfl⟩
          exact ⟨_, (ih (Nat.zero_lt_of_lt h)).mpr
            ⟨fun i hi => hrest i (Nat.lt_of_succ_lt hi), rfl⟩, rfl⟩
      · next hok =>
        refine iff_of_false (Option.some_ne_none l).symm fun hrest => hok ?_
        exact hrest.1 _ (Nat.lt_succ_self j) (Nat.le_add_right ..)
    · next hend =>
      have hpos : j * size + off + (n + 1) = j * size + (off + 1) + n := by omega
      rw [Option.map_eq_some_iff, hpos]
      constructor
      · rintro ⟨l', hl', rfl⟩
        obtain ⟨hrest, rfl⟩ := (ih (by omega)).mp hl'
        exact ⟨hrest, rfl⟩
      · rintro ⟨hrest, rfl⟩
        exact ⟨_, (ih (by omega)).mpr ⟨hrest, rfl⟩, rfl⟩

/-- The walk from position `p` of the stream. -/
theorem walk_from_eq_some {n p : ℕ} {l : List β} (hsize : 0 < size) :
    walk size ok cell n (p / size) (p % size) = some l ↔
      (∀ i, p / size < i → i * size ≤ p + n → ok i = true) ∧ l = slice size cell p n := by
  rw [walk_eq_some (Nat.mod_lt p hsize), Nat.div_add_mod']

/-! ## What the walk looks at -/

/-- A cell read, or a look at whether a block is there. -/
inductive Touch
  | cell (j off : ℕ)
  | pointer (j : ℕ)

/-- What a walk of `n` cells from offset `off` of block `j` looks at, in order. -/
def trace (size : ℕ) (ok : ℕ → Bool) : (n j off : ℕ) → List Touch
  | 0, _, _ => []
  | n + 1, j, off =>
    .cell j off ::
      if off + 1 = size then
        .pointer (j + 1) :: if ok (j + 1) then trace size ok n (j + 1) 0 else []
      else trace size ok n j (off + 1)

/-- A position has one block and one offset. -/
theorem eq_of_mul_add_eq {i j o off : ℕ} (ho : o < size) (hoff : off < size)
    (h : i * size + o = j * size + off) : i = j ∧ o = off := by
  have hij : i = j := by
    rcases Nat.lt_trichotomy i j with hlt | heq | hgt
    · exact absurd (by omega) (not_mul_le ho hlt)
    · exact heq
    · exact absurd (by omega) (not_mul_le hoff hgt)
  subst hij
  exact ⟨rfl, by omega⟩

/-- Where a block ends the next begins. -/
theorem succ_mul_of_end {j off : ℕ} (hend : off + 1 = size) :
    (j + 1) * size + 0 = j * size + off + 1 := by
  rw [Nat.succ_mul]
  omega

/-- What lies after the end of a block is in a later one. -/
theorem lt_of_end {i j o off : ℕ} (hend : off + 1 = size) (ho : o < size)
    (hlt : j * size + off < i * size + o) : j < i := by
  by_contra hle
  have hmul := Nat.mul_le_mul_right size (Nat.not_lt.mp hle)
  omega

/-- What holds of the next block and of those after it. -/
theorem forall_lt_of_succ {p : ℕ → Prop} {j : ℕ} (hnext : p (j + 1)) (h : ∀ m, j + 1 < m → p m) :
    ∀ m, j < m → p m := by
  intro m hm
  rcases Nat.eq_or_lt_of_le (Nat.succ_le_of_lt hm) with rfl | hlt
  · exact hnext
  · exact h m hlt

/-- **The cells it reads**: those up to `n` on, as long as the blocks are there. -/
theorem mem_trace_cell {n j off i o : ℕ} (h : off < size) :
    .cell i o ∈ trace size ok n j off ↔ o < size ∧
      (j * size + off ≤ i * size + o ∧ i * size + o < j * size + off + n) ∧
      ∀ m, j < m → m ≤ i → ok m = true := by
  induction n generalizing j off with
  | zero =>
    rw [trace]
    exact iff_of_false List.not_mem_nil fun hc => by omega
  | succ n ih =>
    have hhead : Touch.cell i o = .cell j off → o < size ∧
        (j * size + off ≤ i * size + o ∧ i * size + o < j * size + off + (n + 1)) ∧
        ∀ m, j < m → m ≤ i → ok m = true := by
      intro heq
      obtain ⟨rfl, rfl⟩ := Touch.cell.inj heq
      exact ⟨h, by omega, fun m hm hm' => by omega⟩
    rw [trace, List.mem_cons]
    split
    · next hend =>
      have hnext := succ_mul_of_end (j := j) hend
      rw [List.mem_cons, or_iff_right (a := Touch.cell i o = .pointer (j + 1)) Touch.noConfusion]
      constructor
      · rintro (heq | hmem)
        · exact hhead heq
        split at hmem
        · next hok =>
          obtain ⟨ho, hrange, hrest⟩ := (ih (Nat.zero_lt_of_lt h)).mp hmem
          exact ⟨ho, by omega, forall_lt_of_succ (fun _ => hok) hrest⟩
        · exact absurd hmem List.not_mem_nil
      · rintro ⟨ho, hrange, hrest⟩
        rcases Nat.eq_or_lt_of_le hrange.1 with heq | hlt
        · obtain ⟨rfl, rfl⟩ := eq_of_mul_add_eq h ho heq
          exact Or.inl rfl
        · rw [if_pos (hrest (j + 1) (Nat.lt_succ_self j) (lt_of_end hend ho hlt))]
          refine Or.inr ((ih (Nat.zero_lt_of_lt h)).mpr ⟨ho, by omega, fun m hm => ?_⟩)
          exact hrest m (Nat.lt_of_succ_lt hm)
    · next hend =>
      rw [ih (by omega)]
      constructor
      · rintro (heq | ⟨ho, hrange, hrest⟩)
        · exact hhead heq
        · exact ⟨ho, by omega, hrest⟩
      · rintro ⟨ho, hrange, hrest⟩
        rcases Nat.eq_or_lt_of_le hrange.1 with heq | hlt
        · obtain ⟨rfl, rfl⟩ := eq_of_mul_add_eq h ho heq
          exact Or.inl rfl
        · exact Or.inr ⟨ho, by omega, hrest⟩

/-- **The blocks it asks for**: those that begin up to where it stops. -/
theorem mem_trace_pointer {n j off i : ℕ} (h : off < size) :
    .pointer i ∈ trace size ok n j off ↔ j < i ∧ i * size ≤ j * size + off + n ∧
      ∀ m, j < m → m < i → ok m = true := by
  induction n generalizing j off with
  | zero =>
    rw [trace]
    exact iff_of_false List.not_mem_nil fun hc => not_mul_le h hc.1 hc.2.1
  | succ n ih =>
    rw [trace, List.mem_cons, or_iff_right (a := Touch.pointer i = .cell j off) Touch.noConfusion]
    split
    · next hend =>
      have hnext := succ_mul_of_end (j := j) hend
      rw [List.mem_cons]
      constructor
      · rintro (heq | hmem)
        · obtain rfl := Touch.pointer.inj heq
          exact ⟨Nat.lt_succ_self j, by omega, fun m hm hm' => by omega⟩
        split at hmem
        · next hok =>
          obtain ⟨hi, hle, hrest⟩ := (ih (Nat.zero_lt_of_lt h)).mp hmem
          exact ⟨Nat.lt_of_succ_lt hi, by omega, forall_lt_of_succ (fun _ => hok) hrest⟩
        · exact absurd hmem List.not_mem_nil
      · rintro ⟨hi, hle, hrest⟩
        rcases Nat.eq_or_lt_of_le (Nat.succ_le_of_lt hi) with rfl | hlt
        · exact Or.inl rfl
        · rw [if_pos (hrest (j + 1) (Nat.lt_succ_self j) hlt)]
          refine Or.inr ((ih (Nat.zero_lt_of_lt h)).mpr ⟨hlt, by omega, fun m hm => ?_⟩)
          exact hrest m (Nat.lt_of_succ_lt hm)
    · next hend =>
      rw [ih (by omega)]
      exact and_congr_right fun _ => and_congr_left' (by omega)

end Blocks
