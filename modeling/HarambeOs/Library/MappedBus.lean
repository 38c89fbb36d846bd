import HarambeOs.Library.MappedMemory
import HarambeOs.Library.Processor

/-!
# Library/MappedBus — the processor on a memory behind segments and pages

A selector and an offset lead to a cell through a translation, or to none.  `Mapped tr` is the
memory of such a machine; what a byte or a double word that is read and written does to it is a
store of `MappedMemory`.
-/

namespace Processor

open MappedMemory

/-- The cell at an offset of the segment `sel`, with offsets modulo 2³². -/
def cells (tr : BitVec 16 → Word → Option ℕ) (sel : BitVec 16) (a : ℕ) : Option ℕ :=
  tr sel (BitVec.ofNat 32 a)

/-- Cells that are reached through `tr`. -/
structure Mapped (tr : BitVec 16 → Word → Option ℕ) where
  cell : ℕ → UInt8

variable {tr : BitVec 16 → Word → Option ℕ}

instance : Bus (Mapped tr) where
  byte m sel a := (MappedMemory.load (cells tr sel) 0 m.cell a.toNat).toBitVec
  store m sel a n v := ⟨storeRange (cells tr sel) m.cell a.toNat
    (fun j => ⟨BitVec.ofNat 8 (v.toNat / 256 ^ j)⟩) n⟩

/-! ## Addresses -/

theorem cells_add (sel : BitVec 16) (a : Word) (k : ℕ) :
    cells tr sel (a.toNat + k) = tr sel (a + BitVec.ofNat 32 k) := by
  rw [cells, BitVec.ofNat_add, BitVec.ofNat_toNat, BitVec.setWidth_eq]

/-- A pointer that moves on, and on. -/
theorem add_ofNat (a : Word) (k i : ℕ) :
    a + BitVec.ofNat 32 k + BitVec.ofNat 32 i = a + BitVec.ofNat 32 (k + i) := by
  rw [BitVec.add_assoc, BitVec.ofNat_add]

theorem cells_moved (sel : BitVec 16) (a : Word) (k i : ℕ) :
    cells tr sel ((a + BitVec.ofNat 32 k).toNat + i) = cells tr sel (a.toNat + k + i) := by
  rw [cells_add, Nat.add_assoc, cells_add, add_ofNat]

/-! ## What is read and written -/

/-- **A byte through `al`.** -/
theorem cell_store_append (m : Mapped tr) (sel : BitVec 16) (a : Word) (high : BitVec 24)
    (b : UInt8) : (Bus.store m sel a 1 (high ++ b.toBitVec)).cell =
      MappedMemory.store (cells tr sel) m.cell a.toNat b := by
  have hlow : BitVec.ofNat 8 ((high ++ b.toBitVec).toNat / 256 ^ 0) = b.toBitVec := by
    rw [pow_zero, Nat.div_one, BitVec.ofNat_toNat]
    exact BitVec.setWidth_append_eq_right
  change MappedMemory.store (cells tr sel) m.cell a.toNat ⟨_⟩ = _
  rw [hlow]

/-- **A double word**: all of it is read before it is written. -/
theorem cell_store_load (m : Mapped tr) (sel sel' : BitVec 16) (a b : Word) :
    (Bus.store m sel a 4 (Bus.load m sel' b)).cell =
      storeRange (cells tr sel) m.cell a.toNat
        (fun j => MappedMemory.load (cells tr sel') 0 m.cell (b.toNat + j)) 4 := by
  refine storeRange_congr_fun fun j hj => ?_
  rw [Bus.ofNat_load m sel' b hj]
  exact congrArg (Option.elim · 0 m.cell) (cells_moved sel' b j 0)

end Processor
