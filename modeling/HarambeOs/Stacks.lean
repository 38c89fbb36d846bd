import HarambeOs.Files

/-!
# Stacks — where `read_data` puts the file

The PCBs of the seven slots are 8 KB apart below `MB_8`, and the kernel stack of a slot fills the
gap from below its PCB to the end of the next one.  `true_buffer` is on that stack, and is as long
as the file whatever the caller asked for.  It stays on the stack exactly when the file fits what is
left of the gap (**`Image.trueBuffer_disjoint_iff`**).
-/

namespace HarambeOs

/-- `sizeof(PCB_t)`: two words, the descriptors of four words each, and six words. -/
def pcbBytes : Nat := 2 * 4 + totalFds * (4 * 4) + 6 * 4

/-- The address of a slot's PCB. -/
def pcbAddr (q : Nat) : Nat := mb8 - q * kb8

/-- The bytes of a slot's PCB. -/
def pcbRange (q : Nat) : Set Nat := Set.Ico (pcbAddr q) (pcbAddr q + pcbBytes)

/-- A slot's kernel stack, down to the PCB of the next slot. -/
def stackRange (q : Nat) : Set Nat := Set.Ico (pcbAddr (q + 1) + pcbBytes) (stackTop q)

/-- The bytes between a slot's stack top and the next PCB. -/
def stackRoom : Nat := kb8 - b4 - pcbBytes

/-- A slot's kernel stack is nobody else's PCB. -/
theorem stackRange_disjoint_pcbRange {p q : Nat} (hp : p ≤ 7) (hq : q ≤ 7) :
    Disjoint (stackRange p) (pcbRange q) := by
  rw [Set.disjoint_left]
  rintro a ⟨hlow, hhigh⟩ ⟨hlow', hhigh'⟩
  simp only [pcbAddr, pcbBytes, stackTop, totalFds, mb8, kb8, b4] at *
  omega

/-- The kernel stacks of two slots are apart. -/
theorem stackRange_disjoint {p q : Nat} (hp : p ≤ 7) (hq : q ≤ 7) (hne : q ≠ p) :
    Disjoint (stackRange p) (stackRange q) := by
  rw [Set.disjoint_left]
  rintro a ⟨hlow, hhigh⟩ ⟨hlow', hhigh'⟩
  simp only [pcbAddr, pcbBytes, stackTop, totalFds, mb8, kb8, b4] at *
  omega

namespace Image

variable {img : Image}

/-- `true_buffer` of a `read_data` call on the stack of slot `p`, when `used` bytes are on it. -/
def trueBuffer (img : Image) (inode p used : Nat) : Set Nat :=
  Set.Ico (stackTop p - used - img.length inode) (stackTop p - used)

/-- **The buffer of `read_data`.**  For every file that the pointers of its inode can hold, and
every process, `true_buffer` keeps off the PCB and the kernel stack of every other slot exactly when
the file and what is on the stack already fit between two PCBs: 8028 bytes. -/
theorem trueBuffer_disjoint_iff {inode p used : Nat} (hsize : img.length inode ≤ 1023 * 4096)
    (h₁ : 1 ≤ p) (h₆ : p ≤ 6) (hused : used ≤ stackRoom) :
    (∀ q, 1 ≤ q → q ≤ 7 → q ≠ p → Disjoint (img.trueBuffer inode p used) (pcbRange q) ∧
      Disjoint (img.trueBuffer inode p used) (stackRange q)) ↔
      used + img.length inode ≤ 8028 := by
  have hroom : stackRoom = 8028 := rfl
  constructor
  · intro h
    by_contra hbig
    -- The last byte of the next PCB is in the buffer.
    obtain ⟨hpcb, -⟩ := h (p + 1) (by omega) (by omega) (by omega)
    have hbuf : pcbAddr (p + 1) + pcbBytes - 1 ∈ img.trueBuffer inode p used := by
      rw [trueBuffer, Set.mem_Ico]
      simp only [pcbAddr, pcbBytes, stackTop, totalFds, mb8, kb8, b4]
      omega
    have hlast : pcbAddr (p + 1) + pcbBytes - 1 ∈ pcbRange (p + 1) := by
      rw [pcbRange, Set.mem_Ico]
      simp only [pcbBytes, totalFds]
      omega
    exact Set.disjoint_left.mp hpcb hbuf hlast
  · intro hfit q hq₁ hq₇ hne
    have hsub : img.trueBuffer inode p used ⊆ stackRange p := by
      refine Set.Ico_subset_Ico ?_ (Nat.sub_le ..)
      simp only [pcbAddr, pcbBytes, stackTop, totalFds, mb8, kb8, b4]
      omega
    exact ⟨(stackRange_disjoint_pcbRange (by omega) hq₇).mono_left hsub,
      (stackRange_disjoint (by omega) hq₇ hne).mono_left hsub⟩

end Image

/-- The file `a` of the sample disk, read by process 1. -/
theorem trueBuffer_disjoint_sample : (Image.sample [97]).length 1 = 1 ∧
    ∀ q, 1 ≤ q → q ≤ 7 → q ≠ 1 →
      Disjoint ((Image.sample [97]).trueBuffer 1 1 0) (pcbRange q) ∧
        Disjoint ((Image.sample [97]).trueBuffer 1 1 0) (stackRange q) := by
  have hlen : (Image.sample [97]).length 1 = 1 := by decide +kernel
  refine ⟨hlen, (Image.trueBuffer_disjoint_iff (by rw [hlen]; decide) (Nat.le_refl 1) (by decide)
    (Nat.zero_le _)).mpr (by rw [hlen]; decide)⟩

/-- One file of two blocks. -/
def twoBlocks : Image := Image.ofPieces [(0, [1, 0, 0, 0, 1, 0, 0, 0, 1]), (4096, [0, 32])]

/-- Process 1 reads one byte of it: `true_buffer` lies over the PCB of process 2. -/
theorem trueBuffer_overlaps : twoBlocks.WellFormed ∧ twoBlocks.length 0 ≤ 1023 * 4096 ∧
    pcbRange 2 ⊆ twoBlocks.trueBuffer 0 1 0 ∧
    ¬ Disjoint (twoBlocks.trueBuffer 0 1 0) (pcbRange 2) := by
  have hlen : twoBlocks.length 0 = 8192 := by decide +kernel
  have hsub : pcbRange 2 ⊆ twoBlocks.trueBuffer 0 1 0 := by
    rw [Image.trueBuffer, hlen]
    exact Set.Ico_subset_Ico (by decide) (by decide)
  have hmem : pcbAddr 2 ∈ pcbRange 2 := ⟨Nat.le_refl _, by decide⟩
  refine ⟨?_, by rw [hlen]; decide, hsub, fun hd => Set.disjoint_left.mp hd (hsub hmem) hmem⟩
  intro inode hinode j hj
  obtain rfl : inode = 0 := by
    rw [show twoBlocks.numInode = 1 by decide +kernel] at hinode
    omega
  rw [hlen, blockSize] at hj
  have hj : j = 0 ∨ j = 1 := by omega
  rcases hj with rfl | rfl
  · decide +kernel
  · decide +kernel

end HarambeOs
