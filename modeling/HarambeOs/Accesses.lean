import HarambeOs.ReadData

/-!
# Accesses — what `read_data` reads of the image

`read_data` looks at the inode before it has tested its number, copies as many pointers as the image
has data blocks, and fetches each byte as a 32-bit word.  `Image.reads` lists the words it reads;
the part of the loop is `Blocks.trace` (`walkReads_eq`).  **`Image.reads_inside_iff`** says when all
of them are in the image and the pointers are those of an inode.
-/

namespace HarambeOs

open Blocks

namespace Image

variable {img : Image}

/-- The bytes of an image: the boot block, the inodes and the data blocks. -/
def size (img : Image) : Nat := (1 + img.numInode + img.numData) * blockSize

/-- Where an inode's block is looked for, from the start of the image.  The product is one of 32-bit
words. -/
def inodeAddr (inode : Nat) : Nat := (blockSize + inode * blockSize) % 2 ^ 32

/-- A 32-bit word that is read: one of the boot block, the length or a pointer of the inode at
`base`, or the word at a byte of data. -/
inductive Read
  | header (a : Nat)
  | length (base : Nat)
  | slot (base j : Nat)
  | data (a : Nat)

/-- Its address, from the start of the image. -/
def Read.addr : Read → Nat
  | header a => a
  | length base => base
  | slot base j => base + (j + 1) * 4
  | data a => a

/-- What the loop reads, for `tempLen` bytes. -/
def walkReads (img : Image) (inode : Nat) : (tempLen : Nat) → Walk → List Read
  | 0, _ => []
  | n + 1, s =>
    .data (s.dataOffset + s.k) ::
      ((if s.count + 1 = blockSize then [.slot (inodeAddr inode) (s.startIdx + 1)] else []) ++
        match img.walkByte inode s with
        | none => []
        | some s' => walkReads img inode n s')

/-- What `read_data` reads: the number of data blocks, the pointers in the loop that copies them,
the length, the first pointer, the number of inodes, and then the file. -/
def reads (img : Image) (inode offset : Nat) : List Read :=
  .header 8 :: ((List.range img.numData).map (.slot (inodeAddr inode)) ++
    [.length (inodeAddr inode), .slot (inodeAddr inode) (offset / blockSize), .header 4] ++
    if inode ≥ img.numInode then []
    else if img.data inode (offset / blockSize) < img.numData then
      img.walkReads inode (img.length inode)
        ⟨fun _ => nul, 0, 0, offset % blockSize, offset / blockSize,
          img.blockAddr (img.data inode (offset / blockSize)) + offset % blockSize⟩
    else [])

/-- The word is in the image, and a pointer is one of the 1023 of an inode. -/
structure Inside (img : Image) (r : Read) : Prop where
  bytes : ∀ i < 4, (r.addr + i) % 2 ^ 32 < img.size
  slot : ∀ base j, r = .slot base j →
    (∃ i < img.numInode, base = blockSize + i * blockSize) ∧ j ≤ 1022

/-! ## The loop -/

/-- What a step of the walk reads. -/
def readOf (img : Image) (inode : Nat) : Touch → Read
  | .cell j off => .data (img.blockAddr (img.data inode j) + off)
  | .pointer j => .slot (inodeAddr inode) j

/-- **The loop reads what the walk looks at.** -/
theorem walkReads_eq {inode n : Nat} {s : Walk} (hs : img.Aligned inode s) :
    img.walkReads inode n s =
      (trace blockSize (img.inData inode) n s.startIdx s.count).map (img.readOf inode) := by
  induction n generalizing s with
  | zero => rfl
  | succ n ih =>
    obtain ⟨hcount, haddr⟩ := hs
    rw [walkReads, trace, walkByte, List.map_cons, readOf, haddr]
    dsimp only
    refine congrArg _ ?_
    by_cases hend : s.count + 1 = blockSize
    · rw [if_pos hend, if_pos hend, if_pos hend, List.map_cons, List.singleton_append]
      refine congrArg _ ?_
      by_cases hnext : img.data inode (s.startIdx + 1) < img.numData
      · rw [if_neg (Nat.not_le.mpr hnext), if_pos (inData_iff.mpr hnext)]
        exact ih ⟨show 0 < blockSize by decide, rfl⟩
      · rw [if_pos (Nat.not_lt.mp hnext), if_neg fun h => hnext (inData_iff.mp h)]
        rfl
    · rw [if_neg hend, if_neg hend, if_neg hend, List.nil_append]
      exact ih ⟨by dsimp only; omega, by dsimp only; omega⟩

/-- Byte `o` of block `j` is one of those the loop fetches: as many as the file has, from the offset
on, as long as the pointers are data blocks. -/
def Fetches (img : Image) (inode offset j o : Nat) : Prop :=
  o < blockSize ∧ (offset ≤ j * blockSize + o ∧ j * blockSize + o < offset + img.length inode) ∧
    ∀ i, offset / blockSize ≤ i → i ≤ j → img.data inode i < img.numData

/-! ## One word -/

/-- The inode looked at is one of the image: its number counts modulo `2 ^ 20`. -/
theorem inodeAddr_iff (hfit : img.size < 2 ^ 32) {inode : Nat} :
    (∃ i < img.numInode, inodeAddr inode = blockSize + i * blockSize) ↔
      inode % 2 ^ 20 < img.numInode := by
  rw [size, blockSize] at hfit
  rw [inodeAddr, blockSize]
  constructor
  · rintro ⟨i, hi, haddr⟩
    omega
  · intro h
    exact ⟨inode % 2 ^ 20, h, by omega⟩

theorem inside_header (img : Image) {a : Nat} (ha : a + 4 ≤ blockSize) :
    img.Inside (.header a) := by
  rw [blockSize] at ha
  refine ⟨fun i hi => ?_, fun _ _ h => Read.noConfusion h⟩
  rw [Read.addr, size, blockSize]
  omega

theorem inside_length (hfit : img.size < 2 ^ 32) {base : Nat}
    (h : ∃ i < img.numInode, base = blockSize + i * blockSize) : img.Inside (.length base) := by
  obtain ⟨i, hi, rfl⟩ := h
  refine ⟨fun b hb => ?_, fun _ _ h => Read.noConfusion h⟩
  rw [size, blockSize] at hfit
  rw [Read.addr, size, blockSize]
  omega

theorem inside_slot_iff (hfit : img.size < 2 ^ 32) {base j : Nat} :
    img.Inside (.slot base j) ↔
      (∃ i < img.numInode, base = blockSize + i * blockSize) ∧ j ≤ 1022 := by
  refine ⟨fun h => h.slot base j rfl, fun h => ⟨fun b hb => ?_, fun base' j' heq => ?_⟩⟩
  · obtain ⟨⟨i, hi, rfl⟩, hj⟩ := h
    rw [size, blockSize] at hfit
    rw [Read.addr, size, blockSize]
    omega
  · obtain ⟨rfl, rfl⟩ := Read.slot.inj heq
    exact h

/-- A word at a byte of a data block, of which the other three are to be there too. -/
theorem inside_data_iff (hfit : img.size < 2 ^ 32) {d o : Nat} (hd : d < img.numData)
    (ho : o < blockSize) :
    img.Inside (.data (img.blockAddr d + o)) ↔ d * 4096 + o + 4 ≤ img.numData * 4096 := by
  rw [size, blockSize] at hfit
  rw [blockSize] at ho
  constructor
  · intro h
    have hlast := h.bytes 3 (by decide)
    rw [Read.addr, blockAddr, size, blockSize] at hlast
    omega
  · intro h
    refine ⟨fun i hi => ?_, fun _ _ h => Read.noConfusion h⟩
    rw [Read.addr, blockAddr, size, blockSize]
    omega

/-! ## All of them -/

theorem Fetches.data_lt {inode offset j o : Nat} (h : img.Fetches inode offset j o) :
    img.data inode j < img.numData := by
  obtain ⟨ho, ⟨hle, -⟩, hdata⟩ := h
  refine hdata j ?_ (Nat.le_refl j)
  rw [blockSize] at ho hle ⊢
  omega

section

variable {inode offset : Nat} (hfirst : img.data inode (offset / blockSize) < img.numData)

include hfirst

/-- The pointers the walk has passed are data blocks, and so is the first. -/
theorem passed_iff {p : Nat → Prop} :
    (∀ m, offset / blockSize < m → p m → img.inData inode m = true) ↔
      ∀ m, offset / blockSize ≤ m → p m → img.data inode m < img.numData := by
  constructor
  · intro h m hm hp
    rcases Nat.eq_or_lt_of_le hm with rfl | hlt
    · exact hfirst
    · exact inData_iff.mp (h m hlt hp)
  · exact fun h m hm hp => inData_iff.mpr (h m (Nat.le_of_lt hm) hp)

theorem cell_mem_trace_iff {j o : Nat} :
    .cell j o ∈ trace blockSize (img.inData inode) (img.length inode) (offset / blockSize)
      (offset % blockSize) ↔ img.Fetches inode offset j o := by
  rw [mem_trace_cell (Nat.mod_lt _ (by decide)), Nat.div_add_mod', passed_iff hfirst, Fetches]

theorem pointer_mem_trace_iff {j : Nat} :
    .pointer j ∈ trace blockSize (img.inData inode) (img.length inode) (offset / blockSize)
      (offset % blockSize) ↔ offset / blockSize < j ∧ img.Visits inode offset j := by
  rw [mem_trace_pointer (Nat.mod_lt _ (by decide)), Nat.div_add_mod', passed_iff hfirst, Visits]
  exact and_congr_right fun hlt => (and_iff_right (Nat.le_of_lt hlt)).symm

/-- The loop, from its first block on. -/
theorem walk_inside_iff (hfit : img.size < 2 ^ 32)
    (hinode : ∃ i < img.numInode, inodeAddr inode = blockSize + i * blockSize)
    (hstart : offset / blockSize ≤ 1022) :
    (∀ r ∈ img.walkReads inode (img.length inode) ⟨fun _ => nul, 0, 0, offset % blockSize,
        offset / blockSize, img.blockAddr (img.data inode (offset / blockSize)) +
          offset % blockSize⟩, img.Inside r) ↔
      (∀ j, img.Visits inode offset j → j ≤ 1022) ∧
        ∀ j o, img.Fetches inode offset j o →
          img.data inode j * 4096 + o + 4 ≤ img.numData * 4096 := by
  rw [walkReads_eq ⟨Nat.mod_lt _ (by decide), rfl⟩, List.forall_mem_map]
  constructor
  · intro h
    refine ⟨fun j hv => ?_, fun j o hf => ?_⟩
    · rcases Nat.eq_or_lt_of_le hv.1 with rfl | hlt
      · exact hstart
      · have hslot := h (.pointer j) ((pointer_mem_trace_iff hfirst).mpr ⟨hlt, hv⟩)
        exact ((inside_slot_iff hfit).mp hslot).2
    · have hdata := h (.cell j o) ((cell_mem_trace_iff hfirst).mpr hf)
      exact (inside_data_iff hfit hf.data_lt hf.1).mp hdata
  · rintro ⟨hpointers, hcells⟩ t ht
    cases t with
    | cell j o =>
      have hf := (cell_mem_trace_iff hfirst).mp ht
      exact (inside_data_iff hfit hf.data_lt hf.1).mpr (hcells j o hf)
    | pointer j =>
      have hv := ((pointer_mem_trace_iff hfirst).mp ht).2
      exact (inside_slot_iff hfit).mpr ⟨hinode, hpointers j hv⟩

end

/-- The pointers that are copied. -/
theorem copied_inside_iff (hfit : img.size < 2 ^ 32) {inode : Nat}
    (hinode : ∃ i < img.numInode, inodeAddr inode = blockSize + i * blockSize) :
    (∀ r ∈ (List.range img.numData).map (Read.slot (inodeAddr inode)), img.Inside r) ↔
      img.numData ≤ 1023 := by
  rw [List.forall_mem_map]
  simp only [List.mem_range, inside_slot_iff hfit, and_iff_right hinode]
  constructor
  · intro h
    by_contra hbig
    have := h 1023 (by omega)
    omega
  · intro h j hj
    omega

/-- **What `read_data` reads.**  For every image and every inode number and offset: it reads words
of the image only, of the pointers only the 1023 of an inode, and fails without touching the buffer
for a number that is too large, exactly when: the number is, modulo `2 ^ 20`, that of an inode;
there are at most 1023 data blocks; the offset is in the first 1023 blocks; and for the number of an
inode the walk stays among its pointers and fetches none of the last three bytes of the image. -/
theorem reads_inside_iff (hfit : img.size < 2 ^ 32) (inode offset : Nat) :
    ((∀ r ∈ img.reads inode offset, img.Inside r) ∧
      (img.numInode ≤ inode → ∀ buf length junk,
        img.readDataInto inode offset buf length junk = (-1, buf))) ↔
      inode % 2 ^ 20 < img.numInode ∧ img.numData ≤ 1023 ∧ offset / 4096 ≤ 1022 ∧
        (inode < img.numInode → (∀ j, img.Visits inode offset j → j ≤ 1022) ∧
          ∀ j o, img.Fetches inode offset j o →
            img.data inode j * 4096 + o + 4 ≤ img.numData * 4096) := by
  have hfails (h : img.numInode ≤ inode) (buf : Buf) (length : Nat) (junk : Buf) :
      img.readDataInto inode offset buf length junk = (-1, buf) := by
    rw [readDataInto, if_pos h]
  rw [and_iff_left hfails, reads, List.forall_mem_cons, List.forall_mem_append,
    List.forall_mem_append, List.forall_mem_cons, List.forall_mem_cons, inside_slot_iff hfit,
    ← inodeAddr_iff hfit, and_iff_right (img.inside_header (by decide)),
    and_iff_left (List.forall_mem_singleton.mpr (img.inside_header (by decide)))]
  -- The first pointer is read in any case, so the inode is one of the image.
  constructor
  · rintro ⟨⟨hcopied, -, hinode, hstart⟩, hwalk⟩
    refine ⟨hinode, (copied_inside_iff hfit hinode).mp hcopied, hstart, fun hlt => ?_⟩
    rw [if_neg (Nat.not_le.mpr hlt)] at hwalk
    by_cases hfirst : img.data inode (offset / blockSize) < img.numData
    · rw [if_pos hfirst] at hwalk
      exact (walk_inside_iff hfirst hfit hinode hstart).mp hwalk
    · refine ⟨fun j hv => ?_, fun j o hf => absurd (hf.2.2 _ (Nat.le_refl _) ?_) hfirst⟩
      · rcases Nat.eq_or_lt_of_le hv.1 with rfl | hj
        · exact hstart
        · exact absurd (hv.2.2 _ (Nat.le_refl _) hj) hfirst
      · obtain ⟨ho, hrange, -⟩ := hf
        rw [blockSize] at ho hrange ⊢
        omega
  · rintro ⟨hinode, hnum, hstart, hwalk⟩
    refine ⟨⟨(copied_inside_iff hfit hinode).mpr hnum, inside_length hfit hinode, hinode, hstart⟩,
      ?_⟩
    split
    · exact List.forall_mem_nil _
    split
    · next hlt hfirst =>
      exact (walk_inside_iff hfirst hfit hinode hstart).mpr (hwalk (Nat.not_le.mp hlt))
    · exact List.forall_mem_nil _

end Image

theorem size_sample : (Image.sample [97]).size = 20480 := by decide +kernel

/-- The file `a` of the sample disk, read from the beginning. -/
theorem reads_inside_sample :
    (∀ r ∈ (Image.sample [97]).reads 1 0, (Image.sample [97]).Inside r) ∧
      ((Image.sample [97]).numInode ≤ 1 → ∀ buf length junk,
        (Image.sample [97]).readDataInto 1 0 buf length junk = (-1, buf)) := by
  have hlen : (Image.sample [97]).length 1 = 1 := by decide +kernel
  have hdata : (Image.sample [97]).data 1 0 = 1 := by decide +kernel
  have hnum : (Image.sample [97]).numData = 2 := by decide +kernel
  have hfit : (Image.sample [97]).size < 2 ^ 32 := by
    rw [size_sample]
    decide
  refine (Image.reads_inside_iff hfit 1 0).mpr
    ⟨by decide +kernel, by rw [hnum]; decide, by decide, fun _ => ⟨fun j hv => ?_, ?_⟩⟩
  · have hle := hv.2.1
    rw [hlen, blockSize] at hle
    omega
  · rintro j o ⟨-, hrange, -⟩
    rw [hlen, blockSize] at hrange
    obtain ⟨rfl, rfl⟩ : j = 0 ∧ o = 0 := by omega
    rw [hdata, hnum]
    decide

/-- The sample disk has two inodes and five blocks.  For inode 5 the length is read from a block
past the image, before the call fails. -/
theorem reads_outside :
    Image.Read.length 24576 ∈ (Image.sample [97]).reads 5 0 ∧
    ¬ (Image.sample [97]).Inside (.length 24576) ∧
    ¬ ∀ r ∈ (Image.sample [97]).reads 5 0, (Image.sample [97]).Inside r := by
  have hmem : Image.Read.length 24576 ∈ (Image.sample [97]).reads 5 0 := by
    rw [Image.reads, show Image.inodeAddr 5 = 24576 by decide]
    exact List.mem_cons_of_mem _ (List.mem_append_left _ (List.mem_append_right _
      (List.mem_cons_self ..)))
  have hout : ¬ (Image.sample [97]).Inside (.length 24576) := by
    intro h
    have hfirst := h.bytes 0 (by decide)
    rw [size_sample] at hfirst
    exact absurd hfirst (by decide)
  exact ⟨hmem, hout, fun h => hout (h _ hmem)⟩

end HarambeOs
