import HarambeOs.Files

/-!
# ReadData — the loop of `read_data`, and what its callers get

`read_data` fills `true_buffer` in a loop over four counters: the bytes copied, the position in the
block, the distance from a base address that moves to the next block at every boundary, and the
index of the pointer.  `Walk` is that state and `readDataInto` the function as it stands;
`readDataInto_eq` says that it does what `Image.readData` says.

What a caller gets are bytes of the file at the offset (`readDataInto_spec`), but as many as the
file has from its beginning: **`readDataInto_clipped_iff`** says when that is what is left of the
file.  `file_read` does not look at the result, and never passes a failure on
(`Kernel.fileRead_failure`).
-/

namespace HarambeOs

/-- `DATA_SIZE`: the pointers of an inode. -/
def dataSize : Nat := 1023

/-- A 32-bit word returned as an `int32_t`. -/
def toSigned (n : Nat) : Int := if n < 2 ^ 31 then n else n - 2 ^ 32

/-- A list written over memory, from `j` on. -/
def overlay (m : Buf) (j : Nat) (l : List UInt8) : Buf :=
  fun i => if j ≤ i then l.getD (i - j) (m i) else m i

theorem overlay_nil (m : Buf) (j : Nat) : overlay m j [] = m := by
  funext i
  exact ite_self _

theorem overlay_cons (m : Buf) (j : Nat) (b : UInt8) (l : List UInt8) :
    overlay m j (b :: l) = overlay (Function.update m j b) (j + 1) l := by
  funext i
  rw [overlay, overlay]
  rcases Nat.lt_trichotomy i j with h | rfl | h
  · rw [if_neg (by omega), if_neg (by omega), Function.update_of_ne (by omega)]
  · rw [if_pos (Nat.le_refl i), if_neg (by omega), Function.update_self, Nat.sub_self]
    rfl
  · rw [if_pos (by omega), if_pos (by omega), Function.update_of_ne (by omega),
      show i - j = i - (j + 1) + 1 by omega]
    rfl

theorem overlay_apply {m : Buf} {j i : Nat} {l : List UInt8} (h : i < l.length) :
    overlay m j l (j + i) = l.getD i nul := by
  rw [overlay, if_pos (Nat.le_add_right j i), Nat.add_sub_cancel_left, List.getD_eq_getElem _ _ h,
    List.getD_eq_getElem _ _ h]

theorem overlay_of_notMem {m : Buf} {j a : Nat} {l : List UInt8} (h : a < j ∨ j + l.length ≤ a) :
    overlay m j l a = m a := by
  rw [overlay]
  split
  · exact List.getD_eq_default _ _ (by omega)
  · rfl

/-- A longer list written over a shorter one leaves nothing of it. -/
theorem overlay_overlay {m : Buf} {j : Nat} {l l' : List UInt8} (h : l.length ≤ l'.length) :
    overlay (overlay m j l) j l' = overlay m j l' := by
  funext a
  rcases Nat.lt_or_ge a j with hlt | hge
  · rw [overlay_of_notMem (Or.inl hlt), overlay_of_notMem (Or.inl hlt),
      overlay_of_notMem (Or.inl hlt)]
  · obtain ⟨i, rfl⟩ := Nat.exists_eq_add_of_le hge
    rcases Nat.lt_or_ge i l'.length with hi | hi
    · rw [overlay_apply hi, overlay_apply hi]
    · rw [overlay_of_notMem (Or.inr (by omega)), overlay_of_notMem (Or.inr (by omega)),
        overlay_of_notMem (Or.inr (by omega))]

/-! ## The loop -/

/-- The variables of the loop: the bytes copied `j`, the distance `k` from the base address
`data_offset`, the position `count` in the block, and the index of the block's pointer. -/
structure Walk where
  trueBuffer : Buf
  j : Nat
  k : Nat
  count : Nat
  startIdx : Nat
  dataOffset : Nat

namespace Image

variable (img : Image)

/-- The address of a data block. -/
def blockAddr (dataIdx : Nat) : Nat :=
  blockSize + blockSize * img.numInode + dataIdx * blockSize

/-- The body of the loop; `none` when it returns `-1`. -/
def walkByte (inode : Nat) (s : Walk) : Option Walk :=
  let hold := img.bytes (s.dataOffset + s.k)
  let s := { s with
    trueBuffer := Function.update s.trueBuffer s.j hold
    j := s.j + 1
    k := s.k + 1
    count := s.count + 1 }
  if s.count = blockSize then
    let dataIdx := img.data inode (s.startIdx + 1)
    if dataIdx ≥ img.numData then none
    else
      some { s with
        count := 0
        k := 0
        startIdx := s.startIdx + 1
        dataOffset := img.blockAddr dataIdx }
  else some s

/-- The loop, for `tempLen` bytes. -/
def walkBytes (inode : Nat) : (tempLen : Nat) → Walk → Option Walk
  | 0, s => some s
  | n + 1, s => (img.walkByte inode s).bind (walkBytes inode n)

/-- `read_data`: the value returned and the caller's buffer after it.  `junk` is what the stack held
where `true_buffer` is. -/
def readDataInto (inode offset : Nat) (buf : Buf) (length : Nat) (junk : Buf) : Int × Buf :=
  let size := img.length inode
  let startIdx := offset / blockSize
  let initOffset := offset % blockSize
  let dataIdx := img.data inode startIdx
  if inode ≥ img.numInode then (-1, buf)
  else if dataIdx < img.numData then
    match img.walkBytes inode size
        ⟨junk, 0, 0, initOffset, startIdx, img.blockAddr dataIdx + initOffset⟩ with
    | none => (-1, buf)
    | some s =>
      if size < length then (toSigned size, fun i => if i < size then s.trueBuffer i else buf i)
      else (toSigned length, fun i => if i < length then s.trueBuffer i else buf i)
  else (-1, buf)

variable {img}

/-- The counters belong together: the next byte read is byte `count` of block `startIdx`. -/
def Aligned (img : Image) (inode : Nat) (s : Walk) : Prop :=
  s.count < blockSize ∧
    s.dataOffset + s.k = img.blockAddr (img.data inode s.startIdx) + s.count

/-- **The loop is the walk**: from aligned counters it reads the cells that `Blocks.walk` reads. -/
theorem walkBytes_eq {inode n : Nat} {s : Walk} (hs : img.Aligned inode s) :
    (img.walkBytes inode n s).map Walk.trueBuffer =
      (Blocks.walk blockSize (img.inData inode) (img.cell inode) n s.startIdx s.count).map
        (overlay s.trueBuffer s.j) := by
  induction n generalizing s with
  | zero => exact congrArg some (overlay_nil _ _).symm
  | succ n ih =>
    obtain ⟨hcount, haddr⟩ := hs
    have hbyte : img.bytes (s.dataOffset + s.k) = img.cell inode s.startIdx s.count :=
      congrArg img.bytes haddr
    rw [walkBytes, walkByte, Blocks.walk, hbyte]
    dsimp only
    split
    · -- The last byte of a block: the counters start again at the next one.
      by_cases hnext : img.data inode (s.startIdx + 1) < img.numData
      · rw [if_neg (Nat.not_le.mpr hnext), if_pos (inData_iff.mpr hnext), Option.bind_some,
          ih ⟨show 0 < blockSize by decide, rfl⟩, Option.map_map]
        exact congrArg (Option.map · _) (funext fun l => (overlay_cons ..).symm)
      · rw [if_pos (Nat.not_lt.mp hnext), if_neg fun h => hnext (inData_iff.mp h)]
        rfl
    · next hend =>
      rw [Option.bind_some, ih ⟨by dsimp only; omega, by dsimp only; omega⟩, Option.map_map]
      exact congrArg (Option.map · _) (funext fun l => (overlay_cons ..).symm)

/-- The bytes copied out of `true_buffer` are the first ones of the walk. -/
theorem copied_eq {l : List UInt8} {n : Nat} (hn : n ≤ l.length) (junk buf : Buf) :
    (fun i => if i < n then overlay junk 0 l i else buf i) =
      fun i => (l.take n).getD i (buf i) := by
  funext i
  split
  · next hi =>
    rw [overlay, if_pos (Nat.zero_le i), Nat.sub_zero, List.getD_eq_getElem _ _ (by omega),
      List.getD_eq_getElem _ _ (by rw [List.length_take]; omega), List.getElem_take]
  · next hi =>
    rw [List.getD_eq_default _ _ (by rw [List.length_take]; omega)]

/-- **`read_data` as it stands** does what `Image.readData` says. -/
theorem readDataInto_eq (img : Image) (inode offset : Nat) (buf : Buf) (length : Nat)
    (junk : Buf) :
    img.readDataInto inode offset buf length junk =
      (img.readData inode offset length).elim (-1, buf) fun l =>
        (toSigned l.length, fun i => l.getD i (buf i)) := by
  have hoff : offset % blockSize < blockSize := Nat.mod_lt _ (by decide)
  rw [readDataInto, readData]
  split
  · rfl
  by_cases hfirst : img.data inode (offset / blockSize) < img.numData
  · rw [if_pos hfirst, if_pos (inData_iff.mpr hfirst)]
    have hstart : img.Aligned inode ⟨junk, 0, 0, offset % blockSize, offset / blockSize,
        img.blockAddr (img.data inode (offset / blockSize)) + offset % blockSize⟩ := ⟨hoff, rfl⟩
    have hwalk := walkBytes_eq (n := img.length inode) hstart
    cases hl : Blocks.walk blockSize (img.inData inode) (img.cell inode) (img.length inode)
        (offset / blockSize) (offset % blockSize) with
    | none =>
      rw [hl, Option.map_none, Option.map_eq_none_iff] at hwalk
      rw [hwalk]
      rfl
    | some l =>
      rw [hl, Option.map_some, Option.map_eq_some_iff] at hwalk
      obtain ⟨s, hs, hbuf⟩ := hwalk
      have hlen : l.length = img.length inode := by
        rw [((Blocks.walk_eq_some hoff).mp hl).2, Blocks.length_slice]
      rw [hs, Option.map_some, Option.elim_some]
      dsimp only
      rw [hbuf]
      split
      · rw [copied_eq (Nat.le_of_eq hlen.symm), List.length_take, hlen, Nat.min_self]
      · rw [copied_eq (by omega), List.length_take, hlen, Nat.min_eq_left (by omega)]
  · rw [if_neg hfirst, if_neg fun h => hfirst (inData_iff.mp h)]
    rfl

/-! ## What a caller gets -/

/-- The walk comes to pointer `j`: those before it are data blocks, and the bytes reach it. -/
def Visits (img : Image) (inode offset j : Nat) : Prop :=
  offset / blockSize ≤ j ∧ j * blockSize ≤ offset + img.length inode ∧
    ∀ i, offset / blockSize ≤ i → i < j → img.data inode i < img.numData

theorem toSigned_of_lt {n : Nat} (h : n < 2 ^ 31) : toSigned n = n := if_pos h

/-- A walk all of whose pointers are data blocks gets through. -/
theorem readData_of_walk {inode offset : Nat} (hinode : inode < img.numInode)
    (h : ∀ j, offset / blockSize ≤ j → j * blockSize ≤ offset + img.length inode →
      img.data inode j < img.numData) (n : Nat) :
    img.readData inode offset n =
      some (img.contents inode offset (min n (img.length inode))) :=
  readData_eq_some.mpr ⟨hinode, h, rfl⟩

/-- A walk that gets through inside the inode is of a file that the pointers can hold. -/
theorem length_lt_of_visits {inode offset n : Nat} {l : List UInt8}
    (hwalk : ∀ j, img.Visits inode offset j → j < dataSize)
    (h : img.readData inode offset n = some l) : img.length inode < dataSize * blockSize := by
  obtain ⟨-, hdata, -⟩ := readData_eq_some.mp h
  have hle : offset / blockSize ≤ (offset + img.length inode) / blockSize :=
    Nat.div_le_div_right (Nat.le_add_right ..)
  have hmul : (offset + img.length inode) / blockSize * blockSize ≤ offset + img.length inode :=
    Nat.div_mul_le_self ..
  have hlast := hwalk ((offset + img.length inode) / blockSize) ⟨hle, hmul, fun i hi hlt => ?_⟩
  · rw [Nat.div_lt_iff_lt_mul (by decide)] at hlast
    omega
  · refine hdata i hi ((Nat.mul_le_mul_right blockSize (Nat.le_of_lt hlt)).trans hmul)

/-- **The bytes `read_data` delivers.**  Where the walk stays among the pointers of the inode, the
value returned counts the bytes of the buffer that are written; each is the byte of the file at the
offset, from a block of the image; and a failure writes nothing. -/
theorem readDataInto_bytes {inode offset : Nat}
    (hwalk : ∀ j, img.Visits inode offset j → j < dataSize) (buf : Buf) (length : Nat)
    (junk : Buf) :
    let r := img.readDataInto inode offset buf length junk
    (∀ n : Nat, r.1 = n → n ≤ length ∧ (∀ i, n ≤ i → r.2 i = buf i) ∧
      ∀ i < n, img.data inode ((offset + i) / 4096) < img.numData ∧
        r.2 i = img.block (img.data inode ((offset + i) / 4096)) ((offset + i) % 4096)) ∧
    (r.1 = -1 → r.2 = buf) := by
  rw [readDataInto_eq]
  cases h : img.readData inode offset length with
  | none =>
    refine ⟨fun n hn => ?_, fun _ => rfl⟩
    simp only [Option.elim_none] at hn
    omega
  | some l =>
    have hsize := length_lt_of_visits hwalk h
    obtain ⟨-, hdata, hl⟩ := readData_eq_some.mp h
    have hlen := length_of_readData h
    have hsigned : toSigned l.length = l.length := by
      refine toSigned_of_lt ?_
      rw [dataSize, blockSize] at hsize
      omega
    simp only [Option.elim_some, hsigned]
    refine ⟨fun n hn => ?_, fun hneg => by omega⟩
    obtain rfl : l.length = n := Int.ofNat.inj hn
    refine ⟨by omega, fun i hi => List.getD_eq_default _ _ hi, fun i hi => ⟨?_, ?_⟩⟩
    · refine hdata _ (Nat.div_le_div_right (Nat.le_add_right ..)) ?_
      refine (Nat.div_mul_le_self ..).trans ?_
      omega
    · rw [hlen] at hi
      rw [hl, getD_contents hi]
      rfl

/-- What a read of `length` bytes at `offset` of a file of `size` bytes is to return. -/
def served (size offset length : Nat) : Nat :=
  if offset < size then min length (size - offset) else 0

theorem min_eq_served_iff {size offset length : Nat} :
    min length size = served size offset length ↔
      offset = 0 ∨ size = 0 ∨ length ≤ size - offset := by
  rw [served]
  split <;> omega

theorem add_lt_of_lt_served {size offset length i : Nat} (h : i < served size offset length) :
    offset + i < size := by
  rw [served] at h
  split at h <;> omega

/-- In a well-formed image a walk needs only the pointers past the end of the file. -/
theorem WellFormed.walk (hwf : img.WellFormed) {inode offset : Nat} (hinode : inode < img.numInode)
    (h : ∀ j, offset / blockSize ≤ j → img.length inode ≤ j * blockSize →
      j * blockSize ≤ offset + img.length inode → img.data inode j < img.numData) (j : Nat)
    (hj : offset / blockSize ≤ j) (hle : j * blockSize ≤ offset + img.length inode) :
    img.data inode j < img.numData := by
  rcases Nat.lt_or_ge (j * blockSize) (img.length inode) with hlt | hge
  · exact hwf inode hinode j hlt
  · exact h j hj hge hle

/-- A read returned what was left of the file, and no byte past its end. -/
def Clipped (img : Image) (inode offset length : Nat) (r : Int × Buf) : Prop :=
  r.1 = served (img.length inode) offset length ∧
    ∀ i : Nat, (i : Int) < r.1 → offset + i < img.length inode

/-- **What is left of the file.**  For a file of a well-formed image, `read_data` returns what is
left of the file at the offset, and no byte past its end, exactly when the offset is 0, the file is
empty or there are as many bytes left as it is asked for, and the pointers after those the file
needs that the walk looks at are data blocks. -/
theorem readDataInto_clipped_iff (hwf : img.WellFormed) {inode : Nat}
    (hinode : inode < img.numInode) (hfit : img.length inode ≤ dataSize * blockSize) (offset : Nat)
    (buf : Buf) (length : Nat) (junk : Buf) :
    img.Clipped inode offset length (img.readDataInto inode offset buf length junk) ↔
      (offset = 0 ∨ img.length inode = 0 ∨ length ≤ img.length inode - offset) ∧
        ∀ j, offset / 4096 ≤ j → img.length inode ≤ j * 4096 →
          j * 4096 ≤ offset + img.length inode → img.data inode j < img.numData := by
  rw [readDataInto_eq, Clipped]
  cases h : img.readData inode offset length with
  | none =>
    simp only [Option.elim_none]
    refine iff_of_false (fun hr => by omega) fun hc => ?_
    have hsome := readData_of_walk hinode (hwf.walk hinode hc.2) length
    exact Option.some_ne_none _ (hsome.symm.trans h)
  | some l =>
    obtain ⟨-, hdata, -⟩ := readData_eq_some.mp h
    have hsigned : toSigned l.length = (min length (img.length inode) : Nat) := by
      rw [length_of_readData h]
      refine toSigned_of_lt ?_
      rw [dataSize, blockSize] at hfit
      omega
    simp only [Option.elim_some, hsigned]
    have hpast : ∀ j, offset / 4096 ≤ j → img.length inode ≤ j * 4096 →
        j * 4096 ≤ offset + img.length inode → img.data inode j < img.numData :=
      fun j hj _ hle => hdata j hj hle
    rw [and_iff_left hpast, ← min_eq_served_iff]
    refine ⟨fun hc => Int.ofNat.inj hc.1, fun hv => ⟨congrArg Int.ofNat hv, fun i hi => ?_⟩⟩
    rw [hv] at hi
    exact add_lt_of_lt_served (Int.ofNat_lt.mp hi)

end Image

/-- Two bytes from offset 1 of `abc`, after the walk of three bytes. -/
theorem readDataInto_bytes_abc :
    (∀ j, (Image.sample [97, 98, 99]).Visits 1 1 j → j < dataSize) ∧
      ((Image.sample [97, 98, 99]).readDataInto 1 1 (fun _ => 0) 2 (fun _ => 0)).2 5 = 0 := by
  have hwalk : ∀ j, (Image.sample [97, 98, 99]).Visits 1 1 j → j < dataSize := by
    rintro j ⟨-, hle, -⟩
    rw [show (Image.sample [97, 98, 99]).length 1 = 3 by decide +kernel, blockSize] at hle
    rw [dataSize]
    omega
  have hvalue : ((Image.sample [97, 98, 99]).readDataInto 1 1 (fun _ => 0) 2 (fun _ => 0)).1 = 2 :=
    by decide +kernel
  obtain ⟨-, hrest, -⟩ :=
    (Image.readDataInto_bytes hwalk (fun _ => 0) 2 (fun _ => 0)).1 2 hvalue
  exact ⟨hwalk, hrest 5 (by decide)⟩

theorem wellFormed_abc : (Image.sample [97, 98, 99]).WellFormed :=
  Image.wellFormed_of_oneBlock (by decide +kernel)

/-- From the beginning of `abc`, and all of it. -/
theorem readDataInto_clipped_iff_abc :
    (Image.sample [97, 98, 99]).Clipped 1 0 4
      ((Image.sample [97, 98, 99]).readDataInto 1 0 (fun _ => 0) 4 (fun _ => 0)) := by
  have hlen : (Image.sample [97, 98, 99]).length 1 = 3 := by decide +kernel
  refine (Image.readDataInto_clipped_iff wellFormed_abc (by decide +kernel)
    (by rw [hlen]; decide) 0 _ 4 _).mpr ⟨Or.inl rfl, fun j _ hle hle' => ?_⟩
  rw [hlen] at hle hle'
  omega

/-- Four bytes from offset 1 of `abc`: three are returned, one more than there are left. -/
theorem readDataInto_past_end : (Image.sample [97, 98, 99]).WellFormed ∧
    1 < (Image.sample [97, 98, 99]).numInode ∧
    ((Image.sample [97, 98, 99]).readDataInto 1 1 (fun _ => 0) 4 (fun _ => 0)).1 = 3 ∧
    Image.served ((Image.sample [97, 98, 99]).length 1) 1 4 = 2 ∧
    ¬ (Image.sample [97, 98, 99]).Clipped 1 1 4
      ((Image.sample [97, 98, 99]).readDataInto 1 1 (fun _ => 0) 4 (fun _ => 0)) := by
  have hvalue : ((Image.sample [97, 98, 99]).readDataInto 1 1 (fun _ => 0) 4 (fun _ => 0)).1 = 3 :=
    by decide +kernel
  have hserved : Image.served ((Image.sample [97, 98, 99]).length 1) 1 4 = 2 := by decide +kernel
  refine ⟨wellFormed_abc, by decide +kernel, hvalue, hserved, fun hc => ?_⟩
  have hv := hc.1
  rw [hvalue, hserved] at hv
  exact absurd hv (by decide)

/-! ## `file_read` after a failure -/

namespace Kernel

variable {fs : FileSystem} {k : Kernel} {fd : Nat} {nbytes : Int}

/-- A failed read of the process `PCB` points at: the end of the file when the caller's buffer
begins with a NUL, else one step back. -/
theorem fileRead_of_none (pcb : Nat) (buf : Buf)
    (h : fs.readData (k.ownFd fd).inode (k.ownFd fd).position (toUnsigned nbytes) = none) :
    k.fileRead fs pcb fd buf nbytes =
      if buf 0 = nul then (k, 0, buf)
      else
        (k.setSlot pcb ((k.proc.slots pcb).setFd fd { (k.proc.slots pcb).fdArray fd with
          position := toUnsigned (((k.proc.slots pcb).fdArray fd).position + -1) }), -1, buf) := by
  unfold fileRead
  rw [← ownFd]
  simp only [h]
  rfl

theorem toUnsigned_pred_ne (n : Nat) : toUnsigned (n + -1) ≠ n := by
  rw [toUnsigned]
  omega

/-- **A failure is never passed on** with the descriptors as they were: either the value is 0, or
the position has moved. -/
theorem fileRead_failure {img : Image} (tests : TestOutput) (pcb : Nat) (buf : Buf)
    (h : img.readData (k.ownFd fd).inode (k.ownFd fd).position (toUnsigned nbytes) = none) :
    let r := k.fileRead (img.fileSystem tests) pcb fd buf nbytes
    ¬ (r.2.1 = -1 ∧ ∀ p i, (r.1.proc.slots p).fdArray i = (k.proc.slots p).fdArray i) := by
  rw [← Image.readData_fileSystem img tests] at h
  have hread := fileRead_of_none pcb buf h
  by_cases hb : buf 0 = nul
  · rw [if_pos hb] at hread
    rw [hread]
    exact fun hr => absurd hr.1 (show (0 : Int) ≠ -1 by decide)
  · rw [if_neg hb] at hread
    rw [hread]
    intro r hr
    have hentry := congrArg Fd.position (hr.2 pcb fd)
    simp only [r, setSlot, Function.update_self, Pcb.setFd] at hentry
    exact toUnsigned_pred_ne _ hentry

end Kernel

/-- A shell, and a file `a` of one full block; the pointer after its only one is no data block. -/
def blockFile : Image := Image.ofPieces
  [(0, [3, 0, 0, 0, 2, 0, 0, 0, 2]),
    (64, [46]), (96, [1]),
    (128, shell), (160, [2]),
    (192, [97]), (224, [2, 0, 0, 0, 1]),
    (4096, [4]), (8192, [0, 16, 0, 0, 1, 0, 0, 0, 9]),
    (12288, magicBuf)]

theorem readData_blockFile (n : Nat) : blockFile.readData 1 0 n = none := by
  rw [Option.eq_none_iff_forall_ne_some]
  intro l hl
  have hlen : blockFile.length 1 = 4096 := by decide +kernel
  have hdata := (Image.readData_eq_some.mp hl).2.1 1 (by decide) (by rw [hlen]; decide)
  exact absurd hdata (by decide +kernel)

/-- The first read of the file, into a buffer that does not begin with a NUL. -/
def firstRead : FileRead := { readOf 2 0 with buf := fun _ => 97 }

open Kernel in
theorem fileRead_failure_reader :
    ¬ ((reader.fileRead (blockFile.fileSystem noTests) 1 2 (fun _ => 97) 1).2.1 = -1 ∧
      ∀ p i, ((reader.fileRead (blockFile.fileSystem noTests) 1 2 (fun _ => 97) 1).1.proc.slots
        p).fdArray i = (reader.proc.slots p).fdArray i) :=
  fileRead_failure noTests 1 (fun _ => 97) (readData_blockFile 1)

open Kernel in
/-- A shell opens the file and reads: the position goes from 0 to `2 ^ 32 - 1`. -/
theorem fileRead_failure_moves : blockFile.WellFormed ∧ ∃ k r,
    Runs.run (step (blockFile.fileSystem noTests)) Boot.zero.kernel
      [.execute (some shell) ⟨0, 0⟩ [], .call (.openFile (some [97]) [])] = some k ∧
    k.fileReadCall (blockFile.fileSystem noTests) firstRead = some r ∧
    blockFile.readData (k.ownFd 2).inode (k.ownFd 2).position 1 = none ∧ r.2.1 = -1 ∧
    (k.ownFd 2).position = 0 ∧ (r.1.ownFd 2).position = 2 ^ 32 - 1 := by
  refine ⟨Image.wellFormed_of_oneBlock (by decide +kernel), ?_⟩
  have hrun : (Runs.run (step (blockFile.fileSystem noTests)) Boot.zero.kernel
      [.execute (some shell) ⟨0, 0⟩ [], .call (.openFile (some [97]) [])]).map (fun k =>
        (k.proc.pcb, k.running, k.ownFd 2)) = some (some 1, 1, ⟨some .file, 1, 0, 1⟩) := by
    decide +kernel
  obtain ⟨k, hk, hrun⟩ := Option.map_eq_some_iff.mp hrun
  simp only [Prod.mk.injEq] at hrun
  obtain ⟨hpcb, hrunning, hfd⟩ := hrun
  have hnone : blockFile.readData (k.ownFd 2).inode (k.ownFd 2).position 1 = none := by
    rw [hfd]
    exact readData_blockFile 1
  have hfs : (blockFile.fileSystem noTests).readData (k.ownFd 2).inode (k.ownFd 2).position
      (toUnsigned 1) = none := by
    rw [show toUnsigned 1 = 1 by decide, Image.readData_fileSystem, hnone]
  have hcall : k.fileReadCall (blockFile.fileSystem noTests) firstRead =
      some (k.atPosition 2 (toUnsigned ((k.ownFd 2).position + -1)), -1, fun _ => 97) := by
    rw [fileReadCall, hpcb, ← hrunning]
    exact congrArg some ((fileRead_of_none k.running _ hfs).trans (if_neg (by decide)))
  refine ⟨k, _, hk, hcall, hnone, rfl, by rw [hfd], ?_⟩
  rw [ownFd_atPosition, if_pos rfl, hfd]
  rfl

end HarambeOs
