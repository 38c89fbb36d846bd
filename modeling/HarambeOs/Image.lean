import HarambeOs.Library.Blocks
import HarambeOs.Machine

/-!
# Image — the file system image, and the lookups of `file_system_driver.c`

The image is the memory the boot loader put it in.  Its first block counts the directory entries,
the inodes and the data blocks, and holds the entries; the inodes follow, one block each, and then
the data blocks.  `fs_init` copies the entries into an array of its own, packed closer than on disk,
and the lookups work on that array: a name of 32 characters has no NUL of its own and runs on into
the fields after it.
-/

namespace HarambeOs

/-! ## Constants of `file_system_driver.h` -/

def blockSize : Nat := 4096
def offsetInit : Nat := 64
def fileNameSize : Nat := 32

/-- `sizeof(dentry_t)`. -/
def dentryBytes : Nat := 44

/-- Memory from the start of the image on. -/
structure Image where
  bytes : Nat → UInt8

/-- `strlen`, of a string whose NUL is among its first `n` bytes. -/
def strlen (s : Nat → UInt8) (n : Nat) : Nat := ((List.range n).find? fun j => s j == nul).getD n

namespace Image

variable (img : Image)

/-- A word of the image. -/
def word (a : Nat) : Nat := wordAt img.bytes a

/-! ## The boot block, the inodes and the data blocks -/

def numDentry : Nat := img.word 0

def numInode : Nat := img.word 4

def numData : Nat := img.word 8

/-- The array `dentries` as `fs_init` fills it, byte by byte; it is static, and zero from the first
unused entry on. -/
def dentries (a : Nat) : UInt8 :=
  if a / dentryBytes < img.numDentry then
    img.bytes (offsetInit + a / dentryBytes * offsetInit + a % dentryBytes)
  else nul

/-- `dentries[i].f_n`, with the memory after it. -/
def fN (i : Nat) : Nat → UInt8 := fun j => img.dentries (i * dentryBytes + j)

/-- `strlen(dentries[i].f_n)`. -/
def nameLength (i : Nat) : Nat := strlen (img.fN i) (img.numDentry * dentryBytes)

/-- The other two fields of `dentries[i]`. -/
def dentry (i : Nat) : Dentry :=
  ⟨img.word (offsetInit + i * offsetInit + fileNameSize),
    img.word (offsetInit + i * offsetInit + fileNameSize + 4)⟩

/-- `inode_ptr->length`. -/
def length (inode : Nat) : Nat := img.word (blockSize + inode * blockSize)

/-- `inode_ptr->data[j]`. -/
def data (inode j : Nat) : Nat := img.word (blockSize + inode * blockSize + (j + 1) * 4)

/-- A byte of a data block. -/
def block (d off : Nat) : UInt8 :=
  img.bytes (blockSize + blockSize * img.numInode + d * blockSize + off)

/-! ## The lookups -/

/-- The loop of `read_dentry_by_name` from entry `i` on, with `m` entries left; `n` is the length of
the name. -/
def findDentry (fname : Nat → UInt8) (n i : Nat) : Nat → Option Dentry
  | 0 => none
  | m + 1 =>
    if n = 0 then none
    else if img.nameLength i ≤ fileNameSize ∧ n ≠ img.nameLength i then
      findDentry fname n (i + 1) m
    else if strncmpEq fname (img.fN i) 0 n then
      if n < fileNameSize ∧ img.nameLength i > fileNameSize then none else some (img.dentry i)
    else findDentry fname n (i + 1) m

/-- `read_dentry_by_name`. -/
def readDentryByName (fname : List UInt8) : Option Dentry :=
  img.findDentry (commandAt fname) (strlen (commandAt fname) fname.length) 0 img.numDentry

/-- `read_dentry_by_index`: the name it finds. -/
def readDentryByIndex (index : Nat) : Option (List UInt8) :=
  if index < img.numDentry then some ((List.range (img.nameLength index)).map (img.fN index))
  else none

/-- `data[j] < data_number`. -/
def inData (inode j : Nat) : Bool := img.data inode j < img.numData

/-- Byte `off` of a file's block `j`. -/
def cell (inode j off : Nat) : UInt8 := img.block (img.data inode j) off

/-- `read_data`.  It fills `true_buffer` with as many bytes as the file has, from the offset on, so
it walks past the end of the file by the offset; then it copies what was asked for. -/
def readData (inode offset length : Nat) : Option (List UInt8) :=
  let size := img.length inode
  if inode ≥ img.numInode then none
  else if img.inData inode (offset / blockSize) then
    (Blocks.walk blockSize (img.inData inode) (img.cell inode) size (offset / blockSize)
      (offset % blockSize)).map fun trueBuffer =>
        trueBuffer.take (if size < length then size else length)
  else none

end Image

/-- What the test keys print. -/
structure TestOutput where
  readFs : List Output
  printDentryByName : Nat → List Output
  printDentryByIndex : Nat → List Output

/-- The file system of an image. -/
def Image.fileSystem (img : Image) (tests : TestOutput) : FileSystem where
  readDentryByName := img.readDentryByName
  readDentryByIndex := img.readDentryByIndex
  readData := img.readData
  readFs := tests.readFs
  printDentryByName := tests.printDentryByName
  printDentryByIndex := tests.printDentryByIndex

namespace Image

theorem readData_fileSystem (img : Image) (tests : TestOutput) :
    (img.fileSystem tests).readData = img.readData := rfl

theorem readDentryByName_fileSystem (img : Image) (tests : TestOutput) :
    (img.fileSystem tests).readDentryByName = img.readDentryByName := rfl

theorem readDentryByIndex_fileSystem (img : Image) (tests : TestOutput) :
    (img.fileSystem tests).readDentryByIndex = img.readDentryByIndex := rfl

variable {img : Image}

theorem word_lt (a : Nat) : img.word a < 2 ^ 32 := by
  have h₀ := (img.bytes a).toNat_lt
  have h₁ := (img.bytes (a + 1)).toNat_lt
  have h₂ := (img.bytes (a + 2)).toNat_lt
  have h₃ := (img.bytes (a + 3)).toNat_lt
  rw [word, wordAt]
  omega

/-- No entry has the index that a descriptor without a position holds. -/
theorem readDentryByIndex_minusOne : img.readDentryByIndex minusOne = none := by
  have hlt : img.word 0 < 2 ^ 32 := word_lt 0
  rw [readDentryByIndex, if_neg (by rw [numDentry, minusOne]; omega)]

/-- What a lookup finds is an entry. -/
theorem findDentry_eq_some {fname : Nat → UInt8} {n i m : Nat} {d : Dentry}
    (h : img.findDentry fname n i m = some d) : ∃ j < i + m, d = img.dentry j := by
  induction m generalizing i with
  | zero => cases h
  | succ m ih =>
    have hnext : img.findDentry fname n (i + 1) m = some d → ∃ j < i + (m + 1), d = img.dentry j :=
      fun h => by
        obtain ⟨j, hj, rfl⟩ := ih h
        exact ⟨j, by omega, rfl⟩
    rw [findDentry] at h
    split_ifs at h
    · exact hnext h
    · exact ⟨i, by omega, (Option.some.inj h).symm⟩
    · exact hnext h

theorem readDentryByName_eq_some {fname : List UInt8} {d : Dentry}
    (h : img.readDentryByName fname = some d) : ∃ j < img.numDentry, d = img.dentry j := by
  obtain ⟨j, hj, rfl⟩ := findDentry_eq_some h
  exact ⟨j, by omega, rfl⟩

/-! ## Files -/

/-- Byte `p` of a file. -/
def content (img : Image) (inode p : Nat) : UInt8 := Blocks.stream blockSize (img.cell inode) p

/-- The `n` bytes of a file from `p` on. -/
def contents (img : Image) (inode p n : Nat) : List UInt8 :=
  Blocks.slice blockSize (img.cell inode) p n

theorem length_contents (img : Image) (inode p n : Nat) : (img.contents inode p n).length = n :=
  Blocks.length_slice ..

theorem getD_contents {inode p n i : Nat} (h : i < n) (b : UInt8) :
    (img.contents inode p n).getD i b = img.content inode (p + i) := by
  rw [List.getD_eq_getElem _ _ (by rwa [length_contents])]
  simp only [contents, Blocks.slice, List.getElem_map, List.getElem_range]
  rfl

theorem inData_iff {inode j : Nat} :
    img.inData inode j = true ↔ img.data inode j < img.numData := by
  rw [inData, decide_eq_true_eq]

/-- **What `read_data` reads.**  It wants a pointer for every block it comes to while it fills
`true_buffer`, whether or not the bytes asked for are there. -/
theorem readData_eq_some {inode offset n : Nat} {l : List UInt8} :
    img.readData inode offset n = some l ↔
      inode < img.numInode ∧
      (∀ j, offset / blockSize ≤ j → j * blockSize ≤ offset + img.length inode →
        img.data inode j < img.numData) ∧
      l = img.contents inode offset (min n (img.length inode)) := by
  have hmin : (if img.length inode < n then img.length inode else n) =
      min n (img.length inode) := by
    split <;> omega
  rw [readData, hmin]
  by_cases hinode : inode < img.numInode
  · rw [if_neg (Nat.not_le.mpr hinode), and_iff_right hinode]
    by_cases hfirst : img.data inode (offset / blockSize) < img.numData
    · rw [if_pos (inData_iff.mpr hfirst), Option.map_eq_some_iff]
      simp only [Blocks.walk_from_eq_some (show 0 < blockSize by decide), inData_iff]
      constructor
      · rintro ⟨trueBuffer, ⟨hrest, rfl⟩, rfl⟩
        refine ⟨fun j hj hle => ?_, ?_⟩
        · rcases Nat.eq_or_lt_of_le hj with rfl | hlt
          · exact hfirst
          · exact hrest j hlt hle
        · rw [Blocks.take_slice, contents, Nat.min_assoc, Nat.min_self]
      · rintro ⟨hall, rfl⟩
        refine ⟨_, ⟨fun j hj hle => hall j (Nat.le_of_lt hj) hle, rfl⟩, ?_⟩
        rw [Blocks.take_slice, contents, Nat.min_assoc, Nat.min_self]
    · rw [if_neg fun h => hfirst (inData_iff.mp h)]
      refine iff_of_false (Option.some_ne_none l).symm fun h => hfirst (h.1 _ (Nat.le_refl _) ?_)
      exact (Nat.div_mul_le_self offset blockSize).trans (Nat.le_add_right ..)
  · rw [if_pos (Nat.not_lt.mp hinode)]
    exact iff_of_false (Option.some_ne_none l).symm fun h => hinode h.1

theorem length_of_readData {inode offset n : Nat} {l : List UInt8}
    (h : img.readData inode offset n = some l) : l.length = min n (img.length inode) := by
  rw [(readData_eq_some.mp h).2.2, length_contents]

/-- An image put together from pieces: each an address and the bytes from there on. -/
def ofPieces (pieces : List (Nat × List UInt8)) : Image where
  bytes a := (pieces.find? fun p => p.1 ≤ a && a < p.1 + p.2.length).elim nul fun p =>
    p.2.getD (a - p.1) nul

/-- A directory, a clock, a shell of four bytes and a file `a` with the given text, for runs on
concrete inputs. -/
def sample (text : List UInt8) : Image := ofPieces
  [(0, [4, 0, 0, 0, 2, 0, 0, 0, 2]),
    (64, [46]), (96, [1]),
    (128, [114, 116, 99]),
    (192, shell), (224, [2]),
    (256, [97]), (288, [2, 0, 0, 0, 1]),
    (4096, [4]), (8192, [UInt8.ofNat text.length, 0, 0, 0, 1]),
    (12288, magicBuf), (16384, text)]

end Image

/-- What the test keys print: nothing. -/
def noTests : TestOutput := ⟨[], fun _ => [], fun _ => []⟩

end HarambeOs
