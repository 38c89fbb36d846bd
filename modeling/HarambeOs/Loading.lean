import HarambeOs.Directory
import HarambeOs.ReadData
import HarambeOs.Running

/-!
# Loading — which files `c_execute` starts, and what it loads

`c_execute` reads four bytes of the file into `check`, without looking at the type of the entry or
at the result of the read, and compares them with the ELF magic number.  `Image.Deceives` names the
entries that pass although they are no program, and **`Kernel.execute_checks_iff`** says that the
check is right exactly where none of them is found.

It then maps the user page of the new process and reads twice to the same address: the entry point,
at offset 24, and the program.  **`Kernel.execute_loads`** says that for a file whose pointers are
all data blocks both reads deliver what they should, into the frame of the new process.
-/

namespace HarambeOs

namespace Image

variable {img : Image} {d : Dentry} {inode : Nat} {junk : List UInt8}

/-! ## The check of the magic number -/

/-- The entry that the name in a command is looked up to. -/
def named (img : Image) (command : Option (List UInt8)) : Option Dentry :=
  command.bind fun c => img.readDentryByName (parseCommand c).1

/-- A regular file of four bytes or more that begins with the magic number. -/
def IsProgram (img : Image) (d : Dentry) : Prop :=
  d.fT = 2 ∧ d.inodeIdx < img.numInode ∧ 4 ≤ img.length d.inodeIdx ∧
    img.data d.inodeIdx 0 < img.numData ∧ img.contents d.inodeIdx 0 4 = magicBuf

/-- Every pointer that a read from the beginning of a file comes to is a data block. -/
def Readable (img : Image) (inode : Nat) : Prop :=
  inode < img.numInode ∧ ∀ j, j * blockSize ≤ img.length inode → img.data inode j < img.numData

/-- The bytes of `check` from `n` on that are left from the stack. -/
def leftover (junk : List UInt8) (n : Nat) : List UInt8 :=
  (List.range' n (b4 - n)).map fun i => junk.getD i nul

/-- An entry that passes the check and is no program: a directory or a device on the inode of a
program, a file so short that the stack completes the magic number, or one that cannot be read,
with the magic number left on the stack. -/
def Deceives (img : Image) (junk : List UInt8) (d : Dentry) : Prop :=
  (img.Readable d.inodeIdx ∧ 4 ≤ img.length d.inodeIdx ∧
      img.contents d.inodeIdx 0 4 = magicBuf ∧ d.fT ≠ 2) ∨
    (img.Readable d.inodeIdx ∧ img.length d.inodeIdx < 4 ∧
      img.contents d.inodeIdx 0 (img.length d.inodeIdx) ++
        leftover junk (img.length d.inodeIdx) = magicBuf) ∨
    (¬ img.Readable d.inodeIdx ∧ leftover junk 0 = magicBuf ∧ ¬ img.IsProgram d)

/-- `strncmp(check, magic_buf, 4) == 0`. -/
def Passes (img : Image) (junk : List UInt8) (inode : Nat) : Prop :=
  strncmpEq (checkBuf junk (img.readData inode 0 b4)) (fun i => magicBuf.getD i nul) 0 b4 = true

theorem readData_of_readable (h : img.Readable inode) (n : Nat) :
    img.readData inode 0 n = some (img.contents inode 0 (min n (img.length inode))) :=
  readData_of_walk h.1 (fun j _ hj => h.2 j (by rwa [Nat.zero_add] at hj)) n

theorem readData_of_not_readable (h : ¬ img.Readable inode) (n : Nat) :
    img.readData inode 0 n = none := by
  rw [Option.eq_none_iff_forall_ne_some]
  intro l hl
  obtain ⟨hinode, hdata, -⟩ := readData_eq_some.mp hl
  refine h ⟨hinode, fun j hj => hdata j (Nat.zero_le _) ?_⟩
  rwa [Nat.zero_add]

/-- The check is of what was read, and then of what was on the stack. -/
theorem passes_iff {l : List UInt8} (hread : (img.readData inode 0 b4).getD [] = l)
    (hl : l.length ≤ b4) : img.Passes junk inode ↔ l ++ leftover junk l.length = magicBuf := by
  have hmagic : ∀ j < b4, magicBuf.getD j nul ≠ nul := by decide
  have hlen : (l ++ leftover junk l.length).length = b4 := by
    rw [List.length_append, leftover, List.length_map, List.length_range']
    omega
  have hget {j : Nat} (hj : j < (l ++ leftover junk l.length).length) :
      (l ++ leftover junk l.length)[j] = checkBuf junk (img.readData inode 0 b4) j := by
    rw [checkBuf, hread, List.getElem_append]
    split
    · next hlt => rw [List.getD_eq_getElem _ _ hlt]
    · next hge =>
      rw [List.getD_eq_default _ _ (Nat.not_lt.mp hge)]
      simp only [leftover, List.getElem_map, List.getElem_range']
      exact congrArg (junk.getD · nul) (by omega)
  rw [Passes, strncmpEq_iff fun j _ hj heq => heq ▸ hmagic j (by omega)]
  constructor
  · intro hall
    refine List.ext_getElem (hlen.trans rfl) fun j hj hj' => ?_
    rw [hget hj, hall j (Nat.zero_le j) (by omega), List.getD_eq_getElem _ _ hj']
  · intro heq j _ hj
    have hj' : j < (l ++ leftover junk l.length).length := by omega
    rw [← hget hj', ← List.getD_eq_getElem _ nul hj', heq]

theorem passes_of_readable (h : img.Readable inode) {n : Nat} (hn : min b4 (img.length inode) = n) :
    img.Passes junk inode ↔ img.contents inode 0 n ++ leftover junk n = magicBuf := by
  have hread : (img.readData inode 0 b4).getD [] = img.contents inode 0 n := by
    rw [readData_of_readable h, hn, Option.getD_some]
  rw [passes_iff hread (by rw [length_contents]; omega), length_contents]

theorem passes_of_not_readable (h : ¬ img.Readable inode) :
    img.Passes junk inode ↔ leftover junk 0 = magicBuf :=
  passes_iff (l := []) (congrArg (Option.getD · []) (readData_of_not_readable h b4)) (Nat.zero_le _)

/-- **The entries that deceive the check** are those that pass and are no program. -/
theorem deceives_iff : img.Deceives junk d ↔ img.Passes junk d.inodeIdx ∧ ¬ img.IsProgram d := by
  by_cases hr : img.Readable d.inodeIdx
  · have hfirst : img.data d.inodeIdx 0 < img.numData :=
      hr.2 0 (by rw [Nat.zero_mul]; exact Nat.zero_le _)
    rcases Nat.lt_or_ge (img.length d.inodeIdx) 4 with hlt | hge
    · rw [passes_of_readable hr (Nat.min_eq_right (Nat.le_of_lt hlt)), Deceives, IsProgram]
      have hnot : ¬ 4 ≤ img.length d.inodeIdx := Nat.not_le.mpr hlt
      simp only [hr, hlt, hnot, true_and, false_and, and_false, not_true, not_false_eq_true,
        and_true, or_false, false_or]
    · rw [passes_of_readable hr (Nat.min_eq_left hge), Deceives, IsProgram,
        show leftover junk b4 = [] from rfl, List.append_nil]
      have hnot : ¬ img.length d.inodeIdx < 4 := Nat.not_lt.mpr hge
      simp only [hr, hge, hnot, hr.1, hfirst, true_and, false_and, and_false, not_true, or_false]
      exact ⟨fun h => ⟨h.1, fun hp => h.2 hp.1⟩, fun h => ⟨h.1, fun hp => h.2 ⟨hp, h.1⟩⟩⟩
  · rw [passes_of_not_readable hr, Deceives]
    simp only [hr, not_false_eq_true, true_and, false_and, false_or]

theorem resolves_eq_false_iff {command : Option (List UInt8)} {tests : TestOutput} :
    resolves (img.fileSystem tests) command junk = false ↔
      ∀ d, img.named command = some d → ¬ img.Passes junk d.inodeIdx := by
  rw [named]
  cases command with
  | none => exact iff_of_true rfl fun d hd => by cases hd
  | some c =>
    rw [resolves, Option.any_some, Option.bind_some, findProgram, readDentryByName_fileSystem,
      readData_fileSystem]
    cases img.readDentryByName (parseCommand c).1 with
    | none => exact iff_of_true rfl fun d hd => by cases hd
    | some d =>
      simp only [Option.some.injEq, forall_eq', Passes]
      split
      · next h => exact iff_of_false Bool.false_ne_true.symm fun hnot => hnot h
      · next h => exact iff_of_true rfl h

theorem findProgram_of_passes {c : List UInt8} {tests : TestOutput}
    (hname : img.named (some c) = some d) (h : img.Passes junk d.inodeIdx) :
    findProgram (img.fileSystem tests) (parseCommand c).1 junk = some d.inodeIdx := by
  rw [named, Option.bind_some] at hname
  rw [findProgram, readDentryByName_fileSystem, readData_fileSystem, hname]
  exact if_pos h

theorem wordAt_contents (img : Image) (inode p : Nat) :
    wordAt (fun i => (img.contents inode p 4).getD i nul) 0 = wordAt (img.content inode) p := by
  rw [wordAt, getD_contents (by decide), getD_contents (by decide), getD_contents (by decide),
    getD_contents (by decide)]
  rfl

/-- A program on an inode all of whose pointers are data blocks, long enough to have an entry point
and short enough for the user page. -/
structure Loadable (img : Image) (inode : Nat) : Prop where
  inode_lt : inode < img.numInode
  data_lt : ∀ j < 1023, img.data inode j < img.numData
  magic : img.contents inode 0 4 = magicBuf
  min_length : 28 ≤ img.length inode
  max_length : img.length inode ≤ mb4 - 0x48000

namespace Loadable

variable (h : img.Loadable inode)
include h

theorem length_le : img.length inode ≤ mb132 - progImg := by
  have hmax := h.max_length
  rw [mb4] at hmax
  rw [mb132, progImg]
  omega

/-- The walk of a read at offset 24 goes past the end of the file, but not past the pointers. -/
theorem readData {offset : Nat} (hoff : offset ≤ 24) (n : Nat) :
    img.readData inode offset n =
      some (img.contents inode offset (min n (img.length inode))) := by
  refine readData_of_walk h.inode_lt (fun j _ hj => h.data_lt j ?_) n
  have hmax := h.max_length
  rw [mb4] at hmax
  rw [blockSize] at hj
  omega

theorem header (tests : TestOutput) :
    (img.fileSystem tests).readData inode entryOffset b4 = some (img.contents inode 24 4) := by
  have hmin := h.min_length
  rw [readData_fileSystem, h.readData (show entryOffset ≤ 24 from Nat.le_refl 24),
    Nat.min_eq_left (by rw [b4]; omega)]
  rfl

theorem program (tests : TestOutput) : (img.fileSystem tests).readData inode 0 mb4 =
    some (img.contents inode 0 (img.length inode)) := by
  have hmax := h.max_length
  rw [readData_fileSystem, h.readData (Nat.zero_le 24), Nat.min_eq_right (by omega)]

theorem passes (junk : List UInt8) : img.Passes junk inode := by
  have hmin := h.min_length
  have hread : (img.readData inode 0 b4).getD [] = magicBuf := by
    rw [h.readData (Nat.zero_le 24), Nat.min_eq_left (by rw [b4]; omega)]
    exact h.magic
  exact (passes_iff hread (Nat.le_refl 4)).mpr (List.append_nil _)

end Loadable

end Image

namespace Kernel

variable {img : Image} {tests : TestOutput}

/-- A `c_execute` returns `-1` where its command does not name an executable, and nowhere else. -/
theorem execute_returned_iff {fs : FileSystem} {k : Kernel} {command : Option (List UInt8)}
    {fr : Frame} {junk : List UInt8} :
    (∃ k', k.execute fs command fr junk = some (k', .returned (-1)) ∧
      k'.proc.pidArr = k.proc.pidArr) ↔ resolves fs command junk = false := by
  constructor
  · rintro ⟨k', hk', -⟩
    cases execute_executed hk' with
    | fail h => exact h
  · intro h
    refine ⟨{ k with cpu := fr }.prepare (argsOf command), ?_, pidArr_prepare ..⟩
    cases command with
    | none => rfl
    | some c =>
      have hfind : findProgram fs (parseCommand c).1 junk = none :=
        Option.isNone_iff_eq_none.mp (Option.isSome_eq_false_iff.mp h)
      rw [execute, callDepth, cExecute, cExecuteWith]
      simp only [hfind]
      rfl

/-- **Which files are started.**  Where the command names no program `c_execute` returns `-1` and
allocates nothing, exactly when the entry it finds, if any, does not deceive the check. -/
theorem execute_checks_iff (img : Image) (tests : TestOutput) (k : Kernel)
    (command : Option (List UInt8)) (fr : Frame) (junk : List UInt8) :
    ((¬ ∃ d, img.named command = some d ∧ img.IsProgram d) →
      ∃ k', k.execute (img.fileSystem tests) command fr junk = some (k', .returned (-1)) ∧
        k'.proc.pidArr = k.proc.pidArr) ↔
      ∀ d, img.named command = some d → ¬ img.Deceives junk d := by
  rw [execute_returned_iff, Image.resolves_eq_false_iff]
  constructor
  · intro h d hd hdec
    obtain ⟨hpass, hnot⟩ := Image.deceives_iff.mp hdec
    refine h ?_ d hd hpass
    rintro ⟨d', hd', hprog⟩
    obtain rfl : d = d' := Option.some.inj (hd.symm.trans hd')
    exact hnot hprog
  · intro h hnone d hd hpass
    exact h d hd (Image.deceives_iff.mpr ⟨hpass, fun hprog => hnone ⟨d, hd, hprog⟩⟩)

/-- `c_execute(".")` on an image whose directory entry has the inode of the shell: the directory is
started, as process 1. -/
theorem execute_directory :
    ((Boot.zero.kernel.execute ((Image.sample []).fileSystem noTests) (some [46]) ⟨0, 0⟩ []).map
      fun r => (r.2, r.1.proc.pidArr 0, r.1.running)) = some (.started 0, true, 1) ∧
      ¬ ∃ d, (Image.sample []).named (some [46]) = some d ∧ (Image.sample []).IsProgram d := by
  refine ⟨by decide +kernel, ?_⟩
  rintro ⟨d, hd, htype, -⟩
  have hdot : ((Image.sample []).named (some [46])).map Dentry.fT = some 1 := by decide +kernel
  rw [hd, Option.map_some, htype] at hdot
  cases hdot

/-! ## The image in the user page -/

/-- A read into mapped memory writes what was read there, and nothing else. -/
theorem readInto_of_maps {d : Display} {va pa : Nat} {bytes : List UInt8}
    (h : MappedMemory.Maps d.paging.translate va pa bytes.length) :
    d.readInto va bytes = some { d with phys := overlay d.phys pa bytes } := by
  have hstored : d.storeBytes va (fun i => bytes.getD i nul) bytes.length =
      { d with phys := overlay d.phys pa bytes } := by
    rw [Display.storeBytes]
    refine congrArg (fun phys => { d with phys := phys }) (funext fun a => ?_)
    rw [MappedMemory.storeRange_apply h]
    split
    · next ha =>
      obtain ⟨i, rfl⟩ := Nat.exists_eq_add_of_le ha.1
      rw [overlay_apply (by omega), Nat.add_sub_cancel_left]
    · rw [overlay_of_notMem (by omega)]
  rw [Display.readInto, hstored, if_pos]
  intro i hi
  rw [h i hi]
  rfl

theorem load_overlay {d : Display} {va pa n i : Nat}
    (h : MappedMemory.Maps d.paging.translate va pa n) {bytes : List UInt8} (hi : i < n)
    (hlen : i < bytes.length) :
    { d with phys := overlay d.phys pa bytes }.load (va + i) = bytes.getD i nul :=
  (MappedMemory.load_of_eq_some (h i hi) _).trans (overlay_apply hlen)

/-- Where the program image of process `p` begins. -/
def imageBase (p : Nat) : Nat := userFrame p + progImg % mb4

/-- **What is loaded**: the word read first is the entry point, and the program read second lies
over it in the frame of the process. -/
theorem loadImage_eq {fs : FileSystem} {k : Kernel} {inode p : Nat} {header program : List UInt8}
    (hp : k.proc.processCounter = p)
    (hheader : fs.readData inode entryOffset b4 = some header) (hfour : header.length = b4)
    (hprogram : fs.readData inode 0 mb4 = some program) (hle : b4 ≤ program.length)
    (hfit : program.length ≤ mb132 - progImg) :
    k.loadImage fs inode = some ({ k with
      display := { k.display.remapPaging (userFrame p) with
        phys := overlay k.display.phys (imageBase p) program } },
      wordAt (fun i => header.getD i nul) 0) := by
  let d := k.display.remapPaging (userFrame p)
  have hmaps {n : Nat} (hn : n ≤ mb132 - progImg) :
      MappedMemory.Maps d.paging.translate progImg (imageBase p) n :=
    maps_user k.display.paging p hn
  have hmaps₄ : MappedMemory.Maps d.paging.translate progImg (imageBase p) header.length :=
    hmaps (by omega)
  have heip : { d with phys := overlay d.phys (imageBase p) header }.load32 progImg =
      wordAt (fun i => header.getD i nul) 0 := by
    have hload {i : Nat} (hi : i < b4) :=
      load_overlay hmaps₄ (hfour ▸ hi) (hfour ▸ hi : i < header.length)
    rw [Display.load32, wordAt, hload (i := 1) (by decide), hload (i := 2) (by decide),
      hload (i := 3) (by decide), ← Nat.add_zero progImg, hload (i := 0) (by decide)]
    rfl
  rw [loadImage, hheader, hprogram, hp, Option.getD_some, Option.getD_some]
  simp only
  rw [readInto_of_maps hmaps₄, Option.bind_some,
    readInto_of_maps (d := { d with phys := overlay d.phys (imageBase p) header }) (hmaps hfit),
    heip, Option.map_some]
  simp only
  rw [overlay_overlay (by omega)]
  rfl

/-- The memory of process `p` with the file on `inode` loaded. -/
def imageLoaded (img : Image) (inode : Nat) (k : Kernel) (p : Nat) : Nat → UInt8 :=
  overlay k.display.phys (imageBase p) (img.contents inode 0 (img.length inode))

section ImageLoaded

variable {inode : Nat} (hload : img.Loadable inode) (k : Kernel) (p : Nat)
include hload

theorem imageBase_add_mem {j : Nat} (hj : j < img.length inode) :
    imageBase p + j ∈ userFrameSet p := by
  have hmax := hload.max_length
  rw [mb4] at hmax
  rw [userFrameSet, Set.mem_Ico, imageBase, progImg, mb4]
  omega

/-- Through the user page the program sees the file. -/
theorem load_imageLoaded {j : Nat} (hj : j < img.length inode) :
    { k.display.remapPaging (userFrame p) with phys := imageLoaded img inode k p }.load
      (progImg + j) = img.content inode j := by
  have hmaps := maps_user k.display.paging p hload.length_le
  refine (load_overlay (d := k.display.remapPaging (userFrame p)) hmaps hj
    (by rwa [img.length_contents])).trans ?_
  rw [Image.getD_contents hj, Nat.zero_add]

variable {p}

theorem imageLoaded_of_notMem {a : Nat} (ha : a ∉ userFrameSet p) :
    imageLoaded img inode k p a = k.display.phys a := by
  refine overlay_of_notMem (or_iff_not_imp_left.mpr fun hge => ?_)
  obtain ⟨j, rfl⟩ := Nat.exists_eq_add_of_le (Nat.not_lt.mp hge)
  by_contra hlt
  rw [img.length_contents] at hlt
  exact ha (imageBase_add_mem hload p (by omega))

end ImageLoaded

theorem execute_eq_loaded {k : Kernel} {i : Nat} (hfree : k.proc.freeIndex = some i)
    {c : List UInt8} {d : Dentry} (hname : img.named (some c) = some d)
    (hload : img.Loadable d.inodeIdx) (fr : Frame) (junk : List UInt8) :
    k.execute (img.fileSystem tests) (some c) fr junk =
      some (((prepare (parseCommand c).2 { k with cpu := fr }).loaded
        (imageLoaded img d.inodeIdx k (i + 1))).buildPcb.commit,
        .started (wordAt (img.content d.inodeIdx) 24)) := by
  let k₀ := prepare (parseCommand c).2 { k with cpu := fr }
  have hfree₀ : k₀.proc.freeIndex = some i := (freeIndex_prepare _ _).trans hfree
  have hp₀ : k₀.proc.chooseSlot.1.processCounter = i + 1 := by rw [chooseSlot_of_free hfree₀]
  have hmin := hload.min_length
  have himage := loadImage_eq (k := { k₀ with proc := k₀.proc.chooseSlot.1 }) hp₀
    (hload.header tests) (img.length_contents ..) (hload.program tests)
    (by rw [img.length_contents, b4]; omega) (by rw [img.length_contents]; exact hload.length_le)
  rw [execute_of_free (Image.findProgram_of_passes hname (hload.passes junk)) hfree, himage,
    Option.map_some, Image.wordAt_contents, ← hp₀]
  rfl

/-- The new process runs with its own user page. -/
theorem running_loaded_commit {k : Kernel} {i : Nat} (hfree : k.proc.freeIndex = some i)
    (phys : Nat → UInt8) :
    (k.loaded phys).buildPcb.commit.running = i + 1 ∧
      (k.loaded phys).buildPcb.commit.display =
        { k.display.remapPaging (userFrame (i + 1)) with phys := phys } := by
  have hp : (k.loaded phys).proc.processCounter = i + 1 :=
    congrArg (fun r => r.1.processCounter) (chooseSlot_of_free hfree)
  rw [commit_eq (k := (k.loaded phys).buildPcb) hp (congrArg some hp)]
  refine ⟨?_, ?_⟩
  · simp only [running, activeEntry, Function.update_self]
  · rw [← hp]
    rfl

/-- **What `c_execute` loads.**  Where a number is free and the command names a program of at least
28 bytes that fits the user page and whose pointers are all data blocks, it starts: its number was
free, its entry point is the word at offset 24, the bytes of the file are at the program image, and
nothing is written outside its frame, which no live process shares. -/
theorem execute_loads (img : Image) (tests : TestOutput) (k : Kernel) {i : Nat}
    (hfree : k.proc.freeIndex = some i) {c : List UInt8} {d : Dentry}
    (hname : img.named (some c) = some d) (hload : img.Loadable d.inodeIdx) (fr : Frame)
    (junk : List UInt8) :
    ∃ k', k.execute (img.fileSystem tests) (some c) fr junk =
        some (k', .started (wordAt (img.content d.inodeIdx) 24)) ∧
      k.proc.pidArr i = false ∧ k'.running = i + 1 ∧
      (∀ j < img.length d.inodeIdx, k'.display.load (progImg + j) = img.content d.inodeIdx j ∧
        ∃ a ∈ userFrameSet (i + 1), k'.display.paging.translate (progImg + j) = some a) ∧
      (∀ a ∉ userFrameSet (i + 1), k'.display.phys a = k.display.phys a) ∧
      ∀ q, q ≠ 0 → k.proc.pidArr (q - 1) = true →
        Disjoint (userFrameSet q) (userFrameSet (i + 1)) := by
  obtain ⟨hrunning, hdisplay⟩ := running_loaded_commit
    ((freeIndex_prepare { k with cpu := fr } (parseCommand c).2).trans hfree)
    (imageLoaded img d.inodeIdx k (i + 1))
  have hidle : k.proc.pidArr i = false := by
    simpa using List.find?_some hfree
  refine ⟨_, execute_eq_loaded hfree hname hload fr junk, hidle, hrunning, fun j hj => ?_,
    fun a ha => ?_, fun q hq hlive => disjoint_userFrameSet ?_⟩
  · rw [hdisplay]
    exact ⟨load_imageLoaded hload k (i + 1) hj, _, imageBase_add_mem hload (i + 1) hj,
      maps_user k.display.paging (i + 1) hload.length_le j hj⟩
  · rw [hdisplay]
    exact imageLoaded_of_notMem hload k ha
  · rintro rfl
    rw [Nat.add_sub_cancel, hidle] at hlive
    cases hlive

end Kernel

/-- A program `p` of 28 bytes, which starts at 0x8048018. -/
def programDisk : Image := .ofPieces
  [(0, [1, 0, 0, 0, 1, 0, 0, 0, 1]), (64, [112]), (96, [2]), (4096, [28]),
    (8192, magicBuf ++ List.replicate 20 0 ++ [0x18, 0x80, 0x04, 0x08])]

/-- Between its pieces an image is zero. -/
theorem Image.word_ofPieces {pieces : List (Nat × List UInt8)} {a : Nat}
    (h : ∀ p ∈ pieces, a + 4 ≤ p.1 ∨ p.1 + p.2.length ≤ a) : (ofPieces pieces).word a = 0 := by
  have hbyte {i : Nat} (hi : i < 4) : (ofPieces pieces).bytes (a + i) = nul := by
    have hnone : pieces.find? (fun p => p.1 ≤ a + i && a + i < p.1 + p.2.length) = none := by
      refine List.find?_eq_none.mpr fun p hp => ?_
      rw [Bool.and_eq_true, decide_eq_true_eq, decide_eq_true_eq]
      have := h p hp
      omega
    exact congrArg (Option.elim · nul _) hnone
  rw [word, wordAt, hbyte (i := 1) (by decide), hbyte (i := 2) (by decide),
    hbyte (i := 3) (by decide), ← Nat.add_zero a, hbyte (i := 0) (by decide)]
  rfl

theorem loadable_programDisk : programDisk.Loadable 0 where
  inode_lt := by decide +kernel
  data_lt j hj := by
    have hword : programDisk.data 0 j = 0 := by
      refine Image.word_ofPieces ?_
      rw [blockSize]
      intro p hp
      simp only [List.mem_cons, List.not_mem_nil, or_false] at hp
      rcases hp with rfl | rfl | rfl | rfl | rfl <;>
        simp only [List.length_cons, List.length_nil] <;> omega
    rw [hword]
    decide +kernel
  magic := by decide +kernel
  min_length := by decide +kernel
  max_length := by decide +kernel

theorem execute_loads_programDisk :
    programDisk.named (some [112]) = some ⟨2, 0⟩ ∧ programDisk.Loadable 0 ∧
      ∃ k', Boot.zero.kernel.execute (programDisk.fileSystem noTests) (some [112]) ⟨0, 0⟩ [] =
          some (k', .started 0x8048018) ∧ k'.running = 1 ∧
        k'.display.load (progImg + 1) = 0x45 := by
  have hfields : (programDisk.named (some [112])).map (fun d => (d.fT, d.inodeIdx)) =
      some (2, 0) := by decide +kernel
  have hname : programDisk.named (some [112]) = some ⟨2, 0⟩ := by
    obtain ⟨⟨fT, inodeIdx⟩, hd, hf⟩ := Option.map_eq_some_iff.mp hfields
    cases hf
    exact hd
  obtain ⟨k', hk', -, hrun, hbytes, -⟩ := Kernel.execute_loads programDisk noTests
    Boot.zero.kernel (i := 0) (by decide +kernel) hname loadable_programDisk ⟨0, 0⟩ []
  have hentry : wordAt (programDisk.content 0) 24 = 0x8048018 := by decide +kernel
  have hbyte : programDisk.content 0 1 = 0x45 := by decide +kernel
  rw [hentry] at hk'
  exact ⟨hname, loadable_programDisk, k', hk', hrun,
    ((hbytes 1 (by decide +kernel)).1).trans hbyte⟩

end HarambeOs
