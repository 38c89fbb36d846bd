import HarambeOs.Display

/-!
# Kernel — the state of the kernel

One record for each group of globals: `Proc` for `system_calls.c` and `pit.c` (the process table,
the PCB slots, the saved contexts), `Editor` for the keyboard handler of `keyboard.c`, `Rtc` for
`rtc.c`, next to the `Display`.  Int flags that only ever hold 0 and 1 are Booleans.

The file system is what the kernel reads of it: a name to a directory entry, a range of a file to
its bytes, and the lines the test keys print.
-/

namespace HarambeOs

/-! ## Constants of `system_calls.h`, `pit.h` and `keyboard.h` -/

def kb8 : Nat := 8192
def progImg : Nat := 0x8048000
def minCount : Nat := 2
def maxFdVal : Nat := 7
def entryOffset : Nat := 24
def b4 : Nat := 4
def maxProcessVal : Nat := 5
def maxProcessSet : Nat := 7
def maxCharCount : Nat := 100
def totalFds : Nat := 8
def findUniversal : Nat := 6
def possibleTerms : Nat := 3
def numberCodes : Nat := 128

/-- The 32-bit word the source writes as `-1`. -/
def minusOne : Nat := 2 ^ 32 - 1

/-! ## Processes -/

/-- The pair of stack registers that the inline assembly saves and restores. -/
structure Frame where
  esp : Nat
  ebp : Nat
  deriving DecidableEq

/-- The five jump tables of `system_calls.c`. -/
inductive Device
  | file
  | directory
  | rtc
  | stdin
  | stdout
  deriving DecidableEq

/-- `FD_t`; `operations` is `none` for a null pointer. -/
structure Fd where
  operations : Option Device
  inode : Nat
  position : Nat
  flags : Nat
  deriving DecidableEq

/-- `PCB_t`, without the two fields nothing reads or writes. -/
structure Pcb where
  pid : Nat
  parentPid : Nat
  fdArray : Nat → Fd
  esp0 : Nat
  termNum : Nat
  parentEsp : Nat
  parentEbp : Nat

/-- `term_t`. -/
structure TermEntry where
  lastActivePro : Nat
  flag : Bool
  view : Nat
  deriving DecidableEq

/-- The globals of `system_calls.c`, the context array of `pit.c`, the task state's stack pointer,
and the flags of `keyboard.c` that say which terminals were ever switched to.

A PCB is named by its slot: slot `p` is the one at `MB_8 - p * KB_8`, and `pcb` is the pointer
`PCB`, `none` before it is first set. -/
structure Proc where
  processCounter : Nat
  pcb : Option Nat
  getArgs : Nat → UInt8
  argSize : Nat
  pidArr : Nat → Bool
  termArr : Term → TermEntry
  intiFlag : Bool
  flagger : Bool
  slots : Nat → Pcb
  /-- The saved contexts.  Index `-1` is the memory before the array. -/
  processes : Int → Frame
  tssEsp0 : Nat
  /-- `term_2_flag` at the second terminal, `term_3_flag` at the third. -/
  launchFlag : Term → Bool

/-! ## The keyboard handler and the clock -/

/-- The globals of the keyboard handler.  `ctrl4Loops` counts the handlers that are still in the
Ctrl-4 loop. -/
structure Editor where
  capsFlag : Bool
  rightShiftFlag : Bool
  leftShiftFlag : Bool
  controlFlag : Bool
  altFlag : Bool
  entFlag : Term → Bool
  incOrDec : Bool
  ctrl4Flag : Bool
  ctrl4Loops : Nat
  buffer : Term → Fin numberCodes → UInt8
  read : Fin numberCodes → UInt8
  lineCount : Term → Nat
  rtcTest : Nat
  i : Nat
  k : Nat

/-- The rate variable of `rtc.c` and register A of the device. -/
structure Rtc where
  rate : UInt8
  registerA : UInt8

/-! ## The file system, as the rest of the kernel sees it -/

/-- The fields of `dentry_t` that a lookup fills in. -/
structure Dentry where
  fT : Nat
  inodeIdx : Nat

/-- What a test key prints: through `terminal_write`, or through `printf`. -/
inductive Output
  | write (buf : List UInt8)
  | print (s : List UInt8)

/-- The functions of `file_system_driver.c` for one image.  `readData` gives the bytes copied into
the caller's buffer, whose number is the value returned, and `none` for `-1`; `readDentryByIndex`
gives the name of an entry up to its NUL. -/
structure FileSystem where
  readDentryByName : List UInt8 → Option Dentry
  readDentryByIndex : Nat → Option (List UInt8)
  readData : (inode offset length : Nat) → Option (List UInt8)
  readFs : List Output
  printDentryByName : Nat → List Output
  printDentryByIndex : Nat → List Output

/-! ## The whole -/

/-- The kernel: its globals, and the stack registers as the assembly last left them. -/
structure Kernel where
  display : Display
  editor : Editor
  proc : Proc
  rtc : Rtc
  cpu : Frame

namespace Kernel

/-- `term_arr[get_active_term()]`. -/
def activeEntry (k : Kernel) : TermEntry := k.proc.termArr k.display.activeTerminal

/-- The running process: `get_process_num`, `get_process_count`.  It is 0 while none runs. -/
def running (k : Kernel) : Nat := k.activeEntry.lastActivePro

/-- `term_arr[get_active_term()]` changed. -/
def setActiveEntry (k : Kernel) (e : TermEntry) : Kernel :=
  { k with proc := { k.proc with
      termArr := Function.update k.proc.termArr k.display.activeTerminal e } }

end Kernel

/-- Slot `p`'s kernel stack: the value `tss.esp0` is given for process `p`. -/
def stackTop (p : Nat) : Nat := mb8 - p * kb8 - b4

/-- The physical address of process `p`'s 4 MB user page. -/
def userFrame (p : Nat) : Nat := mb4 + p * mb4

theorem userFrame_or (p : Nat) : userFrame p ||| flags = userFrame p + flags := by
  have h := Nat.two_pow_add_eq_or_of_lt (show flags < 2 ^ 22 by decide) (p + 1)
  rw [show 2 ^ 22 * (p + 1) = userFrame p by rw [userFrame, mb4]; omega] at h
  exact h.symm

/-- An address of the user page is in the frame of the process the page was mapped for. -/
theorem translate_user (pg : Paging) (p : Nat) {va : Nat} (h : mb128 ≤ va) (h' : va < mb132) :
    (pg.remapPaging (userFrame p)).translate va = some (userFrame p + va % 2 ^ 22) := by
  have hidx : va / 2 ^ 22 = mb128 >>> entryIdx := by
    rw [show mb128 >>> entryIdx = 32 from rfl]
    rw [mb128] at h
    rw [mb132] at h'
    omega
  rw [Paging.translate, hidx, Paging.directory_remapPaging, userFrame_or, userFrame, flags, mb4]
  simp only
  rw [if_neg (by omega), if_pos (by omega)]
  exact congrArg some (by omega)

end HarambeOs
