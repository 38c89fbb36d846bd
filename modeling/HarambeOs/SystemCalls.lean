import HarambeOs.Kernel

/-!
# SystemCalls — `c_execute` and `c_halt`

`c_execute` is cut at the points where its effect on the globals changes hands: `chooseSlot` takes
a process number, `loadImage` maps the user page and reads the program, `buildPcb` fills in the PCB,
and `commit` makes the new process the active one of its terminal.  When no number was free it
prints an error and unwinds through `c_halt`, which in turn starts a new shell for a terminal whose
last process halts.
-/

namespace HarambeOs

/-! ## Parsing the command -/

/-- The bytes of a NUL-terminated command, and NULs after it. -/
def commandAt (command : List UInt8) (i : Nat) : UInt8 := command.getD i nul

/-- The loop that copies the file name, with `n` characters left before the limit: the name, the
index it stops at, and whether a space was seen ahead. -/
def nameLoop (command : List UInt8) (i : Nat) (argFlag : Bool) : Nat → List UInt8 × Nat × Bool
  | 0 => ([], i, argFlag)
  | n + 1 =>
    if commandAt command i = space ∨ commandAt command i = nul then ([], i, argFlag)
    else
      let r := nameLoop command (i + 1) (argFlag || commandAt command (i + 1) = space) n
      (commandAt command i :: r.1, r.2)

/-- The loop that copies the arguments from index `i` on, with `n` characters left. -/
def argLoop (command : List UInt8) (i : Nat) : Nat → List UInt8
  | 0 => []
  | n + 1 =>
    if commandAt command i = nul then [] else commandAt command i :: argLoop command (i + 1) n

/-- The file name of a command, and its arguments if it has any. -/
def parseCommand (command : List UInt8) : List UInt8 × Option (List UInt8) :=
  let r := nameLoop command 0 false maxCharCount
  (r.1, if r.2.2 then some (argLoop command (r.2.1 + 1) (maxCharCount - (r.2.1 + 1))) else none)

/-- `strncmp(s1, s2, n) == 0`, on the bytes from `i` on. -/
def strncmpEq (s1 s2 : Nat → UInt8) (i : Nat) : Nat → Bool
  | 0 => true
  | n + 1 => if s1 i ≠ s2 i then false else if s1 i = nul then true else strncmpEq s1 s2 (i + 1) n

/-- The first four bytes of an ELF file. -/
def magicBuf : List UInt8 := [0x7f, 0x45, 0x4c, 0x46]

/-- The four-byte array `check` after the read: what was read over what was on the stack. -/
def checkBuf (junk : List UInt8) (bytes : Option (List UInt8)) (i : Nat) : UInt8 :=
  (bytes.getD []).getD i (junk.getD i nul)

/-- The inode of the program a name stands for, if it is an executable. -/
def findProgram (fs : FileSystem) (name junk : List UInt8) : Option Nat :=
  match fs.readDentryByName name with
  | none => none
  | some dentry =>
    if strncmpEq (checkBuf junk (fs.readData dentry.inodeIdx 0 b4)) (fun i => magicBuf.getD i nul)
        0 b4 then some dentry.inodeIdx
    else none

/-- `"shell"`. -/
def shell : List UInt8 := [115, 104, 101, 108, 108]

/-- `"error: too many processes\n"`. -/
def tooManyError : List UInt8 :=
  [101, 114, 114, 111, 114, 58, 32, 116, 111, 111, 32, 109, 97, 110, 121, 32, 112, 114, 111, 99,
    101, 115, 115, 101, 115, 10]

/-! ## The parts of `c_execute` -/

/-- `c_pcb`: the standard descriptors, and the other six closed. -/
def cPcb (processCounter : Nat) (pcb : Pcb) : Pcb :=
  let pcb' : Pcb :=
    if processCounter > 0 then
      { pcb with
        pid := processCounter
        fdArray := Function.update
          (Function.update pcb.fdArray 0 ⟨some .stdin, 0, minusOne, 1⟩) 1
          ⟨some .stdout, 0, minusOne, 1⟩ }
    else pcb
  { pcb' with
    fdArray := fun i => if minCount ≤ i ∧ i < totalFds then ⟨none, 0, minusOne, 0⟩
      else pcb'.fdArray i }

namespace Proc

/-- `init_terms`. -/
def initTerms (p : Proc) : Proc :=
  { p with intiFlag := true, termArr := fun _ => ⟨0, false, 0⟩ }

/-- The arguments stored for `c_getargs`, with the NUL after them.  `arg_size` only grows. -/
def storeArgs (p : Proc) : Option (List UInt8) → Proc
  | none => p
  | some args =>
    { p with
      getArgs := fun j => if j < args.length then args.getD j nul
        else if j = args.length then nul else p.getArgs j
      argSize := p.argSize + args.length }

/-- The lowest free index of `PID_arr`. -/
def freeIndex (p : Proc) : Option Nat := (List.range findUniversal).find? fun i => !p.pidArr i

/-- `universal_count() != 0`. -/
def universalCount (p : Proc) : Bool := p.freeIndex.isSome

/-- The loop over `PID_arr`, and the number that stands for a full table.  The second component is
`count`. -/
def chooseSlot (p : Proc) : Proc × Nat :=
  let r : Proc × Nat :=
    match p.freeIndex with
    | some i => ({ p with pidArr := Function.update p.pidArr i true, processCounter := i + 1 }, i)
    | none => (p, findUniversal)
  if r.2 > maxProcessVal then ({ r.1 with processCounter := maxProcessSet }, r.2) else r

end Proc

namespace Display

/-- The bytes a read brought in, stored from `va` on.  A store to a page that is not present faults,
and the call does not complete. -/
def readInto (d : Display) (va : Nat) (bytes : List UInt8) : Option Display :=
  if ∀ i < bytes.length, (d.paging.translate (va + i)).isSome then
    some (d.storeBytes va (fun i => bytes.getD i nul) bytes.length)
  else none

/-- A 32-bit load. -/
def load32 (d : Display) (va : Nat) : Nat := wordAt d.load va

/-- `remap_paging`, on the whole display. -/
def remapPaging (d : Display) (physicalAddress : Nat) : Display :=
  { d with paging := d.paging.remapPaging physicalAddress }

end Display

/-- Where control is after a system call of the process table: back in the caller, at the entry
point of a new program, or in the `c_execute` call whose frame `c_halt` restored. -/
inductive Outcome
  | returned (value : Int)
  | started (eip : Nat)
  | resumed (status : UInt8)
  deriving DecidableEq

namespace Kernel

/-- The user page of the new process, its entry point, and the program. -/
def loadImage (fs : FileSystem) (inode : Nat) (k : Kernel) : Option (Kernel × Nat) :=
  let d := k.display.remapPaging (userFrame k.proc.processCounter)
  (d.readInto progImg ((fs.readData inode entryOffset b4).getD [])).bind fun d' =>
    (d'.readInto progImg ((fs.readData inode 0 mb4).getD [])).map fun d'' =>
      ({ k with display := d'' }, d'.load32 progImg)

/-- The global `PCB` pointed at the new slot, the caller's frame saved there, `c_pcb`. -/
def buildPcb (k : Kernel) : Kernel :=
  let p := k.proc.processCounter
  let pcb := { k.proc.slots p with parentEbp := k.cpu.ebp, parentEsp := k.cpu.esp }
  { k with proc := { k.proc with
      pcb := some p
      slots := Function.update k.proc.slots p (cPcb p pcb) } }

/-- `PCB->…` written, through the global pointer. -/
def updatePcb (k : Kernel) (f : Pcb → Pcb) : Kernel :=
  match k.proc.pcb with
  | some p =>
    { k with proc := { k.proc with
        slots := Function.update k.proc.slots p (f (k.proc.slots p)) } }
  | none => k

/-- The part of `c_execute` from the parent link to `tss.esp0`. -/
def commit (k : Kernel) : Kernel :=
  let p := k.proc.processCounter
  let t := k.display.activeTerminal
  let k := if k.activeEntry.flag = false then
      (k.updatePcb fun b => { b with parentPid := 0 }).setActiveEntry
        { k.activeEntry with flag := true }
    else k.updatePcb fun b => { b with parentPid := k.activeEntry.lastActivePro }
  let k := k.setActiveEntry { k.activeEntry with lastActivePro := p }
  let k := k.updatePcb fun b => { b with pid := p, termNum := t, esp0 := stackTop p }
  { k with proc := { k.proc with tssEsp0 := stackTop p } }

/-! ## `c_halt` -/

/-- The first part of `c_halt`: the process leaves the table.  Also the parent it returns to and
the slot of its PCB.  With `flagger` set it is a process that never entered the table, in slot 7. -/
def haltRelease (k : Kernel) : Kernel × Nat × Nat :=
  if k.proc.flagger then
    ({ k with proc := { k.proc with flagger := false } }, k.running, 7)
  else
    let curr := k.running
    let pcb := k.proc.slots curr
    let k' := k.setActiveEntry { k.activeEntry with lastActivePro := pcb.parentPid }
    ({ k' with proc := { k'.proc with
        pidArr := Function.update k'.proc.pidArr (pcb.pid - 1) false } }, pcb.parentPid, curr)

/-- The last part of `c_halt`: stack top, user page and registers of the parent.  The loop that
closes the open descriptors calls device functions that do nothing. -/
def haltRestore (k : Kernel) (parentNum curr : Nat) : Kernel :=
  { k with
    proc := { k.proc with tssEsp0 := stackTop parentNum }
    display := k.display.remapPaging (userFrame parentNum)
    cpu := ⟨(k.proc.slots curr).parentEsp, (k.proc.slots curr).parentEbp⟩ }

/-- `c_halt`, given what its call of `c_execute("shell")` does. -/
def cHaltWith (execShell : Kernel → Option (Kernel × Outcome)) (status : UInt8) (k : Kernel) :
    Option (Kernel × Outcome) :=
  let r := k.haltRelease
  if r.2.1 = 0 then
    match execShell r.1 with
    | none => none
    | some (k', .started eip) => some (k', .started eip)
    | some (k', _) => some (k'.haltRestore r.2.1 r.2.2, .resumed status)
  else some (r.1.haltRestore r.2.1 r.2.2, .resumed status)

/-- The first statements of `c_execute`: `init_terms` on the first call, and the arguments. -/
def prepare (args : Option (List UInt8)) (k : Kernel) : Kernel :=
  let proc := if k.proc.intiFlag then k.proc else k.proc.initTerms
  { k with proc := proc.storeArgs args }

/-- The error of a full table; `flagger` tells `c_halt` that the process never entered it. -/
def tooMany (k : Kernel) : Kernel :=
  { k with
    display := (k.display.terminalWrite (some tooManyError)).2
    proc := { k.proc with flagger := true } }

/-- `c_execute` from the choice of a number on, given what its call of `c_halt` does. -/
def startProgram (fs : FileSystem) (halt : Kernel → Option (Kernel × Outcome)) (inode : Nat)
    (k : Kernel) : Option (Kernel × Outcome) :=
  let chosen := k.proc.chooseSlot
  match loadImage fs inode { k with proc := chosen.1 } with
  | none => none
  | some (k, eip) =>
    if chosen.2 > maxProcessVal then halt k.buildPcb.tooMany
    else some (k.buildPcb.commit, .started eip)

/-- `c_execute`, given what its call of `c_halt` does.  `junk` is what the stack held where `check`
is. -/
def cExecuteWith (fs : FileSystem) (junk : List UInt8)
    (halt : Kernel → Option (Kernel × Outcome)) (command : Option (List UInt8)) (k : Kernel) :
    Option (Kernel × Outcome) :=
  match command with
  | none => some (k.prepare none, .returned (-1))
  | some command =>
    let parsed := parseCommand command
    match findProgram fs parsed.1 junk with
    | none => some (k.prepare parsed.2, .returned (-1))
    | some inode => (k.prepare parsed.2).startProgram fs halt inode

/-- `c_execute`, up to `depth` calls of itself through `c_halt`. -/
def cExecute (fs : FileSystem) (junk : List UInt8) :
    Nat → Option (List UInt8) → Kernel → Option (Kernel × Outcome)
  | 0 => fun _ _ => none
  | depth + 1 => cExecuteWith fs junk (cHaltWith (cExecute fs junk depth (some shell)) 0)

/-- `c_execute` calls itself only through the `c_halt` of a full table, and only for a terminal with
no process; its second call then finds the table as full as the first did. -/
def callDepth : Nat := 2

/-- `c_execute`, called with the registers `fr`. -/
def execute (fs : FileSystem) (command : Option (List UInt8)) (fr : Frame) (junk : List UInt8)
    (k : Kernel) : Option (Kernel × Outcome) :=
  cExecute fs junk callDepth command { k with cpu := fr }

/-- `c_halt`, whose own call of `c_execute` has the registers `fr`. -/
def cHalt (fs : FileSystem) (status : UInt8) (fr : Frame) (junk : List UInt8) (k : Kernel) :
    Option (Kernel × Outcome) :=
  cHaltWith (execute fs (some shell) fr junk) status k

end Kernel

end HarambeOs
