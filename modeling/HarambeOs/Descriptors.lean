import HarambeOs.SystemCalls

/-!
# Descriptors — the open-file table and the system calls that work on it

`c_read`, `c_write`, `c_open` and `c_close` find the table through the global pointer `PCB` and
dispatch on the jump table of the entry.  The file and directory drivers look the process up again,
through `get_process_count`.  A call through a null pointer, and a wait that is not over, do not
complete: the result is `none`.

A buffer is the caller's memory from the pointer on.
-/

namespace HarambeOs

/-- The caller's memory from a pointer on. -/
abbrev Buf := Nat → UInt8

/-- A 32-bit argument read as unsigned. -/
def toUnsigned (n : Int) : Nat := (n % 2 ^ 32).toNat

/-! ## `rtc.c` -/

/-- The rate of a frequency the switch of `rtc_write` knows. -/
def rateOf : Nat → Option UInt8
  | 1024 => some 6
  | 512 => some 7
  | 256 => some 8
  | 128 => some 9
  | 64 => some 10
  | 32 => some 11
  | 16 => some 12
  | 8 => some 13
  | 4 => some 14
  | 2 => some 15
  | _ => none

namespace Rtc

/-- The low nibble of register A written. -/
def setRate (r : Rtc) (rate : UInt8) : Rtc :=
  { r with registerA := (r.registerA &&& 0xF0) ||| rate }

/-- `rtc_write` of the 32-bit value `freq`. -/
def rtcWrite (r : Rtc) (freq : Nat) (nbytes : Int) : Rtc × Int :=
  if nbytes ≠ 4 then (r, -1)
  else
    let r := { r with rate := (rateOf freq).getD r.rate }
    (r.setRate r.rate, 0)

/-- `rtc_open`. -/
def rtcOpen (r : Rtc) : Rtc := r.setRate 15

end Rtc

/-! ## Entries of the table -/

namespace Pcb

/-- One entry of the table changed. -/
def setFd (pcb : Pcb) (i : Nat) (fd : Fd) : Pcb :=
  { pcb with fdArray := Function.update pcb.fdArray i fd }

/-- The words the free-entry scan of `FD_Populate` looks at: the flags of the eight entries, the
field of the PCB that a ninth entry's flags would be, and then the memory after the PCB. -/
def flagWords (pcb : Pcb) (beyond : List Nat) : List Nat :=
  (List.range totalFds).map (fun i => (pcb.fdArray i).flags) ++ pcb.parentEsp :: beyond

/-- The entry `FD_Populate` writes for a file of the given type; a type it does not know leaves the
entry as it is. -/
def populate (pcb : Pcb) (i : Nat) (dentry : Dentry) : Pcb :=
  match dentry.fT with
  | 0 => pcb.setFd i ⟨some .rtc, 0, minusOne, 1⟩
  | 1 => pcb.setFd i ⟨some .directory, 0, 0, 1⟩
  | 2 => pcb.setFd i ⟨some .file, dentry.inodeIdx, 0, 1⟩
  | _ => pcb

/-- The entry for a file of one of the three types. -/
def entryFor (dentry : Dentry) : Fd :=
  match dentry.fT with
  | 0 => ⟨some .rtc, 0, minusOne, 1⟩
  | 1 => ⟨some .directory, 0, 0, 1⟩
  | _ => ⟨some .file, dentry.inodeIdx, 0, 1⟩

/-- **What `FD_Populate` writes**: the entry for the file, or nothing. -/
theorem populate_eq_ite (pcb : Pcb) (i : Nat) (d : Dentry) :
    pcb.populate i d = if d.fT ≤ 2 then pcb.setFd i (entryFor d) else pcb := by
  unfold populate entryFor
  split
  · next h =>
    rw [if_pos (by omega), h]
    rfl
  · next h =>
    rw [if_pos (by omega), h]
    rfl
  · next h =>
    rw [if_pos (by omega), h]
    rfl
  · next h₀ h₁ h₂ =>
    have hne : d.fT ≠ 0 ∧ d.fT ≠ 1 ∧ d.fT ≠ 2 := ⟨h₀, h₁, h₂⟩
    rw [if_neg (by omega)]

end Pcb

namespace Kernel

/-- A slot of the PCB area changed. -/
def setSlot (k : Kernel) (p : Nat) (pcb : Pcb) : Kernel :=
  { k with proc := { k.proc with slots := Function.update k.proc.slots p pcb } }

/-! ## The drivers -/

/-- `terminal_read`, complete once Enter was pressed on the active terminal.  It clears 128 bytes of
the buffer whatever `nbytes` is; past the 128 bytes of `read` it copies the memory `beyond`. -/
def terminalRead (k : Kernel) (buf : Buf) (nbytes : Int) (beyond : Buf) :
    Option (Kernel × Int × Buf) :=
  if k.editor.entFlag k.display.activeTerminal then
    some ({ k with editor := { k.editor with
        entFlag := Function.update k.editor.entFlag k.display.activeTerminal false
        read := fun _ => nul } },
      numberCodes,
      fun j => if (j : Int) < nbytes then
          if h : j < numberCodes then k.editor.read ⟨j, h⟩ else beyond j
        else if j < numberCodes then nul else buf j)
  else none

/-- `file_read`.  The inode and the position come from the running process, the new position goes to
the process `PCB` points at. -/
def fileRead (fs : FileSystem) (pcb : Nat) (fd : Nat) (buf : Buf) (nbytes : Int) (k : Kernel) :
    Kernel × Int × Buf :=
  let entry := (k.proc.slots k.running).fdArray fd
  let bytes := fs.readData entry.inode entry.position (toUnsigned nbytes)
  let bytesRead : Int := bytes.elim (-1) (·.length)
  let buf' : Buf := fun j => (bytes.getD []).getD j (buf j)
  if buf' 0 = nul then (k, 0, buf')
  else
    let old := (k.proc.slots pcb).fdArray fd
    (k.setSlot pcb ((k.proc.slots pcb).setFd fd
      { old with position := toUnsigned (old.position + bytesRead) }), bytesRead, buf')

/-- `direct_read`: the name of the next entry.  A negative `nbytes` makes `strncpy` run off the end
of memory. -/
def directRead (fs : FileSystem) (fd : Nat) (buf : Buf) (nbytes : Int) (k : Kernel) :
    Option (Kernel × Int × Buf) :=
  let entry := (k.proc.slots k.running).fdArray fd
  match fs.readDentryByIndex entry.position with
  | none => some (k, 0, buf)
  | some name =>
    if nbytes = 0 then some (k, 0, buf)
    else if nbytes < 0 then none
    else
      let n := min nbytes.toNat name.length
      some (k.setSlot k.running ((k.proc.slots k.running).setFd fd
          { entry with position := toUnsigned (entry.position + 1) }),
        n, fun j => if j < n then name.getD j nul else buf j)

/-! ## The system calls -/

/-- `c_read`: the value returned and the buffer after. -/
def cRead (fs : FileSystem) (fd : Int) (buf : Option Buf) (nbytes : Int) (beyond : Buf)
    (k : Kernel) : Option (Kernel × Int × Option Buf) :=
  match buf with
  | none => some (k, -1, none)
  | some buf =>
    if fd > maxFdVal ∨ fd < 0 then some (k, -1, some buf)
    else
      match k.proc.pcb with
      | none => none
      | some pcb =>
        let entry := (k.proc.slots pcb).fdArray fd.toNat
        if entry.flags = 0 ∨ fd = 1 then some (k, -1, some buf)
        else
          match entry.operations with
          | some .stdin => (k.terminalRead buf nbytes beyond).map fun r => (r.1, r.2.1, some r.2.2)
          | some .file =>
            if k.running = 0 then none
            else
              let r := k.fileRead fs pcb fd.toNat buf nbytes
              some (r.1, r.2.1, some r.2.2)
          | some .directory =>
            if k.running = 0 then none
            else (k.directRead fs fd.toNat buf nbytes).map fun r => (r.1, r.2.1, some r.2.2)
          | some .rtc => some (k, 0, some buf)
          | some .stdout => none
          | none => none

/-- `c_write`: the value returned and the buffer after, where `terminal_write` replaces NULs. -/
def cWrite (fd : Int) (buf : Option Buf) (nbytes : Int) (k : Kernel) :
    Option (Kernel × Int × Option Buf) :=
  match buf with
  | none => some (k, -1, none)
  | some buf =>
    if fd > maxFdVal ∨ fd ≤ 0 then some (k, -1, some buf)
    else
      match k.proc.pcb with
      | none => none
      | some pcb =>
        let entry := (k.proc.slots pcb).fdArray fd.toNat
        if entry.flags = 0 then some (k, -1, some buf)
        else
          match entry.operations with
          | some .stdout =>
            let r := k.display.terminalWrite (some ((List.range nbytes.toNat).map buf))
            some ({ k with display := r.2 }, r.1,
              some fun j => if (j : Int) < nbytes ∧ buf j = nul then space else buf j)
          | some .file => some (k, 0, some buf)
          | some .directory => some (k, 0, some buf)
          | some .rtc =>
            let r := k.rtc.rtcWrite (wordAt buf 0) nbytes
            some ({ k with rtc := r.1 }, r.2, some buf)
          | some .stdin => none
          | none => none

/-- `FD_Populate`, with the memory `beyond` the PCB that its scan may run into. -/
def fdPopulate (fs : FileSystem) (fname : List UInt8) (beyond : List Nat) (k : Kernel) :
    Option (Kernel × Int) :=
  match k.proc.pcb with
  | none => none
  | some pcb =>
    match ((k.proc.slots pcb).flagWords beyond).findIdx? (· == 0) with
    | none => none
    | some i =>
      if i > maxFdVal then some (k, -1)
      else
        match fs.readDentryByName fname with
        | none => some (k, -1)
        | some dentry => some (k.setSlot pcb ((k.proc.slots pcb).populate i dentry), i)

/-- `c_open`. -/
def cOpen (fs : FileSystem) (filename : Option (List UInt8)) (beyond : List Nat) (k : Kernel) :
    Option (Kernel × Int) :=
  match filename with
  | none => some (k, -1)
  | some fname =>
    match k.fdPopulate fs fname beyond with
    | none => none
    | some (k', i) =>
      if i = -1 then some (k', -1)
      else
        match (k'.proc.pcb.map fun pcb => ((k'.proc.slots pcb).fdArray i.toNat).operations) with
        | some (some .rtc) => some ({ k' with rtc := k'.rtc.rtcOpen }, i)
        | some (some .file) => some (k', i)
        | some (some .directory) => some (k', i)
        | _ => none

/-- `c_close`. -/
def cClose (fd : Int) (k : Kernel) : Option (Kernel × Int) :=
  if fd < minCount ∨ fd > maxFdVal then some (k, -1)
  else
    match k.proc.pcb with
    | none => none
    | some pcb =>
      if ((k.proc.slots pcb).fdArray fd.toNat).flags = 0 then some (k, -1)
      else some (k.setSlot pcb ((k.proc.slots pcb).setFd fd.toNat ⟨none, 0, minusOne, 0⟩), 0)

/-- `c_getargs`: `arg_size` is not reset. -/
def cGetargs (buf : Option Buf) (nbytes : Int) (k : Kernel) : Kernel × Int × Option Buf :=
  match buf with
  | none => (k, -1, none)
  | some buf =>
    if (k.proc.argSize : Int) + 1 > nbytes then (k, -1, some buf)
    else
      ({ k with proc := { k.proc with
          getArgs := fun i => if i < 1024 then nul else k.proc.getArgs i } }, 0,
        some fun j => if j < k.proc.argSize then k.proc.getArgs j
          else if j < 128 then nul else buf j)

/-- `c_vidmap`, with the pointer stored through `screen_start`. -/
def cVidmap (screenStart : Nat) (k : Kernel) : Kernel × Int :=
  if screenStart < mb128 ∨ screenStart ≥ mb132 then (k, -1)
  else
    let d := { k.display with
      paging := k.display.paging.mapVideo k.display.currentTerminal k.display.activeTerminal }
    ({ k with display :=
        d.storeBytes screenStart (fun i => UInt8.ofNat (mb132 / 256 ^ i)) 4 }, 0)

end Kernel

end HarambeOs
