import HarambeOs.Descriptors

/-!
# Interrupts — the keyboard handler, the terminal switches and the timer handler

The keyboard handler of `keyboard.c` keeps the modifier flags, runs the test keys (Ctrl-L and Ctrl-1
to Ctrl-5), switches the displayed terminal (Alt-F1 to Alt-F3) and edits the line of the displayed
terminal.  `PIT_handler` of `pit.c` switches the active terminal.
-/

namespace HarambeOs

/-! ## Scan codes and key tables -/

def releaseStart : UInt8 := 0x81
def capsCode : UInt8 := 0x3A
def rightShiftPressed : UInt8 := 0x36
def leftShiftPressed : UInt8 := 0x2A
def rightShiftReleased : UInt8 := 0xB6
def leftShiftReleased : UInt8 := 0xAA
def ctrl : UInt8 := 0x1D
def ctrlRelease : UInt8 := 0x9D
def alt : UInt8 := 0x38
def altRelease : UInt8 := 0xB8
def keyL : UInt8 := 0x26
def backspaceCode : UInt8 := 0x0E
def one : UInt8 := 0x02
def two : UInt8 := 0x03
def three : UInt8 := 0x04
def four : UInt8 := 0x05
def five : UInt8 := 0x06
def f1 : UInt8 := 0x3B
def f2 : UInt8 := 0x3C
def f3 : UInt8 := 0x3D

/-- `kbdus`; the entries after the space bar are 0 in all four tables. -/
def kbdus : List UInt8 :=
  [0, 0, 49, 50, 51, 52, 53, 54, 55, 56, 57, 48, 45, 61, 0, 0,
    113, 119, 101, 114, 116, 121, 117, 105, 111, 112, 91, 93, 10, 0,
    97, 115, 100, 102, 103, 104, 106, 107, 108, 59, 39, 96, 0,
    92, 122, 120, 99, 118, 98, 110, 109, 44, 46, 47, 0, 0, 0, 32]

/-- `caps`. -/
def caps : List UInt8 :=
  [0, 0, 49, 50, 51, 52, 53, 54, 55, 56, 57, 48, 45, 61, 0, 0,
    81, 87, 69, 82, 84, 89, 85, 73, 79, 80, 91, 93, 10, 0,
    65, 83, 68, 70, 71, 72, 74, 75, 76, 59, 39, 96, 0,
    92, 90, 88, 67, 86, 66, 78, 77, 44, 46, 47, 0, 0, 0, 32]

/-- `shift_no_caps`. -/
def shiftNoCaps : List UInt8 :=
  [0, 0, 33, 64, 35, 36, 37, 94, 38, 42, 40, 41, 95, 43, 0, 0,
    81, 87, 69, 82, 84, 89, 85, 73, 79, 80, 123, 125, 10, 0,
    65, 83, 68, 70, 71, 72, 74, 75, 76, 58, 34, 126, 0,
    124, 90, 88, 67, 86, 66, 78, 77, 60, 62, 63, 0, 0, 0, 32]

/-- `shift_and_caps`. -/
def shiftAndCaps : List UInt8 :=
  [0, 0, 33, 64, 35, 36, 37, 94, 38, 42, 40, 41, 95, 43, 0, 0,
    113, 119, 101, 114, 116, 121, 117, 105, 111, 112, 123, 125, 10, 0,
    97, 115, 100, 102, 103, 104, 106, 107, 108, 58, 34, 126, 0,
    124, 122, 120, 99, 118, 98, 110, 109, 60, 62, 63, 0, 0, 0, 32]

/-- The codes the handler's first branch takes: every release code, and the modifier keys. -/
def isSpecial (scan : UInt8) : Bool :=
  scan ≥ releaseStart || scan == capsCode || scan == rightShiftPressed ||
    scan == leftShiftPressed || scan == ctrl || scan == alt

/-- The keys that do something while Ctrl is held. -/
def isTestKey (scan : UInt8) : Bool :=
  scan == keyL || scan == one || scan == two || scan == three || scan == four || scan == five

/-- `"too many processes\n"`. -/
def message : List UInt8 :=
  [116, 111, 111, 32, 109, 97, 110, 121, 32, 112, 114, 111, 99, 101, 115, 115, 101, 115, 10]

/-! ## The line editor's globals -/

namespace Editor

/-- The character a key stands for under the modifier flags, 0 for none. -/
def print (e : Editor) (scan : UInt8) : UInt8 :=
  (if e.rightShiftFlag || e.leftShiftFlag then
      if e.capsFlag then shiftAndCaps else shiftNoCaps
    else if e.capsFlag then caps else kbdus).getD scan.toNat nul

/-- The first branch of the handler.  The left shift flag is toggled, the others are set. -/
def modifiers (e : Editor) (scan : UInt8) : Editor :=
  { e with
    controlFlag := if scan = ctrl then true else if scan = ctrlRelease then false
      else e.controlFlag
    capsFlag := if scan = capsCode then !e.capsFlag else e.capsFlag
    rightShiftFlag := if scan = rightShiftPressed then true
      else if scan = rightShiftReleased then false else e.rightShiftFlag
    leftShiftFlag := if scan = leftShiftPressed then !e.leftShiftFlag
      else if scan = leftShiftReleased then !e.leftShiftFlag else e.leftShiftFlag
    altFlag := if scan = alt then true else if scan = altRelease then false else e.altFlag }

/-- `buffer[t][i] = c`, undefined outside the array. -/
def setBuffer (e : Editor) (t : Term) (i : Nat) (c : UInt8) : Option Editor :=
  if h : i < numberCodes then
    some { e with buffer := Function.update e.buffer t (Function.update (e.buffer t) ⟨i, h⟩ c) }
  else none

/-- The last character of the line taken off. -/
def erase (e : Editor) (t : Term) : Option Editor :=
  let e := { e with lineCount := Function.update e.lineCount t (e.lineCount t - 1) }
  (e.setBuffer t (e.lineCount t) nul).map fun e => { e with incOrDec := false }

/-- A character put at the end of the line. -/
def append (e : Editor) (t : Term) (c : UInt8) : Option Editor :=
  (e.setBuffer t (e.lineCount t) c).map fun e =>
    { e with incOrDec := true, lineCount := Function.update e.lineCount t (e.lineCount t + 1) }

/-- Enter: the line goes to `read`, which all terminals share. -/
def enterLine (e : Editor) (t : Term) : Editor :=
  { e with
    entFlag := Function.update e.entFlag t true
    read := e.buffer t
    buffer := Function.update e.buffer t fun _ => nul
    lineCount := Function.update e.lineCount t 0 }

/-- The pointer `control_l` is given by the cast of the two-dimensional array: four bytes of its
first row. -/
def bufferPtr (e : Editor) (t : Term) : Nat :=
  (e.buffer 0 ⟨4 * t, by rw [numberCodes]; omega⟩).toNat
    + (e.buffer 0 ⟨4 * t + 1, by rw [numberCodes]; omega⟩).toNat * 2 ^ 8
    + (e.buffer 0 ⟨4 * t + 2, by rw [numberCodes]; omega⟩).toNat * 2 ^ 16
    + (e.buffer 0 ⟨4 * t + 3, by rw [numberCodes]; omega⟩).toNat * 2 ^ 24

end Editor

/-! ## Terminal switches -/

namespace Display

/-- The part the three switches share: the displayed screen goes to its own page, the other
terminal's page to video memory. -/
def switchScreen (d : Display) (t : Term) : Display :=
  let d := { d with paging := d.paging.remapTermBefore d.currentTerminal }
  let d := d.memcpy (pageArr d.currentTerminal) video windowSize
  let d := { d with currentTerminal := t }
  let d := d.memcpy video (pageArr t) windowSize
  { d with paging := d.paging.remapTerm t }

/-- The screen scrolled, if the key needs it. -/
def scrollFor (d : Display) (scan : UInt8) (lineCount : Nat) (incOrDec : Bool) : Display :=
  if d.checkScreen scan lineCount incOrDec then d.scroll2 else d

/-- The echo of a character, after a newline where the line reaches the next row. -/
def echo (d : Display) (lineCount : Nat) (c : UInt8) : Display :=
  (if d.getScreenX 1 = 0 ∧ lineCount > 0 then d.putcNumber2 newline else d).putcNumber2 c

/-- What a test key prints. -/
def emit (d : Display) (outputs : List Output) : Display :=
  outputs.foldl
    (fun d output =>
      match output with
      | .write buf => (d.terminalWrite (some buf)).2
      | .print s => d.puts s) d

@[simp] theorem control_scrollFor (d : Display) (scan : UInt8) (n : Nat) (incOrDec : Bool) :
    (d.scrollFor scan n incOrDec).control = d.control := by
  unfold scrollFor
  split <;> rfl

@[simp] theorem control_echo (d : Display) (n : Nat) (c : UInt8) :
    (d.echo n c).control = d.control := by
  unfold echo
  split
  · rw [control_putcNumber2, control_putcNumber2]
  · rw [control_putcNumber2]

@[simp] theorem control_emit (d : Display) (outputs : List Output) :
    (d.emit outputs).control = d.control := by
  induction outputs generalizing d with
  | nil => rfl
  | cons output outputs ih =>
    refine (ih _).trans ?_
    cases output with
    | write buf => exact d.control_terminalWrite (some buf)
    | print s => exact d.control_puts s

end Display

namespace Kernel

/-- `first_terminal_switch`. -/
def firstTerminalSwitch (k : Kernel) : Kernel := { k with display := k.display.switchScreen 0 }

/-- Whether a switch to terminal `t` is turned down: it would launch a shell, and no process number
is free. -/
def refuses (k : Kernel) (t : Term) : Bool := !k.proc.universalCount && !k.proc.launchFlag t

/-- The first switch to a terminal makes it the active one and starts a shell there. -/
def launch (fs : FileSystem) (t : Term) (fr : Frame) (junk : List UInt8) (k : Kernel) :
    Option (Kernel × Outcome) :=
  let d := k.display.resetCursor
  Kernel.execute fs (some shell) fr junk
    { k with
      proc := { k.proc with launchFlag := Function.update k.proc.launchFlag t true }
      display := { d with activeTerminal := d.currentTerminal } }

/-- The body `second_terminal_switch` and `third_terminal_switch` share. -/
def laterTerminalSwitch (fs : FileSystem) (t : Term) (fr : Frame) (junk : List UInt8)
    (k : Kernel) : Option (Kernel × Outcome) :=
  if k.refuses t then
    some ({ k with display := (k.display.terminalWrite (some message)).2 }, .returned 0)
  else
    let k := { k with display := k.display.switchScreen t }
    if k.proc.launchFlag t then some (k, .returned 0) else k.launch fs t fr junk

/-- `second_terminal_switch`. -/
def secondTerminalSwitch (fs : FileSystem) := laterTerminalSwitch fs 1

/-- `third_terminal_switch`. -/
def thirdTerminalSwitch (fs : FileSystem) := laterTerminalSwitch fs 2

/-! ## The keyboard handler -/

/-- The test keys, with Ctrl held.  The handler of Ctrl-4 stays in its loop. -/
def testKey (fs : FileSystem) (scan : UInt8) (k : Kernel) : Option Kernel :=
  let t := k.display.currentTerminal
  let d := k.display.clear
  if scan = keyL then
    (d.controlL (k.editor.bufferPtr t) (k.editor.lineCount t)).map fun d =>
      { k with display := (d.setScroll (k.editor.lineCount t)).cursorWrapper 1 }
  else if scan = one then some { k with display := d.emit fs.readFs }
  else if scan = two then
    some { k with
      display := d.emit (fs.printDentryByName (k.editor.i % 17))
      editor := { k.editor with i := k.editor.i + 1 } }
  else if scan = three then
    some { k with
      display := d.emit (fs.printDentryByIndex (k.editor.k % 17))
      editor := { k.editor with k := k.editor.k + 1 } }
  else if scan = four then
    some { k with
      display := d
      rtc := (k.rtc.rtcWrite k.editor.rtcTest 4).1
      editor := { k.editor with
        read := fun _ => nul
        ctrl4Flag := true
        ctrl4Loops := k.editor.ctrl4Loops + 1
        rtcTest := k.editor.rtcTest * 2 % 2 ^ 32 } }
  else
    some { k with
      display := d.resetCursor
      rtc := (k.rtc.rtcWrite 2 4).1
      editor := { k.editor with
        buffer := Function.update k.editor.buffer t fun _ => nul
        ctrl4Flag := false
        rtcTest := 2 } }

/-- One turn of the loop a Ctrl-4 handler is in: a `1` for each clock interrupt, and the way out
once Ctrl-5 was pressed. -/
def ctrl4Turn (k : Kernel) : Option Kernel :=
  if k.editor.ctrl4Loops = 0 then none
  else if k.editor.ctrl4Flag then
    some { k with display := (k.display.terminalWrite (some [49])).2 }
  else
    some { k with
      display :=
        (k.display.setScroll (k.editor.lineCount k.display.currentTerminal)).cursorWrapper 1
      editor := { k.editor with ctrl4Loops := k.editor.ctrl4Loops - 1 } }

/-- The part of the handler from the key tables on: scrolling, Backspace, characters, Enter. -/
def lineKey (scan : UInt8) (k : Kernel) : Option Kernel :=
  let t := k.display.currentTerminal
  let n := k.editor.lineCount t
  let c := k.editor.print scan
  let d := k.display.scrollFor scan n k.editor.incOrDec
  if scan = backspaceCode then
    if n > 0 then (k.editor.erase t).map fun e => { k with editor := e, display := d.backspace }
    else some { k with display := d }
  else if c = nul then some { k with display := d }
  else if scan = enter then
    some { k with editor := k.editor.enterLine t, display := d.putcNumber2 newline }
  else if n < numberCodes then
    (k.editor.append t c).map fun e => { k with editor := e, display := d.echo n c }
  else some { k with display := d }

/-- `keyboard`, on what the status and the data port give.  Code `0x80` is not a release code to the
handler and lies outside its tables. -/
def keyboard (fs : FileSystem) (status scan : UInt8) (fr : Frame) (junk : List UInt8) (k : Kernel) :
    Option (Kernel × Outcome) :=
  let k := { k with display := k.display.cursorWrapper 1 }
  if status = 0 then some (k, .returned 0)
  else if isSpecial scan then some ({ k with editor := k.editor.modifiers scan }, .returned 0)
  else if k.editor.controlFlag ∧ isTestKey scan then
    (k.testKey fs scan).map fun k => (k, .returned 0)
  else if k.editor.altFlag ∧ scan = f1 then some (k.firstTerminalSwitch, .returned 0)
  else if k.editor.altFlag ∧ scan = f2 then k.secondTerminalSwitch fs fr junk
  else if k.editor.altFlag ∧ scan = f3 then k.thirdTerminalSwitch fs fr junk
  else if scan = 0x80 then none
  else (k.lineKey scan).map fun k => (k, .returned 0)

/-! ## The timer handler -/

/-- The search loop of `PIT_handler`, with `n` turns: three turns look at every terminal, so a
search that finds none does not end. -/
def findTerm (flag : Term → Bool) : Nat → Term → Option Term
  | 0, _ => none
  | n + 1, t => if flag t then some t else findTerm flag n (t + 1)

/-- The terminal a tick switches to. -/
def nextTerm (k : Kernel) : Option Term :=
  findTerm (fun t => (k.proc.termArr t).flag) possibleTerms
    (Fin.ofNat 3 ((k.proc.slots k.running).termNum + 1))

/-- The running process's context saved, and the process of terminal `t` in its place. -/
def switchTask (fr : Frame) (t : Term) (k : Kernel) : Kernel :=
  let processes := Function.update k.proc.processes ((k.running : Int) - 1) fr
  let curr := (k.proc.termArr t).lastActivePro
  { k with
    proc := { k.proc with processes := processes, tssEsp0 := stackTop curr }
    display := { k.display.remapPaging (userFrame curr) with activeTerminal := t }
    cpu := processes ((curr : Int) - 1) }

/-- `PIT_handler`, entered with the stack registers `fr`. -/
def pitHandler (fr : Frame) (k : Kernel) : Option Kernel :=
  if k.running = 0 then some k else k.nextTerm.map fun t => k.switchTask fr t

end Kernel

end HarambeOs
