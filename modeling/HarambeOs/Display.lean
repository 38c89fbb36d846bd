import HarambeOs.Paging

/-!
# Display — video memory behind the page table, the cursors, and the output functions

`lib.c` writes characters to video memory through virtual addresses: program output goes through
the page of the active (scheduled) terminal, keyboard echo through `VIDEO`.  Both paths are the same
code at different addresses, `putAt` and `scrollAt` below.  `terminal_write` of `keyboard.c` drives
them.
-/

namespace HarambeOs

/-! ## Constants of `lib.c`, `lib.h` and `keyboard.h` -/

def numCols : Nat := 80
def numRows : Nat := 25
def attrib : UInt8 := 0x7
def charNumber : Nat := 80
def maxScrollX : Nat := 79
def maxScrollY : Nat := 23
def bottomRow : Nat := 24
def videoElems : Nat := 4000
def noLastRow : Nat := 1920
def maxX : Nat := 79
def maxY : Nat := 24
def windowSize : Nat := 4096

def nul : UInt8 := 0
def newline : UInt8 := 10
def carriageReturn : UInt8 := 13
def space : UInt8 := 0x20

/-- The bytes of a C string, without the NUL. -/
def bytes (s : String) : List UInt8 := s.toList.map fun c => UInt8.ofNat c.toNat

/-- A little-endian 32-bit word of the memory `m`. -/
def wordAt (m : Nat → UInt8) (a : Nat) : Nat :=
  (m a).toNat + (m (a + 1)).toNat * 2 ^ 8 + (m (a + 2)).toNat * 2 ^ 16 +
    (m (a + 3)).toNat * 2 ^ 24

/-- The scan code `ENTER`. -/
def enter : UInt8 := 0x1C

/-- The globals behind the screen: physical memory, the page tables, the cursor of each terminal,
the position last sent to the VGA, and which terminal is displayed and which is scheduled. -/
structure Display where
  phys : Nat → UInt8
  paging : Paging
  screenX : Term → Nat
  screenY : Term → Nat
  vgaCursor : Nat
  currentTerminal : Term
  activeTerminal : Term

namespace Display

/-! ## Memory through the page tables

A store to a page that is not present writes nothing; on the processor it faults. -/

/-- A byte store. -/
def store (d : Display) (va : Nat) (b : UInt8) : Display :=
  { d with phys := MappedMemory.store d.paging.translate d.phys va b }

/-- A byte load. -/
def load (d : Display) (va : Nat) : UInt8 := MappedMemory.load d.paging.translate 0 d.phys va

/-- The bytes `f 0, …, f (n - 1)` stored from `va` on. -/
def storeBytes (d : Display) (va : Nat) (f : Nat → UInt8) (n : Nat) : Display :=
  { d with phys := MappedMemory.storeRange d.paging.translate d.phys va f n }

/-- `memcpy`, byte by byte. -/
def memcpy (d : Display) (dest src n : Nat) : Display :=
  { d with phys := MappedMemory.copyRange d.paging.translate 0 d.phys dest src n }

/-! ## The functions of `lib.c` -/

/-- The cursor of one terminal set. -/
def setCursor (d : Display) (t : Term) (x y : Nat) : Display :=
  { d with
    screenX := Function.update d.screenX t x
    screenY := Function.update d.screenY t y }

/-- The address of the cell under terminal `t`'s cursor, in the screen that starts at `page`. -/
def cellAddr (d : Display) (page : Nat) (t : Term) : Nat :=
  page + ((numCols * d.screenY t + d.screenX t) <<< 1)

/-- The body `putc` and `putc_number_2` share: a character on terminal `t`, through `page`. -/
def putAt (d : Display) (page : Nat) (t : Term) (c : UInt8) : Display :=
  if c = newline ∨ c = carriageReturn then d.setCursor t 0 (d.screenY t + 1)
  else
    let x := (d.screenX t + 1) % numCols
    ((d.store (d.cellAddr page t) c).store (d.cellAddr page t + 1) attrib).setCursor t x
      ((d.screenY t + x / numCols) % numRows)

/-- `putc`: a character of program output, on the active terminal. -/
def putc (d : Display) (c : UInt8) : Display :=
  d.putAt (pageArr d.activeTerminal) d.activeTerminal c

/-- `putc_number_2`: a character of keyboard echo, on the displayed terminal. -/
def putcNumber2 (d : Display) (c : UInt8) : Display := d.putAt video d.currentTerminal c

/-- `video_temp`: the screen at `page` one row up, the last row blank, every attribute reset. -/
def videoTemp (d : Display) (page i : Nat) : UInt8 :=
  if i % 2 = 1 then attrib
  else if i / 2 < noLastRow then d.load (page + ((i / 2 + charNumber) <<< 1))
  else space

/-- The body `scroll` and `scroll_2` share.  It leaves the cursor on row 23. -/
def scrollAt (d : Display) (page : Nat) (t : Term) : Display :=
  (d.storeBytes page (d.videoTemp page) videoElems).setCursor t 0 maxScrollY

/-- `scroll`, on the active terminal. -/
def scroll (d : Display) : Display := d.scrollAt (pageArr d.activeTerminal) d.activeTerminal

/-- `scroll_2`, on the displayed terminal. -/
def scroll2 (d : Display) : Display := d.scrollAt video d.currentTerminal

/-- `update_cursor`: the position goes out as a 16-bit word. -/
def updateCursor (d : Display) (row col : Nat) : Display :=
  { d with vgaCursor := (row * charNumber + col) % 2 ^ 16 }

/-- The terminal an argument of `cursor_wrapper`, `get_screen_x` and `get_screen_y` stands for: the
active one for 0, else the displayed one. -/
def termOf (d : Display) (val : Nat) : Term :=
  if val = 0 then d.activeTerminal else d.currentTerminal

/-- `cursor_wrapper`. -/
def cursorWrapper (d : Display) (val : Nat) : Display :=
  d.updateCursor (d.screenY (d.termOf val)) (d.screenX (d.termOf val))

/-- `get_screen_x`. -/
def getScreenX (d : Display) (val : Nat) : Nat := d.screenX (d.termOf val)

/-- `get_screen_y`. -/
def getScreenY (d : Display) (val : Nat) : Nat := d.screenY (d.termOf val)

/-- `reset_cursor`. -/
def resetCursor (d : Display) : Display :=
  (d.setCursor d.currentTerminal 0 0).cursorWrapper 1

/-- `clear`: blank video memory, cursor home. -/
def clear (d : Display) : Display :=
  (d.storeBytes video (fun i => if i % 2 = 1 then attrib else space)
    (2 * (numRows * numCols))).resetCursor

/-- `check_screen`: whether the key about to be handled scrolls the screen first. -/
def checkScreen (d : Display) (scan : UInt8) (lineCount : Nat) (incOrDec : Bool) : Bool :=
  if d.screenX d.currentTerminal = 0 ∧ lineCount > 0 ∧ d.screenY d.currentTerminal = bottomRow ∧
      incOrDec then true
  else if scan = enter ∧ d.screenY d.currentTerminal = bottomRow then true
  else false

/-- `backspace`: a space over the cell before the cursor, and the cursor one cell back.  At the top
left corner the cell is the one before `VIDEO`. -/
def backspace (d : Display) : Display :=
  let t := d.currentTerminal
  let d' := d.store (d.cellAddr video t - 2) space
  if d'.screenX t = 0 then
    if d'.screenY t > 0 then d'.setCursor t maxScrollX (d'.screenY t - 1) else d'
  else d'.setCursor t (d'.screenX t - 1) (d'.screenY t)

/-- `control_l`: `n` characters from `ptr` on copied to the top of video memory, NULs skipped.  A
read from a page that is not present does not return. -/
def controlL (d : Display) (ptr : Nat) : Nat → Option Display
  | 0 => some d
  | j + 1 => do
    let d' ← d.controlL ptr j
    let pa ← d'.paging.translate ((ptr + j) % 2 ^ 32)
    if d'.phys pa ≠ nul then d'.store (video + (j <<< 1)) (d'.phys pa) else d'

/-- `set_scroll`. -/
def setScroll (d : Display) (i : Nat) : Display :=
  d.setCursor d.currentTerminal (i - i / charNumber * charNumber) (i / charNumber)

/-- `puts`, on the bytes before the terminating NUL. -/
def puts (d : Display) (s : List UInt8) : Display := s.foldl putc d

/-! ## `terminal_write` -/

/-- One turn of the display loop of `terminal_write`; `none` where the loop breaks. -/
def writeChar (d : Display) (c : UInt8) : Option Display :=
  if d.getScreenX 0 = maxX ∧ d.getScreenY 0 = maxY ∧ c ≠ newline ∧ c ≠ nul then
    some (((d.putc c).scroll).putc newline)
  else if d.getScreenX 0 = maxX ∧ d.getScreenY 0 = maxY ∧ c = newline then some (d.scroll.putc c)
  else if d.getScreenY 0 = maxY ∧ c = newline then some (d.scroll.putc c)
  else if d.getScreenX 0 = maxX ∧ c = newline then some (d.putc c)
  else if d.getScreenX 0 = maxX then some ((d.putc c).putc newline)
  else if c = newline then some (d.putc newline)
  else if c = nul then none
  else some (d.putc c)

/-- The display loop of `terminal_write`: how many bytes were taken, and the display after. -/
def writeLoop (d : Display) : List UInt8 → Nat × Display
  | [] => (0, d)
  | c :: cs =>
    match d.writeChar c with
    | none => (0, d)
    | some d' => ((d'.writeLoop cs).1 + 1, (d'.writeLoop cs).2)

/-- The first loop of `terminal_write`, which rewrites the caller's buffer. -/
def replaceNul (buf : List UInt8) : List UInt8 := buf.map fun c => if c = nul then space else c

/-- `terminal_write` on the first `nbytes` bytes of a buffer, `none` for a null pointer: the value
returned and the display after.  The caller's buffer becomes `replaceNul buf`. -/
def terminalWrite (d : Display) : Option (List UInt8) → Int × Display
  | none => (-1, d)
  | some buf =>
    ((d.writeLoop (replaceNul buf)).1, (d.writeLoop (replaceNul buf)).2.cursorWrapper 0)

/-! ## What output leaves alone

Output changes memory and cursors.  Which page is mapped where, and which terminal is displayed or
active, is `control`. -/

/-- The page tables, the displayed terminal and the active terminal. -/
def control (d : Display) : Paging × Term × Term := (d.paging, d.currentTerminal, d.activeTerminal)

section Control

variable (d : Display)

@[simp] theorem control_store (va : Nat) (b : UInt8) : (d.store va b).control = d.control := rfl

@[simp] theorem control_cursorWrapper (val : Nat) : (d.cursorWrapper val).control = d.control := rfl

@[simp] theorem control_putAt (page : Nat) (t : Term) (c : UInt8) :
    (d.putAt page t c).control = d.control := by
  unfold putAt
  split <;> rfl

@[simp] theorem control_putc (c : UInt8) : (d.putc c).control = d.control := control_putAt ..

@[simp] theorem control_putcNumber2 (c : UInt8) : (d.putcNumber2 c).control = d.control :=
  control_putAt ..

@[simp] theorem control_scroll : d.scroll.control = d.control := rfl

@[simp] theorem control_scroll2 : d.scroll2.control = d.control := rfl

@[simp] theorem control_backspace : d.backspace.control = d.control := by
  unfold backspace
  simp only
  split
  · split <;> rfl
  · rfl

@[simp] theorem control_puts (s : List UInt8) : (d.puts s).control = d.control := by
  induction s generalizing d with
  | nil => rfl
  | cons c s ih => exact (ih (d.putc c)).trans (d.control_putc c)

theorem control_controlL {ptr n : Nat} {d' : Display} (h : d.controlL ptr n = some d') :
    d'.control = d.control := by
  induction n generalizing d' with
  | zero => rw [← Option.some.inj h]
  | succ n ih =>
    obtain ⟨d₁, h₁, h⟩ := Option.bind_eq_some_iff.mp h
    obtain ⟨pa, -, h⟩ := Option.bind_eq_some_iff.mp h
    split at h <;> rw [← Option.some.inj h]
    · exact (d₁.control_store ..).trans (ih h₁)
    · exact ih h₁

/-- A turn of the display loop is one or more of `putc` and `scroll`. -/
theorem control_writeChar {c : UInt8} {d' : Display} (h : d.writeChar c = some d') :
    d'.control = d.control := by
  unfold writeChar at h
  split_ifs at h <;> rw [← Option.some.inj h] <;> simp

@[simp] theorem control_writeLoop (cs : List UInt8) : (d.writeLoop cs).2.control = d.control := by
  induction cs generalizing d with
  | nil => rfl
  | cons c cs ih =>
    rw [writeLoop]
    split
    · rfl
    · exact (ih _).trans (d.control_writeChar ‹_›)

@[simp] theorem control_terminalWrite (buf : Option (List UInt8)) :
    (d.terminalWrite buf).2.control = d.control := by
  cases buf with
  | none => rfl
  | some buf => rw [terminalWrite, control_cursorWrapper, control_writeLoop]

end Control

variable {d d' : Display}

theorem paging_of_control (h : d'.control = d.control) : d'.paging = d.paging :=
  congrArg Prod.fst h

theorem currentTerminal_of_control (h : d'.control = d.control) :
    d'.currentTerminal = d.currentTerminal :=
  congrArg (fun c => c.2.1) h

theorem activeTerminal_of_control (h : d'.control = d.control) :
    d'.activeTerminal = d.activeTerminal :=
  congrArg (fun c => c.2.2) h

end Display

end HarambeOs
