import HarambeOs.Display
import HarambeOs.Library.TextScreen

/-!
# Output — `terminal_write` is a text terminal

The reference is a screen of 25 rows and 80 columns that takes one byte after the other
(`Console.write`).  A terminal of the kernel shows a reference screen when the frame its page is
mapped to holds the cells and the cursor variables are the cursor (`Display.Shows`).

`terminal_write` chooses between eight branches at column 79, row 24, newline and NUL, with a `putc`
that wraps the column but not the row and a `scroll` that leaves the cursor on row 23.
**`Display.terminalWrite_refines`**: it does what the reference does, and nothing else moves.
-/

namespace HarambeOs

open TextScreen

/-! ## The reference -/

/-- The reference terminal. -/
abbrev Console := Screen numRows numCols UInt8

/-- What a byte shows; NUL shows as a space. -/
def glyph (c : UInt8) : Glyph UInt8 :=
  if c = newline then .newline else .char (if c = nul then space else c)

/-- The bytes of a string shown one by one. -/
def Console.write (s : Console) (buf : List UInt8) : Console :=
  buf.foldl (fun s c => s.feed space attrib (glyph c)) s

namespace Display

variable {d d' : Display} {t : Term} {s : Console} {c : UInt8}

/-- Terminal `t` shows `s`. -/
structure Shows (d : Display) (t : Term) (s : Console) : Prop where
  cells : LaidOut d.phys (d.paging.termFrame t) s.cells
  col : d.screenX t = s.col
  row : d.screenY t = s.row

/-- What terminal `t` shows, when its cursor is on the screen. -/
def console (d : Display) (t : Term) (hx : d.screenX t < numCols) (hy : d.screenY t < numRows) :
    Console where
  cells r c := (d.phys (d.paging.termFrame t + 2 * (numCols * r + c)),
    d.phys (d.paging.termFrame t + 2 * (numCols * r + c) + 1))
  row := ⟨d.screenY t, hy⟩
  col := ⟨d.screenX t, hx⟩

theorem Shows.onScreen (h : d.Shows t s) : d.screenX t < numCols ∧ d.screenY t < numRows := by
  rw [h.col, h.row]
  exact ⟨s.col.isLt, s.row.isLt⟩

theorem shows_console (d : Display) (t : Term) (hx : d.screenX t < numCols)
    (hy : d.screenY t < numRows) : d.Shows t (d.console t hx hy) :=
  ⟨fun _ _ => ⟨rfl, rfl⟩, rfl, rfl⟩

/-- The cursor of a terminal is on the screen. -/
def OnScreen (d : Display) (t : Term) : Prop := d.screenX t < numCols ∧ d.screenY t < numRows

instance (d : Display) (t : Term) : Decidable (d.OnScreen t) := inferInstanceAs (Decidable (_ ∧ _))

theorem screenX_setCursor (d : Display) (t : Term) (x y : Nat) :
    (d.setCursor t x y).screenX t = x := Function.update_self ..

theorem screenY_setCursor (d : Display) (t : Term) (x y : Nat) :
    (d.setCursor t x y).screenY t = y := Function.update_self ..

@[simp] theorem onScreen_setCursor {x y : Nat} :
    (d.setCursor t x y).OnScreen t ↔ x < numCols ∧ y < numRows := by
  simp only [OnScreen, setCursor, Function.update_self]

/-- The screen and the cursor of terminal `t` are all that changed. -/
structure Confined (d d' : Display) (t : Term) : Prop where
  control : d'.control = d.control
  phys : ∀ a, a < d.paging.termFrame t ∨ d.paging.termFrame t + videoElems ≤ a →
    d'.phys a = d.phys a
  screenX : ∀ u, u ≠ t → d'.screenX u = d.screenX u
  screenY : ∀ u, u ≠ t → d'.screenY u = d.screenY u

theorem Confined.refl (d : Display) (t : Term) : Confined d d t :=
  ⟨rfl, fun _ _ => rfl, fun _ _ => rfl, fun _ _ => rfl⟩

theorem Confined.trans {d'' : Display} (h : Confined d d' t) (h' : Confined d' d'' t) :
    Confined d d'' t := by
  have hframe : d'.paging.termFrame t = d.paging.termFrame t := by rw [paging_of_control h.control]
  refine ⟨h'.control.trans h.control, fun a ha => ?_, fun u hu => ?_, fun u hu => ?_⟩
  · exact (h'.phys a (by rwa [hframe])).trans (h.phys a ha)
  · exact (h'.screenX u hu).trans (h.screenX u hu)
  · exact (h'.screenY u hu).trans (h.screenY u hu)

theorem confined_setCursor (d : Display) (t : Term) (x y : Nat) :
    Confined d (d.setCursor t x y) t :=
  ⟨rfl, fun _ _ => rfl, fun _ hu => Function.update_of_ne hu _ _,
    fun _ hu => Function.update_of_ne hu _ _⟩

/-! ## The parts

`putc` and `putc_number_2` are `putAt`, `scroll` and `scroll_2` are `scrollAt`, at a page that is
mapped to the terminal's frame. -/

/-- A newline only moves the cursor. -/
theorem putc_newline (d : Display) :
    d.putc newline = d.setCursor d.activeTerminal 0 (d.screenY d.activeTerminal + 1) := by
  rw [putc, putAt, if_pos (Or.inl rfl)]

/-- A character and its attribute in the cell of terminal `t` at column `x` and row `y`. -/
def putCell (d : Display) (t : Term) (x y : Nat) (c : UInt8) : Display :=
  let a := d.paging.termFrame t + 2 * (numCols * y + x)
  { d with phys := Function.update (Function.update d.phys a c) (a + 1) attrib }

section

variable {page : Nat}
  (hmaps : MappedMemory.Maps d.paging.translate page (d.paging.termFrame t) 4096)

include hmaps

/-- A character goes to the cell under the cursor; the row never moves. -/
theorem putAt_char {x y : Nat} (hx : d.screenX t = x) (hy : d.screenY t = y) (hx' : x < numCols)
    (hy' : y < numRows) (hc : ¬ (c = newline ∨ c = carriageReturn)) :
    d.putAt page t c = (d.putCell t x y c).setCursor t ((x + 1) % numCols) y := by
  rw [numCols] at hx'
  rw [numRows] at hy'
  have haddr : d.cellAddr page t = page + 2 * (numCols * y + x) := by
    rw [cellAddr, hx, hy, Nat.shiftLeft_eq, Nat.mul_comm _ (2 ^ 1), pow_one]
  have hrow : (y + (x + 1) % numCols / numCols) % numRows = y := by
    rw [numCols, numRows]
    omega
  rw [putAt, if_neg hc]
  simp only [hx, hy, haddr, hrow]
  congr 1
  rw [putCell, store, store, MappedMemory.store_of_eq_some (hmaps _ (by rw [numCols]; omega)),
    MappedMemory.store_of_eq_some]
  rw [Nat.add_assoc, Nat.add_assoc]
  exact hmaps _ (by rw [numCols]; omega)

theorem confined_putAt (hx : d.screenX t < numCols) (hy : d.screenY t < numRows) (c : UInt8) :
    Confined d (d.putAt page t c) t := by
  by_cases hc : c = newline ∨ c = carriageReturn
  · rw [putAt, if_pos hc]
    exact d.confined_setCursor _ _ _
  · rw [putAt_char hmaps rfl rfl hx hy hc]
    have hcell : Confined d (d.putCell t (d.screenX t) (d.screenY t) c) t := by
      refine ⟨rfl, fun a ha => ?_, fun _ _ => rfl, fun _ _ => rfl⟩
      rw [numCols] at hx
      rw [numRows] at hy
      rw [videoElems] at ha
      simp only [putCell, numCols]
      rw [Function.update_of_ne (by omega), Function.update_of_ne (by omega)]
    exact hcell.trans (confined_setCursor _ _ _ _)

/-- Scrolling writes `video_temp` over the screen. -/
theorem phys_scrollAt (a : Nat) :
    (d.scrollAt page t).phys a =
      if d.paging.termFrame t ≤ a ∧ a < d.paging.termFrame t + videoElems then
        d.videoTemp page (a - d.paging.termFrame t) else d.phys a :=
  MappedMemory.storeRange_apply (hmaps.mono (by decide)) _ a

theorem confined_scrollAt : Confined d (d.scrollAt page t) t := by
  refine ⟨rfl, fun a ha => ?_, fun _ hu => Function.update_of_ne hu _ _,
    fun _ hu => Function.update_of_ne hu _ _⟩
  rw [phys_scrollAt hmaps, if_neg (by omega)]

/-- The screen after scrolling is the one before, rolled up. -/
theorem laidOut_scrollAt (h : LaidOut d.phys (d.paging.termFrame t) s.cells) :
    LaidOut (d.scrollAt page t).phys (d.paging.termFrame t) (roll space attrib s.cells) := by
  refine h.roll fun i hi => ?_
  have hi : i < videoElems := hi
  rw [phys_scrollAt hmaps, if_pos ⟨Nat.le_add_right .., Nat.add_lt_add_left hi _⟩,
    Nat.add_sub_cancel_left, videoTemp]
  refine if_congr Iff.rfl rfl ?_
  rw [show numCols * (numRows - 1) = noLastRow from rfl]
  by_cases hrow : i / 2 < noLastRow
  · have hoff : 2 * (i / 2 + numCols) < 4096 := by
      rw [videoElems] at hi
      rw [numCols]
      rw [noLastRow] at hrow
      omega
    rw [if_pos hrow, if_pos hrow, Nat.shiftLeft_eq, pow_one, Nat.mul_comm]
    exact MappedMemory.load_of_eq_some (hmaps _ hoff) 0
  · rw [if_neg hrow, if_neg hrow]

end

/-! ## One byte -/

/-- How the code performs a newline: at the bottom it scrolls first. -/
def lineFeed (d : Display) : Display :=
  if d.screenY d.activeTerminal = maxY then d.scroll.putc newline else d.putc newline

/-- **A newline.** -/
theorem Shows.lineFeed (h : d.Shows d.activeTerminal s) :
    d.lineFeed.Shows d.activeTerminal (s.newline space attrib) ∧
      Confined d d.lineFeed d.activeTerminal := by
  have hrow : s.row.val < numRows := s.row.isLt
  have hrows : numRows = 25 := rfl
  have hmax : maxY = 24 := rfl
  have hmaps := d.paging.maps_pageArr d.activeTerminal
  unfold Display.lineFeed
  by_cases hy : d.screenY d.activeTerminal = maxY
  · have hlast : ¬ s.row.val + 1 < numRows := by
      rw [h.row] at hy
      omega
    rw [if_pos hy, Screen.newline, dif_neg hlast, putc_newline]
    refine ⟨⟨laidOut_scrollAt hmaps h.cells, Function.update_self .., ?_⟩,
      (confined_scrollAt hmaps).trans (confined_setCursor ..)⟩
    have hscroll : d.scroll.screenY d.activeTerminal = maxScrollY := Function.update_self ..
    refine (Function.update_self ..).trans ?_
    rw [show d.scroll.activeTerminal = d.activeTerminal from rfl, hscroll, ← h.row, hy]
    rfl
  · have hnext : s.row.val + 1 < numRows := by
      rw [h.row] at hy
      omega
    rw [if_neg hy, Screen.newline, dif_pos hnext, putc_newline]
    refine ⟨⟨h.cells, Function.update_self .., ?_⟩, confined_setCursor ..⟩
    refine (Function.update_self ..).trans ?_
    rw [h.row]

/-- The column after a character. -/
def nextCol (s : Console) : Fin numCols :=
  if h : s.col.val + 1 < numCols then ⟨s.col + 1, h⟩ else s.home

/-- **A character**, up to the newline after column 79. -/
theorem Shows.putc (h : d.Shows d.activeTerminal s) (hn : c ≠ newline) (hcr : c ≠ carriageReturn) :
    (d.putc c).Shows d.activeTerminal
        ⟨setCell s.cells s.row s.col (c, attrib), s.row, nextCol s⟩ ∧
      Confined d (d.putc c) d.activeTerminal := by
  have hmaps := d.paging.maps_pageArr d.activeTerminal
  refine ⟨?_, confined_putAt hmaps (h.col ▸ s.col.isLt) (h.row ▸ s.row.isLt) c⟩
  rw [Display.putc, putAt_char hmaps h.col h.row s.col.isLt s.row.isLt (not_or.mpr ⟨hn, hcr⟩)]
  refine ⟨h.cells.setCell s.row s.col (c, attrib), ?_, Function.update_self ..⟩
  refine (Function.update_self ..).trans ?_
  rw [nextCol]
  split
  · next hlt => exact Nat.mod_eq_of_lt hlt
  · next hlt =>
    have heq : s.col.val + 1 = numCols := Nat.le_antisymm s.col.isLt (Nat.not_lt.mp hlt)
    rw [heq, Nat.mod_self]
    rfl

/-- What the eight branches come to, for a byte that is not NUL. -/
theorem writeChar_eq (hc : c ≠ nul) (hx : d.screenX d.activeTerminal < numCols)
    (hy : d.screenY d.activeTerminal < numRows) (hcr : c ≠ carriageReturn) :
    d.writeChar c = some (if c = newline then d.lineFeed
      else if d.screenX d.activeTerminal = maxX then (d.putc c).lineFeed else d.putc c) := by
  have hX : d.getScreenX 0 = d.screenX d.activeTerminal := rfl
  have hY : d.getScreenY 0 = d.screenY d.activeTerminal := rfl
  by_cases hn : c = newline
  · by_cases hlast : d.screenY d.activeTerminal = maxY
    · simp only [writeChar, hX, hY, hn, hlast, lineFeed, ne_eq, not_true_eq_false, false_and,
        and_false, and_true, if_true, if_false, ite_self]
    · simp only [writeChar, hX, hY, hn, hlast, lineFeed, ne_eq, not_true_eq_false, false_and,
        and_false, and_true, if_true, if_false]
      split_ifs <;> rfl
  · have hrow : (d.putc c).screenY d.activeTerminal = d.screenY d.activeTerminal := by
      have hmaps := d.paging.maps_pageArr d.activeTerminal
      rw [putc, putAt_char hmaps rfl rfl hx hy (not_or.mpr ⟨hn, hcr⟩)]
      exact Function.update_self ..
    have hact : (d.putc c).activeTerminal = d.activeTerminal :=
      activeTerminal_of_control (d.control_putc c)
    by_cases hcol : d.screenX d.activeTerminal = maxX
    · simp only [writeChar, hX, hY, hn, hc, hcol, lineFeed, hact, hrow, ne_eq, not_false_eq_true,
        and_true, true_and, and_false, if_true, if_false]
      split <;> rfl
    · simp only [writeChar, hX, hY, hn, hc, hcol, false_and, and_false, if_false]

/-- **One byte.** -/
theorem Shows.writeChar (h : d.Shows d.activeTerminal s) (hc : c ≠ nul) (hcr : c ≠ carriageReturn) :
    ∃ d', d.writeChar c = some d' ∧ d'.Shows d.activeTerminal (s.feed space attrib (glyph c)) ∧
      Confined d d' d.activeTerminal := by
  refine ⟨_, writeChar_eq hc (h.col ▸ s.col.isLt) (h.row ▸ s.row.isLt) hcr, ?_⟩
  rw [glyph]
  by_cases hn : c = newline
  · rw [if_pos hn, if_pos hn]
    exact h.lineFeed
  · rw [if_neg hn, if_neg hn, if_neg hc]
    obtain ⟨hput, hconf⟩ := h.putc hn hcr
    have hact := activeTerminal_of_control hconf.control
    rw [h.col]
    by_cases hcol : s.col.val = maxX
    · have hlast : ¬ s.col.val + 1 < numCols := by
        rw [hcol]
        decide
      rw [if_pos hcol, Screen.feed, Screen.put, Screen.advance, dif_neg hlast]
      rw [nextCol, dif_neg hlast, ← hact] at hput
      obtain ⟨hfeed, hconf'⟩ := hput.lineFeed
      rw [hact] at hfeed hconf'
      exact ⟨hfeed, hconf.trans hconf'⟩
    · have hnext : s.col.val + 1 < numCols := by
        have hlt := s.col.isLt
        have hcols : numCols = 80 := rfl
        have hmax : maxX = 79 := rfl
        omega
      rw [if_neg hcol, Screen.feed, Screen.put, Screen.advance, dif_pos hnext]
      rw [nextCol, dif_pos hnext] at hput
      exact ⟨hput, hconf⟩

/-! ## The whole string -/

/-- The first loop of `terminal_write` does not change what is shown. -/
theorem glyph_replaceNul (c : UInt8) : glyph (if c = nul then space else c) = glyph c := by
  by_cases hc : c = nul
  · rw [if_pos hc, hc]
    rfl
  · rw [if_neg hc]

/-- **The display loop**, on a string without NUL and carriage return. -/
theorem Shows.writeLoop {buf : List UInt8} (h : d.Shows d.activeTerminal s)
    (hbuf : ∀ c ∈ buf, c ≠ carriageReturn) :
    (d.writeLoop (replaceNul buf)).1 = buf.length ∧
      (d.writeLoop (replaceNul buf)).2.Shows d.activeTerminal (s.write buf) ∧
      Confined d (d.writeLoop (replaceNul buf)).2 d.activeTerminal := by
  induction buf generalizing d s with
  | nil => exact ⟨rfl, h, .refl d _⟩
  | cons c buf ih =>
    obtain ⟨hc, hbuf⟩ := List.forall_mem_cons.mp hbuf
    have hnul : (if c = nul then space else c) ≠ nul := by
      split
      · decide
      · assumption
    have hcr : (if c = nul then space else c) ≠ carriageReturn := by
      split
      · decide
      · exact hc
    obtain ⟨d', hw, hs, hconf⟩ := h.writeChar hnul hcr
    rw [glyph_replaceNul] at hs
    have hact := activeTerminal_of_control hconf.control
    rw [← hact] at hs
    obtain ⟨hlen, hshow, hconf'⟩ := ih hs hbuf
    rw [hact] at hshow hconf'
    have hloop : d.writeLoop (replaceNul (c :: buf)) =
        ((d'.writeLoop (replaceNul buf)).1 + 1, (d'.writeLoop (replaceNul buf)).2) := by
      rw [replaceNul, List.map_cons, Display.writeLoop, hw]
      rfl
    rw [hloop]
    exact ⟨congrArg (· + 1) hlen, hshow, hconf.trans hconf'⟩

/-- The whole call, cursor register and all. -/
theorem Shows.terminalWrite {buf : List UInt8} (h : d.Shows d.activeTerminal s)
    (hbuf : ∀ c ∈ buf, c ≠ carriageReturn) :
    (d.terminalWrite (some buf)).2.Shows d.activeTerminal (s.write buf) ∧
      Confined d (d.terminalWrite (some buf)).2 d.activeTerminal := by
  obtain ⟨-, hshow, hconf⟩ := h.writeLoop hbuf
  exact ⟨⟨hshow.1, hshow.2, hshow.3⟩, ⟨hconf.1, hconf.2, hconf.3, hconf.4⟩⟩

/-- **`terminal_write` is the reference terminal.**  On every screen, with the cursor anywhere on it
and every string without a carriage return, it takes the whole string, leaves the screen and the
cursor of the active terminal as the reference does, keeps the cursor on the screen after every
byte, and changes nothing outside that screen and cursor. -/
theorem terminalWrite_refines (d : Display) (hx : d.screenX d.activeTerminal < numCols)
    (hy : d.screenY d.activeTerminal < numRows) (buf : List UInt8)
    (hbuf : carriageReturn ∉ buf) :
    (d.terminalWrite (some buf)).1 = buf.length ∧
      (d.terminalWrite (some buf)).2.Shows d.activeTerminal
        ((d.console d.activeTerminal hx hy).write buf) ∧
      (∀ p, p <+: buf → (d.writeLoop (replaceNul p)).2.screenX d.activeTerminal < numCols ∧
        (d.writeLoop (replaceNul p)).2.screenY d.activeTerminal < numRows) ∧
      Confined d (d.terminalWrite (some buf)).2 d.activeTerminal := by
  have hshows := d.shows_console d.activeTerminal hx hy
  have hne (p : List UInt8) (hp : p <+: buf) (c : UInt8) (hc : c ∈ p) : c ≠ carriageReturn := by
    rintro rfl
    exact hbuf (hp.subset hc)
  have hbuf := hne buf (List.prefix_refl buf)
  obtain ⟨hshow, hconf⟩ := hshows.terminalWrite hbuf
  refine ⟨congrArg Int.ofNat (hshows.writeLoop hbuf).1, hshow, fun p hp => ?_, hconf⟩
  exact (hshows.writeLoop (hne p hp)).2.1.onScreen

/-- The first terminal, empty, with the cursor at the bottom right. -/
def corner : Display :=
  ⟨fun _ => nul, Paging.init 0x1000 rfl, fun _ => 79, fun _ => 24, 0, 0, 0⟩

/-- From there a letter, a newline and a NUL take the screen two rows up. -/
theorem terminalWrite_refines_corner :
    (corner.terminalWrite (some [97, newline, nul])).1 = 3 ∧
      (corner.terminalWrite (some [97, newline, nul])).2.screenX 0 = 1 ∧
      (corner.terminalWrite (some [97, newline, nul])).2.screenY 0 = 24 := by
  obtain ⟨hlen, hshow, -⟩ := terminalWrite_refines corner (by decide) (by decide)
    [97, newline, nul] (by decide)
  exact ⟨hlen, hshow.col, hshow.row⟩

end Display

end HarambeOs
