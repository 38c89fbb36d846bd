import HarambeOs.Echo
import HarambeOs.Keys

/-!
# Undo — a character, and the Backspace after it

A Backspace takes the last character off the line, and off the screen: it blanks the cell before
the cursor and steps back.  The echo of a character does not always step forward by one cell.  At
column 79 it goes to column 0 of the same row, and at column 0 with a line begun it breaks the row
first.  `type_backspace_iff`: in every state that typing reaches these two are the only places where
the Backspace does not undo the character.
-/

namespace HarambeOs

namespace Display

variable {d d' : Display} {t : Term} {c : UInt8} {n : Nat}

/-! ## Cursors under a key of the line -/

theorem onScreen_scrollFor (h : ∀ u, d.OnScreen u) (scan : UInt8) (incOrDec : Bool) (u : Term) :
    (d.scrollFor scan n incOrDec).OnScreen u := by
  unfold scrollFor
  split
  · exact onScreen_setCursor_any (fun _ => h u) (by decide) (by decide)
  · exact h u

/-- A character takes the cursor back to the screen, wherever it was. -/
theorem onScreen_putcNumber2 (h : ∀ u, u ≠ d.currentTerminal → d.OnScreen u)
    (hc : ¬ (c = newline ∨ c = carriageReturn)) (u : Term) : (d.putcNumber2 c).OnScreen u := by
  rw [putcNumber2, putAt, if_neg hc]
  exact onScreen_setCursor_any (h u) (Nat.mod_lt _ (by decide)) (Nat.mod_lt _ (by decide))

theorem onScreen_newline (h : ∀ u, d.OnScreen u) (hy : d.screenY d.currentTerminal < bottomRow)
    (u : Term) : (d.putcNumber2 newline).OnScreen u := by
  rw [putcNumber2, putAt, if_pos (Or.inl rfl)]
  exact onScreen_setCursor_any (fun _ => h u) (by decide) (Nat.succ_lt_succ hy)

theorem onScreen_echo (h : ∀ u, d.OnScreen u) (hc : ¬ (c = newline ∨ c = carriageReturn))
    (u : Term) : (d.echo n c).OnScreen u := by
  unfold echo
  split
  · refine onScreen_putcNumber2 (fun v hv => ?_) hc u
    rw [putcNumber2, putAt, if_pos (Or.inl rfl)] at hv ⊢
    exact (onScreen_setCursor_of_ne hv).mpr (h v)
  · exact onScreen_putcNumber2 (fun v _ => h v) hc u

theorem onScreen_backspace (h : ∀ u, d.OnScreen u) (u : Term) : d.backspace.OnScreen u := by
  obtain ⟨hx, hy⟩ := h d.currentTerminal
  unfold backspace
  simp only
  split
  · split
    · exact onScreen_setCursor_any (fun _ => h u) (by decide)
        (Nat.lt_of_le_of_lt (Nat.sub_le ..) hy)
    · exact h u
  · exact onScreen_setCursor_any (fun _ => h u) (Nat.lt_of_le_of_lt (Nat.sub_le ..) hx) hy

/-! ## The echo, and the Backspace after it -/

/-- The cell under the cursor of the displayed terminal. -/
def cursorCell (d : Display) : Nat :=
  numCols * d.screenY d.currentTerminal + d.screenX d.currentTerminal

/-- The cell under the cursor is blank, and nothing else is different: not a byte of memory, not a
cursor. -/
structure Blanked (d d' : Display) : Prop where
  screenX : d'.screenX = d.screenX
  screenY : d'.screenY = d.screenY
  cell : d'.phys (video + 2 * d.cursorCell) = space
  phys : ∀ a, a ≠ video + 2 * d.cursorCell → a ≠ video + 2 * d.cursorCell + 1 →
    d'.phys a = d.phys a

theorem cursorCell_lt (h : d.OnScreen d.currentTerminal) : 2 * d.cursorCell + 1 < videoElems := by
  obtain ⟨hx, hy⟩ := h
  rw [numCols] at hx
  rw [numRows] at hy
  rw [cursorCell, numCols, videoElems]
  omega

/-- A character written at the cursor: its cell, and the cursor one column on. -/
theorem putcNumber2_eq (h : d.OnScreen d.currentTerminal)
    (hc : ¬ (c = newline ∨ c = carriageReturn)) :
    d.putcNumber2 c = Display.setCursor
      { d with
        phys := Function.update (Function.update d.phys (video + 2 * d.cursorCell) c)
          (video + (2 * d.cursorCell + 1)) attrib }
      d.currentTerminal ((d.screenX d.currentTerminal + 1) % numCols)
      (d.screenY d.currentTerminal) := by
  have hcell := cursorCell_lt h
  have hrow : (d.screenY d.currentTerminal +
      (d.screenX d.currentTerminal + 1) % numCols / numCols) % numRows =
        d.screenY d.currentTerminal := by
    rw [Nat.div_eq_of_lt (Nat.mod_lt _ (by decide)), Nat.add_zero, Nat.mod_eq_of_lt h.2]
  have haddr : d.cellAddr video d.currentTerminal = video + 2 * d.cursorCell := d.cellAddr_eq ..
  rw [putcNumber2, putAt, if_neg hc, haddr, Nat.add_assoc, store_video hcell,
    store_video (Nat.lt_of_succ_lt hcell)]
  dsimp only
  rw [hrow]

theorem echo_of_row (hbreak : ¬ (d.screenX d.currentTerminal = 0 ∧ n > 0)) :
    d.echo n c = d.putcNumber2 c :=
  congrArg (fun d : Display => d.putcNumber2 c) (if_neg hbreak)

/-- The echo that breaks the row first leaves the cursor one cell into some other row. -/
theorem cursor_echo_break (hc : ¬ (c = newline ∨ c = carriageReturn))
    (hbreak : d.screenX d.currentTerminal = 0 ∧ n > 0) :
    (d.echo n c).screenX d.currentTerminal = 1 ∧
      (d.echo n c).screenY d.currentTerminal = (d.screenY d.currentTerminal + 1) % numRows := by
  have hecho : d.echo n c = (d.putcNumber2 newline).putcNumber2 c :=
    congrArg (fun d : Display => d.putcNumber2 c) (if_pos hbreak)
  have hnewline : d.putcNumber2 newline =
      d.setCursor d.currentTerminal 0 (d.screenY d.currentTerminal + 1) := by
    rw [putcNumber2, putAt, if_pos (Or.inl rfl)]
  rw [hecho, hnewline, putcNumber2, putAt, if_neg hc]
  simp only [setCursor, store, Function.update_self]
  exact ⟨rfl, rfl⟩

/-- The echo in column 79 leaves the cursor at the start of the row. -/
theorem cursor_echo_full (h : d.OnScreen d.currentTerminal)
    (hc : ¬ (c = newline ∨ c = carriageReturn)) (hx : d.screenX d.currentTerminal = maxScrollX) :
    (d.echo n c).screenX d.currentTerminal = 0 ∧
      (d.echo n c).screenY d.currentTerminal = d.screenY d.currentTerminal := by
  have hbreak : ¬ (d.screenX d.currentTerminal = 0 ∧ n > 0) :=
    fun hbreak => absurd (hx.symm.trans hbreak.1) (by decide)
  rw [echo_of_row hbreak, putcNumber2_eq h hc, screenX_setCursor, screenY_setCursor, hx]
  exact ⟨rfl, rfl⟩

/-- A Backspace at the start of a row goes to the end of the row above, if there is one. -/
theorem cursor_backspace_start (hx : d.screenX d.currentTerminal = 0) :
    d.backspace.screenX d.currentTerminal = 0 ∨
      d.backspace.screenY d.currentTerminal + 1 = d.screenY d.currentTerminal := by
  unfold backspace
  dsimp only [store]
  rw [if_pos hx]
  split
  · next hy =>
    right
    rw [screenY_setCursor]
    exact Nat.succ_pred_eq_of_pos hy
  · exact Or.inl hx

/-- Elsewhere it goes one column back and stays in the row. -/
theorem backspace_eq (h : d.OnScreen d.currentTerminal) (hx : d.screenX d.currentTerminal ≠ 0) :
    d.backspace = Display.setCursor
      { d with phys := Function.update d.phys (video + 2 * (d.cursorCell - 1)) space }
      d.currentTerminal (d.screenX d.currentTerminal - 1) (d.screenY d.currentTerminal) := by
  have hcell := cursorCell_lt h
  have haddr : d.cellAddr video d.currentTerminal - 2 = video + 2 * (d.cursorCell - 1) := by
    rw [cellAddr_eq, cursorCell]
    omega
  rw [backspace, haddr, store_video (by omega)]
  exact if_neg hx

/-- The cell under the cursor is written, and the cursor is one column on. -/
structure Advanced (d d' : Display) : Prop where
  current : d'.currentTerminal = d.currentTerminal
  screenX : d'.screenX =
    Function.update d.screenX d.currentTerminal (d.screenX d.currentTerminal + 1)
  screenY : d'.screenY = d.screenY
  phys : ∀ a, a ≠ video + 2 * d.cursorCell → a ≠ video + 2 * d.cursorCell + 1 →
    d'.phys a = d.phys a

/-- **Inside a row** the echo steps forward. -/
theorem advanced_echo (h : d.OnScreen d.currentTerminal)
    (hc : ¬ (c = newline ∨ c = carriageReturn)) (hx : d.screenX d.currentTerminal ≠ maxScrollX)
    (hn : d.screenX d.currentTerminal = 0 → n = 0) : Advanced d (d.echo n c) := by
  have hbreak : ¬ (d.screenX d.currentTerminal = 0 ∧ n > 0) :=
    fun hbreak => absurd (hn hbreak.1) (Nat.ne_of_gt hbreak.2)
  have hcol : (d.screenX d.currentTerminal + 1) % numCols = d.screenX d.currentTerminal + 1 := by
    have hlt : d.screenX d.currentTerminal < 80 := h.1
    rw [maxScrollX] at hx
    exact Nat.mod_eq_of_lt (by rw [numCols]; omega)
  rw [echo_of_row hbreak, putcNumber2_eq h hc, hcol]
  refine ⟨rfl, rfl, Function.update_eq_self .., fun a ha ha' => ?_⟩
  exact (Function.update_of_ne ha' ..).trans (Function.update_of_ne ha ..)

/-- …and the Backspace steps back. -/
theorem Advanced.blanked (h : Advanced d d') (hon : d'.OnScreen d.currentTerminal) :
    Blanked d d'.backspace := by
  have hX : d'.screenX d'.currentTerminal = d.screenX d.currentTerminal + 1 := by
    rw [h.current, h.screenX, Function.update_self]
  have hY : d'.screenY d'.currentTerminal = d.screenY d.currentTerminal := by
    rw [h.current, h.screenY]
  have hcell : d'.cursorCell - 1 = d.cursorCell := by
    rw [cursorCell, hX, hY, cursorCell]
    rfl
  have hne : d'.screenX d'.currentTerminal ≠ 0 := by
    rw [hX]
    exact Nat.succ_ne_zero _
  rw [backspace_eq (h.current ▸ hon) hne, hcell, hX, hY, h.current]
  refine ⟨?_, ?_, Function.update_self .., fun a ha ha' => ?_⟩
  · rw [setCursor, h.screenX]
    exact (Function.update_idem ..).trans (Function.update_eq_self ..)
  · rw [setCursor, h.screenY]
    exact Function.update_eq_self ..
  · exact (Function.update_of_ne ha ..).trans (h.phys a ha ha')

/-- The screen before a Backspace: it scrolls only at the start of the bottom row. -/
theorem scrollFor_of_ne {incOrDec : Bool} (hx : d.screenX d.currentTerminal ≠ 0) :
    d.scrollFor backspaceCode n incOrDec = d := by
  have hcheck : d.checkScreen backspaceCode n incOrDec = false :=
    (if_neg fun hc => hx hc.1).trans (if_neg fun hc => absurd hc.1 (by decide))
  rw [scrollFor, hcheck]
  rfl

/-- At the start of a row a Backspace goes to a row above, if to any. -/
theorem cursor_strike_start (hx : d.screenX d.currentTerminal = 0) (n : Nat) (incOrDec : Bool) :
    (d.scrollFor backspaceCode n incOrDec).backspace.screenX d.currentTerminal = 0 ∨
      (d.scrollFor backspaceCode n incOrDec).backspace.screenY d.currentTerminal <
        d.screenY d.currentTerminal := by
  have hcur := currentTerminal_of_control (d.control_scrollFor backspaceCode n incOrDec)
  have hscroll : (d.scrollFor backspaceCode n incOrDec).screenX d.currentTerminal = 0 ∧
      (d.scrollFor backspaceCode n incOrDec).screenY d.currentTerminal ≤
        d.screenY d.currentTerminal := by
    unfold scrollFor
    split
    · next hcheck =>
      have hy : d.screenY d.currentTerminal = bottomRow := by
        unfold checkScreen at hcheck
        split_ifs at hcheck with hrow hrow
        · exact hrow.2.2.1
        · exact hrow.2
      rw [screenY_scroll2, hy]
      exact ⟨screenX_setCursor .., by decide⟩
    · exact ⟨hx, Nat.le_refl _⟩
  rw [← hcur] at hscroll ⊢
  refine (cursor_backspace_start hscroll.1).imp_right fun hrow => ?_
  rw [hcur] at hrow hscroll ⊢
  omega

/-- Elsewhere it stays in the row. -/
theorem cursor_strike_row (h : d.OnScreen d.currentTerminal)
    (hx : d.screenX d.currentTerminal ≠ 0) (n : Nat) (incOrDec : Bool) :
    (d.scrollFor backspaceCode n incOrDec).backspace.screenY d.currentTerminal =
      d.screenY d.currentTerminal := by
  rw [scrollFor_of_ne hx, backspace_eq h hx, screenY_setCursor]

/-- **When the Backspace undoes the echo.** -/
theorem blanked_iff {m : Nat} {incOrDec : Bool} (h : ∀ u, d.OnScreen u)
    (hc : ¬ (c = newline ∨ c = carriageReturn)) :
    Blanked d ((((d.cursorWrapper 1).echo n c).cursorWrapper 1).scrollFor backspaceCode m
      incOrDec).backspace ↔
      d.screenX d.currentTerminal ≠ maxScrollX ∧ (d.screenX d.currentTerminal = 0 → n = 0) := by
  have hcur : (((d.cursorWrapper 1).echo n c).cursorWrapper 1).currentTerminal =
      d.currentTerminal := currentTerminal_of_control ((d.cursorWrapper 1).control_echo n c)
  have hon : ∀ u, (((d.cursorWrapper 1).echo n c).cursorWrapper 1).OnScreen u :=
    onScreen_echo (d := d.cursorWrapper 1) h hc
  constructor
  · intro hblank
    constructor
    · -- the Backspace leaves the row upwards, or stays in column 0
      intro hx
      obtain ⟨hX, hY⟩ := cursor_echo_full (n := n) (d := d.cursorWrapper 1) (h _) hc hx
      rcases cursor_strike_start (by rw [hcur]; exact hX) m incOrDec with hcol | hrow
      · rw [hblank.screenX, hcur, hx] at hcol
        exact absurd hcol (by decide)
      · rw [hblank.screenY, hcur] at hrow
        exact absurd (hrow.trans_eq hY) (Nat.lt_irrefl _)
    · -- it stays in the row the echo began
      intro hx
      by_contra hn
      obtain ⟨hX, hY⟩ := cursor_echo_break (d := d.cursorWrapper 1) hc ⟨hx, Nat.pos_of_ne_zero hn⟩
      have hne : ((d.cursorWrapper 1).echo n c).screenX d.currentTerminal ≠ 0 :=
        hX.trans_ne Nat.one_ne_zero
      have hrow := cursor_strike_row (hon _) (by rw [hcur]; exact hne) m incOrDec
      rw [hblank.screenY, hcur] at hrow
      have hlt : d.screenY d.currentTerminal < 25 := (h _).2
      have hnext : d.screenY d.currentTerminal = (d.screenY d.currentTerminal + 1) % 25 :=
        hrow.trans hY
      omega
  · rintro ⟨hx, hn⟩
    have hadv : Advanced d (((d.cursorWrapper 1).echo n c).cursorWrapper 1) := by
      obtain ⟨hcurrent, hX, hY, hphys⟩ := advanced_echo (d := d.cursorWrapper 1) (h _) hc hx hn
      exact ⟨hcurrent, hX, hY, hphys⟩
    have hne : (((d.cursorWrapper 1).echo n c).cursorWrapper 1).screenX
        (((d.cursorWrapper 1).echo n c).cursorWrapper 1).currentTerminal ≠ 0 := by
      rw [hcur, hadv.screenX, Function.update_self]
      exact Nat.succ_ne_zero _
    rw [scrollFor_of_ne hne]
    exact hadv.blanked (hon _)

end Display

/-- The event is neither a system call nor a turn of a Ctrl-4 handler: it is a key, a tick, or the
start or the end of a program. -/
def Event.isQuiet : Event → Bool
  | .call _ => false
  | .ctrl4Turn => false
  | _ => true

namespace Kernel

variable {fs : FileSystem} {k k' : Kernel}

theorem onScreen_lineKey {scan : UInt8} (h : k.lineKey scan = some k')
    (hon : ∀ u, k.display.OnScreen u) (u : Term) : k'.display.OnScreen u := by
  have hd := Display.onScreen_scrollFor (n := k.editor.lineCount k.display.currentTerminal) hon scan
    k.editor.incOrDec
  unfold lineKey at h
  simp only at h
  split_ifs at h with _ _ _ he
  · obtain ⟨e, -, rfl⟩ := Option.map_eq_some_iff.mp h
    exact Display.onScreen_backspace hd u
  · obtain rfl := Option.some.inj h
    exact hd u
  · obtain rfl := Option.some.inj h
    exact hd u
  · obtain rfl := Option.some.inj h
    refine Display.onScreen_newline hd ?_ u
    rw [Display.currentTerminal_of_control (k.display.control_scrollFor ..), he]
    exact Display.scrollFor_enter_lt (hon _)
  · obtain ⟨e, -, rfl⟩ := Option.map_eq_some_iff.mp h
    exact Display.onScreen_echo hd (print_ne_break _ he) u
  · obtain rfl := Option.some.inj h
    exact hd u

theorem onScreen_keyboard {status scan : UInt8} {fr : Frame} {junk : List UInt8} {o : Outcome}
    (hc : k.combined (.key status scan fr junk) = none)
    (h : k.keyboard fs status scan fr junk = some (k', o)) (hon : ∀ u, k.display.OnScreen u)
    (u : Term) : k'.display.OnScreen u := by
  cases keyboard_keyed h with
  | nothing => exact hon u
  | modifier => exact hon u
  | test hst hsp htest =>
    rw [combined, if_pos ⟨hst, hsp, htest⟩] at hc
    cases hc
  | first => exact hon u
  | later _ _ _ _ _ h => exact laterTerminalSwitch_onScreen h (hon u)
  | line _ _ _ _ h => exact onScreen_lineKey h hon u

/-- **Typing keeps every cursor on its screen.** -/
theorem onScreen_step {e : Event} (hq : e.isQuiet = true) (hc : k.combined e = none)
    (h : k.step fs e = some k') (hon : ∀ u, k.display.OnScreen u) (u : Term) :
    k'.display.OnScreen u := by
  obtain ⟨o, h⟩ := step_eq_some.mp h
  cases e with
  | execute command fr junk => exact (execute_executed h).onScreen (hon u)
  | halt status fr junk =>
    have hrel := display_haltRelease k
    cases transition_moves h with
    | exit =>
      change k.haltRelease.1.display.OnScreen u
      rw [hrel]
      exact hon u
    | respawn _ _ hx => exact hx.onScreen (by rw [hrel]; exact hon u)
    | vacate _ _ hx => exact hx.onScreen (by rw [hrel]; exact hon u)
  | tick fr =>
    cases transition_moves h with
    | rest => exact hon u
    | tick => exact hon u
  | key status scan fr junk => exact onScreen_keyboard hc h hon u
  | ctrl4Turn => cases hq
  | call c => cases hq

/-! ## The two keys -/

/-- The event is part of typing: no system call, and no combination with Ctrl. -/
def Typing (k : Kernel) (e : Event) : Prop := e.isQuiet = true ∧ k.combined e = none

instance (k : Kernel) (e : Event) : Decidable (k.Typing e) := inferInstanceAs (Decidable (_ ∧ _))

/-- **What typing keeps**: the cursors on the screen, the arrays and counts together. -/
theorem typed_run {b : Boot} {es : List Event}
    (htyped : Runs.Guarded (Kernel.step fs) Typing b.kernel es)
    (hrun : Runs.run (Kernel.step fs) b.kernel es = some k) :
    (∀ u, k.display.OnScreen u) ∧ k.Counted := by
  refine Runs.run_guarded (I := fun k => (∀ u, k.display.OnScreen u) ∧ k.Counted) ?_ ⟨?_, ?_⟩
    htyped hrun
  · rintro k e k' ⟨hon, hk⟩ ⟨hq, hc⟩ h
    have hfive : k.combined e ≠ some five := hc ▸ (Option.some_ne_none five).symm
    exact ⟨onScreen_step hq hc h hon, hk.step hfive h⟩
  · have hboot (u : Term) : b.display.OnScreen u := ⟨Nat.zero_lt_succ _, Nat.zero_lt_succ _⟩
    exact fun u => Display.onScreen_setCursor_any (fun _ => hboot u) (by decide) (by decide)
  · exact counted_boot b

/-- A key that reaches the line editor. -/
theorem step_of_struck {e : Event} {scan : UInt8} (hs : k.struck e = some scan)
    (h80 : scan ≠ 0x80) :
    k.step fs e = lineKey scan { k with display := k.display.cursorWrapper 1 } := by
  cases e with
  | key status scan' fr junk =>
    rw [struck] at hs
    split_ifs at hs with hcond
    obtain rfl := Option.some.inj hs
    obtain ⟨hst, hsp, htest, halt⟩ := hcond
    have hkeys : k.keyboard fs status scan' fr junk =
        (lineKey scan' { k with display := k.display.cursorWrapper 1 }).map
          fun k => (k, .returned 0) := by
      rw [keyboard, if_neg hst, if_neg (by rw [hsp]; exact Bool.false_ne_true), if_neg htest,
        if_neg fun h => halt ⟨h.1, Or.inl h.2⟩, if_neg fun h => halt ⟨h.1, Or.inr (Or.inl h.2)⟩,
        if_neg fun h => halt ⟨h.1, Or.inr (Or.inr h.2)⟩, if_neg h80]
    rw [step, transition, hkeys]
    exact (Option.map_map ..).trans Option.map_id'
  | _ => cases hs

theorem print_outside (e : Editor) : e.print 0x80 = nul := by
  unfold Editor.print
  split <;> split <;> rfl

/-- A printing key, where it does not scroll. -/
theorem step_char {e : Event} {scan c : UInt8} {ed : Editor} (hs : k.struck e = some scan)
    (hkey : k.editor.keystroke scan = .char c)
    (hn : k.editor.lineCount k.display.currentTerminal < numberCodes)
    (hscroll : k.display.checkScreen scan (k.editor.lineCount k.display.currentTerminal)
      k.editor.incOrDec = false) (hed : k.editor.append k.display.currentTerminal c = some ed) :
    k.step fs e = some { k with
      editor := ed
      display := (k.display.cursorWrapper 1).echo (k.editor.lineCount k.display.currentTerminal)
        c } := by
  obtain ⟨hb, he, rfl, hc⟩ := Editor.keystroke_eq_char hkey
  have h80 : scan ≠ 0x80 := by
    rintro rfl
    exact hc (print_outside _)
  have hstay : (k.display.cursorWrapper 1).scrollFor scan
      (k.editor.lineCount k.display.currentTerminal) k.editor.incOrDec =
        k.display.cursorWrapper 1 := if_neg fun h => Bool.false_ne_true (hscroll.symm.trans h)
  have hcur : (k.display.cursorWrapper 1).currentTerminal = k.display.currentTerminal := rfl
  rw [step_of_struck hs h80, lineKey]
  dsimp only
  rw [hcur, if_neg hb, if_neg hc, if_neg he, if_pos hn, hed, hstay]
  rfl

/-- A Backspace with something to erase. -/
theorem step_backspace {status : UInt8} {fr : Frame} {junk : List UInt8} {ed : Editor}
    (hst : status ≠ 0) (hn : k.editor.lineCount k.display.currentTerminal > 0)
    (hed : k.editor.erase k.display.currentTerminal = some ed) :
    k.step fs (.key status backspaceCode fr junk) = some { k with
      editor := ed
      display := ((k.display.cursorWrapper 1).scrollFor backspaceCode
        (k.editor.lineCount k.display.currentTerminal) k.editor.incOrDec).backspace } := by
  have hs : k.struck (.key status backspaceCode fr junk) = some backspaceCode :=
    struck_of_ordinary hst (by decide) fr junk k
  have hcur : (k.display.cursorWrapper 1).currentTerminal = k.display.currentTerminal := rfl
  rw [step_of_struck hs (by decide), lineKey]
  dsimp only
  rw [hcur, if_pos rfl, if_pos hn, hed]
  rfl

/-- Of the arrays nothing is left of the two. -/
theorem erase_append {e : Editor} {t : Term} (hn : e.lineCount t < numberCodes) (c : UInt8)
    (hnul : e.buffer t ⟨e.lineCount t, hn⟩ = nul) :
    ∃ e₁ e₂, e.append t c = some e₁ ∧ e₁.lineCount t = e.lineCount t + 1 ∧
      e₁.erase t = some e₂ ∧ e₂.buffer = e.buffer ∧ e₂.lineCount = e.lineCount := by
  refine ⟨_, _, e.append_eq hn c, Function.update_self .., Editor.erase_eq _ (t := t) ?_, ?_, ?_⟩
  · simp only [Function.update_self]
    exact hn
  · simp only [Function.update_self, Nat.add_sub_cancel, Function.update_idem]
    rw [← hnul, Function.update_eq_self, Function.update_eq_self]
  · simp only [Function.update_self, Nat.add_sub_cancel, Function.update_idem]
    exact Function.update_eq_self ..

/-- The line, its count and the cursor are as before, and so is all of memory but the cell under the
cursor, which is blank. -/
structure Undone (k k' : Kernel) : Prop where
  buffer : k'.editor.buffer = k.editor.buffer
  lineCount : k'.editor.lineCount = k.editor.lineCount
  screen : Display.Blanked k.display k'.display

/-- What the two keys leave. -/
theorem step_char_backspace (fs : FileSystem) (fr : Frame) (junk : List UInt8) {e : Event}
    {scan c status : UInt8} (hk : k.Counted) (hs : k.struck e = some scan)
    (hkey : k.editor.keystroke scan = .char c)
    (hn : k.editor.lineCount k.display.currentTerminal < numberCodes)
    (hscroll : k.display.checkScreen scan (k.editor.lineCount k.display.currentTerminal)
      k.editor.incOrDec = false) (hst : status ≠ 0) :
    ∃ k₁ k₂ n incOrDec, k.step fs e = some k₁ ∧
      k₁.step fs (.key status backspaceCode fr junk) = some k₂ ∧
      k₂.editor.buffer = k.editor.buffer ∧ k₂.editor.lineCount = k.editor.lineCount ∧
      k₂.display = ((((k.display.cursorWrapper 1).echo
        (k.editor.lineCount k.display.currentTerminal) c).cursorWrapper 1).scrollFor backspaceCode
          n incOrDec).backspace := by
  have hnul : k.editor.buffer k.display.currentTerminal
      ⟨k.editor.lineCount k.display.currentTerminal, hn⟩ = nul :=
    not_not.mp fun hne => Nat.lt_irrefl _ ((hk.cells _ _).mp hne)
  obtain ⟨e₁, e₂, he₁, hcount, he₂, hbuf, hline⟩ := erase_append hn c hnul
  have hcur := Display.currentTerminal_of_control ((k.display.cursorWrapper 1).control_echo
    (k.editor.lineCount k.display.currentTerminal) c)
  refine ⟨_, _, _, _, step_char hs hkey hn hscroll he₁, step_backspace hst ?_ ?_, hbuf, hline, rfl⟩
  · change e₁.lineCount _ > 0
    rw [hcur]
    exact hcount ▸ Nat.succ_pos _
  · change e₁.erase _ = _
    rw [hcur]
    exact he₂

/-- **A character and the Backspace after it.**  In every state that typing reaches, with fewer than
128 characters on the displayed terminal's line and where the key does not scroll: a printing key
and then Backspace restore the line, its count and the cursor and leave a blank in the character's
cell, exactly when the cursor is not in column 79, and not in column 0 with a line begun. -/
theorem type_backspace_iff (fs : FileSystem) (b : Boot) (es : List Event) (k : Kernel)
    (htyped : Runs.Guarded (Kernel.step fs) Typing b.kernel es)
    (hrun : Runs.run (Kernel.step fs) b.kernel es = some k) {e : Event} {scan c : UInt8}
    (hs : k.struck e = some scan) (hkey : k.editor.keystroke scan = .char c)
    (hn : k.editor.lineCount k.display.currentTerminal < numberCodes)
    (hscroll : k.display.checkScreen scan (k.editor.lineCount k.display.currentTerminal)
      k.editor.incOrDec = false) {status : UInt8} (hst : status ≠ 0) (fr : Frame)
    (junk : List UInt8) :
    (∃ k₁ k₂, k.step fs e = some k₁ ∧ k₁.step fs (.key status backspaceCode fr junk) = some k₂ ∧
      k.Undone k₂) ↔
    k.display.screenX k.display.currentTerminal ≠ maxScrollX ∧
      (k.display.screenX k.display.currentTerminal = 0 →
        k.editor.lineCount k.display.currentTerminal = 0) := by
  obtain ⟨hon, hcounted⟩ := typed_run htyped hrun
  obtain ⟨k₁, k₂, n, incOrDec, hk₁, hk₂, hbuf, hline, hdisplay⟩ :=
    step_char_backspace fs fr junk hcounted hs hkey hn hscroll hst
  have hc : ¬ (c = newline ∨ c = carriageReturn) := by
    obtain ⟨-, he, rfl, -⟩ := Editor.keystroke_eq_char hkey
    exact print_ne_break _ he
  have hundone : (∃ k₁ k₂, k.step fs e = some k₁ ∧
      k₁.step fs (.key status backspaceCode fr junk) = some k₂ ∧ k.Undone k₂) ↔
        Display.Blanked k.display k₂.display := by
    constructor
    · rintro ⟨k₁', k₂', hk₁', hk₂', h⟩
      obtain rfl := Option.some.inj (hk₁'.symm.trans hk₁)
      obtain rfl := Option.some.inj (hk₂'.symm.trans hk₂)
      exact h.screen
    · exact fun h => ⟨k₁, k₂, hk₁, hk₂, hbuf, hline, h⟩
  rw [hundone, hdisplay]
  exact Display.blanked_iff hon hc

/-- A letter and a Backspace, after two letters. -/
theorem type_backspace_third : ∃ k k₁ k₂,
    Runs.run (Kernel.step shellDisk) Boot.zero.kernel [pressed 0x1E, pressed 0x30] = some k ∧
    k.editor.lineCount 0 = 2 ∧ k.step shellDisk (pressed 0x1E) = some k₁ ∧
    k₁.step shellDisk (pressed backspaceCode) = some k₂ ∧ k.Undone k₂ := by
  have hrun : (Runs.run (Kernel.step shellDisk) Boot.zero.kernel
      [pressed 0x1E, pressed 0x30]).map (fun k => (k.display.currentTerminal,
        k.struck (pressed 0x1E), k.editor.keystroke 0x1E, k.editor.lineCount 0,
        k.display.checkScreen 0x1E 2 k.editor.incOrDec, k.display.screenX 0)) =
      some (0, some 0x1E, .char 97, 2, false, 2) := by
    decide +kernel
  obtain ⟨k, hk, hend⟩ := Option.map_eq_some_iff.mp hrun
  simp only [Prod.mk.injEq] at hend
  obtain ⟨hcurrent, hstruck, hkey, hline, hscroll, hcolumn⟩ := hend
  have htyped : Runs.Guarded (Kernel.step shellDisk) Typing Boot.zero.kernel
      [pressed 0x1E, pressed 0x30] := Runs.guarded_of_check (by decide +kernel)
  have hiff := type_backspace_iff shellDisk Boot.zero _ k htyped hk hstruck hkey
    (by rw [hcurrent, hline]; decide) (by rw [hcurrent, hline]; exact hscroll)
    (by decide : (1 : UInt8) ≠ 0) ⟨0, 0⟩ []
  rw [hcurrent, hcolumn] at hiff
  obtain ⟨k₁, k₂, hfirst, hsecond, hundone⟩ := hiff.mpr ⟨by decide, nofun⟩
  exact ⟨k, k₁, k₂, hk, hline, hfirst, hsecond, hundone⟩

/-- After a row of letters, another one and a Backspace leave the cursor at the start of the second
row, not of the first. -/
theorem type_backspace_moves : ∃ k,
    Runs.run (Kernel.step shellDisk) Boot.zero.kernel (List.replicate 80 (pressed 0x1E)) = some k ∧
    Runs.Guarded (Kernel.step shellDisk) Typing Boot.zero.kernel
      (List.replicate 80 (pressed 0x1E)) ∧
    (k.display.screenX 0, k.display.screenY 0, k.editor.lineCount 0) = (0, 0, 80) ∧
    ¬ ∃ k₁ k₂, k.step shellDisk (pressed 0x1E) = some k₁ ∧
      k₁.step shellDisk (pressed backspaceCode) = some k₂ ∧ k.Undone k₂ := by
  have hrun : ((Runs.run (Kernel.step shellDisk) Boot.zero.kernel
      (List.replicate 80 (pressed 0x1E))).bind fun k => (k.step shellDisk (pressed 0x1E)).bind
        fun k₁ => (k₁.step shellDisk (pressed backspaceCode)).map fun k₂ =>
          ((k.display.screenX 0, k.display.screenY 0, k.editor.lineCount 0),
            k₂.display.screenY 0)) = some ((0, 0, 80), 1) := by
    decide +kernel
  obtain ⟨k, hk, hrun⟩ := Option.bind_eq_some_iff.mp hrun
  obtain ⟨k₁, hk₁, hrun⟩ := Option.bind_eq_some_iff.mp hrun
  obtain ⟨k₂, hk₂, hcursor⟩ := Option.map_eq_some_iff.mp hrun
  obtain ⟨hstart, hend⟩ := Prod.mk.inj hcursor
  refine ⟨k, hk, Runs.guarded_of_check (by decide +kernel), hstart, ?_⟩
  rintro ⟨k₁', k₂', hk₁', hk₂', hundone⟩
  obtain rfl := Option.some.inj (hk₁'.symm.trans hk₁)
  obtain rfl := Option.some.inj (hk₂'.symm.trans hk₂)
  rw [hundone.screen.screenY, (Prod.mk.inj (Prod.mk.inj hstart).2).1] at hend
  exact absurd hend Nat.zero_ne_one

end Kernel

end HarambeOs
