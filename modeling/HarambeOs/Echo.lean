import HarambeOs.Lines
import HarambeOs.Moves
import HarambeOs.Output

/-!
# Echo — where the keyboard handler may write

The handler echoes through `VIDEO`.  It leaves the cursor at column 0 of the row it just filled and
breaks the row only when the next character comes, and it scrolls only if `inc_or_dec` says that the
last key was not a Backspace.  So a Backspace back to the start of the bottom row makes the next
character break a row that nothing scrolled, and a Backspace at the top left corner erases the cell
before the screen.  `strikeFits` leaves those two out, and `echo_onScreen` says that there are no
others, in any run of keys.
-/

namespace HarambeOs

/-! ## What a key types -/

/-- In each table every key but Enter stands for a printable character or for none. -/
theorem Editor.print_entry (e : Editor) (scan : UInt8) :
    scan = enter ∨ e.print scan = nul ∨ 32 ≤ (e.print scan).toNat := by
  have htables : ∀ table ∈ [kbdus, caps, shiftNoCaps, shiftAndCaps], table.length = 58 ∧
      ∀ i < 58, i = enter.toNat ∨ table.getD i nul = nul ∨ 32 ≤ (table.getD i nul).toNat := by
    decide +kernel
  obtain ⟨table, ht, hprint⟩ : ∃ table ∈ [kbdus, caps, shiftNoCaps, shiftAndCaps],
      e.print scan = table.getD scan.toNat nul := by
    unfold Editor.print
    split <;> split <;> simp
  obtain ⟨hlen, hentry⟩ := htables table ht
  rw [hprint]
  by_cases hi : scan.toNat < 58
  · exact (hentry _ hi).imp_left UInt8.toNat_inj.mp
  · exact Or.inr (Or.inl (List.getD_eq_default _ _ (by omega)))

theorem print_ne_break (e : Editor) {scan : UInt8} (h : scan ≠ enter) :
    ¬ (e.print scan = newline ∨ e.print scan = carriageReturn) := by
  intro hbreak
  rcases e.print_entry scan with hscan | hnul | hle
  · exact h hscan
  · rw [hnul] at hbreak
    exact absurd hbreak (by decide)
  · rcases hbreak with hbreak | hbreak
    · exact absurd (hbreak ▸ hle) (by decide)
    · exact absurd (hbreak ▸ hle) (by decide)

namespace Display

/-! ## The functions of the echo -/

/-- Only the screen at `VIDEO` and the cursor of the displayed terminal changed, and the cursor is
on the screen. -/
structure Echoes (d d' : Display) : Prop where
  control : d'.control = d.control
  phys : ∀ a, a < video ∨ video + videoElems ≤ a → d'.phys a = d.phys a
  onScreen : d'.OnScreen d.currentTerminal

variable {d d' d'' : Display} {c : UInt8}

theorem Echoes.refl (h : d.OnScreen d.currentTerminal) : Echoes d d := ⟨rfl, fun _ _ => rfl, h⟩

theorem Echoes.current (h : Echoes d d') : d'.currentTerminal = d.currentTerminal :=
  currentTerminal_of_control h.control

theorem Echoes.displayed (h : Echoes d d') : d'.OnScreen d'.currentTerminal := by
  rw [h.current]
  exact h.onScreen

theorem Echoes.trans (h : Echoes d d') (h' : Echoes d' d'') : Echoes d d'' :=
  ⟨h'.control.trans h.control, fun a ha => (h'.phys a ha).trans (h.phys a ha),
    h.current ▸ h'.onScreen⟩

/-- A store to a byte of the screen. -/
theorem store_video {off : Nat} (hoff : off < videoElems) (b : UInt8) :
    d.store (video + off) b = { d with phys := Function.update d.phys (video + off) b } := by
  have hmaps : d.paging.translate (video + off) = some (video + off) :=
    d.paging.maps_video off (hoff.trans (by decide))
  rw [store, MappedMemory.store_of_eq_some hmaps]

theorem phys_store_video {off : Nat} (hoff : off < videoElems) (b : UInt8) (a : Nat)
    (ha : a < video ∨ video + videoElems ≤ a) : (d.store (video + off) b).phys a = d.phys a := by
  rw [store_video hoff]
  exact Function.update_of_ne (by omega) _ _

theorem cellAddr_eq (d : Display) (page : Nat) (t : Term) :
    d.cellAddr page t = page + 2 * (numCols * d.screenY t + d.screenX t) := by
  rw [cellAddr, Nat.shiftLeft_eq, Nat.mul_comm _ (2 ^ 1), pow_one]

/-- **A character** goes to the cell under the cursor. -/
theorem echoes_char (h : d.OnScreen d.currentTerminal) (hc : ¬ (c = newline ∨ c = carriageReturn)) :
    Echoes d (d.putcNumber2 c) := by
  obtain ⟨hx, hy⟩ := h
  refine ⟨d.control_putcNumber2 c, fun a ha => ?_, ?_⟩
  · have hoff : 2 * (numCols * d.screenY d.currentTerminal + d.screenX d.currentTerminal) + 1 <
        videoElems := by
      rw [numCols, videoElems]
      rw [numCols] at hx
      rw [numRows] at hy
      omega
    rw [putcNumber2, putAt, if_neg hc]
    simp only [setCursor, cellAddr_eq, Nat.add_assoc]
    rw [phys_store_video hoff _ a ha, phys_store_video (by omega) _ a ha]
  · rw [putcNumber2, putAt, if_neg hc]
    exact onScreen_setCursor.mpr ⟨Nat.mod_lt _ (by decide), Nat.mod_lt _ (by decide)⟩

/-- A break, above the bottom row. -/
theorem echoes_newline (hy : d.screenY d.currentTerminal < bottomRow) :
    Echoes d (d.putcNumber2 newline) := by
  rw [putcNumber2, putAt, if_pos (Or.inl rfl)]
  exact ⟨rfl, fun _ _ => rfl, onScreen_setCursor.mpr ⟨by decide, Nat.succ_lt_succ hy⟩⟩

theorem echoes_scroll2 (d : Display) : Echoes d d.scroll2 := by
  refine ⟨rfl, fun a ha => ?_, onScreen_setCursor.mpr (by decide)⟩
  have hmaps := d.paging.maps_video.mono (show videoElems ≤ 4096 by decide)
  refine (MappedMemory.storeRange_apply hmaps _ a).trans (if_neg ?_)
  omega

/-- **A Backspace**, not at the top left corner. -/
theorem echoes_backspace (h : d.OnScreen d.currentTerminal)
    (hne : ¬ (d.screenX d.currentTerminal = 0 ∧ d.screenY d.currentTerminal = 0)) :
    Echoes d d.backspace := by
  obtain ⟨hx, hy⟩ := h
  have haddr : d.cellAddr video d.currentTerminal - 2 =
      video + (2 * (numCols * d.screenY d.currentTerminal + d.screenX d.currentTerminal) - 2) := by
    rw [cellAddr_eq, numCols]
    omega
  have hoff : 2 * (numCols * d.screenY d.currentTerminal + d.screenX d.currentTerminal) - 2 <
      videoElems := by
    rw [numCols, videoElems]
    rw [numCols] at hx
    rw [numRows] at hy
    omega
  have hphys := phys_store_video (d := d) hoff space
  rw [← haddr] at hphys
  refine ⟨d.control_backspace, ?_, ?_⟩ <;> unfold backspace <;> simp only
  · split_ifs <;> exact hphys
  · rw [numCols] at hx
    rw [numRows] at hy
    split_ifs with hcol hrow
    · exact onScreen_setCursor.mpr ⟨by decide, lt_of_le_of_lt (Nat.sub_le ..) hy⟩
    · exact absurd ⟨hcol, Nat.eq_zero_of_not_pos hrow⟩ hne
    · exact onScreen_setCursor.mpr ⟨lt_of_le_of_lt (Nat.sub_le ..) hx, hy⟩

/-! ## One key -/

section Scrolling

variable {scan : UInt8} {lineCount : Nat} {incOrDec : Bool}

theorem echoes_scrollFor (h : d.OnScreen d.currentTerminal) (scan : UInt8) (lineCount : Nat)
    (incOrDec : Bool) : Echoes d (d.scrollFor scan lineCount incOrDec) := by
  unfold scrollFor
  split
  · exact d.echoes_scroll2
  · exact .refl h

theorem screenY_scroll2 (d : Display) : d.scroll2.screenY d.currentTerminal = maxScrollY :=
  Function.update_self ..

theorem scrollFor_ne_corner
    (h : ¬ (d.screenX d.currentTerminal = 0 ∧ d.screenY d.currentTerminal = 0)) :
    ¬ ((d.scrollFor scan lineCount incOrDec).screenX d.currentTerminal = 0 ∧
      (d.scrollFor scan lineCount incOrDec).screenY d.currentTerminal = 0) := by
  unfold scrollFor
  split
  · rw [screenY_scroll2]
    exact fun hc => absurd hc.2 (by decide)
  · exact h

/-- Enter always finds room for its newline. -/
theorem scrollFor_enter_lt (h : d.OnScreen d.currentTerminal) :
    (d.scrollFor enter lineCount incOrDec).screenY d.currentTerminal < bottomRow := by
  have hy : d.screenY d.currentTerminal < 25 := h.2
  unfold scrollFor
  split
  · rw [screenY_scroll2]
    decide
  · next hno =>
    have hne : d.screenY d.currentTerminal ≠ bottomRow := by
      intro heq
      refine hno ?_
      unfold checkScreen
      split_ifs with _ hrow
      · rfl
      · rfl
      · exact absurd ⟨rfl, heq⟩ hrow
    rw [bottomRow] at hne ⊢
    omega

/-- So does a character that breaks the row, unless a Backspace came before it. -/
theorem scrollFor_char_lt (h : d.OnScreen d.currentTerminal) (hn : lineCount > 0)
    (hx : (d.scrollFor scan lineCount incOrDec).screenX d.currentTerminal = 0)
    (hfit : ¬ (d.screenX d.currentTerminal = 0 ∧ d.screenY d.currentTerminal = bottomRow ∧
      incOrDec = false)) :
    (d.scrollFor scan lineCount incOrDec).screenY d.currentTerminal < bottomRow := by
  have hy : d.screenY d.currentTerminal < 25 := h.2
  unfold scrollFor at hx ⊢
  split
  · rw [screenY_scroll2]
    decide
  · next hno =>
    rw [if_neg hno] at hx
    have hne : d.screenY d.currentTerminal ≠ bottomRow := by
      intro heq
      cases incOrDec with
      | false => exact hfit ⟨hx, heq, rfl⟩
      | true => exact hno (if_pos ⟨hx, hn, heq, rfl⟩)
    rw [bottomRow] at hne ⊢
    omega

end Scrolling

/-- The condition on a key struck with the cursor here: no Backspace on a line that begins before
the top left corner, and no character that breaks the bottom row right after a Backspace. -/
def strikeFits (d : Display) (scan c : UInt8) (lineCount : Nat) (incOrDec : Bool) : Bool :=
  let t := d.currentTerminal
  if scan = backspaceCode then !decide (lineCount > 0 ∧ d.screenX t = 0 ∧ d.screenY t = 0)
  else !decide (c ≠ nul ∧ scan ≠ enter ∧ lineCount > 0 ∧ lineCount < numberCodes ∧
    d.screenX t = 0 ∧ d.screenY t = bottomRow ∧ incOrDec = false)

/-- The echo of a character. -/
theorem echoes_echo {n : Nat} (h : d.OnScreen d.currentTerminal)
    (hc : ¬ (c = newline ∨ c = carriageReturn))
    (hy : d.screenX d.currentTerminal = 0 → n > 0 → d.screenY d.currentTerminal < bottomRow) :
    Echoes d (d.echo n c) := by
  unfold echo
  split
  · next hbreak =>
    have hnl := echoes_newline (hy hbreak.1 hbreak.2)
    exact hnl.trans (echoes_char hnl.displayed hc)
  · exact echoes_char h hc

/-! ## A switch that is refused

It prints a message on the active terminal, which need not be the displayed one. -/

variable {u : Term}

theorem onScreen_setCursor_of_ne {t : Term} (hu : u ≠ t) {x y : Nat} :
    (d.setCursor t x y).OnScreen u ↔ d.OnScreen u := by
  simp only [OnScreen, setCursor, Function.update_of_ne hu]

/-- One cursor set, the others as they were. -/
theorem onScreen_setCursor_any {t : Term} (h : u ≠ t → d.OnScreen u) {x y : Nat} (hx : x < numCols)
    (hy : y < numRows) : (d.setCursor t x y).OnScreen u := by
  rcases eq_or_ne u t with rfl | hu
  · exact onScreen_setCursor.mpr ⟨hx, hy⟩
  · exact (onScreen_setCursor_of_ne hu).mpr (h hu)

theorem onScreen_putc_of_ne (hu : u ≠ d.activeTerminal) : (d.putc c).OnScreen u ↔ d.OnScreen u := by
  unfold putc putAt
  split
  · exact onScreen_setCursor_of_ne hu
  · exact onScreen_setCursor_of_ne hu

theorem onScreen_scroll_of_ne (hu : u ≠ d.activeTerminal) : d.scroll.OnScreen u ↔ d.OnScreen u :=
  onScreen_setCursor_of_ne hu

theorem onScreen_writeChar_of_ne (hu : u ≠ d.activeTerminal) (h : d.writeChar c = some d') :
    d'.OnScreen u ↔ d.OnScreen u := by
  have hput (d₁ : Display) (h₁ : d₁.control = d.control) (b : UInt8) :
      (d₁.putc b).OnScreen u ↔ d₁.OnScreen u :=
    onScreen_putc_of_ne (by rwa [activeTerminal_of_control h₁])
  have hscroll (d₁ : Display) (h₁ : d₁.control = d.control) :
      d₁.scroll.OnScreen u ↔ d₁.OnScreen u :=
    onScreen_scroll_of_ne (by rwa [activeTerminal_of_control h₁])
  unfold writeChar at h
  split_ifs at h <;> rw [← Option.some.inj h]
  · have hc := d.control_putc c
    exact (hput (d.putc c).scroll hc _).trans ((hscroll _ hc).trans (hput d rfl c))
  · exact (hput d.scroll rfl c).trans (hscroll d rfl)
  · exact (hput d.scroll rfl c).trans (hscroll d rfl)
  · exact hput d rfl c
  · exact (hput _ (d.control_putc c) _).trans (hput d rfl c)
  · exact hput d rfl _
  · exact hput d rfl c

theorem onScreen_writeLoop_of_ne (hu : u ≠ d.activeTerminal) (cs : List UInt8) :
    (d.writeLoop cs).2.OnScreen u ↔ d.OnScreen u := by
  induction cs generalizing d with
  | nil => exact Iff.rfl
  | cons c cs ih =>
    rw [writeLoop]
    split
    · exact Iff.rfl
    · next d₁ hd₁ =>
      have hact := activeTerminal_of_control (d.control_writeChar hd₁)
      exact (ih (hact ▸ hu)).trans (onScreen_writeChar_of_ne hu hd₁)

/-- `terminal_write` keeps every cursor on its screen, on a string without carriage return. -/
theorem onScreen_terminalWrite (h : d.OnScreen u) {buf : List UInt8}
    (hbuf : ∀ c ∈ buf, c ≠ carriageReturn) : (d.terminalWrite (some buf)).2.OnScreen u := by
  rcases eq_or_ne u d.activeTerminal with rfl | hu
  · exact ((d.shows_console d.activeTerminal h.1 h.2).terminalWrite hbuf).1.onScreen
  · exact (onScreen_writeLoop_of_ne hu _).mpr h

end Display

/-- The event is a keyboard interrupt. -/
def Event.isKey : Event → Bool
  | .key .. => true
  | _ => false

namespace Kernel

variable {fs : FileSystem} {k k' : Kernel}

/-- **A key of the line.** -/
theorem lineKey_echoes {scan : UInt8} (h : k.lineKey scan = some k')
    (hon : k.display.OnScreen k.display.currentTerminal)
    (hfit : k.display.strikeFits scan (k.editor.print scan)
      (k.editor.lineCount k.display.currentTerminal) k.editor.incOrDec = true) :
    Display.Echoes k.display k'.display := by
  have hd := Display.echoes_scrollFor hon scan
    (k.editor.lineCount k.display.currentTerminal) k.editor.incOrDec
  unfold Display.strikeFits at hfit
  unfold lineKey at h
  simp only at h hfit
  split_ifs at h with hb hn hc he hlt
  · rw [if_pos hb, Bool.not_eq_true', decide_eq_false_iff_not] at hfit
    obtain ⟨e, -, rfl⟩ := Option.map_eq_some_iff.mp h
    refine hd.trans (Display.echoes_backspace hd.displayed ?_)
    rw [hd.current]
    exact Display.scrollFor_ne_corner fun hz => hfit ⟨hn, hz⟩
  · obtain rfl := Option.some.inj h
    exact hd
  · obtain rfl := Option.some.inj h
    exact hd
  · obtain rfl := Option.some.inj h
    refine hd.trans (Display.echoes_newline ?_)
    rw [hd.current, he]
    exact Display.scrollFor_enter_lt hon
  · rw [if_neg hb, Bool.not_eq_true', decide_eq_false_iff_not] at hfit
    obtain ⟨e, -, rfl⟩ := Option.map_eq_some_iff.mp h
    refine hd.trans (Display.echoes_echo hd.displayed (print_ne_break _ he) fun hx hn => ?_)
    rw [hd.current] at hx ⊢
    exact Display.scrollFor_char_lt hon hn hx fun hz => hfit ⟨hc, he, hn, hlt, hz⟩
  · obtain rfl := Option.some.inj h
    exact hd

/-! ## Runs of keys -/

/-- The terminal a key switches to, with Alt held. -/
def switchTo (k : Kernel) : Event → Option Term
  | .key status scan _ _ =>
    if status ≠ 0 ∧ isSpecial scan = false ∧ ¬ (k.editor.controlFlag ∧ isTestKey scan) ∧
        k.editor.altFlag then
      if scan = f1 then some 0 else if scan = f2 then some 1 else if scan = f3 then some 2 else none
    else none
  | _ => none

/-- The condition on an event: a key without Ctrl, whose echo fits; a switch goes to a terminal
whose cursor is on the screen. -/
def echoFits (k : Kernel) (e : Event) : Bool :=
  e.isKey && (k.combined e).isNone &&
    (k.switchTo e).all (fun t => decide (k.display.OnScreen t)) &&
    (k.struck e).all fun scan => k.display.strikeFits scan (k.editor.print scan)
      (k.editor.lineCount k.display.currentTerminal) k.editor.incOrDec

/-- A program starts with the cursors where they were, and the error of a full table keeps them on
the screen. -/
theorem Executed.onScreen {command : Option (List UInt8)} {junk : List UInt8} {o : Outcome}
    {u : Term} (h : Executed fs command junk k o k') (hon : k.display.OnScreen u) :
    k'.display.OnScreen u := by
  cases h with
  | fail => exact hon
  | start =>
    rw [commit_eq rfl rfl]
    exact hon
  | overflow _ _ phys =>
    have hon' : ((k.prepare (argsOf command)).loaded phys).display.OnScreen u := hon
    have hbuf : ∀ c ∈ tooManyError, c ≠ carriageReturn := by decide +kernel
    exact Display.onScreen_terminalWrite hon' hbuf

theorem Executed.current {command : Option (List UInt8)} {junk : List UInt8} {o : Outcome}
    (h : Executed fs command junk k o k') :
    k'.display.currentTerminal = k.display.currentTerminal := by
  cases h with
  | fail => rfl
  | start =>
    rw [commit_eq rfl rfl]
    rfl
  | overflow _ _ phys =>
    have hwrite := Display.currentTerminal_of_control
      (((k.prepare (argsOf command)).loaded phys).display.control_terminalWrite (some tooManyError))
    exact hwrite

/-- So does a switch, or its refusal. -/
theorem laterTerminalSwitch_onScreen {t u : Term} {fr : Frame} {junk : List UInt8} {o : Outcome}
    (h : k.laterTerminalSwitch fs t fr junk = some (k', o)) (hon : k.display.OnScreen u) :
    k'.display.OnScreen u := by
  cases laterTerminalSwitch_switched h with
  | refused => exact Display.onScreen_terminalWrite hon (by decide +kernel)
  | shown => exact hon
  | launched _ _ _ h =>
    refine (execute_executed h).onScreen ?_
    exact Display.onScreen_setCursor_any (fun _ => hon) (by decide) (by decide)

/-- The terminal displayed after a switch. -/
theorem laterTerminalSwitch_current {t : Term} {fr : Frame} {junk : List UInt8} {o : Outcome}
    (h : k.laterTerminalSwitch fs t fr junk = some (k', o)) :
    k'.display.currentTerminal = k.display.currentTerminal ∨ k'.display.currentTerminal = t := by
  cases laterTerminalSwitch_switched h with
  | refused => exact Or.inl (Display.currentTerminal_of_control
      (k.display.control_terminalWrite (some message)))
  | shown => exact Or.inr rfl
  | launched _ _ _ h => exact Or.inr (execute_executed h).current

/-- **One key.** -/
theorem key_echoes {e : Event} (hon : k.display.OnScreen k.display.currentTerminal)
    (hfit : k.echoFits e = true) (h : k.step fs e = some k') :
    k'.display.OnScreen k'.display.currentTerminal ∧
      (k.switchTo e = none → Display.Echoes k.display k'.display) := by
  obtain ⟨o, h⟩ := step_eq_some.mp h
  cases e with
  | key status scan fr junk =>
    rw [echoFits, Bool.and_eq_true, Bool.and_eq_true, Bool.and_eq_true] at hfit
    obtain ⟨⟨⟨-, hcomb⟩, hswitch⟩, hstrike⟩ := hfit
    have of_echoes (he : Display.Echoes k.display k'.display) :
        k'.display.OnScreen k'.display.currentTerminal ∧
          (k.switchTo (.key status scan fr junk) = none → Display.Echoes k.display k'.display) :=
      ⟨he.displayed, fun _ => he⟩
    have hwrap : Display.Echoes k.display (k.display.cursorWrapper 1) :=
      ⟨rfl, fun _ _ => rfl, hon⟩
    have of_switch {t : Term} (ht : k.switchTo (.key status scan fr junk) = some t)
        (hk' : k.display.OnScreen t → k'.display.OnScreen k'.display.currentTerminal) :
        k'.display.OnScreen k'.display.currentTerminal ∧
          (k.switchTo (.key status scan fr junk) = none →
            Display.Echoes k.display k'.display) := by
      refine ⟨hk' ?_, fun hnone => absurd (ht.symm.trans hnone) (Option.some_ne_none t)⟩
      rwa [ht, Option.all_some, decide_eq_true_eq] at hswitch
    change k.keyboard fs status scan fr junk = some (k', o) at h
    cases keyboard_keyed h with
    | nothing => exact of_echoes hwrap
    | modifier => exact of_echoes hwrap
    | test hst hsp htest =>
      rw [combined, if_pos ⟨hst, hsp, htest⟩] at hcomb
      cases hcomb
    | first hst hsp htest halt hscan =>
      refine of_switch (t := 0) ?_ id
      rw [switchTo, if_pos ⟨hst, hsp, htest, halt⟩, if_pos hscan]
    | @later hst hsp htest halt t hscan _ _ h =>
      refine of_switch (t := t) ?_ fun ht => ?_
      · rw [switchTo, if_pos ⟨hst, hsp, htest, halt⟩]
        rcases hscan with ⟨rfl, rfl⟩ | ⟨rfl, rfl⟩ <;> rfl
      · rcases laterTerminalSwitch_current h with hcur | hcur
        · exact hcur ▸ laterTerminalSwitch_onScreen h hwrap.displayed
        · exact hcur ▸ laterTerminalSwitch_onScreen h ht
    | line hst hsp htest halt h =>
      rw [struck, if_pos ⟨hst, hsp, htest, halt⟩, Option.all_some] at hstrike
      exact of_echoes (hwrap.trans (lineKey_echoes h hwrap.displayed hstrike))
  | _ => cases hfit

/-- **The echo stays on the screen**, in every run of keys that fit: after each the cursor of the
displayed terminal is on the screen, and what is written is written to the cells of the screen. -/
theorem echo_onScreen {keys : List Event} (hon : k.display.OnScreen k.display.currentTerminal)
    (hfits : Runs.Guarded (Kernel.step fs) (echoFits · · = true) k keys)
    (hrun : Runs.run (Kernel.step fs) k keys = some k') :
    k'.display.OnScreen k'.display.currentTerminal ∧
      ∀ e k'', k'.echoFits e = true → k'.step fs e = some k'' →
        k''.display.OnScreen k''.display.currentTerminal ∧
        (k'.switchTo e = none → k''.display.currentTerminal = k'.display.currentTerminal ∧
          ∀ a, a < video ∨ video + videoElems ≤ a → k''.display.phys a = k'.display.phys a) := by
  have hon' : k'.display.OnScreen k'.display.currentTerminal :=
    Runs.run_guarded (I := fun k => k.display.OnScreen k.display.currentTerminal)
      (fun _ _ _ hs hfit hstep => (key_echoes hs hfit hstep).1) hon hfits hrun
  refine ⟨hon', fun e k'' hfit hstep => ?_⟩
  obtain ⟨hnext, hecho⟩ := key_echoes hon' hfit hstep
  exact ⟨hnext, fun hsw => ⟨(hecho hsw).current, (hecho hsw).phys⟩⟩

/-- A kernel with nothing typed and the cursor at a given place. -/
def typist (x y : Nat) : Kernel :=
  { Boot.zero.kernel with display := Display.corner.setCursor 0 x y }

/-- A key pressed. -/
def pressed (scan : UInt8) : Event := .key 1 scan ⟨0, 0⟩ []

/-- Three letters over the end of row 23. -/
theorem echo_onScreen_wrap :
    ∃ k', Runs.run (Kernel.step shellDisk) (typist 79 23) (([0x1E, 0x30, 0x2E]).map pressed) =
      some k' ∧ k'.display.OnScreen k'.display.currentTerminal := by
  have hrun : (Runs.run (Kernel.step shellDisk) (typist 79 23)
      (([0x1E, 0x30, 0x2E]).map pressed)).isSome = true := by decide +kernel
  obtain ⟨k', hk'⟩ := Option.isSome_iff_exists.mp hrun
  exact ⟨k', hk',
    (echo_onScreen (by decide) (Runs.guarded_of_check (by decide +kernel)) hk').1⟩

/-- **Off the screen.**  Two letters over the end of row 23, a Backspace and another letter: the
letter is written below the screen.  And a Backspace after a letter at the end of row 0 writes
before it, where no page is present. -/
theorem echo_leaves_screen :
    (typist 79 23).display.OnScreen 0 ∧ (typist 79 23).editor.lineCount 0 = 0 ∧
      (typist 79 23).display.phys (video + videoElems) = nul ∧
      (Runs.run (Kernel.step shellDisk) (typist 79 23)
        (([0x1E, 0x30, backspaceCode, 0x2E]).map pressed)).map
          (·.display.phys (video + videoElems)) = some 99 ∧
      (typist 79 0).display.OnScreen 0 ∧
      (Runs.run (Kernel.step shellDisk) (typist 79 0) [pressed 0x1E]).map
        (fun k => (k.display.cellAddr video 0 - 2,
          k.display.paging.translate (k.display.cellAddr video 0 - 2))) =
        some (video - 2, none) := by
  decide +kernel

end Kernel

end HarambeOs
