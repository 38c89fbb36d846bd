import HarambeOs.Library.Runs
import HarambeOs.Output

/-!
# Messages — `printf`, and where output may write

`puts` and `printf` hand their bytes to `putc` one by one.  `putc` moves down a row at every newline
and carriage return, with no regard for the bottom of the screen, and leaves it to its callers to
scroll.  `terminal_write` does that for newlines; `puts` and `printf` never do, and nobody does it
for carriage returns.  `fits` is the condition under which a call stays on the screen, and
`output_onScreen` says that it is enough, over any sequence of calls on any terminals.
-/

namespace HarambeOs

/-! ## `printf` -/

/-- `lookup[i]` of `itoa`. -/
def digit (i : Nat) : UInt8 := UInt8.ofNat (if i < 10 then 48 + i else 55 + i)

/-- The loop of `itoa`, lowest place first.  A 32-bit number has at most 32 digits. -/
def itoaLoop (radix : Nat) : Nat → Nat → List UInt8
  | 0, _ => []
  | n + 1, newval =>
    if newval > 0 then digit (newval % radix) :: itoaLoop radix n (newval / radix) else []

/-- `itoa`. -/
def itoa (value radix : Nat) : List UInt8 :=
  if value = 0 then [48] else (itoaLoop radix 32 value).reverse

/-- What a conversion prints for the argument `word`, and whether it takes the argument.  `strings`
gives the string at an address, up to its NUL. -/
def conversion (strings : Nat → List UInt8) (alternate : Bool) (c : UInt8) (word : Nat) :
    List UInt8 × Bool :=
  if c = 37 then ([37], false)
  else if c = 120 then
    if alternate then (List.replicate (8 - (itoa word 16).length) 48 ++ itoa word 16, true)
    else (itoa word 16, true)
  else if c = 117 then (itoa word 10, true)
  else if c = 100 then
    if word ≥ 2 ^ 31 then (45 :: itoa (2 ^ 32 - word) 10, true) else (itoa word 10, true)
  else if c = 99 then ([UInt8.ofNat (word % 256)], true)
  else if c = 115 then (strings word, true)
  else ([], false)

/-- The bytes `printf` puts out, from the format `format` on: `percent` is `none` outside a
conversion, and inside one says whether `#` was seen.  A `%` at the end of the string makes the loop
run on past the NUL; where the memory given ends it gives no result. -/
def printfLoop (words : Nat → Nat) (strings : Nat → List UInt8) :
    Option Bool → Nat → List UInt8 → Option (List UInt8)
  | _, _, [] => none
  | none, i, c :: format =>
    if c = nul then some []
    else if c = 37 then printfLoop words strings (some false) i format
    else (printfLoop words strings none i format).map (c :: ·)
  | some alternate, i, c :: format =>
    if c = 35 then printfLoop words strings (some true) i format
    else
      let r := conversion strings alternate c (words i)
      (printfLoop words strings none (if r.2 then i + 1 else i) format).map (r.1 ++ ·)

namespace Display

/-- `printf`, with the memory from the format on and the words on the stack after it. -/
def printf (d : Display) (format : List UInt8) (words : Nat → Nat) (strings : Nat → List UInt8) :
    Option Display :=
  (printfLoop words strings none 0 format).map d.puts

/-! ## The calls -/

/-- Output on the active terminal, or another terminal made the active one. -/
inductive OutputCall
  | terminalWrite (buf : Option (List UInt8))
  | puts (s : List UInt8)
  | printf (format : List UInt8) (words : Nat → Nat) (strings : Nat → List UInt8)
  | activate (t : Term)

/-- The display after a call. -/
def outputStep (d : Display) : OutputCall → Option Display
  | .terminalWrite buf => some (d.terminalWrite buf).2
  | .puts s => some (d.puts s)
  | .printf format words strings => d.printf format words strings
  | .activate t => some { d with activeTerminal := t }

/-- The two bytes that end a row. -/
def isBreak (c : UInt8) : Bool := c == newline || c == carriageReturn

/-- No byte given to `putc` ends the bottom row. -/
def putsFits (d : Display) : List UInt8 → Bool
  | [] => true
  | c :: s => (!isBreak c || decide (d.screenY d.activeTerminal < bottomRow)) &&
      putsFits (d.putc c) s

/-- `terminal_write` meets no carriage return on the bottom row, nor in the last column of the row
above it, where it adds a newline; at the bottom right it scrolls in between. -/
def writeFits (d : Display) : List UInt8 → Bool
  | [] => true
  | c :: cs =>
    !(c == carriageReturn && if d.screenX d.activeTerminal = maxX
        then d.screenY d.activeTerminal + 1 == maxY else d.screenY d.activeTerminal == maxY) &&
      (d.writeChar c).all fun d' => writeFits d' cs

/-- The condition on a call. -/
def fits (d : Display) : OutputCall → Bool
  | .terminalWrite none => true
  | .terminalWrite (some buf) => d.writeFits (replaceNul buf)
  | .puts s => d.putsFits s
  | .printf format words strings => (printfLoop words strings none 0 format).all d.putsFits
  | .activate _ => true

/-! ## Staying on the screen -/

variable {d d' d'' : Display} {t : Term} {c : UInt8}

/-- Only the screen and the cursor of terminal `t` changed, and the cursor is on the screen. -/
structure Stays (d d' : Display) (t : Term) : Prop extends Confined d d' t where
  onScreen : d'.OnScreen t

theorem Stays.refl (h : d.OnScreen t) : Stays d d t := ⟨.refl d t, h⟩

theorem Stays.trans (h : Stays d d' t) (h' : Stays d' d'' t) : Stays d d'' t :=
  ⟨h.toConfined.trans h'.toConfined, h'.onScreen⟩

/-- The other cursors are where they were. -/
theorem Stays.all (h : Stays d d' t) (hd : ∀ u, d.OnScreen u) : ∀ u, d'.OnScreen u := by
  intro u
  rcases eq_or_ne u t with rfl | hu
  · exact h.onScreen
  · rw [OnScreen, h.screenX u hu, h.screenY u hu]
    exact hd u

theorem stays_putc (h : d.OnScreen d.activeTerminal)
    (hc : isBreak c = true → d.screenY d.activeTerminal < bottomRow) :
    Stays d (d.putc c) d.activeTerminal := by
  have hmaps := d.paging.maps_pageArr d.activeTerminal
  refine ⟨confined_putAt hmaps h.1 h.2 c, ?_⟩
  by_cases hb : c = newline ∨ c = carriageReturn
  · have hy := hc (by simpa [isBreak] using hb)
    rw [putc, putAt, if_pos hb, onScreen_setCursor]
    exact ⟨by decide, Nat.succ_lt_succ hy⟩
  · rw [putc, putAt_char hmaps rfl rfl h.1 h.2 hb, onScreen_setCursor]
    exact ⟨Nat.mod_lt _ (by decide), h.2⟩

/-- **`puts`** where its breaks are above the bottom row. -/
theorem stays_puts {s : List UInt8} (h : d.OnScreen d.activeTerminal) (hs : d.putsFits s = true) :
    Stays d (d.puts s) d.activeTerminal := by
  induction s generalizing d with
  | nil => exact .refl h
  | cons c s ih =>
    rw [putsFits, Bool.and_eq_true, Bool.or_eq_true, Bool.not_eq_true', decide_eq_true_eq] at hs
    have hput : Stays d (d.putc c) d.activeTerminal :=
      stays_putc h fun hb => hs.1.resolve_left (by rw [hb]; exact Bool.noConfusion)
    have hact := activeTerminal_of_control hput.control
    have hrest := ih (d := d.putc c) (hact.symm ▸ hput.onScreen) hs.2
    exact hput.trans (hact ▸ hrest)

/-- A carriage return in `terminal_write`: `putc` takes it for a newline, the branches do not. -/
theorem writeChar_carriageReturn (d : Display) :
    d.writeChar carriageReturn = some (if d.screenX d.activeTerminal = maxX then
      if d.screenY d.activeTerminal = maxY then (d.putc carriageReturn).scroll.putc newline
      else (d.putc carriageReturn).putc newline
      else d.putc carriageReturn) := by
  have hX : d.getScreenX 0 = d.screenX d.activeTerminal := rfl
  have hY : d.getScreenY 0 = d.screenY d.activeTerminal := rfl
  have hn : carriageReturn ≠ newline := by decide
  have h0 : carriageReturn ≠ nul := by decide
  simp only [writeChar, hX, hY, hn, h0, ne_eq, not_false_eq_true, and_true, and_false, if_false]
  split_ifs <;> first | rfl | simp_all

/-- At the bottom right the scroll takes the cursor back before anything is written below. -/
theorem stays_return_corner (h : d.OnScreen d.activeTerminal) :
    Stays d ((d.putc carriageReturn).scroll.putc newline) d.activeTerminal := by
  have hact : (d.putc carriageReturn).activeTerminal = d.activeTerminal :=
    activeTerminal_of_control (d.control_putc _)
  have hconf := confined_putAt (d.paging.maps_pageArr d.activeTerminal) h.1 h.2 carriageReturn
  have hscroll : Stays d (d.putc carriageReturn).scroll d.activeTerminal := by
    refine ⟨hconf.trans ?_, ?_⟩
    · rw [← hact]
      exact confined_scrollAt ((d.putc carriageReturn).paging.maps_pageArr _)
    · rw [scroll, scrollAt, hact, onScreen_setCursor]
      decide
  refine hscroll.trans ?_
  rw [← hact]
  refine stays_putc (hact ▸ hscroll.onScreen) fun _ => ?_
  have hy : (d.putc carriageReturn).scroll.screenY (d.putc carriageReturn).activeTerminal =
      maxScrollY := Function.update_self ..
  exact lt_of_eq_of_lt hy (by decide)

/-- In the last column a newline follows. -/
theorem stays_return_wrap (h : d.OnScreen d.activeTerminal)
    (hy : d.screenY d.activeTerminal + 1 < bottomRow) :
    Stays d ((d.putc carriageReturn).putc newline) d.activeTerminal := by
  have hact : (d.putc carriageReturn).activeTerminal = d.activeTerminal :=
    activeTerminal_of_control (d.control_putc _)
  have hnext : (d.putc carriageReturn).screenY d.activeTerminal =
      d.screenY d.activeTerminal + 1 := by
    rw [putc, putAt, if_pos (Or.inr rfl)]
    exact Function.update_self ..
  have hcr : Stays d (d.putc carriageReturn) d.activeTerminal :=
    stays_putc h fun _ => Nat.lt_of_succ_lt hy
  refine hcr.trans ?_
  rw [← hact]
  refine stays_putc (hact ▸ hcr.onScreen) fun _ => ?_
  rwa [hact, hnext]

theorem stays_carriageReturn (h : d.OnScreen d.activeTerminal)
    (hfit : ¬ if d.screenX d.activeTerminal = maxX then d.screenY d.activeTerminal + 1 = maxY
      else d.screenY d.activeTerminal = maxY) (hd' : d.writeChar carriageReturn = some d') :
    Stays d d' d.activeTerminal := by
  have hrow : d.screenY d.activeTerminal < 25 := h.2
  rw [writeChar_carriageReturn] at hd'
  obtain rfl := Option.some.inj hd'
  rw [maxY] at hfit ⊢
  split_ifs at hfit ⊢ with hcol hlast
  · exact stays_return_corner h
  · exact stays_return_wrap h (show _ < 24 by omega)
  · exact stays_putc h fun _ => show _ < 24 by omega

/-- **One byte of `terminal_write`**, after NULs were replaced. -/
theorem stays_writeChar (h : d.OnScreen d.activeTerminal) (hc : c ≠ nul)
    (hfit : (!(c == carriageReturn && if d.screenX d.activeTerminal = maxX
      then d.screenY d.activeTerminal + 1 == maxY else d.screenY d.activeTerminal == maxY)) = true)
    (hd' : d.writeChar c = some d') : Stays d d' d.activeTerminal := by
  by_cases hcr : c = carriageReturn
  · subst hcr
    refine stays_carriageReturn h (fun hbad => ?_) hd'
    split_ifs at hfit hbad <;> simp [hbad] at hfit
  · obtain ⟨d₁, hd₁, hshow, hconf⟩ :=
      (d.shows_console d.activeTerminal h.1 h.2).writeChar hc hcr
    obtain rfl := Option.some.inj (hd'.symm.trans hd₁)
    exact ⟨hconf, hshow.onScreen⟩

theorem stays_writeLoop {cs : List UInt8} (h : d.OnScreen d.activeTerminal)
    (hnul : ∀ c ∈ cs, c ≠ nul) (hfit : d.writeFits cs = true) :
    Stays d (d.writeLoop cs).2 d.activeTerminal := by
  induction cs generalizing d with
  | nil => exact .refl h
  | cons c cs ih =>
    obtain ⟨hc, hcs⟩ := List.forall_mem_cons.mp hnul
    rw [writeFits, Bool.and_eq_true] at hfit
    rw [writeLoop]
    split
    · exact .refl h
    · next d₁ hd₁ =>
      have hone := stays_writeChar h hc hfit.1 hd₁
      have hact := activeTerminal_of_control hone.control
      have hrest := ih (d := d₁) (hact.symm ▸ hone.onScreen) hcs (by simpa [hd₁] using hfit.2)
      exact hone.trans (hact ▸ hrest)

/-- **`terminal_write`** where it meets no carriage return at the bottom. -/
theorem stays_terminalWrite {buf : Option (List UInt8)} (h : d.OnScreen d.activeTerminal)
    (hfit : d.fits (.terminalWrite buf) = true) :
    Stays d (d.terminalWrite buf).2 d.activeTerminal := by
  cases buf with
  | none => exact .refl h
  | some buf =>
    have hnul (c : UInt8) (hc : c ∈ replaceNul buf) : c ≠ nul := by
      obtain ⟨b, -, rfl⟩ := List.mem_map.mp hc
      split
      · decide
      · assumption
    obtain ⟨hconf, hon⟩ := stays_writeLoop h hnul hfit
    exact ⟨⟨hconf.1, hconf.2, hconf.3, hconf.4⟩, hon⟩

/-! ## Runs of calls -/

/-- A call that fits touches the screen of the active terminal only, and keeps every cursor on its
screen. -/
theorem outputStep_onScreen {call : OutputCall} (h : ∀ t, d.OnScreen t)
    (hfit : d.fits call = true) (hd' : d.outputStep call = some d') :
    (∀ t, d'.OnScreen t) ∧ ∀ a, a < d.paging.termFrame d.activeTerminal ∨
      d.paging.termFrame d.activeTerminal + videoElems ≤ a → d'.phys a = d.phys a := by
  cases call with
  | terminalWrite buf =>
    obtain rfl := Option.some.inj hd'
    have hstays := stays_terminalWrite (h _) hfit
    exact ⟨hstays.all h, hstays.phys⟩
  | puts s =>
    obtain rfl := Option.some.inj hd'
    have hstays := stays_puts (h _) hfit
    exact ⟨hstays.all h, hstays.phys⟩
  | printf format words strings =>
    obtain ⟨s, hs, rfl⟩ := Option.map_eq_some_iff.mp hd'
    rw [fits, hs, Option.all_some] at hfit
    have hstays := stays_puts (h _) hfit
    exact ⟨hstays.all h, hstays.phys⟩
  | activate t =>
    obtain rfl := Option.some.inj hd'
    exact ⟨h, fun _ _ => rfl⟩

/-- **Output stays on the screen**, in every run of calls that fit: after each call the cursor of
every terminal is on its screen, and the call wrote to the screen of the active terminal only. -/
theorem output_onScreen {calls : List OutputCall} (h : ∀ t, d.OnScreen t)
    (hfits : Runs.Guarded outputStep (fits · · = true) d calls)
    (hrun : Runs.run outputStep d calls = some d') :
    (∀ t, d'.OnScreen t) ∧ ∀ call d'', d'.fits call = true → d'.outputStep call = some d'' →
      (∀ t, d''.OnScreen t) ∧ ∀ a, a < d'.paging.termFrame d'.activeTerminal ∨
        d'.paging.termFrame d'.activeTerminal + videoElems ≤ a → d''.phys a = d'.phys a := by
  have hon : ∀ t, d'.OnScreen t := Runs.run_guarded
    (fun _ _ _ hs hfit hstep => (outputStep_onScreen hs hfit hstep).1) h hfits hrun
  exact ⟨hon, fun _ _ hfit hstep => outputStep_onScreen hon hfit hstep⟩

/-- A letter and a newline at the bottom right of the first terminal, then a number on the
second. -/
def letterAndNumber : List OutputCall :=
  [.terminalWrite (some [97, newline]), .activate 1,
    .printf [105, 61, 37, 100, nul] (fun _ => 7) fun _ => []]

theorem output_onScreen_letterAndNumber :
    ∃ d', Runs.run outputStep corner letterAndNumber = some d' ∧ ∀ t, d'.OnScreen t := by
  have hrun : (Runs.run outputStep corner letterAndNumber).isSome = true := by decide +kernel
  obtain ⟨d', hd'⟩ := Option.isSome_iff_exists.mp hrun
  exact ⟨d', hd', (output_onScreen (by decide) (Runs.guarded_of_check (by decide +kernel)) hd').1⟩

/-- **Below the screen.**  On the bottom row a newline from `puts` or `printf`, or a carriage return
from `terminal_write`, takes the cursor to row 25; after two newlines a letter is on the next
terminal's page. -/
theorem output_leaves_screen :
    (∀ t, corner.OnScreen t) ∧
      (∀ call ∈ [OutputCall.puts [newline], .printf [newline, nul] (fun _ => 0) fun _ => [],
        .terminalWrite (some [97, carriageReturn])],
        (corner.outputStep call).map (·.screenY 0) = some 25) ∧
      corner.phys (corner.paging.termFrame 1 + 64) = nul ∧
      (corner.outputStep (.puts [newline, newline, 97])).map
        (·.phys (corner.paging.termFrame 1 + 64)) = some 97 := by
  decide +kernel

end Display

end HarambeOs
