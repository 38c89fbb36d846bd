import HarambeOs.Library.PaddedLine
import HarambeOs.Scheduler

/-!
# Lines — the line editor of the keyboard handler

Each terminal has a line that is being typed.  In the abstract it is a list of characters, and a key
appends to it, drops its last character or empties it (`Keystroke.strike`).  The kernel keeps it in
an array of 128 bytes with a count, under four key tables, five modifier flags and the echo.

`edit_step` says what an event does to the editor's globals.  **`Kernel.lineEditor_refines`**: in
every run without a Ctrl combination the arrays are the abstract lines, and Enter hands over the
line of the displayed terminal.
-/

namespace HarambeOs

open PaddedLine

/-! ## The abstract editor -/

/-- What a key means to the line it is struck on. -/
inductive Keystroke
  | char (c : UInt8)
  | erase
  | enter
  | ignored
  deriving DecidableEq

/-- The line after a key. -/
def Keystroke.strike : Keystroke → List UInt8 → List UInt8
  | .char c, line => if line.length < numberCodes then line ++ [c] else line
  | .erase, line => line.dropLast
  | .enter, _ => []
  | .ignored, line => line

/-! ## What a key does to the globals -/

namespace Editor

/-- What a key means under the modifier flags. -/
def keystroke (e : Editor) (scan : UInt8) : Keystroke :=
  if scan = backspaceCode then .erase
  else if e.print scan = nul then .ignored
  else if scan = HarambeOs.enter then .enter
  else .char (e.print scan)

/-- The editor's part of `lineKey`. -/
def strike (e : Editor) (t : Term) : Keystroke → Option Editor
  | .char c => if e.lineCount t < numberCodes then e.append t c else some e
  | .erase => if e.lineCount t > 0 then e.erase t else some e
  | .enter => some (e.enterLine t)
  | .ignored => some e

/-- The editor after a test key: Ctrl-2 and Ctrl-3 count, Ctrl-4 wipes the line handed over and
Ctrl-5 the line that is being typed. -/
def tested (e : Editor) (t : Term) (scan : UInt8) : Editor :=
  { e with
    i := if scan = two then e.i + 1 else e.i
    k := if scan = three then e.k + 1 else e.k
    read := if scan = four then fun _ => nul else e.read
    ctrl4Flag := if scan = four then true else if scan = five then false else e.ctrl4Flag
    ctrl4Loops := if scan = four then e.ctrl4Loops + 1 else e.ctrl4Loops
    rtcTest := if scan = four then e.rtcTest * 2 % 2 ^ 32 else if scan = five then 2 else e.rtcTest
    buffer := if scan = five then Function.update e.buffer t fun _ => nul else e.buffer }

theorem append_eq (e : Editor) {t : Term} (h : e.lineCount t < numberCodes) (c : UInt8) :
    e.append t c = some { e with
      buffer := Function.update e.buffer t (Function.update (e.buffer t) ⟨e.lineCount t, h⟩ c)
      incOrDec := true
      lineCount := Function.update e.lineCount t (e.lineCount t + 1) } := by
  rw [append, setBuffer, dif_pos h]
  rfl

theorem erase_eq (e : Editor) {t : Term} (h : e.lineCount t - 1 < numberCodes) :
    e.erase t = some { e with
      buffer := Function.update e.buffer t (Function.update (e.buffer t) ⟨e.lineCount t - 1, h⟩ nul)
      incOrDec := false
      lineCount := Function.update e.lineCount t (e.lineCount t - 1) } := by
  simp only [erase, setBuffer, Function.update_self, dif_pos h]
  rfl

/-- The editor's arrays and flags, the modifiers aside. -/
def lines (e : Editor) := (e.buffer, e.lineCount, e.entFlag, e.read)

/-- The arrays of the editor hold the lines `g`. -/
def Pending (e : Editor) (g : Term → List UInt8) : Prop :=
  ∀ t, Holds nul (e.buffer t) (e.lineCount t) (g t)

/-- Only the arrays count. -/
theorem Pending.congr {e e' : Editor} {g : Term → List UInt8} (h : e.Pending g)
    (hb : e'.buffer = e.buffer) (hc : e'.lineCount = e.lineCount) : e'.Pending g := by
  intro t
  rw [hb, hc]
  exact h t

/-- One terminal's line changed. -/
theorem Pending.update {e e' : Editor} {g : Term → List UInt8} (h : e.Pending g) {t : Term}
    {cells : Fin numberCodes → UInt8} {count : Nat} {line : List UInt8}
    (hb : e'.buffer = Function.update e.buffer t cells)
    (hc : e'.lineCount = Function.update e.lineCount t count) (hline : Holds nul cells count line) :
    e'.Pending (Function.update g t line) := by
  intro u
  rw [hb, hc]
  rcases eq_or_ne u t with rfl | hne
  · rw [Function.update_self, Function.update_self, Function.update_self]
    exact hline
  · rw [Function.update_of_ne hne, Function.update_of_ne hne, Function.update_of_ne hne]
    exact h u

/-- **A key does to the arrays what it does to the line**, and writes inside them. -/
theorem Pending.strike {e : Editor} {g : Term → List UInt8} (h : e.Pending g) (t : Term)
    (s : Keystroke) :
    ∃ e', e.strike t s = some e' ∧ e'.Pending (Function.update g t (s.strike (g t))) := by
  have hkeep : e.Pending (Function.update g t (g t)) := by rwa [Function.update_eq_self]
  obtain ⟨hcount, hle, -⟩ := h t
  cases s with
  | char c =>
    rw [Keystroke.strike, ← hcount, Editor.strike]
    split
    · next hn => exact ⟨_, e.append_eq hn c, h.update rfl rfl ((h t).concat hn c)⟩
    · exact ⟨e, rfl, hkeep⟩
  | erase =>
    rw [Keystroke.strike, Editor.strike]
    split
    · next hn =>
      have hlt : e.lineCount t - 1 < numberCodes := by omega
      exact ⟨_, e.erase_eq hlt, h.update rfl rfl ((h t).dropLast hn hlt)⟩
    · next hn =>
      have hnil : g t = [] := List.eq_nil_of_length_eq_zero (by omega)
      refine ⟨e, rfl, ?_⟩
      rwa [hnil] at hkeep ⊢
  | enter => exact ⟨_, rfl, h.update rfl rfl (.nil nul numberCodes)⟩
  | ignored => exact ⟨e, rfl, hkeep⟩

end Editor

/-! ## What an event does to them -/

namespace Kernel

variable {fs : FileSystem} {k k' : Kernel}

/-- The editor's part of a line key. -/
theorem editor_lineKey (k : Kernel) (scan : UInt8) :
    (k.lineKey scan).map Kernel.editor =
      k.editor.strike k.display.currentTerminal (k.editor.keystroke scan) := by
  unfold lineKey Editor.keystroke
  simp only
  by_cases hb : scan = backspaceCode
  · rw [if_pos hb, if_pos hb, Editor.strike]
    split
    · exact (Option.map_map ..).trans Option.map_id'
    · rfl
  rw [if_neg hb, if_neg hb]
  by_cases hc : k.editor.print scan = nul
  · rw [if_pos hc, if_pos hc]
    rfl
  rw [if_neg hc, if_neg hc]
  by_cases he : scan = enter
  · rw [if_pos he, if_pos he]
    rfl
  rw [if_neg he, if_neg he, Editor.strike]
  split
  · exact (Option.map_map ..).trans Option.map_id'
  · rfl

/-- **`c_execute` leaves the editor alone.** -/
theorem Executed.editor {command : Option (List UInt8)} {junk : List UInt8} {o : Outcome}
    (h : Executed fs command junk k o k') : k'.editor = k.editor := by
  cases h with
  | fail => rfl
  | start =>
    rw [commit_proc]
    rfl
  | overflow => rfl

/-- So does the first part of `c_halt`. -/
theorem editor_haltRelease (k : Kernel) : k.haltRelease.1.editor = k.editor := by
  unfold haltRelease
  split <;> rfl

theorem editor_cHalt {status : UInt8} {fr : Frame} {junk : List UInt8} {o : Outcome}
    (h : k.transition fs (.halt status fr junk) = some (k', o)) : k'.editor = k.editor := by
  cases transition_moves h with
  | exit => exact editor_haltRelease k
  | respawn _ _ hx => exact hx.editor.trans (editor_haltRelease k)
  | vacate _ _ hx => exact hx.editor.trans (editor_haltRelease k)

theorem editor_laterTerminalSwitch {t : Term} {fr : Frame} {junk : List UInt8} {o : Outcome}
    (h : k.laterTerminalSwitch fs t fr junk = some (k', o)) : k'.editor = k.editor := by
  cases laterTerminalSwitch_switched h with
  | refused => rfl
  | shown => rfl
  | launched _ _ _ h => exact (execute_executed h).editor

theorem editor_pitHandler {fr : Frame} (h : k.pitHandler fr = some k') : k'.editor = k.editor := by
  unfold pitHandler at h
  split at h
  · rw [← Option.some.inj h]
  · obtain ⟨t, -, rfl⟩ := Option.map_eq_some_iff.mp h
    rfl

/-- Of the editor, a system call can only take the line handed over. -/
theorem editor_call {c : Call} {r : Int × Option Buf} (hr : k.readsTerminal c = false)
    (h : k.call fs c = some (k', r)) : k'.editor = k.editor := by
  cases call_effect h with
  | line hr' => exact absurd (hr.symm.trans hr') nofun
  | video screenStart =>
    unfold cVidmap
    split <;> rfl
  | _ => rfl

/-- The key an event strikes on the displayed terminal's line, past modifiers and combinations. -/
def struck (k : Kernel) : Event → Option UInt8
  | .key status scan _ _ =>
    if status ≠ 0 ∧ isSpecial scan = false ∧ ¬ (k.editor.controlFlag ∧ isTestKey scan) ∧
        ¬ (k.editor.altFlag ∧ (scan = f1 ∨ scan = f2 ∨ scan = f3)) then some scan
    else none
  | _ => none

/-- The test key an event strikes, with Ctrl held. -/
def combined (k : Kernel) : Event → Option UInt8
  | .key status scan _ _ =>
    if status ≠ 0 ∧ isSpecial scan = false ∧ k.editor.controlFlag ∧ isTestKey scan then some scan
    else none
  | _ => none

/-- The key is no test key. -/
def plain : Event → Bool
  | .key _ scan _ _ => !isTestKey scan
  | _ => true

theorem combined_of_plain {e : Event} (h : plain e = true) (k : Kernel) : k.combined e = none := by
  cases e with
  | key status scan fr junk =>
    refine if_neg fun hc => ?_
    rw [plain, hc.2.2.2] at h
    cases h
  | _ => rfl

/-- What an event can do to the editor. -/
inductive Edit (k : Kernel) : Event → Editor → Prop
  | keep {e : Event} {d : Editor} (hs : k.struck e = none) (hc : k.combined e = none)
      (hr : ∀ c, e = .call c → k.readsTerminal c = false) (hd : d.lines = k.editor.lines) :
      Edit k e d
  | strike {e : Event} {scan : UInt8} {d : Editor} (hs : k.struck e = some scan)
      (hd : k.editor.strike k.display.currentTerminal (k.editor.keystroke scan) = some d) :
      Edit k e d
  | combine {e : Event} {scan : UInt8} {d : Editor} (hc : k.combined e = some scan)
      (hent : d.entFlag = k.editor.entFlag) (hread : scan ≠ four → d.read = k.editor.read) :
      Edit k e d
  | take {c : Call} (hr : k.readsTerminal c = true)
      (hent : k.editor.entFlag k.display.activeTerminal = true) :
      Edit k (.call c) (k.editor.takeLine k.display.activeTerminal)

/-- **The editor's part of a test key.** -/
theorem editor_testKey {scan : UInt8} (htest : isTestKey scan = true)
    (h : k.testKey fs scan = some k') :
    k'.editor = k.editor.tested k.display.currentTerminal scan := by
  unfold testKey at h
  simp only at h
  split_ifs at h with hl h₁ h₂ h₃ h₄
  · obtain ⟨d, -, rfl⟩ := Option.map_eq_some_iff.mp h
    rw [hl]
    rfl
  · obtain rfl := Option.some.inj h
    rw [h₁]
    rfl
  · obtain rfl := Option.some.inj h
    rw [h₂]
    rfl
  · obtain rfl := Option.some.inj h
    rw [h₃]
    rfl
  · obtain rfl := Option.some.inj h
    rw [h₄]
    rfl
  · obtain rfl := Option.some.inj h
    have h₅ : scan = five := by
      simpa only [isTestKey, beq_eq_false_iff_ne.mpr hl, beq_eq_false_iff_ne.mpr h₁,
        beq_eq_false_iff_ne.mpr h₂, beq_eq_false_iff_ne.mpr h₃, beq_eq_false_iff_ne.mpr h₄,
        Bool.false_or, beq_iff_eq] using htest
    rw [h₅]
    rfl

theorem keyboard_edit {status scan : UInt8} {fr : Frame} {junk : List UInt8} {o : Outcome}
    (h : k.keyboard fs status scan fr junk = some (k', o)) :
    Edit k (.key status scan fr junk) k'.editor := by
  cases keyboard_keyed h with
  | nothing hst => exact .keep (if_neg fun hc => hc.1 hst) (if_neg fun hc => hc.1 hst) nofun rfl
  | modifier hsp =>
    have hsp' : isSpecial scan ≠ false := fun hf => Bool.false_ne_true (hf.symm.trans hsp)
    exact .keep (if_neg fun hc => hsp' hc.2.1) (if_neg fun hc => hsp' hc.2.1) nofun rfl
  | test hst hsp htest h =>
    have htested := editor_testKey htest.2 h
    refine .combine (if_pos ⟨hst, hsp, htest⟩) (by rw [htested]; rfl) fun hscan => ?_
    rw [htested]
    exact if_neg hscan
  | first hst hsp htest halt hscan =>
    exact .keep (if_neg fun hc => hc.2.2.2 ⟨halt, Or.inl hscan⟩) (if_neg fun hc => htest hc.2.2)
      nofun rfl
  | later hst hsp htest halt hscan h =>
    have hf : scan = f2 ∨ scan = f3 := hscan.imp And.left And.left
    refine .keep (if_neg fun hc => hc.2.2.2 ⟨halt, Or.inr hf⟩) (if_neg fun hc => htest hc.2.2)
      nofun ?_
    rw [editor_laterTerminalSwitch h]
  | line hst hsp htest halt h =>
    have hline := editor_lineKey { k with display := k.display.cursorWrapper 1 } scan
    rw [h] at hline
    exact .strike (if_pos ⟨hst, hsp, htest, halt⟩) hline.symm

/-- **Whatever happens is an `Edit`.** -/
theorem edit_step {e : Event} (h : k.step fs e = some k') : Edit k e k'.editor := by
  obtain ⟨o, h⟩ := step_eq_some.mp h
  cases e with
  | execute command fr junk =>
    exact .keep rfl rfl (by rintro _ ⟨⟩) (by rw [(execute_executed h).editor])
  | halt status fr junk => exact .keep rfl rfl (by rintro _ ⟨⟩) (by rw [editor_cHalt h])
  | tick fr =>
    obtain ⟨k₁, hk₁, h⟩ := Option.map_eq_some_iff.mp h
    obtain ⟨rfl, -⟩ := Prod.mk.inj h
    exact .keep rfl rfl (by rintro _ ⟨⟩) (by rw [editor_pitHandler hk₁])
  | key status scan fr junk => exact keyboard_edit h
  | ctrl4Turn =>
    obtain ⟨k₁, hk₁, h⟩ := Option.map_eq_some_iff.mp h
    obtain ⟨rfl, -⟩ := Prod.mk.inj h
    refine .keep rfl rfl (by rintro _ ⟨⟩) ?_
    unfold ctrl4Turn at hk₁
    split_ifs at hk₁
    · rw [← Option.some.inj hk₁]
    · rw [← Option.some.inj hk₁]
      rfl
  | call c =>
    obtain ⟨r, hr, h⟩ := Option.map_eq_some_iff.mp h
    obtain ⟨rfl, -⟩ := Prod.mk.inj h
    cases hc : k.readsTerminal c with
    | false =>
      refine .keep rfl rfl (fun c' he => ?_) (by rw [editor_call hc hr])
      rw [← Event.call.inj he]
      exact hc
    | true =>
      obtain ⟨fd, buf, nbytes, beyond, rfl⟩ : ∃ fd buf nbytes beyond,
          c = .read fd (some buf) nbytes beyond := by
        unfold readsTerminal at hc
        split at hc
        · exact ⟨_, _, _, _, rfl⟩
        · cases hc
      have hcall : k.cRead fs fd (some buf) nbytes beyond = _ := cRead_of_readsTerminal hc
      have hread := hcall.symm.trans hr
      obtain ⟨⟨k₁, r'⟩, hr', h⟩ := Option.map_eq_some_iff.mp hread
      obtain ⟨hent, rfl, -⟩ := terminalRead_eq_some hr'
      rw [← h]
      exact .take hc hent

/-! ## The refinement -/

/-- The lines after an event: the key it strikes goes to the displayed terminal's. -/
def notePending (k : Kernel) (e : Event) (_ : Kernel) (g : Term → List UInt8) :
    Term → List UInt8 :=
  match k.struck e with
  | none => g
  | some scan => Function.update g k.display.currentTerminal
      ((k.editor.keystroke scan).strike (g k.display.currentTerminal))

/-- The event is not a combination with Ctrl. -/
def NoCtrl (r : Kernel × (Term → List UInt8)) (e : Event) : Prop := r.1.combined e = none

/-- **One event does to the arrays what it does to the lines.** -/
theorem pending_step {e : Event} {g : Term → List UInt8} (hp : k.editor.Pending g)
    (hc : k.combined e = none) (h : k.step fs e = some k') :
    k'.editor.Pending (k.notePending e k' g) := by
  have hedit := edit_step h
  generalize k'.editor = d at hedit ⊢
  cases hedit with
  | keep hs _ _ hd =>
    rw [notePending, hs]
    exact hp.congr (congrArg Prod.fst hd) (congrArg (fun l => l.2.1) hd)
  | @strike _ scan _ hs hd =>
    rw [notePending, hs]
    obtain ⟨d', hd', hp'⟩ := hp.strike k.display.currentTerminal (k.editor.keystroke scan)
    rw [← Option.some.inj (hd'.symm.trans hd)]
    exact hp'
  | combine hc' => exact absurd (hc.symm.trans hc') nofun
  | take => exact hp.congr rfl rfl

/-- The Enter key is Enter under all modifiers. -/
theorem keystroke_enter (e : Editor) : e.keystroke enter = .enter := by
  have hprint : e.print enter ≠ nul := by
    unfold Editor.print
    split <;> split <;> decide
  rw [Editor.keystroke, if_neg (by decide), if_neg hprint, if_pos rfl]

/-- A key that is no modifier, no test key and no function key reaches the line editor whatever is
held. -/
theorem struck_of_ordinary {status scan : UInt8} (hst : status ≠ 0)
    (h : isSpecial scan = false ∧ isTestKey scan = false ∧ ¬ (scan = f1 ∨ scan = f2 ∨ scan = f3))
    (fr : Frame) (junk : List UInt8) (k : Kernel) :
    k.struck (.key status scan fr junk) = some scan := by
  obtain ⟨hsp, htest, hf⟩ := h
  refine if_pos ⟨hst, hsp, fun hc => ?_, fun hc => hf hc.2⟩
  exact absurd (htest.symm.trans hc.2) Bool.false_ne_true

/-- Enter hands over the displayed terminal's line. -/
theorem editor_enter {status : UInt8} {fr : Frame} {junk : List UInt8} (hst : status ≠ 0)
    (h : k.step fs (.key status enter fr junk) = some k') :
    k'.editor = k.editor.enterLine k.display.currentTerminal := by
  have hs : k.struck (.key status enter fr junk) = some enter :=
    struck_of_ordinary hst (by decide) fr junk k
  have hedit := edit_step h
  generalize k'.editor = d at hedit ⊢
  cases hedit with
  | keep hs' => exact absurd (hs'.symm.trans hs) nofun
  | strike hs' hd =>
    rw [← Option.some.inj (hs.symm.trans hs'), keystroke_enter] at hd
    exact (Option.some.inj hd).symm
  | combine hc =>
    rw [combined, if_neg (fun hc => absurd hc.2.2.2 (by decide))] at hc
    cases hc

/-- **The line editor.**  In every run without a Ctrl combination, whatever happens besides, each
terminal's array and count are its line, padded with zeros and of at most 128 characters; Enter
hands over the line of the displayed terminal and sets the flag of that terminal only; and no key
writes outside the array. -/
theorem lineEditor_refines (fs : FileSystem) (b : Boot) (es : List Event) (k : Kernel)
    (g : Term → List UInt8)
    (hrun : Runs.run (Runs.withGhost (Kernel.step fs) notePending) (b.kernel, fun _ => []) es =
      some (k, g))
    (hctrl : Runs.Guarded (Runs.withGhost (Kernel.step fs) notePending) NoCtrl
      (b.kernel, fun _ => []) es) :
    (∀ t, k.editor.lineCount t = (g t).length ∧ k.editor.lineCount t ≤ numberCodes ∧
      k.editor.buffer t = pad nul numberCodes (g t)) ∧
    (∀ status fr junk k', status ≠ 0 → k.step fs (.key status enter fr junk) = some k' →
      k'.editor.read = pad nul numberCodes (g k.display.currentTerminal) ∧
      k'.editor.entFlag = Function.update k.editor.entFlag k.display.currentTerminal true) ∧
    ∀ scan, (k.lineKey scan).isSome := by
  have hp : k.editor.Pending g := by
    refine Runs.run_guarded (I := fun r : Kernel × (Term → List UInt8) => r.1.editor.Pending r.2) ?_
      (fun _ => .nil nul numberCodes) hctrl hrun
    rintro ⟨k₁, g₁⟩ e ⟨k₂, g₂⟩ hp hc h
    obtain ⟨hk, rfl⟩ := Runs.withGhost_eq_some.mp h
    exact pending_step hp hc hk
  refine ⟨fun t => ?_, fun status fr junk k' hst hk => ?_, fun scan => ?_⟩
  · obtain ⟨hcount, hle, hcells⟩ := hp t
    exact ⟨hcount, hcount ▸ hle, hcells⟩
  · rw [editor_enter hst hk]
    exact ⟨(hp k.display.currentTerminal).cells_eq, rfl⟩
  · obtain ⟨d, hd, -⟩ := hp.strike k.display.currentTerminal (k.editor.keystroke scan)
    have hline := (editor_lineKey k scan).trans hd
    rw [← Option.isSome_map, hline]
    rfl

/-- `A`, `b` and a Backspace on the first terminal, the shell of the second one launched with `c`
typed there, and back. -/
def typing : List Event :=
  [.execute (some shell) ⟨1, 2⟩ [], .key 1 leftShiftPressed ⟨3, 4⟩ [], .key 1 0x1E ⟨3, 4⟩ [],
    .key 1 leftShiftReleased ⟨3, 4⟩ [], .key 1 0x30 ⟨3, 4⟩ [], .key 1 backspaceCode ⟨3, 4⟩ [],
    .key 1 alt ⟨3, 4⟩ [], .key 1 f2 ⟨3, 4⟩ [], .key 1 0x2E ⟨3, 4⟩ [], .key 1 f1 ⟨3, 4⟩ []]

/-- Each terminal keeps its own line. -/
theorem lineEditor_refines_typing :
    ∃ k g, Runs.run (Runs.withGhost (Kernel.step shellDisk) notePending)
        (Boot.zero.kernel, fun _ => []) typing = some (k, g) ∧ g 0 = [65] ∧ g 1 = [99] ∧
      k.editor.buffer 0 = pad nul numberCodes [65] ∧ k.editor.lineCount 1 = 1 := by
  have hrun : (Runs.run (Runs.withGhost (Kernel.step shellDisk) notePending)
      (Boot.zero.kernel, fun _ => []) typing).map (fun r => (r.2 0, r.2 1)) =
      some ([65], [99]) := by
    decide +kernel
  obtain ⟨⟨k, g⟩, hk, hg⟩ := Option.map_eq_some_iff.mp hrun
  obtain ⟨h0, h1⟩ : g 0 = [65] ∧ g 1 = [99] := Prod.mk.inj hg
  have hplain : typing.all plain = true := by decide
  have hctrl : Runs.Guarded (Runs.withGhost (Kernel.step shellDisk) notePending) NoCtrl
      (Boot.zero.kernel, fun _ => []) typing :=
    Runs.guarded_of_forall (fun e he r => combined_of_plain (List.all_eq_true.mp hplain e he) r.1) _
  obtain ⟨hlines, -⟩ := lineEditor_refines shellDisk Boot.zero typing k g hk hctrl
  have h0' := (hlines 0).2.2
  have h1' := (hlines 1).1
  rw [h0] at h0'
  rw [h1] at h1'
  exact ⟨k, g, hk, h0, h1, h0', h1'⟩

end Kernel

end HarambeOs
