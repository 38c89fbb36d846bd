import HarambeOs.Lines

/-!
# Keys — the modifier flags, and the lines under every key

The handler keeps five flags.  Four are to say whether a key is down and are driven by its press and
release codes; `caps_flag` is toggled.  So is the flag of the left shift key, which then follows the
key only while its codes alternate (**`modifiers_iff`**).

Each terminal has an array of characters and a count, and ten branches of the handler that may touch
them.  Only Ctrl-5 takes the two apart: it empties the array and leaves the count
(**`Kernel.linesKept_iff`**).
-/

namespace HarambeOs

/-! ## The codes received -/

/-- Of the codes received, the latest first, the last one of a key was a press. -/
def held (press release : UInt8) (codes : List UInt8) : Bool :=
  (codes.find? fun c => c == press || c == release) == some press

theorem held_cons {press release : UInt8} (hne : release ≠ press) (c : UInt8)
    (codes : List UInt8) : held press release (c :: codes) =
      if c = press then true else if c = release then false else held press release codes := by
  rw [held, held, List.find?_cons]
  by_cases hp : c = press
  · simp [hp]
  by_cases hr : c = release
  · simp [hr, hne]
  · rw [if_neg hp, if_neg hr, beq_eq_false_iff_ne.mpr hp, beq_eq_false_iff_ne.mpr hr]
    rfl

/-- The codes of the modifier keys. -/
def modifierCodes : List UInt8 :=
  [ctrl, ctrlRelease, alt, altRelease, rightShiftPressed, rightShiftReleased, leftShiftPressed,
    leftShiftReleased, capsCode]

theorem isSpecial_of_mem {scan : UInt8} (h : scan ∈ modifierCodes) : isSpecial scan = true :=
  List.all_eq_true.mp (show modifierCodes.all isSpecial = true by decide) scan h

namespace Editor

/-- The five flags. -/
def flags (e : Editor) : Bool × Bool × Bool × Bool × Bool :=
  (e.controlFlag, e.altFlag, e.rightShiftFlag, e.leftShiftFlag, e.capsFlag)

/-- What a scan code does to the flags: the first branch of the handler, or nothing. -/
def receive (e : Editor) (scan : UInt8) : Editor := if isSpecial scan then e.modifiers scan else e

/-- A code of no modifier key. -/
theorem modifiers_eq_self (e : Editor) {scan : UInt8} (h : scan ∉ modifierCodes) :
    e.modifiers scan = e := by
  simp only [modifierCodes, List.mem_cons, List.not_mem_nil, or_false, not_or] at h
  obtain ⟨h₁, h₂, h₃, h₄, h₅, h₆, h₇, h₈, h₉⟩ := h
  rw [modifiers, if_neg h₁, if_neg h₂, if_neg h₃, if_neg h₄, if_neg h₅, if_neg h₆, if_neg h₇,
    if_neg h₈, if_neg h₉]

/-- The first branch takes every code that its assignments look for. -/
theorem receive_eq_modifiers (e : Editor) (scan : UInt8) : e.receive scan = e.modifiers scan := by
  rw [receive]
  split
  · rfl
  · next h => exact (e.modifiers_eq_self fun hm => h (isSpecial_of_mem hm)).symm

/-- Only the flags count. -/
theorem flags_receive_congr {e e' : Editor} (h : e'.flags = e.flags) (scan : UInt8) :
    (e'.receive scan).flags = (e.receive scan).flags := by
  simp only [flags, Prod.mk.injEq] at h
  obtain ⟨h₁, h₂, h₃, h₄, h₅⟩ := h
  simp only [receive_eq_modifiers, modifiers, flags, h₁, h₂, h₃, h₄, h₅]

/-- A line key leaves the flags alone. -/
theorem flags_strike {e e' : Editor} {t : Term} {s : Keystroke} (h : e.strike t s = some e') :
    e'.flags = e.flags := by
  cases s with
  | char c =>
    rw [strike] at h
    split at h
    · next hn =>
      rw [append_eq e hn] at h
      rw [← Option.some.inj h]
      rfl
    · rw [Option.some.inj h]
  | erase =>
    rw [strike] at h
    split at h
    · rw [erase] at h
      obtain ⟨d, hd, rfl⟩ := Option.map_eq_some_iff.mp h
      rw [setBuffer] at hd
      split at hd
      · rw [← Option.some.inj hd]
        rfl
      · cases hd
    · rw [Option.some.inj h]
  | enter =>
    rw [← Option.some.inj h]
    rfl
  | ignored => rw [Option.some.inj h]

end Editor

/-- The flags and the codes received so far, after one more. -/
def receiveStep (s : Editor × List UInt8) (scan : UInt8) : Option (Editor × List UInt8) :=
  some (s.1.receive scan, scan :: s.2)

/-- The flags say what the codes received say. -/
structure Tracks (s : Editor × List UInt8) : Prop where
  control : s.1.controlFlag = held ctrl ctrlRelease s.2
  alt : s.1.altFlag = held alt altRelease s.2
  rightShift : s.1.rightShiftFlag = held rightShiftPressed rightShiftReleased s.2
  leftShift : s.1.leftShiftFlag = held leftShiftPressed leftShiftReleased s.2
  caps : s.1.capsFlag = decide (s.2.count capsCode % 2 = 1)

/-- A code of the left shift key is a press exactly when the one before it was not. -/
def Alternates (s : Editor × List UInt8) (scan : UInt8) : Prop :=
  (scan = leftShiftPressed → held leftShiftPressed leftShiftReleased s.2 = false) ∧
    (scan = leftShiftReleased → held leftShiftPressed leftShiftReleased s.2 = true)

/-- **One code**: the flag of the left shift key follows it when the codes alternate, the other
flags always. -/
theorem Tracks.receive_iff {s : Editor × List UInt8} (h : Tracks s) (scan : UInt8) :
    Tracks (s.1.receive scan, scan :: s.2) ↔ Alternates s scan := by
  obtain ⟨e, codes⟩ := s
  obtain ⟨hcontrol, halt, hright, hleft, hcaps⟩ := h
  simp only at hcontrol halt hright hleft hcaps
  rw [e.receive_eq_modifiers]
  constructor
  · intro h'
    have h' := h'.leftShift
    simp only [Editor.modifiers, held_cons (show leftShiftReleased ≠ leftShiftPressed by decide),
      hleft] at h'
    refine ⟨fun hp => ?_, fun hr => ?_⟩
    · rw [if_pos hp, if_pos hp] at h'
      exact Bool.not_eq_true' _ |>.mp h'
    · have hp : scan ≠ leftShiftPressed := by
        rw [hr]
        decide
      rw [if_neg hp, if_neg hp, if_pos hr, if_pos hr] at h'
      exact Bool.not_eq_false' _ |>.mp h'
  · rintro ⟨hpress, hrelease⟩
    refine ⟨?_, ?_, ?_, ?_, ?_⟩
    · simp only [Editor.modifiers, held_cons (show ctrlRelease ≠ ctrl by decide), hcontrol]
    · simp only [Editor.modifiers, held_cons (show altRelease ≠ HarambeOs.alt by decide), halt]
    · simp only [Editor.modifiers,
        held_cons (show rightShiftReleased ≠ rightShiftPressed by decide), hright]
    · simp only [Editor.modifiers,
        held_cons (show leftShiftReleased ≠ leftShiftPressed by decide), hleft]
      split
      · next hp => rw [hpress hp, Bool.not_false]
      split
      · next hr => rw [hrelease hr, Bool.not_true]
      · rfl
    · simp only [Editor.modifiers, List.count_cons, hcaps, beq_iff_eq]
      split
      · rw [← decide_not]
        exact decide_eq_decide.mpr (by omega)
      · rw [Nat.add_zero]

/-! ## What an event does to the flags -/

/-- The scan code an event brings. -/
def Event.code : Event → Option UInt8
  | .key status scan _ _ => if status = 0 then none else some scan
  | _ => none

namespace Kernel

variable {fs : FileSystem} {k k' : Kernel}

theorem flags_keyboard {status scan : UInt8} {fr : Frame} {junk : List UInt8} {o : Outcome}
    (hst : status ≠ 0) (h : k.keyboard fs status scan fr junk = some (k', o)) :
    k'.editor.flags = (k.editor.receive scan).flags := by
  have hplain (hsp : isSpecial scan = false) : k.editor.receive scan = k.editor :=
    if_neg (by rw [hsp]; exact Bool.false_ne_true)
  cases keyboard_keyed h with
  | nothing hst' => exact absurd hst' hst
  | modifier hsp => rw [Editor.receive, if_pos hsp]
  | test _ hsp htest h =>
    rw [hplain hsp, editor_testKey htest.2 h]
    rfl
  | first _ hsp =>
    rw [hplain hsp]
    rfl
  | later _ hsp _ _ _ h => rw [hplain hsp, editor_laterTerminalSwitch h]
  | line _ hsp _ _ h =>
    have hline := editor_lineKey { k with display := k.display.cursorWrapper 1 } scan
    rw [h] at hline
    rw [hplain hsp]
    exact Editor.flags_strike hline.symm

theorem flags_call {c : Call} {r : Int × Option Buf} (h : k.call fs c = some (k', r)) :
    k'.editor.flags = k.editor.flags := by
  cases call_effect h with
  | video screenStart =>
    unfold cVidmap
    split <;> rfl
  | _ => rfl

/-- **Only scan codes change the flags.** -/
theorem flags_step {e : Event} (h : k.step fs e = some k') :
    k'.editor.flags = (e.code.elim k.editor k.editor.receive).flags := by
  obtain ⟨o, h⟩ := step_eq_some.mp h
  cases e with
  | execute command fr junk => exact congrArg Editor.flags (execute_executed h).editor
  | halt status fr junk => exact congrArg Editor.flags (editor_cHalt h)
  | tick fr =>
    obtain ⟨k₁, hk₁, h⟩ := Option.map_eq_some_iff.mp h
    obtain ⟨rfl, -⟩ := Prod.mk.inj h
    exact congrArg Editor.flags (editor_pitHandler hk₁)
  | key status scan fr junk =>
    by_cases hst : status = 0
    · rw [transition, keyboard, if_pos hst] at h
      obtain ⟨rfl, -⟩ := Prod.mk.inj (Option.some.inj h)
      rw [Event.code, if_pos hst]
      rfl
    · rw [Event.code, if_neg hst]
      exact flags_keyboard hst h
  | ctrl4Turn =>
    obtain ⟨k₁, hk₁, h⟩ := Option.map_eq_some_iff.mp h
    obtain ⟨rfl, -⟩ := Prod.mk.inj h
    unfold ctrl4Turn at hk₁
    split_ifs at hk₁
    · rw [← Option.some.inj hk₁]
      rfl
    · rw [← Option.some.inj hk₁]
      rfl
  | call c =>
    obtain ⟨r, hr, h⟩ := Option.map_eq_some_iff.mp h
    obtain ⟨rfl, -⟩ := Prod.mk.inj h
    exact flags_call hr

/-- The flags after a run are what the codes it brought make of them. -/
theorem flags_of_run {k₀ : Kernel} {es : List Event} {e₀ : Editor}
    (h₀ : k₀.editor.flags = e₀.flags) (hrun : Runs.run (step fs) k₀ es = some k) :
    k.editor.flags = ((es.filterMap Event.code).foldl Editor.receive e₀).flags := by
  induction es generalizing k₀ e₀ with
  | nil => rw [← Option.some.inj hrun, h₀, List.filterMap_nil, List.foldl_nil]
  | cons e es ih =>
    obtain ⟨k₁, hk₁, hrun⟩ := Runs.run_cons_eq_some.mp hrun
    have hstep := flags_step hk₁
    cases hc : e.code with
    | none =>
      rw [hc] at hstep
      rw [List.filterMap_cons_none hc]
      exact ih (hstep.trans h₀) hrun
    | some scan =>
      rw [hc] at hstep
      rw [List.filterMap_cons_some hc, List.foldl_cons]
      exact ih (hstep.trans (Editor.flags_receive_congr h₀ scan)) hrun

end Kernel

/-- **The modifier flags.**  For every sequence of scan codes: after each code the flags of Ctrl,
Alt and the shift keys say whether the last code of the key was a press, and `caps_flag` whether
the Caps codes are odd in number, exactly when the codes of the left shift key alternate, beginning
with a press; a code of no modifier key changes none of them.  In the kernel the codes that arrived
decide the flags, whatever else has happened. -/
theorem modifiers_iff (codes : List UInt8) :
    (Runs.Along receiveStep Tracks (Boot.editor, []) codes ↔
      Runs.Guarded receiveStep Alternates (Boot.editor, []) codes) ∧
    (∀ (e : Editor) (scan : UInt8), scan ∉ modifierCodes → (e.receive scan).flags = e.flags) ∧
    ∀ (fs : FileSystem) (b : Boot) (es : List Event) (k : Kernel),
      Runs.run (Kernel.step fs) b.kernel es = some k → es.filterMap Event.code = codes →
        k.editor.flags = (codes.foldl Editor.receive Boot.editor).flags := by
  refine ⟨?_, fun e scan h => ?_, ?_⟩
  · refine Runs.along_iff_guarded (I := fun _ => True) (fun _ _ _ _ _ => trivial) ?_ trivial
      ⟨rfl, rfl, rfl, rfl, rfl⟩ codes
    intro s scan s' _ hs hstep
    rw [← Option.some.inj hstep]
    exact hs.receive_iff scan
  · rw [e.receive_eq_modifiers, e.modifiers_eq_self h]
  · rintro fs b es k hrun rfl
    exact Kernel.flags_of_run rfl hrun

/-- The left shift key held down until it repeats: two presses, and the flag is off. -/
theorem leftShift_repeats : ∃ k,
    Runs.run (Kernel.step shellDisk) Boot.zero.kernel
      [.key 1 leftShiftPressed ⟨0, 0⟩ [], .key 1 leftShiftPressed ⟨0, 0⟩ []] = some k ∧
    k.editor.leftShiftFlag = false ∧
    held leftShiftPressed leftShiftReleased [leftShiftPressed, leftShiftPressed] = true ∧
    ¬ Runs.Along receiveStep Tracks (Boot.editor, []) [leftShiftPressed, leftShiftPressed] := by
  have hrun : (Runs.run (Kernel.step shellDisk) Boot.zero.kernel
      [.key 1 leftShiftPressed ⟨0, 0⟩ [], .key 1 leftShiftPressed ⟨0, 0⟩ []]).map
        (fun k => k.editor.leftShiftFlag) = some false := by
    decide +kernel
  obtain ⟨k, hk, hflag⟩ := Option.map_eq_some_iff.mp hrun
  refine ⟨k, hk, hflag, by decide, fun h => ?_⟩
  exact absurd (((h.2 _ rfl).2 _ rfl).leftShift) (by decide)

/-! ## Arrays and counts -/

/-- What the meaning of a key says about its code. -/
theorem Editor.keystroke_eq_char {e : Editor} {scan c : UInt8} (h : e.keystroke scan = .char c) :
    scan ≠ backspaceCode ∧ scan ≠ enter ∧ e.print scan = c ∧ c ≠ nul := by
  unfold keystroke at h
  split_ifs at h with hb hc he
  obtain rfl := Keystroke.char.inj h
  exact ⟨hb, he, rfl, hc⟩

/-- A key puts no NUL into a line. -/
theorem Editor.keystroke_ne_nul (e : Editor) (scan : UInt8) : e.keystroke scan ≠ .char nul :=
  fun h => (keystroke_eq_char h).2.2.2 rfl

theorem Keystroke.nul_notMem_strike {s : Keystroke} {line : List UInt8} (hs : s ≠ .char nul)
    (h : nul ∉ line) : nul ∉ s.strike line := by
  cases s with
  | char c =>
    rw [strike]
    split
    · rw [List.mem_append, List.mem_singleton]
      rintro (hl | rfl)
      · exact h hl
      · exact hs rfl
    · exact h
  | erase => exact fun hl => h (List.dropLast_subset _ hl)
  | enter => exact List.not_mem_nil
  | ignored => exact h

namespace Kernel

variable {fs : FileSystem} {k k' : Kernel}

/-- Each array holds a line, and its count is the length of the line. -/
structure Counted (k : Kernel) : Prop where
  count : ∀ t, k.editor.lineCount t ≤ numberCodes
  cells : ∀ t (j : Fin numberCodes), k.editor.buffer t j ≠ nul ↔ (j : Nat) < k.editor.lineCount t

theorem counted_iff : k.Counted ↔ ∃ g, k.editor.Pending g ∧ ∀ t, nul ∉ g t := by
  constructor
  · intro h
    choose g hg using fun t => PaddedLine.exists_holds_iff.mpr ⟨h.count t, h.cells t⟩
    exact ⟨g, fun t => (hg t).2, fun t => (hg t).1⟩
  · rintro ⟨g, hp, hg⟩
    exact ⟨fun t => (PaddedLine.exists_holds_iff.mp ⟨g t, hg t, hp t⟩).1,
      fun t => (PaddedLine.exists_holds_iff.mp ⟨g t, hg t, hp t⟩).2⟩

theorem counted_boot (b : Boot) : b.kernel.Counted :=
  counted_iff.mpr ⟨fun _ => [], fun _ => .nil nul numberCodes, fun _ => List.not_mem_nil⟩

theorem combined_eq_some {e : Event} {scan : UInt8} (h : k.combined e = some scan) :
    ∃ status fr junk, e = .key status scan fr junk ∧ status ≠ 0 ∧ isSpecial scan = false ∧
      k.editor.controlFlag ∧ isTestKey scan := by
  unfold combined at h
  split at h
  · split at h
    · next hc =>
      obtain rfl := Option.some.inj h
      exact ⟨_, _, _, rfl, hc⟩
    · cases h
  · cases h

/-- A combination with Ctrl leaves the counts, and the arrays unless it is Ctrl-5. -/
theorem arrays_combined {e : Event} {scan : UInt8} (hc : k.combined e = some scan)
    (h : k.step fs e = some k') :
    k'.editor.lineCount = k.editor.lineCount ∧
      k'.editor.buffer = if scan = five then
          Function.update k.editor.buffer k.display.currentTerminal fun _ => nul
        else k.editor.buffer := by
  obtain ⟨status, fr, junk, rfl, hst, hsp, htest⟩ := combined_eq_some hc
  obtain ⟨o, h⟩ := step_eq_some.mp h
  cases keyboard_keyed h with
  | nothing hst' => exact absurd hst' hst
  | modifier hsp' => exact absurd (hsp.symm.trans hsp') Bool.false_ne_true
  | test _ _ _ h =>
    rw [editor_testKey htest.2 h]
    exact ⟨rfl, rfl⟩
  | first _ _ htest' => exact absurd htest htest'
  | later _ _ htest' => exact absurd htest htest'
  | line _ _ htest' => exact absurd htest htest'

/-- **Every event but a Ctrl-5 keeps arrays and counts together.** -/
theorem Counted.step {e : Event} (hk : k.Counted) (hc : k.combined e ≠ some five)
    (h : k.step fs e = some k') : k'.Counted := by
  obtain ⟨g, hp, hg⟩ := counted_iff.mp hk
  rw [counted_iff]
  cases hcomb : k.combined e with
  | none =>
    refine ⟨_, pending_step hp hcomb h, fun t => ?_⟩
    cases hs : k.struck e with
    | none =>
      rw [notePending, hs]
      exact hg t
    | some scan =>
      rw [notePending, hs]
      dsimp only
      rw [Function.update_apply]
      split
      · exact Keystroke.nul_notMem_strike (k.editor.keystroke_ne_nul scan) (hg _)
      · exact hg t
  | some scan =>
    obtain ⟨hcount, hbuf⟩ := arrays_combined hcomb h
    rw [if_neg fun hs => hc (hcomb.trans (congrArg some hs))] at hbuf
    exact ⟨g, hp.congr hbuf hcount, hg⟩

/-- A Ctrl-5 keeps them together when there is nothing to flush. -/
theorem Counted.flush_iff {e : Event} (hk : k.Counted) (hc : k.combined e = some five)
    (h : k.step fs e = some k') :
    k'.Counted ↔ k.editor.lineCount k.display.currentTerminal = 0 := by
  obtain ⟨hcount, hbuf⟩ := arrays_combined hc h
  rw [if_pos rfl] at hbuf
  constructor
  · intro hk'
    by_contra hpos
    have hfirst := (hk'.cells k.display.currentTerminal ⟨0, by decide⟩).mpr
      (by rw [hcount]; exact Nat.pos_of_ne_zero hpos)
    rw [hbuf, Function.update_self] at hfirst
    exact hfirst rfl
  · intro hzero
    refine ⟨fun t => hcount ▸ hk.count t, fun t j => ?_⟩
    rw [hbuf, hcount, Function.update_apply]
    split
    · next ht =>
      rw [ht, hzero]
      exact iff_of_false (not_not.mpr rfl) (Nat.not_lt_zero _)
    · exact hk.cells t j

/-- Arrays and counts belong together, and the next Enter delivers the characters of the displayed
terminal's line. -/
structure LinesKept (fs : FileSystem) (k : Kernel) : Prop where
  counted : k.Counted
  delivers : ∀ status fr junk k', status ≠ 0 → k.step fs (.key status enter fr junk) = some k' →
    ∀ j : Fin numberCodes, k'.editor.read j =
      if (j : Nat) < k.editor.lineCount k.display.currentTerminal then
        k.editor.buffer k.display.currentTerminal j
      else nul

theorem linesKept_iff_counted : k.LinesKept fs ↔ k.Counted := by
  refine ⟨LinesKept.counted, fun h => ⟨h, fun status fr junk k' hst hk j => ?_⟩⟩
  rw [editor_enter hst hk]
  split
  · rfl
  · next hj => exact not_not.mp fun hne => hj ((h.cells _ j).mp hne)

/-- **Lines under every key.**  Whatever happens, the count of each terminal is the number of its
pending characters, at most 128, the rest of its array is zero and the next Enter delivers these
characters, after every event of a run, exactly when each Ctrl-5 of the run finds the displayed
terminal's count at 0. -/
theorem linesKept_iff (fs : FileSystem) (b : Boot) (es : List Event) :
    Runs.Along (step fs) (LinesKept fs) b.kernel es ↔
      Runs.Guarded (step fs) (fun k e => k.combined e = some five →
        k.editor.lineCount k.display.currentTerminal = 0) b.kernel es := by
  refine Runs.along_iff_guarded (I := fun _ => True) (fun _ _ _ _ _ => trivial) ?_ trivial
    (linesKept_iff_counted.mpr (counted_boot b)) es
  intro k e k' _ hk hs
  have hk := linesKept_iff_counted.mp hk
  rw [linesKept_iff_counted]
  by_cases hc : k.combined e = some five
  · rw [hk.flush_iff hc hs]
    exact ⟨fun h _ => h, fun h => h hc⟩
  · exact iff_of_true (hk.step hc hs) fun h => absurd h hc

/-- `a` and then Ctrl-5: the count stays 1 and the array is empty. -/
theorem ctrl5_keeps_count : ∃ k,
    Runs.run (step shellDisk) Boot.zero.kernel
      [.key 1 0x1E ⟨0, 0⟩ [], .key 1 ctrl ⟨0, 0⟩ [], .key 1 five ⟨0, 0⟩ []] = some k ∧
    k.editor.lineCount 0 = 1 ∧ k.editor.buffer 0 ⟨0, by decide⟩ = nul ∧
    ¬ k.LinesKept shellDisk := by
  have hrun : (Runs.run (step shellDisk) Boot.zero.kernel
      [.key 1 0x1E ⟨0, 0⟩ [], .key 1 ctrl ⟨0, 0⟩ [], .key 1 five ⟨0, 0⟩ []]).map (fun k =>
        (k.editor.lineCount 0, k.editor.buffer 0 ⟨0, by decide⟩)) = some (1, nul) := by
    decide +kernel
  obtain ⟨k, hk, hs⟩ := Option.map_eq_some_iff.mp hrun
  obtain ⟨hcount, hcell⟩ := Prod.mk.inj hs
  refine ⟨k, hk, hcount, hcell, fun h => ?_⟩
  exact (h.counted.cells 0 ⟨0, by decide⟩).mpr (by rw [hcount]; exact Nat.one_pos) hcell

end Kernel

end HarambeOs
