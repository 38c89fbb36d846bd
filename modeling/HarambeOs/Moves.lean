import HarambeOs.Calls

/-!
# Moves — what an event does to the kernel

`Executed` says what a `c_execute` leaves, one constructor for each way it can go: no program, a
process started, a full table unwound.  `Moves` says the same of every event.  A result about a part
of the kernel that the scheduler does not see (descriptors, arguments, the video pages) is a case
split over `Moves`.
-/

namespace HarambeOs

/-- Whether a command names an executable. -/
def resolves (fs : FileSystem) (command : Option (List UInt8)) (junk : List UInt8) : Bool :=
  command.any fun c => (findProgram fs (parseCommand c).1 junk).isSome

/-- The arguments a command brings. -/
def argsOf (command : Option (List UInt8)) : Option (List UInt8) :=
  command.bind fun c => (parseCommand c).2

namespace Kernel

variable {fs : FileSystem} {k k' : Kernel}

/-! ## `c_execute` -/

/-- A number chosen, the user page mapped, and the program in memory. -/
def loaded (k : Kernel) (phys : Nat → UInt8) : Kernel :=
  { k with
    proc := k.proc.chooseSlot.1
    display := { k.display.remapPaging (userFrame k.proc.chooseSlot.1.processCounter) with
      phys := phys } }

/-- `flagger` reset, the first thing `c_halt` does. -/
def unflagged (k : Kernel) : Kernel := { k with proc := { k.proc with flagger := false } }

/-- The error of a full table, and the way back to the caller through `c_halt`. -/
def unwound (k : Kernel) : Kernel :=
  k.tooMany.unflagged.haltRestore k.running maxProcessSet

/-- What `c_execute` leaves. -/
inductive Executed (fs : FileSystem) (command : Option (List UInt8)) (junk : List UInt8)
    (k : Kernel) : Outcome → Kernel → Prop
  | fail (h : resolves fs command junk = false) :
      Executed fs command junk k (.returned (-1)) (k.prepare (argsOf command))
  | start (h : resolves fs command junk = true) {i : Nat} (hi : k.proc.freeIndex = some i)
      (eip : Nat) (phys : Nat → UInt8) :
      Executed fs command junk k (.started eip)
        ((k.prepare (argsOf command)).loaded phys).buildPcb.commit
  | overflow (h : resolves fs command junk = true) (hi : k.proc.freeIndex = none)
      (phys : Nat → UInt8) :
      Executed fs command junk k (.resumed 0)
        ((k.prepare (argsOf command)).loaded phys).buildPcb.unwound

theorem readInto_eq_some {d d' : Display} {va : Nat} {bytes : List UInt8}
    (h : d.readInto va bytes = some d') : ∃ phys, d' = { d with phys := phys } := by
  unfold Display.readInto at h
  split at h
  · exact ⟨_, (Option.some.inj h).symm⟩
  · cases h

/-- Loading a program changes memory and maps the new process's user page. -/
theorem loadImage_eq_some {inode eip : Nat} (h : k.loadImage fs inode = some (k', eip)) :
    ∃ phys, k' = { k with
      display := { k.display.remapPaging (userFrame k.proc.processCounter) with
        phys := phys } } := by
  obtain ⟨d₁, h₁, h⟩ := Option.bind_eq_some_iff.mp h
  obtain ⟨d₂, h₂, h⟩ := Option.map_eq_some_iff.mp h
  obtain ⟨phys₁, rfl⟩ := readInto_eq_some h₁
  obtain ⟨phys₂, rfl⟩ := readInto_eq_some h₂
  exact ⟨phys₂, (Prod.mk.inj h).1.symm⟩

/-- The first statements of `c_execute` touch the arguments, and the terminals the first time. -/
theorem prepare_eq (k : Kernel) (args : Option (List UInt8)) :
    k.prepare args = { k with proc := { k.proc with
      intiFlag := true
      termArr := if k.proc.intiFlag then k.proc.termArr else fun _ => ⟨0, false, 0⟩
      getArgs := (k.prepare args).proc.getArgs
      argSize := (k.prepare args).proc.argSize } } := by
  unfold prepare
  cases hi : k.proc.intiFlag with
  | false => cases args <;> rfl
  | true => cases args <;> simp only [Proc.storeArgs, if_true, ← hi]

theorem pidArr_prepare (k : Kernel) (args : Option (List UInt8)) :
    (k.prepare args).proc.pidArr = k.proc.pidArr := by rw [prepare_eq]

theorem freeIndex_prepare (k : Kernel) (args : Option (List UInt8)) :
    (k.prepare args).proc.freeIndex = k.proc.freeIndex := by
  rw [Proc.freeIndex, Proc.freeIndex, pidArr_prepare]

theorem not_gt_of_freeIndex {p : Proc} {i : Nat} (h : p.freeIndex = some i) :
    ¬ i > maxProcessVal :=
  Nat.not_lt.mpr (Nat.le_of_lt_succ (List.mem_range.mp (List.mem_of_find?_eq_some h)))

/-- A number chosen for the new process. -/
theorem chooseSlot_of_free {p : Proc} {i : Nat} (h : p.freeIndex = some i) :
    p.chooseSlot =
      ({ p with pidArr := Function.update p.pidArr i true, processCounter := i + 1 }, i) := by
  rw [Proc.chooseSlot, h]
  exact if_neg (not_gt_of_freeIndex h)

theorem chooseSlot_of_full {p : Proc} (h : p.freeIndex = none) :
    p.chooseSlot = ({ p with processCounter := maxProcessSet }, findUniversal) := by
  rw [Proc.chooseSlot, h]
  rfl

/-- A start that found a number. -/
theorem startProgram_of_free {halt : Kernel → Option (Kernel × Outcome)} {inode i : Nat}
    (hi : k.proc.freeIndex = some i) :
    k.startProgram fs halt inode =
      (loadImage fs inode { k with proc := k.proc.chooseSlot.1 }).map fun r =>
        (r.1.buildPcb.commit, .started r.2) := by
  rw [startProgram, chooseSlot_of_free hi]
  simp only [if_neg (not_gt_of_freeIndex hi)]
  split <;> simp only [*, Option.map_none, Option.map_some]

/-- A start that found none goes on to `c_halt`. -/
theorem startProgram_of_full {halt : Kernel → Option (Kernel × Outcome)} {inode : Nat}
    (hi : k.proc.freeIndex = none) :
    k.startProgram fs halt inode =
      (loadImage fs inode { k with proc := k.proc.chooseSlot.1 }).bind fun r =>
        halt r.1.buildPcb.tooMany := by
  rw [startProgram, chooseSlot_of_full hi]
  simp only [if_pos (show findUniversal > maxProcessVal by decide)]
  split <;> simp only [*, Option.bind_none, Option.bind_some]

/-- The memory a program is loaded with, whatever it is. -/
theorem loadImage_chosen {inode eip : Nat}
    (h : loadImage fs inode { k with proc := k.proc.chooseSlot.1 } = some (k', eip)) :
    ∃ phys, k' = k.loaded phys := by
  obtain ⟨phys, rfl⟩ := loadImage_eq_some h
  exact ⟨phys, rfl⟩

/-- Once the terminals are initialised, a command without arguments is prepared for by nothing. -/
theorem prepare_none (h : k.proc.intiFlag = true) : k.prepare none = k := by
  rw [prepare, if_pos h]
  rfl

theorem intiFlag_prepare (k : Kernel) (args : Option (List UInt8)) :
    (k.prepare args).proc.intiFlag = true := by rw [prepare_eq]

/-! ### A full table -/

theorem running_of_control {d : Display} (hd : d.control = k.display.control) {p : Proc}
    (hp : p.termArr = k.proc.termArr) : { k with display := d, proc := p }.running = k.running := by
  simp only [running, activeEntry, hp, Display.activeTerminal_of_control hd]

theorem running_tooMany (k : Kernel) : k.tooMany.running = k.running :=
  running_of_control (Display.control_terminalWrite _ _) rfl

theorem termArr_chooseSlot (p : Proc) : p.chooseSlot.1.termArr = p.termArr := by
  unfold Proc.chooseSlot
  cases p.freeIndex <;> simp only <;> split <;> rfl

theorem running_loaded (k : Kernel) (phys : Nat → UInt8) : (k.loaded phys).running = k.running := by
  simp only [loaded, running, activeEntry, termArr_chooseSlot, Display.remapPaging]

theorem display_haltRelease (k : Kernel) : k.haltRelease.1.display = k.display := by
  unfold haltRelease
  split <;> rfl

/-- The first part of `c_halt`, for a process that never entered the table. -/
theorem haltRelease_tooMany (k : Kernel) :
    k.tooMany.haltRelease = (k.tooMany.unflagged, k.running, maxProcessSet) := by
  have hflag : k.tooMany.proc.flagger = true := rfl
  rw [haltRelease, if_pos hflag, running_tooMany]
  rfl

/-- A start that finds the table full and no process running does not come back, unless there is no
program to start. -/
theorem cExecute_shell_of_full (fs : FileSystem) (junk : List UInt8)
    (hinit : k.proc.intiFlag = true) (hfree : k.proc.freeIndex = none) (h0 : k.running = 0) :
    cExecute fs junk 1 (some shell) k = none ∨
      cExecute fs junk 1 (some shell) k = some (k, .returned (-1)) := by
  have hargs : (parseCommand shell).2 = none := by decide
  rw [cExecute, cExecuteWith]
  simp only [hargs, prepare_none hinit]
  split
  · exact Or.inr rfl
  · left
    rw [startProgram_of_full hfree, Option.bind_eq_none_iff]
    rintro ⟨k₁, eip⟩ hload
    obtain ⟨phys, rfl⟩ := loadImage_chosen hload
    have hrun : (k.loaded phys).buildPcb.running = 0 := (running_loaded k phys).trans h0
    rw [cHaltWith, haltRelease_tooMany]
    simp only [hrun, if_pos]
    rfl

/-- **The way back of a full table.**  Where no process is running it first tries a shell, and the
table is as full for that one. -/
theorem cHaltWith_tooMany {junk : List UInt8} {o : Outcome} (hinit : k.proc.intiFlag = true)
    (hfree : k.proc.freeIndex = none)
    (h : cHaltWith (cExecute fs junk 1 (some shell)) 0 k.tooMany = some (k', o)) :
    o = .resumed 0 ∧ k' = k.unwound := by
  have hrun : k.tooMany.unflagged.running = k.running := running_tooMany k
  rw [cHaltWith, haltRelease_tooMany] at h
  simp only at h
  split at h
  · next h0 =>
    rcases cExecute_shell_of_full fs junk (k := k.tooMany.unflagged) hinit hfree
      (hrun.trans h0) with hx | hx
    · rw [hx] at h
      cases h
    · rw [hx] at h
      obtain ⟨rfl, rfl⟩ := Prod.mk.inj (Option.some.inj h)
      exact ⟨rfl, rfl⟩
  · obtain ⟨rfl, rfl⟩ := Prod.mk.inj (Option.some.inj h)
    exact ⟨rfl, rfl⟩

theorem freeIndex_loaded (hfree : k.proc.freeIndex = none) (phys : Nat → UInt8) :
    (k.loaded phys).proc.freeIndex = none := by
  rw [loaded, chooseSlot_of_full hfree]
  exact hfree

theorem intiFlag_loaded (k : Kernel) (phys : Nat → UInt8) :
    (k.loaded phys).proc.intiFlag = k.proc.intiFlag := by
  simp only [loaded, Proc.chooseSlot]
  cases k.proc.freeIndex <;> simp only <;> split <;> rfl

/-- **`c_execute` goes one of three ways.** -/
theorem execute_executed {command : Option (List UInt8)} {fr : Frame} {junk : List UInt8}
    {o : Outcome} (h : k.execute fs command fr junk = some (k', o)) :
    Executed fs command junk { k with cpu := fr } o k' := by
  rw [execute, callDepth, cExecute] at h
  unfold cExecuteWith at h
  cases command with
  | none =>
    obtain ⟨rfl, rfl⟩ := Prod.mk.inj (Option.some.inj h)
    exact .fail rfl
  | some command =>
    simp only at h
    split at h
    · next hfind =>
      obtain ⟨rfl, rfl⟩ := Prod.mk.inj (Option.some.inj h)
      exact .fail (by rw [resolves, Option.any_some, hfind]; rfl)
    · next inode hfind =>
      have hres : resolves fs (some command) junk = true := by
        rw [resolves, Option.any_some, hfind]
        rfl
      have hprep := freeIndex_prepare { k with cpu := fr } (parseCommand command).2
      cases hi : k.proc.freeIndex with
      | some i =>
        rw [startProgram_of_free (hprep.trans hi)] at h
        obtain ⟨⟨k₁, eip⟩, hload, h⟩ := Option.map_eq_some_iff.mp h
        obtain ⟨rfl, rfl⟩ := Prod.mk.inj h
        obtain ⟨phys, rfl⟩ := loadImage_chosen hload
        exact .start (k := { k with cpu := fr }) hres hi eip phys
      | none =>
        rw [startProgram_of_full (hprep.trans hi)] at h
        obtain ⟨⟨k₁, eip⟩, hload, hhalt⟩ := Option.bind_eq_some_iff.mp h
        obtain ⟨phys, rfl⟩ := loadImage_chosen hload
        have hinit := intiFlag_prepare { k with cpu := fr } (parseCommand command).2
        obtain ⟨rfl, rfl⟩ := cHaltWith_tooMany
          (k := ((prepare (parseCommand command).2 { k with cpu := fr }).loaded phys).buildPcb)
          ((intiFlag_loaded _ phys).trans hinit) (freeIndex_loaded (hprep.trans hi) phys) hhalt
        exact .overflow (k := { k with cpu := fr }) hres hi phys

/-! ## Every event -/

/-- The kernel as the first switch to terminal `t` leaves it to `c_execute`. -/
def atTerminal (k : Kernel) (t : Term) (fr : Frame) : Kernel :=
  { k with
    proc := { k.proc with launchFlag := Function.update k.proc.launchFlag t true }
    display := { (k.display.switchScreen t).resetCursor with activeTerminal := t }
    cpu := fr }

/-- At most the screen, the editor and the clock differ, and no page or terminal. -/
structure Quietly (k k' : Kernel) : Prop where
  control : k'.display.control = k.display.control
  proc : k'.proc = k.proc
  cpu : k'.cpu = k.cpu

/-- What an event does. -/
inductive Moves (fs : FileSystem) (k : Kernel) : Event → Outcome → Kernel → Prop
  | execute {command : Option (List UInt8)} {fr : Frame} {junk : List UInt8} {o : Outcome}
      {k' : Kernel} (h : Executed fs command junk { k with cpu := fr } o k') :
      Moves fs k (.execute command fr junk) o k'
  | exit {status : UInt8} {fr : Frame} {junk : List UInt8} (hr : k.running ≠ 0)
      (hp : k.haltRelease.2.1 ≠ 0) :
      Moves fs k (.halt status fr junk) (.resumed status)
        (k.haltRelease.1.haltRestore k.haltRelease.2.1 k.haltRelease.2.2)
  | respawn {status : UInt8} {fr : Frame} {junk : List UInt8} {eip : Nat} {k' : Kernel}
      (hr : k.running ≠ 0) (hp : k.haltRelease.2.1 = 0)
      (h : Executed fs (some shell) junk { k.haltRelease.1 with cpu := fr } (.started eip) k') :
      Moves fs k (.halt status fr junk) (.started eip) k'
  | vacate {status : UInt8} {fr : Frame} {junk : List UInt8} {o : Outcome} {k' : Kernel}
      (hr : k.running ≠ 0) (hp : k.haltRelease.2.1 = 0)
      (h : Executed fs (some shell) junk { k.haltRelease.1 with cpu := fr } o k')
      (ho : ∀ eip, o ≠ .started eip) :
      Moves fs k (.halt status fr junk) (.resumed status)
        (k'.haltRestore k.haltRelease.2.1 k.haltRelease.2.2)
  | rest {fr : Frame} (hr : k.running = 0) : Moves fs k (.tick fr) (.returned 0) k
  | tick {fr : Frame} (hr : k.running ≠ 0) {t : Term} (ht : k.nextTerm = some t) :
      Moves fs k (.tick fr) (.returned 0) (k.switchTask fr t)
  | key {status scan : UInt8} {fr : Frame} {junk : List UInt8} {k' : Kernel} (h : Quietly k k') :
      Moves fs k (.key status scan fr junk) (.returned 0) k'
  | switch {status scan : UInt8} {fr : Frame} {junk : List UInt8} (t : Term) :
      Moves fs k (.key status scan fr junk) (.returned 0)
        { k with display := (k.display.cursorWrapper 1).switchScreen t }
  | launch {status scan : UInt8} {fr : Frame} {junk : List UInt8} {o : Outcome} {k' : Kernel}
      {t : Term} (ht : t ≠ 0) (hl : k.proc.launchFlag t = false) (hf : k.proc.freeIndex ≠ none)
      (h : Executed fs (some shell) junk
        ({ k with display := k.display.cursorWrapper 1 }.atTerminal t fr) o k') :
      Moves fs k (.key status scan fr junk) o k'
  | turn {k' : Kernel} (h : Quietly k k') : Moves fs k .ctrl4Turn (.returned 0) k'
  | call {c : Call} {r : Int × Option Buf} {k' : Kernel} (h : k.call fs c = some (k', r)) :
      Moves fs k (.call c) (.returned r.1) k'

/-! ### The handlers -/

/-- A test key prints, sets the clock and changes the editor. -/
theorem testKey_quietly {scan : UInt8} (h : k.testKey fs scan = some k') : Quietly k k' := by
  unfold testKey at h
  simp only at h
  split_ifs at h
  · obtain ⟨d, hd, rfl⟩ := Option.map_eq_some_iff.mp h
    have hc : d.control = k.display.clear.control := Display.control_controlL _ hd
    exact ⟨hc, rfl, rfl⟩
  · obtain rfl := Option.some.inj h
    exact ⟨Display.control_emit _ _, rfl, rfl⟩
  · obtain rfl := Option.some.inj h
    exact ⟨Display.control_emit _ _, rfl, rfl⟩
  · obtain rfl := Option.some.inj h
    exact ⟨Display.control_emit _ _, rfl, rfl⟩
  · obtain rfl := Option.some.inj h
    exact ⟨rfl, rfl, rfl⟩
  · obtain rfl := Option.some.inj h
    exact ⟨rfl, rfl, rfl⟩

/-- A key of the line changes the editor and what is echoed. -/
theorem lineKey_quietly {scan : UInt8} (h : k.lineKey scan = some k') : Quietly k k' := by
  unfold lineKey at h
  simp only at h
  have hd := k.display.control_scrollFor scan (k.editor.lineCount k.display.currentTerminal)
    k.editor.incOrDec
  generalize k.display.scrollFor _ _ _ = d at h hd
  split_ifs at h
  · obtain ⟨e, -, rfl⟩ := Option.map_eq_some_iff.mp h
    exact ⟨d.control_backspace.trans hd, rfl, rfl⟩
  · obtain rfl := Option.some.inj h
    exact ⟨hd, rfl, rfl⟩
  · obtain rfl := Option.some.inj h
    exact ⟨hd, rfl, rfl⟩
  · obtain rfl := Option.some.inj h
    exact ⟨(d.control_putcNumber2 _).trans hd, rfl, rfl⟩
  · obtain ⟨e, -, rfl⟩ := Option.map_eq_some_iff.mp h
    exact ⟨(d.control_echo _ _).trans hd, rfl, rfl⟩
  · obtain rfl := Option.some.inj h
    exact ⟨hd, rfl, rfl⟩

theorem ctrl4Turn_quietly (h : k.ctrl4Turn = some k') : Quietly k k' := by
  unfold ctrl4Turn at h
  split_ifs at h
  · obtain rfl := Option.some.inj h
    exact ⟨Display.control_terminalWrite _ _, rfl, rfl⟩
  · obtain rfl := Option.some.inj h
    exact ⟨rfl, rfl, rfl⟩

/-- A switch that launches a shell has a process number for it. -/
theorem freeIndex_of_not_refuses {t : Term} (hr : ¬ k.refuses t = true)
    (hl : ¬ k.proc.launchFlag t = true) : k.proc.freeIndex ≠ none := by
  intro hf
  have hc : k.proc.universalCount = false := congrArg Option.isSome hf
  exact hr (by rw [refuses, hc, Bool.eq_false_iff.mpr hl]; rfl)

/-- The ways a later switch goes: refused, to a terminal that has a shell, or with a shell started
there. -/
inductive Switched (fs : FileSystem) (t : Term) (fr : Frame) (junk : List UInt8) (k : Kernel) :
    Outcome → Kernel → Prop
  | refused (hr : k.refuses t = true) :
      Switched fs t fr junk k (.returned 0)
        { k with display := (k.display.terminalWrite (some message)).2 }
  | shown (hr : ¬ k.refuses t = true) :
      Switched fs t fr junk k (.returned 0) { k with display := k.display.switchScreen t }
  | launched (hr : ¬ k.refuses t = true) (hl : k.proc.launchFlag t = false)
      (hfree : k.proc.freeIndex ≠ none) {k' : Kernel} {o : Outcome}
      (h : launch fs t fr junk { k with display := k.display.switchScreen t } = some (k', o)) :
      Switched fs t fr junk k o k'

theorem laterTerminalSwitch_switched {fr : Frame} {junk : List UInt8} {o : Outcome} {t : Term}
    (h : k.laterTerminalSwitch fs t fr junk = some (k', o)) : Switched fs t fr junk k o k' := by
  unfold laterTerminalSwitch at h
  split at h
  · next hr =>
    obtain ⟨rfl, rfl⟩ := Prod.mk.inj (Option.some.inj h)
    exact .refused hr
  · next hr =>
    simp only at h
    split at h
    · obtain ⟨rfl, rfl⟩ := Prod.mk.inj (Option.some.inj h)
      exact .shown hr
    · next hl =>
      exact .launched hr (Bool.eq_false_iff.mpr hl) (freeIndex_of_not_refuses (k := k) hr hl) h

/-- A later switch is refused, shows a terminal that has a shell, or starts one there. -/
theorem laterTerminalSwitch_moves {status scan : UInt8} {fr : Frame} {junk : List UInt8}
    {o : Outcome} {t : Term} (ht : t ≠ 0)
    (h : laterTerminalSwitch fs t fr junk { k with display := k.display.cursorWrapper 1 } =
      some (k', o)) :
    Moves fs k (.key status scan fr junk) o k' := by
  cases laterTerminalSwitch_switched h with
  | refused => exact .key ⟨Display.control_terminalWrite _ _, rfl, rfl⟩
  | shown => exact .switch t
  | launched _ hl hfree h => exact .launch ht hl hfree (execute_executed h)

/-- The ways the keyboard handler goes, once it has set the cursor: no key, a key that only changes
the modifiers, a test key, a switch, a key of the line. -/
inductive Keyed (fs : FileSystem) (k : Kernel) (status scan : UInt8) (fr : Frame)
    (junk : List UInt8) : Outcome → Kernel → Prop
  | nothing (hst : status = 0) :
      Keyed fs k status scan fr junk (.returned 0)
        { k with display := k.display.cursorWrapper 1 }
  | modifier (hsp : isSpecial scan = true) :
      Keyed fs k status scan fr junk (.returned 0)
        { k with display := k.display.cursorWrapper 1, editor := k.editor.modifiers scan }
  | test (hst : status ≠ 0) (hsp : isSpecial scan = false)
      (htest : k.editor.controlFlag ∧ isTestKey scan) {k' : Kernel}
      (h : testKey fs scan { k with display := k.display.cursorWrapper 1 } = some k') :
      Keyed fs k status scan fr junk (.returned 0) k'
  | first (hst : status ≠ 0) (hsp : isSpecial scan = false)
      (htest : ¬ (k.editor.controlFlag ∧ isTestKey scan)) (halt : k.editor.altFlag)
      (hscan : scan = f1) :
      Keyed fs k status scan fr junk (.returned 0)
        (firstTerminalSwitch { k with display := k.display.cursorWrapper 1 })
  | later (hst : status ≠ 0) (hsp : isSpecial scan = false)
      (htest : ¬ (k.editor.controlFlag ∧ isTestKey scan)) (halt : k.editor.altFlag) {t : Term}
      (hscan : scan = f2 ∧ t = 1 ∨ scan = f3 ∧ t = 2) {k' : Kernel} {o : Outcome}
      (h : laterTerminalSwitch fs t fr junk { k with display := k.display.cursorWrapper 1 } =
        some (k', o)) :
      Keyed fs k status scan fr junk o k'
  | line (hst : status ≠ 0) (hsp : isSpecial scan = false)
      (htest : ¬ (k.editor.controlFlag ∧ isTestKey scan))
      (halt : ¬ (k.editor.altFlag ∧ (scan = f1 ∨ scan = f2 ∨ scan = f3))) {k' : Kernel}
      (h : lineKey scan { k with display := k.display.cursorWrapper 1 } = some k') :
      Keyed fs k status scan fr junk (.returned 0) k'

theorem keyboard_keyed {status scan : UInt8} {fr : Frame} {junk : List UInt8} {o : Outcome}
    (h : k.keyboard fs status scan fr junk = some (k', o)) :
    Keyed fs k status scan fr junk o k' := by
  unfold keyboard at h
  simp only at h
  split_ifs at h with hst hsp htest h1 h2 h3
  · obtain ⟨rfl, rfl⟩ := Prod.mk.inj (Option.some.inj h)
    exact .nothing hst
  · obtain ⟨rfl, rfl⟩ := Prod.mk.inj (Option.some.inj h)
    exact .modifier hsp
  all_goals have hsp : isSpecial scan = false := Bool.eq_false_iff.mpr hsp
  · obtain ⟨k₁, hk₁, h⟩ := Option.map_eq_some_iff.mp h
    obtain ⟨rfl, rfl⟩ := Prod.mk.inj h
    exact .test hst hsp htest hk₁
  · obtain ⟨rfl, rfl⟩ := Prod.mk.inj (Option.some.inj h)
    exact .first hst hsp htest h1.1 h1.2
  · exact .later hst hsp htest h2.1 (Or.inl ⟨h2.2, rfl⟩) h
  · exact .later hst hsp htest h3.1 (Or.inr ⟨h3.2, rfl⟩) h
  · obtain ⟨k₁, hk₁, h⟩ := Option.map_eq_some_iff.mp h
    obtain ⟨rfl, rfl⟩ := Prod.mk.inj h
    refine .line hst hsp htest ?_ hk₁
    rintro ⟨ha, hf | hf | hf⟩
    · exact h1 ⟨ha, hf⟩
    · exact h2 ⟨ha, hf⟩
    · exact h3 ⟨ha, hf⟩

theorem keyboard_moves {status scan : UInt8} {fr : Frame} {junk : List UInt8} {o : Outcome}
    (h : k.keyboard fs status scan fr junk = some (k', o)) :
    Moves fs k (.key status scan fr junk) o k' := by
  cases keyboard_keyed h with
  | nothing => exact .key ⟨rfl, rfl, rfl⟩
  | modifier => exact .key ⟨rfl, rfl, rfl⟩
  | test _ _ _ h =>
    have hq := testKey_quietly h
    exact .key ⟨hq.control, hq.proc, hq.cpu⟩
  | first => exact .switch 0
  | later _ _ _ _ hscan h =>
    refine laterTerminalSwitch_moves ?_ h
    rcases hscan with ⟨-, rfl⟩ | ⟨-, rfl⟩ <;> decide
  | line _ _ _ _ h =>
    have hq := lineKey_quietly h
    exact .key ⟨hq.control, hq.proc, hq.cpu⟩

/-- **Every event is one of `Moves`.** -/
theorem transition_moves {e : Event} {o : Outcome} (h : k.transition fs e = some (k', o)) :
    Moves fs k e o k' := by
  cases e with
  | execute command fr junk => exact .execute (execute_executed h)
  | halt status fr junk =>
    rw [transition] at h
    split at h
    · cases h
    next hr =>
    rw [cHalt, cHaltWith] at h
    split at h
    · next hp =>
      split at h
      · cases h
      · next k₁ eip hk₁ =>
        obtain ⟨rfl, rfl⟩ := Prod.mk.inj (Option.some.inj h)
        exact .respawn hr hp (execute_executed hk₁)
      · next k₁ o' ho hk₁ =>
        obtain ⟨rfl, rfl⟩ := Prod.mk.inj (Option.some.inj h)
        exact .vacate hr hp (execute_executed hk₁) fun eip he => ho eip he
    · next hp =>
      obtain ⟨rfl, rfl⟩ := Prod.mk.inj (Option.some.inj h)
      exact .exit hr hp
  | tick fr =>
    obtain ⟨k₁, hk₁, h⟩ := Option.map_eq_some_iff.mp h
    obtain ⟨rfl, rfl⟩ := Prod.mk.inj h
    unfold pitHandler at hk₁
    split at hk₁
    · next hr =>
      rw [← Option.some.inj hk₁]
      exact .rest hr
    · next hr =>
      obtain ⟨t, ht, rfl⟩ := Option.map_eq_some_iff.mp hk₁
      exact .tick hr ht
  | key status scan fr junk => exact keyboard_moves h
  | ctrl4Turn =>
    obtain ⟨k₁, hk₁, h⟩ := Option.map_eq_some_iff.mp h
    obtain ⟨rfl, rfl⟩ := Prod.mk.inj h
    exact .turn (ctrl4Turn_quietly hk₁)
  | call c =>
    obtain ⟨r, hr, h⟩ := Option.map_eq_some_iff.mp h
    obtain ⟨rfl, rfl⟩ := Prod.mk.inj h
    exact .call hr

theorem step_moves {e : Event} (h : k.step fs e = some k') : ∃ o, Moves fs k e o k' := by
  obtain ⟨o, ho⟩ := step_eq_some.mp h
  exact ⟨o, transition_moves ho⟩

end Kernel

end HarambeOs
