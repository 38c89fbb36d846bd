import HarambeOs.AddressSpace
import HarambeOs.Stacks
import HarambeOs.Undo

/-!
# Confinement — when the kernel's stores stay out of its own memory

The page directory, the page table, the PCBs and the variables of the kernel are bytes of the page
at 4 MB, and the kernel does not keep itself from writing over them.  `putc` and the echo do not
check the cursor, `c_read`, `c_write` and `c_getargs` store through any pointer, and `read_data`
puts a whole file on the kernel stack.  `tame` is the condition under which none of this happens:
output stays on the screen, buffers lie in the caller's page, and the stack stays between two PCBs.

An action that is tame writes to screens, to the page of the running process and to its kernel stack
(`act_kept`).  So after any number of them the kernel finds its memory as it left it, and the page
tables mean what they were made for: **`Kernel.walk_eq_lookup`**.
-/

namespace HarambeOs

/-- No frame reaches into the low 4 MB. -/
theorem mb4_le_of_mem_userFrameSet {q a : Nat} (h : a ∈ userFrameSet q) : mb4 ≤ a :=
  (Nat.le_add_right mb4 (q * mb4)).trans h.1

/-- The kernel's page is the frame a process 0 would have. -/
theorem userFrameSet_zero : userFrameSet 0 = kernelPage := rfl

namespace Paging

variable {pg : Paging} {q : Nat}

/-- The pages of the terminals are screens. -/
theorem termFrame_le (pg : Paging) (t : Term) : pg.termFrame t ≤ thirdTermVid := by
  rw [termFrame]
  rcases pg.termPage t with h | h <;> rw [h]
  · decide
  · fin_cases t <;> decide

/-- No address below 4 MB leads to a frame. -/
theorem Walled.translate_ne {lent : Option Nat} (h : pg.Walled lent) {va a : Nat} (hva : va < mb4)
    (ha : a ∈ userFrameSet q) : pg.translate va ≠ some a :=
  fun htr => Nat.not_le.mpr (h.translate_low hva htr) (mb4_le_of_mem_userFrameSet ha)

/-- The user page leads to the frame of some process other than `q`. -/
structure ShutOff (pg : Paging) (q : Nat) : Prop where
  walled : ∃ lent, pg.Walled lent
  other : ∃ p, p ≠ q ∧ pg.directory (mb128 >>> entryIdx) = userFrame p ||| flags

/-- So no address from 128 MB on leads to the frame of `q`. -/
theorem ShutOff.translate_ne (h : pg.ShutOff q) {va a : Nat} (hva : mb128 ≤ va)
    (ha : a ∈ userFrameSet q) : pg.translate va ≠ some a := by
  intro htr
  obtain ⟨lent, hw⟩ := h.walled
  obtain ⟨p, hpq, huser⟩ := h.other
  rcases hw.translate_high huser hva htr with hlow | hp
  · exact Nat.not_le.mpr hlow (mb4_le_of_mem_userFrameSet ha)
  · exact Set.disjoint_left.mp (disjoint_userFrameSet hpq) hp ha

/-- `map_video` maps a screen, never a frame. -/
theorem ShutOff.mapVideo (h : pg.ShutOff q) (current active : Term) :
    (pg.mapVideo current active).ShutOff q := by
  obtain ⟨lent, hw⟩ := h.walled
  obtain ⟨p, hpq, huser⟩ := h.other
  exact ⟨⟨_, hw.mapVideo current active⟩, p, hpq,
    (pg.directory_mapVideo current active).trans huser⟩

/-- The frame of a process is out of reach while another one's is mapped. -/
theorem Walled.shutOff {lent : Option Nat} (h : pg.Walled lent) {p : Nat} (hpq : p ≠ q) :
    (pg.remapPaging (userFrame p)).ShutOff q :=
  ⟨⟨lent, h.remapPaging _⟩, p, hpq, pg.directory_remapPaging _⟩

end Paging

namespace Display

variable {d d' d'' : Display} {q : Nat} {t : Term}

/-! ## The frame of a process, and stores that miss it -/

/-- The frame of process `q` is as it was. -/
def Spares (q : Nat) (d d' : Display) : Prop := ∀ a ∈ userFrameSet q, d'.phys a = d.phys a

theorem Spares.refl (d : Display) : Spares q d d := fun _ _ => rfl

theorem Spares.trans (h : Spares q d d') (h' : Spares q d' d'') : Spares q d d'' :=
  fun a ha => (h' a ha).trans (h a ha)

/-- Output on a screen. -/
theorem Confined.spares (h : Confined d d' t) : Spares q d d' := by
  intro a ha
  have hframe := d.paging.termFrame_le t
  have hle := mb4_le_of_mem_userFrameSet ha
  rw [thirdTermVid] at hframe
  rw [mb4] at hle
  exact h.phys a (Or.inr (by rw [videoElems]; omega))

/-- The echo of a key. -/
theorem Echoes.spares (h : Echoes d d') : Spares q d d' := by
  intro a ha
  have hle := mb4_le_of_mem_userFrameSet ha
  rw [mb4] at hle
  exact h.phys a (Or.inr (by rw [video, videoElems]; omega))

/-- A store below 4 MB. -/
theorem spares_storeBytes_low (hw : ∃ lent, d.paging.Walled lent) {va n : Nat} (h : va + n ≤ mb4)
    (f : Nat → UInt8) : Spares q d (d.storeBytes va f n) := by
  obtain ⟨lent, hw⟩ := hw
  intro a ha
  exact MappedMemory.storeRange_of_notMem fun i hi => hw.translate_ne (by omega) ha

/-- A store through the user page, or above it. -/
theorem spares_storeBytes_high (hs : d.paging.ShutOff q) {va n : Nat} (h : mb128 ≤ va)
    (f : Nat → UInt8) : Spares q d (d.storeBytes va f n) :=
  fun _ ha => MappedMemory.storeRange_of_notMem fun _ _ =>
    hs.translate_ne (h.trans (Nat.le_add_right ..)) ha

/-- A program is read into the page that is mapped at `MB_128`. -/
theorem spares_readInto (hs : d.paging.ShutOff q) {va : Nat} (h : mb128 ≤ va) {bytes : List UInt8}
    (hd : d.readInto va bytes = some d') : Spares q d d' := by
  rw [readInto] at hd
  split at hd
  · exact Option.some.inj hd ▸ spares_storeBytes_high hs h _
  · cases hd

/-- A switch copies screens. -/
theorem spares_switchScreen (hw : ∃ lent, d.paging.Walled lent) (t : Term) :
    Spares q d (d.switchScreen t) := by
  have hcopy (d' : Display) (hp : d'.paging = d.paging.remapTermBefore d.currentTerminal)
      {dest : Nat} (hdest : dest + windowSize ≤ mb4) (src : Nat) :
      Spares q d' (d'.memcpy dest src windowSize) := by
    obtain ⟨lent, hw⟩ := hw
    intro a ha
    refine MappedMemory.copyRange_of_ne fun i hi => ?_
    rw [hp]
    exact (hw.setTerm d.currentTerminal _ (Or.inr rfl)).translate_ne (by omega) ha
  have hpage : pageArr d.currentTerminal + windowSize ≤ mb4 := by
    rw [pageArr_eq, windowSize, mb4]
    omega
  intro a ha
  have hfirst := hcopy { d with paging := d.paging.remapTermBefore d.currentTerminal } rfl hpage
    video a ha
  exact (hcopy _ rfl (by decide) (pageArr t) a ha).trans hfirst

/-! ## Output that stays on the screen -/

/-- `terminal_write` of a string without carriage return. -/
theorem stays_plain (h : d.OnScreen d.activeTerminal) {buf : List UInt8}
    (hbuf : ∀ c ∈ buf, c ≠ carriageReturn) :
    Stays d (d.terminalWrite (some buf)).2 d.activeTerminal := by
  obtain ⟨hshow, hconf⟩ := (d.shows_console d.activeTerminal h.1 h.2).terminalWrite hbuf
  exact ⟨hconf, hshow.onScreen⟩

/-- Every cursor is on its screen, and no frame of a process is touched. -/
structure Kept (q : Nat) (d d' : Display) : Prop where
  onScreen : ∀ t, d'.OnScreen t
  spares : Spares q d d'

theorem Kept.trans (h : Kept q d d') (h' : Kept q d' d'') : Kept q d d'' :=
  ⟨h'.onScreen, h.spares.trans h'.spares⟩

/-- Output that stays on the screen keeps the cursors there. -/
theorem Stays.kept (h : Stays d d' t) (hd : ∀ u, d.OnScreen u) : Kept q d d' :=
  ⟨h.all hd, h.toConfined.spares⟩

theorem kept_setCursor (hd : ∀ u, d.OnScreen u) (t : Term) {x y : Nat} (hx : x < numCols)
    (hy : y < numRows) : Kept q d (d.setCursor t x y) :=
  ⟨fun u => onScreen_setCursor_any (fun _ => hd u) hx hy, .refl _⟩

/-- The output of a test key fits the screen. -/
def emitFits (d : Display) : List Output → Bool
  | [] => true
  | .write buf :: outputs =>
    d.fits (.terminalWrite (some buf)) && emitFits (d.terminalWrite (some buf)).2 outputs
  | .print s :: outputs => d.fits (.puts s) && emitFits (d.puts s) outputs

/-- Outputs, one after the other. -/
theorem kept_emit {outputs : List Output} (hd : ∀ u, d.OnScreen u)
    (hfit : d.emitFits outputs = true) : Kept q d (d.emit outputs) := by
  induction outputs generalizing d with
  | nil => exact ⟨hd, .refl d⟩
  | cons output outputs ih =>
    cases output with
    | write buf =>
      rw [emitFits, Bool.and_eq_true] at hfit
      have hone : Kept q d (d.terminalWrite (some buf)).2 :=
        (stays_terminalWrite (hd _) hfit.1).kept hd
      exact hone.trans (ih hone.onScreen hfit.2)
    | print s =>
      rw [emitFits, Bool.and_eq_true] at hfit
      have hone : Kept q d (d.puts s) := (stays_puts (hd _) hfit.1).kept hd
      exact hone.trans (ih hone.onScreen hfit.2)

theorem kept_clear (hw : ∃ lent, d.paging.Walled lent) (hd : ∀ u, d.OnScreen u) :
    Kept q d d.clear := by
  have hblank : Spares q d (d.storeBytes video _ (2 * (numRows * numCols))) :=
    spares_storeBytes_low hw (by decide) fun i => if i % 2 = 1 then attrib else space
  refine ⟨fun u => ?_, hblank⟩
  exact onScreen_setCursor_any (fun _ => hd u) (by decide) (by decide)

/-- The row and the column of the line that is typed. -/
theorem kept_setScroll (hd : ∀ u, d.OnScreen u) {n : Nat} (h : n ≤ numberCodes) :
    Kept q d (d.setScroll n) := by
  rw [numberCodes] at h
  refine kept_setCursor hd _ ?_ ?_
  · rw [charNumber, numCols]
    omega
  · rw [charNumber, numRows]
    omega

/-- `control_l` copies below 4 MB, and leaves the cursors alone. -/
theorem kept_controlL (hw : ∃ lent, d.paging.Walled lent) (hd : ∀ u, d.OnScreen u) {ptr n : Nat}
    (hn : n ≤ numberCodes) (h : d.controlL ptr n = some d') : Kept q d d' := by
  induction n generalizing d' with
  | zero => exact Option.some.inj h ▸ ⟨hd, .refl d⟩
  | succ n ih =>
    obtain ⟨d₁, h₁, h⟩ := Option.bind_eq_some_iff.mp h
    obtain ⟨pa, -, h⟩ := Option.bind_eq_some_iff.mp h
    have hone := ih (Nat.le_of_succ_le hn) h₁
    split at h <;> rw [← Option.some.inj h]
    · refine hone.trans ⟨hone.onScreen, fun a ha => ?_⟩
      obtain ⟨lent, hw⟩ := hw
      refine MappedMemory.store_of_ne ?_ _
      rw [paging_of_control (d.control_controlL h₁)]
      refine hw.translate_ne ?_ ha
      rw [numberCodes] at hn
      rw [Nat.shiftLeft_eq, video, mb4]
      omega
    · exact hone

end Display

/-! ## The program loader -/

namespace Kernel

variable {fs : FileSystem} {k k' : Kernel} {q : Nat}

/-- Frame `q` is in use: by the kernel, or by a process in the table. -/
def Taken (k : Kernel) (q : Nat) : Prop :=
  q = 0 ∨ q ≤ findUniversal ∧ k.proc.pidArr (q - 1) = true

/-- No program is loaded into a frame in use. -/
theorem Taken.number_ne (h : k.Taken q) : k.proc.chooseSlot.1.processCounter ≠ q := by
  cases hi : k.proc.freeIndex with
  | some i =>
    rw [chooseSlot_of_free hi]
    rintro rfl
    rcases h with h0 | ⟨-, hlive⟩
    · exact Nat.succ_ne_zero i h0
    · have hfree : k.proc.pidArr i = false := (Sched.freeIndex_eq_some (s := k.sched) hi).1
      exact absurd (hfree.symm.trans hlive) Bool.false_ne_true
  | none =>
    rw [chooseSlot_of_full hi]
    change maxProcessSet ≠ q
    rcases h with rfl | ⟨hle, -⟩
    · decide
    · rw [findUniversal] at hle
      rw [maxProcessSet]
      omega

/-- Loading a program writes to its own frame. -/
theorem loadImage_spares {inode eip : Nat} (h : k.loadImage fs inode = some (k', eip))
    (hw : ∃ lent, k.display.paging.Walled lent) (hne : k.proc.processCounter ≠ q) :
    k.display.Spares q k'.display := by
  obtain ⟨lent, hw⟩ := hw
  have hs := hw.shutOff hne
  obtain ⟨d₁, h₁, h⟩ := Option.bind_eq_some_iff.mp h
  obtain ⟨d₂, h₂, h⟩ := Option.map_eq_some_iff.mp h
  have hone := Display.spares_readInto hs (by decide) h₁
  obtain ⟨phys, rfl⟩ := readInto_eq_some h₁
  rw [← (Prod.mk.inj h).1]
  exact hone.trans (Display.spares_readInto hs (by decide) h₂)

theorem loadImage_chosen_spares {inode eip : Nat}
    (h : loadImage fs inode { k with proc := k.proc.chooseSlot.1 } = some (k', eip))
    (hw : ∃ lent, k.display.paging.Walled lent) (hq : k.Taken q) :
    k.display.Spares q k'.display :=
  loadImage_spares (k := { k with proc := k.proc.chooseSlot.1 }) h hw hq.number_ne

/-- **`c_execute` writes to the frame of the program it loads**, and prints its error on the
screen. -/
theorem execute_spares {command : Option (List UInt8)} {fr : Frame} {junk : List UInt8}
    {o : Outcome} (h : k.execute fs command fr junk = some (k', o))
    (hw : ∃ lent, k.display.paging.Walled lent) (hon : ∀ u, k.display.OnScreen u)
    (hq : k.Taken q) : k.display.Spares q k'.display := by
  rw [execute, callDepth, cExecute] at h
  unfold cExecuteWith at h
  cases command with
  | none =>
    obtain ⟨rfl, -⟩ := Prod.mk.inj (Option.some.inj h)
    exact .refl _
  | some command =>
    simp only at h
    split at h
    · obtain ⟨rfl, -⟩ := Prod.mk.inj (Option.some.inj h)
      exact .refl _
    · have hprep := freeIndex_prepare { k with cpu := fr } (parseCommand command).2
      let k₀ := prepare (parseCommand command).2 { k with cpu := fr }
      have hw' : ∃ lent, k₀.display.paging.Walled lent := hw
      have hq' : k₀.Taken q := by
        rw [Taken, pidArr_prepare]
        exact hq
      cases hi : k.proc.freeIndex with
      | some i =>
        rw [startProgram_of_free (hprep.trans hi)] at h
        obtain ⟨⟨k₁, eip⟩, hl, h⟩ := Option.map_eq_some_iff.mp h
        obtain ⟨rfl, -⟩ := Prod.mk.inj h
        rw [commit_proc]
        have hload := loadImage_chosen_spares (k := k₀) hl hw' hq'
        exact hload
      | none =>
        rw [startProgram_of_full (hprep.trans hi)] at h
        obtain ⟨⟨k₁, eip⟩, hl, hhalt⟩ := Option.bind_eq_some_iff.mp h
        have hload := loadImage_chosen_spares (k := k₀) hl hw' hq'
        obtain ⟨phys, rfl⟩ := loadImage_chosen hl
        have hinit := intiFlag_prepare { k with cpu := fr } (parseCommand command).2
        obtain ⟨-, rfl⟩ := cHaltWith_tooMany
          (k := ((prepare (parseCommand command).2 { k with cpu := fr }).loaded phys).buildPcb)
          ((intiFlag_loaded _ phys).trans hinit) (freeIndex_loaded (hprep.trans hi) phys) hhalt
        have hplain : ∀ c ∈ tooManyError, c ≠ carriageReturn := by decide +kernel
        have hout := Display.stays_plain (d := ((prepare (parseCommand command).2
          { k with cpu := fr }).loaded phys).display) (hon _) hplain
        exact hload.trans hout.toConfined.spares

/-- **`c_halt` writes what `c_execute("shell")` writes**, if it calls it. -/
theorem halt_spares {status : UInt8} {fr : Frame} {junk : List UInt8} {o : Outcome}
    (h : k.cHalt fs status fr junk = some (k', o)) (hw : ∃ lent, k.display.paging.Walled lent)
    (hon : ∀ u, k.display.OnScreen u) (hq : k.haltRelease.1.Taken q) :
    k.display.Spares q k'.display := by
  have hexec {k₁ : Kernel} {o : Outcome}
      (hx : execute fs (some shell) fr junk k.haltRelease.1 = some (k₁, o)) :
      k.display.Spares q k₁.display := by
    rw [← display_haltRelease k] at hw hon ⊢
    exact execute_spares hx hw hon hq
  rw [cHalt, cHaltWith] at h
  split at h
  · split at h
    · cases h
    · next hx =>
      obtain ⟨rfl, -⟩ := Prod.mk.inj (Option.some.inj h)
      exact hexec hx
    · next hx =>
      obtain ⟨rfl, -⟩ := Prod.mk.inj (Option.some.inj h)
      have hs := hexec hx
      exact hs
  · obtain ⟨rfl, -⟩ := Prod.mk.inj (Option.some.inj h)
    intro a _
    change k.haltRelease.1.display.phys a = _
    rw [display_haltRelease]

/-! ## The conditions -/

/-- The output of a test key fits the screen it has just cleared. -/
def testFits (fs : FileSystem) (k : Kernel) (scan : UInt8) : Bool :=
  if scan = one then k.display.clear.emitFits fs.readFs
  else if scan = two then k.display.clear.emitFits (fs.printDentryByName (k.editor.i % 17))
  else if scan = three then k.display.clear.emitFits (fs.printDentryByIndex (k.editor.k % 17))
  else true

/-- What an event prints and echoes stays on the screen. -/
def eventFits (fs : FileSystem) (k : Kernel) (e : Event) : Bool :=
  (k.combined e).all (k.testFits fs) &&
    (k.struck e).all fun scan => k.display.strikeFits scan (k.editor.print scan)
      (k.editor.lineCount k.display.currentTerminal) k.editor.incOrDec

/-- What a call prints stays on the screen. -/
def callFits (k : Kernel) : Call → Bool
  | .write fd (some buf) nbytes => !k.writesTerminal (.write fd (some buf) nbytes) ||
      k.display.fits (.terminalWrite (some ((List.range nbytes.toNat).map buf)))
  | _ => true

/-- The `n` bytes at `va` are in the page of the running process. -/
def ownPage (va : UInt32) (n : Nat) : Bool := n = 0 || mb128 ≤ va.toNat && va.toNat + n ≤ mb132

/-- **The condition on an action.**  What it prints and echoes stays on the screen, the buffer it
stores into is in the caller's page, and the kernel stack does not reach the next PCB. -/
def tame (fs : FileSystem) (k : Kernel) : Action → Bool
  | .event e => k.eventFits fs e
  | .call r => k.callFits (r.call k.display) &&
      ownPage r.pointer (k.reach fs (r.call k.display))
  | .store va _ _ _ => (k.display.paging.walk va.toNat).any Prod.snd ||
      k.display.fits (.puts (bytes Exception.pageFault.text))
  | .exception x _ _ => k.display.fits (.puts (bytes x.text))
  | .stack depth _ => depth ≤ stackRoom

/-- What holds in every state that tame actions lead to. -/
structure Orderly (k : Kernel) : Prop where
  paged : Paged k
  onScreen : ∀ t, k.display.OnScreen t
  counts : ∀ t, k.editor.lineCount t ≤ numberCodes

theorem orderly_boot (b : Boot) : Orderly b.kernel := by
  have hboot (u : Term) : b.display.OnScreen u := ⟨Nat.zero_lt_succ _, Nat.zero_lt_succ _⟩
  refine ⟨paged_boot b, fun u => ?_, fun _ => Nat.zero_le _⟩
  exact Display.onScreen_setCursor_any (fun _ => hboot u) (by decide) (by decide)

/-! ## Events -/

/-- A key makes no line longer than its array. -/
theorem lineCount_strike {e d : Editor} {u : Term} {s : Keystroke} (h : e.strike u s = some d)
    (he : ∀ t, e.lineCount t ≤ numberCodes) (t : Term) : d.lineCount t ≤ numberCodes := by
  have hupdate {n : Nat} (hn : n ≤ numberCodes) :
      Function.update e.lineCount u n t ≤ numberCodes := by
    rw [Function.update_apply]
    split
    · exact hn
    · exact he t
  have hkeep (h : some e = some d) : d.lineCount t ≤ numberCodes := by
    rw [← Option.some.inj h]
    exact he t
  have hle := he u
  cases s with
  | char c =>
    rw [Editor.strike] at h
    split at h
    · next hlt =>
      rw [Editor.append_eq _ hlt] at h
      rw [← Option.some.inj h]
      exact hupdate hlt
    · exact hkeep h
  | erase =>
    rw [Editor.strike] at h
    split at h
    · rw [Editor.erase_eq _ (by omega)] at h
      rw [← Option.some.inj h]
      exact hupdate (by omega)
    · exact hkeep h
  | enter =>
    rw [← Option.some.inj h]
    exact hupdate (Nat.zero_le _)
  | ignored => exact hkeep h

/-- No line grows past its array. -/
theorem lineCount_step {e : Event} (h : k.step fs e = some k')
    (hk : ∀ t, k.editor.lineCount t ≤ numberCodes) (t : Term) :
    k'.editor.lineCount t ≤ numberCodes := by
  cases hc : k.combined e with
  | some scan =>
    rw [(arrays_combined hc h).1]
    exact hk t
  | none =>
    have hedit := edit_step h
    generalize k'.editor = d at hedit ⊢
    cases hedit with
    | keep _ _ _ hd =>
      have hcount : d.lineCount = k.editor.lineCount := congrArg (fun l => l.2.1) hd
      rw [hcount]
      exact hk t
    | combine hc' => exact absurd (hc.symm.trans hc') (Option.some_ne_none _).symm
    | take => exact hk t
    | strike _ hd => exact lineCount_strike hd hk t

/-- A test key prints, and no more. -/
theorem testKey_kept {scan : UInt8} (hk : Orderly k) (hfit : k.testFits fs scan = true)
    (h : k.testKey fs scan = some k') : k.display.Kept q k'.display := by
  have hclear : k.display.Kept q k.display.clear :=
    Display.kept_clear hk.paged.walled hk.onScreen
  have hemit {outputs : List Output} (hfit : k.display.clear.emitFits outputs = true) :
      k.display.Kept q (k.display.clear.emit outputs) :=
    hclear.trans (Display.kept_emit hclear.onScreen hfit)
  unfold testFits at hfit
  unfold testKey at h
  simp only at h
  split_ifs at h with hl h₁ h₂ h₃
  · obtain ⟨d, hd, rfl⟩ := Option.map_eq_some_iff.mp h
    have hdraw := hclear.trans
      (Display.kept_controlL hk.paged.walled hclear.onScreen (hk.counts _) hd)
    obtain ⟨hon, hs⟩ := hdraw.trans (Display.kept_setScroll hdraw.onScreen
      (hk.counts k.display.currentTerminal))
    exact ⟨hon, hs⟩
  · obtain rfl := Option.some.inj h
    rw [if_pos h₁] at hfit
    exact hemit hfit
  · obtain rfl := Option.some.inj h
    rw [if_neg h₁, if_pos h₂] at hfit
    exact hemit hfit
  · obtain rfl := Option.some.inj h
    rw [if_neg h₁, if_neg h₂, if_pos h₃] at hfit
    exact hemit hfit
  · obtain rfl := Option.some.inj h
    exact hclear
  · obtain rfl := Option.some.inj h
    obtain ⟨hon, hs⟩ := hclear.trans (Display.kept_setCursor hclear.onScreen
      k.display.clear.currentTerminal (x := 0) (y := 0) (by decide) (by decide))
    exact ⟨hon, hs⟩

/-- **A key.**  It echoes, switches or launches a terminal, or runs a test. -/
theorem keyboard_kept {status scan : UInt8} {fr : Frame} {junk : List UInt8} {o : Outcome}
    (hk : Orderly k) (hfit : k.eventFits fs (.key status scan fr junk) = true) (hq : k.Taken q)
    (h : k.keyboard fs status scan fr junk = some (k', o)) : k.display.Kept q k'.display := by
  have hwrap : k.display.Kept q (k.display.cursorWrapper 1) := ⟨hk.onScreen, .refl _⟩
  have hwalled : ∃ lent, (k.display.cursorWrapper 1).paging.Walled lent := hk.paged.walled
  rw [eventFits, Bool.and_eq_true] at hfit
  obtain ⟨htests, hstrike⟩ := hfit
  cases keyboard_keyed h with
  | nothing => exact hwrap
  | modifier => exact hwrap
  | test hst hsp htest h =>
    rw [combined, if_pos ⟨hst, hsp, htest⟩, Option.all_some] at htests
    have hk' : Orderly { k with display := k.display.cursorWrapper 1 } :=
      ⟨paged_quietly (k := k) ⟨rfl, rfl, rfl⟩ hk.paged, hk.onScreen, hk.counts⟩
    exact hwrap.trans (testKey_kept hk' htests h)
  | first =>
    have hs : (k.display.cursorWrapper 1).Spares q _ := Display.spares_switchScreen hwalled 0
    exact ⟨hk.onScreen, hs⟩
  | @later _ _ _ _ t _ _ _ h =>
    refine ⟨fun u => laterTerminalSwitch_onScreen h (hk.onScreen u), ?_⟩
    have hswitch : (k.display.cursorWrapper 1).Spares q _ := Display.spares_switchScreen hwalled t
    cases laterTerminalSwitch_switched h with
    | refused =>
      have hplain : ∀ c ∈ message, c ≠ carriageReturn := by decide +kernel
      have hout := Display.stays_plain (d := k.display.cursorWrapper 1) (hk.onScreen _) hplain
      exact hout.toConfined.spares
    | shown => exact hswitch
    | launched _ _ _ h =>
      refine hswitch.trans (execute_spares h ?_ (fun u => ?_) hq)
      · obtain ⟨lent, hw⟩ := hwalled
        exact ⟨lent, (hw.setTerm k.display.currentTerminal _ (Or.inr rfl)).setTerm t _
          (Or.inl rfl)⟩
      · exact Display.onScreen_setCursor_any (fun _ => hk.onScreen u) (by decide) (by decide)
  | line hst hsp htest halt h =>
    rw [struck, if_pos ⟨hst, hsp, htest, halt⟩, Option.all_some] at hstrike
    refine ⟨onScreen_lineKey h hk.onScreen, ?_⟩
    exact (lineKey_echoes h (hk.onScreen _) hstrike).spares

/-- One round of the Ctrl-4 loop. -/
theorem ctrl4Turn_kept (hk : Orderly k) (h : k.ctrl4Turn = some k') :
    k.display.Kept q k'.display := by
  unfold ctrl4Turn at h
  split_ifs at h
  · obtain rfl := Option.some.inj h
    have hone : ∀ c ∈ [(49 : UInt8)], c ≠ carriageReturn := by decide +kernel
    have hout := Display.stays_plain (hk.onScreen _) hone
    exact hout.kept hk.onScreen
  · obtain rfl := Option.some.inj h
    obtain ⟨hon, hs⟩ := Display.kept_setScroll hk.onScreen (hk.counts k.display.currentTerminal)
    exact ⟨hon, hs⟩

/-- **An event that fits keeps the cursors on their screens, and the frames in use.** -/
theorem step_kept {e : Event} (hk : Orderly k) (hcall : ∀ c, e ≠ .call c)
    (hfit : k.eventFits fs e = true) (hq : k.Taken q)
    (hhalt : ∀ status fr junk, e = .halt status fr junk → k.haltRelease.1.Taken q)
    (h : k.step fs e = some k') : k.display.Kept q k'.display := by
  obtain ⟨o, ho⟩ := step_eq_some.mp h
  cases e with
  | execute command fr junk =>
    exact ⟨fun u => (execute_executed ho).onScreen (hk.onScreen u),
      execute_spares ho hk.paged.walled hk.onScreen hq⟩
  | halt status fr junk =>
    refine ⟨onScreen_step rfl rfl h hk.onScreen, ?_⟩
    rw [transition] at ho
    split at ho
    · cases ho
    · exact halt_spares ho hk.paged.walled hk.onScreen (hhalt _ _ _ rfl)
  | tick fr =>
    refine ⟨onScreen_step rfl rfl h hk.onScreen, ?_⟩
    cases transition_moves ho with
    | rest => exact .refl _
    | tick => exact fun _ _ => rfl
  | key status scan fr junk => exact keyboard_kept hk hfit hq ho
  | ctrl4Turn =>
    obtain ⟨k₁, hk₁, ho⟩ := Option.map_eq_some_iff.mp ho
    obtain ⟨rfl, -⟩ := Prod.mk.inj ho
    exact ctrl4Turn_kept hk hk₁
  | call c => exact absurd rfl (hcall c)

/-! ## Calls -/

/-- While another process runs, the user page does not lead to the frame of `q`. -/
theorem Paged.shutOff (hk : Paged k) (hr : k.running ≠ 0) (hq : k.running ≠ q) :
    k.display.paging.ShutOff q :=
  ⟨hk.walled, k.running, hq, (hk.settled.mapped hr).1⟩

/-- **A system call**, before its buffer is handed back. -/
theorem call_kept {c : Call} {r : Int × Option Buf} (hk : Orderly k) (hfit : k.callFits c = true)
    (hr : k.running ≠ 0) (hq : k.running ≠ q) (h : k.call fs c = some (k', r)) :
    k.display.Kept q k'.display := by
  have hsame : k.display.Kept q k.display := ⟨hk.onScreen, .refl _⟩
  cases call_effect h with
  | output hc hw =>
    subst hc
    rw [callFits, hw, Bool.not_true, Bool.false_or] at hfit
    exact (Display.stays_terminalWrite (hk.onScreen _) hfit).kept hk.onScreen
  | video screenStart =>
    rw [cVidmap]
    split
    · exact hsame
    · next hin =>
      have hs : (k.display.mapVideo).Spares q _ := Display.spares_storeBytes_high
        ((hk.paged.shutOff hr hq).mapVideo _ _) (Nat.not_lt.mp (not_or.mp hin).1)
        (n := 4) fun i => UInt8.ofNat (mb132 / 256 ^ i)
      exact ⟨hk.onScreen, hs⟩
  | _ => exact hsame

/-- A buffer in the caller's page. -/
theorem handBack_kept {va : UInt32} {n : Nat} {buf : Option Buf} (hk : Orderly k)
    (hr : k.running ≠ 0) (hq : k.running ≠ q) (hown : ownPage va n = true)
    (h : k.handBack va n buf = some k') : k.display.Kept q k'.display := by
  rcases handBack_eq_some h with rfl | ⟨f, rfl⟩
  · exact ⟨hk.onScreen, .refl _⟩
  · refine ⟨hk.onScreen, ?_⟩
    rw [ownPage, Bool.or_eq_true, Bool.and_eq_true, decide_eq_true_eq, decide_eq_true_eq,
      decide_eq_true_eq] at hown
    rcases hown with rfl | ⟨hlo, -⟩
    · exact .refl _
    · exact Display.spares_storeBytes_high (hk.paged.shutOff hr hq) hlo f

/-! ## Actions -/

/-- Another process halts, and this one stays in the table. -/
theorem pidArr_release (hs : k.sched.Sound) (hr : k.running ≠ 0) (h0 : q ≠ 0)
    (hne : k.running ≠ q) (hlive : k.proc.pidArr (q - 1) = true) :
    k.sched.release.pidArr (q - 1) = true := by
  obtain ⟨c, hc⟩ := hs.forest
  have hown := (hc.own _ _ (hc.running_mem hr)).1
  have hidx : q - 1 ≠ (k.sched.link k.sched.running).pid - 1 := by
    have hr' : k.sched.running ≠ 0 := hr
    have hne' : k.sched.running ≠ q := hne
    rw [hown]
    omega
  exact (Function.update_of_ne hidx _ _).trans hlive

/-- So its frame stays in use. -/
theorem Taken.release (hq : k.Taken q) (hs : k.sched.Sound) (hr : k.running ≠ 0)
    (hne : k.running ≠ q) : k.haltRelease.1.Taken q := by
  rcases eq_or_ne q 0 with h0 | h0
  · exact Or.inl h0
  obtain ⟨hle, hlive⟩ := hq.resolve_left h0
  refine Or.inr ⟨hle, ?_⟩
  have hentry := pidArr_release hs hr h0 hne hlive
  rwa [← (haltRelease_of_quiet hs.quiet.flagger).1] at hentry

end Kernel

/-- The program's own doing: its stores, its calls with buffers, its faults and its end. -/
def Action.own : Action → Bool
  | .event (.halt ..) => true
  | .event _ => false
  | .call _ => true
  | .store .. => true
  | .exception .. => true
  | .stack .. => false

namespace Kernel

variable {fs : FileSystem} {k k' : Kernel} {q : Nat} {a : Action}

/-- A store that the process may make goes to its own frame, or to the screen lent to it. -/
theorem poke_kept (hk : Orderly k) (hr : k.running ≠ 0) (hne : k.running ≠ q) {va pa : Nat}
    (hwalk : k.display.paging.walk va = some (pa, true)) (b : UInt8) :
    k.display.Kept q (k.poke pa b).display := by
  refine ⟨hk.onScreen, fun x hx => Function.update_of_ne ?_ _ _⟩
  rintro rfl
  obtain ⟨lent, hlent, heq⟩ := hk.paged.walk_eq hr
  rw [heq, AddressSpace.lookup_user_iff] at hwalk
  rcases hwalk with ⟨hlo, hhi, hpa⟩ | ⟨screen, hscreen, hlo, hhi, hpa⟩
  · have hpage : mb132 = mb128 + mb4 := by decide
    refine Set.disjoint_left.mp (disjoint_userFrameSet hne) ?_ hx
    rw [userFrameSet, Set.mem_Ico]
    dsimp only at hpa
    omega
  · obtain ⟨current, active, rfl⟩ := hlent screen hscreen
    have hle := (screenPage_bounds current active).2
    have hmb := mb4_le_of_mem_userFrameSet hx
    rw [thirdTermVid] at hle
    rw [mb4] at hmb
    omega

/-- The stack of a process is in its own part of the kernel's page. -/
theorem onStack_kept (hk : Orderly k) (hq : q ≠ 0) (depth : Nat) (left : Nat → UInt8) :
    k.display.Kept q (k.onStack depth left).display := by
  refine ⟨hk.onScreen, fun x hx => if_neg fun hstack => ?_⟩
  have hlo : userFrame q ≤ x := hx.1
  have hhi := hstack.2
  rw [userFrame, mb4] at hlo
  rw [stackTop, mb8] at hhi
  omega

/-- The report of a fault, and the halt after it. -/
theorem fault_kept {x : Exception} {fr : Frame} {junk : List UInt8} {k₁ : Kernel} (hk : Orderly k)
    (hfit : k.display.fits (.puts (bytes x.text)) = true) (hq : k.Taken q)
    (hne : k.running ≠ 0 → k.running ≠ q) (hx : k.report x = some k₁)
    (h : k₁.step fs (.halt exceptionStatus fr junk) = some k') :
    k.display.Kept q k'.display := by
  have hquiet := report_quietly hx
  have hout : k.display.Kept q k₁.display := by
    rw [report_eq_some hx]
    exact (Display.stays_puts (hk.onScreen _) hfit).kept hk.onScreen
  have hcounts : ∀ t, k₁.editor.lineCount t ≤ numberCodes := by
    rw [report_eq_some hx]
    exact hk.counts
  have hk₁ : Orderly k₁ := ⟨paged_quietly hquiet hk.paged, hout.onScreen, hcounts⟩
  have hq₁ : k₁.Taken q := by
    rw [Taken, hquiet.proc]
    exact hq
  refine hout.trans (step_kept hk₁ (by rintro c ⟨⟩) rfl hq₁ (fun _ _ _ _ => ?_) h)
  have hr : k₁.running ≠ 0 := by
    intro h0
    rw [step, transition, if_pos h0] at h
    cases h
  refine hq₁.release hk₁.paged.sound hr ?_
  rw [hquiet.running] at hr ⊢
  exact hne hr

theorem running_of_call {c : Call} {r : Int × Option Buf} (h : k.call fs c = some (k', r)) :
    k'.running = k.running := congrArg Sched.running (sched_call h)

/-- A call leaves the kernel orderly. -/
theorem orderly_call {c : Call} {r : Int × Option Buf} (hk : Orderly k)
    (hfit : k.callFits c = true) (hr : k.running ≠ 0) (h : k.call fs c = some (k', r)) :
    Orderly k' := by
  have hstep : k.step fs (.call c) = some k' := by
    rw [step, transition, h]
    rfl
  exact ⟨paged_step hk.paged hstep, (call_kept (q := 0) hk hfit hr hr h).onScreen,
    lineCount_step hstep hk.counts⟩

/-- **What a tame action writes.**  Every cursor stays on its screen.  The frame of a process
changes by its own doing only, and the kernel's page by what is left on the kernel stack. -/
theorem act_kept (hk : Orderly k) (ht : k.tame fs a = true) (hq : k.Taken q)
    (hown : a.own = true → k.running ≠ 0 → k.running ≠ q)
    (hstack : q = 0 → ∀ depth left, a ≠ .stack depth left) (h : k.act fs a = some k') :
    k.display.Kept q k'.display := by
  cases act_acts h with
  | event hc h =>
    refine step_kept hk hc ht hq (fun status fr junk he => ?_) h
    subst he
    have hr : k.running ≠ 0 := by
      intro h0
      rw [step, transition, if_pos h0] at h
      cases h
    exact hq.release hk.paged.sound hr (hown rfl hr)
  | call hr hc hb =>
    rw [tame, Bool.and_eq_true] at ht
    have hk₁ := orderly_call hk ht.1 hr hc
    have hrun := running_of_call hc
    have hback := handBack_kept (q := q) hk₁ (by rw [hrun]; exact hr)
      (by rw [hrun]; exact hown rfl hr) ht.2 hb
    exact (call_kept hk ht.1 hr (hown rfl hr) hc).trans hback
  | poke hr hwalk => exact poke_kept hk hr (hown rfl hr) hwalk _
  | wild hw hx h =>
    rw [tame, hw, Bool.false_or] at ht
    exact fault_kept hk ht hq (hown rfl) hx h
  | fault hx h => exact fault_kept hk ht hq (hown rfl) hx h
  | stack depth left =>
    exact onStack_kept hk (fun h0 => hstack h0 depth left rfl) depth left

/-- No line is longer than its buffer. -/
theorem lineCount_act (h : k.act fs a = some k') (hk : ∀ t, k.editor.lineCount t ≤ numberCodes)
    (t : Term) : k'.editor.lineCount t ≤ numberCodes := by
  have hreport {x : Exception} {k₁ : Kernel} (hx : k.report x = some k₁) (t : Term) :
      k₁.editor.lineCount t ≤ numberCodes := by
    rw [report_eq_some hx]
    exact hk t
  cases act_acts h with
  | event _ h => exact lineCount_step h hk t
  | @call r k₁ _ _ _ _ hc hb =>
    have hstep : k.step fs (.call (r.call k.display)) = some k₁ := by
      rw [step, transition, hc]
      rfl
    have hcount := lineCount_step hstep hk t
    rcases handBack_eq_some hb with rfl | ⟨f, rfl⟩
    · exact hcount
    · exact hcount
  | poke => exact hk t
  | wild _ hx h => exact lineCount_step h (hreport hx) t
  | fault hx h => exact lineCount_step h (hreport hx) t
  | stack => exact hk t

/-- **One action** leaves the kernel orderly. -/
theorem orderly_act (hk : Orderly k) (ht : k.tame fs a = true) (h : k.act fs a = some k') :
    Orderly k' := by
  refine ⟨paged_act hk.paged h, ?_, lineCount_act h hk.counts⟩
  by_cases hstack : ∃ depth left, a = .stack depth left
  · obtain ⟨depth, left, rfl⟩ := hstack
    rw [← Option.some.inj h]
    exact hk.onScreen
  · refine (act_kept (q := 0) hk ht (Or.inl rfl) (fun _ hr => hr) (fun _ depth left ha => ?_)
      h).onScreen
    exact hstack ⟨depth, left, ha⟩

end Kernel

/-! ## The kernel's memory -/

/-- The kernel's page without the stacks: its image with the page directory, the page table and its
variables, and the PCBs. -/
def kernelData : Set Nat := { a | a ∈ kernelPage ∧ ∀ p ≤ findUniversal, a ∉ stackRange p }

/-- The PCBs are on none of the stacks. -/
theorem pcbRange_subset_kernelData {q : Nat} (h₁ : 1 ≤ q) (h₇ : q ≤ 7) :
    pcbRange q ⊆ kernelData := by
  rintro a ⟨hlo, hhi⟩
  refine ⟨?_, fun p hp hstack => ?_⟩
  · rw [kernelPage, Set.mem_Ico]
    simp only [pcbAddr, pcbBytes, totalFds, mb8, mb4, kb8] at *
    omega
  · exact Set.disjoint_left.mp (stackRange_disjoint_pcbRange (hp.trans (by decide)) h₇) hstack
      ⟨hlo, hhi⟩

namespace Kernel

variable {fs : FileSystem} {k k' : Kernel} {a : Action}

theorem running_le (hs : k.sched.Sound) : k.running ≤ findUniversal := by
  rcases eq_or_ne k.running 0 with h0 | hr
  · rw [h0]
    exact Nat.zero_le _
  · obtain ⟨c, hc⟩ := hs.forest
    exact hc.bound _ _ (hc.running_mem hr)

/-- The kernel stack, down to the next PCB at most. -/
theorem onStack_kernelData (hs : k.sched.Sound) {depth : Nat} (hd : depth ≤ stackRoom)
    (left : Nat → UInt8) {x : Nat} (hx : x ∈ kernelData) :
    (k.onStack depth left).display.phys x = k.display.phys x := by
  refine if_neg fun hstack => hx.2 k.running (running_le hs) ⟨?_, hstack.2⟩
  have hle := running_le hs
  have hlo := hstack.1
  rw [findUniversal] at hle
  simp only [pcbAddr, pcbBytes, stackTop, stackRoom, totalFds, mb8, kb8, b4] at *
  omega

/-- **A tame action leaves the kernel's memory alone.** -/
theorem act_kernelData (hk : Orderly k) (ht : k.tame fs a = true) (h : k.act fs a = some k')
    {x : Nat} (hx : x ∈ kernelData) : k'.display.phys x = k.display.phys x := by
  by_cases hstack : ∃ depth left, a = .stack depth left
  · obtain ⟨depth, left, rfl⟩ := hstack
    rw [← Option.some.inj h]
    exact onStack_kernelData hk.paged.sound (of_decide_eq_true ht) left hx
  · have hpage : x ∈ userFrameSet 0 := userFrameSet_zero ▸ hx.1
    refine (act_kept hk ht (Or.inl rfl) (fun _ hr => hr) (fun _ depth left ha => ?_) h).spares x
      hpage
    exact hstack ⟨depth, left, ha⟩

/-- **What tame actions keep.** -/
theorem tame_run {b : Boot} {as : List Action}
    (htame : Runs.Guarded (act fs) (fun k a => k.tame fs a = true) b.kernel as)
    (h : Runs.run (act fs) b.kernel as = some k) :
    Orderly k ∧ ∀ x ∈ kernelData, k.display.phys x = b.phys x := by
  refine Runs.run_guarded (I := fun k : Kernel => Orderly k ∧
    ∀ x ∈ kernelData, k.display.phys x = b.phys x) ?_ ⟨orderly_boot b, fun x hx => ?_⟩ htame h
  · rintro k a k' ⟨hk, hdata⟩ ht h
    exact ⟨orderly_act hk ht h, fun x hx => (act_kernelData hk ht h hx).trans (hdata x hx)⟩
  · have hwalled : ∃ lent, b.display.paging.Walled lent :=
      ⟨none, Paging.walled_init b.tablesAddr b.aligned⟩
    have hclear : b.display.Kept 0 b.display.clear :=
      Display.kept_clear hwalled fun _ => ⟨Nat.zero_lt_succ _, Nat.zero_lt_succ _⟩
    exact hclear.spares x (userFrameSet_zero ▸ hx.1)

/-- **The address space of a process.**  After any tame system calls, interrupts, stores and faults
nothing has been written to the memory of the kernel, where the page tables are; and while a process
runs the processor's walk of every address is the map: the frame of that process at 128 MB, the
kernel's page at 4 MB, the screens below, and a lent page above. -/
theorem walk_eq_lookup (fs : FileSystem) (b : Boot) (as : List Action) (k : Kernel)
    (htame : Runs.Guarded (act fs) (fun k a => k.tame fs a = true) b.kernel as)
    (h : Runs.run (act fs) b.kernel as = some k) :
    (∀ x ∈ kernelData, k.display.phys x = b.phys x) ∧
      (k.running ≠ 0 →
        ∃ lent, (∀ page ∈ lent, ∃ current active, page = screenPage current active) ∧
          ∀ va, k.display.paging.walk va =
            AddressSpace.lookup ⟨k.running, k.display.currentTerminal, lent⟩ va) := by
  obtain ⟨hk, hdata⟩ := tame_run htame h
  exact ⟨hdata, hk.paged.walk_eq⟩

/-- A shell that is typed a line, reads it, prints it, asks for the screen, stores a byte, and
faults on a store to the kernel's page. -/
def wildStore : List Action :=
  [.event (.execute (some shell) ⟨1, 2⟩ []), .stack 4000 (fun _ => 0xCC),
    .event (.key 1 0x1E ⟨0, 0⟩ []), .event (.key 1 enter ⟨0, 0⟩ []),
    .call (.read 0 0x8048100 128 fun _ => 0), .call (.write 1 0x8048100 2),
    .call (.vidmap 0x8048010), .store 0x8048000 65 ⟨0, 0⟩ [], .store 0x40C040 66 ⟨0, 0⟩ []]

/-- After them the page tables are those the kernel set up. -/
theorem walk_eq_lookup_wildStore : ∃ k,
    Runs.run (act shellDisk) Boot.zero.kernel wildStore = some k ∧ k.running = 1 ∧
      (∀ x ∈ kernelData, k.display.phys x = Boot.zero.phys x) ∧
      ∃ lent, (∀ page ∈ lent, ∃ current active, page = screenPage current active) ∧
        ∀ va, k.display.paging.walk va =
          AddressSpace.lookup ⟨k.running, k.display.currentTerminal, lent⟩ va := by
  have hrun : (Runs.run (act shellDisk) Boot.zero.kernel wildStore).map running = some 1 := by
    decide +kernel
  have htame : Runs.Guarded (act shellDisk) (fun k a => k.tame shellDisk a = true)
      Boot.zero.kernel wildStore := Runs.guarded_of_check (by decide +kernel)
  obtain ⟨k, hk, hr⟩ := Option.map_eq_some_iff.mp hrun
  obtain ⟨hdata, hwalk⟩ := walk_eq_lookup shellDisk Boot.zero _ k htame hk
  exact ⟨k, hk, hr, hdata, hwalk (by rw [hr]; decide)⟩

end Kernel

end HarambeOs
