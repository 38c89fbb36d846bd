import HarambeOs.Brackets
import HarambeOs.Confinement

/-!
# Isolation — a process finds its memory as it left it

While the kernel's stores are confined, the 4 MB of a live process change by its own doing only: by
its stores, and by the system calls that it gives a buffer.  What other programs do, output, the
echo of keys and the loading of programs stay out: **`Kernel.memory_kept`**.  A fault ends the
process that made it, and nothing else notices: **`Kernel.exception_contained`**.

Both need the cursors on their screens, which `putc` does not check; `tame` keeps them there.
-/

namespace HarambeOs

namespace Kernel

variable {fs : FileSystem} {k k' : Kernel} {q : Nat} {a : Action}

/-! ## The memory of a live process -/

/-- What is known of a live process `q`, in the states reached. -/
structure Live (k : Kernel) (q : Nat) : Prop where
  orderly : Orderly k
  pos : q ≠ 0
  entry : k.proc.pidArr (q - 1) = true

/-- Its frame is in use. -/
theorem Live.taken (h : k.Live q) : k.Taken q := by
  obtain ⟨c, hc⟩ := h.orderly.paged.sound.forest
  obtain ⟨t, ht⟩ := (hc.live (q - 1)).mp h.entry
  rw [Nat.sub_add_cancel (Nat.pos_of_ne_zero h.pos)] at ht
  exact Or.inr ⟨hc.bound t q ht, h.entry⟩

/-- A process that does not halt stays in the table. -/
theorem entry_step {s s' : Sched} {e : Event} {o : Outcome} {i : Nat}
    (h : Sched.Step fs s e o s') (hi : s.pidArr i = true)
    (hrel : ∀ status fr junk, e = .halt status fr junk → s.running ≠ 0 →
      s.release.pidArr i = true) : s'.pidArr i = true := by
  have hexec {command : Option (List UInt8)} {junk : List UInt8} {o : Outcome} {s₁ s₂ : Sched}
      (hx : Sched.Exec fs command junk s₁ o s₂) (h₁ : s₁.pidArr i = true) :
      s₂.pidArr i = true := by
    cases hx with
    | fail => exact h₁
    | @start _ j =>
      change Function.update s₁.pidArr j true i = true
      rw [Function.update_apply]
      split
      · rfl
      · exact h₁
    | overflow => exact h₁
  cases h with
  | idle => exact hi
  | execute hx => exact hexec hx hi
  | exit hr => exact hrel _ _ _ rfl hr
  | respawn hr _ hx => exact hexec hx (hrel _ _ _ rfl hr)
  | vacate hr _ hx =>
    have hi' := hexec hx (hrel _ _ _ rfl hr)
    exact hi'
  | rest => exact hi
  | tick => exact hi
  | launch _ _ _ hx => exact hexec hx hi

/-- The same of an event. -/
theorem pidArr_step {e : Event} (hs : k.sched.Sound) (h0 : q ≠ 0)
    (hlive : k.proc.pidArr (q - 1) = true)
    (hne : ∀ status fr junk, e = .halt status fr junk → k.running ≠ 0 → k.running ≠ q)
    (h : k.step fs e = some k') : k'.proc.pidArr (q - 1) = true := by
  obtain ⟨o, ho⟩ := step_eq_some.mp h
  refine entry_step (transition_sched hs.quiet ho) hlive fun status fr junk he hr => ?_
  exact pidArr_release hs hr h0 (hne status fr junk he hr) hlive

/-- **A live process stays live, and its memory as it is**, in every action but its own. -/
theorem live_act (hq : k.Live q) (ht : k.tame fs a = true)
    (hown : a.own = true → k.running ≠ q) (h : k.act fs a = some k') :
    k'.Live q ∧ k.display.Spares q k'.display := by
  have hkept := act_kept hq.orderly ht hq.taken (fun ho _ => hown ho) (fun h0 => absurd h0 hq.pos) h
  refine ⟨⟨orderly_act hq.orderly ht h, hq.pos, ?_⟩, hkept.spares⟩
  have hsound := hq.orderly.paged.sound
  -- A fault is a halt in the state after its report.
  have hfault {x : Exception} {k₁ : Kernel} {fr : Frame} {junk : List UInt8}
      (ho : a.own = true) (hx : k.report x = some k₁)
      (h : k₁.step fs (.halt exceptionStatus fr junk) = some k') :
      k'.proc.pidArr (q - 1) = true := by
    have hquiet := report_quietly hx
    refine pidArr_step (k := k₁) (by rw [hquiet.sched]; exact hsound) hq.pos ?_
      (fun _ _ _ _ _ => ?_) h
    · rw [hquiet.proc]
      exact hq.entry
    · rw [hquiet.running]
      exact hown ho
  cases act_acts h with
  | event hc h =>
    refine pidArr_step hsound hq.pos hq.entry (fun _ _ _ he _ => ?_) h
    subst he
    exact hown rfl
  | call _ hc hb =>
    have hentry := congrArg (fun s : Sched => s.pidArr (q - 1)) (sched_call hc)
    refine Eq.trans ?_ (hentry.trans hq.entry)
    rcases handBack_eq_some hb with rfl | ⟨f, rfl⟩
    · rfl
    · rfl
  | poke => exact hq.entry
  | wild _ hx h => exact hfault rfl hx h
  | fault hx h => exact hfault rfl hx h
  | stack => exact hq.entry

/-- **A process finds its memory as it left it.**  From any state that tame actions lead to, through
any tame actions that are not its own stores, calls, faults or end, the 4 MB of a live process do
not change, and it stays live. -/
theorem memory_kept (fs : FileSystem) (b : Boot) (before after : List Action) (k k' : Kernel)
    (htame : Runs.Guarded (act fs) (fun k a => k.tame fs a = true) b.kernel before)
    (h : Runs.run (act fs) b.kernel before = some k) (q : Nat) (hq : q ≠ 0)
    (hlive : k.proc.pidArr (q - 1) = true)
    (haway : Runs.Guarded (act fs)
      (fun k a => k.tame fs a = true ∧ (a.own = true → k.running ≠ q)) k after)
    (h' : Runs.run (act fs) k after = some k') :
    k'.proc.pidArr (q - 1) = true ∧
      ∀ a, userFrame q ≤ a → a < userFrame q + mb4 → k'.display.phys a = k.display.phys a := by
  have hk : k.Live q := ⟨(tame_run htame h).1, hq, hlive⟩
  have hrun := Runs.run_guarded (I := fun k₁ => k₁.Live q ∧ k.display.Spares q k₁.display) ?_
    ⟨hk, .refl _⟩ haway h'
  · exact ⟨hrun.1.entry, fun a hlo hhi => hrun.2 a ⟨hlo, hhi⟩⟩
  · rintro k₁ a k₂ ⟨hk₁, hs₁⟩ ⟨ht, hown⟩ hstep
    obtain ⟨hk₂, hs₂⟩ := live_act hk₁ ht hown hstep
    exact ⟨hk₂, hs₁.trans hs₂⟩

/-- The shell starts a program, which stores a letter, prints it, is typed a key, is interrupted,
and divides by zero. -/
def visit : List Action :=
  [.event (.execute (some shell) ⟨3, 4⟩ []), .store 0x8048000 65 ⟨0, 0⟩ [],
    .call (.write 1 0x8048000 1), .event (.key 1 0x1E ⟨0, 0⟩ []), .event (.tick ⟨5, 6⟩),
    .exception .divByZero ⟨0, 0⟩ []]

theorem memory_kept_visit : ∃ k k',
    Runs.run (act shellDisk) Boot.zero.kernel [.event (.execute (some shell) ⟨1, 2⟩ [])] = some k ∧
      Runs.run (act shellDisk) k visit = some k' ∧ k'.running = 1 ∧
      k'.proc.pidArr 0 = true ∧
      ∀ a, userFrame 1 ≤ a → a < userFrame 1 + mb4 → k'.display.phys a = k.display.phys a := by
  have hrun : (Runs.run (act shellDisk) Boot.zero.kernel
      [.event (.execute (some shell) ⟨1, 2⟩ [])]).map (fun k =>
        (k.proc.pidArr 0, Runs.check (act shellDisk)
          (fun k a => k.tame shellDisk a = true ∧ (a.own = true → k.running ≠ 1)) k visit,
          (Runs.run (act shellDisk) k visit).map running)) = some (true, true, some 1) := by
    decide +kernel
  obtain ⟨k, hk, hs⟩ := Option.map_eq_some_iff.mp hrun
  obtain ⟨hlive, hcheck, hs⟩ : _ ∧ _ ∧ _ := by simpa only [Prod.mk.injEq] using hs
  obtain ⟨k', hk', hr⟩ := Option.map_eq_some_iff.mp hs
  exact ⟨k, k', hk, hk', hr, memory_kept shellDisk Boot.zero _ visit k k'
    (Runs.guarded_of_check (by decide +kernel)) hk 1 (by decide) hlive
    (Runs.guarded_of_check hcheck) hk'⟩

end Kernel

/-! ## The report of a fault -/

namespace Display

/-- The bytes end with their only break, a newline. -/
def isLine : List UInt8 → Bool
  | [] => false
  | [c] => c == newline
  | c :: s => !isBreak c && isLine s

variable {d : Display}

/-- **A line stays on the screen**, wherever on it the cursor is: the newline at its end only moves
the cursor. -/
theorem puts_line {s : List UInt8} (h : d.OnScreen d.activeTerminal) (hs : isLine s = true) :
    d.putsMapped s = true ∧ Confined d (d.puts s) d.activeTerminal := by
  induction s using isLine.induct generalizing d with
  | case1 => cases hs
  | case2 c =>
    obtain rfl : c = newline := beq_iff_eq.mp hs
    exact ⟨rfl, confined_putAt (d.paging.maps_pageArr _) h.1 h.2 newline⟩
  | case3 c s hne ih =>
    rw [isLine, Bool.and_eq_true, Bool.not_eq_true'] at hs
    · obtain ⟨hc, hs⟩ := hs
      have hput : Stays d (d.putc c) d.activeTerminal :=
        stays_putc h fun hb => absurd (hc.symm.trans hb) Bool.false_ne_true
      have hact := activeTerminal_of_control hput.control
      obtain ⟨hmapped, hconf⟩ := ih (d := d.putc c) (hact.symm ▸ hput.onScreen) hs
      refine ⟨?_, hput.toConfined.trans (hact ▸ hconf)⟩
      obtain ⟨hx, hy⟩ := h
      rw [numCols] at hx
      rw [numRows] at hy
      have hmaps := d.paging.maps_pageArr d.activeTerminal
      rw [putsMapped, hmapped, Bool.and_true, hc, Bool.false_or, cellAddr_eq, Nat.add_assoc,
        hmaps _ (by rw [numCols]; omega), hmaps _ (by rw [numCols]; omega)]
      rfl
    · exact hne

end Display

/-- Every handler prints one line. -/
theorem Exception.isLine_text (x : Exception) : Display.isLine (bytes x.text) = true := by
  cases x <;> decide +kernel

namespace Kernel

variable {fs : FileSystem} {k k' : Kernel} {q : Nat}

/-- With the cursor on the screen, the message of an exception is printed. -/
theorem report_completes (hon : k.display.OnScreen k.display.activeTerminal) (x : Exception) :
    ∃ k₁, k.report x = some k₁ ∧ k.display.Confined k₁.display k.display.activeTerminal := by
  obtain ⟨hmapped, hconf⟩ := Display.puts_line hon x.isLine_text
  exact ⟨_, if_pos hmapped, hconf⟩

/-! ## The halt after it -/

/-- Reading a program that fits the user page writes to its frame and nowhere else. -/
theorem loadImage_memory {inode eip : Nat} (hfits : Fits fs inode)
    (h : k.loadImage fs inode = some (k', eip)) {x : Nat}
    (hx : x ∉ userFrameSet k.proc.processCounter) : k'.display.phys x = k.display.phys x := by
  have hread {d d' : Display} {bytes : List UInt8}
      (hpg : d.paging = k.display.paging.remapPaging (userFrame k.proc.processCounter))
      (hlen : bytes.length ≤ mb132 - progImg) (hd : d.readInto progImg bytes = some d') :
      d'.phys x = d.phys x := by
    rw [Display.readInto] at hd
    split at hd
    · rw [← Option.some.inj hd]
      refine MappedMemory.storeRange_of_notMem fun i hi heq => hx ?_
      rw [hpg, maps_user _ _ hlen i hi] at heq
      rw [mb132, progImg] at hlen
      rw [userFrameSet, Set.mem_Ico, ← Option.some.inj heq, progImg, mb4]
      omega
    · cases hd
  obtain ⟨d₁, h₁, h⟩ := Option.bind_eq_some_iff.mp h
  obtain ⟨d₂, h₂, h⟩ := Option.map_eq_some_iff.mp h
  have hone := hread rfl (hfits.length_le _ _) h₁
  obtain ⟨phys, rfl⟩ := readInto_eq_some h₁
  rw [← (Prod.mk.inj h).1]
  exact (hread rfl (hfits.length_le _ _) h₂).trans hone

/-- A shell that finds a number is loaded into the frame of that number. -/
theorem execute_shell_memory (hshell : ShellLoadable fs) (hfree : k.proc.freeIndex ≠ none)
    {fr : Frame} {junk : List UInt8} {o : Outcome}
    (h : k.execute fs (some shell) fr junk = some (k', o)) {x : Nat}
    (hx : ∀ i, k.proc.pidArr i = false → x ∉ userFrameSet (i + 1)) :
    k'.display.phys x = k.display.phys x := by
  obtain ⟨inode, hfind, hfits⟩ := hshell junk
  obtain ⟨i, hi⟩ := Option.ne_none_iff_exists'.mp hfree
  rw [execute_of_free (by rwa [parseCommand_shell]) hi] at h
  obtain ⟨⟨k₁, eip⟩, hl, h⟩ := Option.map_eq_some_iff.mp h
  obtain ⟨rfl, -⟩ := Prod.mk.inj h
  let k₀ := { k with cpu := fr }.prepare (parseCommand shell).2
  have hi₀ : k₀.proc.freeIndex = some i := (freeIndex_prepare _ _).trans hi
  have hcount : x ∉ userFrameSet k₀.proc.chooseSlot.1.processCounter := by
    rw [chooseSlot_of_free hi₀]
    exact hx i (Sched.freeIndex_eq_some (s := k.sched) hi).1
  rw [commit_proc]
  exact loadImage_memory (k := { k₀ with proc := k₀.proc.chooseSlot.1 }) hfits hl hcount

/-- Only a process halts. -/
theorem running_of_halt {status : UInt8} {fr : Frame} {junk : List UInt8} {o : Outcome}
    (h : k.transition fs (.halt status fr junk) = some (k', o)) : k.running ≠ 0 := by
  intro h0
  rw [transition, if_pos h0] at h
  cases h

/-- **A halt writes to the frame of a free number at most, and leaves the cursors alone**: it goes
back to the parent, or loads a shell. -/
theorem halt_memory (hshell : ShellLoadable fs) (hs : k.sched.Sound) {status : UInt8} {fr : Frame}
    {junk : List UInt8} {o : Outcome}
    (h : k.transition fs (.halt status fr junk) = some (k', o)) :
    (∀ x, (∀ i, k.sched.release.pidArr i = false → x ∉ userFrameSet (i + 1)) →
        k'.display.phys x = k.display.phys x) ∧
      k'.display.screenX = k.display.screenX ∧ k'.display.screenY = k.display.screenY := by
  have hdisp := k.display_haltRelease
  have hrel := (haltRelease_of_quiet hs.quiet.flagger).1
  have hr := running_of_halt h
  obtain ⟨c, hc⟩ := hs.forest
  have hfree : k.haltRelease.1.proc.freeIndex ≠ none := by
    have hfree := hc.freeIndex_release hr
    rwa [← hrel] at hfree
  rw [transition, if_neg hr, cHalt, cHaltWith] at h
  split at h
  · have hexec {k₁ : Kernel} {o : Outcome}
        (hx : execute fs (some shell) fr junk k.haltRelease.1 = some (k₁, o)) :
        (∀ x, (∀ i, k.sched.release.pidArr i = false → x ∉ userFrameSet (i + 1)) →
            k₁.display.phys x = k.display.phys x) ∧
          k₁.display.screenX = k.display.screenX ∧ k₁.display.screenY = k.display.screenY := by
      rw [← hdisp, ← hrel]
      refine ⟨fun x hfresh => execute_shell_memory hshell hfree hx hfresh, ?_⟩
      cases execute_executed hx with
      | fail => exact ⟨rfl, rfl⟩
      | start =>
        rw [commit_proc]
        exact ⟨rfl, rfl⟩
      | overflow _ hn => exact absurd hn hfree
    split at h
    · cases h
    · next hx =>
      obtain ⟨rfl, -⟩ := Prod.mk.inj (Option.some.inj h)
      exact hexec hx
    · next hx =>
      obtain ⟨rfl, -⟩ := Prod.mk.inj (Option.some.inj h)
      obtain ⟨hphys, hcursor⟩ := hexec hx
      exact ⟨hphys, hcursor⟩
  · obtain ⟨rfl, -⟩ := Prod.mk.inj (Option.some.inj h)
    rw [← hdisp]
    exact ⟨fun _ _ => rfl, rfl, rfl⟩

/-! ## Faults -/

/-- No store goes to the kernel's page; the other terminals with their screens and cursors, and the
processes other than the running one, are as they were. -/
structure Contained (k k' : Kernel) : Prop where
  active : k'.display.activeTerminal = k.display.activeTerminal
  terminals : ∀ t, t ≠ k.display.activeTerminal → k'.proc.termArr t = k.proc.termArr t
  cursors : ∀ t, t ≠ k.display.activeTerminal →
    k'.display.screenX t = k.display.screenX t ∧ k'.display.screenY t = k.display.screenY t
  screens : ∀ t, t ≠ k.display.activeTerminal → ∀ i < windowSize,
    k'.display.phys (k.display.paging.termFrame t + i) =
      k.display.phys (k.display.paging.termFrame t + i)
  kernelPage : ∀ x ∈ kernelPage, k'.display.phys x = k.display.phys x
  processes : ∀ q, q ≠ 0 → q ≠ k.running → k.proc.pidArr (q - 1) = true →
    k'.proc.pidArr (q - 1) = true ∧ k'.proc.slots q = k.proc.slots q ∧
      ∀ a, userFrame q ≤ a → a < userFrame q + mb4 → k'.display.phys a = k.display.phys a

/-- What a start changes of the terminals and the PCBs. -/
theorem started_frame {i : Nat} (hinit : k.proc.intiFlag = true) (hi : k.proc.freeIndex = some i)
    (args : Option (List UInt8)) (phys : Nat → UInt8) :
    ((k.prepare args).loaded phys).buildPcb.commit.display.activeTerminal =
        k.display.activeTerminal ∧
      (∀ t, t ≠ k.display.activeTerminal →
        ((k.prepare args).loaded phys).buildPcb.commit.proc.termArr t = k.proc.termArr t) ∧
      ∀ q, q ≠ i + 1 →
        ((k.prepare args).loaded phys).buildPcb.commit.proc.slots q = k.proc.slots q := by
  have hfree := (freeIndex_prepare k args).trans hi
  have hslots : (k.prepare args).proc.slots = k.proc.slots := by rw [prepare_eq]
  have hterm : (k.prepare args).proc.termArr = k.proc.termArr := by
    rw [prepare_eq]
    exact if_pos hinit
  have hload : ((k.prepare args).loaded phys).proc = { (k.prepare args).proc with
      pidArr := Function.update (k.prepare args).proc.pidArr i true
      processCounter := i + 1 } := by
    rw [loaded, chooseSlot_of_free hfree]
  have hcount : ((k.prepare args).loaded phys).proc.processCounter = i + 1 := by rw [hload]
  have hcommit := commit_eq (k := ((k.prepare args).loaded phys).buildPcb) (p := i + 1) hcount
    (congrArg some hcount)
  refine ⟨by rw [hcommit]; rfl, fun t ht => ?_, fun q hq => ?_⟩
  · rw [hcommit]
    refine (Function.update_of_ne ht _ _).trans ?_
    change ((k.prepare args).loaded phys).proc.termArr t = _
    rw [hload, ← hterm]
  · rw [hcommit]
    refine (Function.update_of_ne hq _ _).trans ?_
    refine (Function.update_of_ne (by rw [hcount]; exact hq) _ _).trans ?_
    rw [hload, ← hslots]

/-- **The tables after a halt**: the active terminal stays active, and the entries of the other
terminals and the PCBs of the other processes are as they were. -/
theorem halt_tables (hshell : ShellLoadable fs) (hs : k.sched.Sound) {status : UInt8} {fr : Frame}
    {junk : List UInt8} {o : Outcome}
    (h : k.transition fs (.halt status fr junk) = some (k', o)) :
    k'.display.activeTerminal = k.display.activeTerminal ∧
      (∀ t, t ≠ k.display.activeTerminal → k'.proc.termArr t = k.proc.termArr t) ∧
      ∀ q, q ≠ 0 → q ≠ k.running → k.proc.pidArr (q - 1) = true →
        k'.proc.slots q = k.proc.slots q := by
  have hflag : k.proc.flagger = false := hs.quiet.flagger
  obtain ⟨hrel, -⟩ := haltRelease_of_quiet hflag
  have hterms (t : Term) (ht : t ≠ k.display.activeTerminal) :
      k.haltRelease.1.proc.termArr t = k.proc.termArr t := by
    simp only [haltRelease, hflag]
    exact Function.update_of_ne ht _ _
  have hslots : k.haltRelease.1.proc.slots = k.proc.slots := by simp only [haltRelease, hflag]; rfl
  have hdisp := k.display_haltRelease
  cases transition_moves h with
  | exit hr hpar =>
    exact ⟨by rw [← hdisp]; rfl, hterms, fun q _ _ _ => congrFun hslots q⟩
  | respawn hr hpar hx =>
    cases hx with
    | @start _ i hi eip phys =>
      have hinit : k.haltRelease.1.proc.intiFlag = true := by
        have : k.haltRelease.1.sched.intiFlag = true := by
          rw [hrel]
          exact hs.quiet.intiFlag hr
        exact this
      obtain ⟨hact, hterm, hslot⟩ := started_frame (k := { k.haltRelease.1 with cpu := fr }) hinit
        hi (argsOf (some shell)) phys
      refine ⟨by rw [hact, ← hdisp], fun t ht => ?_, fun q hq hne he => ?_⟩
      · rw [← hdisp] at ht
        exact (hterm t ht).trans (hterms t (by rw [← hdisp]; exact ht))
      · -- The shell takes a free number, so not that of a live process.
        refine (hslot q ?_).trans (congrFun hslots q)
        rintro rfl
        have hbusy := pidArr_release hs hr hq (Ne.symm hne) he
        have hfree := (Sched.freeIndex_eq_some (s := k.haltRelease.1.sched) hi).1
        rw [hrel] at hfree
        exact absurd (hfree.symm.trans hbusy) Bool.false_ne_true
  | vacate hr hpar hx ho =>
    -- A shell can be loaded, and the number of the process that halts is free.
    cases hx with
    | fail hn => exact absurd (hn.symm.trans (hshell.resolves _)) Bool.false_ne_true
    | start => exact absurd rfl (ho _)
    | overflow _ hn =>
      obtain ⟨c, hc⟩ := hs.forest
      have hfree := hc.freeIndex_release hr
      rw [← hrel] at hfree
      exact absurd hn hfree

/-- Output to one terminal leaves the screen of another one alone. -/
theorem confined_screen {d d' : Display} {t u : Term} (h : d.Confined d' u) (hd : d.Framed)
    (ht : t ≠ u) {i : Nat} (hi : i < windowSize) :
    d'.phys (d.paging.termFrame t + i) = d.phys (d.paging.termFrame t + i) := by
  -- The screens of two terminals are two pages.
  have hdisj := d.base_disjoint ht
  rw [← hd, ← hd, windowSize] at hdisj
  rw [windowSize] at hi
  refine h.phys _ ?_
  rw [videoElems]
  omega

/-- **A report and a halt stay with the process that halts.** -/
theorem raise_contained (hshell : ShellLoadable fs) (hk : Orderly k) {x : Exception} {k₁ : Kernel}
    (hx : k.report x = some k₁)
    (hconf : k.display.Confined k₁.display k.display.activeTerminal) {fr : Frame}
    {junk : List UInt8} {o : Outcome}
    (h : k₁.transition fs (.halt exceptionStatus fr junk) = some (k', o)) : Contained k k' := by
  have hquiet := report_quietly hx
  have hs₁ : k₁.sched.Sound := by
    rw [hquiet.sched]
    exact hk.paged.sound
  have hact := Display.activeTerminal_of_control hquiet.control
  obtain ⟨hactive, hterms, hslots⟩ := halt_tables hshell hs₁ h
  obtain ⟨hphys, hX, hY⟩ := halt_memory hshell hs₁ h
  have hlow (y : Nat) (hy : y < mb8) : k'.display.phys y = k₁.display.phys y := by
    refine hphys y fun i _ hmem => ?_
    have hle : userFrame (i + 1) ≤ y := hmem.1
    rw [userFrame, mb4] at hle
    rw [mb8] at hy
    omega
  refine ⟨hactive.trans hact, fun t ht => ?_, fun t ht => ?_, fun t ht i hi => ?_,
    fun y hy => ?_, fun q hq hne he => ?_⟩
  · rw [hterms t (by rw [hact]; exact ht), hquiet.proc]
  · rw [hX, hY]
    exact ⟨hconf.screenX t ht, hconf.screenY t ht⟩
  · have hle := k.display.paging.termFrame_le t
    rw [thirdTermVid] at hle
    rw [windowSize] at hi
    exact (hlow _ (by rw [mb8]; omega)).trans (confined_screen hconf hk.paged.framed ht hi)
  · exact (hlow y hy.2).trans (hconf.spares y (userFrameSet_zero ▸ hy))
  · have he₁ : k₁.proc.pidArr (q - 1) = true := by
      rw [hquiet.proc]
      exact he
    have hne₁ : k₁.running ≠ q := by
      rw [hquiet.running]
      exact hne.symm
    have hstep : k₁.step fs (.halt exceptionStatus fr junk) = some k' := step_eq_some.mpr ⟨o, h⟩
    refine ⟨pidArr_step hs₁ hq he₁ (fun _ _ _ _ _ => hne₁) hstep, ?_, fun a hlo hhi => ?_⟩
    · rw [hslots q hq hne₁.symm he₁, hquiet.proc]
    · refine (hphys a fun i hfree hmem => ?_).trans (hconf.spares a ⟨hlo, hhi⟩)
      refine Set.disjoint_left.mp (disjoint_userFrameSet ?_) hmem ⟨hlo, hhi⟩
      rintro rfl
      exact absurd (hfree.symm.trans (pidArr_release hs₁ (running_of_halt h) hq hne₁ he₁))
        Bool.false_ne_true

/-- A halt with a parent goes back to it, with the registers that were saved, and frees the
number. -/
theorem halt_to_parent (hs : k.sched.Sound) (hr : k.running ≠ 0)
    (hp : (k.proc.slots k.running).parentPid ≠ 0) (status : UInt8) (fr : Frame)
    (junk : List UInt8) :
    ∃ k', k.transition fs (.halt status fr junk) = some (k', .resumed status) ∧
      k'.running = (k.proc.slots k.running).parentPid ∧
      k'.cpu = ⟨(k.proc.slots k.running).parentEsp, (k.proc.slots k.running).parentEbp⟩ ∧
      k'.proc.pidArr (k.running - 1) = false := by
  obtain ⟨k', hk', hs'⟩ := halt_exit hs.quiet.flagger hr hp status fr junk
  refine ⟨k', hk', ?_, congrArg Sched.cpu hs', ?_⟩
  · exact (congrArg Sched.running hs').trans k.sched.running_release
  · obtain ⟨c, hc⟩ := hs.forest
    have hpid : (k.sched.link k.running).pid = k.running := (hc.own _ _ (hc.running_mem hr)).1
    refine (congrFun (congrArg Sched.pidArr hs') _).trans ?_
    refine (Function.update_apply ..).trans (if_pos ?_)
    rw [show k.sched.running = k.running from rfl, hpid]

/-- A halt without one starts a shell, which has no parent. -/
theorem halt_to_shell (hshell : ShellLoadable fs) (hs : k.sched.Sound) (hr : k.running ≠ 0)
    (hp : (k.proc.slots k.running).parentPid = 0) (status : UInt8) (fr : Frame)
    (junk : List UInt8) :
    ∃ k' eip, k.transition fs (.halt status fr junk) = some (k', .started eip) ∧
      k'.running ≠ 0 ∧ (k'.proc.slots k'.running).parentPid = 0 := by
  obtain ⟨k', eip, hk'⟩ := halt_started hshell hs hr hp status fr junk
  refine ⟨k', eip, hk', ?_⟩
  cases transition_sched hs.quiet hk' with
  | respawn _ _ hx =>
    obtain ⟨i, -, -, hs'⟩ := hx.started_of_release hshell hs hr
    have hrun : k'.running = i + 1 := (congrArg Sched.running hs').trans (Sched.running_start _ i)
    have hzero : k.sched.release.running = 0 := by
      rw [Sched.running_release]
      exact hp
    have hlink : (k'.sched.link (i + 1)).parentPid = 0 := by
      rw [hs']
      refine (congrArg Link.parentPid (Function.update_self ..)).trans ?_
      rw [Sched.parent]
      split
      · exact hzero
      · rfl
    rw [hrun]
    exact ⟨Nat.succ_ne_zero i, hlink⟩

/-- **A fault stays with the process that made it.**  In every state that tame actions lead to, the
handler of an exception of the running process completes.  With a parent it goes back to the
`c_execute` call of the parent, with the registers saved there, and the call returns 0: the status 2
is lost.  Without one it goes to a new shell.  The kernel's page, the other terminals with their
screens and cursors, and the other processes with their PCBs and memory are as they were. -/
theorem exception_contained (hshell : ShellLoadable fs) (b : Boot) (as : List Action) (k : Kernel)
    (htame : Runs.Guarded (act fs) (fun k a => k.tame fs a = true) b.kernel as)
    (h : Runs.run (act fs) b.kernel as = some k) (hr : k.running ≠ 0) (x : Exception) (fr : Frame)
    (junk : List UInt8) :
    ∃ k' o, k.raise fs x fr junk = some (k', o) ∧ Contained k k' ∧
      ((k.proc.slots k.running).parentPid ≠ 0 → callValue o = some 0 ∧
        k'.running = (k.proc.slots k.running).parentPid ∧
        k'.cpu = ⟨(k.proc.slots k.running).parentEsp, (k.proc.slots k.running).parentEbp⟩ ∧
        k'.proc.pidArr (k.running - 1) = false) ∧
      ((k.proc.slots k.running).parentPid = 0 → (∃ eip, o = .started eip) ∧
        k'.running ≠ 0 ∧ (k'.proc.slots k'.running).parentPid = 0) := by
  obtain ⟨hk, -⟩ := tame_run htame h
  obtain ⟨k₁, hx, hconf⟩ := report_completes (hk.onScreen _) x
  have hquiet := report_quietly hx
  have hs₁ : k₁.sched.Sound := by
    rw [hquiet.sched]
    exact hk.paged.sound
  rw [← hquiet.running] at hr ⊢
  rw [← hquiet.proc]
  have hraise {r : Kernel × Outcome}
      (hk' : k₁.transition fs (.halt exceptionStatus fr junk) = some r) :
      k.raise fs x fr junk = some r := by rw [raise, hx, Option.bind_some, hk']
  by_cases hpar : (k₁.proc.slots k₁.running).parentPid = 0
  · obtain ⟨k', eip, hk', hshellRuns⟩ :=
      halt_to_shell hshell hs₁ hr hpar exceptionStatus fr junk
    exact ⟨k', _, hraise hk', raise_contained hshell hk hx hconf hk', fun hn => absurd hpar hn,
      fun _ => ⟨⟨eip, rfl⟩, hshellRuns⟩⟩
  · obtain ⟨k', hk', hparentRuns⟩ := halt_to_parent hs₁ hr hpar exceptionStatus fr junk
    exact ⟨k', _, hraise hk', raise_contained hshell hk hx hconf hk',
      fun _ => ⟨rfl, hparentRuns⟩, fun hn => absurd hn hpar⟩

/-- A program started by the shell, with the cursor taken down to the bottom row. -/
def downToBottom : List Action :=
  [.event (.execute (some shell) ⟨1, 2⟩ []), .event (.execute (some shell) ⟨3, 4⟩ [])] ++
    List.replicate 24 (.event (.key 1 enter ⟨0, 0⟩ []))

/-- The program faults there, and the newline of the report takes the cursor below the screen. -/
theorem exception_contained_bottom : ∃ k k' o,
    Runs.run (act shellDisk) Boot.zero.kernel downToBottom = some k ∧ k.running = 2 ∧
      k.display.screenY 0 = bottomRow ∧
      k.raise shellDisk .pageFault ⟨0, 0⟩ [] = some (k', o) ∧ Contained k k' ∧
      callValue o = some 0 ∧ k'.running = 1 ∧ k'.cpu = ⟨3, 4⟩ ∧ k'.proc.pidArr 1 = false := by
  have hrun : (Runs.run (act shellDisk) Boot.zero.kernel downToBottom).map
      (fun k => [k.running, k.display.screenY 0, (k.proc.slots k.running).parentPid,
        (k.proc.slots k.running).parentEsp, (k.proc.slots k.running).parentEbp]) =
      some [2, bottomRow, 1, 3, 4] := by
    decide +kernel
  obtain ⟨k, hk, hs⟩ := Option.map_eq_some_iff.mp hrun
  simp only [List.cons.injEq, and_true] at hs
  obtain ⟨hr, hrow, hpar, hesp, hebp⟩ := hs
  obtain ⟨k', o, hraise, hcont, hback, -⟩ := exception_contained shellLoadable_shellDisk Boot.zero _
    k (Runs.guarded_of_check (by decide +kernel)) hk (by rw [hr]; decide) .pageFault ⟨0, 0⟩ []
  obtain ⟨ho, hrun', hcpu, hfree⟩ := hback (by rw [hpar]; decide)
  rw [hpar] at hrun'
  rw [hesp, hebp] at hcpu
  rw [hr] at hfree
  exact ⟨k, k', o, hk, hr, hrow, hraise, hcont, ho, hrun', hcpu, hfree⟩

end Kernel

end HarambeOs
