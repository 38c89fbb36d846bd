import HarambeOs.Moves
import Mathlib

/-!
# Scheduler — the process table and the processor, and that the kernel follows them

`Sched` is what is left of the kernel when files, screens and the keyboard are put aside: who is on
which terminal, which process numbers are taken, what each PCB says about its process, and the
registers and mappings a switch sets.  `Sched.Step` says what an event can do to it, one constructor
for each way the event can go.

**`Kernel.transition_sched`** is the connection: whatever the kernel does is a `Sched.Step`.  Every
result about processes is proved of `Sched.Step`.
-/

namespace HarambeOs

/-- What a PCB says about its process, descriptors aside. -/
structure Link where
  pid : Nat
  parentPid : Nat
  termNum : Nat
  frame : Frame

/-- The link of a PCB. -/
def Pcb.link (pcb : Pcb) : Link :=
  ⟨pcb.pid, pcb.parentPid, pcb.termNum, ⟨pcb.parentEsp, pcb.parentEbp⟩⟩

/-- The state of the scheduler. -/
@[ext] structure Sched where
  last : Term → Nat
  flag : Term → Bool
  pidArr : Nat → Bool
  link : Nat → Link
  launchFlag : Term → Bool
  intiFlag : Bool
  flagger : Bool
  active : Term
  pcb : Option Nat
  tssEsp0 : Nat
  userPage : Nat
  processes : Int → Frame
  cpu : Frame

/-- The scheduler's view of a kernel. -/
def Kernel.sched (k : Kernel) : Sched where
  last t := (k.proc.termArr t).lastActivePro
  flag t := (k.proc.termArr t).flag
  pidArr := k.proc.pidArr
  link p := (k.proc.slots p).link
  launchFlag := k.proc.launchFlag
  intiFlag := k.proc.intiFlag
  flagger := k.proc.flagger
  active := k.display.activeTerminal
  pcb := k.proc.pcb
  tssEsp0 := k.proc.tssEsp0
  userPage := k.display.paging.directory (mb128 >>> entryIdx)
  processes := k.proc.processes
  cpu := k.cpu

namespace Sched

/-! ## The operations -/

/-- The running process. -/
def running (s : Sched) : Nat := s.last s.active

/-- The lowest free index. -/
def freeIndex (s : Sched) : Option Nat := (List.range findUniversal).find? fun i => !s.pidArr i

/-- The terminal a tick switches to. -/
def nextTerm (s : Sched) : Option Term :=
  Kernel.findTerm s.flag possibleTerms (Fin.ofNat 3 ((s.link s.running).termNum + 1))

/-- The terminals initialised, by the first `c_execute`. -/
def initialised (s : Sched) : Sched := { s with intiFlag := true }

/-- The parent a process started now would have. -/
def parent (s : Sched) : Nat := if s.flag s.active then s.running else 0

/-- Stack top and user page of process `p`. -/
def mapTo (s : Sched) (p : Nat) : Sched :=
  { s with tssEsp0 := stackTop p, userPage := userFrame p ||| flags }

/-- Process `i + 1` started on the active terminal. -/
def start (s : Sched) (i : Nat) : Sched :=
  { s with
    pidArr := Function.update s.pidArr i true
    pcb := some (i + 1)
    link := Function.update s.link (i + 1) ⟨i + 1, s.parent, s.active, s.cpu⟩
    last := Function.update s.last s.active (i + 1)
    flag := Function.update s.flag s.active true }.mapTo (i + 1)

/-- The PCB of slot `p` filled in. -/
def build (s : Sched) (p : Nat) : Sched :=
  { s with
    pcb := some p
    link := Function.update s.link p { s.link p with pid := p, frame := s.cpu } }

/-- Process `p`, whose PCB is filled in, entered on the active terminal. -/
def commit (s : Sched) (p : Nat) : Sched :=
  { s with
    link := Function.update s.link p
      { s.link p with parentPid := s.parent, pid := p, termNum := s.active }
    last := Function.update s.last s.active p
    flag := Function.update s.flag s.active true
    tssEsp0 := stackTop p }

/-- A start that found no number, undone. -/
def overflow (s : Sched) : Sched := (s.build maxProcessSet).mapTo s.running

/-- The running process off the table. -/
def release (s : Sched) : Sched :=
  { s with
    last := Function.update s.last s.active (s.link s.running).parentPid
    pidArr := Function.update s.pidArr ((s.link s.running).pid - 1) false }

/-- Back to process `p`, with the registers `fr`. -/
def restore (s : Sched) (p : Nat) (fr : Frame) : Sched := { s.mapTo p with cpu := fr }

/-- The registers an event starts with. -/
def enterWith (s : Sched) (fr : Frame) : Sched := { s with cpu := fr }

/-- The active terminal changed by the timer, with process `p`'s context saved. -/
def tick (s : Sched) (t : Term) (fr : Frame) : Sched :=
  let processes := Function.update s.processes ((s.running : Int) - 1) fr
  { s with processes := processes, active := t, cpu := processes ((s.last t : Int) - 1) }.mapTo
    (s.last t)

/-- A terminal made active by the first switch to it. -/
def activate (s : Sched) (t : Term) (fr : Frame) : Sched :=
  { s with launchFlag := Function.update s.launchFlag t true, active := t, cpu := fr }

/-- Before the first `c_execute` no terminal has a process, and no full table is being unwound. -/
structure Quiet (s : Sched) : Prop where
  flagger : s.flagger = false
  last : s.intiFlag = false → ∀ t, s.last t = 0
  flag : s.intiFlag = false → ∀ t, s.flag t = false

theorem running_start (s : Sched) (i : Nat) : (s.start i).running = i + 1 := Function.update_self ..

theorem running_release (s : Sched) : s.release.running = (s.link s.running).parentPid :=
  Function.update_self ..

theorem Quiet.enterWith {s : Sched} (h : s.Quiet) (fr : Frame) : (s.enterWith fr).Quiet :=
  ⟨h.1, h.2, h.3⟩

/-- After the first `c_execute` only `flagger` is left to ask for. -/
theorem quiet_of_intiFlag {s : Sched} (hf : s.flagger = false) (hi : s.intiFlag = true) :
    s.Quiet :=
  ⟨hf, fun h => absurd (h.symm.trans hi) nofun, fun h => absurd (h.symm.trans hi) nofun⟩

/-- Where a process runs, `c_execute` has been called. -/
theorem Quiet.intiFlag {s : Sched} (h : s.Quiet) (hr : s.running ≠ 0) : s.intiFlag = true := by
  by_contra hi
  exact hr (h.last (Bool.eq_false_iff.mpr hi) s.active)

theorem Quiet.release {s : Sched} (h : s.Quiet) (hr : s.running ≠ 0) : s.release.Quiet :=
  quiet_of_intiFlag h.flagger (h.intiFlag hr)

/-- The frame saved is the one `c_execute` was called with. -/
theorem frame_build (s : Sched) (p : Nat) : ((s.build p).link p).frame = s.cpu := by
  simp only [build, Function.update_self]

theorem pid_build (s : Sched) (p : Nat) : ((s.build p).link p).pid = p := by
  simp only [build, Function.update_self]

/-- A start, part by part: the number marked and the user page mapped, the PCB, the terminal. -/
theorem commit_build (s : Sched) (i : Nat) :
    ({ s with
      pidArr := Function.update s.pidArr i true
      userPage := userFrame (i + 1) ||| flags }.build (i + 1)).commit (i + 1) = s.start i := by
  refine Sched.ext rfl rfl rfl ?_ rfl rfl rfl rfl rfl rfl rfl rfl rfl
  simp only [commit, build, Function.update_idem, Function.update_self]
  rfl

/-- Going back to the caller undoes all of a failed start but the PCB of slot 7. -/
theorem restore_build {s : Sched} (hf : s.flagger = false) (u : Nat) :
    { ({ s with userPage := u }.build maxProcessSet).restore s.running
        (({ s with userPage := u }.build maxProcessSet).link maxProcessSet).frame with
      flagger := false } = s.overflow := by
  rw [frame_build]
  exact Sched.ext rfl rfl rfl rfl rfl rfl hf.symm rfl rfl rfl rfl rfl rfl

/-! ## What an event can do -/

/-- What `c_execute` can do. -/
inductive Exec (fs : FileSystem) (command : Option (List UInt8)) (junk : List UInt8) (s : Sched) :
    Outcome → Sched → Prop
  | fail (h : resolves fs command junk = false) :
      Exec fs command junk s (.returned (-1)) s.initialised
  | start (h : resolves fs command junk = true) {i : Nat} (hi : s.freeIndex = some i) (eip : Nat) :
      Exec fs command junk s (.started eip) (s.initialised.start i)
  | overflow (h : resolves fs command junk = true) (hi : s.freeIndex = none) :
      Exec fs command junk s (.resumed 0) s.initialised.overflow

/-- The events that leave the scheduler alone, unless they launch a terminal. -/
def idle : Event → Bool
  | .key .. => true
  | .ctrl4Turn => true
  | .call _ => true
  | _ => false

/-- What an event can do. -/
inductive Step (fs : FileSystem) (s : Sched) : Event → Outcome → Sched → Prop
  | idle {e : Event} (he : idle e = true) (v : Int) : Step fs s e (.returned v) s
  | execute {command : Option (List UInt8)} {fr : Frame} {junk : List UInt8} {o : Outcome}
      {s' : Sched} (h : Exec fs command junk (s.enterWith fr) o s') :
      Step fs s (.execute command fr junk) o s'
  | exit {status : UInt8} {fr : Frame} {junk : List UInt8} (hr : s.running ≠ 0)
      (hp : (s.link s.running).parentPid ≠ 0) :
      Step fs s (.halt status fr junk) (.resumed status)
        (s.release.restore (s.link s.running).parentPid (s.link s.running).frame)
  | respawn {status : UInt8} {fr : Frame} {junk : List UInt8} {eip : Nat} {s' : Sched}
      (hr : s.running ≠ 0) (hp : (s.link s.running).parentPid = 0)
      (h : Exec fs (some shell) junk (s.release.enterWith fr) (.started eip) s') :
      Step fs s (.halt status fr junk) (.started eip) s'
  | vacate {status : UInt8} {fr : Frame} {junk : List UInt8} {o : Outcome} {s' : Sched}
      (hr : s.running ≠ 0) (hp : (s.link s.running).parentPid = 0)
      (h : Exec fs (some shell) junk (s.release.enterWith fr) o s') (ho : ∀ eip, o ≠ .started eip) :
      Step fs s (.halt status fr junk) (.resumed status)
        (s'.restore 0 (s'.link s.running).frame)
  | rest {fr : Frame} (hr : s.running = 0) : Step fs s (.tick fr) (.returned 0) s
  | tick {fr : Frame} (hr : s.running ≠ 0) {t : Term} (ht : s.nextTerm = some t) :
      Step fs s (.tick fr) (.returned 0) (s.tick t fr)
  | launch {status scan : UInt8} {fr : Frame} {junk : List UInt8} {o : Outcome} {s' : Sched}
      {t : Term} (ht : t ≠ 0) (hl : s.launchFlag t = false) (hf : s.freeIndex ≠ none)
      (h : Exec fs (some shell) junk (s.activate t fr) o s') :
      Step fs s (.key status scan fr junk) o s'

end Sched

namespace Kernel

/-! ## The scheduler's view of the parts of `c_execute` -/

/-- Output leaves the scheduler alone. -/
theorem sched_display (k : Kernel) {d : Display} (h : d.control = k.display.control) :
    { k with display := d }.sched = k.sched := by
  simp only [sched, Display.paging_of_control h, Display.activeTerminal_of_control h]

/-- So does a change to a slot's descriptors. -/
theorem sched_setSlot (k : Kernel) {p : Nat} {pcb : Pcb} (h : pcb.link = (k.proc.slots p).link) :
    (k.setSlot p pcb).sched = k.sched := by
  have hlink : Pcb.link ∘ Function.update k.proc.slots p pcb = Pcb.link ∘ k.proc.slots := by
    rw [Function.comp_update, h]
    exact Function.update_eq_self p _
  exact congrArg (fun l => { k.sched with link := l }) hlink

theorem sched_loadImage {fs : FileSystem} {inode eip : Nat} {k k' : Kernel}
    (h : k.loadImage fs inode = some (k', eip)) :
    k'.sched = { k.sched with userPage := userFrame k.proc.processCounter ||| flags } ∧
      k'.proc.processCounter = k.proc.processCounter := by
  obtain ⟨phys, rfl⟩ := loadImage_eq_some h
  refine ⟨?_, rfl⟩
  simp only [sched, Display.remapPaging, Paging.directory_remapPaging]

/-- The PCB filled in through the global pointer. -/
theorem sched_buildPcb {k : Kernel} {p : Nat} (hp : k.proc.processCounter = p) (hpos : 0 < p) :
    k.buildPcb.sched = k.sched.build p := by
  subst hp
  refine Sched.ext rfl rfl rfl ?_ rfl rfl rfl rfl rfl rfl rfl rfl rfl
  refine (Function.comp_update Pcb.link _ _ _).trans ?_
  rw [cPcb, if_pos hpos]
  rfl

/-- The last part of `c_execute` changes the process table only. -/
theorem commit_proc (k : Kernel) : k.commit = { k with proc := k.commit.proc } := by
  have hupdate (k : Kernel) (f : Pcb → Pcb) :
      k.updatePcb f = { k with proc := (k.updatePcb f).proc } := by
    unfold updatePcb
    split <;> rfl
  unfold commit
  simp only
  split
  · rw [hupdate k, hupdate]
    rfl
  · rw [hupdate k, hupdate]
    rfl

/-- The parent link, the terminal's entry and the stack top, all at once. -/
theorem commit_eq {k : Kernel} {p : Nat} (hp : k.proc.processCounter = p)
    (hpcb : k.proc.pcb = some p) : k.commit = { k with proc := { k.proc with
      slots := Function.update k.proc.slots p { k.proc.slots p with
        parentPid := k.sched.parent
        pid := p
        termNum := k.display.activeTerminal
        esp0 := stackTop p }
      termArr := Function.update k.proc.termArr k.display.activeTerminal
        ⟨p, true, k.activeEntry.view⟩
      tssEsp0 := stackTop p } } := by
  cases hf : (k.proc.termArr k.display.activeTerminal).flag with
  | false =>
    simp [commit, updatePcb, setActiveEntry, activeEntry, sched, Sched.parent, hf, hp, hpcb]
  | true =>
    simp [commit, updatePcb, setActiveEntry, activeEntry, sched, Sched.parent, Sched.running, hf,
      hp, hpcb]

theorem sched_commit {k : Kernel} {p : Nat} (hp : k.proc.processCounter = p)
    (hpcb : k.proc.pcb = some p) : k.commit.sched = k.sched.commit p := by
  rw [commit_eq hp hpcb]
  refine Sched.ext ?_ ?_ rfl ?_ rfl rfl rfl rfl rfl rfl rfl rfl rfl
  · exact Function.comp_update TermEntry.lastActivePro _ _ _
  · exact Function.comp_update TermEntry.flag _ _ _
  · exact Function.comp_update Pcb.link _ _ _

/-- Before the first `c_execute` the terminals are as `init_terms` sets them. -/
theorem sched_prepare {k : Kernel} (hq : k.sched.Quiet) (args : Option (List UInt8)) :
    (k.prepare args).sched = k.sched.initialised := by
  have hargs (p : Proc) :
      { k with proc := p.storeArgs args }.sched = { k with proc := p }.sched := by
    cases args <;> rfl
  rw [prepare, hargs]
  cases hi : k.proc.intiFlag with
  | true => exact Sched.ext rfl rfl rfl rfl rfl hi rfl rfl rfl rfl rfl rfl rfl
  | false =>
    refine Sched.ext (funext fun t => ?_) (funext fun t => ?_) rfl rfl rfl rfl rfl rfl rfl rfl rfl
      rfl rfl
    · exact (hq.last hi t).symm
    · exact (hq.flag hi t).symm

/-! ## `c_execute` and `c_halt` -/

/-- The first part of `c_halt`, outside the unwinding of a full table. -/
theorem haltRelease_of_quiet {k : Kernel} (hf : k.proc.flagger = false) :
    k.haltRelease.1.sched = k.sched.release ∧
      k.haltRelease.2 = ((k.sched.link k.running).parentPid, k.running) := by
  simp only [haltRelease, hf]
  refine ⟨Sched.ext ?_ ?_ rfl rfl rfl rfl rfl rfl rfl rfl rfl rfl rfl, rfl⟩
  · exact Function.comp_update TermEntry.lastActivePro _ _ _
  · refine (Function.comp_update TermEntry.flag _ _ _).trans ?_
    exact Function.update_eq_self k.display.activeTerminal _

theorem sched_haltRestore (k : Kernel) (p q : Nat) :
    (k.haltRestore p q).sched = k.sched.restore p (k.sched.link q).frame := by
  simp only [haltRestore, sched, Display.remapPaging, Paging.directory_remapPaging]
  rfl

/-- **A start.** -/
theorem sched_started {k : Kernel} {i : Nat} (hi : k.proc.freeIndex = some i)
    (phys : Nat → UInt8) : (k.loaded phys).buildPcb.commit.sched = k.sched.start i := by
  have hp : (k.loaded phys).proc.processCounter = i + 1 := by rw [loaded, chooseSlot_of_free hi]
  have hs : (k.loaded phys).sched = { k.sched with
      pidArr := Function.update k.sched.pidArr i true
      userPage := userFrame (i + 1) ||| flags } := by
    rw [loaded, chooseSlot_of_free hi]
    simp only [sched, Display.remapPaging, Paging.directory_remapPaging]
  rw [sched_commit (k := (k.loaded phys).buildPcb) hp (congrArg some hp),
    sched_buildPcb hp (Nat.succ_pos i), hs]
  exact k.sched.commit_build i

theorem sched_tooMany (k : Kernel) : k.tooMany.sched = { k.sched with flagger := true } :=
  sched_display { k with proc := { k.proc with flagger := true } }
    (Display.control_terminalWrite _ _)

/-- The way back of a full table, to the process whose call it was. -/
theorem sched_unwound (k : Kernel) : k.unwound.sched =
    { k.sched.restore k.running (k.sched.link maxProcessSet).frame with flagger := false } := by
  have hs : k.tooMany.unflagged.sched = { k.sched with flagger := false } :=
    congrArg (fun s : Sched => { s with flagger := false }) (sched_tooMany k)
  rw [unwound, sched_haltRestore, hs]
  rfl

/-- **A start that found no number.** -/
theorem sched_unstarted {k : Kernel} (hf : k.proc.flagger = false) (hi : k.proc.freeIndex = none)
    (phys : Nat → UInt8) : (k.loaded phys).buildPcb.unwound.sched = k.sched.overflow := by
  have hp : (k.loaded phys).proc.processCounter = maxProcessSet := by
    rw [loaded, chooseSlot_of_full hi]
  have hs : (k.loaded phys).sched =
      { k.sched with userPage := userFrame maxProcessSet ||| flags } := by
    rw [loaded, chooseSlot_of_full hi]
    simp only [sched, Display.remapPaging, Paging.directory_remapPaging]
  have hrun : (k.loaded phys).buildPcb.running = k.running := running_loaded k phys
  rw [sched_unwound, hrun, sched_buildPcb hp (by decide), hs]
  exact Sched.restore_build hf _

/-- **`c_execute` does to the scheduler what `Exec` says.** -/
theorem Executed.sched {fs : FileSystem} {command : Option (List UInt8)} {junk : List UInt8}
    {k k' : Kernel} {o : Outcome} (h : Executed fs command junk k o k') (hq : k.sched.Quiet) :
    Sched.Exec fs command junk k.sched o k'.sched := by
  have hprep := sched_prepare hq (argsOf command)
  have hfree := freeIndex_prepare k (argsOf command)
  cases h with
  | fail h =>
    rw [hprep]
    exact .fail h
  | start h hi eip phys =>
    rw [sched_started (hfree.trans hi), hprep]
    exact .start (s := k.sched) h hi eip
  | overflow h hi phys =>
    have hflag : (k.prepare (argsOf command)).proc.flagger = false :=
      (congrArg Sched.flagger hprep).trans hq.flagger
    rw [sched_unstarted hflag (hfree.trans hi), hprep]
    exact .overflow (s := k.sched) h hi

/-! ## The other system calls -/

theorem sched_cVidmap (screenStart : Nat) (k : Kernel) :
    (k.cVidmap screenStart).1.sched = k.sched := by
  unfold cVidmap
  split
  · rfl
  · refine Sched.ext rfl rfl rfl rfl rfl rfl rfl rfl rfl rfl ?_ rfl rfl
    exact k.display.paging.directory_mapVideo k.display.currentTerminal k.display.activeTerminal

/-- **No other system call touches the scheduler.** -/
theorem sched_call {fs : FileSystem} {c : Call} {k k' : Kernel} {r : Int × Option Buf}
    (h : k.call fs c = some (k', r)) : k'.sched = k.sched := by
  cases call_effect h with
  | same => rfl
  | descriptors p fds => exact sched_setSlot k rfl
  | clock p fds rtc => exact sched_setSlot k rfl
  | tick rtc => rfl
  | line => rfl
  | output => exact sched_display k (Display.control_terminalWrite _ _)
  | arguments _ getArgs => rfl
  | video screenStart => exact sched_cVidmap screenStart k

/-! ## The connection -/

theorem sched_switchTask (fr : Frame) (t : Term) (k : Kernel) :
    (k.switchTask fr t).sched = k.sched.tick t fr := by
  refine Sched.ext rfl rfl rfl rfl rfl rfl rfl rfl rfl rfl ?_ rfl rfl
  exact k.display.paging.directory_remapPaging _

theorem Quietly.sched {k k' : Kernel} (h : Quietly k k') : k'.sched = k.sched := by
  simp only [Kernel.sched, h.proc, h.cpu, Display.paging_of_control h.control,
    Display.activeTerminal_of_control h.control]

/-- **Whatever the kernel does is a step of the scheduler.** -/
theorem transition_sched {fs : FileSystem} {k k' : Kernel} {e : Event} {o : Outcome}
    (hq : k.sched.Quiet) (h : k.transition fs e = some (k', o)) :
    Sched.Step fs k.sched e o k'.sched := by
  have hrel := haltRelease_of_quiet hq.flagger
  have hexec {fr : Frame} {junk : List UInt8} {o : Outcome} {k₁ : Kernel} (hr : k.running ≠ 0)
      (h : Executed fs (some shell) junk { k.haltRelease.1 with cpu := fr } o k₁) :
      Sched.Exec fs (some shell) junk (k.sched.release.enterWith fr) o k₁.sched := by
    rw [← hrel.1]
    exact h.sched ((hrel.1 ▸ hq.release hr).enterWith fr)
  cases transition_moves h with
  | execute hx => exact .execute (hx.sched (hq.enterWith _))
  | exit hr hp =>
    rw [sched_haltRestore, hrel.1, hrel.2]
    rw [hrel.2] at hp
    exact .exit hr hp
  | respawn hr hp hx =>
    rw [hrel.2] at hp
    exact .respawn hr hp (hexec hr hx)
  | vacate hr hp hx ho =>
    rw [sched_haltRestore, hp, hrel.2]
    rw [hrel.2] at hp
    exact .vacate hr hp (hexec hr hx) ho
  | rest hr => exact .rest hr
  | tick hr ht =>
    rw [sched_switchTask]
    exact .tick (s := k.sched) hr ht
  | key hk =>
    rw [hk.sched]
    exact .idle rfl 0
  | switch t => exact .idle rfl 0
  | launch ht hl hf hx => exact .launch ht hl hf (hx.sched ⟨hq.flagger, hq.last, hq.flag⟩)
  | turn hk =>
    rw [hk.sched]
    exact .idle rfl 0
  | call hc =>
    rw [sched_call hc]
    exact .idle rfl _

end Kernel

end HarambeOs
