import HarambeOs.Launch

/-!
# Brackets — execute and halt match like call and return

`c_execute` keeps the caller's stack registers in the PCB of the process it starts, and `c_halt`
restores them from there.  The slot is used again by later processes, on any terminal, so what is in
it has to be compared with the call that made *this* process.  `History` keeps that apart from the
kernel: for each process number the last `c_execute` that started it, with the registers it was
called with and the process that called it.  A serial number tells the processes of one number
apart.

`execute_halt_bracket`: a halt goes back to the very call that started the process.
-/

namespace HarambeOs

/-- The call that started a process: its registers, the process that made it, and which one of that
number it was. -/
structure Birth where
  serial : Nat
  frame : Frame
  caller : Nat
  callerSerial : Nat

/-- The starts so far: how many there were, and the last one for each process number. -/
structure History where
  count : Nat
  born : Nat → Birth

namespace History

/-- Nothing started yet. -/
def empty : History := ⟨0, fun _ => ⟨0, ⟨0, 0⟩, 0, 0⟩⟩

/-- A start of process `p`. -/
def record (h : History) (p : Nat) (fr : Frame) (caller : Nat) : History :=
  ⟨h.count + 1, Function.update h.born p ⟨h.count + 1, fr, caller, (h.born caller).serial⟩⟩

/-- The registers a `c_execute` is called with, and the process that calls it; 0 stands for the
kernel, which starts a shell from `c_halt` and from the keyboard handler. -/
def callOf (running : Nat) : Event → Frame × Nat
  | .execute _ fr _ => (fr, running)
  | .halt _ fr _ => (fr, 0)
  | .key _ _ fr _ => (fr, 0)
  | _ => (⟨0, 0⟩, 0)

/-- The history after an event: process `p` runs after it. -/
def note (h : History) (running : Nat) (e : Event) (p : Nat) : Outcome → History
  | .started _ => h.record p (callOf running e).1 (callOf running e).2
  | _ => h

end History

/-! ## The PCBs hold the history -/

namespace Sched

variable {fs : FileSystem} {s s' : Sched} {h : History}

/-- The PCB of every live process holds the frame and the caller of the call that started it, and
the caller is still the process that made that call. -/
def Recorded (s : Sched) (h : History) : Prop :=
  ∀ i, s.pidArr i = true → (s.link (i + 1)).frame = (h.born (i + 1)).frame ∧
    (s.link (i + 1)).parentPid = (h.born (i + 1)).caller ∧
    (h.born (h.born (i + 1)).caller).serial = (h.born (i + 1)).callerSerial

/-- The parent of a live process is 0 or live. -/
theorem Sound.parent_live (hs : s.Sound) {i : Nat} (hi : s.pidArr i = true) :
    (s.link (i + 1)).parentPid = 0 ∨
      ∃ j, (s.link (i + 1)).parentPid = j + 1 ∧ s.pidArr j = true := by
  obtain ⟨c, hc⟩ := hs.forest
  obtain ⟨t, ht⟩ := (hc.live i).mp hi
  exact ((hc.family.chain t).parent_mem ht).imp_right hc.live_of_mem

theorem Sound.running_live (hs : s.Sound) :
    s.running = 0 ∨ ∃ j, s.running = j + 1 ∧ s.pidArr j = true := by
  obtain ⟨c, hc⟩ := hs.forest
  exact or_iff_not_imp_left.mpr fun hr => hc.live_of_mem (hc.running_mem hr)

/-- A number that is free is neither 0 nor the number of a live process. -/
theorem ne_of_free {i p : Nat} (hi : s.pidArr i = false)
    (hp : p = 0 ∨ ∃ j, p = j + 1 ∧ s.pidArr j = true) : p ≠ i + 1 := by
  rintro rfl
  rcases hp with hp | ⟨j, hj, hlive⟩
  · exact absurd hp (Nat.succ_ne_zero i)
  · rw [← Nat.succ_injective hj, hi] at hlive
    exact absurd hlive nofun

/-- A start is recorded in the PCB as it is in the history. -/
theorem Recorded.start (hr : s.Recorded h) (hs : s.Sound) {i : Nat} (hi : s.freeIndex = some i) :
    (s.start i).Recorded (h.record (i + 1) s.cpu s.running) := by
  obtain ⟨c, hc⟩ := hs.forest
  obtain ⟨hfree, -⟩ := freeIndex_eq_some hi
  have hborn {p : Nat} (hp : p ≠ i + 1) :
      (h.record (i + 1) s.cpu s.running).born p = h.born p := Function.update_of_ne hp _ _
  have hnew : (h.record (i + 1) s.cpu s.running).born (i + 1) =
      ⟨h.count + 1, s.cpu, s.running, (h.born s.running).serial⟩ := Function.update_self ..
  intro j hj
  rcases eq_or_ne j i with rfl | hne
  · rw [show (s.start j).link (j + 1) = ⟨j + 1, s.parent, s.active, s.cpu⟩ from
      Function.update_self .., hnew]
    exact ⟨rfl, hc.parent_eq, by rw [hborn (ne_of_free hfree hs.running_live)]⟩
  · have hj' : s.pidArr j = true := (Function.update_of_ne hne _ _).symm.trans hj
    have hp : j + 1 ≠ i + 1 := fun he => hne (Nat.succ_injective he)
    obtain ⟨hframe, hcaller, hserial⟩ := hr j hj'
    rw [show (s.start i).link (j + 1) = s.link (j + 1) from Function.update_of_ne hp .., hborn hp]
    refine ⟨hframe, hcaller, ?_⟩
    rw [hborn (hcaller ▸ ne_of_free hfree (hs.parent_live hj'))]
    exact hserial

/-- A process leaves; what is recorded of the others stays. -/
theorem Recorded.release (hr : s.Recorded h) : s.release.Recorded h := by
  intro j hj
  change Function.update s.pidArr _ false j = true at hj
  rcases eq_or_ne j ((s.link s.running).pid - 1) with rfl | hne
  · rw [Function.update_self] at hj
    exact absurd hj nofun
  · rw [Function.update_of_ne hne] at hj
    exact hr j hj

theorem Recorded.restore (hr : s.Recorded h) (p : Nat) (fr : Frame) : (s.restore p fr).Recorded h :=
  fun j hj => hr j hj

/-- Slot 7 is nobody's. -/
theorem Recorded.overflow (hr : s.Recorded h) (hs : s.Sound) : s.overflow.Recorded h := by
  obtain ⟨c, hc⟩ := hs.forest
  intro j hj
  obtain ⟨t, ht⟩ := (hc.live j).mp hj
  have h7 : j + 1 ≠ maxProcessSet := fun he => absurd (he ▸ hc.bound t _ ht) (by decide)
  rw [show s.overflow.link (j + 1) = s.link (j + 1) from Function.update_of_ne h7 ..]
  exact hr j hj

/-- **Every event keeps the PCBs and the history together.** -/
theorem Step.recorded {e : Event} {o : Outcome} (hstep : Step fs s e o s') (hs : s.Sound)
    (hr : s.Recorded h) : s'.Recorded (h.note s.running e s'.running o) := by
  cases hstep with
  | idle => exact hr
  | @execute _ fr _ _ _ hx =>
    have hs := (hs.enterWith fr).initialised
    cases hx with
    | fail => exact hr
    | start _ hi =>
      rw [running_start]
      exact Recorded.start (s := (s.enterWith fr).initialised) hr hs hi
    | overflow => exact Recorded.overflow (s := (s.enterWith fr).initialised) hr hs
  | exit hrun hp => exact hr.release.restore _ _
  | @respawn _ fr _ _ _ hrun hp hx =>
    have hs := ((hs.release hrun).enterWith fr).initialised
    cases hx with
    | start _ hi =>
      rw [running_start]
      have := Recorded.start (s := (s.release.enterWith fr).initialised) hr.release hs hi
      rwa [show (s.release.enterWith fr).initialised.running = 0 from
        s.running_release.trans hp] at this
  | @vacate _ fr _ _ _ hrun hp hx ho =>
    have hs := ((hs.release hrun).enterWith fr).initialised
    have hr : (s.release.enterWith fr).initialised.Recorded h := hr.release
    cases hx with
    | fail => exact hr.restore 0 _
    | start _ _ eip => exact absurd rfl (ho eip)
    | overflow => exact (hr.overflow hs).restore 0 _
  | rest => exact hr
  | tick => exact hr
  | @launch _ _ fr _ _ _ t ht hl hf hx =>
    have hs' := (hs.activate t fr).initialised
    cases hx with
    | fail => exact hr
    | start _ hi =>
      rw [running_start]
      have := Recorded.start (s := (s.activate t fr).initialised) hr hs' hi
      rwa [show (s.activate t fr).initialised.running = 0 from hs.last_eq_zero ht hl] at this
    | overflow _ hn => exact absurd hn hf

end Sched

/-! ## A halt returns to the call that started the process -/

namespace Kernel

variable {fs : FileSystem}

/-- The history after an event of the kernel. -/
def noteStart (fs : FileSystem) (k : Kernel) (e : Event) (k' : Kernel) (h : History) : History :=
  match k.transition fs e with
  | some (_, o) => h.note k.running e k'.running o
  | none => h

theorem recorded_of_run {b : Boot} {es : List Event} {k : Kernel} {h : History}
    (hrun : Runs.run (Runs.withGhost (Kernel.step fs) (noteStart fs)) (b.kernel, .empty) es =
      some (k, h)) : k.sched.Sound ∧ k.sched.Recorded h := by
  have hboot : b.kernel.sched.Recorded .empty := fun _ hi => (Bool.false_ne_true hi).elim
  refine Runs.run_invariant (I := fun r : Kernel × History => r.1.sched.Sound ∧
    r.1.sched.Recorded r.2) ?_ ⟨sound_boot b, hboot⟩ hrun
  rintro ⟨k, h⟩ e ⟨k', h'⟩ ⟨hs, hr⟩ hg
  obtain ⟨hk, rfl⟩ := Runs.withGhost_eq_some.mp hg
  obtain ⟨o, ho⟩ := step_eq_some.mp hk
  refine ⟨sound_step hs hk, ?_⟩
  rw [noteStart, ho]
  exact (transition_sched hs.quiet ho).recorded hs hr

/-- The registers, the running process, and what is mapped for it. -/
structure RunsAs (k : Kernel) (p : Nat) (fr : Frame) : Prop where
  cpu : k.cpu = fr
  running : k.running = p
  userPage : k.display.paging.directory (mb128 >>> entryIdx) = userFrame p ||| flags
  tssEsp0 : k.proc.tssEsp0 = stackTop p

/-- A halt with a parent always completes. -/
theorem halt_exit {k : Kernel} (hf : k.proc.flagger = false) (hr : k.running ≠ 0)
    (hp : (k.sched.link k.running).parentPid ≠ 0) (status : UInt8) (fr : Frame)
    (junk : List UInt8) :
    ∃ k', k.transition fs (.halt status fr junk) = some (k', .resumed status) ∧
      k'.sched = k.sched.release.restore (k.sched.link k.running).parentPid
        (k.sched.link k.running).frame := by
  obtain ⟨hrel, hret⟩ := haltRelease_of_quiet hf
  refine ⟨k.haltRelease.1.haltRestore (k.sched.link k.running).parentPid k.running, ?_, ?_⟩
  · rw [transition, if_neg hr, cHalt, cHaltWith, hret]
    exact if_neg hp
  · rw [sched_haltRestore, hrel]
    rfl

/-- A halt goes back into the `c_execute` call that started the process, and to the process that
made it. -/
theorem halt_resumes {b : Boot} {es : List Event} {k : Kernel} {h : History}
    (hrun : Runs.run (Runs.withGhost (Kernel.step fs) (noteStart fs)) (b.kernel, .empty) es =
      some (k, h)) (hr : k.running ≠ 0) (hp : (k.proc.slots k.running).parentPid ≠ 0)
    (status : UInt8) (fr : Frame) (junk : List UInt8) :
    ∃ k', k.transition fs (.halt status fr junk) = some (k', .resumed status) ∧
      k'.RunsAs (h.born k.running).caller (h.born k.running).frame ∧
      (h.born k'.running).serial = (h.born k.running).callerSerial ∧
      k'.display.activeTerminal = k.display.activeTerminal := by
  obtain ⟨hs, hrec⟩ := recorded_of_run hrun
  obtain ⟨k', hk', hs'⟩ := halt_exit hs.quiet.flagger hr hp status fr junk
  obtain ⟨i, hi, hlive⟩ := hs.running_live.resolve_left hr
  obtain ⟨hframe, hcaller, hserial⟩ := hrec i hlive
  rw [show k.running = i + 1 from hi] at hs' ⊢
  rw [hframe, hcaller] at hs'
  have hrunning : k'.running = (h.born (i + 1)).caller := by
    refine (congrArg Sched.running hs').trans (k.sched.running_release.trans ?_)
    rw [hi, hcaller]
  refine ⟨k', hk', ?_, by rw [hrunning, hserial], congrArg Sched.active hs'⟩
  exact ⟨congrArg Sched.cpu hs', hrunning, congrArg Sched.userPage hs', congrArg Sched.tssEsp0 hs'⟩

/-- **Execute and halt bracket.**  In every state reached, when a process with a parent halts, the
registers restored are those of the `c_execute` that started it, the process that runs then is the
one that made that call, and the user page and the stack top are that process's.  A `c_execute` that
finds no free number returns to its own caller in the same way. -/
theorem execute_halt_bracket (fs : FileSystem) (b : Boot) (es : List Event) (k : Kernel)
    (h : History) (hrun : Runs.run (Runs.withGhost (Kernel.step fs) (noteStart fs))
      (b.kernel, .empty) es = some (k, h)) :
    (∀ status fr junk, k.running ≠ 0 → (k.proc.slots k.running).parentPid ≠ 0 →
      ∃ k', k.step fs (.halt status fr junk) = some k' ∧
        k'.RunsAs (h.born k.running).caller (h.born k.running).frame ∧
        (h.born k'.running).serial = (h.born k.running).callerSerial ∧
        k'.display.activeTerminal = k.display.activeTerminal) ∧
      ∀ command fr junk, resolves fs command junk = true → k.proc.freeIndex = none →
        (∀ k', k.step fs (.execute command fr junk) = some k' →
          k'.RunsAs k.running fr ∧ k'.display.activeTerminal = k.display.activeTerminal) ∧
        (k.running ≠ 0 → (∀ inode, Fits fs inode) →
          ∃ k', k.step fs (.execute command fr junk) = some k') := by
  obtain ⟨hs, -⟩ := recorded_of_run hrun
  refine ⟨fun status fr junk hr hp => ?_, fun command fr junk hres hfree =>
    ⟨fun k' hk => ?_, fun hr hfits => ?_⟩⟩
  · obtain ⟨k', hk', hresumes⟩ := halt_resumes hrun hr hp status fr junk
    exact ⟨k', step_eq_some.mpr ⟨_, hk'⟩, hresumes⟩
  · obtain ⟨o, ho⟩ := step_eq_some.mp hk
    have hstep := transition_sched hs.quiet ho
    generalize hs' : k'.sched = s' at hstep
    cases hstep with
    | execute hx =>
      cases hx with
      | fail hn => exact absurd (hn.symm.trans hres) nofun
      | start _ hi => exact absurd (hi.symm.trans hfree) nofun
      | overflow =>
        exact ⟨⟨congrArg Sched.cpu hs', congrArg Sched.running hs', congrArg Sched.userPage hs',
          congrArg Sched.tssEsp0 hs'⟩, congrArg Sched.active hs'⟩
    | idle he => exact absurd he Bool.false_ne_true
  · obtain ⟨k', o, ho⟩ := execute_full hfits hs.quiet hr hfree hres fr
    exact ⟨k', step_eq_some.mpr ⟨o, ho⟩⟩

/-- Two shells on the first terminal, the second started by the first with registers `⟨3, 4⟩`. -/
theorem run_twoShells :
    ∃ k h, Runs.run (Runs.withGhost (Kernel.step shellDisk) (noteStart shellDisk))
        (Boot.zero.kernel, .empty)
        [.execute (some shell) ⟨1, 2⟩ [], .execute (some shell) ⟨3, 4⟩ []] = some (k, h) ∧
      k.running = 2 ∧ (k.proc.slots k.running).parentPid = 1 ∧
      (h.born k.running).frame = ⟨3, 4⟩ ∧ (h.born k.running).caller = 1 := by
  have hrun : (Runs.run (Runs.withGhost (Kernel.step shellDisk) (noteStart shellDisk))
      (Boot.zero.kernel, .empty)
      [.execute (some shell) ⟨1, 2⟩ [], .execute (some shell) ⟨3, 4⟩ []]).map
        (fun r => (r.1.running, (r.1.proc.slots r.1.running).parentPid,
          (r.2.born r.1.running).frame, (r.2.born r.1.running).caller)) =
      some (2, 1, ⟨3, 4⟩, 1) := by
    decide +kernel
  obtain ⟨⟨k, h⟩, hk, hr⟩ := Option.map_eq_some_iff.mp hrun
  exact ⟨k, h, hk, by simpa only [Prod.mk.injEq] using hr⟩

/-- The second process of the first terminal goes back to the first, whose registers were
`⟨3, 4⟩`. -/
theorem execute_halt_bracket_two :
    ∃ k h, Runs.run (Runs.withGhost (Kernel.step shellDisk) (noteStart shellDisk))
        (Boot.zero.kernel, .empty)
        [.execute (some shell) ⟨1, 2⟩ [], .execute (some shell) ⟨3, 4⟩ []] = some (k, h) ∧
      k.running = 2 ∧ (h.born 2).frame = ⟨3, 4⟩ ∧
        ∃ k', k.step shellDisk (.halt 0 ⟨5, 6⟩ []) = some k' ∧ k'.RunsAs 1 ⟨3, 4⟩ := by
  obtain ⟨k, h, hk, hr, hp, hframe, hcaller⟩ := run_twoShells
  obtain ⟨k', hk', hruns, -⟩ := (execute_halt_bracket shellDisk Boot.zero _ k h hk).1 0 ⟨5, 6⟩ []
    (by rw [hr]; decide) (by rw [hp]; decide)
  rw [hframe, hcaller] at hruns
  exact ⟨k, h, hk, hr, hr ▸ hframe, k', hk', hruns⟩

/-! ## The value of the call -/

/-- The end of `c_execute`, from the label `special` on.  `c_halt` jumps there with the status in
`eax`, and the statement there is `return 0`. -/
def special (_eax : Nat) : Int := 0

/-- The value a `c_execute` call gives its caller, if it returns. -/
def callValue : Outcome → Option Int
  | .returned value => some value
  | .started _ => none
  | .resumed status => some (special status.toNat)

/-- **The status of a halt.**  In every state reached, when a process with a parent halts, the call
that started it returns to the process that made it, and the value of the call is the status of the
halt only if that is 0. -/
theorem halt_status_iff (fs : FileSystem) (b : Boot) (es : List Event) (k : Kernel) (h : History)
    (hrun : Runs.run (Runs.withGhost (Kernel.step fs) (noteStart fs)) (b.kernel, .empty) es =
      some (k, h)) (hr : k.running ≠ 0) (hp : (k.proc.slots k.running).parentPid ≠ 0)
    (status : UInt8) (fr : Frame) (junk : List UInt8) :
    ∃ k' o, k.transition fs (.halt status fr junk) = some (k', o) ∧
      k'.RunsAs (h.born k.running).caller (h.born k.running).frame ∧
      (callValue o = some (status.toNat : Int) ↔ status = 0) := by
  obtain ⟨k', hk', hruns, -⟩ := halt_resumes hrun hr hp status fr junk
  refine ⟨k', _, hk', hruns, ?_⟩
  rw [callValue, special, Option.some.injEq, ← UInt8.toNat_inj, UInt8.toNat_zero]
  omega

/-- A process started by the first shell halts with 0, and the shell's call returns 0. -/
theorem halt_status_zero :
    ∃ k h, Runs.run (Runs.withGhost (Kernel.step shellDisk) (noteStart shellDisk))
        (Boot.zero.kernel, .empty)
        [.execute (some shell) ⟨1, 2⟩ [], .execute (some shell) ⟨3, 4⟩ []] = some (k, h) ∧
      ∃ k' o, k.transition shellDisk (.halt 0 ⟨5, 6⟩ []) = some (k', o) ∧ k'.RunsAs 1 ⟨3, 4⟩ ∧
        callValue o = some 0 := by
  obtain ⟨k, h, hk, hr, hp, hframe, hcaller⟩ := run_twoShells
  obtain ⟨k', o, hk', hruns, hvalue⟩ := halt_status_iff shellDisk Boot.zero _ k h hk
    (by rw [hr]; decide) (by rw [hp]; decide) 0 ⟨5, 6⟩ []
  rw [hframe, hcaller] at hruns
  exact ⟨k, h, hk, k', o, hk', hruns, hvalue.mpr rfl⟩

/-- It halts with 1, and the shell's call returns 0. -/
theorem halt_status_lost :
    ∃ k h, Runs.run (Runs.withGhost (Kernel.step shellDisk) (noteStart shellDisk))
        (Boot.zero.kernel, .empty)
        [.execute (some shell) ⟨1, 2⟩ [], .execute (some shell) ⟨3, 4⟩ []] = some (k, h) ∧
      ∃ k' o, k.transition shellDisk (.halt 1 ⟨5, 6⟩ []) = some (k', o) ∧ k'.RunsAs 1 ⟨3, 4⟩ ∧
        callValue o = some 0 := by
  obtain ⟨k, h, hk, hr, hp, hframe, hcaller⟩ := run_twoShells
  obtain ⟨k', hk', hruns, -⟩ :=
    halt_resumes hk (by rw [hr]; decide) (by rw [hp]; decide) 1 ⟨5, 6⟩ []
  rw [hframe, hcaller] at hruns
  exact ⟨k, h, hk, k', _, hk', hruns, rfl⟩

end Kernel

end HarambeOs
