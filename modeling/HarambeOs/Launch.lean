import HarambeOs.Forest
import Mathlib

/-!
# Launch — with a loadable shell, every launch finds a number and succeeds

When `"shell"` resolves to an executable that fits the user page, a `c_execute` of it that finds a
free process number starts it (`execute_shell`).  The shells that the kernel starts by itself always
find one: `c_halt` has just freed the number of the process it replaces, and a terminal switch is
refused when none is free.  So a terminal that was launched never runs out of processes (`Staffed`).
-/

namespace HarambeOs

/-- What is read of a file never reaches past the user page. -/
def Fits (fs : FileSystem) (inode : Nat) : Prop :=
  ∀ offset length bytes, fs.readData inode offset length = some bytes →
    bytes.length ≤ mb132 - progImg

/-- `"shell"` is an executable that fits the user page, whatever was on the stack. -/
def ShellLoadable (fs : FileSystem) : Prop :=
  ∀ junk, ∃ inode, findProgram fs shell junk = some inode ∧ Fits fs inode

variable {fs : FileSystem}

theorem parseCommand_shell : parseCommand shell = (shell, none) := by decide

theorem ShellLoadable.resolves (h : ShellLoadable fs) (junk : List UInt8) :
    HarambeOs.resolves fs (some shell) junk = true := by
  obtain ⟨inode, hfind, -⟩ := h junk
  rw [HarambeOs.resolves, Option.any_some, parseCommand_shell, hfind]
  rfl

theorem Fits.length_le {inode : Nat} (h : Fits fs inode) (offset length : Nat) :
    ((fs.readData inode offset length).getD []).length ≤ mb132 - progImg := by
  cases hr : fs.readData inode offset length with
  | none => exact Nat.zero_le _
  | some bytes => exact h _ _ _ hr

namespace Kernel

/-- The user page of process `p` from the program image on. -/
theorem maps_user (pg : Paging) (p : Nat) {n : Nat} (h : n ≤ mb132 - progImg) :
    MappedMemory.Maps (pg.remapPaging (userFrame p)).translate progImg
      (userFrame p + progImg % mb4) n := by
  intro i hi
  rw [mb132, progImg] at h
  rw [translate_user pg p (by rw [mb128, progImg]; omega) (by rw [mb132, progImg]; omega)]
  exact congrArg some (by rw [progImg, mb4]; omega)

/-- Bytes that fit the user page can be stored there. -/
theorem readInto_user {d : Display} {pg : Paging} {p : Nat}
    (hd : d.paging = pg.remapPaging (userFrame p)) {bytes : List UInt8}
    (h : bytes.length ≤ mb132 - progImg) :
    ∃ d', d.readInto progImg bytes = some d' ∧ d'.paging = d.paging := by
  refine ⟨_, if_pos fun i hi => ?_, rfl⟩
  rw [hd, maps_user pg p h i hi]
  rfl

theorem loadImage_of_fits {inode : Nat} (h : Fits fs inode) (k : Kernel) :
    ∃ k' eip, k.loadImage fs inode = some (k', eip) := by
  obtain ⟨d₁, h₁, hpg⟩ :=
    readInto_user (d := k.display.remapPaging (userFrame k.proc.processCounter)) rfl
      (h.length_le entryOffset b4)
  obtain ⟨d₂, h₂, -⟩ := readInto_user (d := d₁) hpg (h.length_le 0 mb4)
  refine ⟨{ k with display := d₂ }, d₁.load32 progImg, Option.bind_eq_some_iff.mpr ⟨d₁, h₁, ?_⟩⟩
  exact Option.map_eq_some_iff.mpr ⟨d₂, h₂, rfl⟩

/-- A `c_execute` of a program that finds a free number loads it and starts it. -/
theorem execute_of_free {c junk : List UInt8} {inode i : Nat} {k : Kernel}
    (hfind : findProgram fs (parseCommand c).1 junk = some inode) (hi : k.proc.freeIndex = some i)
    (fr : Frame) :
    let k₀ := { k with cpu := fr }.prepare (parseCommand c).2
    k.execute fs (some c) fr junk =
      (loadImage fs inode { k₀ with proc := k₀.proc.chooseSlot.1 }).map fun r =>
        (r.1.buildPcb.commit, .started r.2) := by
  rw [execute, callDepth, cExecute, cExecuteWith]
  simp only [hfind]
  exact startProgram_of_free ((freeIndex_prepare _ _).trans hi)

/-- **A shell starts where a number is free.** -/
theorem execute_shell (h : ShellLoadable fs) {k : Kernel} (hfree : k.sched.freeIndex ≠ none)
    (fr : Frame) (junk : List UInt8) :
    ∃ k' eip, k.execute fs (some shell) fr junk = some (k', .started eip) := by
  obtain ⟨inode, hfind, hfits⟩ := h junk
  obtain ⟨i, hi⟩ := Option.ne_none_iff_exists'.mp hfree
  let k₀ := { k with cpu := fr }.prepare (parseCommand shell).2
  obtain ⟨k₁, eip, hload⟩ := loadImage_of_fits hfits { k₀ with proc := k₀.proc.chooseSlot.1 }
  refine ⟨k₁.buildPcb.commit, eip, ?_⟩
  have hfind' : findProgram fs (parseCommand shell).1 junk = some inode := by
    rwa [parseCommand_shell]
  rw [execute_of_free hfind' hi, hload]
  rfl

/-- A `c_execute` that finds the table full comes back to the process that made it. -/
theorem execute_full (hfits : ∀ inode, Fits fs inode) {k : Kernel} (hq : k.sched.Quiet)
    (hr : k.running ≠ 0) (hfree : k.sched.freeIndex = none) {command : Option (List UInt8)}
    {junk : List UInt8} (hres : resolves fs command junk = true) (fr : Frame) :
    ∃ k' o, k.execute fs command fr junk = some (k', o) := by
  obtain ⟨c, rfl⟩ : ∃ c, command = some c := by
    refine Option.ne_none_iff_exists'.mp ?_
    rintro rfl
    exact absurd hres nofun
  obtain ⟨inode, hfind⟩ := Option.isSome_iff_exists.mp hres
  let k₀ := { k with cpu := fr }.prepare (parseCommand c).2
  have hprep : k₀.sched = (k.sched.enterWith fr).initialised :=
    sched_prepare (k := { k with cpu := fr }) (hq.enterWith fr) _
  have hi₀ : k₀.sched.freeIndex = none := by
    rw [hprep]
    exact hfree
  obtain ⟨k₁, eip, hload⟩ :=
    loadImage_of_fits (hfits inode) { k₀ with proc := k₀.proc.chooseSlot.1 }
  have hrun : k₁.buildPcb.tooMany.running = k.running := by
    obtain ⟨phys, rfl⟩ := loadImage_chosen hload
    exact (running_tooMany _).trans ((running_loaded k₀ phys).trans (congrArg Sched.running hprep))
  rw [execute, callDepth, cExecute, cExecuteWith]
  simp only [hfind]
  rw [startProgram_of_full hi₀, hload]
  refine ⟨_, _, (if_neg ?_).trans rfl⟩
  exact fun h0 => hr (hrun.symm.trans h0)

end Kernel

/-! ## No launched terminal runs out of processes -/

namespace Sched

variable {s s' : Sched}

/-- A terminal whose flag is set has a process. -/
def Staffed (s : Sched) : Prop := ∀ t, s.flag t = true → s.last t ≠ 0

/-- A start gives its own terminal a process. -/
theorem staffed_start {i : Nat} (h : ∀ t, t ≠ s.active → s.flag t = true → s.last t ≠ 0) :
    (s.start i).Staffed := by
  intro t hf
  rcases eq_or_ne t s.active with rfl | hne
  · rw [show (s.start i).last s.active = i + 1 from Function.update_self ..]
    exact Nat.succ_ne_zero i
  · rw [show (s.start i).last t = s.last t from Function.update_of_ne hne ..]
    exact h t hne ((Function.update_of_ne hne _ _).symm.trans hf)

theorem Exec.staffed {command : Option (List UInt8)} {junk : List UInt8} {o : Outcome}
    (h : Exec fs command junk s o s') (hs : s.Staffed) : s'.Staffed := by
  cases h with
  | fail => exact hs
  | start => exact staffed_start fun t _ => hs t
  | overflow => exact hs

/-- The shell that replaces a halted base process starts. -/
theorem Exec.started_of_release {junk : List UInt8} {fr : Frame} {o : Outcome}
    (hshell : ShellLoadable fs) (hs : s.Sound) (hr : s.running ≠ 0)
    (h : Exec fs (some shell) junk (s.release.enterWith fr) o s') :
    ∃ i eip, o = .started eip ∧ s' = (s.release.enterWith fr).initialised.start i := by
  obtain ⟨c, hc⟩ := hs.forest
  cases h with
  | fail hn => exact absurd (hn.symm.trans (hshell.resolves junk)) nofun
  | @start _ i _ eip => exact ⟨i, eip, rfl, rfl⟩
  | overflow _ hn => exact absurd hn (hc.freeIndex_release hr)

theorem Step.staffed {e : Event} {o : Outcome} (hshell : ShellLoadable fs) (hsound : s.Sound)
    (h : Step fs s e o s') (hs : s.Staffed) : s'.Staffed := by
  cases h with
  | idle => exact hs
  | execute h => exact h.staffed hs
  | exit hr hp =>
    intro t hf
    rcases eq_or_ne t s.active with rfl | hne
    · rw [show (s.release.restore _ _).last s.active = _ from Function.update_self ..]
      exact hp
    · rw [show (s.release.restore _ _).last t = s.last t from Function.update_of_ne hne ..]
      exact hs t hf
  | respawn hr hp h =>
    obtain ⟨i, eip, -, rfl⟩ := h.started_of_release hshell hsound hr
    refine staffed_start fun t hne hf => ?_
    rw [show (s.release.enterWith _).initialised.last t = s.last t from
      Function.update_of_ne hne ..]
    exact hs t hf
  | vacate hr hp h ho =>
    obtain ⟨i, eip, rfl, -⟩ := h.started_of_release hshell hsound hr
    exact absurd rfl (ho eip)
  | rest => exact hs
  | tick => exact hs
  | launch ht hl hf h => exact h.staffed hs

end Sched

/-! ## The process table -/

namespace Kernel

/-- The processes of each terminal, last one first, as the globals of `system_calls.c` hold them. -/
structure ProcessForest (k : Kernel) (c : Term → List Nat) : Prop where
  chain : ∀ t, ParentChain (fun p => (k.proc.slots p).parentPid) 0
    (k.proc.termArr t).lastActivePro (c t)
  nodup : ∀ t, (c t).Nodup
  disjoint : ∀ t u, t ≠ u → (c t).Disjoint (c u)
  live : ∀ p, p ≠ 0 → (k.proc.pidArr (p - 1) = true ↔ ∃ t, p ∈ c t)
  atMostSix : (c 0 ++ c 1 ++ c 2).length ≤ 6
  own : ∀ t, ∀ p ∈ c t, (k.proc.slots p).pid = p ∧ (k.proc.slots p).termNum = t
  flag : ∀ t, (k.proc.termArr t).flag = true ↔ c t ≠ []

/-- The chains together hold six numbers at most. -/
theorem length_le_of_forest {s : Sched} {c : Term → List Nat} (h : s.Forest c) :
    (c 0 ++ c 1 ++ c 2).length ≤ 6 := by
  have hnodup : (c 0 ++ c 1 ++ c 2).Nodup := by
    refine (((h.family.nodup 0).append (h.family.nodup 1) ?_)).append (h.family.nodup 2) ?_
    · exact h.family.disjoint 0 1 (by decide)
    · refine List.disjoint_append_left.mpr ⟨?_, ?_⟩
      · exact h.family.disjoint 0 2 (by decide)
      · exact h.family.disjoint 1 2 (by decide)
  have hsub : c 0 ++ c 1 ++ c 2 ⊆ List.range' 1 6 := by
    intro p hp
    have hmem : ∃ t, p ∈ c t := by
      rcases List.mem_append.mp hp with hp | hp
      · rcases List.mem_append.mp hp with hp | hp
        · exact ⟨0, hp⟩
        · exact ⟨1, hp⟩
      · exact ⟨2, hp⟩
    obtain ⟨t, ht⟩ := hmem
    have hpos := h.ne_zero ht
    have hle : p ≤ 6 := h.bound t p ht
    exact List.mem_range'_1.mpr ⟨by omega, by omega⟩
  exact (List.subperm_of_subset hnodup hsub).length_le

theorem processForest_of_sound {k : Kernel} (h : k.sched.Sound) (hs : k.sched.Staffed) :
    ∃ c, k.ProcessForest c := by
  obtain ⟨c, hc⟩ := h.forest
  refine ⟨c, hc.family.chain, hc.family.nodup, hc.family.disjoint, fun p hp => ?_,
    length_le_of_forest hc, hc.own, fun t => ?_⟩
  · rw [show k.proc.pidArr (p - 1) = true ↔ _ from hc.live (p - 1),
      Nat.sub_add_cancel (Nat.pos_of_ne_zero hp)]
  · rw [Ne, (hc.family.chain t).eq_nil_iff]
    refine ⟨hs t, fun hne => ?_⟩
    by_contra hf
    exact hne (hc.flag t (Bool.eq_false_iff.mpr hf))

theorem staffed_of_run (hshell : ShellLoadable fs) {b : Boot} {es : List Event} {k : Kernel}
    (h : Runs.run (Kernel.step fs) b.kernel es = some k) : k.sched.Sound ∧ k.sched.Staffed := by
  refine Runs.run_invariant (I := fun k => k.sched.Sound ∧ k.sched.Staffed) ?_
    ⟨sound_boot b, fun t ht => absurd ht nofun⟩ h
  rintro k e k' ⟨hs, hst⟩ hk
  obtain ⟨o, ho⟩ := step_eq_some.mp hk
  exact ⟨sound_step hs hk, (transition_sched hs.quiet ho).staffed hshell hs hst⟩

/-- The base process of a terminal is replaced when it halts. -/
theorem halt_started (hshell : ShellLoadable fs) {k : Kernel} (hs : k.sched.Sound)
    (hr : k.running ≠ 0) (hp : (k.proc.slots k.running).parentPid = 0) (status : UInt8) (fr : Frame)
    (junk : List UInt8) :
    ∃ k' eip, k.transition fs (.halt status fr junk) = some (k', .started eip) := by
  obtain ⟨c, hc⟩ := hs.forest
  obtain ⟨hrel, hret⟩ := haltRelease_of_quiet hs.quiet.flagger
  have hfree : k.haltRelease.1.sched.freeIndex ≠ none := by
    rw [hrel]
    exact hc.freeIndex_release hr
  obtain ⟨k', eip, hk'⟩ := execute_shell hshell hfree fr junk
  refine ⟨k', eip, ?_⟩
  have hp' : (k.sched.link k.running).parentPid = 0 := hp
  rw [transition, if_neg hr, cHalt, cHaltWith, hret, hk']
  exact if_pos hp'

/-- The first switch to a terminal that is not refused starts a shell there. -/
theorem laterTerminalSwitch_started (hshell : ShellLoadable fs) {k : Kernel} {t : Term}
    (hl : k.proc.launchFlag t = false) (hr : k.refuses t = false) (fr : Frame) (junk : List UInt8) :
    ∃ k' eip, k.laterTerminalSwitch fs t fr junk = some (k', .started eip) := by
  have hfree : k.sched.freeIndex ≠ none := by
    intro hn
    have hc : k.proc.universalCount = false := congrArg Option.isSome hn
    rw [refuses, hc, hl] at hr
    cases hr
  rw [laterTerminalSwitch, hr, if_neg Bool.false_ne_true]
  simp only [hl, if_neg Bool.false_ne_true]
  refine execute_shell hshell ?_ fr junk
  exact hfree

/-- **The process table.**  With a loadable shell, the parent links spell out three disjoint chains
in every state reached, the table of numbers and the flags agree with them, and the shells that the
kernel starts by itself start. -/
theorem processForest (hshell : ShellLoadable fs) (b : Boot) (es : List Event) (k : Kernel)
    (h : Runs.run (Kernel.step fs) b.kernel es = some k) :
    (∃ c, k.ProcessForest c) ∧
      (∀ status fr junk, k.running ≠ 0 → (k.proc.slots k.running).parentPid = 0 →
        ∃ k' eip, k.transition fs (.halt status fr junk) = some (k', .started eip)) ∧
      ∀ t fr junk, k.proc.launchFlag t = false → k.refuses t = false →
        ∃ k' eip, k.laterTerminalSwitch fs t fr junk = some (k', .started eip) := by
  obtain ⟨hs, hst⟩ := staffed_of_run hshell h
  refine ⟨processForest_of_sound hs hst, fun status fr junk hr hp => ?_, fun t fr junk hl hr => ?_⟩
  · exact halt_started hshell hs hr hp status fr junk
  · exact laterTerminalSwitch_started hshell hl hr fr junk

end Kernel

theorem shellLoadable_shellDisk : ShellLoadable shellDisk := by
  refine fun junk => ⟨0, rfl, fun offset length bytes hb => ?_⟩
  rw [← Option.some.inj hb, List.length_take]
  exact (Nat.min_le_right _ _).trans (by decide)

/-- Two processes on the first terminal, and one on the second. -/
def threeProcesses : List Event :=
  [.execute (some shell) ⟨1, 2⟩ [], .execute (some shell) ⟨3, 4⟩ [], .key 1 alt ⟨5, 6⟩ [],
    .key 1 f2 ⟨7, 8⟩ []]

theorem processForest_threeProcesses :
    ∃ k, Runs.run (Kernel.step shellDisk) Boot.zero.kernel threeProcesses = some k ∧
      ∃ c, k.ProcessForest c := by
  have hrun : (Runs.run (Kernel.step shellDisk) Boot.zero.kernel threeProcesses).isSome = true := by
    decide +kernel
  obtain ⟨k, hk⟩ := Option.isSome_iff_exists.mp hrun
  exact ⟨k, hk, (Kernel.processForest shellLoadable_shellDisk Boot.zero _ k hk).1⟩

end HarambeOs
