import HarambeOs.Library.ParentChain
import HarambeOs.Scheduler

/-!
# Forest — the processes of the three terminals are three stacks

The parent links of the PCBs spell out one chain for each terminal, from its last active process
down to 0.  `Forest` says that the chains are disjoint and without repetition, that the table of
process numbers marks exactly their members, and that each PCB names its own process and terminal.
It is kept by every event (`Step.sound`), and so holds in every state the kernel reaches
(`Kernel.sound_of_run`).

Two things are needed on the way and are carried along in `Sound`: the flags before the first
`c_execute` (`Quiet`), and that a terminal nobody switched to has no process.
-/

namespace HarambeOs

namespace Sched

/-- Where the parent links go. -/
def parentOf (s : Sched) (p : Nat) : Nat := (s.link p).parentPid

/-- The processes of each terminal, last one first. -/
structure Forest (s : Sched) (c : Term → List Nat) : Prop where
  family : ChainFamily s.parentOf 0 s.last c
  live : ∀ i, s.pidArr i = true ↔ ∃ t, i + 1 ∈ c t
  bound : ∀ t, ∀ p ∈ c t, p ≤ findUniversal
  own : ∀ t, ∀ p ∈ c t, (s.link p).pid = p ∧ (s.link p).termNum = t
  flag : ∀ t, s.flag t = false → s.last t = 0

/-- What every event keeps. -/
structure Sound (s : Sched) : Prop where
  quiet : s.Quiet
  forest : ∃ c, s.Forest c
  fresh : ∀ t, t ≠ 0 → s.launchFlag t = false → s.flag t = false ∧ s.active ≠ t

variable {fs : FileSystem} {s s' : Sched} {c : Term → List Nat} {fr : Frame} {t : Term}

theorem freeIndex_eq_some {i : Nat} (h : s.freeIndex = some i) :
    s.pidArr i = false ∧ i < findUniversal := by
  refine ⟨?_, List.mem_range.mp (List.mem_of_find?_eq_some h)⟩
  simpa using List.find?_some h

theorem freeIndex_ne_none {i : Nat} (hi : i < findUniversal) (h : s.pidArr i = false) :
    s.freeIndex ≠ none := by
  intro hn
  have := List.find?_eq_none.mp hn i (List.mem_range.mpr hi)
  simp [h] at this

/-- A process started now gets the running one as its parent, also on a terminal without a flag. -/
theorem parent_eq_running (h : ∀ t, s.flag t = false → s.last t = 0) : s.parent = s.running := by
  unfold parent
  split
  · rfl
  · next hf => exact (h s.active (Bool.eq_false_iff.mpr hf)).symm

namespace Forest

theorem parent_eq (h : s.Forest c) : s.parent = s.last s.active := parent_eq_running h.flag

theorem ne_zero (h : s.Forest c) {p : Nat} (hp : p ∈ c t) : p ≠ 0 := by
  rintro rfl
  exact (h.family.chain t).root_notMem hp

/-- Every process on a chain is marked in the table. -/
theorem live_of_mem (h : s.Forest c) {p : Nat} (hp : p ∈ c t) :
    ∃ j, p = j + 1 ∧ s.pidArr j = true := by
  obtain ⟨j, rfl⟩ := Nat.exists_eq_succ_of_ne_zero (h.ne_zero hp)
  exact ⟨j, rfl, (h.live j).mpr ⟨t, hp⟩⟩

theorem running_mem (h : s.Forest c) (hr : s.running ≠ 0) : s.running ∈ c s.active :=
  (h.family.chain s.active).mem_self hr

/-- **A start pushes the new process on its terminal's chain.** -/
theorem start (h : s.Forest c) {i : Nat} (hi : s.freeIndex = some i) :
    (s.start i).Forest (Function.update c s.active ((i + 1) :: c s.active)) := by
  obtain ⟨hfree, hlt⟩ := freeIndex_eq_some hi
  have hnew (u : Term) : i + 1 ∉ c u := by
    intro hu
    have := (h.live i).mpr ⟨u, hu⟩
    simp [hfree] at this
  have hparent : (s.start i).parentOf =
      Function.update s.parentOf (i + 1) (s.last s.active) := by
    rw [← h.parent_eq]
    exact Function.comp_update Link.parentPid _ _ _
  have hlink {p : Nat} (hp : p ≠ i + 1) : (s.start i).link p = s.link p :=
    Function.update_of_ne hp _ _
  refine ⟨?_, fun j => ?_, fun u p hp => ?_, fun u p hp => ?_, fun u hu => ?_⟩
  · rw [hparent]
    exact h.family.push (Nat.succ_ne_zero i) hnew s.active
  · change Function.update s.pidArr i true j = true ↔ _
    rcases eq_or_ne j i with rfl | hj
    · rw [Function.update_self]
      exact iff_of_true rfl ⟨s.active, ChainFamily.mem_push.mpr (Or.inr ⟨rfl, rfl⟩)⟩
    · rw [Function.update_of_ne hj, h.live j]
      refine exists_congr fun u => ?_
      rw [ChainFamily.mem_push]
      exact ⟨Or.inl, fun hu => hu.elim id fun ⟨_, he⟩ => absurd (Nat.succ_injective he) hj⟩
  · rcases ChainFamily.mem_push.mp hp with hp | ⟨-, rfl⟩
    · exact h.bound u p hp
    · exact hlt
  · rcases ChainFamily.mem_push.mp hp with hc | ⟨rfl, rfl⟩
    · rw [hlink fun he => hnew u (he ▸ hc)]
      exact h.own u p hc
    · rw [show (s.start i).link (i + 1) = _ from Function.update_self ..]
      exact ⟨rfl, rfl⟩
  · rcases eq_or_ne u s.active with rfl | hne
    · exact absurd ((Function.update_self ..).symm.trans hu) nofun
    · refine (Function.update_of_ne hne _ _).trans (h.flag u ?_)
      exact (Function.update_of_ne hne _ _).symm.trans hu

/-- **A halt pops it.** -/
theorem release (h : s.Forest c) (hr : s.running ≠ 0) :
    s.release.Forest (Function.update c s.active (c s.active).tail) := by
  have hpid : (s.link s.running).pid = s.running := (h.own _ _ (h.running_mem hr)).1
  refine ⟨h.family.pop hr, fun j => ?_, fun u p hp => ?_, fun u p hp => ?_, fun u hu => ?_⟩
  · change Function.update s.pidArr ((s.link s.running).pid - 1) false j = true ↔ _
    rw [hpid]
    rcases eq_or_ne j (s.running - 1) with rfl | hj
    · rw [Function.update_self]
      refine iff_of_false nofun ?_
      rintro ⟨u, hu⟩
      refine ((h.family.mem_pop hr).mp hu).2 ?_
      rw [Nat.sub_add_cancel (Nat.pos_of_ne_zero hr)]
      rfl
    · rw [Function.update_of_ne hj, h.live j]
      refine exists_congr fun u => ?_
      rw [h.family.mem_pop hr]
      refine ⟨fun hu => ⟨hu, fun he => hj ?_⟩, And.left⟩
      exact Nat.eq_sub_of_add_eq he
  · exact h.bound u p ((h.family.mem_pop hr).mp hp).1
  · exact h.own u p ((h.family.mem_pop hr).mp hp).1
  · rcases eq_or_ne u s.active with rfl | hne
    · exact absurd (h.flag _ hu) hr
    · exact (Function.update_of_ne hne _ _).trans (h.flag u hu)

/-- A start that found no number leaves only slot 7 changed, which is on no chain. -/
theorem overflow (h : s.Forest c) : s.overflow.Forest c := by
  have hlink {p : Nat} {u : Term} (hp : p ∈ c u) : s.overflow.link p = s.link p := by
    refine Function.update_of_ne ?_ _ _
    rintro rfl
    exact absurd (h.bound u _ hp) (by decide)
  refine ⟨h.family.congr fun u p hp => ?_, h.live, h.bound, fun u p hp => ?_, h.flag⟩
  · exact congrArg Link.parentPid (hlink hp)
  · rw [hlink hp]
    exact h.own u p hp

/-- Once a process has left, a number is free. -/
theorem freeIndex_release (h : s.Forest c) (hr : s.running ≠ 0) : s.release.freeIndex ≠ none := by
  have hle : s.running ≤ findUniversal := h.bound _ _ (h.running_mem hr)
  have hpid : (s.link s.running).pid = s.running := (h.own _ _ (h.running_mem hr)).1
  refine freeIndex_ne_none (i := (s.link s.running).pid - 1) ?_ (Function.update_self ..)
  rw [hpid]
  omega

end Forest

/-! ## Every event keeps it -/

namespace Sound

theorem mapTo (h : s.Sound) (p : Nat) : (s.mapTo p).Sound := by
  obtain ⟨hq, ⟨c, hc⟩, hf⟩ := h
  exact ⟨⟨hq.1, hq.2, hq.3⟩, ⟨c, hc.1, hc.2, hc.3, hc.4, hc.5⟩, hf⟩

theorem enterWith (h : s.Sound) (fr : Frame) : (s.enterWith fr).Sound := by
  obtain ⟨hq, ⟨c, hc⟩, hf⟩ := h
  exact ⟨⟨hq.1, hq.2, hq.3⟩, ⟨c, hc.1, hc.2, hc.3, hc.4, hc.5⟩, hf⟩

theorem initialised (h : s.Sound) : s.initialised.Sound := by
  obtain ⟨hq, ⟨c, hc⟩, hf⟩ := h
  exact ⟨quiet_of_intiFlag hq.flagger rfl, ⟨c, hc.1, hc.2, hc.3, hc.4, hc.5⟩, hf⟩

theorem restore (h : s.Sound) (p : Nat) (fr : Frame) : (s.restore p fr).Sound :=
  (h.mapTo p).enterWith fr

theorem release (h : s.Sound) (hr : s.running ≠ 0) : s.release.Sound := by
  obtain ⟨c, hc⟩ := h.forest
  exact ⟨h.quiet.release hr, ⟨_, hc.release hr⟩, h.fresh⟩

theorem activate (h : s.Sound) (t : Term) (fr : Frame) : (s.activate t fr).Sound := by
  obtain ⟨hq, ⟨c, hc⟩, hf⟩ := h
  refine ⟨⟨hq.1, hq.2, hq.3⟩, ⟨c, hc.1, hc.2, hc.3, hc.4, hc.5⟩, fun u hu hl => ?_⟩
  rcases eq_or_ne u t with rfl | hne
  · exact absurd ((Function.update_self ..).symm.trans hl) nofun
  · exact ⟨(hf u hu ((Function.update_of_ne hne _ _).symm.trans hl)).1, hne.symm⟩

end Sound

/-- Two terminals do not have the same process. -/
theorem Sound.last_injective (hs : s.Sound) {t u : Term} (hr : s.last u ≠ 0)
    (h : s.last t = s.last u) : t = u := by
  obtain ⟨c, hc⟩ := hs.forest
  by_contra hne
  refine hc.family.disjoint t u hne ((hc.family.chain t).mem_self (h ▸ hr)) ?_
  exact h ▸ (hc.family.chain u).mem_self hr

/-- A terminal nobody switched to has no process. -/
theorem Sound.last_eq_zero (h : s.Sound) (ht : t ≠ 0) (hl : s.launchFlag t = false) :
    s.last t = 0 := by
  obtain ⟨c, hc⟩ := h.forest
  exact hc.flag t (h.fresh t ht hl).1

/-- The search loop only stops at a terminal whose flag is set. -/
theorem flag_of_findTerm {flag : Term → Bool} {n : Nat} {u : Term}
    (h : Kernel.findTerm flag n u = some t) : flag t = true := by
  induction n generalizing u with
  | zero => cases h
  | succ n ih =>
    unfold Kernel.findTerm at h
    split at h
    · next hu => exact Option.some.inj h ▸ hu
    · exact ih h

theorem Exec.sound {command : Option (List UInt8)} {junk : List UInt8} {o : Outcome}
    (h : Exec fs command junk s o s') (hs : s.Sound) : s'.Sound := by
  obtain ⟨hq, ⟨c, hc⟩, hf⟩ := hs.initialised
  cases h with
  | fail => exact hs.initialised
  | start _ hi =>
    refine ⟨quiet_of_intiFlag hq.flagger rfl, ⟨_, hc.start hi⟩, fun t ht hl => ?_⟩
    obtain ⟨hflag, hne⟩ := hf t ht hl
    exact ⟨(Function.update_of_ne hne.symm _ _).trans hflag, hne⟩
  | overflow => exact ⟨quiet_of_intiFlag hq.flagger rfl, ⟨c, hc.overflow⟩, hf⟩

/-- **Every event keeps the forest.** -/
theorem Step.sound {e : Event} {o : Outcome} (h : Step fs s e o s') (hs : s.Sound) : s'.Sound := by
  cases h with
  | idle => exact hs
  | execute h => exact h.sound (hs.enterWith _)
  | exit hr hp => exact (hs.release hr).restore _ _
  | respawn hr hp h => exact h.sound ((hs.release hr).enterWith _)
  | vacate hr hp h ho => exact (h.sound ((hs.release hr).enterWith _)).restore _ _
  | rest => exact hs
  | @tick fr hr t ht =>
    obtain ⟨hq, ⟨c, hc⟩, hf⟩ := hs
    refine ⟨⟨hq.1, hq.2, hq.3⟩, ⟨c, hc.1, hc.2, hc.3, hc.4, hc.5⟩, fun u hu hl => ?_⟩
    obtain ⟨hflag, -⟩ := hf u hu hl
    refine ⟨hflag, ?_⟩
    rintro rfl
    exact absurd (hflag.symm.trans (flag_of_findTerm ht)) nofun
  | launch ht hl hf h => exact h.sound (hs.activate _ _)

end Sched

namespace Kernel

variable {fs : FileSystem} {k k' : Kernel} {e : Event}

theorem sound_boot (b : Boot) : b.kernel.sched.Sound := by
  refine ⟨⟨rfl, fun _ _ => rfl, fun _ _ => rfl⟩, ⟨fun _ => [], ?_⟩, fun t ht _ => ⟨rfl, ht.symm⟩⟩
  refine ⟨.nil _ 0, fun i => iff_of_false nofun ?_, nofun, nofun, fun _ _ => rfl⟩
  rintro ⟨_, hi⟩
  exact absurd hi List.not_mem_nil

theorem sound_step (hs : k.sched.Sound) (h : k.step fs e = some k') : k'.sched.Sound := by
  obtain ⟨o, ho⟩ := step_eq_some.mp h
  exact (transition_sched hs.quiet ho).sound hs

/-- **The forest holds in every state the kernel reaches.** -/
theorem sound_of_run {b : Boot} {es : List Event}
    (h : Runs.run (Kernel.step fs) b.kernel es = some k) : k.sched.Sound :=
  Runs.run_invariant (fun _ _ _ hs h => sound_step hs h) (sound_boot b) h

end Kernel

end HarambeOs
