import HarambeOs.Launch

/-!
# Contexts — what a tick restores

A process's kernel context is the pair of stack registers it stops with, and it is a new one
whenever the process has run.  `PIT_handler` saves the context of the process it takes the processor
from in `processes`, and restores the saved context of the process it gives it to.  A process also
stops when the keyboard handler launches a shell on another terminal, and nothing is saved there.

`Stops` keeps, apart from the kernel, the context each process last stopped with, and how each
terminal was last left.  `tick_restores_iff`: a tick restores the right context exactly when the
terminal it switches to was last left by a tick.
-/

namespace HarambeOs

/-- The registers an event comes with. -/
def Event.frame : Event → Option Frame
  | .execute _ fr _ => some fr
  | .halt _ fr _ => some fr
  | .tick fr => some fr
  | .key _ _ fr _ => some fr
  | _ => none

def Outcome.isStarted : Outcome → Bool
  | .started _ => true
  | _ => false

/-- The context each process last stopped with (`none` while it has not stopped yet), whether each
terminal was last left by a launch, and the registers seen so far. -/
structure Stops where
  context : Nat → Option Frame
  byLaunch : Term → Bool
  seen : List Frame

namespace Stops

/-- Nothing has stopped; the saved contexts are zero. -/
def empty : Stops := ⟨fun _ => none, fun _ => false, [⟨0, 0⟩]⟩

/-- Process `p` stops. -/
def stop (g : Stops) (p : Nat) (fr : Frame) : Stops :=
  { g with context := Function.update g.context p (some fr) }

/-- A new process `p`, which has not stopped yet. -/
def enter (g : Stops) (p : Nat) : Stops :=
  { g with context := Function.update g.context p none }

/-- Terminal `t` is left. -/
def leave (g : Stops) (t : Term) (byLaunch : Bool) : Stops :=
  { g with byLaunch := Function.update g.byLaunch t byLaunch }

def see (g : Stops) (e : Event) : Stops := { g with seen := e.frame.toList ++ g.seen }

/-- The stops after an event. -/
def note (g : Stops) (s : Sched) (e : Event) (o : Outcome) (s' : Sched) : Stops :=
  match e with
  | .tick fr =>
    if s.running = 0 then g.see e else ((g.see e).stop s.running fr).leave s.active false
  | .execute _ fr _ =>
    if o.isStarted then ((g.see e).stop s.running fr).enter s'.running else g.see e
  | .halt .. => if o.isStarted then (g.see e).enter s'.running else g.see e
  | .key _ _ fr _ =>
    if s'.active = s.active then g.see e
    else
      let g := ((g.see e).stop s.running fr).leave s.active true
      if o.isStarted then g.enter s'.running else g
  | _ => g

end Stops

namespace Sched

variable {fs : FileSystem} {s s' : Sched} {g : Stops}

/-- On a terminal that is not active, the context saved for its process is the one the process
stopped with exactly if the terminal was left by a tick. -/
structure Tracked (s : Sched) (g : Stops) : Prop where
  saved : ∀ t, t ≠ s.active → s.last t ≠ 0 → ∃ f, g.context (s.last t) = some f ∧
    (s.processes ((s.last t : Int) - 1) = f ↔ g.byLaunch t = false)
  seen : ∀ i, s.processes i ∈ g.seen

/-- The process of another terminal is not the running one. -/
theorem Sound.last_ne_running (hs : s.Sound) {t : Term} (ht : t ≠ s.active) (hl : s.last t ≠ 0) :
    s.last t ≠ s.running :=
  fun he => ht (hs.last_injective (fun h0 => hl (he.trans h0)) he)

/-- The process of a terminal is not a free number. -/
theorem Sound.last_ne_free (hs : s.Sound) {t : Term} {i : Nat} (hl : s.last t ≠ 0)
    (hi : s.freeIndex = some i) : s.last t ≠ i + 1 := by
  obtain ⟨c, hc⟩ := hs.forest
  obtain ⟨j, hj, hlive⟩ := hc.live_of_mem ((hc.family.chain t).mem_self hl)
  intro he
  rw [Nat.succ_injective (hj.symm.trans he), (freeIndex_eq_some hi).1] at hlive
  exact absurd hlive nofun

namespace Tracked

/-- Only these fields matter. -/
theorem congr (h : s.Tracked g) (hlast : s'.last = s.last) (hact : s'.active = s.active)
    (hproc : s'.processes = s.processes) : s'.Tracked g :=
  ⟨by rw [hlast, hact, hproc]; exact h.saved, by rw [hproc]; exact h.seen⟩

theorem see (h : s.Tracked g) (e : Event) : s.Tracked (g.see e) :=
  ⟨h.saved, fun i => List.mem_append_right _ (h.seen i)⟩

/-- The running process is on no other terminal. -/
theorem stop (h : s.Tracked g) (hs : s.Sound) (fr : Frame) : s.Tracked (g.stop s.running fr) := by
  refine ⟨fun t ht hl => ?_, h.seen⟩
  obtain ⟨f, hf, hiff⟩ := h.saved t ht hl
  exact ⟨f, (Function.update_of_ne (hs.last_ne_running ht hl) _ _).trans hf, hiff⟩

/-- A new process takes a number that is on no other terminal. -/
theorem start (h : s.Tracked g) (hs : s.Sound) {i : Nat} (hi : s.freeIndex = some i) :
    (s.start i).Tracked (g.enter (i + 1)) := by
  refine ⟨fun t ht hl => ?_, h.seen⟩
  have hlast : (s.start i).last t = s.last t := Function.update_of_ne ht _ _
  rw [hlast] at hl ⊢
  obtain ⟨f, hf, hiff⟩ := h.saved t ht hl
  exact ⟨f, (Function.update_of_ne (hs.last_ne_free hl hi) _ _).trans hf, hiff⟩

theorem release (h : s.Tracked g) : s.release.Tracked g := by
  refine ⟨fun t ht hl => ?_, h.seen⟩
  have hlast : s.release.last t = s.last t := Function.update_of_ne ht _ _
  rw [hlast] at hl ⊢
  exact h.saved t ht hl

/-- A launch leaves a terminal without saving its process's context. -/
theorem activate (h : s.Tracked g) (hs : s.Sound) (t : Term) {fr : Frame} (hfr : fr ∉ g.seen) :
    (s.activate t fr).Tracked ((g.stop s.running fr).leave s.active true) := by
  refine ⟨fun u hu hl => ?_, h.seen⟩
  rcases eq_or_ne u s.active with rfl | hne
  · refine ⟨fr, Function.update_self .., iff_of_false (fun he => hfr (he ▸ h.seen _)) ?_⟩
    rw [show ((g.stop s.running fr).leave s.active true).byLaunch s.active = true from
      Function.update_self ..]
    exact nofun
  · obtain ⟨f, hf, hiff⟩ := (h.stop hs fr).saved u hne hl
    refine ⟨f, hf, hiff.trans ?_⟩
    rw [show ((g.stop s.running fr).leave s.active true).byLaunch u = g.byLaunch u from
      Function.update_of_ne hne ..]
    exact Iff.rfl

theorem processes_ne {p q : Nat} (h : p ≠ q) (fr : Frame) :
    Function.update s.processes ((q : Int) - 1) fr ((p : Int) - 1) = s.processes ((p : Int) - 1) :=
  Function.update_of_ne (by omega) _ _

/-- A tick saves what it stops. -/
theorem tick (h : s.Tracked g) (hs : s.Sound) (t : Term) {fr : Frame} (hfr : fr ∈ g.seen) :
    (s.tick t fr).Tracked ((g.stop s.running fr).leave s.active false) := by
  refine ⟨fun u hu hl => ?_, fun i => ?_⟩
  · rcases eq_or_ne u s.active with rfl | hne
    · exact ⟨fr, Function.update_self .., iff_of_true (Function.update_self ..)
        (Function.update_self ..)⟩
    · obtain ⟨f, hf, hiff⟩ := (h.stop hs fr).saved u hne hl
      refine ⟨f, hf, ?_⟩
      rw [show (s.tick t fr).processes (((s.tick t fr).last u : Int) - 1) =
          s.processes ((s.last u : Int) - 1) from processes_ne (hs.last_ne_running hne hl) fr,
        show ((g.stop s.running fr).leave s.active false).byLaunch u = g.byLaunch u from
          Function.update_of_ne hne ..]
      exact hiff
  · change Function.update s.processes ((s.running : Int) - 1) fr i ∈ g.seen
    rcases eq_or_ne i ((s.running : Int) - 1) with rfl | hne
    · rwa [Function.update_self]
    · rw [Function.update_of_ne hne]
      exact h.seen i

end Tracked

/-- **Every event keeps track.** -/
theorem Step.tracked {e : Event} {o : Outcome} (hstep : Step fs s e o s') (hs : s.Sound)
    (hfresh : ∀ f, e.frame = some f → f ∉ g.seen) (h : s.Tracked g) :
    s'.Tracked (g.note s e o s') := by
  cases hstep with
  | @idle e he v =>
    cases e with
    | key =>
      rw [Stops.note, if_pos rfl]
      exact h.see _
    | ctrl4Turn | call => exact h
    | execute | halt | tick => cases he
  | @execute _ fr _ _ _ hx =>
    have hs' := (hs.enterWith fr).initialised
    cases hx with
    | fail => exact (h.see _).congr rfl rfl rfl
    | start _ hi =>
      simp only [Stops.note, Outcome.isStarted, if_true, running_start]
      exact Tracked.start (s := (s.enterWith fr).initialised)
        (((h.see _).stop hs fr).congr rfl rfl rfl) hs' hi
    | overflow => exact (h.see _).congr rfl rfl rfl
  | exit hr hp => exact (h.see _).release.congr rfl rfl rfl
  | @respawn _ fr _ _ _ hr hp hx =>
    cases hx with
    | start _ hi =>
      simp only [Stops.note, Outcome.isStarted, if_true, running_start]
      exact Tracked.start (s := (s.release.enterWith fr).initialised)
        ((h.see _).release.congr rfl rfl rfl) ((hs.release hr).enterWith fr).initialised hi
  | vacate hr hp hx ho =>
    cases hx with
    | fail => exact (h.see _).release.congr rfl rfl rfl
    | start _ _ eip => exact absurd rfl (ho eip)
    | overflow => exact (h.see _).release.congr rfl rfl rfl
  | rest hr =>
    rw [Stops.note, if_pos hr]
    exact h.see _
  | @tick fr hr t ht =>
    rw [Stops.note, if_neg hr]
    exact (h.see (.tick fr)).tick hs t List.mem_cons_self
  | @launch status scan fr junk _ _ t ht hl hf hx =>
    have hne : t ≠ s.active := (hs.fresh t ht hl).2.symm
    have hact := (h.activate hs t (hfresh fr rfl)).see (.key status scan fr junk)
    cases hx with
    | fail =>
      rw [Stops.note, if_neg (show (s.activate t fr).initialised.active ≠ s.active from hne)]
      exact hact.congr rfl rfl rfl
    | @start _ i hi =>
      rw [Stops.note,
        if_neg (show ((s.activate t fr).initialised.start i).active ≠ s.active from hne)]
      simp only [Outcome.isStarted, if_true, running_start]
      exact Tracked.start (s := (s.activate t fr).initialised) (hact.congr rfl rfl rfl)
        (hs.activate t fr).initialised hi
    | overflow _ hn => exact absurd hn hf

end Sched

namespace Kernel

variable {fs : FileSystem}

/-- The stops after an event of the kernel. -/
def noteStop (fs : FileSystem) (k : Kernel) (e : Event) (k' : Kernel) (g : Stops) : Stops :=
  match k.transition fs e with
  | some (_, o) => g.note k.sched e o k'.sched
  | none => g

theorem seen_note (g : Stops) (s : Sched) (e : Event) (o : Outcome) (s' : Sched) :
    (g.note s e o s').seen = e.frame.toList ++ g.seen := by
  cases e with
  | execute | halt | tick =>
    rw [Stops.note]
    split <;> rfl
  | key =>
    rw [Stops.note]
    split
    · rfl
    · simp only
      split <;> rfl
  | ctrl4Turn | call => rfl

/-- Registers that are all different are new at every event. -/
theorem guarded_of_nodup {k : Kernel} {g : Stops} {es : List Event}
    (hnodup : (es.filterMap Event.frame).Nodup)
    (hseen : ∀ f ∈ es.filterMap Event.frame, f ∉ g.seen) :
    Runs.Guarded (Runs.withGhost (Kernel.step fs) (noteStop fs))
      (fun r e => ∀ f, e.frame = some f → f ∉ r.2.seen) (k, g) es := by
  induction es generalizing k g with
  | nil => trivial
  | cons e es ih =>
    rintro ⟨k', g'⟩ hg
    obtain ⟨hk, rfl⟩ := Runs.withGhost_eq_some.mp hg
    obtain ⟨o, ho⟩ := step_eq_some.mp hk
    rw [List.filterMap_cons] at hnodup hseen
    have hsee : (noteStop fs k e k' g).seen = e.frame.toList ++ g.seen := by
      rw [noteStop, ho]
      exact seen_note ..
    cases hf : e.frame with
    | none =>
      rw [hf] at hnodup hseen hsee
      refine ⟨fun f hf' => absurd (hf.symm.trans hf') nofun, ih hnodup fun f hf => ?_⟩
      rw [hsee]
      exact hseen f hf
    | some f =>
      rw [hf] at hnodup hseen hsee
      obtain ⟨hnew, hnodup⟩ := List.nodup_cons.mp hnodup
      refine ⟨fun f' hf' => ?_, ih hnodup fun f' hf' => ?_⟩
      · obtain rfl : f = f' := Option.some.inj (hf.symm.trans hf')
        exact hseen f List.mem_cons_self
      rw [hsee]
      refine fun hmem => (List.mem_cons.mp hmem).elim (fun he => ?_) ?_
      · exact hnew (he ▸ hf')
      · exact hseen f' (List.mem_cons_of_mem f hf')

theorem tracked_of_run {b : Boot} {es : List Event} {k : Kernel} {g : Stops}
    (hrun : Runs.run (Runs.withGhost (Kernel.step fs) (noteStop fs)) (b.kernel, .empty) es =
      some (k, g)) (hfresh : (⟨0, 0⟩ :: es.filterMap Event.frame).Nodup) :
    k.sched.Sound ∧ k.sched.Tracked g := by
  obtain ⟨hzero, hnodup⟩ := List.nodup_cons.mp hfresh
  have hboot : b.kernel.sched.Tracked .empty :=
    ⟨fun _ _ hl => absurd rfl hl, fun _ => List.mem_cons_self⟩
  have hguard : Runs.Guarded (Runs.withGhost (Kernel.step fs) (noteStop fs))
      (fun r e => ∀ f, e.frame = some f → f ∉ r.2.seen) (b.kernel, .empty) es := by
    refine guarded_of_nodup hnodup fun f hf hmem => hzero ?_
    exact List.mem_singleton.mp hmem ▸ hf
  refine Runs.run_guarded (I := fun r : Kernel × Stops => r.1.sched.Sound ∧ r.1.sched.Tracked r.2)
    ?_ ⟨sound_boot b, hboot⟩ hguard hrun
  rintro ⟨k, g⟩ e ⟨k', g'⟩ ⟨hs, ht⟩ hnew hg
  obtain ⟨hk, rfl⟩ := Runs.withGhost_eq_some.mp hg
  obtain ⟨o, ho⟩ := step_eq_some.mp hk
  refine ⟨sound_step hs hk, ?_⟩
  rw [noteStop, ho]
  exact (transition_sched hs.quiet ho).tracked hs hnew ht

/-- **What a tick restores.**  In a run whose registers are new at every event, a tick that takes
the processor from one process and gives it to another restores the context that process last
stopped with exactly when it stays on its terminal or the other terminal was last left by a tick. -/
theorem tick_restores_iff (fs : FileSystem) (b : Boot) (es : List Event) (k : Kernel) (g : Stops)
    (hrun : Runs.run (Runs.withGhost (Kernel.step fs) (noteStop fs)) (b.kernel, .empty) es =
      some (k, g)) (hfresh : (⟨0, 0⟩ :: es.filterMap Event.frame).Nodup) (fr : Frame) (k' : Kernel)
    (hr : k.running ≠ 0) (hk : k.step fs (.tick fr) = some k') (hr' : k'.running ≠ 0) :
    (g.stop k.running fr).context k'.running = some k'.cpu ↔
      k'.display.activeTerminal = k.display.activeTerminal ∨
        g.byLaunch k'.display.activeTerminal = false := by
  obtain ⟨hs, ht⟩ := tracked_of_run hrun hfresh
  obtain ⟨o, ho⟩ := step_eq_some.mp hk
  have hstep := transition_sched hs.quiet ho
  obtain ⟨t, hs'⟩ : ∃ t, k'.sched = k.sched.tick t fr := by
    generalize k'.sched = s' at hstep
    cases hstep with
    | rest h0 => exact absurd h0 hr
    | @tick _ _ t _ => exact ⟨t, rfl⟩
    | idle he => exact absurd he Bool.false_ne_true
  have hact : k'.display.activeTerminal = t := congrArg Sched.active hs'
  have hlast : k'.running = k.sched.last t := congrArg Sched.running hs'
  have hcpu : k'.cpu = Function.update k.sched.processes ((k.running : Int) - 1) fr
    ((k.sched.last t : Int) - 1) := congrArg Sched.cpu hs'
  rw [hact, hcpu, hlast]
  rw [hlast] at hr'
  rcases eq_or_ne t k.display.activeTerminal with rfl | hne
  · refine iff_of_true ?_ (Or.inl rfl)
    rw [show (k.sched.last k.display.activeTerminal : Int) - 1 = (k.running : Int) - 1 from rfl,
      Function.update_self]
    exact Function.update_self ..
  · obtain ⟨f, hf, hiff⟩ := (ht.stop hs fr).saved t hne hr'
    have hne' : k.sched.last t ≠ k.running := hs.last_ne_running hne hr'
    rw [show (g.stop k.running fr).context (k.sched.last t) = some f from hf, Option.some.injEq,
      eq_comm, Sched.Tracked.processes_ne (s := k.sched) hne', hiff]
    exact (or_iff_right hne).symm

/-- A shell on each of two terminals, and a tick from the second to the first. -/
def twoTerminals : List Event :=
  [.execute (some shell) ⟨1, 2⟩ [], .key 1 alt ⟨3, 4⟩ [], .key 1 f2 ⟨5, 6⟩ [], .tick ⟨7, 8⟩]

/-- The next tick goes back to the second terminal, which was left by a tick. -/
theorem tick_restores_second :
    ∃ k g k', Runs.run (Runs.withGhost (Kernel.step shellDisk) (noteStop shellDisk))
        (Boot.zero.kernel, .empty) twoTerminals = some (k, g) ∧
      k.step shellDisk (.tick ⟨9, 10⟩) = some k' ∧ k'.running = 2 ∧
        (g.stop k.running ⟨9, 10⟩).context 2 = some k'.cpu := by
  have hrun : ((Runs.run (Runs.withGhost (Kernel.step shellDisk) (noteStop shellDisk))
      (Boot.zero.kernel, .empty) twoTerminals).bind fun r =>
        (r.1.step shellDisk (.tick ⟨9, 10⟩)).map fun k' =>
          (r.1.running, k'.running, r.2.byLaunch k'.display.activeTerminal)) =
      some (1, 2, false) := by
    decide +kernel
  obtain ⟨⟨k, g⟩, hk, hrun⟩ := Option.bind_eq_some_iff.mp hrun
  obtain ⟨k', hk', hr⟩ := Option.map_eq_some_iff.mp hrun
  obtain ⟨hr, hr', hleft⟩ : k.running = 1 ∧ k'.running = 2 ∧
      g.byLaunch k'.display.activeTerminal = false := by
    simpa only [Prod.mk.injEq] using hr
  have hiff := tick_restores_iff shellDisk Boot.zero _ k g hk (by decide) ⟨9, 10⟩ k'
    (by rw [hr]; decide) hk' (by rw [hr']; decide)
  rw [hr'] at hiff
  exact ⟨k, g, k', hk, hk', hr', hiff.mpr (Or.inr hleft)⟩

/-- The first switch to the second terminal stops the first one's process at `⟨5, 6⟩`; the tick that
comes back to it restores a context that was never saved. -/
theorem tick_restores_unset :
    (Runs.run (Runs.withGhost (Kernel.step shellDisk) (noteStop shellDisk))
      (Boot.zero.kernel, .empty) twoTerminals).map
        (fun r => (r.1.running, r.2.context 1, r.1.cpu)) = some (1, some ⟨5, 6⟩, ⟨0, 0⟩) := by
  decide +kernel

end Kernel

end HarambeOs
