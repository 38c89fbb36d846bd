import HarambeOs.Launch
import HarambeOs.Library.RoundRobin

/-!
# Rotation — the timer gives each terminal its turn

The search of `PIT_handler` starts after the terminal that the running process's PCB names and has
no bound of its own.  In the states reached that terminal is the active one and its flag is set, so
the search ends there at the latest.  A tick is then a turn of a round robin over the launched
terminals, and nothing but a tick or a launch moves the active terminal (`Sched.Step.turn`).
Whatever else happens, a round of ticks makes each launched terminal active once
(**`Kernel.pit_rotates`**).
-/

namespace HarambeOs

/-- The terminals in the order of the search, after terminal `a`. -/
def searchOrder (a : Term) : List Term := [a + 1, a + 2, a]

theorem searchOrder_cyclic : RoundRobin.Cyclic searchOrder := by
  intro a x pre suf h
  rw [searchOrder] at h ⊢
  match pre, h with
  | [], h =>
    obtain ⟨rfl, rfl⟩ := List.cons.inj h
    fin_cases a <;> rfl
  | [y], h =>
    simp only [List.cons_append, List.nil_append, List.cons.injEq] at h
    obtain ⟨rfl, rfl, rfl⟩ := h
    fin_cases a <;> rfl
  | [y, z], h =>
    simp only [List.cons_append, List.nil_append, List.cons.injEq] at h
    obtain ⟨rfl, rfl, rfl, rfl⟩ := h
    rfl
  | y :: z :: w :: pre, h =>
    simp at h

/-- Three turns of the search look at every terminal once. -/
theorem findTerm_eq (flag : Term → Bool) (a : Term) :
    Kernel.findTerm flag possibleTerms (a + 1) = (searchOrder a).find? flag := by
  have h₂ : a + 1 + 1 = a + 2 := by rw [add_assoc]; rfl
  have h₃ : a + 2 + 1 = a := by rw [add_assoc]; exact add_zero a
  simp only [Kernel.findTerm, possibleTerms, searchOrder, List.find?_cons, List.find?_nil, h₂, h₃]
  cases flag (a + 1) <;> cases flag (a + 2) <;> cases flag a <;> rfl

/-- Whether an event is a tick. -/
def Event.isTick : Event → Bool
  | .tick _ => true
  | _ => false

namespace Sched

variable {fs : FileSystem} {s s' : Sched}

/-- The running process's PCB names the active terminal. -/
theorem Sound.termNum_running (hs : s.Sound) (hr : s.running ≠ 0) :
    (s.link s.running).termNum = s.active := by
  obtain ⟨c, hc⟩ := hs.forest
  exact (hc.own s.active s.running ((hc.family.chain s.active).mem_self hr)).2

theorem Sound.nextTerm_eq (hs : s.Sound) (hr : s.running ≠ 0) :
    s.nextTerm = RoundRobin.next s.flag searchOrder s.active := by
  have hstart : Fin.ofNat 3 ((s.link s.running).termNum + 1) = s.active + 1 := by
    rw [hs.termNum_running hr]
    generalize s.active = a
    fin_cases a <;> rfl
  rw [nextTerm, hstart, findTerm_eq]
  rfl

theorem Sound.flag_active (hs : s.Sound) (hr : s.running ≠ 0) : s.flag s.active = true := by
  obtain ⟨c, hc⟩ := hs.forest
  by_contra hf
  exact hr (hc.flag s.active (Bool.eq_false_iff.mpr hf))

/-- **The search ends.** -/
theorem Sound.exists_next (hs : s.Sound) (hr : s.running ≠ 0) : ∃ t, s.nextTerm = some t := by
  rw [hs.nextTerm_eq hr, ← Option.isSome_iff_exists, RoundRobin.next, List.find?_isSome]
  exact ⟨s.active, by simp [searchOrder], hs.flag_active hr⟩

/-! ## What an event does to the flags and the active terminal -/

theorem Exec.flag {command : Option (List UInt8)} {junk : List UInt8} {o : Outcome} {t : Term}
    (h : Exec fs command junk s o s') (hf : s.flag t = true) : s'.flag t = true := by
  cases h with
  | fail => exact hf
  | start _ hi =>
    refine (Function.update_apply s.flag s.active true t).trans ?_
    split
    · rfl
    · exact hf
  | overflow => exact hf

/-- A terminal once launched stays so. -/
theorem Step.flag {e : Event} {o : Outcome} {t : Term} (h : Step fs s e o s')
    (hf : s.flag t = true) : s'.flag t = true := by
  cases h with
  | execute h => exact h.flag hf
  | respawn _ _ h => exact h.flag hf
  | vacate _ _ h => exact h.flag hf
  | launch _ _ _ h => exact h.flag hf
  | _ => exact hf

theorem Exec.active {command : Option (List UInt8)} {junk : List UInt8} {o : Outcome}
    (h : Exec fs command junk s o s') : s'.active = s.active := by
  cases h <;> rfl

/-- The first switch to a terminal launches it. -/
theorem launch_flag (hshell : ShellLoadable fs) {t : Term} {fr : Frame} {junk : List UInt8}
    {o : Outcome} (hf : s.freeIndex ≠ none) (h : Exec fs (some shell) junk (s.activate t fr) o s') :
    s'.flag t = true := by
  cases h with
  | fail hn => exact absurd (hn.symm.trans (hshell.resolves junk)) Bool.false_ne_true
  | start => exact Function.update_self t true s.flag
  | overflow _ hn => exact absurd hn hf

/-- **Who is active next.**  Where no terminal is launched, a tick is a turn of the round robin and
any other event leaves the active terminal. -/
theorem Step.turn {e : Event} {o : Outcome} (hshell : ShellLoadable fs) (h : Step fs s e o s')
    (hs : s.Sound) (hr : s.running ≠ 0) (hflag : s'.flag = s.flag) :
    if e.isTick then RoundRobin.next s.flag searchOrder s.active = some s'.active
    else s'.active = s.active := by
  cases h with
  | @idle e he v =>
    have hno : e.isTick = false := by
      cases e <;> first | rfl | cases he
    rw [if_neg (by rw [hno]; exact Bool.false_ne_true)]
  | execute h => exact h.active
  | exit => rfl
  | respawn _ _ h => exact h.active
  | vacate _ _ h => exact h.active
  | rest hr' => exact absurd hr' hr
  | tick _ ht => exact (hs.nextTerm_eq hr).symm.trans ht
  | launch ht hl hf h =>
    have hnew := launch_flag hshell hf h
    rw [hflag, (hs.fresh _ ht hl).1] at hnew
    cases hnew

/-- A process keeps running, once one does. -/
theorem Step.running {e : Event} {o : Outcome} (hshell : ShellLoadable fs) (h : Step fs s e o s')
    (hs : s.Sound) (hst : s.Staffed) (hr : s.running ≠ 0) (hflag : s'.flag = s.flag) :
    s'.running ≠ 0 := by
  have hst' := h.staffed hshell hs hst
  have hturn := h.turn hshell hs hr hflag
  refine hst' s'.active ?_
  rw [hflag]
  split at hturn
  · exact List.find?_some hturn
  · rw [hturn]
    exact hs.flag_active hr

end Sched

namespace Kernel

variable {fs : FileSystem} {k k' : Kernel}

/-- Whether a terminal has been launched: `term_arr[t].flag`. -/
def launched (k : Kernel) (t : Term) : Bool := (k.proc.termArr t).flag

/-- The terminals the ticks of a run make active, one after the other. -/
def ticked (fs : FileSystem) : Kernel → List Event → List Term
  | _, [] => []
  | k, e :: es =>
    match k.step fs e with
    | none => []
    | some k' =>
      if e.isTick then k'.display.activeTerminal :: ticked fs k' es else ticked fs k' es

theorem ticked_cons {e : Event} (h : k.step fs e = some k') (es : List Event) :
    ticked fs k (e :: es) =
      if e.isTick then k'.display.activeTerminal :: ticked fs k' es else ticked fs k' es := by
  rw [ticked, h]

theorem length_ticked {es : List Event} (h : Runs.run (step fs) k es = some k') :
    (ticked fs k es).length = es.countP Event.isTick := by
  induction es generalizing k with
  | nil => rfl
  | cons e es ih =>
    obtain ⟨k₁, hk₁, h⟩ := Runs.run_cons_eq_some.mp h
    rw [ticked_cons hk₁, List.countP_cons, ← ih h]
    split
    · rw [List.length_cons]
    · rw [Nat.add_zero]

theorem launched_step {e : Event} {t : Term} (hs : k.sched.Sound) (h : k.step fs e = some k')
    (ht : k.launched t = true) : k'.launched t = true := by
  obtain ⟨o, ho⟩ := step_eq_some.mp h
  exact (transition_sched hs.quiet ho).flag ht

theorem launched_of_run {es : List Event} {t : Term} (hs : k.sched.Sound)
    (h : Runs.run (step fs) k es = some k') (ht : k.launched t = true) : k'.launched t = true := by
  refine (Runs.run_invariant (I := fun k : Kernel => k.sched.Sound ∧ k.launched t = true) ?_
    ⟨hs, ht⟩ h).2
  exact fun k e k' hk hstep => ⟨sound_step hk.1 hstep, launched_step hk.1 hstep hk.2⟩

/-- **The ticks of a run are turns of the round robin**, when no terminal is launched in it. -/
theorem visits_ticked (hshell : ShellLoadable fs) {es : List Event} (hs : k.sched.Sound)
    (hst : k.sched.Staffed) (hr : k.running ≠ 0) (hrun : Runs.run (step fs) k es = some k')
    (hflag : k'.launched = k.launched) :
    RoundRobin.Visits k.launched searchOrder k.display.activeTerminal (ticked fs k es) := by
  induction es generalizing k with
  | nil => trivial
  | cons e es ih =>
    obtain ⟨k₁, hk₁, hrun⟩ := Runs.run_cons_eq_some.mp hrun
    obtain ⟨o, ho⟩ := step_eq_some.mp hk₁
    have hstep := transition_sched hs.quiet ho
    have hs₁ := sound_step hs hk₁
    -- Flags are never cleared, so none is set on the way.
    have hflag₁ : k₁.launched = k.launched := by
      funext t
      rw [Bool.eq_iff_iff]
      refine ⟨fun ht => ?_, launched_step hs hk₁⟩
      rw [← hflag]
      exact launched_of_run hs₁ hrun ht
    have hturn := hstep.turn hshell hs hr hflag₁
    have hv := ih hs₁ (hstep.staffed hshell hs hst) (hstep.running hshell hs hst hr hflag₁) hrun
      (hflag.trans hflag₁.symm)
    rw [hflag₁] at hv
    rw [ticked_cons hk₁]
    split
    · next htick =>
      rw [if_pos htick] at hturn
      exact ⟨hturn, hv⟩
    · next htick =>
      rw [if_neg htick] at hturn
      rw [show k₁.display.activeTerminal = k.display.activeTerminal from hturn] at hv
      exact hv

/-- The launched terminals, each once. -/
theorem count_turns (ready : Term → Bool) (a t : Term) :
    (RoundRobin.turns ready searchOrder a).count t = if ready t then 1 else 0 := by
  rw [RoundRobin.turns]
  split
  · next ht =>
    have hall : ∀ a t : Term, (searchOrder a).count t = 1 := by decide
    rw [List.count_filter ht, hall]
  · next ht => exact List.count_eq_zero.mpr fun hmem => ht (List.mem_filter.mp hmem).2

theorem length_turns (ready : Term → Bool) (a : Term) :
    (RoundRobin.turns ready searchOrder a).length =
      (Finset.univ.filter fun t => ready t = true).card := by
  have hperm : (searchOrder a).Perm (List.finRange 3) := by
    revert a
    decide
  rw [RoundRobin.turns, (hperm.filter ready).length_eq,
    ← List.toFinset_card_of_nodup ((List.nodup_finRange 3).filter ready)]
  refine congrArg Finset.card (Finset.ext fun t => ?_)
  rw [List.mem_toFinset, List.mem_filter, Finset.mem_filter]
  exact and_congr_left' (iff_of_true (List.mem_finRange t) (Finset.mem_univ t))

/-- **The timer.**  With a loadable shell, in every state reached in which a process of terminal `a`
runs, the search of `PIT_handler` ends and makes the first launched terminal of `a + 1`, `a + 2` and
`a` active.  From there, in any run in which no terminal is launched and that has as many ticks as
there are launched terminals, the ticks make each launched terminal active exactly once. -/
theorem pit_rotates (hshell : ShellLoadable fs) {b : Boot} {before : List Event}
    (hrun : Runs.run (step fs) b.kernel before = some k) (hr : k.running ≠ 0) {a : Term}
    (ha : (k.proc.slots k.running).termNum = a) :
    (∀ fr, ∃ k', k.pitHandler fr = some k' ∧
      [a + 1, a + 2, a].find? k.launched = some k'.display.activeTerminal) ∧
    ∀ es k', Runs.run (step fs) k es = some k' → k'.launched = k.launched →
      es.countP Event.isTick = (Finset.univ.filter fun t => k.launched t = true).card →
        ∀ t, (ticked fs k es).count t = if k.launched t then 1 else 0 := by
  obtain ⟨hs, hst⟩ := staffed_of_run hshell hrun
  obtain rfl : k.display.activeTerminal = a :=
    Fin.ext ((hs.termNum_running hr).symm.trans ha)
  refine ⟨fun fr => ?_, fun es k' hes hflag hticks t => ?_⟩
  · obtain ⟨t, ht⟩ := hs.exists_next hr
    have hnext : k.nextTerm = some t := ht
    refine ⟨k.switchTask fr t, ?_, (hs.nextTerm_eq hr).symm.trans ht⟩
    rw [pitHandler, if_neg hr, hnext, Option.map_some]
  · have hv := visits_ticked hshell hs hst hr hes hflag
    have hround := hv.eq_turns searchOrder_cyclic
      ((length_ticked hes).trans (hticks.trans (length_turns _ _).symm))
    rw [hround, count_turns]

/-- A tick, a program that halts, and another tick. -/
def tickHaltTick : List Event := [.tick ⟨9, 9⟩, .halt 0 ⟨9, 9⟩ [], .tick ⟨9, 9⟩]

/-- Two terminals are launched, and two ticks make each of them active once. -/
theorem pit_rotates_two : ∃ k k',
    Runs.run (step shellDisk) Boot.zero.kernel threeProcesses = some k ∧
    Runs.run (step shellDisk) k tickHaltTick = some k' ∧
    (ticked shellDisk k tickHaltTick).count 0 = 1 ∧
    (ticked shellDisk k tickHaltTick).count 1 = 1 := by
  have hrun : (Runs.run (step shellDisk) Boot.zero.kernel threeProcesses).bind (fun k =>
      (Runs.run (step shellDisk) k tickHaltTick).map fun k' =>
        (k.running, (k.proc.slots k.running).termNum, (List.finRange 3).map k.launched,
          (List.finRange 3).map k'.launched)) =
      some (3, 1, [true, true, false], [true, true, false]) := by
    decide +kernel
  obtain ⟨k, hk, h⟩ := Option.bind_eq_some_iff.mp hrun
  obtain ⟨k', hk', h⟩ := Option.map_eq_some_iff.mp h
  simp only [Prod.mk.injEq] at h
  obtain ⟨hr, ha, hl, hl'⟩ := h
  have hflag : k.launched = ![true, true, false] :=
    List.ofFn_injective ((List.ofFn_eq_map ..).trans hl)
  have hflag' : k'.launched = k.launched :=
    List.ofFn_injective ((List.ofFn_eq_map ..).trans (hl'.trans
      (hl.symm.trans (List.ofFn_eq_map ..).symm)))
  have hround := (pit_rotates shellLoadable_shellDisk hk (by rw [hr]; decide)
    (a := 1) ha).2 tickHaltTick k' hk' hflag' (by rw [hflag]; decide)
  have h₀ := hround 0
  have h₁ := hround 1
  rw [hflag] at h₀ h₁
  exact ⟨k, k', hk, hk', h₀, h₁⟩

end Kernel

end HarambeOs
