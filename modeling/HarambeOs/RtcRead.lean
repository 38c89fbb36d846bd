import HarambeOs.Machine

/-!
# RtcRead — waiting for the clock

`rtc_read` waits for `flag`, which `rtc_handler` sets, and clears it.  There is one flag for all
processes, and a timer tick may fall between the test and the assignment: another process may see
the same flag, and an interrupt may come and be cleared unseen.

What is left of the clock is **`rtcReads_paced`**: of no process do more reads complete than there
were interrupts, but for the flag it found set; and with one reader each interrupt completes one
read, unless it came before the last one was taken.

In `Kernel.cRead` such a read is one event, which completes at once: it changes nothing else.
`clockStep` is the kernel with the statements of the readers, and **`clock_refines`** says that its
runs are runs of the kernel in which the read is made at the call.
-/

namespace HarambeOs

/-- Where a process is in `rtc_read`. -/
inductive ReaderPc
  | outside
  /-- `if (flag == ON)` -/
  | test
  /-- `flag = OFF` -/
  | clear
  deriving DecidableEq

structure RtcWait (R : Type*) where
  flag : Bool
  pc : R → ReaderPc

/-- A statement of a reader, or an interrupt; the handler runs with interrupts off. -/
inductive WaitEvent (R : Type*)
  | rtcHandler
  | call (r : R)
  | test (r : R)
  | clear (r : R)
  deriving DecidableEq

/-- The process whose statement it is. -/
def WaitEvent.reader {R : Type*} : WaitEvent R → Option R
  | .rtcHandler => none
  | .call r | .test r | .clear r => some r

/-- What happened so far: interrupts, those that found the flag set, and reads completed. -/
structure Tally (R : Type*) where
  interrupts : ℕ
  merged : ℕ
  returns : R → ℕ

namespace RtcWait

variable {R : Type*} [DecidableEq R]

def goto (w : RtcWait R) (r : R) (pc : ReaderPc) : RtcWait R :=
  { w with pc := Function.update w.pc r pc }

def step (w : RtcWait R) : WaitEvent R → Option (RtcWait R)
  | .rtcHandler => some { w with flag := true }
  | .call r => if w.pc r = .outside then some (w.goto r .test) else none
  | .test r =>
    if w.pc r = .test then some (if w.flag then w.goto r .clear else w) else none
  | .clear r => if w.pc r = .clear then some { w.goto r .outside with flag := false } else none

def tally (w : RtcWait R) (e : WaitEvent R) (_ : RtcWait R) (t : Tally R) : Tally R :=
  match e with
  | .rtcHandler =>
    { t with interrupts := t.interrupts + 1, merged := t.merged + w.flag.toNat }
  | .clear r => { t with returns := Function.update t.returns r (t.returns r + 1) }
  | .call _ | .test _ => t

/-- The reads, with their history. -/
def reads : RtcWait R × Tally R → WaitEvent R → Option (RtcWait R × Tally R) :=
  Runs.withGhost step tally

/-- Nothing has happened yet. -/
def Tally.zero : Tally R := ⟨0, 0, fun _ => 0⟩

/-- Whether a reader may go on without another interrupt. -/
def released (w : RtcWait R) (r : R) : Bool := w.flag || w.pc r = .clear

variable {w w' : RtcWait R} {e : WaitEvent R}

theorem step_cases (h : w.step e = some w') :
    (e = .rtcHandler ∧ w' = { w with flag := true }) ∨
    (∃ r, e = .call r ∧ w.pc r = .outside ∧ w' = w.goto r .test) ∨
    (∃ r, e = .test r ∧ w.pc r = .test ∧
      (w.flag = true ∧ w' = w.goto r .clear ∨ w.flag = false ∧ w' = w)) ∨
    ∃ r, e = .clear r ∧ w.pc r = .clear ∧ w' = { w.goto r .outside with flag := false } := by
  cases e with
  | rtcHandler => exact .inl ⟨rfl, (Option.some.inj h).symm⟩
  | call r =>
    rw [step, Option.ite_none_right_eq_some] at h
    exact .inr (.inl ⟨r, rfl, h.1, (Option.some.inj h.2).symm⟩)
  | test r =>
    rw [step, Option.ite_none_right_eq_some] at h
    refine .inr (.inr (.inl ⟨r, rfl, h.1, ?_⟩))
    have hw := Option.some.inj h.2
    cases hflag : w.flag with
    | true => exact .inl ⟨rfl, by rw [← hw, hflag]; rfl⟩
    | false => exact .inr ⟨rfl, by rw [← hw, hflag]; rfl⟩
  | clear r =>
    rw [step, Option.ite_none_right_eq_some] at h
    exact .inr (.inr (.inr ⟨r, rfl, h.1, (Option.some.inj h.2).symm⟩))

/-- A statement of another process moves no reader. -/
theorem pc_goto_of_ne {r q : R} (h : r ≠ q) (pc : ReaderPc) : (w.goto q pc).pc r = w.pc r :=
  Function.update_of_ne h ..

theorem pc_goto_self (r : R) (pc : ReaderPc) : (w.goto r pc).pc r = pc := Function.update_self ..

/-! ## Many readers -/

/-- Reads completed, and one more if it needs no interrupt, against interrupts. -/
def Paced (flag₀ : Bool) (r : R) (s : RtcWait R × Tally R) : Prop :=
  s.2.returns r + (s.1.released r).toNat ≤ s.2.interrupts + flag₀.toNat

theorem paced_step {flag₀ : Bool} {r : R} {t t' : Tally R} (hp : Paced flag₀ r (w, t))
    (h : reads (w, t) e = some (w', t')) : Paced flag₀ r (w', t') := by
  obtain ⟨hstep, rfl⟩ := Runs.withGhost_eq_some.mp h
  have hle : t.returns r ≤ t.interrupts + flag₀.toNat := le_of_add_le_left hp
  simp only [Paced, released] at hp ⊢
  obtain ⟨rfl, rfl⟩ | ⟨q, rfl, hq, rfl⟩ | ⟨q, rfl, -, ⟨hf, rfl⟩ | ⟨-, rfl⟩⟩ | ⟨q, rfl, hq, rfl⟩ :=
    step_cases hstep
  · simp only [tally, Bool.true_or, Bool.toNat_true]
    omega
  · -- A process that calls was outside, and is not yet at the assignment.
    have hclear : (w.goto q .test).pc r = .clear ↔ w.pc r = .clear := by
      by_cases hr : r = q
      · simp [hr, pc_goto_self, hq]
      · rw [pc_goto_of_ne hr]
    simp only [tally, hclear]
    exact hp
  · -- A flag that is set releases every reader.
    simpa only [tally, goto, hf, Bool.true_or] using hp
  · exact hp
  · by_cases hr : r = q
    · -- The read used up what it was released by.
      subst hr
      simp only [hq, decide_true, Bool.or_true, Bool.toNat_true] at hp
      simpa [tally, pc_goto_self] using hp
    · simp only [tally, pc_goto_of_ne hr, Function.update_of_ne hr, Bool.false_or]
      exact (Nat.add_le_add_left (Bool.toNat_le_toNat (Bool.right_le_or _ _)) _).trans hp

/-! ## One reader -/

/-- With `r` alone, the assignment finds the flag set, and every interrupt is counted once: as a
read, as one that found the flag set, or as the flag. -/
structure Alone (flag₀ : Bool) (r : R) (s : RtcWait R × Tally R) : Prop where
  set : s.1.pc r = .clear → s.1.flag = true
  counted : s.2.returns r + s.2.merged + s.1.flag.toNat = s.2.interrupts + flag₀.toNat

theorem alone_step {flag₀ : Bool} {r : R} {t t' : Tally R} (ha : Alone flag₀ r (w, t))
    (hr : ∀ q, e.reader = some q → q = r) (h : reads (w, t) e = some (w', t')) :
    Alone flag₀ r (w', t') := by
  obtain ⟨hstep, rfl⟩ := Runs.withGhost_eq_some.mp h
  obtain ⟨hset, hcount⟩ := ha
  obtain ⟨rfl, rfl⟩ | ⟨q, rfl, hq, rfl⟩ | ⟨q, rfl, -, ⟨hf, rfl⟩ | ⟨-, rfl⟩⟩ | ⟨q, rfl, hq, rfl⟩ :=
    step_cases hstep
  · refine ⟨fun _ => rfl, ?_⟩
    simp only [tally, Bool.toNat_true] at hcount ⊢
    omega
  · obtain rfl := hr q rfl
    refine ⟨fun hpc => ?_, hcount⟩
    rw [pc_goto_self] at hpc
    cases hpc
  · exact ⟨fun _ => hf, hcount⟩
  · exact ⟨hset, hcount⟩
  · obtain rfl := hr q rfl
    have hflag : w.flag = true := hset hq
    refine ⟨fun hpc => ?_, ?_⟩
    · have hout : (w.goto q .outside).pc q = .clear := hpc
      rw [pc_goto_self] at hout
      cases hout
    · simp only [hflag, Bool.toNat_true] at hcount
      simp only [tally, Function.update_self, Bool.toNat_false]
      omega

/-- **The clock paces its readers.**  However the statements of the readers and the interrupts
interleave, no process completes more reads than there were interrupts, but for the flag set at the
start; and a process that reads alone completes one read for each interrupt, except for those that
came while the flag was still set, and for the one that is still to be read. -/
theorem rtcReads_paced {flag₀ : Bool} {es : List (WaitEvent R)} {w : RtcWait R} {t : Tally R}
    (h : Runs.run reads (⟨flag₀, fun _ => .outside⟩, Tally.zero) es = some (w, t)) (r : R) :
    t.returns r ≤ t.interrupts + flag₀.toNat ∧
      ((∀ e ∈ es, ∀ q, e.reader = some q → q = r) →
        t.returns r + t.merged + w.flag.toNat = t.interrupts + flag₀.toNat) := by
  constructor
  · have hstart : Paced flag₀ r (⟨flag₀, fun _ => .outside⟩, Tally.zero) := by
      simp [Paced, released, Tally.zero]
    exact le_of_add_le_left (Runs.run_invariant (fun _ _ _ hp => paced_step hp) hstart h)
  · intro hr
    have hstart : Alone flag₀ r (⟨flag₀, fun _ => .outside⟩, Tally.zero) :=
      ⟨fun hpc => (ReaderPc.noConfusion hpc), by simp [Tally.zero]⟩
    exact (Runs.run_guarded (fun _ _ _ ha hq => alone_step ha hq) hstart
      (Runs.guarded_of_forall (fun e he _ => hr e he) _) h).counted

/-- Two interrupts come before the only reader looks, one between its test and its assignment. -/
def hurried : List (WaitEvent (Fin 2)) :=
  [.rtcHandler, .rtcHandler, .call 0, .test 0, .rtcHandler, .clear 0, .call 0, .test 0, .rtcHandler]

theorem rtcReads_paced_hurried : ∃ w t,
    Runs.run reads ((⟨false, fun _ => .outside⟩ : RtcWait (Fin 2)), Tally.zero) hurried =
        some (w, t) ∧
      t.returns 0 ≤ 4 ∧ t.returns 0 + 2 + 1 = 4 := by
  have hrun : Runs.run reads ((⟨false, fun _ => .outside⟩ : RtcWait (Fin 2)), Tally.zero) hurried =
      some (_, _) := rfl
  refine ⟨_, _, hrun, (rtcReads_paced hrun 0).1, (rtcReads_paced hrun 0).2 (by decide)⟩

end RtcWait

/-! ## The clock in the kernel -/

/-- Whether a call is an `rtc_read`: a read through a descriptor open for the clock. -/
def Kernel.readsClock (k : Kernel) : Call → Bool
  | .read fd (some _) _ _ => decide (0 ≤ fd ∧ fd ≤ maxFdVal ∧ fd ≠ 1) &&
      k.proc.pcb.any fun p => decide (((k.proc.slots p).fdArray fd.toNat).flags ≠ 0) &&
        decide (((k.proc.slots p).fdArray fd.toNat).operations = some .rtc)
  | _ => false

/-- Such a read is 0, and changes nothing but the flag. -/
theorem Kernel.step_of_readsClock {fs : FileSystem} {k : Kernel} {c : Call}
    (h : k.readsClock c = true) : k.step fs (.call c) = some k := by
  cases c with
  | read fd buf nbytes beyond =>
    cases buf with
    | none => cases h
    | some buf =>
      simp only [readsClock, Bool.and_eq_true, decide_eq_true_eq, Option.any_eq_true] at h
      obtain ⟨⟨hfd, hmax, hone⟩, p, hp, hflags, hops⟩ := h
      have hread : k.cRead fs fd (some buf) nbytes beyond = some (k, 0, some buf) := by
        simp only [cRead, hp]
        rw [if_neg (by omega), if_neg (not_or.mpr ⟨hflags, hone⟩), hops]
      rw [step, transition, call, hread]
      rfl
  | _ => cases h

/-- What happens in the kernel and its clock.  An `rtc_read` by process `r` begins with its call. -/
inductive ClockEvent
  | kernel (e : Event)
  | read (c : Call) (r : Nat)
  | rtcHandler
  | test (r : Nat)
  | clear (r : Nat)

namespace ClockEvent

/-- What the kernel sees of it. -/
def event : ClockEvent → Option Event
  | .kernel e => some e
  | .read c _ => some (.call c)
  | .rtcHandler | .test _ | .clear _ => none

/-- What the readers see of it. -/
def wait : ClockEvent → Option (WaitEvent Nat)
  | .kernel _ => none
  | .read _ r => some (.call r)
  | .rtcHandler => some .rtcHandler
  | .test r => some (.test r)
  | .clear r => some (.clear r)

end ClockEvent

/-- Events that the running process causes, and not an interrupt. -/
def Event.byProcess : Event → Bool
  | .execute _ _ _ | .halt _ _ _ | .call _ => true
  | .tick _ | .key _ _ _ _ | .ctrl4Turn => false

/-- One event of the kernel and its clock.  The statements are those of the running process, and a
process that waits does nothing else. -/
def clockStep (fs : FileSystem) (s : Kernel × RtcWait Nat) (e : ClockEvent) :
    Option (Kernel × RtcWait Nat) :=
  match e with
  | .kernel e =>
    if e.byProcess ∧ s.2.pc s.1.running ≠ .outside then none else (s.1.step fs e).map (·, s.2)
  | .read c r =>
    if r = s.1.running ∧ s.1.readsClock c then (s.2.step (.call r)).map (s.1, ·) else none
  | .rtcHandler => (s.2.step .rtcHandler).map (s.1, ·)
  | .test r => if r = s.1.running then (s.2.step (.test r)).map (s.1, ·) else none
  | .clear r => if r = s.1.running then (s.2.step (.clear r)).map (s.1, ·) else none

/-- One event, on either side. -/
theorem clockStep_eq_some {fs : FileSystem} {s s' : Kernel × RtcWait Nat} {e : ClockEvent}
    (h : clockStep fs s e = some s') :
    (e.event.elim (s'.1 = s.1) fun d => s.1.step fs d = some s'.1) ∧
      e.wait.elim (s'.2 = s.2) fun d => s.2.step d = some s'.2 := by
  have hwait {d : WaitEvent Nat} (h : (s.2.step d).map (s.1, ·) = some s') :
      s'.1 = s.1 ∧ s.2.step d = some s'.2 := by
    obtain ⟨w, hw, rfl⟩ := Option.map_eq_some_iff.mp h
    exact ⟨rfl, hw⟩
  cases e with
  | kernel e =>
    rw [clockStep, Option.ite_none_left_eq_some] at h
    obtain ⟨k, hk, rfl⟩ := Option.map_eq_some_iff.mp h.2
    exact ⟨hk, rfl⟩
  | read c r =>
    rw [clockStep, Option.ite_none_right_eq_some] at h
    obtain ⟨hk, hw⟩ := hwait h.2
    exact ⟨(Kernel.step_of_readsClock h.1.2).trans (congrArg some hk.symm), hw⟩
  | rtcHandler => exact hwait h
  | test r | clear r =>
    rw [clockStep, Option.ite_none_right_eq_some] at h
    exact hwait h.2

/-- **Waiting refines the read that completes at once.**  A run of the kernel with its clock is a
run of the kernel, with every read of the clock where it was called, and a run of the readers. -/
theorem clock_refines {fs : FileSystem} {k k' : Kernel} {w w' : RtcWait Nat}
    {es : List ClockEvent} (h : Runs.run (clockStep fs) (k, w) es = some (k', w')) :
    Runs.run (Kernel.step fs) k (es.filterMap ClockEvent.event) = some k' ∧
      Runs.run RtcWait.step w (es.filterMap ClockEvent.wait) = some w' :=
  ⟨Runs.run_filterMap Prod.fst ClockEvent.event (fun _ _ _ hs => (clockStep_eq_some hs).1) h,
    Runs.run_filterMap Prod.snd ClockEvent.wait (fun _ _ _ hs => (clockStep_eq_some hs).2) h⟩

end HarambeOs
