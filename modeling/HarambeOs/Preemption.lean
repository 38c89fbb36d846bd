import HarambeOs.Contexts

/-!
# Preemption — `c_execute` calls that a tick can fall into

System calls run with interrupts on, so a tick can take the processor from a `c_execute` that is
half done and give it to another terminal's.  Here `c_execute` is four steps: a number is chosen,
the image is loaded, the PCB is built, the terminal's entry is written.  A call's local variables
are in its `Stage`; `process_counter` and `PCB` are globals that all calls share.

A call that nobody interrupts is `c_execute` (`execute_uninterrupted`).  As long as no call starts
while another one is half done, the calls do not disturb each other (`preempted_consistent`);
otherwise two terminals can end up with the same process (`preempted_twice`).
-/

namespace HarambeOs

/-- How far a terminal's `c_execute` call has got, with its local variables. -/
inductive Stage
  | idle
  | chosen (fr : Frame) (junk : List UInt8) (inode count : Nat)
  | loaded (fr : Frame) (junk : List UInt8) (count eip : Nat)
  | built (fr : Frame) (junk : List UInt8) (count eip : Nat)

/-- A call begins or goes on, on the active terminal, or a tick comes. -/
inductive FineEvent
  | choose (command : Option (List UInt8)) (fr : Frame) (junk : List UInt8)
  | proceed
  | tick (fr : Frame)

namespace Kernel

/-- A call of `c_execute` up to the choice of a number. -/
def beginExecute (fs : FileSystem) (command : Option (List UInt8)) (fr : Frame) (junk : List UInt8)
    (k : Kernel) : Kernel × Stage :=
  let k := { k with cpu := fr }
  match command with
  | none => (k.prepare none, .idle)
  | some command =>
    let parsed := parseCommand command
    match findProgram fs parsed.1 junk with
    | none => (k.prepare parsed.2, .idle)
    | some inode =>
      let k := k.prepare parsed.2
      ({ k with proc := k.proc.chooseSlot.1 }, .chosen fr junk inode k.proc.chooseSlot.2)

/-- The next step of a call. -/
def proceed (fs : FileSystem) (k : Kernel) : Stage → Option (Kernel × Stage)
  | .idle => none
  | .chosen fr junk inode count =>
    (loadImage fs inode { k with cpu := fr }).map fun r => (r.1, .loaded fr junk count r.2)
  | .loaded fr junk count eip => some ({ k with cpu := fr }.buildPcb, .built fr junk count eip)
  | .built fr junk count _ =>
    if count > maxProcessVal then
      (cHaltWith (cExecute fs junk 1 (some shell)) 0 { k with cpu := fr }.tooMany).map fun r =>
        (r.1, .idle)
    else some ({ k with cpu := fr }.commit, .idle)

/-- One step of the machine. -/
def fineStep (fs : FileSystem) : Kernel × (Term → Stage) → FineEvent →
    Option (Kernel × (Term → Stage))
  | (k, st), .choose command fr junk =>
    match st k.display.activeTerminal with
    | .idle =>
      let r := k.beginExecute fs command fr junk
      some (r.1, Function.update st k.display.activeTerminal r.2)
    | _ => none
  | (k, st), .proceed =>
    (k.proceed fs (st k.display.activeTerminal)).map fun r =>
      (r.1, Function.update st k.display.activeTerminal r.2)
  | (k, st), .tick fr => (k.pitHandler fr).map fun k => (k, st)

/-! ## A call nobody interrupts -/

/-- A call that is taken to its end. -/
def finish (fs : FileSystem) : Nat → Kernel × Stage → Option Kernel
  | _, (k, .idle) => some k
  | 0, _ => none
  | n + 1, (k, st) => (k.proceed fs st).bind (finish fs n)

/-- The steps after the choice are `startProgram`. -/
theorem finish_chosen (fs : FileSystem) (inode : Nat) (junk : List UInt8) (k : Kernel) :
    finish fs 3 ({ k with proc := k.proc.chooseSlot.1 },
      .chosen k.cpu junk inode k.proc.chooseSlot.2) =
      (k.startProgram fs (cHaltWith (cExecute fs junk 1 (some shell)) 0) inode).map Prod.fst := by
  change (((loadImage fs inode { k with proc := k.proc.chooseSlot.1 }).map fun r =>
    (r.1, Stage.loaded k.cpu junk k.proc.chooseSlot.2 r.2)).bind (finish fs 2)) = _
  unfold startProgram
  simp only
  cases hload : loadImage fs inode { k with proc := k.proc.chooseSlot.1 } with
  | none => rfl
  | some r =>
    obtain ⟨k₁, eip⟩ := r
    obtain ⟨phys, hk₁⟩ := loadImage_eq_some hload
    have hcpu : { k₁ with cpu := k.cpu } = k₁ := by rw [hk₁]
    have hcpu' : { k₁.buildPcb with cpu := k.cpu } = k₁.buildPcb := by rw [hk₁]; rfl
    change ((k₁.proceed fs (.loaded k.cpu junk k.proc.chooseSlot.2 eip)).bind (finish fs 1)) = _
    rw [proceed, hcpu]
    change ((k₁.buildPcb.proceed fs (.built k.cpu junk k.proc.chooseSlot.2 eip)).bind
      (finish fs 0)) = _
    rw [proceed, hcpu']
    split
    · simp only
      cases cHaltWith (cExecute fs junk 1 (some shell)) 0 k₁.buildPcb.tooMany <;> rfl
    · rfl

/-- **A call nobody interrupts is `c_execute`.** -/
theorem execute_uninterrupted (fs : FileSystem) (command : Option (List UInt8)) (fr : Frame)
    (junk : List UInt8) (k : Kernel) :
    finish fs 3 (k.beginExecute fs command fr junk) =
      (k.execute fs command fr junk).map Prod.fst := by
  unfold beginExecute
  rw [execute, callDepth, cExecute]
  unfold cExecuteWith
  cases command with
  | none => rfl
  | some command =>
    cases hfind : findProgram fs (parseCommand command).1 junk with
    | none =>
      simp only [hfind]
      rfl
    | some inode =>
      simp only [hfind]
      have hcpu : (prepare (parseCommand command).2 { k with cpu := fr }).cpu = fr := rfl
      generalize prepare (parseCommand command).2 { k with cpu := fr } = k' at hcpu ⊢
      rw [← hcpu]
      exact finish_chosen fs inode junk k'

end Kernel

/-! ## The ledger of the calls -/

/-- What a call is owed: the number it chose, the process that made it, and its registers. -/
structure Mark where
  slot : Nat
  caller : Nat
  frame : Frame

/-- A process started: by which terminal's call, what that call was owed, and the number the
terminal's entry was given. -/
structure Start extends Mark where
  term : Term
  pid : Nat

/-- The last call of each terminal, and the processes started, the latest first. -/
structure Ledger where
  mark : Term → Mark
  started : List Start

namespace Ledger

def empty : Ledger := ⟨fun _ => ⟨0, 0, ⟨0, 0⟩⟩, []⟩

/-- A call of terminal `t` noted. -/
def owe (l : Ledger) (t : Term) (m : Mark) : Ledger := { l with mark := Function.update l.mark t m }

/-- The process of terminal `t`'s last call noted, as it was entered. -/
def enter (l : Ledger) (t : Term) (pid : Nat) : Ledger :=
  { l with started := ⟨l.mark t, t, pid⟩ :: l.started }

/-- A call of terminal `t` that goes on from the given stage; `pid` is what it entered, if any. -/
def goOn (l : Ledger) (t : Term) (pid : Nat) : Stage → Ledger
  | .built _ _ count _ => if count > maxProcessVal then l else l.enter t pid
  | _ => l

/-- The ledger after a step. -/
def note (r : Kernel × (Term → Stage)) (e : FineEvent) (r' : Kernel × (Term → Stage))
    (l : Ledger) : Ledger :=
  let t := r.1.display.activeTerminal
  match e with
  | .choose _ fr _ => l.owe t ⟨r'.1.proc.processCounter, r.1.running, fr⟩
  | .proceed => l.goOn t r'.1.running (r.2 t)
  | .tick _ => l

end Ledger

/-- The processes started have different numbers; each was entered with the number its own call
chose, its PCB holds what its own call is owed, and it is the last one of its terminal unless a
later call put another on top. -/
structure Consistent (k : Kernel) (l : Ledger) : Prop where
  distinct : (l.started.map Start.pid).Nodup
  own : ∀ x ∈ l.started, x.pid = x.slot
  pcb : ∀ x ∈ l.started, (k.proc.slots x.slot).link = ⟨x.slot, x.caller, x.term, x.frame⟩
  last : ∀ t x, l.started.find? (·.term = t) = some x → (k.proc.termArr t).lastActivePro = x.slot

/-- No call that finds its program begins while another terminal's is half done. -/
def OneAtATime (fs : FileSystem) (r : (Kernel × (Term → Stage)) × Ledger) : FineEvent → Prop
  | .choose command _ junk => resolves fs command junk = true →
      ∀ t, t ≠ r.1.1.display.activeTerminal → r.1.2 t = .idle
  | _ => True

/-! ## What the steps keep -/

/-- Two states of the scheduler with the same process table. -/
structure SameTable (s s' : Sched) : Prop where
  last : s'.last = s.last
  flag : s'.flag = s.flag
  pidArr : s'.pidArr = s.pidArr
  link : s'.link = s.link
  pcb : s'.pcb = s.pcb
  flagger : s'.flagger = s.flagger
  intiFlag : s.intiFlag = true → s'.intiFlag = true

/-- A process that was started is in the table as its own call entered it. -/
structure Done (s : Sched) (x : Start) : Prop where
  pid : x.pid = x.slot
  slot : ∃ i, x.slot = i + 1 ∧ i < findUniversal ∧ s.pidArr i = true
  link : s.link x.slot = ⟨x.slot, x.caller, x.term, x.frame⟩

/-- The processes that were started. -/
structure Entered (s : Sched) (xs : List Start) : Prop where
  quiet : s.Quiet
  flag : ∀ t, s.flag t = false → s.last t = 0
  slots : (xs.map fun x => x.slot).Nodup
  done : ∀ x ∈ xs, Done s x
  last : ∀ t x, xs.find? (·.term = t) = some x → s.last t = x.slot

/-- A call that chose number `m.slot` and still has the global counter, here `n`, to itself.  It
marked its number, or found the table full. -/
structure Held (s : Sched) (n : Nat) (xs : List Start) (t : Term) (m : Mark) (fr : Frame)
    (count : Nat) : Prop where
  counter : n = m.slot
  caller : s.last t = m.caller
  frame : m.frame = fr
  init : s.intiFlag = true
  slot : (m.slot = count + 1 ∧ count < findUniversal ∧ s.pidArr count = true ∧
      ∀ x ∈ xs, x.slot ≠ count + 1) ∨
    (m.slot = maxProcessSet ∧ count = findUniversal ∧ s.freeIndex = none)

/-- What holds of a call at each stage. -/
def Waiting (s : Sched) (n : Nat) (xs : List Start) (t : Term) (m : Mark) : Stage → Prop
  | .idle => True
  | .chosen fr _ _ count => Held s n xs t m fr count
  | .loaded fr _ count _ => Held s n xs t m fr count
  | .built fr _ count _ => Held s n xs t m fr count ∧ s.pcb = some m.slot ∧
      (s.link m.slot).pid = m.slot ∧ (s.link m.slot).frame = fr

/-- The calls are in order: at most one is half done, and it has the shared globals to itself. -/
structure Ordered (s : Sched) (n : Nat) (st : Term → Stage) (l : Ledger) : Prop where
  entered : Entered s l.started
  alone : ∀ t u, st t ≠ .idle → st u ≠ .idle → t = u
  waiting : ∀ t, Waiting s n l.started t (l.mark t) (st t)

section

variable {s s' : Sched} {n count : Nat} {xs : List Start} {t : Term} {m : Mark} {fr : Frame}
  {st : Term → Stage} {stage : Stage} {l : Ledger}

theorem Entered.congr (h : Entered s xs) (hs : SameTable s s') : Entered s' xs := by
  obtain ⟨hlast, hflag, hpid, hlink, -, hflagger, hinit⟩ := hs
  have hi (hi' : s'.intiFlag = false) : s.intiFlag = false :=
    Bool.eq_false_iff.mpr fun h => Bool.false_ne_true (hi'.symm.trans (hinit h))
  refine ⟨⟨hflagger.trans h.quiet.flagger, fun h₀ => ?_, fun h₀ => ?_⟩, ?_, h.slots,
    fun x hx => ?_, ?_⟩
  · rw [hlast]
    exact h.quiet.last (hi h₀)
  · rw [hflag]
    exact h.quiet.flag (hi h₀)
  · rw [hlast, hflag]
    exact h.flag
  · obtain ⟨h₁, h₂, h₃⟩ := h.done x hx
    exact ⟨h₁, by rwa [hpid], by rwa [hlink]⟩
  · rw [hlast]
    exact h.last

theorem Held.congr (h : Held s n xs t m fr count) (hs : SameTable s s') :
    Held s' n xs t m fr count := by
  refine ⟨h.counter, ?_, h.frame, hs.intiFlag h.init, ?_⟩
  · rw [hs.last]
    exact h.caller
  · rw [Sched.freeIndex, hs.pidArr]
    exact h.slot

theorem Waiting.congr (h : Waiting s n xs t m stage) (hs : SameTable s s') :
    Waiting s' n xs t m stage := by
  cases stage with
  | idle => trivial
  | chosen => exact Held.congr h hs
  | loaded => exact Held.congr h hs
  | built =>
    obtain ⟨hheld, hpcb, hlink⟩ := h
    exact ⟨hheld.congr hs, by rwa [hs.pcb], by rwa [hs.link]⟩

theorem Ordered.congr (h : Ordered s n st l) (hs : SameTable s s') : Ordered s' n st l :=
  ⟨h.entered.congr hs, h.alone, fun t => (h.waiting t).congr hs⟩

/-- While a call is half done no other is. -/
theorem Ordered.others (h : Ordered s n st l) (ht : st t ≠ .idle) (u : Term) (hu : u ≠ t) :
    st u = .idle := by
  by_contra hne
  exact hu (h.alone u t hne ht)

/-- A half-done call finds what it waits for, and no other is half done. -/
theorem Ordered.waiting_of_eq (h : Ordered s n st l) (hst : st t = stage) (hne : stage ≠ .idle) :
    Waiting s n l.started t (l.mark t) stage ∧ ∀ u, u ≠ t → st u = .idle := by
  subst hst
  exact ⟨h.waiting t, h.others hne⟩

/-- Where no other call is half done, only the one at hand has anything to wait for. -/
theorem Entered.ordered (h : Entered s l.started) (hidle : ∀ u, u ≠ t → st u = .idle)
    (hw : Waiting s n l.started t (l.mark t) stage) :
    Ordered s n (Function.update st t stage) l := by
  have hne (u : Term) (hu : Function.update st t stage u ≠ .idle) : u = t := by
    by_contra hut
    rw [Function.update_of_ne hut] at hu
    exact hu (hidle u hut)
  refine ⟨h, fun u v hu hv => (hne u hu).trans (hne v hv).symm, fun u => ?_⟩
  rcases eq_or_ne u t with rfl | hut
  · rwa [Function.update_self]
  · rw [Function.update_of_ne hut, hidle u hut]
    trivial

/-- The number of a call is no started process's. -/
theorem Held.fresh (h : Held s n xs t m fr count) (hs : Entered s xs) {x : Start} (hx : x ∈ xs) :
    x.slot ≠ m.slot := by
  rcases h.slot with ⟨hm, -, -, hnew⟩ | ⟨hm, -, -⟩
  · rw [hm]
    exact hnew x hx
  · obtain ⟨i, hi, hlt, -⟩ := (hs.done x hx).slot
    rw [hm, hi]
    exact Nat.ne_of_lt (Nat.succ_lt_succ hlt)

theorem Held.pos (h : Held s n xs t m fr count) : 0 < m.slot := by
  rcases h.slot with ⟨hm, -⟩ | ⟨hm, -⟩ <;> rw [hm]
  · exact Nat.succ_pos count
  · decide

/-- The PCB of a number that is no started process's. -/
theorem Entered.build (h : Entered s xs) {p : Nat} (hp : ∀ x ∈ xs, x.slot ≠ p) :
    Entered (s.build p) xs := by
  refine ⟨⟨h.quiet.1, h.quiet.2, h.quiet.3⟩, h.flag, h.slots, fun x hx => ?_, h.last⟩
  obtain ⟨hpid, hslot, hlink⟩ := h.done x hx
  exact ⟨hpid, hslot, (Function.update_of_ne (hp x hx) _ _).trans hlink⟩

/-- **A process is entered as its call is owed.** -/
theorem Entered.commit (h : Entered s xs) {x : Start} (hpid : x.pid = x.slot)
    (hterm : x.term = s.active) (hcaller : s.last s.active = x.caller)
    (hframe : (s.link x.slot).frame = x.frame) (hinit : s.intiFlag = true)
    (hslot : ∃ i, x.slot = i + 1 ∧ i < findUniversal ∧ s.pidArr i = true)
    (hnew : ∀ y ∈ xs, y.slot ≠ x.slot) : Entered (s.commit x.slot) (x :: xs) := by
  have hlast : (s.commit x.slot).last x.term = x.slot := by
    rw [hterm]
    exact Function.update_self ..
  refine ⟨Sched.quiet_of_intiFlag h.quiet.flagger hinit, fun u hu => ?_, ?_, fun y hy => ?_,
    fun u y hy => ?_⟩
  · rcases eq_or_ne u s.active with rfl | hne
    · exact absurd ((Function.update_self ..).symm.trans hu) nofun
    · refine (Function.update_of_ne hne _ _).trans (h.flag u ?_)
      exact (Function.update_of_ne hne _ _).symm.trans hu
  · refine List.nodup_cons.mpr ⟨fun hx => ?_, h.slots⟩
    obtain ⟨y, hy, he⟩ := List.mem_map.mp hx
    exact hnew y hy he
  · rcases List.mem_cons.mp hy with rfl | hy
    · refine ⟨hpid, hslot, (Function.update_self ..).trans ?_⟩
      rw [Sched.parent_eq_running h.flag, Sched.running, hcaller, hframe, hterm]
    · obtain ⟨h₁, h₂, h₃⟩ := h.done y hy
      exact ⟨h₁, h₂, (Function.update_of_ne (hnew y hy) _ _).trans h₃⟩
  · rcases eq_or_ne x.term u with rfl | hne
    · rw [List.find?_cons_of_pos (by simp)] at hy
      rw [← Option.some.inj hy]
      exact hlast
    · rw [List.find?_cons_of_neg (by simpa using hne)] at hy
      rw [hterm] at hne
      exact (Function.update_of_ne hne.symm _ _).trans (h.last u y hy)

/-- A number marked. -/
theorem Entered.mark (h : Entered s xs) (i : Nat) :
    Entered { s with pidArr := Function.update s.pidArr i true } xs := by
  refine ⟨⟨h.quiet.1, h.quiet.2, h.quiet.3⟩, h.flag, h.slots, fun x hx => ?_, h.last⟩
  obtain ⟨hpid, ⟨j, hj, hlt, harr⟩, hlink⟩ := h.done x hx
  refine ⟨hpid, ⟨j, hj, hlt, ?_⟩, hlink⟩
  change Function.update s.pidArr i true j = true
  rw [Function.update_apply, harr, ite_self]

/-- A terminal without a call may note any. -/
theorem Ordered.mark (h : Ordered s n st l) (ht : st t = .idle) (m : Mark) :
    Ordered s n (Function.update st t .idle) (l.owe t m) := by
  rw [← ht, Function.update_eq_self]
  refine ⟨h.entered, h.alone, fun u => ?_⟩
  rcases eq_or_ne u t with rfl | hut
  · rw [ht]
    trivial
  · rw [show (l.owe t m).mark u = l.mark u from Function.update_of_ne hut _ _]
    exact h.waiting u

/-- What was entered in order is consistent. -/
theorem Entered.consistent {k : Kernel} (h : Entered k.sched l.started) : Consistent k l := by
  have hpid : l.started.map Start.pid = l.started.map fun x => x.slot :=
    List.map_congr_left fun x hx => (h.done x hx).pid
  refine ⟨?_, fun x hx => (h.done x hx).pid, fun x hx => (h.done x hx).link, h.last⟩
  rw [hpid]
  exact h.slots

end

namespace Kernel

variable {fs : FileSystem} {k k' : Kernel} {st : Term → Stage} {l : Ledger} {stage : Stage}

theorem processCounter_prepare (args : Option (List UInt8)) (k : Kernel) :
    (k.prepare args).proc.processCounter = k.proc.processCounter := by rw [prepare_eq]

/-- The number chosen is nobody else's, or the table is full. -/
theorem ordered_chosen (h : Entered k.sched l.started) {t : Term}
    (hidle : ∀ u, u ≠ t → st u = .idle) (hinit : k.sched.intiFlag = true) (inode : Nat)
    (junk : List UInt8) :
    Ordered { k with proc := k.proc.chooseSlot.1 }.sched k.proc.chooseSlot.1.processCounter
      (Function.update st t (.chosen k.cpu junk inode k.proc.chooseSlot.2))
      (l.owe t ⟨k.proc.chooseSlot.1.processCounter, k.sched.last t, k.cpu⟩) := by
  have hmark (m : Mark) : (l.owe t m).mark t = m := Function.update_self ..
  cases hi : k.sched.freeIndex with
  | some i =>
    obtain ⟨hfree, hlt⟩ := Sched.freeIndex_eq_some hi
    rw [chooseSlot_of_free hi]
    refine Entered.ordered (l := l.owe t _) (h.mark i) hidle ?_
    rw [hmark]
    refine ⟨rfl, rfl, rfl, hinit, Or.inl ⟨rfl, hlt, Function.update_self .., fun x hx he => ?_⟩⟩
    obtain ⟨j, hj, -, harr⟩ := (h.done x hx).slot
    have hij : j = i := Nat.succ_injective (hj.symm.trans he)
    exact Bool.false_ne_true (hfree.symm.trans (hij ▸ harr))
  | none =>
    rw [chooseSlot_of_full hi]
    refine Entered.ordered (l := l.owe t _) (h.congr ⟨rfl, rfl, rfl, rfl, rfl, rfl, id⟩) hidle ?_
    rw [hmark]
    exact ⟨rfl, rfl, rfl, hinit, Or.inr ⟨rfl, rfl, hi⟩⟩

theorem ordered_beginExecute (h : Ordered k.sched k.proc.processCounter st l)
    {command : Option (List UInt8)} {junk : List UInt8} (fr : Frame)
    (ht : st k.display.activeTerminal = .idle)
    (hg : resolves fs command junk = true → ∀ t, t ≠ k.display.activeTerminal → st t = .idle) :
    Ordered (k.beginExecute fs command fr junk).1.sched
      (k.beginExecute fs command fr junk).1.proc.processCounter
      (Function.update st k.display.activeTerminal (k.beginExecute fs command fr junk).2)
      (l.owe k.display.activeTerminal
        ⟨(k.beginExecute fs command fr junk).1.proc.processCounter, k.running, fr⟩) := by
  have hprep (args : Option (List UInt8)) :
      (prepare args { k with cpu := fr }).sched = (k.sched.enterWith fr).initialised :=
    sched_prepare (k := { k with cpu := fr }) (h.entered.quiet.enterWith fr) args
  have hsame (args : Option (List UInt8)) :
      SameTable k.sched (prepare args { k with cpu := fr }).sched := by
    rw [hprep]
    exact ⟨rfl, rfl, rfl, rfl, rfl, rfl, fun _ => rfl⟩
  have hfail (args : Option (List UInt8)) : Ordered (prepare args { k with cpu := fr }).sched
      (prepare args { k with cpu := fr }).proc.processCounter
      (Function.update st k.display.activeTerminal .idle) (l.owe k.display.activeTerminal
        ⟨(prepare args { k with cpu := fr }).proc.processCounter, k.running, fr⟩) := by
    rw [processCounter_prepare]
    exact (h.congr (hsame args)).mark ht _
  unfold beginExecute
  cases command with
  | none => exact hfail none
  | some command =>
    cases hfind : findProgram fs (parseCommand command).1 junk with
    | none =>
      simp only [hfind]
      exact hfail _
    | some inode =>
      simp only [hfind]
      have hres : resolves fs (some command) junk = true := congrArg Option.isSome hfind
      have hent := h.entered.congr (hsame (parseCommand command).2)
      have hsched := hprep (parseCommand command).2
      have hcpu : (prepare (parseCommand command).2 { k with cpu := fr }).cpu = fr := rfl
      generalize prepare (parseCommand command).2 { k with cpu := fr } = k' at hent hsched hcpu ⊢
      have hrun : k.running = k'.sched.last k.display.activeTerminal := by
        rw [hsched]
        rfl
      rw [hrun, ← hcpu]
      exact ordered_chosen hent (hg hres) (by rw [hsched]; rfl) inode junk

/-- The image is loaded. -/
theorem ordered_load (h : Ordered k.sched k.proc.processCounter st l) {fr : Frame}
    {junk : List UInt8} {inode count eip : Nat}
    (hst : st k.display.activeTerminal = .chosen fr junk inode count)
    (hload : loadImage fs inode { k with cpu := fr } = some (k', eip)) :
    Ordered k'.sched k'.proc.processCounter
      (Function.update st k.display.activeTerminal (.loaded fr junk count eip)) l := by
  obtain ⟨hw, hothers⟩ := h.waiting_of_eq hst nofun
  obtain ⟨hs, hn⟩ := sched_loadImage hload
  have hsame : SameTable k.sched k'.sched := by
    rw [hs]
    exact ⟨rfl, rfl, rfl, rfl, rfl, rfl, id⟩
  rw [hn]
  have hw' : Waiting k'.sched k.proc.processCounter l.started _ (l.mark _)
      (.loaded fr junk count eip) := Held.congr hw hsame
  exact Entered.ordered (h.entered.congr hsame) hothers hw'

/-- The PCB is built. -/
theorem ordered_build (h : Ordered k.sched k.proc.processCounter st l) {fr : Frame}
    {junk : List UInt8} {count eip : Nat}
    (hst : st k.display.activeTerminal = .loaded fr junk count eip) :
    Ordered (buildPcb { k with cpu := fr }).sched
      (buildPcb { k with cpu := fr }).proc.processCounter
      (Function.update st k.display.activeTerminal (.built fr junk count eip)) l := by
  obtain ⟨hw, hothers⟩ := h.waiting_of_eq hst nofun
  have hs := sched_buildPcb (k := { k with cpu := fr }) hw.counter hw.pos
  have hsame : SameTable k.sched (k.sched.enterWith fr) := ⟨rfl, rfl, rfl, rfl, rfl, rfl, id⟩
  have hheld := Held.congr hw hsame
  rw [hs]
  refine Entered.ordered ((h.entered.congr hsame).build fun x hx => hw.fresh h.entered hx)
    hothers ⟨⟨hheld.1, hheld.2, hheld.3, hheld.4, hheld.5⟩, rfl, ?_, ?_⟩
  · exact (k.sched.enterWith fr).pid_build _
  · exact (k.sched.enterWith fr).frame_build _

/-- A call that found the table full unwinds. -/
theorem ordered_unwind (h : Ordered k.sched k.proc.processCounter st l) {fr : Frame}
    {junk : List UInt8} {count eip : Nat}
    (hst : st k.display.activeTerminal = .built fr junk count eip) (hfull : count > maxProcessVal)
    {o : Outcome} (hhalt : cHaltWith (cExecute fs junk 1 (some shell)) 0
      (tooMany { k with cpu := fr }) = some (k', o)) :
    Ordered k'.sched k'.proc.processCounter
      (Function.update st k.display.activeTerminal .idle) l := by
  obtain ⟨⟨hheld, -⟩, hothers⟩ := h.waiting_of_eq hst nofun
  obtain ⟨-, -, hfree⟩ := hheld.slot.resolve_left fun h => Nat.not_lt.mpr hfull h.2.1
  obtain ⟨-, rfl⟩ := cHaltWith_tooMany (k := { k with cpu := fr }) hheld.init hfree hhalt
  have hs := sched_unwound { k with cpu := fr }
  refine Entered.ordered (h.entered.congr ?_) hothers trivial
  rw [hs]
  exact ⟨rfl, rfl, rfl, rfl, rfl, h.entered.quiet.flagger.symm, id⟩

/-- A call that found a number enters its process. -/
theorem ordered_commit (h : Ordered k.sched k.proc.processCounter st l) {fr : Frame}
    {junk : List UInt8} {count eip : Nat}
    (hst : st k.display.activeTerminal = .built fr junk count eip)
    (hfull : ¬ count > maxProcessVal) :
    Ordered (commit { k with cpu := fr }).sched (commit { k with cpu := fr }).proc.processCounter
      (Function.update st k.display.activeTerminal .idle)
      (l.enter k.display.activeTerminal (commit { k with cpu := fr }).running) := by
  obtain ⟨⟨hheld, hpcb, hpid, hframe⟩, hothers⟩ := h.waiting_of_eq hst nofun
  have hsame : SameTable k.sched (k.sched.enterWith fr) := ⟨rfl, rfl, rfl, rfl, rfl, rfl, id⟩
  obtain ⟨hm, hlt, harr, -⟩ := hheld.slot.resolve_right fun h => hfull (by rw [h.2.1]; decide)
  have hs := sched_commit (k := { k with cpu := fr }) hheld.counter hpcb
  have hrun : (commit { k with cpu := fr }).running = (l.mark k.display.activeTerminal).slot := by
    refine (congrArg Sched.running hs).trans ?_
    exact Function.update_self ..
  refine Entered.ordered (l := l.enter _ _) ?_ hothers trivial
  rw [hs]
  exact (h.entered.congr hsame).commit (x := ⟨l.mark _, _, _⟩) hrun rfl hheld.caller
    (hframe.trans hheld.frame.symm) hheld.init ⟨count, hm, hlt, harr⟩
    fun y hy => hheld.fresh h.entered hy

/-- **A call that goes on finds the globals as it left them.** -/
theorem ordered_proceed (h : Ordered k.sched k.proc.processCounter st l)
    (hk : k.proceed fs (st k.display.activeTerminal) = some (k', stage)) :
    Ordered k'.sched k'.proc.processCounter (Function.update st k.display.activeTerminal stage)
      (l.goOn k.display.activeTerminal k'.running (st k.display.activeTerminal)) := by
  cases hst : st k.display.activeTerminal with
  | idle =>
    rw [hst] at hk
    cases hk
  | chosen fr junk inode count =>
    rw [hst] at hk
    obtain ⟨⟨k₁, eip⟩, hload, hk⟩ := Option.map_eq_some_iff.mp hk
    obtain ⟨rfl, rfl⟩ := Prod.mk.inj hk
    exact ordered_load h hst hload
  | loaded fr junk count eip =>
    rw [hst] at hk
    obtain ⟨rfl, rfl⟩ := Prod.mk.inj (Option.some.inj hk)
    exact ordered_build h hst
  | built fr junk count eip =>
    rw [hst, proceed] at hk
    rw [Ledger.goOn]
    split at hk
    · next hfull =>
      obtain ⟨⟨k₁, o⟩, hhalt, hk⟩ := Option.map_eq_some_iff.mp hk
      obtain ⟨rfl, rfl⟩ := Prod.mk.inj hk
      rw [if_pos hfull]
      exact ordered_unwind h hst hfull hhalt
    · next hfull =>
      obtain ⟨rfl, rfl⟩ := Prod.mk.inj (Option.some.inj hk)
      rw [if_neg hfull]
      exact ordered_commit h hst hfull

/-- **No step of the machine disturbs the calls.** -/
theorem ordered_step {e : FineEvent} {st' : Term → Stage}
    (h : Ordered k.sched k.proc.processCounter st l) (hg : OneAtATime fs ((k, st), l) e)
    (hk : fineStep fs (k, st) e = some (k', st')) :
    Ordered k'.sched k'.proc.processCounter st' (.note (k, st) e (k', st') l) := by
  cases e with
  | choose command fr junk =>
    unfold fineStep at hk
    simp only at hk
    split at hk
    · next ht =>
      obtain ⟨rfl, rfl⟩ := Prod.mk.inj (Option.some.inj hk)
      exact ordered_beginExecute h fr ht hg
    · cases hk
  | proceed =>
    obtain ⟨⟨k₁, stage⟩, hk₁, hk⟩ := Option.map_eq_some_iff.mp hk
    obtain ⟨rfl, rfl⟩ := Prod.mk.inj hk
    exact ordered_proceed h hk₁
  | tick fr =>
    obtain ⟨k₁, hk₁, hk⟩ := Option.map_eq_some_iff.mp hk
    obtain ⟨rfl, rfl⟩ := Prod.mk.inj hk
    unfold pitHandler at hk₁
    split at hk₁
    · rw [← Option.some.inj hk₁]
      exact h
    · obtain ⟨t, -, rfl⟩ := Option.map_eq_some_iff.mp hk₁
      refine h.congr ?_
      rw [sched_switchTask]
      exact ⟨rfl, rfl, rfl, rfl, rfl, rfl, id⟩

/-- **Calls made one at a time do not disturb each other.**  From any state the kernel reaches,
however ticks fall into the calls of the three terminals, the processes started are consistent if no
call begins while another one is half done. -/
theorem preempted_consistent (fs : FileSystem) (b : Boot) (es : List Event) (k : Kernel)
    (hk : Runs.run (Kernel.step fs) b.kernel es = some k) (fes : List FineEvent) (k' : Kernel)
    (st : Term → Stage) (l : Ledger)
    (hg : Runs.Guarded (Runs.withGhost (fineStep fs) Ledger.note)
      (OneAtATime fs) ((k, fun _ => .idle), .empty) fes)
    (hrun : Runs.run (Runs.withGhost (fineStep fs) Ledger.note)
      ((k, fun _ => .idle), .empty) fes = some ((k', st), l)) : Consistent k' l := by
  have hsound := sound_of_run hk
  obtain ⟨c, hc⟩ := hsound.forest
  have hstart : Ordered k.sched k.proc.processCounter (fun _ => .idle) .empty :=
    ⟨⟨hsound.quiet, hc.flag, List.nodup_nil, nofun, nofun⟩, fun _ _ h => absurd rfl h,
      fun _ => trivial⟩
  have hend := Runs.run_guarded
    (I := fun r : (Kernel × (Term → Stage)) × Ledger =>
      Ordered r.1.1.sched r.1.1.proc.processCounter r.1.2 r.2) ?_ hstart hg hrun
  · exact hend.entered.consistent
  · rintro ⟨⟨k₁, st₁⟩, l₁⟩ e ⟨⟨k₂, st₂⟩, l₂⟩ h he hk₁
    obtain ⟨hstep, rfl⟩ := Runs.withGhost_eq_some.mp hk₁
    exact ordered_step h he hstep

/-- The shell of the first terminal starts a shell; ticks take the processor away in between and
bring it back. -/
def interruptedCall : List FineEvent :=
  [.choose (some shell) ⟨11, 12⟩ [], .tick ⟨13, 14⟩, .tick ⟨15, 16⟩, .proceed, .proceed, .proceed]

/-- The process of an interrupted call is on its terminal under the number the call marked. -/
theorem preempted_consistent_one :
    ∃ k k' st l, Runs.run (Kernel.step shellDisk) Boot.zero.kernel twoTerminals = some k ∧
      Runs.run (Runs.withGhost (fineStep shellDisk) Ledger.note) ((k, fun _ => .idle), .empty)
        interruptedCall = some ((k', st), l) ∧ l.started.length = 1 ∧ Consistent k' l := by
  have hrun : ((Runs.run (Kernel.step shellDisk) Boot.zero.kernel twoTerminals).bind fun k =>
      (Runs.run (Runs.withGhost (fineStep shellDisk) Ledger.note) ((k, fun _ => .idle), .empty)
        interruptedCall).map fun r => r.2.started.length) = some 1 := by
    decide +kernel
  obtain ⟨k, hk, hrun⟩ := Option.bind_eq_some_iff.mp hrun
  obtain ⟨⟨⟨k', st⟩, l⟩, hk', hl⟩ := Option.map_eq_some_iff.mp hrun
  have hg : Runs.Guarded (Runs.withGhost (fineStep shellDisk) Ledger.note) (OneAtATime shellDisk)
      ((k, fun _ => .idle), .empty) interruptedCall :=
    fun _ _ => ⟨fun _ _ _ => rfl, fun _ _ => ⟨trivial, fun _ _ => ⟨trivial, fun _ _ => ⟨trivial,
      fun _ _ => ⟨trivial, fun _ _ => ⟨trivial, trivial⟩⟩⟩⟩⟩⟩
  exact ⟨k, k', st, l, hk, hk', hl,
    preempted_consistent shellDisk Boot.zero twoTerminals k hk interruptedCall k' st l hg hk'⟩

/-- The first terminal's shell starts a shell and is interrupted right after its choice; the second
terminal's shell starts one, and then the first call goes on. -/
def overtakenCall : List FineEvent :=
  [.choose (some shell) ⟨11, 12⟩ [], .tick ⟨13, 14⟩, .choose (some shell) ⟨15, 16⟩ [], .proceed,
    .proceed, .proceed, .tick ⟨17, 18⟩, .proceed, .proceed, .proceed]

/-- The call that was overtaken enters the other call's process: 3 and 4 were chosen, and both
terminals have 4. -/
theorem preempted_twice :
    ∃ k k' st l, Runs.run (Kernel.step shellDisk) Boot.zero.kernel twoTerminals = some k ∧
      Runs.run (Runs.withGhost (fineStep shellDisk) Ledger.note) ((k, fun _ => .idle), .empty)
        overtakenCall = some ((k', st), l) ∧
      l.started.map (fun x => (x.term, x.slot, x.pid)) = [(0, 3, 4), (1, 4, 4)] ∧
      ¬ Consistent k' l := by
  have hrun : ((Runs.run (Kernel.step shellDisk) Boot.zero.kernel twoTerminals).bind fun k =>
      (Runs.run (Runs.withGhost (fineStep shellDisk) Ledger.note) ((k, fun _ => .idle), .empty)
        overtakenCall).map fun r => r.2.started.map fun x => (x.term, x.slot, x.pid)) =
      some [(0, 3, 4), (1, 4, 4)] := by
    decide +kernel
  obtain ⟨k, hk, hrun⟩ := Option.bind_eq_some_iff.mp hrun
  obtain ⟨⟨⟨k', st⟩, l⟩, hk', hl⟩ := Option.map_eq_some_iff.mp hrun
  refine ⟨k, k', st, l, hk, hk', hl, fun hc => ?_⟩
  have hpids : l.started.map Start.pid = [4, 4] := by
    have := congrArg (List.map fun x => x.2.2) hl
    rwa [List.map_map] at this
  have hnodup := hc.distinct
  rw [hpids] at hnodup
  exact absurd hnodup (by decide)

end Kernel

end HarambeOs
