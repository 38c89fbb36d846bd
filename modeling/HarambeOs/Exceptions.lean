import HarambeOs.Messages
import HarambeOs.Running
import HarambeOs.Transfers
import HarambeOs.Vidmap

/-!
# Exceptions — programs that store, call with pointers, and fault

The events of `Machine` are the ways into the kernel that a program asks for or a device causes.
Between them the program itself runs: it stores into its memory, it gives the kernel pointers to
store through, and it may do what the processor does not allow.  Then the handler that `entry_table`
of `idt.c` names prints a line and calls `c_halt(2)`.  `Kernel.act` adds these to the events, and
what the kernel leaves on its stack.

An action is output or a store, then at most one event, then a store (`act_cases`), so what holds
along every run of events holds along every run of actions (`act_invariant`).  This says nothing
about where the stores go: the memory of the kernel is part of `phys`, and `Confinement` says when
it is out of reach.
-/

namespace HarambeOs

/-- The handlers of `entry_table`. -/
inductive Exception
  | divByZero
  | debugger
  | nmi
  | breakpoint
  | overflow
  | bounds
  | invalidOpcode
  | coprocessor
  | doubleFault
  | coprocessorSegment
  | invTss
  | segmentNotPresent
  | stackFault
  | generalFault
  | pageFault
  | reserved
  | mathFault
  | alignmentCheck
  | machineCheck
  | simd
  deriving DecidableEq

namespace Exception

/-- What a handler prints. -/
def text : Exception → String
  | divByZero => "Divide by zero error\n"
  | debugger => "debugger\n"
  | nmi => "non-maskable interrupt\n"
  | breakpoint => "breakpoint\n"
  | overflow => "overflow\n"
  | bounds => "bounds\n"
  | invalidOpcode => "invalid opcode\n"
  | coprocessor => "Coprocessor not available\n"
  | doubleFault => "Double fault\n"
  | coprocessorSegment => "Coprocessor segment overrun\n"
  | invTss => "Invalid task state segment\n"
  | segmentNotPresent => "Segment not present\n"
  | stackFault => "Stack fault\n"
  | generalFault => "General protection fault\n"
  | pageFault => "page fault\n"
  | reserved => "reserved\n"
  | mathFault => "Math fault\n"
  | alignmentCheck => "Alignment check\n"
  | machineCheck => "Machine check\n"
  | simd => "SIMD\n"

end Exception

/-- `entry_table`: the handler of each of the first twenty vectors. -/
def entryTable : List Exception :=
  [.divByZero, .debugger, .nmi, .breakpoint, .overflow, .bounds, .invalidOpcode, .coprocessor,
    .doubleFault, .coprocessorSegment, .invTss, .segmentNotPresent, .stackFault, .generalFault,
    .pageFault, .reserved, .mathFault, .alignmentCheck, .machineCheck, .simd]

/-- The status the handlers halt with. -/
def exceptionStatus : UInt8 := 2

/-! ## What a program does -/

/-- A system call as a program makes it: its buffers are addresses. -/
inductive Request
  | read (fd : Int) (buf : UInt32) (nbytes : Int) (beyond : Buf)
  | write (fd : Int) (buf : UInt32) (nbytes : Int)
  | openFile (filename : Option (List UInt8)) (beyond : List Nat)
  | close (fd : Int)
  | getargs (buf : UInt32) (nbytes : Int)
  | vidmap (screenStart : UInt32)

/-- The memory a pointer of the program leads to. -/
def Display.bufferAt (d : Display) (va : UInt32) : Option Buf :=
  if va = 0 then none else some fun j => d.load (va.toNat + j)

namespace Request

/-- The call, with what is in the buffer. -/
def call (d : Display) : Request → Call
  | read fd buf nbytes beyond => .read fd (d.bufferAt buf) nbytes beyond
  | write fd buf nbytes => .write fd (d.bufferAt buf) nbytes
  | openFile filename beyond => .openFile filename beyond
  | close fd => .close fd
  | getargs buf nbytes => .getargs (d.bufferAt buf) nbytes
  | vidmap screenStart => .vidmap screenStart.toNat

/-- Where the buffer is. -/
def pointer : Request → UInt32
  | read _ buf _ _ => buf
  | write _ buf _ => buf
  | getargs buf _ => buf
  | _ => 0

end Request

/-- What can happen next, the program's own doing included.  The last is what the kernel leaves on
the stack of the running process, `depth` bytes down from its top. -/
inductive Action
  | event (e : Event)
  | call (r : Request)
  | store (va : UInt32) (b : UInt8) (fr : Frame) (junk : List UInt8)
  | exception (x : Exception) (fr : Frame) (junk : List UInt8)
  | stack (depth : Nat) (left : Nat → UInt8)

/-- The buffer a call is given. -/
def Call.buffer : Call → Option Buf
  | .read _ buf _ _ => buf
  | .write _ buf _ => buf
  | .getargs buf _ => buf
  | _ => none

/-- Every cell that `puts` writes is on a page that is present. -/
def Display.putsMapped (d : Display) : List UInt8 → Bool
  | [] => true
  | c :: s =>
    let cell := d.cellAddr (pageArr d.activeTerminal) d.activeTerminal
    (isBreak c ||
      (d.paging.translate cell).isSome && (d.paging.translate (cell + 1)).isSome) &&
      putsMapped (d.putc c) s

namespace Kernel

/-- How far a call may write into the buffer it is given. -/
def reach (fs : FileSystem) (k : Kernel) : Call → Nat
  | .read fd (some buf) nbytes beyond =>
    if k.readsTerminal (.read fd (some buf) nbytes beyond) then max nbytes.toNat numberCodes
    else
      let entry := (k.proc.slots k.running).fdArray fd.toNat
      max nbytes.toNat
        ((fs.readData entry.inode entry.position (toUnsigned nbytes)).getD []).length
  | .write fd (some buf) nbytes =>
    if k.writesTerminal (.write fd (some buf) nbytes) then nbytes.toNat else 0
  | .getargs (some _) nbytes =>
    if (k.proc.argSize : Int) + 1 > nbytes then 0 else max k.proc.argSize 128
  | _ => 0

/-- A handler's line printed.  Where a cell is on a page that is not present, the store faults, the
handler is entered again, and so on for ever. -/
def report (k : Kernel) (x : Exception) : Option Kernel :=
  if k.display.putsMapped (bytes x.text) then
    some { k with display := k.display.puts (bytes x.text) }
  else none

/-- The handler of an exception: it halts the running process.  The status is what `c_halt` is
given; what the parent's call returns is `callValue`. -/
def raise (fs : FileSystem) (x : Exception) (fr : Frame) (junk : List UInt8) (k : Kernel) :
    Option (Kernel × Outcome) :=
  (k.report x).bind fun k => k.transition fs (.halt exceptionStatus fr junk)

/-- A byte of physical memory written. -/
def poke (k : Kernel) (pa : Nat) (b : UInt8) : Kernel :=
  { k with display := { k.display with phys := Function.update k.display.phys pa b } }

/-- The first `n` bytes of the buffer after a call, stored where the buffer is.  A buffer that is
not mapped as far as that faults on the way, which is left out. -/
def handBack (k : Kernel) (va : UInt32) (n : Nat) : Option Buf → Option Kernel
  | none => some k
  | some buf =>
    (k.display.readInto va.toNat ((List.range n).map buf)).map fun d => { k with display := d }

/-- The kernel stack of the running process used. -/
def onStack (k : Kernel) (depth : Nat) (left : Nat → UInt8) : Kernel :=
  { k with display := { k.display with
      phys := fun a => if stackTop k.running - depth ≤ a ∧ a < stackTop k.running then left a
        else k.display.phys a } }

/-- One action.  The running process makes its calls with pointers.  Every page it may use it may
write; a store elsewhere is a page fault. -/
def act (fs : FileSystem) (k : Kernel) : Action → Option Kernel
  | .event (.call _) => none
  | .event e => k.step fs e
  | .call r =>
    if k.running = 0 then none
    else (k.call fs (r.call k.display)).bind fun res =>
      res.1.handBack r.pointer (k.reach fs (r.call k.display)) res.2.2
  | .store va b fr junk =>
    if k.running = 0 then none
    else
      match k.display.paging.walk va.toNat with
      | some (pa, true) => some (k.poke pa b)
      | _ => (k.raise fs .pageFault fr junk).map Prod.fst
  | .exception x fr junk => (k.raise fs x fr junk).map Prod.fst
  | .stack depth left => some (k.onStack depth left)

variable {fs : FileSystem} {k k' : Kernel} {a : Action}

/-- **Past `reach` a call leaves the buffer alone**: a read, -/
theorem cRead_reach {fd nbytes v : Int} {buf buf' beyond : Buf}
    (h : k.cRead fs fd (some buf) nbytes beyond = some (k', v, some buf')) {j : Nat}
    (hj : k.reach fs (.read fd (some buf) nbytes beyond) ≤ j) : buf' j = buf j := by
  have hle : nbytes.toNat ≤ j := by
    rw [reach] at hj
    split at hj
    · exact le_of_max_le_left hj
    · exact le_of_max_le_left hj
  generalize hout : (v, some buf') = out at h
  generalize hin : some buf = inp at h
  cases cRead_reads h with
  | refuse =>
    obtain rfl := Option.some.inj ((Prod.mk.inj hout).2.trans hin.symm)
    rfl
  | terminal hb ht hr =>
    obtain rfl := Option.some.inj (hin.trans hb)
    obtain rfl := Option.some.inj (Prod.mk.inj hout).2
    rw [← hin] at ht
    rw [reach, if_pos ht] at hj
    have hline : numberCodes ≤ j := le_of_max_le_right hj
    unfold terminalRead at hr
    split at hr
    · obtain ⟨-, rfl⟩ := Prod.mk.inj (Option.some.inj hr)
      simp only
      rw [if_neg (by omega), if_neg (by omega)]
    · cases hr
  | file hb hfd hp hop =>
    obtain rfl := Option.some.inj (hin.trans hb)
    obtain rfl := Option.some.inj (Prod.mk.inj hout).2
    have hterm : k.readsTerminal (.read fd (some buf) nbytes beyond) = false := by
      simp [readsTerminal, hp, hop]
    rw [reach, hterm] at hj
    obtain ⟨bytes, rfl, hr⟩ := k.fileRead_snd fs _ fd.toNat buf nbytes
    rcases hr with hr | hr <;> rw [hr]
    · exact List.getD_eq_default _ _ (le_of_max_le_right hj)
    · exact List.getD_eq_default _ _ (le_of_max_le_right hj)
  | directory hb _ hr =>
    obtain rfl := Option.some.inj (hin.trans hb)
    obtain rfl := Option.some.inj (Prod.mk.inj hout).2
    unfold directRead at hr
    simp only at hr
    split at hr
    · obtain ⟨-, rfl⟩ := Prod.mk.inj (Option.some.inj hr)
      rfl
    · split_ifs at hr
      · obtain ⟨-, rfl⟩ := Prod.mk.inj (Option.some.inj hr)
        rfl
      · obtain ⟨-, rfl⟩ := Prod.mk.inj (Option.some.inj hr)
        exact if_neg (by omega)
  | clock =>
    obtain rfl := Option.some.inj ((Prod.mk.inj hout).2.trans hin.symm)
    rfl

/-- a write, where `terminal_write` replaces NULs, -/
theorem cWrite_reach {fd nbytes v : Int} {buf buf' : Buf}
    (h : k.cWrite fd (some buf) nbytes = some (k', v, some buf')) {j : Nat}
    (hj : k.reach fs (.write fd (some buf) nbytes) ≤ j) : buf' j = buf j := by
  have hsame {k₁ : Kernel} {v₁ : Int} (h : some (k₁, v₁, some buf) = some (k', v, some buf')) :
      buf' j = buf j := by
    simp only [Option.some.injEq, Prod.mk.injEq] at h
    rw [h.2.2]
  unfold cWrite at h
  simp only at h
  split_ifs at h with hfd
  · exact hsame h
  split at h
  · cases h
  next p hp =>
  split_ifs at h with hflags
  · exact hsame h
  split at h
  · next hop =>
    rw [reach, if_pos (writesTerminal_of_stdout hfd hp hflags hop)] at hj
    simp only [Option.some.injEq, Prod.mk.injEq] at h
    rw [← h.2.2]
    exact if_neg (by omega)
  · exact hsame h
  · exact hsame h
  · exact hsame h
  · cases h
  · cases h

/-- and every other call. -/
theorem call_reach {c : Call} {v : Int} {buf buf' : Buf} (hb : c.buffer = some buf)
    (h : k.call fs c = some (k', v, some buf')) {j : Nat} (hj : k.reach fs c ≤ j) :
    buf' j = buf j := by
  cases c with
  | read fd inp nbytes beyond =>
    obtain rfl : inp = some buf := hb
    exact cRead_reach h hj
  | write fd inp nbytes =>
    obtain rfl : inp = some buf := hb
    exact cWrite_reach h hj
  | getargs inp nbytes =>
    obtain rfl : inp = some buf := hb
    rw [reach] at hj
    simp only [call, cGetargs] at h
    split_ifs at h hj
    · simp only [Option.some.injEq, Prod.mk.injEq] at h
      rw [h.2.2]
    · simp only [Option.some.injEq, Prod.mk.injEq] at h
      rw [← h.2.2]
      dsimp only
      rw [if_neg (by omega), if_neg (by omega)]
  | _ => cases hb

/-- What a handler prints is on pages that are present. -/
theorem report_eq_some {x : Exception} (h : k.report x = some k') :
    k' = { k with display := k.display.puts (bytes x.text) } := by
  rw [report] at h
  split at h
  · exact (Option.some.inj h).symm
  · cases h

theorem report_quietly {x : Exception} (h : k.report x = some k') : Quietly k k' := by
  rw [report_eq_some h]
  exact ⟨Display.control_puts _ _, rfl, rfl⟩

/-- What a call hands back goes to the buffer it was given, if all of it is mapped. -/
theorem handBack_eq_some {va : UInt32} {n : Nat} {buf : Option Buf}
    (h : k.handBack va n buf = some k') :
    k' = k ∨ ∃ f, k' = { k with display := k.display.storeBytes va.toNat f n } := by
  cases buf with
  | none => exact Or.inl (Option.some.inj h).symm
  | some buf =>
    obtain ⟨d, hd, rfl⟩ := Option.map_eq_some_iff.mp h
    rw [Display.readInto, List.length_map, List.length_range] at hd
    split at hd
    · exact Or.inr ⟨_, by rw [← Option.some.inj hd]⟩
    · cases hd

theorem handBack_quietly {va : UInt32} {n : Nat} {buf : Option Buf}
    (h : k.handBack va n buf = some k') : Quietly k k' := by
  rcases handBack_eq_some h with rfl | ⟨f, rfl⟩
  · exact ⟨rfl, rfl, rfl⟩
  · exact ⟨rfl, rfl, rfl⟩

/-- What an action can do. -/
inductive Acts (fs : FileSystem) (k : Kernel) : Action → Kernel → Prop
  | event {e : Event} {k' : Kernel} (hc : ∀ c, e ≠ .call c) (h : k.step fs e = some k') :
      Acts fs k (.event e) k'
  | call {r : Request} {k₁ k' : Kernel} {v : Int} {buf : Option Buf} (hr : k.running ≠ 0)
      (h : k.call fs (r.call k.display) = some (k₁, v, buf))
      (hb : k₁.handBack r.pointer (k.reach fs (r.call k.display)) buf = some k') :
      Acts fs k (.call r) k'
  | poke {va : UInt32} {b : UInt8} {fr : Frame} {junk : List UInt8} {pa : Nat} (hr : k.running ≠ 0)
      (h : k.display.paging.walk va.toNat = some (pa, true)) :
      Acts fs k (.store va b fr junk) (k.poke pa b)
  | wild {va : UInt32} {b : UInt8} {fr : Frame} {junk : List UInt8} {k₁ k' : Kernel}
      (hw : (k.display.paging.walk va.toNat).any Prod.snd = false)
      (hx : k.report .pageFault = some k₁)
      (h : k₁.step fs (.halt exceptionStatus fr junk) = some k') :
      Acts fs k (.store va b fr junk) k'
  | fault {x : Exception} {fr : Frame} {junk : List UInt8} {k₁ k' : Kernel}
      (hx : k.report x = some k₁) (h : k₁.step fs (.halt exceptionStatus fr junk) = some k') :
      Acts fs k (.exception x fr junk) k'
  | stack (depth : Nat) (left : Nat → UInt8) :
      Acts fs k (.stack depth left) (k.onStack depth left)

/-- A fault is a message and then a halt. -/
theorem raise_eq_some {x : Exception} {fr : Frame} {junk : List UInt8}
    (h : (k.raise fs x fr junk).map Prod.fst = some k') :
    ∃ k₁, k.report x = some k₁ ∧ k₁.step fs (.halt exceptionStatus fr junk) = some k' := by
  obtain ⟨⟨k₂, o⟩, hraise, rfl⟩ := Option.map_eq_some_iff.mp h
  obtain ⟨k₁, hx, hhalt⟩ := Option.bind_eq_some_iff.mp hraise
  exact ⟨k₁, hx, step_eq_some.mpr ⟨o, hhalt⟩⟩

/-- **One action**, by its kind. -/
theorem act_acts (h : k.act fs a = some k') : Acts fs k a k' := by
  cases a with
  | event e =>
    cases e with
    | call c => cases h
    | _ => exact .event (by rintro c ⟨⟩) h
  | call r =>
    rw [act] at h
    split at h
    · cases h
    · next hr =>
      obtain ⟨⟨k₁, v, buf⟩, hc, hb⟩ := Option.bind_eq_some_iff.mp h
      exact .call hr hc hb
  | store va b fr junk =>
    rw [act] at h
    split at h
    · cases h
    · next hr =>
      split at h
      · next pa hwalk =>
        obtain rfl := Option.some.inj h
        exact .poke hr hwalk
      · next hwalk =>
        obtain ⟨k₁, hx, h⟩ := raise_eq_some h
        refine .wild ?_ hx h
        cases hw : k.display.paging.walk va.toNat with
        | none => rfl
        | some r =>
          obtain ⟨pa, user⟩ := r
          cases user with
          | false => rfl
          | true => exact absurd hw (hwalk pa)
  | exception x fr junk =>
    obtain ⟨k₁, hx, h⟩ := raise_eq_some h
    exact .fault hx h
  | stack depth left =>
    obtain rfl := Option.some.inj h
    exact .stack depth left

/-- **An action is output or a store, then at most one event, then a store.** -/
theorem act_cases (h : k.act fs a = some k') : ∃ k₁ k₂, Quietly k k₁ ∧
    (k₂ = k₁ ∨ ∃ e, k₁.step fs e = some k₂) ∧ Quietly k₂ k' := by
  have hsame (k : Kernel) : Quietly k k := ⟨rfl, rfl, rfl⟩
  cases act_acts h with
  | event _ h => exact ⟨k, k', hsame k, Or.inr ⟨_, h⟩, hsame k'⟩
  | @call r _ _ _ _ _ hc hb =>
    refine ⟨k, _, hsame k, Or.inr ⟨.call (r.call k.display), ?_⟩, handBack_quietly hb⟩
    rw [step, transition, hc]
    rfl
  | poke => exact ⟨k, k, hsame k, Or.inl rfl, ⟨rfl, rfl, rfl⟩⟩
  | wild _ hx h => exact ⟨_, k', report_quietly hx, Or.inr ⟨_, h⟩, hsame k'⟩
  | fault hx h => exact ⟨_, k', report_quietly hx, Or.inr ⟨_, h⟩, hsame k'⟩
  | stack => exact ⟨k, k, hsame k, Or.inl rfl, ⟨rfl, rfl, rfl⟩⟩

/-- **What events keep, actions keep**, if it is about more than what output changes. -/
theorem act_invariant {I : Kernel → Prop} (hquiet : ∀ k k', Quietly k k' → I k → I k')
    (hstep : ∀ k e k', I k → k.step fs e = some k' → I k') (hk : I k)
    (h : k.act fs a = some k') : I k' := by
  obtain ⟨k₁, k₂, hq₁, rfl | ⟨e, he⟩, hq₂⟩ := act_cases h
  · exact hquiet _ _ hq₂ (hquiet _ _ hq₁ hk)
  · exact hquiet _ _ hq₂ (hstep _ e _ (hquiet _ _ hq₁ hk) he)

theorem Quietly.paging (h : Quietly k k') : k'.display.paging = k.display.paging :=
  Display.paging_of_control h.control

theorem Quietly.running (h : Quietly k k') : k'.running = k.running :=
  congrArg Sched.running h.sched

/-! ## The scheduler under actions -/

/-- A process is running, unless there is none. -/
def Manned (s : Sched) : Prop := s.running ≠ 0 ∨ ∀ i, s.pidArr i = false

theorem manned_start (s : Sched) (i : Nat) : Manned (s.start i) :=
  Or.inl (by rw [s.running_start]; exact Nat.succ_ne_zero i)

/-- After an event a process is running, if one was. -/
theorem manned_step {s s' : Sched} {e : Event} {o : Outcome} (hshell : ShellLoadable fs)
    (hsound : s.Sound) (hstaffed : s.Staffed) (h : Sched.Step fs s e o s') (hs : Manned s) :
    Manned s' := by
  cases h with
  | idle => exact hs
  | execute h =>
    cases h with
    | fail => exact hs
    | start => exact manned_start _ _
    | overflow => exact hs
  | exit hr hp => exact Or.inl (s.running_release.trans_ne hp)
  | respawn hr hp h =>
    obtain ⟨i, eip, -, rfl⟩ := h.started_of_release hshell hsound hr
    exact manned_start _ _
  | vacate hr hp h ho =>
    obtain ⟨i, eip, rfl, -⟩ := h.started_of_release hshell hsound hr
    exact absurd rfl (ho eip)
  | rest => exact hs
  | tick hr ht => exact Or.inl (hstaffed _ (Sched.flag_of_findTerm ht))
  | launch ht hl hf h =>
    cases h with
    | fail hn => exact absurd (hn.symm.trans (hshell.resolves _)) Bool.false_ne_true
    | start => exact manned_start _ _
    | overflow _ hn => exact absurd hn hf

/-- What holds of the scheduler in every state reached by actions. -/
structure Governed (s : Sched) : Prop where
  sound : s.Sound
  staffed : s.Staffed
  settled : s.Settled
  manned : Manned s

theorem governed_boot (b : Boot) : Governed b.kernel.sched :=
  ⟨sound_boot b, fun _ ht => absurd ht Bool.false_ne_true,
    Or.inr ⟨rfl, fun hc => by cases hc⟩, Or.inr fun _ => rfl⟩

theorem governed_step (hshell : ShellLoadable fs) {e : Event} (hk : Governed k.sched)
    (h : k.step fs e = some k') : Governed k'.sched := by
  obtain ⟨o, ho⟩ := step_eq_some.mp h
  have hs := transition_sched hk.sound.quiet ho
  exact ⟨sound_step hk.sound h, hs.staffed hshell hk.sound hk.staffed,
    hs.settled hk.sound hk.settled, manned_step hshell hk.sound hk.staffed hs hk.manned⟩

theorem governed_quietly (h : Quietly k k') (hk : Governed k.sched) : Governed k'.sched := by
  rw [h.sched]
  exact hk

/-- One action. -/
theorem governed_act (hshell : ShellLoadable fs) (hk : Governed k.sched)
    (h : k.act fs a = some k') : Governed k'.sched :=
  act_invariant (I := fun k => Governed k.sched) (fun _ _ => governed_quietly)
    (fun _ _ _ => governed_step hshell) hk h

/-- **Every run of actions** keeps the schedule. -/
theorem governed_of_acts (hshell : ShellLoadable fs) {b : Boot} {as : List Action}
    (h : Runs.run (act fs) b.kernel as = some k) : Governed k.sched :=
  Runs.run_invariant (fun _ _ _ hk => governed_act hshell hk) (governed_boot b) h

end Kernel

end HarambeOs
