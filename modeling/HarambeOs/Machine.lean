import HarambeOs.Interrupts
import HarambeOs.Library.Runs

/-!
# Machine — the kernel as a machine that takes one event after the other

An event is a system call made by the running process, a timer tick, or a keyboard interrupt.
`transition` is the state an event leads to and where control is after it, `none` when the event
does not complete; `step` forgets where control is.  `boot` is the state in which `entry` of
`kernel.c` enables interrupts.
-/

namespace HarambeOs

/-- The system calls other than `execute` and `halt`, with their arguments and the memory they run
into past the end of an array. -/
inductive Call
  | read (fd : Int) (buf : Option Buf) (nbytes : Int) (beyond : Buf)
  | write (fd : Int) (buf : Option Buf) (nbytes : Int)
  | openFile (filename : Option (List UInt8)) (beyond : List Nat)
  | close (fd : Int)
  | getargs (buf : Option Buf) (nbytes : Int)
  | vidmap (screenStart : Nat)

/-- What can happen next.  `fr` holds the stack registers on entry, `junk` the bytes on the stack
where `c_execute` puts `check`. -/
inductive Event
  | execute (command : Option (List UInt8)) (fr : Frame) (junk : List UInt8)
  | halt (status : UInt8) (fr : Frame) (junk : List UInt8)
  | tick (fr : Frame)
  | key (status scan : UInt8) (fr : Frame) (junk : List UInt8)
  | ctrl4Turn
  | call (c : Call)

namespace Kernel

/-- A system call with its return value and the caller's buffer after it. -/
def call (fs : FileSystem) (k : Kernel) : Call → Option (Kernel × Int × Option Buf)
  | .read fd buf nbytes beyond => k.cRead fs fd buf nbytes beyond
  | .write fd buf nbytes => k.cWrite fd buf nbytes
  | .openFile filename beyond => (k.cOpen fs filename beyond).map fun r => (r.1, r.2, none)
  | .close fd => (k.cClose fd).map fun r => (r.1, r.2, none)
  | .getargs buf nbytes => some (k.cGetargs buf nbytes)
  | .vidmap screenStart => some ((k.cVidmap screenStart).1, (k.cVidmap screenStart).2, none)

/-- **One event.**  `c_halt` of process 0 reads a PCB at `MB_8`, which is never mapped. -/
def transition (fs : FileSystem) (k : Kernel) : Event → Option (Kernel × Outcome)
  | .execute command fr junk => k.execute fs command fr junk
  | .halt status fr junk => if k.running = 0 then none else k.cHalt fs status fr junk
  | .tick fr => (k.pitHandler fr).map fun k => (k, .returned 0)
  | .key status scan fr junk => k.keyboard fs status scan fr junk
  | .ctrl4Turn => k.ctrl4Turn.map fun k => (k, .returned 0)
  | .call c => (k.call fs c).map fun r => (r.1, .returned r.2.1)

/-- The state after an event. -/
def step (fs : FileSystem) (k : Kernel) (e : Event) : Option Kernel :=
  (k.transition fs e).map Prod.fst

theorem step_eq_some {fs : FileSystem} {k k' : Kernel} {e : Event} :
    k.step fs e = some k' ↔ ∃ o, k.transition fs e = some (k', o) := by
  rw [step, Option.map_eq_some_iff]
  exact ⟨fun ⟨⟨_, o⟩, h, hk⟩ => ⟨o, hk ▸ h⟩, fun ⟨o, h⟩ => ⟨(k', o), h, rfl⟩⟩

end Kernel

/-! ## Boot -/

/-- What the kernel finds when it starts: the contents of memory and of the clock's register, the
link address of `tables`, and the registers. -/
structure Boot where
  phys : Nat → UInt8
  tablesAddr : Nat
  aligned : tablesAddr % 4096 = 0
  slots : Nat → Pcb
  registerA : UInt8
  cpu : Frame

namespace Boot

/-- The display after `init_paging`, before `clear`. -/
def display (b : Boot) : Display where
  phys := b.phys
  paging := .init b.tablesAddr b.aligned
  screenX _ := 0
  screenY _ := 0
  vgaCursor := 0
  currentTerminal := 0
  activeTerminal := 0

/-- The initial values of `keyboard.c`. -/
def editor : Editor where
  capsFlag := false
  rightShiftFlag := false
  leftShiftFlag := false
  controlFlag := false
  altFlag := false
  entFlag _ := false
  incOrDec := false
  ctrl4Flag := false
  ctrl4Loops := 0
  buffer _ _ := nul
  read _ := nul
  lineCount _ := 0
  rtcTest := 2
  i := 0
  k := 0

/-- The initial values of `system_calls.c` and `pit.c`. -/
def proc (b : Boot) : Proc where
  processCounter := 0
  pcb := none
  getArgs _ := nul
  argSize := 0
  pidArr _ := false
  termArr _ := ⟨0, false, 0⟩
  intiFlag := false
  flagger := false
  slots := b.slots
  processes _ := ⟨0, 0⟩
  tssEsp0 := mb8
  launchFlag _ := false

/-- The kernel once `entry` has initialised its devices. -/
def kernel (b : Boot) : Kernel where
  display := b.display.clear
  editor := editor
  proc := b.proc
  rtc := (Rtc.mk 0 b.registerA).rtcOpen
  cpu := b.cpu

/-- Memory all zero, for runs on concrete inputs. -/
def zero : Boot where
  phys _ := 0
  tablesAddr := 0x1000
  aligned := by decide
  slots _ := ⟨0, 0, fun _ => ⟨none, 0, 0, 0⟩, 0, 0, 0, 0⟩
  registerA := 0
  cpu := ⟨0, 0⟩

end Boot

/-- A disk with nothing on it but a shell of four bytes, for runs on concrete inputs. -/
def shellDisk : FileSystem where
  readDentryByName name := if name = shell then some ⟨2, 0⟩ else none
  readDentryByIndex _ := none
  readData _ _ length := some (magicBuf.take length)
  readFs := []
  printDentryByName _ := []
  printDentryByIndex _ := []

end HarambeOs
