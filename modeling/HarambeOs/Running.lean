import HarambeOs.Launch
import Mathlib

/-!
# Running — the user page, the stack top and the PCB pointer of the running process

Three functions map the user page and set `tss.esp0`, each from a variable of its own: `c_execute`
from `process_counter`, `c_halt` from the parent's number, `PIT_handler` from the terminal's entry.
They agree: both always belong to the running process (`userPage_running`).

The global pointer `PCB` is set in one place only, in `c_execute`.  It is the running process's
exactly as long as no event hands the processor to an older process (`pcb_running_iff`): a halt to a
parent, a `c_execute` that finds the table full, and a tick that changes the process all leave it
behind.
-/

namespace HarambeOs

namespace Sched

variable {fs : FileSystem} {s s' : Sched}

/-! ## The user page and the stack top -/

/-- The user page and the stack top are the running process's. -/
def Mapped (s : Sched) : Prop :=
  s.running ≠ 0 → s.userPage = userFrame s.running ||| flags ∧ s.tssEsp0 = stackTop s.running

/-- The user page and the stack top are the running process's, except on a terminal that was just
launched without a shell; then a process number is free. -/
def Settled (s : Sched) : Prop :=
  (s.userPage = userFrame s.running ||| flags ∧ s.tssEsp0 = stackTop s.running) ∨
    (s.running = 0 ∧ s.freeIndex ≠ none)

theorem Settled.mapped (h : s.Settled) : s.Mapped := fun hr => h.resolve_right fun h0 => hr h0.1

theorem settled_of_running {p : Nat} (h : s.running = p) : (s.mapTo p).Settled := by
  subst h
  exact Or.inl ⟨rfl, rfl⟩

theorem settled_start (s : Sched) (i : Nat) : (s.start i).Settled :=
  settled_of_running (s.running_start i)

theorem Exec.settled {command : Option (List UInt8)} {junk : List UInt8} {o : Outcome}
    (h : Exec fs command junk s o s') (hm : s.Settled) : s'.Settled := by
  cases h with
  | fail => exact hm
  | start => exact settled_start _ _
  | overflow => exact settled_of_running (s := s.initialised.build maxProcessSet) rfl

/-- A base process that halts and is not replaced leaves its terminal without a process. -/
theorem running_vacate {command : Option (List UInt8)} {junk : List UInt8} {fr fr' : Frame}
    {o : Outcome} (hp : (s.link s.running).parentPid = 0)
    (h : Exec fs command junk (s.release.enterWith fr) o s') (ho : ∀ eip, o ≠ .started eip) :
    (s'.restore 0 fr').running = 0 := by
  cases h with
  | fail => exact s.running_release.trans hp
  | start _ _ eip => exact absurd rfl (ho eip)
  | overflow => exact s.running_release.trans hp

theorem Step.settled {e : Event} {o : Outcome} (h : Step fs s e o s') (hs : s.Sound)
    (hm : s.Settled) : s'.Settled := by
  cases h with
  | idle => exact hm
  | execute h => exact h.settled hm
  | exit hr hp => exact settled_of_running (s := s.release) s.running_release
  | respawn hr hp h =>
    cases h with
    | start => exact settled_start _ _
  | @vacate _ _ _ _ s' hr hp h ho =>
    have hrun : (s'.restore 0 s'.cpu).running = 0 := running_vacate hp h ho
    exact settled_of_running (s := { s' with cpu := (s'.link s.running).frame }) hrun
  | rest => exact hm
  | tick => exact settled_of_running rfl
  | launch ht hl hf h => exact h.settled (Or.inr ⟨hs.last_eq_zero ht hl, hf⟩)

end Sched

/-- The 4 MB of physical memory behind process `p`'s user page. -/
def userFrameSet (p : Nat) : Set Nat := Set.Ico (userFrame p) (userFrame p + mb4)

/-- The kernel's own page, at 4 MB. -/
def kernelPage : Set Nat := Set.Ico mb4 mb8

theorem disjoint_userFrameSet {p q : Nat} (h : p ≠ q) :
    Disjoint (userFrameSet p) (userFrameSet q) := by
  rw [userFrameSet, userFrameSet, Set.Ico_disjoint_Ico, userFrame, userFrame, mb4]
  omega

theorem disjoint_kernelPage {p : Nat} (h : p ≠ 0) : Disjoint (userFrameSet p) kernelPage := by
  rw [userFrameSet, kernelPage, Set.Ico_disjoint_Ico, userFrame, mb4, mb8]
  omega

namespace Kernel

variable {fs : FileSystem} {b : Boot} {es : List Event} {k : Kernel}

theorem settled_of_run (h : Runs.run (Kernel.step fs) b.kernel es = some k) :
    k.sched.Settled := by
  have hboot : b.kernel.sched.Settled := Or.inr ⟨rfl, fun hc => by cases hc⟩
  refine (Runs.run_invariant (I := fun k => k.sched.Sound ∧ k.sched.Settled) ?_
    ⟨sound_boot b, hboot⟩ h).2
  rintro k e k' ⟨hs, hm⟩ hk
  obtain ⟨o, ho⟩ := step_eq_some.mp hk
  exact ⟨sound_step hs hk, (transition_sched hs.quiet ho).settled hs hm⟩

/-- **The user page.**  In every state reached, the user page and the kernel stack are those of the
running process; the pages of two live processes have no address in common, and none with the
kernel's page. -/
theorem userPage_running (fs : FileSystem) (b : Boot) (es : List Event) (k : Kernel)
    (h : Runs.run (Kernel.step fs) b.kernel es = some k) :
    (k.running ≠ 0 →
      k.display.paging.directory (mb128 >>> 22) = (mb4 + k.running * mb4) ||| 0x87 ∧
        k.proc.tssEsp0 = mb8 - k.running * kb8 - 4) ∧
      ∀ p, p ≠ 0 → k.proc.pidArr (p - 1) = true → Disjoint (userFrameSet p) kernelPage ∧
        ∀ q, q ≠ 0 → k.proc.pidArr (q - 1) = true → p ≠ q →
          Disjoint (userFrameSet p) (userFrameSet q) := by
  refine ⟨(settled_of_run h).mapped, fun p hp _ => ⟨disjoint_kernelPage hp, fun q _ _ hpq => ?_⟩⟩
  exact disjoint_userFrameSet hpq

theorem userPage_running_threeProcesses :
    ∃ k, Runs.run (Kernel.step shellDisk) Boot.zero.kernel threeProcesses = some k ∧
      k.running = 3 ∧ k.display.paging.directory (mb128 >>> 22) = (mb4 + 3 * mb4) ||| 0x87 ∧
        k.proc.tssEsp0 = mb8 - 3 * kb8 - 4 := by
  have hrun : (Runs.run (Kernel.step shellDisk) Boot.zero.kernel threeProcesses).map running =
      some 3 := by
    decide +kernel
  obtain ⟨k, hk, hr⟩ := Option.map_eq_some_iff.mp hrun
  have hpage := (userPage_running shellDisk Boot.zero _ k hk).1
  rw [hr] at hpage
  exact ⟨k, hk, hr, hpage (by decide)⟩

end Kernel

/-! ## The PCB pointer -/

namespace Sched

variable {fs : FileSystem} {s s' : Sched}

/-- `PCB` points at the running process's PCB. -/
def PcbRunning (s : Sched) : Prop := s.running ≠ 0 → s.pcb = some s.running

/-- The events that do not go back to an older process: a `c_execute` that finds a number, a halt of
a base process, a tick that finds no other process. -/
def KeepsPcb (fs : FileSystem) (s : Sched) : Event → Prop
  | .execute command _ junk =>
    resolves fs command junk = true → s.freeIndex ≠ none ∨ s.running = 0
  | .halt .. => (s.link s.running).parentPid = 0
  | .tick _ => s.running ≠ 0 → ∀ t, s.nextTerm = some t → t = s.active ∨ s.last t = 0
  | _ => True

theorem pcbRunning_start (s : Sched) (i : Nat) : (s.start i).PcbRunning :=
  fun _ => congrArg some (s.running_start i).symm

theorem pcbRunning_of_running (h : s.running = 0) : s.PcbRunning := fun hr => absurd h hr

/-- No process is its own parent. -/
theorem Sound.parent_ne (hs : s.Sound) (hr : s.running ≠ 0) :
    (s.link s.running).parentPid ≠ s.running := by
  obtain ⟨c, hc⟩ := hs.forest
  obtain ⟨l, hl, hchain⟩ := (hc.family.chain s.active).eq_cons hr
  intro he
  have hnodup := hc.family.nodup s.active
  rw [hl] at hnodup
  rw [show s.parentOf (s.last s.active) = s.last s.active from he] at hchain
  exact (List.nodup_cons.mp hnodup).1 (hchain.mem_self hr)

/-- **One event**: the pointer stays right exactly when the event does not go back. -/
theorem Step.pcbRunning_iff {e : Event} {o : Outcome} (h : Step fs s e o s') (hs : s.Sound)
    (hp : s.PcbRunning) : s'.PcbRunning ↔ s.KeepsPcb fs e := by
  cases h with
  | @idle e he v =>
    refine iff_of_true hp ?_
    cases e with
    | key | ctrl4Turn | call => trivial
    | execute | halt | tick => cases he
  | execute h =>
    cases h with
    | fail hn => exact iff_of_true hp fun h => absurd (hn.symm.trans h) nofun
    | start _ hi => exact iff_of_true (pcbRunning_start _ _) fun _ => Or.inl (hi ▸ nofun)
    | overflow hres hi =>
      refine ⟨fun hp' _ => Or.inr ?_, fun hk hr => ?_⟩
      · by_contra hr
        obtain ⟨c, hc⟩ := hs.forest
        have hle := hc.bound _ _ (hc.running_mem hr)
        have h7 : maxProcessSet = s.running := Option.some.inj (hp' hr)
        exact absurd (h7 ▸ hle) (by decide)
      · exact (hk hres).elim (absurd hi) fun h0 => absurd h0 hr
  | exit hr hpar =>
    refine iff_of_false (fun hp' => hs.parent_ne hr ?_) hpar
    have hrun := s.running_release
    have hpcb := hp' (hrun ▸ hpar)
    exact hrun.symm.trans (Option.some.inj (hpcb.symm.trans (hp hr)))
  | respawn hr hpar h =>
    cases h with
    | start => exact iff_of_true (pcbRunning_start _ _) hpar
  | vacate hr hpar h ho => exact iff_of_true (pcbRunning_of_running (running_vacate hpar h ho)) hpar
  | rest hr => exact iff_of_true hp fun h => absurd hr h
  | @tick fr hr t ht =>
    refine ⟨fun hp' _ u hu => ?_, fun hk hne => ?_⟩
    · obtain rfl : t = u := Option.some.inj (ht.symm.trans hu)
      refine or_iff_not_imp_right.mpr fun hne => hs.last_injective hr ?_
      exact Option.some.inj ((hp' hne).symm.trans (hp hr))
    · rcases hk hr t ht with rfl | h0
      · exact hp hr
      · exact absurd h0 hne
  | launch ht hl hf h =>
    cases h with
    | fail => exact iff_of_true (pcbRunning_of_running (hs.last_eq_zero ht hl)) trivial
    | start => exact iff_of_true (pcbRunning_start _ _) trivial
    | overflow _ hn => exact absurd hn hf

end Sched

/-! ## Descriptor calls stay with their process -/

namespace Kernel

variable {fs : FileSystem} {k : Kernel}

/-- Other PCBs in memory. -/
def withSlots (k : Kernel) (slots : Nat → Pcb) : Kernel :=
  { k with proc := { k.proc with slots := slots } }

/-- A system call neither reads nor changes a PCB other than the running process's: whatever the
other PCBs hold, it gives the same result and leaves them as they are. -/
def Isolated (fs : FileSystem) (k : Kernel) : Prop :=
  ∀ c slots, slots k.running = k.proc.slots k.running →
    (k.withSlots slots).call fs c = (k.call fs c).map fun r =>
      (r.1.withSlots (Function.update slots k.running (r.1.proc.slots k.running)), r.2)

/-- A result that changes the running process's slot. -/
theorem isolated_setSlot {α : Type} (slots : Nat → Pcb) (pcb : Pcb) (r : α) :
    (some (k.setSlot k.running pcb, r)).map (fun r =>
        (r.1.withSlots (Function.update slots k.running (r.1.proc.slots k.running)), r.2)) =
      some ((k.withSlots slots).setSlot k.running pcb, r) := by
  simp only [Option.map_some, setSlot, withSlots, Function.update_self]

section Isolated

variable {slots : Nat → Pcb} (hslot : slots k.running = k.proc.slots k.running)
include hslot

/-- A result that leaves the slots alone. -/
theorem isolated_same {α : Type} {k₁ : Kernel} (h : k₁.proc.slots = k.proc.slots) (r : α) :
    (some (k₁, r)).map (fun r =>
        (r.1.withSlots (Function.update slots k.running (r.1.proc.slots k.running)), r.2)) =
      some (k₁.withSlots slots, r) := by
  rw [Option.map_some, h, ← hslot, Function.update_eq_self]

theorem isolated_fileRead (fd : Nat) (buf : Buf) (nbytes : Int) :
    (k.withSlots slots).fileRead fs k.running fd buf nbytes =
      ((k.fileRead fs k.running fd buf nbytes).1.withSlots (Function.update slots k.running
        ((k.fileRead fs k.running fd buf nbytes).1.proc.slots k.running)),
        (k.fileRead fs k.running fd buf nbytes).2) := by
  have hs : (k.withSlots slots).proc.slots k.running = k.proc.slots k.running := hslot
  have hr : (k.withSlots slots).running = k.running := rfl
  simp only [fileRead, hr, hs]
  split
  · simp only [withSlots, ← hslot, Function.update_eq_self]
  · refine Prod.ext ?_ rfl
    simp only [setSlot, withSlots, Function.update_self]

theorem isolated_directRead (fd : Nat) (buf : Buf) (nbytes : Int) :
    (k.withSlots slots).directRead fs fd buf nbytes =
      (k.directRead fs fd buf nbytes).map fun r =>
        (r.1.withSlots (Function.update slots k.running (r.1.proc.slots k.running)), r.2) := by
  have hs : (k.withSlots slots).proc.slots k.running = k.proc.slots k.running := hslot
  have hr : (k.withSlots slots).running = k.running := rfl
  simp only [directRead, hr, hs]
  split
  · exact (isolated_same hslot rfl _).symm
  · split_ifs
    · exact (isolated_same hslot rfl _).symm
    · rfl
    · exact (isolated_setSlot slots _ _).symm

theorem isolated_terminalRead (buf : Buf) (nbytes : Int) (beyond : Buf) :
    (k.withSlots slots).terminalRead buf nbytes beyond =
      (k.terminalRead buf nbytes beyond).map fun r =>
        (r.1.withSlots (Function.update slots k.running (r.1.proc.slots k.running)), r.2) := by
  cases hent : k.editor.entFlag k.display.activeTerminal with
  | true =>
    rw [terminalRead, terminalRead, if_pos hent, if_pos (show (k.withSlots slots).editor.entFlag
      (k.withSlots slots).display.activeTerminal = true from hent)]
    simp only [Option.map_some, withSlots, ← hslot, Function.update_eq_self]
  | false =>
    rw [terminalRead, terminalRead, if_neg (Bool.eq_false_iff.mp hent),
      if_neg (show ¬ (k.withSlots slots).editor.entFlag
        (k.withSlots slots).display.activeTerminal = true from Bool.eq_false_iff.mp hent)]
    rfl

theorem isolated_cRead (hr0 : k.running ≠ 0) (hpcb : k.proc.pcb = some k.running) (fd : Int)
    (buf : Option Buf) (nbytes : Int) (beyond : Buf) :
    (k.withSlots slots).cRead fs fd buf nbytes beyond =
      (k.cRead fs fd buf nbytes beyond).map fun r =>
        (r.1.withSlots (Function.update slots k.running (r.1.proc.slots k.running)), r.2) := by
  have hp : (k.withSlots slots).proc.pcb = some k.running := hpcb
  have hs : (k.withSlots slots).proc.slots k.running = k.proc.slots k.running := hslot
  have hr : (k.withSlots slots).running = k.running := rfl
  cases buf with
  | none => exact (isolated_same hslot rfl _).symm
  | some buf =>
    simp only [cRead, hp, hpcb, hs, hr, if_neg hr0]
    split_ifs
    · exact (isolated_same hslot rfl _).symm
    · exact (isolated_same hslot rfl _).symm
    · split
      · rw [isolated_terminalRead hslot, Option.map_map, Option.map_map]
        rfl
      · rw [isolated_fileRead hslot]
        rfl
      · rw [isolated_directRead hslot, Option.map_map, Option.map_map]
        rfl
      · exact (isolated_same hslot rfl _).symm
      · rfl
      · rfl

theorem isolated_cWrite (hpcb : k.proc.pcb = some k.running) (fd : Int) (buf : Option Buf)
    (nbytes : Int) :
    (k.withSlots slots).cWrite fd buf nbytes = (k.cWrite fd buf nbytes).map fun r =>
      (r.1.withSlots (Function.update slots k.running (r.1.proc.slots k.running)), r.2) := by
  have hp : (k.withSlots slots).proc.pcb = some k.running := hpcb
  have hs : (k.withSlots slots).proc.slots k.running = k.proc.slots k.running := hslot
  cases buf with
  | none => exact (isolated_same hslot rfl _).symm
  | some buf =>
    simp only [cWrite, hp, hpcb, hs]
    split_ifs
    · exact (isolated_same hslot rfl _).symm
    · exact (isolated_same hslot rfl _).symm
    · split
      · rw [isolated_same hslot] <;> rfl
      · exact (isolated_same hslot rfl _).symm
      · exact (isolated_same hslot rfl _).symm
      · rw [isolated_same hslot] <;> rfl
      · rfl
      · rfl

theorem isolated_fdPopulate (hpcb : k.proc.pcb = some k.running) (fname : List UInt8)
    (beyond : List Nat) :
    (k.withSlots slots).fdPopulate fs fname beyond = (k.fdPopulate fs fname beyond).map fun r =>
      (r.1.withSlots (Function.update slots k.running (r.1.proc.slots k.running)), r.2) := by
  have hp : (k.withSlots slots).proc.pcb = some k.running := hpcb
  have hs : (k.withSlots slots).proc.slots k.running = k.proc.slots k.running := hslot
  simp only [fdPopulate, hp, hpcb, hs]
  split
  · rfl
  · split_ifs
    · exact (isolated_same hslot rfl _).symm
    · split
      · exact (isolated_same hslot rfl _).symm
      · exact (isolated_setSlot slots _ _).symm

theorem isolated_cOpen (hpcb : k.proc.pcb = some k.running) (filename : Option (List UInt8))
    (beyond : List Nat) :
    (k.withSlots slots).cOpen fs filename beyond = (k.cOpen fs filename beyond).map fun r =>
      (r.1.withSlots (Function.update slots k.running (r.1.proc.slots k.running)), r.2) := by
  cases filename with
  | none => exact (isolated_same hslot rfl _).symm
  | some fname =>
    simp only [cOpen, isolated_fdPopulate hslot hpcb]
    cases hpop : k.fdPopulate fs fname beyond with
    | none => rfl
    | some r =>
      have hpcb' : r.1.proc.pcb = some k.running := by
        rcases fdPopulate_cases hpop with ⟨h, -⟩ | ⟨p, i, d, -, -, -, -, h, -⟩ <;> rw [h] <;>
          exact hpcb
      simp only [Option.map_some, withSlots, hpcb', Function.update_self]
      split_ifs
      · simp only [Option.map_some, hpcb']
      · split <;> simp only [Option.map_some, Option.map_none, hpcb']

theorem isolated_cClose (hpcb : k.proc.pcb = some k.running) (fd : Int) :
    (k.withSlots slots).cClose fd = (k.cClose fd).map fun r =>
      (r.1.withSlots (Function.update slots k.running (r.1.proc.slots k.running)), r.2) := by
  have hp : (k.withSlots slots).proc.pcb = some k.running := hpcb
  have hs : (k.withSlots slots).proc.slots k.running = k.proc.slots k.running := hslot
  simp only [cClose, hp, hpcb, hs]
  split_ifs
  · exact (isolated_same hslot rfl _).symm
  · exact (isolated_same hslot rfl _).symm
  · exact (isolated_setSlot slots _ _).symm

end Isolated

/-- **Under the pointer, every descriptor call stays with its process.** -/
theorem isolated_of_pcb (hr : k.running ≠ 0) (hpcb : k.proc.pcb = some k.running) :
    k.Isolated fs := by
  intro c slots hslot
  cases c with
  | read fd buf nbytes beyond => exact isolated_cRead hslot hr hpcb fd buf nbytes beyond
  | write fd buf nbytes => exact isolated_cWrite hslot hpcb fd buf nbytes
  | openFile filename beyond =>
    rw [call, isolated_cOpen hslot hpcb, Option.map_map, call, Option.map_map]
    rfl
  | close fd =>
    rw [call, isolated_cClose hslot hpcb, Option.map_map, call, Option.map_map]
    rfl
  | getargs buf nbytes =>
    refine congrArg some ?_
    unfold cGetargs
    cases buf with
    | none => simp only [withSlots, ← hslot, Function.update_eq_self]
    | some buf =>
      change (if (k.proc.argSize : Int) + 1 > nbytes then _ else _) = _
      split
      · simp only [withSlots, ← hslot, Function.update_eq_self]
      · simp only [withSlots, ← hslot, Function.update_eq_self]
        rfl
  | vidmap screenStart =>
    refine congrArg some ?_
    unfold cVidmap
    split <;> simp only [withSlots, ← hslot, Function.update_eq_self]

/-- The pointer is the running process's, and its system calls stay with it. -/
def OwnPcb (fs : FileSystem) (k : Kernel) : Prop :=
  k.running ≠ 0 → k.proc.pcb = some k.running ∧ k.Isolated fs

/-- The events that do not go back to an older process: a `c_execute` that finds a number or no
program, a halt of a base process, a tick that finds no other process, and whatever leaves the
processor where it is. -/
def KeepsPcb (fs : FileSystem) (k : Kernel) : Event → Prop
  | .execute command _ junk =>
    resolves fs command junk = true → k.proc.freeIndex ≠ none ∨ k.running = 0
  | .halt .. => (k.proc.slots k.running).parentPid = 0
  | .tick _ => k.running ≠ 0 → ∀ t, k.nextTerm = some t →
      t = k.display.activeTerminal ∨ (k.proc.termArr t).lastActivePro = 0
  | _ => True

theorem ownPcb_iff : k.OwnPcb fs ↔ k.sched.PcbRunning :=
  ⟨fun h hr => (h hr).1, fun h hr => ⟨h hr, isolated_of_pcb hr (h hr)⟩⟩

theorem keepsPcb_iff {e : Event} : k.KeepsPcb fs e ↔ k.sched.KeepsPcb fs e := by
  cases e <;> exact Iff.rfl

/-- **The PCB pointer.**  Along a run from boot the pointer is the running process's, and every
system call stays with the process that makes it, exactly as long as no event goes back to an older
process. -/
theorem ownPcb_along_iff (fs : FileSystem) (b : Boot) (es : List Event) :
    Runs.Along (Kernel.step fs) (OwnPcb fs) b.kernel es ↔
      Runs.Guarded (Kernel.step fs) (KeepsPcb fs) b.kernel es := by
  refine Runs.along_iff_guarded (I := fun k => k.sched.Sound) (fun _ _ _ hs hk => sound_step hs hk)
    (fun k e k' hs hp hk => ?_) (sound_boot b) (fun hr => absurd rfl hr) es
  obtain ⟨o, ho⟩ := step_eq_some.mp hk
  rw [ownPcb_iff, keepsPcb_iff]
  exact (transition_sched hs.quiet ho).pcbRunning_iff hs (ownPcb_iff.mp hp)

/-- A shell runs a second one, which halts: the first one runs again with the pointer still at the
second one's PCB, and a file it opens is entered there. -/
theorem ownPcb_lost :
    ((Runs.run (Kernel.step shellDisk) Boot.zero.kernel
      [.execute (some shell) ⟨1, 2⟩ [], .execute (some shell) ⟨3, 4⟩ [], .halt 0 ⟨5, 6⟩ []]).bind
        fun k => (k.call shellDisk (.openFile (some shell) [])).map fun r =>
          (k.running, k.proc.pcb, ((r.1.proc.slots 1).fdArray 2).flags,
            ((k.proc.slots 2).fdArray 2).flags, ((r.1.proc.slots 2).fdArray 2).flags)) =
      some (1, some 2, 0, 0, 1) := by
  decide +kernel

end Kernel

end HarambeOs
