import HarambeOs.Machine

/-!
# Calls — what the system calls other than `execute` and `halt` can change

A call of `read`, `write`, `open`, `close`, `getargs` or `vidmap` changes one part of the kernel:
the descriptors of one slot, the clock, the line handed over by Enter, the screen, the stored
arguments or the video page.  `call_effect` says so once for all of them; what a call keeps is read
off from it.
-/

namespace HarambeOs

/-- The line handed over by Enter taken by a reader on terminal `t`. -/
def Editor.takeLine (e : Editor) (t : Term) : Editor :=
  { e with entFlag := Function.update e.entFlag t false, read := fun _ => nul }

namespace Kernel

variable {fs : FileSystem} {k k' : Kernel}

/-- Whether a call is a `terminal_read`: a read through a descriptor open for the keyboard. -/
def readsTerminal (k : Kernel) : Call → Bool
  | .read fd (some _) _ _ => decide (0 ≤ fd ∧ fd ≤ maxFdVal ∧ fd ≠ 1) &&
      k.proc.pcb.any fun p => decide (((k.proc.slots p).fdArray fd.toNat).flags ≠ 0) &&
        decide (((k.proc.slots p).fdArray fd.toNat).operations = some .stdin)
  | _ => false

/-- Whether a call is a `terminal_write`: a write through a descriptor open for the screen. -/
def writesTerminal (k : Kernel) : Call → Bool
  | .write fd (some _) _ => decide (0 < fd ∧ fd ≤ maxFdVal) &&
      k.proc.pcb.any fun p => decide (((k.proc.slots p).fdArray fd.toNat).flags ≠ 0) &&
        decide (((k.proc.slots p).fdArray fd.toNat).operations = some .stdout)
  | _ => false

/-- The descriptors of slot `p` changed. -/
def setFds (k : Kernel) (p : Nat) (fds : Nat → Fd) : Kernel :=
  k.setSlot p { k.proc.slots p with fdArray := fds }

/-- What a call can change. -/
inductive Effect (k : Kernel) (c : Call) : Kernel → Prop
  | same : Effect k c k
  | descriptors (p : Nat) (fds : Nat → Fd) : Effect k c (k.setFds p fds)
  | clock (p : Nat) (fds : Nat → Fd) (rtc : Rtc) : Effect k c { k.setFds p fds with rtc := rtc }
  | tick (rtc : Rtc) : Effect k c { k with rtc := rtc }
  | line (hr : k.readsTerminal c = true) (h : k.editor.entFlag k.display.activeTerminal = true) :
      Effect k c { k with editor := k.editor.takeLine k.display.activeTerminal }
  | output {fd nbytes : Int} {buf : Buf} (hc : c = .write fd (some buf) nbytes)
      (hw : k.writesTerminal c = true) :
      Effect k c { k with display :=
        (k.display.terminalWrite (some ((List.range nbytes.toNat).map buf))).2 }
  | arguments {buf : Option Buf} {nbytes : Int} (hc : c = .getargs buf nbytes)
      (getArgs : Nat → UInt8) :
      Effect k c { k with proc := { k.proc with getArgs := getArgs } }
  | video (screenStart : Nat) (hc : c = .vidmap screenStart) : Effect k c (k.cVidmap screenStart).1

/-- A read through a descriptor of the keyboard is `terminal_read`. -/
theorem cRead_of_readsTerminal {fd nbytes : Int} {buf beyond : Buf}
    (h : k.readsTerminal (.read fd (some buf) nbytes beyond) = true) :
    k.cRead fs fd (some buf) nbytes beyond =
      (k.terminalRead buf nbytes beyond).map fun r => (r.1, r.2.1, some r.2.2) := by
  simp only [readsTerminal, Bool.and_eq_true, decide_eq_true_eq, Option.any_eq_true] at h
  obtain ⟨⟨h₀, h₁, h₂⟩, p, hp, hflags, hop⟩ := h
  have hfd : ¬ (fd > maxFdVal ∨ fd < 0) := by omega
  simp only [cRead, if_neg hfd, hp, if_neg (not_or.mpr ⟨hflags, h₂⟩), hop]

variable {c : Call} {r : Int × Option Buf}

theorem fileRead_effect (c : Call) (fs : FileSystem) (pcb fd : Nat) (buf : Buf) (nbytes : Int)
    (k : Kernel) : Effect k c (k.fileRead fs pcb fd buf nbytes).1 := by
  unfold fileRead
  simp only
  split
  · exact .same
  · exact .descriptors pcb _

theorem directRead_effect {fd : Nat} {buf : Buf} {nbytes : Int} {r : Int × Buf}
    (h : k.directRead fs fd buf nbytes = some (k', r)) : Effect k c k' := by
  unfold directRead at h
  simp only at h
  split at h
  · obtain ⟨rfl, -⟩ := Prod.mk.inj (Option.some.inj h)
    exact .same
  · split_ifs at h
    · obtain ⟨rfl, -⟩ := Prod.mk.inj (Option.some.inj h)
      exact .same
    · obtain ⟨rfl, -⟩ := Prod.mk.inj (Option.some.inj h)
      exact .descriptors k.running _

/-- The ways a completed `c_read` goes: turned down, or to the driver of the entry. -/
inductive Reads (fs : FileSystem) (k : Kernel) (fd : Int) (buf : Option Buf) (nbytes : Int)
    (beyond : Buf) : Kernel → Int × Option Buf → Prop
  | refuse : Reads fs k fd buf nbytes beyond k (-1, buf)
  | terminal {b : Buf} {k' : Kernel} {r : Int × Buf} (hb : buf = some b)
      (ht : k.readsTerminal (.read fd buf nbytes beyond) = true)
      (hr : k.terminalRead b nbytes beyond = some (k', r)) :
      Reads fs k fd buf nbytes beyond k' (r.1, some r.2)
  | file {b : Buf} {p : Nat} (hb : buf = some b) (hfd : 0 ≤ fd ∧ fd ≤ maxFdVal)
      (hp : k.proc.pcb = some p)
      (hop : ((k.proc.slots p).fdArray fd.toNat).operations = some .file) :
      Reads fs k fd buf nbytes beyond (k.fileRead fs p fd.toNat b nbytes).1
        ((k.fileRead fs p fd.toNat b nbytes).2.1, some (k.fileRead fs p fd.toNat b nbytes).2.2)
  | directory {b : Buf} {k' : Kernel} {r : Int × Buf} (hb : buf = some b)
      (hfd : 0 ≤ fd ∧ fd ≤ maxFdVal) (hr : k.directRead fs fd.toNat b nbytes = some (k', r)) :
      Reads fs k fd buf nbytes beyond k' (r.1, some r.2)
  | clock : Reads fs k fd buf nbytes beyond k (0, buf)

theorem cRead_reads {fd nbytes : Int} {buf : Option Buf} {beyond : Buf}
    (h : k.cRead fs fd buf nbytes beyond = some (k', r)) :
    Reads fs k fd buf nbytes beyond k' r := by
  unfold cRead at h
  split at h
  · obtain ⟨rfl, rfl⟩ := Prod.mk.inj (Option.some.inj h)
    exact .refuse
  split at h
  · obtain ⟨rfl, rfl⟩ := Prod.mk.inj (Option.some.inj h)
    exact .refuse
  next hfd =>
  have hfd : 0 ≤ fd ∧ fd ≤ maxFdVal := by omega
  split at h
  · cases h
  next p hp =>
  simp only at h
  split at h
  · obtain ⟨rfl, rfl⟩ := Prod.mk.inj (Option.some.inj h)
    exact .refuse
  next hflags =>
  obtain ⟨hflags, h₁⟩ := not_or.mp hflags
  split at h
  · next hop =>
    obtain ⟨r', hr', h⟩ := Option.map_eq_some_iff.mp h
    obtain ⟨rfl, rfl⟩ := Prod.mk.inj h
    refine .terminal rfl ?_ hr'
    rw [readsTerminal, hp, Option.any_some, decide_eq_true hflags, decide_eq_true hop,
      decide_eq_true ⟨hfd.1, hfd.2, h₁⟩]
    rfl
  · next hop =>
    split at h
    · cases h
    · obtain ⟨rfl, rfl⟩ := Prod.mk.inj (Option.some.inj h)
      exact .file rfl hfd hp hop
  · split at h
    · cases h
    · obtain ⟨r', hr', h⟩ := Option.map_eq_some_iff.mp h
      obtain ⟨rfl, rfl⟩ := Prod.mk.inj h
      exact .directory rfl hfd hr'
  · obtain ⟨rfl, rfl⟩ := Prod.mk.inj (Option.some.inj h)
    exact .clock
  · cases h
  · cases h

theorem terminalRead_eq_some {buf beyond : Buf} {nbytes : Int} {r : Int × Buf}
    (h : k.terminalRead buf nbytes beyond = some (k', r)) :
    k.editor.entFlag k.display.activeTerminal = true ∧
      k' = { k with editor := k.editor.takeLine k.display.activeTerminal } ∧
      ∀ j (hj : j < numberCodes), (j : Int) < nbytes → r.2 j = k.editor.read ⟨j, hj⟩ := by
  unfold terminalRead at h
  split at h
  · next hent =>
    obtain ⟨rfl, rfl⟩ := Prod.mk.inj (Option.some.inj h)
    refine ⟨hent, rfl, fun j hj hn => ?_⟩
    simp only [if_pos hn, dif_pos hj]
  · cases h

theorem terminalRead_effect {nbytes : Int} {buf beyond : Buf} {r : Int × Buf}
    (hc : k.readsTerminal c = true) (h : k.terminalRead buf nbytes beyond = some (k', r)) :
    Effect k c k' := by
  obtain ⟨hent, rfl, -⟩ := terminalRead_eq_some h
  exact .line hc hent

theorem cRead_effect {fd nbytes : Int} {buf : Option Buf} {beyond : Buf}
    (h : k.cRead fs fd buf nbytes beyond = some (k', r)) :
    Effect k (.read fd buf nbytes beyond) k' := by
  cases cRead_reads h with
  | refuse => exact .same
  | terminal _ ht hr => exact terminalRead_effect ht hr
  | file => exact fileRead_effect ..
  | directory _ _ hr => exact directRead_effect hr
  | clock => exact .same

/-- A write through a descriptor of the screen is `terminal_write`. -/
theorem writesTerminal_of_stdout {p : Nat} {fd nbytes : Int} {buf : Buf}
    (hfd : ¬ (fd > maxFdVal ∨ fd ≤ 0)) (hp : k.proc.pcb = some p)
    (hflags : ((k.proc.slots p).fdArray fd.toNat).flags ≠ 0)
    (hop : ((k.proc.slots p).fdArray fd.toNat).operations = some .stdout) :
    k.writesTerminal (.write fd (some buf) nbytes) = true := by
  rw [writesTerminal, hp, Option.any_some, decide_eq_true hflags, decide_eq_true hop,
    decide_eq_true (by omega)]
  rfl

/-- The ways a completed `c_write` goes: nothing, output, or the clock. -/
theorem cWrite_eq_some {fd nbytes : Int} {buf : Option Buf}
    (h : k.cWrite fd buf nbytes = some (k', r)) :
    k' = k ∨ (∃ b, buf = some b ∧ k.writesTerminal (.write fd buf nbytes) = true ∧
        k' = { k with display :=
          (k.display.terminalWrite (some ((List.range nbytes.toNat).map b))).2 }) ∨
      ∃ rtc, k' = { k with rtc := rtc } := by
  unfold cWrite at h
  split at h
  · exact Or.inl (Prod.mk.inj (Option.some.inj h)).1.symm
  split at h
  · exact Or.inl (Prod.mk.inj (Option.some.inj h)).1.symm
  next hfd =>
  split at h
  · cases h
  next p hp =>
  simp only at h
  split at h
  · exact Or.inl (Prod.mk.inj (Option.some.inj h)).1.symm
  next hflags =>
  split at h
  · next hop =>
    exact Or.inr (Or.inl ⟨_, rfl, writesTerminal_of_stdout hfd hp hflags hop,
      (Prod.mk.inj (Option.some.inj h)).1.symm⟩)
  · exact Or.inl (Prod.mk.inj (Option.some.inj h)).1.symm
  · exact Or.inl (Prod.mk.inj (Option.some.inj h)).1.symm
  · exact Or.inr (Or.inr ⟨_, (Prod.mk.inj (Option.some.inj h)).1.symm⟩)
  · cases h
  · cases h

theorem cWrite_effect {fd nbytes : Int} {buf : Option Buf}
    (h : k.cWrite fd buf nbytes = some (k', r)) : Effect k (.write fd buf nbytes) k' := by
  rcases cWrite_eq_some h with rfl | ⟨b, rfl, hw, rfl⟩ | ⟨_, rfl⟩
  · exact .same
  · exact .output rfl hw
  · exact .tick _

theorem populate_eq (pcb : Pcb) (i : Nat) (dentry : Dentry) :
    pcb.populate i dentry = { pcb with fdArray := (pcb.populate i dentry).fdArray } := by
  rw [Pcb.populate_eq_ite]
  split <;> rfl

/-- The first free entry. -/
theorem flags_of_findIdx {pcb : Pcb} {beyond : List Nat} {i : Nat} (hi : i < totalFds)
    (h : (pcb.flagWords beyond).findIdx? (· == 0) = some i) : (pcb.fdArray i).flags = 0 := by
  obtain ⟨hlt, hzero, -⟩ := List.findIdx?_eq_some_iff_getElem.mp h
  simpa [Pcb.flagWords, List.getElem_append_left, hi] using hzero

/-- The ways a completed `FD_Populate` goes. -/
theorem fdPopulate_cases {fname : List UInt8} {beyond : List Nat} {i : Int}
    (h : k.fdPopulate fs fname beyond = some (k', i)) :
    (k' = k ∧ i = -1) ∨ ∃ p j d, k.proc.pcb = some p ∧ j < totalFds ∧
      ((k.proc.slots p).fdArray j).flags = 0 ∧ fs.readDentryByName fname = some d ∧
      k' = k.setSlot p ((k.proc.slots p).populate j d) ∧ i = j := by
  unfold fdPopulate at h
  split at h
  · cases h
  next p hp =>
  split at h
  · cases h
  next j hj =>
  split at h
  · obtain ⟨rfl, rfl⟩ := Prod.mk.inj (Option.some.inj h)
    exact Or.inl ⟨rfl, rfl⟩
  next hle =>
  have hlt : j < totalFds := Nat.lt_succ_of_le (Nat.not_lt.mp hle)
  split at h
  · obtain ⟨rfl, rfl⟩ := Prod.mk.inj (Option.some.inj h)
    exact Or.inl ⟨rfl, rfl⟩
  next d hd =>
  obtain ⟨rfl, rfl⟩ := Prod.mk.inj (Option.some.inj h)
  exact Or.inr ⟨p, j, d, hp, hlt, flags_of_findIdx hlt hj, hd, rfl, rfl⟩

theorem cOpen_effect {filename : Option (List UInt8)} {beyond : List Nat} {i : Int}
    (h : k.cOpen fs filename beyond = some (k', i)) : Effect k c k' := by
  unfold cOpen at h
  split at h
  · obtain ⟨rfl, -⟩ := Prod.mk.inj (Option.some.inj h)
    exact .same
  split at h
  · cases h
  next k₁ j hpop =>
  have hk₁ : Effect k c k₁ ∧ ∀ rtc, Effect k c { k₁ with rtc := rtc } := by
    rcases fdPopulate_cases hpop with ⟨rfl, -⟩ | ⟨p, i, d, -, -, -, -, rfl, -⟩
    · exact ⟨.same, .tick⟩
    · rw [populate_eq]
      exact ⟨.descriptors p _, .clock p _⟩
  split at h
  · obtain ⟨rfl, -⟩ := Prod.mk.inj (Option.some.inj h)
    exact hk₁.1
  split at h
  · obtain ⟨rfl, -⟩ := Prod.mk.inj (Option.some.inj h)
    exact hk₁.2 _
  · obtain ⟨rfl, -⟩ := Prod.mk.inj (Option.some.inj h)
    exact hk₁.1
  · obtain ⟨rfl, -⟩ := Prod.mk.inj (Option.some.inj h)
    exact hk₁.1
  · cases h

theorem cClose_effect {fd : Int} {i : Int} (h : k.cClose fd = some (k', i)) : Effect k c k' := by
  unfold cClose at h
  split at h
  · obtain ⟨rfl, -⟩ := Prod.mk.inj (Option.some.inj h)
    exact .same
  split at h
  · cases h
  split at h
  · obtain ⟨rfl, -⟩ := Prod.mk.inj (Option.some.inj h)
    exact .same
  · obtain ⟨rfl, -⟩ := Prod.mk.inj (Option.some.inj h)
    exact .descriptors _ _

theorem cGetargs_effect (buf : Option Buf) (nbytes : Int) (k : Kernel) :
    Effect k (.getargs buf nbytes) (k.cGetargs buf nbytes).1 := by
  unfold cGetargs
  split
  · exact .same
  split
  · exact .same
  · exact .arguments rfl _

/-- **What a call changes.** -/
theorem call_effect (h : k.call fs c = some (k', r)) : Effect k c k' := by
  cases c with
  | read fd buf nbytes beyond => exact cRead_effect h
  | write fd buf nbytes => exact cWrite_effect h
  | openFile filename beyond =>
    obtain ⟨r', hr', h⟩ := Option.map_eq_some_iff.mp h
    obtain ⟨rfl, -⟩ := Prod.mk.inj h
    exact cOpen_effect hr'
  | close fd =>
    obtain ⟨r', hr', h⟩ := Option.map_eq_some_iff.mp h
    obtain ⟨rfl, -⟩ := Prod.mk.inj h
    exact cClose_effect hr'
  | getargs buf nbytes =>
    have hk : (k.cGetargs buf nbytes).1 = k' := congrArg Prod.fst (Option.some.inj h)
    rw [← hk]
    exact cGetargs_effect ..
  | vidmap screenStart =>
    obtain ⟨rfl, -⟩ := Prod.mk.inj (Option.some.inj h)
    exact .video screenStart rfl

end Kernel

end HarambeOs
