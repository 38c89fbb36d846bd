import HarambeOs.Files
import HarambeOs.Tables

/-!
# OpenClose — which descriptor `c_open` returns, and what `c_close` frees

The scan of `FD_Populate` starts at descriptor 0 and runs past the table when all eight are in use.
The standard descriptors are never closed, so it stops at the lowest free one of 2 to 7
(`findIdx_flagWords`) or beyond the table, and then the call fails.  **`Kernel.openClose_table`** is
the law of the two calls, after any sequence of them; `Kernel.looked_le_iff` says when the scan
stays in the table.
-/

namespace HarambeOs

/-! ## Free descriptors -/

/-- A descriptor in use. -/
def InUse (fds : Nat → Fd) (i : Nat) : Prop := (fds i).flags ≠ 0

/-- The lowest free descriptor of 2 to 7. -/
def LowestFree (fds : Nat → Fd) (i : Nat) : Prop :=
  (2 ≤ i ∧ i ≤ 7) ∧ ¬ InUse fds i ∧ ∀ j, 2 ≤ j → j < i → InUse fds j

/-- No free descriptor of 2 to 7. -/
def AllInUse (fds : Nat → Fd) : Prop := ∀ i, 2 ≤ i → i ≤ 7 → InUse fds i

/-- An entry open on a file: its jump table, from the beginning, and a regular file's inode. -/
structure OpenOn (d : Dentry) (fd : Fd) : Prop where
  flags : fd.flags = 1
  operations : fd.operations = deviceOf d.fT
  position : d.fT = 1 ∨ d.fT = 2 → fd.position = 0
  inode : d.fT = 2 → fd.inode = d.inodeIdx

/-- The standard descriptors are in use. -/
def Standard (fds : Nat → Fd) : Prop := InUse fds 0 ∧ InUse fds 1

theorem Standard.inUse {fds : Nat → Fd} (h : Standard fds) {i : Nat} (hi : i < 2) :
    InUse fds i := by
  match i, hi with
  | 0, _ => exact h.1
  | 1, _ => exact h.2

theorem length_flagWords (pcb : Pcb) (beyond : List Nat) :
    (pcb.flagWords beyond).length = totalFds + (beyond.length + 1) := by
  rw [Pcb.flagWords, List.length_append, List.length_map, List.length_range, List.length_cons]

theorem getElem_flagWords {pcb : Pcb} {beyond : List Nat} {i : Nat} (hi : i < totalFds) :
    (pcb.flagWords beyond)[i]? = some (pcb.fdArray i).flags := by
  rw [Pcb.flagWords,
    List.getElem?_append_left (by rw [List.length_map, List.length_range]; exact hi),
    List.getElem?_map, List.getElem?_range hi]
  rfl

/-- **The scan stops at the lowest free descriptor.** -/
theorem findIdx_flagWords {pcb : Pcb} (hstd : Standard pcb.fdArray) {i : Nat}
    (h : LowestFree pcb.fdArray i) (beyond : List Nat) :
    (pcb.flagWords beyond).findIdx? (· == 0) = some i := by
  obtain ⟨⟨h₂, h₇⟩, hfree, hbefore⟩ := h
  have hi : i < totalFds := Nat.lt_succ_of_le h₇
  rw [List.findIdx?_eq_some_iff_getElem]
  have hword {j : Nat} (hj : j < totalFds) (hlt : j < (pcb.flagWords beyond).length) :
      (pcb.flagWords beyond)[j] = (pcb.fdArray j).flags :=
    Option.some.inj ((List.getElem?_eq_getElem hlt).symm.trans (getElem_flagWords hj))
  have hlen : i < (pcb.flagWords beyond).length := by
    rw [length_flagWords]
    omega
  refine ⟨hlen, ?_, fun j hj => ?_⟩
  · rw [hword hi hlen]
    exact beq_iff_eq.mpr (not_not.mp hfree)
  · rw [hword (by omega) (by omega)]
    have huse : InUse pcb.fdArray j := by
      rcases Nat.lt_or_ge j 2 with hj₂ | hj₂
      · exact hstd.inUse hj₂
      · exact hbefore j hj₂ hj
    exact fun hz => huse (beq_iff_eq.mp hz)

/-- **When all are in use it stops beyond the table**, if at all. -/
theorem findIdx_flagWords_of_all {pcb : Pcb} (hstd : Standard pcb.fdArray)
    (h : AllInUse pcb.fdArray) {beyond : List Nat} (hstop : 0 ∈ pcb.flagWords beyond) :
    ∃ i, (pcb.flagWords beyond).findIdx? (· == 0) = some i ∧ maxFdVal < i := by
  obtain ⟨i, hi⟩ : ∃ i, (pcb.flagWords beyond).findIdx? (· == 0) = some i := by
    rw [← Option.isSome_iff_exists, List.findIdx?_isSome]
    exact List.any_eq_true.mpr ⟨0, hstop, rfl⟩
  refine ⟨i, hi, ?_⟩
  by_contra hle
  have hlt : i < totalFds := Nat.lt_succ_of_le (Nat.not_lt.mp hle)
  have hzero := Kernel.flags_of_findIdx hlt hi
  rcases Nat.lt_or_ge i 2 with h₂ | h₂
  · exact hstd.inUse h₂ hzero
  · exact h i h₂ (Nat.le_of_lt_succ hlt) hzero

/-- How many entries the `while` of `FD_Populate` looks at, from `FDArray[0]` on; `none` when no
zero stops it in the memory given. -/
def Pcb.looked (pcb : Pcb) (beyond : List Nat) : Option Nat :=
  ((pcb.flagWords beyond).findIdx? (· == 0)).map (· + 1)

/-- A descriptor that is closed is the lowest free one, when those below it are in use. -/
theorem lowestFree_update {fds : Nat → Fd} {i : Nat} (hi : 2 ≤ i ∧ i ≤ 7)
    (h : ∀ j, 2 ≤ j → j < i → InUse fds j) :
    LowestFree (Function.update fds i ⟨none, 0, minusOne, 0⟩) i := by
  refine ⟨hi, ?_, fun j h₂ hj => ?_⟩
  · rw [InUse, Function.update_self]
    exact not_not.mpr rfl
  · rw [InUse, Function.update_of_ne (Nat.ne_of_lt hj)]
    exact h j h₂ hj

/-- There is a lowest free descriptor, or there is none. -/
theorem allInUse_or_lowestFree (fds : Nat → Fd) : AllInUse fds ∨ ∃ i, LowestFree fds i := by
  by_cases h : ∃ i, (2 ≤ i ∧ i ≤ 7) ∧ ¬ InUse fds i
  · classical
    refine Or.inr ⟨Nat.find h, (Nat.find_spec h).1, (Nat.find_spec h).2, fun j h₂ hj => ?_⟩
    by_contra hfree
    exact Nat.find_min h hj ⟨⟨h₂, by have := (Nat.find_spec h).1; omega⟩, hfree⟩
  · refine Or.inl fun i h₂ h₇ => ?_
    by_contra hfree
    exact h ⟨i, ⟨h₂, h₇⟩, hfree⟩

/-! ## The two calls -/

namespace Kernel

variable {fs : FileSystem} {k k' : Kernel} {p : Nat} {fname : List UInt8} {d : Dentry}

/-- The descriptors of slot `p`. -/
def fds (k : Kernel) (p : Nat) : Nat → Fd := (k.proc.slots p).fdArray

theorem fds_setSlot_setFd (k : Kernel) (p i : Nat) (fd : Fd) :
    (k.setSlot p ((k.proc.slots p).setFd i fd)).fds p = Function.update (k.fds p) i fd := by
  simp only [fds, setSlot, Function.update_self, Pcb.setFd]

theorem fds_of_proc (h : k'.proc = k.proc) (p : Nat) : k'.fds p = k.fds p := by rw [fds, fds, h]

theorem deviceOf_eq_some {ty : Nat} {device : Device} (h : deviceOf ty = some device) :
    ty = 0 ∧ device = .rtc ∨ ty = 1 ∧ device = .directory ∨ ty = 2 ∧ device = .file := by
  unfold deviceOf at h
  split at h
  · exact Or.inl ⟨rfl, (Option.some.inj h).symm⟩
  · exact Or.inr (Or.inl ⟨rfl, (Option.some.inj h).symm⟩)
  · exact Or.inr (Or.inr ⟨rfl, (Option.some.inj h).symm⟩)
  · cases h

/-- The entry for a file of one of the three types. -/
theorem openOn_entryFor {device : Device} (hdev : deviceOf d.fT = some device) :
    d.fT ≤ 2 ∧ OpenOn d (Pcb.entryFor d) := by
  unfold Pcb.entryFor
  rcases deviceOf_eq_some hdev with ⟨h, -⟩ | ⟨h, -⟩ | ⟨h, -⟩
  · exact ⟨by omega, by rw [h]; rfl, by rw [h]; rfl, by omega, by omega⟩
  · exact ⟨by omega, by rw [h]; rfl, by rw [h]; rfl, fun _ => by rw [h]; rfl, by omega⟩
  · exact ⟨by omega, by rw [h]; rfl, by rw [h]; rfl, fun _ => by rw [h]; rfl,
      fun _ => by rw [h]; rfl⟩

/-- `FD_Populate` turns a name down when it finds none, or no free descriptor. -/
theorem fdPopulate_refuses (hp : k.proc.pcb = some p) (hstd : Standard (k.fds p))
    {beyond : List Nat} (hstop : 0 ∈ (k.proc.slots p).flagWords beyond)
    (h : fs.readDentryByName fname = none ∨ AllInUse (k.fds p)) :
    k.fdPopulate fs fname beyond = some (k, -1) := by
  rw [fdPopulate, hp]
  dsimp only
  rcases allInUse_or_lowestFree (k.fds p) with hall | ⟨i, hi⟩
  · obtain ⟨j, hj, hlt⟩ := findIdx_flagWords_of_all hstd hall hstop
    rw [hj]
    exact if_pos hlt
  · have hnone : fs.readDentryByName fname = none := by
      refine h.resolve_right fun hall => hi.2.1 (hall i hi.1.1 hi.1.2)
    rw [findIdx_flagWords hstd hi, hnone]
    exact if_neg (Nat.not_lt.mpr hi.1.2)

/-- It fills in the lowest free descriptor otherwise. -/
theorem fdPopulate_fills (hp : k.proc.pcb = some p) (hstd : Standard (k.fds p)) {i : Nat}
    (hi : LowestFree (k.fds p) i) (hd : fs.readDentryByName fname = some d) (beyond : List Nat) :
    k.fdPopulate fs fname beyond =
      some (k.setSlot p ((k.proc.slots p).populate i d), (i : Int)) := by
  rw [fdPopulate, hp]
  dsimp only
  rw [findIdx_flagWords hstd hi, hd]
  exact if_neg (Nat.not_lt.mpr hi.1.2)

theorem cOpen_refuses (hp : k.proc.pcb = some p) (hstd : Standard (k.fds p)) {beyond : List Nat}
    (hstop : 0 ∈ (k.proc.slots p).flagWords beyond)
    (h : fs.readDentryByName fname = none ∨ AllInUse (k.fds p)) :
    k.cOpen fs (some fname) beyond = some (k, -1) := by
  rw [cOpen, fdPopulate_refuses hp hstd hstop h]
  rfl

/-- **An open that succeeds** returns the lowest free descriptor, open on the file, and changes no
other. -/
theorem cOpen_succeeds (hp : k.proc.pcb = some p) (hstd : Standard (k.fds p)) {i : Nat}
    (hi : LowestFree (k.fds p) i) (hd : fs.readDentryByName fname = some d) {device : Device}
    (hdev : deviceOf d.fT = some device) (beyond : List Nat) :
    ∃ k' fd, k.cOpen fs (some fname) beyond = some (k', (i : Int)) ∧ OpenOn d fd ∧
      k'.fds p = Function.update (k.fds p) i fd ∧ k'.proc.pcb = some p := by
  obtain ⟨htype, hfd⟩ := openOn_entryFor hdev
  generalize hentry : Pcb.entryFor d = fd at hfd
  have hpop : (k.proc.slots p).populate i d = (k.proc.slots p).setFd i fd := by
    rw [Pcb.populate_eq_ite, if_pos htype, hentry]
  have htable := k.fds_setSlot_setFd p i fd
  have hop : (((k.setSlot p ((k.proc.slots p).setFd i fd)).proc.slots p).fdArray i).operations =
      deviceOf d.fT := by
    rw [← fds, htable, Function.update_self, hfd.operations]
  rw [cOpen, fdPopulate_fills hp hstd hi hd beyond, hpop]
  dsimp only
  rw [if_neg (by omega), show (k.setSlot p ((k.proc.slots p).setFd i fd)).proc.pcb = some p from hp,
    Option.map_some, Int.toNat_natCast, hop, hdev]
  rcases deviceOf_eq_some hdev with ⟨-, rfl⟩ | ⟨-, rfl⟩ | ⟨-, rfl⟩
  · exact ⟨_, fd, rfl, hfd, htable, hp⟩
  · exact ⟨_, fd, rfl, hfd, htable, hp⟩
  · exact ⟨_, fd, rfl, hfd, htable, hp⟩

/-- A close frees a descriptor in use. -/
theorem cClose_frees (hp : k.proc.pcb = some p) {fd : Int} (h₂ : 2 ≤ fd) (h₇ : fd ≤ 7)
    (huse : InUse (k.fds p) fd.toNat) :
    k.cClose fd =
      some (k.setSlot p ((k.proc.slots p).setFd fd.toNat ⟨none, 0, minusOne, 0⟩), 0) := by
  rw [cClose, if_neg (by rw [minCount, maxFdVal]; omega), hp]
  exact if_neg huse

/-- It fails on any other. -/
theorem cClose_refuses (hp : k.proc.pcb = some p) {fd : Int}
    (h : ¬ (2 ≤ fd ∧ fd ≤ 7 ∧ InUse (k.fds p) fd.toNat)) : k.cClose fd = some (k, -1) := by
  rw [cClose]
  split
  · rfl
  · next hrange =>
    rw [minCount, maxFdVal] at hrange
    rw [hp]
    refine if_pos ?_
    by_contra huse
    exact h ⟨by omega, by omega, huse⟩

/-! ## Any sequence of calls -/

/-- A call that changes the table of descriptors. -/
inductive TableCall
  | openFile (fname : List UInt8) (beyond : List Nat)
  | close (fd : Int)

def tableStep (fs : FileSystem) (k : Kernel) : TableCall → Option Kernel
  | .openFile fname beyond => (k.cOpen fs (some fname) beyond).map Prod.fst
  | .close fd => (k.cClose fd).map Prod.fst

/-- What the calls leave alone: `PCB`, and the descriptors outside 2 to 7. -/
structure Reached (p : Nat) (start : Nat → Fd) (k : Kernel) : Prop where
  pcb : k.proc.pcb = some p
  outside : ∀ i, ¬ (2 ≤ i ∧ i ≤ 7) → k.fds p i = start i

namespace Reached

variable {start : Nat → Fd}

theorem standard (h : Reached p start k) (hstart : Standard start) : Standard (k.fds p) := by
  rw [Standard, InUse, InUse, h.outside 0 (by omega), h.outside 1 (by omega)]
  exact hstart

/-- One descriptor of 2 to 7 changed. -/
theorem update (h : Reached p start k) {i : Nat} (h₂ : 2 ≤ i) (h₇ : i ≤ 7) {fd : Fd}
    (hk : k'.fds p = Function.update (k.fds p) i fd) (hpcb : k'.proc.pcb = k.proc.pcb) :
    Reached p start k' := by
  refine ⟨hpcb.trans h.pcb, fun j hj => ?_⟩
  rw [hk, Function.update_of_ne (by omega)]
  exact h.outside j hj

theorem congr (h : Reached p start k) (hproc : k'.proc = k.proc) : Reached p start k' :=
  ⟨hproc ▸ h.pcb, fds_of_proc hproc p ▸ h.outside⟩

theorem step (hstart : Standard start) (h : Reached p start k) {c : TableCall}
    (hs : k.tableStep fs c = some k') : Reached p start k' := by
  cases c with
  | openFile fname beyond =>
    obtain ⟨⟨k₁, i⟩, hopen, rfl⟩ := Option.map_eq_some_iff.mp hs
    obtain ⟨k₂, hpop, hproc⟩ := cOpen_populates hopen
    refine congr ?_ hproc
    rcases fdPopulate_cases hpop with ⟨rfl, -⟩ | ⟨q, j, d, hq, hj, hflags, -, rfl, -⟩
    · exact h
    · obtain rfl := Option.some.inj (h.pcb.symm.trans hq)
      have h₂ : 2 ≤ j := by
        by_contra hlt
        exact (h.standard hstart).inUse (Nat.not_le.mp hlt) hflags
      rw [Pcb.populate_eq_ite]
      split
      · exact h.update h₂ (Nat.le_of_lt_succ hj) (k.fds_setSlot_setFd p j _) rfl
      · have hsame : (k.setSlot p (k.proc.slots p)).fds p =
            Function.update (k.fds p) j (k.fds p j) := by
          rw [Function.update_eq_self, fds, setSlot, Function.update_eq_self, fds]
        exact h.update h₂ (Nat.le_of_lt_succ hj) hsame rfl
  | close fd =>
    obtain ⟨⟨k₁, i⟩, hclose, rfl⟩ := Option.map_eq_some_iff.mp hs
    by_cases huse : 2 ≤ fd ∧ fd ≤ 7 ∧ InUse (k.fds p) fd.toNat
    · rw [cClose_frees h.pcb huse.1 huse.2.1 huse.2.2] at hclose
      obtain ⟨rfl, -⟩ := Prod.mk.inj (Option.some.inj hclose)
      exact h.update (by omega) (by omega) (k.fds_setSlot_setFd p fd.toNat _) rfl
    · rw [cClose_refuses h.pcb huse] at hclose
      obtain ⟨rfl, -⟩ := Prod.mk.inj (Option.some.inj hclose)
      exact h

/-- The descriptor just closed is the next to be opened, when those below it are in use. -/
theorem reopens (hstart : Standard start) (h : Reached p start k) {i : Nat} {k₁ : Kernel}
    (hbefore : ∀ j, 2 ≤ j → j < i → InUse (k.fds p) j) (hclose : k.cClose i = some (k₁, 0))
    (hd : fs.readDentryByName fname = some d) {device : Device}
    (hdev : deviceOf d.fT = some device) (beyond : List Nat) :
    ∃ k', k₁.cOpen fs (some fname) beyond = some (k', (i : Int)) := by
  by_cases huse : (2 : Int) ≤ i ∧ (i : Int) ≤ 7 ∧ InUse (k.fds p) (i : Int).toNat
  · rw [cClose_frees h.pcb huse.1 huse.2.1 huse.2.2] at hclose
    obtain ⟨rfl, -⟩ := Prod.mk.inj (Option.some.inj hclose)
    have htable := k.fds_setSlot_setFd p (i : Int).toNat ⟨none, 0, minusOne, 0⟩
    have h₁ := h.update (by omega) (by omega) htable rfl
    have hi := lowestFree_update (by omega) hbefore
    rw [← Int.toNat_natCast i, ← htable, Int.toNat_natCast] at hi
    obtain ⟨k', -, hopen, -⟩ := cOpen_succeeds h₁.pcb (h₁.standard hstart) hi hd hdev beyond
    exact ⟨k', hopen⟩
  · rw [cClose_refuses h.pcb huse] at hclose
    exact absurd (Prod.mk.inj (Option.some.inj hclose)).2 (by decide)

end Reached

theorem standard_cPcb {n : Nat} (hn : 0 < n) (pcb : Pcb) : Standard (cPcb n pcb).fdArray := by
  have h := TableOk.cPcb hn pcb
  rw [Standard, InUse, InUse, h.stdin.2, h.stdout.2]
  exact ⟨one_ne_zero, one_ne_zero⟩

theorem standard_of_fresh {n : Nat} (hn : 0 < n) {pcb : Pcb} (h : k.proc.slots p = cPcb n pcb) :
    Standard (k.fds p) := by
  rw [fds, h]
  exact standard_cPcb hn pcb

theorem reached_of_run {k₀ : Kernel} (hp : k₀.proc.pcb = some p) (hstart : Standard (k₀.fds p))
    {cs : List TableCall} (h : Runs.run (tableStep fs) k₀ cs = some k) :
    Reached p (k₀.fds p) k :=
  Runs.run_invariant (fun _ _ _ hs hstep => hs.step hstart hstep) ⟨hp, fun _ _ => rfl⟩ h

/-- **Open and close.**  After any sequence of the two calls on the table that `c_pcb` sets up: an
open of a name that is not there, or with no descriptor free, fails and changes nothing; any other
takes the lowest free descriptor of 2 to 7, opens it on the file and changes no other.  A close
frees a descriptor of 2 to 7 that is in use and nothing else, and fails otherwise.  No descriptor
outside 2 to 7 ever changes, and one that is closed is the next to be opened when it is the
lowest. -/
theorem openClose_table {k₀ : Kernel} {n : Nat} (hn : 0 < n) {pcb : Pcb}
    (hp : k₀.proc.pcb = some p) (hfresh : k₀.proc.slots p = cPcb n pcb) {cs : List TableCall}
    (h : Runs.run (tableStep fs) k₀ cs = some k) :
    (∀ fname beyond,
      (0 ∈ (k.proc.slots p).flagWords beyond →
        fs.readDentryByName fname = none ∨ AllInUse (k.fds p) →
          k.cOpen fs (some fname) beyond = some (k, -1)) ∧
      ∀ d device, fs.readDentryByName fname = some d → deviceOf d.fT = some device →
        ¬ AllInUse (k.fds p) → ∃ i k' fd, LowestFree (k.fds p) i ∧
          k.cOpen fs (some fname) beyond = some (k', (i : Int)) ∧ OpenOn d fd ∧
          k'.fds p = Function.update (k.fds p) i fd) ∧
    (∀ fd : Int,
      (2 ≤ fd ∧ fd ≤ 7 ∧ InUse (k.fds p) fd.toNat → ∃ k', k.cClose fd = some (k', 0) ∧
        k'.fds p = Function.update (k.fds p) fd.toNat ⟨none, 0, minusOne, 0⟩) ∧
      (¬ (2 ≤ fd ∧ fd ≤ 7 ∧ InUse (k.fds p) fd.toNat) → k.cClose fd = some (k, -1))) ∧
    (∀ i, ¬ (2 ≤ i ∧ i ≤ 7) → k.fds p i = k₀.fds p i) ∧
    ∀ (i : Nat) (k₁ : Kernel), (∀ j, 2 ≤ j → j < i → InUse (k.fds p) j) →
      k.cClose i = some (k₁, 0) →
        ∀ fname d device beyond, fs.readDentryByName fname = some d →
          deviceOf d.fT = some device →
            ∃ k', k₁.cOpen fs (some fname) beyond = some (k', (i : Int)) := by
  have hstart := standard_of_fresh hn hfresh
  have hk := reached_of_run hp hstart h
  have hstd := hk.standard hstart
  refine ⟨fun fname beyond => ⟨fun hstop hno => ?_, fun d device hd hdev hfree => ?_⟩,
    fun fd => ⟨fun huse => ?_, fun huse => ?_⟩, hk.outside,
    fun i k₁ hbefore hclose fname d device beyond hd hdev => ?_⟩
  · exact cOpen_refuses hk.pcb hstd hstop hno
  · obtain ⟨i, hi⟩ := (allInUse_or_lowestFree (k.fds p)).resolve_left hfree
    obtain ⟨k', fd, hopen, hfd, htable, -⟩ := cOpen_succeeds hk.pcb hstd hi hd hdev beyond
    exact ⟨i, k', fd, hi, hopen, hfd, htable⟩
  · exact ⟨_, cClose_frees hk.pcb huse.1 huse.2.1 huse.2.2, k.fds_setSlot_setFd p fd.toNat _⟩
  · exact cClose_refuses hk.pcb huse
  · exact hk.reopens hstart hbefore hclose hd hdev beyond

/-- **The scan of `FD_Populate` stays in the table** exactly where a descriptor of 2 to 7 is free,
whatever is in memory after the table. -/
theorem looked_le_iff {k₀ : Kernel} {n : Nat} (hn : 0 < n) {pcb : Pcb}
    (hp : k₀.proc.pcb = some p) (hfresh : k₀.proc.slots p = cPcb n pcb) {cs : List TableCall}
    (h : Runs.run (tableStep fs) k₀ cs = some k) (beyond : List Nat) :
    (∃ m, (k.proc.slots p).looked beyond = some m ∧ m ≤ totalFds) ↔
      ∃ i, 2 ≤ i ∧ i ≤ 7 ∧ (k.fds p i).flags = 0 := by
  have hstart := standard_of_fresh hn hfresh
  have hstd := (reached_of_run hp hstart h).standard hstart
  refine ⟨fun ⟨m, hm, hle⟩ => ?_, fun ⟨i, h₂, h₇, hfree⟩ => ?_⟩
  · -- The scan stops at a zero, and that is none of the standard descriptors.
    obtain ⟨i, hi, rfl⟩ := Option.map_eq_some_iff.mp hm
    have hzero := flags_of_findIdx (show i < totalFds from hle) hi
    refine ⟨i, ?_, Nat.le_of_lt_succ hle, hzero⟩
    by_contra hlt
    exact hstd.inUse (Nat.not_le.mp hlt) hzero
  · obtain ⟨j, hj⟩ := (allInUse_or_lowestFree (k.fds p)).resolve_left
      fun hall => hall i h₂ h₇ hfree
    exact ⟨j + 1, by rw [Pcb.looked, findIdx_flagWords hstd hj, Option.map_some],
      Nat.succ_le_succ hj.1.2⟩

end Kernel

/-- Process 1 as `c_pcb` sets it up. -/
def freshReader : Kernel :=
  { reader with proc := { reader.proc with slots := fun p => cPcb 1 (reader.proc.slots p) } }

open Kernel in
/-- Two files opened, the first one closed: the next open takes its descriptor. -/
theorem openClose_table_reuse : ∃ k k₁ k',
    Runs.run (tableStep ((Image.sample [97]).fileSystem noTests)) freshReader
      [.openFile [97] [], .openFile [46] []] = some k ∧
    k.cClose 2 = some (k₁, 0) ∧
    k₁.cOpen ((Image.sample [97]).fileSystem noTests) (some [97]) [] = some (k', 2) := by
  have hrun : (Runs.run (tableStep ((Image.sample [97]).fileSystem noTests)) freshReader
      [.openFile [97] [], .openFile [46] []]).bind (fun k => (k.cClose 2).map Prod.snd) =
        some 0 := by
    decide +kernel
  obtain ⟨k, hk, hclose⟩ := Option.bind_eq_some_iff.mp hrun
  obtain ⟨⟨k₁, v⟩, hclose, rfl⟩ := Option.map_eq_some_iff.mp hclose
  have hname : (((Image.sample [97]).fileSystem noTests).readDentryByName [97]).map Dentry.fT =
      some 2 := by
    decide +kernel
  obtain ⟨d, hd, hty⟩ := Option.map_eq_some_iff.mp hname
  obtain ⟨-, -, -, hreuse⟩ := openClose_table Nat.one_pos rfl rfl hk
  obtain ⟨k', hopen⟩ := hreuse 2 k₁ (fun j h₂ hj => by omega) hclose [97] d .file [] hd
    (by rw [hty]; rfl)
  exact ⟨k, k₁, k', hk, hclose, hopen⟩

open Kernel in
/-- One file open: the scan ends at descriptor 3. -/
theorem looked_one_open : ∃ k,
    Runs.run (tableStep ((Image.sample [97]).fileSystem noTests)) freshReader
      [.openFile [97] []] = some k ∧
    ∃ m, (k.proc.slots 1).looked [] = some m ∧ m ≤ totalFds := by
  have hrun : (Runs.run (tableStep ((Image.sample [97]).fileSystem noTests)) freshReader
      [.openFile [97] []]).map (fun k => (k.fds 1 3).flags) = some 0 := by
    decide +kernel
  obtain ⟨k, hk, hfree⟩ := Option.map_eq_some_iff.mp hrun
  exact ⟨k, hk, (looked_le_iff Nat.one_pos rfl rfl hk []).mpr ⟨3, by omega, by omega, hfree⟩⟩

open Kernel in
/-- Six files open: the scan looks at a ninth entry. -/
theorem looked_six_opens : ∃ k,
    Runs.run (tableStep ((Image.sample [97]).fileSystem noTests)) freshReader
      (List.replicate 6 (.openFile [97] [])) = some k ∧
    ¬ ∃ m, (k.proc.slots 1).looked [] = some m ∧ m ≤ totalFds := by
  have hrun : (Runs.run (tableStep ((Image.sample [97]).fileSystem noTests)) freshReader
      (List.replicate 6 (.openFile [97] []))).map (fun k => (k.proc.slots 1).looked []) =
        some (some 9) := by
    decide +kernel
  obtain ⟨k, hk, hlooked⟩ := Option.map_eq_some_iff.mp hrun
  refine ⟨k, hk, ?_⟩
  rintro ⟨m, hm, hle⟩
  obtain rfl := Option.some.inj (hlooked.symm.trans hm)
  exact absurd hle (by decide)

end HarambeOs
