import HarambeOs.Forest
import HarambeOs.Image

/-!
# Tables — descriptor tables and the jumps through them

A process's eight descriptors each name a jump table.  `stdinTable` and `stdoutTable` have null
entries and a closed descriptor has no table at all, so that the jumps of `c_read`, `c_write`,
`c_open` and of the closing loop of `c_halt` are safe only by what their guards leave and by what
the table can hold.  `TableOk` says the latter, against a record of the types of the files opened
(`Types`); every event keeps it for every process that was ever set up (`Tables.step`), and
**`Kernel.tables_wellFormed`** draws the conclusion for the jumps.
-/

namespace HarambeOs

/-! ## Jump tables -/

/-- The entries of `struct device`. -/
inductive Operation
  | cOpen
  | cRead
  | cWrite
  | cClose
  deriving DecidableEq

/-- The functions in the jump tables. -/
inductive Handler
  | fileOpen
  | fileRead
  | fileWrite
  | fileClose
  | directOpen
  | directRead
  | directWrite
  | directClose
  | rtcOpen
  | rtcRead
  | rtcWrite
  | rtcClose
  | terminalRead
  | terminalWrite
  deriving DecidableEq

/-- `file_dev`, `directory_dev`, `rtc_dev`, `stdinTable` and `stdoutTable`; `none` is `NULL`. -/
def Device.table : Device → Operation → Option Handler
  | .file, .cOpen => some .fileOpen
  | .file, .cRead => some .fileRead
  | .file, .cWrite => some .fileWrite
  | .file, .cClose => some .fileClose
  | .directory, .cOpen => some .directOpen
  | .directory, .cRead => some .directRead
  | .directory, .cWrite => some .directWrite
  | .directory, .cClose => some .directClose
  | .rtc, .cOpen => some .rtcOpen
  | .rtc, .cRead => some .rtcRead
  | .rtc, .cWrite => some .rtcWrite
  | .rtc, .cClose => some .rtcClose
  | .stdin, .cRead => some .terminalRead
  | .stdin, _ => none
  | .stdout, .cWrite => some .terminalWrite
  | .stdout, _ => none

/-- The jump table for a type of file. -/
def deviceOf : Nat → Option Device
  | 0 => some .rtc
  | 1 => some .directory
  | 2 => some .file
  | _ => none

/-- An indirect call: the index of the descriptor, the pointer to its jump table, and the entry. -/
structure Dispatch where
  index : Int
  operations : Option Device
  operation : Operation

/-- The descriptor is in the table, the pointer is not null, and neither is the entry. -/
def Dispatch.Safe (d : Dispatch) : Prop :=
  0 ≤ d.index ∧ d.index ≤ maxFdVal ∧
    ∃ device, d.operations = some device ∧ (device.table d.operation).isSome

/-- The descriptor a call indexes the table with, once its range check has passed. -/
def Call.indexed : Call → Option Int
  | .read fd buf _ _ => if fd > maxFdVal ∨ fd < 0 ∨ buf.isNone then none else some fd
  | .write fd buf _ => if fd > maxFdVal ∨ fd ≤ 0 ∨ buf.isNone then none else some fd
  | .close fd => if fd < minCount ∨ fd > maxFdVal then none else some fd
  | _ => none

theorem Call.indexed_bounds {c : Call} {i : Int} (h : c.indexed = some i) :
    0 ≤ i ∧ i ≤ maxFdVal := by
  unfold Call.indexed at h
  split at h
  · split at h
    · cases h
    · obtain rfl := Option.some.inj h
      omega
  · split at h
    · cases h
    · obtain rfl := Option.some.inj h
      omega
  · split at h
    · cases h
    · obtain rfl := Option.some.inj h
      rw [minCount] at *
      omega
  · cases h

/-- The indirect call a system call makes on the table `fds`, if any.  `c_open` makes its call on
the table `FD_Populate` leaves. -/
def Kernel.dispatch (fs : FileSystem) (k : Kernel) (c : Call) : Option Dispatch :=
  k.proc.pcb.bind fun p =>
    match c with
    | .read .. => c.indexed.bind fun fd =>
        let entry := (k.proc.slots p).fdArray fd.toNat
        if entry.flags = 0 ∨ fd = 1 then none else some ⟨fd, entry.operations, .cRead⟩
    | .write .. => c.indexed.bind fun fd =>
        let entry := (k.proc.slots p).fdArray fd.toNat
        if entry.flags = 0 then none else some ⟨fd, entry.operations, .cWrite⟩
    | .openFile filename beyond => filename.bind fun fname =>
        (k.fdPopulate fs fname beyond).bind fun r =>
          if r.2 = -1 then none
          else some ⟨r.2, ((r.1.proc.slots p).fdArray r.2.toNat).operations, .cOpen⟩
    | _ => none

/-- The indirect calls of the closing loop of `c_halt`. -/
def Pcb.closeLoop (pcb : Pcb) : List Dispatch :=
  ((List.range totalFds).filter fun i => minCount ≤ i ∧ (pcb.fdArray i).flags = 1).map
    fun (i : Nat) => ⟨i, (pcb.fdArray i).operations, .cClose⟩

/-! ## What a table can hold -/

/-- An entry for a file of type `ty`, or a free one. -/
def EntryOk : Option Nat → Fd → Prop
  | none, fd => fd = ⟨none, 0, minusOne, 0⟩
  | some ty, fd => fd.flags = 1 ∧ fd.operations = deviceOf ty ∧ ty ≤ 2

/-- The standard descriptors, and the files of the types opened. -/
structure TableOk (types : Nat → Option Nat) (fds : Nat → Fd) : Prop where
  stdin : (fds 0).operations = some .stdin ∧ (fds 0).flags = 1
  stdout : (fds 1).operations = some .stdout ∧ (fds 1).flags = 1
  entries : ∀ i, minCount ≤ i → i < totalFds → EntryOk (types i) (fds i)

namespace TableOk

variable {types : Nat → Option Nat} {fds : Nat → Fd} {i : Nat}

/-- The jump table of an open file has no null entry. -/
theorem device (h : TableOk types fds) (hi : minCount ≤ i) (hi' : i < totalFds)
    (hf : (fds i).flags ≠ 0) :
    ∃ device, (fds i).operations = some device ∧ ∀ op, (device.table op).isSome := by
  have hentry := h.entries i hi hi'
  cases hty : types i with
  | none =>
    rw [hty] at hentry
    exact absurd (congrArg Fd.flags hentry) hf
  | some ty =>
    rw [hty] at hentry
    obtain ⟨-, hop, hle⟩ := hentry
    rw [hop]
    match ty, hle with
    | 0, _ => exact ⟨_, rfl, by rintro ⟨⟩ <;> rfl⟩
    | 1, _ => exact ⟨_, rfl, by rintro ⟨⟩ <;> rfl⟩
    | 2, _ => exact ⟨_, rfl, by rintro ⟨⟩ <;> rfl⟩

/-- A free entry is none of the standard ones. -/
theorem minCount_le (h : TableOk types fds) (hf : (fds i).flags = 0) : minCount ≤ i := by
  rw [minCount]
  by_contra hlt
  have h01 : i = 0 ∨ i = 1 := by omega
  rcases h01 with rfl | rfl
  · rw [h.stdin.2] at hf
    cases hf
  · rw [h.stdout.2] at hf
    cases hf

/-- An entry other than the standard ones replaced. -/
theorem update (h : TableOk types fds) (hi : minCount ≤ i) {ty : Option Nat} {fd : Fd}
    (hfd : EntryOk ty fd) : TableOk (Function.update types i ty) (Function.update fds i fd) := by
  rw [minCount] at hi
  refine ⟨?_, ?_, fun j hj hj' => ?_⟩
  · rw [Function.update_of_ne (by omega)]
    exact h.stdin
  · rw [Function.update_of_ne (by omega)]
    exact h.stdout
  · rcases eq_or_ne j i with rfl | hne
    · rwa [Function.update_self, Function.update_self]
    · rw [Function.update_of_ne hne, Function.update_of_ne hne]
      exact h.entries j hj hj'

/-- The position of an entry that is not free moved. -/
theorem setPosition (h : TableOk types fds) (hne : fds i ≠ ⟨none, 0, minusOne, 0⟩) (x : Nat) :
    TableOk types (Function.update fds i { fds i with position := x }) := by
  have hsame (j : Nat) :
      (Function.update fds i { fds i with position := x } j).operations = (fds j).operations ∧
      (Function.update fds i { fds i with position := x } j).flags = (fds j).flags := by
    rcases eq_or_ne j i with rfl | hji
    · rw [Function.update_self]
      exact ⟨rfl, rfl⟩
    · rw [Function.update_of_ne hji]
      exact ⟨rfl, rfl⟩
  refine ⟨?_, ?_, fun j hj hj' => ?_⟩
  · rw [(hsame 0).1, (hsame 0).2]
    exact h.stdin
  · rw [(hsame 1).1, (hsame 1).2]
    exact h.stdout
  · have hentry := h.entries j hj hj'
    cases hty : types j with
    | none =>
      rw [hty] at hentry
      have hji : j ≠ i := by
        rintro rfl
        exact hne hentry
      rwa [Function.update_of_ne hji]
    | some ty =>
      rw [hty] at hentry
      rw [EntryOk, (hsame j).1, (hsame j).2]
      exact hentry

/-- `c_pcb` leaves a table with nothing open but the standard descriptors. -/
theorem cPcb {p : Nat} (hp : 0 < p) (pcb : Pcb) :
    TableOk (fun _ => none) (HarambeOs.cPcb p pcb).fdArray := by
  rw [HarambeOs.cPcb, if_pos hp]
  exact ⟨⟨rfl, rfl⟩, ⟨rfl, rfl⟩, fun i hi hi' => if_pos ⟨hi, hi'⟩⟩

/-- **The closing loop is safe.** -/
theorem closeLoop {pcb : Pcb} (h : TableOk types pcb.fdArray) :
    ∀ d ∈ pcb.closeLoop, d.Safe := by
  intro d hd
  obtain ⟨i, hi, rfl⟩ := List.mem_map.mp hd
  obtain ⟨hi', hcond⟩ := List.mem_filter.mp hi
  obtain ⟨hmin, hflags⟩ := of_decide_eq_true hcond
  have hlt := List.mem_range.mp hi'
  obtain ⟨device, hop, htable⟩ := h.device hmin hlt (by rw [hflags]; decide)
  exact ⟨Int.natCast_nonneg i, Int.ofNat_le.mpr (Nat.le_of_lt_succ hlt), device, hop, htable _⟩

/-- A read through any open descriptor but 1. -/
theorem safe_read (h : TableOk types fds) {fd : Int} (h0 : 0 ≤ fd) (h7 : fd ≤ maxFdVal)
    (hne : fd ≠ 1) (hf : (fds fd.toNat).flags ≠ 0) :
    Dispatch.Safe ⟨fd, (fds fd.toNat).operations, .cRead⟩ := by
  refine ⟨h0, h7, ?_⟩
  rw [maxFdVal] at h7
  rcases eq_or_ne fd 0 with rfl | hz
  · exact ⟨.stdin, h.stdin.1, rfl⟩
  · obtain ⟨device, hop, htable⟩ := h.device (by rw [minCount]; omega) (by rw [totalFds]; omega) hf
    exact ⟨device, hop, htable _⟩

/-- The call of `c_open` on the entry it filled in. -/
theorem safe_open (h : TableOk types fds) (hi : minCount ≤ i) (hi' : i < totalFds) {ty : Nat}
    {fd : Fd} (hfd : EntryOk (some ty) fd) : Dispatch.Safe ⟨i, fd.operations, .cOpen⟩ := by
  obtain ⟨device, hop, htable⟩ := (h.update hi hfd).device hi hi' (by
    rw [Function.update_self, hfd.1]
    decide)
  rw [Function.update_self] at hop
  exact ⟨Int.natCast_nonneg i, Int.ofNat_le.mpr (Nat.le_of_lt_succ hi'), device, hop, htable _⟩

/-- A write through any open descriptor but 0. -/
theorem safe_write (h : TableOk types fds) {fd : Int} (h0 : 0 < fd) (h7 : fd ≤ maxFdVal)
    (hf : (fds fd.toNat).flags ≠ 0) :
    Dispatch.Safe ⟨fd, (fds fd.toNat).operations, .cWrite⟩ := by
  refine ⟨h0.le, h7, ?_⟩
  rw [maxFdVal] at h7
  rcases eq_or_ne fd 1 with rfl | hz
  · exact ⟨.stdout, h.stdout.1, rfl⟩
  · obtain ⟨device, hop, htable⟩ := h.device (by rw [minCount]; omega) (by rw [totalFds]; omega) hf
    exact ⟨device, hop, htable _⟩

end TableOk

/-! ## The types of the files opened -/

/-- For each PCB slot the types of the files open in it, `none` before `c_pcb` set it up. -/
abbrev Types := Nat → Option (Nat → Option Nat)

namespace Kernel

variable {fs : FileSystem} {k k' : Kernel} {g : Types}

/-- The entry a call opens or closes, and the type of the file opened. -/
def retyped (fs : FileSystem) (k : Kernel) : Call → Option (Nat × Option Nat)
  | .openFile (some fname) beyond => (k.cOpen fs (some fname) beyond).bind fun r =>
      if r.2 = -1 then none else some (r.2.toNat, (fs.readDentryByName fname).map Dentry.fT)
  | .close fd => (k.cClose fd).bind fun r => if r.2 = -1 then none else some (fd.toNat, none)
  | _ => none

/-- The record after a call, in the slot `PCB` points at. -/
def noteCall (fs : FileSystem) (k : Kernel) (c : Call) (g : Types) : Types :=
  match k.retyped fs c, k.proc.pcb with
  | some (i, ty), some p =>
    Function.update g p ((g p).map fun types => Function.update types i ty)
  | _, _ => g

/-- Whether an event runs `c_pcb`: a program was started, or the table of processes was full. -/
def runsPcb : Event → Outcome → Bool
  | _, .started _ => true
  | .execute .., .resumed _ => true
  | _, _ => false

/-- The record after `c_pcb` of the slot `PCB` points at. -/
def setUp (k : Kernel) (g : Types) : Types :=
  k.proc.pcb.elim g fun p => Function.update g p (some fun _ => none)

/-- The record after an event. -/
def noteTypes (fs : FileSystem) (k : Kernel) (e : Event) (k' : Kernel) (g : Types) : Types :=
  match e with
  | .call c => k.noteCall fs c g
  | _ => if (k.transition fs e).any fun r => runsPcb e r.2 then k'.setUp g else g

/-- Every slot set up is as the record says, and `PCB` and the process numbers in use lead to slots
that are set up. -/
structure Tables (k : Kernel) (g : Types) : Prop where
  ok : ∀ p types, g p = some types → TableOk types (k.proc.slots p).fdArray
  pcb : ∀ p, k.proc.pcb = some p → (g p).isSome
  live : ∀ i, k.proc.pidArr i = true → (g (i + 1)).isSome

namespace Tables

/-- Only descriptors, `PCB` and process numbers count; numbers may be given back. -/
theorem congr (h : Tables k g) (hslots : ∀ p, (k'.proc.slots p).fdArray = (k.proc.slots p).fdArray)
    (hpcb : k'.proc.pcb = k.proc.pcb)
    (hpid : ∀ i, k'.proc.pidArr i = true → k.proc.pidArr i = true) : Tables k' g := by
  refine ⟨fun p types hp => ?_, fun p hp => h.pcb p (hpcb ▸ hp), fun i hi => h.live i (hpid i hi)⟩
  rw [hslots]
  exact h.ok p types hp

theorem of_proc (h : Tables k g) (hproc : k'.proc = k.proc) : Tables k' g :=
  h.congr (fun _ => by rw [hproc]) (by rw [hproc]) fun _ hi => hproc ▸ hi

/-- The descriptors of one slot changed under the same record. -/
theorem setSlot (h : Tables k g) {p : Nat} {pcb : Pcb}
    (hok : ∀ types, g p = some types → TableOk types pcb.fdArray) :
    Tables (k.setSlot p pcb) g := by
  refine ⟨fun q types hq => ?_, h.pcb, h.live⟩
  rcases eq_or_ne q p with rfl | hne
  · simp only [Kernel.setSlot, Function.update_self]
    exact hok types hq
  · simp only [Kernel.setSlot, Function.update_of_ne hne]
    exact h.ok q types hq

/-- An entry of one slot and its record changed. -/
theorem retype (h : Tables k g) {p i : Nat} {ty : Option Nat} {fd : Fd} (hi : minCount ≤ i)
    (hfd : EntryOk ty fd) :
    Tables (k.setSlot p ((k.proc.slots p).setFd i fd))
      (Function.update g p ((g p).map fun types => Function.update types i ty)) := by
  have hsome (q : Nat) (hq : (g q).isSome) :
      (Function.update g p ((g p).map fun types => Function.update types i ty) q).isSome := by
    rcases eq_or_ne q p with rfl | hne
    · rwa [Function.update_self, Option.isSome_map]
    · rwa [Function.update_of_ne hne]
  refine ⟨fun q types hq => ?_, fun q hq => hsome q (h.pcb q hq), fun j hj => hsome _ (h.live j hj)⟩
  rcases eq_or_ne q p with rfl | hne
  · rw [Function.update_self] at hq
    obtain ⟨types₀, ht, rfl⟩ := Option.map_eq_some_iff.mp hq
    simp only [Kernel.setSlot, Function.update_self]
    exact (h.ok q types₀ ht).update hi hfd
  · rw [Function.update_of_ne hne] at hq
    simp only [Kernel.setSlot, Function.update_of_ne hne]
    exact h.ok q types hq

end Tables

/-! ## Calls -/

/-- What is asked of the file system: it knows three types, and no entry has the number `-1`. -/
structure Typed (fs : FileSystem) : Prop where
  types : ∀ name d, fs.readDentryByName name = some d → d.fT ≤ 2
  index : fs.readDentryByIndex minusOne = none

theorem Tables.fileRead (h : Tables k g) {p fd : Nat} {buf : Buf} {nbytes : Int}
    (hop : ((k.proc.slots p).fdArray fd).operations = some .file) :
    Tables (k.fileRead fs p fd buf nbytes).1 g := by
  unfold Kernel.fileRead
  simp only
  split
  · exact h
  · refine h.setSlot fun types hp => (h.ok p types hp).setPosition (fun hfree => ?_) _
    rw [hfree] at hop
    cases hop

/-- A directory is read at the position of the running process's entry, which need not be open. -/
theorem Tables.directRead (hfs : Typed fs) (h : Tables k g) {fd : Nat} {buf : Buf} {nbytes : Int}
    {r : Int × Buf} (hr : k.directRead fs fd buf nbytes = some (k', r)) : Tables k' g := by
  unfold Kernel.directRead at hr
  simp only at hr
  split at hr
  · obtain ⟨rfl, -⟩ := Prod.mk.inj (Option.some.inj hr)
    exact h
  · next name hname =>
    split_ifs at hr
    · obtain ⟨rfl, -⟩ := Prod.mk.inj (Option.some.inj hr)
      exact h
    · obtain ⟨rfl, -⟩ := Prod.mk.inj (Option.some.inj hr)
      refine h.setSlot fun types hp => (h.ok _ types hp).setPosition (fun hfree => ?_) _
      rw [hfree, hfs.index] at hname
      cases hname

theorem Tables.cRead (hfs : Typed fs) (h : Tables k g) {fd nbytes : Int} {buf : Option Buf}
    {beyond : Buf} {r : Int × Option Buf} (hr : k.cRead fs fd buf nbytes beyond = some (k', r)) :
    Tables k' g := by
  cases cRead_reads hr with
  | refuse => exact h
  | terminal _ _ hread =>
    obtain ⟨-, rfl, -⟩ := terminalRead_eq_some hread
    exact ⟨h.ok, h.pcb, h.live⟩
  | file _ _ _ hop => exact h.fileRead hop
  | directory _ _ hread => exact h.directRead hfs hread
  | clock => exact h

/-- A file of a known type is opened on the table of its type. -/
theorem entryOk_entryFor {d : Dentry} (hd : d.fT ≤ 2) :
    EntryOk (some d.fT) (Pcb.entryFor d) := by
  have htype : d.fT = 0 ∨ d.fT = 1 ∨ d.fT = 2 := by omega
  rcases htype with h | h | h
  · exact ⟨by rw [Pcb.entryFor, h]; rfl, by rw [Pcb.entryFor, h]; rfl, hd⟩
  · exact ⟨by rw [Pcb.entryFor, h]; rfl, by rw [Pcb.entryFor, h]; rfl, hd⟩
  · exact ⟨by rw [Pcb.entryFor, h]; rfl, by rw [Pcb.entryFor, h]; rfl, hd⟩

/-- `c_open` is `FD_Populate`, as far as the process table goes. -/
theorem cOpen_populates {fname : List UInt8} {beyond : List Nat} {i : Int}
    (h : k.cOpen fs (some fname) beyond = some (k', i)) :
    ∃ k₁, k.fdPopulate fs fname beyond = some (k₁, i) ∧ k'.proc = k₁.proc := by
  unfold Kernel.cOpen at h
  simp only at h
  split at h
  · cases h
  next k₁ j hpop =>
  refine ⟨k₁, ?_⟩
  split at h
  · next hj =>
    obtain ⟨rfl, rfl⟩ := Prod.mk.inj (Option.some.inj h)
    exact ⟨hj ▸ hpop, rfl⟩
  · split at h
    · obtain ⟨rfl, rfl⟩ := Prod.mk.inj (Option.some.inj h)
      exact ⟨hpop, rfl⟩
    · obtain ⟨rfl, rfl⟩ := Prod.mk.inj (Option.some.inj h)
      exact ⟨hpop, rfl⟩
    · obtain ⟨rfl, rfl⟩ := Prod.mk.inj (Option.some.inj h)
      exact ⟨hpop, rfl⟩
    · cases h

theorem Tables.cOpen (hfs : Typed fs) (h : Tables k g) {filename : Option (List UInt8)}
    {beyond : List Nat} {i : Int} (hr : k.cOpen fs filename beyond = some (k', i)) :
    Tables k' (k.noteCall fs (.openFile filename beyond) g) := by
  cases filename with
  | none =>
    obtain ⟨rfl, -⟩ := Prod.mk.inj (Option.some.inj hr)
    exact h
  | some fname =>
    have hnote : k.retyped fs (.openFile (some fname) beyond) =
        if i = -1 then none else some (i.toNat, (fs.readDentryByName fname).map Dentry.fT) := by
      rw [retyped, hr]
      rfl
    obtain ⟨k₁, hpop, hproc⟩ := cOpen_populates hr
    rcases fdPopulate_cases hpop with ⟨rfl, rfl⟩ | ⟨p, m, d, hp, hlt, hflags, hd, rfl, rfl⟩
    · rw [noteCall, hnote]
      exact h.of_proc hproc
    · obtain ⟨types, htypes⟩ := Option.isSome_iff_exists.mp (h.pcb p hp)
      have htype := hfs.types fname d hd
      rw [noteCall, hnote, if_neg (by omega), hp, hd]
      rw [Pcb.populate_eq_ite, if_pos htype] at hproc
      exact (h.retype ((h.ok p types htypes).minCount_le hflags)
        (entryOk_entryFor htype)).of_proc hproc

theorem Tables.cClose (h : Tables k g) {fd i : Int} (hr : k.cClose fd = some (k', i)) :
    Tables k' (k.noteCall fs (.close fd) g) := by
  have hnote : k.retyped fs (.close fd) = if i = -1 then none else some (fd.toNat, none) := by
    rw [retyped, hr]
    rfl
  unfold Kernel.cClose at hr
  split at hr
  · obtain ⟨rfl, rfl⟩ := Prod.mk.inj (Option.some.inj hr)
    rw [noteCall, hnote]
    exact h
  next hfd =>
  split at hr
  · cases hr
  next p hp =>
  split at hr
  · obtain ⟨rfl, rfl⟩ := Prod.mk.inj (Option.some.inj hr)
    rw [noteCall, hnote]
    exact h
  · obtain ⟨rfl, rfl⟩ := Prod.mk.inj (Option.some.inj hr)
    rw [noteCall, hnote, hp]
    exact h.retype (by omega) rfl

/-- **A call.** -/
theorem Tables.call (hfs : Typed fs) (h : Tables k g) {c : Call} {r : Int × Option Buf}
    (hr : k.call fs c = some (k', r)) : Tables k' (k.noteCall fs c g) := by
  cases c with
  | read fd buf nbytes beyond => exact h.cRead hfs hr
  | write fd buf nbytes =>
    refine h.of_proc ?_
    rcases cWrite_eq_some hr with rfl | ⟨_, _, _, rfl⟩ | ⟨_, rfl⟩ <;> rfl
  | openFile filename beyond =>
    obtain ⟨r', hr', hr⟩ := Option.map_eq_some_iff.mp hr
    obtain ⟨rfl, -⟩ := Prod.mk.inj hr
    exact h.cOpen hfs hr'
  | close fd =>
    obtain ⟨r', hr', hr⟩ := Option.map_eq_some_iff.mp hr
    obtain ⟨rfl, -⟩ := Prod.mk.inj hr
    exact h.cClose hr'
  | getargs buf nbytes =>
    have hk : (k.cGetargs buf nbytes).1 = k' := congrArg Prod.fst (Option.some.inj hr)
    rw [← hk]
    unfold cGetargs
    split
    · exact h
    split
    · exact h
    · exact ⟨h.ok, h.pcb, h.live⟩
  | vidmap screenStart =>
    obtain ⟨rfl, -⟩ := Prod.mk.inj (Option.some.inj hr)
    unfold cVidmap
    split
    · exact h
    · exact ⟨h.ok, h.pcb, h.live⟩

/-! ## Every event -/

/-- A slot set up. -/
theorem Tables.buildPcb
    (hok : ∀ p types, g p = some types → TableOk types (k.proc.slots p).fdArray)
    (hpos : 0 < k.proc.processCounter)
    (hlive : ∀ i, k.proc.pidArr i = true → i + 1 = k.proc.processCounter ∨ (g (i + 1)).isSome) :
    Tables k.buildPcb (k.buildPcb.setUp g) := by
  have hset : k.buildPcb.setUp g =
      Function.update g k.proc.processCounter (some fun _ => none) := rfl
  rw [hset]
  refine ⟨fun q types hq => ?_, fun q hq => ?_, fun i hi => ?_⟩
  · rcases eq_or_ne q k.proc.processCounter with rfl | hne
    · rw [Function.update_self] at hq
      obtain rfl := Option.some.inj hq
      simp only [Kernel.buildPcb, Function.update_self]
      exact .cPcb hpos _
    · rw [Function.update_of_ne hne] at hq
      simp only [Kernel.buildPcb, Function.update_of_ne hne]
      exact hok q types hq
  · obtain rfl := Option.some.inj hq
    rw [Function.update_self]
    rfl
  · rcases eq_or_ne (i + 1) k.proc.processCounter with heq | hne
    · rw [heq, Function.update_self]
      rfl
    · rw [Function.update_of_ne hne]
      exact (hlive i hi).resolve_left hne

/-- Before a number is chosen the descriptors are left alone. -/
theorem Tables.prepare (h : Tables k g) (args : Option (List UInt8)) :
    Tables (k.prepare args) g := by
  rw [prepare_eq]
  exact ⟨h.ok, h.pcb, h.live⟩

/-- A number chosen is above 0, and is the only one newly in use. -/
theorem chooseSlot_spec (p : Proc) : p.chooseSlot.1.slots = p.slots ∧
    0 < p.chooseSlot.1.processCounter ∧ ∀ j, p.chooseSlot.1.pidArr j = true →
      j + 1 = p.chooseSlot.1.processCounter ∨ p.pidArr j = true := by
  cases hi : p.freeIndex with
  | none =>
    rw [chooseSlot_of_full hi]
    exact ⟨rfl, show 0 < maxProcessSet by decide, fun _ hj => Or.inr hj⟩
  | some i =>
    rw [chooseSlot_of_free hi]
    refine ⟨rfl, Nat.succ_pos i, fun j hj => ?_⟩
    rcases eq_or_ne j i with rfl | hne
    · exact Or.inl rfl
    · exact Or.inr ((Function.update_of_ne hne _ _).symm.trans hj)

/-- A number chosen, a program loaded and its slot set up. -/
theorem Tables.load (h : Tables k g) (phys : Nat → UInt8) :
    Tables (k.loaded phys).buildPcb ((k.loaded phys).buildPcb.setUp g) := by
  obtain ⟨hslots, hpos, hpid⟩ := chooseSlot_spec k.proc
  refine .buildPcb (fun p types hp => ?_) hpos fun j hj => (hpid j hj).imp_right (h.live j)
  rw [show (k.loaded phys).proc.slots = k.proc.slots from hslots]
  exact h.ok p types hp

/-- The last part of `c_execute` leaves the descriptors alone. -/
theorem Tables.commit (h : Tables k g) {p : Nat} (hp : k.proc.processCounter = p)
    (hpcb : k.proc.pcb = some p) : Tables k.commit g := by
  rw [commit_eq hp hpcb]
  refine h.congr (fun q => ?_) rfl fun _ hi => hi
  rcases eq_or_ne q p with rfl | hne
  · simp only [Function.update_self]
  · simp only [Function.update_of_ne hne]

theorem setUp_commit {p : Nat} (k : Kernel) (hp : k.proc.processCounter = p)
    (hpcb : k.proc.pcb = some p) (g : Types) : k.commit.setUp g = k.setUp g := by
  rw [commit_eq hp hpcb]
  rfl

/-- **`c_execute`** sets up a slot unless it fails. -/
theorem Executed.tables {command : Option (List UInt8)} {junk : List UInt8} {o : Outcome}
    (hx : Executed fs command junk k o k') (h : Tables k g) :
    (∃ v, o = .returned v ∧ Tables k' g) ∨
      ((∀ v, o ≠ .returned v) ∧ Tables k' (k'.setUp g)) := by
  have hbuilt (phys : Nat → UInt8) := (h.prepare (argsOf command)).load phys
  cases hx with
  | fail => exact Or.inl ⟨-1, rfl, h.prepare (argsOf command)⟩
  | start _ _ eip phys =>
    refine Or.inr ⟨by rintro _ ⟨⟩, ?_⟩
    rw [setUp_commit _ rfl rfl]
    exact (hbuilt phys).commit rfl rfl
  | overflow _ _ phys =>
    refine Or.inr ⟨by rintro _ ⟨⟩, ?_⟩
    exact (hbuilt phys).congr (fun _ => rfl) rfl fun _ hj => hj

theorem noteTypes_of_transition {e : Event} {o : Outcome} (he : ∀ c, e ≠ .call c)
    (h : k.transition fs e = some (k', o)) :
    k.noteTypes fs e k' g = if runsPcb e o then k'.setUp g else g := by
  unfold noteTypes
  split
  · exact absurd rfl (he _)
  · rw [h, Option.any_some]

/-- The first part of `c_halt` leaves the descriptors alone and gives a number back. -/
theorem Tables.haltRelease (h : Tables k g) : Tables k.haltRelease.1 g := by
  unfold Kernel.haltRelease
  split
  · exact ⟨h.ok, h.pcb, h.live⟩
  · refine h.congr (fun _ => rfl) rfl fun i hi => ?_
    simp only [setActiveEntry] at hi
    rcases eq_or_ne i ((k.proc.slots k.running).pid - 1) with rfl | hne
    · rw [Function.update_self] at hi
      cases hi
    · rwa [Function.update_of_ne hne] at hi

/-- After `c_halt` gave a number back, the shell it starts finds one. -/
theorem not_overflow_of_release (hs : k.sched.Sound) (hr : k.running ≠ 0) {junk : List UInt8}
    {fr : Frame} {o : Outcome}
    (hx : Executed fs (some shell) junk { k.haltRelease.1 with cpu := fr } o k') :
    ∀ status, o ≠ .resumed status := by
  rintro status rfl
  obtain ⟨c, hforest⟩ := hs.forest
  have hfree := hforest.freeIndex_release hr
  rw [← (haltRelease_of_quiet hs.quiet.flagger).1] at hfree
  cases hx with
  | overflow _ hi => exact hfree hi

/-- What an event other than a call leaves. -/
theorem Tables.moves (hs : k.sched.Sound) (h : Tables k g) {e : Event} {o : Outcome}
    (hm : Moves fs k e o k') (he : ∀ c, e ≠ .call c) :
    Tables k' (if runsPcb e o then k'.setUp g else g) := by
  have hr := h.haltRelease
  cases hm with
  | execute hx =>
    rcases hx.tables (g := g) ⟨h.ok, h.pcb, h.live⟩ with ⟨v, rfl, hk'⟩ | ⟨hne, hk'⟩
    · exact hk'
    · cases o with
      | returned v => exact absurd rfl (hne v)
      | started eip => exact hk'
      | resumed status => exact hk'
  | exit => exact hr.congr (fun _ => rfl) rfl fun _ hi => hi
  | respawn _ _ hx =>
    rcases hx.tables (g := g) ⟨hr.ok, hr.pcb, hr.live⟩ with ⟨v, hv, -⟩ | ⟨-, hk'⟩
    · cases hv
    · exact hk'
  | @vacate _ _ _ o _ hr0 _ hx ho =>
    rcases hx.tables (g := g) ⟨hr.ok, hr.pcb, hr.live⟩ with ⟨v, rfl, hk'⟩ | ⟨hne, -⟩
    · exact hk'.congr (fun _ => rfl) rfl fun _ hi => hi
    · cases o with
      | returned v => exact absurd rfl (hne v)
      | started eip => exact absurd rfl (ho eip)
      | resumed status => exact absurd rfl (not_overflow_of_release hs hr0 hx status)
  | rest => exact h
  | tick => exact ⟨h.ok, h.pcb, h.live⟩
  | key hq => exact h.of_proc hq.proc
  | switch t => exact ⟨h.ok, h.pcb, h.live⟩
  | launch _ _ hf hx =>
    rcases hx.tables (g := g) ⟨h.ok, h.pcb, h.live⟩ with ⟨v, rfl, hk'⟩ | ⟨hne, hk'⟩
    · exact hk'
    · cases hx with
      | fail => exact absurd rfl (hne _)
      | start => exact hk'
      | overflow _ hi => exact absurd hi hf
  | turn hq => exact h.of_proc hq.proc
  | call => exact absurd rfl (he _)

/-- **One event.** -/
theorem Tables.step (hfs : Typed fs) (hs : k.sched.Sound) (h : Tables k g) {e : Event}
    {o : Outcome} (ht : k.transition fs e = some (k', o)) : Tables k' (k.noteTypes fs e k' g) := by
  cases e with
  | call c =>
    obtain ⟨r, hr, ht⟩ := Option.map_eq_some_iff.mp ht
    obtain ⟨rfl, -⟩ := Prod.mk.inj ht
    exact h.call hfs hr
  | _ =>
    rw [noteTypes_of_transition (by rintro _ ⟨⟩) ht]
    exact h.moves hs (transition_moves ht) (by rintro _ ⟨⟩)

/-! ## The jumps -/

/-- A read that makes no jump is turned down. -/
theorem cRead_of_dispatch {p : Nat} {fd nbytes : Int} {buf : Option Buf} {beyond : Buf}
    (hp : k.proc.pcb = some p) (h : k.dispatch fs (.read fd buf nbytes beyond) = none) :
    k.cRead fs fd buf nbytes beyond = some (k, -1, buf) := by
  cases buf with
  | none => rfl
  | some buf =>
    by_cases hfd : fd > maxFdVal ∨ fd < 0
    · exact if_pos hfd
    · have hidx : (Call.read fd (some buf) nbytes beyond).indexed = some fd :=
        if_neg fun hbad => hfd (hbad.imp_right fun hb => hb.resolve_right nofun)
      simp only [dispatch, hp, hidx, Option.bind_some, ite_eq_left_iff, reduceCtorEq, imp_false,
        not_not] at h
      simp only [cRead, if_neg hfd, hp, if_pos h]

/-- So is a write. -/
theorem cWrite_of_dispatch {p : Nat} {fd nbytes : Int} {buf : Option Buf}
    (hp : k.proc.pcb = some p) (h : k.dispatch fs (.write fd buf nbytes) = none) :
    k.cWrite fd buf nbytes = some (k, -1, buf) := by
  cases buf with
  | none => rfl
  | some buf =>
    by_cases hfd : fd > maxFdVal ∨ fd ≤ 0
    · exact if_pos hfd
    · have hidx : (Call.write fd (some buf) nbytes).indexed = some fd :=
        if_neg fun hbad => hfd (hbad.imp_right fun hb => hb.resolve_right nofun)
      simp only [dispatch, hp, hidx, Option.bind_some, ite_eq_left_iff, reduceCtorEq, imp_false,
        not_not] at h
      simp only [cWrite, if_neg hfd, hp, if_pos h]

/-- The jump of an open goes through the entry that `FD_Populate` has just filled. -/
theorem safe_populated (hfs : Typed fs) {p : Nat} {types : Nat → Option Nat}
    (hok : TableOk types (k.proc.slots p).fdArray) (hp : k.proc.pcb = some p)
    {fname : List UInt8} {beyond : List Nat} {i : Int}
    (hpop : k.fdPopulate fs fname beyond = some (k', i)) (hne : i ≠ -1) :
    Dispatch.Safe ⟨i, ((k'.proc.slots p).fdArray i.toNat).operations, .cOpen⟩ := by
  rcases fdPopulate_cases hpop with ⟨-, rfl⟩ | ⟨q, m, d, hq, hlt, hflags, hname, rfl, rfl⟩
  · exact absurd rfl hne
  · obtain rfl := Option.some.inj (hp.symm.trans hq)
    have hmin := hok.minCount_le hflags
    have htype := hfs.types fname d hname
    have hentry : ((k.setSlot p ((k.proc.slots p).populate m d)).proc.slots p).fdArray m =
        Pcb.entryFor d := by
      simp only [Kernel.setSlot, Function.update_self, Pcb.populate_eq_ite, if_pos htype, Pcb.setFd]
    rw [Int.toNat_natCast, hentry]
    exact hok.safe_open hmin hlt (entryOk_entryFor htype)

/-- **The calls are safe.** -/
theorem Tables.dispatch (hfs : Typed fs) (h : Tables k g) {c : Call} {d : Dispatch}
    (hd : k.dispatch fs c = some d) : d.Safe := by
  obtain ⟨p, hp, hd⟩ := Option.bind_eq_some_iff.mp hd
  obtain ⟨types, htypes⟩ := Option.isSome_iff_exists.mp (h.pcb p hp)
  have hok := h.ok p types htypes
  cases c with
  | read fd buf nbytes beyond =>
    obtain ⟨i, hi, hd⟩ := Option.bind_eq_some_iff.mp hd
    obtain ⟨h0, h7⟩ := Call.indexed_bounds hi
    simp only at hd
    split at hd
    · cases hd
    · next hcond =>
      obtain ⟨hflags, hne⟩ := not_or.mp hcond
      obtain rfl := Option.some.inj hd
      exact hok.safe_read h0 h7 hne hflags
  | write fd buf nbytes =>
    obtain ⟨i, hi, hd⟩ := Option.bind_eq_some_iff.mp hd
    simp only at hd
    split at hd
    · cases hd
    · next hflags =>
      obtain rfl := Option.some.inj hd
      rw [Call.indexed] at hi
      split at hi
      · cases hi
      · next hcond =>
        obtain rfl := Option.some.inj hi
        exact hok.safe_write (by omega) (by omega) hflags
  | openFile filename beyond =>
    obtain ⟨fname, -, hd⟩ := Option.bind_eq_some_iff.mp hd
    obtain ⟨⟨k₁, i⟩, hpop, hd⟩ := Option.bind_eq_some_iff.mp hd
    simp only at hd
    split at hd
    · cases hd
    next hne =>
    obtain rfl := Option.some.inj hd
    exact safe_populated hfs hok hp hpop hne
  | _ => cases hd

/-- The slot whose descriptors are closed when control goes back to the caller: the running
process's, or the last one when the table of processes was full. -/
def closed (k : Kernel) : Event → Nat
  | .halt .. => k.haltRelease.2.2
  | _ => maxProcessSet

/-- A full table leaves `PCB` at the last slot. -/
theorem Executed.pcb_of_resumed {command : Option (List UInt8)} {junk : List UInt8}
    {status : UInt8} (h : Executed fs command junk k (.resumed status) k') :
    k'.proc.pcb = some maxProcessSet := by
  cases h with
  | overflow _ hi phys =>
    have hchoose := chooseSlot_of_full ((freeIndex_prepare k (argsOf command)).trans hi)
    exact congrArg (fun r : Proc × Nat => some r.1.processCounter) hchoose

/-- `c_halt` closes the descriptors of a slot that was set up. -/
theorem Tables.closed (hfs : Typed fs) (hs : k.sched.Sound) (h : Tables k g) {e : Event}
    {status : UInt8} (ht : k.transition fs e = some (k', .resumed status)) :
    ((k.noteTypes fs e k' g) (k.closed e)).isSome := by
  have hk' := h.step hfs hs ht
  have hrunning (hr : k.running ≠ 0) : (g k.haltRelease.2.2).isSome := by
    obtain ⟨c, hforest⟩ := hs.forest
    obtain ⟨j, hj, hlive⟩ := hforest.live_of_mem (hforest.running_mem hr)
    have hcurr : k.haltRelease.2.2 = j + 1 := by
      rw [(haltRelease_of_quiet hs.quiet.flagger).2]
      exact hj
    rw [hcurr]
    exact h.live j hlive
  cases transition_moves ht with
  | execute hx =>
    exact hk'.pcb maxProcessSet hx.pcb_of_resumed
  | exit hr =>
    rw [noteTypes_of_transition (by rintro _ ⟨⟩) ht]
    exact hrunning hr
  | vacate hr =>
    rw [noteTypes_of_transition (by rintro _ ⟨⟩) ht]
    exact hrunning hr
  | launch _ _ hf hx =>
    cases hx with
    | overflow _ hi => exact absurd hi hf

theorem tables_boot (b : Boot) : Tables b.kernel fun _ => none :=
  ⟨by rintro _ _ ⟨⟩, by rintro _ ⟨⟩, by rintro _ ⟨⟩⟩

/-- **Descriptor tables stay well formed, and no jump through them goes wrong**, in every run on a
disk whose entries have the types 0, 1 and 2.  Every slot that `c_pcb` set up has its standard
descriptors, and its other entries are free or open on the table of the type of the file opened
there; `PCB` points at such a slot; and the calls of `c_read`, `c_write`, `c_open` and of the
closing loop of `c_halt` are at a descriptor of the table and through a function. -/
theorem tables_wellFormed {img : Image} (htypes : ∀ i < img.numDentry, (img.dentry i).fT ≤ 2)
    (tests : TestOutput) (b : Boot) {es : List Event} {k : Kernel} {g : Types}
    (hrun : Runs.run (Runs.withGhost (step (img.fileSystem tests))
      (noteTypes (img.fileSystem tests))) (b.kernel, fun _ => none) es = some (k, g)) :
    (∀ p types, g p = some types → TableOk types (k.proc.slots p).fdArray ∧
      ∀ d ∈ (k.proc.slots p).closeLoop, d.Safe) ∧
    (∀ p, k.proc.pcb = some p → (g p).isSome) ∧
    (∀ (c : Call), (∀ i, c.indexed = some i → 0 ≤ i ∧ i ≤ maxFdVal) ∧
      ∀ d, k.dispatch (img.fileSystem tests) c = some d → d.Safe) ∧
    ∀ e k' status, k.transition (img.fileSystem tests) e = some (k', .resumed status) →
      ∀ d ∈ (k'.proc.slots (k.closed e)).closeLoop, d.Safe := by
  have hfs : Typed (img.fileSystem tests) := by
    refine ⟨fun name d hd => ?_, img.readDentryByIndex_minusOne⟩
    obtain ⟨j, hj, rfl⟩ := Image.readDentryByName_eq_some hd
    exact htypes j hj
  obtain ⟨hs, h⟩ : k.sched.Sound ∧ Tables k g := by
    refine Runs.run_invariant (I := fun r => r.1.sched.Sound ∧ Tables r.1 r.2) ?_
      ⟨sound_boot b, tables_boot b⟩ hrun
    rintro ⟨k₁, g₁⟩ e ⟨k₂, g₂⟩ ⟨hs, h⟩ hghost
    obtain ⟨hstep, rfl⟩ := Runs.withGhost_eq_some.mp hghost
    obtain ⟨o, ho⟩ := step_eq_some.mp hstep
    exact ⟨sound_step hs hstep, h.step hfs hs ho⟩
  refine ⟨fun p types hp => ⟨h.ok p types hp, (h.ok p types hp).closeLoop⟩, h.pcb,
    fun c => ⟨fun i hi => Call.indexed_bounds hi, fun d hd => h.dispatch hfs hd⟩,
    fun e k' status ht => ?_⟩
  obtain ⟨types, htypes⟩ := Option.isSome_iff_exists.mp (h.closed hfs hs ht)
  exact ((h.step hfs hs ht).ok _ types htypes).closeLoop

/-- A shell that opens the clock and a file and closes the clock again. -/
def opensTwo : List Event :=
  [.execute (some shell) ⟨0, 0⟩ [], .call (.openFile (some [114, 116, 99]) []),
    .call (.openFile (some [97]) []), .call (.close 2)]

theorem tables_wellFormed_opensTwo : ∃ k g,
    Runs.run (Runs.withGhost (step ((Image.sample [97]).fileSystem noTests))
      (noteTypes ((Image.sample [97]).fileSystem noTests)))
      (Boot.zero.kernel, fun _ => none) opensTwo = some (k, g) ∧
    ((k.proc.slots 1).fdArray 2).operations = none ∧
    ((k.proc.slots 1).fdArray 3).operations = some .file := by
  have hrun : (Runs.run (Runs.withGhost (step ((Image.sample [97]).fileSystem noTests))
      (noteTypes ((Image.sample [97]).fileSystem noTests)))
      (Boot.zero.kernel, fun _ => none) opensTwo).map
        (fun r => (r.2 1).map fun types => (types 2, types 3)) = some (some (none, some 2)) := by
    decide +kernel
  obtain ⟨⟨k, g⟩, h, hg⟩ := Option.map_eq_some_iff.mp hrun
  obtain ⟨types, htypes, hpair⟩ := Option.map_eq_some_iff.mp hg
  obtain ⟨h2, h3⟩ := Prod.mk.inj hpair
  obtain ⟨hok, -⟩ := (tables_wellFormed (by decide +kernel) noTests Boot.zero h).1 1 types htypes
  have hfree := hok.entries 2 (by decide) (by decide)
  have hfile := hok.entries 3 (by decide) (by decide)
  rw [h2] at hfree
  rw [h3] at hfile
  exact ⟨k, g, h, congrArg Fd.operations hfree, hfile.2.1⟩

end Kernel

end HarambeOs
