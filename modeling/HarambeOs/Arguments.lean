import HarambeOs.Commands
import HarambeOs.Running

/-!
# Arguments — what a program is given, and what a failed `c_execute` leaves behind

The arguments of a command go to its program through two globals, `get_args` and `arg_size`.
`c_execute` stores them before it knows whether there is a program to start, and adds their length
to `arg_size`, which nothing resets.  So what a program gets depends on the commands before it, and
a `c_execute` that starts nothing still changes what the caller was given.
-/

namespace HarambeOs

/-! ## What the globals hold -/

/-- `get_args` and `arg_size`. -/
def Proc.args (p : Proc) : (Nat → UInt8) × Nat := (p.getArgs, p.argSize)

theorem Proc.args_chooseSlot (p : Proc) : p.chooseSlot.1.args = p.args := by
  unfold Proc.chooseSlot
  cases p.freeIndex <;> simp only <;> split <;> rfl

theorem Proc.args_storeArgs {p q : Proc} (h : p.args = q.args) (args : Option (List UInt8)) :
    (p.storeArgs args).args = (q.storeArgs args).args := by
  obtain ⟨hget, hsize⟩ := Prod.mk.inj h
  cases args with
  | none => exact h
  | some a => simp only [Proc.storeArgs, Proc.args, hget, hsize]

/-- Whether an event is a `c_execute` call of a program. -/
def Event.isExecute : Event → Bool
  | .execute .. => true
  | _ => false

namespace Kernel

variable {fs : FileSystem} {k k' : Kernel}

theorem args_prepare (k : Kernel) (args : Option (List UInt8)) :
    (k.prepare args).proc.args = (k.proc.storeArgs args).args := by
  refine Proc.args_storeArgs ?_ args
  split <;> rfl

/-- **`c_execute` stores the arguments of its command**, whether or not it starts a process. -/
theorem Executed.args {command : Option (List UInt8)} {junk : List UInt8} {o : Outcome}
    (h : Executed fs command junk k o k') :
    k'.proc.args = (k.proc.storeArgs (argsOf command)).args := by
  rw [← args_prepare]
  cases h with
  | fail => rfl
  | start _ _ _ phys =>
    rw [commit_eq rfl rfl]
    exact Proc.args_chooseSlot _
  | overflow _ _ phys => exact Proc.args_chooseSlot _

/-- Whether an event is a `c_getargs` call that succeeds. -/
def takesArgs (k : Kernel) : Event → Bool
  | .call (.getargs (some _) nbytes) => (k.proc.argSize : Int) + 1 ≤ nbytes
  | _ => false

/-- `get_args` after a `c_getargs` call that succeeded. -/
def clearedArgs (getArgs : Nat → UInt8) : Nat → UInt8 :=
  fun i => if i < 1024 then nul else getArgs i

theorem args_haltRelease (k : Kernel) : k.haltRelease.1.proc.args = k.proc.args := by
  unfold haltRelease
  split <;> rfl

theorem args_effect {c : Call} (h : Effect k c k') (hc : ∀ buf nbytes, c ≠ .getargs buf nbytes) :
    k'.proc.args = k.proc.args := by
  cases h with
  | arguments heq => exact absurd heq (hc _ _)
  | video screenStart =>
    unfold cVidmap
    split <;> rfl
  | _ => rfl

theorem args_cGetargs (buf : Option Buf) (nbytes : Int) (k : Kernel) :
    (k.cGetargs buf nbytes).1.proc.args =
      if k.takesArgs (.call (.getargs buf nbytes)) then
        (clearedArgs k.proc.getArgs, k.proc.argSize)
      else k.proc.args := by
  cases buf with
  | none => rfl
  | some buf =>
    rcases Int.lt_or_le nbytes (k.proc.argSize + 1) with h | h
    · rw [cGetargs, if_pos h, takesArgs, if_neg (by simpa using h)]
    · rw [cGetargs, if_neg (by omega), takesArgs, if_pos (by simpa using h)]
      rfl

/-- **Between two calls of `c_execute`** only a `c_getargs` that succeeds changes what the next one
finds. -/
theorem args_step {e : Event} (he : e.isExecute = false) (h : k.step fs e = some k') :
    k'.proc.args = if k.takesArgs e then (clearedArgs k.proc.getArgs, k.proc.argSize)
      else k.proc.args := by
  have hshell : argsOf (some shell) = none := by decide
  obtain ⟨o, hm⟩ := step_moves h
  cases hm with
  | execute => cases he
  | exit => exact args_haltRelease k
  | respawn _ _ hx =>
    have hargs := hx.args
    rw [hshell] at hargs
    exact hargs.trans (args_haltRelease k)
  | vacate _ _ hx =>
    have hargs := hx.args
    rw [hshell] at hargs
    exact hargs.trans (args_haltRelease k)
  | rest => rfl
  | tick => rfl
  | key hq => exact congrArg Proc.args hq.proc
  | switch => rfl
  | launch _ _ _ hx =>
    have hargs := hx.args
    rw [hshell] at hargs
    exact hargs
  | turn hq => exact congrArg Proc.args hq.proc
  | @call c r _ hc =>
    cases c with
    | getargs buf nbytes =>
      have hk : (k.cGetargs buf nbytes).1 = k' := congrArg Prod.fst (Option.some.inj hc)
      rw [← hk]
      exact args_cGetargs buf nbytes k
    | _ => exact args_effect (call_effect hc) fun _ _ hne => by cases hne

/-! ## What a program is given -/

/-- Whether some `c_getargs` call has succeeded. -/
def noteTaken (k : Kernel) (e : Event) (_ : Kernel) (taken : Bool) : Bool := taken || k.takesArgs e

/-- The globals since the last `c_execute`, which left them as in `k`: `arg_size` stays, and
`get_args` is cleared once a `c_getargs` call has succeeded. -/
def Holds (k : Kernel) (s : Kernel × Bool) : Prop :=
  s.1.proc.argSize = k.proc.argSize ∧
    ∀ i < 1024, s.1.proc.getArgs i = if s.2 then nul else k.proc.getArgs i

theorem holds_of_run {es : List Event} {taken : Bool} (hes : ∀ e ∈ es, e.isExecute = false)
    (h : Runs.run (Runs.withGhost (step fs) noteTaken) (k, false) es = some (k', taken)) :
    k.Holds (k', taken) := by
  refine Runs.run_guarded (I := k.Holds) (G := fun _ e => e.isExecute = false) ?_
    ⟨rfl, fun _ _ => rfl⟩ (Runs.guarded_of_forall (fun e he _ => hes e he) _) h
  rintro ⟨k₁, taken⟩ e ⟨k₂, taken'⟩ ⟨hsize, hget⟩ he hs
  obtain ⟨hk, rfl⟩ := Runs.withGhost_eq_some.mp hs
  have hargs := args_step he hk
  rw [noteTaken]
  cases ht : k₁.takesArgs e with
  | false =>
    rw [ht] at hargs
    obtain ⟨hget', hsize'⟩ := Prod.mk.inj hargs
    refine ⟨hsize'.trans hsize, fun i hi => ?_⟩
    rw [Bool.or_false]
    exact (congrFun hget' i).trans (hget i hi)
  | true =>
    rw [ht] at hargs
    obtain ⟨hget', hsize'⟩ := Prod.mk.inj hargs
    refine ⟨hsize'.trans hsize, fun i hi => ?_⟩
    rw [Bool.or_true]
    exact (congrFun hget' i).trans (if_pos hi)

/-- A buffer holds a C string. -/
def HoldsString (buf : Buf) (a : List UInt8) : Prop :=
  (∀ j < a.length, buf j = a.getD j nul) ∧ buf a.length = nul

/-- What `c_getargs` owes a program with the arguments `a`: the string if the buffer has room for
it, and an error otherwise. -/
def GivesArgs (k : Kernel) (a : List UInt8) : Prop :=
  ∀ buf nbytes, ((a.length : Int) + 1 ≤ nbytes →
      ∃ buf', (k.cGetargs (some buf) nbytes).2 = (0, some buf') ∧ HoldsString buf' a) ∧
    (nbytes < a.length + 1 → (k.cGetargs (some buf) nbytes).2.1 = -1)

/-- What it owes a program without arguments: no string but the empty one. -/
def GivesNoArgs (k : Kernel) : Prop :=
  ∀ buf nbytes buf', (k.cGetargs (some buf) nbytes).2 = (0, some buf') → buf' 0 = nul

theorem cGetargs_of_le (buf : Buf) {nbytes : Int} (h : (k.proc.argSize : Int) + 1 ≤ nbytes) :
    (k.cGetargs (some buf) nbytes).2 = (0, some fun j =>
      if j < k.proc.argSize then k.proc.getArgs j else if j < 128 then nul else buf j) := by
  rw [cGetargs, if_neg (by omega)]

theorem cGetargs_of_lt (buf : Buf) {nbytes : Int} (h : nbytes < k.proc.argSize + 1) :
    (k.cGetargs (some buf) nbytes).2 = (-1, some buf) := by
  rw [cGetargs, if_pos h]

theorem givesArgs_iff {a : List UInt8} (ha : a.length < 128) :
    k.GivesArgs a ↔
      k.proc.argSize = a.length ∧ ∀ j < a.length, k.proc.getArgs j = a.getD j nul := by
  constructor
  · intro h
    have hsize : k.proc.argSize = a.length := by
      refine Nat.le_antisymm ?_ ?_
      · -- A buffer that has just room for the string must do.
        by_contra hlt
        obtain ⟨buf', hb, -⟩ := (h (fun _ => nul) (a.length + 1)).1 (Int.le_refl _)
        rw [cGetargs_of_lt _ (by omega)] at hb
        cases hb
      · by_contra hlt
        have hb := (h (fun _ => nul) a.length).2 (by omega)
        rw [cGetargs_of_le _ (by omega)] at hb
        cases hb
    refine ⟨hsize, fun j hj => ?_⟩
    obtain ⟨buf', hb, hstring, -⟩ := (h (fun _ => nul) (a.length + 1)).1 (Int.le_refl _)
    rw [cGetargs_of_le _ (by omega)] at hb
    have hbuf := Option.some.inj (Prod.mk.inj hb).2
    rw [← hstring j hj, ← hbuf]
    exact (if_pos (by omega)).symm
  · rintro ⟨hsize, hget⟩ buf nbytes
    refine ⟨fun hn => ⟨_, cGetargs_of_le buf (by omega), fun j hj => ?_, ?_⟩, fun hn => ?_⟩
    · exact (if_pos (by omega)).trans (hget j hj)
    · exact (if_neg (by omega)).trans (if_pos ha)
    · rw [cGetargs_of_lt _ (by omega)]

theorem givesNoArgs_iff : k.GivesNoArgs ↔ k.proc.argSize = 0 ∨ k.proc.getArgs 0 = nul := by
  constructor
  · intro h
    rcases Nat.eq_zero_or_pos k.proc.argSize with hz | hpos
    · exact Or.inl hz
    · have := h (fun _ => nul) (k.proc.argSize + 1) _ (cGetargs_of_le _ (Int.le_refl _))
      exact Or.inr ((if_pos hpos).symm.trans this)
  · intro h buf nbytes buf' hb
    rcases Int.lt_or_le nbytes (k.proc.argSize + 1) with hn | hn
    · rw [cGetargs_of_lt _ hn] at hb
      cases hb
    · rw [cGetargs_of_le _ hn] at hb
      rw [← Option.some.inj (Prod.mk.inj hb).2]
      dsimp only
      split
      · next hpos => exact h.resolve_left (by omega)
      · rfl

/-- **What a program is given.**  After any history, a command starts a program, and up to the
program's `c_getargs` call there is no other `c_execute`.  A program with arguments is given them
exactly when `arg_size` was 0 before the command and no other call took them; a program without
arguments is given none exactly when there were none left over, or another call took them. -/
theorem getargs_iff {command : List UInt8} {fr : Frame} {junk : List UInt8} {eip : Nat}
    {es : List Event} {k₁ k₂ : Kernel} {taken : Bool}
    (hstart : k.execute fs (some command) fr junk = some (k₁, .started eip))
    (hes : ∀ e ∈ es, e.isExecute = false)
    (hrun : Runs.run (Runs.withGhost (step fs) noteTaken) (k₁, false) es = some (k₂, taken)) :
    (∀ name a, command = name ++ space :: a → name ≠ [] →
      (∀ c ∈ name, c ≠ space ∧ c ≠ nul) → a ≠ [] → nul ∉ a → command.length ≤ 100 →
      (k₂.GivesArgs a ↔ k.proc.argSize = 0 ∧ taken = false)) ∧
    (space ∉ command →
      (k₂.GivesNoArgs ↔ k.proc.argSize = 0 ∨ k.proc.getArgs 0 = nul ∨ taken = true)) := by
  have hargs := (execute_executed hstart).args
  obtain ⟨hsize, hget⟩ := holds_of_run hes hrun
  simp only at hsize hget
  refine ⟨?_, fun hspace => ?_⟩
  · rintro name a rfl hne hname ha hnul hlen
    have hlen' : name.length + (a.length + 1) ≤ 100 := by simpa using hlen
    rw [argsOf_of_space hne hname hnul hlen] at hargs
    obtain ⟨hget₁, hsize₁⟩ := Prod.mk.inj hargs
    simp only [Proc.storeArgs] at hget₁ hsize₁
    obtain ⟨c, a, rfl⟩ := List.exists_cons_of_ne_nil ha
    have hc : c ≠ nul := fun hc => hnul (hc ▸ List.mem_cons_self ..)
    rw [givesArgs_iff (by omega), hsize, hsize₁]
    constructor
    · rintro ⟨hsame, hstring⟩
      refine ⟨by omega, Bool.eq_false_iff.mpr ?_⟩
      rintro rfl
      exact hc ((hstring 0 (Nat.succ_pos _)).symm.trans (hget 0 (by decide)))
    · rintro ⟨hzero, rfl⟩
      refine ⟨by omega, fun j hj => (hget j (by omega)).trans ?_⟩
      rw [hget₁]
      exact if_pos hj
  · rw [argsOf_of_notMem hspace] at hargs
    obtain ⟨hget₁, hsize₁⟩ := Prod.mk.inj hargs
    have hget₁ : k₁.proc.getArgs = k.proc.getArgs := hget₁
    have hsize₁ : k₁.proc.argSize = k.proc.argSize := hsize₁
    rw [givesNoArgs_iff, hsize, hsize₁, hget 0 (by decide), hget₁]
    cases taken <;> simp

/-- The shell started first, with the argument `a`, is given it. -/
theorem getargs_iff_first : ∃ k eip,
    Boot.zero.kernel.execute shellDisk (some (shell ++ space :: [97])) ⟨0, 0⟩ [] =
      some (k, .started eip) ∧ k.GivesArgs [97] := by
  have hrun : (Boot.zero.kernel.execute shellDisk (some (shell ++ space :: [97])) ⟨0, 0⟩ []).map
      Prod.snd = some (.started 0x464c457f) := by
    decide +kernel
  obtain ⟨⟨k, o⟩, hk, rfl⟩ := Option.map_eq_some_iff.mp hrun
  have hend : Runs.run (Runs.withGhost (step shellDisk) noteTaken) (k, false) [] =
      some (k, false) := rfl
  have hgives := (getargs_iff hk (List.forall_mem_nil _) hend).1 shell [97] rfl (by decide)
    (by decide +kernel) (by decide) (by decide) (by decide)
  exact ⟨k, _, hk, hgives.mpr ⟨rfl, rfl⟩⟩

/-- After a shell with the argument `a` that never asks for it, a shell without arguments is given
`a`, and one with the argument `b` is not given `b`. -/
theorem getargs_leftover : ∃ k₁ k₂,
    Runs.run (step shellDisk) Boot.zero.kernel
      [.execute (some (shell ++ space :: [97])) ⟨0, 0⟩ [], .execute (some shell) ⟨0, 0⟩ []] =
        some k₁ ∧ ¬ k₁.GivesNoArgs ∧
    Runs.run (step shellDisk) Boot.zero.kernel
      [.execute (some (shell ++ space :: [97])) ⟨0, 0⟩ [],
        .execute (some (shell ++ space :: [98])) ⟨0, 0⟩ []] = some k₂ ∧ ¬ k₂.GivesArgs [98] := by
  have h₁ : (Runs.run (step shellDisk) Boot.zero.kernel
      [.execute (some (shell ++ space :: [97])) ⟨0, 0⟩ [], .execute (some shell) ⟨0, 0⟩ []]).map
        (fun k => (k.proc.argSize, k.proc.getArgs 0)) = some (1, 97) := by
    decide +kernel
  have h₂ : (Runs.run (step shellDisk) Boot.zero.kernel
      [.execute (some (shell ++ space :: [97])) ⟨0, 0⟩ [],
        .execute (some (shell ++ space :: [98])) ⟨0, 0⟩ []]).map (·.proc.argSize) = some 2 := by
    decide +kernel
  obtain ⟨k₁, hk₁, hargs⟩ := Option.map_eq_some_iff.mp h₁
  obtain ⟨k₂, hk₂, hsize⟩ := Option.map_eq_some_iff.mp h₂
  obtain ⟨hsize₁, hget₁⟩ := Prod.mk.inj hargs
  refine ⟨k₁, k₂, hk₁, ?_, hk₂, ?_⟩
  · rw [givesNoArgs_iff, hsize₁, hget₁]
    decide
  · rw [givesArgs_iff (by decide), hsize]
    exact fun h => absurd h.1 (by decide)

/-! ## A `c_execute` that starts nothing -/

/-- Nothing sets the `view` of a terminal. -/
def Unviewed (k : Kernel) : Prop := ∀ t, (k.proc.termArr t).view = 0

theorem Unviewed.of_termArr (h : k.Unviewed) (ht : k'.proc.termArr = k.proc.termArr) :
    k'.Unviewed := fun t => by rw [ht, h]

theorem termArr_prepare (k : Kernel) (args : Option (List UInt8)) :
    (k.prepare args).proc.termArr =
      if k.proc.intiFlag then k.proc.termArr else fun _ => ⟨0, false, 0⟩ := by rw [prepare_eq]

theorem Unviewed.prepare (h : k.Unviewed) (args : Option (List UInt8)) :
    (k.prepare args).Unviewed := by
  intro t
  rw [termArr_prepare]
  split
  · exact h t
  · rfl

theorem Executed.unviewed {command : Option (List UInt8)} {junk : List UInt8} {o : Outcome}
    (hx : Executed fs command junk k o k') (h : k.Unviewed) : k'.Unviewed := by
  have hprep := h.prepare (argsOf command)
  cases hx with
  | fail => exact hprep
  | start _ _ _ phys =>
    have hloaded : ((k.prepare (argsOf command)).loaded phys).buildPcb.Unviewed :=
      hprep.of_termArr (termArr_chooseSlot _)
    rw [commit_eq rfl rfl]
    intro t
    simp only [Function.update_apply]
    split
    · exact hloaded _
    · exact hloaded t
  | overflow _ _ phys => exact hprep.of_termArr (termArr_chooseSlot _)

theorem Unviewed.haltRelease (h : k.Unviewed) : k.haltRelease.1.Unviewed := by
  unfold Kernel.haltRelease
  split
  · exact h
  · intro t
    simp only [setActiveEntry, Function.update_apply]
    split
    · exact h _
    · exact h t

theorem Unviewed.step {e : Event} (h : k.Unviewed) (hs : k.step fs e = some k') : k'.Unviewed := by
  obtain ⟨o, hm⟩ := step_moves hs
  cases hm with
  | execute hx => exact hx.unviewed h
  | exit => exact h.haltRelease
  | respawn _ _ hx => exact hx.unviewed h.haltRelease
  | vacate _ _ hx => exact hx.unviewed h.haltRelease
  | rest => exact h
  | tick => exact h
  | key hq => exact h.of_termArr (congrArg Proc.termArr hq.proc)
  | switch => exact h
  | launch _ _ _ hx => exact hx.unviewed h
  | turn hq => exact h.of_termArr (congrArg Proc.termArr hq.proc)
  | call hc =>
    refine h.of_termArr ?_
    cases call_effect hc with
    | video screenStart =>
      unfold cVidmap
      split <;> rfl
    | _ => rfl

/-- The parts of the kernel a `c_execute` that starts nothing should leave as they were. -/
structure Restored (k k' : Kernel) : Prop where
  pidArr : k'.proc.pidArr = k.proc.pidArr
  termArr : k'.proc.termArr = k.proc.termArr
  pcb : k'.proc.pcb = k.proc.pcb
  args : k'.proc.args = k.proc.args
  userPage : k'.display.paging.directory (mb128 >>> entryIdx) =
    k.display.paging.directory (mb128 >>> entryIdx)
  tssEsp0 : k'.proc.tssEsp0 = k.proc.tssEsp0

theorem restored_enterWith {fr : Frame} :
    Restored { k with cpu := fr } k' ↔ Restored k k' :=
  ⟨fun h => ⟨h.1, h.2, h.3, h.4, h.5, h.6⟩, fun h => ⟨h.1, h.2, h.3, h.4, h.5, h.6⟩⟩

/-- Storing arguments changes the globals, unless there are none to store. -/
theorem storeArgs_eq_iff (p : Proc) (args : Option (List UInt8)) :
    (p.storeArgs args).args = p.args ↔ args = none ∨ args = some [] ∧ p.getArgs 0 = nul := by
  cases args with
  | none => exact iff_of_true rfl (Or.inl rfl)
  | some a =>
    simp only [Proc.storeArgs, Proc.args, Prod.mk.injEq, reduceCtorEq, false_or,
      Option.some.injEq]
    constructor
    · rintro ⟨hget, hsize⟩
      have ha : a = [] := List.length_eq_zero_iff.mp (by omega)
      subst ha
      exact ⟨rfl, (congrFun hget 0).symm⟩
    · rintro ⟨rfl, hzero⟩
      refine ⟨funext fun j => ?_, rfl⟩
      rw [List.length_nil, if_neg (Nat.not_lt_zero j)]
      split
      · next hj => rw [hj, hzero]
      · rfl

/-- The terminals keep their entries: before the first `c_execute` they are as `init_terms` sets
them. -/
theorem termArr_prepare_eq (hq : k.sched.Quiet) (hv : k.Unviewed) (args : Option (List UInt8)) :
    (k.prepare args).proc.termArr = k.proc.termArr := by
  rw [termArr_prepare]
  split
  · rfl
  · next hi =>
    have hi : k.sched.intiFlag = false := Bool.eq_false_iff.mpr hi
    funext t
    have hlast : (k.proc.termArr t).lastActivePro = 0 := hq.last hi t
    have hflag : (k.proc.termArr t).flag = false := hq.flag hi t
    have hview := hv t
    generalize k.proc.termArr t = entry at hlast hflag hview
    cases entry
    subst hlast hflag hview
    rfl

/-- What a `c_execute` that starts nothing changes: the arguments, and the PCB pointer if it came as
far as building a PCB. -/
theorem Executed.restored_iff {command : Option (List UInt8)} {junk : List UInt8} {o : Outcome}
    (hx : Executed fs command junk k o k') (hq : k.sched.Quiet) (hv : k.Unviewed)
    (hm : k.sched.Settled) (ho : ∀ eip, o ≠ .started eip) :
    Restored k k' ↔ (argsOf command = none ∨ argsOf command = some [] ∧ k.proc.getArgs 0 = nul) ∧
      (resolves fs command junk = true → k.proc.pcb = some maxProcessSet) := by
  have hargs := hx.args
  have hterm := termArr_prepare_eq hq hv (argsOf command)
  have hsched := hx.sched hq
  rw [← storeArgs_eq_iff, ← hargs]
  generalize hs' : k'.sched = s' at hsched
  cases hx with
  | fail h =>
    cases hsched
    constructor
    · exact fun hr => ⟨hr.args, fun hc => absurd (h.symm.trans hc) Bool.false_ne_true⟩
    · rintro ⟨hsame, -⟩
      exact ⟨congrArg Sched.pidArr hs', hterm, congrArg Sched.pcb hs', hsame,
        congrArg Sched.userPage hs', congrArg Sched.tssEsp0 hs'⟩
  | start _ _ eip => exact absurd rfl (ho eip)
  | overflow h hi phys =>
    cases hsched with
    | overflow _ _ =>
      have hpcb := congrArg Sched.pcb hs'
      obtain ⟨hpage, htss⟩ := hm.resolve_right fun hfree => hfree.2 hi
      constructor
      · exact fun hr => ⟨hr.args, fun _ => hr.pcb.symm.trans hpcb⟩
      · rintro ⟨hsame, hpcb'⟩
        exact ⟨congrArg Sched.pidArr hs', (termArr_chooseSlot _).trans hterm,
          hpcb.trans (hpcb' h).symm, hsame, (congrArg Sched.userPage hs').trans hpage.symm,
          (congrArg Sched.tssEsp0 hs').trans htss.symm⟩

/-- **A `c_execute` that starts nothing.**  In every state reached, a command that starts no process
leaves the process table, the terminals, the PCB pointer, the caller's arguments, the user page and
the stack top as they were exactly when it has no arguments to store and, if it names a program and
so finds the table full, the PCB pointer was left by another such command. -/
theorem failed_execute_iff {b : Boot} {es : List Event} {command : Option (List UInt8)} {fr : Frame}
    {junk : List UInt8} {o : Outcome} (hrun : Runs.run (step fs) b.kernel es = some k)
    (h : k.execute fs command fr junk = some (k', o)) (ho : ∀ eip, o ≠ .started eip) :
    Restored k k' ↔ (argsOf command = none ∨ argsOf command = some [] ∧ k.proc.getArgs 0 = nul) ∧
      (resolves fs command junk = true → k.proc.pcb = some maxProcessSet) := by
  have hs := sound_of_run hrun
  have hv := Runs.run_invariant (I := Unviewed) (fun _ _ _ hv hk => hv.step hk) (fun _ => rfl) hrun
  have hm := settled_of_run hrun
  exact restored_enterWith.symm.trans
    ((execute_executed h).restored_iff (hs.quiet.enterWith fr) hv hm ho)

/-- An unknown command without arguments, given to the first shell, leaves everything as it was. -/
theorem failed_execute_iff_unknown : ∃ k k' o,
    Runs.run (step shellDisk) Boot.zero.kernel [.execute (some shell) ⟨0, 0⟩ []] = some k ∧
    k.execute shellDisk (some [120]) ⟨0, 0⟩ [] = some (k', o) ∧ Restored k k' := by
  have hrun : (Runs.run (step shellDisk) Boot.zero.kernel [.execute (some shell) ⟨0, 0⟩ []]).bind
      (fun k => (k.execute shellDisk (some [120]) ⟨0, 0⟩ []).map Prod.snd) =
        some (.returned (-1)) := by
    decide +kernel
  obtain ⟨k, hk, hx⟩ := Option.bind_eq_some_iff.mp hrun
  obtain ⟨⟨k', o⟩, hx, ho⟩ := Option.map_eq_some_iff.mp hx
  refine ⟨k, k', o, hk, hx, (failed_execute_iff hk hx ?_).mpr ⟨Or.inl (by decide), ?_⟩⟩
  · rintro eip rfl
    cases ho
  · intro hres
    cases (show resolves shellDisk (some [120]) [] = false by decide).symm.trans hres

/-- An unknown command with an argument, given to the first shell, and a seventh shell: neither
starts, and the first has changed `arg_size`, the second the PCB pointer. -/
theorem failed_execute_leaves : ∃ k k₁ k₆ k₇,
    Runs.run (step shellDisk) Boot.zero.kernel [.execute (some shell) ⟨0, 0⟩ []] = some k ∧
    k.execute shellDisk (some [120, space, 121]) ⟨0, 0⟩ [] = some (k₁, .returned (-1)) ∧
    k.proc.argSize = 0 ∧ k₁.proc.argSize = 1 ∧
    Runs.run (step shellDisk) Boot.zero.kernel
      (List.replicate 6 (.execute (some shell) ⟨0, 0⟩ [])) = some k₆ ∧
    k₆.execute shellDisk (some shell) ⟨0, 0⟩ [] = some (k₇, .resumed 0) ∧
    k₆.proc.pcb = some 6 ∧ k₇.proc.pcb = some 7 := by
  have h₁ : (Runs.run (step shellDisk) Boot.zero.kernel [.execute (some shell) ⟨0, 0⟩ []]).bind
      (fun k => (k.execute shellDisk (some [120, space, 121]) ⟨0, 0⟩ []).map fun r =>
        (r.2, k.proc.argSize, r.1.proc.argSize)) = some (.returned (-1), 0, 1) := by
    decide +kernel
  have h₆ : (Runs.run (step shellDisk) Boot.zero.kernel
      (List.replicate 6 (.execute (some shell) ⟨0, 0⟩ []))).bind
        (fun k => (k.execute shellDisk (some shell) ⟨0, 0⟩ []).map fun r =>
          (r.2, k.proc.pcb, r.1.proc.pcb)) = some (.resumed 0, some 6, some 7) := by
    decide +kernel
  obtain ⟨k, hk, hx₁⟩ := Option.bind_eq_some_iff.mp h₁
  obtain ⟨⟨k₁, o₁⟩, hx₁, hv₁⟩ := Option.map_eq_some_iff.mp hx₁
  obtain ⟨k₆, hk₆, hx₇⟩ := Option.bind_eq_some_iff.mp h₆
  obtain ⟨⟨k₇, o₇⟩, hx₇, hv₇⟩ := Option.map_eq_some_iff.mp hx₇
  simp only [Prod.mk.injEq] at hv₁ hv₇
  obtain ⟨rfl, hsize, hsize₁⟩ := hv₁
  obtain ⟨rfl, hpcb, hpcb₇⟩ := hv₇
  exact ⟨k, k₁, k₆, k₇, hk, hx₁, hsize, hsize₁, hk₆, hx₇, hpcb, hpcb₇⟩

end Kernel

end HarambeOs
