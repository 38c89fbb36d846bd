import HarambeOs.Output
import HarambeOs.Scheduler

/-!
# Switching — terminal switches lose nothing

The screen of the displayed terminal is in video memory, the other two are in their own pages, and a
terminal's page is mapped to wherever its screen is (`Display.Settled`).  A switch unmaps, copies
out, copies in and maps again; on its first time it also starts a shell, whose image goes to the
user page.

**`Kernel.switching_loses_nothing`**: over any sequence of switches and of output to any terminal
the mapping is right, a switch that is carried out leaves all three screens as they are, and
everything else changes only the screen it is about.
-/

namespace HarambeOs

namespace Display

variable {d d' : Display} {t u : Term}

/-! ## Where the screens are -/

/-- The page the screen of terminal `t` is in. -/
def base (d : Display) (t : Term) : Nat := if t = d.currentTerminal then video else pageArr t

/-- The logical screen of terminal `t`. -/
def logical (d : Display) (t : Term) (i : Fin windowSize) : UInt8 := d.phys (d.base t + i)

/-- Each terminal's page is mapped to where its screen is, and nothing is mapped above the user
page. -/
structure Settled (d : Display) : Prop where
  frame : ∀ t, d.paging.termFrame t = d.base t
  above : ∀ i, mb132 >>> entryIdx ≤ i → d.paging.directory i % 2 = 0

/-- Two screens do not overlap. -/
theorem base_disjoint (d : Display) (h : u ≠ t) :
    d.base u + windowSize ≤ d.base t ∨ d.base t + windowSize ≤ d.base u := by
  have hval : u.val ≠ t.val := Fin.val_ne_of_ne h
  rw [base, base, pageArr_eq, pageArr_eq, video, windowSize]
  split_ifs with hu ht
  · exact absurd (hu.trans ht.symm) h
  all_goals omega

theorem base_of_control (h : d'.control = d.control) (t : Term) : d'.base t = d.base t := by
  rw [base, base, currentTerminal_of_control h]

theorem Settled.of_control (hs : d.Settled) (h : d'.control = d.control) : d'.Settled := by
  refine ⟨fun t => ?_, ?_⟩
  · rw [paging_of_control h, base_of_control h]
    exact hs.frame t
  · rw [paging_of_control h]
    exact hs.above

/-- **Output changes the screen it is about.** -/
theorem Confined.logical (h : Confined d d' t) (hs : d.Settled) (hu : u ≠ t) :
    d'.logical u = d.logical u := by
  ext i : 1
  have hi : i.val < windowSize := i.isLt
  have hdisj := d.base_disjoint hu
  rw [Display.logical, Display.logical, base_of_control h.control]
  refine h.phys _ ?_
  rw [hs.frame t, videoElems]
  have hsize : windowSize = 4096 := rfl
  omega

/-! ## A switch -/

/-- The pages while a switch copies: every terminal's is mapped to itself. -/
theorem termFrame_before (hf : ∀ t, d.paging.termFrame t = d.base t) (t : Term) :
    (d.paging.remapTermBefore d.currentTerminal).termFrame t = pageArr t := by
  rw [Paging.termFrame_remapTermBefore]
  split
  · rfl
  · next hne => rw [hf t, base, if_neg hne]

/-- The pages after it. -/
theorem termFrame_switchScreen (hf : ∀ t, d.paging.termFrame t = d.base t) (t u : Term) :
    (d.switchScreen t).paging.termFrame u = (d.switchScreen t).base u := by
  change ((d.paging.remapTermBefore d.currentTerminal).remapTerm t).termFrame u =
    if u = t then video else pageArr u
  rw [Paging.termFrame_remapTerm, termFrame_before hf]

theorem Settled.switchScreen (hs : d.Settled) (t : Term) : (d.switchScreen t).Settled :=
  ⟨termFrame_switchScreen hs.frame t, hs.above⟩

/-- The first copy: every screen is in its own page. -/
theorem copyOut (hs : d.Settled) (u : Term) {i : Nat} (hi : i < windowSize) :
    ({ d with paging := d.paging.remapTermBefore d.currentTerminal }.memcpy
      (pageArr d.currentTerminal) video windowSize).phys (pageArr u + i) =
      d.phys (d.base u + i) := by
  have hmaps := (d.paging.remapTermBefore d.currentTerminal).maps_pageArr d.currentTerminal
  rw [termFrame_before hs.frame] at hmaps
  rw [windowSize] at hi
  have hdisj : pageArr d.currentTerminal + 4096 ≤ video ∨
      video + 4096 ≤ pageArr d.currentTerminal := by
    rw [pageArr_eq, video]
    omega
  refine (MappedMemory.copyRange_apply hmaps (Paging.maps_video _) hdisj _).trans ?_
  rw [base]
  by_cases hu : u = d.currentTerminal
  · rw [hu, if_pos rfl, if_pos (by omega), Nat.add_sub_cancel_left]
  · have hval : u.val ≠ d.currentTerminal.val := Fin.val_ne_of_ne hu
    rw [if_neg hu, if_neg]
    rw [pageArr_eq, pageArr_eq]
    omega

/-- **A switch leaves all three screens as they are.** -/
theorem logical_switchScreen (hs : d.Settled) (t : Term) :
    (d.switchScreen t).logical = d.logical := by
  ext u i : 2
  have hi : i.val < windowSize := i.isLt
  have hmaps := (d.paging.remapTermBefore d.currentTerminal).maps_pageArr t
  rw [termFrame_before hs.frame] at hmaps
  have hdisj : video + 4096 ≤ pageArr t ∨ pageArr t + 4096 ≤ video := by
    rw [pageArr_eq, video]
    omega
  have hcopy (a : Nat) := MappedMemory.copyRange_apply
    (m := ({ d with paging := d.paging.remapTermBefore d.currentTerminal }.memcpy
      (pageArr d.currentTerminal) video windowSize).phys) (d := 0) (Paging.maps_video _) hmaps hdisj
    a
  have hbase : (d.switchScreen t).base u = if u = t then video else pageArr u := rfl
  have hsize : windowSize = 4096 := rfl
  rw [logical, logical, hbase, ← copyOut hs u hi]
  by_cases hu : u = t
  · rw [if_pos hu, hu]
    refine (hcopy _).trans ?_
    rw [if_pos (by omega), Nat.add_sub_cancel_left]
  · rw [if_neg hu]
    refine (hcopy _).trans (if_neg ?_)
    rw [pageArr_eq, video]
    omega

/-! ## A program loaded -/

/-- The screens are in the low 4 MB. -/
theorem base_add_lt (d : Display) (u : Term) {i : Nat} (hi : i < windowSize) :
    d.base u + i < mb4 := by
  have hu := u.isLt
  rw [windowSize] at hi
  rw [base, pageArr_eq, video, mb4]
  split <;> omega

theorem Settled.remapPaging (hs : d.Settled) (pa : Nat) : (d.remapPaging pa).Settled := by
  refine ⟨hs.frame, fun i hi => ?_⟩
  have hne : i ≠ mb128 >>> entryIdx := fun he => absurd (he ▸ hi) (by decide)
  rw [Display.remapPaging, Paging.directory_remapPaging_of_ne _ _ hne]
  exact hs.above i hi

/-- The user page and what is above it is mapped to no address of the low 4 MB. -/
theorem Settled.translate_user (hs : d.Settled) (p : Nat) {va pa : Nat} (hva : mb128 ≤ va)
    (h : (d.remapPaging (userFrame p)).paging.translate va = some pa) : mb4 ≤ pa := by
  rcases Nat.lt_or_ge va mb132 with hlt | hge
  · have hpa := h.symm.trans (HarambeOs.translate_user d.paging p hva hlt)
    rw [Option.some.inj hpa, userFrame]
    omega
  · have hidx : mb132 >>> entryIdx ≤ va / 2 ^ 22 := by
      rw [show mb132 >>> entryIdx = 33 from rfl]
      rw [mb132] at hge
      omega
    have hdir := (hs.remapPaging (userFrame p)).above _ hidx
    rw [Paging.translate, if_pos hdir] at h
    cases h

/-- A program read into the user page leaves the screens alone. -/
theorem logical_readInto {va : Nat} {bytes : List UInt8}
    (huser : ∀ j pa, d.paging.translate (va + j) = some pa → mb4 ≤ pa)
    (h : d.readInto va bytes = some d') : d'.control = d.control ∧ d'.logical = d.logical := by
  unfold readInto at h
  split at h
  · obtain rfl := Option.some.inj h
    refine ⟨rfl, ?_⟩
    ext u i : 2
    refine MappedMemory.storeRange_of_notMem fun j _ htr => ?_
    exact absurd (base_add_lt _ u i.isLt) (Nat.not_lt.mpr (huser j _ htr))
  · cases h

end Display

namespace Kernel

variable {fs : FileSystem} {k k' : Kernel}

theorem logical_loadImage {inode eip : Nat} (hs : k.display.Settled)
    (h : k.loadImage fs inode = some (k', eip)) :
    k'.display.Settled ∧ k'.display.logical = k.display.logical := by
  obtain ⟨d₁, h₁, h⟩ := Option.bind_eq_some_iff.mp h
  obtain ⟨d₂, h₂, h⟩ := Option.map_eq_some_iff.mp h
  obtain ⟨rfl, -⟩ := Prod.mk.inj h
  have huser (j pa : Nat)
      (htr : (k.display.remapPaging (userFrame k.proc.processCounter)).paging.translate
        (progImg + j) = some pa) : mb4 ≤ pa :=
    hs.translate_user _ (Nat.le_trans (by decide) (Nat.le_add_right progImg j)) htr
  obtain ⟨hc₁, hl₁⟩ := Display.logical_readInto huser h₁
  obtain ⟨hc₂, hl₂⟩ := Display.logical_readInto (by rwa [Display.paging_of_control hc₁]) h₂
  exact ⟨((hs.remapPaging _).of_control hc₁).of_control hc₂, hl₂.trans hl₁⟩

/-- A `c_execute` that finds a number, or no program, leaves the screens alone. -/
theorem logical_execute {command : Option (List UInt8)} {fr : Frame} {junk : List UInt8}
    {o : Outcome}
    (hs : k.display.Settled) (hfree : k.sched.freeIndex ≠ none)
    (h : k.execute fs command fr junk = some (k', o)) :
    k'.display.Settled ∧ k'.display.logical = k.display.logical := by
  rw [execute, callDepth, cExecute] at h
  unfold cExecuteWith at h
  split at h
  · obtain ⟨rfl, -⟩ := Prod.mk.inj (Option.some.inj h)
    exact ⟨hs, rfl⟩
  simp only at h
  split at h
  · obtain ⟨rfl, -⟩ := Prod.mk.inj (Option.some.inj h)
    exact ⟨hs, rfl⟩
  next command _ inode _ =>
  obtain ⟨i, hi⟩ := Option.ne_none_iff_exists'.mp hfree
  have hi' : (prepare (parseCommand command).2 { k with cpu := fr }).sched.freeIndex = some i := by
    rw [← hi, Sched.freeIndex, Sched.freeIndex]
    exact congrArg (fun arr : Nat → Bool => (List.range findUniversal).find? fun i => !arr i)
      (pidArr_prepare { k with cpu := fr } (parseCommand command).2)
  have hdisplay : (prepare (parseCommand command).2 { k with cpu := fr }).display = k.display := rfl
  generalize prepare (parseCommand command).2 { k with cpu := fr } = k₀ at h hi' hdisplay
  rw [startProgram_of_free hi'] at h
  obtain ⟨⟨k₁, eip⟩, hload, h⟩ := Option.map_eq_some_iff.mp h
  obtain ⟨rfl, -⟩ := Prod.mk.inj h
  rw [commit_proc]
  rw [← hdisplay] at hs ⊢
  have hk₁ := logical_loadImage (k := { k₀ with proc := k₀.proc.chooseSlot.1 }) hs hload
  exact hk₁

/-! ## The machine of the screens -/

/-- The operations: the three switches, program output on the active terminal, keyboard echo on the
displayed one, and whatever else the kernel does to the process table and the active terminal. -/
inductive ScreenOp
  | switch (t : Term) (fr : Frame) (junk : List UInt8)
  | putc (c : UInt8)
  | scroll
  | putcNumber2 (c : UInt8)
  | scroll2
  | elsewhere (active : Term) (proc : Proc)

/-- The switch to terminal `t`. -/
def terminalSwitch (fs : FileSystem) (fr : Frame) (junk : List UInt8) (k : Kernel) :
    Term → Option Kernel
  | 0 => some k.firstTerminalSwitch
  | 1 => (k.secondTerminalSwitch fs fr junk).map Prod.fst
  | 2 => (k.thirdTerminalSwitch fs fr junk).map Prod.fst

/-- One operation. -/
def screenStep (fs : FileSystem) (k : Kernel) : ScreenOp → Option Kernel
  | .switch t fr junk => k.terminalSwitch fs fr junk t
  | .putc c => some { k with display := k.display.putc c }
  | .scroll => some { k with display := k.display.scroll }
  | .putcNumber2 c => some { k with display := k.display.putcNumber2 c }
  | .scroll2 => some { k with display := k.display.scroll2 }
  | .elsewhere active proc =>
    some { k with display := { k.display with activeTerminal := active }, proc := proc }

/-- The terminal whose screen an operation writes to: for a switch none, or the active terminal
where the switch is refused and says so. -/
def addressed (k : Kernel) : ScreenOp → Option Term
  | .switch t _ _ => if t ≠ 0 ∧ k.refuses t then some k.display.activeTerminal else none
  | .putc _ => some k.display.activeTerminal
  | .scroll => some k.display.activeTerminal
  | .putcNumber2 _ => some k.display.currentTerminal
  | .scroll2 => some k.display.currentTerminal
  | .elsewhere .. => none

/-- The cursor of the terminal written to is on the screen. -/
def InRange (k : Kernel) (op : ScreenOp) : Prop :=
  ∀ t, k.addressed op = some t → k.display.screenX t < numCols ∧ k.display.screenY t < numRows

instance (k : Kernel) (op : ScreenOp) : Decidable (k.InRange op) := by
  unfold InRange
  infer_instance

/-- A switch to a terminal other than the first. -/
theorem later_step {t : Term} {fr : Frame} {junk : List UInt8} {o : Outcome}
    (hs : k.display.Settled) (hr : k.refuses t = true →
      k.display.screenX k.display.activeTerminal < numCols ∧
      k.display.screenY k.display.activeTerminal < numRows)
    (h : k.laterTerminalSwitch fs t fr junk = some (k', o)) :
    k'.display.Settled ∧ ∀ u, (k.refuses t = true → u ≠ k.display.activeTerminal) →
      k'.display.logical u = k.display.logical u := by
  have hsw := hs.switchScreen t
  have hlog := Display.logical_switchScreen hs t
  cases laterTerminalSwitch_switched h with
  | refused href =>
    obtain ⟨hx, hy⟩ := hr href
    have hshows := k.display.shows_console k.display.activeTerminal hx hy
    have hmessage : ∀ c ∈ message, c ≠ carriageReturn := by decide +kernel
    obtain ⟨-, hconf⟩ := hshows.terminalWrite hmessage
    exact ⟨hs.of_control hconf.control, fun u hu => hconf.logical hs (hu href)⟩
  | shown => exact ⟨hsw, fun u _ => congrFun hlog u⟩
  | launched _ _ hfree h =>
    have hlaunch := logical_execute (k := { k with
        proc := { k.proc with launchFlag := Function.update k.proc.launchFlag t true }
        display := { (k.display.switchScreen t).resetCursor with activeTerminal := t } })
      ⟨hsw.frame, hsw.above⟩ hfree h
    exact ⟨hlaunch.1, fun u _ => congrFun (hlaunch.2.trans hlog) u⟩

theorem terminalSwitch_of_ne {t : Term} (ht : t ≠ 0) (fr : Frame) (junk : List UInt8) (k : Kernel) :
    k.terminalSwitch fs fr junk t = (k.laterTerminalSwitch fs t fr junk).map Prod.fst := by
  match t, ht with
  | 1, _ => rfl
  | 2, _ => rfl

/-- **One operation**: the pages stay right, and no screen changes but the one written to. -/
theorem screen_step {op : ScreenOp} (hs : k.display.Settled) (hr : k.InRange op)
    (h : k.screenStep fs op = some k') :
    k'.display.Settled ∧ ∀ u, k.addressed op ≠ some u →
      k'.display.logical u = k.display.logical u := by
  have hconf {d : Display} {t : Term} (hc : Display.Confined k.display d t) :
      d.Settled ∧ ∀ u, some t ≠ some u → d.logical u = k.display.logical u :=
    ⟨hs.of_control hc.control, fun u hu => hc.logical hs fun he => hu (congrArg some he.symm)⟩
  have hvideo : MappedMemory.Maps k.display.paging.translate video
      (k.display.paging.termFrame k.display.currentTerminal) 4096 := by
    rw [hs.frame, Display.base, if_pos rfl]
    exact Paging.maps_video _
  cases op with
  | switch t fr junk =>
    by_cases ht : t = 0
    · subst ht
      obtain rfl := Option.some.inj h
      exact ⟨hs.switchScreen 0, fun u _ => congrFun (Display.logical_switchScreen hs 0) u⟩
    · have hlater := (terminalSwitch_of_ne ht fr junk k).symm.trans h
      obtain ⟨⟨k₁, o⟩, hk₁, rfl⟩ := Option.map_eq_some_iff.mp hlater
      obtain ⟨hset, hlog⟩ := later_step hs (fun href => hr _ (if_pos ⟨ht, href⟩)) hk₁
      refine ⟨hset, fun u hu => hlog u fun href he => hu ?_⟩
      rw [he]
      exact if_pos ⟨ht, href⟩
  | putc c =>
    obtain rfl := Option.some.inj h
    obtain ⟨hx, hy⟩ := hr _ rfl
    exact hconf (Display.confined_putAt (Paging.maps_pageArr _ _) hx hy c)
  | scroll =>
    obtain rfl := Option.some.inj h
    exact hconf (Display.confined_scrollAt (Paging.maps_pageArr _ _))
  | putcNumber2 c =>
    obtain rfl := Option.some.inj h
    obtain ⟨hx, hy⟩ := hr _ rfl
    exact hconf (Display.confined_putAt hvideo hx hy c)
  | scroll2 =>
    obtain rfl := Option.some.inj h
    exact hconf (Display.confined_scrollAt hvideo)
  | elsewhere active proc =>
    obtain rfl := Option.some.inj h
    exact ⟨⟨hs.frame, hs.above⟩, fun _ _ => rfl⟩

theorem settled_boot (b : Boot) : b.kernel.display.Settled := by
  refine ⟨Paging.termFrame_init b.tablesAddr b.aligned, fun i hi => ?_⟩
  have h0 : i ≠ 0 := fun he => absurd (he ▸ hi) (by decide)
  have h1 : i ≠ 1 := fun he => absurd (he ▸ hi) (by decide)
  change Function.update (Function.update (fun _ => rwOnly) 1 (HarambeOs.kernel ||| rps)) 0
    (b.tablesAddr ||| rwp) i % 2 = 0
  rw [Function.update_of_ne h0, Function.update_of_ne h1]
  rfl

/-- **Terminal switching loses nothing.**  After any sequence of switches and output, at cursor
positions on the screen, exactly the displayed terminal's page is mapped to video memory and the
other two to themselves; a switch that is carried out leaves all three logical screens as they are,
and every other operation changes the screen of the terminal it writes to only. -/
theorem switching_loses_nothing (fs : FileSystem) (b : Boot) (ops : List ScreenOp) (k : Kernel)
    (hrun : Runs.run (screenStep fs) b.kernel ops = some k)
    (hrange : Runs.Guarded (screenStep fs) InRange b.kernel ops) :
    (∀ t i, i < windowSize → k.display.paging.translate (pageArr t + i) =
      some ((if t = k.display.currentTerminal then video else pageArr t) + i)) ∧
    ∀ op k', k.InRange op → k.screenStep fs op = some k' →
      ∀ t, k.addressed op ≠ some t → k'.display.logical t = k.display.logical t := by
  have hs : k.display.Settled :=
    Runs.run_guarded (I := fun k : Kernel => k.display.Settled)
      (fun _ _ _ hs hr h => (screen_step hs hr h).1) (settled_boot b) hrange hrun
  refine ⟨fun t i hi => ?_, fun op k' hr h => (screen_step hs hr h).2⟩
  rw [k.display.paging.maps_pageArr t i hi, hs.frame t]
  rfl

/-- An `a` on the first terminal, the second one launched, a `b` of echo there. -/
def twoScreens : List ScreenOp := [.putc 97, .switch 1 ⟨1, 2⟩ [], .putcNumber2 98]

/-- Going back to the first terminal loses neither. -/
theorem switching_loses_nothing_two :
    ∃ k k', Runs.run (screenStep shellDisk) Boot.zero.kernel twoScreens = some k ∧
      k.screenStep shellDisk (.switch 0 ⟨3, 4⟩ []) = some k' ∧
      k.display.logical 0 ⟨0, by decide⟩ = 97 ∧ k'.display.logical 0 = k.display.logical 0 ∧
      k.display.logical 1 ⟨0, by decide⟩ = 98 ∧ k'.display.logical 1 = k.display.logical 1 := by
  have hrun : ((Runs.run (screenStep shellDisk) Boot.zero.kernel twoScreens).bind fun k =>
      (k.screenStep shellDisk (.switch 0 ⟨3, 4⟩ [])).map fun _ =>
        (k.display.logical 0 ⟨0, by decide⟩, k.display.logical 1 ⟨0, by decide⟩)) =
      some (97, 98) := by
    decide +kernel
  obtain ⟨k, hk, hrun⟩ := Option.bind_eq_some_iff.mp hrun
  obtain ⟨k', hk', hchars⟩ := Option.map_eq_some_iff.mp hrun
  obtain ⟨h0, h1⟩ := Prod.mk.inj hchars
  have hrange : Runs.Guarded (screenStep shellDisk) InRange Boot.zero.kernel twoScreens :=
    Runs.guarded_of_check (by decide +kernel)
  obtain ⟨-, hlog⟩ := switching_loses_nothing shellDisk Boot.zero twoScreens k hk hrange
  have hlog := hlog (.switch 0 ⟨3, 4⟩ []) k' nofun hk'
  exact ⟨k, k', hk, hk', h0, hlog 0 nofun, h1, hlog 1 nofun⟩

end Kernel

end HarambeOs
