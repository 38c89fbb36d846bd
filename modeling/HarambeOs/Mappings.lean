import HarambeOs.Switching

/-!
# Mappings — where output and vidmap lead

Echo goes through `VIDEO`, program output through the page of the active terminal, and a program
that called `c_vidmap` draws through a page above its own.  `Remap` says what an event can do to the
page tables; the pages of the terminals stay where the screens are (`Framed`), so that the two
output paths are one where the active terminal is the displayed one (`paths_agree`).  The page of
`c_vidmap` is set at the call and at no other time, one for all processes (`vidmap_iff`).
-/

namespace HarambeOs

namespace Display

variable {d d' : Display}

/-- What an event other than a `c_vidmap` call does to the page tables and the displayed terminal,
one step at a time. -/
inductive Remap (d : Display) : Display → Prop
  | quiet {d' : Display} (hp : d'.paging = d.paging)
      (hc : d'.currentTerminal = d.currentTerminal) : Remap d d'
  | user (pa : Nat) : Remap d (d.remapPaging pa)
  | switch (t : Term) : Remap d (d.switchScreen t)

/-- Any number of such steps. -/
abbrev Remaps : Display → Display → Prop := Relation.ReflTransGen Remap

theorem Remaps.of_control (h : d'.control = d.control) : Remaps d d' :=
  .single (.quiet (paging_of_control h) (currentTerminal_of_control h))

/-- A switch, as the keyboard handler makes it. -/
theorem remaps_switch (d : Display) (t : Term) : Remaps d ((d.cursorWrapper 1).switchScreen t) :=
  (Remaps.of_control (d.control_cursorWrapper 1)).tail (.switch t)

/-- What the functions of `paging.c` keep, such steps keep. -/
theorem Remaps.keep {P : Paging → Prop} (huser : ∀ pg pa, P pg → P (pg.remapPaging pa))
    (hterm : ∀ pg t e he, P pg → P (pg.setTerm t e he)) (h : Remaps d d') (hd : P d.paging) :
    P d'.paging := by
  induction h with
  | refl => exact hd
  | tail _ hr ih =>
    cases hr with
    | quiet hp _ => rwa [hp]
    | user pa => exact huser _ pa ih
    | switch t => exact hterm _ t _ (Or.inl rfl) (hterm _ _ _ (Or.inr rfl) ih)

/-! ## The pages of the terminals -/

/-- Each terminal's page is mapped to where its screen is. -/
def Framed (d : Display) : Prop := ∀ t, d.paging.termFrame t = d.base t

theorem Framed.remap (h : d.Framed) (hr : Remap d d') : d'.Framed := by
  cases hr with
  | quiet hp hc =>
    intro t
    rw [hp, base, hc]
    exact h t
  | user pa => exact h
  | switch t => exact termFrame_switchScreen h t

theorem Framed.remaps (h : d.Framed) (hr : Remaps d d') : d'.Framed := by
  induction hr with
  | refl => exact h
  | tail _ hr ih => exact ih.remap hr

/-- `map_video`, on the whole display. -/
def mapVideo (d : Display) : Display :=
  { d with paging := d.paging.mapVideo d.currentTerminal d.activeTerminal }

theorem Framed.mapVideo (h : d.Framed) : d.mapVideo.Framed := by
  intro t
  have hne : pageArr t >>> shift ≠ (mb132 >>> shift) &&& mask10Bits := by
    rw [pageArr_shiftRight, show (mb132 >>> shift) &&& mask10Bits = 0 from rfl]
    omega
  refine Eq.trans ?_ (h t)
  simp only [Display.mapVideo, Paging.termFrame, Paging.mapVideo, Function.update_of_ne hne]

end Display

namespace Kernel

variable {fs : FileSystem} {k k' : Kernel}

theorem Executed.remaps {command : Option (List UInt8)} {junk : List UInt8} {o : Outcome}
    (h : Executed fs command junk k o k') : Display.Remaps k.display k'.display := by
  -- The new process's page, and the program in memory.
  have hloaded (phys : Nat → UInt8) :
      Display.Remaps k.display ((k.prepare (argsOf command)).loaded phys).display :=
    .tail (.single (.user _)) (.quiet rfl rfl)
  cases h with
  | fail => exact .refl
  | start _ _ _ phys =>
    rw [commit_eq rfl rfl]
    exact hloaded phys
  | overflow _ _ phys =>
    refine .tail ((hloaded phys).trans ?_) (.user _)
    exact Display.Remaps.of_control (Display.control_terminalWrite _ _)

/-- Whether an event is a `c_vidmap` call that succeeds. -/
def mapsVideo : Event → Bool
  | .call (.vidmap screenStart) => decide (mb128 ≤ screenStart ∧ screenStart < mb132)
  | _ => false

theorem Effect.remaps {c : Call} (h : Effect k c k') (hc : ∀ screenStart, c ≠ .vidmap screenStart) :
    Display.Remaps k.display k'.display := by
  cases h with
  | output => exact .of_control (Display.control_terminalWrite _ _)
  | video screenStart heq => exact absurd heq (hc _)
  | _ => exact .refl

theorem call_remaps {c : Call} {r : Int × Option Buf} (h : k.call fs c = some (k', r)) :
    (mapsVideo (.call c) = false ∧ Display.Remaps k.display k'.display) ∨
      (mapsVideo (.call c) = true ∧ Display.Remaps k.display.mapVideo k'.display) := by
  cases c with
  | vidmap screenStart =>
    obtain ⟨rfl, -⟩ := Prod.mk.inj (Option.some.inj h)
    rw [cVidmap, mapsVideo]
    split
    · exact Or.inl ⟨decide_eq_false (by omega), .refl⟩
    · exact Or.inr ⟨decide_eq_true (by omega), .single (.quiet rfl rfl)⟩
  | _ => exact Or.inl ⟨rfl, (call_effect h).remaps fun _ hc => by cases hc⟩

/-- **What an event does to the page tables.** -/
theorem step_remaps {e : Event} (h : k.step fs e = some k') :
    (mapsVideo e = false ∧ Display.Remaps k.display k'.display) ∨
      (mapsVideo e = true ∧ Display.Remaps k.display.mapVideo k'.display) := by
  obtain ⟨o, hm⟩ := step_moves h
  cases hm with
  | execute hx => exact Or.inl ⟨rfl, hx.remaps⟩
  | exit =>
    refine Or.inl ⟨rfl, .single ?_⟩
    rw [← display_haltRelease k]
    exact .user _
  | respawn _ _ hx =>
    have hr := hx.remaps
    rw [display_haltRelease] at hr
    exact Or.inl ⟨rfl, hr⟩
  | vacate _ _ hx =>
    have hr := hx.remaps
    rw [display_haltRelease] at hr
    exact Or.inl ⟨rfl, hr.tail (.user _)⟩
  | rest => exact Or.inl ⟨rfl, .refl⟩
  | tick => exact Or.inl ⟨rfl, .tail (.single (.user _)) (.quiet rfl rfl)⟩
  | key hq => exact Or.inl ⟨rfl, .of_control hq.control⟩
  | switch t => exact Or.inl ⟨rfl, k.display.remaps_switch t⟩
  | @launch _ _ fr _ _ _ t _ _ _ hx =>
    have hat : Display.Remaps k.display
        ({ k with display := k.display.cursorWrapper 1 }.atTerminal t fr).display := by
      refine (k.display.remaps_switch t).tail (.quiet ?_ ?_) <;> rfl
    exact Or.inl ⟨rfl, hat.trans hx.remaps⟩
  | turn hq => exact Or.inl ⟨rfl, .of_control hq.control⟩
  | call hc => exact call_remaps hc

/-- **The page tables under any run**: what `init_paging` sets up and the other functions of
`paging.c` keep. -/
theorem paging_of_run {P : Paging → Prop} (hinit : ∀ addr aligned, P (.init addr aligned))
    (huser : ∀ pg pa, P pg → P (pg.remapPaging pa))
    (hterm : ∀ pg t e he, P pg → P (pg.setTerm t e he))
    (hvideo : ∀ pg current active, P pg → P (pg.mapVideo current active)) {b : Boot}
    {es : List Event} (hrun : Runs.run (step fs) b.kernel es = some k) : P k.display.paging := by
  refine Runs.run_invariant (I := fun k : Kernel => P k.display.paging) ?_
    (hinit b.tablesAddr b.aligned) hrun
  intro k e k' hk hs
  rcases step_remaps hs with ⟨-, hr⟩ | ⟨-, hr⟩
  · exact hr.keep huser hterm hk
  · exact hr.keep huser hterm (hvideo _ _ _ hk)

theorem framed_boot (b : Boot) : b.kernel.display.Framed :=
  fun t => Paging.termFrame_init b.tablesAddr b.aligned t

theorem framed_step {e : Event} (hf : k.display.Framed) (h : k.step fs e = some k') :
    k'.display.Framed := by
  rcases step_remaps h with ⟨-, hr⟩ | ⟨-, hr⟩
  · exact hf.remaps hr
  · exact hf.mapVideo.remaps hr

theorem framed_of_run {b : Boot} {es : List Event}
    (h : Runs.run (step fs) b.kernel es = some k) : k.display.Framed :=
  Runs.run_invariant (I := fun k => k.display.Framed) (fun _ _ _ hf hk => framed_step hf hk)
    (framed_boot b) h

end Kernel

/-! ## The two output paths -/

namespace Display

variable {d d' : Display} {t : Term}

/-- A terminal's page and video memory are one, where the terminal is displayed. -/
theorem translate_displayed (h : d.paging.termFrame t = video) {off : Nat} (hoff : off < 4096) :
    d.paging.translate (pageArr t + off) = d.paging.translate (video + off) := by
  have hpage := d.paging.maps_pageArr t off hoff
  rw [h] at hpage
  exact hpage.trans (d.paging.maps_video off hoff).symm

theorem putAt_displayed (h : d.paging.termFrame t = video) (hs : d.OnScreen t) (c : UInt8) :
    d.putAt (pageArr t) t c = d.putAt video t c := by
  obtain ⟨hx, hy⟩ := hs
  unfold numCols at hx
  unfold numRows at hy
  have hoff : (numCols * d.screenY t + d.screenX t) <<< 1 + 1 < 4096 := by
    rw [numCols, Nat.shiftLeft_eq]
    omega
  unfold putAt cellAddr store MappedMemory.store
  rw [Nat.add_assoc (pageArr t), Nat.add_assoc video]
  rw [translate_displayed h hoff, translate_displayed h (Nat.lt_of_succ_lt hoff)]

theorem videoTemp_displayed (h : d.paging.termFrame t = video) :
    d.videoTemp (pageArr t) = d.videoTemp video := by
  funext i
  unfold videoTemp load MappedMemory.load
  split
  · rfl
  split
  · next hi =>
    rw [translate_displayed h]
    rw [noLastRow] at hi
    rw [charNumber, Nat.shiftLeft_eq]
    omega
  · rfl

theorem scrollAt_displayed (h : d.paging.termFrame t = video) :
    d.scrollAt (pageArr t) t = d.scrollAt video t := by
  have hstore : ∀ i < videoElems, d.paging.translate (pageArr t + i) =
      d.paging.translate (video + i) :=
    fun i hi => translate_displayed h (Nat.lt_trans hi (by decide))
  rw [scrollAt, storeBytes, videoTemp_displayed h, MappedMemory.storeRange_congr hstore]
  rfl

/-- The two ways to the screen: `putc` and `scroll`, or `putc_number_2` and `scroll_2`. -/
inductive Path
  | output
  | echo

/-- A character or a scroll. -/
inductive Stroke
  | put (c : UInt8)
  | scroll

/-- A character or a scroll, by one of the paths. -/
def stroke (d : Display) : Path × Stroke → Display
  | (.output, .put c) => d.putc c
  | (.output, .scroll) => d.scroll
  | (.echo, .put c) => d.putcNumber2 c
  | (.echo, .scroll) => d.scroll2

/-- Characters and scrolls, each by its path. -/
def strokes (d : Display) (l : List (Path × Stroke)) : Display := l.foldl stroke d

/-- Every stroke finds the displayed cursor on the screen. -/
def StaysOnScreen : Display → List (Path × Stroke) → Prop
  | _, [] => True
  | d, s :: l => d.OnScreen d.currentTerminal ∧ StaysOnScreen (d.stroke s) l

theorem control_stroke (d : Display) (s : Path × Stroke) : (d.stroke s).control = d.control := by
  obtain ⟨path, stroke⟩ := s
  cases path <;> cases stroke
  · exact d.control_putc _
  · exact d.control_scroll
  · exact d.control_putcNumber2 _
  · exact d.control_scroll2

/-- The active terminal is the displayed one, and its page is video memory. -/
structure Displayed (d : Display) : Prop where
  active : d.activeTerminal = d.currentTerminal
  frame : d.paging.termFrame d.currentTerminal = video

theorem Displayed.of_control (h : d.Displayed) (hc : d'.control = d.control) : d'.Displayed := by
  refine ⟨?_, ?_⟩
  · rw [activeTerminal_of_control hc, currentTerminal_of_control hc, h.active]
  · rw [paging_of_control hc, currentTerminal_of_control hc, h.frame]

theorem Framed.displayed (h : d.Framed) (hact : d.activeTerminal = d.currentTerminal) :
    d.Displayed := ⟨hact, (h d.currentTerminal).trans (if_pos rfl)⟩

theorem Displayed.putc_eq (h : d.Displayed) (hs : d.OnScreen d.currentTerminal) (c : UInt8) :
    d.putc c = d.putcNumber2 c := by
  rw [putc, h.active, putAt_displayed h.frame hs, putcNumber2]

theorem Displayed.scroll_eq (h : d.Displayed) : d.scroll = d.scroll2 := by
  rw [scroll, h.active, scrollAt_displayed h.frame, scroll2]

/-- The path does not matter. -/
theorem Displayed.stroke_eq (h : d.Displayed) (hs : d.OnScreen d.currentTerminal) (p p' : Path)
    (s : Stroke) : d.stroke (p, s) = d.stroke (p', s) := by
  cases p <;> cases p' <;> cases s
  case output.echo.put c => exact h.putc_eq hs c
  case output.echo.scroll => exact h.scroll_eq
  case echo.output.put c => exact (h.putc_eq hs c).symm
  case echo.output.scroll => exact h.scroll_eq.symm
  all_goals rfl

/-- Nor does it for any interleaving. -/
theorem Displayed.strokes_eq {l l' : List (Path × Stroke)} (h : d.Displayed)
    (hl : l.map Prod.snd = l'.map Prod.snd) (hs : d.StaysOnScreen l) :
    d.strokes l = d.strokes l' := by
  induction l generalizing d l' with
  | nil =>
    rw [List.map_nil, eq_comm, List.map_eq_nil_iff] at hl
    rw [hl]
  | cons s l ih =>
    obtain ⟨s', l', rfl, hss, hl⟩ := List.map_eq_cons_iff.mp hl.symm
    have hstroke : d.stroke s = d.stroke s' := by
      obtain ⟨p', stroke'⟩ := s'
      subst hss
      exact h.stroke_eq hs.1 s.1 p' s.2
    rw [strokes, strokes, List.foldl_cons, List.foldl_cons, ← hstroke]
    exact ih (h.of_control (d.control_stroke s)) hl.symm hs.2

end Display

/-- **The two output paths are one.**  In every state reached where the active terminal is the
displayed one, whatever is on the screens and wherever the cursors are on them: a character has the
same effect by either path, so has a scroll, and so has any interleaving of both, whichever path
each of them takes. -/
theorem Kernel.paths_agree (fs : FileSystem) (b : Boot) (es : List Event) (k : Kernel)
    (h : Runs.run (Kernel.step fs) b.kernel es = some k)
    (hact : k.display.activeTerminal = k.display.currentTerminal) (d : Display)
    (hd : d.control = k.display.control) :
    (d.OnScreen d.currentTerminal → ∀ c, d.putc c = d.putcNumber2 c) ∧ d.scroll = d.scroll2 ∧
      ∀ l l' : List (Display.Path × Display.Stroke), l.map Prod.snd = l'.map Prod.snd →
        d.StaysOnScreen l → d.strokes l = d.strokes l' := by
  have hdis : d.Displayed := (framed_of_run h).displayed hact |>.of_control hd
  exact ⟨fun hs c => hdis.putc_eq hs c, hdis.scroll_eq, fun _ _ hl hs => hdis.strokes_eq hl hs⟩

/-- A character of output and one of echo, in either order of paths, after a shell was launched and
the second terminal displayed. -/
theorem Kernel.paths_agree_switched : ∃ k,
    Runs.run (Kernel.step shellDisk) Boot.zero.kernel
      [.execute (some shell) ⟨1, 2⟩ [], .key 1 alt ⟨3, 4⟩ [], .key 1 f2 ⟨3, 4⟩ []] = some k ∧
    k.display.currentTerminal = 1 ∧
    k.display.strokes [(.output, .put 97), (.echo, .put 98)] =
      k.display.strokes [(.echo, .put 97), (.output, .put 98)] := by
  have hrun : (Runs.run (Kernel.step shellDisk) Boot.zero.kernel
      [.execute (some shell) ⟨1, 2⟩ [], .key 1 alt ⟨3, 4⟩ [], .key 1 f2 ⟨3, 4⟩ []]).map
        (fun k => (k.display.currentTerminal, k.display.activeTerminal,
          decide (k.display.OnScreen k.display.currentTerminal),
          let d := k.display.stroke (.output, .put 97)
          decide (d.OnScreen d.currentTerminal))) = some (1, 1, true, true) := by
    decide +kernel
  obtain ⟨k, hk, hend⟩ := Option.map_eq_some_iff.mp hrun
  simp only [Prod.mk.injEq, decide_eq_true_eq] at hend
  obtain ⟨hcurrent, hactive, hfirst, hsecond⟩ := hend
  have hagree := paths_agree shellDisk Boot.zero _ k hk (hactive.trans hcurrent.symm) _ rfl
  exact ⟨k, hk, hcurrent, hagree.2.2 _ _ rfl ⟨hfirst, hsecond, trivial⟩⟩

/-! ## The page of `c_vidmap` -/

/-- The page a `c_vidmap` call maps, for the terminals displayed and active at the call. -/
def screenPage (current active : Term) : Nat := if current = active then video else pageArr active

theorem screenPage_aligned (current active : Term) : screenPage current active % 4096 = 0 := by
  rw [screenPage, pageArr_eq, video]
  split <;> omega

namespace Paging

variable {pg : Paging}

/-- The entries behind `MB_132`. -/
def window (pg : Paging) : Nat × Nat × Nat :=
  (pg.directory (mb132 >>> entryIdx), pg.tables ((mb132 >>> shift) &&& mask10Bits), pg.tablesAddr)

/-- The entries as a call leaves them. -/
def Shows (pg : Paging) (page : Nat) : Prop :=
  pg.window = (pg.tablesAddr ||| urwp, page ||| urwp, pg.tablesAddr)

theorem entry_mapVideo (current active : Term) :
    (if current = active then video ||| urwp else pageArr active ||| urwp) =
      screenPage current active ||| urwp := by
  rw [screenPage]
  split <;> rfl

theorem shows_mapVideo (pg : Paging) (current active : Term) :
    (pg.mapVideo current active).Shows (screenPage current active) := by
  simp only [Shows, window, mapVideo, Function.update_self, entry_mapVideo]

theorem window_remapPaging (pg : Paging) (pa : Nat) : (pg.remapPaging pa).window = pg.window := by
  simp only [window]
  rw [directory_remapPaging_of_ne _ _ (by decide)]
  rfl

theorem window_setTerm (pg : Paging) (t : Term) (e : Nat) (h) :
    (pg.setTerm t e h).window = pg.window := by
  have hne : (mb132 >>> shift) &&& mask10Bits ≠ pageArr t >>> shift := by
    rw [pageArr_shiftRight, show (mb132 >>> shift) &&& mask10Bits = 0 from rfl]
    omega
  simp only [window, setTerm, Function.update_of_ne hne]

theorem Shows.of_window {pg' : Paging} {page : Nat} (h : pg.Shows page)
    (hw : pg'.window = pg.window) : pg'.Shows page := by
  have haddr : pg'.tablesAddr = pg.tablesAddr := congrArg (fun w => w.2.2) hw
  rw [Shows, hw, haddr]
  exact h

theorem Shows.translate {page : Nat} (h : pg.Shows page) (hp : page % 4096 = 0) {off : Nat}
    (hoff : off < 4096) : pg.translate (mb132 + off) = some (page + off) := by
  obtain ⟨hdir, htab⟩ := Prod.mk.inj h
  have htab : pg.tables ((mb132 >>> shift) &&& mask10Bits) = page ||| urwp := (Prod.mk.inj htab).1
  have hal := pg.aligned
  have hentry : (mb132 + off) / 2 ^ 22 = mb132 >>> entryIdx := by
    rw [show mb132 >>> entryIdx = 33 from rfl, mb132]
    omega
  have hidx : (mb132 + off) / 4096 % 1024 = (mb132 >>> shift) &&& mask10Bits := by
    rw [show (mb132 >>> shift) &&& mask10Bits = 0 from rfl, mb132]
    omega
  have hrest : (mb132 + off) % 4096 = off := by
    rw [mb132]
    omega
  rw [Paging.translate, hentry, hdir, hidx, htab, hrest, or_of_aligned hal (by decide),
    or_of_aligned hp (by decide), urwp]
  simp only
  rw [if_neg (by omega), if_neg (by omega), if_pos (by omega), if_neg (by omega)]
  exact congrArg some (by omega)

end Paging

theorem Display.window_switchScreen (d : Display) (t : Term) :
    (d.switchScreen t).paging.window = d.paging.window := by
  change ((d.paging.remapTermBefore d.currentTerminal).remapTerm t).window = d.paging.window
  rw [Paging.remapTerm, Paging.window_setTerm, Paging.remapTermBefore, Paging.window_setTerm]

theorem Display.Remaps.window {d d' : Display} (h : Display.Remaps d d') :
    d'.paging.window = d.paging.window := by
  induction h with
  | refl => rfl
  | tail _ hr ih =>
    rw [← ih]
    cases hr with
    | quiet hp _ => rw [hp]
    | user pa => exact Paging.window_remapPaging _ pa
    | switch t => exact Display.window_switchScreen _ t

/-- The calls of `c_vidmap` so far: which processes have made one, and the displayed and the active
terminal at the last. -/
structure VidmapHistory where
  called : Nat → Bool
  last : Option (Term × Term)

namespace Kernel

variable {fs : FileSystem} {k k' : Kernel}

/-- The calls after an event; a new process has made none. -/
def noteVidmap (fs : FileSystem) (k : Kernel) (e : Event) (k' : Kernel) (h : VidmapHistory) :
    VidmapHistory :=
  if mapsVideo e then
    ⟨Function.update h.called k.running true,
      some (k.display.currentTerminal, k.display.activeTerminal)⟩
  else
    match k.transition fs e with
    | some (_, .started _) => { h with called := Function.update h.called k'.running false }
    | _ => h

/-- The page of the last call is mapped, for every process. -/
structure Windowed (k : Kernel) (h : VidmapHistory) : Prop where
  shows : ∀ current active, h.last = some (current, active) →
    k.display.paging.Shows (screenPage current active)
  called : ∀ p, h.called p = true → h.last ≠ none

theorem Windowed.step {e : Event} {h : VidmapHistory} (hw : k.Windowed h)
    (hk : k.step fs e = some k') : k'.Windowed (noteVidmap fs k e k' h) := by
  rw [noteVidmap]
  rcases step_remaps hk with ⟨hno, hr⟩ | ⟨hyes, hr⟩
  · -- The page stays, and at most a new process enters.
    have hshows : ∀ current active, h.last = some (current, active) →
        k'.display.paging.Shows (screenPage current active) :=
      fun current active hl => (hw.shows current active hl).of_window hr.window
    rw [if_neg (by rw [hno]; exact Bool.false_ne_true)]
    split
    · refine ⟨hshows, fun p hp => hw.called p ?_⟩
      dsimp only at hp
      rcases eq_or_ne p k'.running with rfl | hne
      · rw [Function.update_self] at hp
        cases hp
      · rwa [Function.update_of_ne hne] at hp
    · exact ⟨hshows, hw.called⟩
  · rw [if_pos hyes]
    refine ⟨fun current active hl => ?_, fun _ _ hc => by cases hc⟩
    obtain ⟨rfl, rfl⟩ := Prod.mk.inj (Option.some.inj hl)
    exact (Paging.shows_mapVideo _ _ _).of_window hr.window

theorem windowed_of_run {b : Boot} {es : List Event} {h : VidmapHistory}
    (hrun : Runs.run (Runs.withGhost (step fs) (noteVidmap fs)) (b.kernel, ⟨fun _ => false, none⟩)
      es = some (k, h)) : k.Windowed h := by
  refine Runs.run_invariant (I := fun s : Kernel × VidmapHistory => s.1.Windowed s.2) ?_ ?_ hrun
  · rintro ⟨k, h⟩ e ⟨k', h'⟩ hw hs
    obtain ⟨hk, rfl⟩ := Runs.withGhost_eq_some.mp hs
    exact hw.step hk
  · refine ⟨fun _ _ hl => ?_, fun _ hp => ?_⟩
    · cases hl
    · cases hp

/-- **Where a program that called `c_vidmap` draws.**  In every state reached, the page at `MB_132`
is the screen of the running process's terminal, if the process has called `c_vidmap`, exactly when
the last call of any process was made for that same page. -/
theorem vidmap_iff (fs : FileSystem) (b : Boot) (es : List Event) (k : Kernel) (h : VidmapHistory)
    (hrun : Runs.run (Runs.withGhost (step fs) (noteVidmap fs)) (b.kernel, ⟨fun _ => false, none⟩)
      es = some (k, h)) :
    (h.called k.running = true → ∀ off < 4096, k.display.paging.translate (mb132 + off) =
        some (k.display.base k.display.activeTerminal + off)) ↔
      (h.called k.running = true → ∃ current active, h.last = some (current, active) ∧
        screenPage current active = k.display.base k.display.activeTerminal) := by
  have hw := windowed_of_run hrun
  refine imp_congr_right fun hcalled => ?_
  obtain ⟨⟨current, active⟩, hlast⟩ := Option.ne_none_iff_exists'.mp (hw.called _ hcalled)
  have htrans (off : Nat) (hoff : off < 4096) := (hw.shows current active hlast).translate
    (screenPage_aligned current active) hoff
  constructor
  · intro hp
    have h₀ := (htrans 0 (by decide)).symm.trans (hp 0 (by decide))
    exact ⟨current, active, hlast, Option.some.inj h₀⟩
  · rintro ⟨current', active', hlast', hpage⟩ off hoff
    obtain ⟨rfl, rfl⟩ := Prod.mk.inj (Option.some.inj (hlast.symm.trans hlast'))
    rw [htrans off hoff, hpage]

/-- A shell that calls `c_vidmap` on the displayed terminal, and the first switch to the second
terminal after it. -/
def drawAndSwitch : List Event :=
  [.execute (some shell) ⟨0, 0⟩ [], .call (.vidmap mb128), .key 1 alt ⟨0, 0⟩ [],
    .key 1 f2 ⟨0, 0⟩ []]

/-- Before the switch the shell draws on its own screen. -/
theorem vidmap_iff_displayed : ∃ k h,
    Runs.run (Runs.withGhost (step shellDisk) (noteVidmap shellDisk))
      (Boot.zero.kernel, ⟨fun _ => false, none⟩) (drawAndSwitch.take 2) = some (k, h) ∧
    k.running = 1 ∧ k.display.paging.translate mb132 = some (k.display.base 0) := by
  have hrun : (Runs.run (Runs.withGhost (step shellDisk) (noteVidmap shellDisk))
      (Boot.zero.kernel, ⟨fun _ => false, none⟩) (drawAndSwitch.take 2)).map
        (fun s => (s.1.running, s.2.called 1, s.2.last, s.1.display.activeTerminal,
          s.1.display.currentTerminal)) = some (1, true, some (0, 0), 0, 0) := by
    decide +kernel
  obtain ⟨⟨k, h⟩, hk, hs⟩ := Option.map_eq_some_iff.mp hrun
  simp only [Prod.mk.injEq] at hs
  obtain ⟨hr, hcalled, hlast, hact, hcur⟩ := hs
  have hiff := vidmap_iff shellDisk Boot.zero _ k h hk
  rw [hr, hcalled, hlast, hact] at hiff
  have hpage : screenPage 0 0 = k.display.base 0 := by
    rw [Display.base, hcur]
    rfl
  exact ⟨k, h, hk, hr, hiff.mpr (fun _ => ⟨0, 0, rfl, hpage⟩) rfl 0 (by decide)⟩

/-- When the timer has gone back to it, with the second terminal displayed, it draws on the screen
of the second. -/
theorem vidmap_stale : ∃ k h,
    Runs.run (Runs.withGhost (step shellDisk) (noteVidmap shellDisk))
      (Boot.zero.kernel, ⟨fun _ => false, none⟩) (drawAndSwitch ++ [.tick ⟨0, 0⟩]) = some (k, h) ∧
    k.running = 1 ∧ h.called 1 = true ∧ k.display.activeTerminal = 0 ∧
    k.display.currentTerminal = 1 ∧ k.display.paging.translate mb132 = some video ∧
    k.display.base 0 ≠ video ∧ k.display.base 1 = video := by
  have hrun : (Runs.run (Runs.withGhost (step shellDisk) (noteVidmap shellDisk))
      (Boot.zero.kernel, ⟨fun _ => false, none⟩) (drawAndSwitch ++ [.tick ⟨0, 0⟩])).map
        (fun s => (s.1.running, s.2.called 1, s.1.display.activeTerminal,
          s.1.display.currentTerminal, s.1.display.paging.translate mb132)) =
      some (1, true, 0, 1, some video) := by
    decide +kernel
  obtain ⟨⟨k, h⟩, hk, hs⟩ := Option.map_eq_some_iff.mp hrun
  simp only [Prod.mk.injEq] at hs
  obtain ⟨hr, hcalled, hact, hcur, hpage⟩ := hs
  refine ⟨k, h, hk, hr, hcalled, hact, hcur, hpage, ?_, ?_⟩
  · rw [Display.base, hcur]
    decide
  · rw [Display.base, hcur]
    rfl

end Kernel

end HarambeOs
