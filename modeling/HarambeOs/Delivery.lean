import HarambeOs.Lines

/-!
# Delivery — which line a `terminal_read` gets

Enter copies the displayed terminal's line to `read` and sets that terminal's flag; a
`terminal_read` on the active terminal waits for the flag and takes `read`.  The flags are one for
each terminal, the array is one for all of them.

A history keeps the line each terminal's readers are owed.  As long as nobody presses Enter or
Ctrl-4 while another terminal's line waits for its reader, every read delivers the line its terminal
is owed (`Kernel.line_delivered`).  Otherwise a reader gets another terminal's line
(`Kernel.line_misdelivered`).
-/

namespace HarambeOs

/-- The line each terminal's readers are owed: the last one entered there, until a reader has it. -/
abbrev Owed := Term → Option (Fin numberCodes → UInt8)

/-- A key that is not Enter leaves the line handed over alone. -/
theorem Editor.strike_of_ne {e d : Editor} {t : Term} {s : Keystroke} (hs : s ≠ .enter)
    (h : e.strike t s = some d) : d.entFlag = e.entFlag ∧ d.read = e.read := by
  have hset {e' d' : Editor} {i : Nat} {c : UInt8} (h : e'.setBuffer t i c = some d') :
      d'.entFlag = e'.entFlag ∧ d'.read = e'.read := by
    unfold setBuffer at h
    split at h
    · rw [← Option.some.inj h]
      exact ⟨rfl, rfl⟩
    · cases h
  have hkeep (h : some e = some d) : d.entFlag = e.entFlag ∧ d.read = e.read := by
    rw [← Option.some.inj h]
    exact ⟨rfl, rfl⟩
  cases s with
  | char c =>
    rw [strike] at h
    split at h
    · obtain ⟨d', hd', rfl⟩ := Option.map_eq_some_iff.mp h
      have hd := hset hd'
      exact hd
    · exact hkeep h
  | erase =>
    rw [strike] at h
    split at h
    · obtain ⟨d', hd', rfl⟩ := Option.map_eq_some_iff.mp h
      have hd := hset hd'
      exact hd
    · exact hkeep h
  | enter => exact absurd rfl hs
  | ignored => exact hkeep h

/-- Only Enter is Enter. -/
theorem Editor.keystroke_ne_enter {e : Editor} {scan : UInt8} (h : scan ≠ enter) :
    e.keystroke scan ≠ .enter := by
  unfold keystroke
  split_ifs <;> nofun

/-- At most one line waits, and it is what its terminal is owed. -/
structure Owing (e : Editor) (o : Owed) : Prop where
  line : ∀ t, e.entFlag t = true → o t = some e.read
  alone : ∀ t u, e.entFlag t = true → e.entFlag u = true → t = u

theorem Owing.congr {e d : Editor} {o : Owed} (h : Owing e o) (hent : d.entFlag = e.entFlag)
    (hread : d.read = e.read) : Owing d o := by
  refine ⟨?_, ?_⟩
  · rw [hent, hread]
    exact h.line
  · rw [hent]
    exact h.alone

theorem Owing.of_unset {e : Editor} (o : Owed) (h : ∀ t, e.entFlag t = false) : Owing e o := by
  have hne (t : Term) : e.entFlag t ≠ true := fun ht => Bool.false_ne_true ((h t).symm.trans ht)
  exact ⟨fun t ht => absurd ht (hne t), fun t _ ht => absurd ht (hne t)⟩

/-- Enter, while no other line waits. -/
theorem Owing.enterLine {e : Editor} {t : Term} (o : Owed)
    (h : ∀ u, u ≠ t → e.entFlag u = false) :
    Owing (e.enterLine t) (Function.update o t (some (e.buffer t))) := by
  have hset (u : Term) (hu : (e.enterLine t).entFlag u = true) : u = t := by
    by_contra hne
    have : Function.update e.entFlag t true u = true := hu
    rw [Function.update_of_ne hne, h u hne] at this
    cases this
  refine ⟨fun u hu => ?_, fun u v hu hv => (hset u hu).trans (hset v hv).symm⟩
  rw [hset u hu]
  exact Function.update_self ..

/-- A reader takes the only line that waits. -/
theorem Owing.takeLine {e : Editor} {o : Owed} (h : Owing e o) {t : Term}
    (ht : e.entFlag t = true) : Owing (e.takeLine t) (Function.update o t none) := by
  refine .of_unset _ fun u => ?_
  rcases eq_or_ne u t with rfl | hne
  · exact Function.update_self ..
  · refine (Function.update_of_ne hne _ _).trans (Bool.eq_false_iff.mpr fun hu => ?_)
    exact hne (h.alone u t hu ht)

namespace Kernel

variable {fs : FileSystem} {k k' : Kernel}

/-- What the readers are owed after an event. -/
def noteOwed (k : Kernel) (e : Event) (_ : Kernel) (o : Owed) : Owed :=
  match e with
  | .key .. =>
    if k.struck e = some enter then
      Function.update o k.display.currentTerminal
        (some (k.editor.buffer k.display.currentTerminal))
    else o
  | .call c => if k.readsTerminal c then Function.update o k.display.activeTerminal none else o
  | _ => o

/-- Enter comes only while no other terminal's line waits, Ctrl-4 only while none does. -/
def ReadFirst (r : Kernel × Owed) (e : Event) : Prop :=
  (r.1.struck e = some enter →
    ∀ t, t ≠ r.1.display.currentTerminal → r.1.editor.entFlag t = false) ∧
  (r.1.combined e = some four → ∀ t, r.1.editor.entFlag t = false)

instance (r : Kernel × Owed) (e : Event) : Decidable (ReadFirst r e) := by
  unfold ReadFirst
  infer_instance

theorem noteOwed_enter {e : Event} (hs : k.struck e = some enter) (k' : Kernel) (o : Owed) :
    k.noteOwed e k' o = Function.update o k.display.currentTerminal
      (some (k.editor.buffer k.display.currentTerminal)) := by
  cases e with
  | key => exact if_pos hs
  | _ => cases hs

/-- Nothing but Enter and a read changes what is owed. -/
theorem noteOwed_of_ne {e : Event} (hs : k.struck e ≠ some enter)
    (hr : ∀ c, e = .call c → k.readsTerminal c = false) (k' : Kernel) (o : Owed) :
    k.noteOwed e k' o = o := by
  cases e with
  | key => exact if_neg hs
  | call c => exact if_neg (Bool.eq_false_iff.mp (hr c rfl))
  | _ => rfl

/-- A combination with Ctrl strikes no key, and is no call. -/
theorem struck_of_combined {e : Event} {scan : UInt8} (h : k.combined e = some scan) :
    k.struck e = none ∧ ∀ c, e ≠ .call c := by
  cases e with
  | key status scan' fr junk =>
    refine ⟨if_neg fun hs => hs.2.2.1 ?_, nofun⟩
    by_contra hc
    rw [combined, if_neg fun hc' => hc hc'.2.2] at h
    cases h
  | _ => cases h

/-- **One event keeps the debts.** -/
theorem owing_step {e : Event} {o : Owed} (ho : Owing k.editor o) (hg : ReadFirst (k, o) e)
    (h : k.step fs e = some k') : Owing k'.editor (k.noteOwed e k' o) := by
  obtain ⟨henter, hfour⟩ := hg
  have hedit := edit_step h
  generalize k'.editor = d at hedit ⊢
  cases hedit with
  | keep hs _ hr hd =>
    rw [noteOwed_of_ne (by rw [hs]; nofun) hr]
    exact ho.congr (congrArg (fun l => l.2.2.1) hd) (congrArg (fun l => l.2.2.2) hd)
  | @strike _ scan _ hs hd =>
    by_cases hscan : scan = enter
    · rw [hscan] at hs hd
      rw [keystroke_enter] at hd
      rw [noteOwed_enter hs, ← Option.some.inj hd]
      exact .enterLine o (henter hs)
    · have hcall (c : Call) (he : e = .call c) : k.readsTerminal c = false := by
        rw [he] at hs
        cases hs
      rw [noteOwed_of_ne (fun he => hscan (Option.some.inj (hs.symm.trans he))) hcall]
      obtain ⟨hent, hread⟩ := Editor.strike_of_ne (Editor.keystroke_ne_enter hscan) hd
      exact ho.congr hent hread
  | @combine _ scan _ hc hent hread =>
    by_cases hscan : scan = four
    · rw [hscan] at hc
      refine .of_unset _ fun t => ?_
      rw [hent]
      exact hfour hc t
    · obtain ⟨hs, hcall⟩ := struck_of_combined hc
      rw [noteOwed_of_ne (by rw [hs]; nofun) fun c he => absurd he (hcall c)]
      exact ho.congr hent (hread hscan)
  | @take c hr hent =>
    rw [show k.noteOwed (.call c) k' o = Function.update o k.display.activeTerminal none from
      if_pos hr]
    exact ho.takeLine hent

/-- **Lines are delivered where they were typed.**  In a run in which Enter and Ctrl-4 come only
while no other line waits, a `terminal_read` that completes delivers the line its terminal is owed:
the last one entered there, which no reader has had. -/
theorem line_delivered (fs : FileSystem) (b : Boot) (es : List Event) (k : Kernel) (o : Owed)
    (hrun : Runs.run (Runs.withGhost (Kernel.step fs) noteOwed) (b.kernel, fun _ => none) es =
      some (k, o))
    (hg : Runs.Guarded (Runs.withGhost (Kernel.step fs) noteOwed) ReadFirst
      (b.kernel, fun _ => none) es) (buf beyond : Buf) (nbytes : Int) (k' : Kernel) (r : Int × Buf)
    (hread : k.terminalRead buf nbytes beyond = some (k', r)) :
    ∃ line, o k.display.activeTerminal = some line ∧
      ∀ j (hj : j < numberCodes), (j : Int) < nbytes → r.2 j = line ⟨j, hj⟩ := by
  have ho : Owing k.editor o := by
    refine Runs.run_guarded (I := fun r : Kernel × Owed => Owing r.1.editor r.2) ?_
      (.of_unset _ fun _ => rfl) hg hrun
    rintro ⟨k₁, o₁⟩ e ⟨k₂, o₂⟩ ho he h
    obtain ⟨hk, rfl⟩ := Runs.withGhost_eq_some.mp h
    exact owing_step ho he hk
  obtain ⟨hent, -, hbytes⟩ := terminalRead_eq_some hread
  exact ⟨k.editor.read, ho.line _ hent, hbytes⟩

/-- `b` is entered and read on the first terminal; then the second one's shell is launched and `a`
entered there. -/
def twoLines : List Event :=
  [.execute (some shell) ⟨1, 2⟩ [], .key 1 0x30 ⟨3, 4⟩ [], .key 1 enter ⟨3, 4⟩ [],
    .call (.read 0 (some fun _ => nul) 128 fun _ => nul), .key 1 alt ⟨3, 4⟩ [],
    .key 1 f2 ⟨3, 4⟩ [], .key 1 0x1E ⟨3, 4⟩ [], .key 1 enter ⟨3, 4⟩ []]

/-- The reader on the second terminal gets the `a`. -/
theorem line_delivered_two :
    ∃ k o k' r, Runs.run (Runs.withGhost (Kernel.step shellDisk) noteOwed)
        (Boot.zero.kernel, fun _ => none) twoLines = some (k, o) ∧
      k.display.activeTerminal = 1 ∧
      k.terminalRead (fun _ => nul) 128 (fun _ => nul) = some (k', r) ∧ r.2 0 = 97 ∧
      ∃ line, o 1 = some line ∧ line ⟨0, by decide⟩ = 97 := by
  have hrun : ((Runs.run (Runs.withGhost (Kernel.step shellDisk) noteOwed)
      (Boot.zero.kernel, fun _ => none) twoLines).bind fun s =>
        (s.1.terminalRead (fun _ => nul) 128 (fun _ => nul)).map fun r =>
          (s.1.display.activeTerminal, r.2.2 0)) = some (1, 97) := by
    decide +kernel
  obtain ⟨⟨k, o⟩, hk, hrun⟩ := Option.bind_eq_some_iff.mp hrun
  obtain ⟨⟨k', r⟩, hr, hend⟩ := Option.map_eq_some_iff.mp hrun
  obtain ⟨hactive, h97⟩ := Prod.mk.inj hend
  have hg : Runs.Guarded (Runs.withGhost (Kernel.step shellDisk) noteOwed) ReadFirst
      (Boot.zero.kernel, fun _ => none) twoLines := Runs.guarded_of_check (by decide +kernel)
  obtain ⟨line, hline, hbytes⟩ :=
    line_delivered shellDisk Boot.zero twoLines k o hk hg _ _ _ k' r hr
  exact ⟨k, o, k', r, hk, hactive, hr, h97, line, hactive ▸ hline,
    (hbytes 0 (by decide) (by decide)).symm.trans h97⟩

/-- The second terminal's shell is launched; `b` is entered there, and `a` on the first terminal
before the second one's process has read. -/
def crossedLines : List Event :=
  [.execute (some shell) ⟨1, 2⟩ [], .key 1 alt ⟨3, 4⟩ [], .key 1 f2 ⟨3, 4⟩ [],
    .key 1 0x30 ⟨3, 4⟩ [], .key 1 enter ⟨3, 4⟩ [], .key 1 f1 ⟨3, 4⟩ [], .key 1 0x1E ⟨3, 4⟩ [],
    .key 1 enter ⟨3, 4⟩ []]

/-- The reader on the second terminal, which is owed `b`, gets the first one's `a`. -/
theorem line_misdelivered :
    ((Runs.run (Runs.withGhost (Kernel.step shellDisk) noteOwed)
      (Boot.zero.kernel, fun _ => none) crossedLines).bind fun s =>
        (s.1.terminalRead (fun _ => nul) 128 (fun _ => nul)).map fun r =>
          (s.1.display.activeTerminal, (s.2 1).map (· ⟨0, by decide⟩),
            (s.2 0).map (· ⟨0, by decide⟩), r.2.2 0)) =
      some (1, some 98, some 97, 97) := by
  decide +kernel

end Kernel

end HarambeOs
