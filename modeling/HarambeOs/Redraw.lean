import HarambeOs.Echo
import HarambeOs.Keys
import HarambeOs.Vidmap

/-!
# Redraw — Ctrl-L

Ctrl-L clears the screen and writes the line of the displayed terminal to its first cells.  The
handler hands `control_l` the two-dimensional array cast to an array of pointers.  So the line is
read from the address that four bytes of the first terminal's line make up (`bufferPtr`), and a NUL
found there is skipped.  `redraw_iff` says when the cells show the line all the same, and
`redraw_faults` that a first terminal's line of four characters or more never is shown.
-/

namespace HarambeOs

namespace Display

variable {d d' : Display} {line : Nat → UInt8} {ptr n : Nat}

/-! ## The loop of `control_l` -/

/-- Memory with the screen blank but for its first `n` cells, which show `line`. -/
def showing (d : Display) (line : Nat → UInt8) (n a : Nat) : UInt8 :=
  if video ≤ a ∧ a < video + videoElems then
    if (a - video) % 2 = 1 then attrib
    else if (a - video) / 2 < n then line ((a - video) / 2)
    else space
  else d.phys a

/-- What a blank cell shows after a byte was written to it by `control_l`, which skips NUL. -/
def shownAs (b : UInt8) : UInt8 := if b = nul then space else b

/-- The read for cell `j`, with the cells before it drawn, gives the line's character. -/
def Yields (d : Display) (ptr : Nat) (line : Nat → UInt8) (j : Nat) : Prop :=
  ∃ pa, d.paging.translate ((ptr + j) % 2 ^ 32) = some pa ∧ shownAs (d.showing line j pa) = line j

instance (d : Display) (ptr : Nat) (line : Nat → UInt8) (j : Nat) :
    Decidable (d.Yields ptr line j) :=
  decidable_of_iff ((d.paging.translate ((ptr + j) % 2 ^ 32)).any
    fun pa => shownAs (d.showing line j pa) = line j) (by simp [Yields, Option.any_eq_true])

theorem showing_cell {i : Nat} (hi : i < numRows * numCols) :
    d.showing line n (video + 2 * i) = if i < n then line i else space := by
  rw [numRows, numCols] at hi
  have hodd : ¬ (video + 2 * i - video) % 2 = 1 := by omega
  have hcell : (video + 2 * i - video) / 2 = i := by omega
  rw [showing, if_pos ⟨Nat.le_add_right .., by rw [videoElems]; omega⟩, if_neg hodd, hcell]

theorem showing_attribute {i : Nat} (hi : i < numRows * numCols) :
    d.showing line n (video + 2 * i + 1) = attrib := by
  rw [numRows, numCols] at hi
  have hodd : (video + 2 * i + 1 - video) % 2 = 1 := by omega
  rw [showing, if_pos ⟨by omega, by rw [videoElems]; omega⟩, if_pos hodd]

/-- The next cell drawn. -/
theorem showing_succ (hn : n < numRows * numCols) :
    Function.update (d.showing line n) (video + 2 * n) (line n) = d.showing line (n + 1) := by
  funext a
  rcases eq_or_ne a (video + 2 * n) with rfl | ha
  · rw [Function.update_self, showing_cell hn, if_pos (Nat.lt_succ_self n)]
  · rw [Function.update_of_ne ha, showing, showing]
    split_ifs <;> first | rfl | omega

theorem clear_eq (d : Display) (line : Nat → UInt8) :
    d.clear.phys = d.showing line 0 := by
  funext a
  have hmaps := d.paging.maps_video.mono (show 2 * (numRows * numCols) ≤ 4096 by decide)
  refine (MappedMemory.storeRange_apply hmaps _ a).trans ?_
  rw [showing]
  simp only [Nat.not_lt_zero, if_false]
  rfl

/-- A turn of the loop. -/
def drawCell (d : Display) (n pa : Nat) : Display :=
  if d.phys pa ≠ nul then d.store (video + (n <<< 1)) (d.phys pa) else d

theorem controlL_succ (d : Display) (ptr n : Nat) :
    d.controlL ptr (n + 1) = (d.controlL ptr n).bind fun d' =>
      (d'.paging.translate ((ptr + n) % 2 ^ 32)).map (d'.drawCell n) := by
  rw [controlL]
  refine congrArg (Option.bind (d.controlL ptr n)) (funext fun d' => ?_)
  cases d'.paging.translate ((ptr + n) % 2 ^ 32) with
  | none => rfl
  | some pa =>
    change (if d'.phys pa ≠ nul then some _ else some d') = some (d'.drawCell n pa)
    rw [drawCell]
    split <;> rfl

/-- A turn writes its own cell. -/
theorem phys_drawCell {pa i : Nat} (hn : n < numRows * numCols) (hi : i ≠ n) :
    (d.drawCell n pa).phys (video + 2 * i) = d.phys (video + 2 * i) := by
  rw [numRows, numCols] at hn
  rw [drawCell]
  split
  · rw [Nat.shiftLeft_eq, store_video (by rw [videoElems]; omega)]
    exact Function.update_of_ne (by omega) ..
  · rfl

/-- A turn on a screen drawn so far. -/
theorem drawCell_showing {pa : Nat} (hn : n < numRows * numCols) (hd : d'.phys = d.showing line n) :
    d'.drawCell n pa = { d' with
      phys := Function.update (d.showing line n) (video + 2 * n)
        (shownAs (d.showing line n pa)) } := by
  have hlt := hn
  rw [numRows, numCols] at hlt
  rw [drawCell, shownAs, ← hd]
  split
  · rw [Nat.shiftLeft_eq, Nat.mul_comm, store_video (by rw [videoElems]; omega)]
  · next hb =>
    have hblank : d'.phys (video + 2 * n) = space := by
      rw [hd, showing_cell hn, if_neg (Nat.lt_irrefl n)]
    rw [if_pos (not_not.mp hb), ← hblank, Function.update_eq_self]

/-- **The loop draws the line** where every read gives its character. -/
theorem controlL_of_yields (hn : n ≤ numRows * numCols) (h : ∀ j < n, d.Yields ptr line j) :
    d.clear.controlL ptr n = some { d.clear with phys := d.showing line n } := by
  induction n with
  | zero => rw [controlL, ← d.clear_eq line]
  | succ n ih =>
    obtain ⟨pa, hpa, hshown⟩ := h n (Nat.lt_succ_self n)
    rw [controlL_succ, ih (Nat.le_of_succ_le hn) fun j hj => h j (Nat.lt_succ_of_lt hj),
      Option.bind_some]
    rw [show d.clear.paging.translate _ = some pa from hpa, Option.map_some,
      drawCell_showing hn rfl, hshown, showing_succ hn]

/-- …and nowhere else. -/
theorem yields_of_controlL (hn : n ≤ numRows * numCols) (h : d.clear.controlL ptr n = some d')
    (hcells : ∀ j < n, d'.phys (video + 2 * j) = line j) : ∀ j < n, d.Yields ptr line j := by
  induction n generalizing d' with
  | zero => exact fun j hj => absurd hj (Nat.not_lt_zero j)
  | succ n ih =>
    rw [controlL_succ] at h
    obtain ⟨d₁, hd₁, h⟩ := Option.bind_eq_some_iff.mp h
    obtain ⟨pa, hpa, rfl⟩ := Option.map_eq_some_iff.mp h
    have hbefore : ∀ j < n, d.Yields ptr line j := by
      refine ih (Nat.le_of_succ_le hn) hd₁ fun j hj => ?_
      rw [← phys_drawCell hn (Nat.ne_of_lt hj)]
      exact hcells j (Nat.lt_succ_of_lt hj)
    have hdrawn := controlL_of_yields (Nat.le_of_succ_le hn) hbefore
    obtain rfl := Option.some.inj (hd₁.symm.trans hdrawn)
    intro j hj
    rcases Nat.lt_succ_iff_lt_or_eq.mp hj with hj | rfl
    · exact hbefore j hj
    · refine ⟨pa, hpa, ?_⟩
      rw [← hcells j (Nat.lt_succ_self j), drawCell_showing hn rfl]
      dsimp only
      rw [Function.update_self]

/-- A first read that faults. -/
theorem controlL_eq_none (h : d.paging.translate (ptr % 2 ^ 32) = none) (hn : n ≠ 0) :
    d.controlL ptr n = none := by
  induction n with
  | zero => exact absurd rfl hn
  | succ n ih =>
    rw [controlL_succ]
    rcases eq_or_ne n 0 with rfl | hn
    · rw [controlL, Option.bind_some, Nat.add_zero, h]
      rfl
    · rw [ih hn]
      rfl

end Display

namespace Kernel

variable {fs : FileSystem} {k k' : Kernel}

/-! ## The key -/

/-- The line of the displayed terminal, as it stands in its array. -/
def pending (k : Kernel) (j : Nat) : UInt8 :=
  if h : j < numberCodes then k.editor.buffer k.display.currentTerminal ⟨j, h⟩ else nul

/-- The screen is blank but for the line of the displayed terminal in its first cells, the cursor is
behind the line, and lines and other cursors are as before. -/
structure Redrawn (k k' : Kernel) : Prop where
  line : ∀ i < k.editor.lineCount k.display.currentTerminal,
    k'.display.phys (video + 2 * i) = k.pending i
  blank : ∀ i < numRows * numCols, k.editor.lineCount k.display.currentTerminal ≤ i →
    k'.display.phys (video + 2 * i) = space
  attributes : ∀ i < numRows * numCols, k'.display.phys (video + 2 * i + 1) = attrib
  column : k'.display.screenX k.display.currentTerminal =
    k.editor.lineCount k.display.currentTerminal % numCols
  row : k'.display.screenY k.display.currentTerminal =
    k.editor.lineCount k.display.currentTerminal / numCols
  others : ∀ u, u ≠ k.display.currentTerminal →
    k'.display.screenX u = k.display.screenX u ∧ k'.display.screenY u = k.display.screenY u
  editor : k'.editor = k.editor

theorem step_ctrlL {status : UInt8} (hst : status ≠ 0) (hctrl : k.editor.controlFlag = true)
    (fr : Frame) (junk : List UInt8) :
    k.step fs (.key status keyL fr junk) =
      ((k.display.cursorWrapper 1).clear.controlL (k.editor.bufferPtr k.display.currentTerminal)
        (k.editor.lineCount k.display.currentTerminal)).map fun d =>
          { k with display :=
            (d.setScroll (k.editor.lineCount k.display.currentTerminal)).cursorWrapper 1 } := by
  have htest : k.editor.controlFlag = true ∧ isTestKey keyL = true := ⟨hctrl, rfl⟩
  have hkeys : k.keyboard fs status keyL fr junk =
      (testKey fs keyL { k with display := k.display.cursorWrapper 1 }).map
        fun k => (k, .returned 0) := by
    rw [keyboard, if_neg hst, if_neg (by decide), if_pos htest]
  rw [step, transition, hkeys, Option.map_map, testKey, if_pos rfl, Option.map_map]
  rfl

/-- **Ctrl-L.**  Whatever terminal is displayed and whatever line of at most 128 characters it has:
the key comes back with the line redrawn, the cursor behind it and all else as it was, exactly when
each of the line's characters is what `control_l` reads for it through the cast pointer. -/
theorem redraw_iff (fs : FileSystem) (k : Kernel) (hctrl : k.editor.controlFlag = true)
    (hn : k.editor.lineCount k.display.currentTerminal ≤ numberCodes) {status : UInt8}
    (hst : status ≠ 0) (fr : Frame) (junk : List UInt8) :
    (∃ k', k.step fs (.key status keyL fr junk) = some k' ∧ k.Redrawn k') ↔
      ∀ j < k.editor.lineCount k.display.currentTerminal,
        k.display.Yields (k.editor.bufferPtr k.display.currentTerminal) k.pending j := by
  have hcells : k.editor.lineCount k.display.currentTerminal ≤ numRows * numCols :=
    hn.trans (by decide)
  rw [step_ctrlL hst hctrl]
  constructor
  · rintro ⟨k', hk', hredrawn⟩
    obtain ⟨d, hd, rfl⟩ := Option.map_eq_some_iff.mp hk'
    exact Display.yields_of_controlL (d := k.display.cursorWrapper 1) hcells hd hredrawn.line
  · intro h
    rw [Display.controlL_of_yields (d := k.display.cursorWrapper 1) hcells h]
    refine ⟨_, rfl, fun i hi => ?_, fun i hi hle => ?_, fun i hi => Display.showing_attribute hi,
      ?_, Function.update_self .., fun u hu => ?_, rfl⟩
    · exact (Display.showing_cell (hi.trans_le hcells)).trans (if_pos hi)
    · exact (Display.showing_cell hi).trans (if_neg (Nat.not_lt.mpr hle))
    · exact (Function.update_self ..).trans Nat.mod_eq_sub_div_mul.symm
    · exact ⟨(Function.update_of_ne hu ..).trans (Function.update_of_ne hu ..),
        (Function.update_of_ne hu ..).trans (Function.update_of_ne hu ..)⟩

/-- Memory in which an `@` happens to stand where the line `"  @"` points its third read. -/
def luckyBoot : Boot := { Boot.zero with phys := fun a => if a = 0x402022 then 0x40 else 0 }

theorem redraw_lucky : ∃ k k',
    Runs.run (Kernel.step shellDisk) luckyBoot.kernel
      (([0x39, 0x39, rightShiftPressed, two, ctrl]).map pressed) = some k ∧
    k.editor.lineCount 0 = 3 ∧ k.step shellDisk (pressed keyL) = some k' ∧ k.Redrawn k' := by
  have hrun : (Runs.run (Kernel.step shellDisk) luckyBoot.kernel
      (([0x39, 0x39, rightShiftPressed, two, ctrl]).map pressed)).map (fun k =>
        decide (k.display.currentTerminal = 0 ∧ k.editor.lineCount 0 = 3 ∧
          k.editor.controlFlag = true ∧
          ∀ j : Fin 3, k.display.Yields (k.editor.bufferPtr 0) k.pending j)) = some true := by
    decide +kernel
  obtain ⟨k, hk, hfacts⟩ := Option.map_eq_some_iff.mp hrun
  obtain ⟨hcur, hcount, hctrl, hyields⟩ := of_decide_eq_true hfacts
  have hn : k.editor.lineCount k.display.currentTerminal = 3 := by rw [hcur, hcount]
  have hst : (1 : UInt8) ≠ 0 := by decide
  obtain ⟨k', hk', hredrawn⟩ := (redraw_iff shellDisk k hctrl (by rw [hn]; decide) hst ⟨0, 0⟩
    []).mpr (by rw [hn, hcur]; exact fun j hj => hyields ⟨j, hj⟩)
  exact ⟨k, k', hk, hcount, hk', hredrawn⟩

/-- `a` and then Ctrl-L: the pointer is `0x61`, in a page that is not present. -/
theorem ctrlL_faults : ∃ k,
    Runs.run (Kernel.step shellDisk) Boot.zero.kernel (([0x1E, ctrl]).map pressed) = some k ∧
    k.editor.controlFlag = true ∧ k.editor.lineCount 0 = 1 ∧ k.editor.bufferPtr 0 = 0x61 ∧
    k.display.currentTerminal = 0 ∧ k.step shellDisk (pressed keyL) = none := by
  have hrun : (Runs.run (Kernel.step shellDisk) Boot.zero.kernel
      (([0x1E, ctrl]).map pressed)).map (fun k =>
        decide (k.editor.controlFlag = true ∧ k.editor.lineCount 0 = 1 ∧
          k.editor.bufferPtr 0 = 0x61 ∧ k.display.currentTerminal = 0 ∧
          (k.step shellDisk (pressed keyL)).isNone)) = some true := by
    decide +kernel
  obtain ⟨k, hk, hfacts⟩ := Option.map_eq_some_iff.mp hrun
  obtain ⟨hctrl, hcount, hptr, hcur, hnone⟩ := of_decide_eq_true hfacts
  exact ⟨k, hk, hctrl, hcount, hptr, hcur, Option.isNone_iff_eq_none.mp hnone⟩

end Kernel

/-! ## Lines of four characters

Of the directory entries from 34 on none is ever present, and what is typed is printable.  So four
characters of the first terminal's line make up an address that is not mapped. -/

/-- Nothing is mapped from 136 MB on. -/
def Paging.Ends (pg : Paging) : Prop := ∀ i, 34 ≤ i → pg.directory i % 2 = 0

namespace Paging

variable {pg : Paging}

theorem ends_init (tablesAddr : Nat) (aligned : tablesAddr % 4096 = 0) :
    (init tablesAddr aligned).Ends := by
  intro i hi
  rw [init]
  dsimp only
  rw [Function.update_of_ne (by omega), Function.update_of_ne (by omega)]
  rfl

theorem Ends.remapPaging (h : pg.Ends) (pa : Nat) : (pg.remapPaging pa).Ends := by
  intro i hi
  have hne : i ≠ mb128 >>> entryIdx := by
    rw [show mb128 >>> entryIdx = 32 from rfl]
    omega
  rw [directory_remapPaging_of_ne _ _ hne]
  exact h i hi

theorem Ends.mapVideo (h : pg.Ends) (current active : Term) :
    (pg.mapVideo current active).Ends := by
  intro i hi
  rw [directory_mapVideo_apply, if_neg (by omega)]
  exact h i hi

theorem Ends.translate_eq_none (h : pg.Ends) {va : Nat} (hva : 34 * 2 ^ 22 ≤ va) :
    pg.translate va = none :=
  if_pos (h _ ((Nat.le_div_iff_mul_le (by decide)).mpr hva))

end Paging

theorem Editor.bufferPtr_lt (e : Editor) (t : Term) : e.bufferPtr t < 2 ^ 32 := by
  have hbyte (j) := (e.buffer 0 j).toNat_lt
  have h0 := hbyte ⟨4 * t, by rw [numberCodes]; omega⟩
  have h1 := hbyte ⟨4 * t + 1, by rw [numberCodes]; omega⟩
  have h2 := hbyte ⟨4 * t + 2, by rw [numberCodes]; omega⟩
  have h3 := hbyte ⟨4 * t + 3, by rw [numberCodes]; omega⟩
  rw [bufferPtr]
  omega

/-- What stands in the arrays is NUL or printable. -/
def Editor.Printable (e : Editor) : Prop := ∀ t j, e.buffer t j = nul ∨ 32 ≤ (e.buffer t j).toNat

theorem Editor.Printable.congr {e e' : Editor} (h : e.Printable) (hb : e'.buffer = e.buffer) :
    e'.Printable := by
  intro t j
  rw [hb]
  exact h t j

/-- One terminal's array changed. -/
theorem Editor.Printable.update {e e' : Editor} (h : e.Printable) {t : Term}
    {cells : Fin numberCodes → UInt8} (hb : e'.buffer = Function.update e.buffer t cells)
    (hcells : ∀ j, cells j = nul ∨ 32 ≤ (cells j).toNat) : e'.Printable := by
  intro u j
  rw [hb, Function.update_apply]
  split
  · exact hcells j
  · exact h u j

/-- One cell of it. -/
theorem Editor.Printable.set {e e' : Editor} (h : e.Printable) {t : Term} {i : Fin numberCodes}
    {c : UInt8} (hb : e'.buffer = Function.update e.buffer t (Function.update (e.buffer t) i c))
    (hc : c = nul ∨ 32 ≤ c.toNat) : e'.Printable := by
  refine h.update hb fun j => ?_
  rw [Function.update_apply]
  split
  · exact hc
  · exact h t j

theorem Editor.Printable.strike {e e' : Editor} (h : e.Printable) {t : Term} {scan : UInt8}
    (he : e.strike t (e.keystroke scan) = some e') : e'.Printable := by
  cases hkey : e.keystroke scan with
  | char c =>
    rw [hkey, Editor.strike] at he
    split at he
    · next hn =>
      rw [e.append_eq hn] at he
      obtain rfl := Option.some.inj he
      obtain ⟨-, hscan, rfl, -⟩ := Editor.keystroke_eq_char hkey
      exact h.set rfl ((e.print_entry scan).resolve_left hscan)
    · exact Option.some.inj he ▸ h
  | erase =>
    rw [hkey, Editor.strike] at he
    split at he
    · obtain ⟨e₁, he₁, rfl⟩ := Option.map_eq_some_iff.mp he
      unfold Editor.setBuffer at he₁
      split at he₁
      · obtain rfl := Option.some.inj he₁
        exact h.set rfl (Or.inl rfl)
      · cases he₁
    · exact Option.some.inj he ▸ h
  | enter =>
    rw [hkey] at he
    obtain rfl := Option.some.inj he
    exact h.update rfl fun _ => Or.inl rfl
  | ignored =>
    rw [hkey] at he
    exact Option.some.inj he ▸ h

namespace Kernel

variable {fs : FileSystem} {k k' : Kernel}

theorem printable_step {e : Event} (hk : k.editor.Printable) (h : k.step fs e = some k') :
    k'.editor.Printable := by
  cases hc : k.combined e with
  | none =>
    have hedit := edit_step h
    generalize k'.editor = d at hedit ⊢
    cases hedit with
    | keep _ _ _ hd => exact hk.congr (congrArg Prod.fst hd)
    | strike _ hd => exact hk.strike hd
    | combine hc' => exact absurd (hc.symm.trans hc') (Option.some_ne_none _).symm
    | take => exact hk
  | some scan =>
    have hbuf := (arrays_combined hc h).2
    split at hbuf
    · exact hk.update hbuf fun _ => Or.inl rfl
    · exact hk.congr hbuf

/-- **A line of four characters on the first terminal** is never redrawn: in every state reached
the four are an address that is not mapped, and the handler does not return. -/
theorem redraw_faults {b : Boot} {es : List Event} (hrun : Runs.run (step fs) b.kernel es = some k)
    (hctrl : k.editor.controlFlag = true) (hcur : k.display.currentTerminal = 0)
    (hn : k.editor.lineCount 0 ≠ 0) (hfourth : k.editor.buffer 0 ⟨3, by decide⟩ ≠ nul)
    {status : UInt8} (hst : status ≠ 0) (fr : Frame) (junk : List UInt8) :
    k.step fs (.key status keyL fr junk) = none := by
  have hprint : k.editor.Printable :=
    Runs.run_invariant (I := fun k : Kernel => k.editor.Printable)
      (fun _ _ _ hk h => printable_step hk h) (fun _ _ => Or.inl rfl) hrun
  have hends : k.display.paging.Ends :=
    paging_of_run Paging.ends_init (fun _ pa h => h.remapPaging pa) (fun _ _ _ _ h => h)
      (fun _ current active h => h.mapVideo current active) hrun
  have hhigh : 32 * 2 ^ 24 ≤ k.editor.bufferPtr 0 := by
    have hle := (hprint 0 ⟨3, by decide⟩).resolve_left hfourth
    exact (Nat.mul_le_mul_right _ hle).trans (Nat.le_add_left ..)
  have hnone : k.display.paging.translate (k.editor.bufferPtr 0 % 2 ^ 32) = none := by
    rw [Nat.mod_eq_of_lt (k.editor.bufferPtr_lt 0)]
    exact hends.translate_eq_none (Nat.le_trans (by decide) hhigh)
  rw [step_ctrlL hst hctrl, hcur,
    Display.controlL_eq_none (d := (k.display.cursorWrapper 1).clear) hnone hn]
  rfl

end Kernel

end HarambeOs
