import HarambeOs.Mappings

/-!
# Vidmap — what else `c_vidmap` maps

`map_video` puts the page at `MB_132` into the page table that covers the low 4 MB, and points
directory entry 33 at that table.  So the page at address 0 changes with it, and the other pages of
the low 4 MB appear above `MB_132`.  `Paging.walk` is the whole of the processor's walk, with the
user bit; `frame_mapVideo_iff` compares every address before and after, and
**`Kernel.cVidmap_frame_iff`** adds the store through `screen_start`.
-/

namespace HarambeOs

namespace Paging

variable {pg : Paging}

/-- A page as an entry `pte` of a page table gives it, under the directory entry `pde`: its frame,
and whether a program may use it. -/
def leaf (pde pte : Nat) : Option (Nat × Bool) :=
  if pte % 2 = 0 then none else some (pte / 4096 * 4096, pde / 4 % 2 = 1 && pte / 4 % 2 = 1)

/-- A directory entry that leads to `tables`. -/
def Refers (pg : Paging) (i : Nat) : Prop :=
  pg.directory i % 2 = 1 ∧ pg.directory i / 128 % 2 = 0 ∧
    pg.directory i / 4096 = pg.tablesAddr / 4096

/-- Page `j` of directory entry `i`. -/
def page (pg : Paging) (i j : Nat) : Option (Nat × Bool) :=
  let pde := pg.directory i
  if pde % 2 = 0 then none
  else if pde / 128 % 2 = 1 then some (pde / 2 ^ 22 * 2 ^ 22 + j * 4096, pde / 4 % 2 = 1)
  else if pde / 4096 = pg.tablesAddr / 4096 then leaf pde (pg.tables j)
  else none

/-- The processor's walk: physical address and user permission, `none` where the page is not
present. -/
def walk (pg : Paging) (va : Nat) : Option (Nat × Bool) :=
  (pg.page (va / 2 ^ 22) (va / 4096 % 1024)).map fun r => (r.1 + va % 4096, r.2)

/-- The walk, without the permission. -/
theorem walk_fst (pg : Paging) (va : Nat) : (pg.walk va).map Prod.fst = pg.translate va := by
  have hsplit : va % 2 ^ 22 = va / 4096 % 1024 * 4096 + va % 4096 := by omega
  rw [walk, page, translate, leaf, hsplit, Option.map_map]
  dsimp only
  split_ifs <;> simp [Nat.add_assoc]

theorem page_of_refers {i : Nat} (h : pg.Refers i) (j : Nat) :
    pg.page i j = leaf (pg.directory i) (pg.tables j) := by
  obtain ⟨hpresent, hsize, haddr⟩ := h
  rw [page, if_neg (by omega), if_neg (by omega), if_pos haddr]

/-- Entry 0 leads to `tables`. -/
theorem refers_zero (pg : Paging) : pg.Refers 0 := by
  have hal := pg.aligned
  rw [Refers, pg.low, or_rwp hal]
  omega

/-- The walk at the first address of a page. -/
theorem walk_page (pg : Paging) (i : Nat) {j : Nat} (hj : j < 1024) :
    pg.walk (i * 2 ^ 22 + j * 4096) = pg.page i j := by
  have hi : (i * 2 ^ 22 + j * 4096) / 2 ^ 22 = i := by omega
  have hmid : (i * 2 ^ 22 + j * 4096) / 4096 % 1024 = j := by omega
  have hlow : (i * 2 ^ 22 + j * 4096) % 4096 = 0 := by omega
  rw [walk, hi, hmid, hlow]
  cases pg.page i j <;> rfl

/-- Two states of the page tables agree outside the page at `MB_132` when they do page by page. -/
theorem walk_congr_iff (pg pg' : Paging) :
    (∀ va < 2 ^ 32, ¬ (mb132 ≤ va ∧ va < mb132 + 4096) → pg'.walk va = pg.walk va) ↔
      ∀ i < 1024, ∀ j < 1024, ¬ (i = 33 ∧ j = 0) → pg'.page i j = pg.page i j := by
  constructor
  · intro h i hi j hj hne
    rw [← pg.walk_page i hj, ← pg'.walk_page i hj]
    exact h _ (by omega) (by rw [mb132]; omega)
  · intro h va hva hne
    rw [mb132] at hne
    rw [walk, walk, h (va / 2 ^ 22) (by omega) (va / 4096 % 1024) (by omega) (by omega)]

/-! ## The entries `map_video` sets -/

theorem tables_mapVideo (pg : Paging) (current active : Term) (j : Nat) :
    (pg.mapVideo current active).tables j =
      if j = 0 then screenPage current active ||| urwp else pg.tables j := by
  rw [← entry_mapVideo]
  exact Function.update_apply ..

theorem directory_mapVideo_apply (pg : Paging) (current active : Term) (i : Nat) :
    (pg.mapVideo current active).directory i =
      if i = 33 then pg.tablesAddr ||| urwp else pg.directory i := Function.update_apply ..

/-- An entry as `map_video` writes it is present, for programs too. -/
theorem leaf_urwp (pde : Nat) {screen : Nat} (h : screen % 4096 = 0) :
    leaf pde (screen ||| urwp) = some (screen, decide (pde / 4 % 2 = 1)) := by
  rw [or_of_aligned h (by decide), leaf, urwp, if_neg (by omega),
    show (screen + 7) / 4096 * 4096 = screen by omega,
    decide_eq_true (show (screen + 7) / 4 % 2 = 1 by omega), Bool.and_true]

theorem refers_mapVideo (pg : Paging) (current active : Term) :
    (pg.mapVideo current active).Refers 33 := by
  have hal := pg.aligned
  rw [Refers, directory_mapVideo_apply, if_pos rfl, or_of_aligned hal (by decide), urwp]
  exact ⟨by omega, by omega, by change _ = pg.tablesAddr / 4096; omega⟩

/-- A directory entry that does not lead to `tables` gives the same pages, whatever is in it. -/
theorem page_mapVideo_of_not_refers {i : Nat} (hi : i ≠ 33) (h : ¬ pg.Refers i)
    (current active : Term) (j : Nat) :
    (pg.mapVideo current active).page i j = pg.page i j := by
  rw [page, page, directory_mapVideo_apply, if_neg hi]
  split
  · rfl
  split
  · rfl
  have haddr : pg.directory i / 4096 ≠ pg.tablesAddr / 4096 :=
    fun haddr => h ⟨by omega, by omega, haddr⟩
  rw [if_neg haddr]
  exact if_neg haddr

theorem page_mapVideo_of_refers {i : Nat} (hi : i ≠ 33) (h : pg.Refers i) (current active : Term)
    (j : Nat) : (pg.mapVideo current active).page i j = leaf (pg.directory i)
      (if j = 0 then screenPage current active ||| urwp else pg.tables j) := by
  have h' : (pg.mapVideo current active).Refers i := by
    rw [Refers, directory_mapVideo_apply, if_neg hi]
    exact h
  rw [page_of_refers h', tables_mapVideo, directory_mapVideo_apply, if_neg hi]

theorem page_mapVideo_window (pg : Paging) (current active : Term) {j : Nat} (hj : j ≠ 0) :
    (pg.mapVideo current active).page 33 j = leaf (pg.tablesAddr ||| urwp) (pg.tables j) := by
  rw [page_of_refers (refers_mapVideo ..), tables_mapVideo, directory_mapVideo_apply, if_pos rfl,
    if_neg hj]

/-- The walks that `map_video` leaves alone outside its page: every other directory entry that leads
to `tables` has the new page at its beginning already, and entry 33 gives the pages after the first
as `tables` does. -/
structure Aliased (pg : Paging) (screen : Nat) : Prop where
  low : ∀ i < 1024, i ≠ 33 → pg.Refers i →
    leaf (pg.directory i) (pg.tables 0) = some (screen, decide (pg.directory i / 4 % 2 = 1))
  window : ∀ j < 1024, j ≠ 0 → pg.page 33 j = leaf (pg.tablesAddr ||| urwp) (pg.tables j)

/-- **Which walks `map_video` changes.** -/
theorem frame_mapVideo_iff (pg : Paging) (current active : Term) :
    (∀ va < 2 ^ 32, ¬ (mb132 ≤ va ∧ va < mb132 + 4096) →
      (pg.mapVideo current active).walk va = pg.walk va) ↔
      pg.Aliased (screenPage current active) := by
  have hal := screenPage_aligned current active
  rw [walk_congr_iff]
  constructor
  · intro h
    refine ⟨fun i hi hne href => ?_, fun j hj hne => ?_⟩
    · have hpage := h i hi 0 (by decide) fun h33 => hne h33.1
      rw [page_mapVideo_of_refers hne href, if_pos rfl, leaf_urwp _ hal, page_of_refers href]
        at hpage
      exact hpage.symm
    · rw [← h 33 (by decide) j hj fun h0 => hne h0.2, page_mapVideo_window _ _ _ hne]
  · intro h i hi j hj hne
    by_cases h33 : i = 33
    · subst h33
      have hj0 : j ≠ 0 := fun h0 => hne ⟨rfl, h0⟩
      rw [page_mapVideo_window _ _ _ hj0, h.window j hj hj0]
    by_cases href : pg.Refers i
    · rw [page_mapVideo_of_refers h33 href, page_of_refers href]
      split
      · next h0 => rw [leaf_urwp _ hal, h0, h.low i hi h33 href]
      · rfl
    · exact page_mapVideo_of_not_refers h33 href ..

/-! ## The states reached

Of the directory entries only 0 and 33 ever lead to `tables`, so there the condition is that the
page is mapped to the screen already. -/

/-- The directory as the functions of `paging.c` leave it. -/
structure Tidy (pg : Paging) : Prop where
  refers : ∀ i, i ≠ 0 → i ≠ 33 → ¬ pg.Refers i
  window : pg.directory 33 = rwOnly ∨ ∃ screen, screen % 4096 = 0 ∧ pg.Shows screen

theorem Shows.directory {screen : Nat} (h : pg.Shows screen) :
    pg.directory 33 = pg.tablesAddr ||| urwp := (Prod.mk.inj h).1

theorem Shows.tables {screen : Nat} (h : pg.Shows screen) : pg.tables 0 = screen ||| urwp :=
  (Prod.mk.inj (Prod.mk.inj h).2).1

theorem Tidy.aliased_iff (h : pg.Tidy) {screen : Nat} (hal : screen % 4096 = 0) :
    pg.Aliased screen ↔ pg.Shows screen := by
  constructor
  · intro ha
    rcases h.window with hw | ⟨old, hold, hw⟩
    · -- Video memory is there below 4 MB, so it would have to be above `MB_132`.
      have hvideo := ha.window (video >>> shift) (by decide) (by decide)
      rw [page, hw, pg.videoPage] at hvideo
      cases hvideo
    · have hlow := ha.low 0 (by decide) (by decide) pg.refers_zero
      rw [hw.tables, leaf_urwp _ hold] at hlow
      obtain rfl : old = screen := (Prod.mk.inj (Option.some.inj hlow)).1
      exact hw
  · intro hs
    have href : pg.Refers 33 := by
      have hpg := pg.aligned
      rw [Refers, hs.directory, or_of_aligned hpg (by decide), urwp]
      omega
    refine ⟨fun i _ h33 hi => ?_, fun j _ _ => ?_⟩
    · obtain rfl : i = 0 := by
        by_contra h0
        exact h.refers i h0 h33 hi
      rw [hs.tables, leaf_urwp _ hal]
    · rw [page_of_refers href, hs.directory]

theorem tidy_init (tablesAddr : Nat) (aligned : tablesAddr % 4096 = 0) :
    (init tablesAddr aligned).Tidy := by
  refine ⟨fun i h0 _ hr => ?_, Or.inl rfl⟩
  obtain ⟨hpresent, hsize, -⟩ := hr
  simp only [init, Function.update_apply, if_neg h0] at hpresent hsize
  split at hpresent
  · next h1 =>
    rw [if_pos h1] at hsize
    exact absurd hsize (by decide)
  · exact absurd hpresent (by decide)

/-- The user page is one of 4 MB, so its entry leads to no table. -/
theorem Tidy.remapPaging (h : pg.Tidy) (pa : Nat) : (pg.remapPaging pa).Tidy := by
  refine ⟨fun i h0 h33 hr => ?_, ?_⟩
  · by_cases hi : i = mb128 >>> entryIdx
    · subst hi
      have hsize := hr.2.1
      rw [directory_remapPaging] at hsize
      have hbit : (pa ||| flags).testBit 7 = true := by
        rw [Nat.testBit_or, show flags.testBit 7 = true by decide, Bool.or_true]
      rw [Nat.testBit_eq_decide_div_mod_eq, decide_eq_true_eq] at hbit
      omega
    · refine h.refers i h0 h33 ?_
      rw [Refers, directory_remapPaging_of_ne _ _ hi] at hr
      exact hr
  · rw [directory_remapPaging_of_ne _ _ (by decide)]
    exact h.window.imp_right fun ⟨screen, hal, hs⟩ =>
      ⟨screen, hal, hs.of_window (pg.window_remapPaging pa)⟩

theorem Tidy.setTerm (h : pg.Tidy) (t : Term) (e : Nat) (he) : (pg.setTerm t e he).Tidy :=
  ⟨h.refers, h.window.imp_right fun ⟨screen, hal, hs⟩ =>
    ⟨screen, hal, hs.of_window (pg.window_setTerm t e he)⟩⟩

theorem Tidy.mapVideo (h : pg.Tidy) (current active : Term) :
    (pg.mapVideo current active).Tidy := by
  refine ⟨fun i h0 h33 hr => h.refers i h0 h33 ?_, Or.inr ⟨_, screenPage_aligned current active,
    pg.shows_mapVideo current active⟩⟩
  rw [Refers, directory_mapVideo_apply, if_neg h33] at hr
  exact hr

end Paging

namespace Kernel

/-- **What `c_vidmap` leaves alone.**  For every pointer it accepts, a call leaves the walk of every
address outside the page at `MB_132` as it was, and stores inside the user page, exactly when the
walks it would change give the new pages already and the pointer has four bytes before `MB_132`. -/
theorem cVidmap_frame_iff (k : Kernel) {screenStart : Nat} (hlow : mb128 ≤ screenStart)
    (hhigh : screenStart < mb132) :
    ((∀ va < 2 ^ 32, ¬ (mb132 ≤ va ∧ va < mb132 + 4096) →
        (k.cVidmap screenStart).1.display.paging.walk va = k.display.paging.walk va) ∧
      ∀ i < 4, mb128 ≤ screenStart + i ∧ screenStart + i < mb132) ↔
      k.display.paging.Aliased
        (screenPage k.display.currentTerminal k.display.activeTerminal) ∧
      screenStart + 4 ≤ mb132 := by
  have hpaging : (k.cVidmap screenStart).1.display.paging =
      k.display.paging.mapVideo k.display.currentTerminal k.display.activeTerminal := by
    rw [cVidmap, if_neg (by omega)]
    rfl
  rw [hpaging, Paging.frame_mapVideo_iff]
  refine and_congr_right fun _ => ⟨fun h => ?_, fun h i hi => by omega⟩
  have := h 3 (by decide)
  omega

theorem tidy_of_run {fs : FileSystem} {b : Boot} {es : List Event} {k : Kernel}
    (hrun : Runs.run (step fs) b.kernel es = some k) : k.display.paging.Tidy :=
  paging_of_run Paging.tidy_init (fun _ pa h => h.remapPaging pa)
    (fun _ t e he h => h.setTerm t e he) (fun _ current active h => h.mapVideo current active) hrun

/-- **In every state reached** a call that maps anything changes a walk elsewhere: it leaves the
others alone only where the page is mapped to the screen already. -/
theorem cVidmap_frame_iff_shows {fs : FileSystem} {b : Boot} {es : List Event} {k : Kernel}
    (hrun : Runs.run (step fs) b.kernel es = some k) :
    (∀ va < 2 ^ 32, ¬ (mb132 ≤ va ∧ va < mb132 + 4096) →
      (k.cVidmap mb128).1.display.paging.walk va = k.display.paging.walk va) ↔
      k.display.paging.Shows
        (screenPage k.display.currentTerminal k.display.activeTerminal) := by
  rw [← (tidy_of_run hrun).aliased_iff (screenPage_aligned _ _)]
  exact Paging.frame_mapVideo_iff ..

/-- A second call for the same screen leaves everything as the first left it. -/
theorem cVidmap_frame_again :
    (∀ va < 2 ^ 32, ¬ (mb132 ≤ va ∧ va < mb132 + 4096) →
        ((Boot.zero.kernel.cVidmap mb128).1.cVidmap mb128).1.display.paging.walk va =
          (Boot.zero.kernel.cVidmap mb128).1.display.paging.walk va) ∧
      ∀ i < 4, mb128 ≤ mb128 + i ∧ mb128 + i < mb132 := by
  have htidy : (Boot.zero.kernel.cVidmap mb128).1.display.paging.Tidy :=
    (Paging.tidy_init Boot.zero.tablesAddr Boot.zero.aligned).mapVideo 0 0
  refine (cVidmap_frame_iff _ (Nat.le_refl _) (by decide)).mpr ⟨?_, by decide⟩
  exact (htidy.aliased_iff (screenPage_aligned 0 0)).mpr (Paging.shows_mapVideo _ 0 0)

/-- The first call of the first shell: the page at address 0 and the page of video memory above
`MB_132` appear.  With the last pointer it accepts, three of the four bytes are stored outside the
user page. -/
theorem cVidmap_maps_low : ∃ k,
    Runs.run (step shellDisk) Boot.zero.kernel [.execute (some shell) ⟨0, 0⟩ []] = some k ∧
    k.display.paging.walk 0 = none ∧
    (k.cVidmap mb128).1.display.paging.walk 0 = some (video, false) ∧
    k.display.paging.walk (mb132 + video) = none ∧
    (k.cVidmap mb128).1.display.paging.walk (mb132 + video) = some (video, false) ∧
    (k.cVidmap (mb132 - 1)).2 = 0 ∧
    ¬ ∀ i < 4, mb128 ≤ mb132 - 1 + i ∧ mb132 - 1 + i < mb132 := by
  have hrun : (Runs.run (step shellDisk) Boot.zero.kernel
      [.execute (some shell) ⟨0, 0⟩ []]).map (fun k =>
        [k.display.paging.walk 0, (k.cVidmap mb128).1.display.paging.walk 0,
          k.display.paging.walk (mb132 + video),
          (k.cVidmap mb128).1.display.paging.walk (mb132 + video)]) =
      some [none, some (video, false), none, some (video, false)] := by
    decide +kernel
  obtain ⟨k, hk, hs⟩ := Option.map_eq_some_iff.mp hrun
  simp only [List.cons.injEq, and_true] at hs
  obtain ⟨h₁, h₂, h₃, h₄⟩ := hs
  refine ⟨k, hk, h₁, h₂, h₃, h₄, ?_, fun h => absurd (h 1 (by decide)).2 (by decide)⟩
  rw [cVidmap, if_neg (by decide)]

end Kernel

end HarambeOs
