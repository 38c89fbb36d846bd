import HarambeOs.Exceptions

/-!
# AddressSpace — what every address means while a process runs

Page directory and page table are changed piecemeal, by five functions called from three places.
`AddressSpace` is what they are for: a process sees its own frame, the kernel its page and the
screens, and one page is lent to the process by `c_vidmap`.  `Paged.walk_eq` says that while the
page tables are what these functions made them, the processor's walk of every address, with its
permission, is that map.
-/

namespace HarambeOs

/-- The parameters of the map: the running process, the terminal displayed, and the screen lent by
`c_vidmap`. -/
structure AddressSpace where
  process : Nat
  displayed : Term
  lent : Option Nat

/-- A screen lent to a program is one of the four video pages. -/
theorem screenPage_bounds (current active : Term) :
    video ≤ screenPage current active ∧ screenPage current active ≤ thirdTermVid := by
  have hlt := active.isLt
  rw [screenPage, pageArr_eq, video, thirdTermVid]
  split <;> omega

namespace AddressSpace

variable (s : AddressSpace)

/-- The frame of page `j` of the one page table, which stands for the screens. -/
def frame (j : Nat) : Option Nat :=
  if j = 0 then s.lent
  else if j = 0xB8 then some video
  else if 0xB9 ≤ j ∧ j ≤ 0xBB then
    some (if j = 0xB9 + s.displayed.val then video else j * 4096)
  else none

/-- What an address means: where it leads, and whether the process may use it.  The page table
appears twice once a screen was lent, and only the page lent is the process's. -/
def lookup (va : Nat) : Option (Nat × Bool) :=
  let page := s.frame (va / 4096 % 1024)
  if va < mb4 then page.map fun f => (f + va % 4096, false)
  else if va < mb8 then some (va, false)
  else if mb128 ≤ va ∧ va < mb132 then some (userFrame s.process + (va - mb128), true)
  else if mb132 ≤ va ∧ va < mb132 + mb4 ∧ s.lent.isSome then
    page.map fun f => (f + va % 4096, decide (va < mb132 + 4096))
  else none

/-- **What a process can reach**: its own frame, and the page lent. -/
theorem lookup_user_iff {va pa : Nat} :
    s.lookup va = some (pa, true) ↔
      (mb128 ≤ va ∧ va < mb132 ∧ pa = userFrame s.process + (va - mb128)) ∨
        ∃ screen, s.lent = some screen ∧ mb132 ≤ va ∧ va < mb132 + 4096 ∧
          pa = screen + (va - mb132) := by
  have hlarge : mb4 = 4194304 ∧ mb8 = 8388608 ∧ mb128 = 134217728 ∧ mb132 = 138412032 := by decide
  obtain ⟨h4, h8, h128, h132⟩ := hlarge
  rw [lookup]
  split
  · refine ⟨fun h => ?_, fun h => by omega⟩
    obtain ⟨f, -, hf⟩ := Option.map_eq_some_iff.mp h
    exact absurd (Prod.mk.inj hf).2 Bool.false_ne_true
  split
  · refine ⟨fun h => ?_, fun h => by omega⟩
    exact absurd (Prod.mk.inj (Option.some.inj h)).2 Bool.false_ne_true
  split
  · rw [Option.some.injEq, Prod.mk.injEq, and_iff_left rfl]
    constructor
    · rintro rfl
      exact Or.inl (by omega)
    · rintro (h | ⟨screen, -, h⟩) <;> omega
  split
  · next hwin =>
    obtain ⟨hlo, hhi, hlent⟩ := hwin
    obtain ⟨screen, hscreen⟩ := Option.isSome_iff_exists.mp hlent
    constructor
    · intro h
      obtain ⟨f, hf, hp⟩ := Option.map_eq_some_iff.mp h
      obtain ⟨rfl, hlt⟩ := Prod.mk.inj hp
      have hlt := of_decide_eq_true hlt
      rw [show va / 4096 % 1024 = 0 by omega, frame, if_pos rfl] at hf
      exact Or.inr ⟨f, hf, hlo, hlt, by omega⟩
    · rintro (h | ⟨screen', hs, -, hlt, hpa⟩)
      · omega
      · rw [show va / 4096 % 1024 = 0 by omega, frame, if_pos rfl, hs, Option.map_some,
          decide_eq_true hlt, hpa, show va % 4096 = va - mb132 by omega]
  · next hwin =>
    refine ⟨fun h => absurd h (by simp), ?_⟩
    rintro (h | ⟨screen, hs, hlo, hlt, -⟩)
    · omega
    · have hhi : va < mb132 + mb4 := Nat.lt_of_lt_of_le hlt (Nat.add_le_add_left (by decide) _)
      exact (hwin ⟨hlo, hhi, by rw [hs]; rfl⟩).elim

end AddressSpace

/-! ## The page tables -/

namespace Paging

variable {pg : Paging}

/-- The entries no function of `paging.c` but `init_paging` sets, and the two that `map_video`
sets. -/
structure Walled (pg : Paging) (lent : Option Nat) : Prop where
  kernelEntry : pg.directory 1 = kernel ||| rps
  absent : ∀ i, i ≠ 0 → i ≠ 1 → i ≠ 32 → i ≠ 33 → pg.directory i % 2 = 0
  unused : ∀ j, j ≠ 0 → (j < 0xB8 ∨ 0xBB < j) → pg.tables j % 2 = 0
  window : lent.elim (pg.directory 33 = rwOnly ∧ pg.tables 0 = rwOnly) pg.Shows
  screen : ∀ page ∈ lent, ∃ current active, page = screenPage current active

/-- At the boot nothing is lent. -/
theorem walled_init (tablesAddr : Nat) (aligned : tablesAddr % 4096 = 0) :
    (init tablesAddr aligned).Walled none where
  kernelEntry := rfl
  absent i h0 h1 _ _ := by
    simp only [init, Function.update_of_ne h0, Function.update_of_ne h1]
    rfl
  unused j _ hj := by
    have hne : j ≠ 0xB8 ∧ j ≠ 0xB9 ∧ j ≠ 0xBA ∧ j ≠ 0xBB := by omega
    have hor : (j <<< shift) ||| rwOnly = j * 4096 + 2 := by
      rw [Nat.shiftLeft_eq, show 2 ^ shift = 4096 from rfl, or_of_aligned (by omega) (by decide)]
      rfl
    simp only [init]
    rw [if_neg (show j ≠ video >>> shift from hne.1),
      if_neg (show j ≠ firstTermVid >>> shift from hne.2.1),
      if_neg (show j ≠ secondTermVid >>> shift from hne.2.2.1),
      if_neg (show j ≠ thirdTermVid >>> shift from hne.2.2.2), hor]
    omega
  window := ⟨rfl, rfl⟩
  screen page h := by cases h

/-- `remap_paging` maps another frame. -/
theorem Walled.remapPaging {lent : Option Nat} (h : pg.Walled lent) (pa : Nat) :
    (pg.remapPaging pa).Walled lent where
  kernelEntry := (directory_remapPaging_of_ne _ _ (by decide)).trans h.kernelEntry
  absent i h0 h1 h32 h33 := by
    rw [directory_remapPaging_of_ne _ _ h32]
    exact h.absent i h0 h1 h32 h33
  unused := h.unused
  window := by
    cases lent with
    | none =>
      obtain ⟨hd, ht⟩ := h.window
      exact ⟨(directory_remapPaging_of_ne _ _ (by decide)).trans hd, ht⟩
    | some page => exact Shows.of_window h.window (pg.window_remapPaging pa)
  screen := h.screen

/-- The pages of the terminals are the kernel's. -/
theorem Walled.setTerm {lent : Option Nat} (h : pg.Walled lent) (t : Term) (e : Nat) (he) :
    (pg.setTerm t e he).Walled lent := by
  have hidx := pageArr_shiftRight t
  have hlt := t.isLt
  refine ⟨h.kernelEntry, h.absent, fun j h0 hj => ?_, ?_, h.screen⟩
  · have hne : j ≠ pageArr t >>> shift := by omega
    simp only [Paging.setTerm, Function.update_of_ne hne]
    exact h.unused j h0 hj
  · cases lent with
    | none =>
      obtain ⟨hd, ht⟩ := h.window
      have hne : 0 ≠ pageArr t >>> shift := by omega
      exact ⟨hd, (Function.update_of_ne hne _ _).trans ht⟩
    | some page => exact Shows.of_window h.window (pg.window_setTerm t e he)

/-- `map_video` lends a screen. -/
theorem Walled.mapVideo {lent : Option Nat} (h : pg.Walled lent) (current active : Term) :
    (pg.mapVideo current active).Walled (some (screenPage current active)) where
  kernelEntry := by
    rw [directory_mapVideo_apply, if_neg (by decide)]
    exact h.kernelEntry
  absent i h0 h1 h32 h33 := by
    rw [directory_mapVideo_apply, if_neg h33]
    exact h.absent i h0 h1 h32 h33
  unused j h0 hj := by
    rw [tables_mapVideo, if_neg h0]
    exact h.unused j h0 hj
  window := pg.shows_mapVideo current active
  screen page hp := ⟨current, active, (Option.some.inj hp).symm⟩

/-- Whatever the one page table maps is a screen. -/
theorem Walled.frame_le {lent : Option Nat} (h : pg.Walled lent) {pde j f : Nat} {user : Bool}
    (hf : leaf pde (pg.tables j) = some (f, user)) : f ≤ thirdTermVid := by
  have hpte : pg.tables j % 2 ≠ 0 ∧ pg.tables j / 4096 * 4096 = f := by
    rw [leaf] at hf
    split at hf
    · cases hf
    · exact ⟨‹_›, (Prod.mk.inj (Option.some.inj hf)).1⟩
  obtain ⟨hpresent, rfl⟩ := hpte
  rcases Nat.eq_zero_or_pos j with rfl | hpos
  · have hwin := h.window
    cases lent with
    | none => exact absurd (congrArg (· % 2) hwin.2) hpresent
    | some page =>
      obtain ⟨current, active, rfl⟩ := h.screen page rfl
      have hle := (screenPage_bounds current active).2
      have hal := screenPage_aligned current active
      rw [Shows.tables hwin, or_of_aligned hal (by decide), urwp]
      omega
  · have hin : 0xB8 ≤ j ∧ j ≤ 0xBB := by
      by_contra hout
      exact hpresent (h.unused j (Nat.pos_iff_ne_zero.mp hpos) (by omega))
    rcases Nat.eq_or_lt_of_le hin.1 with rfl | hlt
    · rw [show pg.tables 0xB8 = video + 3 from pg.videoPage]
      decide
    · obtain ⟨t, rfl⟩ : ∃ t : Term, j = 0xB9 + t.val := ⟨⟨j - 0xB9, by omega⟩, by simp only; omega⟩
      have hterm := pg.termPage t
      rw [pageArr_shiftRight] at hterm
      rcases hterm with hterm | hterm <;> rw [hterm]
      · decide
      · fin_cases t <;> decide

/-- The user page leads to the frame it stands for. -/
theorem translate_userPage {p va a : Nat} (huser : pg.directory 32 = userFrame p ||| flags)
    (hva : va / 2 ^ 22 = 32) (ha : pg.translate va = some a) : a ∈ userFrameSet p := by
  rw [← pg.walk_fst, walk, Option.map_map, Option.map_eq_some_iff] at ha
  obtain ⟨⟨f, user⟩, hpage, rfl⟩ := ha
  simp only [Function.comp_apply]
  rw [hva, page, huser, userFrame_or, flags, if_neg (by rw [userFrame, mb4]; omega),
    if_pos (by rw [userFrame, mb4]; omega), Option.some.injEq, Prod.mk.injEq] at hpage
  rw [userFrameSet, Set.mem_Ico, ← hpage.1, userFrame, mb4]
  omega

/-- **Whatever is mapped** is a screen, in the kernel's page, or behind the user page. -/
theorem Walled.translate_cases {lent : Option Nat} (h : pg.Walled lent) {va a : Nat}
    (ha : pg.translate va = some a) : a < mb4 ∨ va / 2 ^ 22 = 1 ∨ va / 2 ^ 22 = 32 := by
  by_contra hne
  obtain ⟨hlow, h1, h32⟩ : ¬ a < mb4 ∧ va / 2 ^ 22 ≠ 1 ∧ va / 2 ^ 22 ≠ 32 := by
    simpa only [not_or] using hne
  rw [← pg.walk_fst, walk, Option.map_map, Option.map_eq_some_iff] at ha
  obtain ⟨⟨f, user⟩, hpage, rfl⟩ := ha
  have hmod := Nat.mod_lt va (show 0 < 4096 by decide)
  simp only [Function.comp_apply] at hlow
  -- What is left leads to the page table, or nowhere.
  rw [page] at hpage
  split at hpage
  · cases hpage
  next hpresent =>
  have hidx : va / 2 ^ 22 = 0 ∨ va / 2 ^ 22 = 33 := by
    by_contra hidx
    exact hpresent (h.absent _ (fun h0 => hidx (Or.inl h0)) h1 h32 fun h33 => hidx (Or.inr h33))
  have hal := pg.aligned
  have hsmall : pg.directory (va / 2 ^ 22) / 128 % 2 = 0 := by
    rcases hidx with hi | hi <;> rw [hi]
    · rw [pg.low, or_rwp hal]
      omega
    · have hwin := h.window
      cases lent with
      | none => rw [hwin.1, rwOnly]
      | some page =>
        rw [Shows.directory hwin, or_of_aligned hal (by decide), urwp]
        omega
  rw [if_neg (by omega)] at hpage
  split at hpage
  · have hle := h.frame_le hpage
    rw [thirdTermVid] at hle
    rw [mb4] at hlow
    omega
  · cases hpage

/-- Below 4 MB there are screens. -/
theorem Walled.translate_low {lent : Option Nat} (h : pg.Walled lent) {va a : Nat} (hva : va < mb4)
    (ha : pg.translate va = some a) : a < mb4 := by
  rw [mb4] at hva
  rcases h.translate_cases ha with hlow | hidx | hidx
  · exact hlow
  · omega
  · omega

/-- From 128 MB on there are screens, and the frame of the user page. -/
theorem Walled.translate_high {lent : Option Nat} (h : pg.Walled lent) {p va a : Nat}
    (huser : pg.directory 32 = userFrame p ||| flags) (hva : mb128 ≤ va)
    (ha : pg.translate va = some a) : a < mb4 ∨ a ∈ userFrameSet p := by
  rw [mb128] at hva
  rcases h.translate_cases ha with hlow | hidx | hidx
  · exact Or.inl hlow
  · omega
  · exact Or.inr (translate_userPage huser hidx ha)

/-! ### The walk, page by page -/

section Walk

variable {s : AddressSpace} (h : pg.Walled s.lent)
  (hframed : ∀ t, pg.termFrame t = if t = s.displayed then video else pageArr t)

include h hframed

/-- The one page table, under a directory entry with the user bit `pde / 4 % 2`. -/
theorem Walled.leaf_eq (pde j : Nat) :
    leaf pde (pg.tables j) =
      (s.frame j).map fun f => (f, decide (pde / 4 % 2 = 1) && decide (j = 0)) := by
  have hvideo : pg.tables 0xB8 = video + 3 := pg.videoPage
  rcases Nat.eq_zero_or_pos j with rfl | hpos
  · have hscreen := h.screen
    have hwin := h.window
    rw [AddressSpace.frame, if_pos rfl]
    cases hlent : s.lent with
    | none =>
      rw [hlent] at hwin
      rw [leaf, hwin.2]
      rfl
    | some page =>
      rw [hlent] at hwin hscreen
      have hal : page % 4096 = 0 := by
        obtain ⟨current, active, rfl⟩ := hscreen page rfl
        exact screenPage_aligned current active
      rw [hwin.tables, leaf_urwp _ hal, Option.map_some, decide_eq_true rfl, Bool.and_true]
  have h0 : j ≠ 0 := Nat.pos_iff_ne_zero.mp hpos
  rw [AddressSpace.frame, if_neg h0, decide_eq_false h0, Bool.and_false]
  split
  · next hj =>
    subst hj
    rw [hvideo, leaf, if_neg (by decide), show (video + 3) / 4 % 2 = 0 from rfl]
    simp [video]
  split
  · next hj =>
    -- A terminal's page, which leads to video memory or to its own frame.
    obtain ⟨t, rfl⟩ : ∃ t : Term, j = 0xB9 + t.val := ⟨⟨j - 0xB9, by omega⟩, by simp only; omega⟩
    have hfr := hframed t
    rw [termFrame, pageArr_shiftRight] at hfr
    have hterm := pg.termPage t
    rw [pageArr_shiftRight] at hterm
    have hbits : pg.tables (0xB9 + t.val) % 2 = 1 ∧ pg.tables (0xB9 + t.val) / 4 % 2 = 0 := by
      rcases hterm with hterm | hterm <;> rw [hterm]
      · decide
      · fin_cases t <;> decide
    have hval : (t = s.displayed) ↔ 0xB9 + t.val = 0xB9 + s.displayed.val := by
      rw [Fin.ext_iff]
      omega
    rw [leaf, if_neg (by omega), hfr, hbits.2, Option.map_some, pageArr_eq, if_congr hval rfl rfl,
      show 0xB9000 + 4096 * t.val = (0xB9 + t.val) * 4096 by omega]
    simp
  · rw [leaf, if_pos (h.unused j h0 (by omega))]
    rfl

/-- **The page tables hold the map.** -/
theorem Walled.walk_eq (huser : pg.directory 32 = userFrame s.process ||| flags) (va : Nat) :
    pg.walk va = s.lookup va := by
  have hlarge : mb4 = 4194304 ∧ mb8 = 8388608 ∧ mb128 = 134217728 ∧ mb132 = 138412032 := by decide
  obtain ⟨h4, h8, h128, h132⟩ := hlarge
  have hal := pg.aligned
  rw [walk, AddressSpace.lookup]
  split
  · rw [show va / 2 ^ 22 = 0 by omega, page_of_refers pg.refers_zero, h.leaf_eq hframed, pg.low,
      or_rwp hal, decide_eq_false (by omega), Option.map_map]
    rfl
  split
  · rw [show va / 2 ^ 22 = 1 by omega, page, h.kernelEntry,
      show kernel ||| rps = 4194304 + 131 from rfl]
    simp only
    rw [if_neg (by decide), if_pos (by decide), Option.map_some]
    exact congrArg some (Prod.ext (by simp only; omega) rfl)
  split
  · rw [show va / 2 ^ 22 = 32 by omega, page, huser, userFrame_or, userFrame, flags, h4]
    rw [if_neg (by omega), if_pos (by omega), Option.map_some]
    refine congrArg some (Prod.ext ?_ ?_)
    · simp only
      omega
    · exact decide_eq_true (by omega)
  split
  · next hwin =>
    obtain ⟨hlo, hhi, hlent⟩ := hwin
    obtain ⟨screen, hscreen⟩ := Option.isSome_iff_exists.mp hlent
    have hs := h.window
    rw [hscreen] at hs
    have href : pg.Refers 33 := by
      rw [Refers, Shows.directory hs, or_of_aligned hal (by decide), urwp]
      omega
    have hfirst : (va / 4096 % 1024 = 0) ↔ va < mb132 + 4096 := by omega
    rw [show va / 2 ^ 22 = 33 by omega, page_of_refers href, h.leaf_eq hframed, Shows.directory hs,
      or_of_aligned hal (by decide), decide_eq_true (show (pg.tablesAddr + urwp) / 4 % 2 = 1 by
        rw [urwp]; omega), Bool.true_and, decide_eq_decide.mpr hfirst, Option.map_map]
    rfl
  · next hwin =>
    have hnone : pg.directory (va / 2 ^ 22) % 2 = 0 := by
      by_cases h33 : va / 2 ^ 22 = 33
      · have hs := h.window
        rw [Option.not_isSome_iff_eq_none.mp fun hl => hwin ⟨by omega, by omega, hl⟩] at hs
        rw [h33, hs.1]
        rfl
      · exact h.absent _ (by omega) (by omega) (by omega) h33
    rw [page, if_pos hnone]
    rfl

end Walk

end Paging

/-! ## Every state reached -/

namespace Kernel

variable {fs : FileSystem} {k k' : Kernel} {a : Action}

/-- The page tables and the scheduler in every state reached. -/
structure Paged (k : Kernel) : Prop where
  sound : k.sched.Sound
  settled : k.sched.Settled
  framed : k.display.Framed
  walled : ∃ lent, k.display.paging.Walled lent

theorem paged_boot (b : Boot) : Paged b.kernel :=
  ⟨sound_boot b, Or.inr ⟨rfl, fun hc => by cases hc⟩, framed_boot b,
    none, Paging.walled_init b.tablesAddr b.aligned⟩

theorem walled_remaps {d d' : Display} (h : d.Remaps d') (hd : ∃ lent, d.paging.Walled lent) :
    ∃ lent, d'.paging.Walled lent :=
  h.keep (P := fun pg => ∃ lent, pg.Walled lent) (fun _ pa ⟨lent, h⟩ => ⟨lent, h.remapPaging pa⟩)
    (fun _ t e he ⟨lent, h⟩ => ⟨lent, h.setTerm t e he⟩) hd

/-- One event of the kernel. -/
theorem paged_step {e : Event} (hk : Paged k) (h : k.step fs e = some k') : Paged k' := by
  obtain ⟨o, ho⟩ := step_eq_some.mp h
  have hs := transition_sched hk.sound.quiet ho
  refine ⟨sound_step hk.sound h, hs.settled hk.sound hk.settled, framed_step hk.framed h, ?_⟩
  rcases step_remaps h with ⟨-, hr⟩ | ⟨-, hr⟩
  · exact walled_remaps hr hk.walled
  · obtain ⟨lent, hw⟩ := hk.walled
    exact walled_remaps hr ⟨_, hw.mapVideo _ _⟩

theorem paged_quietly (h : Quietly k k') (hk : Paged k) : Paged k' := by
  refine ⟨by rw [h.sched]; exact hk.sound, by rw [h.sched]; exact hk.settled, fun t => ?_, ?_⟩
  · rw [h.paging, Display.base, Display.currentTerminal_of_control h.control]
    exact hk.framed t
  · rw [h.paging]
    exact hk.walled

/-- One action. -/
theorem paged_act (hk : Paged k) (h : k.act fs a = some k') : Paged k' :=
  act_invariant (fun _ _ => paged_quietly) (fun _ _ _ => paged_step) hk h

/-- While a process runs, the processor's walk of every address is the map. -/
theorem Paged.walk_eq (hk : Paged k) (hr : k.running ≠ 0) :
    ∃ lent, (∀ page ∈ lent, ∃ current active, page = screenPage current active) ∧
      ∀ va, k.display.paging.walk va =
        AddressSpace.lookup ⟨k.running, k.display.currentTerminal, lent⟩ va := by
  obtain ⟨lent, hw⟩ := hk.walled
  refine ⟨lent, hw.screen, fun va => ?_⟩
  refine Paging.Walled.walk_eq (s := ⟨k.running, k.display.currentTerminal, lent⟩) hw hk.framed
    ?_ va
  exact (hk.settled.mapped hr).1

end Kernel

end HarambeOs
