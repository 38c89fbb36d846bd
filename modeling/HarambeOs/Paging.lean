import HarambeOs.Library.MappedMemory
import Mathlib

/-!
# Paging — the page directory, the page table of the low 4 MB, and the remapping functions

`paging.c` keeps one page directory and one page table `tables`, which covers the video pages.
`Paging` carries what every function of that file leaves alone: directory entry 0 points at
`tables`, `VIDEO` is mapped to itself, and each terminal's page is mapped either to `VIDEO` or to
itself.  `translate` is the walk the processor makes.
-/

namespace HarambeOs

/-- A terminal: `FIRST_TERM`, `SECOND_TERM` or `THIRD_TERM`. -/
abbrev Term := Fin 3

/-- What the numerals of `Term` rest on. -/
instance Term.neZero : NeZero 3 := ⟨Nat.succ_ne_zero 2⟩

/-! ## Constants of `paging.h`, `paging.c` and `system_calls.h` -/

/-- The page of video memory, as text. -/
def video : Nat := 0xB8000

/-- The page of the first terminal, which holds its screen while another one is displayed. -/
def firstTermVid : Nat := 0xB9000

/-- The page of the second terminal. -/
def secondTermVid : Nat := 0xBA000

/-- The page of the third terminal. -/
def thirdTermVid : Nat := 0xBB000

/-- `page_arr`: the video page of each terminal. -/
def pageArr : Term → Nat
  | 0 => firstTermVid
  | 1 => secondTermVid
  | 2 => thirdTermVid

/-- The 4 MB page of the kernel. -/
def kernel : Nat := 0x400000

/-- Flags of an entry that is writable and not present. -/
def rwOnly : Nat := 0x2

/-- Flags of the kernel's page: present, writable, 4 MB. -/
def rps : Nat := 0x83

/-- Flags of a page of the kernel: present and writable. -/
def rwp : Nat := 0x3

/-- The same for a page that programs may reach. -/
def urwp : Nat := 0x7

/-- Flags of a program's page: present, writable, for programs, 4 MB. -/
def flags : Nat := 0x87

def shift : Nat := 12
def entryIdx : Nat := 22
def mask10Bits : Nat := 0x3FF

def mb4 : Nat := 4194304
def mb8 : Nat := 8388608

/-- Where programs have their page. -/
def mb128 : Nat := 0x08000000

/-- Where `vidmap` puts the screen for programs. -/
def mb132 : Nat := 0x8400000

/-- The pages of the terminals follow one another. -/
theorem pageArr_eq (t : Term) : pageArr t = 0xB9000 + 4096 * t.val := by
  fin_cases t <;> rfl

/-- The page-table index of a terminal's page. -/
theorem pageArr_shiftRight (t : Term) : pageArr t >>> shift = 0xB9 + t.val := by
  fin_cases t <;> rfl

/-! ## The state -/

/-- The page directory and `tables`, with the entries no function of `paging.c` takes away.
`tablesAddr` is the link address of `tables`, which is aligned on a page. -/
structure Paging where
  directory : Nat → Nat
  tables : Nat → Nat
  tablesAddr : Nat
  aligned : tablesAddr % 4096 = 0
  low : directory 0 = tablesAddr ||| rwp
  videoPage : tables (video >>> shift) = video ||| rwp
  termPage : ∀ t, tables (pageArr t >>> shift) = video ||| rwp ∨
    tables (pageArr t >>> shift) = pageArr t ||| rwp

/-- An entry of a page boundary and its flags is the sum of the two. -/
theorem or_of_aligned {a n : Nat} (h : a % 4096 = 0) (hn : n < 4096) : a ||| n = a + n := by
  have := Nat.two_pow_add_eq_or_of_lt (show n < 2 ^ 12 by omega) (a / 4096)
  rw [show 2 ^ 12 * (a / 4096) = a by omega] at this
  exact this.symm

/-- An entry of the page table that is present and writable. -/
theorem or_rwp {a : Nat} (h : a % 4096 = 0) : a ||| rwp = a + 3 := or_of_aligned h (by decide)

namespace Paging

/-- The physical address the processor's walk finds, `none` where the page is not present. -/
def translate (pg : Paging) (va : Nat) : Option Nat :=
  let pde := pg.directory (va / 2 ^ 22)
  if pde % 2 = 0 then none
  else if pde / 128 % 2 = 1 then some (pde / 2 ^ 22 * 2 ^ 22 + va % 2 ^ 22)
  else if pde / 4096 = pg.tablesAddr / 4096 then
    let pte := pg.tables (va / 4096 % 1024)
    if pte % 2 = 0 then none else some (pte / 4096 * 4096 + va % 4096)
  else none

/-- `init_paging`. -/
def init (tablesAddr : Nat) (aligned : tablesAddr % 4096 = 0) : Paging where
  directory := Function.update (Function.update (fun _ => rwOnly) 1 (kernel ||| rps)) 0
    (tablesAddr ||| rwp)
  tables i :=
    if i = video >>> shift then video ||| rwp
    else if i = firstTermVid >>> shift then video ||| rwp
    else if i = secondTermVid >>> shift then secondTermVid ||| rwp
    else if i = thirdTermVid >>> shift then thirdTermVid ||| rwp
    else (i <<< shift) ||| rwOnly
  tablesAddr := tablesAddr
  aligned := aligned
  low := Function.update_self ..
  videoPage := rfl
  termPage t := by fin_cases t <;> decide

/-- `remap_paging`: the 4 MB user page at `MB_128`. -/
def remapPaging (pg : Paging) (physicalAddress : Nat) : Paging :=
  { pg with
    directory := Function.update pg.directory (mb128 >>> entryIdx) (physicalAddress ||| flags)
    low := by rw [Function.update_of_ne (by decide), pg.low] }

/-- One entry of `tables` set for a terminal's page. -/
def setTerm (pg : Paging) (t : Term) (entry : Nat)
    (h : entry = video ||| rwp ∨ entry = pageArr t ||| rwp) : Paging :=
  { pg with
    tables := Function.update pg.tables (pageArr t >>> shift) entry
    videoPage := by
      rw [Function.update_of_ne, pg.videoPage]
      rw [pageArr_shiftRight, show video >>> shift = 0xB8 from rfl]
      omega
    termPage := fun u => by
      by_cases hu : u = t
      · subst hu
        rwa [Function.update_self]
      · rw [Function.update_of_ne]
        · exact pg.termPage u
        · rw [pageArr_shiftRight, pageArr_shiftRight]
          exact fun hv => hu (Fin.ext (by omega)) }

/-- `remap_term`: the displayed terminal's page goes to video memory. -/
def remapTerm (pg : Paging) (t : Term) : Paging := pg.setTerm t (video ||| rwp) (Or.inl rfl)

/-- `remap_term_before`: the terminal's page goes back to its own frame. -/
def remapTermBefore (pg : Paging) (t : Term) : Paging :=
  pg.setTerm t (pageArr t ||| rwp) (Or.inr rfl)

/-- `map_video`, at the one address it is called with: the page at `MB_132` goes to the screen of
the active terminal, through the same `tables` that cover the low 4 MB. -/
def mapVideo (pg : Paging) (current active : Term) : Paging :=
  { pg with
    tables := Function.update pg.tables ((mb132 >>> shift) &&& mask10Bits)
      (if current = active then video ||| urwp else pageArr active ||| urwp)
    directory := Function.update pg.directory (mb132 >>> entryIdx) (pg.tablesAddr ||| urwp)
    low := by rw [Function.update_of_ne (by decide), pg.low]
    videoPage := by rw [Function.update_of_ne (by decide), pg.videoPage]
    termPage := fun t => by
      rw [Function.update_of_ne]
      · exact pg.termPage t
      · rw [pageArr_shiftRight, show (mb132 >>> shift) &&& mask10Bits = 0 from rfl]
        omega }

/-! ## What the walk finds in the low 4 MB -/

/-- The frame a terminal's video page is mapped to. -/
def termFrame (pg : Paging) (t : Term) : Nat := pg.tables (pageArr t >>> shift) / 4096 * 4096

/-- After `init_paging` the first terminal is displayed. -/
theorem termFrame_init (tablesAddr : Nat) (aligned : tablesAddr % 4096 = 0) (t : Term) :
    (init tablesAddr aligned).termFrame t = if t = 0 then video else pageArr t := by
  rw [termFrame, init]
  simp only
  fin_cases t <;> decide

/-- An address below 4 MB is looked up in `tables`. -/
theorem translate_low (pg : Paging) {va : Nat} (hva : va < mb4) :
    pg.translate va = if pg.tables (va / 4096) % 2 = 0 then none
      else some (pg.tables (va / 4096) / 4096 * 4096 + va % 4096) := by
  have hdir : va / 2 ^ 22 = 0 := Nat.div_eq_of_lt (by simpa [mb4] using hva)
  have hidx : va / 4096 % 1024 = va / 4096 := Nat.mod_eq_of_lt (by rw [mb4] at hva; omega)
  have hal := pg.aligned
  rw [translate, hdir, pg.low, or_rwp hal, hidx]
  simp only
  rw [if_neg (by omega), if_neg (by omega), if_pos (by omega)]

open MappedMemory in
/-- A byte of video memory is where it says. -/
theorem maps_video (pg : Paging) : Maps pg.translate video video 4096 := by
  intro off h
  have hidx : (video + off) / 4096 = video >>> shift := by
    rw [show video >>> shift = 0xB8 from rfl, video]
    omega
  rw [translate_low pg (by rw [video, mb4]; omega), hidx, pg.videoPage,
    show (video ||| rwp) = video + 3 from rfl, if_neg (by rw [video]; omega)]
  rw [video]
  exact congrArg some (by omega)

open MappedMemory in
/-- A byte of a terminal's page is in the frame the page is mapped to. -/
theorem maps_pageArr (pg : Paging) (t : Term) :
    Maps pg.translate (pageArr t) (pg.termFrame t) 4096 := by
  intro off h
  have hlt := t.isLt
  have hidx : (pageArr t + off) / 4096 = pageArr t >>> shift := by
    rw [pageArr_shiftRight, pageArr_eq]
    omega
  have hodd : pg.tables (pageArr t >>> shift) % 2 = 1 := by
    rcases pg.termPage t with h | h <;> rw [h]
    · rfl
    · fin_cases t <;> rfl
  have hmod : (pageArr t + off) % 4096 = off := by
    rw [pageArr_eq]
    omega
  rw [translate_low pg (by rw [pageArr_eq, mb4]; omega), hidx, if_neg (by omega), hmod, termFrame]

/-! ## What the remapping functions change -/

/-- `remap_paging` sets the entry of the program's page. -/
@[simp] theorem directory_remapPaging (pg : Paging) (pa : Nat) :
    (pg.remapPaging pa).directory (mb128 >>> entryIdx) = pa ||| flags := by
  simp only [remapPaging, Function.update_self]

/-- It sets no other one. -/
theorem directory_remapPaging_of_ne (pg : Paging) (pa : Nat) {i : Nat}
    (h : i ≠ mb128 >>> entryIdx) :
    (pg.remapPaging pa).directory i = pg.directory i := by
  simp only [remapPaging, Function.update_of_ne h]

/-- `map_video` leaves the program's page where it is. -/
@[simp] theorem directory_mapVideo (pg : Paging) (current active : Term) :
    (pg.mapVideo current active).directory (mb128 >>> entryIdx) =
      pg.directory (mb128 >>> entryIdx) := by
  simp only [mapVideo]
  rw [Function.update_of_ne (by decide)]

/-- An entry set for one terminal leaves the others' pages alone. -/
theorem termFrame_setTerm_of_ne (pg : Paging) {t u : Term} (e : Nat) (h) (hu : u ≠ t) :
    (pg.setTerm t e h).termFrame u = pg.termFrame u := by
  have hne : pageArr u >>> shift ≠ pageArr t >>> shift := by
    rw [pageArr_shiftRight, pageArr_shiftRight]
    exact fun hv => hu (Fin.ext (by omega))
  simp only [termFrame, setTerm, Function.update_of_ne hne]

/-- `remap_term` moves one terminal's page. -/
theorem termFrame_remapTerm (pg : Paging) (t u : Term) :
    (pg.remapTerm t).termFrame u = if u = t then video else pg.termFrame u := by
  split
  · subst ‹u = t›
    rw [termFrame, remapTerm, setTerm]
    simp only [Function.update_self]
    rfl
  · exact termFrame_setTerm_of_ne pg _ _ ‹_›

/-- `remap_term_before` moves it back. -/
theorem termFrame_remapTermBefore (pg : Paging) (t u : Term) :
    (pg.remapTermBefore t).termFrame u = if u = t then pageArr u else pg.termFrame u := by
  split
  · subst ‹u = t›
    rw [termFrame, remapTermBefore, setTerm]
    simp only [Function.update_self]
    fin_cases u <;> rfl
  · exact termFrame_setTerm_of_ne pg _ _ ‹_›

end Paging

end HarambeOs
