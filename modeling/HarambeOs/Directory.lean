import HarambeOs.Library.CString
import HarambeOs.Files

/-!
# Directory — the table `dentries`, byte by byte, and the lookups that work on it

A name of 32 characters fills its field, so that `strlen` runs on into the type: such a name counts
33 characters when the type is not 0.  `read_dentry_by_name` tells names apart by that length, and
gives up at an entry that is longer than its field and begins with the name it looks for
(`Directory.Hides`): `scan_snd` says what it finds, **`readDentryByName_sound`** that this is
the first entry of that name, and **`readDentryByName_finds_iff`** when an entry is found by its
name.  It also copies the name it was given over the one it found, which changes nothing.

`read_dentry_by_index` copies the 33 characters into a `dentry_t` of the caller and then the type
over the last of them; **`Kernel.directReads_enumerate`** says that `direct_read` lists the names
all the same.
-/

namespace HarambeOs

/-! ## `strlen`, `strncmp` and `strncpy` -/

theorem strlen_eq (s : Nat → UInt8) (n : Nat) : strlen s n = CString.length nul s n := rfl

/-- Where neither string ends early, `strncmp` compares all characters. -/
theorem strncmpEq_iff {s₁ s₂ : Nat → UInt8} {i n : Nat}
    (h : ∀ j, i ≤ j → j < i + n → s₁ j = s₂ j → s₁ j ≠ nul) :
    strncmpEq s₁ s₂ i n = true ↔ ∀ j, i ≤ j → j < i + n → s₁ j = s₂ j := by
  induction n generalizing i with
  | zero => exact iff_of_true rfl fun j hj hlt => by omega
  | succ n ih =>
    rw [strncmpEq]
    by_cases heq : s₁ i = s₂ i
    · rw [if_neg (not_not.mpr heq), if_neg (h i (Nat.le_refl i) (by omega) heq),
        ih fun j hj hlt => h j (by omega) (by omega)]
      constructor
      · intro hrest j hj hlt
        rcases Nat.eq_or_lt_of_le hj with rfl | hlt'
        · exact heq
        · exact hrest j hlt' (by omega)
      · exact fun hall j hj hlt => hall j (by omega) (by omega)
    · rw [if_pos heq]
      exact iff_of_false Bool.false_ne_true fun hall => heq (hall i (Nat.le_refl i) (by omega))

/-- `strncpy`: the characters of `src`, then NULs. -/
def strncpy (dest src : Buf) (n : Nat) : Buf :=
  fun j => if j < n then if j < strlen src n then src j else nul else dest j

/-- The characters of a NUL-terminated name. -/
def chars (fname : List UInt8) : List UInt8 := CString.text nul (commandAt fname) fname.length

/-! ## The table -/

/-- The array `dentries` as bytes, and the number of its entries in use. -/
structure Directory where
  numDentry : Nat
  dentries : Nat → UInt8

namespace Directory

variable (dir : Directory)

/-- `dentries[i].f_n`, with the memory after it. -/
def fN (i : Nat) : Nat → UInt8 := fun j => dir.dentries (i * dentryBytes + j)

/-- `strlen(dentries[i].f_n)`. -/
def nameLength (i : Nat) : Nat := strlen (dir.fN i) (dir.numDentry * dentryBytes)

/-- The other two fields of `dentries[i]`. -/
def dentry (i : Nat) : Dentry :=
  ⟨wordAt (dir.fN i) fileNameSize, wordAt (dir.fN i) (fileNameSize + 4)⟩

/-- The name of an entry: up to a NUL, or all of its field. -/
def name (i : Nat) : List UInt8 := CString.text nul (dir.fN i) fileNameSize

/-- The bytes `f 0, …, f (n - 1)` stored through `dentry_addr->f_n`. -/
def storeName (i : Nat) (f : Nat → UInt8) (n : Nat) : Directory :=
  { dir with dentries := MappedMemory.storeRange some dir.dentries (i * dentryBytes) f n }

/-- The loop of `read_dentry_by_name` from entry `i` on, with `m` entries left: the table after it,
and the fields it stores, `none` for `-1`.  `n` is the length of the name. -/
def scan (fname : Nat → UInt8) (n i : Nat) : Nat → Directory × Option Dentry
  | 0 => (dir, none)
  | m + 1 =>
    if n = 0 then (dir, none)
    else if dir.nameLength i ≤ fileNameSize ∧ n ≠ dir.nameLength i then scan fname n (i + 1) m
    else if strncmpEq fname (dir.fN i) 0 n then
      if n < fileNameSize ∧ dir.nameLength i > fileNameSize then (dir, none)
      else (dir.storeName i fname n, some ((dir.storeName i fname n).dentry i))
    else scan fname n (i + 1) m

/-- `read_dentry_by_name`. -/
def readDentryByName (fname : List UInt8) : Directory × Option Dentry :=
  dir.scan (commandAt fname) (strlen (commandAt fname) fname.length) 0 dir.numDentry

/-- `read_dentry_by_index`: the caller's `dentry_t` after it, from the bytes `m` that were there;
`none` for `-1`.  The fields after the name are stored last. -/
def readDentryByIndex (index : Nat) (m : Buf) : Option Buf :=
  if index < dir.numDentry then
    let n := dir.nameLength index
    let m := MappedMemory.storeRange some m 0 (dir.fN index) n
    let m := MappedMemory.store some m n nul
    let m := MappedMemory.storeRange some m fileNameSize
      (fun j => dir.fN index (fileNameSize + j)) 4
    some (MappedMemory.storeRange some m (fileNameSize + 4)
      (fun j => dir.fN index (fileNameSize + 4 + j)) 4)
  else none

variable {dir} {i n : Nat}

/-! ## The name that is written back -/

theorem maps_some (a n : Nat) : MappedMemory.Maps some a a n := fun _ _ => rfl

/-- What is there already can be stored again. -/
theorem storeName_self {f : Nat → UInt8} (h : ∀ j < n, f j = dir.fN i j) :
    dir.storeName i f n = dir := by
  have hbytes : MappedMemory.storeRange some dir.dentries (i * dentryBytes) f n = dir.dentries := by
    funext a
    rw [MappedMemory.storeRange_apply (maps_some _ _)]
    split
    · next ha =>
      rw [h _ (by omega), fN]
      exact congrArg dir.dentries (by omega)
    · rfl
  rw [storeName, hbytes]

/-- The characters of the name match the entry, byte by byte. -/
theorem strncmpEq_fN {fname : Nat → UInt8} (h : ∀ j < n, fname j ≠ nul) :
    strncmpEq fname (dir.fN i) 0 n = true ↔ ∀ j < n, fname j = dir.fN i j := by
  rw [strncmpEq_iff fun j _ hj _ => h j (by omega)]
  exact ⟨fun hall j hj => hall j (Nat.zero_le j) (by omega), fun hall j _ hj => hall j (by omega)⟩

/-- **The table stays as it is**, whatever the name. -/
theorem scan_fst {fname : Nat → UInt8} (h : ∀ j < n, fname j ≠ nul) (i m : Nat) :
    (dir.scan fname n i m).1 = dir := by
  induction m generalizing i with
  | zero => rfl
  | succ m ih =>
    rw [scan]
    split
    · rfl
    split
    · exact ih (i + 1)
    split
    · next hcmp =>
      split
      · rfl
      · exact storeName_self ((strncmpEq_fN h).mp hcmp)
    · exact ih (i + 1)

/-! ## What the scan finds -/

theorem nul_notMem_chars (fname : List UInt8) : nul ∉ chars fname := CString.notMem_text

theorem strlen_commandAt (fname : List UInt8) :
    strlen (commandAt fname) fname.length = (chars fname).length := CString.length_text.symm

theorem getElem_chars {fname : List UInt8} {j : Nat} (h : j < (chars fname).length) :
    (chars fname)[j] = commandAt fname j := CString.getElem_text h

theorem commandAt_ne {fname : List UInt8} :
    ∀ j < (chars fname).length, commandAt fname j ≠ nul := by
  intro j hj
  rw [← getElem_chars hj]
  exact fun hz => nul_notMem_chars fname (hz ▸ List.getElem_mem hj)

/-- The length of a name is that of its string, cut at the field. -/
theorem length_name (hi : i < dir.numDentry) :
    (dir.name i).length = min fileNameSize (dir.nameLength i) := by
  rw [name, CString.length_text, nameLength, strlen_eq]
  refine CString.length_of_le ?_
  rw [fileNameSize, dentryBytes]
  omega

theorem getElem_name {j : Nat} (h : j < (dir.name i).length) : (dir.name i)[j] = dir.fN i j :=
  CString.getElem_text h

/-- Entry `i` ends the search for a name it does not have: it runs past its field and begins with
the name. -/
def Hides (dir : Directory) (i : Nat) (c : List UInt8) : Prop :=
  fileNameSize < dir.nameLength i ∧ c.length < fileNameSize ∧ c <+: dir.name i

instance (dir : Directory) (i : Nat) (c : List UInt8) : Decidable (dir.Hides i c) :=
  inferInstanceAs (Decidable (_ ∧ _ ∧ _))

/-- For a name that fits the field, `strncmp` asks whether the entry begins with it. -/
theorem strncmpEq_iff_isPrefix {fname : List UInt8} (h : (chars fname).length ≤ fileNameSize) :
    strncmpEq (commandAt fname) (dir.fN i) 0 (chars fname).length = true ↔
      chars fname <+: dir.name i := by
  rw [strncmpEq_fN commandAt_ne, name, CString.isPrefix_text_iff (nul_notMem_chars fname) h]
  constructor
  · intro hall j hj
    rw [getElem_chars, hall j hj]
  · intro hall j hj
    rw [← getElem_chars hj, hall j hj]

/-- **What the scan finds**: it stops at the first entry that has the name or hides it. -/
theorem scan_snd {fname : List UInt8} (hpos : chars fname ≠ [])
    (h : (chars fname).length ≤ fileNameSize) {i m : Nat} (hm : i + m ≤ dir.numDentry) :
    (dir.scan (commandAt fname) (chars fname).length i m).2 =
      ((List.range' i m).find? fun j =>
        decide (dir.name j = chars fname ∨ dir.Hides j (chars fname))).bind fun j =>
          if dir.name j = chars fname then some (dir.dentry j) else none := by
  have hn : (chars fname).length ≠ 0 := fun h0 => hpos (List.eq_nil_of_length_eq_zero h0)
  induction m generalizing i with
  | zero => rfl
  | succ m ih =>
    have ih := ih (i := i + 1) (by omega)
    have hlen := dir.length_name (i := i) (by omega)
    rw [scan, if_neg hn, List.range'_succ, List.find?_cons]
    -- An entry that is passed over neither has the name nor hides it.
    have hskip (hne : dir.name i ≠ chars fname) (hh : ¬ dir.Hides i (chars fname)) :
        decide (dir.name i = chars fname ∨ dir.Hides i (chars fname)) = false :=
      decide_eq_false (not_or.mpr ⟨hne, hh⟩)
    split
    · next hlt =>
      rw [hskip (fun he => hlt.2 (by rw [← he, hlen]; omega)) fun hh => absurd hh.1 (by omega)]
      exact ih
    next hlt =>
    by_cases hp : chars fname <+: dir.name i
    · rw [if_pos ((strncmpEq_iff_isPrefix h).mpr hp)]
      split
      · next hhide =>
        have hne : dir.name i ≠ chars fname := fun he => by
          rw [← he, hlen] at hhide
          omega
        rw [decide_eq_true (Or.inr ⟨hhide.2, hhide.1, hp⟩), Option.bind_some, if_neg hne]
      · next hhide =>
        have heq : dir.name i = chars fname := (hp.eq_of_length (by omega)).symm
        rw [decide_eq_true (Or.inl heq), Option.bind_some, if_pos heq,
          storeName_self ((strncmpEq_fN commandAt_ne).mp ((strncmpEq_iff_isPrefix h).mpr hp))]
    · rw [if_neg fun hc => hp ((strncmpEq_iff_isPrefix h).mp hc),
        hskip (fun he => hp (he ▸ List.prefix_refl _)) fun hh => hp hh.2.2]
      exact ih

theorem readDentryByName_eq (fname : List UInt8) :
    dir.readDentryByName fname =
      dir.scan (commandAt fname) (chars fname).length 0 dir.numDentry := by
  rw [readDentryByName, strlen_commandAt]

theorem readDentryByName_of_nil {fname : List UInt8} (h : chars fname = []) :
    (dir.readDentryByName fname).2 = none := by
  rw [readDentryByName_eq, h]
  cases dir.numDentry <;> rfl

/-- **Lookup is sound.**  It leaves the table as it was; and what it finds for a name that fits the
field is the first entry with that name. -/
theorem readDentryByName_sound (dir : Directory) (fname : List UInt8) :
    (dir.readDentryByName fname).1 = dir ∧
      ∀ d, (dir.readDentryByName fname).2 = some d → (chars fname).length ≤ 32 →
        ∃ i < dir.numDentry, d = dir.dentry i ∧ dir.name i = chars fname ∧
          ∀ j < i, dir.name j ≠ chars fname := by
  refine ⟨?_, fun d hd h => ?_⟩
  · rw [readDentryByName_eq]
    exact scan_fst commandAt_ne 0 dir.numDentry
  · by_cases hnil : chars fname = []
    · rw [readDentryByName_of_nil hnil] at hd
      cases hd
    rw [readDentryByName_eq, scan_snd hnil h (by omega), Option.bind_eq_some_iff] at hd
    obtain ⟨i, hi, hd⟩ := hd
    rw [List.find?_range'_eq_some] at hi
    obtain ⟨-, hi, hbefore⟩ := hi
    split at hd
    · next heq =>
      refine ⟨i, ?_, (Option.some.inj hd).symm, heq, fun j hj he => ?_⟩
      · have := (List.mem_range'_1.mp hi).2
        omega
      · have := hbefore j (Nat.zero_le j) hj
        rw [decide_eq_true (Or.inl he)] at this
        cases this
    · cases hd

/-! ## Every entry, by name and by index -/

/-- A string that runs past its field: 32 characters, and a type other than 0. -/
theorem lt_nameLength_iff (hi : i < dir.numDentry) (hty : (dir.dentry i).fT ≤ 2) :
    fileNameSize < dir.nameLength i ↔
      (dir.name i).length = fileNameSize ∧ (dir.dentry i).fT ≠ 0 := by
  have hlen := length_name hi
  rw [dentry, wordAt] at hty ⊢
  constructor
  · intro hlt
    have hbyte : dir.fN i fileNameSize ≠ nul := CString.ne_of_lt_length hlt
    have hpos : (dir.fN i fileNameSize).toNat ≠ 0 := fun h0 => hbyte (UInt8.toNat_inj.mp h0)
    exact ⟨by omega, by dsimp only; omega⟩
  · rintro ⟨hfull, hne⟩
    by_contra hle
    have heq : dir.nameLength i = fileNameSize := by omega
    have hfield : fileNameSize < dir.numDentry * dentryBytes := by
      rw [fileNameSize, dentryBytes]
      omega
    have hbyte : dir.fN i fileNameSize = nul := by
      have hend := CString.eq_of_length_lt (z := nul) (m := dir.fN i) (heq.trans_lt hfield)
      rwa [← strlen_eq, ← nameLength, heq] at hend
    rw [hbyte] at hty hne
    dsimp only at hty hne
    have : nul.toNat = 0 := rfl
    omega

/-- The `dentry_t` that `read_dentry_by_index` leaves, byte by byte. -/
theorem readDentryByIndex_eq_some (hi : i < dir.numDentry) (m : Buf) :
    ∃ r, dir.readDentryByIndex i m = some r ∧
      ∀ a, r a = if fileNameSize ≤ a ∧ a < fileNameSize + 8 ∨ a < dir.nameLength i then dir.fN i a
        else if a = dir.nameLength i then nul else m a := by
  refine ⟨_, if_pos hi, fun a => ?_⟩
  rw [MappedMemory.storeRange_apply (maps_some _ _), MappedMemory.storeRange_apply (maps_some _ _),
    MappedMemory.store_of_eq_some rfl, Function.update_apply,
    MappedMemory.storeRange_apply (maps_some _ _)]
  by_cases hinode : fileNameSize + 4 ≤ a ∧ a < fileNameSize + 4 + 4
  · rw [if_pos hinode, if_pos (Or.inl (by omega))]
    exact congrArg (dir.fN i) (by omega)
  rw [if_neg hinode]
  by_cases htype : fileNameSize ≤ a ∧ a < fileNameSize + 4
  · rw [if_pos htype, if_pos (Or.inl (by omega))]
    exact congrArg (dir.fN i) (by omega)
  rw [if_neg htype]
  rcases Nat.lt_trichotomy a (dir.nameLength i) with hlt | heq | hgt
  · rw [if_neg (by omega), if_pos (by omega), if_pos (Or.inr hlt), Nat.sub_zero]
  · rw [if_pos heq, if_neg (by omega), if_pos heq]
  · rw [if_neg (by omega), if_neg (by omega), if_neg (by omega), if_neg (by omega)]

/-- The fields of a `dentry_t` in memory. -/
def fields (m : Buf) : Dentry := ⟨wordAt m fileNameSize, wordAt m (fileNameSize + 4)⟩

/-- **By index, every entry is reported as it stands in the table.** -/
theorem fields_readDentryByIndex (hi : i < dir.numDentry) (m : Buf) :
    (dir.readDentryByIndex i m).map fields = some (dir.dentry i) := by
  obtain ⟨r, hr, hbytes⟩ := readDentryByIndex_eq_some hi m
  have hbyte {a : Nat} (h : fileNameSize ≤ a) (h' : a < fileNameSize + 8) : r a = dir.fN i a := by
    rw [hbytes, if_pos (Or.inl ⟨h, h'⟩)]
  rw [hr, Option.map_some, fields, dentry]
  unfold wordAt
  rw [hbyte, hbyte, hbyte, hbyte, hbyte, hbyte, hbyte, hbyte] <;> omega

/-- Names that tell the entries apart, and the three types of files. -/
structure WellNamed (dir : Directory) : Prop where
  distinct : ∀ i < dir.numDentry, ∀ j < dir.numDentry, dir.name i = dir.name j → i = j
  nonempty : ∀ i < dir.numDentry, dir.name i ≠ []
  types : ∀ i < dir.numDentry, (dir.dentry i).fT ≤ 2

theorem chars_name (dir : Directory) (i : Nat) : chars (dir.name i) = dir.name i :=
  CString.text_getD CString.notMem_text (Nat.le_refl _)

/-- Which entries hide a name, in terms of the table: a full name runs on into a type other than
0. -/
theorem hides_iff (hi : i < dir.numDentry) (hty : (dir.dentry i).fT ≤ 2) {c : List UInt8} :
    dir.Hides i c ↔ (dir.name i).length = 32 ∧ (dir.dentry i).fT ≠ 0 ∧ c.length < 32 ∧
      c <+: dir.name i := by
  rw [Hides, lt_nameLength_iff hi hty, and_assoc]
  rfl

/-- Entry `i` is found by its name unless an earlier one hides it. -/
theorem readDentryByName_name_iff (h : dir.WellNamed) (hi : i < dir.numDentry) :
    (dir.readDentryByName (dir.name i)).2 = some (dir.dentry i) ↔
      ∀ j < i, ¬ dir.Hides j (dir.name i) := by
  have hnil : chars (dir.name i) ≠ [] := by
    rw [chars_name]
    exact h.nonempty i hi
  have hfit : (chars (dir.name i)).length ≤ fileNameSize := by
    rw [chars_name, length_name hi]
    exact Nat.min_le_left ..
  rw [readDentryByName_eq, scan_snd hnil hfit (by omega), chars_name]
  constructor
  · intro hfound j hj hhide
    obtain ⟨k, hk, hsome⟩ := Option.bind_eq_some_iff.mp hfound
    rw [List.find?_range'_eq_some] at hk
    obtain ⟨-, hmem, hbefore⟩ := hk
    have hkN := (List.mem_range'_1.mp hmem).2
    split at hsome
    · next heq =>
      obtain rfl := h.distinct k (by omega) i hi heq
      have hnot := hbefore j (Nat.zero_le j) hj
      rw [decide_eq_true (Or.inr hhide)] at hnot
      cases hnot
    · cases hsome
  · intro hfree
    refine Option.bind_eq_some_iff.mpr ⟨i, ?_, if_pos rfl⟩
    rw [List.find?_range'_eq_some]
    refine ⟨decide_eq_true (Or.inl rfl), List.mem_range'_1.mpr (by omega), fun j _ hj => ?_⟩
    have hne : dir.name j ≠ dir.name i := fun heq =>
      absurd (h.distinct j (by omega) i hi heq) (Nat.ne_of_lt hj)
    rw [decide_eq_false (not_or.mpr ⟨hne, hfree j hj⟩)]
    rfl

/-- **Every file can be found** by its name, with the fields it has by its index, exactly when no
earlier entry has a type other than 0 and a name of 32 characters that begins with its shorter
name. -/
theorem readDentryByName_finds_iff (h : dir.WellNamed) (hi : i < dir.numDentry) (m : Buf) :
    ((dir.readDentryByName (dir.name i)).2 = some (dir.dentry i) ∧
        (dir.readDentryByIndex i m).map fields = some (dir.dentry i)) ↔
      ∀ j < i, ¬ ((dir.name j).length = 32 ∧ (dir.dentry j).fT ≠ 0 ∧
        (dir.name i).length < 32 ∧ dir.name i <+: dir.name j) := by
  rw [and_iff_left (fields_readDentryByIndex hi m), readDentryByName_name_iff h hi]
  refine forall₂_congr fun j hj => not_congr (hides_iff (by omega) (h.types j (by omega)))

end Directory

/-! ## The table of an image -/

namespace Image

/-- The table as `fs_init` fills it. -/
def directory (img : Image) : Directory := ⟨img.numDentry, img.dentries⟩

variable {img : Image} {i n : Nat}

@[simp] theorem fN_directory (img : Image) (i : Nat) : img.directory.fN i = img.fN i := rfl

@[simp] theorem nameLength_directory (img : Image) (i : Nat) :
    img.directory.nameLength i = img.nameLength i := rfl

theorem fN_eq (hi : i < img.numDentry) {j : Nat} (hj : j < dentryBytes) :
    img.fN i j = img.bytes (offsetInit + i * offsetInit + j) := by
  rw [dentryBytes] at hj
  have hdiv : (i * dentryBytes + j) / dentryBytes = i := by
    rw [dentryBytes]
    omega
  have hmod : (i * dentryBytes + j) % dentryBytes = j := by
    rw [dentryBytes]
    omega
  rw [fN, dentries, hdiv, hmod, if_pos hi]

theorem dentry_directory (hi : i < img.numDentry) : img.directory.dentry i = img.dentry i := by
  have hword {a : Nat} (ha : a + 3 < dentryBytes) :
      wordAt (img.directory.fN i) a = img.word (offsetInit + i * offsetInit + a) := by
    rw [wordAt, word, wordAt, fN_directory]
    rw [fN_eq hi (by omega), fN_eq hi (by omega), fN_eq hi (by omega), fN_eq hi ha]
    rfl
  rw [Directory.dentry, dentry, hword (by decide), hword (by decide)]
  rfl

/-- **The scan of the table** finds what the lookup in the image finds. -/
theorem findDentry_eq_scan {fname : Nat → UInt8} (h : ∀ j < n, fname j ≠ nul) {m : Nat}
    (hm : i + m ≤ img.numDentry) :
    img.findDentry fname n i m = (img.directory.scan fname n i m).2 := by
  induction m generalizing i with
  | zero => rfl
  | succ m ih =>
    have ih := ih (i := i + 1) (by omega)
    rw [findDentry, Directory.scan, nameLength_directory, fN_directory]
    split
    · rfl
    split
    · exact ih
    split
    · next hcmp =>
      split
      · rfl
      · rw [← fN_directory] at hcmp
        rw [Directory.storeName_self ((Directory.strncmpEq_fN h).mp hcmp),
          dentry_directory (by omega)]
    · exact ih

theorem readDentryByName_eq_directory (img : Image) (fname : List UInt8) :
    img.readDentryByName fname = (img.directory.readDentryByName fname).2 := by
  rw [readDentryByName, Directory.readDentryByName_eq, Directory.strlen_commandAt]
  exact findDentry_eq_scan Directory.commandAt_ne (Nat.zero_add _).le

end Image

/-- Thirty-two characters `a`, and one. -/
def longFirst : Image := Image.ofPieces
  [(0, [2]), (64, List.replicate 32 97), (96, [2]), (128, [97]), (160, [2, 0, 0, 0, 1])]

/-- The same the other way round. -/
def shortFirst : Image := Image.ofPieces
  [(0, [2]), (64, [97]), (96, [2, 0, 0, 0, 1]), (128, List.replicate 32 97), (160, [2])]

theorem Directory.readDentryByName_finds_iff_shortFirst :
    (shortFirst.directory.readDentryByName (shortFirst.directory.name 1)).2 =
      some (shortFirst.directory.dentry 1) := by
  have hnamed : shortFirst.directory.WellNamed :=
    ⟨by decide +kernel, by decide +kernel, by decide +kernel⟩
  exact ((Directory.readDentryByName_finds_iff hnamed (by decide +kernel) fun _ => 0).mpr
    (by decide +kernel)).1

/-- The short name is not found behind the long one. -/
theorem Directory.readDentryByName_hidden : longFirst.directory.WellNamed ∧
    1 < longFirst.directory.numDentry ∧ longFirst.directory.name 1 = [97] ∧
    (longFirst.directory.readDentryByName [97]).2.isSome = false :=
  ⟨⟨by decide +kernel, by decide +kernel, by decide +kernel⟩, by decide +kernel, by decide +kernel,
    by decide +kernel⟩

end HarambeOs
