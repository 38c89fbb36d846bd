import HarambeOs.Directory

/-!
# Listing — `direct_read` lists the directory

`direct_read` copies the name of the entry at its position out of a `dentry_t` on the stack.  For a
full name of a file whose type is not 0 the string there has 33 characters, the last of them the
type; a program that asks for 32 at a time never sees it.  `directReadBytes` is the function on the
bytes of the table, `directReadBytes_eq` says that it is `Kernel.directRead` on the image's file
system, and **`Kernel.directReads_enumerate`** is the whole listing.
-/

namespace HarambeOs

namespace Directory

variable {dir : Directory} {i : Nat}

/-- With a type below 3, the string of a full name ends inside the type. -/
theorem nameLength_le (hty : (dir.dentry i).fT ≤ 2) : dir.nameLength i ≤ 33 := by
  by_contra hlt
  have hbyte : dir.fN i (fileNameSize + 1) ≠ nul := CString.ne_of_lt_length (Nat.not_le.mp hlt)
  have hpos : (dir.fN i (fileNameSize + 1)).toNat ≠ 0 := fun h0 => hbyte (UInt8.toNat_inj.mp h0)
  rw [dentry, wordAt] at hty
  dsimp only at hty
  omega

/-- The string in the `dentry_t` is the one in the table. -/
theorem length_readDentryByIndex (hlen : dir.nameLength i < dentryBytes) {m r : Buf}
    (hr : dir.readDentryByIndex i m = some r) :
    strlen r dentryBytes = dir.nameLength i ∧ ∀ j < dir.nameLength i, r j = dir.fN i j := by
  have hi : i < dir.numDentry := by
    by_contra hi
    rw [readDentryByIndex, if_neg hi] at hr
    cases hr
  obtain ⟨r', hr', hbytes⟩ := readDentryByIndex_eq_some hi m
  obtain rfl := Option.some.inj (hr.symm.trans hr')
  have hchar : ∀ j < dir.nameLength i, r j = dir.fN i j := fun j hj => by
    rw [hbytes, if_pos (Or.inr hj)]
  have hend : dir.fN i (dir.nameLength i) = nul := by
    refine CString.eq_of_length_lt (Nat.lt_of_lt_of_le hlen ?_)
    rw [dentryBytes]
    omega
  refine ⟨CString.length_eq_iff.mpr ⟨hlen.le, fun j hj => ?_, fun _ => ?_⟩, hchar⟩
  · rw [hchar j hj]
    exact CString.ne_of_lt_length hj
  · rw [hbytes]
    split
    · exact hend
    · exact if_pos rfl

end Directory

namespace Kernel

variable {dir : Directory} {k : Kernel} {fd : Nat}

/-- `direct_read` on the bytes of the table; `junk` is what the stack held where `dentry` is. -/
def directReadBytes (dir : Directory) (fd : Nat) (buf : Buf) (nbytes : Int) (junk : Buf)
    (k : Kernel) : Option (Kernel × Int × Buf) :=
  let entry := k.ownFd fd
  match dir.readDentryByIndex entry.position junk with
  | none => some (k, 0, buf)
  | some dentry =>
    if nbytes = 0 then some (k, 0, buf)
    else
      let n := min nbytes (strlen dentry dentryBytes)
      if n < 0 then none
      else some (k.atPosition fd (toUnsigned (entry.position + 1)), n, strncpy buf dentry n.toNat)

/-- At the end of the directory nothing happens. -/
theorem directReadBytes_of_le (h : dir.numDentry ≤ (k.ownFd fd).position) (buf : Buf) (nbytes : Int)
    (junk : Buf) : k.directReadBytes dir fd buf nbytes junk = some (k, 0, buf) := by
  rw [directReadBytes, Directory.readDentryByIndex, if_neg (Nat.not_lt.mpr h)]

/-- Neither does it when nothing is asked for. -/
theorem directReadBytes_zero (dir : Directory) (k : Kernel) (fd : Nat) (buf junk : Buf) :
    k.directReadBytes dir fd buf 0 junk = some (k, 0, buf) := by
  rw [directReadBytes]
  split
  · rfl
  · exact if_pos rfl

/-- Before the end, the characters that the string and the size leave. -/
theorem directReadBytes_of_lt (h : (k.ownFd fd).position < dir.numDentry)
    (hlen : dir.nameLength (k.ownFd fd).position < dentryBytes) (buf : Buf) {n : Nat} (hn : 0 < n)
    (junk : Buf) :
    k.directReadBytes dir fd buf n junk =
      some (k.atPosition fd (toUnsigned ((k.ownFd fd).position + 1)),
        ((min n (dir.nameLength (k.ownFd fd).position) : Nat) : Int),
        fun j => if j < min n (dir.nameLength (k.ownFd fd).position)
          then dir.fN (k.ownFd fd).position j else buf j) := by
  obtain ⟨r, hr, -⟩ := Directory.readDentryByIndex_eq_some h junk
  obtain ⟨hstr, hchar⟩ := Directory.length_readDentryByIndex hlen hr
  have hmin : min (n : Int) (dir.nameLength (k.ownFd fd).position) =
      (min n (dir.nameLength (k.ownFd fd).position) : Nat) := by omega
  rw [directReadBytes, hr]
  dsimp only
  rw [if_neg (by omega), hstr, hmin, if_neg (by omega), Int.toNat_natCast]
  congr 3
  funext j
  have hshort : strlen r (min n (dir.nameLength (k.ownFd fd).position)) =
      min n (dir.nameLength (k.ownFd fd).position) := by
    rw [strlen_eq, CString.length_of_le (by omega : _ ≤ dentryBytes), ← strlen_eq, hstr]
    omega
  rw [strncpy, hshort]
  split
  · next hj => exact hchar j (by omega)
  · rfl

/-- **On an image**, with files of the three types, `direct_read` is what the file system says. -/
theorem directReadBytes_eq {img : Image} (hty : ∀ i < img.numDentry, (img.dentry i).fT ≤ 2)
    (tests : TestOutput) (k : Kernel) (fd : Nat) (buf : Buf) (n : Nat) (junk : Buf) :
    k.directReadBytes img.directory fd buf n junk =
      k.directRead (img.fileSystem tests) fd buf n := by
  rw [directRead, ← ownFd, Image.readDentryByIndex_fileSystem, Image.readDentryByIndex]
  rcases Nat.lt_or_ge (k.ownFd fd).position img.numDentry with hpos | hpos
  · rcases Nat.eq_zero_or_pos n with rfl | hn
    · rw [Nat.cast_zero, directReadBytes_zero, if_pos hpos]
      exact (if_pos rfl).symm
    have hlen : img.directory.nameLength (k.ownFd fd).position ≤ 33 := by
      refine Directory.nameLength_le ?_
      rw [Image.dentry_directory hpos]
      exact hty _ hpos
    rw [directReadBytes_of_lt hpos (Nat.lt_of_le_of_lt hlen (by decide)) buf hn junk, if_pos hpos]
    dsimp only
    rw [if_neg (by omega), if_neg (by omega), List.length_map, List.length_range,
      Int.toNat_natCast, atPosition, Image.nameLength_directory, Image.fN_directory]
    have hbuf (j : Nat) :
        (if j < min n (img.nameLength (k.ownFd fd).position) then img.fN (k.ownFd fd).position j
          else buf j) =
        if j < min n (img.nameLength (k.ownFd fd).position) then
          ((List.range (img.nameLength (k.ownFd fd).position)).map
            (img.fN (k.ownFd fd).position)).getD j nul
        else buf j := by
      split
      · next hj =>
        rw [List.getD_eq_getElem _ _ (by rw [List.length_map, List.length_range]; omega),
          List.getElem_map, List.getElem_range]
      · rfl
    rw [funext hbuf]
  · rw [directReadBytes_of_le hpos, if_neg (Nat.not_lt.mpr hpos)]

end Kernel

/-! ## The whole listing -/

/-- A `direct_read` call of a program that lists the directory. -/
structure NameRead where
  buf : Buf
  nbytes : Nat
  positive : 1 ≤ nbytes
  small : nbytes ≤ 32
  junk : Buf

/-- What call number `j` is to return: the next name as far as the size goes, or nothing after the
last one. -/
def Directory.listed (dir : Directory) (j : Nat) (c : NameRead) : Int × Buf :=
  if j < dir.numDentry then
    (((dir.name j).take c.nbytes).length, fun i => ((dir.name j).take c.nbytes).getD i (c.buf i))
  else (0, c.buf)

/-- The beginning of a name, over what was there. -/
theorem Directory.getD_take_name (dir : Directory) (p n i : Nat) (b : UInt8) :
    ((dir.name p).take n).getD i b =
      if i < ((dir.name p).take n).length then dir.fN p i else b := by
  split
  · next hi => rw [List.getD_eq_getElem _ _ hi, List.getElem_take, getElem_name]
  · next hi => rw [List.getD_eq_default _ _ (Nat.not_lt.mp hi)]

namespace Kernel

variable {dir : Directory} {k : Kernel} {fd : Nat}

/-- One call, for the results of the calls before it. -/
def listStep (dir : Directory) (fd : Nat) (s : Kernel × List (Int × Buf)) (c : NameRead) :
    Option (Kernel × List (Int × Buf)) :=
  (s.1.directReadBytes dir fd c.buf c.nbytes c.junk).map fun r => (r.1, s.2 ++ [r.2])

/-- Call number `p` returns what it is to return, and moves on unless the listing is over. -/
theorem listStep_eq (hty : ∀ i < dir.numDentry, (dir.dentry i).fT ≤ 2)
    (hsmall : dir.numDentry ≤ 63) {p : Nat} (hp : (k.ownFd fd).position = min p dir.numDentry)
    (got : List (Int × Buf)) (c : NameRead) :
    ∃ k', listStep dir fd (k, got) c = some (k', got ++ [dir.listed p c]) ∧
      (k'.ownFd fd).position = min (p + 1) dir.numDentry := by
  rcases Nat.lt_or_ge p dir.numDentry with hlt | hge
  · have hpos : (k.ownFd fd).position = p := by omega
    have hlen := Directory.nameLength_le (hty p hlt)
    have hread := directReadBytes_of_lt (k := k) (hpos ▸ hlt)
      (hpos ▸ Nat.lt_of_le_of_lt hlen (by decide)) c.buf c.positive c.junk
    have htake : min c.nbytes (dir.nameLength p) = ((dir.name p).take c.nbytes).length := by
      have := c.small
      rw [List.length_take, Directory.length_name hlt, fileNameSize]
      omega
    rw [hpos, htake] at hread
    simp only [← Directory.getD_take_name] at hread
    refine ⟨k.atPosition fd (toUnsigned (p + 1)), ?_, ?_⟩
    · rw [listStep, hread, Option.map_some, Directory.listed, if_pos hlt]
    · rw [ownFd_atPosition, if_pos rfl]
      have hnext : toUnsigned ((p : Int) + 1) = (p + 1) % 2 ^ 32 := toUnsigned_natCast (p + 1)
      dsimp only
      omega
  · refine ⟨k, ?_, by omega⟩
    rw [listStep, directReadBytes_of_le (by dsimp only; omega), Option.map_some, Directory.listed,
      if_neg (by omega)]

/-- **The directory is listed once, in order.**  Successive calls on a descriptor at position 0
return the names, each as far as its call's size goes, and then 0 for ever. -/
theorem directReads_enumerate (hty : ∀ i < dir.numDentry, (dir.dentry i).fT ≤ 2)
    (hsmall : dir.numDentry ≤ 63) (hpos : (k.ownFd fd).position = 0) (cs : List NameRead) :
    ∃ k', Runs.run (listStep dir fd) (k, []) cs = some (k', cs.mapIdx dir.listed) ∧
      (k'.ownFd fd).position = min cs.length dir.numDentry := by
  -- From call number `p` on, with `got` returned before it.
  have hrest (p : Nat) (got : List (Int × Buf)) (k : Kernel)
      (hp : (k.ownFd fd).position = min p dir.numDentry) :
      ∃ k', Runs.run (listStep dir fd) (k, got) cs =
          some (k', got ++ cs.mapIdx fun j c => dir.listed (p + j) c) ∧
        (k'.ownFd fd).position = min (p + cs.length) dir.numDentry := by
    induction cs generalizing p got k with
    | nil => exact ⟨k, by rw [List.mapIdx_nil, List.append_nil]; rfl, hp⟩
    | cons c cs ih =>
      obtain ⟨k₁, hstep, hp₁⟩ := listStep_eq hty hsmall hp got c
      obtain ⟨k', hrun, hp'⟩ := ih (p + 1) _ k₁ hp₁
      refine ⟨k', ?_, ?_⟩
      · rw [Runs.run_cons, hstep, Option.bind_some, hrun, List.mapIdx_cons, List.append_assoc]
        simp only [Nat.add_zero, Nat.add_assoc, Nat.add_comm 1, List.singleton_append]
      · rw [hp', List.length_cons]
        omega
  obtain ⟨k', hrun, hp'⟩ := hrest 0 [] k (by omega)
  refine ⟨k', ?_, by rw [hp', Nat.zero_add]⟩
  rw [hrun, List.nil_append]
  simp only [Nat.zero_add]

end Kernel

/-- A call for `n + 1` characters, into a buffer of zeros. -/
def nameRead (n : Fin 32) : NameRead where
  buf _ := 0
  nbytes := n + 1
  positive := Nat.succ_le_succ (Nat.zero_le n)
  small := n.isLt
  junk _ := 1

/-- Three calls on a directory of two entries, the first with a full name. -/
theorem Kernel.directReads_enumerate_longFirst : ∃ k,
    Runs.run (Kernel.listStep longFirst.directory 2) (reader, [])
      [nameRead 31, nameRead 31, nameRead 4] =
        some (k, [nameRead 31, nameRead 31, nameRead 4].mapIdx longFirst.directory.listed) ∧
    (k.ownFd 2).position = 2 :=
  Kernel.directReads_enumerate (by decide +kernel) (by decide +kernel) rfl
    [nameRead 31, nameRead 31, nameRead 4]

end HarambeOs
