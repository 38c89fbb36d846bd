import HarambeOs.Image

/-!
# Files — reading a file piece by piece

`file_read` reads at the position of the descriptor and moves it on.  `read_data` does not stop at
the end of the file: it reads past it, as far as there are blocks, and `file_read` takes a NUL at
the front of the buffer for the end.  So a file comes out whole only where that test tells the
truth: where no piece begins with a NUL before the end, and where the pointers past the last block
that `read_data` walks over do not make it fail.

`Sync` is the invariant of one descriptor: its position is the number of bytes returned, until the
whole file has been returned.
-/

namespace HarambeOs

/-- Each inode's pointers, for the blocks its length needs, are data blocks of the image. -/
def Image.WellFormed (img : Image) : Prop :=
  ∀ inode < img.numInode, ∀ j, j * blockSize < img.length inode → img.data inode j < img.numData

/-- A `file_read` call: a descriptor, the caller's buffer, and a positive size. -/
structure FileRead where
  fd : Nat
  buf : Buf
  nbytes : Nat
  positive : 0 < nbytes
  small : nbytes < 2 ^ 31

namespace Kernel

variable {img : Image} {tests : TestOutput} {k k' k₀ : Kernel} {e : FileRead}

/-- A descriptor of the running process. -/
def ownFd (k : Kernel) (fd : Nat) : Fd := (k.proc.slots k.running).fdArray fd

/-- A descriptor open on a regular file. -/
def IsFile (k : Kernel) (fd : Nat) : Prop :=
  (k.ownFd fd).operations = some .file ∧ (k.ownFd fd).flags = 1

/-- `file_read`, with the position updated through the global `PCB`. -/
def fileReadCall (fs : FileSystem) (k : Kernel) (e : FileRead) : Option (Kernel × Int × Buf) :=
  k.proc.pcb.map fun pcb => k.fileRead fs pcb e.fd e.buf e.nbytes

/-- The state after a `file_read`. -/
def readStep (fs : FileSystem) (k : Kernel) (e : FileRead) : Option Kernel :=
  (k.fileReadCall fs e).map Prod.fst

/-- The bytes a `file_read` returns: as many of the buffer as its value says. -/
def bytesOf (r : Int × Buf) : List UInt8 := (List.range r.1.toNat).map r.2

/-- The bytes returned so far, for each descriptor. -/
def received (fs : FileSystem) (k : Kernel) (e : FileRead) (_ : Kernel) (got : Nat → List UInt8) :
    Nat → List UInt8 :=
  (k.fileReadCall fs e).elim got fun r =>
    Function.update got e.fd (got e.fd ++ bytesOf r.2)

/-- `file_read` calls, with what they returned. -/
def readFiles (fs : FileSystem) := Runs.withGhost (readStep fs) (received fs)

/-- A call the code serves right: on a regular file and, before the end of the file, on a byte that
is not NUL and with pointers to data blocks also where the walk of `read_data` leaves the file. -/
def Serves (img : Image) (s : Kernel × (Nat → List UInt8)) (e : FileRead) : Prop :=
  let fd := s.1.ownFd e.fd
  s.1.IsFile e.fd ∧
    (fd.position < img.length fd.inode →
      fd.inode < img.numInode ∧
      (∀ j ≤ (fd.position + img.length fd.inode) / blockSize,
        img.length fd.inode ≤ j * blockSize → img.data fd.inode j < img.numData) ∧
      img.content fd.inode fd.position ≠ nul)

instance (img : Image) (s : Kernel × (Nat → List UInt8)) (e : FileRead) :
    Decidable (Serves img s e) :=
  inferInstanceAs (Decidable ((_ = _ ∧ _ = _) ∧
    (_ < _ → _ < _ ∧ (∀ j ≤ _, _ ≤ _ → _ < _) ∧ _ ≠ _)))

/-! ## One descriptor -/

/-- The position of a descriptor of the running process set. -/
def atPosition (k : Kernel) (fd pos : Nat) : Kernel :=
  k.setSlot k.running ((k.proc.slots k.running).setFd fd { k.ownFd fd with position := pos })

theorem ownFd_atPosition (k : Kernel) (fd pos i : Nat) :
    (k.atPosition fd pos).ownFd i =
      if i = fd then { k.ownFd fd with position := pos } else k.ownFd i := by
  have hslot : (k.atPosition fd pos).proc.slots k.running =
      (k.proc.slots k.running).setFd fd { k.ownFd fd with position := pos } :=
    Function.update_self ..
  rw [ownFd, show (k.atPosition fd pos).running = k.running from rfl, hslot, Pcb.setFd]
  exact Function.update_apply ..

theorem atPosition_self (k : Kernel) (fd : Nat) : k.atPosition fd (k.ownFd fd).position = k := by
  have hfds : (k.proc.slots k.running).setFd fd (k.ownFd fd) = k.proc.slots k.running := by
    rw [Pcb.setFd, ownFd, Function.update_eq_self]
  rw [atPosition, setSlot, hfds, Function.update_eq_self]

/-- A read changes at most the position of its descriptor. -/
theorem fileReadCall_eq_some {fs : FileSystem} {r : Kernel × Int × Buf}
    (hpcb : k.proc.pcb = some k.running) (h : k.fileReadCall fs e = some r) :
    ∃ pos, r.1 = k.atPosition e.fd pos := by
  rw [fileReadCall, hpcb] at h
  obtain rfl := Option.some.inj h
  simp only [fileRead]
  split
  · exact ⟨_, (k.atPosition_self e.fd).symm⟩
  · exact ⟨_, rfl⟩

/-- The list a read brought in, read back from the buffer it was copied to. -/
theorem bytesOf_getD (l : List UInt8) (buf : Buf) :
    bytesOf ((l.length : Int), fun j => l.getD j (buf j)) = l := by
  refine List.ext_getElem (by simp [bytesOf]) fun i h _ => ?_
  simp only [bytesOf, List.getElem_map, List.getElem_range]
  exact List.getD_eq_getElem _ _ _

/-- The pointers a read walks over are data blocks: those the length needs, and the others by
assumption. -/
theorem inData_of_serves {got : Nat → List UInt8} (hwf : img.WellFormed)
    (hg : Serves img (k, got) e)
    (hpos : (k.ownFd e.fd).position < img.length (k.ownFd e.fd).inode) {j : Nat}
    (hj : j * blockSize ≤ (k.ownFd e.fd).position + img.length (k.ownFd e.fd).inode) :
    img.data (k.ownFd e.fd).inode j < img.numData := by
  obtain ⟨hinode, hrest, -⟩ := hg.2 hpos
  rcases Nat.lt_or_ge (j * blockSize) (img.length (k.ownFd e.fd).inode) with hlt | hge
  · exact hwf _ hinode j hlt
  · exact hrest j ((Nat.le_div_iff_mul_le (by decide)).mpr hj) hge

theorem toUnsigned_natCast (n : Nat) : toUnsigned n = n % 2 ^ 32 := by
  rw [toUnsigned]
  omega

/-- `file_read` for the process `PCB` points at, where `read_data` succeeds and the buffer then
does not begin with a NUL. -/
theorem fileRead_of_some {fs : FileSystem} {fd : Nat} {buf : Buf} {nbytes : Int} {l : List UInt8}
    (h : fs.readData (k.ownFd fd).inode (k.ownFd fd).position (toUnsigned nbytes) = some l)
    (hl : l.getD 0 (buf 0) ≠ nul) :
    k.fileRead fs k.running fd buf nbytes =
      (k.atPosition fd (toUnsigned ((k.ownFd fd).position + l.length)), (l.length : Int),
        fun j => l.getD j (buf j)) := by
  unfold fileRead
  rw [← ownFd]
  simp only [h]
  exact if_neg hl

/-- **A read before the end of the file** returns the bytes at the position, and moves it on. -/
theorem fileReadCall_of_serves (tests : TestOutput) {got : Nat → List UInt8}
    (hwf : img.WellFormed) (hpcb : k.proc.pcb = some k.running) (hg : Serves img (k, got) e)
    (hpos : (k.ownFd e.fd).position < img.length (k.ownFd e.fd).inode) :
    ∃ n buf, 0 < n ∧ k.fileReadCall (img.fileSystem tests) e =
        some (k.atPosition e.fd (((k.ownFd e.fd).position + n) % 2 ^ 32), (n : Int), buf) ∧
      bytesOf ((n : Int), buf) = img.contents (k.ownFd e.fd).inode (k.ownFd e.fd).position n := by
  obtain ⟨hinode, -, hbyte⟩ := hg.2 hpos
  have hnbytes : toUnsigned e.nbytes = e.nbytes := by
    rw [toUnsigned_natCast, Nat.mod_eq_of_lt (Nat.lt_trans e.small (by decide))]
  have hread : img.readData (k.ownFd e.fd).inode (k.ownFd e.fd).position (toUnsigned e.nbytes) =
      some (img.contents (k.ownFd e.fd).inode (k.ownFd e.fd).position
        (min e.nbytes (img.length (k.ownFd e.fd).inode))) := by
    rw [hnbytes]
    exact Image.readData_eq_some.mpr ⟨hinode, fun j _ => inData_of_serves hwf hg hpos, rfl⟩
  obtain ⟨m, hm⟩ : ∃ m, min e.nbytes (img.length (k.ownFd e.fd).inode) = m + 1 :=
    Nat.exists_eq_succ_of_ne_zero (by have := e.positive; omega)
  rw [hm] at hread
  generalize hl : img.contents (k.ownFd e.fd).inode (k.ownFd e.fd).position (m + 1) = l at hread
  have hlen : l.length = m + 1 := by rw [← hl, Image.length_contents]
  have hhead : l.getD 0 (e.buf 0) ≠ nul := by
    rw [← hl, Image.getD_contents (Nat.succ_pos m)]
    exact hbyte
  refine ⟨m + 1, fun j => l.getD j (e.buf j), Nat.succ_pos m, ?_, ?_⟩
  · rw [fileReadCall, hpcb, Option.map_some, fileRead_of_some hread hhead, hlen, ← Nat.cast_add,
      toUnsigned_natCast]
  · rw [← hlen, bytesOf_getD, hlen, hl]

/-! ## The bytes returned so far -/

/-- What was returned for a descriptor is the file up to its position, or all of it and more. -/
structure Sync (img : Image) (fd : Fd) (got : List UInt8) : Prop where
  position : fd.position = got.length ∨ img.length fd.inode ≤ got.length
  isPrefix : got.take (img.length fd.inode) =
    img.contents fd.inode 0 (min got.length (img.length fd.inode))

namespace Sync

variable {fd : Fd} {got : List UInt8}

theorem start (h : fd.position = 0) : Sync img fd [] :=
  ⟨Or.inl h, by rw [List.take_nil, List.length_nil, Nat.zero_min]; rfl⟩

/-- A position at the end of the file: all of it was returned. -/
theorem complete (h : Sync img fd got) (hend : img.length fd.inode ≤ fd.position) :
    img.length fd.inode ≤ got.length := by
  rcases h.position with hp | hp <;> omega

/-- Once the file is complete, nothing that is returned after it matters. -/
theorem append_of_complete (h : Sync img fd got) (hend : img.length fd.inode ≤ got.length)
    (l : List UInt8) (pos : Nat) : Sync img { fd with position := pos } (got ++ l) := by
  have hlen : img.length fd.inode ≤ (got ++ l).length := by
    rw [List.length_append]
    omega
  refine ⟨Or.inr hlen, ?_⟩
  have hp := h.isPrefix
  rw [Nat.min_eq_right hend] at hp
  rw [Nat.min_eq_right hlen, List.take_append_of_le_length hend]
  exact hp

/-- The next piece of the file. -/
theorem append (h : Sync img fd got) (hpos : fd.position < img.length fd.inode) (n : Nat) :
    Sync img { fd with position := (fd.position + n) % 2 ^ 32 }
      (got ++ img.contents fd.inode fd.position n) := by
  rcases h.position with hp | hp
  · have hgot : got = img.contents fd.inode 0 fd.position := by
      have := h.isPrefix
      rwa [List.take_of_length_le (by omega), ← hp, Nat.min_eq_left (by omega)] at this
    have hnext : got ++ img.contents fd.inode fd.position n =
        img.contents fd.inode 0 (fd.position + n) := by
      rw [hgot, Image.contents, Image.contents, Image.contents, Blocks.slice_add, Nat.zero_add]
    have hlen : (img.contents fd.inode 0 (fd.position + n)).length = fd.position + n :=
      img.length_contents ..
    have hsize : img.length fd.inode < 2 ^ 32 := Image.word_lt _
    rw [hnext]
    refine ⟨?_, ?_⟩
    · rw [hlen]
      simp only
      omega
    · rw [hlen, Image.contents, Blocks.take_slice, Nat.min_comm]
      rfl
  · exact h.append_of_complete hp _ _

end Sync

/-- The reads of one process so far: descriptors differ from those at the start in their position
only, and each is in step with what was returned for it. -/
structure Served (img : Image) (k₀ : Kernel) (s : Kernel × (Nat → List UInt8)) : Prop where
  pcb : s.1.proc.pcb = some s.1.running
  moved : ∀ fd, ∃ pos, s.1.ownFd fd = { k₀.ownFd fd with position := pos }
  sync : ∀ fd, k₀.IsFile fd → Sync img (s.1.ownFd fd) (s.2 fd)

namespace Served

variable {s s' : Kernel × (Nat → List UInt8)} {fs : FileSystem}

/-- What one read does to a descriptor and to the bytes returned for it, as long as the read leaves
both in step. -/
theorem advance {got : Nat → List UInt8} {l : List UInt8} {pos : Nat} (h : Served img k₀ (k, got))
    (hsync : k₀.IsFile e.fd → Sync img { k.ownFd e.fd with position := pos } (got e.fd ++ l)) :
    Served img k₀ (k.atPosition e.fd pos, Function.update got e.fd (got e.fd ++ l)) := by
  refine ⟨h.pcb, fun fd => ?_, fun fd hfd => ?_⟩
  · obtain ⟨pos', hpos'⟩ := h.moved fd
    simp only at hpos' ⊢
    rw [ownFd_atPosition]
    split
    · next heq =>
      subst heq
      exact ⟨pos, by rw [hpos']⟩
    · exact ⟨pos', hpos'⟩
  · simp only
    rw [ownFd_atPosition]
    rcases eq_or_ne fd e.fd with rfl | hne
    · rw [if_pos rfl, Function.update_self]
      exact hsync hfd
    · rw [if_neg hne, Function.update_of_ne hne]
      exact h.sync fd hfd

theorem isFile (h : Served img k₀ s) {fd : Nat} (hfd : s.1.IsFile fd) : k₀.IsFile fd := by
  obtain ⟨pos, hpos⟩ := h.moved fd
  rwa [IsFile, hpos] at hfd

/-- **A read keeps every descriptor in step.**  Before the end of the file it brings the next piece,
and after the end nothing it does can hurt. -/
theorem step (hwf : img.WellFormed) (h : Served img k₀ s) (hg : Serves img s e)
    (hs : readFiles (img.fileSystem tests) s e = some s') : Served img k₀ s' := by
  obtain ⟨k, got⟩ := s
  obtain ⟨k', got'⟩ := s'
  obtain ⟨hk, rfl⟩ := Runs.withGhost_eq_some.mp hs
  have hsync := h.sync e.fd (h.isFile hg.1)
  rcases Nat.lt_or_ge (k.ownFd e.fd).position (img.length (k.ownFd e.fd).inode) with hpos | hpos
  · obtain ⟨n, buf, -, hcall, hbytes⟩ := fileReadCall_of_serves tests hwf h.pcb hg hpos
    rw [readStep, hcall] at hk
    obtain rfl := Option.some.inj hk
    rw [received, hcall]
    exact h.advance fun _ => hbytes ▸ hsync.append hpos n
  · have hend := hsync.complete hpos
    obtain ⟨⟨k₁, r⟩, hcall, rfl⟩ := Option.map_eq_some_iff.mp hk
    obtain ⟨pos, rfl⟩ := fileReadCall_eq_some h.pcb hcall
    rw [received, hcall]
    exact h.advance fun _ => hsync.append_of_complete hend _ pos

end Served

/-- **Files come out whole.**  Any interleaving of `file_read` calls of one process, on files opened
before: as long as the code serves each call right, what a descriptor returned, cut at the length of
its file, is the beginning of the file; and a call then returns 0 only at the end of the file, when
all of it was returned. -/
theorem fileReads_beginning {es : List FileRead} {got : Nat → List UInt8} {fd : Nat}
    (hwf : img.WellFormed) (hpcb : k.proc.pcb = some k.running)
    (hstart : ∀ fd, k.IsFile fd → (k.ownFd fd).position = 0)
    (hg : Runs.Guarded (readFiles (img.fileSystem tests)) (Serves img) (k, fun _ => []) es)
    (h : Runs.run (readFiles (img.fileSystem tests)) (k, fun _ => []) es = some (k', got))
    (hfd : k.IsFile fd) :
    let inode := (k.ownFd fd).inode
    (k'.ownFd fd).inode = inode ∧
    (got fd).take (img.length inode) =
      img.contents inode 0 (min (got fd).length (img.length inode)) ∧
    ∀ e : FileRead, e.fd = fd → Serves img (k', got) e →
      ∀ r, k'.fileReadCall (img.fileSystem tests) e = some r → r.2.1 = 0 →
        img.length inode ≤ (k'.ownFd fd).position ∧
        (got fd).take (img.length inode) = img.contents inode 0 (img.length inode) := by
  have hinit : Served img k (k, fun _ => []) :=
    ⟨hpcb, fun fd => ⟨_, rfl⟩, fun fd hfd => .start (hstart fd hfd)⟩
  have hk' := Runs.run_guarded (I := Served img k)
    (fun s e s' hs hg hstep => hs.step hwf hg hstep) hinit hg h
  obtain ⟨pos, hpos⟩ := hk'.moved fd
  have hinode : (k'.ownFd fd).inode = (k.ownFd fd).inode := by
    rw [show k'.ownFd fd = _ from hpos]
  have hsync := hk'.sync fd hfd
  have hprefix := hsync.isPrefix
  simp only at hsync hprefix ⊢
  rw [hinode] at hprefix
  refine ⟨hinode, hprefix, ?_⟩
  rintro e rfl hserves r hr hzero
  rcases Nat.lt_or_ge (k'.ownFd e.fd).position (img.length (k'.ownFd e.fd).inode) with hlt | hge
  · obtain ⟨n, buf, hn, hcall, -⟩ := fileReadCall_of_serves tests hwf hk'.pcb hserves hlt
    rw [hcall] at hr
    obtain rfl := Option.some.inj hr
    simp only at hzero
    omega
  · have hend := hsync.complete hge
    rw [hinode] at hge hend
    rw [Nat.min_eq_right hend] at hprefix
    exact ⟨hge, hprefix⟩

end Kernel

/-! ## Concrete files -/

theorem Image.wellFormed_of_oneBlock {img : Image}
    (h : ∀ inode < img.numInode, img.length inode ≤ blockSize ∧ img.data inode 0 < img.numData) :
    img.WellFormed := by
  intro inode hinode j hj
  obtain ⟨hlen, hdata⟩ := h inode hinode
  cases j with
  | zero => exact hdata
  | succ j =>
    rw [Nat.succ_mul] at hj
    omega

/-- Process 1 with the file `a` open at descriptors 2 and 3. -/
def reader : Kernel :=
  { Boot.zero.kernel with
    proc := { Boot.zero.proc with
      pcb := some 1
      termArr := fun _ => ⟨1, true, 0⟩
      slots := fun _ => ⟨1, 0, fun i => if i = 2 ∨ i = 3 then ⟨some .file, 1, 0, 1⟩
        else ⟨none, 0, minusOne, 0⟩, 0, 0, 0, 0⟩ } }

/-- A read of `n + 1` bytes into a buffer of zeros. -/
def readOf (fd : Nat) (n : Fin 1000) : FileRead where
  fd := fd
  buf _ := 0
  nbytes := n + 1
  positive := Nat.succ_pos _
  small := Nat.lt_trans (Nat.succ_lt_succ n.isLt) (by decide)

theorem reader_position {fd : Nat} (h : reader.IsFile fd) : (reader.ownFd fd).position = 0 := by
  have hfd : reader.ownFd fd =
      if fd = 2 ∨ fd = 3 then ⟨some .file, 1, 0, 1⟩ else ⟨none, 0, minusOne, 0⟩ := rfl
  rw [Kernel.IsFile, hfd] at h
  rw [hfd]
  split
  · rfl
  · next hne =>
    rw [if_neg hne] at h
    cases h.1

open Kernel in
/-- Three bytes through two descriptors in turn. -/
theorem fileReads_beginning_two : ∃ k got,
    Runs.run (readFiles ((Image.sample [97, 98, 99]).fileSystem noTests)) (reader, fun _ => [])
      [readOf 2 0, readOf 3 1, readOf 2 1] = some (k, got) ∧ (got 2).take 3 = [97, 98, 99] := by
  have hwf : (Image.sample [97, 98, 99]).WellFormed :=
    Image.wellFormed_of_oneBlock (by decide +kernel)
  have hfd : reader.IsFile 2 := ⟨rfl, rfl⟩
  have hrun : (Runs.run (readFiles ((Image.sample [97, 98, 99]).fileSystem noTests))
      (reader, fun _ => []) [readOf 2 0, readOf 3 1, readOf 2 1]).map (fun s => (s.2 2).length) =
        some 3 := by
    decide +kernel
  obtain ⟨⟨k, got⟩, h, hlen⟩ := Option.map_eq_some_iff.mp hrun
  have hprefix := (fileReads_beginning hwf rfl (fun _ => reader_position)
    (Runs.guarded_of_check (by decide +kernel)) h hfd).2.1
  have hsize : (Image.sample [97, 98, 99]).length (reader.ownFd 2).inode = 3 := by decide +kernel
  rw [hsize, hlen] at hprefix
  exact ⟨k, got, h, hprefix.trans (by decide +kernel)⟩

open Kernel in
/-- A file that begins with a NUL: the first read of a shell that opened it returns 0, at position 0
of two bytes. -/
theorem fileRead_stops_at_nul : (Image.sample [0, 97]).WellFormed ∧ ∃ k r,
    Runs.run (step ((Image.sample [0, 97]).fileSystem noTests)) Boot.zero.kernel
      [.execute (some shell) ⟨0, 0⟩ [], .call (.openFile (some [97]) [])] = some k ∧
    k.proc.pcb = some k.running ∧ k.IsFile 2 ∧ (k.ownFd 2).position = 0 ∧
    k.fileReadCall ((Image.sample [0, 97]).fileSystem noTests) (readOf 2 0) = some r ∧
    r.2.1 = 0 ∧ (r.1.ownFd 2).position < (Image.sample [0, 97]).length (k.ownFd 2).inode := by
  refine ⟨Image.wellFormed_of_oneBlock (by decide +kernel), ?_⟩
  have hrun : (Runs.run (step ((Image.sample [0, 97]).fileSystem noTests)) Boot.zero.kernel
      [.execute (some shell) ⟨0, 0⟩ [], .call (.openFile (some [97]) [])]).bind (fun k =>
        (k.fileReadCall ((Image.sample [0, 97]).fileSystem noTests) (readOf 2 0)).map fun r =>
          (k.proc.pcb, k.running, k.ownFd 2, r.2.1, r.1.ownFd 2)) =
      some (some 1, 1, ⟨some .file, 1, 0, 1⟩, 0, ⟨some .file, 1, 0, 1⟩) := by
    decide +kernel
  obtain ⟨k, hk, hrun⟩ := Option.bind_eq_some_iff.mp hrun
  obtain ⟨r, hr, hrun⟩ := Option.map_eq_some_iff.mp hrun
  simp only [Prod.mk.injEq] at hrun
  obtain ⟨hpcb, hrunning, hfd, hzero, hfd'⟩ := hrun
  refine ⟨k, r, hk, by rw [hpcb, hrunning], ?_, by rw [hfd], hr, hzero, ?_⟩
  · rw [IsFile, hfd]
    exact ⟨rfl, rfl⟩
  · rw [hfd, hfd']
    decide +kernel

end HarambeOs
