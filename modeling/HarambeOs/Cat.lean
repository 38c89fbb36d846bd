import HarambeOs.Files

/-!
# Cat — a program that copies a file, and what it gets from this kernel

A program of `syscalls/` sees a file through `ece391_read`: a call on part of its memory, which it
gives back changed, with a count.  `Delivers` is what such calls do for a text: each brings the
next piece, as long as the buffer or what is left, and a count of 0 at the end.  `catLoop_copies`
says that `cat` then writes the text.

What the kernel delivers is not the file.  `read_data` returns as many bytes as were asked for even
where fewer are left, so the pieces run on behind the end of the file until one begins with a NUL
(`Kernel.delivers_pieces`).  **`Kernel.cat_writes`** says what that comes to: a file of at most 1024
bytes is written as it is, a longer one with what follows it up to the next multiple of 1024.
-/

namespace HarambeOs

/-! ## `ece391support.c` -/

/-- A pointer is what is left of its array. -/
def ece391Strlen : List UInt8 → Option ℕ
  | [] => none
  | c :: cs => if c = nul then some 0 else (ece391Strlen cs).map (· + 1)

/-- The bytes `ece391_fdputs` writes. -/
def ece391Fdputs (s : List UInt8) : Option (List UInt8) := (ece391Strlen s).map s.take

/-- A call of `ece391_read`: from the buffer to the count and the buffer after. -/
abbrev ReadCall (σ : Type) := σ → List UInt8 → σ × ℤ × List UInt8

/-- A call with a buffer of `n` bytes, and calls of the `sizes` asked for after it, bring in the
`text`.  What a call leaves behind the bytes it counts is its own affair. -/
inductive Delivers {σ : Type} (read : ReadCall σ) (sizes : ℕ → Prop) : σ → ℕ → List UInt8 → Prop
  | intro {s : σ} {n : ℕ} {text : List UInt8} (next : List UInt8 → σ)
      (stored : List UInt8 → List UInt8)
      (call : ∀ buf, buf.length = n →
        read s buf = (next buf, ((text.take n).length : ℤ), text.take n ++ stored buf))
      (length : ∀ buf, buf.length = n → (text.take n ++ stored buf).length = n)
      (rest : ∀ buf, buf.length = n → text.take n ≠ [] → ∀ n', sizes n' →
        Delivers read sizes (next buf) n' (text.drop n)) :
      Delivers read sizes s n text

/-! ## `ece391cat.c` -/

/-- The loop of `main`: what was written, and the value returned. -/
def catLoop {σ : Type} (read : ReadCall σ) (write : List UInt8 → ℤ) (s : σ) (buf : List UInt8)
    (out : List (List UInt8)) : (fuel : ℕ) → Option (List (List UInt8) × ℤ)
  | 0 => none
  | fuel + 1 =>
    let (s, cnt, buf) := read s buf
    if cnt = 0 then some (out, 0)
    else if cnt = -1 then do
      let text ← ece391Fdputs (bytes "file read failed\n" ++ [nul])
      some (out ++ [text], 3)
    else
      let text := buf.take cnt.toNat
      if write text = -1 then some (out ++ [text], 3)
      else catLoop read write s buf (out ++ [text]) fuel

/-- `main`, on the value and the buffer of `ece391_getargs`, and the file that name opens. -/
def cat {σ : Type} (args : ℤ × List UInt8) (opened : List UInt8 → Option σ) (read : ReadCall σ)
    (write : List UInt8 → ℤ) (fuel : ℕ) : Option (List (List UInt8) × ℤ) :=
  if args.1 ≠ 0 then do
    let text ← ece391Fdputs (bytes "could not read arguments\n" ++ [nul])
    some ([text], 3)
  else
    match opened args.2 with
    | none => do
      let text ← ece391Fdputs (bytes "file not found\n" ++ [nul])
      some ([text], 2)
    | some s => catLoop read write s args.2 [] fuel

/-- **`cat` copies** the text it is given. -/
theorem catLoop_copies {σ : Type} {read : ReadCall σ} {write : List UInt8 → ℤ} {n : ℕ} (hn : 0 < n)
    (hwrite : ∀ text, write text ≠ -1) {s : σ} {text buf : List UInt8}
    (h : Delivers read (· = n) s n text) (hbuf : buf.length = n) (out : List (List UInt8))
    {fuel : ℕ}
    (hfuel : text.length < fuel) :
    ∃ pieces, catLoop read write s buf out fuel = some (out ++ pieces, 0) ∧
      pieces.flatten = text := by
  induction fuel generalizing s text buf out with
  | zero => exact absurd hfuel (Nat.not_lt_zero _)
  | succ fuel ih =>
    obtain ⟨next, stored, hcall, hlen, hrest⟩ := h
    rw [catLoop, hcall buf hbuf]
    by_cases hnil : text.take n = []
    · have htext : text = [] := (List.take_eq_nil_iff.mp hnil).resolve_left hn.ne'
      exact ⟨[], by simp [htext], htext.symm⟩
    · have hpos : 0 < (text.take n).length := List.length_pos_iff.mpr hnil
      have hless : (text.drop n).length < fuel := by
        rw [List.length_take] at hpos
        rw [List.length_drop]
        omega
      obtain ⟨pieces, hrun, hpieces⟩ := ih (hrest buf hbuf hnil n rfl)
        (hlen buf hbuf) (out ++ [text.take n]) hless
      refine ⟨text.take n :: pieces, ?_, by rw [List.flatten_cons, hpieces, List.take_append_drop]⟩
      simp only
      rw [if_neg (by omega), if_neg (by omega), Int.toNat_natCast, List.take_left,
        if_neg (hwrite _), hrun, List.append_assoc, List.singleton_append]

/-! ## What the kernel delivers -/

/-- A file that has bytes and, for every block `read_data` comes to from a position up to 1024 bytes
behind its end, a data block. -/
structure Image.Backed (img : Image) (inode : ℕ) : Prop where
  known : inode < img.numInode
  positive : 0 < img.length inode
  data : ∀ j, j * blockSize ≤ 2 * img.length inode + 1024 → img.data inode j < img.numData

namespace Kernel

/-- `ece391_read` as `c_read` serves it.  A call that does not complete is not among those below. -/
def userRead (fs : FileSystem) (fd : ℕ) (beyond : Buf) : ReadCall Kernel := fun k buf =>
  match k.cRead fs fd (some fun j => buf.getD j nul) buf.length beyond with
  | some (k', r, some m) => (k', r, (List.range buf.length).map m)
  | _ => (k, -1, buf)

/-- A descriptor of the process `PCB` points at, open on a regular file at position `p`. -/
structure OnFile (fd inode p : ℕ) (k : Kernel) : Prop where
  pcb : k.proc.pcb = some k.running
  running : k.running ≠ 0
  descriptor : fd ≤ 7 ∧ fd ≠ 1
  isFile : k.IsFile fd
  inode : (k.ownFd fd).inode = inode
  position : (k.ownFd fd).position = p

variable {img : Image} {fd inode p : ℕ} {k : Kernel}

/-- The buffer after bytes were copied to its front. -/
theorem map_getD {l buf : List UInt8} (h : l.length ≤ buf.length) :
    (List.range buf.length).map (fun j => l.getD j (buf.getD j nul)) = l ++ buf.drop l.length := by
  refine List.ext_getElem (by simp; omega) fun i hi _ => ?_
  have hi : i < buf.length := by simpa using hi
  rw [List.getElem_map, List.getElem_range, List.getElem_append]
  split
  · next h => rw [List.getD_eq_getElem _ _ h]
  · next h =>
    rw [List.getD_eq_default _ _ (Nat.not_lt.mp h), List.getD_eq_getElem _ _ hi, List.getElem_drop]
    congr 1
    omega

theorem OnFile.cRead_eq (h : OnFile fd inode p k) (fs : FileSystem) (m : Buf) (nbytes : ℤ)
    (beyond : Buf) :
    k.cRead fs fd (some m) nbytes beyond =
      some ((k.fileRead fs k.running fd m nbytes).1, (k.fileRead fs k.running fd m nbytes).2.1,
        some (k.fileRead fs k.running fd m nbytes).2.2) := by
  have hrange : ¬ ((fd : ℤ) > maxFdVal ∨ (fd : ℤ) < 0) := by
    have := h.descriptor.1
    simp only [maxFdVal]
    omega
  have hflags : ¬ (((k.proc.slots k.running).fdArray fd).flags = 0 ∨ (fd : ℤ) = 1) := by
    have hone : ((k.proc.slots k.running).fdArray fd).flags = 1 := h.isFile.2
    have := h.descriptor.2
    omega
  have hfile : ((k.proc.slots k.running).fdArray fd).operations = some .file := h.isFile.1
  simp only [cRead, if_neg hrange, h.pcb, Int.toNat_natCast, if_neg hflags, hfile, if_neg h.running]

/-- The bytes a call brings in, and what it makes of a NUL at their front. -/
theorem userRead_eq (tests : TestOutput) (hfile : img.Backed inode) (h : OnFile fd inode p k)
    (hp : p ≤ img.length inode + 1024) {buf l : List UInt8} (hbuf : 0 < buf.length)
    (hsmall : buf.length < 2 ^ 31)
    (hl : img.contents inode p (min buf.length (img.length inode)) = l) (beyond : Buf) :
    userRead (img.fileSystem tests) fd beyond k buf =
      if img.content inode p = nul then (k, (0 : ℤ), l ++ buf.drop l.length)
      else (k.atPosition fd (toUnsigned (p + l.length)), (l.length : ℤ),
        l ++ buf.drop l.length) := by
  have hlen : l.length = min buf.length (img.length inode) := by rw [← hl, Image.length_contents]
  have hread : img.readData (k.ownFd fd).inode (k.ownFd fd).position (toUnsigned buf.length) =
      some l := by
    rw [toUnsigned_natCast, Nat.mod_eq_of_lt (by omega), h.inode, h.position]
    exact Image.readData_eq_some.mpr ⟨hfile.known, fun j _ hj => hfile.data j (by omega), hl.symm⟩
  have hhead : l.getD 0 (buf.getD 0 nul) = img.content inode p := by
    rw [← hl]
    exact Image.getD_contents (by have := hfile.positive; omega) _
  have hafter : (List.range buf.length).map (fun j => l.getD j (buf.getD j nul)) =
      l ++ buf.drop l.length := map_getD (by omega)
  split
  · next hnul =>
    have hcall : k.fileRead (img.fileSystem tests) k.running fd (fun j => buf.getD j nul)
        buf.length =
        (k, 0, fun j => l.getD j (buf.getD j nul)) := by
      unfold fileRead
      rw [← ownFd]
      simp only [show (img.fileSystem tests).readData = img.readData from rfl, hread]
      exact if_pos (hhead.trans hnul)
    simp only [userRead, h.cRead_eq, hcall, hafter]
  · next hnul =>
    have hcall : k.fileRead (img.fileSystem tests) k.running fd (fun j => buf.getD j nul)
        buf.length =
        (k.atPosition fd (toUnsigned ((k.ownFd fd).position + l.length)), (l.length : ℤ),
          fun j => l.getD j (buf.getD j nul)) :=
      fileRead_of_some hread (hhead.trans_ne hnul)
    simp only [userRead, h.cRead_eq, hcall, hafter, h.position]

/-- The descriptor after a read. -/
theorem OnFile.atPosition (h : OnFile fd inode p k) (q : ℕ) :
    OnFile fd inode q (k.atPosition fd q) := by
  have hown : (k.atPosition fd q).ownFd fd = { k.ownFd fd with position := q } := by
    rw [ownFd_atPosition, if_pos rfl]
  refine ⟨h.pcb, h.running, h.descriptor, ?_, ?_, ?_⟩
  · rw [IsFile, hown]
    exact h.isFile
  · rw [hown]
    exact h.inode
  · rw [hown]

/-- The first piece of a text, where a piece shorter than `n` is the last. -/
theorem take_drop_piece {n m : ℕ} {piece rest : List UInt8} (hpiece : piece.length = m) (hm : m ≤ n)
    (hrest : m < n → rest = []) :
    (piece ++ rest).take n = piece ∧ (piece ++ rest).drop n = rest := by
  rcases Nat.lt_or_ge m n with hlt | hge
  · rw [hrest hlt, List.append_nil]
    exact ⟨List.take_of_length_le (by omega), List.drop_of_length_le (by omega)⟩
  · exact ⟨List.take_left' (by omega), List.drop_left' (by omega)⟩

section Deliver

variable (tests : TestOutput) (hfile : img.Backed inode) (beyond : Buf)

include hfile

/-- A NUL where the next piece would begin is taken for the end. -/
theorem delivers_end (h : OnFile fd inode p k) (hp : p ≤ img.length inode + 1024)
    (hnul : img.content inode p = nul) {n : ℕ} (hn : 0 < n) (hsmall : n < 2 ^ 31)
    (sizes : ℕ → Prop) :
    Delivers (userRead (img.fileSystem tests) fd beyond) sizes k n [] := by
  refine .intro (fun _ => k) (fun buf => img.contents inode p (min n (img.length inode)) ++
    buf.drop (img.contents inode p (min n (img.length inode))).length) (fun buf hbuf => ?_)
    (fun buf hbuf => ?_) fun _ _ hne => absurd List.take_nil hne
  · rw [userRead_eq tests hfile h hp (hbuf ▸ hn) (hbuf ▸ hsmall) (by rw [hbuf]) beyond, if_pos hnul]
    simp
  · simp [hbuf, Image.length_contents]

/-- A piece, and what comes after it. -/
theorem delivers_piece (h : OnFile fd inode p k) (hp : p ≤ img.length inode + 1024)
    (hnul : img.content inode p ≠ nul) (hlength : img.length inode < 2 ^ 30) {n : ℕ} (hn : 0 < n)
    (hsmall : n < 2 ^ 30) {text : List UInt8} {sizes : ℕ → Prop}
    (htext : text.take n = img.contents inode p (min n (img.length inode)))
    (hrest : ∀ k', OnFile fd inode (p + min n (img.length inode)) k' → ∀ n', sizes n' →
      Delivers (userRead (img.fileSystem tests) fd beyond) sizes k' n' (text.drop n)) :
    Delivers (userRead (img.fileSystem tests) fd beyond) sizes k n text := by
  have hlen : (text.take n).length = min n (img.length inode) := by
    rw [htext, Image.length_contents]
  have hpos : toUnsigned (p + (text.take n).length) = p + min n (img.length inode) := by
    rw [← Nat.cast_add, toUnsigned_natCast, hlen, Nat.mod_eq_of_lt (by omega)]
  refine .intro (fun _ => k.atPosition fd (p + min n (img.length inode)))
    (fun buf => buf.drop (text.take n).length) (fun buf hbuf => ?_) (fun buf hbuf => ?_)
    fun _ _ _ => hrest _ (h.atPosition _)
  · rw [userRead_eq tests hfile h hp (hbuf ▸ hn) (by omega) (by rw [hbuf, ← htext]) beyond,
      if_neg hnul, hpos]
  · rw [List.length_append, List.length_drop, hlen, hbuf]
    omega

/-- Any file is delivered in pieces of one size, up to the NUL at which one would begin. -/
theorem delivers_pieces {m : ℕ} (hm : m = min 1024 (img.length inode))
    (hlength : img.length inode < 2 ^ 30)
    (hnul : ∀ i, i * m < img.length inode → img.content inode (i * m) ≠ nul) {count : ℕ}
    (hcount : count = (img.length inode + m - 1) / m)
    (hend : img.content inode (count * m) = nul) (h : OnFile fd inode 0 k) :
    Delivers (userRead (img.fileSystem tests) fd beyond) (· = 1024) k 1024
      (img.contents inode 0 (count * m)) := by
  have hpos := hfile.positive
  have hmpos : 0 < m := by omega
  -- The last piece reaches the end of the file, and the one before does not.
  have hle : count * m ≤ img.length inode + m - 1 := hcount ▸ Nat.div_mul_le_self ..
  have hlt : img.length inode + m - 1 < count * m + m := hcount ▸ Nat.lt_div_mul_add hmpos
  have hall (left : ℕ) : ∀ i, i + left = count → ∀ k, OnFile fd inode (i * m) k →
      Delivers (userRead (img.fileSystem tests) fd beyond) (· = 1024) k 1024
        (img.contents inode (i * m) (left * m)) := by
    induction left with
    | zero =>
      intro i hi k h
      obtain rfl : i = count := hi
      rw [Nat.zero_mul]
      exact delivers_end tests hfile beyond h (by omega) hend (by decide) (by decide) _
    | succ left ih =>
      intro i hi k h
      have hnext : i * m + m + left * m = count * m := by
        rw [← hi, Nat.add_mul, Nat.succ_mul]
        omega
      have hsplit : img.contents inode (i * m) ((left + 1) * m) =
          img.contents inode (i * m) m ++ img.contents inode ((i + 1) * m) (left * m) := by
        rw [Nat.succ_mul, Nat.add_comm, Nat.succ_mul]
        exact Blocks.slice_add ..
      -- A piece shorter than the buffer is the only one.
      have hshort : m < 1024 → img.contents inode ((i + 1) * m) (left * m) = [] := fun hlt' => by
        have hleft : left = 0 := Nat.eq_zero_of_not_pos fun h0 =>
          absurd (Nat.le_mul_of_pos_left m h0) (by omega)
        rw [hleft, Nat.zero_mul]
        rfl
      obtain ⟨htake, hdrop⟩ :=
        take_drop_piece (img.length_contents inode (i * m) m) (by omega) hshort
      rw [← hsplit] at htake hdrop
      refine delivers_piece tests hfile beyond h (by omega) (hnul i (by omega)) hlength (by decide)
        (by decide) (by rw [htake, hm]) fun k' h' n' hn' => ?_
      rw [hdrop, show n' = 1024 from hn']
      rw [← hm, ← Nat.succ_mul] at h'
      exact ih (i + 1) (by omega) k' h'
  exact (Nat.zero_mul m ▸ hall count 0 (Nat.zero_add _)) k h

end Deliver

/-- **`cat` on this kernel** writes the file, and if it is longer than 1024 bytes also what follows
it up to the next multiple of 1024: provided that the file has bytes, and data blocks as far as
`read_data` walks, that no piece of it begins with a NUL, and that a NUL stands where the last one
ends. -/
theorem cat_writes (tests : TestOutput) (beyond : Buf) {write : List UInt8 → ℤ}
    (hwrite : ∀ text, write text ≠ -1) (hfile : img.Backed inode) (h : OnFile fd inode 0 k)
    (hlength : img.length inode < 2 ^ 30) {past : ℕ}
    (hpast : past = if img.length inode ≤ 1024 then 0 else (1024 - img.length inode % 1024) % 1024)
    (hnul : ∀ i, i * min 1024 (img.length inode) < img.length inode →
      img.content inode (i * min 1024 (img.length inode)) ≠ nul)
    (hend : img.content inode (img.length inode + past) = nul) {buf : List UInt8}
    (hbuf : buf.length = 1024) :
    ∃ pieces, cat (0, buf) (fun _ => some k) (userRead (img.fileSystem tests) fd beyond) write
        (img.length inode + 1025) = some (pieces, 0) ∧
      pieces.flatten = img.contents inode 0 (img.length inode) ++
        img.contents inode (img.length inode) past := by
  have hpos := hfile.positive
  have htotal : (img.length inode + min 1024 (img.length inode) - 1) / min 1024 (img.length inode) *
      min 1024 (img.length inode) = img.length inode + past := by
    rcases Nat.lt_or_ge 1024 (img.length inode) with hlong | hshort
    · rw [hpast, if_neg (by omega), Nat.min_eq_left hlong.le]
      omega
    · rw [hpast, if_pos hshort, Nat.min_eq_right hshort,
        Nat.div_eq_of_lt_le (k := 1) (by omega) (by omega)]
      omega
  have hdeliver := delivers_pieces tests hfile beyond rfl hlength hnul rfl (htotal ▸ hend) h
  rw [htotal] at hdeliver
  have hfuel : (img.contents inode 0 (img.length inode + past)).length <
      img.length inode + 1025 := by
    rw [Image.length_contents, hpast]
    split <;> omega
  obtain ⟨pieces, hrun, hpieces⟩ := catLoop_copies (by decide) hwrite hdeliver hbuf [] hfuel
  refine ⟨pieces, ?_, ?_⟩
  · rw [cat, if_neg (by simp)]
    exact hrun
  · rw [hpieces, Image.contents, Blocks.slice_add, Nat.zero_add]
    rfl

/-- The descriptor 2 of `reader` is open on the file on inode 1. -/
theorem onFile_reader : OnFile 2 1 0 reader :=
  ⟨rfl, by decide, by decide, ⟨rfl, rfl⟩, rfl, rfl⟩

end Kernel

/-- A file of 1500 letters on inode 1, with zeros behind it. -/
def letters : Image where
  bytes a := if 16384 ≤ a then if a < 16384 + 1500 then 97 else nul
    else (Image.ofPieces [(0, [4, 0, 0, 0, 2, 0, 0, 0, 2]), (8192, [0xDC, 5, 0, 0, 1])]).bytes a

theorem length_letters : letters.length 1 = 1500 := by decide +kernel

theorem content_letters {p : ℕ} (hp : p < 4096) :
    letters.content 1 p = if p < 1500 then 97 else nul := by
  have hblock : p / blockSize = 0 := Nat.div_eq_of_lt hp
  have hoff : p % blockSize = p := Nat.mod_eq_of_lt hp
  have hinode : letters.numInode = 2 := by decide +kernel
  have hdata : letters.data 1 0 = 1 := by decide +kernel
  rw [Image.content, Blocks.stream, hblock, hoff, Image.cell, hdata, Image.block, hinode]
  have haddr : blockSize + blockSize * 2 + 1 * blockSize + p = 16384 + p := rfl
  have hlt : 16384 + p < 16384 + 1500 ↔ p < 1500 := Nat.add_lt_add_iff_left
  rw [haddr]
  exact (if_pos (Nat.le_add_right 16384 p)).trans (if_congr hlt rfl rfl)

/-- Bytes that are all the same. -/
theorem contents_letters {p n : ℕ} {b : UInt8}
    (h : ∀ i < n, letters.content 1 (p + i) = b) :
    letters.contents 1 p n = List.replicate n b :=
  List.eq_replicate_iff.mpr ⟨letters.length_contents 1 p n, fun x hx => by
    obtain ⟨i, hi, rfl⟩ := List.mem_map.mp hx
    exact h i (List.mem_range.mp hi)⟩

namespace Kernel

/-- `cat` writes them in two pieces, and the zeros up to the end of the second. -/
theorem cat_writes_letters : ∃ pieces,
    cat (0, List.replicate 1024 0) (fun _ => some reader)
      (userRead (letters.fileSystem noTests) 2 fun _ => 0) (fun _ => 0) (1500 + 1025) =
        some (pieces, 0) ∧
    pieces.flatten = List.replicate 1500 97 ++ List.replicate 548 nul := by
  have hfile : letters.Backed 1 := by
    refine ⟨by decide +kernel, by rw [length_letters]; decide, fun j hj => ?_⟩
    obtain rfl : j = 0 := by
      rw [length_letters, blockSize] at hj
      omega
    decide +kernel
  have hwrite : ∀ text : List UInt8, (fun _ : List UInt8 => (0 : ℤ)) text ≠ -1 := by
    intro text
    exact (by decide : (0 : ℤ) ≠ -1)
  have hpast : 548 = if letters.length 1 ≤ 1024 then 0
      else (1024 - letters.length 1 % 1024) % 1024 := by
    rw [length_letters]
    decide
  obtain ⟨pieces, hrun, hpieces⟩ := cat_writes noTests (fun _ => 0) hwrite hfile onFile_reader
    (by rw [length_letters]; decide) hpast
    (fun i hi => by
      rw [length_letters, Nat.min_eq_left (by decide)] at hi ⊢
      rw [content_letters (by omega), if_pos hi]
      decide)
    (by rw [length_letters, content_letters (by decide)]; decide)
    (List.length_replicate : (List.replicate 1024 (0 : UInt8)).length = 1024)
  rw [length_letters] at hrun hpieces
  have hfirst : letters.contents 1 0 1500 = List.replicate 1500 97 :=
    contents_letters fun i hi => by rw [content_letters (by omega), if_pos (by omega)]
  have hsecond : letters.contents 1 1500 548 = List.replicate 548 nul :=
    contents_letters fun i hi => by rw [content_letters (by omega), if_neg (by omega)]
  exact ⟨pieces, hrun, by rw [hpieces, hfirst, hsecond]⟩

end Kernel

end HarambeOs
