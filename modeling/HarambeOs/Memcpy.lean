import HarambeOs.Library.MappedBus
import HarambeOs.Switching

/-!
# Memcpy — the assembly of `memcpy`

`memcpy` copies bytes until the destination is aligned, then double words, then the bytes that are
left.  `memcpyProgram` is its text.  The three loops have one invariant, `Copied`: so many bytes
have been copied as one after the other, and both pointers are past them.  Where source and
destination have no cell in common, `memcpy_eval` says that the program halts with all of them
copied.
-/

namespace HarambeOs

open Processor MappedMemory StateTransition

/-! ## The program -/

def memcpyTop : Nat := 0
def memcpyAligned : Nat := 10
def memcpyRep : Nat := 16
def memcpyBottom : Nat := 17
def memcpyDone : Nat := 25

/-- The assembly of `memcpy`. -/
def memcpyProgram : List (Instr Empty) :=
  [
    -- .memcpy_top
    .testl (.reg .ecx) .ecx,
    .jump .z memcpyDone,
    .testl (.imm 0x3) .edi,
    .jump .z memcpyAligned,
    .movbLoad .esi,
    .movbStore .edi,
    .addl (.imm 1) .edi,
    .addl (.imm 1) .esi,
    .subl (.imm 1) .ecx,
    .jump .always memcpyTop,
    -- .memcpy_aligned
    .movwFrom .ds .edx,
    .movwTo .edx .es,
    .movl (.reg .ecx) .edx,
    .shrl 2 .ecx,
    .andl (.imm 0x3) .edx,
    .cld,
    .repMovsl,
    -- .memcpy_bottom
    .testl (.reg .edx) .edx,
    .jump .z memcpyDone,
    .movbLoad .esi,
    .movbStore .edi,
    .addl (.imm 1) .edi,
    .addl (.imm 1) .esi,
    .subl (.imm 1) .edx,
    .jump .always memcpyBottom]
    -- .memcpy_done

/-- The machine as it enters the assembly: the arguments are in their registers, and nothing is
known of the others. -/
def memcpyEntry {μ : Type} (s : State μ) (dest src n : Word) : State μ :=
  { s with esi := src, edi := dest, ecx := n, pc := 0 }

/-! ## The invariant -/

section Loops

variable {tr : BitVec 16 → Word → Option ℕ} (s₀ : State (Mapped tr)) (dest src : Word)

/-- `k` bytes have been copied. -/
structure Copied (k : ℕ) (s : State (Mapped tr)) : Prop where
  ds : s.ds = s₀.ds
  edi : s.edi = dest + BitVec.ofNat 32 k
  esi : s.esi = src + BitVec.ofNat 32 k
  mem : s.mem.cell = copyRange (cells tr s₀.ds) 0 s₀.mem.cell dest.toNat src.toNat k

variable {s₀ dest src} {k n : ℕ} {s : State (Mapped tr)}

/-- One more byte. -/
theorem Copied.byte (h : Copied s₀ dest src k s) {s' : State (Mapped tr)} (hds : s'.ds = s.ds)
    (hedi : s'.edi = s.edi + 1) (hesi : s'.esi = s.esi + 1)
    (hmem : s'.mem.cell = MappedMemory.store (cells tr s.ds) s.mem.cell s.edi.toNat
      (MappedMemory.load (cells tr s.ds) 0 s.mem.cell s.esi.toNat)) :
    Copied s₀ dest src (k + 1) s' := by
  have hmoved (a : Word) : cells tr s₀.ds (a + BitVec.ofNat 32 k).toNat =
      cells tr s₀.ds (a.toNat + k) := cells_moved s₀.ds a k 0
  refine ⟨hds.trans h.ds, ?_, ?_, ?_⟩
  · rw [hedi, h.edi]
    exact add_ofNat dest k 1
  · rw [hesi, h.esi]
    exact add_ofNat src k 1
  · rw [hmem, copyRange, h.ds, h.edi, h.esi, ← h.mem]
    simp only [MappedMemory.store, MappedMemory.load, hmoved]

/-- One more double word. -/
theorem Copied.dword (h : Copied s₀ dest src k s) (hes : s.es = s₀.ds)
    (hdf : s.flags.direction = false)
    (hapart : Apart (cells tr s₀.ds) dest.toNat src.toNat n) (hn : k + 4 ≤ n) (c : Word) :
    Copied s₀ dest src (k + 4) { Machine.movsl s with ecx := c } := by
  have hload (j : ℕ) : MappedMemory.load (cells tr s.ds) 0 s.mem.cell (s.esi.toNat + j) =
      MappedMemory.load (cells tr s₀.ds) 0 s.mem.cell (src.toNat + k + j) := by
    rw [MappedMemory.load, MappedMemory.load, h.ds, h.esi, cells_moved]
  have hstore (f : ℕ → UInt8) : storeRange (cells tr s.es) s.mem.cell s.edi.toNat f 4 =
      storeRange (cells tr s₀.ds) s.mem.cell (dest.toNat + k) f 4 := by
    rw [hes, h.edi]
    exact storeRange_congr (fun i _ => cells_moved ..) f
  have hapart' : Apart (cells tr s₀.ds) (dest.toNat + k) (src.toNat + k) 4 := by
    intro i hi j hj
    rw [Nat.add_assoc, Nat.add_assoc]
    exact hapart _ (by omega) _ (by omega)
  refine ⟨h.ds, ?_, ?_, ?_⟩
  · change s.edi + (if s.flags.direction then -4 else 4) = _
    rw [hdf, h.edi]
    exact add_ofNat dest k 4
  · change s.esi + (if s.flags.direction then -4 else 4) = _
    rw [hdf, h.esi]
    exact add_ofNat src k 4
  · refine (cell_store_load s.mem s.es s.ds s.edi s.esi).trans ?_
    rw [funext hload, hstore, storeRange_load 0 hapart', h.mem, ← copyRange_add]

/-! ## The three loops -/

/-- A branch of the program. -/
theorem Copied.branch (h : Copied s₀ dest src k s) (operand : Operand) (dst : Reg) (label : ℕ)
    (htest : memcpyProgram[s.pc.toNat]? = some (.testl operand dst))
    (hjump : memcpyProgram[(s.pc + 1).toNat]? = some (.jump .z label)) :
    ∃ s', Reaches (asm memcpyProgram).step s s' ∧ Copied s₀ dest src k s' ∧
      s'.ecx = s.ecx ∧ s'.edx = s.edx ∧
      s'.pc = if s.get dst &&& s.value operand = 0 then BitVec.ofNat 32 label else s.pc + 1 + 1 :=
  ⟨_, Machine.reaches_test operand dst label htest hjump, ⟨h.ds, h.edi, h.esi, h.mem⟩, rfl, rfl,
    rfl⟩

/-- The body of `.memcpy_bottom`. -/
theorem reaches_bottom_body (h : Copied s₀ dest src k s)
    (hpc : s.pc = BitVec.ofNat 32 (memcpyBottom + 2)) :
    ∃ s', Reaches (asm memcpyProgram).step s s' ∧ Copied s₀ dest src (k + 1) s' ∧
      s'.pc = BitVec.ofNat 32 memcpyBottom ∧ s'.edx = s.edx - 1 := by
  obtain ⟨⟩ := s
  subst hpc
  exact ⟨_, Machine.reaches_of_run (k := 6) rfl, h.byte rfl rfl rfl (cell_store_append ..), rfl,
    rfl⟩

/-- `.memcpy_bottom` copies the bytes that are left. -/
theorem reaches_bottom {r : ℕ} (h : Copied s₀ dest src k s)
    (hpc : s.pc = BitVec.ofNat 32 memcpyBottom)
    (hr : s.edx.toNat = r) :
    ∃ s', Reaches (asm memcpyProgram).step s s' ∧ Copied s₀ dest src (k + r) s' ∧
      s'.pc = BitVec.ofNat 32 memcpyDone := by
  induction r generalizing k s with
  | zero =>
    obtain ⟨s₁, hreach, h₁, -, -, hpc₁⟩ := h.branch (.reg .edx) .edx memcpyDone
      (by rw [hpc]; rfl) (by rw [hpc]; rfl)
    have hzero : s.edx &&& s.edx = 0 := by
      rw [BitVec.and_self]
      bv_omega
    exact ⟨s₁, hreach, h₁, hpc₁.trans (if_pos hzero)⟩
  | succ r ih =>
    obtain ⟨s₁, hreach, h₁, -, hedx, hpc₁⟩ := h.branch (.reg .edx) .edx memcpyDone
      (by rw [hpc]; rfl) (by rw [hpc]; rfl)
    have hne : s.edx &&& s.edx ≠ 0 := by
      rw [BitVec.and_self]
      bv_omega
    obtain ⟨s₂, hbody, h₂, hpc₂, hedx₂⟩ := reaches_bottom_body h₁ (by
      rw [hpc₁, hpc]
      exact if_neg hne)
    obtain ⟨s₃, hrest, h₃, hpc₃⟩ := ih h₂ hpc₂ (by rw [hedx₂, hedx]; bv_omega)
    exact ⟨s₃, hreach.trans (hbody.trans hrest), by rwa [Nat.add_right_comm] at h₃, hpc₃⟩

theorem step_rep (hpc : s.pc = BitVec.ofNat 32 memcpyRep) : (asm memcpyProgram).step s =
    some (if s.ecx = 0 then s.next else { Machine.movsl s with ecx := s.ecx - 1 }) := by
  rw [Machine.step, hpc]
  rfl

/-- `rep movsl` copies a double word for each count. -/
theorem reaches_rep {q : ℕ} (h : Copied s₀ dest src k s) (hpc : s.pc = BitVec.ofNat 32 memcpyRep)
    (hes : s.es = s₀.ds) (hdf : s.flags.direction = false) (hq : s.ecx.toNat = q)
    (hapart : Apart (cells tr s₀.ds) dest.toNat src.toNat n) (hn : k + 4 * q ≤ n) :
    ∃ s', Reaches (asm memcpyProgram).step s s' ∧ Copied s₀ dest src (k + 4 * q) s' ∧
      s'.pc = BitVec.ofNat 32 memcpyBottom ∧ s'.edx = s.edx := by
  induction q generalizing k s with
  | zero =>
    have hstep : (asm memcpyProgram).step s = some s.next := by
      rw [step_rep hpc, if_pos (by bv_omega)]
    refine ⟨s.next, .single hstep, ⟨h.ds, h.edi, h.esi, h.mem⟩, ?_, rfl⟩
    rw [State.next, hpc]
    rfl
  | succ q ih =>
    have hstep : (asm memcpyProgram).step s = some { Machine.movsl s with ecx := s.ecx - 1 } := by
      rw [step_rep hpc, if_neg (by bv_omega)]
    have hcount : (s.ecx - 1).toNat = q := by bv_omega
    have hnext := h.dword hes hdf hapart (by omega) (s.ecx - 1)
    obtain ⟨s', hreach, h', hpc', hedx⟩ := ih hnext hpc hes hdf hcount (by omega)
    rw [Nat.add_assoc, Nat.add_comm 4, ← Nat.mul_succ] at h'
    exact ⟨s', .head hstep hreach, h', hpc', hedx⟩

/-- `.memcpy_aligned` up to the copy of double words. -/
theorem reaches_aligned (h : Copied s₀ dest src k s) (hpc : s.pc = BitVec.ofNat 32 memcpyAligned) :
    ∃ s', Reaches (asm memcpyProgram).step s s' ∧ Copied s₀ dest src k s' ∧
      s'.pc = BitVec.ofNat 32 memcpyRep ∧
      s'.es = s₀.ds ∧ s'.flags.direction = false ∧ s'.ecx = s.ecx >>> 2 ∧ s'.edx = s.ecx &&& 3 := by
  obtain ⟨eax, ecx, edx, ebx, esp, ebp, esi, edi, cs, ss, ds⟩ := s
  subst hpc
  have hds : (edx.extractLsb' 16 16 ++ ds).setWidth 16 = ds := BitVec.setWidth_append_eq_right
  exact ⟨_, Machine.reaches_of_run (k := 6) rfl, ⟨h.ds, h.edi, h.esi, h.mem⟩, rfl, hds.trans h.ds,
    rfl, rfl, rfl⟩

/-- The body of `.memcpy_top`. -/
theorem reaches_top_body (h : Copied s₀ dest src k s)
    (hpc : s.pc = BitVec.ofNat 32 (memcpyTop + 4)) :
    ∃ s', Reaches (asm memcpyProgram).step s s' ∧ Copied s₀ dest src (k + 1) s' ∧
      s'.pc = BitVec.ofNat 32 memcpyTop ∧ s'.ecx = s.ecx - 1 := by
  obtain ⟨⟩ := s
  subst hpc
  exact ⟨_, Machine.reaches_of_run (k := 6) rfl, h.byte rfl rfl rfl (cell_store_append ..), rfl,
    rfl⟩

/-- `.memcpy_top` copies bytes until none are left or the destination is aligned. -/
theorem reaches_top {c : ℕ} (h : Copied s₀ dest src k s) (hpc : s.pc = BitVec.ofNat 32 memcpyTop)
    (hc : s.ecx.toNat = c) :
    ∃ s' k', Reaches (asm memcpyProgram).step s s' ∧ Copied s₀ dest src k' s' ∧
      (s'.pc = BitVec.ofNat 32 memcpyDone ∧ k' = k + c ∨
        s'.pc = BitVec.ofNat 32 memcpyAligned ∧ k' + s'.ecx.toNat = k + c) := by
  induction c generalizing k s with
  | zero =>
    obtain ⟨s₁, hreach, h₁, -, -, hpc₁⟩ := h.branch (.reg .ecx) .ecx memcpyDone
      (by rw [hpc]; rfl) (by rw [hpc]; rfl)
    have hzero : s.ecx &&& s.ecx = 0 := by
      rw [BitVec.and_self]
      bv_omega
    exact ⟨s₁, k, hreach, h₁, .inl ⟨hpc₁.trans (if_pos hzero), rfl⟩⟩
  | succ c ih =>
    obtain ⟨s₁, hreach, h₁, hecx, -, hpc₁⟩ := h.branch (.reg .ecx) .ecx memcpyDone
      (by rw [hpc]; rfl) (by rw [hpc]; rfl)
    have hne : s.ecx &&& s.ecx ≠ 0 := by
      rw [BitVec.and_self]
      bv_omega
    have hpc₁ : s₁.pc = BitVec.ofNat 32 (memcpyTop + 2) := by
      rw [hpc₁, hpc]
      exact if_neg hne
    obtain ⟨s₂, hreach₂, h₂, hecx₂, -, hpc₂⟩ := h₁.branch (.imm 0x3) .edi memcpyAligned
      (by rw [hpc₁]; rfl) (by rw [hpc₁]; rfl)
    by_cases halign : s₁.get .edi &&& s₁.value (.imm 0x3) = 0
    · rw [if_pos halign] at hpc₂
      exact ⟨s₂, k, hreach.trans hreach₂, h₂, .inr ⟨hpc₂, by rw [hecx₂, hecx, hc]⟩⟩
    · rw [if_neg halign, hpc₁] at hpc₂
      obtain ⟨s₃, hbody, h₃, hpc₃, hecx₃⟩ := reaches_top_body h₂ hpc₂
      obtain ⟨s₄, k', hrest, h₄, hend⟩ := ih h₃ hpc₃ (by rw [hecx₃, hecx₂, hecx]; bv_omega)
      rw [Nat.add_right_comm, Nat.add_assoc] at hend
      exact ⟨s₄, k', hreach.trans (hreach₂.trans (hbody.trans hrest)), h₄, hend⟩

end Loops

/-! ## The copy -/

variable {tr : BitVec 16 → Word → Option ℕ} {s : State (Mapped tr)} {dest src n : Word}

/-- **The assembly halts with everything copied.** -/
theorem memcpy_eval (hapart : Apart (cells tr s.ds) dest.toNat src.toNat n.toNat) :
    ∃ s', s' ∈ eval (asm memcpyProgram).step (memcpyEntry s dest src n) ∧
      s'.mem.cell = copyRange (cells tr s.ds) 0 s.mem.cell dest.toNat src.toNat n.toNat := by
  have hhalt {s' : State (Mapped tr)} (hpc : s'.pc = BitVec.ofNat 32 memcpyDone) :
      (asm memcpyProgram).step s' = none := by
    rw [Machine.step, hpc]
    rfl
  have hentry : Copied s dest src 0 (memcpyEntry s dest src n) :=
    ⟨rfl, (BitVec.add_zero dest).symm, (BitVec.add_zero src).symm, rfl⟩
  obtain ⟨s₁, k, htop, h₁, ⟨hpc₁, hk⟩ | ⟨hpc₁, hk⟩⟩ := reaches_top hentry rfl rfl
  · have hall : k = n.toNat := hk.trans (Nat.zero_add _)
    exact ⟨s₁, mem_eval.mpr ⟨htop, hhalt hpc₁⟩, hall ▸ h₁.mem⟩
  · -- what is left after the first loop: so many double words, and less than four bytes
    have hk : k + s₁.ecx.toNat = n.toNat := hk.trans (Nat.zero_add _)
    obtain ⟨s₂, haligned, h₂, hpc₂, hes, hdf, hecx, hedx⟩ := reaches_aligned h₁ hpc₁
    have hdwords : s₂.ecx.toNat = s₁.ecx.toNat / 4 := by
      rw [hecx, BitVec.toNat_ushiftRight, Nat.shiftRight_eq_div_pow]
    have hbytes : s₂.edx.toNat = s₁.ecx.toNat % 4 := by
      rw [hedx, BitVec.toNat_and]
      exact Nat.and_two_pow_sub_one_eq_mod _ 2
    obtain ⟨s₃, hrep, h₃, hpc₃, hedx₃⟩ := reaches_rep h₂ hpc₂ hes hdf hdwords hapart (by omega)
    obtain ⟨s₄, hbottom, h₄, hpc₄⟩ := reaches_bottom h₃ hpc₃ (hedx₃ ▸ hbytes)
    have hall : k + 4 * (s₁.ecx.toNat / 4) + s₁.ecx.toNat % 4 = n.toNat := by omega
    rw [hall] at h₄
    exact ⟨s₄, mem_eval.mpr ⟨htop.trans (haligned.trans (hrep.trans hbottom)), hhalt hpc₄⟩, h₄.mem⟩

/-- **`memcpy` is the byte-by-byte copy.**  For every length and destination, where no byte of the
source is one of the destination, the assembly halts and leaves memory as the copy of one byte after
the other does; no byte outside of the destination has changed.  The memory is the one behind the
segments and the page tables, whatever these are. -/
theorem memcpy_copies (tr : BitVec 16 → Word → Option ℕ) (s : State (Mapped tr))
    (dest src n : Word) (hapart : Apart (cells tr s.ds) dest.toNat src.toNat n.toNat) :
    ∃ s', s' ∈ eval (asm memcpyProgram).step (memcpyEntry s dest src n) ∧
      s'.mem.cell = copyRange (cells tr s.ds) 0 s.mem.cell dest.toNat src.toNat n.toNat ∧
      ∀ a, (∀ i < n.toNat, cells tr s.ds (dest.toNat + i) ≠ some a) →
        s'.mem.cell a = s.mem.cell a := by
  obtain ⟨s', heval, hmem⟩ := memcpy_eval hapart
  refine ⟨s', heval, hmem, fun a ha => ?_⟩
  rw [hmem, copyRange_of_ne ha]

/-- A machine in flat memory, with all registers zero and the direction flag set. -/
def countingCells : State (Mapped fun _ a => some a.toNat) :=
  ⟨0, 0, 0, 0, 0, 0, 0, 0, 0x10, 0x18, 0x18, 0, 0, ⟨false, false, false, false, true, false⟩,
    ⟨UInt8.ofNat⟩, 0⟩

/-- Eleven bytes to an address that is not aligned, in plain memory. -/
theorem memcpy_copies_eleven :
    Apart (cells (fun _ a => some a.toNat) 0x18) 0x1003 0x2000 11 ∧
    ∃ s', s' ∈ eval (asm memcpyProgram).step (memcpyEntry countingCells 0x1003 0x2000 11) ∧
      s'.mem.cell 0x1002 = 0x02 ∧ s'.mem.cell 0x1003 = 0x00 ∧ s'.mem.cell 0x100D = 0x0A ∧
      s'.mem.cell 0x100E = 0x0E := by
  have hcells (va : ℕ) (hva : va + 11 ≤ 2 ^ 32) :
      Maps (cells (fun _ a => some a.toNat) 0x18) va va 11 := by
    intro i hi
    rw [cells, BitVec.toNat_ofNat, Nat.mod_eq_of_lt (by omega)]
  have hdest := hcells 0x1003 (by decide)
  have hsrc := hcells 0x2000 (by decide)
  have hapart := hdest.apart hsrc (by decide)
  obtain ⟨s', heval, hmem, -⟩ := memcpy_copies _ countingCells 0x1003 0x2000 11 hapart
  have happly (a : ℕ) := congrFun hmem a |>.trans (copyRange_apply hdest hsrc (by decide) a)
  refine ⟨hapart, s', heval, ?_, ?_, ?_, ?_⟩
  · exact happly 0x1002
  · exact happly 0x1003
  · exact happly 0x100D
  · exact happly 0x100E

/-! ## The copies of a terminal switch -/

/-- Addresses go to memory through flat segments and the page tables. -/
def Paging.linear (pg : Paging) : BitVec 16 → Word → Option ℕ := fun _ a => pg.translate a.toNat

namespace Display

/-- **`memcpy` on the display** is what the assembly does. -/
theorem memcpy_eval {d : Display} {s : State (Mapped d.paging.linear)} {dest src n : ℕ}
    (hmem : s.mem.cell = d.phys) (hdest : dest + n < 2 ^ 32) (hsrc : src + n < 2 ^ 32)
    (hapart : Apart d.paging.translate dest src n) :
    ∃ s', s' ∈ eval (asm memcpyProgram).step
        (memcpyEntry s (BitVec.ofNat 32 dest) (BitVec.ofNat 32 src) (BitVec.ofNat 32 n)) ∧
      s'.mem.cell = (d.memcpy dest src n).phys := by
  have htoNat {a : ℕ} (ha : a < 2 ^ 32) : (BitVec.ofNat 32 a).toNat = a := by
    rw [BitVec.toNat_ofNat, Nat.mod_eq_of_lt ha]
  have hcells {va : ℕ} (hva : va < 2 ^ 32) :
      cells d.paging.linear s.ds va = d.paging.translate va := by
    rw [cells, Paging.linear, htoNat hva]
  have hapart' : Apart (cells d.paging.linear s.ds) (BitVec.ofNat 32 dest).toNat
      (BitVec.ofNat 32 src).toNat (BitVec.ofNat 32 n).toNat := by
    rw [htoNat (by omega), htoNat (by omega), htoNat (by omega)]
    intro i hi j hj
    rw [hcells (by omega), hcells (by omega)]
    exact hapart i hi j hj
  obtain ⟨s', heval, hcopy⟩ := HarambeOs.memcpy_eval hapart'
  refine ⟨s', heval, hcopy.trans ?_⟩
  rw [htoNat (by omega), htoNat (by omega), htoNat (by omega), hmem]
  exact copyRange_congr (fun i hi => hcells (by omega)) (fun i hi => hcells (by omega))

/-- **A terminal switch moves the screens** as its two calls of the assembly do. -/
theorem switchScreen_eval {d : Display} (hs : d.Settled) (t : Term)
    {s : State (Mapped (d.paging.remapTermBefore d.currentTerminal).linear)}
    (hmem : s.mem.cell = d.phys) :
    ∃ s₁ s₂,
      s₁ ∈ eval (asm memcpyProgram).step
        (memcpyEntry s (BitVec.ofNat 32 (pageArr d.currentTerminal)) (BitVec.ofNat 32 video)
          (BitVec.ofNat 32 windowSize)) ∧
      s₂ ∈ eval (asm memcpyProgram).step (memcpyEntry s₁ (BitVec.ofNat 32 video)
        (BitVec.ofNat 32 (pageArr t)) (BitVec.ofNat 32 windowSize)) ∧
      s₂.mem.cell = (d.switchScreen t).phys := by
  have hpage (u : Term) : pageArr u + windowSize < 2 ^ 32 ∧
      (pageArr u + windowSize ≤ video ∨ video + windowSize ≤ pageArr u) := by
    rw [pageArr_eq, video, windowSize]
    omega
  have hmaps (u : Term) := (d.paging.remapTermBefore d.currentTerminal).maps_pageArr u
  simp only [termFrame_before hs.frame] at hmaps
  have hvideo := (d.paging.remapTermBefore d.currentTerminal).maps_video
  -- out to the page of the terminal that was displayed, then in from the other one's
  obtain ⟨s₁, h₁, hmem₁⟩ :=
    memcpy_eval (d := { d with paging := d.paging.remapTermBefore d.currentTerminal }) hmem
      (hpage _).1 (by decide) ((hmaps d.currentTerminal).apart hvideo (hpage _).2)
  obtain ⟨s₂, h₂, hmem₂⟩ :=
    memcpy_eval (d := { { d with paging := d.paging.remapTermBefore d.currentTerminal }.memcpy
      (pageArr d.currentTerminal) video windowSize with currentTerminal := t }) hmem₁
      (by decide) (hpage t).1 (hvideo.apart (hmaps t) (hpage t).2.symm)
  exact ⟨s₁, s₂, h₁, h₂, hmem₂⟩

end Display

end HarambeOs
