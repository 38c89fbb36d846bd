import HarambeOs.Library.Processor

/-!
# Memmove — the assembly of `memmove` and of `memset`

`memmove` of `lib.c` copies upwards where the source is not below the destination and downwards
where it is, so that it may read what it is going to overwrite.  Its invariant is an interval: the
bytes from `lo` to `hi` have been moved, as they were at the start (`moved`).  **`memmove_moves`**
says that all of them are, however the two ranges overlap; and that the direction flag stays set
after a copy downwards.

`memset` stores bytes up to an aligned address, then double words, then the bytes that are left; all
three loops go on with one `fill`.  **`memset_fills`** says that they meet.
-/

namespace HarambeOs

open Processor StateTransition

/-! ## `memmove` -/

def memmoveGo : Nat := 8

def memmoveProgram : List (Instr Empty) :=
  [.movwFrom .ds .edx,
   .movwTo .edx .es,
   .cld,
   .cmpl (.reg .edi) .esi,
   .jump .ae memmoveGo,
   .leal (-1) .esi .ecx .esi,
   .leal (-1) .edi .ecx .edi,
   .std,
   -- .memmove_go
   .repMovsb]

def memmoveEntry (s : State Memory) (dest src n : Word) : State Memory :=
  { s with edi := dest, esi := src, ecx := n, pc := 0 }

/-- A byte goes through a register. -/
theorem ofNat_setWidth (b : BitVec 8) : BitVec.ofNat 8 ((b.setWidth 32).toNat / 256 ^ 0) = b := by
  have := b.isLt
  refine BitVec.eq_of_toNat_eq ?_
  rw [BitVec.toNat_ofNat, BitVec.toNat_setWidth]
  omega

section Move

variable (m : Memory) (dest src : Word)

/-- Memory with the bytes from `lo` to `hi` moved, as they were at the start. -/
def moved (lo hi : ℕ) : Memory := fun x =>
  if lo ≤ (x - dest).toNat ∧ (x - dest).toNat < hi then m (src + (x - dest)) else m x

variable {m dest src} {lo hi lo' hi' i n : ℕ}

theorem moved_self : moved m dest src lo lo = m :=
  funext fun _ => if_neg (by omega)

/-- One more byte, next to those that were moved. -/
theorem store_moved (hi32 : i < 2 ^ 32) (hnext : ∀ j, lo' ≤ j ∧ j < hi' ↔ j = i ∨ lo ≤ j ∧ j < hi) :
    store (moved m dest src lo hi) (dest + BitVec.ofNat 32 i) 1
      ((m (src + BitVec.ofNat 32 i)).setWidth 32) = moved m dest src lo' hi' := by
  funext x
  obtain ⟨d, rfl⟩ : ∃ d, x = dest + d := ⟨x - dest, by rw [BitVec.add_comm, BitVec.sub_add_cancel]⟩
  have hd : dest + d - dest = d := by
    rw [BitVec.add_comm, BitVec.add_sub_cancel]
  have hoff : dest + d - (dest + BitVec.ofNat 32 i) = d - BitVec.ofNat 32 i := by
    bv_omega
  have hi' : (BitVec.ofNat 32 i).toNat = i := by
    rw [BitVec.toNat_ofNat, Nat.mod_eq_of_lt hi32]
  rw [store, hoff, moved, moved, hd]
  by_cases heq : d = BitVec.ofNat 32 i
  · subst heq
    rw [BitVec.sub_self, if_pos (by decide), if_pos ((hnext _).mpr (.inl hi'))]
    exact ofNat_setWidth _
  · have hne : d.toNat ≠ i := fun h => heq (BitVec.eq_of_toNat_eq (h.trans hi'.symm))
    have hzero : ¬ (d - BitVec.ofNat 32 i).toNat < 1 := fun h => heq <| by
      have : d - BitVec.ofNat 32 i = 0 := BitVec.eq_of_toNat_eq (Nat.lt_one_iff.mp h)
      exact sub_eq_zero.mp this
    rw [if_neg hzero]
    exact if_congr ((hnext _).trans (or_iff_right hne)).symm rfl rfl

/-! ### The loop -/

theorem step_movsb {s : State Memory} (hpc : s.pc = 8) : (asm memmoveProgram).step s =
    some (if s.ecx = 0 then s.next else { Machine.movsb s with ecx := s.ecx - 1 }) := by
  obtain ⟨⟩ := s
  subst hpc
  rfl

/-- `rep movsb`, byte by byte: at each step `q` bytes are left, the pointers are at byte `at_ q`,
and those in `[lo q, hi q)` have been moved. -/
theorem reaches_movsb (stride : Word) (at_ lo hi : ℕ → ℕ)
    (hat : ∀ q, 0 < q → q ≤ n → at_ q < 2 ^ 32)
    (hnext : ∀ q, q < n → ∀ j,
      lo q ≤ j ∧ j < hi q ↔ j = at_ (q + 1) ∨ lo (q + 1) ≤ j ∧ j < hi (q + 1))
    (hsource : ∀ q, q < n → ¬ (lo (q + 1) ≤ (src + BitVec.ofNat 32 (at_ (q + 1)) - dest).toNat ∧
      (src + BitVec.ofNat 32 (at_ (q + 1)) - dest).toNat < hi (q + 1)))
    (hstride : ∀ q, 0 < q → q < n →
      BitVec.ofNat 32 (at_ (q + 1)) + stride = BitVec.ofNat 32 (at_ q))
    {q : ℕ} {s : State Memory} (hq : q ≤ n) (hpc : s.pc = 8)
    (hdf : (if s.flags.direction then -1 else 1 : Word) = stride) (hecx : s.ecx.toNat = q)
    (hesi : 0 < q → s.esi = src + BitVec.ofNat 32 (at_ q))
    (hedi : 0 < q → s.edi = dest + BitVec.ofNat 32 (at_ q))
    (hmem : s.mem = moved m dest src (lo q) (hi q)) :
    ∃ s', Reaches (asm memmoveProgram).step s s' ∧ s'.pc = 9 ∧ s'.flags = s.flags ∧
      s'.mem = moved m dest src (lo 0) (hi 0) := by
  induction q generalizing s with
  | zero =>
    have hzero : s.ecx = 0 := BitVec.eq_of_toNat_eq hecx
    refine ⟨s.next, .single ?_, ?_, rfl, hmem⟩
    · rw [Option.mem_def, step_movsb hpc, if_pos hzero]
    · rw [State.next, hpc]
      rfl
  | succ q ih =>
    have hne : s.ecx ≠ 0 := fun h => by
      rw [h] at hecx
      exact absurd hecx (Nat.succ_ne_zero q).symm
    have hstep : (asm memmoveProgram).step s = some { Machine.movsb s with ecx := s.ecx - 1 } := by
      rw [step_movsb hpc, if_neg hne]
    have hcount : (s.ecx - 1).toNat = q := by
      have := s.ecx.isLt
      rw [BitVec.toNat_sub, show (1 : Word).toNat = 1 from rfl]
      omega
    have hpointer {p a : Word} (hp : 0 < q + 1 → p = a + BitVec.ofNat 32 (at_ (q + 1)))
        (hpos : 0 < q) :
        p + (if s.flags.direction then -1 else 1) = a + BitVec.ofNat 32 (at_ q) := by
      rw [hdf, hp (Nat.succ_pos q), BitVec.add_assoc, hstride q hpos hq]
    have hread : s.mem s.esi = m (src + BitVec.ofNat 32 (at_ (q + 1))) := by
      rw [hmem, hesi (Nat.succ_pos q)]
      exact if_neg (hsource q hq)
    have hwrite : store s.mem s.edi 1 ((s.mem s.esi).setWidth 32) =
        moved m dest src (lo q) (hi q) := by
      rw [hread, hmem, hedi (Nat.succ_pos q)]
      exact store_moved (hat _ (Nat.succ_pos q) hq) (hnext q hq)
    obtain ⟨s', hreach, hdone⟩ := ih (s := { Machine.movsb s with ecx := s.ecx - 1 })
      (Nat.le_of_succ_le hq) hpc hdf hcount (hpointer hesi) (hpointer hedi) hwrite
    exact ⟨s', .head hstep hreach, hdone⟩

theorem moved_all (hdest : dest.toNat + n ≤ 2 ^ 32) :
    (∀ i < n, moved m dest src 0 n (dest + BitVec.ofNat 32 i) = m (src + BitVec.ofNat 32 i)) ∧
      ∀ x, (∀ i < n, x ≠ dest + BitVec.ofNat 32 i) → moved m dest src 0 n x = m x := by
  refine ⟨fun i hi => ?_, fun x hx => if_neg fun h => ?_⟩
  · have hd : dest + BitVec.ofNat 32 i - dest = BitVec.ofNat 32 i := by
      rw [BitVec.add_comm, BitVec.add_sub_cancel]
    rw [moved, hd, BitVec.toNat_ofNat]
    exact if_pos ⟨Nat.zero_le _, by omega⟩
  · refine hx _ h.2 ?_
    rw [BitVec.ofNat_toNat, BitVec.setWidth_eq, BitVec.add_comm, BitVec.sub_add_cancel]

end Move

/-- The registers of `memmove` at `pc`, after the comparison. -/
def comparing (s : State Memory) (dest src n edx : Word) (es : BitVec 16) (pc : Word) :
    State Memory :=
  { s with
    edi := dest
    esi := src
    ecx := n
    edx := edx
    es := es
    flags := Flags.difference { s.flags with direction := false } src dest
    pc := pc }

/-- The comparison, and where it leads. -/
theorem memmove_start (s : State Memory) (dest src n : Word) : ∃ edx es,
    Reaches (asm memmoveProgram).step (memmoveEntry s dest src n)
      (comparing s dest src n edx es (if src < dest then 5 else 8)) := by
  obtain ⟨edx, es, hrun⟩ : ∃ edx es, (asm memmoveProgram).run 4 (memmoveEntry s dest src n) =
      some (comparing s dest src n edx es 4) := ⟨_, _, rfl⟩
  refine ⟨edx, es, .tail (Machine.reaches_of_run hrun) (Option.mem_def.mpr ?_)⟩
  have hjump : (asm memmoveProgram).step (comparing s dest src n edx es 4) = some
      (if !decide (src < dest) then comparing s dest src n edx es 8
        else comparing s dest src n edx es 5) := rfl
  rw [hjump]
  by_cases hlt : src < dest
  · rw [if_pos hlt, decide_eq_true hlt]
    rfl
  · rw [if_neg hlt, decide_eq_false hlt]
    rfl

section Ranges

variable {s : State Memory} {dest src n edx : Word} {es : BitVec 16}

/-- Downwards, from the last byte: the source is read before it is written over. -/
theorem memmove_down (hdest : dest.toNat + n.toNat ≤ 2 ^ 32) (hlt : src.toNat < dest.toNat) :
    ∃ s', Reaches (asm memmoveProgram).step (comparing s dest src n edx es 5) s' ∧ s'.pc = 9 ∧
      s'.flags.direction = true ∧ s'.mem = moved s.mem dest src 0 n.toNat := by
  have hn := n.isLt
  have hrun : (asm memmoveProgram).run 3 (comparing s dest src n edx es 5) = some
      { comparing s dest src n edx es 8 with
        esi := src + n + -1
        edi := dest + n + -1
        flags := { (comparing s dest src n edx es 8).flags with direction := true } } := rfl
  have hlast (a : Word) (hpos : 0 < n.toNat) : a + n + -1 = a + BitVec.ofNat 32 (n.toNat - 1) := by
    refine BitVec.eq_of_toNat_eq ?_
    rw [BitVec.toNat_add, BitVec.toNat_add, BitVec.toNat_add, BitVec.toNat_ofNat,
      show (-1 : Word).toNat = 2 ^ 32 - 1 from rfl]
    omega
  have hsource (q : ℕ) (hq : q < n.toNat) : ¬ (q + 1 ≤ (src + BitVec.ofNat 32 q - dest).toNat ∧
      (src + BitVec.ofNat 32 q - dest).toNat < n.toNat) := by
    rw [BitVec.toNat_sub, BitVec.toNat_add, BitVec.toNat_ofNat]
    omega
  have hstride (q : ℕ) (hpos : 0 < q) (hq : q < n.toNat) :
      BitVec.ofNat 32 q + -1 = BitVec.ofNat 32 (q - 1) := by
    refine BitVec.eq_of_toNat_eq ?_
    rw [BitVec.toNat_add, BitVec.toNat_ofNat, BitVec.toNat_ofNat,
      show (-1 : Word).toNat = 2 ^ 32 - 1 from rfl]
    omega
  obtain ⟨s', hreach, hpc, hflags, hmem⟩ := reaches_movsb (m := s.mem) (n := n.toNat) (-1)
    (· - 1) id (fun _ => n.toNat) (fun q _ _ => by omega)
    (fun q hq j => by simp only [id]; omega) hsource hstride le_rfl
    (s := { comparing s dest src n edx es 8 with
      esi := src + n + -1
      edi := dest + n + -1
      flags := { (comparing s dest src n edx es 8).flags with direction := true } })
    rfl rfl rfl (hlast src) (hlast dest) moved_self.symm
  exact ⟨s', (Machine.reaches_of_run hrun).trans hreach, hpc, congrArg Flags.direction hflags, hmem⟩

/-- Upwards, from the first byte. -/
theorem memmove_up (hsrc : src.toNat + n.toNat ≤ 2 ^ 32) (hge : dest.toNat ≤ src.toNat) :
    ∃ s', Reaches (asm memmoveProgram).step (comparing s dest src n edx es 8) s' ∧ s'.pc = 9 ∧
      s'.flags.direction = false ∧ s'.mem = moved s.mem dest src 0 n.toNat := by
  have hn := n.isLt
  have hsource (q : ℕ) (hq : q < n.toNat) :
      ¬ (0 ≤ (src + BitVec.ofNat 32 (n.toNat - (q + 1)) - dest).toNat ∧
        (src + BitVec.ofNat 32 (n.toNat - (q + 1)) - dest).toNat < n.toNat - (q + 1)) := by
    rw [BitVec.toNat_sub, BitVec.toNat_add, BitVec.toNat_ofNat]
    omega
  have hstride (q : ℕ) (hpos : 0 < q) (hq : q < n.toNat) :
      BitVec.ofNat 32 (n.toNat - (q + 1)) + 1 = BitVec.ofNat 32 (n.toNat - q) := by
    rw [show n.toNat - q = n.toNat - (q + 1) + 1 by omega, BitVec.ofNat_add]
    rfl
  have hfirst (a : Word) : a = a + BitVec.ofNat 32 (n.toNat - n.toNat) := by
    rw [Nat.sub_self, BitVec.add_zero]
  obtain ⟨s', hreach, hpc, hflags, hmem⟩ := reaches_movsb (m := s.mem) (n := n.toNat) 1
    (n.toNat - ·) (fun _ => 0) (n.toNat - ·) (fun q _ _ => by omega)
    (fun q hq j => by omega) hsource hstride le_rfl (s := comparing s dest src n edx es 8)
    rfl rfl rfl (fun _ => hfirst src) (fun _ => hfirst dest) (by rw [Nat.sub_self, moved_self]; rfl)
  exact ⟨s', hreach, hpc, congrArg Flags.direction hflags, hmem⟩

end Ranges

/-- **`memmove`.**  However the two ranges overlap, the destination ends up with what the source
held, and nothing else changes.  Where the source is below the destination the copy goes downwards,
and the direction flag is left set, which the calling convention does not allow. -/
theorem memmove_moves (s : State Memory) (dest src n : Word) (hdest : dest.toNat + n.toNat ≤ 2 ^ 32)
    (hsrc : src.toNat + n.toNat ≤ 2 ^ 32) :
    ∃ s' ∈ eval (asm memmoveProgram).step (memmoveEntry s dest src n),
      (∀ i < n.toNat, s'.mem (dest + BitVec.ofNat 32 i) = s.mem (src + BitVec.ofNat 32 i)) ∧
      (∀ x, (∀ i < n.toNat, x ≠ dest + BitVec.ofNat 32 i) → s'.mem x = s.mem x) ∧
      s'.flags.direction = decide (src < dest) := by
  obtain ⟨edx, es, hstart⟩ := memmove_start s dest src n
  obtain ⟨s', hreach, hpc, hdf, hmem⟩ : ∃ s', Reaches (asm memmoveProgram).step
      (comparing s dest src n edx es (if src < dest then 5 else 8)) s' ∧ s'.pc = 9 ∧
      s'.flags.direction = decide (src < dest) ∧ s'.mem = moved s.mem dest src 0 n.toNat := by
    by_cases hlt : src < dest
    · rw [if_pos hlt, decide_eq_true hlt]
      exact memmove_down hdest hlt
    · rw [if_neg hlt, decide_eq_false hlt]
      exact memmove_up hsrc (Nat.not_lt.mp hlt)
  refine ⟨s', mem_eval.mpr ⟨hstart.trans hreach, ?_⟩, ?_, ?_, hdf⟩
  · rw [Machine.step, hpc]
    rfl
  · rw [hmem]
    exact (moved_all hdest).1
  · rw [hmem]
    exact (moved_all hdest).2

/-- Three bytes moved up by one, onto two of their own. -/
theorem memmove_moves_three : (101 + 3 ≤ 2 ^ 32) ∧
    ∀ s : State Memory, ∃ s' ∈ eval (asm memmoveProgram).step (memmoveEntry s 101 100 3),
      s'.mem 101 = s.mem 100 ∧ s'.mem 102 = s.mem 101 ∧ s'.mem 103 = s.mem 102 ∧
      s'.mem 100 = s.mem 100 ∧ s'.flags.direction = true := by
  refine ⟨by decide, fun s => ?_⟩
  obtain ⟨s', hs', hmoved, hkept, hdf⟩ := memmove_moves s 101 100 3 (by decide) (by decide)
  refine ⟨s', hs', hmoved 0 (by decide), hmoved 1 (by decide), hmoved 2 (by decide),
    hkept 100 fun i hi => ?_, hdf⟩
  have hi' : i < 3 := hi
  interval_cases i <;> decide

/-! ## `memset` -/

def memsetTop : Nat := 0
def memsetAligned : Nat := 8
def memsetBottom : Nat := 15
def memsetDone : Nat := 21

def memsetProgram : List (Instr Empty) :=
  [ -- .memset_top
   .testl (.reg .ecx) .ecx,
   .jump .z memsetDone,
   .testl (.imm 0x3) .edi,
   .jump .z memsetAligned,
   .movbStore .edi,
   .addl (.imm 1) .edi,
   .subl (.imm 1) .ecx,
   .jump .always memsetTop,
   -- .memset_aligned
   .movwFrom .ds .edx,
   .movwTo .edx .es,
   .movl (.reg .ecx) .edx,
   .shrl 2 .ecx,
   .andl (.imm 0x3) .edx,
   .cld,
   .repStos 4,
   -- .memset_bottom
   .testl (.reg .edx) .edx,
   .jump .z memsetDone,
   .movbStore .edi,
   .addl (.imm 1) .edi,
   .subl (.imm 1) .edx,
   .jump .always memsetBottom]
   -- .memset_done

/-- `c &= 0xFF` and the operand `c << 24 | c << 16 | c << 8 | c`. -/
def memsetPattern (c : Word) : Word :=
  let c := c &&& 0xFF
  c <<< 24 ||| c <<< 16 ||| c <<< 8 ||| c

def memsetEntry (s : State Memory) (dest c n : Word) : State Memory :=
  { s with eax := memsetPattern c, edi := dest, ecx := n, pc := 0 }

/-- The pattern is the byte four times. -/
theorem memsetPattern_byte (c : Word) {i : ℕ} (hi : i < 4) :
    BitVec.ofNat 8 ((memsetPattern c).toNat / 256 ^ i) = c.setWidth 8 := by
  have hlow : c &&& 0xFF = (c.setWidth 8).setWidth 32 := by
    refine BitVec.eq_of_toNat_eq ?_
    rw [BitVec.toNat_and, show (0xFF : Word).toNat = 2 ^ 8 - 1 from rfl,
      Nat.and_two_pow_sub_one_eq_mod, BitVec.toNat_setWidth, BitVec.toNat_setWidth]
    omega
  have hbytes : ∀ b : BitVec 8, ∀ i : Fin 4, BitVec.ofNat 8 ((b.setWidth 32 <<< 24 |||
      b.setWidth 32 <<< 16 ||| b.setWidth 32 <<< 8 ||| b.setWidth 32 : Word).toNat / 256 ^ i.val) =
      b := by
    decide +kernel
  rw [memsetPattern, hlow]
  exact hbytes (c.setWidth 8) ⟨i, hi⟩

section Fill

variable (m : Memory) (dest v : Word)

/-- `i` bytes have been stored, and the pointer is past them. -/
structure Filled (i : ℕ) (s : State Memory) : Prop where
  eax : s.eax = v
  edi : s.edi = dest + BitVec.ofNat 32 i
  mem : s.mem = fill m dest 1 v i

variable {m dest v} {i r : ℕ} {s : State Memory}

theorem Filled.byte (h : Filled m dest v i s) (hi : i + 1 ≤ 2 ^ 32) {s' : State Memory}
    (heax : s'.eax = s.eax) (hedi : s'.edi = s.edi + 1)
    (hmem : s'.mem = store s.mem s.edi 1 s.eax) :
    Filled m dest v (i + 1) s' := by
  refine ⟨heax.trans h.eax, ?_, ?_⟩
  · rw [hedi, h.edi, BitVec.add_assoc, BitVec.ofNat_add]
    rfl
  · have hadd := fill_add (k := 1) (i := i) (j := 1) (by omega) m dest v
    rw [Nat.one_mul] at hadd
    rw [hmem, h.eax, h.edi, h.mem, store_eq_fill, hadd]

/-- A test of a register against zero, and where it leads. -/
theorem Filled.reaches_test (src : Operand) (dst : Reg) (label : ℕ) (h : Filled m dest v i s)
    (htest : memsetProgram[s.pc.toNat]? = some (.testl src dst))
    (hjump : memsetProgram[(s.pc + 1).toNat]? = some (.jump .z label)) :
    ∃ s', Reaches (asm memsetProgram).step s s' ∧ Filled m dest v i s' ∧ s'.ecx = s.ecx ∧
      s'.edx = s.edx ∧ s'.edi = s.edi ∧
      s'.pc = if s.get dst &&& s.value src = 0 then BitVec.ofNat 32 label else s.pc + 1 + 1 :=
  ⟨_, Machine.reaches_test src dst label htest hjump, ⟨h.eax, h.edi, h.mem⟩, rfl, rfl, rfl, rfl⟩

/-- `.memset_bottom` stores the bytes that are left. -/
theorem reaches_memset_bottom (h : Filled m dest v i s) (hi : i + r ≤ 2 ^ 32) (hpc : s.pc = 15)
    (hr : s.edx.toNat = r) :
    ∃ s', Reaches (asm memsetProgram).step s s' ∧ s'.pc = 21 ∧ Filled m dest v (i + r) s' := by
  induction r generalizing i s with
  | zero =>
    obtain ⟨s₁, hreach, hfilled, -, -, -, hpc₁⟩ := h.reaches_test (.reg .edx) .edx 21
      (by rw [hpc]; rfl) (by rw [hpc]; rfl)
    have hzero : s.edx &&& s.edx = 0 := by
      rw [BitVec.and_self]
      exact BitVec.eq_of_toNat_eq hr
    exact ⟨s₁, hreach, hpc₁.trans (if_pos hzero), hfilled⟩
  | succ r ih =>
    obtain ⟨s₁, hreach, hfilled, -, hedx, -, hpc₁⟩ := h.reaches_test (.reg .edx) .edx 21
      (by rw [hpc]; rfl) (by rw [hpc]; rfl)
    have hne : ¬ s.edx &&& s.edx = 0 := fun hz => by
      rw [BitVec.and_self] at hz
      rw [hz] at hr
      exact absurd hr (Nat.succ_ne_zero r).symm
    have hpc₁ : s₁.pc = 17 := by
      rw [hpc₁, hpc]
      exact if_neg hne
    obtain ⟨s₂, hbody, hpc₂, hedx₂, hfilled₂⟩ : ∃ s₂, Reaches (asm memsetProgram).step s₁ s₂ ∧
        s₂.pc = 15 ∧ s₂.edx = s₁.edx - 1 ∧ Filled m dest v (i + 1) s₂ := by
      obtain ⟨⟩ := s₁
      subst hpc₁
      exact ⟨_, Machine.reaches_of_run (k := 4) rfl, rfl, rfl, hfilled.byte (by omega) rfl rfl rfl⟩
    have hcount : s₂.edx.toNat = r := by
      have := s.edx.isLt
      rw [hedx₂, hedx, BitVec.toNat_sub, show (1 : Word).toNat = 1 from rfl]
      omega
    obtain ⟨s₃, hrest, hpc₃, hfilled₃⟩ := ih hfilled₂ (by omega) hpc₂ hcount
    refine ⟨s₃, hreach.trans (hbody.trans hrest), hpc₃, ?_⟩
    rwa [Nat.add_right_comm] at hfilled₃

/-- A store of four equal bytes is four stores of one. -/
theorem fill_four (hv : ∀ j < 4, BitVec.ofNat 8 (v.toNat / 256 ^ j) = BitVec.ofNat 8 v.toNat)
    (m : Memory) (a : Word) (q : ℕ) : fill m a 4 v q = fill m a 1 v (4 * q) := by
  funext x
  rw [fill, fill, Nat.one_mul, Nat.mod_one, pow_zero, Nat.div_one, hv _ (Nat.mod_lt _ (by decide))]

/-- `.memset_aligned` stores double words, and then what is left. -/
theorem reaches_memset_aligned {c : ℕ}
    (hv : ∀ j < 4, BitVec.ofNat 8 (v.toNat / 256 ^ j) = BitVec.ofNat 8 v.toNat)
    (h : Filled m dest v i s) (hi : i + c ≤ 2 ^ 32) (hpc : s.pc = 8) (hc : s.ecx.toNat = c) :
    ∃ s', Reaches (asm memsetProgram).step s s' ∧ s'.pc = 21 ∧ Filled m dest v (i + c) s' := by
  obtain ⟨s₁, hrun, hpc₁, hecx, hedx, hdf, hfilled⟩ : ∃ s₁, Reaches (asm memsetProgram).step s s₁ ∧
      s₁.pc = 14 ∧ s₁.ecx = s.ecx >>> 2 ∧ s₁.edx = s.ecx &&& 3 ∧ s₁.flags.direction = false ∧
      Filled m dest v i s₁ := by
    obtain ⟨⟩ := s
    subst hpc
    exact ⟨_, Machine.reaches_of_run (k := 6) rfl, rfl, rfl, rfl, rfl, h.eax, h.edi, h.mem⟩
  have hquarter : s₁.ecx.toNat = c / 4 := by
    rw [hecx, BitVec.toNat_ushiftRight, hc, Nat.shiftRight_eq_div_pow]
  have hrest : s₁.edx.toNat = c % 4 := by
    rw [hedx, BitVec.toNat_and, hc, show (3 : Word).toNat = 2 ^ 2 - 1 from rfl,
      Nat.and_two_pow_sub_one_eq_mod]
  have hstos := reaches_repStos (M := asm memsetProgram) (k := 4) (s := s₁) (by rw [hpc₁]; rfl) hdf
    (by omega)
  have hfour : Filled m dest v (i + 4 * (c / 4)) { s₁ with
      ecx := 0
      edi := s₁.edi + BitVec.ofNat 32 (4 * s₁.ecx.toNat)
      mem := fill s₁.mem s₁.edi 4 s₁.eax s₁.ecx.toNat
      pc := s₁.pc + 1 } := by
    refine ⟨hfilled.eax, ?_, ?_⟩
    · simp only
      rw [hfilled.edi, hquarter, BitVec.add_assoc, ← BitVec.ofNat_add]
    · have hadd := fill_add (k := 1) (i := i) (j := 4 * (c / 4)) (by omega) m dest v
      rw [Nat.one_mul] at hadd
      simp only
      rw [hfilled.eax, hquarter, fill_four hv, hfilled.edi, hfilled.mem, hadd]
  obtain ⟨s', hbottom, hpc', hfilled'⟩ := reaches_memset_bottom hfour (r := c % 4) (by omega)
    (by rw [hpc₁]; rfl) hrest
  refine ⟨s', hrun.trans (hstos.trans hbottom), hpc', ?_⟩
  rwa [show i + 4 * (c / 4) + c % 4 = i + c by omega] at hfilled'

/-- `.memset_top` stores single bytes up to an aligned address, or up to the end. -/
theorem reaches_memset_top {c : ℕ}
    (hv : ∀ j < 4, BitVec.ofNat 8 (v.toNat / 256 ^ j) = BitVec.ofNat 8 v.toNat)
    (h : Filled m dest v i s) (hi : i + c ≤ 2 ^ 32) (hpc : s.pc = 0) (hc : s.ecx.toNat = c) :
    ∃ s', Reaches (asm memsetProgram).step s s' ∧ s'.pc = 21 ∧ Filled m dest v (i + c) s' := by
  induction c generalizing i s with
  | zero =>
    obtain ⟨s₁, hreach, hfilled, -, -, -, hpc₁⟩ := h.reaches_test (.reg .ecx) .ecx 21
      (by rw [hpc]; rfl) (by rw [hpc]; rfl)
    have hzero : s.ecx &&& s.ecx = 0 := by
      rw [BitVec.and_self]
      exact BitVec.eq_of_toNat_eq hc
    exact ⟨s₁, hreach, hpc₁.trans (if_pos hzero), hfilled⟩
  | succ c ih =>
    obtain ⟨s₁, hreach, hfilled, hecx, -, hedi, hpc₁⟩ := h.reaches_test (.reg .ecx) .ecx 21
      (by rw [hpc]; rfl) (by rw [hpc]; rfl)
    have hne : ¬ s.ecx &&& s.ecx = 0 := fun hz => by
      rw [BitVec.and_self] at hz
      rw [hz] at hc
      exact absurd hc (Nat.succ_ne_zero c).symm
    have hpc₁ : s₁.pc = 2 := by
      rw [hpc₁, hpc]
      exact if_neg hne
    obtain ⟨s₂, hreach₂, hfilled₂, hecx₂, -, -, hpc₂⟩ := hfilled.reaches_test (.imm 3) .edi 8
      (by rw [hpc₁]; rfl) (by rw [hpc₁]; rfl)
    have hcount : s₂.ecx.toNat = c + 1 := by
      rw [hecx₂, hecx, hc]
    by_cases haligned : s₁.edi &&& 3 = 0
    · obtain ⟨s₃, hrest, hdone⟩ := reaches_memset_aligned hv hfilled₂ hi
        (hpc₂.trans (if_pos haligned)) hcount
      exact ⟨s₃, hreach.trans (hreach₂.trans hrest), hdone⟩
    have hpc₂ : s₂.pc = 4 := by
      rw [hpc₂, hpc₁]
      exact if_neg haligned
    obtain ⟨s₃, hbody, hpc₃, hecx₃, hfilled₃⟩ : ∃ s₃, Reaches (asm memsetProgram).step s₂ s₃ ∧
        s₃.pc = 0 ∧ s₃.ecx = s₂.ecx - 1 ∧ Filled m dest v (i + 1) s₃ := by
      obtain ⟨⟩ := s₂
      subst hpc₂
      exact ⟨_, Machine.reaches_of_run (k := 4) rfl, rfl, rfl, hfilled₂.byte (by omega) rfl rfl rfl⟩
    have hcount₃ : s₃.ecx.toNat = c := by
      have := s₂.ecx.isLt
      rw [hecx₃, BitVec.toNat_sub, show (1 : Word).toNat = 1 from rfl]
      omega
    obtain ⟨s₄, hrest, hpc₄, hfilled₄⟩ := ih hfilled₃ (by omega) hpc₃ hcount₃
    refine ⟨s₄, hreach.trans (hreach₂.trans (hbody.trans hrest)), hpc₄, ?_⟩
    rwa [Nat.add_right_comm] at hfilled₄

end Fill

/-- **`memset`.**  Whatever the alignment and the length, also where the range goes past the end of
the address space: exactly the `n` bytes from `dest` on are set, to the lowest byte of `c`. -/
theorem memset_fills (s : State Memory) (dest c n : Word) :
    ∃ s' ∈ eval (asm memsetProgram).step (memsetEntry s dest c n), ∀ x,
      s'.mem x = if (x - dest).toNat < n.toNat then c.setWidth 8 else s.mem x := by
  have hbyte (j : ℕ) (hj : j < 4) : BitVec.ofNat 8 ((memsetPattern c).toNat / 256 ^ j) =
      BitVec.ofNat 8 (memsetPattern c).toNat := by
    rw [memsetPattern_byte c hj, ← memsetPattern_byte c (i := 0) (by decide), pow_zero, Nat.div_one]
  have hstart : Filled s.mem dest (memsetPattern c) 0 (memsetEntry s dest c n) :=
    ⟨rfl, (BitVec.add_zero dest).symm, (fill_zero ..).symm⟩
  obtain ⟨s', hreach, hpc, hfilled⟩ := reaches_memset_top hbyte hstart
    (by have := n.isLt; omega) rfl rfl
  refine ⟨s', mem_eval.mpr ⟨hreach, ?_⟩, fun x => ?_⟩
  · rw [Machine.step, hpc]
    rfl
  · rw [hfilled.mem, fill, Nat.zero_add, Nat.one_mul, Nat.mod_one,
      memsetPattern_byte c (i := 0) (by decide)]
    rfl

end HarambeOs
