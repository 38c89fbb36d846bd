import Mathlib

/-!
# Library/Processor — the 32-bit x86 with its stack, traps and string instructions

The general registers, the segment selectors and the flags, a flat memory of bytes, and the
instructions of hand-written kernel code, as first-order data.  A program is a list of instructions
and an address of code an index into it.  A function written in another language is a parameter: a
`call` of it goes from the state at its entry to the state at its return.  A trap goes through a
gate, to the stack of the kernel where it comes from a program.

`Holds m e l` says that the words from `e` upward are `l`.  A push puts one before them, and what
lies above the stack pointer stays (`Holds.push`, `Holds.above`): this is how saved registers are
found again.
-/

namespace Processor

abbrev Word := BitVec 32

/-- Memory, byte by byte.  Addresses wrap. -/
abbrev Memory := Word → BitVec 8

/-! ## Words in memory -/

/-- The lowest `n` bytes of `v`, stored from `a` on. -/
def store (m : Memory) (a : Word) (n : ℕ) (v : Word) : Memory := fun x =>
  if (x - a).toNat < n then BitVec.ofNat 8 (v.toNat / 256 ^ (x - a).toNat) else m x

/-- The word at `a`. -/
def load (m : Memory) (a : Word) : Word :=
  BitVec.ofNat 32 ((m a).toNat + (m (a + 1)).toNat * 256 + (m (a + 2)).toNat * 256 ^ 2 +
    (m (a + 3)).toNat * 256 ^ 3)

variable {m : Memory} {a b e : Word} {l : List Word}

theorem store_of_le {n : ℕ} {v x : Word} (h : n ≤ (x - a).toNat) : store m a n v x = m x :=
  if_neg (Nat.not_lt.mpr h)

theorem load_store (m : Memory) (a v : Word) : load (store m a 4 v) a = v := by
  have hbyte (i : ℕ) (hi : i < 4) : (store m a 4 v (a + BitVec.ofNat 32 i)).toNat =
      v.toNat / 256 ^ i % 256 := by
    have hoff : (a + BitVec.ofNat 32 i - a).toNat = i := by
      rw [BitVec.add_comm, BitVec.add_sub_cancel, BitVec.toNat_ofNat]
      omega
    rw [store, if_pos (by omega), hoff, BitVec.toNat_ofNat]
  have h0 := hbyte 0 (by decide)
  rw [BitVec.add_zero] at h0
  have hv := v.isLt
  refine BitVec.eq_of_toNat_eq ?_
  rw [load, BitVec.toNat_ofNat, h0, show a + 1 = a + BitVec.ofNat 32 1 from rfl,
    show a + 2 = a + BitVec.ofNat 32 2 from rfl, show a + 3 = a + BitVec.ofNat 32 3 from rfl,
    hbyte 1 (by decide), hbyte 2 (by decide), hbyte 3 (by decide)]
  omega

/-- A word apart from the one stored. -/
theorem load_store_of_apart (h : 4 ≤ (b - a).toNat) (h' : (b - a).toNat + 4 ≤ 2 ^ 32) (v : Word) :
    load (store m a 4 v) b = load m b := by
  have hbyte (i : ℕ) (hi : i < 4) :
      store m a 4 v (b + BitVec.ofNat 32 i) = m (b + BitVec.ofNat 32 i) := by
    refine store_of_le ?_
    have hsplit : b + BitVec.ofNat 32 i - a = b - a + BitVec.ofNat 32 i := by
      rw [BitVec.sub_eq_add_neg, BitVec.sub_eq_add_neg, BitVec.add_assoc, BitVec.add_assoc,
        BitVec.add_comm (-a)]
    rw [hsplit, BitVec.toNat_add, BitVec.toNat_ofNat]
    omega
  have h0 := hbyte 0 (by decide)
  rw [BitVec.add_zero] at h0
  rw [load, load, h0, show b + 1 = b + BitVec.ofNat 32 1 from rfl,
    show b + 2 = b + BitVec.ofNat 32 2 from rfl, show b + 3 = b + BitVec.ofNat 32 3 from rfl,
    hbyte 1 (by decide), hbyte 2 (by decide), hbyte 3 (by decide)]

/-! ## Access to memory -/

/-- Memory as instructions reach it: by the selector of a segment and an offset. -/
class Bus (μ : Type) where
  byte : μ → BitVec 16 → Word → BitVec 8
  /-- The lowest `n` bytes of a word, from an offset on -/
  store : μ → BitVec 16 → Word → ℕ → Word → μ

/-- The word at an offset. -/
def Bus.load {μ : Type} [Bus μ] (m : μ) (sel : BitVec 16) (a : Word) : Word :=
  BitVec.ofNat 32 ((byte m sel a).toNat + (byte m sel (a + 1)).toNat * 256 +
    (byte m sel (a + 2)).toNat * 256 ^ 2 + (byte m sel (a + 3)).toNat * 256 ^ 3)

/-- The bytes of a word that is read. -/
theorem Bus.ofNat_load {μ : Type} [Bus μ] (m : μ) (sel : BitVec 16) (a : Word) {j : ℕ}
    (hj : j < 4) :
    BitVec.ofNat 8 ((load m sel a).toNat / 256 ^ j) = byte m sel (a + BitVec.ofNat 32 j) := by
  have h₀ := (byte m sel a).isLt
  have h₁ := (byte m sel (a + 1)).isLt
  have h₂ := (byte m sel (a + 2)).isLt
  have h₃ := (byte m sel (a + 3)).isLt
  refine BitVec.eq_of_toNat_eq ?_
  rw [load, BitVec.toNat_ofNat, BitVec.toNat_ofNat]
  interval_cases j
  · rw [BitVec.add_zero]
    omega
  · change _ = (byte m sel (a + 1)).toNat
    omega
  · change _ = (byte m sel (a + 2)).toNat
    omega
  · change _ = (byte m sel (a + 3)).toNat
    omega

/-- Flat segments. -/
instance : Bus Memory where
  byte m _ a := m a
  store m _ a n v := store m a n v

@[simp] theorem Bus.store_flat (m : Memory) (sel : BitVec 16) (a : Word) (n : ℕ) (v : Word) :
    Bus.store m sel a n v = Processor.store m a n v := rfl

@[simp] theorem Bus.load_flat (m : Memory) (sel : BitVec 16) (a : Word) :
    Bus.load m sel a = Processor.load m a := rfl

/-! ## The stack -/

/-- The words from `e` upward are `l`. -/
def Holds (m : Memory) : Word → List Word → Prop
  | _, [] => True
  | e, v :: l => load m e = v ∧ Holds m (e + 4) l

/-- What lies above a word stored is kept. -/
theorem Holds.store (h : Holds m b l) (hd : 4 ≤ (b - a).toNat)
    (hl : (b - a).toNat + 4 * l.length ≤ 2 ^ 32) (v : Word) : Holds (store m a 4 v) b l := by
  induction l generalizing b with
  | nil => trivial
  | cons w l ih =>
    rw [List.length_cons] at hl
    refine ⟨(load_store_of_apart hd (by omega) v).trans h.1, ?_⟩
    rcases l with - | ⟨w', l⟩
    · trivial
    rw [List.length_cons] at hl
    have hnext : (b + 4 - a).toNat = (b - a).toNat + 4 := by
      have hsplit : b + 4 - a = b - a + 4 := by
        rw [BitVec.sub_eq_add_neg, BitVec.sub_eq_add_neg, BitVec.add_assoc, BitVec.add_assoc,
          BitVec.add_comm (-a)]
      rw [hsplit, BitVec.toNat_add, show (4 : Word).toNat = 4 from rfl]
      omega
    exact ih h.2 (by omega) (by rw [List.length_cons]; omega)

/-- **A push.** -/
theorem Holds.push (h : Holds m e l) (hl : 4 * (l.length + 1) ≤ 2 ^ 32) (v : Word) :
    Holds (Processor.store m (e - 4) 4 v) (e - 4) (v :: l) := by
  have hback : e - 4 + 4 = e := BitVec.sub_add_cancel e 4
  have hdist : (e - (e - 4)).toNat = 4 := by
    rw [BitVec.toNat_sub, BitVec.toNat_sub, show (4 : Word).toNat = 4 from rfl]
    have := e.isLt
    omega
  refine ⟨load_store m (e - 4) v, ?_⟩
  rw [hback]
  exact h.store (by omega) (by omega) v

/-- A push leaves what lies above alone. -/
theorem Holds.above (h : Holds m b l) (he : 4 ≤ e.toNat) (hb : e.toNat ≤ b.toNat)
    (hl : b.toNat + 4 * l.length ≤ 2 ^ 32) (v : Word) :
    Holds (Processor.store m (e - 4) 4 v) b l := by
  have hfour : (e - 4).toNat = e.toNat - 4 := by
    rw [BitVec.toNat_sub, show (4 : Word).toNat = 4 from rfl]
    have := e.isLt
    omega
  have hdist : (b - (e - 4)).toNat = b.toNat - e.toNat + 4 := by
    rw [BitVec.toNat_sub, hfour]
    have := b.isLt
    omega
  exact h.store (by omega) (by omega) v

theorem Holds.append_right {l' : List Word} (h : Holds m e (l ++ l')) :
    Holds m (e + BitVec.ofNat 32 (4 * l.length)) l' := by
  induction l generalizing e with
  | nil => simpa using h
  | cons v l ih =>
    have := ih h.2
    rw [BitVec.add_assoc, show (4 : Word) = BitVec.ofNat 32 4 from rfl, ← BitVec.ofNat_add] at this
    rwa [List.length_cons, show 4 * (l.length + 1) = 4 + 4 * l.length by omega]

/-! ## Flags -/

structure Flags where
  carry : Bool
  zero : Bool
  sign : Bool
  overflow : Bool
  direction : Bool
  interrupt : Bool
  deriving DecidableEq

namespace Flags

/-- `EFLAGS`, as far as the fragment uses it. -/
def word (f : Flags) : Word :=
  BitVec.ofNat 32 (f.carry.toNat + 2 + f.zero.toNat * 2 ^ 6 + f.sign.toNat * 2 ^ 7 +
    f.interrupt.toNat * 2 ^ 9 + f.direction.toNat * 2 ^ 10 + f.overflow.toNat * 2 ^ 11)

def ofWord (w : Word) : Flags where
  carry := w.getLsbD 0
  zero := w.getLsbD 6
  sign := w.getLsbD 7
  overflow := w.getLsbD 11
  direction := w.getLsbD 10
  interrupt := w.getLsbD 9

/-- Flags pushed are flags popped. -/
@[simp] theorem ofWord_word (f : Flags) : ofWord f.word = f := by
  obtain ⟨c, z, s, o, d, i⟩ := f
  cases c <;> cases z <;> cases s <;> cases o <;> cases d <;> cases i <;> decide

/-- The flags after a result. -/
def result (f : Flags) (r : Word) (carry overflow : Bool) : Flags :=
  { f with carry := carry, zero := r == 0, sign := r.msb, overflow := overflow }

/-- The flags after `a - b`. -/
def difference (f : Flags) (a b : Word) : Flags :=
  f.result (a - b) (decide (a < b)) (decide ((a - b).toInt ≠ a.toInt - b.toInt))

/-- The flags after `a >>> count`.  The carry is the last bit shifted out; a shift by 0 leaves the
flags alone, and the overflow of a shift by more than 1 is undefined. -/
def shifted (f : Flags) (a : Word) (count : ℕ) : Flags :=
  if count = 0 then f else f.result (a >>> count) (a.getLsbD (count - 1)) a.msb

/-- Sign and overflow together compare signed words. -/
theorem sign_ne_overflow (f : Flags) (a b : Word) :
    ((f.difference a b).sign ≠ (f.difference a b).overflow) ↔ a.toInt < b.toInt := by
  have hmsb : (a - b).msb = decide ((a - b).toInt < 0) := BitVec.msb_eq_toInt
  have hsub : (a - b).toInt = (a.toInt - b.toInt).bmod (2 ^ 32) := BitVec.toInt_sub
  have ha := BitVec.toInt_lt (x := a)
  have ha' := BitVec.le_toInt (x := a)
  have hb := BitVec.toInt_lt (x := b)
  have hb' := BitVec.le_toInt (x := b)
  have hcases : (a - b).toInt = a.toInt - b.toInt ∨
      (a - b).toInt = a.toInt - b.toInt + 2 ^ 32 ∧ a.toInt < b.toInt ∨
      (a - b).toInt = a.toInt - b.toInt - 2 ^ 32 ∧ b.toInt < a.toInt := by
    rw [hsub, Int.bmod_def]
    omega
  have hr := BitVec.toInt_lt (x := a - b)
  have hr' := BitVec.le_toInt (x := a - b)
  change ((a - b).msb ≠ decide ((a - b).toInt ≠ a.toInt - b.toInt)) ↔ _
  rw [hmsb, ne_eq, decide_eq_decide]
  omega

end Flags

/-! ## The state -/

inductive Reg
  | eax | ecx | edx | ebx | esp | ebp | esi | edi
  deriving DecidableEq, Repr

inductive Seg
  | ds | es | fs
  deriving DecidableEq, Repr

/-- The registers, and a memory. -/
@[ext] structure State (μ : Type) where
  eax : Word
  ecx : Word
  edx : Word
  ebx : Word
  esp : Word
  ebp : Word
  esi : Word
  edi : Word
  cs : BitVec 16
  ss : BitVec 16
  ds : BitVec 16
  es : BitVec 16
  fs : BitVec 16
  flags : Flags
  mem : μ
  pc : Word

/-- A source operand. -/
inductive Operand
  | imm (n : Word)
  | reg (r : Reg)
  deriving DecidableEq, Repr

namespace State

variable {μ : Type}

def get (s : State μ) : Reg → Word
  | .eax => s.eax
  | .ecx => s.ecx
  | .edx => s.edx
  | .ebx => s.ebx
  | .esp => s.esp
  | .ebp => s.ebp
  | .esi => s.esi
  | .edi => s.edi

def set (s : State μ) (v : Word) : Reg → State μ
  | .eax => { s with eax := v }
  | .ecx => { s with ecx := v }
  | .edx => { s with edx := v }
  | .ebx => { s with ebx := v }
  | .esp => { s with esp := v }
  | .ebp => { s with ebp := v }
  | .esi => { s with esi := v }
  | .edi => { s with edi := v }

def getSeg (s : State μ) : Seg → BitVec 16
  | .ds => s.ds
  | .es => s.es
  | .fs => s.fs

def setSeg (s : State μ) (v : BitVec 16) : Seg → State μ
  | .ds => { s with ds := v }
  | .es => { s with es := v }
  | .fs => { s with fs := v }

def value (s : State μ) : Operand → Word
  | .imm n => n
  | .reg r => s.get r

/-- The segment of an address that is relative to a register. -/
def segment (s : State μ) : Reg → BitVec 16
  | .esp | .ebp => s.ss
  | _ => s.ds

/-- A word on the stack. -/
def push [Bus μ] (s : State μ) (v : Word) : State μ :=
  { s with esp := s.esp - 4, mem := Bus.store s.mem s.ss (s.esp - 4) 4 v }

/-- The top of the stack. -/
def top [Bus μ] (s : State μ) : Word := Bus.load s.mem s.ss s.esp

/-- The stack without its top. -/
def pop (s : State μ) : State μ := { s with esp := s.esp + 4 }

/-- On to the next instruction. -/
def next (s : State μ) : State μ := { s with pc := s.pc + 1 }

/-- The result of an operation, in its destination and in the flags. -/
def result (s : State μ) (v : Word) (carry overflow : Bool) (dst : Reg) : State μ :=
  { s.set v dst with flags := s.flags.result v carry overflow }

/-- Whether a program is running, and not the kernel. -/
def user (s : State μ) : Bool := s.cs.toNat % 4 != 0

end State

/-! ## Instructions -/

/-- The conditions of a jump. -/
inductive Cond
  | always | z | ae | g | l
  deriving DecidableEq, Repr

def Cond.holds (f : Flags) : Cond → Bool
  | .always => true
  | .z => f.zero
  | .ae => !f.carry
  | .g => !f.zero && f.sign == f.overflow
  | .l => f.sign != f.overflow

/-- After a comparison the jumps go by the order of signed words. -/
theorem Cond.holds_g (f : Flags) (a b : Word) :
    Cond.g.holds (f.difference a b) = decide (b.toInt < a.toInt) := by
  have hzero : (f.difference a b).zero = true ↔ a.toInt = b.toInt := by
    change (a - b == 0) = true ↔ _
    rw [beq_iff_eq, BitVec.toInt_inj]
    exact sub_eq_zero
  have hge : (f.difference a b).sign = (f.difference a b).overflow ↔ ¬ a.toInt < b.toInt :=
    not_ne_iff.symm.trans (not_congr (f.sign_ne_overflow a b))
  rw [holds, Bool.eq_iff_iff, Bool.and_eq_true, Bool.not_eq_true', beq_iff_eq, decide_eq_true_iff,
    ← Bool.not_eq_true, hzero, hge]
  omega

theorem Cond.holds_l (f : Flags) (a b : Word) :
    Cond.l.holds (f.difference a b) = decide (a.toInt < b.toInt) := by
  rw [holds, Bool.eq_iff_iff, bne_iff_ne, decide_eq_true_iff]
  exact f.sign_ne_overflow a b

/-- Instructions, with the destination last; `φ` names the functions that are called. -/
inductive Instr (φ : Type)
  | pushl (r : Reg)
  | pushSeg (r : Seg)
  | pushfl
  | popl (r : Reg)
  | popSeg (r : Seg)
  | popfl
  | movl (src : Operand) (dst : Reg)
  /-- `movl disp(base), dst` -/
  | movlLoad (disp : Word) (base dst : Reg)
  /-- `movb (base), %al` -/
  | movbLoad (base : Reg)
  /-- `movb %al, (base)` -/
  | movbStore (base : Reg)
  /-- `movw src, dst`, from a segment register -/
  | movwFrom (src : Seg) (dst : Reg)
  /-- `movw src, dst`, to a segment register -/
  | movwTo (src : Reg) (dst : Seg)
  /-- `leal disp(base, index), dst` -/
  | leal (disp : Word) (base index dst : Reg)
  | addl (src : Operand) (dst : Reg)
  | subl (src : Operand) (dst : Reg)
  | andl (src : Operand) (dst : Reg)
  | shrl (count : ℕ) (dst : Reg)
  | decl (dst : Reg)
  | cmpl (src : Operand) (dst : Reg)
  | testl (src : Operand) (dst : Reg)
  | jump (c : Cond) (label : ℕ)
  /-- `jmp *table(, index, 4)` -/
  | jmpTable (table : List ℕ) (index : Reg)
  | call (f : φ)
  | ret
  | int (vector : BitVec 8)
  | iret
  | cld
  | std
  | repMovsb
  | repMovsl
  /-- `rep stosb`, `rep stosw` or `rep stosl`, by the number of bytes stored at once -/
  | repStos (n : ℕ)
  deriving DecidableEq, Repr

/-- Where a vector leads: the code there, its segment, the least privileged level that may name the
vector, and whether interrupts stay as they are. -/
structure Gate where
  entry : Word
  selector : BitVec 16
  dpl : ℕ
  trap : Bool
  deriving DecidableEq

/-- A program, the functions it calls, the vectors, and the stack a program's traps go to. -/
structure Machine (φ μ : Type) where
  program : List (Instr φ)
  callee : φ → State μ → State μ
  gates : BitVec 8 → Option Gate
  esp0 : Word
  ss0 : BitVec 16

/-- A stretch of inline assembly. -/
def asm {μ : Type} (program : List (Instr Empty)) : Machine Empty μ where
  program := program
  callee f := f.elim
  gates _ := none
  esp0 := 0
  ss0 := 0

namespace Machine

variable {φ μ : Type} [Bus μ] (M : Machine φ μ)

/-- The stack of the kernel, with the one it comes from on it. -/
def kernelStack (s : State μ) : State μ :=
  if s.user then ({ s with esp := M.esp0, ss := M.ss0 }.push (s.ss.setWidth 32)).push s.esp else s

/-- Through a gate, to come back to `s.pc`. -/
def enter (g : Gate) (s : State μ) : State μ :=
  { (((M.kernelStack s).push s.flags.word).push (s.cs.setWidth 32)).push s.pc with
    cs := g.selector
    pc := g.entry
    flags := { s.flags with interrupt := s.flags.interrupt && g.trap } }

/-- Back through the frame on the stack, and to the other stack where it was left. -/
def iret (s : State μ) : State μ :=
  let back := { s.pop.pop.pop with
    pc := s.top
    cs := s.pop.top.setWidth 16
    flags := .ofWord s.pop.pop.top }
  if back.user then
    { back with esp := s.pop.pop.pop.top, ss := s.pop.pop.pop.pop.top.setWidth 16 }
  else back

/-- One byte from `esi` to `edi`, and both pointers on by the direction flag. -/
def movsb (s : State μ) : State μ :=
  let stride : Word := if s.flags.direction then -1 else 1
  { s with
    mem := Bus.store s.mem s.es s.edi 1 ((Bus.byte s.mem s.ds s.esi).setWidth 32)
    esi := s.esi + stride
    edi := s.edi + stride }

/-- The same with a double word. -/
def movsl (s : State μ) : State μ :=
  let stride : Word := if s.flags.direction then -4 else 4
  { s with
    mem := Bus.store s.mem s.es s.edi 4 (Bus.load s.mem s.ds s.esi)
    esi := s.esi + stride
    edi := s.edi + stride }

/-- The lowest `n` bytes of `eax` to `edi`, and the pointer on by the direction flag. -/
def stos (n : ℕ) (s : State μ) : State μ :=
  let stride : Word := if s.flags.direction then -BitVec.ofNat 32 n else BitVec.ofNat 32 n
  { s with mem := Bus.store s.mem s.es s.edi n s.eax, edi := s.edi + stride }

/-- The effect of one instruction.  A repeated one stays at its place until the count is used up. -/
def exec (s : State μ) : Instr φ → Option (State μ)
  | .pushl r => some (s.push (s.get r)).next
  | .pushSeg r => some (s.push ((s.getSeg r).setWidth 32)).next
  | .pushfl => some (s.push s.flags.word).next
  | .popl r => some (s.pop.set s.top r).next
  | .popSeg r => some (s.pop.setSeg (s.top.setWidth 16) r).next
  | .popfl => some { s.pop with flags := .ofWord s.top }.next
  | .movl src dst => some (s.set (s.value src) dst).next
  | .movlLoad disp base dst =>
    some (s.set (Bus.load s.mem (s.segment base) (s.get base + disp)) dst).next
  | .movbLoad base =>
    let al := Bus.byte s.mem (s.segment base) (s.get base)
    some { s with eax := s.eax.extractLsb' 8 24 ++ al }.next
  | .movbStore base =>
    some { s with mem := Bus.store s.mem (s.segment base) (s.get base) 1 s.eax }.next
  | .movwFrom src dst => some (s.set ((s.get dst).extractLsb' 16 16 ++ s.getSeg src) dst).next
  | .movwTo src dst => some (s.setSeg ((s.get src).setWidth 16) dst).next
  | .leal disp base index dst => some (s.set (s.get base + s.get index + disp) dst).next
  | .addl src dst =>
    let r := s.get dst + s.value src
    some (s.result r (decide (r < s.value src))
      (decide (r.toInt ≠ (s.get dst).toInt + (s.value src).toInt)) dst).next
  | .subl src dst =>
    some { s.set (s.get dst - s.value src) dst with
      flags := s.flags.difference (s.get dst) (s.value src) }.next
  | .andl src dst => some (s.result (s.get dst &&& s.value src) false false dst).next
  | .shrl count dst =>
    some { s.set (s.get dst >>> count) dst with flags := s.flags.shifted (s.get dst) count }.next
  | .decl dst =>
    some { s.set (s.get dst - 1) dst with
      flags := { s.flags.difference (s.get dst) 1 with carry := s.flags.carry } }.next
  | .cmpl src dst => some { s with flags := s.flags.difference (s.get dst) (s.value src) }.next
  | .testl src dst =>
    some { s with flags := s.flags.result (s.get dst &&& s.value src) false false }.next
  | .jump c label =>
    some (if c.holds s.flags then { s with pc := BitVec.ofNat 32 label } else s.next)
  | .jmpTable table index =>
    table[(s.get index).toNat]?.map fun label => { s with pc := BitVec.ofNat 32 label }
  | .call f => some { M.callee f (s.push (s.pc + 1)) with pc := s.pc + 1 }
  | .ret => some { s.pop with pc := s.top }
  | .int vector =>
    (M.gates vector).bind fun g =>
      if s.user && g.dpl < 3 then none else some (M.enter g s.next)
  | .iret => some (iret s)
  | .cld => some { s with flags := { s.flags with direction := false } }.next
  | .std => some { s with flags := { s.flags with direction := true } }.next
  | .repMovsb => some (if s.ecx = 0 then s.next else { movsb s with ecx := s.ecx - 1 })
  | .repMovsl => some (if s.ecx = 0 then s.next else { movsl s with ecx := s.ecx - 1 })
  | .repStos n => some (if s.ecx = 0 then s.next else { stos n s with ecx := s.ecx - 1 })

/-- The instruction at `pc`. -/
def step (s : State μ) : Option (State μ) := M.program[s.pc.toNat]?.bind (M.exec s)

/-- A given number of steps. -/
def run : ℕ → State μ → Option (State μ)
  | 0, s => some s
  | k + 1, s => (M.step s).bind (run k)

variable {M}

/-- **Straight code**, as a stretch of a longer computation. -/
theorem reaches_of_run {k : ℕ} {s s' : State μ} (h : M.run k s = some s') :
    StateTransition.Reaches M.step s s' := by
  induction k generalizing s with
  | zero =>
    rw [← Option.some.inj h]
    exact .refl
  | succ k ih =>
    obtain ⟨s₁, hstep, hrun⟩ := Option.bind_eq_some_iff.mp h
    exact .head hstep (ih hrun)

/-- **A test and a jump on it.** -/
theorem reaches_test {s : State μ} (src : Operand) (dst : Reg) (label : ℕ)
    (htest : M.program[s.pc.toNat]? = some (.testl src dst))
    (hjump : M.program[(s.pc + 1).toNat]? = some (.jump .z label)) :
    StateTransition.Reaches M.step s { s with
      flags := s.flags.result (s.get dst &&& s.value src) false false
      pc := if s.get dst &&& s.value src = 0 then BitVec.ofNat 32 label else s.pc + 1 + 1 } := by
  have hfirst : M.step s = some { s with
      flags := s.flags.result (s.get dst &&& s.value src) false false
      pc := s.pc + 1 } := by
    rw [step, htest]
    rfl
  refine .tail (.single hfirst) ?_
  rw [Option.mem_def, step, hjump]
  by_cases hz : s.get dst &&& s.value src = 0
  · rw [if_pos hz]
    exact congrArg some (if_pos (beq_iff_eq.mpr hz))
  · rw [if_neg hz]
    exact congrArg some (if_neg fun h => hz (beq_iff_eq.mp h))

end Machine

/-! ## Repeated stores -/

/-- `j` stores of `k` bytes of `v`, one after the other. -/
def fill (m : Memory) (a : Word) (k : ℕ) (v : Word) (j : ℕ) : Memory := fun x =>
  if (x - a).toNat < k * j then BitVec.ofNat 8 (v.toNat / 256 ^ ((x - a).toNat % k)) else m x

theorem store_eq_fill (m : Memory) (a : Word) (k : ℕ) (v : Word) :
    store m a k v = fill m a k v 1 := by
  funext x
  rw [store, fill, Nat.mul_one]
  split
  · next h => rw [Nat.mod_eq_of_lt h]
  · rfl

theorem fill_zero (m : Memory) (a : Word) (k : ℕ) (v : Word) : fill m a k v 0 = m :=
  funext fun _ => if_neg (by omega)

/-- Stores that go on where others ended. -/
theorem fill_add {k i j : ℕ} (h : k * (i + j) ≤ 2 ^ 32) (m : Memory) (a v : Word) :
    fill (fill m a k v i) (a + BitVec.ofNat 32 (k * i)) k v j = fill m a k v (i + j) := by
  funext x
  have hx := (x - a).isLt
  have hmul : k * (i + j) = k * i + k * j := Nat.mul_add ..
  have hoff : (x - (a + BitVec.ofNat 32 (k * i))).toNat =
      ((x - a).toNat + 2 ^ 32 - k * i % 2 ^ 32) % 2 ^ 32 := by
    have hsub : x - (a + BitVec.ofNat 32 (k * i)) = x - a - BitVec.ofNat 32 (k * i) := by
      rw [BitVec.sub_eq_add_neg, BitVec.neg_add, BitVec.sub_eq_add_neg, BitVec.sub_eq_add_neg,
        BitVec.sub_eq_add_neg, BitVec.add_assoc]
    rw [hsub, BitVec.toNat_sub, BitVec.toNat_ofNat]
    congr 1
    omega
  rw [fill, fill, fill, hoff]
  generalize (x - a).toNat = d at hx
  rcases Nat.lt_or_ge d (k * i) with hlow | hhigh
  · rw [if_neg (by omega), if_pos hlow, if_pos (by omega)]
  · have hd : (d + 2 ^ 32 - k * i % 2 ^ 32) % 2 ^ 32 = d - k * i := by omega
    rw [hd, if_neg (Nat.not_lt.mpr hhigh), Nat.sub_mul_mod hhigh]
    exact if_congr (by omega) rfl rfl

/-- **`rep stos`**, upwards. -/
theorem reaches_repStos {φ : Type} {M : Machine φ Memory} {k : ℕ} {s : State Memory}
    (hi : M.program[s.pc.toNat]? = some (.repStos k)) (hdf : s.flags.direction = false)
    (hfit : k * s.ecx.toNat ≤ 2 ^ 32) :
    StateTransition.Reaches M.step s { s with
      ecx := 0
      edi := s.edi + BitVec.ofNat 32 (k * s.ecx.toNat)
      mem := fill s.mem s.edi k s.eax s.ecx.toNat
      pc := s.pc + 1 } := by
  have hstep (s : State Memory) (hi : M.program[s.pc.toNat]? = some (.repStos k)) : M.step s =
      some (if s.ecx = 0 then s.next else { Machine.stos k s with ecx := s.ecx - 1 }) := by
    rw [Machine.step, hi]
    rfl
  generalize hq : s.ecx.toNat = q at hfit
  induction q generalizing s with
  | zero =>
    have hzero : s.ecx = 0 := BitVec.eq_of_toNat_eq hq
    rw [fill_zero, Nat.mul_zero, BitVec.add_zero, ← hzero]
    refine .single ?_
    rw [Option.mem_def, hstep s hi, if_pos hzero]
    rfl
  | succ q ih =>
    have hne : s.ecx ≠ 0 := fun h => by
      rw [h] at hq
      exact absurd hq (Nat.succ_ne_zero q).symm
    have hcount : (s.ecx - 1).toNat = q := by
      have := s.ecx.isLt
      rw [BitVec.toNat_sub, show (1 : Word).toNat = 1 from rfl]
      omega
    have hrest := ih (s := { Machine.stos k s with ecx := s.ecx - 1 }) hi hdf hcount
      (le_trans (Nat.mul_le_mul_left k (Nat.le_succ q)) hfit)
    have hedi : s.edi + (if s.flags.direction then -BitVec.ofNat 32 k else BitVec.ofNat 32 k) =
        s.edi + BitVec.ofNat 32 k := by
      rw [hdf]
      rfl
    have hmem : fill (store s.mem s.edi k s.eax) (s.edi + BitVec.ofNat 32 k) k s.eax q =
        fill s.mem s.edi k s.eax (q + 1) := by
      rw [store_eq_fill, Nat.add_comm q 1]
      have hadd := fill_add (k := k) (i := 1) (j := q) (by rwa [Nat.add_comm]) s.mem s.edi s.eax
      rwa [Nat.mul_one] at hadd
    have hend : s.edi + BitVec.ofNat 32 k + BitVec.ofNat 32 (k * q) =
        s.edi + BitVec.ofNat 32 (k * (q + 1)) := by
      rw [BitVec.add_assoc, ← BitVec.ofNat_add, Nat.mul_succ, Nat.add_comm k]
    refine .head (b := { Machine.stos k s with ecx := s.ecx - 1 }) ?_ ?_
    · rw [Option.mem_def, hstep s hi, if_neg hne]
    · simp only [Machine.stos, Bus.store_flat, hedi, hmem, hend] at hrest ⊢
      exact hrest

/-! ## Calls -/

/-- What a function of the C convention leaves of the state `s` at its entry, where the return
address is on top of the stack: the stack pointer past it, four registers and the segments. -/
structure Returns (s s' : State Memory) : Prop where
  esp : s'.esp = s.esp + 4
  ebx : s'.ebx = s.ebx
  esi : s'.esi = s.esi
  edi : s'.edi = s.edi
  ebp : s'.ebp = s.ebp
  cs : s'.cs = s.cs
  ss : s'.ss = s.ss
  ds : s'.ds = s.ds
  es : s'.es = s.es
  fs : s'.fs = s.fs

end Processor
