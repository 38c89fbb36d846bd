import HarambeOs.Vectors

/-!
# Pic — the interrupt controller, and the lines it serves

Two 8259A chips, the second on line 2 of the first, as the driver of `i8259.c` programs them.  A
chip takes its four initialisation words one after the other on two ports (`Chip.data`), and then
its mask; it holds back every line that is not above all the lines in service (`Chip.request`),
until the handler ends its interrupt by `send_eoi`.

What the two chips are for is sixteen lines, each enabled or not and requesting or not, of which the
first in order of priority is served (`Lines`).  **`lines_served`** says that they are no more than
that: from any state the chips are found in, over every run of device requests, calls of the driver
and interrupts, each request of an enabled line is delivered in its turn, at the vector of its own
handler.
-/

namespace HarambeOs

/-! ## The chips -/

/-- The word a chip takes next on its data port. -/
inductive Phase
  | ready
  | icw2
  | icw3
  | icw4
  deriving DecidableEq

/-- A chip, edge triggered and in fully nested mode: requests, mask, lines in service, and what the
initialisation words set. -/
structure Chip where
  irr : BitVec 8
  imr : BitVec 8
  isr : BitVec 8
  icw1 : BitVec 8
  base : BitVec 8
  /-- The third word: for a master the lines that have a slave, for a slave its line. -/
  cascade : BitVec 8
  autoEoi : Bool
  phase : Phase

namespace Chip

/-- A write to the command port: the first initialisation word, or a specific end of interrupt.  The
driver sends no other command. -/
def command (c : Chip) (v : BitVec 8) : Chip :=
  if v.getLsbD 4 then
    { c with irr := 0, imr := 0, isr := 0, icw1 := v, autoEoi := false, phase := .icw2 }
  else if v >>> 3 = 0b01100 then { c with isr := c.isr &&& ~~~BitVec.twoPow 8 (v.toNat % 8) }
  else c

/-- Whether a fourth word comes is bit 0 of the first; whether a third one does, bit 1. -/
def lastPhase (c : Chip) : Phase := if c.icw1.getLsbD 0 then .icw4 else .ready

/-- A write to the data port. -/
def data (c : Chip) (v : BitVec 8) : Chip :=
  match c.phase with
  | .ready => { c with imr := v }
  | .icw2 =>
    { c with base := v &&& 0xF8, phase := if c.icw1.getLsbD 1 then c.lastPhase else .icw3 }
  | .icw3 => { c with cascade := v, phase := c.lastPhase }
  | .icw4 => { c with autoEoi := v.getLsbD 1, phase := .ready }

/-- The line a chip asks service for: the first one that requests and is not masked, unless a line
at or above it is in service. -/
def request (c : Chip) (irr : BitVec 8) : Option ℕ :=
  (List.range 8).find? fun n => irr.getLsbD n && !c.imr.getLsbD n &&
    (List.range (n + 1)).all fun i => !c.isr.getLsbD i

/-- The processor takes the interrupt of a line. -/
def acknowledge (c : Chip) (n : ℕ) : Chip :=
  { c with
    irr := c.irr &&& ~~~BitVec.twoPow 8 n
    isr := if c.autoEoi then c.isr else c.isr ||| BitVec.twoPow 8 n }

end Chip

/-- The two chips. -/
structure Pic where
  master : Chip
  slave : Chip

/-- The command port of the master. -/
def master8259Port : BitVec 16 := 0x20

/-- The command port of the slave. -/
def slave8259Port : BitVec 16 := 0xA0

/-- The data port of the master. -/
def master8259Port2 : BitVec 16 := 0x21

/-- The data port of the slave. -/
def slave8259Port2 : BitVec 16 := 0xA1

namespace Pic

/-- A byte written to a port of the chips, or of another device. -/
def outb (v : BitVec 8) (port : BitVec 16) (p : Pic) : Pic :=
  if port = master8259Port then { p with master := p.master.command v }
  else if port = master8259Port2 then { p with master := p.master.data v }
  else if port = slave8259Port then { p with slave := p.slave.command v }
  else if port = slave8259Port2 then { p with slave := p.slave.data v }
  else p

/-- The data ports read the masks; the driver reads no other port. -/
def inb (port : BitVec 16) (p : Pic) : BitVec 32 :=
  if port = master8259Port2 then p.master.imr.setWidth 32
  else if port = slave8259Port2 then p.slave.imr.setWidth 32
  else 0

/-- The lines of the master that request: those of its devices, and line 2 while the slave does. -/
def masterIrr (p : Pic) : BitVec 8 :=
  p.master.irr ||| if (p.slave.request p.slave.irr).isSome then BitVec.twoPow 8 2 else 0

/-- The processor takes the interrupt of line `n` of the master: the vector it is given, and the
chips after it.  The slave names the vector if the line is the one it is wired to. -/
def take (p : Pic) (n : ℕ) : BitVec 8 × Pic :=
  let p' := { p with master := p.master.acknowledge n }
  match p.slave.request p.slave.irr with
  | some k =>
    if p.master.cascade.getLsbD n ∧ p.slave.cascade = BitVec.ofNat 8 n then
      (p.slave.base ||| BitVec.ofNat 8 k, { p' with slave := p.slave.acknowledge k })
    else (p.master.base ||| BitVec.ofNat 8 n, p')
  | none => (p.master.base ||| BitVec.ofNat 8 n, p')

/-- The processor asks for the interrupt, if there is one. -/
def acknowledge (p : Pic) : Option (BitVec 8 × Pic) := (p.master.request p.masterIrr).map p.take

/-! ## The driver -/

/-- The first word: edge triggered, with a cascade and a fourth word. -/
def icw1 : BitVec 8 := 0x11

/-- The second word: the vectors of the master begin here. -/
def icw2Master : BitVec 8 := 0x20

/-- The vectors of the slave. -/
def icw2Slave : BitVec 8 := 0x28

/-- The third word: the master has a slave on line 2. -/
def icw3Master : BitVec 8 := 0x04

/-- The slave is on line 2. -/
def icw3Slave : BitVec 8 := 0x02

/-- The fourth word: the handlers end their interrupts. -/
def icw4 : BitVec 8 := 0x01

def maskAll : BitVec 8 := 0xFF

/-- A specific end of interrupt, without its line. -/
def eoi : BitVec 32 := 0x60

/-- The line of the slave. -/
def eoiMask : BitVec 32 := 2

/-- The first line of the slave, which is that of the clock. -/
def rtcNumber : BitVec 32 := 8

def irqLimit : BitVec 32 := 15

/-- `io_wait`: a write to a port that nothing listens to. -/
def ioWait (p : Pic) : Pic := p.outb 0 0x80

/-- The chip of a line, by its data port, and the line's number on it. -/
def portOf (irq : BitVec 32) : BitVec 16 × BitVec 32 :=
  if irq < rtcNumber then (master8259Port2, irq) else (slave8259Port2, irq - rtcNumber)

/-- `enable_irq` and `disable_irq`: the mask of the chip, with the bit of the line put in by `f`. -/
def setMask (f : BitVec 32 → BitVec 32 → BitVec 32) (irq : BitVec 32) (p : Pic) : Pic :=
  if irq > irqLimit then p
  else
    let (port, irq) := portOf irq
    p.outb ((f (p.inb port) (1#32 <<< irq)).setWidth 8) port

/-- `enable_irq`: the bit of the line is cleared. -/
def enableIrq : BitVec 32 → Pic → Pic := setMask fun value bit => value &&& ~~~bit

/-- `disable_irq`: the bit of the line is set. -/
def disableIrq : BitVec 32 → Pic → Pic := setMask fun value bit => value ||| bit

/-- `send_eoi`: to the slave and to the line of the master it is on, or to the master alone. -/
def sendEoi (irq : BitVec 32) (p : Pic) : Pic :=
  if irq ≥ rtcNumber then
    (p.outb ((eoi ||| (irq - rtcNumber)).setWidth 8) slave8259Port).outb
      ((eoi ||| eoiMask).setWidth 8) master8259Port
  else p.outb ((eoi ||| irq).setWidth 8) master8259Port

/-- `i8259_init`: the four words for each chip, everything masked, and then the line of the slave
enabled. -/
def i8259Init (p : Pic) : Pic :=
  let p := (p.outb icw1 master8259Port).ioWait
  let p := (p.outb icw2Master master8259Port2).ioWait
  let p := (p.outb icw3Master master8259Port2).ioWait
  let p := (p.outb icw4 master8259Port2).ioWait
  let p := (p.outb icw1 slave8259Port).ioWait
  let p := (p.outb icw2Slave slave8259Port2).ioWait
  let p := (p.outb icw3Slave slave8259Port2).ioWait
  let p := (p.outb icw4 slave8259Port2).ioWait
  let p := (p.outb maskAll master8259Port2).outb maskAll slave8259Port2
  p.enableIrq eoiMask

def pitNum : BitVec 32 := 0
def keyboardNum : BitVec 32 := 1
def rtcNum : BitVec 32 := 8

/-- `PIT_init`.  The arguments of `outb` are the other way round, so the bytes of the divisor are
taken for ports and the timer is never programmed. -/
def pitInit (hz : BitVec 32) (p : Pic) : Pic :=
  let p := p.enableIrq pitNum
  let divisor : BitVec 32 := 119318 / hz
  let a := divisor &&& 0xFF
  let b := divisor >>> 8 &&& 0xFF
  ((p.outb 0x43 0x36).outb 0x40 (a.setWidth 16)).outb 0x40 (b.setWidth 16)

/-- What `entry` does to the chips. -/
def boot (p : Pic) : Pic :=
  ((p.i8259Init.enableIrq keyboardNum).enableIrq rtcNum).pitInit 65535

/-- How a handler ends its interrupt. -/
def finish : Option InterruptHandler → Pic → Pic
  | some .pitWrapper, p => p.sendEoi pitNum
  | some .keyboardWrapper, p => p.sendEoi keyboardNum
  | some .rtcWrapper, p => p.sendEoi rtcNum
  | _, p => p

/-- A device requests service on line `n`. -/
def raise (n : Fin 16) (p : Pic) : Pic :=
  if n.val < 8 then
    { p with master := { p.master with irr := p.master.irr ||| BitVec.twoPow 8 n.val } }
  else { p with slave := { p.slave with irr := p.slave.irr ||| BitVec.twoPow 8 (n.val - 8) } }

end Pic

/-- What happens between two interrupts, and an interrupt.  `rtc_write` ends an interrupt of the
clock also when there is none. -/
inductive LineEvent
  | raise (n : Fin 16)
  | enableIrq (irq : BitVec 32)
  | disableIrq (irq : BitVec 32)
  | rtcWrite
  | interrupt

/-- The chips, with the vectors delivered so far.  A handler ends its interrupt before it lets
another one in. -/
def Pic.step (s : Pic × List (BitVec 8)) : LineEvent → Pic × List (BitVec 8)
  | .raise n => (s.1.raise n, s.2)
  | .enableIrq irq => (s.1.enableIrq irq, s.2)
  | .disableIrq irq => (s.1.disableIrq irq, s.2)
  | .rtcWrite => (s.1.sendEoi Pic.rtcNum, s.2)
  | .interrupt =>
    match s.1.acknowledge with
    | none => s
    | some (v, p) => (p.finish (handlerOf v.toNat), s.2 ++ [v])

/-! ## Sixteen lines -/

/-- The lines that are enabled, and those that request. -/
structure Lines where
  enabled : Finset ℕ
  requested : Finset ℕ

namespace Lines

/-- A line that may be served. -/
def ready (l : Lines) (n : ℕ) : Bool := decide (n ∈ l.requested) && decide (n ∈ l.enabled)

/-- The first of the lines of the slave. -/
def behind (l : Lines) : Option ℕ := [8, 9, 10, 11, 12, 13, 14, 15].find? l.ready

/-- The next line to be served: the slave's lines stand in the place of line 2. -/
def next (l : Lines) : Option ℕ :=
  ([0, 1].find? l.ready).or
    ((if 2 ∈ l.enabled then l.behind else none).or ([3, 4, 5, 6, 7].find? l.ready))

/-- After the boot: the timer, the keyboard, the slave and the clock. -/
def boot : Lines := { enabled := {0, 1, 2, 8}, requested := ∅ }

/-- The lines, with those served so far. -/
def step (s : Lines × List ℕ) : LineEvent → Lines × List ℕ
  | .raise n => ({ s.1 with requested := insert n.val s.1.requested }, s.2)
  | .enableIrq irq => ({ s.1 with enabled := insert irq.toNat s.1.enabled }, s.2)
  | .disableIrq irq => ({ s.1 with enabled := s.1.enabled.erase irq.toNat }, s.2)
  | .rtcWrite => s
  | .interrupt =>
    match s.1.next with
    | none => s
    | some n => ({ s.1 with requested := s.1.requested.erase n }, s.2 ++ [n])

end Lines

/-- No device is on line 2, and the kernel enables the lines it has handlers for. -/
def LineEvent.Permitted : LineEvent → Prop
  | .raise n => n.val ≠ 2
  | .enableIrq irq => irq.toNat ∈ Lines.boot.enabled ∨ 15 < irq.toNat
  | _ => True

instance : DecidablePred LineEvent.Permitted
  | .raise n => inferInstanceAs (Decidable (n.val ≠ 2))
  | .enableIrq irq => inferInstanceAs (Decidable (irq.toNat ∈ Lines.boot.enabled ∨ 15 < irq.toNat))
  | .disableIrq _ | .rtcWrite | .interrupt => inferInstanceAs (Decidable True)

/-! ## The chips are the lines -/

/-- The lines from `first` on, as the bits of a chip. -/
def bits (s : Finset ℕ) (first : ℕ) : BitVec 8 :=
  BitVec.ofFnLE fun i : Fin 8 => decide (first + i ∈ s)

theorem getLsbD_bits (s : Finset ℕ) (first : ℕ) {i : ℕ} (hi : i < 8) :
    (bits s first).getLsbD i = decide (first + i ∈ s) := by
  rw [bits, BitVec.getLsbD_ofFnLE, dif_pos hi]

/-- A line that is added sets its bit. -/
theorem bits_insert {s : Finset ℕ} {first n : ℕ} (h : first ≤ n) :
    bits (insert n s) first = bits s first ||| BitVec.twoPow 8 (n - first) := by
  refine BitVec.eq_of_getLsbD_eq fun i hi => ?_
  rw [BitVec.getLsbD_or, getLsbD_bits _ _ hi, getLsbD_bits _ _ hi, BitVec.getLsbD_twoPow,
    ← Bool.decide_and, ← Bool.decide_or, decide_eq_decide, Finset.mem_insert]
  constructor
  · rintro (hn | hs)
    · exact .inr ⟨by omega, by omega⟩
    · exact .inl hs
  · rintro (hs | ⟨-, hn⟩)
    · exact .inr hs
    · exact .inl (by omega)

/-- A line that is taken away clears its bit. -/
theorem bits_erase {s : Finset ℕ} {first n : ℕ} (h : first ≤ n) :
    bits (s.erase n) first = bits s first &&& ~~~BitVec.twoPow 8 (n - first) := by
  refine BitVec.eq_of_getLsbD_eq fun i hi => ?_
  rw [BitVec.getLsbD_and, BitVec.getLsbD_not, getLsbD_bits _ _ hi, getLsbD_bits _ _ hi,
    BitVec.getLsbD_twoPow]
  by_cases hn : first + i = n
  · have : n - first = i := by omega
    simp [hn, this, hi]
  · have : n - first ≠ i := by omega
    simp [hn, this, hi]

/-- A line of the other chip. -/
theorem bits_insert_of_out {s : Finset ℕ} {first n : ℕ} (h : n < first ∨ first + 8 ≤ n) :
    bits (insert n s) first = bits s first := by
  refine BitVec.eq_of_getLsbD_eq fun i hi => ?_
  rw [getLsbD_bits _ _ hi, getLsbD_bits _ _ hi, decide_eq_decide, Finset.mem_insert]
  exact or_iff_right (by omega)

theorem bits_erase_of_out {s : Finset ℕ} {first n : ℕ} (h : n < first ∨ first + 8 ≤ n) :
    bits (s.erase n) first = bits s first := by
  refine BitVec.eq_of_getLsbD_eq fun i hi => ?_
  rw [getLsbD_bits _ _ hi, getLsbD_bits _ _ hi, decide_eq_decide, Finset.mem_erase]
  exact and_iff_right (by omega)

/-- A chip between two interrupts. -/
def Chip.idle (l : Lines) (first : ℕ) (base cascade : BitVec 8) : Chip where
  irr := bits l.requested first
  imr := ~~~bits l.enabled first
  isr := 0
  icw1 := Pic.icw1
  base := base
  cascade := cascade
  autoEoi := false
  phase := .ready

/-- The chips between two interrupts. -/
def Pic.idle (l : Lines) : Pic where
  master := .idle l 0 Pic.icw2Master Pic.icw3Master
  slave := .idle l 8 Pic.icw2Slave Pic.icw3Slave

/-- The four words and the mask, whatever the chip was doing. -/
theorem Chip.data_command (c : Chip) (base cascade : BitVec 8) :
    ((((c.command Pic.icw1).data base).data cascade).data Pic.icw4).data Pic.maskAll =
      { irr := 0, imr := Pic.maskAll, isr := 0, icw1 := Pic.icw1, base := base &&& 0xF8,
        cascade := cascade, autoEoi := false, phase := .ready } := by
  have hword : Pic.icw1.getLsbD 4 = true ∧ Pic.icw1.getLsbD 1 = false ∧
      Pic.icw1.getLsbD 0 = true ∧ Pic.icw4.getLsbD 1 = false := by decide
  simp only [command, data, lastPhase, hword, if_true, if_false, Bool.false_eq_true]

/-- A mask goes through a register. -/
theorem setWidth_and_shiftLeft (m : BitVec 8) (n : ℕ) :
    (m.setWidth 32 &&& ~~~(1#32 <<< n)).setWidth 8 = m &&& ~~~BitVec.twoPow 8 n := by
  refine BitVec.eq_of_getLsbD_eq fun i hi => ?_
  simp [hi, BitVec.twoPow]

theorem setWidth_or_shiftLeft (m : BitVec 8) (n : ℕ) :
    (m.setWidth 32 ||| 1#32 <<< n).setWidth 8 = m ||| BitVec.twoPow 8 n := by
  refine BitVec.eq_of_getLsbD_eq fun i hi => ?_
  simp [hi, BitVec.twoPow]

namespace Pic

variable (v : BitVec 8) (p : Pic) (l : Lines) (irq : BitVec 32)

/-- Each port is one of a chip's two. -/
@[simp] theorem outb_master :
    p.outb v master8259Port = { p with master := p.master.command v } := rfl

@[simp] theorem outb_master2 :
    p.outb v master8259Port2 = { p with master := p.master.data v } := rfl

@[simp] theorem outb_slave : p.outb v slave8259Port = { p with slave := p.slave.command v } := rfl

@[simp] theorem outb_slave2 : p.outb v slave8259Port2 = { p with slave := p.slave.data v } := rfl

/-- A port of another device. -/
theorem outb_of_notMem {port : BitVec 16}
    (h : port ∉ [master8259Port, master8259Port2, slave8259Port, slave8259Port2]) :
    p.outb v port = p := by
  simp only [List.mem_cons, List.not_mem_nil, or_false, not_or] at h
  simp only [outb, h, if_false]

@[simp] theorem ioWait_eq : p.ioWait = p := outb_of_notMem _ _ (by decide)

theorem portOf_master {irq : BitVec 32} (h : irq.toNat < 8) : portOf irq = (master8259Port2, irq) :=
  if_pos h

theorem portOf_slave {irq : BitVec 32} (h : 8 ≤ irq.toNat) :
    portOf irq = (slave8259Port2, irq - rtcNumber) := if_neg (Nat.not_lt.mpr h)

/-- A new mask is what a chip should hold if it is on the chip that has the line, and if the other
chip should hold what it held. -/
theorem setMask_idle {f : BitVec 32 → BitVec 32 → BitVec 32} {s : Finset ℕ}
    (hin : ∀ first, first ≤ irq.toNat → (f ((~~~bits l.enabled first).setWidth 32)
      (1#32 <<< (irq.toNat - first))).setWidth 8 = ~~~bits s first)
    (hout : ∀ first, irq.toNat < first ∨ first + 8 ≤ irq.toNat →
      bits s first = bits l.enabled first) :
    (idle l).setMask f irq = idle { l with enabled := s } := by
  unfold setMask
  split
  · next h =>
    have h : 15 < irq.toNat := h
    simp only [idle, Chip.idle, hout 0 (Or.inr (by omega)), hout 8 (Or.inr (by omega))]
  · next h =>
    have h : irq.toNat ≤ 15 := Nat.not_lt.mp h
    rcases Nat.lt_or_ge irq.toNat 8 with h8 | h8
    · rw [portOf_master h8]
      simp only [outb_master2, idle, Chip.idle, Chip.data, ← hin 0 (Nat.zero_le _),
        hout 8 (Or.inl h8)]
      rfl
    · have hsub : (irq - rtcNumber).toNat = irq.toNat - 8 := BitVec.toNat_sub_of_le h8
      rw [portOf_slave h8]
      simp only [outb_slave2, idle, Chip.idle, Chip.data, ← hin 8 h8, hout 0 (Or.inr h8),
        BitVec.shiftLeft_eq', hsub]
      rfl

/-- `enable_irq` enables the line, on whichever chip it is. -/
theorem enableIrq_idle :
    (idle l).enableIrq irq = idle { l with enabled := insert irq.toNat l.enabled } :=
  setMask_idle l irq
    (fun first h => by rw [setWidth_and_shiftLeft, bits_insert h, BitVec.not_or])
    fun first h => bits_insert_of_out h

/-- `disable_irq` disables it. -/
theorem disableIrq_idle :
    (idle l).disableIrq irq = idle { l with enabled := l.enabled.erase irq.toNat } :=
  setMask_idle l irq
    (fun first h => by rw [setWidth_or_shiftLeft, bits_erase h, BitVec.not_and, BitVec.not_not])
    fun first h => bits_erase_of_out h

/-- **The initialisation** forgets whatever the chips were doing. -/
theorem i8259Init_eq : p.i8259Init = idle { enabled := {2}, requested := ∅ } := by
  have hbits : bits ∅ 0 = 0 ∧ bits ∅ 8 = 0 := by decide
  have hmask : p.i8259Init = (idle { enabled := ∅, requested := ∅ }).enableIrq eoiMask := by
    simp only [i8259Init, outb_master, outb_master2, outb_slave, outb_slave2, ioWait_eq,
      Chip.data_command, idle, Chip.idle, hbits]
    rfl
  rw [hmask, enableIrq_idle]
  rfl

/-- No byte of the divisor is a port of the chips. -/
theorem pitInit_eq : p.pitInit 65535 = p.enableIrq pitNum := by
  unfold pitInit
  rw [outb_of_notMem _ _ (by decide), outb_of_notMem _ _ (by decide),
    outb_of_notMem _ _ (by decide)]

/-- **After the boot** the timer, the keyboard, the slave and the clock are enabled, whatever the
chips were doing. -/
theorem boot_eq : p.boot = idle .boot := by
  have hset : insert pitNum.toNat (insert rtcNum.toNat (insert keyboardNum.toNat {2})) =
      Lines.boot.enabled := by decide
  rw [boot, pitInit_eq, i8259Init_eq, enableIrq_idle, enableIrq_idle, enableIrq_idle, hset]
  rfl

/-- A request sets the bit of its line. -/
theorem raise_idle (n : Fin 16) :
    (idle l).raise n = idle { l with requested := insert n.val l.requested } := by
  unfold raise
  split
  · next h =>
    simp only [idle, Chip.idle, bits_insert (Nat.zero_le n.val), Nat.sub_zero,
      bits_insert_of_out (Or.inl h)]
  · next h =>
    simp only [idle, Chip.idle, bits_insert (Nat.not_lt.mp h),
      bits_insert_of_out (Or.inr (by omega : 0 + 8 ≤ n.val))]

end Pic

/-- With nothing in service, a chip asks for the first line that requests and is enabled. -/
theorem Chip.request_idle (l : Lines) (first : ℕ) (base cascade irr : BitVec 8) :
    (idle l first base cascade).request irr =
      (List.range 8).find? fun n => irr.getLsbD n && decide (first + n ∈ l.enabled) := by
  refine List.find?_congr fun n hn => ?_
  have hn : n < 8 := List.mem_range.mp hn
  have hmask : (!(idle l first base cascade).imr.getLsbD n) = decide (first + n ∈ l.enabled) := by
    rw [← getLsbD_bits _ _ hn, idle, BitVec.getLsbD_not, decide_eq_true hn, Bool.true_and,
      Bool.not_not]
  have hservice : ((List.range (n + 1)).all fun i =>
      !(idle l first base cascade).isr.getLsbD i) = true :=
    List.all_eq_true.mpr fun i _ => by simp [idle]
  rw [hmask, hservice, Bool.and_true]

namespace Pic

variable (l : Lines)

/-- The slave asks for the first of its lines. -/
theorem request_slave :
    (idle l).slave.request (idle l).slave.irr = l.behind.map (· - 8) := by
  have hlist : [8, 9, 10, 11, 12, 13, 14, 15] = (List.range 8).map (8 + ·) := rfl
  have hsub : (fun n : ℕ => n - 8) ∘ (8 + ·) = id := funext fun n => Nat.add_sub_cancel_left 8 n
  rw [Lines.behind, hlist, List.find?_map, Option.map_map, hsub, Option.map_id_fun, id_eq]
  refine (Chip.request_idle l 8 _ _ _).trans (List.find?_congr fun n hn => ?_)
  simp only [idle, Chip.idle, getLsbD_bits _ _ (List.mem_range.mp hn), Function.comp, Lines.ready]

/-- The master sees the slave on line 2. -/
theorem getLsbD_masterIrr (h : 2 ∉ l.requested) {n : ℕ} (hn : n < 8) :
    (idle l).masterIrr.getLsbD n =
      if n = 2 then l.behind.isSome else decide (n ∈ l.requested) := by
  have hwire : (if l.behind.isSome then BitVec.twoPow 8 2 else 0).getLsbD n =
      (decide (n = 2) && l.behind.isSome) := by
    cases l.behind.isSome <;> simp [BitVec.getLsbD_twoPow, eq_comm]
  rw [masterIrr, request_slave, Option.isSome_map, BitVec.getLsbD_or, hwire, idle, Chip.idle,
    getLsbD_bits _ _ hn, Nat.zero_add]
  by_cases h2 : n = 2
  · simp [h2, h]
  · simp [h2]

/-- The master asks for the first of its lines, with the slave in the place of line 2. -/
theorem request_master (h : 2 ∉ l.requested) : (idle l).master.request (idle l).masterIrr =
    ([0, 1].find? l.ready).or
      ((if 2 ∈ l.enabled then l.behind.map fun _ => 2 else none).or
        ([3, 4, 5, 6, 7].find? l.ready)) := by
  have hlist : List.range 8 = [0, 1] ++ ([2] ++ [3, 4, 5, 6, 7]) := rfl
  have hready (ns : List ℕ) (hns : ∀ n ∈ ns, n < 8 ∧ n ≠ 2) : ns.find? (fun n =>
      (idle l).masterIrr.getLsbD n && decide (0 + n ∈ l.enabled)) = ns.find? l.ready :=
    List.find?_congr fun n hn => by
      rw [getLsbD_masterIrr l h (hns n hn).1, if_neg (hns n hn).2, Nat.zero_add, Lines.ready]
  refine (Chip.request_idle l 0 _ _ _).trans ?_
  rw [hlist, List.find?_append, List.find?_append, hready [0, 1] (by decide),
    hready [3, 4, 5, 6, 7] (by decide), List.find?_singleton, getLsbD_masterIrr l h (by decide),
    if_pos rfl, Nat.zero_add]
  congr 2
  by_cases h2 : 2 ∈ l.enabled <;> cases l.behind <;> simp [h2]

/-- The chips when the processor has taken the interrupt of line `n`. -/
def taken (n : ℕ) : Pic :=
  if n < 8 then { idle l with master := (idle l).master.acknowledge n }
  else { master := (idle l).master.acknowledge 2, slave := (idle l).slave.acknowledge (n - 8) }

/-- The master names the vector of its own lines. -/
theorem take_master {n : ℕ} (hn : n ∈ [0, 1, 3, 4, 5, 6, 7]) :
    (idle l).take n = (BitVec.ofNat 8 (0x20 + n), taken l n) := by
  have hwire : ¬ ((idle l).master.cascade.getLsbD n ∧ (idle l).slave.cascade = BitVec.ofNat 8 n) :=
    (by decide : ∀ n ∈ [0, 1, 3, 4, 5, 6, 7], ¬ (icw3Master.getLsbD n ∧
      icw3Slave = BitVec.ofNat 8 n)) n hn
  have hvector : (idle l).master.base ||| BitVec.ofNat 8 n = BitVec.ofNat 8 (0x20 + n) :=
    (by decide : ∀ n ∈ [0, 1, 3, 4, 5, 6, 7], icw2Master ||| BitVec.ofNat 8 n =
      BitVec.ofNat 8 (0x20 + n)) n hn
  rw [take, hvector, taken, if_pos ((by decide : ∀ n ∈ [0, 1, 3, 4, 5, 6, 7], n < 8) n hn)]
  cases (idle l).slave.request (idle l).slave.irr with
  | none => rfl
  | some k => simp only [hwire, if_false]

/-- The slave names the vector of its lines. -/
theorem take_slave {n : ℕ} (hn : l.behind = some n) :
    (idle l).take 2 = (BitVec.ofNat 8 (0x20 + n), taken l n) := by
  have hmem : n ∈ [8, 9, 10, 11, 12, 13, 14, 15] := List.mem_of_find?_eq_some hn
  have hvector : (idle l).slave.base ||| BitVec.ofNat 8 (n - 8) = BitVec.ofNat 8 (0x20 + n) :=
    (by decide : ∀ n ∈ [8, 9, 10, 11, 12, 13, 14, 15], icw2Slave ||| BitVec.ofNat 8 (n - 8) =
      BitVec.ofNat 8 (0x20 + n)) n hmem
  have hwire : (idle l).master.cascade.getLsbD 2 ∧ (idle l).slave.cascade = BitVec.ofNat 8 2 :=
    (by decide : icw3Master.getLsbD 2 ∧ icw3Slave = BitVec.ofNat 8 2)
  rw [take, request_slave, hn]
  simp only [Option.map_some, hwire, and_self, if_true, hvector]
  rw [taken, if_neg ((by decide : ∀ n ∈ [8, 9, 10, 11, 12, 13, 14, 15], ¬ n < 8) n hmem)]

/-- The chips name the next line, at its vector. -/
theorem acknowledge_idle (h : 2 ∉ l.requested) :
    (idle l).acknowledge = l.next.map fun n => (BitVec.ofNat 8 (0x20 + n), taken l n) := by
  have hmaster (ns : List ℕ) (hns : ∀ n ∈ ns, n ∈ [0, 1, 3, 4, 5, 6, 7]) :
      (ns.find? l.ready).map (idle l).take =
        (ns.find? l.ready).map fun n => (BitVec.ofNat 8 (0x20 + n), taken l n) :=
    Option.map_congr fun n hn => take_master l (hns n (List.mem_of_find?_eq_some hn))
  have hslave : (l.behind.map fun _ => 2).map (idle l).take =
      l.behind.map fun n => (BitVec.ofNat 8 (0x20 + n), taken l n) := by
    rw [Option.map_map]
    exact Option.map_congr fun n hn => take_slave l hn
  rw [acknowledge, request_master l h, Lines.next, Option.map_or, Option.map_or, Option.map_or,
    Option.map_or, hmaster [0, 1] (by decide), hmaster [3, 4, 5, 6, 7] (by decide),
    apply_ite (Option.map (idle l).take), apply_ite (Option.map fun n => _), hslave]
  rfl

/-- A specific end of interrupt. -/
theorem command_eoi (c : Chip) {n : ℕ} (hn : n < 8) :
    c.command ((eoi ||| BitVec.ofNat 32 n).setWidth 8) =
      { c with isr := c.isr &&& ~~~BitVec.twoPow 8 n } := by
  interval_cases n <;> rfl

/-- An interrupt of a chip, from its delivery to its end. -/
theorem command_acknowledge {first n : ℕ} (hn : n < 8) (base cascade : BitVec 8) :
    ((Chip.idle l first base cascade).acknowledge n).command
        ((eoi ||| BitVec.ofNat 32 n).setWidth 8) =
      Chip.idle { l with requested := l.requested.erase (first + n) } first base cascade := by
  have hisr : (0 ||| BitVec.twoPow 8 n) &&& ~~~BitVec.twoPow 8 n = 0 := by simp
  simp only [command_eoi _ hn, Chip.acknowledge, Chip.idle, Bool.false_eq_true, if_false, hisr,
    bits_erase (Nat.le_add_right first n), Nat.add_sub_cancel_left]

/-- **An interrupt**, from its delivery to its end. -/
theorem sendEoi_taken (h : 2 ∉ l.requested) {n : ℕ} (hn : n < 16) :
    (taken l n).sendEoi (BitVec.ofNat 32 n) = idle { l with requested := l.requested.erase n } := by
  have hnat : (BitVec.ofNat 32 n).toNat = n := Nat.mod_eq_of_lt (by omega)
  rcases Nat.lt_or_ge n 8 with h8 | h8
  · have hlt : ¬ BitVec.ofNat 32 n ≥ rtcNumber := fun h => by
      have : 8 ≤ (BitVec.ofNat 32 n).toNat := h
      omega
    rw [taken, if_pos h8, sendEoi, if_neg hlt, outb_master]
    simp only [idle, command_acknowledge l h8, Nat.zero_add]
    simp only [Chip.idle, bits_erase_of_out (Or.inl h8 : n < 8 ∨ 8 + 8 ≤ n)]
  · have hge : BitVec.ofNat 32 n ≥ rtcNumber := show 8 ≤ (BitVec.ofNat 32 n).toNat by omega
    have hsub : BitVec.ofNat 32 n - rtcNumber = BitVec.ofNat 32 (n - 8) := by
      refine BitVec.eq_of_toNat_eq ?_
      rw [BitVec.toNat_sub_of_le hge, hnat, BitVec.toNat_ofNat, Nat.mod_eq_of_lt (by omega)]
      rfl
    -- Line 2 does not request, so the master is as it was.
    have hmaster : ((idle l).master.acknowledge 2).command ((eoi ||| eoiMask).setWidth 8) =
        (idle l).master :=
      (command_acknowledge l (by decide : 2 < 8) icw2Master icw3Master).trans
        (by rw [Nat.zero_add, Finset.erase_eq_of_notMem h]; rfl)
    rw [taken, if_neg (Nat.not_lt.mpr h8), sendEoi, if_pos hge, outb_slave, outb_master, hsub,
      hmaster]
    simp only [idle, command_acknowledge l (by omega : n - 8 < 8), Nat.add_sub_cancel' h8]
    simp only [Chip.idle, bits_erase_of_out (Or.inr h8 : n < 0 ∨ 0 + 8 ≤ n)]

/-- An end of interrupt when nothing is in service. -/
theorem sendEoi_idle : (idle l).sendEoi rtcNum = idle l := by
  have hcommand (first : ℕ) (base cascade : BitVec 8) {n : ℕ} (hn : n < 8) :
      (Chip.idle l first base cascade).command ((eoi ||| BitVec.ofNat 32 n).setWidth 8) =
        Chip.idle l first base cascade := by
    rw [command_eoi _ hn]
    simp [Chip.idle]
  exact congrArg₂ Pic.mk (hcommand 0 icw2Master icw3Master (by decide : 2 < 8))
    (hcommand 8 icw2Slave icw3Slave (by decide : 0 < 8))

end Pic

namespace Lines

/-- No device is on line 2, and only the lines with handlers are enabled. -/
structure Served (l : Lines) : Prop where
  wire : 2 ∉ l.requested
  enabled : ∀ n ∈ l.enabled, n ≤ 15 → n ∈ boot.enabled

/-- The line served next has a handler. -/
theorem Served.next {l : Lines} (h : l.Served) {n : ℕ} (hn : l.next = some n) :
    n = 0 ∨ n = 1 ∨ n = 8 := by
  have hready : l.ready n ∧ n ≤ 15 := by
    have hfind (ns : List ℕ) (hns : ∀ n ∈ ns, n ≤ 15) (hf : ns.find? l.ready = some n) :
        l.ready n ∧ n ≤ 15 := ⟨List.find?_some hf, hns n (List.mem_of_find?_eq_some hf)⟩
    rw [Lines.next, Option.or_eq_some_iff, Option.or_eq_some_iff] at hn
    obtain hn | ⟨-, hn | ⟨-, hn⟩⟩ := hn
    · exact hfind _ (by decide) hn
    · split at hn
      · exact hfind _ (by decide) hn
      · cases hn
    · exact hfind _ (by decide) hn
  obtain ⟨hreq, hen⟩ : n ∈ l.requested ∧ n ∈ l.enabled := by
    simpa [ready] using hready.1
  have hboot : n = 0 ∨ n = 1 ∨ n = 2 ∨ n = 8 := by
    simpa [boot] using h.enabled n hen hready.2
  have h2 : n ≠ 2 := fun h2 => h.wire (h2 ▸ hreq)
  omega

end Lines

/-- The vectors of a sequence of lines. -/
def vectors (served : List ℕ) : List (BitVec 8) := served.map fun n => BitVec.ofNat 8 (0x20 + n)

/-- One event of the chips is one of the lines. -/
theorem step_idle {l : Lines} (h : l.Served) (served : List ℕ) (e : LineEvent) (he : e.Permitted) :
    Pic.step (.idle l, vectors served) e =
        (.idle (Lines.step (l, served) e).1, vectors (Lines.step (l, served) e).2) ∧
      (Lines.step (l, served) e).1.Served ∧
      ∀ n ∈ (Lines.step (l, served) e).2, n ∈ served ∨ n = 0 ∨ n = 1 ∨ n = 8 := by
  cases e with
  | raise n =>
    refine ⟨Prod.ext (Pic.raise_idle l n) rfl, ⟨?_, h.enabled⟩, fun _ => .inl⟩
    rw [Lines.step, Finset.mem_insert, not_or]
    exact ⟨Ne.symm he, h.wire⟩
  | enableIrq irq =>
    refine ⟨Prod.ext (Pic.enableIrq_idle l irq) rfl, ⟨h.wire, fun n hn h15 => ?_⟩, fun _ => .inl⟩
    obtain rfl | hn := Finset.mem_insert.mp hn
    · exact he.resolve_right (by omega)
    · exact h.enabled n hn h15
  | disableIrq irq =>
    exact ⟨Prod.ext (Pic.disableIrq_idle l irq) rfl,
      ⟨h.wire, fun n hn => h.enabled n (Finset.mem_of_mem_erase hn)⟩, fun _ => .inl⟩
  | rtcWrite => exact ⟨Prod.ext (Pic.sendEoi_idle l) rfl, h, fun _ => .inl⟩
  | interrupt =>
    simp only [Pic.step, Lines.step, Pic.acknowledge_idle l h.wire]
    cases hnext : l.next with
    | none => exact ⟨rfl, h, fun _ => .inl⟩
    | some n =>
      have hn := h.next hnext
      have hfinish : (Pic.taken l n).finish (handlerOf (BitVec.ofNat 8 (0x20 + n)).toNat) =
          (Pic.taken l n).sendEoi (BitVec.ofNat 32 n) := by
        obtain rfl | rfl | rfl := hn <;> rfl
      refine ⟨?_, ⟨fun h2 => h.wire (Finset.mem_of_mem_erase h2), h.enabled⟩, fun m hm => ?_⟩
      · simp only [Option.map_some, hfinish, Pic.sendEoi_taken l h.wire (by omega : n < 16),
          vectors, List.map_append, List.map_cons, List.map_nil]
      · obtain hm | hm := List.mem_append.mp hm
        · exact .inl hm
        · exact .inr (List.mem_singleton.mp hm ▸ hn)

/-- **The controller.**  Whatever the chips were doing, after the boot and any run of requests,
calls of the driver and interrupts they are the sixteen lines, with nothing in service; and the
vectors delivered are those of the lines served, each with a handler of its own. -/
theorem lines_served (p : Pic) (es : List LineEvent) (h : ∀ e ∈ es, e.Permitted) :
    let s := es.foldl Lines.step (.boot, [])
    es.foldl Pic.step (p.boot, []) = (.idle s.1, vectors s.2) ∧
      ∀ v ∈ vectors s.2, handlerOf v.toNat = some .pitWrapper ∨
        handlerOf v.toNat = some .keyboardWrapper ∨ handlerOf v.toNat = some .rtcWrapper := by
  -- The lines served stay among those with handlers.
  have hrun : ∀ (es : List LineEvent) (l : Lines) (served : List ℕ), (∀ e ∈ es, e.Permitted) →
      l.Served → (∀ n ∈ served, n = 0 ∨ n = 1 ∨ n = 8) →
      es.foldl Pic.step (.idle l, vectors served) =
          (.idle (es.foldl Lines.step (l, served)).1, vectors (es.foldl Lines.step (l, served)).2) ∧
        ∀ n ∈ (es.foldl Lines.step (l, served)).2, n = 0 ∨ n = 1 ∨ n = 8 := by
    intro es
    induction es with
    | nil => exact fun l served _ _ hs => ⟨rfl, hs⟩
    | cons e es ih =>
      intro l served he hl hs
      obtain ⟨hstep, hl', hs'⟩ := step_idle hl served e (he e List.mem_cons_self)
      rw [List.foldl_cons, List.foldl_cons, hstep]
      exact ih _ _ (fun e' h' => he e' (List.mem_cons_of_mem e h')) hl' fun n hn =>
        (hs' n hn).elim (hs n) id
  obtain ⟨hpic, hlines⟩ := hrun es .boot [] h ⟨Finset.notMem_empty 2, fun _ hn _ => hn⟩ (by simp)
  refine ⟨by rw [p.boot_eq]; exact hpic, fun v hv => ?_⟩
  obtain ⟨n, hn, rfl⟩ := List.mem_map.mp hv
  obtain rfl | rfl | rfl := hlines n hn
  · exact .inl rfl
  · exact .inr (.inl rfl)
  · exact .inr (.inr rfl)

/-- A chip in the middle of its initialisation, with everything in service. -/
def strayChip : Chip := ⟨0x55, 0xAA, 0xFF, 0x13, 0x08, 0, true, .icw3⟩

/-- The keyboard comes before the clock; a line that was disabled waits. -/
def strayEvents : List LineEvent :=
  [.raise 8, .raise 1, .raise 5, .enableIrq 300, .interrupt, .rtcWrite, .interrupt, .raise 0,
   .disableIrq 1, .raise 1, .interrupt, .interrupt]

/-- Whatever the two chips were doing, the keyboard, the clock and the timer are served. -/
theorem lines_served_stray : (∀ e ∈ strayEvents, e.Permitted) ∧
    (strayEvents.foldl Pic.step (Pic.boot ⟨strayChip, strayChip⟩, [])).2 = [0x21, 0x28, 0x20] := by
  have hperm : ∀ e ∈ strayEvents, e.Permitted := by decide
  exact ⟨hperm, (congrArg Prod.snd (lines_served ⟨strayChip, strayChip⟩ strayEvents hperm).1).trans
    (by decide)⟩

end HarambeOs
