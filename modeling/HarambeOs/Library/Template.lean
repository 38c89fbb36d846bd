import HarambeOs.Library.Processor

/-!
# Library/Template — stack code while interrupts come and go

Between two instructions an interrupt may run on the same stack, so that of memory only the words at
the stack pointer and above are sure to stay (`Undisturbed`).  `Leads M own P s` says that the code
from `s` comes to a state of `P` *whatever* happens in between.

A **template** is what can be known of a state under these conditions: its registers, the items on
its stack and, while the kernel runs on its own stack, those on the stack of the program.
`Machine.follow` runs straight code on a template, and `Matches.follow` transports the run to the
processor; `Matches.trap`, `Matches.call` and `Matches.iret` do the steps between.
-/

namespace Processor

variable {m m' : Memory} {a b e : Word} {l : List Word} {own : Set Word} {r : ℕ}

/-! ## Stacks in memory -/

/-- A push leaves alone what lies above. -/
theorem store_below {v x : Word} (he : 4 ≤ e.toNat) (hx : e.toNat ≤ x.toNat) :
    store m (e - 4) 4 v x = m x := by
  refine store_of_le ?_
  rw [BitVec.toNat_sub, BitVec.toNat_sub, show (4 : Word).toNat = 4 from rfl]
  have := e.isLt
  have := x.isLt
  omega

theorem Holds.congr (h : Holds m e l) (hl : e.toNat + 4 * l.length < 2 ^ 32)
    (heq : ∀ x : Word, e.toNat ≤ x.toNat → x.toNat < e.toNat + 4 * l.length → m' x = m x) :
    Holds m' e l := by
  induction l generalizing e with
  | nil => trivial
  | cons v l ih =>
    rw [List.length_cons] at hl heq
    have hbyte (i : ℕ) (hi : i < 4) : m' (e + BitVec.ofNat 32 i) = m (e + BitVec.ofNat 32 i) := by
      have hnat : (e + BitVec.ofNat 32 i).toNat = e.toNat + i := by
        rw [BitVec.toNat_add, BitVec.toNat_ofNat]
        omega
      exact heq _ (by omega) (by omega)
    have hnext : (e + 4).toNat = e.toNat + 4 := by
      rw [BitVec.toNat_add, show (4 : Word).toNat = 4 from rfl]
      omega
    have h0 := hbyte 0 (by decide)
    rw [BitVec.add_zero] at h0
    refine ⟨?_, ih h.2 (by omega) fun x hx hx' => heq x (by omega) (by omega)⟩
    rw [← h.1, load, load, h0, show e + 1 = e + BitVec.ofNat 32 1 from rfl,
      show e + 2 = e + BitVec.ofNat 32 2 from rfl, show e + 3 = e + BitVec.ofNat 32 3 from rfl,
      hbyte 1 (by decide), hbyte 2 (by decide), hbyte 3 (by decide)]

theorem Holds.load_eq {i : ℕ} {v : Word} (h : Holds m e l) (hi : l[i]? = some v) :
    load m (e + BitVec.ofNat 32 (4 * i)) = v := by
  induction l generalizing e i with
  | nil => simp at hi
  | cons w l ih =>
    cases i with
    | zero =>
      rw [Nat.mul_zero, BitVec.add_zero, h.1]
      exact Option.some.inj hi
    | succ i =>
      have := ih h.2 hi
      rwa [BitVec.add_assoc, show (4 : Word) = BitVec.ofNat 32 4 from rfl, ← BitVec.ofNat_add,
        show 4 + 4 * i = 4 * (i + 1) by omega] at this

/-- The words `l` from `e` upward, with room for `r` more below, all in memory of one's own. -/
structure Lies (own : Set Word) (m : Memory) (e : Word) (l : List Word) (r : ℕ) : Prop where
  room : 4 * r ≤ e.toNat
  top : e.toNat + 4 * l.length < 2 ^ 32
  holds : Holds m e l
  own : ∀ x : Word, e.toNat ≤ x.toNat + 4 * r → x.toNat < e.toNat + 4 * l.length → x ∈ own

namespace Lies

theorem toNat_sub (h : 4 ≤ e.toNat) : (e - 4).toNat = e.toNat - 4 := by
  rw [BitVec.toNat_sub, show (4 : Word).toNat = 4 from rfl]
  have := e.isLt
  omega

theorem push (h : Lies own m e l (r + 1)) (v : Word) :
    Lies own (store m (e - 4) 4 v) (e - 4) (v :: l) r := by
  have hroom := h.room
  have htop := h.top
  have he := toNat_sub (e := e) (by omega)
  refine ⟨by omega, ?_, h.holds.push (by omega) v, fun x hx hx' => h.own x (by omega) ?_⟩
  · rw [List.length_cons]
    omega
  · rw [List.length_cons] at hx'
    omega

/-- What a push below leaves alone. -/
theorem above (h : Lies own m b l r) (he : 4 ≤ e.toNat) (hb : e.toNat ≤ b.toNat) (v : Word) :
    Lies own (store m (e - 4) 4 v) b l r :=
  ⟨h.room, h.top, h.holds.above he hb (by have := h.top; omega) v, h.own⟩

theorem drop {n : ℕ} (h : Lies own m e l r) (hn : n ≤ l.length) :
    Lies own m (e + BitVec.ofNat 32 (4 * n)) (l.drop n) (r + n) := by
  have hroom := h.room
  have htop := h.top
  have he : (e + BitVec.ofNat 32 (4 * n)).toNat = e.toNat + 4 * n := by
    rw [BitVec.toNat_add, BitVec.toNat_ofNat]
    omega
  have hsplit : Holds m e (l.take n ++ l.drop n) := by
    rw [List.take_append_drop]
    exact h.holds
  have hholds := hsplit.append_right
  rw [List.length_take, Nat.min_eq_left hn] at hholds
  refine ⟨by omega, ?_, hholds, fun x hx hx' => h.own x (by omega) ?_⟩
  · rw [List.length_drop]
    omega
  · rw [List.length_drop] at hx'
    omega

theorem congr (h : Lies own m e l r) (heq : ∀ x ∈ own, e.toNat ≤ x.toNat → m' x = m x) :
    Lies own m' e l r :=
  ⟨h.room, h.top, h.holds.congr h.top fun x hx hx' => heq x (h.own x (by omega) hx') hx, h.own⟩

end Lies

/-! ## What interrupts leave -/

/-- Memory `m` in place of that of `s`: of one's own, what lies at the stack pointer and above is
the same. -/
def Undisturbed (own : Set Word) (s : State Memory) (m : Memory) : Prop :=
  ∀ x ∈ own, s.esp.toNat ≤ x.toNat → m x = s.mem x

variable {φ : Type} {M : Machine φ Memory} {P Q : State Memory → Prop} {s s' : State Memory}

/-- **Whatever interrupts do in between**, the code from `s` comes to a state of `P`. -/
inductive Leads (M : Machine φ Memory) (own : Set Word) (P : State Memory → Prop) :
    State Memory → Prop
  | here {s : State Memory} (h : P s) : Leads M own P s
  | step {s s' : State Memory} (h : M.step s = some s')
      (next : ∀ m, Undisturbed own s' m → Leads M own P { s' with mem := m }) : Leads M own P s

theorem Leads.trans (h : Leads M own P s) (hQ : ∀ s', P s' → Leads M own Q s') :
    Leads M own Q s := by
  induction h with
  | here h => exact hQ _ h
  | step h _ ih => exact .step h ih

/-! ## Templates -/

/-- What can lie on a stack. -/
inductive Item
  | word (w : Word)
  | seg (b : BitVec 16)
  | flags (f : Flags)

def Item.encode : Item → Word
  | .word w => w
  | .seg b => b.setWidth 32
  | .flags f => f.word

/-- The stack of the program that was left for the kernel's. -/
structure Aside where
  esp : Word
  ss : BitVec 16
  items : List Item
  room : ℕ

/-- The registers, what is on the stack above the frame of the trap's last two words, the room left
below, and the stack that was left.  The memory of `cpu` plays no part. -/
structure Template where
  cpu : State Memory
  items : List Item
  room : ℕ
  aside : Option Aside

namespace Template

/-- Where the other stack was left, as a trap puts it on the stack. -/
def outer (t : Template) : List Word :=
  t.aside.elim [] fun a => [a.esp, a.ss.setWidth 32]

def words (t : Template) : List Word := t.items.map Item.encode ++ t.outer

def push (t : Template) (i : Item) : Option Template :=
  match t.room with
  | 0 => none
  | r + 1 => some { t with
    cpu := { t.cpu with esp := t.cpu.esp - 4 }
    items := i :: t.items
    room := r }

def pop (t : Template) : Option (Item × Template) :=
  match t.items with
  | [] => none
  | i :: l => some (i, { t with
    cpu := { t.cpu with esp := t.cpu.esp + 4 }
    items := l
    room := t.room + 1 })

theorem push_eq_some {t t' : Template} {i : Item} (h : t.push i = some t') :
    ∃ r, t.room = r + 1 ∧ t' = { t with
      cpu := { t.cpu with esp := t.cpu.esp - 4 }
      items := i :: t.items
      room := r } := by
  rw [push] at h
  split at h
  · cases h
  · exact ⟨_, ‹_›, (Option.some.inj h).symm⟩

theorem pop_eq_some {t t' : Template} {i : Item} (h : t.pop = some (i, t')) :
    ∃ l, t.items = i :: l ∧ t' = { t with
      cpu := { t.cpu with esp := t.cpu.esp + 4 }
      items := l
      room := t.room + 1 } := by
  rw [pop] at h
  split at h
  · cases h
  · obtain ⟨rfl, rfl⟩ := Prod.mk.inj (Option.some.inj h)
    exact ⟨_, ‹_›, rfl⟩

/-- A change of registers, and on to the next instruction. -/
def on (t : Template) (f : State Memory → State Memory) : Template :=
  { t with cpu := (f t.cpu).next }

end Template

namespace Machine

/-- Instructions that leave memory and the stack alone. -/
def plain : Instr φ → Bool
  | .movl _ dst | .movwFrom _ dst | .leal _ _ _ dst | .addl _ dst | .subl _ dst | .andl _ dst
  | .shrl _ dst | .decl dst => dst != .esp
  | .cmpl _ _ | .testl _ _ | .movwTo _ _ | .jump _ _ | .jmpTable _ _ | .cld | .std => true
  | _ => false

/-- One instruction on a template. -/
def advance (M : Machine φ Memory) (t : Template) : Instr φ → Option Template
  | .pushl r => (t.push (.word (t.cpu.get r))).map (·.on id)
  | .pushSeg r => (t.push (.seg (t.cpu.getSeg r))).map (·.on id)
  | .pushfl => (t.push (.flags t.cpu.flags)).map (·.on id)
  | .popl r =>
    if r = .esp then none
    else t.pop.map fun p => p.2.on (·.set p.1.encode r)
  | .popSeg r => t.pop.bind fun p =>
    match p.1 with
    | .seg b => some (p.2.on (·.setSeg b r))
    | _ => none
  | .popfl => t.pop.bind fun p =>
    match p.1 with
    | .flags f => some (p.2.on ({ · with flags := f }))
    | _ => none
  | .movlLoad disp .esp dst =>
    if dst = .esp ∨ disp.toNat % 4 ≠ 0 then none
    else t.items[disp.toNat / 4]?.map fun i => t.on (·.set i.encode dst)
  | .addl (.imm n) .esp =>
    if n.toNat % 4 ≠ 0 ∨ t.items.length < n.toNat / 4 then none
    else (M.exec t.cpu (.addl (.imm n) .esp)).map fun c => { t with
      cpu := c
      items := t.items.drop (n.toNat / 4)
      room := t.room + n.toNat / 4 }
  | .ret => t.pop.map fun p => { p.2 with cpu := { p.2.cpu with pc := p.1.encode } }
  | i => if plain i then (M.exec t.cpu i).map fun c => { t with cpu := c } else none

/-- Instructions that go on to the next. -/
def falls : Instr φ → Bool
  | .jump _ _ | .jmpTable _ _ | .ret => false
  | _ => true

/-- A stretch of code on a template. -/
def follow (M : Machine φ Memory) : List (Instr φ) → Template → Option Template
  | [], t => some t
  | i :: is, t => (M.advance t i).bind (M.follow is)

/-- A plain instruction does the same whatever the memory. -/
theorem exec_plain {i : Instr φ} (h : plain i = true) (c : State Memory) (m : Memory) :
    M.exec { c with mem := m } i = (M.exec c i).map ({ · with mem := m }) := by
  cases i with
  | jump cond label =>
    simp only [exec, Option.map_some]
    split <;> rfl
  | jmpTable table index =>
    simp only [exec, Option.map_map]
    cases index <;> rfl
  | movl src dst => cases src <;> cases dst <;> rfl
  | movwFrom src dst => cases src <;> cases dst <;> rfl
  | movwTo src dst => cases src <;> cases dst <;> rfl
  | leal disp base index dst => cases base <;> cases index <;> cases dst <;> rfl
  | addl src dst => cases dst <;> cases src <;> rfl
  | subl src dst => cases dst <;> rfl
  | andl src dst => cases dst <;> rfl
  | shrl count dst => cases dst <;> rfl
  | decl dst => cases dst <;> rfl
  | cmpl src dst => cases dst <;> rfl
  | testl src dst => cases dst <;> rfl
  | cld => rfl
  | std => rfl
  | _ => exact absurd h Bool.false_ne_true

/-- … and leaves the stack pointer and the code segment. -/
theorem exec_keeps {i : Instr φ} {c c' : State Memory} (h : plain i = true)
    (hx : M.exec c i = some c') :
    c'.esp = c.esp ∧ c'.cs = c.cs := by
  have hset (v : Word) {dst : Reg} (hd : (dst != .esp) = true) :
      (c.set v dst).esp = c.esp ∧ (c.set v dst).cs = c.cs := by
    cases dst with
    | esp => exact absurd hd Bool.false_ne_true
    | _ => exact ⟨rfl, rfl⟩
  cases i with
  | jump cond label =>
    obtain rfl := Option.some.inj hx
    split <;> exact ⟨rfl, rfl⟩
  | jmpTable table index =>
    obtain ⟨label, -, rfl⟩ := Option.map_eq_some_iff.mp hx
    exact ⟨rfl, rfl⟩
  | movwTo src dst =>
    obtain rfl := Option.some.inj hx
    cases dst <;> exact ⟨rfl, rfl⟩
  | movl _ dst | movwFrom _ dst | leal _ _ _ dst | addl _ dst | subl _ dst | andl _ dst
  | shrl _ dst | decl dst =>
    obtain rfl := Option.some.inj hx
    exact hset _ h
  | cmpl _ _ | testl _ _ | cld | std =>
    obtain rfl := Option.some.inj hx
    exact ⟨rfl, rfl⟩
  | _ => exact absurd h Bool.false_ne_true

/-- An instruction that goes on, on a template. -/
theorem advance_pc {i : Instr φ} {t t' : Template} (hf : falls i = true)
    (h : M.advance t i = some t') : t'.cpu.pc = t.cpu.pc + 1 := by
  have hset (c : State Memory) (v : Word) (r : Reg) : (c.set v r).pc = c.pc := by
    cases r <;> rfl
  have hseg (c : State Memory) (v : BitVec 16) (r : Seg) : (c.setSeg v r).pc = c.pc := by
    cases r <;> rfl
  have hpush {t₁ : Template} {j : Item} (hp : t.push j = some t₁) : t₁.cpu.pc = t.cpu.pc := by
    obtain ⟨_, -, rfl⟩ := Template.push_eq_some hp
    rfl
  have hpop {p : Item × Template} (hp : t.pop = some p) : p.2.cpu.pc = t.cpu.pc := by
    obtain ⟨_, -, h⟩ := Template.pop_eq_some hp
    rw [h]
  have hplain {c : State Memory} (hi : plain i = true) (hc : M.exec t.cpu i = some c) :
      c.pc = t.cpu.pc + 1 := by
    cases i with
    | movl _ dst | movwFrom _ dst | leal _ _ _ dst | addl _ dst | subl _ dst | andl _ dst
    | shrl _ dst | decl dst =>
      obtain rfl := Option.some.inj hc
      exact congrArg (· + 1) (hset _ _ _)
    | movwTo _ dst =>
      obtain rfl := Option.some.inj hc
      exact congrArg (· + 1) (hseg _ _ _)
    | cmpl _ _ | testl _ _ | cld | std =>
      obtain rfl := Option.some.inj hc
      rfl
    | jump _ _ | jmpTable _ _ => exact absurd hf Bool.false_ne_true
    | _ => exact absurd hi Bool.false_ne_true
  have hdefault (ha : (if plain i = true then (M.exec t.cpu i).map fun c => { t with cpu := c }
      else none) = some t') : t'.cpu.pc = t.cpu.pc + 1 := by
    obtain ⟨hi, ha⟩ := Option.ite_none_right_eq_some.mp ha
    obtain ⟨c, hc, rfl⟩ := Option.map_eq_some_iff.mp ha
    exact hplain hi hc
  cases i with
  | pushl r | pushSeg r | pushfl =>
    obtain ⟨t₁, hp, rfl⟩ := Option.map_eq_some_iff.mp h
    exact congrArg (· + 1) (hpush hp)
  | popl r =>
    obtain ⟨-, h⟩ := Option.ite_none_left_eq_some.mp h
    obtain ⟨p, hp, rfl⟩ := Option.map_eq_some_iff.mp h
    exact congrArg (· + 1) ((hset _ _ _).trans (hpop hp))
  | popSeg r =>
    obtain ⟨p, hp, h⟩ := Option.bind_eq_some_iff.mp h
    split at h
    · obtain rfl := Option.some.inj h
      exact congrArg (· + 1) ((hseg _ _ _).trans (hpop hp))
    · cases h
  | popfl =>
    obtain ⟨p, hp, h⟩ := Option.bind_eq_some_iff.mp h
    split at h
    · obtain rfl := Option.some.inj h
      exact congrArg (· + 1) (hpop hp)
    · cases h
  | movlLoad disp base dst =>
    cases base with
    | esp =>
      obtain ⟨-, h⟩ := Option.ite_none_left_eq_some.mp h
      obtain ⟨j, -, rfl⟩ := Option.map_eq_some_iff.mp h
      exact congrArg (· + 1) (hset _ _ _)
    | _ => exact hdefault h
  | addl src dst =>
    cases src with
    | reg r => exact hdefault h
    | imm n =>
      cases dst with
      | esp =>
        obtain ⟨-, h⟩ := Option.ite_none_left_eq_some.mp h
        obtain rfl := Option.some.inj h
        rfl
      | _ => exact hdefault h
  | ret => exact absurd hf Bool.false_ne_true
  | _ => exact hdefault h

end Machine

/-! ## Templates and states -/

/-- The stack of the kernel has room for `depth` words. -/
structure KernelStack (M : Machine φ Memory) (own : Set Word) (depth : ℕ) : Prop where
  room : 4 * depth ≤ M.esp0.toNat
  own : ∀ x : Word, M.esp0.toNat ≤ x.toNat + 4 * depth → x.toNat < M.esp0.toNat → x ∈ own

/-- Memory of one's own, with what it holds from `floor` on. -/
structure Ground where
  own : Set Word
  floor : ℕ
  base : Memory

/-- `s` is as the template says.  A program's stack lies above that of the kernel. -/
structure Matches (M : Machine φ Memory) (G : Ground) (t : Template) (s : State Memory) : Prop where
  cpu : s = { t.cpu with mem := s.mem }
  stack : Lies G.own s.mem t.cpu.esp t.words t.room
  program : t.aside = none → t.cpu.user = true → M.esp0.toNat + 4 * t.room ≤ t.cpu.esp.toNat
  aside : ∀ a, t.aside = some a → Lies G.own s.mem a.esp (a.items.map Item.encode) a.room ∧
    t.cpu.esp.toNat + 4 * t.words.length ≤ M.esp0.toNat ∧
    M.esp0.toNat + 4 * a.room ≤ a.esp.toNat ∧ a.esp.toNat + 4 * a.items.length ≤ G.floor
  ends : t.cpu.esp.toNat + 4 * t.words.length ≤ G.floor
  beyond : ∀ x ∈ G.own, G.floor ≤ x.toNat → s.mem x = G.base x

namespace Matches

variable {G : Ground} {t t' : Template}

theorem esp (h : Matches M G t s) : s.esp = t.cpu.esp := by
  rw [h.cpu]

/-- A template fits on, whatever interrupts do. -/
theorem disturb (h : Matches M G t s) {m : Memory} (hm : Undisturbed G.own s m) :
    Matches M G t { s with mem := m } := by
  rw [Undisturbed, h.esp] at hm
  have hends := h.ends
  refine ⟨?_, h.stack.congr hm, h.program, fun a ha => ?_, hends, fun x hx hle =>
    (hm x hx (by omega)).trans (h.beyond x hx hle)⟩
  · exact congrArg (fun c : State Memory => { c with mem := m }) h.cpu
  · obtain ⟨hlies, hend, hstart⟩ := h.aside a ha
    exact ⟨hlies.congr fun x hx hle => hm x hx (by omega), hend, hstart⟩

/-- Other registers. -/
theorem recast (h : Matches M G t s) {c : State Memory} (hesp : c.esp = t.cpu.esp)
    (hcs : t.aside = none → c.user = true → t.cpu.user = true) :
    Matches M G { t with cpu := c } { c with mem := s.mem } := by
  refine ⟨rfl, ?_, fun hnone huser => ?_, fun a ha => ?_, ?_, h.beyond⟩
  · rw [hesp]
    exact h.stack
  · rw [hesp]
    exact h.program hnone (hcs hnone huser)
  · rw [hesp]
    exact h.aside a ha
  · rw [hesp]
    exact h.ends

theorem on (h : Matches M G t s) {f : State Memory → State Memory}
    (hf : ∀ c m, f { c with mem := m } = { f c with mem := m })
    (hk : (f t.cpu).esp = t.cpu.esp ∧ (f t.cpu).cs = t.cpu.cs) :
    Matches M G (t.on f) (f s).next := by
  have hs : (f s).next = { (f t.cpu).next with mem := s.mem } := by
    conv_lhs => rw [h.cpu, hf]
    rfl
  rw [hs]
  exact h.recast hk.1 fun _ huser => by
    rwa [State.user, State.next, hk.2] at huser

theorem push {i : Item} (h : Matches M G t s) (hp : t.push i = some t') :
    Matches M G t' (s.push i.encode) := by
  obtain ⟨r, hr, rfl⟩ := Template.push_eq_some hp
  have hroom := h.stack.room
  have hsub : (t.cpu.esp - 4).toNat = t.cpu.esp.toNat - 4 := Lies.toNat_sub (by omega)
  have hmem : (s.push i.encode).mem = store s.mem (t.cpu.esp - 4) 4 i.encode := by
    rw [State.push, Bus.store_flat, h.esp]
  have hends := h.ends
  have hlength : (t.cpu.esp - 4).toNat + 4 * (t.words.length + 1) =
      t.cpu.esp.toNat + 4 * t.words.length := by
    omega
  refine ⟨?_, ?_, fun hnone huser => ?_, fun a ha => ?_, hlength.trans_le hends, fun x hx hle => ?_⟩
  · rw [h.cpu]
    rfl
  · have hstack := h.stack
    rw [hr] at hstack
    rw [hmem]
    exact hstack.push i.encode
  · have := h.program hnone huser
    simp only
    omega
  · obtain ⟨hlies, hend, hstart⟩ := h.aside a ha
    refine ⟨?_, ?_, hstart⟩
    · rw [hmem]
      exact hlies.above (by omega) (by omega) _
    · exact hlength.trans_le hend
  · rw [hmem, store_below (by omega) (by omega)]
    exact h.beyond x hx hle

/-- Items off the stack. -/
theorem drop {n : ℕ} (h : Matches M G t s) (hn : n ≤ t.items.length) :
    Matches M G { t with
      cpu := { t.cpu with esp := t.cpu.esp + BitVec.ofNat 32 (4 * n) }
      items := t.items.drop n
      room := t.room + n } { s with esp := s.esp + BitVec.ofNat 32 (4 * n) } := by
  have hwords : { t with items := t.items.drop n }.words = t.words.drop n := by
    rw [Template.words, Template.words, List.drop_append_of_le_length (by simpa using hn),
      List.map_drop]
    rfl
  have hlen : n ≤ t.words.length := by
    rw [Template.words, List.length_append, List.length_map]
    omega
  have hdrop := h.stack.drop hlen
  have htop := h.stack.top
  have hadd : (t.cpu.esp + BitVec.ofNat 32 (4 * n)).toNat = t.cpu.esp.toNat + 4 * n := by
    rw [BitVec.toNat_add, BitVec.toNat_ofNat]
    omega
  have hlength : (t.cpu.esp + BitVec.ofNat 32 (4 * n)).toNat +
      4 * { t with items := t.items.drop n }.words.length =
      t.cpu.esp.toNat + 4 * t.words.length := by
    rw [hwords, List.length_drop]
    omega
  refine ⟨?_, ?_, fun hnone huser => ?_, fun a ha => ?_, hlength.trans_le h.ends, h.beyond⟩
  · rw [h.cpu]
  · rw [← hwords] at hdrop
    exact hdrop
  · have := h.program hnone huser
    simp only
    omega
  · obtain ⟨hother, hend, hstart⟩ := h.aside a ha
    exact ⟨hother, hlength.trans_le hend, hstart⟩

theorem pop {i : Item} (h : Matches M G t s) (hp : t.pop = some (i, t')) :
    s.top = i.encode ∧ Matches M G t' s.pop := by
  obtain ⟨l, hl, rfl⟩ := Template.pop_eq_some hp
  have hdrop := h.drop (n := 1) (by simp [hl])
  rw [hl] at hdrop
  refine ⟨?_, hdrop⟩
  have hholds := h.stack.holds
  rw [Template.words, hl] at hholds
  rw [State.top, h.esp]
  exact hholds.1

/-- An item read where it is. -/
theorem load {k : ℕ} {i : Item} (h : Matches M G t s) (hi : t.items[k]? = some i) :
    load s.mem (s.esp + BitVec.ofNat 32 (4 * k)) = i.encode := by
  rw [h.esp]
  refine h.stack.holds.load_eq ?_
  have hk : k < t.items.length := (List.getElem?_eq_some_iff.mp hi).1
  rw [Template.words, List.getElem?_append_left (by simpa using hk), List.getElem?_map, hi]
  rfl

theorem plain {i : Instr φ} (h : Matches M G t s) (hi : Machine.plain i = true)
    (ha : (M.exec t.cpu i).map (fun c => { t with cpu := c }) = some t') :
    ∃ s', M.exec s i = some s' ∧ Matches M G t' s' := by
  obtain ⟨c, hc, rfl⟩ := Option.map_eq_some_iff.mp ha
  obtain ⟨hesp, hcs⟩ := Machine.exec_keeps hi hc
  refine ⟨{ c with mem := s.mem }, ?_, h.recast hesp fun _ huser => by
    rwa [State.user, hcs] at huser⟩
  rw [h.cpu, Machine.exec_plain hi, hc]
  rfl

/-- **One instruction.** -/
theorem advance {i : Instr φ} (h : Matches M G t s) (ha : M.advance t i = some t') :
    ∃ s', M.exec s i = some s' ∧ Matches M G t' s' := by
  have hset (v : Word) {r : Reg} (hr : r ≠ .esp) (t : Template) :
      (t.cpu.set v r).esp = t.cpu.esp ∧ (t.cpu.set v r).cs = t.cpu.cs := by
    cases r with
    | esp => exact absurd rfl hr
    | _ => exact ⟨rfl, rfl⟩
  have hdefault (ha : (if Machine.plain i = true
      then (M.exec t.cpu i).map fun c => { t with cpu := c }
      else none) = some t') : ∃ s', M.exec s i = some s' ∧ Matches M G t' s' := by
    split at ha
    · exact h.plain ‹_› ha
    · cases ha
  have hwhole (n : Word) (hn : n.toNat % 4 = 0) : BitVec.ofNat 32 (4 * (n.toNat / 4)) = n := by
    rw [show 4 * (n.toNat / 4) = n.toNat by omega]
    exact (BitVec.ofNat_toNat 32 n).trans (BitVec.setWidth_eq n)
  cases i with
  | pushl r =>
    obtain ⟨t₁, hp, rfl⟩ := Option.map_eq_some_iff.mp ha
    have hget : s.get r = t.cpu.get r := by
      rw [h.cpu]
      cases r <;> rfl
    refine ⟨_, rfl, ?_⟩
    rw [hget]
    exact (h.push hp).on (f := id) (fun _ _ => rfl) ⟨rfl, rfl⟩
  | pushSeg r =>
    obtain ⟨t₁, hp, rfl⟩ := Option.map_eq_some_iff.mp ha
    have hget : s.getSeg r = t.cpu.getSeg r := by
      rw [h.cpu]
      cases r <;> rfl
    refine ⟨_, rfl, ?_⟩
    rw [hget]
    exact (h.push hp).on (f := id) (fun _ _ => rfl) ⟨rfl, rfl⟩
  | pushfl =>
    obtain ⟨t₁, hp, rfl⟩ := Option.map_eq_some_iff.mp ha
    have hget : s.flags = t.cpu.flags := by
      rw [h.cpu]
    refine ⟨_, rfl, ?_⟩
    rw [hget]
    exact (h.push hp).on (f := id) (fun _ _ => rfl) ⟨rfl, rfl⟩
  | popl r =>
    rw [Machine.advance] at ha
    split at ha
    · cases ha
    obtain ⟨⟨j, t₁⟩, hp, rfl⟩ := Option.map_eq_some_iff.mp ha
    obtain ⟨htop, hfits⟩ := h.pop hp
    refine ⟨_, rfl, ?_⟩
    rw [htop]
    exact hfits.on (f := (·.set j.encode r)) (fun _ _ => by cases r <;> rfl) (hset _ ‹_› t₁)
  | popSeg r =>
    obtain ⟨⟨j, t₁⟩, hp, ha⟩ := Option.bind_eq_some_iff.mp ha
    obtain ⟨htop, hfits⟩ := h.pop hp
    refine ⟨_, rfl, ?_⟩
    cases j with
    | seg b =>
      obtain rfl := Option.some.inj ha
      have hback : s.top.setWidth 16 = b := by
        rw [htop, Item.encode]
        exact BitVec.setWidth_setWidth_of_le b (by decide) |>.trans (BitVec.setWidth_eq b)
      rw [hback]
      exact hfits.on (f := (·.setSeg b r)) (fun _ _ => by cases r <;> rfl)
        (by cases r <;> exact ⟨rfl, rfl⟩)
    | word w => cases ha
    | flags f => cases ha
  | popfl =>
    obtain ⟨⟨j, t₁⟩, hp, ha⟩ := Option.bind_eq_some_iff.mp ha
    obtain ⟨htop, hfits⟩ := h.pop hp
    refine ⟨_, rfl, ?_⟩
    cases j with
    | flags f =>
      obtain rfl := Option.some.inj ha
      rw [htop, Item.encode, Flags.ofWord_word]
      exact hfits.on (f := ({ · with flags := f })) (fun _ _ => rfl) ⟨rfl, rfl⟩
    | word w => cases ha
    | seg b => cases ha
  | ret =>
    obtain ⟨⟨j, t₁⟩, hp, rfl⟩ := Option.map_eq_some_iff.mp ha
    obtain ⟨htop, hfits⟩ := h.pop hp
    refine ⟨_, rfl, ?_⟩
    have hs : { s.pop with pc := s.top } =
        { { t₁.cpu with pc := j.encode } with mem := s.pop.mem } := by
      conv_lhs => rw [htop, hfits.cpu]
    rw [hs]
    exact hfits.recast rfl fun _ huser => huser
  | movlLoad disp base dst =>
    cases base with
    | esp =>
      rw [Machine.advance] at ha
      split at ha
      · cases ha
      next hd =>
      obtain ⟨hd, hmod⟩ := not_or.mp hd
      obtain ⟨j, hj, rfl⟩ := Option.map_eq_some_iff.mp ha
      have hload := h.load hj
      rw [hwhole disp (by omega)] at hload
      refine ⟨_, rfl, ?_⟩
      rw [State.get, Bus.load_flat, hload]
      exact h.on (f := (·.set j.encode dst)) (fun _ _ => by cases dst <;> rfl) (hset _ hd t)
    | _ => exact hdefault ha
  | addl src dst =>
    cases src with
    | reg r => exact hdefault ha
    | imm n =>
      cases dst with
      | esp =>
        rw [Machine.advance] at ha
        split at ha
        · cases ha
        next hn =>
        obtain ⟨hmod, hlen⟩ := not_or.mp hn
        obtain rfl := Option.some.inj ha
        have hdrop := h.drop (Nat.not_lt.mp hlen)
        rw [hwhole n (by omega)] at hdrop
        refine ⟨_, rfl, ?_⟩
        have hs := hdrop.recast (c := (t.cpu.result (t.cpu.esp + n)
          (decide (t.cpu.esp + n < n))
          (decide ((t.cpu.esp + n).toInt ≠ t.cpu.esp.toInt + n.toInt)) .esp).next) rfl
          fun _ huser => huser
        rw [h.cpu]
        exact hs
      | _ => exact hdefault ha
  | _ => exact hdefault ha

theorem leads (h : Matches M G t s') (hstep : M.step s = some s') :
    Leads M G.own (Matches M G t) s :=
  .step hstep fun _ hm => .here (h.disturb hm)

theorem pc (h : Matches M G t s) : s.pc = t.cpu.pc := by
  rw [h.cpu]

theorem leads_advance {i : Instr φ} (h : Matches M G t s)
    (hi : M.program[t.cpu.pc.toNat]? = some i) (ha : M.advance t i = some t') :
    Leads M G.own (Matches M G t') s := by
  obtain ⟨s', hexec, hfits⟩ := h.advance ha
  refine hfits.leads ?_
  rw [Machine.step, h.pc, hi]
  exact hexec

/-- **Straight code.** -/
theorem follow {is : List (Instr φ)} {n : ℕ} (h : Matches M G t s)
    (hpc : t.cpu.pc = BitVec.ofNat 32 n) (hcode : is <+: M.program.drop n)
    (hfalls : is.all Machine.falls = true) (hn : n + is.length ≤ 2 ^ 32)
    (hf : M.follow is t = some t') :
    Leads M G.own (Matches M G t') s := by
  induction is generalizing t s n with
  | nil =>
    rw [← Option.some.inj hf]
    exact .here h
  | cons i is ih =>
    obtain ⟨rest, hrest⟩ := hcode
    rw [List.length_cons] at hn
    obtain ⟨t₁, hadv, hf⟩ := Option.bind_eq_some_iff.mp hf
    rw [List.all_cons, Bool.and_eq_true] at hfalls
    have hi : M.program[t.cpu.pc.toNat]? = some i := by
      rw [hpc, BitVec.toNat_ofNat, Nat.mod_eq_of_lt (by omega), ← List.head?_drop, ← hrest]
      rfl
    refine (h.leads_advance hi hadv).trans fun s₁ h₁ =>
      ih (n := n + 1) h₁ ?_ ⟨rest, ?_⟩ hfalls.2 (by omega) hf
    · rw [Machine.advance_pc hfalls.1 hadv, hpc]
      exact (BitVec.ofNat_add n 1).symm
    · rw [← List.drop_drop, ← hrest]
      rfl

/-- A jump, by whether its condition holds. -/
theorem leads_jump {c : Cond} {label : ℕ} {b : Bool} (h : Matches M G t s)
    (hi : M.program[t.cpu.pc.toNat]? = some (.jump c label)) (hc : c.holds t.cpu.flags = b) :
    Leads M G.own (Matches M G { t with
      cpu := if b then { t.cpu with pc := BitVec.ofNat 32 label } else t.cpu.next }) s := by
  subst hc
  exact h.leads_advance hi rfl

end Matches

/-! ## Traps -/

namespace Template

/-- To the stack of the kernel, which has room for `depth` words. -/
def toKernel (M : Machine φ Memory) (depth : ℕ) (t : Template) : Option Template :=
  if t.cpu.user then
    if t.aside.isSome || depth < 2 then none
    else some {
      cpu := { t.cpu with esp := M.esp0 - 4 - 4, ss := M.ss0 }
      items := []
      room := depth - 2
      aside := some ⟨t.cpu.esp, t.cpu.ss, t.items, t.room⟩ }
  else some t

/-- Through a gate. -/
def trap (M : Machine φ Memory) (depth : ℕ) (g : Gate) (t : Template) : Option Template :=
  ((((t.toKernel M depth).bind (push · (.flags t.cpu.flags))).bind (push · (.seg t.cpu.cs))).bind
    (push · (.word t.cpu.pc))).map fun t' => { t' with
      cpu := { t'.cpu with
        cs := g.selector
        pc := g.entry
        flags := { t.cpu.flags with interrupt := t.cpu.flags.interrupt && g.trap } } }

/-- Back through the frame on the stack. -/
def iret (t : Template) : Option Template :=
  match t.items with
  | .word pc :: .seg cs :: .flags f :: l =>
    let back := { t.cpu with esp := t.cpu.esp + 4 + 4 + 4, pc := pc, cs := cs, flags := f }
    if back.user then
      match l, t.aside with
      | [], some a => some {
        cpu := { back with esp := a.esp, ss := a.ss }
        items := a.items
        room := a.room
        aside := none }
      | _, _ => none
    else some { t with cpu := back, items := l, room := t.room + 3 }
  | _ => none

end Template

namespace Matches

variable {G : Ground} {t t' : Template} {depth : ℕ} {g : Gate}

theorem toKernel (hk : KernelStack M G.own depth) (h : Matches M G t s)
    (ht : t.toKernel M depth = some t') : Matches M G t' (M.kernelStack s) := by
  have huser : s.user = t.cpu.user := by
    rw [h.cpu]
    rfl
  rw [Template.toKernel] at ht
  rw [Machine.kernelStack, huser]
  split at ht
  swap
  · next hu =>
    obtain rfl := Option.some.inj ht
    rw [if_neg hu]
    exact h
  next hu =>
  rw [if_pos hu]
  split at ht
  · cases ht
  next hcond =>
  obtain rfl := Option.some.inj ht
  obtain ⟨hsome, hdepth⟩ : t.aside = none ∧ 1 < depth := by simpa using hcond
  obtain ⟨r, rfl⟩ : ∃ r, depth = r + 2 := ⟨depth - 2, by omega⟩
  have hlt := M.esp0.isLt
  have hroom := hk.room
  have hprogram := h.program hsome hu
  have hsub : (M.esp0 - 4).toNat = M.esp0.toNat - 4 := Lies.toNat_sub (by omega)
  have hsub' : (M.esp0 - 4 - 4).toNat = M.esp0.toNat - 4 - 4 := by
    rw [Lies.toNat_sub (by omega), hsub]
  have hbase : Lies G.own s.mem M.esp0 [] (r + 2) :=
    ⟨hroom, hlt, trivial, hk.own⟩
  have hother : Lies G.own s.mem t.cpu.esp (t.items.map Item.encode) t.room := by
    have hstack := h.stack
    rwa [Template.words, Template.outer, hsome, Option.elim_none, List.append_nil] at hstack
  have hss : s.ss = t.cpu.ss := by
    rw [h.cpu]
  rw [hss, h.esp]
  have hends := h.ends
  rw [Template.words, Template.outer, hsome, Option.elim_none, List.append_nil, List.length_map]
    at hends
  have hlength : (M.esp0 - 4 - 4).toNat + 4 * 2 = M.esp0.toNat := by
    omega
  refine ⟨?_, ?_, fun hn => absurd hn (Option.some_ne_none _), fun a ha => ?_,
    hlength.trans_le (by omega), fun x hx hle => ?_⟩
  · rw [h.cpu]
    rfl
  · exact (hbase.push (t.cpu.ss.setWidth 32)).push t.cpu.esp
  · obtain rfl := Option.some.inj ha
    refine ⟨?_, hlength.le, hprogram, hends⟩
    · have hfirst := hother.above (e := M.esp0) (by omega) (by omega) (t.cpu.ss.setWidth 32)
      exact hfirst.above (e := M.esp0 - 4) (by omega) (by omega) t.cpu.esp
  · refine (store_below (e := M.esp0 - 4) (by omega) (by omega)).trans ?_
    exact (store_below (e := M.esp0) (by omega) (by omega)).trans (h.beyond x hx hle)

/-- **Into the kernel.** -/
theorem trap (hk : KernelStack M G.own depth) (h : Matches M G t s)
    (hg : g.selector.toNat % 4 = 0) (ht : t.trap M depth g = some t') :
    Matches M G t' (M.enter g s) := by
  obtain ⟨t₃, h₃, rfl⟩ := Option.map_eq_some_iff.mp ht
  obtain ⟨t₂, h₂, h₃⟩ := Option.bind_eq_some_iff.mp h₃
  obtain ⟨t₁, h₁, h₂⟩ := Option.bind_eq_some_iff.mp h₂
  obtain ⟨t₀, h₀, h₁⟩ := Option.bind_eq_some_iff.mp h₁
  have hfits := (((h.toKernel hk h₀).push h₁).push h₂).push h₃
  have hregs : s.flags = t.cpu.flags ∧ s.cs = t.cpu.cs ∧ s.pc = t.cpu.pc := by
    rw [h.cpu]
    exact ⟨rfl, rfl, rfl⟩
  rw [Machine.enter, hregs.1, hregs.2.1, hregs.2.2]
  change Matches M G t₃
    ((((M.kernelStack s).push t.cpu.flags.word).push (t.cpu.cs.setWidth 32)).push
    t.cpu.pc) at hfits
  generalize (((M.kernelStack s).push t.cpu.flags.word).push (t.cpu.cs.setWidth 32)).push
    t.cpu.pc = s₃ at hfits ⊢
  have hcast := hfits.recast (c := { t₃.cpu with
    cs := g.selector
    pc := g.entry
    flags := { t.cpu.flags with interrupt := t.cpu.flags.interrupt && g.trap } }) rfl
    fun _ huser => absurd huser (by simp [State.user, hg])
  have hs := hfits.cpu
  generalize s₃.mem = m at hs hcast
  subst hs
  exact hcast

/-- **Out of the kernel**, or out of an interrupt in it. -/
theorem iret (h : Matches M G t s) (ht : t.iret = some t') : Matches M G t' (Machine.iret s) := by
  rw [Template.iret] at ht
  split at ht
  swap
  · cases ht
  next pc cs f l hitems =>
  obtain ⟨hpc, h₁⟩ := h.pop (i := .word pc) (by rw [Template.pop, hitems])
  obtain ⟨hcs, h₂⟩ := h₁.pop (i := .seg cs) rfl
  obtain ⟨hflags, h₃⟩ := h₂.pop (i := .flags f) rfl
  have hback : (s.pop.top).setWidth 16 = cs := by
    rw [hcs, Item.encode]
    exact (BitVec.setWidth_setWidth_of_le cs (by decide)).trans (BitVec.setWidth_eq cs)
  rw [Machine.iret, hpc, hback, hflags, Item.encode, Item.encode, Flags.ofWord_word]
  by_cases huser : (cs.toNat % 4 != 0) = true
  · -- to the program, where its stack was left
    simp only [State.user, huser, if_true] at ht ⊢
    split at ht
    swap
    · cases ht
    next a haside =>
    obtain rfl := Option.some.inj ht
    have hwords := h₃.stack.holds
    rw [Template.words, Template.outer, haside] at hwords
    have hesp : s.pop.pop.pop.top = a.esp := by
      rw [State.top, h₃.esp]
      exact hwords.1
    have hss : s.pop.pop.pop.pop.top = a.ss.setWidth 32 := by
      rw [State.top, State.pop, h₃.esp]
      exact hwords.2.1
    obtain ⟨hlies, -, hstart, hends⟩ := h.aside a haside
    rw [hesp, hss, BitVec.setWidth_setWidth_of_le a.ss (by decide), BitVec.setWidth_eq]
    have hwords' (c : State Memory) : Template.words ⟨c, a.items, a.room, none⟩ =
        a.items.map Item.encode := List.append_nil _
    refine ⟨?_, ?_, fun _ _ => hstart, fun b hb => absurd hb (by simp), ?_, h.beyond⟩
    · rw [h.cpu]
      rfl
    · exact (hwords' _).symm ▸ hlies
    · have hlength (c : State Memory) := congrArg List.length (hwords' c)
      simp only [List.length_map] at hlength
      exact (congrArg (a.esp.toNat + 4 * ·) (hlength _)).trans_le hends
  · simp only [State.user, huser] at ht ⊢
    obtain rfl := Option.some.inj ht
    have hcast := h₃.recast (c := { t.cpu with
      esp := t.cpu.esp + 4 + 4 + 4, pc := pc, cs := cs, flags := f }) rfl
      fun _ hu => absurd hu huser
    have hs : { s.pop.pop.pop with pc := pc, cs := cs, flags := f } =
        { { t.cpu with esp := t.cpu.esp + 4 + 4 + 4, pc := pc, cs := cs, flags := f } with
          mem := s.mem } := by
      conv_lhs => rw [h.cpu]
      rfl
    rw [hs]
    exact hcast

end Matches

/-! ## Calls -/

/-- A call that returns and leaves of one's own memory what lies above its return address and its
`args` arguments. -/
structure Completes (own : Set Word) (args : ℕ) (s s' : State Memory) : Prop
    extends Returns s s' where
  mem : ∀ x ∈ own, s.esp.toNat + 4 * (args + 1) ≤ x.toNat → s'.mem x = s.mem x

theorem Holds.exists_words (m : Memory) (e : Word) (n : ℕ) : ∃ l, l.length = n ∧ Holds m e l := by
  induction n generalizing e with
  | zero => exact ⟨[], rfl, trivial⟩
  | succ n ih =>
    obtain ⟨l, hl, hholds⟩ := ih (e + 4)
    exact ⟨load m e :: l, congrArg (· + 1) hl, rfl, hholds⟩

theorem Holds.append {l' : List Word} (h : Holds m e l)
    (h' : Holds m (e + BitVec.ofNat 32 (4 * l.length)) l') : Holds m e (l ++ l') := by
  induction l generalizing e with
  | nil => simpa using h'
  | cons v l ih =>
    refine ⟨h.1, ih h.2 ?_⟩
    rw [BitVec.add_assoc, show (4 : Word) = BitVec.ofNat 32 4 from rfl, ← BitVec.ofNat_add,
      show 4 + 4 * l.length = 4 * (v :: l).length by rw [List.length_cons]; omega]
    exact h'

namespace Matches

variable {G : Ground} {t : Template} {args : ℕ} {f : φ}

/-- **A call.**  The registers the callee need not keep are what it made of them, and so are its
arguments; the rest is as before. -/
theorem call (h : Matches M G t s) (hi : M.program[t.cpu.pc.toNat]? = some (.call f))
    (hroom : 1 ≤ t.room) (hargs : args ≤ t.items.length)
    (hc : Completes G.own args (s.push (s.pc + 1)) (M.callee f (s.push (s.pc + 1)))) :
    Leads M G.own (fun s' => ∃ ws : List Item, ws.length = args ∧ Matches M G { t with
      cpu := { t.cpu with
        eax := (M.callee f (s.push (s.pc + 1))).eax
        ecx := (M.callee f (s.push (s.pc + 1))).ecx
        edx := (M.callee f (s.push (s.pc + 1))).edx
        flags := (M.callee f (s.push (s.pc + 1))).flags
        pc := t.cpu.pc + 1 }
      items := ws ++ t.items.drop args } s') s := by
  have hstep : M.step s = some { M.callee f (s.push (s.pc + 1)) with pc := s.pc + 1 } := by
    rw [Machine.step, h.pc, hi]
    exact congrArg some (by rw [h.pc])
  generalize M.callee f (s.push (s.pc + 1)) = c at hc hstep
  have hlies := h.stack
  have htop := hlies.top
  have hbelow : (t.cpu.esp - 4).toNat = t.cpu.esp.toNat - 4 := by
    have := hlies.room
    exact Lies.toNat_sub (by omega)
  have hkeep (x : Word) (hx : x ∈ G.own) (hle : t.cpu.esp.toNat + 4 * args ≤ x.toNat) :
      c.mem x = s.mem x := by
    have hroom' := hlies.room
    rw [hc.mem x hx (by rw [State.push, h.esp]; simp only; omega), State.push, h.esp]
    exact store_below (by omega) (by omega)
  obtain ⟨l, hl, hwords⟩ := Holds.exists_words c.mem t.cpu.esp args
  have hlen : args ≤ t.words.length := by
    rw [Template.words, List.length_append, List.length_map]
    omega
  have hitems : (l.map Item.word ++ t.items.drop args).map Item.encode ++ t.outer =
      l ++ t.words.drop args := by
    rw [List.map_append, List.map_map, Template.words,
      List.drop_append_of_le_length (by simpa using hargs), List.map_drop, List.append_assoc,
      show Item.encode ∘ Item.word = id from rfl, List.map_id]
  have hlength : (l ++ t.words.drop args).length = t.words.length := by
    rw [List.length_append, List.length_drop, hl]
    omega
  have hstack : Lies G.own c.mem t.cpu.esp (l ++ t.words.drop args) t.room := by
    have hadd : (t.cpu.esp + BitVec.ofNat 32 (4 * args)).toNat = t.cpu.esp.toNat + 4 * args := by
      rw [BitVec.toNat_add, BitVec.toNat_ofNat]
      omega
    have hrest := (hlies.drop hlen).congr fun x hx hle => hkeep x hx (by omega)
    refine ⟨hlies.room, by rwa [hlength], hwords.append (by rw [hl]; exact hrest.holds), ?_⟩
    rw [hlength]
    exact hlies.own
  refine .step hstep fun m hm => .here ⟨l.map Item.word, by rw [List.length_map, hl], ?_⟩
  refine disturb (s := { c with pc := s.pc + 1 }) ?_ hm
  have hsame : (Template.words { t with
      items := l.map Item.word ++ t.items.drop args }).length = t.words.length :=
    (congrArg List.length hitems).trans hlength
  refine ⟨?_, ?_, fun hnone huser => h.program hnone huser, fun a ha => ?_,
    (congrArg (t.cpu.esp.toNat + 4 * ·) hsame).trans_le h.ends, fun x hx hle =>
    (hkeep x hx (by have := h.ends; omega)).trans (h.beyond x hx hle)⟩
  · obtain ⟨m₀, rfl⟩ : ∃ m₀, s = { t.cpu with mem := m₀ } := ⟨_, h.cpu⟩
    exact State.ext rfl rfl rfl hc.ebx (hc.esp.trans (BitVec.sub_add_cancel _ _)) hc.ebp hc.esi
      hc.edi hc.cs hc.ss hc.ds hc.es hc.fs rfl rfl rfl
  · rw [Template.words]
    exact hitems ▸ hstack
  · obtain ⟨hother, hend, hstart⟩ := h.aside a ha
    exact ⟨hother.congr fun x hx hle => hkeep x hx (by omega),
      (congrArg (t.cpu.esp.toNat + 4 * ·) hsame).trans_le hend, hstart⟩

variable {t' : Template} {depth : ℕ}

theorem leads_iret (h : Matches M G t s) (hi : M.program[t.cpu.pc.toNat]? = some .iret)
    (ht : t.iret = some t') : Leads M G.own (Matches M G t') s := by
  refine (h.iret ht).leads ?_
  rw [Machine.step, h.pc, hi]
  rfl

end Matches

end Processor
