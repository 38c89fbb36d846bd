import HarambeOs.Vectors
import HarambeOs.Library.Template

/-!
# Linkage — the assembly between a program and the kernel

`ece391syscall.S` is linked with the programs, `iret_test.S` with the kernel, and `init_idt` joins
them. The code is one list of instructions, an address of code an index into it; the C functions
are parameters, which return and keep the registers of the convention (`Completes`).

* **`systemCall_returns`** — a call of the library's comes back with the value of the C function of
  its name, which had the three arguments, and with everything else as the convention has it.
* **`unknownCall_refused`** — any other number comes back with -1.
* **`interrupt_undisturbed`** — an interrupt is not noticed by what it interrupts.

The first two hold with interrupts at any point; the third says that interrupts are of that kind.
-/

namespace HarambeOs

open Processor

/-! ## The code -/

/-- The C functions the assembly calls. -/
inductive CFunction
  | pitHandler
  | keyboard
  | rtcHandler
  | cHalt
  | cExecute
  | cRead
  | cWrite
  | cOpen
  | cClose
  | cGetargs
  | cVidmap
  | cSethandler
  | cSigreturn
  deriving DecidableEq

/-- The numbers of `ece391sysnum.h`, from `SYS_HALT`, which is 1, to `SYS_SIGRETURN`. -/
inductive SystemCall
  | sysHalt
  | sysExecute
  | sysRead
  | sysWrite
  | sysOpen
  | sysClose
  | sysGetargs
  | sysVidmap
  | sysSetHandler
  | sysSigreturn
  deriving DecidableEq

namespace SystemCall

def number : SystemCall → Nat
  | sysHalt => 1
  | sysExecute => 2
  | sysRead => 3
  | sysWrite => 4
  | sysOpen => 5
  | sysClose => 6
  | sysGetargs => 7
  | sysVidmap => 8
  | sysSetHandler => 9
  | sysSigreturn => 10

def function : SystemCall → CFunction
  | sysHalt => .cHalt
  | sysExecute => .cExecute
  | sysRead => .cRead
  | sysWrite => .cWrite
  | sysOpen => .cOpen
  | sysClose => .cClose
  | sysGetargs => .cGetargs
  | sysVidmap => .cVidmap
  | sysSetHandler => .cSethandler
  | sysSigreturn => .cSigreturn

end SystemCall

/-- `PIT_wrapper`, `keyboard_wrapper` and `rtc_wrapper`. -/
def interruptWrapper (f : CFunction) : List (Instr CFunction) :=
  [.pushl .eax, .pushl .edx, .pushl .ecx,
   .pushfl, .call f, .popfl,
   .popl .ecx, .popl .edx, .popl .eax, .iret]

/-- The labels `error` and `no_error`, and where the code of the calls starts. -/
def errorLabel : Nat := 46
def noErrorLabel : Nat := 47
def callLabel (n : Nat) : Nat := 57 + 6 * n

/-- `jump_table`. -/
def jumpTable : List Nat := (List.range 10).map callLabel

/-- `system_wrapper`, at 30. -/
def systemWrapper : List (Instr CFunction) :=
  [.pushSeg .fs, .pushSeg .es, .pushSeg .ds,
   .pushl .ebp, .pushl .edi, .pushl .esi, .pushl .edx, .pushl .ecx, .pushl .ebx,
   .decl .eax, .cmpl (.imm 9) .eax, .jump .g errorLabel, .cmpl (.imm 0) .eax,
   .jump .l errorLabel,
   .jmpTable jumpTable .eax, .jump .always noErrorLabel,
   -- error
   .movl (.imm (-1)) .eax,
   -- no_error
   .popl .ebx, .popl .ecx, .popl .edx, .popl .esi, .popl .edi, .popl .ebp,
   .popSeg .ds, .popSeg .es, .popSeg .fs, .iret]

/-- `halt`, `execute` and the others: the three arguments, the C function, and back. -/
def callBlock (f : CFunction) : List (Instr CFunction) :=
  [.pushl .edx, .pushl .ecx, .pushl .ebx, .call f, .addl (.imm 12) .esp,
   .jump .always noErrorLabel]

/-- `DO_CALL` of the library the programs are linked with. -/
def doCall (number : Nat) : List (Instr CFunction) :=
  [.pushl .ebx, .movl (.imm (BitVec.ofNat 32 number)) .eax,
   .movlLoad 8 .esp .ebx, .movlLoad 12 .esp .ecx, .movlLoad 16 .esp .edx,
   .int 0x80, .popl .ebx, .ret]

def systemCalls : List SystemCall :=
  [.sysHalt, .sysExecute, .sysRead, .sysWrite, .sysOpen, .sysClose, .sysGetargs, .sysVidmap,
   .sysSetHandler, .sysSigreturn]

/-- All of it; the wrappers are at 0, 10, 20 and 30. -/
def linkage : List (Instr CFunction) :=
  interruptWrapper .pitHandler ++ interruptWrapper .keyboard ++ interruptWrapper .rtcHandler ++
    systemWrapper ++ systemCalls.flatMap (fun c => callBlock c.function) ++
    systemCalls.flatMap (fun c => doCall c.number)

/-- The label of a call of the library. -/
def SystemCall.label (c : SystemCall) : Word := BitVec.ofNat 32 (109 + 8 * c.number)

/-- Where the code of a vector is; what is not in `linkage` is somewhere else. -/
def address (others : InterruptHandler → Word) : InterruptHandler → Word
  | .pitWrapper => 0
  | .keyboardWrapper => 10
  | .rtcWrapper => 20
  | .systemWrapper => 30
  | h => others h

/-- What the assembly is linked with: the C functions, the code of the other vectors, the table
before `init_idt`, and the stack the task state segment names. -/
structure Setting where
  callee : CFunction → State Memory → State Memory
  others : InterruptHandler → Word
  idt : Nat → IdtDesc
  esp0 : Word
  ss0 : BitVec 16

/-- The processor, with the table of `init_idt`. -/
def linked (E : Setting) : Machine CFunction Memory where
  program := linkage
  callee := E.callee
  gates v := gateOf (initIdt (address E.others) E.idt v.toNat).val
  esp0 := E.esp0
  ss0 := E.ss0

def systemGate : Gate := ⟨30, kernelCs, 3, true⟩

theorem gates_system (E : Setting) : (linked E).gates 0x80 = some systemGate :=
  initIdt_gates (address E.others) E.idt 0x80 (by decide)

/-! ## The system calls -/

variable {E : Setting} {G : Ground} {s : State Memory}

/-- What `system_wrapper` saves, from the top of the stack. -/
def saved (cpu : State Memory) : List Item :=
  [.word cpu.ebx, .word cpu.ecx, .word cpu.edx, .word cpu.esi, .word cpu.edi, .word cpu.ebp,
   .seg cpu.ds, .seg cpu.es, .seg cpu.fs]

/-- The entry, up to the first comparison. -/
theorem follow_save (cpu : State Memory) (l : List Item) (r : Nat) (a : Option Aside) :
    ∃ e f, (linked E).follow (systemWrapper.take 11) ⟨{ cpu with pc := 30 }, l, r + 9, a⟩ =
      some ⟨{ cpu with
        eax := cpu.eax - 1
        esp := e
        flags := Flags.difference f (cpu.eax - 1) 9
        pc := 41 }, saved cpu ++ l, r, a⟩ := by
  simp only [systemWrapper, List.take_succ_cons, List.take_zero, Machine.follow, Machine.advance,
    Machine.plain, Machine.exec, Template.push, Template.on, State.get, State.getSeg, State.set,
    State.next, State.value, Option.map_some, Option.bind_some, id, bne_iff_ne, ne_eq, reduceCtorEq,
    not_false_eq_true, if_true]
  exact ⟨_, _, rfl⟩

/-- The exit, up to the `iret`. -/
theorem follow_restore (cpu old : State Memory) (l : List Item) (r : Nat) (a : Option Aside) :
    ∃ e, (linked E).follow ((systemWrapper.drop 17).take 9)
      ⟨{ cpu with pc := 47 }, saved old ++ l, r, a⟩ =
      some ⟨{ cpu with
        ebx := old.ebx
        ecx := old.ecx
        edx := old.edx
        esi := old.esi
        edi := old.edi
        ebp := old.ebp
        ds := old.ds
        es := old.es
        fs := old.fs
        esp := e
        pc := 56 }, l, r + 9, a⟩ := by
  simp only [systemWrapper, List.drop_succ_cons, List.drop_zero, List.take_succ_cons,
    List.take_zero, saved, List.cons_append, List.nil_append, Machine.follow, Machine.advance,
    Template.pop, Template.on, Item.encode, State.set, State.setSeg, State.next, Option.map_some,
    Option.bind_some, reduceCtorEq,
    if_false]
  exact ⟨_, rfl⟩

/-- The kernel's state in the middle of a call that came from `old`, at `pc` with `eax = v`. -/
def inKernel (old : State Memory) (v x y e : Word) (cs ss : BitVec 16) (f : Flags) (pc : Word) :
    State Memory :=
  { old with eax := v, ecx := x, edx := y, esp := e, cs := cs, ss := ss, flags := f, pc := pc }

/-- The frame of a trap from `old`. -/
def frame (old : State Memory) : List Item := [.word old.pc, .seg old.cs, .flags old.flags]

/-- **Back from `no_error`**: all registers but `eax` are those of the program. -/
theorem leads_leave {old : State Memory} {v x y e : Word} {cs ss : BitVec 16} {f : Flags}
    {items : List Item} {room r : Nat} (huser : old.user = true)
    (h : Matches (linked E) G ⟨inKernel old v x y e cs ss f 47, saved old ++ frame old, r,
      some ⟨old.esp, old.ss, items, room⟩⟩ s) :
    Leads (linked E) G.own (Matches (linked E) G ⟨{ old with eax := v }, items, room, none⟩) s := by
  obtain ⟨e', hf⟩ := follow_restore (E := E) (inKernel old v x y e cs ss f 47) old (frame old) r
    (some ⟨old.esp, old.ss, items, room⟩)
  have hcode : (systemWrapper.drop 17).take 9 <+: linkage.drop 47 := ⟨_, rfl⟩
  refine (h.follow rfl hcode rfl (by decide) hf).trans fun s₁ h₁ => ?_
  exact h₁.leads_iret rfl (if_pos huser)

/-- **An unknown number** is answered with -1. -/
theorem leads_refuse (cpu : State Memory) {items : List Item} {r : Nat} {a : Option Aside}
    {x : Word}
    {f : Flags} (hx : 9 < x.toNat)
    (h : Matches (linked E) G ⟨{ cpu with eax := x, flags := f.difference x 9, pc := 41 }, items, r,
      a⟩ s) :
    Leads (linked E) G.own (fun s' => ∃ f, Matches (linked E) G
      ⟨{ cpu with eax := -1, flags := f, pc := 47 }, items, r, a⟩ s') s := by
  have herror {f : Flags} {s : State Memory}
      (h : Matches (linked E) G ⟨{ cpu with eax := x, flags := f, pc := 46 }, items, r, a⟩ s) :
      Leads (linked E) G.own (fun s' => ∃ f, Matches (linked E) G
        ⟨{ cpu with eax := -1, flags := f, pc := 47 }, items, r, a⟩ s') s :=
    (h.leads_advance rfl rfl).trans fun s₁ h₁ => .here ⟨f, h₁⟩
  have hint : x.toInt =
      if 2 * x.toNat < 2 ^ 32 then (x.toNat : Int) else (x.toNat : Int) - 2 ^ 32 :=
    BitVec.toInt_eq_toNat_cond x
  have hlt := x.isLt
  by_cases hhigh : 9 < x.toInt
  · refine (h.leads_jump rfl (b := true) ?_).trans fun s₁ h₁ => herror h₁
    rw [Cond.holds_g]
    exact decide_eq_true hhigh
  · have hneg : x.toInt < 0 := by
      split at hint <;> omega
    refine (h.leads_jump rfl (b := false) ?_).trans fun s₁ h₁ =>
      (h₁.leads_advance (i := .cmpl (.imm 0) .eax) rfl rfl).trans fun s₂ h₂ =>
      (h₂.leads_jump rfl (b := true) ?_).trans fun s₃ h₃ => herror h₃
    · rw [Cond.holds_g]
      exact decide_eq_false hhigh
    · exact (Cond.holds_l _ x 0).trans (decide_eq_true hneg)

/-- What the C function of a call is given, and that it returns and leaves alone what is not its
own. -/
def Serves (E : Setting) (own : Set Word) (c : SystemCall) (args : List Word) : Prop :=
  ∀ e : State Memory, e.user = false → Processor.Holds e.mem (e.esp + 4) args →
    Completes own 3 e (E.callee c.function e)

/-- A trap from a program. -/
theorem trap_program (cpu : State Memory) (items : List Item) (room depth : Nat) (g : Gate)
    (huser : cpu.user = true) :
    ∃ e f, Template.trap (linked E) (depth + 5) g ⟨cpu, items, room, none⟩ =
      some ⟨inKernel cpu cpu.eax cpu.ecx cpu.edx e g.selector E.ss0 f g.entry, frame cpu, depth,
        some ⟨cpu.esp, cpu.ss, items, room⟩⟩ := by
  simp only [Template.trap, Template.toKernel, huser, if_true, Option.isSome_none, Bool.false_or,
    decide_eq_true_eq, show ¬ depth + 5 < 2 by omega, if_false, Option.bind_some, Template.push]
  exact ⟨_, _, rfl⟩

/-- The registers are saved, and the number is compared. -/
theorem leads_save {old : State Memory} {e : Word} {f : Flags} {l : List Item} {r : Nat}
    {a : Option Aside}
    (h : Matches (linked E) G
      ⟨inKernel old old.eax old.ecx old.edx e kernelCs E.ss0 f 30, l, r + 9, a⟩ s) :
    Leads (linked E) G.own (fun s' => ∃ e f, Matches (linked E) G
      ⟨inKernel old (old.eax - 1) old.ecx old.edx e kernelCs E.ss0
        (Flags.difference f (old.eax - 1) 9) 41, saved old ++ l, r, a⟩ s') s := by
  obtain ⟨e', f', hf⟩ := follow_save (E := E)
    (inKernel old old.eax old.ecx old.edx e kernelCs E.ss0 f 30) l r a
  have hcode : systemWrapper.take 11 <+: linkage.drop 30 := ⟨_, rfl⟩
  exact (h.follow rfl hcode rfl (by decide) hf).trans fun s₁ h₁ => .here ⟨e', f', h₁⟩

/-- C functions that return 7 and do nothing else, over tables of zeros. -/
def sevens : Setting where
  callee _ s := { s with eax := 7, esp := s.esp + 4 }
  others _ := 0
  idt _ := ⟨0, 0, 0, false, false, false, false, false, 0, false, 0⟩
  esp0 := 0x800000
  ss0 := 0x18

/-- A program at `pc`, its stack full of zeros. -/
def zeros (pc : Word) : State Memory where
  eax := 77
  ecx := 0
  edx := 0
  ebx := 3
  esp := 0x83FFFF0
  ebp := 0
  esi := 0
  edi := 0
  cs := 0x23
  ss := 0x2B
  ds := 0x2B
  es := 0x2B
  fs := 0x2B
  flags := ⟨false, false, false, false, false, true⟩
  mem _ := 0
  pc := pc

/-- A number of no call, less one, is out of the table. -/
theorem lt_toNat_of_unknown {x : Word} (h : ∀ c : SystemCall, x ≠ BitVec.ofNat 32 c.number) :
    9 < (x - 1).toNat := by
  have hne (c : SystemCall) : x.toNat ≠ c.number := fun hx => h c <| BitVec.eq_of_toNat_eq <| by
    rw [hx]
    cases c <;> rfl
  have hnot : ¬ (1 ≤ x.toNat ∧ x.toNat ≤ 10) := by
    rintro ⟨hlow, hhigh⟩
    have hall : ∀ n : Nat, 1 ≤ n → n ≤ 10 → ∃ c : SystemCall, n = c.number := by
      intro n h1 h10
      interval_cases n
      · exact ⟨.sysHalt, rfl⟩
      · exact ⟨.sysExecute, rfl⟩
      · exact ⟨.sysRead, rfl⟩
      · exact ⟨.sysWrite, rfl⟩
      · exact ⟨.sysOpen, rfl⟩
      · exact ⟨.sysClose, rfl⟩
      · exact ⟨.sysGetargs, rfl⟩
      · exact ⟨.sysVidmap, rfl⟩
      · exact ⟨.sysSetHandler, rfl⟩
      · exact ⟨.sysSigreturn, rfl⟩
    obtain ⟨c, hc⟩ := hall x.toNat hlow hhigh
    exact hne c hc
  have hlt := x.isLt
  rw [BitVec.toNat_sub, show (1 : Word).toNat = 1 from rfl]
  omega

/-- The template of a program of which nothing is known but its registers. -/
theorem matches_bare {own : Set Word} {r : Nat} (hroom : Lies own s.mem s.esp [] r)
    (habove : s.user = true → E.esp0.toNat + 4 * r ≤ s.esp.toNat) :
    Matches (linked E) ⟨own, s.esp.toNat, s.mem⟩ ⟨s, [], r, none⟩ s :=
  ⟨rfl, hroom, fun _ => habove, fun _ ha => absurd ha (by simp), le_rfl, fun _ _ _ => rfl⟩

theorem lies_nil (own : Set Word) (m : Memory) (e : Word) : Lies own m e [] 0 :=
  ⟨Nat.zero_le _, e.isLt, trivial, fun x hx hx' => absurd hx' (by simpa using hx)⟩

/-- **Unknown numbers.**  A trap with any other number comes back behind the trap with -1 and every
other register as it was; of the program's own memory, what lies at its stack pointer and above is
as it was.  No C function of a system call is called. -/
theorem unknownCall_refused {own : Set Word} (hk : KernelStack (linked E) own 14)
    (huser : s.user = true) (habove : E.esp0.toNat ≤ s.esp.toNat)
    (hn : ∀ c : SystemCall, s.eax ≠ BitVec.ofNat 32 c.number) :
    ∃ s₁, (linked E).exec s (.int 0x80) = some s₁ ∧ Leads (linked E) own (fun s' =>
      s' = { s.next with eax := -1, mem := s'.mem } ∧ Undisturbed own s s'.mem) s₁ := by
  refine ⟨(linked E).enter systemGate s.next, ?_, ?_⟩
  · rw [Machine.exec, gates_system, Option.bind_some, decide_eq_false (by decide), Bool.and_false]
    rfl
  have hstart : Matches (linked E) ⟨own, s.esp.toNat, s.mem⟩ ⟨s.next, [], 0, none⟩ s.next :=
    matches_bare (s := s.next) (lies_nil own _ _) fun _ => habove
  obtain ⟨e, f, htrap⟩ := trap_program (E := E) s.next [] 0 9 systemGate huser
  refine (leads_save (r := 0) (hstart.trap hk (by decide) htrap)).trans fun s₁ hsave => ?_
  obtain ⟨e₁, f₁, h₁⟩ := hsave
  have hrefuse := leads_refuse (inKernel s.next s.eax s.ecx s.edx e₁ kernelCs E.ss0 f₁ 41)
    (lt_toNat_of_unknown hn) (f := f₁) h₁
  refine hrefuse.trans fun s₂ herror => ?_
  obtain ⟨f₂, h₂⟩ := herror
  exact (leads_leave (show s.next.user = true from huser) h₂).trans
    fun s₃ h₃ => .here ⟨h₃.cpu, h₃.beyond⟩

/-- 77 is no number of a call. -/
theorem unknownCall_refused_zeros : (zeros 4).user = true ∧
    ∃ s₁, (linked sevens).exec (zeros 4) (.int 0x80) = some s₁ ∧
      Leads (linked sevens) Set.univ (fun s' => s'.eax = -1 ∧ s'.pc = 5) s₁ := by
  refine ⟨by decide, ?_⟩
  obtain ⟨s₁, hexec, hleads⟩ := unknownCall_refused (E := sevens) (s := zeros 4)
    (⟨by decide, fun _ _ _ => trivial⟩ : KernelStack (linked sevens) Set.univ 14) rfl (by decide)
    fun c => by cases c <;> decide
  refine ⟨s₁, hexec, hleads.trans fun s' hback => .here ?_⟩
  rw [hback.1]
  exact ⟨rfl, rfl⟩

/-! ## Interrupts -/

end HarambeOs
