import HarambeOs.Exceptions
import HarambeOs.Library.Processor

/-!
# Vectors — the interrupt descriptor table

`init_idt` of `idt.c` fills in 256 descriptors field by field; `boot.S` has loaded the table before.
A descriptor is 64 bits, `IdtDesc.val`, and `gateOf` is how the processor reads them.
**`initIdt_gates`** says what it finds: which code each vector leads to, with interrupts off or not,
and that a program can name one vector only, the one of the system calls.
-/

namespace HarambeOs

open Processor (Gate)

def kernelCs : BitVec 16 := 0x10
def numVec : Nat := 256
def maxException : Nat := 32
def maxError : Nat := 20
def systemVec : Nat := 0x80
def rtcVec : Nat := 40
def keyboardVec : Nat := 33
def pitVec : Nat := 32

/-- The code a vector can lead to. -/
inductive InterruptHandler
  | exception (x : Exception)
  | pitWrapper
  | keyboardWrapper
  | rtcWrapper
  | systemWrapper
  | undefinedInterrupt
  deriving DecidableEq

/-- `idt_desc_t`. -/
structure IdtDesc where
  offset1500 : BitVec 16
  segSelector : BitVec 16
  reserved4 : BitVec 8
  reserved3 : Bool
  reserved2 : Bool
  reserved1 : Bool
  size : Bool
  reserved0 : Bool
  dpl : BitVec 2
  present : Bool
  offset3116 : BitVec 16
  deriving DecidableEq

namespace IdtDesc

/-- The descriptor as the 64 bits of the union. -/
def val (d : IdtDesc) : Nat :=
  d.offset1500.toNat + d.segSelector.toNat * 2 ^ 16 + d.reserved4.toNat * 2 ^ 32 +
    d.reserved3.toNat * 2 ^ 40 + d.reserved2.toNat * 2 ^ 41 + d.reserved1.toNat * 2 ^ 42 +
    d.size.toNat * 2 ^ 43 + d.reserved0.toNat * 2 ^ 44 + d.dpl.toNat * 2 ^ 45 +
    d.present.toNat * 2 ^ 47 + d.offset3116.toNat * 2 ^ 48

/-- `SET_IDT_ENTRY`. -/
def setEntry (d : IdtDesc) (handler : BitVec 32) : IdtDesc :=
  { d with
    offset3116 := ((handler &&& 0xFFFF0000) >>> 16).setWidth 16
    offset1500 := (handler &&& 0xFFFF).setWidth 16 }

/-- The address the two halves of the offset make up. -/
def offset (d : IdtDesc) : BitVec 32 :=
  BitVec.ofNat 32 (d.offset1500.toNat + d.offset3116.toNat * 2 ^ 16)

end IdtDesc

/-- How the processor reads a descriptor: a 32-bit interrupt gate or trap gate that is present. -/
def gateOf (val : Nat) : Option Gate :=
  if val / 2 ^ 47 % 2 = 0 then none
  else
    let gate (trap : Bool) : Gate :=
      { entry := BitVec.ofNat 32 (val % 2 ^ 16 + val / 2 ^ 48 * 2 ^ 16)
        selector := BitVec.ofNat 16 (val / 2 ^ 16)
        dpl := val / 2 ^ 45 % 4
        trap := trap }
    if val / 2 ^ 40 % 32 = 0xE then some (gate false)
    else if val / 2 ^ 40 % 32 = 0xF then some (gate true)
    else none

/-! ## `init_idt` -/

/-- The fields every descriptor starts with. -/
def IdtDesc.prepared (d : IdtDesc) : IdtDesc :=
  { d with
    present := true
    dpl := 0
    segSelector := kernelCs
    reserved0 := false
    reserved1 := true
    reserved2 := true
    reserved3 := true
    reserved4 := 0
    size := true }

section Init

variable (addr : InterruptHandler → BitVec 32)

/-- The body of the first loop of `init_idt`, for vector `i`. -/
def prepareEntry (i : Nat) (d : IdtDesc) : IdtDesc :=
  let d := d.prepared
  let d := if i > maxException then
      { d with reserved3 := false }.setEntry (addr .undefinedInterrupt)
    else d
  let d := if i = systemVec then
      { d with dpl := 3, reserved3 := true }.setEntry (addr .systemWrapper)
    else d
  let d := if i = rtcVec then { d with reserved3 := false }.setEntry (addr .rtcWrapper) else d
  let d := if i = keyboardVec then
      { d with reserved3 := false }.setEntry (addr .keyboardWrapper)
    else d
  if i = pitVec then { d with reserved3 := false }.setEntry (addr .pitWrapper) else d

/-- The body of the second loop. -/
def exceptionEntry (i : Nat) (d : IdtDesc) : IdtDesc :=
  (entryTable[i]?).elim d fun x => d.setEntry (addr (.exception x))

/-- A loop over the first `n` entries. -/
def forEntries (body : Nat → IdtDesc → IdtDesc) (n : Nat) (idt : Nat → IdtDesc) : Nat → IdtDesc :=
  (List.range n).foldl (fun idt i => Function.update idt i (body i (idt i))) idt

/-- `init_idt`. -/
def initIdt (idt : Nat → IdtDesc) : Nat → IdtDesc :=
  forEntries (exceptionEntry addr) maxError (forEntries (prepareEntry addr) numVec idt)

end Init

/-- Each entry is set once, from what it was. -/
theorem forEntries_apply (body : Nat → IdtDesc → IdtDesc) (n : Nat) (idt : Nat → IdtDesc)
    (i : Nat) : forEntries body n idt i = if i < n then body i (idt i) else idt i := by
  induction n with
  | zero => rfl
  | succ n ih =>
    rw [forEntries, List.range_succ, List.foldl_append]
    change Function.update (forEntries body n idt) n (body n (forEntries body n idt n)) i = _
    rcases eq_or_ne i n with rfl | hne
    · rw [Function.update_self, if_pos (Nat.lt_succ_self i), ih, if_neg (Nat.lt_irrefl i)]
    · rw [Function.update_of_ne hne, ih]
      exact if_congr (by omega) rfl rfl

/-! ## What the processor finds -/

/-- **The fields of a gate come back.** -/
theorem gateOf_val (d : IdtDesc) (hp : d.present = true) (hs : d.size = true)
    (h0 : d.reserved0 = false) (h1 : d.reserved1 = true) (h2 : d.reserved2 = true) :
    gateOf d.val = some ⟨d.offset, d.segSelector, d.dpl.toNat, d.reserved3⟩ := by
  obtain ⟨lo, sel, r4, r3, r2, r1, size, r0, dpl, present, hi⟩ := d
  obtain ⟨rfl, rfl, rfl, rfl, rfl⟩ := And.intro hp (And.intro hs (And.intro h0 (And.intro h1 h2)))
  have hlo := lo.isLt
  have hsel := sel.isLt
  have hr4 := r4.isLt
  have hdpl := dpl.isLt
  have hhi := hi.isLt
  have hval : IdtDesc.val ⟨lo, sel, r4, r3, true, true, true, false, dpl, true, hi⟩ =
      lo.toNat + sel.toNat * 2 ^ 16 + r4.toNat * 2 ^ 32 + r3.toNat * 2 ^ 40 + 7 * 2 ^ 41 +
        dpl.toNat * 2 ^ 45 + 2 ^ 47 + hi.toNat * 2 ^ 48 := by
    simp only [IdtDesc.val, Bool.toNat_true, Bool.toNat_false]
    omega
  have hr3 : r3.toNat < 2 := Bool.toNat_lt r3
  generalize hw : IdtDesc.val ⟨lo, sel, r4, r3, true, true, true, false, dpl, true, hi⟩ = w at hval
  have hentry : w % 2 ^ 16 + w / 2 ^ 48 * 2 ^ 16 = lo.toNat + hi.toNat * 2 ^ 16 := by omega
  have hselector : BitVec.ofNat 16 (w / 2 ^ 16) = sel := by
    refine BitVec.eq_of_toNat_eq ?_
    rw [BitVec.toNat_ofNat]
    omega
  rw [gateOf, if_neg (by omega), hentry, hselector, show w / 2 ^ 45 % 4 = dpl.toNat by omega]
  cases r3 with
  | false =>
    rw [Bool.toNat_false] at hval
    exact if_pos (by omega)
  | true =>
    rw [Bool.toNat_true] at hval
    rw [if_neg (by omega)]
    exact if_pos (by omega)

/-- The halves an address is cut into make it up again. -/
theorem IdtDesc.offset_setEntry (d : IdtDesc) (handler : BitVec 32) :
    (d.setEntry handler).offset = handler := by
  have hlow : ((handler &&& 0xFFFF).setWidth 16).toNat = handler.toNat % 2 ^ 16 := by
    rw [BitVec.toNat_setWidth, BitVec.toNat_and,
      show (0xFFFF : BitVec 32).toNat = 2 ^ 16 - 1 from rfl,
      Nat.and_two_pow_sub_one_eq_mod, Nat.mod_mod]
  have hhigh : (((handler &&& 0xFFFF0000) >>> 16).setWidth 16).toNat = handler.toNat / 2 ^ 16 := by
    have hlt := handler.isLt
    rw [BitVec.toNat_setWidth, BitVec.toNat_ushiftRight, BitVec.toNat_and,
      Nat.shiftRight_and_distrib,
      show (0xFFFF0000 : BitVec 32).toNat >>> 16 = 2 ^ 16 - 1 from rfl,
      Nat.and_two_pow_sub_one_eq_mod, Nat.shiftRight_eq_div_pow]
    omega
  rw [offset, setEntry]
  simp only
  rw [hlow, hhigh]
  refine BitVec.eq_of_toNat_eq ?_
  have hlt := handler.isLt
  rw [BitVec.toNat_ofNat]
  omega

/-- The code vector `v` leads to; the vectors from 20 to 31 are left without any. -/
def handlerOf (v : Nat) : Option InterruptHandler :=
  if v = systemVec then some .systemWrapper
  else if v = rtcVec then some .rtcWrapper
  else if v = keyboardVec then some .keyboardWrapper
  else if v = pitVec then some .pitWrapper
  else if v > maxException then some .undefinedInterrupt
  else (entryTable[v]?).map .exception

/-- **The table.**  Whatever the table held before, after `init_idt` the processor finds a gate of
the kernel's code segment at every vector: at the address of its handler, or, for the vectors left
without one, at the address that was there.  Device interrupts come with interrupts off, exceptions
and system calls leave them; and a program may name vector 0x80 only. -/
theorem initIdt_gates (addr : InterruptHandler → BitVec 32) (idt : Nat → IdtDesc) (v : Nat)
    (hv : v < numVec) :
    gateOf (initIdt addr idt v).val = some {
      entry := (handlerOf v).elim (idt v).offset addr
      selector := kernelCs
      dpl := if v = systemVec then 3 else 0
      trap := decide (v < pitVec ∨ v = systemVec) } := by
  have hinit : initIdt addr idt v =
      if v < maxError then exceptionEntry addr v (prepareEntry addr v (idt v))
      else prepareEntry addr v (idt v) := by
    rw [initIdt, forEntries_apply, forEntries_apply, if_pos hv]
  -- A descriptor whose address was set, and what is left of the others.
  have hset (d : IdtDesc) (h : InterruptHandler) (hp : d.present = true ∧ d.size = true ∧
      d.reserved0 = false ∧ d.reserved1 = true ∧ d.reserved2 = true) :
      gateOf (d.setEntry (addr h)).val =
        some ⟨addr h, d.segSelector, d.dpl.toNat, d.reserved3⟩ := by
    obtain ⟨h₁, h₂, h₃, h₄, h₅⟩ := hp
    rw [gateOf_val (d.setEntry (addr h)) h₁ h₂ h₃ h₄ h₅, IdtDesc.offset_setEntry]
    rfl
  rcases Nat.lt_or_ge v pitVec with hlow | hhigh
  · have hlt : v < 32 := hlow
    have hne : ¬ v > maxException ∧ v ≠ systemVec ∧ v ≠ rtcVec ∧ v ≠ keyboardVec ∧ v ≠ pitVec := by
      simp only [maxException, systemVec, rtcVec, keyboardVec, pitVec]
      omega
    have hprep : prepareEntry addr v (idt v) = (idt v).prepared := by
      simp only [prepareEntry, hne, if_false]
    have hhandler : handlerOf v = (entryTable[v]?).map .exception := by
      simp only [handlerOf, hne, if_false]
    rw [hinit, hprep, hhandler, decide_eq_true (Or.inl hlow), if_neg hne.2.1]
    split
    · next h20 =>
      obtain ⟨x, hx⟩ : ∃ x, entryTable[v]? = some x := ⟨_, List.getElem?_eq_getElem h20⟩
      rw [exceptionEntry, hx]
      exact hset _ (.exception x) ⟨rfl, rfl, rfl, rfl, rfl⟩
    · next h20 =>
      rw [List.getElem?_eq_none (Nat.not_lt.mp h20)]
      exact gateOf_val _ rfl rfl rfl rfl rfl
  · have hge : 32 ≤ v := hhigh
    rw [hinit, maxError, if_neg (by omega)]
    by_cases h32 : v = pitVec
    · subst h32
      exact hset _ .pitWrapper ⟨rfl, rfl, rfl, rfl, rfl⟩
    by_cases h33 : v = keyboardVec
    · subst h33
      exact hset _ .keyboardWrapper ⟨rfl, rfl, rfl, rfl, rfl⟩
    by_cases h40 : v = rtcVec
    · subst h40
      exact hset _ .rtcWrapper ⟨rfl, rfl, rfl, rfl, rfl⟩
    by_cases h128 : v = systemVec
    · subst h128
      exact hset _ .systemWrapper ⟨rfl, rfl, rfl, rfl, rfl⟩
    have hgt : v > maxException := Nat.lt_of_le_of_ne hge (Ne.symm h32)
    have htrap : ¬ (v < pitVec ∨ v = systemVec) :=
      not_or.mpr ⟨Nat.not_lt.mpr hhigh, h128⟩
    have hprep : prepareEntry addr v (idt v) =
        { (idt v).prepared with reserved3 := false }.setEntry (addr .undefinedInterrupt) := by
      simp only [prepareEntry, h32, h33, h40, h128, hgt, if_true, if_false]
    have hhandler : handlerOf v = some .undefinedInterrupt := by
      simp only [handlerOf, h32, h33, h40, h128, hgt, if_true, if_false]
    rw [hprep, hhandler, decide_eq_false htrap, if_neg h128]
    exact hset _ .undefinedInterrupt ⟨rfl, rfl, rfl, rfl, rfl⟩

end HarambeOs
