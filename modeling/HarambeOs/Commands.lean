import HarambeOs.Library.CString
import HarambeOs.Moves

/-!
# Commands — the parser of `c_execute`

One index runs through the command, and `MAX_CHAR_COUNT` limits the index, not the length of the
name or of the arguments.  `nameLoop_eq` and `argLoop_eq` say what the two loops leave, and
`parseCommand_of_space` what that is for a name, a space and arguments.  A command is taken apart
without loss exactly when it and the terminator of its name stay below the limit
(**`Kernel.splits_iff`**).
-/

namespace HarambeOs

/-! ## The loops -/

theorem commandAt_append (s : List UInt8) (rest : List UInt8) :
    commandAt (s ++ rest) s.length = rest.getD 0 nul := by
  rw [commandAt, List.getD_append_right _ _ _ _ (Nat.le_refl _), Nat.sub_self]

/-- The name loop, on a name and what follows it: a space, or the end. -/
theorem nameLoop_eq (pre : List UInt8) {name : List UInt8} (rest : List UInt8) (n : Nat)
    (flag : Bool) (hname : ∀ c ∈ name, c ≠ space ∧ c ≠ nul)
    (hrest : rest.getD 0 nul = space ∨ rest.getD 0 nul = nul) :
    nameLoop (pre ++ (name ++ rest)) pre.length flag n =
      (name.take n, pre.length + min n name.length,
        flag || (!name.isEmpty && decide (name.length ≤ n ∧ rest.getD 0 nul = space))) := by
  induction name generalizing pre flag n with
  | nil =>
    cases n with
    | zero => simp [nameLoop]
    | succ n =>
      rw [nameLoop, List.nil_append, commandAt_append, if_pos hrest]
      simp
  | cons c name ih =>
    obtain ⟨hc, hname⟩ := List.forall_mem_cons.mp hname
    cases n with
    | zero => simp [nameLoop]
    | succ n =>
      have hpre : pre ++ (c :: name ++ rest) = pre ++ [c] ++ (name ++ rest) := by simp
      have hlen : pre.length + 1 = (pre ++ [c]).length := by simp
      have hfirst : commandAt (pre ++ (c :: name ++ rest)) pre.length = c := commandAt_append ..
      -- A space comes next only at the end of the name.
      have hnext : decide (commandAt (pre ++ [c] ++ (name ++ rest)) (pre ++ [c]).length = space) =
          (name.isEmpty && decide (rest.getD 0 nul = space)) := by
        rw [commandAt_append]
        cases name with
        | nil => rfl
        | cons d name => exact decide_eq_false (hname d (List.mem_cons_self ..)).1
      rw [nameLoop, hfirst, if_neg (not_or.mpr hc), hpre, hlen, hnext, ih (pre ++ [c]) n _ hname]
      cases name with
      | nil => simp
      | cons d name =>
        simp
        omega

/-- Without a space there are no arguments. -/
theorem nameLoop_of_notMem {command : List UInt8} (h : space ∉ command) (i : Nat) (flag : Bool)
    (n : Nat) : (nameLoop command i flag n).2.2 = flag := by
  induction n generalizing i flag with
  | zero => rfl
  | succ n ih =>
    have hnext : commandAt command (i + 1) ≠ space := by
      rw [commandAt, List.getD_eq_getElem?_getD]
      cases hc : command[i + 1]? with
      | none => exact (by decide : nul ≠ space)
      | some c =>
        rintro rfl
        exact h (List.mem_of_getElem? hc)
    rw [nameLoop]
    split
    · rfl
    · rw [decide_eq_false hnext, Bool.or_false]
      exact ih (i + 1) flag

/-- The argument loop takes the rest of the command, as far as the limit. -/
theorem argLoop_eq {a : List UInt8} (pre : List UInt8) (n : Nat) (ha : nul ∉ a) :
    argLoop (pre ++ a) pre.length n = a.take n := by
  induction a generalizing pre n with
  | nil =>
    cases n with
    | zero => rfl
    | succ n =>
      rw [argLoop, commandAt_append]
      rfl
  | cons c a ih =>
    obtain ⟨hc, ha⟩ := not_or.mp (mt List.mem_cons.mpr ha)
    cases n with
    | zero => rfl
    | succ n =>
      have hpre : pre ++ c :: a = pre ++ [c] ++ a := by simp
      have hlen : pre.length + 1 = (pre ++ [c]).length := by simp
      have hfirst : commandAt (pre ++ c :: a) pre.length = c := commandAt_append ..
      rw [argLoop, hfirst, if_neg (Ne.symm hc), hpre, hlen, ih (pre ++ [c]) n ha,
        List.take_succ_cons]

/-! ## What the parser leaves -/

/-- A command of a name alone. -/
theorem parseCommand_of_name {name : List UInt8} (hname : ∀ c ∈ name, c ≠ space ∧ c ≠ nul) :
    parseCommand name = (name.take maxCharCount, none) := by
  have h := nameLoop_eq [] [] maxCharCount false hname (Or.inr rfl)
  rw [List.nil_append, List.append_nil, List.length_nil] at h
  rw [parseCommand, h]
  simp [show nul ≠ space by decide]

/-- A command of a name, a space and arguments. -/
theorem parseCommand_of_space {name a : List UInt8} (hne : name ≠ [])
    (hname : ∀ c ∈ name, c ≠ space ∧ c ≠ nul) (ha : nul ∉ a) :
    parseCommand (name ++ space :: a) = (name.take maxCharCount,
      if name.length ≤ maxCharCount then some (a.take (maxCharCount - (name.length + 1)))
      else none) := by
  have h := nameLoop_eq [] (space :: a) maxCharCount false hname (Or.inl rfl)
  rw [List.nil_append, List.length_nil, Nat.zero_add, List.isEmpty_eq_false_iff.mpr hne] at h
  have hsplit : name ++ space :: a = name ++ [space] ++ a := by simp
  have hstart : name.length + 1 = (name ++ [space]).length := by simp
  rw [parseCommand, h]
  by_cases hlen : name.length ≤ maxCharCount
  · rw [if_pos hlen, Nat.min_eq_right hlen, hsplit, hstart, argLoop_eq _ _ ha]
    simp [hlen]
  · simp [hlen]

theorem argsOf_of_space {name a : List UInt8} (hne : name ≠ [])
    (hname : ∀ c ∈ name, c ≠ space ∧ c ≠ nul) (ha : nul ∉ a)
    (hlen : (name ++ space :: a).length ≤ maxCharCount) :
    argsOf (some (name ++ space :: a)) = some a := by
  have hn : name.length + (a.length + 1) ≤ maxCharCount := by simpa using hlen
  rw [argsOf, Option.bind_some, parseCommand_of_space hne hname ha]
  simp only
  rw [if_pos (by omega), List.take_of_length_le (by omega)]

theorem argsOf_of_notMem {command : List UInt8} (h : space ∉ command) :
    argsOf (some command) = none := by
  rw [argsOf, Option.bind_some, parseCommand]
  simp only [nameLoop_of_notMem h]
  rfl

/-! ## Taking a command apart without loss -/

/-- The array `name` once the loops have run. -/
def nameCells (command : List UInt8) (i : Nat) : UInt8 := (parseCommand command).1.getD i nul

/-- The string in it. -/
def nameText (command : List UInt8) : List UInt8 :=
  CString.text nul (nameCells command) maxCharCount

section

variable {command name : List UInt8} (hparse : (parseCommand command).1 = name.take maxCharCount)
  (hnul : nul ∉ name)

include hparse

theorem nameCells_eq (i : Nat) : nameCells command i = (name.take maxCharCount).getD i nul := by
  rw [nameCells, hparse]

include hnul

/-- The name loop leaves room for a terminator when the name is shorter than the array. -/
theorem terminated_iff :
    (∃ i < maxCharCount, nameCells command i = nul) ↔ name.length < maxCharCount := by
  constructor
  · rintro ⟨i, hi, hz⟩
    by_contra hle
    have hlt : i < (name.take maxCharCount).length := by
      rw [List.length_take]
      omega
    rw [nameCells_eq hparse, List.getD_eq_getElem _ _ hlt] at hz
    exact hnul (hz ▸ List.mem_of_mem_take (List.getElem_mem hlt))
  · intro hlt
    refine ⟨name.length, hlt, (nameCells_eq hparse _).trans (List.getD_eq_default _ _ ?_)⟩
    rw [List.length_take]
    exact Nat.min_le_right ..

/-- The name is then all there. -/
theorem nameText_eq (hlen : name.length < maxCharCount) : nameText command = name := by
  rw [nameText, funext (nameCells_eq hparse), List.take_of_length_le (Nat.le_of_lt hlen)]
  exact CString.text_getD hnul (Nat.le_of_lt hlen)

end

namespace Kernel

/-- The string in `get_args`, an array of `ARG_STORAGE` bytes. -/
def argText (k : Kernel) : List UInt8 := CString.text nul k.proc.getArgs 1024

/-- The parser of `c_execute` splits a command at its first space, without loss. -/
structure Splits (k : Kernel) (command : List UInt8) : Prop where
  terminated : ∃ i < maxCharCount, nameCells command i = nul
  name : nameText command = command.takeWhile (· ≠ space)
  args : space ∈ command →
    (k.prepare (parseCommand command).2).argText = (command.dropWhile (· ≠ space)).tail
  noArgs : space ∉ command →
    (k.prepare (parseCommand command).2).proc.getArgs = k.proc.getArgs ∧
      (k.prepare (parseCommand command).2).proc.argSize = k.proc.argSize
  joined : command = nameText command ++
    if space ∈ command then space :: (k.prepare (parseCommand command).2).argText else []

/-- `get_args` once arguments are stored. -/
theorem argText_prepare_some (k : Kernel) {a : List UInt8} (ha : nul ∉ a) (hlen : a.length ≤ 1024) :
    (k.prepare (some a)).argText = a := by
  refine CString.text_eq ha hlen (fun i hi => ?_) fun _ => ?_
  · simp only [prepare, Proc.storeArgs, if_pos hi, List.getD_eq_getElem _ _ hi]
  · simp only [prepare, Proc.storeArgs, if_neg (Nat.lt_irrefl _), if_pos]

theorem args_prepare_none (k : Kernel) :
    (k.prepare none).proc.getArgs = k.proc.getArgs ∧
      (k.prepare none).proc.argSize = k.proc.argSize := by
  simp only [prepare, Proc.storeArgs]
  split
  · exact ⟨rfl, rfl⟩
  · exact ⟨rfl, rfl⟩

/-- A command of a name alone is cut where the array ends. -/
theorem splits_name_iff (k : Kernel) {name : List UInt8}
    (hname : ∀ c ∈ name, c ≠ space ∧ c ≠ nul) :
    k.Splits name ↔ name.length < maxCharCount := by
  have hparse := parseCommand_of_name hname
  have hnul : nul ∉ name := fun h => (hname nul h).2 rfl
  have hspace : space ∉ name := fun h => (hname space h).1 rfl
  have hterm := terminated_iff (congrArg Prod.fst hparse) hnul
  constructor
  · exact fun h => hterm.mp h.terminated
  · intro hlen
    have htext := nameText_eq (congrArg Prod.fst hparse) hnul hlen
    have htake : name.takeWhile (· ≠ space) = name :=
      List.takeWhile_eq_self_iff.mpr fun c hc => decide_eq_true (hname c hc).1
    refine ⟨hterm.mpr hlen, htext.trans htake.symm, fun h => absurd h hspace, fun _ => ?_, ?_⟩
    · rw [hparse]
      exact k.args_prepare_none
    · rw [htext, if_neg hspace, List.append_nil]

theorem takeWhile_of_space {name : List UInt8} (a : List UInt8) (h : ∀ c ∈ name, c ≠ space) :
    (name ++ space :: a).takeWhile (· ≠ space) = name := by
  rw [List.takeWhile_append_of_pos fun c hc => decide_eq_true (h c hc)]
  simp

theorem dropWhile_of_space {name : List UInt8} (a : List UInt8) (h : ∀ c ∈ name, c ≠ space) :
    (name ++ space :: a).dropWhile (· ≠ space) = space :: a := by
  rw [List.dropWhile_append_of_pos fun c hc => decide_eq_true (h c hc)]
  simp

/-- Arguments are cut where the index reaches the limit. -/
theorem splits_space_iff (k : Kernel) {name a : List UInt8} (hne : name ≠ [])
    (hname : ∀ c ∈ name, c ≠ space ∧ c ≠ nul) (ha : nul ∉ a) :
    k.Splits (name ++ space :: a) ↔
      (name ++ space :: a).length ≤ maxCharCount ∧ name.length < maxCharCount := by
  have hparse := parseCommand_of_space hne hname ha
  have hnul : nul ∉ name := fun h => (hname nul h).2 rfl
  have hspace : space ∈ name ++ space :: a := List.mem_append_right _ (List.mem_cons_self ..)
  have hterm := terminated_iff (congrArg Prod.fst hparse) hnul
  have htake := takeWhile_of_space a fun c hc => (hname c hc).1
  have hdrop := congrArg List.tail (dropWhile_of_space a fun c hc => (hname c hc).1)
  have hlength : (name ++ space :: a).length = name.length + (a.length + 1) := by simp
  -- The arguments as stored, for a name that fits.
  have hstored (hlen : name.length < maxCharCount) :
      (k.prepare (parseCommand (name ++ space :: a)).2).argText =
        a.take (maxCharCount - (name.length + 1)) := by
    rw [hparse]
    simp only [if_pos (Nat.le_of_lt hlen)]
    refine k.argText_prepare_some (fun hz => ha (List.mem_of_mem_take hz)) ?_
    exact Nat.le_trans (List.length_take_le ..) (by rw [maxCharCount]; omega)
  rw [hlength]
  constructor
  · intro h
    have hlen := hterm.mp h.terminated
    have hargs := h.args hspace
    rw [hstored hlen, hdrop, List.tail_cons, List.take_eq_self_iff] at hargs
    exact ⟨by omega, hlen⟩
  · rintro ⟨hall, hlen⟩
    have htext := nameText_eq (congrArg Prod.fst hparse) hnul hlen
    have hargs := hstored hlen
    rw [List.take_of_length_le (by omega)] at hargs
    refine ⟨hterm.mpr hlen, htext.trans htake.symm, fun _ => hargs.trans hdrop.symm,
      fun h => absurd hspace h, ?_⟩
    rw [htext, hargs, if_pos hspace]

/-- **Taking a command apart.**  A command that begins with a character other than a space is split
at its first space without loss exactly when it has at most 100 characters and the name leaves room
for its terminator in an array of 100. -/
theorem splits_iff (k : Kernel) {command : List UInt8} (hne : command ≠ [])
    (hfirst : command.head? ≠ some space) (hnul : nul ∉ command) :
    k.Splits command ↔
      command.length ≤ 100 ∧ (command.takeWhile (· ≠ space)).length < 100 := by
  by_cases hs : space ∈ command
  · obtain ⟨name, a, rfl, hname⟩ := List.eq_append_cons_of_mem hs
    obtain ⟨hn, ha⟩ := not_or.mp (mt List.mem_append.mpr hnul)
    have hchars : ∀ c ∈ name, c ≠ space ∧ c ≠ nul :=
      fun c hc => ⟨fun h => hname (h ▸ hc), fun h => hn (h ▸ hc)⟩
    rw [takeWhile_of_space a fun c hc => (hchars c hc).1]
    refine k.splits_space_iff ?_ hchars fun h => ha (List.mem_cons_of_mem _ h)
    rintro rfl
    exact hfirst rfl
  · have hchars : ∀ c ∈ command, c ≠ space ∧ c ≠ nul :=
      fun c hc => ⟨fun h => hs (h ▸ hc), fun h => hnul (h ▸ hc)⟩
    rw [List.takeWhile_eq_self_iff.mpr fun c hc => decide_eq_true (hchars c hc).1,
      k.splits_name_iff hchars]
    exact ⟨fun h => ⟨Nat.le_of_lt h, h⟩, And.right⟩

/-- `"a b"`. -/
theorem splits_short : Boot.zero.kernel.Splits [97, space, 98] :=
  (splits_iff _ (by decide) (by decide) (by decide)).mpr (by decide)

/-- `"a "` and a hundred more characters: two of them are lost. -/
theorem not_splits_long :
    ¬ Boot.zero.kernel.Splits (97 :: space :: List.replicate 100 98) ∧
    (97 :: space :: List.replicate 100 98).length ≤ 128 ∧
    (Boot.zero.kernel.prepare (parseCommand (97 :: space :: List.replicate 100 98)).2).argText =
      List.replicate 98 98 := by
  have hparse : parseCommand (97 :: space :: List.replicate 100 98) =
      ([97], some (List.replicate 98 98)) := by
    decide +kernel
  have hstored : (Boot.zero.kernel.prepare
      (parseCommand (97 :: space :: List.replicate 100 98)).2).argText = List.replicate 98 98 := by
    rw [hparse]
    exact argText_prepare_some _ (by decide) (by decide)
  refine ⟨fun h => ?_, by decide, hstored⟩
  have hargs := h.args (by decide)
  rw [hstored] at hargs
  exact absurd (congrArg List.length hargs) (by decide)

end Kernel

end HarambeOs
