import HarambeOs.Itoa

/-!
# Printf — the conversions of `printf`, in their buffers

Each numeric conversion of `printf` has a `conv_buf` of its own on the stack, of 64 bytes for `%x`
and of 36 for `%u` and `%d`, with whatever the stack held there.  `convert_eq` says that no
conversion leaves its buffer, and that what it prints is what `conversion` says; `printfLoop_eq`
carries this over a whole format.
-/

namespace HarambeOs

open Buffers Numerals

namespace InBuffer

/-! ## The conversions -/

/-- The three `conv_buf`s of a conversion, as the stack has them. -/
structure ConvBufs where
  hexadecimal : Vector UInt8 64
  unsigned : Vector UInt8 36
  signed : Vector UInt8 36

/-- The case `'x'`. -/
def convertHexadecimal (alternate : Bool) (word : UInt32) (convBuf : Vector UInt8 64) :
    Option (List UInt8) :=
  if !alternate then do
    let m ← itoa convBuf.toList 0 word.toNat 16
    puts m 0
  else do
    let m ← itoa convBuf.toList 8 word.toNat 16
    let startingIndex ← strlen m 8
    -- `while(i < 8)`, from the starting index up
    let m ← (List.range' startingIndex (8 - startingIndex)).foldlM (fun m i => write m i 48) m
    puts m startingIndex

/-- The case `'u'`. -/
def convertUnsigned (word : UInt32) (convBuf : Vector UInt8 36) : Option (List UInt8) := do
  let m ← itoa convBuf.toList 0 word.toNat 10
  puts m 0

/-- The case `'d'`.  The least value is its own negative, and `itoa` takes it for unsigned. -/
def convertSigned (word : UInt32) (convBuf : Vector UInt8 36) : Option (List UInt8) := do
  let m ← if word.toInt32 < 0 then do
      let m ← write convBuf.toList 0 45
      itoa m 1 (-word).toNat 10
    else itoa convBuf.toList 0 word.toNat 10
  puts m 0

/-- What a conversion prints for the argument `word`, and whether it takes the argument. -/
def convert (strings : Nat → List UInt8) (alternate : Bool) (c : UInt8) (word : UInt32)
    (convBufs : ConvBufs) : Option (List UInt8 × Bool) :=
  if c = 37 then some ([37], false)
  else if c = 120 then (convertHexadecimal alternate word convBufs.hexadecimal).map (·, true)
  else if c = 117 then (convertUnsigned word convBufs.unsigned).map (·, true)
  else if c = 100 then (convertSigned word convBufs.signed).map (·, true)
  else if c = 99 then some ([word.toUInt8], true)
  else if c = 115 then some (strings word.toNat, true)
  else some ([], false)

/-- `printf` as in `Messages`, with the conversions done in their buffers. -/
def printfLoop (words : Nat → UInt32) (strings : Nat → List UInt8) (convBufs : Nat → ConvBufs) :
    Option Bool → Nat → List UInt8 → Option (List UInt8)
  | _, _, [] => none
  | none, i, c :: format =>
    if c = nul then some []
    else if c = 37 then printfLoop words strings convBufs (some false) i format
    else (printfLoop words strings convBufs none i format).map (c :: ·)
  | some alternate, i, c :: format =>
    if c = 35 then printfLoop words strings convBufs (some true) i format
    else do
      let r ← convert strings alternate c (words i) (convBufs i)
      (printfLoop words strings convBufs none (if r.2 then i + 1 else i) format).map (r.1 ++ ·)

/-! ## They stay in their buffers -/

/-- `itoa` and `puts`, one after the other: the numeral goes out. -/
theorem puts_itoa {r v buf : Nat} (hr : 2 ≤ r) (hr' : r ≤ 36) (hv : v < 2 ^ 32) {m : List UInt8}
    (hroom : buf + (HarambeOs.itoa v r).length < m.length) :
    ((itoa m buf v r).bind fun m => puts m buf) = some (HarambeOs.itoa v r) := by
  rw [itoa_splice hr hr' hv, if_pos hroom, Option.bind_some]
  exact puts_splice (nul_notMem_itoa hr hr' hv) (by omega)

theorem length_itoa_hexadecimal (word : UInt32) : (HarambeOs.itoa word.toNat 16).length ≤ 8 :=
  length_itoa_le (by decide) word.toNat_lt (by decide) word.toNat_lt

theorem length_itoa_decimal (word : UInt32) : (HarambeOs.itoa word.toNat 10).length ≤ 10 :=
  length_itoa_le (by decide) word.toNat_lt (by decide)
    (Nat.lt_trans word.toNat_lt (by decide))

/-- **`%#x`** puts zeros before the digits, where the string of eight then begins. -/
theorem convertHexadecimal_eq (alternate : Bool) (word : UInt32) (convBuf : Vector UInt8 64) :
    convertHexadecimal alternate word convBuf =
      some (if alternate then List.replicate (8 - (HarambeOs.itoa word.toNat 16).length) 48 ++
        HarambeOs.itoa word.toNat 16 else HarambeOs.itoa word.toNat 16) := by
  have hlen := length_itoa_hexadecimal word
  have hsize : convBuf.toList.length = 64 := Vector.length_toList
  cases alternate with
  | false => exact puts_itoa (by decide) (by decide) word.toNat_lt (by omega)
  | true =>
    have hstart : 8 ≤ convBuf.toList.length := by omega
    have hnul := nul_notMem_itoa (r := 16) (by decide) (by decide) word.toNat_lt
    have hitoa := itoa_splice (r := 16) (by decide) (by decide) word.toNat_lt convBuf.toList 8
    rw [if_pos (by omega)] at hitoa
    have hfit : (splice convBuf.toList 8 (HarambeOs.itoa word.toNat 16 ++ [nul])).length = 64 := by
      rw [length_splice (by rw [List.length_append, List.length_singleton]; omega), hsize]
    simp only [convertHexadecimal, Bool.not_true, Bool.false_eq_true, if_false, if_true,
      Option.bind_eq_bind, hitoa, Option.bind_some, strlen_splice hnul hstart]
    rw [foldlM_write (by rw [hfit]; omega), Option.bind_some, puts, drop_splice (by omega),
      List.length_replicate, Nat.add_sub_cancel' hlen, drop_splice_nul hstart,
      ← List.append_assoc, putsLoop_append]
    rw [List.mem_append, not_or]
    exact ⟨fun h => absurd (List.eq_of_mem_replicate h) (by decide), hnul⟩

theorem convertUnsigned_eq (word : UInt32) (convBuf : Vector UInt8 36) :
    convertUnsigned word convBuf = some (HarambeOs.itoa word.toNat 10) := by
  have hlen := length_itoa_decimal word
  have hsize : convBuf.toList.length = 36 := Vector.length_toList
  exact puts_itoa (by decide) (by decide) word.toNat_lt (by omega)

/-- A word read as two's complement. -/
theorem toInt_toInt32 (word : UInt32) :
    word.toInt32.toInt =
      if 2 ^ 31 ≤ word.toNat then (word.toNat : Int) - 2 ^ 32 else (word.toNat : Int) := by
  have hint : word.toInt32.toInt = word.toBitVec.toInt := rfl
  rw [hint, BitVec.toInt_eq_toNat_cond, UInt32.toNat_toBitVec]
  split <;> split <;> omega

theorem toInt32_neg_iff (word : UInt32) : word.toInt32 < 0 ↔ 2 ^ 31 ≤ word.toNat := by
  have hlt := word.toNat_lt
  have hzero : (0 : Int32).toInt = 0 := rfl
  rw [Int32.lt_iff_toInt_lt, toInt_toInt32, hzero]
  split <;> omega

theorem toNat_neg_of_le {word : UInt32} (h : 2 ^ 31 ≤ word.toNat) :
    (-word).toNat = 2 ^ 32 - word.toNat := by
  have hsize : UInt32.size = 2 ^ 32 := rfl
  rw [UInt32.toNat_neg, hsize]
  exact Nat.mod_eq_of_lt (by omega)

/-- **`%d`** makes room for the sign. -/
theorem convertSigned_eq (word : UInt32) (convBuf : Vector UInt8 36) :
    convertSigned word convBuf =
      some (if word.toNat ≥ 2 ^ 31 then 45 :: HarambeOs.itoa (2 ^ 32 - word.toNat) 10
        else HarambeOs.itoa word.toNat 10) := by
  have hsize : convBuf.toList.length = 36 := Vector.length_toList
  rw [convertSigned]
  by_cases hneg : 2 ^ 31 ≤ word.toNat
  · have hlen := length_itoa_decimal (-word)
    have hnul := nul_notMem_itoa (r := 10) (by decide) (by decide) (-word).toNat_lt
    have hfirst : 0 < convBuf.toList.length := by omega
    have hsign : (splice convBuf.toList 0 [45]).length = 36 := by rw [length_splice hfirst, hsize]
    rw [if_pos ((toInt32_neg_iff word).mpr hneg), if_pos hneg, write_eq, if_pos hfirst,
      ← toNat_neg_of_le hneg, Option.bind_eq_bind, Option.bind_some,
      itoa_splice (by decide) (by decide) (-word).toNat_lt, hsign, if_pos (by omega),
      splice_cons hfirst, ← List.cons_append, Option.bind_some]
    refine puts_splice ?_ (Nat.zero_le _)
    rw [List.mem_cons, not_or]
    exact ⟨by decide, hnul⟩
  · have hlen := length_itoa_decimal word
    rw [if_neg (fun h => hneg ((toInt32_neg_iff word).mp h)), if_neg hneg]
    exact puts_itoa (by decide) (by decide) word.toNat_lt (by omega)

/-- **A conversion prints what it should, and every access is within its buffer.** -/
theorem convert_eq (strings : Nat → List UInt8) (alternate : Bool) (c : UInt8) (word : UInt32)
    (convBufs : ConvBufs) :
    convert strings alternate c word convBufs =
      some (conversion strings alternate c word.toNat) := by
  have hbyte : word.toUInt8 = UInt8.ofNat (word.toNat % 256) := by
    refine UInt8.toNat_inj.mp ?_
    rw [UInt32.toNat_toUInt8, UInt8.toNat_ofNat', Nat.mod_mod]
  simp only [convert, conversion, convertHexadecimal_eq, convertUnsigned_eq, convertSigned_eq,
    hbyte, Option.map_some]
  split_ifs <;> rfl

/-- **`printf` stays in its buffers**, whatever the format. -/
theorem printfLoop_eq (words : Nat → UInt32) (strings : Nat → List UInt8)
    (convBufs : Nat → ConvBufs) (percent : Option Bool) (i : Nat) (format : List UInt8) :
    printfLoop words strings convBufs percent i format =
      HarambeOs.printfLoop (fun i => (words i).toNat) strings percent i format := by
  induction format generalizing percent i with
  | nil => cases percent <;> rfl
  | cons c format ih =>
    cases percent with
    | none => simp only [printfLoop, HarambeOs.printfLoop, ih]
    | some alternate =>
      simp only [printfLoop, HarambeOs.printfLoop, ih, convert_eq, Option.bind_eq_bind,
        Option.bind_some]

/-! ## What `%#x` and `%d` print -/

/-- In base ten `itoa` writes what Lean prints. -/
theorem itoa_decimal {v : Nat} (hv : v < 2 ^ 32) : HarambeOs.itoa v 10 = bytes v.repr := by
  rw [itoa_eq_numeral (by decide) hv, bytes, Nat.repr, String.toList_ofList,
    toDigits_eq (by decide), List.map_map]
  refine List.map_congr_left fun d hd => ?_
  have hd := lt_of_mem_numeral (by decide) hd
  rw [Function.comp_apply, Nat.toNat_digitChar_of_lt_ten hd, digit, if_pos hd]

/-- **The signed numeral** of a word. -/
theorem bytes_toInt32 (word : UInt32) :
    bytes (toString word.toInt32.toInt) =
      if word.toNat ≥ 2 ^ 31 then 45 :: HarambeOs.itoa (2 ^ 32 - word.toNat) 10
        else HarambeOs.itoa word.toNat 10 := by
  have hlt := word.toNat_lt
  rw [Int.toString_eq_repr, Int.repr_eq_if, toInt_toInt32]
  by_cases hneg : 2 ^ 31 ≤ word.toNat
  · have habs : (-((word.toNat : Int) - 2 ^ 32)).toNat = 2 ^ 32 - word.toNat := by omega
    rw [if_pos hneg, if_pos hneg, if_neg (by omega), habs, itoa_decimal (by omega), bytes,
      String.toList_append, List.map_append]
    rfl
  · rw [if_neg hneg, if_neg hneg, if_pos (by omega), Int.toNat_natCast, itoa_decimal hlt]

/-- Zeros in front of a hexadecimal numeral. -/
theorem padded_itoa (word : UInt32) {s : List UInt8}
    (hs : s = List.replicate (8 - (HarambeOs.itoa word.toNat 16).length) 48 ++
      HarambeOs.itoa word.toNat 16) :
    s.length = 8 ∧ (∀ c ∈ s, isDigit c = true ∧ digitValue c < 16) ∧
      value 16 (s.map digitValue) = word.toNat := by
  subst hs
  have hlen := length_itoa_hexadecimal word
  refine ⟨?_, fun c hc => ?_, ?_⟩
  · rw [List.length_append, List.length_replicate]
    omega
  · rcases List.mem_append.mp hc with hc | hc
    · rw [List.eq_of_mem_replicate hc]
      decide
    · exact isDigit_of_mem_itoa (by decide) (by decide) word.toNat_lt hc
  · have hzero : digitValue 48 = 0 := by decide
    rw [List.map_append, List.map_replicate, hzero, value_replicate_append,
      map_digitValue_itoa (by decide) (by decide) word.toNat_lt, value_numeral]

/-- A conversion that takes its argument. -/
theorem printfLoop_convert {words : Nat → UInt32} {strings : Nat → List UInt8}
    {convBufs : Nat → ConvBufs} {alternate : Bool} {c : UInt8} {i : Nat} {s rest : List UInt8}
    (hc : c ≠ 35) (h : convert strings alternate c (words i) (convBufs i) = some (s, true)) :
    printfLoop words strings convBufs (some alternate) i (c :: rest) =
      (printfLoop words strings convBufs none (i + 1) rest).map (s ++ ·) := by
  rw [printfLoop, if_neg hc, h]
  rfl

/-- **The numbers `printf` prints.**  Wherever `%#x` stands in a format, eight hexadecimal digits
that denote the argument go out, and for `%d` the decimal numeral of the argument read as two's
complement; neither conversion touches a byte outside its `conv_buf`, whatever that held. -/
theorem printf_numbers (words : Nat → UInt32) (strings : Nat → List UInt8)
    (convBufs : Nat → ConvBufs) (i : Nat) (rest : List UInt8) :
    (∃ s, convertHexadecimal true (words i) (convBufs i).hexadecimal = some s ∧
      s.length = 8 ∧ (∀ c ∈ s, isDigit c = true ∧ digitValue c < 16) ∧
      value 16 (s.map digitValue) = (words i).toNat ∧
      printfLoop words strings convBufs none i (37 :: 35 :: 120 :: rest) =
        (printfLoop words strings convBufs none (i + 1) rest).map (s ++ ·)) ∧
    convertSigned (words i) (convBufs i).signed =
      some (bytes (toString (words i).toInt32.toInt)) ∧
    printfLoop words strings convBufs none i (37 :: 100 :: rest) =
      (printfLoop words strings convBufs none (i + 1) rest).map
        (bytes (toString (words i).toInt32.toInt) ++ ·) := by
  have hsigned := convertSigned_eq (words i) (convBufs i).signed
  rw [← bytes_toInt32] at hsigned
  have hhex := convertHexadecimal_eq true (words i) (convBufs i).hexadecimal
  obtain ⟨hlength, hdigits, hvalue⟩ := padded_itoa (words i) rfl
  refine ⟨⟨_, hhex, hlength, hdigits, hvalue, ?_⟩, hsigned, ?_⟩
  · rw [printfLoop, if_neg (by decide), if_pos rfl, printfLoop, if_pos rfl]
    refine printfLoop_convert (by decide) ?_
    rw [convert, if_neg (by decide), if_pos rfl, hhex]
    rfl
  · rw [printfLoop, if_neg (by decide), if_pos rfl]
    refine printfLoop_convert (by decide) ?_
    rw [convert, if_neg (by decide), if_neg (by decide), if_neg (by decide), if_pos rfl, hsigned]
    rfl

/-- The least value, in a buffer of garbage. -/
example : convertSigned 0x80000000 (Vector.replicate 36 0xCC) =
    some [45, 50, 49, 52, 55, 52, 56, 51, 54, 52, 56] := by decide +kernel

end InBuffer

end HarambeOs
