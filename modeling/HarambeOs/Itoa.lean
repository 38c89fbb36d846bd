import HarambeOs.Library.Buffers
import HarambeOs.Library.Numerals
import HarambeOs.Messages

/-!
# Itoa — `itoa`, byte by byte in its buffer

`itoa` puts the digits of a number into the caller's buffer, lowest place first, ends them with a
NUL and has `strrev` turn them around where they are.  The user library's `ece391_itoa` does the
same, with a `strrev` of its own.  `itoa_splice` is what either leaves behind: the numeral and a NUL
laid over the buffer, provided that there is room for them.
-/

namespace HarambeOs

open Buffers Numerals

/-! ## The functions

A buffer is the list of its bytes and a pointer a position in it.  A call that reads or writes
outside of the buffer gives no result. -/

namespace InBuffer

/-- `lookup` of `itoa`, with the NUL that ends the literal. -/
def lookup : List UInt8 :=
  [48, 49, 50, 51, 52, 53, 54, 55, 56, 57,
    65, 66, 67, 68, 69, 70, 71, 72, 73, 74, 75, 76, 77, 78, 79, 80, 81, 82, 83, 84, 85, 86, 87, 88,
    89, 90, 0]

/-- The loop of `strlen`, over the bytes that are left. -/
def strlenLoop : List UInt8 → Nat → Option Nat
  | [], _ => none
  | c :: s, len => if c != nul then strlenLoop s (len + 1) else some len

/-- `strlen`. -/
def strlen (m : List UInt8) (s : Nat) : Option Nat := strlenLoop (m.drop s) 0

/-- `ece391_strlen`. -/
def ece391Strlen (m : List UInt8) (s : Nat) : Option Nat := strlenLoop (m.drop s) 0

/-- The loop of `strrev`, with `end` called `last`.  Each round takes up two bytes of the buffer. -/
def strrevLoop (s : Nat) : Nat → Int → Int → List UInt8 → Option (List UInt8)
  | 0, _, _, _ => none
  | fuel + 1, beg, last, m =>
    if beg < last then do
      let m ← exchange m (s + beg.toNat) (s + last.toNat)
      strrevLoop s fuel (beg + 1) (last - 1) m
    else some m

/-- `strrev`.  The length less one is taken in 32 bits, and signed. -/
def strrev (m : List UInt8) (s : Nat) : Option (List UInt8) := do
  let len ← strlen m s
  strrevLoop s (m.length + 1) 0 (Int.bmod (len - 1) (2 ^ 32)) m

/-- `ece391_strrev`. -/
def ece391Strrev (m : List UInt8) (s : Nat) : Option (List UInt8) := do
  let len ← ece391Strlen m s
  let last := Int.bmod (len - 1) (2 ^ 32)
  if last ≤ 0 then some m else strrevLoop s (m.length + 1) 0 last m

/-- The loop of `itoa`: the digits from `newbuf` on, and where they end.  Each round takes up a byte
of the buffer.  The radix is the unsigned number that it is converted to. -/
def itoaLoop (radix : Nat) : Nat → Nat → Nat → List UInt8 → Option (Nat × List UInt8)
  | 0, _, _, _ => none
  | fuel + 1, newval, newbuf, m =>
    if newval > 0 then
      if radix = 0 then none
      else do
        let c ← lookup[newval % radix]?
        let m ← write m newbuf c
        itoaLoop radix fuel (newval / radix) (newbuf + 1) m
    else some (newbuf, m)

/-- The body of both `itoa`s, with the reversal at its end. -/
def itoaWith (reversal : List UInt8 → Nat → Option (List UInt8)) (m : List UInt8)
    (buf value radix : Nat) : Option (List UInt8) :=
  if value = 0 then do
    let m ← write m buf 48
    write m (buf + 1) nul
  else do
    let (newbuf, m) ← itoaLoop radix (m.length + 1) value buf m
    let m ← write m newbuf nul
    reversal m buf

/-- `itoa`. -/
def itoa (m : List UInt8) (buf value radix : Nat) : Option (List UInt8) :=
  itoaWith strrev m buf value radix

/-- `ece391_itoa`. -/
def ece391Itoa (m : List UInt8) (buf value radix : Nat) : Option (List UInt8) :=
  itoaWith ece391Strrev m buf value radix

/-- The bytes that `puts` hands to `putc`, of those that are left. -/
def putsLoop : List UInt8 → Option (List UInt8)
  | [] => none
  | c :: s => if c != nul then (putsLoop s).map (c :: ·) else some []

/-- `puts`. -/
def puts (m : List UInt8) (s : Nat) : Option (List UInt8) := putsLoop (m.drop s)

/-! ## Strings in a buffer -/

variable {m s : List UInt8} {p : Nat}

theorem strlenLoop_append (hs : nul ∉ s) (rest : List UInt8) (len : Nat) :
    strlenLoop (s ++ nul :: rest) len = some (len + s.length) := by
  induction s generalizing len with
  | nil => rfl
  | cons c s ih =>
    rw [List.mem_cons, not_or] at hs
    obtain ⟨hc, hs⟩ := hs
    rw [List.cons_append, strlenLoop, if_pos (bne_iff_ne.mpr (Ne.symm hc)), ih hs, List.length_cons]
    congr 1
    omega

theorem putsLoop_append (hs : nul ∉ s) (rest : List UInt8) :
    putsLoop (s ++ nul :: rest) = some s := by
  induction s with
  | nil => rfl
  | cons c s ih =>
    rw [List.mem_cons, not_or] at hs
    obtain ⟨hc, hs⟩ := hs
    rw [List.cons_append, putsLoop, if_pos (bne_iff_ne.mpr (Ne.symm hc)), ih hs, Option.map_some]

/-- A string laid over the buffer, with the NUL after it. -/
theorem drop_splice_nul (hp : p ≤ m.length) :
    (splice m p (s ++ [nul])).drop p = s ++ nul :: m.drop (p + (s ++ [nul]).length) := by
  rw [drop_splice hp, List.append_assoc, List.singleton_append]

theorem strlen_splice (hs : nul ∉ s) (hp : p ≤ m.length) :
    strlen (splice m p (s ++ [nul])) p = some s.length := by
  rw [strlen, drop_splice_nul hp, strlenLoop_append hs, Nat.zero_add]

theorem puts_splice (hs : nul ∉ s) (hp : p ≤ m.length) :
    puts (splice m p (s ++ [nul])) p = some s := by
  rw [puts, drop_splice_nul hp, putsLoop_append hs]

/-! ## Reversal in place -/

/-- **The loop turns around what lies between its indices.**  The stretch loses a byte at either end
in each round, down to one byte or none. -/
theorem strrevLoop_eq {l r : List UInt8} {fuel beg : Nat} (hl : l.length = p + beg)
    (hfuel : s.length < fuel) :
    strrevLoop p fuel beg (beg + s.length - 1) (l ++ s ++ r) = some (l ++ s.reverse ++ r) := by
  induction s using List.bidirectionalRec generalizing l r fuel beg with
  | nil =>
    obtain ⟨fuel, rfl⟩ := Nat.exists_eq_add_one_of_ne_zero (Nat.ne_of_gt hfuel)
    rw [strrevLoop, if_neg (by rw [List.length_nil]; omega), List.reverse_nil]
  | singleton a =>
    obtain ⟨fuel, rfl⟩ := Nat.exists_eq_add_one_of_ne_zero (Nat.ne_of_gt (Nat.zero_lt_of_lt hfuel))
    rw [strrevLoop, if_neg (by rw [List.length_singleton]; omega), List.reverse_singleton]
  | cons_append a s b ih =>
    obtain ⟨fuel, rfl⟩ := Nat.exists_eq_add_one_of_ne_zero (Nat.ne_of_gt (Nat.zero_lt_of_lt hfuel))
    have hlen : (a :: (s ++ [b])).length = s.length + 2 := by
      rw [List.length_cons, List.length_append, List.length_singleton]
    have hfirst : p + ((beg : Int)).toNat = l.length := by omega
    have hlast : p + ((beg : Int) + (a :: (s ++ [b])).length - 1).toNat =
        l.length + s.length + 1 := by
      rw [hlen]
      omega
    have hcut (x y : UInt8) : l ++ x :: (s ++ [y]) ++ r = l ++ x :: (s ++ y :: r) := by simp
    have hindices : (beg : Int) + 1 = (beg + 1 : Nat) ∧
        (beg : Int) + (a :: (s ++ [b])).length - 1 - 1 = (beg + 1 : Nat) + s.length - 1 := by
      rw [hlen]
      omega
    rw [strrevLoop, if_pos (by rw [hlen]; omega), hfirst, hlast, hcut, exchange_append,
      Option.bind_eq_bind, Option.bind_some, hindices.1, hindices.2]
    have hinner : strrevLoop p fuel (beg + 1 : Nat) ((beg + 1 : Nat) + s.length - 1)
        ((l ++ [b]) ++ s ++ (a :: r)) = some ((l ++ [b]) ++ s.reverse ++ (a :: r)) :=
      ih (by rw [List.length_append, List.length_singleton]; omega) (by omega)
    simpa using hinner

/-- **`strrev` turns a string around where it lies.** -/
theorem strrev_splice (hs : nul ∉ s) (hroom : p + s.length < m.length)
    (hlen : s.length ≤ 2 ^ 31) :
    strrev (splice m p (s ++ [nul])) p = some (splice m p (s.reverse ++ [nul])) := by
  have hp : p ≤ m.length := by omega
  have htake : (m.take p).length = p + 0 := List.length_take_of_le hp
  have hlast : Int.bmod ((s.length : Int) - 1) (2 ^ 32) = (0 : Nat) + s.length - 1 := by
    rw [Int.bmod_eq_of_le (by omega) (by omega)]
    omega
  have hfit : p + (s ++ [nul]).length ≤ m.length := by
    rw [List.length_append, List.length_singleton]
    omega
  have hcut (t : List UInt8) (ht : t.length = s.length) :
      splice m p (t ++ [nul]) = m.take p ++ t ++ (nul :: m.drop (p + s.length + 1)) := by
    rw [splice, List.length_append, ht, List.length_singleton, ← Nat.add_assoc]
    simp only [List.append_assoc, List.singleton_append]
  rw [strrev, strlen_splice hs hp, Option.bind_eq_bind, Option.bind_some, hlast,
    length_splice hfit, hcut s rfl, hcut s.reverse List.length_reverse]
  exact strrevLoop_eq htake (by omega)

/-- The two reversals are one. -/
theorem ece391Strrev_eq (m : List UInt8) (s : Nat) : ece391Strrev m s = strrev m s := by
  have hlen : ece391Strlen m s = strlen m s := rfl
  rw [ece391Strrev, strrev, hlen]
  cases strlen m s with
  | none => rfl
  | some len =>
    rw [Option.bind_eq_bind, Option.bind_some, Option.bind_some]
    dsimp only
    split
    · next h => rw [strrevLoop, if_neg (by omega)]
    · rfl

theorem ece391Itoa_eq (m : List UInt8) (buf value radix : Nat) :
    ece391Itoa m buf value radix = itoa m buf value radix := by
  rw [ece391Itoa, itoa, funext₂ ece391Strrev_eq]

end InBuffer

/-! ## Digits -/

/-- One of `0`–`9` and `A`–`Z`. -/
def isDigit (c : UInt8) : Bool := (48 ≤ c && c ≤ 57) || (65 ≤ c && c ≤ 90)

/-- What a digit counts for. -/
def digitValue (c : UInt8) : Nat := if c ≤ 57 then c.toNat - 48 else c.toNat - 55

theorem digit_spec {i : Nat} (h : i < 36) :
    isDigit (digit i) = true ∧ digitValue (digit i) = i ∧ InBuffer.lookup[i]? = some (digit i) := by
  have hall : ∀ i : Fin 36, isDigit (digit i) = true ∧ digitValue (digit i) = i ∧
      InBuffer.lookup[(i : Nat)]? = some (digit i) := by decide
  exact hall ⟨i, h⟩

/-- No digit is the NUL. -/
theorem ne_nul_of_isDigit {c : UInt8} (h : isDigit c = true) : c ≠ nul := by
  rintro rfl
  revert h
  decide

section Radix

variable {r : Nat} (hr : 2 ≤ r) (hr' : r ≤ 36)

include hr

/-- With 32 rounds `itoaLoop` finds every digit of a 32-bit number. -/
theorem itoaLoop_eq {n v : Nat} (hv : v < 2 ^ n) :
    itoaLoop r n v = (Nat.digits r v).map digit := by
  induction n generalizing v with
  | zero =>
    have hzero : v = 0 := by omega
    rw [itoaLoop, hzero, Nat.digits_zero, List.map_nil]
  | succ n ih =>
    rw [itoaLoop]
    split
    · next hpos =>
      have hq : v / r < 2 ^ n := by
        rw [Nat.div_lt_iff_lt_mul (by omega)]
        calc v < 2 ^ n * 2 := by rwa [← Nat.pow_succ]
          _ ≤ 2 ^ n * r := Nat.mul_le_mul_left _ hr
      rw [ih hq, Nat.digits_def' hr hpos, List.map_cons]
    · next hpos =>
      have hzero : v = 0 := by omega
      rw [hzero, Nat.digits_zero, List.map_nil]

/-- **`itoa` writes the numeral.** -/
theorem itoa_eq_numeral {v : Nat} (hv : v < 2 ^ 32) : itoa v r = (numeral r v).map digit := by
  rw [itoa]
  split
  · next h => rw [h, numeral_zero]; rfl
  · next h => rw [numeral_of_ne_zero h, List.map_reverse, itoaLoop_eq hr hv]

theorem length_itoa_pos {v : Nat} (hv : v < 2 ^ 32) : 0 < (itoa v r).length := by
  rw [itoa_eq_numeral hr hv, List.length_map]
  exact List.length_pos_of_ne_nil numeral_ne_nil

theorem length_itoa_le {v k : Nat} (hv : v < 2 ^ 32) (hk : 0 < k) (h : v < r ^ k) :
    (itoa v r).length ≤ k := by
  rw [itoa_eq_numeral hr hv, List.length_map]
  exact length_numeral_le hr hk h

include hr'

theorem isDigit_of_mem_itoa {v : Nat} (hv : v < 2 ^ 32) {c : UInt8} (hc : c ∈ itoa v r) :
    isDigit c = true ∧ digitValue c < r := by
  rw [itoa_eq_numeral hr hv] at hc
  obtain ⟨d, hd, rfl⟩ := List.mem_map.mp hc
  have hlt := lt_of_mem_numeral hr hd
  obtain ⟨hdigit, hvalue, -⟩ := digit_spec (Nat.lt_of_lt_of_le hlt hr')
  exact ⟨hdigit, hvalue.symm ▸ hlt⟩

theorem nul_notMem_itoa {v : Nat} (hv : v < 2 ^ 32) : nul ∉ itoa v r := fun h =>
  ne_nul_of_isDigit (isDigit_of_mem_itoa hr hr' hv h).1 rfl

theorem map_digitValue_itoa {v : Nat} (hv : v < 2 ^ 32) :
    (itoa v r).map digitValue = numeral r v := by
  rw [itoa_eq_numeral hr hv, List.map_map]
  refine (List.map_congr_left fun d hd => ?_).trans (List.map_id _)
  exact (digit_spec (Nat.lt_of_lt_of_le (lt_of_mem_numeral hr hd) hr')).2.1

/-! ## `itoa` in its buffer -/

namespace InBuffer

/-- **The digits and the NUL** go down one after the other, as far as there is room. -/
theorem itoaLoop_write {fuel v p : Nat} {m : List UInt8} (hfuel : m.length < fuel + p) :
    ((itoaLoop r fuel v p m).bind fun (newbuf, m) => write m newbuf nul) =
      if p + (Nat.digits r v).length < m.length
      then some (splice m p ((Nat.digits r v).map digit ++ [nul])) else none := by
  induction fuel generalizing v p m with
  | zero => rw [itoaLoop, Option.bind_none, if_neg (by omega)]
  | succ fuel ih =>
    rw [itoaLoop]
    split
    · next hpos =>
      have hlookup := (digit_spec (Nat.lt_of_lt_of_le (Nat.mod_lt v (by omega : r > 0)) hr')).2.2
      rw [if_neg (by omega), hlookup, Option.bind_eq_bind, Option.bind_some, write_eq,
        Nat.digits_def' hr hpos, List.length_cons]
      by_cases hp : p < m.length
      · have hlen : (splice m p [digit (v % r)]).length = m.length := length_splice hp
        rw [if_pos hp, Option.bind_eq_bind, Option.bind_some, ih (by omega), hlen, splice_cons hp,
          List.map_cons, List.cons_append]
        exact if_congr (by omega) rfl rfl
      · rw [if_neg hp, if_neg (by omega)]
        rfl
    · next hpos =>
      have hzero : v = 0 := by omega
      rw [Option.bind_some]
      dsimp only
      rw [write_eq, hzero, Nat.digits_zero, List.map_nil, List.nil_append]
      rfl

/-- **What `itoa` leaves behind**: its numeral and a NUL, where there is room for them. -/
theorem itoa_splice {v : Nat} (hv : v < 2 ^ 32) (m : List UInt8) (buf : Nat) :
    itoa m buf v r = if buf + (HarambeOs.itoa v r).length < m.length
      then some (splice m buf (HarambeOs.itoa v r ++ [nul])) else none := by
  rw [itoa, itoaWith]
  split
  · next h =>
    have hstring : HarambeOs.itoa v r = [48] := if_pos h
    rw [hstring, write_eq, List.length_singleton]
    by_cases hbuf : buf < m.length
    · have hlen : (splice m buf [(48 : UInt8)]).length = m.length := length_splice hbuf
      rw [if_pos hbuf, Option.bind_eq_bind, Option.bind_some, write_eq, hlen, splice_cons hbuf]
      rfl
    · rw [if_neg hbuf, if_neg (by omega)]
      rfl
  · next h =>
    have hstring : HarambeOs.itoa v r = ((Nat.digits r v).map digit).reverse := by
      rw [itoa_eq_numeral hr hv, numeral_of_ne_zero h, List.map_reverse]
    have hnul : nul ∉ (Nat.digits r v).map digit := by
      rw [← List.mem_reverse, ← hstring]
      exact nul_notMem_itoa hr hr' hv
    have hdigits : ((Nat.digits r v).map digit).length ≤ 32 := by
      rw [List.length_map, Nat.digits_length_le_iff hr]
      exact Nat.lt_of_lt_of_le hv (Nat.pow_le_pow_left hr 32)
    have hloop := itoaLoop_write hr hr' (v := v) (by omega : m.length < m.length + 1 + buf)
    rw [hstring, List.length_reverse, List.length_map]
    calc (itoaLoop r (m.length + 1) v buf m >>= fun (newbuf, m) =>
          write m newbuf nul >>= fun m => strrev m buf)
      _ = ((itoaLoop r (m.length + 1) v buf m).bind fun (newbuf, m) => write m newbuf nul).bind
            (strrev · buf) := (Option.bind_assoc ..).symm
      _ = _ := by
        rw [hloop]
        split
        · next hroom =>
          rw [Option.bind_some]
          exact strrev_splice hnul (by rwa [List.length_map]) (by omega)
        · rfl

/-- The string that `itoa` leaves behind, read back. -/
theorem puts_of_itoa {v : Nat} (hv : v < 2 ^ 32) {m m' : List UInt8} {buf : Nat}
    (h : itoa m buf v r = some m') : puts m' buf = some (HarambeOs.itoa v r) := by
  rw [itoa_splice hr hr' hv] at h
  split at h
  · next hroom =>
    rw [← Option.some.inj h]
    exact puts_splice (nul_notMem_itoa hr hr' hv) (by omega)
  · cases h

end InBuffer

end Radix

namespace InBuffer

/-- **`itoa` writes the numeral of its value.**  For a radix from 2 to 36 the string is one of at
most 32 digits below the radix, begins with a zero only for 0, and denotes the value; it and its NUL
are all that is written, if there is room for them.  So the value can be read off the string, and
the user library's `itoa` has the same effect. -/
theorem itoa_writes_numeral {r : Nat} (hr : 2 ≤ r) (hr' : r ≤ 36) :
    (∀ v : UInt32, ∃ s : List UInt8,
      (∀ (m : List UInt8) (buf : Nat), itoa m buf v.toNat r =
        if buf + s.length < m.length then some (splice m buf (s ++ [nul])) else none) ∧
      0 < s.length ∧ s.length ≤ 32 ∧ (∀ c ∈ s, isDigit c = true ∧ digitValue c < r) ∧
      (s.head? = some 48 → v = 0) ∧ value r (s.map digitValue) = v.toNat) ∧
    (∀ (v₁ v₂ : UInt32) (m₁ m₂ m₁' m₂' : List UInt8) (buf₁ buf₂ : Nat),
      itoa m₁ buf₁ v₁.toNat r = some m₁' → itoa m₂ buf₂ v₂.toNat r = some m₂' →
      puts m₁' buf₁ = puts m₂' buf₂ → v₁ = v₂) ∧
    ∀ (v : UInt32) (radix : Nat) (m : List UInt8) (buf : Nat),
      ece391Itoa m buf v.toNat radix = itoa m buf v.toNat radix := by
  have hvalue (v : UInt32) : value r ((HarambeOs.itoa v.toNat r).map digitValue) = v.toNat := by
    rw [map_digitValue_itoa hr hr' v.toNat_lt, value_numeral]
  refine ⟨fun v => ⟨HarambeOs.itoa v.toNat r, fun m buf => ?_, ?_, ?_, fun c hc => ?_,
    fun hhead => ?_, hvalue v⟩, fun v₁ v₂ m₁ m₂ m₁' m₂' buf₁ buf₂ h₁ h₂ hputs => ?_,
    fun v radix m buf => ?_⟩
  · exact itoa_splice hr hr' v.toNat_lt m buf
  · exact length_itoa_pos hr v.toNat_lt
  · exact length_itoa_le hr v.toNat_lt (by decide)
      (Nat.lt_of_lt_of_le v.toNat_lt (Nat.pow_le_pow_left hr 32))
  · exact isDigit_of_mem_itoa hr hr' v.toNat_lt hc
  · have hzero : (numeral r v.toNat).head? = some 0 := by
      rw [← map_digitValue_itoa hr hr' v.toNat_lt, List.head?_map, hhead]
      rfl
    exact UInt32.toNat_inj.mp (eq_zero_of_head? hzero)
  · rw [puts_of_itoa hr hr' v₁.toNat_lt h₁, puts_of_itoa hr hr' v₂.toNat_lt h₂] at hputs
    refine UInt32.toNat_inj.mp ?_
    rw [← hvalue v₁, Option.some.inj hputs, hvalue v₂]
  · exact ece391Itoa_eq m buf v.toNat radix

/-- In hexadecimal, in a buffer with no byte to spare. -/
theorem itoa_writes_numeral_hex :
    (2 ≤ 16 ∧ 16 ≤ 36) ∧
    itoa (List.replicate 6 255) 1 0xCAFE 16 = some [255, 67, 65, 70, 69, 0] ∧
    ∀ v₁ v₂ m₁ m₂ m₁' m₂' buf₁ buf₂, itoa m₁ buf₁ (UInt32.toNat v₁) 16 = some m₁' →
      itoa m₂ buf₂ (UInt32.toNat v₂) 16 = some m₂' → puts m₁' buf₁ = puts m₂' buf₂ → v₁ = v₂ :=
  ⟨by decide, by decide, (itoa_writes_numeral (r := 16) (by decide) (by decide)).2.1⟩

end InBuffer

end HarambeOs
