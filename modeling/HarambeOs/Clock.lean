import HarambeOs.Machine

/-!
# Clock — the rate the clock is set to

The rate is kept twice: in the low nibble of register A, and in the variable `rate`.  `rtc_open`
sets only the register.  `rtc_write` sets the variable if it knows the frequency, and then the
register from the variable, also when it did not know the frequency: such a call leaves the rate
alone exactly when the two agree (`obeys_iff_keeps`), and **`Rtc.calls_obey_iff`** says so of every
sequence of calls.
-/

namespace HarambeOs

/-- The calls that write register A. -/
inductive RtcCall
  | rtcOpen
  | rtcWrite (freq : Nat) (nbytes : Int)

/-- A frequency the clock can be set to. -/
def Accepted (freq : Nat) : Prop := freq.isPowerOfTwo ∧ 2 ≤ freq ∧ freq ≤ 1024

/-! ## The switch of `rtc_write` -/

theorem accepted_iff {freq : Nat} : Accepted freq ↔ ∃ j, 1 ≤ j ∧ j ≤ 10 ∧ freq = 2 ^ j := by
  have hpow (i j : Nat) : 2 ^ i ≤ 2 ^ j ↔ i ≤ j := Nat.pow_le_pow_iff_right (by decide)
  constructor
  · rintro ⟨⟨j, rfl⟩, h₁, h₂⟩
    exact ⟨j, (hpow 1 j).mp h₁, (hpow j 10).mp h₂, rfl⟩
  · rintro ⟨j, h₁, h₂, rfl⟩
    exact ⟨⟨j, rfl⟩, (hpow 1 j).mpr h₁, (hpow j 10).mpr h₂⟩

/-- The switch knows `2 ^ j` for `j` from 1 to 10. -/
theorem rateOf_eq_some_iff {freq : Nat} {rate : UInt8} :
    rateOf freq = some rate ↔
      ∃ j, (1 ≤ j ∧ j ≤ 10) ∧ freq = 2 ^ j ∧ rate = UInt8.ofNat (16 - j) := by
  constructor
  · intro h
    unfold rateOf at h
    split at h
    · exact ⟨10, by omega, rfl, (Option.some.inj h).symm⟩
    · exact ⟨9, by omega, rfl, (Option.some.inj h).symm⟩
    · exact ⟨8, by omega, rfl, (Option.some.inj h).symm⟩
    · exact ⟨7, by omega, rfl, (Option.some.inj h).symm⟩
    · exact ⟨6, by omega, rfl, (Option.some.inj h).symm⟩
    · exact ⟨5, by omega, rfl, (Option.some.inj h).symm⟩
    · exact ⟨4, by omega, rfl, (Option.some.inj h).symm⟩
    · exact ⟨3, by omega, rfl, (Option.some.inj h).symm⟩
    · exact ⟨2, by omega, rfl, (Option.some.inj h).symm⟩
    · exact ⟨1, by omega, rfl, (Option.some.inj h).symm⟩
    · cases h
  · rintro ⟨j, ⟨h₁, h₂⟩, rfl, rfl⟩
    interval_cases j <;> rfl

/-- A frequency has a rate exactly when the clock can be set to it. -/
theorem rateOf_isSome_iff {freq : Nat} : (rateOf freq).isSome ↔ Accepted freq := by
  rw [Option.isSome_iff_exists, accepted_iff]
  constructor
  · rintro ⟨rate, h⟩
    obtain ⟨j, ⟨h₁, h₂⟩, hfreq, -⟩ := rateOf_eq_some_iff.mp h
    exact ⟨j, h₁, h₂, hfreq⟩
  · rintro ⟨j, h₁, h₂, hfreq⟩
    exact ⟨_, rateOf_eq_some_iff.mpr ⟨j, ⟨h₁, h₂⟩, hfreq, rfl⟩⟩

/-- The rate of a frequency is a nibble, and gives the frequency back. -/
theorem rateOf_spec {freq : Nat} {rate : UInt8} (h : rateOf freq = some rate) :
    rate.toNat < 16 ∧ 32768 >>> (rate.toNat - 1) = freq := by
  obtain ⟨j, ⟨h₁, h₂⟩, rfl, rfl⟩ := rateOf_eq_some_iff.mp h
  interval_cases j <;> exact ⟨by decide, rfl⟩

namespace Rtc

variable {r : Rtc} {c : RtcCall}

/-! ## The nibbles of register A -/

/-- The rate register A holds. -/
def low (r : Rtc) : Nat := r.registerA.toNat % 16

/-- The rest of register A. -/
def high (r : Rtc) : Nat := r.registerA.toNat / 16

theorem registerA_setRate {rate : UInt8} (h : rate.toNat < 16) (r : Rtc) :
    (r.setRate rate).registerA.toNat = 16 * r.high + rate.toNat := by
  have hmask : ∀ a < 256, a &&& 0xF0 = 2 ^ 4 * (a / 16) := by decide +kernel
  rw [setRate, UInt8.toNat_or, UInt8.toNat_and]
  refine Eq.trans (congrArg (· ||| rate.toNat) (hmask _ r.registerA.toNat_lt)) ?_
  exact (Nat.two_pow_add_eq_or_of_lt h _).symm

theorem low_setRate {rate : UInt8} (h : rate.toNat < 16) (r : Rtc) :
    (r.setRate rate).low = rate.toNat := by
  rw [low, registerA_setRate h]
  omega

theorem high_setRate {rate : UInt8} (h : rate.toNat < 16) (r : Rtc) :
    (r.setRate rate).high = r.high := by
  rw [high, registerA_setRate h]
  omega

/-! ## One call -/

/-- The clock after a call. -/
def after (r : Rtc) : RtcCall → Rtc
  | .rtcOpen => r.rtcOpen
  | .rtcWrite freq nbytes => (r.rtcWrite freq nbytes).1

/-- What a call is to do: an open sets the rate 15, a write of an accepted frequency its rate, any
other write nothing; and no call touches the rest of register A. -/
def Obeys (r : Rtc) (c : RtcCall) : Prop :=
  (r.after c).high = r.high ∧
    match c with
    | .rtcOpen => (r.after c).low = 15
    | .rtcWrite freq nbytes =>
      (nbytes = 4 ∧ Accepted freq → 32768 >>> ((r.after c).low - 1) = freq) ∧
        (¬ (nbytes = 4 ∧ Accepted freq) → (r.after c).low = r.low)

/-- A write of four bytes with a frequency the clock cannot be set to finds the variable in
agreement with the register. -/
def Keeps (r : Rtc) : RtcCall → Prop
  | .rtcOpen => True
  | .rtcWrite freq nbytes => nbytes = 4 → ¬ Accepted freq → r.rate.toNat = r.low

theorem after_rtcWrite_of_ne {freq : Nat} {nbytes : Int} (h : nbytes ≠ 4) :
    r.after (.rtcWrite freq nbytes) = r := by
  rw [after, rtcWrite, if_pos h]

theorem after_rtcWrite_of_some {freq : Nat} {rate : UInt8} (h : rateOf freq = some rate) :
    r.after (.rtcWrite freq 4) = { r with rate := rate }.setRate rate := by
  rw [after, rtcWrite, if_neg (not_not.mpr rfl), h]
  rfl

theorem after_rtcWrite_of_none {freq : Nat} (h : rateOf freq = none) :
    r.after (.rtcWrite freq 4) = r.setRate r.rate := by
  rw [after, rtcWrite, if_neg (not_not.mpr rfl), h]
  rfl

/-- The variable only ever holds a nibble. -/
theorem rate_after (h : r.rate.toNat < 16) (c : RtcCall) : (r.after c).rate.toNat < 16 := by
  cases c with
  | rtcOpen => exact h
  | rtcWrite freq nbytes =>
    rcases ne_or_eq nbytes 4 with hn | rfl
    · rwa [after_rtcWrite_of_ne hn]
    cases hf : rateOf freq with
    | none => rwa [after_rtcWrite_of_none hf]
    | some rate =>
      rw [after_rtcWrite_of_some hf]
      exact (rateOf_spec hf).1

/-- **One call** does what it is to do exactly when it keeps to `Keeps`. -/
theorem obeys_iff_keeps (h : r.rate.toNat < 16) (c : RtcCall) : r.Obeys c ↔ r.Keeps c := by
  cases c with
  | rtcOpen =>
    have h15 : (15 : UInt8).toNat < 16 := by decide
    exact iff_of_true ⟨high_setRate h15 r, low_setRate h15 r⟩ trivial
  | rtcWrite freq nbytes =>
    rcases ne_or_eq nbytes 4 with hn | rfl
    · refine iff_of_true ?_ fun h4 => absurd h4 hn
      rw [Obeys, after_rtcWrite_of_ne hn]
      exact ⟨rfl, fun h4 => absurd h4.1 hn, fun _ => rfl⟩
    cases hf : rateOf freq with
    | some rate =>
      obtain ⟨hrate, hfreq⟩ := rateOf_spec hf
      have hacc : Accepted freq := rateOf_isSome_iff.mp (hf ▸ rfl)
      refine iff_of_true ?_ fun _ hacc' => absurd hacc hacc'
      rw [Obeys, after_rtcWrite_of_some hf]
      refine ⟨high_setRate hrate _, fun _ => ?_, fun h4 => absurd ⟨rfl, hacc⟩ h4⟩
      rw [low_setRate hrate]
      exact hfreq
    | none =>
      have hacc : ¬ Accepted freq := by
        rw [← rateOf_isSome_iff, hf]
        exact Bool.false_ne_true
      rw [Obeys, after_rtcWrite_of_none hf]
      simp only [high_setRate h, low_setRate h]
      constructor
      · intro ho _ _
        exact ho.2.2 fun h4 => hacc h4.2
      · intro hk
        exact ⟨trivial, fun h4 => absurd h4.2 hacc, fun _ => hk rfl hacc⟩

/-! ## Sequences of calls -/

/-- The clock as a machine: every call completes. -/
def step (r : Rtc) (c : RtcCall) : Option Rtc := some (r.after c)

/-- **The rate of the clock.**  From any content of register A, with the variable at its initial
value: all calls of a sequence do what they are to do exactly when no call writes a frequency the
clock cannot be set to while the variable and the register disagree. -/
theorem calls_obey_iff (registerA : UInt8) (cs : List RtcCall) :
    Runs.Guarded step Obeys ⟨0, registerA⟩ cs ↔ Runs.Guarded step Keeps ⟨0, registerA⟩ cs := by
  refine Runs.guarded_congr (I := fun r => r.rate.toNat < 16) ?_ ?_ (show 0 < 16 by decide) cs
  · intro r c r' hr hs
    rw [← Option.some.inj hs]
    exact rate_after hr c
  · intro r c hr
    exact obeys_iff_keeps hr c

/-- Opened, then written with a frequency it does not know: the rate goes from 15 to 0. -/
theorem rtcWrite_resets_rate :
    ¬ Runs.Guarded step Obeys ⟨0, 0x20⟩ [.rtcOpen, .rtcWrite 3 4] := by
  intro h
  obtain ⟨-, hw⟩ := h _ rfl
  have hacc : ¬ Accepted 3 := by
    rw [← rateOf_isSome_iff]
    decide
  have hlow := (hw _ rfl).1.2.2 fun h4 => hacc h4.2
  exact absurd hlow (by decide)

end Rtc

end HarambeOs
