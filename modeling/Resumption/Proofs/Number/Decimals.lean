import Mathlib
import Resumption.Number.Shortest
import Resumption.Proofs.Text.Words

/-!
# Decimal text tells floating point values apart

**Intervals.** The reals that read back as a positive finite value form an interval (`Target.Reads`).
The intervals of two values share no point (`reads_unique`): neighbours meet in the middle, and of two
patterns next to each other exactly one is even.

**Digits.** The grids become narrow enough for a neighbour of the value to lie in its interval, so the
search ends with one (`search_reads`); without zeros at its end it is the `shortest` decimal.

**Text.** The layout keeps the digits and the point (`layout_inj`). So two patterns with the same text
are the same, or neither is a number (`text_inj`).
-/

namespace Resumption.Number.Shortest

open Ieee

/-! ## Intervals -/

section

variable {f : Format} {bits bits' : Nat}

/-- The fields of a pattern without a sign. -/
theorem fields {exponent fraction : Nat} (hfraction : fraction < 2 ^ f.fractionBits)
    (hsign : 2 ^ f.fractionBits * exponent + fraction < f.signBit) :
    f.fraction (2 ^ f.fractionBits * exponent + fraction) = fraction ∧
      f.shift (2 ^ f.fractionBits * exponent + fraction) = exponent - 1 ∧
      f.magnitude (2 ^ f.fractionBits * exponent + fraction) =
        if exponent = 0 then fraction else (2 ^ f.fractionBits + fraction) * 2 ^ (exponent - 1) := by
  have hpos : 0 < 2 ^ f.fractionBits := Nat.two_pow_pos _
  have hdiv : (2 ^ f.fractionBits * exponent + fraction) / 2 ^ f.fractionBits = exponent := by
    rw [Nat.mul_add_div hpos, Nat.div_eq_of_lt hfraction, Nat.add_zero]
  have hmod : (2 ^ f.fractionBits * exponent + fraction) % 2 ^ f.fractionBits = fraction := by
    rw [Nat.mul_add_mod, Nat.mod_eq_of_lt hfraction]
  have hfields : f.fraction (2 ^ f.fractionBits * exponent + fraction) = fraction := by
    rw [Format.fraction, Nat.one_shiftLeft, hmod]
  refine ⟨hfields, ?_, ?_⟩
  · rw [Format.shift, Format.withoutSign, Nat.mod_eq_of_lt hsign, Nat.shiftRight_eq_div_pow, hdiv]
  · simp only [Format.magnitude, hfields, Format.withoutSign, Nat.mod_eq_of_lt hsign,
      Nat.shiftRight_eq_div_pow, Nat.one_shiftLeft, Nat.shiftLeft_eq _ (exponent - 1), hdiv]

/-- A pattern is made of its fields. -/
theorem exists_fields (f : Format) (bits : Nat) : ∃ exponent fraction,
    fraction < 2 ^ f.fractionBits ∧ bits = 2 ^ f.fractionBits * exponent + fraction :=
  ⟨bits / 2 ^ f.fractionBits, bits % 2 ^ f.fractionBits, Nat.mod_lt _ (Nat.two_pow_pos _),
    (Nat.div_add_mod bits _).symm⟩

/-- From one pattern to the next the value grows by the spacing, and the next one looks half as far
back. -/
theorem succ_spacing (hsign : bits + 1 < f.signBit) :
    f.magnitude (bits + 1) = f.magnitude bits + 2 ^ f.shift bits ∧
      (Target.ofBits f (bits + 1)).low = 2 * 2 ^ f.shift bits := by
  obtain ⟨e, t, ht, rfl⟩ := exists_fields f bits
  obtain ⟨-, hshift, hmagnitude⟩ := fields ht (Nat.lt_of_succ_lt hsign)
  by_cases hcarry : t + 1 < 2 ^ f.fractionBits
  · -- the same binade
    obtain ⟨hfraction', hshift', hmagnitude'⟩ := @fields f e (t + 1) hcarry hsign
    rw [Nat.add_assoc]
    simp only [Target.ofBits, hfraction', hshift', hmagnitude', hshift, hmagnitude, Nat.one_shiftLeft]
    constructor
    · cases e with
      | zero => simp
      | succ e =>
        simp only [Nat.succ_ne_zero, if_false, ← Nat.add_assoc]
        rw [Nat.succ_mul]
    · simp
  · -- the first pattern of the next binade
    obtain ⟨room, hroom⟩ : ∃ room, 2 ^ f.fractionBits = room + 1 :=
      ⟨2 ^ f.fractionBits - 1, (Nat.succ_pred_eq_of_pos (Nat.two_pow_pos _)).symm⟩
    obtain rfl : t = room := by omega
    have hnext : 2 ^ f.fractionBits * e + t + 1 = 2 ^ f.fractionBits * (e + 1) + 0 := by
      rw [Nat.mul_succ]
      omega
    rw [hnext] at hsign ⊢
    obtain ⟨hfraction', hshift', hmagnitude'⟩ := fields (Nat.two_pow_pos _) hsign
    simp only [Target.ofBits, hfraction', hshift', hmagnitude', hshift, hmagnitude, Nat.succ_ne_zero,
      if_false, Nat.add_sub_cancel, Nat.one_shiftLeft]
    cases e with
    | zero => simp [hroom]
    | succ e =>
      simp only [hroom, Nat.succ_ne_zero, if_false, Nat.add_sub_cancel, Nat.pow_succ]
      constructor
      · ring
      · simp [Nat.mul_comm]

/-- Where the interval of a pattern ends, that of the next one begins. -/
theorem interval_succ (hsign : bits + 1 < f.signBit) :
    (Target.ofBits f (bits + 1)).num =
      (Target.ofBits f bits).num + (Target.ofBits f bits).high + (Target.ofBits f (bits + 1)).low := by
  obtain ⟨hmagnitude, hlow⟩ := succ_spacing hsign
  rw [hlow]
  simp only [Target.ofBits, hmagnitude, Nat.one_shiftLeft]
  ring

theorem low_bounds (f : Format) (bits : Nat) :
    2 ^ f.shift bits ≤ (Target.ofBits f bits).low ∧
      (Target.ofBits f bits).low ≤ 2 * 2 ^ f.shift bits := by
  simp only [Target.ofBits, Nat.one_shiftLeft]
  split <;> omega

theorem low_pos (f : Format) (bits : Nat) : 0 < (Target.ofBits f bits).low :=
  Nat.lt_of_lt_of_le (Nat.two_pow_pos _) (low_bounds f bits).1

theorem high_eq (f : Format) (bits : Nat) : (Target.ofBits f bits).high = 2 * 2 ^ f.shift bits := by
  simp only [Target.ofBits, Nat.one_shiftLeft]

theorem high_pos (f : Format) (bits : Nat) : 0 < (Target.ofBits f bits).high := by
  rw [high_eq]
  exact Nat.mul_pos (by decide) (Nat.two_pow_pos _)

/-- Intervals lie in the order of their patterns, and only neighbours touch. -/
theorem interval_lt (h : bits < bits') (hsign : bits' < f.signBit) :
    (Target.ofBits f bits).num + (Target.ofBits f bits).high + (Target.ofBits f bits').low <
        (Target.ofBits f bits').num ∨
      bits' = bits + 1 ∧ (Target.ofBits f bits').num =
        (Target.ofBits f bits).num + (Target.ofBits f bits).high + (Target.ofBits f bits').low := by
  induction h with
  | refl => exact .inr ⟨rfl, interval_succ hsign⟩
  | @step next h ih =>
    have hnext := interval_succ hsign
    have hlow := low_pos f next
    have hhigh := high_pos f next
    rw [Nat.succ_eq_add_one] at hsign ⊢
    rcases ih (Nat.lt_of_succ_lt hsign) with hlt | ⟨-, heq⟩ <;> left <;> omega

end

/-- Is a point near a value: at most so much below or above it, or less if the ends do not count? -/
def Near (closed : Bool) (low high value point : ℚ) : Prop :=
  if closed then value - low ≤ point ∧ point ≤ value + high
  else value - low < point ∧ point < value + high

/-- The real reads back as the value of the target. -/
def Target.Reads (t : Target) (x : ℚ) : Prop := Near t.closed t.low t.high t.num (x * t.den)

section

variable {closed : Bool} {low high value point scale : ℚ}

theorem Near.le (h : Near closed low high value point) :
    value - low ≤ point ∧ point ≤ value + high := by
  unfold Near at h
  split at h
  · exact h
  · exact ⟨h.1.le, h.2.le⟩

theorem Near.lt (h : Near closed low high value point) (hopen : closed = false) :
    value - low < point ∧ point < value + high := by
  rw [Near, hopen] at h
  exact h

theorem near_scale (hscale : 0 < scale) :
    Near closed (low * scale) (high * scale) (value * scale) (point * scale) ↔
      Near closed low high value point := by
  have hsub : value * scale - low * scale = (value - low) * scale := by ring
  have hadd : value * scale + high * scale = (value + high) * scale := by ring
  unfold Near
  simp only [hsub, hadd, mul_le_mul_iff_left₀ hscale, mul_lt_mul_iff_left₀ hscale]

end

/-- **Intervals.** No real reads back as two values. -/
theorem reads_unique {f : Format} {bits bits' : Nat} {x : ℚ} (hfraction : 0 < f.fractionBits)
    (hsign : bits < f.signBit) (hsign' : bits' < f.signBit)
    (h : (Target.ofBits f bits).Reads x) (h' : (Target.ofBits f bits').Reads x) : bits = bits' := by
  wlog hlt : bits < bits' generalizing bits bits'
  · rcases Nat.lt_trichotomy bits bits' with hlt' | heq | hgt
    · exact absurd hlt' hlt
    · exact heq
    · exact (this hsign' hsign h' h hgt).symm
  have hden : (Target.ofBits f bits').den = (Target.ofBits f bits).den := rfl
  have hupper := h.le.2
  have hlower := h'.le.1
  rw [hden] at hlower
  exfalso
  rcases interval_lt hlt hsign' with hapart | ⟨rfl, htouch⟩
  · have hcast : ((Target.ofBits f bits).num : ℚ) + (Target.ofBits f bits).high +
        (Target.ofBits f bits').low < (Target.ofBits f bits').num := by exact_mod_cast hapart
    linarith
  · have hcast : ((Target.ofBits f (bits + 1)).num : ℚ) = (Target.ofBits f bits).num +
        (Target.ofBits f bits).high + (Target.ofBits f (bits + 1)).low := by exact_mod_cast htouch
    -- the point in the middle belongs to the even one of the two only
    have hparity : ∀ n, f.fraction n % 2 = n % 2 := fun n => by
      rw [Format.fraction, Nat.one_shiftLeft]
      exact Nat.mod_mod_of_dvd n (dvd_pow_self 2 hfraction.ne')
    rcases Nat.mod_two_eq_zero_or_one bits with heven | hodd
    · have hopen : (Target.ofBits f (bits + 1)).closed = false := by
        simp only [Target.ofBits, hparity]
        simp [Nat.add_mod, heven]
      have hstrict := (h'.lt hopen).1
      rw [hden] at hstrict
      linarith
    · have hopen : (Target.ofBits f bits).closed = false := by
        simp only [Target.ofBits, hparity]
        simp [hodd]
      have hstrict := (h.lt hopen).2
      linarith

/-! ## Digits -/

section

variable {t : Target} {num den low high n : Nat}

/-- A neighbour on a grid that wins lies in the interval. -/
theorem neighbour?_near (hden : 0 < den) (hlow : 0 < low) (hhigh : 0 < high)
    (h : neighbour? t num den low high = some n) :
    Near t.closed low high num ((n * den : Nat) : ℚ) := by
  have hnum := Nat.div_add_mod' num den
  have hmod := Nat.mod_lt num hden
  -- the distance to the winner is within the width on its side
  have hnear : if t.closed then num ≤ n * den + low ∧ n * den ≤ num + high
      else num < n * den + low ∧ n * den < num + high := by
    have hup : num / den * den + den = (num / den + 1) * den := (Nat.succ_mul _ _).symm
    simp only [neighbour?, within] at h
    cases hclosed : t.closed <;> simp only [hclosed, if_true, if_false, Bool.false_eq_true] at h ⊢
    all_goals
      split at h
      · rename_i hboth
        simp only [Bool.and_eq_true, decide_eq_true_eq] at hboth
        split at h <;> cases h <;> omega
      · split at h
        · rename_i hdown
          simp only [decide_eq_true_eq] at hdown
          cases h
          omega
        · split at h
          · rename_i hup'
            simp only [decide_eq_true_eq] at hup'
            cases h
            omega
          · cases h
  unfold Near
  split at hnear
  · have hcast : (num : ℚ) ≤ (n * den : Nat) + low ∧ ((n * den : Nat) : ℚ) ≤ num + high := by
      exact_mod_cast hnear
    rw [if_pos ‹_›]
    constructor <;> linarith
  · have hcast : (num : ℚ) < (n * den : Nat) + low ∧ ((n * den : Nat) : ℚ) < num + high := by
      exact_mod_cast hnear
    rw [if_neg ‹_›]
    constructor <;> linarith

/-- On a grid narrower than the interval some neighbour wins. -/
theorem neighbour?_isSome (hden : 0 < den) (hnarrow : den < low + high) :
    (neighbour? t num den low high).isSome := by
  have hmod := Nat.mod_lt num hden
  simp only [neighbour?, within]
  cases t.closed <;> simp only [if_true, if_false, Bool.false_eq_true]
  all_goals
    split
    · rfl
    · split
      · rfl
      · split
        · rfl
        · rename_i hdown hup
          simp only [decide_eq_true_eq] at hdown hup
          omega

end

/-- The winner on the grid of the multiples of a power of ten. -/
def onGrid? (t : Target) (exponent : Int) : Option Nat :=
  if exponent < 0 then
    let scale := Nat.pow 10 exponent.natAbs
    neighbour? t (t.num * scale) t.den (t.low * scale) (t.high * scale)
  else
    neighbour? t t.num (t.den * Nat.pow 10 exponent.toNat) t.low t.high

theorem search_succ (t : Target) (point : Int) (fuel count : Nat) :
    search t point (fuel + 1) count =
      match onGrid? t (point - count) with
      | some n => (n, point - count)
      | none => search t point fuel (count + 1) := rfl

/-- A target for a value: it has an interval around it. -/
structure Target.Sound (t : Target) : Prop where
  /-- the denominator is positive -/
  den : 0 < t.den
  /-- there is room below -/
  low : 0 < t.low
  /-- there is room above -/
  high : 0 < t.high

section

variable {t : Target} {exponent point : Int} {fuel count n : Nat}

theorem zpow_of_neg (h : exponent < 0) :
    (10 : ℚ) ^ exponent * (10 ^ exponent.natAbs : Nat) = 1 := by
  push_cast
  rw [← zpow_natCast, ← zpow_add₀ (by norm_num), show exponent + exponent.natAbs = 0 by omega, zpow_zero]

theorem zpow_of_nonneg (h : ¬ exponent < 0) : (10 : ℚ) ^ exponent = (10 ^ exponent.toNat : Nat) := by
  push_cast
  rw [← zpow_natCast, Int.toNat_of_nonneg (by omega)]

theorem onGrid?_reads (ht : t.Sound) (h : onGrid? t exponent = some n) :
    t.Reads (n * 10 ^ exponent) := by
  unfold onGrid? at h
  split at h
  · rename_i hnegative
    have hscale : 0 < 10 ^ exponent.natAbs := Nat.pow_pos (by decide)
    have hnear := neighbour?_near ht.den (Nat.mul_pos ht.low hscale) (Nat.mul_pos ht.high hscale) h
    have hcancel := zpow_of_neg hnegative
    have hpoint : ((n * t.den : Nat) : ℚ) =
        n * 10 ^ exponent * t.den * (10 ^ exponent.natAbs : Nat) := by
      push_cast at hcancel ⊢
      linear_combination -(n * t.den : ℚ) * hcancel
    rw [hpoint, Nat.cast_mul, Nat.cast_mul, Nat.cast_mul] at hnear
    exact (near_scale (by exact_mod_cast hscale)).mp hnear
  · rename_i hnonneg
    have hscale : 0 < 10 ^ exponent.toNat := Nat.pow_pos (by decide)
    have hnear := neighbour?_near (Nat.mul_pos ht.den hscale) ht.low ht.high h
    have hpoint : ((n * (t.den * 10 ^ exponent.toNat) : Nat) : ℚ) = n * 10 ^ exponent * t.den := by
      rw [zpow_of_nonneg hnonneg]
      push_cast
      ring
    rw [Target.Reads, ← hpoint]
    exact hnear

theorem onGrid?_isSome (ht : t.Sound)
    (hnarrow : (10 : ℚ) ^ exponent * t.den < t.low + t.high) : (onGrid? t exponent).isSome := by
  unfold onGrid?
  split
  · rename_i hnegative
    refine neighbour?_isSome ht.den ?_
    have hcancel := zpow_of_neg hnegative
    have hscale : (0 : ℚ) < (10 ^ exponent.natAbs : Nat) := by
      exact_mod_cast Nat.pow_pos (by decide)
    have hscaled := mul_lt_mul_of_pos_right hnarrow hscale
    have hcast : (t.den : ℚ) <
        (t.low * 10 ^ exponent.natAbs + t.high * 10 ^ exponent.natAbs : Nat) := by
      push_cast at hcancel hscaled ⊢
      linear_combination hscaled - (t.den : ℚ) * hcancel
    exact_mod_cast hcast
  · rename_i hnonneg
    refine neighbour?_isSome (Nat.mul_pos ht.den (Nat.pow_pos (by decide))) ?_
    rw [zpow_of_nonneg hnonneg, mul_comm] at hnarrow
    exact_mod_cast hnarrow

/-- If the last of the grids is narrow enough, the search ends with a number that reads back. -/
theorem search_reads (ht : t.Sound) (hfuel : 0 < fuel)
    (hnarrow : (10 : ℚ) ^ (point - (count + fuel - 1 : Nat)) * t.den < t.low + t.high) :
    t.Reads ((search t point fuel count).1 * 10 ^ (search t point fuel count).2) := by
  induction fuel generalizing count with
  | zero => exact absurd hfuel (Nat.lt_irrefl 0)
  | succ fuel ih =>
    rw [search_succ]
    cases hfound : onGrid? t (point - count) with
    | some n => exact onGrid?_reads ht hfound
    | none =>
      cases fuel with
      | zero =>
        have hsome := onGrid?_isSome ht hnarrow
        rw [Nat.add_sub_cancel, hfound] at hsome
        cases hsome
      | succ fuel =>
        refine ih (Nat.succ_pos fuel) ?_
        rw [show count + 1 + (fuel + 1) - 1 = count + (fuel + 1 + 1) - 1 by omega]
        exact hnarrow

end

/-! ### Enough digits -/

section

variable {t : Target} {f : Format} {bits num den : Nat}

/-- Multiplying by ten often enough reaches one. -/
theorem le_leadingZeros (fuel : Nat) (h : den ≤ 10 ^ fuel * num) :
    den ≤ 10 ^ leadingZeros num den fuel * num := by
  induction fuel generalizing num with
  | zero => exact h
  | succ fuel ih =>
    unfold leadingZeros
    split
    · rename_i hle
      rwa [Nat.pow_zero, Nat.one_mul]
    · rw [Nat.pow_succ, Nat.mul_assoc] at h ⊢
      exact ih h

/-- A number is at least ten to the number of its other digits. -/
theorem pow_toDigits_le {n : Nat} (h : 0 < n) : 10 ^ ((Nat.toDigits 10 n).length - 1) ≤ n := by
  by_contra hlt
  have hlength := @Nat.length_toDigits_pos 10 n
  by_cases hone : (Nat.toDigits 10 n).length - 1 = 0
  · rw [hone, Nat.pow_zero] at hlt
    omega
  · have hle := (Nat.length_toDigits_le_iff (by decide) (by omega)).mpr (Nat.lt_of_not_le hlt)
    omega

/-- The value is at least ten to the place before the point. -/
theorem pow_pointOf_le (hden : 0 < t.den) (hfuel : t.den ≤ 10 ^ 400 * t.num) :
    (10 : ℚ) ^ (pointOf t - 1) * t.den ≤ t.num := by
  unfold pointOf
  split
  · rename_i hle
    have hwhole : 0 < t.num / t.den := Nat.div_pos hle hden
    have hpow := Nat.mul_le_of_le_div _ _ _ (pow_toDigits_le hwhole)
    have hlength := @Nat.length_toDigits_pos 10 (t.num / t.den)
    rw [show (((Nat.toDigits 10 (t.num / t.den)).length : Int) - 1) =
      ((Nat.toDigits 10 (t.num / t.den)).length - 1 : Nat) by omega, zpow_natCast]
    exact_mod_cast hpow
  · have hzeros : ((t.den : Nat) : ℚ) ≤ (10 ^ leadingZeros t.num t.den 400 * t.num : Nat) := by
      exact_mod_cast le_leadingZeros 400 hfuel
    have hexponent : (1 - (leadingZeros t.num t.den 400 : Int) - 1) =
        -(leadingZeros t.num t.den 400 : Int) := by ring
    rw [hexponent, zpow_neg, zpow_natCast, inv_mul_le_iff₀ (by positivity)]
    exact_mod_cast hzeros

theorem sound_ofBits (f : Format) (bits : Nat) : (Target.ofBits f bits).Sound where
  den := by
    simp only [Target.ofBits, Nat.shiftLeft_eq]
    exact Nat.mul_pos (by decide) (Nat.two_pow_pos _)
  low := low_pos f bits
  high := high_pos f bits

/-- A positive value is at least its spacing, and has it as many times as its fraction allows. -/
theorem spacing_bounds (hpos : 0 < bits) (hsign : bits < f.signBit) :
    2 ^ f.shift bits ≤ f.magnitude bits ∧
      f.magnitude bits < 2 ^ (f.fractionBits + 1) * 2 ^ f.shift bits := by
  obtain ⟨e, t, ht, rfl⟩ := exists_fields f bits
  obtain ⟨-, hshift, hmagnitude⟩ := fields ht hsign
  rw [hshift, hmagnitude, Nat.pow_succ]
  split
  · subst e
    simp only [Nat.mul_zero, Nat.zero_add] at hpos
    simp only [Nat.zero_sub, Nat.pow_zero]
    omega
  · have hunit := Nat.two_pow_pos (e - 1)
    have hlead := Nat.two_pow_pos f.fractionBits
    exact ⟨Nat.le_mul_of_pos_left _ (by omega), Nat.mul_lt_mul_of_pos_right (by omega) hunit⟩

/-- Formats whose values have few enough digits for the search. -/
structure Fits (f : Format) : Prop where
  /-- there are bits behind the point -/
  fraction : 0 < f.fractionBits
  /-- but not more than fifty-two -/
  digits : f.fractionBits ≤ 52
  /-- the smallest numbers are not too small -/
  zeros : 2 ^ f.unitExponent ≤ 10 ^ 400

theorem single_fits : Fits single := ⟨by decide, by decide, by decide +kernel⟩

theorem double_fits : Fits double := ⟨by decide, by decide, by decide +kernel⟩

/-- No value is so small that its zeros are not counted. -/
theorem den_le (hf : Fits f) (hpos : 0 < bits) (hsign : bits < f.signBit) :
    (Target.ofBits f bits).den ≤ 10 ^ 400 * (Target.ofBits f bits).num := by
  have hmagnitude := Nat.lt_of_lt_of_le (Nat.two_pow_pos _) (spacing_bounds hpos hsign).1
  calc (Target.ofBits f bits).den = 4 * 2 ^ f.unitExponent := Nat.shiftLeft_eq _ _
    _ ≤ 4 * 10 ^ 400 := Nat.mul_le_mul_left 4 hf.zeros
    _ = 10 ^ 400 * (4 * 1) := by rw [Nat.mul_comm, Nat.mul_one]
    _ ≤ 10 ^ 400 * (4 * f.magnitude bits) :=
      Nat.mul_le_mul_left _ (Nat.mul_le_mul_left 4 hmagnitude)

/-- With eighteen digits the grid is much finer than the spacing. -/
theorem eighteen_digits (hf : Fits f) (hpos : 0 < bits) (hsign : bits < f.signBit) :
    (10 : ℚ) ^ (pointOf (Target.ofBits f bits) - (18 : Nat)) * (Target.ofBits f bits).den <
      (Target.ofBits f bits).low + (Target.ofBits f bits).high := by
  have hlimit := (spacing_bounds hpos hsign).2
  have hlow := (low_bounds f bits).1
  have hhigh := high_eq f bits
  have hnum : (Target.ofBits f bits).num = 4 * f.magnitude bits := rfl
  have hpoint := pow_pointOf_le (sound_ofBits f bits).den (den_le hf hpos hsign)
  have hunit := Nat.two_pow_pos (f.shift bits)
  generalize Target.ofBits f bits = t at *
  generalize 2 ^ f.shift bits = unit at *
  have hvalue : (t.num : ℚ) < 2 ^ 55 * unit := by
    have hdigits : 2 ^ (f.fractionBits + 1) ≤ 2 ^ 53 :=
      Nat.pow_le_pow_right (by decide) (Nat.succ_le_succ hf.digits)
    have hle := Nat.mul_le_mul_right unit hdigits
    exact_mod_cast (show t.num < 2 ^ 55 * unit by omega)
  have hwidth : (3 * unit : ℚ) ≤ t.low + t.high := by
    exact_mod_cast (show 3 * unit ≤ t.low + t.high by omega)
  have hunit : (0 : ℚ) < unit := by exact_mod_cast hunit
  calc (10 : ℚ) ^ (pointOf t - (18 : Nat)) * t.den
      = 10 ^ (pointOf t - 1) * t.den / 10 ^ 17 := by
        rw [show pointOf t - (18 : Nat) = pointOf t - 1 - (17 : Nat) by push_cast; ring,
          zpow_sub₀ (by norm_num), zpow_natCast]
        ring
    _ ≤ t.num / 10 ^ 17 := by gcongr
    _ < t.low + t.high := by linarith

/-- **Digits.** What the search finds reads back as the value. -/
theorem search_ofBits (hf : Fits f) (hpos : 0 < bits) (hsign : bits < f.signBit) :
    (Target.ofBits f bits).Reads
      ((search (Target.ofBits f bits) (pointOf (Target.ofBits f bits)) 18 1).1 *
        10 ^ (search (Target.ofBits f bits) (pointOf (Target.ofBits f bits)) 18 1).2) :=
  search_reads (sound_ofBits f bits) (by decide) (eighteen_digits hf hpos hsign)

/-- Zero does not read back as a positive value. -/
theorem Target.Reads.ne_zero {x : ℚ} (hpos : 0 < bits) (hsign : bits < f.signBit)
    (h : (Target.ofBits f bits).Reads x) : x ≠ 0 := by
  rintro rfl
  have hmagnitude := (spacing_bounds hpos hsign).1
  have hlow := (low_bounds f bits).2
  have hunit := Nat.two_pow_pos (f.shift bits)
  have hnum : (Target.ofBits f bits).num = 4 * f.magnitude bits := rfl
  have hle := h.le.1
  have hlt : ((Target.ofBits f bits).low : ℚ) < (Target.ofBits f bits).num := by
    exact_mod_cast (show (Target.ofBits f bits).low < (Target.ofBits f bits).num by omega)
  linarith

end

/-! ## Text -/

/-- The number that the digits before and after a point stand for. -/
def reading (whole fraction : List Char) : ℚ :=
  Nat.ofDigitChars 10 (whole ++ fraction) 0 * 10 ^ (-fraction.length : Int)

/-- The forms of a number in decimal text. -/
inductive Spells : List Char → ℚ → Prop where
  /-- with a point -/
  | positional {whole fraction : List Char} (hwhole : ∀ c ∈ whole, c.isDigit = true)
      (hfraction : ∀ c ∈ fraction, c.isDigit = true) :
      Spells (whole ++ '.' :: fraction) (reading whole fraction)
  /-- one digit and an exponent -/
  | single {c : Char} (exponent : Int) (hc : c.isDigit = true) :
      Spells ([c] ++ 'e' :: (toString exponent).toList) (reading [c] [] * 10 ^ exponent)
  /-- digits with a point and an exponent -/
  | scientific {c : Char} {rest : List Char} (exponent : Int) (hc : c.isDigit = true)
      (hrest : ∀ c ∈ rest, c.isDigit = true) :
      Spells (c :: '.' :: rest ++ 'e' :: (toString exponent).toList) (reading [c] rest * 10 ^ exponent)

section

variable {s s' digits : List Char} {x y : ℚ}

theorem not_mem_digits {c : Char} (hc : c.isDigit = false) (h : ∀ d ∈ digits, d.isDigit = true) :
    c ∉ digits := fun hmem => by
  rw [h c hmem] at hc
  cases hc

/-- Positional text has no exponent. -/
theorem not_mem_positional {whole fraction : List Char} (hwhole : ∀ c ∈ whole, c.isDigit = true)
    (hfraction : ∀ c ∈ fraction, c.isDigit = true) : 'e' ∉ whole ++ '.' :: fraction := by
  intro hmem
  rcases List.mem_append.mp hmem with hmem | hmem
  · exact not_mem_digits rfl hwhole hmem
  · rcases List.mem_cons.mp hmem with heq | hmem
    · cases heq
    · exact not_mem_digits rfl hfraction hmem

theorem toString_int_inj {m n : Int} (h : (toString m).toList = (toString n).toList) : m = n := by
  rw [String.toList_inj, Int.toString_eq_repr, Int.toString_eq_repr] at h
  exact Int.repr_inj.mp h

/-- **Spelling.** A text spells at most one number. -/
theorem Spells.unique (h : Spells s x) (h' : Spells s' y) (heq : s = s') : x = y := by
  cases h with
  | positional hwhole hfraction =>
    cases h' with
    | positional hwhole' hfraction' =>
      obtain ⟨rfl, rfl⟩ := Text.split_at (not_mem_digits rfl hwhole) (not_mem_digits rfl hwhole') heq
      rfl
    | single | scientific =>
      exact absurd (heq ▸ List.mem_append_right _ List.mem_cons_self)
        (not_mem_positional hwhole hfraction)
  | single exponent hc =>
    cases h' with
    | positional hwhole' hfraction' =>
      exact absurd (heq ▸ List.mem_append_right _ List.mem_cons_self)
        (not_mem_positional hwhole' hfraction')
    | single exponent' =>
      obtain ⟨rfl, htail⟩ := List.cons.inj heq
      rw [toString_int_inj (List.cons.inj htail).2]
    | scientific => exact absurd (List.cons.inj (List.cons.inj heq).2).1 (by decide)
  | @scientific c rest exponent hc hrest =>
    cases h' with
    | positional hwhole' hfraction' =>
      exact absurd (heq ▸ List.mem_append_right _ List.mem_cons_self)
        (not_mem_positional hwhole' hfraction')
    | single => exact absurd (List.cons.inj (List.cons.inj heq).2).1 (by decide)
    | @scientific c' rest' exponent' hc' hrest' =>
      have hmantissa : ∀ {c : Char} {rest : List Char}, c.isDigit = true →
          (∀ d ∈ rest, d.isDigit = true) → 'e' ∉ c :: '.' :: rest := fun hc hrest =>
        not_mem_positional (List.forall_mem_singleton.mpr hc) hrest
      obtain ⟨hsame, hexponent⟩ := Text.split_at (hmantissa hc hrest) (hmantissa hc' hrest') heq
      obtain ⟨rfl, htail⟩ := List.cons.inj hsame
      obtain ⟨-, rfl⟩ := List.cons.inj htail
      rw [toString_int_inj hexponent]

end

/-- The value of a decimal. -/
def Decimal.value (d : Decimal) : ℚ :=
  Nat.ofDigitChars 10 d.digits 0 * 10 ^ (d.point - d.digits.length)

section

variable {digits : List Char}

/-- Zeros in front do not count. -/
theorem reading_small (n : Nat) (digits : List Char) :
    reading ['0'] (List.replicate n '0' ++ digits) =
      Nat.ofDigitChars 10 digits 0 * 10 ^ (-(n : Int) - digits.length) := by
  have hzeros : Nat.ofDigitChars 10 (['0'] ++ (List.replicate n '0' ++ digits)) 0 =
      Nat.ofDigitChars 10 digits 0 := by
    rw [List.cons_append, List.nil_append, Nat.ofDigitChars_cons, Nat.ofDigitChars_append,
      Nat.ofDigitChars_replicate_zero]
    rfl
  rw [reading, hzeros, List.length_append, List.length_replicate]
  push_cast
  ring_nf

/-- Zeros at the end are powers of ten. -/
theorem reading_large (n : Nat) (digits : List Char) :
    reading (digits ++ List.replicate n '0') ['0'] = Nat.ofDigitChars 10 digits 0 * 10 ^ (n : Int) := by
  have hzeros : Nat.ofDigitChars 10 (digits ++ List.replicate n '0' ++ ['0']) 0 =
      Nat.ofDigitChars 10 digits 0 * 10 ^ n * 10 := by
    rw [Nat.ofDigitChars_append, Nat.ofDigitChars_append, Nat.ofDigitChars_replicate_zero,
      Nat.ofDigitChars_cons]
    simp only [Nat.ofDigitChars_nil, Nat.sub_self, Nat.add_zero]
    ring
  rw [reading, hzeros]
  push_cast
  simp

/-- Anywhere among the digits, the point says how many of them are the fraction. -/
theorem reading_split (whole fraction : List Char) :
    reading whole fraction =
      Nat.ofDigitChars 10 (whole ++ fraction) 0 *
        10 ^ ((whole.length : Int) - (whole ++ fraction).length) := by
  rw [reading, List.length_append]
  push_cast
  ring_nf

end

/-- **Layout.** The text of a decimal spells its value. -/
theorem layout_spells {digits : List Char} (point : Int) (hdigits : ∀ c ∈ digits, c.isDigit = true)
    (hsome : digits ≠ []) : Spells (layout ⟨digits, point⟩) (Decimal.value ⟨digits, point⟩) := by
  have hzeros : ∀ n, ∀ c ∈ List.replicate n '0', c.isDigit = true := fun n c hc => by
    rw [List.eq_of_mem_replicate hc]
    rfl
  have hzero : ∀ c ∈ ['0'], c.isDigit = true := List.forall_mem_singleton.mpr rfl
  simp only [layout, Decimal.value]
  split
  · split
    · rename_i hsmall
      have hform := Spells.positional hzero
        (List.forall_mem_append.mpr ⟨hzeros point.natAbs, hdigits⟩)
      rw [reading_small, show -(point.natAbs : Int) = point by omega] at hform
      simpa using hform
    · rename_i hlarge
      split
      · rename_i hwhole
        have hform := Spells.positional
          (List.forall_mem_append.mpr ⟨hdigits, hzeros (point.toNat - digits.length)⟩) hzero
        rw [reading_large,
          show ((point.toNat - digits.length : Nat) : Int) = point - digits.length by omega] at hform
        simpa using hform
      · rename_i hwhole
        have hparts := hdigits
        rw [← List.take_append_drop point.toNat digits, List.forall_mem_append] at hparts
        have hform := Spells.positional hparts.1 hparts.2
        rw [reading_split, List.take_append_drop, List.length_take,
          show ((min point.toNat digits.length : Nat) : Int) = point by omega] at hform
        simpa using hform
  · -- one digit in front of the point, the others after it
    have hvalue : ∀ c rest, reading [c] rest * 10 ^ (point - 1) =
        Nat.ofDigitChars 10 (c :: rest) 0 * 10 ^ (point - (c :: rest).length) := fun c rest => by
      rw [reading, mul_assoc, ← zpow_add₀ (by norm_num), List.length_cons,
        show -(rest.length : Int) + (point - 1) = point - (rest.length + 1 : Nat) by push_cast; ring]
      rfl
    match digits, hsome with
    | [c], _ =>
      rw [← hvalue]
      exact .single _ (hdigits c List.mem_cons_self)
    | c :: d :: rest, _ =>
      rw [← hvalue]
      exact .scientific _ (hdigits c List.mem_cons_self)
        (fun e he => hdigits e (List.mem_cons_of_mem c he))

/-! ### The shortest decimal -/

section

variable {f : Format} {bits bits' : Nat}

/-- The zeros at the end of the digits of a number are powers of ten. -/
theorem digits_trimmed {n : Nat} (hpos : 0 < n) : ∃ digits k,
    ((Nat.toDigits 10 n).reverse.dropWhile (· == '0')).reverse = digits ∧
      (Nat.toDigits 10 n).length = digits.length + k ∧ digits ≠ [] ∧
      (∀ c ∈ digits, c.isDigit = true) ∧ n = Nat.ofDigitChars 10 digits 0 * 10 ^ k := by
  have hsplit : (Nat.toDigits 10 n).rdropWhile (· == '0') ++ (Nat.toDigits 10 n).rtakeWhile (· == '0') =
      Nat.toDigits 10 n := List.rdropWhile_append_rtakeWhile
  have hzeros : (Nat.toDigits 10 n).rtakeWhile (· == '0') =
      List.replicate ((Nat.toDigits 10 n).rtakeWhile (· == '0')).length '0' :=
    List.eq_replicate_of_mem fun c hc => by simpa using List.mem_rtakeWhile_imp hc
  rw [hzeros] at hsplit
  generalize ((Nat.toDigits 10 n).rtakeWhile (· == '0')).length = k at hsplit
  have hvalue : n = Nat.ofDigitChars 10 ((Nat.toDigits 10 n).rdropWhile (· == '0')) 0 * 10 ^ k := by
    conv_lhs => rw [← @Nat.ofDigitChars_toDigits 10 n (by decide) (by decide), ← hsplit,
      Nat.ofDigitChars_append, Nat.ofDigitChars_replicate_zero, Nat.mul_comm]
  refine ⟨_, k, rfl, ?_, fun hnil => ?_, fun c hc => ?_, hvalue⟩
  · conv_lhs => rw [← hsplit, List.length_append, List.length_replicate]
    rfl
  · have hdrop : (Nat.toDigits 10 n).rdropWhile (· == '0') = [] := hnil
    rw [hdrop, Nat.ofDigitChars_nil, Nat.zero_mul] at hvalue
    omega
  · exact Nat.isDigit_of_mem_toDigits (by decide) (by decide)
      (hsplit ▸ List.mem_append_left _ hc)

/-- **The shortest decimal** of a positive value is spelled by its text and reads back as it. -/
theorem layout_shortest (hf : Fits f) (hpos : 0 < bits) (hsign : bits < f.signBit) :
    ∃ x, Spells (layout (shortest f bits)) x ∧ (Target.ofBits f bits).Reads x := by
  have hreads := search_ofBits hf hpos hsign
  have hsome := hreads.ne_zero hpos hsign
  simp only [shortest]
  generalize search (Target.ofBits f bits) (pointOf (Target.ofBits f bits)) 18 1 = found at *
  obtain ⟨n, exponent⟩ := found
  have hn : 0 < n := Nat.pos_of_ne_zero fun hzero => hsome (by simp [hzero])
  obtain ⟨digits, k, htrim, hlength, hdigits, hall, hvalue⟩ := digits_trimmed hn
  rw [htrim, hlength]
  refine ⟨_, layout_spells _ hall hdigits, ?_⟩
  have hsame : Decimal.value ⟨digits, exponent + (digits.length + k : Nat)⟩ = n * 10 ^ exponent := by
    rw [Decimal.value, hvalue]
    push_cast
    rw [show exponent + (digits.length + k) - digits.length = (k : Int) + exponent by ring,
      zpow_add₀ (by norm_num), zpow_natCast]
    ring
  rw [hsame]
  exact hreads

/-! ### Signs and values without digits -/

/-- The text of a value without its sign. -/
def body (f : Format) (bits : Nat) : List Char :=
  if f.isInfinite bits then ['i', 'n', 'f']
  else if f.withoutSign bits = 0 then ['0', '.', '0']
  else layout (shortest f (f.withoutSign bits))

/-- The text of a value with its sign. -/
def signed (f : Format) (bits : Nat) : List Char :=
  if f.isNegative bits then '-' :: body f bits else body f bits

theorem text_eq (f : Format) (bits : Nat) :
    text f bits = if f.isNaN bits then "NaN" else String.ofList (signed f bits) := rfl

/-- A number begins with a digit or with its point. -/
theorem Spells.head {s : List Char} {x : ℚ} (h : Spells s x) :
    ∃ c rest, s = c :: rest ∧ (c.isDigit = true ∨ c = '.') := by
  cases h with
  | @positional whole fraction hwhole =>
    cases whole with
    | nil => exact ⟨'.', fraction, rfl, .inr rfl⟩
    | cons c whole => exact ⟨c, _, rfl, .inl (hwhole c List.mem_cons_self)⟩
  | single exponent hc | scientific exponent hc => exact ⟨_, _, rfl, .inl hc⟩

/-- The text of a finite value without its sign spells a number that reads back as it. -/
theorem body_spells (hf : Fits f) (hfinite : f.isInfinite bits = false) :
    ∃ x, Spells (body f bits) x ∧ (f.withoutSign bits = 0 → x = 0) ∧
      (f.withoutSign bits ≠ 0 → (Target.ofBits f (f.withoutSign bits)).Reads x) := by
  rw [body, hfinite]
  by_cases hzero : f.withoutSign bits = 0
  · have hdigits : ∀ c ∈ ['0'], c.isDigit = true := List.forall_mem_singleton.mpr rfl
    have hreading : reading ['0'] ['0'] = 0 := by
      rw [reading, show Nat.ofDigitChars 10 (['0'] ++ ['0']) 0 = 0 from rfl]
      simp
    refine ⟨0, ?_, fun _ => rfl, absurd hzero⟩
    simp only [hzero, if_true, if_false, Bool.false_eq_true]
    exact hreading ▸ Spells.positional hdigits hdigits
  · have hsign : f.withoutSign bits < f.signBit := Nat.mod_lt _ (by
      rw [Format.signBit, Nat.one_shiftLeft]
      exact Nat.two_pow_pos _)
    obtain ⟨x, hspells, hreads⟩ := layout_shortest hf (Nat.pos_of_ne_zero hzero) hsign
    exact ⟨x, by simpa [hzero] using hspells, fun h => absurd h hzero, fun _ => hreads⟩

/-- The text without the sign begins with neither a sign nor a capital. -/
theorem body_head (hf : Fits f) (bits : Nat) :
    ∃ c rest, body f bits = c :: rest ∧ c ≠ '-' ∧ c ≠ 'N' := by
  cases hfinite : f.isInfinite bits with
  | true => exact ⟨'i', ['n', 'f'], by rw [body, hfinite]; rfl, by decide, by decide⟩
  | false =>
    obtain ⟨x, hspells, -⟩ := body_spells hf hfinite
    obtain ⟨c, rest, heq, hc⟩ := hspells.head
    refine ⟨c, rest, heq, ?_⟩
    constructor <;> rintro rfl <;> exact absurd hc (by decide)

theorem body_infinite (h : f.isInfinite bits = true) : body f bits = ['i', 'n', 'f'] := if_pos h

/-- Infinity is spelled by no number. -/
theorem body_ne_infinite (hf : Fits f) (hfinite : f.isInfinite bits = false) :
    body f bits ≠ ['i', 'n', 'f'] := by
  intro heq
  obtain ⟨x, hspells, -⟩ := body_spells hf hfinite
  obtain ⟨c, rest, hhead, hc⟩ := hspells.head
  obtain ⟨rfl, -⟩ := List.cons.inj (heq.symm.trans hhead)
  exact absurd hc (by decide)

theorem signBit_pos (f : Format) : 0 < f.signBit := by
  rw [Format.signBit, Nat.one_shiftLeft]
  exact Nat.two_pow_pos _

/-- The text without the sign tells the values apart. -/
theorem body_inj (hf : Fits f) (h : body f bits = body f bits') :
    f.withoutSign bits = f.withoutSign bits' := by
  cases hfinite : f.isInfinite bits with
  | true =>
    cases hfinite' : f.isInfinite bits' with
    | true => rw [beq_iff_eq.mp hfinite, beq_iff_eq.mp hfinite']
    | false => exact absurd (h.symm.trans (body_infinite hfinite)) (body_ne_infinite hf hfinite')
  | false =>
    cases hfinite' : f.isInfinite bits' with
    | true => exact absurd (h.trans (body_infinite hfinite')) (body_ne_infinite hf hfinite)
    | false =>
      obtain ⟨x, hspells, hzero, hreads⟩ := body_spells hf hfinite
      obtain ⟨y, hspells', hzero', hreads'⟩ := body_spells hf hfinite'
      obtain rfl := hspells.unique hspells' h
      have hsign : f.withoutSign bits < f.signBit := Nat.mod_lt _ (signBit_pos f)
      have hsign' : f.withoutSign bits' < f.signBit := Nat.mod_lt _ (signBit_pos f)
      by_cases hz : f.withoutSign bits = 0
      · by_cases hz' : f.withoutSign bits' = 0
        · rw [hz, hz']
        · exact absurd (hzero hz) ((hreads' hz').ne_zero (Nat.pos_of_ne_zero hz') hsign')
      · by_cases hz' : f.withoutSign bits' = 0
        · exact absurd (hzero' hz') ((hreads hz).ne_zero (Nat.pos_of_ne_zero hz) hsign)
        · exact reads_unique hf.fraction hsign hsign' (hreads hz) (hreads' hz')

/-- The text with the sign tells the patterns apart. -/
theorem signed_inj (hf : Fits f) (hbits : bits < 2 * f.signBit) (hbits' : bits' < 2 * f.signBit)
    (h : signed f bits = signed f bits') : bits = bits' := by
  have hpattern : ∀ b < 2 * f.signBit,
      b = f.withoutSign b + if f.isNegative b then f.signBit else 0 := by
    intro b hb
    simp only [Format.withoutSign, Format.isNegative, decide_eq_true_eq]
    split
    · rename_i hle
      rw [Nat.mod_eq_sub_mod hle, Nat.mod_eq_of_lt (by omega)]
      omega
    · rename_i hlt
      rw [Nat.mod_eq_of_lt (by omega), Nat.add_zero]
  have hminus : ∀ b rest, body f b ≠ '-' :: rest := fun b rest heq => by
    obtain ⟨c, rest', hhead, hc, -⟩ := body_head hf b
    exact hc (List.cons.inj (hhead.symm.trans heq)).1
  rw [hpattern bits hbits, hpattern bits' hbits']
  unfold signed at h
  cases hneg : f.isNegative bits <;> cases hneg' : f.isNegative bits' <;>
    simp only [hneg, hneg', if_true, if_false, Bool.false_eq_true] at h ⊢
  · rw [body_inj hf h]
  · exact absurd h (hminus _ _)
  · exact absurd h.symm (hminus _ _)
  · rw [body_inj hf (List.cons.inj h).2]

/-- **Text.** Two patterns with the same text are the same, or neither is a number. -/
theorem text_inj (hf : Fits f) (hbits : bits < 2 * f.signBit) (hbits' : bits' < 2 * f.signBit) :
    text f bits = text f bits' ↔ bits = bits' ∨ f.isNaN bits = true ∧ f.isNaN bits' = true := by
  have hletter : ∀ b, "NaN" ≠ String.ofList (signed f b) := fun b heq => by
    have hlist : ['N', 'a', 'N'] = signed f b := by
      rw [← String.toList_ofList (l := signed f b), ← heq]
      rfl
    obtain ⟨c, rest, hhead, -, hc⟩ := body_head hf b
    unfold signed at hlist
    split at hlist
    · exact absurd (List.cons.inj hlist).1 (by decide)
    · exact hc (List.cons.inj (hhead.symm.trans hlist.symm)).1
  simp only [text_eq]
  cases hnan : f.isNaN bits <;> cases hnan' : f.isNaN bits' <;>
    simp only [if_true, if_false, Bool.false_eq_true, and_true, and_false, or_false, or_true]
  · constructor
    · intro h
      exact signed_inj hf hbits hbits' (String.ofList_inj.mp h)
    · rintro rfl
      rfl
  · exact iff_of_false (fun h => hletter _ h.symm) (by rintro rfl; rw [hnan] at hnan'; cases hnan')
  · exact iff_of_false (fun h => hletter _ h) (by rintro rfl; rw [hnan] at hnan'; cases hnan')

end

end Resumption.Number.Shortest
