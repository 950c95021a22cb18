import Mathlib.Data.Nat.Log
import Mathlib.Order.Monotone.Basic
import Mathlib.Tactic.Ring
import Mathlib.Tactic.Positivity

/-!
# Binary64 numbers and the rounding of integers

A `Double` is a raw 64-bit pattern. Exact values are integers counted in units of the least
positive double, `2 ^ -1074`, so every comparison of doubles with each other and with integers
of any size is a comparison of integers. `Double.ofInt` rounds an integer to the nearest
double, ties to even, and the three rounding lemmas say that it never crosses a double
(`signedMagnitude_le_ofInt`, `ofInt_le_signedMagnitude`) and is monotone (`ofInt_mono`).
-/

/-- A binary64 number, as its bit pattern. -/
structure Double where
  bits : BitVec 64
deriving DecidableEq, Repr

namespace Double

theorem eq_of_toNat_bits {first second : Double} (same : first.bits.toNat = second.bits.toNat) :
    first = second := by
  exact congrArg Double.mk (BitVec.eq_of_toNat_eq same)

variable (number : Double)

/-- The pattern without its sign bit. -/
def magnitude : Nat :=
  number.bits.toNat % 2 ^ 63

def signBit : Bool :=
  decide (2 ^ 63 ≤ number.bits.toNat)

/-- The magnitude pattern of the two infinities. Larger magnitudes are NaNs. -/
def infinityMagnitude : Nat :=
  2047 * 2 ^ 52

def isNaN : Bool :=
  decide (infinityMagnitude < number.magnitude)

def isFinite : Bool :=
  decide (number.magnitude < infinityMagnitude)

/-- The magnitude patterns, read as signed integers, are ordered as the numbers are. -/
def signedMagnitude : Int :=
  if number.signBit then -(number.magnitude : Int) else number.magnitude

/-- How many units of `2 ^ -1074` make one. -/
def unitsPerOne : Nat :=
  2 ^ 1074

/-- The exact value of a finite magnitude pattern, in units of `2 ^ -1074`: a subnormal counts
its fraction, a normal number scales its significand by its exponent. -/
def magnitudeUnits (magnitude : Nat) : Nat :=
  if magnitude < 2 ^ 52 then magnitude
  else (2 ^ 52 + magnitude % 2 ^ 52) * 2 ^ (magnitude / 2 ^ 52 - 1)

/-- The exact value of a finite double, in units of `2 ^ -1074`. -/
def units : Int :=
  if number.signBit then -(magnitudeUnits number.magnitude : Int)
  else magnitudeUnits number.magnitude

/-- Positive zero. -/
def zero : Double := ⟨0#64⟩

def negativeZero : Double := ⟨BitVec.ofNat 64 (2 ^ 63)⟩

/-- `value / 2 ^ shift`, rounded to the nearest integer with ties to even. -/
def roundEven (value shift : Nat) : Nat :=
  let quotient := value / 2 ^ shift
  let remainder := value % 2 ^ shift
  if 2 ^ shift < 2 * remainder ∨ (2 * remainder = 2 ^ shift ∧ quotient % 2 = 1) then
    quotient + 1
  else quotient

/-- The leading 53 bits of a positive integer, rounded; `2 ^ 53` when the rounding carries. -/
def roundedSignificand (value : Nat) : Nat :=
  if value.log2 ≤ 52 then value * 2 ^ (52 - value.log2) else roundEven value (value.log2 - 52)

/-- The magnitude pattern of the double nearest to a natural number, infinity when it is out of
range. A carry of the significand runs into the exponent field. -/
def roundMagnitude (value : Nat) : Nat :=
  if value = 0 then 0
  else min ((1022 + value.log2) * 2 ^ 52 + roundedSignificand value) infinityMagnitude

/-- The double nearest to an integer. -/
def ofInt (value : Int) : Double :=
  if value < 0 then ⟨BitVec.ofNat 64 (2 ^ 63 + roundMagnitude value.natAbs)⟩
  else ⟨BitVec.ofNat 64 (roundMagnitude value.natAbs)⟩

/-- The integer a double stands for, if it is one. -/
def toInt? : Option Int :=
  if number.isFinite ∧ number.units % unitsPerOne = 0 then some (number.units / unitsPerOne)
  else none

theorem bits_toNat_eq (number : Double) :
    number.bits.toNat = (if number.signBit then 2 ^ 63 else 0) + number.magnitude := by
  simp only [signBit, magnitude, decide_eq_true_eq]
  split <;> omega

section Order

/-- A larger magnitude is a larger number. -/
theorem magnitudeUnits_strictMono : StrictMono magnitudeUnits := by
  apply strictMono_nat_of_lt_succ
  intro magnitude
  unfold magnitudeUnits
  by_cases subnormal : magnitude + 1 < 2 ^ 52
  · rw [if_pos (by omega), if_pos subnormal]
    omega
  · rw [if_neg subnormal]
    by_cases last : magnitude < 2 ^ 52
    · have boundary : magnitude + 1 = 2 ^ 52 := by omega
      rw [if_pos last, boundary]
      omega
    · rw [if_neg last]
      by_cases sameExponent : magnitude % 2 ^ 52 + 1 < 2 ^ 52
      · have exponent : (magnitude + 1) / 2 ^ 52 = magnitude / 2 ^ 52 := by omega
        have fraction : (magnitude + 1) % 2 ^ 52 = magnitude % 2 ^ 52 + 1 := by omega
        rw [exponent]
        exact Nat.mul_lt_mul_of_pos_right (by omega) (by positivity)
      · -- The fraction overflows: the significand halves and the exponent grows by one.
        have exponent : (magnitude + 1) / 2 ^ 52 - 1 = magnitude / 2 ^ 52 - 1 + 1 := by omega
        have fraction : (magnitude + 1) % 2 ^ 52 = 0 := by omega
        rw [exponent, pow_succ' 2 (magnitude / 2 ^ 52 - 1), ← mul_assoc]
        exact Nat.mul_lt_mul_of_pos_right (by omega) (by positivity)

/-- Bit patterns order as the numbers do. -/
theorem signedMagnitude_lt_iff (first second : Double) :
    first.signedMagnitude < second.signedMagnitude ↔ first.units < second.units := by
  have mono := magnitudeUnits_strictMono.lt_iff_lt (a := first.magnitude) (b := second.magnitude)
  have mono' := magnitudeUnits_strictMono.lt_iff_lt (a := second.magnitude) (b := first.magnitude)
  have zeroFirst := magnitudeUnits_strictMono.lt_iff_lt (a := 0) (b := first.magnitude)
  have zeroUnits : magnitudeUnits 0 = 0 := rfl
  unfold signedMagnitude units
  split <;> split <;> omega

theorem units_eq_of_signedMagnitude_eq {first second : Double}
    (same : first.signedMagnitude = second.signedMagnitude) : first.units = second.units := by
  have forward := signedMagnitude_lt_iff first second
  have backward := signedMagnitude_lt_iff second first
  omega

end Order

section Rounding

theorem div_le_roundEven (value shift : Nat) : value / 2 ^ shift ≤ roundEven value shift := by
  unfold roundEven
  dsimp only
  split <;> omega

variable {value : Nat}

variable {shift first second magnitude : Nat}

/-- Rounding does not cross a multiple of the rounding step. -/
theorem roundEven_le {bound : Nat} (le : value ≤ bound * 2 ^ shift) :
    roundEven value shift ≤ bound := by
  have positive : 0 < 2 ^ shift := by positivity
  have split := Nat.div_add_mod value (2 ^ shift)
  have quotient : value / 2 ^ shift ≤ bound := by
    rw [Nat.div_le_iff_le_mul_add_pred positive]
    rw [mul_comm] at le
    omega
  unfold roundEven
  dsimp only
  split
  next roundsUp =>
    -- An exact multiple leaves no remainder, so rounding up stays below the bound.
    by_contra above
    have exact : value / 2 ^ shift = bound := by omega
    rw [exact, mul_comm] at split
    omega
  next => exact quotient

theorem roundEven_mono (le : first ≤ second) : roundEven first shift ≤ roundEven second shift := by
  have quotients := Nat.div_le_div_right (c := 2 ^ shift) le
  have firstSplit := Nat.div_add_mod first (2 ^ shift)
  have secondSplit := Nat.div_add_mod second (2 ^ shift)
  unfold roundEven
  dsimp only
  rcases Nat.lt_or_eq_of_le quotients with below | same
  · split <;> split <;> omega
  · rw [same] at firstSplit ⊢
    split <;> split <;> omega

theorem roundedSignificand_bounds (nonzero : value ≠ 0) :
    2 ^ 52 ≤ roundedSignificand value ∧ roundedSignificand value ≤ 2 ^ 53 := by
  obtain ⟨lower, upper⟩ := (Nat.log2_eq_iff nonzero).mp rfl
  unfold roundedSignificand
  split
  next small =>
    have low : 2 ^ value.log2 * 2 ^ (52 - value.log2) = 2 ^ 52 := by
      rw [← pow_add, Nat.add_sub_cancel' small]
    have high : 2 ^ (value.log2 + 1) * 2 ^ (52 - value.log2) = 2 ^ 53 := by
      rw [← pow_add]
      congr 1
      omega
    rw [← low, ← high]
    exact ⟨Nat.mul_le_mul_right _ lower, Nat.mul_le_mul_right _ upper.le⟩
  next large =>
    have low : 2 ^ value.log2 = 2 ^ 52 * 2 ^ (value.log2 - 52) := by
      rw [← pow_add]
      congr 1
      omega
    have high : 2 ^ (value.log2 + 1) = 2 ^ 53 * 2 ^ (value.log2 - 52) := by omega
    constructor
    · refine le_trans ?_ (div_le_roundEven _ _)
      rw [Nat.le_div_iff_mul_le (by positivity), ← low]
      exact lower
    · exact roundEven_le (by rw [← high]; exact upper.le)

theorem roundMagnitude_le_infinity (value : Nat) : roundMagnitude value ≤ infinityMagnitude := by
  unfold roundMagnitude
  split
  · exact Nat.zero_le _
  · exact min_le_right _ _

theorem roundMagnitude_pos (nonzero : value ≠ 0) : 0 < roundMagnitude value := by
  rw [roundMagnitude, if_neg nonzero, lt_min_iff]
  exact ⟨by omega, by decide⟩

theorem roundMagnitude_mono (le : first ≤ second) :
    roundMagnitude first ≤ roundMagnitude second := by
  by_cases zero : first = 0
  · rw [roundMagnitude, if_pos zero]
    exact Nat.zero_le _
  have nonzero : second ≠ 0 := by omega
  have firstBounds := roundedSignificand_bounds zero
  have secondBounds := roundedSignificand_bounds nonzero
  have logs : first.log2 ≤ second.log2 := by
    rw [Nat.log2_eq_log_two, Nat.log2_eq_log_two]
    exact Nat.log_mono_right le
  rw [roundMagnitude, roundMagnitude, if_neg zero, if_neg nonzero]
  apply min_le_min_right
  rcases Nat.lt_or_eq_of_le logs with below | same
  · omega
  · have significands : roundedSignificand first ≤ roundedSignificand second := by
      unfold roundedSignificand
      rw [same]
      split
      · exact Nat.mul_le_mul_right _ le
      · exact roundEven_mono le
    omega

/-- A normal magnitude pattern, split into exponent field and significand. -/
theorem magnitudeUnits_normal (normal : 2 ^ 52 ≤ magnitude) :
    ∃ exponent significand, magnitude = exponent * 2 ^ 52 + significand ∧
      2 ^ 52 ≤ significand ∧ significand < 2 ^ 53 ∧
      magnitudeUnits magnitude = significand * 2 ^ exponent := by
  refine ⟨magnitude / 2 ^ 52 - 1, 2 ^ 52 + magnitude % 2 ^ 52, by omega, by omega, by omega, ?_⟩
  rw [magnitudeUnits, if_neg (by omega)]

/-- Compared at the exponent of a positive integer, a significand and the integer's own rounded
significand are ordered as their values are. -/
theorem significand_compare {significand : Nat} :
    (significand * 2 ^ (1022 + value.log2) ≤ value * unitsPerOne →
      significand ≤ roundedSignificand value) ∧
    (value * unitsPerOne ≤ significand * 2 ^ (1022 + value.log2) →
      roundedSignificand value ≤ significand) := by
  unfold roundedSignificand unitsPerOne
  split
  next small =>
    have scale : 2 ^ 1074 = 2 ^ (52 - value.log2) * 2 ^ (1022 + value.log2) := by
      rw [← pow_add]
      congr 1
      omega
    rw [scale, ← mul_assoc]
    exact ⟨fun le => Nat.le_of_mul_le_mul_right le (by positivity),
      fun le => Nat.le_of_mul_le_mul_right le (by positivity)⟩
  next large =>
    have scale : 2 ^ (1022 + value.log2) = 2 ^ (value.log2 - 52) * 2 ^ 1074 := by
      rw [← pow_add]
      congr 1
      omega
    rw [scale, ← mul_assoc]
    constructor
    · intro le
      have whole := Nat.le_of_mul_le_mul_right le (by positivity)
      refine le_trans ?_ (div_le_roundEven _ _)
      rwa [Nat.le_div_iff_mul_le (by positivity)]
    · intro le
      exact roundEven_le (Nat.le_of_mul_le_mul_right le (by positivity))

/-- A double that is at most an integer is at most the integer's rounding. -/
theorem le_roundMagnitude (range : magnitude ≤ infinityMagnitude)
    (le : magnitudeUnits magnitude ≤ value * unitsPerOne) : magnitude ≤ roundMagnitude value := by
  by_cases zero : value = 0
  · have below := magnitudeUnits_strictMono.le_apply (x := magnitude)
    rw [zero] at le
    omega
  have bounds := roundedSignificand_bounds zero
  have upper : value < _ := Nat.lt_log2_self
  rw [roundMagnitude, if_neg zero]
  refine le_min ?_ range
  by_cases normal : 2 ^ 52 ≤ magnitude
  · obtain ⟨exponent, significand, split, lower, small, value_eq⟩ := magnitudeUnits_normal normal
    rw [value_eq] at le
    rcases Nat.lt_trichotomy exponent (1022 + value.log2) with below | same | above
    · omega
    · subst same
      have significands := significand_compare.1 le
      omega
    · exfalso
      have exponents : 2 ^ (1023 + value.log2) ≤ 2 ^ exponent :=
        Nat.pow_le_pow_right (by decide) (by omega)
      have product := Nat.mul_le_mul lower exponents
      have scale : 2 ^ 52 * 2 ^ (1023 + value.log2) = 2 ^ (value.log2 + 1) * unitsPerOne := by
        rw [unitsPerOne, ← pow_add, ← pow_add]
        congr 1
        omega
      have strict : value * unitsPerOne < 2 ^ (value.log2 + 1) * unitsPerOne :=
        Nat.mul_lt_mul_of_pos_right upper (by unfold unitsPerOne; positivity)
      omega
  · omega

/-- A double that is at least an integer is at least the integer's rounding. -/
theorem roundMagnitude_le (le : value * unitsPerOne ≤ magnitudeUnits magnitude) :
    roundMagnitude value ≤ magnitude := by
  by_cases zero : value = 0
  · rw [roundMagnitude, if_pos zero]
    exact Nat.zero_le _
  have bounds := roundedSignificand_bounds zero
  have lowerPower := Nat.log2_self_le zero
  have lowerUnits : 2 ^ (value.log2 + 1074) ≤ magnitudeUnits magnitude := by
    refine le_trans ?_ le
    rw [pow_add]
    exact Nat.mul_le_mul_right _ lowerPower
  have normal : 2 ^ 52 ≤ magnitude := by
    by_contra subnormal
    rw [magnitudeUnits, if_pos (by omega)] at lowerUnits
    have powers : 2 ^ 52 ≤ 2 ^ (value.log2 + 1074) := Nat.pow_le_pow_right (by decide) (by omega)
    omega
  rw [roundMagnitude, if_neg zero]
  refine le_trans (min_le_left _ _) ?_
  obtain ⟨exponent, significand, split, lower, small, value_eq⟩ := magnitudeUnits_normal normal
  rw [value_eq] at le lowerUnits
  rcases Nat.lt_trichotomy exponent (1022 + value.log2) with below | same | above
  · exfalso
    have exponents : 2 ^ exponent ≤ 2 ^ (value.log2 + 1021) :=
      Nat.pow_le_pow_right (by decide) (by omega)
    have product : significand * 2 ^ exponent < 2 ^ 53 * 2 ^ (value.log2 + 1021) :=
      Nat.mul_lt_mul_of_lt_of_le small exponents (by positivity)
    have scale : 2 ^ 53 * 2 ^ (value.log2 + 1021) = 2 ^ (value.log2 + 1074) := by
      rw [← pow_add, show 53 + (value.log2 + 1021) = value.log2 + 1074 by omega]
    exact absurd lowerUnits (by omega)
  · subst same
    have significands := significand_compare.2 le
    omega
  · omega

end Rounding

section OfInt

variable (value : Int)

theorem ofInt_bits :
    (ofInt value).bits.toNat =
      (if value < 0 then 2 ^ 63 else 0) + roundMagnitude value.natAbs := by
  have range := roundMagnitude_le_infinity value.natAbs
  unfold infinityMagnitude at range
  unfold ofInt
  split <;> simp only [BitVec.toNat_ofNat] <;> omega

theorem signBit_ofInt : (ofInt value).signBit = decide (value < 0) := by
  have range := roundMagnitude_le_infinity value.natAbs
  unfold infinityMagnitude at range
  rw [signBit, ofInt_bits, decide_eq_decide]
  split <;> omega

theorem magnitude_ofInt : (ofInt value).magnitude = roundMagnitude value.natAbs := by
  have range := roundMagnitude_le_infinity value.natAbs
  unfold infinityMagnitude at range
  rw [magnitude, ofInt_bits]
  split <;> omega

theorem signedMagnitude_ofInt :
    (ofInt value).signedMagnitude =
      if value < 0 then -(roundMagnitude value.natAbs : Int) else roundMagnitude value.natAbs := by
  simp only [signedMagnitude, signBit_ofInt, magnitude_ofInt, decide_eq_true_eq]

theorem ofInt_ne_negativeZero : ofInt value ≠ negativeZero := by
  intro same
  have bits := congrArg (fun number => number.bits.toNat) same
  have range := roundMagnitude_le_infinity value.natAbs
  unfold infinityMagnitude at range
  simp only [ofInt_bits, negativeZero, BitVec.toNat_ofNat] at bits
  split at bits
  next negative =>
    have positive : 0 < roundMagnitude value.natAbs := roundMagnitude_pos (by omega)
    omega
  next => omega

theorem unitsPerOne_pos : 0 < unitsPerOne := by
  unfold unitsPerOne
  positivity

theorem natAbs_mul_unitsPerOne :
    ((value.natAbs * unitsPerOne : Nat) : Int) =
      if value < 0 then -(value * unitsPerOne) else value * unitsPerOne := by
  rw [Nat.cast_mul]
  split
  next negative => rw [Int.ofNat_natAbs_of_nonpos negative.le, Int.neg_mul]
  next nonnegative => rw [Int.natAbs_of_nonneg (by omega)]

theorem mul_unitsPerOne_neg_iff : value * unitsPerOne < 0 ↔ value < 0 := by
  have positive : (0 : Int) < unitsPerOne := by exact_mod_cast unitsPerOne_pos
  constructor
  · intro negative
    by_contra nonnegative
    have := Int.mul_nonneg (not_lt.mp nonnegative) positive.le
    omega
  · intro negative
    exact Int.mul_neg_of_neg_of_pos negative positive

variable {number : Double} {value : Int}

/-- **Rounding does not cross a double from above.** -/
theorem signedMagnitude_le_ofInt (range : number.magnitude ≤ infinityMagnitude)
    (le : number.units ≤ value * unitsPerOne) :
    number.signedMagnitude ≤ (ofInt value).signedMagnitude := by
  have scaled := natAbs_mul_unitsPerOne value
  have sign := mul_unitsPerOne_neg_iff value
  rw [signedMagnitude_ofInt]
  unfold units at le
  unfold signedMagnitude
  by_cases negative : value < 0
  · split at le
    next signed =>
      have rounded : roundMagnitude value.natAbs ≤ number.magnitude :=
        roundMagnitude_le (by omega)
      rw [if_pos signed]
      omega
    next => omega
  · split at le
    next signed =>
      rw [if_pos signed]
      omega
    next unsigned =>
      have rounded : number.magnitude ≤ roundMagnitude value.natAbs :=
        le_roundMagnitude range (by omega)
      omega

/-- **Rounding does not cross a double from below.** -/
theorem ofInt_le_signedMagnitude (range : number.magnitude ≤ infinityMagnitude)
    (le : value * unitsPerOne ≤ number.units) :
    (ofInt value).signedMagnitude ≤ number.signedMagnitude := by
  have scaled := natAbs_mul_unitsPerOne value
  rw [signedMagnitude_ofInt]
  unfold units at le
  unfold signedMagnitude
  by_cases negative : value < 0
  · rw [if_pos negative] at scaled ⊢
    split at le
    next signed =>
      have rounded : number.magnitude ≤ roundMagnitude value.natAbs :=
        le_roundMagnitude range (by omega)
      omega
    next unsigned =>
      rw [if_neg unsigned]
      omega
  · split at le
    next signed =>
      -- Only the two zeros can be at least zero with the sign bit set.
      have zero : value.natAbs * unitsPerOne = 0 := by omega
      have absent : value.natAbs = 0 :=
        (Nat.mul_eq_zero.mp zero).resolve_right unitsPerOne_pos.ne'
      have below := magnitudeUnits_strictMono.le_apply (x := number.magnitude)
      rw [absent, roundMagnitude, if_pos rfl]
      omega
    next unsigned =>
      have rounded : roundMagnitude value.natAbs ≤ number.magnitude :=
        roundMagnitude_le (by omega)
      rw [if_neg unsigned]
      omega

/-- **Rounding is monotone.** -/
theorem ofInt_mono {first second : Int} (le : first ≤ second) :
    (ofInt first).signedMagnitude ≤ (ofInt second).signedMagnitude := by
  rw [signedMagnitude_ofInt, signedMagnitude_ofInt]
  split <;> split
  · have rounded : roundMagnitude second.natAbs ≤ roundMagnitude first.natAbs :=
      roundMagnitude_mono (by omega)
    omega
  · omega
  · omega
  · have rounded : roundMagnitude first.natAbs ≤ roundMagnitude second.natAbs :=
      roundMagnitude_mono (by omega)
    omega

end OfInt

section Values

variable {number first second : Double} {integer : Int}

theorem toInt?_eq_some (whole : number.toInt? = some integer) :
    number.isFinite ∧ number.units = integer * unitsPerOne := by
  unfold toInt? at whole
  split at whole
  · next parts =>
    obtain rfl := Option.some.inj whole
    exact ⟨parts.1, (Int.ediv_mul_cancel (Int.dvd_of_emod_eq_zero parts.2)).symm⟩
  · cases whole

theorem toInt?_isSome (finite : number.isFinite) (whole : number.units = integer * unitsPerOne) :
    number.toInt? ≠ none := by
  rw [toInt?, if_pos ⟨finite, by rw [whole, Int.mul_emod_left]⟩]
  exact Option.some_ne_none _

/-- A natural number below `2 ^ 53` is a double. -/
theorem magnitudeUnits_roundMagnitude {value : Nat} (small : value < 2 ^ 53) :
    magnitudeUnits (roundMagnitude value) = value * unitsPerOne ∧
      roundMagnitude value < infinityMagnitude := by
  by_cases zero : value = 0
  · rw [zero, Nat.zero_mul]
    exact ⟨rfl, by decide⟩
  have bits : value.log2 ≤ 52 := Nat.lt_succ_iff.mp ((Nat.log2_lt zero).mpr small)
  have bounds := roundedSignificand_bounds zero
  have strict : roundedSignificand value < 2 ^ 53 := by
    rw [roundedSignificand, if_pos bits]
    calc value * 2 ^ (52 - value.log2)
        < 2 ^ (value.log2 + 1) * 2 ^ (52 - value.log2) :=
          Nat.mul_lt_mul_of_pos_right Nat.lt_log2_self (by positivity)
      _ = 2 ^ 53 := by
          rw [← pow_add]
          congr 1
          omega
  have pattern : roundMagnitude value =
      (1022 + value.log2) * 2 ^ 52 + roundedSignificand value := by
    rw [roundMagnitude, if_neg zero, infinityMagnitude]
    omega
  refine ⟨?_, by rw [pattern, infinityMagnitude]; omega⟩
  rw [pattern, magnitudeUnits, if_neg (by omega)]
  have field : ((1022 + value.log2) * 2 ^ 52 + roundedSignificand value) / 2 ^ 52 - 1 =
      1022 + value.log2 := by
    omega
  have fraction : 2 ^ 52 + ((1022 + value.log2) * 2 ^ 52 + roundedSignificand value) % 2 ^ 52 =
      roundedSignificand value := by
    omega
  rw [field, fraction, roundedSignificand, if_pos bits, mul_assoc, ← pow_add, unitsPerOne]
  congr 2
  omega

/-- An integer of fewer than 54 bits is kept by rounding. -/
theorem toInt?_ofInt {value : Int} (small : value.natAbs < 2 ^ 53) :
    (ofInt value).toInt? = some value := by
  obtain ⟨exact, finite⟩ := magnitudeUnits_roundMagnitude small
  have scaled := natAbs_mul_unitsPerOne value
  have units : (ofInt value).units = value * unitsPerOne := by
    rw [Double.units, signBit_ofInt, magnitude_ofInt, exact]
    by_cases negative : value < 0 <;> simp only [negative, decide_true, decide_false, if_true,
      if_false, Bool.false_eq_true] at scaled ⊢ <;> omega
  have positive : (unitsPerOne : Int) ≠ 0 := by exact_mod_cast unitsPerOne_pos.ne'
  have isFinite : (ofInt value).isFinite := by simpa [isFinite, magnitude_ofInt] using finite
  rw [toInt?, if_pos ⟨isFinite, by rw [units, Int.mul_emod_left]⟩, units,
    Int.mul_ediv_cancel _ positive]

/-- Numbers in order stand for integers in order. -/
theorem le_of_signedMagnitude_le {secondInteger : Int} (whole : first.toInt? = some integer)
    (secondWhole : second.toInt? = some secondInteger)
    (le : first.signedMagnitude ≤ second.signedMagnitude) : integer ≤ secondInteger := by
  have inOrder := signedMagnitude_lt_iff second first
  rw [(toInt?_eq_some whole).2, (toInt?_eq_some secondWhole).2] at inOrder
  by_contra greater
  have positive : (0 : Int) < unitsPerOne := by exact_mod_cast unitsPerOne_pos
  exact absurd (inOrder.mpr (Int.mul_lt_mul_of_pos_right (not_le.mp greater) positive)) le.not_gt

/-- Numbers with one value are one, but for the two zeros. -/
theorem eq_of_units_eq (same : first.units = second.units) (nonzero : first.units ≠ 0) :
    first = second := by
  have forward := signedMagnitude_lt_iff first second
  have backward := signedMagnitude_lt_iff second first
  have magnitudes : first.signedMagnitude = second.signedMagnitude := by omega
  have firstBits := bits_toNat_eq first
  have secondBits := bits_toNat_eq second
  have firstNonzero : first.magnitude ≠ 0 := by
    intro zero
    apply nonzero
    rw [units, zero]
    split <;> rfl
  apply eq_of_toNat_bits
  unfold signedMagnitude at magnitudes
  split at magnitudes <;> split at magnitudes <;> simp_all

/-- There is one infinity of each sign. -/
theorem eq_of_infinite (firstNumber : first.isNaN = false) (secondNumber : second.isNaN = false)
    (firstInfinite : first.isFinite = false) (secondInfinite : second.isFinite = false)
    (signs : first.signBit = second.signBit) :
    first = second := by
  have firstBits := bits_toNat_eq first
  have secondBits := bits_toNat_eq second
  simp only [isNaN, isFinite, decide_eq_false_iff_not] at *
  apply eq_of_toNat_bits
  rw [firstBits, signs]
  omega

end Values

end Double
