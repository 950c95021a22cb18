import Mathlib.Data.UInt
import Mathlib.Tactic.Ring
import Quereus.Lib.KeyOrder

/-!
# Big-endian numerals

Fixed-width big-endian byte strings compare as the numbers they spell, and the two bit
operations sortable keys are built from act on them arithmetically: inverting every byte is
subtraction from the largest numeral, and flipping the leading bit adds half the range.
-/

namespace KeyOrder

/-- The low `width` bytes of `value`, most significant first. -/
def bigEndian : Nat → Nat → List UInt8
  | 0, _ => []
  | width + 1, value => UInt8.ofNat (value / 256 ^ width) :: bigEndian width value

/-- Inverts every bit of a byte. -/
def invertByte (byte : UInt8) : UInt8 :=
  byte ^^^ 0xff

/-- Flips the leading bit of a byte string. -/
def flipLeadingBit : List UInt8 → List UInt8
  | [] => []
  | byte :: rest => (byte ^^^ 0x80) :: rest

variable (width value : Nat)

@[simp]
theorem length_bigEndian : (bigEndian width value).length = width := by
  induction width with
  | zero => rfl
  | succ width ih => simp [bigEndian, ih]

theorem bigEndian_mod : bigEndian width (value % 256 ^ width) = bigEndian width value := by
  suffices general : ∀ extra, bigEndian width (value % 256 ^ (width + extra)) =
      bigEndian width value from general 0
  induction width with
  | zero => intro extra; rfl
  | succ width ih =>
    intro extra
    have tail : bigEndian width (value % 256 ^ (width + 1 + extra)) =
        bigEndian width value := by
      rw [Nat.add_assoc]
      exact ih (1 + extra)
    have digit : value % 256 ^ (width + 1 + extra) / 256 ^ width % 256 =
        value / 256 ^ width % 256 := by
      have split : 256 ^ (width + 1 + extra) = 256 ^ width * (256 * 256 ^ extra) := by
        rw [pow_add, pow_succ, mul_assoc]
      rw [split, Nat.mod_mul_right_div_self, Nat.mod_mul_right_mod]
    simp only [bigEndian, tail, List.cons.injEq, and_true]
    rw [← UInt8.toNat_inj, UInt8.toNat_ofNat']
    exact digit

theorem compare_eq_then_div_mod (base first second : Nat) :
    compare first second =
      (compare (first / base) (second / base)).then (compare (first % base) (second % base)) := by
  rcases Nat.lt_trichotomy (first / base) (second / base) with below | same | above
  · have strict : first < second := lt_of_not_ge fun le =>
      absurd (Nat.div_le_div_right (c := base) le) (by omega)
    rw [Nat.compare_eq_lt.mpr below, Nat.compare_eq_lt.mpr strict]
    rfl
  · have firstSplit := Nat.div_add_mod first base
    have secondSplit := Nat.div_add_mod second base
    rw [Nat.compare_eq_eq.mpr same]
    rw [same] at firstSplit
    exact compare_congr (by omega) (by omega)
  · have strict : second < first := lt_of_not_ge fun le =>
      absurd (Nat.div_le_div_right (c := base) le) (by omega)
    rw [Nat.compare_eq_gt.mpr above, Nat.compare_eq_gt.mpr strict]
    rfl

/-- **Numerals of one width compare as the numbers they spell.** -/
theorem compare_bigEndian {width first second : Nat} (firstBound : first < 256 ^ width)
    (secondBound : second < 256 ^ width) :
    compare (bigEndian width first) (bigEndian width second) = compare first second := by
  induction width generalizing first second with
  | zero =>
    obtain rfl : first = 0 := by simpa using firstBound
    obtain rfl : second = 0 := by simpa using secondBound
    rfl
  | succ width ih =>
    have positive : 0 < 256 ^ width := Nat.pow_pos (by decide)
    have leading : ∀ value < 256 ^ (width + 1), value / 256 ^ width < 256 := by
      intro value bound
      rw [Nat.div_lt_iff_lt_mul positive]
      rwa [pow_succ, mul_comm] at bound
    have digit : ∀ value < 256 ^ (width + 1),
        (UInt8.ofNat (value / 256 ^ width)).toNat = value / 256 ^ width := by
      intro value bound
      rw [UInt8.toNat_ofNat', Nat.mod_eq_of_lt (leading value bound)]
    have tails := ih (Nat.mod_lt first positive) (Nat.mod_lt second positive)
    rw [bigEndian_mod, bigEndian_mod] at tails
    rw [bigEndian, bigEndian, List.compare_cons_cons, tails, UInt8.compare_eq_toNat_compare_toNat,
      digit first firstBound, digit second secondBound,
      ← compare_eq_then_div_mod (256 ^ width)]

theorem decides_bigEndian {width first second : Nat} (firstBound : first < 256 ^ width)
    (secondBound : second < 256 ^ width) :
    Decides (compare first second) (bigEndian width first) (bigEndian width second) := by
  rw [← compare_bigEndian firstBound secondBound]
  exact decides_of_length_eq (by simp)

theorem toNat_invertByte (byte : UInt8) : (invertByte byte).toNat = 255 - byte.toNat := by
  have bound := byte.toNat_lt
  have table : ∀ value : Fin 256, value.val ^^^ 255 = 255 - value.val := by decide +kernel
  exact table ⟨byte.toNat, bound⟩

theorem compare_invertByte (first second : UInt8) :
    compare (invertByte first) (invertByte second) = compare second first := by
  rw [UInt8.compare_eq_toNat_compare_toNat, UInt8.compare_eq_toNat_compare_toNat, toNat_invertByte,
    toNat_invertByte]
  have firstBound := first.toNat_lt
  have secondBound := second.toNat_lt
  exact compare_congr (by omega) (by omega)

/-- Inverting every byte of a numeral subtracts it from the largest numeral of its width. -/
theorem map_invertByte_bigEndian {width value : Nat} (bound : value < 256 ^ width) :
    (bigEndian width value).map invertByte = bigEndian width (256 ^ width - 1 - value) := by
  induction width generalizing value with
  | zero => rfl
  | succ width ih =>
    have positive : 0 < 256 ^ width := Nat.pow_pos (by decide)
    have power : 256 ^ (width + 1) = 256 ^ width * 256 := pow_succ ..
    have split := Nat.div_add_mod value (256 ^ width)
    have rest : value % 256 ^ width < 256 ^ width := Nat.mod_lt _ positive
    have leading : value / 256 ^ width < 256 := by
      rw [Nat.div_lt_iff_lt_mul positive]
      rwa [power, mul_comm] at bound
    -- The complement splits digit by digit, without borrows.
    have complement : 256 ^ (width + 1) - 1 - value =
        256 ^ width * (255 - value / 256 ^ width) +
          (256 ^ width - 1 - value % 256 ^ width) := by
      have product : 256 ^ width * (255 - value / 256 ^ width) =
          256 ^ width * 255 - 256 ^ width * (value / 256 ^ width) := Nat.mul_sub ..
      have le : 256 ^ width * (value / 256 ^ width) ≤ 256 ^ width * 255 :=
        Nat.mul_le_mul_left _ (by omega)
      omega
    have low : 256 ^ width - 1 - value % 256 ^ width < 256 ^ width := by omega
    have quotient : (256 ^ (width + 1) - 1 - value) / 256 ^ width =
        255 - value / 256 ^ width := by
      rw [complement, Nat.mul_add_div positive, Nat.div_eq_of_lt low, Nat.add_zero]
    have remainder : (256 ^ (width + 1) - 1 - value) % 256 ^ width =
        256 ^ width - 1 - value % 256 ^ width := by
      rw [complement, Nat.mul_add_mod, Nat.mod_eq_of_lt low]
    have tails := ih rest
    rw [bigEndian_mod] at tails
    rw [bigEndian, bigEndian, List.map_cons, tails, ← remainder, bigEndian_mod]
    congr 1
    rw [← UInt8.toNat_inj, toNat_invertByte, UInt8.toNat_ofNat', UInt8.toNat_ofNat']
    omega

/-- Flipping the leading bit of a numeral adds half its range, wrapping around. -/
theorem flipLeadingBit_bigEndian : flipLeadingBit (bigEndian (width + 1) value) =
      bigEndian (width + 1) (value + 128 * 256 ^ width) := by
  have positive : 0 < 256 ^ width := Nat.pow_pos (by decide)
  have quotient : (value + 128 * 256 ^ width) / 256 ^ width = value / 256 ^ width + 128 :=
    Nat.add_mul_div_right _ _ positive
  have tail : bigEndian width (value + 128 * 256 ^ width) = bigEndian width value := by
    rw [← bigEndian_mod, Nat.add_mul_mod_self_right, bigEndian_mod]
  have table : ∀ digit : Fin 256, digit.val ^^^ 128 = (digit.val + 128) % 256 := by
    decide +kernel
  rw [bigEndian, bigEndian, flipLeadingBit, quotient, tail]
  congr 1
  rw [← UInt8.toNat_inj, UInt8.toNat_xor, UInt8.toNat_ofNat']
  have digit := table ⟨value / 256 ^ width % 256, Nat.mod_lt _ (by decide)⟩
  simpa using digit

end KeyOrder
