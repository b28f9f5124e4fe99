import Mathlib
import RenderFold.Proofs.Decimal.Closest

/-!
# Whole Numbers in Texts

A double that is a whole number below `10 ^ 21` is written by way of a signed
number of 64 bits, the nearest one there is. So it is written digit for digit
if it fits into 64 bits, and one end of their range stands for any that does
not. A whole number in the data is first made into the double nearest to it,
and the text shows the digits of that double.

## Theorems

* `numberText_of_value`: What is written for a whole double.
* `text_int_eq_iff`: A whole number in the data, and the double nearest to it.
* `numberText_whole_iff`: When the digits of a double are written for it.
-/

namespace RenderFold

open Decimal (Exact)

variable {x : Float} {parts : Exact} {z : Int}

namespace Decimal.Exact

/-- The magnitude of a whole double. -/
theorem magnitude_of_value (hvalue : parts.value = z) :
    (parts.mantissa * 2 ^ parts.exponent : ℚ) = z.natAbs := by
  rw [Nat.cast_natAbs, Int.cast_abs, ← hvalue]
  unfold value
  rw [abs_mul, ← Int.cast_abs, abs_signed, Int.cast_natCast, abs_of_pos (zpow_pos two_pos _)]

/-- The fractional part of a whole double is nothing. -/
theorem truncate_of_value (hvalue : parts.value = z) :
    parts.numerator = z.natAbs * parts.denominator ∧ parts.truncate = z := by
  have hnumerator : parts.numerator = z.natAbs * parts.denominator :=
    numerator_eq (magnitude_of_value hvalue)
  refine ⟨hnumerator, ?_⟩
  have hpow : (0 : ℚ) < 2 ^ parts.exponent := zpow_pos two_pos _
  unfold truncate
  rw [hnumerator, Nat.mul_div_cancel _ parts.denominator_pos]
  unfold value signed at hvalue
  split at hvalue
  · next hnegative =>
      have hz : (z : ℚ) ≤ 0 := by
        rw [← hvalue]
        exact mul_nonpos_of_nonpos_of_nonneg (by push_cast; exact neg_nonpos.mpr (Nat.cast_nonneg _))
          hpow.le
      have hz' : z ≤ 0 := by exact_mod_cast hz
      dsimp only
      rw [if_pos hnegative]
      omega
  · next hpositive =>
      have hz : (0 : ℚ) ≤ z := by
        rw [← hvalue]
        exact mul_nonneg (by push_cast; exact Nat.cast_nonneg _) hpow.le
      have hz' : 0 ≤ z := by exact_mod_cast hz
      dsimp only
      rw [if_neg hpositive]
      omega

end Decimal.Exact

/-- A whole double below `10 ^ 21` is written as the nearest signed number of
    64 bits. -/
theorem numberText_of_value (hparts : Exact.ofFloat? x = some parts) (hvalue : parts.value = z)
    (hlt : |z| < 10 ^ 21) : numberText x = toString (clamp64 z) := by
  obtain ⟨hnumerator, htruncate⟩ := Exact.truncate_of_value hvalue
  have hbelow : z.natAbs < Nat.pow 10 21 := by
    rw [Int.abs_eq_natAbs] at hlt
    exact_mod_cast hlt
  unfold numberText
  rw [hparts]
  dsimp only
  rw [Exact.isWhole_of_numerator hnumerator, Exact.isBelow_of_numerator hnumerator hbelow,
    Bool.and_true, if_pos rfl, htruncate]

/-- A number that fits into 64 bits is the only one that the clamp keeps. -/
theorem clamp64_eq_self_iff : clamp64 z = z ↔ -2 ^ 63 ≤ z ∧ z < 2 ^ 63 := by
  unfold clamp64
  omega

theorem numberText_eq_iff (hparts : Exact.ofFloat? x = some parts) (hvalue : parts.value = z)
    (hlt : |z| < 10 ^ 21) : numberText x = toString z ↔ -2 ^ 63 ≤ z ∧ z < 2 ^ 63 := by
  rw [numberText_of_value hparts hvalue hlt, Int.toString_eq_repr, Int.toString_eq_repr,
    Int.repr_inj, clamp64_eq_self_iff]

/-- A whole number of 64 bits in the data is written by the digits of the
    double nearest to it, unless that double has grown out of the signed ones. -/
theorem text_int_eq_iff {n : Int} (hlow : -2 ^ 63 ≤ n) (hhigh : n < 2 ^ 64) :
    ∃ parts, ∃ z : Int, Exact.ofFloat? (Float.ofInt n) = some parts ∧ parts.Nearest n ∧
      parts.value = z ∧ ((Value.int n).text = toString z ↔ z < 2 ^ 63) := by
  obtain ⟨parts, z, hparts, hnearest, hvalue⟩ := Decimal.ofFloat?_ofInt (by omega) hhigh
  -- Both ends of the range are doubles, so rounding does not cross them.
  have hleast : Exact.ofFloat? (Float.ofInt (-2 ^ 63)) = some ⟨true, 2 ^ 52, 11⟩ := by
    decide +kernel
  have hgreatest : Exact.ofFloat? (Float.ofInt (2 ^ 64)) = some ⟨false, 2 ^ 52, 12⟩ := by
    decide +kernel
  have hleast' : Exact.value ⟨true, 2 ^ 52, 11⟩ = ((-2 ^ 63 : Int) : ℚ) := by
    rw [Exact.value_negative]
    norm_num
  have hgreatest' : Exact.value ⟨false, 2 ^ 52, 12⟩ = ((2 ^ 64 : Int) : ℚ) := by
    rw [Exact.value_positive]
    norm_num
  have hz : -2 ^ 63 ≤ z := by
    have h := hnearest.le_value hleast (by rw [hleast']; exact_mod_cast hlow)
    rw [hleast', hvalue] at h
    exact_mod_cast h
  have hz' : z ≤ 2 ^ 64 := by
    have h := hnearest.value_le hgreatest (by rw [hgreatest']; exact_mod_cast hhigh.le)
    rw [hgreatest', hvalue] at h
    exact_mod_cast h
  refine ⟨parts, z, hparts, hnearest, hvalue, ?_⟩
  have htext := numberText_eq_iff hparts hvalue (abs_lt.mpr ⟨by omega, by omega⟩)
  change numberText (Float.ofInt n) = _ ↔ _
  rw [htext]
  exact and_iff_right hz

/-- A whole double below `10 ^ 21` is written as the nearest signed number of
    64 bits, and so by its digits if and only if it is one of these. A whole
    number in the data is written by the digits of the double nearest to it if
    and only if that double is below `2 ^ 63`. -/
theorem numberText_whole_iff (x : Float) (n : Int) :
    (∀ (parts : Exact) (z : Int), Exact.ofFloat? x = some parts → parts.value = z →
      |z| < 10 ^ 21 → numberText x = toString (clamp64 z) ∧
        (numberText x = toString z ↔ -2 ^ 63 ≤ z ∧ z < 2 ^ 63)) ∧
    (-2 ^ 63 ≤ n → n < 2 ^ 64 →
      ∃ parts, ∃ z : Int, Exact.ofFloat? (Float.ofInt n) = some parts ∧ parts.Nearest n ∧
        parts.value = z ∧ ((Value.int n).text = toString z ↔ z < 2 ^ 63)) :=
  ⟨fun _ _ hparts hvalue hlt =>
      ⟨numberText_of_value hparts hvalue hlt, numberText_eq_iff hparts hvalue hlt⟩,
    fun hlow hhigh => text_int_eq_iff hlow hhigh⟩

/-- The whole number `2 ^ 53 + 1` is written as the double `2 ^ 53`. -/
theorem numberText_whole_rounded :
    Exact.ofFloat? (Float.ofInt 9007199254740993) = some ⟨false, 2 ^ 52, 1⟩ ∧
      (Value.int 9007199254740993).text = toString (9007199254740992 : Int) ∧
      ∃ parts, ∃ z : Int, Exact.ofFloat? (Float.ofInt 9007199254740993) = some parts ∧
        parts.Nearest (9007199254740993 : Int) ∧ parts.value = z ∧
        ((Value.int 9007199254740993).text = toString z ↔ z < 2 ^ 63) := by
  have hparts : Exact.ofFloat? (Float.ofInt 9007199254740993) = some ⟨false, 2 ^ 52, 1⟩ := by
    decide +kernel
  have hvalue : Exact.value ⟨false, 2 ^ 52, 1⟩ = ((9007199254740992 : Int) : ℚ) := by
    rw [Exact.value_positive]
    norm_num
  exact ⟨hparts,
    ((numberText_whole_iff _ 0).1 _ _ hparts hvalue (by decide)).2.mpr ⟨by decide, by decide⟩,
    (numberText_whole_iff 0 9007199254740993).2 (by decide) (by decide)⟩

/-- The double `10 ^ 20` is whole and below `10 ^ 21`, but what is written for
    it is the greatest signed number of 64 bits. So it is for the whole number
    `2 ^ 63`, which is a double itself. -/
theorem numberText_saturated :
    ∃ parts, Exact.ofFloat? (Float.ofBits 0x4415af1d78b58c40) = some parts ∧
      parts.value = ((10 ^ 20 : Int) : ℚ) ∧ |(10 ^ 20 : Int)| < 10 ^ 21 ∧
      numberText (Float.ofBits 0x4415af1d78b58c40) ≠ toString (10 ^ 20 : Int) ∧
      numberText (Float.ofBits 0x4415af1d78b58c40) = "9223372036854775807" ∧
      (Value.int (2 ^ 63)).text = "9223372036854775807" := by
  refine ⟨⟨false, 6103515625000000, 14⟩, by decide +kernel, ?_, by decide, by decide +kernel,
    by decide +kernel, by decide +kernel⟩
  rw [Exact.value_positive]
  norm_num

end RenderFold
