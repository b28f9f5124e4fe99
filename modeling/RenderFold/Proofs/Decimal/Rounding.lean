import RenderFold.Decimal.Exact
import Mathlib.Algebra.Order.Field.Power
import Mathlib.Data.Rat.Cast.Order
import Mathlib.Tactic.Linarith
import Mathlib.Tactic.NormNum
import Mathlib.Tactic.Ring

/-!
# Rounding to a Double

An operation on doubles computes its result to a few bits more than fit, with
one more bit for the next binary place and one for whether anything is left
after it, and then rounds. What such a mantissa says about the exact number is
all that is needed to round it, and shifting it to the right keeps what it
says.

A double is the result of rounding whenever the exact number lies in the
interval around it, whose ends belong to it if the mantissa is even. Below
the least mantissa of an exponent the interval is only half as long. If the
number is there, its binary places start one place lower, and it is rounded
up to a mantissa with one bit too many, which is then shifted back.

## Main definitions

* `Holds`: What a mantissa with two more bits says about a number.
* `Canonical`: The mantissas and exponents of positive doubles.
* `Rounds`: A number lies in the rounding interval of a double.

## Theorems

* `Holds.shiftRight`, `Holds.roundedMantissa`: Shifting and rounding.
* `roundWithAccuracy_eq`: Rounding gives the double whose interval the number
  is in.
-/

namespace RenderFold

namespace Decimal

open Float.Model (totalExponent)
open Float.Model.Format (binary64)
open Float.Model.UnpackedFloat (ExtendedMantissa Accuracy Sign roundWithAccuracy
  shiftToTargetExponent shiftToExponent)

variable {em : ExtendedMantissa} {x q : ℚ} {M m : Nat} {E e : Int} {accuracy : Accuracy}

/-- The part of a number that a mantissa and the next binary place show. -/
def shown (em : ExtendedMantissa) : ℚ := em.mantissa + if em.roundBit then 1 / 2 else 0

/-- What a mantissa with two more bits says about a number: the part that is
    shown, and whether anything is left. -/
structure Holds (em : ExtendedMantissa) (x : ℚ) : Prop where
  shown_le : shown em ≤ x
  lt : x < shown em + 1 / 2
  sticky : em.stickyBit = true ↔ shown em < x

namespace Holds

theorem exact (m : Nat) : Holds (.ofMantissaAndAccuracy m .exact) m := by
  refine ⟨?_, ?_, ?_⟩ <;> simp [shown, ExtendedMantissa.ofMantissaAndAccuracy]

/-- The whole part of a fraction, with how its rest compares to a half. -/
theorem fraction (a : Nat) {b : Nat} (hb : 0 < b) :
    Holds (.ofMantissaAndAccuracy (a / b)
      (Float.Model.UnpackedFloat.accuracyOfFraction (a % b) b)) ((a : ℚ) / b) := by
  have hb' : (0 : ℚ) < b := by exact_mod_cast hb
  have hsum : (a : ℚ) = (a / b : Nat) * b + (a % b : Nat) := by
    exact_mod_cast (Nat.div_add_mod' a b).symm
  have hx : (a : ℚ) / b = (a / b : Nat) + ((a % b : Nat) : ℚ) / b := by
    nth_rewrite 1 [hsum]
    rw [add_div, mul_div_cancel_right₀ _ hb'.ne']
  have hrest : ((a % b : Nat) : ℚ) < b := by exact_mod_cast Nat.mod_lt a hb
  rw [hx]
  unfold Float.Model.UnpackedFloat.accuracyOfFraction
  by_cases hzero : a % b = 0
  · rw [if_pos hzero, hzero, Nat.cast_zero, zero_div, add_zero]
    exact exact _
  · rw [if_neg hzero]
    have hpos : (0 : ℚ) < ((a % b : Nat) : ℚ) / b :=
      div_pos (by exact_mod_cast Nat.pos_of_ne_zero hzero) hb'
    rcases hcompare : compare (2 * (a % b)) b with _ | _ | _
    · have hlt : 2 * (a % b) < b := Nat.compare_eq_lt.mp hcompare
      have hhalf : ((a % b : Nat) : ℚ) / b < 1 / 2 := by
        rw [div_lt_div_iff₀ hb' two_pos, one_mul, mul_comm]
        exact_mod_cast hlt
      refine ⟨?_, ?_, ?_⟩ <;>
        simp only [shown, ExtendedMantissa.ofMantissaAndAccuracy, Bool.false_eq_true, if_false,
          true_iff] <;> linarith
    · have heq : 2 * (a % b) = b := Nat.compare_eq_eq.mp hcompare
      have hhalf : ((a % b : Nat) : ℚ) / b = 1 / 2 := by
        rw [div_eq_div_iff hb'.ne' two_ne_zero, one_mul, mul_comm]
        exact_mod_cast heq
      refine ⟨?_, ?_, ?_⟩ <;>
        simp only [shown, ExtendedMantissa.ofMantissaAndAccuracy, Bool.false_eq_true, if_true,
          false_iff] <;> linarith
    · have hgt : b < 2 * (a % b) := Nat.compare_eq_gt.mp hcompare
      have hhalf : 1 / 2 < ((a % b : Nat) : ℚ) / b := by
        rw [div_lt_div_iff₀ two_pos hb', one_mul, mul_comm (_ : ℚ) 2]
        exact_mod_cast hgt
      have hone : ((a % b : Nat) : ℚ) / b < 1 := (div_lt_one₀ hb').mpr hrest
      refine ⟨?_, ?_, ?_⟩ <;>
        simp only [shown, ExtendedMantissa.ofMantissaAndAccuracy, if_true, true_iff] <;> linarith

theorem mantissa_le (h : Holds em x) : (em.mantissa : ℚ) ≤ x := by
  have hle := h.shown_le
  unfold shown at hle
  split at hle <;> linarith

theorem lt_mantissa (h : Holds em x) : x < em.mantissa + 1 := by
  have hlt := h.lt
  unfold shown at hlt
  split at hlt <;> linarith

theorem shiftRightOne (h : Holds em x) : Holds em.shiftRightOne (x / 2) := by
  rcases em with ⟨m, round, sticky⟩
  have hshown : shown (ExtendedMantissa.shiftRightOne ⟨m, round, sticky⟩) = m / 2 := by
    have hsum : (m : ℚ) = (m % 2 : Nat) + 2 * (m / 2 : Nat) := by
      exact_mod_cast (Nat.mod_add_div m 2).symm
    unfold shown ExtendedMantissa.shiftRightOne
    dsimp only
    rcases Nat.mod_two_eq_zero_or_one m with hm | hm
    · rw [hm] at hsum ⊢
      simp only [bne_self_eq_false, Bool.false_eq_true, if_false]
      push_cast at hsum
      linarith
    · rw [hm] at hsum ⊢
      simp only [show ((1 : Nat) != 0) = true from rfl, if_true]
      push_cast at hsum
      linarith
  have hle := h.mantissa_le
  have hlt := h.lt_mantissa
  refine ⟨?_, ?_, ?_⟩
  · rw [hshown]
    linarith
  · rw [hshown]
    linarith
  · rw [hshown]
    have hsticky := h.sticky
    cases round with
    | true =>
        have hhalf := h.shown_le
        simp only [shown, if_true] at hhalf
        simp only [ExtendedMantissa.shiftRightOne, Bool.true_or, true_iff]
        linarith
    | false =>
        simp only [shown, Bool.false_eq_true, if_false, add_zero] at hsticky
        simp only [ExtendedMantissa.shiftRightOne, Bool.false_or, hsticky]
        exact (div_lt_div_iff_of_pos_right two_pos).symm

/-- Shifting to the right keeps what is said about the number. -/
theorem shiftRight (h : Holds em x) (n : Nat) : Holds (em >>> n) (x / 2 ^ n) := by
  change Holds (n.repeat ExtendedMantissa.shiftRightOne em) _
  induction n with
  | zero =>
      rw [pow_zero, div_one]
      exact h
  | succ n ih =>
      rw [pow_succ, ← div_div]
      exact ih.shiftRightOne

/-- A number within a half of a mantissa is rounded to it. The half itself
    belongs to even mantissas. -/
theorem roundedMantissa (h : Holds em x) (hlow : (M : ℚ) - 1 / 2 ≤ x) (hhigh : x ≤ M + 1 / 2)
    (hodd : M % 2 = 1 → (M : ℚ) - 1 / 2 < x ∧ x < M + 1 / 2) : em.roundedMantissa = M := by
  rcases em with ⟨m, round, sticky⟩
  have hle := h.shown_le
  have hlt := h.lt
  have hsticky := h.sticky
  unfold ExtendedMantissa.roundedMantissa
  cases round with
  | false =>
      simp only [shown, Bool.false_eq_true, if_false, add_zero] at hle hlt hsticky
      have hbelow : m < M + 1 := by
        have hm : (m : ℚ) < M + 1 := by linarith
        exact_mod_cast hm
      have habove : M < m + 1 := by
        have hM : (M : ℚ) < m + 1 := by linarith
        exact_mod_cast hM
      have heq : m = M := by omega
      cases sticky <;> exact heq
  | true =>
      simp only [shown, if_true] at hle hlt hsticky
      have hbelow : m ≤ M := by
        have hm : (m : ℚ) ≤ M := by linarith
        exact_mod_cast hm
      have habove : M < m + 2 := by
        have hM : (M : ℚ) < m + 2 := by linarith
        exact_mod_cast hM
      cases sticky with
      | false =>
          -- The number is half way between two mantissas, one of which is even.
          have hx : x = m + 1 / 2 := by
            refine le_antisymm (not_lt.mp fun hmore => ?_) hle
            exact Bool.false_ne_true (hsticky.mpr hmore)
          change m + m % 2 = M
          rcases Nat.mod_two_eq_zero_or_one M with hM | hM
          · omega
          · obtain ⟨hstrict, hstrict'⟩ := hodd hM
            have hm : (m : ℚ) < M := by linarith
            have hm' : (M : ℚ) < m + 1 := by linarith
            have hcast : m < M := by exact_mod_cast hm
            have hcast' : M < m + 1 := by exact_mod_cast hm'
            omega
      | true =>
          have hmore : (m : ℚ) + 1 / 2 < x := hsticky.mp rfl
          have hm : (m : ℚ) < M := by linarith
          have hcast : m < M := by exact_mod_cast hm
          change m + 1 = M
          omega

end Holds

/-- The mantissas and exponents of positive doubles. -/
structure Canonical (M : Nat) (E : Int) : Prop where
  pos : 0 < M
  lt : M < 2 ^ 53
  min_le : -1074 ≤ E
  full : 2 ^ 52 ≤ M ∨ E = -1074
  le_max : E ≤ 971

/-- A number lies in the rounding interval of a double. The numbers are in
    units of the last binary place of the double. -/
structure Rounds (x : ℚ) (M : Nat) (E : Int) : Prop where
  low : (M : ℚ) - (if M = 2 ^ 52 ∧ -1074 < E then 1 / 4 else 1 / 2) ≤ x
  high : x ≤ M + 1 / 2
  odd : M % 2 = 1 → (M : ℚ) - 1 / 2 < x ∧ x < M + 1 / 2

theorem Rounds.self (M : Nat) (E : Int) : Rounds M M E := by
  refine ⟨?_, by linarith, fun _ => ⟨by linarith, by linarith⟩⟩
  split <;> linarith

theorem targetExponent_eq (t : Int) : binary64.targetExponent t = max (t - 53) (-1074) := by
  rfl

/-- A number lies between two powers of two, which its mantissa shows. -/
theorem exponent_eq_of_bounds {t : Int} (hlow : (2 : ℚ) ^ (totalExponent m e - 1) ≤ q)
    (hhigh : q < 2 ^ totalExponent m e) (hlow' : (2 : ℚ) ^ (t - 1) ≤ q) (hhigh' : q < 2 ^ t) :
    totalExponent m e = t := by
  have hlt := (zpow_lt_zpow_iff_right₀ one_lt_two).mp (hlow.trans_lt hhigh')
  have hlt' := (zpow_lt_zpow_iff_right₀ one_lt_two).mp (hlow'.trans_lt hhigh)
  omega

theorem bounds_of_holds (hm : 0 < m) (h : Holds (.ofMantissaAndAccuracy m accuracy) (q / 2 ^ e)) :
    (2 : ℚ) ^ (totalExponent m e - 1) ≤ q ∧ q < 2 ^ totalExponent m e := by
  have hmantissa : (ExtendedMantissa.ofMantissaAndAccuracy m accuracy).mantissa = m := by
    rcases accuracy with _ | (_ | _ | _) <;> rfl
  have hle := h.mantissa_le
  have hlt := h.lt_mantissa
  rw [hmantissa] at hle hlt
  have hpow : (0 : ℚ) < 2 ^ e := zpow_pos two_pos e
  have hlow : (2 : ℚ) ^ m.log2 ≤ m := by exact_mod_cast Nat.log2_self_le hm.ne'
  have hhigh : (m : ℚ) + 1 ≤ 2 ^ (m.log2 + 1) := by
    exact_mod_cast (Nat.log2_lt hm.ne').mp (Nat.lt_succ_self m.log2)
  unfold totalExponent
  constructor
  · rw [show (m.log2 : Int) + 1 + e - 1 = m.log2 + e by ring, zpow_add₀ two_ne_zero, zpow_natCast]
    exact (mul_le_mul_of_nonneg_right hlow hpow.le).trans ((le_div_iff₀ hpow).mp hle)
  · rw [zpow_add₀ two_ne_zero, show (m.log2 : Int) + 1 = ((m.log2 + 1 : Nat) : Int) by push_cast; ring,
      zpow_natCast]
    exact (div_lt_iff₀ hpow).mp (hlt.trans_le hhigh)

/-- The exponent that a number is shifted to is that of the double it is
    rounded to, or one less if the double has the least mantissa of its
    exponent and the number is below it. -/
theorem targetExponent_cases (hcanonical : Canonical M E) (hrounds : Rounds (q / 2 ^ E) M E)
    (h : Holds (.ofMantissaAndAccuracy m accuracy) (q / 2 ^ e))
    (henough : e ≤ binary64.targetExponent (totalExponent m e)) :
    binary64.targetExponent (totalExponent m e) = E ∨
      M = 2 ^ 52 ∧ -1074 < E ∧ binary64.targetExponent (totalExponent m e) = E - 1 ∧
        q / 2 ^ E < 2 ^ 52 := by
  have hpow : (0 : ℚ) < 2 ^ E := zpow_pos two_pos E
  have hpos : (1 : ℚ) ≤ M := by exact_mod_cast hcanonical.pos
  have hM : (M : ℚ) + 1 ≤ 2 ^ 53 := by exact_mod_cast hcanonical.lt
  have hlow : (M : ℚ) - 1 / 2 ≤ q / 2 ^ E := by
    have hlow := hrounds.low
    split at hlow <;> linarith
  have hhigh := hrounds.high
  rw [targetExponent_eq] at henough ⊢
  have hmin := hcanonical.min_le
  rcases Nat.eq_zero_or_pos m with rfl | hm
  · -- Nothing is left of the number, so it is below every exponent but the least.
    have htotal : totalExponent 0 e = 1 + e := by
      unfold totalExponent
      rw [show Nat.log2 0 = 0 from rfl]
      push_cast
      ring
    rw [htotal] at henough ⊢
    have he : e ≤ -1074 := by omega
    have hmantissa : (ExtendedMantissa.ofMantissaAndAccuracy 0 accuracy).mantissa = 0 := by
      rcases accuracy with _ | (_ | _ | _) <;> rfl
    have hlt := h.lt_mantissa
    rw [hmantissa, Nat.cast_zero, zero_add, div_lt_one₀ (zpow_pos two_pos e)] at hlt
    have hone : q / 2 ^ E < 1 := by
      rw [div_lt_one₀ hpow]
      exact hlt.trans_le (zpow_le_zpow_right₀ one_le_two (by omega))
    have hless : (M : ℚ) < 2 := by linarith
    have hMone : M < 2 := by exact_mod_cast hless
    rcases hcanonical.full with hfull | hfull
    · omega
    · exact Or.inl (by omega)
  · obtain ⟨hbelow, habove⟩ := bounds_of_holds hm h
    have hunder {n : Nat} (hn : q / 2 ^ E < 2 ^ n) : q < 2 ^ ((n : Int) + E) := by
      rw [zpow_add₀ two_ne_zero, zpow_natCast]
      exact (div_lt_iff₀ hpow).mp hn
    have hover {n : Nat} (hn : (2 : ℚ) ^ n ≤ q / 2 ^ E) : 2 ^ ((n : Int) + E) ≤ q := by
      rw [zpow_add₀ two_ne_zero, zpow_natCast]
      exact (le_div_iff₀ hpow).mp hn
    by_cases hx : (2 : ℚ) ^ 52 ≤ q / 2 ^ E
    · have ht := exponent_eq_of_bounds (t := 53 + E) hbelow habove
        (by rw [show 53 + E - 1 = ((52 : Nat) : Int) + E by push_cast; ring]; exact hover hx)
        (by
          have hn : q / 2 ^ E < 2 ^ 53 := by linarith
          exact_mod_cast hunder hn)
      exact Or.inl (by omega)
    · have hx' : q / 2 ^ E < 2 ^ 52 := not_le.mp hx
      by_cases hE : -1074 < E
      · have hfull : 2 ^ 52 ≤ M := hcanonical.full.resolve_right (by omega)
        have hless : (M : ℚ) < 2 ^ 52 + 1 := by linarith
        have hleast : M < 2 ^ 52 + 1 := by exact_mod_cast hless
        have heq : M = 2 ^ 52 := by omega
        have hthree : (2 : ℚ) ^ 51 ≤ q / 2 ^ E := by
          rw [heq] at hlow
          push_cast at hlow
          linarith
        have ht := exponent_eq_of_bounds (t := 52 + E) hbelow habove
          (by rw [show 52 + E - 1 = ((51 : Nat) : Int) + E by push_cast; ring]; exact hover hthree)
          (by exact_mod_cast hunder hx')
        exact Or.inr ⟨heq, hE, by omega, hx'⟩
      · have hlt := (zpow_lt_zpow_iff_right₀ one_lt_two).mp (hbelow.trans_lt (hunder hx'))
        push_cast at hlt
        exact Or.inl (by omega)

theorem shiftToExponent_holds {T : Int} (hle : e ≤ T)
    (h : Holds (.ofMantissaAndAccuracy m accuracy) (q / 2 ^ e)) :
    Holds (shiftToExponent m e accuracy T).1 (q / 2 ^ T) ∧
      (shiftToExponent m e accuracy T).2 = T := by
  have hcast : (((T - e).toNat : Nat) : Int) = T - e := Int.toNat_of_nonneg (by omega)
  constructor
  · have hshift := h.shiftRight (T - e).toNat
    rw [div_div, ← zpow_natCast, hcast, ← zpow_add₀ two_ne_zero, add_sub_cancel] at hshift
    exact hshift
  · change e + (((T - e).toNat : Nat) : Int) = T
    omega

/-- Nothing is shifted out of the mantissa of a double. -/
theorem shiftToTargetExponent_of_canonical (h : Canonical M E) :
    shiftToTargetExponent binary64 M E .exact = (⟨M, false, false⟩, E) := by
  have hlog : M.log2 < 53 := (Nat.log2_lt h.pos.ne').mpr h.lt
  have hamount : (binary64.targetExponent (totalExponent M E) - E).toNat = 0 := by
    rw [targetExponent_eq]
    unfold totalExponent
    have hmin := h.min_le
    omega
  unfold shiftToTargetExponent shiftToExponent
  dsimp only
  rw [hamount, Nat.cast_zero, add_zero]
  rfl

/-- One bit too many is shifted out. -/
theorem shiftToTargetExponent_of_carry (hE : -1074 < E) :
    shiftToTargetExponent binary64 (2 ^ 53) (E - 1) .exact = (⟨2 ^ 52, false, false⟩, E) := by
  have hamount : (binary64.targetExponent (totalExponent (2 ^ 53) (E - 1)) - (E - 1)).toNat = 1 := by
    rw [targetExponent_eq]
    unfold totalExponent
    rw [Nat.log2_two_pow]
    omega
  unfold shiftToTargetExponent shiftToExponent
  dsimp only
  rw [hamount, Nat.cast_one, sub_add_cancel]
  rfl

/-- Rounding gives the double whose interval the number is in, if the mantissa
    has as many bits as a double has, or more. -/
theorem roundWithAccuracy_eq (sign : Sign) (hcanonical : Canonical M E)
    (hrounds : Rounds (q / 2 ^ E) M E)
    (h : Holds (.ofMantissaAndAccuracy m accuracy) (q / 2 ^ e))
    (henough : e ≤ binary64.targetExponent (totalExponent m e)) :
    roundWithAccuracy binary64 sign m e accuracy = .finite sign M E hcanonical.pos := by
  obtain ⟨hholds, hexponent⟩ := shiftToExponent_holds henough h
  -- The mantissa after rounding, shifted once more, is that of the double.
  have hsecond : shiftToTargetExponent binary64
      (shiftToTargetExponent binary64 m e accuracy).1.roundedMantissa
      (shiftToTargetExponent binary64 m e accuracy).2 .exact = (⟨M, false, false⟩, E) := by
    change shiftToTargetExponent binary64 (shiftToExponent m e accuracy _).1.roundedMantissa
      (shiftToExponent m e accuracy _).2 .exact = _
    rw [hexponent]
    rcases targetExponent_cases hcanonical hrounds h henough with hT | ⟨rfl, hE, hT, hx⟩
    · rw [hT] at hholds ⊢
      rw [hholds.roundedMantissa ?_ hrounds.high hrounds.odd]
      · exact shiftToTargetExponent_of_canonical hcanonical
      · have hlow := hrounds.low
        split at hlow <;> linarith
    · rw [hT] at hholds ⊢
      have hlow := hrounds.low
      rw [if_pos ⟨rfl, hE⟩] at hlow
      have hdouble : q / 2 ^ (E - 1) = 2 * (q / 2 ^ E) := by
        rw [zpow_sub_one₀ two_ne_zero, ← div_eq_mul_inv, div_div_eq_mul_div]
        ring
      rw [hdouble] at hholds
      rw [hholds.roundedMantissa (M := 2 ^ 53)]
      · exact shiftToTargetExponent_of_carry hE
      · push_cast at hlow ⊢
        linarith
      · push_cast
        linarith
      · intro hodd
        omega
  unfold roundWithAccuracy
  dsimp only
  rw [hsecond]
  exact dif_neg hcanonical.pos.ne'

end Decimal

end RenderFold
