import RenderFold.Decimal.Shortest
import RenderFold.Proofs.Decimal.Scientific

/-!
# Digits in the Interval

The shortest digits of a double lie in its rounding interval. The search
compares whole numbers only: the point of a grid and the ends of the interval
are scaled by the same factor. It tests every point that it returns, except
on the last grid, and the double itself is a point of that one.

## Main definitions

* `Grid.scale`: The factor by which a grid is scaled.

## Theorems

* `Grid.rounds_of_holds`: A point that is accepted is in the interval.
* `shortest_rounds`: So are the shortest digits.
-/

namespace RenderFold

namespace Decimal

variable {m n : Nat} {e place : Int} {negative : Bool}

theorem pow_toNat_eq {b : ℚ} (hb : b ≠ 0) (i : Int) : b ^ i.toNat = b ^ i * b ^ (-i).toNat := by
  rw [← zpow_natCast, ← zpow_natCast, ← zpow_add₀ hb]
  congr 1
  omega

namespace Grid

/-- The factor by which everything on a grid is scaled. -/
def scale (e place : Int) : Nat := 2 ^ (e - 2).toNat * 10 ^ (-place).toNat

theorem scale_pos (e place : Int) : 0 < scale e place :=
  Nat.mul_pos (Nat.two_pow_pos _) (Nat.pow_pos (by decide))

/-- The points of a grid are scaled by that factor. -/
theorem mul_unit (n : Nat) : ((n * (Grid.of ⟨negative, m, e⟩ place).unit : Nat) : ℚ) =
    4 * ((n : ℚ) * 10 ^ place / 2 ^ e) * scale e place := by
  have hten : (10 : ℚ) ^ place.toNat = 10 ^ place * 10 ^ (-place).toNat :=
    pow_toNat_eq (by norm_num) place
  have htwo : (2 : ℚ) ^ (2 - e).toNat = 4 / 2 ^ e * 2 ^ (e - 2).toNat := by
    rw [pow_toNat_eq two_ne_zero (2 - e), zpow_sub₀ two_ne_zero, neg_sub]
    norm_num
  unfold Grid.of scale
  simp only [Nat.pow_eq]
  push_cast
  rw [hten, htwo]
  ring

theorem le_mul_unit {a : Nat} : a * scale e place ≤ n * (Grid.of ⟨negative, m, e⟩ place).unit ↔
    (a : ℚ) ≤ 4 * (n * 10 ^ place / 2 ^ e) := by
  have hscale : (0 : ℚ) < scale e place := by exact_mod_cast scale_pos e place
  rw [← Nat.cast_le (α := ℚ), mul_unit, Nat.cast_mul, mul_le_mul_iff_left₀ hscale]

theorem mul_unit_le {a : Nat} : n * (Grid.of ⟨negative, m, e⟩ place).unit ≤ a * scale e place ↔
    4 * ((n : ℚ) * 10 ^ place / 2 ^ e) ≤ a := by
  have hscale : (0 : ℚ) < scale e place := by exact_mod_cast scale_pos e place
  rw [← Nat.cast_le (α := ℚ), mul_unit, Nat.cast_mul, mul_le_mul_iff_left₀ hscale]

/-- A point that is accepted is in the rounding interval. -/
theorem rounds_of_holds (hm : 0 < m) (h : (Grid.of ⟨negative, m, e⟩ place).holds n = true) :
    Rounds ((n : ℚ) * 10 ^ place / 2 ^ e) m e := by
  have hlow : (Grid.of ⟨negative, m, e⟩ place).low =
      (4 * m - if m = 2 ^ 52 ∧ -1074 < e then 1 else 2) * scale e place := rfl
  have hhigh : (Grid.of ⟨negative, m, e⟩ place).high = (4 * m + 2) * scale e place := rfl
  have hclosed : (Grid.of ⟨negative, m, e⟩ place).closed = (m % 2 == 0) := rfl
  have hstep : (if m = 2 ^ 52 ∧ -1074 < e then 1 else 2) ≤ 4 * m := by split <;> omega
  unfold holds at h
  rw [hlow, hhigh, hclosed] at h
  split at h
  · next heven =>
      rw [beq_iff_eq] at heven
      simp only [Bool.and_eq_true, decide_eq_true_eq, le_mul_unit, mul_unit_le] at h
      obtain ⟨hbelow, habove⟩ := h
      rw [Nat.cast_sub hstep] at hbelow
      refine ⟨?_, ?_, fun hodd => by omega⟩
      · split at hbelow <;> split <;> first | contradiction | (push_cast at hbelow; linarith)
      · push_cast at habove
        linarith
  · next hodd =>
      rw [beq_iff_eq] at hodd
      simp only [Bool.and_eq_true, decide_eq_true_eq] at h
      -- The least mantissa of an exponent is even.
      have hstep : ¬ (m = 2 ^ 52 ∧ -1074 < e) := fun h => by omega
      rw [if_neg hstep, ← not_le, ← not_le, mul_unit_le, le_mul_unit, not_le, not_le,
        Nat.cast_sub (by omega)] at h
      obtain ⟨hbelow, habove⟩ := h
      push_cast at hbelow habove
      refine ⟨?_, by linarith, fun _ => ⟨by linarith, by linarith⟩⟩
      rw [if_neg hstep]
      linarith

/-- The point that a grid gives is accepted. -/
theorem holds_of_point? {g : Grid} {tie : Tie} (h : g.point? tie = some n) : g.holds n = true := by
  unfold point? at h
  dsimp only at h
  split at h
  · next hfirst hsecond =>
      rw [Bool.and_eq_true] at hfirst
      cases h
      unfold nearer
      split
      · exact hfirst.2
      · exact hsecond
      · exact hsecond
      · rcases Nat.mod_two_eq_zero_or_one (g.value / g.unit) with heven | hodd
        · rw [heven]
          exact hfirst.2
        · rw [hodd]
          exact hsecond
  · next hfirst hsecond =>
      rw [Bool.and_eq_true] at hfirst
      cases h
      exact hfirst.2
  · next hfirst hsecond =>
      cases h
      exact hsecond
  · cases h

/-- A double is a point of every grid that is at least as fine as its last
    binary place. -/
theorem holds_fine (hm : 0 < m) (k : Nat) (he : -(k : Int) ≤ e) :
    (Grid.of ⟨negative, m, e⟩ (-k)).holds
      ((Grid.of ⟨negative, m, e⟩ (-k)).value / (Grid.of ⟨negative, m, e⟩ (-k)).unit) = true := by
  have hunit : (Grid.of ⟨negative, m, e⟩ (-k)).unit = 2 ^ (2 - e).toNat := by
    change 10 ^ (-(k : Int)).toNat * 2 ^ (2 - e).toNat = _
    rw [show (-(k : Int)).toNat = 0 by omega, Nat.pow_zero, Nat.one_mul]
  have hvalue : (Grid.of ⟨negative, m, e⟩ (-k)).value = 4 * m * scale e (-k) := rfl
  have hdvd : 2 ^ (2 - e).toNat ∣ 4 * m * scale e (-k) := by
    have hfine : 2 ^ (2 - e).toNat ∣ 4 * 10 ^ k :=
      calc 2 ^ (2 - e).toNat ∣ 2 ^ (2 + k) := Nat.pow_dvd_pow 2 (by omega)
        _ = 4 * 2 ^ k := Nat.pow_add 2 2 k
        _ ∣ 4 * 10 ^ k := Nat.mul_dvd_mul_left 4 (pow_dvd_pow_of_dvd (by decide) k)
    have hscale : 4 * m * scale e (-k) = 4 * 10 ^ k * (m * 2 ^ (e - 2).toNat) := by
      unfold scale
      rw [neg_neg, Int.toNat_natCast]
      ring
    rw [hscale]
    exact Dvd.dvd.mul_right hfine _
  have hpoint : (Grid.of ⟨negative, m, e⟩ (-k)).value / (Grid.of ⟨negative, m, e⟩ (-k)).unit *
      (Grid.of ⟨negative, m, e⟩ (-k)).unit = 4 * m * scale e (-k) := by
    rw [hvalue, hunit]
    exact Nat.div_mul_cancel hdvd
  have hlow : (Grid.of ⟨negative, m, e⟩ (-k)).low < 4 * m * scale e (-k) := by
    change (4 * m - if m = 2 ^ 52 ∧ -1074 < e then 1 else 2) * scale e (-k) < _
    refine Nat.mul_lt_mul_of_pos_right ?_ (scale_pos e (-k))
    split <;> omega
  have hhigh : 4 * m * scale e (-k) < (Grid.of ⟨negative, m, e⟩ (-k)).high :=
    Nat.mul_lt_mul_of_pos_right (Nat.lt_add_of_pos_right two_pos) (scale_pos e (-k))
  unfold holds
  rw [hpoint]
  split
  · exact Bool.and_eq_true_iff.mpr ⟨decide_eq_true hlow.le, decide_eq_true hhigh.le⟩
  · exact Bool.and_eq_true_iff.mpr ⟨decide_eq_true hlow, decide_eq_true hhigh⟩

end Grid

/-- The search ends with a point that is accepted, at the last place or
    before. -/
theorem shortestFrom_holds (hm : 0 < m) (he : -1074 ≤ e) (tie : Tie) (fuel : Nat) :
    ∀ {place : Int}, place = fuel - 1074 →
      (Grid.of ⟨negative, m, e⟩ (shortestFrom tie ⟨negative, m, e⟩ fuel place).exponent).holds
        (shortestFrom tie ⟨negative, m, e⟩ fuel place).digits = true := by
  induction fuel with
  | zero =>
      intro place hplace
      cases (show place = -(1074 : Nat) by omega)
      exact Grid.holds_fine hm 1074 he
  | succ fuel ih =>
      intro place hplace
      unfold shortestFrom
      split
      · next point hpoint => exact Grid.holds_of_point? hpoint
      · exact ih (by omega)

/-- The shortest digits of a double are in its rounding interval. -/
theorem shortest_rounds (hm : 0 < m) (he : -1074 ≤ e) (tie : Tie) :
    Rounds (((shortest tie ⟨negative, m, e⟩).digits : ℚ) *
      10 ^ (shortest tie ⟨negative, m, e⟩).exponent / 2 ^ e) m e := by
  unfold shortest
  rw [if_neg hm.ne']
  exact Grid.rounds_of_holds hm (shortestFrom_holds hm he tie _ (by push_cast; omega))

end Decimal

end RenderFold
