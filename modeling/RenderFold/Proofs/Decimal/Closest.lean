import RenderFold.Proofs.Decimal.Scientific

/-!
# The Double Nearest to a Number

The interval around a double holds the numbers that are nearer to it than to
any other double. In units of its last binary place the other doubles are at
least one away from it, or one half below the least mantissa of an exponent,
and the interval goes half as far. Its ends are as near to the neighbour, and
belong to the one of the two that has an even mantissa.

A whole number is in such an interval. It is cut to as many bits as a double
has, and the rest decides whether it is rounded up.

## Main definitions

* `Exact.value`: The number that a double stands for.
* `Exact.Nearest`: No double is nearer to a number, and the mantissa is even
  where another one is as near.

## Theorems

* `Exact.nearest_of_rounds`: A double is nearest to the numbers in its
  interval.
* `exists_rounds`: A long whole number is in the interval of a whole double.
* `ofFloat?_ofInt`: A whole number is made into the double nearest to it.
-/

namespace RenderFold

namespace Decimal

variable {x y : Float} {M n : Nat} {E e k : Int} {q : ℚ}

namespace Exact

variable {parts other : Exact}

/-- The mantissa with its sign. -/
def signed (x : Exact) : Int := if x.negative then -x.mantissa else x.mantissa

/-- The number that a double stands for. -/
def value (x : Exact) : ℚ := x.signed * 2 ^ x.exponent

theorem value_positive : value ⟨false, M, E⟩ = M * 2 ^ E := rfl

theorem value_negative : value ⟨true, M, E⟩ = -(M * 2 ^ E) := by
  unfold value signed
  rw [if_pos rfl]
  push_cast
  ring

/-- No double is nearer to a number than this one, and its mantissa is even
    where another one is as near. -/
structure Nearest (q : ℚ) (parts : Exact) : Prop where
  closest : ∀ {y other}, ofFloat? y = some other → |q - parts.value| ≤ |q - other.value|
  even : ∀ {y other}, ofFloat? y = some other → other.value ≠ parts.value →
    |q - parts.value| = |q - other.value| → parts.mantissa % 2 = 0

theorem abs_signed (parts : Exact) : |parts.signed| = parts.mantissa := by
  unfold signed
  split
  · rw [abs_neg, Nat.abs_cast]
  · exact Nat.abs_cast _

/-- The parts of any double, also of zero. -/
theorem bounds_of_ofFloat? (h : ofFloat? x = some parts) :
    |parts.signed| < 2 ^ 53 ∧ -1074 ≤ parts.exponent := by
  rw [abs_signed]
  unfold ofFloat? at h
  simp only [Nat.pow_eq] at h
  split at h
  · cases h
  · split at h <;> cases h <;> dsimp only <;> omega

theorem abs_sub_eq_mul (k : ℚ) (E : Int) : |q - k * 2 ^ E| = |q / 2 ^ E - k| * 2 ^ E := by
  have hpow : (0 : ℚ) < 2 ^ E := zpow_pos two_pos E
  nth_rewrite 3 [← abs_of_pos hpow]
  rw [← abs_mul, sub_mul, div_mul_cancel₀ _ hpow.ne']

/-- The other doubles, in units of the last binary place of a positive one,
    are one away, or one half below the least mantissa of an exponent. -/
theorem units_apart (hcanonical : Canonical M E) (hk : |k| < 2 ^ 53) (he : -1074 ≤ e) :
    (k * 2 ^ e / 2 ^ E : ℚ) ≤ M - (if M = 2 ^ 52 ∧ -1074 < E then 1 / 2 else 1) ∨
      (k * 2 ^ e / 2 ^ E : ℚ) = M ∨ (M + 1 : ℚ) ≤ k * 2 ^ e / 2 ^ E := by
  have hunits : (k * 2 ^ e / 2 ^ E : ℚ) = k * 2 ^ (e - E) := by
    rw [zpow_sub₀ two_ne_zero, mul_div_assoc]
  rw [hunits]
  by_cases hle : E ≤ e
  · have hwhole : (k * 2 ^ (e - E) : ℚ) = ((k * 2 ^ (e - E).toNat : Int) : ℚ) := by
      push_cast
      rw [← zpow_natCast, Int.toNat_of_nonneg (by omega)]
    rw [hwhole]
    generalize k * 2 ^ (e - E).toNat = j
    rcases lt_trichotomy j (M : Int) with hj | rfl | hj
    · refine Or.inl ?_
      have hcast : (j : ℚ) + 1 ≤ M := by exact_mod_cast hj
      split <;> linarith
    · exact Or.inr (Or.inl (by push_cast; rfl))
    · refine Or.inr (Or.inr ?_)
      exact_mod_cast hj
  · -- Doubles with finer places are below the least mantissa.
    have hfull : 2 ^ 52 ≤ M := hcanonical.full.resolve_right (by omega)
    have hpow : (2 : ℚ) ^ (e - E) ≤ 1 / 2 := by
      rw [one_div, ← zpow_neg_one]
      exact zpow_le_zpow_right₀ one_le_two (by omega)
    have hk' : (k : ℚ) ≤ 2 ^ 53 - 1 := by
      have hless : k ≤ 2 ^ 53 - 1 := by
        have := le_abs_self k
        omega
      exact_mod_cast hless
    have hbelow : (k * 2 ^ (e - E) : ℚ) ≤ 2 ^ 52 - 1 / 2 := by
      calc (k * 2 ^ (e - E) : ℚ) ≤ (2 ^ 53 - 1) * 2 ^ (e - E) :=
            mul_le_mul_of_nonneg_right hk' (zpow_pos two_pos _).le
        _ ≤ (2 ^ 53 - 1) * (1 / 2) := mul_le_mul_of_nonneg_left hpow (by norm_num)
        _ = 2 ^ 52 - 1 / 2 := by norm_num
    refine Or.inl ?_
    split
    · next hleast =>
        rw [hleast.1]
        push_cast
        exact hbelow
    · next hleast =>
        have hmore : (2 : ℚ) ^ 52 + 1 ≤ M := by
          have : 2 ^ 52 + 1 ≤ M := by omega
          exact_mod_cast this
        linarith

/-- A number in the interval of a positive double is not nearer to any other,
    and as near to one only if the mantissa is even. -/
theorem near_of_rounds (hcanonical : Canonical M E) (hrounds : Rounds (q / 2 ^ E) M E)
    (hk : |k| < 2 ^ 53) (he : -1074 ≤ e) :
    |q - M * 2 ^ E| ≤ |q - k * 2 ^ e| ∧
      ((k * 2 ^ e : ℚ) ≠ M * 2 ^ E → |q - M * 2 ^ E| = |q - k * 2 ^ e| → M % 2 = 0) := by
  have hpow : (0 : ℚ) < 2 ^ E := zpow_pos two_pos E
  have hother : (k * 2 ^ e : ℚ) = k * 2 ^ e / 2 ^ E * 2 ^ E :=
    (div_mul_cancel₀ _ hpow.ne').symm
  have hunits := units_apart hcanonical hk he
  rw [hother, abs_sub_eq_mul, abs_sub_eq_mul, mul_le_mul_iff_left₀ hpow,
    mul_left_inj' hpow.ne', ne_eq, mul_left_inj' hpow.ne']
  generalize (k * 2 ^ e / 2 ^ E : ℚ) = v at hunits
  obtain ⟨hlow, hhigh, hodd⟩ := hrounds
  generalize q / 2 ^ E = u at hlow hhigh hodd
  rcases hunits with hunits | rfl | hunits
  · have hlow' : M + v ≤ 2 * u ∧ v < M := by
      split at hunits
      · next hleast =>
          rw [if_pos hleast] at hlow
          exact ⟨by linarith, by linarith⟩
      · next hleast =>
          rw [if_neg hleast] at hlow
          exact ⟨by linarith, by linarith⟩
    have hpos : |u - v| = u - v := abs_of_nonneg (by linarith)
    rw [hpos]
    refine ⟨abs_le.mpr ⟨by linarith, by linarith⟩, fun _ heq => ?_⟩
    by_contra heven
    obtain ⟨hodd, -⟩ := hodd (Nat.mod_two_ne_zero.mp heven)
    rw [if_neg fun hleast => heven (by omega)] at hunits
    have hless : |u - M| < u - v := abs_lt.mpr ⟨by linarith, by linarith⟩
    exact hless.ne heq
  · exact ⟨le_rfl, fun hne => absurd rfl hne⟩
  · have hneg : |u - v| = v - u := by
      rw [abs_sub_comm]
      exact abs_of_nonneg (by linarith)
    have hlow' : (M : ℚ) - 1 / 2 ≤ u := by
      split at hlow <;> linarith
    rw [hneg]
    refine ⟨abs_le.mpr ⟨by linarith, by linarith⟩, fun _ heq => ?_⟩
    by_contra heven
    obtain ⟨hodd, hodd'⟩ := hodd (Nat.mod_two_ne_zero.mp heven)
    have hless : |u - M| < v - u := abs_lt.mpr ⟨by linarith, by linarith⟩
    exact hless.ne heq

/-- A positive double is nearest to the numbers in its interval, and the
    negative one to the negative numbers. -/
theorem nearest_of_rounds (hcanonical : Canonical M E) (hrounds : Rounds (q / 2 ^ E) M E) :
    Nearest q ⟨false, M, E⟩ ∧ Nearest (-q) ⟨true, M, E⟩ := by
  constructor
  · refine ⟨fun h => ?_, fun h => ?_⟩
    · obtain ⟨hk, he⟩ := bounds_of_ofFloat? h
      rw [value_positive]
      exact (near_of_rounds hcanonical hrounds hk he).1
    · obtain ⟨hk, he⟩ := bounds_of_ofFloat? h
      rw [value_positive]
      exact (near_of_rounds hcanonical hrounds hk he).2
  · -- Seen from zero, both numbers and the distance between them are mirrored.
    have hmirror {other : Exact} : |-q - other.value| = |q - ((-other.signed : Int) : ℚ) *
        2 ^ other.exponent| := by
      unfold value
      rw [← abs_neg]
      push_cast
      congr 1
      ring
    have hmirror' : |-q - -(M * 2 ^ E)| = |q - M * 2 ^ E| := by
      rw [← abs_neg]
      congr 1
      ring
    refine ⟨fun h => ?_, fun h hne => ?_⟩
    · obtain ⟨hk, he⟩ := bounds_of_ofFloat? h
      rw [value_negative, hmirror, hmirror']
      exact (near_of_rounds hcanonical hrounds (by rwa [abs_neg]) he).1
    · obtain ⟨hk, he⟩ := bounds_of_ofFloat? h
      rw [value_negative, hmirror, hmirror']
      refine (near_of_rounds hcanonical hrounds (by rwa [abs_neg]) he).2 fun heq => hne ?_
      rw [value_negative, ← heq]
      unfold value
      push_cast
      ring

/-- Zero is nearest to itself. -/
theorem nearest_zero : Nearest 0 ⟨false, 0, e⟩ := by
  have hzero : value ⟨false, 0, e⟩ = 0 := by
    unfold value signed
    norm_num
  refine ⟨fun _ => ?_, fun _ _ _ => rfl⟩
  rw [hzero, sub_zero, abs_zero]
  exact abs_nonneg _

/-- What is nearest to a number does not lie beyond another double on the
    same side. -/
theorem Nearest.value_le (h : Nearest q parts) (hother : ofFloat? y = some other)
    (hle : q ≤ other.value) : parts.value ≤ other.value := by
  by_contra hmore
  have hclosest := h.closest hother
  rw [abs_of_nonpos (by linarith), abs_of_nonpos (by linarith)] at hclosest
  linarith

theorem Nearest.le_value (h : Nearest q parts) (hother : ofFloat? y = some other)
    (hle : other.value ≤ q) : other.value ≤ parts.value := by
  by_contra hmore
  have hclosest := h.closest hother
  rw [abs_of_nonneg (by linarith), abs_of_nonneg (by linarith)] at hclosest
  linarith

end Exact

/-- A number with more bits than a double has is in the interval of what is
    left when it is cut, or of the next double. -/
theorem exists_rounds_cut {a s : Nat} {rest : ℚ} (hlow : 2 ^ 52 ≤ a) (hhigh : a < 2 ^ 53)
    (hs : s < 971) (hrest : 0 ≤ rest) (hrest' : rest < 1) :
    ∃ M E, Canonical M E ∧ 0 ≤ E ∧ Rounds ((a + rest) * 2 ^ s / 2 ^ E) M E := by
  have hpow : (0 : ℚ) < 2 ^ s := by positivity
  have hself : ((a + rest) * 2 ^ s / 2 ^ (s : Int) : ℚ) = a + rest := by
    rw [zpow_natCast, mul_div_cancel_right₀ _ hpow.ne']
  by_cases hdown : rest < 1 / 2 ∨ rest = 1 / 2 ∧ a % 2 = 0
  · refine ⟨a, s, ⟨by omega, hhigh, by omega, Or.inl hlow, by omega⟩, by omega, ?_⟩
    rw [hself]
    refine ⟨?_, ?_, fun hodd => ?_⟩
    · split <;> linarith
    · rcases hdown with hdown | ⟨hdown, -⟩ <;> linarith
    · have hless : rest < 1 / 2 := hdown.resolve_right fun heven => by omega
      exact ⟨by linarith, by linarith⟩
  · obtain ⟨hup, hodd⟩ := not_or.mp hdown
    have hup' : 1 / 2 ≤ rest := not_lt.mp hup
    by_cases hcarry : a + 1 < 2 ^ 53
    · refine ⟨a + 1, s, ⟨by omega, hcarry, by omega, Or.inl (by omega), by omega⟩, by omega, ?_⟩
      rw [hself]
      refine ⟨?_, ?_, fun hodd' => ?_⟩
      · rw [if_neg (by omega)]
        push_cast
        linarith
      · push_cast
        linarith
      · have hmore : 1 / 2 < rest := lt_of_le_of_ne hup' fun heq => hodd ⟨heq.symm, by omega⟩
        push_cast
        exact ⟨by linarith, by linarith⟩
    · -- All bits are set, so that one is carried into the next exponent.
      refine ⟨2 ^ 52, s + 1, ⟨by omega, by omega, by omega, Or.inl le_rfl, by omega⟩, by omega, ?_⟩
      have ha : (a : ℚ) = 2 ^ 53 - 1 := by
        rw [show a = 2 ^ 53 - 1 by omega]
        norm_num
      have hhalf : ((a + rest) * 2 ^ s / 2 ^ ((s : Int) + 1) : ℚ) = (a + rest) / 2 := by
        rw [zpow_add_one₀ two_ne_zero, zpow_natCast, mul_comm, mul_div_mul_left _ _ hpow.ne']
      rw [hhalf, ha]
      refine ⟨?_, ?_, fun hodd' => by omega⟩
      · rw [if_pos ⟨rfl, by omega⟩]
        push_cast
        linarith
      · push_cast
        linarith

/-- A long whole number is in the interval of a double that is a whole number
    itself. -/
theorem exists_rounds (hlong : 2 ^ 53 ≤ n) (hlt : n < 2 ^ 64) : ∃ M E, ∃ z : Nat, Canonical M E ∧
    Rounds ((n : ℚ) / 2 ^ E) M E ∧ (M * 2 ^ E : ℚ) = z := by
  have hpos : n ≠ 0 := by omega
  have hlog : 53 ≤ n.log2 := (Nat.le_log2 hpos).mpr hlong
  have hlog' : n.log2 < 64 := (Nat.log2_lt hpos).mpr hlt
  obtain ⟨s, hs⟩ : ∃ s, n.log2 = s + 52 := ⟨n.log2 - 52, by omega⟩
  have hunit : 0 < 2 ^ s := Nat.two_pow_pos s
  have hlow : 2 ^ 52 ≤ n / 2 ^ s := by
    rw [Nat.le_div_iff_mul_le hunit, ← Nat.pow_add, Nat.add_comm, ← hs]
    exact Nat.log2_self_le hpos
  have hhigh : n / 2 ^ s < 2 ^ 53 := by
    rw [Nat.div_lt_iff_lt_mul hunit, ← Nat.pow_add, show 53 + s = n.log2 + 1 by omega]
    exact (Nat.log2_lt hpos).mp (Nat.lt_succ_self _)
  have hunit' : (0 : ℚ) < 2 ^ s := by exact_mod_cast hunit
  have hrest : 0 ≤ ((n % 2 ^ s : Nat) : ℚ) / 2 ^ s := div_nonneg (Nat.cast_nonneg _) hunit'.le
  have hrest' : ((n % 2 ^ s : Nat) : ℚ) / 2 ^ s < 1 :=
    (div_lt_one₀ hunit').mpr (by exact_mod_cast Nat.mod_lt n hunit)
  obtain ⟨M, E, hcanonical, hE, hrounds⟩ :=
    exists_rounds_cut hlow hhigh (by omega : s < 971) hrest hrest'
  have hsum : (((n / 2 ^ s : Nat) + ((n % 2 ^ s : Nat) : ℚ) / 2 ^ s) * 2 ^ s : ℚ) = n := by
    rw [add_mul, div_mul_cancel₀ _ hunit'.ne']
    exact_mod_cast Nat.div_add_mod' n (2 ^ s)
  rw [hsum] at hrounds
  refine ⟨M, E, M * 2 ^ E.toNat, hcanonical, hrounds, ?_⟩
  push_cast
  rw [← zpow_natCast, Int.toNat_of_nonneg hE]

/-- A whole number is made into the double nearest to it. -/
theorem ofFloat?_ofNat_rounds (hpos : 0 < n) (hlt : n < 2 ^ 64) : ∃ M E, ∃ z : Nat,
    Exact.ofFloat? (Float.ofNat n) = some ⟨false, M, E⟩ ∧ Canonical M E ∧
      Rounds ((n : ℚ) / 2 ^ E) M E ∧ (M * 2 ^ E : ℚ) = z := by
  by_cases hshort : n < 2 ^ 53
  · obtain ⟨M, E, hM, hparts, hvalue⟩ := ofFloat?_ofNat hpos hshort
    refine ⟨M, E, n, hparts, ((ofFloat?_eq_some_iff hM).mp hparts).1, ?_, hvalue⟩
    rw [← hvalue, mul_div_cancel_right₀ _ (zpow_pos two_pos E).ne']
    exact .self M E
  · obtain ⟨M, E, z, hcanonical, hrounds, hvalue⟩ := exists_rounds (not_lt.mp hshort) hlt
    -- Nothing is divided or multiplied for a long literal without a point.
    have hlong : Float.ofNat n = Float.ofScientific n true 0 := by
      have hlong : ¬ (n < 2 ^ 53 ∧ 0 ≤ 22) := fun h => hshort h.1
      change Float.ofScientific n false 0 = _
      unfold Float.ofScientific
      rw [dif_neg hlong, dif_neg hlong]
      rfl
    refine ⟨M, E, z, ?_, hcanonical, hrounds, hvalue⟩
    rw [hlong]
    refine ofFloat?_ofScientific hcanonical ?_
    rw [pow_zero, div_one]
    exact hrounds

/-- A whole number is made into the double nearest to it, which is whole. -/
theorem ofFloat?_ofInt {i : Int} (hlow : -2 ^ 64 < i) (hhigh : i < 2 ^ 64) : ∃ parts, ∃ z : Int,
    Exact.ofFloat? (Float.ofInt i) = some parts ∧ parts.Nearest i ∧ parts.value = z := by
  rcases i with n | n
  · rcases Nat.eq_zero_or_pos n with rfl | hpos
    · refine ⟨⟨false, 0, -1074⟩, 0, by decide +kernel, ?_, ?_⟩
      · exact Exact.nearest_zero
      · unfold Exact.value Exact.signed
        norm_num
    · rw [Int.ofNat_eq_natCast] at hhigh
      obtain ⟨M, E, z, hparts, hcanonical, hrounds, hvalue⟩ :=
        ofFloat?_ofNat_rounds hpos (by omega)
      exact ⟨_, z, hparts, (Exact.nearest_of_rounds hcanonical hrounds).1, hvalue⟩
  · obtain ⟨M, E, z, hparts, hcanonical, hrounds, hvalue⟩ :=
      ofFloat?_ofNat_rounds n.succ_pos (by omega)
    refine ⟨⟨true, M, E⟩, -z, ofFloat?_neg hcanonical.pos hparts, ?_, ?_⟩
    · have hnearest := (Exact.nearest_of_rounds hcanonical hrounds).2
      rw [Int.cast_negSucc]
      exact hnearest
    · rw [Exact.value_negative, hvalue]
      push_cast
      rfl

end Decimal

end RenderFold
