import RenderFold.Proofs.Decimal.Packing

/-!
# Decimal Fractions

A number literal is a whole number over a power of ten. Making it into a
double is a division. If both numbers are doubles themselves, it is the
division of doubles; if they are not, whole numbers are divided. Either way
the quotient is computed to as many bits as a double has, with what is left
of it, and so it is rounded to the double whose interval the fraction is in.

What is made of a literal is never below zero: it is zero, a positive double,
or, where the literal is too great for one, infinity.

## Main definitions

* `Unsigned`: What an operation on positive numbers rounds to.

## Theorems

* `div_eq`, `mul_eq`: Dividing and multiplying exact numbers.
* `ofFloat?_ofScientific`: A literal in the interval of a double is read as
  that double.
* `ofScientific_cases`: What a literal may be read as.
-/

namespace RenderFold

namespace Decimal

open Float.Model (UnpackedFloat totalExponent)
open Float.Model.Format (binary64)
open Float.Model.UnpackedFloat (Accuracy Sign roundWithAccuracy divCore)

variable {M m₁ m₂ n k : Nat} {E e₁ e₂ : Int}

/-- Both mantissas are divided, the first one shifted far enough to the left
    that the quotient has as many bits as a double. -/
theorem divCore_eq (m₁ m₂ : Nat) (e₁ e₂ : Int) : ∃ (t : Int) (s : Nat), t + s = e₁ - e₂ ∧
    (-1074 < t → 53 + m₂.log2 ≤ m₁.log2 + s) ∧
    divCore binary64 m₁ e₁ m₂ e₂ = (m₁ * 2 ^ s / m₂, t,
      Float.Model.UnpackedFloat.accuracyOfFraction (m₁ * 2 ^ s % m₂) m₂) := by
  have hle := min_le_left (e₁ - e₂)
    (binary64.targetExponent (totalExponent m₁ e₁ - totalExponent m₂ e₂))
  have hle' := min_le_right (e₁ - e₂)
    (binary64.targetExponent (totalExponent m₁ e₁ - totalExponent m₂ e₂))
  unfold divCore
  dsimp only
  generalize min (e₁ - e₂) _ = t at hle hle' ⊢
  have hcast : (((e₁ - e₂ - t).toNat : Nat) : Int) = e₁ - e₂ - t := Int.toNat_of_nonneg (by omega)
  refine ⟨t, (e₁ - e₂ - t).toNat, by omega, fun hmin => ?_, by rw [Nat.shiftLeft_eq]⟩
  rw [targetExponent_eq] at hle'
  unfold totalExponent at hle'
  omega

/-- A quotient is rounded to the double whose interval it is in. -/
theorem div_eq (hm₁ : 0 < m₁) (hm₂ : 0 < m₂) (hcanonical : Canonical M E)
    (hrounds : Rounds ((m₁ : ℚ) * 2 ^ e₁ / (m₂ * 2 ^ e₂) / 2 ^ E) M E) :
    UnpackedFloat.div binary64 (.finite .positive m₁ e₁ hm₁) (.finite .positive m₂ e₂ hm₂) =
      .finite .positive M E hcanonical.pos := by
  obtain ⟨t, s, hsum, henough, hcore⟩ := divCore_eq m₁ m₂ e₁ e₂
  have hvalue : ((m₁ * 2 ^ s : Nat) : ℚ) / m₂ = (m₁ : ℚ) * 2 ^ e₁ / (m₂ * 2 ^ e₂) / 2 ^ t := by
    have hm₂' : (m₂ : ℚ) ≠ 0 := by exact_mod_cast hm₂.ne'
    rw [div_div, mul_assoc, ← zpow_add₀ two_ne_zero, show e₁ = s + (e₂ + t) by omega,
      zpow_add₀ two_ne_zero (s : Int), ← mul_assoc, zpow_natCast,
      mul_div_mul_right _ _ (zpow_pos two_pos _).ne']
    push_cast
    rfl
  have hholds := Holds.fraction (m₁ * 2 ^ s) hm₂
  rw [hvalue] at hholds
  unfold UnpackedFloat.div
  dsimp only
  rw [hcore]
  refine roundWithAccuracy_eq .positive hcanonical hrounds hholds ?_
  rw [targetExponent_eq]
  unfold totalExponent
  by_cases hmin : -1074 < t
  · -- The quotient has as many bits as were asked for.
    have hlow : 2 ^ 52 * m₂ ≤ m₁ * 2 ^ s := by
      have hless : m₂ < 2 ^ (m₂.log2 + 1) := (Nat.log2_lt hm₂.ne').mp (Nat.lt_succ_self _)
      have hpow : 2 ^ (53 + m₂.log2) ≤ 2 ^ (m₁.log2 + s) :=
        Nat.pow_le_pow_right two_pos (henough hmin)
      have hself : 2 ^ m₁.log2 * 2 ^ s ≤ m₁ * 2 ^ s :=
        Nat.mul_le_mul_right _ (Nat.log2_self_le hm₁.ne')
      rw [Nat.pow_add] at hpow
      rw [Nat.pow_succ] at hless
      rw [Nat.pow_add] at hpow
      omega
    have hquotient : 2 ^ 52 ≤ m₁ * 2 ^ s / m₂ := (Nat.le_div_iff_mul_le hm₂).mpr hlow
    have hlog : 52 ≤ (m₁ * 2 ^ s / m₂).log2 := (Nat.le_log2 (by omega)).mpr hquotient
    dsimp only
    omega
  · dsimp only
    omega

/-- A product is rounded to the double whose interval it is in, if one of the
    numbers has as many bits as a double. -/
theorem mul_eq (hm₁ : 0 < m₁) (hm₂ : 0 < m₂) (hcanonical : Canonical M E)
    (hrounds : Rounds ((m₁ : ℚ) * 2 ^ e₁ * (m₂ * 2 ^ e₂) / 2 ^ E) M E) (hbits : 2 ^ 52 ≤ m₁) :
    UnpackedFloat.mul binary64 (.finite .positive m₁ e₁ hm₁) (.finite .positive m₂ e₂ hm₂) =
      .finite .positive M E hcanonical.pos := by
  have hvalue : ((m₁ * m₂ : Nat) : ℚ) = (m₁ : ℚ) * 2 ^ e₁ * (m₂ * 2 ^ e₂) / 2 ^ (e₁ + e₂) := by
    rw [eq_div_iff (zpow_pos two_pos _).ne', zpow_add₀ two_ne_zero]
    push_cast
    ring
  have hholds := Holds.exact (m₁ * m₂)
  rw [hvalue] at hholds
  refine roundWithAccuracy_eq .positive hcanonical hrounds hholds ?_
  have hlog : 52 ≤ (m₁ * m₂).log2 := (Nat.le_log2 (Nat.mul_pos hm₁ hm₂).ne').mpr
    (hbits.trans (Nat.le_mul_of_pos_right _ hm₂))
  rw [targetExponent_eq]
  unfold totalExponent
  omega

/-- The parts of a power of ten, in units of the last binary place of one. -/
theorem tenPowers : ∀ k : Fin Float.exactlyRepresentablePowersOfTen.size,
    (Exact.ofFloat? Float.exactlyRepresentablePowersOfTen[k]).any fun x =>
      !x.negative && decide (0 < x.mantissa) && decide (-52 ≤ x.exponent) &&
        x.mantissa * 2 ^ (x.exponent + 52).toNat == 10 ^ k.val * 2 ^ 52 := by
  decide +kernel

/-- Up to `10 ^ 22` the powers of ten are doubles. -/
theorem tenPower_parts (hk : k < Float.exactlyRepresentablePowersOfTen.size) : ∃ M E, 0 < M ∧
    Exact.ofFloat? Float.exactlyRepresentablePowersOfTen[k] = some ⟨false, M, E⟩ ∧
      (M : ℚ) * 2 ^ E = 10 ^ k := by
  obtain ⟨⟨negative, M, E⟩, hparts, hx⟩ := (Option.any_eq_true _ _).mp (tenPowers ⟨k, hk⟩)
  simp only [Bool.and_eq_true, Bool.not_eq_true', decide_eq_true_eq, beq_iff_eq] at hx
  obtain ⟨⟨⟨rfl, hM⟩, hE⟩, hvalue⟩ := hx
  refine ⟨M, E, hM, hparts, ?_⟩
  have hcast : ((M * 2 ^ (E + 52).toNat : Nat) : ℚ) = (10 ^ k * 2 ^ 52 : Nat) := by
    exact_mod_cast hvalue
  push_cast at hcast
  rw [← zpow_natCast, Int.toNat_of_nonneg (by omega), zpow_add₀ two_ne_zero, ← mul_assoc] at hcast
  exact mul_right_cancel₀ (by norm_num) hcast

/-- Both numbers of a short literal are doubles, and these are divided. -/
theorem ofScientific_short (h : n < 2 ^ 53 ∧ k ≤ 22) (hn : 0 < n) :
    ∃ (M₁ M₂ : Nat) (E₁ E₂ : Int) (hM₁ : 0 < M₁) (hM₂ : 0 < M₂),
      (M₁ : ℚ) * 2 ^ E₁ = n ∧ (M₂ : ℚ) * 2 ^ E₂ = 10 ^ k ∧
        Float.ofScientific n true k = .ofModel (.pack (UnpackedFloat.div binary64
          (.finite .positive M₁ E₁ hM₁) (.finite .positive M₂ E₂ hM₂))) := by
  have hsize : k < Float.exactlyRepresentablePowersOfTen.size := Nat.lt_succ_of_le h.2
  obtain ⟨M₁, E₁, hcanonical, hE₁, hM₁, hvalue₁⟩ := exists_canonical_natCast hn h.1
  obtain ⟨M₂, E₂, hM₂, hparts, hvalue₂⟩ := tenPower_parts hsize
  refine ⟨M₁, M₂, E₁, E₂, hcanonical.pos, hM₂, ?_, hvalue₂, ?_⟩
  · rw [← hvalue₁, div_mul_cancel₀ _ (zpow_pos two_pos E₁).ne']
  · have hword : n.toUInt64.toNat = n := by
      rw [Nat.toUInt64_eq, UInt64.toNat_ofNat']
      exact Nat.mod_eq_of_lt (by omega)
    unfold Float.ofScientific
    rw [dif_pos h, if_pos rfl]
    change Float.ofModel (.pack (UnpackedFloat.div binary64
      (UnpackedFloat.unpack binary64
        (Float.ofModel (.pack (UnpackedFloat.ofNat binary64 n.toUInt64.toNat))).toBits.toBitVec)
      (UnpackedFloat.unpack binary64
        Float.exactlyRepresentablePowersOfTen[k].toBits.toBitVec))) = _
    rw [hword, round_natCast hn h.1 hcanonical hE₁ hM₁,
      unpack_toBits hcanonical.pos (ofFloat?_pack hcanonical), unpack_toBits hM₂ hparts]

/-- Doubles whose parts are equal are equal, however their parts are known to be positive. -/
theorem finite_eq {sign : UnpackedFloat.Sign} {m m' : Nat} {e : Int} (hm : 0 < m) (hm' : 0 < m')
    (h : m = m') : UnpackedFloat.finite sign m e hm = .finite sign m' e hm' := by
  subst h
  rfl

/-- A longer literal without a point is a whole number, and one with a point
    is divided as whole numbers. One that is far below every double is not
    divided at all. -/
theorem ofScientific_long (h : ¬ (n < 2 ^ 53 ∧ k ≤ 22)) (hn : 0 < n) :
    Float.ofScientific n true k = .ofModel (.pack
      (if 2 ^ 11 + n.log2 < k then .zero .positive
      else if k = 0 then UnpackedFloat.mul binary64
        (.finite .positive (n <<< 53) (-53)
          (lt_of_lt_of_eq (Nat.mul_pos hn (Nat.two_pow_pos 53)) (Nat.shiftLeft_eq n 53).symm))
        (.finite .positive (10 ^ 0) 0 (Nat.pow_pos (Nat.succ_pos 9)))
      else UnpackedFloat.div binary64 (.finite .positive n 0 hn)
        (.finite .positive (10 ^ k) 0 (Nat.pow_pos (Nat.succ_pos 9))))) := by
  unfold Float.ofScientific
  rw [dif_neg h, if_pos rfl]
  change Float.ofModel (.pack (UnpackedFloat.ofScientific binary64 n (Int.negOfNat k))) = _
  refine congrArg (fun x => Float.ofModel (.pack x)) ?_
  have hneg : Int.negOfNat k = -(k : Int) := Int.negOfNat_eq
  have hhigh : ¬ Int.negOfNat k > 2 ^ binary64.exponentBits := by
    rw [hneg]
    change ¬ -(k : Int) > 2 ^ 11
    omega
  have hlow : Int.negOfNat k < -((2 ^ binary64.exponentBits : Int) + n.log2) ↔
      2 ^ 11 + n.log2 < k := by
    rw [hneg]
    change -(k : Int) < -((2 ^ 11 : Int) + n.log2) ↔ _
    omega
  have hzero : 0 ≤ Int.negOfNat k ↔ k = 0 := by
    rw [hneg]
    omega
  unfold UnpackedFloat.ofScientific
  rw [dif_neg hn.ne', if_neg hhigh]
  by_cases hlong : 2 ^ 11 + n.log2 < k
  · rw [if_pos (hlow.mpr hlong), if_pos hlong]
  · rw [if_neg (mt hlow.mp hlong), if_neg hlong]
    by_cases hk : k = 0
    · subst hk
      rfl
    · rw [if_neg (mt hzero.mp hk), if_neg hk]
      have hexponent : (-Int.negOfNat k).toNat = k := by
        rw [hneg, neg_neg, Int.toNat_natCast]
      exact congrArg (UnpackedFloat.div binary64 (.finite .positive n 0 hn))
        (finite_eq _ _ (congrArg (10 ^ ·) hexponent))

theorem mul_pow_lt {s : Nat} (hn : 0 < n) (h : n.log2 + 1 + s ≤ k) : n * 2 ^ s < 10 ^ k := by
  have hless : n < 2 ^ (n.log2 + 1) := (Nat.log2_lt hn.ne').mp (Nat.lt_succ_self _)
  calc n * 2 ^ s < 2 ^ (n.log2 + 1) * 2 ^ s := Nat.mul_lt_mul_of_pos_right hless (Nat.two_pow_pos s)
    _ = 2 ^ (n.log2 + 1 + s) := (Nat.pow_add ..).symm
    _ ≤ 2 ^ k := Nat.pow_le_pow_right two_pos h
    _ ≤ 10 ^ k := Nat.pow_le_pow_left (by decide) k

/-- A literal that is not divided lies below every interval. -/
theorem lt_half_of_long (hn : 0 < n) (hlong : 2 ^ 11 + n.log2 < k) (hE : -1074 ≤ E) :
    (n : ℚ) / 10 ^ k / 2 ^ E < 1 / 2 := by
  have hnat : n * 2 ^ 1075 < 10 ^ k := mul_pow_lt hn (by omega)
  have hcast : (n : ℚ) * 2 ^ 1075 < 10 ^ k := by exact_mod_cast hnat
  have hscale : (1 : ℚ) ≤ 2 ^ 1074 * 2 ^ E := by
    rw [← zpow_natCast, ← zpow_add₀ two_ne_zero]
    exact one_le_zpow₀ one_le_two (by push_cast; omega)
  have hten : (0 : ℚ) < 10 ^ k := by positivity
  rw [div_div, div_lt_div_iff₀ (mul_pos hten (zpow_pos two_pos E)) two_pos, one_mul]
  calc (n : ℚ) * 2 ≤ n * 2 * (2 ^ 1074 * 2 ^ E) :=
        le_mul_of_one_le_right (by positivity) hscale
    _ = n * 2 ^ 1075 * 2 ^ E := by
          rw [pow_succ (2 : ℚ) 1074]
          generalize (2 : ℚ) ^ 1074 = scale
          ring
    _ < 10 ^ k * 2 ^ E := mul_lt_mul_of_pos_right hcast (zpow_pos two_pos E)

/-- A literal in the interval of a double is read as that double. -/
theorem ofFloat?_ofScientific (hcanonical : Canonical M E)
    (hrounds : Rounds ((n : ℚ) / 10 ^ k / 2 ^ E) M E) :
    Exact.ofFloat? (Float.ofScientific n true k) = some ⟨false, M, E⟩ := by
  -- No double has zero in its interval.
  have hpow : (0 : ℚ) < 2 ^ E := zpow_pos two_pos E
  have hhalf : (1 : ℚ) / 2 ≤ n / 10 ^ k / 2 ^ E := by
    have hlow := hrounds.low
    have hpos : (1 : ℚ) ≤ M := by exact_mod_cast hcanonical.pos
    split at hlow <;> linarith
  have hn : 0 < n := by
    refine Nat.pos_of_ne_zero fun hzero => ?_
    rw [hzero, Nat.cast_zero, zero_div, zero_div] at hhalf
    linarith
  by_cases hshort : n < 2 ^ 53 ∧ k ≤ 22
  · obtain ⟨M₁, M₂, E₁, E₂, hM₁, hM₂, hvalue₁, hvalue₂, heq⟩ := ofScientific_short hshort hn
    rw [← hvalue₁, ← hvalue₂] at hrounds
    rw [heq, div_eq hM₁ hM₂ hcanonical hrounds]
    exact ofFloat?_pack hcanonical
  · rw [ofScientific_long hshort hn]
    by_cases hlong : 2 ^ 11 + n.log2 < k
    · exact absurd hhalf (not_le.mpr (lt_half_of_long hn hlong hcanonical.min_le))
    · rw [if_neg hlong]
      by_cases hk : k = 0
      · subst hk
        rw [if_pos rfl, mul_eq _ _ hcanonical]
        · exact ofFloat?_pack hcanonical
        · rw [Nat.shiftLeft_eq, show (((n * 2 ^ 53 : Nat) : ℚ) * 2 ^ (-53 : Int) *
            (((10 ^ 0 : Nat) : ℚ) * 2 ^ (0 : Int))) = n / 10 ^ 0 by
              push_cast
              norm_num
              ring]
          exact hrounds
        · rw [Nat.shiftLeft_eq]
          omega
      · rw [if_neg hk, div_eq hn _ hcanonical]
        · exact ofFloat?_pack hcanonical
        · rw [zpow_zero, mul_one, mul_one]
          push_cast
          exact hrounds

/-- What an operation on positive numbers rounds to. -/
inductive Unsigned : UnpackedFloat → Prop
  | zero : Unsigned (.zero .positive)
  | infinity : Unsigned (.infinity .positive)
  | finite (m : Nat) (e : Int) (hm : 0 < m) : Unsigned (.finite .positive m e hm)

theorem unsigned_dite (m : Nat) (e : Int) : Unsigned (if hm : m = 0 then .zero .positive
    else .finite .positive m e (Nat.pos_of_ne_zero hm)) := by
  by_cases hm : m = 0
  · rw [dif_pos hm]
    exact .zero
  · rw [dif_neg hm]
    exact .finite _ _ _

theorem unsigned_round (m : Nat) (e : Int) (accuracy : Accuracy) :
    Unsigned (roundWithAccuracy binary64 .positive m e accuracy) :=
  unsigned_dite _ _

theorem unsigned_mul (hm₁ : 0 < m₁) (hm₂ : 0 < m₂) : Unsigned (UnpackedFloat.mul binary64
    (.finite .positive m₁ e₁ hm₁) (.finite .positive m₂ e₂ hm₂)) :=
  unsigned_round _ _ _

theorem unsigned_div (hm₁ : 0 < m₁) (hm₂ : 0 < m₂) : Unsigned (UnpackedFloat.div binary64
    (.finite .positive m₁ e₁ hm₁) (.finite .positive m₂ e₂ hm₂)) :=
  unsigned_round _ _ _

/-- The bits of infinity are the greatest ones without a sign. -/
theorem toNat_pack_le {u : UnpackedFloat} (h : Unsigned u) :
    (Float.Model.pack u).toBits.toNat ≤ 2047 * 2 ^ 52 := by
  change (UnpackedFloat.pack binary64 u).toNat ≤ _
  cases h with
  | zero => decide
  | infinity => decide
  | finite m e hm =>
      unfold UnpackedFloat.pack
      dsimp only
      split
      · decide
      · next hfinite =>
          change ¬ 2 ^ 11 ≤ _ + 1 at hfinite
          split
          · rw [toNat_packComponents]
            simp only [BitVec.toNat_ofNat]
            change (0 * 2 ^ 11 + _ % 2 ^ 11) * 2 ^ 52 + m % 2 ^ 52 ≤ _
            omega
          · rw [toNat_packComponents]
            simp only [BitVec.toNat_ofNat]
            change (0 * 2 ^ 11 + 0 % 2 ^ 11) * 2 ^ 52 + m % 2 ^ 52 ≤ _
            omega

theorem exists_unsigned (n k : Nat) :
    ∃ u, Unsigned u ∧ Float.ofScientific n true k = .ofModel (.pack u) := by
  rcases Nat.eq_zero_or_pos n with rfl | hn
  · refine ⟨.zero .positive, .zero, ?_⟩
    by_cases hshort : 0 < 2 ^ 53 ∧ k ≤ 22
    · have hsize : k < Float.exactlyRepresentablePowersOfTen.size := Nat.lt_succ_of_le hshort.2
      obtain ⟨M, E, hM, hparts, -⟩ := tenPower_parts hsize
      unfold Float.ofScientific
      rw [dif_pos hshort, if_pos rfl]
      change Float.ofModel (.pack (UnpackedFloat.div binary64 (.zero .positive)
        (UnpackedFloat.unpack binary64
          Float.exactlyRepresentablePowersOfTen[k].toBits.toBitVec))) = _
      rw [unpack_toBits hM hparts]
      rfl
    · unfold Float.ofScientific
      rw [dif_neg hshort, if_pos rfl]
      rfl
  · by_cases hshort : n < 2 ^ 53 ∧ k ≤ 22
    · obtain ⟨M₁, M₂, E₁, E₂, hM₁, hM₂, -, -, heq⟩ := ofScientific_short hshort hn
      exact ⟨_, unsigned_div hM₁ hM₂, heq⟩
    · exact ⟨_, iteInduction (fun _ => .zero) fun _ => iteInduction (fun _ => unsigned_mul _ _)
        fun _ => unsigned_div _ _, ofScientific_long hshort hn⟩

/-- What a literal may be read as: zero, a positive double or infinity. -/
theorem ofScientific_cases (n k : Nat) :
    (Float.ofScientific n true k).toBits = 0 ∨
      (∃ M E, 0 < M ∧ Exact.ofFloat? (Float.ofScientific n true k) = some ⟨false, M, E⟩) ∨
        (Float.ofScientific n true k).toBits = 0x7FF0000000000000 := by
  obtain ⟨u, hu, heq⟩ := exists_unsigned n k
  have hle : (Float.ofScientific n true k).toBits.toNat ≤ 2047 * 2 ^ 52 := by
    rw [heq]
    exact toNat_pack_le hu
  generalize Float.ofScientific n true k = x at hle ⊢
  by_cases hzero : x.toBits.toNat = 0
  · exact Or.inl (UInt64.toNat_inj.mp hzero)
  by_cases hfull : x.toBits.toNat = 2047 * 2 ^ 52
  · exact Or.inr (Or.inr (UInt64.toNat_inj.mp hfull))
  refine Or.inr (Or.inl ?_)
  have hsign : (x.toBits.toNat / 2 ^ 63 == 1) = false := by
    rw [beq_eq_false_iff_ne]
    omega
  unfold Exact.ofFloat?
  simp only [Nat.pow_eq]
  rw [hsign, if_neg (by omega)]
  by_cases hfield : x.toBits.toNat / 2 ^ 52 % 2 ^ 11 = 0
  · exact ⟨_, _, by omega, if_pos hfield⟩
  · exact ⟨_, _, by omega, if_neg hfield⟩

end Decimal

end RenderFold
