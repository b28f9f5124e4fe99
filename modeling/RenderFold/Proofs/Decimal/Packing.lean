import RenderFold.Data.Text
import RenderFold.Proofs.Decimal.Rounding

/-!
# The Bits of a Double

A positive double is written into bits with its exponent above its mantissa.
Counted from the least exponent, and with the leading bit of the mantissa
left in its place, both are simply added: the leading bit carries over into
the exponent.

The whole numbers that a double can hold exactly keep their value when they
are made into doubles, and so they are whole numbers again where an
expression is evaluated.

## Main definitions

* `bitsOf`: The bits of a positive double.

## Theorems

* `ofFloat?_eq_some_iff`: Reading the parts of a double off its bits.
* `ofFloat?_pack`, `unpack_toBits`: Packing and unpacking.
* `ofFloat?_ofNat`: The parts of a whole number.
* `Value.ofFloat_ofNat`: A number literal that is whole.
-/

namespace RenderFold

namespace Decimal

open Float.Model (UnpackedFloat totalExponent)
open Float.Model.Format (binary64)
open Float.Model.UnpackedFloat (Sign packComponents unpackExponent unpackMantissa unpackSign)

variable {x y : Float} {M m : Nat} {E e : Int}

theorem toNat_packComponents (sign : Sign) (exponent : BitVec 11) (mantissa : BitVec 52) :
    (packComponents binary64 sign exponent mantissa).toNat =
      (sign.toBitVec.toNat * 2 ^ 11 + exponent.toNat) * 2 ^ 52 + mantissa.toNat := by
  unfold packComponents
  rw [BitVec.toNat_append, ← Nat.shiftLeft_add_eq_or_of_lt mantissa.isLt, BitVec.toNat_append,
    ← Nat.shiftLeft_add_eq_or_of_lt exponent.isLt, Nat.shiftLeft_eq, Nat.shiftLeft_eq]

theorem toNat_unpackExponent (b : BitVec 64) :
    (@unpackExponent binary64 b).toNat = b.toNat / 2 ^ 52 % 2 ^ 11 := by
  unfold unpackExponent
  rw [BitVec.toNat_cast, BitVec.extractLsb_toNat, Nat.shiftRight_eq_div_pow]
  rfl

theorem toNat_unpackMantissa (b : BitVec 64) :
    (@unpackMantissa binary64 b).toNat = b.toNat % 2 ^ 52 := by
  unfold unpackMantissa
  rw [BitVec.toNat_cast, BitVec.extractLsb_toNat, Nat.shiftRight_zero]
  rfl

theorem toNat_unpackSign (b : BitVec 64) :
    (@unpackSign binary64 b).toNat = b.toNat / 2 ^ 63 := by
  have hlt := b.isLt
  unfold unpackSign
  rw [BitVec.toNat_cast, BitVec.extractLsb_toNat, Nat.shiftRight_eq_div_pow]
  change b.toNat / 2 ^ 63 % 2 ^ 1 = _
  omega

/-- The bits of a positive double. -/
def bitsOf (M : Nat) (E : Int) : Nat := (E + 1074).toNat * 2 ^ 52 + M

/-- The parts of a double that is not zero are read off its bits. The sign is
    the highest of them. -/
theorem ofFloat?_signed_iff (negative : Bool) (hm : 0 < m) :
    Exact.ofFloat? x = some ⟨negative, m, e⟩ ↔
      Canonical m e ∧ x.toBits.toNat = negative.toNat * 2 ^ 63 + bitsOf m e := by
  have hlt : x.toBits.toNat < 2 ^ 64 := x.toBits.toNat_lt
  unfold Exact.ofFloat? bitsOf
  simp only [Nat.pow_eq]
  generalize x.toBits.toNat = n at hlt ⊢
  have hnegative : (n / 2 ^ 63 == 1) = negative ↔ n / 2 ^ 63 = negative.toNat := by
    cases negative with
    | false =>
        rw [beq_eq_false_iff_ne, Bool.toNat_false]
        omega
    | true => rw [beq_iff_eq, Bool.toNat_true]
  have hbit : negative.toNat ≤ 1 := Bool.toNat_le negative
  constructor
  · intro h
    split at h
    · cases h
    · split at h
      · simp only [Option.some.injEq, Exact.mk.injEq, hnegative] at h
        refine ⟨⟨hm, by omega, by omega, Or.inr h.2.2.symm, by omega⟩, by omega⟩
      · simp only [Option.some.injEq, Exact.mk.injEq, hnegative] at h
        refine ⟨⟨hm, by omega, by omega, Or.inl (by omega), by omega⟩, by omega⟩
  · rintro ⟨⟨-, hm', hmin, hfull, hmax⟩, hn⟩
    rw [if_neg (by omega)]
    by_cases hfield : n / 2 ^ 52 % 2 ^ 11 = 0
    · rw [if_pos hfield]
      simp only [Option.some.injEq, Exact.mk.injEq, hnegative]
      omega
    · rw [if_neg hfield]
      simp only [Option.some.injEq, Exact.mk.injEq, hnegative]
      omega

/-- The parts of a positive double are read off its bits. -/
theorem ofFloat?_eq_some_iff (hm : 0 < m) : Exact.ofFloat? x = some ⟨false, m, e⟩ ↔
    Canonical m e ∧ x.toBits.toNat = bitsOf m e := by
  rw [ofFloat?_signed_iff false hm, Bool.toNat_false, Nat.zero_mul, Nat.zero_add]

/-- Two doubles with the same parts are the same bits. -/
theorem toBits_eq (hm : 0 < m) (hx : Exact.ofFloat? x = some ⟨false, m, e⟩)
    (hy : Exact.ofFloat? y = some ⟨false, m, e⟩) : x.toBits = y.toBits := by
  refine UInt64.toNat_inj.mp ?_
  rw [((ofFloat?_eq_some_iff hm).mp hx).2, ((ofFloat?_eq_some_iff hm).mp hy).2]

theorem toNat_pack_signed (sign : Sign) (h : Canonical M E) :
    (Float.Model.pack (.finite sign M E h.pos)).toBits.toNat =
      sign.toBitVec.toNat * 2 ^ 63 + bitsOf M E := by
  have hlog : M.log2 < 53 := (Nat.log2_lt h.pos.ne').mpr h.lt
  have hmin := h.min_le
  have hmax := h.le_max
  have hlt := h.lt
  unfold bitsOf
  change (UnpackedFloat.pack binary64 (.finite sign M E h.pos)).toNat = _
  unfold UnpackedFloat.pack
  dsimp only
  have hbias : (E + (binary64.exponentBias : Int) + (binary64.mantissaBitsWithoutImplicit : Int)).toNat =
      (E + 1075).toNat := by
    change (E + 1023 + 52).toNat = _
    omega
  rw [hbias, if_neg (by omega)]
  by_cases hfull : 2 ^ 52 ≤ M
  · have hlog' : 52 ≤ M.log2 := (Nat.le_log2 h.pos.ne').mpr hfull
    rw [if_pos (by change _ = 53; omega), toNat_packComponents]
    simp only [BitVec.toNat_ofNat]
    change (_ * 2 ^ 11 + (E + 1075).toNat % 2 ^ 11) * 2 ^ 52 + M % 2 ^ 52 = _
    omega
  · have hE := h.full.resolve_left hfull
    have hlog' : M.log2 < 52 := (Nat.log2_lt h.pos.ne').mpr (Nat.lt_of_not_le hfull)
    rw [if_neg (by change ¬ _ = 53; omega), toNat_packComponents]
    simp only [BitVec.toNat_ofNat]
    change (_ * 2 ^ 11 + 0 % 2 ^ 11) * 2 ^ 52 + M % 2 ^ 52 = _
    omega

/-- A canonical mantissa and exponent are the parts of the double that they
    are packed into. -/
theorem ofFloat?_pack (h : Canonical M E) :
    Exact.ofFloat? (.ofModel (.pack (.finite .positive M E h.pos))) = some ⟨false, M, E⟩ :=
  (ofFloat?_eq_some_iff h.pos).mpr ⟨h, by
    rw [← Nat.zero_add (bitsOf M E), ← Nat.zero_mul (2 ^ 63)]
    exact toNat_pack_signed .positive h⟩

/-- The parts of a positive double are what it is unpacked into. -/
theorem unpack_toBits (hm : 0 < m) (h : Exact.ofFloat? x = some ⟨false, m, e⟩) :
    UnpackedFloat.unpack binary64 x.toBits.toBitVec = .finite .positive m e hm := by
  obtain ⟨hcanonical, hbits⟩ := (ofFloat?_eq_some_iff hm).mp h
  have hmin := hcanonical.min_le
  have hmax := hcanonical.le_max
  have hlt := hcanonical.lt
  have hfull := hcanonical.full
  unfold bitsOf at hbits
  rw [← UInt64.toNat_toBitVec] at hbits
  generalize x.toBits.toBitVec = b at hbits ⊢
  have hexponent := toNat_unpackExponent b
  have hmantissa := toNat_unpackMantissa b
  have hsign := toNat_unpackSign b
  have hpositive : Sign.ofBitVec (@unpackSign binary64 b) = .positive := by
    have hzero : @unpackSign binary64 b = 0#1 := BitVec.toNat_inj.mp (by
      rw [hsign, BitVec.toNat_zero]
      omega)
    rw [hzero]
    rfl
  have hfinite : @unpackExponent binary64 b ≠ -1#11 := by
    intro heq
    rw [heq] at hexponent
    change 2047 = _ at hexponent
    omega
  unfold UnpackedFloat.unpack
  dsimp only
  rw [if_neg hfinite, hpositive]
  by_cases hzero : @unpackExponent binary64 b = 0#11
  · have hfield : b.toNat / 2 ^ 52 % 2 ^ 11 = 0 := by
      rw [← hexponent, hzero]
      rfl
    have hrest : @unpackMantissa binary64 b ≠ 0#52 := by
      intro heq
      rw [heq] at hmantissa
      change 0 = _ at hmantissa
      omega
    rw [if_pos hzero, dif_neg hrest, UnpackedFloat.finite.injEq, hmantissa, hexponent, hfield]
    refine ⟨rfl, by omega, ?_⟩
    change ((0 : Nat) : Int) - (1023 + 52) + 1 = e
    omega
  · have hfield : b.toNat / 2 ^ 52 % 2 ^ 11 ≠ 0 := by
      intro heq
      rw [← hexponent] at heq
      exact hzero (BitVec.toNat_inj.mp heq)
    have happend : (1#1 ++ @unpackMantissa binary64 b).toNat = 2 ^ 52 + b.toNat % 2 ^ 52 := by
      rw [BitVec.toNat_append, ← Nat.shiftLeft_add_eq_or_of_lt (BitVec.isLt _), hmantissa,
        Nat.shiftLeft_eq]
      rfl
    rw [if_neg hzero, UnpackedFloat.finite.injEq, happend, hexponent]
    refine ⟨rfl, by omega, ?_⟩
    change ((b.toNat / 2 ^ 52 % 2 ^ 11 : Nat) : Int) - (1023 + 52) = e
    omega

/-- A double changes its sign only, when it is negated. -/
theorem ofFloat?_neg (hm : 0 < m) (h : Exact.ofFloat? x = some ⟨false, m, e⟩) :
    Exact.ofFloat? x.neg = some ⟨true, m, e⟩ := by
  obtain ⟨hcanonical, -⟩ := (ofFloat?_eq_some_iff hm).mp h
  refine (ofFloat?_signed_iff true hm).mpr ⟨hcanonical, ?_⟩
  change (Float.Model.pack (UnpackedFloat.unpack binary64 x.toBits.toBitVec).neg).toBits.toNat = _
  rw [unpack_toBits hm h]
  exact toNat_pack_signed .negative hcanonical

/-- A literal is read back from the bits that it was written into. -/
theorem ofFloat?_ofBits (hm : 0 < m) (h : Exact.ofFloat? x = some ⟨false, m, e⟩) :
    Exact.ofFloat? (Float.ofBits x.toBits) = some ⟨false, m, e⟩ := by
  obtain ⟨hcanonical, -⟩ := (ofFloat?_eq_some_iff hm).mp h
  unfold Float.ofBits Float.Model.ofBits
  rw [unpack_toBits hm h]
  exact ofFloat?_pack hcanonical

section Whole

variable {n : Nat}

/-- The mantissa and exponent of a whole number. -/
theorem exists_canonical_natCast (hpos : 0 < n) (hlt : n < 2 ^ 53) :
    ∃ M E, Canonical M E ∧ E = (n.log2 : Int) - 52 ∧ M = n * 2 ^ (52 - n.log2) ∧
      (n : ℚ) / 2 ^ E = M := by
  have hlog : n.log2 < 53 := (Nat.log2_lt hpos.ne').mpr hlt
  have hlow : 2 ^ n.log2 ≤ n := Nat.log2_self_le hpos.ne'
  have hhigh : n < 2 ^ (n.log2 + 1) := (Nat.log2_lt hpos.ne').mp (Nat.lt_succ_self _)
  have hsplit : 2 ^ n.log2 * 2 ^ (52 - n.log2) = 2 ^ 52 := by
    rw [← Nat.pow_add]
    congr 1
    omega
  have hM : 2 ^ 52 ≤ n * 2 ^ (52 - n.log2) :=
    hsplit ▸ Nat.mul_le_mul_right _ hlow
  have hM' : n * 2 ^ (52 - n.log2) < 2 ^ 53 := by
    rw [show (2 : Nat) ^ 53 = 2 ^ 52 * 2 from rfl, ← hsplit, Nat.mul_right_comm, ← Nat.pow_succ]
    exact Nat.mul_lt_mul_of_pos_right hhigh (Nat.two_pow_pos _)
  refine ⟨_, _, ⟨by omega, hM', by omega, Or.inl hM, by omega⟩, rfl, rfl, ?_⟩
  rw [div_eq_iff (zpow_pos two_pos _).ne']
  push_cast
  rw [mul_assoc, ← zpow_natCast, ← zpow_add₀ two_ne_zero]
  rw [show ((52 - n.log2 : Nat) : Int) + ((n.log2 : Int) - 52) = 0 by omega, zpow_zero, mul_one]

/-- A whole number below `2 ^ 53` is a double. -/
theorem round_natCast (hpos : 0 < n) (hlt : n < 2 ^ 53) {M : Nat} {E : Int}
    (hcanonical : Canonical M E) (hE : E = (n.log2 : Int) - 52) (hM : M = n * 2 ^ (52 - n.log2)) :
    UnpackedFloat.ofNat binary64 n = .finite .positive M E hcanonical.pos := by
  have hlog : n.log2 < 53 := (Nat.log2_lt hpos.ne').mpr hlt
  have htarget : binary64.targetExponent (totalExponent n 0) = E := by
    rw [targetExponent_eq]
    unfold totalExponent
    omega
  have hdecrease : UnpackedFloat.decreaseExponent n 0 E = (M, E) := by
    have hcast : (((0 - E).toNat : Nat) : Int) = 0 - E := Int.toNat_of_nonneg (by omega)
    unfold UnpackedFloat.decreaseExponent
    dsimp only
    rw [Nat.shiftLeft_eq, hM, hcast, show (0 - E).toNat = 52 - n.log2 by omega]
    congr 1
    omega
  have hround : UnpackedFloat.ofNat binary64 n = UnpackedFloat.round binary64 .positive n 0 := by
    unfold UnpackedFloat.ofNat UnpackedFloat.ofInt UnpackedFloat.normalize
    rw [Int.compare_eq_gt.mpr (by omega)]
    rfl
  have hself : Holds (.ofMantissaAndAccuracy M .exact) ((M : ℚ) * 2 ^ E / 2 ^ E) := by
    rw [mul_div_cancel_right₀ _ (zpow_pos two_pos E).ne']
    exact .exact M
  have hrounds : Rounds ((M : ℚ) * 2 ^ E / 2 ^ E) M E := by
    rw [mul_div_cancel_right₀ _ (zpow_pos two_pos E).ne']
    exact .self M E
  rw [hround]
  unfold UnpackedFloat.round
  rw [htarget]
  dsimp only
  rw [hdecrease]
  refine roundWithAccuracy_eq .positive hcanonical hrounds hself ?_
  change E ≤ binary64.targetExponent (totalExponent M E)
  rw [targetExponent_eq]
  unfold totalExponent
  have hfull : 52 ≤ M.log2 := by
    rcases hcanonical.full with hfull | hfull
    · exact (Nat.le_log2 hcanonical.pos.ne').mpr hfull
    · omega
  omega

/-- Multiplying by one changes no double. -/
theorem mul_one_canonical {M : Nat} {E : Int} (h : Canonical M E) :
    UnpackedFloat.mul binary64 (.finite .positive M E h.pos)
      (UnpackedFloat.unpack binary64 0x3FF0000000000000#64) = .finite .positive M E h.pos := by
  have hone : UnpackedFloat.unpack binary64 0x3FF0000000000000#64 =
      .finite .positive (2 ^ 52) (-52) (by decide) := by
    rfl
  rw [hone]
  have hvalue : ((M * 2 ^ 52 : Nat) : ℚ) = (M : ℚ) * 2 ^ E / 2 ^ (E + -52) := by
    rw [eq_div_iff (zpow_pos two_pos _).ne', zpow_add₀ two_ne_zero]
    push_cast
    ring
  have hself : Holds (.ofMantissaAndAccuracy (M * 2 ^ 52) .exact)
      ((M : ℚ) * 2 ^ E / 2 ^ (E + -52)) := by
    rw [← hvalue]
    exact .exact _
  have hrounds : Rounds ((M : ℚ) * 2 ^ E / 2 ^ E) M E := by
    rw [mul_div_cancel_right₀ _ (zpow_pos two_pos E).ne']
    exact .self M E
  refine roundWithAccuracy_eq .positive h hrounds hself ?_
  have hmin := h.min_le
  have hlog : 52 ≤ (M * 2 ^ 52).log2 :=
    (Nat.le_log2 (Nat.mul_pos h.pos (Nat.two_pow_pos 52)).ne').mpr
      (Nat.le_mul_of_pos_left _ h.pos)
  rw [targetExponent_eq]
  unfold totalExponent
  omega

/-- The parts of a whole number below `2 ^ 53`. -/
theorem ofFloat?_ofNat (hpos : 0 < n) (hlt : n < 2 ^ 53) :
    ∃ M E, 0 < M ∧ Exact.ofFloat? (Float.ofNat n) = some ⟨false, M, E⟩ ∧ (M : ℚ) * 2 ^ E = n := by
  obtain ⟨M, E, hcanonical, hE, hM, hvalue⟩ := exists_canonical_natCast hpos hlt
  have hword : n.toUInt64.toNat = n := by
    rw [Nat.toUInt64_eq, UInt64.toNat_ofNat']
    exact Nat.mod_eq_of_lt (by omega)
  have hfloat : Float.ofNat n = .ofModel (.pack (UnpackedFloat.mul binary64
      (UnpackedFloat.unpack binary64
        (Float.ofModel (.pack (UnpackedFloat.ofNat binary64 n))).toBits.toBitVec)
      (UnpackedFloat.unpack binary64 0x3FF0000000000000#64))) := by
    unfold Float.ofNat
    change Float.ofScientific n false 0 = _
    unfold Float.ofScientific
    rw [dif_pos ⟨hlt, Nat.zero_le _⟩]
    change Float.ofModel (.pack (UnpackedFloat.mul binary64
      (UnpackedFloat.unpack binary64
        (Float.Model.pack (UnpackedFloat.ofNat binary64 n.toUInt64.toNat)).toBits.toBitVec)
      (UnpackedFloat.unpack binary64 _))) = _
    rw [hword]
    rfl
  refine ⟨M, E, hcanonical.pos, ?_, ?_⟩
  · rw [hfloat, round_natCast hpos hlt hcanonical hE hM,
      unpack_toBits hcanonical.pos (ofFloat?_pack hcanonical), mul_one_canonical hcanonical]
    exact ofFloat?_pack hcanonical
  · rw [← hvalue, div_mul_cancel₀ _ (zpow_pos two_pos E).ne']

end Whole

namespace Exact

/-- A double with the value of a whole number is whole. -/
theorem numerator_eq {M : Nat} {E : Int} {n : Nat} (h : (M : ℚ) * 2 ^ E = n) :
    (⟨false, M, E⟩ : Exact).numerator = n * (⟨false, M, E⟩ : Exact).denominator := by
  unfold numerator denominator
  simp only [Nat.pow_eq]
  have hsplit : E + ((-E).toNat : Nat) = (E.toNat : Nat) := by omega
  have hcast : ((M * 2 ^ E.toNat : Nat) : ℚ) = ((n * 2 ^ (-E).toNat : Nat) : ℚ) := by
    push_cast
    rw [← zpow_natCast, ← zpow_natCast, ← hsplit, zpow_add₀ two_ne_zero, ← mul_assoc, h]
  exact_mod_cast hcast

section Numerator

variable {parts : Exact} {n : Nat}

theorem denominator_pos (parts : Exact) : 0 < parts.denominator := Nat.two_pow_pos _

theorem isWhole_of_numerator (h : parts.numerator = n * parts.denominator) :
    parts.isWhole = true := by
  unfold isWhole
  rw [h, Nat.mul_mod_left]
  rfl

theorem isBelow_of_numerator (h : parts.numerator = n * parts.denominator) {bound : Nat}
    (hlt : n < bound) : parts.isBelow bound = true := by
  unfold isBelow
  rw [h]
  exact decide_eq_true (Nat.mul_lt_mul_of_pos_right hlt parts.denominator_pos)

end Numerator

end Exact

end Decimal

/-- A double with the value of a whole number counts as that number, unless it
    is too great. -/
theorem Value.ofFloat_of_value {x : Float} {M : Nat} {E : Int} {n : Nat}
    (hparts : Decimal.Exact.ofFloat? x = some ⟨false, M, E⟩) (hvalue : (M : ℚ) * 2 ^ E = n)
    (hlt : n < 9 * 10 ^ 15) : Value.ofFloat x = .int n := by
  have hnumerator := Decimal.Exact.numerator_eq hvalue
  have hbelow : n < 9 * Nat.pow 10 15 := hlt
  unfold Value.ofFloat
  rw [hparts]
  dsimp only
  rw [Decimal.Exact.isWhole_of_numerator hnumerator,
    Decimal.Exact.isBelow_of_numerator hnumerator hbelow, Bool.and_true, if_pos rfl]
  unfold Decimal.Exact.truncate
  rw [hnumerator, Nat.mul_div_cancel _ (Decimal.Exact.denominator_pos _)]
  rfl

/-- A number literal for a whole number is evaluated to that number. -/
theorem Value.ofFloat_ofNat {n : Nat} (h : n < 9 * 10 ^ 15) :
    Value.ofFloat (Float.ofBits (Float.ofNat n).toBits) = .int n := by
  rcases Nat.eq_zero_or_pos n with rfl | hpos
  · have hzero : Decimal.Exact.ofFloat? (Float.ofBits (Float.ofNat 0).toBits) =
        some ⟨false, 0, -1074⟩ := by decide +kernel
    exact Value.ofFloat_of_value hzero (by rw [Nat.cast_zero, zero_mul]) h
  · obtain ⟨M, E, hM, hparts, hvalue⟩ := Decimal.ofFloat?_ofNat hpos (by omega)
    exact Value.ofFloat_of_value (Decimal.ofFloat?_ofBits hM hparts) hvalue h

end RenderFold
