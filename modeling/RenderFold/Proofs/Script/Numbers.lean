import RenderFold.Script.Printer
import RenderFold.Proofs.Decimal.Nearest
import Mathlib.Data.List.TakeWhile
import Mathlib.Data.Nat.Cast.Field

/-!
# Number Literals

A number that was read from a literal is printed as a literal for the same
number. The digits need not be those that were read: what is printed is a
whole number in its digits, or the shortest digits in the rounding interval
of the double, with a point in them or with zeros. Either is in the interval,
and so it is read as the same double.

That leaves literals that are too great for a double. They are read as
infinity, which no literal is printed for.

## Main definitions

* `Literal`: The bits of a number that was read.
* `Lexer.Spells`: Characters that are read as a decimal fraction.

## Theorems

* `positional_spells`: Digits that are set out are read back.
* `number_spells`: A number that was read is printed as a literal for it.
-/

namespace RenderFold

namespace Script

open Decimal (Exact Digits Canonical Rounds)

/-- The bits of a number that was read from a literal. -/
def Literal (bits : UInt64) : Prop := ∃ n k, bits = (Float.ofScientific n true k).toBits

namespace Lexer

/-- Characters that are read as the fraction `n / 10 ^ k`. -/
structure Spells (text : List Char) (n k : Nat) : Prop where
  starts : ∃ c rest, text = c :: rest ∧ c.isDigit = true
  parts : ∀ c ∈ text, isNumberPart c = true
  value : numberValue? text = some (Float.ofScientific n true k)

variable {digits left right : List Char} {n k : Nat}

theorem isNumberPart_of_isDigit {c : Char} (h : c.isDigit = true) : isNumberPart c = true := by
  unfold isNumberPart
  rw [h, Bool.true_or]

theorem ne_point_of_isDigit {c : Char} (h : c.isDigit = true) : c ≠ '.' := by
  rintro rfl
  exact absurd h (by decide)

theorem takeWhile_digits (h : ∀ c ∈ left, c.isDigit = true) (rest : List Char) :
    (left ++ '.' :: rest).takeWhile (· ≠ '.') = left := by
  rw [List.takeWhile_append_of_pos fun c hc => decide_eq_true (ne_point_of_isDigit (h c hc)),
    List.takeWhile_cons_of_neg (by simp), List.append_nil]

theorem dropWhile_digits (h : ∀ c ∈ left, c.isDigit = true) (rest : List Char) :
    (left ++ '.' :: rest).dropWhile (· ≠ '.') = '.' :: rest := by
  rw [List.dropWhile_append_of_pos fun c hc => decide_eq_true (ne_point_of_isDigit (h c hc)),
    List.dropWhile_cons_of_neg (by simp)]

/-- Digits without a point. -/
theorem Spells.whole (hne : digits ≠ []) (h : ∀ c ∈ digits, c.isDigit = true) :
    Spells digits (Text.decimalValue digits) 0 := by
  have hall : ∀ c ∈ digits, decide (c ≠ '.') = true :=
    fun c hc => decide_eq_true (ne_point_of_isDigit (h c hc))
  refine ⟨?_, fun c hc => isNumberPart_of_isDigit (h c hc), ?_⟩
  · cases digits with
    | nil => exact absurd rfl hne
    | cons c rest => exact ⟨c, rest, rfl, h c List.mem_cons_self⟩
  · unfold numberValue?
    dsimp only
    rw [List.takeWhile_eq_self_iff.mpr hall, List.dropWhile_eq_nil_iff.mpr hall, List.drop_nil,
      List.append_nil]
    rfl

/-- Digits with a point between them. -/
theorem Spells.fraction (hne : left ≠ []) (hleft : ∀ c ∈ left, c.isDigit = true)
    (hright : ∀ c ∈ right, c.isDigit = true) :
    Spells (left ++ '.' :: right) (Text.decimalValue (left ++ right)) right.length := by
  refine ⟨?_, fun c hc => ?_, ?_⟩
  · cases left with
    | nil => exact absurd rfl hne
    | cons c rest => exact ⟨c, rest ++ '.' :: right, rfl, hleft c List.mem_cons_self⟩
  · rcases List.mem_append.mp hc with hc | hc
    · exact isNumberPart_of_isDigit (hleft c hc)
    · rcases List.mem_cons.mp hc with rfl | hc
      · decide
      · exact isNumberPart_of_isDigit (hright c hc)
  · have hpoint : right.contains '.' = false := by
      rw [List.contains_eq_mem, decide_eq_false_iff_not]
      exact fun hmem => ne_point_of_isDigit (hright _ hmem) rfl
    unfold numberValue?
    dsimp only
    rw [takeWhile_digits hleft, dropWhile_digits hleft, List.drop_one, List.tail_cons, hpoint]
    rfl

/-- Digits that a point is put into. -/
theorem Spells.split (hne : digits ≠ []) (h : ∀ c ∈ digits, c.isDigit = true) {place : Nat}
    (hplace : place ≠ 0) : Spells (digits.take place ++ '.' :: digits.drop place)
      (Text.decimalValue digits) (digits.length - place) := by
  have hspells := Spells.fraction (fun hnil => (List.take_eq_nil_iff.mp hnil).elim hplace hne)
    (fun c hc => h c (List.mem_of_mem_take hc))
    (fun c (hc : c ∈ digits.drop place) => h c (List.mem_of_mem_drop hc))
  rwa [List.take_append_drop, List.length_drop] at hspells

theorem decimalValue_eq (text : List Char) :
    Text.decimalValue text = Nat.ofDigitChars 10 text 0 := by
  rw [Nat.ofDigitChars_eq_foldl]
  unfold Text.decimalValue
  congr 1
  funext n c
  rw [Nat.mul_comm]

end Lexer

open Lexer

section Positional

variable {d : Digits}

theorem toDigits_isDigit (n : Nat) : ∀ c ∈ Nat.toDigits 10 n, c.isDigit = true :=
  fun _ hc => Nat.isDigit_of_mem_toDigits (by decide) (by decide) hc

theorem toList_zeros (n : Nat) : (Decimal.zeros n).toList = List.replicate n '0' :=
  String.toList_ofList

theorem replicate_isDigit (n : Nat) : ∀ c ∈ List.replicate n '0', c.isDigit = true := by
  intro c hc
  rw [List.eq_of_mem_replicate hc]
  rfl

/-- A whole number in its digits is read back. -/
theorem spells_repr (n : Nat) : Spells (Nat.repr n).toList n 0 := by
  have h := Spells.whole Nat.toDigits_ne_nil (toDigits_isDigit n)
  rwa [decimalValue_eq, Nat.ofDigitChars_ten_toDigits, ← Nat.toList_repr] at h

/-- Digits that are set out with zeros or with a point are read back. -/
theorem positional_spells (d : Digits) : ∃ n k, Spells (d.positional "").toList n k ∧
    (n : ℚ) / 10 ^ k = d.digits * 10 ^ d.exponent := by
  have hdigits := toDigits_isDigit d.digits
  have hne : Nat.toDigits 10 d.digits ≠ [] := Nat.toDigits_ne_nil
  have hvalue := @Nat.ofDigitChars_ten_toDigits d.digits
  have hlength : (Nat.repr d.digits).length = (Nat.toDigits 10 d.digits).length := by
    rw [← String.length_toList, Nat.toList_repr]
  unfold Digits.positional
  dsimp only
  rw [hlength]
  by_cases hexponent : 0 ≤ d.exponent
  -- Zeros follow.
  · have hspells := Spells.whole
      (List.append_ne_nil_of_left_ne_nil hne (List.replicate d.exponent.toNat '0'))
      fun c hc => (List.mem_append.mp hc).elim (hdigits c) (replicate_isDigit _ c)
    rw [decimalValue_eq, Nat.ofDigitChars_append, Nat.ofDigitChars_replicate_zero, hvalue] at hspells
    refine ⟨10 ^ d.exponent.toNat * d.digits, 0, ?_, ?_⟩
    · rw [if_pos hexponent, String.append_empty, String.toList_append, Nat.toList_repr, toList_zeros]
      exact hspells
    · rw [pow_zero, div_one]
      push_cast
      rw [mul_comm, ← zpow_natCast, Int.toNat_of_nonneg hexponent]
  · refine ⟨d.digits, (-d.exponent).toNat, ?_, ?_⟩
    · rw [if_neg hexponent]
      by_cases hfraction : (-d.exponent).toNat < (Nat.toDigits 10 d.digits).length
      -- The point is among the digits.
      · have hspells := Spells.split hne hdigits (Nat.sub_ne_zero_of_lt hfraction)
        rw [decimalValue_eq, hvalue, Nat.sub_sub_self hfraction.le] at hspells
        rw [if_pos hfraction, List.splitAt_eq, Nat.toList_repr]
        simp only [String.toList_append, String.toList_ofList]
        rw [List.append_assoc]
        exact hspells
      -- The point comes first, and zeros follow it.
      · have hspells := @Spells.fraction ['0']
          (List.replicate ((-d.exponent).toNat - (Nat.toDigits 10 d.digits).length) '0' ++
            Nat.toDigits 10 d.digits)
          (List.cons_ne_nil _ _) (List.forall_mem_singleton.mpr rfl)
          fun c hc => (List.mem_append.mp hc).elim (replicate_isDigit _ c) (hdigits c)
        rw [decimalValue_eq, Nat.ofDigitChars_append, Nat.ofDigitChars_append,
          Nat.ofDigitChars_replicate_zero, show Nat.ofDigitChars 10 ['0'] 0 = 0 from rfl,
          Nat.mul_zero, hvalue, List.length_append, List.length_replicate,
          Nat.sub_add_cancel (Nat.le_of_not_lt hfraction)] at hspells
        rw [if_neg hfraction, String.toList_append, String.toList_append, toList_zeros,
          Nat.toList_repr, List.append_assoc]
        exact hspells
    · rw [← zpow_natCast, Int.toNat_of_nonneg (by omega), zpow_neg, div_inv_eq_mul]

end Positional

section Written

variable {M n k : Nat} {E : Int} {x : Float}

/-- A double without a fractional part is the quotient of its parts. -/
theorem value_of_isWhole (h : (⟨false, M, E⟩ : Exact).isWhole = true) : (M : ℚ) * 2 ^ E =
    ((⟨false, M, E⟩ : Exact).numerator / (⟨false, M, E⟩ : Exact).denominator : Nat) := by
  have hdvd := Nat.dvd_of_mod_eq_zero (beq_iff_eq.mp h)
  have hpos : (0 : ℚ) < 2 ^ (-E).toNat := by positivity
  rw [Nat.cast_div hdvd (by
    change ((2 ^ (-E).toNat : Nat) : ℚ) ≠ 0
    push_cast
    exact hpos.ne')]
  change _ = ((M * 2 ^ E.toNat : Nat) : ℚ) / ((2 ^ (-E).toNat : Nat) : ℚ)
  push_cast
  rw [Decimal.pow_toNat_eq two_ne_zero E, ← mul_assoc, mul_div_cancel_right₀ _ hpos.ne']

/-- A positive double is written as digits in its interval. -/
theorem number_rounds (hM : 0 < M) (hparts : Exact.ofFloat? x = some ⟨false, M, E⟩) :
    ∃ n k, Spells (Printer.number x).toList n k ∧ Rounds ((n : ℚ) / 10 ^ k / 2 ^ E) M E := by
  have hcanonical := ((Decimal.ofFloat?_eq_some_iff hM).mp hparts).1
  have hplain : ∃ n k, Spells (Decimal.plain.write x).toList n k ∧
      Rounds ((n : ℚ) / 10 ^ k / 2 ^ E) M E := by
    have hwrite : Decimal.plain.write x =
        (Decimal.shortest Decimal.plain.tie ⟨false, M, E⟩).positional "" := by
      unfold Decimal.Layout.write
      rw [hparts]
      rfl
    obtain ⟨n, k, hspells, hvalue⟩ :=
      positional_spells (Decimal.shortest Decimal.plain.tie ⟨false, M, E⟩)
    refine ⟨n, k, hwrite ▸ hspells, ?_⟩
    rw [hvalue]
    exact Decimal.shortest_rounds hM hcanonical.min_le _
  unfold Printer.number
  rw [hparts]
  dsimp only
  split
  · next hwhole =>
      rw [Bool.and_eq_true] at hwhole
      refine ⟨_, 0, spells_repr _, ?_⟩
      rw [pow_zero, div_one, ← value_of_isWhole hwhole.1,
        mul_div_cancel_right₀ _ (zpow_pos two_pos E).ne']
      exact .self M E
  · exact hplain

theorem eq_of_toBits_eq {x y : Float} (h : x.toBits = y.toBits) : x = y := by
  obtain ⟨⟨_, _⟩⟩ := x
  obtain ⟨⟨_, _⟩⟩ := y
  cases (h : _ = _)
  rfl

/-- The bits of a number that was read and is not too great. -/
theorem literal_cases {bits : UInt64} (h : Literal bits)
    (hfinite : (Exact.ofFloat? (Float.ofBits bits)).isSome = true) :
    bits = 0 ∨ ∃ M E, 0 < M ∧ bits.toNat = Decimal.bitsOf M E ∧
      Exact.ofFloat? (Float.ofBits bits) = some ⟨false, M, E⟩ := by
  obtain ⟨n, k, rfl⟩ := h
  rcases Decimal.ofScientific_cases n k with hzero | ⟨M, E, hM, hparts⟩ | hinfinite
  · exact Or.inl hzero
  · exact Or.inr ⟨M, E, hM, ((Decimal.ofFloat?_eq_some_iff hM).mp hparts).2,
      Decimal.ofFloat?_ofBits hM hparts⟩
  · rw [hinfinite] at hfinite
    exact absurd hfinite (by decide +kernel)

/-- A number keeps its bits. -/
theorem toBits_ofBits {bits : UInt64} (h : Literal bits)
    (hfinite : (Exact.ofFloat? (Float.ofBits bits)).isSome = true) :
    (Float.ofBits bits).toBits = bits := by
  rcases literal_cases h hfinite with rfl | ⟨M, E, hM, hbits, hparts⟩
  · decide +kernel
  · refine UInt64.toNat_inj.mp ?_
    rw [((Decimal.ofFloat?_eq_some_iff hM).mp hparts).2, hbits]

/-- A number that was read is printed as a literal for it, unless it was too
    great. -/
theorem number_spells {bits : UInt64} (h : Literal bits)
    (hfinite : (Exact.ofFloat? (Float.ofBits bits)).isSome = true) :
    ∃ n k, Spells (Printer.number (Float.ofBits bits)).toList n k ∧
      Float.ofScientific n true k = Float.ofBits bits := by
  rcases literal_cases h hfinite with rfl | ⟨M, E, hM, -, hparts⟩
  · have hnumber : Printer.number (Float.ofBits 0) = "0" := by decide +kernel
    have hbits : (Float.ofScientific 0 true 0).toBits = (Float.ofBits 0).toBits := by
      decide +kernel
    rw [hnumber]
    exact ⟨0, 0, spells_repr 0, eq_of_toBits_eq hbits⟩
  · obtain ⟨n, k, hspells, hrounds⟩ := number_rounds hM hparts
    have hcanonical := ((Decimal.ofFloat?_eq_some_iff hM).mp hparts).1
    exact ⟨n, k, hspells, eq_of_toBits_eq
      (Decimal.toBits_eq hM (Decimal.ofFloat?_ofScientific hcanonical hrounds) hparts)⟩

end Written

end Script

end RenderFold
