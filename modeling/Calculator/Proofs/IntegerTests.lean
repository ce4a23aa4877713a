import Calculator.Proofs.NearestRounding
/-!
The integer tests read values, not representations. A decimal whose value is an integer at a
positive scale has more digits than places, so every power of ten the tests form from such a
scale is exact, and each test is decided by the value: `isInteger` holds exactly of integer
values (`isInteger_iff`), `isOddInteger` exactly of odd ones (`isOddInteger_iff`), the nearest
integer is the value rounded a half away from zero, and the evaluator's factorial takes exactly
the operands whose value is an integer from `0` to `factorialLimit`, whatever their scale.
-/

namespace Calculator.Decimal

/-! ### Integer values -/

theorem isIntValue_unique {x : Decimal} {a b : Int} (ha : x.IsIntValue a) (hb : x.IsIntValue b) :
    a = b := by
  unfold IsIntValue at ha hb
  split_ifs at ha hb
  · have hP : (pow10 x.scale.toNat : Int) ≠ 0 := by exact_mod_cast (pow10_pos _).ne'
    exact Int.eq_of_mul_eq_mul_right hP (ha.symm.trans hb)
  · rw [ha, hb]

theorem scale_lt_digits_of_isIntValue {x : Decimal} {n : Int} (hv : x.IsIntValue n)
    (h0 : x.mantissa ≠ 0) (hs : 0 < x.scale) (hd : x.digits < 2 ^ 32) : x.scale < x.digits := by
  rw [isIntValue_of_scale_pos hs] at hv
  have hn : n ≠ 0 := by
    rintro rfl
    rw [Int.zero_mul] at hv
    exact h0 hv
  have hm : x.mantissa.natAbs = n.natAbs * pow10 x.scale.toNat := by
    rw [hv, Int.natAbs_mul, Int.natAbs_natCast]
  have habove : pow10 x.scale.toNat ≤ x.mantissa.natAbs := by
    rw [hm]
    exact Nat.le_mul_of_pos_left _ (Int.natAbs_pos.mpr hn)
  have hlt := pow10_lt_pow10_iff.mp (lt_of_le_of_lt habove (lt_pow10_digitCount hd))
  simp only [digits]
  omega

theorem pow10Word_scale_of_isIntValue {x : Decimal} {n : Int} (hv : x.IsIntValue n)
    (h0 : x.mantissa ≠ 0) (hd : x.digits < 2 ^ 32) (hs : 0 ≤ x.scale) :
    pow10Word x.scale = pow10 x.scale.toNat := by
  rcases hs.lt_or_eq with hpos | hzero
  · exact pow10Word_of_lt hs
      (lt_trans (scale_lt_digits_of_isIntValue hv h0 hpos hd) (by exact_mod_cast hd))
  · exact pow10Word_of_lt hs (by omega)

theorem even_of_scale_neg {x : Decimal} {n : Int} (hv : x.IsIntValue n) (hs : x.scale < 0) :
    Even n := by
  rw [isIntValue_of_scale_nonpos hs.le] at hv
  obtain ⟨k, hk⟩ : ∃ k, (-x.scale).toNat = k + 1 := ⟨(-x.scale).toNat - 1, by omega⟩
  rw [hv, hk, pow10_succ, Nat.cast_mul]
  exact (Int.even_mul.mpr (.inr ⟨5, rfl⟩)).mul_left _

/-! ### The tests -/

theorem isInteger_iff {x : Decimal} (hd : x.digits < 2 ^ 32) :
    x.isInteger = true ↔ ∃ n, x.IsIntValue n := by
  constructor
  · intro hint
    by_cases hs : x.scale ≤ 0
    · exact ⟨_, (isIntValue_of_scale_nonpos hs).mpr rfl⟩
    by_cases h0 : x.mantissa = 0
    · exact ⟨0, (isIntValue_of_mantissa_zero h0).mpr rfl⟩
    have hlt := scale_lt_digits_of_isInteger h0 (by omega) hint
    rw [isInteger_of_scale_pos (by omega) hlt hd, decide_eq_true_iff] at hint
    obtain ⟨k, hk⟩ := hint
    exact ⟨k, (isIntValue_of_scale_pos (by omega)).mpr (by rw [hk, Int.mul_comm])⟩
  · rintro ⟨n, hv⟩
    by_cases hs : x.scale ≤ 0
    · simp [isInteger, hs]
    by_cases h0 : x.mantissa = 0
    · simp [isInteger, h0]
    have hlt := scale_lt_digits_of_isIntValue hv h0 (by omega) hd
    rw [isInteger_of_scale_pos (by omega) hlt hd, decide_eq_true_iff]
    rw [isIntValue_of_scale_pos (by omega)] at hv
    exact ⟨n, by rw [hv, Int.mul_comm]⟩

theorem isOddInteger_iff {x : Decimal} {n : Int} (hv : x.IsIntValue n) (hd : x.digits < 2 ^ 32) :
    x.isOddInteger = true ↔ Odd n := by
  unfold isOddInteger
  split_ifs with hs
  · simp only [false_iff, Int.not_odd_iff_even]
    exact even_of_scale_neg hv hs
  by_cases h0 : x.mantissa = 0
  · rw [(isIntValue_of_mantissa_zero h0).mp hv, h0, Int.zero_tdiv]
    decide
  have hpow := pow10Word_scale_of_isIntValue hv h0 hd (by omega)
  have hP : (pow10 x.scale.toNat : Int) ≠ 0 := by exact_mod_cast (pow10_pos _).ne'
  unfold IsIntValue at hv
  rw [if_pos (by omega)] at hv
  rw [hpow, hv, Int.mul_tdiv_cancel n hP, Int.odd_iff]
  simp

/-- The nearest integer of a decimal whose scale and exponent are true words, with fewer than
`2 ^ 32` digits and a scale above `-2 ^ 32`, is its value rounded a half away from zero. -/
theorem nearest_eq_roundAway_of_trueExponent {x : Decimal} (hw : x.WordScale)
    (he : x.TrueExponent) (hd : x.digits < 2 ^ 32) (hs : -x.scale < 2 ^ 32) :
    x.nearest = roundAway x.value := by
  have hexp := exponent_of_trueExponent hw he
  unfold nearest
  split_ifs with hsmall hscale
  · by_cases hm : x.mantissa = 0
    · rw [value_eq_zero_iff.mpr hm, roundAway_zero]
    have hexp' : x.exponent < -1 := hsmall.resolve_left hm
    -- below a tenth in size, the value is nearer to zero than to any other integer
    have hlt : |x.value| < (10 : ℚ) ^ (x.exponent + 1) := by
      have h := lt_zpow_of_log |x.value|
      rwa [log_abs_value hm hd, ← hexp] at h
    have htenth : (10 : ℚ) ^ (x.exponent + 1) ≤ 1 / 10 := by
      calc (10 : ℚ) ^ (x.exponent + 1) ≤ 10 ^ (-1 : ℤ) :=
            zpow_le_zpow_right₀ (by norm_num) (by omega)
        _ = 1 / 10 := by norm_num
    have hnear := roundAway_nearest x.value 0
    have hround := abs_roundAway_sub_le x.value
    rw [Int.cast_zero, zero_sub, abs_neg] at hnear
    by_contra hne
    have hone : (1 : ℚ) ≤ |(roundAway x.value : ℚ)| := by
      exact_mod_cast Int.one_le_abs (Ne.symm hne)
    have := abs_sub_abs_le_abs_sub (roundAway x.value : ℚ) x.value
    linarith
  · -- a whole number: the mantissa shifted left by `-scale` places
    have hpow := pow10Word_of_lt (by omega) hs
    have hval : x.value = ((x.mantissa * (pow10 (-x.scale).toNat : ℕ) : ℤ) : ℚ) := by
      rw [value, Int.cast_mul, Int.cast_natCast, pow10_cast, ← zpow_natCast,
        Int.toNat_of_nonneg (by omega)]
    rw [hpow, hval, roundAway_intCast]
  · -- a rounded quotient of the mantissa by `10 ^ scale`, the scale at most the digit count
    have hm : x.mantissa ≠ 0 := fun h => hsmall (Or.inl h)
    have hpow := pow10Word_of_lt (n := x.scale) (by omega) (by omega)
    have hval : x.value = x.mantissa / 10 ^ x.scale.toNat := by
      rw [value, zpow_neg, ← zpow_natCast, Int.toNat_of_nonneg (by omega), div_eq_mul_inv]
    rw [hpow, hval, roundAway_div_pow10 _ (by omega)]

end Calculator.Decimal

namespace Calculator.Evaluation

open Decimal

/-! ### The evaluator's factorial -/

theorem factorialOf_of_toInt64? {x : Decimal} {n : Int} (hread : x.toInt64? = some n)
    (h0 : 0 ≤ n) (hle : n ≤ factorialLimit) (p : Precision) (rest : List Decimal) :
    factorialOf p (x :: rest) =
      (do
        record (.factorial n.toNat)
        let v ← lift (Elementary.factorial n.toNat p)
        pure (v :: rest)) := by
  simp only [factorialOf, hread, if_pos (And.intro h0 hle)]

theorem factorialOf_of_not_accepted {x : Decimal}
    (hread : ∀ n, x.toInt64? = some n → ¬(0 ≤ n ∧ n ≤ factorialLimit)) (p : Precision)
    (rest : List Decimal) : factorialOf p (x :: rest) = throw (.invalidFactorial (some x)) := by
  unfold factorialOf
  dsimp only
  split
  · next n hn => rw [if_neg (hread n hn)]
  · rfl

end Calculator.Evaluation

namespace Calculator.Decimal

open Evaluation

/-- For every decimal whose scale is a word, whose exponent is its true exponent and whose
mantissa has fewer than `2 ^ 32` digits, the integer tests read its value: it is an integer
exactly when `isInteger` says so, `toInt64?` returns it exactly when it is an integer in the
64-bit range, the nearest integer is the value rounded a half away from zero when the scale is
above `-2 ^ 32`, and the evaluator's factorial computes `n!` for an operand of value `n` from
`0` to `factorialLimit` and refuses, naming it, any other operand. -/
theorem integer_tests_by_value (x : Decimal) (hw : x.WordScale) (he : x.TrueExponent)
    (hd : x.digits < 2 ^ 32) :
    (x.isInteger = true ↔ ∃ n, x.IsIntValue n) ∧
    (∀ n, x.toInt64? = some n ↔ x.IsIntValue n ∧ int64Min ≤ n ∧ n ≤ int64Max) ∧
    (-x.scale < 2 ^ 32 → x.nearest = roundAway x.value) ∧
    (∀ n, x.IsIntValue n → 0 ≤ n → n ≤ factorialLimit → ∀ p rest,
      factorialOf p (x :: rest) =
        (do
          record (.factorial n.toNat)
          let v ← lift (Elementary.factorial n.toNat p)
          pure (v :: rest))) ∧
    ((¬∃ n, x.IsIntValue n ∧ 0 ≤ n ∧ n ≤ factorialLimit) → ∀ p rest,
      factorialOf p (x :: rest) = throw (.invalidFactorial (some x))) := by
  have hread := toInt64?_eq_some_iff hw he hd
  refine ⟨isInteger_iff hd, hread, nearest_eq_roundAway_of_trueExponent hw he hd,
    fun n hv h0 hle => factorialOf_of_toInt64? ((hread n).mpr ⟨hv, ?_, ?_⟩) h0 hle,
    fun hnot => factorialOf_of_not_accepted fun n hn hrange =>
      hnot ⟨n, ((hread n).mp hn).1, hrange⟩⟩
  · exact le_trans (by decide) h0
  · exact le_trans hle (by decide)

/-- `4.0` is the integer `4`: read as `4`, its factorial taken; `4.5` is refused. At the scale
`int64Min`, which no true exponent has, `5` stands for `5 · 10 ^ (2 ^ 63)`, yet it is read as
`5` and its nearest integer is `0`. -/
theorem integer_tests_by_value_samples :
    (⟨40, 1⟩ : Decimal).WordScale ∧ (⟨40, 1⟩ : Decimal).TrueExponent ∧
      (⟨40, 1⟩ : Decimal).digits < 2 ^ 32 ∧ (⟨40, 1⟩ : Decimal).toInt64? = some 4 ∧
      (∀ p rest, factorialOf p ((⟨40, 1⟩ : Decimal) :: rest) =
        (do
          record (.factorial 4)
          let v ← lift (Elementary.factorial 4 p)
          pure (v :: rest))) ∧
      (∀ p rest, factorialOf p ((⟨45, 1⟩ : Decimal) :: rest) =
        throw (.invalidFactorial (some ⟨45, 1⟩))) ∧
      ¬(⟨5, int64Min⟩ : Decimal).TrueExponent ∧ (⟨5, int64Min⟩ : Decimal).toInt64? = some 5 ∧
      (⟨5, int64Min⟩ : Decimal).nearest = 0 := by
  have hw : (⟨40, 1⟩ : Decimal).WordScale := by decide
  have he : (⟨40, 1⟩ : Decimal).TrueExponent := by with_unfolding_all decide
  have hd : (⟨40, 1⟩ : Decimal).digits < 2 ^ 32 := by with_unfolding_all decide
  have hv : (⟨40, 1⟩ : Decimal).IsIntValue 4 := by decide
  obtain ⟨-, hread, -, haccept, -⟩ := integer_tests_by_value ⟨40, 1⟩ hw he hd
  have hnot : ¬∃ n, (⟨45, 1⟩ : Decimal).IsIntValue n ∧ 0 ≤ n ∧ n ≤ factorialLimit := by
    rintro ⟨n, hn, -⟩
    rw [isIntValue_of_scale_pos (by decide)] at hn
    have : (45 : Int) = n * 10 := hn
    omega
  refine ⟨hw, he, hd, (hread 4).mpr ⟨hv, by decide, by decide⟩,
    haccept 4 hv (by decide) (by decide),
    (integer_tests_by_value ⟨45, 1⟩ (by decide) (by with_unfolding_all decide) (by with_unfolding_all decide)).2.2.2.2 hnot,
    by with_unfolding_all decide, (toInt64?_least_scale (by decide) (by decide)).1, by with_unfolding_all decide⟩

end Calculator.Decimal
