import Calculator.Proofs.Positivity
import Calculator.Proofs.Reentry
import Calculator.Elementary.Function
/-!
Reading a decimal as a 64-bit integer. The reading forms the power of ten whose count is the
size of the scale, and reads that count as a 32-bit word. Where the exponent of the decimal is its
true exponent and the mantissa has fewer than `2 ^ 32` digits, every count it forms is below
`2 ^ 32`: at most 18 for a scale below zero, and below the digit count for a scale above zero.
The reading is then exact: it returns the value when that is an integer in range, and nothing
otherwise (`toInt64?_eq_some_iff`).
-/

namespace Calculator.Decimal

def IsIntValue (x : Decimal) (n : Int) : Prop :=
  if 0 ≤ x.scale then x.mantissa = n * (pow10 x.scale.toNat : Int)
  else n = x.mantissa * (pow10 (-x.scale).toNat : Int)

instance (x : Decimal) (n : Int) : Decidable (x.IsIntValue n) :=
  inferInstanceAs (Decidable (if 0 ≤ x.scale then _ else _))

def TrueExponent (x : Decimal) : Prop := (x.digits : Int) - 1 - x.scale ≤ int64Max

instance (x : Decimal) : Decidable x.TrueExponent := inferInstanceAs (Decidable (_ ≤ _))

theorem exponent_of_trueExponent {x : Decimal} (hw : x.WordScale) (he : x.TrueExponent) :
    x.exponent = (x.digits : Int) - 1 - x.scale := by
  have hd := digitCount_pos x.mantissa.natAbs
  unfold exponent
  apply wrap64_of_mem _ he
  have := hw.2
  unfold int64Min
  unfold int64Max at this
  simp only [digits] at *
  omega

theorem isIntValue_of_mantissa_zero {x : Decimal} (h0 : x.mantissa = 0) {n : Int} :
    x.IsIntValue n ↔ n = 0 := by
  have hpos : (0 : Int) < pow10 x.scale.toNat := by exact_mod_cast pow10_pos _
  unfold IsIntValue
  rw [h0]
  split_ifs
  · constructor
    · intro h
      rcases Int.mul_eq_zero.mp h.symm with h | h
      · exact h
      · omega
    · rintro rfl
      simp
  · simp

theorem toNat_sub_scale_of_neg {d : Nat} {s : Int} (hd : 0 < d) (hs : s < 0) :
    ((d : Int) - 1 - s).toNat = (d - 1) + (-s).toNat := by
  omega

theorem toNat_sub_scale_of_nonneg {d : Nat} {s : Int} (hs : 0 ≤ s) (hle : ¬(d : Int) - 1 - s ≤ 0) :
    d - 1 = ((d : Int) - 1 - s).toNat + s.toNat := by
  omega

theorem pow10_le_natAbs_of_isIntValue {x : Decimal} {n : Int} (hv : x.IsIntValue n)
    (h0 : x.mantissa ≠ 0) (hd : x.digits < 2 ^ 32) :
    pow10 ((x.digits : Int) - 1 - x.scale).toNat ≤ n.natAbs := by
  have hlead : pow10 (x.digits - 1) ≤ x.mantissa.natAbs :=
    pow10_pred_digitCount_le (Int.natAbs_pos.mpr h0) hd
  unfold IsIntValue at hv
  split_ifs at hv with hs
  · -- the mantissa is `n` shifted left by the scale
    have hm : x.mantissa.natAbs = n.natAbs * pow10 x.scale.toNat := by
      rw [hv, Int.natAbs_mul, Int.natAbs_natCast]
    by_cases hle : (x.digits : Int) - 1 - x.scale ≤ 0
    · rw [Int.toNat_of_nonpos hle]
      have : n ≠ 0 := by
        rintro rfl
        rw [Int.zero_mul] at hv
        exact h0 hv
      exact Nat.one_le_iff_ne_zero.mpr (Int.natAbs_ne_zero.mpr this)
    · rw [toNat_sub_scale_of_nonneg hs hle, pow10_add, hm] at hlead
      exact Nat.le_of_mul_le_mul_right hlead (pow10_pos _)
  · -- `n` is the mantissa shifted left by the size of the scale
    have hn : n.natAbs = x.mantissa.natAbs * pow10 (-x.scale).toNat := by
      rw [hv, Int.natAbs_mul, Int.natAbs_natCast]
    rw [toNat_sub_scale_of_neg (d := x.digits) (digitCount_pos _) (by omega), pow10_add, hn]
    exact Nat.mul_le_mul_right _ hlead

theorem pow10_nineteen : pow10 19 = 10000000000000000000 := rfl

theorem not_mem_of_exponent_gt {x : Decimal} {n : Int} (hv : x.IsIntValue n)
    (h0 : x.mantissa ≠ 0) (hd : x.digits < 2 ^ 32) (hexp : 18 < (x.digits : Int) - 1 - x.scale) :
    ¬(int64Min ≤ n ∧ n ≤ int64Max) := by
  have hle := pow10_le_natAbs_of_isIntValue hv h0 hd
  have h19 : pow10 19 ≤ pow10 ((x.digits : Int) - 1 - x.scale).toNat := pow10_le_pow10 (by omega)
  rw [pow10_nineteen] at h19
  have hbig : 10000000000000000000 ≤ n.natAbs := h19.trans hle
  unfold int64Min int64Max
  omega

theorem toInt64?_of_exponent_gt {x : Decimal} (h0 : x.mantissa ≠ 0) (hbig : 18 < x.exponent) :
    x.toInt64? = none := by
  unfold toInt64?
  rw [if_neg h0, if_pos (by simp [hbig])]

theorem toInt64?_of_integer {x : Decimal} (h0 : x.mantissa ≠ 0) (hint : x.isInteger = true)
    (hsmall : ¬18 < x.exponent) :
    x.toInt64? =
      if int64Min ≤ (if x.scale ≤ 0 then x.mantissa * (pow10Word (-x.scale) : Int)
          else x.mantissa.tdiv (pow10Word x.scale : Int)) ∧
        (if x.scale ≤ 0 then x.mantissa * (pow10Word (-x.scale) : Int)
          else x.mantissa.tdiv (pow10Word x.scale : Int)) ≤ int64Max
      then some (if x.scale ≤ 0 then x.mantissa * (pow10Word (-x.scale) : Int)
          else x.mantissa.tdiv (pow10Word x.scale : Int))
      else none := by
  unfold toInt64?
  rw [if_neg h0, if_neg (by simp [hint, hsmall])]

theorem isIntValue_of_scale_nonpos {x : Decimal} (hs : x.scale ≤ 0) {n : Int} :
    x.IsIntValue n ↔ n = x.mantissa * (pow10 (-x.scale).toNat : Int) := by
  unfold IsIntValue
  split_ifs with h
  · have hzero : x.scale = 0 := by omega
    rw [hzero]
    show x.mantissa = n * ((1 : Nat) : Int) ↔ n = x.mantissa * ((1 : Nat) : Int)
    rw [Int.natCast_one, Int.mul_one, Int.mul_one, eq_comm]
  · rfl

theorem isIntValue_of_scale_pos {x : Decimal} (hs : 0 < x.scale) {n : Int} :
    x.IsIntValue n ↔ x.mantissa = n * (pow10 x.scale.toNat : Int) := by
  unfold IsIntValue
  rw [if_pos hs.le]

theorem isInteger_of_scale_pos {x : Decimal} (hs : 0 < x.scale) (hlt : x.scale < x.digits)
    (hd : x.digits < 2 ^ 32) :
    x.isInteger = decide ((pow10 x.scale.toNat : Int) ∣ x.mantissa) := by
  have h0 : x.mantissa ≠ 0 := by
    intro h0
    have hone : digitCount x.mantissa.natAbs ≤ 1 := by
      rw [h0]
      exact digitCount_le (by decide) (by decide) (pow10_pos 1)
    simp only [digits] at hlt
    omega
  unfold isInteger
  rw [if_neg (by omega), if_neg (by omega), pow10Word_of_lt hs.le (by omega), Bool.eq_iff_iff,
    beq_iff_eq, decide_eq_true_iff, Int.natCast_dvd, Nat.dvd_iff_mod_eq_zero]

theorem range_test_eq_some_iff (k n : Int) :
    (if int64Min ≤ k ∧ k ≤ int64Max then some k else none) = some n ↔
      n = k ∧ int64Min ≤ n ∧ n ≤ int64Max := by
  by_cases hmem : int64Min ≤ k ∧ k ≤ int64Max
  · rw [if_pos hmem, Option.some.injEq]
    constructor
    · rintro rfl
      exact ⟨rfl, hmem⟩
    · rintro ⟨rfl, -⟩
      rfl
  · rw [if_neg hmem]
    refine iff_of_false (Option.some_ne_none n).symm ?_
    rintro ⟨rfl, hrange⟩
    exact hmem hrange

/-! Each case of the reading returns exactly the integer value in range. -/

theorem toInt64?_eq_some_iff_of_zero {x : Decimal} (h0 : x.mantissa = 0) (n : Int) :
    x.toInt64? = some n ↔ x.IsIntValue n ∧ int64Min ≤ n ∧ n ≤ int64Max := by
  have hread : x.toInt64? = some 0 := by
    unfold toInt64?
    rw [if_pos h0]
  rw [hread, isIntValue_of_mantissa_zero h0, Option.some.injEq]
  constructor
  · rintro rfl
    exact ⟨rfl, by decide, by decide⟩
  · rintro ⟨rfl, -⟩
    rfl

theorem toInt64?_eq_some_iff_of_scale_nonpos {x : Decimal} (h0 : x.mantissa ≠ 0)
    (hs : x.scale ≤ 0) (hsmall : ¬18 < x.exponent) (hcount : -x.scale < 2 ^ 32) (n : Int) :
    x.toInt64? = some n ↔ x.IsIntValue n ∧ int64Min ≤ n ∧ n ≤ int64Max := by
  have hint : x.isInteger = true := by simp [isInteger, hs]
  rw [toInt64?_of_integer h0 hint hsmall, if_pos hs, pow10Word_of_lt (by omega) hcount,
    isIntValue_of_scale_nonpos hs]
  exact range_test_eq_some_iff _ n

theorem toInt64?_eq_some_iff_of_dvd {x : Decimal} (h0 : x.mantissa ≠ 0) (hs : 0 < x.scale)
    (hlt : x.scale < x.digits) (hd : x.digits < 2 ^ 32) (hsmall : ¬18 < x.exponent) {k : Int}
    (hk : x.mantissa = (pow10 x.scale.toNat : Int) * k) (n : Int) :
    x.toInt64? = some n ↔ x.IsIntValue n ∧ int64Min ≤ n ∧ n ≤ int64Max := by
  have hint : x.isInteger = true := by
    rw [isInteger_of_scale_pos hs hlt hd]
    exact decide_eq_true ⟨k, hk⟩
  have hP : (pow10 x.scale.toNat : Int) ≠ 0 := by exact_mod_cast (pow10_pos _).ne'
  have hq : x.mantissa.tdiv (pow10 x.scale.toNat : Int) = k := by
    rw [hk]
    exact Int.mul_tdiv_cancel_left k hP
  have hvalue : x.IsIntValue n ↔ n = k := by
    rw [isIntValue_of_scale_pos hs, hk, Int.mul_comm n]
    constructor
    · intro h
      exact (Int.eq_of_mul_eq_mul_left hP h).symm
    · rintro rfl
      rfl
  rw [toInt64?_of_integer h0 hint hsmall, if_neg (show ¬x.scale ≤ 0 by omega),
    pow10Word_of_lt hs.le (by omega), hq, hvalue]
  exact range_test_eq_some_iff k n

theorem toInt64?_eq_some_iff_of_not_dvd {x : Decimal} (hs : 0 < x.scale)
    (hlt : x.scale < x.digits) (hd : x.digits < 2 ^ 32)
    (hdvd : ¬(pow10 x.scale.toNat : Int) ∣ x.mantissa) (n : Int) :
    x.toInt64? = some n ↔ x.IsIntValue n ∧ int64Min ≤ n ∧ n ≤ int64Max := by
  have hnot : x.isInteger = false := by
    rw [isInteger_of_scale_pos hs hlt hd]
    exact decide_eq_false hdvd
  rw [toInt64?_of_not_integer hnot, isIntValue_of_scale_pos hs]
  exact iff_of_false (Option.some_ne_none n).symm
    fun hvalue => hdvd ⟨n, by rw [hvalue.1, Int.mul_comm]⟩

theorem toInt64?_eq_some_iff_of_places {x : Decimal} (h0 : x.mantissa ≠ 0) (hs : 0 < x.scale)
    (hle : (x.digits : Int) ≤ x.scale) (hd : x.digits < 2 ^ 32) (n : Int) :
    x.toInt64? = some n ↔ x.IsIntValue n ∧ int64Min ≤ n ∧ n ≤ int64Max := by
  have hnot : x.isInteger = false := by
    unfold isInteger
    rw [if_neg (by omega), if_pos hle]
  rw [toInt64?_of_not_integer hnot, isIntValue_of_scale_pos hs]
  refine iff_of_false (Option.some_ne_none n).symm fun hvalue => ?_
  have hn : n ≠ 0 := by
    rintro rfl
    rw [Int.zero_mul] at hvalue
    exact h0 hvalue.1
  have hm : x.mantissa.natAbs = n.natAbs * pow10 x.scale.toNat := by
    rw [hvalue.1, Int.natAbs_mul, Int.natAbs_natCast]
  have hbelow : x.mantissa.natAbs < pow10 x.digits := lt_pow10_digitCount hd
  have hplaces : pow10 x.digits ≤ pow10 x.scale.toNat := pow10_le_pow10 (by omega)
  have habove : pow10 x.scale.toNat ≤ x.mantissa.natAbs := by
    rw [hm]
    exact Nat.le_mul_of_pos_left _ (Int.natAbs_pos.mpr hn)
  omega

theorem toInt64?_eq_some_iff {x : Decimal} (hw : x.WordScale) (he : x.TrueExponent)
    (hd : x.digits < 2 ^ 32) (n : Int) :
    x.toInt64? = some n ↔ x.IsIntValue n ∧ int64Min ≤ n ∧ n ≤ int64Max := by
  by_cases h0 : x.mantissa = 0
  · exact toInt64?_eq_some_iff_of_zero h0 n
  have hexp := exponent_of_trueExponent hw he
  by_cases hbig : 18 < x.exponent
  · -- nineteen digits or more before the point: too large either way
    rw [toInt64?_of_exponent_gt h0 hbig]
    exact iff_of_false (Option.some_ne_none n).symm
      fun hvalue => not_mem_of_exponent_gt hvalue.1 h0 hd (hexp ▸ hbig) hvalue.2
  by_cases hs : x.scale ≤ 0
  · -- no places: the count is the size of the scale, at most 18
    have := digitCount_pos x.mantissa.natAbs
    simp only [digits] at hexp
    exact toInt64?_eq_some_iff_of_scale_nonpos h0 hs hbig (by omega) n
  by_cases hlt : x.scale < x.digits
  · by_cases hdvd : (pow10 x.scale.toNat : Int) ∣ x.mantissa
    · obtain ⟨k, hk⟩ := hdvd
      exact toInt64?_eq_some_iff_of_dvd h0 (by omega) hlt hd hbig hk n
    · exact toInt64?_eq_some_iff_of_not_dvd (by omega) hlt hd hdvd n
  · exact toInt64?_eq_some_iff_of_places h0 (by omega) (by omega) hd n

theorem toInt64?_least_scale {m : Int} (h0 : m ≠ 0) (hm : m.natAbs < 10) :
    (⟨m, int64Min⟩ : Decimal).toInt64? = some m ∧
      ∀ n, ¬((⟨m, int64Min⟩ : Decimal).IsIntValue n ∧ int64Min ≤ n ∧ n ≤ int64Max) := by
  have hdigits : (⟨m, int64Min⟩ : Decimal).digits = 1 :=
    le_antisymm (digitCount_le (by decide) (by decide) hm) (digitCount_pos _)
  have hexp : (⟨m, int64Min⟩ : Decimal).exponent = int64Min := by
    unfold exponent
    rw [hdigits]
    show wrap64 ((1 : Nat) - 1 - int64Min) = int64Min
    decide
  have hint : (⟨m, int64Min⟩ : Decimal).isInteger = true := by
    unfold isInteger
    rw [if_pos (.inl (show int64Min ≤ (0 : Int) by decide))]
  have hsmall : ¬18 < (⟨m, int64Min⟩ : Decimal).exponent := by
    rw [hexp]
    decide
  refine ⟨?_, fun n hvalue => not_mem_of_exponent_gt hvalue.1 h0 (by rw [hdigits]; decide) ?_ hvalue.2⟩
  · rw [toInt64?_of_integer h0 hint hsmall]
    dsimp only
    have hcount : pow10Word (-int64Min) = 1 := by decide
    have hrange : int64Min ≤ m ∧ m ≤ int64Max := by
      unfold int64Min int64Max
      omega
    rw [if_pos (show int64Min ≤ (0 : Int) by decide), hcount, Nat.cast_one, Int.mul_one,
      if_pos hrange]
  · rw [hdigits]
    show (18 : Int) < (1 : Nat) - 1 - int64Min
    decide

theorem scale_lt_digits_of_isInteger {x : Decimal} (h0 : x.mantissa ≠ 0) (hs : 0 < x.scale)
    (hint : x.isInteger = true) : x.scale < x.digits := by
  by_contra hle
  unfold isInteger at hint
  rw [if_neg (by omega), if_pos (by omega)] at hint
  cases hint

theorem toInt64?_power_exact {x : Decimal} (hw : x.WordScale) (he : x.TrueExponent)
    (hd : x.digits < 2 ^ 32) (h0 : x.mantissa ≠ 0) (hint : x.isInteger = true)
    (hsmall : ¬18 < x.exponent) :
    (if x.scale ≤ 0 then pow10Word (-x.scale) else pow10Word x.scale) = pow10 x.scale.natAbs := by
  have hexp := exponent_of_trueExponent hw he
  split_ifs with hs
  · have := digitCount_pos x.mantissa.natAbs
    simp only [digits] at hexp
    rw [pow10Word_of_lt (by omega) (by omega)]
    congr 1
    omega
  · have hlt := scale_lt_digits_of_isInteger h0 (by omega) hint
    rw [pow10Word_of_lt (by omega) (by omega)]
    congr 1
    omega

theorem toInt64?_power_count_below_word (x : Decimal) (hw : x.WordScale) (he : x.TrueExponent)
    (hd : x.digits < 2 ^ 32) :
    (0 < x.scale → x.scale < x.digits → pow10Word x.scale = pow10 x.scale.toNat) ∧
    (x.mantissa ≠ 0 → x.isInteger = true → ¬18 < x.exponent →
      (if x.scale ≤ 0 then pow10Word (-x.scale) else pow10Word x.scale) = pow10 x.scale.natAbs) ∧
    ∀ n, x.toInt64? = some n ↔ x.IsIntValue n ∧ int64Min ≤ n ∧ n ≤ int64Max := by
  refine ⟨fun hs hlt => ?_, toInt64?_power_exact hw he hd, toInt64?_eq_some_iff hw he hd⟩
  exact pow10Word_of_lt hs.le (by omega)

-- `5` at the scale `int64Min`, which no true exponent has, is read as the integer `5`
example : ¬(⟨5, int64Min⟩ : Decimal).TrueExponent ∧ (⟨5, int64Min⟩ : Decimal).toInt64? = some 5 := by
  with_unfolding_all decide

end Calculator.Decimal
