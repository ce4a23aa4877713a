import Calculator.Proofs.WorkingArithmetic
/-!
Working values compare as their values do: the order `compare` reads off signs, exponents and
magnitudes at a common scale is the order of the rationals they stand for. With it, the tests
the elementary functions make (`half < r`, `x.sameValue one`, the sign of `x`) are tests on
values, and the constants and shifts they use are working values of known value.
-/

namespace Calculator.Decimal

theorem compare_congr {α β : Type} [LinearOrder α] [LinearOrder β] {a b : α} {c d : β}
    (hlt : a < b ↔ c < d) (hgt : b < a ↔ d < c) : Ord.compare a b = Ord.compare c d := by
  rcases lt_trichotomy a b with h | rfl | h
  · rw [compare_lt_iff_lt.mpr h, compare_lt_iff_lt.mpr (hlt.mp h)]
  · have hcd : c = d := le_antisymm (not_lt.mp fun h => lt_irrefl a (hgt.mpr h))
      (not_lt.mp fun h => lt_irrefl a (hlt.mpr h))
    rw [compare_eq_iff_eq.mpr rfl, compare_eq_iff_eq.mpr hcd]
  · rw [compare_gt_iff_gt.mpr h, compare_gt_iff_gt.mpr (hgt.mp h)]

theorem value_pos_iff {x : Decimal} : 0 < x.value ↔ 0 < x.mantissa := by
  rw [value, mul_pos_iff_of_pos_right (by positivity), Int.cast_pos]

theorem value_neg_iff {x : Decimal} : x.value < 0 ↔ x.mantissa < 0 := by
  rw [← neg_pos, ← value_neg, value_pos_iff, neg_mantissa, Int.neg_pos]

theorem exponent_of_tame {x : Decimal} (hx : x.Tame) (hm : x.mantissa ≠ 0) :
    x.exponent = (x.digits : ℤ) - 1 - x.scale :=
  exponent_eq_of_bounds (by have := hx.scale_lt hm; omega) (by have := hx.digits_lt; omega)

theorem log_abs_value_of_tame {x : Decimal} (hx : x.Tame) (hm : x.mantissa ≠ 0) :
    Int.log 10 |x.value| = x.exponent := by
  rw [log_abs_value hm (by have := hx.digits_lt; omega), exponent_of_tame hx hm]

theorem magnitudeAt_cast {x : Decimal} {s : ℤ} (h0 : x.scale ≤ s) (h : s - x.scale < 2 ^ 32) :
    (x.magnitudeAt s : ℚ) = |x.value| * 10 ^ s := by
  rw [magnitudeAt, pow10Word_of_lt (by omega) h, Nat.cast_mul, pow10_cast, abs_value, mul_assoc,
    ← zpow_natCast, ← zpow_add₀ (by norm_num), Int.toNat_of_nonneg (by omega)]
  congr 2
  ring

theorem compare_abs_of_exponents {x y : Decimal}
    (hex : x.exponent = (x.digits : ℤ) - 1 - x.scale) (hey : y.exponent = (y.digits : ℤ) - 1 - y.scale)
    (hxd : x.digits < 2 ^ 32) (hyd : y.digits < 2 ^ 32) (hx0 : x.mantissa ≠ 0)
    (hy0 : y.mantissa ≠ 0) :
    (if x.exponent = y.exponent then
        Ord.compare (x.magnitudeAt (max x.scale y.scale)) (y.magnitudeAt (max x.scale y.scale))
      else Ord.compare x.exponent y.exponent) = Ord.compare |x.value| |y.value| := by
  have hlx : Int.log 10 |x.value| = x.exponent := by rw [log_abs_value hx0 hxd, hex]
  have hly : Int.log 10 |y.value| = y.exponent := by rw [log_abs_value hy0 hyd, hey]
  have hpx : 0 < |x.value| := abs_pos.mpr (value_eq_zero_iff.not.mpr hx0)
  have hpy : 0 < |y.value| := abs_pos.mpr (value_eq_zero_iff.not.mpr hy0)
  split_ifs with he
  · -- equal exponents: the scales differ as the digit counts do, by less than `2 ^ 32`
    rw [hex, hey] at he
    have hdx := digitCount_pos x.mantissa.natAbs
    have hdy := digitCount_pos y.mantissa.natAbs
    have hmx := magnitudeAt_cast (x := x) (s := max x.scale y.scale) (le_max_left _ _)
      (by simp only [digits] at *; omega)
    have hmy := magnitudeAt_cast (x := y) (s := max x.scale y.scale) (le_max_right _ _)
      (by simp only [digits] at *; omega)
    have hpow : (0 : ℚ) < 10 ^ max x.scale y.scale := by positivity
    refine compare_congr ?_ ?_
    · rw [← Nat.cast_lt (α := ℚ), hmx, hmy, mul_lt_mul_iff_of_pos_right hpow]
    · rw [← Nat.cast_lt (α := ℚ), hmx, hmy, mul_lt_mul_iff_of_pos_right hpow]
  · -- different exponents: the one with the larger exponent is the larger in size
    refine compare_congr ⟨fun h => ?_, fun h => ?_⟩ ⟨fun h => ?_, fun h => ?_⟩
    · by_contra hle
      have : Int.log 10 |y.value| ≤ Int.log 10 |x.value| := Int.log_mono_right hpy (not_lt.mp hle)
      omega
    · have : Int.log 10 |x.value| ≤ Int.log 10 |y.value| := Int.log_mono_right hpx h.le
      omega
    · by_contra hle
      have : Int.log 10 |x.value| ≤ Int.log 10 |y.value| := Int.log_mono_right hpx (not_lt.mp hle)
      omega
    · have : Int.log 10 |y.value| ≤ Int.log 10 |x.value| := Int.log_mono_right hpy h.le
      omega

/-- `compare` orders by value once it orders nonzero decimals by size: signs first, and between
two negative decimals the larger in size is the smaller. -/
theorem compare_eq_of_abs {x y : Decimal}
    (hmag : x.mantissa ≠ 0 → y.mantissa ≠ 0 →
      (if x.exponent = y.exponent then
          Ord.compare (x.magnitudeAt (max x.scale y.scale)) (y.magnitudeAt (max x.scale y.scale))
        else Ord.compare x.exponent y.exponent) = Ord.compare |x.value| |y.value|) :
    x.compare y = Ord.compare x.value y.value := by
  unfold compare
  rcases lt_trichotomy x.mantissa 0 with hxn | hx0 | hxp <;>
    rcases lt_trichotomy y.mantissa 0 with hyn | hy0 | hyp
  case inl.inl =>
    -- both below zero: the larger in size is the smaller
    have hvx := value_neg_iff.mpr hxn
    have hvy := value_neg_iff.mpr hyn
    rw [show x.sign = -1 from Int.sign_eq_neg_one_of_neg hxn,
      show y.sign = -1 from Int.sign_eq_neg_one_of_neg hyn, if_neg (by decide), if_neg (by decide),
      if_pos (by decide), hmag hxn.ne hyn.ne, Std.OrientedOrd.eq_swap (a := x.value)]
    congr 1
    refine compare_congr ?_ ?_ <;> rw [abs_of_neg hvx, abs_of_neg hvy, neg_lt_neg_iff]
  case inr.inr.inr.inr =>
    have hvx := value_pos_iff.mpr hxp
    have hvy := value_pos_iff.mpr hyp
    rw [show x.sign = 1 from Int.sign_eq_one_of_pos hxp,
      show y.sign = 1 from Int.sign_eq_one_of_pos hyp, if_neg (by decide), if_neg (by decide),
      if_neg (by decide), hmag hxp.ne' hyp.ne', abs_of_pos hvx, abs_of_pos hvy]
  case inr.inl.inr.inl =>
    rw [show x.sign = 0 by rw [Decimal.sign, hx0]; rfl, show y.sign = 0 by rw [Decimal.sign, hy0]; rfl,
      if_neg (by decide), if_pos rfl, value_eq_zero_iff.mpr hx0, value_eq_zero_iff.mpr hy0]
    exact (compare_eq_iff_eq.mpr rfl).symm
  -- different signs: the order is the order of the signs
  case inl.inr.inl =>
    rw [show x.sign = -1 from Int.sign_eq_neg_one_of_neg hxn,
      show y.sign = 0 by rw [Decimal.sign, hy0]; rfl, if_pos (by decide),
      compare_lt_iff_lt.mpr (by decide), eq_comm, compare_lt_iff_lt]
    rw [value_eq_zero_iff.mpr hy0]
    exact value_neg_iff.mpr hxn
  case inl.inr.inr =>
    rw [show x.sign = -1 from Int.sign_eq_neg_one_of_neg hxn,
      show y.sign = 1 from Int.sign_eq_one_of_pos hyp, if_pos (by decide),
      compare_lt_iff_lt.mpr (by decide), eq_comm, compare_lt_iff_lt]
    exact (value_neg_iff.mpr hxn).trans (value_pos_iff.mpr hyp)
  case inr.inl.inl =>
    rw [show x.sign = 0 by rw [Decimal.sign, hx0]; rfl,
      show y.sign = -1 from Int.sign_eq_neg_one_of_neg hyn, if_pos (by decide),
      compare_gt_iff_gt.mpr (by decide), eq_comm, compare_gt_iff_gt]
    rw [value_eq_zero_iff.mpr hx0]
    exact value_neg_iff.mpr hyn
  case inr.inl.inr.inr =>
    rw [show x.sign = 0 by rw [Decimal.sign, hx0]; rfl,
      show y.sign = 1 from Int.sign_eq_one_of_pos hyp, if_pos (by decide),
      compare_lt_iff_lt.mpr (by decide), eq_comm, compare_lt_iff_lt]
    rw [value_eq_zero_iff.mpr hx0]
    exact value_pos_iff.mpr hyp
  case inr.inr.inl =>
    rw [show x.sign = 1 from Int.sign_eq_one_of_pos hxp,
      show y.sign = -1 from Int.sign_eq_neg_one_of_neg hyn, if_pos (by decide),
      compare_gt_iff_gt.mpr (by decide), eq_comm, compare_gt_iff_gt]
    exact (value_neg_iff.mpr hyn).trans (value_pos_iff.mpr hxp)
  case inr.inr.inr.inl =>
    rw [show x.sign = 1 from Int.sign_eq_one_of_pos hxp,
      show y.sign = 0 by rw [Decimal.sign, hy0]; rfl, if_pos (by decide),
      compare_gt_iff_gt.mpr (by decide), eq_comm, compare_gt_iff_gt]
    rw [value_eq_zero_iff.mpr hy0]
    exact value_pos_iff.mpr hxp

theorem compare_eq_of_tame {x y : Decimal} (hx : x.Tame) (hy : y.Tame) :
    x.compare y = Ord.compare x.value y.value :=
  compare_eq_of_abs fun hx0 hy0 => compare_abs_of_exponents (exponent_of_tame hx hx0)
    (exponent_of_tame hy hy0) (by have := hx.digits_lt; omega) (by have := hy.digits_lt; omega)
    hx0 hy0

theorem lt_iff_of_tame {x y : Decimal} (hx : x.Tame) (hy : y.Tame) : x < y ↔ x.value < y.value := by
  show x.compare y = .lt ↔ _
  rw [compare_eq_of_tame hx hy, compare_lt_iff_lt]

theorem sameValue_iff_of_tame {x y : Decimal} (hx : x.Tame) (hy : y.Tame) :
    x.sameValue y = true ↔ x.value = y.value := by
  rw [sameValue, beq_iff_eq, compare_eq_of_tame hx hy, compare_eq_iff_eq]

/-- Decimals whose exponents are the true places of their leading digits, with fewer than
`2 ^ 32` digits each, compare as the rationals they stand for, whatever their scales: `compare`
is the order of their values, and `<`, `≤` and `sameValue` are the order and the equality of
values. -/
theorem compare_eq_value_order (x y : Decimal) (hxw : x.WordScale) (hxe : x.TrueExponent)
    (hxd : x.digits < 2 ^ 32) (hyw : y.WordScale) (hye : y.TrueExponent)
    (hyd : y.digits < 2 ^ 32) :
    x.compare y = Ord.compare x.value y.value ∧ (x < y ↔ x.value < y.value) ∧
      (x ≤ y ↔ x.value ≤ y.value) ∧ (x.sameValue y = true ↔ x.value = y.value) := by
  have hcmp : x.compare y = Ord.compare x.value y.value :=
    compare_eq_of_abs fun hx0 hy0 => compare_abs_of_exponents (exponent_of_trueExponent hxw hxe)
      (exponent_of_trueExponent hyw hye) hxd hyd hx0 hy0
  refine ⟨hcmp, ?_, ?_, ?_⟩
  · show x.compare y = .lt ↔ _
    rw [hcmp, compare_lt_iff_lt]
  · show x.compare y ≠ .gt ↔ _
    rw [hcmp, Ne, compare_gt_iff_gt, not_lt]
  · rw [sameValue, beq_iff_eq, hcmp, compare_eq_iff_eq]

/-- `2.0` and `2` are one value, `1E3` lies above `999` and `-1E3` below `-999`; a decimal whose
scale is the least word has no true exponent, and `1E+9223372036854775808` is taken below `1`. -/
theorem compare_eq_value_order_samples :
    (⟨20, 1⟩ : Decimal).sameValue 2 = true ∧ (⟨999, 0⟩ : Decimal) < ⟨1, -3⟩ ∧
      (⟨-1, -3⟩ : Decimal) < ⟨-999, 0⟩ ∧
      ((⟨1, int64Min⟩ : Decimal) < 1 ∧ (1 : ℚ) < (⟨1, int64Min⟩ : Decimal).value) := by
  refine ⟨(compare_eq_value_order ⟨20, 1⟩ 2 (by decide) (by with_unfolding_all decide) (by with_unfolding_all decide)
      (by decide) (by with_unfolding_all decide) (by with_unfolding_all decide)).2.2.2.mpr
      (by rw [show (2 : Decimal) = ⟨2, 0⟩ from rfl]; norm_num [value]),
    (compare_eq_value_order ⟨999, 0⟩ ⟨1, -3⟩ (by decide) (by with_unfolding_all decide) (by with_unfolding_all decide)
      (by decide) (by with_unfolding_all decide) (by with_unfolding_all decide)).2.1.mpr (by norm_num [value]),
    (compare_eq_value_order ⟨-1, -3⟩ ⟨-999, 0⟩ (by decide) (by with_unfolding_all decide)
      (by with_unfolding_all decide) (by decide) (by with_unfolding_all decide) (by with_unfolding_all decide)).2.1.mpr
      (by norm_num [value]), by with_unfolding_all decide, ?_⟩
  rw [value, int64Min]
  norm_num
  exact one_lt_pow₀ (by norm_num) (by norm_num)

theorem sign_nonpos_iff {x : Decimal} : x.sign ≤ 0 ↔ x.value ≤ 0 := by
  rw [← not_lt, ← not_lt, value_pos_iff, Decimal.sign, Int.sign_pos_iff]

theorem isNeg_iff {x : Decimal} : x.isNeg = true ↔ x.value < 0 := by
  rw [isNeg, decide_eq_true_iff, value_neg_iff]

/-! Values of the constants, absolute values and shifts -/

theorem tame_of_small {x : Decimal} (hm : x.mantissa.natAbs < pow10 30)
    (hs : x.scale.natAbs < 2 ^ 42) : x.Tame :=
  ⟨lt_of_le_of_lt (digitCount_le (by decide) (by decide) hm) (by decide), fun _ => hs⟩

theorem tame_ofInt {n : ℤ} (h : n.natAbs < pow10 30) : (ofInt n).Tame :=
  tame_of_small h (by simp [ofInt])

theorem tame_ofInt_of_lt {n : ℤ} {d : ℕ} (hd : 0 < d) (hd' : d < 2 ^ 30)
    (h : n.natAbs < pow10 d) : (ofInt n).Tame :=
  ⟨lt_of_le_of_lt (digitCount_le hd (by omega) h) hd', fun _ => by simp [ofInt]⟩

@[simp] theorem value_ofInt (n : ℤ) : (ofInt n).value = n := by
  simp [value, ofInt]

theorem value_one : one.value = 1 := by
  simp [value, one]

theorem value_two : (2 : Decimal).value = 2 := by
  show (ofInt 2).value = 2
  rw [value_ofInt]
  rfl

theorem value_half : Elementary.half.value = 1 / 2 := by
  simp only [value, Elementary.half]
  norm_num

theorem value_threeHalves : Elementary.threeHalves.value = 3 / 2 := by
  simp only [value, Elementary.threeHalves]
  norm_num

theorem value_abs (x : Decimal) : x.abs.value = |x.value| := by
  rw [abs_value, value, abs_mantissa, abs_scale, Int.cast_natCast]

theorem Tame.abs {x : Decimal} (hx : x.Tame) : x.abs.Tame :=
  ⟨by rw [digits_abs]; exact hx.digits_lt,
    fun h => by rw [abs_scale]; exact hx.scale_lt (by simpa using h)⟩

theorem value_shift {x : Decimal} {n : ℤ} (h : (x.scale - n).natAbs < 2 ^ 62) :
    (x.shift n).value = x.value * 10 ^ n := by
  show (x.mantissa : ℚ) * 10 ^ (-wrap64 (x.scale - n)) = x.mantissa * 10 ^ (-x.scale) * 10 ^ n
  rw [wrap64_of_natAbs_lt h, mul_assoc, ← zpow_add₀ (by norm_num)]
  congr 2
  ring

theorem shift_neg_exponent {x : Decimal} (hx : x.Tame) (hm : x.mantissa ≠ 0) :
    (x.shift (-x.exponent)).value = x.value / 10 ^ x.exponent ∧
      (x.shift (-x.exponent)).Tame ∧ (x.shift (-x.exponent)).exponent = 0 := by
  have he := exponent_of_tame hx hm
  have hd := hx.digits_lt
  have hs : (x.shift (-x.exponent)).scale = x.digits - 1 := by
    rw [shift_scale, he, wrap64_of_natAbs_lt (by omega)]
    ring
  have htame : (x.shift (-x.exponent)).Tame := ⟨hx.digits_lt, fun _ => by rw [hs]; omega⟩
  refine ⟨?_, htame, ?_⟩
  · rw [value_shift (by rw [he]; omega), zpow_neg, div_eq_mul_inv]
  · rw [exponent_of_tame htame hm, hs]
    show ((x.shift (-x.exponent)).digits : ℤ) - 1 - (x.digits - 1) = 0
    rw [show (x.shift (-x.exponent)).digits = x.digits from rfl]
    ring

end Calculator.Decimal
