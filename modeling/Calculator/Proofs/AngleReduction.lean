import Calculator.Proofs.InverseTrigAccuracy
/-!
Reduction of an angle by whole turns. The angle `x` loses `q` turns of the working `2π`, `q` the
integer nearest to `x / 2π`. The working `2π` is within nine roundings of `2π`, so the reduced
angle is within `3 |x| + 12` roundings of `x - 2πq`, an angle of the same sine and cosine, and
lies within `16/5` of zero.
-/

open Except

namespace Calculator.Elementary

open Decimal

/-- The nearest integer to a working value whose scale is above `-2 ^ 32` is the nearest
integer to its value, a half going away from zero. -/
theorem nearest_eq_roundAway {x : Decimal} (hx : x.Tame) (hs : x.mantissa ≠ 0 → -x.scale < 2 ^ 32) :
    x.nearest = roundAway x.value := by
  unfold nearest
  split_ifs with hsmall hscale
  · rcases hsmall with hm | hexp
    · rw [value_eq_zero_iff.mpr hm, roundAway_zero]
    -- below a tenth in size, the value is nearer to zero than to any other integer
    by_cases hm : x.mantissa = 0
    · rw [value_eq_zero_iff.mpr hm, roundAway_zero]
    have hlt := lt_zpow_exponent hx hm
    have htenth : (10 : ℚ) ^ (x.exponent + 1) ≤ 1 / 10 := by
      calc (10 : ℚ) ^ (x.exponent + 1) ≤ 10 ^ (-1 : ℤ) := zpow_le_zpow_right₀ (by norm_num) (by omega)
        _ = 1 / 10 := by norm_num
    have hnear := roundAway_nearest x.value 0
    have hround := abs_roundAway_sub_le x.value
    rw [Int.cast_zero, zero_sub, abs_neg] at hnear
    by_contra hne
    have hone : (1 : ℚ) ≤ |(roundAway x.value : ℚ)| := by
      exact_mod_cast Int.one_le_abs (Ne.symm hne)
    have := abs_sub_abs_le_abs_sub (roundAway x.value : ℚ) x.value
    linarith
  · -- a whole number: the mantissa shifted left by `-scale` places
    have hpow := pow10Word_of_lt (by omega) (hs fun h => hsmall (Or.inl h))
    have hval : x.value = ((x.mantissa * (pow10 (-x.scale).toNat : ℕ) : ℤ) : ℚ) := by
      rw [value, Int.cast_mul, Int.cast_natCast, pow10_cast, ← zpow_natCast,
        Int.toNat_of_nonneg (by omega)]
    rw [hpow, hval, roundAway_intCast]
  · -- a rounded quotient of the mantissa by `10 ^ scale`
    have hm : x.mantissa ≠ 0 := fun h => hsmall (Or.inl h)
    have hexp := exponent_of_tame hx hm
    have hdigits := hx.digits_lt
    have hpow := pow10Word_of_lt (n := x.scale) (by omega) (by omega)
    have hval : x.value = x.mantissa / 10 ^ x.scale.toNat := by
      rw [value, zpow_neg, ← zpow_natCast, Int.toNat_of_nonneg (by omega), div_eq_mul_inv]
    rw [hpow, hval, roundAway_div_pow10 _ (by omega)]

/-! The reduction in exact arithmetic -/

/-- One reduction with roundings of relative size `ε`: `T` within `9ε` of `2π`, `D` the rounded
`x / T`, `q` an integer within a half of `D`, `M` the rounded `qT` and `R` the rounded
`x - M`. Then `R` is within `ε (3 |x| + 12)` of `x - 2πq` and within `16/5` of zero. -/
theorem reduction_bounds {x T D M R ε : ℝ} {q : ℤ} (hε : 0 ≤ ε) (hε1 : ε ≤ 1 / 10 ^ 10)
    (hxε : ε * |x| ≤ 1 / 10 ^ 10) (hT : |T - 2 * Real.pi| ≤ 9 * ε)
    (hD : |D - x / T| ≤ ε * |x / T|) (hq : |(q : ℝ) - D| ≤ 1 / 2)
    (hM : |M - q * T| ≤ ε * |q * T|) (hR : |R - (x - M)| ≤ ε * |x - M|) :
    |R| ≤ 16 / 5 ∧ |R - (x - q * (2 * Real.pi))| ≤ ε * (3 * |x| + 12) := by
  have hπ := Real.pi_gt_d2
  have hπ' := Real.pi_lt_d4
  obtain ⟨hTlo, hThi⟩ := abs_le.mp hT
  have hT0 : 6 < T := by linarith
  have hT1 : T < 629 / 100 := by linarith
  set t := x / T with ht
  have htx : T * |t| = |x| := by
    rw [ht, abs_div, abs_of_pos (by linarith : 0 < T)]
    field_simp
  -- `q` is within a half and `ε |t|` of `t`
  have hqt : |(q : ℝ) - t| ≤ 1 / 2 + ε * |t| := by
    calc |(q : ℝ) - t| ≤ |(q : ℝ) - D| + |D - t| := abs_sub_le _ _ _
      _ ≤ 1 / 2 + ε * |t| := by linarith
  have hxq : |x - q * T| ≤ T / 2 + ε * |x| := by
    have hsplit : x - q * T = T * (t - q) := by rw [ht]; field_simp
    rw [hsplit, abs_mul, abs_of_pos (by linarith : 0 < T), abs_sub_comm, ← htx]
    nlinarith
  have hqT : |(q : ℝ) * T| ≤ |x| + T / 2 + ε * |x| := by
    have := abs_sub_abs_le_abs_sub ((q : ℝ) * T) x
    rw [abs_sub_comm] at this
    linarith
  have hq_abs : |(q : ℝ)| * T ≤ |x| + T / 2 + ε * |x| := by
    rwa [abs_mul, abs_of_pos (by linarith : 0 < T)] at hqT
  have hxM : |x - M| ≤ T / 2 + ε * |x| + ε * (|x| + T / 2 + ε * |x|) := by
    calc |x - M| ≤ |x - q * T| + |M - q * T| := by
          rw [abs_sub_comm M]
          exact abs_sub_le _ _ _
      _ ≤ T / 2 + ε * |x| + ε * (|x| + T / 2 + ε * |x|) := by
          have := mul_le_mul_of_nonneg_left hqT hε
          linarith
  have hεx := mul_nonneg hε (abs_nonneg x)
  have hxM' : |x - M| ≤ 16 / 5 - 1 / 1000 := by nlinarith
  constructor
  · have := abs_sub_abs_le_abs_sub R (x - M)
    nlinarith
  · -- the three errors: the last rounding, the rounding of `qT`, and `q` times that of `T`
    have hsplit : R - (x - q * (2 * Real.pi)) =
        (R - (x - M)) - (M - q * T) - q * (T - 2 * Real.pi) := by ring
    have hqerr : |(q : ℝ) * (T - 2 * Real.pi)| ≤ |(q : ℝ)| * (9 * ε) := by
      rw [abs_mul]
      exact mul_le_mul_of_nonneg_left hT (abs_nonneg _)
    have hq6 : |(q : ℝ)| * 6 ≤ |x| + T / 2 + ε * |x| := by nlinarith [abs_nonneg (q : ℝ)]
    calc |R - (x - q * (2 * Real.pi))|
        ≤ |R - (x - M)| + |M - q * T| + |(q : ℝ) * (T - 2 * Real.pi)| := by
          rw [hsplit]
          exact (abs_sub _ _).trans (add_le_add (abs_sub _ _) le_rfl)
      _ ≤ ε * (16 / 5) + ε * (|x| + T / 2 + ε * |x|) + |(q : ℝ)| * (9 * ε) := by
          have h1 := mul_le_mul_of_nonneg_left hxM' hε
          have h2 := mul_le_mul_of_nonneg_left hqT hε
          linarith
      _ ≤ ε * (3 * |x| + 12) := by nlinarith

/-! The reduction as computed -/

/-- The working `2π`, twice π at `w` digits rounded, is within nine roundings of `2π`. -/
theorem twoPi_meets {w : Precision} (hw : 11 ≤ w.digits) (hw' : w.digits ≤ 100000) :
    ((pi w).mul 2 w).Meets
      (fun T => T.Tame ∧ |(T.value : ℝ) - 2 * Real.pi| ≤ 9 * roundingError w) (fun _ => True) := by
  have hwm : w.digits ≤ 1000000 := by omega
  refine (mul_spec (tame_pi hwm) tame_two (by omega)).mono (fun T hT => ⟨hT.1, ?_⟩)
    fun _ _ => trivial
  set ε := roundingError w
  -- π at `w` digits is within a unit of its `w`-th digit, one rounding
  have hpi : |((pi w).value : ℝ) - Real.pi| ≤ ε := by
    have h := abs_roundSig_sub_lt_of_pos w.digits_pos Real.pi_pos le_rfl
      (abs_machinDecimal_sub_le hwm)
    rw [log_pi, zero_add, ← value_pi hwm] at h
    exact h.le
  have hround := abs_sub_of_rounds hT.2
  rw [value_two, Rat.cast_mul, Rat.cast_ofNat] at hround
  have hε0 : 0 ≤ ε := (roundingError_pos w).le
  have h7 : 2 * (Real.pi + ε) ≤ 7 := by
    have := roundingError_le_of_eleven hw
    norm_num at this
    linarith [Real.pi_lt_d2]
  have hsize : |((pi w).value : ℝ) * 2| ≤ 2 * (Real.pi + ε) := by
    rw [abs_mul, abs_two, mul_comm]
    have := abs_sub_abs_le_abs_sub ((pi w).value : ℝ) Real.pi
    rw [abs_of_pos Real.pi_pos] at this
    linarith
  calc |(T.value : ℝ) - 2 * Real.pi|
      ≤ |(T.value : ℝ) - (pi w).value * 2| + |((pi w).value : ℝ) * 2 - 2 * Real.pi| :=
        abs_sub_le _ _ _
    _ ≤ ε * (2 * (Real.pi + ε)) + 2 * ε := by
        have h2 : |((pi w).value : ℝ) * 2 - 2 * Real.pi| = 2 * |((pi w).value : ℝ) - Real.pi| := by
          rw [show ((pi w).value : ℝ) * 2 - 2 * Real.pi = 2 * ((pi w).value - Real.pi) by ring,
            abs_mul, abs_two]
        have := mul_le_mul_of_nonneg_left hsize hε0
        linarith
    _ ≤ ε * 7 + 2 * ε := by gcongr
    _ = 9 * ε := by ring

/-- The reduced angle: a working value within `16/5` of zero, and within `3 |x| + 12` roundings
of `x` less a whole number of turns, while `x` stays ten places below the working unit's
inverse. -/
theorem reduceAngle_spec {x : Decimal} (hx : x.Tame) {w : Precision} (hw : 11 ≤ w.digits)
    (hw' : w.digits ≤ 100000) (hxw : roundingError w * |(x.value : ℝ)| ≤ 1 / 10 ^ 10) :
    (reduceAngle x w).Meets (fun r => r.Tame ∧ |(r.value : ℝ)| ≤ 16 / 5 ∧
      ∃ q : ℤ, |(r.value : ℝ) - (x.value - q * (2 * Real.pi))| ≤
        roundingError w * (3 * |(x.value : ℝ)| + 12)) (fun _ => True) := by
  have hw20 : w.digits < 2 ^ 20 := by omega
  have hε1 : roundingError w ≤ 1 / 10 ^ 10 := by
    have := roundingError_le_of_eleven hw
    norm_num at this ⊢
    exact this
  have hε0 : 0 ≤ roundingError w := (roundingError_pos w).le
  generalize hεdef : roundingError w = ε at hε0 hε1 hxw ⊢
  unfold reduceAngle
  refine meets_bind (twoPi_meets hw hw') fun T hT => ?_
  obtain ⟨hTt, hT2π⟩ := hT
  rw [hεdef] at hT2π
  have hT6 : (6 : ℝ) < T.value := by
    have := (abs_le.mp hT2π).1
    linarith [Real.pi_gt_d2]
  have hT0 : T.mantissa ≠ 0 := fun h => by
    rw [value_eq_zero_iff.mpr h, Rat.cast_zero] at hT6
    linarith
  refine meets_bind ((div_spec hx hTt hT0 hw20).mono (fun t h => h) fun _ _ => trivial)
    fun D hD => ?_
  have hDerr : |(D.value : ℝ) - x.value / T.value| ≤ ε * |(x.value : ℝ) / T.value| := by
    have := abs_sub_of_rounds hD.2
    push_cast at this
    rwa [hεdef] at this
  -- the quotient is at most `|x|`, which lies below `10 ^ (w - 11)`
  have hxT : |(x.value : ℝ) / T.value| ≤ |(x.value : ℝ)| / 6 := by
    rw [abs_div, abs_of_pos (by linarith : (0 : ℝ) < T.value)]
    exact div_le_div_of_nonneg_left (abs_nonneg _) (by norm_num) hT6.le
  have hDx : |(D.value : ℝ)| ≤ |(x.value : ℝ)| := by
    have := abs_sub_abs_le_abs_sub (D.value : ℝ) (x.value / T.value)
    nlinarith [abs_nonneg ((x.value : ℝ) / T.value), abs_nonneg (x.value : ℝ)]
  have hxbound : |(x.value : ℝ)| ≤ 10 ^ ((w.digits : ℤ) - 11) := by
    have hεw : ε * 10 ^ ((w.digits : ℤ) - 11) = 1 / 10 ^ 10 := by
      rw [← hεdef, roundingError_def, ← zpow_add₀ (by norm_num)]
      norm_num
    have hεpos : 0 < ε := hεdef ▸ roundingError_pos w
    nlinarith
  have hscale : D.mantissa ≠ 0 → -D.scale < 2 ^ 32 := by
    intro hm
    have hle := zpow_exponent_le hD.1 hm
    have hexp : D.exponent ≤ (w.digits : ℤ) - 11 := by
      have h : (10 : ℝ) ^ D.exponent ≤ 10 ^ ((w.digits : ℤ) - 11) := by
        have := (Rat.cast_le (K := ℝ)).mpr hle
        push_cast at this
        linarith
      exact (zpow_le_zpow_iff_right₀ (by norm_num)).mp h
    have := exponent_of_tame hD.1 hm
    omega
  rw [nearest_eq_roundAway hD.1 hscale]
  have hq : |((roundAway D.value : ℤ) : ℝ) - D.value| ≤ 1 / 2 := by
    have := (Rat.cast_le (K := ℝ)).mpr (abs_roundAway_sub_le D.value)
    push_cast at this
    exact this
  dsimp only
  split_ifs with hq0
  · -- no whole turn: `x` itself, already within `16/5` of zero
    refine meets_pure ⟨hx, ?_, 0, ?_⟩
    · rw [hq0] at hq
      exact (reduction_bounds (M := 0) (R := x.value) hε0 hε1 hxw hT2π hDerr hq (by simp)
        (by rw [sub_zero, sub_self, abs_zero]; exact mul_nonneg hε0 (abs_nonneg _))).1
    rw [Int.cast_zero, zero_mul, sub_zero, sub_self, abs_zero]
    exact mul_nonneg hε0 (by positivity)
  · set q := roundAway D.value
    have hqtame : (ofInt q).Tame := by
      have hqx : |(q : ℝ)| < 10 ^ w.digits := by
        have := abs_sub_abs_le_abs_sub (q : ℝ) D.value
        have hpow : (10 : ℝ) ^ ((w.digits : ℤ) - 11) + 1 < 10 ^ w.digits := by
          rw [← zpow_natCast]
          have h1 : (10 : ℝ) ^ ((w.digits : ℤ) - 11) ≤ 10 ^ ((w.digits : ℤ) - 1) :=
            zpow_le_zpow_right₀ (by norm_num) (by omega)
          have h2 : (10 : ℝ) ^ ((w.digits : ℤ) - 1) * 10 = 10 ^ (w.digits : ℤ) := by
            rw [← zpow_add_one₀ (by norm_num)]
            ring_nf
          have h3 : (1 : ℝ) ≤ 10 ^ ((w.digits : ℤ) - 1) := one_le_zpow₀ (by norm_num) (by omega)
          linarith
        linarith
      have hnat : q.natAbs < pow10 w.digits := by
        have : ((q.natAbs : ℕ) : ℝ) < ((pow10 w.digits : ℕ) : ℝ) := by
          rw [Nat.cast_natAbs, pow10_eq_pow]
          push_cast
          exact hqx
        exact_mod_cast this
      exact tame_ofInt_of_lt (by omega) (by omega) hnat
    refine meets_bind ((mul_spec hqtame hTt hw20).mono (fun t h => h) fun _ _ => trivial)
      fun M hM => ?_
    refine (sub_spec hx hM.1 hw20).mono (fun R hR => ?_) fun _ _ => trivial
    have hMerr : |(M.value : ℝ) - q * T.value| ≤ ε * |(q : ℝ) * T.value| := by
      have := abs_sub_of_rounds hM.2
      rw [value_ofInt] at this
      push_cast at this
      rwa [hεdef] at this
    have hRerr : |(R.value : ℝ) - (x.value - M.value)| ≤ ε * |(x.value : ℝ) - M.value| := by
      have := abs_sub_of_rounds hR.2
      push_cast at this
      rwa [hεdef] at this
    obtain ⟨hsmall, herr⟩ := reduction_bounds hε0 hε1 hxw hT2π hDerr hq hMerr hRerr
    exact ⟨hR.1, hsmall, q, herr⟩

end Calculator.Elementary
