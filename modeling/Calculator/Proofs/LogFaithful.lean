import Calculator.Proofs.LogAccuracy
/-!
The logarithms at the asked precision. The working logarithm is within `4 · 10 ^ (8 - w)` of
`ln x`, relatively, at every working precision `w` the calculator uses (`lnPositive_spec`): near
one the series alone, elsewhere the reduction `ln m + j ln 2 + k ln 10` at a precision widened by
the digits of `k`, whose errors the size `|ln x| ≥ (1 + |k|) / 6` keeps relative. The ten guard
digits leave less than a tenth of a unit of the `p`-th digit, also after the division by `ln 10`,
so `ln` and `log10` never fail on a positive argument, give zero at one, and are faithful.
-/

open Except

namespace Calculator.Elementary

open Decimal

theorem lnSeriesError_le_of_le {w : Precision} (hw : w.digits ≤ 11000) :
    lnSeriesError w ≤ 4 * 10 ^ (6 - (w.digits : ℤ)) := by
  have hε := (roundingError_pos w).le
  have hF : 9 * (seriesFuel w : ℝ) + 6 ≤ 400000 := by
    have : 9 * seriesFuel w + 6 ≤ 400000 := by unfold seriesFuel; omega
    exact_mod_cast this
  have hunit : (400000 : ℝ) * roundingError w = 4 * 10 ^ (6 - (w.digits : ℤ)) := by
    rw [roundingError_def]
    rw [show (6 : ℤ) - w.digits = 5 + (1 - w.digits) by ring, zpow_add₀ (by norm_num)]
    norm_num
    ring
  unfold lnSeriesError lnSumError
  nlinarith

theorem quarter_le_log_add {m : ℝ} (hm : 7 / 10 ≤ m) {j : ℕ} (hj : j ≠ 0) :
    1 / 4 ≤ Real.log m + j * Real.log 2 := by
  have hlog := Real.one_sub_inv_le_log_of_pos (by linarith : 0 < m)
  have hinv : m⁻¹ ≤ 10 / 7 := by
    rw [inv_le_comm₀ (by linarith) (by norm_num)]
    linarith
  have hj1 : (1 : ℝ) ≤ j := by exact_mod_cast Nat.one_le_iff_ne_zero.mpr hj
  have hl2 := Real.log_two_gt_d9
  nlinarith

theorem zpow_exponent_mem {x : Decimal} (hx : x.Tame) (hpos : 0 < x.value) :
    (10 : ℝ) ^ x.exponent ≤ x.value ∧ (x.value : ℝ) < 10 ^ (x.exponent + 1) := by
  have hm : x.mantissa ≠ 0 := value_eq_zero_iff.not.mp hpos.ne'
  have hlo := zpow_exponent_le hx hm
  have hhi := lt_zpow_exponent hx hm
  rw [abs_of_pos hpos] at hlo hhi
  constructor
  · have h := (Rat.cast_le (K := ℝ)).mpr hlo
    rwa [Rat.cast_zpow, Rat.cast_ofNat] at h
  · have h := (Rat.cast_lt (K := ℝ)).mpr hhi
    rwa [Rat.cast_zpow, Rat.cast_ofNat] at h

theorem reduced_mem {x : Decimal} (hx : x.Tame) (hpos : 0 < x.value) :
    (x.shift (-x.exponent)).Tame ∧
      ((x.shift (-x.exponent)).value : ℝ) = x.value / 10 ^ x.exponent ∧
      (1 : ℝ) ≤ (x.shift (-x.exponent)).value ∧ ((x.shift (-x.exponent)).value : ℝ) < 10 := by
  have hm : x.mantissa ≠ 0 := value_eq_zero_iff.not.mp hpos.ne'
  obtain ⟨hlo, hhi⟩ := zpow_exponent_mem hx hpos
  obtain ⟨hshift, hm0, -⟩ := shift_neg_exponent hx hm
  have hred : ((x.shift (-x.exponent)).value : ℝ) = x.value / 10 ^ x.exponent := by
    rw [hshift]
    push_cast
    rfl
  have hpow : (0 : ℝ) < 10 ^ x.exponent := by positivity
  refine ⟨hm0, hred, ?_, ?_⟩
  · rw [hred, le_div_iff₀ hpow, one_mul]
    exact hlo
  · rw [zpow_add_one₀ (by norm_num)] at hhi
    rw [hred, div_lt_iff₀ hpow]
    linarith

/-- Away from one, the reduction `ln x = ln m + j ln 2 + k ln 10`, summed at the precision
widened by the digits of `k`, is within a hundred series errors of `ln x`, relatively. -/
theorem lnReduced_spec {x : Decimal} (hx : x.Tame) (hpos : 0 < x.value)
    (hout : (x.value : ℝ) ≤ 1 / 2 ∨ (3 / 2 : ℝ) ≤ x.value) {w : Precision} (hw : 11 ≤ w.digits)
    (hw' : w.digits ≤ 100000) (hk : x.exponent.natAbs < 2 ^ 43) :
    (do
      let (m, j) ← halveWhileAbove threeHalves w halvingFuel (x.shift (-x.exponent)) 0
      let res ← lnSeries m w
      let res ← if j ≠ 0 then res.add (← (← lnTwo w).mul (ofInt j) w) w else pure res
      if x.exponent ≠ 0 then res.add (← (← lnTen w).mul (ofInt x.exponent) w) w
      else pure res).Meets
      (fun v : Decimal => v.Tame ∧
        |(v.value : ℝ) - Real.log x.value| ≤ 100 * lnSeriesError w * |Real.log x.value|)
      (fun _ => False) := by
  set k := x.exponent with hkdef
  have hm : x.mantissa ≠ 0 := value_eq_zero_iff.not.mp hpos.ne'
  have hX0 : (0 : ℝ) < x.value := by exact_mod_cast hpos
  obtain ⟨hlo, hhi⟩ := zpow_exponent_mem hx hpos
  obtain ⟨hm0, hred, hred1, hred10⟩ := reduced_mem hx hpos
  have hpow : (0 : ℝ) < 10 ^ k := by positivity
  have hε := (roundingError_pos w).le
  have hε1 : roundingError w ≤ 10 ^ (-10 : ℤ) := zpow_le_zpow_right₀ (by norm_num) (by omega)
  have hτ := lnSeriesError_le_hundredth hw hw'
  have hετ := roundingError_le_lnSeriesError w
  have hlx := abs_log_ge hlo hhi hout
  have hK0 := abs_nonneg (k : ℝ)
  refine meets_bind (ln_halving_spec hm0 hred1 hred10 hw (by omega)) fun r hr => ?_
  obtain ⟨m, j⟩ := r
  obtain ⟨hh, hm32⟩ := hr
  have hm7 := hh.low
  refine meets_bind (lnSeries_close hw hw' hh.tame
    ((Rat.cast_le (K := ℝ)).mp (by push_cast; linarith))
    ((Rat.cast_le (K := ℝ)).mp (by push_cast; linarith))) fun res hres => ?_
  obtain ⟨hres, hclose⟩ := hres
  have hL := abs_log_le_half hm7 hm32
  have hj3 : (j : ℝ) ≤ 3 := by exact_mod_cast hh.count_le
  have hl2 := Real.log_two_lt_d9
  have hl2' := Real.log_two_gt_d9
  -- the halvings moved `ln m` off `ln (x̃ / 2 ^ j)` by at most `j` roundings
  have hhalved : |Real.log m.value + j * Real.log 2 + k * Real.log 10 - Real.log x.value| ≤
      3 * roundingError w := by
    have hnear := hh.near.2.2
    rw [Real.log_div (by rw [hred]; positivity) (by positivity), Real.log_pow, hred,
      Real.log_div hX0.ne' hpow.ne', Real.log_zpow] at hnear
    calc _ = |Real.log m.value - (Real.log x.value - k * Real.log 10 - j * Real.log 2)| := by
          ring_nf
      _ ≤ j * roundingError w := hnear
      _ ≤ 3 * roundingError w := by nlinarith
  refine ln_addTwos hw hw' hh.count_le hres hL hclose (quarter_le_log_add hm7)
    fun r hr hrclose => ?_
  set R := Real.log m.value + j * Real.log 2
  set B := |Real.log m.value| + j * Real.log 2
  have hRB : |R| ≤ B := by
    refine (abs_add_le _ _).trans ?_
    rw [abs_of_nonneg (by positivity : (0 : ℝ) ≤ j * Real.log 2)]
  have hB3 : B ≤ 3 := by nlinarith
  -- the sum of the reduction is at least `(1 + |k|) / 7` in size, since `ln x` is `(1 + |k|) / 6`
  have hfar : k ≠ 0 → (1 + |(k : ℝ)|) / 7 ≤ |R + k * Real.log 10| := fun _ => by
    have h := abs_sub_abs_le_abs_sub (Real.log x.value) (R + k * Real.log 10)
    rw [abs_sub_comm] at h
    have : (1 + |(k : ℝ)|) / 42 ≥ 3 * roundingError w := by
      have : (10 : ℝ) ^ (-10 : ℤ) ≤ 1 / 200 := by norm_num
      nlinarith
    linarith
  refine (ln_addTens hw hw' hk hr hRB hB3 hrclose hfar).mono (fun v hv => ⟨hv.1, ?_⟩)
    fun _ h => h
  exact reduction_error_le hv.2 hhalved hB3 hlx hK0 hε hετ

theorem hundred_lnSeriesError_le {w w' : Precision} (hle : w.digits ≤ w'.digits)
    (hw' : w'.digits ≤ 11000) : 100 * lnSeriesError w' ≤ 4 * 10 ^ (8 - (w.digits : ℤ)) := by
  have h := lnSeriesError_le_of_le hw'
  have h2 : (10 : ℝ) ^ (6 - (w'.digits : ℤ)) ≤ 10 ^ (6 - (w.digits : ℤ)) :=
    zpow_le_zpow_right₀ (by norm_num) (by omega)
  have h3 : (10 : ℝ) ^ (8 - (w.digits : ℤ)) = 100 * 10 ^ (6 - (w.digits : ℤ)) := by
    rw [show (8 : ℤ) - w.digits = 2 + (6 - w.digits) by ring, zpow_add₀ (by norm_num)]
    norm_num
  linarith

/-- The working logarithm of a positive working value, at a working precision from eleven to
ten thousand one hundred digits, never fails and is within `4 · 10 ^ (8 - w)` of `ln x`,
relatively: zero at one, the series near one, the reduction elsewhere. -/
theorem lnPositive_spec {x : Decimal} (hx : x.Tame) (hpos : 0 < x.value) {w : Precision}
    (hw : 11 ≤ w.digits) (hw' : w.digits ≤ 10100) :
    (lnPositive x w).Meets (fun v => v.Tame ∧
      |(v.value : ℝ) - Real.log x.value| ≤ 4 * 10 ^ (8 - (w.digits : ℤ)) * |Real.log x.value|)
      (fun _ => False) := by
  have hm : x.mantissa ≠ 0 := value_eq_zero_iff.not.mp hpos.ne'
  have hlog := abs_nonneg (Real.log x.value)
  unfold lnPositive
  refine meets_ite (fun h1 => meets_pure ⟨tame_zero, ?_⟩) fun h1 => ?_
  · rw [(sameValue_iff_of_tame hx tame_one).mp h1, value_one, value_zero]
    simp
  have h1' : x.value ≠ 1 := fun h => h1 ((sameValue_iff_of_tame hx tame_one).mpr
    (by rw [h, value_one]))
  refine meets_ite (fun h2 => ?_) fun h2 => ?_
  · -- near one the series applies directly
    rw [lt_iff_of_tame tame_half hx, lt_iff_of_tame hx tame_threeHalves, value_half,
      value_threeHalves] at h2
    refine (lnSeries_close hw (by omega) hx (by linarith) (by linarith)).mono
      (fun v hv => ⟨hv.1, hv.2.trans ?_⟩) fun _ h => h
    have := hundred_lnSeriesError_le le_rfl (show w.digits ≤ 11000 by omega)
    have := lnSeriesError_nonneg w
    nlinarith
  -- elsewhere the reduction runs at the precision widened by the digits of the exponent
  have hk := exponent_natAbs_lt hx hm
  have hd : digitCount x.exponent.natAbs ≤ 14 :=
    digitCount_le (by omega) (by decide) (lt_of_lt_of_le hk (by decide))
  have hwd : (w.widen (digitCount x.exponent.natAbs)).digits =
      w.digits + digitCount x.exponent.natAbs :=
    Precision.widen_digits_of_le (by unfold Precision.digitsLimit; omega)
  have hout : (x.value : ℝ) ≤ 1 / 2 ∨ (3 / 2 : ℝ) ≤ x.value := by
    rw [lt_iff_of_tame tame_half hx, lt_iff_of_tame hx tame_threeHalves, value_half,
      value_threeHalves, not_and_or, not_lt, not_lt] at h2
    rcases h2 with h | h
    · left
      have h' := (Rat.cast_le (K := ℝ)).mpr h
      push_cast at h'
      exact h'
    · right
      have h' := (Rat.cast_le (K := ℝ)).mpr h
      push_cast at h'
      exact h'
  refine (lnReduced_spec hx hpos hout (by omega) (by omega) hk).mono
    (fun v hv => ⟨hv.1, hv.2.trans ?_⟩) fun _ h => h
  have hle : w.digits ≤ (w.widen (digitCount x.exponent.natAbs)).digits := by omega
  exact mul_le_mul_of_nonneg_right (hundred_lnSeriesError_le hle (by omega)) hlog

-- Kept apart so that `linarith` sees `10 ^ -(2 ^ 30)` as an atom and never tries to evaluate it.
private lemma tiny_separation_bounds :
    (10 : ℝ) ^ (-(2 ^ 31 : ℤ)) ≤ 10 ^ (-(2 ^ 30 : ℤ)) / 2 ∧ (10 : ℝ) ^ (-(2 ^ 30 : ℤ)) / 2 ≤ 1 / 6 := by
  have hsmall : (10 : ℝ) ^ (-(2 ^ 30 : ℤ)) ≤ 1 / 10 := by
    have h := zpow_le_zpow_right₀ (by norm_num : (1 : ℝ) ≤ 10) (show -(2 ^ 30 : ℤ) ≤ -1 by norm_num)
    norm_num at h ⊢
    exact h
  have ha : (0 : ℝ) < 10 ^ (-(2 ^ 30 : ℤ)) := by positivity
  rw [show -(2 ^ 31 : ℤ) = -(2 ^ 30 : ℤ) + -(2 ^ 30 : ℤ) by norm_num, zpow_add₀ (by norm_num)]
  generalize (10 : ℝ) ^ (-(2 ^ 30 : ℤ)) = a at hsmall ha ⊢
  constructor <;> nlinarith

/-- The logarithm of a positive working value other than one lies between `10 ^ -(2 ^ 31)` and
`10 ^ 14` in size: near one the value is at least `10 ^ -(2 ^ 30)` away from it, elsewhere the
logarithm is at least a sixth, and the exponent is below `2 ^ 43`. -/
theorem abs_log_mem {x : Decimal} (hx : x.Tame) (hpos : 0 < x.value) (h1 : x.value ≠ 1) :
    (10 : ℝ) ^ (-(2 ^ 31 : ℤ)) ≤ |Real.log x.value| ∧ |Real.log x.value| ≤ 10 ^ (14 : ℤ) := by
  have hm : x.mantissa ≠ 0 := value_eq_zero_iff.not.mp hpos.ne'
  have hX0 : (0 : ℝ) < x.value := by exact_mod_cast hpos
  obtain ⟨hlo, hhi⟩ := zpow_exponent_mem hx hpos
  have hl10 := two_lt_log_ten
  have hl10' := log_ten_lt_three
  obtain ⟨htiny, hsixth⟩ := tiny_separation_bounds
  constructor
  · by_cases hnear : (1 / 2 : ℝ) < x.value ∧ (x.value : ℝ) < 3 / 2
    · -- near one, `|ln x| ≥ |x - 1| / 2`
      have hsep := (ln_zeta_mem hx ((Rat.cast_le (K := ℝ)).mp (by push_cast; linarith))
        ((Rat.cast_le (K := ℝ)).mp (by push_cast; linarith)) h1).2.2
      have hhalf : |(x.value : ℝ) - 1| / 2 ≤ |Real.log x.value| := by
        rcases lt_or_gt_of_ne (show (x.value : ℝ) ≠ 1 by exact_mod_cast h1) with hlt | hgt
        · have := Real.log_le_sub_one_of_pos hX0
          rw [abs_of_neg (by linarith), abs_of_neg (Real.log_neg hX0 hlt)]
          linarith
        · have := Real.one_sub_inv_le_log_of_pos hX0
          have hinv : (x.value : ℝ)⁻¹ ≤ 1 - (x.value - 1) / 2 := by
            rw [inv_le_iff_one_le_mul₀ hX0]
            nlinarith
          rw [abs_of_pos (by linarith), abs_of_pos (Real.log_pos hgt)]
          linarith
      calc (10 : ℝ) ^ (-(2 ^ 31 : ℤ)) ≤ 10 ^ (-(2 ^ 30 : ℤ)) / 2 := htiny
        _ ≤ |(x.value : ℝ) - 1| / 2 := div_le_div_of_nonneg_right hsep (by norm_num)
        _ ≤ |Real.log x.value| := hhalf
    · have hout : (x.value : ℝ) ≤ 1 / 2 ∨ (3 / 2 : ℝ) ≤ x.value := by
        rw [not_and_or, not_lt, not_lt] at hnear
        exact hnear
      have hlog := abs_log_ge hlo hhi hout
      have hk0 := abs_nonneg (x.exponent : ℝ)
      calc (10 : ℝ) ^ (-(2 ^ 31 : ℤ)) ≤ 10 ^ (-(2 ^ 30 : ℤ)) / 2 := htiny
        _ ≤ 1 / 6 := hsixth
        _ ≤ (1 + |(x.exponent : ℝ)|) / 6 := by linarith
        _ ≤ |Real.log x.value| := hlog
  · -- `k ln 10 ≤ ln x < (k + 1) ln 10` with `|k| < 2 ^ 43`
    have hk := exponent_natAbs_lt hx hm
    have hkabs : |(x.exponent : ℝ)| < 2 ^ 43 := by
      rw [← Int.cast_abs, Int.abs_eq_natAbs]
      exact_mod_cast hk
    have hge : x.exponent * Real.log 10 ≤ Real.log x.value := by
      rw [← Real.log_zpow]
      exact Real.log_le_log (by positivity) hlo
    have hlt : Real.log x.value < (x.exponent + 1) * Real.log 10 := by
      rw [← Int.cast_one, ← Int.cast_add, ← Real.log_zpow]
      exact Real.log_lt_log hX0 hhi
    obtain ⟨hk1, hk2⟩ := abs_lt.mp hkabs
    rw [abs_le]
    constructor <;> nlinarith

theorem abs_logb_mem {x : Decimal} (hx : x.Tame) (hpos : 0 < x.value) (h1 : x.value ≠ 1) :
    (10 : ℝ) ^ (-(2 ^ 31 + 1 : ℤ)) ≤ |Real.logb 10 x.value| ∧
      |Real.logb 10 x.value| ≤ 10 ^ (14 : ℤ) := by
  obtain ⟨hlo, hhi⟩ := abs_log_mem hx hpos h1
  have hl10 := two_lt_log_ten
  have hl10' := log_ten_lt_three
  have habs : |Real.logb 10 x.value| = |Real.log x.value| / Real.log 10 := by
    rw [← Real.log_div_log, abs_div, abs_of_pos (by linarith : (0 : ℝ) < Real.log 10)]
  rw [habs, show -(2 ^ 31 + 1 : ℤ) = -(2 ^ 31 : ℤ) - 1 by ring, zpow_sub₀ (by norm_num), zpow_one]
  have h14 : (0 : ℝ) < 10 ^ (14 : ℤ) := by positivity
  have ha : (0 : ℝ) < 10 ^ (-(2 ^ 31 : ℤ)) := by positivity
  generalize (10 : ℝ) ^ (-(2 ^ 31 : ℤ)) = a at hlo ha ⊢
  constructor
  · rw [div_le_div_iff₀ (by norm_num) (by linarith)]
    nlinarith
  · rw [div_le_iff₀ (by linarith)]
    nlinarith

theorem not_beyond_of_close {q : ℚ} {y : ℝ} {L : ℕ} (hL : L + 3 ≤ exponentLimit)
    (hq : |(q : ℝ) - y| ≤ 1 / 10 * |y|)
    (hy : y ≠ 0 → (10 : ℝ) ^ (-(L : ℤ)) ≤ |y| ∧ |y| ≤ 10 ^ (L : ℤ)) : ¬Beyond q := by
  rcases eq_or_ne y 0 with rfl | hy0
  · rintro ⟨hq0, -⟩
    apply hq0
    simpa using hq
  obtain ⟨hlo, hhi⟩ := hy hy0
  have h1 := abs_sub_abs_le_abs_sub (q : ℝ) y
  have h2 := abs_sub_abs_le_abs_sub y (q : ℝ)
  rw [abs_sub_comm] at h2
  have hL0 : (0 : ℝ) < 10 ^ (-(L : ℤ)) := by positivity
  have hL1 : (0 : ℝ) < 10 ^ (L : ℤ) := by positivity
  have hlo' : (10 : ℝ) ^ (-((L + 1 : ℕ) : ℤ)) = 10 ^ (-(L : ℤ)) / 10 := by
    rw [Nat.cast_succ, neg_add, zpow_add₀ (by norm_num), zpow_neg_one, div_eq_mul_inv]
  have hhi' : (10 : ℝ) ^ ((L + 1 : ℕ) : ℤ) = 10 ^ (L : ℤ) * 10 := by
    rw [Nat.cast_succ, zpow_add_one₀ (by norm_num)]
  refine not_beyond_of_bounds (L := L + 1) (by omega) ?_ ?_
  · rw [hlo']
    linarith
  · rw [hhi']
    linarith

theorem finish_log_spec {s : Decimal} (hs : s.Tame) {p : Precision}
    (hp : p.digits ≤ Gateway.maxPrecision) {y : ℝ} {L : ℕ} (hL : L + 3 ≤ exponentLimit)
    (hsy : |(s.value : ℝ) - y| ≤ 10 ^ (-1 - (p.digits : ℤ)) * |y|)
    (hy : y ≠ 0 → (10 : ℝ) ^ (-(L : ℤ)) ≤ |y| ∧ |y| ≤ 10 ^ (L : ℤ)) :
    (finish s p).Meets (fun v => (y = 0 → v.value = 0) ∧
      |(v.value : ℝ) - y| < 10 ^ (Int.log 10 |y| + 1 - p.digits)) (fun _ => False) := by
  have hp20 : p.digits < 2 ^ 20 := by unfold Gateway.maxPrecision at hp; omega
  have hunit : (10 : ℝ) ^ (-1 - (p.digits : ℤ)) = 10 ^ (-(p.digits : ℤ)) / 10 := by
    rw [show -1 - (p.digits : ℤ) = -(p.digits : ℤ) - 1 by ring, zpow_sub₀ (by norm_num), zpow_one]
  have hone : (10 : ℝ) ^ (-(p.digits : ℤ)) ≤ 1 := zpow_le_one_of_nonpos₀ (by norm_num) (by omega)
  have hpos : (0 : ℝ) < 10 ^ (-(p.digits : ℤ)) := by positivity
  have hnb : ¬Beyond s.value := not_beyond_of_close hL
    (hsy.trans (mul_le_mul_of_nonneg_right (by rw [hunit]; linarith) (abs_nonneg y))) hy
  rcases eq_or_ne y 0 with rfl | hy0
  · -- `s` is zero with `y`, and so is its rounding
    have hs0 : s.value = 0 := by simpa using hsy
    refine (finish_spec hs hp20).mono (fun v hv => ?_) fun _ he => hnb he.2
    have hv0 : v.value = 0 := by rw [hv.2, hs0, roundSig_zero]
    refine ⟨fun _ => hv0, ?_⟩
    rw [hv0, Rat.cast_zero, sub_zero, abs_zero]
    positivity
  · refine (finish_spec hs hp20).mono (fun v hv => ⟨fun h => absurd h hy0, ?_⟩)
      fun _ he => hnb he.2
    rw [hv.2]
    exact abs_roundSig_sub_lt p.digits_pos hy0 (by rw [hunit]; linarith) hsy

theorem widen_guard_digits {p : Precision} (hp : p.digits ≤ Gateway.maxPrecision) :
    (p.widen guardDigits).digits = p.digits + 10 := by
  rw [Precision.widen_digits_of_le (by
    unfold guardDigits Precision.digitsLimit
    unfold Gateway.maxPrecision at hp
    omega)]
  rfl

theorem ln_faithful {x : Decimal} (hx : x.Tame) (hpos : 0 < x.value) {p : Precision}
    (hp : p.digits ≤ Gateway.maxPrecision) :
    (ln x p).Meets (fun v => (x.value = 1 → v.value = 0) ∧
      |(v.value : ℝ) - Real.log x.value| < 10 ^ (Int.log 10 |Real.log x.value| + 1 - p.digits))
      (fun _ => False) := by
  have hwd := widen_guard_digits hp
  have hp' : p.digits ≤ 10000 := hp
  have hp1 := p.digits_pos
  have hrel : 4 * (10 : ℝ) ^ (8 - ((p.widen guardDigits).digits : ℤ)) ≤
      10 ^ (-1 - (p.digits : ℤ)) := by
    rw [hwd, show (8 : ℤ) - ((p.digits + 10 : ℕ) : ℤ) = -1 - (p.digits : ℤ) + -1 by push_cast; ring,
      zpow_add₀ (by norm_num), zpow_neg_one]
    have : (0 : ℝ) < 10 ^ (-1 - (p.digits : ℤ)) := by positivity
    linarith
  unfold ln
  refine meets_ite (fun h => absurd (sign_nonpos_iff.mp h) (not_le.mpr hpos)) fun _ => ?_
  refine meets_bind (lnPositive_spec (w := p.widen guardDigits) hx hpos (by omega) (by omega))
    fun s hs => ?_
  refine (finish_log_spec hs.1 hp (L := 2 ^ 31) (by unfold exponentLimit; norm_num)
    (hs.2.trans (mul_le_mul_of_nonneg_right hrel (abs_nonneg _))) fun hy => ?_).mono
    (fun v hv => ⟨fun h1 => hv.1 (by rw [h1]; simp), hv.2⟩) fun _ h => h
  obtain ⟨hlo, hhi⟩ := abs_log_mem hx hpos fun h => hy (by rw [h]; simp)
  exact ⟨by exact_mod_cast hlo, hhi.trans (zpow_le_zpow_right₀ (by norm_num) (by norm_num))⟩

theorem abs_div_sub_le_of_near {n a T b δ τ : ℝ} (hn : |n - a| ≤ δ * |a|) (hδ0 : 0 ≤ δ)
    (hδ : δ ≤ 1) (hT : Near T b τ) (hτ : τ ≤ 1 / 2) :
    |n / T - a / b| ≤ (δ + 4 * τ) * |a / b| := by
  have hT0 := hT.1
  have hb0 := hT.2.1
  have hτ0 := hT.nonneg
  have hbT := hT.symm.abs_sub_le hτ
  have hbT' : b / T ≤ 1 + 2 * τ := by
    rw [div_le_iff₀ hT0]
    linarith [le_abs_self (b - T)]
  have hab : |a| / T = |a / b| * (b / T) := by
    rw [abs_div, abs_of_pos hb0]
    field_simp
  have hsplit : n / T - a / b = (n - a) / T + a / b * ((b - T) / T) := by
    field_simp
    ring
  have hδτ : δ * τ ≤ τ := mul_le_of_le_one_left hτ0 hδ
  calc |n / T - a / b| ≤ |n - a| / T + |a / b| * (|b - T| / T) := by
        rw [hsplit]
        refine (abs_add_le _ _).trans_eq ?_
        rw [abs_div, abs_of_pos hT0, abs_mul, abs_div (b - T) T, abs_of_pos hT0]
    _ ≤ δ * |a| / T + |a / b| * (2 * τ) := by
        gcongr
        rw [div_le_iff₀ hT0]
        linarith
    _ = δ * |a / b| * (b / T) + |a / b| * (2 * τ) := by rw [mul_div_assoc, hab, mul_assoc]
    _ ≤ δ * |a / b| * (1 + 2 * τ) + |a / b| * (2 * τ) := by
        gcongr
    _ ≤ (δ + 4 * τ) * |a / b| := by nlinarith [abs_nonneg (a / b)]

/-- The decimal logarithm of a positive working value, at every precision the calculator takes,
never fails: it is zero at one and faithful everywhere. -/
theorem log10_faithful {x : Decimal} (hx : x.Tame) (hpos : 0 < x.value) {p : Precision}
    (hp : p.digits ≤ Gateway.maxPrecision) :
    (log10 x p).Meets (fun v => (x.value = 1 → v.value = 0) ∧
      |(v.value : ℝ) - Real.logb 10 x.value| <
        10 ^ (Int.log 10 |Real.logb 10 x.value| + 1 - p.digits)) (fun _ => False) := by
  have hwd := widen_guard_digits hp
  have hp' : p.digits ≤ 10000 := hp
  have hp1 := p.digits_pos
  unfold log10
  refine meets_ite (fun h => absurd (sign_nonpos_iff.mp h) (not_le.mpr hpos)) fun _ => ?_
  set w := p.widen guardDigits with hwdef
  set y := Real.logb 10 x.value with hydef
  have hy : y ≠ 0 →
      (10 : ℝ) ^ (-((2 ^ 31 + 1 : ℕ) : ℤ)) ≤ |y| ∧ |y| ≤ 10 ^ ((2 ^ 31 + 1 : ℕ) : ℤ) := by
    intro hy0
    obtain ⟨hlo, hhi⟩ := abs_logb_mem hx hpos fun h => hy0 (by rw [hydef, h]; simp)
    exact ⟨by exact_mod_cast hlo, hhi.trans (zpow_le_zpow_right₀ (by norm_num) (by norm_num))⟩
  -- every error below is counted in the working unit `u = 10 ^ (6 - w)`
  set u : ℝ := 10 ^ (6 - (w.digits : ℤ)) with hu
  have hu0 : 0 < u := by positivity
  have hu5 : u ≤ 1 / 100000 := by
    have h := zpow_le_zpow_right₀ (by norm_num : (1 : ℝ) ≤ 10)
      (show 6 - (w.digits : ℤ) ≤ -5 by omega)
    rw [← hu] at h
    norm_num at h
    exact h
  have hδ : 4 * (10 : ℝ) ^ (8 - (w.digits : ℤ)) = 400 * u := by
    rw [show (8 : ℤ) - w.digits = 2 + (6 - w.digits) by ring, zpow_add₀ (by norm_num), ← hu]
    norm_num
    ring
  have hε : roundingError w ≤ u := zpow_le_zpow_right₀ (by norm_num) (by omega)
  have hε0 := (roundingError_pos w).le
  have hτ : lnSeriesError w + 2 * roundingError w ≤ 6 * u := by
    have := lnSeriesError_le_of_le (w := w) (by omega)
    linarith
  have hout : 1000 * u = 10 ^ (-1 - (p.digits : ℤ)) := by
    rw [hu, show -1 - (p.digits : ℤ) = 3 + (6 - w.digits) by omega, zpow_add₀ (by norm_num)]
    norm_num
  refine meets_bind (lnPositive_spec (w := w) hx hpos (by omega) (by omega)) fun num hnum => ?_
  refine meets_bind (lnTen_spec (w := w) (by omega) (by omega)) fun T hT => ?_
  refine meets_bind (Q := fun q => q.Tame ∧ |(q.value : ℝ) - y| ≤ 10 ^ (-1 - (p.digits : ℤ)) * |y|)
    ?_ fun q hq => (finish_log_spec hq.1 hp (by unfold exponentLimit; norm_num) hq.2 hy).mono
      (fun v hv => ⟨fun h1 => hv.1 (by rw [hydef, h1]; simp), hv.2⟩) fun _ h => h
  -- the quotient of the two working logarithms, rounded once more
  have hTpos : (0 : ℚ) < T.value := by exact_mod_cast hT.2.1
  have hdiv : |((num.value / T.value : ℚ) : ℝ) - y| ≤ (400 * u + 4 * (6 * u)) * |y| := by
    have h := abs_div_sub_le_of_near hnum.2 (by positivity) (by linarith) hT.2 (by linarith)
    rw [Rat.cast_div, hydef, ← Real.log_div_log]
    refine h.trans (mul_le_mul_of_nonneg_right ?_ (abs_nonneg _))
    linarith
  have hnb : ¬Beyond (num.value / T.value) := not_beyond_of_close (L := 2 ^ 31 + 1)
    (by unfold exponentLimit; norm_num)
    (hdiv.trans (mul_le_mul_of_nonneg_right (by linarith) (abs_nonneg _))) hy
  refine (div_spec hnum.1 hT.1 (value_eq_zero_iff.not.mp hTpos.ne') (by omega)).mono
    (fun q hq => ⟨hq.1, ?_⟩) fun _ he => hnb he.2
  have hr := abs_sub_of_rounds hq.2
  have hsize : |((num.value / T.value : ℚ) : ℝ)| ≤ 2 * |y| := by
    have := abs_sub_abs_le_abs_sub ((num.value / T.value : ℚ) : ℝ) y
    nlinarith [abs_nonneg y]
  calc |(q.value : ℝ) - y|
      ≤ |(q.value : ℝ) - ((num.value / T.value : ℚ) : ℝ)| +
          |((num.value / T.value : ℚ) : ℝ) - y| := abs_sub_le _ _ _
    _ ≤ roundingError w * (2 * |y|) + (400 * u + 4 * (6 * u)) * |y| :=
        add_le_add (hr.trans (mul_le_mul_of_nonneg_left hsize hε0)) hdiv
    _ ≤ 1000 * u * |y| := by nlinarith [abs_nonneg y]
    _ = 10 ^ (-1 - (p.digits : ℤ)) * |y| := by rw [hout]

/-- The exponential and the two logarithms of a working value, at every precision the calculator
takes: an exponential that is computed is faithful, and on a positive argument both logarithms
are computed, are zero at one and are faithful. -/
theorem exp_log_faithful {x : Decimal} (hx : x.Tame) {p : Precision}
    (hp : p.digits ≤ Gateway.maxPrecision) :
    (∀ v, exp x p = .ok v →
      |(v.value : ℝ) - Real.exp x.value| <
        10 ^ (Int.log 10 (Real.exp x.value) + 1 - p.digits)) ∧
    (0 < x.value → ∃ v, ln x p = .ok v ∧ (x.value = 1 → v.value = 0) ∧
      |(v.value : ℝ) - Real.log x.value| <
        10 ^ (Int.log 10 |Real.log x.value| + 1 - p.digits)) ∧
    (0 < x.value → ∃ v, log10 x p = .ok v ∧ (x.value = 1 → v.value = 0) ∧
      |(v.value : ℝ) - Real.logb 10 x.value| <
        10 ^ (Int.log 10 |Real.logb 10 x.value| + 1 - p.digits)) :=
  ⟨fun _ hv => ((exp_faithful hx (hp.trans (by decide))).of_ok hv).2,
    fun hpos => Except.Meets.exists_ok (ln_faithful hx hpos hp),
    fun hpos => Except.Meets.exists_ok (log10_faithful hx hpos hp)⟩

theorem exp_log_faithful_two :
    (2 : Decimal).Tame ∧ (⟨10, by decide, by decide⟩ : Precision).digits ≤ Gateway.maxPrecision ∧
      ((∀ v, exp 2 ⟨10, by decide, by decide⟩ = .ok v →
        |(v.value : ℝ) - Real.exp (2 : Decimal).value| <
          10 ^ (Int.log 10 (Real.exp (2 : Decimal).value) + 1 - 10)) ∧
      (0 < (2 : Decimal).value → ∃ v, ln 2 ⟨10, by decide, by decide⟩ = .ok v ∧
        ((2 : Decimal).value = 1 → v.value = 0) ∧
        |(v.value : ℝ) - Real.log (2 : Decimal).value| <
          10 ^ (Int.log 10 |Real.log (2 : Decimal).value| + 1 - 10)) ∧
      (0 < (2 : Decimal).value → ∃ v, log10 2 ⟨10, by decide, by decide⟩ = .ok v ∧
        ((2 : Decimal).value = 1 → v.value = 0) ∧
        |(v.value : ℝ) - Real.logb 10 (2 : Decimal).value| <
          10 ^ (Int.log 10 |Real.logb 10 (2 : Decimal).value| + 1 - 10))) :=
  ⟨tame_two, by decide, exp_log_faithful tame_two (by decide)⟩

end Calculator.Elementary
