import Calculator.Proofs.SinhSeries
/-!
Accuracy of the hyperbolic functions. `cosh x = (e^x + e^-x)/2` adds two positive values, so its
working value stays within five roundings of it. `sinh` sums its series below one; from one on,
`(e^x - e^-x)/2` loses at most a factor two to cancellation, since `cosh x ≤ 2 |sinh x|` there.
`tanh` divides the two working values, and past `|x| > w` it answers `±1`, whose error
`1 - tanh |x| < 2 e ^ (-2|x|)` is below a unit of the `p`-th digit up to `p = 63` and from
`|x| ≥ 6p/5 + 1/2` on; between, the shortcut is not faithful (`tanh 111` at a hundred digits is
`0.99…92279`, not `1`).
-/

open Except

namespace Calculator.Elementary

open Decimal

/-! Relative errors of the working values -/

theorem abs_sub_le_of_faithful {v y : ℝ} (hy : 0 < y) {w : ℕ}
    (h : |v - y| < 10 ^ (Int.log 10 y + 1 - w)) : |v - y| ≤ 10 ^ (1 - (w : ℤ)) * y := by
  have hlog : (10 : ℝ) ^ Int.log 10 y ≤ y := by
    have := Int.zpow_log_le_self (b := 10) (by norm_num) hy
    push_cast at this
    exact this
  calc |v - y| ≤ 10 ^ (Int.log 10 y + 1 - w) := h.le
    _ = 10 ^ (1 - (w : ℤ)) * 10 ^ Int.log 10 y := by
        rw [← zpow_add₀ (by norm_num)]
        ring_nf
    _ ≤ 10 ^ (1 - (w : ℤ)) * y := by gcongr

theorem abs_rounded_sub_le {z : Decimal} {q : ℚ} {w : Precision}
    (h : z.value = roundSig q w.digits) {y e : ℝ} (hq : |(q : ℝ) - y| ≤ e) :
    |(z.value : ℝ) - y| ≤ roundingError w * (|y| + e) + e := by
  have hr := abs_sub_of_rounds h
  have hsize : |(q : ℝ)| ≤ |y| + e := by
    have := abs_sub_abs_le_abs_sub (q : ℝ) y
    linarith
  calc |(z.value : ℝ) - y| ≤ |(z.value : ℝ) - q| + |(q : ℝ) - y| := abs_sub_le _ _ _
    _ ≤ roundingError w * |(q : ℝ)| + e := add_le_add hr hq
    _ ≤ roundingError w * (|y| + e) + e := by
        gcongr
        exact (roundingError_pos w).le

theorem cosh_le_two_mul_abs_sinh {x : ℝ} (hx : 1 ≤ |x|) : Real.cosh x ≤ 2 * |Real.sinh x| := by
  rw [← Real.cosh_abs, Real.abs_sinh, Real.cosh_eq, Real.sinh_eq]
  have he : 3 ≤ Real.exp |x| * Real.exp |x| := by
    rw [← Real.exp_add]
    have h2 := Real.add_one_le_exp 2
    have hmono : Real.exp 2 ≤ Real.exp (|x| + |x|) := Real.exp_le_exp.mpr (by linarith)
    linarith
  have hinv : Real.exp (-|x|) * Real.exp |x| = 1 := by
    rw [← Real.exp_add, neg_add_cancel, Real.exp_zero]
  nlinarith [Real.exp_pos |x|, Real.exp_pos (-|x|)]

section Working

variable {w : Precision} (hw : 11 ≤ w.digits) (hw' : w.digits ≤ 11000)
include hw hw'

theorem exp_near {x : Decimal} (hx : x.Tame) :
    (exp x w).Meets (fun v => v.Tame ∧ Near v.value (Real.exp x.value) (2 * roundingError w))
      (fun _ => True) := by
  have hε : roundingError w ≤ 1 / 2 :=
    (roundingError_le_of_eleven hw).trans (by norm_num)
  refine (exp_faithful hx (by omega)).mono (fun v hv => ⟨hv.1, ?_⟩) fun _ _ => trivial
  exact Near.of_abs_sub_le (Real.exp_pos _) hε (abs_sub_le_of_faithful (Real.exp_pos _) hv.2)

theorem expPair_spec {x : Decimal} (hx : x.Tame) :
    (expPair x w).Meets (fun r => r.1.Tame ∧ r.2.Tame ∧
      Near r.1.value (Real.exp x.value) (2 * roundingError w) ∧
      Near r.2.value (Real.exp (-(x.value : ℝ))) (3 * roundingError w)) (fun _ => True) := by
  have hw20 : w.digits < 2 ^ 20 := by omega
  unfold expPair
  refine meets_bind (exp_near hw hw' hx) fun ep hep => ?_
  have hep0 : (0 : ℚ) < ep.value := by exact_mod_cast hep.2.1
  refine meets_bind ((div_spec tame_one hep.1 (value_eq_zero_iff.not.mp hep0.ne') hw20).mono
    (fun t h => h) fun _ _ => trivial) fun em hem => meets_pure ⟨hep.1, hem.1, hep.2, ?_⟩
  rw [value_one] at hem
  have hinv : Near ((1 / ep.value : ℚ) : ℝ) (Real.exp (-(x.value : ℝ))) (2 * roundingError w) := by
    rw [Real.exp_neg, Rat.cast_div, Rat.cast_one, one_div]
    exact hep.2.inv
  exact ((near_of_rounds (one_div_pos.mpr hep0) hem.2).trans hinv).mono (by linarith)

theorem coshWorking_spec {x : Decimal} (hx : x.Tame) :
    (coshWorking x w).Meets (fun c => c.Tame ∧
      Near c.value (Real.cosh x.value) (5 * roundingError w)) (fun _ => True) := by
  have hw20 : w.digits < 2 ^ 20 := by omega
  have hε := (roundingError_pos w).le
  unfold coshWorking
  refine meets_bind (expPair_spec hw hw' hx) fun r hr => ?_
  obtain ⟨ep, em⟩ := r
  obtain ⟨hep, hem, hepn, hemn⟩ := hr
  have hsum0 : (0 : ℚ) < ep.value + em.value := by
    have h1 : (0 : ℚ) < ep.value := by exact_mod_cast hepn.1
    have h2 : (0 : ℚ) < em.value := by exact_mod_cast hemn.1
    linarith
  refine meets_bind ((add_spec hep hem hw20).mono (fun t h => h) fun _ _ => trivial)
    fun S hS => ?_
  have hSn : Near S.value (Real.exp x.value + Real.exp (-(x.value : ℝ)))
      (roundingError w + 3 * roundingError w) := by
    refine (near_of_rounds hsum0 hS.2).trans ?_
    rw [Rat.cast_add]
    exact (hepn.mono (by linarith)).add hemn
  have hS0 : (0 : ℚ) < S.value := by exact_mod_cast hSn.1
  refine (div_spec hS.1 tame_two (by decide) hw20).mono (fun c hc => ⟨hc.1, ?_⟩)
    fun _ _ => trivial
  rw [value_two] at hc
  have hhalf : Near ((S.value / 2 : ℚ) : ℝ) (Real.cosh x.value)
      (roundingError w + 3 * roundingError w + 0) := by
    rw [Real.cosh_eq, Rat.cast_div, Rat.cast_ofNat]
    exact hSn.div (Near.refl two_pos)
  exact ((near_of_rounds (by positivity) hc.2).trans hhalf).mono (by linarith)

/-- From one on, the working hyperbolic sine `(e^x - e^-x)/2` is within sixteen roundings of
`sinh x`, relatively. -/
theorem sinhExp_spec {x : Decimal} (hx : x.Tame) (hx1 : 1 ≤ |(x.value : ℝ)|) :
    (expPair x w >>= fun r => do (← r.1.sub r.2 w).div 2 w).Meets (fun s => s.Tame ∧
      |(s.value : ℝ) - Real.sinh x.value| ≤ 16 * roundingError w * |Real.sinh x.value|)
      (fun _ => True) := by
  have hw20 : w.digits < 2 ^ 20 := by omega
  have hε := (roundingError_pos w).le
  have hε10 := roundingError_le_of_eleven hw
  have hε1 : roundingError w ≤ 1 / 1000 := hε10.trans (by norm_num)
  refine meets_bind (expPair_spec hw hw' hx) fun r hr => ?_
  obtain ⟨hep, hem, hepn, hemn⟩ := hr
  set A := |Real.sinh x.value|
  have hcosh := cosh_le_two_mul_abs_sinh hx1
  -- the difference is within `24 ε |sinh x|` of `2 sinh x`
  have hD : |((r.1.value - r.2.value : ℚ) : ℝ) - 2 * Real.sinh x.value| ≤
      24 * roundingError w * A := by
    have h1 := hepn.abs_sub_le (by linarith)
    have h2 := hemn.abs_sub_le (by linarith)
    have hsplit : ((r.1.value - r.2.value : ℚ) : ℝ) - 2 * Real.sinh x.value =
        ((r.1.value : ℝ) - Real.exp x.value) - ((r.2.value : ℝ) - Real.exp (-(x.value : ℝ))) := by
      rw [Real.sinh_eq]
      push_cast
      ring
    have hsum : Real.exp x.value + Real.exp (-(x.value : ℝ)) = 2 * Real.cosh x.value := by
      rw [Real.cosh_eq]
      ring
    rw [hsplit]
    calc |((r.1.value : ℝ) - Real.exp x.value) - ((r.2.value : ℝ) - Real.exp (-(x.value : ℝ)))|
        ≤ |(r.1.value : ℝ) - Real.exp x.value| + |(r.2.value : ℝ) - Real.exp (-(x.value : ℝ))| :=
          abs_sub _ _
      _ ≤ 2 * (2 * roundingError w) * Real.exp x.value +
            2 * (3 * roundingError w) * Real.exp (-(x.value : ℝ)) := add_le_add h1 h2
      _ ≤ 6 * roundingError w * (2 * Real.cosh x.value) := by
          rw [← hsum]
          nlinarith [Real.exp_pos (x.value : ℝ), Real.exp_pos (-(x.value : ℝ))]
      _ ≤ 24 * roundingError w * A := by nlinarith
  refine meets_bind ((sub_spec hep hem hw20).mono (fun t h => h) fun _ _ => trivial)
    fun D hD' => ?_
  have hDr := abs_rounded_sub_le hD'.2 hD
  rw [abs_mul, abs_two] at hDr
  refine (div_spec hD'.1 tame_two (by decide) hw20).mono (fun s hs => ⟨hs.1, ?_⟩)
    fun _ _ => trivial
  rw [value_two] at hs
  -- halving is exact: the quotient is within half that error of `sinh x`
  have hhalf : |((D.value / 2 : ℚ) : ℝ) - Real.sinh x.value| ≤
      (roundingError w * (2 * A + 24 * roundingError w * A) + 24 * roundingError w * A) / 2 := by
    rw [Rat.cast_div, Rat.cast_ofNat, show (D.value : ℝ) / 2 - Real.sinh x.value =
      ((D.value : ℝ) - 2 * Real.sinh x.value) / 2 by ring, abs_div, abs_two]
    exact div_le_div_of_nonneg_right hDr (by norm_num)
  have hs' := abs_rounded_sub_le hs.2 hhalf
  have hA := abs_nonneg (Real.sinh x.value)
  refine hs'.trans ?_
  nlinarith [mul_nonneg hε hA, mul_nonneg (mul_nonneg hε hε) hA]

theorem sinhWorking_spec {x : Decimal} (hx : x.Tame) (hx0 : x.value ≠ 0) :
    (sinhWorking x w).Meets (fun s => s.Tame ∧
      |(s.value : ℝ) - Real.sinh x.value| ≤ 3 * 10 ^ (6 - (w.digits : ℤ)) * |Real.sinh x.value|)
      (fun _ => True) := by
  have hunit : roundingError w = 10 ^ (-5 : ℤ) * 10 ^ (6 - (w.digits : ℤ)) := by
    rw [roundingError_def, ← zpow_add₀ (by norm_num)]
    ring_nf
  have hU : (0 : ℝ) < 10 ^ (6 - (w.digits : ℤ)) := by positivity
  have hA := abs_nonneg (Real.sinh x.value)
  unfold sinhWorking
  refine meets_ite (fun h1 => ?_) fun h1 => ?_
  · -- below one, the series
    rw [lt_iff_of_tame hx.abs tame_one, value_abs, value_one] at h1
    refine (sinhSeries_spec hx hx0 h1 hw (by omega)).mono (fun s hs => ⟨hs.1, hs.2.trans ?_⟩)
      fun _ _ => trivial
    have hsum : 2 * sinhSumError w ≤ 3 * 10 ^ (6 - (w.digits : ℤ)) := by
      have hF : 3 * (seriesFuel w : ℝ) + 2 ≤ 135000 := by
        have : 3 * seriesFuel w + 2 ≤ 135000 := by unfold seriesFuel; omega
        exact_mod_cast this
      have h5 : (10 : ℝ) ^ (-5 : ℤ) = 1 / 100000 := by norm_num
      rw [sinhSumError_eq, hunit, h5]
      nlinarith [mul_le_mul_of_nonneg_right hF hU.le]
    exact mul_le_mul_of_nonneg_right hsum hA
  · -- from one on, the exponentials
    rw [lt_iff_of_tame hx.abs tame_one, value_abs, value_one, not_lt] at h1
    have h1' : 1 ≤ |(x.value : ℝ)| := by exact_mod_cast h1
    refine (sinhExp_spec hw hw' hx h1').mono (fun s hs => ⟨hs.1, hs.2.trans ?_⟩)
      fun _ _ => trivial
    rw [hunit]
    have : (10 : ℝ) ^ (-5 : ℤ) = 1 / 100000 := by norm_num
    rw [this]
    nlinarith [mul_nonneg hU.le hA]

end Working

/-! The hyperbolic functions at the asked precision -/

theorem finish_faithful {s : Decimal} (hs : s.Tame) {p : Precision} (hp : p.digits < 2 ^ 20)
    {y t : ℝ} (hy : y ≠ 0) (ht : t ≤ 10 ^ (-(p.digits : ℤ)) / 4)
    (hsy : |(s.value : ℝ) - y| ≤ t * |y|) :
    (finish s p).Meets (fun v => |(v.value : ℝ) - y| < 10 ^ (Int.log 10 |y| + 1 - p.digits))
      (fun _ => True) :=
  (finish_spec hs hp).mono (fun v hv => by
    rw [hv.2]
    exact abs_roundSig_sub_lt p.digits_pos hy ht hsy) fun _ _ => trivial

theorem working_units_le {p w : Precision} (hwd : w.digits = p.digits + 10) {c : ℝ}
    (hc : c ≤ 2500) : c * 10 ^ (6 - (w.digits : ℤ)) ≤ 10 ^ (-(p.digits : ℤ)) / 4 := by
  rw [hwd, show (6 : ℤ) - ((p.digits + 10 : ℕ) : ℤ) = -(p.digits : ℤ) + -4 by push_cast; ring,
    zpow_add₀ (by norm_num)]
  have hP : (0 : ℝ) < 10 ^ (-(p.digits : ℤ)) := by positivity
  have h4 : (10 : ℝ) ^ (-4 : ℤ) = 1 / 10000 := by norm_num
  rw [h4]
  nlinarith

section Asked

variable {p : Precision} (hp : p.digits ≤ Gateway.maxPrecision)
include hp

theorem sinh_faithful {x : Decimal} (hx : x.Tame) :
    (sinh x p).Meets (fun v => (x.value = 0 → v.value = 0) ∧
      |(v.value : ℝ) - Real.sinh x.value| <
        10 ^ (Int.log 10 |Real.sinh x.value| + 1 - p.digits)) (fun _ => True) := by
  have hwd := widen_guard_digits hp
  have hp' : p.digits ≤ 10000 := hp
  have hp1 := p.digits_pos
  unfold sinh
  refine meets_ite (fun h0 => meets_pure ⟨fun _ => value_zero, ?_⟩) fun h0 => ?_
  · rw [value_zero, value_eq_zero_iff.mpr h0]
    simp only [Rat.cast_zero, Real.sinh_zero, sub_zero, abs_zero]
    positivity
  have hx0 : x.value ≠ 0 := value_eq_zero_iff.not.mpr h0
  have hsinh : Real.sinh x.value ≠ 0 := by
    rw [Ne, Real.sinh_eq_zero]
    exact_mod_cast hx0
  refine meets_bind (sinhWorking_spec (w := p.widen guardDigits) (by omega) (by omega) hx hx0)
    fun s hs => ?_
  exact (finish_faithful hs.1 (by omega) hsinh (working_units_le hwd (by norm_num)) hs.2).mono
    (fun v hv => ⟨fun h => absurd h hx0, hv⟩) fun _ _ => trivial

theorem cosh_faithful {x : Decimal} (hx : x.Tame) :
    (cosh x p).Meets (fun v => |(v.value : ℝ) - Real.cosh x.value| <
        10 ^ (Int.log 10 |Real.cosh x.value| + 1 - p.digits)) (fun _ => True) := by
  have hwd := widen_guard_digits hp
  have hp' : p.digits ≤ 10000 := hp
  have hp1 := p.digits_pos
  unfold cosh
  refine meets_ite (fun h0 => meets_pure ?_) fun h0 => ?_
  · rw [value_one, value_eq_zero_iff.mpr h0]
    simp only [Rat.cast_zero, Real.cosh_zero, Rat.cast_one, sub_self, abs_zero]
    positivity
  refine meets_bind (coshWorking_spec (w := p.widen guardDigits) (by omega) (by omega) hx)
    fun c hc => ?_
  have hcosh := Real.cosh_pos (x.value : ℝ)
  have hε : roundingError (p.widen guardDigits) =
      10 ^ (-5 : ℤ) * 10 ^ (6 - ((p.widen guardDigits).digits : ℤ)) := by
    rw [roundingError_def, ← zpow_add₀ (by norm_num)]
    ring_nf
  have hclose : |(c.value : ℝ) - Real.cosh x.value| ≤
      1 * 10 ^ (6 - ((p.widen guardDigits).digits : ℤ)) * |Real.cosh x.value| := by
    refine (hc.2.abs_sub_le ?_).trans ?_
    · rw [hε]
      have : (10 : ℝ) ^ (6 - ((p.widen guardDigits).digits : ℤ)) ≤ 1 :=
        zpow_le_one_of_nonpos₀ (by norm_num) (by omega)
      have h5 : (10 : ℝ) ^ (-5 : ℤ) = 1 / 100000 := by norm_num
      rw [h5]
      nlinarith
    · rw [abs_of_pos hcosh, hε]
      have h5 : (10 : ℝ) ^ (-5 : ℤ) = 1 / 100000 := by norm_num
      rw [h5]
      have hU : (0 : ℝ) < 10 ^ (6 - ((p.widen guardDigits).digits : ℤ)) := by positivity
      nlinarith
  exact finish_faithful hc.1 (by omega) hcosh.ne' (working_units_le hwd (by norm_num)) hclose

end Asked

/-! The saturation of `tanh` -/

theorem one_sub_tanh_lt (X : ℝ) : 1 - Real.tanh X < 2 * Real.exp (-(2 * X)) := by
  have hcosh := Real.cosh_pos X
  have hgap : 1 - Real.tanh X = Real.exp (-X) / Real.cosh X := by
    rw [Real.tanh_eq_sinh_div_cosh, ← Real.cosh_sub_sinh]
    field_simp
  have hhalf : Real.exp X / 2 < Real.cosh X := by
    rw [Real.cosh_eq]
    linarith [Real.exp_pos (-X)]
  have hsq : Real.exp (-(2 * X)) * Real.exp X = Real.exp (-X) := by
    rw [← Real.exp_add]
    ring_nf
  rw [hgap, div_lt_iff₀ hcosh]
  nlinarith [Real.exp_pos X, Real.exp_pos (-(2 * X))]

theorem two_mul_ten_pow_lt_exp {p : ℕ} (hp : p ≤ 63) :
    2 * (10 : ℝ) ^ p < Real.exp (2 * p + 20) := by
  have h146 : 2 * (10 : ℝ) ^ 63 < Real.exp 146 := by
    have he := Real.exp_one_gt_d9
    calc 2 * (10 : ℝ) ^ 63 < (2.7182818283 : ℝ) ^ 146 := by norm_num
      _ ≤ Real.exp 1 ^ 146 := pow_le_pow_left₀ (by norm_num) he.le 146
      _ = Real.exp 146 := by rw [← Real.exp_nat_mul]; norm_num
  have he2 : Real.exp 2 ≤ 10 := by
    have he := Real.exp_one_lt_d9
    calc Real.exp 2 = Real.exp 1 ^ 2 := by rw [← Real.exp_nat_mul]; norm_num
      _ ≤ (2.7182818286 : ℝ) ^ 2 := pow_le_pow_left₀ (Real.exp_pos 1).le he.le 2
      _ ≤ 10 := by norm_num
  set k := 63 - p
  have hpk : p + k = 63 := by omega
  have hk : Real.exp 2 ^ k ≤ 10 ^ k := pow_le_pow_left₀ (Real.exp_pos 2).le he2 k
  have hsplit : Real.exp (2 * p + 20) * Real.exp 2 ^ k = Real.exp 146 := by
    rw [← Real.exp_nat_mul, ← Real.exp_add]
    congr 1
    have : (p : ℝ) + k = 63 := by exact_mod_cast hpk
    linarith
  have h146' : 2 * (10 : ℝ) ^ p * 10 ^ k < Real.exp (2 * p + 20) * Real.exp 2 ^ k := by
    rw [hsplit, mul_assoc, ← pow_add, hpk]
    exact h146
  have hle := mul_le_mul_of_nonneg_left hk (Real.exp_pos (2 * (p : ℝ) + 20)).le
  exact lt_of_mul_lt_mul_right (h146'.trans_le hle) (by positivity)

/-- Past `X ≥ 6p/5 + 1/2`, `e ^ (2X)` exceeds `2 · 10 ^ p` at every `p`, since `10 ^ 5 < e ^ 12`. -/
theorem two_mul_ten_pow_lt_exp_of_le {X : ℝ} {p : ℕ} (hX : 6 / 5 * (p : ℝ) + 1 / 2 ≤ X) :
    2 * (10 : ℝ) ^ p < Real.exp (2 * X) := by
  have h12 : (10 : ℝ) ^ 5 < Real.exp 12 := by
    calc (10 : ℝ) ^ 5 < (2.7182818283 : ℝ) ^ 12 := by norm_num
      _ ≤ Real.exp 1 ^ 12 := pow_le_pow_left₀ (by norm_num) Real.exp_one_gt_d9.le 12
      _ = Real.exp 12 := by rw [← Real.exp_nat_mul]; norm_num
  -- compare fifth powers: `(10 ^ p) ^ 5 = (10 ^ 5) ^ p` and `(e ^ (12p/5)) ^ 5 = (e ^ 12) ^ p`
  have h5 : ((10 : ℝ) ^ p) ^ 5 ≤ Real.exp (12 / 5 * p) ^ 5 :=
    calc ((10 : ℝ) ^ p) ^ 5 = ((10 : ℝ) ^ 5) ^ p := by rw [← pow_mul, ← pow_mul, Nat.mul_comm]
      _ ≤ Real.exp 12 ^ p := pow_le_pow_left₀ (by norm_num) h12.le p
      _ = Real.exp (12 / 5 * p) ^ 5 := by
        rw [← Real.exp_nat_mul, ← Real.exp_nat_mul]
        congr 1
        push_cast
        ring
  have hpow := le_of_pow_le_pow_left₀ (by norm_num) (Real.exp_pos _).le h5
  have htwo : (2 : ℝ) < Real.exp 1 := by linarith [Real.exp_one_gt_d9]
  calc 2 * (10 : ℝ) ^ p < Real.exp 1 * Real.exp (12 / 5 * p) :=
        mul_lt_mul htwo hpow (by positivity) (Real.exp_pos 1).le
    _ = Real.exp (1 + 12 / 5 * p) := (Real.exp_add _ _).symm
    _ ≤ Real.exp (2 * X) := Real.exp_le_exp.mpr (by linarith)

/-- Where `e ^ (2X)` exceeds `2 · 10 ^ p`, `1` is a faithful `tanh X` to `p` digits. -/
theorem one_faithful_tanh {X : ℝ} {p : ℕ} (hp : 1 ≤ p) (hX : 2 * (10 : ℝ) ^ p < Real.exp (2 * X)) :
    |1 - Real.tanh X| < 10 ^ (Int.log 10 |Real.tanh X| + 1 - p) := by
  have hgap := one_sub_tanh_lt X
  have hlt := Real.tanh_lt_one X
  have hpow : (10 : ℝ) ^ (-(p : ℤ)) * 10 ^ p = 1 := by
    rw [zpow_neg, zpow_natCast, inv_mul_cancel₀ (by positivity)]
  have hinv : Real.exp (-(2 * X)) * Real.exp (2 * X) = 1 := by
    rw [← Real.exp_add, neg_add_cancel, Real.exp_zero]
  -- `1 - tanh X < 2 e ^ (-2X) < 10 ^ -p`
  have hsmall : 1 - Real.tanh X < 10 ^ (-(p : ℤ)) := by
    have h1 : 2 * Real.exp (-(2 * X)) < 10 ^ (-(p : ℤ)) := by
      nlinarith [Real.exp_pos (-(2 * X)), Real.exp_pos (2 * X),
        pow_pos (show (0 : ℝ) < 10 by norm_num) p,
        zpow_pos (show (0 : ℝ) < 10 by norm_num) (-(p : ℤ))]
    linarith
  have htenth : (1 / 10 : ℝ) ≤ Real.tanh X := by
    have h : (10 : ℝ) ^ (-(p : ℤ)) ≤ 10 ^ (-1 : ℤ) := zpow_le_zpow_right₀ (by norm_num) (by omega)
    rw [show (10 : ℝ) ^ (-1 : ℤ) = 1 / 10 by norm_num] at h
    linarith
  have hlog : -1 ≤ Int.log 10 |Real.tanh X| := by
    rw [abs_of_pos (by linarith)]
    exact (Int.zpow_le_iff_le_log (b := 10) (by norm_num) (by linarith)).mp (by
      push_cast
      norm_num
      exact htenth)
  rw [abs_of_pos (by linarith)]
  calc 1 - Real.tanh X < 10 ^ (-(p : ℤ)) := hsmall
    _ ≤ 10 ^ (Int.log 10 |Real.tanh X| + 1 - p) := zpow_le_zpow_right₀ (by norm_num) (by omega)

section Tangent

variable {p : Precision} (hp : p.digits ≤ Gateway.maxPrecision)
include hp

/-- The hyperbolic tangent of a working value, at every precision the calculator takes, is zero
at zero; whenever it is computed with `|x| ≤ p + 10`, with at most sixty-three digits, or with
`|x| ≥ 6p/5 + 1/2`, it is faithful. -/
theorem tanh_faithful {x : Decimal} (hx : x.Tame) :
    (tanh x p).Meets (fun v => (x.value = 0 → v.value = 0) ∧
      ((|(x.value : ℝ)| ≤ p.digits + 10 ∨ p.digits ≤ 63 ∨
          6 / 5 * p.digits + 1 / 2 ≤ |(x.value : ℝ)|) →
        |(v.value : ℝ) - Real.tanh x.value| <
          10 ^ (Int.log 10 |Real.tanh x.value| + 1 - p.digits))) (fun _ => True) := by
  have hwd := widen_guard_digits hp
  have hp' : p.digits ≤ 10000 := hp
  have hp1 := p.digits_pos
  unfold tanh
  refine meets_ite (fun h0 => meets_pure ⟨fun _ => value_zero, fun _ => ?_⟩) fun h0 => ?_
  · rw [value_zero, value_eq_zero_iff.mpr h0]
    simp only [Rat.cast_zero, Real.tanh_zero, sub_zero, abs_zero]
    positivity
  have hx0 : x.value ≠ 0 := value_eq_zero_iff.not.mpr h0
  have hwt : (ofInt ((p.widen guardDigits).digits : ℤ)).Tame :=
    tame_ofInt (by rw [Int.natAbs_natCast, hwd, pow10_eq_pow]; omega)
  refine meets_ite (fun hbig => meets_pure ⟨fun h => absurd h hx0, fun hcase => ?_⟩)
    fun hbig => ?_
  · -- the shortcut past `|x| > p + 10`, faithful up to sixty-three digits and far enough out
    rw [lt_iff_of_tame hwt hx.abs, value_ofInt, value_abs, hwd] at hbig
    have hbig' : (p.digits : ℝ) + 10 < |(x.value : ℝ)| := by exact_mod_cast hbig
    have hexp : 2 * (10 : ℝ) ^ p.digits < Real.exp (2 * |(x.value : ℝ)|) := by
      rcases hcase.resolve_left (not_le.mpr hbig') with hp63 | hfar
      · exact (two_mul_ten_pow_lt_exp hp63).trans (Real.exp_lt_exp.mpr (by linarith))
      · exact two_mul_ten_pow_lt_exp_of_le hfar
    split_ifs with hneg
    · have hxneg : (x.value : ℝ) < 0 := by exact_mod_cast isNeg_iff.mp hneg
      rw [abs_of_neg hxneg] at hexp
      have h := one_faithful_tanh hp1 hexp
      rw [Real.tanh_neg, abs_neg, sub_neg_eq_add] at h
      rw [value_neg, value_one, Rat.cast_neg, Rat.cast_one, show (-1 : ℝ) - Real.tanh x.value =
        -(1 + Real.tanh x.value) by ring, abs_neg]
      exact h
    · have hxpos : 0 ≤ (x.value : ℝ) := by exact_mod_cast not_lt.mp (isNeg_iff.not.mp hneg)
      rw [abs_of_nonneg hxpos] at hexp
      rw [value_one, Rat.cast_one]
      exact one_faithful_tanh hp1 hexp
  -- `sinh x / cosh x` from the two working values
  set w := p.widen guardDigits
  refine meets_bind (sinhWorking_spec (w := w) (by omega) (by omega) hx hx0) fun s hs => ?_
  refine meets_bind (coshWorking_spec (w := w) (by omega) (by omega) hx) fun c hc => ?_
  have hc0 : (0 : ℚ) < c.value := by exact_mod_cast hc.2.1
  refine meets_bind ((div_spec hs.1 hc.1 (value_eq_zero_iff.not.mp hc0.ne') (by omega)).mono
    (fun t h => h) fun _ _ => trivial) fun q hq => ?_
  have htanh : Real.tanh x.value ≠ 0 := by
    rw [Real.tanh_eq_sinh_div_cosh]
    exact div_ne_zero (by rw [Ne, Real.sinh_eq_zero]; exact_mod_cast hx0)
      (Real.cosh_pos _).ne'
  set U : ℝ := 10 ^ (6 - (w.digits : ℤ)) with hUdef
  have hU : 0 < U := by positivity
  have hU1 : U ≤ 1 / 100000 := by
    have h := zpow_le_zpow_right₀ (by norm_num : (1 : ℝ) ≤ 10)
      (show 6 - (w.digits : ℤ) ≤ -5 by omega)
    rw [← hUdef] at h
    norm_num at h
    exact h
  have hε : roundingError w = U / 100000 := by
    rw [roundingError_def, hUdef, show (1 : ℤ) - w.digits = -5 + (6 - w.digits) by ring,
      zpow_add₀ (by norm_num)]
    norm_num
    ring
  have hT := abs_nonneg (Real.tanh x.value)
  have hdiv := abs_div_sub_le_of_near hs.2 (by positivity) (by linarith) hc.2
    (by rw [hε]; linarith)
  rw [← Real.tanh_eq_sinh_div_cosh, ← Rat.cast_div] at hdiv
  have hclose := abs_rounded_sub_le hq.2 hdiv
  refine (finish_faithful hq.1 (by omega) htanh (working_units_le hwd (c := 4) (by norm_num))
    (hclose.trans ?_)).mono (fun v hv => ⟨fun h => absurd h hx0, fun _ => hv⟩) fun _ _ => trivial
  rw [hε]
  nlinarith [mul_nonneg hU.le hT, mul_nonneg (mul_nonneg hU.le hU.le) hT]

end Tangent

/-- The hyperbolic functions of a working value, at every precision the calculator takes:
`sinh` and `cosh` are faithful whenever they are computed, `sinh` and `tanh` are zero at zero,
and `tanh` is faithful when `|x| ≤ p + 10`, when the precision is at most sixty-three digits, or
when `|x| ≥ 6p/5 + 1/2`. -/
theorem hyperbolic_faithful {x : Decimal} (hx : x.Tame) {p : Precision}
    (hp : p.digits ≤ Gateway.maxPrecision) :
    (∀ v, sinh x p = .ok v → (x.value = 0 → v.value = 0) ∧
      |(v.value : ℝ) - Real.sinh x.value| <
        10 ^ (Int.log 10 |Real.sinh x.value| + 1 - p.digits)) ∧
    (∀ v, cosh x p = .ok v →
      |(v.value : ℝ) - Real.cosh x.value| <
        10 ^ (Int.log 10 |Real.cosh x.value| + 1 - p.digits)) ∧
    (∀ v, tanh x p = .ok v → (x.value = 0 → v.value = 0) ∧
      ((|(x.value : ℝ)| ≤ p.digits + 10 ∨ p.digits ≤ 63 ∨
          6 / 5 * p.digits + 1 / 2 ≤ |(x.value : ℝ)|) →
        |(v.value : ℝ) - Real.tanh x.value| <
          10 ^ (Int.log 10 |Real.tanh x.value| + 1 - p.digits))) :=
  ⟨fun _ hv => (sinh_faithful hp hx).of_ok hv, fun _ hv => (cosh_faithful hp hx).of_ok hv,
    fun _ hv => (tanh_faithful hp hx).of_ok hv⟩

theorem hyperbolic_faithful_two :
    (2 : Decimal).Tame ∧ (⟨10, by decide, by decide⟩ : Precision).digits ≤ Gateway.maxPrecision ∧
      ((∀ v, sinh 2 ⟨10, by decide, by decide⟩ = .ok v → ((2 : Decimal).value = 0 → v.value = 0) ∧
        |(v.value : ℝ) - Real.sinh (2 : Decimal).value| <
          10 ^ (Int.log 10 |Real.sinh (2 : Decimal).value| + 1 - 10)) ∧
      (∀ v, cosh 2 ⟨10, by decide, by decide⟩ = .ok v →
        |(v.value : ℝ) - Real.cosh (2 : Decimal).value| <
          10 ^ (Int.log 10 |Real.cosh (2 : Decimal).value| + 1 - 10)) ∧
      (∀ v, tanh 2 ⟨10, by decide, by decide⟩ = .ok v → ((2 : Decimal).value = 0 → v.value = 0) ∧
        ((|((2 : Decimal).value : ℝ)| ≤ 10 + 10 ∨ 10 ≤ 63 ∨
            6 / 5 * 10 + 1 / 2 ≤ |((2 : Decimal).value : ℝ)|) →
          |(v.value : ℝ) - Real.tanh (2 : Decimal).value| <
            10 ^ (Int.log 10 |Real.tanh (2 : Decimal).value| + 1 - 10)))) :=
  ⟨tame_two, by decide, hyperbolic_faithful tame_two (by decide)⟩

end Calculator.Elementary
