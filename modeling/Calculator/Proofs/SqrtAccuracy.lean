import Calculator.Proofs.ExpAccuracy
/-!
Accuracy of the square root. Newton's method from a value at or above the root stops exactly on
`⌊√n⌋`: every step stays at or above the root, since `(y + n / y) / 2 ≥ ⌊√n⌋` for each positive
`y`, and a step from above the root decreases. The decimal root is the integer root of the
mantissa shifted left by at least twice the working precision, so it truncates `√x` by less than
a unit of its `(p + 10)`-th digit, and the last rounding to `p` digits leaves it within two
roundings of `√x`.
-/

open Except

namespace Calculator

theorem Near.sqrt {a b t : ℝ} (h : Near a b t) : Near (Real.sqrt a) (Real.sqrt b) (t / 2) := by
  refine ⟨Real.sqrt_pos.mpr h.1, Real.sqrt_pos.mpr h.2.1, ?_⟩
  rw [Real.log_sqrt h.1.le, Real.log_sqrt h.2.1.le, ← sub_div, abs_div, abs_two]
  linarith [h.2.2]

end Calculator

namespace Calculator.Elementary

open Decimal

/-! Newton's method for the integer root -/

theorem sqrt_le_newton_step (n : ℕ) {y : ℕ} (hy : 0 < y) : Nat.sqrt n ≤ (y + n / y) / 2 := by
  set s := Nat.sqrt n
  have hs : s * s ≤ n := Nat.sqrt_le n
  have hprod : (2 * s - y) * y ≤ n := by
    rcases le_or_gt y (2 * s) with hle | hgt
    · obtain ⟨d, hd⟩ : ∃ d, 2 * s = y + d := ⟨2 * s - y, by omega⟩
      rw [show 2 * s - y = d by omega]
      nlinarith [sq_nonneg ((y : ℤ) - d)]
    · rw [show 2 * s - y = 0 by omega, zero_mul]
      exact Nat.zero_le n
  have hdiv : 2 * s - y ≤ n / y := (Nat.le_div_iff_mul_le hy).mpr hprod
  omega

theorem newtonRoot_eq_sqrt {n y : ℕ} (hy : Nat.sqrt n ≤ y) : newtonRoot n y = Nat.sqrt n := by
  fun_induction newtonRoot n y with
  | case1 y next hlt ih => exact ih (sqrt_le_newton_step n (Nat.zero_lt_of_lt hlt))
  | case2 y next hge =>
    by_contra hne
    have hgt : Nat.sqrt n < y := lt_of_le_of_ne hy (Ne.symm hne)
    have hdiv : n / y < y := (Nat.div_lt_iff_lt_mul (by omega)).mpr (Nat.sqrt_lt.mp hgt)
    have hstay : y ≤ (y + n / y) / 2 := not_lt.mp hge
    omega

theorem sqrt_lt_newtonStart (n : ℕ) : Nat.sqrt n < Nat.pow 2 ((n.log2 + 2) / 2) := by
  refine Nat.sqrt_lt'.mpr ?_
  calc n < 2 ^ (n.log2 + 1) := Nat.lt_log2_self
    _ ≤ 2 ^ (2 * ((n.log2 + 2) / 2)) := Nat.pow_le_pow_right (by norm_num) (by omega)
    _ = Nat.pow 2 ((n.log2 + 2) / 2) ^ 2 := by rw [Nat.pow_eq, ← pow_mul, mul_comm]

theorem lowerToRoot_of_le {n y : ℕ} (h : y * y ≤ n) : lowerToRoot n y = y := by
  rw [lowerToRoot, if_neg (Nat.not_lt.mpr h)]

theorem raiseToRoot_of_lt {n y : ℕ} (h : n < (y + 1) * (y + 1)) : raiseToRoot n y = y := by
  rw [raiseToRoot, if_neg (Nat.not_le.mpr h)]

theorem isqrt_eq_sqrt (n : ℕ) : isqrt n = Nat.sqrt n := by
  unfold isqrt
  split_ifs with h
  · rw [h, Nat.sqrt_zero]
  · have hstart := (sqrt_lt_newtonStart n).le
    rw [newtonRoot_eq_sqrt hstart, lowerToRoot_of_le (Nat.sqrt_le n),
      raiseToRoot_of_lt (Nat.lt_succ_sqrt n)]

/-- Newton's method from its power-of-two start stops on `⌊√n⌋` itself: the test of neither
correcting loop holds there, so both leave it, and the integer root is `⌊√n⌋`. -/
theorem newtonRoot_stops_on_floor (n : ℕ) :
    newtonRoot n (Nat.pow 2 ((n.log2 + 2) / 2)) = Nat.sqrt n ∧
      ¬n < Nat.sqrt n * Nat.sqrt n ∧ ¬(Nat.sqrt n + 1) * (Nat.sqrt n + 1) ≤ n ∧
      lowerToRoot n (Nat.sqrt n) = Nat.sqrt n ∧ raiseToRoot n (Nat.sqrt n) = Nat.sqrt n ∧
      isqrt n = Nat.sqrt n := by
  have hlow : Nat.sqrt n * Nat.sqrt n ≤ n := Nat.sqrt_le n
  have hhigh : n < (Nat.sqrt n + 1) * (Nat.sqrt n + 1) := Nat.lt_succ_sqrt n
  exact ⟨newtonRoot_eq_sqrt (sqrt_lt_newtonStart n).le, Nat.not_lt.mpr hlow, Nat.not_le.mpr hhigh,
    lowerToRoot_of_le hlow, raiseToRoot_of_lt hhigh, isqrt_eq_sqrt n⟩

example : isqrt 99 = 9 ∧ isqrt 100 = 10 := by decide +kernel

/-! The decimal root -/

theorem digitCount_sqrt_le {n e : ℕ} (he : 0 < e) (hw : (e + 1) / 2 < 2 ^ 32) (h : n < 10 ^ e) :
    digitCount (Nat.sqrt n) ≤ (e + 1) / 2 := by
  have hroot : Nat.sqrt n < pow10 ((e + 1) / 2) := by
    rw [Nat.sqrt_lt', pow10_eq_pow, ← pow_mul, mul_comm]
    calc n < 10 ^ e := h
      _ ≤ 10 ^ (2 * ((e + 1) / 2)) := Nat.pow_le_pow_right (by norm_num) (by omega)
  exact digitCount_le (by omega) hw hroot

/-- The square root of a positive decimal is the last rounding of `⌊√n⌋ · 10 ^ -k`, where
`x = n · 10 ^ -2k` and `n` has at least `2 (p + 10) - 1` digits, the mantissa of `x` shifted left
by `2k - x.scale` places, at most `2 (p + 10)`. This holds while the shift is a count below
`2 ^ 32` and the scale `2k` it makes stays a word. -/
theorem sqrt_eq_finish_root {x : Decimal} (hm : 0 < x.mantissa) {p : Precision}
    (hp : p.digits + guardDigits < 2 ^ 31) (hlow : int64Min ≤ x.scale)
    (hs : x.scale + 2 * (p.digits + guardDigits) ≤ int64Max) (hd : x.digits < 2 ^ 32) :
    ∃ (n : ℕ) (k : ℤ), sqrt x p = finish ⟨Nat.sqrt n, k⟩ p ∧
      (x.value : ℝ) = n * 10 ^ (-(2 * k)) ∧ 10 ^ (2 * (p.digits + 10) - 1) ≤ n ∧
      n < 10 ^ (x.digits + (2 * k - x.scale).toNat) ∧
      x.scale ≤ 2 * k ∧ 2 * k ≤ x.scale + 2 * (p.digits + guardDigits) := by
  unfold guardDigits at hp hs ⊢
  unfold sqrt
  rw [if_neg (by simp [isNeg]; omega)]
  beta_reduce
  rw [if_neg (by omega)]
  extract_lets w shift shift' n
  have hw : w = p.digits + 10 := by
    simp only [w, guardDigits]
    rw [low32_of_lt (by omega) (by omega)]
    omega
  have hd0 : 0 < x.digits := digitCount_pos _
  have hshift : 0 ≤ shift' ∧ shift' ≤ 2 * w ∧ 2 * w - x.digits ≤ shift' ∧
      (x.scale + shift') % 2 = 0 := by
    simp only [shift', shift]
    split_ifs <;> omega
  have hn : n = x.mantissa.toNat * pow10Word shift' := rfl
  clear_value n shift' shift w
  have hpow : pow10Word shift' = pow10 shift'.toNat := pow10Word_of_lt hshift.1 (by omega)
  have hwrap : wrap64 (x.scale + shift') = x.scale + shift' := wrap64_of_mem (by omega) (by omega)
  have hk : 2 * ((x.scale + shift') / 2) = x.scale + shift' := by omega
  have hmant : x.mantissa.toNat = x.mantissa.natAbs := Int.toNat_of_nonneg hm.le ▸ by omega
  refine ⟨n, (x.scale + shift') / 2, by rw [isqrt_eq_sqrt, hwrap], ?_, ?_, ?_, by omega, by omega⟩
  · -- `x = m · 10 ^ -s = (m · 10 ^ shift) · 10 ^ -(s + shift)`
    have hmR : ((x.mantissa.toNat : ℕ) : ℝ) = (x.mantissa : ℝ) := by
      rw [← Int.cast_natCast, Int.toNat_of_nonneg hm.le]
    have hten : ((pow10 shift'.toNat : ℕ) : ℝ) = 10 ^ shift' := by
      rw [pow10_eq_pow, Nat.cast_pow, Nat.cast_ofNat, ← zpow_natCast,
        Int.toNat_of_nonneg hshift.1]
    simp only [hn, hpow, Nat.cast_mul, hmR, hten, hk, value, Rat.cast_mul, Rat.cast_intCast,
      Rat.cast_zpow, Rat.cast_ofNat]
    rw [neg_add, zpow_add₀ (by norm_num : (10 : ℝ) ≠ 0), zpow_neg (10 : ℝ) shift']
    field_simp
  · -- the mantissa has `d` digits and is shifted by at least `2w - d` places
    have hlow : pow10 (x.digits - 1) ≤ x.mantissa.toNat := by
      rw [hmant]
      exact pow10_pred_digitCount_le (by omega) hd
    calc 10 ^ (2 * (p.digits + 10) - 1) ≤ 10 ^ (x.digits - 1 + shift'.toNat) :=
          Nat.pow_le_pow_right (by norm_num) (by omega)
      _ = pow10 (x.digits - 1) * pow10 shift'.toNat := by rw [pow10_eq_pow, pow10_eq_pow, pow_add]
      _ ≤ n := by
          simp only [hn, hpow]
          exact Nat.mul_le_mul_right _ hlow
  · -- and below `10 ^ d`, so `n` stays below `10 ^ (d + shift)`
    have hm' : x.mantissa.toNat < pow10 x.digits := by
      rw [hmant]
      exact lt_pow10_digitCount hd
    rw [show 2 * ((x.scale + shift') / 2) - x.scale = shift' by omega]
    calc n = x.mantissa.toNat * pow10 shift'.toNat := by rw [hn, hpow]
      _ < pow10 x.digits * pow10 shift'.toNat := Nat.mul_lt_mul_of_pos_right hm' (pow10_pos _)
      _ = 10 ^ (x.digits + shift'.toNat) := by rw [pow10_eq_pow, pow10_eq_pow, pow_add]

theorem sqrt_eq_finish {x : Decimal} (hx : x.Tame) (hm : 0 < x.mantissa) {p : Precision}
    (hp : p.digits < 2 ^ 20) :
    ∃ (n : ℕ) (k : ℤ), sqrt x p = finish ⟨Nat.sqrt n, k⟩ p ∧
      (x.value : ℝ) = n * 10 ^ (-(2 * k)) ∧ 10 ^ (2 * (p.digits + 10) - 1) ≤ n ∧
      (⟨Nat.sqrt n, k⟩ : Decimal).Tame := by
  have hd := hx.digits_lt
  have hs := hx.scale_lt (by omega)
  obtain ⟨n, k, heq, hval, hn, hhigh, hk1, hk2⟩ := sqrt_eq_finish_root hm (p := p)
    (by unfold guardDigits; omega) (by unfold int64Min; omega)
    (by unfold guardDigits int64Max; omega) (by omega)
  refine ⟨n, k, heq, hval, hn, ⟨?_, fun _ => show k.natAbs < 2 ^ 42 by unfold guardDigits at hk2; omega⟩⟩
  have hroot : digitCount (Nat.sqrt n) ≤ (x.digits + (2 * k - x.scale).toNat + 1) / 2 :=
    digitCount_sqrt_le (Nat.add_pos_left (digitCount_pos _) _)
      (by unfold guardDigits at hk2; omega) hhigh
  show digitCount ((Nat.sqrt n : ℕ) : ℤ).natAbs < 2 ^ 30
  rw [Int.natAbs_natCast]
  unfold guardDigits at hk2
  omega

theorem sqrt_of_mantissa_zero {x : Decimal} (hx : x.mantissa = 0) (p : Precision) :
    sqrt x p = .ok zero := by
  unfold sqrt
  rw [if_neg (by simp [isNeg, hx]), if_pos hx]
  rfl

/-- `√x` at `p` digits is within two roundings of `√x` whenever it is computed: one for the
truncated root, a unit of its `(p + 10)`-th digit, and one for the last rounding. -/
theorem sqrt_near {x : Decimal} (hx : x.Tame) (hpos : 0 < x.value) {p : Precision}
    (hp : p.digits < 2 ^ 20) :
    (sqrt x p).Meets (fun v => v.Tame ∧ Near v.value (Real.sqrt x.value) (2 * roundingError p))
      (fun _ => True) := by
  obtain ⟨n, k, heq, hval, hn, htame⟩ := sqrt_eq_finish hx (value_pos_iff.mp hpos) hp
  rw [heq]
  refine (finish_spec htame hp).mono (fun v hv => ⟨hv.1, ?_⟩) fun _ _ => trivial
  set r : Decimal := ⟨Nat.sqrt n, k⟩
  have hunit : (0 : ℝ) < 10 ^ (-k) := by positivity
  have hr : (r.value : ℝ) = Nat.sqrt n * 10 ^ (-k) := by
    simp [r, value]
  -- `⌊√n⌋ ≥ 10 ^ (p + 9)`, so one unit of it is at most `10 ^ (-p - 9)` of it
  have hroot : (10 : ℝ) ^ (p.digits + 9) ≤ Nat.sqrt n := by
    have : 10 ^ (p.digits + 9) ≤ Nat.sqrt n := by
      rw [Nat.le_sqrt, ← pow_add]
      exact le_trans (Nat.pow_le_pow_right (by norm_num) (by omega)) hn
    exact_mod_cast this
  have hsqrt : Real.sqrt x.value = Real.sqrt n * 10 ^ (-k) := by
    rw [hval, Real.sqrt_mul (Nat.cast_nonneg n), show (-(2 * k)) = -k + -k by ring,
      zpow_add₀ (by norm_num), Real.sqrt_mul_self hunit.le]
  have hlo := Real.nat_sqrt_le_real_sqrt (a := n)
  have hhi := Real.real_sqrt_lt_nat_sqrt_succ (a := n)
  have hr0 : (0 : ℝ) < Nat.sqrt n := lt_of_lt_of_le (by positivity) hroot
  have hu : (10 : ℝ) ^ (-(p.digits : ℤ) - 9) * 10 ^ (p.digits + 9) = 1 := by
    rw [← zpow_natCast, ← zpow_add₀ (by norm_num)]
    push_cast
    ring_nf
    exact zpow_zero 10
  have htrunc : Near r.value (Real.sqrt x.value) (2 * 10 ^ (-(p.digits : ℤ) - 9)) := by
    rw [hsqrt, hr]
    refine Near.of_abs_sub_le (mul_pos (lt_of_lt_of_le hr0 hlo) hunit) ?_ ?_
    · have h := zpow_le_zpow_right₀ (a := (10 : ℝ)) (by norm_num)
        (show -(p.digits : ℤ) - 9 ≤ -1 by omega)
      norm_num at h
      linarith
    · rw [← sub_mul, abs_mul, abs_of_pos hunit, abs_of_nonpos (by linarith)]
      have hsmall : Real.sqrt n - Nat.sqrt n ≤ 10 ^ (-(p.digits : ℤ) - 9) * Real.sqrt n := by
        nlinarith [zpow_pos (by norm_num : (0 : ℝ) < 10) (-(p.digits : ℤ) - 9)]
      nlinarith
  have hround : Near v.value r.value (roundingError p) :=
    near_of_rounds (by rw [← Rat.cast_pos (K := ℝ), hr]; positivity) hv.2
  refine (hround.trans htrunc).mono ?_
  have : 2 * (10 : ℝ) ^ (-(p.digits : ℤ) - 9) ≤ roundingError p := by
    rw [roundingError_def]
    have h := zpow_le_zpow_right₀ (a := (10 : ℝ)) (by norm_num)
      (show -(p.digits : ℤ) - 9 ≤ 1 - p.digits - 1 by omega)
    rw [show (1 : ℤ) - p.digits - 1 = 1 - p.digits + -1 by ring, zpow_add₀ (by norm_num)] at h
    norm_num at h
    linarith [zpow_pos (by norm_num : (0 : ℝ) < 10) (1 - (p.digits : ℤ))]
  linarith

/-! ### Correct rounding

The root before its last rounding, `⌊√n⌋ · 10 ^ -k`, is the foot of the cell of unit `10 ^ -k` that
holds `√x`, and that unit lies at least ten places below the leading digit: the last rounding of the
truncated root is the rounding of `√x` itself. -/

theorem roundSig_root_eq {x : Decimal} {n : ℕ} {k : ℤ} {p : ℕ}
    (hval : (x.value : ℝ) = n * 10 ^ (-(2 * k))) (hn : 10 ^ (2 * (p + 10) - 1) ≤ n)
    (hp : p + 9 < 2 ^ 32) (hd : (⟨Nat.sqrt n, k⟩ : Decimal).digits < 2 ^ 32) :
    ((roundSig (⟨Nat.sqrt n, k⟩ : Decimal).value p : ℚ) : ℝ) =
      roundSigReal (Real.sqrt x.value) p := by
  set R := Nat.sqrt n
  have hR : pow10 (p + 9) ≤ R := by
    rw [pow10_eq_pow, Nat.le_sqrt, ← pow_add]
    exact le_trans (Nat.pow_le_pow_right (by norm_num) (by omega)) hn
  have hRpos : (0 : ℤ) < R := by
    have := pow10_pos (p + 9)
    omega
  have hunit : (0 : ℝ) < 10 ^ (-k) := by positivity
  have hsqrt : Real.sqrt x.value = Real.sqrt n * 10 ^ (-k) := by
    rw [hval, Real.sqrt_mul (Nat.cast_nonneg n), show (-(2 * k)) = -k + -k by ring,
      zpow_add₀ (by norm_num), Real.sqrt_mul_self hunit.le]
  have hvalue : (⟨R, k⟩ : Decimal).value = ((R : ℤ) : ℚ) * 10 ^ (-k) := rfl
  have hplace : -k + p ≤ Int.log 10 (((R : ℤ) : ℚ) * 10 ^ (-k)) := by
    have hlog := log_abs_value (x := ⟨R, k⟩) (by simp only [ne_eq]; omega) hd
    rw [hvalue, abs_of_pos (by positivity)] at hlog
    have hdigits : p + 9 < (⟨R, k⟩ : Decimal).digits := by
      by_contra hle
      have := (digitCount_le_iff (n := R) (d := p + 9) (by omega) hp).mp
        (by simpa [digits] using not_lt.mp hle)
      omega
    rw [hlog]
    show -k + p ≤ ((⟨R, k⟩ : Decimal).digits : ℤ) - 1 - k
    omega
  rw [hvalue, ← roundSigReal_eq_of_mem_cell hRpos hplace, hsqrt]
  · push_cast
    exact mul_le_mul_of_nonneg_right Real.nat_sqrt_le_real_sqrt hunit.le
  · push_cast
    exact mul_lt_mul_of_pos_right Real.real_sqrt_lt_nat_sqrt_succ hunit

theorem stripZerosTo_of_scale_le {x : Decimal} (hx : x.mantissa ≠ 0) {least : ℤ}
    (h : x.scale ≤ least) : x.stripZerosTo least = x := by
  unfold stripZerosTo
  rw [if_neg hx, stripDigits, dif_neg fun hc => absurd hc.1 (not_lt.mpr h)]
  show (⟨withSignOf x.mantissa x.mantissa.natAbs, x.scale⟩ : Decimal) = x
  congr 1
  unfold withSignOf
  split_ifs <;> omega

/-- The last step of a result of more than `p` digits whose scale and the exponents of its
roundings are words: it fails only by overflow, exactly when the rounded value's leading place is
past the limit; otherwise it gives the rounded value, with at most `p` digits, a last digit zero
only at a scale of zero or below, and exactly `p` digits at a scale below zero. -/
theorem finish_rounds {r : Decimal} {p : Precision} (hr : r.mantissa ≠ 0) (hw : r.WordScale)
    (hlt : p.digits < r.digits) (hd : r.digits < 2 ^ 32)
    (hbound : (r.digits : ℤ) + p.digits - r.scale ≤ int64Max) :
    (finish r p = .error .overflow ↔
      (exponentLimit : ℤ) < |Int.log 10 (|roundSig r.value p.digits|)|) ∧
    (∀ e, finish r p = .error e → e = .overflow) ∧
    ∀ v, finish r p = .ok v → v.value = roundSig r.value p.digits ∧ v.digits ≤ p.digits ∧
      (v.mantissa % 10 = 0 → v.scale ≤ 0) ∧ (v.scale < 0 → v.digits = p.digits) := by
  have he : r.TrueExponent := by
    unfold TrueExponent
    omega
  have hscale := round_scale_mem hw he p
  have hzw : (r.round p).WordScale := hw.round p
  have hzd : (r.round p).digits = p.digits := digits_round_of_lt hlt hd
  have hz0 : (r.round p).mantissa ≠ 0 := round_mantissa_ne_zero hr p
  have hvalue : (r.round p).value = roundSig r.value p.digits := value_round hw he hd p
  unfold finish
  generalize r.round p = z at hscale hzw hzd hz0 hvalue ⊢
  have hze : z.TrueExponent := by
    unfold TrueExponent
    omega
  have hzword : z.digits < 2 ^ 32 := hzd ▸ p.digits_lt
  have hexp := exponent_stripZerosTo hzw hze hzword hz0 (show int64Min ≤ (0 : ℤ) by unfold int64Min; omega)
  have hs0 : (z.stripZerosTo 0).mantissa ≠ 0 := by
    intro h0
    have hsign := stripZerosTo_mantissa_sign z 0
    rw [h0, Int.sign_zero] at hsign
    exact hz0 (Int.sign_eq_zero_iff_zero.mp hsign.symm)
  -- the rounded exponent is no less than `-r.scale`, far from the least word
  have hmin : z.exponent ≠ int64Min := by
    rw [exponent_of_trueExponent hzw hze]
    have hhigh := hw.2
    have := p.digits_pos
    unfold int64Min
    unfold int64Max at hhigh
    omega
  refine ⟨?_, fun e he' => ?_, fun v hv => ?_⟩
  · rw [checked_eq_overflow_iff hs0 (hexp ▸ hmin), hexp, exponent_of_trueExponent hzw hze,
      ← log_abs_value hz0 hzword, hvalue]
  · have hmeets := checked_meets (z.stripZerosTo 0)
    rw [he'] at hmeets
    exact hmeets
  · obtain rfl := checked_ok hv
    refine ⟨by rw [value_stripZerosTo, hvalue], (stripZerosTo_digits_le _ _ hzword).trans hzd.le,
      stripZerosTo_scale_le hz0 0, fun hneg => ?_⟩
    -- stripping stops at scale zero, so a scale below zero was never touched
    have hmem := stripZerosTo_scale_mem z 0 hz0
    have hzs : z.scale ≤ 0 := by
      by_contra hpos
      have hmin0 : min z.scale 0 = 0 := min_eq_right (le_of_not_ge hpos)
      omega
    rw [stripZerosTo_of_scale_le hz0 hzs, hzd]

/-- The square root is correctly rounded. For a decimal whose mantissa has fewer than `2 ^ 32`
digits and whose scale leaves room for the shift of `2 (p + 10)` places, at a precision whose
doubled working digits stay below `2 ^ 32`: a negative decimal is outside the domain; otherwise the
root fails only by overflow, exactly when `√x` rounded half up to `p` significant digits has its
leading digit past the exponent limit, and else returns that rounding, with at most `p` digits, its
trailing zeros removed down to the units and no further. -/
theorem sqrt_rounds_root (x : Decimal) (p : Precision) (hw : x.WordScale)
    (hd : x.digits < 2 ^ 32) (hp : p.digits + guardDigits < 2 ^ 31)
    (hs : x.scale + 2 * (p.digits + guardDigits) ≤ int64Max) :
    (x.value < 0 → sqrt x p = .error (.outOfDomain "√" x)) ∧
    (0 ≤ x.value →
      (sqrt x p = .error .overflow ↔
        (exponentLimit : ℤ) < |Int.log 10 (|roundSigReal (Real.sqrt x.value) p.digits|)|) ∧
      (∀ e, sqrt x p = .error e → e = .overflow) ∧
      ∀ r, sqrt x p = .ok r → (r.value : ℝ) = roundSigReal (Real.sqrt x.value) p.digits ∧
        r.digits ≤ p.digits ∧ (r.mantissa % 10 = 0 → r.scale ≤ 0) ∧
        (r.scale < 0 → r.digits = p.digits)) := by
  refine ⟨fun hneg => sqrt_of_neg (value_neg_iff.mp hneg) p, fun hnn => ?_⟩
  rcases (le_of_not_gt (value_neg_iff.not.mp (not_lt.mpr hnn))).eq_or_lt with h0 | hm
  · -- the root of zero is zero, which rounds to zero
    have hzero : roundSigReal (Real.sqrt x.value) p.digits = 0 := by
      rw [value_eq_zero_iff.mpr h0.symm]
      norm_num [roundSigReal, roundAwayReal]
    rw [sqrt_of_mantissa_zero h0.symm, hzero]
    refine ⟨by simp, fun _ he => (by cases he), fun r hr => ?_⟩
    cases hr
    refine ⟨by simp [value_zero], ?_, fun _ => le_refl 0, fun h => absurd h (lt_irrefl 0)⟩
    exact digits_zero_le p
  obtain ⟨n, k, heq, hval, hn, hhigh, hk1, hk2⟩ :=
    sqrt_eq_finish_root hm hp hw.1 hs hd
  have hR : pow10 (p.digits + 9) ≤ Nat.sqrt n := by
    rw [pow10_eq_pow, Nat.le_sqrt, ← pow_add]
    exact le_trans (Nat.pow_le_pow_right (by norm_num) (by omega)) hn
  have hRdigits : p.digits < (⟨Nat.sqrt n, k⟩ : Decimal).digits := by
    by_contra hle
    have := (digitCount_le_iff (n := Nat.sqrt n) p.digits_pos p.digits_lt).mp
      (by simpa [digits] using not_lt.mp hle)
    have := pow10_le_pow10 (show p.digits ≤ p.digits + 9 by omega)
    omega
  -- the root has at most half the digits of `n`, so its exponent is a word
  have hroot : (⟨Nat.sqrt n, k⟩ : Decimal).digits ≤ (x.digits + (2 * k - x.scale).toNat + 1) / 2 := by
    simpa [digits] using digitCount_sqrt_le (Nat.add_pos_left (digitCount_pos _) _)
      (by have hd' : digitCount x.mantissa.natAbs < 2 ^ 32 := hd
          unfold guardDigits at hk2 hp; omega) hhigh
  have hlow := hw.1
  unfold guardDigits at hk2 hs hp
  unfold int64Min at hlow
  unfold int64Max at hs
  have hwr : (⟨Nat.sqrt n, k⟩ : Decimal).WordScale := by
    unfold WordScale int64Min int64Max
    constructor <;> simp only <;> omega
  have hr0 : (⟨Nat.sqrt n, k⟩ : Decimal).mantissa ≠ 0 := by
    have := pow10_pos (p.digits + 9)
    simp only [ne_eq, Nat.cast_eq_zero]
    omega
  have hbound : ((⟨Nat.sqrt n, k⟩ : Decimal).digits : ℤ) + p.digits - k ≤ int64Max := by
    unfold int64Max
    omega
  obtain ⟨hover, herr, hok⟩ := finish_rounds hr0 hwr hRdigits (by omega) hbound
  have hround := roundSig_root_eq (p := p.digits) hval hn (by omega) (by omega)
  rw [heq]
  refine ⟨by rw [hover, ← hround, log_abs_ratCast], herr, fun r hr => ?_⟩
  obtain ⟨hv, hdig, hzero, hneg⟩ := hok r hr
  exact ⟨by rw [hv, hround], hdig, hzero, hneg⟩

/-- At ten digits `√2` reads `1.414213562`, the real root rounded. -/
theorem sqrt_two_rounds :
    sqrt ⟨2, 0⟩ ⟨10, by decide, by decide⟩ = .ok ⟨1414213562, 9⟩ ∧
      roundSigReal (Real.sqrt 2) 10 = 1.414213562 := by
  have hroot : sqrt ⟨2, 0⟩ ⟨10, by decide, by decide⟩ = .ok ⟨1414213562, 9⟩ := by
    with_unfolding_all decide
  have htwo : ((⟨2, 0⟩ : Decimal).value : ℝ) = 2 := by norm_num [value]
  obtain ⟨hval, -⟩ := ((sqrt_rounds_root ⟨2, 0⟩ ⟨10, by decide, by decide⟩ (by with_unfolding_all decide)
    (by with_unfolding_all decide) (by decide) (by with_unfolding_all decide)).2 (by norm_num [value])).2.2 _ hroot
  rw [htwo] at hval
  refine ⟨hroot, ?_⟩
  rw [← hval]
  norm_num [value]

/-- The literal `1E-9223372036854775808` reads as `10 ^ (2 ^ 63)`, whose root `10 ^ (2 ^ 62)` lies
past the exponent limit, so its root fails by overflow, here at ten digits. -/
theorem sqrt_of_huge_literal_overflows :
    Decimal.ofString? "1E-9223372036854775808" = some ⟨1, int64Min⟩ ∧
      sqrt ⟨1, int64Min⟩ ⟨10, by decide, by decide⟩ = .error .overflow :=
  ⟨by with_unfolding_all decide, by with_unfolding_all decide⟩

end Calculator.Elementary
