import Calculator.Proofs.NearestRounding
/-!
Sums at a precision. The exact sum aligns both mantissas at the larger scale with exact powers of
ten (`alignedAdd`), and its value is the sum of the values.
-/

namespace Calculator

theorem log_add_bounds {g t : ℚ} {f : ℤ} (hg : g ≠ 0) (ht : |t| < 10 ^ f)
    (hf : f + 1 ≤ Int.log 10 |g|) :
    0 < |g + t| ∧ Int.log 10 |g| - 1 ≤ Int.log 10 |g + t| ∧
      Int.log 10 |g + t| ≤ Int.log 10 |g| + 1 := by
  set L := Int.log 10 |g|
  have hlo := zpow_le_of_log (abs_pos.mpr hg)
  have hhi := lt_zpow_of_log |g|
  have hsmall : (10 : ℚ) ^ f ≤ 10 ^ (L - 1) := zpow_le_zpow_right₀ (by norm_num) (by omega)
  have hL : (10 : ℚ) ^ L = 10 * 10 ^ (L - 1) := by
    rw [← zpow_one_add₀ (by norm_num)]
    ring_nf
  have hL2 : (10 : ℚ) ^ (L + 2) = 100 * 10 ^ (L - 1) * 10 := by
    rw [show L + 2 = (L - 1) + 3 by ring, zpow_add₀ (by norm_num)]
    norm_num
    ring
  have hL1 : (10 : ℚ) ^ (L + 1) = 10 * 10 ^ (L - 1) * 10 := by
    rw [show L + 1 = (L - 1) + 2 by ring, zpow_add₀ (by norm_num)]
    norm_num
    ring
  have hpow : (0 : ℚ) < 10 ^ (L - 1) := by positivity
  have hlower : (10 : ℚ) ^ (L - 1) ≤ |g + t| := by
    have := abs_sub_abs_le_abs_sub g (-t)
    rw [abs_neg, sub_neg_eq_add] at this
    linarith
  have hupper : |g + t| < (10 : ℚ) ^ (L + 2) := by
    have := abs_add_le g t
    linarith
  have hpos : 0 < |g + t| := lt_of_lt_of_le hpow hlower
  refine ⟨hpos, ?_, ?_⟩
  · have := le_log_of_zpow_le hpos hlower
    omega
  · have := log_lt_of_lt_zpow hpos hupper
    omega

theorem roundSig_add_eq_of_pos {g t t' : ℚ} {f n : ℤ} {p : ℕ} (hg : g = n * 10 ^ f)
    (hpos : 0 < g) (hplace : f + p + 1 ≤ Int.log 10 g) (ht : |t| < 10 ^ f) (ht' : |t'| < 10 ^ f)
    (hsign : 0 < t * t') : roundSig (g + t') p = roundSig (g + t) p := by
  have hf : (0 : ℚ) < 10 ^ f := by positivity
  obtain ⟨-, hlog, -⟩ := log_add_bounds hpos.ne' ht (by rw [abs_of_pos hpos]; omega)
  rw [abs_of_pos hpos] at hlog
  rcases lt_or_gt_of_ne (left_ne_zero_of_mul hsign.ne') with htneg | htpos
  · -- both addends below zero: the sums lie in the cell just under `g`
    have ht'neg : t' < 0 := by
      by_contra h
      nlinarith
    rw [abs_of_neg htneg] at ht
    rw [abs_of_neg ht'neg] at ht'
    have hcell : ((n - 1 : ℤ) : ℚ) * 10 ^ f = g - 10 ^ f := by
      rw [hg]
      push_cast
      ring
    have hq : 0 < g + t := by
      have hgf : (10 : ℚ) ^ f ≤ g :=
        le_trans (zpow_le_zpow_right₀ (by norm_num) (by omega)) (zpow_le_of_log hpos)
      linarith
    refine roundSig_eq_of_mem_cell (f := f) (n := n - 1) hq ?_ ?_ ?_ ?_ ?_
    · have := (abs_of_pos hq) ▸ hlog
      omega
    all_goals linarith
  · -- both addends above zero: the sums lie in the cell from `g`
    have ht'pos : 0 < t' := by
      by_contra h
      nlinarith
    rw [abs_of_pos htpos] at ht
    rw [abs_of_pos ht'pos] at ht'
    have hq : 0 < g + t := by linarith
    refine roundSig_eq_of_mem_cell (f := f) (n := n) hq ?_ ?_ ?_ ?_ ?_
    · have := Int.log_mono_right (b := 10) hpos (show g ≤ g + t by linarith)
      omega
    all_goals linarith

theorem roundSig_add_eq {g t t' : ℚ} {f n : ℤ} {p : ℕ} (hg : g = n * 10 ^ f) (hg0 : g ≠ 0)
    (hplace : f + p + 1 ≤ Int.log 10 |g|) (ht : |t| < 10 ^ f) (ht' : |t'| < 10 ^ f)
    (hsign : 0 < t * t') : roundSig (g + t') p = roundSig (g + t) p := by
  rcases lt_or_gt_of_ne hg0 with hneg | hpos
  · -- below zero, negate everything: rounding is odd
    have hflip : roundSig (-g + -t') p = roundSig (-g + -t) p :=
      roundSig_add_eq_of_pos (n := -n) (by rw [hg]; push_cast; ring) (neg_pos.mpr hneg)
        (by rwa [abs_of_neg hneg] at hplace) (by rwa [abs_neg]) (by rwa [abs_neg])
        (by rwa [neg_mul_neg])
    rw [← neg_add, ← neg_add, roundSig_neg, roundSig_neg] at hflip
    exact neg_injective hflip
  · exact roundSig_add_eq_of_pos hg hpos (by rwa [abs_of_pos hpos] at hplace) ht ht' hsign

end Calculator

namespace Calculator.Decimal

theorem digits_eq_log {x : Decimal} (hx : x.mantissa ≠ 0) (hd : x.digits < 2 ^ 32) :
    (x.digits : ℤ) = Int.log 10 |x.value| + 1 + x.scale := by
  rw [log_abs_value hx hd]
  ring

theorem trueExponent_of_log {x : Decimal} (hx : x.mantissa ≠ 0) (hd : x.digits < 2 ^ 32)
    (h : Int.log 10 |x.value| ≤ int64Max) : x.TrueExponent := by
  unfold TrueExponent
  rw [← log_abs_value hx hd]
  exact h

theorem eq_of_value_eq {x y : Decimal} (hd : x.digits = y.digits) (hw : x.digits < 2 ^ 32)
    (hx : x.mantissa ≠ 0) (hv : x.value = y.value) : x = y := by
  have hy : y.mantissa ≠ 0 := fun h0 => hx (value_eq_zero_iff.mp (hv.trans (value_eq_zero_iff.mpr h0)))
  have hs : x.scale = y.scale := by
    have h1 := log_abs_value hx hw
    have h2 := log_abs_value hy (hd ▸ hw)
    rw [hv] at h1
    omega
  have hm : x.mantissa = y.mantissa := by
    have hunit : (10 : ℚ) ^ (-y.scale) ≠ 0 := by positivity
    unfold value at hv
    rw [hs] at hv
    exact_mod_cast mul_right_cancel₀ hunit hv
  cases x
  cases y
  simp only at hs hm
  rw [hs, hm]

theorem round_mantissa_ne_zero {x : Decimal} (hx : x.mantissa ≠ 0) (p : Precision) :
    (x.round p).mantissa ≠ 0 := by
  intro h
  have := round_mantissa_sign x p
  rw [h, Int.sign_zero] at this
  exact hx (Int.sign_eq_zero_iff_zero.mp this.symm)

def alignedAdd (x y : Decimal) : Decimal :=
  ⟨x.mantissa * (pow10 (max x.scale y.scale - x.scale).toNat : ℤ) +
    y.mantissa * (pow10 (max x.scale y.scale - y.scale).toNat : ℤ), max x.scale y.scale⟩

theorem alignedAdd_comm (x y : Decimal) : x.alignedAdd y = y.alignedAdd x := by
  unfold alignedAdd
  rw [max_comm, add_comm]

theorem value_alignedAdd (x y : Decimal) : (x.alignedAdd y).value = x.value + y.value := by
  have hshift : ∀ z : Decimal, z.scale ≤ max x.scale y.scale →
      (z.mantissa : ℚ) * (pow10 (max x.scale y.scale - z.scale).toNat : ℕ) *
        10 ^ (-max x.scale y.scale) = z.value := by
    intro z hz
    rw [value, pow10_cast, mul_assoc, ← zpow_natCast, ← zpow_add₀ (by norm_num)]
    congr 2
    omega
  rw [value, alignedAdd]
  push_cast
  rw [add_mul, hshift x (le_max_left _ _), hshift y (le_max_right _ _)]

theorem alignedAdd_digits_le {x y : Decimal}
    (hM : max (x.digits + (max x.scale y.scale - x.scale).toNat)
      (y.digits + (max x.scale y.scale - y.scale).toNat) + 1 < 2 ^ 32) :
    (x.alignedAdd y).digits ≤
      max (x.digits + (max x.scale y.scale - x.scale).toNat)
        (y.digits + (max x.scale y.scale - y.scale).toNat) + 1 := by
  set a := (max x.scale y.scale - x.scale).toNat
  set b := (max x.scale y.scale - y.scale).toNat
  set M := max (x.digits + a) (y.digits + b)
  apply digitCount_le (by omega) hM
  show (x.mantissa * (pow10 a : ℤ) + y.mantissa * (pow10 b : ℤ)).natAbs < pow10 (M + 1)
  have hx : x.mantissa.natAbs * pow10 a < pow10 M :=
    calc x.mantissa.natAbs * pow10 a < pow10 x.digits * pow10 a :=
          Nat.mul_lt_mul_of_pos_right (lt_pow10_digitCount (show x.digits < 2 ^ 32 by omega))
            (pow10_pos _)
      _ = pow10 (x.digits + a) := (pow10_add _ _).symm
      _ ≤ pow10 M := pow10_le_pow10 (le_max_left _ _)
  have hy : y.mantissa.natAbs * pow10 b < pow10 M :=
    calc y.mantissa.natAbs * pow10 b < pow10 y.digits * pow10 b :=
          Nat.mul_lt_mul_of_pos_right (lt_pow10_digitCount (show y.digits < 2 ^ 32 by omega))
            (pow10_pos _)
      _ = pow10 (y.digits + b) := (pow10_add _ _).symm
      _ ≤ pow10 M := pow10_le_pow10 (le_max_right _ _)
  have hsum := Int.natAbs_add_le (x.mantissa * (pow10 a : ℤ)) (y.mantissa * (pow10 b : ℤ))
  rw [Int.natAbs_mul, Int.natAbs_mul, Int.natAbs_natCast, Int.natAbs_natCast] at hsum
  rw [pow10_succ]
  omega

theorem exactAdd_eq_alignedAdd {x y : Decimal} (hx : max x.scale y.scale - x.scale < 2 ^ 32)
    (hy : max x.scale y.scale - y.scale < 2 ^ 32) : x.exactAdd y = x.alignedAdd y := by
  unfold exactAdd alignedAdd
  dsimp only
  rw [pow10Word_of_lt (by omega) hx, pow10Word_of_lt (by omega) hy]

def tipAddend (big small : Decimal) (p : Precision) : Decimal :=
  let floor := min (wrap64 (big.exponent - p.digits - 3)) (wrap64 (-big.scale - 1))
  if small.exponent < floor then ⟨small.mantissa.sign, wrap64 (-floor)⟩ else small

theorem add_of_exponent_le {x y : Decimal} {p : Precision} (hx : x.mantissa ≠ 0)
    (hy : y.mantissa ≠ 0) (hle : y.exponent ≤ x.exponent) :
    x.add y p = ((x.exactAdd (tipAddend x y p)).round p).checked := by
  unfold add
  rw [if_neg hx, if_neg hy]
  extract_lets ex ey
  rw [if_pos hle]
  rfl

theorem add_of_exponent_lt {x y : Decimal} {p : Precision} (hx : x.mantissa ≠ 0)
    (hy : y.mantissa ≠ 0) (hlt : x.exponent < y.exponent) :
    x.add y p = ((y.exactAdd (tipAddend y x p)).round p).checked := by
  unfold add
  rw [if_neg hx, if_neg hy]
  extract_lets ex ey
  rw [if_neg (not_le.mpr hlt)]
  rfl

end Calculator.Decimal

namespace Calculator.Decimal

theorem alignedAdd_tip_bounds (big : Decimal) (p : Precision) {u : ℤ} (hu : u.natAbs ≤ 1)
    (hd : big.digits + p.digits + 4 < 2 ^ 32) :
    (big.alignedAdd ⟨u, -min ((big.digits : ℤ) - 1 - big.scale - p.digits - 3) (-big.scale - 1)⟩).digits ≤
      big.digits + p.digits + 4 ∧
    (big.alignedAdd ⟨u, -min ((big.digits : ℤ) - 1 - big.scale - p.digits - 3) (-big.scale - 1)⟩).scale =
      -min ((big.digits : ℤ) - 1 - big.scale - p.digits - 3) (-big.scale - 1) ∧
    0 < -min ((big.digits : ℤ) - 1 - big.scale - p.digits - 3) (-big.scale - 1) - big.scale ∧
    -min ((big.digits : ℤ) - 1 - big.scale - p.digits - 3) (-big.scale - 1) - big.scale ≤
      p.digits + 3 := by
  set F := min ((big.digits : ℤ) - 1 - big.scale - p.digits - 3) (-big.scale - 1) with hF
  have hdb : 1 ≤ (big.digits : ℤ) := by exact_mod_cast digitCount_pos big.mantissa.natAbs
  have hshift : 0 < -F - big.scale ∧ -F - big.scale ≤ p.digits + 3 := by
    rcases min_choice ((big.digits : ℤ) - 1 - big.scale - p.digits - 3) (-big.scale - 1) with
      hmin | hmin <;> rw [← hF] at hmin <;> omega
  have hmax : max big.scale (-F) = -F := max_eq_right (by omega)
  set tip : Decimal := ⟨u, -F⟩ with htip
  have htips : tip.scale = -F := rfl
  have hone : tip.digits ≤ 1 :=
    digitCount_le (by decide) (by decide) (lt_of_le_of_lt hu (by decide))
  have hM : max (big.digits + (-F - big.scale).toNat) (tip.digits + (-F - -F).toNat) ≤
      big.digits + p.digits + 3 := max_le (by omega) (by omega)
  have hle := alignedAdd_digits_le (x := big) (y := tip) (by rw [htips, hmax]; omega)
  rw [htips, hmax] at hle
  exact ⟨by omega, hmax, hshift.1, hshift.2⟩

/-- Replacing an addend that lies wholly below the floor by a unit of its sign at the floor: the
sum with the unit rounds to the precision's digits and to the exact sum rounded, and so to what
the sum with the addend itself rounds to, when that sum's digit count is a word. -/
theorem round_alignedAdd_tip {big small : Decimal} {p : Precision} (hb : big.mantissa ≠ 0)
    (hs : small.mantissa ≠ 0) (hbs : big.scale.natAbs < 2 ^ 62)
    (hss : small.scale.natAbs < 2 ^ 62) (hd : big.digits + small.digits + p.digits + 3 < 2 ^ 32)
    (hbelow : (small.digits : ℤ) - 1 - small.scale <
      min ((big.digits : ℤ) - 1 - big.scale - p.digits - 3) (-big.scale - 1)) :
    ((big.alignedAdd ⟨small.mantissa.sign,
        -min ((big.digits : ℤ) - 1 - big.scale - p.digits - 3) (-big.scale - 1)⟩).round p).value =
      roundSig (big.value + small.value) p.digits ∧
    ((big.alignedAdd ⟨small.mantissa.sign,
        -min ((big.digits : ℤ) - 1 - big.scale - p.digits - 3) (-big.scale - 1)⟩).round p).digits =
      p.digits ∧
    ((big.alignedAdd small).digits < 2 ^ 32 →
      (big.alignedAdd ⟨small.mantissa.sign,
          -min ((big.digits : ℤ) - 1 - big.scale - p.digits - 3) (-big.scale - 1)⟩).round p =
        (big.alignedAdd small).round p) := by
  set E : ℤ := (big.digits : ℤ) - 1 - big.scale with hE
  set F := min (E - p.digits - 3) (-big.scale - 1) with hF
  set tip : Decimal := ⟨small.mantissa.sign, -F⟩ with htip
  have hp := p.digits_pos
  have hds : 0 < small.digits := digitCount_pos _
  have hb0 : big.value ≠ 0 := value_eq_zero_iff.not.mpr hb
  -- `big` is a whole number of units `10 ^ (F + 1)`; `small` and the tip lie below one such unit
  have hlogb : Int.log 10 |big.value| = E := log_abs_value hb (by omega)
  have hbig : big.value =
      ((big.mantissa * (10 ^ (-big.scale - (F + 1)).toNat : ℕ) : ℤ) : ℚ) * 10 ^ (F + 1) := by
    rw [value, zpow_eq_mul_zpow (show F + 1 ≤ -big.scale by omega)]
    push_cast
    ring
  have hsmall : |small.value| < 10 ^ (F + 1) :=
    calc |small.value| < 10 ^ (Int.log 10 |small.value| + 1) := lt_zpow_of_log _
      _ ≤ 10 ^ (F + 1) :=
        zpow_le_zpow_right₀ (by norm_num) (by rw [log_abs_value hs (by omega)]; omega)
  have htipval : tip.value = small.mantissa.sign * 10 ^ F := by
    show ((small.mantissa.sign : ℤ) : ℚ) * 10 ^ (-(-F)) = _
    rw [Int.neg_neg]
  have hF1 : (10 : ℚ) ^ F < 10 ^ (F + 1) := zpow_lt_zpow_right₀ (by norm_num) (by omega)
  have hpow : (0 : ℚ) < 10 ^ F := by positivity
  have hunit : (0 : ℚ) < 10 ^ (-small.scale) := by positivity
  have htipsmall : |tip.value| < 10 ^ (F + 1) ∧ 0 < small.value * tip.value := by
    rw [htipval, value]
    rcases lt_or_gt_of_ne hs with hneg | hpos
    · have hm : (small.mantissa : ℚ) < 0 := by exact_mod_cast hneg
      rw [Int.sign_eq_neg_one_of_neg hneg]
      push_cast
      refine ⟨by rw [abs_of_neg (by linarith)]; linarith, ?_⟩
      have := mul_pos (mul_pos (neg_pos.mpr hm) hunit) hpow
      linarith [show (small.mantissa : ℚ) * 10 ^ (-small.scale) * (-1 * 10 ^ F) =
        -small.mantissa * 10 ^ (-small.scale) * 10 ^ F by ring]
    · have hm : (0 : ℚ) < small.mantissa := by exact_mod_cast hpos
      rw [Int.sign_eq_one_of_pos hpos]
      push_cast
      refine ⟨by rw [abs_of_pos (by linarith)]; linarith, ?_⟩
      have := mul_pos (mul_pos hm hunit) hpow
      linarith
  have hround := roundSig_add_eq (p := p.digits) hbig hb0 (by rw [hlogb]; omega) hsmall
    htipsmall.1 htipsmall.2
  -- both sums keep a leading place within one of `big`'s
  obtain ⟨htip0, htiplo, htiphi⟩ := log_add_bounds hb0 htipsmall.1 (by omega)
  obtain ⟨hsum0, hsumlo, hsumhi⟩ := log_add_bounds hb0 hsmall (by omega)
  rw [← value_alignedAdd] at htip0 htiplo htiphi hsum0 hsumlo hsumhi
  rw [hlogb] at htiplo htiphi hsumlo hsumhi
  have htipm : (big.alignedAdd tip).mantissa ≠ 0 := value_eq_zero_iff.not.mp (abs_pos.mp htip0)
  have hsumm : (big.alignedAdd small).mantissa ≠ 0 := value_eq_zero_iff.not.mp (abs_pos.mp hsum0)
  have htipscale : (big.alignedAdd tip).scale = max big.scale (-F) := rfl
  have hsumscale : (big.alignedAdd small).scale = max big.scale small.scale := rfl
  -- the unit sits at most `p + 3` places under `big`'s last digit: the sum with it has few digits
  have htipd : (big.alignedAdd tip).digits < 2 ^ 32 := by
    have hu : small.mantissa.sign.natAbs ≤ 1 := (Int.natAbs_sign_of_ne_zero hs).le
    exact lt_of_le_of_lt (alignedAdd_tip_bounds big p hu (by omega)).1 (by omega)
  have htipdigits := digits_eq_log htipm htipd
  -- so it has more digits than the precision, and its scale and exponent are words
  have htipw : (big.alignedAdd tip).WordScale := by
    unfold WordScale int64Min int64Max
    omega
  have htipe := trueExponent_of_log htipm htipd (by unfold int64Max; omega)
  have hvalue : ((big.alignedAdd tip).round p).value = roundSig (big.value + small.value) p.digits := by
    rw [value_round htipw htipe htipd, value_alignedAdd, hround]
  have hdigits : ((big.alignedAdd tip).round p).digits = p.digits :=
    digits_round_of_lt (by omega) htipd
  refine ⟨hvalue, hdigits, fun hsumd => ?_⟩
  have hsumdigits := digits_eq_log hsumm hsumd
  have hsumw : (big.alignedAdd small).WordScale := by
    unfold WordScale int64Min int64Max
    omega
  have hsume := trueExponent_of_log hsumm hsumd (by unfold int64Max; omega)
  apply eq_of_value_eq _ (by omega) (round_mantissa_ne_zero htipm p)
  · rw [hvalue, value_round hsumw hsume hsumd, value_alignedAdd]
  · rw [hdigits, digits_round_of_lt (by omega) hsumd]

theorem exponent_eq_of_bounds {x : Decimal} (hs : x.scale.natAbs < 2 ^ 62)
    (hd : x.digits < 2 ^ 32) : x.exponent = (x.digits : ℤ) - 1 - x.scale :=
  wrap64_of_mem (by unfold int64Min; omega) (by unfold int64Max; omega)

theorem alignedAdd_words {x y : Decimal} (hx0 : x.mantissa ≠ 0) (hy0 : y.mantissa ≠ 0)
    (hx : x.scale.natAbs < 2 ^ 62) (hy : y.scale.natAbs < 2 ^ 62)
    (hd : x.digits + y.digits < 2 ^ 32) (hsd : (x.alignedAdd y).digits < 2 ^ 32) :
    (x.alignedAdd y).WordScale ∧ (x.alignedAdd y).TrueExponent := by
  have hscale : (x.alignedAdd y).scale = max x.scale y.scale := rfl
  refine ⟨by unfold WordScale int64Min int64Max; omega, ?_⟩
  by_cases hsum : (x.alignedAdd y).mantissa = 0
  · unfold TrueExponent int64Max
    have : (x.alignedAdd y).digits = 1 := by
      show digitCount (x.alignedAdd y).mantissa.natAbs = 1
      rw [hsum, Int.natAbs_zero, digitCount_zero]
    omega
  apply trueExponent_of_log hsum hsd
  set M := max ((x.digits : ℤ) - 1 - x.scale) ((y.digits : ℤ) - 1 - y.scale)
  have hbelow : ∀ z : Decimal, z.mantissa ≠ 0 → z.digits < 2 ^ 32 →
      (z.digits : ℤ) - 1 - z.scale ≤ M → |z.value| < 10 ^ (M + 1) := by
    intro z hz hzd hzM
    calc |z.value| < 10 ^ (Int.log 10 |z.value| + 1) := lt_zpow_of_log _
      _ ≤ 10 ^ (M + 1) := zpow_le_zpow_right₀ (by norm_num) (by rw [log_abs_value hz hzd]; omega)
  have hxM := hbelow x hx0 (by omega) (le_max_left _ _)
  have hyM := hbelow y hy0 (by omega) (le_max_right _ _)
  have hpos : 0 < |(x.alignedAdd y).value| := abs_pos.mpr (value_eq_zero_iff.not.mpr hsum)
  have hM : (10 : ℚ) ^ (M + 2) = 10 * 10 ^ (M + 1) := by
    rw [show M + 2 = 1 + (M + 1) by ring, zpow_add₀ (by norm_num)]
    norm_num
  have hlt : |(x.alignedAdd y).value| < 10 ^ (M + 2) := by
    rw [value_alignedAdd]
    have := abs_add_le x.value y.value
    have : (0 : ℚ) < 10 ^ (M + 1) := by positivity
    linarith
  have := log_lt_of_lt_zpow hpos hlt
  unfold int64Max
  omega

/-- The sum as formed, with the addend it takes in place of the smaller one and the word power of
its alignment, rounds to the exact sum rounded, and to what rounding the exact sum gives when the
exact sum's digit count is a word. -/
theorem round_exactAdd_tipAddend {big small : Decimal} {p : Precision} (hb : big.mantissa ≠ 0)
    (hs : small.mantissa ≠ 0) (hbs : big.scale.natAbs < 2 ^ 62)
    (hss : small.scale.natAbs < 2 ^ 62) (hd : big.digits + small.digits + p.digits + 3 < 2 ^ 32)
    (hle : small.exponent ≤ big.exponent) :
    ((big.exactAdd (tipAddend big small p)).round p).value =
      roundSig (big.value + small.value) p.digits ∧
    ((big.alignedAdd small).digits < 2 ^ 32 →
      (big.exactAdd (tipAddend big small p)).round p = (big.alignedAdd small).round p) ∧
    (big.exactAdd (tipAddend big small p)).digits ≤ big.digits + small.digits + p.digits + 3 ∧
    (big.exactAdd (tipAddend big small p)).scale.natAbs ≤
      max big.scale.natAbs small.scale.natAbs + p.digits + 3 := by
  have hp := p.digits_pos
  have hdb : 0 < big.digits := digitCount_pos _
  have hds : 0 < small.digits := digitCount_pos _
  have hEb := exponent_eq_of_bounds hbs (by omega)
  have hEs := exponent_eq_of_bounds hss (by omega)
  -- the floor's places are true words
  have hfloor1 : wrap64 (big.exponent - p.digits - 3) =
      (big.digits : ℤ) - 1 - big.scale - p.digits - 3 := by
    rw [hEb]
    exact wrap64_of_mem (by unfold int64Min; omega) (by unfold int64Max; omega)
  have hfloor2 : wrap64 (-big.scale - 1) = -big.scale - 1 :=
    wrap64_of_mem (by unfold int64Min; omega) (by unfold int64Max; omega)
  have hfloor : min (wrap64 (big.exponent - p.digits - 3)) (wrap64 (-big.scale - 1)) =
      min ((big.digits : ℤ) - 1 - big.scale - p.digits - 3) (-big.scale - 1) := by
    rw [hfloor1, hfloor2]
  unfold tipAddend
  extract_lets floor
  have hfloor' : floor = _ := hfloor
  clear_value floor
  subst hfloor'
  split_ifs with hbelow
  · -- the tip lies one place below `big`'s last digit or three below the precision's
    rw [wrap64_of_mem (by unfold int64Min; omega) (by unfold int64Max; omega),
      exactAdd_eq_alignedAdd (by simp only; omega) (by simp only; omega)]
    obtain ⟨hvalue, -, heq⟩ := round_alignedAdd_tip hb hs hbs hss hd (by rwa [hEs] at hbelow)
    have hu : small.mantissa.sign.natAbs ≤ 1 := (Int.natAbs_sign_of_ne_zero hs).le
    obtain ⟨htd, hts, hlo, hhi⟩ := alignedAdd_tip_bounds big p hu (by omega)
    exact ⟨hvalue, heq, by omega, by rw [hts]; omega⟩
  · -- an addend not below the floor is within `p + 3` places of `big`: the sum is exact
    rw [exactAdd_eq_alignedAdd (by omega) (by omega)]
    have hsum : (big.alignedAdd small).digits ≤ big.digits + small.digits + p.digits + 3 := by
      have := alignedAdd_digits_le (x := big) (y := small) (by omega)
      omega
    have hsd : (big.alignedAdd small).digits < 2 ^ 32 := by omega
    have hscale : (big.alignedAdd small).scale = max big.scale small.scale := rfl
    refine ⟨?_, fun _ => rfl, hsum, by rw [hscale]; omega⟩
    by_cases hsum : (big.alignedAdd small).mantissa = 0
    · rw [round_of_digits_le, value_alignedAdd]
      · rw [← value_alignedAdd, value_eq_zero_iff.mpr hsum, roundSig_zero]
      · show digitCount (big.alignedAdd small).mantissa.natAbs ≤ p.digits
        rw [hsum, Int.natAbs_zero, digitCount_zero]
        exact hp
    obtain ⟨hw, he⟩ := alignedAdd_words hb hs hbs hss (by omega) hsd
    rw [value_round hw he hsd, value_alignedAdd]

theorem add_eq_round_alignedAdd {x y : Decimal} {p : Precision} (hx0 : x.mantissa ≠ 0)
    (hy0 : y.mantissa ≠ 0) (hx : x.scale.natAbs < 2 ^ 62) (hy : y.scale.natAbs < 2 ^ 62)
    (hd : x.digits + y.digits + p.digits + 3 < 2 ^ 32) (hsd : (x.alignedAdd y).digits < 2 ^ 32) :
    x.add y p = ((x.alignedAdd y).round p).checked := by
  by_cases hle : y.exponent ≤ x.exponent
  · rw [add_of_exponent_le hx0 hy0 hle, (round_exactAdd_tipAddend hx0 hy0 hx hy hd hle).2.1 hsd]
  · rw [alignedAdd_comm] at hsd ⊢
    rw [add_of_exponent_lt hx0 hy0 (not_le.mp hle),
      (round_exactAdd_tipAddend hy0 hx0 hy hx (by omega) (not_le.mp hle).le).2.1 hsd]

theorem value_add {x y r : Decimal} {p : Precision} (hx : x.scale.natAbs < 2 ^ 62)
    (hy : y.scale.natAbs < 2 ^ 62) (hd : x.digits + y.digits + p.digits + 3 < 2 ^ 32)
    (hr : x.add y p = .ok r) : r.value = roundSig (x.value + y.value) p.digits := by
  have hwords : ∀ z : Decimal, z.scale.natAbs < 2 ^ 62 → z.digits < 2 ^ 32 →
      z.WordScale ∧ z.TrueExponent := by
    intro z hz hzd
    refine ⟨by unfold WordScale int64Min int64Max; omega, ?_⟩
    unfold TrueExponent int64Max
    omega
  by_cases hx0 : x.mantissa = 0
  · have hr' : (y.round p).checked = .ok r := by
      rw [← hr]
      unfold add
      rw [if_pos hx0]
    obtain ⟨hyw, hye⟩ := hwords y hy (by omega)
    rw [checked_ok hr', value_round hyw hye (by omega), value_eq_zero_iff.mpr hx0, zero_add]
  by_cases hy0 : y.mantissa = 0
  · have hr' : (x.round p).checked = .ok r := by
      rw [← hr]
      unfold add
      rw [if_neg hx0, if_pos hy0]
    obtain ⟨hxw, hxe⟩ := hwords x hx (by omega)
    rw [checked_ok hr', value_round hxw hxe (by omega), value_eq_zero_iff.mpr hy0, add_zero]
  by_cases hle : y.exponent ≤ x.exponent
  · rw [add_of_exponent_le hx0 hy0 hle] at hr
    rw [checked_ok hr, (round_exactAdd_tipAddend hx0 hy0 hx hy hd hle).1]
  · rw [add_of_exponent_lt hx0 hy0 (not_le.mp hle)] at hr
    rw [checked_ok hr, (round_exactAdd_tipAddend hy0 hx0 hy hx (by omega) (not_le.mp hle).le).1,
      add_comm]

/-- A sum at a precision, of operands whose scales are below `2 ^ 62` in size and whose digits,
with the precision's, stay below `2 ^ 32`. For nonzero operands whose exact sum has a word digit
count it returns exactly what rounding and checking the exact sum returns, and replacing the
smaller addend, when it lies wholly below the floor, by a unit of its sign at the floor changes
nothing; every value it returns, a zero operand included, is the exact sum rounded to the
precision, a half going away from zero. A difference, the sum with the opposite, does the same. -/
theorem add_eq_aligned_round (x y : Decimal) (p : Precision) (hx : x.scale.natAbs < 2 ^ 62)
    (hy : y.scale.natAbs < 2 ^ 62) (hd : x.digits + y.digits + p.digits + 3 < 2 ^ 32) :
    (x.mantissa ≠ 0 → y.mantissa ≠ 0 →
      ((x.alignedAdd y).digits < 2 ^ 32 → x.add y p = ((x.alignedAdd y).round p).checked) ∧
        ((x.alignedAdd (-y)).digits < 2 ^ 32 →
          x.sub y p = ((x.alignedAdd (-y)).round p).checked)) ∧
    (x.mantissa ≠ 0 → y.mantissa ≠ 0 →
      y.exponent < min (x.exponent - p.digits - 3) (-x.scale - 1) →
      (x.alignedAdd y).digits < 2 ^ 32 →
      ((x.alignedAdd ⟨y.mantissa.sign, -min (x.exponent - p.digits - 3) (-x.scale - 1)⟩).round
          p).checked = ((x.alignedAdd y).round p).checked) ∧
    (∀ r, x.add y p = .ok r → r.value = roundSig (x.value + y.value) p.digits) ∧
    (∀ r, x.sub y p = .ok r → r.value = roundSig (x.value - y.value) p.digits) := by
  have hyneg : (-y).scale.natAbs < 2 ^ 62 := hy
  have hdneg : x.digits + (-y).digits + p.digits + 3 < 2 ^ 32 := by rwa [digits_neg]
  refine ⟨fun hx0 hy0 => ⟨add_eq_round_alignedAdd hx0 hy0 hx hy hd,
      add_eq_round_alignedAdd hx0 (by simpa using hy0) hx hyneg hdneg⟩,
    fun hx0 hy0 hbelow hsd => ?_, fun r hr => value_add hx hy hd hr, fun r hr => ?_⟩
  · rw [exponent_eq_of_bounds hx (by omega)] at hbelow ⊢
    rw [exponent_eq_of_bounds hy (by omega)] at hbelow
    rw [(round_alignedAdd_tip hx0 hy0 hx hy hd hbelow).2.2 hsd]
  · rw [value_add hx hyneg hdneg hr, value_neg, sub_eq_add_neg]

/-- `1.00005E+20 - 3E-10` at five digits: the small addend lies below the floor `10 ^ 12`, and the
sum rounds down from just under the half, to `1.0000E+20`. -/
theorem add_eq_aligned_round_below_half :
    (⟨100005, -15⟩ : Decimal).scale.natAbs < 2 ^ 62 ∧ (⟨-3, 10⟩ : Decimal).scale.natAbs < 2 ^ 62 ∧
      (⟨100005, -15⟩ : Decimal).digits + (⟨-3, 10⟩ : Decimal).digits + 5 + 3 < 2 ^ 32 ∧
      (⟨100005, -15⟩ : Decimal).add ⟨-3, 10⟩ ⟨5, by decide, by decide⟩ = .ok ⟨10000, -16⟩ := by
  have hd : (⟨100005, -15⟩ : Decimal).digits + (⟨-3, 10⟩ : Decimal).digits + 5 + 3 < 2 ^ 32 := by
    with_unfolding_all decide
  obtain ⟨hsum, -, -, -⟩ :=
    add_eq_aligned_round ⟨100005, -15⟩ ⟨-3, 10⟩ ⟨5, by decide, by decide⟩ (by decide) (by decide) hd
  refine ⟨by decide, by decide, hd, ?_⟩
  rw [(hsum (by decide) (by decide)).1 (by with_unfolding_all decide)]
  with_unfolding_all decide

end Calculator.Decimal
