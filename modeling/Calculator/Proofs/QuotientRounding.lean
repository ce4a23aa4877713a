import Calculator.Proofs.SumRounding
/-!
Quotients at a precision. A quotient is formed by truncating `x.mantissa · 10 ^ k / y.mantissa`,
`k` being two places more than the precision beyond what the divisor's extra digits take, so the
truncated quotient has at least `p + 2` digits. It lies in the cell of units of its last digit
that holds the exact quotient, and that cell rounds as one number: truncating never changes the
rounding (`roundSig_truncatedQuotient`). Trailing zeros are then removed down to the scale
`x.scale - y.scale`, which keeps the value.
-/

namespace Calculator

theorem roundSig_sign_mul {s : ℤ} (hs : s = 1 ∨ s = -1) (q : ℚ) (p : ℕ) :
    roundSig (s * q) p = s * roundSig q p := by
  rcases hs with rfl | rfl
  · simp
  · simp [roundSig_neg]

theorem roundSig_natDiv {a b : ℕ} {p : ℕ} (f : ℤ) (hbig : 10 ^ (p + 1) ≤ a / b) :
    roundSig (((a / b : ℕ) : ℚ) * 10 ^ f) p = roundSig ((a : ℚ) / b * 10 ^ f) p := by
  have hfloor : ⌊(a : ℚ) / b⌋ = ((a / b : ℕ) : ℤ) := Rat.floor_natCast_div_natCast a b
  have hlo := Int.floor_le ((a : ℚ) / b)
  have hhi := Int.lt_floor_add_one ((a : ℚ) / b)
  rw [hfloor, Int.cast_natCast] at hlo hhi
  have hf : (0 : ℚ) < 10 ^ f := by positivity
  have hbig' : (10 : ℚ) ^ (p + 1) ≤ ((a / b : ℕ) : ℚ) := by exact_mod_cast hbig
  have hq : (0 : ℚ) < ((a / b : ℕ) : ℚ) * 10 ^ f := by
    have : (0 : ℚ) < 10 ^ (p + 1) := by positivity
    exact mul_pos (by linarith) hf
  symm
  apply roundSig_eq_of_mem_cell (f := f) (n := ((a / b : ℕ) : ℤ)) hq
  · apply le_log_of_zpow_le hq
    rw [show f + (p : ℤ) = ((p + 1 : ℕ) : ℤ) + f - 1 by push_cast; ring, zpow_sub₀ (by norm_num),
      zpow_add₀ (by norm_num), zpow_natCast]
    have : (10 : ℚ) ^ (p + 1) * 10 ^ f / 10 ≤ 10 ^ (p + 1) * 10 ^ f := by
      have : (0 : ℚ) ≤ 10 ^ (p + 1) * 10 ^ f := by positivity
      linarith
    calc (10 : ℚ) ^ (p + 1) * 10 ^ f / 10 ≤ 10 ^ (p + 1) * 10 ^ f := this
      _ ≤ ((a / b : ℕ) : ℚ) * 10 ^ f := by gcongr
  · rw [Int.cast_natCast]
  · rw [Int.cast_natCast]
    linarith
  · rw [Int.cast_natCast]
    exact mul_le_mul_of_nonneg_right hlo hf.le
  · rw [Int.cast_natCast]
    exact mul_lt_mul_of_pos_right hhi hf

/-- A truncated quotient of integers with more than `p + 1` digits rounds, at any unit `10 ^ f`,
as the exact quotient: truncation moves toward zero by less than a unit, on either sign. -/
theorem roundSig_tdiv {n d : ℤ} {p : ℕ} (f : ℤ) (hbig : 10 ^ (p + 1) ≤ (n.tdiv d).natAbs) :
    roundSig ((n.tdiv d : ℚ) * 10 ^ f) p = roundSig ((n : ℚ) / d * 10 ^ f) p := by
  have hmag : n.natAbs / d.natAbs = (n.tdiv d).natAbs := (Int.natAbs_tdiv n d).symm
  have hpow : 0 < 10 ^ (p + 1) := by positivity
  have hd : d ≠ 0 := by
    rintro rfl
    simp at hbig
  have hnd : d.natAbs ≤ n.natAbs := by
    by_contra hlt
    rw [← hmag, Nat.div_eq_of_lt (by omega)] at hbig
    omega
  have hn : n ≠ 0 := by
    rintro rfl
    simp at hnd
    exact hd hnd
  -- both quotients are the operands' sign times their magnitudes' quotient
  have hsign : n.sign * d.sign = 1 ∨ n.sign * d.sign = -1 := by
    rcases lt_or_gt_of_ne hn with h1 | h1 <;> rcases lt_or_gt_of_ne hd with h2 | h2 <;>
      simp [Int.sign_eq_neg_one_of_neg, Int.sign_eq_one_of_pos, h1, h2]
  have htrunc : (n.tdiv d : ℚ) = ((n.sign * d.sign : ℤ) : ℚ) * ((n.natAbs / d.natAbs : ℕ) : ℚ) := by
    have h := Int.sign_mul_natAbs (n.tdiv d)
    rw [Int.sign_tdiv, if_neg (not_lt.mpr hnd), ← hmag] at h
    rw [← h, Int.cast_mul, Int.cast_natCast]
  have hexact : (n : ℚ) / d = ((n.sign * d.sign : ℤ) : ℚ) * ((n.natAbs : ℚ) / d.natAbs) := by
    have hn' : (n : ℚ) = n.sign * n.natAbs := by
      conv_lhs => rw [← Int.sign_mul_natAbs n]
      rw [Int.cast_mul, Int.cast_natCast]
    have hd' : (d : ℚ) = d.sign * d.natAbs := by
      conv_lhs => rw [← Int.sign_mul_natAbs d]
      rw [Int.cast_mul, Int.cast_natCast]
    rw [hn', hd']
    rcases lt_or_gt_of_ne hd with h | h
    · rw [Int.sign_eq_neg_one_of_neg h]
      push_cast
      ring
    · rw [Int.sign_eq_one_of_pos h]
      push_cast
      ring
  rw [htrunc, hexact, mul_assoc, mul_assoc, roundSig_sign_mul hsign, roundSig_sign_mul hsign,
    roundSig_natDiv f (by rw [hmag]; exact hbig)]

end Calculator

namespace Calculator.Decimal

/-! Removing trailing zeros -/

theorem stripDigits_value (m : ℕ) (scale least : ℤ) :
    ((stripDigits m scale least).1 : ℚ) * 10 ^ (-(stripDigits m scale least).2) =
      m * 10 ^ (-scale) := by
  fun_induction stripDigits m scale least with
  | case1 m scale hstrip ih =>
    obtain ⟨-, -, hzero⟩ := hstrip
    have hm : (m : ℚ) = ((m / 10 : ℕ) : ℚ) * 10 := by
      exact_mod_cast (Nat.div_mul_cancel (Nat.dvd_of_mod_eq_zero hzero)).symm
    rw [ih, hm, show -(scale - 1) = -scale + 1 by ring, zpow_add_one₀ (by norm_num)]
    ring
  | case2 m scale hkeep => rfl

theorem stripDigits_stops (m : ℕ) (scale least : ℤ) :
    ¬(least < (stripDigits m scale least).2 ∧ 0 < (stripDigits m scale least).1 ∧
      (stripDigits m scale least).1 % 10 = 0) := by
  fun_induction stripDigits m scale least with
  | case1 m scale hstrip ih => exact ih
  | case2 m scale hkeep => exact hkeep

theorem withSignOf_eq_sign_mul {m : ℤ} (hm : m ≠ 0) (n : ℕ) : withSignOf m n = m.sign * n := by
  unfold withSignOf
  split_ifs with hneg
  · rw [Int.sign_eq_neg_one_of_neg hneg]
    ring
  · rw [Int.sign_eq_one_of_pos (by omega)]
    ring

theorem value_stripZerosTo (x : Decimal) (least : ℤ) :
    (x.stripZerosTo least).value = x.value := by
  unfold stripZerosTo
  split_ifs with hzero
  · rw [value_eq_zero_iff.mpr hzero, value_eq_zero_iff]
    rfl
  · have hv := stripDigits_value x.mantissa.natAbs x.scale least
    rcases hstrip : stripDigits x.mantissa.natAbs x.scale least with ⟨m, s⟩
    rw [hstrip] at hv
    dsimp only at hv
    show ((withSignOf x.mantissa m : ℤ) : ℚ) * 10 ^ (-s) = x.mantissa * 10 ^ (-x.scale)
    have hm : (x.mantissa : ℚ) = x.mantissa.sign * x.mantissa.natAbs := by
      conv_lhs => rw [← Int.sign_mul_natAbs x.mantissa]
      rw [Int.cast_mul, Int.cast_natCast]
    rw [withSignOf_eq_sign_mul hzero, hm, mul_assoc, ← hv]
    push_cast
    ring

theorem stripZerosTo_scale_le {x : Decimal} (hx : x.mantissa ≠ 0) (least : ℤ)
    (hzero : (x.stripZerosTo least).mantissa % 10 = 0) : (x.stripZerosTo least).scale ≤ least := by
  have hstops := stripDigits_stops x.mantissa.natAbs x.scale least
  have hpos := stripDigits_pos (Int.natAbs_pos.mpr hx) x.scale least
  unfold stripZerosTo at hzero ⊢
  rw [if_neg hx] at hzero ⊢
  rcases hstrip : stripDigits x.mantissa.natAbs x.scale least with ⟨m, s⟩
  rw [hstrip] at hstops hpos hzero
  change withSignOf x.mantissa m % 10 = 0 at hzero
  dsimp only at hstops hpos
  show s ≤ least
  have hdigit : m % 10 = 0 := by
    unfold withSignOf at hzero
    split_ifs at hzero <;> omega
  by_contra hlt
  exact hstops ⟨not_le.mp hlt, hpos, hdigit⟩

/-! Rounding moves the scale down by at most the digits and a carry -/

theorem round_scale_mem {x : Decimal} (hw : x.WordScale) (he : x.TrueExponent) (p : Precision) :
    x.scale - x.digits - 1 ≤ (x.round p).scale ∧ (x.round p).scale ≤ x.scale := by
  have hbounds := hw
  unfold WordScale int64Min int64Max at hbounds
  unfold TrueExponent int64Max at he
  have hp := p.digits_pos
  unfold round
  extract_lets n dropped q
  split
  · omega
  · next hlong =>
    have hd : (dropped : ℤ) = (x.digits : ℤ) - p.digits := by
      show ((x.digits - p.digits : ℕ) : ℤ) = _
      omega
    have hwrap0 : wrap64 (x.scale - dropped) = x.scale - dropped :=
      wrap64_of_mem (by unfold int64Min; omega) (by unfold int64Max; omega)
    have hwrap1 : wrap64 (x.scale - dropped - 1) = x.scale - dropped - 1 :=
      wrap64_of_mem (by unfold int64Min; omega) (by unfold int64Max; omega)
    split
    · show _ ≤ wrap64 (x.scale - dropped - 1) ∧ wrap64 (x.scale - dropped - 1) ≤ _
      rw [hwrap1]
      omega
    · show _ ≤ wrap64 (x.scale - dropped) ∧ wrap64 (x.scale - dropped) ≤ _
      rw [hwrap0]
      omega

/-! The truncated quotient -/

def quotientPlaces (x y : Decimal) (p : Precision) : ℕ :=
  (max 0 ((p.digits : ℤ) + 2 + y.digits - x.digits)).toNat

def truncatedQuotient (x y : Decimal) (p : Precision) : Decimal :=
  ⟨(x.mantissa * (pow10 (quotientPlaces x y p) : ℤ)).tdiv y.mantissa,
    x.scale - y.scale + quotientPlaces x y p⟩

theorem quotientPlaces_eq (x y : Decimal) (p : Precision) :
    ((quotientPlaces x y p : ℕ) : ℤ) = max 0 ((p.digits : ℤ) + 2 + y.digits - x.digits) := by
  unfold quotientPlaces
  omega

theorem pow_le_truncatedQuotient {x y : Decimal} (hx : x.mantissa ≠ 0) (hy : y.mantissa ≠ 0)
    (hxd : x.digits < 2 ^ 32) (hyd : y.digits < 2 ^ 32) (p : Precision) :
    10 ^ (p.digits + 1) ≤ (truncatedQuotient x y p).mantissa.natAbs := by
  have hk := quotientPlaces_eq x y p
  have hdx : 0 < x.digits := digitCount_pos _
  have hxpos : 0 < x.mantissa.natAbs := Int.natAbs_pos.mpr hx
  have hypos : 0 < y.mantissa.natAbs := Int.natAbs_pos.mpr hy
  show 10 ^ (p.digits + 1) ≤
    ((x.mantissa * (pow10 (quotientPlaces x y p) : ℤ)).tdiv y.mantissa).natAbs
  rw [Int.natAbs_tdiv, Int.natAbs_mul, Int.natAbs_natCast]
  apply (Nat.le_div_iff_mul_le hypos).mpr
  have hplaces : p.digits + 1 + y.digits ≤ x.digits - 1 + quotientPlaces x y p := by omega
  calc 10 ^ (p.digits + 1) * y.mantissa.natAbs ≤ pow10 (p.digits + 1) * pow10 y.digits :=
        Nat.mul_le_mul_left _ (lt_pow10_digitCount hyd).le
    _ = pow10 (p.digits + 1 + y.digits) := (pow10_add _ _).symm
    _ ≤ pow10 (x.digits - 1 + quotientPlaces x y p) := pow10_le_pow10 hplaces
    _ = pow10 (x.digits - 1) * pow10 (quotientPlaces x y p) := pow10_add _ _
    _ ≤ x.mantissa.natAbs * pow10 (quotientPlaces x y p) :=
        Nat.mul_le_mul_right _ (pow10_pred_digitCount_le hxpos hxd)

theorem div_value_eq (x : Decimal) {y : Decimal} (hy : y.mantissa ≠ 0) (k : ℕ) :
    x.value / y.value =
      ((x.mantissa * (pow10 k : ℤ) : ℤ) : ℚ) / y.mantissa * 10 ^ (-(x.scale - y.scale + k)) := by
  have hy' : (y.mantissa : ℚ) ≠ 0 := Int.cast_ne_zero.mpr hy
  unfold value
  rw [show -x.scale = -(x.scale - y.scale + k) + k + -y.scale by ring, zpow_add₀ (by norm_num),
    zpow_add₀ (by norm_num), zpow_natCast]
  push_cast [pow10_cast]
  field_simp

theorem roundSig_truncatedQuotient {x y : Decimal} (hx : x.mantissa ≠ 0) (hy : y.mantissa ≠ 0)
    (hxd : x.digits < 2 ^ 32) (hyd : y.digits < 2 ^ 32) (p : Precision) :
    roundSig (truncatedQuotient x y p).value p.digits = roundSig (x.value / y.value) p.digits := by
  rw [div_value_eq x hy (quotientPlaces x y p)]
  exact roundSig_tdiv _ (pow_le_truncatedQuotient hx hy hxd hyd p)

theorem truncatedQuotient_digits_le (x y : Decimal) (p : Precision)
    (hd : x.digits + quotientPlaces x y p < 2 ^ 32) :
    (truncatedQuotient x y p).digits ≤ x.digits + quotientPlaces x y p := by
  apply digitCount_le (Nat.add_pos_left (digitCount_pos _) _) hd
  show ((x.mantissa * (pow10 (quotientPlaces x y p) : ℤ)).tdiv y.mantissa).natAbs < _
  rw [Int.natAbs_tdiv, Int.natAbs_mul, Int.natAbs_natCast, pow10_add]
  calc x.mantissa.natAbs * pow10 (quotientPlaces x y p) / y.mantissa.natAbs
      ≤ x.mantissa.natAbs * pow10 (quotientPlaces x y p) := Nat.div_le_self _ _
    _ < pow10 x.digits * pow10 (quotientPlaces x y p) :=
      Nat.mul_lt_mul_of_pos_right (lt_pow10_digitCount (show x.digits < 2 ^ 32 by omega))
        (pow10_pos _)

theorem truncatedQuotient_words {x y : Decimal} (p : Precision)
    (hs : (x.scale - y.scale).natAbs < 2 ^ 62) (hd : x.digits + y.digits + p.digits + 2 < 2 ^ 32) :
    (truncatedQuotient x y p).WordScale ∧ (truncatedQuotient x y p).TrueExponent := by
  have hk := quotientPlaces_eq x y p
  have hscale : (truncatedQuotient x y p).scale = x.scale - y.scale + quotientPlaces x y p := rfl
  have hdigits := truncatedQuotient_digits_le x y p (by omega)
  refine ⟨by unfold WordScale int64Min int64Max; omega, ?_⟩
  unfold TrueExponent int64Max
  omega

theorem div_eq_truncatedQuotient {x y : Decimal} {p : Precision} (hx : x.mantissa ≠ 0)
    (hy : y.mantissa ≠ 0) (hs : (x.scale - y.scale).natAbs < 2 ^ 62)
    (hd : x.digits + y.digits + p.digits + 2 < 2 ^ 32) :
    x.div y p = (((truncatedQuotient x y p).round p).stripZerosTo (x.scale - y.scale)).checked := by
  have hk := quotientPlaces_eq x y p
  have hpref : wrap64 (x.scale - y.scale) = x.scale - y.scale := wrap64_of_natAbs_lt hs
  have hscale : wrap64 (x.scale - y.scale + max 0 ((p.digits : ℤ) + 2 + y.digits - x.digits)) =
      x.scale - y.scale + quotientPlaces x y p := by
    rw [← hk]
    exact wrap64_of_mem (by unfold int64Min; omega) (by unfold int64Max; omega)
  have hpow : pow10Word (max 0 ((p.digits : ℤ) + 2 + y.digits - x.digits)) =
      pow10 (quotientPlaces x y p) :=
    pow10Word_of_lt (le_max_left _ _) (by omega)
  unfold div
  rw [if_neg hy, if_neg hx]
  extract_lets k preferred q
  have hq : q = truncatedQuotient x y p := by
    show (⟨(x.mantissa * (pow10Word k : ℤ)).tdiv y.mantissa, wrap64 (preferred + k)⟩ : Decimal) =
      ⟨_, _⟩
    rw [show preferred = x.scale - y.scale from hpref, hscale, hpow]
  rw [hq, show preferred = x.scale - y.scale from hpref]

/-! The quotient as returned -/

theorem exponent_stripZerosTo {z : Decimal} (hw : z.WordScale) (he : z.TrueExponent)
    (hd : z.digits < 2 ^ 32) (hz : z.mantissa ≠ 0) {least : ℤ} (hleast : int64Min ≤ least) :
    (z.stripZerosTo least).exponent = z.exponent := by
  have hm : (z.stripZerosTo least).mantissa ≠ 0 := by
    intro h0
    have hsign := stripZerosTo_mantissa_sign z least
    rw [h0, Int.sign_zero] at hsign
    exact hz (Int.sign_eq_zero_iff_zero.mp hsign.symm)
  have hlog : Int.log 10 |(z.stripZerosTo least).value| = Int.log 10 |z.value| := by
    rw [value_stripZerosTo]
  have hd' : (z.stripZerosTo least).digits < 2 ^ 32 :=
    lt_of_le_of_lt (stripZerosTo_digits_le z least hd) hd
  have he' : (z.stripZerosTo least).TrueExponent :=
    trueExponent_of_log hm hd' (by rw [hlog, log_abs_value hz hd]; exact he)
  rw [exponent_of_trueExponent (hw.stripZerosTo hleast) he', exponent_of_trueExponent hw he,
    ← log_abs_value hm hd', ← log_abs_value hz hd, hlog]

theorem checked_eq_overflow_iff {z : Decimal} (hz : z.mantissa ≠ 0) (hmin : z.exponent ≠ int64Min) :
    z.checked = .error .overflow ↔ (exponentLimit : ℤ) < |z.exponent| := by
  have hmem : int64Min ≤ z.exponent ∧ z.exponent ≤ int64Max := wrap64_mem _
  have hiff := wrappingAbs_le_iff (L := exponentLimit) hmem.1 hmem.2
  rw [Int.abs_eq_natAbs]
  unfold checked
  split_ifs with hover
  · simp only [true_iff]
    by_contra hle
    exact absurd (hiff.mpr (.inl (by omega))) (by omega)
  · simp only [false_iff, not_lt]
    rcases hiff.mp (by omega) with hle | heq
    · omega
    · exact absurd heq hmin

theorem roundedQuotient_facts {x y : Decimal} {p : Precision} (hx : x.mantissa ≠ 0)
    (hy : y.mantissa ≠ 0) (hs : (x.scale - y.scale).natAbs < 2 ^ 62)
    (hd : x.digits + y.digits + p.digits + 2 < 2 ^ 32) :
    ((truncatedQuotient x y p).round p).value = roundSig (x.value / y.value) p.digits ∧
      ((truncatedQuotient x y p).round p).mantissa ≠ 0 ∧
      ((truncatedQuotient x y p).round p).WordScale ∧
      ((truncatedQuotient x y p).round p).TrueExponent ∧
      ((truncatedQuotient x y p).round p).digits ≤ p.digits ∧
      ((truncatedQuotient x y p).round p).exponent ≠ int64Min := by
  obtain ⟨hw, he⟩ := truncatedQuotient_words p hs hd
  have hq : (truncatedQuotient x y p).mantissa ≠ 0 := by
    have hbig := pow_le_truncatedQuotient hx hy (by omega) (by omega) p
    intro h0
    rw [h0] at hbig
    simp at hbig
  have hk := quotientPlaces_eq x y p
  have hdigits := truncatedQuotient_digits_le x y p (by omega)
  have hscale := round_scale_mem hw he p
  have hround := round_digits_le p (show (truncatedQuotient x y p).digits < 2 ^ 32 by omega)
  have htq : (truncatedQuotient x y p).scale = x.scale - y.scale + quotientPlaces x y p := rfl
  have he' : ((truncatedQuotient x y p).round p).TrueExponent := by
    unfold TrueExponent int64Max
    omega
  refine ⟨by rw [value_round hw he (by omega), roundSig_truncatedQuotient hx hy (by omega) (by omega)],
    round_mantissa_ne_zero hq p, hw.round p, he', hround, ?_⟩
  rw [exponent_of_trueExponent (hw.round p) he']
  unfold int64Min
  omega

theorem div_eq_divisionByZero_iff (x y : Decimal) (p : Precision) :
    x.div y p = .error .divisionByZero ↔ y.mantissa = 0 := by
  refine ⟨fun h => ?_, fun hy => div_zero x hy p⟩
  by_contra hy
  have hmeets := div_meets x hy p
  rw [h] at hmeets
  cases hmeets

/-- A quotient at a precision, of operands whose scales differ by less than `2 ^ 62` and whose
digits, with the precision's, stay below `2 ^ 32`. It fails by division by zero exactly for a zero
divisor. For nonzero operands the truncated quotient it is formed from rounds as the exact one; it
fails only by overflow, exactly when the exponent of the exact quotient rounded to the precision is
past the limit, and otherwise returns that rounded quotient, with at most the precision's digits
and a last digit zero only at or below the scale `x.scale - y.scale`. -/
theorem div_rounds_quotient (x y : Decimal) (p : Precision)
    (hs : (x.scale - y.scale).natAbs < 2 ^ 62) (hd : x.digits + y.digits + p.digits + 2 < 2 ^ 32) :
    (x.div y p = .error .divisionByZero ↔ y.mantissa = 0) ∧
    (x.mantissa ≠ 0 → y.mantissa ≠ 0 →
      roundSig (truncatedQuotient x y p).value p.digits = roundSig (x.value / y.value) p.digits ∧
      (x.div y p = .error .overflow ↔
        (exponentLimit : ℤ) < |Int.log 10 (|roundSig (x.value / y.value) p.digits|)|) ∧
      (∀ e, x.div y p = .error e → e = .overflow) ∧
      ∀ r, x.div y p = .ok r → r.value = roundSig (x.value / y.value) p.digits ∧
        r.digits ≤ p.digits ∧ (r.mantissa % 10 = 0 → r.scale ≤ x.scale - y.scale)) := by
  refine ⟨div_eq_divisionByZero_iff x y p, fun hx hy =>
    ⟨roundSig_truncatedQuotient hx hy (by omega) (by omega) p, ?_, fun e he => ?_, fun r hr => ?_⟩⟩
  · obtain ⟨hvalue, hm, hw, he, hround, hmin⟩ := roundedQuotient_facts hx hy hs hd
    have hleast : int64Min ≤ x.scale - y.scale := by
      unfold int64Min
      omega
    have hrd : ((truncatedQuotient x y p).round p).digits < 2 ^ 32 := by
      have := p.digits_lt
      omega
    have hexp := exponent_stripZerosTo hw he hrd hm hleast
    rw [div_eq_truncatedQuotient hx hy hs hd, checked_eq_overflow_iff ?_ (hexp ▸ hmin), hexp,
      exponent_of_trueExponent hw he, ← log_abs_value hm hrd, hvalue]
    intro h0
    have hsign := stripZerosTo_mantissa_sign ((truncatedQuotient x y p).round p) (x.scale - y.scale)
    rw [h0, Int.sign_zero] at hsign
    exact hm (Int.sign_eq_zero_iff_zero.mp hsign.symm)
  · have hmeets := div_meets x hy p
    rw [he] at hmeets
    exact hmeets
  · obtain ⟨hvalue, hm, -, -, hround, -⟩ := roundedQuotient_facts hx hy hs hd
    rw [div_eq_truncatedQuotient hx hy hs hd] at hr
    rw [checked_ok hr, value_stripZerosTo, hvalue]
    have hrd : ((truncatedQuotient x y p).round p).digits < 2 ^ 32 := by
      have := p.digits_lt
      omega
    exact ⟨rfl, le_trans (stripZerosTo_digits_le _ _ hrd) hround, stripZerosTo_scale_le hm _⟩

/-- `2 / 3` at three digits is `0.667`: the exact quotient rounded, the last digit carried up. -/
theorem div_rounds_quotient_two_thirds :
    ((⟨2, 0⟩ : Decimal).scale - (⟨3, 0⟩ : Decimal).scale).natAbs < 2 ^ 62 ∧
      (⟨2, 0⟩ : Decimal).digits + (⟨3, 0⟩ : Decimal).digits + 3 + 2 < 2 ^ 32 ∧
      (⟨2, 0⟩ : Decimal).div ⟨3, 0⟩ ⟨3, by decide, by decide⟩ = .ok ⟨667, 3⟩ ∧
      roundSig (2 / 3) 3 = 667 / 1000 := by
  have hd : (⟨2, 0⟩ : Decimal).digits + (⟨3, 0⟩ : Decimal).digits + 3 + 2 < 2 ^ 32 := by
    with_unfolding_all decide
  have hdiv : (⟨2, 0⟩ : Decimal).div ⟨3, 0⟩ ⟨3, by decide, by decide⟩ = .ok ⟨667, 3⟩ := by
    with_unfolding_all decide
  obtain ⟨-, hquot⟩ := div_rounds_quotient ⟨2, 0⟩ ⟨3, 0⟩ ⟨3, by decide, by decide⟩ (by decide) hd
  obtain ⟨-, -, -, hok⟩ := hquot (by decide) (by decide)
  have hvalue := (hok _ hdiv).1
  refine ⟨by decide, hd, hdiv, ?_⟩
  simp only [value] at hvalue
  norm_num at hvalue
  exact hvalue.symm

end Calculator.Decimal
