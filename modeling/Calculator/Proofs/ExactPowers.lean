import Calculator.Proofs.QuotientRounding
import Calculator.Proofs.TrigAccuracy
import Calculator.Proofs.SignSymmetry
/-!
Integer powers and factorials are exact while the working precision holds their digits.
-/

namespace Calculator.Decimal

/-! ### Exact powers -/

def exactPow (x : Decimal) (k : ℕ) : Decimal := ⟨x.mantissa ^ k, k * x.scale⟩

theorem exactPow_zero (x : Decimal) : x.exactPow 0 = one := by
  simp [exactPow, one]

theorem exactPow_one (x : Decimal) : x.exactPow 1 = x := by
  simp [exactPow]

theorem value_exactPow (x : Decimal) (k : ℕ) : (x.exactPow k).value = x.value ^ k := by
  unfold value exactPow
  push_cast
  rw [mul_pow, ← zpow_natCast (10 ^ (-x.scale) : ℚ) k, ← zpow_mul]
  congr 2
  ring

theorem exactPow_mantissa_ne_zero {x : Decimal} (hx : x.mantissa ≠ 0) (k : ℕ) :
    (x.exactPow k).mantissa ≠ 0 :=
  pow_ne_zero k hx

theorem digits_exactPow_le {x : Decimal} (hx : x.mantissa ≠ 0) {k N : ℕ} (h : k ≤ N)
    (hN : (x.exactPow N).digits < 2 ^ 32) : (x.exactPow k).digits ≤ (x.exactPow N).digits := by
  unfold digits exactPow at *
  simp only [Int.natAbs_pow] at *
  exact digitCount_mono hN (Nat.pow_le_pow_right (Int.natAbs_pos.mpr hx) h)

/-! ### Exponents past the limit -/

def ExponentPast (x : Decimal) : Prop := (exponentLimit : ℤ) < |(x.digits : ℤ) - 1 - x.scale|

instance (x : Decimal) : Decidable x.ExponentPast := inferInstanceAs (Decidable (_ < _))

theorem checked_eq_ite {z : Decimal} (hz : z.mantissa ≠ 0) (hs : z.scale.natAbs < 2 ^ 62)
    (hd : z.digits < 2 ^ 32) :
    z.checked = if z.ExponentPast then .error .overflow else .ok z := by
  have hlo : int64Min ≤ (z.digits : ℤ) - 1 - z.scale := by
    unfold int64Min
    omega
  have hhi : (z.digits : ℤ) - 1 - z.scale ≤ int64Max := by
    unfold int64Max
    omega
  have hiff := wrappingAbs_le_iff (L := exponentLimit) hlo hhi
  have hexp : z.exponent = (z.digits : ℤ) - 1 - z.scale := wrap64_of_mem hlo hhi
  by_cases hpast : z.ExponentPast
  · have hover : (exponentLimit : ℤ) < wrappingAbs z.exponent := by
      unfold ExponentPast at hpast
      rw [hexp]
      by_contra hle
      rcases hiff.mp (not_lt.mp hle) with h | h
      · rw [Int.abs_eq_natAbs] at hpast
        omega
      · unfold int64Min at h
        omega
    unfold checked
    rw [if_pos ⟨hz, hover⟩, if_pos hpast]
  · rw [if_neg hpast]
    unfold checked
    rw [if_neg ?_]
    rintro ⟨-, hlt⟩
    unfold ExponentPast at hpast
    rw [hexp] at hlt
    have := hiff.mpr (.inl (by rw [Int.abs_eq_natAbs] at hpast; omega))
    omega

theorem checked_of_not_exponentPast {z : Decimal} (hs : z.scale.natAbs < 2 ^ 62)
    (hd : z.digits < 2 ^ 32) (h : ¬z.ExponentPast) : z.checked = .ok z := by
  by_cases hz : z.mantissa = 0
  · unfold checked
    rw [if_neg (fun h => h.1 hz)]
  · rw [checked_eq_ite hz hs hd, if_neg h]

theorem scale_lt_of_not_exponentPast {z : Decimal} (h : ¬z.ExponentPast)
    (hd : z.digits < 2 ^ 32) : z.scale.natAbs < 2 ^ 61 := by
  unfold ExponentPast exponentLimit at h
  rw [not_lt, abs_le] at h
  omega

theorem not_exponentPast_of_small {z : Decimal} (hs : z.scale.natAbs ≤ 2 ^ 33)
    (hd : z.digits < 2 ^ 32) : ¬z.ExponentPast := by
  unfold ExponentPast exponentLimit
  rw [not_lt, abs_le]
  omega

theorem words_of_not_exponentPast {z : Decimal} (h : ¬z.ExponentPast) (hd : z.digits < 2 ^ 32) :
    z.WordScale ∧ z.TrueExponent := by
  have hs := scale_lt_of_not_exponentPast h hd
  unfold WordScale TrueExponent int64Min int64Max
  omega

theorem exponentPast_exactPow_iff {x : Decimal} (hx : x.mantissa ≠ 0) (k : ℕ)
    (hd : (x.exactPow k).digits < 2 ^ 32) :
    (x.exactPow k).ExponentPast ↔ (exponentLimit : ℤ) < |Int.log 10 (|x.value| ^ k)| := by
  unfold ExponentPast
  rw [← log_abs_value (exactPow_mantissa_ne_zero hx k) hd, value_exactPow, abs_pow]

theorem abs_log_pow_le {q : ℚ} (hq : 0 < q) {k N : ℕ} (hk : 1 ≤ k) (hkN : k ≤ N) :
    |Int.log 10 (q ^ k)| ≤ |Int.log 10 (q ^ N)| := by
  rcases le_or_gt 1 q with hone | hlt
  · have h0 : 0 ≤ Int.log 10 (q ^ k) :=
      le_log_of_zpow_le (pow_pos hq k) (by rw [zpow_zero]; exact one_le_pow₀ hone)
    have hmono := Int.log_mono_right (b := 10) (pow_pos hq k) (pow_le_pow_right₀ hone hkN)
    rw [abs_of_nonneg h0, abs_of_nonneg (h0.trans hmono)]
    exact hmono
  · have hneg : Int.log 10 (q ^ k) < 0 :=
      log_lt_of_lt_zpow (pow_pos hq k) (by rw [zpow_zero]; exact pow_lt_one₀ hq.le hlt (by omega))
    have hmono :=
      Int.log_mono_right (b := 10) (pow_pos hq N) (pow_le_pow_of_le_one hq.le hlt.le hkN)
    rw [abs_of_neg hneg, abs_of_neg (lt_of_le_of_lt hmono hneg)]
    exact neg_le_neg hmono

theorem exponentPast_mono {x : Decimal} (hx : x.mantissa ≠ 0) {k N : ℕ} (hk : 1 ≤ k)
    (hkN : k ≤ N) (hN : (x.exactPow N).digits < 2 ^ 32) (h : (x.exactPow k).ExponentPast) :
    (x.exactPow N).ExponentPast := by
  have hv : 0 < |x.value| := abs_pos.mpr (mt value_eq_zero_iff.mp hx)
  rw [exponentPast_exactPow_iff hx k ((digits_exactPow_le hx hkN hN).trans_lt hN)] at h
  rw [exponentPast_exactPow_iff hx N hN]
  exact lt_of_lt_of_le h (abs_log_pow_le hv hk hkN)

/-! ### Exact products -/

theorem mul_exactPow {x : Decimal} {a c : ℕ} {w : Precision}
    (hd : (x.exactPow (a + c)).digits ≤ w.digits)
    (hs : (((a + c : ℕ) : ℤ) * x.scale).natAbs < 2 ^ 62) :
    (x.exactPow a).mul (x.exactPow c) w = (x.exactPow (a + c)).checked := by
  have hscale : wrap64 ((a : ℤ) * x.scale + c * x.scale) = ((a + c : ℕ) : ℤ) * x.scale := by
    rw [Nat.cast_add, add_mul]
    exact wrap64_of_natAbs_lt (by rwa [← add_mul, ← Nat.cast_add])
  unfold mul
  show (Decimal.round ⟨x.mantissa ^ a * x.mantissa ^ c, wrap64 (a * x.scale + c * x.scale)⟩
    w).checked = _
  rw [hscale, ← pow_add]
  show ((x.exactPow (a + c)).round w).checked = _
  rw [round_of_digits_le hd]

theorem ofInt_mul_ofInt {a b : ℤ} {w : Precision} (hd : digitCount (a * b).natAbs ≤ w.digits) :
    (ofInt a).mul (ofInt b) w = .ok (ofInt (a * b)) := by
  unfold mul
  show (Decimal.round ⟨a * b, wrap64 (0 + 0)⟩ w).checked = _
  rw [Int.add_zero, show wrap64 0 = 0 from wrap64_of_mem (by decide) (by decide)]
  show ((ofInt (a * b)).round w).checked = _
  have hd' : (ofInt (a * b)).digits ≤ w.digits := hd
  have hdig : (ofInt (a * b)).digits < 2 ^ 32 := hd.trans_lt w.digits_lt
  rw [round_of_digits_le hd', checked_of_not_exponentPast (by simp [ofInt]) hdig
    (not_exponentPast_of_small (by simp [ofInt]) hdig)]

theorem checked_round_of_scale_zero {z : Decimal} (hz : z.scale = 0) (hd : z.digits < 2 ^ 32)
    (p : Precision) : (z.round p).checked = .ok (z.round p) := by
  have hw : z.WordScale := wordScale_of_scale_eq hz (by decide) (by decide)
  have he : z.TrueExponent := by
    unfold TrueExponent int64Max
    omega
  obtain ⟨hlo, hhi⟩ := round_scale_mem hw he p
  have hround := round_digits_le p hd
  generalize z.round p = r at hlo hhi hround ⊢
  rw [hz] at hlo hhi
  have hr := hround.trans_lt p.digits_lt
  exact checked_of_not_exponentPast (by omega) hr (not_exponentPast_of_small (by omega) hr)

theorem value_of_div_ok {x y : Decimal} {p : Precision} (hx : x.mantissa ≠ 0) (hy : y.mantissa ≠ 0)
    (hs : (x.scale - y.scale).natAbs < 2 ^ 62) (hd : x.digits + y.digits + p.digits + 2 < 2 ^ 32)
    {r : Decimal} (hr : x.div y p = .ok r) : r.value = roundSig (x.value / y.value) p.digits := by
  obtain ⟨hvalue, -, -, -, -, -⟩ := roundedQuotient_facts hx hy hs hd
  rw [div_eq_truncatedQuotient hx hy hs hd] at hr
  rw [checked_ok hr, value_stripZerosTo, hvalue]

theorem toInt64?_ofInt {n : ℤ} (hn : n.natAbs ≤ Elementary.integerPowerLimit) :
    (ofInt n).toInt64? = some n := by
  have hn' : n.natAbs < 10000000000 := by
    unfold Elementary.integerPowerLimit at hn
    omega
  have hd : (ofInt n).digits ≤ 10 := digitCount_le (by decide) (by decide) hn'
  have he : (ofInt n).TrueExponent := by
    unfold TrueExponent int64Max
    show (((ofInt n).digits : ℕ) : ℤ) - 1 - 0 ≤ _
    omega
  rw [toInt64?_eq_some_iff (wordScale_ofInt n) he (by omega)]
  refine ⟨(isIntValue_of_scale_nonpos (le_refl _)).mpr ?_, ?_, ?_⟩
  · show n = n * ((pow10 0 : ℕ) : ℤ)
    rw [show pow10 0 = 1 from rfl, Nat.cast_one, Int.mul_one]
  · unfold int64Min
    omega
  · unfold int64Max
    omega

end Calculator.Decimal

namespace Calculator.Elementary

open Decimal

/-! ### The squaring loop -/

theorem mul_halves (c e : ℕ) : c * e = (c + c) * (e / 2) + c * (e % 2) := by
  conv_lhs => rw [← Nat.div_add_mod e 2]
  ring

section ExactLoop

variable {x : Decimal} {w : Precision} {N : ℕ}

theorem mul_exactPow_eq_ite (hx : x.mantissa ≠ 0) (hN : (x.exactPow N).digits ≤ w.digits)
    {a c : ℕ} (hac : a + c ≤ N) (ha : (x.exactPow a).scale.natAbs < 2 ^ 61)
    (hc : (x.exactPow c).scale.natAbs < 2 ^ 61) :
    (x.exactPow a).mul (x.exactPow c) w =
      if (x.exactPow (a + c)).ExponentPast then .error .overflow else pure (x.exactPow (a + c)) := by
  have hd := (digits_exactPow_le hx hac (hN.trans_lt w.digits_lt)).trans hN
  have hs : (((a + c : ℕ) : ℤ) * x.scale).natAbs < 2 ^ 62 := by
    change ((a : ℤ) * x.scale).natAbs < 2 ^ 61 at ha
    change ((c : ℤ) * x.scale).natAbs < 2 ^ 61 at hc
    rw [Nat.cast_add, add_mul]
    omega
  rw [mul_exactPow hd hs, checked_eq_ite (exactPow_mantissa_ne_zero hx _) hs
    (hd.trans_lt w.digits_lt)]
  rfl

/-- The squaring loop from `x ^ a` and the base `x ^ c`, with `a + c · e = N`, overflows exactly
when `x ^ N` is past the limit and otherwise ends on `x ^ N`. -/
theorem powerLoop_exactPow (hx : x.mantissa ≠ 0) (hN : (x.exactPow N).digits ≤ w.digits)
    (e : ℕ) : ∀ a c : ℕ, 0 < e → a + c * e = N → 1 ≤ c →
      (x.exactPow a).scale.natAbs < 2 ^ 61 → (x.exactPow c).scale.natAbs < 2 ^ 61 →
      powerLoop w e (x.exactPow a) (x.exactPow c) =
        if (x.exactPow N).ExponentPast then .error .overflow else .ok (x.exactPow N) := by
  induction e using Nat.strong_induction_on with
  | _ e ih =>
  intro a c he hsum hc ha hcs
  have hsplit := mul_halves c e
  have hpast : ∀ k, 1 ≤ k → k ≤ N → (x.exactPow k).ExponentPast → (x.exactPow N).ExponentPast :=
    fun k h1 h2 => exponentPast_mono hx h1 h2 (hN.trans_lt w.digits_lt)
  -- a power within the limit has a scale far from the ends of the words
  have hsmall : ∀ k ≤ N, ¬(x.exactPow k).ExponentPast → (x.exactPow k).scale.natAbs < 2 ^ 61 :=
    fun k hk h => scale_lt_of_not_exponentPast h
      ((digits_exactPow_le hx hk (hN.trans_lt w.digits_lt)).trans hN
        |>.trans_lt w.digits_lt)
  -- the base is squared while bits remain, so `c + c ≤ N`; the loop goes on from the square
  have hsquare : ∀ a', 0 < e / 2 → a' + (c + c) * (e / 2) = N →
      (x.exactPow a').scale.natAbs < 2 ^ 61 →
      ((x.exactPow c).mul (x.exactPow c) w >>= fun b' => powerLoop w (e / 2) (x.exactPow a') b') =
        if (x.exactPow N).ExponentPast then .error .overflow else .ok (x.exactPow N) := by
    intro a' hhalf hsum' ha'
    have hcc : c + c ≤ N := by
      have := Nat.le_mul_of_pos_right (c + c) hhalf
      omega
    rw [mul_exactPow_eq_ite hx hN (by omega) hcs hcs]
    by_cases hp : (x.exactPow (c + c)).ExponentPast
    · rw [if_pos hp, if_pos (hpast _ (by omega) hcc hp)]
      rfl
    · rw [if_neg hp, pure_bind]
      exact ih (e / 2) (by omega) a' (c + c) hhalf hsum' (by omega) ha' (hsmall _ hcc hp)
  rw [powerLoop_step he.ne']
  by_cases hodd : e % 2 = 1
  · rw [if_pos hodd]
    rw [hodd, Nat.mul_one] at hsplit
    have hac : a + c ≤ N := by omega
    rw [mul_exactPow_eq_ite hx hN hac ha hcs]
    by_cases hp : (x.exactPow (a + c)).ExponentPast
    · rw [if_pos hp, if_pos (hpast _ (by omega) hac hp)]
      rfl
    · rw [if_neg hp, pure_bind]
      by_cases hhalf : e / 2 > 0
      · rw [if_pos hhalf]
        exact hsquare (a + c) hhalf (by omega) (hsmall _ hac hp)
      · -- the last bit: the accumulator holds the whole power
        have hlast : a + c = N := by
          have : (c + c) * (e / 2) = 0 := by rw [Nat.eq_zero_of_not_pos hhalf, Nat.mul_zero]
          omega
        rw [if_neg hhalf, pure_bind, Nat.eq_zero_of_not_pos hhalf, powerLoop_zero, hlast,
          if_neg (hlast ▸ hp)]
  · have heven : e % 2 = 0 := by omega
    rw [if_neg hodd, pure_bind, if_pos (by omega)]
    exact hsquare a (by omega) (by rw [heven, Nat.mul_zero] at hsplit; omega) ha

end ExactLoop

/-! ### Integer powers -/

theorem integerPower_of_exact {x : Decimal} (hx : x.mantissa ≠ 0) {n : ℤ} (hn : n ≠ 0)
    {p : Precision} (hs : x.scale.natAbs < 2 ^ 61)
    (hd : (x.exactPow n.natAbs).digits ≤ (p.widen (guardDigits + digitCount n.natAbs)).digits) :
    integerPower x n p =
      if (x.exactPow n.natAbs).ExponentPast then .error .overflow
      else if n < 0 then one.div (x.exactPow n.natAbs) p
      else ((x.exactPow n.natAbs).round p).checked := by
  have hloop := powerLoop_exactPow hx hd n.natAbs 0 1 (Int.natAbs_pos.mpr hn) (by omega) le_rfl
    (by simp [exactPow]) (by simpa [exactPow] using hs)
  rw [exactPow_zero, exactPow_one] at hloop
  simp only [integerPower, if_neg hn, if_neg hx, hloop]
  split <;> rfl

theorem power_ofInt {n : ℤ} (hn : n.natAbs ≤ integerPowerLimit) (x : Decimal) (p : Precision) :
    power x (ofInt n) p = integerPower x n p := by
  have hsmall : wrappingAbs n ≤ integerPowerLimit := by
    unfold wrappingAbs
    rw [wrap64_of_natAbs_lt (by unfold integerPowerLimit at hn; omega)]
    exact_mod_cast hn
  simp only [power, toInt64?_ofInt hn, if_pos hsmall]

section IntegerPowers

variable {x : Decimal} {n : ℤ} {p : Precision}

theorem power_ofInt_eq (hn : n.natAbs ≤ integerPowerLimit) (hs : x.scale.natAbs < 2 ^ 61)
    (hd : digitCount (x.mantissa.natAbs ^ n.natAbs) ≤
      (p.widen (guardDigits + digitCount n.natAbs)).digits) :
    power x (ofInt n) p =
      if n = 0 then .ok one
      else if x.mantissa = 0 then (if n < 0 then .error .divisionByZero else .ok zero)
      else if (exponentLimit : ℤ) < |Int.log 10 (|x.value| ^ n.natAbs)| then .error .overflow
      else if n < 0 then one.div (x.exactPow n.natAbs) p
      else ((x.exactPow n.natAbs).round p).checked := by
  rw [power_ofInt hn]
  by_cases hn0 : n = 0
  · simp only [integerPower, if_pos hn0]
    rfl
  by_cases hx : x.mantissa = 0
  · simp only [integerPower, if_neg hn0, if_pos hx]
    split <;> rfl
  have hd' : (x.exactPow n.natAbs).digits ≤
      (p.widen (guardDigits + digitCount n.natAbs)).digits := by
    unfold digits exactPow
    rwa [Int.natAbs_pow]
  rw [if_neg hn0, if_neg hx, integerPower_of_exact hx hn0 hs hd']
  have hword := hd'.trans_lt (Precision.digits_lt _)
  by_cases hpast : (x.exactPow n.natAbs).ExponentPast
  · rw [if_pos hpast, if_pos ((exponentPast_exactPow_iff hx _ hword).mp hpast)]
  · rw [if_neg hpast, if_neg (mt (exponentPast_exactPow_iff hx _ hword).mpr hpast)]

theorem power_ofInt_value (hn : n.natAbs ≤ integerPowerLimit) (hs : x.scale.natAbs < 2 ^ 61)
    (hd : digitCount (x.mantissa.natAbs ^ n.natAbs) ≤
      (p.widen (guardDigits + digitCount n.natAbs)).digits)
    (hq : n < 0 → (x.exactPow n.natAbs).digits + p.digits + 3 < 2 ^ 32) {r : Decimal}
    (hr : power x (ofInt n) p = .ok r) : r.value = roundSig (x.value ^ n) p.digits := by
  rw [power_ofInt hn] at hr
  by_cases hn0 : n = 0
  · simp only [integerPower, if_pos hn0] at hr
    cases hr
    rw [hn0, zpow_zero, value_one, roundSig_one p.digits_pos]
  by_cases hx : x.mantissa = 0
  · simp only [integerPower, if_neg hn0, if_pos hx] at hr
    split_ifs at hr with hneg
    · cases hr
    · cases hr
      rw [value_eq_zero_iff.mpr hx, zero_zpow n hn0, roundSig_zero]
      exact value_eq_zero_iff.mpr rfl
  have hdig : (x.exactPow n.natAbs).digits ≤ (p.widen (guardDigits + digitCount n.natAbs)).digits := by
    unfold digits exactPow
    rwa [Int.natAbs_pow]
  have hm := exactPow_mantissa_ne_zero hx n.natAbs
  rw [integerPower_of_exact hx hn0 hs hdig] at hr
  split_ifs at hr with hpast hneg
  · -- a negative exponent: one over the exact power, rounded by the quotient
    have hsmall := scale_lt_of_not_exponentPast hpast (by have := hq hneg; omega)
    have hval := value_of_div_ok (by decide) hm
      (by show ((0 : ℤ) - (x.exactPow n.natAbs).scale).natAbs < 2 ^ 62; omega)
      (by
        have := hq hneg
        have : one.digits = 1 := by with_unfolding_all decide
        omega) hr
    have hpow : x.value ^ n = (x.value ^ n.natAbs)⁻¹ := by
      rw [← zpow_natCast, ← zpow_neg, Int.ofNat_natAbs_of_nonpos (by omega), Int.neg_neg]
    rw [hval, value_one, value_exactPow, hpow, one_div]
  · -- a positive exponent: the exact power, rounded
    obtain ⟨hw, he⟩ := words_of_not_exponentPast hpast
      (hdig.trans_lt (Precision.digits_lt _))
    rw [checked_ok hr, value_round hw he (hdig.trans_lt (Precision.digits_lt _)), value_exactPow, ← zpow_natCast,
      Int.natAbs_of_nonneg (by omega)]

end IntegerPowers

/-! ### Factorials -/

theorem multiplyFactors_exact {w : Precision} (count j : ℕ)
    (hd : digitCount (j + count).factorial ≤ w.digits) :
    multiplyFactors w count (j + 1) (ofInt j.factorial) = .ok (ofInt (j + count).factorial) := by
  induction count generalizing j with
  | zero => rfl
  | succ count ih =>
    have hstep : (ofInt j.factorial).mul (ofInt ((j + 1 : ℕ) : ℤ)) w =
        .ok (ofInt (j + 1).factorial) := by
      rw [ofInt_mul_ofInt, Nat.factorial_succ, Nat.cast_mul, Int.mul_comm]
      rw [Int.natAbs_mul, Int.natAbs_natCast, Int.natAbs_natCast, Nat.mul_comm,
        ← Nat.factorial_succ]
      exact (digitCount_mono (hd.trans_lt w.digits_lt) (Nat.factorial_le (by omega))).trans hd
    rw [multiplyFactors, hstep, show j + (count + 1) = j + 1 + count by omega]
    exact ih (j + 1) (by rwa [show j + 1 + count = j + (count + 1) by omega])

theorem factorial_exact (k : ℕ) (p : Precision)
    (hd : digitCount k.factorial ≤ (p.widen (guardDigits + digitCount k)).digits) :
    factorial k p = .ok ((ofInt k.factorial).round p) := by
  have hk : (1 + (k - 1)).factorial = k.factorial := by
    rcases k with _ | k
    · rfl
    · rw [Nat.add_sub_cancel, Nat.add_comm]
  have hloop : multiplyFactors (p.widen (guardDigits + digitCount k)) (k - 1) 2 one =
      pure (ofInt k.factorial) := by
    rw [← hk]
    exact multiplyFactors_exact (k - 1) 1 (by rwa [hk])
  unfold factorial
  show (multiplyFactors (p.widen (guardDigits + digitCount k)) (k - 1) 2 one >>= fun acc =>
    (acc.round p).checked) = _
  have hdig : (ofInt k.factorial).digits < 2 ^ 32 := hd.trans_lt (Precision.digits_lt _)
  rw [hloop, pure_bind]
  exact checked_round_of_scale_zero rfl hdig p

theorem powers_and_factorials_exact (p : Precision) :
    (∀ (x : Decimal) (n : ℤ), n.natAbs ≤ integerPowerLimit → x.scale.natAbs < 2 ^ 61 →
      digitCount (x.mantissa.natAbs ^ n.natAbs) ≤
        (p.widen (guardDigits + digitCount n.natAbs)).digits →
      power x (ofInt n) p =
          (if n = 0 then .ok one
          else if x.mantissa = 0 then (if n < 0 then .error .divisionByZero else .ok zero)
          else if (exponentLimit : ℤ) < |Int.log 10 (|x.value| ^ n.natAbs)| then .error .overflow
          else if n < 0 then one.div (x.exactPow n.natAbs) p
          else ((x.exactPow n.natAbs).round p).checked) ∧
        ((n < 0 → (x.exactPow n.natAbs).digits + p.digits + 3 < 2 ^ 32) →
          ∀ r, power x (ofInt n) p = .ok r → r.value = roundSig (x.value ^ n) p.digits)) ∧
    (∀ k : ℕ, digitCount k.factorial ≤ (p.widen (guardDigits + digitCount k)).digits →
      factorial k p = .ok ((ofInt k.factorial).round p)) :=
  ⟨fun _ _ hn hs hd => ⟨power_ofInt_eq hn hs hd, fun hq _ hr => power_ofInt_value hn hs hd hq hr⟩,
    fun k hk => factorial_exact k p hk⟩

/-- `1.5 ^ 3` is `3.375` and `1.5 ^ -2` is `0.4444444444` at ten digits, each the exact power
rounded, and `5!` is `120`. At the largest precision the quotient `1 / 2` forms its power of ten
from the low 32 bits of `2 ^ 32 + 1`, so `2 ^ -1` comes out as `5E-4294967297`: there the
quotient's digits are past `2 ^ 32`. -/
theorem powers_and_factorials_exact_samples :
    power ⟨15, 1⟩ (ofInt 3) ⟨10, by decide, by decide⟩ = .ok ⟨3375, 3⟩ ∧
      (⟨3375, 3⟩ : Decimal).value = roundSig ((⟨15, 1⟩ : Decimal).value ^ (3 : ℤ)) 10 ∧
      power ⟨15, 1⟩ (ofInt (-2)) ⟨10, by decide, by decide⟩ = .ok ⟨4444444444, 10⟩ ∧
      (⟨4444444444, 10⟩ : Decimal).value = roundSig ((⟨15, 1⟩ : Decimal).value ^ (-2 : ℤ)) 10 ∧
      factorial 5 ⟨10, by decide, by decide⟩ = .ok ⟨120, 0⟩ ∧
      power ⟨2, 0⟩ (ofInt (-1)) ⟨4294967295, by decide, by decide⟩ = .ok ⟨5, 4294967297⟩ ∧
      ¬(((⟨2, 0⟩ : Decimal).exactPow 1).digits + 4294967295 + 3 < 2 ^ 32) := by
  obtain ⟨hpow, hfact⟩ := powers_and_factorials_exact ⟨10, by decide, by decide⟩
  have hcube : power ⟨15, 1⟩ (ofInt 3) ⟨10, by decide, by decide⟩ = .ok ⟨3375, 3⟩ := by
    with_unfolding_all decide
  have hinv : power ⟨15, 1⟩ (ofInt (-2)) ⟨10, by decide, by decide⟩ = .ok ⟨4444444444, 10⟩ := by
    with_unfolding_all decide
  have hround : (ofInt (Nat.factorial 5)).round ⟨10, by decide, by decide⟩ = ⟨120, 0⟩ := by
    with_unfolding_all decide
  refine ⟨hcube, (hpow ⟨15, 1⟩ 3 (by decide) (by decide) (by with_unfolding_all decide)).2
      (fun h => absurd h (by decide)) _ hcube, hinv,
    (hpow ⟨15, 1⟩ (-2) (by decide) (by decide) (by with_unfolding_all decide)).2
      (fun _ => by with_unfolding_all decide) _ hinv,
    by rw [hfact 5 (by with_unfolding_all decide), hround], by with_unfolding_all decide, by with_unfolding_all decide⟩

end Calculator.Elementary
