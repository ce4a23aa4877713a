import Calculator.Proofs.ArctanHalving
import Calculator.Proofs.PiAccuracy
/-!
Accuracy of the arctangent. Below a tenth the series `Σ (-1)^k a^(2k+1)/(2k+1)` alternates, so its
partial sums are tracked in absolute terms (`SignedSum`): the `k`-th power of `a²` is within `2k`
roundings of its value, the term within one more, and a tail past the `n`-th term is at most
twice that term. The sum is within `(4F + 11)` roundings of `a`, `F` the series' fuel, and
`arctan a ≥ a / (1 + a²)` turns this into a relative error. Doubling back, the inversion
`arctan x = π/2 - arctan (1/x)` above one (with nothing to cancel, as `arctan (1/x) ≤ π/4`) and
the sign keep the error relative to `arctan x`.
-/

open Except

namespace Calculator.Elementary

open Decimal Finset

/-! The series of `arctan` -/

noncomputable def arctanSize (a : ℝ) (k : ℕ) : ℝ := a ^ (2 * k + 1) / ((2 * k + 1 : ℕ) : ℝ)

theorem arctanSize_def (a : ℝ) (k : ℕ) : arctanSize a k = a ^ (2 * k + 1) / (2 * k + 1) := by
  rw [arctanSize]
  push_cast
  rfl

theorem arctanSize_nonneg {a : ℝ} (ha : 0 ≤ a) (k : ℕ) : 0 ≤ arctanSize a k := by
  simp only [arctanSize_def]
  positivity

theorem hasSum_arctanSize {a : ℝ} (ha : 0 ≤ a) (ha1 : a < 1) :
    HasSum (fun k => (-1) ^ k * arctanSize a k) (Real.arctan a) := by
  have h := Real.hasSum_arctan (x := a) (by rwa [Real.norm_eq_abs, abs_of_nonneg ha])
  convert h using 2 with k
  simp only [arctanSize_def]
  push_cast
  ring

theorem arctanSize_add_le {a : ℝ} (ha : 0 ≤ a) (n i : ℕ) :
    arctanSize a (i + n) ≤ arctanSize a n * (a ^ 2) ^ i := by
  simp only [arctanSize_def]
  rw [show a ^ (2 * (i + n) + 1) = a ^ (2 * n + 1) * (a ^ 2) ^ i by ring, div_mul_eq_mul_div]
  apply div_le_div_of_nonneg_left (by positivity) (by positivity)
  push_cast
  linarith [(i.cast_nonneg : (0 : ℝ) ≤ i)]

theorem arctan_sub_partial_le {a : ℝ} (ha : 0 ≤ a) (ha2 : a ^ 2 ≤ 1 / 2) (n : ℕ) :
    |Real.arctan a - ∑ k ∈ range n, (-1) ^ k * arctanSize a k| ≤ 2 * arctanSize a n := by
  have ha1 : a < 1 := by nlinarith
  have h := abs_sub_partial_le (hasSum_arctanSize ha ha1) n (sq_nonneg a) (by linarith)
    (b := arctanSize a n) fun i => by
      rw [abs_mul, abs_neg_one_pow, one_mul, abs_of_nonneg (arctanSize_nonneg ha _)]
      exact arctanSize_add_le ha n i
  refine h.trans ?_
  rw [div_le_iff₀ (by linarith)]
  nlinarith [arctanSize_nonneg ha n]

theorem arctanSize_sums_le {a : ℝ} (ha : 0 < a) (ha2 : a ^ 2 ≤ 1 / 2) (n : ℕ) :
    ∑ k ∈ range n, arctanSize a k ≤ 2 * a ∧ ∑ k ∈ range n, (k : ℝ) * arctanSize a k ≤ a := by
  have hgeom : ∑ k ∈ range n, (a ^ 2) ^ k ≤ 2 := by
    have h := geom_sum_Ico_le_of_lt_one (m := 0) (n := n) (sq_nonneg a) (by linarith)
    rw [← range_eq_Ico, pow_zero] at h
    refine h.trans ?_
    rw [div_le_iff₀ (by linarith)]
    linarith
  have hsize : ∀ k, arctanSize a k ≤ a * (a ^ 2) ^ k := fun k => by
    have h := arctanSize_add_le ha.le 0 k
    simpa [arctanSize_def] using h
  constructor
  · calc ∑ k ∈ range n, arctanSize a k ≤ ∑ k ∈ range n, a * (a ^ 2) ^ k :=
          sum_le_sum fun k _ => hsize k
      _ = a * ∑ k ∈ range n, (a ^ 2) ^ k := (mul_sum _ _ _).symm
      _ ≤ 2 * a := by nlinarith
  · -- `k / (2k + 1) ≤ 1/2`
    have hweight : ∀ k : ℕ, (k : ℝ) * arctanSize a k ≤ a / 2 * (a ^ 2) ^ k := fun k => by
      simp only [arctanSize_def]
      rw [show a ^ (2 * k + 1) = a * (a ^ 2) ^ k by ring, mul_div_assoc', div_le_iff₀ (by positivity)]
      have : 0 ≤ a * (a ^ 2) ^ k := by positivity
      nlinarith
    calc ∑ k ∈ range n, (k : ℝ) * arctanSize a k ≤ ∑ k ∈ range n, a / 2 * (a ^ 2) ^ k :=
          sum_le_sum fun k _ => hweight k
      _ = a / 2 * ∑ k ∈ range n, (a ^ 2) ^ k := (mul_sum _ _ _).symm
      _ ≤ a := by nlinarith

/-! The computed series -/

def arctanStep (a2 : Decimal) (w : Precision) (n : Nat) (power : Decimal) :
    Except Fault (Decimal × Decimal) := do
  let power := -(← power.mul a2 w)
  let term ← power.div (ofInt (2 * n + 1)) w
  pure (power, term)

noncomputable def arctanSumError (w : Precision) : ℝ :=
  ((4 * seriesFuel w + 11 : ℕ) : ℝ) * roundingError w

structure ArctanSeriesArgs (a : ℝ) (w : Precision) (a2 : Decimal) : Prop where
  pos : 0 < a
  le : a ≤ 1 / 10
  digits_ge : 11 ≤ w.digits
  digits_le : w.digits ≤ 100000
  square_tame : a2.Tame
  square_near : Near a2.value (a ^ 2) (roundingError w)

structure ArctanState (a : ℝ) (w : Precision) (n : ℕ) (power sum : Decimal) : Prop where
  one_le : 1 ≤ n
  power_tame : power.Tame
  power_sign : 0 < (-1) ^ (n - 1) * power.value
  power_near : Near |(power.value : ℝ)| (a ^ (2 * (n - 1) + 1)) (2 * (n - 1 : ℕ) * roundingError w)
  sum_within : SignedSum (arctanSize a) (fun k => (-1) ^ k) 6 w n sum

section Series

variable {a : ℝ} {w : Precision} {a2 : Decimal}

theorem ArctanSeriesArgs.digits_lt (A : ArctanSeriesArgs a w a2) : w.digits < 2 ^ 20 := by
  have := A.digits_le
  omega

theorem ArctanSeriesArgs.square_le (A : ArctanSeriesArgs a w a2) : a ^ 2 ≤ 1 / 2 := by
  nlinarith [A.pos, A.le]

theorem ArctanSeriesArgs.small (A : ArctanSeriesArgs a w a2) {n : ℕ} (hn : n ≤ seriesFuel w)
    {c : ℝ} (hc : c ≤ 8) : (c + 2) * (n + 1) * roundingError w ≤ 1 / 100 := by
  have hc' : (c + 2) * (n + 1) ≤ 10 * ((n + 1 : ℕ) : ℝ) + 10 := by
    push_cast
    nlinarith [(n.cast_nonneg : (0 : ℝ) ≤ n)]
  have := series_error_le A.digits_ge A.digits_le (n := n + 1) (by omega) hc'
  linarith

/-- The next power and term: the power within `2n` roundings of `a^(2n+1)` and of the sign
`(-1)^n`, the term within `6 n` roundings of the `n`-th term of the series. -/
theorem arctan_term (A : ArctanSeriesArgs a w a2) {n : ℕ} {power sum : Decimal}
    (hs : ArctanState a w n power sum) (hn : n < 1 + seriesFuel w) :
    (arctanStep a2 w n power).Meets (fun r => r.1.Tame ∧ 0 < (-1) ^ n * r.1.value ∧
      Near |(r.1.value : ℝ)| (a ^ (2 * n + 1)) (2 * n * roundingError w) ∧ r.2.Tame ∧
      |(r.2.value : ℝ) - (-1) ^ n * arctanSize a n| ≤ 6 * n * roundingError w * arctanSize a n)
      (fun _ => True) := by
  obtain ⟨m, rfl⟩ : ∃ m, n = m + 1 := ⟨n - 1, by have := hs.one_le; omega⟩
  have hpow := hs.power_near
  have hsign := hs.power_sign
  simp only [Nat.add_sub_cancel] at hpow hsign
  have hε := roundingError_pos w
  have hz0 : (0 : ℝ) < a2.value := A.square_near.1
  have hz0' : (0 : ℚ) < a2.value := by exact_mod_cast hz0
  unfold arctanStep
  refine meets_bind ((mul_spec hs.power_tame A.square_tame A.digits_lt).mono (fun t h => h)
    fun _ _ => trivial) fun P hP => ?_
  -- the product with `a²`, of the sign of the power
  set q := power.value * a2.value with hqdef
  have hq : Near |(q : ℝ)| (a ^ (2 * m + 1) * a ^ 2) (2 * m * roundingError w + roundingError w) := by
    rw [hqdef, Rat.cast_mul, abs_mul, abs_of_pos hz0]
    exact hpow.mul A.square_near
  have hσ := neg_one_pow_eq_or ℚ m
  have hσq : 0 < (-1) ^ m * q := by
    rw [hqdef, ← mul_assoc]
    exact mul_pos hsign hz0'
  have hq0 : q ≠ 0 := right_ne_zero_of_mul hσq.ne'
  obtain ⟨hPn, hPs⟩ := near_abs_of_rounds hq0 hP.2
  have hPσ := sign_of_same hσ hPs hσq
  -- the next power is `-P`
  have hnegσ : 0 < (-1) ^ (m + 1) * (-P).value := by
    rw [value_neg, pow_succ]
    linarith
  have hnegN : Near |((-P).value : ℝ)| (a ^ (2 * (m + 1) + 1)) (2 * (m + 1 : ℕ) * roundingError w) := by
    rw [value_neg, Rat.cast_neg, abs_neg,
      show a ^ (2 * (m + 1) + 1) = a ^ (2 * m + 1) * a ^ 2 by ring]
    refine (hPn.trans hq).mono (le_of_eq ?_)
    push_cast
    ring
  -- the quotient by `2n + 1`
  have hn20 : m + 1 < 2 ^ 20 := by
    unfold seriesFuel at hn
    have := A.digits_le
    omega
  have hd0 : (ofInt (2 * ((m + 1 : ℕ) : ℤ) + 1)).mantissa ≠ 0 := by
    show 2 * ((m + 1 : ℕ) : ℤ) + 1 ≠ 0
    omega
  have hdt : (ofInt (2 * ((m + 1 : ℕ) : ℤ) + 1)).Tame := by
    refine tame_ofInt (lt_of_lt_of_le ?_ (show 2 ^ 42 ≤ pow10 30 by rw [pow10_eq_pow]; norm_num))
    omega
  refine meets_bind ((div_spec hP.1.neg hdt hd0 A.digits_lt).mono (fun t h => h)
    fun _ _ => trivial) fun T hT => meets_pure ⟨hP.1.neg, hnegσ, hnegN, hT.1, ?_⟩
  rw [value_ofInt] at hT
  set d : ℝ := 2 * ((m + 1 : ℕ) : ℝ) + 1 with hddef
  have hd : 0 < d := by positivity
  set quo := (-P).value / ((2 * ((m + 1 : ℕ) : ℤ) + 1 : ℤ) : ℚ) with hquo
  have hquoR : (quo : ℝ) = ((-P).value : ℝ) / d := by
    rw [hquo, hddef]
    push_cast
    ring
  have hquoσ : 0 < (-1) ^ (m + 1) * quo := by
    rw [hquo, ← mul_div_assoc]
    exact div_pos hnegσ (by positivity)
  have hquo0 : quo ≠ 0 := right_ne_zero_of_mul hquoσ.ne'
  obtain ⟨hTn, hTs⟩ := near_abs_of_rounds hquo0 hT.2
  have hTσ := sign_of_same (neg_one_pow_eq_or ℚ (m + 1)) hTs hquoσ
  -- the term within `2 (m + 1) + 1 ≤ 3 (m + 1)` roundings of the exact term, of its sign
  have hsize : Near |(T.value : ℝ)| |(-1) ^ (m + 1) * arctanSize a (m + 1)|
      (3 * (m + 1 : ℕ) * roundingError w) := by
    rw [abs_mul, abs_neg_one_pow, one_mul, abs_of_nonneg (arctanSize_nonneg A.pos.le _)]
    have hexact : Near |(quo : ℝ)| (arctanSize a (m + 1))
        (2 * (m + 1 : ℕ) * roundingError w + 0) := by
      rw [hquoR, abs_div, abs_of_pos hd, arctanSize_def, ← hddef]
      exact hnegN.div (Near.refl (by positivity))
    refine (hTn.trans hexact).mono ?_
    push_cast
    nlinarith
  have hprod : 0 < (T.value : ℝ) * ((-1) ^ (m + 1) * arctanSize a (m + 1)) := by
    have hTσR : (0 : ℝ) < (-1) ^ (m + 1) * T.value := by exact_mod_cast hTσ
    have hpos : 0 < arctanSize a (m + 1) := by simp only [arctanSize_def]; have := A.pos; positivity
    rw [show (T.value : ℝ) * ((-1) ^ (m + 1) * arctanSize a (m + 1)) =
      (-1) ^ (m + 1) * T.value * arctanSize a (m + 1) by ring]
    exact mul_pos hTσR hpos
  have h3 : 3 * ((m + 1 : ℕ) : ℝ) * roundingError w ≤ 1 / 2 := by
    have := A.small (n := m + 1) (by omega) (c := 1) (by norm_num)
    push_cast at this ⊢
    nlinarith
  refine (abs_sub_le_of_near hsize hprod h3).trans (le_of_eq ?_)
  rw [abs_mul, abs_neg_one_pow, one_mul, abs_of_nonneg (arctanSize_nonneg A.pos.le _)]
  ring

theorem arctan_add (A : ArctanSeriesArgs a w a2) {n : ℕ} {power sum P T : Decimal}
    (hs : ArctanState a w n power sum) (hn : n < 1 + seriesFuel w) (hP : P.Tame)
    (hPσ : 0 < (-1) ^ n * P.value)
    (hPn : Near |(P.value : ℝ)| (a ^ (2 * n + 1)) (2 * n * roundingError w)) (hT : T.Tame)
    (hTerr : |(T.value : ℝ) - (-1) ^ n * arctanSize a n| ≤ 6 * n * roundingError w * arctanSize a n) :
    (sum.add T w).Meets (ArctanState a w (n + 1) P) (fun _ => True) := by
  have hsmall := A.small (n := n) (by omega) (c := 6) (by norm_num)
  refine (hs.sum_within.add (arctanSize_nonneg A.pos.le) abs_neg_one_pow hT (by norm_num) hTerr
    (by linarith) A.digits_lt).mono (fun S hS => ⟨by omega, hP, ?_, ?_, hS⟩) fun _ _ => trivial
  · rwa [Nat.add_sub_cancel]
  · rwa [Nat.add_sub_cancel]

theorem ArctanState.abs_sub_le (A : ArctanSeriesArgs a w a2) {n : ℕ} {power sum : Decimal}
    (hs : ArctanState a w n power sum) :
    |(sum.value : ℝ) - Real.arctan a| ≤
      roundingError w * (6 * a + 4 * n * a) + 2 * arctanSize a n := by
  obtain ⟨hA, hW⟩ := arctanSize_sums_le A.pos A.square_le n
  have h := hs.sum_within.abs_sub_limit_le (arctan_sub_partial_le A.pos.le A.square_le n)
  have hε := (roundingError_pos w).le
  calc |(sum.value : ℝ) - Real.arctan a|
      ≤ roundingError w * (6 * ∑ k ∈ range n, k * arctanSize a k +
          2 * n * ∑ k ∈ range n, arctanSize a k) + 2 * arctanSize a n := h
    _ ≤ roundingError w * (6 * a + 2 * n * (2 * a)) + 2 * arctanSize a n := by gcongr
    _ = roundingError w * (6 * a + 4 * n * a) + 2 * arctanSize a n := by ring

theorem arctan_done_of_negligible (A : ArctanSeriesArgs a w a2) {n : ℕ} {power sum T : Decimal}
    (hs : ArctanState a w n power sum) (hn : n < 1 + seriesFuel w) (hT : T.Tame)
    (hTerr : |(T.value : ℝ) - (-1) ^ n * arctanSize a n| ≤ 6 * n * roundingError w * arctanSize a n)
    (hneg : negligible T sum w = true) :
    |(sum.value : ℝ) - Real.arctan a| ≤ arctanSumError w * a := by
  have hsmall := A.small (n := n) (by omega) (c := 6) (by norm_num)
  have hsize := hs.sum_within.size_le_of_negligible (arctanSize_nonneg A.pos.le) abs_neg_one_pow
    hT (by norm_num) hTerr (by linarith) A.digits_lt hneg
  have hA := (arctanSize_sums_le A.pos A.square_le n).1
  have hε := roundingError_pos w
  have hF : (n : ℝ) ≤ seriesFuel w := by exact_mod_cast (show n ≤ seriesFuel w by omega)
  have hterm : arctanSize a n ≤ roundingError w * (2 * a) / 25 :=
    hsize.trans (by gcongr)
  calc |(sum.value : ℝ) - Real.arctan a|
      ≤ roundingError w * (6 * a + 4 * n * a) + 2 * arctanSize a n := hs.abs_sub_le A
    _ ≤ roundingError w * (6 * a + 4 * seriesFuel w * a) + 2 * (roundingError w * (2 * a) / 25) := by
        have := A.pos
        gcongr
    _ ≤ arctanSumError w * a := by
        unfold arctanSumError
        push_cast
        nlinarith [mul_pos hε A.pos]

theorem arctan_done_of_fuel (A : ArctanSeriesArgs a w a2) {power sum : Decimal}
    (hs : ArctanState a w (1 + seriesFuel w) power sum) :
    |(sum.value : ℝ) - Real.arctan a| ≤ arctanSumError w * a := by
  set F := seriesFuel w
  have hε10 : roundingError w = 10 * 10 ^ (-(w.digits : ℤ)) := roundingError_eq w
  have ha := A.pos
  have hlast : arctanSize a (1 + F) ≤ roundingError w * a / 10 :=
    calc arctanSize a (1 + F) ≤ arctanSize a 0 * (a ^ 2) ^ (1 + F) := arctanSize_add_le ha.le 0 _
      _ ≤ a * (1 / 2) ^ F := by
          rw [show arctanSize a 0 = a by simp [arctanSize_def]]
          gcongr
          calc (a ^ 2) ^ (1 + F) ≤ (1 / 2) ^ (1 + F) := by gcongr; exact A.square_le
            _ ≤ (1 / 2) ^ F := pow_le_pow_of_le_one (by norm_num) (by norm_num) (by omega)
      _ ≤ a * 10 ^ (-(w.digits : ℤ)) := by gcongr; exact half_pow_fuel_le w
      _ = roundingError w * a / 10 := by rw [hε10]; ring
  calc |(sum.value : ℝ) - Real.arctan a|
      ≤ roundingError w * (6 * a + 4 * ((1 + F : ℕ) : ℝ) * a) + 2 * arctanSize a (1 + F) :=
        hs.abs_sub_le A
    _ ≤ roundingError w * (6 * a + 4 * ((1 + F : ℕ) : ℝ) * a) + 2 * (roundingError w * a / 10) := by
        gcongr
    _ ≤ arctanSumError w * a := by
        unfold arctanSumError
        push_cast
        nlinarith [mul_pos (roundingError_pos w) ha]

theorem arctanState_start {x : Decimal} (hx : x.Tame) (ha : 0 < a) (hxa : (x.value : ℝ) = a) :
    ArctanState a w 1 x x := by
  have hx0 : (0 : ℚ) < x.value := by exact_mod_cast hxa ▸ ha
  refine ⟨le_refl 1, hx, by simpa using hx0, ?_, ⟨hx, ?_⟩⟩
  · simpa [hxa, abs_of_pos ha] using Near.refl ha
  · simp only [range_one, sum_singleton, pow_zero, one_mul, arctanSize_def, hxa]
    simpa using mul_nonneg (roundingError_pos w).le (mul_nonneg (by norm_num : (0 : ℝ) ≤ 2) ha.le)

theorem arctanSum_spec (A : ArctanSeriesArgs a w a2) {x : Decimal} (hx : x.Tame)
    (hxa : (x.value : ℝ) = a) :
    (series w (arctanStep a2 w) x x).Meets (fun S => S.Tame ∧
      |(S.value : ℝ) - Real.arctan a| ≤ arctanSumError w * a) (fun _ => True) := by
  refine series_meets_inv (fun n power sum => ArctanState a w n power sum) _
    (fun n power sum hn hs => ?_) (fun power sum hs => ⟨hs.sum_within.tame, arctan_done_of_fuel A hs⟩)
    (arctanState_start hx A.pos hxa)
  refine (arctan_term A hs hn).mono (fun r hr => ⟨fun hneg => ?_, fun _ => ?_⟩)
    fun _ _ => trivial
  · exact ⟨hs.sum_within.tame, arctan_done_of_negligible A hs hn hr.2.2.2.1 hr.2.2.2.2 hneg⟩
  · exact arctan_add A hs hn hr.1 hr.2.1 hr.2.2.1 hr.2.2.2.1 hr.2.2.2.2

end Series

theorem tame_pi {p : Precision} (hp : p.digits ≤ 1000000) : (pi p).Tame := by
  obtain ⟨hwords, hexp⟩ := machinDecimal_words hp
  have hscale := round_scale_mem hwords hexp p
  have hdigits := machinDecimal_digits_le hp
  have hround := round_digits_le p
    (show (machinDecimal p).digits < 2 ^ 32 by unfold guardDigits at hdigits; omega)
  rw [pi_eq_round_machin (by unfold guardDigits; omega)]
  have hsc : (machinDecimal p).scale = ((p.digits + 10 : ℕ) : ℤ) := rfl
  unfold guardDigits at hdigits
  refine ⟨by omega, fun _ => ?_⟩
  omega

/-! The working arctangent -/

theorem one_lt_abs_iff {x : Decimal} (hx : x.Tame) : one < x.abs ↔ 1 < |(x.value : ℝ)| := by
  rw [lt_iff_of_tame tame_one hx.abs, value_one, value_abs, ← Rat.cast_abs]
  exact_mod_cast Iff.rfl

theorem halving_start_abs {x : Decimal} (hx : x.Tame) (h0 : x.mantissa ≠ 0)
    (hle : |(x.value : ℝ)| ≤ 1) {w : Precision} :
    Halving (Real.arctan |(x.value : ℝ)|) w x.abs 0 := by
  have hX0 : 0 < |(x.value : ℝ)| := abs_pos.mpr (by exact_mod_cast value_eq_zero_iff.not.mpr h0)
  refine ⟨hx.abs, ?_, ?_, ?_⟩
  · rw [value_abs]
    exact abs_pos.mpr (value_eq_zero_iff.not.mpr h0)
  · rw [value_abs, Rat.cast_abs]
    simp only [pow_zero, mul_one]
    linarith
  · rw [value_abs, Rat.cast_abs]
    simpa using Near.refl (Real.arctan_pos.mpr hX0)

noncomputable def arctanError (w : Precision) : ℝ :=
  ((24 * seriesFuel w + 716 : ℕ) : ℝ) * roundingError w

section Working

variable {w : Precision} (hw : 11 ≤ w.digits) (hw' : w.digits ≤ 100000)
include hw hw'

theorem arctanSumError_le : arctanSumError w ≤ 1 / 100 := by
  unfold arctanSumError
  exact series_error_le hw hw' (n := seriesFuel w + 1) le_rfl (by push_cast; linarith)

theorem arctanSquare_meets {θ : ℝ} {a : Decimal} {k : ℕ} (hs : Halving θ w a k)
    (ha : (a.value : ℝ) ≤ 1 / 10) :
    (a.mul a w).Meets (fun a2 => ArctanSeriesArgs a.value w a2) (fun _ => True) := by
  refine (mul_spec hs.tame hs.tame (by omega)).mono
    (fun a2 ha2 => ⟨by exact_mod_cast hs.pos, ha, hw, hw', ha2.1, ?_⟩) fun _ _ => trivial
  have := near_of_rounds (mul_pos hs.pos hs.pos) ha2.2
  rwa [Rat.cast_mul, ← sq] at this

/-- The series of a halved angle, scaled back by `2 ^ k`, is within `3 S + 321` roundings of the
angle `θ` the halvings started from, `S` the series error. -/
theorem scaledSum_meets {θ : ℝ} {a : Decimal} {k : ℕ} (hs : Halving θ w a k)
    (ha : (a.value : ℝ) ≤ 1 / 10) (hk : k ≤ angleFuel) {β : Type} {P : β → Prop}
    (cont : Decimal → Except Fault β)
    (hcont : ∀ res : Decimal, res.Tame →
      Near res.value θ (3 * arctanSumError w + 321 * roundingError w) →
      (cont res).Meets P (fun _ => True)) :
    (do
      let a2 ← a.mul a w
      let sum ← series w (arctanStep a2 w) a a
      let res ← sum.mul (ofInt (Nat.pow 2 k)) w
      cont res).Meets P (fun _ => True) := by
  have hw20 : w.digits < 2 ^ 20 := by omega
  have hε := roundingError_pos w
  have hA : (0 : ℝ) < a.value := by exact_mod_cast hs.pos
  refine meets_bind (arctanSquare_meets hw hw' hs ha) fun a2 A => ?_
  refine meets_bind ((arctanSum_spec A hs.tame rfl).mono (fun t h => h) fun _ _ => trivial)
    fun S hS => ?_
  -- `arctan a ≥ a / (1 + a²) ≥ 100 a / 101` turns the sum's error into a relative one
  set α := Real.arctan a.value
  have hα : (a.value : ℝ) ≤ 101 / 100 * α := by
    have h := div_one_add_sq_le_arctan hA.le
    rw [div_le_iff₀ (by positivity)] at h
    nlinarith [A.square_le, Real.arctan_nonneg.mpr hA.le]
  have hα0 : 0 < α := Real.arctan_pos.mpr hA
  have hsum := arctanSumError_le hw hw'
  have hSN : Near S.value α (3 * arctanSumError w) := by
    have h0 : 0 ≤ arctanSumError w := by unfold arctanSumError; positivity
    refine (Near.of_abs_sub_le hα0 (u := 3 / 2 * arctanSumError w) (by linarith)
      (hS.2.trans ?_)).mono (by linarith)
    calc arctanSumError w * a.value ≤ arctanSumError w * (101 / 100 * α) :=
          mul_le_mul_of_nonneg_left hα h0
      _ ≤ 3 / 2 * arctanSumError w * α := by nlinarith
  -- the scale `2 ^ k` is exact and a working value
  have hpow : ((ofInt (Nat.pow 2 k)).value : ℝ) = 2 ^ k := by
    rw [value_ofInt, Nat.pow_eq]
    push_cast
    rfl
  have htame : (ofInt (Nat.pow 2 k)).Tame := by
    refine tame_ofInt ?_
    rw [Int.natAbs_natCast, Nat.pow_eq, pow10_eq_pow]
    calc 2 ^ k ≤ 2 ^ 64 := Nat.pow_le_pow_right (by norm_num) hk
      _ < 10 ^ 30 := by norm_num
  refine meets_bind ((mul_spec hS.1 htame hw20).mono (fun t h => h) fun _ _ => trivial)
    fun res hres => hcont res hres.1 ?_
  have hS0 : (0 : ℚ) < S.value := by exact_mod_cast hSN.1
  have hpow0 : (0 : ℚ) < (ofInt (Nat.pow 2 k)).value := by exact_mod_cast hpow ▸ (by positivity : (0 : ℝ) < 2 ^ k)
  have hround := near_of_rounds (mul_pos hS0 hpow0) hres.2
  rw [Rat.cast_mul, hpow, mul_comm] at hround
  have hk64 : (k : ℝ) ≤ 64 := by exact_mod_cast hk
  refine ((hround.trans (hSN.mul_left (by positivity))).trans hs.near).mono ?_
  nlinarith

theorem halfPi_meets : ((pi w).div 2 w).Meets (fun half => half.Tame ∧
    |(half.value : ℝ) - Real.pi / 2| ≤ 3 * roundingError w) (fun _ => True) := by
  have hw20 : w.digits < 2 ^ 20 := by omega
  have hε10 := roundingError_le_tiny hw
  have hpi : |((pi w).value : ℝ) - Real.pi| < roundingError w := pi_within_unit w (by omega)
  refine (div_spec (tame_pi (by omega)) tame_two (by decide) hw20).mono
    (fun half hhalf => ⟨hhalf.1, ?_⟩) fun _ _ => trivial
  have h := abs_sub_of_rounds hhalf.2
  rw [value_two, Rat.cast_div, Rat.cast_ofNat, abs_div, abs_two] at h
  have hpv : |((pi w).value : ℝ)| ≤ 4 := by
    rw [abs_lt] at hpi
    rw [abs_le]
    constructor <;> linarith [Real.pi_pos, Real.pi_lt_d2]
  have := abs_sub_le (half.value : ℝ) (((pi w).value : ℝ) / 2) (Real.pi / 2)
  rw [show ((pi w).value : ℝ) / 2 - Real.pi / 2 = (((pi w).value : ℝ) - Real.pi) / 2 by ring,
    abs_div, abs_two] at this
  nlinarith [roundingError_pos w]

/-- Subtracting a working value within `t` roundings of `y ≤ π/4` from the working `π/2` leaves
a working value within `2t + 6` roundings of `π/2 - y`: the difference is at least `π/4`, so
nothing cancels. -/
theorem complement_meets {res : Decimal} (hres : res.Tame) {y t : ℝ} (hnear : Near res.value y t)
    (ht : t ≤ 1 / 8) (hy : y ≤ Real.pi / 4) {β : Type} {P : β → Prop}
    (cont : Decimal → Except Fault β)
    (hcont : ∀ r : Decimal, r.Tame → |(r.value : ℝ) - (Real.pi / 2 - y)| ≤
      (2 * t + 6 * roundingError w) * (Real.pi / 2 - y) → (cont r).Meets P (fun _ => True)) :
    (do
      let half ← (pi w).div 2 w
      let r ← half.sub res w
      cont r).Meets P (fun _ => True) := by
  have hw20 : w.digits < 2 ^ 20 := by omega
  set ε := roundingError w
  have hε := roundingError_pos w
  have hε10 : ε ≤ 1 / 10000000000 := roundingError_le_tiny hw
  refine meets_bind (halfPi_meets hw hw') fun half hhalf => ?_
  refine meets_bind ((sub_spec hhalf.1 hres hw20).mono (fun t h => h) fun _ _ => trivial)
    fun r hr => hcont r hr.1 ?_
  set T := Real.pi / 2 - y with hTdef
  have hT : 3 / 4 ≤ T := by linarith [Real.pi_gt_three]
  have hyT : y ≤ T := by linarith
  have hhalfN := hhalf.2
  have hresN : |(res.value : ℝ) - y| ≤ 2 * t * y := hnear.abs_sub_le (by linarith)
  -- the exact difference is within `4ε + 2t` of `T`, relatively
  have hD : |((half.value - res.value : ℚ) : ℝ) - T| ≤ (4 * ε + 2 * t) * T := by
    rw [Rat.cast_sub, show (half.value : ℝ) - res.value - T =
      ((half.value : ℝ) - Real.pi / 2) - ((res.value : ℝ) - y) by ring]
    have := abs_sub (((half.value : ℝ) - Real.pi / 2)) ((res.value : ℝ) - y)
    have ht0 := hnear.nonneg
    nlinarith [hnear.2.1]
  have hround := abs_sub_of_rounds hr.2
  have hDsize : |((half.value - res.value : ℚ) : ℝ)| ≤ 2 * T := by
    have := abs_sub_abs_le_abs_sub ((half.value - res.value : ℚ) : ℝ) T
    rw [abs_of_pos (by linarith : (0 : ℝ) < T)] at this
    nlinarith [hnear.nonneg]
  calc |(r.value : ℝ) - T|
      ≤ |(r.value : ℝ) - ((half.value - res.value : ℚ) : ℝ)| +
          |((half.value - res.value : ℚ) : ℝ) - T| := abs_sub_le _ _ _
    _ ≤ ε * (2 * T) + (4 * ε + 2 * t) * T := by
        gcongr
        exact hround.trans (mul_le_mul_of_nonneg_left hDsize hε.le)
    _ = (2 * t + 6 * ε) * T := by ring

theorem inverse_meets {x : Decimal} (hx : x.Tame) (h0 : x.mantissa ≠ 0)
    (hgt : 1 < |(x.value : ℝ)|) :
    (one.div x.abs w).Meets (fun a0 => Halving (Real.arctan a0.value) w a0 0 ∧
      Near a0.value |(x.value : ℝ)|⁻¹ (roundingError w)) (fun _ => True) := by
  have hε10 := roundingError_le_tiny hw
  have hε := roundingError_pos w
  set X : ℝ := |(x.value : ℝ)| with hX
  have hX0 : 0 < X := abs_pos.mpr (by exact_mod_cast value_eq_zero_iff.not.mpr h0)
  refine (div_spec tame_one hx.abs (by simpa [abs_mantissa] using h0) (by omega)).mono
    (fun a0 ha0 => ?_) fun _ _ => trivial
  rw [value_one, value_abs] at ha0
  have hq : (0 : ℚ) < 1 / |x.value| :=
    one_div_pos.mpr (abs_pos.mpr (value_eq_zero_iff.not.mpr h0))
  have ha0N : Near a0.value X⁻¹ (roundingError w) := by
    have h := near_of_rounds hq ha0.2
    rwa [Rat.cast_div, Rat.cast_one, Rat.cast_abs, one_div] at h
  have ha0le : (a0.value : ℝ) ≤ 2 := by
    have h := abs_sub_of_rounds ha0.2
    rw [Rat.cast_div, Rat.cast_one, Rat.cast_abs, ← hX, one_div,
      abs_of_pos (inv_pos.mpr hX0)] at h
    have hinv1 : X⁻¹ ≤ 1 := inv_le_one_of_one_le₀ hgt.le
    have := (abs_le.mp h).2
    nlinarith
  exact ⟨⟨ha0.1, by exact_mod_cast ha0N.1, by simpa using ha0le,
    by simpa using Near.refl (Real.arctan_pos.mpr ha0N.1)⟩, ha0N⟩

/-- The working arctangent of every working value is within `arctanError w` of `arctan x`,
relatively, whenever it is computed. -/
theorem arctanWorking_spec {x : Decimal} (hx : x.Tame) :
    (arctanWorking x w).Meets (fun s => s.Tame ∧
      |(s.value : ℝ) - Real.arctan x.value| ≤ arctanError w * |Real.arctan x.value|)
      (fun _ => True) := by
  have hw20 : w.digits < 2 ^ 20 := by omega
  have hε := roundingError_pos w
  have hε10 := roundingError_le_tiny hw
  have hsum := arctanSumError_le hw hw'
  set δ := 3 * arctanSumError w + 321 * roundingError w with hδ
  have hδ8 : δ + roundingError w ≤ 1 / 8 := by linarith
  have hErr : arctanError w = 2 * δ + 8 * roundingError w := by
    rw [hδ]
    unfold arctanError arctanSumError
    push_cast
    ring
  unfold arctanWorking
  refine meets_ite (fun h0 => meets_pure ⟨tame_zero, ?_⟩) fun h0 => ?_
  · rw [value_zero, value_eq_zero_iff.mpr h0]
    simp
  extract_lets inverted finalStep reduced
  set X : ℝ := |(x.value : ℝ)| with hX
  have hX0 : 0 < X := abs_pos.mpr (by exact_mod_cast value_eq_zero_iff.not.mpr h0)
  -- the answer from a working value of `arctan |x|`, with the sign of `x`
  have hfinal : ∀ res : Decimal, res.Tame →
      |(res.value : ℝ) - Real.arctan X| ≤ arctanError w * Real.arctan X →
      (finalStep res).Meets (fun s => s.Tame ∧
        |(s.value : ℝ) - Real.arctan x.value| ≤ arctanError w * |Real.arctan x.value|)
        (fun _ => True) := by
    intro res hres hnear
    refine meets_pure ⟨?_, ?_⟩
    · split
      · exact hres.neg
      · exact hres
    rcases lt_or_gt_of_ne (show (x.value : ℝ) ≠ 0 by exact_mod_cast value_eq_zero_iff.not.mpr h0)
      with hneg | hpos
    · have hisNeg : x.isNeg = true := isNeg_iff.mpr (by exact_mod_cast hneg)
      rw [if_pos hisNeg, value_neg, Rat.cast_neg]
      rw [hX, abs_of_neg hneg, Real.arctan_neg] at hnear
      rw [abs_of_neg (Real.arctan_lt_zero.mpr hneg),
        show -(res.value : ℝ) - Real.arctan x.value = -((res.value : ℝ) - -Real.arctan x.value) by
          ring, abs_neg]
      exact hnear
    · have hisNeg : x.isNeg = false := by
        rw [Bool.eq_false_iff, Ne, isNeg_iff, not_lt]
        exact_mod_cast hpos.le
      rw [if_neg (by simp [hisNeg])]
      rw [hX, abs_of_pos hpos] at hnear
      rwa [abs_of_pos (Real.arctan_pos.mpr hpos)]
  have hαX : 0 < Real.arctan X := Real.arctan_pos.mpr hX0
  by_cases hinv : inverted
  · -- above one: `arctan |x| = π/2 - arctan (1/|x|)`, with `arctan (1/|x|) ≤ π/4`
    rw [if_pos hinv]
    have hgt : 1 < X := (one_lt_abs_iff hx).mp hinv
    refine meets_bind (inverse_meets hw hw' hx h0 hgt) fun a0 ha0 => ?_
    obtain ⟨hstart, ha0N⟩ := ha0
    refine meets_bind (halveAngle_spec hw hw20 angleFuel (by simp) hstart) fun r hr => ?_
    obtain ⟨a, k⟩ := r
    obtain ⟨hh, ha, hk⟩ := hr
    refine scaledSum_meets hw hw' hh ha hk _ fun res hres hnear => ?_
    rw [if_pos hinv]
    -- the angle reached is `arctan (1/|x|)` up to the rounding of `1/|x|`
    have hy : Near res.value (Real.arctan X⁻¹) (δ + roundingError w) := hnear.trans ha0N.arctan
    have hyle : Real.arctan X⁻¹ ≤ Real.pi / 4 := by
      rw [← Real.arctan_one]
      exact Real.arctan_strictMono.monotone (inv_le_one_of_one_le₀ hgt.le)
    refine complement_meets hw hw' hres hy hδ8 hyle _ fun r hr hclose => ?_
    rw [Real.arctan_inv_of_pos hX0, sub_sub_cancel] at hclose
    refine hfinal r hr (hclose.trans (le_of_eq ?_))
    rw [hErr, hδ]
    ring
  · -- at most one: the halvings start from `|x|` itself
    rw [if_neg hinv]
    have hle : X ≤ 1 := not_lt.mp ((one_lt_abs_iff hx).not.mp hinv)
    refine meets_bind (Q := fun a0 => Halving (Real.arctan X) w a0 0)
      (meets_pure (halving_start_abs hx h0 hle))
      fun a0 ha0 => ?_
    refine meets_bind (halveAngle_spec hw hw20 angleFuel (by simp) ha0) fun r hr => ?_
    obtain ⟨a, k⟩ := r
    obtain ⟨hh, ha, hk⟩ := hr
    refine scaledSum_meets hw hw' hh ha hk _ fun res hres hnear => ?_
    rw [if_neg hinv]
    refine meets_bind (Q := fun r => r = res) (meets_pure rfl) fun r hr => ?_
    rw [hr]
    refine hfinal res hres ((hnear.abs_sub_le (by linarith)).trans
      (mul_le_mul_of_nonneg_right ?_ hαX.le))
    rw [hErr]
    linarith

end Working

end Calculator.Elementary
