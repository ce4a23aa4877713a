import Calculator.Proofs.ArctanAccuracy
/-!
The series of the sine and the cosine, `Σ (-1)^k a^(2k+j)/(2k+j)!` for `j = 1` and `j = 0`, on an
argument within `16/5` of zero. The terms change sign, so the partial sums are tracked in
absolute terms (`SignedSum`); each term gains three roundings over the one before (the square,
the product and the quotient). The sizes of the terms add up to at most `exp a`, and past the
first term each is at most `a²/12` of the one before, so a term that no longer shows in the sum
leaves a tail of at most seven times itself. Each partial sum past the first is within seven
terms of the value `f`, so each addition rounds a sum of about `|f|` in size: the sum is within
`1600 + (F + 1) |f|` roundings of `f`, `F` the series' fuel, an error in absolute terms, which no
sign of the value bounds relatively, but only sixteen hundred roundings of it.
-/

open Except

namespace Calculator.Elementary

open Decimal Finset

/-! The sizes of the terms -/

noncomputable def trigSize (j : ℕ) (a : ℝ) (k : ℕ) : ℝ := a ^ (2 * k + j) / (2 * k + j).factorial

theorem trigSize_nonneg {a : ℝ} (ha : 0 ≤ a) (j k : ℕ) : 0 ≤ trigSize j a k := by
  unfold trigSize
  positivity

theorem trigSize_pos {a : ℝ} (ha : 0 < a) (j k : ℕ) : 0 < trigSize j a k := by
  unfold trigSize
  positivity

theorem trigSize_succ (j : ℕ) (a : ℝ) (k : ℕ) :
    trigSize j a (k + 1) = trigSize j a k * a ^ 2 / ((2 * k + j + 1) * (2 * k + j + 2)) := by
  unfold trigSize
  rw [show 2 * (k + 1) + j = 2 * k + j + 1 + 1 by ring, Nat.factorial_succ, Nat.factorial_succ]
  push_cast
  field_simp
  ring

theorem trigSize_add_le {a : ℝ} (ha : 0 ≤ a) (j n i : ℕ) :
    trigSize j a (i + n) ≤
      trigSize j a n * (a ^ 2 / ((2 * n + j + 1) * (2 * n + j + 2))) ^ i := by
  induction i with
  | zero => simp
  | succ i ih =>
    have hden : ((2 * n + j + 1) * (2 * n + j + 2) : ℝ) ≤
        (2 * ((i + n : ℕ) : ℝ) + j + 1) * (2 * ((i + n : ℕ) : ℝ) + j + 2) := by
      push_cast
      have := i.cast_nonneg (α := ℝ)
      nlinarith [n.cast_nonneg (α := ℝ), j.cast_nonneg (α := ℝ)]
    have hpos : (0 : ℝ) < (2 * n + j + 1) * (2 * n + j + 2) := by positivity
    have hsize := trigSize_nonneg ha j (i + n)
    rw [show i + 1 + n = (i + n) + 1 by ring, trigSize_succ, pow_succ]
    calc trigSize j a (i + n) * a ^ 2 /
          ((2 * ((i + n : ℕ) : ℝ) + j + 1) * (2 * ((i + n : ℕ) : ℝ) + j + 2))
        ≤ trigSize j a (i + n) * a ^ 2 / ((2 * n + j + 1) * (2 * n + j + 2)) := by gcongr
      _ ≤ trigSize j a n * (a ^ 2 / ((2 * n + j + 1) * (2 * n + j + 2))) ^ i * a ^ 2 /
            ((2 * n + j + 1) * (2 * n + j + 2)) := by gcongr
      _ = _ := by ring

theorem sum_pow_div_factorial_le_exp {a : ℝ} (ha : 0 ≤ a) {g : ℕ → ℕ} (hg : g.Injective)
    (n : ℕ) : ∑ k ∈ range n, a ^ g k / (g k).factorial ≤ Real.exp a := by
  rw [← sum_image (f := fun m => a ^ m / (m.factorial : ℝ)) hg.injOn]
  refine (sum_le_sum_of_subset_of_nonneg (subset_range_sup_succ _)
    fun m _ _ => by positivity).trans ?_
  exact Real.sum_le_exp_of_nonneg ha _

theorem trigSize_sums_le {a : ℝ} (ha : 0 ≤ a) (j n : ℕ) :
    ∑ k ∈ range n, trigSize j a k ≤ Real.exp a ∧
      ∑ k ∈ range n, (k : ℝ) * trigSize j a k ≤ a * Real.exp a := by
  refine ⟨sum_pow_div_factorial_le_exp ha (g := fun k => 2 * k + j)
    (fun k l h => by simp only at h; omega) n, ?_⟩
  have hweight : ∀ k : ℕ, (k : ℝ) * trigSize j a k ≤
      a * (a ^ (2 * k + j - 1) / (2 * k + j - 1).factorial) := by
    intro k
    rcases Nat.eq_zero_or_pos k with rfl | hk
    · simp only [CharP.cast_eq_zero, zero_mul]
      positivity
    obtain ⟨m, hm⟩ : ∃ m, 2 * k + j = m + 1 := ⟨2 * k + j - 1, by omega⟩
    have hkm : (k : ℝ) ≤ m + 1 := by exact_mod_cast (show k ≤ m + 1 by omega)
    unfold trigSize
    rw [hm, Nat.add_sub_cancel, Nat.factorial_succ, pow_succ]
    push_cast
    rw [show (k : ℝ) * (a ^ m * a / ((m + 1) * m.factorial)) =
      k / (m + 1) * (a * (a ^ m / m.factorial)) by field_simp]
    have hfrac : (k : ℝ) / (m + 1) ≤ 1 := (div_le_one (by positivity)).mpr hkm
    have : 0 ≤ a * (a ^ m / m.factorial) := by positivity
    nlinarith
  calc ∑ k ∈ range n, (k : ℝ) * trigSize j a k
      ≤ ∑ k ∈ range n, a * (a ^ (2 * k + j - 1) / (2 * k + j - 1).factorial) :=
        sum_le_sum fun k _ => hweight k
    _ = a * ∑ k ∈ range n, a ^ (2 * k + j - 1) / (2 * k + j - 1).factorial := (mul_sum _ _ _).symm
    _ ≤ a * Real.exp a := by
        gcongr
        exact sum_pow_div_factorial_le_exp ha (g := fun k => 2 * k + j - 1)
          (fun k l h => by simp only at h; omega) n

theorem exp_le_fiftyFive {a : ℝ} (ha : a ≤ 4) : Real.exp a ≤ 55 := by
  calc Real.exp a ≤ Real.exp 1 ^ 4 := by
        rw [← Real.exp_nat_mul]
        exact Real.exp_le_exp.mpr (by norm_num; linarith)
    _ ≤ 2.7182818286 ^ 4 := by gcongr; exact Real.exp_one_lt_d9.le
    _ ≤ 55 := by norm_num

theorem hasSum_sin_trigSize {r : ℝ} {σ : ℝ} (hr : r = σ * |r|) (hσ : σ ^ 2 = 1) :
    HasSum (fun k => σ * (-1) ^ k * trigSize 1 |r| k) (Real.sin r) := by
  convert Real.hasSum_sin r using 2 with k
  unfold trigSize
  conv_rhs => rw [hr]
  rw [mul_pow, pow_succ σ, pow_mul, hσ, one_pow, one_mul]
  ring

theorem hasSum_cos_trigSize (r : ℝ) :
    HasSum (fun k => (1 : ℚ) * (-1) ^ k * trigSize 0 |r| k) (Real.cos r) := by
  convert Real.hasSum_cos r using 2 with k
  unfold trigSize
  rw [add_zero, pow_mul, pow_mul, sq_abs]
  push_cast
  ring

/-! The computed series -/

def trigStep (d : ℕ → ℤ) (r2 : Decimal) (w : Precision) (n : Nat) (term : Decimal) :
    Except Fault (Decimal × Decimal) := do
  let term := -(← (← term.mul r2 w).div (ofInt (d n)) w)
  pure (term, term)

structure TrigSeriesArgs (j : ℕ) (a : ℝ) (σ : ℚ) (f : ℝ) (d : ℕ → ℤ) (w : Precision)
    (r2 : Decimal) : Prop where
  j_le : j ≤ 1
  pos : 0 < a
  le : a ≤ 16 / 5
  sign : σ = 1 ∨ σ = -1
  limit : HasSum (fun k => (σ : ℝ) * (-1) ^ k * trigSize j a k) f
  limit_le : |f| ≤ 1
  divisor : ∀ n, 1 ≤ n → d n = (2 * n + j - 1) * (2 * n + j)
  digits_ge : 11 ≤ w.digits
  digits_le : w.digits ≤ 100000
  square_tame : r2.Tame
  square_near : Near r2.value (a ^ 2) (roundingError w)

structure TrigState (j : ℕ) (a : ℝ) (σ : ℚ) (f : ℝ) (w : Precision) (n : ℕ) (term sum : Decimal) :
    Prop where
  one_le : 1 ≤ n
  term_tame : term.Tame
  term_sign : 0 < σ * (-1) ^ (n - 1) * term.value
  term_near : Near |(term.value : ℝ)| (trigSize j a (n - 1)) (3 * (n - 1 : ℕ) * roundingError w)
  sum_within : SignedSum (trigSize j a) (fun k => σ * (-1) ^ k) 6 w n sum
  sum_settles : |(sum.value : ℝ) - ∑ k ∈ range n, (σ : ℝ) * (-1) ^ k * trigSize j a k| ≤
    roundingError w * (6 * ∑ k ∈ range n, k * trigSize j a k + n * (|f| + 1 / 5000) +
      7 * ∑ k ∈ range n, trigSize j a k)

section Series

variable {j : ℕ} {a : ℝ} {σ : ℚ} {f : ℝ} {d : ℕ → ℤ} {w : Precision} {r2 : Decimal}

theorem TrigSeriesArgs.digits_lt (A : TrigSeriesArgs j a σ f d w r2) : w.digits < 2 ^ 20 := by
  have := A.digits_le
  omega

theorem TrigSeriesArgs.sign_pow (A : TrigSeriesArgs j a σ f d w r2) (n : ℕ) :
    σ * (-1) ^ n = 1 ∨ σ * (-1) ^ n = -1 := by
  rcases A.sign with rfl | rfl <;> rcases neg_one_pow_eq_or ℚ n with h | h <;> simp [h]

theorem TrigSeriesArgs.abs_sign (A : TrigSeriesArgs j a σ f d w r2) (k : ℕ) :
    |(σ : ℝ) * (-1) ^ k| = 1 := by
  rcases A.sign with rfl | rfl <;> simp

theorem TrigSeriesArgs.small (A : TrigSeriesArgs j a σ f d w r2) {n : ℕ} (hn : n ≤ seriesFuel w)
    {c : ℝ} (hc : c ≤ 8) : (c + 2) * (n + 1) * roundingError w ≤ 1 / 100 := by
  have hc' : (c + 2) * (n + 1) ≤ 10 * ((n + 1 : ℕ) : ℝ) + 10 := by
    push_cast
    nlinarith [(n.cast_nonneg : (0 : ℝ) ≤ n)]
  have := series_error_le A.digits_ge A.digits_le (n := n + 1) (by omega) hc'
  linarith

theorem TrigSeriesArgs.sums_le (A : TrigSeriesArgs j a σ f d w r2) (n : ℕ) :
    ∑ k ∈ range n, trigSize j a k ≤ 55 ∧ ∑ k ∈ range n, (k : ℝ) * trigSize j a k ≤ 176 := by
  obtain ⟨hA, hW⟩ := trigSize_sums_le A.pos.le j n
  have hexp := exp_le_fiftyFive (a := a) (by linarith [A.le])
  refine ⟨hA.trans hexp, hW.trans ?_⟩
  calc a * Real.exp a ≤ 16 / 5 * 55 := by gcongr; exacts [A.le]
    _ = 176 := by norm_num

theorem TrigSeriesArgs.sub_partial_le (A : TrigSeriesArgs j a σ f d w r2) {n : ℕ} (hn : 1 ≤ n) :
    |f - ∑ k ∈ range n, (σ : ℝ) * (-1) ^ k * trigSize j a k| ≤ 7 * trigSize j a n := by
  have ha2 : a ^ 2 ≤ 256 / 25 := by nlinarith [A.pos, A.le]
  have h := abs_sub_partial_le A.limit n (b := trigSize j a n) (r := a ^ 2 / 12) (by positivity)
    (by linarith) fun i => by
      rw [abs_mul, A.abs_sign, one_mul, abs_of_nonneg (trigSize_nonneg A.pos.le j _)]
      refine (trigSize_add_le A.pos.le j n i).trans ?_
      gcongr
      · exact trigSize_nonneg A.pos.le j n
      · have : (1 : ℝ) ≤ n := by exact_mod_cast hn
        nlinarith [j.cast_nonneg (α := ℝ)]
  refine h.trans ?_
  rw [div_le_iff₀ (by linarith)]
  nlinarith [trigSize_nonneg A.pos.le j n]

theorem TrigSeriesArgs.size_succ_le (A : TrigSeriesArgs j a σ f d w r2) {n : ℕ} (hn : 1 ≤ n) :
    trigSize j a (n + 1) ≤ trigSize j a n := by
  have ha2 : a ^ 2 ≤ 256 / 25 := by nlinarith [A.pos, A.le]
  have hn' : (1 : ℝ) ≤ n := by exact_mod_cast hn
  have hden : (12 : ℝ) ≤ (2 * n + j + 1) * (2 * n + j + 2) := by
    nlinarith [j.cast_nonneg (α := ℝ)]
  rw [trigSize_succ, div_le_iff₀ (by positivity)]
  nlinarith [trigSize_nonneg A.pos.le j n]

/-- A partial sum past the first term is within seven times its last term of the limit. -/
theorem TrigSeriesArgs.partial_le (A : TrigSeriesArgs j a σ f d w r2) {n : ℕ} (hn : 1 ≤ n) :
    |∑ k ∈ range (n + 1), (σ : ℝ) * (-1) ^ k * trigSize j a k| ≤ |f| + 7 * trigSize j a n := by
  have htail := A.sub_partial_le (n := n + 1) (by omega)
  have := abs_sub_abs_le_abs_sub (∑ k ∈ range (n + 1), (σ : ℝ) * (-1) ^ k * trigSize j a k) f
  rw [abs_sub_comm] at this
  linarith [A.size_succ_le hn]

theorem TrigSeriesArgs.fuel_small (A : TrigSeriesArgs j a σ f d w r2) :
    ((seriesFuel w : ℝ) + 1) * roundingError w ≤ 1 / 10000 := by
  have h := fuel_mul_roundingError_le A.digits_le
  have h4 : (10 : ℝ) ^ (7 - (w.digits : ℤ)) ≤ 10 ^ (-4 : ℤ) :=
    zpow_le_zpow_right₀ (by norm_num) (by have := A.digits_ge; omega)
  rw [show (10 : ℝ) ^ (-4 : ℤ) = 1 / 10000 by norm_num] at h4
  linarith

theorem TrigSeriesArgs.term_err (A : TrigSeriesArgs j a σ f d w r2) {n : ℕ}
    (hn : n ≤ seriesFuel w) {T : Decimal} (hTσ : 0 < σ * (-1) ^ n * T.value)
    (hTn : Near |(T.value : ℝ)| (trigSize j a n) (3 * n * roundingError w)) :
    |(T.value : ℝ) - σ * (-1) ^ n * trigSize j a n| ≤ 6 * n * roundingError w * trigSize j a n := by
  have hsize : |(σ : ℝ) * (-1) ^ n * trigSize j a n| = trigSize j a n := by
    rw [abs_mul, A.abs_sign, one_mul, abs_of_nonneg (trigSize_nonneg A.pos.le j n)]
  have hprod : 0 < (T.value : ℝ) * (σ * (-1) ^ n * trigSize j a n) := by
    have hTσR : (0 : ℝ) < σ * (-1) ^ n * T.value := by exact_mod_cast hTσ
    rw [show (T.value : ℝ) * (σ * (-1) ^ n * trigSize j a n) =
      σ * (-1) ^ n * T.value * trigSize j a n by ring]
    exact mul_pos hTσR (trigSize_pos A.pos j n)
  have h3 : 3 * (n : ℝ) * roundingError w ≤ 1 / 2 := by
    have := A.small hn (c := 1) (by norm_num)
    nlinarith [roundingError_pos w]
  have hTn' : Near |(T.value : ℝ)| |(σ : ℝ) * (-1) ^ n * trigSize j a n|
      (3 * n * roundingError w) := by
    rw [hsize]
    exact hTn
  refine (abs_sub_le_of_near hTn' hprod h3).trans (le_of_eq ?_)
  rw [hsize]
  ring

/-- The next term is within three more roundings of the `n`-th size, one of `r²`, one of the
product and one of the quotient, and of the sign `σ (-1)^n`. -/
theorem trig_term (A : TrigSeriesArgs j a σ f d w r2) {n : ℕ} {term sum : Decimal}
    (hs : TrigState j a σ f w n term sum) (hn : n < 1 + seriesFuel w) :
    (trigStep d r2 w n term).Meets (fun res => res.1 = res.2 ∧ res.2.Tame ∧
      0 < σ * (-1) ^ n * res.2.value ∧
      Near |(res.2.value : ℝ)| (trigSize j a n) (3 * n * roundingError w)) (fun _ => True) := by
  obtain ⟨m, rfl⟩ : ∃ m, n = m + 1 := ⟨n - 1, by have := hs.one_le; omega⟩
  have hterm := hs.term_near
  have hsign := hs.term_sign
  simp only [Nat.add_sub_cancel] at hterm hsign
  have hz0 : (0 : ℝ) < r2.value := A.square_near.1
  have hz0' : (0 : ℚ) < r2.value := by exact_mod_cast hz0
  unfold trigStep
  refine meets_bind ((mul_spec hs.term_tame A.square_tame A.digits_lt).mono (fun t h => h)
    fun _ _ => trivial) fun P hP => ?_
  -- the product with `r²`, of the sign of the term
  set q := term.value * r2.value with hqdef
  have hq : Near |(q : ℝ)| (trigSize j a m * a ^ 2)
      (3 * m * roundingError w + roundingError w) := by
    rw [hqdef, Rat.cast_mul, abs_mul, abs_of_pos hz0]
    exact hterm.mul A.square_near
  have hσq : 0 < σ * (-1) ^ m * q := by
    rw [hqdef, ← mul_assoc]
    exact mul_pos hsign hz0'
  have hq0 : q ≠ 0 := right_ne_zero_of_mul hσq.ne'
  obtain ⟨hPn, hPs⟩ := near_abs_of_rounds hq0 hP.2
  have hPσ := sign_of_same (A.sign_pow m) hPs hσq
  -- the quotient by the divisor `(2m + j + 1)(2m + j + 2)`, a working value
  have hj := A.j_le
  have hdiv : d (m + 1) = (((2 * m + j + 1) * (2 * m + j + 2) : ℕ) : ℤ) := by
    rw [A.divisor (m + 1) (by omega)]
    push_cast
    ring
  have hn20 : m + 1 < 2 ^ 20 := by
    unfold seriesFuel at hn
    have := A.digits_le
    omega
  have hdpos : (0 : ℝ) < (2 * m + j + 1) * (2 * m + j + 2) := by positivity
  have hdR : ((d (m + 1) : ℤ) : ℝ) = (2 * m + j + 1) * (2 * m + j + 2) := by
    rw [hdiv]
    push_cast
    ring
  have hd0 : (ofInt (d (m + 1))).mantissa ≠ 0 := by
    show d (m + 1) ≠ 0
    rw [hdiv]
    positivity
  have hdt : (ofInt (d (m + 1))).Tame := by
    refine tame_ofInt (lt_of_lt_of_le ?_ (show 2 ^ 42 ≤ pow10 30 by rw [pow10_eq_pow]; norm_num))
    rw [hdiv, Int.natAbs_natCast]
    calc (2 * m + j + 1) * (2 * m + j + 2) < 2 ^ 21 * 2 ^ 21 :=
          Nat.mul_lt_mul'' (by omega) (by omega)
      _ = 2 ^ 42 := by norm_num
  refine meets_bind ((div_spec hP.1 hdt hd0 A.digits_lt).mono (fun t h => h) fun _ _ => trivial)
    fun Q hQ => meets_pure ⟨rfl, hQ.1.neg, ?_, ?_⟩ <;> rw [value_ofInt] at hQ
  · set quo := P.value / (d (m + 1) : ℚ) with hquo
    have hdQ : (0 : ℚ) < d (m + 1) := by exact_mod_cast (show (0 : ℝ) < d (m + 1) by rwa [hdR])
    have hquoσ : 0 < σ * (-1) ^ m * quo := by
      rw [hquo, ← mul_div_assoc]
      exact div_pos hPσ hdQ
    have hquo0 : quo ≠ 0 := right_ne_zero_of_mul hquoσ.ne'
    obtain ⟨-, hQs⟩ := near_abs_of_rounds hquo0 hQ.2
    have hQσ := sign_of_same (A.sign_pow m) hQs hquoσ
    rw [value_neg, show σ * (-1) ^ (m + 1) * -Q.value = σ * (-1) ^ m * Q.value by ring]
    exact hQσ
  · set quo := P.value / (d (m + 1) : ℚ) with hquo
    have hquoAbs : |(quo : ℝ)| = |(P.value : ℝ)| / ((2 * m + j + 1) * (2 * m + j + 2)) := by
      rw [hquo, Rat.cast_div, Rat.cast_intCast, abs_div, hdR, abs_of_pos hdpos]
    have hquoNear : Near |(quo : ℝ)| (trigSize j a (m + 1))
        (roundingError w + (3 * m * roundingError w + roundingError w) + 0) := by
      rw [hquoAbs, trigSize_succ]
      exact (hPn.trans hq).div (Near.refl hdpos)
    have hquo0 : quo ≠ 0 := fun h => by
      have := hquoNear.1
      rw [h, Rat.cast_zero, abs_zero] at this
      exact lt_irrefl 0 this
    obtain ⟨hQn, -⟩ := near_abs_of_rounds hquo0 hQ.2
    rw [value_neg, Rat.cast_neg, abs_neg]
    refine (hQn.trans hquoNear).mono (le_of_eq ?_)
    push_cast
    ring

/-- The error of the sum and of the next term together stay below `1/5000`, so the rounding of
the errors themselves costs at most `ε / 5000` a term. -/
theorem TrigState.room (A : TrigSeriesArgs j a σ f d w r2) {n : ℕ} {term sum T : Decimal}
    (hs : TrigState j a σ f w n term sum) (hn : n < 1 + seriesFuel w)
    (hTerr : |(T.value : ℝ) - σ * (-1) ^ n * trigSize j a n| ≤
      6 * n * roundingError w * trigSize j a n) :
    |(sum.value : ℝ) - ∑ k ∈ range n, (σ : ℝ) * (-1) ^ k * trigSize j a k| +
      |(T.value : ℝ) - σ * (-1) ^ n * trigSize j a n| ≤ 1 / 5000 := by
  obtain ⟨hA, hW⟩ := A.sums_le n
  -- the next term weighs `n t_n ≤ 176`, one summand of the weighted sum of `n + 1` terms
  have hnt : (n : ℝ) * trigSize j a n ≤ 176 :=
    (single_le_sum (f := fun k : ℕ => (k : ℝ) * trigSize j a k)
      (fun k _ => mul_nonneg k.cast_nonneg (trigSize_nonneg A.pos.le j k))
      (mem_range.mpr (Nat.lt_succ_self n))).trans (A.sums_le (n + 1)).2
  have hε := roundingError_pos w
  have hε10 := roundingError_le_tiny A.digits_ge
  have hnF : (n : ℝ) ≤ seriesFuel w := by exact_mod_cast (show n ≤ seriesFuel w by omega)
  have hnε : (n : ℝ) * roundingError w ≤ 1 / 10000 := by nlinarith [A.fuel_small]
  have hE : roundingError w * (6 * ∑ k ∈ range n, k * trigSize j a k + n * (|f| + 1 / 5000) +
      7 * ∑ k ∈ range n, trigSize j a k) ≤
      roundingError w * (6 * 176 + n * (1 + 1 / 5000) + 7 * 55) := by
    gcongr
    exact A.limit_le
  have hD : 6 * n * roundingError w * trigSize j a n ≤ 6 * 176 * roundingError w := by nlinarith
  nlinarith [hs.sum_settles]

theorem trig_add (A : TrigSeriesArgs j a σ f d w r2) {n : ℕ} {term sum T : Decimal}
    (hs : TrigState j a σ f w n term sum) (hn : n < 1 + seriesFuel w) (hT : T.Tame)
    (hTσ : 0 < σ * (-1) ^ n * T.value)
    (hTn : Near |(T.value : ℝ)| (trigSize j a n) (3 * n * roundingError w)) :
    (sum.add T w).Meets (TrigState j a σ f w (n + 1) T) (fun _ => True) := by
  have hsmall := A.small (n := n) (by omega) (c := 6) (by norm_num)
  have hTerr := A.term_err (by omega) hTσ hTn
  refine ((hs.sum_within.add (trigSize_nonneg A.pos.le j) A.abs_sign hT (by norm_num) hTerr
    (by linarith) A.digits_lt).and (add_settled hs.sum_within.tame hT hs.sum_settles hTerr
      (A.partial_le hs.one_le) (hs.room A hn hTerr) A.digits_lt)).mono
    (fun S hS => ⟨by omega, hT, ?_, ?_, hS.1, hS.2⟩) fun _ _ => trivial
  · rwa [Nat.add_sub_cancel]
  · rwa [Nat.add_sub_cancel]

theorem TrigState.abs_sub_le_settled (A : TrigSeriesArgs j a σ f d w r2) {n : ℕ}
    {term sum : Decimal} (hs : TrigState j a σ f w n term sum) :
    |(sum.value : ℝ) - f| ≤
      roundingError w * (1441 + n * (|f| + 1 / 5000)) + 7 * trigSize j a n := by
  obtain ⟨hA, hW⟩ := A.sums_le n
  have hε := (roundingError_pos w).le
  have htail := A.sub_partial_le hs.one_le
  set P := ∑ k ∈ range n, (σ : ℝ) * (-1) ^ k * trigSize j a k
  have := abs_add_le ((sum.value : ℝ) - P) (P - f)
  rw [abs_sub_comm P f, show (sum.value : ℝ) - P + (P - f) = sum.value - f by ring] at this
  have hE : roundingError w * (6 * ∑ k ∈ range n, k * trigSize j a k + n * (|f| + 1 / 5000) +
      7 * ∑ k ∈ range n, trigSize j a k) ≤ roundingError w * (1441 + n * (|f| + 1 / 5000)) :=
    mul_le_mul_of_nonneg_left (by linarith) hε
  linarith [hs.sum_settles]

/-- Past the fuel's last term the count `n / 5000` of the errors' roundings is at most `81`. -/
theorem TrigSeriesArgs.settled_le (A : TrigSeriesArgs j a σ f d w r2) {n : ℕ}
    (hn : n ≤ 1 + seriesFuel w) {τ : ℝ} (hτ : 7 * τ ≤ 16 * roundingError w) :
    roundingError w * (1441 + n * (|f| + 1 / 5000)) + 7 * τ ≤
      roundingError w * (1600 + (seriesFuel w + 1) * |f|) := by
  have hε := roundingError_pos w
  have hnF : (n : ℝ) ≤ seriesFuel w + 1 := by
    rw [add_comm]
    exact_mod_cast hn
  have hF : (seriesFuel w : ℝ) + 1 ≤ 400101 := by
    have := A.digits_le
    exact_mod_cast (show seriesFuel w + 1 ≤ 400101 by unfold seriesFuel; omega)
  have hnf : (n : ℝ) * |f| ≤ (seriesFuel w + 1) * |f| :=
    mul_le_mul_of_nonneg_right hnF (abs_nonneg f)
  nlinarith

theorem trig_done_of_negligible (A : TrigSeriesArgs j a σ f d w r2) {n : ℕ}
    {term sum T : Decimal} (hs : TrigState j a σ f w n term sum) (hn : n < 1 + seriesFuel w)
    (hT : T.Tame) (hTσ : 0 < σ * (-1) ^ n * T.value)
    (hTn : Near |(T.value : ℝ)| (trigSize j a n) (3 * n * roundingError w))
    (hneg : negligible T sum w = true) :
    |(sum.value : ℝ) - f| ≤ roundingError w * (1600 + (seriesFuel w + 1) * |f|) := by
  have hsmall := A.small (n := n) (by omega) (c := 6) (by norm_num)
  have hsize := hs.sum_within.size_le_of_negligible (trigSize_nonneg A.pos.le j) A.abs_sign hT
    (by norm_num) (A.term_err (by omega) hTσ hTn) (by linarith) A.digits_lt hneg
  have hA := (A.sums_le n).1
  have hε := roundingError_pos w
  have hterm : trigSize j a n ≤ roundingError w * 55 / 25 := hsize.trans (by gcongr)
  exact (hs.abs_sub_le_settled A).trans (A.settled_le (by omega) (by linarith))

theorem TrigSeriesArgs.size_le (A : TrigSeriesArgs j a σ f d w r2) {n : ℕ} (hn : 3 ≤ n) :
    trigSize j a n ≤ 6875 * (1 / 5) ^ n := by
  have hratio : a ^ 2 / ((2 * ((3 : ℕ) : ℝ) + j + 1) * (2 * ((3 : ℕ) : ℝ) + j + 2)) ≤ 1 / 5 := by
    rw [div_le_iff₀ (by positivity)]
    push_cast
    nlinarith [A.pos, A.le, j.cast_nonneg (α := ℝ)]
  have hρ : 0 ≤ a ^ 2 / ((2 * ((3 : ℕ) : ℝ) + j + 1) * (2 * ((3 : ℕ) : ℝ) + j + 2)) := by
    positivity
  have h3 : trigSize j a 3 ≤ 55 :=
    (single_le_sum (fun k _ => trigSize_nonneg A.pos.le j k)
      (mem_range.mpr (by norm_num : 3 < 4))).trans (A.sums_le 4).1
  have h := trigSize_add_le A.pos.le j 3 (n - 3)
  rw [Nat.sub_add_cancel hn] at h
  have hfifth : ((1 : ℝ) / 5) ^ n = (1 / 5) ^ (n - 3) * (1 / 5) ^ 3 := by
    rw [← pow_add, Nat.sub_add_cancel hn]
  calc trigSize j a n
      ≤ trigSize j a 3 *
          (a ^ 2 / ((2 * ((3 : ℕ) : ℝ) + j + 1) * (2 * ((3 : ℕ) : ℝ) + j + 2))) ^ (n - 3) := h
    _ ≤ 55 * (1 / 5) ^ (n - 3) :=
        mul_le_mul h3 (pow_le_pow_left₀ hρ hratio _) (pow_nonneg hρ _) (by norm_num)
    _ = 6875 * (1 / 5) ^ n := by rw [hfifth]; ring

theorem trig_done_of_fuel (A : TrigSeriesArgs j a σ f d w r2) {term sum : Decimal}
    (hs : TrigState j a σ f w (1 + seriesFuel w) term sum) :
    |(sum.value : ℝ) - f| ≤ roundingError w * (1600 + (seriesFuel w + 1) * |f|) := by
  set F := seriesFuel w
  have hε := roundingError_pos w
  have hε10 : roundingError w = 10 * 10 ^ (-(w.digits : ℤ)) := roundingError_eq w
  have hlast : trigSize j a (1 + F) ≤ roundingError w :=
    calc trigSize j a (1 + F) ≤ 6875 * (1 / 5) ^ (1 + F) :=
          A.size_le (by unfold F seriesFuel; omega)
      _ = 1375 * (1 / 5) ^ F := by rw [pow_add]; ring
      _ ≤ 1375 * (1 / 2) ^ F := by gcongr; norm_num
      _ ≤ 1375 * (10 ^ (-(w.digits : ℤ)) / 10 ^ 30) := by gcongr; exact half_pow_fuel_le_tiny w
      _ ≤ roundingError w := by
          rw [hε10]
          nlinarith [zpow_pos (by norm_num : (0 : ℝ) < 10) (-(w.digits : ℤ))]
  exact (hs.abs_sub_le_settled A).trans (A.settled_le le_rfl (by linarith))

theorem trigState_start (A : TrigSeriesArgs j a σ f d w r2) {x : Decimal} (hx : x.Tame)
    (hxσ : 0 < σ * x.value) (hxa : |(x.value : ℝ)| = trigSize j a 0) :
    TrigState j a σ f w 1 x x := by
  have hε := (roundingError_pos w).le
  have ht0 := trigSize_pos A.pos j 0
  have hfirst : (x.value : ℝ) = σ * trigSize j a 0 := by
    rw [← hxa]
    have hxσR : (0 : ℝ) < σ * x.value := by exact_mod_cast hxσ
    rcases A.sign with rfl | rfl
    · push_cast at hxσR ⊢
      rw [one_mul, abs_of_pos (by linarith)]
    · push_cast at hxσR ⊢
      rw [abs_of_neg (by linarith)]
      ring
  have hstart : |(x.value : ℝ) - ∑ k ∈ range 1, (σ : ℝ) * (-1) ^ k * trigSize j a k| = 0 := by
    simp only [range_one, sum_singleton, pow_zero, mul_one, hfirst, sub_self, abs_zero]
  have hW0 : 0 ≤ ∑ k ∈ range 1, (k : ℝ) * trigSize j a k :=
    sum_nonneg fun k _ => mul_nonneg k.cast_nonneg (trigSize_nonneg A.pos.le j k)
  have hA0 : 0 ≤ ∑ k ∈ range 1, trigSize j a k := sum_nonneg fun k _ => trigSize_nonneg A.pos.le j k
  refine ⟨le_refl 1, hx, by simpa using hxσ, by simpa [hxa] using Near.refl ht0, ⟨hx, ?_⟩, ?_⟩
  · rw [hstart]
    positivity
  · rw [hstart]
    positivity

theorem trigSum_spec (A : TrigSeriesArgs j a σ f d w r2) {x : Decimal} (hx : x.Tame)
    (hxσ : 0 < σ * x.value) (hxa : |(x.value : ℝ)| = trigSize j a 0) :
    (series w (trigStep d r2 w) x x).Meets (fun S => S.Tame ∧
      |(S.value : ℝ) - f| ≤ roundingError w * (1600 + (seriesFuel w + 1) * |f|))
      (fun _ => True) := by
  refine series_meets_inv (fun n term sum => TrigState j a σ f w n term sum) _
    (fun n term sum hn hs => ?_) (fun term sum hs => ⟨hs.sum_within.tame, trig_done_of_fuel A hs⟩)
    (trigState_start A hx hxσ hxa)
  refine (trig_term A hs hn).mono (fun res hres => ⟨fun hneg => ?_, fun _ => ?_⟩)
    fun _ _ => trivial
  · exact ⟨hs.sum_within.tame, trig_done_of_negligible A hs hn hres.2.1 hres.2.2.1 hres.2.2.2 hneg⟩
  · rw [hres.1]
    exact trig_add A hs hn hres.2.1 hres.2.2.1 hres.2.2.2

end Series

/-! The two series as computed -/

theorem square_near {r r2 : Decimal} (h0 : r.mantissa ≠ 0) {w : Precision}
    (h : r2.value = roundSig (r.value * r.value) w.digits) :
    Near r2.value (|(r.value : ℝ)| ^ 2) (roundingError w) := by
  have hr0 : r.value ≠ 0 := value_eq_zero_iff.not.mpr h0
  have := near_of_rounds (mul_self_pos.mpr hr0) h
  rwa [Rat.cast_mul, ← sq, ← sq_abs] at this

theorem sin_series_args {r r2 : Decimal} (h0 : r.mantissa ≠ 0) (hr1 : |(r.value : ℝ)| ≤ 16 / 5)
    {w : Precision} (hw : 11 ≤ w.digits) (hw' : w.digits ≤ 100000) (hr2 : r2.Tame)
    (hr2v : r2.value = roundSig (r.value * r.value) w.digits) :
    ∃ σ : ℚ, 0 < σ * r.value ∧ TrigSeriesArgs 1 |(r.value : ℝ)| σ (Real.sin r.value)
      (fun n => 2 * n * (2 * n + 1)) w r2 := by
  have hr0 : (r.value : ℝ) ≠ 0 := by exact_mod_cast value_eq_zero_iff.not.mpr h0
  obtain ⟨σ, hσ, hrσ, hrR⟩ : ∃ σ : ℚ, (σ = 1 ∨ σ = -1) ∧ 0 < σ * r.value ∧
      (r.value : ℝ) = σ * |(r.value : ℝ)| := by
    rcases lt_or_gt_of_ne hr0 with hneg | hpos
    · have hneg' : r.value < 0 := by exact_mod_cast hneg
      refine ⟨-1, Or.inr rfl, by linarith, ?_⟩
      rw [abs_of_neg hneg]
      push_cast
      ring
    · have hpos' : 0 < r.value := by exact_mod_cast hpos
      refine ⟨1, Or.inl rfl, by linarith, ?_⟩
      rw [abs_of_pos hpos]
      push_cast
      ring
  have hσ2 : (σ : ℝ) ^ 2 = 1 := by rcases hσ with rfl | rfl <;> norm_num
  exact ⟨σ, hrσ, le_rfl, abs_pos.mpr hr0, hr1, hσ, hasSum_sin_trigSize hrR hσ2,
    Real.abs_sin_le_one _, fun n _ => by push_cast; ring, hw, hw', hr2, square_near h0 hr2v⟩

theorem sinSeries_spec {r : Decimal} (hr : r.Tame) (hr1 : |(r.value : ℝ)| ≤ 16 / 5)
    {w : Precision} (hw : 11 ≤ w.digits) (hw' : w.digits ≤ 100000) :
    (sinSeries r w).Meets (fun s => s.Tame ∧ |(s.value : ℝ) - Real.sin r.value| ≤
      roundingError w * (1600 + (seriesFuel w + 1) * |Real.sin r.value|)) (fun _ => True) := by
  have hε := roundingError_pos w
  unfold sinSeries
  split_ifs with h0
  · refine meets_pure ⟨tame_zero, ?_⟩
    rw [value_eq_zero_iff.mpr h0, value_zero, Rat.cast_zero, Real.sin_zero, sub_zero, abs_zero]
    positivity
  refine meets_bind ((mul_spec hr hr (by omega)).mono (fun t h => h) fun _ _ => trivial)
    fun r2 hr2 => ?_
  obtain ⟨σ, hrσ, A⟩ := sin_series_args h0 hr1 hw hw' hr2.1 hr2.2
  exact trigSum_spec A hr hrσ (by simp [trigSize])

theorem cosSeries_of_mantissa_zero {r : Decimal} (hr : r.Tame) (h0 : r.mantissa = 0)
    {w : Precision} (hw : w.digits < 2 ^ 20) : (cosSeries r w).Meets (· = one) (fun _ => True) := by
  unfold cosSeries
  refine meets_bind ((mul_spec hr hr hw).mono (fun t h => h) fun _ _ => trivial) fun r2 hr2 => ?_
  have hr20 : r2.value = 0 := by
    rw [hr2.2, value_eq_zero_iff.mpr h0, zero_mul, roundSig_zero]
  refine series_meets_inv (fun _ state sum => state = one ∧ sum = one) _
    (fun n state sum _ hs => ?_) (fun _ _ hs => hs.2) ⟨rfl, rfl⟩
  obtain ⟨rfl, rfl⟩ := hs
  refine meets_bind ((mul_spec tame_one hr2.1 hw).mono (fun t h => h) fun _ _ => trivial)
    fun P hP => ?_
  have hP0 : P.mantissa = 0 := by
    rw [← value_eq_zero_iff, hP.2, hr20, mul_zero, roundSig_zero]
  by_cases hd : (ofInt ((2 * n - 1) * (2 * n))).mantissa = 0
  · rw [div_zero _ hd]
    trivial
  · have hdiv : P.div (ofInt ((2 * n - 1) * (2 * n))) w = .ok zero := by
      unfold Decimal.div
      rw [if_neg hd, if_pos hP0]
    rw [hdiv]
    refine ⟨fun _ => rfl, fun hneg => ?_⟩
    simp [negligible, zero] at hneg

theorem cos_series_args {r r2 : Decimal} (h0 : r.mantissa ≠ 0) (hr1 : |(r.value : ℝ)| ≤ 16 / 5)
    {w : Precision} (hw : 11 ≤ w.digits) (hw' : w.digits ≤ 100000) (hr2 : r2.Tame)
    (hr2v : r2.value = roundSig (r.value * r.value) w.digits) :
    TrigSeriesArgs 0 |(r.value : ℝ)| 1 (Real.cos r.value) (fun n => (2 * n - 1) * (2 * n)) w r2 :=
  ⟨by norm_num, abs_pos.mpr (by exact_mod_cast value_eq_zero_iff.not.mpr h0), hr1, Or.inl rfl,
    hasSum_cos_trigSize _, Real.abs_cos_le_one _, fun n _ => by push_cast; ring, hw, hw', hr2,
    square_near h0 hr2v⟩

theorem cosSeries_spec {r : Decimal} (hr : r.Tame) (hr1 : |(r.value : ℝ)| ≤ 16 / 5)
    {w : Precision} (hw : 11 ≤ w.digits) (hw' : w.digits ≤ 100000) :
    (cosSeries r w).Meets (fun c => c.Tame ∧ |(c.value : ℝ) - Real.cos r.value| ≤
      roundingError w * (1600 + (seriesFuel w + 1) * |Real.cos r.value|)) (fun _ => True) := by
  by_cases h0 : r.mantissa = 0
  · refine (cosSeries_of_mantissa_zero hr h0 (by omega)).mono (fun c hc => ?_) fun _ _ => trivial
    rw [hc, value_one, value_eq_zero_iff.mpr h0, Rat.cast_zero, Real.cos_zero, Rat.cast_one,
      sub_self, abs_zero]
    refine ⟨tame_one, ?_⟩
    have := roundingError_pos w
    positivity
  unfold cosSeries
  refine meets_bind ((mul_spec hr hr (by omega)).mono (fun t h => h) fun _ _ => trivial)
    fun r2 hr2 => ?_
  exact trigSum_spec (cos_series_args h0 hr1 hw hw' hr2.1 hr2.2) tame_one
    (by rw [value_one]; norm_num) (by rw [value_one]; simp [trigSize])

end Calculator.Elementary
