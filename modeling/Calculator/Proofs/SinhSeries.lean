import Calculator.Proofs.LogFaithful
/-!
The series of the hyperbolic sine below one. Its terms `x ^ (2i+1) / (2i+1)!` all have the sign
of `x`, so the computed sum carries their relative errors without cancellation: each term gains
three roundings over the one before (the square `x²`, the product and the quotient), each sum
one. The ratio of two terms is at most `1/6`, so a term that no longer shows in the sum leaves a
tail of at most `6/5` of itself. Values that would pass the exponent limit only fail the
computation, which the statements here allow.
-/

open Except

namespace Calculator.Elementary

open Decimal Finset

/-! The series of `sinh` -/

theorem factorial_mul_six_pow_le (n i : ℕ) :
    (2 * n + 1).factorial * 6 ^ i ≤ (2 * (i + n) + 1).factorial := by
  induction i with
  | zero => simp
  | succ i ih =>
    have hstep : (2 * (i + 1 + n) + 1).factorial =
        (2 * (i + n) + 3) * (2 * (i + n) + 2) * (2 * (i + n) + 1).factorial := by
      rw [show 2 * (i + 1 + n) + 1 = 2 * (i + n) + 1 + 1 + 1 by ring, Nat.factorial_succ,
        Nat.factorial_succ]
      ring
    have h6 : 6 ≤ (2 * (i + n) + 3) * (2 * (i + n) + 2) := by nlinarith
    calc (2 * n + 1).factorial * 6 ^ (i + 1) = (2 * n + 1).factorial * 6 ^ i * 6 := by ring
      _ ≤ (2 * (i + n) + 1).factorial * ((2 * (i + n) + 3) * (2 * (i + n) + 2)) :=
          Nat.mul_le_mul ih h6
      _ = (2 * (i + 1 + n) + 1).factorial := by rw [hstep]; ring

theorem sinh_sub_partial {ζ : ℝ} (h0 : 0 ≤ ζ) (h1 : ζ ≤ 1) (n : ℕ) :
    0 ≤ Real.sinh ζ - ∑ i ∈ range n, ζ ^ (2 * i + 1) / (2 * i + 1).factorial ∧
      Real.sinh ζ - ∑ i ∈ range n, ζ ^ (2 * i + 1) / (2 * i + 1).factorial ≤
        6 / 5 * (ζ ^ (2 * n + 1) / (2 * n + 1).factorial) := by
  set f : ℕ → ℝ := fun i => ζ ^ (2 * i + 1) / (2 * i + 1).factorial
  have htail := (hasSum_nat_add_iff' n).mpr (Real.hasSum_sinh ζ)
  have hf0 : ∀ i, 0 ≤ f i := fun i => by positivity
  have hgeom : ∀ i, f (i + n) ≤ f n * (1 / 6) ^ i := by
    intro i
    have hfac : ((2 * n + 1).factorial : ℝ) * 6 ^ i ≤ (2 * (i + n) + 1).factorial := by
      exact_mod_cast factorial_mul_six_pow_le n i
    have hpow : ζ ^ (2 * (i + n) + 1) ≤ ζ ^ (2 * n + 1) := pow_le_pow_of_le_one h0 h1 (by omega)
    have hden : (0 : ℝ) < (2 * n + 1).factorial * 6 ^ i := by positivity
    calc f (i + n) = ζ ^ (2 * (i + n) + 1) / (2 * (i + n) + 1).factorial := rfl
      _ ≤ ζ ^ (2 * n + 1) / ((2 * n + 1).factorial * 6 ^ i) := by gcongr
      _ = f n * (1 / 6) ^ i := by simp only [f]; rw [one_div, inv_pow]; field_simp
  have hbound := hasSum_le hgeom htail
    ((hasSum_geometric_of_lt_one (by norm_num) (by norm_num)).mul_left (f n))
  refine ⟨hasSum_le (fun i => hf0 (i + n)) hasSum_zero htail, hbound.trans (le_of_eq ?_)⟩
  rw [show (1 - 1 / 6 : ℝ)⁻¹ = 6 / 5 by norm_num, mul_comm]

theorem partial_sinh_mem {ζ : ℝ} (h0 : 0 ≤ ζ) (h1 : ζ ≤ 1) {n : ℕ} (hn : 1 ≤ n) :
    ζ ≤ ∑ i ∈ range n, ζ ^ (2 * i + 1) / (2 * i + 1).factorial ∧
      ∑ i ∈ range n, ζ ^ (2 * i + 1) / (2 * i + 1).factorial ≤ Real.sinh ζ := by
  refine ⟨?_, by linarith [(sinh_sub_partial h0 h1 n).1]⟩
  have h := single_le_sum (f := fun i : ℕ => ζ ^ (2 * i + 1) / ((2 * i + 1).factorial : ℝ))
    (fun i _ => by positivity) (mem_range.mpr hn)
  simpa using h

theorem sinh_term_succ (ζ : ℝ) (m : ℕ) :
    ζ ^ (2 * m + 1) / (2 * m + 1).factorial * ζ ^ 2 / (2 * ((m : ℝ) + 1) * (2 * ((m : ℝ) + 1) + 1)) =
      ζ ^ (2 * (m + 1) + 1) / (2 * (m + 1) + 1).factorial := by
  rw [show 2 * (m + 1) + 1 = 2 * m + 1 + 1 + 1 by ring, Nat.factorial_succ (2 * m + 1 + 1),
    Nat.factorial_succ (2 * m + 1)]
  push_cast
  field_simp
  ring

noncomputable def sinhSumError (w : Precision) : ℝ := taylorError w + roundingError w

theorem sinhSumError_eq (w : Precision) :
    sinhSumError w = (3 * seriesFuel w + 2) * roundingError w := by
  unfold sinhSumError taylorError
  ring

def sinhStep (x2 : Decimal) (w : Precision) (n : Nat) (term : Decimal) :
    Except Fault (Decimal × Decimal) := do
  let term ← (← term.mul x2 w).div (ofInt (2 * n * (2 * n + 1))) w
  pure (term, term)

structure SinhSeriesArgs (ζ : ℝ) (w : Precision) (x2 : Decimal) : Prop where
  zeta_pos : 0 < ζ
  zeta_le : ζ ≤ 1
  digits_ge : 11 ≤ w.digits
  digits_le : w.digits ≤ 100000
  square_tame : x2.Tame
  square_near : Near x2.value (ζ ^ 2) (roundingError w)

structure SinhState (ζ : ℝ) (σ : ℚ) (w : Precision) (n : ℕ) (term sum : Decimal) : Prop where
  one_le : 1 ≤ n
  term_tame : term.Tame
  sum_tame : sum.Tame
  term_sign : 0 < σ * term.value
  sum_sign : 0 < σ * sum.value
  term_near : Near |(term.value : ℝ)|
    (ζ ^ (2 * (n - 1) + 1) / (2 * (n - 1) + 1).factorial) (3 * (n - 1 : ℕ) * roundingError w)
  sum_near : Near |(sum.value : ℝ)| (∑ i ∈ range n, ζ ^ (2 * i + 1) / (2 * i + 1).factorial)
    ((3 * (n - 1 : ℕ) + 1) * roundingError w)

section Series

variable {ζ : ℝ} {σ : ℚ} {w : Precision} {x2 : Decimal}

theorem SinhSeriesArgs.digits_lt (A : SinhSeriesArgs ζ w x2) : w.digits < 2 ^ 20 := by
  have := A.digits_le
  omega

/-- The next term is within three more roundings of `ζ ^ (2n + 1) / (2n + 1)!` in size: one of
`x²`, one for the product and one for the quotient; it keeps the sign `σ`. -/
theorem sinh_term (A : SinhSeriesArgs ζ w x2) (hσ : σ = 1 ∨ σ = -1) {n : ℕ} {term sum : Decimal}
    (hs : SinhState ζ σ w n term sum) (hn : n < 1 + seriesFuel w) :
    (sinhStep x2 w n term).Meets (fun res => res.1 = res.2 ∧ res.2.Tame ∧
      0 < σ * res.2.value ∧
      Near |(res.2.value : ℝ)| (ζ ^ (2 * n + 1) / (2 * n + 1).factorial) (3 * n * roundingError w))
      (fun _ => True) := by
  obtain ⟨m, rfl⟩ : ∃ m, n = m + 1 := ⟨n - 1, by have := hs.one_le; omega⟩
  have hterm := hs.term_near
  simp only [Nat.add_sub_cancel] at hterm
  have hz0 : (0 : ℝ) < x2.value := A.square_near.1
  unfold sinhStep
  refine meets_bind ((mul_spec hs.term_tame A.square_tame A.digits_lt).mono (fun t h => h)
    fun _ _ => trivial) fun P hP => ?_
  -- the product with `x²`
  set q := term.value * x2.value with hqdef
  have hq : Near |(q : ℝ)| (ζ ^ (2 * m + 1) / (2 * m + 1).factorial * ζ ^ 2)
      (3 * m * roundingError w + roundingError w) := by
    rw [hqdef, Rat.cast_mul, abs_mul, abs_of_pos hz0]
    exact hterm.mul A.square_near
  have hq0 : q ≠ 0 := fun h => by
    have := hq.1
    rw [h, Rat.cast_zero, abs_zero] at this
    exact lt_irrefl 0 this
  obtain ⟨hPn, hPs⟩ := near_abs_of_rounds hq0 hP.2
  have hσq : 0 < σ * q := by
    rw [hqdef, ← mul_assoc]
    exact mul_pos hs.term_sign (by exact_mod_cast hz0)
  have hPσ := sign_of_same hσ hPs hσq
  -- the quotient by `2n (2n + 1)`
  have hn20 : m + 1 < 2 ^ 20 := by
    unfold seriesFuel at hn
    have := A.digits_le
    omega
  have hd0 : (ofInt (2 * ((m + 1 : ℕ) : ℤ) * (2 * ((m + 1 : ℕ) : ℤ) + 1))).mantissa ≠ 0 := by
    show 2 * ((m + 1 : ℕ) : ℤ) * (2 * ((m + 1 : ℕ) : ℤ) + 1) ≠ 0
    positivity
  have hdt : (ofInt (2 * ((m + 1 : ℕ) : ℤ) * (2 * ((m + 1 : ℕ) : ℤ) + 1))).Tame := by
    refine tame_ofInt (lt_of_lt_of_le ?_ (show 2 ^ 42 ≤ pow10 30 by rw [pow10_eq_pow]; norm_num))
    have hcast : 2 * ((m + 1 : ℕ) : ℤ) * (2 * ((m + 1 : ℕ) : ℤ) + 1) =
        ((2 * (m + 1) * (2 * (m + 1) + 1) : ℕ) : ℤ) := by push_cast; ring
    rw [hcast, Int.natAbs_natCast]
    calc 2 * (m + 1) * (2 * (m + 1) + 1) < 2 ^ 21 * 2 ^ 21 :=
          Nat.mul_lt_mul'' (by omega) (by omega)
      _ = 2 ^ 42 := by norm_num
  refine meets_bind ((div_spec hP.1 hdt hd0 A.digits_lt).mono (fun t h => h) fun _ _ => trivial)
    fun T hT => meets_pure ⟨rfl, hT.1, ?_, ?_⟩ <;> rw [value_ofInt] at hT
  · set quo := P.value / ((2 * ((m + 1 : ℕ) : ℤ) * (2 * ((m + 1 : ℕ) : ℤ) + 1) : ℤ) : ℚ) with hquo
    have hquo0 : quo ≠ 0 := by
      rw [hquo]
      exact div_ne_zero (fun h => by rw [h, zero_mul] at hPs; exact lt_irrefl 0 hPs) (by positivity)
    obtain ⟨-, hTs⟩ := near_abs_of_rounds hquo0 hT.2
    refine sign_of_same hσ hTs ?_
    rw [hquo, mul_div_assoc']
    exact div_pos hPσ (by positivity)
  · set d : ℝ := 2 * ((m : ℝ) + 1) * (2 * ((m : ℝ) + 1) + 1) with hddef
    have hd : 0 < d := by positivity
    set quo := P.value / ((2 * ((m + 1 : ℕ) : ℤ) * (2 * ((m + 1 : ℕ) : ℤ) + 1) : ℤ) : ℚ) with hquo
    have hquoAbs : |(quo : ℝ)| = |(P.value : ℝ)| / d := by
      rw [hquo]
      push_cast
      rw [abs_div, ← hddef, abs_of_pos hd]
    have hquoNear : Near |(quo : ℝ)| (ζ ^ (2 * (m + 1) + 1) / (2 * (m + 1) + 1).factorial)
        (roundingError w + (3 * m * roundingError w + roundingError w) + 0) := by
      rw [hquoAbs, ← sinh_term_succ]
      exact (hPn.trans hq).div (Near.refl hd)
    have hquo0 : quo ≠ 0 := fun h => by
      have := hquoNear.1
      rw [h, Rat.cast_zero, abs_zero] at this
      exact lt_irrefl 0 this
    obtain ⟨hTn, -⟩ := near_abs_of_rounds hquo0 hT.2
    refine (hTn.trans hquoNear).mono (le_of_eq ?_)
    push_cast
    ring

theorem sinh_add (A : SinhSeriesArgs ζ w x2) (hσ : σ = 1 ∨ σ = -1) {n : ℕ}
    {term sum T : Decimal} (hs : SinhState ζ σ w n term sum) (hT : T.Tame) (hTs : 0 < σ * T.value)
    (hTn : Near |(T.value : ℝ)| (ζ ^ (2 * n + 1) / (2 * n + 1).factorial)
      (3 * n * roundingError w)) :
    (sum.add T w).Meets (SinhState ζ σ w (n + 1) T) (fun _ => True) := by
  have hn1 : (1 : ℝ) ≤ n := by exact_mod_cast hs.one_le
  have hcast : ((n - 1 : ℕ) : ℝ) = n - 1 := by rw [Nat.cast_sub hs.one_le, Nat.cast_one]
  have hε := (roundingError_pos w).le
  have hsum := hs.sum_near
  rw [hcast] at hsum
  obtain ⟨habs, hsign⟩ := abs_add_of_sign hσ hs.sum_sign hTs
  have hq : |((sum.value + T.value : ℚ) : ℝ)| = |(sum.value : ℝ)| + |(T.value : ℝ)| := by
    exact_mod_cast habs
  have hq0 : sum.value + T.value ≠ 0 := fun h => by
    rw [h, mul_zero] at hsign
    exact lt_irrefl 0 hsign
  refine (add_spec hs.sum_tame hT A.digits_lt).mono (fun S' hS' => ?_) fun _ _ => trivial
  obtain ⟨hnear, hsign'⟩ := near_abs_of_rounds hq0 hS'.2
  have hadd : Near |((sum.value + T.value : ℚ) : ℝ)|
      (∑ i ∈ range (n + 1), ζ ^ (2 * i + 1) / (2 * i + 1).factorial)
      (3 * n * roundingError w) := by
    rw [hq, sum_range_succ]
    exact (hsum.mono (by nlinarith)).add hTn
  refine ⟨by omega, hT, hS'.1, hTs, sign_of_same hσ hsign' hsign, by simpa using hTn,
    (hnear.trans hadd).mono (le_of_eq ?_)⟩
  rw [Nat.add_sub_cancel]
  ring

/-- A sum that stops on a negligible term is within the series error of `sinh ζ`: the tail is
at most `6/5` of that term's exact value, which lies `w + 1` places below the sum. -/
theorem sinh_done_of_negligible (A : SinhSeriesArgs ζ w x2) {n : ℕ} (hn : n < 1 + seriesFuel w)
    {term sum T : Decimal} (hs : SinhState ζ σ w n term sum) (hT : T.Tame)
    (hTn : Near |(T.value : ℝ)| (ζ ^ (2 * n + 1) / (2 * n + 1).factorial)
      (3 * n * roundingError w))
    (hneg : negligible T sum w = true) :
    Near |(sum.value : ℝ)| (Real.sinh ζ) (sinhSumError w) := by
  have hn1 : (1 : ℝ) ≤ n := by exact_mod_cast hs.one_le
  have hcast : ((n - 1 : ℕ) : ℝ) = n - 1 := by rw [Nat.cast_sub hs.one_le, Nat.cast_one]
  have hF : (n : ℝ) ≤ seriesFuel w := by exact_mod_cast (show n ≤ seriesFuel w by omega)
  have hε := (roundingError_pos w).le
  have hsum := hs.sum_near
  rw [hcast] at hsum
  set u : ℝ := 10 ^ (-(w.digits : ℤ))
  have hu : 0 < u := by positivity
  have hε10 : roundingError w = 10 * u := roundingError_eq w
  have hT0 : T.mantissa ≠ 0 := fun h => by
    have := hTn.1
    rw [value_eq_zero_iff.mpr h, Rat.cast_zero, abs_zero] at this
    exact lt_irrefl 0 this
  obtain ⟨-, hlt⟩ := abs_lt_of_negligible hT hs.sum_tame A.digits_lt hT0 hneg
  have hlt' : |(T.value : ℝ)| < |(sum.value : ℝ)| * (u / 10) := by
    have h := (Rat.cast_lt (K := ℝ)).mpr hlt
    push_cast at h
    rwa [zpow_sub₀ (by norm_num), zpow_one] at h
  set S := ∑ i ∈ range n, ζ ^ (2 * i + 1) / (2 * i + 1).factorial
  have hpart := partial_sinh_mem A.zeta_pos.le A.zeta_le hs.one_le
  have hterm := ((Near.iff hTn.2.1 hTn.1).mp hTn.symm).2
  have hsumle := ((Near.iff hsum.1 hsum.2.1).mp hsum).2
  -- the two errors together stay below a factor three
  have hexp : Real.exp (3 * n * roundingError w) *
      Real.exp ((3 * (n - 1) + 1) * roundingError w) ≤ 3 := by
    rw [← Real.exp_add]
    exact exp_le_three (by
      have := series_error_le A.digits_ge A.digits_le (n := n) (by omega) (c := 6 * n) (by linarith)
      nlinarith)
  have htail : Real.sinh ζ - S ≤ u * Real.sinh ζ :=
    calc Real.sinh ζ - S ≤ 6 / 5 * (ζ ^ (2 * n + 1) / (2 * n + 1).factorial) :=
          (sinh_sub_partial A.zeta_pos.le A.zeta_le n).2
      _ ≤ 6 / 5 * (|(T.value : ℝ)| * Real.exp (3 * n * roundingError w)) := by gcongr
      _ ≤ 6 / 5 * (|(sum.value : ℝ)| * (u / 10) * Real.exp (3 * n * roundingError w)) := by
          gcongr
      _ ≤ 6 / 5 * (S * Real.exp ((3 * (n - 1) + 1) * roundingError w) * (u / 10) *
            Real.exp (3 * n * roundingError w)) := by gcongr
      _ = S * u * 3 / 25 * (Real.exp (3 * n * roundingError w) *
            Real.exp ((3 * (n - 1) + 1) * roundingError w)) := by ring
      _ ≤ S * u * 3 / 25 * 3 :=
          mul_le_mul_of_nonneg_left hexp (by have := hsum.2.1; positivity)
      _ ≤ u * Real.sinh ζ := by nlinarith [mul_le_mul_of_nonneg_left hpart.2 hu.le, hsum.2.1]
  have hu2 : u ≤ 1 / 2 := by
    have h10 := roundingError_le_of_eleven A.digits_ge
    have : (10 : ℝ) ^ (-10 : ℤ) ≤ 1 := by norm_num
    linarith
  refine (near_of_tail hsum hpart.2 htail hu2).mono ?_
  rw [sinhSumError_eq]
  nlinarith

/-- A sum whose fuel runs out is within the series error of `sinh ζ` too: its tail is below
`ζ · 2 ^ -(4w + 100)`. -/
theorem sinh_done_of_fuel (A : SinhSeriesArgs ζ w x2) {term sum : Decimal}
    (hs : SinhState ζ σ w (1 + seriesFuel w) term sum) :
    Near |(sum.value : ℝ)| (Real.sinh ζ) (sinhSumError w) := by
  have hsum := hs.sum_near
  rw [Nat.add_sub_cancel_left] at hsum
  set F := seriesFuel w
  set u : ℝ := 10 ^ (-(w.digits : ℤ))
  have hε10 : roundingError w = 10 * u := roundingError_eq w
  have hu : 0 < u := by positivity
  have hζ := A.zeta_pos
  have hpart := partial_sinh_mem hζ.le A.zeta_le (n := 1 + F) (by omega)
  have hfac : (6 : ℝ) ^ (1 + F) ≤ (2 * (1 + F) + 1).factorial := by
    have h := factorial_mul_six_pow_le 0 (1 + F)
    simp only [mul_zero, zero_add, Nat.factorial_one, one_mul, add_zero] at h
    exact_mod_cast h
  have hsix : (2 : ℝ) ^ F * 6 ≤ 6 ^ (1 + F) := by
    rw [pow_add, pow_one, mul_comm]
    gcongr
    norm_num
  have htail : Real.sinh ζ - ∑ i ∈ range (1 + F), ζ ^ (2 * i + 1) / (2 * i + 1).factorial ≤
      u * Real.sinh ζ :=
    calc Real.sinh ζ - ∑ i ∈ range (1 + F), ζ ^ (2 * i + 1) / (2 * i + 1).factorial
        ≤ 6 / 5 * (ζ ^ (2 * (1 + F) + 1) / (2 * (1 + F) + 1).factorial) :=
          (sinh_sub_partial hζ.le A.zeta_le (1 + F)).2
      _ ≤ 6 / 5 * (ζ / (2 ^ F * 6)) := by
          gcongr
          · exact pow_le_of_le_one hζ.le A.zeta_le (by omega)
          · exact hsix.trans hfac
      _ ≤ ζ * (1 / 2) ^ F := by
          rw [div_pow, one_pow]
          field_simp
          nlinarith [pow_pos (two_pos (α := ℝ)) F]
      _ ≤ ζ * u := by gcongr; exact half_pow_fuel_le w
      _ ≤ u * Real.sinh ζ := by rw [mul_comm]; gcongr; linarith [hpart.1, hpart.2]
  have hu2 : u ≤ 1 / 2 := by
    have h10 := roundingError_le_of_eleven A.digits_ge
    have : (10 : ℝ) ^ (-10 : ℤ) ≤ 1 := by norm_num
    linarith
  refine (near_of_tail hsum hpart.2 htail hu2).mono ?_
  rw [sinhSumError_eq]
  nlinarith

theorem sinhState_start {x : Decimal} (hx : x.Tame) (hxs : 0 < σ * x.value) (hζ : 0 < ζ)
    (hxn : |(x.value : ℝ)| = ζ) : SinhState ζ σ w 1 x x := by
  have hx0 : Near |(x.value : ℝ)| ζ 0 := Near.of_eq hxn hζ
  exact ⟨le_refl 1, hx, hx, hxs, hxs, by simpa using hx0,
    by simpa using hx0.mono (roundingError_pos w).le⟩

theorem sinhSum_spec (A : SinhSeriesArgs ζ w x2) (hσ : σ = 1 ∨ σ = -1) {x : Decimal}
    (hx : x.Tame) (hxs : 0 < σ * x.value) (hxn : |(x.value : ℝ)| = ζ) :
    (series w (sinhStep x2 w) x x).Meets (fun S => S.Tame ∧ 0 < σ * S.value ∧
      Near |(S.value : ℝ)| (Real.sinh ζ) (sinhSumError w)) (fun _ => True) := by
  refine series_meets_inv (SinhState ζ σ w) _ (fun n term sum hn hs => ?_)
    (fun term sum hs => ⟨hs.sum_tame, hs.sum_sign, sinh_done_of_fuel A hs⟩)
    (sinhState_start hx hxs A.zeta_pos hxn)
  refine (sinh_term A hσ hs hn).mono (fun res hres => ⟨fun hneg => ?_, fun _ => ?_⟩)
    fun _ _ => trivial
  · exact ⟨hs.sum_tame, hs.sum_sign, sinh_done_of_negligible A hn hs hres.2.1 hres.2.2.2 hneg⟩
  · rw [hres.1]
    exact sinh_add A hσ hs hres.2.1 hres.2.2.1 hres.2.2.2

end Series

theorem sinh_square_meets {x : Decimal} (hx : x.Tame) (hx0 : x.value ≠ 0) (hx1 : |x.value| < 1)
    {w : Precision} (hw : 11 ≤ w.digits) (hw' : w.digits ≤ 100000) :
    (x.mul x w).Meets (fun x2 => SinhSeriesArgs |(x.value : ℝ)| w x2) (fun _ => True) := by
  have hζ0 : 0 < |(x.value : ℝ)| := abs_pos.mpr (by exact_mod_cast hx0)
  have hζ1 : |(x.value : ℝ)| ≤ 1 := by
    have h := (Rat.cast_lt (K := ℝ)).mpr hx1
    rw [Rat.cast_abs, Rat.cast_one] at h
    exact h.le
  refine (mul_spec hx hx (by omega)).mono (fun x2 hx2 => ⟨hζ0, hζ1, hw, hw', hx2.1, ?_⟩)
    fun _ _ => trivial
  have h := near_of_rounds (mul_self_pos.mpr hx0) hx2.2
  rwa [Rat.cast_mul, ← sq, ← sq_abs] at h

theorem sinhSeries_spec {x : Decimal} (hx : x.Tame) (hx0 : x.value ≠ 0) (hx1 : |x.value| < 1)
    {w : Precision} (hw : 11 ≤ w.digits) (hw' : w.digits ≤ 100000) :
    (sinhSeries x w).Meets (fun s => s.Tame ∧
      |(s.value : ℝ) - Real.sinh x.value| ≤ 2 * sinhSumError w * |Real.sinh x.value|)
      (fun _ => True) := by
  set ζ : ℝ := |(x.value : ℝ)| with hζ
  have hsmall : sinhSumError w ≤ 1 / 4 := by
    rw [sinhSumError_eq]
    have := series_error_le hw hw' (n := seriesFuel w + 1) le_rfl
      (c := 3 * seriesFuel w + 2) (by push_cast; linarith)
    linarith
  unfold sinhSeries
  refine meets_bind (sinh_square_meets hx hx0 hx1 hw hw') fun x2 (A : SinhSeriesArgs ζ w x2) => ?_
  obtain ⟨σ, hσ, hxs, hsinh⟩ : ∃ σ : ℚ, (σ = 1 ∨ σ = -1) ∧ 0 < σ * x.value ∧
      0 < (σ : ℝ) * Real.sinh x.value := by
    rcases lt_or_gt_of_ne hx0 with hneg | hpos
    · refine ⟨-1, Or.inr rfl, by linarith, ?_⟩
      have : Real.sinh x.value < 0 := Real.sinh_neg_iff.mpr (by exact_mod_cast hneg)
      push_cast
      linarith
    · refine ⟨1, Or.inl rfl, by linarith, ?_⟩
      have : 0 < Real.sinh x.value := Real.sinh_pos_iff.mpr (by exact_mod_cast hpos)
      push_cast
      linarith
  refine (sinhSum_spec A hσ hx hxs rfl).mono (fun S hS => ⟨hS.1, ?_⟩) fun _ _ => trivial
  have hSx : 0 < (S.value : ℝ) * Real.sinh x.value := by
    have hS' : (0 : ℝ) < σ * S.value := by exact_mod_cast hS.2.1
    rcases hσ with rfl | rfl
    · push_cast at hS' hsinh
      nlinarith
    · push_cast at hS' hsinh
      nlinarith
  have hS2 := hS.2.2
  rw [hζ, ← Real.abs_sinh] at hS2
  exact abs_sub_le_of_near hS2 hSx (by linarith)

end Calculator.Elementary
