import Calculator.Proofs.LoopSemantics
import Calculator.Proofs.SinhSeries
import Calculator.Proofs.TrigAccuracy
/-!
The loops of the elementary functions end by their own tests: their fuel is never what stops
them, so that each bounded run is the loop itself (`Ends`).
-/

open Except

namespace Calculator.Elementary

open Decimal Finset

variable {w : Precision}

theorem lt_abs_of_not_negligible_of_le {term sum : Decimal} (ht : term.Tame) (hs : sum.Tame)
    (hw : w.digits < 2 ^ 20) {S : ℝ} (hS0 : 0 < S) (hS : S ≤ |(sum.value : ℝ)|)
    (h : negligible term sum w = false) :
    S * (10 ^ (-(w.digits : ℤ)) / 100) < |(term.value : ℝ)| := by
  have hs0 : sum.mantissa ≠ 0 := fun h0 => by
    rw [value_eq_zero_iff.mpr h0, Rat.cast_zero, abs_zero] at hS
    linarith
  obtain ⟨-, hlt⟩ := lt_abs_of_not_negligible ht hs hw hs0 h
  have h' := (Rat.cast_lt (K := ℝ)).mpr hlt
  push_cast at h'
  rw [zpow_sub₀ (by norm_num), show (10 : ℝ) ^ (2 : ℤ) = 100 by norm_num] at h'
  exact lt_of_le_of_lt (mul_le_mul_of_nonneg_right hS (by positivity)) h'

theorem fuel_term_lt_floor {c t K : ℝ} (hc : 0 < c) (hK0 : 0 < K) (hK : K < 10 ^ 30)
    (ht : t ≤ c * (1 / 2) ^ seriesFuel w) : t < c * 10 ^ (-(w.digits : ℤ)) / K :=
  calc t ≤ c * (1 / 2) ^ seriesFuel w := ht
    _ ≤ c * (10 ^ (-(w.digits : ℤ)) / 10 ^ 30) := by gcongr; exact half_pow_fuel_le_tiny w
    _ = c * 10 ^ (-(w.digits : ℤ)) / 10 ^ 30 := by ring
    _ < c * 10 ^ (-(w.digits : ℤ)) / K := div_lt_div_of_pos_left (by positivity) hK0 hK

/-! The exponential -/

structure TaylorLive (R : ℝ) (w : Precision) (n : ℕ) (term sum : Decimal) : Prop
    extends TaylorState R w n term sum where
  large : (10 : ℝ) ^ (-(w.digits : ℤ)) / 900 < R ^ (n - 1) / (n - 1).factorial

theorem taylorLive_start (R : ℝ) (w : Precision) : TaylorLive R w 1 one one := by
  refine ⟨taylorState_start R w, ?_⟩
  rw [Nat.sub_self, pow_zero, Nat.factorial_zero, Nat.cast_one, div_one]
  have := ten_zpow_neg_le_one w
  linarith

theorem taylorLive_step (hw : 15 ≤ w.digits) (hw' : w.digits ≤ 100000) {r term sum : Decimal}
    (hr : r.Tame) (hR0 : 0 < r.value) {n : ℕ} (hn : n < 1 + seriesFuel w)
    (hs : TaylorLive r.value w n term sum) :
    (taylorStep r w n term).Meets (fun res => negligible res.2 sum w = false →
      (sum.add res.2 w).Meets (TaylorLive r.value w (n + 1) res.1) fun _ => True)
      fun _ => True := by
  have hw20 : w.digits < 2 ^ 20 := by omega
  have hn20 : n < 2 ^ 20 := by unfold seriesFuel at hn; omega
  refine (taylor_term hw20 hr hR0 hs.toTaylorState hn20).mono (fun res hres hneg => ?_)
    fun _ _ => trivial
  obtain ⟨h12, ht, hnear⟩ := hres
  rw [h12]
  refine (taylor_add hw20 hs.toTaylorState ht hnear).mono (fun S hS => ⟨hS, ?_⟩)
    fun _ _ => trivial
  rw [Nat.add_sub_cancel]
  have hsmall : ∀ c : ℝ, c ≤ 10 * n + 10 → c * roundingError w ≤ 1 := fun c hc =>
    (series_error_le (by omega) hw' (by omega) hc).trans (by norm_num)
  have hn0 : (0 : ℝ) ≤ n := n.cast_nonneg
  have hcast : ((n - 1 : ℕ) : ℝ) ≤ n := by exact_mod_cast Nat.sub_le n 1
  have hR0' : (0 : ℝ) < r.value := by exact_mod_cast hR0
  have hA : 1 ≤ ∑ i ∈ range n, (r.value : ℝ) ^ i / i.factorial := by
    have h := single_le_sum (f := fun i : ℕ => (r.value : ℝ) ^ i / (i.factorial : ℝ))
      (fun i _ => by positivity) (mem_range.mpr hs.one_le)
    simpa using h
  have hsum := (hs.sum_near.le_three_mul (hsmall _ (by linarith))).2
  have hterm := (hnear.le_three_mul (hsmall _ (by linarith))).1
  have hfloor := lt_abs_of_not_negligible_of_le ht hs.sum_tame hw20 (S := 1 / 3) (by norm_num)
    (by rw [abs_of_pos hs.sum_near.1]; linarith) hneg
  rw [abs_of_pos hnear.1] at hfloor
  linarith

theorem not_taylorLive_fuel {R : ℝ} (hR0 : 0 < R) (hR : R ≤ 1 / 2) (term sum : Decimal) :
    ¬TaylorLive R w (1 + seriesFuel w) term sum := by
  intro hs
  have hlarge := hs.large
  rw [Nat.add_sub_cancel_left] at hlarge
  have hlast : R ^ seriesFuel w / (seriesFuel w).factorial ≤ 1 * (1 / 2) ^ seriesFuel w :=
    calc R ^ seriesFuel w / (seriesFuel w).factorial ≤ R ^ seriesFuel w :=
          div_le_self (by positivity) (Nat.one_le_cast.mpr (Nat.factorial_pos _))
      _ ≤ (1 / 2) ^ seriesFuel w := by gcongr
      _ = 1 * (1 / 2) ^ seriesFuel w := (one_mul _).symm
  have hfloor := fuel_term_lt_floor one_pos (K := 900) (by norm_num) (by norm_num) hlast
  rw [one_mul] at hfloor
  exact lt_asymm hlarge hfloor

theorem taylor_ends (hw : 15 ≤ w.digits) (hw' : w.digits ≤ 100000) {r : Decimal} (hr : r.Tame)
    (hR0 : 0 < r.value) (hR : r.value ≤ 1 / 2) :
    Ends (seriesBody w (taylorStep r w)) (1, one, one) (series w (taylorStep r w) one one) :=
  series_ends (TaylorLive r.value w)
    (fun _ _ _ hn hs => taylorLive_step hw hw' hr hR0 hn hs)
    (not_taylorLive_fuel (by exact_mod_cast hR0) (by
      have h := (Rat.cast_le (K := ℝ)).mpr hR
      rwa [Rat.cast_div, Rat.cast_one, Rat.cast_ofNat] at h)) (taylorLive_start _ w)

theorem expHalving_ends (hw : 15 ≤ w.digits) (hw' : w.digits < 2 ^ 20) {x : Decimal}
    (hx : x.Tame) (hm : x.mantissa ≠ 0) (hX : |(x.value : ℝ)| < 10 ^ 12) :
    Ends (whileBody (fun s => half < s.1) (halvingStep w)) (x.abs, 0)
      (halveWhileAbove half w halvingFuel x.abs 0) := by
  rw [halveWhileAbove_eq_runFor]
  exact counted_ends (Halved |(x.value : ℝ)| w) halvingFuel
    (fun r c hc hr hgt => meets_bind (halved_step hw' hc hr hgt) fun r' hr' =>
      meets_pure ⟨rfl, hr'⟩)
    (fun r hr => absurd hr (not_halved_fuel hw hX r)) (halved_start hx hm w)

/-- Every loop of `exp` ends by its own test, at a precision of up to fifty thousand digits: the
halving of `|x|`, and the Taylor sum at each value the halving ends on. -/
theorem exp_loops_end {x : Decimal} (hx : x.Tame) (hm : x.mantissa ≠ 0)
    (hlimit : x.exponent ≤ expLimit) {p : Precision} (hp : p.digits ≤ 50000) :
    let w := p.widen (guardDigits + 2 * (max x.exponent 0).toNat + 4)
    Ends (whileBody (fun s => half < s.1) (halvingStep w)) (x.abs, 0)
        (halveWhileAbove half w halvingFuel x.abs 0) ∧
      (halveWhileAbove half w halvingFuel x.abs 0).Meets (fun res =>
        Ends (seriesBody w (taylorStep res.1 w)) (1, one, one)
          (series w (taylorStep res.1 w) one one)) fun _ => True := by
  intro w
  have hE : (max x.exponent 0).toNat ≤ 11 := by
    simp only [expLimit] at hlimit
    omega
  have hwd : w.digits = p.digits + 14 + 2 * (max x.exponent 0).toNat := exp_widen_digits hp hE
  have hw15 : 15 ≤ w.digits := by rw [hwd]; have := p.digits_pos; omega
  have hw' : w.digits ≤ 100000 := by rw [hwd]; omega
  have hX := abs_lt_ten_pow_twelve hx hm hlimit
  refine ⟨expHalving_ends hw15 (by omega) hx hm hX, ?_⟩
  refine (halving_spec hx hm hw15 (by omega) hX).mono (fun res hres => ?_) fun _ _ => trivial
  exact taylor_ends hw15 hw' hres.1.tame (by exact_mod_cast hres.1.near.1) hres.2

theorem exp_two_loops_end :
    (2 : Decimal).Tame ∧ (2 : Decimal).mantissa ≠ 0 ∧ (2 : Decimal).exponent ≤ expLimit ∧
      (⟨10, by decide, by decide⟩ : Precision).digits ≤ 50000 ∧
      let w := (⟨10, by decide, by decide⟩ : Precision).widen
        (guardDigits + 2 * (max (2 : Decimal).exponent 0).toNat + 4)
      Ends (whileBody (fun s => half < s.1) (halvingStep w)) ((2 : Decimal).abs, 0)
          (halveWhileAbove half w halvingFuel (2 : Decimal).abs 0) ∧
        (halveWhileAbove half w halvingFuel (2 : Decimal).abs 0).Meets (fun res =>
          Ends (seriesBody w (taylorStep res.1 w)) (1, one, one)
            (series w (taylorStep res.1 w) one one)) fun _ => True :=
  ⟨tame_two, by decide, by decide +kernel, by decide,
    exp_loops_end tame_two (by decide) (by decide +kernel) (by decide)⟩

/-! The logarithm -/

section Log

variable {ζ : ℝ} {σ : ℚ} {z2 : Decimal}

theorem not_lnState_fuel (A : LnSeriesArgs ζ w z2) (power sum : Decimal) :
    ¬LnState ζ σ w (1 + seriesFuel w) power sum := by
  intro hs
  have hζ := A.zeta_pos
  have hpow := hs.power_near
  rw [Nat.add_sub_cancel_left] at hpow
  have hP3 := (hpow.le_three_mul ((A.error_le (n := seriesFuel w + 1) le_rfl
    (by push_cast; linarith [(seriesFuel w).cast_nonneg (α := ℝ)])).trans (by norm_num))).1
  have hsq : ζ ^ 2 ≤ 1 / 9 := by nlinarith [A.zeta_le]
  obtain ⟨m, hm⟩ : ∃ m, seriesFuel w = m + 1 := ⟨seriesFuel w - 1, by unfold seriesFuel; omega⟩
  have htail : ζ ^ (2 * seriesFuel w + 1) ≤ ζ ^ 3 * (9 * (1 / 2) ^ seriesFuel w) := by
    rw [hm, show 2 * (m + 1) + 1 = 3 + 2 * m by ring, pow_add, pow_mul]
    gcongr
    calc (ζ ^ 2) ^ m ≤ (1 / 9) ^ m := by gcongr
      _ ≤ (1 / 2) ^ m := pow_le_pow_left₀ (by norm_num) (by norm_num) m
      _ ≤ 9 * (1 / 2) ^ (m + 1) := by
          rw [pow_succ]
          linarith [pow_pos (by norm_num : (0 : ℝ) < 1 / 2) m]
  have hlast : |(power.value : ℝ)| ≤ 27 * ζ ^ 3 * (1 / 2) ^ seriesFuel w :=
    calc |(power.value : ℝ)| ≤ 3 * ζ ^ (2 * seriesFuel w + 1) := hP3
      _ ≤ 3 * (ζ ^ 3 * (9 * (1 / 2) ^ seriesFuel w)) := by gcongr
      _ = 27 * ζ ^ 3 * (1 / 2) ^ seriesFuel w := by ring
  have hfloor := fuel_term_lt_floor (by positivity) (K := 27 * 10 ^ 4) (by norm_num)
    (by norm_num) hlast
  rw [show 27 * ζ ^ 3 * 10 ^ (-(w.digits : ℤ)) / (27 * 10 ^ 4) =
    ζ ^ 3 * 10 ^ (-(w.digits : ℤ)) / 10 ^ 4 by ring] at hfloor
  exact absurd hs.power_large (not_le.mpr hfloor)

theorem lnSum_ends (A : LnSeriesArgs ζ w z2) (hσ : σ = 1 ∨ σ = -1) {z : Decimal} (hz : z.Tame)
    (hzs : 0 < σ * z.value) (hzn : Near |(z.value : ℝ)| ζ (3 * roundingError w)) :
    Ends (seriesBody w (lnStep z2 w)) (1, z, z) (series w (lnStep z2 w) z z) :=
  series_ends (LnState ζ σ w)
    (fun _ _ _ hn hs => (lnStep_meets A hσ hs hn).mono
      (fun _ hr hneg => (hr.2.2 hneg).mono (fun _ h => h) fun _ _ => trivial) fun _ _ => trivial)
    (not_lnState_fuel A) (lnState_start A hz hzs hzn)

end Log

/-- The series of `lnSeries` at a tame `1/2 ≤ r ≤ 2` ends by its own test: for the argument
`z = (r - 1)/(r + 1)` and its square `z2` as `lnSeries` computes them, when `z` is not zero the
series from `z` ends on a negligible term. -/
theorem lnSeries_loop_ends {r : Decimal} (hr : r.Tame) (h0 : 1 / 2 ≤ r.value) (h2 : r.value ≤ 2)
    (hw : 11 ≤ w.digits) (hw' : w.digits ≤ 100000) :
    (do
      let z ← (← r.sub one w).div (← r.add one w) w
      let z2 ← z.mul z w
      pure (z, z2)).Meets (fun args : Decimal × Decimal => args.1.mantissa ≠ 0 →
        Ends (seriesBody w (lnStep args.2 w)) (1, args.1, args.1)
          (series w (lnStep args.2 w) args.1 args.1)) fun _ => True := by
  refine lnArgument_meets hr h0 h2 hw hw' _ (fun z _ hz0 => ?_)
    fun z σ h1 hσ _ hz hzs hzn => ?_
  · -- at one the argument is zero, and the series is not summed
    refine meets_bind (Q := fun _ => True) ?_ fun z2 _ => meets_pure fun h => absurd hz0 h
    cases z.mul z w <;> trivial
  obtain ⟨hζlo, hζhi, -⟩ := ln_zeta_mem hr h0 h2 h1
  exact meets_bind ((ln_square hz hw hw' hzn hζlo hζhi).mono (fun z2 A => A) fun _ _ => trivial)
    fun z2 A => meets_pure fun _ => lnSum_ends A hσ hz hzs hzn

theorem lnSeries_two_loop_ends :
    (2 : Decimal).Tame ∧ 1 / 2 ≤ (2 : Decimal).value ∧ (2 : Decimal).value ≤ 2 ∧
      11 ≤ (⟨11, by decide, by decide⟩ : Precision).digits ∧
      (⟨11, by decide, by decide⟩ : Precision).digits ≤ 100000 ∧
      (do
        let z ← (← (2 : Decimal).sub one ⟨11, by decide, by decide⟩).div
          (← (2 : Decimal).add one ⟨11, by decide, by decide⟩) ⟨11, by decide, by decide⟩
        let z2 ← z.mul z ⟨11, by decide, by decide⟩
        pure (z, z2)).Meets (fun args : Decimal × Decimal => args.1.mantissa ≠ 0 →
          Ends (seriesBody ⟨11, by decide, by decide⟩ (lnStep args.2 ⟨11, by decide, by decide⟩))
            (1, args.1, args.1)
            (series ⟨11, by decide, by decide⟩ (lnStep args.2 ⟨11, by decide, by decide⟩)
              args.1 args.1)) fun _ => True :=
  ⟨tame_two, by rw [value_two]; norm_num, by rw [value_two], by decide, by decide,
    lnSeries_loop_ends tame_two (by rw [value_two]; norm_num) (by rw [value_two]) (by decide)
      (by decide)⟩

theorem lnHalving_ends (hw : 11 ≤ w.digits) (hw' : w.digits < 2 ^ 20) {m : Decimal} (hm : m.Tame)
    (h1 : (1 : ℝ) ≤ m.value) (h10 : (m.value : ℝ) < 10) :
    Ends (whileBody (fun s => threeHalves < s.1) (halvingStep w)) (m, 0)
      (halveWhileAbove threeHalves w halvingFuel m 0) := by
  rw [halveWhileAbove_eq_runFor]
  exact counted_ends (LnHalved m.value w) halvingFuel
    (fun r c _ hr hgt => meets_bind ((lnHalved_step h10 hw hw' hr hgt).mono (fun _ h => h)
      fun _ _ => trivial) fun r' hr' => meets_pure ⟨rfl, hr'⟩)
    (fun r hr => absurd hr.count_le (by unfold halvingFuel; omega)) (lnHalved_start hm h1)

/-- The halving in `lnPositive` of the reduced argument `x · 10 ^ -k` of a positive working
value ends by its test. -/
theorem lnPositive_halving_ends (hw : 11 ≤ w.digits) (hw' : w.digits < 2 ^ 20) {x : Decimal}
    (hx : x.Tame) (hpos : 0 < x.value) :
    Ends (whileBody (fun s => threeHalves < s.1) (halvingStep w)) (x.shift (-x.exponent), 0)
      (halveWhileAbove threeHalves w halvingFuel (x.shift (-x.exponent)) 0) := by
  obtain ⟨hm, -, h1, h10⟩ := reduced_mem hx hpos
  exact lnHalving_ends hw hw' hm h1 h10

theorem lnPositive_two_halving_ends :
    (2 : Decimal).Tame ∧ 0 < (2 : Decimal).value ∧
      11 ≤ (⟨11, by decide, by decide⟩ : Precision).digits ∧
      (⟨11, by decide, by decide⟩ : Precision).digits < 2 ^ 20 ∧
      Ends (whileBody (fun s => threeHalves < s.1) (halvingStep ⟨11, by decide, by decide⟩))
        ((2 : Decimal).shift (-(2 : Decimal).exponent), 0)
        (halveWhileAbove threeHalves ⟨11, by decide, by decide⟩ halvingFuel
          ((2 : Decimal).shift (-(2 : Decimal).exponent)) 0) :=
  ⟨tame_two, by rw [value_two]; norm_num, by decide, by decide,
    lnPositive_halving_ends (by decide) (by decide) tame_two (by rw [value_two]; norm_num)⟩

/-! The arctangent -/

section Arctan

variable {a : ℝ} {a2 : Decimal}

structure ArctanLive (a : ℝ) (w : Precision) (n : ℕ) (power sum : Decimal) : Prop
    extends ArctanState a w n power sum where
  large : a * 10 ^ (-(w.digits : ℤ)) / 400 < a ^ (2 * (n - 1) + 1)

theorem ArctanState.half_le (A : ArctanSeriesArgs a w a2) {n : ℕ} {power sum : Decimal}
    (hs : ArctanState a w n power sum) (hn : n ≤ seriesFuel w) : a / 2 ≤ (sum.value : ℝ) := by
  have ha := A.pos
  have hsq : a ^ 2 ≤ 1 / 100 := by nlinarith [A.le]
  have hε := roundingError_pos w
  have hsmall := A.small hn (c := 8) (by norm_num)
  have hn0 : (0 : ℝ) ≤ n := n.cast_nonneg
  have hround : roundingError w * (6 * a + 4 * n * a) ≤ a / 100 := by
    have h : (6 + 4 * (n : ℝ)) * roundingError w ≤ 1 / 100 := by
      nlinarith [mul_nonneg hn0 hε.le]
    calc roundingError w * (6 * a + 4 * n * a) = a * ((6 + 4 * n) * roundingError w) := by ring
      _ ≤ a * (1 / 100) := by gcongr
      _ = a / 100 := by ring
  have htail : arctanSize a n ≤ a / 100 :=
    calc arctanSize a n ≤ a ^ (2 * n + 1) := by
          rw [arctanSize_def]
          exact div_le_self (pow_nonneg ha.le _) (by linarith)
      _ ≤ a ^ 3 := pow_le_pow_of_le_one ha.le (by linarith [A.le])
          (by have := hs.one_le; omega)
      _ = a * a ^ 2 := by ring
      _ ≤ a * (1 / 100) := by gcongr
      _ = a / 100 := by ring
  have harctan : 100 / 101 * a ≤ Real.arctan a := by
    have h := div_one_add_sq_le_arctan ha.le
    rw [div_le_iff₀ (by positivity)] at h
    nlinarith [Real.arctan_nonneg.mpr ha.le]
  have hclose := (abs_le.mp (hs.abs_sub_le A)).1
  linarith

theorem arctanLive_start {x : Decimal} (hx : x.Tame) (ha : 0 < a) (hxa : (x.value : ℝ) = a) :
    ArctanLive a w 1 x x := by
  refine ⟨arctanState_start hx ha hxa, ?_⟩
  rw [Nat.sub_self, mul_zero, zero_add, pow_one]
  have h := mul_le_of_le_one_right ha.le (ten_zpow_neg_le_one w)
  linarith

theorem arctanLive_step (A : ArctanSeriesArgs a w a2) {n : ℕ} {power sum : Decimal}
    (hs : ArctanLive a w n power sum) (hn : n < 1 + seriesFuel w) :
    (arctanStep a2 w n power).Meets (fun r => negligible r.2 sum w = false →
      (sum.add r.2 w).Meets (ArctanLive a w (n + 1) r.1) fun _ => True) fun _ => True := by
  refine (arctan_term A hs.toArctanState hn).mono (fun r hr hneg => ?_) fun _ _ => trivial
  obtain ⟨hP, hPσ, hPn, hT, hTerr⟩ := hr
  refine (arctan_add A hs.toArctanState hn hP hPσ hPn hT hTerr).mono (fun S hS => ⟨hS, ?_⟩)
    fun _ _ => trivial
  rw [Nat.add_sub_cancel]
  have ha := A.pos
  have hε := roundingError_pos w
  have hn0 : (0 : ℝ) ≤ n := n.cast_nonneg
  have hsum := hs.half_le A (by omega)
  have hsize0 := arctanSize_nonneg ha.le n
  have hterm : |(r.2.value : ℝ)| ≤ 2 * arctanSize a n := by
    have h := abs_sub_abs_le_abs_sub (r.2.value : ℝ) ((-1) ^ n * arctanSize a n)
    rw [abs_mul, abs_neg_one_pow, one_mul, abs_of_nonneg hsize0] at h
    have h6 : 6 * n * roundingError w ≤ 1 := by
      have := A.small (n := n) (by omega) (c := 6) (by norm_num)
      nlinarith [mul_nonneg hn0 hε.le]
    nlinarith
  have hsize : arctanSize a n ≤ a ^ (2 * n + 1) := by
    rw [arctanSize_def]
    exact div_le_self (pow_nonneg ha.le _) (by linarith)
  have hfloor := lt_abs_of_not_negligible_of_le hT hs.sum_within.tame A.digits_lt (S := a / 2)
    (by positivity) (hsum.trans (le_abs_self _)) hneg
  linarith

theorem not_arctanLive_fuel (A : ArctanSeriesArgs a w a2) (power sum : Decimal) :
    ¬ArctanLive a w (1 + seriesFuel w) power sum := by
  intro hs
  have hlarge := hs.large
  rw [Nat.add_sub_cancel_left] at hlarge
  have ha := A.pos
  have hsq : a ^ 2 ≤ 1 / 2 := A.square_le
  have hlast : a ^ (2 * seriesFuel w + 1) ≤ a * (1 / 2) ^ seriesFuel w :=
    calc a ^ (2 * seriesFuel w + 1) = a * (a ^ 2) ^ seriesFuel w := by ring
      _ ≤ a * (1 / 2) ^ seriesFuel w := by gcongr
  exact lt_asymm hlarge (fuel_term_lt_floor ha (by norm_num) (by norm_num) hlast)

theorem arctanSum_ends (A : ArctanSeriesArgs a w a2) {x : Decimal} (hx : x.Tame)
    (hxa : (x.value : ℝ) = a) :
    Ends (seriesBody w (arctanStep a2 w)) (1, x, x) (series w (arctanStep a2 w) x x) :=
  series_ends (ArctanLive a w) (fun _ _ _ hn hs => arctanLive_step A hs hn)
    (not_arctanLive_fuel A) (arctanLive_start hx A.pos hxa)

end Arctan

theorem angleHalving_ends (hw : 11 ≤ w.digits) (hw' : w.digits < 2 ^ 20) {θ : ℝ} {a : Decimal}
    (ha : Halving θ w a 0) :
    Ends (whileBody (fun s => tenth < s.1) (angleStep w)) (a, 0) (halveAngle w angleFuel a 0) := by
  rw [halveAngle_eq_runFor]
  refine counted_ends (Halving θ w) angleFuel
    (fun r c _ hr _ => halving_step hw hw' hr (fun a' => pure (a', c + 1)) fun a' ha' =>
      meets_pure ⟨rfl, ha'⟩) (fun r hr => ?_) ha
  rw [lt_iff_of_tame tame_tenth hr.tame, value_tenth, not_lt]
  have h := hr.le.trans (show 2 * (51 / 100 : ℝ) ^ angleFuel ≤ 1 / 10 by
    unfold angleFuel
    norm_num)
  exact (Rat.cast_le (K := ℝ)).mp (by push_cast; exact h)

/-- Every loop of `arctanWorking` ends by its own test: from the value it starts the halvings
at, `1/|x|` or `|x|`, the halving of the angle, and the series at each value the halvings end
on. -/
theorem arctanWorking_loops_end (hw : 11 ≤ w.digits) (hw' : w.digits ≤ 100000) {x : Decimal}
    (hx : x.Tame) (h0 : x.mantissa ≠ 0) :
    (if one < x.abs then one.div x.abs w else pure x.abs).Meets (fun a =>
      Ends (whileBody (fun s => tenth < s.1) (angleStep w)) (a, 0) (halveAngle w angleFuel a 0) ∧
        (halveAngle w angleFuel a 0).Meets (fun res => (res.1.mul res.1 w).Meets (fun a2 =>
          Ends (seriesBody w (arctanStep a2 w)) (1, res.1, res.1)
            (series w (arctanStep a2 w) res.1 res.1)) fun _ => True) fun _ => True)
      fun _ => True := by
  have hw20 : w.digits < 2 ^ 20 := by omega
  have hloops : ∀ {θ : ℝ} {a : Decimal}, Halving θ w a 0 →
      Ends (whileBody (fun s => tenth < s.1) (angleStep w)) (a, 0) (halveAngle w angleFuel a 0) ∧
        (halveAngle w angleFuel a 0).Meets (fun res => (res.1.mul res.1 w).Meets (fun a2 =>
          Ends (seriesBody w (arctanStep a2 w)) (1, res.1, res.1)
            (series w (arctanStep a2 w) res.1 res.1)) fun _ => True) fun _ => True := by
    intro θ a ha
    refine ⟨angleHalving_ends hw hw20 ha, ?_⟩
    refine (halveAngle_spec hw hw20 angleFuel (by simp) ha).mono (fun res hres => ?_)
      fun _ _ => trivial
    exact (arctanSquare_meets hw hw' hres.1 hres.2.1).mono
      (fun a2 A => arctanSum_ends A hres.1.tame rfl) fun _ _ => trivial
  split
  · rename_i hinv
    exact (inverse_meets hw hw' hx h0 ((one_lt_abs_iff hx).mp hinv)).mono
      (fun a0 ha0 => hloops ha0.1) fun _ _ => trivial
  · rename_i hinv
    exact meets_pure
      (hloops (halving_start_abs hx h0 (not_lt.mp ((one_lt_abs_iff hx).not.mp hinv))))

theorem arctanWorking_two_loops_end :
    11 ≤ (⟨11, by decide, by decide⟩ : Precision).digits ∧
      (⟨11, by decide, by decide⟩ : Precision).digits ≤ 100000 ∧ (2 : Decimal).Tame ∧
      (2 : Decimal).mantissa ≠ 0 ∧
      (if one < (2 : Decimal).abs then one.div (2 : Decimal).abs ⟨11, by decide, by decide⟩
        else pure (2 : Decimal).abs).Meets (fun a =>
        Ends (whileBody (fun s => tenth < s.1) (angleStep ⟨11, by decide, by decide⟩)) (a, 0)
            (halveAngle ⟨11, by decide, by decide⟩ angleFuel a 0) ∧
          (halveAngle ⟨11, by decide, by decide⟩ angleFuel a 0).Meets (fun res =>
            (res.1.mul res.1 ⟨11, by decide, by decide⟩).Meets (fun a2 =>
              Ends (seriesBody ⟨11, by decide, by decide⟩
                  (arctanStep a2 ⟨11, by decide, by decide⟩)) (1, res.1, res.1)
                (series ⟨11, by decide, by decide⟩ (arctanStep a2 ⟨11, by decide, by decide⟩)
                  res.1 res.1)) fun _ => True) fun _ => True)
        fun _ => True :=
  ⟨by decide, by decide, tame_two, by decide,
    arctanWorking_loops_end (by decide) (by decide) tame_two (by decide)⟩

/-! The hyperbolic sine -/

section Sinh

variable {ζ : ℝ} {σ : ℚ} {x2 : Decimal}

structure SinhLive (ζ : ℝ) (σ : ℚ) (w : Precision) (n : ℕ) (term sum : Decimal) : Prop
    extends SinhState ζ σ w n term sum where
  large : ζ * 10 ^ (-(w.digits : ℤ)) / 900 <
    ζ ^ (2 * (n - 1) + 1) / (2 * (n - 1) + 1).factorial

theorem sinhLive_start {x : Decimal} (hx : x.Tame) (hxs : 0 < σ * x.value) (hζ : 0 < ζ)
    (hxn : |(x.value : ℝ)| = ζ) : SinhLive ζ σ w 1 x x := by
  refine ⟨sinhState_start hx hxs hζ hxn, ?_⟩
  rw [Nat.sub_self, mul_zero, zero_add, pow_one, Nat.factorial_one, Nat.cast_one, div_one]
  have h := mul_le_of_le_one_right hζ.le (ten_zpow_neg_le_one w)
  linarith

theorem sinhLive_step (A : SinhSeriesArgs ζ w x2) (hσ : σ = 1 ∨ σ = -1) {n : ℕ}
    {term sum : Decimal} (hs : SinhLive ζ σ w n term sum) (hn : n < 1 + seriesFuel w) :
    (sinhStep x2 w n term).Meets (fun res => negligible res.2 sum w = false →
      (sum.add res.2 w).Meets (SinhLive ζ σ w (n + 1) res.1) fun _ => True) fun _ => True := by
  refine (sinh_term A hσ hs.toSinhState hn).mono (fun res hres hneg => ?_) fun _ _ => trivial
  obtain ⟨h12, hT, hTs, hTn⟩ := hres
  rw [h12]
  refine (sinh_add A hσ hs.toSinhState hT hTs hTn).mono (fun S hS => ⟨hS, ?_⟩)
    fun _ _ => trivial
  rw [Nat.add_sub_cancel]
  have hsmall : ∀ c : ℝ, c ≤ 10 * n + 10 → c * roundingError w ≤ 1 := fun c hc =>
    (series_error_le A.digits_ge A.digits_le (by omega) hc).trans (by norm_num)
  have hn0 : (0 : ℝ) ≤ n := n.cast_nonneg
  have hcast : ((n - 1 : ℕ) : ℝ) ≤ n := by exact_mod_cast Nat.sub_le n 1
  have hpart := (partial_sinh_mem A.zeta_pos.le A.zeta_le hs.one_le).1
  have hsum := (hs.sum_near.le_three_mul (hsmall _ (by linarith))).2
  have hterm := (hTn.le_three_mul (hsmall _ (by linarith))).1
  have hfloor := lt_abs_of_not_negligible_of_le hT hs.sum_tame A.digits_lt (S := ζ / 3)
    (by linarith [A.zeta_pos]) (by linarith) hneg
  linarith

theorem not_sinhLive_fuel (A : SinhSeriesArgs ζ w x2) (term sum : Decimal) :
    ¬SinhLive ζ σ w (1 + seriesFuel w) term sum := by
  intro hs
  have hlarge := hs.large
  rw [Nat.add_sub_cancel_left] at hlarge
  have hζ := A.zeta_pos
  have hfac : (6 : ℝ) ^ seriesFuel w ≤ (2 * seriesFuel w + 1).factorial := by
    have h := factorial_mul_six_pow_le 0 (seriesFuel w)
    simp only [mul_zero, zero_add, Nat.factorial_one, one_mul, add_zero] at h
    exact_mod_cast h
  have hlast : ζ ^ (2 * seriesFuel w + 1) / (2 * seriesFuel w + 1).factorial ≤
      ζ * (1 / 2) ^ seriesFuel w :=
    calc ζ ^ (2 * seriesFuel w + 1) / (2 * seriesFuel w + 1).factorial
        ≤ ζ / 6 ^ seriesFuel w := by
          gcongr
          exact pow_le_of_le_one hζ.le A.zeta_le (by omega)
      _ = ζ * (1 / 6) ^ seriesFuel w := by rw [one_div_pow, mul_one_div]
      _ ≤ ζ * (1 / 2) ^ seriesFuel w := by gcongr; norm_num
  exact lt_asymm hlarge (fuel_term_lt_floor hζ (by norm_num) (by norm_num) hlast)

theorem sinhSum_ends (A : SinhSeriesArgs ζ w x2) (hσ : σ = 1 ∨ σ = -1) {x : Decimal}
    (hx : x.Tame) (hxs : 0 < σ * x.value) (hxn : |(x.value : ℝ)| = ζ) :
    Ends (seriesBody w (sinhStep x2 w)) (1, x, x) (series w (sinhStep x2 w) x x) :=
  series_ends (SinhLive ζ σ w) (fun _ _ _ hn hs => sinhLive_step A hσ hs hn)
    (not_sinhLive_fuel A) (sinhLive_start hx hxs A.zeta_pos hxn)

end Sinh

/-- The series of `sinhSeries` at a nonzero working value below one in size ends by its own
test, whenever the square it starts from is computed. -/
theorem sinhSeries_loop_ends (hw : 11 ≤ w.digits) (hw' : w.digits ≤ 100000) {x : Decimal}
    (hx : x.Tame) (hx0 : x.value ≠ 0) (hx1 : |x.value| < 1) :
    (x.mul x w).Meets (fun x2 => Ends (seriesBody w (sinhStep x2 w)) (1, x, x)
      (series w (sinhStep x2 w) x x)) fun _ => True := by
  obtain ⟨σ, hσ, hxs⟩ : ∃ σ : ℚ, (σ = 1 ∨ σ = -1) ∧ 0 < σ * x.value := by
    rcases lt_or_gt_of_ne hx0 with hneg | hpos
    · exact ⟨-1, Or.inr rfl, by linarith⟩
    · exact ⟨1, Or.inl rfl, by linarith⟩
  exact (sinh_square_meets hx hx0 hx1 hw hw').mono (fun x2 A => sinhSum_ends A hσ hx hxs rfl)
    fun _ _ => trivial

theorem sinhSeries_half_loop_ends :
    11 ≤ (⟨11, by decide, by decide⟩ : Precision).digits ∧
      (⟨11, by decide, by decide⟩ : Precision).digits ≤ 100000 ∧ half.Tame ∧
      half.value ≠ 0 ∧ |half.value| < 1 ∧
      (half.mul half ⟨11, by decide, by decide⟩).Meets (fun x2 =>
        Ends (seriesBody ⟨11, by decide, by decide⟩ (sinhStep x2 ⟨11, by decide, by decide⟩))
          (1, half, half) (series ⟨11, by decide, by decide⟩
            (sinhStep x2 ⟨11, by decide, by decide⟩) half half)) fun _ => True :=
  ⟨by decide, by decide, tame_half, by rw [value_half]; norm_num, by rw [value_half]; norm_num,
    sinhSeries_loop_ends (by decide) (by decide) tame_half (by rw [value_half]; norm_num)
      (by rw [value_half]; norm_num)⟩

/-! The sine and the cosine -/

section Trig

variable {j : ℕ} {a : ℝ} {σ : ℚ} {f : ℝ} {d : ℕ → ℤ} {r2 : Decimal}

theorem TrigSeriesArgs.abs_limit_le (A : TrigSeriesArgs j a σ f d w r2) :
    |f| ≤ 43 * trigSize j a 0 := by
  have h := A.sub_partial_le (n := 1) le_rfl
  rw [sum_range_one, pow_zero, mul_one] at h
  have ht0 := trigSize_nonneg A.pos.le j 0
  have h1 : trigSize j a 1 ≤ 6 * trigSize j a 0 := by
    have hsucc := trigSize_succ j a 0
    simp only [zero_add, CharP.cast_eq_zero, mul_zero] at hsucc
    have ha2 : a ^ 2 ≤ 256 / 25 := by nlinarith [A.pos, A.le]
    have hj2 : (2 : ℝ) ≤ (j + 1) * (j + 2) := by nlinarith [j.cast_nonneg (α := ℝ)]
    rw [hsucc, div_le_iff₀ (by positivity)]
    nlinarith [mul_le_mul_of_nonneg_left ha2 ht0, mul_le_mul_of_nonneg_left hj2 ht0]
  have hσ : |(σ : ℝ) * trigSize j a 0| = trigSize j a 0 := by
    have h1 := A.abs_sign 0
    rw [pow_zero, mul_one] at h1
    rw [abs_mul, h1, one_mul, abs_of_nonneg ht0]
  have := abs_sub_abs_le_abs_sub f ((σ : ℝ) * trigSize j a 0)
  linarith

structure TrigLive (j : ℕ) (a : ℝ) (σ : ℚ) (f : ℝ) (w : Precision) (n : ℕ) (term sum : Decimal) :
    Prop extends TrigState j a σ f w n term sum where
  large : |f| * 10 ^ (-(w.digits : ℤ)) / 600 < trigSize j a (n - 1)

theorem trigLive_start (A : TrigSeriesArgs j a σ f d w r2) {x : Decimal} (hx : x.Tame)
    (hxσ : 0 < σ * x.value) (hxa : |(x.value : ℝ)| = trigSize j a 0) :
    TrigLive j a σ f w 1 x x := by
  refine ⟨trigState_start A hx hxσ hxa, ?_⟩
  rw [Nat.sub_self]
  have ht0 := trigSize_pos A.pos j 0
  have hf := A.abs_limit_le
  have hu := mul_le_of_le_one_right (abs_nonneg f) (ten_zpow_neg_le_one w)
  linarith

theorem trigLive_step (A : TrigSeriesArgs j a σ f d w r2) (hf : 25000 * roundingError w ≤ |f|)
    {n : ℕ} {term sum : Decimal} (hs : TrigLive j a σ f w n term sum)
    (hn : n < 1 + seriesFuel w) :
    (trigStep d r2 w n term).Meets (fun res => negligible res.2 sum w = false →
      (sum.add res.2 w).Meets (TrigLive j a σ f w (n + 1) res.1) fun _ => True)
      fun _ => True := by
  refine (trig_term A hs.toTrigState hn).mono (fun res hres hneg => ?_) fun _ _ => trivial
  obtain ⟨h12, hT, hTσ, hTn⟩ := hres
  rw [h12]
  refine (trig_add A hs.toTrigState hn hT hTσ hTn).mono (fun S hS => ⟨hS, ?_⟩)
    fun _ _ => trivial
  rw [Nat.add_sub_cancel]
  have hε := roundingError_pos w
  have hf0 : 0 < |f| := by linarith
  by_cases hbig : |f| / 16 ≤ trigSize j a n
  · have hu := mul_le_of_le_one_right hf0.le (ten_zpow_neg_le_one w)
    linarith
  rw [not_le] at hbig
  -- the sum's error, `1441 + n (|f| + 1/5000)` roundings, is at most `|f| / 16` here
  have herr : roundingError w * (1441 + n * (|f| + 1 / 5000)) ≤ |f| / 16 := by
    have hnF : n ≤ seriesFuel w := by omega
    have hn4 : (n : ℝ) ≤ 400100 := by
      have := A.digits_le
      exact_mod_cast (show n ≤ 400100 by unfold seriesFuel at hnF; omega)
    have hnε : (n : ℝ) * roundingError w ≤ 1 / 10000 := by
      have : (n : ℝ) ≤ seriesFuel w := by exact_mod_cast hnF
      nlinarith [A.fuel_small]
    have h1 := mul_le_mul_of_nonneg_right hnε (abs_nonneg f)
    have h2 := mul_le_mul_of_nonneg_right hn4 hε.le
    nlinarith
  have hsum : |f| / 2 ≤ |(sum.value : ℝ)| := by
    have hclose := hs.abs_sub_le_settled A
    have := abs_sub_abs_le_abs_sub f sum.value
    rw [abs_sub_comm] at this
    linarith
  have h3 : 3 * (n : ℝ) * roundingError w ≤ 1 := by
    have := A.small (n := n) (by omega) (c := 1) (by norm_num)
    linarith
  have hterm := (hTn.le_three_mul h3).1
  have hfloor := lt_abs_of_not_negligible_of_le hT hs.sum_within.tame A.digits_lt (S := |f| / 2)
    (by positivity) hsum hneg
  linarith

theorem fifth_pow_fuel_le (w : Precision) :
    (1 / 5 : ℝ) ^ seriesFuel w ≤ 10 ^ (-(w.digits : ℤ)) * (10 ^ (-(w.digits : ℤ)) / 10 ^ 60) := by
  have hw : (1 / 5 : ℝ) ^ (4 * w.digits) ≤ 10 ^ (-(w.digits : ℤ)) * 10 ^ (-(w.digits : ℤ)) :=
    calc (1 / 5 : ℝ) ^ (4 * w.digits) = (1 / 625) ^ w.digits := by rw [pow_mul]; norm_num
      _ ≤ (1 / 10 * (1 / 10)) ^ w.digits := pow_le_pow_left₀ (by norm_num) (by norm_num) _
      _ = 10 ^ (-(w.digits : ℤ)) * 10 ^ (-(w.digits : ℤ)) := by
          rw [mul_pow, zpow_neg, zpow_natCast, one_div, inv_pow]
  calc (1 / 5 : ℝ) ^ seriesFuel w = (1 / 5) ^ (4 * w.digits) * (1 / 5) ^ 100 := by
        rw [← pow_add]
        rfl
    _ ≤ 10 ^ (-(w.digits : ℤ)) * 10 ^ (-(w.digits : ℤ)) * (1 / 10 ^ 60) := by gcongr; norm_num
    _ = 10 ^ (-(w.digits : ℤ)) * (10 ^ (-(w.digits : ℤ)) / 10 ^ 60) := by ring

theorem not_trigLive_fuel (A : TrigSeriesArgs j a σ f d w r2) (hf : 25000 * roundingError w ≤ |f|)
    (term sum : Decimal) : ¬TrigLive j a σ f w (1 + seriesFuel w) term sum := by
  intro hs
  have hlarge := hs.large
  rw [Nat.add_sub_cancel_left] at hlarge
  have hu0 : (0 : ℝ) < 10 ^ (-(w.digits : ℤ)) := by positivity
  have hfu : 10 ^ (-(w.digits : ℤ)) ≤ |f| := by
    rw [roundingError_eq] at hf
    linarith
  have hf0 : 0 < |f| := hu0.trans_le hfu
  have hlast : trigSize j a (seriesFuel w) < |f| * 10 ^ (-(w.digits : ℤ)) / 600 :=
    calc trigSize j a (seriesFuel w) ≤ 6875 * (1 / 5) ^ seriesFuel w :=
          A.size_le (by unfold seriesFuel; omega)
      _ ≤ 6875 * (10 ^ (-(w.digits : ℤ)) * (10 ^ (-(w.digits : ℤ)) / 10 ^ 60)) := by
          gcongr; exact fifth_pow_fuel_le w
      _ ≤ 6875 * (|f| * (10 ^ (-(w.digits : ℤ)) / 10 ^ 60)) := by gcongr
      _ = |f| * 10 ^ (-(w.digits : ℤ)) * (6875 / 10 ^ 60) := by ring
      _ < |f| * 10 ^ (-(w.digits : ℤ)) / 600 := by
          have := mul_pos hf0 hu0
          linarith
  exact lt_asymm hlarge hlast

theorem trigSum_ends (A : TrigSeriesArgs j a σ f d w r2) (hf : 25000 * roundingError w ≤ |f|)
    {x : Decimal} (hx : x.Tame) (hxσ : 0 < σ * x.value) (hxa : |(x.value : ℝ)| = trigSize j a 0) :
    Ends (seriesBody w (trigStep d r2 w)) (1, x, x) (series w (trigStep d r2 w) x x) :=
  series_ends (TrigLive j a σ f w) (fun _ _ _ hn hs => trigLive_step A hf hs hn)
    (not_trigLive_fuel A hf) (trigLive_start A hx hxσ hxa)

end Trig

/-- The series of `sinSeries` at a nonzero working value within `16/5` of zero ends by its own
test wherever the sine is at least 25000 roundings in size, whenever the square it starts
from is computed. -/
theorem sinSeries_loop_ends (hw : 11 ≤ w.digits) (hw' : w.digits ≤ 100000) {r : Decimal}
    (hr : r.Tame) (h0 : r.mantissa ≠ 0) (hr1 : |(r.value : ℝ)| ≤ 16 / 5)
    (hf : 25000 * roundingError w ≤ |Real.sin r.value|) :
    (r.mul r w).Meets (fun r2 =>
      Ends (seriesBody w (trigStep (fun n => 2 * n * (2 * n + 1)) r2 w)) (1, r, r)
        (series w (trigStep (fun n => 2 * n * (2 * n + 1)) r2 w) r r)) fun _ => True := by
  refine (mul_spec hr hr (by omega)).mono (fun r2 hr2 => ?_) fun _ _ => trivial
  obtain ⟨σ, hrσ, A⟩ := sin_series_args h0 hr1 hw hw' hr2.1 hr2.2
  exact trigSum_ends A hf hr hrσ (by simp [trigSize])

theorem sinSeries_one_loop_ends :
    11 ≤ (⟨11, by decide, by decide⟩ : Precision).digits ∧
      (⟨11, by decide, by decide⟩ : Precision).digits ≤ 100000 ∧ one.Tame ∧ one.mantissa ≠ 0 ∧
      |(one.value : ℝ)| ≤ 16 / 5 ∧
      25000 * roundingError ⟨11, by decide, by decide⟩ ≤ |Real.sin one.value| ∧
      (one.mul one ⟨11, by decide, by decide⟩).Meets (fun r2 =>
        Ends (seriesBody ⟨11, by decide, by decide⟩
            (trigStep (fun n => 2 * n * (2 * n + 1)) r2 ⟨11, by decide, by decide⟩)) (1, one, one)
          (series ⟨11, by decide, by decide⟩
            (trigStep (fun n => 2 * n * (2 * n + 1)) r2 ⟨11, by decide, by decide⟩) one one))
        fun _ => True := by
  have hsin : 25000 * roundingError ⟨11, by decide, by decide⟩ ≤ |Real.sin one.value| := by
    have h := Real.sin_gt_sub_cube (x := 1) one_pos
    rw [value_one, Rat.cast_one, abs_of_pos (by linarith)]
    norm_num [roundingError_eq] at h ⊢
    linarith
  have hone : |(one.value : ℝ)| ≤ 16 / 5 := by rw [value_one]; norm_num
  exact ⟨by decide, by decide, tame_one, by decide, hone, hsin,
    sinSeries_loop_ends (by decide) (by decide) tame_one (by decide) hone hsin⟩

theorem cosZero_ends {r2 : Decimal} (hr2 : r2.Tame) (hr20 : r2.value = 0)
    (hw : w.digits < 2 ^ 20) :
    Ends (seriesBody w (trigStep (fun n => (2 * n - 1) * (2 * n)) r2 w)) (1, one, one)
      (series w (trigStep (fun n => (2 * n - 1) * (2 * n)) r2 w) one one) := by
  refine series_ends (fun n state sum => n = 1 ∧ state = one ∧ sum = one)
    (fun n state sum _ hs => ?_) (fun _ _ hs => by have := hs.1; unfold seriesFuel at this; omega)
    ⟨rfl, rfl, rfl⟩
  obtain ⟨rfl, rfl, rfl⟩ := hs
  unfold trigStep
  refine meets_bind ((mul_spec tame_one hr2 hw).mono (fun t h => h) fun _ _ => trivial)
    fun P hP => ?_
  have hP0 : P.mantissa = 0 := by
    rw [← value_eq_zero_iff, hP.2, hr20, mul_zero, roundSig_zero]
  have hdiv : ∀ k : ℤ, k ≠ 0 → P.div (ofInt k) w = .ok zero := fun k hk => by
    unfold Decimal.div
    rw [if_neg (show (ofInt k).mantissa ≠ 0 from hk), if_pos hP0]
  rw [hdiv _ (by decide)]
  exact fun hneg => by simp [negligible, zero] at hneg

/-- The series of `cosSeries` at a working value within `16/5` of zero ends by its own test
wherever the cosine is at least 25000 roundings in size, whenever the square it starts from
is computed. -/
theorem cosSeries_loop_ends (hw : 11 ≤ w.digits) (hw' : w.digits ≤ 100000) {r : Decimal}
    (hr : r.Tame) (hr1 : |(r.value : ℝ)| ≤ 16 / 5)
    (hf : 25000 * roundingError w ≤ |Real.cos r.value|) :
    (r.mul r w).Meets (fun r2 =>
      Ends (seriesBody w (trigStep (fun n => (2 * n - 1) * (2 * n)) r2 w)) (1, one, one)
        (series w (trigStep (fun n => (2 * n - 1) * (2 * n)) r2 w) one one)) fun _ => True := by
  refine (mul_spec hr hr (by omega)).mono (fun r2 hr2 => ?_) fun _ _ => trivial
  by_cases h0 : r.mantissa = 0
  · exact cosZero_ends hr2.1
      (by rw [hr2.2, value_eq_zero_iff.mpr h0, zero_mul, roundSig_zero]) (by omega)
  exact trigSum_ends (cos_series_args h0 hr1 hw hw' hr2.1 hr2.2) hf tame_one
    (by rw [value_one]; norm_num) (by rw [value_one]; simp [trigSize])

theorem cosSeries_one_loop_ends :
    11 ≤ (⟨11, by decide, by decide⟩ : Precision).digits ∧
      (⟨11, by decide, by decide⟩ : Precision).digits ≤ 100000 ∧ one.Tame ∧
      |(one.value : ℝ)| ≤ 16 / 5 ∧
      25000 * roundingError ⟨11, by decide, by decide⟩ ≤ |Real.cos one.value| ∧
      (one.mul one ⟨11, by decide, by decide⟩).Meets (fun r2 =>
        Ends (seriesBody ⟨11, by decide, by decide⟩
            (trigStep (fun n => (2 * n - 1) * (2 * n)) r2 ⟨11, by decide, by decide⟩))
          (1, one, one)
          (series ⟨11, by decide, by decide⟩
            (trigStep (fun n => (2 * n - 1) * (2 * n)) r2 ⟨11, by decide, by decide⟩) one one))
        fun _ => True := by
  have hcos : 25000 * roundingError ⟨11, by decide, by decide⟩ ≤ |Real.cos one.value| := by
    have h := Real.one_sub_sq_div_two_le_cos (x := 1)
    rw [value_one, Rat.cast_one, abs_of_pos (by linarith)]
    norm_num [roundingError_eq] at h ⊢
    linarith
  have hone : |(one.value : ℝ)| ≤ 16 / 5 := by rw [value_one]; norm_num
  exact ⟨by decide, by decide, tame_one, hone, hcos,
    cosSeries_loop_ends (by decide) (by decide) tame_one hone hcos⟩

end Calculator.Elementary
