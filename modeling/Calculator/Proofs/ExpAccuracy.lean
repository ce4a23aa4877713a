import Calculator.Proofs.SeriesSteps
/-!
Accuracy of the exponential. The argument's size `X` is halved `k` times to `R ≤ 1/2`, each
halving one rounding; the Taylor sum at `R` gains at most three roundings a term and stops where
the tail is below a unit of its last working digit; `k` squarings double the error each; a
negative argument takes one more rounding for the inverse. The count of halvings keeps
`2 ^ k < 4 X`, so the error the squarings multiply stays below `X` times the Taylor sum's, and
the guard digits `2·exponent + 14` cover it: the working value lies within `10 ^ (-p - 5)`,
relatively, of `e ^ x`, and its last rounding to `p` digits is faithful.
-/

namespace Calculator.Elementary

open Decimal Except Finset

noncomputable def roundingError (w : Precision) : ℝ := ((10 : ℕ) : ℝ) ^ (1 - (w.digits : ℤ))

theorem roundingError_def (w : Precision) : roundingError w = 10 ^ (1 - (w.digits : ℤ)) := by
  rw [roundingError, Nat.cast_ofNat]

theorem roundingError_pos (w : Precision) : 0 < roundingError w := by
  rw [roundingError_def]
  positivity

theorem near_of_rounds {z : Decimal} {q : ℚ} (hq : 0 < q) {w : Precision}
    (h : z.value = roundSig q w.digits) : Near z.value q (roundingError w) := by
  rw [h]
  exact near_roundSig hq w.digits_pos

theorem exp_le_three {t : ℝ} (ht : t ≤ 1) : Real.exp t ≤ 3 :=
  calc Real.exp t ≤ Real.exp 1 := Real.exp_le_exp.mpr ht
    _ ≤ 3 := by linarith [Real.exp_one_lt_d9]

/-! The bounds on the working precision that the error budget uses -/

section Budget

variable {w : Precision}

theorem roundingError_le (hw : 15 ≤ w.digits) : roundingError w ≤ 10 ^ (-14 : ℤ) :=
  zpow_le_zpow_right₀ (by norm_num) (by omega)

theorem fuel_mul_roundingError_le (hw : w.digits ≤ 100000) :
    ((seriesFuel w : ℝ) + 1) * roundingError w ≤ 10 ^ (7 - (w.digits : ℤ)) := by
  have hfuel : (seriesFuel w : ℝ) + 1 ≤ 10 ^ 6 := by
    have : seriesFuel w + 1 ≤ 10 ^ 6 := by unfold seriesFuel; omega
    exact_mod_cast this
  calc ((seriesFuel w : ℝ) + 1) * roundingError w ≤ 10 ^ 6 * roundingError w :=
        mul_le_mul_of_nonneg_right hfuel (roundingError_pos w).le
    _ = 10 ^ (7 - (w.digits : ℤ)) := by
        rw [roundingError_def, ← zpow_natCast, ← zpow_add₀ (by norm_num)]
        ring_nf

end Budget

/-! Halving -/

structure Halved (X : ℝ) (w : Precision) (r : Decimal) (c : ℕ) : Prop where
  count_le : c ≤ halvingFuel
  tame : r.Tame
  near : Near r.value (X / 2 ^ c) (c * roundingError w)
  count : 0 < c → (2 : ℝ) ^ c < 4 * X * Real.exp (c * roundingError w)

theorem tame_one : one.Tame := tame_of_small (by decide) (by decide)

theorem tame_two : (2 : Decimal).Tame := tame_ofInt (by decide)

theorem tame_half : half.Tame := tame_of_small (by decide) (by decide)

theorem halved_step {X : ℝ} {w : Precision} (hw : w.digits < 2 ^ 20) {r : Decimal} {c : ℕ}
    (hc : c < halvingFuel) (hr : Halved X w r c) (hgt : half < r) :
    (r.div 2 w).Meets (fun r' => Halved X w r' (c + 1)) (fun _ => True) := by
  have hr12 : (1 / 2 : ℚ) < r.value := by
    rw [← value_half]
    exact (lt_iff_of_tame tame_half hr.tame).mp hgt
  refine (div_spec hr.tame tame_two (by decide) hw).mono (fun r' hr' => ?_) fun _ _ => trivial
  obtain ⟨htame, hv⟩ := hr'
  rw [value_two] at hv
  have hround := near_of_rounds (by linarith) hv
  have hX := hr.near.2.1
  have hhalf : Near ((r.value / 2 : ℚ) : ℝ) (X / 2 ^ (c + 1)) (c * roundingError w) := by
    have h := hr.near.div (Near.refl two_pos)
    rw [add_zero, div_div, ← pow_succ] at h
    rwa [Rat.cast_div, Rat.cast_ofNat]
  refine ⟨hc, htame, (hround.trans hhalf).mono (by push_cast; linarith), fun _ => ?_⟩
  have hup := ((Near.iff hr.near.1 hX).mp hr.near).2
  have hr12' : (1 / 2 : ℝ) < r.value := by
    have h := (Rat.cast_lt (K := ℝ)).mpr hr12
    rwa [Rat.cast_div, Rat.cast_one, Rat.cast_ofNat] at h
  have hpow : (0 : ℝ) < 2 ^ c := by positivity
  have hX0 : 0 < X := (div_pos_iff_of_pos_right hpow).mp hX
  have hgrow : Real.exp (c * roundingError w) ≤ Real.exp ((c + 1 : ℕ) * roundingError w) :=
    Real.exp_le_exp.mpr (mul_le_mul_of_nonneg_right (by push_cast; linarith)
      (roundingError_pos w).le)
  have hlt : (2 : ℝ) ^ c < 2 * X * Real.exp (c * roundingError w) := by
    rw [div_mul_eq_mul_div, le_div_iff₀ hpow] at hup
    nlinarith
  calc (2 : ℝ) ^ (c + 1) = 2 * 2 ^ c := by ring
    _ < 2 * (2 * X * Real.exp (c * roundingError w)) := by linarith
    _ ≤ 4 * X * Real.exp ((c + 1 : ℕ) * roundingError w) := by nlinarith

theorem halved_start {x : Decimal} (hx : x.Tame) (hm : x.mantissa ≠ 0) (w : Precision) :
    Halved |(x.value : ℝ)| w x.abs 0 := by
  have hX0 : 0 < |(x.value : ℝ)| := abs_pos.mpr (by exact_mod_cast value_eq_zero_iff.not.mpr hm)
  refine ⟨Nat.zero_le _, hx.abs, ?_, fun h => absurd h (lt_irrefl 0)⟩
  rw [value_abs, Rat.cast_abs, pow_zero, div_one, Nat.cast_zero, zero_mul]
  exact Near.refl hX0

theorem not_halved_fuel {X : ℝ} {w : Precision} (hw : 15 ≤ w.digits) (hX : X < 10 ^ 12)
    (r : Decimal) : ¬Halved X w r halvingFuel := by
  intro hr
  have hX0 : 0 < X := (div_pos_iff_of_pos_right (by positivity)).mp hr.near.2.1
  have hsmall : (halvingFuel : ℝ) * roundingError w ≤ 1 := by
    have := roundingError_le hw
    norm_num [halvingFuel] at this ⊢
    linarith
  have hexp := exp_le_three hsmall
  refine absurd (hr.count (by decide)) (not_lt.mpr ?_)
  calc 4 * X * Real.exp (halvingFuel * roundingError w) ≤ 4 * 10 ^ 12 * 3 := by gcongr
    _ ≤ 2 ^ halvingFuel := by norm_num [halvingFuel]

theorem halving_spec {x : Decimal} (hx : x.Tame) (hm : x.mantissa ≠ 0) {w : Precision}
    (hw : 15 ≤ w.digits) (hw' : w.digits < 2 ^ 20) (hX : |(x.value : ℝ)| < 10 ^ 12) :
    (halveWhileAbove half w halvingFuel x.abs 0).Meets
      (fun res => Halved |(x.value : ℝ)| w res.1 res.2 ∧ res.1.value ≤ 1 / 2) (fun _ => True) := by
  have hstop : ∀ r c, Halved |(x.value : ℝ)| w r c → ¬half < r → r.value ≤ 1 / 2 := by
    intro r c hr hle
    rwa [lt_iff_of_tame tame_half hr.tame, value_half, not_lt] at hle
  have hout : ∀ r, ¬Halved |(x.value : ℝ)| w r (0 + halvingFuel) := not_halved_fuel hw hX
  exact halveWhileAbove_meets_inv (Halved |(x.value : ℝ)| w) _ (0 + halvingFuel)
    (fun r c hc hr hgt => halved_step hw' (by omega) hr hgt)
    (fun r c hr hle => ⟨hr, hstop r c hr hle⟩) (fun r hr => absurd hr (hout r)) halvingFuel
    rfl (halved_start hx hm w)

/-! The Taylor sum -/

theorem exp_sub_taylor_le {R : ℝ} (hR0 : 0 ≤ R) (hR : R ≤ 1 / 2) {n : ℕ} (hn : 0 < n) :
    Real.exp R - ∑ i ∈ range n, R ^ i / i.factorial ≤ 2 * (R ^ n / n.factorial) := by
  have h := Real.exp_bound (x := R) (by rw [abs_of_nonneg hR0]; linarith) hn
  rw [abs_of_nonneg hR0] at h
  have hn1 : (1 : ℝ) ≤ n := by exact_mod_cast hn
  have hfac : (0 : ℝ) < n.factorial := by exact_mod_cast Nat.factorial_pos n
  have hcoef : (n.succ : ℝ) / (n.factorial * n) ≤ 2 / n.factorial := by
    rw [div_le_div_iff₀ (by positivity) hfac]
    push_cast
    nlinarith
  calc Real.exp R - ∑ i ∈ range n, R ^ i / i.factorial
      ≤ R ^ n * ((n.succ : ℝ) / (n.factorial * n)) := (le_abs_self _).trans h
    _ ≤ R ^ n * (2 / n.factorial) := by gcongr
    _ = 2 * (R ^ n / n.factorial) := by ring

theorem near_of_tail {s A L t u : ℝ} (hs : Near s A t) (hA : A ≤ L) (htail : L - A ≤ u * L)
    (hu : u ≤ 1 / 2) : Near s L (t + 2 * u) :=
  hs.trans (Near.of_abs_sub_le (hs.2.1.trans_le hA) hu
    (by rwa [abs_sub_comm, abs_of_nonneg (by linarith)]))

noncomputable def taylorError (w : Precision) : ℝ := (3 * seriesFuel w + 1) * roundingError w

structure TaylorState (R : ℝ) (w : Precision) (n : ℕ) (term sum : Decimal) : Prop where
  one_le : 1 ≤ n
  term_tame : term.Tame
  sum_tame : sum.Tame
  term_near : Near term.value (R ^ (n - 1) / (n - 1).factorial)
    (2 * (n - 1 : ℕ) * roundingError w)
  sum_near : Near sum.value (∑ i ∈ range n, R ^ i / i.factorial)
    (3 * (n - 1 : ℕ) * roundingError w)

theorem taylorState_start (R : ℝ) (w : Precision) : TaylorState R w 1 one one := by
  have hone : Near (one.value : ℝ) (R ^ (1 - 1) / (1 - 1).factorial) 0 := by
    rw [value_one, Rat.cast_one]
    simpa using Near.refl one_pos
  exact ⟨le_refl 1, tame_one, tame_one, by simpa using hone, by simpa using hone⟩

theorem pow_div_factorial_succ (R : ℝ) (m : ℕ) :
    R ^ m / m.factorial * R / ((m + 1 : ℕ) : ℝ) = R ^ (m + 1) / (m + 1).factorial := by
  rw [Nat.factorial_succ, pow_succ]
  push_cast
  field_simp

def taylorStep (r : Decimal) (w : Precision) (n : Nat) (term : Decimal) :
    Except Fault (Decimal × Decimal) := do
  let term ← (← term.mul r w).div (ofInt n) w
  pure (term, term)

/-- The next Taylor term is within two more roundings of `R ^ n / n!`: one for the product with
the argument, one for the quotient by `n`. -/
theorem taylor_term {w : Precision} (hw : w.digits < 2 ^ 20) {r term sum : Decimal}
    (hr : r.Tame) (hR0 : 0 < r.value) {n : ℕ} (hs : TaylorState r.value w n term sum)
    (hn : n < 2 ^ 20) :
    (taylorStep r w n term).Meets
      (fun res => res.1 = res.2 ∧ res.2.Tame ∧
        Near res.2.value ((r.value : ℝ) ^ n / n.factorial) (2 * n * roundingError w))
      (fun _ => True) := by
  obtain ⟨m, rfl⟩ : ∃ m, n = m + 1 := ⟨n - 1, by have := hs.one_le; omega⟩
  have hterm := hs.term_near
  simp only [Nat.add_sub_cancel] at hterm
  have hpos : (0 : ℚ) < term.value := by exact_mod_cast hterm.1
  refine meets_bind ((mul_spec hs.term_tame hr hw).mono (fun t h => h) fun _ _ => trivial)
    fun t1 ⟨ht1, hv1⟩ => ?_
  have hprod : Near ((term.value * r.value : ℚ) : ℝ)
      ((r.value : ℝ) ^ m / m.factorial * r.value) (2 * m * roundingError w) := by
    have h := hterm.mul (Near.refl (by exact_mod_cast hR0 : (0 : ℝ) < r.value))
    rwa [add_zero, ← Rat.cast_mul] at h
  have hnear1 := (near_of_rounds (mul_pos hpos hR0) hv1).trans hprod
  have hn0 : (ofInt (m + 1 : ℕ)).mantissa ≠ 0 := by
    show ((m + 1 : ℕ) : ℤ) ≠ 0
    omega
  have hntame : (ofInt (m + 1 : ℕ)).Tame :=
    tame_ofInt (by rw [Int.natAbs_natCast]; exact lt_of_lt_of_le hn (by decide))
  refine meets_bind ((div_spec ht1 hntame hn0 hw).mono (fun t h => h) fun _ _ => trivial)
    fun t2 ⟨ht2, hv2⟩ => meets_pure ⟨rfl, ht2, ?_⟩
  rw [value_ofInt] at hv2
  have hpos1 : (0 : ℚ) < t1.value := by exact_mod_cast hnear1.1
  have hquot : Near ((t1.value / ((m + 1 : ℕ) : ℤ) : ℚ) : ℝ)
      ((r.value : ℝ) ^ (m + 1) / (m + 1).factorial)
      (roundingError w + 2 * m * roundingError w) := by
    have h := hnear1.div (Near.refl (by positivity : (0 : ℝ) < ((m + 1 : ℕ) : ℝ)))
    rw [add_zero, pow_div_factorial_succ] at h
    convert h using 2
    push_cast
    ring
  refine ((near_of_rounds (div_pos hpos1 (by positivity)) hv2).trans hquot).mono (le_of_eq ?_)
  push_cast
  ring

theorem taylor_add {w : Precision} (hw : w.digits < 2 ^ 20) {R : ℝ} {n : ℕ}
    {term sum t : Decimal} (hs : TaylorState R w n term sum) (ht : t.Tame)
    (htn : Near t.value (R ^ n / n.factorial) (2 * n * roundingError w)) :
    (sum.add t w).Meets (TaylorState R w (n + 1) t) (fun _ => True) := by
  have hn1 : (1 : ℝ) ≤ n := by exact_mod_cast hs.one_le
  have hcast : ((n - 1 : ℕ) : ℝ) = n - 1 := by rw [Nat.cast_sub hs.one_le, Nat.cast_one]
  have hε := (roundingError_pos w).le
  have hsum := hs.sum_near
  rw [hcast] at hsum
  have hpos : (0 : ℚ) < sum.value + t.value := by
    have h1 : (0 : ℚ) < sum.value := by exact_mod_cast hsum.1
    have h2 : (0 : ℚ) < t.value := by exact_mod_cast htn.1
    linarith
  refine (add_spec hs.sum_tame ht hw).mono (fun sum' ⟨hs', hv'⟩ => ?_) fun _ _ => trivial
  have hadd : Near ((sum.value + t.value : ℚ) : ℝ) (∑ i ∈ range (n + 1), R ^ i / i.factorial)
      ((3 * n - 1) * roundingError w) := by
    rw [Rat.cast_add, sum_range_succ]
    exact (hsum.mono (by nlinarith)).add (htn.mono (by nlinarith))
  refine ⟨by omega, ht, hs', by simpa using htn, ?_⟩
  refine ((near_of_rounds hpos hv').trans hadd).mono (le_of_eq ?_)
  rw [Nat.add_sub_cancel]
  ring

theorem roundingError_eq (w : Precision) :
    roundingError w = 10 * 10 ^ (-(w.digits : ℤ)) := by
  rw [roundingError_def, ← zpow_one_add₀ (by norm_num), ← sub_eq_add_neg]

/-- A sum that stops on a negligible term is within the Taylor error of `e ^ R`: the tail is at
most twice that term, and the term lies `w + 1` places below the sum. -/
theorem taylor_done_of_negligible {w : Precision} (hw : 15 ≤ w.digits)
    (hw' : w.digits ≤ 100000) {R : ℝ} (hR0 : 0 < R) (hR : R ≤ 1 / 2) {n : ℕ}
    {term sum t : Decimal} (hs : TaylorState R w n term sum) (hn : n < 1 + seriesFuel w)
    (ht : t.Tame) (htn : Near t.value (R ^ n / n.factorial) (2 * n * roundingError w))
    (hneg : negligible t sum w = true) : Near sum.value (Real.exp R) (taylorError w) := by
  have hε := (roundingError_pos w).le
  have hn1 : (1 : ℝ) ≤ n := by exact_mod_cast hs.one_le
  have hF : (n : ℝ) ≤ seriesFuel w := by exact_mod_cast (show n ≤ seriesFuel w by omega)
  have hcast : ((n - 1 : ℕ) : ℝ) = n - 1 := by rw [Nat.cast_sub hs.one_le, Nat.cast_one]
  have hsum := hs.sum_near
  rw [hcast] at hsum
  set A := ∑ i ∈ range n, R ^ i / i.factorial
  set u : ℝ := 10 ^ (-(w.digits : ℤ))
  have hu : 0 < u := by positivity
  have hε10 : roundingError w = 10 * u := roundingError_eq w
  -- the exponents of the two errors stay below one
  have hbudget : 5 * n * roundingError w ≤ 1 := by
    have h1 := fuel_mul_roundingError_le hw'
    have h2 : (10 : ℝ) ^ (7 - (w.digits : ℤ)) ≤ 10 ^ (-8 : ℤ) :=
      zpow_le_zpow_right₀ (by norm_num) (by omega)
    calc 5 * n * roundingError w = 5 * (n * roundingError w) := by ring
      _ ≤ 5 * ((seriesFuel w + 1) * roundingError w) := by gcongr; linarith
      _ ≤ 5 * 10 ^ (-8 : ℤ) := by gcongr; exact h1.trans h2
      _ ≤ 1 := by norm_num
  have ht0 : t.mantissa ≠ 0 := value_eq_zero_iff.not.mp (by exact_mod_cast htn.1.ne')
  obtain ⟨-, hlt⟩ := abs_lt_of_negligible ht hs.sum_tame (by omega) ht0 hneg
  have hlt' : (t.value : ℝ) < sum.value * (u / 10) := by
    rw [abs_of_pos (by exact_mod_cast htn.1), abs_of_pos (by exact_mod_cast hsum.1)] at hlt
    have h := (Rat.cast_lt (K := ℝ)).mpr hlt
    push_cast at h
    rwa [zpow_sub₀ (by norm_num), zpow_one] at h
  have hterm := ((Near.iff htn.2.1 htn.1).mp htn.symm).2
  have hsumle := ((Near.iff hsum.1 hsum.2.1).mp hsum).2
  have hexp : Real.exp (2 * n * roundingError w) * Real.exp ((3 * (n - 1)) * roundingError w) ≤ 3 := by
    rw [← Real.exp_add]
    exact exp_le_three (by nlinarith)
  have hA : A ≤ Real.exp R := Real.sum_le_exp_of_nonneg hR0.le n
  have htail : Real.exp R - A ≤ u * Real.exp R :=
    calc Real.exp R - A ≤ 2 * (R ^ n / n.factorial) := exp_sub_taylor_le hR0.le hR hs.one_le
      _ ≤ 2 * (t.value * Real.exp (2 * n * roundingError w)) := by gcongr
      _ ≤ 2 * (sum.value * (u / 10) * Real.exp (2 * n * roundingError w)) := by gcongr
      _ ≤ 2 * (A * Real.exp ((3 * (n - 1)) * roundingError w) * (u / 10) *
            Real.exp (2 * n * roundingError w)) := by gcongr
      _ = A * u / 5 * (Real.exp (2 * n * roundingError w) *
            Real.exp ((3 * (n - 1)) * roundingError w)) := by ring
      _ ≤ A * u / 5 * 3 :=
          mul_le_mul_of_nonneg_left hexp (div_nonneg (mul_nonneg hsum.2.1.le hu.le) (by norm_num))
      _ ≤ u * Real.exp R := by nlinarith [mul_le_mul_of_nonneg_left hA hu.le, hsum.2.1]
  refine (near_of_tail hsum hA htail (by nlinarith [roundingError_le hw])).mono ?_
  unfold taylorError
  nlinarith

theorem half_pow_fuel_le_tiny (w : Precision) :
    (1 / 2 : ℝ) ^ seriesFuel w ≤ 10 ^ (-(w.digits : ℤ)) / 10 ^ 30 := by
  have hw : (1 / 2 : ℝ) ^ (4 * w.digits) ≤ 10 ^ (-(w.digits : ℤ)) :=
    calc (1 / 2 : ℝ) ^ (4 * w.digits) = (1 / 16) ^ w.digits := by rw [pow_mul]; norm_num
      _ ≤ (1 / 10) ^ w.digits := pow_le_pow_left₀ (by norm_num) (by norm_num) _
      _ = 10 ^ (-(w.digits : ℤ)) := by rw [zpow_neg, zpow_natCast, one_div, inv_pow]
  calc (1 / 2 : ℝ) ^ seriesFuel w = (1 / 2) ^ (4 * w.digits) * (1 / 2) ^ 100 := by
        rw [← pow_add]
        rfl
    _ ≤ 10 ^ (-(w.digits : ℤ)) * (1 / 10 ^ 30) := by gcongr; norm_num
    _ = 10 ^ (-(w.digits : ℤ)) / 10 ^ 30 := by ring

theorem half_pow_fuel_le (w : Precision) :
    (1 / 2 : ℝ) ^ seriesFuel w ≤ 10 ^ (-(w.digits : ℤ)) :=
  (half_pow_fuel_le_tiny w).trans (div_le_self (by positivity) (by norm_num))

theorem taylor_done_of_fuel {w : Precision} (hw : 15 ≤ w.digits) {R : ℝ} (hR0 : 0 < R)
    (hR : R ≤ 1 / 2) {term sum : Decimal} (hs : TaylorState R w (1 + seriesFuel w) term sum) :
    Near sum.value (Real.exp R) (taylorError w) := by
  have hsum := hs.sum_near
  rw [Nat.add_sub_cancel_left] at hsum
  set F := seriesFuel w
  set u : ℝ := 10 ^ (-(w.digits : ℤ))
  have hε10 : roundingError w = 10 * u := roundingError_eq w
  have hu : 0 < u := by positivity
  have htail : Real.exp R - ∑ i ∈ range (1 + F), R ^ i / i.factorial ≤ u * Real.exp R :=
    calc Real.exp R - ∑ i ∈ range (1 + F), R ^ i / i.factorial
        ≤ 2 * (R ^ (1 + F) / (1 + F).factorial) := exp_sub_taylor_le hR0.le hR (by omega)
      _ ≤ 2 * R ^ (1 + F) := by
          gcongr
          exact div_le_self (by positivity) (Nat.one_le_cast.mpr (Nat.factorial_pos _))
      _ ≤ 2 * (1 / 2) ^ (1 + F) := by gcongr
      _ = (1 / 2) ^ F := by ring
      _ ≤ u := half_pow_fuel_le w
      _ ≤ u * Real.exp R := le_mul_of_one_le_right hu.le (Real.one_le_exp hR0.le)
  have hu2 : u ≤ 1 / 2 := by
    have h14 := roundingError_le hw
    have h1 : (10 : ℝ) ^ (-14 : ℤ) ≤ 1 := by norm_num
    linarith
  refine (near_of_tail hsum (Real.sum_le_exp_of_nonneg hR0.le _) htail hu2).mono ?_
  unfold taylorError
  nlinarith

theorem taylor_spec {w : Precision} (hw : 15 ≤ w.digits) (hw' : w.digits ≤ 100000) {r : Decimal}
    (hr : r.Tame) (hR0 : 0 < r.value) (hR : r.value ≤ 1 / 2) :
    (series w (taylorStep r w) one one).Meets
      (fun s => s.Tame ∧ Near s.value (Real.exp r.value) (taylorError w)) (fun _ => True) := by
  have hw20 : w.digits < 2 ^ 20 := by omega
  have hR0' : (0 : ℝ) < r.value := by exact_mod_cast hR0
  have hR' : (r.value : ℝ) ≤ 1 / 2 := by
    have h := (Rat.cast_le (K := ℝ)).mpr hR
    rwa [Rat.cast_div, Rat.cast_one, Rat.cast_ofNat] at h
  refine series_meets_inv (TaylorState r.value w) _ (fun n term sum hn hs => ?_)
    (fun term sum hs => ⟨hs.sum_tame, taylor_done_of_fuel hw hR0' hR' hs⟩)
    (taylorState_start _ w)
  have hn20 : n < 2 ^ 20 := by unfold seriesFuel at hn; omega
  refine (taylor_term hw20 hr hR0 hs hn20).mono (fun res ⟨h12, ht, hnear⟩ => ⟨fun hneg => ?_,
    fun _ => ?_⟩) fun _ _ => trivial
  · exact ⟨hs.sum_tame, taylor_done_of_negligible hw hw' hR0' hR' hs hn ht hnear hneg⟩
  · rw [h12]
    exact taylor_add hw20 hs ht hnear

/-! Squaring and the inverse -/

theorem squaring_spec {w : Precision} (hw : w.digits < 2 ^ 20) {s : Decimal} {R t : ℝ}
    (hs : s.Tame) (hnear : Near s.value (Real.exp R) t) (k : ℕ) :
    (squareTimes w k s).Meets
      (fun v => v.Tame ∧
        Near v.value (Real.exp (2 ^ k * R)) (2 ^ k * (t + roundingError w) - roundingError w))
      (fun _ => True) := by
  have hstep : ∀ i (v : Decimal), (v.Tame ∧ Near v.value (Real.exp (2 ^ i * R))
      (2 ^ i * (t + roundingError w) - roundingError w)) →
      (v.mul v w).Meets (fun v' => v'.Tame ∧ Near v'.value (Real.exp (2 ^ (i + 1) * R))
        (2 ^ (i + 1) * (t + roundingError w) - roundingError w)) (fun _ => True) := by
    intro i v ⟨hv, hvn⟩
    have hpos : (0 : ℚ) < v.value * v.value := by
      have : (0 : ℚ) < v.value := by exact_mod_cast hvn.1
      positivity
    refine (mul_spec hv hv hw).mono (fun v' ⟨hv', hval⟩ => ⟨hv', ?_⟩) fun _ _ => trivial
    have hsq : Near ((v.value * v.value : ℚ) : ℝ) (Real.exp (2 ^ (i + 1) * R))
        (2 * (2 ^ i * (t + roundingError w) - roundingError w)) := by
      have h := hvn.mul hvn
      rw [← Real.exp_add, ← Rat.cast_mul] at h
      convert h using 2 <;> ring
    exact ((near_of_rounds hpos hval).trans hsq).mono (le_of_eq (by ring))
  have h := squareTimes_meets_inv _ hstep k (i := 0) ⟨hs, by simpa using hnear⟩
  rwa [Nat.zero_add] at h

/-! The error budget -/

theorem exp_budget {p E k : ℕ} {w : Precision} {X : ℝ} (hwd : w.digits = p + 14 + 2 * E)
    (hw' : w.digits ≤ 100000) (hX0 : 0 < X) (hX : X < 10 ^ ((E : ℤ) + 1))
    (hk : (2 : ℝ) ^ k ≤ 12 * X + 1) (hk' : k ≤ 64) :
    2 ^ k * (taylorError w + roundingError w) + 2 * (k * roundingError w) * X ≤
      10 ^ (-(p : ℤ) - 3) := by
  set ε := roundingError w
  set Z : ℝ := 10 ^ (7 - (w.digits : ℤ))
  have hε := (roundingError_pos w).le
  have hF := fuel_mul_roundingError_le hw'
  have hF0 : (0 : ℝ) ≤ seriesFuel w := Nat.cast_nonneg _
  have hT : taylorError w + ε ≤ 3 * Z := by
    unfold taylorError
    nlinarith
  have hkε : k * ε ≤ 64 * Z := by
    have : (k : ℝ) ≤ 64 := by exact_mod_cast hk'
    nlinarith
  have hone : (1 : ℝ) ≤ 10 ^ ((E : ℤ) + 1) := one_le_zpow₀ (by norm_num) (by omega)
  have hZ : 0 < Z := by positivity
  have hT0 : 0 ≤ taylorError w + ε := by
    unfold taylorError
    positivity
  calc 2 ^ k * (taylorError w + ε) + 2 * (k * ε) * X
      ≤ (12 * X + 1) * (3 * Z) + 2 * (64 * Z) * X := by gcongr
    _ = (164 * X + 3) * Z := by ring
    _ ≤ 10 ^ (3 : ℤ) * 10 ^ ((E : ℤ) + 1) * Z := by
        have : (164 * X + 3) ≤ 10 ^ (3 : ℤ) * 10 ^ ((E : ℤ) + 1) := by norm_num; nlinarith
        exact mul_le_mul_of_nonneg_right this hZ.le
    _ = 10 ^ (-(p : ℤ) - 3 - E) := by
        rw [← zpow_add₀ (by norm_num), ← zpow_add₀ (by norm_num), hwd]
        push_cast
        ring_nf
    _ ≤ 10 ^ (-(p : ℤ) - 3) := zpow_le_zpow_right₀ (by norm_num) (by omega)

theorem abs_pow_mul_sub_le {X R : ℝ} {k : ℕ} {w : Precision}
    (h : Near R (X / 2 ^ k) (k * roundingError w)) (hk : k * roundingError w ≤ 1 / 2) :
    |2 ^ k * R - X| ≤ 2 * (k * roundingError w) * X := by
  have h1 := h.abs_sub_le hk
  have hpow : (0 : ℝ) < 2 ^ k := by positivity
  calc |2 ^ k * R - X| = 2 ^ k * |R - X / 2 ^ k| := by
        rw [← abs_of_pos hpow, ← abs_mul, abs_of_pos hpow, mul_sub, mul_div_cancel₀ _ hpow.ne']
    _ ≤ 2 ^ k * (2 * (k * roundingError w) * (X / 2 ^ k)) := by gcongr
    _ = 2 * (k * roundingError w) * X := by field_simp

theorem exp_widen_digits {p : Precision} (hp : p.digits ≤ 50000) {E : ℕ} (hE : E ≤ 11) :
    (p.widen (guardDigits + 2 * E + 4)).digits = p.digits + 14 + 2 * E := by
  rw [Precision.widen_digits_of_le (by
    unfold guardDigits Precision.digitsLimit
    omega)]
  unfold guardDigits
  omega

theorem abs_lt_exponent_succ {x : Decimal} (hx : x.Tame) (h0 : x.mantissa ≠ 0) :
    |(x.value : ℝ)| < 10 ^ (((max x.exponent 0).toNat : ℤ) + 1) := by
  have h := lt_zpow_exponent hx h0
  have h' := (Rat.cast_lt (K := ℝ)).mpr h
  rw [Rat.cast_abs, Rat.cast_zpow, Rat.cast_ofNat] at h'
  exact h'.trans_le (zpow_le_zpow_right₀ (by norm_num) (by omega))

theorem abs_lt_ten_pow_twelve {x : Decimal} (hx : x.Tame) (h0 : x.mantissa ≠ 0)
    (hlimit : x.exponent ≤ expLimit) : |(x.value : ℝ)| < 10 ^ 12 := by
  have hE : (max x.exponent 0).toNat ≤ 11 := by
    simp only [expLimit] at hlimit
    omega
  refine (abs_lt_exponent_succ hx h0).trans_le ?_
  have : (10 : ℝ) ^ (((max x.exponent 0).toNat : ℤ) + 1) ≤ 10 ^ (12 : ℤ) :=
    zpow_le_zpow_right₀ (by norm_num) (by omega)
  simpa using this

/-- The exponential of a working value, at a precision up to fifty thousand digits (the
calculator takes up to ten thousand, and works at ten more), is faithful whenever it is
computed: a working value within a unit of the `p`-th significant digit of `e ^ x`. -/
theorem exp_faithful {x : Decimal} (hx : x.Tame) {p : Precision} (hp : p.digits ≤ 50000) :
    (exp x p).Meets
      (fun v => v.Tame ∧ |(v.value : ℝ) - Real.exp x.value| <
        10 ^ (Int.log 10 (Real.exp x.value) + 1 - p.digits))
      (fun _ => True) := by
  unfold exp
  refine meets_ite (fun h0 => meets_pure ⟨tame_one, ?_⟩) fun h0 => ?_
  · rw [value_eq_zero_iff.mpr h0, value_one, Rat.cast_zero, Real.exp_zero, Rat.cast_one, sub_self,
      abs_zero]
    positivity
  refine meets_ite (fun _ => meets_throw_bind trivial _) fun hlimit => ?_
  have hE : (max x.exponent 0).toNat ≤ 11 := by
    simp only [expLimit] at hlimit
    omega
  set E := (max x.exponent 0).toNat with hEdef
  have hwd := exp_widen_digits hp hE
  set w := p.widen (guardDigits + 2 * E + 4) with hwdef
  have hw15 : 15 ≤ w.digits := by rw [hwd]; have := p.digits_pos; omega
  have hw' : w.digits ≤ 100000 := by rw [hwd]; omega
  have hw20 : w.digits < 2 ^ 20 := by omega
  have hX : |(x.value : ℝ)| < 10 ^ ((E : ℤ) + 1) := abs_lt_exponent_succ hx h0
  have hX12 : |(x.value : ℝ)| < 10 ^ 12 := abs_lt_ten_pow_twelve hx h0 (not_lt.mp hlimit)
  refine meets_bind (halving_spec hx h0 hw15 hw20 hX12) fun res hres => ?_
  obtain ⟨r, k⟩ := res
  obtain ⟨hh, hle⟩ := hres
  have hR0 : (0 : ℚ) < r.value := by exact_mod_cast hh.near.1
  refine meets_bind (taylor_spec hw15 hw' hh.tame hR0 hle) fun sum hsum => ?_
  obtain ⟨hst, hsn⟩ := hsum
  refine meets_bind (squaring_spec hw20 hst hsn k) fun S hS => ?_
  obtain ⟨hSt, hSn⟩ := hS
  set X := |(x.value : ℝ)|
  set ε := roundingError w
  have hX0 : 0 < X := abs_pos.mpr (by exact_mod_cast value_eq_zero_iff.not.mpr h0)
  have hkε : (k : ℝ) * ε ≤ 1 / 2 := by
    have hk : (k : ℝ) ≤ 64 := by exact_mod_cast hh.count_le
    have h14 : ε ≤ 10 ^ (-14 : ℤ) := roundingError_le hw15
    have h128 : (10 : ℝ) ^ (-14 : ℤ) ≤ 1 / 128 := by norm_num
    have hε : 0 ≤ ε := (roundingError_pos w).le
    calc (k : ℝ) * ε ≤ 64 * (1 / 128) := by gcongr; exact h14.trans h128
      _ = 1 / 2 := by norm_num
  have hk2 : (2 : ℝ) ^ k ≤ 12 * X + 1 := by
    rcases Nat.eq_zero_or_pos k with rfl | hk0
    · simp only [pow_zero]
      linarith
    · have h1 := hh.count hk0
      have h3 := exp_le_three (t := k * ε) (by linarith)
      nlinarith
  have hbudget := exp_budget hwd hw' hX0 hX hk2 hh.count_le
  have hdiff := abs_pow_mul_sub_le hh.near hkε
  set t := 2 ^ k * (taylorError w + ε) + 2 * (k * ε) * X
  -- the last rounding, from a working value within `t` of `e ^ x`
  have hfinal : ∀ S' : Decimal, S'.Tame → Near S'.value (Real.exp x.value) t →
      (finish S' p).Meets (fun v => v.Tame ∧ |(v.value : ℝ) - Real.exp x.value| <
        10 ^ (Int.log 10 (Real.exp x.value) + 1 - p.digits)) (fun _ => True) := by
    intro S' hS' hnear
    have hp20 : p.digits < 2 ^ 20 := by omega
    refine (finish_spec hS' hp20).mono (fun v hv => ?_) fun _ _ => trivial
    have hpow : (10 : ℝ) ^ (-(p.digits : ℤ) - 3) = 10 ^ (-(p.digits : ℤ)) / 1000 := by
      rw [zpow_sub₀ (by norm_num)]
      norm_num
    have ht2 : 2 * t ≤ 10 ^ (-(p.digits : ℤ)) / 4 := by
      have : (0 : ℝ) < 10 ^ (-(p.digits : ℤ)) := by positivity
      rw [hpow] at hbudget
      linarith
    have hthalf : t ≤ 1 / 2 := by
      have : (10 : ℝ) ^ (-(p.digits : ℤ)) ≤ 1 := zpow_le_one_of_nonpos₀ (by norm_num) (by omega)
      linarith
    refine ⟨hv.1, ?_⟩
    rw [hv.2]
    exact abs_roundSig_sub_lt_of_pos p.digits_pos (Real.exp_pos _) ht2
      (by simpa [mul_assoc] using hnear.abs_sub_le hthalf)
  have hSε : 2 ^ k * (taylorError w + ε) - ε ≤ 2 ^ k * (taylorError w + ε) := by
    linarith [roundingError_pos w]
  refine meets_ite
    (fun hneg => meets_bind (Q := fun S' => S'.Tame ∧ Near S'.value (Real.exp x.value) t) ?_
      fun S' hS' => hfinal S' hS'.1 hS'.2)
    fun hneg => meets_bind (Q := fun S' => S'.Tame ∧ Near S'.value (Real.exp x.value) t)
      (meets_pure ?_) fun S' hS' => hfinal S' hS'.1 hS'.2
  · -- a negative argument: the inverse, one rounding more
    have hXx : (x.value : ℝ) = -|(x.value : ℝ)| := by
      rw [abs_of_neg (by exact_mod_cast isNeg_iff.mp hneg), InvolutiveNeg.neg_neg]
    have hS0 : (0 : ℚ) < S.value := by exact_mod_cast hSn.1
    refine (div_spec tame_one hSt (value_eq_zero_iff.not.mp hS0.ne') hw20).mono
      (fun S' hS' => ⟨hS'.1, ?_⟩) fun _ _ => trivial
    have hv := hS'.2
    rw [value_one] at hv
    have hinv : Near ((1 / S.value : ℚ) : ℝ) (Real.exp (-(2 ^ k * r.value)))
        (2 ^ k * (taylorError w + ε) - ε) := by
      rw [Real.exp_neg, Rat.cast_div, Rat.cast_one, one_div]
      exact hSn.inv
    have hexp : Near (Real.exp (-(2 ^ k * r.value))) (Real.exp x.value) (2 * (k * ε) * X) :=
      (near_exp _ _).mono (by rw [hXx, neg_sub_neg, abs_sub_comm]; exact hdiff)
    exact (((near_of_rounds (one_div_pos.mpr hS0) hv).trans hinv).trans hexp).mono
      (le_of_eq (by ring))
  · have hXx : (x.value : ℝ) = |(x.value : ℝ)| := by
      rw [abs_of_nonneg]
      exact_mod_cast not_lt.mp (isNeg_iff.not.mp hneg)
    refine ⟨hSt, ?_⟩
    have hexp : Near (Real.exp (2 ^ k * r.value)) (Real.exp x.value) (2 * (k * ε) * X) :=
      (near_exp _ _).mono (by rw [hXx]; exact hdiff)
    exact (hSn.trans hexp).mono (by linarith)

end Calculator.Elementary
