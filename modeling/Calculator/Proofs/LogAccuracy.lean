import Calculator.Proofs.LogSeriesAccuracy
/-!
Accuracy of the logarithms. Near one the series gives `ln x` directly. Elsewhere `x` is
reduced to `x̃ = x / 10 ^ k` in `[1, 10)` and halved `j ≤ 3` times to `m` in `[7/10, 3/2]`,
and `ln x = ln m + j ln 2 + k ln 10` is summed back at a precision widened by the digits of `k`.
The terms of that sum may have either sign, so their errors are added as absolute errors, and
`|ln x| ≥ (1 + |k|) / 6` turns the total back into a relative one.
-/

namespace Calculator.Elementary

open Decimal Except

/-! Absolute errors -/

theorem abs_sub_of_rounds {z : Decimal} {q : ℚ} {w : Precision}
    (h : z.value = roundSig q w.digits) :
    |(z.value : ℝ) - q| ≤ roundingError w * |(q : ℝ)| := by
  have h1 := (Rat.cast_le (K := ℝ)).mpr (abs_roundSig_sub_le q w.digits)
  rw [← h] at h1
  push_cast at h1
  exact h1.trans (mul_le_mul_of_nonneg_right (half_le_self (by positivity)) (abs_nonneg _))

theorem abs_sub_le_of_near {a b t : ℝ} (h : Near |a| |b| t) (hs : 0 < a * b) (ht : t ≤ 1 / 2) :
    |a - b| ≤ 2 * t * |b| := by
  have h2 := h.abs_sub_le ht
  rcases pos_and_pos_or_neg_and_neg_of_mul_pos hs with ⟨ha, hb⟩ | ⟨ha, hb⟩
  · rw [abs_of_pos ha, abs_of_pos hb] at h2
    rwa [abs_of_pos hb]
  · rw [abs_of_neg ha, abs_of_neg hb] at h2
    rw [abs_of_neg hb, show a - b = -(-a - -b) by ring, abs_neg]
    exact h2

theorem not_beyond_of_within {q : ℚ} (hlo : (10 : ℝ) ^ (-20 : ℤ) ≤ |(q : ℝ)|)
    (hhi : |(q : ℝ)| ≤ 10 ^ (20 : ℤ)) : ¬Beyond q :=
  not_beyond_of_bounds (L := 20) (by unfold exponentLimit; norm_num) (by exact_mod_cast hlo)
    (by exact_mod_cast hhi)

theorem rounded_error_le {ε τ c S e M : ℝ} (hε : 0 ≤ ε) (hετ : 2 * ε ≤ τ) (hc : c * τ ≤ 1)
    (hS : S ≤ M) (he : e ≤ c * τ * M) (hM : 0 ≤ M) :
    ε * (S + e) + e ≤ (c + 1) * τ * M := by
  have h1 : S + e ≤ 2 * M := by
    have := mul_le_of_le_one_left hM hc
    linarith
  have h2 : ε * (2 * M) ≤ τ * M := by nlinarith
  calc ε * (S + e) + e ≤ ε * (2 * M) + c * τ * M := add_le_add (mul_le_mul_of_nonneg_left h1 hε) he
    _ ≤ (c + 1) * τ * M := by linarith

section Sums

variable {w : Precision} (hw : w.digits < 2 ^ 20)
include hw

theorem add_close {a b : Decimal} (ha : a.Tame) (hb : b.Tame) {A B ea eb : ℝ}
    (hea : |(a.value : ℝ) - A| ≤ ea) (heb : |(b.value : ℝ) - B| ≤ eb)
    (hlo : 10 ^ (-20 : ℤ) + ea + eb ≤ |A + B|) (hhi : |A + B| + ea + eb ≤ 10 ^ (20 : ℤ)) :
    (a.add b w).Meets (fun v => v.Tame ∧
      |(v.value : ℝ) - (A + B)| ≤ roundingError w * (|A + B| + ea + eb) + (ea + eb))
      (fun _ => False) := by
  have hsum : |((a.value + b.value : ℚ) : ℝ) - (A + B)| ≤ ea + eb := by
    rw [Rat.cast_add, show (a.value : ℝ) + b.value - (A + B) = (a.value - A) + (b.value - B) by
      ring]
    exact (abs_add_le _ _).trans (add_le_add hea heb)
  have hsize := abs_sub_abs_le_abs_sub ((a.value + b.value : ℚ) : ℝ) (A + B)
  have hsize' := abs_sub_abs_le_abs_sub (A + B) ((a.value + b.value : ℚ) : ℝ)
  rw [abs_sub_comm] at hsize'
  have hnb : ¬Beyond (a.value + b.value) := not_beyond_of_within (by linarith) (by linarith)
  refine (add_spec ha hb hw).mono (fun v hv => ⟨hv.1, ?_⟩) fun e he => hnb he.2
  have hr := abs_sub_of_rounds hv.2
  have hε := (roundingError_pos w).le
  calc |(v.value : ℝ) - (A + B)|
      = |((v.value : ℝ) - ((a.value + b.value : ℚ) : ℝ)) + (((a.value + b.value : ℚ) : ℝ) - (A + B))| := by
        ring_nf
    _ ≤ roundingError w * |((a.value + b.value : ℚ) : ℝ)| + (ea + eb) :=
        (abs_add_le _ _).trans (add_le_add hr hsum)
    _ ≤ roundingError w * (|A + B| + ea + eb) + (ea + eb) := by gcongr; linarith

theorem mul_int_close {a : Decimal} (ha : a.Tame) {n : ℤ} (hn : n.natAbs < pow10 30) {A ea : ℝ}
    (hea : |(a.value : ℝ) - A| ≤ ea) (hlo : 10 ^ (-20 : ℤ) ≤ |(n : ℝ)| * (|A| - ea))
    (hhi : |(n : ℝ)| * (|A| + ea) ≤ 10 ^ (20 : ℤ)) :
    (a.mul (ofInt n) w).Meets (fun v => v.Tame ∧
      |(v.value : ℝ) - n * A| ≤ |(n : ℝ)| * (roundingError w * (|A| + ea) + ea))
      (fun _ => False) := by
  have hq : ((a.value * (ofInt n).value : ℚ) : ℝ) = n * a.value := by
    rw [value_ofInt]
    push_cast
    ring
  have hsize : |(n : ℝ) * a.value| = |(n : ℝ)| * |(a.value : ℝ)| := abs_mul _ _
  have h1 := abs_sub_abs_le_abs_sub (a.value : ℝ) A
  have h2 := abs_sub_abs_le_abs_sub A (a.value : ℝ)
  rw [abs_sub_comm] at h2
  have hn0 := abs_nonneg (n : ℝ)
  have hup : |(a.value : ℝ)| ≤ |A| + ea := by linarith
  have hdown : |A| - ea ≤ |(a.value : ℝ)| := by linarith
  have hnb : ¬Beyond (a.value * (ofInt n).value) := by
    refine not_beyond_of_within ?_ ?_ <;> rw [hq, hsize]
    · exact hlo.trans (mul_le_mul_of_nonneg_left hdown hn0)
    · exact (mul_le_mul_of_nonneg_left hup hn0).trans hhi
  refine (mul_spec ha (tame_ofInt hn) hw).mono (fun v hv => ⟨hv.1, ?_⟩) fun e he => hnb he.2
  have hr := abs_sub_of_rounds hv.2
  rw [hq, hsize] at hr
  have hε := (roundingError_pos w).le
  calc |(v.value : ℝ) - n * A| = |((v.value : ℝ) - n * a.value) + n * (a.value - A)| := by ring_nf
    _ ≤ roundingError w * (|(n : ℝ)| * |(a.value : ℝ)|) + |(n : ℝ)| * ea := by
        refine (abs_add_le _ _).trans (add_le_add hr ?_)
        rw [abs_mul]
        exact mul_le_mul_of_nonneg_left hea hn0
    _ ≤ roundingError w * (|(n : ℝ)| * (|A| + ea)) + |(n : ℝ)| * ea := by gcongr
    _ = |(n : ℝ)| * (roundingError w * (|A| + ea) + ea) := by ring

theorem add_close_rel {a b : Decimal} (ha : a.Tame) (hb : b.Tame) {A B α β c τ : ℝ}
    (hea : |(a.value : ℝ) - A| ≤ c * τ * α) (heb : |(b.value : ℝ) - B| ≤ c * τ * β)
    (hα : 0 ≤ α) (hβ : 0 ≤ β) (hAB : |A + B| ≤ α + β) (hετ : 2 * roundingError w ≤ τ)
    (hc : c * τ ≤ 1) (hlo : 10 ^ (-20 : ℤ) + c * τ * (α + β) ≤ |A + B|)
    (hhi : 2 * (α + β) ≤ 10 ^ (20 : ℤ)) :
    (a.add b w).Meets (fun v => v.Tame ∧
      |(v.value : ℝ) - (A + B)| ≤ (c + 1) * τ * (α + β)) (fun _ => False) := by
  have hM : 0 ≤ α + β := add_nonneg hα hβ
  have he : c * τ * α + c * τ * β = c * τ * (α + β) := by ring
  have hcM := mul_le_of_le_one_left hM hc
  refine (add_close hw ha hb hea heb (by linarith) (by linarith)).mono
    (fun v hv => ⟨hv.1, ?_⟩) fun _ h => h
  have := rounded_error_le (roundingError_pos w).le hετ hc hAB he.le hM
  linarith [hv.2]

theorem mul_int_close_rel {a : Decimal} (ha : a.Tame) {n : ℤ} (hn : n.natAbs < pow10 30)
    {A c τ : ℝ} (hea : |(a.value : ℝ) - A| ≤ c * τ * |A|) (hετ : 2 * roundingError w ≤ τ)
    (hc : c * τ ≤ 1 / 2) (hlo : 2 * 10 ^ (-20 : ℤ) ≤ |(n : ℝ)| * |A|)
    (hhi : 2 * (|(n : ℝ)| * |A|) ≤ 10 ^ (20 : ℤ)) :
    (a.mul (ofInt n) w).Meets (fun v => v.Tame ∧
      |(v.value : ℝ) - n * A| ≤ (c + 1) * τ * (|(n : ℝ)| * |A|)) (fun _ => False) := by
  have hA := abs_nonneg A
  have hN := abs_nonneg (n : ℝ)
  have hhalf : c * τ * |A| ≤ |A| / 2 := by nlinarith
  have hdown := mul_le_mul_of_nonneg_left (show |A| / 2 ≤ |A| - c * τ * |A| by linarith) hN
  have hup := mul_le_mul_of_nonneg_left (show |A| + c * τ * |A| ≤ 2 * |A| by linarith) hN
  refine (mul_int_close hw ha hn hea (by linarith) (by linarith)).mono
    (fun v hv => ⟨hv.1, ?_⟩) fun _ h => h
  have h := rounded_error_le (c := c) (roundingError_pos w).le hετ (by linarith) le_rfl le_rfl hA
  calc _ ≤ |(n : ℝ)| * (roundingError w * (|A| + c * τ * |A|) + c * τ * |A|) := hv.2
    _ ≤ |(n : ℝ)| * ((c + 1) * τ * |A|) := mul_le_mul_of_nonneg_left h hN
    _ = (c + 1) * τ * (|(n : ℝ)| * |A|) := by ring

end Sums

/-! `ln 2` and `ln 10` -/

theorem Except.Meets.exists_ok {α : Type} {x : Except Fault α} {P : α → Prop}
    (h : x.Meets P (fun _ => False)) : ∃ a, x = .ok a ∧ P a := by
  cases x with
  | error e => exact h.elim
  | ok a => exact ⟨a, rfl, h⟩

theorem value_three : (3 : Decimal).value = 3 := by
  show (ofInt 3).value = 3
  rw [value_ofInt]
  rfl

theorem tame_three : (3 : Decimal).Tame := tame_ofInt (by decide)

theorem tame_threeHalves : threeHalves.Tame := tame_of_small (by decide) (by decide)

theorem value_fiveQuarters : (⟨125, 2⟩ : Decimal).value = 5 / 4 := by
  simp only [value]
  norm_num

theorem tame_fiveQuarters : (⟨125, 2⟩ : Decimal).Tame := tame_of_small (by decide) (by decide)

theorem lnSeriesError_le {w : Precision} (hw : w.digits ≤ 100000) :
    lnSeriesError w ≤ 9 * 10 ^ (7 - (w.digits : ℤ)) / 2 := by
  have hε := (roundingError_pos w).le
  have hF : (seriesFuel w : ℝ) + 1 ≤ 500000 := by
    have : seriesFuel w + 1 ≤ 500000 := by unfold seriesFuel; omega
    exact_mod_cast this
  have hunit : (500000 : ℝ) * roundingError w = 10 ^ (7 - (w.digits : ℤ)) / 2 := by
    rw [roundingError_def]
    rw [show (7 : ℤ) - w.digits = 6 + (1 - w.digits) by ring, zpow_add₀ (by norm_num)]
    norm_num
    ring
  unfold lnSeriesError lnSumError
  nlinarith

theorem lnSeriesError_nonneg (w : Precision) : 0 ≤ lnSeriesError w := by
  have := (roundingError_pos w).le
  unfold lnSeriesError lnSumError
  positivity

theorem not_beyond_of_near {q : ℚ} {y t : ℝ} (h : Near |(q : ℝ)| y t) (ht : t ≤ 1)
    (hlo : 3 * 10 ^ (-20 : ℤ) ≤ y) (hhi : 3 * y ≤ 10 ^ (20 : ℤ)) : ¬Beyond q := by
  obtain ⟨h1, h2⟩ := h.le_three_mul ht
  refine not_beyond_of_within ?_ (h1.trans hhi)
  calc (10 : ℝ) ^ (-20 : ℤ) ≤ y / 3 := by rw [le_div_iff₀ (by norm_num), mul_comm]; exact hlo
    _ ≤ |(q : ℝ)| := by linarith

section Constants

variable {w : Precision} (hw : 11 ≤ w.digits) (hw' : w.digits ≤ 100000)
include hw hw'

theorem lnSeriesError_le_hundredth : lnSeriesError w ≤ 1 / 100 := by
  have h := lnSeriesError_le hw'
  have h2 : (10 : ℝ) ^ (7 - (w.digits : ℤ)) ≤ 10 ^ (-4 : ℤ) :=
    zpow_le_zpow_right₀ (by norm_num) (by omega)
  rw [show (10 : ℝ) ^ (-4 : ℤ) = 1 / 10000 by norm_num] at h2
  linarith

theorem lnTwo_spec :
    (lnTwo w).Meets (fun v => v.Tame ∧ Near v.value (Real.log 2) (lnSeriesError w))
      (fun _ => False) := by
  refine (lnSeries_spec tame_two (by rw [value_two]; norm_num) (by rw [value_two]) hw hw').mono
    (fun v hv => ?_) fun _ h => h
  obtain ⟨hv, -, hne⟩ := hv
  obtain ⟨hs, hn⟩ := hne (by rw [value_two]; norm_num)
  rw [value_two] at hs hn
  have hv0 : (0 : ℝ) < v.value := by exact_mod_cast (by linarith : (0 : ℚ) < v.value)
  rw [abs_of_pos hv0, Rat.cast_ofNat, abs_of_pos (Real.log_pos (by norm_num))] at hn
  exact ⟨hv, hn⟩

omit hw hw' in
theorem three_mul_log_two_add : 3 * Real.log 2 + Real.log (5 / 4) = Real.log 10 := by
  rw [show (3 : ℝ) * Real.log 2 = Real.log (2 ^ 3) by rw [Real.log_pow]; norm_num,
    ← Real.log_mul (by norm_num) (by norm_num)]
  norm_num

/-- `ln 10 = 3 ln 2 + ln (5/4)` at a working precision is within the series error and two
roundings of it. -/
theorem lnTen_spec :
    (lnTen w).Meets
      (fun v => v.Tame ∧ Near v.value (Real.log 10) (lnSeriesError w + 2 * roundingError w))
      (fun _ => False) := by
  have hw20 : w.digits < 2 ^ 20 := by omega
  have hε := (roundingError_pos w).le
  have hε1 : roundingError w ≤ 1 / 100 := (roundingError_le_of_eleven hw).trans (by norm_num)
  have hτ := lnSeriesError_le_hundredth hw hw'
  have hl2 : (0.69 : ℝ) < Real.log 2 := lt_trans (by norm_num) Real.log_two_gt_d9
  have hl2' : Real.log 2 < 0.7 := lt_trans Real.log_two_lt_d9 (by norm_num)
  have hl54 : 0 < Real.log (5 / 4) := Real.log_pos (by norm_num)
  have hl54' : Real.log (5 / 4) ≤ 1 / 4 := by
    have := Real.log_le_sub_one_of_pos (x := 5 / 4) (by norm_num)
    linarith
  unfold lnTen
  refine meets_bind (lnTwo_spec hw hw') fun t ht => ?_
  obtain ⟨ht, htn⟩ := ht
  have ht0 : (0 : ℚ) < t.value := by exact_mod_cast htn.1
  have h3 : Near ((t.value * (3 : Decimal).value : ℚ) : ℝ) (3 * Real.log 2) (lnSeriesError w) := by
    rw [value_three, Rat.cast_mul, Rat.cast_ofNat, mul_comm]
    exact htn.mul_left three_pos
  have hnb3 : ¬Beyond (t.value * (3 : Decimal).value) := by
    refine not_beyond_of_near (by rwa [abs_of_pos h3.1]) (by linarith) ?_ ?_ <;> norm_num <;>
      linarith
  refine meets_bind ((mul_spec ht tame_three hw20).mono (fun a h => h) fun e he => hnb3 he.2)
    fun a ha => ?_
  obtain ⟨ha, hav⟩ := ha
  have ha3 := (near_of_rounds (by rw [value_three]; positivity) hav).trans h3
  refine meets_bind (lnSeries_spec tame_fiveQuarters (by rw [value_fiveQuarters]; norm_num)
    (by rw [value_fiveQuarters]; norm_num) hw hw') fun b hb => ?_
  obtain ⟨hb, -, hbne⟩ := hb
  obtain ⟨hbs, hbn⟩ := hbne (by rw [value_fiveQuarters]; norm_num)
  rw [value_fiveQuarters] at hbs hbn
  have hb0 : (0 : ℝ) < b.value := by exact_mod_cast (by nlinarith : (0 : ℚ) < b.value)
  rw [abs_of_pos hb0, Rat.cast_div, Rat.cast_ofNat, Rat.cast_ofNat, abs_of_pos hl54] at hbn
  have hsum : Near ((a.value + b.value : ℚ) : ℝ) (Real.log 10)
      (lnSeriesError w + roundingError w) := by
    rw [Rat.cast_add, ← three_mul_log_two_add]
    exact (ha3.mono (by linarith)).add (hbn.mono (by linarith))
  have hnb : ¬Beyond (a.value + b.value) := by
    have hl10 : Real.log 10 < 3 := by rw [← three_mul_log_two_add]; linarith
    have hl10' : 2 < Real.log 10 := by rw [← three_mul_log_two_add]; linarith
    refine not_beyond_of_near (by rwa [abs_of_pos hsum.1]) (by linarith) ?_ ?_ <;> norm_num <;>
      linarith
  refine (add_spec ha hb hw20).mono (fun v hv => ⟨hv.1, ?_⟩) fun e he => hnb he.2
  exact ((near_of_rounds (by exact_mod_cast hsum.1) hv.2).trans hsum).mono (by linarith)

end Constants

theorem two_lt_log_ten : 2 < Real.log 10 := by
  rw [← three_mul_log_two_add]
  linarith [Real.log_two_gt_d9, Real.log_pos (by norm_num : (1 : ℝ) < 5 / 4)]

theorem log_ten_lt_three : Real.log 10 < 3 := by
  have h := Real.log_le_sub_one_of_pos (x := 5 / 4) (by norm_num)
  rw [← three_mul_log_two_add]
  linarith [Real.log_two_lt_d9]

/-! Halving the reduced argument -/

structure LnHalved (X : ℝ) (w : Precision) (r : Decimal) (c : ℕ) : Prop where
  tame : r.Tame
  count_le : c ≤ 3
  near : Near r.value (X / 2 ^ c) (c * roundingError w)
  low : (7 / 10 : ℝ) ≤ r.value

theorem cast_lt_threeHalves {r : Decimal} (hr : r.Tame) :
    threeHalves < r ↔ (3 / 2 : ℝ) < r.value := by
  rw [lt_iff_of_tame tame_threeHalves hr, value_threeHalves, ← Rat.cast_lt (K := ℝ),
    Rat.cast_div, Rat.cast_ofNat, Rat.cast_ofNat]

/-- A halving above `3/2` keeps the state; the fourth is never reached, since `x̃ / 8 < 5/4`. -/
theorem lnHalved_step {X : ℝ} (hX : X < 10) {w : Precision} (hw : 11 ≤ w.digits)
    (hw' : w.digits < 2 ^ 20) {r : Decimal} {c : ℕ} (hr : LnHalved X w r c)
    (hgt : threeHalves < r) :
    (r.div 2 w).Meets (fun r' => LnHalved X w r' (c + 1)) (fun _ => False) := by
  have hε := (roundingError_pos w).le
  have hε1 : roundingError w ≤ 1 / 100 := (roundingError_le_of_eleven hw).trans (by norm_num)
  have hr32 := (cast_lt_threeHalves hr.tame).mp hgt
  have hc3 : (c : ℝ) ≤ 3 := by exact_mod_cast hr.count_le
  have hXc : 0 < X / 2 ^ c := hr.near.2.1
  -- `r` lies within `2cε` of `X / 2 ^ c`
  have hup : (r.value : ℝ) ≤ X / 2 ^ c * (1 + 6 * roundingError w) := by
    have h := (abs_le.mp (hr.near.abs_sub_le (by nlinarith))).2
    calc (r.value : ℝ) ≤ X / 2 ^ c + 2 * (c * roundingError w) * (X / 2 ^ c) := by linarith
      _ ≤ X / 2 ^ c + 2 * (3 * roundingError w) * (X / 2 ^ c) := by gcongr
      _ = X / 2 ^ c * (1 + 6 * roundingError w) := by ring
  have hX0 : 0 < X := (div_pos_iff_of_pos_right (by positivity)).mp hXc
  have hc : c < 3 := by
    by_contra hc
    obtain rfl : c = 3 := by have := hr.count_le; omega
    have : X / 2 ^ 3 * (1 + 6 * roundingError w) ≤ 10 / 2 ^ 3 * (1 + 6 * (1 / 100)) := by
      gcongr
    norm_num at this
    linarith
  have hr11 : (r.value : ℝ) ≤ 11 := by
    have h2c : X / 2 ^ c ≤ X := div_le_self hX0.le (one_le_pow₀ (by norm_num))
    have : X / 2 ^ c * (1 + 6 * roundingError w) ≤ 10 * (1 + 6 * (1 / 100)) := by
      gcongr
      linarith
    linarith
  have hq : ((r.value / (2 : Decimal).value : ℚ) : ℝ) = r.value / 2 := by
    rw [value_two, Rat.cast_div, Rat.cast_ofNat]
  have hnb : ¬Beyond (r.value / (2 : Decimal).value) := by
    refine not_beyond_of_within ?_ ?_ <;> rw [hq, abs_of_pos (by linarith)]
    · exact (show (10 : ℝ) ^ (-20 : ℤ) ≤ 3 / 4 by norm_num).trans (by linarith)
    · exact (show (r.value : ℝ) / 2 ≤ 6 by linarith).trans (by norm_num)
  refine (div_spec hr.tame tame_two (by decide) hw').mono (fun r' hr' => ?_) fun e he => hnb he.2
  obtain ⟨ht', hv⟩ := hr'
  have hq0 : (0 : ℚ) < r.value / (2 : Decimal).value := by
    have : (0 : ℝ) < ((r.value / (2 : Decimal).value : ℚ) : ℝ) := by rw [hq]; linarith
    exact_mod_cast this
  have hhalf : Near ((r.value / (2 : Decimal).value : ℚ) : ℝ) (X / 2 ^ (c + 1))
      (c * roundingError w) := by
    have h := hr.near.div (Near.refl two_pos)
    rw [add_zero, div_div, ← pow_succ] at h
    rwa [hq]
  refine ⟨ht', by omega, ((near_of_rounds hq0 hv).trans hhalf).mono (by push_cast; linarith), ?_⟩
  -- the rounded half is at least `3/4` less one rounding
  have h := abs_sub_of_rounds hv
  rw [hq, abs_of_pos (by linarith : (0 : ℝ) < r.value / 2)] at h
  calc (7 / 10 : ℝ) ≤ 3 / 4 * (1 - 1 / 100) := by norm_num
    _ ≤ r.value / 2 * (1 - roundingError w) :=
        mul_le_mul (by linarith) (by linarith) (by norm_num) (by linarith)
    _ ≤ r'.value := by linarith [(abs_le.mp h).1]

theorem lnHalved_start {x : Decimal} (hx : x.Tame) (h1 : (1 : ℝ) ≤ x.value) {w : Precision} :
    LnHalved x.value w x 0 :=
  ⟨hx, by omega, by simpa using Near.refl (lt_of_lt_of_le one_pos h1), by linarith⟩

theorem ln_halving_spec {x : Decimal} (hx : x.Tame) (h1 : (1 : ℝ) ≤ x.value)
    (h10 : (x.value : ℝ) < 10) {w : Precision} (hw : 11 ≤ w.digits) (hw' : w.digits < 2 ^ 20) :
    (halveWhileAbove threeHalves w halvingFuel x 0).Meets
      (fun res => LnHalved x.value w res.1 res.2 ∧ (res.1.value : ℝ) ≤ 3 / 2)
      (fun _ => False) := by
  exact halveWhileAbove_meets_inv (LnHalved x.value w) _ halvingFuel
    (fun r c _ hr hgt => lnHalved_step h10 hw hw' hr hgt)
    (fun r c hr hle => ⟨hr, not_lt.mp ((cast_lt_threeHalves hr.tame).not.mp hle)⟩)
    (fun r hr => absurd hr.count_le (by unfold halvingFuel; omega)) halvingFuel (by omega)
    (lnHalved_start hx h1)

/-! The size of the logarithm -/

/-- Outside `(1/2, 3/2)` the logarithm of a value of exponent `k` is at least `(1 + |k|) / 6` in
size. -/
theorem abs_log_ge {X : ℝ} {k : ℤ} (hlo : (10 : ℝ) ^ k ≤ X) (hhi : X < 10 ^ (k + 1))
    (hout : X ≤ 1 / 2 ∨ 3 / 2 ≤ X) : (1 + |(k : ℝ)|) / 6 ≤ |Real.log X| := by
  have hX : 0 < X := lt_of_lt_of_le (by positivity) hlo
  have hl10 := two_lt_log_ten
  have hge : k * Real.log 10 ≤ Real.log X := by
    rw [← Real.log_zpow]
    exact Real.log_le_log (by positivity) hlo
  have hlt : Real.log X < ((k + 1 : ℤ) : ℝ) * Real.log 10 := by
    rw [← Real.log_zpow]
    exact Real.log_lt_log hX hhi
  push_cast at hlt
  rcases lt_trichotomy k 0 with hk | rfl | hk
  · rcases (show k = -1 ∨ k ≤ -2 by omega) with rfl | hk2
    · -- `X < 1`, so `X ≤ 1/2` and `ln X ≤ -1/2`
      have hX1 : X < 1 := by simpa using hhi
      have hhalf : X ≤ 1 / 2 := hout.resolve_right (by linarith)
      have := Real.log_le_sub_one_of_pos hX
      rw [abs_of_neg (by linarith : Real.log X < 0)]
      push_cast
      rw [abs_neg, abs_one]
      linarith
    · have hk2' : (k : ℝ) ≤ -2 := by exact_mod_cast hk2
      have hprod := mul_lt_mul_of_neg_left hl10 (by linarith : (k : ℝ) + 1 < 0)
      rw [abs_of_neg (by linarith : Real.log X < 0), abs_of_neg (by linarith : (k : ℝ) < 0)]
      linarith
  · -- `1 ≤ X`, so `3/2 ≤ X` and `ln X ≥ 1/3`
    have hX1 : 1 ≤ X := by simpa using hlo
    have h32 : 3 / 2 ≤ X := hout.resolve_left (by linarith)
    have := Real.one_sub_inv_le_log_of_pos hX
    have hinv : X⁻¹ ≤ 2 / 3 := by
      rw [inv_le_comm₀ hX (by norm_num)]
      linarith
    rw [abs_of_pos (by linarith : 0 < Real.log X)]
    push_cast
    rw [abs_zero]
    linarith
  · have hk1 : (1 : ℝ) ≤ k := by exact_mod_cast hk
    rw [abs_of_pos (by nlinarith : 0 < Real.log X), abs_of_pos (by linarith : (0 : ℝ) < k)]
    nlinarith

/-! Summing the reduction back -/

theorem roundingError_le_lnSeriesError (w : Precision) :
    100 * roundingError w ≤ lnSeriesError w := by
  have hε := (roundingError_pos w).le
  have hF : (100 : ℝ) ≤ seriesFuel w := by
    have : 100 ≤ seriesFuel w := by unfold seriesFuel; omega
    exact_mod_cast this
  unfold lnSeriesError lnSumError
  nlinarith

theorem mul_log_pos {v r : ℝ} (hr : 0 < r) (h : 0 < v * (r - 1)) : 0 < v * Real.log r := by
  rcases pos_and_pos_or_neg_and_neg_of_mul_pos h with ⟨hv, hr1⟩ | ⟨hv, hr1⟩
  · exact mul_pos hv (Real.log_pos (by linarith))
  · exact mul_pos_of_neg_of_neg hv (Real.log_neg hr (by linarith))

theorem abs_log_le_half {m : ℝ} (h0 : 7 / 10 ≤ m) (h2 : m ≤ 3 / 2) : |Real.log m| ≤ 1 / 2 := by
  have hm : 0 < m := by linarith
  have hup := Real.log_le_sub_one_of_pos hm
  have hlo := Real.one_sub_inv_le_log_of_pos hm
  have hinv : m⁻¹ ≤ 10 / 7 := by
    rw [inv_le_comm₀ hm (by norm_num)]
    linarith
  rw [abs_le]
  constructor <;> linarith

section Reduction

variable {w : Precision} (hw : 11 ≤ w.digits) (hw' : w.digits ≤ 100000)
include hw hw'

theorem lnSeries_close {r : Decimal} (hr : r.Tame) (h0 : 1 / 2 ≤ r.value) (h2 : r.value ≤ 2) :
    (lnSeries r w).Meets (fun v => v.Tame ∧
      |(v.value : ℝ) - Real.log r.value| ≤ 2 * lnSeriesError w * |Real.log r.value|)
      (fun _ => False) := by
  refine (lnSeries_spec hr h0 h2 hw hw').mono (fun v hv => ⟨hv.1, ?_⟩) fun _ h => h
  obtain ⟨-, hone, hne⟩ := hv
  by_cases h1 : r.value = 1
  · rw [hone h1, h1]
    simp
  obtain ⟨hs, hn⟩ := hne h1
  have hr0 : (0 : ℝ) < r.value := by exact_mod_cast (by linarith : (0 : ℚ) < r.value)
  exact abs_sub_le_of_near hn (mul_log_pos hr0 (by exact_mod_cast hs))
    ((lnSeriesError_le_hundredth hw hw').trans (by norm_num))

/-- Adding `j ln 2`, for the `j ≤ 3` halvings, to a value within two series errors of `L`,
relatively, gives a value within four of `L + j ln 2`, relative to `|L| + j ln 2`. -/
theorem ln_addTwos {j : ℕ} (hj : j ≤ 3) {res : Decimal} (hres : res.Tame) {L : ℝ}
    (hL : |L| ≤ 1 / 2) (hclose : |(res.value : ℝ) - L| ≤ 2 * lnSeriesError w * |L|)
    (hlow : j ≠ 0 → 1 / 4 ≤ L + j * Real.log 2) {Q : Decimal → Prop}
    {f : Decimal → Except Fault Decimal}
    (hf : ∀ r : Decimal, r.Tame → |(r.value : ℝ) - (L + j * Real.log 2)| ≤
      4 * lnSeriesError w * (|L| + j * Real.log 2) → (f r).Meets Q (fun _ => False)) :
    (if j ≠ 0 then do
        let L2 ← lnTwo w
        let J ← L2.mul (ofInt j) w
        let r ← res.add J w
        f r
      else do
        let r ← pure res
        f r).Meets Q (fun _ => False) := by
  have hτ := lnSeriesError_le_hundredth hw hw'
  have hετ := roundingError_le_lnSeriesError w
  have hε := (roundingError_pos w).le
  have hl2 : (1 / 2 : ℝ) < Real.log 2 := lt_trans (by norm_num) Real.log_two_gt_d9
  have hl2' : Real.log 2 < 1 := lt_trans Real.log_two_lt_d9 (by norm_num)
  have hl2abs : |Real.log 2| = Real.log 2 := abs_of_pos (by linarith)
  have hj3 : (j : ℝ) ≤ 3 := by exact_mod_cast hj
  have hL0 := abs_nonneg L
  refine meets_ite (fun hj0 => ?_) fun hj0 => ?_
  · have hj1 : (1 : ℝ) ≤ j := by exact_mod_cast Nat.one_le_iff_ne_zero.mpr hj0
    have hjabs : |((j : ℤ) : ℝ)| = j := by
      rw [Int.cast_natCast]
      exact abs_of_nonneg (Nat.cast_nonneg j)
    refine meets_bind (lnTwo_spec hw hw') fun L2 hL2 => ?_
    obtain ⟨hL2t, hL2n⟩ := hL2
    have hL2c : |(L2.value : ℝ) - Real.log 2| ≤ 2 * lnSeriesError w * |Real.log 2| := by
      rw [hl2abs]
      exact hL2n.abs_sub_le (by linarith)
    have hjl2 : (j : ℝ) * Real.log 2 ≤ 3 := by nlinarith
    refine meets_bind (mul_int_close_rel (by omega) hL2t (n := j)
      (lt_of_lt_of_le (show ((j : ℤ)).natAbs < 4 by omega) (by decide)) hL2c (by linarith)
      (by linarith) ?_ ?_) fun J hJ => ?_
    · rw [hjabs, hl2abs]
      exact (show (2 : ℝ) * 10 ^ (-20 : ℤ) ≤ 1 / 2 by norm_num).trans (by nlinarith)
    · rw [hjabs, hl2abs]
      exact (show 2 * ((j : ℝ) * Real.log 2) ≤ 6 by linarith).trans (by norm_num)
    obtain ⟨hJt, hJc⟩ := hJ
    rw [hjabs, hl2abs, Int.cast_natCast] at hJc
    -- both summands within three series errors, and the sum well away from zero
    have hres3 : |(res.value : ℝ) - L| ≤ 3 * lnSeriesError w * |L| := hclose.trans (by nlinarith)
    have hsum : |L + j * Real.log 2| ≤ |L| + j * Real.log 2 := by
      refine (abs_add_le _ _).trans ?_
      rw [abs_of_nonneg (by positivity : (0 : ℝ) ≤ j * Real.log 2)]
    have hsize : lnSeriesError w * (|L| + j * Real.log 2) ≤ 7 / 200 :=
      (mul_le_mul hτ (by linarith : |L| + j * Real.log 2 ≤ 7 / 2) (by positivity)
        (by norm_num)).trans (by norm_num)
    have hpos := hlow hj0
    refine meets_bind (add_close_rel (by omega) hres hJt hres3 (by linarith [hJc]) hL0
      (by positivity) hsum (by linarith) (by linarith) ?_ ?_) fun r hr => ?_
    · rw [abs_of_pos (show (0 : ℝ) < L + j * Real.log 2 by linarith)]
      have h10 : (10 : ℝ) ^ (-20 : ℤ) ≤ 1 / 100 := by norm_num
      have h3 : 3 * lnSeriesError w * (|L| + j * Real.log 2) ≤ 21 / 200 := by linarith
      exact (add_le_add h10 h3).trans (by linarith)
    · exact (show 2 * (|L| + j * Real.log 2) ≤ 7 by linarith).trans (by norm_num)
    obtain ⟨hrt, hrc⟩ := hr
    exact hf r hrt (by linarith)
  · obtain rfl : j = 0 := by simpa using hj0
    simp only [CharP.cast_eq_zero, zero_mul, add_zero] at hf
    refine meets_bind (Q := fun r => r = res) (meets_pure rfl) fun r hr => ?_
    subst hr
    exact hf r hres (hclose.trans (by nlinarith))

/-- Adding `k ln 10`, for the exponent `k`, to a value within four series errors of `R`,
relative to `B ≥ |R|`, gives a value within five of `R + k ln 10`, relative to
`B + |k| ln 10`, when that sum is at least `(1 + |k|) / 7` in size. -/
theorem ln_addTens {k : ℤ} (hk : k.natAbs < 2 ^ 43) {res : Decimal} (hres : res.Tame)
    {R B : ℝ} (hB : |R| ≤ B) (hB3 : B ≤ 3)
    (hclose : |(res.value : ℝ) - R| ≤ 4 * lnSeriesError w * B)
    (hfar : k ≠ 0 → (1 + |(k : ℝ)|) / 7 ≤ |R + k * Real.log 10|) :
    (if k ≠ 0 then do
        let L10 ← lnTen w
        let K ← L10.mul (ofInt k) w
        res.add K w
      else pure res).Meets (fun v : Decimal => v.Tame ∧
        |(v.value : ℝ) - (R + k * Real.log 10)| ≤
          5 * lnSeriesError w * (B + |(k : ℝ)| * Real.log 10))
      (fun _ => False) := by
  have hτ := lnSeriesError_le_hundredth hw hw'
  have hετ := roundingError_le_lnSeriesError w
  have hε := (roundingError_pos w).le
  have hl10 := two_lt_log_ten
  have hl10' := log_ten_lt_three
  have hl10abs : |Real.log 10| = Real.log 10 := abs_of_pos (by linarith)
  have hR0 := abs_nonneg R
  have hK0 := abs_nonneg (k : ℝ)
  have hkbig : |(k : ℝ)| < 2 ^ 43 := by
    rw [← Int.cast_abs, Int.abs_eq_natAbs]
    exact_mod_cast hk
  refine meets_ite (fun hk0 => ?_) fun hk0 => ?_
  · have hk1 : (1 : ℝ) ≤ |(k : ℝ)| := by
      rw [← Int.cast_abs]
      exact_mod_cast Int.one_le_abs hk0
    refine meets_bind (lnTen_spec hw hw') fun L10 hL => ?_
    obtain ⟨hLt, hLn⟩ := hL
    have hL10c : |(L10.value : ℝ) - Real.log 10| ≤ 3 * lnSeriesError w * |Real.log 10| := by
      rw [hl10abs]
      have h := hLn.abs_sub_le (by linarith)
      have : 2 * (lnSeriesError w + 2 * roundingError w) ≤ 3 * lnSeriesError w := by linarith
      nlinarith
    have hkl10 : |(k : ℝ)| * Real.log 10 ≤ 3 * 2 ^ 43 := by nlinarith
    refine meets_bind (mul_int_close_rel (by omega) hLt (n := k)
      (lt_of_lt_of_le hk (by decide)) hL10c (by linarith) (by linarith) ?_ ?_) fun K hK => ?_
    · rw [hl10abs]
      exact (show (2 : ℝ) * 10 ^ (-20 : ℤ) ≤ 2 by norm_num).trans (by nlinarith)
    · rw [hl10abs]
      exact (show 2 * (|(k : ℝ)| * Real.log 10) ≤ 6 * 2 ^ 43 by linarith).trans (by norm_num)
    obtain ⟨hKt, hKc⟩ := hK
    rw [hl10abs] at hKc
    have hsum : |R + k * Real.log 10| ≤ B + |(k : ℝ)| * Real.log 10 := by
      refine (abs_add_le _ _).trans ?_
      rw [abs_mul, hl10abs]
      linarith
    -- four series errors of the sizes stay below `(1 + |k|) / 7` less a margin
    have hsize : lnSeriesError w * (B + |(k : ℝ)| * Real.log 10) ≤ 3 / 100 * (1 + |(k : ℝ)|) :=
      (mul_le_mul hτ (by nlinarith : B + |(k : ℝ)| * Real.log 10 ≤ 3 * (1 + |(k : ℝ)|))
        (by nlinarith) (by norm_num)).trans (by linarith)
    have hfar' := hfar hk0
    refine (add_close_rel (by omega) hres hKt hclose (hKc.trans_eq (by ring)) (by linarith)
      (by nlinarith) hsum
      (by linarith) (by linarith) ?_ ?_).mono (fun v hv => ⟨hv.1, ?_⟩) fun _ h => h
    · have h10 : (10 : ℝ) ^ (-20 : ℤ) ≤ 1 / 100 := by norm_num
      have h4 : 4 * lnSeriesError w * (B + |(k : ℝ)| * Real.log 10) ≤
          12 / 100 * (1 + |(k : ℝ)|) := by linarith
      exact (add_le_add h10 h4).trans (by linarith)
    · exact (show 2 * (B + |(k : ℝ)| * Real.log 10) ≤ 6 + 6 * 2 ^ 43 by linarith).trans
        (by norm_num)
    linarith [hv.2]
  · obtain rfl : k = 0 := by simpa using hk0
    refine meets_pure ⟨hres, ?_⟩
    simp only [Int.cast_zero, zero_mul, add_zero, abs_zero]
    nlinarith [lnSeriesError_nonneg w]

end Reduction

theorem reduction_error_le {v R lx τ ε B κ : ℝ} (hv : |v - R| ≤ 5 * τ * (B + κ * Real.log 10))
    (hR : |R - lx| ≤ 3 * ε) (hB : B ≤ 3) (hlx : (1 + κ) / 6 ≤ |lx|) (hκ : 0 ≤ κ) (hε : 0 ≤ ε)
    (hετ : 100 * ε ≤ τ) : |v - lx| ≤ 100 * τ * |lx| := by
  have hl10 := log_ten_lt_three
  have hτ : 0 ≤ τ := by linarith
  have hsize : B + κ * Real.log 10 ≤ 18 * |lx| := by nlinarith
  have h1 : 5 * τ * (B + κ * Real.log 10) ≤ 90 * τ * |lx| := by nlinarith
  have h2 : 3 * ε ≤ 18 * ε * |lx| := by nlinarith
  calc |v - lx| = |(v - R) + (R - lx)| := by ring_nf
    _ ≤ |v - R| + |R - lx| := abs_add_le _ _
    _ ≤ 100 * τ * |lx| := by nlinarith

end Calculator.Elementary
