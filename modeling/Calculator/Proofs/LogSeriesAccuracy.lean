import Calculator.Proofs.ExpAccuracy
/-!
Accuracy of the logarithm series. With `ζ = |r - 1|/(r + 1) ≤ 1/3`, `|ln r| = 2 artanh ζ` is the
sum of `2 ζ^(2i+1)/(2i+1)`, whose tail past a term is below `9/8` of it. The series computes
`z = (r - 1)/(r + 1)`, `z²`, then powers and terms of one sign, each within a few roundings of
the exact ones in size; the sum stops on a negligible term or when its fuel runs out, both with
the tail far below a unit of its last working digit. Every value it forms lies between
`10 ^ -(2^36)` and one in size, so no operation overflows and the series always returns.
-/

namespace Calculator.Elementary

open Decimal Except Finset

/-! The series of `artanh` -/

theorem hasSum_artanh {ζ : ℝ} (h0 : 0 ≤ ζ) (h1 : ζ < 1) :
    HasSum (fun i : ℕ => 2 * (ζ ^ (2 * i + 1) / (2 * i + 1)))
      (Real.log (1 + ζ) - Real.log (1 - ζ)) := by
  have h := Real.hasSum_log_sub_log_of_abs_lt_one (x := ζ) (by rw [abs_of_nonneg h0]; exact h1)
  convert h using 2 with i
  ring

theorem artanh_tail {ζ : ℝ} (h0 : 0 ≤ ζ) (h1 : ζ ≤ 1 / 3) (n : ℕ) :
    0 ≤ Real.log (1 + ζ) - Real.log (1 - ζ) - ∑ i ∈ range n, 2 * (ζ ^ (2 * i + 1) / (2 * i + 1)) ∧
      Real.log (1 + ζ) - Real.log (1 - ζ) - ∑ i ∈ range n, 2 * (ζ ^ (2 * i + 1) / (2 * i + 1)) ≤
        9 / 8 * (2 * (ζ ^ (2 * n + 1) / (2 * n + 1))) := by
  set f : ℕ → ℝ := fun i => 2 * (ζ ^ (2 * i + 1) / (2 * i + 1))
  have htail := (hasSum_nat_add_iff' n).mpr (hasSum_artanh h0 (by linarith))
  have hsq : ζ ^ 2 ≤ 1 / 9 := by nlinarith
  have hf0 : ∀ i, 0 ≤ f i := fun i => by positivity
  have hgeom : ∀ i, f (i + n) ≤ f n * (ζ ^ 2) ^ i := by
    intro i
    have hden : (2 * (n : ℝ) + 1) ≤ 2 * ((i + n : ℕ) : ℝ) + 1 := by push_cast; linarith
    calc f (i + n) = 2 * (ζ ^ (2 * n + 1) * (ζ ^ 2) ^ i / (2 * ((i + n : ℕ) : ℝ) + 1)) := by
          simp only [f]
          congr 2
          rw [← pow_mul, ← pow_add]
          congr 1
          ring
      _ ≤ 2 * (ζ ^ (2 * n + 1) * (ζ ^ 2) ^ i / (2 * n + 1)) := by
          gcongr
      _ = f n * (ζ ^ 2) ^ i := by simp only [f]; ring
  have hbound := hasSum_le hgeom htail
    ((hasSum_geometric_of_lt_one (by positivity) (by linarith)).mul_left (f n))
  refine ⟨hasSum_le (fun i => hf0 (i + n)) hasSum_zero htail, hbound.trans ?_⟩
  have hinv : (1 - ζ ^ 2)⁻¹ ≤ 9 / 8 := by
    rw [inv_le_comm₀ (by linarith) (by norm_num)]
    linarith
  calc f n * (1 - ζ ^ 2)⁻¹ ≤ f n * (9 / 8) := mul_le_mul_of_nonneg_left hinv (hf0 n)
    _ = 9 / 8 * f n := by ring

theorem log_artanh {r : ℝ} (hr : 0 < r) :
    Real.log (1 + |r - 1| / (r + 1)) - Real.log (1 - |r - 1| / (r + 1)) = |Real.log r| := by
  have hr1 : 0 < r + 1 := by linarith
  rcases le_total 1 r with h | h
  · rw [abs_of_nonneg (by linarith), abs_of_nonneg (Real.log_nonneg h)]
    rw [show 1 + (r - 1) / (r + 1) = r * (2 / (r + 1)) by field_simp; ring,
      show 1 - (r - 1) / (r + 1) = 2 / (r + 1) by field_simp; ring,
      Real.log_mul hr.ne' (by positivity)]
    ring
  · rw [abs_of_nonpos (by linarith), abs_of_nonpos (Real.log_nonpos hr.le h)]
    rw [show 1 + -(r - 1) / (r + 1) = 2 / (r + 1) by field_simp; ring,
      show 1 - -(r - 1) / (r + 1) = r * (2 / (r + 1)) by field_simp; ring,
      Real.log_mul hr.ne' (by positivity)]
    ring

/-! Values of one sign, and values far inside the exponent limit -/

theorem roundSig_pos {q : ℚ} (hq : 0 < q) {w : ℕ} (hw : 1 ≤ w) : 0 < roundSig q w :=
  lt_of_lt_of_le (by positivity) (roundSig_mem_of_pos hq hw).1

theorem abs_roundSig (q : ℚ) {w : ℕ} (hw : 1 ≤ w) : |roundSig q w| = roundSig |q| w := by
  rcases lt_trichotomy q 0 with hq | rfl | hq
  · have hpos := roundSig_pos (neg_pos.mpr hq) hw
    have hodd : roundSig q w = -roundSig (-q) w := by simpa using roundSig_neg (-q) w
    rw [abs_of_neg hq, hodd, abs_neg, abs_of_pos hpos]
  · simp [roundSig_zero]
  · rw [abs_of_pos hq, abs_of_pos (roundSig_pos hq hw)]

theorem near_abs_of_rounds {z : Decimal} {q : ℚ} (hq : q ≠ 0) {w : Precision}
    (h : z.value = roundSig q w.digits) :
    Near |(z.value : ℝ)| |(q : ℝ)| (roundingError w) ∧ 0 < z.value * q := by
  have hsize : |z.value| = roundSig |q| w.digits := by rw [h, abs_roundSig q w.digits_pos]
  refine ⟨?_, ?_⟩
  · rw [← Rat.cast_abs, ← Rat.cast_abs, hsize]
    exact near_roundSig (abs_pos.mpr hq) w.digits_pos
  · rcases lt_or_gt_of_ne hq with hneg | hpos
    · have : z.value < 0 := by
        have hodd : roundSig q w.digits = -roundSig (-q) w.digits := by
          simpa using roundSig_neg (-q) w.digits
        rw [h, hodd]
        exact neg_neg_of_pos (roundSig_pos (neg_pos.mpr hneg) w.digits_pos)
      nlinarith
    · have : 0 < z.value := by rw [h]; exact roundSig_pos hpos w.digits_pos
      positivity

theorem not_beyond_of_bounds {q : ℚ} {L : ℕ} (hL : L + 2 ≤ exponentLimit)
    (hlo : (10 : ℝ) ^ (-(L : ℤ)) ≤ |(q : ℝ)|) (hhi : |(q : ℝ)| ≤ 10 ^ (L : ℤ)) : ¬Beyond q := by
  rintro ⟨hq0, hlim⟩
  have hlo' : (10 : ℚ) ^ (-(L : ℤ)) ≤ |q| := by
    rw [← Rat.cast_le (K := ℝ), cast_ten_zpow, Rat.cast_abs]
    exact hlo
  have hhi' : |q| ≤ (10 : ℚ) ^ (L : ℤ) := by
    rw [← Rat.cast_le (K := ℝ), cast_ten_zpow, Rat.cast_abs]
    exact hhi
  have hlog : ∀ n : ℤ, Int.log 10 ((10 : ℚ) ^ n) = n := fun n => by
    simpa using Int.log_zpow (R := ℚ) (b := 10) (by norm_num) n
  have h1 : -(L : ℤ) ≤ Int.log 10 |q| := by
    have := Int.log_mono_right (b := 10) (by positivity) hlo'
    rwa [hlog] at this
  have h2 : Int.log 10 |q| ≤ L := by
    have := Int.log_mono_right (b := 10) (abs_pos.mpr hq0) hhi'
    rwa [hlog] at this
  have : |Int.log 10 (|q|)| ≤ L := abs_le.mpr ⟨h1, h2⟩
  omega

theorem sign_of_same {σ a b : ℚ} (hσ : σ = 1 ∨ σ = -1) (hab : 0 < a * b) (hb : 0 < σ * b) :
    0 < σ * a := by
  rcases hσ with rfl | rfl <;> nlinarith

theorem abs_add_of_sign {σ a b : ℚ} (hσ : σ = 1 ∨ σ = -1) (ha : 0 < σ * a) (hb : 0 < σ * b) :
    |a + b| = |a| + |b| ∧ 0 < σ * (a + b) := by
  rcases hσ with rfl | rfl
  · simp only [one_mul] at ha hb ⊢
    exact ⟨by rw [abs_of_pos ha, abs_of_pos hb, abs_of_pos (add_pos ha hb)], add_pos ha hb⟩
  · simp only [neg_mul, one_mul, neg_pos] at ha hb ⊢
    refine ⟨?_, add_neg ha hb⟩
    rw [abs_of_neg ha, abs_of_neg hb, abs_of_neg (add_neg ha hb)]
    ring

/-! The partial sums of `artanh` -/

theorem two_mul_artanh {ζ : ℝ} (h0 : 0 ≤ ζ) (h1 : ζ < 1) :
    2 * Real.artanh ζ = Real.log (1 + ζ) - Real.log (1 - ζ) := by
  rw [Real.artanh_eq_half_log ⟨by linarith, h1.le⟩, Real.log_div (by linarith) (by linarith)]
  ring

theorem artanh_sub_partial {ζ : ℝ} (h0 : 0 ≤ ζ) (h1 : ζ ≤ 1 / 3) (n : ℕ) :
    0 ≤ Real.artanh ζ - ∑ i ∈ range n, ζ ^ (2 * i + 1) / (2 * i + 1) ∧
      Real.artanh ζ - ∑ i ∈ range n, ζ ^ (2 * i + 1) / (2 * i + 1) ≤
        9 / 8 * (ζ ^ (2 * n + 1) / (2 * n + 1)) := by
  obtain ⟨hlo, hhi⟩ := artanh_tail h0 h1 n
  rw [← two_mul_artanh h0 (by linarith), ← mul_sum] at hlo hhi
  constructor <;> linarith

theorem partial_artanh_mem {ζ : ℝ} (h0 : 0 ≤ ζ) (h1 : ζ ≤ 1 / 3) {n : ℕ} (hn : 1 ≤ n) :
    ζ ≤ ∑ i ∈ range n, ζ ^ (2 * i + 1) / (2 * i + 1) ∧
      ∑ i ∈ range n, ζ ^ (2 * i + 1) / (2 * i + 1) ≤ Real.artanh ζ := by
  refine ⟨?_, by linarith [(artanh_sub_partial h0 h1 n).1]⟩
  have h := single_le_sum (f := fun i : ℕ => ζ ^ (2 * i + 1) / (2 * (i : ℝ) + 1))
    (fun i _ => by positivity) (mem_range.mpr hn)
  simpa using h

theorem self_le_artanh {ζ : ℝ} (h0 : 0 ≤ ζ) (h1 : ζ ≤ 1 / 3) : ζ ≤ Real.artanh ζ :=
  have h := partial_artanh_mem h0 h1 (le_refl 1)
  h.1.trans h.2

theorem artanh_le_half {ζ : ℝ} (h0 : 0 ≤ ζ) (h1 : ζ ≤ 1 / 3) : Real.artanh ζ ≤ 1 / 2 := by
  have hlo := Real.log_le_sub_one_of_pos (x := 1 + ζ) (by linarith)
  have hhi := Real.one_sub_inv_le_log_of_pos (x := 1 - ζ) (by linarith)
  have hinv : (1 - ζ)⁻¹ ≤ 3 / 2 := by
    rw [inv_le_comm₀ (by linarith) (by norm_num)]
    linarith
  have h2 := two_mul_artanh h0 (by linarith)
  linarith

/-! The series -/

theorem roundingError_le_of_eleven {w : Precision} (hw : 11 ≤ w.digits) :
    roundingError w ≤ 10 ^ (-10 : ℤ) :=
  zpow_le_zpow_right₀ (by norm_num) (by omega)

theorem series_error_le {w : Precision} (hw : 11 ≤ w.digits) (hw' : w.digits ≤ 100000) {n : ℕ}
    (hn : n ≤ seriesFuel w + 1) {c : ℝ} (hc : c ≤ 10 * n + 10) : c * roundingError w ≤ 1 / 100 := by
  have h1 := fuel_mul_roundingError_le hw'
  have h2 : (10 : ℝ) ^ (7 - (w.digits : ℤ)) ≤ 10 ^ (-4 : ℤ) :=
    zpow_le_zpow_right₀ (by norm_num) (by omega)
  have h3 := roundingError_le_of_eleven hw
  have hε := (roundingError_pos w).le
  have hnF : (n : ℝ) ≤ seriesFuel w + 1 := by exact_mod_cast hn
  calc c * roundingError w ≤ (10 * n + 10) * roundingError w := mul_le_mul_of_nonneg_right hc hε
    _ ≤ 10 * ((seriesFuel w + 1) * roundingError w) + 10 * roundingError w := by nlinarith
    _ ≤ 10 * 10 ^ (-4 : ℤ) + 10 * 10 ^ (-10 : ℤ) := by gcongr; exact h1.trans h2
    _ ≤ 1 / 100 := by norm_num

structure LnSeriesArgs (ζ : ℝ) (w : Precision) (z2 : Decimal) : Prop where
  zeta_pos : 0 < ζ
  zeta_le : ζ ≤ 1 / 3
  zeta_large : (10 : ℝ) ^ (-(2 ^ 32 : ℤ)) ≤ ζ
  digits_ge : 11 ≤ w.digits
  digits_le : w.digits ≤ 100000
  square_tame : z2.Tame
  square_near : Near z2.value (ζ ^ 2) (7 * roundingError w)

structure LnState (ζ : ℝ) (σ : ℚ) (w : Precision) (n : ℕ) (power sum : Decimal) : Prop where
  one_le : 1 ≤ n
  power_tame : power.Tame
  sum_tame : sum.Tame
  power_sign : 0 < σ * power.value
  sum_sign : 0 < σ * sum.value
  power_near : Near |(power.value : ℝ)| (ζ ^ (2 * (n - 1) + 1))
    ((8 * (n - 1 : ℕ) + 3) * roundingError w)
  sum_near : Near |(sum.value : ℝ)| (∑ i ∈ range n, ζ ^ (2 * i + 1) / (2 * i + 1))
    ((9 * (n - 1 : ℕ) + 4) * roundingError w)
  power_large : ζ ^ 3 * 10 ^ (-(w.digits : ℤ)) / 10 ^ 4 ≤ |(power.value : ℝ)|

noncomputable def lnSumError (w : Precision) : ℝ := (9 * seriesFuel w + 5) * roundingError w

def lnStep (z2 : Decimal) (w : Precision) (n : Nat) (power : Decimal) :
    Except Fault (Decimal × Decimal) := do
  let power ← power.mul z2 w
  let term ← power.div (ofInt (2 * n + 1)) w
  pure (power, term)

theorem not_beyond_of_moderate {q : ℚ} (hlo : (10 : ℝ) ^ (-(2 ^ 36 : ℤ)) ≤ |(q : ℝ)|)
    (hhi : |(q : ℝ)| ≤ 10) : ¬Beyond q :=
  not_beyond_of_bounds (L := 2 ^ 36) (by unfold exponentLimit; norm_num) (by exact_mod_cast hlo)
    (hhi.trans (by
      calc (10 : ℝ) = 10 ^ (1 : ℤ) := (zpow_one 10).symm
        _ ≤ 10 ^ ((2 ^ 36 : ℕ) : ℤ) := zpow_le_zpow_right₀ (by norm_num) (by norm_num)))

theorem ten_zpow_neg_le_one (w : Precision) : (10 : ℝ) ^ (-(w.digits : ℤ)) ≤ 1 :=
  zpow_le_one_of_nonpos₀ (by norm_num) (by omega)

section Series

variable {ζ : ℝ} {σ : ℚ} {w : Precision} {z2 : Decimal}

theorem LnSeriesArgs.digits_lt (A : LnSeriesArgs ζ w z2) : w.digits < 2 ^ 20 := by
  have := A.digits_le
  omega

theorem LnSeriesArgs.error_le (A : LnSeriesArgs ζ w z2) {n : ℕ} (hn : n ≤ seriesFuel w + 1)
    {c : ℝ} (hc : c ≤ 10 * n + 10) : c * roundingError w ≤ 1 / 100 :=
  series_error_le A.digits_ge A.digits_le hn hc

theorem tiny_le_scaled (hζ : (10 : ℝ) ^ (-(2 ^ 32 : ℤ)) ≤ ζ) (hw : w.digits ≤ 100000) :
    (10 : ℝ) ^ (-(2 ^ 36 : ℤ)) ≤ ζ ^ 5 * 10 ^ (-(w.digits : ℤ)) / 10 ^ 12 :=
  calc (10 : ℝ) ^ (-(2 ^ 36 : ℤ)) ≤ 10 ^ (-(2 ^ 32 : ℤ) * 5 + -(w.digits : ℤ) - 12) :=
        zpow_le_zpow_right₀ (by norm_num) (by omega)
    _ = ((10 : ℝ) ^ (-(2 ^ 32 : ℤ))) ^ 5 * 10 ^ (-(w.digits : ℤ)) / 10 ^ 12 := by
        rw [zpow_sub₀ (by norm_num), zpow_add₀ (by norm_num), zpow_mul, zpow_ofNat, zpow_ofNat]
    _ ≤ ζ ^ 5 * 10 ^ (-(w.digits : ℤ)) / 10 ^ 12 := by gcongr

theorem LnSeriesArgs.tiny (A : LnSeriesArgs ζ w z2) :
    (10 : ℝ) ^ (-(2 ^ 36 : ℤ)) ≤ ζ ^ 5 * 10 ^ (-(w.digits : ℤ)) / 10 ^ 12 :=
  tiny_le_scaled A.zeta_large A.digits_le

theorem LnSeriesArgs.pow_le_one (A : LnSeriesArgs ζ w z2) (k : ℕ) : ζ ^ k ≤ 1 :=
  pow_le_one₀ A.zeta_pos.le (by linarith [A.zeta_le])

theorem LnSeriesArgs.scaled_nonneg (A : LnSeriesArgs ζ w z2) (k : ℕ) :
    0 ≤ ζ ^ k * 10 ^ (-(w.digits : ℤ)) :=
  mul_nonneg (pow_nonneg A.zeta_pos.le k) (by positivity)

/-- The next odd power is within eight more roundings of `ζ ^ (2n + 1)` in size, seven for `z²`
and one for the product, and stays far above the exponent limit. -/
theorem ln_power (A : LnSeriesArgs ζ w z2) (hσ : σ = 1 ∨ σ = -1) {n : ℕ} {power sum : Decimal}
    (hs : LnState ζ σ w n power sum) (hn : n < 1 + seriesFuel w) :
    (power.mul z2 w).Meets (fun P => P.Tame ∧ 0 < σ * P.value ∧
      Near |(P.value : ℝ)| (ζ ^ (2 * n + 1)) ((8 * n + 3) * roundingError w) ∧
      ζ ^ 5 * 10 ^ (-(w.digits : ℤ)) / 10 ^ 5 ≤ |(P.value : ℝ)|) (fun _ => False) := by
  obtain ⟨m, rfl⟩ : ∃ m, n = m + 1 := ⟨n - 1, by have := hs.one_le; omega⟩
  have hpow := hs.power_near
  simp only [Nat.add_sub_cancel] at hpow
  have hsq := A.square_near
  have hnF : m + 1 ≤ seriesFuel w + 1 := by omega
  have hm0 : (0 : ℝ) ≤ m := Nat.cast_nonneg m
  have hz0 : (0 : ℝ) < z2.value := hsq.1
  have hz2 : ζ ^ 2 ≤ 3 * z2.value := (hsq.le_three_mul ((A.error_le hnF (by linarith)).trans
    (by norm_num))).2
  set q := power.value * z2.value with hqdef
  have hqabs : |(q : ℝ)| = |(power.value : ℝ)| * z2.value := by
    rw [hqdef, Rat.cast_mul, abs_mul, abs_of_pos hz0]
  have hq : Near |(q : ℝ)| (ζ ^ (2 * (m + 1) + 1))
      ((8 * m + 3) * roundingError w + 7 * roundingError w) := by
    rw [hqabs, show ζ ^ (2 * (m + 1) + 1) = ζ ^ (2 * m + 1) * ζ ^ 2 by ring]
    exact hpow.mul hsq
  have hq3 := hq.le_three_mul (by
    rw [← add_mul]
    exact (A.error_le hnF (by push_cast; linarith)).trans (by norm_num))
  have hlarge : ζ ^ 5 * 10 ^ (-(w.digits : ℤ)) / 10 ^ 4 / 3 ≤ |(q : ℝ)| := by
    rw [hqabs]
    calc ζ ^ 5 * 10 ^ (-(w.digits : ℤ)) / 10 ^ 4 / 3
        = ζ ^ 3 * 10 ^ (-(w.digits : ℤ)) / 10 ^ 4 * (ζ ^ 2 / 3) := by ring
      _ ≤ |(power.value : ℝ)| * z2.value :=
          mul_le_mul hs.power_large (by linarith) (by positivity) (abs_nonneg _)
  have hq0 : q ≠ 0 := by
    intro h
    have := hq.1
    rw [h, Rat.cast_zero, abs_zero] at this
    exact lt_irrefl 0 this
  have hnb : ¬Beyond q := by
    refine not_beyond_of_moderate (A.tiny.trans (le_trans ?_ hlarge)) ?_
    · rw [div_div]
      exact div_le_div_of_nonneg_left (A.scaled_nonneg 5) (by norm_num) (by norm_num)
    · linarith [A.pow_le_one (2 * (m + 1) + 1)]
  refine (mul_spec hs.power_tame A.square_tame A.digits_lt).mono (fun P ⟨hP, hv⟩ => ?_)
    fun e he => hnb he.2
  obtain ⟨hnear, hsign⟩ := near_abs_of_rounds hq0 hv
  have hPn : Near |(P.value : ℝ)| (ζ ^ (2 * (m + 1) + 1))
      ((8 * ((m + 1 : ℕ) : ℝ) + 3) * roundingError w) :=
    (hnear.trans hq).mono (le_of_eq (by push_cast; ring))
  have hσq : 0 < σ * q := by
    rw [hqdef, ← mul_assoc]
    exact mul_pos hs.power_sign (by exact_mod_cast hz0)
  refine ⟨hP, sign_of_same hσ hsign hσq, hPn, ?_⟩
  have h3 := (hnear.le_three_mul ((roundingError_le_of_eleven A.digits_ge).trans (by norm_num))).2
  calc ζ ^ 5 * 10 ^ (-(w.digits : ℤ)) / 10 ^ 5
      ≤ ζ ^ 5 * 10 ^ (-(w.digits : ℤ)) / 10 ^ 4 / 3 / 3 := by
        rw [div_div, div_div]
        exact div_le_div_of_nonneg_left (A.scaled_nonneg 5) (by norm_num) (by norm_num)
    _ ≤ |(q : ℝ)| / 3 := by gcongr
    _ ≤ |(P.value : ℝ)| := by linarith

/-- The next term is within one more rounding of `ζ ^ (2n + 1) / (2n + 1)` in size. -/
theorem ln_term (A : LnSeriesArgs ζ w z2) (hσ : σ = 1 ∨ σ = -1) {n : ℕ}
    (hn : n < 1 + seriesFuel w) {P : Decimal} (hP : P.Tame) (hPs : 0 < σ * P.value)
    (hPn : Near |(P.value : ℝ)| (ζ ^ (2 * n + 1)) ((8 * n + 3) * roundingError w))
    (hPl : ζ ^ 5 * 10 ^ (-(w.digits : ℤ)) / 10 ^ 5 ≤ |(P.value : ℝ)|) :
    (P.div (ofInt (2 * n + 1)) w).Meets (fun T => T.Tame ∧ 0 < σ * T.value ∧
      Near |(T.value : ℝ)| (ζ ^ (2 * n + 1) / (2 * n + 1)) ((8 * n + 4) * roundingError w))
      (fun _ => False) := by
  have hn6 : 2 * n + 1 ≤ 1000000 := by
    unfold seriesFuel at hn
    have := A.digits_le
    omega
  have hk0 : (ofInt (2 * n + 1)).mantissa ≠ 0 := by
    show (2 * (n : ℤ) + 1) ≠ 0
    omega
  have hkt : (ofInt (2 * n + 1)).Tame :=
    tame_ofInt (lt_of_lt_of_le (show (2 * (n : ℤ) + 1).natAbs < 2 ^ 20 by omega) (by decide))
  have hd : (0 : ℝ) < 2 * n + 1 := by positivity
  have hd6 : (2 * n + 1 : ℝ) ≤ 1000000 := by exact_mod_cast hn6
  set q := P.value / ((2 * n + 1 : ℤ) : ℚ) with hqdef
  have hqabs : |(q : ℝ)| = |(P.value : ℝ)| / (2 * n + 1) := by
    rw [hqdef]
    push_cast
    rw [abs_div, abs_of_pos hd]
  have hq : Near |(q : ℝ)| (ζ ^ (2 * n + 1) / (2 * n + 1)) ((8 * n + 3) * roundingError w + 0) := by
    rw [hqabs]
    exact hPn.div (Near.refl hd)
  have hq0 : q ≠ 0 := by
    intro h
    have := hq.1
    rw [h, Rat.cast_zero, abs_zero] at this
    exact lt_irrefl 0 this
  have hP3 := hPn.le_three_mul ((A.error_le (n := n) (by omega) (by linarith)).trans
    (by norm_num))
  have hnb : ¬Beyond q := by
    refine not_beyond_of_moderate (A.tiny.trans ?_) ?_
    · calc ζ ^ 5 * 10 ^ (-(w.digits : ℤ)) / 10 ^ 12
          ≤ ζ ^ 5 * 10 ^ (-(w.digits : ℤ)) / (10 ^ 5 * (2 * n + 1)) :=
            div_le_div_of_nonneg_left (A.scaled_nonneg 5) (by positivity) (by nlinarith)
        _ = ζ ^ 5 * 10 ^ (-(w.digits : ℤ)) / 10 ^ 5 / (2 * n + 1) := by rw [div_div]
        _ ≤ |(P.value : ℝ)| / (2 * n + 1) := by gcongr
        _ = |(q : ℝ)| := hqabs.symm
    · rw [hqabs]
      calc |(P.value : ℝ)| / (2 * n + 1) ≤ |(P.value : ℝ)| :=
            div_le_self (abs_nonneg _) (by linarith [Nat.cast_nonneg (α := ℝ) n])
        _ ≤ 10 := by linarith [A.pow_le_one (2 * n + 1)]
  refine (div_spec hP hkt hk0 A.digits_lt).mono (fun T ⟨hT, hv⟩ => ?_) fun e he => by
    rw [value_ofInt] at he
    exact hnb he.2
  rw [value_ofInt] at hv
  obtain ⟨hnear, hsign⟩ := near_abs_of_rounds hq0 hv
  have hσq : 0 < σ * q := by
    rw [hqdef, mul_div_assoc']
    exact div_pos hPs (by positivity)
  exact ⟨hT, sign_of_same hσ hsign hσq, (hnear.trans hq).mono (le_of_eq (by ring))⟩

/-- Adding a term that is not negligible keeps the state: the sum gains one rounding on the
larger of the two errors it adds, and the power is large since the term is. -/
theorem ln_add (A : LnSeriesArgs ζ w z2) (hσ : σ = 1 ∨ σ = -1) {n : ℕ}
    (hn : n < 1 + seriesFuel w) {power sum P T : Decimal} (hs : LnState ζ σ w n power sum)
    (hP : P.Tame) (hPs : 0 < σ * P.value)
    (hPn : Near |(P.value : ℝ)| (ζ ^ (2 * n + 1)) ((8 * n + 3) * roundingError w))
    (hT : T.Tame) (hTs : 0 < σ * T.value)
    (hTn : Near |(T.value : ℝ)| (ζ ^ (2 * n + 1) / (2 * n + 1)) ((8 * n + 4) * roundingError w))
    (hneg : negligible T sum w = false) :
    (sum.add T w).Meets (LnState ζ σ w (n + 1) P) (fun _ => False) := by
  have hn1 : (1 : ℝ) ≤ n := by exact_mod_cast hs.one_le
  have hcast : ((n - 1 : ℕ) : ℝ) = n - 1 := by rw [Nat.cast_sub hs.one_le, Nat.cast_one]
  have hε := (roundingError_pos w).le
  have hnF : n ≤ seriesFuel w + 1 := by omega
  have hsmall : ∀ c : ℝ, c ≤ 10 * n + 10 → c * roundingError w ≤ 1 := fun c hc =>
    (A.error_le hnF hc).trans (by norm_num)
  have hsum := hs.sum_near
  rw [hcast] at hsum
  have hpart := partial_artanh_mem A.zeta_pos.le A.zeta_le hs.one_le
  have hS3 := hsum.le_three_mul (hsmall _ (by linarith))
  have hT3 := hTn.le_three_mul (hsmall _ (by linarith))
  have hP3 := hPn.le_three_mul (hsmall _ (by linarith))
  have hart := artanh_le_half A.zeta_pos.le A.zeta_le
  have hdiv : ζ ^ (2 * n + 1) / (2 * n + 1) ≤ ζ ^ (2 * n + 1) :=
    div_le_self (pow_nonneg A.zeta_pos.le _) (by linarith)
  have hpow1 := A.pow_le_one (2 * n + 1)
  obtain ⟨habs, hsign⟩ := abs_add_of_sign hσ hs.sum_sign hTs
  have hq : |((sum.value + T.value : ℚ) : ℝ)| = |(sum.value : ℝ)| + |(T.value : ℝ)| := by
    exact_mod_cast habs
  have hSlo : ζ / 3 ≤ |(sum.value : ℝ)| := by linarith
  have hq0 : sum.value + T.value ≠ 0 := by
    intro h
    rw [h, mul_zero] at hsign
    exact lt_irrefl 0 hsign
  have hnb : ¬Beyond (sum.value + T.value) := by
    refine not_beyond_of_moderate (A.tiny.trans ?_) ?_
    · have h5 : ζ ^ 5 ≤ ζ := pow_le_of_le_one A.zeta_pos.le (by linarith [A.zeta_le]) (by norm_num)
      have hζu : ζ ^ 5 * 10 ^ (-(w.digits : ℤ)) ≤ ζ :=
        (mul_le_of_le_one_right (pow_nonneg A.zeta_pos.le 5) (ten_zpow_neg_le_one w)).trans h5
      calc ζ ^ 5 * 10 ^ (-(w.digits : ℤ)) / 10 ^ 12 ≤ ζ / 10 ^ 12 := by gcongr
        _ ≤ ζ / 3 := div_le_div_of_nonneg_left A.zeta_pos.le (by norm_num) (by norm_num)
        _ ≤ |((sum.value + T.value : ℚ) : ℝ)| := by rw [hq]; linarith [abs_nonneg (T.value : ℝ)]
    · rw [hq]
      linarith
  have hS0 : sum.mantissa ≠ 0 := by
    intro h
    have := hs.sum_sign
    rw [value_eq_zero_iff.mpr h, mul_zero] at this
    exact lt_irrefl 0 this
  obtain ⟨-, hlt⟩ := lt_abs_of_not_negligible hT hs.sum_tame A.digits_lt hS0 hneg
  have hlt' : |(sum.value : ℝ)| * (10 ^ (-(w.digits : ℤ)) / 10 ^ 2) < |(T.value : ℝ)| := by
    have h := (Rat.cast_lt (K := ℝ)).mpr hlt
    push_cast at h
    rwa [zpow_sub₀ (by norm_num)] at h
  -- the power is at least a ninth of the term, which is above the sum's size times `10 ^ (-w - 2)`
  have hlarge : ζ ^ 3 * 10 ^ (-(w.digits : ℤ)) / 10 ^ 4 ≤ |(P.value : ℝ)| := by
    have h3 : ζ ^ 3 ≤ ζ := pow_le_of_le_one A.zeta_pos.le (by linarith [A.zeta_le]) (by norm_num)
    have hu : 0 ≤ (10 : ℝ) ^ (-(w.digits : ℤ)) := by positivity
    have hζu : ζ ^ 3 * 10 ^ (-(w.digits : ℤ)) ≤ ζ * 10 ^ (-(w.digits : ℤ)) :=
      mul_le_mul_of_nonneg_right h3 hu
    have hSu : ζ / 3 * (10 ^ (-(w.digits : ℤ)) / 10 ^ 2) ≤
        |(sum.value : ℝ)| * (10 ^ (-(w.digits : ℤ)) / 10 ^ 2) :=
      mul_le_mul_of_nonneg_right hSlo (by positivity)
    nlinarith
  refine (add_spec hs.sum_tame hT A.digits_lt).mono (fun S' ⟨hS', hv⟩ => ?_) fun e he => hnb he.2
  obtain ⟨hnear, hsign'⟩ := near_abs_of_rounds hq0 hv
  have hadd : Near |((sum.value + T.value : ℚ) : ℝ)|
      (∑ i ∈ range (n + 1), ζ ^ (2 * i + 1) / (2 * i + 1)) ((9 * n + 3) * roundingError w) := by
    rw [hq, sum_range_succ]
    exact (hsum.mono (by nlinarith)).add (hTn.mono (by nlinarith))
  refine ⟨by omega, hP, hS', hPs, sign_of_same hσ hsign' hsign, by simpa using hPn,
    (hnear.trans hadd).mono (le_of_eq ?_), hlarge⟩
  rw [Nat.add_sub_cancel]
  ring

/-- A sum that stops on a negligible term is within the series error of `artanh ζ`: the tail is
at most `9/8` of that term's exact value, which lies `w + 1` places below the sum. -/
theorem ln_done_of_negligible (A : LnSeriesArgs ζ w z2) {n : ℕ} (hn : n < 1 + seriesFuel w)
    {power sum T : Decimal} (hs : LnState ζ σ w n power sum) (hT : T.Tame)
    (hTn : Near |(T.value : ℝ)| (ζ ^ (2 * n + 1) / (2 * n + 1)) ((8 * n + 4) * roundingError w))
    (hneg : negligible T sum w = true) :
    Near |(sum.value : ℝ)| (Real.artanh ζ) (lnSumError w) := by
  have hn1 : (1 : ℝ) ≤ n := by exact_mod_cast hs.one_le
  have hcast : ((n - 1 : ℕ) : ℝ) = n - 1 := by rw [Nat.cast_sub hs.one_le, Nat.cast_one]
  have hF : (n : ℝ) ≤ seriesFuel w := by exact_mod_cast (show n ≤ seriesFuel w by omega)
  have hε := (roundingError_pos w).le
  have hsmall : ∀ c : ℝ, c ≤ 10 * n + 10 → c * roundingError w ≤ 1 := fun c hc =>
    (A.error_le (by omega) hc).trans (by norm_num)
  have hsum := hs.sum_near
  rw [hcast] at hsum
  set u : ℝ := 10 ^ (-(w.digits : ℤ))
  have hu : 0 < u := by positivity
  have hε10 : roundingError w = 10 * u := roundingError_eq w
  have hT0 : T.mantissa ≠ 0 := by
    intro h
    have := hTn.1
    rw [value_eq_zero_iff.mpr h, Rat.cast_zero, abs_zero] at this
    exact lt_irrefl 0 this
  obtain ⟨-, hlt⟩ := abs_lt_of_negligible hT hs.sum_tame A.digits_lt hT0 hneg
  have hlt' : |(T.value : ℝ)| < |(sum.value : ℝ)| * (u / 10) := by
    have h := (Rat.cast_lt (K := ℝ)).mpr hlt
    push_cast at h
    rwa [zpow_sub₀ (by norm_num), zpow_one] at h
  set A' := ∑ i ∈ range n, ζ ^ (2 * i + 1) / (2 * i + 1)
  have hpart := partial_artanh_mem A.zeta_pos.le A.zeta_le hs.one_le
  have htail := artanh_sub_partial A.zeta_pos.le A.zeta_le n
  have hS3 := (hsum.le_three_mul (hsmall _ (by linarith))).1
  have hT3 := (hTn.le_three_mul (hsmall _ (by linarith))).2
  -- the tail is below `81/80` of `u` times the partial sum
  have htail' : Real.artanh ζ - A' ≤ 81 / 80 * u * Real.artanh ζ :=
    calc Real.artanh ζ - A' ≤ 9 / 8 * (ζ ^ (2 * n + 1) / (2 * n + 1)) := htail.2
      _ ≤ 9 / 8 * (3 * (|(sum.value : ℝ)| * (u / 10))) := by gcongr; linarith
      _ ≤ 9 / 8 * (3 * (3 * A' * (u / 10))) := by gcongr
      _ = 81 / 80 * u * A' := by ring
      _ ≤ 81 / 80 * u * Real.artanh ζ := by gcongr; exact hpart.2
  have hu2 : 81 / 80 * u ≤ 1 / 2 := by
    have h14 : roundingError w ≤ 1 / 100 := (roundingError_le_of_eleven A.digits_ge).trans (by norm_num)
    rw [hε10] at h14
    linarith
  refine (near_of_tail hsum hpart.2 htail' hu2).mono ?_
  unfold lnSumError
  nlinarith

/-- A sum whose fuel runs out is within the series error of `artanh ζ` too: its tail is below
`ζ · 9 ^ -(4w + 100)`. -/
theorem ln_done_of_fuel (A : LnSeriesArgs ζ w z2) {power sum : Decimal}
    (hs : LnState ζ σ w (1 + seriesFuel w) power sum) :
    Near |(sum.value : ℝ)| (Real.artanh ζ) (lnSumError w) := by
  have hsum := hs.sum_near
  rw [Nat.add_sub_cancel_left] at hsum
  set F := seriesFuel w
  set u : ℝ := 10 ^ (-(w.digits : ℤ))
  have hε10 : roundingError w = 10 * u := roundingError_eq w
  have hu : 0 < u := by positivity
  have hζ := A.zeta_pos
  have hpart := partial_artanh_mem hζ.le A.zeta_le (n := 1 + F) (by omega)
  have htail := artanh_sub_partial hζ.le A.zeta_le (1 + F)
  have hsq : ζ ^ 2 ≤ 1 / 9 := by nlinarith [A.zeta_le]
  have htail' : Real.artanh ζ - ∑ i ∈ range (1 + F), ζ ^ (2 * i + 1) / (2 * i + 1) ≤
      u * Real.artanh ζ :=
    calc Real.artanh ζ - ∑ i ∈ range (1 + F), ζ ^ (2 * i + 1) / (2 * i + 1)
        ≤ 9 / 8 * (ζ ^ (2 * (1 + F) + 1) / (2 * ((1 + F : ℕ) : ℝ) + 1)) := htail.2
      _ ≤ 9 / 8 * ζ ^ (2 * (1 + F) + 1) := by
          gcongr
          exact div_le_self (pow_nonneg hζ.le _) (by linarith [Nat.cast_nonneg (α := ℝ) (1 + F)])
      _ = ζ * (9 / 8 * (ζ ^ 2) ^ (1 + F)) := by ring
      _ ≤ ζ * (9 / 8 * (1 / 9) ^ (1 + F)) := by gcongr
      _ ≤ ζ * (1 / 2) ^ F := by
          gcongr
          rw [pow_add, pow_one]
          have : (1 / 9 : ℝ) ^ F ≤ (1 / 2) ^ F := pow_le_pow_left₀ (by norm_num) (by norm_num) F
          have h0 : (0 : ℝ) ≤ (1 / 9) ^ F := by positivity
          linarith
      _ ≤ ζ * u := by gcongr; exact half_pow_fuel_le w
      _ ≤ u * Real.artanh ζ := by rw [mul_comm]; gcongr; linarith [hpart.1]
  have hu2 : u ≤ 1 / 2 := by
    have h14 : roundingError w ≤ 1 / 100 := (roundingError_le_of_eleven A.digits_ge).trans (by norm_num)
    rw [hε10] at h14
    linarith
  refine (near_of_tail hsum hpart.2 htail' hu2).mono ?_
  unfold lnSumError
  nlinarith

theorem lnStep_meets (A : LnSeriesArgs ζ w z2) (hσ : σ = 1 ∨ σ = -1) {n : ℕ}
    {power sum : Decimal} (hs : LnState ζ σ w n power sum) (hn : n < 1 + seriesFuel w) :
    (lnStep z2 w n power).Meets (fun r => r.2.Tame ∧
      Near |(r.2.value : ℝ)| (ζ ^ (2 * n + 1) / (2 * n + 1)) ((8 * n + 4) * roundingError w) ∧
      (negligible r.2 sum w = false → (sum.add r.2 w).Meets (LnState ζ σ w (n + 1) r.1)
        (fun _ => False))) (fun _ => False) := by
  unfold lnStep
  refine meets_bind (ln_power A hσ hs hn) fun P hPall => ?_
  obtain ⟨hP, hPs, hPn, hPl⟩ := hPall
  refine meets_bind (ln_term A hσ hn hP hPs hPn hPl) fun T hTall => ?_
  obtain ⟨hT, hTs, hTn⟩ := hTall
  exact meets_pure ⟨hT, hTn, fun hneg => ln_add A hσ hn hs hP hPs hPn hT hTs hTn hneg⟩

theorem lnState_start (A : LnSeriesArgs ζ w z2) {z : Decimal} (hz : z.Tame)
    (hzs : 0 < σ * z.value) (hzn : Near |(z.value : ℝ)| ζ (3 * roundingError w)) :
    LnState ζ σ w 1 z z := by
  have hε := (roundingError_pos w).le
  have hz3 := (hzn.le_three_mul ((A.error_le (n := 0) (by omega) (by norm_num)).trans
    (by norm_num))).2
  refine ⟨le_refl 1, hz, hz, hzs, hzs, by simpa using hzn, ?_, ?_⟩
  · simpa using hzn.mono (by linarith)
  · have h3 : ζ ^ 3 ≤ ζ := pow_le_of_le_one A.zeta_pos.le (by linarith [A.zeta_le]) (by norm_num)
    have hζu : ζ ^ 3 * 10 ^ (-(w.digits : ℤ)) ≤ ζ :=
      (mul_le_of_le_one_right (pow_nonneg A.zeta_pos.le 3) (ten_zpow_neg_le_one w)).trans h3
    have h0 : 0 ≤ ζ ^ 3 * 10 ^ (-(w.digits : ℤ)) := A.scaled_nonneg 3
    linarith

theorem lnSum_spec (A : LnSeriesArgs ζ w z2) (hσ : σ = 1 ∨ σ = -1) {z : Decimal} (hz : z.Tame)
    (hzs : 0 < σ * z.value) (hzn : Near |(z.value : ℝ)| ζ (3 * roundingError w)) :
    (series w (lnStep z2 w) z z).Meets (fun S => S.Tame ∧ 0 < σ * S.value ∧
      Near |(S.value : ℝ)| (Real.artanh ζ) (lnSumError w)) (fun _ => False) := by
  refine series_meets_inv (LnState ζ σ w) _ (fun n power sum hn hs => ?_)
    (fun power sum hs => ⟨hs.sum_tame, hs.sum_sign, ln_done_of_fuel A hs⟩)
    (lnState_start A hz hzs hzn)
  refine (lnStep_meets A hσ hs hn).mono (fun r hr => ⟨fun hneg => ?_, hr.2.2⟩) fun _ h => h
  exact ⟨hs.sum_tame, hs.sum_sign, ln_done_of_negligible A hn hs hr.1 hr.2.1 hneg⟩

end Series

/-! The argument of the series -/

theorem tame_zero : zero.Tame := tame_of_small (by decide) (by decide)

theorem scale_lt_of_tenth_le {x : Decimal} (hx : x.Tame) (h : 1 / 10 ≤ |x.value|) :
    x.scale < 2 ^ 30 := by
  have hm : x.mantissa ≠ 0 := by
    intro h0
    rw [value_eq_zero_iff.mpr h0, abs_zero] at h
    norm_num at h
  have hlt := lt_zpow_exponent hx hm
  have hexp : -1 ≤ x.exponent := by
    by_contra hc
    have h1 : (10 : ℚ) ^ (x.exponent + 1) ≤ 10 ^ (-1 : ℤ) := zpow_le_zpow_right₀ (by norm_num) (by omega)
    have h2 : (10 : ℚ) ^ (-1 : ℤ) = 1 / 10 := by norm_num
    exact absurd (hlt.trans_le (h1.trans_eq h2)) (not_lt.mpr h)
  have := exponent_of_tame hx hm
  have := hx.digits_lt
  omega

theorem abs_sub_one_ge {x : Decimal} {S : ℕ} (hs : x.scale ≤ S) (h1 : x.value ≠ 1) :
    (10 : ℚ) ^ (-(S : ℤ)) ≤ |x.value - 1| := by
  obtain ⟨t, e, ht, he⟩ : ∃ t e : ℕ, (t : ℤ) ≤ S ∧ (e : ℤ) = t - x.scale :=
    ⟨(max x.scale 0).toNat, ((max x.scale 0).toNat - x.scale).toNat, by omega, by omega⟩
  have h10 : (10 : ℚ) ≠ 0 := by norm_num
  have hval : x.value - 1 = ((x.mantissa * 10 ^ e - 10 ^ t : ℤ) : ℚ) * 10 ^ (-(t : ℤ)) := by
    have e1 : (t : ℤ) - x.scale + -(t : ℤ) = -x.scale := by ring
    rw [value]
    push_cast
    rw [sub_mul, mul_assoc, ← zpow_natCast, ← zpow_natCast, ← zpow_add₀ h10, ← zpow_add₀ h10, he,
      e1, add_neg_cancel, zpow_zero]
  have hM : x.mantissa * 10 ^ e - 10 ^ t ≠ 0 := by
    intro h0
    apply h1
    rw [← sub_eq_zero, hval, h0, Int.cast_zero, zero_mul]
  calc (10 : ℚ) ^ (-(S : ℤ)) ≤ 10 ^ (-(t : ℤ)) := zpow_le_zpow_right₀ (by norm_num) (by omega)
    _ ≤ |((x.mantissa * 10 ^ e - 10 ^ t : ℤ) : ℚ)| * 10 ^ (-(t : ℤ)) :=
        le_mul_of_one_le_left (by positivity) (by exact_mod_cast Int.one_le_abs hM)
    _ = |x.value - 1| := by rw [hval, abs_mul, abs_of_pos (by positivity : (0 : ℚ) < 10 ^ (-(t : ℤ)))]

theorem ln_zeta_mem {r : Decimal} (hr : r.Tame) (h0 : 1 / 2 ≤ r.value) (h2 : r.value ≤ 2)
    (h1 : r.value ≠ 1) :
    (10 : ℝ) ^ (-(2 ^ 32 : ℤ)) ≤ |(r.value : ℝ) - 1| / (r.value + 1) ∧
      |(r.value : ℝ) - 1| / (r.value + 1) ≤ 1 / 3 ∧ (10 : ℝ) ^ (-(2 ^ 30 : ℤ)) ≤ |(r.value : ℝ) - 1| := by
  have h0' : (1 / 2 : ℝ) ≤ r.value := by
    have h := (Rat.cast_le (K := ℝ)).mpr h0
    rwa [Rat.cast_div, Rat.cast_one, Rat.cast_ofNat] at h
  have h2' : (r.value : ℝ) ≤ 2 := by exact_mod_cast h2
  have hsep : (10 : ℝ) ^ (-(2 ^ 30 : ℤ)) ≤ |(r.value : ℝ) - 1| := by
    have hs := scale_lt_of_tenth_le hr (by rw [abs_of_pos (by linarith)]; linarith)
    have h := abs_sub_one_ge (S := 2 ^ 30) (by push_cast; omega) h1
    have h' := (Rat.cast_le (K := ℝ)).mpr h
    rw [cast_ten_zpow, Rat.cast_abs, Rat.cast_sub, Rat.cast_one] at h'
    exact_mod_cast h'
  have hpos : (0 : ℝ) < r.value + 1 := by linarith
  refine ⟨?_, ?_, hsep⟩
  · rw [le_div_iff₀ hpos]
    calc (10 : ℝ) ^ (-(2 ^ 32 : ℤ)) * (r.value + 1) ≤ 10 ^ (-(2 ^ 32 : ℤ)) * 10 ^ (2 ^ 32 - 2 ^ 30 : ℤ) := by
          gcongr
          calc (r.value : ℝ) + 1 ≤ 10 ^ (1 : ℤ) := by norm_num; linarith
            _ ≤ 10 ^ (2 ^ 32 - 2 ^ 30 : ℤ) := zpow_le_zpow_right₀ (by norm_num) (by norm_num)
      _ = 10 ^ (-(2 ^ 30 : ℤ)) := by rw [← zpow_add₀ (by norm_num)]; norm_num
      _ ≤ |(r.value : ℝ) - 1| := hsep
  · rw [div_le_iff₀ hpos]
    rcases le_total (r.value : ℝ) 1 with h | h
    · rw [abs_of_nonpos (by linarith)]
      linarith
    · rw [abs_of_nonneg (by linarith)]
      linarith

theorem not_beyond_sub_one {r : Decimal} (hr : r.Tame) (h0 : 1 / 2 ≤ r.value)
    (h2 : r.value ≤ 2) : ¬Beyond (r.value - 1) := by
  by_cases h1 : r.value = 1
  · rw [h1, sub_self]
    exact fun h => h.1 rfl
  obtain ⟨-, -, hsep⟩ := ln_zeta_mem hr h0 h2 h1
  refine not_beyond_of_moderate ?_ ?_
  · rw [Rat.cast_sub, Rat.cast_one]
    exact (zpow_le_zpow_right₀ (by norm_num) (by norm_num)).trans hsep
  · have h2' : (r.value : ℝ) ≤ 2 := by exact_mod_cast h2
    have h0' : (0 : ℝ) ≤ r.value := by exact_mod_cast (by linarith : (0 : ℚ) ≤ r.value)
    rw [Rat.cast_sub, Rat.cast_one, abs_le]
    constructor <;> linarith

theorem not_beyond_add_one {r : Decimal} (h0 : 1 / 2 ≤ r.value) (h2 : r.value ≤ 2) :
    ¬Beyond (r.value + 1) := by
  have h2' : (r.value : ℝ) ≤ 2 := by exact_mod_cast h2
  have h0' : (0 : ℝ) ≤ r.value := by exact_mod_cast (by linarith : (0 : ℚ) ≤ r.value)
  refine not_beyond_of_moderate ?_ ?_ <;> rw [Rat.cast_add, Rat.cast_one, abs_of_pos (by linarith)]
  · exact (zpow_le_one_of_nonpos₀ (by norm_num) (by norm_num)).trans (by linarith)
  · linarith

/-- The series' argument `z = (r - 1)/(r + 1)`, from the rounded difference and sum, is within
three roundings of `ζ` in size and has the sign `σ` of `r - 1`. -/
theorem ln_quotient {r a b : Decimal} (hr : r.Tame) (h0 : 1 / 2 ≤ r.value) (h2 : r.value ≤ 2)
    (h1 : r.value ≠ 1) {σ : ℚ} (hσ : σ = 1 ∨ σ = -1) (hσr : 0 < σ * (r.value - 1))
    {w : Precision} (hw : 11 ≤ w.digits) (hw' : w.digits ≤ 100000) (ha : a.Tame)
    (hav : a.value = roundSig (r.value - 1) w.digits) (hb : b.Tame)
    (hbv : b.value = roundSig (r.value + 1) w.digits) :
    (a.div b w).Meets (fun z => z.Tame ∧ 0 < σ * z.value ∧
      Near |(z.value : ℝ)| (|(r.value : ℝ) - 1| / (r.value + 1)) (3 * roundingError w))
      (fun _ => False) := by
  obtain ⟨hζlo, hζhi, -⟩ := ln_zeta_mem hr h0 h2 h1
  have hε := (roundingError_pos w).le
  have hε1 : roundingError w ≤ 1 / 100 := (roundingError_le_of_eleven hw).trans (by norm_num)
  obtain ⟨hna, hsa⟩ := near_abs_of_rounds (sub_ne_zero.mpr h1) hav
  rw [Rat.cast_sub, Rat.cast_one] at hna
  have hnb := near_of_rounds (by linarith : (0 : ℚ) < r.value + 1) hbv
  rw [Rat.cast_add, Rat.cast_one] at hnb
  have hb0 : (0 : ℝ) < b.value := hnb.1
  have hbm : b.mantissa ≠ 0 := value_eq_zero_iff.not.mp (by exact_mod_cast hb0.ne')
  set ζ := |(r.value : ℝ) - 1| / (r.value + 1)
  set q := a.value / b.value with hqdef
  have hq : Near |(q : ℝ)| ζ (roundingError w + roundingError w) := by
    rw [hqdef, Rat.cast_div, abs_div, abs_of_pos hb0]
    exact hna.div hnb
  have hq0 : q ≠ 0 := by
    intro h
    have := hq.1
    rw [h, Rat.cast_zero, abs_zero] at this
    exact lt_irrefl 0 this
  have hq3 := hq.le_three_mul (by linarith)
  have hnbq : ¬Beyond q := by
    refine not_beyond_of_moderate ?_ (by linarith)
    have hζ0 : 0 < ζ := lt_of_lt_of_le (by positivity) hζlo
    calc (10 : ℝ) ^ (-(2 ^ 36 : ℤ)) ≤ 10 ^ (-(2 ^ 32 : ℤ)) / 10 ^ (1 : ℤ) := by
          rw [← zpow_sub₀ (by norm_num)]
          exact zpow_le_zpow_right₀ (by norm_num) (by norm_num)
      _ ≤ ζ / 3 := by
          rw [zpow_one]
          calc (10 : ℝ) ^ (-(2 ^ 32 : ℤ)) / 10 ≤ ζ / 10 := by gcongr
            _ ≤ ζ / 3 := div_le_div_of_nonneg_left hζ0.le (by norm_num) (by norm_num)
      _ ≤ |(q : ℝ)| := by linarith
  refine (div_spec ha hb hbm (by omega)).mono (fun z ⟨hz, hzv⟩ => ?_) fun e he => hnbq he.2
  obtain ⟨hnz, hsz⟩ := near_abs_of_rounds hq0 hzv
  have hσq : 0 < σ * q := by
    rw [hqdef, mul_div_assoc']
    exact div_pos (sign_of_same hσ hsa hσr) (by exact_mod_cast hb0)
  exact ⟨hz, sign_of_same hσ hsz hσq, (hnz.trans hq).mono (le_of_eq (by ring))⟩

theorem ln_square {z : Decimal} (hz : z.Tame) {ζ : ℝ} {w : Precision} (hw : 11 ≤ w.digits)
    (hw' : w.digits ≤ 100000) (hzn : Near |(z.value : ℝ)| ζ (3 * roundingError w))
    (hζlo : (10 : ℝ) ^ (-(2 ^ 32 : ℤ)) ≤ ζ) (hζhi : ζ ≤ 1 / 3) :
    (z.mul z w).Meets (fun z2 => LnSeriesArgs ζ w z2) (fun _ => False) := by
  have hε1 : roundingError w ≤ 1 / 100 := (roundingError_le_of_eleven hw).trans (by norm_num)
  have hζ0 : 0 < ζ := lt_of_lt_of_le (by positivity) hζlo
  have hsq : ((z.value * z.value : ℚ) : ℝ) = |(z.value : ℝ)| ^ 2 := by
    rw [Rat.cast_mul, sq_abs, sq]
  have hq : Near ((z.value * z.value : ℚ) : ℝ) (ζ ^ 2) (2 * (3 * roundingError w)) := by
    rw [hsq]
    exact_mod_cast hzn.pow 2
  have hqpos : (0 : ℚ) < z.value * z.value := by exact_mod_cast hq.1
  have hq3 := hq.le_three_mul (by linarith)
  have hnb : ¬Beyond (z.value * z.value) := by
    refine not_beyond_of_moderate ?_ ?_ <;> rw [abs_of_pos hq.1]
    · have h5 : ζ ^ 5 ≤ ζ ^ 2 := pow_le_pow_of_le_one hζ0.le (by linarith) (by norm_num)
      have hu := ten_zpow_neg_le_one w
      calc (10 : ℝ) ^ (-(2 ^ 36 : ℤ)) ≤ ζ ^ 5 * 10 ^ (-(w.digits : ℤ)) / 10 ^ 12 :=
            tiny_le_scaled hζlo hw'
        _ ≤ ζ ^ 2 * 1 / 3 := by
            gcongr
            norm_num
        _ ≤ ((z.value * z.value : ℚ) : ℝ) := by linarith
    · nlinarith
  refine (mul_spec hz hz (by omega)).mono (fun z2 ⟨hz2, hv⟩ => ?_) fun e he => hnb he.2
  exact ⟨hζ0, hζhi, hζlo, hw, hw', hz2,
    ((near_of_rounds hqpos hv).trans hq).mono (le_of_eq (by ring))⟩

noncomputable def lnSeriesError (w : Precision) : ℝ := lnSumError w + roundingError w

/-- Doubling the sum gives `2 artanh ζ` within one more rounding. -/
theorem ln_double {ζ : ℝ} {σ : ℚ} {w : Precision} {z2 : Decimal} (A : LnSeriesArgs ζ w z2)
    (hσ : σ = 1 ∨ σ = -1) {S : Decimal} (hS : S.Tame) (hSs : 0 < σ * S.value)
    (hSn : Near |(S.value : ℝ)| (Real.artanh ζ) (lnSumError w)) :
    (S.mul 2 w).Meets (fun v => v.Tame ∧ 0 < σ * v.value ∧
      Near |(v.value : ℝ)| (2 * Real.artanh ζ) (lnSeriesError w)) (fun _ => False) := by
  have hle := self_le_artanh A.zeta_pos.le A.zeta_le
  have hart := artanh_le_half A.zeta_pos.le A.zeta_le
  have hS3 := hSn.le_three_mul ((A.error_le (n := seriesFuel w + 1) le_rfl
    (by push_cast; linarith)).trans (by norm_num))
  have hq : |((S.value * (2 : Decimal).value : ℚ) : ℝ)| = 2 * |(S.value : ℝ)| := by
    rw [value_two, Rat.cast_mul, abs_mul, Rat.cast_ofNat, abs_two, mul_comm]
  have hσq : 0 < σ * (S.value * (2 : Decimal).value) := by
    rw [value_two, ← mul_assoc]
    exact mul_pos hSs two_pos
  have hq0 : S.value * (2 : Decimal).value ≠ 0 := by
    intro h
    rw [h, mul_zero] at hσq
    exact lt_irrefl 0 hσq
  have hnb : ¬Beyond (S.value * (2 : Decimal).value) := by
    refine not_beyond_of_moderate ?_ (by rw [hq]; linarith)
    have hζ5 : ζ ^ 5 * 10 ^ (-(w.digits : ℤ)) / 10 ^ 12 ≤ ζ / 2 := by
      have h5 : ζ ^ 5 ≤ ζ := pow_le_of_le_one A.zeta_pos.le (by linarith [A.zeta_le]) (by norm_num)
      calc ζ ^ 5 * 10 ^ (-(w.digits : ℤ)) / 10 ^ 12 ≤ ζ ^ 5 * 10 ^ (-(w.digits : ℤ)) / 2 :=
            div_le_div_of_nonneg_left (A.scaled_nonneg 5) (by norm_num) (by norm_num)
        _ ≤ ζ / 2 := by
            gcongr
            exact (mul_le_of_le_one_right (pow_nonneg A.zeta_pos.le 5)
              (ten_zpow_neg_le_one w)).trans h5
    have htiny : (0 : ℝ) < 10 ^ (-(2 ^ 36 : ℤ)) := by positivity
    have h := A.tiny
    rw [hq]
    -- `linarith` must not expand the powers of ten
    generalize (10 : ℝ) ^ (-(2 ^ 36 : ℤ)) = T at h htiny ⊢
    generalize ζ ^ 5 * 10 ^ (-(w.digits : ℤ)) / 10 ^ 12 = X at h hζ5
    linarith [hS3.2]
  refine (mul_spec hS tame_two A.digits_lt).mono (fun v ⟨hv, hvv⟩ => ?_) fun e he => hnb he.2
  obtain ⟨hnv, hsv⟩ := near_abs_of_rounds hq0 hvv
  rw [hq] at hnv
  refine ⟨hv, sign_of_same hσ hsv hσq, (hnv.trans (hSn.mul_left two_pos)).mono (le_of_eq ?_)⟩
  unfold lnSeriesError
  ring

theorem lnArgument_meets {r : Decimal} (hr : r.Tame) (h0 : 1 / 2 ≤ r.value) (h2 : r.value ≤ 2)
    {w : Precision} (hw : 11 ≤ w.digits) (hw' : w.digits ≤ 100000) {β : Type} {P : β → Prop}
    {E : Fault → Prop} (cont : Decimal → Except Fault β)
    (hone : ∀ z : Decimal, r.value = 1 → z.mantissa = 0 → (cont z).Meets P E)
    (hcont : ∀ (z : Decimal) (σ : ℚ), r.value ≠ 1 → (σ = 1 ∨ σ = -1) → 0 < σ * (r.value - 1) →
      z.Tame → 0 < σ * z.value →
      Near |(z.value : ℝ)| (|(r.value : ℝ) - 1| / (r.value + 1)) (3 * roundingError w) →
      (cont z).Meets P E) :
    (do let z ← (← r.sub one w).div (← r.add one w) w; cont z).Meets P E := by
  have hw20 : w.digits < 2 ^ 20 := by omega
  refine meets_bind ((sub_spec hr tame_one hw20).mono (fun a h => h) fun e he => by
    rw [value_one] at he
    exact (not_beyond_sub_one hr h0 h2 he.2).elim) fun a ha => ?_
  refine meets_bind ((add_spec hr tame_one hw20).mono (fun b h => h) fun e he => by
    rw [value_one] at he
    exact (not_beyond_add_one h0 h2 he.2).elim) fun b hb => ?_
  obtain ⟨ha, hav⟩ := ha
  obtain ⟨hb, hbv⟩ := hb
  rw [value_one] at hav hbv
  by_cases h1 : r.value = 1
  · -- at one the difference is zero, and so is the series' argument
    have ha0 : a.value = 0 := by rw [hav, h1, sub_self, roundSig_zero]
    have hbm : b.mantissa ≠ 0 := value_eq_zero_iff.not.mp (by
      rw [hbv]
      exact (roundSig_pos (by linarith) w.digits_pos).ne')
    refine meets_bind ((div_spec ha hb hbm hw20).mono (fun z h => h) fun e he => by
      rw [ha0, zero_div] at he
      exact (he.2.1 rfl).elim) fun z hz => hone z h1 ?_
    exact value_eq_zero_iff.mp (by rw [hz.2, ha0, zero_div, roundSig_zero])
  obtain ⟨σ, hσ, hσr⟩ : ∃ σ : ℚ, (σ = 1 ∨ σ = -1) ∧ 0 < σ * (r.value - 1) := by
    rcases lt_or_gt_of_ne h1 with h | h
    · exact ⟨-1, Or.inr rfl, by linarith⟩
    · exact ⟨1, Or.inl rfl, by linarith⟩
  refine meets_bind ((ln_quotient hr h0 h2 h1 hσ hσr hw hw' ha hav hb hbv).mono (fun z h => h)
    fun _ h => h.elim) fun z hz => ?_
  exact hcont z σ h1 hσ hσr hz.1 hz.2.1 hz.2.2

theorem lnSeries_spec {r : Decimal} (hr : r.Tame) (h0 : 1 / 2 ≤ r.value) (h2 : r.value ≤ 2)
    {w : Precision} (hw : 11 ≤ w.digits) (hw' : w.digits ≤ 100000) :
    (lnSeries r w).Meets (fun v => v.Tame ∧ (r.value = 1 → v.value = 0) ∧
      (r.value ≠ 1 → 0 < v.value * (r.value - 1) ∧
        Near |(v.value : ℝ)| |Real.log r.value| (lnSeriesError w))) (fun _ => False) := by
  unfold lnSeries
  refine lnArgument_meets hr h0 h2 hw hw' _ (fun z h1 hz0 => ?_)
    fun z σ h1 hσ hσr hz hzs hzn => ?_
  · refine meets_ite ?_ ?_
    · intro _
      exact meets_pure ⟨tame_zero, fun _ => value_zero, fun h => absurd h1 h⟩
    · intro h
      exact absurd hz0 h
  obtain ⟨hζlo, hζhi, -⟩ := ln_zeta_mem hr h0 h2 h1
  have hzm : z.mantissa ≠ 0 := by
    intro h
    rw [value_eq_zero_iff.mpr h, mul_zero] at hzs
    exact lt_irrefl 0 hzs
  refine meets_ite ?_ ?_
  · intro h
    exact absurd h hzm
  intro _
  refine meets_bind (ln_square hz hw hw' hzn hζlo hζhi) fun z2 A => ?_
  refine meets_bind (lnSum_spec A hσ hz hzs hzn) fun S ⟨hS, hSs, hSn⟩ => ?_
  refine (ln_double A hσ hS hSs hSn).mono
    (fun v ⟨hv, hvs, hvn⟩ => ⟨hv, fun h => absurd h h1, fun _ => ⟨?_, ?_⟩⟩) fun _ h => h
  · rcases hσ with rfl | rfl <;> nlinarith
  · have hr0 : (0 : ℝ) < r.value := by exact_mod_cast (by linarith : (0 : ℚ) < r.value)
    rwa [two_mul_artanh A.zeta_pos.le (by linarith [A.zeta_le]), log_artanh hr0] at hvn

end Calculator.Elementary
