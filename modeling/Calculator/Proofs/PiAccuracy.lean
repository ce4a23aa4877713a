import Calculator.Proofs.RoundingError
/-!
π to `p` digits. Machin's formula `π = 16 arctan (1/5) - 4 arctan (1/239)` is summed in integers
scaled by `10 ^ (p + 10)`, each term of each series truncated, and each series stops at its first
term that truncates to zero. The terms shrink, so a series is the alternating sum of its truncated
terms up to any index where they vanish (`arctanInverse_eq_sum`). Each truncation moves that sum
by less than a unit, and the terms left out sum to less than the first of them, itself below a
unit (`abs_arctanInverse_sub_lt`). With `P = p + 10` places both series are done within `P`
terms, so Machin's sum is within `20 (P + 1)` units of `10 ^ P π` (`abs_machin_sub_lt`), far
inside the ten guard digits: rounded to `p` digits it is within a unit of the `p`-th digit of π
for every `p` up to a million (`pi_within_unit`).
-/

namespace Calculator.Elementary

open Decimal Finset

/-! The truncated series -/

def truncatedTerm (q scale j : ℕ) : ℕ := scale / (q ^ (2 * j + 1) * (2 * j + 1))

theorem truncatedTerm_antitone {q : ℕ} (hq : 1 ≤ q) (scale : ℕ) :
    Antitone (truncatedTerm q scale) := by
  intro i j hij
  apply Nat.div_le_div_left _ (Nat.mul_pos (Nat.pow_pos hq) (by omega))
  exact Nat.mul_le_mul (Nat.pow_le_pow_right hq (by omega)) (by omega)

theorem truncatedTerm_eq_zero_of_le {q scale i j : ℕ} (hq : 1 ≤ q) (hij : i ≤ j)
    (hi : truncatedTerm q scale i = 0) : truncatedTerm q scale j = 0 :=
  Nat.eq_zero_of_le_zero (hi ▸ truncatedTerm_antitone hq scale hij)

theorem neg_one_pow_mul_eq_ite (k : ℕ) (t : ℤ) :
    (-1) ^ k * t = if k % 2 = 0 then t else -t := by
  split
  · next h => rw [(Nat.even_iff.mpr h).neg_one_pow, one_mul]
  · next h => rw [(Nat.odd_iff.mpr (by omega)).neg_one_pow, neg_one_mul]

theorem arctanInverseFrom_eq_sum {q scale : ℕ} (hq : 2 ≤ q) {N : ℕ}
    (hN : truncatedTerm q scale N = 0) (k qPow : ℕ) (sum : ℤ) (hqPow : qPow = q ^ (2 * k + 1)) :
    arctanInverseFrom q scale hq k qPow sum =
      sum + ∑ j ∈ Ico k N, (-1) ^ j * (truncatedTerm q scale j : ℤ) := by
  fun_induction arctanInverseFrom q scale hq k qPow sum with
  | case1 k qPow sum term hzero =>
    have hk : truncatedTerm q scale k = 0 := by
      rw [truncatedTerm, ← hqPow]
      exact hzero
    rw [sum_eq_zero fun j hj => by
      rw [truncatedTerm_eq_zero_of_le (by omega) (mem_Ico.mp hj).1 hk]
      simp, add_zero]
  | case2 k qPow sum term hterm ih =>
    have hk : truncatedTerm q scale k = term := by
      rw [truncatedTerm, ← hqPow]
    have hkN : k < N := by
      by_contra hle
      exact hterm (hk ▸ truncatedTerm_eq_zero_of_le (by omega) (not_lt.mp hle) hN)
    have hnext := ih (by rw [hqPow]; ring)
    simp only [dite_eq_ite] at hnext
    rw [hnext, sum_eq_sum_Ico_succ_bot hkN, hk, neg_one_pow_mul_eq_ite]
    split <;> ring

theorem arctanInverse_eq_sum {q scale : ℕ} (hq : 2 ≤ q) {N : ℕ}
    (hN : truncatedTerm q scale N = 0) :
    arctanInverse q scale hq = ∑ j ∈ range N, (-1) ^ j * (truncatedTerm q scale j : ℤ) := by
  rw [arctanInverse, arctanInverseFrom_eq_sum hq hN 0 q 0 (by ring), range_eq_Ico, zero_add]

/-! The series of `arctan (1 / q)` -/

theorem hasSum_arctan_inv {q : ℝ} (hq : 1 < q) :
    HasSum (fun j : ℕ => (-1) ^ j * (1 / (q ^ (2 * j + 1) * (2 * j + 1))))
      (Real.arctan (1 / q)) := by
  have hx : ‖1 / q‖ < 1 := by
    rw [Real.norm_eq_abs, abs_of_pos (by positivity)]
    exact (div_lt_one (by linarith)).mpr hq
  have hq0 : q ≠ 0 := by positivity
  convert Real.hasSum_arctan hx using 2 with j
  push_cast
  field_simp
  rw [← mul_pow, mul_one_div_cancel hq0, one_pow]

theorem abs_arctan_inv_sub_partial_le {q : ℝ} (hq : 1 < q) (N : ℕ) :
    |Real.arctan (1 / q) - ∑ j ∈ range N, (-1) ^ j * (1 / (q ^ (2 * j + 1) * (2 * j + 1)))| ≤
      1 / (q ^ (2 * N + 1) * (2 * N + 1)) := by
  set f : ℕ → ℝ := fun j => 1 / (q ^ (2 * j + 1) * (2 * j + 1))
  have hq0 : 0 < q := by linarith
  have hanti : Antitone f := by
    intro i j hij
    apply one_div_le_one_div_of_le (by positivity)
    exact mul_le_mul (pow_le_pow_right₀ hq.le (by omega)) (by exact_mod_cast (by omega : 2 * i + 1 ≤ 2 * j + 1))
      (by positivity) (by positivity)
  have hsum : Summable f := by
    refine Summable.of_nonneg_of_le (fun j => by positivity) (fun j => ?_)
      (summable_geometric_of_lt_one (by positivity) ((div_lt_one hq0).mpr hq))
    rw [div_pow, one_pow]
    apply one_div_le_one_div_of_le (by positivity)
    calc q ^ j ≤ q ^ (2 * j + 1) := pow_le_pow_right₀ hq.le (by omega)
      _ ≤ q ^ (2 * j + 1) * (2 * j + 1) := le_mul_of_one_le_right (by positivity) (by linarith)
  have h := alternating_series_error_bound f hanti hsum N
  rwa [(hasSum_arctan_inv hq).tsum_eq] at h

/-- Truncating each term of `scale · arctan (1 / q)`, and stopping at an index `N` where the
terms vanish, stays within `N + 1` units of it: less than a unit for each truncation, and less
than one more for the terms left out. -/
theorem abs_arctanInverse_sub_lt {q scale N : ℕ} (hq : 2 ≤ q) (hN : truncatedTerm q scale N = 0) :
    |(arctanInverse q scale hq : ℝ) - scale * Real.arctan (1 / q)| < N + 1 := by
  set d : ℕ → ℝ := fun j => (q : ℝ) ^ (2 * j + 1) * (2 * j + 1) with hd
  have hdpos : ∀ j, 0 < d j := fun j => by positivity
  -- each truncated term lies less than a unit below the exact one
  have htrunc : ∀ j, |(truncatedTerm q scale j : ℝ) - scale / d j| ≤ 1 := by
    intro j
    have hcast : (truncatedTerm q scale j : ℝ) = ⌊(scale : ℝ) / d j⌋₊ := by
      rw [truncatedTerm, ← Nat.floor_div_eq_div (K := ℝ)]
      push_cast
      rfl
    rw [hcast, abs_sub_comm, abs_of_nonneg (sub_nonneg.mpr (Nat.floor_le (by positivity)))]
    linarith [Nat.lt_floor_add_one ((scale : ℝ) / d j)]
  -- the first term left out is below a unit
  have hlast : (scale : ℝ) / d N < 1 := by
    have hlt : scale < q ^ (2 * N + 1) * (2 * N + 1) := by
      rw [truncatedTerm, Nat.div_eq_zero_iff] at hN
      exact hN.resolve_left (by positivity)
    rw [div_lt_one (hdpos N)]
    show (scale : ℝ) < (q : ℝ) ^ (2 * N + 1) * (2 * N + 1)
    exact_mod_cast hlt
  have hseries := abs_arctan_inv_sub_partial_le (q := (q : ℝ)) (by exact_mod_cast hq) N
  have hsplit : ∑ j ∈ range N, (-1) ^ j * (truncatedTerm q scale j : ℝ) -
        scale * Real.arctan (1 / q) =
      ∑ j ∈ range N, (-1) ^ j * ((truncatedTerm q scale j : ℝ) - scale / d j) +
        scale * (∑ j ∈ range N, (-1) ^ j * (1 / d j) - Real.arctan (1 / q)) := by
    simp only [mul_sub, sum_sub_distrib, mul_sum]
    have hterm : ∀ j, (scale : ℝ) * ((-1) ^ j * (1 / d j)) = (-1) ^ j * (scale / d j) := by
      intro j
      ring
    simp only [hterm]
    ring
  rw [arctanInverse_eq_sum hq hN]
  push_cast
  rw [hsplit]
  have hfirst : |∑ j ∈ range N, (-1) ^ j * ((truncatedTerm q scale j : ℝ) - scale / d j)| ≤ N :=
    calc _ ≤ ∑ j ∈ range N, |(-1) ^ j * ((truncatedTerm q scale j : ℝ) - scale / d j)| :=
          abs_sum_le_sum_abs _ _
      _ ≤ ∑ _j ∈ range N, (1 : ℝ) := sum_le_sum fun j _ => by
          rw [abs_mul, abs_pow, abs_neg, abs_one, one_pow, one_mul]
          exact htrunc j
      _ = N := by simp
  have hsecond : |(scale : ℝ) * (∑ j ∈ range N, (-1) ^ j * (1 / d j) - Real.arctan (1 / q))| < 1 :=
    calc _ = scale * |Real.arctan (1 / q) - ∑ j ∈ range N, (-1) ^ j * (1 / d j)| := by
          rw [abs_mul, Nat.abs_cast, abs_sub_comm]
      _ ≤ scale * (1 / d N) := mul_le_mul_of_nonneg_left hseries (by positivity)
      _ = scale / d N := mul_one_div _ _
      _ < 1 := hlast
  calc _ ≤ _ := abs_add_le _ _
    _ < (N : ℝ) + 1 := by linarith

/-! Machin's sum -/

theorem truncatedTerm_pow10_self {q : ℕ} (hq : 4 ≤ q) (P : ℕ) :
    truncatedTerm q (pow10 P) P = 0 := by
  rw [truncatedTerm, Nat.div_eq_zero_iff]
  right
  calc pow10 P = 10 ^ P := rfl
    _ ≤ (q * q) ^ P := Nat.pow_le_pow_left (by nlinarith) P
    _ = q ^ (2 * P) := by rw [← pow_two, ← pow_mul]
    _ < q ^ (2 * P + 1) := Nat.pow_lt_pow_right (by omega) (by omega)
    _ ≤ q ^ (2 * P + 1) * (2 * P + 1) := Nat.le_mul_of_pos_right _ (by omega)

theorem pi_eq_machin : Real.pi = 16 * Real.arctan (1 / 5) - 4 * Real.arctan (1 / 239) := by
  have h := Real.four_mul_arctan_inv_5_sub_arctan_inv_239
  rw [one_div, one_div]
  linarith

theorem abs_machin_sub_lt (P : ℕ) :
    |((16 * arctanInverse 5 (pow10 P) (by decide) - 4 * arctanInverse 239 (pow10 P) (by decide) :
      ℤ) : ℝ) - pow10 P * Real.pi| < 20 * (P + 1) := by
  have h5 := abs_arctanInverse_sub_lt (by decide : 2 ≤ 5) (truncatedTerm_pow10_self (by decide) P)
  have h239 := abs_arctanInverse_sub_lt (by decide : 2 ≤ 239)
    (truncatedTerm_pow10_self (by decide) P)
  push_cast at h5 h239 ⊢
  rw [pi_eq_machin]
  calc _ = |16 * ((arctanInverse 5 (pow10 P) (by decide) : ℝ) -
          pow10 P * Real.arctan (1 / 5)) -
        4 * ((arctanInverse 239 (pow10 P) (by decide) : ℝ) - pow10 P * Real.arctan (1 / 239))| := by
        ring_nf
    _ ≤ 16 * |(arctanInverse 5 (pow10 P) (by decide) : ℝ) - pow10 P * Real.arctan (1 / 5)| +
        4 * |(arctanInverse 239 (pow10 P) (by decide) : ℝ) - pow10 P * Real.arctan (1 / 239)| := by
        refine (abs_sub _ _).trans ?_
        rw [abs_mul, abs_mul, abs_of_pos (by norm_num : (0 : ℝ) < 16),
          abs_of_pos (by norm_num : (0 : ℝ) < 4)]
    _ < 20 * (P + 1) := by linarith

/-! π to `p` digits -/

def machinDecimal (p : Precision) : Decimal :=
  ⟨16 * arctanInverse 5 (pow10 (p.digits + guardDigits)) (Nat.le_add_left 2 3) -
    4 * arctanInverse 239 (pow10 (p.digits + guardDigits)) (Nat.le_add_left 2 237),
    ((p.digits + guardDigits : ℕ) : ℤ)⟩

theorem pi_eq_round_machin {p : Precision} (hp : p.digits + guardDigits < 2 ^ 32) :
    pi p = (machinDecimal p).round p := by
  show Decimal.round ⟨16 * arctanInverse 5 (pow10Word (p.digits + guardDigits : ℕ)) (by decide) -
    4 * arctanInverse 239 (pow10Word (p.digits + guardDigits : ℕ)) (by decide),
    ((p.digits + guardDigits : ℕ) : ℤ)⟩ p = _
  rw [pow10Word_of_lt (by omega) (by omega), Int.toNat_natCast]
  rfl

theorem log_pi : Int.log 10 Real.pi = 0 := by
  rw [Int.log_of_one_le_right 10 (by linarith [Real.pi_gt_three]), Nat.cast_eq_zero,
    Nat.log_eq_zero_iff]
  left
  exact (Nat.floor_lt Real.pi_pos.le).mpr (by push_cast; linarith [Real.pi_lt_four])

section Machin

variable {p : Precision} (hp : p.digits ≤ 1000000)
include hp

theorem abs_machinDecimal_sub_le :
    |((machinDecimal p).value : ℝ) - Real.pi| ≤ 10 ^ (-(p.digits : ℤ)) / 4 * Real.pi := by
  set P := p.digits + guardDigits with hP
  have hP10 : P = p.digits + 10 := rfl
  have hclose := abs_machin_sub_lt P
  rw [pow10_eq_pow, Nat.cast_pow, Nat.cast_ofNat] at hclose
  have hpos : (0 : ℝ) < 10 ^ P := by positivity
  have hbudget : 20 * ((P : ℝ) + 1) ≤ 10 ^ 10 * 3 / 4 := by
    have : (P : ℝ) ≤ 1000010 := by exact_mod_cast (show P ≤ 1000010 by omega)
    linarith
  have hvalue : ((machinDecimal p).value : ℝ) =
      ((16 * arctanInverse 5 (pow10 P) (by decide) - 4 * arctanInverse 239 (pow10 P) (by decide) :
        ℤ) : ℝ) / 10 ^ P := by
    simp only [machinDecimal, value, Rat.cast_mul, Rat.cast_intCast, Rat.cast_zpow, Rat.cast_ofNat]
    rw [zpow_neg, zpow_natCast, div_eq_mul_inv]
  rw [hvalue, div_sub' hpos.ne', abs_div, abs_of_pos hpos, div_le_iff₀ hpos, zpow_neg,
    zpow_natCast]
  have hpi := Real.pi_gt_three
  calc _ ≤ 20 * ((P : ℝ) + 1) := hclose.le
    _ ≤ 10 ^ 10 * 3 / 4 := hbudget
    _ ≤ 10 ^ 10 * Real.pi / 4 := by linarith
    _ = (10 ^ p.digits)⁻¹ / 4 * Real.pi * 10 ^ P := by
      rw [hP10, pow_add]
      field_simp

theorem machinDecimal_digits_le : (machinDecimal p).digits ≤ p.digits + guardDigits + 1 := by
  have hclose := abs_machinDecimal_sub_le hp
  have hpi := Real.pi_lt_four
  have hpow : (10 : ℝ) ^ (-(p.digits : ℤ)) ≤ 1 := zpow_le_one_of_nonpos₀ (by norm_num) (by omega)
  have hsize : |((machinDecimal p).value : ℝ)| < 10 := by
    have h1 := abs_sub_abs_le_abs_sub ((machinDecimal p).value : ℝ) Real.pi
    rw [abs_of_pos Real.pi_pos] at h1
    have h2 : (10 : ℝ) ^ (-(p.digits : ℤ)) / 4 * Real.pi ≤ Real.pi / 4 := by
      nlinarith [Real.pi_pos]
    linarith
  apply digitCount_le (by omega) (by unfold guardDigits; omega)
  have habs : ((machinDecimal p).value : ℝ) * 10 ^ (p.digits + guardDigits) =
      (machinDecimal p).mantissa := by
    simp only [machinDecimal, value, Rat.cast_mul, Rat.cast_intCast, Rat.cast_zpow,
      Rat.cast_ofNat]
    rw [zpow_neg, zpow_natCast, mul_assoc, inv_mul_cancel₀ (by positivity), mul_one]
  have hM : |((machinDecimal p).mantissa : ℝ)| < 10 ^ (p.digits + guardDigits + 1) := by
    rw [← habs, abs_mul,
      abs_of_pos (by positivity : (0 : ℝ) < 10 ^ (p.digits + guardDigits)), pow_succ]
    nlinarith [show (0 : ℝ) < 10 ^ (p.digits + guardDigits) by positivity]
  rw [pow10_eq_pow]
  exact_mod_cast (show ((machinDecimal p).mantissa.natAbs : ℝ) <
      (10 : ℝ) ^ (p.digits + guardDigits + 1) by
    rwa [Nat.cast_natAbs, Int.cast_abs])

theorem machinDecimal_words : (machinDecimal p).WordScale ∧ (machinDecimal p).TrueExponent := by
  have hdigits := machinDecimal_digits_le hp
  refine ⟨?_, ?_⟩
  · unfold WordScale int64Min int64Max
    simp only [machinDecimal, guardDigits]
    omega
  · unfold TrueExponent int64Max
    simp only [machinDecimal] at hdigits ⊢
    omega

theorem value_pi : (pi p).value = roundSig (machinDecimal p).value p.digits := by
  obtain ⟨hw, he⟩ := machinDecimal_words hp
  have hd := machinDecimal_digits_le hp
  unfold guardDigits at hd
  rw [pi_eq_round_machin (by unfold guardDigits; omega), value_round hw he (by omega)]

end Machin

/-- π at every precision up to a million digits is within a unit of its `p`-th digit. -/
theorem pi_within_unit (p : Precision) (hp : p.digits ≤ 1000000) :
    |((pi p).value : ℝ) - Real.pi| < 10 ^ (1 - (p.digits : ℤ)) := by
  have h := abs_roundSig_sub_lt_of_pos p.digits_pos Real.pi_pos le_rfl (abs_machinDecimal_sub_le hp)
  rwa [log_pi, zero_add, ← value_pi hp] at h

/-- π to thirty digits is within a unit of its thirtieth digit. -/
theorem pi_within_unit_thirty :
    (⟨30, by decide, by decide⟩ : Precision).digits ≤ 1000000 ∧
      |((pi ⟨30, by decide, by decide⟩).value : ℝ) - Real.pi| < 10 ^ (1 - 30 : ℤ) :=
  ⟨by decide, pi_within_unit _ (by decide)⟩

end Calculator.Elementary
