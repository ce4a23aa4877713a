import Calculator.Proofs.ArctanAccuracy
import Calculator.Proofs.HyperbolicAccuracy
/-!
Faithfulness of the inverse circular functions. The arctangent's working value is within
`arctanError` of `arctan x`, far below a quarter unit of the `p`-th digit at `w = p + 10`. The
arcsine `arctan (x / √(1 - x²))` takes `1 - x²` from a rounded `x²`, whose absolute error of one
rounding becomes a relative one of `ε / (1 - x²)`: the arctangent damps it back by `√(1 - x²)`,
so the arcsine stays faithful while `1 - |x| ≥ 10 ^ -min (p + 5) 15`, and drifts once `1 - x²`
nears the working unit. The arccosine `2·arctan √((1 - x)/(1 + x))` rounds `1 - x` and `1 + x`
only and is faithful on all of `[-1, 1]`.
-/

open Except

namespace Calculator.Elementary

open Decimal

/-! The inverse functions near their arguments -/

theorem le_arcsin_self {x : ℝ} (h0 : 0 ≤ x) (h1 : x ≤ 1) : x ≤ Real.arcsin x :=
  calc x = Real.sin (Real.arcsin x) := (Real.sin_arcsin (by linarith) h1).symm
    _ ≤ Real.arcsin x := Real.sin_le (Real.arcsin_nonneg.mpr h0)

theorem abs_le_abs_arcsin {x : ℝ} (h : |x| ≤ 1) : |x| ≤ |Real.arcsin x| := by
  rcases le_total 0 x with h0 | h0
  · rw [abs_of_nonneg h0, abs_of_nonneg (Real.arcsin_nonneg.mpr h0)]
    exact le_arcsin_self h0 (by rwa [abs_of_nonneg h0] at h)
  · rw [abs_of_nonpos h0, abs_of_nonpos (Real.arcsin_nonpos.mpr h0), ← Real.arcsin_neg]
    exact le_arcsin_self (by linarith) (by rwa [abs_of_nonpos h0] at h)

theorem abs_arctan_sub_le_of_near {z y t : ℝ} (h : Near |z| |y| t) (hzy : 0 < z * y)
    (ht : t ≤ 1 / 4) : |Real.arctan z - Real.arctan y| ≤ 4 * t * |y| / (1 + y ^ 2) := by
  have hdiff := abs_sub_le_of_near h hzy (by linarith)
  have ht0 := h.nonneg
  have hprod : y ^ 2 / 2 ≤ z * y := by
    have hzabs : |y| - 2 * t * |y| ≤ |z| := by
      have := abs_sub_abs_le_abs_sub y z
      rw [abs_sub_comm] at this
      linarith
    rw [show z * y = |z| * |y| by rw [← abs_mul, abs_of_pos hzy], ← sq_abs y]
    nlinarith [abs_nonneg y]
  calc |Real.arctan z - Real.arctan y| ≤ |z - y| / (1 + z * y) := abs_arctan_sub_le hzy.le
    _ ≤ 2 * t * |y| / ((1 + y ^ 2) / 2) := by
        gcongr
        linarith
    _ = 4 * t * |y| / (1 + y ^ 2) := by
        field_simp
        ring

theorem abs_div_sqrt_div {x : ℝ} (hx : |x| < 1) :
    |x / Real.sqrt (1 - x ^ 2)| / (1 + (x / Real.sqrt (1 - x ^ 2)) ^ 2) =
      |x| * Real.sqrt (1 - x ^ 2) := by
  have he : 0 < 1 - x ^ 2 := by nlinarith [abs_nonneg x, sq_abs x]
  have hs := Real.sqrt_pos.mpr he
  have hsq := Real.sq_sqrt he.le
  rw [abs_div, abs_of_pos hs, div_pow, hsq]
  field_simp
  nlinarith [hsq]

theorem eq_zero_iff_of_abs_sub_le {s a E : ℝ} (hE : E < 1) (h : |s - a| ≤ E * |a|) :
    s = 0 ↔ a = 0 := by
  constructor
  · intro hs
    rw [hs, zero_sub, abs_neg] at h
    by_contra ha
    have := abs_pos.mpr ha
    nlinarith
  · intro ha
    rw [ha, sub_zero, abs_zero, mul_zero] at h
    exact abs_nonpos_iff.mp h

theorem roundSig_eq_zero_iff {q : ℚ} {w : ℕ} (hw : 1 ≤ w) : roundSig q w = 0 ↔ q = 0 := by
  refine ⟨fun h => ?_, fun h => by rw [h, roundSig_zero]⟩
  by_contra hq
  have := roundSig_pos (abs_pos.mpr hq) hw
  rw [← abs_roundSig q hw, h, abs_zero] at this
  exact lt_irrefl 0 this

theorem ne_zero_of_faithful {v y : ℝ} (hy : y ≠ 0) {p : ℕ} (hp : 1 ≤ p)
    (h : |v - y| < 10 ^ (Int.log 10 |y| + 1 - p)) : v ≠ 0 := by
  rintro rfl
  rw [zero_sub, abs_neg] at h
  have hlog : (10 : ℝ) ^ Int.log 10 |y| ≤ |y| := by
    have := Int.zpow_log_le_self (b := 10) (by norm_num) (abs_pos.mpr hy)
    push_cast at this
    exact this
  have : (10 : ℝ) ^ (Int.log 10 |y| + 1 - p) ≤ 10 ^ Int.log 10 |y| :=
    zpow_le_zpow_right₀ (by norm_num) (by omega)
  linarith

/-! The error budget at `w = p + 10` -/

theorem roundingError_eq_units (w : Precision) :
    roundingError w = 10 ^ (6 - (w.digits : ℤ)) / 100000 := by
  rw [roundingError_def, show (6 : ℤ) - w.digits = (1 - w.digits) + 5 by ring,
    zpow_add₀ (by norm_num)]
  norm_num

theorem arctanError_le {p w : Precision} (hwd : w.digits = p.digits + 10)
    (hp : p.digits ≤ 10000) : arctanError w ≤ 10 * 10 ^ (6 - (w.digits : ℤ)) := by
  unfold arctanError seriesFuel
  rw [roundingError_eq_units]
  have hF : ((24 * (4 * w.digits + 100) + 716 : ℕ) : ℝ) ≤ 1000000 := by
    exact_mod_cast (by omega : 24 * (4 * w.digits + 100) + 716 ≤ 1000000)
  calc ((24 * (4 * w.digits + 100) + 716 : ℕ) : ℝ) * (10 ^ (6 - (w.digits : ℤ)) / 100000)
      ≤ 1000000 * (10 ^ (6 - (w.digits : ℤ)) / 100000) := by gcongr
    _ = 10 * 10 ^ (6 - (w.digits : ℤ)) := by ring

theorem finish_faithful_iff {s : Decimal} (hs : s.Tame) {p : Precision} (hp : p.digits < 2 ^ 20)
    {y t : ℝ} (ht : t ≤ 10 ^ (-(p.digits : ℤ)) / 4) (hsy : |(s.value : ℝ) - y| ≤ t * |y|) :
    (finish s p).Meets (fun v => ((v.value : ℝ) = 0 ↔ y = 0) ∧
      |(v.value : ℝ) - y| < 10 ^ (Int.log 10 |y| + 1 - p.digits)) (fun _ => True) := by
  rcases eq_or_ne y 0 with rfl | hy
  · -- a working value of zero is zero, and so is its rounding
    rw [abs_zero, mul_zero, sub_zero] at hsy
    have hs0 : s.value = 0 := by exact_mod_cast abs_nonpos_iff.mp hsy
    refine (finish_spec hs hp).mono (fun v hv => ?_) fun _ _ => trivial
    rw [hv.2, hs0, roundSig_zero, Rat.cast_zero, sub_zero, abs_zero]
    exact ⟨iff_of_true rfl rfl, by positivity⟩
  refine (finish_faithful hs hp hy ht hsy).mono (fun v hv => ⟨?_, hv⟩) fun _ _ => trivial
  exact iff_of_false (ne_zero_of_faithful hy p.digits_pos hv) hy

theorem abs_sub_le_of_rel_trans {s a b E ρ : ℝ} (h1 : |s - a| ≤ E * |a|) (h2 : |a - b| ≤ ρ * |b|)
    (hE : 0 ≤ E) : |s - b| ≤ (E + ρ + E * ρ) * |b| := by
  have ha : |a| ≤ (1 + ρ) * |b| := by
    have := abs_sub_abs_le_abs_sub a b
    linarith
  calc |s - b| ≤ |s - a| + |a - b| := abs_sub_le _ _ _
    _ ≤ E * ((1 + ρ) * |b|) + ρ * |b| := by gcongr; exact h1.trans (by gcongr)
    _ = (E + ρ + E * ρ) * |b| := by ring

/-! The arcsine -/

section Arcsine

variable {w : Precision} (hw : 11 ≤ w.digits) (hw' : w.digits ≤ 100000)
include hw hw'

/-- The ratio `x / √(1 - x²)` of a working value below one in size is a working value of the
sign of `x`, zero only at zero; while `1 - |x| ≥ 10⁴ ε` it is within `4 + 1/(1 - x²)` roundings
of the exact ratio, the rounding of `x²` weighing `1/(1 - x²)` in `1 - x²`. -/
theorem arcsinRatio_meets {x : Decimal} (hx : x.Tame) (hx1 : |(x.value : ℝ)| < 1) {β : Type}
    {P : β → Prop} (cont : Decimal → Except Fault β)
    (hcont : ∀ z : Decimal, z.Tame → (z.value = 0 ↔ x.value = 0) → 0 ≤ z.value * x.value →
      (x.value ≠ 0 → 10 ^ 4 * roundingError w ≤ 1 - |(x.value : ℝ)| →
        Near |(z.value : ℝ)| |(x.value : ℝ) / Real.sqrt (1 - (x.value : ℝ) ^ 2)|
          (4 * roundingError w + roundingError w / (1 - (x.value : ℝ) ^ 2))) →
      (cont z).Meets P (fun _ => True)) :
    (do
      let square ← x.mul x w
      let d ← one.sub square w
      let c ← sqrt d w
      let z ← x.div c w
      cont z).Meets P (fun _ => True) := by
  have hw20 : w.digits < 2 ^ 20 := by omega
  have hε := roundingError_pos w
  have hε10 := roundingError_le_tiny hw
  refine meets_bind ((mul_spec hx hx hw20).mono (fun t h => h) fun _ _ => trivial)
    fun square hsq => ?_
  refine meets_bind ((sub_spec tame_one hsq.1 hw20).mono (fun t h => h) fun _ _ => trivial)
    fun d hd => ?_
  -- below zero the root fails, at zero the division does
  rcases lt_trichotomy d.mantissa 0 with hneg | hzero | hpos
  · rw [sqrt_of_neg hneg]
    exact meets_error trivial
  · rw [sqrt_of_mantissa_zero hzero]
    refine meets_bind (Q := fun c => c = zero) (meets_ok rfl) fun c hc => ?_
    rw [hc, div_zero x (show zero.mantissa = 0 from rfl) w]
    exact meets_error trivial
  have hd0 : (0 : ℚ) < d.value := value_pos_iff.mpr hpos
  refine meets_bind (sqrt_near hd.1 (by exact_mod_cast hd0) hw20) fun c hc => ?_
  have hc0 : (0 : ℝ) < c.value := hc.2.1
  have hcQ : (0 : ℚ) < c.value := by exact_mod_cast hc0
  have hcm : c.mantissa ≠ 0 := fun h => by
    rw [value_eq_zero_iff.mpr h] at hcQ
    exact lt_irrefl 0 hcQ
  refine meets_bind ((div_spec hx hc.1 hcm hw20).mono (fun t h => h) fun _ _ => trivial)
    fun z hz => ?_
  by_cases hx0 : x.value = 0
  · have hz0 : z.value = 0 := by rw [hz.2, hx0, zero_div, roundSig_zero]
    exact hcont z hz.1 (iff_of_true hz0 hx0) (by rw [hz0, zero_mul]) fun h => absurd hx0 h
  obtain ⟨hzN, hzs⟩ := near_abs_of_rounds (div_ne_zero hx0 hcQ.ne') hz.2
  have hzx : 0 < z.value * x.value := by
    rw [show z.value * x.value = z.value * (x.value / c.value) * c.value by field_simp]
    exact mul_pos hzs hcQ
  refine hcont z hz.1 (iff_of_false (fun h => by rw [h, zero_mul] at hzx; exact lt_irrefl 0 hzx)
    hx0) hzx.le fun _ hfar => ?_
  -- the rounded `x²` is within `ε` of `x²`, which weighs `ε / (1 - x²)` in `1 - x²`
  set X : ℝ := (x.value : ℝ) with hXdef
  set e : ℝ := 1 - X ^ 2 with he
  have hX2 : X ^ 2 ≤ 1 := by nlinarith [abs_nonneg X, sq_abs X]
  have he4 : 10 ^ 4 * roundingError w ≤ e := by nlinarith [abs_nonneg X, sq_abs X]
  have he0 : 0 < e := lt_of_lt_of_le (by positivity) he4
  have hsqR : |(square.value : ℝ) - X ^ 2| ≤ roundingError w := by
    have h := abs_sub_of_rounds hsq.2
    rw [Rat.cast_mul, ← sq, abs_of_nonneg (sq_nonneg (x.value : ℝ))] at h
    nlinarith
  have hD : Near ((one.value - square.value : ℚ) : ℝ) e (2 * (roundingError w / e)) := by
    refine Near.of_abs_sub_le he0 ?_ ?_
    · rw [div_le_iff₀ he0]
      nlinarith
    · rw [Rat.cast_sub, value_one, Rat.cast_one, div_mul_cancel₀ _ he0.ne',
        show (1 : ℝ) - square.value - e = -((square.value : ℝ) - X ^ 2) by rw [he]; ring, abs_neg]
      exact hsqR
  have hdN := (near_of_rounds (by exact_mod_cast hD.1) hd.2).trans hD
  have hcN := hc.2.trans hdN.sqrt
  have hratio : Near |((x.value / c.value : ℚ) : ℝ)| |X / Real.sqrt e|
      (0 + (2 * roundingError w + (roundingError w + 2 * (roundingError w / e)) / 2)) := by
    rw [Rat.cast_div, abs_div, abs_div, abs_of_pos hc0, abs_of_pos (Real.sqrt_pos.mpr he0)]
    exact (Near.refl (abs_pos.mpr (by exact_mod_cast hx0))).div hcN
  refine (hzN.trans hratio).mono ?_
  linarith

theorem arctanError_le_small : arctanError w ≤ 3 / 100 := by
  have h := series_error_le hw hw' (n := seriesFuel w + 1) le_rfl
    (c := ((24 * seriesFuel w + 716 : ℕ) : ℝ) / 3) (by
      have : (11 : ℝ) ≤ w.digits := by exact_mod_cast hw
      unfold seriesFuel
      push_cast
      linarith)
  unfold arctanError
  linarith

omit hw' in
/-- Near `±1`, past the ratio: a ratio within `4 + 1/(1 - x²)` roundings of
`y = x / √(1 - x²)` moves `arctan y = arcsin x` by at most `1.4 · 10⁸` roundings of it,
relatively, while `1 - |x|` is at least `10⁻¹⁵` and `10⁴` roundings. -/
theorem abs_arctan_sub_arcsin_le {z X : ℝ} (hX : |X| < 1) (hfar : 1 / 10 ^ 15 ≤ 1 - |X|)
    (hfarε : 10 ^ 4 * roundingError w ≤ 1 - |X|) (hzX : 0 < z * X)
    (hN : Near |z| |X / Real.sqrt (1 - X ^ 2)|
      (4 * roundingError w + roundingError w / (1 - X ^ 2))) :
    |Real.arctan z - Real.arcsin X| ≤ 140000000 * roundingError w * |Real.arcsin X| := by
  have hε := roundingError_pos w
  set e : ℝ := 1 - X ^ 2 with he
  -- `1 - x² = (1 - |x|)(1 + |x|)` is at least `1 - |x|`
  have hfare : 1 - |X| ≤ e := by nlinarith [abs_nonneg X, sq_abs X]
  have he0 : 0 < e := lt_of_lt_of_le (by norm_num) (hfar.trans hfare)
  set s := Real.sqrt e with hsdef
  have hs0 : 0 < s := Real.sqrt_pos.mpr he0
  have hes : e = s ^ 2 := (Real.sq_sqrt he0.le).symm
  have hs8 : 3 / 10 ^ 8 ≤ s := Real.le_sqrt_of_sq_le (by norm_num; linarith)
  have hs1 : s ≤ 1 := Real.sqrt_le_one.mpr (by nlinarith [sq_nonneg X])
  rw [Real.arcsin_eq_arctan ⟨by linarith [neg_abs_le X], by linarith [le_abs_self X]⟩]
  have hzy : 0 < z * (X / s) := by
    rw [← mul_div_assoc]
    exact div_pos hzX hs0
  have ht : 4 * roundingError w + roundingError w / e ≤ 1 / 4 := by
    have : roundingError w / e ≤ 1 / 10 ^ 4 := by
      rw [div_le_iff₀ he0]
      linarith
    linarith [roundingError_le_tiny hw]
  have hρ := abs_arctan_sub_le_of_near hN hzy ht
  rw [mul_div_assoc, abs_div_sqrt_div hX] at hρ
  -- `(4ε + ε/e) √e = 4ε √e + ε / √e ≤ (4 + 10⁸/3) ε`
  have hweight : (4 * roundingError w + roundingError w / e) * s ≤ 35000000 * roundingError w := by
    have hdiv : roundingError w / e * s = roundingError w / s := by
      rw [hes]
      field_simp
    have hinv : roundingError w / s ≤ 34000000 * roundingError w := by
      rw [div_le_iff₀ hs0]
      nlinarith
    nlinarith
  have harc := abs_le_abs_arcsin hX.le
  rw [Real.arcsin_eq_arctan ⟨by linarith [neg_abs_le X], by linarith [le_abs_self X]⟩] at harc
  calc |Real.arctan z - Real.arctan (X / s)|
      ≤ 4 * (4 * roundingError w + roundingError w / e) * (|X| * s) := hρ
    _ = 4 * ((4 * roundingError w + roundingError w / e) * s) * |X| := by ring
    _ ≤ 4 * (35000000 * roundingError w) * |Real.arctan (X / s)| := by gcongr
    _ = 140000000 * roundingError w * |Real.arctan (X / s)| := by ring

/-- The working arcsine of a working value in `[-1, 1]` is a working value, zero exactly at
zero; at `±1`, and while `1 - |x|` is at least `10⁻¹⁵` and `10⁴` roundings, it is within
`arctanError w` and `1.5 · 10⁸` roundings of `arcsin x`, relatively. -/
theorem arcsinWorking_spec {x : Decimal} (hx : x.Tame) (hx1 : |(x.value : ℝ)| ≤ 1) :
    (arcsinWorking x w).Meets (fun s => s.Tame ∧ (s.value = 0 ↔ x.value = 0) ∧
      ((1 / 10 ^ 15 ≤ 1 - |(x.value : ℝ)| ∧ 10 ^ 4 * roundingError w ≤ 1 - |(x.value : ℝ)|) ∨
          |(x.value : ℝ)| = 1 →
        |(s.value : ℝ) - Real.arcsin x.value| ≤
          (arctanError w + 150000000 * roundingError w) * |Real.arcsin x.value|))
      (fun _ => True) := by
  have hε := roundingError_pos w
  have hE0 : 0 ≤ arctanError w := by unfold arctanError; positivity
  have hE1 := arctanError_le_small hw hw'
  unfold arcsinWorking
  refine meets_ite (fun hone => ?_) fun hone => ?_
  · -- at `±1` the answer is `±π/2`
    have habs : |x.value| = 1 := by
      have h := (sameValue_iff_of_tame hx.abs tame_one).mp hone
      rwa [value_abs, value_one] at h
    have hx0 : x.value ≠ 0 := fun h => by rw [h, abs_zero] at habs; exact zero_ne_one habs
    refine meets_bind (halfPi_meets hw hw') fun h hh => meets_pure ?_
    have hh0 : (0 : ℝ) < h.value := by
      have := (abs_le.mp hh.2).1
      linarith [Real.pi_gt_three, roundingError_le_tiny hw]
    have hclose : 3 * roundingError w ≤
        (arctanError w + 150000000 * roundingError w) * |Real.pi / 2| := by
      rw [abs_of_pos (by positivity)]
      nlinarith [Real.pi_gt_three]
    rcases (abs_eq zero_le_one).mp habs with h1 | h1
    · have hneg : x.isNeg = false := by
        rw [Bool.eq_false_iff, Ne, isNeg_iff, h1]
        norm_num
      rw [if_neg (by simp [hneg])]
      refine ⟨hh.1, iff_of_false (fun h0 => ?_) hx0, fun _ => ?_⟩
      · rw [h0, Rat.cast_zero] at hh0
        exact lt_irrefl 0 hh0
      · rw [h1, Rat.cast_one, Real.arcsin_one]
        exact hh.2.trans hclose
    · have hneg : x.isNeg = true := by
        rw [isNeg_iff, h1]
        norm_num
      rw [if_pos hneg]
      refine ⟨hh.1.neg, iff_of_false (fun h0 => ?_) hx0, fun _ => ?_⟩
      · rw [value_neg, neg_eq_zero] at h0
        rw [h0, Rat.cast_zero] at hh0
        exact lt_irrefl 0 hh0
      · rw [h1, value_neg, Rat.cast_neg, Rat.cast_neg, Rat.cast_one, Real.arcsin_neg_one, abs_neg,
          show -(h.value : ℝ) - -(Real.pi / 2) = -((h.value : ℝ) - Real.pi / 2) by ring, abs_neg]
        exact hh.2.trans hclose
  -- inside `(-1, 1)`, the arctangent of the ratio
  have hlt : |(x.value : ℝ)| < 1 := by
    refine lt_of_le_of_ne hx1 fun h => hone ((sameValue_iff_of_tame hx.abs tame_one).mpr ?_)
    rw [value_abs, value_one]
    exact_mod_cast (by rwa [← Rat.cast_abs] at h : ((|x.value| : ℚ) : ℝ) = 1)
  refine arcsinRatio_meets hw hw' hx hlt _ fun z hz hz0 hzx hnear => ?_
  refine (arctanWorking_spec hw hw' hz).mono (fun s hs => ⟨hs.1, ?_, fun hcase => ?_⟩)
    fun _ _ => trivial
  · rw [← hz0, ← Rat.cast_eq_zero (α := ℝ), eq_zero_iff_of_abs_sub_le (by linarith) hs.2,
      Real.arctan_eq_zero_iff, Rat.cast_eq_zero]
  rcases hcase with ⟨hfar, hfarε⟩ | hone'
  swap
  · exact absurd hone' hlt.ne
  by_cases hx0 : x.value = 0
  · have hs0 : (s.value : ℝ) = 0 := by
      refine (eq_zero_iff_of_abs_sub_le (by linarith) hs.2).mpr ?_
      rw [hz0.mpr hx0, Rat.cast_zero, Real.arctan_zero]
    rw [hs0, hx0, Rat.cast_zero, Real.arcsin_zero, sub_zero, abs_zero, mul_zero]
  have hzx' : (0 : ℝ) < z.value * x.value := by
    have hz00 : z.value ≠ 0 := fun h => hx0 (hz0.mp h)
    exact_mod_cast lt_of_le_of_ne hzx (Ne.symm (mul_ne_zero hz00 hx0))
  have hρ := abs_arctan_sub_arcsin_le hw hlt hfar hfarε hzx' (hnear hx0 hfarε)
  refine (abs_sub_le_of_rel_trans hs.2 hρ hE0).trans (mul_le_mul_of_nonneg_right ?_ (abs_nonneg _))
  have := mul_le_mul_of_nonneg_right hE1 (by positivity : (0 : ℝ) ≤ 140000000 * roundingError w)
  linarith

end Arcsine

/-! The arccosine -/

section Arccosine

variable {w : Precision} (hw : 11 ≤ w.digits) (hw' : w.digits ≤ 100000)
include hw hw'

/-- Inside `(-1, 1)` the doubled arctangent of `√((1 - x)/(1 + x))` is within `arctanError w` and
sixteen roundings of `arccos x`, relatively: `1 - x` and `1 + x` are rounded once each, with
nothing to cancel. -/
theorem arccosDoubled_meets {x : Decimal} (hx : x.Tame) (hlo : -1 < (x.value : ℝ))
    (hhi : (x.value : ℝ) < 1) {β : Type} {P : β → Prop} (cont : Decimal → Except Fault β)
    (hcont : ∀ d : Decimal, d.Tame → |(d.value : ℝ) - Real.arccos x.value| ≤
      (arctanError w + 16 * roundingError w) * |Real.arccos x.value| →
      (cont d).Meets P (fun _ => True)) :
    (do
      let n ← one.sub x w
      let m ← one.add x w
      let q ← n.div m w
      let r ← sqrt q w
      let h ← arctanWorking r w
      let d ← h.mul 2 w
      cont d).Meets P (fun _ => True) := by
  have hw20 : w.digits < 2 ^ 20 := by omega
  have hε := roundingError_pos w
  have hε10 := roundingError_le_tiny hw
  have hE0 : 0 ≤ arctanError w := by unfold arctanError; positivity
  have hE1 := arctanError_le_small hw hw'
  have hlo' : (0 : ℚ) < 1 + x.value := by exact_mod_cast (by linarith : (0 : ℝ) < 1 + x.value)
  have hhi' : (0 : ℚ) < 1 - x.value := by exact_mod_cast (by linarith : (0 : ℝ) < 1 - x.value)
  -- `1 - x` and `1 + x` rounded once each, their quotient once more
  refine meets_bind ((sub_spec tame_one hx hw20).mono (fun t h => h) fun _ _ => trivial)
    fun n hn => ?_
  refine meets_bind ((add_spec tame_one hx hw20).mono (fun t h => h) fun _ _ => trivial)
    fun m hm => ?_
  rw [value_one] at hn hm
  have hnN := near_of_rounds hhi' hn.2
  have hmN := near_of_rounds hlo' hm.2
  have hmQ : (0 : ℚ) < m.value := by exact_mod_cast hmN.1
  have hnQ : (0 : ℚ) < n.value := by exact_mod_cast hnN.1
  have hm0 : m.mantissa ≠ 0 := fun h => by
    rw [value_eq_zero_iff.mpr h] at hmQ
    exact lt_irrefl 0 hmQ
  refine meets_bind ((div_spec hn.1 hm.1 hm0 hw20).mono (fun t h => h) fun _ _ => trivial)
    fun q hq => ?_
  have hqN : Near q.value (((1 - x.value : ℚ) : ℝ) / ((1 + x.value : ℚ) : ℝ))
      (roundingError w + (roundingError w + roundingError w)) := by
    have h := near_of_rounds (div_pos hnQ hmQ) hq.2
    rw [Rat.cast_div] at h
    exact h.trans (hnN.div hmN)
  refine meets_bind (sqrt_near hq.1 (by exact_mod_cast hqN.1) hw20) fun r hr => ?_
  have hrN := hr.2.trans hqN.sqrt
  refine meets_bind (arctanWorking_spec hw hw' hr.1) fun h hh => ?_
  -- the half angle `A`, within `E + 8` roundings
  set A := Real.arctan (Real.sqrt (((1 - x.value : ℚ) : ℝ) / ((1 + x.value : ℚ) : ℝ))) with hAdef
  have hA0 : 0 < A := Real.arctan_pos.mpr hrN.2.1
  have harc : |Real.arctan r.value - A| ≤ 7 * roundingError w * |A| := by
    rw [abs_of_pos hA0]
    refine (hrN.arctan.abs_sub_le (by linarith)).trans (le_of_eq ?_)
    ring
  have hhA := abs_sub_le_of_rel_trans hh.2 harc hE0
  refine meets_bind ((mul_spec hh.1 tame_two hw20).mono (fun t h => h) fun _ _ => trivial)
    fun d hd => hcont d hd.1 ?_
  -- the doubling, one more rounding
  have hdh : |(d.value : ℝ) - 2 * h.value| ≤ roundingError w * |2 * (h.value : ℝ)| := by
    have := abs_sub_of_rounds hd.2
    rwa [value_two, Rat.cast_mul, Rat.cast_ofNat, mul_comm (h.value : ℝ)] at this
  have h2A : |2 * (h.value : ℝ) - 2 * A| ≤
      (arctanError w + 7 * roundingError w + arctanError w * (7 * roundingError w)) * |2 * A| := by
    rw [← mul_sub, abs_mul, abs_mul, abs_two]
    nlinarith [abs_nonneg A]
  have hdA := abs_sub_le_of_rel_trans hdh h2A hε.le
  have hAcos : 2 * A = Real.arccos x.value := by
    rw [hAdef, Rat.cast_sub, Rat.cast_add, Rat.cast_one]
    exact two_mul_arctan_sqrt hlo hhi.le
  rw [hAcos] at hdA
  refine hdA.trans (mul_le_mul_of_nonneg_right ?_ (abs_nonneg _))
  have h1 := mul_le_mul_of_nonneg_left hE1 (by positivity : (0 : ℝ) ≤ 7 * roundingError w)
  have h2 := mul_le_mul_of_nonneg_left hε10 hε.le
  have h3 := mul_le_mul_of_nonneg_left hE1 hε.le
  nlinarith

end Arccosine

section Faithful

variable {p : Precision} (hp : p.digits ≤ Gateway.maxPrecision)
include hp

theorem arctan_faithful {x : Decimal} (hx : x.Tame) :
    (arctan x p).Meets (fun v => (v.value = 0 ↔ x.value = 0) ∧
      |(v.value : ℝ) - Real.arctan x.value| <
        10 ^ (Int.log 10 |Real.arctan x.value| + 1 - p.digits)) (fun _ => True) := by
  have hwd := widen_guard_digits hp
  have hp' : p.digits ≤ 10000 := hp
  have hw : 11 ≤ (p.widen guardDigits).digits := by have := p.digits_pos; omega
  have hw' : (p.widen guardDigits).digits ≤ 100000 := by omega
  unfold arctan
  refine meets_bind (arctanWorking_spec hw hw' hx) fun s hs => ?_
  have ht : arctanError (p.widen guardDigits) ≤ 10 ^ (-(p.digits : ℤ)) / 4 :=
    (arctanError_le hwd hp').trans (working_units_le hwd (by norm_num))
  refine (finish_faithful_iff hs.1 (by omega) ht hs.2).mono (fun v hv => ⟨?_, hv.2⟩)
    fun _ _ => trivial
  rw [← Rat.cast_eq_zero (α := ℝ), hv.1, Real.arctan_eq_zero_iff, Rat.cast_eq_zero]

omit hp in
/-- At `w = p + 10`, the margin `10 ^ -min (p + 5) 15` is at least `10⁻¹⁵` and `10⁴` roundings. -/
theorem margin_bounds {w : Precision} (hwd : w.digits = p.digits + 10) :
    (1 : ℝ) / 10 ^ 15 ≤ 1 / 10 ^ min (p.digits + 5) 15 ∧
      10 ^ 4 * roundingError w ≤ 1 / 10 ^ min (p.digits + 5) 15 := by
  have hε : (10 : ℝ) ^ 4 * roundingError w = 1 / 10 ^ (p.digits + 5) := by
    rw [roundingError_def, hwd, zpow_sub₀ (by norm_num), zpow_one, zpow_natCast]
    field_simp
    ring
  refine ⟨?_, hε ▸ ?_⟩
  · exact one_div_le_one_div_of_le (by positivity)
      (pow_le_pow_right₀ (by norm_num) (min_le_right _ _))
  · exact one_div_le_one_div_of_le (by positivity)
      (pow_le_pow_right₀ (by norm_num) (min_le_left _ _))

theorem arcsin_faithful {x : Decimal} (hx : x.Tame) :
    (arcsin x p).Meets (fun v => (v.value = 0 ↔ x.value = 0) ∧
      (1 / 10 ^ min (p.digits + 5) 15 ≤ 1 - |(x.value : ℝ)| ∨ |(x.value : ℝ)| = 1 →
        |(v.value : ℝ) - Real.arcsin x.value| <
          10 ^ (Int.log 10 |Real.arcsin x.value| + 1 - p.digits))) (fun _ => True) := by
  have hwd := widen_guard_digits hp
  have hp' : p.digits ≤ 10000 := hp
  have hw : 11 ≤ (p.widen guardDigits).digits := by have := p.digits_pos; omega
  have hw' : (p.widen guardDigits).digits ≤ 100000 := by omega
  unfold arcsin
  refine meets_ite (fun _ => meets_throw_bind trivial _) fun hdom => ?_
  have hx1 : |(x.value : ℝ)| ≤ 1 := by
    rw [lt_iff_of_tame tame_one hx.abs, value_one, value_abs, not_lt] at hdom
    exact_mod_cast (by rw [← Rat.cast_abs]; exact_mod_cast hdom : |(x.value : ℝ)| ≤ 1)
  refine meets_bind (arcsinWorking_spec hw hw' hx hx1) fun s hs => ?_
  refine (finish_spec hs.1 (by omega)).mono (fun v hv => ⟨?_, fun hcase => ?_⟩) fun _ _ => trivial
  · rw [hv.2, roundSig_eq_zero_iff p.digits_pos, hs.2.1]
  have ht : arctanError (p.widen guardDigits) + 150000000 * roundingError (p.widen guardDigits) ≤
      10 ^ (-(p.digits : ℤ)) / 4 := by
    refine le_trans ?_ (working_units_le hwd (c := 1510) (by norm_num))
    have := arctanError_le hwd hp'
    rw [roundingError_eq_units]
    linarith
  obtain ⟨h15, hε4⟩ := margin_bounds hwd
  have hy : Real.arcsin x.value ≠ 0 ∨ x.value = 0 := by
    rcases eq_or_ne x.value 0 with h | h
    · exact Or.inr h
    · exact Or.inl (fun h0 => h (by exact_mod_cast Real.arcsin_eq_zero_iff.mp h0))
  rcases hy with hy | hx0
  · rw [hv.2]
    exact abs_roundSig_sub_lt p.digits_pos hy ht
      (hs.2.2 (hcase.imp_left fun h => ⟨h15.trans h, hε4.trans h⟩))
  · have hs0 : s.value = 0 := hs.2.1.mpr hx0
    rw [hv.2, hs0, roundSig_zero, hx0]
    simp only [Rat.cast_zero, Real.arcsin_zero, sub_zero, abs_zero]
    positivity

/-- The arccosine is faithful on all of `[-1, 1]`, and zero exactly at one. -/
theorem arccos_faithful {x : Decimal} (hx : x.Tame) :
    (arccos x p).Meets (fun v => (v.value = 0 ↔ x.value = 1) ∧
      |(v.value : ℝ) - Real.arccos x.value| <
        10 ^ (Int.log 10 |Real.arccos x.value| + 1 - p.digits)) (fun _ => True) := by
  have hwd := widen_guard_digits hp
  have hp' : p.digits ≤ 10000 := hp
  have hw : 11 ≤ (p.widen guardDigits).digits := by have := p.digits_pos; omega
  have hw' : (p.widen guardDigits).digits ≤ 100000 := by omega
  have hp20 : p.digits < 2 ^ 20 := by omega
  unfold arccos
  refine meets_ite (fun _ => meets_throw_bind trivial _) fun hdom => ?_
  have hx1 : |(x.value : ℝ)| ≤ 1 := by
    rw [lt_iff_of_tame tame_one hx.abs, value_one, value_abs, not_lt] at hdom
    exact_mod_cast (by rw [← Rat.cast_abs]; exact_mod_cast hdom : |(x.value : ℝ)| ≤ 1)
  refine meets_ite (fun hone => meets_pure ⟨?_, ?_⟩) fun hone => ?_
  · -- at one the answer is zero
    have h1 : x.value = 1 := by
      have := (sameValue_iff_of_tame hx tame_one).mp hone
      rwa [value_one] at this
    exact iff_of_true value_zero h1
  · have h1 : x.value = 1 := by
      have := (sameValue_iff_of_tame hx tame_one).mp hone
      rwa [value_one] at this
    rw [value_zero, h1, Rat.cast_zero, Rat.cast_one, Real.arccos_one, sub_zero, abs_zero]
    positivity
  have hne1 : x.value ≠ 1 := fun h1 =>
    hone ((sameValue_iff_of_tame hx tame_one).mpr (by rw [value_one]; exact h1))
  have hpos : 0 < Real.arccos x.value := by
    refine Real.arccos_pos.mpr (lt_of_le_of_ne (le_of_abs_le hx1) ?_)
    exact_mod_cast hne1
  -- a working value within `t ≤ 10^-p/4` of `arccos x` rounds to a faithful nonzero value
  have hfin : ∀ d : Decimal, d.Tame → ∀ t : ℝ, t ≤ 10 ^ (-(p.digits : ℤ)) / 4 →
      |(d.value : ℝ) - Real.arccos x.value| ≤ t * |Real.arccos x.value| →
      (finish d p).Meets (fun v => (v.value = 0 ↔ x.value = 1) ∧
        |(v.value : ℝ) - Real.arccos x.value| <
          10 ^ (Int.log 10 |Real.arccos x.value| + 1 - p.digits)) (fun _ => True) :=
    fun d hd t ht hdy => (finish_faithful_iff hd hp20 ht hdy).mono
      (fun v hv => ⟨by rw [← Rat.cast_eq_zero (α := ℝ), hv.1]; exact iff_of_false hpos.ne' hne1,
        hv.2⟩)
      fun _ _ => trivial
  refine meets_ite (fun hminus => ?_) fun hminus => ?_
  · -- at minus one the answer is `π`, rounded
    have hm1 : x.value = -1 := by
      have := (sameValue_iff_of_tame hx tame_one.neg).mp hminus
      rwa [value_neg, value_one] at this
    refine hfin _ (tame_pi (p := p.widen guardDigits) (by omega))
      (roundingError (p.widen guardDigits)) ?_ ?_
    · rw [roundingError_eq_units]
      refine le_trans ?_ (working_units_le hwd (c := 1) (by norm_num))
      have : (0 : ℝ) < 10 ^ (6 - ((p.widen guardDigits).digits : ℤ)) := by positivity
      linarith
    · rw [hm1, Rat.cast_neg, Rat.cast_one, Real.arccos_neg_one, abs_of_pos Real.pi_pos]
      refine (pi_within_unit _ (by omega)).le.trans ?_
      rw [← roundingError_def]
      nlinarith [Real.pi_gt_three, roundingError_pos (p.widen guardDigits)]
  have hlo : -1 < (x.value : ℝ) := by
    refine lt_of_le_of_ne (neg_le_of_abs_le hx1) fun h => hminus ?_
    refine (sameValue_iff_of_tame hx tame_one.neg).mpr ?_
    rw [value_neg, value_one]
    exact_mod_cast h.symm
  have hhi : (x.value : ℝ) < 1 := lt_of_le_of_ne (le_of_abs_le hx1) (by exact_mod_cast hne1)
  extract_lets w
  refine arccosDoubled_meets hw hw' hx hlo hhi _ fun d hd hdy => hfin d hd _ ?_ hdy
  refine le_trans ?_ (working_units_le hwd (c := 11) (by norm_num))
  have := arctanError_le hwd hp'
  rw [roundingError_eq_units]
  have : (0 : ℝ) < 10 ^ (6 - ((p.widen guardDigits).digits : ℤ)) := by positivity
  linarith

end Faithful

/-- The inverse circular functions of a working value, at every precision the calculator takes:
each answer is zero exactly where the function is; the arctangent and the arccosine are faithful
everywhere, the arcsine at `±1` and while `1 - |x| ≥ 10 ^ -min (p + 5) 15`. -/
theorem inverse_trig_faithful {x : Decimal} (hx : x.Tame) {p : Precision}
    (hp : p.digits ≤ Gateway.maxPrecision) :
    (∀ v, arctan x p = .ok v → (v.value = 0 ↔ x.value = 0) ∧
      |(v.value : ℝ) - Real.arctan x.value| <
        10 ^ (Int.log 10 |Real.arctan x.value| + 1 - p.digits)) ∧
    (∀ v, arcsin x p = .ok v → (v.value = 0 ↔ x.value = 0) ∧
      (1 / 10 ^ min (p.digits + 5) 15 ≤ 1 - |(x.value : ℝ)| ∨ |(x.value : ℝ)| = 1 →
        |(v.value : ℝ) - Real.arcsin x.value| <
          10 ^ (Int.log 10 |Real.arcsin x.value| + 1 - p.digits))) ∧
    (∀ v, arccos x p = .ok v → (v.value = 0 ↔ x.value = 1) ∧
      |(v.value : ℝ) - Real.arccos x.value| <
        10 ^ (Int.log 10 |Real.arccos x.value| + 1 - p.digits)) :=
  ⟨fun _ hv => (arctan_faithful hp hx).of_ok hv, fun _ hv => (arcsin_faithful hp hx).of_ok hv,
    fun _ hv => (arccos_faithful hp hx).of_ok hv⟩

theorem inverse_trig_faithful_half :
    half.Tame ∧ (⟨10, by decide, by decide⟩ : Precision).digits ≤ Gateway.maxPrecision ∧
      ((∀ v, arctan half ⟨10, by decide, by decide⟩ = .ok v → (v.value = 0 ↔ half.value = 0) ∧
        |(v.value : ℝ) - Real.arctan half.value| <
          10 ^ (Int.log 10 |Real.arctan half.value| + 1 - 10)) ∧
      (∀ v, arcsin half ⟨10, by decide, by decide⟩ = .ok v → (v.value = 0 ↔ half.value = 0) ∧
        (1 / 10 ^ min (10 + 5) 15 ≤ 1 - |(half.value : ℝ)| ∨ |(half.value : ℝ)| = 1 →
          |(v.value : ℝ) - Real.arcsin half.value| <
            10 ^ (Int.log 10 |Real.arcsin half.value| + 1 - 10))) ∧
      (∀ v, arccos half ⟨10, by decide, by decide⟩ = .ok v → (v.value = 0 ↔ half.value = 1) ∧
        |(v.value : ℝ) - Real.arccos half.value| <
          10 ^ (Int.log 10 |Real.arccos half.value| + 1 - 10))) :=
  ⟨tame_half, by decide, inverse_trig_faithful tame_half (by decide)⟩

end Calculator.Elementary
