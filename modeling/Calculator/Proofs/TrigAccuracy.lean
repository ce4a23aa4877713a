import Calculator.Proofs.AngleReduction
import Calculator.Proofs.TrigSeries
/-!
Accuracy of the sine, cosine and tangent. The working precision carries ten guard digits and one
more for each place of `x` above the units, so the reduction by whole turns costs at most fifteen
units of the `(p + 9)`-th decimal place, and the series, whose additions round sums of about the
value's size, sixteen hundred more and a thousandth of the value in units of the `p`-th. The sine
and the cosine are therefore roundings to `p` digits of a value within `2 · 10⁻⁶ + |f x| / 1000`
units of the `p`-th decimal place: in absolute terms, not relative ones, so near a zero of the
function the result need not be faithful. Where the function is at least `10⁻⁵` in size the
result is within a unit of its `p`-th significant digit, and so is the tangent where the sine and
the cosine are at least `10⁻⁴`.
-/

open Except

namespace Calculator.Elementary

open Decimal

theorem roundSig_one {p : ℕ} (hp : 1 ≤ p) : roundSig 1 p = 1 := by
  have hunit : ((10 ^ (p - 1) : ℤ) : ℚ) * 10 ^ (1 - (p : ℤ)) = 1 := by
    push_cast
    rw [← zpow_natCast, ← zpow_add₀ (by norm_num), Nat.cast_sub hp]
    norm_num
  unfold roundSig
  rw [abs_one, Int.log_one_right, zero_add]
  conv_lhs => rw [← hunit]
  rw [roundAt_intCast_mul, hunit]

theorem roundingError_mul_pow {p w : Precision} {m : ℕ} (hw : w.digits = p.digits + 10 + m) :
    roundingError w * 10 ^ m = 10 ^ (-(p.digits : ℤ) - 9) := by
  rw [roundingError_def, ← zpow_natCast, ← zpow_add₀ (by norm_num), hw]
  congr 1
  push_cast
  ring

/-- A series value within `1600 + (F + 1) |f r|` roundings of `f r`, at a reduced angle `r` with
`f r` within `15 ε 10 ^ m` of `f x`, is within `2 · 10⁻⁶ + |f x| / 1000` units of the `p`-th
decimal place of `f x`. -/
theorem abs_sub_trig_le {p w : Precision} {m : ℕ} (hw : w.digits = p.digits + 10 + m)
    (hw' : w.digits ≤ 100000) {s fr fx : ℝ}
    (hs : |s - fr| ≤ roundingError w * (1600 + (seriesFuel w + 1) * |fr|))
    (hred : |fr - fx| ≤ 15 * roundingError w * 10 ^ m) :
    |s - fx| ≤ 10 ^ (-(p.digits : ℤ) - 6) * (2 + 1000 * |fx|) := by
  set v : ℝ := 10 ^ (-(p.digits : ℤ))
  have hv0 : 0 < v := by positivity
  have hv1 : v ≤ 1 := zpow_le_one_of_nonpos₀ (by norm_num) (by omega)
  have hε := roundingError_pos w
  -- one unit of the working place is `10 ^ (-p - 9)`, and `F + 1` of them at most `10 ^ (-p - 3)`
  have hu : roundingError w * 10 ^ m = v / 10 ^ 9 := by
    rw [roundingError_mul_pow hw, zpow_sub₀ (by norm_num), zpow_ofNat]
  have hεu : roundingError w ≤ v / 10 ^ 9 := by
    rw [← hu]
    exact le_mul_of_one_le_right hε.le (one_le_pow₀ (by norm_num))
  have hF : ((seriesFuel w : ℝ) + 1) * roundingError w ≤ v / 10 ^ 3 := by
    refine (fuel_mul_roundingError_le hw').trans ?_
    rw [show v / 10 ^ 3 = 10 ^ (-(p.digits : ℤ) - 3) by rw [zpow_sub₀ (by norm_num), zpow_ofNat]]
    exact zpow_le_zpow_right₀ (by norm_num) (by omega)
  have hsix : (10 : ℝ) ^ (-(p.digits : ℤ) - 6) = v / 10 ^ 6 := by
    rw [zpow_sub₀ (by norm_num), zpow_ofNat]
  have hfr : |fr| ≤ |fx| + v / 10 ^ 9 * 15 := by
    have := abs_sub_abs_le_abs_sub fr fx
    linarith
  have hrel : ((seriesFuel w : ℝ) + 1) * roundingError w * |fr| ≤
      v / 10 ^ 3 * (|fx| + v / 10 ^ 9 * 15) :=
    mul_le_mul hF hfr (abs_nonneg fr) (by positivity)
  have hvv : v / 10 ^ 3 * (v / 10 ^ 9 * 15) ≤ v / 10 ^ 9 := by nlinarith
  have := abs_sub_le s fr fx
  rw [hsix]
  nlinarith

theorem trigPrecision_eq {x : Decimal} (he : x.exponent ≤ trigLimit) {p : Precision}
    (hp : p.digits ≤ Gateway.maxPrecision) :
    ∃ w : Precision, trigPrecision x p = .ok w ∧
      w.digits = p.digits + 10 + (max (x.exponent + 1) 0).toNat := by
  refine ⟨_, if_neg (not_lt.mpr he), ?_⟩
  rw [Precision.widen_digits_of_le]
  · unfold guardDigits
    ring
  · unfold guardDigits Precision.digitsLimit
    unfold trigLimit at he
    unfold Gateway.maxPrecision at hp
    omega

/-- The sine, cosine and tangent first reduce a nonzero `x` by whole turns at the working
precision. The reduced angle is a working value within `16/5` of zero, and a series value close
enough to its sine, or cosine, is within `2 · 10⁻⁶ + |f x| / 1000` units of the `p`-th decimal
place of that of `x`. -/
theorem trig_reduced_meets {x : Decimal} (hx : x.Tame) (hx0 : x.mantissa ≠ 0)
    (he : x.exponent ≤ trigLimit) {p : Precision} (hp : p.digits ≤ Gateway.maxPrecision)
    {β : Type} {P : β → Prop} (cont : Precision → Decimal → Except Fault β)
    (hcont : ∀ w r, 11 ≤ w.digits → w.digits ≤ 100000 → p.digits + 10 ≤ w.digits → r.Tame →
      |(r.value : ℝ)| ≤ 16 / 5 →
      (∀ s : ℝ, |s - Real.sin r.value| ≤
          roundingError w * (1600 + (seriesFuel w + 1) * |Real.sin r.value|) →
        |s - Real.sin x.value| ≤ 10 ^ (-(p.digits : ℤ) - 6) * (2 + 1000 * |Real.sin x.value|)) →
      (∀ s : ℝ, |s - Real.cos r.value| ≤
          roundingError w * (1600 + (seriesFuel w + 1) * |Real.cos r.value|) →
        |s - Real.cos x.value| ≤ 10 ^ (-(p.digits : ℤ) - 6) * (2 + 1000 * |Real.cos x.value|)) →
      (cont w r).Meets P (fun _ => True)) :
    (do
      let w ← trigPrecision x p
      let r ← reduceAngle x w
      cont w r).Meets P (fun _ => True) := by
  obtain ⟨w, hwp, hw⟩ := trigPrecision_eq he hp
  set m := (max (x.exponent + 1) 0).toNat
  have hm : m ≤ 1001 := by unfold trigLimit at he; omega
  have hw11 : 11 ≤ w.digits := by have := p.digits_pos; omega
  have hw' : w.digits ≤ 100000 := by unfold Gateway.maxPrecision at hp; omega
  -- `x` lies below `10 ^ m`, so `ε |x|` is at most `10 ^ (-p - 9)`
  have hxm : |(x.value : ℝ)| ≤ 10 ^ m := by
    have h := (Rat.cast_lt (K := ℝ)).mpr (lt_zpow_exponent hx hx0)
    push_cast at h
    refine h.le.trans ?_
    rw [← zpow_natCast]
    exact zpow_le_zpow_right₀ (by norm_num) (by omega)
  have hε := roundingError_pos w
  have hεx : roundingError w * |(x.value : ℝ)| ≤ roundingError w * 10 ^ m :=
    mul_le_mul_of_nonneg_left hxm hε.le
  have hsmall : roundingError w * 10 ^ m ≤ 1 / 10 ^ 10 := by
    rw [roundingError_mul_pow hw]
    have : (10 : ℝ) ^ (-(p.digits : ℤ) - 9) ≤ 10 ^ (-10 : ℤ) :=
      zpow_le_zpow_right₀ (by norm_num) (by have := p.digits_pos; omega)
    norm_num at this ⊢
    exact this
  refine meets_bind (show (trigPrecision x p).Meets (· = w) (fun _ => True) by rw [hwp]; rfl)
    fun w' hw0 => ?_
  rw [hw0]
  refine meets_bind (reduceAngle_spec hx hw11 hw' (hεx.trans hsmall)) fun r hr => ?_
  obtain ⟨hrt, hr1, q, hq⟩ := hr
  -- the reduction costs at most `15 ε 10 ^ m`
  have hred : roundingError w * (3 * |(x.value : ℝ)| + 12) ≤ 15 * roundingError w * 10 ^ m := by
    have h1 : (1 : ℝ) ≤ 10 ^ m := one_le_pow₀ (by norm_num)
    nlinarith
  have hturns : |(r.value : ℝ) - (x.value - q * (2 * Real.pi))| ≤ 15 * roundingError w * 10 ^ m :=
    hq.trans hred
  refine hcont w r hw11 hw' (by omega) hrt hr1 (fun s hs => abs_sub_trig_le hw hw' hs ?_)
    (fun s hs => abs_sub_trig_le hw hw' hs ?_)
  · have := Real.abs_sin_sub_sin_le r.value (x.value - q * (2 * Real.pi))
    rw [Real.sin_sub_int_mul_two_pi] at this
    linarith
  · have := Real.abs_cos_sub_cos_le r.value (x.value - q * (2 * Real.pi))
    rw [Real.cos_sub_int_mul_two_pi] at this
    linarith

theorem abs_div_sub_div_le_of_rel {S C a b ρ : ℝ} (hb : b ≠ 0) (hρ : ρ ≤ 1 / 3)
    (hS : |S - a| ≤ ρ * |a|) (hC : |C - b| ≤ ρ * |b|) : |S / C - a / b| ≤ 3 * ρ * |a / b| := by
  have hb0 : 0 < |b| := abs_pos.mpr hb
  have hρ0 : 0 ≤ ρ := by
    by_contra hneg
    have := (abs_nonneg (C - b)).trans hC
    nlinarith
  have hCb : 2 / 3 * |b| ≤ |C| := by
    have := abs_sub_abs_le_abs_sub b C
    rw [abs_sub_comm] at this
    nlinarith
  have hC0 : 0 < |C| := by linarith
  have hnum : |S * b - C * a| ≤ 2 * ρ * (|a| * |b|) := by
    calc |S * b - C * a| = |(S - a) * b - (C - b) * a| := by congr 1; ring
      _ ≤ |S - a| * |b| + |C - b| * |a| := by rw [← abs_mul, ← abs_mul]; exact abs_sub _ _
      _ ≤ ρ * |a| * |b| + ρ * |b| * |a| := by gcongr
      _ = 2 * ρ * (|a| * |b|) := by ring
  rw [div_sub_div _ _ (abs_pos.mp hC0) hb, abs_div, abs_mul, abs_div, div_le_iff₀ (by positivity)]
  calc |S * b - C * a| ≤ 2 * ρ * (|a| * |b|) := hnum
    _ ≤ 3 * ρ * |a| * (2 / 3 * |b|) := by ring_nf; rfl
    _ ≤ 3 * ρ * |a| * |C| := by gcongr
    _ = 3 * ρ * (|a| / |b|) * (|C| * |b|) := by field_simp

def RoundsNear (p : Precision) (y : ℝ) (v : Decimal) : Prop :=
  ∃ s : ℚ, |(s : ℝ) - y| ≤ ((10 : ℕ) : ℝ) ^ (-(p.digits : ℤ) - 2) ∧ v.value = roundSig s p.digits

theorem RoundsNear.of_close {p : Precision} {y : ℝ} {s : ℚ} {v : Decimal} (hy : |y| ≤ 1)
    (hs : |(s : ℝ) - y| ≤ 10 ^ (-(p.digits : ℤ) - 6) * (2 + 1000 * |y|))
    (hv : v.value = roundSig s p.digits) : RoundsNear p y v := by
  refine ⟨s, ?_, hv⟩
  rw [Nat.cast_ofNat]
  have hfour : (10 : ℝ) ^ (-(p.digits : ℤ) - 2) = 10 ^ (-(p.digits : ℤ) - 6) * 10000 := by
    rw [show -(p.digits : ℤ) - 2 = (-(p.digits : ℤ) - 6) + 4 by ring, zpow_add₀ (by norm_num)]
    norm_num
  have hu : (0 : ℝ) < 10 ^ (-(p.digits : ℤ) - 6) := by positivity
  rw [hfour]
  nlinarith

/-- Where `|y| ≥ δ`, a value within `2 · 10⁻⁶ + |y| / 1000` units of the `p`-th decimal place of
`y` is within `2 / (10⁶ δ) + 1 / 1000` of them relatively. -/
theorem abs_sub_le_rel_of_close {p : ℕ} {S y δ : ℝ} (hδ : 0 < δ) (hy : δ ≤ |y|)
    (h : |S - y| ≤ 10 ^ (-(p : ℤ) - 6) * (2 + 1000 * |y|)) :
    |S - y| ≤ (2 / (10 ^ 6 * δ) + 1 / 1000) * 10 ^ (-(p : ℤ)) * |y| := by
  have hu : (0 : ℝ) < 10 ^ (-(p : ℤ)) := by positivity
  have hfloor : 2 / 10 ^ 6 ≤ 2 / (10 ^ 6 * δ) * |y| := by
    rw [div_mul_eq_mul_div, le_div_iff₀ (by positivity)]
    nlinarith
  rw [zpow_sub₀ (by norm_num), zpow_ofNat] at h
  nlinarith [mul_le_mul_of_nonneg_left hfloor hu.le]

/-- A value within `2 · 10⁻⁶ + |y| / 1000` units of the `p`-th decimal place of `y` rounds to a
faithful `y` wherever `|y| ≥ 10⁻⁵`. -/
theorem faithful_of_close {p : Precision} {y : ℝ} {s : ℚ} (hy : 1 / 10 ^ 5 ≤ |y|)
    (hs : |(s : ℝ) - y| ≤ 10 ^ (-(p.digits : ℤ) - 6) * (2 + 1000 * |y|)) :
    |(roundSig s p.digits : ℝ) - y| < 10 ^ (Int.log 10 |y| + 1 - p.digits) := by
  have hy0 : y ≠ 0 := abs_pos.mp (lt_of_lt_of_le (by norm_num) hy)
  refine abs_roundSig_sub_lt p.digits_pos hy0 ?_ (abs_sub_le_rel_of_close (by norm_num) hy hs)
  have hu : (0 : ℝ) < 10 ^ (-(p.digits : ℤ)) := by positivity
  rw [show (2 : ℝ) / (10 ^ 6 * (1 / 10 ^ 5)) + 1 / 1000 = 201 / 1000 by norm_num]
  linarith

section Circular

variable {x : Decimal} (hx : x.Tame) (he : x.exponent ≤ trigLimit) {p : Precision}
  (hp : p.digits ≤ Gateway.maxPrecision)
include hx he hp

theorem sin_rounds_close : (sin x p).Meets (fun v => ∃ s : ℚ,
    |(s : ℝ) - Real.sin x.value| ≤ 10 ^ (-(p.digits : ℤ) - 6) * (2 + 1000 * |Real.sin x.value|) ∧
      v.value = roundSig s p.digits) (fun _ => True) := by
  unfold sin
  split_ifs with hx0
  · refine meets_pure ⟨0, ?_, by rw [value_zero, roundSig_zero]⟩
    rw [value_eq_zero_iff.mpr hx0, Rat.cast_zero, Real.sin_zero, sub_zero, abs_zero]
    positivity
  refine trig_reduced_meets hx hx0 he hp (fun w r => do finish (← sinSeries r w) p)
    fun w r hw hw' _ hr hr1 hsin _ => ?_
  refine meets_bind (sinSeries_spec hr hr1 hw hw') fun s hs => ?_
  refine (finish_spec hs.1 (by unfold Gateway.maxPrecision at hp; omega)).mono
    (fun v hv => ⟨s.value, hsin _ hs.2, hv.2⟩) fun _ _ => trivial

theorem cos_rounds_close : (cos x p).Meets (fun v => ∃ s : ℚ,
    |(s : ℝ) - Real.cos x.value| ≤ 10 ^ (-(p.digits : ℤ) - 6) * (2 + 1000 * |Real.cos x.value|) ∧
      v.value = roundSig s p.digits) (fun _ => True) := by
  unfold cos
  split_ifs with hx0
  · refine meets_pure ⟨1, ?_, by rw [value_one, roundSig_one p.digits_pos]⟩
    rw [value_eq_zero_iff.mpr hx0, Rat.cast_zero, Real.cos_zero, Rat.cast_one, sub_self, abs_zero]
    positivity
  refine trig_reduced_meets hx hx0 he hp (fun w r => do finish (← cosSeries r w) p)
    fun w r hw hw' _ hr hr1 _ hcos => ?_
  refine meets_bind (cosSeries_spec hr hr1 hw hw') fun c hc => ?_
  refine (finish_spec hc.1 (by unfold Gateway.maxPrecision at hp; omega)).mono
    (fun v hv => ⟨c.value, hcos _ hc.2, hv.2⟩) fun _ _ => trivial

/-- Where the sine and the cosine are at least `10⁻⁴` in size, the tangent is faithful. -/
theorem tan_faithful (hsin : 1 / 10 ^ 4 ≤ |Real.sin x.value|)
    (hcos : 1 / 10 ^ 4 ≤ |Real.cos x.value|) :
    (tan x p).Meets (fun v => |(v.value : ℝ) - Real.tan x.value| <
      10 ^ (Int.log 10 |Real.tan x.value| + 1 - p.digits)) (fun _ => True) := by
  have hp20 : p.digits < 2 ^ 20 := by unfold Gateway.maxPrecision at hp; omega
  unfold tan
  split_ifs with hx0
  · rw [value_eq_zero_iff.mpr hx0, Rat.cast_zero, Real.sin_zero, abs_zero] at hsin
    norm_num at hsin
  refine trig_reduced_meets hx hx0 he hp (fun w r => do
      let s ← sinSeries r w
      let c ← cosSeries r w
      finish (← s.div c w) p) fun w r hw hw' hwp hr hr1 hsr hcr => ?_
  refine meets_bind (sinSeries_spec hr hr1 hw hw') fun s hs => ?_
  refine meets_bind (cosSeries_spec hr hr1 hw hw') fun c hc => ?_
  by_cases hc0 : c.mantissa = 0
  · rw [div_zero _ hc0]
    trivial
  refine meets_bind ((div_spec hs.1 hc.1 hc0 (by omega)).mono (fun q h => h) fun _ _ => trivial)
    fun q hq => ?_
  have hu0 : (0 : ℝ) < 10 ^ (-(p.digits : ℤ)) := by positivity
  have hu1 : (10 : ℝ) ^ (-(p.digits : ℤ)) ≤ 1 := zpow_le_one_of_nonpos₀ (by norm_num) (by omega)
  -- at least `10⁻⁴` in size, each is within `21/1000` units of the `p`-th place relatively
  have hS := abs_sub_le_rel_of_close (by norm_num) hsin (hsr _ hs.2)
  have hC := abs_sub_le_rel_of_close (by norm_num) hcos (hcr _ hc.2)
  rw [show (2 : ℝ) / (10 ^ 6 * (1 / 10 ^ 4)) + 1 / 1000 = 21 / 1000 by norm_num] at hS hC
  have hcos0 : Real.cos x.value ≠ 0 := abs_pos.mp (lt_of_lt_of_le (by norm_num) hcos)
  have hquot := abs_div_sub_div_le_of_rel hcos0 (by nlinarith) hS hC
  rw [← Real.tan_eq_sin_div_cos] at hquot
  have hround :
      |(q.value : ℝ) - s.value / c.value| ≤ roundingError w * |(s.value : ℝ) / c.value| := by
    have := abs_sub_of_rounds hq.2
    push_cast at this
    exact this
  -- one rounding and the quotient's `63/1000` units stay below a quarter unit of the `p`-th digit
  have hε0 := roundingError_pos w
  have hε : roundingError w ≤ 10 ^ (-(p.digits : ℤ)) / 10 ^ 9 := by
    rw [roundingError_def]
    calc (10 : ℝ) ^ (1 - (w.digits : ℤ)) ≤ 10 ^ (-(p.digits : ℤ) - 9) :=
          zpow_le_zpow_right₀ (by norm_num) (by omega)
      _ = 10 ^ (-(p.digits : ℤ)) / 10 ^ 9 := by rw [zpow_sub₀ (by norm_num), zpow_ofNat]
  refine (finish_faithful_iff hq.1 hp20 ?_ (abs_sub_le_of_rel_trans hround hquot hε0.le)).mono
    (fun v hv => hv.2) fun _ _ => trivial
  nlinarith

end Circular

/-- The circular functions of a working value of exponent at most `1000`, at every precision the
calculator takes. The sine and the cosine are roundings to `p` digits of values within a hundredth
of a unit of the `p`-th decimal place, and faithful where the function is at least `10⁻⁵` in
size; the tangent is faithful where the sine and the cosine are at least `10⁻⁴`. -/
theorem trig_faithful_away_from_zeros {x : Decimal} (hx : x.Tame) (he : x.exponent ≤ trigLimit)
    {p : Precision} (hp : p.digits ≤ Gateway.maxPrecision) :
    (∀ v, sin x p = .ok v → RoundsNear p (Real.sin x.value) v ∧
      (1 / 10 ^ 5 ≤ |Real.sin x.value| →
        |(v.value : ℝ) - Real.sin x.value| < 10 ^ (Int.log 10 |Real.sin x.value| + 1 - p.digits))) ∧
    (∀ v, cos x p = .ok v → RoundsNear p (Real.cos x.value) v ∧
      (1 / 10 ^ 5 ≤ |Real.cos x.value| →
        |(v.value : ℝ) - Real.cos x.value| < 10 ^ (Int.log 10 |Real.cos x.value| + 1 - p.digits))) ∧
    (∀ v, tan x p = .ok v → 1 / 10 ^ 4 ≤ |Real.sin x.value| → 1 / 10 ^ 4 ≤ |Real.cos x.value| →
      |(v.value : ℝ) - Real.tan x.value| <
        10 ^ (Int.log 10 |Real.tan x.value| + 1 - p.digits)) := by
  refine ⟨fun v hv => ?_, fun v hv => ?_,
    fun v hv hsin hcos => (tan_faithful hx he hp hsin hcos).of_ok hv⟩
  · obtain ⟨s, hs, hvs⟩ := (sin_rounds_close hx he hp).of_ok hv
    exact ⟨RoundsNear.of_close (Real.abs_sin_le_one _) hs hvs,
      fun hy => hvs ▸ faithful_of_close hy hs⟩
  · obtain ⟨s, hs, hvs⟩ := (cos_rounds_close hx he hp).of_ok hv
    exact ⟨RoundsNear.of_close (Real.abs_cos_le_one _) hs hvs,
      fun hy => hvs ▸ faithful_of_close hy hs⟩

/-- At `x = 6.28318530717958647692`, the working `2π` at twenty-one digits, the reduction leaves
exactly zero and the sine answers `0` at ten digits, though `sin x` is negative: below `10⁻¹²` in
size, as the absolute bound allows, but not faithful. -/
theorem sin_at_working_two_pi :
    sin ⟨628318530717958647692, 20⟩ ⟨10, by decide, by decide⟩ = .ok zero ∧
      Real.sin (⟨628318530717958647692, 20⟩ : Decimal).value < 0 ∧
      |Real.sin (⟨628318530717958647692, 20⟩ : Decimal).value| ≤ 10 ^ (-12 : ℤ) := by
  have hsin : sin ⟨628318530717958647692, 20⟩ ⟨10, by decide, by decide⟩ = .ok zero := by
    with_unfolding_all decide
  obtain ⟨s, hs, hv⟩ := ((trig_faithful_away_from_zeros (tame_of_small (by decide) (by decide))
    (by with_unfolding_all decide) (p := ⟨10, by decide, by decide⟩) (by decide)).1 zero hsin).1
  rw [value_zero, eq_comm, roundSig_eq_zero_iff (by decide)] at hv
  rw [hv, Rat.cast_zero, zero_sub, abs_neg] at hs
  refine ⟨hsin, ?_, by simpa using hs⟩
  have hxv : ((⟨628318530717958647692, 20⟩ : Decimal).value : ℝ) = 6.28318530717958647692 := by
    norm_num [value]
  rw [hxv, ← Real.sin_sub_two_pi]
  apply Real.sin_neg_of_neg_of_neg_pi_lt
  · linarith [Real.pi_gt_d20]
  · linarith [Real.pi_lt_d20]

end Calculator.Elementary
