import Calculator.Proofs.SqrtAccuracy
import Calculator.Proofs.SignedSeries
/-!
The arctangent's angle halvings. `a / (1 + √(1 + a²))` is `tan (θ / 2)` for `θ = arctan a`, the
half-angle formula `tan (θ/2) = sin θ / (1 + cos θ)`, which also gives
`arccos x = 2 arctan √((1 - x)/(1 + x))`. On positive values `arctan` keeps relative tolerances,
since `arctan c / c` decreases: `b · arctan c ≤ c · arctan b` for `b ≤ c`. Each halving rounds five
times (the square, two sums, the root and the quotient), so after `k` halvings `2 ^ k · arctan a`
is within `5 k` roundings of the angle it started from; each at least halves the value, so the
loop ends below a tenth well within its fuel.
-/

open Except

namespace Calculator.Elementary

open Decimal

/-! Bounds of the arctangent -/

theorem arctan_le_self {x : ℝ} (hx : 0 ≤ x) : Real.arctan x ≤ x := by
  have h := Real.le_tan (Real.arctan_nonneg.mpr hx) (Real.arctan_lt_pi_div_two x)
  rwa [Real.tan_arctan] at h

theorem abs_arctan_le (x : ℝ) : |Real.arctan x| ≤ |x| := by
  rcases le_total 0 x with hx | hx
  · rw [abs_of_nonneg hx, abs_of_nonneg (Real.arctan_nonneg.mpr hx)]
    exact arctan_le_self hx
  · rw [abs_of_nonpos hx, abs_of_nonpos (Real.arctan_le_zero.mpr hx), ← Real.arctan_neg]
    exact arctan_le_self (neg_nonneg.mpr hx)

theorem div_one_add_sq_le_arctan {x : ℝ} (hx : 0 ≤ x) : x / (1 + x ^ 2) ≤ Real.arctan x := by
  have h := Real.sin_le (by linarith [Real.arctan_nonneg.mpr hx] : 0 ≤ 2 * Real.arctan x)
  have hs : Real.sqrt (1 + x ^ 2) * Real.sqrt (1 + x ^ 2) = 1 + x ^ 2 :=
    Real.mul_self_sqrt (by positivity)
  rw [Real.sin_two_mul, Real.sin_arctan, Real.cos_arctan, mul_assoc, div_mul_div_comm, mul_one,
    hs] at h
  linarith

theorem abs_arctan_sub_le {a b : ℝ} (hab : 0 ≤ a * b) :
    |Real.arctan a - Real.arctan b| ≤ |a - b| / (1 + a * b) := by
  have hsub : Real.arctan a - Real.arctan b = Real.arctan ((a - b) / (1 + a * b)) := by
    rw [sub_eq_add_neg, ← Real.arctan_neg, Real.arctan_add (by nlinarith)]
    congr 1
    ring_nf
  rw [hsub, ← abs_of_pos (by positivity : (0 : ℝ) < 1 + a * b), ← abs_div,
    abs_of_pos (by positivity : (0 : ℝ) < 1 + a * b)]
  exact abs_arctan_le _

theorem mul_arctan_le {b c : ℝ} (hb : 0 < b) (hbc : b ≤ c) :
    b * Real.arctan c ≤ c * Real.arctan b := by
  have hc : 0 < c := hb.trans_le hbc
  have hdiff := abs_arctan_sub_le (le_of_lt (mul_pos hc hb))
  rw [abs_of_nonneg (sub_nonneg.mpr (Real.arctan_le_arctan_iff.mpr hbc)),
    abs_of_nonneg (sub_nonneg.mpr hbc)] at hdiff
  have hlow := div_one_add_sq_le_arctan hb.le
  have h1 : (c - b) / (1 + c * b) ≤ (c - b) / (1 + b ^ 2) := by
    apply div_le_div_of_nonneg_left (sub_nonneg.mpr hbc) (by positivity)
    nlinarith
  have h2 : (c - b) / (1 + b ^ 2) * b ≤ (c - b) * Real.arctan b := by
    rw [div_mul_eq_mul_div, mul_div_assoc]
    exact mul_le_mul_of_nonneg_left hlow (sub_nonneg.mpr hbc)
  have h3 := mul_le_mul_of_nonneg_left (hdiff.trans h1) hb.le
  nlinarith

end Calculator.Elementary

namespace Calculator

theorem Near.arctan {a b t : ℝ} (h : Near a b t) : Near (Real.arctan a) (Real.arctan b) t := by
  have ha := h.1
  have hb := h.2.1
  have ht := h.nonneg
  obtain ⟨hlo, hhi⟩ := (Near.iff ha hb).mp h
  have hAb := Real.arctan_pos.mpr hb
  refine (Near.iff (Real.arctan_pos.mpr ha) hAb).mpr ⟨?_, ?_⟩
  · -- `arctan a ≥ arctan (b e^-t) ≥ e^-t arctan b`
    have hbt : 0 < b * Real.exp (-t) := by positivity
    have hmono := Real.arctan_le_arctan_iff.mpr hlo
    have hratio := Elementary.mul_arctan_le (c := b) hbt
      (mul_le_of_le_one_right hb.le (Real.exp_le_one_iff.mpr (neg_nonpos.mpr ht)))
    rw [mul_assoc] at hratio
    have hshrink := le_of_mul_le_mul_left hratio hb
    linarith
  · -- `arctan a ≤ arctan (b e^t) ≤ e^t arctan b`
    have hmono := Real.arctan_le_arctan_iff.mpr hhi
    have hratio := Elementary.mul_arctan_le hb (le_mul_of_one_le_right hb.le (Real.one_le_exp ht))
    rw [mul_assoc] at hratio
    have hgrow := le_of_mul_le_mul_left hratio hb
    linarith

end Calculator

namespace Calculator.Elementary

open Decimal

/-! The half-angle formula -/

theorem arctan_sin_div_one_add_cos {θ : ℝ} (h1 : -Real.pi < θ) (h2 : θ < Real.pi) :
    Real.arctan (Real.sin θ / (1 + Real.cos θ)) = θ / 2 := by
  have hcos : 0 < Real.cos (θ / 2) := Real.cos_pos_of_mem_Ioo ⟨by linarith, by linarith⟩
  have hθ : θ = 2 * (θ / 2) := by ring
  rw [hθ, Real.sin_two_mul, Real.cos_two_mul, show 1 + (2 * Real.cos (θ / 2) ^ 2 - 1) =
    2 * Real.cos (θ / 2) ^ 2 by ring, show 2 * Real.sin (θ / 2) * Real.cos (θ / 2) /
    (2 * Real.cos (θ / 2) ^ 2) = Real.sin (θ / 2) / Real.cos (θ / 2) by field_simp,
    ← Real.tan_eq_sin_div_cos, ← hθ, Real.arctan_tan (by linarith) (by linarith)]

theorem arctan_halve (a : ℝ) :
    Real.arctan (a / (1 + Real.sqrt (1 + a ^ 2))) = Real.arctan a / 2 := by
  have hs : 0 < Real.sqrt (1 + a ^ 2) := Real.sqrt_pos.mpr (by positivity)
  have h := arctan_sin_div_one_add_cos (θ := Real.arctan a)
    (by linarith [Real.neg_pi_div_two_lt_arctan a, Real.pi_pos])
    (by linarith [Real.arctan_lt_pi_div_two a, Real.pi_pos])
  rwa [Real.sin_arctan, Real.cos_arctan,
    show a / Real.sqrt (1 + a ^ 2) / (1 + 1 / Real.sqrt (1 + a ^ 2)) =
      a / (1 + Real.sqrt (1 + a ^ 2)) by field_simp; ring] at h

theorem two_mul_arctan_sqrt {x : ℝ} (h1 : -1 < x) (h2 : x ≤ 1) :
    2 * Real.arctan (Real.sqrt ((1 - x) / (1 + x))) = Real.arccos x := by
  have hθ0 := Real.arccos_nonneg x
  have hθπ : Real.arccos x < Real.pi := Real.arccos_lt_pi.mpr h1
  have h := arctan_sin_div_one_add_cos (θ := Real.arccos x) (by linarith [Real.pi_pos]) hθπ
  have hx1 : 0 < 1 + x := by linarith
  rw [Real.sin_arccos, Real.cos_arccos h1.le h2,
    show 1 - x ^ 2 = (1 - x) / (1 + x) * (1 + x) ^ 2 by field_simp; ring,
    Real.sqrt_mul (div_nonneg (by linarith) hx1.le), Real.sqrt_sq hx1.le,
    mul_div_assoc, div_self hx1.ne', mul_one] at h
  linarith

/-! The halving loop -/

theorem value_tenth : tenth.value = 1 / 10 := by
  simp [value, tenth]

theorem tame_tenth : tenth.Tame := tame_of_small (by decide) (by decide)

structure Halving (θ : ℝ) (w : Precision) (a : Decimal) (k : ℕ) : Prop where
  tame : a.Tame
  pos : 0 < a.value
  le : (a.value : ℝ) ≤ 2 * (51 / 100) ^ k
  near : Near (2 ^ k * Real.arctan a.value) θ (5 * k * roundingError w)

theorem one_add_near {z v : Decimal} {y s : ℝ} {w : Precision} (hs : 0 ≤ s)
    (hv : Near v.value y s) (hz : z.value = roundSig (one.value + v.value) w.digits) :
    Near z.value (1 + y) (s + roundingError w) := by
  have hpos : (0 : ℚ) < one.value + v.value := by
    rw [value_one]
    have : (0 : ℚ) < v.value := by exact_mod_cast hv.1
    linarith
  have hsum : Near ((one.value + v.value : ℚ) : ℝ) (1 + y) s := by
    rw [Rat.cast_add, value_one, Rat.cast_one]
    exact ((Near.refl one_pos).mono hs).add hv
  exact ((near_of_rounds hpos hz).trans hsum).mono (by linarith)

theorem roundingError_le_tiny {w : Precision} (hw : 11 ≤ w.digits) :
    roundingError w ≤ 1 / 10000000000 := by
  have := roundingError_le_of_eleven hw
  norm_num at this
  linarith

variable {θ : ℝ} {w : Precision} (hw : 11 ≤ w.digits) (hw' : w.digits < 2 ^ 20)
include hw hw'

/-- One halving `a ↦ a / (1 + √(1 + a²))` keeps the state, one step further. -/
theorem halving_step {a : Decimal} {k : ℕ} (hs : Halving θ w a k) {β : Type} {P : β → Prop}
    (cont : Decimal → Except Fault β)
    (hcont : ∀ a', Halving θ w a' (k + 1) → (cont a').Meets P (fun _ => True)) :
    (do
      let square ← a.mul a w
      let s ← one.add square w
      let root ← sqrt s w
      let d ← one.add root w
      let a' ← a.div d w
      cont a').Meets P (fun _ => True) := by
  have hε := roundingError_pos w
  have hε10 := roundingError_le_tiny hw
  have hA : (0 : ℝ) < a.value := by exact_mod_cast hs.pos
  refine meets_bind ((mul_spec hs.tame hs.tame hw').mono (fun t h => h) fun _ _ => trivial)
    fun square hsq => ?_
  have hsqN : Near square.value ((a.value : ℝ) ^ 2) (roundingError w) := by
    have := near_of_rounds (mul_pos hs.pos hs.pos) hsq.2
    rwa [Rat.cast_mul, ← sq] at this
  refine meets_bind ((add_spec tame_one hsq.1 hw').mono (fun t h => h) fun _ _ => trivial)
    fun s hs1 => ?_
  have hsN := one_add_near hε.le hsqN hs1.2
  refine meets_bind (sqrt_near hs1.1 (by exact_mod_cast hsN.1) hw') fun root hroot => ?_
  have hrootN : Near root.value (Real.sqrt (1 + (a.value : ℝ) ^ 2)) (3 * roundingError w) :=
    (hroot.2.trans hsN.sqrt).mono (by linarith)
  refine meets_bind ((add_spec tame_one hroot.1 hw').mono (fun t h => h) fun _ _ => trivial)
    fun d hd => ?_
  have hdN := one_add_near (by linarith) hrootN hd.2
  have hd0 : d.mantissa ≠ 0 := fun h => by
    have := hdN.1
    rw [value_eq_zero_iff.mpr h, Rat.cast_zero] at this
    exact lt_irrefl 0 this
  refine meets_bind ((div_spec hs.tame hd.1 hd0 hw').mono (fun t h => h) fun _ _ => trivial)
    fun a' ha' => hcont a' ?_
  -- the quotient is within five roundings of `tan (θ_k / 2)`
  set x : ℝ := a.value / (1 + Real.sqrt (1 + (a.value : ℝ) ^ 2))
  have hq : (0 : ℚ) < a.value / d.value := div_pos hs.pos (by exact_mod_cast hdN.1)
  have ha'N : Near a'.value x (5 * roundingError w) := by
    have hdiv : Near ((a.value / d.value : ℚ) : ℝ) x (0 + (3 * roundingError w + roundingError w)) := by
      rw [Rat.cast_div]
      exact (Near.refl hA).div hdN
    exact ((near_of_rounds hq ha'.2).trans hdiv).mono (by linarith)
  have hx : x ≤ a.value / 2 := by
    have : 1 ≤ Real.sqrt (1 + (a.value : ℝ) ^ 2) := Real.one_le_sqrt.mpr (by nlinarith)
    exact div_le_div_of_nonneg_left hA.le (by norm_num) (by linarith)
  have hxpos : 0 < x := by positivity
  refine ⟨ha'.1, by exact_mod_cast ha'N.1, ?_, ?_⟩
  · -- each halving at least halves, up to its roundings
    have hclose := ha'N.abs_sub_le (by linarith)
    have hup : (a'.value : ℝ) ≤ x * (1 + 10 * roundingError w) := by
      have := (abs_le.mp hclose).2
      linarith
    calc (a'.value : ℝ) ≤ a.value / 2 * (1 + 10 * roundingError w) := by
          have : (0 : ℝ) ≤ 1 + 10 * roundingError w := by linarith
          nlinarith
      _ ≤ 51 / 100 * a.value := by nlinarith
      _ ≤ 51 / 100 * (2 * (51 / 100) ^ k) := by linarith [hs.le]
      _ = 2 * (51 / 100) ^ (k + 1) := by ring
  · have harctan : Near (2 ^ (k + 1) * Real.arctan a'.value) (2 ^ k * Real.arctan a.value)
        (5 * roundingError w) := by
      have h := ha'N.arctan.mul_left (by positivity : (0 : ℝ) < 2 ^ (k + 1))
      rwa [arctan_halve, show (2 : ℝ) ^ (k + 1) * (Real.arctan a.value / 2) =
        2 ^ k * Real.arctan a.value by ring] at h
    refine (harctan.trans hs.near).mono (le_of_eq ?_)
    push_cast
    ring

theorem halveAngle_spec (fuel : ℕ) {a : Decimal} {count : ℕ} (hN : count + fuel = angleFuel)
    (hs : Halving θ w a count) :
    (halveAngle w fuel a count).Meets
      (fun r => Halving θ w r.1 r.2 ∧ (r.1.value : ℝ) ≤ 1 / 10 ∧ r.2 ≤ angleFuel)
      (fun _ => True) := by
  induction fuel generalizing a count with
  | zero =>
    obtain rfl : count = angleFuel := hN
    refine meets_ok ⟨hs, hs.le.trans ?_, le_rfl⟩
    unfold angleFuel
    norm_num
  | succ fuel ih =>
    unfold halveAngle
    refine meets_ite (fun _ => halving_step hw hw' hs _ fun a' ha' => ih (by omega) ha')
      fun hle => meets_ok ⟨hs, ?_, by omega⟩
    rw [lt_iff_of_tame tame_tenth hs.tame, value_tenth, not_lt] at hle
    have h := (Rat.cast_le (K := ℝ)).mpr hle
    push_cast at h
    exact h

end Calculator.Elementary
