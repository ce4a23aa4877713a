import Calculator.Proofs.LogAccuracy
/-!
Sums of series whose terms change sign. Relative errors do not compose across a sum of terms of
both signs, so the computed partial sums are tracked against the exact ones in absolute terms.
With `A` the sum of the first `n` sizes, `W` the same sizes weighted by their index, and each
computed term within `c k` roundings of its exact value, the computed sum of `n` terms lies within
`ε (c W + 2 n A)` of the exact one (`SignedSum`): the terms bring `c W`, and each addition one
rounding of a sum at most `A` in size, with room for the errors themselves. Where the partial sums
stay within a few terms of a value `F`, each addition rounds a sum of about `F` in size, and the
error grows by `ε F` a term instead (`add_settled`). A term that no longer shows in the sum is at
most `ε A / 25` in size, so a tail of a few times such a term is as small.
-/

namespace Calculator.Elementary

open Decimal Finset

structure SignedSum (t sgn : ℕ → ℝ) (c : ℝ) (w : Precision) (n : ℕ) (sum : Decimal) : Prop where
  tame : sum.Tame
  within : |(sum.value : ℝ) - ∑ k ∈ range n, sgn k * t k| ≤
    roundingError w * (c * ∑ k ∈ range n, k * t k + 2 * n * ∑ k ∈ range n, t k)

theorem signed_step_le {ε c A W T E D n : ℝ} (hε : 0 ≤ ε) (hc : 0 ≤ c) (hA : 0 ≤ A) (hT : 0 ≤ T)
    (hn : 0 ≤ n) (hW : W ≤ n * A) (hE : E ≤ ε * (c * W + 2 * n * A)) (hD : D ≤ c * n * ε * T)
    (hsmall : (c + 2) * (n + 1) * ε ≤ 1) :
    ε * (A + T + E + D) + E + D ≤ ε * (c * (W + n * T) + 2 * (n + 1) * (A + T)) := by
  have hED : E + D ≤ A + T :=
    calc E + D ≤ ε * (c * (n * A) + 2 * n * A) + c * n * ε * T := by
          have := mul_le_mul_of_nonneg_left hW hc
          nlinarith
      _ ≤ (c + 2) * (n + 1) * ε * (A + T) := by nlinarith [mul_nonneg hε hA, mul_nonneg hε hT]
      _ ≤ A + T := mul_le_of_le_one_left (by positivity) hsmall
  have hround : ε * (E + D) ≤ ε * (A + T) := mul_le_mul_of_nonneg_left hED hε
  nlinarith [mul_nonneg (mul_nonneg hε hn) hT]

theorem settled_step_le {ε c B F η A W T E D n : ℝ} (hε : 0 ≤ ε)
    (hE : E ≤ ε * (c * W + n * (F + η) + B * A)) (hD : D ≤ c * n * ε * T) (hED : E + D ≤ η) :
    ε * (F + B * T + E + D) + E + D ≤ ε * (c * (W + n * T) + (n + 1) * (F + η) + B * (A + T)) := by
  have := mul_le_mul_of_nonneg_left hED hε
  nlinarith

theorem abs_sub_partial_le {g : ℕ → ℝ} {f : ℝ} (hg : HasSum g f) (n : ℕ) {b r : ℝ} (hr0 : 0 ≤ r)
    (hr1 : r < 1) (hb : ∀ i, |g (i + n)| ≤ b * r ^ i) :
    |f - ∑ k ∈ range n, g k| ≤ b / (1 - r) := by
  have htail := (hasSum_nat_add_iff' n).mpr hg
  have hgeom := (hasSum_geometric_of_lt_one hr0 hr1).mul_left b
  rw [← div_eq_mul_inv] at hgeom
  refine abs_le.mpr ⟨?_, hasSum_le (fun i => (abs_le.mp (hb i)).2) htail hgeom⟩
  have := hasSum_le (fun i => neg_le_of_abs_le (hb i)) hgeom.neg htail
  linarith

section Sums

variable {t sgn : ℕ → ℝ} (ht : ∀ k, 0 ≤ t k) (hsgn : ∀ k, |sgn k| = 1)
include ht hsgn

theorem abs_signed_sum_le (n : ℕ) : |∑ k ∈ range n, sgn k * t k| ≤ ∑ k ∈ range n, t k := by
  refine (abs_sum_le_sum_abs _ _).trans (le_of_eq (sum_congr rfl fun k _ => ?_))
  rw [abs_mul, hsgn k, one_mul, abs_of_nonneg (ht k)]

omit hsgn in
theorem weighted_sum_le (n : ℕ) : ∑ k ∈ range n, (k : ℝ) * t k ≤ n * ∑ k ∈ range n, t k := by
  rw [mul_sum]
  exact sum_le_sum fun k hk =>
    mul_le_mul_of_nonneg_right (by exact_mod_cast (mem_range.mp hk).le) (ht k)

variable {c : ℝ} {w : Precision} {n : ℕ} {sum T : Decimal}

theorem SignedSum.add (hs : SignedSum t sgn c w n sum) (hT : T.Tame) (hc : 0 ≤ c)
    (hTerr : |(T.value : ℝ) - sgn n * t n| ≤ c * n * roundingError w * t n)
    (hsmall : (c + 2) * (n + 1) * roundingError w ≤ 1) (hw : w.digits < 2 ^ 20) :
    (sum.add T w).Meets (SignedSum t sgn c w (n + 1)) (fun _ => True) := by
  refine (add_spec hs.tame hT hw).mono (fun S hS => ⟨hS.1, ?_⟩) fun _ _ => trivial
  set ε := roundingError w
  set P := ∑ k ∈ range n, sgn k * t k
  set A := ∑ k ∈ range n, t k
  set W := ∑ k ∈ range n, (k : ℝ) * t k
  have hround := abs_sub_of_rounds hS.2
  have hP := abs_signed_sum_le ht hsgn n
  have hsgnt : |sgn n * t n| = t n := by rw [abs_mul, hsgn n, one_mul, abs_of_nonneg (ht n)]
  have hnext : |((sum.value + T.value : ℚ) : ℝ) - (P + sgn n * t n)| ≤
      |(sum.value : ℝ) - P| + |(T.value : ℝ) - sgn n * t n| := by
    rw [Rat.cast_add, show (sum.value : ℝ) + T.value - (P + sgn n * t n) =
      ((sum.value : ℝ) - P) + ((T.value : ℝ) - sgn n * t n) by ring]
    exact abs_add_le _ _
  have hsize : |((sum.value + T.value : ℚ) : ℝ)| ≤
      A + t n + (|(sum.value : ℝ) - P| + |(T.value : ℝ) - sgn n * t n|) := by
    have := abs_sub_abs_le_abs_sub ((sum.value + T.value : ℚ) : ℝ) (P + sgn n * t n)
    have := abs_add_le P (sgn n * t n)
    linarith
  rw [sum_range_succ, sum_range_succ, sum_range_succ]
  calc |(S.value : ℝ) - (P + sgn n * t n)|
      ≤ |(S.value : ℝ) - ((sum.value + T.value : ℚ) : ℝ)| +
          |((sum.value + T.value : ℚ) : ℝ) - (P + sgn n * t n)| := abs_sub_le _ _ _
    _ ≤ ε * (A + t n + |(sum.value : ℝ) - P| + |(T.value : ℝ) - sgn n * t n|) +
          |(sum.value : ℝ) - P| + |(T.value : ℝ) - sgn n * t n| := by
        have := mul_le_mul_of_nonneg_left hsize (roundingError_pos w).le
        linarith
    _ ≤ ε * (c * (W + n * t n) + 2 * (n + 1) * (A + t n)) :=
        signed_step_le (roundingError_pos w).le hc (sum_nonneg fun k _ => ht k) (ht n)
          n.cast_nonneg (weighted_sum_le ht n) hs.within hTerr hsmall
    _ = ε * (c * (W + n * t n) + 2 * ((n + 1 : ℕ) : ℝ) * (A + t n)) := by push_cast; ring

omit ht hsgn in
/-- Where every partial sum past the `n`-th stays within `B` times the `n`-th size of `F`, as a
series' partial sums do of its limit, each addition rounds a sum of about `F` in size: the error
then grows by `ε (F + η)` a term besides the terms' own, `η` bounding the errors whose rounding it
also takes. -/
theorem add_settled (hsum : sum.Tame) (hT : T.Tame) {B F η : ℝ}
    (hE : |(sum.value : ℝ) - ∑ k ∈ range n, sgn k * t k| ≤ roundingError w *
      (c * ∑ k ∈ range n, k * t k + n * (F + η) + B * ∑ k ∈ range n, t k))
    (hTerr : |(T.value : ℝ) - sgn n * t n| ≤ c * n * roundingError w * t n)
    (hP : |∑ k ∈ range (n + 1), sgn k * t k| ≤ F + B * t n)
    (hη : |(sum.value : ℝ) - ∑ k ∈ range n, sgn k * t k| + |(T.value : ℝ) - sgn n * t n| ≤ η)
    (hw : w.digits < 2 ^ 20) :
    (sum.add T w).Meets (fun S => |(S.value : ℝ) - ∑ k ∈ range (n + 1), sgn k * t k| ≤
      roundingError w * (c * ∑ k ∈ range (n + 1), k * t k + (n + 1 : ℕ) * (F + η) +
        B * ∑ k ∈ range (n + 1), t k)) (fun _ => True) := by
  refine (add_spec hsum hT hw).mono (fun S hS => ?_) fun _ _ => trivial
  set ε := roundingError w
  set P := ∑ k ∈ range n, sgn k * t k
  have hround := abs_sub_of_rounds hS.2
  have hnext : |((sum.value + T.value : ℚ) : ℝ) - (P + sgn n * t n)| ≤
      |(sum.value : ℝ) - P| + |(T.value : ℝ) - sgn n * t n| := by
    rw [Rat.cast_add, show (sum.value : ℝ) + T.value - (P + sgn n * t n) =
      ((sum.value : ℝ) - P) + ((T.value : ℝ) - sgn n * t n) by ring]
    exact abs_add_le _ _
  have hsize : |((sum.value + T.value : ℚ) : ℝ)| ≤
      F + B * t n + (|(sum.value : ℝ) - P| + |(T.value : ℝ) - sgn n * t n|) := by
    rw [sum_range_succ] at hP
    have := abs_sub_abs_le_abs_sub ((sum.value + T.value : ℚ) : ℝ) (P + sgn n * t n)
    linarith
  rw [sum_range_succ, sum_range_succ, sum_range_succ]
  calc |(S.value : ℝ) - (P + sgn n * t n)|
      ≤ |(S.value : ℝ) - ((sum.value + T.value : ℚ) : ℝ)| +
          |((sum.value + T.value : ℚ) : ℝ) - (P + sgn n * t n)| := abs_sub_le _ _ _
    _ ≤ ε * (F + B * t n + |(sum.value : ℝ) - P| + |(T.value : ℝ) - sgn n * t n|) +
          |(sum.value : ℝ) - P| + |(T.value : ℝ) - sgn n * t n| := by
        have := mul_le_mul_of_nonneg_left hsize (roundingError_pos w).le
        linarith
    _ ≤ ε * (c * (∑ k ∈ range n, k * t k + n * t n) + (n + 1) * (F + η) +
          B * (∑ k ∈ range n, t k + t n)) :=
        settled_step_le (roundingError_pos w).le hE hTerr hη
    _ = _ := by push_cast; ring

omit ht hsgn in
theorem SignedSum.abs_sub_limit_le (hs : SignedSum t sgn c w n sum) {f τ : ℝ}
    (htail : |f - ∑ k ∈ range n, sgn k * t k| ≤ τ) :
    |(sum.value : ℝ) - f| ≤ roundingError w *
      (c * ∑ k ∈ range n, k * t k + 2 * n * ∑ k ∈ range n, t k) + τ := by
  have := abs_sub_le (sum.value : ℝ) (∑ k ∈ range n, sgn k * t k) f
  rw [abs_sub_comm (∑ k ∈ range n, sgn k * t k) f] at this
  linarith [hs.within]

/-- A term that no longer shows in the sum is at most `ε A / 25` in size: it lies `w + 1`
places below a sum at most `3/2 A` in size. -/
theorem SignedSum.size_le_of_negligible (hs : SignedSum t sgn c w n sum) (hT : T.Tame)
    (hc : 0 ≤ c) (hTerr : |(T.value : ℝ) - sgn n * t n| ≤ c * n * roundingError w * t n)
    (hsmall : (c + 2) * (n + 1) * roundingError w ≤ 1 / 2) (hw : w.digits < 2 ^ 20)
    (hneg : negligible T sum w = true) :
    t n ≤ roundingError w * (∑ k ∈ range n, t k) / 25 := by
  set ε := roundingError w
  set A := ∑ k ∈ range n, t k
  have hε := roundingError_pos w
  have hA : 0 ≤ A := sum_nonneg fun k _ => ht k
  have hsgnt : |sgn n * t n| = t n := by rw [abs_mul, hsgn n, one_mul, abs_of_nonneg (ht n)]
  have hcn : c * n * ε ≤ 1 / 2 := by nlinarith [mul_nonneg hc hε.le, mul_nonneg hc n.cast_nonneg]
  -- the term's size is at most twice the computed term's
  have hterm : t n ≤ 2 * |(T.value : ℝ)| := by
    have := abs_sub_abs_le_abs_sub (sgn n * t n) (T.value : ℝ)
    rw [hsgnt, abs_sub_comm] at this
    nlinarith [ht n]
  by_cases hT0 : T.mantissa = 0
  · rw [value_eq_zero_iff.mpr hT0, Rat.cast_zero, abs_zero, mul_zero] at hterm
    exact hterm.trans (by positivity)
  obtain ⟨-, hlt⟩ := abs_lt_of_negligible hT hs.tame hw hT0 hneg
  have hlt' : |(T.value : ℝ)| < |(sum.value : ℝ)| * (ε / 100) := by
    have h := (Rat.cast_lt (K := ℝ)).mpr hlt
    push_cast at h
    rwa [show (10 : ℝ) ^ (-(w.digits : ℤ) - 1) = ε / 100 by
      rw [show ε = 10 * 10 ^ (-(w.digits : ℤ)) from roundingError_eq w, zpow_sub₀ (by norm_num),
        zpow_one]
      ring] at h
  -- the computed sum is at most `3/2 A`
  have hsum : |(sum.value : ℝ)| ≤ 3 / 2 * A := by
    have hW := weighted_sum_le ht n
    have hin := hs.within
    have hP := abs_signed_sum_le ht hsgn n
    have := abs_sub_abs_le_abs_sub (sum.value : ℝ) (∑ k ∈ range n, sgn k * t k)
    have hbound : ε * (c * ∑ k ∈ range n, (k : ℝ) * t k + 2 * n * A) ≤ 1 / 2 * A := by
      have := mul_le_mul_of_nonneg_left hW hc
      nlinarith [mul_nonneg hε.le hA, mul_nonneg (mul_nonneg hε.le hA) n.cast_nonneg]
    linarith
  have := mul_le_mul_of_nonneg_right hsum (by positivity : (0 : ℝ) ≤ ε / 100)
  linarith [mul_nonneg hε.le hA]

end Sums

end Calculator.Elementary
