import Calculator.Proofs.QuotientRounding
/-!
How far rounding moves a value, and the tolerance in which working values are tracked.
-/

namespace Calculator

/-! Rounding moves a value by at most half a unit of its last kept digit -/

theorem roundAt_sub (q : ℚ) (e : ℤ) :
    roundAt q e - q = (roundAway (q / 10 ^ e) - q / 10 ^ e) * 10 ^ e := by
  have hunit : (10 : ℚ) ^ e ≠ 0 := by positivity
  rw [roundAt, sub_mul, div_mul_cancel₀ _ hunit]

theorem abs_roundAt_sub_le (q : ℚ) (e : ℤ) : |roundAt q e - q| ≤ 10 ^ e / 2 := by
  have hunit : (0 : ℚ) < 10 ^ e := by positivity
  rw [roundAt_sub, abs_mul, abs_of_pos hunit]
  have := mul_le_mul_of_nonneg_right (abs_roundAway_sub_le (q / 10 ^ e)) hunit.le
  linarith

theorem abs_roundAt_sub_le_of_mul (q : ℚ) (e k : ℤ) : |roundAt q e - q| ≤ |k * 10 ^ e - q| := by
  have hunit : (0 : ℚ) < 10 ^ e := by positivity
  have hk : (k : ℚ) * 10 ^ e - q = (k - q / 10 ^ e) * 10 ^ e := by
    rw [sub_mul, div_mul_cancel₀ _ hunit.ne']
  rw [roundAt_sub, hk, abs_mul, abs_mul]
  exact mul_le_mul_of_nonneg_right (roundAway_nearest _ k) (abs_nonneg _)

theorem abs_roundSig_sub_le (q : ℚ) (w : ℕ) :
    |roundSig q w - q| ≤ 10 ^ (1 - (w : ℤ)) / 2 * |q| := by
  rcases eq_or_ne q 0 with rfl | hq
  · simp [roundSig_zero]
  have hpos : 0 < |q| := abs_pos.mpr hq
  have hunit : (10 : ℚ) ^ (Int.log 10 |q| + 1 - w) ≤ |q| * 10 ^ (1 - (w : ℤ)) := by
    rw [show Int.log 10 |q| + 1 - (w : ℤ) = Int.log 10 |q| + (1 - w) by ring,
      zpow_add₀ (by norm_num)]
    exact mul_le_mul_of_nonneg_right (zpow_le_of_log hpos) (by positivity)
  calc |roundSig q w - q| ≤ 10 ^ (Int.log 10 |q| + 1 - w) / 2 := abs_roundAt_sub_le _ _
    _ ≤ |q| * 10 ^ (1 - (w : ℤ)) / 2 := by linarith
    _ = 10 ^ (1 - (w : ℤ)) / 2 * |q| := by ring

theorem roundSig_mem_of_pos {q : ℚ} (hq : 0 < q) {w : ℕ} (hw : 1 ≤ w) :
    (10 : ℚ) ^ Int.log 10 q ≤ roundSig q w ∧ roundSig q w ≤ 10 ^ (Int.log 10 q + 1) := by
  set L := Int.log 10 q
  have hlo : (10 : ℚ) ^ L ≤ q := zpow_le_of_log hq
  have hhi : q < (10 : ℚ) ^ (L + 1) := lt_zpow_of_log q
  have hnear : ∀ a : ℤ, L + 1 - (w : ℤ) ≤ a →
      |roundSig q w - q| ≤ |(10 : ℚ) ^ a - q| := fun a ha => by
    rw [roundSig, abs_of_pos hq, zpow_eq_mul_zpow ha]
    exact_mod_cast abs_roundAt_sub_le_of_mul q _ (10 ^ (a - (L + 1 - w)).toNat : ℕ)
  have hbelow := hnear L (by omega)
  have habove := hnear (L + 1) (by omega)
  have hd1 : |q - (10 : ℚ) ^ L| = q - 10 ^ L := abs_of_nonneg (by linarith)
  have hd2 : |(10 : ℚ) ^ (L + 1) - q| = 10 ^ (L + 1) - q := abs_of_pos (by linarith)
  rw [abs_sub_comm (10 ^ L), hd1] at hbelow
  rw [hd2] at habove
  obtain ⟨h1, -⟩ := abs_le.mp hbelow
  obtain ⟨-, h2⟩ := abs_le.mp habove
  constructor <;> linarith

theorem log_roundSig_mem {q : ℚ} (hq : q ≠ 0) {w : ℕ} (hw : 1 ≤ w) :
    roundSig q w ≠ 0 ∧ Int.log 10 |q| ≤ Int.log 10 |roundSig q w| ∧
      Int.log 10 |roundSig q w| ≤ Int.log 10 |q| + 1 := by
  have habs : |roundSig q w| = roundSig |q| w := by
    rcases lt_or_gt_of_ne hq with hneg | hpos
    · have h := (roundSig_mem_of_pos (neg_pos.mpr hneg) hw).1
      have h10 : (0 : ℚ) < 10 ^ Int.log 10 (-q) := by positivity
      rw [roundSig_neg] at h
      rw [abs_of_neg hneg, roundSig_neg, abs_of_nonpos (by linarith)]
    · rw [abs_of_pos hpos, abs_of_nonneg (le_trans (by positivity) (roundSig_mem_of_pos hpos hw).1)]
  have hpos : 0 < |q| := abs_pos.mpr hq
  obtain ⟨hlo, hhi⟩ := roundSig_mem_of_pos hpos hw
  have hr : 0 < |roundSig q w| := by
    rw [habs]
    exact lt_of_lt_of_le (by positivity) hlo
  refine ⟨abs_pos.mp hr, ?_, ?_⟩
  · rw [habs]
    exact le_log_of_zpow_le (lt_of_lt_of_le (by positivity) hlo) hlo
  · have : Int.log 10 |roundSig q w| < Int.log 10 |q| + 1 + 1 := by
      apply log_lt_of_lt_zpow hr
      rw [habs, zpow_add_one₀ (by norm_num) (Int.log 10 |q| + 1)]
      have : (0 : ℚ) < 10 ^ (Int.log 10 |q| + 1) := by positivity
      linarith
    omega

/-! Working values within a factor of the exact ones -/

def Near (a b t : ℝ) : Prop := 0 < a ∧ 0 < b ∧ |Real.log a - Real.log b| ≤ t

namespace Near

variable {a b c a' b' s t : ℝ}

theorem iff (ha : 0 < a) (hb : 0 < b) :
    Near a b t ↔ b * Real.exp (-t) ≤ a ∧ a ≤ b * Real.exp t := by
  have hlog : ∀ u : ℝ, Real.log (b * Real.exp u) = Real.log b + u := fun u => by
    rw [Real.log_mul hb.ne' (Real.exp_pos u).ne', Real.log_exp]
  constructor
  · rintro ⟨-, -, h⟩
    obtain ⟨h1, h2⟩ := abs_le.mp h
    constructor
    · rw [← Real.log_le_log_iff (by positivity) ha, hlog]
      linarith
    · rw [← Real.log_le_log_iff ha (by positivity), hlog]
      linarith
  · rintro ⟨h1, h2⟩
    have h1' := Real.log_le_log (by positivity) h1
    have h2' := Real.log_le_log ha h2
    rw [hlog] at h1' h2'
    exact ⟨ha, hb, abs_le.mpr ⟨by linarith, by linarith⟩⟩

theorem refl (ha : 0 < a) : Near a a 0 := ⟨ha, ha, by simp⟩

theorem symm (h : Near a b t) : Near b a t := ⟨h.2.1, h.1, by rw [abs_sub_comm]; exact h.2.2⟩

theorem mono (h : Near a b s) (hst : s ≤ t) : Near a b t := ⟨h.1, h.2.1, h.2.2.trans hst⟩

theorem nonneg (h : Near a b t) : 0 ≤ t := (abs_nonneg _).trans h.2.2

theorem trans (h : Near a b s) (h' : Near b c t) : Near a c (s + t) := by
  refine ⟨h.1, h'.2.1, ?_⟩
  calc |Real.log a - Real.log c| = |(Real.log a - Real.log b) + (Real.log b - Real.log c)| := by
        ring_nf
    _ ≤ |Real.log a - Real.log b| + |Real.log b - Real.log c| := abs_add_le _ _
    _ ≤ s + t := add_le_add h.2.2 h'.2.2

theorem mul (h : Near a b s) (h' : Near a' b' t) : Near (a * a') (b * b') (s + t) := by
  refine ⟨mul_pos h.1 h'.1, mul_pos h.2.1 h'.2.1, ?_⟩
  rw [Real.log_mul h.1.ne' h'.1.ne', Real.log_mul h.2.1.ne' h'.2.1.ne']
  calc |Real.log a + Real.log a' - (Real.log b + Real.log b')|
      = |(Real.log a - Real.log b) + (Real.log a' - Real.log b')| := by ring_nf
    _ ≤ |Real.log a - Real.log b| + |Real.log a' - Real.log b'| := abs_add_le _ _
    _ ≤ s + t := add_le_add h.2.2 h'.2.2

theorem inv (h : Near a b t) : Near a⁻¹ b⁻¹ t := by
  refine ⟨inv_pos.mpr h.1, inv_pos.mpr h.2.1, ?_⟩
  rw [Real.log_inv, Real.log_inv, ← abs_neg]
  convert h.2.2 using 2
  ring

theorem div (h : Near a b s) (h' : Near a' b' t) : Near (a / a') (b / b') (s + t) := by
  simpa only [div_eq_mul_inv] using h.mul h'.inv

theorem pow (h : Near a b t) (n : ℕ) : Near (a ^ n) (b ^ n) (n * t) := by
  refine ⟨pow_pos h.1 n, pow_pos h.2.1 n, ?_⟩
  rw [Real.log_pow, Real.log_pow, ← mul_sub, abs_mul, Nat.abs_cast]
  exact mul_le_mul_of_nonneg_left h.2.2 (Nat.cast_nonneg n)

theorem mul_left (h : Near a b t) (hc : 0 < c) : Near (c * a) (c * b) t := by
  simpa using (refl hc).mul h

theorem add (h : Near a b t) (h' : Near a' b' t) : Near (a + a') (b + b') t := by
  obtain ⟨hlo, hhi⟩ := (iff h.1 h.2.1).mp h
  obtain ⟨hlo', hhi'⟩ := (iff h'.1 h'.2.1).mp h'
  refine (iff (add_pos h.1 h'.1) (add_pos h.2.1 h'.2.1)).mpr ⟨?_, ?_⟩ <;> nlinarith

theorem of_eq (hab : a = b) (hb : 0 < b) : Near a b 0 := by
  subst hab
  exact refl hb

theorem of_abs_sub_le (hb : 0 < b) {u : ℝ} (hu : u ≤ 1 / 2) (h : |a - b| ≤ u * b) :
    Near a b (2 * u) := by
  obtain ⟨hlo, hhi⟩ := abs_le.mp h
  have hu0 : 0 ≤ u := by
    by_contra hneg
    have := (abs_nonneg (a - b)).trans h
    nlinarith
  have ha : 0 < a := by nlinarith
  refine ⟨ha, hb, ?_⟩
  rw [← Real.log_div ha.ne' hb.ne', abs_le]
  have hratio : 0 < a / b := div_pos ha hb
  constructor
  · -- `log (a / b) = -log (b / a) ≥ 1 - b / a ≥ -u / (1 - u) ≥ -2u`
    have hinv := Real.log_le_sub_one_of_pos (inv_pos.mpr hratio)
    rw [Real.log_inv, inv_div] at hinv
    have hba : b / a ≤ 1 + 2 * u := by
      rw [div_le_iff₀ ha]
      nlinarith
    linarith
  · have := Real.log_le_sub_one_of_pos hratio
    have hab : a / b ≤ 1 + u := by
      rw [div_le_iff₀ hb]
      linarith
    linarith

theorem abs_sub_le (h : Near a b t) (ht : t ≤ 1 / 2) : |a - b| ≤ 2 * t * b := by
  have h0 := h.nonneg
  obtain ⟨hlo, hhi⟩ := (iff h.1 h.2.1).mp h
  have hexp : Real.exp t ≤ 1 + 2 * t := by
    have := Real.exp_bound_div_one_sub_of_interval h0 (by linarith)
    have h1t : 0 < 1 - t := by linarith
    calc Real.exp t ≤ 1 / (1 - t) := this
      _ ≤ 1 + 2 * t := by
        rw [div_le_iff₀ h1t]
        nlinarith
  have hexp' : 1 - t ≤ Real.exp (-t) := by linarith [Real.add_one_le_exp (-t)]
  have hb := h.2.1
  rw [abs_le]
  constructor <;> nlinarith

theorem le_three_mul (h : Near a b t) (ht : t ≤ 1) : a ≤ 3 * b ∧ b ≤ 3 * a := by
  obtain ⟨hlo, hhi⟩ := (iff h.1 h.2.1).mp h
  have hexp : Real.exp t ≤ 3 :=
    (Real.exp_le_exp.mpr ht).trans (by linarith [Real.exp_one_lt_d9])
  have hinv : b ≤ a * Real.exp t := by
    rw [Real.exp_neg, ← div_eq_mul_inv, div_le_iff₀ (Real.exp_pos t)] at hlo
    exact hlo
  constructor <;> nlinarith [h.1, h.2.1]

end Near

theorem near_exp (x y : ℝ) : Near (Real.exp x) (Real.exp y) |x - y| :=
  ⟨Real.exp_pos x, Real.exp_pos y, by rw [Real.log_exp, Real.log_exp]⟩

theorem near_roundSig {q : ℚ} (hq : 0 < q) {w : ℕ} (hw : 1 ≤ w) :
    Near (roundSig q w) q (10 ^ (1 - (w : ℤ))) := by
  have hu : (10 : ℝ) ^ (1 - (w : ℤ)) / 2 ≤ 1 / 2 := by
    have : (10 : ℝ) ^ (1 - (w : ℤ)) ≤ 1 := zpow_le_one_of_nonpos₀ (by norm_num) (by omega)
    linarith
  have hbound : |((roundSig q w : ℚ) : ℝ) - q| ≤ 10 ^ (1 - (w : ℤ)) / 2 * (q : ℝ) := by
    have h := (Rat.cast_le (K := ℝ)).mpr (abs_roundSig_sub_le q w)
    push_cast at h
    rwa [abs_of_pos (show (0 : ℝ) < q by exact_mod_cast hq)] at h
  have := Near.of_abs_sub_le (by exact_mod_cast hq) hu hbound
  rwa [show 2 * ((10 : ℝ) ^ (1 - (w : ℤ)) / 2) = 10 ^ (1 - (w : ℤ)) by ring] at this

/-! A close working value, rounded to the asked digits -/

theorem cast_ten_zpow (n : ℤ) : (((10 : ℚ) ^ n : ℚ) : ℝ) = 10 ^ n := by
  rw [Rat.cast_zpow, Rat.cast_ofNat]

/-- A working value `s` within `t ≤ 10 ^ (-p) / 4` of a positive `y`, relatively, rounds to `p`
digits within one unit of the `p`-th digit of `y`. -/
theorem abs_roundSig_sub_lt_of_pos {s : ℚ} {y t : ℝ} {p : ℕ} (hp : 1 ≤ p) (hy : 0 < y)
    (ht : t ≤ 10 ^ (-(p : ℤ)) / 4) (hs : |(s : ℝ) - y| ≤ t * y) :
    |(roundSig s p : ℝ) - y| < 10 ^ (Int.log 10 y + 1 - p) := by
  set L := Int.log 10 y
  have hyL : (10 : ℝ) ^ L ≤ y := by
    have := Int.zpow_log_le_self (b := 10) (by norm_num) hy
    push_cast at this
    exact this
  have hyU : y < (10 : ℝ) ^ (L + 1) := by
    have := Int.lt_zpow_succ_log_self (b := 10) (R := ℝ) (by norm_num) y
    push_cast at this
    exact this
  have ht0 : 0 ≤ t := by
    by_contra hneg
    have := (abs_nonneg _).trans hs
    nlinarith
  obtain ⟨hslo, hshi⟩ := abs_le.mp hs
  set U : ℝ := 10 ^ (L + 1 - p)
  have hUpos : 0 < U := by positivity
  have hpow : (10 : ℝ) ^ (L + 1) = 10 ^ (p : ℤ) * U := by
    rw [← zpow_add₀ (by norm_num)]
    ring_nf
  -- the exact value's error budget: `t · y` is at most a quarter unit
  have hty : t * y ≤ U / 4 := by
    have hpU : (10 : ℝ) ^ (-(p : ℤ)) * 10 ^ (p : ℤ) = 1 := by
      rw [← zpow_add₀ (by norm_num)]
      simp
    calc t * y ≤ t * 10 ^ (L + 1) := mul_le_mul_of_nonneg_left hyU.le ht0
      _ ≤ 10 ^ (-(p : ℤ)) / 4 * (10 ^ (p : ℤ) * U) := by
        rw [hpow]
        exact mul_le_mul_of_nonneg_right ht (by positivity)
      _ = U / 4 := by
        rw [show (10 : ℝ) ^ (-(p : ℤ)) / 4 * (10 ^ (p : ℤ) * U) =
          10 ^ (-(p : ℤ)) * 10 ^ (p : ℤ) * U / 4 by ring, hpU, one_mul]
  have hUL : U ≤ (10 : ℝ) ^ L := zpow_le_zpow_right₀ (by norm_num) (by omega)
  have hspos : (0 : ℝ) < s := by linarith
  have hsq : (0 : ℚ) < s := by exact_mod_cast hspos
  by_cases hcase : (s : ℝ) < 10 ^ (L + 1)
  · -- the working value lies below `10 ^ (L + 1)`: its last kept digit is at most `U`
    have hcase' : s < (10 : ℚ) ^ (L + 1) := by
      rw [← Rat.cast_lt (K := ℝ), cast_ten_zpow]
      exact hcase
    have hlog : Int.log 10 s ≤ L := by
      have := log_lt_of_lt_zpow hsq hcase'
      omega
    have hround : |roundSig s p - s| ≤ 10 ^ (L + 1 - p) / 2 := by
      calc |roundSig s p - s| ≤ 10 ^ (Int.log 10 |s| + 1 - p) / 2 := abs_roundAt_sub_le _ _
        _ ≤ 10 ^ (L + 1 - p) / 2 := by
          rw [abs_of_pos hsq]
          have hle : Int.log 10 s + 1 - (p : ℤ) ≤ L + 1 - p := by omega
          exact div_le_div_of_nonneg_right (zpow_le_zpow_right₀ (by norm_num) hle) (by norm_num)
    have hround' : |(roundSig s p : ℝ) - s| ≤ U / 2 := by
      have h := (Rat.cast_le (K := ℝ)).mpr hround
      push_cast at h
      exact h
    calc |(roundSig s p : ℝ) - y| = |((roundSig s p : ℝ) - s) + ((s : ℝ) - y)| := by ring_nf
      _ ≤ |(roundSig s p : ℝ) - s| + |(s : ℝ) - y| := abs_add_le _ _
      _ ≤ U / 2 + U / 4 := add_le_add hround' (hs.trans hty)
      _ < U := by linarith
  · -- the working value reached `10 ^ (L + 1)`, a multiple of its last kept digit's unit, and
    -- rounds no further from it than it lies
    have hge : (10 : ℝ) ^ (L + 1) ≤ s := not_lt.mp hcase
    have hge' : (10 : ℚ) ^ (L + 1) ≤ s := by
      rw [← Rat.cast_le (K := ℝ), cast_ten_zpow]
      exact hge
    have hlog : Int.log 10 s = L + 1 := by
      apply log_eq_of_bounds hge'
      have h10 : (0 : ℝ) < 10 ^ (L + 1) := by positivity
      have : (s : ℝ) < 10 ^ (L + 1 + 1) := by
        rw [zpow_add_one₀ (by norm_num)]
        linarith
      rw [← Rat.cast_lt (K := ℝ), cast_ten_zpow]
      exact this
    have hmul : (10 : ℚ) ^ (L + 1) = (((10 ^ (p - 1) : ℕ) : ℤ) : ℚ) * 10 ^ (L + 1 + 1 - p) := by
      push_cast
      rw [← zpow_natCast, ← zpow_add₀ (by norm_num)]
      congr 1
      push_cast [Nat.cast_sub hp]
      ring
    have hround : |roundSig s p - s| ≤ s - 10 ^ (L + 1) := by
      have := abs_roundAt_sub_le_of_mul s (Int.log 10 |s| + 1 - p) (10 ^ (p - 1) : ℕ)
      have hdist : |(10 : ℚ) ^ (L + 1) - s| = s - 10 ^ (L + 1) := by
        rw [abs_sub_comm, abs_of_nonneg (sub_nonneg.mpr hge')]
      rw [abs_of_pos hsq, hlog, ← hmul, hdist] at this
      rw [roundSig, abs_of_pos hsq, hlog]
      linarith
    have hround' : |(roundSig s p : ℝ) - s| ≤ s - 10 ^ (L + 1) := by
      have h := (Rat.cast_le (K := ℝ)).mpr hround
      push_cast at h
      exact h
    calc |(roundSig s p : ℝ) - y| = |((roundSig s p : ℝ) - s) + ((s : ℝ) - y)| := by ring_nf
      _ ≤ |(roundSig s p : ℝ) - s| + |(s : ℝ) - y| := abs_add_le _ _
      _ ≤ (s - 10 ^ (L + 1)) + t * y := add_le_add hround' hs
      _ ≤ 2 * (t * y) := by linarith
      _ < U := by linarith

theorem abs_roundSig_sub_lt {s : ℚ} {y t : ℝ} {p : ℕ} (hp : 1 ≤ p) (hy : y ≠ 0)
    (ht : t ≤ 10 ^ (-(p : ℤ)) / 4) (hs : |(s : ℝ) - y| ≤ t * |y|) :
    |(roundSig s p : ℝ) - y| < 10 ^ (Int.log 10 |y| + 1 - p) := by
  rcases lt_or_gt_of_ne hy with hneg | hpos
  · -- rounding is odd: round `-s` against `-y`
    have hflip := abs_roundSig_sub_lt_of_pos (s := -s) hp (neg_pos.mpr hneg) ht
      (by rw [abs_of_neg hneg] at hs; push_cast; rw [← abs_neg]; convert hs using 2; ring)
    rw [roundSig_neg] at hflip
    rw [abs_of_neg hneg]
    push_cast at hflip
    rw [← abs_neg]
    convert hflip using 2
    ring
  · rw [abs_of_pos hpos] at hs ⊢
    exact abs_roundSig_sub_lt_of_pos hp hpos ht hs

end Calculator
