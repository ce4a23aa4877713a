import Calculator.Proofs.IntegerReading
/-!
Rounding stated on values. The value of a decimal is the rational `mantissa · 10 ^ (-scale)`.
Rounding a rational to `p` significant digits takes it to the multiple of the unit of its `p`-th
digit nearest to it, a half going away from zero (`roundSig`).
-/

namespace Calculator

def roundAway (q : ℚ) : ℤ := if q < 0 then -⌊-q + 1 / 2⌋ else ⌊q + 1 / 2⌋

def roundAt (q : ℚ) (e : ℤ) : ℚ := roundAway (q / 10 ^ e) * 10 ^ e

def roundSig (q : ℚ) (p : ℕ) : ℚ := roundAt q (Int.log 10 |q| + 1 - p)

theorem roundAway_neg (q : ℚ) : roundAway (-q) = -roundAway q := by
  unfold roundAway
  rcases lt_trichotomy q 0 with hq | rfl | hq
  · rw [if_neg (by linarith), if_pos hq, neg_neg]
  · norm_num
  · rw [if_pos (by linarith), if_neg (by linarith), neg_neg]

theorem roundAway_intCast (k : ℤ) : roundAway k = k := by
  have hhalf : ⌊(1 / 2 : ℚ)⌋ = 0 := by norm_num [Int.floor_eq_iff]
  unfold roundAway
  split_ifs with hk
  · rw [← Int.cast_neg, Int.floor_intCast_add, hhalf]
    omega
  · rw [Int.floor_intCast_add, hhalf, add_zero]

theorem roundAway_zero : roundAway 0 = 0 := by
  exact_mod_cast roundAway_intCast 0

theorem abs_roundAway_sub_le (q : ℚ) : |(roundAway q : ℚ) - q| ≤ 1 / 2 := by
  unfold roundAway
  split_ifs with hq
  · have hlo := Int.floor_le (-q + 1 / 2)
    have hhi := Int.lt_floor_add_one (-q + 1 / 2)
    push_cast
    rw [abs_le]
    constructor <;> linarith
  · have hlo := Int.floor_le (q + 1 / 2)
    have hhi := Int.lt_floor_add_one (q + 1 / 2)
    rw [abs_le]
    constructor <;> linarith

theorem roundAway_nearest (q : ℚ) (k : ℤ) : |(roundAway q : ℚ) - q| ≤ |(k : ℚ) - q| := by
  have hnear := abs_roundAway_sub_le q
  by_cases hk : roundAway q = k
  · rw [hk]
  have hgap : (1 : ℚ) ≤ |(roundAway q : ℚ) - k| := by
    have : (1 : ℤ) ≤ |roundAway q - k| := Int.one_le_abs (sub_ne_zero.mpr hk)
    exact_mod_cast this
  have htri := abs_sub_le (roundAway q : ℚ) q k
  rw [abs_sub_comm q] at htri
  linarith

theorem roundAway_tie (q : ℚ) (htie : |(roundAway q : ℚ) - q| = 1 / 2) :
    |q| < |(roundAway q : ℚ)| := by
  unfold roundAway at htie ⊢
  split_ifs at htie ⊢ with hq
  · -- the floor of `-q + 1/2` lies above `-q - 1/2`, so the tie is `-q + 1/2`
    have hhi := Int.lt_floor_add_one (-q + 1 / 2)
    push_cast at htie ⊢
    rw [abs_neg, abs_of_neg hq]
    rcases (abs_eq (by norm_num : (0 : ℚ) ≤ 1 / 2)).mp htie with h | h
    · linarith
    · rw [abs_of_pos (by linarith)]
      linarith
  · have hhi := Int.lt_floor_add_one (q + 1 / 2)
    rw [abs_of_nonneg (not_lt.mp hq)]
    rcases (abs_eq (by norm_num : (0 : ℚ) ≤ 1 / 2)).mp htie with h | h
    · rw [abs_of_pos (by linarith)]
      linarith
    · linarith

theorem roundAt_intCast_mul (k e : ℤ) : roundAt (k * 10 ^ e) e = k * 10 ^ e := by
  unfold roundAt
  rw [mul_div_cancel_right₀ _ (by positivity), roundAway_intCast]

theorem roundSig_zero (p : ℕ) : roundSig 0 p = 0 := by
  rw [roundSig, roundAt, zero_div, roundAway_zero, Int.cast_zero, zero_mul]

theorem roundSig_neg (q : ℚ) (p : ℕ) : roundSig (-q) p = -roundSig q p := by
  unfold roundSig roundAt
  rw [abs_neg, neg_div, roundAway_neg]
  push_cast
  ring

/-! ### Powers of ten and cells in an ordered field with a floor

The places of digits, and the cells `[n · 10 ^ f, (n + 1) · 10 ^ f)` that rounding cannot see
into, are the same in every such field: rationals for the values of decimals, reals for the exact
results they approximate. -/

section Cells

variable {K : Type*} [Field K] [LinearOrder K] [IsStrictOrderedRing K] [FloorRing K]

theorem le_log_of_zpow_le {q : K} {e : ℤ} (hq : 0 < q) (h : (10 : K) ^ e ≤ q) :
    e ≤ Int.log 10 q := by
  have := Int.zpow_le_iff_le_log (R := K) (b := 10) (by norm_num) (x := e) hq
  push_cast at this
  exact this.mp h

theorem log_lt_of_lt_zpow {q : K} {e : ℤ} (hq : 0 < q) (h : q < (10 : K) ^ e) :
    Int.log 10 q < e := by
  have := Int.lt_zpow_iff_log_lt (R := K) (b := 10) (by norm_num) (x := e) hq
  push_cast at this
  exact this.mp h

theorem log_eq_of_bounds {q : K} {e : ℤ} (hlo : (10 : K) ^ e ≤ q) (hhi : q < (10 : K) ^ (e + 1)) :
    Int.log 10 q = e := by
  have hq : 0 < q := lt_of_lt_of_le (by positivity) hlo
  have h1 := le_log_of_zpow_le hq hlo
  have h2 := log_lt_of_lt_zpow hq hhi
  omega

theorem zpow_le_of_log {q : K} (hq : 0 < q) : (10 : K) ^ Int.log 10 q ≤ q := by
  have := Int.zpow_log_le_self (R := K) (b := 10) (by norm_num) hq
  push_cast at this
  exact this

theorem lt_zpow_of_log (q : K) : q < (10 : K) ^ (Int.log 10 q + 1) := by
  have := Int.lt_zpow_succ_log_self (R := K) (b := 10) (by norm_num) q
  push_cast at this
  exact this

omit [IsStrictOrderedRing K] in
theorem zpow_eq_mul_zpow {a f : ℤ} (h : f ≤ a) :
    (10 : K) ^ a = ((10 ^ (a - f).toNat : ℕ) : K) * 10 ^ f := by
  push_cast
  rw [← zpow_natCast, ← zpow_add₀ (by norm_num)]
  congr 1
  omega

theorem floor_div_zpow_of_mem_cell {q : K} {f u n : ℤ} (hfu : f ≤ u)
    (hlo : n * 10 ^ f ≤ q) (hhi : q < (n + 1) * 10 ^ f) :
    ⌊q / 10 ^ u⌋ = n / ((10 ^ (u - f).toNat : ℕ) : ℤ) := by
  have hf : (0 : K) < 10 ^ f := by positivity
  have hcell : ⌊q / 10 ^ f⌋ = n := by
    rw [Int.floor_eq_iff, le_div_iff₀ hf, div_lt_iff₀ hf]
    exact ⟨hlo, hhi⟩
  rw [zpow_eq_mul_zpow hfu, div_mul_eq_div_div_swap, Int.floor_div_natCast, hcell]

theorem floor_add_half_div_zpow_of_mem_cell {q : K} {f u n : ℤ} (hfu : f < u)
    (hlo : n * 10 ^ f ≤ q) (hhi : q < (n + 1) * 10 ^ f) :
    ⌊q / 10 ^ u + 1 / 2⌋ = (n + 5 * 10 ^ (u - 1 - f).toNat) / ((10 ^ (u - f).toNat : ℕ) : ℤ) := by
  have hu : (0 : K) < 10 ^ u := by positivity
  have hcount : (u - f).toNat = (u - 1 - f).toNat + 1 := by omega
  have hhalf : (10 : K) ^ u / 2 = (5 * 10 ^ (u - 1 - f).toNat : ℤ) * 10 ^ f := by
    rw [zpow_eq_mul_zpow hfu.le, hcount]
    push_cast
    ring
  have hshift : q / 10 ^ u + 1 / 2 = (q + (5 * 10 ^ (u - 1 - f).toNat : ℤ) * 10 ^ f) / 10 ^ u := by
    rw [← hhalf]
    field_simp
  rw [hshift]
  apply floor_div_zpow_of_mem_cell hfu.le
  · push_cast
    linarith
  · push_cast
    linarith

theorem log_eq_of_mem_cell {q q' : K} {f n : ℤ} (hq : 0 < q) (hf : f ≤ Int.log 10 q)
    (hlo : n * 10 ^ f ≤ q) (hhi : q < (n + 1) * 10 ^ f)
    (hlo' : n * 10 ^ f ≤ q') (hhi' : q' < (n + 1) * 10 ^ f) :
    0 < q' ∧ Int.log 10 q' = Int.log 10 q := by
  have hf0 : (0 : K) < 10 ^ f := by positivity
  have hL := zpow_le_of_log hq
  have hL1 := lt_zpow_of_log q
  have hj := zpow_eq_mul_zpow (K := K) hf
  have hj' := zpow_eq_mul_zpow (K := K) (show f ≤ Int.log 10 q + 1 by omega)
  set N := 10 ^ (Int.log 10 q - f).toNat
  set N' := 10 ^ (Int.log 10 q + 1 - f).toNat
  have hjn : (N : ℤ) ≤ n := by
    have h : (N : K) * 10 ^ f < (n + 1) * 10 ^ f := by rw [← hj]; linarith
    have : (N : ℤ) < n + 1 := by exact_mod_cast lt_of_mul_lt_mul_right h hf0.le
    omega
  have hjn' : n + 1 ≤ (N' : ℤ) := by
    have h : (n : K) * 10 ^ f < N' * 10 ^ f := by rw [← hj']; linarith
    have : n < (N' : ℤ) := by exact_mod_cast lt_of_mul_lt_mul_right h hf0.le
    omega
  have hlow : (10 : K) ^ Int.log 10 q ≤ q' := by
    rw [hj]
    calc (N : K) * 10 ^ f ≤ n * 10 ^ f := by gcongr; exact_mod_cast hjn
      _ ≤ q' := hlo'
  have hhigh : q' < (10 : K) ^ (Int.log 10 q + 1) := by
    rw [hj']
    calc q' < (n + 1) * 10 ^ f := hhi'
      _ ≤ N' * 10 ^ f := by gcongr; exact_mod_cast hjn'
  exact ⟨lt_of_lt_of_le (by positivity) hlow, log_eq_of_bounds hlow hhigh⟩

end Cells

theorem roundAway_div_zpow_of_mem_cell {q : ℚ} {f u n : ℤ} (hfu : f < u) (hq : 0 ≤ q)
    (hlo : n * 10 ^ f ≤ q) (hhi : q < (n + 1) * 10 ^ f) :
    roundAway (q / 10 ^ u) =
      (n + 5 * 10 ^ (u - 1 - f).toNat) / ((10 ^ (u - f).toNat : ℕ) : ℤ) := by
  unfold roundAway
  rw [if_neg (not_lt.mpr (div_nonneg hq (by positivity)))]
  exact floor_add_half_div_zpow_of_mem_cell hfu hlo hhi

theorem roundSig_eq_of_mem_cell {q q' : ℚ} {f n : ℤ} {p : ℕ} (hq : 0 < q)
    (hplace : f + p ≤ Int.log 10 q) (hlo : n * 10 ^ f ≤ q) (hhi : q < (n + 1) * 10 ^ f)
    (hlo' : n * 10 ^ f ≤ q') (hhi' : q' < (n + 1) * 10 ^ f) :
    roundSig q' p = roundSig q p := by
  obtain ⟨hq', hlog⟩ := log_eq_of_mem_cell hq (by omega) hlo hhi hlo' hhi'
  unfold roundSig roundAt
  rw [abs_of_pos hq, abs_of_pos hq', hlog,
    roundAway_div_zpow_of_mem_cell (by omega) hq'.le hlo' hhi',
    roundAway_div_zpow_of_mem_cell (by omega) hq.le hlo hhi]

/-! ### Rounding a real number

Results such as square roots are real numbers that no decimal holds. Their rounding is stated on
the reals, as `roundSig` is on the rationals, and the two agree on rationals
(`roundSig_ratCast`). A real rounds as the rational at the foot of its cell when the cell's unit
lies `p` places below the leading digit (`roundSigReal_eq_of_mem_cell`): a result truncated to
such a cell rounds as the exact one. -/

noncomputable def roundAwayReal (y : ℝ) : ℤ := if y < 0 then -⌊-y + 1 / 2⌋ else ⌊y + 1 / 2⌋

noncomputable def roundSigReal (y : ℝ) (p : ℕ) : ℝ :=
  roundAwayReal (y / 10 ^ (Int.log 10 |y| + 1 - p)) * 10 ^ (Int.log 10 |y| + 1 - p)

theorem log_abs_ratCast (q : ℚ) : Int.log 10 |(q : ℝ)| = Int.log 10 |q| := by
  rcases eq_or_ne q 0 with rfl | hq
  · simp
  have hpos : 0 < |q| := abs_pos.mpr hq
  have hlo := zpow_le_of_log hpos
  have hhi := lt_zpow_of_log |q|
  apply log_eq_of_bounds
  · rw [← Rat.cast_abs]
    simpa only [Rat.cast_zpow, Rat.cast_ofNat] using (Rat.cast_le (K := ℝ)).mpr hlo
  · rw [← Rat.cast_abs]
    simpa only [Rat.cast_zpow, Rat.cast_ofNat] using (Rat.cast_lt (K := ℝ)).mpr hhi

theorem roundAwayReal_ratCast (q : ℚ) : roundAwayReal q = roundAway q := by
  unfold roundAwayReal roundAway
  rw [← Rat.floor_cast (α := ℝ) (-q + 1 / 2), ← Rat.floor_cast (α := ℝ) (q + 1 / 2)]
  simp only [Rat.cast_lt_zero, Rat.cast_add, Rat.cast_neg, Rat.cast_div, Rat.cast_one,
    Rat.cast_ofNat]

theorem roundSig_ratCast (q : ℚ) (p : ℕ) : ((roundSig q p : ℚ) : ℝ) = roundSigReal q p := by
  unfold roundSig roundAt roundSigReal
  rw [log_abs_ratCast, ← roundAwayReal_ratCast]
  push_cast
  rfl

theorem roundSigReal_eq_of_mem_cell {y : ℝ} {f n : ℤ} {p : ℕ} (hn : 0 < n)
    (hplace : f + p ≤ Int.log 10 ((n : ℚ) * 10 ^ f)) (hlo : (n : ℝ) * 10 ^ f ≤ y)
    (hhi : y < (n + 1) * 10 ^ f) :
    roundSigReal y p = roundSig ((n : ℚ) * 10 ^ f) p := by
  set q : ℚ := n * 10 ^ f
  have hq : 0 < q := by positivity
  have hqR : ((q : ℚ) : ℝ) = n * 10 ^ f := by push_cast [q]; rfl
  have hqpos : (0 : ℝ) < q := by exact_mod_cast hq
  have hlogq : Int.log 10 (q : ℝ) = Int.log 10 q := by
    simpa only [abs_of_pos hqpos, abs_of_pos hq] using log_abs_ratCast q
  obtain ⟨hy, hlog⟩ := log_eq_of_mem_cell (K := ℝ) hqpos (by omega) hqR.ge
    (by rw [hqR]; linarith [show (0 : ℝ) < 10 ^ f by positivity]) hlo hhi
  rw [roundSig_ratCast, roundSigReal, roundSigReal, abs_of_pos hy, abs_of_pos hqpos, hlog]
  have hfu : f < Int.log 10 (q : ℝ) + 1 - p := by omega
  unfold roundAwayReal
  rw [if_neg (not_lt.mpr (div_nonneg hy.le (by positivity))),
    if_neg (not_lt.mpr (div_nonneg hqpos.le (by positivity))),
    floor_add_half_div_zpow_of_mem_cell hfu hlo hhi,
    floor_add_half_div_zpow_of_mem_cell hfu hqR.ge
      (by rw [hqR]; linarith [show (0 : ℝ) < 10 ^ f by positivity])]

namespace Decimal

def value (x : Decimal) : ℚ := x.mantissa * 10 ^ (-x.scale)

@[simp] theorem value_neg (x : Decimal) : (-x).value = -x.value := by
  simp [value]

theorem value_eq_zero_iff {x : Decimal} : x.value = 0 ↔ x.mantissa = 0 := by
  have hunit : (10 : ℚ) ^ (-x.scale) ≠ 0 := by positivity
  rw [value, mul_eq_zero, or_iff_left hunit, Int.cast_eq_zero]

theorem abs_value (x : Decimal) : |x.value| = (x.mantissa.natAbs : ℚ) * 10 ^ (-x.scale) := by
  rw [value, abs_mul, abs_of_pos (show (0 : ℚ) < 10 ^ (-x.scale) by positivity), Nat.cast_natAbs,
    Int.cast_abs]

theorem pow10_cast (n : ℕ) : (pow10 n : ℚ) = 10 ^ n := by
  rw [pow10_eq_pow]
  push_cast
  rfl

theorem log_abs_value {x : Decimal} (h : x.mantissa ≠ 0) (hd : x.digits < 2 ^ 32) :
    Int.log 10 |x.value| = (x.digits : ℤ) - 1 - x.scale := by
  have hpos : 0 < x.digits := digitCount_pos _
  have hlo : (pow10 (x.digits - 1) : ℚ) ≤ x.mantissa.natAbs := by
    exact_mod_cast pow10_pred_digitCount_le (Int.natAbs_pos.mpr h) hd
  have hhi : (x.mantissa.natAbs : ℚ) < pow10 x.digits := by
    exact_mod_cast lt_pow10_digitCount hd
  rw [pow10_cast] at hlo hhi
  apply log_eq_of_bounds
  · rw [abs_value, show (x.digits : ℤ) - 1 - x.scale = ((x.digits - 1 : ℕ) : ℤ) + -x.scale by omega,
      zpow_add₀ (by norm_num), zpow_natCast]
    gcongr
  · rw [abs_value, show (x.digits : ℤ) - 1 - x.scale + 1 = (x.digits : ℤ) + -x.scale by ring,
      zpow_add₀ (by norm_num), zpow_natCast]
    gcongr

theorem roundAway_div_pow10 (m : ℤ) {d : ℕ} (hd : 0 < d) :
    roundAway (m / 10 ^ d) = withSignOf m (roundQuotient m.natAbs (pow10 d)) := by
  have hten : (0 : ℚ) < 10 ^ d := by positivity
  have heven : ((pow10 d / 2 : ℕ) : ℚ) = 10 ^ d / 2 := by
    have htwo : 2 ∣ pow10 d := by
      rw [show d = (d - 1) + 1 by omega, pow10_succ]
      exact dvd_mul_of_dvd_right (by norm_num) _
    rw [Nat.cast_div htwo (by norm_num), pow10_cast]
    norm_num
  have hquot : ∀ n : ℕ, ⌊(n : ℚ) / 10 ^ d + 1 / 2⌋ = (roundQuotient n (pow10 d) : ℤ) := by
    intro n
    unfold roundQuotient
    rw [show (n : ℚ) / 10 ^ d + 1 / 2 = ((n + pow10 d / 2 : ℕ) : ℚ) / (pow10 d : ℕ) by
      push_cast
      rw [heven, pow10_cast]
      field_simp]
    exact Rat.floor_natCast_div_natCast _ _
  unfold roundAway withSignOf
  by_cases hm : m < 0
  · rw [if_pos (div_neg_of_neg_of_pos (by exact_mod_cast hm) hten), if_pos hm, ← neg_div]
    have : -(m : ℚ) = (m.natAbs : ℚ) := by
      rw [Nat.cast_natAbs, Int.cast_abs, abs_of_neg (by exact_mod_cast hm)]
    rw [this, hquot]
  · have hm0 : (0 : ℚ) ≤ m := by exact_mod_cast not_lt.mp hm
    rw [if_neg (not_lt.mpr (div_nonneg hm0 hten.le)), if_neg hm]
    have : (m : ℚ) = (m.natAbs : ℚ) := by
      rw [Nat.cast_natAbs, Int.cast_abs, abs_of_nonneg hm0]
    rw [this, hquot]

theorem roundQuotient_bounds {n p : ℕ} (hp : 0 < p) (hlt : p < digitCount n)
    (hw : digitCount n < 2 ^ 32) :
    pow10 (p - 1) ≤ roundQuotient n (pow10 (digitCount n - p)) ∧
      roundQuotient n (pow10 (digitCount n - p)) ≤ pow10 p := by
  have hunit := pow10_pos (digitCount n - p)
  have hn : 0 < n := by
    by_contra h0
    rw [Nat.eq_zero_of_not_pos h0, digitCount_zero] at hlt
    omega
  have hbelow : n / pow10 (digitCount n - p) < pow10 p := by
    have h := div_pow10_lt (show digitCount n - p ≤ digitCount n by omega) (lt_pow10_digitCount hw)
    rwa [show digitCount n - (digitCount n - p) = p by omega] at h
  have habove : pow10 (p - 1) ≤ n / pow10 (digitCount n - p) := by
    apply (Nat.le_div_iff_mul_le hunit).mpr
    rw [← pow10_add, show p - 1 + (digitCount n - p) = digitCount n - 1 by omega]
    exact pow10_pred_digitCount_le hn hw
  rw [roundQuotient_eq hunit]
  split <;> omega

theorem digits_round_of_lt {x : Decimal} {p : Precision} (hlt : p.digits < x.digits)
    (hd : x.digits < 2 ^ 32) :
    (x.round p).digits = p.digits := by
  have hp := p.digits_pos
  have hpw := p.digits_lt
  obtain ⟨hlow, hhigh⟩ := roundQuotient_bounds hp hlt hd
  have hcount : ∀ k : ℕ, pow10 (p.digits - 1) ≤ k → k < pow10 p.digits →
      digitCount k = p.digits := by
    intro k hk1 hk2
    apply le_antisymm (digitCount_le hp hpw hk2)
    by_contra hshort
    have hk := digitCount_pos k
    have : k < pow10 (p.digits - 1) := (digitCount_le_iff (by omega) (by omega)).mp (by omega)
    omega
  rw [round_eq_of_digits_lt hd]
  extract_lets dropped q
  rw [if_neg (show ¬x.digits ≤ p.digits by omega)]
  split
  · next hcarry =>
    have hq : q = pow10 p.digits := le_antisymm hhigh hcarry
    show digitCount (withSignOf x.mantissa (q / 10)).natAbs = p.digits
    rw [natAbs_withSignOf, hq]
    apply hcount
    · rw [show p.digits = (p.digits - 1) + 1 by omega, pow10_succ, Nat.mul_div_cancel _ (by decide)]
      exact le_refl _
    · exact Nat.div_lt_self (pow10_pos _) (by decide)
  · next hnocarry =>
    show digitCount (withSignOf x.mantissa q).natAbs = p.digits
    rw [natAbs_withSignOf]
    exact hcount q hlow (by omega)

theorem withSignOf_mul (m : ℤ) (a b : ℕ) : withSignOf m (a * b) = withSignOf m a * b := by
  unfold withSignOf
  split <;> push_cast <;> ring

theorem withSignOf_neg {m : ℤ} (hm : m ≠ 0) (n : ℕ) : withSignOf (-m) n = -withSignOf m n := by
  unfold withSignOf
  split_ifs <;> omega

theorem digits_neg (x : Decimal) : (-x).digits = x.digits := by
  show digitCount (-x.mantissa).natAbs = digitCount x.mantissa.natAbs
  rw [Int.natAbs_neg]

theorem mantissa_ne_zero_of_lt {x : Decimal} {p : Precision} (hlt : p.digits < x.digits) :
    x.mantissa ≠ 0 := by
  intro h0
  have : x.digits ≤ p.digits := by
    show digitCount x.mantissa.natAbs ≤ p.digits
    rw [h0]
    exact digitCount_le p.digits_pos p.digits_lt (pow10_pos _)
  omega

theorem round_neg (x : Decimal) (p : Precision) : (-x).round p = -x.round p := by
  by_cases hfits : x.digits ≤ p.digits
  · rw [round_of_digits_le (by rwa [digits_neg]), round_of_digits_le hfits]
  have hm := mantissa_ne_zero_of_lt (not_le.mp hfits)
  simp only [round, digits_neg, neg_mantissa, neg_scale, Int.natAbs_neg, if_neg hfits]
  split_ifs
  · show (⟨_, _⟩ : Decimal) = ⟨-_, _⟩
    rw [withSignOf_neg hm]
  · show (⟨_, _⟩ : Decimal) = ⟨-_, _⟩
    rw [withSignOf_neg hm]

/-- Rounding a decimal whose scale and exponent are true words, with more digits than the
precision, gives the rounded quotient by `10 ^ d`, `d` the dropped digits, placed `d` places up;
after a carry the same value is written with one zero fewer. -/
theorem value_round_of_lt {x : Decimal} {p : Precision} (hw : x.WordScale) (he : x.TrueExponent)
    (hlt : p.digits < x.digits) (hd : x.digits < 2 ^ 32) :
    (x.round p).value =
      (withSignOf x.mantissa (roundQuotient x.mantissa.natAbs (pow10 (x.digits - p.digits))) : ℚ) *
        10 ^ (((x.digits - p.digits : ℕ) : ℤ) - x.scale) := by
  have hp := p.digits_pos
  obtain ⟨-, hhigh⟩ := roundQuotient_bounds hp hlt hd
  have hbounds := hw
  unfold WordScale int64Min int64Max at hbounds
  unfold TrueExponent int64Max at he
  have hwrap0 : wrap64 (x.scale - ((x.digits - p.digits : ℕ) : ℤ)) =
      x.scale - ((x.digits - p.digits : ℕ) : ℤ) :=
    wrap64_of_mem (by unfold int64Min; omega) (by unfold int64Max; omega)
  have hwrap1 : wrap64 (x.scale - ((x.digits - p.digits : ℕ) : ℤ) - 1) =
      x.scale - ((x.digits - p.digits : ℕ) : ℤ) - 1 :=
    wrap64_of_mem (by unfold int64Min; omega) (by unfold int64Max; omega)
  set Q := roundQuotient x.mantissa.natAbs (pow10 (x.digits - p.digits)) with hQ
  rw [round_eq_of_digits_lt hd]
  extract_lets dropped q
  have hq : q = Q := rfl
  rw [if_neg (show ¬x.digits ≤ p.digits by omega)]
  split
  · next hcarry =>
    have hqp : q = pow10 p.digits := le_antisymm hhigh hcarry
    have hten : Q = q / 10 * 10 := by
      rw [← hq, hqp, show p.digits = (p.digits - 1) + 1 by omega, pow10_succ,
        Nat.mul_div_cancel _ (by decide)]
    show ((withSignOf x.mantissa (q / 10) : ℤ) : ℚ) * 10 ^ (-wrap64 (x.scale - dropped - 1)) = _
    rw [hwrap1, hten, withSignOf_mul,
      show -(x.scale - ((x.digits - p.digits : ℕ) : ℤ) - 1) =
        (((x.digits - p.digits : ℕ) : ℤ) - x.scale) + 1 by ring,
      zpow_add_one₀ (by norm_num)]
    push_cast
    ring
  · show ((withSignOf x.mantissa q : ℤ) : ℚ) * 10 ^ (-wrap64 (x.scale - dropped)) = _
    rw [hwrap0, ← hq, neg_sub]

theorem value_round {x : Decimal} (hw : x.WordScale) (he : x.TrueExponent)
    (hd : x.digits < 2 ^ 32) (p : Precision) :
    (x.round p).value = roundSig x.value p.digits := by
  by_cases hlt : p.digits < x.digits
  · have hm := mantissa_ne_zero_of_lt hlt
    have hdiv : x.value / 10 ^ (((x.digits - p.digits : ℕ) : ℤ) - x.scale) =
        (x.mantissa : ℚ) / 10 ^ (x.digits - p.digits) := by
      rw [value, sub_eq_add_neg, zpow_add₀ (by norm_num), zpow_natCast,
        mul_div_mul_right _ _ (by positivity)]
    rw [value_round_of_lt hw he hlt hd, roundSig, roundAt, log_abs_value hm hd,
      show (x.digits : ℤ) - 1 - x.scale + 1 - p.digits =
        ((x.digits - p.digits : ℕ) : ℤ) - x.scale by omega,
      hdiv, roundAway_div_pow10 _ (by omega)]
  rw [round_of_digits_le (not_lt.mp hlt)]
  by_cases hm : x.mantissa = 0
  · rw [value_eq_zero_iff.mpr hm, roundSig_zero]
  rw [roundSig, log_abs_value hm hd]
  set u := (x.digits : ℤ) - 1 - x.scale + 1 - p.digits
  have hval : x.value = ((x.mantissa * (10 ^ (-x.scale - u).toNat : ℕ) : ℤ) : ℚ) * 10 ^ u := by
    rw [value, zpow_eq_mul_zpow (show u ≤ -x.scale by omega)]
    push_cast
    ring
  rw [hval, roundAt_intCast_mul]

/-- Rounding keeps a decimal that fits the precision; otherwise it gives exactly the precision's
digits and the multiple of the unit of the `p`-th digit nearest to the value, a half going away
from zero, the carry of `99…9` into `10…0` included. It commutes with negation, and rounding
again changes nothing. -/
theorem round_half_away (x : Decimal) (p : Precision) (hw : x.WordScale) (he : x.TrueExponent)
    (hd : x.digits < 2 ^ 32) :
    (x.digits ≤ p.digits → x.round p = x) ∧
    (p.digits < x.digits → (x.round p).digits = p.digits ∧
      (x.round p).value = roundAt x.value (x.exponent + 1 - p.digits)) ∧
    (-x).round p = -x.round p ∧ (x.round p).round p = x.round p := by
  refine ⟨round_of_digits_le, fun hlt => ⟨digits_round_of_lt hlt hd, ?_⟩, round_neg x p,
    round_round p hd⟩
  rw [value_round hw he hd, roundSig, log_abs_value (mantissa_ne_zero_of_lt hlt) hd,
    exponent_of_trueExponent hw he]

end Decimal

end Calculator

namespace Calculator.Decimal

/-- `-99.95` at three digits carries into `-100`: the nearest multiple of a tenth, the half going
away from zero. -/
theorem round_half_away_carry :
    (⟨-9995, 2⟩ : Decimal).WordScale ∧ (⟨-9995, 2⟩ : Decimal).TrueExponent ∧
      (⟨-9995, 2⟩ : Decimal).digits < 2 ^ 32 ∧
      ((⟨-9995, 2⟩ : Decimal).round ⟨3, by decide, by decide⟩).digits = 3 ∧
      ((⟨-9995, 2⟩ : Decimal).round ⟨3, by decide, by decide⟩).value = -100 := by
  have hw : (⟨-9995, 2⟩ : Decimal).WordScale := by decide
  have he : (⟨-9995, 2⟩ : Decimal).TrueExponent := by with_unfolding_all decide
  have hd : (⟨-9995, 2⟩ : Decimal).digits < 2 ^ 32 := by with_unfolding_all decide
  obtain ⟨-, hround, -, -⟩ := round_half_away ⟨-9995, 2⟩ ⟨3, by decide, by decide⟩ hw he hd
  obtain ⟨hdigits, hvalue⟩ := hround (by with_unfolding_all decide)
  refine ⟨hw, he, hd, hdigits, ?_⟩
  rw [hvalue]
  with_unfolding_all decide

end Calculator.Decimal
