import Calculator.Proofs.ExpAccuracy
/-!
The failures of the elementary functions on their domains. Each divides only by a constant, by
a count, or by a working value that `Positivity` shows positive, so each fails only by overflow:
the circular functions after the angle is reduced by a positive `2π`, the arctangent's halvings
by `1 + √(1 + a²)`, the logarithms by `r + 1` and by `ln 10`, the hyperbolic tangent by the
hyperbolic cosine. For an argument of fewer than `2 ^ 31` digits the exponential's sums stay
working values, so `e^x` is positive (`exp_pos_of_sane`). The working precisions are at most
`10 ^ 5` digits.
-/

namespace Calculator.Elementary

open Decimal Except

abbrev OverflowOnly {α : Type} (x : Except Fault α) : Prop := x.Meets (fun _ => True) (· = .overflow)

theorem OverflowOnly.of_meets {α : Type} {x : Except Fault α} {P : α → Prop}
    (h : x.Meets P (· = .overflow)) : OverflowOnly x :=
  h.mono (fun _ _ => trivial) fun _ h => h

theorem add_overflowOnly (x y : Decimal) (w : Precision) : OverflowOnly (x.add y w) :=
  .of_meets (add_meets x y w)

theorem sub_overflowOnly (x y : Decimal) (w : Precision) : OverflowOnly (x.sub y w) :=
  .of_meets (sub_meets x y w)

theorem mul_overflowOnly (x y : Decimal) (w : Precision) : OverflowOnly (x.mul y w) :=
  .of_meets (mul_meets x y w)

theorem div_overflowOnly (x : Decimal) {y : Decimal} (hy : y.mantissa ≠ 0) (w : Precision) :
    OverflowOnly (x.div y w) :=
  .of_meets (div_meets x hy w)

theorem finish_overflowOnly (x : Decimal) (p : Precision) : OverflowOnly (finish x p) :=
  .of_meets (finish_meets x p)

theorem series_overflowOnly {w : Precision} {next : Nat → Decimal → Except Fault (Decimal × Decimal)}
    (hnext : ∀ n state, 0 < n → OverflowOnly (next n state)) (start first : Decimal) :
    OverflowOnly (series w next start first) :=
  series_meets (fun _ => True) (fun _ => True) (fun _ => True)
    (fun n state hn _ => (hnext n state hn).mono (fun _ _ => ⟨trivial, trivial⟩) fun _ h => h)
    (fun sum term _ _ => add_overflowOnly sum term w) trivial trivial

theorem ofInt_mantissa_ne_zero {n : Int} (hn : n ≠ 0) : (ofInt n).mantissa ≠ 0 := hn

theorem trigPrecision_meets (x : Decimal) (p : Precision) :
    (trigPrecision x p).Meets (fun w => w.digits ≤ p.digits + 1011) (· = .overflow) := by
  unfold trigPrecision
  split_ifs with hlimit
  · rfl
  · show (p.widen _).digits ≤ _
    simp only [Precision.widen_digits, guardDigits, trigLimit] at hlimit ⊢
    omega

theorem reduceAngle_meets (x : Decimal) {w : Precision} (hw : w.digits ≤ 100000) :
    OverflowOnly (reduceAngle x w) := by
  simp only [reduceAngle]
  have hpi := pi_pos (p := w) (by omega)
  refine meets_bind (mul_meets (pi w) 2 w) fun twoPi htwoPi => ?_
  have hpos : twoPi.mantissa ≠ 0 := by
    intro hzero
    have := htwoPi.1
    rw [hzero, Int.sign_eq_one_of_pos hpi] at this
    cases this
  refine meets_bind (div_meets x hpos w) fun _ _ => ?_
  refine meets_ite (fun _ => meets_pure trivial) fun _ => ?_
  exact meets_bind (mul_overflowOnly _ twoPi w) fun _ _ => sub_overflowOnly _ _ w

theorem sinSeries_overflowOnly (r : Decimal) (w : Precision) : OverflowOnly (sinSeries r w) := by
  simp only [sinSeries]
  refine meets_ite (fun _ => meets_pure trivial) fun _ => ?_
  refine meets_bind (mul_overflowOnly r r w) fun r2 _ => series_overflowOnly (fun n term hn => ?_) r r
  refine meets_bind (mul_overflowOnly term r2 w) fun product _ => meets_bind
    (div_overflowOnly product (ofInt_mantissa_ne_zero (Int.mul_ne_zero (by omega) (by omega))) w)
    fun _ _ => meets_pure trivial

theorem cosSeries_overflowOnly (r : Decimal) (w : Precision) : OverflowOnly (cosSeries r w) := by
  simp only [cosSeries]
  refine meets_bind (mul_overflowOnly r r w) fun r2 _ => series_overflowOnly (fun n term hn => ?_) one one
  refine meets_bind (mul_overflowOnly term r2 w) fun product _ => meets_bind
    (div_overflowOnly product (ofInt_mantissa_ne_zero (Int.mul_ne_zero (by omega) (by omega))) w)
    fun _ _ => meets_pure trivial

theorem sin_overflowOnly (x : Decimal) {p : Precision} (hp : p.digits ≤ 50000) :
    OverflowOnly (sin x p) := by
  simp only [sin]
  refine meets_ite (fun _ => meets_pure trivial) fun _ => ?_
  refine meets_bind (trigPrecision_meets x p) fun w hw => ?_
  exact meets_bind (reduceAngle_meets x (by omega)) fun r _ =>
    meets_bind (sinSeries_overflowOnly r w) fun s _ => finish_overflowOnly s p

theorem cos_overflowOnly (x : Decimal) {p : Precision} (hp : p.digits ≤ 50000) :
    OverflowOnly (cos x p) := by
  simp only [cos]
  refine meets_ite (fun _ => meets_pure trivial) fun _ => ?_
  refine meets_bind (trigPrecision_meets x p) fun w hw => ?_
  exact meets_bind (reduceAngle_meets x (by omega)) fun r _ =>
    meets_bind (cosSeries_overflowOnly r w) fun s _ => finish_overflowOnly s p

theorem mul_self_meets (x : Decimal) (w : Precision) :
    (x.mul x w).Meets (fun s => 0 ≤ s.mantissa) (· = .overflow) := by
  refine (mul_meets x x w).mono (fun s hs => ?_) fun _ h => h
  apply Int.sign_nonneg_iff.mp
  rw [hs.1]
  exact mul_self_nonneg _

theorem halveAngle_overflowOnly (w : Precision) (fuel : Nat) (a : Decimal) (count : Nat) :
    OverflowOnly (halveAngle w fuel a count) := by
  induction fuel generalizing a count with
  | zero => exact meets_ok trivial
  | succ fuel ih =>
    unfold halveAngle
    refine meets_ite (fun _ => ?_) fun _ => meets_ok trivial
    refine meets_bind (mul_self_meets a w) fun square hsquare => ?_
    refine meets_bind (add_meets one square w) fun s hs => ?_
    refine meets_bind (sqrt_meets (hs (by decide) hsquare).1 w) fun root hroot => ?_
    refine meets_bind (add_meets one root w) fun d hd => ?_
    have hd0 : d.mantissa ≠ 0 := ((hd (by decide) hroot.1).2 (.inl (by decide))).ne'
    exact meets_bind (div_overflowOnly a hd0 w) fun a' _ => ih a' (count + 1)

theorem arctanWorking_overflowOnly (x : Decimal) (w : Precision) :
    OverflowOnly (arctanWorking x w) := by
  unfold arctanWorking
  refine meets_ite (fun _ => meets_pure trivial) fun hx => ?_
  extract_lets inverted finalSign afterReduction
  have hsign : ∀ res, OverflowOnly (finalSign res) := fun _ => meets_pure trivial
  have hafter : ∀ a, OverflowOnly (afterReduction a) := by
    intro a
    refine meets_bind (halveAngle_overflowOnly w angleFuel a 0) fun halved _ => ?_
    obtain ⟨a', doublings⟩ := halved
    refine meets_bind (mul_overflowOnly a' a' w) fun a2 _ => ?_
    refine meets_bind (series_overflowOnly (fun n power _ => ?_) a' a') fun sum _ => ?_
    · exact meets_bind (mul_overflowOnly power a2 w) fun _ _ => meets_bind
        (div_overflowOnly _ (ofInt_mantissa_ne_zero (by omega)) w) fun _ _ => meets_pure trivial
    refine meets_bind (mul_overflowOnly _ _ w) fun res _ => ?_
    refine meets_ite (fun _ => ?_) fun _ => hsign res
    exact meets_bind (div_overflowOnly _ (by decide) w) fun half _ =>
      meets_bind (sub_overflowOnly half res w) fun res _ => hsign res
  have habs : x.abs.mantissa ≠ 0 := by
    simp only [Decimal.abs]
    omega
  exact meets_ite (fun _ => meets_bind (div_overflowOnly one habs w) fun a _ => hafter a)
    fun _ => hafter x.abs

theorem arctan_overflowOnly (x : Decimal) (p : Precision) : OverflowOnly (arctan x p) :=
  meets_bind (arctanWorking_overflowOnly x _) fun v _ => finish_overflowOnly v p

theorem sinhSeries_overflowOnly (x : Decimal) (w : Precision) : OverflowOnly (sinhSeries x w) := by
  simp only [sinhSeries]
  refine meets_bind (mul_overflowOnly x x w) fun x2 _ => series_overflowOnly (fun n term hn => ?_) x x
  exact meets_bind (mul_overflowOnly term x2 w) fun product _ => meets_bind
    (div_overflowOnly product (ofInt_mantissa_ne_zero (Int.mul_ne_zero (by omega) (by omega))) w)
    fun _ _ => meets_pure trivial

/-! The exponential of an argument -/

theorem halveWhileAbove_sane (bound : Decimal) {w : Precision} (hw : w.digits < 2 ^ 20)
    (fuel : Nat) {r : Decimal} (hr : r.Sane) (hr0 : 0 ≤ r.mantissa) (count : Nat) :
    (halveWhileAbove bound w fuel r count).Meets (fun res => res.1.Sane ∧ 0 ≤ res.1.mantissa)
      (· = .overflow) := by
  induction fuel generalizing r count with
  | zero => exact meets_ok ⟨hr, hr0⟩
  | succ fuel ih =>
    unfold halveWhileAbove
    refine meets_ite (fun _ => ?_) fun _ => meets_ok ⟨hr, hr0⟩
    refine meets_bind ((div_spec_of_sane hr tame_two (by decide) hw).and
      (div_meets r (by decide : (2 : Decimal).mantissa ≠ 0) w)) fun r' hr' => ?_
    exact ih hr'.1.1.sane (hr'.2.1 (by decide) hr0).1 (count + 1)

theorem taylor_tame {r : Decimal} (hr : r.Sane) (hr0 : 0 ≤ r.mantissa) {w : Precision}
    (hw : w.digits < 2 ^ 20) :
    (series w (fun n term => do
        let term ← (← term.mul r w).div (ofInt n) w
        pure (term, term)) one one).Meets (fun v => v.Tame ∧ 0 < v.mantissa) (· = .overflow) := by
  refine series_meets_inv (fun n term sum => 0 < n ∧ term.Tame ∧ 0 ≤ term.mantissa ∧
      sum.Tame ∧ 0 < sum.mantissa) _ (fun n term sum hn h => ?_) (fun _ _ h => h.2.2.2)
    ⟨Nat.one_pos, tame_one, by decide, tame_one, by decide⟩
  obtain ⟨hn0, ht, ht0, hs, hs0⟩ := h
  refine meets_bind ((mul_spec_of_sane ht.sane hr hw).and (mul_meets term r w)) fun product hp => ?_
  have hp0 : 0 ≤ product.mantissa := by
    apply Int.sign_nonneg_iff.mp
    rw [hp.2.1]
    exact Int.mul_nonneg (Int.sign_nonneg_iff.mpr ht0) (Int.sign_nonneg_iff.mpr hr0)
  have hk : (ofInt n).mantissa ≠ 0 := by
    show (n : ℤ) ≠ 0
    omega
  have hkt : (ofInt n).Tame := by
    apply tame_ofInt
    have : n < 2 ^ 23 := by
      unfold seriesFuel at hn
      omega
    exact lt_of_lt_of_le (by rw [Int.natAbs_natCast]; exact this) (by decide)
  refine meets_bind ((div_spec hp.1.1 hkt hk hw).and (div_meets product hk w)) fun q hq => ?_
  have hq0 : 0 ≤ q.mantissa := (hq.2.1 (by show (0 : ℤ) < n; omega) hp0).1
  refine meets_pure ⟨fun _ => ⟨hs, hs0⟩, fun _ => ?_⟩
  exact ((add_spec hs hq.1.1 hw).and (add_meets sum q w)).mono
    (fun s' h => ⟨by omega, hq.1.1, hq0, h.1.1, (h.2 hs0.le hq0).2 (.inl hs0)⟩) fun _ h => h

theorem squareTimes_tame {w : Precision} (hw : w.digits < 2 ^ 20) (k : Nat) {s : Decimal}
    (hs : s.Tame ∧ 0 < s.mantissa) :
    (squareTimes w k s).Meets (fun v => v.Tame ∧ 0 < v.mantissa) (· = .overflow) := by
  induction k generalizing s with
  | zero => exact meets_ok hs
  | succ k ih =>
    refine meets_bind ((mul_spec hs.1 hs.1 hw).and (mul_meets s s w)) fun s' hs' => ih ⟨hs'.1.1, ?_⟩
    apply Int.sign_pos_iff.mp
    rw [hs'.2.1, Int.sign_eq_one_of_pos hs.2]
    decide

theorem exp_pos_of_sane {x : Decimal} (hx : x.Sane) {p : Precision} (hp : p.digits ≤ 100000) :
    (exp x p).Meets (fun v => 0 < v.mantissa) (· = .overflow) := by
  simp only [exp]
  refine meets_ite (fun _ => meets_pure (by decide)) fun _ => ?_
  refine meets_ite (fun _ => ?_) fun hexp => ?_
  · apply meets_throw_bind
    rfl
  have hw : (p.widen (guardDigits + 2 * (max x.exponent 0).toNat + 4)).digits < 2 ^ 20 := by
    simp only [Precision.widen_digits, guardDigits, expLimit] at hexp ⊢
    omega
  refine meets_bind (halveWhileAbove_sane half hw halvingFuel hx.abs (Int.natCast_nonneg _) 0)
    fun halved hr => ?_
  obtain ⟨r, halvings⟩ := halved
  refine meets_bind (taylor_tame hr.1 hr.2 hw) fun taylor ht => ?_
  refine meets_bind (squareTimes_tame hw halvings ht) fun sum hsum => ?_
  refine meets_ite (fun _ => ?_) fun _ => meets_bind (meets_pure hsum.2) fun v hv => finish_pos hv p
  have hdigits := hsum.1.digits_lt
  refine meets_bind ((div_meets one hsum.2.ne' _).mono
    (fun v hv => (hv.1 hsum.2 (by decide)).2 (by decide) (by omega)) fun _ h => h) fun v hv => ?_
  exact finish_pos hv p

/-! The hyperbolic functions of an argument -/

theorem expPair_meets {x : Decimal} (hx : x.Sane) {w : Precision} (hw : w.digits ≤ 100000) :
    (expPair x w).Meets (fun r => 0 < r.1.mantissa ∧ 0 ≤ r.2.mantissa) (· = .overflow) := by
  simp only [expPair]
  refine meets_bind (exp_pos_of_sane hx hw) fun ep hep => ?_
  exact meets_bind (div_meets one hep.ne' w) fun em hem =>
    meets_pure ⟨hep, (hem.1 hep (by decide)).1⟩

theorem coshWorking_pos {x : Decimal} (hx : x.Sane) {w : Precision} (hw : w.digits ≤ 100000) :
    (coshWorking x w).Meets (fun v => 0 < v.mantissa) (· = .overflow) := by
  simp only [coshWorking]
  refine meets_bind (expPair_meets hx hw) fun pair hpair => ?_
  obtain ⟨ep, em⟩ := pair
  obtain ⟨hep, hem⟩ := hpair
  refine meets_bind (add_meets ep em w) fun s hs => ?_
  have hspos : 0 < s.mantissa := (hs hep.le hem).2 (.inl hep)
  have htwo : (2 : Decimal).digits = 1 := by with_unfolding_all decide
  exact (div_meets s (by decide : (2 : Decimal).mantissa ≠ 0) w).mono
    (fun v hv => (hv.1 (by decide) hspos.le).2 hspos (by omega)) fun _ h => h

theorem sinhWorking_overflowOnly {x : Decimal} (hx : x.Sane) {w : Precision}
    (hw : w.digits ≤ 100000) : OverflowOnly (sinhWorking x w) := by
  simp only [sinhWorking]
  refine meets_ite (fun _ => sinhSeries_overflowOnly x w) fun _ => ?_
  refine meets_bind (expPair_meets hx hw) fun pair _ => ?_
  obtain ⟨ep, em⟩ := pair
  exact meets_bind (sub_overflowOnly ep em w) fun d _ => div_overflowOnly d (by decide) w

theorem sinh_overflowOnly {x : Decimal} (hx : x.Sane) {p : Precision} (hp : p.digits ≤ 50000) :
    OverflowOnly (sinh x p) := by
  simp only [sinh]
  refine meets_ite (fun _ => meets_pure trivial) fun _ => ?_
  exact meets_bind
    (sinhWorking_overflowOnly hx (by simp only [Precision.widen_digits, guardDigits]; omega))
    fun v _ => finish_overflowOnly v p

theorem cosh_overflowOnly {x : Decimal} (hx : x.Sane) {p : Precision} (hp : p.digits ≤ 50000) :
    OverflowOnly (cosh x p) := by
  simp only [cosh]
  refine meets_ite (fun _ => meets_pure trivial) fun _ => ?_
  exact meets_bind (coshWorking_pos hx (by simp only [Precision.widen_digits, guardDigits]; omega))
    fun v _ => finish_overflowOnly v p

theorem tanh_overflowOnly {x : Decimal} (hx : x.Sane) {p : Precision} (hp : p.digits ≤ 50000) :
    OverflowOnly (tanh x p) := by
  simp only [tanh]
  have hw : (p.widen guardDigits).digits ≤ 100000 := by
    simp only [Precision.widen_digits, guardDigits]
    omega
  refine meets_ite (fun _ => meets_pure trivial) fun _ => ?_
  refine meets_ite (fun _ => meets_pure trivial) fun _ => ?_
  refine meets_bind (sinhWorking_overflowOnly hx hw) fun s _ => ?_
  refine meets_bind (coshWorking_pos hx hw) fun c hc => ?_
  exact meets_bind (div_overflowOnly s hc.ne' _) fun v _ => finish_overflowOnly v p

theorem lnSeries_overflowOnly {r : Decimal} (hr : 0 ≤ r.mantissa) {w : Precision}
    (hw : w.digits ≤ 1000000) : OverflowOnly (lnSeries r w) :=
  .of_meets (lnSeries_meets hr hw)

theorem digitCount_exponent_le (x : Decimal) : digitCount x.exponent.natAbs ≤ 19 := by
  apply digitCount_le (by decide) (by decide)
  have h := wrap64_mem ((x.digits : Int) - 1 - x.scale)
  simp only [int64Min, int64Max] at h
  show (wrap64 _).natAbs < 10000000000000000000
  omega

theorem add_mul_overflowOnly (res : Decimal) {c : Except Fault Decimal} (hc : OverflowOnly c)
    (k : Decimal) (w : Precision) :
    OverflowOnly (c >>= fun a => a.mul k w >>= fun b => res.add b w) :=
  meets_bind hc fun a _ => meets_bind (mul_overflowOnly a k w) fun b _ => add_overflowOnly res b w

theorem lnPositive_overflowOnly {x : Decimal} (hx : 0 ≤ x.mantissa) {w : Precision}
    (hw : w.digits ≤ 100000) : OverflowOnly (lnPositive x w) := by
  unfold lnPositive
  refine meets_ite (fun _ => meets_pure trivial) fun _ => ?_
  refine meets_ite (fun _ => lnSeries_overflowOnly hx (by omega)) fun _ => ?_
  extract_lets k w' addTens
  have hw' : w'.digits ≤ 1000000 := by
    have := digitCount_exponent_le x
    simp only [w', k, Precision.widen_digits]
    omega
  have htens : ∀ res, OverflowOnly (addTens res) := fun res =>
    meets_ite (fun _ => add_mul_overflowOnly res (.of_meets (lnTen_pos hw')) _ _)
      fun _ => meets_pure trivial
  refine meets_bind (halveWhileAbove_meets threeHalves w' halvingFuel
    (show 0 ≤ (x.shift (-k)).mantissa from hx) 0) fun halved hm => ?_
  obtain ⟨m, j⟩ := halved
  refine meets_bind (lnSeries_overflowOnly hm hw') fun res _ => ?_
  refine meets_ite (fun _ => ?_) fun _ =>
    meets_bind (Q := fun _ => True) (meets_pure trivial) fun r _ => htens r
  refine meets_bind (lnSeries_overflowOnly (show 0 ≤ (2 : Decimal).mantissa by decide) hw')
    fun lnTwo _ => ?_
  exact meets_bind (mul_overflowOnly lnTwo _ _) fun b _ =>
    meets_bind (add_overflowOnly res b _) fun r _ => htens r

theorem ln_overflowOnly {x : Decimal} (hx : 0 < x.sign) {p : Precision} (hp : p.digits ≤ 50000) :
    OverflowOnly (ln x p) := by
  simp only [ln]
  rw [if_neg (by omega)]
  exact meets_bind (lnPositive_overflowOnly (Int.sign_nonneg_iff.mp hx.le)
    (by simp only [Precision.widen_digits, guardDigits]; omega)) fun v _ => finish_overflowOnly v p

theorem log10_overflowOnly {x : Decimal} (hx : 0 < x.sign) {p : Precision}
    (hp : p.digits ≤ 50000) : OverflowOnly (log10 x p) := by
  simp only [log10]
  rw [if_neg (by omega)]
  have hw : (p.widen guardDigits).digits ≤ 100000 := by
    simp only [Precision.widen_digits, guardDigits]
    omega
  refine meets_bind (lnPositive_overflowOnly (Int.sign_nonneg_iff.mp hx.le) hw) fun num _ => ?_
  refine meets_bind (lnTen_pos (by omega)) fun t ht => ?_
  exact meets_bind (div_overflowOnly num ht.ne' _) fun v _ => finish_overflowOnly v p

end Calculator.Elementary
