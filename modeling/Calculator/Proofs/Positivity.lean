import Calculator.Proofs.Outcomes
/-!
Signs of the working values of the elementary functions. The exponential is positive, its
Taylor sum starting at one and adding quotients of no sign below zero; π is positive, Machin's
two arctangents bounded by the first terms of their alternating series; `ln 2` and `ln 10` are
positive, each series starting from a positive quotient. These are the divisors the functions
use, so none of them divides by zero. The working precisions here are far below `2 ^ 31`
digits, where every quotient of positive numbers is positive.
-/

namespace Except

variable {ε α β : Type} {P : β → Prop} {E : ε → Prop}

theorem meets_throw_bind {e : ε} (h : E e) (f : α → Except ε β) : (throw e >>= f).Meets P E := h

end Except

namespace Calculator.Elementary

open Decimal Except

theorem finish_meets (x : Decimal) (p : Precision) :
    (finish x p).Meets (fun v => v.mantissa.sign = x.mantissa.sign) (· = .overflow) := by
  refine (checked_meets _).mono ?_ fun _ h => h
  rintro v rfl
  rw [stripZerosTo_mantissa_sign, round_mantissa_sign]

theorem sumSeries_meets {w : Precision} {next : Nat → Decimal → Except Fault (Decimal × Decimal)}
    {E : Fault → Prop} (Step Term Sum : Decimal → Prop)
    (hnext : ∀ n state, 0 < n → Step state →
      (next n state).Meets (fun r => Step r.1 ∧ Term r.2) E)
    (hadd : ∀ sum term, Sum sum → Term term → (sum.add term w).Meets Sum E) (fuel n : Nat)
    (hn : 0 < n) {state sum : Decimal} (hstate : Step state) (hsum : Sum sum) :
    (sumSeries w next fuel n state sum).Meets Sum E := by
  induction fuel generalizing n state sum with
  | zero => exact meets_ok hsum
  | succ fuel ih =>
    unfold sumSeries
    refine meets_bind (hnext n state hn hstate) fun r hr => ?_
    obtain ⟨state', term⟩ := r
    obtain ⟨hstate', hterm⟩ := hr
    refine meets_ite (fun _ => meets_ok hsum) fun _ => ?_
    exact meets_bind (hadd sum term hsum hterm) fun sum' hsum' =>
      ih (n + 1) (Nat.succ_pos n) hstate' hsum'

theorem series_meets {w : Precision} {next : Nat → Decimal → Except Fault (Decimal × Decimal)}
    {E : Fault → Prop} (Step Term Sum : Decimal → Prop)
    (hnext : ∀ n state, 0 < n → Step state →
      (next n state).Meets (fun r => Step r.1 ∧ Term r.2) E)
    (hadd : ∀ sum term, Sum sum → Term term → (sum.add term w).Meets Sum E)
    {start first : Decimal} (hstart : Step start) (hfirst : Sum first) :
    (series w next start first).Meets Sum E :=
  sumSeries_meets Step Term Sum hnext hadd _ 1 Nat.one_pos hstart hfirst

theorem halveWhileAbove_meets (bound : Decimal) (w : Precision) (fuel : Nat) {r : Decimal}
    (hr : 0 ≤ r.mantissa) (count : Nat) :
    (halveWhileAbove bound w fuel r count).Meets (fun res => 0 ≤ res.1.mantissa)
      (· = .overflow) := by
  induction fuel generalizing r count with
  | zero => exact meets_ok hr
  | succ fuel ih =>
    unfold halveWhileAbove
    refine meets_ite (fun _ => ?_) fun _ => meets_ok hr
    refine meets_bind (div_meets r (by decide : (2 : Decimal).mantissa ≠ 0) w) fun r' hr' => ?_
    exact ih ((hr'.1 (by decide) hr).1) (count + 1)

theorem squareTimes_meets (w : Precision) (k : Nat) {s : Decimal} (hs : 0 < s.mantissa) :
    (squareTimes w k s).Meets (fun v => 0 < v.mantissa) (· = .overflow) := by
  induction k generalizing s with
  | zero => exact meets_ok hs
  | succ k ih =>
    refine meets_bind (mul_meets s s w) fun s' hs' => ih ?_
    have hsign : s'.mantissa.sign = 1 := by
      rw [hs'.1, Int.sign_eq_one_of_pos hs]
      rfl
    exact Int.sign_eq_one_iff_pos.mp hsign

theorem taylor_meets {r : Decimal} (hr : 0 ≤ r.mantissa) (w : Precision) :
    (series w (fun n term => do
        let term ← (← term.mul r w).div (ofInt n) w
        pure (term, term)) one one).Meets (fun v => 0 < v.mantissa) (· = .overflow) := by
  refine series_meets (fun term => 0 ≤ term.mantissa) (fun term => 0 ≤ term.mantissa) _
    (fun n term hn hterm => ?_) (fun sum term hsum hterm => ?_) (by decide) (by decide)
  · refine meets_bind (mul_meets term r w) fun product hproduct => ?_
    have hnonneg : 0 ≤ product.mantissa := by
      apply Int.sign_nonneg_iff.mp
      rw [hproduct.1]
      exact Int.mul_nonneg (Int.sign_nonneg_iff.mpr hterm) (Int.sign_nonneg_iff.mpr hr)
    have hn' : (ofInt n).mantissa ≠ 0 := by
      show (n : Int) ≠ 0
      omega
    refine meets_bind (div_meets product hn' w) fun quotient hquotient => meets_pure ?_
    have hq := (hquotient.1 (by show (0 : Int) < n; omega) hnonneg).1
    exact ⟨hq, hq⟩
  · exact (add_meets sum term w).mono (fun sum' h => (h hsum.le hterm).2 (.inl hsum)) fun _ h => h

theorem finish_pos {x : Decimal} (hx : 0 < x.mantissa) (p : Precision) :
    (finish x p).Meets (fun v => 0 < v.mantissa) (· = .overflow) :=
  (finish_meets x p).mono (fun _ hv => Int.sign_pos_iff.mp (hv ▸ Int.sign_pos_iff.mpr hx))
    fun _ h => h

theorem exp_meets (x : Decimal) (p : Precision) :
    (exp x p).Meets (fun v => 0 ≤ v.mantissa) (· = .overflow) := by
  simp only [exp]
  refine meets_ite (fun _ => meets_pure (by decide)) fun _ => ?_
  refine meets_ite (fun _ => ?_) fun _ => ?_
  · apply meets_throw_bind
    rfl
  refine meets_bind (halveWhileAbove_meets half _ halvingFuel (Int.natCast_nonneg _) 0)
    fun halved hr => ?_
  obtain ⟨r, halvings⟩ := halved
  refine meets_bind (taylor_meets hr _) fun taylor htaylor => ?_
  refine meets_bind (squareTimes_meets _ halvings htaylor) fun sum hsum => ?_
  refine meets_ite (fun _ => ?_) fun _ =>
    meets_bind (meets_pure hsum) fun v hv => (finish_pos hv p).mono (fun _ h => h.le) fun _ h => h
  refine meets_bind ((div_meets one hsum.ne' _).mono (fun v hv => (hv.1 hsum (by decide)).1)
    fun _ h => h) fun v hv => ?_
  exact (finish_meets v p).mono (fun _ h => Int.sign_nonneg_iff.mp (h ▸ Int.sign_nonneg_iff.mpr hv))
    fun _ h => h

theorem arctanInverseFrom_bounds (q scale : Nat) (hq : 2 ≤ q) (k qPow : Nat) (sum : Int)
    (hqPow : 0 < qPow) :
    (k % 2 = 0 → sum ≤ arctanInverseFrom q scale hq k qPow sum ∧
      arctanInverseFrom q scale hq k qPow sum ≤ sum + (scale / (qPow * (2 * k + 1)) : Nat)) ∧
    (k % 2 = 1 → sum - (scale / (qPow * (2 * k + 1)) : Nat) ≤ arctanInverseFrom q scale hq k qPow sum ∧
      arctanInverseFrom q scale hq k qPow sum ≤ sum) := by
  fun_induction arctanInverseFrom q scale hq k qPow sum with
  | case1 k qPow sum term hzero =>
    simp only [term] at hzero
    rw [hzero]
    omega
  | case2 k qPow sum term hterm ih =>
    have hnext : 0 < qPow * (q * q) := Nat.mul_pos hqPow (Nat.mul_pos (by omega) (by omega))
    have hshrink : scale / (qPow * (q * q) * (2 * (k + 1) + 1)) ≤ term := by
      apply Nat.div_le_div_left _ (Nat.mul_pos hqPow (by omega))
      calc qPow * (2 * k + 1) ≤ qPow * (q * q) * (2 * k + 1) :=
            Nat.mul_le_mul_right _ (Nat.le_mul_of_pos_right qPow (Nat.mul_pos (by omega) (by omega)))
        _ ≤ qPow * (q * q) * (2 * (k + 1) + 1) := Nat.mul_le_mul_left _ (by omega)
    have hdef : term = scale / (qPow * (2 * k + 1)) := rfl
    obtain ⟨heven, hodd⟩ := ih hnext
    refine ⟨fun hk => ?_, fun hk => ?_⟩
    · simp only [dif_pos hk] at hodd
      rw [if_pos hk]
      have := hodd (by omega)
      omega
    · simp only [dif_neg (show ¬k % 2 = 0 by omega)] at heven
      rw [if_neg (show ¬k % 2 = 0 by omega)]
      have := heven (by omega)
      omega

theorem arctanInverse_bounds (q scale : Nat) (hq : 2 ≤ q) :
    ((scale / q : Nat) : Int) - (scale / (q * (q * q) * 3) : Nat) ≤ arctanInverse q scale hq ∧
      arctanInverse q scale hq ≤ (scale / q : Nat) := by
  have hfirst := (arctanInverseFrom_bounds q scale hq 0 q 0 (by omega)).1 rfl
  simp only [Nat.mul_one, Nat.mul_zero, Nat.zero_add, Int.zero_add] at hfirst
  refine ⟨?_, hfirst.2⟩
  unfold arctanInverse
  rw [arctanInverseFrom]
  split
  · next hzero =>
    simp only [Nat.mul_zero, Nat.zero_add, Nat.mul_one] at hzero
    rw [hzero]
    exact Int.sub_nonpos_of_le (Int.ofNat_le.mpr (Nat.zero_le _))
  · -- after the first term the sum stands at it, and the second term comes off
    have hsecond := (arctanInverseFrom_bounds q scale hq 1 (q * (q * q))
      (if 0 % 2 = 0 then 0 + ((scale / (q * (2 * 0 + 1)) : Nat) : Int)
        else 0 - ((scale / (q * (2 * 0 + 1)) : Nat) : Int))
      (Nat.mul_pos (by omega) (Nat.mul_pos (by omega) (by omega)))).2 rfl
    simp only [Nat.mul_one, Nat.mul_zero, Nat.zero_add, Int.zero_add, Nat.zero_mod,
      if_true] at hsecond ⊢
    exact hsecond.1

theorem pi_pos {p : Precision} (hp : p.digits ≤ 1000000) : 0 < (pi p).mantissa := by
  unfold pi
  extract_lets places scale a b
  have hplaces : low32 places = places := by
    rw [low32_of_lt (by omega) (by simp only [places, guardDigits]; omega)]
    rfl
  have hscale : 100 ≤ scale := by
    show 100 ≤ pow10Word places
    rw [pow10Word, hplaces]
    exact le_trans (by decide) (pow10_le_pow10 (show 2 ≤ places by simp only [places, guardDigits]; omega))
  have ha := (arctanInverse_bounds 5 scale (by decide)).1
  have hb := (arctanInverse_bounds 239 scale (by decide)).2
  have hsum : 0 < 16 * a - 4 * b := by
    simp only [a, b] at *
    omega
  have hsign := round_mantissa_sign ⟨16 * a - 4 * b, places⟩ p
  exact Int.sign_pos_iff.mp (hsign ▸ Int.sign_pos_iff.mpr hsum)

/-- The series of `ln r` at an `r` of no sign below zero fails only by overflow, and it is
positive when `r - 1` came out positive and `r + 1` with fewer than `2 ^ 31` digits: every power
of `z = (r - 1) / (r + 1)` is then positive. -/
theorem lnSeries_meets {r : Decimal} (hr : 0 ≤ r.mantissa) {w : Precision}
    (hw : w.digits ≤ 1000000) :
    (lnSeries r w).Meets
      (fun v => ∃ a b, r.sub one w = .ok a ∧ r.add one w = .ok b ∧
        (0 < a.mantissa → b.digits < 2 ^ 31 → 0 < v.mantissa)) (· = .overflow) := by
  simp only [lnSeries]
  refine meets_bind ((sub_meets r one w).with_eq) fun a ha => ?_
  -- `r + 1` is positive, so the quotient is defined, and positive with `r - 1`
  refine meets_bind ((add_meets r one w).with_eq) fun b hb => ?_
  have hbpos : 0 < b.mantissa := (hb.2 hr (by decide)).2 (.inr (by decide))
  refine meets_bind (div_meets a hbpos.ne' w) fun z hz => ?_
  -- the condition under which every value below is positive
  set live := 0 < a.mantissa ∧ b.digits < 2 ^ 31
  have hzpos : live → 0 < z.mantissa := fun h => (hz.1 hbpos h.1.le).2 h.1 (by omega)
  refine meets_ite (fun hzero => meets_pure ⟨a, b, ha.1, hb.1, fun hapos hbd => ?_⟩)
    fun hzero => ?_
  · exact absurd hzero (hzpos ⟨hapos, hbd⟩).ne'
  refine meets_bind (mul_meets z z w) fun z2 hz2 => ?_
  refine meets_bind (series_meets
    (fun power => (live → 0 < power.mantissa) ∧ (live → 0 < z2.mantissa))
    (fun term => live → 0 ≤ term.mantissa) (fun sum => live → 0 < sum.mantissa)
    (fun n power hn hpower => ?_) (fun sum term hsum hterm => ?_) ⟨hzpos, fun h => ?_⟩ hzpos)
    fun sum hsum => ?_
  · refine meets_bind (mul_meets power z2 w) fun power' hpower' => ?_
    have hn' : (ofInt (2 * n + 1)).mantissa ≠ 0 := by
      show ((2 * n + 1 : Nat) : Int) ≠ 0
      omega
    refine meets_bind (div_meets power' hn' w) fun term hterm => meets_pure ?_
    have hpos : live → 0 < power'.mantissa := fun h => by
      apply Int.sign_pos_iff.mp
      rw [hpower'.1, Int.sign_eq_one_of_pos (hpower.1 h), Int.sign_eq_one_of_pos (hpower.2 h)]
      decide
    refine ⟨⟨hpos, hpower.2⟩, fun h => (hterm.1 (by show (0 : Int) < (2 * n + 1 : Nat); omega)
      (hpos h).le).1⟩
  · exact (add_meets sum term w).mono
      (fun sum' h hlive => ((h (hsum hlive).le (hterm hlive)).2 (.inl (hsum hlive))))
      fun _ h => h
  · apply Int.sign_pos_iff.mp
    rw [hz2.1, Int.sign_eq_one_of_pos (hzpos h)]
    decide
  · refine (mul_meets sum 2 w).mono (fun v hv => ⟨a, b, ha.1, hb.1, fun hapos hbd => ?_⟩)
      fun _ h => h
    apply Int.sign_pos_iff.mp
    rw [hv.1, Int.sign_eq_one_of_pos (hsum ⟨hapos, hbd⟩)]
    decide

theorem add_unit_eq {r u : Decimal} (hr : r.mantissa ≠ 0) (hu : u.mantissa ≠ 0)
    (he : r.exponent = 0) (hue : u.exponent = 0) (hscale : wrap64 (-r.scale - 1) < 0)
    (w : Precision) : r.add u w = ((r.exactAdd u).round w).checked :=
  add_eq_exactAdd hr hu (by rw [hue, he])
    (by rw [hue]; exact fun h => absurd (lt_of_lt_of_le h (min_le_right _ _)) (by omega))

theorem sub_one_meets {r : Decimal} (hr : r.mantissa ≠ 0) (he : r.exponent = 0)
    (hscale : wrap64 (-r.scale - 1) < 0) (hexact : 0 < (r.exactAdd (-one)).mantissa)
    (w : Precision) : (r.sub one w).Meets (fun a => 0 < a.mantissa) (· = .overflow) := by
  unfold sub
  rw [add_unit_eq hr (by decide) he (by with_unfolding_all decide) hscale]
  exact (round_checked_meets _ w).mono
    (fun a ha => Int.sign_pos_iff.mp (ha.1 ▸ Int.sign_pos_iff.mpr hexact)) fun _ h => h

theorem add_one_meets {r : Decimal} (hr : r.mantissa ≠ 0) (he : r.exponent = 0)
    (hscale : wrap64 (-r.scale - 1) < 0) (hexact : (r.exactAdd one).digits < 2 ^ 32)
    (w : Precision) : (r.add one w).Meets (fun b => b.digits ≤ w.digits) (· = .overflow) := by
  rw [add_unit_eq hr (by decide) he (by with_unfolding_all decide) hscale]
  exact (round_checked_meets _ w).mono (fun b hb => hb.2 hexact) fun _ h => h

theorem lnTen_pos {w : Precision} (hw : w.digits ≤ 1000000) :
    (lnTen w).Meets (fun v => 0 < v.mantissa) (· = .overflow) := by
  have hpositive : ∀ r : Decimal, 0 ≤ r.mantissa →
      (r.sub one w).Meets (fun a => 0 < a.mantissa) (· = .overflow) →
      (r.add one w).Meets (fun b => b.digits ≤ w.digits) (· = .overflow) →
      (lnSeries r w).Meets (fun v => 0 < v.mantissa) (· = .overflow) := by
    intro r hr hsub hadd
    refine (lnSeries_meets hr hw).mono (fun v ⟨a, b, ha, hb, hv⟩ => ?_) fun _ h => h
    exact hv (hsub.of_ok ha) (by have := hadd.of_ok hb; omega)
  have htwo := hpositive 2 (by decide)
    (sub_one_meets (by decide) (by with_unfolding_all decide) (by with_unfolding_all decide)
      (by with_unfolding_all decide) w)
    (add_one_meets (by decide) (by with_unfolding_all decide) (by with_unfolding_all decide)
      (by with_unfolding_all decide) w)
  have hquarter := hpositive ⟨125, 2⟩ (by decide)
    (sub_one_meets (by decide) (by with_unfolding_all decide) (by with_unfolding_all decide)
      (by with_unfolding_all decide) w)
    (add_one_meets (by decide) (by with_unfolding_all decide) (by with_unfolding_all decide)
      (by with_unfolding_all decide) w)
  simp only [lnTen, lnTwo]
  refine meets_bind htwo fun lnTwo hlnTwo => meets_bind (mul_meets lnTwo 3 w) fun three hthree => ?_
  have hthreepos : 0 < three.mantissa := by
    apply Int.sign_pos_iff.mp
    rw [hthree.1, Int.sign_eq_one_of_pos hlnTwo]
    decide
  refine meets_bind hquarter fun quarter hquarter => (add_meets three quarter w).mono
    (fun v hv => (hv hthreepos.le hquarter.le).2 (.inl hthreepos)) fun _ h => h

theorem raiseToRoot_pos {n y : Nat} (hn : 0 < n) : 0 < raiseToRoot n y := by
  fun_induction raiseToRoot n y with
  | case1 y _ ih => exact ih
  | case2 y hstop =>
    rcases Nat.eq_zero_or_pos y with rfl | hy
    · exact absurd (by simpa using Nat.succ_le_of_lt hn) hstop
    · exact hy

theorem isqrt_pos {n : Nat} (hn : 0 < n) : 0 < isqrt n := by
  unfold isqrt
  rw [if_neg (by omega)]
  exact raiseToRoot_pos hn

theorem sqrt_of_neg {x : Decimal} (hx : x.mantissa < 0) (p : Precision) :
    sqrt x p = .error (.outOfDomain "√" x) := by
  unfold sqrt
  rw [if_pos (by simp [isNeg, hx])]
  rfl

theorem sqrt_meets {x : Decimal} (hx : 0 ≤ x.mantissa) (p : Precision) :
    (sqrt x p).Meets (fun v => 0 ≤ v.mantissa ∧ (0 < x.mantissa → 0 < v.mantissa))
      (· = .overflow) := by
  unfold sqrt
  rw [if_neg (by simp [isNeg]; omega)]
  beta_reduce
  refine meets_ite (fun hzero => meets_pure ⟨le_refl 0, fun hpos => absurd hzero (by omega)⟩)
    fun hzero => ?_
  extract_lets w shift shift' n
  have hn : 0 < n := Nat.mul_pos (by omega) (pow10_pos _)
  refine (finish_meets _ p).mono (fun v hv => ?_) fun _ h => h
  have hroot : 0 < (isqrt n : Int) := by exact_mod_cast isqrt_pos hn
  have hv' : 0 < v.mantissa := Int.sign_pos_iff.mp (hv ▸ Int.sign_pos_iff.mpr hroot)
  exact ⟨hv'.le, fun _ => hv'⟩

end Calculator.Elementary
