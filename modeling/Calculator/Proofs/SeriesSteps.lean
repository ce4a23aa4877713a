import Calculator.Proofs.ValueOrder
/-!
The loops of the elementary functions, each reduced to what one of its steps does. A series
keeps an invariant of its step count, state and partial sum when each step either meets a
negligible term, where the sum is taken, or adds the term and keeps the invariant; halving and
squaring are handled the same way. Negligibility is read on values: a negligible term lies more
than `w + 1` places below the sum, and a term that is not lies at most `w + 2` places below it.
-/

namespace Calculator.Elementary

open Decimal Except

variable {w : Precision} {E : Fault → Prop}

theorem sumSeries_meets_inv {next : Nat → Decimal → Except Fault (Decimal × Decimal)}
    (Inv : Nat → Decimal → Decimal → Prop) (Done : Decimal → Prop) (N : Nat)
    (hstep : ∀ n state sum, n < N → Inv n state sum → (next n state).Meets
      (fun r => (negligible r.2 sum w = true → Done sum) ∧
        (negligible r.2 sum w = false → (sum.add r.2 w).Meets (Inv (n + 1) r.1) E)) E)
    (hout : ∀ state sum, Inv N state sum → Done sum) (fuel n : Nat) (hN : n + fuel = N)
    {state sum : Decimal} (h : Inv n state sum) :
    (sumSeries w next fuel n state sum).Meets Done E := by
  induction fuel generalizing n state sum with
  | zero => exact meets_ok (hout state sum (by rwa [← hN]))
  | succ fuel ih =>
    unfold sumSeries
    refine meets_bind (hstep n state sum (by omega) h) fun r hr => ?_
    obtain ⟨state', term⟩ := r
    obtain ⟨hstop, hgo⟩ := hr
    refine meets_ite (fun hneg => meets_ok (hstop hneg)) fun hneg => ?_
    exact meets_bind (hgo (Bool.eq_false_iff.mpr hneg)) fun sum' hsum' =>
      ih (n + 1) (by omega) hsum'

theorem series_meets_inv {next : Nat → Decimal → Except Fault (Decimal × Decimal)}
    (Inv : Nat → Decimal → Decimal → Prop) (Done : Decimal → Prop)
    (hstep : ∀ n state sum, n < 1 + seriesFuel w → Inv n state sum → (next n state).Meets
      (fun r => (negligible r.2 sum w = true → Done sum) ∧
        (negligible r.2 sum w = false → (sum.add r.2 w).Meets (Inv (n + 1) r.1) E)) E)
    {start first : Decimal} (hout : ∀ state sum, Inv (1 + seriesFuel w) state sum → Done sum)
    (h : Inv 1 start first) : (series w next start first).Meets Done E :=
  sumSeries_meets_inv Inv Done _ hstep hout _ 1 rfl h

theorem halveWhileAbove_meets_inv {bound : Decimal} (Inv : Decimal → Nat → Prop)
    (Done : Decimal × Nat → Prop) (N : Nat)
    (hstep : ∀ r c, c < N → Inv r c → bound < r →
      (r.div 2 w).Meets (fun r' => Inv r' (c + 1)) E)
    (hstop : ∀ r c, Inv r c → ¬bound < r → Done (r, c)) (hout : ∀ r, Inv r N → Done (r, N))
    (fuel : Nat) {r : Decimal} {count : Nat} (hN : count + fuel = N) (h : Inv r count) :
    (halveWhileAbove bound w fuel r count).Meets Done E := by
  induction fuel generalizing r count with
  | zero =>
    obtain rfl : count = N := hN
    exact meets_ok (hout r h)
  | succ fuel ih =>
    unfold halveWhileAbove
    refine meets_ite (fun hgt => ?_) fun hle => meets_ok (hstop r count h hle)
    exact meets_bind (hstep r count (by omega) h hgt) fun r' hr' => ih (by omega) hr'

theorem squareTimes_meets_inv (Inv : Nat → Decimal → Prop)
    (hstep : ∀ i s, Inv i s → (s.mul s w).Meets (Inv (i + 1)) E) (k : Nat) {i : Nat} {s : Decimal}
    (h : Inv i s) : (squareTimes w k s).Meets (Inv (i + k)) E := by
  induction k generalizing i s with
  | zero => exact meets_ok h
  | succ k ih =>
    refine meets_bind (hstep i s h) fun s' hs' => ?_
    rw [← Nat.add_assoc, Nat.add_right_comm]
    exact ih hs'

/-! Negligible terms, read on values -/

theorem zpow_exponent_le {x : Decimal} (hx : x.Tame) (hm : x.mantissa ≠ 0) :
    (10 : ℚ) ^ x.exponent ≤ |x.value| := by
  have h := Int.zpow_log_le_self (b := 10) (by norm_num)
    (abs_pos.mpr (value_eq_zero_iff.not.mpr hm))
  rwa [log_abs_value_of_tame hx hm, Nat.cast_ofNat] at h

theorem lt_zpow_exponent {x : Decimal} (hx : x.Tame) (hm : x.mantissa ≠ 0) :
    |x.value| < (10 : ℚ) ^ (x.exponent + 1) := by
  have h := Int.lt_zpow_succ_log_self (b := 10) (by norm_num) |x.value|
  rwa [log_abs_value_of_tame hx hm, Nat.cast_ofNat] at h

theorem exponent_natAbs_lt {x : Decimal} (hx : x.Tame) (hm : x.mantissa ≠ 0) :
    x.exponent.natAbs < 2 ^ 43 := by
  have := hx.digits_lt
  have := hx.scale_lt hm
  rw [exponent_of_tame hx hm]
  omega

theorem negligible_threshold {sum : Decimal} (hs : sum.Tame) (hm : sum.mantissa ≠ 0)
    (hw : w.digits < 2 ^ 20) :
    wrap64 (sum.exponent - w.digits - 1) = sum.exponent - w.digits - 1 := by
  have := exponent_natAbs_lt hs hm
  exact wrap64_of_natAbs_lt (by omega)

theorem abs_lt_of_negligible {term sum : Decimal} (ht : term.Tame) (hs : sum.Tame)
    (hw : w.digits < 2 ^ 20) (ht0 : term.mantissa ≠ 0) (h : negligible term sum w = true) :
    sum.mantissa ≠ 0 ∧ |term.value| < |sum.value| * 10 ^ (-(w.digits : ℤ) - 1) := by
  simp only [negligible, Bool.or_eq_true, beq_iff_eq, ht0, false_or, Bool.and_eq_true,
    bne_iff_ne, ne_eq, decide_eq_true_eq] at h
  obtain ⟨hs0, hlt⟩ := h
  rw [negligible_threshold hs hs0 hw] at hlt
  refine ⟨hs0, ?_⟩
  calc |term.value| < 10 ^ (term.exponent + 1) := lt_zpow_exponent ht ht0
    _ ≤ 10 ^ (sum.exponent + (-(w.digits : ℤ) - 1)) :=
        zpow_le_zpow_right₀ (by norm_num) (by omega)
    _ = 10 ^ sum.exponent * 10 ^ (-(w.digits : ℤ) - 1) := zpow_add₀ (by norm_num) _ _
    _ ≤ |sum.value| * 10 ^ (-(w.digits : ℤ) - 1) :=
        mul_le_mul_of_nonneg_right (zpow_exponent_le hs hs0) (by positivity)

theorem lt_abs_of_not_negligible {term sum : Decimal} (ht : term.Tame) (hs : sum.Tame)
    (hw : w.digits < 2 ^ 20) (hs0 : sum.mantissa ≠ 0) (h : negligible term sum w = false) :
    term.mantissa ≠ 0 ∧ |sum.value| * 10 ^ (-(w.digits : ℤ) - 2) < |term.value| := by
  simp only [negligible, Bool.or_eq_false_iff, beq_eq_false_iff_ne, ne_eq, Bool.and_eq_false_iff,
    bne_eq_false_iff_eq, hs0, false_or, decide_eq_false_iff_not, not_lt] at h
  obtain ⟨ht0, hge⟩ := h
  rw [negligible_threshold hs hs0 hw] at hge
  refine ⟨ht0, ?_⟩
  calc |sum.value| * 10 ^ (-(w.digits : ℤ) - 2)
      < 10 ^ (sum.exponent + 1) * 10 ^ (-(w.digits : ℤ) - 2) :=
        mul_lt_mul_of_pos_right (lt_zpow_exponent hs hs0) (by positivity)
    _ = 10 ^ (sum.exponent - w.digits - 1) := by
        rw [← zpow_add₀ (by norm_num)]
        ring_nf
    _ ≤ 10 ^ term.exponent := zpow_le_zpow_right₀ (by norm_num) hge
    _ ≤ |term.value| := zpow_exponent_le ht ht0

/-! The last rounding -/

theorem finish_spec {s : Decimal} (hs : s.Tame) {p : Precision} (hp : p.digits < 2 ^ 20) :
    (finish s p).Meets (fun v => v.Tame ∧ v.value = roundSig s.value p.digits)
      (fun e => e = .overflow ∧ Beyond s.value) := by
  obtain ⟨hv, hd, hsc⟩ := round_formed_of_sane hs.sane p
  refine spec_of_formed hp (by rw [value_stripZerosTo, hv])
    ((stripZerosTo_digits_le _ _ (lt_of_le_of_lt hd (by omega))).trans hd) fun hm => ?_
  have hm' : (s.round p).mantissa ≠ 0 := by
    intro h0
    have := stripZerosTo_mantissa_sign (s.round p) 0
    rw [h0, Int.sign_zero, Int.sign_eq_zero_iff_zero] at this
    exact hm this
  have := stripZerosTo_scale_mem (s.round p) 0 hm'
  have := hsc hm'
  generalize ((s.round p).stripZerosTo 0).scale = t at *
  generalize (s.round p).scale = r at *
  omega

end Calculator.Elementary
