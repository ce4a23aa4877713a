import Calculator.Proofs.RoundingError
/-!
The arithmetic of working values. The elementary functions compute with decimals whose digits
stay below `2 ^ 30` and whose scales, when nonzero, stay below `2 ^ 42` in size (`Tame`): every
value an operation returns at a working precision below `2 ^ 20` digits is such a value again,
since its exponent passed the check. On such values each operation returns the exact result
rounded to the working precision, or fails by overflow, and then only when the exact result's
exponent lies near the limit (`add_spec`, `sub_spec`, `mul_spec`, `div_spec`).
-/

namespace Calculator.Decimal

open Except

structure Tame (x : Decimal) : Prop where
  digits_lt : x.digits < 2 ^ 30
  scale_lt : x.mantissa ≠ 0 → x.scale.natAbs < 2 ^ 42

structure Sane (x : Decimal) : Prop where
  digits_lt : x.digits < 2 ^ 31
  scale_lt : x.mantissa ≠ 0 → x.scale.natAbs < 2 ^ 57

theorem Tame.sane {x : Decimal} (hx : x.Tame) : x.Sane :=
  ⟨lt_trans hx.digits_lt (by decide), fun h => lt_trans (hx.scale_lt h) (by decide)⟩

theorem Sane.abs {x : Decimal} (hx : x.Sane) : x.abs.Sane :=
  ⟨by rw [digits_abs]; exact hx.digits_lt, fun h => hx.scale_lt (by simpa [Decimal.abs] using h)⟩

def Beyond (q : ℚ) : Prop := q ≠ 0 ∧ (exponentLimit : ℤ) ≤ |Int.log 10 (|q|)| + 1

theorem Tame.neg {x : Decimal} (hx : x.Tame) : (-x).Tame :=
  ⟨by rw [digits_neg]; exact hx.digits_lt, fun h => hx.scale_lt (by simpa using h)⟩

theorem value_zero : zero.value = 0 := by
  simp [value, zero]

/-! What an operation forms before its check -/

theorem checked_spec {R : Decimal} {w : Precision} (hw : w.digits < 2 ^ 20)
    (hd : R.digits ≤ w.digits) (hs : R.mantissa ≠ 0 → R.scale.natAbs < 2 ^ 60) :
    R.checked.Meets (fun z => z = R ∧ z.Tame)
      (fun e => e = .overflow ∧ R.mantissa ≠ 0 ∧
        (exponentLimit : ℤ) < |Int.log 10 (|R.value|)|) := by
  by_cases hm : R.mantissa = 0
  · have hok : R.checked = .ok R := by
      unfold checked
      rw [if_neg fun h => h.1 hm]
    rw [hok]
    exact ⟨rfl, ⟨by omega, fun h => absurd hm h⟩⟩
  have hsc := hs hm
  have hexp : R.exponent = (R.digits : ℤ) - 1 - R.scale := exponent_eq_of_bounds (by omega) (by omega)
  have hmin : R.exponent ≠ int64Min := by
    rw [hexp]
    unfold int64Min
    omega
  have hiff := checked_eq_overflow_iff hm hmin
  rw [hexp, ← log_abs_value hm (by omega)] at hiff
  cases hc : R.checked with
  | error e =>
    have he : e = .overflow := (checked_meets R).of_error hc
    subst he
    exact ⟨rfl, hm, hiff.mp hc⟩
  | ok z =>
    have hz : z = R := checked_ok hc
    subst hz
    have hlim : |Int.log 10 (|z.value|)| ≤ (exponentLimit : ℤ) := by
      by_contra hbig
      rw [hiff.mpr (not_le.mp hbig)] at hc
      cases hc
    rw [log_abs_value hm (by omega), abs_le] at hlim
    unfold exponentLimit at hlim
    exact ⟨rfl, ⟨by omega, fun _ => by omega⟩⟩

theorem spec_of_formed {R : Decimal} {q : ℚ} {w : Precision} (hw : w.digits < 2 ^ 20)
    (hv : R.value = roundSig q w.digits) (hd : R.digits ≤ w.digits)
    (hs : R.mantissa ≠ 0 → R.scale.natAbs < 2 ^ 60) :
    R.checked.Meets (fun z => z.Tame ∧ z.value = roundSig q w.digits)
      (fun e => e = .overflow ∧ Beyond q) := by
  refine (checked_spec hw hd hs).mono (fun z ⟨hz, htame⟩ => ⟨htame, hz ▸ hv⟩) ?_
  rintro e ⟨he, hm, hlog⟩
  refine ⟨he, ?_⟩
  have hR : R.value ≠ 0 := value_eq_zero_iff.not.mpr hm
  have hq : q ≠ 0 := by
    rintro rfl
    rw [roundSig_zero] at hv
    exact hR hv
  obtain ⟨-, hlo, hhi⟩ := log_roundSig_mem hq w.digits_pos
  rw [hv] at hlog
  refine ⟨hq, ?_⟩
  have hkey : (exponentLimit : ℤ) - 1 ≤ |Int.log 10 (|q|)| := by
    rw [le_abs]
    rcases lt_abs.mp hlog with h | h
    · left
      omega
    · right
      omega
  linarith

theorem round_formed {A : Decimal} (hs : A.scale.natAbs < 2 ^ 58) (hd : A.digits < 2 ^ 32)
    (w : Precision) :
    (A.round w).value = roundSig A.value w.digits ∧ (A.round w).digits ≤ w.digits ∧
      (A.round w).scale.natAbs < 2 ^ 60 := by
  have hw : A.WordScale := by
    unfold WordScale int64Min int64Max
    omega
  have he : A.TrueExponent := by
    unfold TrueExponent int64Max
    omega
  have hscale := round_scale_mem hw he w
  exact ⟨value_round hw he hd w, round_digits_le w hd, by omega⟩

theorem round_formed_of_sane {y : Decimal} (hy : y.Sane) (w : Precision) :
    (y.round w).value = roundSig y.value w.digits ∧ (y.round w).digits ≤ w.digits ∧
      ((y.round w).mantissa ≠ 0 → (y.round w).scale.natAbs < 2 ^ 60) := by
  by_cases hy0 : y.mantissa = 0
  · -- zero has one digit, so it is kept as it is
    have hone : y.digits = 1 := by
      show digitCount y.mantissa.natAbs = 1
      rw [hy0, Int.natAbs_zero, digitCount_zero]
    have hp := w.digits_pos
    rw [round_of_digits_le (by omega), value_eq_zero_iff.mpr hy0, roundSig_zero]
    exact ⟨rfl, by omega, fun h => absurd hy0 h⟩
  obtain ⟨hv, hd, hs⟩ := round_formed (A := y) (by have := hy.scale_lt hy0; omega)
    (by have := hy.digits_lt; omega) w
  exact ⟨hv, hd, fun _ => hs⟩

/-! Sums -/

theorem exactAdd_tipAddend_formed {big small : Decimal} (hb : big.Tame) (hs : small.Tame)
    (hb0 : big.mantissa ≠ 0) (hs0 : small.mantissa ≠ 0) (hle : small.exponent ≤ big.exponent)
    {w : Precision} (hw : w.digits < 2 ^ 20) :
    ((big.exactAdd (tipAddend big small w)).round w).value =
        roundSig (big.value + small.value) w.digits ∧
      ((big.exactAdd (tipAddend big small w)).round w).digits ≤ w.digits ∧
      ((big.exactAdd (tipAddend big small w)).round w).scale.natAbs < 2 ^ 60 := by
  have hbs := hb.scale_lt hb0
  have hss := hs.scale_lt hs0
  have hbd := hb.digits_lt
  have hsd := hs.digits_lt
  obtain ⟨hv, -, hd, hsc⟩ := round_exactAdd_tipAddend (p := w) hb0 hs0 (by omega) (by omega)
    (by omega) hle
  obtain ⟨-, hd', hs'⟩ := round_formed (A := big.exactAdd (tipAddend big small w)) (by omega)
    (by omega) w
  exact ⟨hv, hd', hs'⟩

theorem add_formed {x y : Decimal} (hx : x.Tame) (hy : y.Tame) {w : Precision}
    (hw : w.digits < 2 ^ 20) : ∃ R : Decimal, x.add y w = R.checked ∧
      R.value = roundSig (x.value + y.value) w.digits ∧ R.digits ≤ w.digits ∧
      (R.mantissa ≠ 0 → R.scale.natAbs < 2 ^ 60) := by
  by_cases hx0 : x.mantissa = 0
  · refine ⟨y.round w, by unfold add; rw [if_pos hx0], ?_⟩
    rw [value_eq_zero_iff.mpr hx0, zero_add]
    exact round_formed_of_sane hy.sane w
  by_cases hy0 : y.mantissa = 0
  · refine ⟨x.round w, by unfold add; rw [if_neg hx0, if_pos hy0], ?_⟩
    rw [value_eq_zero_iff.mpr hy0, add_zero]
    exact round_formed_of_sane hx.sane w
  by_cases hle : y.exponent ≤ x.exponent
  · obtain ⟨hv, hd, hs⟩ := exactAdd_tipAddend_formed hx hy hx0 hy0 hle hw
    exact ⟨_, add_of_exponent_le hx0 hy0 hle, hv, hd, fun _ => hs⟩
  · obtain ⟨hv, hd, hs⟩ := exactAdd_tipAddend_formed hy hx hy0 hx0 (not_le.mp hle).le hw
    exact ⟨_, add_of_exponent_lt hx0 hy0 (not_le.mp hle), by rw [hv, add_comm], hd, fun _ => hs⟩

theorem add_spec {x y : Decimal} (hx : x.Tame) (hy : y.Tame) {w : Precision}
    (hw : w.digits < 2 ^ 20) :
    (x.add y w).Meets (fun z => z.Tame ∧ z.value = roundSig (x.value + y.value) w.digits)
      (fun e => e = .overflow ∧ Beyond (x.value + y.value)) := by
  obtain ⟨R, heq, hv, hd, hs⟩ := add_formed hx hy hw
  rw [heq]
  exact spec_of_formed hw hv hd hs

theorem sub_spec {x y : Decimal} (hx : x.Tame) (hy : y.Tame) {w : Precision}
    (hw : w.digits < 2 ^ 20) :
    (x.sub y w).Meets (fun z => z.Tame ∧ z.value = roundSig (x.value - y.value) w.digits)
      (fun e => e = .overflow ∧ Beyond (x.value - y.value)) := by
  have h := add_spec hx hy.neg hw
  rw [value_neg, ← sub_eq_add_neg] at h
  exact h

/-! Products -/

theorem mul_formed {x y : Decimal} (hx : x.Sane) (hy : y.Sane) (w : Precision) :
    ∃ R : Decimal, x.mul y w = R.checked ∧
      R.value = roundSig (x.value * y.value) w.digits ∧ R.digits ≤ w.digits ∧
      (R.mantissa ≠ 0 → R.scale.natAbs < 2 ^ 60) := by
  refine ⟨Decimal.round ⟨x.mantissa * y.mantissa, wrap64 (x.scale + y.scale)⟩ w, rfl, ?_⟩
  by_cases h0 : x.mantissa * y.mantissa = 0
  · -- a zero factor: the product is a zero, kept as it is
    have hP : (⟨x.mantissa * y.mantissa, wrap64 (x.scale + y.scale)⟩ : Decimal).Sane :=
      ⟨by
        show digitCount (x.mantissa * y.mantissa).natAbs < _
        rw [h0, Int.natAbs_zero, digitCount_zero]
        decide, fun h => absurd h0 h⟩
    have hxy : x.value * y.value = 0 := by
      rcases mul_eq_zero.mp h0 with h | h
      · rw [value_eq_zero_iff.mpr h, zero_mul]
      · rw [value_eq_zero_iff.mpr h, mul_zero]
    have hP0 : (⟨x.mantissa * y.mantissa, wrap64 (x.scale + y.scale)⟩ : Decimal).value = 0 :=
      value_eq_zero_iff.mpr h0
    have := round_formed_of_sane hP w
    rwa [hP0, ← hxy] at this
  obtain ⟨hx0, hy0⟩ := mul_ne_zero_iff.mp h0
  have hxs := hx.scale_lt hx0
  have hys := hy.scale_lt hy0
  have hwrap : wrap64 (x.scale + y.scale) = x.scale + y.scale :=
    wrap64_of_natAbs_lt (by omega)
  -- the product of the mantissas has at most the digits of both
  have hxd := hx.digits_lt
  have hyd := hy.digits_lt
  have hdigits : digitCount (x.mantissa * y.mantissa).natAbs ≤ x.digits + y.digits := by
    rw [Int.natAbs_mul]
    exact digitCount_mul_le (show x.digits + y.digits < 2 ^ 32 by omega)
  obtain ⟨hv, hd, hs⟩ := round_formed (A := ⟨x.mantissa * y.mantissa, wrap64 (x.scale + y.scale)⟩)
    (by show (wrap64 (x.scale + y.scale)).natAbs < 2 ^ 58; rw [hwrap]; omega)
    (by show digitCount (x.mantissa * y.mantissa).natAbs < 2 ^ 32; omega) w
  refine ⟨?_, hd, fun _ => hs⟩
  rw [hv]
  congr 1
  unfold value
  rw [hwrap]
  push_cast
  rw [neg_add, zpow_add₀ (by norm_num)]
  ring

theorem mul_spec_of_sane {x y : Decimal} (hx : x.Sane) (hy : y.Sane) {w : Precision}
    (hw : w.digits < 2 ^ 20) :
    (x.mul y w).Meets (fun z => z.Tame ∧ z.value = roundSig (x.value * y.value) w.digits)
      (fun e => e = .overflow ∧ Beyond (x.value * y.value)) := by
  obtain ⟨R, heq, hv, hd, hs⟩ := mul_formed hx hy w
  rw [heq]
  exact spec_of_formed hw hv hd hs

theorem mul_spec {x y : Decimal} (hx : x.Tame) (hy : y.Tame) {w : Precision}
    (hw : w.digits < 2 ^ 20) :
    (x.mul y w).Meets (fun z => z.Tame ∧ z.value = roundSig (x.value * y.value) w.digits)
      (fun e => e = .overflow ∧ Beyond (x.value * y.value)) :=
  mul_spec_of_sane hx.sane hy.sane hw

/-! Quotients -/

theorem stripZerosTo_scale_mem (x : Decimal) (least : ℤ) (hx : x.mantissa ≠ 0) :
    min x.scale least ≤ (x.stripZerosTo least).scale ∧ (x.stripZerosTo least).scale ≤ x.scale := by
  have hbounds := stripDigits_scale x.mantissa.natAbs x.scale least
  unfold stripZerosTo
  rw [if_neg hx]
  rcases hstrip : stripDigits x.mantissa.natAbs x.scale least with ⟨m, s⟩
  rw [hstrip] at hbounds
  exact hbounds

theorem div_formed {x y : Decimal} (hx : x.Sane) (hy : y.Tame) (hy0 : y.mantissa ≠ 0)
    {w : Precision} (hw : w.digits < 2 ^ 20) : ∃ R : Decimal, x.div y w = R.checked ∧
      R.value = roundSig (x.value / y.value) w.digits ∧ R.digits ≤ w.digits ∧
      (R.mantissa ≠ 0 → R.scale.natAbs < 2 ^ 60) := by
  by_cases hx0 : x.mantissa = 0
  · -- a zero dividend gives the zero of scale zero, which the check keeps
    refine ⟨zero, ?_, ?_, le_trans (by with_unfolding_all decide : zero.digits ≤ 1) w.digits_pos,
      fun h => absurd rfl h⟩
    · unfold div
      rw [if_neg hy0, if_pos hx0]
      rfl
    · rw [value_zero, value_eq_zero_iff.mpr hx0, zero_div, roundSig_zero]
  have hxs := hx.scale_lt hx0
  have hys := hy.scale_lt hy0
  have hxd := hx.digits_lt
  have hyd := hy.digits_lt
  have hs : (x.scale - y.scale).natAbs < 2 ^ 62 := by omega
  have hd : x.digits + y.digits + w.digits + 2 < 2 ^ 32 := by omega
  obtain ⟨hvalue, hm, hrw, hre, hrd, -⟩ := roundedQuotient_facts hx0 hy0 hs hd
  obtain ⟨htw, hte⟩ := truncatedQuotient_words w hs hd
  have hround := round_scale_mem htw hte w
  have htq : (truncatedQuotient x y w).scale = x.scale - y.scale + quotientPlaces x y w := rfl
  have hk := quotientPlaces_eq x y w
  have htd := truncatedQuotient_digits_le x y w (by omega)
  have hstrip := stripZerosTo_scale_mem ((truncatedQuotient x y w).round w) (x.scale - y.scale) hm
  -- the quotient's scale stays within a few thousand places of `x.scale - y.scale`
  have hbound : (((truncatedQuotient x y w).round w).stripZerosTo (x.scale - y.scale)).scale.natAbs
      < 2 ^ 60 := by
    have hup : ((truncatedQuotient x y w).round w).scale ≤
        x.scale - y.scale + (w.digits + 2 + y.digits) := by
      have hq : (quotientPlaces x y w : ℤ) ≤ w.digits + 2 + y.digits := by
        rw [hk]
        exact max_le (by positivity) (by linarith [Int.natCast_nonneg x.digits])
      linarith [hround.2]
    have hlo : x.scale - y.scale - x.digits - 1 ≤ ((truncatedQuotient x y w).round w).scale := by
      have : ((truncatedQuotient x y w).digits : ℤ) ≤ x.digits + quotientPlaces x y w := by
        exact_mod_cast htd
      linarith [hround.1]
    -- the scales are computed by `round`, which the kernel must not unfold inside `omega`'s proof
    clear hvalue hrw hre htw hte hd hround htq htd hk hs hm
    generalize (((truncatedQuotient x y w).round w).stripZerosTo (x.scale - y.scale)).scale = s
      at hstrip ⊢
    generalize ((truncatedQuotient x y w).round w).scale = r at hstrip hup hlo
    omega
  refine ⟨((truncatedQuotient x y w).round w).stripZerosTo (x.scale - y.scale),
    div_eq_truncatedQuotient hx0 hy0 hs hd, by rw [value_stripZerosTo, hvalue],
    le_trans (stripZerosTo_digits_le _ _ (by omega)) hrd, fun _ => hbound⟩

theorem div_spec_of_sane {x y : Decimal} (hx : x.Sane) (hy : y.Tame) (hy0 : y.mantissa ≠ 0)
    {w : Precision} (hw : w.digits < 2 ^ 20) :
    (x.div y w).Meets (fun z => z.Tame ∧ z.value = roundSig (x.value / y.value) w.digits)
      (fun e => e = .overflow ∧ Beyond (x.value / y.value)) := by
  obtain ⟨R, heq, hv, hd, hs⟩ := div_formed hx hy hy0 hw
  rw [heq]
  exact spec_of_formed hw hv hd hs

theorem div_spec {x y : Decimal} (hx : x.Tame) (hy : y.Tame) (hy0 : y.mantissa ≠ 0)
    {w : Precision} (hw : w.digits < 2 ^ 20) :
    (x.div y w).Meets (fun z => z.Tame ∧ z.value = roundSig (x.value / y.value) w.digits)
      (fun e => e = .overflow ∧ Beyond (x.value / y.value)) :=
  div_spec_of_sane hx.sane hy hy0 hw

end Calculator.Decimal
