import Calculator.Proofs.Faults
import Calculator.Elementary.Function
import Calculator.Elementary.Power
import Calculator.Gateway.Basic
/-!
Where the elementary functions and the power fail. Outside its domain a function fails with the
domain error that names it and the argument (`apply_of_not_inDomain`). Inside it, all but two
fail only by overflow. The tangent divides by a cosine computed at the working precision, and the
arcsine divides by `√(1 - x²)` with `x²` rounded: at `0.999999999999999999999` and ten digits,
`x²` rounds to one and the division is by zero. The arccosine divides by `1 + x`, which stays
positive, so it fails only by overflow.
-/

namespace Except

variable {ε α : Type} {P : α → Prop} {E : ε → Prop}

theorem Meets.or_error {x : Except ε α} (h : x.Meets P E) (E' : ε → Prop) :
    x.Meets P fun e => E e ∨ E' e :=
  h.mono (fun _ h => h) fun _ h => .inl h

end Except

namespace Calculator

namespace Decimal

theorem compare_swap (x y : Decimal) : (x.compare y).swap = y.compare x := by
  unfold compare
  by_cases hs : x.sign = y.sign
  · rw [if_neg (not_not.mpr hs), if_neg (not_not.mpr hs.symm)]
    by_cases h0 : x.sign = 0
    · rw [if_pos h0, if_pos (hs ▸ h0)]
      rfl
    have h0' : ¬y.sign = 0 := hs ▸ h0
    simp only [h0', if_false, hs, eq_comm (a := x.exponent), max_comm x.scale y.scale]
    split_ifs <;> simp [Nat.compare_swap, Int.compare_swap]
  · rw [if_pos hs, if_pos (Ne.symm hs)]
    exact Int.compare_swap _ _

theorem lt_iff_not_le (x y : Decimal) : x < y ↔ ¬y ≤ x := by
  show x.compare y = .lt ↔ ¬y.compare x ≠ .gt
  rw [← compare_swap x y, not_not]
  cases x.compare y <;> simp

/-- Below `2 ^ 31` digits and places, a nonzero decimal compares in size with one as its mantissa
with `10 ^ scale`; at a negative scale it is past one. -/
theorem abs_compare_one {x : Decimal} (hm : x.mantissa ≠ 0) (hs : x.scale.natAbs < 2 ^ 31)
    (hd : x.digits < 2 ^ 31) :
    x.abs.compare one =
      if x.scale < 0 then .gt else Ord.compare x.mantissa.natAbs (pow10 x.scale.toNat) := by
  have hpos : 0 < x.mantissa.natAbs := Int.natAbs_pos.mpr hm
  have hword : x.digits < 2 ^ 32 := by omega
  have hlow : pow10 (x.digits - 1) ≤ x.mantissa.natAbs := pow10_pred_digitCount_le hpos hword
  have hhigh : x.mantissa.natAbs < pow10 x.digits := lt_pow10_digitCount hword
  have hsign : x.abs.sign = 1 := Int.sign_eq_one_of_pos (by simp [Decimal.abs]; omega)
  have hexp : x.abs.exponent = (x.digits : Int) - 1 - x.scale :=
    (exponent_of_small (x := x.abs) (by simp only [Decimal.abs]; omega)
      (by rw [digits_abs]; omega)).trans (by rw [digits_abs]; rfl)
  have hone : one.exponent = 0 := by with_unfolding_all decide
  unfold compare
  rw [hsign, show one.sign = 1 from rfl, if_neg (by decide), if_neg (by decide),
    if_neg (by decide), hexp, hone]
  have hdpos : 0 < x.digits := digitCount_pos _
  by_cases he : (x.digits : Int) - 1 - x.scale = 0
  · -- equal exponents: the scale is the count of digits after the first
    rw [if_pos he, if_neg (by omega)]
    have hmax : max x.scale one.scale = x.scale := max_eq_left (by show 0 ≤ x.scale; omega)
    simp only [hmax, magnitudeAt, Decimal.abs, Int.sub_self, pow10Word_of_lt (le_refl 0)
      (by decide), pow10Word_of_lt (show 0 ≤ x.scale - one.scale by show 0 ≤ x.scale - 0; omega)
      (by show x.scale - 0 < 2 ^ 32; omega)]
    simp only [one, Int.sub_zero, Int.natAbs_natCast, Int.toNat_zero, Int.natAbs_one]
    rw [show pow10 0 = 1 from rfl, Nat.mul_one, Nat.one_mul]
  rw [if_neg he]
  by_cases hneg : x.scale < 0
  · rw [if_pos hneg, Int.compare_eq_gt]
    omega
  rw [if_neg hneg]
  rcases lt_or_gt_of_ne he with hlt | hgt
  · -- fewer digits than places: below one
    rw [Int.compare_eq_lt.mpr hlt, eq_comm, Nat.compare_eq_lt]
    calc x.mantissa.natAbs < pow10 x.digits := hhigh
      _ ≤ pow10 x.scale.toNat := pow10_le_pow10 (by omega)
  · rw [Int.compare_eq_gt.mpr hgt, eq_comm, Nat.compare_eq_gt]
    calc pow10 x.scale.toNat < pow10 (x.digits - 1) := pow10_lt_pow10_iff.mpr (by omega)
      _ ≤ x.mantissa.natAbs := hlow

theorem compare_neg_one {x : Decimal} (hx : x.mantissa < 0) :
    x.compare (-one) = (x.abs.compare one).swap := by
  have hsign : x.sign = -1 := Int.sign_eq_neg_one_of_neg hx
  have habs : x.abs.sign = 1 := Int.sign_eq_one_of_pos (by simp [Decimal.abs]; omega)
  unfold compare
  rw [hsign, habs, show (-one).sign = -1 from rfl, show one.sign = 1 from rfl]
  simp only [ne_eq, not_true_eq_false, if_false, show ¬(-1 : Int) = 0 by decide,
    show ¬(1 : Int) = 0 by decide, show (-1 : Int) < 0 by decide, show ¬(1 : Int) < 0 by decide,
    if_true]
  rfl

def SizeAtMostOne (x : Decimal) : Prop :=
  x.mantissa = 0 ∨
    (0 ≤ x.scale ∧ x.scale < 2 ^ 32 - 1 ∧ x.mantissa.natAbs ≤ pow10 x.scale.toNat)

theorem sizeAtMostOne_of_le {x : Decimal} (h : x.abs ≤ one) (hs : x.scale.natAbs < 2 ^ 31)
    (hd : x.digits < 2 ^ 31) : x.SizeAtMostOne := by
  by_cases hm : x.mantissa = 0
  · exact .inl hm
  have hcmp : x.abs.compare one ≠ .gt := h
  rw [abs_compare_one hm hs hd] at hcmp
  split_ifs at hcmp with hneg
  · exact absurd rfl hcmp
  · exact .inr ⟨by omega, by omega, Nat.compare_ne_gt.mp hcmp⟩

theorem roundQuotient_le_of_le_mul {n A unit : Nat} (hu : 0 < unit) (h : n ≤ A * unit) :
    roundQuotient n unit ≤ A := by
  unfold roundQuotient
  have hhalf : unit / 2 < unit := Nat.div_lt_self hu (by decide)
  have hlt : (n + unit / 2) / unit < A + 1 := by
    rw [Nat.div_lt_iff_lt_mul hu, Nat.succ_mul]
    omega
  omega

theorem le_of_pow10_le {m n : Nat} (h : pow10 m ≤ pow10 n) : m ≤ n :=
  Nat.le_of_not_lt fun hlt => absurd h (not_le.mpr (pow10_lt_pow10_iff.mpr hlt))

theorem sizeAtMostOne_of_scale_eq {z : Decimal} {j k : Nat} (hs : z.scale = j) (hj : j ≤ k)
    (hk : k < 2 ^ 32 - 1) (hm : z.mantissa.natAbs ≤ pow10 j) : z.SizeAtMostOne ∧ z.scale ≤ k :=
  ⟨.inr ⟨by omega, by omega, by rw [hs, Int.toNat_natCast]; exact hm⟩, by omega⟩

/-- Rounding a mantissa of at most `10 ^ k` at the scale `k` keeps the size at most one, at a
scale of at most `k`: the rounded quotient is at most `10 ^ (k - dropped)`, and a carry drops a
zero digit more. -/
theorem round_sizeAtMostOne {x : Decimal} {k : Nat} (hm : x.mantissa.natAbs ≤ pow10 k)
    (hs : x.scale = k) (hk : k < 2 ^ 32 - 1) (p : Precision) :
    (x.round p).SizeAtMostOne ∧ (x.round p).scale ≤ k := by
  have hdigits : x.digits ≤ k + 1 := digitCount_le (Nat.succ_pos k) (by omega)
    (lt_of_le_of_lt hm (pow10_lt_pow10_iff.mpr (Nat.lt_succ_self k)))
  rw [round_eq_of_digits_lt (by omega)]
  extract_lets dropped q
  have hdropped_def : dropped = x.digits - p.digits := rfl
  have hq_def : q = roundQuotient x.mantissa.natAbs (pow10 dropped) := rfl
  clear_value dropped q
  by_cases hn : x.digits ≤ p.digits
  · rw [if_pos hn]
    exact sizeAtMostOne_of_scale_eq hs le_rfl hk hm
  rw [if_neg hn]
  have hdropped : dropped ≤ k := by
    have := p.digits_pos
    omega
  have hq : q ≤ pow10 (k - dropped) := hq_def ▸ roundQuotient_le_of_le_mul (pow10_pos _)
    (by rw [← pow10_add, Nat.sub_add_cancel hdropped]; exact hm)
  split
  · next hcarry =>
    -- a carry reached `10 ^ p`, so at least one place is left to drop its zero
    have hp : p.digits ≤ k - dropped := le_of_pow10_le (le_trans hcarry hq)
    have hscale : wrap64 (x.scale - dropped - 1) = ((k - dropped - 1 : Nat) : Int) := by
      rw [hs, wrap64_of_natAbs_lt (by omega)]
      have := p.digits_pos
      omega
    have hten : pow10 (k - dropped) = pow10 (k - dropped - 1) * 10 := by
      rw [← pow10_succ]
      congr 1
      have := p.digits_pos
      omega
    refine sizeAtMostOne_of_scale_eq hscale (by omega) hk ?_
    show (withSignOf x.mantissa (q / 10)).natAbs ≤ pow10 (k - dropped - 1)
    rw [natAbs_withSignOf]
    calc q / 10 ≤ pow10 (k - dropped) / 10 := Nat.div_le_div_right hq
      _ = pow10 (k - dropped - 1) := by rw [hten, Nat.mul_div_cancel _ (by decide)]
  · next hcarry =>
    have hscale : wrap64 (x.scale - dropped) = ((k - dropped : Nat) : Int) := by
      rw [hs, wrap64_of_natAbs_lt (by omega)]
      omega
    refine sizeAtMostOne_of_scale_eq hscale (by omega) hk ?_
    show (withSignOf x.mantissa q).natAbs ≤ pow10 (k - dropped)
    rw [natAbs_withSignOf]
    exact hq

theorem mul_self_sizeAtMostOne {x : Decimal} (hx : x.SizeAtMostOne) (hs : x.scale < 2 ^ 31)
    (w : Precision) :
    (x.mul x w).Meets (fun r => 0 ≤ r.mantissa ∧ r.SizeAtMostOne) (· = .overflow) := by
  refine (checked_meets _).mono (fun r hr => ?_) fun _ h => h
  subst hr
  have hsign := round_mantissa_sign ⟨x.mantissa * x.mantissa, wrap64 (x.scale + x.scale)⟩ w
  refine ⟨Int.sign_nonneg_iff.mp (hsign ▸ Int.sign_nonneg_iff.mpr (mul_self_nonneg _)), ?_⟩
  rcases hx with hzero | ⟨h0, -, hle⟩
  · left
    rw [show (⟨x.mantissa * x.mantissa, wrap64 (x.scale + x.scale)⟩ : Decimal).mantissa = 0 by
      show x.mantissa * x.mantissa = 0
      rw [hzero, Int.mul_zero], Int.sign_zero] at hsign
    exact Int.sign_eq_zero_iff_zero.mp hsign
  · refine (round_sizeAtMostOne (k := x.scale.toNat + x.scale.toNat) ?_ ?_ (by omega) w).1
    · show (x.mantissa * x.mantissa).natAbs ≤ pow10 (x.scale.toNat + x.scale.toNat)
      rw [Int.natAbs_mul, pow10_add]
      exact Nat.mul_le_mul hle hle
    · show wrap64 (x.scale + x.scale) = ((x.scale.toNat + x.scale.toNat : Nat) : Int)
      rw [wrap64_of_natAbs_lt (by omega)]
      omega

theorem exactAdd_one_mantissa {y : Decimal} (h0 : 0 ≤ y.scale) (h32 : y.scale < 2 ^ 32) :
    (one.exactAdd y).mantissa = (pow10 y.scale.toNat : Int) + y.mantissa := by
  have hmax : max one.scale y.scale = y.scale := max_eq_right h0
  simp only [exactAdd, hmax, Int.sub_self, pow10Word_of_lt (le_refl 0) (by decide),
    pow10Word_of_lt (show 0 ≤ y.scale - one.scale from by simpa [one] using h0)
      (show y.scale - one.scale < 2 ^ 32 from by simpa [one] using h32)]
  simp [one, show pow10 0 = 1 from rfl]

/-- One plus a decimal of size at most one has no sign below zero, and is positive unless the
decimal is minus one. An addend too small to show is replaced by a unit at the last place that
matters, which leaves the sum positive. -/
theorem one_add_meets {y : Decimal} (hy : y.SizeAtMostOne) {w : Precision}
    (hw : w.digits < 2 ^ 31) :
    (one.add y w).Meets (fun z => 0 ≤ z.mantissa ∧
      (0 ≤ y.mantissa ∨ y.mantissa.natAbs < pow10 y.scale.toNat → 0 < z.mantissa))
      (· = .overflow) := by
  unfold add
  rw [if_neg (show one.mantissa ≠ 0 by decide)]
  by_cases hy0 : y.mantissa = 0
  · rw [if_pos hy0]
    refine (round_checked_meets one w).mono (fun z hz => ?_) fun _ h => h
    have hz1 : 0 < z.mantissa := Int.sign_pos_iff.mp (by rw [hz.1]; decide)
    exact ⟨hz1.le, fun _ => hz1⟩
  rw [if_neg hy0]
  obtain ⟨hs0, hs32, hle⟩ := hy.resolve_left hy0
  have hdigits : y.digits ≤ y.scale.toNat + 1 := digitCount_le (Nat.succ_pos _) (by omega)
    (lt_of_le_of_lt hle (pow10_lt_pow10_iff.mpr (Nat.lt_succ_self _)))
  have hey : y.exponent ≤ 0 := by
    rw [exponent_of_small (by omega) (by omega)]
    omega
  have hex : one.exponent = 0 := by with_unfolding_all decide
  extract_lets ex ey
  split
  next big bigExp small smallExp hsel =>
    have hle' : ey ≤ ex := by
      show y.exponent ≤ one.exponent
      rw [hex]
      exact hey
    rw [if_pos hle', Prod.mk.injEq, Prod.mk.injEq, Prod.mk.injEq] at hsel
    obtain ⟨rfl, rfl, rfl, rfl⟩ := hsel
    extract_lets floor small'
    have hfloor : floor = -(w.digits : Int) - 3 := by
      show min (wrap64 (one.exponent - w.digits - 3)) (wrap64 (-one.scale - 1)) = _
      rw [hex, wrap64_of_natAbs_lt (by omega), wrap64_of_natAbs_lt (by decide)]
      show min ((0 : Int) - w.digits - 3) (-0 - 1) = _
      omega
    have hsmall :
        small' = if y.exponent < floor then ⟨y.mantissa.sign, wrap64 (-floor)⟩ else y :=
      rfl
    clear_value floor small'
    -- the exact sum, before rounding
    have hsum : 0 ≤ (one.exactAdd small').mantissa ∧ (0 ≤ y.mantissa ∨
        y.mantissa.natAbs < pow10 y.scale.toNat → 0 < (one.exactAdd small').mantissa) := by
      rw [hsmall]
      split_ifs with hbelow
      · -- the addend too small to show, replaced by a unit `w + 3` places down
        have hscale : wrap64 (-floor) = ((w.digits + 3 : Nat) : Int) := by
          rw [hfloor, wrap64_of_natAbs_lt (by omega)]
          omega
        rw [exactAdd_one_mantissa (by simp only [hscale]; omega) (by simp only [hscale]; omega)]
        show 0 ≤ (pow10 (wrap64 (-floor)).toNat : Int) + y.mantissa.sign ∧
          (_ → 0 < (pow10 (wrap64 (-floor)).toNat : Int) + y.mantissa.sign)
        rw [hscale, Int.toNat_natCast]
        have hunit : 1 < (pow10 (w.digits + 3) : Int) := by
          exact_mod_cast lt_of_lt_of_le (by decide)
            (pow10_le_pow10 (show 1 ≤ w.digits + 3 by omega))
        rcases Int.sign_trichotomy y.mantissa with h | h | h <;> rw [h] <;> omega
      · rw [exactAdd_one_mantissa hs0 (by omega)]
        omega
    refine (round_checked_meets _ w).mono (fun z hz => ?_) fun _ h => h
    have hz := hz.1
    refine ⟨Int.sign_nonneg_iff.mp (hz ▸ Int.sign_nonneg_iff.mpr hsum.1), fun hlt =>
      Int.sign_pos_iff.mp (hz ▸ Int.sign_pos_iff.mpr (hsum.2 hlt))⟩

theorem SizeAtMostOne.neg {y : Decimal} (hy : y.SizeAtMostOne) : (-y).SizeAtMostOne := by
  rcases hy with h | h
  · exact .inl (by simp [h])
  · exact .inr (by simpa using h)

theorem one_sub_meets {y : Decimal} (hy : y.SizeAtMostOne) {w : Precision}
    (hw : w.digits < 2 ^ 31) :
    (one.sub y w).Meets (fun z => 0 ≤ z.mantissa ∧
      (y.mantissa ≤ 0 ∨ y.mantissa.natAbs < pow10 y.scale.toNat → 0 < z.mantissa))
      (· = .overflow) := by
  refine (one_add_meets hy.neg hw).mono (fun z hz => ⟨hz.1, fun h => hz.2 ?_⟩) fun _ h => h
  simp only [neg_mantissa, neg_scale, Int.natAbs_neg]
  omega

theorem toInt64?_some {y : Decimal} {n : Int} (h : y.toInt64? = some n) :
    y.isInteger = true ∧ n.sign = y.mantissa.sign := by
  unfold toInt64? at h
  by_cases h0 : y.mantissa = 0
  · rw [if_pos h0] at h
    cases h
    exact ⟨by simp [isInteger, h0], by simp [h0]⟩
  rw [if_neg h0] at h
  by_cases hint : (!y.isInteger || decide (18 < y.exponent)) = true
  · rw [if_pos hint] at h
    cases h
  rw [if_neg hint] at h
  have hinteger : y.isInteger = true := (by simpa using hint : _ ∧ _).1
  refine ⟨hinteger, ?_⟩
  extract_lets word at h
  have hword : word = if y.scale ≤ 0 then y.mantissa * (pow10Word (-y.scale) : Int)
      else y.mantissa.tdiv (pow10Word y.scale : Int) := rfl
  clear_value word
  split_ifs at h
  cases h
  rw [hword]
  split_ifs with hs
  · have hpos : 0 < (pow10Word (-y.scale) : Int) := by exact_mod_cast pow10_pos _
    rw [Int.sign_mul, Int.sign_eq_one_of_pos hpos, Int.mul_one]
  · -- an integer at a positive scale is a nonzero multiple of the power, so the quotient is
    have hdvd : pow10Word y.scale ∣ y.mantissa.natAbs := by
      unfold isInteger at hinteger
      rw [if_neg (by omega)] at hinteger
      split_ifs at hinteger with hle
      exact Nat.dvd_of_mod_eq_zero (by simpa using hinteger)
    have hlow : pow10Word y.scale ≤ y.mantissa.natAbs :=
      Nat.le_of_dvd (Int.natAbs_pos.mpr h0) hdvd
    have hpos : 0 < (pow10Word y.scale : Int) := by exact_mod_cast pow10_pos _
    rw [Int.sign_tdiv, if_neg (by rw [Int.natAbs_natCast]; omega), Int.sign_eq_one_of_pos hpos,
      Int.mul_one]

theorem toInt64?_neg_iff {y : Decimal} {n : Int} (h : y.toInt64? = some n) :
    n < 0 ↔ y.isNeg = true := by
  rw [isNeg, decide_eq_true_iff, ← Int.sign_eq_neg_one_iff_neg, ← Int.sign_eq_neg_one_iff_neg,
    (toInt64?_some h).2]

end Decimal

namespace Elementary

open Decimal Except

abbrev OverflowOrZeroDivision {α : Type} (x : Except Fault α) : Prop :=
  x.Meets (fun _ => True) fun e => e = .overflow ∨ e = .divisionByZero

theorem OverflowOnly.orZeroDivision {α : Type} {x : Except Fault α} (h : OverflowOnly x) :
    OverflowOrZeroDivision x :=
  h.or_error _

theorem div_orZeroDivision (x y : Decimal) (w : Precision) : OverflowOrZeroDivision (x.div y w) := by
  by_cases hy : y.mantissa = 0
  · rw [div_zero x hy]
    exact .inr rfl
  · exact (div_overflowOnly x hy w).orZeroDivision

theorem tan_meets (x : Decimal) {p : Precision} (hp : p.digits ≤ 50000) :
    OverflowOrZeroDivision (tan x p) := by
  simp only [tan]
  refine meets_ite (fun _ => meets_pure trivial) fun _ => ?_
  refine meets_bind ((trigPrecision_meets x p).or_error _) fun w hw => ?_
  refine meets_bind (reduceAngle_meets x (by omega)).orZeroDivision fun r _ => ?_
  refine meets_bind (sinSeries_overflowOnly r w).orZeroDivision fun s _ => ?_
  refine meets_bind (cosSeries_overflowOnly r w).orZeroDivision fun c _ => ?_
  exact meets_bind (div_orZeroDivision s c w) fun v _ => (finish_overflowOnly v p).orZeroDivision

theorem arcsinWorking_meets {x : Decimal} (hx : x.SizeAtMostOne) (hs : x.scale < 2 ^ 31)
    {w : Precision} (hw : w.digits ≤ 100000) : OverflowOrZeroDivision (arcsinWorking x w) := by
  unfold arcsinWorking
  refine meets_ite (fun _ => ?_) fun _ => ?_
  · exact meets_bind (div_overflowOnly (pi w) (show (2 : Decimal).mantissa ≠ 0 by decide)
      w).orZeroDivision fun _ _ => meets_pure trivial
  refine meets_bind ((mul_self_sizeAtMostOne hx hs w).or_error _) fun square hsquare => ?_
  refine meets_bind ((one_sub_meets hsquare.2 (by omega)).or_error _) fun d hd => ?_
  refine meets_bind (OverflowOnly.of_meets (sqrt_meets hd.1 w)).orZeroDivision fun c _ => ?_
  exact meets_bind (div_orZeroDivision x c w) fun q _ =>
    (arctanWorking_overflowOnly q w).orZeroDivision

theorem arcsin_meets {x : Decimal} (hx : x.abs ≤ one) (hs : x.scale.natAbs < 2 ^ 31)
    (hd : x.digits < 2 ^ 31) {p : Precision} (hp : p.digits ≤ 50000) :
    OverflowOrZeroDivision (arcsin x p) := by
  unfold arcsin
  refine meets_ite (fun h => absurd hx ((lt_iff_not_le _ _).mp h)) fun _ => ?_
  refine meets_bind (arcsinWorking_meets (sizeAtMostOne_of_le hx hs hd) (by omega)
    (by simp only [Precision.widen_digits, guardDigits]; omega)) fun v _ => ?_
  exact (finish_overflowOnly v p).orZeroDivision

theorem arccos_overflowOnly {x : Decimal} (hx : x.abs ≤ one) (hs : x.scale.natAbs < 2 ^ 31)
    (hd : x.digits < 2 ^ 31) {p : Precision} (hp : p.digits ≤ 50000) :
    OverflowOnly (arccos x p) := by
  unfold arccos
  refine meets_ite (fun h => absurd hx ((lt_iff_not_le _ _).mp h)) fun _ => ?_
  refine meets_ite (fun _ => meets_pure trivial) fun _ => ?_
  refine meets_ite (fun _ => ?_) fun hminus => ?_
  · exact finish_overflowOnly _ p
  extract_lets w
  have hw : w.digits < 2 ^ 31 := by
    simp only [w, Precision.widen_digits, guardDigits]
    omega
  have hsize := sizeAtMostOne_of_le hx hs hd
  have hstrict : 0 ≤ x.mantissa ∨ x.mantissa.natAbs < pow10 x.scale.toNat := by
    by_cases hneg : x.mantissa < 0
    · have heq : x.abs.compare one ≠ .eq := fun heq => hminus (by
        simp [sameValue, compare_neg_one hneg, heq])
      have hle : x.abs.compare one ≠ .gt := hx
      rw [abs_compare_one (by omega) hs hd] at heq hle
      split_ifs at heq hle
      · exact absurd rfl hle
      · have h1 := Nat.compare_ne_gt.mp hle
        have h2 := mt Nat.compare_eq_eq.mpr heq
        omega
    · omega
  refine meets_bind (one_sub_meets hsize hw) fun a ha => ?_
  refine meets_bind (one_add_meets hsize hw) fun b hb => ?_
  have hbpos : 0 < b.mantissa := hb.2 hstrict
  refine meets_bind (div_meets a hbpos.ne' w) fun q hq => ?_
  refine meets_bind (sqrt_meets (hq.1 hbpos ha.1).1 w) fun r _ => ?_
  refine meets_bind (arctanWorking_overflowOnly r w) fun h _ => ?_
  exact meets_bind (mul_overflowOnly h 2 w) fun v _ => finish_overflowOnly v p

theorem mul_ne_zero_meets {x y : Decimal} (hx : x.mantissa ≠ 0) (hy : y.mantissa ≠ 0)
    (w : Precision) : (x.mul y w).Meets (fun z => z.mantissa ≠ 0) (· = .overflow) :=
  (mul_meets x y w).mono (fun z hz hzero => by
    rw [hzero, Int.sign_zero, eq_comm, ← Int.sign_mul] at hz
    exact Int.mul_ne_zero hx hy (Int.sign_eq_zero_iff_zero.mp hz.1)) fun _ h => h

theorem powerLoop_meets (w : Precision) (e : Nat) {acc b : Decimal} (hacc : acc.mantissa ≠ 0)
    (hb : b.mantissa ≠ 0) :
    (powerLoop w e acc b).Meets (fun r => r.mantissa ≠ 0) (· = .overflow) := by
  induction e using Nat.strong_induction_on generalizing acc b with
  | _ e ih =>
    rw [powerLoop]
    refine meets_ite (fun _ => hacc) fun he => ?_
    simp only []
    have hstep : ∀ acc' : Decimal, acc'.mantissa ≠ 0 →
        (if e / 2 > 0 then b.mul b w >>= fun b' => powerLoop w (e / 2) acc' b'
          else pure b >>= fun b' => powerLoop w (e / 2) acc' b').Meets
          (fun r => r.mantissa ≠ 0) (· = .overflow) := fun acc' hacc' =>
      meets_ite
        (fun _ => meets_bind (mul_ne_zero_meets hb hb w) fun _ hb' => ih _ (by omega) hacc' hb')
        fun _ => meets_bind (meets_pure hb) fun _ hb' => ih _ (by omega) hacc' hb'
    exact meets_ite (fun _ => meets_bind (mul_ne_zero_meets hacc hb w) hstep)
      fun _ => meets_bind (meets_pure hacc) hstep

theorem integerPower_meets (x : Decimal) (n : Int) (p : Precision) :
    (integerPower x n p).Meets (fun _ => True)
      fun e => e = .overflow ∨ (e = .divisionByZero ∧ x.mantissa = 0 ∧ n < 0) := by
  simp only [integerPower]
  refine meets_ite (fun _ => meets_pure trivial) fun _ => ?_
  refine meets_ite (fun hx => ?_) fun hx => ?_
  · exact meets_ite (fun hn => meets_throw (.inr ⟨rfl, hx, hn⟩)) fun _ => meets_pure trivial
  · -- a power of a nonzero base is nonzero, so its inverse divides by no zero
    refine meets_bind ((powerLoop_meets _ _ (show one.mantissa ≠ 0 by decide) hx).or_error _)
      fun acc hacc => ?_
    exact meets_ite (fun _ => (div_overflowOnly one hacc p).or_error _)
      fun _ => (OverflowOnly.of_meets (checked_meets _)).or_error _

def PowerFault (x y : Decimal) (e : Fault) : Prop :=
  e = .overflow ∨ (e = .divisionByZero ∧ x.mantissa = 0 ∧ y.isNeg = true) ∨
    (e = .outOfDomain "^" x ∧ x.isNeg = true ∧ y.isInteger = false)

theorem OverflowOnly.powerFault {α : Type} {z : Except Fault α} (h : OverflowOnly z)
    (x y : Decimal) :
    z.Meets (fun _ => True) (PowerFault x y) :=
  h.or_error _

theorem power_meets (x y : Decimal) {p : Precision} (hp : p.digits ≤ Gateway.maxPrecision) :
    (power x y p).Meets (fun _ => True) (PowerFault x y) := by
  unfold power
  extract_lets extra w general signCheck zeroCheck
  have hw : w.digits ≤ 100000 := by
    have hextra : extra ≤ 12 := by
      simp only [extra, expLimit]
      omega
    simp only [w, Precision.widen_digits, guardDigits]
    unfold Gateway.maxPrecision at hp
    omega
  have hgeneral : ∀ u, (general u).Meets (fun _ => True) (PowerFault x y) := fun _ =>
    meets_bind ((lnPositive_overflowOnly (Int.natCast_nonneg _) hw).powerFault x y) fun l _ =>
      meets_bind ((mul_overflowOnly y l w).powerFault x y) fun product _ =>
        meets_bind ((OverflowOnly.of_meets (exp_meets product _)).powerFault x y)
          fun _ _ => meets_pure trivial
  have hsign : ∀ u, (signCheck u).Meets (fun _ => True) (PowerFault x y) := fun _ =>
    meets_ite (fun h => meets_throw_bind (.inr (.inr ⟨rfl, h.1, by simpa using h.2⟩)) _)
      fun _ => hgeneral ()
  have hzero : ∀ u, (zeroCheck u).Meets (fun _ => True) (PowerFault x y) := fun _ =>
    meets_ite
      (fun hx => meets_ite (fun hy => meets_throw_bind (.inr (.inl ⟨rfl, hx, hy⟩)) _)
        fun _ => meets_pure trivial)
      fun _ => hsign ()
  split
  · next n hn =>
    refine meets_ite ?_ ?_
    · intro _
      exact (integerPower_meets x n p).mono (fun _ _ => trivial)
        fun _ he => he.imp_right fun h => .inl ⟨h.1, h.2.1, (toInt64?_neg_iff hn).mp h.2.2⟩
    · intro _
      exact hzero ()
  · exact hzero ()

theorem integerPower_of_zero_of_neg {x : Decimal} {n : Int} (hx : x.mantissa = 0) (hn : n < 0)
    (p : Precision) : integerPower x n p = .error .divisionByZero := by
  simp only [integerPower, if_neg (show n ≠ 0 by omega), if_pos hx, if_pos hn]
  rfl

theorem power_of_zero_of_neg {x y : Decimal} (hx : x.mantissa = 0) (hy : y.isNeg = true)
    (p : Precision) : power x y p = .error .divisionByZero := by
  unfold power
  extract_lets extra w general signCheck zeroCheck
  have hzero : zeroCheck () = .error .divisionByZero := by
    simp only [zeroCheck, if_pos hx, if_pos hy]
    rfl
  split
  · next n hn =>
    split_ifs
    · exact integerPower_of_zero_of_neg hx ((toInt64?_neg_iff hn).mpr hy) p
    · exact hzero
  · exact hzero

theorem power_of_neg_of_not_integer {x y : Decimal} (hx : x.isNeg = true)
    (hy : y.isInteger = false) (p : Precision) : power x y p = .error (.outOfDomain "^" x) := by
  have hx0 : x.mantissa ≠ 0 := by
    simp only [isNeg, decide_eq_true_eq] at hx
    omega
  unfold power
  rw [toInt64?_of_not_integer hy]
  simp only [if_neg hx0, hx, hy]
  rfl

namespace Function

theorem apply_of_not_inDomain {f : Function} {x : Decimal} (h : f.inDomain x = false)
    (p : Precision) : f.apply x p = .error (.outOfDomain f.name x) := by
  cases f <;> simp only [inDomain, decide_eq_false_iff_not] at h
  all_goals try cases h
  case arcsin =>
    rw [← Decimal.lt_iff_not_le] at h
    simp only [apply, Elementary.arcsin, if_pos h]
    rfl
  case arccos =>
    rw [← Decimal.lt_iff_not_le] at h
    simp only [apply, Elementary.arccos, if_pos h]
    rfl
  case sqrt =>
    simp only [Bool.not_eq_false'] at h
    simp only [apply, Elementary.sqrt, if_pos h]
    rfl
  case log =>
    simp only [apply, log10, if_pos (show x.sign ≤ 0 by omega)]
    rfl
  case ln =>
    simp only [apply, Elementary.ln, if_pos (show x.sign ≤ 0 by omega)]
    rfl

theorem apply_meets (f : Function) {x : Decimal} (h : f.inDomain x = true)
    (hs : x.scale.natAbs < 2 ^ 31) (hd : x.digits < 2 ^ 31) {p : Precision}
    (hp : p.digits ≤ Gateway.maxPrecision) :
    (f.apply x p).Meets (fun _ => True)
      fun e => e = .overflow ∨ (e = .divisionByZero ∧ (f = .tan ∨ f = .arcsin)) := by
  have hp' : p.digits ≤ 50000 := by
    unfold Gateway.maxPrecision at hp
    omega
  have hsane : x.Sane := ⟨hd, fun _ => by omega⟩
  cases f <;> simp only [inDomain, decide_eq_true_eq, Bool.not_eq_true'] at h
  case tan =>
    exact (tan_meets x hp').mono (fun _ h => h) fun _ he => he.imp_right (⟨·, .inl rfl⟩)
  case arcsin =>
    exact (arcsin_meets h hs hd hp').mono (fun _ h => h)
      fun _ he => he.imp_right (⟨·, .inr rfl⟩)
  case sin => exact (sin_overflowOnly x hp').or_error _
  case cos => exact (cos_overflowOnly x hp').or_error _
  case arccos => exact (arccos_overflowOnly h hs hd hp').or_error _
  case arctan => exact (arctan_overflowOnly x p).or_error _
  case sinh => exact (sinh_overflowOnly hsane hp').or_error _
  case cosh => exact (cosh_overflowOnly hsane hp').or_error _
  case tanh => exact (tanh_overflowOnly hsane hp').or_error _
  case sqrt =>
    refine (OverflowOnly.of_meets (sqrt_meets ?_ p)).or_error _
    simpa [isNeg] using h
  case log => exact (log10_overflowOnly h hp').or_error _
  case ln => exact (ln_overflowOnly h hp').or_error _
  case exp =>
    exact (OverflowOnly.of_meets (exp_meets x p)).or_error _

end Function

/-- Where the elementary functions and the power fail, at every precision the calculator accepts,
for arguments below `2 ^ 31` digits and places. A function fails with its domain error outside its
domain, and inside it by overflow, or, for the tangent and the inverse sine, by a division by zero.
The power divides by zero exactly at zero to a negative exponent, fails with its domain error
exactly at a negative base to an exponent that is not an integer, and otherwise only by overflow. -/
theorem function_and_power_faults {x y : Decimal} (hs : x.scale.natAbs < 2 ^ 31)
    (hd : x.digits < 2 ^ 31) {p : Precision} (hp : p.digits ≤ Gateway.maxPrecision) :
    (∀ f : Function,
      (f.inDomain x = false → f.apply x p = .error (.outOfDomain f.name x)) ∧
      (f.inDomain x = true → (f.apply x p).Meets (fun _ => True)
        fun e => e = .overflow ∨ (e = .divisionByZero ∧ (f = .tan ∨ f = .arcsin)))) ∧
    (power x y p = .error .divisionByZero ↔ x.mantissa = 0 ∧ y.isNeg = true) ∧
    (power x y p = .error (.outOfDomain "^" x) ↔ x.isNeg = true ∧ y.isInteger = false) ∧
    (power x y p).Meets (fun _ => True) (PowerFault x y) := by
  have hpower := power_meets x y hp
  refine ⟨fun f => ⟨fun h => Function.apply_of_not_inDomain h p,
    fun h => Function.apply_meets f h hs hd hp⟩, ⟨fun h => ?_, fun h => ?_⟩,
    ⟨fun h => ?_, fun h => ?_⟩, hpower⟩
  · -- the only fault of the power that divides by zero is the one at zero
    rcases hpower.of_error h with h | h | h
    · cases h
    · exact h.2
    · cases h.1
  · exact power_of_zero_of_neg h.1 h.2 p
  · rcases hpower.of_error h with h | h | h
    · cases h
    · cases h.1
    · exact h.2
  · exact power_of_neg_of_not_integer h.1 h.2 p

/-- At ten digits the inverse sine of `0.999999999999999999999`, inside its domain, divides by
zero: its square rounds to one at the working precision, and `√(1 - x²)` is zero. -/
theorem arcsin_divides_by_zero_near_one :
    Function.arcsin.inDomain ⟨999999999999999999999, 21⟩ = true ∧
    Function.arcsin.apply ⟨999999999999999999999, 21⟩ ⟨10, by decide, by decide⟩ =
      .error .divisionByZero ∧
    (Function.arcsin.apply ⟨999999999999999999999, 21⟩ ⟨10, by decide, by decide⟩).Meets
      (fun _ => True) fun e => e = .overflow ∨
        (e = .divisionByZero ∧ (Function.arcsin = .tan ∨ Function.arcsin = .arcsin)) := by
  have hdomain : Function.arcsin.inDomain ⟨999999999999999999999, 21⟩ = true := by
    with_unfolding_all decide
  refine ⟨hdomain, by with_unfolding_all decide, ?_⟩
  exact ((function_and_power_faults (y := zero) (by decide) (by with_unfolding_all decide)
    (by decide)).1 .arcsin).2 hdomain

end Elementary

end Calculator
